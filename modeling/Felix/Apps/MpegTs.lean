import Mathlib.Algebra.GroupWithZero.Nat
import Mathlib.Logic.Function.Basic

/-!
# MPEG-TS demuxer

`std-apps/twitch-radio/src/mpegts.rs`.  The demuxer collects the payload of the open PES packet
of every PID and gives it out when the next one starts.  The continuity counter only leads to
a message and is left out.  Where a stream of packets is cut into segments does not matter:
`demux_segments`.
-/

namespace Felix.MpegTs

open List

inductive PesKind
  | audio | video

structure PesStream where
  selected : Bool
  bytes : List UInt8

/-- The streams by PID.  A PID without a stream has the default one. -/
abbrev Streams := UInt16 → PesStream

/-- What `flush` appends to the output; the stream is the default one afterwards. -/
def flush (stream : PesStream) : List UInt8 := if stream.selected then stream.bytes else []

def PesKind.selects (kind : PesKind) (streamId : UInt8) : Bool :=
  match kind with
  | .audio => 0xc0 ≤ streamId && streamId ≤ 0xdf
  | .video => 0xe0 ≤ streamId && streamId ≤ 0xef

/-- The stream after the start of a PES packet. -/
def openPes (kind : PesKind) (payload : List UInt8) : PesStream :=
  if 9 ≤ payload.length ∧ payload.take 3 = [0, 0, 1] ∧ kind.selects (payload.getD 3 0) then
    ⟨true, payload.drop (9 + (payload.getD 8 0).toNat)⟩
  else ⟨false, []⟩

/-- The body of the loop of `extract_pes_chunk`. -/
def readPacket (kind : PesKind) (packet : List UInt8) (streams : Streams) :
    List UInt8 × Streams :=
  let byte := fun i => packet.getD i 0
  let pid := ((byte 1 &&& 0x1f).toUInt16 <<< 8) ||| (byte 2).toUInt16
  let control := (byte 3 >>> 4) &&& 0x03
  let p := 4 + if control = 3 then 1 + (byte 4).toNat else 0
  let stream := streams pid
  if byte 0 ≠ 0x47 ∨ byte 1 &&& 0x80 ≠ 0 ∨ control = 0 ∨ control = 2 ∨ 188 ≤ p then ([], streams)
  else if byte 1 &&& 0x40 ≠ 0 then
    (flush stream, Function.update streams pid (openPes kind (packet.drop p)))
  else if stream.selected then
    ([], Function.update streams pid ⟨true, stream.bytes ++ packet.drop p⟩)
  else ([], streams)

/-- The loop, from a position of the segment on. -/
def readPackets (kind : PesKind) (rest : List UInt8) (streams : Streams) : List UInt8 × Streams :=
  if _h : 188 ≤ rest.length then
    let (out, streams) := readPacket kind (rest.take 188) streams
    let (more, streams) := readPackets kind (rest.drop 188) streams
    (out ++ more, streams)
  else ([], streams)
termination_by rest.length
decreasing_by
  rw [length_drop]
  omega

def syncOffset (segment : List UInt8) : Option Nat :=
  (range (min segment.length 188)).find? fun i =>
    segment[i]? = some 0x47 && segment[i + 188]?.all (· = 0x47)

def extractPesChunk (segment : List UInt8) (kind : PesKind) (streams : Streams) :
    Except String (List UInt8) × Streams :=
  match syncOffset segment with
  | none => (.error "MPEG-TS sync byte not found", streams)
  | some offset =>
    let (output, streams) := readPackets kind (segment.drop offset) streams
    (.ok output, streams)

def pushSegment (segment : List UInt8) (streams : Streams) : Except String (List UInt8) × Streams :=
  extractPesChunk segment .video streams

def finish (streams : Streams) : List UInt8 :=
  (range (2 ^ 16)).flatMap fun pid => flush (streams (.ofNat pid))

/-- The output for some segments and of `finish`.  A segment that is refused gives nothing. -/
def demux : List (List UInt8) → Streams → List UInt8
  | [], streams => finish streams
  | segment :: segments, streams =>
    let (result, streams) := pushSegment segment streams
    result.toOption.getD [] ++ demux segments streams

/-- A transport packet: the sync byte and the rest. -/
structure Packet where
  tail : List UInt8
  length : tail.length = 187

def bytes (packets : List Packet) : List UInt8 := packets.flatMap fun packet => 0x47 :: packet.tail

variable {kind : PesKind} {packets : List Packet} {rest : List UInt8} {streams : Streams}

theorem readPackets_nil : readPackets kind [] streams = ([], streams) := by
  rw [readPackets, dif_neg (by decide)]

/-- The loop goes through the packets one by one. -/
theorem readPackets_append : readPackets kind (bytes packets ++ rest) streams
    = ((readPackets kind (bytes packets) streams).1 ++
        (readPackets kind rest (readPackets kind (bytes packets) streams).2).1,
      (readPackets kind rest (readPackets kind (bytes packets) streams).2).2) := by
  induction packets generalizing streams with
  | nil =>
    rw [show bytes [] = [] from rfl, readPackets_nil]
    rfl
  | cons packet packets ih =>
    have hlen : (0x47 :: packet.tail).length = 188 := congrArg (· + 1) packet.length
    have hstep : ∀ rest, readPackets kind ((0x47 :: packet.tail) ++ rest) streams
        = ((readPacket kind (0x47 :: packet.tail) streams).1 ++
            (readPackets kind rest (readPacket kind (0x47 :: packet.tail) streams).2).1,
          (readPackets kind rest (readPacket kind (0x47 :: packet.tail) streams).2).2) := by
      intro rest
      rw [readPackets, dif_pos (by rw [length_append]; omega), ← hlen, take_left, drop_left]
    rw [bytes, flatMap_cons, append_assoc, hstep, hstep]
    exact Prod.ext (by rw [append_assoc, ← bytes, ih]) (by rw [← bytes, ih])

/-- The first packet starts at once. -/
theorem syncOffset_bytes (packet : Packet) : syncOffset (bytes (packet :: packets)) = some 0 := by
  have hnext : (bytes (packet :: packets))[0 + 188]? = (bytes packets)[0]? := by
    show (packet.tail ++ bytes packets)[187]? = _
    rw [getElem?_append_right (Nat.le_of_eq packet.length), packet.length]
  rw [syncOffset, find?_range_eq_some, hnext]
  refine ⟨?_, ?_, nofun⟩
  · cases packets <;> rfl
  · exact mem_range.2 (Nat.lt_min.2 ⟨Nat.succ_pos _, by decide⟩)

theorem demux_bytes (segments : List (List UInt8)) : demux (bytes packets :: segments) streams
    = (readPackets .video (bytes packets) streams).1 ++
      demux segments (readPackets .video (bytes packets) streams).2 := by
  cases packets with
  | nil =>
    rw [show bytes [] = [] from rfl, readPackets_nil]
    rfl
  | cons packet packets =>
    rw [demux, pushSegment, extractPesChunk, syncOffset_bytes]
    rfl

/-- The output for a sequence of packets does not depend on the cuts. -/
theorem demux_segments (segments : List (List Packet)) (streams : Streams) :
    demux (segments.map bytes) streams = demux [bytes segments.flatten] streams := by
  rw [demux_bytes]
  induction segments generalizing streams with
  | nil =>
    rw [show bytes [].flatten = [] from rfl, readPackets_nil, nil_append, map_nil]
  | cons packets segments ih =>
    have hbytes : bytes (packets :: segments).flatten = bytes packets ++ bytes segments.flatten :=
      flatMap_append
    rw [map_cons, demux_bytes, ih, hbytes, readPackets_append, append_assoc]

end Felix.MpegTs
