import Felix.Ext2.File
import Felix.Io.Pipe
import Felix.Io.Pty
import Felix.Io.Read

/-!
# The length of a read

What a read of any length returns.  A back end that answers stays within the length it is
asked for and leaves the temporary buffer alone; that is `Lawful`.  Then a read returns if
the heap has room for its temporary buffer, or if it needs none, and if the back end
answers.

`ownBackend` answers with the keyboard, the pipes, the terminals and the ext2 volumes of
this development, and leaves sockets and other file systems to a second back end.
-/

namespace Felix.Read

open Res

open Fd (FileDescriptor FileMode PipeEnd PtySide)
open Memory Memory.HeapOp

variable {σ : Type} {backend : Backend σ} {slot : Slot} {buf : UserBuffer} {s : State σ}
  {heap : HeapLedger} {count n : Nat} {block : Block} {req : Request}

/-! ## Buffers -/

/-- The heap is in order and the buffer is one of its blocks in use. -/
def Holds (block : Block) (heap : HeapLedger) : Prop :=
  (∃ free, Inv heap free) ∧ ∀ b, block = some b → b ∈ heap.live

theorem holds_none {free : List (Nat × Nat)} (h : Inv heap free) : Holds none heap :=
  ⟨⟨free, h⟩, fun _ hb => (nomatch hb)⟩

/-- There is room for a vector of bytes. -/
def Fits (count : Nat) (heap : HeapLedger) : Prop :=
  count = 0 ∨ ∃ h : count < 2 ^ 31, Room heap (vecLayout count h)

theorem zeroed_of_fits (hheap : Holds none heap) (hfits : Fits count heap) :
    ∃ block heap', zeroed count heap = .ok (block, heap') ∧ Holds block heap' := by
  obtain ⟨⟨free, hinv⟩, -⟩ := hheap
  by_cases hzero : count = 0
  · exact ⟨none, heap, if_pos hzero, holds_none hinv⟩
  obtain ⟨hlt, hroom⟩ := hfits.resolve_left hzero
  obtain ⟨ptr, heap', free', hrun, hne, hinv', hlive⟩ := alloc_of_room hinv hroom
  refine ⟨some (ptr, vecLayout count hlt), heap', ?_, ⟨free', hinv'⟩, ?_⟩
  · simp only [zeroed, if_neg hzero, dif_pos hlt, hrun, ok_bind, if_neg hne]
  · intro b hb
    cases hb
    rw [hlive]
    exact List.mem_cons_self

theorem zeroed_of_not_fits (hheap : Holds none heap) (hfits : ¬Fits count heap) :
    ∃ fault, zeroed count heap = .error fault := by
  obtain ⟨⟨free, hinv⟩, -⟩ := hheap
  obtain ⟨hzero, hroom⟩ := not_or.1 hfits
  by_cases hlt : count < 2 ^ 31
  · simp only [zeroed, if_neg hzero, dif_pos hlt]
    rcases alloc_of_no_room hinv fun hr => hroom ⟨hlt, hr⟩ with hrun | hrun
    · exact ⟨.overflow, by rw [hrun]; rfl⟩
    · exact ⟨.memory, by rw [hrun]; rfl⟩
  · exact ⟨.overflow, by rw [zeroed, if_neg hzero, dif_neg hlt]⟩

theorem release_ok (hheap : Holds block heap) : ∃ heap', release block heap = .ok heap' := by
  obtain ⟨⟨free, hinv⟩, hlive⟩ := hheap
  rcases block with _ | ⟨ptr, layout⟩
  · exact ⟨heap, rfl⟩
  · obtain ⟨heap', free', hrun, -⟩ := hinv.dealloc (hlive _ rfl)
    exact ⟨⟨heap', heap.live.erase (ptr, layout)⟩, by simp only [release, run, hrun, ok_bind]⟩

/-! ## What is behind the descriptors -/

def Answer.Within (n : Nat) : Answer → Prop
  | .bytes m => m ≤ n
  | .wouldBlock | .error _ => True

/-- What holds whenever the back end answers. -/
structure Lawful (backend : Backend σ) : Prop where
  holds : ∀ {req block s answer s'}, backend req block s = .ok (answer, s') →
    Holds block s.1 → Holds block s'.1
  within : ∀ {req block s answer s'}, backend req block s = .ok (answer, s') →
    answer.Within req.len

/-- It answers the request with a temporary buffer of the given length. -/
def Answers (backend : Backend σ) (req : Request) (count : Nat) (s : State σ) : Prop :=
  ∀ block heap, zeroed count s.1 = .ok (block, heap) →
    ∃ answer s', backend req block (heap, s.2) = .ok (answer, s')

/-! ## Results -/

/-- No bytes are moved. -/
def Ret.Idle : Ret → Prop
  | .bytes m => m = 0
  | .error _ | .restart => True

variable {ret blocked : Ret} {fault : Fault}

theorem zero_idle : (Ret.bytes 0).Idle := rfl

theorem slot_blocked_idle (slot : Slot) : slot.blocked.Idle := by
  rw [Slot.blocked]
  split <;> trivial

theorem again_idle {nonblock : Bool} :
    (if nonblock then Ret.error .eagain else Ret.restart).Idle := by
  split <;> trivial

/-- The call returns, with the given result. -/
def Returns (ret : Ret) (r : Res (Ret × State σ)) : Prop := ∃ s', r = .ok (ret, s')

theorem not_returns_error : ¬Returns ret (.error fault : Res (Ret × State σ)) := by
  rintro ⟨s', h⟩
  cases h

/-- A request is answered, or the call does not return. -/
theorem ask_returns : (∃ ret, Returns ret (ask backend blocked req block s)) ↔
    ∃ answer s', backend req block s = .ok (answer, s') := by
  rw [ask]
  rcases backend req block s with fault | ⟨m | _ | e, s'⟩
  · exact iff_of_false (fun h => h.elim fun _ => not_returns_error) (by rintro ⟨_, _, h⟩; cases h)
  · exact iff_of_true ⟨_, s', rfl⟩ ⟨_, s', rfl⟩
  · exact iff_of_true ⟨_, s', rfl⟩ ⟨_, s', rfl⟩
  · exact iff_of_true ⟨_, s', rfl⟩ ⟨_, s', rfl⟩

/-- The bytes that a call moves are those that the back end hands over. -/
theorem ask_bytes (hblocked : blocked.Idle) (hn : 0 < n) :
    Returns (.bytes n) (ask backend blocked req block s) ↔
      ∃ s', backend req block s = .ok (.bytes n, s') := by
  rw [ask]
  rcases backend req block s with fault | ⟨m | _ | e, s'⟩
  · exact iff_of_false not_returns_error (by rintro ⟨_, h⟩; cases h)
  · constructor
    · rintro ⟨s₁, h⟩
      cases h
      exact ⟨_, rfl⟩
    · rintro ⟨s₁, h⟩
      cases h
      exact ⟨_, rfl⟩
  · refine iff_of_false ?_ (by rintro ⟨_, h⟩; cases h)
    rintro ⟨s₁, h⟩
    cases h
    exact Nat.ne_of_gt hn hblocked
  · refine iff_of_false ?_ (by rintro ⟨_, h⟩; cases h)
    rintro ⟨s₁, h⟩
    cases h

/-- A call with a temporary buffer returns what its rest returns. -/
theorem withBuffer_returns (hlaw : Lawful backend) (hheap : Holds none s.1) :
    Returns ret (withBuffer count (ask backend blocked req) s) ↔ ∃ block heap,
      zeroed count s.1 = .ok (block, heap) ∧
        Returns ret (ask backend blocked req block (heap, s.2)) := by
  constructor
  · rintro ⟨s', hrun⟩
    obtain ⟨⟨block, heap⟩, hbuf, hrest⟩ := bind_eq_ok.1 hrun
    obtain ⟨⟨ret₁, s₁⟩, hf, hrest⟩ := bind_eq_ok.1 hrest
    obtain ⟨heap₁, -, hlast⟩ := bind_eq_ok.1 hrest
    cases hlast
    exact ⟨block, heap, hbuf, s₁, hf⟩
  · rintro ⟨block, heap, hbuf, s₁, hf⟩
    have hholds : Holds block heap := by
      by_cases hfits : Fits count s.1
      · obtain ⟨block', heap', hbuf', hholds⟩ := zeroed_of_fits hheap hfits
        rw [hbuf] at hbuf'
        cases hbuf'
        exact hholds
      · obtain ⟨fault, hfault⟩ := zeroed_of_not_fits hheap hfits
        rw [hbuf] at hfault
        cases hfault
    -- the back end leaves the buffer where it is
    have hafter : Holds block s₁.1 := by
      obtain ⟨⟨answer, s₂⟩, hanswer, hrest⟩ := bind_eq_ok.1 hf
      have hkept := hlaw.holds hanswer hholds
      rcases answer with m | _ | e <;> cases hrest <;> exact hkept
    obtain ⟨heap₁, hrelease⟩ := release_ok hafter
    refine ⟨(heap₁, s₁.2), ?_⟩
    rw [withBuffer, hbuf, ok_bind]
    dsimp only
    rw [hf, ok_bind]
    rw [hrelease]
    rfl

/-! ## Reading -/

/-- The request that `sys_read` makes. -/
def Slot.readRequest (slot : Slot) (buf : UserBuffer) : Option Request :=
  match slot.desc.or (if slot.fd = 0 then some .consoleIn else none) with
  | some .consoleIn => if buf.count = 0 then none else some (.stdin buf.count)
  | some (.file inode _ mode) | some (.device inode _ mode _) =>
    if mode = .writeOnly then none else some (.readAt inode slot.offset buf.count)
  | some (.pipe pipeId pipeEnd) =>
    if pipeEnd ≠ .read then none else some (.pipeTryRead pipeId buf.count)
  | some (.pty ptyId side) => some (.ttyRead ptyId side buf.count slot.nonblock)
  | some (.socket socketId) =>
    if buf.count = 0 ∨ buf.ptr = 0 then none else some (.recvSlice socketId buf.count)
  | some .consoleOut | some (.dir ..) | none => none

/-- The length of the temporary buffer that `sys_read` makes for a request. -/
def Request.temporary : Request → Nat
  | .readAt _ _ len => len
  | _ => 0

/-- `sys_read` makes a slice for the request. -/
def Request.sliced : Request → Bool
  | .ttyRead .. | .recvSlice .. => true
  | _ => false

/-- What `sys_read` needs for its request: room for the temporary buffer, a slice that passes
the check, and an answer. -/
structure ReadMet (backend : Backend σ) (buf : UserBuffer) (s : State σ) (req : Request) :
    Prop where
  room : Fits req.temporary s.1
  slice : req.sliced = true → buf.ptr ≠ 0 ∧ buf.count < 2 ^ 31
  answers : Answers backend req req.temporary s

def ReadFits (backend : Backend σ) (slot : Slot) (buf : UserBuffer) (s : State σ) : Prop :=
  ∀ req, slot.readRequest buf = some req → ReadMet backend buf s req

/-- What is behind the descriptor hands over some bytes. -/
def Handed (backend : Backend σ) (slot : Slot) (buf : UserBuffer) (s : State σ) (n : Nat) : Prop :=
  ∃ req, slot.readRequest buf = some req ∧
    ∃ block heap, zeroed req.temporary s.1 = .ok (block, heap) ∧
      ∃ s', backend req block (heap, s.2) = .ok (.bytes n, s')

/-- `sys_read` checks the slice that it makes, if any. -/
def Request.check (req : Request) (buf : UserBuffer) : Res Unit :=
  if req.sliced then fromRawParts buf else .ok ()

/-- `sys_read` with the request that it makes.  A temporary buffer of length 0 stands for
none. -/
inductive Reads (backend : Backend σ) (buf : UserBuffer) (s : State σ) :
    Option Request → Res (Ret × State σ) → Prop where
  | refused (ret : Ret) (hret : ret.Idle) : Reads backend buf s none (.ok (ret, s))
  | made (req : Request) (blocked : Ret) (hblocked : blocked.Idle) (hlen : req.len = buf.count) :
      Reads backend buf s (some req) (req.check buf >>= fun _ =>
        withBuffer req.temporary (ask backend blocked req) s)

theorem withBuffer_zero (f : Block → State σ → Res (Ret × State σ)) :
    withBuffer 0 f s = f none s := by
  show (f none s >>= fun p => .ok p) = f none s
  cases f none s <;> rfl

theorem Reads.direct (hblocked : blocked.Idle) (hlen : req.len = buf.count)
    (htemp : req.temporary = 0) : Reads backend buf s (some req)
      (req.check buf >>= fun _ => ask backend blocked req none s) := by
  have hmade : Reads backend buf s _ _ := .made req blocked hblocked hlen
  simpa only [htemp, withBuffer_zero] using hmade

theorem readAt_reads (inode offset : Nat) (mode : FileMode) : Reads backend buf s
      (if mode = .writeOnly then none else some (.readAt inode offset buf.count))
      (if mode = .writeOnly then .ok (.bytes 0, s)
        else withBuffer buf.count (ask backend (.bytes 0) (.readAt inode offset buf.count)) s) := by
  by_cases hmode : mode = .writeOnly
  · rw [if_pos hmode, if_pos hmode]
    exact .refused _ zero_idle
  · rw [if_neg hmode, if_neg hmode]
    exact .made _ _ zero_idle rfl

theorem sysRead_reads :
    Reads backend buf s (slot.readRequest buf) (sysRead backend slot buf s) := by
  rw [sysRead, Slot.readRequest]
  rcases slot.desc.or (if slot.fd = 0 then some .consoleIn else none) with
    _ | _ | _ | ⟨inode, offset, mode⟩ | ⟨socketId⟩ | ⟨pipeId, pipeEnd⟩ | ⟨ptyId, side⟩ |
    ⟨inode, offset, mode, kind⟩ | ⟨path, cookie⟩ <;> dsimp only
  · exact .refused _ zero_idle
  · rw [sysReadStdin]
    by_cases hzero : buf.count = 0
    · rw [if_pos hzero, if_pos hzero]
      exact .refused _ zero_idle
    · rw [if_neg hzero, if_neg hzero]
      exact .direct trivial rfl rfl
  · exact .refused _ zero_idle
  · exact readAt_reads inode slot.offset mode
  · rw [sysRecvfrom]
    by_cases hzero : buf.count = 0
    · rw [if_pos hzero, if_pos (.inl hzero)]
      exact .refused _ zero_idle
    by_cases hnull : buf.ptr = 0
    · rw [if_neg hzero, if_pos hnull, if_pos (.inr hnull)]
      exact .refused _ trivial
    · rw [if_neg hzero, if_neg hnull, if_neg (not_or.2 ⟨hzero, hnull⟩)]
      exact .direct again_idle rfl rfl
  · by_cases hend : pipeEnd ≠ .read
    · rw [if_pos hend, if_pos hend]
      exact .refused _ zero_idle
    · rw [if_neg hend, if_neg hend]
      exact .direct (slot_blocked_idle slot) rfl rfl
  · exact .direct (slot_blocked_idle slot) rfl rfl
  · exact readAt_reads inode slot.offset mode
  · exact .refused _ zero_idle

theorem check_ok : req.check buf = .ok () ↔
    (req.sliced = true → buf.ptr ≠ 0 ∧ buf.count < 2 ^ 31) := by
  rw [Request.check, fromRawParts]
  split
  · rename_i hsliced
    split
    · rename_i hchecked
      exact iff_of_true rfl fun _ => hchecked
    · rename_i hchecked
      exact iff_of_false (fun h => nomatch h) fun h => hchecked (h hsliced)
  · rename_i hsliced
    exact iff_of_true rfl fun h => absurd h hsliced

section Made

variable {made : Option Request} {r : Res (Ret × State σ)} (h : Reads backend buf s made r)
include h

section

variable (hlaw : Lawful backend) (hheap : Holds none s.1)

include hlaw hheap

theorem Reads.returns_iff : (∃ ret, Returns ret r) ↔
    ∀ req, made = some req → ReadMet backend buf s req := by
  cases h with
  | refused ret hret => exact iff_of_true ⟨ret, s, rfl⟩ fun _ h => (nomatch h)
  | made req blocked hblocked hlen =>
    constructor
    · rintro ⟨ret, s', hrun⟩ _ ⟨⟩
      obtain ⟨⟨⟩, hcheck, hrun⟩ := bind_eq_ok.1 hrun
      obtain ⟨block, heap, hbuf, hret⟩ := (withBuffer_returns hlaw hheap).1 ⟨s', hrun⟩
      refine ⟨?_, check_ok.1 hcheck, ?_⟩
      · by_contra hfits
        obtain ⟨fault, hfault⟩ := zeroed_of_not_fits hheap hfits
        rw [hbuf] at hfault
        cases hfault
      · intro block' heap' hbuf'
        rw [hbuf] at hbuf'
        cases hbuf'
        exact ask_returns.1 ⟨ret, hret⟩
    · intro hmet
      have hmet := hmet req rfl
      obtain ⟨block, heap, hbuf, -⟩ := zeroed_of_fits hheap hmet.room
      obtain ⟨ret, hret⟩ := ask_returns.2 (hmet.answers block heap hbuf)
      rw [check_ok.2 hmet.slice]
      exact ⟨ret, (withBuffer_returns hlaw hheap).2 ⟨block, heap, hbuf, hret⟩⟩

theorem Reads.bytes (hmet : ∀ req, made = some req → ReadMet backend buf s req) (hn : 0 < n) :
    Returns (.bytes n) r ↔ ∃ req, made = some req ∧
      ∃ block heap, zeroed req.temporary s.1 = .ok (block, heap) ∧
        ∃ s', backend req block (heap, s.2) = .ok (.bytes n, s') := by
  cases h with
  | refused ret hret =>
    refine iff_of_false ?_ (by rintro ⟨_, h, -⟩; cases h)
    rintro ⟨s', h⟩
    cases h
    exact Nat.ne_of_gt hn hret
  | made req blocked hblocked hlen =>
    rw [check_ok.2 (hmet req rfl).slice, ok_bind, withBuffer_returns hlaw hheap]
    simp only [ask_bytes hblocked hn, Option.some.injEq, exists_eq_left']

end

theorem Reads.len (hmade : made = some req) : req.len = buf.count := by
  cases h with
  | refused => cases hmade
  | made req' blocked hblocked hlen => cases hmade; exact hlen

end Made

section

variable (hlaw : Lawful backend) (hheap : Holds none s.1)

include hlaw hheap

/-- A read returns exactly if there is room for what it needs. -/
theorem read_returns_iff :
    (∃ ret, Returns ret (sysRead backend slot buf s)) ↔ ReadFits backend slot buf s :=
  sysRead_reads.returns_iff hlaw hheap

theorem read_bytes_iff (hfits : ReadFits backend slot buf s) (hn : 0 < n) :
    Returns (.bytes n) (sysRead backend slot buf s) ↔ Handed backend slot buf s n :=
  sysRead_reads.bytes hlaw hheap hfits hn

/-- A read that lacks what it needs does not return. -/
theorem read_stops (hfits : ¬ReadFits backend slot buf s) :
    ∃ fault, sysRead backend slot buf s = .error fault := by
  rcases hrun : sysRead backend slot buf s with fault | ⟨ret, s'⟩
  · exact ⟨fault, rfl⟩
  · exact absurd ((read_returns_iff hlaw hheap).1 ⟨ret, s', hrun⟩) hfits

end

theorem Handed.le (hlaw : Lawful backend) (h : Handed backend slot buf s n) : n ≤ buf.count := by
  obtain ⟨req, hreq, block, heap, -, s', hrun⟩ := h
  have hreads : Reads backend buf s (slot.readRequest buf) (sysRead backend slot buf s) :=
    sysRead_reads
  rw [← hreads.len hreq]
  exact hlaw.within hrun

/-! ## The back ends of the kernel -/

/-- What the kernel reads from: the keys that were typed, the pipes, the terminals and the
disk, next to the state of what is not modelled. -/
structure Sources (σ : Type) where
  keys : List UInt8
  pipes : Io.Pipes
  ptys : Nat → Option Io.Pty
  disk : Disk
  rest : σ

/-- The loop of `sys_read_stdin`: the number of keys read, and those that are left. -/
def stdinLoop : Nat → List UInt8 → Nat × List UInt8
  | 0, keys => (0, keys)
  | _ + 1, [] => (0, [])
  | n + 1, _ :: keys => ((stdinLoop n keys).1 + 1, (stdinLoop n keys).2)

def ptySide : PtySide → Io.PtySide
  | .master => .master
  | .slave => .slave

/-- The answers of the keyboard, the pipes, the terminals and the ext2 volumes, which
`volume` finds by the number of an inode.  The buffers that a volume makes for itself are
left out. -/
def ownBackend (volume : Nat → Option (Ext2 × Nat)) (background : Bool) (clock : Kernel.Clock)
    (other : Backend σ) : Backend (Sources σ) := fun req block (heap, src) =>
  match req with
  | .stdin len =>
    let (read, keys) := stdinLoop len src.keys
    .ok (if read = 0 then .wouldBlock else .bytes read, heap, { src with keys })
  | .pipeTryRead pipeId len =>
    let (read, _, pipes) := Io.pipeTryRead pipeId len src.pipes
    .ok (if read = Io.usizeMax then .wouldBlock else .bytes read, heap, { src with pipes })
  | .ttyRead ptyId side len nonblock =>
    let (read, pty) := Io.ptyRead (ptySide side) len nonblock background clock (src.ptys ptyId)
    let answer := match read with
      | .done bytes => .bytes bytes.length
      | .background => .error .eperm
      | .wouldBlock => .wouldBlock
    .ok (answer, heap, { src with ptys := Function.update src.ptys ptyId pty })
  | .readAt inode offset len =>
    match volume inode with
    | some (fs, n) => do
      let (read, _) ← fs.readAt src.disk n offset (.zeroed len)
      .ok (.bytes read, heap, src)
    | none => do
      let (answer, heap, rest) ← other req block (heap, src.rest)
      .ok (answer, heap, { src with rest })
  | .recvSlice .. => do
    let (answer, heap, rest) ← other req block (heap, src.rest)
    .ok (answer, heap, { src with rest })

theorem stdinLoop_le (n : Nat) (keys : List UInt8) : (stdinLoop n keys).1 ≤ n := by
  induction n generalizing keys with
  | zero => exact Nat.le_refl 0
  | succ n ih =>
    cases keys with
    | nil => exact Nat.zero_le _
    | cons b keys => exact Nat.succ_le_succ (ih keys)

theorem pipeReadLoop_le (n : Nat) (p : Io.Pipe) : (p.readLoop n).1.length ≤ n := by
  induction n generalizing p with
  | zero => exact Nat.le_refl 0
  | succ n ih =>
    rw [Io.Pipe.readLoop]
    split
    · exact Nat.succ_le_succ (ih p.pop)
    · exact Nat.zero_le _

theorem pipeTryRead_le {id : Nat} {pipes : Io.Pipes}
    (h : (Io.pipeTryRead id n pipes).1 ≠ Io.usizeMax) : (Io.pipeTryRead id n pipes).1 ≤ n := by
  unfold Io.pipeTryRead at h ⊢
  split
  · exact Nat.zero_le n
  split
  · exact Nat.zero_le n
  split
  · simp_all
  · exact pipeReadLoop_le n _

theorem tryReadInner_le (side : Io.PtySide) (n : Nat) (p : Io.Pty) :
    (p.tryReadInner side n).1.length ≤ n := by
  unfold Io.Pty.tryReadInner
  split
  · split
    · split
      · split <;> exact Nat.zero_le n
      · exact (List.length_take_le ..).trans (Nat.min_le_left ..)
    · exact List.length_take_le ..
  · exact List.length_take_le ..

theorem ptyRead_le {side : Io.PtySide} {nonblock background : Bool} {clock : Kernel.Clock}
    {p : Option Io.Pty} {bytes : List UInt8}
    (h : (Io.ptyRead side n nonblock background clock p).1 = .done bytes) : bytes.length ≤ n := by
  unfold Io.ptyRead at h
  split at h
  · cases h
    exact Nat.zero_le n
  rename_i p
  have hle := tryReadInner_le side n p
  split at h
  · cases h
    exact Nat.zero_le n
  split at h
  · cases h
  dsimp only at h
  split at h
  · rename_i hraw
    rw [hraw.1] at hle
    unfold Io.Pty.readRaw at h
    dsimp only at h
    repeat' split at h
    all_goals cases h
    all_goals exact hle
  · unfold Io.Pty.readRecord at h
    dsimp only at h
    split at h
    all_goals cases h
    exact hle

theorem ext2ReadLoop_le {fs : Ext2} {disk : Disk} {inode : Ext2Inode} {toRead fuel read cur : Nat}
    {out out' : Buf} (hread : read ≤ toRead)
    (h : fs.readLoop disk inode toRead fuel read cur out = .ok (n, out')) : n ≤ toRead := by
  induction fuel generalizing read cur out with
  | zero =>
    rw [Ext2.readLoop] at h
    split at h <;> cases h
    exact hread
  | succ fuel ih =>
    rw [Ext2.readLoop] at h
    split at h
    · obtain ⟨b, -, h⟩ := bind_eq_ok.1 h
      cases b with
      | none =>
        cases h
        exact hread
      | some b =>
        obtain ⟨_, -, h⟩ := bind_eq_ok.1 h
        obtain ⟨_, -, h⟩ := bind_eq_ok.1 h
        obtain ⟨_, -, h⟩ := bind_eq_ok.1 h
        obtain ⟨_, -, h⟩ := bind_eq_ok.1 h
        exact ih (by omega) h
    · cases h
      exact hread

theorem readAt_le {fs : Ext2} {disk : Disk} {inode offset : Nat} {out out' : Buf}
    (h : fs.readAt disk inode offset out = .ok (n, out')) : n ≤ out.len := by
  obtain ⟨node, -, h⟩ := bind_eq_ok.1 h
  split at h
  · cases h
    exact Nat.zero_le _
  dsimp only at h
  split at h
  · cases h
    exact Nat.zero_le _
  · exact (ext2ReadLoop_le (Nat.zero_le _) h).trans (Nat.min_le_left ..)

/-- The back ends of the kernel are lawful if the others are. -/
theorem lawful_ownBackend {volume : Nat → Option (Ext2 × Nat)} {background : Bool}
    {clock : Kernel.Clock} {other : Backend σ} (hother : Lawful other) :
    Lawful (ownBackend volume background clock other) where
  holds {req block s answer s'} h hholds := by
    cases req with
    | stdin len =>
      cases h
      exact hholds
    | pipeTryRead pipeId len =>
      cases h
      exact hholds
    | ttyRead ptyId side len nonblock =>
      cases h
      exact hholds
    | readAt inode offset len =>
      dsimp only [ownBackend] at h
      split at h
      · obtain ⟨_, -, h⟩ := bind_eq_ok.1 h
        cases h
        exact hholds
      · obtain ⟨_, hrun, h⟩ := bind_eq_ok.1 h
        cases h
        exact hother.holds hrun hholds
    | recvSlice socketId len =>
      obtain ⟨_, hrun, h⟩ := bind_eq_ok.1 h
      cases h
      exact hother.holds hrun hholds
  within {req block s answer s'} h := by
    cases req with
    | stdin len =>
      cases h
      split
      · trivial
      · exact stdinLoop_le len _
    | pipeTryRead pipeId len =>
      dsimp only [ownBackend] at h
      by_cases hblocks : (Io.pipeTryRead pipeId len s.2.pipes).1 = Io.usizeMax
      · rw [if_pos hblocks] at h
        cases h
        trivial
      · rw [if_neg hblocks] at h
        cases h
        exact pipeTryRead_le hblocks
    | ttyRead ptyId side len nonblock =>
      cases h
      split
      · exact ptyRead_le ‹_›
      · trivial
      · trivial
    | readAt inode offset len =>
      dsimp only [ownBackend] at h
      split at h
      · obtain ⟨_, hrun, h⟩ := bind_eq_ok.1 h
        cases h
        exact readAt_le hrun
      · obtain ⟨_, hrun, h⟩ := bind_eq_ok.1 h
        cases h
        exact hother.within hrun
    | recvSlice socketId len =>
      obtain ⟨_, hrun, h⟩ := bind_eq_ok.1 h
      cases h
      exact hother.within hrun

end Felix.Read
