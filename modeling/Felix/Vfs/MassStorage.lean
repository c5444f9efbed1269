import Mathlib.Order.Lattice.Nat
import Felix.Base.Bytes

/-!
# USB storage transports

`UsbMsc` over its three transports: bulk only, and control and bulk with or without an interrupt.
What a device does with a command is an input.  The host controller reports the length of the
buffer for every transfer that ends without an error, a short one too.  Left out are the bytes of
the command block and of the data.
-/

namespace Felix.Msc

/-- One transfer: its condition code, or the error with which it was given up, and how many bytes
the device moved. -/
structure Transfer where
  code : Except String Nat
  moved : Nat

/-- What a device does with one command.  `reply` is the status buffer once its transfer is over. -/
structure Device where
  control : Except String Nat
  command : Transfer
  data : Transfer
  status : Transfer
  reply : Bytes

structure UsbMsc where
  epIntr : Nat
  epIntrMps : Nat
  subclass : Nat
  proto : Nat
  blockSize : Nat

def protoCbi : Nat := 0x00

def protoBbb : Nat := 0x50

/-- `CSW_SIG`, the signature of a status block. -/
def cswSig : Nat := 0x53425355

/-- The tag of every command block. -/
def cbwTag : Nat := 1

/-- `Ohci::bulk` and `Ohci::interrupt`. -/
def Transfer.result (t : Transfer) (failed : String) (len : Nat) : Except String Nat :=
  if len = 0 then .ok 0
  else match t.code with
    | .error text => .error text
    | .ok cc => if cc ≠ 0 ∧ cc ≠ 9 then .error failed else .ok len

def Transfer.bulk (t : Transfer) : Nat → Except String Nat := t.result "OHCI: bulk failed"

def Transfer.interrupt (t : Transfer) : Nat → Except String Nat :=
  t.result "OHCI: interrupt failed"

/-- `if c { return Err(text); }` -/
def reject (c : Prop) [Decidable c] (text : String) : Except String Unit :=
  if c then .error text else .ok ()

variable (m : UsbMsc) (d : Device) (cdb : List UInt8) (len : Nat)

/-- The end of `cbi`: what the two bytes of a completion interrupt say. -/
def checkCci (op : UInt8) (cci : Bytes) : Except String Unit :=
  if m.subclass = 0x04 then
    reject (op ≠ 0x12 ∧ op ≠ 0x03 ∧ (cci 0 ≠ 0 ∨ cci 1 ≠ 0)) "MSC: CBI UFI status"
  else do
    reject (cci 0 ≠ 0) "MSC: bad CBI CCI"
    match (cci 1).toNat % 4 with
    | 0 => .ok ()
    | 1 => .error "MSC: CBI command failed"
    | 2 => .error "MSC: CBI phase error"
    | _ => .error "MSC: CBI persistent failure"

def cbi : Except String Unit := do
  let _ ← d.control
  let _ ← d.data.bulk len
  if m.proto = protoCbi then
    reject (m.epIntr = 0 ∨ m.epIntrMps = 0) "MSC: CBI missing interrupt endpoint"
    let _ ← d.status.interrupt 2
    checkCci m (cdb.headD 0) d.reply

def bot (din : Bool) : Except String Unit :=
  if m.proto ≠ protoBbb then cbi m d cdb len
  else do
    let _ ← d.command.bulk 31
    let n ← d.data.bulk len
    reject (din ∧ n ≠ len) "MSC: short DATA IN"
    let _ ← d.status.bulk 13
    reject (d.reply.getLe 4 0 ≠ cswSig) "MSC: bad CSW"
    reject (d.reply 12 ≠ 0) "MSC: SCSI status"

/-- The ten bytes of a read or write command. -/
def sectorsCdb (op numsects : UInt8) (lba : UInt32) : List UInt8 :=
  [op, 0, (lba >>> 24).toUInt8, (lba >>> 16).toUInt8, (lba >>> 8).toUInt8, lba.toUInt8, 0, 0,
    numsects, 0]

variable (numsects : UInt8) (lba buf : UInt32)

/-- What reads and writes share: one command for all sectors. -/
def sectors (op : UInt8) (din : Bool) : Res (Except Nat Unit) := do
  let bytes ← mulW 32 numsects.toNat m.blockSize
  .ok ((bot m d (sectorsCdb op numsects lba) bytes din).mapError fun _ => 2)

def readSectors : Res (Except Nat Unit) :=
  if numsects = 0 ∨ buf = 0 ∨ m.blockSize = 0 then .ok (.error 1)
  else sectors m d numsects lba 0x28 true

def writeSectors : Res (Except Nat Unit) := sectors m d numsects lba 0x2A false

/-! ## Complete transfers -/

def size : Nat := numsects.toNat * m.blockSize

/-- A completion interrupt without a failure. -/
def CciOk : Prop :=
  d.reply 0 = 0 ∧ if m.subclass = 0x04 then d.reply 1 = 0 else (d.reply 1).toNat % 4 = 0

/-- The device moved all bytes, and its status is for this command and has no failure or residue. -/
def Complete : Prop :=
  (len = 0 ∨ d.data.moved = len) ∧
    if m.proto = protoBbb then
      d.reply.getLe 4 4 = cbwTag ∧ d.reply.getLe 4 8 = 0 ∧ d.reply 12 = 0
    else m.proto = protoCbi → CciOk m d

/-- The host controller driver reports no error. -/
def Transfer.Ended (t : Transfer) : Prop := t.code = .ok 0 ∨ t.code = .ok 9

/-- All that the driver looks at is in order. -/
def Accepted : Prop :=
  (len = 0 ∨ d.data.Ended) ∧
    if m.proto = protoBbb then
      d.command.Ended ∧ d.status.Ended ∧ d.reply.getLe 4 0 = cswSig ∧ d.reply 12 = 0
    else (∃ n, d.control = .ok n) ∧
      (m.proto = protoCbi → m.epIntr ≠ 0 ∧ m.epIntrMps ≠ 0 ∧ d.status.Ended ∧ CciOk m d)

/-- A device that is in order for the driver is so in what the driver does not look at. -/
def Honest : Prop :=
  len < 2 ^ 32 → Accepted m d len →
    (len = 0 ∨ d.data.moved = len) ∧
      (m.proto = protoBbb → d.reply.getLe 4 4 = cbwTag ∧ d.reply.getLe 4 8 = 0)

variable {m d cdb len} {text : String} {op : UInt8} {c : Prop}

theorem bind_result_eq_ok {t : Transfer} {failed : String} {f : Nat → Except String Unit} :
    (t.result failed len >>= f) = .ok () ↔ (len = 0 ∨ t.Ended) ∧ f len = .ok () := by
  unfold Transfer.result Transfer.Ended
  by_cases hlen : len = 0
  · simp [hlen, bind, Except.bind]
  rw [if_neg hlen]
  cases t.code with
  | error text => simp [hlen, bind, Except.bind]
  | ok cc =>
    by_cases hcc : cc = 0 ∨ cc = 9
    · simp [hcc, if_neg (not_and_or.2 (hcc.imp not_not.2 not_not.2)), bind, Except.bind]
    · simp [hlen, hcc, if_pos (not_or.1 hcc), bind, Except.bind]

theorem reject_eq_ok [Decidable c] :
    reject c text = .ok () ↔ ¬c := by
  by_cases hc : c <;> simp [reject, hc]

theorem bind_reject_eq_ok [Decidable c]
    {f : Unit → Except String Unit} :
    (reject c text >>= f) = .ok () ↔ ¬c ∧ f () = .ok () := by
  by_cases hc : c <;> simp [reject, hc, bind, Except.bind]

theorem checkCci_eq_ok (hop : op ≠ 0x12 ∧ op ≠ 0x03) :
    checkCci m op d.reply = .ok () ↔ CciOk m d := by
  unfold checkCci CciOk
  split
  · simp [hop, reject_eq_ok]
  · rw [bind_reject_eq_ok, not_not]
    split <;> simp_all

theorem cbi_eq_ok (hop : cdb.headD 0 ≠ 0x12 ∧ cdb.headD 0 ≠ 0x03) :
    cbi m d cdb len = .ok () ↔ (∃ n, d.control = .ok n) ∧ (len = 0 ∨ d.data.Ended) ∧
      (m.proto = protoCbi → m.epIntr ≠ 0 ∧ m.epIntrMps ≠ 0 ∧ d.status.Ended ∧ CciOk m d) := by
  unfold cbi
  cases d.control with
  | error text => simp [bind, Except.bind]
  | ok n =>
    change (d.data.result _ len >>= _) = _ ↔ _
    rw [bind_result_eq_ok]
    split
    · simp only [Transfer.interrupt, bind_result_eq_ok, bind_reject_eq_ok, checkCci_eq_ok hop]
      simp_all [and_assoc]
    · simp_all [pure, Except.pure]

theorem bot_eq_ok (hop : cdb.headD 0 ≠ 0x12 ∧ cdb.headD 0 ≠ 0x03) (din : Bool) :
    bot m d cdb len din = .ok () ↔ Accepted m d len := by
  unfold bot Accepted
  by_cases hbbb : m.proto = protoBbb
  · simp [hbbb, Transfer.bulk, bind_result_eq_ok, bind_reject_eq_ok, reject_eq_ok, and_left_comm]
  · simp [hbbb, cbi_eq_ok hop, and_left_comm]

variable (m d)

theorem complete_iff (h : Accepted m d len) : Complete m d len ↔
    (len = 0 ∨ d.data.moved = len) ∧
      (m.proto = protoBbb → d.reply.getLe 4 4 = cbwTag ∧ d.reply.getLe 4 8 = 0) := by
  obtain ⟨-, h⟩ := h
  unfold Complete
  split_ifs at ⊢ <;> simp_all

theorem complete_of_sectors_iff (hop : op ≠ 0x12 ∧ op ≠ 0x03) {din : Bool} :
    (sectors m d numsects lba op din = .ok (.ok ()) → Complete m d (size m numsects))
      ↔ Honest m d (size m numsects) := by
  have hok : sectors m d numsects lba op din = .ok (.ok ())
      ↔ size m numsects < 2 ^ 32 ∧ Accepted m d (size m numsects) := by
    have hhead : (sectorsCdb op numsects lba).headD 0 = op := rfl
    simp only [size, sectors, Res.bind_eq_ok, mulW_eq_ok, and_assoc, exists_and_left,
      exists_eq_left, Except.ok.injEq, ← bot_eq_ok (hhead ▸ hop) din]
    cases bot m d (sectorsCdb op numsects lba) (numsects.toNat * m.blockSize) din <;>
      simp [Except.mapError]
  rw [hok, and_imp]
  exact forall₂_congr fun _ h => complete_iff m d h

/-- A read or a write that succeeds is complete just when the device is honest. -/
theorem sectors_complete_iff :
    ((readSectors m d numsects lba buf = .ok (.ok ()) → Complete m d (size m numsects))
      ↔ (¬(numsects = 0 ∨ buf = 0 ∨ m.blockSize = 0) → Honest m d (size m numsects))) ∧
    ((writeSectors m d numsects lba = .ok (.ok ()) → Complete m d (size m numsects))
      ↔ Honest m d (size m numsects)) := by
  refine ⟨?_, complete_of_sectors_iff m d numsects lba (by decide)⟩
  unfold readSectors
  split
  · simp_all
  · rw [complete_of_sectors_iff m d numsects lba (by decide)]
    simp_all

/-- A sector counts as written although the device took none of its bytes, and although the status
is for another command and has a residue. -/
theorem write_of_nothing :
    ∃ (m : UsbMsc) (d : Device), m.proto = protoBbb ∧ m.blockSize = 512 ∧ d.data.moved = 0 ∧
      d.reply.getLe 4 4 = 7 ∧ d.reply.getLe 4 8 = 2 ∧ writeSectors m d 1 0 = .ok (.ok ()) := by
  refine ⟨⟨0, 0, 6, protoBbb, 512⟩, ⟨.ok 0, ⟨.ok 0, 31⟩, ⟨.ok 0, 0⟩, ⟨.ok 0, 13⟩,
    fun i => [0x55, 0x53, 0x42, 0x53, 7, 0, 0, 0, 2].getD i 0⟩, rfl, rfl, rfl, rfl, rfl, ?_⟩
  decide +kernel

end Felix.Msc
