import Felix.Base.Runs
import Felix.Io.PtyBlocking
import Felix.Io.PtyState

/-!
# Where typed bytes go

A write at the master of a terminal reports how many bytes it accepted.  `Ledger` is a
terminal with an account of these bytes: how many were editing or signal characters, how
many were removed by such characters, and which were delivered to the slave.  The account
is kept from the counts that the calls report.

`input_accounted_iff` says at which calls of a run the account stays balanced: when there
is room for the bytes in the edit buffer and in the queue of the slave.
-/

namespace Felix.Io

open List

namespace Key

/-- The byte that a key adds to the input. -/
def chars : Key → List UInt8
  | .char b => [b]
  | _ => []

/-- How many bytes of the edit buffer a key removes. -/
def erases (input : List UInt8) : Key → Nat
  | .signal _ | .kill => input.length
  | .erase => min 1 input.length
  | .eof | .char _ => 0

end Key

/-- The bytes that a read returned. -/
def PtyRet.bytes : PtyRet (List UInt8) → List UInt8
  | .done bytes => bytes
  | _ => []

/-- How many bytes a write reports as accepted. -/
def PtyRet.count : PtyRet Nat → Nat
  | .done n => n
  | _ => 0

/-- A terminal and the account of the bytes that were accepted. -/
structure Ledger where
  pty : Pty
  /-- How many bytes the writes at the master reported as accepted. -/
  accepted : Nat
  /-- How many of them were editing or signal characters. -/
  consumed : Nat
  /-- How many bytes such characters removed. -/
  erased : Nat
  /-- The accepted bytes that were other characters. -/
  chars : List UInt8
  /-- The bytes that the slave read. -/
  delivered : List UInt8

namespace Ledger

def start : Ledger := ⟨.new, 0, 0, 0, [], []⟩

/-- An accepted byte is entered. -/
def note (s : Ledger) (b : UInt8) : Ledger :=
  let key := s.pty.termios.key b
  { s with
    pty := (s.pty.masterInputByte b).2
    accepted := s.accepted + 1
    consumed := s.consumed + (1 - key.chars.length)
    erased := s.erased + key.erases s.pty.canonicalInput
    chars := s.chars ++ key.chars }

/-- The bytes that were delivered or are still queued. -/
def stream (s : Ledger) : List UInt8 := s.delivered ++ s.pty.toSlave ++ s.pty.canonicalInput

/-- Every accepted byte was consumed, removed, delivered, or is still queued. -/
def Accounted (s : Ledger) : Prop :=
  s.accepted = s.consumed + s.erased + s.stream.length ∧ s.stream.Sublist s.chars

end Ledger

/-- A call on the terminal. -/
inductive InputOp where
  | write (data : List UInt8) (nonblock : Bool)
  | read (n : Nat) (nonblock background : Bool) (clock : Kernel.Clock)
  | setTermios (state : TermiosState)

namespace InputOp

/-- The ledger after a call.  The bytes that a write reports are entered one by one. -/
def apply : InputOp → Ledger → Ledger
  | .write data nonblock, s =>
    let (r, _, p) := ptyWrite .master data nonblock false (some s.pty)
    { (data.take r.count).foldl Ledger.note s with
      pty := p.getD s.pty
      accepted := s.accepted + r.count }
  | .read n nonblock background clock, s =>
    let (r, p) := ptyRead .slave n nonblock background clock (some s.pty)
    { s with pty := p.getD s.pty, delivered := s.delivered ++ r.bytes }
  | .setTermios state, s => { s with pty := s.pty.setTermios state }

def step (op : InputOp) (s : Ledger) : Res (Unit × Ledger) := .ok ((), op.apply s)

/-- No accepted byte is lost by the call. -/
def Keeps (op : InputOp) (s : Ledger) : Prop := (op.apply s).Accounted

end InputOp

/-! ## Room -/

namespace Pty

/-- The queue of the slave has room for the edit buffer. -/
def Releases (p : Pty) : Prop :=
  p.canonicalInput = [] ∨ p.toSlave.length + p.canonicalInput.length ≤ ptyBuf

/-- The effect of the key fits into the buffers. -/
def Fits (k : Key) (p : Pty) : Prop :=
  match k with
  | .eof => p.Releases
  | .char b =>
    if p.termios.canonical then
      p.canonicalInput.length < canonBuf ∧
        (b = 0x0a → p.toSlave.length + p.canonicalInput.length + 1 ≤ ptyBuf)
    else p.toSlave.length < ptyBuf
  | _ => True

/-- A write stops before this byte. -/
def Refuses (b : UInt8) (p : Pty) : Prop :=
  p.slaveRefs = 0 ∨
    (p.termios.canonical = false ∧ (p.termios.key b).sig = none ∧ ptyBuf ≤ p.toSlave.length)

/-- Each byte of a write that is accepted fits when its turn comes. -/
def WriteFits : List UInt8 → Pty → Prop
  | [], _ => True
  | b :: data, p =>
    p.Refuses b ∨ (p.Fits (p.termios.key b) ∧ WriteFits data (p.press (p.termios.key b)))

end Pty

/-- There is room for what the call moves. -/
def InputOp.HasRoom : InputOp → Ledger → Prop
  | .write data _, s => s.pty.WriteFits data
  | .read .., _ => True
  | .setTermios state, s =>
    s.pty.termios.canonical = true → state.canonical = false → s.pty.Releases

namespace Pty

variable {p p' : Pty}

/-! ## One key -/

theorem EchoOf.press (h : EchoOf p p') (k : Key) : EchoOf (p.press k) (p'.press k) := by
  cases k with
  | eof =>
    have hcommit := h.commitCanonical
    obtain ⟨toMaster, rfl⟩ := h
    simp only [Pty.press]
    split
    · exact ⟨toMaster, rfl⟩
    · exact hcommit
  | char b =>
    have hpush : EchoOf
        (if p.canonicalInput.length < canonBuf then
          { p with canonicalInput := p.canonicalInput ++ [b] } else p)
        (if p'.canonicalInput.length < canonBuf then
          { p' with canonicalInput := p'.canonicalInput ++ [b] } else p') := by
      obtain ⟨toMaster, rfl⟩ := h
      split <;> exact ⟨toMaster, rfl⟩
    have hchar : EchoOf (p.pressChar b) (p'.pressChar b) := by
      unfold pressChar
      dsimp only
      split
      · exact hpush.commitCanonical
      · exact hpush
    obtain ⟨toMaster, rfl⟩ := h
    simp only [Pty.press]
    split
    · exact hchar
    · split <;> exact ⟨toMaster, rfl⟩
  | _ =>
    obtain ⟨toMaster, rfl⟩ := h
    exact ⟨toMaster, rfl⟩

theorem EchoOf.writeFits (h : EchoOf p p') (data : List UInt8) :
    p.WriteFits data ↔ p'.WriteFits data := by
  induction data generalizing p p' with
  | nil => exact Iff.rfl
  | cons b data ih =>
    have hrest := ih (h.press (p.termios.key b))
    obtain ⟨toMaster, rfl⟩ := h
    exact or_congr Iff.rfl (and_congr Iff.rfl hrest)

/-- The bytes that are queued for the slave or edited. -/
def held (p : Pty) : List UInt8 := p.toSlave ++ p.canonicalInput

/-- The bytes of the edit buffer that do not fit into the queue of the slave. -/
def overflow (p : Pty) : Nat := p.canonicalInput.length - (ptyBuf - p.toSlave.length)

theorem overflow_eq_zero : p.overflow = 0 ↔ p.Releases := by
  unfold overflow Releases
  rw [← length_eq_zero_iff]
  omega

/-- The bytes that are lost with the key. -/
def loss (k : Key) (p : Pty) : Nat :=
  match k with
  | .eof => p.overflow
  | .char b =>
    if p.termios.canonical then
      if p.canonicalInput.length < canonBuf then
        if b = 0x0a then overflow { p with canonicalInput := p.canonicalInput ++ [b] } else 0
      else if b = 0x0a then 1 + p.overflow else 1
    else if p.toSlave.length < ptyBuf then 0 else 1
  | _ => 0

theorem loss_eq_zero (k : Key) : p.loss k = 0 ↔ p.Fits k := by
  cases k with
  | eof => exact overflow_eq_zero
  | char b =>
    simp only [loss, Fits]
    split
    · split
      · rename_i hroom
        split
        · rename_i hnewline
          rw [overflow_eq_zero]
          simp [Releases, hroom, hnewline, Nat.add_assoc]
        · rename_i hnewline
          simp [hroom, hnewline]
      · rename_i hfull
        split <;> simp [hfull]
    · split <;> simp_all
  | _ => simp [loss, Fits]

theorem length_held_commitCanonical :
    p.commitCanonical.held.length + p.overflow = p.held.length := by
  simp only [held, commitCanonical_toSlave, commitCanonical_canonicalInput, append_nil,
    length_append, length_take, overflow]
  omega

/-- The bytes that are held after a key are those before it and the new one, without those
that it removes and those that are lost. -/
theorem length_held_press (k : Key) :
    (p.press k).held.length + p.loss k + k.erases p.canonicalInput =
      p.held.length + k.chars.length := by
  cases k with
  | signal sig => simp [press, held, loss, Key.erases, Key.chars]
  | kill => simp [press, held, loss, Key.erases, Key.chars]
  | erase =>
    simp [press, held, loss, Key.erases, Key.chars]
    omega
  | eof =>
    simp only [press, loss, Key.erases, Key.chars]
    split
    · rename_i hnil
      simp [held, overflow, hnil]
    · exact length_held_commitCanonical
  | char b =>
    have hpush : (held { p with canonicalInput := p.canonicalInput ++ [b] }).length =
        p.held.length + 1 := by
      simp [held, Nat.add_assoc]
    simp only [press, pressChar, loss, Key.erases, Key.chars, length_singleton]
    split
    · split
      · split
        · rw [length_held_commitCanonical, hpush]
        · have hcommit : p.commitCanonical.held.length + p.overflow = p.held.length :=
            length_held_commitCanonical
          omega
      · split
        · rw [hpush]
        · rfl
    · split
      · simp only [held, length_append, length_singleton]
        omega
      · rfl

theorem held_commitCanonical : p.commitCanonical.held.Sublist p.held := by
  simp only [held, commitCanonical_toSlave, commitCanonical_canonicalInput, append_nil]
  exact (take_sublist ..).append_left p.toSlave

/-- No byte appears from elsewhere, and the order stays. -/
theorem held_press (h : p.Wf) (k : Key) : (p.press k).held.Sublist (p.held ++ k.chars) := by
  cases k with
  | signal sig => simp [press, held]
  | kill => simp [press, held]
  | erase =>
    simp only [held, Key.chars, append_nil]
    exact (dropLast_sublist _).append_left p.toSlave
  | eof =>
    simp only [press, Key.chars, append_nil]
    split
    · exact .refl _
    · exact held_commitCanonical
  | char b =>
    have hpush : held { p with canonicalInput := p.canonicalInput ++ [b] } = p.held ++ [b] := by
      simp [held]
    have hsame : p.held.Sublist (p.held ++ [b]) := sublist_append_left ..
    simp only [press, pressChar, Key.chars]
    split
    · split
      · split
        · rw [← hpush]
          exact held_commitCanonical
        · exact held_commitCanonical.trans hsame
      · split
        · simp only [hpush, List.Sublist.refl]
        · exact hsame
    rename_i hraw
    split
    · simp [held, (h.raw (by simpa using hraw)).1]
    · exact hsame

end Pty

/-! ## The ledger -/

namespace Ledger

variable {s : Ledger}

/-- What the calls keep, whether there is room or not. -/
structure Inv (s : Ledger) : Prop where
  wf : s.pty.Wf
  counts : s.accepted = s.consumed + s.chars.length
  bound : s.erased + s.stream.length ≤ s.chars.length
  order : s.stream.Sublist s.chars

theorem inv_start : start.Inv := ⟨Pty.wf_new, rfl, Nat.le_refl 0, .refl _⟩

/-- No byte was lost. -/
def Balanced (s : Ledger) : Prop := s.erased + s.stream.length = s.chars.length

theorem Inv.accounted_iff (h : s.Inv) : s.Accounted ↔ s.Balanced := by
  unfold Accounted Balanced
  rw [and_iff_left h.order, h.counts]
  omega

theorem stream_eq : s.stream = s.delivered ++ s.pty.held := append_assoc ..

theorem held_note (b : UInt8) : (s.note b).pty.held = (s.pty.press (s.pty.termios.key b)).held := by
  obtain ⟨-, toMaster, hpty⟩ := s.pty.masterInputByte_eq b
  unfold note
  rw [hpty]
  rfl

theorem note_balance (b : UInt8) :
    (s.note b).erased + (s.note b).stream.length + s.pty.loss (s.pty.termios.key b) +
        s.chars.length =
      s.erased + s.stream.length + (s.note b).chars.length := by
  have hheld := s.pty.length_held_press (s.pty.termios.key b)
  rw [stream_eq, stream_eq, held_note]
  simp only [note, length_append]
  omega

theorem Inv.note (h : s.Inv) (b : UInt8) : (s.note b).Inv := by
  have hbalance := s.note_balance b
  refine ⟨(h.wf.press _).echoOf (s.pty.masterInputByte_eq b).2, ?_, ?_, ?_⟩
  · have hchars : (s.pty.termios.key b).chars.length ≤ 1 := by
      cases s.pty.termios.key b <;> simp [Key.chars]
    simp only [Ledger.note, length_append, h.counts]
    omega
  · have hbound := h.bound
    omega
  · rw [stream_eq, held_note]
    have hpress := Pty.held_press h.wf (s.pty.termios.key b)
    have hall : (s.delivered ++ (s.pty.press (s.pty.termios.key b)).held).Sublist
        (s.stream ++ (s.pty.termios.key b).chars) := by
      rw [stream_eq, append_assoc]
      exact hpress.append_left s.delivered
    exact hall.trans (h.order.append_right _)

theorem balanced_note (h : s.Inv) (b : UInt8) :
    (s.note b).Balanced ↔ s.Balanced ∧ s.pty.Fits (s.pty.termios.key b) := by
  have hbalance := s.note_balance b
  have hbound := h.bound
  rw [← Pty.loss_eq_zero]
  unfold Balanced
  omega

/-- Each byte fits when its turn comes. -/
def Roomy : List UInt8 → Ledger → Prop
  | [], _ => True
  | b :: data, s => s.pty.Fits (s.pty.termios.key b) ∧ Roomy data (s.note b)

theorem Inv.replay (h : s.Inv) (data : List UInt8) : (data.foldl Ledger.note s).Inv ∧
      ((data.foldl Ledger.note s).Balanced ↔ s.Balanced ∧ s.Roomy data) := by
  induction data generalizing s with
  | nil => exact ⟨h, by simp [Roomy]⟩
  | cons b data ih =>
    obtain ⟨hinv, hbalanced⟩ := ih (h.note b)
    refine ⟨hinv, ?_⟩
    rw [foldl_cons, hbalanced, balanced_note h, Roomy, and_assoc]

theorem replay_accepted (data : List UInt8) :
    (data.foldl note s).accepted = s.accepted + data.length := by
  induction data generalizing s with
  | nil => rfl
  | cons b data ih =>
    rw [foldl_cons, ih, length_cons]
    simp only [note]
    omega

end Ledger

/-! ## The loop of a write -/

namespace Pty

variable {p : Pty} {b : UInt8}

/-- Nothing is changed by a byte for which there is no room in the queue of the slave. -/
theorem masterInputByte_full (hraw : p.termios.canonical = false)
    (hsig : (p.termios.key b).sig = none) (hfull : ptyBuf ≤ p.toSlave.length) :
    p.masterInputByte b = (none, p) := by
  have hnone := (masterInputByte_eq p b).1
  rw [hsig] at hnone
  unfold masterInputByte at hnone ⊢
  dsimp only at hnone ⊢
  split_ifs at hnone ⊢
  simp [inputByte, hraw, Nat.not_lt.2 hfull]

theorem writeByte_master (p : Pty) (b : UInt8) : (p.Refuses b ∧ (p.writeByte .master b = none ∨
      p.writeByte .master b = some (false, none, p))) ∨
    (¬ p.Refuses b ∧ ∃ signal,
      p.writeByte .master b = some (true, signal, (p.masterInputByte b).2)) := by
  have hfull : (∃ r, p.writeByte .master b = some (false, r)) ↔ _ := writeByte_master_full
  by_cases hclosed : p.slaveRefs = 0
  · exact .inl ⟨.inl hclosed, .inl (by simp [writeByte, hclosed])⟩
  by_cases hqueue : p.termios.canonical = false ∧ (p.termios.key b).sig = none ∧
      ptyBuf ≤ p.toSlave.length
  · refine .inl ⟨.inr hqueue, .inr ?_⟩
    simp [writeByte, hclosed, masterInputByte_full hqueue.1 hqueue.2.1 hqueue.2.2, hqueue.1]
  refine .inr ⟨fun h => h.elim hclosed hqueue, (p.masterInputByte b).1, ?_⟩
  have htaken : ¬ ∃ r, p.writeByte .master b = some (false, r) := fun h => hqueue (hfull.1 h).2
  simp only [writeByte, if_neg hclosed] at htaken ⊢
  generalize (_ || _ : Bool) = taken at htaken
  cases taken with
  | true => rfl
  | false => exact absurd ⟨_, rfl⟩ htaken

end Pty

/-- The bytes that a write reports are those that it puts through the line discipline. -/
theorem writeLoop_replay (nonblock : Bool) (data : List UInt8) (written : Nat) (s : Ledger) :
    ∃ n ≤ data.length,
      (s.pty.writeLoop .master nonblock data written).1.count = written + n ∧
      (s.pty.writeLoop .master nonblock data written).2.2 =
        ((data.take n).foldl Ledger.note s).pty ∧
      (s.pty.WriteFits data ↔ s.Roomy (data.take n)) := by
  induction data generalizing s written with
  | nil => exact ⟨0, Nat.le_refl 0, rfl, rfl, Iff.rfl⟩
  | cons b data ih =>
    rcases s.pty.writeByte_master b with ⟨hrefuses, hbyte⟩ | ⟨htakes, signal, hbyte⟩
    · refine ⟨0, Nat.zero_le _, ?_, ?_, iff_of_true (.inl hrefuses) trivial⟩
      · rcases hbyte with hbyte | hbyte
        · simp [Pty.writeLoop, hbyte, PtyRet.count]
        · simp only [Pty.writeLoop, hbyte]
          split
          · rfl
          rename_i hzero
          simp only [not_or, not_not] at hzero
          rw [hzero.2]
          rfl
      · rcases hbyte with hbyte | hbyte <;> simp [Pty.writeLoop, hbyte]
    · obtain ⟨n, hn, hcount, hpty, hfits⟩ := ih (written + 1) (s.note b)
      refine ⟨n + 1, Nat.succ_le_succ hn, ?_, ?_, ?_⟩
      · simp only [Pty.writeLoop, hbyte]
        rw [show (s.pty.masterInputByte b).2 = (s.note b).pty from rfl]
        omega
      · simp only [Pty.writeLoop, hbyte]
        exact hpty
      · have hecho : (s.pty.press (s.pty.termios.key b)).WriteFits data ↔
            (s.note b).pty.WriteFits data :=
          (s.pty.masterInputByte_eq b).2.writeFits data
        simp only [Pty.WriteFits, htakes, false_or, take_succ_cons, Ledger.Roomy]
        rw [hecho, hfits]

/-! ## Calls -/

theorem Pty.tryReadInner_held (p : Pty) (n : Nat) :
    p.held = (p.tryReadInner .slave n).1 ++ (p.tryReadInner .slave n).2.2.held := by
  simp only [Pty.tryReadInner, Pty.held]
  split
  · split
    · split <;> rfl
    · rw [← append_assoc, take_append_drop]
  · rw [← append_assoc, take_append_drop]

theorem Pty.bytes_readRecord (p : Pty) (n : Nat) (nonblock : Bool) :
    (p.readRecord .slave n nonblock).1.bytes = (p.tryReadInner .slave n).1 := by
  simp only [Pty.readRecord]
  split
  · rfl
  rename_i hnone
  simp only [not_or, not_not] at hnone
  rw [hnone.1]
  rfl

theorem Pty.bytes_readRaw {p : Pty} (hraw : p.termios.canonical = false) (n : Nat)
    (nonblock : Bool) (clock : Kernel.Clock) :
    (p.readRaw n nonblock clock).1.bytes = (p.tryReadInner .slave n).1 := by
  rw [Pty.tryReadInner_raw hraw]
  rcases Pty.readRaw_fst hraw with hdone | ⟨hblock, -, -, hnil⟩
  · rw [hdone]
    rfl
  · rw [hblock, hnil]
    rfl

theorem ptyRead_held {n : Nat} {nonblock background : Bool} {clock : Kernel.Clock} (p : Pty) :
    ∃ p', (ptyRead .slave n nonblock background clock (some p)).2 = some p' ∧
      p.held = (ptyRead .slave n nonblock background clock (some p)).1.bytes ++ p'.held := by
  unfold ptyRead
  dsimp only
  split
  · exact ⟨p, rfl, rfl⟩
  split
  · exact ⟨p, rfl, rfl⟩
  split
  · rename_i hraw
    refine ⟨_, rfl, ?_⟩
    rw [Pty.bytes_readRaw hraw.2, Pty.readRaw_snd]
    exact p.tryReadInner_held n
  refine ⟨_, rfl, ?_⟩
  rw [Pty.bytes_readRecord]
  exact p.tryReadInner_held n

namespace InputOp

variable {s : Ledger}

theorem write_spec (h : s.Inv) (data : List UInt8) (nonblock : Bool) :
    ((write data nonblock).apply s).Inv ∧
      (((write data nonblock).apply s).Balanced ↔
        s.Balanced ∧ (write data nonblock).HasRoom s) := by
  obtain ⟨n, hn, hcount, hpty, hfits⟩ := writeLoop_replay nonblock data 0 s
  rw [Nat.zero_add] at hcount
  have happly : (write data nonblock).apply s = (data.take n).foldl Ledger.note s := by
    have haccepted : _ = s.accepted + _ := Ledger.replay_accepted (data.take n)
    rw [length_take, Nat.min_eq_left hn] at haccepted
    simp only [apply, ptyWrite, reduceCtorEq, false_and, if_false, Option.getD_some, hcount, hpty,
      ← haccepted]
  rw [happly]
  show _ ∧ (_ ↔ s.Balanced ∧ s.pty.WriteFits data)
  rw [hfits]
  exact h.replay _

/-- The stream is not changed by a call that moves bytes along it. -/
theorem read_spec (h : s.Inv) (n : Nat) (nonblock background : Bool) (clock : Kernel.Clock) :
    ((read n nonblock background clock).apply s).Inv ∧
      (((read n nonblock background clock).apply s).Balanced ↔ s.Balanced) := by
  obtain ⟨p, hp, hheld⟩ : ∃ p,
      (ptyRead .slave n nonblock background clock (some s.pty)).2 = some p ∧
    s.pty.held = _ ++ p.held := ptyRead_held s.pty
  have hstream : ((read n nonblock background clock).apply s).stream = s.stream := by
    rw [Ledger.stream_eq, Ledger.stream_eq, hheld]
    simp only [apply, hp, Option.getD_some, append_assoc]
  refine ⟨⟨?_, h.counts, ?_, ?_⟩, ?_⟩
  · simp only [apply, hp]
    exact h.wf.ptyRead p hp
  · rw [hstream]
    exact h.bound
  · rw [hstream]
    exact h.order
  · unfold Ledger.Balanced
    rw [hstream]
    exact Iff.rfl

theorem setTermios_spec (h : s.Inv) (state : TermiosState) : ((setTermios state).apply s).Inv ∧
      (((setTermios state).apply s).Balanced ↔ s.Balanced ∧ (setTermios state).HasRoom s) := by
  have hwf : ((setTermios state).apply s).pty.Wf := h.wf.setTermios state
  have hbound := h.bound
  have horder := h.order
  rw [Ledger.stream_eq] at hbound horder
  by_cases hleaves : s.pty.termios.canonical = true ∧ state.canonical = false
  · -- the edit buffer is released
    have hheld : ((setTermios state).apply s).pty.held = s.pty.commitCanonical.held := by
      simp [apply, Pty.setTermios, hleaves, Pty.release, Pty.held]
    have hlength := s.pty.length_held_commitCanonical
    have hroom : (setTermios state).HasRoom s ↔ s.pty.overflow = 0 := by
      rw [Pty.overflow_eq_zero]
      simp [HasRoom, hleaves]
    rw [hroom]
    unfold Ledger.Balanced
    rw [Ledger.stream_eq, Ledger.stream_eq, hheld]
    refine ⟨⟨hwf, h.counts, ?_, ?_⟩, ?_⟩
    · rw [Ledger.stream_eq, hheld]
      simp only [length_append] at hbound ⊢
      show s.erased + (s.delivered.length + _) ≤ s.chars.length
      omega
    · rw [Ledger.stream_eq, hheld]
      exact (s.pty.held_commitCanonical.append_left s.delivered).trans horder
    · simp only [length_append] at hbound ⊢
      show s.erased + (s.delivered.length + _) = s.chars.length ↔ _
      omega
  · have hheld : ((setTermios state).apply s).pty.held = s.pty.held := by
      simp [apply, Pty.setTermios, hleaves, Pty.held]
    have hroom : (setTermios state).HasRoom s := fun hcanonical hraw =>
      absurd ⟨hcanonical, hraw⟩ hleaves
    have hstream : ((setTermios state).apply s).stream = s.stream := by
      rw [Ledger.stream_eq, Ledger.stream_eq, hheld]
      rfl
    refine ⟨⟨hwf, h.counts, ?_, ?_⟩, ?_⟩
    · rw [hstream]
      exact h.bound
    · rw [hstream]
      exact h.order
    · rw [and_iff_left hroom]
      unfold Ledger.Balanced
      rw [hstream]
      exact Iff.rfl

theorem apply_spec (op : InputOp) (h : s.Inv) :
    (op.apply s).Inv ∧ ((op.apply s).Balanced ↔ s.Balanced ∧ op.HasRoom s) := by
  cases op with
  | write data nonblock => exact write_spec h data nonblock
  | read n nonblock background clock =>
    obtain ⟨hinv, hbalanced⟩ := read_spec h n nonblock background clock
    exact ⟨hinv, hbalanced.trans (and_iff_left trivial).symm⟩
  | setTermios state => exact setTermios_spec h state

/-- Every accepted byte stays in the account at each call of a run exactly when there is
room at each call. -/
theorem input_accounted_iff (ops : List InputOp) :
    Every step Keeps ops Ledger.start ↔ Every step HasRoom ops Ledger.start := by
  refine every_congr_of (fun s => s.Inv ∧ s.Balanced) ?_ ?_ ⟨Ledger.inv_start, rfl⟩
  · intro op s r s' ⟨hinv, hbalanced⟩ hkeeps hrun
    cases hrun
    have hinv' := (apply_spec op hinv).1
    exact ⟨hinv', hinv'.accounted_iff.1 hkeeps⟩
  intro op s ⟨hinv, hbalanced⟩
  obtain ⟨hinv', hroom⟩ := apply_spec op hinv
  unfold Keeps
  rw [hinv'.accounted_iff, hroom, and_iff_right hbalanced]

/-- Whether there is room or not, the slave gets typed characters, in their order. -/
theorem input_in_order (ops : List InputOp) :
    (ops.foldl (fun s op => op.apply s) Ledger.start).Inv :=
  List.foldlRecOn ops _ Ledger.inv_start fun _ hs op _ => (apply_spec op hs).1

/-- A line that is longer than the edit buffer does not fit. -/
theorem not_writeFits_replicate {c : UInt8} (hc : c ≠ 0x0a) (n : Nat) {p : Pty}
    (hkey : p.termios.key c = .char c) (hcanonical : p.termios.canonical = true)
    (hopen : p.slaveRefs ≠ 0) (hle : p.canonicalInput.length ≤ canonBuf)
    (hlong : canonBuf < p.canonicalInput.length + n) : ¬ p.WriteFits (List.replicate n c) := by
  induction n generalizing p with
  | zero => omega
  | succ n ih =>
    rw [replicate_succ, Pty.WriteFits, hkey]
    have htakes : ¬ p.Refuses c := by simp [Pty.Refuses, hopen, hcanonical]
    rintro (hrefuses | ⟨hfits, hrest⟩)
    · exact htakes hrefuses
    simp only [Pty.Fits, hcanonical] at hfits
    have hpress : p.press (.char c) =
        { p with canonicalInput := p.canonicalInput ++ [c] } := by
      simp [Pty.press, Pty.pressChar, hcanonical, hfits.1, hc]
    rw [hpress] at hrest
    have hlength : (p.canonicalInput ++ [c]).length = p.canonicalInput.length + 1 := by simp
    revert hrest
    apply ih
    · exact hkey
    · exact hcanonical
    · exact hopen
    · exact hlength ▸ hfits.1
    · rw [hlength]
      omega

/-- A line of 1025 characters is accepted, and its last one is lost. -/
theorem longLine_not_accounted :
    ¬ Every step Keeps [.write (List.replicate 1025 0x61) false] Ledger.start := by
  rintro ⟨hkeeps, -⟩
  obtain ⟨hinv, hroom⟩ := write_spec Ledger.inv_start (List.replicate 1025 0x61) false
  have hfits := (hroom.1 (hinv.accounted_iff.1 hkeeps)).2
  exact not_writeFits_replicate (by decide) 1025 (by decide) rfl (by decide) (by decide)
    (by decide) hfits

end InputOp

end Felix.Io
