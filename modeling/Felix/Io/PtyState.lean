import Felix.Io.PtyInput

/-!
# The calls on a terminal and what they keep

`PtyOp` has one constructor for each call on a pseudo terminal.  All of them keep
`Pty.Wf`: the sizes of the complete lines are positive and their bytes are queued, and
a terminal that is not in canonical mode has neither lines nor an edit buffer.
-/

namespace Felix.Io

open List

/-- A call on a pseudo terminal. -/
inductive PtyOp where
  | write (side : PtySide) (data : List UInt8) (nonblock background : Bool)
  | read (side : PtySide) (n : Nat) (nonblock background : Bool) (clock : Kernel.Clock)
  | addRef (side : PtySide)
  | closeRef (side : PtySide)
  | flushInput
  | setTermios (state : TermiosState)

/-- The slot of the terminal after the call. -/
def PtyOp.apply : PtyOp → Option Pty → Option Pty
  | .write side data nonblock background, p => (ptyWrite side data nonblock background p).2.2
  | .read side n nonblock background clock, p => (ptyRead side n nonblock background clock p).2
  | .addRef side, p => p.map (Pty.addRef side)
  | .closeRef side, p => p.bind (Pty.closeRef side)
  | .flushInput, p => p.map Pty.flushInput
  | .setTermios state, p => p.map (Pty.setTermios state)

namespace Pty

/-- The lines that are complete are queued, and there are none without canonical mode. -/
structure Wf (p : Pty) : Prop where
  positive : ∀ size ∈ p.canonicalRecords, 0 < size
  queued : p.canonicalRecords.sum ≤ p.toSlave.length
  raw : p.termios.canonical = false → p.canonicalInput = [] ∧ p.canonicalRecords = []

variable {p p' : Pty}

theorem wf_new : Wf new := ⟨fun _ h => (nomatch h), Nat.le_refl 0, fun h => (nomatch h)⟩

theorem Wf.echoOf (h : p.Wf) (hecho : EchoOf p p') : p'.Wf := by
  obtain ⟨toMaster, rfl⟩ := hecho
  exact ⟨h.positive, h.queued, h.raw⟩

/-! ## Typing -/

theorem commitCanonical_canonicalRecords (p : Pty) : p.commitCanonical.canonicalRecords =
      if p.canonicalInput.take (ptyBuf - p.toSlave.length) = [] then p.canonicalRecords
      else p.canonicalRecords ++ [(p.canonicalInput.take (ptyBuf - p.toSlave.length)).length] := by
  unfold commitCanonical release
  dsimp only
  by_cases hnil : p.canonicalInput.take (ptyBuf - p.toSlave.length) = []
  · simp [hnil]
  · rw [if_neg hnil, if_pos (by simpa using hnil)]

theorem Wf.commitCanonical (h : p.Wf) : p.commitCanonical.Wf := by
  by_cases hnil : p.canonicalInput.take (ptyBuf - p.toSlave.length) = []
  · refine ⟨?_, ?_, fun hraw => ?_⟩
    · rw [commitCanonical_canonicalRecords, if_pos hnil]
      exact h.positive
    · rw [commitCanonical_canonicalRecords, commitCanonical_toSlave, hnil]
      simpa using h.queued
    · rw [commitCanonical_termios] at hraw
      rw [commitCanonical_canonicalRecords, if_pos hnil]
      exact ⟨commitCanonical_canonicalInput p, (h.raw hraw).2⟩
  refine ⟨?_, ?_, fun hraw => ?_⟩
  · rw [commitCanonical_canonicalRecords, if_neg hnil]
    intro size hsize
    rcases mem_append.1 hsize with hold | hnew
    · exact h.positive size hold
    · rw [mem_singleton.1 hnew]
      exact length_pos_iff.2 hnil
  · rw [commitCanonical_canonicalRecords, if_neg hnil]
    simpa using h.queued
  · rw [commitCanonical_termios] at hraw
    exact absurd (by rw [(h.raw hraw).1, take_nil]) hnil

theorem Wf.pressChar (h : p.Wf) (hcanonical : p.termios.canonical = true) (b : UInt8) :
    (p.pressChar b).Wf := by
  have hpush : Wf (if p.canonicalInput.length < canonBuf then
      { p with canonicalInput := p.canonicalInput ++ [b] } else p) := by
    split
    · exact ⟨h.positive, h.queued, fun hraw => absurd hraw (by simp [hcanonical])⟩
    · exact h
  unfold Pty.pressChar
  dsimp only
  split
  · exact hpush.commitCanonical
  · exact hpush

theorem Wf.press (h : p.Wf) (k : Key) : (p.press k).Wf := by
  have hclear : Wf { p with canonicalInput := [] } :=
    ⟨h.positive, h.queued, fun hraw => ⟨rfl, (h.raw hraw).2⟩⟩
  cases k with
  | signal sig => exact hclear
  | kill => exact hclear
  | erase =>
    refine ⟨h.positive, h.queued, fun hraw => ⟨?_, (h.raw hraw).2⟩⟩
    show p.canonicalInput.dropLast = []
    rw [(h.raw hraw).1, dropLast_nil]
  | eof =>
    simp only [Pty.press]
    split
    · exact ⟨h.positive, h.queued, h.raw⟩
    · exact h.commitCanonical
  | char b =>
    simp only [Pty.press]
    split
    · rename_i hcanonical
      exact h.pressChar hcanonical b
    split
    · refine ⟨h.positive, ?_, h.raw⟩
      rw [length_append]
      exact Nat.le_add_right_of_le h.queued
    · exact h

variable {side : PtySide} {nonblock : Bool} {clock : Kernel.Clock} {n : Nat}

theorem Wf.writeByte (h : p.Wf) {b : UInt8} {r : Bool × Option Nat × Pty}
    (hbyte : p.writeByte side b = some r) : r.2.2.Wf := by
  cases side with
  | master =>
    simp only [Pty.writeByte] at hbyte
    split at hbyte
    · cases hbyte
    · cases hbyte
      exact (h.press _).echoOf (masterInputByte_eq p b).2
  | slave =>
    have hsame : ∀ toMaster, Wf { p with toMaster } := fun toMaster => h.echoOf ⟨toMaster, rfl⟩
    simp only [Pty.writeByte] at hbyte
    split at hbyte
    · cases hbyte
    split at hbyte
    · split at hbyte
      · cases hbyte
        exact h
      · cases hbyte
        exact hsame _
    split at hbyte
    · cases hbyte
      exact h
    · cases hbyte
      exact hsame _

theorem Wf.writeLoop (data : List UInt8) {written : Nat}
    (h : p.Wf) : (p.writeLoop side nonblock data written).2.2.Wf := by
  induction data generalizing p written with
  | nil => exact h
  | cons b data ih =>
    unfold Pty.writeLoop
    split
    · exact h
    · rename_i hbyte
      exact ih (h.writeByte hbyte)
    · rename_i hbyte
      exact h.writeByte hbyte

/-! ## Reading -/

/-- The bytes of a read that starts a line. -/
theorem Wf.length_take (h : p.Wf) {remaining : Nat} {records : List Nat}
    (hrecords : p.canonicalRecords = remaining :: records) (n : Nat) :
    (p.toSlave.take (min n remaining)).length = min n remaining := by
  have hqueued := h.queued
  rw [hrecords, sum_cons] at hqueued
  rw [List.length_take]
  omega

theorem Wf.tryReadInner (h : p.Wf) (side : PtySide) (n : Nat) : (p.tryReadInner side n).2.2.Wf := by
  cases side with
  | master => exact h.echoOf ⟨_, rfl⟩
  | slave =>
    unfold Pty.tryReadInner
    dsimp only
    split
    · rename_i hcanonical
      have hraw : p.termios.canonical = false → False := by simp [hcanonical]
      split
      · split
        · exact ⟨h.positive, h.queued, h.raw⟩
        · exact h
      rename_i remaining records hrecords
      have hlength := h.length_take hrecords n
      have hqueued := h.queued
      rw [hrecords, sum_cons] at hqueued
      refine ⟨?_, ?_, fun hfalse => (hraw hfalse).elim⟩
      · intro size hsize
        have hold : size ∈ records → 0 < size := fun hmem =>
          h.positive size (by rw [hrecords]; exact mem_cons_of_mem _ hmem)
        split at hsize
        · exact hold hsize
        rcases mem_cons.1 hsize with rfl | hmem
        · omega
        · exact hold hmem
      · dsimp only
        rw [length_drop]
        split
        · omega
        · rw [sum_cons]
          omega
    · rename_i hraw
      have hempty := (h.raw (by simpa using hraw)).2
      refine ⟨h.positive, ?_, h.raw⟩
      rw [hempty]
      exact Nat.zero_le _

theorem readRaw_snd : (p.readRaw n nonblock clock).2 = (p.tryReadInner .slave n).2.2 := by
  unfold readRaw
  dsimp only
  split_ifs <;> rfl

theorem Wf.ptyRead {background : Bool}
    (h : p.Wf) : ∀ q ∈ (ptyRead side n nonblock background clock (some p)).2, q.Wf := by
  intro q hq
  unfold Io.ptyRead at hq
  dsimp only at hq
  split at hq
  · cases hq
    exact h
  split at hq
  · cases hq
    exact h
  split at hq
  · cases hq
    rw [readRaw_snd]
    exact h.tryReadInner .slave n
  · cases hq
    exact h.tryReadInner side n

/-! ## The other calls -/

theorem Wf.dropRef (h : p.Wf) (side : PtySide) : (p.dropRef side).Wf := by
  have hrefs : ∀ masterRefs slaveRefs, Wf { p with masterRefs, slaveRefs } := fun _ _ =>
    ⟨h.positive, h.queued, h.raw⟩
  cases side with
  | slave => exact hrefs ..
  | master =>
    simp only [Pty.dropRef]
    split
    · split
      · exact hrefs ..
      · exact (hrefs _ _).commitCanonical
    · exact hrefs ..

theorem Wf.closeRef (h : p.Wf) (side : PtySide) : ∀ q ∈ p.closeRef side, q.Wf := by
  intro q hq
  unfold Pty.closeRef at hq
  dsimp only at hq
  split at hq
  · cases hq
  · cases hq
    exact h.dropRef side

theorem Wf.setTermios (h : p.Wf) (state : TermiosState) : (p.setTermios state).Wf := by
  unfold Pty.setTermios
  split
  · exact ⟨fun _ hmem => (nomatch hmem), Nat.zero_le _, fun _ => ⟨rfl, rfl⟩⟩
  rename_i hstays
  refine ⟨h.positive, h.queued, fun hraw => h.raw ?_⟩
  dsimp only at hraw
  simpa [hraw] using hstays

end Pty

theorem PtyOp.wf_apply (op : PtyOp) {p : Option Pty} (h : ∀ q ∈ p, q.Wf) :
    ∀ q ∈ op.apply p, q.Wf := by
  cases p with
  | none => cases op <;> exact fun q hq => (nomatch hq)
  | some p =>
    have hp : p.Wf := h p rfl
    cases op with
    | write side data nonblock background =>
      intro q hq
      simp only [PtyOp.apply, ptyWrite] at hq
      split at hq
      · cases hq
        exact hp
      · cases hq
        exact Pty.Wf.writeLoop data hp
    | read => exact hp.ptyRead
    | addRef side =>
      intro q hq
      cases hq
      cases side <;> exact ⟨hp.positive, hp.queued, hp.raw⟩
    | closeRef side => exact hp.closeRef side
    | flushInput =>
      intro q hq
      cases hq
      exact ⟨fun _ hmem => (nomatch hmem), Nat.zero_le _, fun _ => ⟨rfl, rfl⟩⟩
    | setTermios state =>
      intro q hq
      cases hq
      exact hp.setTermios state

end Felix.Io
