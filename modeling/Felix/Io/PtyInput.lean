import Felix.Io.Pty

/-!
# What a typed byte does

The line discipline looks at a typed byte in a fixed order: signal characters, then the
mapping of carriage returns, then in canonical mode the editing characters.  `Key` is the
outcome, and `Pty.press` is what it does to a terminal apart from the echo.
`masterInputByte_eq` says that these are all the effects of `master_input_byte`, and what
follows about typed bytes is proved from it.
-/

namespace Felix.Io

/-- What a typed byte is for the line discipline. -/
inductive Key where
  | signal (sig : Nat)
  | erase
  | kill
  | eof
  | char (b : UInt8)
deriving DecidableEq, Repr

namespace Key

/-- The signal that a key sends. -/
def sig : Key → Option Nat
  | .signal sig => some sig
  | _ => none

end Key

namespace TermiosState

/-- What the byte is in canonical mode, when it is no signal character. -/
def editKey (t : TermiosState) (b : UInt8) : Key :=
  if b = t.cc verase ∨ (t.cc verase = 0x7f ∧ b = 0x08) then .erase
  else if b = t.cc vkill ∧ b ≠ 0 then .kill
  else if b = t.cc veof ∧ b ≠ 0 then .eof
  else .char b

/-- What the byte is. -/
def key (t : TermiosState) (b : UInt8) : Key :=
  if t.isig ∧ b = t.cc vintr ∧ b ≠ 0 then .signal Kernel.sigint
  else if t.isig ∧ b = t.cc vquit ∧ b ≠ 0 then .signal Kernel.sigquit
  else if t.isig ∧ b = t.cc vsusp ∧ b ≠ 0 then .signal Kernel.sigtstp
  else
    let b := if t.icrnl ∧ b = 0x0d then 0x0a else b
    if t.canonical then t.editKey b else .char b

@[simp] theorem editKey_sig (t : TermiosState) (b : UInt8) : (t.editKey b).sig = none := by
  unfold editKey
  split
  · rfl
  split
  · rfl
  · split <;> rfl

/-- Without canonical mode there are no editing characters. -/
theorem key_raw {t : TermiosState} {b : UInt8} (hraw : t.canonical = false)
    (hsig : (t.key b).sig = none) : ∃ c, t.key b = .char c := by
  unfold key at hsig ⊢
  split at hsig
  · cases hsig
  split at hsig
  · cases hsig
  split at hsig
  · cases hsig
  rename_i hintr hquit hsusp
  rw [if_neg hintr, if_neg hquit, if_neg hsusp]
  exact ⟨_, by rw [hraw]; rfl⟩

end TermiosState

namespace Pty

variable {p : Pty} {b : UInt8}

/-- The line so far is complete when it ends with a newline. -/
def pressChar (b : UInt8) (p : Pty) : Pty :=
  let p :=
    if p.canonicalInput.length < canonBuf then
      { p with canonicalInput := p.canonicalInput ++ [b] }
    else p
  if b = 0x0a then p.commitCanonical else p

/-- The effect of a key apart from the echo. -/
def press (k : Key) (p : Pty) : Pty :=
  match k with
  | .signal _ | .kill => { p with canonicalInput := [] }
  | .erase => { p with canonicalInput := p.canonicalInput.dropLast }
  | .eof => if p.canonicalInput = [] then { p with eofPending := true } else p.commitCanonical
  | .char b =>
    if p.termios.canonical then p.pressChar b
    else if p.toSlave.length < ptyBuf then { p with toSlave := p.toSlave ++ [b] }
    else p

/-- The two terminals differ in the queue of the master only. -/
def EchoOf (p p' : Pty) : Prop := ∃ toMaster, p' = { p with toMaster }

theorem EchoOf.refl (p : Pty) : EchoOf p p := ⟨p.toMaster, rfl⟩

theorem EchoOf.queueEcho (bytes : List UInt8) (p : Pty) : EchoOf p (queueEcho bytes p) := by
  unfold Pty.queueEcho
  split
  · exact ⟨_, rfl⟩
  · exact .refl p

theorem EchoOf.commitCanonical {p'} (h : EchoOf p p') :
    EchoOf p.commitCanonical p'.commitCanonical := by
  obtain ⟨toMaster, rfl⟩ := h
  refine ⟨toMaster, ?_⟩
  unfold Pty.commitCanonical release
  dsimp only
  split <;> rfl

theorem echoOf_pressChar (p : Pty) (b : UInt8) : EchoOf (p.pressChar b)
      (let q :=
        if p.canonicalInput.length < canonBuf then
          Pty.queueEcho [b] { p with canonicalInput := p.canonicalInput ++ [b] }
        else p
      if b = 0x0a then q.commitCanonical else q) := by
  unfold pressChar
  dsimp only
  have hpush : EchoOf
      (if p.canonicalInput.length < canonBuf then
        { p with canonicalInput := p.canonicalInput ++ [b] } else p)
      (if p.canonicalInput.length < canonBuf then
        Pty.queueEcho [b] { p with canonicalInput := p.canonicalInput ++ [b] } else p) := by
    split
    · exact .queueEcho ..
    · exact .refl p
  split
  · exact hpush.commitCanonical
  · exact hpush

theorem echoOf_inputByte (p : Pty) (b : UInt8) :
    EchoOf (p.press (if p.termios.canonical then p.termios.editKey b else .char b))
      (p.inputByte b) := by
  unfold inputByte TermiosState.editKey
  by_cases hcanonical : p.termios.canonical = true
  · simp only [if_pos hcanonical]
    split
    · by_cases hnil : p.canonicalInput = []
      · simp only [press, hnil, List.dropLast_nil, if_true]
        exact ⟨p.toMaster, by rw [← hnil]⟩
      · simp only [if_neg hnil]
        exact .queueEcho ..
    split
    · by_cases hnil : p.canonicalInput = []
      · simp only [press, hnil, if_true]
        exact ⟨p.toMaster, by rw [← hnil]⟩
      · simp only [if_neg hnil]
        exact .queueEcho ..
    split
    · exact .refl _
    · simp only [press, if_pos hcanonical]
      exact echoOf_pressChar p b
  · simp only [press, if_neg hcanonical]
    split
    · exact .queueEcho ..
    · exact .refl p

/-- `master_input_byte` sends the signal of the key and has its effect. -/
theorem masterInputByte_eq (p : Pty) (b : UInt8) : (p.masterInputByte b).1 = (p.termios.key b).sig ∧
      EchoOf (p.press (p.termios.key b)) (p.masterInputByte b).2 := by
  unfold masterInputByte TermiosState.key
  dsimp only
  split
  · exact ⟨rfl, .queueEcho ..⟩
  split
  · exact ⟨rfl, .queueEcho ..⟩
  split
  · exact ⟨rfl, .queueEcho ..⟩
  refine ⟨?_, echoOf_inputByte p (p.mapCr b)⟩
  split
  · exact (TermiosState.editKey_sig ..).symm
  · rfl

@[simp] theorem pressChar_termios (p : Pty) (b : UInt8) : (p.pressChar b).termios = p.termios := by
  unfold pressChar
  dsimp only
  split
  · rw [commitCanonical_termios]
    split <;> rfl
  · split <;> rfl

@[simp] theorem press_termios (k : Key) (p : Pty) : (p.press k).termios = p.termios := by
  unfold press
  split
  · rfl
  · rfl
  · rfl
  · split
    · rfl
    · exact commitCanonical_termios p
  split
  · exact pressChar_termios ..
  · split <;> rfl

end Pty

end Felix.Io
