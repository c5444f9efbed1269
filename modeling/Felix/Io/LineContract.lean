import Felix.Io.InputContract

/-!
# Lines

`Lines` says what canonical mode is for: a line that is edited, and a queue of the lines
that are complete, in which an end of file that is typed on an empty line is an entry of
its own.  A read takes the first entry of the queue or the part of it that fits.

The terminal keeps the bytes of the lines in one queue, their sizes in another, and a
single flag for the end of file.  `lines_delivered` says that it behaves like `Lines`
as long as a typed byte has room, no line and no end of file is completed while an end of
file waits to be read, and a read that does not wait finds something.
-/

namespace Felix.Io

/-- The line that is edited and the entries that are complete. -/
structure Lines where
  edit : List UInt8
  queue : List (List UInt8)
deriving DecidableEq, Repr

namespace Lines

/-- The edited line becomes an entry. -/
def complete (l : Lines) : Lines := ⟨[], l.queue ++ [l.edit]⟩

/-- A key is typed. -/
def press (k : Key) (l : Lines) : Lines :=
  match k with
  | .signal _ | .kill => { l with edit := [] }
  | .erase => { l with edit := l.edit.dropLast }
  | .eof => l.complete
  | .char b =>
    if b = 0x0a then complete { l with edit := l.edit ++ [b] } else { l with edit := l.edit ++ [b] }

/-- A read with a buffer of `n` bytes, which waits when there is no entry. -/
def read (n : Nat) (l : Lines) : Option (List UInt8) × Lines :=
  if n = 0 then (some [], l)
  else
    match l.queue with
    | [] => (none, l)
    | entry :: queue =>
      if entry.length ≤ n then (some entry, { l with queue })
      else (some (entry.take n), { l with queue := entry.drop n :: queue })

end Lines

/-- A terminal, and the lines that its reader is to see. -/
structure Typing where
  pty : Pty
  lines : Lines

/-- A terminal with these settings to which nothing was typed. -/
def Typing.start (t : TermiosState) : Typing := ⟨{ Pty.new with termios := t }, ⟨[], []⟩⟩

/-- A byte is typed at the master, or a process of the foreground reads from the slave. -/
inductive LineOp where
  | type (b : UInt8)
  | read (n : Nat) (nonblock : Bool) (clock : Kernel.Clock)

namespace LineOp

def step (op : LineOp) (s : Typing) : Res (Unit × Typing) :=
  match op with
  | .type b =>
    let (_, _, p) := ptyWrite .master [b] false false (some s.pty)
    .ok ((), ⟨p.getD s.pty, s.lines.press (s.pty.termios.key b)⟩)
  | .read n nonblock clock =>
    let (_, p) := ptyRead .slave n nonblock false clock (some s.pty)
    .ok ((), ⟨p.getD s.pty, (s.lines.read n).2⟩)

/-- The slave reads what it is to see. -/
def Delivers (op : LineOp) (s : Typing) : Prop :=
  match op with
  | .type _ => True
  | .read n nonblock clock =>
    (ptyRead .slave n nonblock false clock (some s.pty)).1 =
      match (s.lines.read n).1 with
      | none => .wouldBlock
      | some bytes => .done bytes

end LineOp

/-- The key completes an entry. -/
def Key.Completes (k : Key) : Prop := k = .eof ∨ k = .char 0x0a
  deriving Decidable

/-- The typed byte has room and completes nothing while an end of file waits, and a read that
does not wait finds something. -/
def LineOp.Tame (op : LineOp) (s : Typing) : Prop :=
  match op with
  | .type b =>
    s.pty.Fits (s.pty.termios.key b) ∧
      ((s.pty.termios.key b).Completes → s.pty.eofPending = false)
  | .read _ nonblock _ => nonblock = true → s.pty.canonicalRecords ≠ [] ∨ s.pty.eofPending = true

instance (k : Key) (p : Pty) : Decidable (p.Fits k) :=
  match k with
  | .eof => inferInstanceAs (Decidable (_ ∨ _))
  | .char b => inferInstanceAs (Decidable (if p.termios.canonical then
      p.canonicalInput.length < canonBuf ∧
        (b = 0x0a → p.toSlave.length + p.canonicalInput.length + 1 ≤ ptyBuf)
    else p.toSlave.length < ptyBuf))
  | .signal _ | .erase | .kill => isTrue trivial

instance (op : LineOp) (s : Typing) : Decidable (op.Tame s) :=
  match op with
  | .type _ => inferInstanceAs (Decidable (_ ∧ _))
  | .read .. => inferInstanceAs (Decidable (_ → _))

instance (op : LineOp) (s : Typing) : Decidable (op.Delivers s) :=
  match op with
  | .type _ => isTrue trivial
  | .read .. => inferInstanceAs (Decidable (_ = _))

/-! ## The terminal holds the lines -/

/-- The lines that are complete, as the terminal keeps them. -/
structure Pty.Holds (p : Pty) (l : Lines) (entries : List (List UInt8)) : Prop where
  canonical : p.termios.canonical = true
  open_ : p.masterRefs ≠ 0 ∧ p.slaveRefs ≠ 0
  edit : p.canonicalInput = l.edit
  bytes : p.toSlave = entries.flatten
  sizes : p.canonicalRecords = entries.map List.length
  nonempty : [] ∉ entries
  queue : l.queue = entries ++ if p.eofPending then [[]] else []

namespace Pty.Holds

variable {p p' : Pty} {l : Lines} {entries : List (List UInt8)} {b : UInt8}

variable (h : p.Holds l entries)
include h

theorem echoOf (hecho : EchoOf p p') : p'.Holds l entries := by
  obtain ⟨toMaster, rfl⟩ := hecho
  exact ⟨h.canonical, h.open_, h.edit, h.bytes, h.sizes, h.nonempty, h.queue⟩

theorem setEdit (edit : List UInt8) :
    Pty.Holds { p with canonicalInput := edit } { l with edit } entries :=
  ⟨h.canonical, h.open_, rfl, h.bytes, h.sizes, h.nonempty, h.queue⟩

theorem commit (hline : p.canonicalInput ≠ [])
    (hroom : p.toSlave.length + p.canonicalInput.length ≤ ptyBuf) (heof : p.eofPending = false) :
    p.commitCanonical.Holds l.complete (entries ++ [p.canonicalInput]) := by
  have htake : p.canonicalInput.take (ptyBuf - p.toSlave.length) = p.canonicalInput :=
    List.take_of_length_le (by omega)
  refine ⟨by simpa using h.canonical, by simpa using h.open_, by simp [Lines.complete],
    ?_, ?_, ?_, ?_⟩
  · rw [commitCanonical_toSlave, htake, h.bytes]
    simp
  · rw [commitCanonical_canonicalRecords, htake, if_neg hline, h.sizes]
    simp
  · simp [h.nonempty, hline.symm]
  · have hqueue := h.queue
    simp [Lines.complete, hqueue, heof, h.edit]

theorem press {k : Key} (hfits : p.Fits k) (heof : k.Completes → p.eofPending = false) :
    ∃ entries', (p.press k).Holds (l.press k) entries' := by
  cases k with
  | signal sig => exact ⟨entries, h.setEdit []⟩
  | kill => exact ⟨entries, h.setEdit []⟩
  | erase =>
    refine ⟨entries, ?_⟩
    simp only [Lines.press, ← h.edit]
    exact h.setEdit _
  | eof =>
    have heof := heof (.inl rfl)
    by_cases hline : p.canonicalInput = []
    · -- the end of file is the last entry
      refine ⟨entries, ?_⟩
      have hqueue := h.queue
      rw [heof] at hqueue
      simp only [Pty.press, if_pos hline, Lines.press]
      refine ⟨h.canonical, h.open_, hline, h.bytes, h.sizes, h.nonempty, ?_⟩
      simp [Lines.complete, hqueue, ← h.edit, hline]
    · simp only [Pty.press, if_neg hline]
      exact ⟨_, h.commit hline (hfits.resolve_left hline) heof⟩
  | char b =>
    simp only [Pty.Fits, h.canonical] at hfits
    have hpush : Pty.Holds { p with canonicalInput := p.canonicalInput ++ [b] }
        { l with edit := l.edit ++ [b] } entries := by
      rw [← h.edit]
      exact h.setEdit _
    simp only [Pty.press, h.canonical, if_true, pressChar, if_pos hfits.1, Lines.press]
    split
    · rename_i hnewline
      refine ⟨_, hpush.commit (by simp) ?_ (heof (.inr (by rw [hnewline])))⟩
      simpa [Nat.add_assoc] using hfits.2 hnewline
    · exact ⟨entries, hpush⟩

theorem read (n : Nat) {nonblock : Bool} (clock : Kernel.Clock)
    (hwaits : nonblock = true → p.canonicalRecords ≠ [] ∨ p.eofPending = true) :
    (ptyRead .slave n nonblock false clock (some p)).1 =
        (match (l.read n).1 with
        | none => .wouldBlock
        | some bytes => .done bytes) ∧
      ∃ p' entries', (ptyRead .slave n nonblock false clock (some p)).2 = some p' ∧
        p'.termios = p.termios ∧ p'.Holds (l.read n).2 entries' := by
  by_cases hn : n = 0
  · subst hn
    exact ⟨rfl, p, entries, rfl, rfl, h⟩
  have hrecord : ptyRead .slave n nonblock false clock (some p) =
      ((p.readRecord .slave n nonblock).1, some (p.readRecord .slave n nonblock).2) := by
    simp [ptyRead, hn, h.canonical]
  rw [hrecord]
  have hqueue := h.queue
  cases entries with
  | nil =>
    have hrecords : p.canonicalRecords = [] := h.sizes
    cases heof : p.eofPending with
    | false =>
      have hblock : nonblock = false := by simpa [hrecords, heof] using hwaits
      have hnone : l.read n = (none, l) := by simp [Lines.read, hn, hqueue, heof]
      have hread : p.readRecord .slave n nonblock = (.wouldBlock, p) := by
        simp [readRecord, tryReadInner, h.canonical, hrecords, heof, h.open_.1, hblock]
      rw [hnone, hread]
      exact ⟨rfl, p, [], rfl, rfl, h⟩
    | true =>
      have hsome : l.read n = (some [], { l with queue := [] }) := by
        simp [Lines.read, hn, hqueue, heof]
      have hread : p.readRecord .slave n nonblock = (.done [], { p with eofPending := false }) := by
        simp [readRecord, tryReadInner, h.canonical, hrecords, heof]
      rw [hsome, hread]
      exact ⟨rfl, _, [], rfl, rfl, h.canonical, h.open_, h.edit, h.bytes, h.sizes, h.nonempty, rfl⟩
  | cons entry entries =>
    have hentry : entry ≠ [] := fun hnil => h.nonempty (by rw [hnil]; exact List.mem_cons_self)
    have hrest : [] ∉ entries := fun hmem => h.nonempty (List.mem_cons_of_mem _ hmem)
    have hbytes : p.toSlave = entry ++ entries.flatten := h.bytes
    have hsizes : p.canonicalRecords = entry.length :: entries.map List.length := h.sizes
    by_cases hfits : entry.length ≤ n
    · -- the whole entry fits into the buffer
      have hlines : l.read n = (some entry,
          { l with queue := entries ++ if p.eofPending then [[]] else [] }) := by
        simp [Lines.read, hn, hqueue, hfits]
      have hread : p.readRecord .slave n nonblock = (.done entry, { p with
            toSlave := entries.flatten
            canonicalRecords := entries.map List.length }) := by
        simp [readRecord, tryReadInner, h.canonical, hsizes, hbytes, Nat.min_eq_right hfits, hentry]
      rw [hlines, hread]
      exact ⟨rfl, _, entries, rfl, rfl, h.canonical, h.open_, h.edit, rfl, rfl, hrest, rfl⟩
    · have hlt : n < entry.length := Nat.lt_of_not_le hfits
      have hdrop : entry.drop n ≠ [] := by simpa using hlt
      have hlines : l.read n = (some (entry.take n),
          { l with queue := entry.drop n :: entries ++ if p.eofPending then [[]] else [] }) := by
        simp [Lines.read, hn, hqueue, hfits]
      have hread : p.readRecord .slave n nonblock = (.done (entry.take n), { p with
            toSlave := (entry.drop n :: entries).flatten
            canonicalRecords := (entry.drop n :: entries).map List.length }) := by
        simp [readRecord, tryReadInner, h.canonical, hsizes, hbytes, Nat.min_eq_left hlt.le, hn,
          hentry, List.take_append_of_le_length hlt.le, List.drop_append_of_le_length hlt.le,
          hlt.ne]
      rw [hlines, hread]
      refine ⟨rfl, _, entry.drop n :: entries, rfl, rfl, h.canonical, h.open_, h.edit, rfl, rfl,
        ?_, rfl⟩
      simp [hrest, hdrop.symm]

end Pty.Holds

namespace LineOp

variable {s s' : Typing} {r : Unit}

/-- The terminal holds the lines that its reader is to see. -/
def Inv (s : Typing) : Prop := ∃ entries, s.pty.Holds s.lines entries

theorem inv_start {t : TermiosState} (ht : t.canonical = true) : Inv (.start t) :=
  ⟨[], ht, ⟨Nat.one_ne_zero, Nat.one_ne_zero⟩, rfl, rfl, rfl, by simp, rfl⟩

theorem inv_step {op : LineOp} (h : Inv s) (htame : op.Tame s) (hrun : op.step s = .ok (r, s')) :
    Inv s' := by
  obtain ⟨entries, hholds⟩ := h
  cases op with
  | type b =>
    obtain ⟨entries', hpress⟩ := hholds.press htame.1 htame.2
    have htakes : ¬ s.pty.Refuses b := by
      simp [Pty.Refuses, hholds.open_.2, hholds.canonical]
    obtain ⟨signal, hbyte⟩ : ∃ signal, s.pty.writeByte .master b =
        some (true, signal, (s.pty.masterInputByte b).2) :=
      (s.pty.writeByte_master b).elim (fun h => absurd h.1 htakes) (·.2)
    simp only [step, ptyWrite, Pty.writeLoop, hbyte] at hrun
    cases hrun
    exact ⟨entries', hpress.echoOf (s.pty.masterInputByte_eq b).2⟩
  | read n nonblock clock =>
    obtain ⟨-, p', entries', hp, -, hread⟩ := hholds.read n clock htame
    simp only [step, hp] at hrun
    cases hrun
    exact ⟨entries', hread⟩

/-- In canonical mode the slave reads the edited lines in their order, with the ends of file
between them, along every run whose steps are tame. -/
theorem lines_delivered {t : TermiosState} (ht : t.canonical = true) {ops : List LineOp}
    (htame : Every step Tame ops (.start t)) : Every step Delivers ops (.start t) := by
  refine every_of_inv Inv (fun op s r s' h htame hrun => inv_step h htame hrun) ?_
    (inv_start ht) htame
  intro op s h hop
  obtain ⟨entries, hholds⟩ := h
  cases op with
  | type b => trivial
  | read n nonblock clock => exact (hholds.read n clock hop).1

/-- A line and an end of file are typed and read. -/
def typeAndRead : List LineOp :=
  [.type 0x68, .type 0x69, .type 0x0a, .type 0x04, .read 16 false ⟨0, 1⟩, .read 16 false ⟨0, 1⟩,
    .type 0x78]

theorem lines_delivered_typeAndRead : Every step Tame typeAndRead (.start Pty.new.termios) ∧
      Every step Delivers typeAndRead (.start Pty.new.termios) := by
  have htame : Every step Tame typeAndRead (.start Pty.new.termios) := by decide
  exact ⟨htame, lines_delivered rfl htame⟩

/-- An end of file and then a line are typed.  The reader gets the line first. -/
theorem eofThenLine_not_delivered :
    ¬ Every step Delivers [.type 0x04, .type 0x61, .type 0x0a, .read 16 false ⟨0, 1⟩]
      (.start Pty.new.termios) := by
  decide

end LineOp

end Felix.Io
