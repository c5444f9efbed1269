import Mathlib.Data.Finset.Lattice.Fold
import Mathlib.Order.Lattice.Nat
import Felix.Apps.Parser

/-!
# The descriptors of redirections

`prepare_redirs` opens the files of a builtin's redirections, and `spawn_stage` those of a program.
The kernel may refuse any call of `open`, and the descriptor that it returns is one that is not
open.  Only -1 is an error for the shell; another negative code passes for a descriptor, and the
codes of the kernel as it is are all of that kind.

`spawn_stage` closes what it has opened on every path.  `prepare_redirs` does not when it fails:
what it had stored stays open.
-/

namespace Felix.Apps

open Function

/-- The answers to `open`: the code `-1 - c` for some calls, and a descriptor for the others. -/
structure Opener where
  refuses : Nat → Option Nat
  pick : Finset Int → Int
  nonneg : ∀ s, 0 ≤ pick s
  fresh : ∀ s, pick s ∉ s

/-- The open descriptors, what was opened and closed so far, and the number of calls of `open`. -/
structure Files where
  isOpen : Finset Int
  opened : List Int := []
  closed : List Int := []
  calls : Nat := 0

/-- `close`, which fails for a negative number. -/
def Files.close (fd : Int) (w : Files) : Files :=
  if fd < 0 then w else { w with isOpen := w.isOpen.erase fd, closed := w.closed ++ [fd] }

def closeIfOpen (fd : Int) (w : Files) : Files := if 0 ≤ fd then w.close fd else w

def openRedirPath (k : Opener) (path : List Char) (w : Files) : Except String Int × Files :=
  match k.refuses w.calls with
  | none =>
    let fd := k.pick w.isOpen
    (.ok fd, ⟨insert fd w.isOpen, w.opened ++ [fd], w.closed, w.calls + 1⟩)
  | some c =>
    (if c = 0 then .error (String.ofList path ++ ": cannot open") else .ok (-1 - c),
      { w with calls := w.calls + 1 })

/-- `RedirFds`, with stdin, stdout and stderr under their numbers. -/
structure RedirFds where
  fd : UInt8 → Int := fun _ => -1
  stderrToStdout : Bool := false

def badFd (fd : UInt8) : String := "redirection: fd " ++ toString fd ++ " is not supported"

def badDup (fd target : UInt8) : String :=
  "redirection: " ++ toString fd ++ ">&" ++ toString target ++ " is not supported"

/-- The loop of `prepare_redirs`. -/
def prepareRedirs (k : Opener) : List Redir → RedirFds → Files → Except String RedirFds × Files
  | [], fds, w => (.ok fds, w)
  | ⟨fd, _, .path path⟩ :: redirs, fds, w =>
    match openRedirPath k path w with
    | (.error e, w) => (.error e, w)
    | (.ok new, w) =>
      if fd ≤ 2 then
        prepareRedirs k redirs ⟨update fds.fd fd new, fd ≠ 2 && fds.stderrToStdout⟩
          (closeIfOpen (fds.fd fd) w)
      else (.error (badFd fd), w.close new)
  | ⟨fd, _, .fd target⟩ :: redirs, fds, w =>
    if fd = 2 ∧ target = 1 then
      prepareRedirs k redirs ⟨update fds.fd 2 (-1), true⟩ (closeIfOpen (fds.fd 2) w)
    else (.error (badDup fd target), w)

/-- `close_unique`, after the descriptors `before`. -/
def closeUnique (before : List Int) : List Int → Files → Files
  | [], w => w
  | fd :: fds, w =>
    closeUnique (before ++ [fd]) fds (if fd < 0 ∨ fd ∈ before then w else w.close fd)

/-- The loop of `spawn_stage`; `std` are `sin`, `sout` and `serr`. -/
def redirect (k : Opener) : List Redir → (UInt8 → Int) → List Int → Files →
    Except String (UInt8 → Int) × List Int × Files
  | [], std, opened, w => (.ok std, opened, w)
  | ⟨fd, _, .path path⟩ :: redirs, std, opened, w =>
    match openRedirPath k path w with
    | (.error e, w) => (.error e, opened, w)
    | (.ok new, w) =>
      if fd ≤ 2 then redirect k redirs (update std fd new) (opened ++ [new]) w
      else (.error (badFd fd), opened ++ [new], w)
  | ⟨fd, _, .fd target⟩ :: redirs, std, opened, w =>
    if fd ≤ 2 ∧ target ≤ 2 then redirect k redirs (update std fd (std target)) opened w
    else (.error (badDup fd target), opened, w)

/-- `spawn_stage`, where `full` is what the search for the program came to. -/
def spawnStage (k : Opener) (name : List Char) (full : Option (List Char))
    (spawn : List Char → (UInt8 → Int) → Option Int) (redirs : List Redir) (base : UInt8 → Int)
    (w : Files) : Except String Int × Files :=
  match full with
  | none => (.error (String.ofList name ++ ": command not found"), w)
  | some full =>
    match redirect k redirs base [] w with
    | (.error e, opened, w) => (.error e, closeUnique [] opened w)
    | (.ok std, opened, w) =>
      ((spawn full std).elim (.error (String.ofList name ++ ": exec failed")) .ok,
        closeUnique [] opened w)

/-! ## The descriptors of a builtin -/

/-- After an error every descriptor that was opened is closed. -/
def PrepareCloses (k : Opener) (redirs : List Redir) (w : Files) : Prop :=
  ∀ e w', prepareRedirs k redirs {} w = (.error e, w') → w'.isOpen = w.isOpen

/-- Where `prepare_redirs` stops, the redirections before hold no descriptor. -/
def Clean (k : Opener) : List Redir → (UInt8 → Bool) → Nat → Prop
  | [], _, _ => True
  | ⟨fd, _, .path _⟩ :: redirs, held, n =>
    if k.refuses n ≠ some 0 ∧ fd ≤ 2 then
      Clean k redirs (update held fd (k.refuses n).isNone) (n + 1)
    else ∀ i, held i = false
  | ⟨fd, _, .fd target⟩ :: redirs, held, n =>
    if fd = 2 ∧ target = 1 then Clean k redirs (update held 2 false) n
    else ∀ i, held i = false

/-- The descriptors in `fds` are open beside those in `base`. -/
structure Holds (base : Finset Int) (fds : RedirFds) (w : Files) : Prop where
  covered : ∀ x, x ∈ w.isOpen ↔ x ∈ base ∨ 0 ≤ x ∧ ∃ i, fds.fd i = x
  apart : ∀ i, 0 ≤ fds.fd i → fds.fd i ∉ base
  unique : ∀ i j, 0 ≤ fds.fd i → fds.fd i = fds.fd j → i = j

/-- `w'` has the new descriptor `fd` if it is one. -/
def Gains (w w' : Files) (fd : Int) : Prop :=
  (∀ x, x ∈ w'.isOpen ↔ x ∈ w.isOpen ∨ 0 ≤ fd ∧ x = fd) ∧ (0 ≤ fd → fd ∉ w.isOpen)

variable {k : Opener} {base : Finset Int} {fds : RedirFds} {w w' w₀ : Files} {new : Int}
  {redirs : List Redir} {opened : List Int}

theorem openRedirPath_cases (k : Opener) (path : List Char) (w : Files) :
    (k.refuses w.calls = some 0 ∧ ∃ e, openRedirPath k path w =
      (.error e, { w with calls := w.calls + 1 })) ∨
    k.refuses w.calls ≠ some 0 ∧ ∃ fd w', openRedirPath k path w = (.ok fd, w') ∧ Gains w w' fd ∧
      ((k.refuses w.calls).isNone = true ↔ 0 ≤ fd) ∧ w'.calls = w.calls + 1 ∧
      w'.opened = w.opened ++ [fd].filter (0 ≤ ·) ∧ w'.closed = w.closed := by
  have hnonneg := k.nonneg w.isOpen
  have hfresh := k.fresh w.isOpen
  unfold openRedirPath
  cases hrefuses : k.refuses w.calls with
  | none =>
    refine .inr ⟨by simp, _, _, rfl, ⟨fun x => ?_, fun _ => hfresh⟩, ?_, rfl, ?_, rfl⟩
    · simp [hnonneg, or_comm]
    · simpa using hnonneg
    · simp [hnonneg]
  | some c =>
    by_cases hc : c = 0
    · exact .inl ⟨by rw [hc], _, by simp [hc]; rfl⟩
    · have hneg : ¬ (0 : Int) ≤ -1 - c := by omega
      refine .inr ⟨by simpa using hc, -1 - c, { w with calls := w.calls + 1 }, by simp [hc],
        ⟨?_, ?_⟩, ?_, rfl, ?_, rfl⟩
      · simp only [hneg, false_and, or_false, implies_true]
      · exact fun h => absurd h hneg
      · simpa using hneg
      · simpa using Int.not_le.mp hneg

/-- A descriptor is replaced by a new one, or by none. -/
theorem Holds.put (h : Holds base fds w) (hgains : Gains w w' new) (i : UInt8) (b : Bool) :
    Holds base ⟨update fds.fd i new, b⟩ (closeIfOpen (fds.fd i) w') := by
  obtain ⟨hcovered, hapart, hunique⟩ := h
  obtain ⟨hopen, hfresh⟩ := hgains
  have hclose : ∀ x, x ∈ (closeIfOpen (fds.fd i) w').isOpen ↔
      x ∈ w'.isOpen ∧ ¬ (0 ≤ x ∧ x = fds.fd i) := by
    intro x
    unfold closeIfOpen Files.close
    grind
  constructor <;> simp only [update_apply] <;> grind

theorem Holds.isOpen_eq_iff (h : Holds base fds w) : w.isOpen = base ↔ ∀ i, fds.fd i < 0 := by
  obtain ⟨hcovered, hapart, -⟩ := h
  constructor <;> grind

@[simp] theorem closeIfOpen_calls (fd : Int) (w : Files) : (closeIfOpen fd w).calls = w.calls := by
  unfold closeIfOpen Files.close
  grind

theorem prepareRedirs_iff {held : UInt8 → Bool}
    (h : Holds base fds w) (hheld : ∀ i, held i = true ↔ 0 ≤ fds.fd i) :
    (∀ e w', prepareRedirs k redirs fds w = (.error e, w') → w'.isOpen = base) ↔
      Clean k redirs held w.calls := by
  induction redirs generalizing held fds w with
  | nil => simp [prepareRedirs, Clean]
  | cons r redirs ih =>
    have hstop : w.isOpen = base ↔ ∀ i, held i = false := by
      rw [h.isOpen_eq_iff]
      exact forall_congr' fun i => by rw [← Bool.not_eq_true, hheld i, Int.not_le]
    -- What is put in the place of a descriptor is held if it is one.
    have hput : ∀ i {b new}, (b = true ↔ 0 ≤ new) → ∀ j, update held i b j = true ↔
        0 ≤ update fds.fd i new j := by
      intro i b new hb j
      simp only [update_apply]
      split
      · exact hb
      · exact hheld j
    obtain ⟨fd, kind, path | target⟩ := r
    · obtain ⟨hrefuses, e, hopen⟩ | ⟨hrefuses, new, w', hopen, hgains, hnew, hcalls, -⟩ :=
        openRedirPath_cases k path w
      · simp [prepareRedirs, Clean, hopen, hrefuses, ← hstop]
      · by_cases hfd : fd ≤ 2
        · have hrest := ih (h.put hgains fd (fd ≠ 2 && fds.stderrToStdout)) (hput fd hnew)
          rw [closeIfOpen_calls, hcalls] at hrest
          simpa [prepareRedirs, Clean, hopen, hfd, hrefuses] using hrest
        · have hclosed : (w'.close new).isOpen = w.isOpen := by
            ext x
            grind [Files.close, Gains]
          simp [prepareRedirs, Clean, hopen, hfd, ← hstop, hclosed]
    · by_cases hdup : fd = 2 ∧ target = 1
      · have hnone : Gains w w (-1) := ⟨by simp, by simp⟩
        have hrest := ih (h.put hnone 2 true) (hput 2 (b := false) (by simp))
        simpa [prepareRedirs, Clean, hdup] using hrest
      · simp [prepareRedirs, Clean, hdup, ← hstop]

/-! ## The descriptors of a program -/

/-- What was opened is closed once, and the same descriptors are open as before. -/
def Closes (w w' : Files) : Prop :=
  w'.isOpen = w.isOpen ∧ ∃ l : List Int, l.Nodup ∧ w'.opened = w.opened ++ l ∧
    w'.closed = w.closed ++ l

/-- The descriptors among `opened` were opened since `w₀`, and nothing was closed. -/
structure Opened (w₀ : Files) (opened : List Int) (w : Files) : Prop where
  nodup : (opened.filter (0 ≤ ·)).Nodup
  isOpen : ∀ x, x ∈ w.isOpen ↔ x ∈ w₀.isOpen ∨ x ∈ opened.filter (0 ≤ ·)
  apart : ∀ x ∈ opened.filter (0 ≤ ·), x ∉ w₀.isOpen
  opened : w.opened = w₀.opened ++ opened.filter (0 ≤ ·)
  closed : w.closed = w₀.closed

theorem redirect_opened {w : Files} {std : UInt8 → Int} (h : Opened w₀ opened w) :
    Opened w₀ (redirect k redirs std opened w).2.1 (redirect k redirs std opened w).2.2 := by
  induction redirs generalizing std opened w with
  | nil => exact h
  | cons r redirs ih =>
    obtain ⟨fd, kind, path | target⟩ := r
    · unfold redirect
      obtain ⟨-, e, hopen⟩ | ⟨-, new, w', hopen, hgains, -, -, hopened, hclosed⟩ :=
        openRedirPath_cases k path w
      · rw [hopen]
        exact ⟨h.nodup, h.isOpen, h.apart, h.opened, h.closed⟩
      · have hnext : Opened w₀ (opened ++ [new]) w' := by
          obtain ⟨hgained, hfresh⟩ := hgains
          obtain ⟨hnodup, hisOpen, hapart, hprev, hnone⟩ := h
          refine ⟨?_, ?_, ?_, ?_, hclosed.trans hnone⟩
          · grind [List.nodup_append]
          · grind
          · grind
          · rw [hopened, hprev, List.filter_append, List.append_assoc]
        rw [hopen]
        dsimp only
        split
        · exact ih hnext
        · exact hnext
    · unfold redirect
      split
      · exact ih h
      · exact h

theorem closeUnique_eq {before fds : List Int} (h : ((before ++ fds).filter (0 ≤ ·)).Nodup) :
    (closeUnique before fds w).isOpen = w.isOpen \ (fds.filter (0 ≤ ·)).toFinset ∧
    (closeUnique before fds w).closed = w.closed ++ fds.filter (0 ≤ ·) ∧
    (closeUnique before fds w).opened = w.opened := by
  induction fds generalizing before w with
  | nil => simp [closeUnique]
  | cons fd fds ih =>
    have hrest := @ih (if fd < 0 ∨ fd ∈ before then w else w.close fd) (before ++ [fd])
      (by simpa using h)
    rw [closeUnique]
    by_cases hneg : fd < 0
    · have hfilter : (fd :: fds).filter (0 ≤ ·) = fds.filter (0 ≤ ·) := by simp [hneg]
      rw [if_pos (.inl hneg)] at hrest ⊢
      rwa [hfilter]
    · have hfilter : (fd :: fds).filter (0 ≤ ·) = fd :: fds.filter (0 ≤ ·) := by
        simp [Int.not_lt.mp hneg]
      have hbefore : fd ∉ before := fun hmem => by
        rw [List.filter_append, hfilter] at h
        exact (List.nodup_append.mp h).2.2 fd (by simpa [hmem] using hneg) fd (by simp) rfl
      rw [if_neg (by simp [hneg, hbefore]), Files.close, if_neg hneg] at hrest ⊢
      obtain ⟨hisOpen, hclosed, hopened⟩ := hrest
      rw [hfilter, hisOpen, hclosed, hopened]
      refine ⟨?_, ?_, rfl⟩
      · rw [List.toFinset_cons, Finset.erase_sdiff_comm, Finset.sdiff_insert]
      · simp

theorem closeUnique_closes (h : Opened w₀ opened w) : Closes w₀ (closeUnique [] opened w) := by
  obtain ⟨hisOpen, hclosed, hopened⟩ := @closeUnique_eq w [] opened h.nodup
  refine ⟨?_, _, h.nodup, hopened.trans h.opened, by rw [hclosed, h.closed]⟩
  ext x
  have hapart := h.apart x
  rw [hisOpen, Finset.mem_sdiff, List.mem_toFinset, h.isOpen x]
  tauto

theorem spawnStage_closes (k : Opener) (name : List Char) (full : Option (List Char))
    (spawn : List Char → (UInt8 → Int) → Option Int) (redirs : List Redir) (base : UInt8 → Int)
    (w : Files) : Closes w (spawnStage k name full spawn redirs base w).2 := by
  have hstart : Opened w [] w := ⟨by simp, by simp, by simp, by simp, rfl⟩
  have hloop := closeUnique_closes (@redirect_opened k w redirs [] w base hstart)
  unfold spawnStage
  cases full with
  | none => exact ⟨rfl, [], by simp⟩
  | some full =>
    dsimp only
    split <;> rename_i hredirect <;> rwa [hredirect] at hloop

/-- The descriptors are closed again iff no redirection before the one where `prepare_redirs` stops
holds one. -/
theorem redirs_closed_iff_clean (k : Opener) (redirs : List Redir) (w : Files) :
    (PrepareCloses k redirs w ∧ ∀ name full spawn base,
      Closes w (spawnStage k name full spawn redirs base w).2) ↔
      Clean k redirs (fun _ => false) w.calls := by
  have hstart : Holds w.isOpen {} w := ⟨by simp; omega, by simp, by simp⟩
  rw [← prepareRedirs_iff hstart (by simp)]
  exact and_iff_left fun name full spawn base => spawnStage_closes k name full spawn redirs base w

/-- No call of `open` fails. -/
def opensAll : Opener where
  refuses _ := none
  pick s := s.sup Int.natAbs + 1
  nonneg s := by omega
  fresh s h := by
    have hle := Finset.le_sup (f := Int.natAbs) h
    omega

/-- In `>a 5>b` both files can be opened, and `a` stays open when the shell refuses descriptor
5. -/
theorem first_redir_left_open :
    ¬ PrepareCloses opensAll [⟨1, .output, .path ['a']⟩, ⟨5, .output, .path ['b']⟩]
      ⟨{0, 1, 2}, [], [], 0⟩ := by
  intro h
  exact absurd (h _ _ rfl) (by decide)

end Felix.Apps
