import Felix.Apps.Parser

/-!
# The shell's state and word expansion

The parts of `struct Shell` (`apps/shell/src/main.rs`) that the expansion of a word reads, and
`expand_word`, which replaces `~` and `$` in a parsed word and takes the protection marks off.
-/

namespace Felix.Apps

structure EnvVar where
  name : List Char
  value : List Char
  deriving DecidableEq, Repr

structure Shell where
  env : List EnvVar := []
  lastStatus : Int := 0
  deriving DecidableEq, Repr

variable (shell : Shell)

def Shell.getVar (name : List Char) : Option (List Char) :=
  (shell.env.find? (·.name = name)).map (·.value)

/-- A character of a variable's name. -/
def isNameChar (ch : Char) : Bool := ch.isAlphanum ∨ ch = '_'

/-- What `$name` is replaced by: a lone `$` stands for itself, an unknown name for nothing. -/
def Shell.dollar (name : List Char) : List Char :=
  if name = [] then ['$'] else (shell.getVar name).getD []

def openBrace : Char := Char.ofNat 123

def closeBrace : Char := Char.ofNat 125

/-- `expand_word`'s loop.  Every iteration takes a character, so the length of the word is enough
fuel. -/
def expandLoop (shell : Shell) : Nat → List Char → List Char
  | _, [] => []
  | 0, _ :: _ => []
  | n + 1, ch :: rest =>
    if ch = protectedMark then
      match rest with
      | [] => []
      | next :: rest => next :: expandLoop shell n rest
    else if ch ≠ '$' then ch :: expandLoop shell n rest
    else
      match rest with
      | [] => ['$']
      | next :: tail =>
        if next = '?' then (toString shell.lastStatus).toList ++ expandLoop shell n tail
        else if next = openBrace then
          -- The closing brace is skipped when there is one.
          shell.dollar (tail.takeWhile (· ≠ closeBrace)) ++
            expandLoop shell n (tail.dropWhile (· ≠ closeBrace)).tail
        else
          shell.dollar (rest.takeWhile isNameChar) ++
            expandLoop shell n (rest.dropWhile isNameChar)

/-- `expand_word`: a leading `~`, alone or before a slash, is the home directory. -/
def expandWord (word : List Char) : List Char :=
  let home := (shell.getVar "HOME".toList).getD ['/']
  match word with
  | ['~'] => home
  | '~' :: '/' :: rest => home ++ expandLoop shell (rest.length + 1) ('/' :: rest)
  | word => expandLoop shell word.length word

/-- The target of a redirection, expanded. -/
def RedirTarget.expand : RedirTarget → RedirTarget
  | .path p => .path (expandWord shell p)
  | .fd n => .fd n

def expandCmd (cmd : SimpleCmd) : SimpleCmd where
  args := cmd.args.map (expandWord shell)
  redirs := cmd.redirs.map fun r => { r with target := r.target.expand shell }

/-- A group with every word of it expanded. -/
def expandGroup (g : CommandGroup) : CommandGroup :=
  { g with pipeline := g.pipeline.map (expandCmd shell) }

/-! ## Protected text -/

/-- The text that `push_protected` builds from `w`. -/
def protect (w : List Char) : List Char := w.flatMap (pushProtected [])

@[simp]
theorem protect_nil : protect [] = [] := rfl

theorem protect_cons (ch : Char) (w : List Char) :
    protect (ch :: w) = pushProtected [] ch ++ protect w := rfl

theorem pushProtected_eq (dst : List Char) (ch : Char) :
    pushProtected dst ch = dst ++ pushProtected [] ch := by
  unfold pushProtected
  split <;> simp

/-- A character is marked, or it is none of the three that would be expanded. -/
theorem pushProtected_cases (ch : Char) : pushProtected [] ch = [protectedMark, ch] ∨
      pushProtected [] ch = [ch] ∧ ch ≠ '$' ∧ ch ≠ '~' ∧ ch ≠ protectedMark := by
  unfold pushProtected
  split
  · exact Or.inl rfl
  · next h => exact Or.inr ⟨rfl, by simpa only [not_or] using h⟩

/-- Expansion gives a protected text back as it was. -/
theorem expandLoop_protect (shell : Shell) (w : List Char) {n : Nat}
    (hn : (protect w).length ≤ n) : expandLoop shell n (protect w) = w := by
  induction w generalizing n with
  | nil => cases n <;> rfl
  | cons ch w ih =>
    rw [protect_cons] at hn ⊢
    obtain ⟨k, rfl⟩ : ∃ k, n = k + 1 := by
      refine ⟨n - 1, ?_⟩
      obtain h | ⟨h, -⟩ := pushProtected_cases ch <;> simp [h] at hn <;> omega
    obtain h | ⟨h, hd, -, hp⟩ := pushProtected_cases ch
    · simp only [h, List.length_append, List.length_cons] at hn
      simp only [h, List.cons_append, List.nil_append, expandLoop, if_true]
      rw [ih (by omega)]
    simp only [h, List.length_append, List.length_cons] at hn
    simp only [h, List.cons_append, List.nil_append, expandLoop, if_neg hp, if_pos hd]
    rw [ih (by omega)]

theorem protect_ne_tilde (w rest : List Char) : protect w ≠ '~' :: rest := by
  cases w with
  | nil => simp
  | cons ch w =>
    rw [protect_cons]
    obtain h | ⟨h, -, ht, -⟩ := pushProtected_cases ch
    · rw [h]
      intro hc
      exact absurd (List.cons.inj hc).1 (by decide)
    rw [h]
    intro hc
    exact ht (List.cons.inj hc).1

/-- Whatever the variables are, expanding a protected word takes only the marks off. -/
@[simp]
theorem expandWord_protect (shell : Shell) (w : List Char) : expandWord shell (protect w) = w := by
  unfold expandWord
  split
  · next h => exact absurd h (protect_ne_tilde w _)
  · next h => exact absurd h (protect_ne_tilde w _)
  · exact expandLoop_protect shell w le_rfl

end Felix.Apps
