import Mathlib.Data.List.TakeWhile

/-!
# The shell's grammar

`apps/shell/src/parser.rs`: a line is cut into tokens by a loop over its characters with three
quoting states, and the tokens are assembled into groups of pipelines of simple commands.  Text is
a list of characters.  A character whose expansion must not happen carries the marker
`protectedMark` in front of it; the word expander takes the marker off again.
-/

namespace Felix.Apps

/-- `PROTECTED`, the marker put before a character that must not be expanded. -/
def protectedMark : Char := Char.ofNat 0x1f

/-- The single quote. -/
def quote : Char := Char.ofNat 39

/-- The double quote. -/
def doubleQuote : Char := Char.ofNat 34

/-- The escape character. -/
def backslash : Char := Char.ofNat 92

/-! ## The parsed line -/

inductive RedirKind
  | input
  | output
  | append
  deriving DecidableEq, Repr

inductive RedirTarget
  | path (name : List Char)
  | fd (fd : UInt8)
  deriving DecidableEq, Repr

structure Redir where
  fd : UInt8
  kind : RedirKind
  target : RedirTarget
  deriving DecidableEq, Repr

structure SimpleCmd where
  args : List (List Char) := []
  redirs : List Redir := []
  deriving DecidableEq, Repr

/-- How a group is related to the next one: `;` (or the end), `&&` or `||`. -/
inductive Connector
  | always
  | and
  | or
  deriving DecidableEq, Repr

structure CommandGroup where
  pipeline : List SimpleCmd
  background : Bool
  next : Connector
  deriving DecidableEq, Repr

inductive Token
  | word (text : List Char)
  | pipe
  | semi
  | andIf
  | orIf
  | background
  | redir (fd : UInt8) (kind : RedirKind)
  | dup (fd target : UInt8)
  deriving DecidableEq, Repr

/-! ## Characters -/

/-- `push_protected`: the three characters the expander reads are marked. -/
def pushProtected (dst : List Char) (ch : Char) : List Char :=
  if ch = '$' ∨ ch = '~' ∨ ch = protectedMark then dst ++ [protectedMark, ch] else dst ++ [ch]

/-- `char::is_whitespace`, the Unicode property `White_Space`. -/
def isWhitespace (ch : Char) : Bool :=
  let n := ch.toNat
  (9 ≤ n ∧ n ≤ 13) ∨ n = 0x20 ∨ n = 0x85 ∨ n = 0xa0 ∨ n = 0x1680 ∨ (0x2000 ≤ n ∧ n ≤ 0x200a) ∨
    n = 0x2028 ∨ n = 0x2029 ∨ n = 0x202f ∨ n = 0x205f ∨ n = 0x3000

def isAsciiDigit (ch : Char) : Bool := 48 ≤ ch.toNat ∧ ch.toNat ≤ 57

/-- The number a string of digits stands for. -/
def decimal (digits : List Char) : Nat := digits.foldl (fun n ch => 10 * n + (ch.toNat - 48)) 0

/-- `str::parse::<u8>` on a string of digits. -/
def parseU8 (digits : List Char) : Option UInt8 :=
  if decimal digits ≤ 255 then some (UInt8.ofNat (decimal digits)) else none

/-! ## The tokenizer -/

/-- The variables of `tokenize`'s loop: the tokens pushed, the word being built, the two quoting
states and whether a word has started (an empty pair of quotes is a word too). -/
structure Lexer where
  out : List Token := []
  cur : List Char := []
  single : Bool := false
  double : Bool := false
  started : Bool := false
  deriving DecidableEq, Repr

namespace Lexer

variable (s : Lexer)

def flushWord : Lexer :=
  if s.started then { s with out := s.out ++ [.word s.cur], cur := [], started := false } else s

/-- `out.push` -/
def push (t : Token) : Lexer := { s with out := s.out ++ [t] }

/-- `take_fd_prefix`: a word of digits right before the operator is its descriptor. -/
def takeFdPrefix (default : UInt8) : Except String (UInt8 × Lexer) :=
  if s.started ∧ s.cur ≠ [] ∧ s.cur.all isAsciiDigit then
    match parseU8 s.cur with
    | some fd => .ok (fd, { s with cur := [], started := false })
    | none => .error "bad redirection fd"
  else .ok (default, s.flushWord)

/-- What follows `>`: a second `>`, a descriptor to duplicate, or a path. -/
def afterOut (fd : UInt8) (rest : List Char) : Except String (Lexer × List Char) :=
  match rest with
  | '>' :: rest => .ok (s.push (.redir fd .append), rest)
  | '&' :: rest =>
    if rest.takeWhile isAsciiDigit = [] then .error "redirection: expected fd after >&"
    else
      match parseU8 (rest.takeWhile isAsciiDigit) with
      | some target => .ok (s.push (.dup fd target), rest.dropWhile isAsciiDigit)
      | none => .error "redirection: bad target fd"
  | rest => .ok (s.push (.redir fd .output), rest)

/-- One iteration of `tokenize`'s loop outside quotes. -/
def stepPlain (ch : Char) (rest : List Char) : Except String (Lexer × List Char) :=
  if ch = quote then .ok ({ s with single := true, started := true }, rest)
  else if ch = doubleQuote then .ok ({ s with double := true, started := true }, rest)
  else if ch = backslash then
    match rest with
    | [] => .error "unfinished escape"
    | next :: rest => .ok ({ s with started := true, cur := pushProtected s.cur next }, rest)
  else if isWhitespace ch then .ok (s.flushWord, rest)
  else if ch = ';' then .ok (s.flushWord.push .semi, rest)
  else if ch = '|' then
    match rest with
    | '|' :: rest => .ok (s.flushWord.push .orIf, rest)
    | rest => .ok (s.flushWord.push .pipe, rest)
  else if ch = '&' then
    match rest with
    | '&' :: rest => .ok (s.flushWord.push .andIf, rest)
    | rest => .ok (s.flushWord.push .background, rest)
  else if ch = '<' then do
    let (fd, s) ← s.takeFdPrefix 0
    .ok (s.push (.redir fd .input), rest)
  else if ch = '>' then do
    let (fd, s) ← s.takeFdPrefix 1
    s.afterOut fd rest
  else .ok ({ s with started := true, cur := s.cur ++ [ch] }, rest)

/-- One iteration of `tokenize`'s loop, on the character `ch` with `rest` still to be read. -/
def step (ch : Char) (rest : List Char) : Except String (Lexer × List Char) :=
  if s.single then
    if ch = quote then .ok ({ s with single := false }, rest)
    else .ok ({ s with cur := pushProtected s.cur ch }, rest)
  else if s.double then
    if ch = doubleQuote then .ok ({ s with double := false }, rest)
    else if ch = backslash then
      match rest with
      | [] => .error "unfinished escape in double quotes"
      | next :: rest => .ok ({ s with cur := pushProtected s.cur next }, rest)
    else .ok ({ s with started := true, cur := s.cur ++ [ch] }, rest)
  else s.stepPlain ch rest

/-- `tokenize`'s loop.  Every iteration takes a character, so the length of the text is enough
fuel. -/
def loop : Nat → Lexer → List Char → Except String Lexer
  | _, s, [] => .ok s
  | 0, s, _ :: _ => .ok s
  | n + 1, s, ch :: rest =>
    match s.step ch rest with
    | .error e => .error e
    | .ok (s', rest') => loop n s' rest'

/-- The loop over a whole text. -/
def lex (text : List Char) : Except String Lexer := loop text.length s text

/-- The end of `tokenize`: no quote may be left open. -/
def finish : Except String (List Token) :=
  if s.single then .error "unterminated single quote"
  else if s.double then .error "unterminated double quote"
  else .ok s.flushWord.out

end Lexer

def tokenize (line : List Char) : Except String (List Token) := do
  let s ← Lexer.lex {} line
  s.finish

/-! ## The assembler -/

/-- The variables of `parse_line`'s loop. -/
structure Assembly where
  groups : List CommandGroup := []
  pipeline : List SimpleCmd := []
  cmd : SimpleCmd := {}
  deriving DecidableEq, Repr

namespace Assembly

def finishCmd (a : Assembly) : Except String Assembly :=
  if a.cmd.args = [] ∧ a.cmd.redirs = [] then .error "empty command"
  else if a.cmd.args = [] then .error "redirection without command"
  else .ok { a with pipeline := a.pipeline ++ [a.cmd], cmd := {} }

def finishGroup (a : Assembly) (background : Bool) (next : Connector) : Except String Assembly := do
  let a ← a.finishCmd
  .ok { a with groups := a.groups ++ [⟨a.pipeline, background, next⟩], pipeline := [] }

/-- `parse_line`'s loop over the tokens. -/
def run (a : Assembly) : List Token → Except String Assembly
  | [] => .ok a
  | .word w :: rest => run { a with cmd := { a.cmd with args := a.cmd.args ++ [w] } } rest
  | .redir fd kind :: .word path :: rest =>
    run { a with cmd := { a.cmd with redirs := a.cmd.redirs ++ [⟨fd, kind, .path path⟩] } } rest
  | .redir _ _ :: _ => .error "redirection: expected path"
  | .dup fd target :: rest =>
    run { a with cmd := { a.cmd with redirs := a.cmd.redirs ++ [⟨fd, .output, .fd target⟩] } } rest
  | .pipe :: rest => do run (← a.finishCmd) rest
  | .semi :: rest => do run (← a.finishGroup false .always) rest
  | .andIf :: rest => do run (← a.finishGroup false .and) rest
  | .orIf :: rest => do run (← a.finishGroup false .or) rest
  | .background :: rest => do run (← a.finishGroup true .always) rest

/-- A command is still open at the end of the line. -/
def Open (a : Assembly) : Prop := a.cmd.args ≠ [] ∨ a.cmd.redirs ≠ [] ∨ a.pipeline ≠ []

instance (a : Assembly) : Decidable a.Open := by unfold Open; infer_instance

end Assembly

/-- `&&`, `||` and `|` need a command after them. -/
def Token.requiresCommand (t : Token) : Bool := t = .andIf ∨ t = .orIf ∨ t = .pipe

def parseLine (line : List Char) : Except String (List CommandGroup) := do
  let tokens ← tokenize line
  if tokens = [] then .ok []
  else
    let a ← Assembly.run {} tokens
    let dangling : Bool := tokens.getLast?.any Token.requiresCommand
    let a ← if a.Open then a.finishGroup false .always
      else if dangling then .error "operator requires a command"
      else .ok a
    if dangling then .error "operator requires a command" else .ok a.groups

/-! ## Facts about the tokenizer's loop -/

namespace Lexer

variable {s s' : Lexer} {rest rest' : List Char} {ch : Char}

theorem afterOut_length {fd : UInt8}
    (h : s.afterOut fd rest = .ok (s', rest')) : rest'.length ≤ rest.length := by
  unfold afterOut at h
  split at h
  · cases h
    simp
  · next r =>
    split at h
    · cases h
    split at h
    · cases h
      have := (r.dropWhile_suffix isAsciiDigit).length_le
      simp only [List.length_cons]
      omega
    · cases h
  · cases h
    exact le_rfl

theorem stepPlain_length
    (h : s.stepPlain ch rest = .ok (s', rest')) : rest'.length ≤ rest.length := by
  unfold stepPlain at h
  split at h
  · cases h; exact le_rfl
  split at h
  · cases h; exact le_rfl
  split at h
  · split at h
    · cases h
    · cases h; simp
  split at h
  · cases h; exact le_rfl
  split at h
  · cases h; exact le_rfl
  split at h
  · split at h <;> cases h <;> simp
  split at h
  · split at h <;> cases h <;> simp
  split at h
  · cases hfd : s.takeFdPrefix 0 with
    | error e => rw [hfd] at h; cases h
    | ok p => rw [hfd] at h; cases h; exact le_rfl
  split at h
  · cases hfd : s.takeFdPrefix 1 with
    | error e => rw [hfd] at h; cases h
    | ok p => rw [hfd] at h; exact afterOut_length h
  · cases h; exact le_rfl

theorem step_length (h : s.step ch rest = .ok (s', rest')) : rest'.length ≤ rest.length := by
  unfold step at h
  split at h
  · split at h <;> cases h <;> exact le_rfl
  split at h
  · split at h
    · cases h; exact le_rfl
    split at h
    · split at h
      · cases h
      · cases h; simp
    · cases h; exact le_rfl
  · exact stepPlain_length h

theorem loop_of_le {n : Nat} {text : List Char} (h : text.length ≤ n) :
    loop n s text = lex s text := by
  unfold lex
  induction n using Nat.strong_induction_on generalizing s text with
  | _ n ih =>
    cases text with
    | nil => cases n <;> rfl
    | cons ch rest =>
      obtain ⟨k, rfl⟩ : ∃ k, n = k + 1 := ⟨n - 1, by simp at h; omega⟩
      simp only [List.length_cons, loop]
      cases hs : s.step ch rest with
      | error e => rfl
      | ok p =>
        have hlen : p.2.length ≤ rest.length := step_length hs
        have hk : rest.length ≤ k := by simpa using h
        show loop k p.1 p.2 = loop rest.length p.1 p.2
        rw [ih k (by omega) (by omega)]
        by_cases hr : rest.length < k + 1
        · exact (ih rest.length hr hlen).symm
        · omega

@[simp]
theorem lex_nil (s : Lexer) : lex s [] = .ok s := rfl

theorem lex_cons (h : s.step ch rest = .ok (s', rest')) : lex s (ch :: rest) = lex s' rest' := by
  have hlen := step_length h
  unfold lex
  simp only [List.length_cons, loop, h]
  exact loop_of_le hlen

end Lexer

end Felix.Apps
