import Felix.Apps.Expand

/-!
# Quoted words before a redirection

The tokenizer keeps the text of a word without its quotes, and `take_fd_prefix` decides from
that text if the word is the descriptor of the redirection that follows.  A word is written as
segments: plain characters, escaped characters and texts in quotes.  A quoted word is an
argument exactly if its text does not consist of digits.
-/

namespace Felix.Apps

open List

/-- A character of a text in double quotes. -/
inductive Inner
  | plain (ch : Char)
  | escaped (ch : Char)

inductive Segment
  | plain (ch : Char)
  | escaped (ch : Char)
  | single (text : List Char)
  | double (text : List Inner)

namespace Inner

def text : Inner → List Char
  | plain ch => [ch]
  | escaped ch => [backslash, ch]

/-- What the tokenizer adds to the word. -/
def value : Inner → List Char
  | plain ch => [ch]
  | escaped ch => pushProtected [] ch

def Wf : Inner → Prop
  | plain ch => ch ≠ doubleQuote ∧ ch ≠ backslash
  | escaped _ => True

end Inner

namespace Segment

def text : Segment → List Char
  | plain ch => [ch]
  | escaped ch => [backslash, ch]
  | single t => quote :: (t ++ [quote])
  | double t => doubleQuote :: (t.flatMap Inner.text ++ [doubleQuote])

def value : Segment → List Char
  | plain ch => [ch]
  | escaped ch => pushProtected [] ch
  | single t => protect t
  | double t => t.flatMap Inner.value

/-- A plain character has no meaning of its own, and a text in quotes does not end them. -/
def Wf : Segment → Prop
  | plain ch => isWhitespace ch = false ∧
      ch ∉ [quote, doubleQuote, backslash, ';', '|', '&', '<', '>']
  | escaped _ => True
  | single t => quote ∉ t
  | double t => ∀ x ∈ t, x.Wf

/-- The segment has a quoted or an escaped character. -/
def Quoted : Segment → Prop
  | plain _ => False
  | escaped _ => True
  | single t => t ≠ []
  | double t => t ≠ []

end Segment

/-- A word as it stands in the line. -/
def wordText (word : List Segment) : List Char := word.flatMap Segment.text

/-- The text of the word without its quotes. -/
def wordValue (word : List Segment) : List Char := word.flatMap Segment.value

/-- The text before the word has been read, and no word has started. -/
def StandsBefore (front : List Char) (out : List Token) (word : List Segment) : Prop :=
  ∀ rest, Lexer.lex {} (front ++ (wordText word ++ rest)) =
    Lexer.lex { out := out } (wordText word ++ rest)

/-- The operator with its default descriptor. -/
def Lexer.defaultRedir (s : Lexer) (op : Char) (rest : List Char) :
    Except String (Lexer × List Char) :=
  if op = '<' then .ok (s.push (.redir 0 .input), rest) else s.afterOut 1 rest

/-- The tokens of a line where the word is an argument and the operator after it has its default
descriptor. -/
def asArgument (out : List Token) (w : List Char) (op : Char) (rest : List Char) :
    Except String (List Token) := do
  let p ← Lexer.defaultRedir { out := out ++ [.word w] } op rest
  let s ← p.1.lex p.2
  s.finish

namespace Lexer

theorem lex_plain {s s' : Lexer} {ch : Char} {rest rest' : List Char} (hs : s.single = false)
    (hd : s.double = false) (h : s.stepPlain ch rest = .ok (s', rest')) :
    lex s (ch :: rest) = lex s' rest' := by
  apply lex_cons
  simpa [step, hs, hd] using h

theorem lex_step (s : Lexer) (ch : Char) (rest : List Char) :
    lex s (ch :: rest) = (do let p ← s.step ch rest; lex p.1 p.2) := by
  cases h : s.step ch rest with
  | error e => simp only [lex, length_cons, loop, h]; rfl
  | ok p => exact lex_cons h

variable (out : List Token) (cur : List Char) (started : Bool) {w : List Char} {op : Char}

theorem lex_single {t : List Char} (h : quote ∉ t) (rest : List Char) :
    lex ⟨out, cur, true, false, true⟩ (t ++ rest) =
      lex ⟨out, cur ++ protect t, true, false, true⟩ rest := by
  induction t generalizing cur with
  | nil => simp
  | cons ch t ih =>
    simp only [mem_cons, not_or] at h
    rw [protect_cons, ← append_assoc, ← pushProtected_eq, ← ih _ h.2]
    exact lex_cons (by simp [step, Ne.symm h.1])

theorem lex_double {t : List Inner} (h : ∀ x ∈ t, x.Wf) (rest : List Char) :
    lex ⟨out, cur, false, true, true⟩ (t.flatMap Inner.text ++ rest) =
      lex ⟨out, cur ++ t.flatMap Inner.value, false, true, true⟩ rest := by
  induction t generalizing cur with
  | nil => simp
  | cons x t ih =>
    obtain ⟨hx, ht⟩ := forall_mem_cons.1 h
    rw [flatMap_cons, flatMap_cons, ← append_assoc cur, ← ih _ ht]
    cases x with
    | plain ch => exact lex_cons (by simp [step, hx.1, hx.2, Inner.value])
    | escaped ch =>
      rw [show cur ++ (Inner.escaped ch).value = pushProtected cur ch from
        (pushProtected_eq cur ch).symm]
      exact lex_cons (by rfl)

theorem lex_segment {x : Segment} (h : x.Wf) (rest : List Char) :
    lex ⟨out, cur, false, false, started⟩ (x.text ++ rest) =
      lex ⟨out, cur ++ x.value, false, false, true⟩ rest := by
  cases x with
  | plain ch =>
    obtain ⟨hspace, hch⟩ := h
    simp only [mem_cons, not_mem_nil, not_or] at hch
    exact lex_plain rfl rfl (by simp [stepPlain, *, Segment.value])
  | escaped ch =>
    rw [show cur ++ (Segment.escaped ch).value = pushProtected cur ch from
      (pushProtected_eq cur ch).symm]
    exact lex_cons (by rfl)
  | single t =>
    have htext : (Segment.single t).text ++ rest = quote :: (t ++ quote :: rest) := by
      simp [Segment.text]
    rw [htext, lex_cons (by rfl), lex_single out cur h]
    rfl
  | double t =>
    have htext : (Segment.double t).text ++ rest =
        doubleQuote :: (t.flatMap Inner.text ++ doubleQuote :: rest) := by
      simp [Segment.text]
    rw [htext, lex_cons (by rfl), lex_double out cur h]
    rfl

theorem lex_word {word : List Segment} (h : ∀ x ∈ word, x.Wf) (rest : List Char) :
    lex ⟨out, cur, false, false, started⟩ (wordText word ++ rest) =
      lex ⟨out, cur ++ wordValue word, false, false, started || !word.isEmpty⟩ rest := by
  induction word generalizing cur started with
  | nil => simp [wordText, wordValue]
  | cons x word ih =>
    obtain ⟨hx, hword⟩ := forall_mem_cons.1 h
    have htext : wordText (x :: word) ++ rest = x.text ++ (wordText word ++ rest) := by
      simp [wordText]
    rw [htext, lex_segment out cur started hx, ih _ _ hword]
    simp [wordValue]

/-- A word that is no number is pushed before the redirection. -/
theorem lex_redir (hw : w.all isAsciiDigit = false) (hop : op = '<' ∨ op = '>') (rest : List Char) :
    (do let s ← lex ⟨out, w, false, false, true⟩ (op :: rest); s.finish) =
      asArgument out w op rest := by
  have hfd : ∀ default, takeFdPrefix ⟨out, w, false, false, true⟩ default =
      .ok (default, { out := out ++ [.word w] }) := by
    intro default
    simp [takeFdPrefix, hw, flushWord]
  have hstep : step ⟨out, w, false, false, true⟩ op rest =
      defaultRedir { out := out ++ [.word w] } op rest := by
    rcases hop with rfl | rfl
    · show (takeFdPrefix _ 0 >>= fun r => .ok (r.2.push (.redir r.1 .input), rest)) = _
      rw [hfd]
      rfl
    show (takeFdPrefix _ 1 >>= fun r => r.2.afterOut r.1 rest) = _
    rw [hfd]
    rfl
  rw [lex_step, hstep, asArgument, bind_assoc]

/-- A number is taken for the descriptor, or it is too large for one. -/
theorem lex_redir_digits (hne : w ≠ [])
    (hw : w.all isAsciiDigit = true) (hop : op = '<' ∨ op = '>') :
    (do let s ← lex ⟨out, w, false, false, true⟩ [op]; s.finish) ≠ asArgument out w op [] := by
  have hfd : ∀ default, takeFdPrefix ⟨out, w, false, false, true⟩ default =
      (parseU8 w).elim (.error "bad redirection fd") fun fd => .ok (fd, { out := out }) := by
    intro default
    refine (if_pos ⟨rfl, hne, hw⟩).trans ?_
    cases parseU8 w <;> rfl
  have hexpected : ∃ token, asArgument out w op [] = .ok (out ++ [.word w, token]) := by
    rcases hop with rfl | rfl
    · exact ⟨.redir 0 .input, by
        simp [asArgument, defaultRedir, push, finish, flushWord, bind, Except.bind]⟩
    · exact ⟨.redir 1 .output, by
        simp [asArgument, defaultRedir, afterOut, push, finish, flushWord, bind, Except.bind]⟩
  obtain ⟨token, hexpected⟩ := hexpected
  rw [hexpected, lex_step]
  rcases hop with rfl | rfl
  · have hstep : step ⟨out, w, false, false, true⟩ '<' [] =
        (takeFdPrefix ⟨out, w, false, false, true⟩ 0 >>= fun r =>
          .ok (r.2.push (.redir r.1 .input), [])) := rfl
    rw [hstep, hfd]
    cases parseU8 w <;> simp [push, finish, flushWord, bind, Except.bind]
  have hstep : step ⟨out, w, false, false, true⟩ '>' [] =
      (takeFdPrefix ⟨out, w, false, false, true⟩ 1 >>= fun r => r.2.afterOut r.1 []) := rfl
  rw [hstep, hfd]
  cases parseU8 w <;> simp [afterOut, push, finish, flushWord, bind, Except.bind]

end Lexer

theorem value_ne_nil {x : Segment} (h : x.Quoted) : x.value ≠ [] := by
  have hpush : ∀ ch, pushProtected [] ch ≠ [] := by
    intro ch
    obtain heq | ⟨heq, -⟩ := pushProtected_cases ch <;> simp [heq]
  cases x with
  | plain ch => exact h.elim
  | escaped ch => exact hpush ch
  | single t =>
    cases t with
    | nil => exact absurd rfl h
    | cons ch t => simp [Segment.value, protect_cons, hpush]
  | double t =>
    cases t with
    | nil => exact absurd rfl h
    | cons y t => cases y <;> simp [Segment.value, Inner.value, hpush]

/-- A quoted word before a redirection is an argument exactly if it is not a number. -/
theorem quoted_word_argument_iff {front : List Char} {out : List Token} {word : List Segment}
    {op : Char} (hword : ∀ x ∈ word, x.Wf) (hquoted : ∃ x ∈ word, x.Quoted)
    (hfront : StandsBefore front out word) (hop : op = '<' ∨ op = '>') :
    (∀ rest, tokenize (front ++ (wordText word ++ op :: rest)) =
      asArgument out (wordValue word) op rest) ↔ (wordValue word).all isAsciiDigit = false := by
  obtain ⟨x, hx, hquoted⟩ := hquoted
  have hne : wordValue word ≠ [] := by
    intro hnil
    exact value_ne_nil hquoted (flatMap_eq_nil_iff.1 hnil x hx)
  have hsome : word.isEmpty = false := by
    cases word with
    | nil => cases hx
    | cons => rfl
  have hlex : ∀ rest, tokenize (front ++ (wordText word ++ op :: rest)) =
      (do let s ← Lexer.lex ⟨out, wordValue word, false, false, true⟩ (op :: rest)
          s.finish) := by
    intro rest
    have hread := Lexer.lex_word out [] false hword (op :: rest)
    rw [hsome] at hread
    rw [tokenize, hfront, hread]
    rfl
  simp only [hlex]
  constructor
  · intro h
    by_contra hdigits
    exact Lexer.lex_redir_digits out hne (by simpa using hdigits) hop (h [])
  · intro hdigits rest
    exact Lexer.lex_redir out hdigits hop rest

/-- After `e`, the word before `>f` is an argument. -/
theorem quoted_word_argument_iff_echo :
    tokenize (['e', ' '] ++ (wordText [.double [.plain 'a'], .plain '1'] ++ '>' :: ['f'])) =
      asArgument [.word ['e']] ['a', '1'] '>' ['f'] := by
  refine (quoted_word_argument_iff ?_ ?_ ?_ (.inr rfl)).2 (by decide) ['f']
  · simp [Segment.Wf, Inner.Wf]
    decide
  · exact ⟨.double [.plain 'a'], by simp, by simp [Segment.Quoted]⟩
  intro rest
  rfl

/-- The quoted word 2 becomes the descriptor of the redirection. -/
theorem quoted_digit_lost :
    tokenize ['e', ' ', quote, '2', quote, '>', 'f']
      = .ok [.word ['e'], .redir 2 .output, .word ['f']] ∧
      asArgument [.word ['e']] ['2'] '>' ['f'] =
        .ok [.word ['e'], .word ['2'], .redir 1 .output, .word ['f']] := by
  decide +kernel

end Felix.Apps
