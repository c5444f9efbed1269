import Felix.Apps.QuotedWords

/-!
# Quoted lines are read back as they were written

A list of groups is printed with every argument and path in single quotes and a space between any
two pieces.  Lexing such a line goes piece by piece: each piece leaves the tokenizer ready to push
exactly its own tokens at the next space.  The assembler then rebuilds the groups, with protected
words, and expansion takes the protection off.
-/

namespace Felix.Apps

open List

/-! ## Printing -/

/-- A text inside single quotes; a quote is written outside them, escaped. -/
def escape (w : List Char) : List Char :=
  w.flatMap fun ch => if ch = quote then [quote, backslash, quote, quote] else [ch]

/-- A text in single quotes. -/
def quoteText (w : List Char) : List Char := quote :: escape w ++ [quote]

/-- A descriptor in decimal. -/
def fdText (n : UInt8) : List Char := Nat.toDigits 10 n.toNat

def RedirKind.text : RedirKind → List Char
  | .input => ['<']
  | .output => ['>']
  | .append => ['>', '>']

/-- A redirection: `fd<path`, `fd>path`, `fd>>path` or `fd>&n`. -/
def Redir.text (r : Redir) : List Char :=
  match r.target with
  | .path p => fdText r.fd ++ r.kind.text ++ quoteText p
  | .fd n => fdText r.fd ++ ['>', '&'] ++ fdText n

inductive Operator
  | pipe
  | semi
  | andIf
  | orIf
  | background
  deriving DecidableEq, Repr

def Operator.text : Operator → List Char
  | .pipe => ['|']
  | .semi => [';']
  | .andIf => ['&', '&']
  | .orIf => ['|', '|']
  | .background => ['&']

/-- The pieces of a line, between which a space is printed. -/
inductive Piece
  | word (w : List Char)
  | redir (r : Redir)
  | op (o : Operator)
  deriving DecidableEq, Repr

def Piece.text : Piece → List Char
  | .word w => quoteText w
  | .redir r => r.text
  | .op o => o.text

/-- The pieces of a command: its arguments, then its redirections. -/
def SimpleCmd.pieces (c : SimpleCmd) : List Piece := c.args.map .word ++ c.redirs.map .redir

/-- The pieces of a pipeline. -/
def pipelinePieces : List SimpleCmd → List Piece
  | [] => []
  | [c] => c.pieces
  | c :: cs => c.pieces ++ .op .pipe :: pipelinePieces cs

/-- The operator printed after a group that another one follows. -/
def CommandGroup.operator (g : CommandGroup) : Operator :=
  if g.background then .background
  else
    match g.next with
    | .always => .semi
    | .and => .andIf
    | .or => .orIf

/-- The pieces of a line.  The last group has an operator after it only when it is in the
background. -/
def linePieces : List CommandGroup → List Piece
  | [] => []
  | [g] => pipelinePieces g.pipeline ++ if g.background then [.op .background] else []
  | g :: gs => pipelinePieces g.pipeline ++ .op g.operator :: linePieces gs

/-- Texts with a space between any two. -/
def spaced : List (List Char) → List Char
  | [] => []
  | [t] => t
  | t :: ts => t ++ ' ' :: spaced ts

/-- A list of groups as a line. -/
def printLine (groups : List CommandGroup) : List Char := spaced ((linePieces groups).map (·.text))

/-! ## The groups a line can express -/

/-- A redirection of one of the four forms: only `>` has a descriptor as its target. -/
def Redir.Expressible (r : Redir) : Prop := ∀ n, r.target = .fd n → r.kind = .output

/-- Every redirection of the group has one of the four forms, and a group in the background, after
which only `&` can be written, says nothing about the next one. -/
structure CommandGroup.Expressible (g : CommandGroup) : Prop where
  redirs : ∀ c ∈ g.pipeline, ∀ r ∈ c.redirs, r.Expressible
  next : g.background = true → g.next = .always

/-- The groups are expressible, and the last one has no operator that needs a next. -/
structure Expressible (groups : List CommandGroup) : Prop where
  group : ∀ g ∈ groups, g.Expressible
  last : ∀ g, groups.getLast? = some g → g.next = .always

/-! ## The tokens of a piece -/

def Operator.token : Operator → Token
  | .pipe => .pipe
  | .semi => .semi
  | .andIf => .andIf
  | .orIf => .orIf
  | .background => .background

def Piece.tokens : Piece → List Token
  | .word w => [.word (protect w)]
  | .redir r =>
    match r.target with
    | .path p => [.redir r.fd r.kind, .word (protect p)]
    | .fd n => [.dup r.fd n]
  | .op o => [o.token]

namespace Lexer

/-- At the next space or the end of the line the tokens pushed are `out`. -/
structure Ends (s : Lexer) (out : List Token) : Prop where
  single : s.single = false
  double : s.double = false
  flush : s.flushWord = { out := out }

/-- From between two words, `text` is read up to a space or the end, and pushes `tokens`. -/
def Reads (text : List Char) (tokens : List Token) : Prop :=
  ∀ out rest, (rest = [] ∨ ∃ r, rest = ' ' :: r) →
    ∃ s : Lexer, s.Ends (out ++ tokens) ∧ lex { out := out } (text ++ rest) = lex s rest

/-! ### Quoted text -/

variable (out : List Token) (cur w rest : List Char) (n : UInt8)

theorem lex_escape : lex ⟨out, cur, true, false, true⟩ (escape w ++ rest) =
      lex ⟨out, cur ++ protect w, true, false, true⟩ rest := by
  induction w generalizing cur with
  | nil => simp [escape]
  | cons ch w ih =>
    rw [protect_cons, ← append_assoc, ← pushProtected_eq, ← ih]
    by_cases hq : ch = quote
    · subst hq
      -- The quotes are closed, the escaped character is pushed, the quotes are opened again.
      calc lex ⟨out, cur, true, false, true⟩ _
          = lex ⟨out, cur, false, false, true⟩
              (backslash :: quote :: quote :: (escape w ++ rest)) := lex_cons rfl
        _ = lex ⟨out, pushProtected cur quote, false, false, true⟩
              (quote :: (escape w ++ rest)) := lex_cons rfl
        _ = lex ⟨out, pushProtected cur quote, true, false, true⟩ (escape w ++ rest) :=
              lex_cons rfl
    · have htext : escape (ch :: w) ++ rest = ch :: (escape w ++ rest) := by
        simp [escape, hq]
      rw [htext, lex_cons]
      simp [step, hq]

theorem lex_quoteText (started : Bool) :
    lex ⟨out, cur, false, false, started⟩ (quoteText w ++ rest) =
      lex ⟨out, cur ++ protect w, false, false, true⟩ rest := by
  have htext : quoteText w ++ rest = quote :: (escape w ++ quote :: rest) := by simp [quoteText]
  rw [htext, lex_cons (by rfl), lex_escape, lex_cons (by rfl)]

/-! ### Descriptors -/

theorem fdText_spec :
    fdText n ≠ [] ∧ (fdText n).all isAsciiDigit = true ∧ parseU8 (fdText n) = some n := by
  have h : ∀ i : Fin 256, Nat.toDigits 10 i ≠ [] ∧
      (Nat.toDigits 10 i).all isAsciiDigit = true ∧
      parseU8 (Nat.toDigits 10 i) = some (UInt8.ofNat i) := by
    decide +kernel
  have hn := h ⟨n.toNat, n.toNat_lt⟩
  rwa [UInt8.ofNat_toNat] at hn

theorem wf_digit {ch : Char} (h : isAsciiDigit ch = true) : (Segment.plain ch).Wf := by
  refine ⟨?_, fun hmem => ?_⟩
  · simp only [isAsciiDigit, decide_eq_true_eq] at h
    simp only [isWhitespace, decide_eq_false_iff_not]
    omega
  · have hnone : [quote, doubleQuote, backslash, ';', '|', '&', '<', '>'].any isAsciiDigit
        = false := by decide
    exact absurd h (List.any_eq_false.1 hnone ch hmem)

theorem lex_fdText (rest : List Char) :
    lex { out := out } (fdText n ++ rest) = lex ⟨out, fdText n, false, false, true⟩ rest := by
  obtain ⟨hne, hall, -⟩ := fdText_spec n
  have hwf : ∀ x ∈ (fdText n).map Segment.plain, x.Wf :=
    forall_mem_map.2 fun ch hch => wf_digit (all_eq_true.1 hall ch hch)
  have h := lex_word out [] false hwf rest
  have hb : (fdText n).isEmpty = false := by simpa using hne
  simpa [wordText, wordValue, Segment.text, Segment.value, flatMap_map, hb] using h

theorem takeFdPrefix_fdText (n default : UInt8) :
    takeFdPrefix ⟨out, fdText n, false, false, true⟩ default = .ok (n, { out := out }) := by
  obtain ⟨hne, hall, hparse⟩ := fdText_spec n
  simp [takeFdPrefix, hne, hall, hparse]

/-! ### One piece -/

theorem ends_word (w : List Char) :
    Ends ⟨out, w, false, false, true⟩ (out ++ [.word w]) := ⟨rfl, rfl, rfl⟩

theorem ends_idle : Ends { out := out } out := ⟨rfl, rfl, rfl⟩

theorem reads_word (w : List Char) : Reads (quoteText w) [.word (protect w)] := by
  intro out rest _
  refine ⟨_, ends_word out (protect w), ?_⟩
  have h := lex_quoteText out [] w rest false
  simpa using h

theorem reads_redir_path (fd : UInt8) (kind : RedirKind) (p : List Char) :
    Reads (fdText fd ++ kind.text ++ quoteText p) [.redir fd kind, .word (protect p)] := by
  intro out rest _
  refine ⟨⟨out ++ [.redir fd kind], protect p, false, false, true⟩, ?_, ?_⟩
  · have h := ends_word (out ++ [.redir fd kind]) (protect p)
    rwa [append_assoc] at h
  have hquote := lex_quoteText (out ++ [.redir fd kind]) [] p rest false
  rw [nil_append] at hquote
  rw [append_assoc, append_assoc, lex_fdText, ← hquote]
  have hfd := fun default => takeFdPrefix_fdText out fd default
  cases kind with
  | input =>
    apply lex_plain rfl rfl
    show (takeFdPrefix _ 0 >>= fun r => .ok (r.2.push (.redir r.1 .input), _)) = _
    rw [hfd]
    rfl
  | output =>
    apply lex_plain rfl rfl
    show (takeFdPrefix _ 1 >>= fun r => r.2.afterOut r.1 (quote :: _)) = _
    rw [hfd]
    rfl
  | append =>
    apply lex_plain rfl rfl
    show (takeFdPrefix _ 1 >>= fun r => r.2.afterOut r.1 ('>' :: _)) = _
    rw [hfd]
    rfl

theorem takeWhile_fdText {rest : List Char} (h : rest = [] ∨ ∃ r, rest = ' ' :: r) :
    (fdText n ++ rest).takeWhile isAsciiDigit = fdText n ∧
      (fdText n ++ rest).dropWhile isAsciiDigit = rest := by
  have hall : ∀ ch ∈ fdText n, isAsciiDigit ch = true := by
    simpa using (fdText_spec n).2.1
  have hrest : rest.takeWhile isAsciiDigit = [] ∧ rest.dropWhile isAsciiDigit = rest := by
    obtain rfl | ⟨r, rfl⟩ := h <;> exact ⟨rfl, rfl⟩
  rw [takeWhile_append_of_pos hall, dropWhile_append_of_pos hall, hrest.1, hrest.2, append_nil]
  exact ⟨rfl, rfl⟩

theorem reads_redir_fd (fd n : UInt8) :
    Reads (fdText fd ++ ['>', '&'] ++ fdText n) [.dup fd n] := by
  intro out rest hrest
  refine ⟨_, ends_idle _, ?_⟩
  obtain ⟨htake, hdrop⟩ := takeWhile_fdText n hrest
  obtain ⟨hne, -, hparse⟩ := fdText_spec n
  rw [append_assoc, append_assoc, lex_fdText]
  apply lex_plain rfl rfl
  show (takeFdPrefix _ 1 >>= fun r => r.2.afterOut r.1 ('&' :: (fdText n ++ rest))) = _
  rw [takeFdPrefix_fdText]
  simp only [afterOut, htake, hdrop, hparse, if_neg hne]
  rfl

theorem reads_op (o : Operator) : Reads o.text [o.token] := by
  intro out rest hrest
  refine ⟨_, ends_idle _, ?_⟩
  cases o with
  | semi => exact lex_plain rfl rfl rfl
  | andIf => exact lex_plain rfl rfl rfl
  | orIf => exact lex_plain rfl rfl rfl
  | pipe => obtain rfl | ⟨r, rfl⟩ := hrest <;> exact lex_plain rfl rfl rfl
  | background => obtain rfl | ⟨r, rfl⟩ := hrest <;> exact lex_plain rfl rfl rfl

theorem reads_piece (p : Piece) : Reads p.text p.tokens := by
  cases p with
  | word w => exact reads_word w
  | op o => exact reads_op o
  | redir r =>
    obtain ⟨fd, kind, target⟩ := r
    cases target with
    | path p => exact reads_redir_path fd kind p
    | fd n => exact reads_redir_fd fd n

/-! ### A whole line -/

theorem lex_space {s : Lexer} {out : List Token} (h : s.Ends out) (rest : List Char) :
    lex s (' ' :: rest) = lex { out := out } rest := by
  rw [← h.flush]
  exact lex_plain h.single h.double rfl

/-- Pieces with spaces between them are read one after the other. -/
theorem reads_spaced (ps : List Piece) :
    Reads (spaced (ps.map (·.text))) (ps.flatMap (·.tokens)) := by
  induction ps with
  | nil => exact fun out rest _ => ⟨{ out := out }, by simpa using ends_idle out, rfl⟩
  | cons p ps ih =>
    cases ps with
    | nil => simpa [spaced] using reads_piece p
    | cons q qs =>
      intro out rest hrest
      obtain ⟨s, hs, hlex⟩ := reads_piece p out (' ' :: (spaced ((q :: qs).map (·.text)) ++ rest))
        (Or.inr ⟨_, rfl⟩)
      obtain ⟨s', hs', hlex'⟩ := ih (out ++ p.tokens) rest hrest
      refine ⟨s', by simpa [append_assoc] using hs', ?_⟩
      calc lex { out := out } (spaced ((p :: q :: qs).map (·.text)) ++ rest)
          = lex { out := out } (p.text ++ ' ' :: (spaced ((q :: qs).map (·.text)) ++ rest)) := by
            simp [spaced]
        _ = lex s (' ' :: (spaced ((q :: qs).map (·.text)) ++ rest)) := hlex
        _ = lex { out := out ++ p.tokens } (spaced ((q :: qs).map (·.text)) ++ rest) :=
            lex_space hs _
        _ = lex s' rest := hlex'

end Lexer

theorem tokenize_printLine (groups : List CommandGroup) :
    tokenize (printLine groups) = .ok ((linePieces groups).flatMap (·.tokens)) := by
  obtain ⟨s, hs, hlex⟩ := Lexer.reads_spaced (linePieces groups) [] [] (Or.inl rfl)
  rw [append_nil] at hlex
  unfold tokenize printLine
  rw [hlex]
  show s.finish = _
  simp [Lexer.finish, hs.single, hs.double, hs.flush]

/-! ## Assembling the groups again -/

/-- The target with its path protected. -/
def RedirTarget.protect : RedirTarget → RedirTarget
  | .path p => .path (Apps.protect p)
  | .fd n => .fd n

def Redir.protect (r : Redir) : Redir := { r with target := r.target.protect }

/-- The command with every word of it protected. -/
def SimpleCmd.protect (c : SimpleCmd) : SimpleCmd where
  args := c.args.map Apps.protect
  redirs := c.redirs.map (·.protect)

def CommandGroup.protect (g : CommandGroup) : CommandGroup :=
  { g with pipeline := g.pipeline.map (·.protect) }

namespace Assembly

theorem run_args (a : Assembly) (args : List (List Char)) (rest : List Token) :
    a.run ((args.map Piece.word).flatMap (·.tokens) ++ rest) =
      run { a with cmd := { a.cmd with args := a.cmd.args ++ args.map Apps.protect } } rest := by
  induction args generalizing a with
  | nil => simp
  | cons w args ih =>
    show run _ ((args.map Piece.word).flatMap (·.tokens) ++ rest) = _
    rw [ih]
    simp

theorem run_redirs (a : Assembly) {redirs : List Redir} (h : ∀ r ∈ redirs, r.Expressible)
    (rest : List Token) :
    a.run ((redirs.map Piece.redir).flatMap (·.tokens) ++ rest) =
      run { a with cmd := { a.cmd with redirs := a.cmd.redirs ++ redirs.map (·.protect) } }
        rest := by
  induction redirs generalizing a with
  | nil => simp
  | cons r redirs ih =>
    have hr := h r (mem_cons_self)
    have ih' := fun a => ih a fun r' hr' => h r' (mem_cons_of_mem _ hr')
    obtain ⟨fd, kind, target⟩ := r
    cases target with
    | path p =>
      show run _ ((redirs.map Piece.redir).flatMap (·.tokens) ++ rest) = _
      rw [ih']
      simp only [append_assoc]
      rfl
    | fd n =>
      obtain rfl : kind = .output := hr n rfl
      show run _ ((redirs.map Piece.redir).flatMap (·.tokens) ++ rest) = _
      rw [ih']
      simp only [append_assoc]
      rfl

section

variable (groups : List CommandGroup) (pipeline : List SimpleCmd) {c : SimpleCmd}

theorem run_simpleCmd (h : ∀ r ∈ c.redirs, r.Expressible) (rest : List Token) :
    run ⟨groups, pipeline, {}⟩ (c.pieces.flatMap (·.tokens) ++ rest) =
      run ⟨groups, pipeline, c.protect⟩ rest := by
  unfold SimpleCmd.pieces
  rw [flatMap_append, append_assoc, run_args, run_redirs _ h]
  simp [SimpleCmd.protect]

theorem finishCmd_protect (h : c.args ≠ []) :
    finishCmd ⟨groups, pipeline, c.protect⟩ = .ok ⟨groups, pipeline ++ [c.protect], {}⟩ := by
  simp [finishCmd, SimpleCmd.protect, h]

/-- The tokens of a pipeline leave its last command open and the others in the pipeline. -/
theorem run_pipeline (front : List SimpleCmd) {cs : List SimpleCmd}
    (hne : cs ≠ []) (hargs : ∀ c ∈ cs, c.args ≠ [])
    (hredirs : ∀ c ∈ cs, ∀ r ∈ c.redirs, r.Expressible) (rest : List Token) :
    ∃ init last, cs = init ++ [last] ∧
      run ⟨groups, front, {}⟩ ((pipelinePieces cs).flatMap (·.tokens) ++ rest) =
        run ⟨groups, front ++ init.map (·.protect), last.protect⟩ rest := by
  induction cs generalizing front with
  | nil => exact absurd rfl hne
  | cons c cs ih =>
    have hc := hredirs c mem_cons_self
    cases cs with
    | nil => exact ⟨[], c, rfl, by simpa [pipelinePieces] using run_simpleCmd groups front hc rest⟩
    | cons d ds =>
      obtain ⟨init, last, hsplit, hrun⟩ := ih (front ++ [c.protect]) (by simp)
        (fun x hx => hargs x (mem_cons_of_mem _ hx))
        (fun x hx => hredirs x (mem_cons_of_mem _ hx))
      refine ⟨c :: init, last, by rw [hsplit]; rfl, ?_⟩
      have htokens : (pipelinePieces (c :: d :: ds)).flatMap (·.tokens) ++ rest =
          c.pieces.flatMap (·.tokens) ++
            (.pipe :: ((pipelinePieces (d :: ds)).flatMap (·.tokens) ++ rest)) := by
        simp [pipelinePieces, Piece.tokens, Operator.token]
      rw [htokens, run_simpleCmd groups front hc]
      show (do run (← finishCmd _) _) = _
      rw [finishCmd_protect groups front (hargs c mem_cons_self)]
      show run _ _ = _
      rw [hrun, append_assoc]
      rfl

theorem finishGroup_protect {init : List SimpleCmd}
    {last : SimpleCmd} (h : last.args ≠ []) (background : Bool) (next : Connector) :
    finishGroup ⟨groups, init.map (·.protect), last.protect⟩ background next =
      .ok ⟨groups ++ [CommandGroup.protect ⟨init ++ [last], background, next⟩], [], {}⟩ := by
  unfold finishGroup
  rw [finishCmd_protect groups _ h]
  simp [CommandGroup.protect, Bind.bind, Except.bind]

/-- The tokens of a group, up to the command it leaves open. -/
theorem run_group {g : CommandGroup} (hne : g.pipeline ≠ [])
    (hargs : ∀ c ∈ g.pipeline, c.args ≠ []) (hg : g.Expressible) (rest : List Token) :
    ∃ a : Assembly, a.Open ∧
      run ⟨groups, [], {}⟩ ((pipelinePieces g.pipeline).flatMap (·.tokens) ++ rest) = a.run rest ∧
      ∀ background next, a.finishGroup background next =
        .ok ⟨groups ++ [CommandGroup.protect ⟨g.pipeline, background, next⟩], [], {}⟩ := by
  obtain ⟨init, last, hsplit, hrun⟩ := run_pipeline groups [] hne hargs hg.redirs rest
  have hlast : last.args ≠ [] := hargs last (by rw [hsplit]; simp)
  refine ⟨⟨groups, init.map (·.protect), last.protect⟩, ?_, by simpa using hrun, ?_⟩
  · exact Or.inl (by simpa [SimpleCmd.protect] using hlast)
  · intro background next
    rw [finishGroup_protect groups hlast, hsplit]

end

theorem run_operator {a : Assembly} {groups : List CommandGroup} {g : CommandGroup}
    (hg : g.Expressible) (h : ∀ background next, a.finishGroup background next =
      .ok ⟨groups ++ [CommandGroup.protect ⟨g.pipeline, background, next⟩], [], {}⟩)
    (rest : List Token) :
    a.run (g.operator.token :: rest) = run ⟨groups ++ [g.protect], [], {}⟩ rest := by
  obtain ⟨pipeline, background, next⟩ := g
  have hfinish : (do run (← a.finishGroup background next) rest) =
      run ⟨groups ++ [CommandGroup.protect ⟨pipeline, background, next⟩], [], {}⟩ rest := by
    rw [h]
    rfl
  cases background with
  | true =>
    obtain rfl : next = .always := hg.next rfl
    exact hfinish
  | false => cases next <;> exact hfinish

end Assembly

/-! ## The end of the line -/

/-- The last token is not an operator that needs a command after it. -/
def Complete (tokens : List Token) : Prop :=
  ∃ init t, tokens = init ++ [t] ∧ t.requiresCommand = false

theorem Complete.append {tokens : List Token} (h : Complete tokens) (front : List Token) :
    Complete (front ++ tokens) := by
  obtain ⟨init, t, rfl, ht⟩ := h
  exact ⟨front ++ init, t, (append_assoc _ _ _).symm, ht⟩

theorem complete_cmd {c : SimpleCmd} (h : c.args ≠ []) :
    Complete (c.pieces.flatMap (·.tokens)) := by
  have hne : c.pieces ≠ [] := by simp [SimpleCmd.pieces, h]
  have hall : ∀ p ∈ c.pieces, Complete p.tokens := by
    intro p hp
    simp only [SimpleCmd.pieces, mem_append, mem_map] at hp
    obtain ⟨w, -, rfl⟩ | ⟨⟨fd, kind, target⟩, -, rfl⟩ := hp
    · exact ⟨[], _, rfl, rfl⟩
    cases target with
    | path p => exact ⟨[.redir fd kind], _, rfl, rfl⟩
    | fd n => exact ⟨[], _, rfl, rfl⟩
  rw [← dropLast_concat_getLast hne, flatMap_append]
  apply Complete.append
  simpa using hall _ (getLast_mem hne)

theorem complete_pipeline {cs : List SimpleCmd} (hne : cs ≠ []) (hargs : ∀ c ∈ cs, c.args ≠ []) :
    Complete ((pipelinePieces cs).flatMap (·.tokens)) := by
  induction cs with
  | nil => exact absurd rfl hne
  | cons c cs ih =>
    cases cs with
    | nil => exact complete_cmd (hargs c mem_cons_self)
    | cons d ds =>
      have h := ih (by simp) fun x hx => hargs x (mem_cons_of_mem _ hx)
      rw [pipelinePieces, flatMap_append]
      exact (h.append _).append _
      simp

variable {groups : List CommandGroup}

/-- What the assembler makes of the tokens of a line: the groups with protected words, the last of
them perhaps still open, and no operator that waits for a command. -/
theorem run_line (before : List CommandGroup) (hne : groups ≠ [])
    (hcmd : ∀ g ∈ groups, g.pipeline ≠ [] ∧ ∀ c ∈ g.pipeline, c.args ≠ [])
    (hx : Expressible groups) :
    Complete ((linePieces groups).flatMap (·.tokens)) ∧
      ∃ a, Assembly.run ⟨before, [], {}⟩ ((linePieces groups).flatMap (·.tokens)) = .ok a ∧
        if a.Open then a.finishGroup false .always =
          .ok ⟨before ++ groups.map (·.protect), [], {}⟩
        else a.groups = before ++ groups.map (·.protect) := by
  induction groups generalizing before with
  | nil => exact absurd rfl hne
  | cons g groups ih =>
    obtain ⟨hpipe, hargs⟩ := hcmd g mem_cons_self
    have hg := hx.group g mem_cons_self
    have hdone := complete_pipeline hpipe hargs
    cases groups with
    | nil =>
      have hnext : g.next = .always := hx.last g rfl
      obtain ⟨pipeline, background, next⟩ := g
      obtain rfl : next = .always := hnext
      cases background with
      | true =>
        obtain ⟨a, -, hrun, hfinish⟩ := Assembly.run_group before hpipe hargs hg [.background]
        have htokens : (linePieces [⟨pipeline, true, .always⟩]).flatMap (·.tokens) =
            (pipelinePieces pipeline).flatMap (·.tokens) ++ [.background] := by
          simp [linePieces, Piece.tokens, Operator.token]
        rw [htokens]
        refine ⟨⟨_, _, rfl, rfl⟩, ⟨before ++ [CommandGroup.protect ⟨pipeline, true, .always⟩],
          [], {}⟩, ?_, ?_⟩
        · rw [hrun]
          exact Assembly.run_operator hg hfinish []
        · rfl
      | false =>
        obtain ⟨a, hopen, hrun, hfinish⟩ := Assembly.run_group before hpipe hargs hg []
        have htokens : (linePieces [⟨pipeline, false, .always⟩]).flatMap (·.tokens) =
            (pipelinePieces pipeline).flatMap (·.tokens) := by
          simp [linePieces]
        rw [htokens]
        refine ⟨hdone, a, ?_, ?_⟩
        · rwa [append_nil] at hrun
        · rw [if_pos hopen, hfinish]
          rfl
    | cons g' gs =>
      have hx' : Expressible (g' :: gs) :=
        ⟨fun x h => hx.group x (mem_cons_of_mem _ h),
          fun x h => hx.last x (by rwa [getLast?_cons_cons])⟩
      obtain ⟨hcomplete, a', hrun', hend⟩ := ih (before ++ [g.protect]) (by simp)
        (fun x h => hcmd x (mem_cons_of_mem _ h)) hx'
      have htokens : (linePieces (g :: g' :: gs)).flatMap (·.tokens) =
          (pipelinePieces g.pipeline).flatMap (·.tokens) ++
            (g.operator.token :: (linePieces (g' :: gs)).flatMap (·.tokens)) := by
        simp [linePieces, Piece.tokens]
      obtain ⟨a, -, hrun, hfinish⟩ := Assembly.run_group before hpipe hargs hg
        (g.operator.token :: (linePieces (g' :: gs)).flatMap (·.tokens))
      rw [htokens]
      refine ⟨(hcomplete.append [g.operator.token]).append _, a', ?_, ?_⟩
      · rw [hrun, Assembly.run_operator hg hfinish, hrun']
      · simpa [append_assoc] using hend

/-- Parsing a printed line gives the groups with protected words. -/
theorem parseLine_printLine (hne : groups ≠ [])
    (hcmd : ∀ g ∈ groups, g.pipeline ≠ [] ∧ ∀ c ∈ g.pipeline, c.args ≠ [])
    (hx : Expressible groups) : parseLine (printLine groups) = .ok (groups.map (·.protect)) := by
  obtain ⟨⟨init, t, htokens, ht⟩, a, hrun, hend⟩ := run_line [] hne hcmd hx
  have hsome : (linePieces groups).flatMap (·.tokens) ≠ [] := by simp [htokens]
  have hlast : ((linePieces groups).flatMap (·.tokens)).getLast?.any Token.requiresCommand =
      false := by
    simp [htokens, ht]
  unfold parseLine
  rw [tokenize_printLine]
  show (if _ then _ else _) = _
  rw [if_neg hsome, hrun]
  show (do
    let a ← if a.Open then a.finishGroup false .always else if _ then _ else _
    if _ then _ else .ok a.groups) = _
  simp only [hlast]
  by_cases hopen : a.Open
  · rw [if_pos hopen] at hend ⊢
    rw [hend]
    rfl
  rw [if_neg hopen] at hend ⊢
  show Except.ok a.groups = _
  rw [hend]
  rfl

/-! ## The round trip -/

theorem expandCmd_protect (shell : Shell) (c : SimpleCmd) : expandCmd shell c.protect = c := by
  have hredir : ∀ r : Redir, { r.protect with target := r.protect.target.expand shell } = r := by
    rintro ⟨fd, kind, target⟩
    cases target <;> simp [Redir.protect, RedirTarget.protect, RedirTarget.expand]
  simp [expandCmd, SimpleCmd.protect, Function.comp_def, hredir]

theorem expandGroup_protect (shell : Shell) (g : CommandGroup) :
    expandGroup shell g.protect = g := by
  simp [expandGroup, CommandGroup.protect, Function.comp_def, expandCmd_protect]

/-- Whatever the variables of the shell are, a line printed with every argument and path in single
quotes is parsed and expanded to the groups that were printed. -/
theorem expand_parse_print (shell : Shell) (groups : List CommandGroup) (hne : groups ≠ [])
    (hcmd : ∀ g ∈ groups, g.pipeline ≠ [] ∧ ∀ c ∈ g.pipeline, c.args ≠ [])
    (hx : Expressible groups) :
    (parseLine (printLine groups)).map (·.map (expandGroup shell)) = .ok groups := by
  rw [parseLine_printLine hne hcmd hx]
  simp [Except.map, Function.comp_def, expandGroup_protect]

/-- Two groups whose words hold a marker, a quote, a dollar, a tilde and nothing at all. -/
def awkwardGroups : List CommandGroup :=
  [⟨[⟨["$HOME".toList, [protectedMark, quote]], [⟨2, .output, .fd 1⟩, ⟨7, .append, .path []⟩]⟩,
      ⟨[[]], []⟩], false, .and⟩,
    ⟨[⟨["~".toList], [⟨0, .input, .path " ;|".toList⟩]⟩], true, .always⟩]

theorem expand_parse_print_awkward :
    (parseLine (printLine awkwardGroups)).map (·.map (expandGroup {})) = .ok awkwardGroups := by
  apply expand_parse_print
  · decide
  · decide
  refine ⟨?_, ?_⟩
  · intro g hg
    simp only [awkwardGroups, mem_cons, not_mem_nil, or_false] at hg
    obtain rfl | rfl := hg <;> exact ⟨by simp [Redir.Expressible], by simp⟩
  · intro g hg
    obtain rfl := Option.some.inj hg
    rfl

end Felix.Apps
