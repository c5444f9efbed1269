import Felix.Vfs.PathCalls

/-!
# Normal paths

`normalize_path` runs the components of a path on a stack: `Stack.run` is that stack, with its top
in front.  No component of the result is skipped or pops another one, so a second pass pushes them
all and gives the same path.
-/

namespace Felix.Path

open List

variable {stack parts : List (List UInt8)} (p : List UInt8)

theorem splitOn_slash_cons (l : List UInt8) :
    (slash :: l).splitOn slash = [] :: l.splitOn slash := by
  rfl

namespace Stack

/-- One component: an empty one and a dot are skipped, and two dots pop. -/
def step (stack : List (List UInt8)) (part : List UInt8) : List (List UInt8) :=
  if part = [] ∨ part = Str.dot.bytes then stack
  else if part = Str.dotdot.bytes then stack.tail
  else part :: stack

def run (parts : List (List UInt8)) : List (List UInt8) := parts.foldl step []

/-- A component that is pushed, from a path that was split at its slashes. -/
structure Plain (part : List UInt8) : Prop where
  ne_nil : part ≠ []
  ne_dot : part ≠ Str.dot.bytes
  ne_dotdot : part ≠ Str.dotdot.bytes
  slash : slash ∉ part

theorem foldl_pushPart : parts.foldl pushPart stack.reverse = (parts.foldl step stack).reverse := by
  refine foldl_hom reverse fun stack part => ?_
  unfold pushPart step
  split
  · rfl
  split
  · exact dropLast_reverse
  · exact reverse_cons.symm

theorem plain_foldl (hparts : ∀ c ∈ parts, slash ∉ c) (hstack : ∀ c ∈ stack, Plain c) :
    ∀ c ∈ parts.foldl step stack, Plain c := by
  induction parts generalizing stack with
  | nil => exact hstack
  | cons part parts ih =>
    obtain ⟨hpart, hparts⟩ := forall_mem_cons.1 hparts
    refine ih hparts ?_
    unfold step
    split
    · exact hstack
    rename_i hkept
    obtain ⟨hnil, hdot⟩ := not_or.1 hkept
    split
    · exact fun c hc => hstack c (mem_of_mem_tail hc)
    · rename_i hdotdot
      exact forall_mem_cons.2 ⟨⟨hnil, hdot, hdotdot, hpart⟩, hstack⟩

theorem foldl_plain (h : ∀ c ∈ parts, Plain c) :
    parts.foldl step stack = parts.reverse ++ stack := by
  induction parts generalizing stack with
  | nil => rfl
  | cons part parts ih =>
    obtain ⟨hpart, hparts⟩ := forall_mem_cons.1 h
    rw [foldl_cons, step, if_neg (not_or.2 ⟨hpart.ne_nil, hpart.ne_dot⟩), if_neg hpart.ne_dotdot,
      ih hparts, reverse_cons, append_assoc]
    rfl

/-- The path of the components on the stack. -/
def path (stack : List (List UInt8)) : List UInt8 := slash :: [slash].intercalate stack.reverse

theorem split_rest (h : ∀ c ∈ stack, Plain c) (hne : stack ≠ []) :
    ([slash].intercalate stack.reverse).splitOn slash = stack.reverse :=
  splitOn_intercalate slash (fun c hc => (h c (mem_reverse.1 hc)).slash) (by simpa using hne)

theorem run_split_path (h : ∀ c ∈ stack, Plain c) : run ((path stack).splitOn slash) = stack := by
  rw [path, splitOn_slash_cons]
  by_cases hne : stack = []
  · rw [hne]
    rfl
  · rw [split_rest h hne]
    show foldl step [] stack.reverse = stack
    rw [foldl_plain fun c hc => h c (mem_reverse.1 hc), reverse_reverse, append_nil]

end Stack

theorem normalizePath_eq : normalizePath p = Stack.path (Stack.run (p.splitOn slash)) := by
  rw [normalizePath, Stack.path, Stack.run, ← Stack.foldl_pushPart]
  split
  · rename_i hnil
    rw [reverse_nil, hnil]
    rfl
  · rfl

theorem plain_run : ∀ c ∈ Stack.run (p.splitOn slash), Stack.Plain c :=
  Stack.plain_foldl (fun _ hc => (Str.of_mem_splitOn hc).1) fun _ hc => (nomatch hc)

/-- An absolute path whose components are all pushed. -/
def Normal (p : List UInt8) : Prop :=
  p = [slash] ∨ p.getLast? ≠ some slash ∧ ∃ rest, p = slash :: rest ∧
    ∀ c ∈ rest.splitOn slash, c ≠ [] ∧ c ≠ Str.dot.bytes ∧ c ≠ Str.dotdot.bytes

-- A slash at the end leaves an empty component.
theorem getLast_ne_slash {rest : List UInt8} (h : [] ∉ rest.splitOn slash) :
    (slash :: rest).getLast? ≠ some slash := by
  intro hlast
  refine h ?_
  obtain rfl | ⟨front, last, rfl⟩ := eq_nil_or_concat' rest
  · exact mem_cons_self
  · rw [← cons_append, getLast?_concat, Option.some_inj] at hlast
    rw [hlast, splitOn_append_cons_self]
    exact mem_append_right _ mem_cons_self

theorem Stack.normal_path (h : ∀ c ∈ stack, Stack.Plain c) : Normal (Stack.path stack) := by
  by_cases hnil : stack = []
  · subst hnil
    exact .inl rfl
  have hplain : ∀ c ∈ ([slash].intercalate stack.reverse).splitOn slash, Stack.Plain c := by
    rw [Stack.split_rest h hnil]
    exact fun c hc => h c (mem_reverse.1 hc)
  exact .inr ⟨getLast_ne_slash fun hmem => (hplain [] hmem).ne_nil rfl, _, rfl,
    fun c hc => ⟨(hplain c hc).ne_nil, (hplain c hc).ne_dot, (hplain c hc).ne_dotdot⟩⟩

theorem normal_normalizePath : Normal (normalizePath p) := by
  rw [normalizePath_eq]
  exact Stack.normal_path (plain_run p)

theorem normalizePath_slash_slash :
    normalizePath (slash :: slash :: p) = normalizePath (slash :: p) := by
  rfl

/-- The path is the one left on the stack, it is normal and stays as it is, and a task's path is
that of its directory with the given one after it, unless the given one starts at the root. -/
theorem normalizePath_runs_stack (p : List UInt8) (cwd : Option (List UInt8)) :
    normalizePath p = Stack.path (Stack.run (p.splitOn slash)) ∧
      Normal (normalizePath p) ∧ normalizePath (normalizePath p) = normalizePath p ∧
      resolveTaskPath cwd p = if p.head? = some slash then normalizePath p
        else normalizePath (cwd.getD [slash] ++ slash :: p) := by
  refine ⟨normalizePath_eq p, normal_normalizePath p, ?_, ?_⟩
  · rw [normalizePath_eq p, normalizePath_eq, Stack.run_split_path (plain_run p)]
  · unfold resolveTaskPath
    split
    · rfl
    -- The root is joined without a second slash.
    dsimp only
    split
    · rename_i hroot
      rw [hroot]
      exact (normalizePath_slash_slash p).symm
    · rfl

end Felix.Path
