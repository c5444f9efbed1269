import Mathlib.Data.List.DropRight
import Mathlib.Data.Nat.Digits.Defs
import Felix.Base.Bytes

/-!
# UTF-8 strings and slash-separated paths

`Str` is a byte string that is valid UTF-8, which is what a `&str` promises.
`validUtf8` runs the machine of the encoding over the bytes.  A slash is a
character of its own, so cutting a string at slashes gives strings again:
`validUtf8_append_slash` is the fact about the encoding that this needs.

`components` are the non-empty pieces between the slashes.  `trimEnd`,
`splitLast` and `stripSlash` are the operations by which a path is taken apart;
`components_trimEnd` and `components_append` say what they do to the components.
-/

namespace Felix

open List

/-! ## The encoding -/

/-- Where a decoder stands between two bytes. -/
inductive Utf8 where
  | start
  | one
  | two
  | three
  | afterE0
  | afterED
  | afterF0
  | afterF4
  deriving DecidableEq

namespace Utf8

def within (lo hi b : UInt8) (next : Utf8) : Option Utf8 :=
  if lo ≤ b ∧ b ≤ hi then some next else none

/-- The first byte of a character. -/
def first (b : UInt8) : Option Utf8 :=
  if b < 0x80 then some .start
  else if 0xC2 ≤ b ∧ b ≤ 0xDF then some .one
  else if b = 0xE0 then some .afterE0
  else if b = 0xED then some .afterED
  else if 0xE1 ≤ b ∧ b ≤ 0xEF then some .two
  else if b = 0xF0 then some .afterF0
  else if 0xF1 ≤ b ∧ b ≤ 0xF3 then some .three
  else if b = 0xF4 then some .afterF4
  else none

def step : Utf8 → UInt8 → Option Utf8
  | .start, b => first b
  | .one, b => within 0x80 0xBF b .start
  | .two, b => within 0x80 0xBF b .one
  | .three, b => within 0x80 0xBF b .two
  | .afterE0, b => within 0xA0 0xBF b .one
  | .afterED, b => within 0x80 0x9F b .one
  | .afterF0, b => within 0x90 0xBF b .two
  | .afterF4, b => within 0x80 0x8F b .two

def run (q : Utf8) (l : List UInt8) : Option Utf8 := l.foldlM step q

end Utf8

/-- The byte string is valid UTF-8. -/
def validUtf8 (l : List UInt8) : Bool := decide (Utf8.run .start l = some .start)

/-- `b'/'`. -/
def slash : UInt8 := 47

/-- A slash never stands inside a character. -/
theorem Utf8.step_slash (q : Utf8) : q.step slash = if q = .start then some .start else none := by
  cases q <;> decide

theorem validUtf8_iff (l : List UInt8) :
    validUtf8 l = true ↔ List.foldlM Utf8.step .start l = some .start :=
  decide_eq_true_iff

theorem validUtf8_append_slash (a b : List UInt8) :
    validUtf8 (a ++ slash :: b) = true ↔ validUtf8 a = true ∧ validUtf8 b = true := by
  rw [validUtf8_iff, validUtf8_iff, validUtf8_iff, foldlM_append]
  rcases List.foldlM Utf8.step .start a with _ | q
  · simp
  change List.foldlM Utf8.step q (slash :: b) = _ ↔ _
  rw [foldlM_cons, Utf8.step_slash]
  by_cases hq : q = .start
  · subst hq
    simp
  · simp [hq]

theorem validUtf8_of_ascii {l : List UInt8} (h : ∀ b ∈ l, b < 0x80) : validUtf8 l = true := by
  rw [validUtf8_iff]
  induction l with
  | nil => rfl
  | cons b l ih =>
    have hb : Utf8.step .start b = some .start := if_pos (h b mem_cons_self)
    rw [foldlM_cons, hb]
    exact ih fun c hc => h c (mem_cons_of_mem b hc)

/-! ## Strings -/

/-- A byte string that is valid UTF-8. -/
@[ext] structure Str where
  bytes : List UInt8
  valid : validUtf8 bytes = true
  deriving DecidableEq

namespace Str

/-- `""`. -/
def empty : Str := ⟨[], rfl⟩

/-- `"/"`. -/
def root : Str := ⟨[slash], by decide⟩

/-- `"."`. -/
def dot : Str := ⟨[46], by decide⟩

/-- `".."`. -/
def dotdot : Str := ⟨[46, 46], by decide⟩

/-- The decimal digits of a number, as `{}` writes it. -/
def decimal (n : Nat) : Str where
  bytes := if n = 0 then [48] else (Nat.digits 10 n).reverse.map fun d => UInt8.ofNat (48 + d)
  valid := by
    refine validUtf8_of_ascii fun b hb => ?_
    split at hb
    · rw [mem_singleton.1 hb]
      decide
    obtain ⟨d, hd, rfl⟩ := mem_map.1 hb
    have hlt : d < 10 := Nat.digits_lt_base (by decide) (mem_reverse.1 hd)
    show (UInt8.ofNat (48 + d)).toNat < 128
    rw [UInt8.toNat_ofNat']
    omega

/-- `format!("{}/{}", a, b)`. -/
def join (a b : Str) : Str where
  bytes := a.bytes ++ slash :: b.bytes
  valid := (validUtf8_append_slash _ _).2 ⟨a.valid, b.valid⟩

def fromUtf8 (l : List UInt8) : Option Str :=
  if h : validUtf8 l = true then some ⟨l, h⟩ else none

@[simp] theorem fromUtf8_bytes (s : Str) : fromUtf8 s.bytes = some s := dif_pos s.valid

variable {l p : List UInt8} {name path parent : Str}

/-- `from_utf8(l).unwrap_or("") == name` compares the bytes. -/
theorem fromUtf8_getD_eq (hname : name ≠ empty) :
    (fromUtf8 l).getD empty = name ↔ l = name.bytes := by
  unfold fromUtf8
  by_cases h : validUtf8 l = true
  · rw [dif_pos h, Option.getD_some, Str.ext_iff]
  rw [dif_neg h]
  refine ⟨fun heq => absurd heq.symm hname, fun heq => ?_⟩
  rw [heq, name.valid] at h
  exact absurd rfl h

/-! ## Paths -/

/-- A piece of `split('/')` has no slash, and is a string if the whole is one. -/
theorem of_mem_splitOn (hp : p ∈ l.splitOn slash) :
    slash ∉ p ∧ (validUtf8 l = true → validUtf8 p = true) := by
  -- the first piece ends at the first slash, and the rest is a shorter list
  induction hn : l.length using Nat.strong_induction_on generalizing l with
  | _ n ih =>
    by_cases hmem : slash ∈ l
    · obtain ⟨a, b, rfl⟩ := append_of_mem hmem
      rw [length_append, length_cons] at hn
      rw [splitOn_append_cons_self, mem_append] at hp
      rw [validUtf8_append_slash]
      rcases hp with hp | hp
      · obtain ⟨hslash, hvalid⟩ := ih a.length (by omega) hp rfl
        exact ⟨hslash, fun h => hvalid h.1⟩
      · obtain ⟨hslash, hvalid⟩ := ih b.length (by omega) hp rfl
        exact ⟨hslash, fun h => hvalid h.2⟩
    · rw [splitOn_eq_singleton hmem, mem_singleton] at hp
      rw [hp]
      exact ⟨hmem, id⟩

/-- The pieces of `split('/')` that are not empty, as byte strings. -/
def pieces (l : List UInt8) : List (List UInt8) :=
  (l.splitOn slash).filter fun p => p ≠ []

theorem valid_of_mem_pieces (h : validUtf8 l = true) : ∀ p ∈ pieces l, validUtf8 p = true := by
  intro p hp
  exact (of_mem_splitOn (mem_of_mem_filter hp)).2 h

/-- `path.split('/').filter(|s| !s.is_empty())`. -/
def components (path : Str) : List Str :=
  (pieces path.bytes).pmap Str.mk (valid_of_mem_pieces path.valid)

theorem map_bytes_components (path : Str) :
    (components path).map Str.bytes = pieces path.bytes := by
  rw [components, map_pmap]
  simp

theorem pieces_append_slash (a b : List UInt8) :
    pieces (a ++ slash :: b) = pieces a ++ pieces b := by
  rw [pieces, splitOn_append_cons_self, filter_append, pieces, pieces]

theorem pieces_of_not_mem (h : slash ∉ l) : pieces l = if l = [] then [] else [l] := by
  rw [pieces, splitOn_eq_singleton h]
  by_cases hl : l = []
  · simp [hl]
  · simp [hl]

/-- A component is not empty and holds no slash. -/
theorem mem_components {c : Str} (h : c ∈ components path) : c ≠ empty ∧ slash ∉ c.bytes := by
  have hmem : c.bytes ∈ pieces path.bytes := by
    rw [← map_bytes_components]
    exact mem_map_of_mem h
  rw [pieces, mem_filter] at hmem
  refine ⟨?_, (of_mem_splitOn hmem.1).1⟩
  intro heq
  rw [heq] at hmem
  simp [empty] at hmem

theorem map_bytes_inj {a b : List Str} (h : a.map Str.bytes = b.map Str.bytes) : a = b :=
  map_injective_iff.2 (fun _ _ hxy => Str.ext hxy) h

/-- `trim_end_matches('/')`. -/
def trimEnd (path : Str) : Str where
  bytes := path.bytes.rdropWhile (· = slash)
  valid := by
    have h := path.valid
    generalize path.bytes = l at h
    induction l using List.reverseRecOn with
    | nil => rfl
    | append_singleton l b ih =>
      rw [rdropWhile_concat]
      split
      · rename_i hb
        rw [of_decide_eq_true hb] at h
        exact ih ((validUtf8_append_slash _ _).1 h).1
      · exact h

theorem components_trimEnd (path : Str) : components (trimEnd path) = components path := by
  refine map_bytes_inj ?_
  rw [map_bytes_components, map_bytes_components]
  change pieces (path.bytes.rdropWhile (· = slash)) = pieces path.bytes
  induction path.bytes using List.reverseRecOn with
  | nil => rfl
  | append_singleton l b ih =>
    rw [rdropWhile_concat]
    split
    · rename_i hb
      rw [of_decide_eq_true hb, ih, pieces_append_slash]
      simp [pieces]
    · rfl

/-- The bytes before the last slash and the bytes behind it. -/
def cutLast : List UInt8 → Option (List UInt8 × List UInt8)
  | [] => none
  | b :: l =>
    match cutLast l with
    | some (p, q) => some (b :: p, q)
    | none => if b = slash then some ([], l) else none

theorem cutLast_eq_none : cutLast l = none ↔ slash ∉ l := by
  induction l with
  | nil => simp [cutLast]
  | cons b l ih =>
    rw [cutLast]
    rcases hcut : cutLast l with _ | ⟨p, q⟩
    · have hl := ih.1 hcut
      by_cases hb : b = slash
      · simp [hb]
      · simp [hb, hl, Ne.symm hb]
    have hl : slash ∈ l := by
      by_contra hnot
      rw [ih.2 hnot] at hcut
      cases hcut
    simp [hl]

theorem cutLast_eq_some {q : List UInt8} (h : cutLast l = some (p, q)) :
    l = p ++ slash :: q ∧ slash ∉ q := by
  induction l generalizing p with
  | nil => cases h
  | cons b l ih =>
    rw [cutLast] at h
    rcases hcut : cutLast l with _ | ⟨p', q'⟩
    · simp only [hcut] at h
      split at h
      · rename_i hb
        cases h
        exact ⟨by rw [hb, nil_append], cutLast_eq_none.1 hcut⟩
      · cases h
    simp only [hcut] at h
    cases h
    obtain ⟨hl, hq⟩ := ih hcut
    exact ⟨by rw [hl, cons_append], hq⟩

theorem valid_cutLast (h : validUtf8 l = true) :
    ∀ c ∈ cutLast l, validUtf8 c.1 = true ∧ validUtf8 c.2 = true := by
  intro c hc
  obtain ⟨hl, _⟩ := cutLast_eq_some (show cutLast l = some (c.1, c.2) from hc)
  rw [hl] at h
  exact (validUtf8_append_slash _ _).1 h

/-- `rfind('/')` and the two slices around the slash that it finds. -/
def splitLast (path : Str) : Option (Str × Str) :=
  (cutLast path.bytes).pmap (fun c h => (⟨c.1, h.1⟩, ⟨c.2, h.2⟩)) (valid_cutLast path.valid)

theorem splitLast_eq_none : splitLast path = none ↔ slash ∉ path.bytes := by
  rw [splitLast, Option.pmap_eq_none_iff, cutLast_eq_none]

theorem splitLast_eq_some (h : splitLast path = some (parent, name)) :
    path.bytes = parent.bytes ++ slash :: name.bytes ∧ slash ∉ name.bytes := by
  rw [splitLast, Option.pmap_eq_some_iff] at h
  obtain ⟨⟨p, q⟩, hpq, hcut, heq⟩ := h
  cases heq
  exact cutLast_eq_some hcut

theorem components_append (h : path.bytes = parent.bytes ++ slash :: name.bytes) :
    components path = components parent ++ components name := by
  refine map_bytes_inj ?_
  rw [map_append, map_bytes_components, map_bytes_components, map_bytes_components, h,
    pieces_append_slash]

theorem components_of_not_mem (h : slash ∉ name.bytes) :
    components name = if name = empty then [] else [name] := by
  refine map_bytes_inj ?_
  rw [map_bytes_components, pieces_of_not_mem h]
  by_cases hname : name = empty
  · have hbytes : name.bytes = [] := congrArg Str.bytes hname
    rw [if_pos hname, if_pos hbytes]
    rfl
  have hbytes : name.bytes ≠ [] := fun hnil => hname (Str.ext hnil)
  rw [if_neg hname, if_neg hbytes]
  rfl

@[simp] theorem components_empty : components empty = [] := rfl

@[simp] theorem components_root : components root = [] := by
  rw [@components_append empty root empty rfl, components_empty]
  rfl

/-- A trimmed path begins like the path. -/
theorem trimEnd_prefix (path : Str) : (trimEnd path).bytes <+: path.bytes :=
  rdropWhile_prefix _ _

/-- `strip_prefix('/')`. -/
def stripSlash : Str → Option Str
  | ⟨[], _⟩ => none
  | ⟨b :: rest, h⟩ =>
    if hb : b = slash then
      some ⟨rest, ((validUtf8_append_slash [] rest).1 (by rw [← hb]; exact h)).2⟩
    else none

theorem stripSlash_eq_some (h : stripSlash path = some name) :
    path.bytes = slash :: name.bytes := by
  obtain ⟨bytes, hvalid⟩ := path
  cases bytes with
  | nil => cases h
  | cons b rest =>
    rw [stripSlash] at h
    split at h
    · rename_i hb
      cases h
      exact congrArg (· :: rest) hb
    · cases h

end Str

end Felix
