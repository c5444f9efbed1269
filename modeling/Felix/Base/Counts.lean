import Mathlib.Data.List.Nodup
import Mathlib.Data.List.Perm.Basic
import Felix.Base.Fault

/-!
# Reference counts in a vector

A vector of keys with a count each, as systems code keeps it: a key is looked up
from the front, a new key goes to the end, and a key whose count falls to zero is
removed by moving the last entry to its place.  No key occurs twice and every
count is positive; both are part of the type.

`count` is the function that the vector stands for.  `inc_eq` and `dec_eq` say
what the two operations do to it, and the order of the entries plays no role
beyond this module.
-/

namespace Felix

open List

def swapRemove {α : Type} (l : List α) (i : Nat) : List α :=
  match l.getLast? with
  | none => l
  | some x => (l.set i x).dropLast

theorem swapRemove_perm {α : Type} {l : List α} {i : Nat} (hi : i < l.length) :
    (swapRemove l i).Perm (l.eraseIdx i) := by
  rcases eq_nil_or_concat l with rfl | ⟨init, x, rfl⟩
  · exact absurd hi (Nat.not_lt_zero i)
  rw [concat_eq_append] at hi ⊢
  unfold swapRemove
  rw [getLast?_concat]
  rw [length_append, length_singleton] at hi
  show ((init ++ [x]).set i x).dropLast.Perm _
  rcases Nat.lt_or_eq_of_le (Nat.le_of_lt_succ hi) with hlt | rfl
  · rw [set_append_left _ _ hlt, dropLast_concat, eraseIdx_append_of_lt_length hlt]
    exact (set_perm_cons_eraseIdx hlt x).trans (perm_append_singleton x _).symm
  · rw [eraseIdx_append_of_length_le (Nat.le_refl _)]
    simp

/-- Keys with a positive count each. -/
structure Counts (κ : Type) where
  entries : List (κ × Nat)
  distinct : (entries.map Prod.fst).Nodup
  positive : ∀ e ∈ entries, 0 < e.2

variable {κ : Type} {r : Counts κ}

/-- The place of a key and the entries without it. -/
structure Counts.At (r : Counts κ) (k : κ) (i c : Nat) : Prop where
  lt : i < r.entries.length
  perm : r.entries.Perm ((k, c) :: r.entries.eraseIdx i)

namespace Counts.At

variable {k : κ} {i c : Nat} (h : At r k i c)
include h

theorem nodup : (k :: (r.entries.eraseIdx i).map Prod.fst).Nodup :=
  (h.perm.map Prod.fst).nodup_iff.1 r.distinct

theorem pos : 0 < c := r.positive (k, c) (h.perm.mem_iff.2 mem_cons_self)

theorem set_perm (c' : Nat) : (r.entries.set i (k, c')).Perm ((k, c') :: r.entries.eraseIdx i) :=
  set_perm_cons_eraseIdx h.lt _

end Counts.At

variable [DecidableEq κ] {l : List (κ × Nat)} {k : κ}

/-- The count of a key in a vector. -/
def countIn : List (κ × Nat) → κ → Nat
  | [], _ => 0
  | (k, c) :: rest, k' => if k = k' then c else countIn rest k'

theorem countIn_eq_zero (h : k ∉ l.map Prod.fst) : countIn l k = 0 := by
  induction l with
  | nil => rfl
  | cons e rest ih =>
    rw [map_cons, mem_cons, not_or] at h
    rw [countIn, if_neg fun heq => h.1 heq.symm, ih h.2]

theorem countIn_eq_of_mem (hnodup : (l.map Prod.fst).Nodup) {c : Nat}
    (h : (k, c) ∈ l) : countIn l k = c := by
  induction l with
  | nil => exact absurd h not_mem_nil
  | cons e rest ih =>
    obtain ⟨hnew, hrest⟩ := nodup_cons.1 hnodup
    rcases mem_cons.1 h with rfl | hmem
    · exact if_pos rfl
    have hne : e.1 ≠ k := by
      rintro rfl
      exact hnew (mem_map.2 ⟨_, hmem, rfl⟩)
    rw [countIn, if_neg hne, ih hrest hmem]

theorem countIn_perm {l' : List (κ × Nat)} (h : l.Perm l') (hnodup : (l.map Prod.fst).Nodup)
    (k : κ) : countIn l k = countIn l' k := by
  have hnodup' : (l'.map Prod.fst).Nodup := (h.map Prod.fst).nodup_iff.1 hnodup
  by_cases hk : k ∈ l.map Prod.fst
  · obtain ⟨⟨k', c⟩, hmem, rfl⟩ := mem_map.1 hk
    rw [countIn_eq_of_mem hnodup hmem, countIn_eq_of_mem hnodup' (h.mem_iff.1 hmem)]
  · have hk' : k ∉ l'.map Prod.fst := fun hmem => hk ((h.map Prod.fst).mem_iff.2 hmem)
    rw [countIn_eq_zero hk, countIn_eq_zero hk']

namespace Counts

/-- No key has a count. -/
def empty : Counts κ := ⟨[], nodup_nil, fun _ h => absurd h not_mem_nil⟩

/-- The count of a key. -/
def count (r : Counts κ) (k : κ) : Nat := countIn r.entries k

/-- Where a key is found. -/
def index (r : Counts κ) (k : κ) : Option (Nat × Nat) :=
  match r.entries.findIdx? (·.1 = k) with
  | none => none
  | some i => some (i, (r.entries[i]?.map Prod.snd).getD 0)

variable {k : κ}

theorem index_none (h : r.index k = none) : k ∉ r.entries.map Prod.fst := by
  unfold index at h
  cases hidx : r.entries.findIdx? (·.1 = k) with
  | some i =>
    rw [hidx] at h
    cases h
  | none =>
    rw [findIdx?_eq_none_iff] at hidx
    rintro hmem
    obtain ⟨e, he, rfl⟩ := mem_map.1 hmem
    exact absurd (hidx e he) (by simp)

variable {i c : Nat}

theorem index_some (h : r.index k = some (i, c)) : At r k i c := by
  unfold index at h
  cases hidx : r.entries.findIdx? (·.1 = k) with
  | none =>
    rw [hidx] at h
    cases h
  | some j =>
    rw [hidx] at h
    obtain ⟨hlt, hkey, _⟩ := findIdx?_eq_some_iff_getElem.1 hidx
    simp only [getElem?_eq_getElem hlt, Option.map_some, Option.getD_some, Option.some.injEq,
      Prod.mk.injEq] at h
    obtain ⟨rfl, rfl⟩ := h
    refine ⟨hlt, ?_⟩
    have hget : r.entries[j] = (k, r.entries[j].2) := by
      rw [← of_decide_eq_true hkey]
    rw [← hget]
    exact (getElem_cons_eraseIdx_perm hlt).symm

theorem At.count_eq (h : At r k i c) (k' : κ) :
    r.count k' = if k = k' then c else countIn (r.entries.eraseIdx i) k' :=
  countIn_perm h.perm r.distinct k'

theorem At.count_self (h : At r k i c) : r.count k = c :=
  (h.count_eq k).trans (if_pos rfl)

/-- A key is set to another count. -/
def set (r : Counts κ) {k : κ} {i c : Nat} (h : At r k i c) (c' : Nat) (hc : 0 < c') :
    Counts κ where
  entries := r.entries.set i (k, c')
  distinct := ((h.set_perm c').map Prod.fst).nodup_iff.2 h.nodup
  positive := by
    intro e he
    rcases mem_cons.1 ((h.set_perm c').mem_iff.1 he) with rfl | hmem
    · exact hc
    · exact r.positive e (mem_of_mem_eraseIdx hmem)

theorem count_set (h : At r k i c) {c' : Nat} (hc : 0 < c') (k' : κ) :
    (r.set h c' hc).count k' = if k = k' then c' else r.count k' := by
  refine (countIn_perm (h.set_perm c') (r.set h c' hc).distinct k').trans ?_
  rw [countIn]
  by_cases hk : k = k'
  · rw [if_pos hk, if_pos hk]
  · rw [if_neg hk, if_neg hk, h.count_eq, if_neg hk]

/-- A key is removed. -/
def remove (r : Counts κ) {k : κ} {i c : Nat} (h : At r k i c) : Counts κ where
  entries := swapRemove r.entries i
  distinct := ((swapRemove_perm h.lt).map Prod.fst).nodup_iff.2 (nodup_cons.1 h.nodup).2
  positive := fun e he =>
    r.positive e (mem_of_mem_eraseIdx ((swapRemove_perm h.lt).mem_iff.1 he))

theorem count_remove (h : At r k i c) (k' : κ) :
    (r.remove h).count k' = if k = k' then 0 else r.count k' := by
  refine (countIn_perm (swapRemove_perm h.lt) (r.remove h).distinct k').trans ?_
  by_cases hk : k = k'
  · rw [if_pos hk, ← hk, countIn_eq_zero (nodup_cons.1 h.nodup).1]
  · rw [if_neg hk, h.count_eq, if_neg hk]

/-- A new key comes to the end. -/
def push (r : Counts κ) (k : κ) (h : k ∉ r.entries.map Prod.fst) : Counts κ where
  entries := r.entries ++ [(k, 1)]
  distinct := by
    rw [map_append]
    exact List.Nodup.append r.distinct (nodup_singleton k)
      (disjoint_singleton.2 h)
  positive := by
    intro e he
    rcases mem_append.1 he with hmem | hmem
    · exact r.positive e hmem
    · rw [mem_singleton.1 hmem]
      exact Nat.one_pos

theorem count_push (h : k ∉ r.entries.map Prod.fst) (k' : κ) :
    (r.push k h).count k' = if k = k' then 1 else r.count k' :=
  countIn_perm (perm_append_singleton (k, 1) r.entries) (r.push k h).distinct k'

/-- `inc`: true if the key is new. -/
def inc (r : Counts κ) (k : κ) : Res (Bool × Counts κ) :=
  match h : r.index k with
  | some (_, c) =>
    if c + 1 < 2 ^ 32 then .ok (false, r.set (index_some h) (c + 1) (Nat.succ_pos c))
    else .error .overflow
  | none => .ok (true, r.push k (index_none h))

/-- `dec`: true if the key was removed. -/
def dec (r : Counts κ) (k : κ) : Bool × Counts κ :=
  match h : r.index k with
  | some (_, c) =>
    if hc : 0 < c - 1 then (false, r.set (index_some h) (c - 1) hc)
    else (true, r.remove (index_some h))
  | none => (false, r)

theorem inc_eq (r : Counts κ) (k : κ) : (r.inc k = .error .overflow ∧ 2 ^ 32 ≤ r.count k + 1) ∨
      ∃ r', r.inc k = .ok (decide (r.count k = 0), r') ∧
        ∀ k', r'.count k' = if k = k' then r.count k + 1 else r.count k' := by
  unfold inc
  split
  · rename_i i c h
    have hat := index_some h
    have hself := hat.count_self
    have hpos := hat.pos
    have hnew : decide (r.count k = 0) = false := decide_eq_false (by omega)
    rw [hnew]
    split
    · exact .inr ⟨r.set hat (c + 1) (Nat.succ_pos c), rfl, fun k' => by rw [hself, count_set]⟩
    · exact .inl ⟨rfl, by omega⟩
  · rename_i h
    have hnone := index_none h
    have hzero : r.count k = 0 := countIn_eq_zero hnone
    rw [hzero]
    exact .inr ⟨r.push k hnone, rfl, count_push hnone⟩

theorem dec_eq (r : Counts κ) (k : κ) : (r.dec k).1 = decide (r.count k = 1) ∧
      ∀ k', (r.dec k).2.count k' = if k = k' then r.count k - 1 else r.count k' := by
  unfold dec
  split
  · rename_i i c h
    have hat := index_some h
    have hself := hat.count_self
    have hpos := hat.pos
    split
    · rename_i hc
      refine ⟨(decide_eq_false (by omega)).symm, fun k' => ?_⟩
      exact (count_set hat hc k').trans (by rw [hself])
    · refine ⟨(decide_eq_true (by omega)).symm, fun k' => ?_⟩
      exact (count_remove hat k').trans (by rw [show r.count k - 1 = 0 by omega])
  · rename_i h
    have hzero : r.count k = 0 := countIn_eq_zero (index_none h)
    rw [hzero]
    refine ⟨rfl, fun k' => ?_⟩
    by_cases hk : k = k'
    · rw [if_pos hk, ← hk, hzero]
    · rw [if_neg hk]

end Counts

end Felix
