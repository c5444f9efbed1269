import Mathlib.Data.List.Basic

/-!
# Lists of named entries

A list of names with a number each, where the number zero marks an entry that
was removed but keeps its place.  `lookup` is the first entry of a name that is
not removed, and `assign` gives the first entry of a name, removed or not, a
number.

To assign zero makes a name absent exactly when no entry of that name is live
behind the first one, which is `lookup_assign_zero`.  `Unshadowed` is that
condition.
-/

namespace Felix.Names

open List

variable {κ : Type} [DecidableEq κ]

/-- The number of the first live entry of a name. -/
def lookup (l : List (κ × Nat)) (k : κ) : Option Nat :=
  (l.find? fun e => e.1 = k ∧ e.2 ≠ 0).map Prod.snd

/-- Give the first entry of a name the number `x`. -/
def assign (k : κ) (x : Nat) : List (κ × Nat) → List (κ × Nat)
  | [] => []
  | e :: l => if e.1 = k then (e.1, x) :: l else e :: assign k x l

/-- No entry of the name is live behind the first one. -/
def Unshadowed (k : κ) : List (κ × Nat) → Prop
  | [] => True
  | e :: l => if e.1 = k then lookup l k = none else Unshadowed k l

instance decidableUnshadowed (k : κ) : (l : List (κ × Nat)) → Decidable (Unshadowed k l)
  | [] => isTrue trivial
  | e :: l =>
    have := decidableUnshadowed k l
    inferInstanceAs (Decidable (if e.1 = k then lookup l k = none else Unshadowed k l))

variable {k k' : κ} {x : Nat} {l l' : List (κ × Nat)}

@[simp] theorem lookup_nil : lookup [] k = none := rfl

theorem lookup_cons (e : κ × Nat) :
    lookup (e :: l) k = if e.1 = k ∧ e.2 ≠ 0 then some e.2 else lookup l k := by
  unfold lookup
  by_cases h : e.1 = k ∧ e.2 ≠ 0
  · simp [h]
  · simp [h]

theorem lookup_append : lookup (l ++ l') k = (lookup l k).or (lookup l' k) := by
  unfold lookup
  rw [find?_append, Option.map_or]

theorem mem_of_lookup {n : Nat} (h : lookup l k = some n) : (k, n) ∈ l ∧ n ≠ 0 := by
  obtain ⟨e, hfind, rfl⟩ := Option.map_eq_some_iff.1 h
  have hsome := find?_some hfind
  obtain ⟨rfl, hn⟩ := of_decide_eq_true hsome
  exact ⟨mem_of_find?_eq_some hfind, hn⟩

theorem assign_append_left (h : k ∈ l.map Prod.fst) :
    assign k x (l ++ l') = assign k x l ++ l' := by
  induction l with
  | nil => cases h
  | cons e l ih =>
    rw [cons_append, assign, assign]
    by_cases he : e.1 = k
    · rw [if_pos he, if_pos he, cons_append]
    · rw [map_cons, mem_cons] at h
      rw [if_neg he, if_neg he, ih (h.resolve_left (Ne.symm he)), cons_append]

theorem assign_append_right (h : k ∉ l.map Prod.fst) :
    assign k x (l ++ l') = l ++ assign k x l' := by
  induction l with
  | nil => rfl
  | cons e l ih =>
    rw [map_cons, mem_cons, not_or] at h
    rw [cons_append, assign, if_neg (Ne.symm h.1), ih h.2, cons_append]

theorem lookup_assign_ne (hne : k' ≠ k) : lookup (assign k x l) k' = lookup l k' := by
  induction l with
  | nil => rfl
  | cons e l ih =>
    rw [assign]
    split
    · rename_i he
      have hother : ¬ e.1 = k' := fun heq => hne (heq.symm.trans he)
      rw [lookup_cons, lookup_cons, if_neg (fun hk => hother hk.1), if_neg (fun hk => hother hk.1)]
    · rw [lookup_cons, lookup_cons, ih]

theorem unshadowed_of_not_mem (h : k ∉ l.map Prod.fst) : Unshadowed k l := by
  induction l with
  | nil => trivial
  | cons e l ih =>
    rw [map_cons, mem_cons, not_or] at h
    rw [Unshadowed, if_neg (Ne.symm h.1)]
    exact ih h.2

/-- A removal makes a name absent exactly when nothing live is behind it. -/
theorem lookup_assign_zero : lookup (assign k 0 l) k = none ↔ Unshadowed k l := by
  induction l with
  | nil => simp [assign, Unshadowed]
  | cons e l ih =>
    rw [assign, Unshadowed]
    split
    · rw [lookup_cons, if_neg (by simp)]
    · rename_i he
      rw [lookup_cons, if_neg (by simp [he]), ih]

end Felix.Names
