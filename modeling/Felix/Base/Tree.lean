import Mathlib.Data.List.Basic
import Mathlib.Data.List.Infix

/-!
# Walks through a tree of names

A tree is given by a function `look` from a node and a name to the node under
that name.  `walk` follows a list of names from a node.

`Moves` says that an entry moved: in the new tree the old name leads to what is
`left` there, mostly nothing, and the new name leads to the node that moved.
`Moves.walk_eq` gives every walk in the new tree by one in the old tree.  It
needs that the two directories are reached on one way only and that the new
one is not below the entry.
-/

namespace Felix.Tree

open List

variable {ν κ : Type}

/-- Follow a list of names. -/
def walk (look : ν → κ → Option ν) (n : ν) (path : List κ) : Option ν := path.foldlM look n

section

variable {look : ν → κ → Option ν} {n : ν} {a b : List κ} {c : κ}

@[simp] theorem walk_nil : walk look n [] = some n := rfl

theorem walk_cons : walk look n (c :: a) = (look n c).bind fun m => walk look m a := by
  rfl

theorem walk_append : walk look n (a ++ b) = (walk look n a).bind fun m => walk look m b := by
  unfold walk
  rw [foldlM_append]
  rfl

theorem walk_concat : walk look n (a ++ [c]) = (walk look n a).bind fun m => look m c := by
  rw [walk_append]
  congr 1
  funext m
  rw [walk_cons]
  cases look m c with
  | none => rfl
  | some k => rfl

/-- A walk has no end when a part of it has none. -/
theorem walk_eq_none_of_prefix (hab : a <+: b) (ha : walk look n a = none) :
    walk look n b = none := by
  obtain ⟨s, rfl⟩ := hab
  rw [walk_append, ha, Option.bind_none]

end

/-! ## Moving an entry -/

variable [DecidableEq ν] [DecidableEq κ]

/-- The entry `oldName` of the node `op` moved to the entry `newName` of the
node `np`.  Only the walks over names with the property `P` count. -/
structure Moves (P : κ → Prop) (look look' : ν → κ → Option ν) (r : ν) (oldParent : List κ)
    (oldName : κ) (newParent : List κ) (newName : κ) (op np x : ν) (left : Option ν) :
    Prop where
  oldPlain : ∀ c ∈ oldParent ++ [oldName], P c
  newPlain : ∀ c ∈ newParent ++ [newName], P c
  walkOld : walk look r oldParent = some op
  walkNew : walk look r newParent = some np
  target : look op oldName = some x
  absent : look np newName = none
  oldOnly : ∀ p, (∀ c ∈ p, P c) → walk look r p = some op → p = oldParent
  newOnly : ∀ p, (∀ c ∈ p, P c) → walk look r p = some np → p = newParent
  notBelow : ¬ oldParent ++ [oldName] <+: newParent
  after : ∀ p n c, (∀ c ∈ p, P c) → walk look r p = some n → P c →
    look' n c = if n = op ∧ c = oldName then left
      else if n = np ∧ c = newName then some x else look n c

namespace Moves

variable {P : κ → Prop} {look look' : ν → κ → Option ν} {r : ν} {oldParent newParent q : List κ}
  {oldName newName : κ} {op np x : ν} {left : Option ν}
  (h : Moves P look look' r oldParent oldName newParent newName op np x left)
include h

theorem walk_target : walk look r (oldParent ++ [oldName]) = some x := by
  rw [walk_concat, h.walkOld]
  exact h.target

theorem walk_absent : walk look r (newParent ++ [newName]) = none := by
  rw [walk_concat, h.walkNew]
  exact h.absent

/-- Every walk that uses neither entry is the same in both trees. -/
theorem walk_other (hq : ∀ c ∈ q, P c) (hold : ¬ oldParent ++ [oldName] <+: q)
    (hnew : ¬ newParent ++ [newName] <+: q) : walk look' r q = walk look r q := by
  -- on the last name; the node before it tells which directory it is
  induction q using List.reverseRecOn with
  | nil => rfl
  | append_singleton q c ih =>
    have hplain : ∀ c ∈ q, P c := fun d hd => hq d (mem_append_left _ hd)
    rw [walk_concat, walk_concat, ih hplain
      (fun hpre => hold (hpre.trans (prefix_append _ _)))
      (fun hpre => hnew (hpre.trans (prefix_append _ _)))]
    cases hwalk : walk look r q with
    | none => rfl
    | some n =>
      show look' n c = look n c
      rw [h.after q n c hplain hwalk (hq c (mem_append_right _ (mem_singleton_self c))),
        if_neg, if_neg]
      · rintro ⟨rfl, rfl⟩
        rw [h.newOnly q hplain hwalk] at hnew
        exact hnew (prefix_refl _)
      rintro ⟨rfl, rfl⟩
      rw [h.oldOnly q hplain hwalk] at hold
      exact hold (prefix_refl _)

theorem not_new_prefix_old : ¬ newParent ++ [newName] <+: oldParent := by
  intro hpre
  have hnone := walk_eq_none_of_prefix hpre h.walk_absent
  rw [h.walkOld] at hnone
  cases hnone

theorem walk_toOld (hq : q <+: oldParent) : walk look' r q = walk look r q := by
  refine h.walk_other (fun c hc => ?_) (fun hpre => ?_) fun hpre => ?_
  · exact h.oldPlain c (mem_append_left _ (hq.subset hc))
  · have hlen := (hpre.trans hq).length_le
    rw [length_append, length_singleton] at hlen
    omega
  · exact h.not_new_prefix_old (hpre.trans hq)

/-- What is under the old name afterwards. -/
theorem walk_old : walk look' r (oldParent ++ [oldName]) = left := by
  have hplain : ∀ c ∈ oldParent, P c := fun d hd => h.oldPlain d (mem_append_left _ hd)
  rw [walk_concat, h.walk_toOld (prefix_refl _), h.walkOld]
  show look' op oldName = left
  rw [h.after oldParent op oldName hplain h.walkOld (h.oldPlain _
    (mem_append_right _ (mem_singleton_self _))), if_pos ⟨rfl, rfl⟩]

/-- The new name leads to the entry that moved. -/
theorem walk_new : walk look' r (newParent ++ [newName]) = some x := by
  have hplain : ∀ c ∈ newParent, P c := fun d hd => h.newPlain d (mem_append_left _ hd)
  rw [walk_concat, h.walk_other hplain h.notBelow (fun hpre => ?_), h.walkNew]
  · show look' np newName = some x
    rw [h.after newParent np newName hplain h.walkNew (h.newPlain _
      (mem_append_right _ (mem_singleton_self _))), if_neg, if_pos ⟨rfl, rfl⟩]
    rintro ⟨heq, hname⟩
    have habsent := h.absent
    rw [heq, hname, h.target] at habsent
    cases habsent
  · have hlen := hpre.length_le
    rw [length_append, length_singleton] at hlen
    omega

/-- Below the entry that moved nothing changed. -/
theorem walk_below {s : List κ} (hs : ∀ c ∈ s, P c) : walk look' x s = walk look x s := by
  induction s using List.reverseRecOn with
  | nil => rfl
  | append_singleton s c ih =>
    have hplain : ∀ c ∈ s, P c := fun d hd => hs d (mem_append_left _ hd)
    have hpath : ∀ c ∈ oldParent ++ [oldName] ++ s, P c := by
      intro d hd
      rcases mem_append.1 hd with hd | hd
      · exact h.oldPlain d hd
      · exact hplain d hd
    rw [walk_concat, walk_concat, ih hplain]
    cases hwalk : walk look x s with
    | none => rfl
    | some n =>
      have hfull : walk look r (oldParent ++ [oldName] ++ s) = some n := by
        rw [walk_append, h.walk_target]
        exact hwalk
      show look' n c = look n c
      rw [h.after _ n c hpath hfull (hs c (mem_append_right _ (mem_singleton_self c))),
        if_neg, if_neg]
      · rintro ⟨rfl, rfl⟩
        apply h.notBelow
        rw [← h.newOnly _ hpath hfull]
        exact prefix_append _ _
      rintro ⟨rfl, rfl⟩
      have hlen := congrArg List.length (h.oldOnly _ hpath hfull)
      rw [length_append, length_append, length_singleton] at hlen
      omega

/-- Every walk in the new tree, when nothing is left under the old name. -/
theorem walk_eq (hleft : left = none) (hq : ∀ c ∈ q, P c) : walk look' r q =
      if newParent ++ [newName] <+: q then
        walk look r (oldParent ++ [oldName] ++ q.drop (newParent ++ [newName]).length)
      else if oldParent ++ [oldName] <+: q then none
      else walk look r q := by
  by_cases hnew : newParent ++ [newName] <+: q
  · rw [if_pos hnew]
    obtain ⟨s, rfl⟩ := hnew
    rw [drop_left, walk_append, h.walk_new, walk_append, h.walk_target]
    exact h.walk_below fun c hc => hq c (mem_append_right _ hc)
  rw [if_neg hnew]
  by_cases hold : oldParent ++ [oldName] <+: q
  · rw [if_pos hold]
    refine walk_eq_none_of_prefix hold ?_
    rw [h.walk_old, hleft]
  · rw [if_neg hold]
    exact h.walk_other hq hold hnew

/-- Every node of the new tree is one of the old tree, reached over names that
count. -/
theorem reached (hleft : left = none) (hq : ∀ c ∈ q, P c) {n : ν}
    (hn : walk look' r q = some n) : ∃ p, (∀ c ∈ p, P c) ∧ walk look r p = some n := by
  rw [h.walk_eq hleft hq] at hn
  split at hn
  · refine ⟨_, fun c hc => ?_, hn⟩
    rcases mem_append.1 hc with hc | hc
    · exact h.oldPlain c hc
    · exact hq c (mem_of_mem_drop hc)
  split at hn
  · cases hn
  · exact ⟨q, hq, hn⟩

end Moves

end Felix.Tree
