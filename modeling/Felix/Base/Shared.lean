import Mathlib.Data.Finset.Option
import Mathlib.Data.Fintype.Basic
import Mathlib.Data.Fintype.Prod

/-!
# Slots that share objects

A finite set of slots, each empty or referring to an object: `f : κ → Option ι`.
`uses` is how many slots refer to an object, which is what a reference count keeps,
and `held` are the objects that some slot refers to.  `owned` counts the held objects
of one kind.

Slots change one at a time.  `uses_put` and `uses_clear` say what that does to the
counts, and `owned_put` and `owned_clear` what it does to the objects of a kind: the
number goes up when a slot gets an object that no slot had, and down when a slot
gives up the last reference.
-/

namespace Felix.Shared

open Function Finset

variable {κ ι ρ : Type} [Fintype κ] [DecidableEq ι] [DecidableEq ρ] {f : κ → Option ι} {d : ι}

/-- How many slots refer to the object. -/
def uses (f : κ → Option ι) (d : ι) : Nat := (Finset.univ.filter fun p => f p = some d).card

/-- The objects that some slot refers to. -/
def held (f : κ → Option ι) : Finset ι := Finset.eraseNone (Finset.univ.image f)

theorem mem_held : d ∈ held f ↔ ∃ p, f p = some d := by
  simp [held]

theorem uses_pos : 0 < uses f d ↔ d ∈ held f := by
  rw [uses, card_pos, filter_nonempty_iff, mem_held]
  simp only [mem_univ, true_and]

theorem uses_eq_zero : uses f d = 0 ↔ d ∉ held f := by
  rw [← uses_pos]
  omega

/-- How many of the objects that are referred to are of the kind. -/
def owned (kind : ι → Option ρ) (f : κ → Option ι) (r : ρ) : Nat :=
  ((held f).filter fun d => kind d = some r).card

/-- The kind of an object that no slot refers to plays no part. -/
theorem owned_congr {kind kind' : ι → Option ρ}
    (h : ∀ d ∈ held f, kind d = kind' d) (r : ρ) : owned kind f r = owned kind' f r := by
  rw [owned]
  congr 1
  exact filter_congr fun d hd => by rw [h d hd]

/-! ## Changing a slot -/

variable [DecidableEq κ]

section
variable {f : κ → Option ι} {p : κ} {d : ι}

theorem uses_put (hp : f p = none) (d d' : ι) :
    uses (update f p (some d)) d' = uses f d' + if d = d' then 1 else 0 := by
  have hother : ∀ q, q ≠ p → update f p (some d) q = f q := fun q hq =>
    update_of_ne hq _ _
  by_cases hd : d = d'
  · subst hd
    have hset : (Finset.univ.filter fun q => update f p (some d) q = some d)
        = insert p (Finset.univ.filter fun q => f q = some d) := by
      ext q
      by_cases hq : q = p
      · subst hq
        simp
      · simp [hq]
    rw [if_pos rfl, uses, uses, hset]
    simp [hp]
  · rw [if_neg hd, uses]
    congr 1
    ext q
    by_cases hq : q = p
    · subst hq
      simp [hp, hd]
    · simp [hother q hq]

theorem uses_clear (hp : f p = some d) (d' : ι) :
    uses f d' = uses (update f p none) d' + if d = d' then 1 else 0 := by
  have hput := uses_put (update_self p none f) d d'
  rw [update_idem, ← hp, update_eq_self] at hput
  exact hput

theorem held_put (hp : f p = none) (d : ι) : held (update f p (some d)) = insert d (held f) := by
  ext d'
  rw [← uses_pos, uses_put hp, mem_insert, ← uses_pos]
  by_cases hd : d = d'
  · simp [hd]
  · simp [hd, Ne.symm hd]

theorem held_clear (hp : f p = some d) :
    held (update f p none) = if uses f d = 1 then (held f).erase d else held f := by
  ext d'
  have hclear := uses_clear hp d'
  rw [← uses_pos]
  split
  · rw [mem_erase, ← uses_pos]
    by_cases hd : d = d'
    · subst hd
      rw [if_pos rfl] at hclear
      simp
      omega
    rw [if_neg hd] at hclear
    simp [Ne.symm hd]
    omega
  · rw [← uses_pos]
    by_cases hd : d = d'
    · subst hd
      rw [if_pos rfl] at hclear
      omega
    · rw [if_neg hd] at hclear
      omega

end

section
variable {kind : ι → Option ρ} {f : κ → Option ι} {p : κ} {d : ι}

/-- An empty slot gets an object: it is one more if no slot had it. -/
theorem owned_put (hp : f p = none) (r : ρ) : owned kind (update f p (some d)) r
      = owned kind f r + if d ∉ held f ∧ kind d = some r then 1 else 0 := by
  rw [owned, owned, held_put hp]
  by_cases hd : d ∈ held f
  · rw [insert_eq_of_mem hd, if_neg (fun h => h.1 hd), Nat.add_zero]
  by_cases hkind : kind d = some r
  · rw [if_pos ⟨hd, hkind⟩, filter_insert, if_pos hkind, card_insert_of_notMem]
    exact fun hmem => hd (mem_filter.1 hmem).1
  · rw [if_neg (fun h => hkind h.2), filter_insert, if_neg hkind, Nat.add_zero]

/-- A slot gives up its object: it is one less if that was the last reference. -/
theorem owned_clear (hp : f p = some d) (r : ρ) : owned kind f r = owned kind (update f p none) r
      + if uses f d = 1 ∧ kind d = some r then 1 else 0 := by
  rw [owned, owned, held_clear hp]
  have hmem : d ∈ held f := mem_held.2 ⟨p, hp⟩
  by_cases hone : uses f d = 1
  · rw [if_pos hone, filter_erase]
    by_cases hkind : kind d = some r
    · rw [if_pos ⟨hone, hkind⟩, card_erase_add_one]
      exact mem_filter.2 ⟨hmem, hkind⟩
    · rw [if_neg (fun h => hkind h.2), erase_eq_of_notMem, Nat.add_zero]
      exact fun h => hkind (mem_filter.1 h).2
  · rw [if_neg hone, if_neg (fun h => hone h.1), Nat.add_zero]

end

end Felix.Shared
