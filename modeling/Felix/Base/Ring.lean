import Mathlib.Logic.Function.Basic
import Mathlib.Data.List.Basic
import Mathlib.Data.Nat.ModEq

/-!
# Ring buffers

A ring buffer of `cap` cells is given by its cells, the index of the oldest entry and the
number of entries.  `ringList` is the list of its entries, the oldest one first.  There is
one lemma for taking the oldest entry and one for adding a new one.
-/

namespace Felix

variable {α : Type} {cap : Nat} {buf : Nat → α} {tail len : Nat}

/-- The entries of a ring buffer. -/
def ringList (cap : Nat) (buf : Nat → α) (tail len : Nat) : List α :=
  (List.range len).map fun i => buf ((tail + i) % cap)

@[simp] theorem length_ringList : (ringList cap buf tail len).length = len := by
  simp [ringList]

theorem ringList_succ (htail : tail < cap) :
    ringList cap buf tail (len + 1) = buf tail :: ringList cap buf ((tail + 1) % cap) len := by
  unfold ringList
  rw [List.range_succ_eq_map, List.map_cons, List.map_map, Nat.add_zero, Nat.mod_eq_of_lt htail]
  congr 1
  apply List.map_congr_left
  intro i _
  simp [Nat.add_assoc, Nat.add_comm 1 i]

/-- Two entries at different distances from the oldest one do not meet. -/
theorem ring_index_ne {i : Nat} (hi : i < len) (hlen : len < cap) :
    (tail + i) % cap ≠ (tail + len) % cap := by
  intro h
  have hmod : (tail + i) ≡ (tail + len) [MOD cap] := h
  have hshift := Nat.ModEq.add_left_cancel' tail hmod
  rw [Nat.ModEq, Nat.mod_eq_of_lt (by omega), Nat.mod_eq_of_lt hlen] at hshift
  omega

theorem ringList_push (hlen : len < cap) (a : α) :
    ringList cap (Function.update buf ((tail + len) % cap) a) tail (len + 1)
      = ringList cap buf tail len ++ [a] := by
  unfold ringList
  rw [List.range_succ, List.map_append, List.map_singleton, Function.update_self]
  congr 1
  apply List.map_congr_left
  intro i hi
  exact Function.update_of_ne (ring_index_ne (List.mem_range.1 hi) hlen) ..

end Felix
