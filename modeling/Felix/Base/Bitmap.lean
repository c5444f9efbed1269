import Mathlib.Order.Interval.Finset.Nat
import Mathlib.Tactic.IntervalCases
import Felix.Base.Bytes

/-!
# Allocation bitmaps

Bit `i` of a bitmap is bit `i % 8` of byte `i / 8`.  `setBit` and
`clearBit` are the byte updates `b |= 1 << k` and `b &= !(1 << k)`, and
`findClear` is the search loop of a first-fit allocator.  A reader of the
loop needs `findClear_spec` only.

`clearCount` counts the clear bits of an interval.  One successful
allocation takes one away, so the count decides how many allocations in a
row can succeed.
-/

namespace Felix

open Finset

namespace Bytes

/-- Bit `i` of a bitmap. -/
def bit (f : Bytes) (i : Nat) : Bool := (f (i / 8)).toBitVec.getLsbD (i % 8)

/-- `bitmap[i / 8] |= 1 << (i % 8)`. -/
def setBit (i : Nat) (f : Bytes) : Bytes :=
  put8 (i / 8) (f (i / 8) ||| 1 <<< UInt8.ofNat (i % 8)) f

/-- `bitmap[i / 8] &= !(1 << (i % 8))`. -/
def clearBit (i : Nat) (f : Bytes) : Bytes :=
  put8 (i / 8) (f (i / 8) &&& ~~~(1 <<< UInt8.ofNat (i % 8))) f

variable {k i lo hi j : Nat} {f : Bytes}

theorem getLsbD_mask (hk : k < 8) (hj : j < 8) :
    ((1 : UInt8) <<< UInt8.ofNat k).toBitVec.getLsbD j = decide (j = k) := by
  interval_cases k <;> interval_cases j <;> rfl

/-- The test `byte & (1 << k) == 0` reads one bit. -/
theorem and_mask_eq_zero {b : UInt8} (hk : k < 8) :
    b &&& 1 <<< UInt8.ofNat k = 0 ↔ b.toBitVec.getLsbD k = false := by
  constructor
  · intro h
    have hbit := congrArg (fun c : UInt8 => c.toBitVec.getLsbD k) h
    simp only [UInt8.toBitVec_and, BitVec.getLsbD_and, getLsbD_mask hk hk] at hbit
    simpa using hbit
  · intro h
    apply UInt8.toBitVec_inj.1
    apply BitVec.eq_of_getLsbD_eq
    intro j hj
    rw [UInt8.toBitVec_and, BitVec.getLsbD_and, getLsbD_mask hk hj]
    by_cases hjk : j = k
    · subst hjk
      simp [h]
    · simp [hjk]

theorem bit_setBit (i j : Nat) (f : Bytes) : bit (setBit i f) j = (bit f j || decide (j = i)) := by
  unfold bit setBit
  rw [put8_apply]
  split
  · rename_i hbyte
    rw [UInt8.toBitVec_or, BitVec.getLsbD_or,
      getLsbD_mask (Nat.mod_lt _ (by omega)) (Nat.mod_lt _ (by omega)), hbyte]
    congr 1
    exact decide_eq_decide.2 (by omega)
  rename_i hbyte
  have hne : j ≠ i := by
    rintro rfl
    exact hbyte rfl
  simp [hne]

theorem bit_clearBit (i j : Nat) (f : Bytes) :
    bit (clearBit i f) j = (bit f j && decide (j ≠ i)) := by
  unfold bit clearBit
  rw [put8_apply]
  split
  · rename_i hbyte
    have hlt : j % 8 < 8 := Nat.mod_lt _ (by omega)
    rw [UInt8.toBitVec_and, BitVec.getLsbD_and, UInt8.toBitVec_not, BitVec.getLsbD_not,
      getLsbD_mask (Nat.mod_lt _ (by omega)) hlt, hbyte]
    congr 1
    have hiff : (j % 8 = i % 8) ↔ j = i := by omega
    simp [hlt, hiff]
  rename_i hbyte
  have hne : j ≠ i := by
    rintro rfl
    exact hbyte rfl
  simp [hne]

@[simp] theorem bit_setBit_self (i : Nat) (f : Bytes) : bit (setBit i f) i = true := by
  simp [bit_setBit]

@[simp] theorem bit_clearBit_self (i : Nat) (f : Bytes) : bit (clearBit i f) i = false := by
  simp [bit_clearBit]

theorem byte_eq_of_bits {g : Bytes}
    (h : ∀ j, j < 8 → bit f (8 * k + j) = bit g (8 * k + j)) : f k = g k := by
  apply UInt8.toBitVec_inj.1
  apply BitVec.eq_of_getLsbD_eq
  intro j hj
  have hbit := h j hj
  unfold bit at hbit
  rwa [show (8 * k + j) / 8 = k by omega, show (8 * k + j) % 8 = j by omega] at hbit

/-- Freeing what was just allocated gives the old bitmap back. -/
theorem clearBit_setBit (h : bit f i = false) : clearBit i (setBit i f) = f := by
  funext k
  refine byte_eq_of_bits fun j hj => ?_
  rw [bit_clearBit, bit_setBit]
  by_cases hji : 8 * k + j = i
  · simp [hji, h]
  · simp [hji]

theorem setBit_apply_ne (h : k ≠ i / 8) : setBit i f k = f k := by
  rw [setBit, put8_apply, if_neg h]

theorem clearBit_apply_ne (h : k ≠ i / 8) : clearBit i f k = f k := by
  rw [clearBit, put8_apply, if_neg h]

/-! ## Counting the clear bits -/

/-- The clear bits of a bitmap in `[lo, hi)`. -/
def clearSet (f : Bytes) (lo hi : Nat) : Finset Nat :=
  (Finset.Ico lo hi).filter fun i => bit f i = false

/-- How many bits of `[lo, hi)` are clear. -/
def clearCount (f : Bytes) (lo hi : Nat) : Nat := (clearSet f lo hi).card

theorem mem_clearSet : i ∈ clearSet f lo hi ↔ (lo ≤ i ∧ i < hi) ∧ bit f i = false := by
  rw [clearSet, mem_filter, mem_Ico]

theorem clearSet_setBit (f : Bytes) (lo hi i : Nat) :
    clearSet (setBit i f) lo hi = (clearSet f lo hi).erase i := by
  ext j
  rw [mem_erase, mem_clearSet, mem_clearSet, bit_setBit]
  by_cases hji : j = i
  · simp [hji]
  · simp [hji]

theorem clearCount_setBit (lo hi : Nat) (hlo : lo ≤ i) (hhi : i < hi) (h : bit f i = false) :
    clearCount (setBit i f) lo hi + 1 = clearCount f lo hi := by
  have hmem : i ∈ clearSet f lo hi := mem_clearSet.2 ⟨⟨hlo, hhi⟩, h⟩
  rw [clearCount, clearSet_setBit]
  exact card_erase_add_one hmem

theorem clearCount_clearBit (lo hi : Nat) (hlo : lo ≤ i) (hhi : i < hi) (h : bit f i = true) :
    clearCount (clearBit i f) lo hi = clearCount f lo hi + 1 := by
  have hset : clearSet (clearBit i f) lo hi = insert i (clearSet f lo hi) := by
    ext j
    rw [mem_insert, mem_clearSet, mem_clearSet, bit_clearBit]
    by_cases hji : j = i
    · simp [hji, hlo, hhi]
    · simp [hji]
  have hnot : i ∉ clearSet f lo hi := by
    rw [mem_clearSet, h]
    simp
  rw [clearCount, clearCount, hset, card_insert_of_notMem hnot]

theorem clearCount_le (f : Bytes) (lo hi : Nat) : clearCount f lo hi ≤ hi - lo := by
  rw [clearCount, ← Nat.card_Ico]
  exact card_filter_le _ _

theorem clearCount_pos : 0 < clearCount f lo hi ↔ ∃ i, (lo ≤ i ∧ i < hi) ∧ bit f i = false := by
  rw [clearCount, card_pos]
  exact exists_congr fun _ => mem_clearSet

/-- `i` is the first clear bit at or after `lo`, and it is below `hi`. -/
structure FirstClear (f : Bytes) (lo hi i : Nat) : Prop where
  lower : lo ≤ i
  upper : i < hi
  isClear : bit f i = false
  before : ∀ j, lo ≤ j → j < i → bit f j = true

theorem FirstClear.not_all (h : FirstClear f lo hi i)
    (hall : ∀ i, lo ≤ i → i < hi → bit f i = true) : False := by
  have hset := hall i h.lower h.upper
  rw [h.isClear] at hset
  cases hset

theorem FirstClear.unique (hi' : FirstClear f lo hi i) (hj : FirstClear f lo hi j) : i = j := by
  rcases Nat.lt_trichotomy i j with h | h | h
  · have := hj.before i hi'.lower h
    rw [hi'.isClear] at this
    cases this
  · exact h
  have := hi'.before j hj.lower h
  rw [hj.isClear] at this
  cases this

end Bytes

namespace Buf

open Bytes

/-- The search loop `for i in lo..hi`: it stops at the first clear bit, and
it also stops where the buffer ends.  `n` is the number of rounds left. -/
def findClear (b : Buf) : Nat → Nat → Res (Option Nat)
  | 0, _ => .ok none
  | n + 1, i =>
    if b.len ≤ i / 8 then .ok none
    else do
      let byte ← b.index (i / 8)
      if byte &&& 1 <<< UInt8.ofNat (i % 8) = 0 then .ok (some i)
      else findClear b n (i + 1)

/-- What the search loop does, for a buffer that covers the range. -/
theorem findClear_spec (b : Buf) (n i : Nat) (hlen : i + n ≤ 8 * b.len) :
    (∃ j, b.findClear n i = .ok (some j) ∧ FirstClear b.byte i (i + n) j) ∨
      (b.findClear n i = .ok none ∧ ∀ j, i ≤ j → j < i + n → bit b.byte j = true) := by
  induction n generalizing i with
  | zero =>
    refine .inr ⟨rfl, ?_⟩
    intro j hj hj'
    omega
  | succ n ih =>
    have hin : i / 8 < b.len := by omega
    rw [findClear, if_neg (by omega), index_ok hin, Res.ok_bind]
    have hmask := and_mask_eq_zero (b := b.byte (i / 8)) (Nat.mod_lt i (by omega : 0 < 8))
    split
    · rename_i hclear
      exact .inl ⟨i, rfl, ⟨Nat.le_refl i, by omega, hmask.1 hclear, by omega⟩⟩
    rename_i hset
    have hbit : bit b.byte i = true := by
      cases hb : bit b.byte i with
      | true => rfl
      | false => exact absurd (hmask.2 hb) hset
    rcases ih (i + 1) (by omega) with ⟨j, hj, hfirst⟩ | ⟨hnone, hall⟩
    · refine .inl ⟨j, hj, ⟨?_, ?_, hfirst.isClear, ?_⟩⟩
      · have := hfirst.lower
        omega
      · have := hfirst.upper
        omega
      · intro k hk hkj
        rcases Nat.eq_or_lt_of_le hk with rfl | hlt
        · exact hbit
        · exact hfirst.before k hlt hkj
    · refine .inr ⟨hnone, ?_⟩
      intro k hk hk'
      rcases Nat.eq_or_lt_of_le hk with rfl | hlt
      · exact hbit
      · exact hall k hlt (by omega)

end Buf

end Felix
