import Mathlib.Data.List.Sort
import Felix.Base.Counts

/-!
# Lists of free ranges

A list of ranges of a 32-bit address space, each with its start and its length,
from which an allocator takes the first one that is large enough.  A range that
comes back is put at the end, the list is sorted and ranges that touch are merged.

`Covered` is the set of addresses that the list stands for.  `takeFirst_eq` says
that what is taken leaves the set, and `insertRange` adds a range to it.  Both keep
the ranges apart from each other and within given limits.
-/

namespace Felix

open List

/-- The address is in one of the ranges. -/
def Covered (ranges : List (Nat × Nat)) (x : Nat) : Prop :=
  ∃ h ∈ ranges, h.1 ≤ x ∧ x < h.1 + h.2

/-- Two ranges have no address in common. -/
def Apart (a b : Nat × Nat) : Prop := a.1 + a.2 ≤ b.1 ∨ b.1 + b.2 ≤ a.1

/-- A range between two limits whose ends are multiples of a unit. -/
structure Within (unit lo hi : Nat) (h : Nat × Nat) : Prop where
  start : unit ∣ h.1
  length : unit ∣ h.2
  lower : lo ≤ h.1
  upper : h.1 + h.2 ≤ hi

variable {unit lo hi n : Nat} {ranges : List (Nat × Nat)} {a : Nat × Nat}

theorem Apart.symm {b : Nat × Nat} (h : Apart a b) : Apart b a := Or.symm h

variable {l l' : List (Nat × Nat)} {h : Nat × Nat} {x : Nat}

/-- The order of the ranges plays no role. -/
theorem pairwise_apart_perm (h : l.Perm l') : l.Pairwise Apart ↔ l'.Pairwise Apart :=
  h.pairwise_iff Apart.symm

theorem covered_perm (h : l.Perm l') : Covered l x ↔ Covered l' x := by
  unfold Covered
  simp only [h.mem_iff]

theorem covered_cons : Covered (h :: l) x ↔ (h.1 ≤ x ∧ x < h.1 + h.2) ∨ Covered l x :=
  exists_mem_cons_iff ..

theorem roundUp_bounds {align : Nat} (h : 0 < align) (x : Nat) :
    x ≤ (x + (align - 1)) / align * align ∧ (x + (align - 1)) / align * align < x + align := by
  have hmod := Nat.mod_lt (x + (align - 1)) h
  have hdiv := Nat.div_add_mod (x + (align - 1)) align
  rw [Nat.mul_comm] at hdiv
  omega

/-- A range has no address in common with those of a list. -/
theorem apart_iff_not_covered (ha : 0 < a.2) (hpos : ∀ b ∈ ranges, 0 < b.2) :
    (∀ b ∈ ranges, Apart a b) ↔ ∀ x, a.1 ≤ x → x < a.1 + a.2 → ¬ Covered ranges x := by
  constructor
  · rintro h x hx hx' ⟨b, hb, hbx⟩
    have hapart := h b hb
    unfold Apart at hapart
    omega
  · intro h b hb
    by_contra hover
    unfold Apart at hover
    have hb' := hpos b hb
    -- The larger one of the two starts is in both ranges.
    rcases Nat.le_total a.1 b.1 with hle | hle
    · exact h b.1 hle (by omega) ⟨b, hb, Nat.le_refl _, by omega⟩
    · exact h a.1 (Nat.le_refl _) (by omega) ⟨b, hb, hle, by omega⟩

/-! ## Taking a range -/

/-- Take `n` addresses from the first range that has so many. -/
def takeFirst (n : Nat) (ranges : List (Nat × Nat)) : Res (Option (Nat × List (Nat × Nat))) :=
  match ranges.findIdx? (n ≤ ·.2) with
  | none => .ok none
  | some i =>
    let h := ranges.getD i (0, 0)
    if h.2 = n then .ok (some (h.1, swapRemove ranges i))
    else do
      let start ← addW 32 h.1 n
      .ok (some (h.1, ranges.set i (start, h.2 - n)))

/-- The range of `n` addresses at `v` was taken. -/
structure TakesRange (unit lo hi n v : Nat) (ranges ranges' : List (Nat × Nat)) : Prop where
  start : unit ∣ v
  lower : lo ≤ v
  upper : v + n ≤ hi
  covered : ∀ x, v ≤ x → x < v + n → Covered ranges x
  left : ∀ x, Covered ranges' x → Covered ranges x ∧ ¬ (v ≤ x ∧ x < v + n)
  apart : ranges'.Pairwise Apart
  within : ∀ h ∈ ranges', Within unit lo hi h

/-- What is left of the range that was found, next to the others. -/
theorem takesRange_of_perm (new : List (Nat × Nat)) {rest ranges' : List (Nat × Nat)}
    (hperm : ranges.Perm (h :: rest)) (hapart : ranges.Pairwise Apart)
    (hwithin : ∀ h ∈ ranges, Within unit lo hi h) (hn : n ≤ h.2)
    (hnew : ∀ h' ∈ new, h' = (h.1 + n, h.2 - n) ∧ unit ∣ n) (hone : new.length ≤ 1)
    (hperm' : ranges'.Perm (new ++ rest)) : TakesRange unit lo hi n h.1 ranges ranges' := by
  obtain ⟨hfirst, hrest⟩ := pairwise_cons.1 ((pairwise_apart_perm hperm).1 hapart)
  have hh := hwithin h (hperm.mem_iff.2 mem_cons_self)
  have hwithin' : ∀ g ∈ rest, Within unit lo hi g := fun g hg =>
    hwithin g (hperm.mem_iff.2 (mem_cons_of_mem h hg))
  have hupper := hh.upper
  refine ⟨hh.start, hh.lower, by omega, fun x hx hx' => ?_, fun x hx => ?_, ?_, fun g hg => ?_⟩
  · exact ⟨h, hperm.mem_iff.2 mem_cons_self, hx, by omega⟩
  · rw [covered_perm hperm, covered_cons]
    obtain ⟨g, hg, hgx⟩ := (covered_perm hperm').1 hx
    rcases mem_append.1 hg with hg | hg
    · rw [(hnew g hg).1] at hgx
      omega
    refine ⟨.inr ⟨g, hg, hgx⟩, ?_⟩
    have := hfirst g hg
    unfold Apart at this
    omega
  · rw [pairwise_apart_perm hperm', pairwise_append]
    refine ⟨?_, hrest, fun a ha b hb => ?_⟩
    · match new, hone with
      | [], _ => exact List.Pairwise.nil
      | [_], _ => exact pairwise_singleton _ _
    · have := hfirst b hb
      rw [(hnew a ha).1]
      unfold Apart at this ⊢
      omega
  · rcases mem_append.1 (hperm'.mem_iff.1 hg) with hg | hg
    · obtain ⟨rfl, hunit⟩ := hnew g hg
      have hlower := hh.lower
      exact ⟨Nat.dvd_add hh.start hunit, Nat.dvd_sub hh.length hunit, by simp only; omega,
        by simp only; omega⟩
    · exact hwithin' g hg

theorem takeFirst_eq (hunit : unit ∣ n) (hhi : hi < 2 ^ 32) (hapart : ranges.Pairwise Apart)
    (hwithin : ∀ h ∈ ranges, Within unit lo hi h) :
    takeFirst n ranges = .ok none ∨
      ∃ v ranges', takeFirst n ranges = .ok (some (v, ranges')) ∧
        TakesRange unit lo hi n v ranges ranges' := by
  unfold takeFirst
  cases hidx : ranges.findIdx? (n ≤ ·.2) with
  | none => exact .inl rfl
  | some i =>
    obtain ⟨hlt, hfit, _⟩ := findIdx?_eq_some_iff_getElem.1 hidx
    obtain ⟨h, hh⟩ : ∃ h, h = ranges[i] := ⟨_, rfl⟩
    have hget : ranges.getD i (0, 0) = h := by
      rw [hh, getD_eq_getElem?_getD, getElem?_eq_getElem hlt, Option.getD_some]
    rw [← hh] at hfit
    have hn : n ≤ h.2 := of_decide_eq_true hfit
    have hperm : ranges.Perm (h :: ranges.eraseIdx i) :=
      hh ▸ (getElem_cons_eraseIdx_perm hlt).symm
    have hupper := (hwithin h (hperm.mem_iff.2 mem_cons_self)).upper
    simp only [hget]
    by_cases heq : h.2 = n
    · rw [if_pos heq]
      refine .inr ⟨h.1, _, rfl, takesRange_of_perm [] hperm hapart hwithin hn ?_ ?_
        (swapRemove_perm hlt)⟩
      · exact fun _ hmem => absurd hmem not_mem_nil
      · exact Nat.zero_le 1
    rw [if_neg heq, addW_ok (by omega)]
    refine .inr ⟨h.1, _, rfl, takesRange_of_perm [(h.1 + n, h.2 - n)] hperm hapart hwithin hn
      ?_ (Nat.le_refl 1) (set_perm_cons_eraseIdx hlt _)⟩
    exact fun _ hmem => ⟨mem_singleton.1 hmem, hunit⟩

/-- Which range is taken, for any list. -/
theorem takeFirst_find (n : Nat) (ranges : List (Nat × Nat)) : match ranges.find? (n ≤ ·.2) with
    | none => takeFirst n ranges = .ok none
    | some h =>
      if h.2 = n ∨ h.1 + n < 2 ^ 32 then
        ∃ ranges', takeFirst n ranges = .ok (some (h.1, ranges')) ∧ (0 < n → ranges' ≠ ranges)
      else takeFirst n ranges = .error .overflow := by
  unfold takeFirst
  cases hidx : ranges.findIdx? (n ≤ ·.2) with
  | none =>
    rw [find?_eq_none.2 fun h hh => by simpa using findIdx?_eq_none_iff.1 hidx h hh]
  | some i =>
    obtain ⟨hlt, hfit, hbefore⟩ := findIdx?_eq_some_iff_getElem.1 hidx
    have hfind : ranges.find? (n ≤ ·.2) = some ranges[i] :=
      find?_eq_some_iff_getElem.2 ⟨hfit, i, hlt, rfl, fun j hj => by simpa using hbefore j hj⟩
    have hget : ranges.getD i (0, 0) = ranges[i] := by
      rw [getD_eq_getElem?_getD, getElem?_eq_getElem hlt, Option.getD_some]
    have hn : n ≤ ranges[i].2 := of_decide_eq_true hfit
    rw [hfind]
    simp only [hget]
    by_cases heq : ranges[i].2 = n
    · rw [if_pos (.inl heq), if_pos heq]
      refine ⟨_, rfl, fun _ hsame => ?_⟩
      have hlength := (swapRemove_perm hlt).length_eq
      rw [hsame, length_eraseIdx_of_lt hlt] at hlength
      omega
    rw [if_neg heq]
    by_cases hsum : ranges[i].1 + n < 2 ^ 32
    · rw [if_pos (.inr hsum), addW_ok hsum]
      refine ⟨_, rfl, fun hpos hsame => ?_⟩
      have hentry := congrArg (fun l => (l[i]?.map Prod.snd)) hsame
      simp only [getElem?_set_self hlt, getElem?_eq_getElem hlt, Option.map_some,
        Option.some.injEq] at hentry
      omega
    · have hover : addW 32 ranges[i].1 n = .error .overflow := if_neg hsum
      rw [if_neg (not_or.2 ⟨heq, hsum⟩), hover, Res.error_bind]

/-! ## Giving a range back -/

/-- Addition of 32-bit words that stops at the largest one. -/
def satAdd (a b : Nat) : Nat := min (a + b) (2 ^ 32 - 1)

/-- The loop that merges a range with those after it that touch it. -/
def mergeFrom (a : Nat × Nat) : List (Nat × Nat) → List (Nat × Nat)
  | [] => [a]
  | b :: rest =>
    let aEnd := satAdd a.1 a.2
    if b.1 ≤ aEnd then mergeFrom (a.1, max aEnd (satAdd b.1 b.2) - a.1) rest
    else a :: mergeFrom b rest

/-- Merge the ranges of a sorted list. -/
def mergeRanges : List (Nat × Nat) → List (Nat × Nat)
  | [] => []
  | a :: rest => mergeFrom a rest

/-- The order by which the ranges are sorted. -/
def ByStart (a b : Nat × Nat) : Prop := a.1 ≤ b.1

instance : DecidableRel ByStart := fun a b => inferInstanceAs (Decidable (a.1 ≤ b.1))

instance : IsTrans (Nat × Nat) ByStart := ⟨fun _ _ _ => Nat.le_trans⟩

instance : Std.Total ByStart := ⟨fun a b => Nat.le_total a.1 b.1⟩

/-- A range comes back: it is appended, the list is sorted and merged. -/
def insertRange (h : Nat × Nat) (ranges : List (Nat × Nat)) : List (Nat × Nat) :=
  mergeRanges ((ranges ++ [h]).insertionSort ByStart)

/-- A merged list. -/
structure Merged (unit lo hi start : Nat) (ranges ranges' : List (Nat × Nat)) : Prop where
  covered : ∀ x, Covered ranges' x ↔ Covered ranges x
  apart : ranges'.Pairwise Apart
  within : ∀ h ∈ ranges', Within unit lo hi h
  starts : ∀ h ∈ ranges', start ≤ h.1

theorem mergeFrom_merged (hhi : hi < 2 ^ 32) {l : List (Nat × Nat)}
    (hsorted : (a :: l).Pairwise ByStart) (hwithin : ∀ h ∈ a :: l, Within unit lo hi h) :
    Merged unit lo hi a.1 (a :: l) (mergeFrom a l) := by
  induction l generalizing a with
  | nil =>
    refine ⟨fun _ => Iff.rfl, pairwise_singleton _ _, hwithin, fun h hh => ?_⟩
    rw [mem_singleton.1 hh]
  | cons b l ih =>
    obtain ⟨hfirst, hrest⟩ := pairwise_cons.1 hsorted
    obtain ⟨ha, hwithin'⟩ := forall_mem_cons.1 hwithin
    obtain ⟨hb, hwithin''⟩ := forall_mem_cons.1 hwithin'
    have hab : a.1 ≤ b.1 := hfirst b mem_cons_self
    have haupper := ha.upper
    have hbupper := hb.upper
    have haEnd : satAdd a.1 a.2 = a.1 + a.2 := by
      unfold satAdd
      omega
    have hbEnd : satAdd b.1 b.2 = b.1 + b.2 := by
      unfold satAdd
      omega
    unfold mergeFrom
    simp only [haEnd, hbEnd]
    by_cases htouch : b.1 ≤ a.1 + a.2
    · rw [if_pos htouch]
      have hlength : unit ∣ max (a.1 + a.2) (b.1 + b.2) - a.1 := by
        refine Nat.dvd_sub ?_ ha.start
        rcases Nat.le_total (a.1 + a.2) (b.1 + b.2) with hle | hle
        · rw [Nat.max_eq_right hle]
          exact Nat.dvd_add hb.start hb.length
        · rw [Nat.max_eq_left hle]
          exact Nat.dvd_add ha.start ha.length
      have hnew : Within unit lo hi (a.1, max (a.1 + a.2) (b.1 + b.2) - a.1) :=
        ⟨ha.start, hlength, ha.lower, by simp only; omega⟩
      have hmerged := ih (a := (a.1, max (a.1 + a.2) (b.1 + b.2) - a.1))
        (pairwise_cons.2 ⟨fun h hh => hfirst h (mem_cons_of_mem b hh), (pairwise_cons.1 hrest).2⟩)
        (forall_mem_cons.2 ⟨hnew, hwithin''⟩)
      refine ⟨fun x => ?_, hmerged.apart, hmerged.within, hmerged.starts⟩
      rw [hmerged.covered, covered_cons, covered_cons, covered_cons, ← or_assoc]
      refine or_congr_left ?_
      omega
    · rw [if_neg htouch]
      have hmerged := ih hrest hwithin'
      refine ⟨fun x => ?_, ?_, ?_, ?_⟩
      · rw [covered_cons, hmerged.covered, covered_cons (h := a)]
      · rw [pairwise_cons]
        refine ⟨fun h hh => .inl ?_, hmerged.apart⟩
        have := hmerged.starts h hh
        omega
      · exact forall_mem_cons.2 ⟨ha, hmerged.within⟩
      · refine forall_mem_cons.2 ⟨Nat.le_refl _, fun h hh => ?_⟩
        exact Nat.le_trans hab (hmerged.starts h hh)

/-- A range was added to the list. -/
structure AddsRange (unit lo hi : Nat) (h : Nat × Nat) (ranges ranges' : List (Nat × Nat)) :
    Prop where
  covered : ∀ x, Covered ranges' x ↔ (h.1 ≤ x ∧ x < h.1 + h.2) ∨ Covered ranges x
  apart : ranges'.Pairwise Apart
  within : ∀ h ∈ ranges', Within unit lo hi h

theorem insertRange_adds (hhi : hi < 2 ^ 32) (hh : Within unit lo hi h)
    (hwithin : ∀ h ∈ ranges, Within unit lo hi h) :
    AddsRange unit lo hi h ranges (insertRange h ranges) := by
  unfold insertRange
  have hperm : ((ranges ++ [h]).insertionSort ByStart).Perm (h :: ranges) :=
    (perm_insertionSort ByStart _).trans (perm_append_singleton h ranges)
  have hsorted := pairwise_insertionSort ByStart (ranges ++ [h])
  have hall : ∀ g ∈ (ranges ++ [h]).insertionSort ByStart, Within unit lo hi g := fun g hg =>
    forall_mem_cons.2 ⟨hh, hwithin⟩ g (hperm.mem_iff.1 hg)
  have hcovered : ∀ x, Covered ((ranges ++ [h]).insertionSort ByStart) x
      ↔ (h.1 ≤ x ∧ x < h.1 + h.2) ∨ Covered ranges x := fun x => by
    rw [covered_perm hperm, covered_cons]
  cases hlist : (ranges ++ [h]).insertionSort ByStart with
  | nil =>
    rw [hlist] at hcovered
    exact ⟨hcovered, List.Pairwise.nil, fun _ hmem => absurd hmem not_mem_nil⟩
  | cons a rest =>
    rw [hlist] at hcovered hsorted hall
    have hmerged := mergeFrom_merged hhi hsorted hall
    exact ⟨fun x => (hmerged.covered x).trans (hcovered x), hmerged.apart, hmerged.within⟩

end Felix
