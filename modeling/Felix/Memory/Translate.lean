import Felix.Memory.AddressSpace

/-!
# Translation, shared frames and unmapping

`translate` in terms of the pages that are mapped, and the functions of the page
directory that `AddressSpace` leaves out: `map`, which puts a given frame at a
page, `unmap`, and the release of a frame.  All of them keep `Owned`; a frame that
is mapped more than once needs a count for that before it is mapped, and gives the
count back after it was unmapped.
-/

namespace Felix.Memory

open Bytes

namespace Machine

variable {kernel : Nat → Prop} {refs : Nat → Nat} {m m' : Machine} {x : Nat}

/-! ## Translation -/

/-- The directory entry is not a large page. -/
def Plain (m : Machine) (i : Nat) : Prop := m.HasTable i ∨ present (m.entries i) = false

theorem translate_of_mapped (hm : m.Mapped (x / 4096)) :
    m.translate x = some (m.dataFrame (x / 4096) * 4096 + x % 4096) := by
  obtain ⟨htable, hpte⟩ := hm
  unfold HasTable isTable at htable
  rw [Bool.and_eq_true, Bool.not_eq_true'] at htable
  unfold translate
  simp only [htable.1, htable.2, Bool.true_eq_false, Bool.false_eq_true, if_false]
  rw [if_neg (by rw [show m.pteOf _ _ = m.pte (x / 4096) from rfl, hpte]; decide)]
  rfl

/-- Where there are no large pages, the pages that are mapped are those that are
translated. -/
theorem translate_isSome_iff (hplain : m.Plain (x / 4096 / 1024)) :
    (m.translate x).isSome = true ↔ m.Mapped (x / 4096) := by
  constructor
  · intro hsome
    by_contra hm
    unfold translate at hsome
    rcases hplain with htable | habsent
    · have htable' := htable
      unfold HasTable isTable at htable'
      rw [Bool.and_eq_true, Bool.not_eq_true'] at htable'
      have hpte : present (m.pteOf (m.entries (x / 4096 / 1024)) (x / 4096 % 1024)) = false :=
        Bool.eq_false_iff.2 fun hpte => hm ⟨htable, hpte⟩
      simp [htable'.2, hpte] at hsome
    · simp [habsent] at hsome
  · intro hm
    rw [translate_of_mapped hm]
    rfl

theorem translate_eq_none_iff (hplain : m.Plain (x / 4096 / 1024)) :
    m.translate x = none ↔ ¬ m.Mapped (x / 4096) := by
  rw [← translate_isSome_iff hplain, Option.not_isSome_iff_eq_none]

/-- `translate` reads a directory entry and an entry of its page table. -/
theorem translate_congr (hentry : m'.entries (x / 4096 / 1024) = m.entries (x / 4096 / 1024))
    (hpte : m.HasTable (x / 4096 / 1024) → m'.pte (x / 4096) = m.pte (x / 4096)) :
    m'.translate x = m.translate x := by
  unfold translate
  simp only [hentry]
  by_cases hpresent : present (m.entries (x / 4096 / 1024)) = false
  · rw [if_pos hpresent, if_pos hpresent]
  by_cases hlarge : largePage (m.entries (x / 4096 / 1024)) = true
  · rw [if_pos hlarge, if_pos hlarge]
  have htable : m.HasTable (x / 4096 / 1024) := by
    unfold HasTable isTable
    rw [eq_true_of_ne_false hpresent, Bool.eq_false_iff.2 hlarge]
    rfl
  have hsame : m'.pteOf (m.entries (x / 4096 / 1024)) (x / 4096 % 1024)
      = m.pteOf (m.entries (x / 4096 / 1024)) (x / 4096 % 1024) := by
    have := hpte htable
    unfold pte at this
    rw [hentry] at this
    exact this
  rw [hsame]

/-- The page tables behind the user part are those of the kernel. -/
def UpperTables (kernel : Nat → Prop) (m : Machine) : Prop :=
  ∀ i, userEnd ≤ i → m.HasTable i → kernel (m.tableFrame i)

namespace Owned

variable (h : Owned kernel refs m)
include h

/-- A change of one entry of a page table changes the translation of one page. -/
theorem translate_setPte {p x : Nat} {w : UInt32} (hp : UserPage p) (htp : m.HasTable (p / 1024))
    (hupper : m.UpperTables kernel) (hx : x / 4096 ≠ p) :
    (m.setPte (m.entries (p / 1024)) (p % 1024) w).translate x = m.translate x := by
  refine translate_congr rfl fun ht => ?_
  by_cases hq : UserPage (x / 4096)
  · rw [h.pte_setPte hp hq htp ht, if_neg hx]
  -- the tables of the kernel are other frames
  have hkernel := hupper _ (Nat.not_lt.1 hq) ht
  have hne : m.tableFrame (x / 4096 / 1024) ≠ m.tableFrame (p / 1024) := by
    intro heq
    rw [heq] at hkernel
    exact (h.table _ hp htp).2.1 hkernel
  exact pteOf_setFrame_ne hne

/-! ## Unmapping -/

theorem unmap {p : Nat} (hp : UserPage p) (hm : m.Mapped p) (hm' : m' = m.unmap (4096 * p)) :
    Owned kernel refs m' ∧ InUse kernel m' (m.dataFrame p) ∧
      (m'.pagesAt (m.dataFrame p)).card + 1 ≤ max 1 (refs (m.dataFrame p)) ∧
      (∀ q, UserPage q → (m'.Mapped q ↔ m.Mapped q ∧ q ≠ p)) ∧ m'.entries = m.entries ∧
      (m.UpperTables kernel → ∀ x, x / 4096 ≠ p → m'.translate x = m.translate x) := by
  have hset : m' = m.setPte (m.entries (p / 1024)) (p % 1024) 0 := by
    obtain ⟨htable, _⟩ := hm
    unfold HasTable isTable at htable
    rw [Bool.and_eq_true, Bool.not_eq_true'] at htable
    rw [hm', Machine.unmap]
    simp only [Nat.mul_div_cancel_left p (show 0 < 4096 by decide), htable.1, htable.2,
      Bool.true_eq_false, Bool.false_eq_true, if_false]
  have huse := h.data p hp hm
  have hsub : ∀ f, m'.pagesAt f ⊆ (m.pagesAt f).erase p := fun f =>
    hset ▸ h.pagesAt_setPte_subset hp hm.1 fun hw => absurd hw (by decide)
  refine ⟨?_, ?_, ?_, fun q hq => ?_, ?_, fun hupper x hx => ?_⟩
  · rw [hset]
    refine h.setPte hp hm.1 (fun hw => absurd hw (by decide)) fun f => ?_
    rw [← hset]
    exact (Finset.card_le_card ((hsub f).trans (Finset.erase_subset _ _))).trans (h.sharing f)
  · rw [hset]
    exact ⟨huse.taken, huse.user, huse.noTable⟩
  · have hmem : p ∈ m.pagesAt (m.dataFrame p) := mem_pagesAt.2 ⟨hp, hm, rfl⟩
    have hcard := Finset.card_le_card (hsub (m.dataFrame p))
    have herase := Finset.card_erase_add_one hmem
    have hsharing := h.sharing (m.dataFrame p)
    omega
  · rw [hset, h.mapped_setPte hp hq hm.1]
    by_cases heq : q = p
    · rw [if_pos heq]
      exact iff_of_false (by decide) fun hand => hand.2 heq
    · rw [if_neg heq]
      exact (and_iff_left heq).symm
  · rw [hset]
    rfl
  · rw [hset]
    exact h.translate_setPte hp hm.1 hupper hx

theorem freeFrame {f : Nat} (huse : InUse kernel m f) (hrefs : refs f = 0)
    (hempty : m.pagesAt f = ∅) :
    Owned kernel refs { m with frames := m.frames.freePhysFrame f } := by
  have hstack : m.frames.liveStack f = false :=
    Bool.eq_false_iff.2 fun hlive => huse.user (h.stack f hlive)
  obtain ⟨hgood, hlive, havail⟩ := FrameAllocator.freePhysFrame_eq h.good hstack
  refine ⟨hgood, hlive ▸ h.stack, fun g hg => ?_, h.cached, fun i hi ht => ?_, h.apart,
    fun q hq hm => ?_, h.sharing⟩
  · rcases havail g hg with hold | rfl
    · exact h.free g hold
    · exact ⟨huse.user, hrefs⟩
  · obtain ⟨htaken, hrest⟩ := h.table i hi ht
    exact ⟨fun hg => (havail _ hg).elim htaken (huse.noTable i hi ht), hrest⟩
  · have hdata := h.data q hq hm
    refine ⟨fun hg => (havail _ hg).elim hdata.taken fun heq => ?_, hdata.user, hdata.noTable⟩
    have hmem : q ∈ m.pagesAt f := mem_pagesAt.2 ⟨hq, hm, heq⟩
    rw [hempty] at hmem
    exact absurd hmem (Finset.notMem_empty q)

/-! ## Mapping a given frame -/

theorem mapTable_eq {i : Nat} (hi : i < userEnd) : (∃ e, m.mapTable i = .error e) ∨
      ∃ m', m.mapTable i = .ok m' ∧ Owned kernel refs m' ∧
        (∀ j, m'.HasTable j ↔ m.HasTable j ∨ j = i) ∧ SamePages m m' ∧
        (∀ j, j ≠ i → m'.entries j = m.entries j) ∧
        ∀ f, InUse kernel m f → InUse kernel m' f := by
  unfold mapTable
  by_cases ht : m.HasTable i
  · rw [if_neg (by rw [show isTable (m.entries i) = true from ht]; decide)]
    refine .inr ⟨m, rfl, h, fun j => ?_, fun _ _ => ⟨Iff.rfl, fun _ => rfl⟩, fun _ _ => rfl,
      fun _ huse => huse⟩
    exact ⟨.inl, fun hor => hor.elim id fun heq => heq ▸ ht⟩
  rw [if_pos (by rw [← Bool.not_eq_true]; exact ht)]
  rcases h.allocFrame_eq with ⟨⟨e, herror⟩, _⟩ | ⟨f, frames, hok, htakes⟩
  · rw [herror]
    exact .inl ⟨e, rfl⟩
  rw [hok]
  obtain ⟨m₁, hm₁⟩ : ∃ m₁, m₁ = ({ m with frames }.setFrame f fun _ => 0).setEntry i
    (entry f tableFlags) := ⟨_, rfl⟩
  have hentries : ∀ j, m₁.entries j = if j = i then entry f tableFlags else m.entries j := by
    intro j
    rw [hm₁]
    exact Function.update_apply _ _ _ _
  obtain ⟨howned, hhas, hpages, hkeep⟩ := h.newTable m₁ htakes hi ht hentries
    (fun g => by rw [hm₁]; exact Function.update_apply _ _ _ _) (by rw [hm₁]; rfl)
  refine .inr ⟨m₁, hm₁ ▸ rfl, howned, hhas, hpages, fun j hj => ?_, hkeep⟩
  rw [hentries, if_neg hj]

theorem map_eq {f p : Nat} (hp : UserPage p) (hnone : ¬ m.Mapped p) (hlt : f < 2 ^ 20)
    (huse : InUse kernel m f) (hroom : (m.pagesAt f).card + 1 ≤ max 1 (refs f)) :
    (∃ e, m.map p f pageFlags = .error e) ∨
      ∃ m', m.map p f pageFlags = .ok m' ∧ Owned kernel refs m' ∧
        (∀ j, m'.HasTable j ↔ m.HasTable j ∨ j = p / 1024) ∧
        (∀ q, UserPage q → (m'.Mapped q ↔ m.Mapped q ∨ q = p)) ∧
        ∀ j, j ≠ p / 1024 → m'.entries j = m.entries j := by
  unfold Machine.map
  dsimp only
  rcases h.mapTable_eq hp with ⟨e, herror⟩ | ⟨m₁, hok, h₁, hhas, hpages, hentries, hkeep⟩
  · exact .inl ⟨e, by rw [herror, Res.error_bind]⟩
  rw [hok]
  rw [← hpages.pagesAt] at hroom
  obtain ⟨howned, hmapped⟩ := h₁.mapFrame hp ((hhas _).2 (.inr rfl))
    (fun hm => hnone ((hpages p hp).1.1 hm)) hlt (hkeep f huse) hroom rfl
  refine .inr ⟨_, rfl, howned, hhas, fun q hq => ?_, hentries⟩
  exact (hmapped q hq).1.trans (or_congr_left (hpages q hq).1)

end Owned

end Machine

end Felix.Memory
