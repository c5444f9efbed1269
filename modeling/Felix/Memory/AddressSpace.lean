import Felix.Memory.Paging

/-!
# Who owns a frame

The user part of a page directory, below the window for device memory.
`Owned` says who owns which frame: the page tables of the directory have a frame
each, which is not used for anything else; a frame that is mapped is no page
table and cannot be handed out; and a frame is mapped at more than one page only
as often as the cache of shared pages counts.

The functions of the page directory keep `Owned`.  For each of them one lemma
says what it does to the pages that are mapped, and the proofs about loops over
pages use those lemmas only.
-/

namespace Felix.Memory

open Bytes Function Res Finset

/-- `KERNEL_MMIO_BASE >> 22`: the directory entries below are those of the
user. -/
def userEnd : Nat := 764

/-- A page of the user part. -/
def UserPage (p : Nat) : Prop := p / 1024 < userEnd

instance : DecidablePred UserPage := fun p => inferInstanceAs (Decidable (p / 1024 < userEnd))

namespace Machine

/-- The directory entry names a page table. -/
def HasTable (m : Machine) (i : Nat) : Prop := isTable (m.entries i) = true
  deriving Decidable

/-- The page table entry of a page. -/
def pte (m : Machine) (p : Nat) : UInt32 := m.pteOf (m.entries (p / 1024)) (p % 1024)

/-- The page is mapped through a page table. -/
def Mapped (m : Machine) (p : Nat) : Prop := m.HasTable (p / 1024) ∧ present (m.pte p) = true
  deriving Decidable

/-- The frame at which a page is mapped. -/
def dataFrame (m : Machine) (p : Nat) : Nat := frameOf (m.pte p)

/-- The frame of a page table. -/
def tableFrame (m : Machine) (i : Nat) : Nat := frameOf (m.entries i)

/-- The user pages that are mapped at a frame. -/
def pagesAt (m : Machine) (f : Nat) : Finset Nat :=
  (Finset.range (userEnd * 1024)).filter fun p => m.Mapped p ∧ m.dataFrame p = f

/-- The frame is in use, but not by the kernel and not as a page table. -/
structure InUse (kernel : Nat → Prop) (m : Machine) (f : Nat) : Prop where
  taken : ¬ m.frames.Avail f
  user : ¬ kernel f
  noTable : ∀ i, i < userEnd → m.HasTable i → m.tableFrame i ≠ f

/-- Who owns which frame.  The frames of `kernel` are the page tables and the
stacks of the kernel, and `refs` counts the mappings of a shared frame. -/
structure Owned (kernel : Nat → Prop) (refs : Nat → Nat) (m : Machine) : Prop where
  good : m.frames.Good
  stack : ∀ f, m.frames.liveStack f = true → kernel f
  free : ∀ f, m.frames.Avail f → ¬ kernel f ∧ refs f = 0
  cached : ∀ f, 0 < refs f → ¬ kernel f
  table : ∀ i, i < userEnd → m.HasTable i →
    ¬ m.frames.Avail (m.tableFrame i) ∧ ¬ kernel (m.tableFrame i) ∧ refs (m.tableFrame i) = 0
  apart : ∀ i j, i < userEnd → j < userEnd → m.HasTable i → m.HasTable j →
    m.tableFrame i = m.tableFrame j → i = j
  data : ∀ p, UserPage p → m.Mapped p → InUse kernel m (m.dataFrame p)
  sharing : ∀ f, (m.pagesAt f).card ≤ max 1 (refs f)

variable {kernel : Nat → Prop} {refs : Nat → Nat} {m m' : Machine} (pages : Finset Nat)
  {p f k : Nat}

theorem mem_pagesAt : p ∈ m.pagesAt f ↔ UserPage p ∧ m.Mapped p ∧ m.dataFrame p = f := by
  have hlt : p < userEnd * 1024 ↔ p / 1024 < userEnd := (Nat.div_lt_iff_lt_mul (by decide)).symm
  rw [pagesAt, mem_filter, mem_range, hlt]
  rfl

/-- The user pages are mapped as before. -/
def SamePages (m m' : Machine) : Prop :=
  ∀ p, UserPage p → (m'.Mapped p ↔ m.Mapped p) ∧ (m.Mapped p → m'.dataFrame p = m.dataFrame p)

theorem SamePages.pagesAt (h : SamePages m m') (f : Nat) : m'.pagesAt f = m.pagesAt f := by
  ext p
  rw [mem_pagesAt, mem_pagesAt]
  refine and_congr_right fun hp => ?_
  rw [(h p hp).1]
  refine and_congr_right fun hm => ?_
  rw [(h p hp).2 hm]

/-! ## Single changes -/

theorem get32_put32_word {j : Nat} {w : UInt32} {f : Bytes} :
    get32 (4 * k) (put32 (4 * j) w f) = if k = j then w else get32 (4 * k) f := by
  by_cases h : k = j
  · rw [if_pos h, h, get32_put32_self]
  rw [if_neg h]
  refine get32_congr fun i hi hi' => put32_apply_ne ?_
  omega

/-- A page table that names another frame does not notice. -/
theorem pteOf_setFrame_ne {pde : UInt32} {bytes : Bytes} (h : frameOf pde ≠ f) :
    (m.setFrame f bytes).pteOf pde k = m.pteOf pde k := by
  show get32 (4 * k) (update m.phys f bytes (frameOf pde)) = _
  rw [update_of_ne h]
  rfl

/-- A write into a frame that is no page table changes no mapping. -/
theorem pte_setFrame (bytes : Bytes) (hp : UserPage p) (ht : m.HasTable (p / 1024))
    (hf : ∀ i, i < userEnd → m.HasTable i → m.tableFrame i ≠ f) :
    (m.setFrame f bytes).pte p = m.pte p :=
  pteOf_setFrame_ne (hf _ hp ht)

namespace Owned

variable (h : Owned kernel refs m)
include h

variable {p f q : Nat} {w : UInt32} {frames : FrameAllocator}

theorem pte_setPte (hp : UserPage p) (hq : UserPage q)
    (htp : m.HasTable (p / 1024)) (htq : m.HasTable (q / 1024)) :
    (m.setPte (m.entries (p / 1024)) (p % 1024) w).pte q = if q = p then w else m.pte q := by
  show (m.setFrame _ _).pteOf (m.entries (q / 1024)) (q % 1024) = _
  by_cases hidx : q / 1024 = p / 1024
  · unfold pteOf setFrame
    simp only [hidx]
    rw [update_self, get32_put32_word]
    have hiff : q % 1024 = p % 1024 ↔ q = p := by omega
    by_cases heq : q = p
    · rw [if_pos (hiff.2 heq), if_pos heq]
    · rw [if_neg fun hm => heq (hiff.1 hm), if_neg heq, pte, pteOf, hidx]
  have hne : frameOf (m.entries (q / 1024)) ≠ frameOf (m.entries (p / 1024)) :=
    fun heq => hidx (h.apart _ _ hq hp htq htp heq)
  rw [pteOf_setFrame_ne hne, if_neg fun heq => hidx (by rw [heq])]
  rfl

/-- What an entry of a page table becomes decides which page is mapped. -/
theorem mapped_setPte (hp : UserPage p) (hq : UserPage q) (htp : m.HasTable (p / 1024)) :
    (m.setPte (m.entries (p / 1024)) (p % 1024) w).Mapped q
      ↔ if q = p then present w = true else m.Mapped q := by
  show m.HasTable (q / 1024) ∧ present ((m.setPte _ _ w).pte q) = true ↔ _
  by_cases heq : q = p
  · rw [heq, if_pos rfl, h.pte_setPte hp hp htp htp, if_pos rfl]
    exact and_iff_right htp
  rw [if_neg heq]
  refine and_congr_right fun htq => ?_
  rw [h.pte_setPte hp hq htp htq, if_neg heq]

/-- The rule for a change of one entry of a page table. -/
theorem setPte (hp : UserPage p) (htp : m.HasTable (p / 1024))
    (hw : present w = true → InUse kernel m (frameOf w))
    (hsharing : ∀ f, ((m.setPte (m.entries (p / 1024)) (p % 1024) w).pagesAt f).card
      ≤ max 1 (refs f)) : Owned kernel refs (m.setPte (m.entries (p / 1024)) (p % 1024) w) := by
  refine ⟨h.good, h.stack, h.free, h.cached, h.table, h.apart, fun q hq hmapped => ?_, hsharing⟩
  have hmapped' := (h.mapped_setPte hp hq htp).1 hmapped
  have huse : InUse kernel m (frameOf (if q = p then w else m.pte q)) := by
    by_cases heq : q = p
    · rw [if_pos heq] at hmapped' ⊢
      exact hw hmapped'
    · rw [if_neg heq] at hmapped' ⊢
      exact h.data q hq hmapped'
  unfold dataFrame
  rw [h.pte_setPte hp hq htp hmapped.1]
  exact ⟨huse.taken, huse.user, huse.noTable⟩

/-- The rule for a change of the count of one frame. -/
theorem setRefs {refs' : Nat → Nat} (huse : InUse kernel m f)
    (hother : ∀ g, f ≠ g → refs' g = refs g) (hshared : (m.pagesAt f).card ≤ max 1 (refs' f)) :
    Owned kernel refs' m := by
  refine ⟨h.good, h.stack, fun g hg => ⟨(h.free g hg).1, ?_⟩, fun g hg => ?_, fun i hi ht => ?_,
    h.apart, h.data, fun g => ?_⟩
  · rw [hother g fun heq => huse.taken (heq ▸ hg)]
    exact (h.free g hg).2
  · by_cases hfg : f = g
    · exact hfg ▸ huse.user
    · exact h.cached g (hother g hfg ▸ hg)
  · rw [hother _ fun heq => huse.noTable i hi ht heq.symm]
    exact h.table i hi ht
  · by_cases hfg : f = g
    · exact hfg ▸ hshared
    · rw [hother g hfg]
      exact h.sharing g

theorem pagesAt_setPte_subset (hp : UserPage p)
    (htp : m.HasTable (p / 1024)) (hw : present w = true → frameOf w ≠ f) :
    (m.setPte (m.entries (p / 1024)) (p % 1024) w).pagesAt f ⊆ (m.pagesAt f).erase p := by
  intro q hq
  obtain ⟨huser, hmapped, hframe⟩ := mem_pagesAt.1 hq
  have hmapped' := (h.mapped_setPte hp huser htp).1 hmapped
  unfold dataFrame at hframe
  rw [h.pte_setPte hp huser htp hmapped.1] at hframe
  by_cases heq : q = p
  · rw [if_pos heq] at hmapped' hframe
    exact absurd hframe (hw hmapped')
  · rw [if_neg heq] at hmapped' hframe
    exact mem_erase.2 ⟨heq, mem_pagesAt.2 ⟨huser, hmapped', hframe⟩⟩

/-- `Owned` looks at the mappings of the user pages only. -/
theorem congr (m' : Machine) (hentries : ∀ i, i < userEnd → m'.HasTable i = m.HasTable i ∧
      m'.tableFrame i = m.tableFrame i)
    (hpte : ∀ p, UserPage p → m.HasTable (p / 1024) → present (m'.pte p) = present (m.pte p) ∧
      m'.dataFrame p = m.dataFrame p)
    (hframes : m'.frames = m.frames) : Owned kernel refs m' ∧ SamePages m m' := by
  have hsame : SamePages m m' := by
    intro p hp
    refine ⟨?_, fun hm => (hpte p hp hm.1).2⟩
    show m'.HasTable (p / 1024) ∧ _ ↔ m.HasTable (p / 1024) ∧ _
    rw [(hentries _ hp).1]
    refine and_congr_right fun ht => ?_
    rw [(hpte p hp ht).1]
  refine ⟨⟨hframes ▸ h.good, hframes ▸ h.stack, hframes ▸ h.free, h.cached, fun i hi ht => ?_,
    fun i j hi hj hti htj => ?_, fun p hp hm => ?_, fun f => ?_⟩, hsame⟩
  · rw [(hentries i hi).1] at ht
    rw [hframes, (hentries i hi).2]
    exact h.table i hi ht
  · rw [(hentries i hi).1] at hti
    rw [(hentries j hj).1] at htj
    rw [(hentries i hi).2, (hentries j hj).2]
    exact h.apart i j hi hj hti htj
  · have hm' := (hsame p hp).1.1 hm
    have huse := h.data p hp hm'
    rw [(hpte p hp hm'.1).2]
    refine ⟨hframes ▸ huse.taken, huse.user, fun i hi ht => ?_⟩
    rw [(hentries i hi).1] at ht
    rw [(hentries i hi).2]
    exact huse.noTable i hi ht
  · rw [hsame.pagesAt]
    exact h.sharing f

theorem setFlags (hp : UserPage p) (hm : m.Mapped p)
    (hw : present w = true) (hframe : frameOf w = m.dataFrame p)
    (hm' : m' = m.setPte (m.entries (p / 1024)) (p % 1024) w) :
    Owned kernel refs m' ∧ SamePages m m' := by
  have hpte : ∀ q, UserPage q → m.HasTable (q / 1024) →
      present (m'.pte q) = present (m.pte q) ∧ m'.dataFrame q = m.dataFrame q := by
    intro q hq ht
    unfold dataFrame at ⊢
    rw [hm', h.pte_setPte hp hq hm.1 ht]
    by_cases heq : q = p
    · rw [if_pos heq, heq, hw, hm.2, hframe]
      exact ⟨rfl, rfl⟩
    · rw [if_neg heq]
      exact ⟨rfl, rfl⟩
  exact h.congr m' (fun _ _ => by rw [hm']; exact ⟨rfl, rfl⟩) hpte (by rw [hm']; rfl)

/-! ## The functions of the page directory -/

theorem allocFrame_eq : ((∃ e, m.allocFrame = .error e) ∧ m.frames.count = 0) ∨
      ∃ f frames, m.allocFrame = .ok (f, { m with frames }) ∧
        FrameAllocator.Takes m.frames frames f := by
  unfold Machine.allocFrame
  rcases FrameAllocator.allocFrame_eq h.good with ⟨herror, hzero⟩ | ⟨f, frames, hok, htakes⟩
  · rw [herror]
    exact .inl ⟨⟨_, rfl⟩, hzero⟩
  · rw [hok]
    exact .inr ⟨f, frames, rfl, htakes⟩

theorem takes (htakes : FrameAllocator.Takes m.frames frames f) :
    Owned kernel refs { m with frames } := by
  have hleft : ∀ g, frames.Avail g → m.frames.Avail g := fun g hg => ((htakes.left g).1 hg).1
  refine ⟨htakes.good, htakes.stack ▸ h.stack, fun g hg => h.free g (hleft g hg), h.cached,
    fun i hi ht => ?_, h.apart, fun p hp hm => ?_, h.sharing⟩
  · obtain ⟨havail, hrest⟩ := h.table i hi ht
    exact ⟨fun hg => havail (hleft _ hg), hrest⟩
  · have huse := h.data p hp hm
    exact ⟨fun hg => huse.taken (hleft _ hg), huse.user, huse.noTable⟩

theorem newTable (m' : Machine) {i : Nat}
    (htakes : FrameAllocator.Takes m.frames frames f) (hi : i < userEnd) (hnone : ¬ m.HasTable i)
    (hentries : ∀ j, m'.entries j = if j = i then entry f tableFlags else m.entries j)
    (hphys : ∀ g, m'.phys g = if g = f then fun _ => 0 else m.phys g)
    (hframes : m'.frames = frames) :
    Owned kernel refs m' ∧ (∀ j, m'.HasTable j ↔ m.HasTable j ∨ j = i) ∧ SamePages m m' ∧
      ∀ g, InUse kernel m g → InUse kernel m' g := by
  have hlt := h.good.lt htakes.avail
  have hnew : m'.tableFrame i = f := by
    rw [tableFrame, hentries, if_pos rfl, frameOf_entry hlt (by decide)]
  have hold : ∀ j, j ≠ i → m'.entries j = m.entries j := fun j hj => by rw [hentries, if_neg hj]
  have hhas : ∀ j, m'.HasTable j ↔ m.HasTable j ∨ j = i := by
    intro j
    by_cases hj : j = i
    · refine ⟨fun _ => .inr hj, fun _ => ?_⟩
      rw [HasTable, hentries, if_pos hj]
      exact isTable_entry f
    · rw [HasTable, hold j hj]
      exact ⟨.inl, fun hor => hor.resolve_right hj⟩
  have hframe : ∀ j, j ≠ i → m'.tableFrame j = m.tableFrame j := fun j hj => by
    rw [tableFrame, hold j hj]
    rfl
  have hbefore : ∀ j, m'.HasTable j → j ≠ i → m.HasTable j :=
    fun j ht hj => ((hhas j).1 ht).resolve_right hj
  have hne : ∀ j, j < userEnd → m.HasTable j → m.tableFrame j ≠ f := by
    rintro j hj ht rfl
    exact (h.table j hj ht).1 htakes.avail
  have hpte : ∀ p, UserPage p → m.HasTable (p / 1024) → m'.pte p = m.pte p := by
    intro p hp ht
    have hidx : p / 1024 ≠ i := by
      rintro rfl
      exact hnone ht
    show get32 _ (m'.phys (m'.tableFrame (p / 1024))) = get32 _ (m.phys (m.tableFrame (p / 1024)))
    rw [hframe _ hidx, hphys, if_neg (hne _ hp ht)]
  have hzero : ∀ p, p / 1024 = i → m'.pte p = 0 := by
    rintro p rfl
    show get32 _ (m'.phys (m'.tableFrame (p / 1024))) = 0
    rw [hnew, hphys, if_pos rfl]
    rfl
  have hmapped : ∀ p, UserPage p → (m'.Mapped p ↔ m.Mapped p) := by
    intro p hp
    by_cases hidx : p / 1024 = i
    · refine ⟨fun hm => ?_, fun hm => ?_⟩
      · rw [Mapped, hzero p hidx] at hm
        exact absurd hm.2 (by decide)
      · rw [← hidx] at hnone
        exact absurd hm.1 hnone
    show m'.HasTable (p / 1024) ∧ _ ↔ m.HasTable (p / 1024) ∧ _
    rw [hhas, or_iff_left hidx]
    refine and_congr_right fun ht => ?_
    rw [hpte p hp ht]
  have hsame : SamePages m m' := fun p hp =>
    ⟨hmapped p hp, fun hm => congrArg frameOf (hpte p hp hm.1)⟩
  have hleft : ∀ g, frames.Avail g ↔ m.frames.Avail g ∧ g ≠ f := htakes.left
  have hkeep : ∀ g, InUse kernel m g → InUse kernel m' g := by
    refine fun g huse => ⟨?_, huse.user, fun j hj ht => ?_⟩
    · rw [hframes, hleft]
      exact fun hf => huse.taken hf.1
    by_cases hji : j = i
    · rw [hji, hnew]
      rintro rfl
      exact huse.taken htakes.avail
    · rw [hframe j hji]
      exact huse.noTable j hj (hbefore j ht hji)
  have hstack : m'.frames.liveStack = m.frames.liveStack := hframes ▸ htakes.stack
  refine ⟨⟨hframes ▸ htakes.good, hstack ▸ h.stack, fun g hg => ?_, h.cached, fun j hj ht => ?_,
    fun j k hj hk htj htk heq => ?_, fun p hp hm => ?_, fun g => ?_⟩, hhas, hsame, hkeep⟩
  · rw [hframes] at hg
    exact h.free g ((hleft g).1 hg).1
  · rw [hframes, hleft]
    by_cases hji : j = i
    · rw [hji, hnew]
      exact ⟨fun hf => hf.2 rfl, h.free f htakes.avail⟩
    rw [hframe j hji]
    obtain ⟨havail, hrest⟩ := h.table j hj (hbefore j ht hji)
    exact ⟨fun hf => havail hf.1, hrest⟩
  · by_cases hji : j = i
    · by_cases hki : k = i
      · rw [hji, hki]
      · rw [hji, hnew, hframe k hki] at heq
        exact absurd heq.symm (hne k hk (hbefore k htk hki))
    · by_cases hki : k = i
      · rw [hki, hnew, hframe j hji] at heq
        exact absurd heq (hne j hj (hbefore j htj hji))
      · rw [hframe j hji, hframe k hki] at heq
        exact h.apart j k hj hk (hbefore j htj hji) (hbefore k htk hki) heq
  · have hm' := (hmapped p hp).1 hm
    rw [(hsame p hp).2 hm']
    exact hkeep _ (h.data p hp hm')
  · rw [hsame.pagesAt]
    exact h.sharing g

theorem takeFrame {bytes : Bytes} {m₁ : Machine} (htakes : FrameAllocator.Takes m.frames frames f)
    (hm₁ : m₁ = { m with frames }.setFrame f bytes) :
    Owned kernel refs m₁ ∧ InUse kernel m₁ f ∧ m₁.pagesAt f = ∅ ∧ SamePages m m₁ := by
  have hne : ∀ i, i < userEnd → m.HasTable i → m.tableFrame i ≠ f := by
    rintro i hi ht rfl
    exact (h.table i hi ht).1 htakes.avail
  have hpte : ∀ q, UserPage q → m.HasTable (q / 1024) → m₁.pte q = m.pte q := by
    intro q hq ht
    rw [hm₁]
    exact pte_setFrame bytes hq ht hne
  have hentries : m₁.entries = m.entries := by
    rw [hm₁]
    rfl
  have hhas : ∀ i, m₁.HasTable i = m.HasTable i := fun i => by rw [HasTable, hentries, HasTable]
  have htable : ∀ i, m₁.tableFrame i = m.tableFrame i := fun i => by
    rw [tableFrame, hentries, tableFrame]
  obtain ⟨h₁, hsame⟩ := (h.takes htakes).congr m₁ (fun i _ => ⟨hhas i, htable i⟩)
    (fun q hq ht => ⟨congrArg present (hpte q hq ht), congrArg frameOf (hpte q hq ht)⟩)
    (by rw [hm₁]; rfl)
  refine ⟨h₁, ⟨?_, (h.free f htakes.avail).1, fun i hi ht => ?_⟩, ?_, hsame⟩
  · rw [hm₁]
    exact fun hf => ((htakes.left f).1 hf).2 rfl
  · rw [hhas] at ht
    rw [htable]
    exact hne i hi ht
  · refine eq_empty_of_forall_notMem fun q hq => ?_
    obtain ⟨huser, hm, hframe⟩ := mem_pagesAt.1 hq
    have hm' : m.Mapped q := (hsame q huser).1.1 hm
    have hframe : m.dataFrame q = f := ((hsame q huser).2 hm').symm.trans hframe
    have htaken := (h.data q huser hm').taken
    rw [hframe] at htaken
    exact htaken htakes.avail

theorem mapFrame (hp : UserPage p) (htp : m.HasTable (p / 1024))
    (hnone : ¬ m.Mapped p) (hlt : f < 2 ^ 20) (huse : InUse kernel m f)
    (hroom : (m.pagesAt f).card + 1 ≤ max 1 (refs f))
    (hm' : m' = m.setPte (m.entries (p / 1024)) (p % 1024) (entry f pageFlags)) :
    Owned kernel refs m' ∧
      ∀ q, UserPage q → (m'.Mapped q ↔ m.Mapped q ∨ q = p) ∧
        (m.Mapped q → m'.dataFrame q = m.dataFrame q) := by
  have hframe := frameOf_entry hlt (show pageFlags < 4096 by decide)
  have hmapped : ∀ q, UserPage q → (m'.Mapped q ↔ m.Mapped q ∨ q = p) := by
    intro q hq
    rw [hm', h.mapped_setPte hp hq htp]
    by_cases heq : q = p
    · rw [if_pos heq]
      exact ⟨fun _ => .inr heq, fun _ => present_entry_page f⟩
    · rw [if_neg heq, or_iff_left heq]
  have hsame : ∀ q, UserPage q → m.Mapped q → m'.dataFrame q = m.dataFrame q := by
    intro q hq hm
    have hqp : q ≠ p := by
      rintro rfl
      exact hnone hm
    unfold dataFrame
    rw [hm', h.pte_setPte hp hq htp hm.1, if_neg hqp]
  refine ⟨?_, fun q hq => ⟨hmapped q hq, hsame q hq⟩⟩
  rw [hm']
  refine h.setPte hp htp (fun _ => hframe.symm ▸ huse) fun g => ?_
  by_cases hg : g = f
  · -- the page is one more at frame
    have hsub : (m.setPte (m.entries (p / 1024)) (p % 1024)
        (entry f pageFlags)).pagesAt g ⊆ insert p (m.pagesAt g) := by
      rw [← hm']
      intro q hq
      obtain ⟨huser, hmq, hfq⟩ := mem_pagesAt.1 hq
      rcases (hmapped q huser).1 hmq with hold | heq
      · rw [hsame q huser hold] at hfq
        exact mem_insert_of_mem (mem_pagesAt.2 ⟨huser, hold, hfq⟩)
      · exact mem_insert.2 (.inl heq)
    refine (card_le_card hsub).trans ((card_insert_le _ _).trans ?_)
    rw [hg]
    exact hroom
  · have hsub := h.pagesAt_setPte_subset hp htp
      (fun _ => by rw [hframe]; exact Ne.symm hg)
    exact (card_le_card (hsub.trans (erase_subset _ _))).trans (h.sharing g)

end Owned

/-- The number of frames that it takes to map a page. -/
def cost (m : Machine) (p : Nat) : Nat :=
  (if m.HasTable (p / 1024) then 0 else 1) + if m.Mapped p then 0 else 1

/-- A page was mapped: nothing else changed, and the frames for it are gone. -/
structure MapsPage (kernel : Nat → Prop) (refs : Nat → Nat) (m m' : Machine) (p : Nat) : Prop where
  owned : Owned kernel refs m'
  table : ∀ i, m'.HasTable i ↔ m.HasTable i ∨ i = p / 1024
  mapped : ∀ q, UserPage q → (m'.Mapped q ↔ m.Mapped q ∨ q = p)
  kept : ∀ q, UserPage q → m.Mapped q → m'.dataFrame q = m.dataFrame q
  others : ∀ i, i ≠ p / 1024 → m'.entries i = m.entries i
  count : m'.frames.count + m.cost p = m.frames.count

namespace Owned

variable (h : Owned kernel refs m) {p : Nat}
include h

/-- The page table for a page: it is there, or it is made, or no frame is
left. -/
theorem userTable_eq {i : Nat} (hi : i < userEnd) :
    ((∃ e, m.userTable i = .error e) ∧ ¬ m.HasTable i ∧ m.frames.count = 0) ∨
      ∃ m', m.userTable i = .ok m' ∧ Owned kernel refs m' ∧
        (∀ j, m'.HasTable j ↔ m.HasTable j ∨ j = i) ∧ SamePages m m' ∧
        (∀ j, j ≠ i → m'.entries j = m.entries j) ∧
        m'.frames.count + (if m.HasTable i then 0 else 1) = m.frames.count := by
  unfold userTable
  by_cases ht : m.HasTable i
  · rw [if_neg (by rw [show isTable (m.entries i) = true from ht]; decide)]
    have hentry : ∀ j, (m.setEntry i (m.entries i ||| flagUser)).entries j
        = if j = i then m.entries i ||| flagUser else m.entries j := by
      intro j
      show update m.entries i _ j = _
      rw [update_apply]
    have hsame : ∀ j, isTable ((m.setEntry i (m.entries i ||| flagUser)).entries j)
          = isTable (m.entries j) ∧
        frameOf ((m.setEntry i (m.entries i ||| flagUser)).entries j) = frameOf (m.entries j) := by
      intro j
      rw [hentry]
      by_cases hj : j = i
      · rw [if_pos hj, hj]
        exact ⟨isTable_or_user _, frameOf_or (by decide)⟩
      · rw [if_neg hj]
        exact ⟨rfl, rfl⟩
    have hpte : ∀ p, (m.setEntry i (m.entries i ||| flagUser)).pte p = m.pte p := by
      intro p
      show get32 _ (m.phys (frameOf _)) = get32 _ (m.phys (frameOf _))
      rw [(hsame _).2]
    have hhas : ∀ j, (m.setEntry i (m.entries i ||| flagUser)).HasTable j ↔ m.HasTable j := by
      intro j
      unfold HasTable
      rw [(hsame j).1]
    obtain ⟨howned, hpages⟩ := h.congr (m.setEntry i (m.entries i ||| flagUser))
      (fun j _ => ⟨propext (hhas j), (hsame j).2⟩)
      (fun p _ _ => by unfold dataFrame; rw [hpte]; exact ⟨rfl, rfl⟩) rfl
    refine .inr ⟨_, rfl, howned, fun j => ?_, hpages, fun j hj => ?_, ?_⟩
    · rw [hhas]
      exact ⟨.inl, fun hor => hor.elim id fun heq => heq ▸ ht⟩
    · rw [hentry, if_neg hj]
    · rw [if_pos ht]
      rfl
  · rw [if_pos (by rw [← Bool.not_eq_true]; exact ht)]
    rcases h.allocFrame_eq with ⟨⟨e, herror⟩, hzero⟩ | ⟨f, frames, hok, htakes⟩
    · rw [herror]
      exact .inl ⟨⟨e, rfl⟩, ht, hzero⟩
    rw [hok]
    obtain ⟨howned, hhas, hpages, -⟩ := h.newTable
      (({ m with frames }.setEntry i (entry f tableFlags)).setFrame f fun _ => 0)
      htakes hi ht (fun j => update_apply _ _ _ _) (fun g => update_apply _ _ _ _)
      rfl
    refine .inr ⟨_, rfl, howned, hhas, hpages, fun j hj => update_of_ne hj _ _, ?_⟩
    rw [if_neg ht]
    exact htakes.count

/-- `alloc_and_map_user_page` of a user page: it takes the frames that it needs,
and fails only if there are not enough. -/
theorem allocAndMapUserPage_eq (hp : UserPage p) :
    ((∃ e, m.allocAndMapUserPage (4096 * p) = .error e) ∧ m.frames.count < m.cost p) ∨
      ∃ m', m.allocAndMapUserPage (4096 * p) = .ok m' ∧ MapsPage kernel refs m m' p := by
  unfold allocAndMapUserPage
  simp only [Nat.mul_div_cancel_left p (show 0 < 4096 by decide)]
  rcases h.userTable_eq hp with ⟨⟨e, herror⟩, hnone, hzero⟩ |
    ⟨m₁, hok, h₁, htable₁, hpages₁, hentries₁, hcount₁⟩
  · rw [herror]
    refine .inl ⟨⟨e, rfl⟩, ?_⟩
    unfold cost
    rw [if_neg hnone]
    omega
  rw [hok, ok_bind]
  have ht₁ : m₁.HasTable (p / 1024) := (htable₁ _).2 (.inr rfl)
  have hpte : present (m₁.pteOf (m₁.entries (p / 1024)) (p % 1024)) = true ↔ m.Mapped p := by
    rw [← (hpages₁ p hp).1]
    exact (and_iff_right ht₁).symm
  by_cases hm : m.Mapped p
  · rw [if_pos (hpte.2 hm)]
    obtain ⟨howned, hpages⟩ := h₁.setFlags hp ((hpages₁ p hp).1.2 hm)
      (by rw [present_or_user]; exact hpte.2 hm)
      (frameOf_or (by decide)) rfl
    refine .inr ⟨_, rfl, howned, htable₁, fun q hq => ?_, fun q hq hmq => ?_, hentries₁, ?_⟩
    · refine (hpages q hq).1.trans ((hpages₁ q hq).1.trans ?_)
      exact ⟨.inl, fun hor => hor.elim id fun heq => heq ▸ hm⟩
    · exact ((hpages q hq).2 ((hpages₁ q hq).1.2 hmq)).trans ((hpages₁ q hq).2 hmq)
    unfold cost
    rw [if_pos hm]
    exact hcount₁
  · rw [if_neg fun hpres => hm (hpte.1 hpres)]
    unfold cost
    rw [if_neg hm]
    rcases h₁.allocFrame_eq with ⟨⟨e, herror⟩, hzero⟩ | ⟨f, frames, hok', htakes⟩
    · rw [herror]
      exact .inl ⟨⟨e, rfl⟩, by omega⟩
    rw [hok', ok_bind]
    have hm₁ : ¬ m₁.Mapped p := fun hmp => hm ((hpages₁ p hp).1.1 hmp)
    obtain ⟨m₂, hm₂⟩ : ∃ m₂, m₂ = { m₁ with frames }.setFrame f fun _ => 0 := ⟨_, rfl⟩
    obtain ⟨h₂, huse, hempty, hpages₂⟩ := h₁.takeFrame htakes hm₂
    have ht₂ : m₂.HasTable (p / 1024) := by
      rw [hm₂]
      exact ht₁
    have hroom : (m₂.pagesAt f).card + 1 ≤ max 1 (refs f) := by
      rw [hempty]
      exact Nat.le_max_left _ _
    obtain ⟨howned, hpages⟩ := h₂.mapFrame hp ht₂ (fun hmp => hm₁ ((hpages₂ p hp).1.1 hmp))
      (h₁.good.lt htakes.avail) huse hroom rfl
    rw [← hm₂, show m₁.entries = m₂.entries by rw [hm₂]; rfl]
    refine .inr ⟨_, rfl, howned, ?_, fun q hq => ?_, fun q hq hmq => ?_, ?_, ?_⟩
    · rw [hm₂]
      exact htable₁
    · exact (hpages q hq).1.trans
        (or_congr_left ((hpages₂ q hq).1.trans (hpages₁ q hq).1))
    · have hmq₁ := (hpages₁ q hq).1.2 hmq
      have hmq₂ := (hpages₂ q hq).1.2 hmq₁
      exact ((hpages q hq).2 hmq₂).trans
        (((hpages₂ q hq).2 hmq₁).trans ((hpages₁ q hq).2 hmq))
    · rw [hm₂]
      exact hentries₁
    have hcount := htakes.count
    unfold cost
    rw [if_neg hm, hm₂]
    show frames.count + _ = _
    omega

theorem writeData (hp : UserPage p) (hm : m.Mapped p) (bytes : Bytes) :
    Owned kernel refs (m.setFrame (m.dataFrame p) bytes) ∧
      ∀ q, UserPage q → ((m.setFrame (m.dataFrame p) bytes).Mapped q ↔ m.Mapped q) := by
  have htables := (h.data p hp hm).noTable
  obtain ⟨howned, hsame⟩ := h.congr (m.setFrame (m.dataFrame p) bytes) (fun i _ => ⟨rfl, rfl⟩)
    (fun q hq ht => by
      have hpte := pte_setFrame bytes hq ht htables
      exact ⟨congrArg present hpte, congrArg frameOf hpte⟩) rfl
  exact ⟨howned, fun q hq => (hsame q hq).1⟩

theorem setUserPageWritable (hp : UserPage p) (writable : Bool) :
    Owned kernel refs (m.setUserPageWritable (4096 * p) writable) ∧
      ∀ q, UserPage q →
        ((m.setUserPageWritable (4096 * p) writable).Mapped q ↔ m.Mapped q) := by
  unfold Machine.setUserPageWritable
  simp only [Nat.mul_div_cancel_left p (show 0 < 4096 by decide)]
  split
  · exact ⟨h, fun _ _ => Iff.rfl⟩
  rename_i htable
  split
  · exact ⟨h, fun _ _ => Iff.rfl⟩
  rename_i hpresent
  have hm : m.Mapped p := ⟨eq_true_of_ne_false htable, eq_true_of_ne_false hpresent⟩
  split
  · have hset := h.setFlags hp hm ((present_or_writable _).trans hm.2) (frameOf_or (by decide)) rfl
    exact ⟨hset.1, fun q hq => (hset.2 q hq).1⟩
  have hset := h.setFlags hp hm ((present_and_not_writable _).trans hm.2)
    (frameOf_and_not_writable _) rfl
  exact ⟨hset.1, fun q hq => (hset.2 q hq).1⟩

end Owned

/-! ## The pages that are mapped -/

/-- The pages of the user part that are mapped are those of `S`. -/
structure Maps (kernel : Nat → Prop) (refs : Nat → Nat) (S : Nat → Prop) (m : Machine) :
    Prop where
  owned : Owned kernel refs m
  mapped : ∀ p, UserPage p → (m.Mapped p ↔ S p)

/-- The number of frames that it takes to map a set of pages. -/
def framesFor (m : Machine) (pages : Finset Nat) : Nat :=
  (pages.filter fun p => ¬ m.Mapped p).card
    + ((pages.image (· / 1024)).filter fun i => ¬ m.HasTable i).card

theorem card_filter_insert {P : Nat → Prop} [DecidablePred P] (a : Nat) (s : Finset Nat) :
    ((insert a s).filter P).card
      = (if P a then 1 else 0) + (s.filter fun b => P b ∧ b ≠ a).card := by
  have herase : (s.filter fun b => P b ∧ b ≠ a) = ((insert a s).filter P).erase a := by
    ext b
    simp only [mem_filter, mem_erase, mem_insert]
    tauto
  rw [herase]
  by_cases ha : P a
  · have hmem : a ∈ (insert a s).filter P := mem_filter.2 ⟨mem_insert_self a s, ha⟩
    rw [if_pos ha, Nat.add_comm, card_erase_add_one hmem]
  · have hmem : a ∉ (insert a s).filter P := fun hmem => ha (mem_filter.1 hmem).2
    rw [if_neg ha, Nat.zero_add, erase_eq_of_notMem hmem]

theorem framesFor_le : m.framesFor pages ≤ 2 * pages.card := by
  have hdata := card_filter_le pages fun p => ¬ m.Mapped p
  have htables := card_filter_le (pages.image (· / 1024)) fun i => ¬ m.HasTable i
  have himage := card_image_le (s := pages) (f := (· / 1024))
  unfold framesFor
  omega

theorem cost_le_framesFor : m.cost p ≤ m.framesFor (insert p pages) := by
  unfold framesFor cost
  rw [image_insert, card_filter_insert, card_filter_insert]
  simp only [ite_not]
  omega

/-- What it takes to map one page and then others. -/
theorem MapsPage.framesFor_insert {pages : Finset Nat}
    (hm : MapsPage kernel refs m m' p) (hpages : ∀ q ∈ pages, UserPage q) :
    m.framesFor (insert p pages) = m.cost p + m'.framesFor pages := by
  unfold framesFor cost
  rw [image_insert, card_filter_insert, card_filter_insert]
  have hdata : (pages.filter fun q => ¬ m.Mapped q ∧ q ≠ p)
      = pages.filter fun q => ¬ m'.Mapped q := by
    refine filter_congr fun q hq => ?_
    rw [hm.mapped q (hpages q hq), not_or]
  have htable : ((pages.image (· / 1024)).filter fun i => ¬ m.HasTable i ∧ i ≠ p / 1024)
      = (pages.image (· / 1024)).filter fun i => ¬ m'.HasTable i := by
    refine filter_congr fun i _ => ?_
    rw [hm.table i, not_or]
  rw [hdata, htable]
  simp only [ite_not]
  omega

/-! ## A new address space -/

/-- The frame is a page table of the kernel. -/
def KernelTable (kernelPd : Nat → UInt32) (f : Nat) : Prop :=
  ∃ i, i < 1024 ∧ isTable (kernelPd i) = true ∧ frameOf (kernelPd i) = f

/-- A directory with nothing but the mappings of the kernel has no page table of
its own. -/
theorem owned_copyKernelMappings {kernelPd : Nat → UInt32} {n : Nat} {pdPhys : UInt32}
    (hlarge : ∀ i, i < n → isTable (kernelPd i) = false) (hgood : m.frames.Good)
    (hstack : ∀ f, m.frames.liveStack f = true → kernel f)
    (hfree : ∀ f, m.frames.Avail f → ¬ kernel f ∧ refs f = 0)
    (hcached : ∀ f, 0 < refs f → ¬ kernel f)
    (hentries : m.entries = copyKernelMappings kernelPd n pdPhys fun _ => 0) :
    Owned kernel refs m := by
  have hnone : ∀ i, i < userEnd → ¬ m.HasTable i := by
    intro i hi
    unfold userEnd at hi
    rw [HasTable, hentries, copyKernelMappings, if_neg (by omega)]
    split
    · rw [hlarge i (by omega)]
      decide
    · decide
  refine ⟨hgood, hstack, hfree, hcached, fun i hi ht => ?_, fun i j hi hj hti => ?_,
    fun p hp hm => ?_, fun f => ?_⟩
  · exact absurd ht (hnone i hi)
  · exact absurd hti (hnone i hi)
  · exact absurd hm.1 (hnone _ hp)
  · have hempty : m.pagesAt f = ∅ := by
      refine eq_empty_of_forall_notMem fun p hp => ?_
      obtain ⟨huser, hm, _⟩ := mem_pagesAt.1 hp
      exact hnone _ huser hm.1
    rw [hempty]
    exact Nat.zero_le _

end Machine

end Felix.Memory
