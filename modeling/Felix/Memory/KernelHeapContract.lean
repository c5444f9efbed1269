import Felix.Base.Runs
import Felix.Memory.KernelHeap

/-!
# The contract of the kernel heap

Runs of `alloc` and `dealloc` of the kernel heap, in which the owners of the blocks
write to them as they like.  `HeapLedger` is the heap with the blocks that are in
use.

The free list and the blocks in use are apart from each other in every state, and
every block is aligned and within the heap.  What can go wrong is the arithmetic
before the check against `HEAP_END`: a request near the size of the address space
overflows it.  `kernel_heap_contract_iff` says that this is the only thing.

Memory gets lost, too: a small rest of a free block is dropped, and so are the bytes
before an aligned block.  `heap_conserved_iff` says that nothing else is.
-/

namespace Felix.Memory

open Bytes FreeList Res List

namespace Layout

/-- The alignment that is used. -/
def usedAlign (layout : Layout) : Nat := max layout.align KernelHeap.headerAlign

/-- The size that is used. -/
def usedSize (layout : Layout) : Nat :=
  (max layout.size KernelHeap.headerSize + (layout.usedAlign - 1)) / layout.usedAlign *
    layout.usedAlign

variable (layout : Layout)

/-- Of two powers of two, the smaller one divides the other. -/
theorem dvd_usedAlign :
    layout.align ∣ layout.usedAlign ∧ KernelHeap.headerAlign ∣ layout.usedAlign := by
  obtain ⟨k, hk⟩ := layout.power
  have hheader : KernelHeap.headerAlign = 2 ^ 2 := rfl
  unfold usedAlign
  rw [hk, hheader]
  rcases Nat.le_total k 2 with hle | hle
  · rw [Nat.max_eq_right (Nat.pow_le_pow_right (by omega) hle)]
    exact ⟨Nat.pow_dvd_pow 2 hle, Nat.dvd_refl _⟩
  · rw [Nat.max_eq_left (Nat.pow_le_pow_right (by omega) hle)]
    exact ⟨Nat.dvd_refl _, Nat.pow_dvd_pow 2 hle⟩

theorem usedAlign_dvd_usedSize : layout.usedAlign ∣ layout.usedSize := Nat.dvd_mul_left _ _

theorem usedAlign_bounds : 4 ≤ layout.usedAlign ∧ layout.usedAlign ≤ 2 ^ 31 := by
  have hfits := layout.fits
  unfold usedAlign KernelHeap.headerAlign
  omega

theorem usedSize_bounds : layout.size ≤ layout.usedSize ∧ 8 ≤ layout.usedSize ∧
    layout.usedSize < 2 ^ 32 := by
  have hfits := layout.fits
  have halign := layout.usedAlign_bounds
  have hround := roundUp_bounds (show 0 < layout.usedAlign by omega)
    (max layout.size KernelHeap.headerSize)
  unfold usedSize
  unfold KernelHeap.headerSize at hround ⊢
  omega

end Layout

namespace KernelHeap

theorem alignUp_eq {addr align : Nat} (hpos : 0 < align) (h : addr + align < 2 ^ 32) :
    alignUp addr align = .ok ((addr + (align - 1)) / align * align) := by
  unfold alignUp
  rw [addW_ok h, ok_bind, subW_ok (by omega), ok_bind,
    show addr + align - 1 = addr + (align - 1) by omega]

theorem adjustLayout_eq (layout : Layout) :
    adjustLayout layout = .ok (layout.usedSize, layout.usedAlign) := by
  have hfits := layout.fits
  have halign := layout.usedAlign_bounds
  have hsum : max layout.size headerSize + layout.usedAlign < 2 ^ 32 := by
    unfold Layout.usedAlign headerAlign headerSize
    omega
  unfold adjustLayout
  dsimp only
  rw [show max layout.align headerAlign = layout.usedAlign from rfl, alignUp_eq (by omega) hsum]
  rfl

/-! ## Allocation -/

/-- The block `ptr` was taken from the free list or from the unused memory. -/
structure Allocates (h : KernelHeap) (free : List (Nat × Nat)) (size align ptr : Nat)
    (h' : KernelHeap) (free' : List (Nat × Nat)) : Prop where
  holds : Holds heapStart h'.bumpNext h'.list free'
  bump : h.bumpNext ≤ h'.bumpNext ∧ h'.bumpNext ≤ heapEnd
  dvd : align ∣ ptr
  within : Within headerAlign heapStart h'.bumpNext (ptr, size)
  source : ∀ x, ptr ≤ x → x < ptr + size → Covered free x ∨ h.bumpNext ≤ x
  left : ∀ x, Covered free' x → Covered free x ∧ ¬ (ptr ≤ x ∧ x < ptr + size)

/-- A heap in order, with the blocks of its free list. -/
structure Good (h : KernelHeap) (free : List (Nat × Nat)) : Prop where
  holds : Holds heapStart h.bumpNext h.list free
  lower : heapStart ≤ h.bumpNext
  upper : h.bumpNext ≤ heapEnd

variable {h : KernelHeap} {free : List (Nat × Nat)}

theorem Good.limits (hgood : Good h free) : Limits heapStart h.bumpNext where
  lower := by decide
  upper := Nat.lt_of_le_of_lt hgood.upper (by decide)
  span := by
    have hupper := hgood.upper
    unfold heapStart
    unfold heapEnd at hupper
    omega

/-- The addresses that the bump allocation computes stay below the end of the
address space. -/
def NoWrap (h : KernelHeap) (layout : Layout) : Prop :=
  h.bumpNext + layout.usedAlign < 2 ^ 32 ∧
    (h.bumpNext + (layout.usedAlign - 1)) / layout.usedAlign * layout.usedAlign +
      layout.usedSize < 2 ^ 32
  deriving Decidable

variable {b : Nat × Nat} {layout : Layout}

theorem Seg.nextAt_eq {m : Bytes} {head : Nat} {pre post : List (Nat × Nat)}
    (hseg : Seg m head (pre ++ b :: post) 0) : nextAt m b.1 = firstOf post := by
  obtain ⟨_, _, _, _, _, hpost⟩ := seg_append.1 hseg
  exact hpost.head_eq

theorem takeBlock_eq {lo hi : Nat} (hlimits : Limits lo hi) {l : Linked}
    {pre post : List (Nat × Nat)} (hl : Holds lo hi l (pre ++ b :: post))
    {size : Nat} (hunit : headerAlign ∣ size) (hsize : size ≤ b.2) :
    ∃ l' free', takeBlock l (lastOf 0 pre) b.1 size = .ok l' ∧ Holds lo hi l' free' ∧
      ∀ x, Covered free' x ↔ Covered (pre ++ b :: post) x ∧ ¬ (b.1 ≤ x ∧ x < b.1 + size) ∧
        (headerSize * 2 < b.2 - size ∨ ¬ (b.1 ≤ x ∧ x < b.1 + b.2)) := by
  have hb := hl.ordered.within b (by simp)
  have hblocks : Ordered headerAlign lo hi (pre ++ post) :=
    hl.ordered.sublist ((List.Sublist.refl pre).append (sublist_cons_self b post))
  obtain ⟨mid, hpre, rfl, hpos, hbsize, hpost⟩ := seg_append.1 hl.seg
  have hnext := Seg.nextAt_eq hl.seg
  have hfirst : firstOf post < 2 ^ 32 :=
    firstOf_lt (hblocks.sublist (sublist_append_right _ _)) hlimits.upper
  obtain ⟨hlinked, hsame⟩ := seg_link hpre (hblocks.sublist (sublist_append_left _ _)) hfirst
  have hapart : ∀ c ∈ pre ++ post, c.1 + c.2 ≤ b.1 ∨ b.1 + b.2 ≤ c.1 := by
    obtain ⟨-, hsorted, hcross⟩ := pairwise_append.1 hl.ordered.sorted
    intro c hc
    rcases mem_append.1 hc with hc | hc
    · exact .inl (hcross c hc b mem_cons_self)
    · exact .inr ((pairwise_cons.1 hsorted).1 c hc)
  unfold takeBlock
  dsimp only
  rw [hbsize, hnext, subW_ok hsize, ok_bind]
  generalize l.link (lastOf 0 pre) (firstOf post) = l₁ at hlinked hsame
  have hholds : Holds lo hi l₁ (pre ++ post) := by
    refine ⟨seg_append.2 ⟨firstOf post, hlinked, ?_⟩, hblocks⟩
    rw [← hnext]
    refine hpost.congr fun c hc => hsame c.1 fun q hq => ?_
    have hcross := (pairwise_append.1 hblocks.sorted).2.2 q hq c hc
    have hqroom := hblocks.room q (mem_append_left _ hq)
    omega
  have hrest : ∀ x, Covered (pre ++ post) x → ¬ (b.1 ≤ x ∧ x < b.1 + b.2) := by
    rintro x ⟨c, hc, hcx⟩
    have hcb := hapart c hc
    omega
  by_cases hremaining : headerSize * 2 < b.2 - size
  · rw [if_pos hremaining]
    have hupper := hb.upper
    have hlower := hb.lower
    unfold headerSize at hremaining
    have hwithin : Within headerAlign lo hi (b.1 + size, b.2 - size) :=
      ⟨Nat.dvd_add hb.start hunit, Nat.dvd_sub hb.length hunit, by simp only; omega,
        by simp only; omega⟩
    have hfree : ∀ c ∈ pre ++ post, Apart (b.1 + size, b.2 - size) c := by
      intro c hc
      have hcb := hapart c hc
      unfold Apart
      omega
    obtain ⟨l', free', hrun, hholds', hcovered⟩ :=
      addFreeBlock_eq hlimits hholds (by omega) hwithin hfree
    refine ⟨l', free', hrun, hholds', fun x => ?_⟩
    have hx := hrest x
    rw [hcovered, covered_insert]
    unfold headerSize
    grind
  · rw [if_neg hremaining]
    refine ⟨l₁, pre ++ post, rfl, hholds, fun x => ?_⟩
    have hx := hrest x
    rw [covered_insert]
    grind

/-- A request is met by a block of the free list or by the memory behind all blocks. -/
def Roomy (h : KernelHeap) (free : List (Nat × Nat)) (layout : Layout) : Prop :=
  (∃ b ∈ free, layout.usedSize ≤ b.2 ∧ b.1 % layout.usedAlign = 0) ∨
    (h.bumpNext + (layout.usedAlign - 1)) / layout.usedAlign * layout.usedAlign +
      layout.usedSize ≤ heapEnd

/-- A request that the heap can meet is small. -/
theorem Good.noWrap (hgood : Good h free) (hroom : Roomy h free layout) : NoWrap h layout := by
  have hend := hgood.upper
  have halign := Nat.le_of_dvd (by have := layout.usedSize_bounds; omega)
    layout.usedAlign_dvd_usedSize
  have hround := roundUp_bounds (show 0 < layout.usedAlign by
    have := layout.usedAlign_bounds; omega) h.bumpNext
  unfold heapEnd at hend
  unfold NoWrap
  rcases hroom with ⟨b, hb, hsize, -⟩ | hroom
  · have hwithin := hgood.holds.ordered.within b hb
    have hlower := hwithin.lower
    have hupper := hwithin.upper
    unfold heapStart at hlower
    omega
  · unfold heapEnd at hroom
    omega

/-- What was free, or was not used before, is in the new block or still free. -/
def Keeps (h : KernelHeap) (free : List (Nat × Nat)) (size ptr : Nat) (h' : KernelHeap)
    (free' : List (Nat × Nat)) : Prop :=
  ∀ x, x < h'.bumpNext → Covered free x ∨ h.bumpNext ≤ x →
    (ptr ≤ x ∧ x < ptr + size) ∨ Covered free' x

/-- The first block that fits is used up or its rest is kept, and a block behind all blocks
starts right there. -/
def Thrifty (h : KernelHeap) (free : List (Nat × Nat)) (layout : Layout) : Prop :=
  match free.find? (blockFits layout.usedSize layout.usedAlign) with
  | some b => b.2 = layout.usedSize ∨ layout.usedSize + headerSize * 2 < b.2
  | none => layout.usedAlign ∣ h.bumpNext

theorem bumpBlock_overflow (hwrap : ¬ NoWrap h layout) :
    h.bumpBlock layout.usedSize layout.usedAlign = .error .overflow := by
  have halign := layout.usedAlign_bounds
  unfold bumpBlock
  by_cases hsum : h.bumpNext + layout.usedAlign < 2 ^ 32
  · rw [alignUp_eq (by omega) hsum, ok_bind]
    rw [show addW 32 _ layout.usedSize = .error .overflow from
      if_neg fun hlt => hwrap ⟨hsum, hlt⟩, error_bind]
  unfold alignUp
  rw [show addW 32 h.bumpNext layout.usedAlign = .error .overflow from if_neg hsum,
    error_bind, error_bind]

variable (hgood : Good h free)
include hgood

theorem bumpBlock_eq (hend : (h.bumpNext + (layout.usedAlign - 1)) / layout.usedAlign *
      layout.usedAlign + layout.usedSize ≤ heapEnd) :
    ∃ ptr h', h.bumpBlock layout.usedSize layout.usedAlign = .ok (ptr, h') ∧ ptr ≠ 0 ∧
      Allocates h free layout.usedSize layout.usedAlign ptr h' free ∧
      (Keeps h free layout.usedSize ptr h' free ↔ layout.usedAlign ∣ h.bumpNext) := by
  obtain ⟨hsum, hnext⟩ := hgood.noWrap (.inr hend)
  have halign := layout.usedAlign_bounds
  have hsize := layout.usedSize_bounds
  have hlower := hgood.lower
  obtain ⟨hup, hdown⟩ := roundUp_bounds (show 0 < layout.usedAlign by omega) h.bumpNext
  have hdvd : layout.usedAlign ∣
      (h.bumpNext + (layout.usedAlign - 1)) / layout.usedAlign * layout.usedAlign :=
    Nat.dvd_mul_left _ _
  have hfree : ∀ x, Covered free x → x < h.bumpNext := by
    rintro x ⟨b, hb, hbx⟩
    have := (hgood.holds.ordered.within b hb).upper
    omega
  unfold bumpBlock
  rw [alignUp_eq (by omega) hsum, ok_bind, addW_ok hnext, ok_bind, if_neg (Nat.not_lt.2 hend)]
  generalize (h.bumpNext + (layout.usedAlign - 1)) / layout.usedAlign * layout.usedAlign
    = aligned at hup hdown hdvd hend
  have hpos : 0 < heapStart := by decide
  refine ⟨aligned, _, rfl, by omega, ⟨?_, ⟨?_, hend⟩, hdvd, ?_, ?_, ?_⟩, ?_, ?_⟩
  · refine ⟨hgood.holds.seg, hgood.holds.ordered.sorted, hgood.holds.ordered.room, fun b hb => ?_⟩
    have hb := hgood.holds.ordered.within b hb
    have := hb.upper
    exact ⟨hb.start, hb.length, hb.lower, by simp only; omega⟩
  · simp only
    omega
  · exact ⟨layout.dvd_usedAlign.2.trans hdvd,
      layout.dvd_usedAlign.2.trans layout.usedAlign_dvd_usedSize, by simp only; omega,
      by simp only; omega⟩
  · intro x hx _
    exact .inr (by omega)
  · intro x hx
    have := hfree x hx
    exact ⟨hx, by omega⟩
  · intro hkeeps
    -- The first unused byte is in the block.
    rcases hkeeps h.bumpNext (by simp only; omega) (.inr (Nat.le_refl _)) with hblock | hx
    · rwa [show h.bumpNext = aligned by omega]
    · exact absurd (hfree _ hx) (Nat.lt_irrefl _)
  · intro hstart x hx hin
    have hzero := Nat.eq_zero_of_dvd_of_lt (Nat.dvd_sub hdvd hstart) (by omega)
    exact hin.symm.imp_left fun hge => ⟨by omega, hx⟩

theorem allocInner_of_find
    (hfind : free.find? (blockFits layout.usedSize layout.usedAlign) = some b) :
    ∃ h' free', h.allocInner layout = .ok (b.1, h') ∧ b.1 ≠ 0 ∧
      Allocates h free layout.usedSize layout.usedAlign b.1 h' free' ∧
      (Keeps h free layout.usedSize b.1 h' free' ↔
        b.2 = layout.usedSize ∨ layout.usedSize + headerSize * 2 < b.2) := by
  have hlen := hgood.holds.length_lt hgood.limits
  obtain ⟨hfits, pre, post, rfl, hpre⟩ := find?_eq_some_iff_append.1 hfind
  have hfirst : layout.usedSize ≤ b.2 ∧ b.1 % layout.usedAlign = 0 := of_decide_eq_true hfits
  have hin : b ∈ pre ++ b :: post := by simp
  have hwithin := hgood.holds.ordered.within b hin
  have hunit := layout.dvd_usedAlign.2.trans layout.usedAlign_dvd_usedSize
  have hpos : 0 < heapStart := by decide
  have hlower := hwithin.lower
  have hupper := hwithin.upper
  obtain ⟨l', free', hrun, hholds, hleft⟩ :=
    takeBlock_eq hgood.limits hgood.holds hunit hfirst.1
  unfold allocInner
  rw [adjustLayout_eq, ok_bind]
  dsimp only
  rw [advance_eq _ hgood.holds.seg hlen, ok_bind, takeWhile_append_of_pos hpre,
    dropWhile_append_of_pos hpre, takeWhile_cons_of_neg (by simp [hfits]),
    dropWhile_cons_of_neg (by simp [hfits]), append_nil,
    show firstOf (b :: post) = b.1 from rfl, if_pos (by omega), hrun]
  refine ⟨_, free', rfl, by omega, ⟨hholds, ⟨Nat.le_refl _, hgood.upper⟩,
    Nat.dvd_of_mod_eq_zero hfirst.2, ?_, ?_,
    fun x hx => ⟨((hleft x).1 hx).1, ((hleft x).1 hx).2.1⟩⟩, fun hkeeps => ?_,
    fun hrest x hx hin' => ?_⟩
  · exact ⟨hwithin.start, hunit, hlower, by simp only; omega⟩
  · intro x hx hx'
    exact .inl ⟨b, hin, hx, by omega⟩
  · by_contra hlost
    -- The first byte of the rest is in no block.
    have hbyte := hkeeps (b.1 + layout.usedSize) (by simp only; omega)
      (.inl ⟨b, hin, by omega, by omega⟩)
    rw [hleft] at hbyte
    omega
  · rw [hleft]
    have hfree := hin'.resolve_right (Nat.not_le.2 hx)
    by_cases hblock : b.1 ≤ x ∧ x < b.1 + layout.usedSize
    · exact .inl hblock
    · exact .inr ⟨hfree, hblock, by omega⟩

theorem allocInner_of_no_fit
    (hnone : free.find? (blockFits layout.usedSize layout.usedAlign) = none) :
    h.allocInner layout = h.bumpBlock layout.usedSize layout.usedAlign := by
  have hlen := hgood.holds.length_lt hgood.limits
  have hdrop : free.dropWhile (fun b => !blockFits layout.usedSize layout.usedAlign b) = [] :=
    dropWhile_eq_nil_iff.2 fun b hb => by simpa using find?_eq_none.1 hnone b hb
  unfold allocInner
  rw [adjustLayout_eq, ok_bind]
  dsimp only
  rw [advance_eq _ hgood.holds.seg hlen, ok_bind, hdrop]
  exact if_neg fun hne => hne rfl

/-- A request takes a block, or it overflows or finds no memory. -/
theorem allocInner_cases (layout : Layout) :
    (¬ Roomy h free layout ∧ (¬ NoWrap h layout ∧ h.allocInner layout = .error .overflow ∨
        NoWrap h layout ∧ h.allocInner layout = .ok (0, h))) ∨
      Roomy h free layout ∧ ∃ ptr h' free', h.allocInner layout = .ok (ptr, h') ∧ ptr ≠ 0 ∧
        Allocates h free layout.usedSize layout.usedAlign ptr h' free' ∧
        (Keeps h free layout.usedSize ptr h' free' ↔ Thrifty h free layout) := by
  have hfits : ∀ b, blockFits layout.usedSize layout.usedAlign b = true ↔
      layout.usedSize ≤ b.2 ∧ b.1 % layout.usedAlign = 0 := fun b => decide_eq_true_iff
  unfold Thrifty
  cases hfind : free.find? (blockFits layout.usedSize layout.usedAlign) with
  | some b =>
    have hb := find?_some hfind
    obtain ⟨h', free', hgets⟩ := allocInner_of_find hgood hfind
    exact .inr ⟨.inl ⟨b, mem_of_find?_eq_some hfind, (hfits b).1 hb⟩, b.1, h', free', hgets⟩
  | none =>
    rw [allocInner_of_no_fit hgood hfind]
    by_cases hend : (h.bumpNext + (layout.usedAlign - 1)) / layout.usedAlign * layout.usedAlign +
        layout.usedSize ≤ heapEnd
    · obtain ⟨ptr, h', hgets⟩ := bumpBlock_eq hgood hend
      exact .inr ⟨.inr hend, ptr, h', free, hgets⟩
    refine .inl ⟨?_, ?_⟩
    · rintro (⟨b, hb, hfit⟩ | hroom)
      · exact find?_eq_none.1 hfind b hb ((hfits b).2 hfit)
      · exact hend hroom
    by_cases hwrap : NoWrap h layout
    · have halign := layout.usedAlign_bounds
      rw [bumpBlock, alignUp_eq (by omega) hwrap.1, ok_bind, addW_ok hwrap.2, ok_bind,
        if_pos (Nat.not_le.1 hend)]
      exact .inr ⟨hwrap, rfl⟩
    · exact .inl ⟨hwrap, bumpBlock_overflow hwrap⟩

theorem dealloc_eq {ptr : Nat}
    (hwithin : Within headerAlign heapStart h.bumpNext (ptr, layout.usedSize))
    (hapart : ∀ b ∈ free, Apart (ptr, layout.usedSize) b) :
    ∃ h' free', h.dealloc ptr layout = .ok h' ∧ Good h' free' ∧ h'.bumpNext = h.bumpNext ∧
      ∀ x, Covered free' x ↔ (ptr ≤ x ∧ x < ptr + layout.usedSize) ∨ Covered free x := by
  have hpos : 0 < heapStart := by decide
  have hlower := hwithin.lower
  obtain ⟨l', free', hrun, hholds, hcovered⟩ :=
    addFreeBlock_eq hgood.limits hgood.holds layout.usedSize_bounds.2.1 hwithin hapart
  unfold dealloc
  rw [if_neg (by omega), adjustLayout_eq, ok_bind]
  dsimp only
  rw [hrun]
  exact ⟨_, free', rfl, ⟨hholds, hgood.lower, hgood.upper⟩, rfl, hcovered⟩

end KernelHeap

/-! ## Runs -/

/-- A call of the heap, or a write of the owner of a block. -/
inductive HeapOp where
  | alloc (layout : Layout)
  | dealloc (ptr : Nat) (layout : Layout)
  | write (addr : Nat) (value : UInt8)

/-- The heap and the blocks that are in use. -/
structure HeapLedger where
  heap : KernelHeap
  live : List (Nat × Layout)

/-- The range of a block that is in use. -/
def rangeOf (b : Nat × Layout) : Nat × Nat := (b.1, b.2.usedSize)

namespace HeapLedger

/-- The ranges of the blocks that are in use. -/
def ranges (s : HeapLedger) : List (Nat × Nat) := s.live.map rangeOf

/-- The blocks on the free list. -/
def freeBlocks (s : HeapLedger) : List (Nat × Nat) :=
  s.heap.list.listed KernelHeap.walkFuel s.heap.list.head

/-- No two blocks in use overlap, and none overlaps a block on the free list. -/
structure Separate (s : HeapLedger) : Prop where
  live : s.ranges.Pairwise Apart
  free : ∀ b ∈ s.ranges, ∀ f ∈ s.freeBlocks, Apart b f

end HeapLedger

namespace HeapOp

def run : HeapOp → HeapLedger → Res (Nat × HeapLedger)
  | .alloc layout, s => do
    let (ptr, heap) ← s.heap.allocInner layout
    .ok (ptr, { heap, live := if ptr = 0 then s.live else (ptr, layout) :: s.live })
  | .dealloc ptr layout, s => do
    let heap ← s.heap.dealloc ptr layout
    .ok (0, { heap, live := s.live.erase (ptr, layout) })
  | .write addr value, s =>
    let list := { s.heap.list with mem := put8 addr value s.heap.list.mem }
    .ok (0, { s with heap := { s.heap with list } })

/-- Blocks in use are given back, and their owners write to them. -/
def Matches : HeapOp → HeapLedger → Prop
  | .alloc _, _ => True
  | .dealloc ptr layout, s => (ptr, layout) ∈ s.live
  | .write addr _, s => Covered s.ranges addr

/-- The sums that an allocation computes are no larger than the address space. -/
def InRange : HeapOp → HeapLedger → Prop
  | .alloc layout, s => s.heap.NoWrap layout
  | _, _ => True

/-- What the result of an allocation is: null or an aligned block of the heap. -/
def Returns : HeapOp → Nat → Prop
  | .alloc layout, ptr => ptr = 0 ∨ (KernelHeap.heapStart ≤ ptr ∧
      ptr + layout.size ≤ KernelHeap.heapEnd ∧ layout.align ∣ ptr)
  | _, _ => True

/-- A call neither overflows nor stops otherwise, returns what it should, and leaves
all blocks apart from each other. -/
def Contract (op : HeapOp) (s : HeapLedger) : Prop :=
  ∃ r s', op.run s = .ok (r, s') ∧ op.Returns r ∧ s'.Separate

/-! ## The invariant -/

open KernelHeap

/-- The heap is in order, and the blocks in use are apart from each other and from
the free list. -/
structure Inv (s : HeapLedger) (free : List (Nat × Nat)) : Prop where
  good : s.heap.Good free
  within : ∀ b ∈ s.ranges, Within headerAlign heapStart s.heap.bumpNext b
  apart : s.ranges.Pairwise Apart
  clear : ∀ x, Covered s.ranges x → ¬ Covered free x

variable {s s' : HeapLedger} {free : List (Nat × Nat)} {op : HeapOp}

theorem ranges_pos : ∀ b ∈ s.ranges, 0 < b.2 := by
  intro b hb
  obtain ⟨c, _, rfl⟩ := mem_map.1 hb
  have := c.2.usedSize_bounds
  show 0 < c.2.usedSize
  omega

section

variable (h : Inv s free)

include h

theorem Inv.free_pos : ∀ b ∈ free, 0 < b.2 := fun b hb => by
  have := h.good.holds.ordered.room b hb
  omega

theorem Inv.freeBlocks : s.freeBlocks = free := h.good.holds.listed h.good.limits

theorem Inv.separate : s.Separate where
  live := h.apart
  free b hb := by
    rw [h.freeBlocks, apart_iff_not_covered (ranges_pos b hb) h.free_pos]
    intro x hx hx'
    exact h.clear x ⟨b, hb, hx, hx'⟩

variable {layout : Layout} {ptr : Nat}

theorem Inv.alloc {heap : KernelHeap} {free' : List (Nat × Nat)}
    (halloc : Allocates s.heap free layout.usedSize layout.usedAlign ptr heap free') :
    Inv { heap, live := (ptr, layout) :: s.live } free' := by
  have hnew : ∀ b ∈ s.ranges, Apart (ptr, layout.usedSize) b := by
    rw [apart_iff_not_covered (Nat.lt_of_lt_of_le (by decide) layout.usedSize_bounds.2.1)
      ranges_pos]
    rintro x hx hx' ⟨b, hb, hbx⟩
    rcases halloc.source x hx hx' with hfree | hbump
    · exact h.clear x ⟨b, hb, hbx⟩ hfree
    · have := (h.within b hb).upper
      omega
  refine ⟨⟨halloc.holds, ?_, halloc.bump.2⟩, ?_, pairwise_cons.2 ⟨hnew, h.apart⟩, ?_⟩
  · exact h.good.lower.trans halloc.bump.1
  · refine forall_mem_cons.2 ⟨halloc.within, fun b hb => ?_⟩
    have hb := h.within b hb
    exact ⟨hb.start, hb.length, hb.lower, hb.upper.trans halloc.bump.1⟩
  · intro x hx hfree
    obtain ⟨hold, hout⟩ := halloc.left x hfree
    rcases covered_cons.1 hx with hx | hx
    · exact hout hx
    · exact h.clear x hx hold

theorem Inv.write {addr : Nat} {value : UInt8} (hin : Covered s.ranges addr) :
    Inv { s with heap := { s.heap with list := { s.heap.list with
      mem := put8 addr value s.heap.list.mem } } } free := by
  refine ⟨⟨⟨h.good.holds.seg.congr fun b hb => ?_, h.good.holds.ordered⟩, h.good.lower,
    h.good.upper⟩, h.within, h.apart, h.clear⟩
  -- The byte is not in the header of a free block.
  refine sameHeader_of_bytes fun k hk hk' => ?_
  have hroom := h.good.holds.ordered.room b hb
  have hne : k ≠ addr := by
    rintro rfl
    exact h.clear k hin ⟨b, hb, hk, by omega⟩
  show put8 addr value s.heap.list.mem k = s.heap.list.mem k
  rw [put8_apply, if_neg hne]

theorem Inv.dealloc (hlive : (ptr, layout) ∈ s.live) :
    ∃ heap free', s.heap.dealloc ptr layout = .ok heap ∧
      Inv { heap, live := s.live.erase (ptr, layout) } free' ∧ heap.bumpNext = s.heap.bumpNext ∧
      ∀ x, Covered s.ranges x ∨ Covered free x →
        Covered ((s.live.erase (ptr, layout)).map rangeOf) x ∨ Covered free' x := by
  have hin : (ptr, layout.usedSize) ∈ s.ranges := mem_map.2 ⟨_, hlive, rfl⟩
  have hpos := ranges_pos _ hin
  have hfree : ∀ b ∈ free, Apart (ptr, layout.usedSize) b := by
    rw [apart_iff_not_covered hpos h.free_pos]
    intro x hx hx'
    exact h.clear x ⟨_, hin, hx, hx'⟩
  obtain ⟨heap, free', hrun, hgood, hbump, hcovered⟩ := dealloc_eq h.good (h.within _ hin) hfree
  have hperm : s.ranges.Perm ((ptr, layout.usedSize) ::
      HeapLedger.ranges ⟨heap, s.live.erase (ptr, layout)⟩) :=
    (perm_cons_erase hlive).map rangeOf
  obtain ⟨hfirst, hrest⟩ := pairwise_cons.1 ((pairwise_apart_perm hperm).1 h.apart)
  refine ⟨heap, free', hrun, ⟨hgood, fun b hb => ?_, hrest, fun x hx hfree' => ?_⟩, hbump,
    fun x hx => ?_⟩
  · rw [show ({ heap, live := s.live.erase (ptr, layout) } : HeapLedger).heap.bumpNext
      = s.heap.bumpNext from hbump]
    exact h.within b (hperm.mem_iff.2 (mem_cons_of_mem _ hb))
  · rcases (hcovered x).1 hfree' with hx' | hx'
    · exact (apart_iff_not_covered hpos ranges_pos).1 hfirst x hx'.1 hx'.2 hx
    · exact h.clear x ((covered_perm hperm).2 (covered_cons.2 (.inr hx))) hx'
  · rw [covered_perm hperm, covered_cons, or_assoc] at hx
    rw [hcovered]
    exact or_left_comm.1 hx

/-- Every call keeps the invariant, or overflows. -/
theorem step_cases (hmatch : op.Matches s) : (¬ op.InRange s ∧ op.run s = .error .overflow) ∨
      op.InRange s ∧ ∃ r s' free', op.run s = .ok (r, s') ∧ op.Returns r ∧ Inv s' free' := by
  cases op with
  | alloc layout =>
    simp only [run]
    rcases allocInner_cases h.good layout with ⟨-, ⟨hwrap, hrun⟩ | ⟨hwrap, hrun⟩⟩ |
      ⟨hroom, ptr, heap, free', hrun, hne, halloc, -⟩
    · rw [hrun]
      exact .inl ⟨hwrap, rfl⟩
    · rw [hrun]
      exact .inr ⟨hwrap, 0, _, free, rfl, .inl rfl, h⟩
    rw [hrun, ok_bind]
    rw [if_neg hne]
    refine .inr ⟨h.good.noWrap hroom, ptr, _, free', rfl,
      .inr ⟨halloc.within.lower, ?_, ?_⟩, h.alloc halloc⟩
    · have hupper := halloc.within.upper
      have hend := halloc.bump.2
      have hsize := layout.usedSize_bounds.1
      omega
    · exact layout.dvd_usedAlign.1.trans halloc.dvd
  | dealloc ptr layout =>
    obtain ⟨heap, free', hrun, hinv, -⟩ := h.dealloc hmatch
    simp only [run, hrun]
    exact .inr ⟨trivial, 0, _, free', rfl, trivial, hinv⟩
  | write addr value => exact .inr ⟨trivial, 0, _, free, rfl, trivial, h.write hmatch⟩

end

/-- A block of the free list fits, or the memory behind all blocks is enough. -/
def Room (s : HeapLedger) (layout : Layout) : Prop :=
  (∃ b ∈ s.freeBlocks, layout.usedSize ≤ b.2 ∧ b.1 % layout.usedAlign = 0) ∨
    (s.heap.bumpNext + (layout.usedAlign - 1)) / layout.usedAlign * layout.usedAlign +
      layout.usedSize ≤ heapEnd
  deriving Decidable

theorem Inv.room_iff (h : Inv s free) : Room s layout ↔ s.heap.Roomy free layout := by
  rw [← h.freeBlocks]
  exact Iff.rfl

/-- An allocation gets a block if there is room. -/
theorem alloc_of_room (h : Inv s free) (hroom : Room s layout) :
    ∃ ptr s' free', run (.alloc layout) s = .ok (ptr, s') ∧ ptr ≠ 0 ∧ Inv s' free' ∧
      s'.live = (ptr, layout) :: s.live := by
  rcases allocInner_cases h.good layout with ⟨hno, -⟩ | ⟨-, ptr, heap, free', hrun, hne, halloc, -⟩
  · exact absurd (h.room_iff.1 hroom) hno
  · simp only [run, hrun, ok_bind, if_neg hne]
    exact ⟨ptr, _, free', rfl, hne, h.alloc halloc, rfl⟩

/-- Without room it overflows or returns null. -/
theorem alloc_of_no_room (h : Inv s free) (hroom : ¬Room s layout) :
    run (.alloc layout) s = .error .overflow ∨ run (.alloc layout) s = .ok (0, s) := by
  rcases allocInner_cases h.good layout with ⟨-, ⟨-, hrun⟩ | ⟨-, hrun⟩⟩ | ⟨hno, -⟩
  · exact .inl (by simp only [run, hrun]; rfl)
  · exact .inr (by simp only [run, hrun]; rfl)
  · exact absurd (h.room_iff.2 hno) hroom

theorem contract_iff (h : Inv s free) (hmatch : op.Matches s) : op.Contract s ↔ op.InRange s := by
  rcases step_cases h hmatch with ⟨hout, hrun⟩ | ⟨hin, r, s', free', hrun, hreturns, hinv⟩
  · refine ⟨?_, fun hin => absurd hin hout⟩
    rintro ⟨r, s', hrun', -⟩
    rw [hrun] at hrun'
    cases hrun'
  · exact ⟨fun _ => hin, fun _ => ⟨r, s', hrun, hreturns, hinv.separate⟩⟩

/-! ## Conservation -/

/-- Every byte below the unused memory belongs to a block. -/
def Conserved (s : HeapLedger) : Prop :=
  ∀ x, heapStart ≤ x → x < s.heap.bumpNext → Covered s.ranges x ∨ Covered s.freeBlocks x

/-- A call matches a block in use and loses no memory. -/
def Conserves (op : HeapOp) (s : HeapLedger) : Prop :=
  op.Matches s ∧ ∀ r s', op.run s = .ok (r, s') → Conserved s'

/-- An allocation that gets a block drops no rest and skips no byte. -/
def Saves : HeapOp → HeapLedger → Prop
  | .alloc layout, s => Room s layout → s.heap.Thrifty s.freeBlocks layout
  | _, _ => True

theorem conserved_alloc_iff {ptr : Nat} {heap : KernelHeap} {layout : Layout}
    {free' : List (Nat × Nat)} (h : Inv s free) (hold : Conserved s)
    (h' : Inv ⟨heap, (ptr, layout) :: s.live⟩ free') :
    Conserved ⟨heap, (ptr, layout) :: s.live⟩ ↔
      Keeps s.heap free layout.usedSize ptr heap free' := by
  unfold Conserved at hold ⊢
  rw [h.freeBlocks] at hold
  rw [h'.freeBlocks]
  have hcons : ∀ x, Covered (HeapLedger.ranges ⟨heap, (ptr, layout) :: s.live⟩) x ↔
      (ptr ≤ x ∧ x < ptr + layout.usedSize) ∨ Covered s.ranges x := fun x => covered_cons
  simp only [hcons]
  constructor
  · intro hnew x hx hin
    have hlower := h.good.lower
    have hfresh : heapStart ≤ x ∧ ¬ Covered s.ranges x := by
      rcases hin with hfree | hge
      · obtain ⟨b, hb, hbx⟩ := hfree
        have := (h.good.holds.ordered.within b hb).lower
        exact ⟨by omega, fun hrange => h.clear x hrange ⟨b, hb, hbx⟩⟩
      · refine ⟨by omega, ?_⟩
        rintro ⟨b, hb, hbx⟩
        have := (h.within b hb).upper
        omega
    exact (hnew x hfresh.1 hx).imp_left fun hrange => hrange.resolve_right hfresh.2
  · intro hkeeps x hx hx'
    by_cases hxold : x < s.heap.bumpNext
    · rcases hold x hx hxold with hrange | hfree
      · exact .inl (.inr hrange)
      · exact (hkeeps x hx' (.inl hfree)).imp_left .inl
    · exact (hkeeps x hx' (.inr (by omega))).imp_left .inl

theorem conserves_iff (h : Inv s free) (hold : Conserved s) (op : HeapOp) :
    Conserves op s ↔ op.Matches s ∧ op.Saves s := by
  refine and_congr_right fun hmatch => ?_
  cases op with
  | alloc layout =>
    simp only [Saves, h.room_iff, h.freeBlocks, run]
    rcases allocInner_cases h.good layout with ⟨hno, ⟨-, hrun⟩ | ⟨-, hrun⟩⟩ |
      ⟨hroom, ptr, heap, free', hrun, hne, halloc, hkeeps⟩
    · simp [hrun, hno]
    · simp only [hrun, ok_bind]
      simpa [hno] using hold
    · simp only [hrun, ok_bind, if_neg hne, ← hkeeps, forall_prop_of_true hroom,
        ← conserved_alloc_iff h hold (h.alloc halloc)]
      exact ⟨fun hnew => hnew _ _ rfl, fun hnew r s' hs' => by cases hs'; exact hnew⟩
  | dealloc ptr layout =>
    refine iff_of_true (fun r s' hs' => ?_) trivial
    obtain ⟨heap, free', hrun, hinv, hbump, hcovered⟩ := h.dealloc hmatch
    simp only [run, hrun, ok_bind] at hs'
    cases hs'
    intro x hx hx'
    rw [hinv.freeBlocks]
    have hx₀ := hold x hx (Nat.lt_of_lt_of_eq hx' hbump)
    rw [h.freeBlocks] at hx₀
    exact hcovered x hx₀
  | write addr value =>
    refine iff_of_true (fun r s' hs' => ?_) trivial
    cases hs'
    intro x hx hx'
    rw [(h.write hmatch).freeBlocks, ← h.freeBlocks]
    exact hold x hx hx'

/-- The heap before the first call. -/
def newLedger (mem : Bytes) : HeapLedger := ⟨.new mem, []⟩

theorem inv_newLedger (mem : Bytes) : Inv (newLedger mem) [] where
  good := ⟨⟨rfl, ordered_nil⟩, Nat.le_refl _, show heapStart ≤ heapEnd by decide⟩
  within _ hb := (nomatch hb)
  apart := .nil
  clear := by
    rintro x ⟨b, hb, -⟩
    cases hb

/-- In every run in which each `dealloc` matches a block in use, all calls meet the
contract exactly if the sums of all allocations stay below the end of the address
space. -/
theorem kernel_heap_contract_iff (mem : Bytes) (ops : List HeapOp)
    (hmatch : Every run Matches ops (newLedger mem)) :
    Every run Contract ops (newLedger mem) ↔ Every run InRange ops (newLedger mem) := by
  refine every_congr (fun s => ∃ free, Inv s free) ?_ ?_ ⟨[], inv_newLedger mem⟩ hmatch
  · rintro op s r s' ⟨free, h⟩ hop hrun
    rcases step_cases h hop with ⟨-, hrun'⟩ | ⟨-, r', s₁, free', hrun', -, hinv⟩
    · rw [hrun'] at hrun
      cases hrun
    rw [hrun'] at hrun
    cases hrun
    exact ⟨free', hinv⟩
  · rintro op s ⟨free, h⟩ hop
    exact contract_iff h hop

/-- Along a run no memory is lost exactly if no allocation drops a rest or skips a byte. -/
theorem heap_conserved_iff (mem : Bytes) (ops : List HeapOp) :
    Every run Conserves ops (newLedger mem) ↔
      Every run (fun op s => op.Matches s ∧ op.Saves s) ops (newLedger mem) := by
  refine every_congr_of (fun s => ∃ free, Inv s free ∧ Conserved s) ?_ ?_
    ⟨[], inv_newLedger mem, fun x hx hx' => absurd hx' (Nat.not_lt.2 hx)⟩
  · rintro op s r s' ⟨free, h, -⟩ hop hrun
    rcases step_cases h hop.1 with ⟨-, hrun'⟩ | ⟨-, r', s₁, free', hrun', -, hinv⟩
    · rw [hrun'] at hrun
      cases hrun
    · have hs' := hop.2 r s' hrun
      rw [hrun'] at hrun
      cases hrun
      exact ⟨free', hinv, hs'⟩
  · rintro op s ⟨free, h, hold⟩
    exact conserves_iff h hold op

/-- A layout with a small alignment. -/
def bytesLayout (size : Nat) (fits : size + 4 ≤ 2 ^ 31) : Layout := ⟨size, 4, ⟨2, rfl⟩, fits⟩

/-- Blocks are taken, written to, given back in the wrong order and taken again. -/
def reuseRun : List HeapOp :=
  [.alloc (bytesLayout 100 (by decide)), .alloc (bytesLayout 20 (by decide)),
    .write 0xC1800000 7, .dealloc 0xC1800064 (bytesLayout 20 (by decide)),
    .dealloc 0xC1800000 (bytesLayout 100 (by decide)), .alloc (bytesLayout 40 (by decide))]

instance (op : HeapOp) (s : HeapLedger) : Decidable (op.InRange s) := by
  unfold InRange
  cases op <;> infer_instance

instance (op : HeapOp) (s : HeapLedger) : Decidable (op.Matches s) := by
  unfold Matches Covered
  cases op <;> infer_instance

theorem kernel_heap_contract_iff_reuseRun : Every run Matches reuseRun (newLedger fun _ => 0) ∧
      (Every run Contract reuseRun (newLedger fun _ => 0) ↔
        Every run InRange reuseRun (newLedger fun _ => 0)) ∧
      Every run InRange reuseRun (newLedger fun _ => 0) :=
  ⟨by decide +kernel, kernel_heap_contract_iff (fun _ => 0) reuseRun (by decide +kernel),
    by decide +kernel⟩

/-- A request of one gibibyte on a new heap overflows. -/
theorem gibibyte_overflows :
    Every run Matches [.alloc (bytesLayout (2 ^ 30) (by decide))] (newLedger fun _ => 0) ∧
      ¬ Every run Contract [.alloc (bytesLayout (2 ^ 30) (by decide))] (newLedger fun _ => 0) := by
  refine ⟨⟨trivial, fun _ _ _ => trivial⟩, ?_⟩
  rintro ⟨⟨r, s', hrun, -⟩, -⟩
  cases hrun

/-- A block of 24 bytes is given back, and its first 12 bytes are used and given back. -/
def halfRun : List HeapOp :=
  [.alloc (bytesLayout 24 (by decide)), .dealloc 0xC1800000 (bytesLayout 24 (by decide)),
    .alloc (bytesLayout 12 (by decide)), .dealloc 0xC1800000 (bytesLayout 12 (by decide))]

/-- No block is in use at the end, and twelve bytes are lost. -/
theorem halfRun_loses : Every run Matches halfRun (newLedger fun _ => 0) ∧
    ¬ Every run Conserves halfRun (newLedger fun _ => 0) := by
  refine ⟨by decide +kernel, ?_⟩
  rintro ⟨-, h⟩
  have h := (((h _ _ rfl).2 _ _ rfl).2 _ _ rfl).1.2 _ _ rfl 0xC180000C (by decide)
    (by decide +kernel)
  revert h
  unfold Covered
  decide +kernel

end HeapOp

end Felix.Memory
