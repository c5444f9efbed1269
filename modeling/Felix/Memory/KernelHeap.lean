import Felix.Base.FreeList

/-!
# The kernel heap

The global allocator of the kernel in `memory/allocator.rs`.  Blocks that were
given back are on a list that is threaded through them, by address; a block that
is large enough and aligned is taken from it and its rest goes back.  Otherwise the
block comes from the memory that was never used, up to `HEAP_END`.

The arithmetic is that of a build with overflow checks.
-/

namespace Felix.Memory

open Bytes FreeList List

/-- A valid `Layout`: the alignment is a power of two, and the size rounded up to
it does not exceed `isize::MAX`. -/
structure Layout where
  size : Nat
  align : Nat
  power : align.isPowerOfTwo
  fits : size + align ≤ 2 ^ 31
  deriving DecidableEq

/-- The allocator.  The list is the atomic `free_list` with the memory. -/
structure KernelHeap where
  bumpNext : Nat
  list : Linked

namespace KernelHeap

def heapStart : Nat := 0xC1800000

def heapEnd : Nat := 0xC2800000

def headerSize : Nat := 8

def headerAlign : Nat := 4

/-- The number of steps that no walk along the list exceeds. -/
def walkFuel : Nat := 2 ^ 21 + 1

def new (mem : Bytes) : KernelHeap := ⟨heapStart, ⟨0, mem⟩⟩

/-- `align_up`, for a power of two. -/
def alignUp (addr align : Nat) : Res Nat := do
  let sum ← addW 32 addr align
  let top ← subW sum 1
  .ok (top / align * align)

/-- `adjust_layout`: the size and the alignment that are used. -/
def adjustLayout (layout : Layout) : Res (Nat × Nat) := do
  let align := max layout.align headerAlign
  let size := max layout.size headerSize
  let size ← alignUp size align
  .ok (size, align)

/-- A block absorbs the block behind it if they touch. -/
def absorb (l : Linked) (first second : Nat) : Res Linked := do
  let stop ← addW 32 first (sizeAt l.mem first)
  if stop = second then do
    let size ← addW 32 (sizeAt l.mem first) (sizeAt l.mem second)
    let mem := setSize l.mem first size
    .ok { l with mem := setNext mem first (nextAt mem second) }
  else .ok l

/-- The part of `add_free_block` that merges a block with its successor. -/
def mergeNext (l : Linked) (block current : Nat) : Res Linked :=
  if current ≠ 0 then absorb l block current else .ok l

/-- The part of `add_free_block` that merges a block into its predecessor. -/
def mergePrevious (l : Linked) (previous block : Nat) : Res Linked :=
  if previous ≠ 0 then absorb l previous block else .ok l

def addFreeBlock (l : Linked) (ptr size : Nat) : Res Linked := do
  let mem := setSize l.mem ptr size
  let (previous, current) ← advance mem (fun b => decide (b.1 < ptr)) walkFuel 0 l.head
  let l : Linked := { l with mem := setNext mem ptr current }
  let l := l.link previous ptr
  let l ← mergeNext l ptr current
  mergePrevious l previous ptr

/-- A block from the free list fits. -/
def blockFits (size align : Nat) (b : Nat × Nat) : Bool := decide (size ≤ b.2 ∧ b.1 % align = 0)

/-- The part of `alloc_inner` that takes a block out of the list. -/
def takeBlock (list : Linked) (prev current size : Nat) : Res Linked := do
  let blockSize := sizeAt list.mem current
  let nextBlock := nextAt list.mem current
  let list := list.link prev nextBlock
  let remaining ← subW blockSize size
  if headerSize * 2 < remaining then addFreeBlock list (current + size) remaining else .ok list

/-- The part of `alloc_inner` that uses the memory behind all blocks. -/
def bumpBlock (h : KernelHeap) (size align : Nat) : Res (Nat × KernelHeap) := do
  let aligned ← alignUp h.bumpNext align
  let newNext ← addW 32 aligned size
  if heapEnd < newNext then .ok (0, h)
  else .ok (aligned, { h with bumpNext := newNext })

/-- `alloc_inner`.  The result is zero if there is no memory left. -/
def allocInner (h : KernelHeap) (layout : Layout) : Res (Nat × KernelHeap) := do
  let (size, align) ← adjustLayout layout
  let (prev, current) ← advance h.list.mem (fun b => !blockFits size align b) walkFuel 0 h.list.head
  if current ≠ 0 then do
    let list ← takeBlock h.list prev current size
    .ok (current, { h with list })
  else h.bumpBlock size align

def dealloc (h : KernelHeap) (ptr : Nat) (layout : Layout) : Res KernelHeap :=
  if ptr = 0 then .ok h
  else do
    let (size, _) ← adjustLayout layout
    let list ← addFreeBlock h.list ptr size
    .ok { h with list }

/-! ## The free list -/

section List

variable {lo hi : Nat} {l : Linked} {pre post blocks : List (Nat × Nat)} {q c : Nat × Nat}

/-- The list `l` holds the blocks, by address and within the limits. -/
structure Holds (lo hi : Nat) (l : Linked) (blocks : List (Nat × Nat)) : Prop where
  seg : Seg l.mem l.head blocks 0
  ordered : Ordered headerAlign lo hi blocks

theorem absorb_eq (hhi : hi < 2 ^ 32) (h : Holds lo hi l (pre ++ q :: c :: post)) :
    ∃ l' blocks', absorb l q.1 c.1 = .ok l' ∧ Holds lo hi l' blocks' ∧
      (∀ x, Covered blocks' x ↔ Covered (pre ++ q :: c :: post) x) ∧
      ((q.1 + q.2 ≠ c.1 ∧ blocks' = pre ++ q :: c :: post) ∨
        blocks' = pre ++ (q.1, q.2 + c.2) :: post) := by
  obtain ⟨mid, hpre, rfl, hqpos, hqsize, hcnext, hcpos, hcsize, hpost⟩ := seg_append.1 h.seg
  have hqupper := (h.ordered.within q (by simp)).upper
  have hcupper := (h.ordered.within c (by simp)).upper
  unfold absorb
  rw [hqsize, hcsize, addW_ok (by omega), Res.ok_bind]
  by_cases htouch : q.1 + q.2 = c.1
  · rw [if_pos htouch, addW_ok (by omega)]
    refine ⟨_, pre ++ (q.1, q.2 + c.2) :: post, rfl, ⟨seg_append.2 ⟨q.1,
      hpre.congr fun b hb => ?_, rfl, hqpos, ?_, ?_⟩, h.ordered.merge htouch⟩,
      fun x => covered_merge htouch, .inr rfl⟩
    · have hapart := h.ordered.headers_apart (mem_append_left (c :: post) hb)
      exact (sameHeader_setSize hapart).trans (sameHeader_setNext hapart)
    · rw [sizeAt_setNext, sizeAt_setSize (by omega)]
    · -- The header of `c` was not touched by the first write.
      have hc : SameHeader l.mem (setSize l.mem q.1 (q.2 + c.2)) c.1 :=
        sameHeader_setSize (h.ordered.headers_apart (by simp))
      have hword : nextAt l.mem c.1 < 2 ^ 32 := UInt32.toNat_lt _
      rw [hc.next, nextAt_setNext hword]
      refine hpost.congr fun b hb => ?_
      have hapart : q.1 + 8 ≤ b.1 ∨ b.1 + 8 ≤ q.1 := h.ordered.headers_apart (by simp [hb])
      exact (sameHeader_setSize hapart).trans (sameHeader_setNext hapart)
  · rw [if_neg htouch]
    exact ⟨l, _, rfl, h, fun _ => Iff.rfl, .inl ⟨htouch, rfl⟩⟩

theorem mergeNext_eq (hhi : hi < 2 ^ 32) (h : Holds lo hi l (pre ++ q :: post)) :
    ∃ l' q' post', mergeNext l q.1 (firstOf post) = .ok l' ∧ q'.1 = q.1 ∧
      Holds lo hi l' (pre ++ q' :: post') ∧
      ∀ x, Covered (pre ++ q' :: post') x ↔ Covered (pre ++ q :: post) x := by
  unfold mergeNext
  cases post with
  | nil =>
    exact ⟨l, q, [], rfl, rfl, h, fun _ => Iff.rfl⟩
  | cons c post =>
    obtain ⟨_, _, _, _, _, _, hcpos, _⟩ := seg_append.1 h.seg
    obtain ⟨l', blocks', hrun, hholds, hcovered, hblocks⟩ := absorb_eq hhi h
    rw [show firstOf (c :: post) = c.1 from rfl, if_pos (by omega)]
    rcases hblocks with ⟨-, rfl⟩ | rfl
    · exact ⟨l', q, c :: post, hrun, rfl, hholds, hcovered⟩
    · exact ⟨l', (q.1, q.2 + c.2), post, hrun, rfl, hholds, hcovered⟩

theorem mergePrevious_eq (hhi : hi < 2 ^ 32) (h : Holds lo hi l (pre ++ q :: post)) :
    ∃ l' blocks', mergePrevious l (lastOf 0 pre) q.1 = .ok l' ∧ Holds lo hi l' blocks' ∧
      ∀ x, Covered blocks' x ↔ Covered (pre ++ q :: post) x := by
  unfold mergePrevious
  rcases eq_nil_or_concat pre with rfl | ⟨init, p, hpre⟩
  · exact ⟨l, _, rfl, h, fun _ => Iff.rfl⟩
  rw [concat_eq_append] at hpre
  subst hpre
  rw [append_assoc] at h ⊢
  obtain ⟨_, _, rfl, hppos, _⟩ := seg_append.1 h.seg
  obtain ⟨l', blocks', hrun, hholds, hcovered, -⟩ := absorb_eq hhi h
  rw [lastOf_append_singleton, if_pos (by omega)]
  exact ⟨l', blocks', hrun, hholds, hcovered⟩

/-- The limits of the heap. -/
structure Limits (lo hi : Nat) : Prop where
  lower : 0 < lo
  upper : hi < 2 ^ 32
  span : hi - lo ≤ 2 ^ 24

theorem Holds.length_lt (h : Holds lo hi l blocks) (hlimits : Limits lo hi) :
    blocks.length < walkFuel := by
  have hlen := h.ordered.length_le
  have hspan := hlimits.span
  unfold walkFuel
  omega

theorem Holds.listed (h : Holds lo hi l blocks) (hlimits : Limits lo hi) :
    l.listed walkFuel l.head = blocks :=
  h.seg.listed_eq (h.length_lt hlimits)

theorem firstOf_lt {unit : Nat} (hord : Ordered unit lo hi blocks) (hhi : hi < 2 ^ 32) :
    firstOf blocks < 2 ^ 32 := by
  cases blocks with
  | nil => decide
  | cons b rest =>
    have hupper := (hord.within b mem_cons_self).upper
    show b.1 < 2 ^ 32
    omega

theorem covered_insert {h : Nat × Nat} {x : Nat} : Covered (pre ++ h :: post) x ↔
    (h.1 ≤ x ∧ x < h.1 + h.2) ∨ Covered (pre ++ post) x :=
  (covered_perm perm_middle).trans covered_cons

theorem addFreeBlock_eq (hlimits : Limits lo hi) (hl : Holds lo hi l blocks) {ptr size : Nat}
    (hroom : 8 ≤ size) (hwithin : Within headerAlign lo hi (ptr, size))
    (hapart : ∀ b ∈ blocks, Apart (ptr, size) b) :
    ∃ l' blocks', addFreeBlock l ptr size = .ok l' ∧ Holds lo hi l' blocks' ∧
      ∀ x, Covered blocks' x ↔ (ptr ≤ x ∧ x < ptr + size) ∨ Covered blocks x := by
  have hlower := hlimits.lower
  have hupper := hlimits.upper
  have hptr := hwithin.upper
  have hptrlow := hwithin.lower
  -- The headers of the blocks do not overlap the one that is written.
  have hheaders : ∀ b ∈ blocks, ptr + 8 ≤ b.1 ∨ b.1 + 8 ≤ ptr := by
    intro b hb
    have hb' := hapart b hb
    have hbroom := hl.ordered.room b hb
    unfold Apart at hb'
    omega
  have hinsert := hl.ordered.insert hroom hwithin hapart
  have hseg : Seg (setSize l.mem ptr size) l.head blocks 0 :=
    hl.seg.congr fun b hb => sameHeader_setSize (hheaders b hb)
  have hlen := hl.length_lt hlimits
  unfold addFreeBlock
  dsimp only
  rw [advance_eq _ hseg hlen, Res.ok_bind]
  have hsplit : blocks.takeWhile (fun b => decide (b.1 < ptr)) ++
      blocks.dropWhile (fun b => decide (b.1 < ptr)) = blocks := takeWhile_append_dropWhile
  generalize blocks.takeWhile (fun b => decide (b.1 < ptr)) = pre at hinsert hsplit
  generalize blocks.dropWhile (fun b => decide (b.1 < ptr)) = post at hinsert hsplit
  subst hsplit
  have hfirst : firstOf post < 2 ^ 32 :=
    firstOf_lt (hl.ordered.sublist (sublist_append_right _ _)) hupper
  obtain ⟨mid, hpre, hpost⟩ := seg_append.1 hseg
  obtain rfl := hpost.head_eq
  -- The block points to its successor, and its predecessor to it.
  have hnext : ∀ b ∈ pre ++ post, SameHeader (setSize l.mem ptr size)
      (setNext (setSize l.mem ptr size) ptr (firstOf post)) b.1 := fun b hb =>
    sameHeader_setNext (hheaders b hb)
  obtain ⟨hlinked, hsame⟩ := seg_link
    (l := ⟨l.head, setNext (setSize l.mem ptr size) ptr (firstOf post)⟩)
    (hpre.congr fun b hb => hnext b (mem_append_left _ hb))
    (hl.ordered.sublist (sublist_append_left _ _)) (show ptr < 2 ^ 32 by omega)
  generalize Linked.link ⟨l.head, setNext (setSize l.mem ptr size) ptr (firstOf post)⟩
    (lastOf 0 pre) ptr = l₁ at hlinked hsame
  have hptrsame := hsame ptr fun q hq => (hheaders q (mem_append_left _ hq)).symm
  have hholds : Holds lo hi l₁ (pre ++ (ptr, size) :: post) := by
    refine ⟨seg_append.2 ⟨ptr, hlinked, rfl, by omega, ?_, ?_⟩, hinsert⟩
    · rw [hptrsame.size, sizeAt_setNext, sizeAt_setSize (by omega)]
    · rw [hptrsame.next, nextAt_setNext hfirst]
      refine hpost.congr fun b hb => ?_
      refine (hnext b (mem_append_right _ hb)).trans (hsame b.1 fun q hq => ?_)
      have hcross := (pairwise_append.1 hl.ordered.sorted).2.2 q hq b hb
      have hqroom := hl.ordered.room q (mem_append_left _ hq)
      omega
  obtain ⟨l₂, q', post', hrun₂, hq', hholds₂, hcovered₂⟩ := mergeNext_eq hupper hholds
  obtain ⟨l₃, blocks', hrun₃, hholds₃, hcovered₃⟩ := mergePrevious_eq hupper hholds₂
  rw [hrun₂]
  rw [hq'] at hrun₃
  refine ⟨l₃, blocks', hrun₃, hholds₃, fun x => ?_⟩
  rw [hcovered₃, hcovered₂, covered_insert]

end List

end KernelHeap

end Felix.Memory
