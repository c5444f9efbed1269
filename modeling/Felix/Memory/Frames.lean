import Mathlib.Data.Finset.Card
import Mathlib.Data.List.Dedup
import Felix.Base.Fault

/-!
# The frame allocator

`alloc_frame` and `free_phys_frame` of `paging.rs`.  Frames that were given back
are on a stack; when it is empty the next frame that was never used is handed
out, up to the end of the memory.  Both panic rather than hand out a frame of a
live kernel stack.

`Avail` is the set of the frames that can still be handed out and `count` is
their number.  `allocFrame_eq` says that an allocation takes one of them and
fails only if there is none.
-/

namespace Felix.Memory

open List

/-- The fields of `PageManager` that the allocator reads. -/
structure FrameAllocator where
  nextFreePage : Nat
  /-- The frames that were given back, the last one first. -/
  freeFrames : List Nat
  /-- `detected_ram_bytes() >> 12`. -/
  maxPage : Nat
  /-- `live_kernel_stack_owner(frame).is_some()`. -/
  liveStack : Nat → Bool

namespace FrameAllocator

def allocFrame (a : FrameAllocator) : Res (Nat × FrameAllocator) :=
  match a.freeFrames with
  | frame :: rest =>
    if a.liveStack frame = true then .error .assertion
    else .ok (frame, { a with freeFrames := rest.filter (· ≠ frame) })
  | [] =>
    if a.maxPage ≤ a.nextFreePage then .error .assertion
    else if a.liveStack a.nextFreePage = true then .error .assertion
    else .ok (a.nextFreePage, { a with nextFreePage := a.nextFreePage + 1 })

/-- `FRAME_ALLOC_START >> 12`. -/
def firstDynamic : Nat := 0x2800

def freePhysFrame (a : FrameAllocator) (frame : Nat) : FrameAllocator :=
  if frame < firstDynamic ∨ a.nextFreePage ≤ frame then a
  else if frame ∈ a.freeFrames then a
  else { a with freeFrames := frame :: a.freeFrames }

/-- The frame can be handed out. -/
def Avail (a : FrameAllocator) (f : Nat) : Prop :=
  f ∈ a.freeFrames ∨ (a.nextFreePage ≤ f ∧ f < a.maxPage)

/-- The number of frames that can be handed out. -/
def count (a : FrameAllocator) : Nat :=
  a.freeFrames.toFinset.card + (a.maxPage - a.nextFreePage)

/-- What the allocator keeps: the frames on the stack were handed out before,
none that it can hand out belongs to a kernel stack, and the memory is not larger
than the address space. -/
structure Good (a : FrameAllocator) : Prop where
  listed : ∀ f ∈ a.freeFrames, f < a.nextFreePage
  offStack : ∀ f, a.Avail f → a.liveStack f = false
  next : a.nextFreePage ≤ 2 ^ 20
  bound : a.maxPage ≤ 2 ^ 20

/-- The frame `f` was taken. -/
structure Takes (a a' : FrameAllocator) (f : Nat) : Prop where
  avail : a.Avail f
  good : a'.Good
  left : ∀ g, a'.Avail g ↔ a.Avail g ∧ g ≠ f
  count : a'.count + 1 = a.count
  stack : a'.liveStack = a.liveStack

variable {a : FrameAllocator} {f : Nat}

theorem Good.lt (h : a.Good) (hf : a.Avail f) : f < 2 ^ 20 := by
  rcases hf with hmem | ⟨_, hlt⟩
  · exact Nat.lt_of_lt_of_le (h.listed f hmem) h.next
  · exact Nat.lt_of_lt_of_le hlt h.bound

/-- Every frame on the stack is there once after one of them was popped. -/
theorem card_filter_ne (f : Nat) (rest : List Nat) :
    (rest.filter (· ≠ f)).toFinset.card + 1 = (f :: rest).toFinset.card := by
  have herase : (rest.filter (· ≠ f)).toFinset = (f :: rest).toFinset.erase f := by
    ext g
    simp only [mem_toFinset, mem_filter, Finset.mem_erase, mem_cons, decide_eq_true_eq]
    tauto
  rw [herase, Finset.card_erase_add_one]
  rw [mem_toFinset]
  exact mem_cons_self

theorem allocFrame_eq (h : a.Good) : (a.allocFrame = .error .assertion ∧ a.count = 0) ∨
      ∃ f a', a.allocFrame = .ok (f, a') ∧ Takes a a' f := by
  unfold allocFrame
  cases hfree : a.freeFrames with
  | cons f rest =>
    have havail : a.Avail f := .inl (by rw [hfree]; exact mem_cons_self)
    have hleft : ∀ g, Avail { a with freeFrames := rest.filter (· ≠ f) } g
        ↔ a.Avail g ∧ g ≠ f := by
      intro g
      have hf := h.listed f (by rw [hfree]; exact mem_cons_self)
      simp only [Avail, hfree, mem_filter, mem_cons, decide_eq_true_eq]
      constructor
      · rintro (⟨hmem, hne⟩ | hnew)
        · exact ⟨.inl (.inr hmem), hne⟩
        · exact ⟨.inr hnew, by omega⟩
      · rintro ⟨(heq | hmem) | hnew, hne⟩
        · exact absurd heq hne
        · exact .inl ⟨hmem, hne⟩
        · exact .inr hnew
    simp only [h.offStack f havail]
    refine .inr ⟨f, _, rfl, havail, ⟨fun g hg => ?_, fun g hg => ?_, h.next, h.bound⟩, hleft, ?_,
      rfl⟩
    · refine h.listed g ?_
      rw [hfree]
      exact mem_cons_of_mem f (mem_of_mem_filter hg)
    · exact h.offStack g ((hleft g).1 hg).1
    show (rest.filter (· ≠ f)).toFinset.card + (a.maxPage - a.nextFreePage) + 1 = a.count
    have hcard := card_filter_ne f rest
    unfold count
    rw [hfree]
    omega
  | nil =>
    by_cases hmax : a.maxPage ≤ a.nextFreePage
    · refine .inl ⟨by simp only [if_pos hmax], ?_⟩
      unfold count
      rw [hfree, toFinset_nil, Finset.card_empty]
      omega
    have havail : a.Avail a.nextFreePage := .inr ⟨Nat.le_refl _, by omega⟩
    have hleft : ∀ g, Avail { a with nextFreePage := a.nextFreePage + 1, freeFrames := [] } g
        ↔ a.Avail g ∧ g ≠ a.nextFreePage := by
      intro g
      simp only [Avail, hfree, not_mem_nil, false_or]
      omega
    simp only [if_neg hmax, h.offStack _ havail]
    have hbound := h.bound
    refine .inr ⟨_, _, rfl, havail, ⟨fun g hg => ?_, fun g hg => ?_, ?_, h.bound⟩, hleft, ?_, rfl⟩
    · exact absurd hg not_mem_nil
    · exact h.offStack g ((hleft g).1 hg).1
    · show a.nextFreePage + 1 ≤ 2 ^ 20
      omega
    show ([] : List Nat).toFinset.card + (a.maxPage - (a.nextFreePage + 1)) + 1 = a.count
    unfold count
    rw [hfree]
    omega

/-- A frame that is given back can be handed out again, unless it is not one of
the allocator's. -/
theorem freePhysFrame_eq (h : a.Good) (hstack : a.liveStack f = false) :
    (a.freePhysFrame f).Good ∧ (a.freePhysFrame f).liveStack = a.liveStack ∧
      ∀ g, (a.freePhysFrame f).Avail g → a.Avail g ∨ g = f := by
  unfold freePhysFrame
  split
  · exact ⟨h, rfl, fun _ => .inl⟩
  split
  · exact ⟨h, rfl, fun _ => .inl⟩
  have havail : ∀ g, Avail { a with freeFrames := f :: a.freeFrames } g → a.Avail g ∨ g = f := by
    rintro g (hmem | hnew)
    · rcases mem_cons.1 hmem with heq | hmem
      · exact .inr heq
      · exact .inl (.inl hmem)
    · exact .inl (.inr hnew)
  refine ⟨⟨fun g hg => ?_, fun g hg => ?_, h.next, h.bound⟩, rfl, havail⟩
  · rcases mem_cons.1 hg with rfl | hmem
    · show g < a.nextFreePage
      omega
    · exact h.listed g hmem
  · rcases havail g hg with hold | rfl
    · exact h.offStack g hold
    · exact hstack

end FrameAllocator

end Felix.Memory
