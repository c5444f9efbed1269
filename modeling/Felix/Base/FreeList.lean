import Mathlib.Data.List.TakeWhile
import Felix.Base.Bytes
import Felix.Base.Holes

/-!
# Free lists in memory

A list of free blocks that is threaded through the blocks themselves: a block
starts with its size and the address of the next block, in four bytes each, and
zero is the end of the list.  `Seg` says that the blocks between two addresses of
the list are those of a given list of ranges.

There are two operations.  `advance` follows the list as long as a condition holds
of the blocks, and `link` makes a block, or the head of the list, point to another
one.  `Ordered` says that the blocks come by address and have room for their
headers, which is what makes the writes to one header leave the others alone.
`Ordered.insert` puts a block between its neighbours, and `Ordered.merge` joins it
with one that it touches.
-/

namespace Felix.FreeList

open Bytes List

/-! ## Headers -/

/-- The size in the header of a block. -/
def sizeAt (m : Bytes) (a : Nat) : Nat := (get32 a m).toNat

/-- The address of the next block in the header of a block. -/
def nextAt (m : Bytes) (a : Nat) : Nat := (get32 (a + 4) m).toNat

def setSize (m : Bytes) (a n : Nat) : Bytes := put32 a (UInt32.ofNat n) m

def setNext (m : Bytes) (a n : Nat) : Bytes := put32 (a + 4) (UInt32.ofNat n) m

/-- The header at an address is the same. -/
structure SameHeader (m m' : Bytes) (a : Nat) : Prop where
  size : sizeAt m' a = sizeAt m a
  next : nextAt m' a = nextAt m a

variable {m m' m'' : Bytes} {a b n : Nat}

theorem SameHeader.trans (h : SameHeader m m' a) (h' : SameHeader m' m'' a) : SameHeader m m'' a :=
  ⟨h'.size.trans h.size, h'.next.trans h.next⟩

theorem sameHeader_of_bytes (h : ∀ k, a ≤ k → k < a + 8 → m' k = m k) : SameHeader m m' a where
  size := by
    unfold sizeAt
    rw [get32_congr fun k hk hk' => h k hk (by omega)]
  next := by
    unfold nextAt
    rw [get32_congr fun k hk hk' => h k (by omega) (by omega)]

@[simp] theorem sizeAt_setSize (h : n < 2 ^ 32) : sizeAt (setSize m a n) a = n := by
  unfold sizeAt setSize
  rw [get32_put32_self, UInt32.toNat_ofNat_of_lt' h]

@[simp] theorem nextAt_setNext (h : n < 2 ^ 32) : nextAt (setNext m a n) a = n := by
  unfold nextAt setNext
  rw [get32_put32_self, UInt32.toNat_ofNat_of_lt' h]

@[simp] theorem sizeAt_setNext : sizeAt (setNext m a n) a = sizeAt m a := by
  unfold sizeAt setNext
  rw [get32_congr fun k hk hk' => put32_apply_ne (by omega)]

theorem sameHeader_setSize (h : a + 8 ≤ b ∨ b + 8 ≤ a) : SameHeader m (setSize m a n) b :=
  sameHeader_of_bytes fun _ hk hk' => put32_apply_ne (by omega)

theorem sameHeader_setNext (h : a + 8 ≤ b ∨ b + 8 ≤ a) : SameHeader m (setNext m a n) b :=
  sameHeader_of_bytes fun _ hk hk' => put32_apply_ne (by omega)

/-! ## Segments -/

/-- The blocks from `head` up to `tail` are those of the list. -/
def Seg (m : Bytes) : Nat → List (Nat × Nat) → Nat → Prop
  | head, [], tail => head = tail
  | head, b :: rest, tail =>
    head = b.1 ∧ 0 < b.1 ∧ sizeAt m b.1 = b.2 ∧ Seg m (nextAt m b.1) rest tail

variable {head tail : Nat} {blocks pre post : List (Nat × Nat)} (prev : Nat) {l : Linked}

theorem seg_append :
    Seg m head (pre ++ post) tail ↔ ∃ mid, Seg m head pre mid ∧ Seg m mid post tail := by
  induction pre generalizing head with
  | nil =>
    constructor
    · intro h
      exact ⟨head, rfl, h⟩
    · rintro ⟨mid, hmid, h⟩
      cases hmid
      exact h
  | cons b pre ih =>
    simp only [cons_append, Seg, ih]
    constructor
    · rintro ⟨hhead, hpos, hsize, mid, hpre, hpost⟩
      exact ⟨mid, ⟨hhead, hpos, hsize, hpre⟩, hpost⟩
    · rintro ⟨mid, ⟨hhead, hpos, hsize, hpre⟩, hpost⟩
      exact ⟨hhead, hpos, hsize, mid, hpre, hpost⟩

theorem Seg.congr (h : Seg m head blocks tail) (hsame : ∀ b ∈ blocks, SameHeader m m' b.1) :
    Seg m' head blocks tail := by
  induction blocks generalizing head with
  | nil => exact h
  | cons b rest ih =>
    obtain ⟨hb, hrest⟩ := forall_mem_cons.1 hsame
    obtain ⟨hhead, hpos, hsize, hseg⟩ := h
    refine ⟨hhead, hpos, hb.size.trans hsize, ?_⟩
    rw [hb.next]
    exact ih hseg hrest

/-! ## Following the list -/

/-- Follow the list as long as the condition holds of the blocks.  The result is
the last block that was passed and the one where the search stopped. -/
def advance (m : Bytes) (go : Nat × Nat → Bool) : Nat → Nat → Nat → Res (Nat × Nat)
  | 0, _, _ => .error .diverged
  | fuel + 1, prev, cur =>
    if cur ≠ 0 ∧ go (cur, sizeAt m cur) = true then advance m go fuel cur (nextAt m cur)
    else .ok (prev, cur)

/-- The address of the last block of a list. -/
def lastOf (prev : Nat) (blocks : List (Nat × Nat)) : Nat := (blocks.getLast?.map (·.1)).getD prev

/-- The address of the first block of a list. -/
def firstOf (blocks : List (Nat × Nat)) : Nat := (blocks.head?.map (·.1)).getD 0

theorem lastOf_cons (b : Nat × Nat) (rest : List (Nat × Nat)) :
    lastOf prev (b :: rest) = lastOf b.1 rest := by
  unfold lastOf
  rw [getLast?_cons]
  cases rest.getLast? <;> rfl

@[simp] theorem lastOf_append_singleton (b : Nat × Nat) (rest : List (Nat × Nat)) :
    lastOf prev (rest ++ [b]) = b.1 := by
  unfold lastOf
  rw [getLast?_concat]
  rfl

theorem Seg.head_eq (h : Seg m head blocks 0) : head = firstOf blocks := by
  cases blocks with
  | nil => exact h
  | cons b rest => exact h.1

theorem advance_eq (go : Nat × Nat → Bool) :
    ∀ {fuel prev cur : Nat} {blocks : List (Nat × Nat)}, Seg m cur blocks 0 →
      blocks.length < fuel → advance m go fuel prev cur
        = .ok (lastOf prev (blocks.takeWhile go), firstOf (blocks.dropWhile go)) := by
  intro fuel
  induction fuel with
  | zero =>
    intro _ _ _ _ hfuel
    omega
  | succ fuel ih =>
    intro prev cur blocks hseg hfuel
    unfold advance
    cases blocks with
    | nil =>
      cases hseg
      rfl
    | cons b rest =>
      obtain ⟨rfl, hpos, hsize, hrest⟩ := hseg
      have hb : (b.1, sizeAt m b.1) = b := Prod.ext rfl hsize
      rw [hb]
      cases hgo : go b with
      | true =>
        rw [if_pos ⟨by omega, rfl⟩, ih hrest (by simpa using hfuel),
          takeWhile_cons_of_pos hgo, dropWhile_cons_of_pos hgo, lastOf_cons]
      | false =>
        rw [if_neg (by simp), takeWhile_cons_of_neg (by simp [hgo]),
          dropWhile_cons_of_neg (by simp [hgo])]
        rfl

/-! ## Changing the list -/

/-- A free list: the address of its first block, and the memory. -/
structure Linked where
  head : Nat
  mem : Bytes

namespace Linked

/-- Make a block, or the head of the list, point to another block. -/
def link (l : Linked) (prev new : Nat) : Linked :=
  if prev = 0 then { l with head := new } else { l with mem := setNext l.mem prev new }

/-- The blocks of the list. -/
def listed (l : Linked) : Nat → Nat → List (Nat × Nat)
  | 0, _ => []
  | fuel + 1, cur =>
    if cur = 0 then [] else (cur, sizeAt l.mem cur) :: l.listed fuel (nextAt l.mem cur)

end Linked

theorem Seg.listed_eq : ∀ {fuel cur : Nat} {blocks : List (Nat × Nat)},
    Seg l.mem cur blocks 0 → blocks.length < fuel → l.listed fuel cur = blocks := by
  intro fuel
  induction fuel with
  | zero =>
    intro _ _ _ hfuel
    omega
  | succ fuel ih =>
    intro cur blocks hseg hfuel
    unfold Linked.listed
    cases blocks with
    | nil => exact if_pos hseg
    | cons b rest =>
      obtain ⟨rfl, hpos, hsize, hrest⟩ := hseg
      rw [if_neg (by omega), ih hrest (by simpa using hfuel), hsize]

/-! ## Blocks in order -/

/-- Blocks between two limits, by address, with room for their headers. -/
structure Ordered (unit lo hi : Nat) (blocks : List (Nat × Nat)) : Prop where
  sorted : blocks.Pairwise fun a b => a.1 + a.2 ≤ b.1
  room : ∀ b ∈ blocks, 8 ≤ b.2
  within : ∀ b ∈ blocks, Within unit lo hi b

variable {unit lo hi : Nat} {h c q : Nat × Nat} {rest : List (Nat × Nat)}

theorem ordered_nil : Ordered unit lo hi [] where
  sorted := .nil
  room _ hb := (nomatch hb)
  within _ hb := (nomatch hb)

theorem Ordered.sublist (h : Ordered unit lo hi blocks) {l : List (Nat × Nat)}
    (hl : l.Sublist blocks) : Ordered unit lo hi l where
  sorted := h.sorted.sublist hl
  room b hb := h.room b (hl.subset hb)
  within b hb := h.within b (hl.subset hb)

theorem Ordered.headers_apart (h : Ordered unit lo hi (pre ++ q :: post)) {b : Nat × Nat}
    (hb : b ∈ pre ++ post) : q.1 + 8 ≤ b.1 ∨ b.1 + 8 ≤ q.1 := by
  obtain ⟨-, hpost, hcross⟩ := pairwise_append.1 h.sorted
  have hroom := h.room q (mem_append_right _ mem_cons_self)
  rcases mem_append.1 hb with hb | hb
  · have hle := hcross b hb q mem_cons_self
    have hroom := h.room b (mem_append_left _ hb)
    omega
  · have hle := (pairwise_cons.1 hpost).1 b hb
    omega

theorem Ordered.length_le (h : Ordered unit lo hi blocks) : 8 * blocks.length ≤ hi - lo := by
  -- The blocks up to the last one take eight bytes each.
  have hall : ∀ (l : List (Nat × Nat)) (x : Nat), x ≤ hi →
      l.Pairwise (fun a b => a.1 + a.2 ≤ b.1) → (∀ b ∈ l, 8 ≤ b.2 ∧ x ≤ b.1 ∧ b.1 + b.2 ≤ hi) →
      8 * l.length ≤ hi - x := by
    intro l
    induction l with
    | nil =>
      intro x _ _ _
      simp
    | cons b l ih =>
      intro x hx hsorted hfacts
      obtain ⟨hfirst, hsorted⟩ := pairwise_cons.1 hsorted
      obtain ⟨⟨hroom, hlow, hhigh⟩, hrest⟩ := forall_mem_cons.1 hfacts
      have := ih (b.1 + b.2) hhigh hsorted fun c hc =>
        ⟨(hrest c hc).1, hfirst c hc, (hrest c hc).2.2⟩
      rw [length_cons]
      omega
  by_cases hempty : blocks = []
  · subst hempty
    exact Nat.zero_le _
  obtain ⟨b, hb⟩ := exists_mem_of_ne_nil _ hempty
  have hb' := h.within b hb
  refine hall blocks lo ?_ h.sorted fun c hc => ⟨h.room c hc, (h.within c hc).lower,
    (h.within c hc).upper⟩
  exact hb'.lower.trans ((Nat.le_add_right _ _).trans hb'.upper)

/-- A block between those with lower and those with higher addresses. -/
theorem Ordered.insert (hblocks : Ordered unit lo hi blocks) (hroom : 8 ≤ h.2)
    (hwithin : Within unit lo hi h) (hapart : ∀ b ∈ blocks, Apart h b) :
    Ordered unit lo hi
      (blocks.takeWhile (·.1 < h.1) ++ h :: blocks.dropWhile (·.1 < h.1)) := by
  have hsplit : blocks.takeWhile (·.1 < h.1) ++ blocks.dropWhile (·.1 < h.1) = blocks :=
    takeWhile_append_dropWhile
  have hmem : ∀ b, b ∈ blocks.takeWhile (·.1 < h.1) ++ h :: blocks.dropWhile (·.1 < h.1) →
      b = h ∨ b ∈ blocks := by
    intro b hb
    rw [← hsplit]
    simp only [mem_append, mem_cons] at hb ⊢
    tauto
  have hsorted := hblocks.sorted
  rw [← hsplit] at hsorted
  obtain ⟨hpre, hpost, hcross⟩ := pairwise_append.1 hsorted
  have hbelow : ∀ b ∈ blocks.takeWhile (·.1 < h.1), b.1 + b.2 ≤ h.1 := by
    intro b hb
    have hlt : b.1 < h.1 := by simpa using mem_takeWhile_imp hb
    have := hapart b (takeWhile_subset _ hb)
    unfold Apart at this
    omega
  have habove : ∀ b ∈ blocks.dropWhile (·.1 < h.1), h.1 + h.2 ≤ b.1 := by
    intro b hb
    have hin : b ∈ blocks := (dropWhile_sublist _).subset hb
    have hge : h.1 ≤ b.1 := by
      cases hdrop : blocks.dropWhile (·.1 < h.1) with
      | nil =>
        rw [hdrop] at hb
        cases hb
      | cons c rest =>
        have hfirst : ¬ c.1 < h.1 := by
          have := head?_dropWhile_not (fun b : Nat × Nat => decide (b.1 < h.1)) blocks
          rw [hdrop] at this
          simpa using this
        rw [hdrop] at hb hpost
        rcases mem_cons.1 hb with rfl | hb
        · omega
        · have := (pairwise_cons.1 hpost).1 b hb
          omega
    have hb := hapart b hin
    have hroom := hblocks.room b hin
    unfold Apart at hb
    omega
  refine ⟨?_, fun b hb => ?_, fun b hb => ?_⟩
  · refine pairwise_append.2 ⟨hpre, pairwise_cons.2 ⟨habove, hpost⟩, fun a ha b hb => ?_⟩
    rcases mem_cons.1 hb with rfl | hb
    · exact hbelow a ha
    · exact hcross a ha b hb
  · rcases hmem b hb with rfl | hb
    · exact hroom
    · exact hblocks.room b hb
  · rcases hmem b hb with rfl | hb
    · exact hwithin
    · exact hblocks.within b hb

theorem Ordered.merge (h : Ordered unit lo hi (pre ++ q :: c :: post)) (htouch : q.1 + q.2 = c.1) :
    Ordered unit lo hi (pre ++ (q.1, q.2 + c.2) :: post) := by
  obtain ⟨hpre, hpost, hcross⟩ := pairwise_append.1 h.sorted
  obtain ⟨hq, hpost⟩ := pairwise_cons.1 hpost
  obtain ⟨hc, hpost⟩ := pairwise_cons.1 hpost
  have hqin : q ∈ pre ++ q :: c :: post := by simp
  have hcin : c ∈ pre ++ q :: c :: post := by simp
  have hold : ∀ b, b ∈ pre ++ (q.1, q.2 + c.2) :: post → b = (q.1, q.2 + c.2) ∨
      b ∈ pre ++ q :: c :: post := by
    intro b hb
    simp only [mem_append, mem_cons] at hb ⊢
    tauto
  refine ⟨pairwise_append.2 ⟨hpre, pairwise_cons.2 ⟨fun b hb => ?_, hpost⟩,
    fun a ha b hb => ?_⟩, fun b hb => ?_, fun b hb => ?_⟩
  · have := hc b hb
    omega
  · rcases mem_cons.1 hb with rfl | hb
    · exact hcross a ha q mem_cons_self
    · exact hcross a ha b (mem_cons_of_mem _ (mem_cons_of_mem _ hb))
  · rcases hold b hb with rfl | hb
    · have := h.room q hqin
      omega
    · exact h.room b hb
  · rcases hold b hb with rfl | hb
    · have hwq := h.within q hqin
      have hwc := h.within c hcin
      have := hwc.upper
      have hupper : q.1 + (q.2 + c.2) ≤ hi := by omega
      exact ⟨hwq.start, Nat.dvd_add hwq.length hwc.length, hwq.lower, hupper⟩
    · exact h.within b hb

theorem covered_merge (htouch : q.1 + q.2 = c.1) {x : Nat} :
    Covered (pre ++ (q.1, q.2 + c.2) :: post) x ↔ Covered (pre ++ q :: c :: post) x := by
  unfold Covered
  simp only [mem_append, mem_cons, or_and_right, exists_or, exists_eq_left]
  constructor
  · rintro (hx | hx | hx)
    · exact .inl hx
    · by_cases hlt : x < c.1
      · exact .inr (.inl (by omega))
      · exact .inr (.inr (.inl (by omega)))
    · exact .inr (.inr (.inr hx))
  · rintro (hx | hx | hx | hx)
    · exact .inl hx
    · exact .inr (.inl (by omega))
    · exact .inr (.inl (by omega))
    · exact .inr (.inr hx)

/-- What `link` does to the blocks before the place and to the other headers. -/
theorem seg_link {new : Nat} (hseg : Seg l.mem l.head pre tail)
    (hord : Ordered unit lo hi pre) (hnew : new < 2 ^ 32) :
    Seg (l.link (lastOf 0 pre) new).mem (l.link (lastOf 0 pre) new).head pre new ∧
      ∀ a, (∀ q ∈ pre, q.1 + 8 ≤ a ∨ a + 8 ≤ q.1) →
        SameHeader l.mem (l.link (lastOf 0 pre) new).mem a := by
  rcases eq_nil_or_concat pre with rfl | ⟨init, q, hpre⟩
  · exact ⟨rfl, fun a _ => ⟨rfl, rfl⟩⟩
  rw [concat_eq_append] at hpre
  subst hpre
  obtain ⟨mid, hinit, rfl, hpos, hsize, htail⟩ := seg_append.1 hseg
  rw [lastOf_append_singleton]
  unfold Linked.link
  rw [if_neg (by omega)]
  refine ⟨seg_append.2 ⟨q.1, hinit.congr fun b hb => ?_, rfl, hpos, ?_, ?_⟩, fun a ha => ?_⟩
  · exact sameHeader_setNext (hord.headers_apart (mem_append_left _ hb))
  · rw [sizeAt_setNext]
    exact hsize
  · exact nextAt_setNext hnew
  · exact sameHeader_setNext (ha q (mem_append_right _ mem_cons_self))

end Felix.FreeList
