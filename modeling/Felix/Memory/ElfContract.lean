import Felix.Memory.AddressSpace
import Felix.Memory.Elf

/-!
# What the ELF loader touches

An access is allowed if it is to the user part below the device window, through a
page table that the kernel does not share, and, for a write, through a page that
is mapped.  The loader makes only allowed accesses, and comes to its end, for
some files only: `LoadOk` is the exact condition.  It says that the sums of
addresses do not overflow, that the pages between the lowest and the highest
address do not reach the device window, that there are frames for them, and that
the file data of every segment that gets loaded lies within the mapped pages.

The proofs go function by function.  Each of the lemmas gives the exact condition
for one function and says that the set of mapped pages stays the same.
-/

namespace Felix.Memory

open Bytes Traced Machine List

/-! ## Allowed accesses -/

/-- An access that the loader may make. -/
def Access.Allowed (kernel : Nat → Prop) : Access → Prop
  | .map page pde => page < kernelMmioBase ∧ ¬ kernel (frameOf pde)
  | .write addr len pde pte =>
    addr + len ≤ kernelMmioBase ∧ isTable pde = true ∧ ¬ kernel (frameOf pde) ∧
      present pte = true
  | .protect page pde => isTable pde = true → page < kernelMmioBase ∧ ¬ kernel (frameOf pde)

/-- The page has a byte of the `len` bytes at `addr`. -/
def Touches (addr len p : Nat) : Prop := 0 < len ∧ addr / 4096 ≤ p ∧ 4096 * p < addr + len

theorem userPage_iff {p : Nat} : UserPage p ↔ 4096 * p < kernelMmioBase := by
  unfold UserPage userEnd kernelMmioBase
  omega

section

variable {kernel : Nat → Prop} {refs : Nat → Nat} {m : Machine} {S : Nat → Prop}

/-! ## Loops over pages -/

theorem pageLoop_eq (body : Machine → Nat → Traced Access Machine) {i j : Nat}
    (hj : j * 4096 < 2 ^ 32) (m : Machine) :
    pageLoop body (i * 4096) (j * 4096) m
      = (List.range' i (j - i)).foldlM (fun m p => body m (4096 * p)) m := by
  rw [Nat.mul_comm i, Nat.mul_comm j]
  exact strideLoop_eq (fun _ _ => rfl) (by decide) body (by omega) (by omega) m

theorem mapPage_exact (h : Owned kernel refs m) (p : Nat) :
    Exact (UserPage p ∧ m.cost p ≤ m.frames.count) (Access.Allowed kernel)
      (fun m' => MapsPage kernel refs m m' p) (mapPage m (4096 * p)) := by
  unfold mapPage
  by_cases hp : UserPage p
  · rcases h.allocAndMapUserPage_eq hp with ⟨⟨e, herror⟩, hcost⟩ | ⟨m', hok, hmaps⟩
    · rw [herror]
      exact exact_not not_good_error_bind fun hC => Nat.not_le.2 hcost hC.2
    · rw [hok]
      have hcost : m.cost p ≤ m.frames.count := hmaps.count ▸ Nat.le_add_left _ _
      have htable := hmaps.owned.table _ hp ((hmaps.table _).2 (.inr rfl))
      have hallowed : Access.Allowed kernel
          (.map (4096 * p) (m'.entries (4096 * p / 4096 / 1024))) := by
        rw [Nat.mul_div_cancel_left p (by decide)]
        exact ⟨userPage_iff.1 hp, htable.2.1⟩
      apply exact_lift_bind
      refine (exact_bind exact_emit fun _ _ _ =>
        exact_pure (Q := fun m' => MapsPage kernel refs m m' p) hmaps).iff ?_
      exact iff_of_true ⟨hallowed, trivial⟩ ⟨hp, hcost⟩
  · refine exact_not (fun hgood => hp ?_) fun hC => hp hC.1
    -- the event is recorded when the page was mapped
    obtain ⟨⟨_, m', hm'⟩, hrest⟩ := good_bind.1 hgood
    exact userPage_iff.2 (good_emit.1 (good_bind.1 (hrest m' hm')).1).1

theorem mapPages_exact (l : List Nat) (h : Owned kernel refs m) :
    Exact ((∀ p ∈ l, UserPage p) ∧ m.framesFor l.toFinset ≤ m.frames.count)
      (Access.Allowed kernel) (Maps kernel refs fun p => m.Mapped p ∨ p ∈ l)
      (l.foldlM (fun m p => mapPage m (4096 * p)) m) := by
  induction l generalizing m with
  | nil =>
    have hmaps : Maps kernel refs (fun p => m.Mapped p ∨ p ∈ []) m :=
      ⟨h, fun p _ => (or_iff_left not_mem_nil).symm⟩
    refine (exact_pure hmaps).iff (iff_of_true trivial ⟨fun _ hp => ?_, ?_⟩)
    · exact absurd hp not_mem_nil
    · exact Nat.zero_le _
  | cons p l ih =>
    rw [toFinset_cons]
    by_cases hl : ∀ q ∈ l, UserPage q
    · -- the condition on the rest is known from the first page on
      have hstep : Exact ((UserPage p ∧ m.cost p ≤ m.frames.count) ∧
            m.framesFor (insert p l.toFinset) ≤ m.frames.count)
          (Access.Allowed kernel) (Maps kernel refs fun q => m.Mapped q ∨ q ∈ p :: l)
          (mapPage m (4096 * p) >>= fun m' => l.foldlM (fun m p => mapPage m (4096 * p)) m') := by
        refine exact_bind (mapPage_exact h p) fun _ m' hm' => ?_
        have hframes := hm'.framesFor_insert fun q hq => hl q (mem_toFinset.1 hq)
        have hcount := hm'.count
        obtain ⟨hgood, hres⟩ := ih hm'.owned
        refine ⟨hgood.trans ⟨fun hC => ?_, fun hC => ⟨hl, ?_⟩⟩, fun hC a ha => ?_⟩
        · omega
        · omega
        · obtain ⟨howned, hmapped⟩ := hres ⟨hl, by omega⟩ a ha
          refine ⟨howned, fun q hq => ?_⟩
          rw [hmapped q hq, hm'.mapped q hq, mem_cons, or_assoc]
      refine hstep.iff ⟨fun hC => ⟨?_, hC.2⟩, fun hC => ⟨⟨hC.1 p mem_cons_self, ?_⟩, hC.2⟩⟩
      · intro q hq
        rcases mem_cons.1 hq with rfl | hq
        · exact hC.1.1
        · exact hl q hq
      · exact Nat.le_trans (cost_le_framesFor _) hC.2
    · refine exact_not (fun hgood => hl ?_) fun hC => hl fun q hq => hC.1 q (mem_cons_of_mem p hq)
      obtain ⟨hfirst, hrest⟩ := good_bind.1 hgood
      obtain ⟨hC, hmaps⟩ := mapPage_exact h p
      obtain ⟨m', hm'⟩ := hfirst.2
      have hmaps' := hmaps (hC.1 hfirst) m' hm'
      exact ((ih hmaps'.owned).1.1 (hrest m' hm')).1

/-- Pages that are mapped already are mapped once more. -/
theorem mapAgain_exact (h : Maps kernel refs S m) (l : List Nat) (hl : ∀ p ∈ l, UserPage p ∧ S p) :
    Exact True (Access.Allowed kernel) (Maps kernel refs S)
      (l.foldlM (fun m p => mapPage m (4096 * p)) m) := by
  have hmapped : ∀ p ∈ l, m.Mapped p := fun p hp => (h.mapped p (hl p hp).1).2 (hl p hp).2
  have hzero : m.framesFor l.toFinset = 0 := by
    unfold framesFor
    rw [Finset.filter_false_of_mem, Finset.filter_false_of_mem]
    · rfl
    · intro i hi
      obtain ⟨p, hp, rfl⟩ := Finset.mem_image.1 hi
      exact not_not.2 (hmapped p (mem_toFinset.1 hp)).1
    · intro p hp
      exact not_not.2 (hmapped p (mem_toFinset.1 hp))
  obtain ⟨hgood, hres⟩ := mapPages_exact l h.owned
  have hC : (∀ p ∈ l, UserPage p) ∧ m.framesFor l.toFinset ≤ m.frames.count :=
    ⟨fun p hp => (hl p hp).1, hzero ▸ Nat.zero_le _⟩
  refine ⟨hgood.trans (iff_of_true hC trivial), fun _ m' hm' => ?_⟩
  obtain ⟨howned, hmapped'⟩ := hres hC m' hm'
  refine ⟨howned, fun p hp => (hmapped' p hp).trans ?_⟩
  rw [h.mapped p hp]
  exact ⟨fun hor => hor.elim id fun hmem => (hl p hmem).2, .inl⟩

theorem protectPage_exact (writable : Bool) (h : Maps kernel refs S m) {p : Nat} (hp : UserPage p) :
    Exact True (Access.Allowed kernel) (Maps kernel refs S)
      (protectPage writable m (4096 * p)) := by
  have hallowed : Access.Allowed kernel
      (.protect (4096 * p) (m.entries (4096 * p / 4096 / 1024))) := by
    rw [Nat.mul_div_cancel_left p (by decide)]
    exact fun ht => ⟨userPage_iff.1 hp, (h.owned.table _ hp ht).2.1⟩
  obtain ⟨howned, hmapped⟩ := h.owned.setUserPageWritable hp writable
  have hmaps : Maps kernel refs S (m.setUserPageWritable (4096 * p) writable) :=
    ⟨howned, fun q hq => (hmapped q hq).trans (h.mapped q hq)⟩
  exact (exact_bind exact_emit fun _ _ _ => exact_pure hmaps).iff
    (iff_of_true ⟨hallowed, trivial⟩ trivial)

/-! ## Writes -/

/-- The first piece of a write is within one page; what is left is at the start
of the next one. -/
theorem touches_split {addr len chunk p : Nat} (hlen : 0 < len)
    (hchunk : chunk = min len (4096 - addr % 4096)) :
    Touches addr len p ↔ p = addr / 4096 ∨ Touches (addr + chunk) (len - chunk) p := by
  unfold Touches
  omega

theorem writeUserVirt_exact : ∀ fuel m vaddr data, Maps kernel refs S m → data.length < fuel →
      Exact (∀ p, Touches vaddr data.length p → UserPage p ∧ S p) (Access.Allowed kernel)
        (Maps kernel refs S) (writeUserVirt fuel m vaddr data) := by
  intro fuel
  induction fuel with
  | zero =>
    intro m vaddr data _ hfuel
    omega
  | succ fuel ih =>
    intro m vaddr data h hfuel
    unfold writeUserVirt
    by_cases hdata : data = []
    · rw [hdata]
      exact (exact_pure h).iff (iff_of_true trivial fun p hp => absurd hp.1 (Nat.lt_irrefl 0))
    rw [if_neg hdata]
    have hlen : 0 < data.length := length_pos_iff.2 hdata
    obtain ⟨chunk, hchunk⟩ : ∃ chunk, chunk = min data.length (4096 - vaddr % 4096) := ⟨_, rfl⟩
    simp only [← hchunk]
    have hfirst : Access.Allowed kernel (.write vaddr chunk (m.entries (vaddr / 4096 / 1024))
          (m.pteOf (m.entries (vaddr / 4096 / 1024)) (vaddr / 4096 % 1024)))
        ↔ UserPage (vaddr / 4096) ∧ S (vaddr / 4096) := by
      have huser : vaddr + chunk ≤ kernelMmioBase ↔ UserPage (vaddr / 4096) := by
        rw [userPage_iff]
        unfold kernelMmioBase
        omega
      show _ ∧ _ ∧ _ ∧ _ ↔ _
      rw [huser]
      refine and_congr_right fun hp => ?_
      rw [← h.mapped _ hp]
      exact ⟨fun hw => ⟨hw.1, hw.2.2⟩, fun hm => ⟨hm.1, (h.owned.table _ hp hm.1).2.1, hm.2⟩⟩
    refine (exact_bind (exact_emit) (D := ∀ p, Touches (vaddr + chunk) (data.length - chunk) p →
      UserPage p ∧ S p) fun hallowed _ _ => ?_).iff ?_
    · obtain ⟨hp, hS⟩ := hfirst.1 hallowed
      have hsum : vaddr + chunk < 2 ^ 32 := by
        have hle : vaddr + chunk ≤ kernelMmioBase := hallowed.1
        unfold kernelMmioBase at hle
        omega
      rw [addW_ok hsum]
      obtain ⟨howned, hmapped⟩ := h.owned.writeData hp ((h.mapped _ hp).2 hS)
        (splice (vaddr % 4096) chunk (fun k => data.getD k 0) (m.phys (m.dataFrame (vaddr / 4096))))
      have hrest := ih _ (vaddr + chunk) (data.drop chunk)
        ⟨howned, fun q hq => (hmapped q hq).trans (h.mapped q hq)⟩
        (by rw [length_drop]; omega)
      rw [length_drop] at hrest
      exact exact_lift_bind hrest
    · rw [hfirst]
      constructor
      · rintro ⟨hone, hrest⟩ p hp
        rcases (touches_split hlen hchunk).1 hp with rfl | hp
        · exact hone
        · exact hrest p hp
      · intro hall
        exact ⟨hall _ ((touches_split hlen hchunk).2 (.inl rfl)),
          fun p hp => hall p ((touches_split hlen hchunk).2 (.inr hp))⟩

end

/-! ## The condition -/

/-- The segment is not below the device window. -/
def OutOfRange (ph : ProgramHeader) : Prop :=
  kernelMmioBase ≤ low32 ph.pVaddr ∨ kernelMmioBase < low32 ph.pVaddr + low32 ph.pMemsz

/-- The file ends before the data of the segment. -/
def Truncated (len : Nat) (ph : ProgramHeader) : Prop :=
  0 < low32 ph.pFilesz ∧ len < low32 ph.pOffset + low32 ph.pFilesz

/-- The loader gives up at the segment. -/
def Rejected (len : Nat) (ph : ProgramHeader) : Prop := OutOfRange ph ∨ Truncated len ph

/-- The data of the segment can be found in the file, or it is seen that it is not
there, and it goes to pages of `S`. -/
def DataOk (S : Nat → Prop) (len : Nat) (ph : ProgramHeader) : Prop :=
  0 < low32 ph.pFilesz → low32 ph.pOffset + low32 ph.pFilesz < 2 ^ 32 ∧
    (len < low32 ph.pOffset + low32 ph.pFilesz ∨
      ∀ p, Touches (low32 ph.pVaddr) (low32 ph.pFilesz) p → UserPage p ∧ S p)

/-- The segments that are loaded before one is rejected are in order, and so is
that one. -/
def SegmentsOk (S : Nat → Prop) (len : Nat) : List ProgramHeader → Prop
  | [] => True
  | ph :: rest =>
    if isLoad ph = true then
      (OutOfRange ph ∨ DataOk S len ph) ∧ (¬ Rejected len ph → SegmentsOk S len rest)
    else SegmentsOk S len rest

/-- The lowest address of a segment. -/
def lowest (segments : List ProgramHeader) (minAddr : Nat) : Nat :=
  ((segments.filter isLoad).map fun ph => low32 ph.pVaddr).foldl min minAddr

/-- The end of the highest segment. -/
def highest (segments : List ProgramHeader) (maxAddr : Nat) : Nat :=
  ((segments.filter isLoad).map fun ph => low32 ph.pVaddr + low32 ph.pMemsz).foldl max maxAddr

/-- The pages that are mapped before the segments are looked at. -/
def gapPages (segments : List ProgramHeader) : List Nat :=
  let first := lowest segments (2 ^ 32 - 1) / 4096
  let last := (highest segments 0 + 0xFFF) / 4096
  (List.range' first (last - first)).filter fun p => 4096 * p < 0xC0000000

/-- The condition for a file of `len` bytes with these segments. -/
structure LoadOk (m : Machine) (len : Nat) (segments : List ProgramHeader) : Prop where
  sums : ∀ ph ∈ segments, isLoad ph = true → low32 ph.pVaddr + low32 ph.pMemsz < 2 ^ 32
  top : highest segments 0 + 0xFFF < 2 ^ 32
  pages : ∀ p ∈ gapPages segments, UserPage p
  frames : m.framesFor (gapPages segments).toFinset ≤ m.frames.count
  data : SegmentsOk (fun p => m.Mapped p ∨ p ∈ gapPages segments) len segments
  ends : (∀ ph ∈ segments, isLoad ph = true → ¬ Rejected len ph) →
    ∀ ph ∈ segments, isLoad ph = true → ph.pVaddr.toNat + ph.pMemsz.toNat + 4096 < 2 ^ 64

/-! ## Segments -/

section

variable {kernel : Nat → Prop} {refs : Nat → Nat} {m : Machine} {S : Nat → Prop}
variable {ph : ProgramHeader} {segments : List ProgramHeader} {ok : Prop}

/-- The pages of the segment are among those of `S`. -/
def Covers (S : Nat → Prop) (ph : ProgramHeader) : Prop :=
  ∀ p, low32 ph.pVaddr / 4096 ≤ p →
    p < (low32 ph.pVaddr + low32 ph.pMemsz + 4095) / 4096 → UserPage p → S p

/-- How the loading of a segment ends: with success exactly if `ok`. -/
def Outcome (kernel : Nat → Prop) (refs : Nat → Nat) (S : Nat → Prop) (ok : Prop)
    (r : Except ElfLoadError Unit × Machine) : Prop :=
  Maps kernel refs S r.2 ∧ (r.1 = .ok () ↔ ok)

theorem outcome_ok (h : Maps kernel refs S m) (hok : ok) : Outcome kernel refs S ok (.ok (), m) :=
  ⟨h, iff_of_true rfl hok⟩

theorem outcome_error (h : Maps kernel refs S m) (hok : ¬ ok) (e : ElfLoadError) :
    Outcome kernel refs S ok (.error e, m) :=
  ⟨h, iff_of_false (fun heq => nomatch heq) hok⟩

theorem userPage_of_inRange (hrange : ¬ OutOfRange ph) {p : Nat}
    (hp : p < (low32 ph.pVaddr + low32 ph.pMemsz + 4095) / 4096) : UserPage p := by
  rw [userPage_iff]
  unfold OutOfRange at hrange
  omega

theorem clearBss_exact (h : Maps kernel refs S m) (hrange : ¬ OutOfRange ph)
    (hcovers : Covers S ph) :
    Exact True (Access.Allowed kernel) (Maps kernel refs S) (clearBss ph m) := by
  unfold clearBss
  dsimp only
  split
  · have hsum : low32 ph.pVaddr + low32 ph.pFilesz < 2 ^ 32 := by
      unfold OutOfRange kernelMmioBase at hrange
      omega
    rw [addW_ok hsum]
    apply exact_lift_bind
    have hwrite := writeUserVirt_exact (low32 ph.pMemsz - low32 ph.pFilesz + 1) m
      (low32 ph.pVaddr + low32 ph.pFilesz)
      (List.replicate (low32 ph.pMemsz - low32 ph.pFilesz) 0) h
      (by rw [length_replicate]; omega)
    refine hwrite.iff (iff_of_true (fun p hp => ?_) trivial)
    rw [length_replicate] at hp
    unfold Touches at hp
    have huser := userPage_of_inRange (p := p) hrange (by omega)
    exact ⟨huser, hcovers p (by omega) (by omega) huser⟩
  · exact exact_pure h

theorem fillSegment_exact (h : Maps kernel refs S m) (hrange : ¬ OutOfRange ph)
    (hcovers : Covers S ph) (binary : List UInt8) :
    Exact (DataOk S binary.length ph) (Access.Allowed kernel)
      (Outcome kernel refs S (¬ Truncated binary.length ph))
      (fillSegment ph binary m) := by
  -- what follows the file data
  have hrest : ∀ m', Maps kernel refs S m' → ¬ Truncated binary.length ph →
      Exact True (Access.Allowed kernel)
        (Outcome kernel refs S (¬ Truncated binary.length ph))
        (do let m ← clearBss ph m'; pure ((.ok () : Except ElfLoadError Unit), m)) := by
    intro m' h' htrunc
    refine (exact_bind (clearBss_exact h' hrange hcovers) fun _ m'' h'' => ?_).iff and_self_iff
    exact exact_pure (outcome_ok h'' htrunc)
  unfold fillSegment
  dsimp only
  split
  · rename_i hpos
    by_cases hsum : low32 ph.pOffset + low32 ph.pFilesz < 2 ^ 32
    · rw [addW_ok hsum]
      apply exact_lift_bind
      split
      · rename_i hlt
        exact (exact_pure (outcome_error h (not_not.2 ⟨hpos, hlt⟩) _)).iff
          (iff_of_true trivial fun _ => ⟨hsum, .inl hlt⟩)
      rename_i hle
      have hlen : ((binary.drop (low32 ph.pOffset)).take (low32 ph.pFilesz)).length
          = low32 ph.pFilesz := by
        rw [length_take, length_drop]
        omega
      have hcopy := writeUserVirt_exact (low32 ph.pFilesz + 1) m (low32 ph.pVaddr)
        ((binary.drop (low32 ph.pOffset)).take (low32 ph.pFilesz)) h (by omega)
      unfold copyToUserVirt
      rw [hlen] at hcopy ⊢
      refine (exact_bind hcopy fun _ m' h' => hrest m' h' fun ht => hle ht.2).iff ?_
      unfold DataOk
      simp only [hpos, hsum, hle, true_and, and_true, false_or, forall_const]
    · refine exact_not ?_ fun hC => hsum (hC hpos).1
      rw [show addW 32 (low32 ph.pOffset) (low32 ph.pFilesz) = .error .overflow from if_neg hsum]
      exact not_good_error_bind
  · rename_i hpos
    refine (hrest m h fun ht => hpos ht.1).iff (iff_of_true trivial fun hpos' => absurd hpos' hpos)

theorem loadSegment_exact (h : Maps kernel refs S m) (hcovers : Covers S ph) (binary : List UInt8) :
    Exact (OutOfRange ph ∨ DataOk S binary.length ph) (Access.Allowed kernel)
      (Outcome kernel refs S (¬ Rejected binary.length ph))
      (loadSegment ph binary m) := by
  unfold loadSegment
  have hsat : (kernelMmioBase ≤ low32 ph.pVaddr ∨
      kernelMmioBase < min (low32 ph.pVaddr + low32 ph.pMemsz) (2 ^ 32 - 1)) ↔ OutOfRange ph := by
    unfold OutOfRange kernelMmioBase
    omega
  by_cases hrange : OutOfRange ph
  · simp only [if_pos (hsat.2 hrange)]
    exact (exact_pure (outcome_error h (not_not.2 (.inl hrange)) _)).iff
      (iff_of_true trivial (.inl hrange))
  simp only [if_neg fun hlt => hrange (hsat.1 hlt)]
  have hle : low32 ph.pVaddr + low32 ph.pMemsz ≤ kernelMmioBase := by
    unfold OutOfRange at hrange
    omega
  unfold kernelMmioBase at hle
  rw [addW_ok (by omega)]
  apply exact_lift_bind
  rw [addW_ok (by omega)]
  apply exact_lift_bind
  apply exact_lift_bind
  rw [pageLoop_eq _ (by omega)]
  have hmap := mapAgain_exact h (List.range' (low32 ph.pVaddr / 4096)
      ((low32 ph.pVaddr + low32 ph.pMemsz + 4095) / 4096 - low32 ph.pVaddr / 4096)) fun p hp => by
    rw [mem_range'_1] at hp
    have huser := userPage_of_inRange (p := p) hrange (by omega)
    exact ⟨huser, hcovers p hp.1 (by omega) huser⟩
  refine (exact_bind hmap (D := DataOk S binary.length ph) fun _ m' h' => ?_).iff ?_
  · obtain ⟨hgood, hres⟩ := fillSegment_exact h' hrange hcovers binary
    refine ⟨hgood, fun hC r hr => ?_⟩
    obtain ⟨hmaps, hok⟩ := hres hC r hr
    exact ⟨hmaps, hok.trans (not_congr (or_iff_right hrange).symm)⟩
  · rw [true_and, or_iff_right hrange]

theorem loadSegments_exact (binary : List UInt8)
    (h : Maps kernel refs S m) (hcovers : ∀ ph ∈ segments, isLoad ph = true → Covers S ph) :
    Exact (SegmentsOk S binary.length segments) (Access.Allowed kernel)
      (Outcome kernel refs S (∀ ph ∈ segments, isLoad ph = true → ¬ Rejected binary.length ph))
      (loadSegments binary segments m) := by
  induction segments generalizing m with
  | nil => exact exact_pure (outcome_ok h fun _ hph => absurd hph not_mem_nil)
  | cons ph rest ih =>
    unfold loadSegments SegmentsOk
    by_cases hload : ph.pType = ptLoad
    · have hload' : isLoad ph = true := decide_eq_true hload
      rw [if_pos hload, if_pos hload']
      refine exact_bind (loadSegment_exact h (hcovers ph mem_cons_self hload') binary)
        fun _ r hr => ?_
      obtain ⟨r, m'⟩ := r
      obtain ⟨hmaps, hok⟩ := hr
      cases r with
      | error e =>
        have hrej : Rejected binary.length ph := by
          by_contra hnot
          exact nomatch hok.2 hnot
        refine (exact_pure (outcome_error hmaps ?_ e)).iff
          (iff_of_true trivial fun hnot => absurd hrej hnot)
        exact fun hall => hall ph mem_cons_self hload' hrej
      | ok u =>
        have hnot : ¬ Rejected binary.length ph := hok.1 rfl
        obtain ⟨hgood, hres⟩ := ih hmaps fun ph' hph' =>
          hcovers ph' (mem_cons_of_mem ph hph')
        refine Exact.iff ⟨hgood, fun hC r hr => ?_⟩
          ⟨fun hC _ => hC, fun hC => hC hnot⟩
        refine ⟨(hres hC r hr).1, (hres hC r hr).2.trans ?_⟩
        rw [forall_mem_cons]
        exact (and_iff_right fun _ => hnot).symm
    · have hload' : ¬ isLoad ph = true := fun h => hload (of_decide_eq_true h)
      rw [if_neg hload, if_neg hload']
      obtain ⟨hgood, hres⟩ := ih h fun ph' hph' => hcovers ph' (mem_cons_of_mem ph hph')
      refine ⟨hgood, fun hC r hr => ⟨(hres hC r hr).1, (hres hC r hr).2.trans ?_⟩⟩
      rw [forall_mem_cons]
      exact (and_iff_right fun h => absurd h hload').symm

/-! ## Permissions -/

/-- The end of the pages of a segment, as the loops that set permissions compute
it from 64-bit words. -/
theorem protect_end {v n : UInt64} (h : low32 v + low32 n ≤ kernelMmioBase) :
    (v.toNat + n.toNat + 4096 - 1) / 4096 * 4096 % 2 ^ 32
      = (low32 v + low32 n + 4095) / 4096 * 4096 := by
  unfold low32 kernelMmioBase at *
  omega

theorem protectSegments_exact {chosen : ProgramHeader → Bool} (writable : Bool)
    (h : Maps kernel refs S m)
    (hrange : ∀ ph ∈ segments, chosen ph = true → ¬ OutOfRange ph) :
    Exact (∀ ph ∈ segments, chosen ph = true → ph.pVaddr.toNat + ph.pMemsz.toNat + 4096 < 2 ^ 64)
      (Access.Allowed kernel) (Maps kernel refs S)
      (protectSegments chosen writable segments m) := by
  induction segments generalizing m with
  | nil => exact (exact_pure h).iff (iff_of_true trivial fun _ hph => absurd hph not_mem_nil)
  | cons ph rest ih =>
    have hrange' : ∀ ph' ∈ rest, chosen ph' = true → ¬ OutOfRange ph' :=
      fun ph' hph' => hrange ph' (mem_cons_of_mem ph hph')
    unfold protectSegments
    rw [forall_mem_cons]
    by_cases hchosen : chosen ph = true
    · rw [if_neg (by rw [hchosen]; decide)]
      have hin := hrange ph mem_cons_self hchosen
      have hle : low32 ph.pVaddr + low32 ph.pMemsz ≤ kernelMmioBase := by
        unfold OutOfRange at hin
        omega
      have huser : ∀ p ∈ List.range' (low32 ph.pVaddr / 4096)
          ((low32 ph.pVaddr + low32 ph.pMemsz + 4095) / 4096 - low32 ph.pVaddr / 4096),
          UserPage p := by
        intro p hp
        rw [mem_range'_1] at hp
        exact userPage_of_inRange hin (by omega)
      refine (exact_bind exact_addW (D := ph.pVaddr.toNat + ph.pMemsz.toNat + 4096 < 2 ^ 64 ∧ True ∧
        ∀ ph ∈ rest, chosen ph = true → ph.pVaddr.toNat + ph.pMemsz.toNat + 4096 < 2 ^ 64)
        fun _ stop hstop => ?_).iff ?_
      · subst hstop
        refine exact_bind exact_addW fun _ stop hstop => ?_
        subst hstop
        apply exact_lift_bind
        rw [protect_end hle, pageLoop_eq _ (by unfold kernelMmioBase at hle; omega)]
        refine exact_bind (exact_foldlM (fun p hp m h =>
          protectPage_exact writable h (huser p hp)) h) fun _ m' h' => ih h' hrange'
      · simp only [hchosen, forall_const, true_and]
        exact ⟨fun ⟨_, hsum, hrest⟩ => ⟨hsum, hrest⟩, fun ⟨hsum, hrest⟩ => ⟨by omega, hsum, hrest⟩⟩
    · rw [if_pos (Bool.not_eq_true _ ▸ hchosen)]
      refine (ih h hrange').iff ?_
      exact (and_iff_right fun h => absurd h hchosen).symm

end

/-! ## The address range -/

theorem addressRange_eq (segments : List ProgramHeader) (minAddr maxAddr : Nat) :
    (∀ r, addressRange segments minAddr maxAddr = .ok r →
      r = (lowest segments minAddr, highest segments maxAddr)) ∧
    ((∃ r, addressRange segments minAddr maxAddr = .ok r) ↔
      ∀ ph ∈ segments, isLoad ph = true → low32 ph.pVaddr + low32 ph.pMemsz < 2 ^ 32) := by
  induction segments generalizing minAddr maxAddr with
  | nil =>
    refine ⟨fun r hr => ?_, iff_of_true ⟨_, rfl⟩ fun _ hph => absurd hph not_mem_nil⟩
    cases hr
    rfl
  | cons ph rest ih =>
    unfold addressRange lowest highest
    dsimp only
    rw [forall_mem_cons]
    by_cases hload : ph.pType = ptLoad
    · have hload' : isLoad ph = true := decide_eq_true hload
      rw [if_neg (not_not.2 hload), filter_cons_of_pos hload']
      by_cases hsum : low32 ph.pVaddr + low32 ph.pMemsz < 2 ^ 32
      · rw [addW_ok hsum]
        obtain ⟨hval, hiff⟩ := ih (min minAddr (low32 ph.pVaddr))
          (max maxAddr (low32 ph.pVaddr + low32 ph.pMemsz))
        exact ⟨hval, hiff.trans (and_iff_right fun _ => hsum).symm⟩
      rw [show addW 32 (low32 ph.pVaddr) (low32 ph.pMemsz) = .error .overflow from if_neg hsum]
      refine ⟨fun r hr => (nomatch hr), iff_of_false ?_ fun hall => hsum (hall.1 hload')⟩
      rintro ⟨r, hr⟩
      exact nomatch hr
    · have hload' : ¬ isLoad ph = true := fun h => hload (of_decide_eq_true h)
      rw [if_pos hload, filter_cons_of_neg hload']
      obtain ⟨hval, hiff⟩ := ih minAddr maxAddr
      exact ⟨hval, hiff.trans (and_iff_right fun h => absurd h hload').symm⟩

/-- The fold of a minimum, or of a maximum. -/
theorem foldl_bound {r : Nat → Nat → Prop} [IsPreorder Nat r] {op : Nat → Nat → Nat}
    (hop : ∀ a b, r (op a b) a ∧ r (op a b) b) (l : List Nat) (a : Nat) :
    r (l.foldl op a) a ∧ ∀ b ∈ l, r (l.foldl op a) b := by
  induction l generalizing a with
  | nil => exact ⟨refl_of r a, fun _ hb => absurd hb not_mem_nil⟩
  | cons c l ih =>
    obtain ⟨hfirst, hall⟩ := ih (op a c)
    refine ⟨trans_of r hfirst (hop a c).1, forall_mem_cons.2 ⟨?_, hall⟩⟩
    exact trans_of r hfirst (hop a c).2

/-- The pages that are mapped first are those of all segments. -/
theorem mem_gapPages {segments : List ProgramHeader} {ph : ProgramHeader}
    (hph : ph ∈ segments) (hload : isLoad ph = true) {p : Nat} (hlow : low32 ph.pVaddr / 4096 ≤ p)
    (hhigh : p < (low32 ph.pVaddr + low32 ph.pMemsz + 4095) / 4096) (huser : UserPage p) :
    p ∈ gapPages segments := by
  have hmem : ph ∈ segments.filter isLoad := mem_filter.2 ⟨hph, hload⟩
  have hmin : lowest segments (2 ^ 32 - 1) ≤ low32 ph.pVaddr :=
    (foldl_bound (fun a b => ⟨Nat.min_le_left a b, Nat.min_le_right a b⟩) _ _).2 _
      (mem_map.2 ⟨ph, hmem, rfl⟩)
  have hmax : low32 ph.pVaddr + low32 ph.pMemsz ≤ highest segments 0 :=
    (foldl_bound (r := (· ≥ ·)) (fun a b => ⟨Nat.le_max_left a b, Nat.le_max_right a b⟩) _ _).2 _
      (mem_map.2 ⟨ph, hmem, rfl⟩)
  rw [userPage_iff, kernelMmioBase] at huser
  refine mem_filter.2 ⟨?_, decide_eq_true (by omega)⟩
  rw [mem_range'_1]
  omega

/-! ## The loader -/

section

variable {kernel : Nat → Prop} {refs : Nat → Nat} {m : Machine}

/-- Pages that are not looked at need not be in the list. -/
theorem foldlM_mapBelowKernel (l : List Nat) : l.foldlM (fun m p => mapBelowKernel m (4096 * p)) m
      = (l.filter fun p => 4096 * p < 0xC0000000).foldlM (fun m p => mapPage m (4096 * p)) m := by
  rw [foldlM_filter]
  simp only [decide_eq_true_eq]
  rfl

theorem loadImage_exact (h : Owned kernel refs m) (binary : List UInt8)
    (segments : List ProgramHeader) (eEntry : UInt64) :
    Good (Access.Allowed kernel) (loadImage binary segments eEntry m)
      ↔ LoadOk m binary.length segments := by
  obtain ⟨hval, hiff⟩ := addressRange_eq segments (2 ^ 32 - 1) 0
  have hrange : Exact _ (Access.Allowed kernel)
      (fun r => r = (lowest segments (2 ^ 32 - 1), highest segments 0))
      (lift (addressRange segments (2 ^ 32 - 1) 0)) := exact_lift hiff fun _ => hval
  have hexact : Exact ((∀ ph ∈ segments, isLoad ph = true →
        low32 ph.pVaddr + low32 ph.pMemsz < 2 ^ 32) ∧
      highest segments 0 + 0xFFF < 2 ^ 32 ∧
      ((∀ p ∈ gapPages segments, UserPage p) ∧
        m.framesFor (gapPages segments).toFinset ≤ m.frames.count) ∧
      SegmentsOk (fun p => m.Mapped p ∨ p ∈ gapPages segments) binary.length segments ∧
      ((∀ ph ∈ segments, isLoad ph = true → ¬ Rejected binary.length ph) →
        ∀ ph ∈ segments, isLoad ph = true → ph.pVaddr.toNat + ph.pMemsz.toNat + 4096 < 2 ^ 64))
      (Access.Allowed kernel) (fun _ => True) (loadImage binary segments eEntry m) := by
    refine exact_bind hrange fun _ r hr => ?_
    subst hr
    refine exact_bind exact_addW fun htop stop hstop => ?_
    subst hstop
    rw [pageLoop_eq _ (by omega), foldlM_mapBelowKernel]
    refine exact_bind (mapPages_exact (gapPages segments) h) fun _ m' hm' => ?_
    refine exact_bind (loadSegments_exact binary hm' fun ph hph hload p hlow hhigh hp =>
      .inr (mem_gapPages hph hload hlow hhigh hp)) fun _ r hr => ?_
    obtain ⟨r, m''⟩ := r
    obtain ⟨hmaps, hok⟩ := hr
    cases r with
    | error e =>
      refine (exact_pure trivial).iff (iff_of_true trivial fun hall => ?_)
      exact nomatch hok.2 hall
    | ok u =>
      have hall := hok.1 rfl
      have hin : ∀ ph ∈ segments, isLoad ph = true → ¬ OutOfRange ph :=
        fun ph hph hload hout => hall ph hph hload (.inl hout)
      have hwritable : ∀ ph, isWritableLoad ph = true → isLoad ph = true := fun ph hw =>
        decide_eq_true (of_decide_eq_true hw).1
      refine (exact_bind (protectSegments_exact false hmaps hin)
        (D := True) fun hends m₁ h₁ => ?_).iff ?_
      · refine (exact_bind (protectSegments_exact true h₁
          fun ph hph hw => hin ph hph (hwritable ph hw)) fun _ m₂ h₂ => exact_pure trivial).iff ?_
        exact iff_of_true ⟨fun ph hph hw => hends ph hph (hwritable ph hw), trivial⟩ trivial
      · rw [and_true]
        exact ⟨fun hends _ => hends, fun hends => hends hall⟩
  exact hexact.1.trans ⟨fun ⟨hsums, htop, ⟨hpages, hframes⟩, hdata, hends⟩ =>
    ⟨hsums, htop, hpages, hframes, hdata, hends⟩, fun hok =>
    ⟨hok.sums, hok.top, ⟨hok.pages, hok.frames⟩, hok.data, hok.ends⟩⟩

/-- The condition for a file: it is refused before anything is mapped, or its
segments are in order. -/
def FileOk (parse : List UInt8 → Option ElfFile) (binary : List UInt8) (m : Machine) : Prop :=
  ∀ file, parse binary = some file → file.eType = etExec → file.eMachine = em386 →
    ∀ segments, file.segments = some segments → LoadOk m binary.length segments

/-- Every call of `load_elf` comes to its end, without a fault and with allowed
accesses only, exactly if the file is in order. -/
theorem load_elf_allowed_iff (h : Owned kernel refs m) (parse : List UInt8 → Option ElfFile)
    (binary : List UInt8) :
    Good (Access.Allowed kernel) (loadElf parse binary m) ↔ FileOk parse binary m := by
  unfold loadElf FileOk
  cases hparse : parse binary with
  | none => exact iff_of_true (good_pure _) fun _ hfile => nomatch hfile
  | some file =>
    simp only [Option.some.injEq, forall_eq']
    by_cases htype : file.eType = etExec
    · by_cases hmachine : file.eMachine = em386
      · rw [if_neg (not_not.2 htype), if_neg (not_not.2 hmachine)]
        cases hsegments : file.segments with
        | none => exact iff_of_true (good_pure _) fun _ _ _ hsome => (nomatch hsome)
        | some segments =>
          refine (loadImage_exact h binary segments file.eEntry).trans ?_
          exact ⟨fun hok _ _ _ heq => Option.some.inj heq ▸ hok,
            fun hok => hok htype hmachine segments rfl⟩
      · rw [if_neg (not_not.2 htype), if_pos hmachine]
        exact iff_of_true (good_pure _) fun _ heq => absurd heq hmachine
    · rw [if_pos htype]
      exact iff_of_true (good_pure _) fun heq => absurd heq htype

end

/-! ## Two files -/

/-- A kernel with 16 large pages and one page table for the device window. -/
def smallKernelPd (i : Nat) : UInt32 :=
  if i < 16 then entry (1024 * i) 0xA3 else if i = 764 then entry 0x2700 3 else 0

/-- A new address space with memory for some pages. -/
def newSpace : Machine where
  entries := copyKernelMappings smallKernelPd 16 0x27FF000 fun _ => 0
  phys := fun _ _ => 0
  frames := ⟨0x2800, [], 0x4000, fun _ => false⟩

theorem newSpace_owned : Owned (KernelTable smallKernelPd) (fun _ => 0) newSpace := by
  refine owned_copyKernelMappings (by decide) ⟨?_, fun _ _ => rfl, by decide, by decide⟩
    (fun f hf => Bool.noConfusion hf) (fun f hf => ⟨?_, rfl⟩)
    (fun f hf => absurd hf (Nat.lt_irrefl 0)) rfl
  · exact fun f hf => absurd hf not_mem_nil
  have hle : 0x2800 ≤ f := by
    rcases hf with hmem | hrange
    · exact absurd hmem not_mem_nil
    · exact hrange.1
  rintro ⟨i, hi, htable, hframe⟩
  unfold smallKernelPd at htable hframe
  split at htable
  · have hlarge : largePage (entry (1024 * i) 0xA3) = true := testBit_entry (by decide)
    simp [isTable, hlarge] at htable
  split at htable
  · rename_i hlow hwindow
    rw [if_neg hlow, if_pos hwindow, frameOf_entry (by decide) (by decide)] at hframe
    omega
  · exact absurd htable (by decide)

/-- A file with one loadable segment. -/
def oneSegment (vaddr filesz memsz : UInt64) : ElfFile :=
  ⟨etExec, em386, vaddr, some [⟨ptLoad, 5, 0, vaddr, filesz, memsz⟩]⟩

/-- A segment of sixteen bytes at 4 MiB is loaded as it should be. -/
theorem load_elf_allowed_newSpace :
    FileOk (fun _ => some (oneSegment 0x400000 16 16)) (List.replicate 16 0x90) newSpace ∧
      Good (Access.Allowed (KernelTable smallKernelPd))
        (loadElf (fun _ => some (oneSegment 0x400000 16 16)) (List.replicate 16 0x90)
          newSpace) := by
  have hok : FileOk (fun _ => some (oneSegment 0x400000 16 16)) (List.replicate 16 0x90)
      newSpace := by
    rintro file hfile _ _ segments hsegments
    cases hfile
    cases hsegments
    refine ⟨by decide, by decide, by decide, Nat.le_trans (framesFor_le _) (by decide), ?_,
      fun _ => by decide⟩
    have hpage : ∀ p, Touches 0x400000 16 p → p = 0x400 := by
      intro p hp
      unfold Touches at hp
      omega
    refine ⟨.inr fun _ => ⟨by decide, .inr fun p hp => ?_⟩, fun _ => trivial⟩
    rw [hpage p hp]
    exact ⟨by decide, .inr (by decide)⟩
  exact ⟨hok, (load_elf_allowed_iff newSpace_owned _ _).2 hok⟩

/-- A segment of one byte in the device window is refused, but only after its page
was mapped through the page table of the kernel. -/
theorem newSpace_maps_window : (loadElf (fun _ => some (oneSegment 0xBF000000 0 1)) [] newSpace).log
        = [.map 0xBF000000 (entry 0x2700 7)] ∧
      ¬ Good (Access.Allowed (KernelTable smallKernelPd))
        (loadElf (fun _ => some (oneSegment 0xBF000000 0 1)) [] newSpace) := by
  have hlog : (loadElf (fun _ => some (oneSegment 0xBF000000 0 1)) [] newSpace).log
      = [.map 0xBF000000 (entry 0x2700 7)] := by decide +kernel
  refine ⟨hlog, fun hgood => ?_⟩
  have hallowed := hgood.1 _ (hlog ▸ mem_singleton_self _)
  exact absurd hallowed.1 (by decide)

end Felix.Memory
