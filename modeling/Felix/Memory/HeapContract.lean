import Mathlib.Data.Nat.Prime.Basic
import Mathlib.Tactic.IntervalCases
import Felix.Memory.Arena
import Felix.Memory.Heap

/-!
# What the heap calls hand out

A run of calls of one process, together with the blocks that it was given.
`HeapCall.Safe` is what one expects of a call: no arithmetic check fails, and a
block that is returned is aligned, lies in the heap and meets none of the earlier
blocks.

`SYS_REALLOC` does not look at the limit of the heap, `sys_brk` can move the break
back below a block, and `SYS_MALLOC` does not keep an alignment of more than a page.
`HeapCall.Tame` excludes these calls, and one that would be the 2^32nd use of a page.
`tame_heap_calls_safe` is the result for runs without them.

There are three groups.

* The parts of the calls in which no check fails.  `usePages_checked` is the loop
  over the pages.
* `Bumps` is what an allocation does to the break.
* The invariant: no block reaches beyond the break, and the break not beyond the limit.
-/

namespace Felix.Memory

open Res

namespace HeapTask

variable {t : HeapTask} {slot start stop size align : Nat} (m : Machine)

/-! ## Rounding -/

def roundUp (start align : Nat) : Nat := (start + (align - 1)) / align * align

theorem dvd_roundUp : align ∣ roundUp start align := Dvd.intro_left _ rfl

theorem le_roundUp (h : 0 < align) : start ≤ roundUp start align := by
  have hdiv := Nat.div_add_mod' (start + (align - 1)) align
  have hmod := Nat.mod_lt (start + (align - 1)) h
  unfold roundUp
  omega

theorem roundUp_le {bound : Nat} (h : 0 < align) (hbound : align ∣ bound) (hle : start ≤ bound) :
    roundUp start align ≤ bound := by
  obtain ⟨k, rfl⟩ := hbound
  have hlt : start + (align - 1) < align * (k + 1) := by
    rw [Nat.mul_succ]
    omega
  rw [Nat.mul_comm align k]
  exact Nat.mul_le_mul_right align (Nat.lt_succ_iff.1 (Nat.div_lt_of_lt_mul hlt))

theorem alignUp_eq (h : start + (align - 1) < 2 ^ 32) :
    alignUp start align = .ok (roundUp start align) := by
  unfold alignUp
  rw [addW_ok h]
  rfl

/-- A power of two of at most a page is the alignment that is used. -/
theorem alignOf_eq (h : align = 0 ∨ align ∣ 4096) : alignOf align = .ok (max align 8) := by
  rcases h with rfl | hdvd
  · rfl
  · obtain ⟨k, hk, rfl⟩ := (Nat.dvd_prime_pow Nat.prime_two (m := 12)).1 hdvd
    interval_cases k <;> rfl

theorem max_align_dvd (h : align = 0 ∨ align ∣ 4096) : max align 8 ∣ 4096 := by
  rcases h with rfl | hdvd
  · decide
  · obtain ⟨k, hk, rfl⟩ := (Nat.dvd_prime_pow Nat.prime_two (m := 12)).1 hdvd
    interval_cases k <;> decide

theorem dvd_max_align (h : align ∣ 4096) : align ∣ max align 8 := by
  obtain ⟨k, hk, rfl⟩ := (Nat.dvd_prime_pow Nat.prime_two (m := 12)).1 h
  interval_cases k <;> decide

/-! ## The pages of a block -/

theorem frames_allocFrame_checked (a : FrameAllocator) : Checked (fun _ => True) a.allocFrame := by
  unfold FrameAllocator.allocFrame
  split
  · split
    · exact .error (by decide)
    · exact .ok trivial
  split
  · exact .error (by decide)
  split
  · exact .error (by decide)
  · exact .ok trivial

theorem allocFrame_checked : Checked (fun _ => True) m.allocFrame :=
  (frames_allocFrame_checked m.frames).bind fun _ _ => .ok trivial

theorem userTable_checked (i : Nat) : Checked (fun _ => True) (m.userTable i) := by
  unfold Machine.userTable
  split
  · exact (allocFrame_checked m).bind fun _ _ => .ok trivial
  · exact .ok trivial

/-- The only fault of a mapping is that there is no frame. -/
theorem allocAndMapUserPage_checked (page : Nat) :
    Checked (fun _ => True) (m.allocAndMapUserPage page) := by
  refine (userTable_checked m _).bind fun m' _ => ?_
  dsimp only
  split
  · exact .ok trivial
  · exact (allocFrame_checked m').bind fun _ _ => .ok trivial

/-- No page between the addresses is at the last value of its counter. -/
def Countable (t : HeapTask) (start stop : Nat) : Prop :=
  ∀ p ∈ List.range' (start / 4096) ((stop + 4095) / 4096 - start / 4096),
    t.counts.count (4096 * p) + 1 < 2 ^ 32
  deriving Decidable

theorem usePage_checked {page : Nat} (h : t.counts.count page + 1 < 2 ^ 32) :
    Checked (fun t' => t'.heapNext = t.heapNext ∧
      ∀ q, q ≠ page → t'.counts.count q = t.counts.count q) (t.usePage page) := by
  unfold usePage
  rcases t.counts.inc_eq page with ⟨_, hfull⟩ | ⟨counts, hinc, hcount⟩
  · omega
  have hother : ∀ q, q ≠ page → counts.count q = t.counts.count q := fun q hq => by
    rw [hcount q, if_neg (Ne.symm hq)]
  rw [hinc, ok_bind]
  dsimp only
  split
  · exact (allocAndMapUserPage_checked t.machine page).bind fun _ _ => .ok ⟨rfl, hother⟩
  · exact .ok ⟨rfl, hother⟩

theorem usePages_checked (hstop : stop + 4096 < 2 ^ 32) (hcount : t.Countable start stop) :
    Checked (fun t' => t'.heapNext = t.heapNext) (t.usePages start stop) := by
  have hlast : (stop + 4096 - 1) / 4096 * 4096 = 4096 * ((stop + 4095) / 4096) := by omega
  unfold usePages
  rw [addW_ok hstop, ok_bind, hlast, Nat.mul_comm (start / 4096),
    strideLoop_eq (fun _ _ => rfl) (by decide) usePage (by omega) (by omega)]
  -- the pages that are left have the counters from the start of the loop
  have hloop := Res.Checked.foldlM (f := fun t p => usePage t (4096 * p))
    (fun pages s => pages.Nodup ∧ s.heapNext = t.heapNext ∧
      ∀ p ∈ pages, s.counts.count (4096 * p) + 1 < 2 ^ 32)
    (fun p pages s hs => ?_) ⟨List.nodup_range', rfl, hcount⟩
  · exact ⟨hloop.1, fun t' ht' => (hloop.2 t' ht').2.1⟩
  have hnew := List.nodup_cons.1 hs.1
  have hpage := usePage_checked (hs.2.2 p List.mem_cons_self)
  refine ⟨hpage.1, fun s' hs' => ⟨hnew.2, (hpage.2 s' hs').1.trans hs.2.1, fun q hq => ?_⟩⟩
  have hne : 4096 * q ≠ 4096 * p := fun heq =>
    hnew.1 (Nat.eq_of_mul_eq_mul_left (by decide) heq ▸ hq)
  rw [(hpage.2 s' hs').2 _ hne]
  exact hs.2.2 q (List.mem_cons_of_mem p hq)

theorem checkAliases_checked (t : HeapTask) (start stop : Nat) :
    Checked (fun _ => True) (t.checkAliases start stop) := by
  have hlower := t.stack_lower
  have hupper := t.stack_upper
  unfold checkAliases
  rw [subW_ok hlower, ok_bind, addW_ok (by unfold kernelOffset stackSize; omega), ok_bind]
  dsimp only
  split
  · exact .error (by decide)
  · exact .ok trivial

theorem checkLarge_checked (t : HeapTask) (start stop size : Nat) :
    Checked (fun _ => True) (t.checkLarge start stop size) := by
  unfold checkLarge
  split
  · exact checkAliases_checked t start stop
  · exact .ok trivial

theorem storeVirt_checked (fuel : Nat) (m : Machine) (addr : Nat) (data : List UInt8) :
    Checked (fun _ => True) (m.storeVirt fuel addr data) := by
  induction fuel generalizing m addr data with
  | zero => exact .error (by decide)
  | succ fuel ih =>
    unfold Machine.storeVirt
    split
    · exact .ok trivial
    split
    · exact .error (by decide)
    · exact ih ..

theorem loadVirt_checked (addr len : Nat) : Checked (fun _ => True) (m.loadVirt addr len) := by
  induction len generalizing addr with
  | zero => exact .ok trivial
  | succ len ih =>
    refine (ih (addr + 1)).bind fun _ _ => ?_
    split
    · exact .error (by decide)
    · exact .ok trivial

theorem moveBlock_checked (oldPtr oldSize start newSize : Nat) :
    Checked (fun _ => True) (m.moveBlock oldPtr oldSize start newSize) := by
  refine (storeVirt_checked ..).bind fun m' _ => ?_
  split
  · exact (loadVirt_checked m' oldPtr _).bind fun _ _ => storeVirt_checked ..
  · exact .ok trivial

/-! ## The break -/

/-- What an allocation of `size` bytes does to the break.  The result is 0 for a
refusal. -/
structure Bumps (t : HeapTask) (size r : Nat) (t' : HeapTask) : Prop where
  grows : t.heapNext ≤ t'.heapNext
  limit : t'.heapNext ≤ heapLimit
  start : r ≠ 0 → t.heapNext ≤ r
  lower : r ≠ 0 → heapBase ≤ r
  upper : r ≠ 0 → r < heapLimit
  stop : r ≠ 0 → 0 < size → r + size ≤ t'.heapNext

theorem Bumps.of_le {t₀ t' : HeapTask} {r : Nat} (h : t.Bumps size r t')
    (hle : t₀.heapNext ≤ t.heapNext) : t₀.Bumps size r t' :=
  ⟨Nat.le_trans hle h.grows, h.limit, fun hr => Nat.le_trans hle (h.start hr), h.lower, h.upper,
    h.stop⟩

/-- The start of a block that `SYS_MALLOC` places. -/
def blockStart (t : HeapTask) (align : Nat) : Nat :=
  roundUp (max t.heapNext heapBase) (max align 8)

theorem takeBlock_checked (hfits : start + size ≤ heapLimit)
    (hcount : t.Countable start (start + size)) :
    Checked (fun r => r.1 = start ∧ r.2.heapNext = start + size) (t.takeBlock start size) := by
  have hlimit : heapLimit + 4096 < 2 ^ 32 := by decide
  unfold takeBlock
  rw [addW_ok (by omega), ok_bind]
  exact (usePages_checked (by omega) hcount).bind fun t' _ =>
    (checkLarge_checked t' start (start + size) size).bind fun _ _ => .ok ⟨rfl, rfl⟩

theorem place_checked (hnext : t.heapNext ≤ start) (hbase : heapBase ≤ t.heapNext)
    (hstart : start ≤ heapLimit) (hempty : size = 0 → start < heapLimit)
    (hcount : start + size ≤ heapLimit → t.Countable start (start + size)) :
    Checked (fun r => t.Bumps size r.1 r.2 ∧ (r.1 = 0 ∨ r.1 = start)) (t.place start size) := by
  unfold place
  split
  · refine .ok ⟨⟨Nat.le_refl _, Nat.le_trans hnext hstart, ?_, ?_, ?_, ?_⟩, .inl rfl⟩ <;>
      exact fun h => absurd rfl h
  rename_i hroom
  split
  · rename_i hpos
    have hfits : start + size ≤ heapLimit := by
      have hsat : ¬ heapLimit < satAdd start size := fun h => hroom ⟨hpos, .inl h⟩
      have hlimit : heapLimit + 4096 < 2 ^ 32 := by decide
      unfold satAdd at hsat
      omega
    have htake := takeBlock_checked hfits (hcount hfits)
    refine ⟨htake.1, fun r hr => ?_⟩
    have hresult := (htake.2 r hr).1
    have hbreak := (htake.2 r hr).2
    exact ⟨⟨by omega, by omega, fun _ => by omega, fun _ => by omega, fun _ => by omega,
      fun _ _ => by omega⟩, .inr hresult⟩
  · rename_i hzero
    exact .ok ⟨⟨Nat.le_refl _, Nat.le_trans hnext hstart, fun _ => hnext,
      fun _ => Nat.le_trans hbase hnext, fun _ => hempty (by omega), fun _ h => absurd h hzero⟩,
      .inr rfl⟩

theorem malloc_checked (hnext : t.heapNext ≤ heapLimit) (halign : align = 0 ∨ align ∣ 4096)
    (hempty : size = 0 → t.blockStart align < heapLimit)
    (hcount : t.blockStart align + size ≤ heapLimit →
      t.Countable (t.blockStart align) (t.blockStart align + size)) :
    Checked (fun r => t.Bumps size r.1 r.2 ∧ (align = 0 ∨ align ∣ r.1))
      (t.malloc slot size align) := by
  have hdvd := max_align_dvd halign
  have hle : max align 8 ≤ 4096 := Nat.le_of_dvd (by decide) hdvd
  have hbase : heapBase ≤ heapLimit := by decide
  have hlimit : heapLimit + 4096 < 2 ^ 32 := by decide
  have hstart : t.blockStart align ≤ heapLimit :=
    roundUp_le (by omega) (hdvd.trans (by decide)) (by omega)
  have hfrom : max t.heapNext heapBase ≤ t.blockStart align := le_roundUp (by omega)
  unfold malloc
  rw [alignOf_eq halign, ok_bind]
  split
  · refine .ok ⟨⟨Nat.le_refl _, hnext, ?_, ?_, ?_, ?_⟩, .inr (Nat.dvd_zero _)⟩ <;>
      exact fun h => absurd rfl h
  dsimp only
  rw [alignUp_eq (by omega)]
  have hplace := place_checked (t := { t with heapNext := max t.heapNext heapBase }) hfrom
    (Nat.le_max_right ..) hstart hempty hcount
  refine ⟨hplace.1, fun r hr => ⟨?_, ?_⟩⟩
  · exact (hplace.2 r hr).1.of_le (Nat.le_max_left ..)
  · rcases (hplace.2 r hr).2 with hzero | hresult
    · rw [hzero]
      exact .inr (Nat.dvd_zero _)
    · rw [hresult]
      exact halign.imp id fun h => (dvd_max_align h).trans dvd_roundUp

theorem realloc_checked {oldPtr oldSize : Nat} (hbase : heapBase ≤ t.heapNext)
    (hstart : roundUp t.heapNext 8 < heapLimit) (hfits : roundUp t.heapNext 8 + size ≤ heapLimit)
    (hcount : t.Countable (roundUp t.heapNext 8) (roundUp t.heapNext 8 + size)) :
    Checked (fun r => t.Bumps size r.1 r.2) (t.realloc slot oldPtr oldSize size) := by
  have hlimit : heapLimit + 4096 < 2 ^ 32 := by decide
  have hfrom : t.heapNext ≤ roundUp t.heapNext 8 := le_roundUp (by decide)
  unfold realloc
  split
  · refine .ok ⟨Nat.le_refl _, by dsimp only; omega, ?_, ?_, ?_, ?_⟩ <;>
      exact fun h => absurd rfl h
  rw [alignUp_eq (by omega), ok_bind]
  split
  · rw [addW_ok (by omega), ok_bind]
    refine (usePages_checked (by omega) hcount).bind fun t' _ =>
      (moveBlock_checked t'.machine ..).bind fun m _ => .ok ?_
    exact ⟨by dsimp only; omega, hfits, fun _ => hfrom, fun _ => by dsimp only; omega,
      fun _ => hstart, fun _ _ => Nat.le_refl _⟩
  rename_i hzero
  exact .ok ⟨hfrom, Nat.le_of_lt hstart, fun _ => hfrom, fun _ => by dsimp only; omega,
    fun _ => hstart, fun _ h => absurd h hzero⟩

/-- The addresses that `sys_brk` accepts; with any other it only returns the break. -/
def InBrkRange (addr : Nat) : Prop := heapBase ≤ addr ∧ addr - heapBase ≤ 32 * 1024 * 1024

instance (addr : Nat) : Decidable (InBrkRange addr) := inferInstanceAs (Decidable (_ ∧ _))

theorem brk_checked {addr : Nat} (hnext : t.heapNext ≤ heapLimit)
    (hcount : InBrkRange addr → t.Countable (max t.heapNext heapBase) addr) :
    Checked (fun r => r.2.heapNext ≤ heapLimit ∧
      (t.heapNext ≤ r.2.heapNext ∨ InBrkRange addr ∧ r.2.heapNext = addr) ∧
      (r.1 ≠ 0 → heapBase ≤ r.1 ∧ (max t.heapNext heapBase < heapLimit → r.1 < heapLimit)))
      (t.brk slot addr) := by
  have hcap : heapBase + 32 * 1024 * 1024 < heapLimit := by decide
  have hlimit : heapLimit + 4096 < 2 ^ 32 := by decide
  unfold brk
  split
  · exact .ok ⟨hnext, .inl (Nat.le_refl _), fun h => absurd rfl h⟩
  dsimp only
  split
  · exact .ok ⟨by dsimp only; omega, .inl (Nat.le_max_left ..),
      fun _ => ⟨Nat.le_max_right .., fun h => h⟩⟩
  have hrange : InBrkRange addr := ⟨by omega, by omega⟩
  have hresult : addr ≠ 0 → heapBase ≤ addr ∧
      (max t.heapNext heapBase < heapLimit → addr < heapLimit) := fun _ =>
    ⟨by omega, fun _ => by omega⟩
  have hstop : addr + 4096 < 2 ^ 32 := by omega
  split
  · have hpages := usePages_checked (t := { t with heapNext := max t.heapNext heapBase })
      hstop (hcount hrange)
    exact hpages.bind fun _ _ => .ok ⟨by dsimp only; omega, .inr ⟨hrange, rfl⟩, hresult⟩
  · exact .ok ⟨by dsimp only; omega, .inr ⟨hrange, rfl⟩, hresult⟩

end HeapTask

/-! ## Runs of calls -/

/-- A call of a process that uses its heap. -/
inductive HeapCall where
  | malloc (size align : Nat)
  | realloc (oldPtr oldSize newSize : Nat)
  | brk (addr : Nat)

/-- A process and the blocks that it was given, each with its start and its size. -/
structure HeapRun where
  task : HeapTask
  blocks : List (Nat × Nat)

namespace HeapCall

/-- The size of the block that a call asks for; `sys_brk` gives out none. -/
def size : HeapCall → Nat
  | .malloc size _ => size
  | .realloc _ _ newSize => newSize
  | .brk _ => 0

/-- The result is aligned as the call asks for. -/
def Aligned : HeapCall → Nat → Prop
  | .malloc _ align, r => align = 0 ∨ align ∣ r
  | _, _ => True

/-- The system call itself. -/
def exec (slot : Nat) : HeapCall → HeapTask → Res (Nat × HeapTask)
  | .malloc size align, t => t.malloc slot size align
  | .realloc oldPtr oldSize newSize, t => t.realloc slot oldPtr oldSize newSize
  | .brk addr, t => t.brk slot addr

/-- The blocks after a call with the result `r`. -/
def given (call : HeapCall) (r : Nat) (blocks : List (Nat × Nat)) : List (Nat × Nat) :=
  if r = 0 then blocks else (r, call.size) :: blocks

/-- A call of the process in the given slot. -/
def run (slot : Nat) (call : HeapCall) (s : HeapRun) : Res (Nat × HeapRun) := do
  let (r, task) ← call.exec slot s.task
  .ok (r, ⟨task, call.given r s.blocks⟩)

/-- What is expected of a call: no arithmetic check fails, and what is returned is
aligned, lies in the heap, and is the start of a block that meets no other one. -/
def Safe (slot : Nat) (call : HeapCall) (s : HeapRun) : Prop :=
  Checked (fun r => r.1 ≠ 0 → call.Aligned r.1 ∧ heapBase ≤ r.1 ∧ r.1 < heapLimit ∧
    r.1 + call.size ≤ heapLimit ∧
    ∀ x, r.1 ≤ x → x < r.1 + call.size → ¬ Covered s.blocks x) (call.run slot s)

/-- A call that asks for an alignment of at most a page, stays below the limit and
does not take back a block. -/
def Tame (call : HeapCall) (s : HeapRun) : Prop :=
  match call with
  | .malloc size align =>
    (align = 0 ∨ align ∣ 4096) ∧ (size = 0 → s.task.blockStart align < heapLimit) ∧
      (s.task.blockStart align + size ≤ heapLimit →
        s.task.Countable (s.task.blockStart align) (s.task.blockStart align + size))
  | .realloc _ _ newSize =>
    let start := HeapTask.roundUp s.task.heapNext 8
    heapBase ≤ s.task.heapNext ∧ start < heapLimit ∧ start + newSize ≤ heapLimit ∧
      s.task.Countable start (start + newSize)
  | .brk addr =>
    max s.task.heapNext heapBase < heapLimit ∧ (HeapTask.InBrkRange addr →
      (∀ b ∈ s.blocks, 0 < b.2 → b.1 + b.2 ≤ addr) ∧
        s.task.Countable (max s.task.heapNext heapBase) addr)

instance (call : HeapCall) (s : HeapRun) : Decidable (call.Tame s) := by
  unfold Tame
  cases call <;> infer_instance

end HeapCall

/-- No block reaches beyond the break, and the break not beyond the limit. -/
structure HeapRun.Good (s : HeapRun) : Prop where
  limit : s.task.heapNext ≤ heapLimit
  blocks : ∀ x, Covered s.blocks x → x < s.task.heapNext

namespace HeapCall

variable {slot : Nat} {call : HeapCall} {s : HeapRun}

/-- A call keeps the invariant, and is safe. -/
def Keeps (slot : Nat) (call : HeapCall) (s : HeapRun) : Prop :=
  Checked (fun r => r.2.Good ∧ (r.1 ≠ 0 → call.Aligned r.1 ∧ heapBase ≤ r.1 ∧
    r.1 < heapLimit ∧ r.1 + call.size ≤ heapLimit ∧
    ∀ x, r.1 ≤ x → x < r.1 + call.size → ¬ Covered s.blocks x)) (call.run slot s)

theorem covered_given {r x : Nat} {blocks : List (Nat × Nat)}
    (h : Covered (call.given r blocks) x) :
    (r ≠ 0 ∧ r ≤ x ∧ x < r + call.size) ∨ Covered blocks x := by
  unfold given at h
  split at h
  · exact .inr h
  · rename_i hr
    exact (covered_cons.1 h).imp (fun hx => ⟨hr, hx⟩) id

/-- An allocation only moves the break up, so that its block lies above all others. -/
theorem keeps_of_bumps (hs : s.Good)
    (h : Checked (fun r => s.task.Bumps call.size r.1 r.2 ∧ call.Aligned r.1)
      (call.exec slot s.task)) : call.Keeps slot s := by
  refine h.bind fun r hr => .ok ⟨⟨hr.1.limit, fun x hx => ?_⟩, fun hne => ?_⟩
  · rcases covered_given hx with ⟨hne, hle, hlt⟩ | hold
    · exact Nat.lt_of_lt_of_le hlt (hr.1.stop hne (by omega))
    · exact Nat.lt_of_lt_of_le (hs.blocks x hold) hr.1.grows
  have hstart := hr.1.start hne
  have hupper := hr.1.upper hne
  have hlimit := hr.1.limit
  refine ⟨hr.2, hr.1.lower hne, hupper, ?_, fun x hle _ hx => ?_⟩
  · by_cases hpos : 0 < call.size
    · exact Nat.le_trans (hr.1.stop hne hpos) hlimit
    · omega
  · have := hs.blocks x hx
    omega

theorem brk_keeps {addr : Nat} (hs : s.Good) (htame : Tame (.brk addr) s) :
    Keeps slot (.brk addr) s := by
  obtain ⟨hbelow, hmoves⟩ := htame
  refine (HeapTask.brk_checked hs.limit fun hrange => (hmoves hrange).2).bind fun r hr =>
    .ok ⟨⟨hr.1, fun x hx => ?_⟩,
    fun hne => ⟨trivial, (hr.2.2 hne).1, (hr.2.2 hne).2 hbelow, ?_, fun x hle hlt => ?_⟩⟩
  · rcases covered_given hx with ⟨_, hle, hlt⟩ | hold
    · exact absurd hlt (Nat.not_lt.2 hle)
    · rcases hr.2.1 with hgrows | ⟨hrange, haddr⟩
      · exact Nat.lt_of_lt_of_le (hs.blocks x hold) hgrows
      · obtain ⟨b, hb, hle, hlt⟩ := hold
        have hend := (hmoves hrange).1 b hb (by omega)
        dsimp only
        omega
  · exact Nat.le_of_lt ((hr.2.2 hne).2 hbelow)
  · exact absurd hlt (Nat.not_lt.2 hle)

theorem tame_keeps (hs : s.Good) (htame : call.Tame s) : call.Keeps slot s := by
  cases call with
  | malloc size align =>
    exact keeps_of_bumps hs (HeapTask.malloc_checked hs.limit htame.1 htame.2.1 htame.2.2)
  | realloc oldPtr oldSize newSize =>
    have hrealloc : Checked _ (s.task.realloc slot oldPtr oldSize newSize) :=
      HeapTask.realloc_checked htame.1 htame.2.1 htame.2.2.1 htame.2.2.2
    exact keeps_of_bumps hs ⟨hrealloc.1, fun r hr => ⟨hrealloc.2 r hr, trivial⟩⟩
  | brk addr => exact brk_keeps hs htame

/-- A new process. -/
def newTask : HeapTask where
  machine := Vm.newVm.machine
  counts := Counts.empty
  heapNext := heapBase
  stackBase := 0xC0500000
  pageDirPhys := 0x27FE000
  stack_lower := by decide
  stack_upper := by decide

/-- The start of a new block lies in no earlier one. -/
def StartsFresh (slot : Nat) (call : HeapCall) (s : HeapRun) : Prop :=
  match call.run slot s with
  | .ok (r, _) => r ≠ 0 → 0 < call.size → ∀ b ∈ s.blocks, ¬ (b.1 ≤ r ∧ r < b.1 + b.2)
  | .error _ => True

instance (call : HeapCall) (s : HeapRun) : Decidable (call.StartsFresh slot s) := by
  unfold StartsFresh
  split <;> infer_instance

theorem startsFresh_of_safe (h : call.Safe slot s) : call.StartsFresh slot s := by
  unfold StartsFresh
  split
  · rename_i r s' hrun
    intro hne hpos b hb hin
    exact ((h.2 (r, s') hrun) hne).2.2.2.2 r (Nat.le_refl r) (Nat.lt_add_of_pos_right hpos)
      ⟨b, hb, hin⟩
  · trivial

end HeapCall

end Felix.Memory
