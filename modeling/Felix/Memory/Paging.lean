import Felix.Base.Bytes
import Felix.Memory.Frames

/-!
# Page tables

The page directory and the page tables of `paging.rs`.  A directory has 1024
entries; an entry is absent, a page of 4 MiB, or a page table, which is a frame
that holds 1024 entries of four bytes.  Physical memory is a family of frames,
and a page table is read from and written to the frame that its directory entry
names.

The functions take a virtual address, as the source does, or the number of a
page.  `TLB` operations are left out.
-/

namespace Felix.Memory

open Bytes Nat

/-! ## Entries -/

/-- `entry & PRESENT != 0`. -/
def present (w : UInt32) : Bool := w.toNat.testBit 0

/-- `entry & DIR_PAGE_SIZE != 0`. -/
def largePage (w : UInt32) : Bool := w.toNat.testBit 7

/-- The number of the frame that an entry names. -/
def frameOf (w : UInt32) : Nat := w.toNat / 4096

/-- `(frame << 12) | flags`. -/
def entry (frame flags : Nat) : UInt32 := UInt32.ofNat ((frame <<< 12) ||| flags)

/-- A directory entry that names a page table. -/
def isTable (w : UInt32) : Bool := present w && !largePage w

/-- `WRITABLE`. -/
def flagWritable : UInt32 := 2

/-- `USER`. -/
def flagUser : UInt32 := 4

/-- `PRESENT | WRITABLE | USER`. -/
def tableFlags : Nat := 7

/-- `PRESENT | WRITABLE | USER | DIRTY`. -/
def pageFlags : Nat := 71

section Words

theorem testBit_entry {frame flags i : Nat} (hi : i < 12) :
    (entry frame flags).toNat.testBit i = flags.testBit i := by
  unfold entry
  rw [UInt32.toNat_ofNat', testBit_mod_two_pow, testBit_or]
  simp [show ¬ 12 ≤ i by omega, show i < 32 by omega]

theorem frameOf_entry {frame flags : Nat} (hframe : frame < 2 ^ 20) (hflags : flags < 4096) :
    frameOf (entry frame flags) = frame := by
  unfold frameOf entry
  have hor : (frame <<< 12) ||| flags = frame * 4096 + flags := by
    rw [shiftLeft_eq, Nat.mul_comm]
    exact (two_pow_add_eq_or_of_lt hflags frame).symm
  rw [UInt32.toNat_ofNat']
  omega

variable (frame : Nat)

theorem present_entry_table : present (entry frame tableFlags) = true :=
  testBit_entry (by decide)

theorem isTable_entry : isTable (entry frame tableFlags) = true := by
  unfold isTable largePage
  rw [present_entry_table, testBit_entry (by decide)]
  decide

theorem present_entry_page : present (entry frame pageFlags) = true :=
  testBit_entry (by decide)

theorem frameOf_or {w v : UInt32} (hv : v.toNat < 4096) : frameOf (w ||| v) = frameOf w := by
  unfold frameOf
  have hdiv : ∀ n : Nat, n / 4096 = n >>> 12 := fun n => (shiftRight_eq_div_pow n 12).symm
  rw [UInt32.toNat_or, hdiv, hdiv, shiftRight_or_distrib, shiftRight_eq_div_pow v.toNat,
    div_eq_of_lt hv, or_zero]

variable (w : UInt32)

theorem present_or_user : present (w ||| flagUser) = present w := by
  unfold present
  rw [UInt32.toNat_or, testBit_or, show flagUser.toNat.testBit 0 = false by decide, Bool.or_false]

theorem isTable_or_user : isTable (w ||| flagUser) = isTable w := by
  unfold isTable largePage
  rw [present_or_user, UInt32.toNat_or, testBit_or,
    show flagUser.toNat.testBit 7 = false by decide, Bool.or_false]

theorem frameOf_and {w v : UInt32} (hv : v.toNat / 4096 = 2 ^ 20 - 1) :
    frameOf (w &&& v) = frameOf w := by
  unfold frameOf
  have hdiv : ∀ n : Nat, n / 4096 = n >>> 12 := fun n => (shiftRight_eq_div_pow n 12).symm
  have hlt : w.toNat / 4096 < 2 ^ 20 := by
    have := w.toNat_lt
    omega
  rw [UInt32.toNat_and, hdiv, shiftRight_and_distrib, ← hdiv, ← hdiv, hv,
    and_two_pow_sub_one_eq_mod, mod_eq_of_lt hlt]

theorem frameOf_and_not_writable : frameOf (w &&& ~~~flagWritable) = frameOf w :=
  frameOf_and (by decide)

theorem present_and_not_writable : present (w &&& ~~~flagWritable) = present w := by
  unfold present
  rw [UInt32.toNat_and, testBit_and, show (~~~flagWritable).toNat.testBit 0 = true by decide,
    Bool.and_true]

theorem present_or_writable : present (w ||| flagWritable) = present w := by
  unfold present
  rw [UInt32.toNat_or, testBit_or, show flagWritable.toNat.testBit 0 = false by decide,
    Bool.or_false]

end Words

/-! ## The functions -/

/-- What the functions work on: the page directory of a task, physical memory by
frames, and the frame allocator. -/
structure Machine where
  entries : Nat → UInt32
  phys : Nat → Bytes
  frames : FrameAllocator

namespace Machine

variable (m : Machine)

/-- Entry `k` of the page table that a directory entry names. -/
def pteOf (pde : UInt32) (k : Nat) : UInt32 := get32 (4 * k) (m.phys (frameOf pde))

/-- The bytes of a frame are replaced. -/
def setFrame (f : Nat) (bytes : Bytes) : Machine :=
  { m with phys := Function.update m.phys f bytes }

def setPte (pde : UInt32) (k : Nat) (w : UInt32) : Machine :=
  m.setFrame (frameOf pde) (put32 (4 * k) w (m.phys (frameOf pde)))

def setEntry (i : Nat) (w : UInt32) : Machine :=
  { m with entries := Function.update m.entries i w }

def allocFrame : Res (Nat × Machine) := do
  let (frame, frames) ← m.frames.allocFrame
  .ok (frame, { m with frames })

/-- The part of `alloc_and_map_user_page` that makes sure that there is a page
table: a missing one, or one in the place of a large page, is made anew, and
another one becomes accessible to the user. -/
def userTable (pdIdx : Nat) : Res Machine :=
  if isTable (m.entries pdIdx) = false then do
    let (frame, m) ← m.allocFrame
    .ok ((m.setEntry pdIdx (entry frame tableFlags)).setFrame frame fun _ => 0)
  else .ok (m.setEntry pdIdx (m.entries pdIdx ||| flagUser))

def allocAndMapUserPage (virtAddr : Nat) : Res Machine := do
  let vpage := virtAddr / 4096
  let pdIdx := vpage / 1024
  let ptIdx := vpage % 1024
  let m ← m.userTable pdIdx
  let pde := m.entries pdIdx
  let existing := m.pteOf pde ptIdx
  if present existing = true then .ok (m.setPte pde ptIdx (existing ||| flagUser))
  else do
    let (frame, m) ← m.allocFrame
    .ok ((m.setFrame frame fun _ => 0).setPte pde ptIdx (entry frame pageFlags))

def setUserPageWritable (virtAddr : Nat) (writable : Bool) : Machine :=
  let vpage := virtAddr / 4096
  let pde := m.entries (vpage / 1024)
  let ptIdx := vpage % 1024
  if isTable pde = false then m
  else
    let pte := m.pteOf pde ptIdx
    if present pte = false then m
    else if writable = true then m.setPte pde ptIdx (pte ||| flagWritable)
    else m.setPte pde ptIdx (pte &&& ~~~flagWritable)

/-- The part of `map` that makes sure that there is a page table. -/
def mapTable (pdIdx : Nat) : Res Machine :=
  if isTable (m.entries pdIdx) = false then do
    let (frame, m) ← m.allocFrame
    .ok ((m.setFrame frame fun _ => 0).setEntry pdIdx (entry frame tableFlags))
  else .ok m

/-- `map`, with page tables from the frame allocator. -/
def map (virtualPage physicalPage flags : Nat) : Res Machine := do
  let pdIdx := virtualPage / 1024
  let m ← m.mapTable pdIdx
  .ok (m.setPte (m.entries pdIdx) (virtualPage % 1024) (entry physicalPage flags))

def unmap (virtualAddr : Nat) : Machine :=
  let vpage := virtualAddr / 4096
  let pdIdx := vpage / 1024
  let pde := m.entries pdIdx
  if present pde = false then m
  else if largePage pde = true then m.setEntry pdIdx 0
  else m.setPte pde (vpage % 1024) 0

/-- `copy_kernel_mappings`, given the page directory of the kernel and the number
of its large pages. -/
def copyKernelMappings (kernelPd : Nat → UInt32) (largePageCount : Nat) (taskPdPhys : UInt32)
    (entries : Nat → UInt32) : Nat → UInt32 := fun i =>
  if i = 1023 then taskPdPhys ||| 3
  else if (i < largePageCount ∨ (764 ≤ i ∧ i < 768) ∨ (768 ≤ i ∧ i < 1023)) ∧
      present (kernelPd i) = true then kernelPd i
  else entries i

def translate (virtualAddr : Nat) : Option Nat :=
  let vpage := virtualAddr / 4096
  let pde := m.entries (vpage / 1024)
  if present pde = false then none
  else if largePage pde = true then
    some (pde.toNat / 2 ^ 22 * 2 ^ 22 + virtualAddr % 2 ^ 22)
  else
    let pte := m.pteOf pde (vpage % 1024)
    if present pte = false then none
    else some (frameOf pte * 4096 + virtualAddr % 4096)

end Machine

end Felix.Memory
