import Felix.Memory.Mmap

/-!
# The heap of a process

`SYS_MALLOC` and `SYS_REALLOC` of the system call handler, and `sys_brk`.  All of
them move the break `heap_next`: an allocation rounds it up and adds the size, and
`sys_brk` sets it.  The pages below the new break get a reference each, and those
that are new are mapped.

`SYS_REALLOC` does not look at the limit of the heap, and `sys_brk` can move the
break back behind blocks that are in use.
-/

namespace Felix.Memory

open Bytes

/-- `USER_HEAP_BASE`. -/
def heapBase : Nat := 0x40000000

/-- The end of the heap, 128 MiB behind its base. -/
def heapLimit : Nat := 0x48000000

def kernelOffset : Nat := 0xC0000000

def stackSize : Nat := 256 * 1024

namespace Machine

/-- The bytes at a virtual address. -/
def loadVirt (m : Machine) : Nat → Nat → Res (List UInt8)
  | _, 0 => .ok []
  | addr, len + 1 => do
    let rest ← m.loadVirt (addr + 1) len
    match m.translate addr with
    | none => .error .memory
    | some phys => .ok (m.phys (phys / 4096) (phys % 4096) :: rest)

/-- A new block is cleared, and gets the contents of the old one. -/
def moveBlock (m : Machine) (oldPtr oldSize start newSize : Nat) : Res Machine := do
  let m ← m.storeVirt (newSize + 1) start (List.replicate newSize 0)
  if oldPtr ≠ 0 ∧ 0 < oldSize then do
    let len := min oldSize newSize
    let data ← m.loadVirt oldPtr len
    m.storeVirt (len + 1) start data
  else .ok m

end Machine

/-- What the heap calls read and write of a task.  The kernel stack lies in the
kernel part of the address space. -/
structure HeapTask where
  machine : Machine
  counts : Counts Nat
  heapNext : Nat
  stackBase : Nat
  pageDirPhys : Nat
  stack_lower : kernelOffset ≤ stackBase
  stack_upper : stackBase < 2 ^ 32

namespace HeapTask

/-! ## The calls -/

/-- `next_power_of_two` of a 32-bit word. -/
def nextPowerOfTwo (n : Nat) : Res Nat :=
  let power := if n ≤ 1 then 1 else 2 ^ ((n - 1).log2 + 1)
  if power < 2 ^ 32 then .ok power else .error .overflow

/-- The alignment that is used for a request. -/
def alignOf (alignRaw : Nat) : Res Nat :=
  if alignRaw = 0 then .ok 8
  else do
    let power ← nextPowerOfTwo alignRaw
    .ok (min (max power 8) 4096)

/-- `(start + mask) & !mask` for a power of two. -/
def alignUp (start align : Nat) : Res Nat := do
  let sum ← addW 32 start (align - 1)
  .ok (sum / align * align)

/-- A page gets a reference, and is mapped if it is new. -/
def usePage (t : HeapTask) (page : Nat) : Res HeapTask := do
  let (need, counts) ← t.counts.inc page
  let t := { t with counts }
  if need = true then do
    let m ← t.machine.allocAndMapUserPage page
    .ok { t with machine := m }
  else .ok t

/-- The loop over the pages from `start` to `stop`. -/
def usePages (start stop : Nat) (t : HeapTask) : Res HeapTask := do
  let endPage ← addW 32 stop 4096
  strideLoop id 4096 usePage (2 ^ 20 + 1) (start / 4096 * 4096) ((endPage - 1) / 4096 * 4096) t

/-- A page of the heap is one of the kernel stack, or the page directory. -/
def aliases (t : HeapTask) (kstackPhys kstackEnd page : Nat) : Bool :=
  match t.machine.translate page with
  | none => false
  | some phys =>
    let pagePhys := phys / 4096 * 4096
    (kstackPhys ≤ pagePhys && pagePhys < kstackEnd) || pagePhys = t.pageDirPhys

/-- The check of a large allocation. -/
def checkAliases (start stop : Nat) (t : HeapTask) : Res Unit := do
  let kstackPhys ← subW t.stackBase kernelOffset
  let kstackEnd ← addW 32 kstackPhys stackSize
  let first := start / 4096
  let last := (stop + 4095) / 4096
  if (List.range' first (last - first)).any (fun p => t.aliases kstackPhys kstackEnd (4096 * p)) =
      true then .error .assertion
  else .ok ()

def checkLarge (start stop size : Nat) (t : HeapTask) : Res Unit :=
  if 256 * 1024 ≤ size then t.checkAliases start stop else .ok ()

/-- The part of `SYS_MALLOC` for a block that fits. -/
def takeBlock (start size : Nat) (t : HeapTask) : Res (Nat × HeapTask) := do
  let stop ← addW 32 start size
  let t ← t.usePages start stop
  let _ ← t.checkLarge start stop size
  .ok (start, { t with heapNext := stop })

/-- The part of `SYS_MALLOC` behind the rounding; the result is 0 if there is no room. -/
def place (start size : Nat) (t : HeapTask) : Res (Nat × HeapTask) :=
  if 0 < size ∧ (heapLimit < satAdd start size ∨
      128 * 1024 * 1024 < satAdd (start - heapBase) size) then .ok (0, t)
  else if 0 < size then t.takeBlock start size
  else .ok (start, t)

/-- `SYS_MALLOC`. -/
def malloc (slot size alignRaw : Nat) (t : HeapTask) : Res (Nat × HeapTask) := do
  let align ← alignOf alignRaw
  if slot = 0 ∨ maxTasks ≤ slot then .ok (0, t)
  else do
    let t := { t with heapNext := max t.heapNext heapBase }
    let start ← alignUp t.heapNext align
    t.place start size

/-- `SYS_REALLOC`. -/
def realloc (slot oldPtr oldSize newSize : Nat) (t : HeapTask) : Res (Nat × HeapTask) :=
  if slot = 0 ∨ maxTasks ≤ slot then .ok (0, t)
  else do
    let start ← alignUp t.heapNext 8
    if 0 < newSize then do
      let stop ← addW 32 start newSize
      let t ← t.usePages start stop
      let m ← t.machine.moveBlock oldPtr oldSize start newSize
      .ok (start, { t with machine := m, heapNext := stop })
    else .ok (start, { t with heapNext := start })

/-- `sys_brk`. -/
def brk (slot addr : Nat) (t : HeapTask) : Res (Nat × HeapTask) :=
  if slot = 0 ∨ maxTasks ≤ slot then .ok (0, t)
  else
    let t := { t with heapNext := max t.heapNext heapBase }
    if addr = 0 ∨ addr < heapBase ∨ 32 * 1024 * 1024 < addr - heapBase then .ok (t.heapNext, t)
    else if t.heapNext < addr then do
      let t ← t.usePages t.heapNext addr
      .ok (addr, { t with heapNext := addr })
    else .ok (addr, { t with heapNext := addr })

end HeapTask

end Felix.Memory
