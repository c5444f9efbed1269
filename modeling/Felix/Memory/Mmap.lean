import Felix.Base.Holes
import Felix.Base.Loop
import Felix.Memory.Paging

/-!
# `mmap` and `munmap`

`sys_mmap2` and `sys_munmap` of `handler.rs`, with `PageRefcounts` of `task.rs` and
the cache of shared file pages of `shared.rs`.  The state is what these functions
read and write of a task and of the kernel: the page directory with physical
memory, the reference counts of the pages, the next address and the holes of the
arena, and the cache.

What the functions ask the rest of the kernel for is a `World`: the inode of a
descriptor, the size and the bytes of a file, and whether the other processors
dropped a page from their caches.  The task of the slot exists.  What the last
release of a shared page writes back to the file is left out.
-/

namespace Felix.Memory

open Bytes

/-! ## Constants -/

def einval : Nat := 2 ^ 32 - 22
def enomem : Nat := 2 ^ 32 - 12
def ebadf : Nat := 2 ^ 32 - 9
def ebusy : Nat := 2 ^ 32 - 16
def eopnotsupp : Nat := 2 ^ 32 - 95

def maxTasks : Nat := 32

/-- The start of the arena for addresses that the kernel chooses. -/
def mmapBase : Nat := 0x60000000

/-- `WM_SHARED_BASE`, the end of the arena. -/
def wmSharedBase : Nat := 0xA0000000

/-- The flags of a call: `MAP_SHARED`, `MAP_PRIVATE`, `MAP_FIXED` and
`MAP_ANONYMOUS`. -/
def mapShared : Nat := 0
def mapPrivate : Nat := 1
def mapFixed : Nat := 4
def mapAnonymous : Nat := 5

/-! ## State -/

structure SharedPage where
  inode : Nat
  offset : Nat
  frame : Nat
  refs : Nat
  deriving Repr, DecidableEq

/-- What the memory calls of a task read and write. -/
structure Vm where
  machine : Machine
  /-- `page_refcounts`, by the address of the page. -/
  counts : Counts Nat
  mmapNext : Nat
  mmapFree : List (Nat × Nat)
  /-- `SHARED_PAGES`. -/
  shared : List SharedPage

/-- What the calls ask the rest of the kernel for. -/
structure World where
  /-- The inode of a descriptor of a file or a device. -/
  inodeOf : Nat → Option Nat
  /-- `metadata_inode(inode).size`. -/
  sizeOf : Nat → Option Nat
  /-- `read_at(inode, offset, len)`. -/
  readAt : Nat → Nat → Nat → List UInt8
  /-- `shootdown_tlb(page)`. -/
  shootdown : Nat → Bool

/-- The arguments of `sys_mmap2` that it reads. -/
structure MmapArgs where
  slot : Nat
  addr : UInt32
  len : UInt32
  flags : UInt32
  fd : Int
  pgoff : UInt32

namespace MmapArgs

variable (a : MmapArgs)

/-- The length in whole pages.  Lengths above 64 MiB are refused before, so the
sum does not overflow. -/
def lenU : Nat := (a.len.toNat + 4095) / 4096 * 4096

def flag (bit : Nat) : Bool := a.flags.toNat.testBit bit

def anonymous : Bool := a.flag mapAnonymous || a.fd < 0

/-- The kernel chooses the address. -/
def chosen : Bool := !a.flag mapFixed && a.addr = 0

/-- `(pgoff as u64) * PAGE_SIZE`. -/
def fileOff : Nat := a.pgoff.toNat * 4096

end MmapArgs

/-! ## Memory through the page tables -/

namespace Machine

/-- Bytes are written to a virtual address, page by page. -/
def storeVirt : Nat → Machine → Nat → List UInt8 → Res Machine
  | 0, _, _, _ => .error .diverged
  | fuel + 1, m, addr, data =>
    if data = [] then .ok m
    else
      match m.translate addr with
      | none => .error .memory
      | some phys =>
        let chunk := min data.length (4096 - addr % 4096)
        let frame := phys / 4096
        let m := m.setFrame frame
          (splice (addr % 4096) chunk (fun k => data.getD k 0) (m.phys frame))
        storeVirt fuel m (addr + chunk) (data.drop chunk)

/-- `write_bytes(page, 0, PAGE_SIZE)`. -/
def zeroPage (m : Machine) (page : Nat) : Res Machine :=
  match m.translate page with
  | none => .error .memory
  | some phys => .ok (m.setFrame (phys / 4096) fun _ => 0)

end Machine

namespace Vm

variable (w : World)

/-- `while page < stop { body; page += PAGE_SIZE; }`. -/
def pages (body : Vm → Nat → Res Vm) (start stop : Nat) (s : Vm) : Res Vm :=
  strideLoop id 4096 body (2 ^ 20 + 1) start stop s

/-- A page of the range is translated. -/
def anyTranslated (m : Machine) (start stop : Nat) : Bool :=
  (List.range' (start / 4096) (stop / 4096 - start / 4096)).any fun p =>
    (m.translate (4096 * p)).isSome

/-! ## Shared pages -/

def acquireFilePage (inode offset : Nat) (s : Vm) : Res (Option Nat × Vm) :=
  if offset % 4096 ≠ 0 then .ok (none, s)
  else
  match s.shared.findIdx? fun page => page.inode = inode ∧ page.offset = offset with
  | some i =>
    let page := s.shared.getD i ⟨0, 0, 0, 0⟩
    .ok (some page.frame,
      { s with shared := s.shared.set i { page with refs := satAdd page.refs 1 } })
  | none =>
    match w.sizeOf inode with
    | none => .ok (none, s)
    | some size =>
      if size ≤ offset then .ok (none, s)
      else do
        let (frame, m) ← s.machine.allocFrame
        let data := w.readAt inode offset 4096
        let m := m.setFrame frame fun k => data.getD k 0
        .ok (some frame, { s with machine := m, shared := s.shared ++ [⟨inode, offset, frame, 1⟩] })

/-- `release_shared_frame`: the frame may be freed if `true` is returned. -/
def releaseSharedFrame (frame : Nat) (s : Vm) : Bool × Vm :=
  match s.shared.findIdx? (·.frame = frame) with
  | none => (true, s)
  | some i =>
    let page := s.shared.getD i ⟨0, 0, 0, 0⟩
    if 1 < page.refs then
      (false, { s with shared := s.shared.set i { page with refs := page.refs - 1 } })
    else (true, { s with shared := swapRemove s.shared i })

/-- `free_phys_frame`. -/
def freeFrame (frame : Nat) (s : Vm) : Vm :=
  { s with machine := { s.machine with frames := s.machine.frames.freePhysFrame frame } }

def releaseUserFrame (frame : Nat) (s : Vm) : Vm :=
  let (last, s) := s.releaseSharedFrame frame
  if last then s.freeFrame frame else s

/-! ## `sys_mmap2` -/

/-- The kernel chooses the address of `len` bytes: that of the first hole which is
large enough, or the next one that was never handed out. -/
def chooseAddress (len : Nat) (s : Vm) : Res (Except Nat Nat × Vm) := do
  let reused ← takeFirst len s.mmapFree
  match reused with
  | some (start, mmapFree) => .ok (.ok start, { s with mmapFree })
  | none =>
    let mmapNext := max s.mmapNext mmapBase
    let s := { s with mmapNext }
    if wmSharedBase ≤ satAdd mmapNext len then .ok (.error enomem, s)
    else .ok (.ok mmapNext, { s with mmapNext := satAdd mmapNext len })

/-- The part of `sys_mmap2` that picks the address. -/
def pickAddress (a : MmapArgs) (s : Vm) : Res (Except Nat Nat × Vm) :=
  if a.flag mapFixed = true then
    if a.addr = 0 then .ok (.error einval, s)
    else .ok (.ok (a.addr.toNat / 4096 * 4096), s)
  else if a.addr ≠ 0 then .ok (.ok (a.addr.toNat / 4096 * 4096), s)
  else s.chooseAddress a.lenU

/-- A page with a new count is mapped, and one that is not translated. -/
def mapIfNeeded (need : Bool) (p : Nat) (m : Machine) : Res Machine :=
  if (need || (m.translate p).isNone) = true then m.allocAndMapUserPage p else .ok m

/-- One page of a private mapping. -/
def mapPrivatePage (s : Vm) (p : Nat) : Res Vm := do
  let (need, counts) ← s.counts.inc p
  let m ← mapIfNeeded need p s.machine
  let m ← m.zeroPage p
  .ok { s with machine := m, counts }

/-- The loop that copies a file into a private mapping. -/
def copyFile (w : World) (inode : Nat) : Nat → Nat → Nat → Nat → Machine → Res Machine
  | 0, _, _, _, _ => .error .diverged
  | fuel + 1, remaining, dst, off, m =>
    if remaining = 0 then .ok m
    else do
      let chunk := min remaining 4096
      let data := (w.readAt inode off chunk).take chunk
      if data = [] then .ok m
      else do
        let m ← m.storeVirt (data.length + 1) dst data
        copyFile w inode fuel (remaining - data.length) (dst + data.length) (off + data.length) m

/-- A private mapping of the range. -/
def mapPrivateRange (a : MmapArgs) (inode : Option Nat) (va : Nat) (s : Vm) : Res (Nat × Vm) := do
  let s ← s.pages mapPrivatePage va (va + a.lenU)
  match inode with
  | none => .ok (va, s)
  | some inode => do
    let m ← copyFile w inode (a.len.toNat + 1) a.len.toNat va a.fileOff s.machine
    .ok (va, { s with machine := m })

/-- The pages of a shared mapping that were made are taken back. -/
def rollBackPage (s : Vm) (q : Nat) : Res Vm :=
  match s.machine.translate q with
  | none => .ok s
  | some phys =>
    let s := { s with machine := s.machine.unmap q }
    let s := s.releaseUserFrame (phys / 4096)
    .ok { s with counts := (s.counts.dec q).2 }

/-- The loop that maps the pages of a file, from the page `p` on. -/
def mapSharedPages (w : World) (inode va : Nat) : Nat → Nat → Nat → Nat → Vm → Res (Nat × Vm)
  | 0, _, _, _, _ => .error .diverged
  | fuel + 1, p, off, stop, s =>
    if p < stop then do
      let (frame, s) ← s.acquireFilePage w inode off
      match frame with
      | none => do
        let s ← s.pages rollBackPage va p
        .ok (enomem, s)
      | some frame => do
        let (_, counts) ← s.counts.inc p
        let m ← s.machine.map (p / 4096) frame pageFlags
        let p ← addW 32 p 4096
        mapSharedPages w inode va fuel p (off + 4096) stop { s with machine := m, counts }
    else .ok (va, s)

/-- A shared mapping of the range. -/
def mapSharedRange (a : MmapArgs) (inode va : Nat) (s : Vm) : Res (Nat × Vm) :=
  match w.sizeOf inode with
  | none => .ok (ebadf, s)
  | some size =>
    -- the last page of the mapping must begin before the end of the file
    if size ≤ a.fileOff + (a.lenU - 4096) then .ok (einval, s)
    else if anyTranslated s.machine va (va + a.lenU) = true then .ok (ebusy, s)
    else mapSharedPages w inode va (2 ^ 20 + 1) va a.fileOff (va + a.lenU) s

/-- The part of `sys_mmap2` after the address was picked. -/
def mapRange (a : MmapArgs) (va : Nat) (s : Vm) : Res (Nat × Vm) :=
  if wmSharedBase ≤ va ∨ wmSharedBase < satAdd va a.lenU then .ok (einval, s)
  else if a.anonymous = true then s.mapPrivateRange w a none va
  else
    match w.inodeOf a.fd.toNat with
    | none => .ok (ebadf, s)
    | some inode =>
      if a.flag mapShared = true then s.mapSharedRange w a inode va
      else s.mapPrivateRange w a (some inode) va

def sysMmap2 (a : MmapArgs) (s : Vm) : Res (Nat × Vm) :=
  if a.len = 0 then .ok (einval, s)
  else if 64 * 1024 * 1024 < a.len.toNat then .ok (enomem, s)
  else if a.flag mapShared = a.flag mapPrivate then .ok (einval, s)
  else if (a.flag mapShared && a.anonymous) = true then .ok (eopnotsupp, s)
  else if a.slot = 0 ∨ maxTasks ≤ a.slot then .ok (enomem, s)
  else do
    let (va, s) ← s.pickAddress a
    match va with
    | .error e => .ok (e, s)
    | .ok va => s.mapRange w a va

/-! ## `sys_munmap` -/

/-- One page of `sys_munmap`.  The flag says whether all processors dropped the
pages so far. -/
def unmapPage (s : Bool × Vm) (p : Nat) : Res (Bool × Vm) :=
  let (flushed, s) := s
  let (should, counts) := s.counts.dec p
  let s := { s with counts }
  if should = false then .ok (flushed, s)
  else
    let frame := (s.machine.translate p).map (· / 4096)
    let s := { s with machine := s.machine.unmap p }
    if w.shootdown p = false then .ok (false, s)
    else
      match frame with
      | none => .ok (flushed, s)
      | some frame => .ok (flushed, s.releaseUserFrame frame)

/-- The end of `sys_munmap`: the range becomes a hole of the arena. -/
def recycle (start stop : Nat) (flushed : Bool) (s : Vm) : Vm :=
  if flushed = true ∧ mmapBase ≤ start ∧ stop ≤ wmSharedBase ∧ start < stop ∧
      anyTranslated s.machine start stop = false then
    { s with mmapFree := insertRange (start, stop - start) s.mmapFree }
  else s

def sysMunmap (addr len : UInt32) (s : Vm) : Res (Nat × Vm) :=
  if len = 0 then .ok (0, s)
  else do
    let start := addr.toNat / 4096 * 4096
    let stop ← addW 32 (satAdd addr.toNat len.toNat) 4096
    let stop := (stop - 1) / 4096 * 4096
    if wmSharedBase ≤ start ∨ wmSharedBase < stop then .ok (einval, s)
    else do
      -- the range ends below the device window
      let (flushed, s) ← strideLoop id 4096 (unmapPage w) (2 ^ 20 + 1) start stop (true, s)
      .ok (0, s.recycle start stop flushed)

end Vm

end Felix.Memory
