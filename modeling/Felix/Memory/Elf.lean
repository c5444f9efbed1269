import Felix.Base.Loop
import Felix.Memory.Paging

/-!
# The ELF loader

`load_elf` of `elf.rs`.  The parser of the `elf` crate is a parameter; what it
returns are the fields that the loader reads, as 64-bit words.  Every access that
the loader makes is an event: a page that is mapped, a piece of memory that is
written, and a page whose permission changes.  An event names the directory entry
and the page table entry that the access went through.

The loader first maps all pages from the lowest to the highest address of the
loadable segments, then loads the segments one by one, and sets the permissions
at the end.
-/

namespace Felix.Memory

open Bytes

inductive ElfLoadError
  | invalidElf
  | notExecutable
  | wrongMachine
  | noProgramHeaders
  | invalidAddress
  deriving Repr, DecidableEq

/-- The fields of `elf::segment::ProgramHeader` that the loader reads. -/
structure ProgramHeader where
  pType : Nat
  pFlags : Nat
  pOffset : UInt64
  pVaddr : UInt64
  pFilesz : UInt64
  pMemsz : UInt64
  deriving Repr, DecidableEq

/-- What the loader reads of a parsed file. -/
structure ElfFile where
  eType : Nat
  eMachine : Nat
  eEntry : UInt64
  segments : Option (List ProgramHeader)

def etExec : Nat := 2

def em386 : Nat := 3

def ptLoad : Nat := 1

def pfW : Nat := 2

def kernelMmioBase : Nat := 0xBF000000

/-- `word as u32`. -/
def low32 (w : UInt64) : Nat := w.toNat % 2 ^ 32

/-- An access that the loader makes. -/
inductive Access
  /-- A page is mapped through a directory entry. -/
  | map (page : Nat) (pde : UInt32)
  /-- Bytes are written through a directory entry and a page table entry. -/
  | write (addr len : Nat) (pde pte : UInt32)
  /-- The permission of a page is set through a directory entry. -/
  | protect (page : Nat) (pde : UInt32)
  deriving DecidableEq

open Traced

/-- `page_dir.alloc_and_map_user_page(page)`. -/
def mapPage (m : Machine) (page : Nat) : Traced Access Machine := do
  let m ← lift (m.allocAndMapUserPage page)
  emit (.map page (m.entries (page / 4096 / 1024)))
  pure m

/-- `page_dir.set_user_page_writable(page, writable)`. -/
def protectPage (writable : Bool) (m : Machine) (page : Nat) : Traced Access Machine := do
  emit (.protect page (m.entries (page / 4096 / 1024)))
  pure (m.setUserPageWritable page writable)

/-- `while page < stop { body; page += PAGE_SIZE; }`. -/
def pageLoop (body : Machine → Nat → Traced Access Machine) (start stop : Nat) (m : Machine) :
    Traced Access Machine :=
  strideLoop lift 4096 body (2 ^ 20 + 1) start stop m

/-- The loop of `copy_to_user_virt` and `zero_user_virt`, which write the bytes
`data` page by page through the direct map. -/
def writeUserVirt : Nat → Machine → Nat → List UInt8 → Traced Access Machine
  | 0, _, _, _ => lift (.error .diverged)
  | fuel + 1, m, vaddr, data =>
    if data = [] then pure m
    else do
      let pageOff := vaddr % 4096
      let chunk := min data.length (4096 - pageOff)
      let pde := m.entries (vaddr / 4096 / 1024)
      let pte := m.pteOf pde (vaddr / 4096 % 1024)
      emit (.write vaddr chunk pde pte)
      let frame := frameOf pte
      let m := m.setFrame frame (splice pageOff chunk (fun k => data.getD k 0) (m.phys frame))
      let vaddr ← lift (addW 32 vaddr chunk)
      writeUserVirt fuel m vaddr (data.drop chunk)

def copyToUserVirt (m : Machine) (vaddr : Nat) (data : List UInt8) : Traced Access Machine :=
  writeUserVirt (data.length + 1) m vaddr data

def zeroUserVirt (m : Machine) (vaddr len : Nat) : Traced Access Machine :=
  writeUserVirt (len + 1) m vaddr (List.replicate len 0)

/-- The end of `load_segment`: the bytes after the file data become zero. -/
def clearBss (ph : ProgramHeader) (m : Machine) : Traced Access Machine :=
  let memsz := low32 ph.pMemsz
  let filesz := low32 ph.pFilesz
  if filesz < memsz then do
    let start ← lift (addW 32 (low32 ph.pVaddr) filesz)
    zeroUserVirt m start (memsz - filesz)
  else pure m

/-- The part of `load_segment` after its pages were mapped. -/
def fillSegment (ph : ProgramHeader) (binary : List UInt8) (m : Machine) :
    Traced Access (Except ElfLoadError Unit × Machine) :=
  let offset := low32 ph.pOffset
  let filesz := low32 ph.pFilesz
  if 0 < filesz then do
    let stop ← lift (addW 32 offset filesz)
    if binary.length < stop then pure (.error .invalidElf, m)
    else do
      let m ← copyToUserVirt m (low32 ph.pVaddr) ((binary.drop offset).take filesz)
      let m ← clearBss ph m
      pure (.ok (), m)
  else do
    let m ← clearBss ph m
    pure (.ok (), m)

def loadSegment (ph : ProgramHeader) (binary : List UInt8) (m : Machine) :
    Traced Access (Except ElfLoadError Unit × Machine) :=
  let vaddr := low32 ph.pVaddr
  let memsz := low32 ph.pMemsz
  -- the sum saturates
  if kernelMmioBase ≤ vaddr ∨ kernelMmioBase < min (vaddr + memsz) (2 ^ 32 - 1) then
    pure (.error .invalidAddress, m)
  else do
    let stop ← lift (addW 32 vaddr memsz)
    let stop ← lift (addW 32 stop 4096)
    let stop ← lift (subW stop 1)
    let m ← pageLoop mapPage (vaddr / 4096 * 4096) (stop / 4096 * 4096) m
    fillSegment ph binary m

/-- The loop that finds the lowest and the highest address. -/
def addressRange : List ProgramHeader → Nat → Nat → Res (Nat × Nat)
  | [], minAddr, maxAddr => .ok (minAddr, maxAddr)
  | ph :: rest, minAddr, maxAddr =>
    if ph.pType ≠ ptLoad then addressRange rest minAddr maxAddr
    else do
      let v := low32 ph.pVaddr
      let e ← addW 32 v (low32 ph.pMemsz)
      addressRange rest (min minAddr v) (max maxAddr e)

/-- The body of the loop that maps everything between the two. -/
def mapBelowKernel (m : Machine) (page : Nat) : Traced Access Machine :=
  if page < 0xC0000000 then mapPage m page else pure m

/-- The loop that loads the segments. -/
def loadSegments (binary : List UInt8) :
    List ProgramHeader → Machine → Traced Access (Except ElfLoadError Unit × Machine)
  | [], m => pure (.ok (), m)
  | ph :: rest, m =>
    if ph.pType = ptLoad then do
      let (r, m) ← loadSegment ph binary m
      match r with
      | .error e => pure (.error e, m)
      | .ok () => loadSegments binary rest m
    else loadSegments binary rest m

/-- The loops that set the permissions: the pages of every segment that is
`chosen` become writable or read-only. -/
def protectSegments (chosen : ProgramHeader → Bool) (writable : Bool) :
    List ProgramHeader → Machine → Traced Access Machine
  | [], m => pure m
  | ph :: rest, m =>
    if chosen ph = false then protectSegments chosen writable rest m
    else do
      let stop ← lift (addW 64 ph.pVaddr.toNat ph.pMemsz.toNat)
      let stop ← lift (addW 64 stop 4096)
      let stop ← lift (subW stop 1)
      let m ← pageLoop (protectPage writable) (low32 ph.pVaddr / 4096 * 4096)
        (stop / 4096 * 4096 % 2 ^ 32) m
      protectSegments chosen writable rest m

/-- A segment that is loaded. -/
def isLoad (ph : ProgramHeader) : Bool := ph.pType = ptLoad

/-- A segment that is loaded and can be written to. -/
def isWritableLoad (ph : ProgramHeader) : Bool :=
  ph.pType = ptLoad ∧ ph.pFlags &&& pfW ≠ 0

/-- The part of `load_elf` after the segments were found. -/
def loadImage (binary : List UInt8) (segments : List ProgramHeader) (eEntry : UInt64)
    (m : Machine) : Traced Access (Except ElfLoadError Nat × Machine) := do
  let (minAddr, maxAddr) ← lift (addressRange segments (2 ^ 32 - 1) 0)
  let stop ← lift (addW 32 maxAddr 0xFFF)
  let m ← pageLoop mapBelowKernel (minAddr / 4096 * 4096) (stop / 4096 * 4096) m
  let (r, m) ← loadSegments binary segments m
  match r with
  | .error e => pure (.error e, m)
  | .ok () => do
    let m ← protectSegments isLoad false segments m
    let m ← protectSegments isWritableLoad true segments m
    pure (.ok (low32 eEntry), m)

def loadElf (parse : List UInt8 → Option ElfFile) (binary : List UInt8) (m : Machine) :
    Traced Access (Except ElfLoadError Nat × Machine) :=
  match parse binary with
  | none => pure (.error .invalidElf, m)
  | some file =>
    if file.eType ≠ etExec then pure (.error .notExecutable, m)
    else if file.eMachine ≠ em386 then pure (.error .wrongMachine, m)
    else
      match file.segments with
      | none => pure (.error .noProgramHeaders, m)
      | some segments => loadImage binary segments file.eEntry m

end Felix.Memory
