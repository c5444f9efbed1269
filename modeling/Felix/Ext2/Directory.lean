import Felix.Base.Records
import Felix.Base.Str
import Felix.Ext2.Driver

/-!
# Directories

The functions of `ext2.rs` that read and change directory blocks.  All of them
run over the direct blocks of the directory and, in each block, over its
records; the second loop is `Buf.walk`.  They differ in the checks that they
make on a record before they use it, so each has its own body.

`add_dir_entry` is the only one that can give the directory a new block.
-/

namespace Felix

open Bytes

namespace Ext2Inode

/-- `(i_mode & 0xF000) == 0x4000`. -/
def isDir (inode : Ext2Inode) : Bool := inode.iMode &&& 0xF000 = 0x4000

/-- `(i_mode & 0xF000) == 0x8000`. -/
def isRegular (inode : Ext2Inode) : Bool := inode.iMode &&& 0xF000 = 0x8000

/-- `i_block[0..12]`. -/
def directPtrs (inode : Ext2Inode) : List UInt32 := (List.range 12).map inode.ptr

end Ext2Inode

namespace Ext2DirEntry

/-- The distance to the next record. -/
def len (e : Ext2DirEntry) : Nat := e.recLen.toNat

/-- `(8 + name_len + 3) & !3`: the length that a record with a name of that
length needs. -/
def minLen (nameLen : Nat) : Nat := (8 + nameLen + 3) / 4 * 4

theorem le_minLen (nameLen : Nat) : 8 + nameLen ≤ minLen nameLen := by
  unfold minLen
  omega

end Ext2DirEntry

/-- What `list_directory_entries` returns for one record. -/
structure DirEntry where
  inode : UInt32
  name : Str
  fileType : UInt8
  size : UInt32

namespace Ext2

variable (fs : Ext2) (disk : Disk)

/-- The loop over the records of a block. -/
def scan {σ : Type} (fs : Ext2) (buf : Buf) (body : σ → Nat → Ext2DirEntry → Res (Step σ))
    (s : σ) : Res σ :=
  buf.walk Ext2DirEntry.len fs.blockSize body fs.blockSize 0 s

/-! ## Looking up a name -/

/-- One round of `find_dir_entry`. -/
def findBody (buf : Buf) (name : Str) (s : Option Nat) (offset : Nat)
    (entry : Ext2DirEntry) : Res (Step (Option Nat)) :=
  if entry.recLen = 0 ∨ fs.blockSize - offset < entry.recLen.toNat then .ok (.stop s)
  else
    let nameStart := offset + 8
    let nameEnd := nameStart + entry.nameLen.toNat
    if fs.blockSize < nameEnd ∨ offset + entry.recLen.toNat < nameEnd then .ok (.stop s)
    else if entry.inode ≠ 0 then do
      let nameSlice ← buf.slice nameStart nameEnd
      if (Str.fromUtf8 nameSlice).getD .empty = name then
        .ok (.stop (some entry.inode.toNat))
      else .ok (.next s)
    else .ok (.next s)

/-- The loop of `find_dir_entry` over the blocks: it ends at the first pointer
that is zero. -/
def findBlocks (fs : Ext2) (disk : Disk) (name : Str) : List UInt32 → Res (Option Nat)
  | [] => .ok none
  | block :: rest =>
    if block = 0 then .ok none
    else do
      let blockBuf ← fs.readBlocks disk block.toNat (.zeroed 4096) 1
      match ← fs.scan blockBuf (fs.findBody blockBuf name) none with
      | some inode => .ok (some inode)
      | none => findBlocks fs disk name rest

def findDirEntry (dirInodeNum : Nat) (name : Str) : Res (Option Nat) := do
  let inode ← fs.readInode disk dirInodeNum
  if inode.isDir = false then .ok none
  else fs.findBlocks disk name inode.directPtrs

/-- The loop of `resolve_path`. -/
def resolveFrom (fs : Ext2) (disk : Disk) : Nat → List Str → Res (Option Nat)
  | currentInode, [] => .ok (some currentInode)
  | currentInode, component :: rest => do
    match ← fs.findDirEntry disk currentInode component with
    | some nextInode => resolveFrom fs disk nextInode rest
    | none => .ok none

def resolvePath (path : Str) : Res (Option Nat) :=
  if fs.mounted = false then .ok none
  else if path = .root ∨ path = .empty then .ok (some 2)
  else fs.resolveFrom disk 2 path.components

def splitPath (path : Str) : Option (Str × Str) :=
  if path = .root ∨ path = .empty then none
  else
    let path := path.trimEnd
    match path.splitLast with
    | some (parent, filename) =>
      let parent := if parent = .empty then .root else parent
      if filename = .empty then none else some (parent, filename)
    | none => some (.root, path)

/-! ## Adding a name -/

/-- One round of the search of `add_dir_entry` for the end of the chain.  The
state is `(offset, last_entry_offset)`. -/
def addBody (s : Nat × Nat) (offset : Nat) (entry : Ext2DirEntry) : Res (Step (Nat × Nat)) :=
  if entry.recLen = 0 ∨ fs.blockSize - offset < entry.recLen.toNat then .ok (.stop s)
  else .ok (.next (offset + entry.recLen.toNat, offset))

/-- The part of `add_dir_entry` that cuts the last record down to its own
length, if it is longer, and takes the place behind it. -/
def shrinkLast (buf : Buf) (offset lastEntryOffset : Nat) : Res (Buf × Nat) :=
  if lastEntryOffset ≠ offset then do
    let prevEntry ← buf.load Ext2DirEntry lastEntryOffset
    let prevMinLen := Ext2DirEntry.minLen prevEntry.nameLen.toNat
    if prevMinLen < prevEntry.recLen.toNat then do
      let prevMut := { prevEntry with recLen := UInt16.ofNat prevMinLen }
      let buf ← buf.store lastEntryOffset prevMut
      .ok (buf, lastEntryOffset + prevMinLen)
    else .ok (buf, offset)
  else .ok (buf, offset)

/-- The part of `add_dir_entry` that puts the record into one block, or finds
no room there. -/
def placeEntry (buf : Buf) (name : Str) (inodeNum : Nat) (fileType : UInt8) : Res (Option Buf) := do
  let nameLen := name.bytes.length % 2 ^ 8
  let recLen := Ext2DirEntry.minLen nameLen
  let (offset, lastEntryOffset) ← fs.scan buf fs.addBody (0, 0)
  if offset + recLen ≤ fs.blockSize then do
    let (buf, offset) ← shrinkLast buf offset lastEntryOffset
    if offset + recLen ≤ fs.blockSize then do
      let rest ← subW (fs.blockSize % 2 ^ 16) (offset % 2 ^ 16)
      let newEntry : Ext2DirEntry :=
        { inode := UInt32.ofNat inodeNum, recLen := UInt16.ofNat rest,
          nameLen := UInt8.ofNat nameLen, fileType := fileType }
      let buf ← buf.store offset newEntry
      let buf ← buf.copyNonoverlapping (offset + 8) (name.bytes.take nameLen)
      .ok (some buf)
    else .ok none
  else .ok none

/-- The part of `add_dir_entry` that gives the directory a block. -/
def growDir (dirInode i : Nat) (dirInodeData : Ext2Inode) : Res (Option Ext2Inode × Disk) := do
  match ← fs.allocBlock disk with
  | (none, disk) => .ok (none, disk)
  | (some newBlock, disk) => do
    let dirInodeData := dirInodeData.setPtr i (UInt32.ofNat newBlock)
    let iSize ← addW 32 dirInodeData.iSize.toNat fs.blockSize
    let iBlocks ← addW 32 dirInodeData.iBlocks.toNat (fs.blockSize / 512)
    let dirInodeData :=
      { dirInodeData with iSize := UInt32.ofNat iSize, iBlocks := UInt32.ofNat iBlocks }
    let disk ← fs.writeInode disk dirInode dirInodeData
    let disk ← fs.writeBlocks disk newBlock (fun _ => 0) 1
    .ok (some dirInodeData, disk)

/-- The loop of `add_dir_entry` over the blocks, from block `i` on. -/
def addBlocks (fs : Ext2) (dirInode : Nat) (name : Str) (inodeNum : Nat) (fileType : UInt8) :
    Nat → Nat → Ext2Inode → Disk → Res (Bool × Disk)
  | 0, _, _, disk => .ok (false, disk)
  | rounds + 1, i, dirInodeData, disk => do
    let (grown, disk) ←
      if dirInodeData.ptr i = 0 then fs.growDir disk dirInode i dirInodeData
      else .ok (some dirInodeData, disk)
    match grown with
    | none => .ok (false, disk)
    | some dirInodeData => do
      let block := (dirInodeData.ptr i).toNat
      let blockBuf ← fs.readBlocks disk block (.zeroed 4096) 1
      match ← fs.placeEntry blockBuf name inodeNum fileType with
      | some blockBuf => do
        let disk ← fs.writeBlocks disk block blockBuf.byte 1
        .ok (true, disk)
      | none => addBlocks fs dirInode name inodeNum fileType rounds (i + 1) dirInodeData disk

def addDirEntry (dirInode : Nat) (name : Str) (inodeNum : Nat)
    (fileType : UInt8) : Res (Bool × Disk) := do
  let dirInodeData ← fs.readInode disk dirInode
  if dirInodeData.isDir = false then .ok (false, disk)
  else fs.addBlocks dirInode name inodeNum fileType 12 0 dirInodeData disk

/-! ## Removing a name -/

/-- One round of `remove_dir_entry`.  Only a zero length stops it, and a
record whose inode is zero is compared like any other. -/
def removeBody (buf : Buf) (name : Str) (s : Option (Nat × Ext2DirEntry)) (offset : Nat)
    (entry : Ext2DirEntry) : Res (Step (Option (Nat × Ext2DirEntry))) :=
  if entry.recLen = 0 then .ok (.stop s)
  else do
    let nameSlice ← buf.slice (offset + 8) (offset + 8 + entry.nameLen.toNat)
    if (Str.fromUtf8 nameSlice).getD .empty = name then .ok (.stop (some (offset, entry)))
    else .ok (.next s)

/-- The loop of `remove_dir_entry` over the blocks. -/
def removeBlocks (fs : Ext2) (disk : Disk) (name : Str) : List UInt32 → Res (Bool × Disk)
  | [] => .ok (false, disk)
  | block :: rest =>
    if block = 0 then .ok (false, disk)
    else do
      let blockBuf ← fs.readBlocks disk block.toNat (.zeroed 4096) 1
      match ← fs.scan blockBuf (removeBody blockBuf name) none with
      | some (offset, entry) => do
        let blockBuf ← blockBuf.store offset { entry with inode := 0 }
        let disk ← fs.writeBlocks disk block.toNat blockBuf.byte 1
        .ok (true, disk)
      | none => removeBlocks fs disk name rest

def removeDirEntry (dirInode : Nat) (name : Str) : Res (Bool × Disk) := do
  let dirInodeData ← fs.readInode disk dirInode
  if dirInodeData.isDir = false then .ok (false, disk)
  else fs.removeBlocks disk name dirInodeData.directPtrs

/-! ## The parent entry -/

/-- One round of `update_dotdot`. -/
def dotdotBody (buf : Buf) (s : Option (Nat × Ext2DirEntry)) (offset : Nat)
    (entry : Ext2DirEntry) : Res (Step (Option (Nat × Ext2DirEntry))) :=
  if entry.recLen = 0 ∨ fs.blockSize - offset < entry.recLen.toNat then .ok (.stop s)
  else
    let start := offset + 8
    let finish := start + entry.nameLen.toNat
    if fs.blockSize < finish then .ok (.stop s)
    else do
      let nameSlice ← buf.slice start finish
      if nameSlice = Str.dotdot.bytes then .ok (.stop (some (offset, entry)))
      else .ok (.next s)

def updateDotdot (dirInode parentInode : Nat) : Res (Bool × Disk) := do
  let inode ← fs.readInode disk dirInode
  let block := inode.ptr 0
  if block = 0 then .ok (false, disk)
  else do
    let buf ← fs.readBlocks disk block.toNat (.zeroed 4096) 1
    match ← fs.scan buf (fs.dotdotBody buf) none with
    | some (offset, entry) => do
      let buf ← buf.store offset { entry with inode := UInt32.ofNat parentInode }
      let disk ← fs.writeBlocks disk block.toNat buf.byte 1
      .ok (true, disk)
    | none => .ok (false, disk)

/-! ## Listing -/

/-- `"???"`. -/
def unreadable : Str := ⟨[63, 63, 63], by decide⟩

/-- The size that a listing shows: only that of a regular file is read. -/
def entrySize (entry : Ext2DirEntry) : Res UInt32 :=
  if entry.fileType = 1 then do
    let fileInode ← fs.readInode disk entry.inode.toNat
    .ok fileInode.iSize
  else .ok 0

/-- One round of `list_directory_entries`. -/
def listBody (buf : Buf) (entries : List DirEntry) (offset : Nat)
    (entry : Ext2DirEntry) : Res (Step (List DirEntry)) :=
  if entry.recLen = 0 ∨ fs.blockSize - offset < entry.recLen.toNat then .ok (.stop entries)
  else if entry.inode = 0 then .ok (.next entries)
  else
    let nameStart := offset + 8
    let nameEnd := nameStart + entry.nameLen.toNat
    if fs.blockSize < nameEnd then .ok (.stop entries)
    else do
      let nameSlice ← buf.slice nameStart nameEnd
      let name := (Str.fromUtf8 nameSlice).getD unreadable
      let size ← fs.entrySize disk entry
      .ok (.next (entries ++ [⟨entry.inode, name, entry.fileType, size⟩]))

/-- The loop of `list_directory_entries` over the blocks. -/
def listBlocks (fs : Ext2) (disk : Disk) : List UInt32 → List DirEntry → Res (List DirEntry)
  | [], entries => .ok entries
  | block :: rest, entries =>
    if block = 0 then .ok entries
    else do
      let blockBuf ← fs.readBlocks disk block.toNat (.zeroed 4096) 1
      let entries ← fs.scan blockBuf (fs.listBody disk blockBuf) entries
      listBlocks fs disk rest entries

def listDirectoryEntries (path : Str) : Res (Option (List DirEntry)) := do
  match ← fs.resolvePath disk path with
  | none => .ok none
  | some inodeNum => do
    let inode ← fs.readInode disk inodeNum
    if inode.isDir = false then .ok none
    else do
      let entries ← fs.listBlocks disk inode.directPtrs []
      .ok (some entries)

end Ext2

end Felix
