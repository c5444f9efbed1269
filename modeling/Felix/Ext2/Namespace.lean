import Felix.Ext2.File
import Felix.Ext2.Format

/-!
# Making, removing and renaming files

The functions of `ext2.rs` that work on paths: `create_file_path`,
`remove_file_path`, `mkdir_path`, `rmdir_path` and `rename_path`.  Each is a
sequence of steps on the disk with an exit after every one of them, and only
`rename_path` takes anything back.

The clock is an argument.  `create_new_file` writes whole blocks from a pointer
into the data, so what it writes behind the end of the data is whatever comes
there in memory; that is an argument as well.
-/

namespace Felix

open Bytes

namespace Ext2

variable (fs : Ext2) (disk : Disk)

/-- The name that a path gives in the root directory, which is the only place
where some of the functions work. -/
def rootName (path : Str) : Option Str :=
  match path.stripSlash with
  | some n => if slash ∈ n.bytes then none else some n
  | none => none

/-! ## Making a file -/

/-- The bytes in memory from index `start` of the data on. -/
def dataFrom (data : List UInt8) (after : Bytes) (start : Nat) : Bytes := fun k =>
  if start + k < data.length then data.getD (start + k) 0 else after (start + k - data.length)

/-- Where `create_new_file` notes block `i` of the file: in the inode or in the
buffer for the table.  There is no place when the table is full. -/
def notePointer (i block : Nat) (inode : Ext2Inode) (indirectBuf : Buf) :
    Res (Option (Ext2Inode × Buf)) :=
  if i < 12 then .ok (some (inode.setPtr i (UInt32.ofNat block), indirectBuf))
  else
    let ptr := (i - 12) * 4
    if indirectBuf.len < ptr + 4 then .ok none
    else do
      let indirectBuf ← indirectBuf.setWord ptr (UInt32.ofNat block)
      .ok (some (inode, indirectBuf))

/-- The loop of `create_new_file` over the blocks of the file, from block `i`
on. -/
def newFileBlocks (fs : Ext2) (data : List UInt8) (after : Bytes) :
    Nat → Nat → Ext2Inode → Buf → Disk → Res (Option (Ext2Inode × Buf) × Disk)
  | 0, _, inode, indirectBuf, disk => .ok (some (inode, indirectBuf), disk)
  | rounds + 1, i, inode, indirectBuf, disk => do
    match ← fs.allocBlock disk with
    | (none, disk) => .ok (none, disk)
    | (some block, disk) => do
      match ← notePointer i block inode indirectBuf with
      | none => .ok (none, disk)
      | some (inode, indirectBuf) => do
        let start ← mulW 32 i fs.blockSize
        let sum ← addW 32 start fs.blockSize
        let _ ← subslice data start (min sum data.length)
        let disk ← fs.writeBlocks disk block (dataFrom data after start) 1
        newFileBlocks fs data after rounds (i + 1) inode indirectBuf disk

/-- The inode of a new file. -/
def newFileInode (size iBlocks : Nat) (now : UInt32) : Ext2Inode :=
  { Ext2Inode.zeroed with
    iMode := 0x81A4
    iSize := UInt32.ofNat size
    iAtime := now
    iCtime := now
    iMtime := now
    iLinksCount := 1
    iBlocks := UInt32.ofNat iBlocks }

/-- The block for the table of pointers, if the file needs one. -/
def allocTable (numBlocks : Nat) : Res (Option Nat × Disk) :=
  if 12 < numBlocks then fs.allocBlock disk else .ok (some 0, disk)

/-- The table of pointers is written, if the file has one. -/
def writeTable (numBlocks indirectBlock : Nat) (indirectBuf : Buf) : Res Disk :=
  if 12 < numBlocks then fs.writeBlocks disk indirectBlock indirectBuf.byte 1 else .ok disk

/-- The inode of a new file as it is written. -/
def finishedInode (inode : Ext2Inode) (numBlocks indirectBlock iBlocks : Nat) : Ext2Inode :=
  { if 12 < numBlocks then inode.setPtr 12 (UInt32.ofNat indirectBlock) else inode with
    iBlocks := UInt32.ofNat iBlocks }

/-- The end of `create_new_file`: the table, the inode and the name are
written. -/
def linkNewFile (parentInode : Nat) (name : Str)
    (inodeNum numBlocks indirectBlock : Nat) (inode : Ext2Inode) (indirectBuf : Buf) :
    Res (Bool × Disk) := do
  let disk ← fs.writeTable disk numBlocks indirectBlock indirectBuf
  let iBlocks ← fs.sectorsFor numBlocks
  let disk ← fs.writeInode disk inodeNum (finishedInode inode numBlocks indirectBlock iBlocks)
  fs.addDirEntry disk parentInode name inodeNum 1

/-- The part of `create_new_file` behind the allocation of the table. -/
def fillNewFile (parentInode : Nat) (name : Str)
    (inodeNum numBlocks indirectBlock : Nat) (data : List UInt8) (after : Bytes)
    (now : UInt32) : Res (Bool × Disk) := do
  let iBlocks ← mulW 32 numBlocks (fs.blockSize / 512)
  let inode := newFileInode (data.length % 2 ^ 32) iBlocks now
  match ← fs.newFileBlocks data after numBlocks 0 inode (.zeroed 4096) disk with
  | (none, disk) => .ok (false, disk)
  | (some (inode, indirectBuf), disk) =>
    fs.linkNewFile disk parentInode name inodeNum numBlocks indirectBlock inode indirectBuf

/-- The part of `create_new_file` behind the allocation of the inode. -/
def createWithInode (parentInode : Nat) (name : Str)
    (inodeNum : Nat) (data : List UInt8) (after : Bytes) (now : UInt32) : Res (Bool × Disk) := do
  let numBlocks ← fs.blocksFor (data.length % 2 ^ 32)
  if 12 + fs.blockSize / 4 < numBlocks then .ok (false, disk)
  else do
    match ← fs.allocTable disk numBlocks with
    | (none, disk) => .ok (false, disk)
    | (some indirectBlock, disk) =>
      fs.fillNewFile disk parentInode name inodeNum numBlocks indirectBlock data after now

def createNewFile (path : Str) (data : List UInt8) (after : Bytes)
    (now : UInt32) : Res (Bool × Disk) :=
  if fs.mounted = false then .ok (false, disk)
  else
    match splitPath path with
    | none => .ok (false, disk)
    | some (parentPath, name) => do
      match ← fs.resolvePath disk parentPath with
      | none => .ok (false, disk)
      | some parentInode => do
        let parent ← fs.readInode disk parentInode
        if parent.isDir = false then .ok (false, disk)
        else do
          match ← fs.allocInode disk with
          | (none, disk) => .ok (false, disk)
          | (some inodeNum, disk) =>
            fs.createWithInode disk parentInode name inodeNum data after now

/-- `create_file_path`: an existing file is rewritten. -/
def createFilePath (path : Str) (data : List UInt8) (after : Bytes)
    (now : UInt32) : Res (Bool × Disk) := do
  match ← fs.resolvePath disk path with
  | some inodeNum => fs.writeFileByInode disk inodeNum data now
  | none => fs.createNewFile disk path data after now

/-! ## Removing a file -/

/-- The loop of `free_blocks_of_inode`. -/
def freeAll (fs : Ext2) : List UInt32 → Disk → Res Disk
  | [], disk => .ok disk
  | block :: rest, disk =>
    if block = 0 then freeAll fs rest disk
    else do
      let disk ← fs.freeBlock disk block.toNat
      freeAll fs rest disk

/-- `free_blocks_of_inode`: only the twelve direct blocks are freed. -/
def freeBlocksOfInode (inodeNum : Nat) : Res Disk := do
  let inode ← fs.readInode disk inodeNum
  fs.freeAll inode.directPtrs disk

def removeFilePath (path : Str) : Res (Bool × Disk) :=
  if fs.mounted = false then .ok (false, disk)
  else do
    match ← fs.resolvePath disk path with
    | none => .ok (false, disk)
    | some inodeNum => do
      let inode ← fs.readInode disk inodeNum
      if inode.isDir = true then .ok (false, disk)
      else
        match rootName path with
        | none => .ok (false, disk)
        | some name => do
          let (removed, disk) ← fs.removeDirEntry disk 2 name
          if removed = false then .ok (false, disk)
          else do
            let disk ← fs.freeBlocksOfInode disk inodeNum
            let disk ← fs.freeInode disk inodeNum
            .ok (true, disk)

/-! ## Making a directory -/

/-- The inode of a new directory. -/
def newDirInode (block : Nat) (now : UInt32) : Ext2Inode :=
  { Ext2Inode.zeroed with
    iMode := 0x41ED
    iSize := UInt32.ofNat fs.blockSize
    iAtime := now
    iCtime := now
    iMtime := now
    iLinksCount := 2
    iBlocks := UInt32.ofNat (fs.blockSize / 512) }.setPtr 0 (UInt32.ofNat block)

/-- `init_directory_block`, which always returns `true`. -/
def initDirectoryBlock (block selfInode parentInode : Nat) : Res Disk := do
  let rest ← subW fs.blockSize 12
  fs.writeBlocks disk block (dotsBlock selfInode parentInode (rest % 2 ^ 16)) 1

/-- The part of `mkdir_path` behind the allocation of the inode. -/
def mkdirWithInode (name : Str) (inodeNum : Nat) (now : UInt32) : Res (Bool × Disk) := do
  match ← fs.allocBlock disk with
  | (none, disk) => .ok (false, disk)
  | (some dirBlock, disk) => do
    let disk ← fs.writeInode disk inodeNum (fs.newDirInode dirBlock now)
    let disk ← fs.initDirectoryBlock disk dirBlock inodeNum 2
    fs.addDirEntry disk 2 name inodeNum 2

def mkdirPath (path : Str) (now : UInt32) : Res (Bool × Disk) :=
  if fs.mounted = false then .ok (false, disk)
  else do
    match ← fs.resolvePath disk path with
    | some _ => .ok (false, disk)
    | none =>
      match rootName path with
      | none => .ok (false, disk)
      | some name => do
        match ← fs.allocInode disk with
        | (none, disk) => .ok (false, disk)
        | (some inodeNum, disk) => fs.mkdirWithInode disk name inodeNum now

/-! ## Removing a directory -/

/-- `list_directory_entries_by_inode`, which is a stub: it has no entries for
any inode. -/
def listDirectoryEntriesByInode (inodeNum : Nat) : Res (Option (List DirEntry)) := do
  let inode ← fs.readInode disk inodeNum
  if inode.isDir = false then .ok none
  else .ok none

/-- One round of the loop of `remove_directory_contents`, which names an entry
by the number of its directory. -/
def removeEntry (rmdir : Disk → Str → Res (Bool × Disk)) (dirInode : Nat)
    (entry : DirEntry) (disk : Disk) : Res (Bool × Disk) :=
  let fullPath := Str.join (Str.join .empty (.decimal dirInode)) entry.name
  if entry.fileType = 2 then rmdir disk fullPath
  else fs.removeFilePath disk fullPath

/-- The loop of `remove_directory_contents`. -/
def removeEntries (fs : Ext2) (rmdir : Disk → Str → Res (Bool × Disk)) (dirInode : Nat) :
    List DirEntry → Disk → Res (Bool × Disk)
  | [], disk => .ok (true, disk)
  | entry :: rest, disk =>
    if entry.name = .dot ∨ entry.name = .dotdot then removeEntries fs rmdir dirInode rest disk
    else do
      let (removed, disk) ← fs.removeEntry rmdir dirInode entry disk
      if removed = false then .ok (false, disk)
      else removeEntries fs rmdir dirInode rest disk

/-- `remove_directory_contents`, for a given `rmdir_path`. -/
def removeDirectoryContents (rmdir : Disk → Str → Res (Bool × Disk)) (disk : Disk)
    (dirInode : Nat) : Res (Bool × Disk) := do
  match ← fs.listDirectoryEntriesByInode disk dirInode with
  | none => .ok (false, disk)
  | some entries => fs.removeEntries rmdir dirInode entries disk

/-- `rmdir_path`, for nested directories up to the given depth. -/
def rmdirPath (fs : Ext2) : Nat → Disk → Str → Res (Bool × Disk)
  | 0, _, _ => .error .diverged
  | depth + 1, disk, path =>
    if fs.mounted = false then .ok (false, disk)
    else do
      match ← fs.resolvePath disk path with
      | none => .ok (false, disk)
      | some inodeNum => do
        let inode ← fs.readInode disk inodeNum
        if inode.isDir = false then .ok (false, disk)
        else do
          let (emptied, disk) ← fs.removeDirectoryContents (rmdirPath fs depth) disk inodeNum
          if emptied = false then .ok (false, disk)
          else
            match rootName path with
            | none => .ok (false, disk)
            | some name => do
              let (removed, disk) ← fs.removeDirEntry disk 2 name
              if removed = false then .ok (false, disk)
              else do
                let disk ← fs.freeAll [inode.ptr 0] disk
                let disk ← fs.freeInode disk inodeNum
                .ok (true, disk)

/-! ## Renaming -/

/-- The test of `rename_path` that is to keep a directory from being moved
below itself.  It compares the texts of the two paths. -/
def textBelow (old newParent : Str) : Bool :=
  let oldClean := old.trimEnd
  let newParentClean := newParent.trimEnd
  newParentClean = oldClean ∨
    oldClean.bytes <+: newParentClean.bytes ∧
      newParentClean.bytes[oldClean.bytes.length]? = some slash

/-- `u16::saturating_add(1)`. -/
def saturatingIncr (n : UInt16) : UInt16 := UInt16.ofNat (min (n.toNat + 1) 65535)

/-- `u16::saturating_sub(1)`. -/
def saturatingDecr (n : UInt16) : UInt16 := UInt16.ofNat (n.toNat - 1)

/-- The link counts and times of the two parents of a directory that moved. -/
def touchParents (oldParent newParent : Nat) (now : UInt32) : Res Disk := do
  let op ← fs.readInode disk oldParent
  let np ← fs.readInode disk newParent
  let disk ← fs.writeInode disk oldParent
    { op with iLinksCount := saturatingDecr op.iLinksCount, iMtime := now, iCtime := now }
  fs.writeInode disk newParent
    { np with iLinksCount := saturatingIncr np.iLinksCount, iMtime := now, iCtime := now }

/-- The part of `rename_path` behind the two changes of names: a directory that
moved gets its new parent, and the time of the change is noted. -/
def settleMoved (inodeNum oldParent newParent : Nat)
    (inode : Ext2Inode) (parentNow now : UInt32) : Res (Bool × Disk) :=
  if inode.isDir = true ∧ oldParent ≠ newParent then do
    let (updated, disk) ← fs.updateDotdot disk inodeNum newParent
    if updated = false then .ok (false, disk)
    else do
      let disk ← fs.touchParents disk oldParent newParent parentNow
      let disk ← fs.writeInode disk inodeNum { inode with iCtime := now }
      .ok (true, disk)
  else do
    let disk ← fs.writeInode disk inodeNum { inode with iCtime := now }
    .ok (true, disk)

/-- The part of `rename_path` that changes the disk. -/
def moveEntry (inodeNum oldParent newParent : Nat)
    (oldName newName : Str) (inode : Ext2Inode) (parentNow now : UInt32) : Res (Bool × Disk) := do
  let fileType := if inode.isDir = true then 2 else 1
  let (linked, disk) ← fs.addDirEntry disk newParent newName inodeNum fileType
  if linked = false then .ok (false, disk)
  else do
    let (removed, disk) ← fs.removeDirEntry disk oldParent oldName
    if removed = false then do
      let (_, disk) ← fs.removeDirEntry disk newParent newName
      .ok (false, disk)
    else fs.settleMoved disk inodeNum oldParent newParent inode parentNow now

def renamePath (old new : Str) (parentNow now : UInt32) : Res (Bool × Disk) :=
  if fs.mounted = false ∨ old = .root ∨ new = .root ∨ old = new then .ok (false, disk)
  else do
    match ← fs.resolvePath disk old with
    | none => .ok (false, disk)
    | some inodeNum => do
      match ← fs.resolvePath disk new with
      | some _ => .ok (false, disk)
      | none =>
        match splitPath old, splitPath new with
        | some (oldParentPath, oldName), some (newParentPath, newName) => do
          match ← fs.resolvePath disk oldParentPath with
          | none => .ok (false, disk)
          | some oldParent => do
            match ← fs.resolvePath disk newParentPath with
            | none => .ok (false, disk)
            | some newParent => do
              let op ← fs.readInode disk oldParent
              if op.isDir = false then .ok (false, disk)
              else do
                let np ← fs.readInode disk newParent
                if np.isDir = false then .ok (false, disk)
                else do
                  let inode ← fs.readInode disk inodeNum
                  if inode.isDir = true ∧ textBelow old newParentPath = true then
                    .ok (false, disk)
                  else
                    fs.moveEntry disk inodeNum oldParent newParent oldName newName inode
                      parentNow now
        | _, _ => .ok (false, disk)

end Ext2

end Felix
