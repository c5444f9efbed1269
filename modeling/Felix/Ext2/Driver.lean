import Felix.Base.Bitmap
import Felix.Disk
import Felix.Ext2.Layout

/-!
# The ext2 driver: blocks, descriptors, inodes and bitmaps

The lower half of `kernel/src/filesystem/ext2.rs`.  The functions take the
disk and give it back, because the driver keeps nothing of it in memory but
the superblock.  A `u32` argument is a natural number.  The kernel's build checks
arithmetic for overflow; wherever a value can overflow the operator is a checked
one, so a panic of the driver is a fault of the model.  Lines that only print are
left out.
-/

namespace Felix

open Bytes

/-- The driver state.  `blockSize` is a `u32` and `partitionOffset` a `u64`;
`mount` sets both, and no later operation changes any field. -/
structure Ext2 where
  superblock : Ext2SuperBlock
  blockSize : Nat
  mounted : Bool
  partitionOffset : Nat

namespace Ext2

variable (fs : Ext2) (disk : Disk)

/-! ## Blocks -/

/-- `read_blocks`.  A device error is only printed: the buffer keeps what it
held. -/
def readBlocks (block : Nat) (buf : Buf) (count : Nat) : Res Buf :=
  if fs.blockSize = 0 then .ok buf
  else do
    let sectorsPerBlock := fs.blockSize / 512
    let total ← mulW 32 sectorsPerBlock count
    let totalSectors := total % 2 ^ 8
    let offset ← mulW 32 block sectorsPerBlock
    let lba ← addW 32 (fs.partitionOffset % 2 ^ 32) offset
    match disk.readSectors totalSectors lba buf.byte with
    | .error _ => .ok buf
    | .ok bytes =>
      if totalSectors * 512 ≤ buf.len then .ok ⟨buf.len, bytes⟩ else .error .memory

/-- `write_blocks`.  A device error is only printed: nothing is written.
The source is a raw pointer, so it is the bytes from there on. -/
def writeBlocks (block : Nat) (buf : Bytes) (count : Nat) : Res Disk :=
  if fs.blockSize = 0 then .ok disk
  else do
    let sectorsPerBlock := fs.blockSize / 512
    let total ← mulW 32 sectorsPerBlock count
    let totalSectors := total % 2 ^ 8
    let offset ← mulW 32 block sectorsPerBlock
    let lba ← addW 32 (fs.partitionOffset % 2 ^ 32) offset
    match disk.writeSectors totalSectors lba buf with
    | .error _ => .ok disk
    | .ok disk' => .ok disk'

def readStructFromDisk (α : Type) [Packed α] (fs : Ext2) (disk : Disk)
    (block offsetInBlock : Nat) : Res α :=
  if fs.blockSize = 0 then .ok (Packed.decode fun _ => 0)
  else do
    let blockBuf ← fs.readBlocks disk block (.zeroed 4096) 1
    blockBuf.load α offsetInBlock

/-- `write_struct_to_disk`: read, modify, write. -/
def writeStructToDisk {α : Type} [Packed α] (fs : Ext2) (disk : Disk)
    (block offsetInBlock : Nat) (value : α) : Res Disk :=
  if fs.blockSize = 0 then .ok disk
  else do
    let blockBuf ← fs.readBlocks disk block (.zeroed 4096) 1
    let blockBuf ← blockBuf.store offsetInBlock value
    fs.writeBlocks disk block blockBuf.byte 1

/-! ## Mounting -/

def ext2Magic : UInt16 := 0xEF53

/-- The partition that the optional configuration of `mount` selects. -/
def atPartition (config : Option Nat) : Ext2 :=
  match config with
  | some startLba => { fs with partitionOffset := startLba }
  | none => fs

/-- The part of `mount` that reads the superblock.  On a device error or a
wrong magic number the file system is not mounted. -/
def mountHere : Res Ext2 := do
  let sbOffset ← addW 64 fs.partitionOffset 2
  match disk.readSectors 2 (sbOffset % 2 ^ 32) (fun _ => 0) with
  | .error _ => .ok fs
  | .ok superblockBuf =>
    let superblock := Ext2SuperBlock.decode superblockBuf
    if superblock.sMagic ≠ ext2Magic then .ok { fs with superblock := superblock }
    else do
      let blockSize ← shlW 32 1024 superblock.sLogBlockSize.toNat
      .ok { fs with superblock := superblock, blockSize := blockSize, mounted := true }

def mount (config : Option Nat) : Res Ext2 :=
  (fs.atPartition config).mountHere disk

/-- `update_superblock_free_inodes` and `update_superblock_free_blocks`,
which have the same body: the superblock in memory goes to the disk. -/
def updateSuperblock : Res Disk := do
  let sbOffset ← addW 64 fs.partitionOffset 2
  match disk.writeSectors 2 (sbOffset % 2 ^ 32) fs.superblock.encode with
  | .error _ => .ok disk
  | .ok disk' => .ok disk'

/-! ## Block group descriptors -/

/-- Where the driver takes the descriptor table to start. -/
def bgdTableBlock : Nat :=
  if fs.superblock.sFirstDataBlock = 0 then 1 else fs.superblock.sFirstDataBlock.toNat

/-- The block and the byte offset of the descriptor of a group. -/
def bgdSlot (group : Nat) : Res (Nat × Nat) := do
  let bgdsPerBlock := fs.blockSize / 32
  let blockInTable ← divW group bgdsPerBlock
  let block ← addW 32 fs.bgdTableBlock blockInTable
  let indexInBlock ← modW group bgdsPerBlock
  let byteOffset ← mulW 32 indexInBlock 32
  .ok (block, byteOffset)

def getBgDescriptor (group : Nat) : Res Ext2BlockGroupDescriptor :=
  if fs.mounted = false then .ok (Packed.decode fun _ => 0)
  else do
    let (block, byteOffset) ← fs.bgdSlot group
    fs.readStructFromDisk Ext2BlockGroupDescriptor disk block byteOffset

def writeBgDescriptor (group : Nat) (bgd : Ext2BlockGroupDescriptor) : Res Disk := do
  let (block, offset) ← fs.bgdSlot group
  fs.writeStructToDisk disk block offset bgd

/-! ## Inodes -/

/-- The block and the byte offset of an inode: the part that `read_inode`
and `write_inode` share. -/
def inodeSlot (inodeNum : Nat) : Res (Nat × Nat) := do
  let group ← divW (inodeNum - 1) fs.superblock.sInodesPerGroup.toNat
  let bgd ← fs.getBgDescriptor disk group
  let indexInGroup ← modW (inodeNum - 1) fs.superblock.sInodesPerGroup.toNat
  let inodeOffset := indexInGroup * fs.superblock.sInodeSize.toNat
  let blockOffset ← divW inodeOffset fs.blockSize
  let byteOffsetInBlock ← modW inodeOffset fs.blockSize
  let block ← addW 32 bgd.bgInodeTable.toNat (blockOffset % 2 ^ 32)
  .ok (block, byteOffsetInBlock)

def readInode (inodeNum : Nat) : Res Ext2Inode :=
  if fs.mounted = false ∨ inodeNum = 0 then .ok .zeroed
  else do
    let (block, byteOffset) ← fs.inodeSlot disk inodeNum
    fs.readStructFromDisk Ext2Inode disk block byteOffset

def writeInode (inodeNum : Nat) (inode : Ext2Inode) : Res Disk :=
  if fs.mounted = false ∨ inodeNum = 0 then .ok disk
  else do
    let (block, byteOffset) ← fs.inodeSlot disk inodeNum
    fs.writeStructToDisk disk block byteOffset inode

/-! ## Bitmaps -/

def readBitmap (block : Nat) : Res Buf :=
  fs.readBlocks disk block (.zeroed 4096) 1

def writeBitmap (block : Nat) (bitmap : Buf) : Res Disk :=
  fs.writeBlocks disk block bitmap.byte 1

/-- `if count > 0 { count -= 1 }` on a `u16`. -/
def decrement (count : UInt16) : UInt16 :=
  if 0 < count.toNat then UInt16.ofNat (count.toNat - 1) else count

/-- `alloc_inode`: the search runs over the bits from 12 on of the inode
bitmap of group 0, and bit `i` gives inode number `i`. -/
def allocInode : Res (Option Nat × Disk) :=
  if fs.mounted = false then .ok (none, disk)
  else do
    let bgd ← fs.getBgDescriptor disk 0
    let bitmap ← fs.readBitmap disk bgd.bgInodeBitmap.toNat
    let inodesPerGroup := fs.superblock.sInodesPerGroup.toNat
    match ← bitmap.findClear (inodesPerGroup - 12) 12 with
    | none => .ok (none, disk)
    | some i => do
      let bitmap := { bitmap with byte := setBit i bitmap.byte }
      let disk ← fs.writeBitmap disk bgd.bgInodeBitmap.toNat bitmap
      let bgdMut := { bgd with bgFreeInodesCount := decrement bgd.bgFreeInodesCount }
      let disk ← fs.writeBgDescriptor disk 0 bgdMut
      let disk ← fs.updateSuperblock disk
      .ok (some (0 * inodesPerGroup + i), disk)

/-- `free_inode`: bit `inode_num - 1` is cleared, and the inode is zeroed. -/
def freeInode (inodeNum : Nat) : Res Disk := do
  let index ← subW inodeNum 1
  let group ← divW index fs.superblock.sInodesPerGroup.toNat
  let bgd ← fs.getBgDescriptor disk group
  let bitmap ← fs.readBitmap disk bgd.bgInodeBitmap.toNat
  let indexInGroup ← modW index fs.superblock.sInodesPerGroup.toNat
  let disk ←
    if indexInGroup / 8 < bitmap.len then do
      let bitmap := { bitmap with byte := clearBit indexInGroup bitmap.byte }
      let disk ← fs.writeBitmap disk bgd.bgInodeBitmap.toNat bitmap
      let count ← addW 16 bgd.bgFreeInodesCount.toNat 1
      let bgdMut := { bgd with bgFreeInodesCount := UInt16.ofNat count }
      let disk ← fs.writeBgDescriptor disk group bgdMut
      fs.updateSuperblock disk
    else .ok disk
  fs.writeInode disk inodeNum .zeroed

/-- The number of blocks of the inode table of a group. -/
def inodeTableSizeInBlocks : Nat :=
  (fs.superblock.sInodesPerGroup.toNat * fs.superblock.sInodeSize.toNat
    + (fs.blockSize - 1)) / fs.blockSize

/-- `alloc_block`: the search starts behind the inode table of group 0, and
bit `i` gives block number `i`. -/
def allocBlock : Res (Option Nat × Disk) :=
  if fs.mounted = false then .ok (none, disk)
  else do
    let bgd ← fs.getBgDescriptor disk 0
    let bitmap ← fs.readBitmap disk bgd.bgBlockBitmap.toNat
    let blocksPerGroup := fs.superblock.sBlocksPerGroup.toNat
    let firstDataBlock := (bgd.bgInodeTable.toNat + fs.inodeTableSizeInBlocks) % 2 ^ 32
    match ← bitmap.findClear (blocksPerGroup - firstDataBlock) firstDataBlock with
    | none => .ok (none, disk)
    | some i => do
      let bitmap := { bitmap with byte := setBit i bitmap.byte }
      let disk ← fs.writeBitmap disk bgd.bgBlockBitmap.toNat bitmap
      let bgdMut := { bgd with bgFreeBlocksCount := decrement bgd.bgFreeBlocksCount }
      let disk ← fs.writeBgDescriptor disk 0 bgdMut
      let disk ← fs.updateSuperblock disk
      .ok (some i, disk)

def freeBlock (block : Nat) : Res Disk :=
  if block = 0 then .ok disk
  else do
    let bgd ← fs.getBgDescriptor disk 0
    let bitmap ← fs.readBitmap disk bgd.bgBlockBitmap.toNat
    if block / 8 < bitmap.len then do
      let bitmap := { bitmap with byte := clearBit block bitmap.byte }
      let disk ← fs.writeBitmap disk bgd.bgBlockBitmap.toNat bitmap
      let count ← addW 16 bgd.bgFreeBlocksCount.toNat 1
      let bgdMut := { bgd with bgFreeBlocksCount := UInt16.ofNat count }
      let disk ← fs.writeBgDescriptor disk 0 bgdMut
      fs.updateSuperblock disk
    else .ok disk

end Ext2

end Felix
