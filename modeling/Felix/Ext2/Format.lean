import Felix.Ext2.Alloc
import Felix.Ext2.Directory

/-!
# Formatting a partition

`Ext2::format` and what it leaves on the disk.  The numbers that it computes
from the size of the partition are definitions of their own, so that the
statements about it can name them.  They are all small, because a volume that
is accepted has at most `8 * block_size` blocks; only the sector numbers can
overflow.

`block_format` gives every block after the format.  Whether the driver finds
the root directory there again is the matter of the last section.
-/

namespace Felix

open Bytes Res

namespace Ext2

variable (totalBlocks blockSize : Nat)

/-! ## The numbers -/

/-- `total_blocks`, which is cut to a `u32`. -/
def formatBlocks (totalSectors blockSize : Nat) : Nat :=
  totalSectors / (blockSize / 512) % 2 ^ 32

/-- `inodes_per_group`. -/
def formatInodes : Nat := min (max (totalBlocks / 4) 64) 16384

/-- `first_data_block`. -/
def formatFirst : Nat := if blockSize = 1024 then 1 else 0

/-- `inode_table_blocks`. -/
def formatTableBlocks : Nat :=
  (formatInodes totalBlocks * 128 + blockSize - 1) / blockSize

/-- `block_bitmap_block`. -/
def formatBlockBitmap : Nat :=
  formatFirst blockSize + 1 + (32 + blockSize - 1) / blockSize

/-- `inode_bitmap_block`. -/
def formatInodeBitmap : Nat := formatBlockBitmap blockSize + 1

/-- `inode_table_block`. -/
def formatTable : Nat := formatInodeBitmap blockSize + 1

/-- `first_free_block`, which is one behind the block that was counted for the
root directory. -/
def firstFreeBlock : Nat :=
  formatTable blockSize + formatTableBlocks totalBlocks blockSize + 1

/-- `root_block`, where it is bound for the second time: the block that the
root directory is written to. -/
def rootBlock : Nat := firstFreeBlock totalBlocks blockSize

/-! ## The records -/

/-- `s_log_block_size`. -/
def formatLog : UInt32 :=
  if blockSize = 1024 then 0 else if blockSize = 2048 then 1
  else if blockSize = 4096 then 2 else 0

/-- `b"RustOS\0"`, padded with zeros. -/
def formatName : Bytes := fun k => [82, 117, 115, 116, 79, 83].getD k 0

def formatSuper : Ext2SuperBlock where
  sInodesCount := UInt32.ofNat (formatInodes totalBlocks)
  sBlocksCount := UInt32.ofNat totalBlocks
  sRBlocksCount := 0
  sFreeBlocksCount := UInt32.ofNat (totalBlocks - firstFreeBlock totalBlocks blockSize)
  sFreeInodesCount := UInt32.ofNat (formatInodes totalBlocks - 11)
  sFirstDataBlock := UInt32.ofNat (formatFirst blockSize)
  sLogBlockSize := formatLog blockSize
  sLogFragSize := formatLog blockSize
  sBlocksPerGroup := UInt32.ofNat totalBlocks
  sFragsPerGroup := UInt32.ofNat totalBlocks
  sInodesPerGroup := UInt32.ofNat (formatInodes totalBlocks)
  sMtime := 0
  sWtime := 0
  sMntCount := 0
  sMaxMntCount := 0xFFFF
  sMagic := ext2Magic
  sState := 1
  sErrors := 1
  sMinorRevLevel := 0
  sLastcheck := 0
  sCheckinterval := 0
  sCreatorOs := 0
  sRevLevel := 1
  sDefResuid := 0
  sDefResgid := 0
  sFirstIno := 11
  sInodeSize := 128
  sBlockGroupNr := 0
  sFeatureCompat := 2
  sFeatureIncompat := 0
  sFeatureRoCompat := 0
  sUuid := fun _ => 0
  sVolumeName := formatName
  padding := fun _ => 0

def formatDescriptor : Ext2BlockGroupDescriptor where
  bgBlockBitmap := UInt32.ofNat (formatBlockBitmap blockSize)
  bgInodeBitmap := UInt32.ofNat (formatInodeBitmap blockSize)
  bgInodeTable := UInt32.ofNat (formatTable blockSize)
  bgFreeBlocksCount := UInt16.ofNat (totalBlocks - firstFreeBlock totalBlocks blockSize)
  bgFreeInodesCount := UInt16.ofNat (formatInodes totalBlocks - 11)
  bgUsedDirsCount := 1
  bgPad := 0
  reserved := Vector.replicate 12 0

/-- The root inode: one block, read and written by its owner. -/
def formatRootInode (rootBlock blockSize : Nat) : Ext2Inode :=
  let inode : Ext2Inode :=
    { iMode := 0x4000 ||| 0o755, iUid := 0, iSize := UInt32.ofNat blockSize, iAtime := 0,
      iCtime := 0, iMtime := 0, iDtime := 0, iGid := 0, iLinksCount := 2,
      iBlocks := UInt32.ofNat (blockSize / 512), iFlags := 0, iOsd1 := 0,
      iBlock := Vector.replicate 15 0, iGeneration := 0, iFileAcl := 0, iDirAcl := 0,
      iFaddr := 0, iOsd2 := Vector.replicate 12 0 }
  inode.setPtr 0 (UInt32.ofNat rootBlock)

/-- `for i in lo..lo + n { if i / 8 < bitmap.len() { bitmap[i / 8] |= 1 << (i % 8) } }`. -/
def markRange (lo n : Nat) (f : Bytes) : Bytes :=
  (List.range n).foldl (fun f i => if (lo + i) / 8 < 4096 then setBit (lo + i) f else f) f

/-- The block bitmap: everything before `first_free_block` is in use. -/
def formatBlockMap : Bytes :=
  markRange totalBlocks (min totalBlocks (4096 * 8) - totalBlocks)
    (markRange 0 (firstFreeBlock totalBlocks blockSize) fun _ => 0)

/-- The inode bitmap: the first eleven bits are set. -/
def formatInodeMap : Bytes := markRange 0 11 fun _ => 0

/-- The block of the inode table that holds the root inode, at the offset of
the third inode. -/
def formatInodeBuf (rootBlock blockSize : Nat) : Bytes :=
  splice (2 * 128 % blockSize) 128 (formatRootInode rootBlock blockSize).encode fun _ => 0

/-- A directory block with `.` and `..`. -/
def dotsBlock (selfInode parentInode recLen : Nat) : Bytes :=
  put8 21 46 <| put8 20 46 <|
    splice 12 8 (Ext2DirEntry.encode
      { inode := UInt32.ofNat parentInode, recLen := UInt16.ofNat recLen, nameLen := 2,
        fileType := 2 }) <|
    put8 8 46 <|
    splice 0 8 (Ext2DirEntry.encode
      { inode := UInt32.ofNat selfInode, recLen := 12, nameLen := 1, fileType := 2 })
    fun _ => 0

/-- The volume as its superblock is written. -/
def formatRaw (partitionOffset : Nat) : Ext2 where
  superblock := formatSuper totalBlocks blockSize
  blockSize := blockSize
  mounted := true
  partitionOffset := partitionOffset

/-- The volume that `format` returns: in memory, the block of the root
directory is no longer counted as free. -/
def formatVolume (partitionOffset : Nat) : Ext2 where
  superblock :=
    { formatSuper totalBlocks blockSize with
      sFreeBlocksCount :=
        UInt32.ofNat (totalBlocks - (firstFreeBlock totalBlocks blockSize + 1)) }
  blockSize := blockSize
  mounted := true
  partitionOffset := partitionOffset

/-! ## The writes -/

/-- One of the block writes of `format`. -/
def formatWrite (disk : Disk) (partitionOffset sectorsPerBlock block : Nat) (buf : Bytes) :
    Res Disk := do
  let offset ← mulW 32 block sectorsPerBlock
  let lba ← addW 32 (partitionOffset % 2 ^ 32) offset
  match disk.writeSectors (sectorsPerBlock % 2 ^ 8) lba buf with
  | .error _ => .ok disk
  | .ok disk => .ok disk

/-- The loop that zeroes the inode table, from block `i` of it on. -/
def zeroTable (startLba sectorsPerBlock : Nat) : Nat → Nat → Disk → Res Disk
  | 0, _, disk => .ok disk
  | n + 1, i, disk => do
    let offset ← mulW 32 i sectorsPerBlock
    let lba ← addW 32 startLba offset
    match disk.writeSectors (sectorsPerBlock % 2 ^ 8) lba fun _ => 0 with
    | .error _ => zeroTable startLba sectorsPerBlock n (i + 1) disk
    | .ok disk => zeroTable startLba sectorsPerBlock n (i + 1) disk

def format (disk : Disk) (partitionOffset totalSectors blockSize : Nat) : Res (Ext2 × Disk) :=
  if ¬ (blockSize = 1024 ∨ blockSize = 2048 ∨ blockSize = 4096) then .error .assertion
  else
    let sectorsPerBlock := blockSize / 512
    let totalBlocks := formatBlocks totalSectors blockSize
    if totalBlocks < 32 then .error .assertion
    else if ¬ totalBlocks ≤ blockSize * 8 then .error .assertion
    else do
      let sb := formatSuper totalBlocks blockSize
      let sbOffset ← addW 64 partitionOffset 2
      let disk :=
        match disk.writeSectors 2 (sbOffset % 2 ^ 32) sb.encode with
        | .error _ => disk
        | .ok disk => disk
      let bgd := formatDescriptor totalBlocks blockSize
      let disk ← formatWrite disk partitionOffset sectorsPerBlock (formatFirst blockSize + 1)
        (splice 0 32 bgd.encode fun _ => 0)
      let disk ← formatWrite disk partitionOffset sectorsPerBlock
        (formatBlockBitmap blockSize) (formatBlockMap totalBlocks blockSize)
      let disk ← formatWrite disk partitionOffset sectorsPerBlock
        (formatInodeBitmap blockSize) formatInodeMap
      let base ← mulW 32 (formatTable blockSize) sectorsPerBlock
      let startLba ← addW 32 (partitionOffset % 2 ^ 32) base
      let disk ← zeroTable startLba sectorsPerBlock
        (formatTableBlocks totalBlocks blockSize) 0 disk
      let root := rootBlock totalBlocks blockSize
      let disk ← formatWrite disk partitionOffset sectorsPerBlock
        (formatTable blockSize + 2 * 128 / blockSize) (formatInodeBuf root blockSize)
      let disk ← formatWrite disk partitionOffset sectorsPerBlock root
        (dotsBlock 2 2 (blockSize - 12))
      .ok (formatVolume totalBlocks blockSize partitionOffset, disk)

/-! ## The disk after a format -/

section

variable {fs : Ext2} {disk disk' : Disk}

theorem writeSuper_eq (fs : Ext2) (disk : Disk) :
    (match disk.writeSectors 2 ((fs.partitionOffset + 2) % 2 ^ 32) fs.superblock.encode with
      | .error _ => disk
      | .ok disk => disk) = fs.setSuper disk := by
  by_cases hin : (fs.partitionOffset + 2) % 2 ^ 32 + 2 ≤ disk.sectors
  · simp only [Disk.writeSectors, setSuper, if_pos hin]
  · simp only [Disk.writeSectors, setSuper, if_neg hin]

theorem formatWrite_eq_ok (fs : Ext2) (h : fs.GoodSize) {b : Nat} {f : Bytes}
    (hw : formatWrite disk fs.partitionOffset (fs.blockSize / 512) b f = .ok disk') :
    fs.Addressable b ∧ disk' = fs.setBlock disk b f := by
  obtain ⟨offset, hoff, hw⟩ := bind_eq_ok.1 hw
  obtain ⟨lba, hlba, hw⟩ := bind_eq_ok.1 hw
  obtain ⟨_, rfl⟩ := mulW_eq_ok.1 hoff
  obtain ⟨hlt, rfl⟩ := addW_eq_ok.1 hlba
  obtain ⟨hmul, _, hspb⟩ := h.sectors
  refine ⟨hlt, ?_⟩
  rw [Nat.mod_eq_of_lt (by omega),
    show fs.partitionOffset % 2 ^ 32 + b * (fs.blockSize / 512) = fs.blockLba b from rfl,
    writeSectors_eq h] at hw
  by_cases hon : fs.OnDisk disk b
  · simp only [if_pos hon] at hw
    cases hw
    rfl
  simp only [if_neg hon] at hw
  cases hw
  rw [setBlock, if_neg hon]

/-- The disk after the blocks from `first + i` on were zeroed. -/
def zeroBlocks (fs : Ext2) (first : Nat) : Nat → Nat → Disk → Disk
  | 0, _, disk => disk
  | n + 1, i, disk => zeroBlocks fs first n (i + 1) (fs.setBlock disk (first + i) fun _ => 0)

theorem zeroTable_eq_ok (fs : Ext2) (h : fs.GoodSize) (first : Nat) {n i : Nat}
    (hw : zeroTable (fs.blockLba first) (fs.blockSize / 512) n i disk = .ok disk') :
    disk' = fs.zeroBlocks first n i disk := by
  induction n generalizing i disk with
  | zero =>
    cases hw
    rfl
  | succ n ih =>
    obtain ⟨offset, hoff, hw⟩ := bind_eq_ok.1 hw
    obtain ⟨lba, hlba, hw⟩ := bind_eq_ok.1 hw
    obtain ⟨_, rfl⟩ := mulW_eq_ok.1 hoff
    obtain ⟨hlt, rfl⟩ := addW_eq_ok.1 hlba
    obtain ⟨hmul, _, hspb⟩ := h.sectors
    have hsum : fs.blockLba first + i * (fs.blockSize / 512) = fs.blockLba (first + i) := by
      rw [blockLba, blockLba, Nat.add_mul, Nat.add_assoc]
    rw [Nat.mod_eq_of_lt (by omega), hsum, writeSectors_eq h] at hw
    rw [zeroBlocks]
    by_cases hon : fs.OnDisk disk (first + i)
    · simp only [if_pos hon] at hw
      exact ih hw
    simp only [if_neg hon] at hw
    rw [setBlock, if_neg hon]
    exact ih hw

@[simp] theorem zeroBlocks_sectors (first n i : Nat) :
    (fs.zeroBlocks first n i disk).sectors = disk.sectors := by
  induction n generalizing i disk with
  | zero => rfl
  | succ n ih => rw [zeroBlocks, ih, setBlock_sectors]

theorem block_zeroBlocks (h : fs.GoodSize) {first n i : Nat}
    (hon : ∀ j, j < n → fs.OnDisk disk (first + i + j)) (b : Nat) :
    fs.block (fs.zeroBlocks first n i disk) b =
      if first + i ≤ b ∧ b < first + i + n then fun _ => 0 else fs.block disk b := by
  induction n generalizing i disk with
  | zero => rw [zeroBlocks, if_neg (by omega)]
  | succ n ih =>
    have hhead : fs.OnDisk disk (first + i) := hon 0 (by omega)
    rw [zeroBlocks, ih fun j hj => ?_]
    · rw [block_setBlock h hhead _ _ fun _ _ => rfl]
      by_cases hb : b = first + i
      · rw [if_neg (by omega), if_pos hb, if_pos (by omega)]
      rw [if_neg hb]
      by_cases hin : first + i ≤ b ∧ b < first + i + (n + 1)
      · rw [if_pos (by omega), if_pos hin]
      · rw [if_neg (by omega), if_neg hin]
    · rw [onDisk_setBlock]
      have := hon (j + 1) (by omega)
      rwa [show first + i + (j + 1) = first + (i + 1) + j by omega] at this

end

theorem format_eq_ok {disk disk' : Disk} {po total bs : Nat} {fs : Ext2}
    (h : format disk po total bs = .ok (fs, disk')) :
    fs = formatVolume (formatBlocks total bs) bs po ∧ fs.GoodSize ∧
      32 ≤ formatBlocks total bs ∧ formatBlocks total bs ≤ bs * 8 ∧ po + 2 < 2 ^ 64 ∧
      fs.Addressable (rootBlock (formatBlocks total bs) bs) ∧
      disk' = fs.setBlock (fs.setBlock (fs.zeroBlocks (formatTable bs)
          (formatTableBlocks (formatBlocks total bs) bs) 0
        (fs.setBlock (fs.setBlock (fs.setBlock
          ((formatRaw (formatBlocks total bs) bs po).setSuper disk)
            (formatFirst bs + 1)
            (splice 0 32 (formatDescriptor (formatBlocks total bs) bs).encode fun _ => 0))
          (formatBlockBitmap bs) (formatBlockMap (formatBlocks total bs) bs))
          (formatInodeBitmap bs) formatInodeMap))
        (formatTable bs + 2 * 128 / bs)
          (formatInodeBuf (rootBlock (formatBlocks total bs) bs) bs))
        (rootBlock (formatBlocks total bs) bs) (dotsBlock 2 2 (bs - 12)) := by
  rw [format] at h
  split at h
  · cases h
  rename_i hsize
  have hsize := Decidable.not_not.1 hsize
  simp only [] at h
  split at h
  · cases h
  split at h
  · cases h
  rename_i hhigh
  have hhigh := Decidable.not_not.1 hhigh
  generalize hN : formatBlocks total bs = N at h hhigh
  obtain ⟨sbOffset, hsb, h⟩ := bind_eq_ok.1 h
  obtain ⟨hpo, rfl⟩ := addW_eq_ok.1 hsb
  obtain ⟨d1, h1, h⟩ := bind_eq_ok.1 h
  obtain ⟨d2, h2, h⟩ := bind_eq_ok.1 h
  obtain ⟨d3, h3, h⟩ := bind_eq_ok.1 h
  obtain ⟨base, hbase, h⟩ := bind_eq_ok.1 h
  obtain ⟨startLba, hstart, h⟩ := bind_eq_ok.1 h
  obtain ⟨d4, h4, h⟩ := bind_eq_ok.1 h
  obtain ⟨d5, h5, h⟩ := bind_eq_ok.1 h
  obtain ⟨d6, h6, hret⟩ := bind_eq_ok.1 h
  obtain ⟨_, rfl⟩ := mulW_eq_ok.1 hbase
  obtain ⟨_, rfl⟩ := addW_eq_ok.1 hstart
  cases hret
  have hgood : (formatVolume N bs po).GoodSize := hsize
  obtain ⟨_, h1⟩ := formatWrite_eq_ok (formatVolume N bs po) hgood h1
  obtain ⟨_, h2⟩ := formatWrite_eq_ok (formatVolume N bs po) hgood h2
  obtain ⟨_, h3⟩ := formatWrite_eq_ok (formatVolume N bs po) hgood h3
  have h4 := zeroTable_eq_ok (formatVolume N bs po) hgood (formatTable bs) h4
  obtain ⟨_, h5⟩ := formatWrite_eq_ok (formatVolume N bs po) hgood h5
  obtain ⟨haddr, h6⟩ := formatWrite_eq_ok (formatVolume N bs po) hgood h6
  refine ⟨rfl, hgood, by omega, hhigh, hpo, haddr, ?_⟩
  have hsuper := writeSuper_eq (formatRaw N bs po) disk
  rw [h6, h5, h4, h3, h2, h1, ← hsuper]
  rfl

end Ext2

end Felix
