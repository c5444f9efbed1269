import Felix.Ext2.Alloc

/-!
# Group 0 under the ext2 layout

The layout of an ext2 volume, stated without the driver.  The descriptor
table starts at block `s_first_data_block + 1`, bit `i` of the inode bitmap
of group 0 describes inode `i + 1`, and bit `i` of its block bitmap describes
block `s_first_data_block + i`.  `GroupZero` says that the metadata of group
0 lies inside the volume and that its parts do not overlap;
`BlockBitmapOk` adds that the block bitmap marks what is in use.

The driver finds the descriptor of group 0 only when `s_first_data_block` is
zero, which is `GroupZero.seen_of_large`.  With blocks of 1024 bytes it reads
the superblock in its place, which is `GroupZero.seen_of_1024`.
-/

namespace Felix

open Bytes

namespace Ext2

variable (fs : Ext2) (disk : Disk) {bs : Nat}

/-- The descriptor of group 0, where the layout puts it. -/
def layoutDescriptor : Ext2BlockGroupDescriptor :=
  Packed.decode (fs.block disk (fs.superblock.sFirstDataBlock.toNat + 1))

def blockBitmapBlock : Nat :=
  (fs.layoutDescriptor disk).bgBlockBitmap.toNat

def inodeBitmapBlock : Nat :=
  (fs.layoutDescriptor disk).bgInodeBitmap.toNat

def inodeTableBlock : Nat :=
  (fs.layoutDescriptor disk).bgInodeTable.toNat

/-- The inode bitmap of group 0. -/
def inodeBitmap : Bytes :=
  fs.block disk (fs.inodeBitmapBlock disk)

/-- The block bitmap of group 0. -/
def blockBitmap : Bytes :=
  fs.block disk (fs.blockBitmapBlock disk)

/-- The number of block groups. -/
def groupCount : Nat :=
  (fs.superblock.sBlocksCount.toNat - fs.superblock.sFirstDataBlock.toNat
    + fs.superblock.sBlocksPerGroup.toNat - 1) / fs.superblock.sBlocksPerGroup.toNat

/-- The number of blocks of the descriptor table. -/
def descriptorBlocks : Nat :=
  (fs.groupCount * 32 + fs.blockSize - 1) / fs.blockSize

/-- The first block behind the descriptor table. -/
def descriptorTableEnd : Nat :=
  fs.superblock.sFirstDataBlock.toNat + 1 + fs.descriptorBlocks

/-- The blocks of group 0 that hold no file data: the superblock, the
descriptor table, the two bitmaps and the inode table. -/
def IsMetadata (b : Nat) : Prop :=
  b = fs.superblock.sFirstDataBlock.toNat ∨
    (fs.superblock.sFirstDataBlock.toNat + 1 ≤ b ∧ b < fs.descriptorTableEnd) ∨
    b = fs.blockBitmapBlock disk ∨ b = fs.inodeBitmapBlock disk ∨
    (fs.inodeTableBlock disk ≤ b ∧
      b < fs.inodeTableBlock disk + fs.inodeTableSizeInBlocks)
  deriving Decidable

/-- Group 0 is well formed under the ext2 layout, on a mounted volume that
lies on its disk. -/
structure GroupZero (fs : Ext2) (disk : Disk) : Prop where
  mounted : fs.mounted = true
  size : fs.GoodSize
  firstData : fs.superblock.sFirstDataBlock.toNat = if fs.blockSize = 1024 then 1 else 0
  fits : fs.partitionOffset + fs.superblock.sBlocksCount.toNat * (fs.blockSize / 512)
    ≤ disk.sectors
  lba : disk.sectors ≤ 2 ^ 32
  superblock : fs.SuperblockOnDisk disk
  inodeSize : 128 ≤ fs.superblock.sInodeSize.toNat ∧
    fs.superblock.sInodeSize.toNat ∣ fs.blockSize
  inodes : 0 < fs.superblock.sInodesPerGroup.toNat ∧
    fs.superblock.sInodesPerGroup.toNat ≤ 8 * fs.blockSize
  blocks : 0 < fs.superblock.sBlocksPerGroup.toNat ∧
    fs.superblock.sBlocksPerGroup.toNat ≤ 8 * fs.blockSize
  reserved : fs.superblock.sRBlocksCount.toNat ≤ fs.superblock.sBlocksCount.toNat
  freeBlocks : fs.superblock.sFreeBlocksCount.toNat ≤ fs.superblock.sBlocksCount.toNat
  blockBitmap : fs.descriptorTableEnd ≤ fs.blockBitmapBlock disk ∧
    fs.blockBitmapBlock disk < fs.superblock.sBlocksCount.toNat
  inodeBitmap : fs.descriptorTableEnd ≤ fs.inodeBitmapBlock disk ∧
    fs.inodeBitmapBlock disk < fs.superblock.sBlocksCount.toNat
  bitmapsApart : fs.inodeBitmapBlock disk ≠ fs.blockBitmapBlock disk
  inodeTable : fs.descriptorTableEnd ≤ fs.inodeTableBlock disk ∧
    fs.inodeTableBlock disk + fs.inodeTableSizeInBlocks
      ≤ fs.superblock.sBlocksCount.toNat
  tableApart : ∀ b, fs.inodeTableBlock disk ≤ b →
    b < fs.inodeTableBlock disk + fs.inodeTableSizeInBlocks →
    b ≠ fs.blockBitmapBlock disk ∧ b ≠ fs.inodeBitmapBlock disk

/-- The block bitmap of group 0 marks the metadata and the blocks behind the
end of the volume. -/
structure BlockBitmapOk (fs : Ext2) (disk : Disk) : Prop where
  metadata : ∀ b, fs.IsMetadata disk b →
    b < fs.superblock.sFirstDataBlock.toNat + fs.superblock.sBlocksPerGroup.toNat →
    bit (fs.blockBitmap disk) (b - fs.superblock.sFirstDataBlock.toNat) = true
  pastEnd : ∀ i, i < fs.superblock.sBlocksPerGroup.toNat →
    fs.superblock.sBlocksCount.toNat ≤ fs.superblock.sFirstDataBlock.toNat + i →
    bit (fs.blockBitmap disk) i = true

namespace GroupZero

variable {fs : Ext2} {disk : Disk}

section

variable (h : GroupZero fs disk)
include h

theorem blocksCount_gt :
    fs.superblock.sFirstDataBlock.toNat + 1 < fs.superblock.sBlocksCount.toNat := by
  have hib := h.inodeBitmap
  rw [descriptorTableEnd] at hib
  omega

theorem descriptorTableEnd_gt :
    fs.superblock.sFirstDataBlock.toNat + 1 < fs.descriptorTableEnd := by
  have hcount := h.blocksCount_gt
  have hbpg := h.blocks.1
  have hsize := h.size.bounds
  have hgroups : 0 < fs.groupCount := Nat.div_pos (by omega) hbpg
  have hblocks : 0 < fs.descriptorBlocks := Nat.div_pos (by omega) (by omega)
  rw [descriptorTableEnd]
  omega

theorem offset_lt :
    fs.partitionOffset + 2 < 2 ^ 32 ∧ fs.partitionOffset % 2 ^ 32 = fs.partitionOffset := by
  have hfits := h.fits
  have hlba := h.lba
  have hcount := h.blocksCount_gt
  obtain ⟨_, hspb, _⟩ := h.size.sectors
  have hmul : 2 * 2 ≤ fs.superblock.sBlocksCount.toNat * (fs.blockSize / 512) :=
    Nat.mul_le_mul (by omega) hspb
  omega

/-- The blocks of the volume are on the disk and have sector numbers. -/
theorem onDisk {b : Nat} (hb : b < fs.superblock.sBlocksCount.toNat) :
    fs.OnDisk disk b ∧ fs.Addressable b := by
  have hfits := h.fits
  have hlba := h.lba
  obtain ⟨_, hspb, _⟩ := h.size.sectors
  have hmul := Nat.mul_le_mul_right (fs.blockSize / 512) (Nat.succ_le_of_lt hb)
  rw [Nat.succ_mul] at hmul
  rw [OnDisk, Addressable, blockLba]
  omega

theorem inodeOffset_le (n : Nat) : fs.inodeOffsetIn n + 128 ≤ fs.blockSize :=
  slot_le h.size h.inodeSize _

/-! ## What the driver sees -/

theorem table_large (hsize : fs.blockSize ≠ 1024) :
    fs.superblock.sFirstDataBlock.toNat = 0 ∧ fs.bgdTableBlock = 1 := by
  have hfd := h.firstData
  rw [if_neg hsize] at hfd
  refine ⟨hfd, ?_⟩
  rw [bgdTableBlock, if_pos (UInt32.toNat_inj.1 hfd)]

theorem table_1024 (hsize : fs.blockSize = 1024) :
    fs.superblock.sFirstDataBlock.toNat = 1 ∧ fs.bgdTableBlock = 1 := by
  have hfd := h.firstData
  rw [if_pos hsize] at hfd
  refine ⟨hfd, ?_⟩
  rw [bgdTableBlock, if_neg, hfd]
  intro hzero
  rw [hzero] at hfd
  cases hfd

theorem mountable : fs.Mountable := by
  have hpo := h.offset_lt.1
  have hcount := h.blocksCount_gt
  refine ⟨h.mounted, h.size, by omega, ?_⟩
  by_cases hsize : fs.blockSize = 1024
  · rw [(h.table_1024 hsize).2]
    exact (h.onDisk (by omega)).2
  · rw [(h.table_large hsize).2]
    exact (h.onDisk (by omega)).2

/-- With larger blocks the driver reads the descriptor of group 0. -/
theorem seen_of_large (hsize : fs.blockSize ≠ 1024) :
    fs.seenDescriptor disk = fs.layoutDescriptor disk := by
  obtain ⟨hfd, htab⟩ := h.table_large hsize
  rw [seenDescriptor, layoutDescriptor, htab, hfd]

section

variable (hsize : fs.blockSize = 1024) {disk' : Disk}
include hsize

theorem block_one_1024 : ∀ k, k < 1024 → fs.block disk 1 k = fs.superblock.encode k := by
  intro k hk
  have hcount := h.blocksCount_gt
  have hon := (h.onDisk (b := 1) (by omega)).1
  obtain ⟨_, hpo⟩ := h.offset_lt
  rw [block, if_pos ⟨hon, by omega⟩, blockLba, hpo, hsize, ← h.superblock k hk]

/-- With blocks of 1024 bytes the driver takes the superblock for the
descriptor: the bitmaps and the table are counters.  Every disk with the
superblock in block 1 looks like that. -/
theorem seen_of_super (hone : ∀ k, k < 1024 → fs.block disk' 1 k = fs.superblock.encode k) :
    fs.seenBlockBitmap disk' = fs.superblock.sInodesCount.toNat ∧
      fs.seenInodeBitmap disk' = fs.superblock.sBlocksCount.toNat ∧
      fs.seenInodeTable disk' = fs.superblock.sRBlocksCount.toNat ∧
      (fs.seenDescriptor disk').bgFreeBlocksCount.toNat
        = fs.superblock.sFreeBlocksCount.toNat % 2 ^ 16 ∧
      (fs.seenDescriptor disk').bgFreeInodesCount.toNat + 1 < 2 ^ 16 := by
  have hseen : fs.seenDescriptor disk'
      = Ext2BlockGroupDescriptor.decode (fs.block disk' 1) := by
    rw [seenDescriptor, (h.table_1024 hsize).2]
    rfl
  obtain ⟨hbb, hib, hit, hfb, hfi⟩ := decode_superblock hone
  rw [seenBlockBitmap, seenInodeBitmap, seenInodeTable, hseen, hbb, hib, hit, hfb]
  refine ⟨rfl, rfl, rfl, rfl, ?_⟩
  -- a volume with blocks of two sectors has at most `2 ^ 31` of them
  have hfits := h.fits
  have hlba := h.lba
  have hfree := h.freeBlocks
  rw [hsize] at hfits
  omega

theorem seen_of_1024 : fs.seenBlockBitmap disk = fs.superblock.sInodesCount.toNat ∧
      fs.seenInodeBitmap disk = fs.superblock.sBlocksCount.toNat ∧
      fs.seenInodeTable disk = fs.superblock.sRBlocksCount.toNat := by
  obtain ⟨hbb, hib, hit, _⟩ := h.seen_of_super hsize (h.block_one_1024 hsize)
  exact ⟨hbb, hib, hit⟩

theorem block_one_commit (hsec : disk'.sectors = disk.sectors) (bm : Nat) (f : Bytes)
    (bgd : Ext2BlockGroupDescriptor) :
    ∀ k, k < 1024 → fs.block (fs.commit disk' bm f bgd) 1 k = fs.superblock.encode k := by
  intro k hk
  have hcount := h.blocksCount_gt
  have hon : fs.OnDisk disk' 1 := (onDisk_congr hsec 1).2 (h.onDisk (by omega)).1
  rw [block_commit_super h.mountable hsize (h.table_1024 hsize).2 f bgd hon, if_pos hk]

end

/-- The inodes of group 0 lie in its inode table. -/
theorem inodeBlockIn_lt (table : Nat) {n : Nat} (hn : 1 ≤ n)
    (hn' : n ≤ fs.superblock.sInodesPerGroup.toNat) :
    fs.inodeBlockIn table n < table + fs.inodeTableSizeInBlocks :=
  Nat.add_lt_add_left (slot_lt_table h.size h.inodeSize.1 (by omega)) _

end

end GroupZero

/-- A clear bit of the block bitmap is a block of the volume and no metadata. -/
theorem BlockBitmapOk.free {fs : Ext2} {disk : Disk} (hok : BlockBitmapOk fs disk) {b : Nat}
    (hfd : fs.superblock.sFirstDataBlock.toNat ≤ b)
    (hb : b < fs.superblock.sFirstDataBlock.toNat + fs.superblock.sBlocksPerGroup.toNat)
    (hclear : bit (fs.blockBitmap disk) (b - fs.superblock.sFirstDataBlock.toNat) = false) :
    b < fs.superblock.sBlocksCount.toNat ∧ ¬ fs.IsMetadata disk b := by
  refine ⟨?_, fun hmeta => ?_⟩
  · by_contra hge
    have hset := hok.pastEnd (b - fs.superblock.sFirstDataBlock.toNat) (by omega) (by omega)
    rw [hclear] at hset
    cases hset
  · have hset := hok.metadata b hmeta hb
    rw [hclear] at hset
    cases hset

/-! ## A small volume

64 blocks of either kind: behind the superblock come the descriptor table, the
two bitmaps and a table of 16 inodes.  Inodes 1 to 12 are in use. -/

/-- The first data block that goes with a block size. -/
def smallFirst (bs : Nat) : Nat := if bs = 1024 then 1 else 0

def smallSuper (bs : Nat) : Ext2SuperBlock :=
  { Ext2SuperBlock.decode fun _ => 0 with
    sInodesCount := 16
    sBlocksCount := UInt32.ofNat (smallFirst bs + 64)
    sFreeBlocksCount := 57
    sFreeInodesCount := 4
    sFirstDataBlock := UInt32.ofNat (smallFirst bs)
    sLogBlockSize := UInt32.ofNat (bs / 2048)
    sBlocksPerGroup := 64
    sInodesPerGroup := 16
    sMagic := ext2Magic
    sInodeSize := 128 }

def smallDescriptor (bs : Nat) : Ext2BlockGroupDescriptor :=
  { Ext2BlockGroupDescriptor.decode fun _ => 0 with
    bgBlockBitmap := UInt32.ofNat (smallFirst bs + 2)
    bgInodeBitmap := UInt32.ofNat (smallFirst bs + 3)
    bgInodeTable := UInt32.ofNat (smallFirst bs + 4)
    bgFreeBlocksCount := 57
    bgFreeInodesCount := 4 }

def smallVolume (bs : Nat) : Ext2 where
  superblock := smallSuper bs
  blockSize := bs
  mounted := true
  partitionOffset := 0

/-- The small volume with blocks of 2048 bytes. -/
abbrev smallFs : Ext2 := smallVolume 2048

def smallDisk (bs : Nat) : Disk where
  sectors := (smallFirst bs + 64) * (bs / 512)
  data := splice 1024 1024 (smallSuper bs).encode <|
    splice ((smallFirst bs + 1) * bs) 32 (smallDescriptor bs).encode <|
    put8 ((smallFirst bs + 2) * bs) 0x7F <| put8 ((smallFirst bs + 3) * bs) 0xFF <|
    put8 ((smallFirst bs + 3) * bs + 1) 0x0F <| fun _ => 0

theorem smallVolume_superblockOnDisk (bs : Nat) :
    (smallVolume bs).SuperblockOnDisk (smallDisk bs) := by
  intro k hk
  simp only [smallVolume, smallDisk]
  rw [splice_apply_in (by omega) (by omega), Nat.add_sub_cancel_left]

theorem smallVolume_groupZero (hbs : bs = 1024 ∨ bs = 2048) :
    GroupZero (smallVolume bs) (smallDisk bs) := by
  have hsuper := smallVolume_superblockOnDisk bs
  rcases hbs with rfl | rfl
  · refine ⟨rfl, .inl rfl, ?_, ?_, ?_, hsuper, ?_, ?_, ?_, ?_, ?_, ?_, ?_, ?_, ?_, ?_⟩
    all_goals decide +kernel
  · refine ⟨rfl, .inr (.inl rfl), ?_, ?_, ?_, hsuper, ?_, ?_, ?_, ?_, ?_, ?_, ?_, ?_, ?_, ?_⟩
    all_goals decide +kernel

theorem smallVolume_blockBitmapOk (hbs : bs = 1024 ∨ bs = 2048) :
    BlockBitmapOk (smallVolume bs) (smallDisk bs) := by
  have hmeta : ∀ b, b < (smallVolume bs).superblock.sFirstDataBlock.toNat
        + (smallVolume bs).superblock.sBlocksPerGroup.toNat →
      (smallVolume bs).IsMetadata (smallDisk bs) b → bit ((smallVolume bs).blockBitmap
        (smallDisk bs)) (b - (smallVolume bs).superblock.sFirstDataBlock.toNat) = true := by
    rcases hbs with rfl | rfl <;> decide +kernel
  refine ⟨fun b hb hlt => hmeta b hlt hb, ?_⟩
  rcases hbs with rfl | rfl <;> decide +kernel

end Ext2

end Felix
