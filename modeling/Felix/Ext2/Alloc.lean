import Felix.Ext2.Store

/-!
# What the four bitmap operations write

`alloc_inode`, `free_inode`, `alloc_block` and `free_block` end with the
same three writes: the bitmap block, the descriptor of group 0 and the
superblock.  `commit` is the disk after them.  The theorems of this module
say what each operation returns and which `commit` it performs, for any
contents of the disk; they do not assume that the descriptor the driver
reads is the one of the volume.

`block_commit_ne` and the frame lemmas below it then give the blocks after a
commit: first for volumes whose superblock lies in block 0, then for volumes
with blocks of 1024 bytes, where the driver takes the superblock for the
descriptor table.
-/

namespace Felix

open Bytes Res

namespace Ext2

variable {fs : Ext2} {disk : Disk}

/-- The disk after the writes of bitmap block `bm`, of the descriptor and of
the superblock. -/
def commit (fs : Ext2) (disk : Disk) (bm : Nat) (f : Bytes)
    (bgd : Ext2BlockGroupDescriptor) : Disk :=
  let disk := fs.setBlock disk bm f
  fs.setSuper (fs.setBlock disk fs.bgdTableBlock
    (splice 0 32 bgd.encode (fs.block disk fs.bgdTableBlock)))

/-- What all operations on group 0 need of the volume: the buffers hold a
block, and the descriptor table and the superblock have sector numbers. -/
structure Mountable (fs : Ext2) : Prop where
  mounted : fs.mounted = true
  size : fs.GoodSize
  offset : fs.partitionOffset + 2 < 2 ^ 64
  table : fs.Addressable fs.bgdTableBlock

/-- The bitmap block that the driver uses for inodes. -/
def seenInodeBitmap (fs : Ext2) (disk : Disk) : Nat :=
  (fs.seenDescriptor disk).bgInodeBitmap.toNat

/-- The bitmap block that the driver uses for blocks. -/
def seenBlockBitmap (fs : Ext2) (disk : Disk) : Nat :=
  (fs.seenDescriptor disk).bgBlockBitmap.toNat

/-- The inode table that the driver uses. -/
def seenInodeTable (fs : Ext2) (disk : Disk) : Nat :=
  (fs.seenDescriptor disk).bgInodeTable.toNat

/-- Where the search of `alloc_block` starts. -/
def searchStart (fs : Ext2) (disk : Disk) : Nat :=
  (fs.seenInodeTable disk + fs.inodeTableSizeInBlocks) % 2 ^ 32

theorem seenInodeBitmap_fold :
    (fs.seenDescriptor disk).bgInodeBitmap.toNat = fs.seenInodeBitmap disk := rfl

theorem seenBlockBitmap_fold :
    (fs.seenDescriptor disk).bgBlockBitmap.toNat = fs.seenBlockBitmap disk := rfl

theorem seenInodeTable_fold :
    (fs.seenDescriptor disk).bgInodeTable.toNat = fs.seenInodeTable disk := rfl

variable {b n k i : Nat} (count : UInt16) {f : Bytes}

theorem readBitmap_eq (h : fs.GoodSize) (ha : fs.Addressable b) :
    fs.readBitmap disk b = .ok ⟨4096, fs.block disk b⟩ :=
  readBlocks_zeroed h.power ha h.bounds.2

theorem readBitmap_fault (h : fs.GoodSize) (ha : ¬ fs.Addressable b) :
    fs.readBitmap disk b = .error .overflow :=
  readBlocks_fault h.power ha _

/-- The search loop over a bitmap block, from `lo` to `hi`. -/
theorem findClear_block (fs : Ext2) (disk : Disk) (b lo : Nat) {hi : Nat} (hhi : hi ≤ 8 * 4096) :
    ((⟨4096, fs.block disk b⟩ : Buf).findClear (hi - lo) lo = .ok none ∧
      ∀ i, lo ≤ i → i < hi → bit (fs.block disk b) i = true) ∨
    ∃ i, FirstClear (fs.block disk b) lo hi i ∧
      (⟨4096, fs.block disk b⟩ : Buf).findClear (hi - lo) lo = .ok (some i) := by
  rcases Nat.lt_or_ge hi lo with hlt | hle
  · left
    rw [Nat.sub_eq_zero_of_le (Nat.le_of_lt hlt)]
    refine ⟨rfl, ?_⟩
    intro i hi hi'
    omega
  have hsum : lo + (hi - lo) = hi := by omega
  rcases Buf.findClear_spec ⟨4096, fs.block disk b⟩ (hi - lo) lo (by rw [hsum]; exact hhi)
    with ⟨i, hfind, hfirst⟩ | ⟨hfind, hall⟩
  · rw [hsum] at hfirst
    exact .inr ⟨i, hfirst, hfind⟩
  · rw [hsum] at hall
    exact .inl ⟨hfind, hall⟩

/-! ## Inodes -/

theorem decrement_toNat : (decrement count).toNat = count.toNat - 1 := by
  have hlt := count.toNat_lt
  rw [decrement]
  split
  · rw [UInt16.toNat_ofNat']
    omega
  · omega

/-- One less, and then one more, is in range. -/
theorem decrement_lt : (decrement count).toNat + 1 < 2 ^ 16 := by
  have hlt := count.toNat_lt
  rw [decrement_toNat]
  omega

/-- The descriptor that `alloc_inode` writes. -/
def takenInode (bgd : Ext2BlockGroupDescriptor) : Ext2BlockGroupDescriptor :=
  { bgd with bgFreeInodesCount := decrement bgd.bgFreeInodesCount }

/-- The descriptor that `free_inode` writes. -/
def givenInode (bgd : Ext2BlockGroupDescriptor) : Ext2BlockGroupDescriptor :=
  { bgd with bgFreeInodesCount := UInt16.ofNat (bgd.bgFreeInodesCount.toNat + 1) }

/-- The first clear bit of a range is taken, if there is one. -/
def TakesFirst (f : Bytes) (lo hi : Nat) (disk : Disk) (alloc : Res (Option Nat × Disk))
    (next : Nat → Disk) : Prop :=
  (alloc = .ok (none, disk) ∧ ∀ i, lo ≤ i → i < hi → bit f i = true) ∨
    ∃ i, FirstClear f lo hi i ∧ alloc = .ok (some i, next i)

theorem allocInode_cases (h : fs.Mountable) (disk : Disk)
    (ha : fs.Addressable (fs.seenInodeBitmap disk))
    (hipg : fs.superblock.sInodesPerGroup.toNat ≤ 8 * 4096) :
    TakesFirst (fs.block disk (fs.seenInodeBitmap disk)) 12
      fs.superblock.sInodesPerGroup.toNat disk (fs.allocInode disk) fun i =>
        fs.commit disk (fs.seenInodeBitmap disk)
          (setBit i (fs.block disk (fs.seenInodeBitmap disk)))
          (takenInode (fs.seenDescriptor disk)) := by
  rw [allocInode, if_neg (by simp [h.mounted])]
  simp only [getBgDescriptor_zero h.size h.mounted h.table, ok_bind,
    seenInodeBitmap_fold, readBitmap_eq h.size ha]
  rcases findClear_block fs disk (fs.seenInodeBitmap disk) 12 hipg with
    ⟨hfind, hall⟩ | ⟨i, hfirst, hfind⟩
  · left
    simp only [hfind, ok_bind, true_and]
    exact hall
  right
  refine ⟨i, hfirst, ?_⟩
  simp only [hfind, writeBitmap, writeBlocks_eq h.size ha,
    writeBgDescriptor_zero h.size h.table, updateSuperblock_eq h.offset, Nat.zero_mul,
    Nat.zero_add]
  rfl

theorem allocInode_fault (h : fs.Mountable) (ha : ¬ fs.Addressable (fs.seenInodeBitmap disk)) :
    fs.allocInode disk = .error .overflow := by
  rw [allocInode, if_neg (by simp [h.mounted])]
  simp only [getBgDescriptor_zero h.size h.mounted h.table, ok_bind,
    seenInodeBitmap_fold, readBitmap_fault h.size ha, error_bind]

/-- The place of an inode of group 0 in the table that the driver uses. -/
def inodeBlockIn (fs : Ext2) (table inodeNum : Nat) : Nat :=
  table + (inodeNum - 1) * fs.superblock.sInodeSize.toNat / fs.blockSize

/-- Its byte offset in that block. -/
def inodeOffsetIn (fs : Ext2) (inodeNum : Nat) : Nat :=
  (inodeNum - 1) * fs.superblock.sInodeSize.toNat % fs.blockSize

theorem slot_le (hsize : fs.GoodSize) (h : 128 ≤ fs.superblock.sInodeSize.toNat ∧
    fs.superblock.sInodeSize.toNat ∣ fs.blockSize) (k : Nat) :
    k * fs.superblock.sInodeSize.toNat % fs.blockSize + 128 ≤ fs.blockSize := by
  obtain ⟨hlo, c, hc⟩ := h
  have hbounds := hsize.bounds
  have hcpos : 0 < c := by
    rcases Nat.eq_zero_or_pos c with hz | hpos
    · rw [hz] at hc
      omega
    · exact hpos
  have hmul := Nat.mul_le_mul_left fs.superblock.sInodeSize.toNat
    (Nat.succ_le_of_lt (Nat.mod_lt k hcpos))
  rw [Nat.mul_succ, ← Nat.mul_mod_mul_left, ← hc, Nat.mul_comm _ k] at hmul
  omega

theorem slot_lt_table (hsize : fs.GoodSize) (hlo : 128 ≤ fs.superblock.sInodeSize.toNat)
    (hk : k < fs.superblock.sInodesPerGroup.toNat) :
    k * fs.superblock.sInodeSize.toNat / fs.blockSize < fs.inodeTableSizeInBlocks := by
  have hbounds := hsize.bounds
  have hmul := Nat.mul_le_mul_right fs.superblock.sInodeSize.toNat (Nat.succ_le_of_lt hk)
  have hfloor := Nat.div_mul_le_self (k * fs.superblock.sInodeSize.toNat) fs.blockSize
  rw [Nat.succ_mul] at hmul
  rw [inodeTableSizeInBlocks, Nat.lt_iff_add_one_le, Nat.le_div_iff_mul_le (by omega), Nat.add_mul]
  omega

theorem group_zero {ipg : Nat} (hn : 1 ≤ n) (hn' : n ≤ ipg) :
    0 < ipg ∧ (n - 1) / ipg = 0 ∧ (n - 1) % ipg = n - 1 :=
  ⟨by omega, Nat.div_eq_of_lt (by omega), Nat.mod_eq_of_lt (by omega)⟩

section

variable (h : fs.Mountable)
include h

theorem Mountable.not_barred (hn : 1 ≤ n) : ¬ (fs.mounted = false ∨ n = 0) := by
  rw [h.mounted]
  simp
  omega

section

variable (hn : 1 ≤ n) (hn' : n ≤ fs.superblock.sInodesPerGroup.toNat)
  (hlt : fs.inodeBlockIn (fs.seenInodeTable disk) n < 2 ^ 32)

include hn hn' hlt

theorem inodeSlot_zero : fs.inodeSlot disk n
      = .ok (fs.inodeBlockIn (fs.seenInodeTable disk) n, fs.inodeOffsetIn n) := by
  have hb := h.size.bounds
  have hpos : 0 < fs.blockSize := by omega
  obtain ⟨hipg, hgroup, hindex⟩ := group_zero hn hn'
  rw [inodeBlockIn] at hlt
  have hmod : (n - 1) * fs.superblock.sInodeSize.toNat / fs.blockSize % 2 ^ 32
      = (n - 1) * fs.superblock.sInodeSize.toNat / fs.blockSize :=
    Nat.mod_eq_of_lt (by omega)
  simp only [inodeSlot, divW_ok hipg, modW_ok hipg, divW_ok hpos, modW_ok hpos, hgroup,
    hindex, ok_bind, getBgDescriptor_zero h.size h.mounted h.table,
    seenInodeTable_fold, hmod, addW_ok hlt]
  rfl

theorem readInode_zero (ha : fs.Addressable (fs.inodeBlockIn (fs.seenInodeTable disk) n))
    (hoff : fs.inodeOffsetIn n + 128 ≤ fs.blockSize) :
    fs.readInode disk n = .ok (Ext2Inode.decode
      (shift (fs.inodeOffsetIn n)
        (fs.block disk (fs.inodeBlockIn (fs.seenInodeTable disk) n)))) := by
  have hsize := h.size.bounds
  rw [readInode, if_neg (h.not_barred hn), inodeSlot_zero h hn hn' hlt, ok_bind]
  simp only []
  rw [readStruct_eq h.size ha (by rw [Ext2Inode.size_eq]; omega)]
  rfl

theorem writeInode_zero (ha : fs.Addressable (fs.inodeBlockIn (fs.seenInodeTable disk) n))
    (hoff : fs.inodeOffsetIn n + 128 ≤ fs.blockSize) (inode : Ext2Inode) :
    fs.writeInode disk n inode = .ok (fs.setBlock disk
      (fs.inodeBlockIn (fs.seenInodeTable disk) n)
      (splice (fs.inodeOffsetIn n) 128 inode.encode
        (fs.block disk (fs.inodeBlockIn (fs.seenInodeTable disk) n)))) := by
  have hsize := h.size.bounds
  rw [writeInode, if_neg (h.not_barred hn), inodeSlot_zero h hn hn' hlt, ok_bind]
  simp only []
  rw [writeStruct_eq h.size ha (by rw [Ext2Inode.size_eq]; omega)]
  rfl

theorem writeInode_fault (ha : ¬ fs.Addressable (fs.inodeBlockIn (fs.seenInodeTable disk) n))
    (inode : Ext2Inode) : fs.writeInode disk n inode = .error .overflow := by
  have hsize := h.size.bounds
  rw [writeInode, if_neg (h.not_barred hn), inodeSlot_zero h hn hn' hlt, ok_bind]
  simp only []
  rw [writeStructToDisk, if_neg (by omega), readBlocks_fault h.size.power ha, error_bind]

end

/-- `free_inode` of an inode of group 0: the commit of the bitmap without
bit `n - 1`, then the inode write. -/
theorem freeInode_eq (disk : Disk) (hn : 1 ≤ n)
    (hn' : n ≤ fs.superblock.sInodesPerGroup.toNat) (hn4 : n ≤ 8 * 4096)
    (ha : fs.Addressable (fs.seenInodeBitmap disk))
    (hcount : (fs.seenDescriptor disk).bgFreeInodesCount.toNat + 1 < 2 ^ 16) :
    fs.freeInode disk n = fs.writeInode
      (fs.commit disk (fs.seenInodeBitmap disk)
        (clearBit (n - 1) (fs.block disk (fs.seenInodeBitmap disk)))
        (givenInode (fs.seenDescriptor disk))) n .zeroed := by
  obtain ⟨hipg, hgroup, hindex⟩ := group_zero hn hn'
  have hbyte : (n - 1) / 8 < 4096 := by omega
  simp only [freeInode, subW_ok hn, divW_ok hipg, modW_ok hipg, hgroup, hindex,
    ok_bind, getBgDescriptor_zero h.size h.mounted h.table, seenInodeBitmap_fold,
    readBitmap_eq h.size ha, if_pos hbyte, addW_ok hcount, writeBitmap,
    writeBlocks_eq h.size ha, writeBgDescriptor_zero h.size h.table,
    updateSuperblock_eq h.offset]
  rfl

end

/-! ## Blocks -/

/-- The descriptor that `alloc_block` writes. -/
def takenBlock (bgd : Ext2BlockGroupDescriptor) : Ext2BlockGroupDescriptor :=
  { bgd with bgFreeBlocksCount := decrement bgd.bgFreeBlocksCount }

/-- The descriptor that `free_block` writes. -/
def givenBlock (bgd : Ext2BlockGroupDescriptor) : Ext2BlockGroupDescriptor :=
  { bgd with bgFreeBlocksCount := UInt16.ofNat (bgd.bgFreeBlocksCount.toNat + 1) }

theorem allocBlock_cases (h : fs.Mountable) (disk : Disk)
    (ha : fs.Addressable (fs.seenBlockBitmap disk))
    (hbpg : fs.superblock.sBlocksPerGroup.toNat ≤ 8 * 4096) :
    TakesFirst (fs.block disk (fs.seenBlockBitmap disk)) (fs.searchStart disk)
      fs.superblock.sBlocksPerGroup.toNat disk (fs.allocBlock disk) fun i =>
        fs.commit disk (fs.seenBlockBitmap disk)
          (setBit i (fs.block disk (fs.seenBlockBitmap disk)))
          (takenBlock (fs.seenDescriptor disk)) := by
  have hstart : (fs.seenInodeTable disk + fs.inodeTableSizeInBlocks) % 2 ^ 32
      = fs.searchStart disk := rfl
  rw [allocBlock, if_neg (by simp [h.mounted])]
  simp only [getBgDescriptor_zero h.size h.mounted h.table, ok_bind,
    seenBlockBitmap_fold, seenInodeTable_fold, hstart, readBitmap_eq h.size ha]
  rcases findClear_block fs disk (fs.seenBlockBitmap disk) (fs.searchStart disk) hbpg with
    ⟨hfind, hall⟩ | ⟨i, hfirst, hfind⟩
  · left
    simp only [hfind, ok_bind, true_and]
    exact hall
  right
  refine ⟨i, hfirst, ?_⟩
  simp only [hfind, writeBitmap, writeBlocks_eq h.size ha,
    writeBgDescriptor_zero h.size h.table, updateSuperblock_eq h.offset]
  rfl

theorem allocBlock_fault (h : fs.Mountable) (ha : ¬ fs.Addressable (fs.seenBlockBitmap disk)) :
    fs.allocBlock disk = .error .overflow := by
  rw [allocBlock, if_neg (by simp [h.mounted])]
  simp only [getBgDescriptor_zero h.size h.mounted h.table, ok_bind,
    seenBlockBitmap_fold, readBitmap_fault h.size ha, error_bind]

theorem freeBlock_eq (h : fs.Mountable) (disk : Disk) (hb : b ≠ 0) (hb4 : b < 8 * 4096)
    (ha : fs.Addressable (fs.seenBlockBitmap disk))
    (hcount : (fs.seenDescriptor disk).bgFreeBlocksCount.toNat + 1 < 2 ^ 16) :
    fs.freeBlock disk b = .ok (fs.commit disk (fs.seenBlockBitmap disk)
        (clearBit b (fs.block disk (fs.seenBlockBitmap disk)))
        (givenBlock (fs.seenDescriptor disk))) := by
  have hbyte : b / 8 < 4096 := by omega
  rw [freeBlock, if_neg hb]
  simp only [ok_bind, getBgDescriptor_zero h.size h.mounted h.table,
    seenBlockBitmap_fold, readBitmap_eq h.size ha, if_pos hbyte, addW_ok hcount, writeBitmap,
    writeBlocks_eq h.size ha, writeBgDescriptor_zero h.size h.table,
    updateSuperblock_eq h.offset]
  rfl

theorem freeBlock_fault (h : fs.Mountable) (hb : b ≠ 0) (hb4 : b < 8 * 4096)
    (ha : fs.Addressable (fs.seenBlockBitmap disk))
    (hcount : ¬ (fs.seenDescriptor disk).bgFreeBlocksCount.toNat + 1 < 2 ^ 16) :
    fs.freeBlock disk b = .error .overflow := by
  have hbyte : b / 8 < 4096 := by omega
  rw [freeBlock, if_neg hb]
  simp only [ok_bind, getBgDescriptor_zero h.size h.mounted h.table,
    seenBlockBitmap_fold, readBitmap_eq h.size ha, if_pos hbyte, addW, if_neg hcount,
    writeBitmap, writeBlocks_eq h.size ha, error_bind]

/-! ## The blocks after a commit -/

theorem commit_sectors (bm : Nat) (f : Bytes) (bgd : Ext2BlockGroupDescriptor) :
    (fs.commit disk bm f bgd).sectors = disk.sectors := by
  simp only [commit, setSuper_sectors, setBlock_sectors]

theorem setBit_block_ge (hi : i < 8 * fs.blockSize)
    (hk : fs.blockSize ≤ k) : setBit i (fs.block disk b) k = 0 := by
  rw [setBit_apply_ne (by omega), block_apply_ge hk]

theorem clearBit_ge (hf : ∀ k, n ≤ k → f k = 0)
    (hi : i < 8 * n) : ∀ k, n ≤ k → clearBit i f k = 0 := by
  intro k hk
  rw [clearBit_apply_ne (by omega), hf k hk]

section SuperblockApart

variable (h : fs.Mountable) (h1024 : fs.blockSize ≠ 1024) {bm : Nat}
include h h1024

/-- A commit touches no block but the bitmap and the descriptor table. -/
theorem block_commit_ne {b : Nat} (f : Bytes) (bgd : Ext2BlockGroupDescriptor)
    (hb : 1 ≤ b) (hbm : b ≠ bm) (htab : b ≠ fs.bgdTableBlock) :
    fs.block (fs.commit disk bm f bgd) b = fs.block disk b := by
  rw [commit, block_setSuper h.size h1024 hb, block_setBlock_ne h.size htab,
    block_setBlock_ne h.size hbm]

theorem block_commit_bitmap {f : Bytes} (bgd : Ext2BlockGroupDescriptor)
    (hb : 1 ≤ bm) (hon : fs.OnDisk disk bm)
    (htab : bm ≠ fs.bgdTableBlock) (hf : ∀ k, fs.blockSize ≤ k → f k = 0) :
    fs.block (fs.commit disk bm f bgd) bm = f := by
  rw [commit, block_setSuper h.size h1024 hb, block_setBlock_ne h.size htab,
    block_setBlock h.size hon bm f hf, if_pos rfl]

/-- The descriptor table after a commit: only the first descriptor changes. -/
theorem block_commit_table (f : Bytes) (bgd : Ext2BlockGroupDescriptor)
    (hb : 1 ≤ fs.bgdTableBlock) (hon : fs.OnDisk disk fs.bgdTableBlock)
    (htab : fs.bgdTableBlock ≠ bm) :
    fs.block (fs.commit disk bm f bgd) fs.bgdTableBlock
      = cut fs.blockSize (splice 0 32 bgd.encode (fs.block disk fs.bgdTableBlock)) := by
  rw [commit, block_setSuper h.size h1024 hb,
    block_setBlock_cut h.size (by simpa using hon), if_pos rfl, block_setBlock_ne h.size htab]

/-- The descriptor that was committed is the one that the driver sees. -/
theorem seenDescriptor_commit (bm : Nat) (f : Bytes) (bgd : Ext2BlockGroupDescriptor)
    (hb : 1 ≤ fs.bgdTableBlock) (hon : fs.OnDisk disk fs.bgdTableBlock) :
    fs.seenDescriptor (fs.commit disk bm f bgd) = bgd := by
  have hsize := h.size.bounds
  rw [seenDescriptor, commit, block_setSuper h.size h1024 hb, ← Packed.decode_encode bgd]
  refine Packed.decode_congr fun k hk => ?_
  rw [Ext2BlockGroupDescriptor.size_eq] at hk
  rw [block_setBlock_self (by simpa using hon), if_pos (by omega),
    splice_apply_in (by omega) (by omega), Packed.decode_encode]
  rfl

end SuperblockApart

section SuperblockIsTable

variable (h : fs.Mountable) (h1024 : fs.blockSize = 1024) (htab : fs.bgdTableBlock = 1) {bm : Nat}
include h h1024 htab

/-- With blocks of 1024 bytes the superblock is written over the descriptor. -/
theorem commit_eq_1024 (bm : Nat) (f : Bytes) (bgd : Ext2BlockGroupDescriptor) :
    fs.commit disk bm f bgd =
      fs.setBlock (fs.setBlock (fs.setBlock disk bm f) 1
        (splice 0 32 bgd.encode (fs.block (fs.setBlock disk bm f) 1))) 1
        fs.superblock.encode := by
  have ha := h.table
  have hlba : fs.partitionOffset % 2 ^ 32 + 2 < 2 ^ 32 := by
    rw [Addressable, blockLba, h1024] at ha
    omega
  rw [commit, setSuper_eq_setBlock h1024 hlba, htab]

theorem block_commit_ne_1024 {b : Nat} (f : Bytes) (bgd : Ext2BlockGroupDescriptor)
    (hbm : b ≠ bm) (hb : b ≠ 1) : fs.block (fs.commit disk bm f bgd) b = fs.block disk b := by
  rw [commit_eq_1024 h h1024 htab, block_setBlock_ne h.size hb, block_setBlock_ne h.size hb,
    block_setBlock_ne h.size hbm]

theorem block_commit_bitmap_1024 {f : Bytes} (bgd : Ext2BlockGroupDescriptor)
    (hb : bm ≠ 1) (hon : fs.OnDisk disk bm) (hf : ∀ k, fs.blockSize ≤ k → f k = 0) :
    fs.block (fs.commit disk bm f bgd) bm = f := by
  rw [commit_eq_1024 h h1024 htab, block_setBlock_ne h.size hb, block_setBlock_ne h.size hb,
    block_setBlock h.size hon bm f hf, if_pos rfl]

/-- Block 1 holds the superblock after every commit. -/
theorem block_commit_super (f : Bytes) (bgd : Ext2BlockGroupDescriptor)
    (hon : fs.OnDisk disk 1) (k : Nat) :
    fs.block (fs.commit disk bm f bgd) 1 k
      = if k < 1024 then fs.superblock.encode k else 0 := by
  rw [commit_eq_1024 h h1024 htab, block_setBlock_self (by simpa using hon), h1024]

end SuperblockIsTable

/-! ## The superblock taken for a descriptor -/

/-- Block 1 holds the superblock in memory. -/
def SuperblockOnDisk (fs : Ext2) (disk : Disk) : Prop :=
  ∀ k, k < 1024 → disk.data ((fs.partitionOffset + 2) * 512 + k) = fs.superblock.encode k

/-- The descriptor made of the first 32 bytes of a superblock: the number of
inodes stands where the block bitmap should, the number of blocks where the
inode bitmap should, and the number of reserved blocks where the inode table
should. -/
theorem decode_superblock {sb : Ext2SuperBlock} (hf : ∀ k, k < 1024 → f k = sb.encode k) :
    (Ext2BlockGroupDescriptor.decode f).bgBlockBitmap = sb.sInodesCount ∧
      (Ext2BlockGroupDescriptor.decode f).bgInodeBitmap = sb.sBlocksCount ∧
      (Ext2BlockGroupDescriptor.decode f).bgInodeTable = sb.sRBlocksCount ∧
      (Ext2BlockGroupDescriptor.decode f).bgFreeBlocksCount.toNat
        = sb.sFreeBlocksCount.toNat % 2 ^ 16 ∧
      (Ext2BlockGroupDescriptor.decode f).bgFreeInodesCount.toNat
        = sb.sFreeBlocksCount.toNat / 2 ^ 16 := by
  have hword : ∀ o, o + 4 ≤ 1024 → get32 o f = get32 o sb.encode := by
    intro o ho
    exact get32_congr fun k _ _ => hf k (by omega)
  have hhalf : ∀ o, o + 2 ≤ 1024 → get16 o f = get16 o sb.encode := by
    intro o ho
    exact get16_congr fun k _ _ => hf k (by omega)
  have hfree : get32 12 sb.encode = sb.sFreeBlocksCount := by
    simp (disch := decide) only [Ext2SuperBlock.encode, get32, put32, getLe_putLe_ne]
    exact get32_put32_self _ _ _
  have hsplit : (get32 12 sb.encode).toNat
      = (get16 12 sb.encode).toNat + 2 ^ 16 * (get16 14 sb.encode).toNat := by
    have h0 := (sb.encode 12).toNat_lt
    have h1 := (sb.encode 13).toNat_lt
    simp only [get32, get16, getLe, UInt32.toNat_ofNat', UInt16.toNat_ofNat', Nat.reduceAdd]
    omega
  have hlow := (get16 12 sb.encode).toNat_lt
  rw [hfree] at hsplit
  simp only [Ext2BlockGroupDescriptor.decode]
  rw [hword 0 (by omega), hword 4 (by omega), hword 8 (by omega), hhalf 12 (by omega),
    hhalf 14 (by omega)]
  refine ⟨?_, ?_, ?_, by omega, by omega⟩
  all_goals
    simp (disch := decide) only [Ext2SuperBlock.encode, get32, put32, getLe_putLe_ne]
    exact get32_put32_self _ _ _

end Ext2

end Felix
