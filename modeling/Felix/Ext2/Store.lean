import Felix.Ext2.Driver

/-!
# The disk as an array of blocks

For the block sizes that the buffers of the driver hold, `readBlocks` and
`writeBlocks` are a lookup and an update of an array of blocks.
`Ext2.block` is that array: the bytes of block `b`, padded with zeros, which
is also what a zeroed buffer holds after a read that failed.
`Ext2.setBlock` is the update.  The lemmas of this module are the only ones
that look at sector numbers; later modules compute with `block_setBlock_self`
and `block_setBlock_ne`.

The superblock occupies the sectors 2 and 3 of the partition.  That is block
1 when blocks have 1024 bytes, and a part of block 0 otherwise.
-/

namespace Felix

open Bytes Res

namespace Ext2

/-- The block sizes that `format` makes and the fixed buffers hold. -/
def GoodSize (fs : Ext2) : Prop :=
  fs.blockSize = 1024 ∨ fs.blockSize = 2048 ∨ fs.blockSize = 4096

/-- The block sizes of ext2, up to 64 KiB. -/
def PowerSize (fs : Ext2) : Prop := ∃ k, k ≤ 6 ∧ fs.blockSize = 1024 * 2 ^ k

/-- The first sector of a block. -/
def blockLba (fs : Ext2) (b : Nat) : Nat :=
  fs.partitionOffset % 2 ^ 32 + b * (fs.blockSize / 512)

/-- The sector number of a block is computed without an overflow. -/
def Addressable (fs : Ext2) (b : Nat) : Prop := fs.blockLba b < 2 ^ 32
  deriving Decidable

/-- The device has all sectors of a block. -/
def OnDisk (fs : Ext2) (disk : Disk) (b : Nat) : Prop :=
  fs.blockLba b + fs.blockSize / 512 ≤ disk.sectors
  deriving Decidable

/-- The bytes of block `b`, padded with zeros. -/
def block (fs : Ext2) (disk : Disk) (b : Nat) : Bytes := fun k =>
  if fs.OnDisk disk b ∧ k < fs.blockSize then disk.data (fs.blockLba b * 512 + k) else 0

/-- The disk after a write of block `b`. -/
def setBlock (fs : Ext2) (disk : Disk) (b : Nat) (f : Bytes) : Disk :=
  if fs.OnDisk disk b then
    { disk with data := splice (fs.blockLba b * 512) fs.blockSize f disk.data }
  else disk

/-- The disk after a write of the superblock in memory. -/
def setSuper (fs : Ext2) (disk : Disk) : Disk :=
  let lba := (fs.partitionOffset + 2) % 2 ^ 32
  if lba + 2 ≤ disk.sectors then
    { disk with data := splice (lba * 512) 1024 fs.superblock.encode disk.data }
  else disk

variable {fs : Ext2} {disk : Disk}

theorem GoodSize.sectors (h : fs.GoodSize) :
    fs.blockSize = fs.blockSize / 512 * 512 ∧ 2 ≤ fs.blockSize / 512 ∧
      fs.blockSize / 512 ≤ 8 := by
  rcases h with h | h | h <;> rw [h] <;> decide

theorem GoodSize.bounds (h : fs.GoodSize) : 1024 ≤ fs.blockSize ∧ fs.blockSize ≤ 4096 := by
  rcases h with h | h | h <;> omega

theorem GoodSize.power (h : fs.GoodSize) : fs.PowerSize := by
  rcases h with h | h | h
  · exact ⟨0, by decide, h⟩
  · exact ⟨1, by decide, h⟩
  · exact ⟨2, by decide, h⟩

theorem PowerSize.sectors (h : fs.PowerSize) :
    fs.blockSize = fs.blockSize / 512 * 512 ∧ 2 ≤ fs.blockSize / 512 ∧
      fs.blockSize / 512 ≤ 128 := by
  obtain ⟨k, hk, h⟩ := h
  rw [h]
  clear h
  revert k
  decide

variable {b off b' : Nat}

theorem Addressable.lt (hsize : fs.GoodSize) (h : fs.Addressable b) : b < 2 ^ 32 := by
  have hspb := hsize.sectors.2.1
  have hmul : b * 2 ≤ b * (fs.blockSize / 512) := Nat.mul_le_mul_left b hspb
  rw [Addressable, blockLba] at h
  omega

/-! ## Reads and writes -/

section

variable (h : fs.PowerSize)
include h

theorem PowerSize.transfer (ha : fs.Addressable b) :
    mulW 32 (fs.blockSize / 512) 1 = .ok (fs.blockSize / 512 * 1) ∧
      fs.blockSize / 512 * 1 % 2 ^ 8 = fs.blockSize / 512 ∧
      mulW 32 b (fs.blockSize / 512) = .ok (b * (fs.blockSize / 512)) ∧
      addW 32 (fs.partitionOffset % 2 ^ 32) (b * (fs.blockSize / 512)) = .ok (fs.blockLba b) := by
  obtain ⟨_, hlo, hhi⟩ := h.sectors
  have hlba : fs.partitionOffset % 2 ^ 32 + b * (fs.blockSize / 512) < 2 ^ 32 := ha
  exact ⟨mulW_ok (by omega), by omega, mulW_ok (by omega), addW_ok hlba⟩

theorem readBlocks_eq (ha : fs.Addressable b) (buf : Buf) :
    fs.readBlocks disk b buf 1 =
      if fs.OnDisk disk b then
        if fs.blockSize ≤ buf.len then
          .ok ⟨buf.len, splice 0 fs.blockSize (shift (fs.blockLba b * 512) disk.data) buf.byte⟩
        else .error .memory
      else .ok buf := by
  have hb := h.sectors
  obtain ⟨hcount, hsect, hoffset, hlba⟩ := h.transfer ha
  rw [readBlocks, if_neg (by omega)]
  simp only [hcount, hoffset, hlba, ok_bind, hsect, Disk.readSectors, ← h.sectors.1]
  by_cases hon : fs.blockLba b + fs.blockSize / 512 ≤ disk.sectors
  · rw [if_pos hon, if_pos (c := fs.OnDisk disk b) hon]
  · rw [if_neg hon, if_neg (c := fs.OnDisk disk b) hon]

theorem readBlocks_zeroed {cap : Nat} (ha : fs.Addressable b) (hcap : fs.blockSize ≤ cap) :
    fs.readBlocks disk b (.zeroed cap) 1 = .ok ⟨cap, fs.block disk b⟩ := by
  rw [readBlocks_eq h ha]
  by_cases hon : fs.OnDisk disk b
  · rw [if_pos hon, Buf.zeroed_len, if_pos hcap]
    congr 2
    funext k
    simp only [block, hon, splice, Nat.zero_add, Nat.zero_le, true_and, shift_apply,
      Nat.sub_zero, Buf.zeroed_byte]
  · rw [if_neg hon]
    have hzero : fs.block disk b = fun _ => 0 := funext fun k => if_neg fun hk => hon hk.1
    rw [hzero]
    rfl

theorem readBlocks_fault (ha : ¬ fs.Addressable b) (buf : Buf) :
    fs.readBlocks disk b buf 1 = .error .overflow := by
  obtain ⟨hmul, hlo, hhi⟩ := h.sectors
  have hlba : ¬ fs.partitionOffset % 2 ^ 32 + b * (fs.blockSize / 512) < 2 ^ 32 := ha
  have hcount : mulW 32 (fs.blockSize / 512) 1 = .ok (fs.blockSize / 512 * 1) := mulW_ok (by omega)
  rw [readBlocks, if_neg (by omega)]
  simp only [hcount, ok_bind]
  by_cases hoffset : b * (fs.blockSize / 512) < 2 ^ 32
  · simp only [mulW_ok hoffset, ok_bind, addW, if_neg hlba, error_bind]
  · simp only [mulW, if_neg hoffset, error_bind]

end

section

variable (h : fs.GoodSize)
include h

theorem writeSectors_eq (b : Nat) (f : Bytes) :
    disk.writeSectors (fs.blockSize / 512) (fs.blockLba b) f
      = if fs.OnDisk disk b then .ok (fs.setBlock disk b f) else .error 1 := by
  rw [Disk.writeSectors, setBlock, ← h.sectors.1]
  by_cases hon : fs.OnDisk disk b
  · rw [if_pos hon, if_pos hon]
    exact if_pos hon
  · rw [if_neg hon]
    exact if_neg hon

theorem writeBlocks_eq (ha : fs.Addressable b) (f : Bytes) :
    fs.writeBlocks disk b f 1 = .ok (fs.setBlock disk b f) := by
  have hb := h.bounds
  obtain ⟨hcount, hsect, hoffset, hlba⟩ := h.power.transfer ha
  rw [writeBlocks, if_neg (by omega)]
  simp only [hcount, hoffset, hlba, ok_bind, hsect, writeSectors_eq h]
  by_cases hon : fs.OnDisk disk b
  · simp only [if_pos hon]
  · simp only [if_neg hon, setBlock]

end

/-! ## The array laws -/

@[simp] theorem setBlock_sectors (b : Nat) (f : Bytes) :
    (fs.setBlock disk b f).sectors = disk.sectors := by
  rw [setBlock]
  split <;> rfl

@[simp] theorem setSuper_sectors : (fs.setSuper disk).sectors = disk.sectors := by
  rw [setSuper]
  split <;> rfl

theorem onDisk_congr {disk' : Disk} (h : disk'.sectors = disk.sectors) (b : Nat) :
    fs.OnDisk disk' b ↔ fs.OnDisk disk b := by
  rw [OnDisk, OnDisk, h]

@[simp] theorem onDisk_setBlock (b b' : Nat) (f : Bytes) :
    fs.OnDisk (fs.setBlock disk b f) b' ↔ fs.OnDisk disk b' :=
  onDisk_congr (setBlock_sectors b f) b'

@[simp] theorem onDisk_setSuper (b : Nat) : fs.OnDisk (fs.setSuper disk) b ↔ fs.OnDisk disk b :=
  onDisk_congr setSuper_sectors b

theorem block_setBlock_self (hon : fs.OnDisk disk b) (f : Bytes) (k : Nat) :
    fs.block (fs.setBlock disk b f) b k = if k < fs.blockSize then f k else 0 := by
  rw [block]
  simp only [onDisk_setBlock, hon, true_and]
  split
  · rw [setBlock, if_pos hon]
    simp only []
    rw [splice_apply_in (by omega) (by omega), Nat.add_sub_cancel_left]
  · rfl

/-- Two blocks have no sector in common. -/
theorem blockLba_disjoint (fs : Ext2) (hne : b ≠ b') :
    fs.blockLba b + fs.blockSize / 512 ≤ fs.blockLba b' ∨
      fs.blockLba b' + fs.blockSize / 512 ≤ fs.blockLba b := by
  unfold blockLba
  rcases Nat.lt_or_gt_of_ne hne with hlt | hlt
  · left
    have hmul := Nat.mul_le_mul_right (fs.blockSize / 512) (Nat.succ_le_of_lt hlt)
    rw [Nat.succ_mul] at hmul
    omega
  right
  have hmul := Nat.mul_le_mul_right (fs.blockSize / 512) (Nat.succ_le_of_lt hlt)
  rw [Nat.succ_mul] at hmul
  omega

theorem block_setBlock_ne (h : fs.GoodSize) (hne : b' ≠ b) (f : Bytes) :
    fs.block (fs.setBlock disk b f) b' = fs.block disk b' := by
  funext k
  simp only [block, onDisk_setBlock]
  split
  · have hmul := h.sectors.1
    rw [setBlock]
    split
    · refine splice_apply_out ?_
      rcases blockLba_disjoint fs hne with hd | hd <;> omega
    · rfl
  · rfl

theorem block_setBlock_cut (h : fs.GoodSize) (hon : fs.OnDisk disk b) (b' : Nat) (f : Bytes) :
    fs.block (fs.setBlock disk b f) b'
      = if b' = b then cut fs.blockSize f else fs.block disk b' := by
  split
  · rename_i heq
    subst heq
    funext k
    exact block_setBlock_self hon f k
  · rename_i hne
    exact block_setBlock_ne h hne f

theorem block_setBlock (h : fs.GoodSize) (hon : fs.OnDisk disk b) (b' : Nat)
    (f : Bytes) (hf : ∀ k, fs.blockSize ≤ k → f k = 0) :
    fs.block (fs.setBlock disk b f) b' = if b' = b then f else fs.block disk b' := by
  have hcut : cut fs.blockSize f = f := by
    funext k
    exact ite_eq_left_iff.2 fun hk => (hf k (by omega)).symm
  rw [block_setBlock_cut h hon, hcut]

theorem block_apply_ge {k : Nat} (hk : fs.blockSize ≤ k) : fs.block disk b k = 0 :=
  if_neg (by omega)

/-! ## The superblock -/

theorem updateSuperblock_eq (hpo : fs.partitionOffset + 2 < 2 ^ 64) :
    fs.updateSuperblock disk = .ok (fs.setSuper disk) := by
  rw [updateSuperblock, addW_ok hpo, ok_bind, Disk.writeSectors, setSuper]
  by_cases hon : (fs.partitionOffset + 2) % 2 ^ 32 + 2 ≤ disk.sectors
  · simp only [if_pos hon]
  · simp only [if_neg hon]

/-- With blocks of 1024 bytes the superblock is block 1. -/
theorem setSuper_eq_setBlock (h : fs.blockSize = 1024)
    (ha : fs.partitionOffset % 2 ^ 32 + 2 < 2 ^ 32) :
    fs.setSuper disk = fs.setBlock disk 1 fs.superblock.encode := by
  have hlba : fs.blockLba 1 = (fs.partitionOffset + 2) % 2 ^ 32 := by
    rw [blockLba]
    omega
  rw [setSuper, setBlock]
  simp only [OnDisk, hlba, h]

/-- With larger blocks the superblock lies in block 0. -/
theorem block_setSuper (h : fs.GoodSize) (h1024 : fs.blockSize ≠ 1024)
    (hb : 1 ≤ b) : fs.block (fs.setSuper disk) b = fs.block disk b := by
  have hspb : 4 ≤ fs.blockSize / 512 := by
    rcases h with h | h | h
    · exact absurd h h1024
    · omega
    · omega
  have hlba : fs.partitionOffset % 2 ^ 32 + fs.blockSize / 512 ≤ fs.blockLba b := by
    have := Nat.mul_le_mul_right (fs.blockSize / 512) hb
    rw [blockLba]
    omega
  funext k
  simp only [block, onDisk_setSuper]
  split
  · rw [setSuper]
    split
    · refine splice_apply_out ?_
      omega
    · rfl
  · rfl

/-! ## Records -/

variable {α : Type} [Packed α]

theorem readStruct_eq (h : fs.GoodSize) (ha : fs.Addressable b)
    (hoff : off + Packed.size α ≤ 4096) :
    fs.readStructFromDisk α disk b off
      = .ok (Packed.decode (shift off (fs.block disk b))) := by
  have hb := h.bounds
  rw [readStructFromDisk, if_neg (by omega), readBlocks_zeroed h.power ha hb.2, ok_bind,
    Buf.load_ok hoff]

theorem writeStruct_eq (h : fs.GoodSize) (ha : fs.Addressable b)
    (hoff : off + Packed.size α ≤ 4096) (v : α) :
    fs.writeStructToDisk disk b off v
      = .ok (fs.setBlock disk b
          (splice off (Packed.size α) (Packed.encode v) (fs.block disk b))) := by
  have hb := h.bounds
  rw [writeStructToDisk, if_neg (by omega), readBlocks_zeroed h.power ha hb.2, ok_bind,
    Buf.store_ok hoff, ok_bind, writeBlocks_eq h ha]

theorem readStruct_fault (h : fs.GoodSize) (ha : ¬ fs.Addressable b) :
    fs.readStructFromDisk α disk b off = .error .overflow := by
  have hb := h.bounds
  rw [readStructFromDisk, if_neg (by omega), readBlocks_fault h.power ha, error_bind]

/-! ## The descriptor of group 0 -/

/-- The descriptor that the driver takes for the one of group 0. -/
def seenDescriptor (fs : Ext2) (disk : Disk) : Ext2BlockGroupDescriptor :=
  Packed.decode (fs.block disk fs.bgdTableBlock)

theorem bgdSlot_zero (h : fs.PowerSize) : fs.bgdSlot 0 = .ok (fs.bgdTableBlock, 0) := by
  have hb := h.sectors
  have hpos : 0 < fs.blockSize / 32 := by omega
  have htab : fs.bgdTableBlock < 2 ^ 32 := by
    rw [bgdTableBlock]
    split
    · omega
    · exact UInt32.toNat_lt _
  have hblock : addW 32 fs.bgdTableBlock 0 = .ok fs.bgdTableBlock := addW_ok htab
  simp only [bgdSlot, divW_ok hpos, modW_ok hpos, Nat.zero_div, hblock, ok_bind]
  rfl

theorem getBgDescriptor_zero (h : fs.GoodSize) (hm : fs.mounted = true)
    (ha : fs.Addressable fs.bgdTableBlock) :
    fs.getBgDescriptor disk 0 = .ok (fs.seenDescriptor disk) := by
  rw [getBgDescriptor, if_neg (by simp [hm]), bgdSlot_zero h.power, ok_bind]
  simp only []
  rw [readStruct_eq h ha (by decide)]
  rfl

theorem writeBgDescriptor_zero (h : fs.GoodSize) (ha : fs.Addressable fs.bgdTableBlock)
    (bgd : Ext2BlockGroupDescriptor) :
    fs.writeBgDescriptor disk 0 bgd
      = .ok (fs.setBlock disk fs.bgdTableBlock
          (splice 0 32 bgd.encode (fs.block disk fs.bgdTableBlock))) := by
  rw [writeBgDescriptor, bgdSlot_zero h.power, ok_bind]
  simp only []
  rw [writeStruct_eq h ha (by decide)]
  rfl

end Ext2

end Felix
