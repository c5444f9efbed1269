import Felix.Ext2.GroupZero

/-!
# The contracts of the allocators

Under the ext2 layout an allocator has to return a number that the bitmap
marks free, and freeing that number has to give the old bitmap back.

`alloc_inode` tests bit `i` and returns `i`, while `free_inode` and
`read_inode` take inode `n` to be bit `n - 1`.  So the number it returns is
described by another bit, and `free_inode` leaves the bit that was taken set.
`allocInodeContract_iff` says when the contract holds all the same.
-/

namespace Felix

open Bytes

namespace Ext2

variable {fs : Ext2} {disk disk' : Disk} {f : Bytes} {i : Nat}

section

variable {alloc : Res (Option Nat × Disk)} {lo hi : Nat} {next : Nat → Disk}

theorem TakesFirst.eq_some (h : TakesFirst f lo hi disk alloc next)
    (hfirst : FirstClear f lo hi i) : alloc = .ok (some i, next i) := by
  rcases h with ⟨_, hall⟩ | ⟨j, hj, hsome⟩
  · exact (hfirst.not_all hall).elim
  · rwa [hfirst.unique hj]

/-- An allocator that takes the first clear bit keeps a promise exactly if it holds there. -/
theorem TakesFirst.allocates_iff {good : Nat → Disk → Prop} {ready : Prop}
    (hfault : ¬ ready → alloc = .error .overflow)
    (h : ready → TakesFirst f lo hi disk alloc next) :
    (∃ r disk₁, alloc = .ok (r, disk₁) ∧ ∀ n, r = some n → good n disk₁) ↔
      ready ∧ ∀ i, FirstClear f lo hi i → good i (next i) := by
  refine ⟨fun ⟨r, disk₁, halloc, hspec⟩ => ?_, fun ⟨hready, hgood⟩ => ?_⟩
  · have hready : ready := by
      by_contra hnot
      rw [hfault hnot] at halloc
      cases halloc
    refine ⟨hready, fun i hfirst => ?_⟩
    rw [(h hready).eq_some hfirst] at halloc
    cases halloc
    exact hspec i rfl
  · rcases h hready with ⟨hnone, -⟩ | ⟨i, hfirst, hsome⟩
    · exact ⟨none, disk, hnone, nofun⟩
    · refine ⟨some i, next i, hsome, fun n hn => ?_⟩
      cases hn
      exact hgood i hfirst

end

/-! ## Inodes -/

/-- The contract of `alloc_inode`: it returns `None`, or an inode whose own
bit was clear, and `free_inode` then restores the bitmap. -/
def AllocInodeContract (fs : Ext2) (disk : Disk) : Prop :=
  ∃ r disk₁, fs.allocInode disk = .ok (r, disk₁) ∧
    ∀ n, r = some n →
      1 ≤ n ∧ bit (fs.inodeBitmap disk) (n - 1) = false ∧
      ∃ disk₂, fs.freeInode disk₁ n = .ok disk₂ ∧
        fs.block disk₂ (fs.inodeBitmapBlock disk) = fs.inodeBitmap disk

/-- When the contract holds.  With `s_first_data_block = 0` the bitmap must
have no clear bit from 12 on, so that nothing is allocated.  Otherwise the
driver works on the block behind the last one of the volume: for the first
clear bit `i` there, bit `i - 1` of the inode bitmap must be clear, and the
inode that is zeroed must not overwrite a part of the bitmap. -/
def AllocInodeCondition (fs : Ext2) (disk : Disk) : Prop :=
  if fs.superblock.sFirstDataBlock = 0 then
    ∀ i, 12 ≤ i → i < fs.superblock.sInodesPerGroup.toNat →
      bit (fs.inodeBitmap disk) i = true
  else
    fs.Addressable fs.superblock.sBlocksCount.toNat ∧
      ∀ i, FirstClear (fs.block disk fs.superblock.sBlocksCount.toNat) 12
          fs.superblock.sInodesPerGroup.toNat i →
        bit (fs.inodeBitmap disk) (i - 1) = false ∧
        fs.Addressable (fs.inodeBlockIn fs.superblock.sRBlocksCount.toNat i) ∧
        (fs.inodeBlockIn fs.superblock.sRBlocksCount.toNat i = fs.inodeBitmapBlock disk →
          ∀ k, k < 128 → fs.inodeBitmap disk (fs.inodeOffsetIn i + k) = 0)

theorem encode_zeroed {k : Nat} (hk : k < 128) : Ext2Inode.zeroed.encode k = 0 := by
  have hall : ∀ i : Fin 128, Ext2Inode.zeroed.encode i = 0 := by decide
  exact hall ⟨k, hk⟩

/-- With larger blocks the driver sees what it has committed to a bitmap. -/
theorem GroupZero.commit_large (h : GroupZero fs disk) (hsize : fs.blockSize ≠ 1024)
    (hsec : disk'.sectors = disk.sectors) {bm : Nat} (hlow : 2 ≤ bm)
    (hup : bm < fs.superblock.sBlocksCount.toNat)
    (hf : ∀ k, fs.blockSize ≤ k → f k = 0) (bgd : Ext2BlockGroupDescriptor) :
    (fs.commit disk' bm f bgd).sectors = disk.sectors ∧
      fs.seenDescriptor (fs.commit disk' bm f bgd) = bgd ∧
      fs.block (fs.commit disk' bm f bgd) bm = f := by
  have hm := h.mountable
  obtain ⟨_, htab⟩ := h.table_large hsize
  obtain ⟨hon, ha⟩ := h.onDisk hup
  have htabOn := (h.onDisk (b := 1) (by omega)).1
  rw [← onDisk_congr hsec] at hon htabOn
  exact ⟨(commit_sectors _ _ _).trans hsec,
    seenDescriptor_commit hm hsize _ _ _ (by omega) (by rw [htab]; exact htabOn),
    block_commit_bitmap hm hsize _ (by omega) hon (by omega) hf⟩

/-- The inode bitmap after an allocation of inode `i` and its release: bit `i`
stays set, and bit `i - 1` is cleared. -/
theorem GroupZero.block_freeInode_allocInode (h : GroupZero fs disk)
    (hsize : fs.blockSize ≠ 1024) {disk₂ : Disk}
    (hfirst : FirstClear (fs.block disk (fs.inodeBitmapBlock disk)) 12
      fs.superblock.sInodesPerGroup.toNat i)
    (hfree : fs.freeInode (fs.commit disk (fs.inodeBitmapBlock disk)
      (setBit i (fs.block disk (fs.inodeBitmapBlock disk)))
      (takenInode (fs.seenDescriptor disk))) i = .ok disk₂) :
    fs.block disk₂ (fs.inodeBitmapBlock disk)
      = clearBit (i - 1) (setBit i (fs.block disk (fs.inodeBitmapBlock disk))) := by
  have hm := h.mountable
  have hb := h.size.bounds
  have hipg := h.inodes
  have hib := h.inodeBitmap
  have hgt := h.descriptorTableEnd_gt
  have hlow := hfirst.lower
  have hup := hfirst.upper
  have ha := (h.onDisk hib.2).2
  have hseen := h.seen_of_large hsize
  generalize hB : fs.block disk (fs.inodeBitmapBlock disk) = B at *
  have hBge : ∀ k, fs.blockSize ≤ k → setBit i B k = 0 := by
    intro k hk
    rw [← hB]
    exact setBit_block_ge (by omega) hk
  -- what the driver sees after the allocation
  obtain ⟨hsec1, hseen1, hblock1⟩ := h.commit_large hsize rfl (by omega) hib.2 hBge
    (takenInode (fs.seenDescriptor disk))
  generalize fs.commit disk (fs.inodeBitmapBlock disk) (setBit i B)
    (takenInode (fs.seenDescriptor disk)) = disk₁ at hfree hsec1 hseen1 hblock1
  rw [hseen] at hseen1
  have hbm1 : fs.seenInodeBitmap disk₁ = fs.inodeBitmapBlock disk := by
    rw [seenInodeBitmap, hseen1]
    rfl
  have hcount : (fs.seenDescriptor disk₁).bgFreeInodesCount.toNat + 1 < 2 ^ 16 := by
    rw [hseen1]
    exact decrement_lt _
  rw [freeInode_eq hm _ (by omega) (by omega) (by omega) (by rw [hbm1]; exact ha) hcount,
    hbm1, hblock1] at hfree
  obtain ⟨-, hseen2, hblock2⟩ := h.commit_large hsize hsec1 (by omega) hib.2
    (clearBit_ge hBge (show i - 1 < _ by omega)) (givenInode (fs.seenDescriptor disk₁))
  generalize fs.commit disk₁ (fs.inodeBitmapBlock disk) (clearBit (i - 1) (setBit i B))
    (givenInode (fs.seenDescriptor disk₁)) = disk₂' at hfree hseen2 hblock2
  have htable2 : fs.seenInodeTable disk₂' = fs.inodeTableBlock disk := by
    rw [seenInodeTable, hseen2, hseen1]
    rfl
  -- the write of the zeroed inode stays in the inode table
  have hlt := h.inodeBlockIn_lt (fs.inodeTableBlock disk) (n := i) (by omega) (by omega)
  have hge : fs.inodeTableBlock disk ≤ fs.inodeBlockIn (fs.inodeTableBlock disk) i :=
    Nat.le_add_right _ _
  have htable := h.inodeTable
  have hcount32 := fs.superblock.sBlocksCount.toNat_lt
  rw [writeInode_zero hm (by omega) (by omega) (by rw [htable2]; omega)
    (by rw [htable2]; exact (h.onDisk (by omega)).2) (h.inodeOffset_le i), htable2] at hfree
  cases hfree
  rw [block_setBlock_ne h.size (h.tableApart _ hge hlt).2.symm, hblock2]

/-- With a zero `s_first_data_block` an allocation always breaks the
contract: the bit that was taken is set for good. -/
theorem allocInodeContract_large (h : GroupZero fs disk) (hsize : fs.blockSize ≠ 1024) :
    fs.AllocInodeContract disk ↔ fs.AllocInodeCondition disk := by
  have hb := h.size.bounds
  have hseen : fs.seenInodeBitmap disk = fs.inodeBitmapBlock disk := by
    rw [seenInodeBitmap, h.seen_of_large hsize, inodeBitmapBlock]
  have ha := (h.onDisk h.inodeBitmap.2).2
  have hipg := h.inodes
  have hcases := allocInode_cases h.mountable disk (by rw [hseen]; exact ha) (by omega)
  rw [hseen] at hcases
  rw [AllocInodeCondition, if_pos (UInt32.toNat_inj.1 (h.table_large hsize).1)]
  refine (TakesFirst.allocates_iff (absurd trivial) fun _ => hcases).trans
    ⟨fun hspec => ?_, fun hall => ⟨trivial, fun i hfirst => (hfirst.not_all hall).elim⟩⟩
  rcases hcases with ⟨_, hall⟩ | ⟨i, hfirst, _⟩
  · exact hall
  obtain ⟨_, _, disk₂, hfree, hrestored⟩ := hspec.2 i hfirst
  have hbit := congrArg (fun f => bit f i) (hrestored.symm.trans
    (h.block_freeInode_allocInode hsize hfirst hfree))
  simp only [bit_clearBit, bit_setBit_self] at hbit
  rw [show fs.inodeBitmap disk = fs.block disk (fs.inodeBitmapBlock disk) from rfl,
    hfirst.isClear, decide_eq_true (by omega)] at hbit
  cases hbit

theorem GroupZero.firstDataBlock_ne_zero (h : GroupZero fs disk) (hsize : fs.blockSize = 1024) :
    fs.superblock.sFirstDataBlock ≠ 0 := by
  intro hzero
  have hone := (h.table_1024 hsize).1
  rw [hzero] at hone
  cases hone

theorem GroupZero.freeInode_1024 (h : GroupZero fs disk) (hsize : fs.blockSize = 1024)
    (hsec : disk'.sectors = disk.sectors)
    (hone : ∀ k, k < 1024 → fs.block disk' 1 k = fs.superblock.encode k)
    (ha : fs.Addressable fs.superblock.sBlocksCount.toNat) (hi : 1 ≤ i)
    (hi' : i ≤ fs.superblock.sInodesPerGroup.toNat) :
    ∃ disk₂, disk₂.sectors = disk.sectors ∧
      (∀ b, b ≠ fs.superblock.sBlocksCount.toNat → b ≠ 1 →
        fs.block disk₂ b = fs.block disk' b) ∧
      fs.freeInode disk' i =
        if fs.Addressable (fs.inodeBlockIn fs.superblock.sRBlocksCount.toNat i) then
          .ok (fs.setBlock disk₂ (fs.inodeBlockIn fs.superblock.sRBlocksCount.toNat i)
            (splice (fs.inodeOffsetIn i) 128 Ext2Inode.zeroed.encode
              (fs.block disk₂ (fs.inodeBlockIn fs.superblock.sRBlocksCount.toNat i))))
        else .error .overflow := by
  have hm := h.mountable
  have hipg := h.inodes
  have htab := (h.table_1024 hsize).2
  obtain ⟨_, hib, _, _, hcount⟩ := h.seen_of_super hsize hone
  refine ⟨fs.commit disk' fs.superblock.sBlocksCount.toNat
    (clearBit (i - 1) (fs.block disk' fs.superblock.sBlocksCount.toNat))
    (givenInode (fs.seenDescriptor disk')), ?_, ?_, ?_⟩
  · rw [commit_sectors, hsec]
  · intro b hne hne1
    exact block_commit_ne_1024 hm hsize htab _ _ hne hne1
  rw [freeInode_eq hm _ hi hi' (by omega) (by rw [hib]; exact ha) hcount, hib]
  have hone2 := h.block_one_commit hsize hsec fs.superblock.sBlocksCount.toNat
    (clearBit (i - 1) (fs.block disk' fs.superblock.sBlocksCount.toNat))
    (givenInode (fs.seenDescriptor disk'))
  obtain ⟨_, _, htable, _⟩ := h.seen_of_super hsize hone2
  have hlt := h.inodeBlockIn_lt fs.superblock.sRBlocksCount.toNat hi hi'
  have htsize := h.inodeTable.2
  have hres := h.reserved
  have hfits := h.fits
  have hlba := h.lba
  rw [hsize] at hfits
  split
  · rename_i haddr
    rw [writeInode_zero hm hi hi' (by rw [htable]; omega) (by rw [htable]; exact haddr)
      (h.inodeOffset_le i), htable]
  · rename_i haddr
    rw [writeInode_fault hm hi hi' (by rw [htable]; omega) (by rw [htable]; exact haddr)]

/-- Zeroing 128 bytes changes nothing when they are zero already. -/
theorem splice_zeroed_eq {off : Nat} :
    splice off 128 Ext2Inode.zeroed.encode f = f ↔ ∀ k, k < 128 → f (off + k) = 0 := by
  refine ⟨fun heq k hk => ?_, fun hz => ?_⟩
  · rw [← heq, splice_apply_in (by omega) (by omega), Nat.add_sub_cancel_left, encode_zeroed hk]
  · funext k
    rw [splice]
    split
    · rename_i hin
      rw [encode_zeroed (by omega), ← hz (k - off) (by omega), Nat.add_sub_cancel' hin.1]
    · rfl

/-- With blocks of 1024 bytes the driver neither reads nor writes the inode
bitmap, so all depends on what the two stray blocks hold. -/
theorem allocInodeContract_1024 (h : GroupZero fs disk) (hsize : fs.blockSize = 1024) :
    fs.AllocInodeContract disk ↔ fs.AllocInodeCondition disk := by
  have hm := h.mountable
  have hipg := h.inodes
  have hibm := h.inodeBitmap
  have hgt := h.descriptorTableEnd_gt
  have hon := (h.onDisk hibm.2).1
  obtain ⟨_, hib, _⟩ := h.seen_of_1024 hsize
  rw [AllocInodeCondition, if_neg (h.firstDataBlock_ne_zero hsize)]
  have hcases := fun ha => allocInode_cases hm disk ha (by omega)
  have hfault := @allocInode_fault fs disk hm
  rw [hib] at hcases hfault
  refine (TakesFirst.allocates_iff hfault hcases).trans (and_congr_right fun ha =>
    forall₂_congr fun i hfirst => ?_)
  have hlow := hfirst.lower
  have hup := hfirst.upper
  -- the release of `i`, on the disk after the allocation
  obtain ⟨disk₂, hsec₂, hframe, hfree⟩ := h.freeInode_1024 hsize (commit_sectors _ _ _)
    (h.block_one_commit hsize rfl fs.superblock.sBlocksCount.toNat
      (setBit i (fs.block disk fs.superblock.sBlocksCount.toNat))
      (takenInode (fs.seenDescriptor disk))) ha (i := i) (by omega) (by omega)
  have hbitmap : fs.block disk₂ (fs.inodeBitmapBlock disk) = fs.inodeBitmap disk := by
    rw [hframe _ (by omega) (by omega), block_commit_ne_1024 hm hsize (h.table_1024 hsize).2 _ _
      (by omega) (by omega)]
    rfl
  refine ⟨fun ⟨_, hclear, disk₃, hfree₃, hrestored⟩ => ?_, fun ⟨hclear, haddr, hzero⟩ => ?_⟩
  · rw [hfree] at hfree₃
    split at hfree₃
    · rename_i haddr
      refine ⟨hclear, haddr, fun heq => ?_⟩
      cases hfree₃
      rw [heq, hbitmap, block_setBlock h.size ((onDisk_congr hsec₂ _).2 hon), if_pos rfl]
        at hrestored
      · exact splice_zeroed_eq.1 hrestored
      intro k hk
      have hslot := h.inodeOffset_le i
      rw [splice_apply_out (by omega)]
      exact block_apply_ge hk
    · cases hfree₃
  · rw [if_pos haddr] at hfree
    refine ⟨by omega, hclear, _, hfree, ?_⟩
    by_cases heq : fs.inodeBlockIn fs.superblock.sRBlocksCount.toNat i
        = fs.inodeBitmapBlock disk
    · rw [heq, hbitmap, splice_zeroed_eq.2 (hzero heq), ← hbitmap]
      funext k
      rw [block_setBlock_self ((onDisk_congr hsec₂ _).2 hon)]
      split
      · rfl
      · rw [block_apply_ge (by omega)]
    · rw [block_setBlock_ne h.size (Ne.symm heq), hbitmap]

/-- `alloc_inode` meets its contract exactly under `AllocInodeCondition`. -/
theorem allocInodeContract_iff (h : GroupZero fs disk) :
    fs.AllocInodeContract disk ↔ fs.AllocInodeCondition disk := by
  by_cases hsize : fs.blockSize = 1024
  · exact allocInodeContract_1024 h hsize
  · exact allocInodeContract_large h hsize

theorem allocInodeContract_iff_small : (smallVolume 2048).AllocInodeContract (smallDisk 2048) ↔
      (smallVolume 2048).AllocInodeCondition (smallDisk 2048) :=
  allocInodeContract_iff (smallVolume_groupZero (.inr rfl))

/-- On a volume whose inodes 1 to 12 are in use, `alloc_inode` hands out inode
12. -/
theorem allocInode_small_in_use : GroupZero (smallVolume 2048) (smallDisk 2048) ∧
      bit ((smallVolume 2048).inodeBitmap (smallDisk 2048)) (12 - 1) = true ∧
      (∃ disk₁, (smallVolume 2048).allocInode (smallDisk 2048) = .ok (some 12, disk₁)) ∧
      ¬ (smallVolume 2048).AllocInodeContract (smallDisk 2048) := by
  have hrun : (((smallVolume 2048).allocInode (smallDisk 2048)).map Prod.fst).toOption
      = some (some 12) := by decide +kernel
  have hset : bit ((smallVolume 2048).inodeBitmap (smallDisk 2048)) (12 - 1) = true := by
    decide +kernel
  obtain ⟨⟨_, disk₁⟩, hrun, rfl⟩ := Res.of_toOption hrun
  refine ⟨smallVolume_groupZero (.inr rfl), hset, ⟨disk₁, hrun⟩, ?_⟩
  rintro ⟨r, disk', hrun', hcontract⟩
  cases hrun.symm.trans hrun'
  cases hset.symm.trans (hcontract 12 rfl).2.1

/-! ## Blocks -/

/-- The contract of `alloc_block`: it returns `None`, or a block of the volume
that the bitmap marks free and that is no metadata, and `free_block` then
restores the bitmap. -/
def AllocBlockContract (fs : Ext2) (disk : Disk) : Prop :=
  ∃ r disk₁, fs.allocBlock disk = .ok (r, disk₁) ∧
    ∀ b, r = some b →
      b < fs.superblock.sBlocksCount.toNat ∧
      fs.superblock.sFirstDataBlock.toNat ≤ b ∧
      bit (fs.blockBitmap disk) (b - fs.superblock.sFirstDataBlock.toNat) = false ∧
      ¬ fs.IsMetadata disk b ∧
      ∃ disk₂, fs.freeBlock disk₁ b = .ok disk₂ ∧
        fs.block disk₂ (fs.blockBitmapBlock disk) = fs.blockBitmap disk

/-- Where `alloc_block` starts to search with blocks of 1024 bytes: the number
of reserved blocks stands for the inode table. -/
def straySearchStart (fs : Ext2) : Nat :=
  (fs.superblock.sRBlocksCount.toNat + fs.inodeTableSizeInBlocks) % 2 ^ 32

/-- When the contract holds.  With `s_first_data_block = 0` it always does.
Otherwise the driver takes block `s_inodes_count` for the bitmap: the first
bit `i` that is clear there must be a block that the block bitmap, under the
other numbering, marks free, and the counter that is taken for the number of
free blocks must not be at its maximum. -/
def AllocBlockCondition (fs : Ext2) (disk : Disk) : Prop :=
  fs.superblock.sFirstDataBlock = 0 ∨
    (fs.Addressable fs.superblock.sInodesCount.toNat ∧
      ∀ i, FirstClear (fs.block disk fs.superblock.sInodesCount.toNat) fs.straySearchStart
          fs.superblock.sBlocksPerGroup.toNat i →
        bit (fs.blockBitmap disk) (i - 1) = false ∧
        fs.superblock.sFreeBlocksCount.toNat % 2 ^ 16 ≠ 65535)

/-- With a zero `s_first_data_block` the contract holds. -/
theorem allocBlockContract_large (h : GroupZero fs disk) (hok : BlockBitmapOk fs disk)
    (hsize : fs.blockSize ≠ 1024) : fs.AllocBlockContract disk := by
  have hm := h.mountable
  have hb := h.size.bounds
  obtain ⟨hfd, _⟩ := h.table_large hsize
  have hseen := h.seen_of_large hsize
  have hbm : fs.seenBlockBitmap disk = fs.blockBitmapBlock disk := by
    rw [seenBlockBitmap, hseen, blockBitmapBlock]
  have hbb := h.blockBitmap
  have ha := (h.onDisk hbb.2).2
  have hgt := h.descriptorTableEnd_gt
  have hbpg := h.blocks
  have hcases := allocBlock_cases hm disk (by rw [hbm]; exact ha) (by omega)
  rw [hbm] at hcases
  refine (TakesFirst.allocates_iff (absurd trivial) fun _ => hcases).2 ⟨trivial, fun i hfirst => ?_⟩
  have hup := hfirst.upper
  have hstart : fs.searchStart disk = fs.inodeTableBlock disk + fs.inodeTableSizeInBlocks := by
    have htable := h.inodeTable.2
    have hcount := fs.superblock.sBlocksCount.toNat_lt
    rw [searchStart, seenInodeTable, hseen,
      show (fs.layoutDescriptor disk).bgInodeTable.toNat = fs.inodeTableBlock disk from rfl]
    exact Nat.mod_eq_of_lt (by omega)
  have hlow := hfirst.lower
  have htable := h.inodeTable.1
  have hclear : bit (fs.blockBitmap disk) (i - fs.superblock.sFirstDataBlock.toNat)
      = false := by
    rw [hfd]
    exact hfirst.isClear
  obtain ⟨hlt, hmeta⟩ := hok.free (by omega) (by omega) hclear
  refine ⟨hlt, by omega, hclear, hmeta, ?_⟩
  obtain ⟨hsec1, hseen1, hblock1⟩ := h.commit_large hsize rfl (by omega) hbb.2
    (fun k hk => setBit_block_ge (i := i) (by omega) hk)
    (takenBlock (fs.seenDescriptor disk))
  generalize fs.commit disk (fs.blockBitmapBlock disk)
    (setBit i (fs.block disk (fs.blockBitmapBlock disk)))
    (takenBlock (fs.seenDescriptor disk)) = disk₁ at hsec1 hseen1 hblock1
  rw [hseen] at hseen1
  have hbm1 : fs.seenBlockBitmap disk₁ = fs.blockBitmapBlock disk := by
    rw [seenBlockBitmap, hseen1]
    rfl
  have hcount : (fs.seenDescriptor disk₁).bgFreeBlocksCount.toNat + 1 < 2 ^ 16 := by
    rw [hseen1]
    exact decrement_lt _
  refine ⟨_, freeBlock_eq hm _ (by omega) (by omega) (by rw [hbm1]; exact ha) hcount, ?_⟩
  rw [hbm1, hblock1, clearBit_setBit hfirst.isClear]
  exact (h.commit_large hsize hsec1 (by omega) hbb.2 (fun k hk => block_apply_ge hk) _).2.2

theorem GroupZero.freeBlock_1024 (h : GroupZero fs disk) (hsize : fs.blockSize = 1024)
    (ha : fs.Addressable fs.superblock.sInodesCount.toNat)
    (hfirst : FirstClear (fs.block disk fs.superblock.sInodesCount.toNat)
      fs.straySearchStart fs.superblock.sBlocksPerGroup.toNat i) (hi : i ≠ 0) :
    let disk₁ := fs.commit disk fs.superblock.sInodesCount.toNat
      (setBit i (fs.block disk fs.superblock.sInodesCount.toNat))
      (takenBlock (fs.seenDescriptor disk))
    (fs.superblock.sFreeBlocksCount.toNat % 2 ^ 16 = 65535 →
      fs.freeBlock disk₁ i = .error .overflow) ∧
    (fs.superblock.sFreeBlocksCount.toNat % 2 ^ 16 ≠ 65535 →
      ∃ disk₂, fs.freeBlock disk₁ i = .ok disk₂ ∧
        fs.block disk₂ (fs.blockBitmapBlock disk) = fs.blockBitmap disk) := by
  intro disk₁
  have hm := h.mountable
  have hb := h.size.bounds
  have hbpg := h.blocks
  have hbb := h.blockBitmap
  have hgt := h.descriptorTableEnd_gt
  have hup := hfirst.upper
  have htab := (h.table_1024 hsize).2
  obtain ⟨hon, _⟩ := h.onDisk hbb.2
  have hsec1 : disk₁.sectors = disk.sectors := commit_sectors _ _ _
  have hone1 := h.block_one_commit hsize rfl fs.superblock.sInodesCount.toNat
    (setBit i (fs.block disk fs.superblock.sInodesCount.toNat))
    (takenBlock (fs.seenDescriptor disk))
  obtain ⟨hbm1, _, _, hfree1, _⟩ := h.seen_of_super hsize hone1
  refine ⟨fun hmax => ?_, fun hmax => ?_⟩
  · refine freeBlock_fault hm hi (by omega) (by rw [hbm1]; exact ha) ?_
    rw [hfree1]
    omega
  · have hcount : (fs.seenDescriptor disk₁).bgFreeBlocksCount.toNat + 1 < 2 ^ 16 := by
      rw [hfree1]
      omega
    refine ⟨_, freeBlock_eq hm _ hi (by omega) (by rw [hbm1]; exact ha) hcount, ?_⟩
    rw [hbm1]
    by_cases heq : fs.blockBitmapBlock disk = fs.superblock.sInodesCount.toNat
    · -- the stray block is the bitmap itself
      rw [← heq] at hfirst
      have hblock1 : fs.block disk₁ (fs.blockBitmapBlock disk)
          = setBit i (fs.block disk (fs.blockBitmapBlock disk)) := by
        rw [show disk₁ = fs.commit disk (fs.blockBitmapBlock disk)
          (setBit i (fs.block disk (fs.blockBitmapBlock disk)))
          (takenBlock (fs.seenDescriptor disk)) by rw [heq]]
        exact block_commit_bitmap_1024 hm hsize htab _ (by omega) hon
          fun k hk => setBit_block_ge (by omega) hk
      rw [← heq, hblock1, clearBit_setBit hfirst.isClear]
      exact block_commit_bitmap_1024 hm hsize htab _ (by omega)
        ((onDisk_congr hsec1 _).2 hon) fun k hk => block_apply_ge hk
    · rw [block_commit_ne_1024 hm hsize htab _ _ heq (by omega),
        block_commit_ne_1024 hm hsize htab _ _ heq (by omega)]
      rfl

theorem allocBlockContract_1024 (h : GroupZero fs disk) (hok : BlockBitmapOk fs disk)
    (hsize : fs.blockSize = 1024) : fs.AllocBlockContract disk ↔ fs.AllocBlockCondition disk := by
  have hm := h.mountable
  have hbpg := h.blocks
  obtain ⟨hfd, _⟩ := h.table_1024 hsize
  obtain ⟨hbm, _, htable⟩ := h.seen_of_1024 hsize
  have hstart : fs.searchStart disk = fs.straySearchStart := by
    rw [searchStart, htable, straySearchStart]
  rw [AllocBlockCondition, or_iff_right (h.firstDataBlock_ne_zero hsize)]
  have hcases := fun ha => allocBlock_cases hm disk ha (by omega)
  have hfault := @allocBlock_fault fs disk hm
  rw [hbm] at hcases hfault
  rw [hstart] at hcases
  refine (TakesFirst.allocates_iff hfault hcases).trans (and_congr_right fun ha =>
    forall₂_congr fun i hfirst => ?_)
  have hup := hfirst.upper
  have hpos : i ≠ 0 := by
    have hlow := hfirst.lower
    have hres := h.reserved
    have hfits := h.fits
    have hlba := h.lba
    have htend := h.inodeTable
    have hgt := h.descriptorTableEnd_gt
    have hslot := h.inodeBlockIn_lt 0 (by omega) h.inodes.1
    rw [hsize] at hfits
    rw [straySearchStart] at hlow
    omega
  obtain ⟨hover, hrestore⟩ := h.freeBlock_1024 hsize ha hfirst hpos
  refine ⟨fun ⟨_, _, hclear, _, disk₂, hfree, _⟩ => ?_, fun ⟨hclear, hmax⟩ => ?_⟩
  · rw [hfd] at hclear
    refine ⟨hclear, fun hmax => ?_⟩
    rw [hover hmax] at hfree
    cases hfree
  · rw [← hfd] at hclear
    obtain ⟨hlt, hmeta⟩ := hok.free (by omega) (by omega) hclear
    exact ⟨hlt, by omega, hclear, hmeta, hrestore hmax⟩

/-- `alloc_block` meets its contract exactly under `AllocBlockCondition`. -/
theorem allocBlockContract_iff (h : GroupZero fs disk) (hok : BlockBitmapOk fs disk) :
    fs.AllocBlockContract disk ↔ fs.AllocBlockCondition disk := by
  by_cases hsize : fs.blockSize = 1024
  · exact allocBlockContract_1024 h hok hsize
  · have hfd : fs.superblock.sFirstDataBlock = 0 := UInt32.toNat_inj.1 (h.table_large hsize).1
    exact ⟨fun _ => .inl hfd, fun _ => allocBlockContract_large h hok hsize⟩

theorem allocBlockContract_iff_small : (smallVolume 2048).AllocBlockContract (smallDisk 2048) ↔
      (smallVolume 2048).AllocBlockCondition (smallDisk 2048) :=
  allocBlockContract_iff (smallVolume_groupZero (.inr rfl)) (smallVolume_blockBitmapOk (.inr rfl))

/-- On a volume with blocks of 1024 bytes, `alloc_block` hands out the
descriptor table. -/
theorem allocBlock_small_metadata : GroupZero (smallVolume 1024) (smallDisk 1024) ∧
      BlockBitmapOk (smallVolume 1024) (smallDisk 1024) ∧
      (smallVolume 1024).IsMetadata (smallDisk 1024) 2 ∧
      (∃ disk₁, (smallVolume 1024).allocBlock (smallDisk 1024) = .ok (some 2, disk₁)) ∧
      ¬ (smallVolume 1024).AllocBlockContract (smallDisk 1024) := by
  have hrun : (((smallVolume 1024).allocBlock (smallDisk 1024)).map Prod.fst).toOption
      = some (some 2) := by decide +kernel
  have hmeta : (smallVolume 1024).IsMetadata (smallDisk 1024) 2 := by decide +kernel
  obtain ⟨⟨_, disk₁⟩, hrun, rfl⟩ := Res.of_toOption hrun
  refine ⟨smallVolume_groupZero (.inl rfl), smallVolume_blockBitmapOk (.inl rfl), hmeta,
    ⟨disk₁, hrun⟩, ?_⟩
  rintro ⟨r, disk', hrun', hcontract⟩
  cases hrun.symm.trans hrun'
  exact (hcontract 2 rfl).2.2.2.1 hmeta

end Ext2

end Felix
