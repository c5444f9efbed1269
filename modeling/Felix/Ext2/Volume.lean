import Mathlib.Logic.Function.Basic
import Mathlib.Tactic.Simps.Basic
import Felix.Ext2.GroupZero

/-!
# Volumes and their contents

`Vol` is what a volume holds, without its layout: the inodes, the data blocks
and the two bitmaps of group 0.  `Volume fs g disk` says that the disk holds
such a volume where the driver looks for it: the geometry `g` gives the places
of the bitmaps and of the inode tables, all parts lie on the device, no two
of them overlap, and a block that the driver can allocate is a data block.
`view` reads the contents off the disk.

The theorems of this module are the specifications of the eight primitive
operations.  Each says that the operation succeeds, that the disk afterwards
holds a volume of the same geometry, and what changed in the view.  The
modules above compute with views and do not look at the disk again.

The geometry is the one that the driver sees.  With blocks of 2048 or 4096
bytes it is the ext2 layout of the volume, which is `volume_of_groupZero`.
-/

namespace Felix

open Bytes Function Res Nat

/-- Where the parts of a volume lie. -/
structure Geometry where
  sectors : Nat
  blockMap : Nat
  inodeMap : Nat
  table : Nat → Nat

/-- What a volume holds. -/
structure Vol where
  inode : Nat → Ext2Inode
  block : Nat → Bytes
  blockMap : Bytes
  inodeMap : Bytes

namespace Vol

@[simps -fullyApplied block blockMap inodeMap]
def setInode (v : Vol) (n : Nat) (inode : Ext2Inode) : Vol :=
  { v with inode := update v.inode n inode }

@[simps -fullyApplied inode blockMap inodeMap]
def setBlock (v : Vol) (b : Nat) (f : Bytes) : Vol :=
  { v with block := update v.block b f }

@[simps -fullyApplied]
def takeBlock (v : Vol) (b : Nat) : Vol := { v with blockMap := setBit b v.blockMap }

@[simps -fullyApplied]
def giveBlock (v : Vol) (b : Nat) : Vol := { v with blockMap := clearBit b v.blockMap }

@[simps -fullyApplied]
def takeInode (v : Vol) (i : Nat) : Vol := { v with inodeMap := setBit i v.inodeMap }

@[simps -fullyApplied]
def giveInode (v : Vol) (i : Nat) : Vol := { v with inodeMap := clearBit i v.inodeMap }

variable (v : Vol) (n b i : Nat) (inode : Ext2Inode) (f : Bytes)

@[simp] theorem setInode_inode_self : (v.setInode n inode).inode n = inode :=
  update_self ..

theorem setInode_inode_ne {m : Nat} (h : m ≠ n) : (v.setInode n inode).inode m = v.inode m :=
  update_of_ne h ..

@[simp] theorem setBlock_block_self : (v.setBlock b f).block b = f := update_self ..

theorem setBlock_block_ne {c : Nat} (h : c ≠ b) : (v.setBlock b f).block c = v.block c :=
  update_of_ne h ..

theorem setBlock_setBlock (f' : Bytes) : (v.setBlock b f).setBlock b f' = v.setBlock b f' := by
  unfold setBlock
  rw [update_idem]

end Vol

namespace Ext2

/-! ## The places -/

section

variable (fs : Ext2) (g : Geometry)

/-- The inode numbers of the volume. -/
def ValidInode (n : Nat) : Prop := 1 ≤ n ∧ n ≤ fs.superblock.sInodesCount.toNat

/-- The groups that hold inodes of the volume. -/
def ValidGroup (group : Nat) : Prop :=
  group * fs.superblock.sInodesPerGroup.toNat < fs.superblock.sInodesCount.toNat

/-- The block of the descriptor of a group. -/
def descBlock (group : Nat) : Nat := fs.bgdTableBlock + group / (fs.blockSize / 32)

/-- The offset of the descriptor of a group. -/
def descOffset (group : Nat) : Nat := group % (fs.blockSize / 32) * 32

/-- The descriptor of a group. -/
def descAt (disk : Disk) (group : Nat) : Ext2BlockGroupDescriptor :=
  Packed.decode (shift (fs.descOffset group) (fs.block disk (fs.descBlock group)))

/-- The group of an inode. -/
def inodeGroup (n : Nat) : Nat := (n - 1) / fs.superblock.sInodesPerGroup.toNat

/-- The offset of an inode in the table of its group. -/
def inodeStart (n : Nat) : Nat :=
  (n - 1) % fs.superblock.sInodesPerGroup.toNat * fs.superblock.sInodeSize.toNat

/-- The block of an inode. -/
def slotBlock (n : Nat) : Nat := g.table (fs.inodeGroup n) + fs.inodeStart n / fs.blockSize

/-- The offset of an inode in its block. -/
def slotOffset (n : Nat) : Nat := fs.inodeStart n % fs.blockSize

/-- A block on the device, other than the first. -/
def Present (b : Nat) : Prop :=
  1 ≤ b ∧ fs.Addressable b ∧ fs.blockLba b + fs.blockSize / 512 ≤ g.sectors

/-- A block of the descriptor table. -/
def IsDesc (b : Nat) : Prop := ∃ group, fs.ValidGroup group ∧ b = fs.descBlock group

/-- A block of the inode table of a group. -/
def InTableOf (group b : Nat) : Prop :=
  g.table group ≤ b ∧ b < g.table group + fs.inodeTableSizeInBlocks

/-- A block of an inode table. -/
def InTable (b : Nat) : Prop := ∃ group, fs.ValidGroup group ∧ fs.InTableOf g group b

/-- A block that can hold the data of a file. -/
structure DataBlock (b : Nat) : Prop where
  present : fs.Present g b
  notDesc : ¬ fs.IsDesc b
  notBlockMap : b ≠ g.blockMap
  notInodeMap : b ≠ g.inodeMap
  notTable : ¬ fs.InTable g b

/-- Where `alloc_block` starts to search. -/
def dataStart : Nat := (g.table 0 + fs.inodeTableSizeInBlocks) % 2 ^ 32

/-- The parts of the volume are in place and apart from each other. -/
structure Sound : Prop where
  mountable : fs.Mountable
  firstTable : fs.blockSize = 1024 → fs.bgdTableBlock = 1
  inodeSize : 128 ≤ fs.superblock.sInodeSize.toNat ∧
    fs.superblock.sInodeSize.toNat ∣ fs.blockSize
  inodes : 0 < fs.superblock.sInodesPerGroup.toNat ∧
    fs.superblock.sInodesPerGroup.toNat ≤ 8 * fs.blockSize ∧
    fs.superblock.sInodesPerGroup.toNat ≤ fs.superblock.sInodesCount.toNat
  blocks : fs.superblock.sBlocksPerGroup.toNat ≤ 8 * fs.blockSize
  desc : ∀ b, fs.IsDesc b → fs.Present g b
  blockMap : fs.Present g g.blockMap ∧ ¬ fs.IsDesc g.blockMap ∧ ¬ fs.InTable g g.blockMap
  inodeMap : fs.Present g g.inodeMap ∧ ¬ fs.IsDesc g.inodeMap ∧ ¬ fs.InTable g g.inodeMap
  mapsApart : g.blockMap ≠ g.inodeMap
  tables : ∀ b, fs.InTable g b → fs.Present g b ∧ ¬ fs.IsDesc b
  tablesApart : ∀ group group' b, fs.ValidGroup group → fs.ValidGroup group' →
    fs.InTableOf g group b → fs.InTableOf g group' b → group = group'

/-- The driver finds the parts of the volume where the geometry puts them. -/
structure Placed (disk : Disk) : Prop where
  sound : fs.Sound g
  sectors : disk.sectors = g.sectors
  super : fs.blockSize = 1024 →
    ∀ k, k < 1024 → fs.block disk 1 k = fs.superblock.encode k
  maps : fs.seenBlockBitmap disk = g.blockMap ∧ fs.seenInodeBitmap disk = g.inodeMap
  tables : ∀ group, fs.ValidGroup group →
    (fs.descAt disk group).bgInodeTable.toNat = g.table group

/-- The disk holds a volume of geometry `g`: the counters do not overflow, and
the clear bits of the block bitmap are data blocks. -/
structure Volume (disk : Disk) : Prop extends fs.Placed g disk where
  freeBlocks : fs.blockSize ≠ 1024 →
    (fs.seenDescriptor disk).bgFreeBlocksCount.toNat
      ≤ clearCount (fs.block disk g.blockMap) 0 (8 * fs.blockSize)
  freeBlocks1024 : fs.blockSize = 1024 →
    fs.superblock.sFreeBlocksCount.toNat % 2 ^ 16 ≠ 65535
  freeInodes : (fs.seenDescriptor disk).bgFreeInodesCount.toNat + 1 < 2 ^ 16
  free : ∀ b, fs.dataStart g ≤ b → b < fs.superblock.sBlocksPerGroup.toNat →
    bit (fs.block disk g.blockMap) b = false → fs.DataBlock g b

open Classical in
/-- The contents of a volume. -/
noncomputable def view (disk : Disk) : Vol where
  inode n :=
    if fs.ValidInode n then
      Packed.decode (shift (fs.slotOffset n) (fs.block disk (fs.slotBlock g n)))
    else .zeroed
  block b := if fs.DataBlock g b then fs.block disk b else fun _ => 0
  blockMap := fs.block disk g.blockMap
  inodeMap := fs.block disk g.inodeMap

/-- The disk holds a volume with these contents. -/
structure Shows (disk : Disk) (v : Vol) : Prop extends fs.Volume g disk where
  view : fs.view g disk = v

end

variable {fs : Ext2} {g : Geometry} {disk disk' : Disk} {b n group bm : Nat} {f : Bytes}
  {bgd : Ext2BlockGroupDescriptor} {v : Vol}

/-! ## Slots -/

theorem bgdTableBlock_pos : 1 ≤ fs.bgdTableBlock := by
  rw [bgdTableBlock]
  split
  · exact Nat.le_refl 1
  rename_i hne
  rcases Nat.eq_zero_or_pos fs.superblock.sFirstDataBlock.toNat with hz | hpos
  · exact absurd (UInt32.toNat_inj.1 hz) hne
  · exact hpos

theorem Present.onDisk (hsec : disk.sectors = g.sectors) (h : fs.Present g b) :
    fs.OnDisk disk b := by
  rw [OnDisk, hsec]
  exact h.2.2

theorem Present.lt (hsize : fs.GoodSize) (h : fs.Present g b) : b < 2 ^ 32 :=
  h.2.1.lt hsize

theorem descBlock_zero : fs.descBlock 0 = fs.bgdTableBlock := by
  rw [descBlock, Nat.zero_div, Nat.add_zero]

namespace Sound

theorem validGroup_zero (h : fs.Sound g) : fs.ValidGroup 0 := by
  have hipg := h.inodes
  rw [ValidGroup]
  omega

theorem validGroup (_ : fs.Sound g) (hn : fs.ValidInode n) : fs.ValidGroup (fs.inodeGroup n) := by
  have hdiv := div_mul_le_self (n - 1) fs.superblock.sInodesPerGroup.toNat
  obtain ⟨hlo, hhi⟩ := hn
  rw [ValidGroup, inodeGroup]
  omega

theorem isDesc_table (h : fs.Sound g) : fs.IsDesc fs.bgdTableBlock :=
  ⟨0, h.validGroup_zero, descBlock_zero.symm⟩

theorem slotOffset_le (h : fs.Sound g) (n : Nat) : fs.slotOffset n + 128 ≤ fs.blockSize :=
  slot_le h.mountable.size h.inodeSize _

theorem inTableOf_slot (h : fs.Sound g) (n : Nat) :
    fs.InTableOf g (fs.inodeGroup n) (fs.slotBlock g n) := by
  refine ⟨Nat.le_add_right _ _, Nat.add_lt_add_left ?_ _⟩
  exact slot_lt_table h.mountable.size h.inodeSize.1 (mod_lt (n - 1) h.inodes.1)

theorem inTable_slot (h : fs.Sound g) (hn : fs.ValidInode n) : fs.InTable g (fs.slotBlock g n) :=
  ⟨_, h.validGroup hn, h.inTableOf_slot n⟩

/-- Two inodes of the volume lie in different blocks or apart in one. -/
theorem slots_apart (h : fs.Sound g) {m : Nat} (hn : fs.ValidInode n)
    (hm : fs.ValidInode m) (hne : n ≠ m) :
    fs.slotBlock g n ≠ fs.slotBlock g m ∨ fs.slotOffset n + 128 ≤ fs.slotOffset m ∨
      fs.slotOffset m + 128 ≤ fs.slotOffset n := by
  by_cases hblock : fs.slotBlock g n = fs.slotBlock g m
  swap
  · exact .inl hblock
  right
  have hgroup : fs.inodeGroup n = fs.inodeGroup m := by
    refine h.tablesApart _ _ (fs.slotBlock g n) (h.validGroup hn) (h.validGroup hm)
      (h.inTableOf_slot n) ?_
    rw [hblock]
    exact h.inTableOf_slot m
  have hquot : fs.inodeStart n / fs.blockSize = fs.inodeStart m / fs.blockSize := by
    rw [slotBlock, slotBlock, hgroup] at hblock
    omega
  have hindex : (n - 1) % fs.superblock.sInodesPerGroup.toNat
      ≠ (m - 1) % fs.superblock.sInodesPerGroup.toNat := by
    intro heq
    have hn1 := div_add_mod (n - 1) fs.superblock.sInodesPerGroup.toNat
    have hm1 := div_add_mod (m - 1) fs.superblock.sInodesPerGroup.toNat
    rw [inodeGroup, inodeGroup] at hgroup
    rw [hgroup, heq] at hn1
    obtain ⟨hn0, _⟩ := hn
    obtain ⟨hm0, _⟩ := hm
    omega
  have hlo := h.inodeSize.1
  have hdn := div_add_mod (fs.inodeStart n) fs.blockSize
  have hdm := div_add_mod (fs.inodeStart m) fs.blockSize
  rw [hquot] at hdn
  have hstep : ∀ i j : Nat, i < j →
      i * fs.superblock.sInodeSize.toNat + 128 ≤ j * fs.superblock.sInodeSize.toNat := by
    intro i j hij
    have hmul := Nat.mul_le_mul_right fs.superblock.sInodeSize.toNat (succ_le_of_lt hij)
    rw [succ_mul] at hmul
    omega
  rw [slotOffset, slotOffset]
  rcases Nat.lt_or_gt_of_ne hindex with hlt | hlt
  · have hs := hstep _ _ hlt
    rw [← inodeStart, ← inodeStart] at hs
    omega
  have hs := hstep _ _ hlt
  rw [← inodeStart, ← inodeStart] at hs
  omega

end Sound

/-! ## Reading -/

theorem bgdSlot_eq (h : fs.Sound g) (hgroup : fs.ValidGroup group) :
    fs.bgdSlot group = .ok (fs.descBlock group, fs.descOffset group) ∧
      fs.descOffset group + 32 ≤ fs.blockSize := by
  have hsize := h.mountable.size.bounds
  have hpos : 0 < fs.blockSize / 32 := by omega
  have hlt : fs.bgdTableBlock + group / (fs.blockSize / 32) < 2 ^ 32 :=
    (h.desc _ ⟨group, hgroup, rfl⟩).lt h.mountable.size
  have hmod := mod_lt group hpos
  have hoff : group % (fs.blockSize / 32) * 32 < 2 ^ 32 := by omega
  refine ⟨?_, ?_⟩
  · simp only [bgdSlot, divW_ok hpos, modW_ok hpos, addW_ok hlt, mulW_ok hoff, ok_bind]
    rfl
  · rw [descOffset]
    omega

theorem view_inode (hn : fs.ValidInode n) : (fs.view g disk).inode n
      = Packed.decode (shift (fs.slotOffset n) (fs.block disk (fs.slotBlock g n))) := if_pos hn

theorem view_block (hb : fs.DataBlock g b) : (fs.view g disk).block b = fs.block disk b := if_pos hb

namespace Placed

variable (h : fs.Placed g disk)
include h

theorem getBgDescriptor_eq (hgroup : fs.ValidGroup group) :
    fs.getBgDescriptor disk group = .ok (fs.descAt disk group) := by
  have hm := h.sound.mountable
  have hsize := hm.size.bounds
  obtain ⟨hslot, hoff⟩ := bgdSlot_eq h.sound hgroup
  rw [getBgDescriptor, if_neg (by simp [hm.mounted]), hslot, ok_bind]
  simp only []
  rw [readStruct_eq hm.size (h.sound.desc _ ⟨group, hgroup, rfl⟩).2.1
    (by rw [Ext2BlockGroupDescriptor.size_eq]; omega)]
  rfl

theorem inodeSlot_eq (hn : fs.ValidInode n) :
    fs.inodeSlot disk n = .ok (fs.slotBlock g n, fs.slotOffset n) := by
  have hsize := h.sound.mountable.size.bounds
  have hpos : 0 < fs.blockSize := by omega
  have hipg := h.sound.inodes.1
  have hgroup := h.sound.validGroup hn
  have hdesc : fs.getBgDescriptor disk ((n - 1) / fs.superblock.sInodesPerGroup.toNat)
      = .ok (fs.descAt disk (fs.inodeGroup n)) := h.getBgDescriptor_eq hgroup
  have hlt := (h.sound.tables _ (h.sound.inTable_slot hn)).1.lt h.sound.mountable.size
  have hslot : fs.slotBlock g n = g.table (fs.inodeGroup n)
      + (n - 1) % fs.superblock.sInodesPerGroup.toNat * fs.superblock.sInodeSize.toNat
        / fs.blockSize := rfl
  rw [hslot] at hlt
  have hmod : (n - 1) % fs.superblock.sInodesPerGroup.toNat * fs.superblock.sInodeSize.toNat
        / fs.blockSize % 2 ^ 32
      = (n - 1) % fs.superblock.sInodesPerGroup.toNat * fs.superblock.sInodeSize.toNat
        / fs.blockSize := mod_eq_of_lt (by omega)
  simp only [inodeSlot, divW_ok hipg, modW_ok hipg, divW_ok hpos, modW_ok hpos, ok_bind,
    hdesc, h.tables _ hgroup, hmod, addW_ok hlt]
  rfl

theorem present_slot (hn : fs.ValidInode n) :
    fs.Present g (fs.slotBlock g n) := (h.sound.tables _ (h.sound.inTable_slot hn)).1

theorem readInode_eq (hn : fs.ValidInode n) :
    fs.readInode disk n = .ok ((fs.view g disk).inode n) := by
  have hm := h.sound.mountable
  have hsize := hm.size.bounds
  have hoff := h.sound.slotOffset_le n
  rw [readInode, if_neg (hm.not_barred hn.1), h.inodeSlot_eq hn, ok_bind]
  simp only []
  rw [readStruct_eq hm.size (h.present_slot hn).2.1 (by rw [Ext2Inode.size_eq]; omega),
    view_inode hn]

theorem readBlock_eq {cap : Nat} (hb : fs.DataBlock g b) (hcap : fs.blockSize ≤ cap) :
    fs.readBlocks disk b (.zeroed cap) 1 = .ok ⟨cap, (fs.view g disk).block b⟩ := by
  rw [readBlocks_zeroed h.sound.mountable.size.power hb.present.2.1 hcap, view_block hb]

end Placed

/-! ## Writing blocks and inodes -/

/-- The descriptors are unchanged when their blocks are. -/
theorem descAt_congr
    (h : fs.block disk' (fs.descBlock group) = fs.block disk (fs.descBlock group)) :
    fs.descAt disk' group = fs.descAt disk group := by
  rw [descAt, descAt, h]

theorem seenDescriptor_congr
    (h : fs.block disk' fs.bgdTableBlock = fs.block disk fs.bgdTableBlock) :
    fs.seenDescriptor disk' = fs.seenDescriptor disk := by
  rw [seenDescriptor, seenDescriptor, h]

theorem decode_inode_self {off bs : Nat} (hoff : off + 128 ≤ bs) (inode : Ext2Inode)
    (f : Bytes) : Packed.decode (shift off (cut bs (splice off 128 inode.encode f))) = inode := by
  rw [← Packed.decode_encode inode]
  refine Packed.decode_congr fun k hk => ?_
  rw [Ext2Inode.size_eq] at hk
  rw [shift_apply, cut_apply (by omega), splice_apply_in (by omega) (by omega),
    Nat.add_sub_cancel_left, Packed.decode_encode]
  rfl

theorem decode_inode_ne {off off' bs : Nat} (hoff : off + 128 ≤ bs)
    (hapart : off + 128 ≤ off' ∨ off' + 128 ≤ off) (h f : Bytes) :
    (Packed.decode (shift off (cut bs (splice off' 128 h f))) : Ext2Inode)
      = Packed.decode (shift off f) := by
  refine Packed.decode_congr fun k hk => ?_
  rw [Ext2Inode.size_eq] at hk
  rw [shift_apply, cut_apply (by omega), splice_apply_out (by omega), shift_apply]

/-- `write_inode` of an inode, on a disk with any counters. -/
theorem Placed.writeInode_eq (h : fs.Placed g disk) (hn : fs.ValidInode n) (inode : Ext2Inode) :
    ∃ disk', fs.writeInode disk n inode = .ok disk' ∧ disk'.sectors = disk.sectors ∧
      (∀ b, fs.IsDesc b → fs.block disk' b = fs.block disk b) ∧
      fs.block disk' g.blockMap = fs.block disk g.blockMap ∧
      fs.view g disk' = (fs.view g disk).setInode n inode := by
  have hm := h.sound.mountable
  have hsize := hm.size.bounds
  have hoff := h.sound.slotOffset_le n
  have htab := h.sound.inTable_slot hn
  obtain ⟨hpres, hnotDesc⟩ := h.sound.tables _ htab
  have hon := hpres.onDisk h.sectors
  have hblock := block_setBlock_cut hm.size hon
  have hmap : ∀ b, ¬ fs.InTable g b → b ≠ fs.slotBlock g n := by
    intro b hb heq
    refine hb ?_
    rw [heq]
    exact htab
  refine ⟨fs.setBlock disk (fs.slotBlock g n)
    (splice (fs.slotOffset n) 128 inode.encode (fs.block disk (fs.slotBlock g n))), ?_,
    setBlock_sectors _ _, fun c hc => ?_, ?_, ?_⟩
  · rw [writeInode, if_neg (hm.not_barred hn.1), h.inodeSlot_eq hn, ok_bind]
    simp only []
    rw [writeStruct_eq hm.size hpres.2.1 (by rw [Ext2Inode.size_eq]; omega)]
    rfl
  · rw [hblock, if_neg]
    intro heq
    rw [heq] at hc
    exact hnotDesc hc
  · rw [hblock, if_neg (hmap _ h.sound.blockMap.2.2)]
  · simp only [view, Vol.setInode, Vol.mk.injEq]
    refine ⟨funext fun m => ?_, funext fun c => ?_, ?_, ?_⟩
    · by_cases hmn : m = n
      · subst hmn
        rw [update_self, if_pos hn, hblock, if_pos rfl]
        exact decode_inode_self hoff inode _
      · rw [update_of_ne hmn]
        by_cases hm' : fs.ValidInode m
        swap
        · rw [if_neg hm', if_neg hm']
        have hoff' := h.sound.slotOffset_le m
        rw [if_pos hm', hblock]
        split
        · rename_i hsame
          rcases h.sound.slots_apart hm' hn hmn with hne | hapart
          · exact absurd hsame hne
          · rw [hsame]
            exact decode_inode_ne hoff' hapart _ _
        · rfl
    · by_cases hc : fs.DataBlock g c
      · rw [if_pos hc, if_pos hc, hblock, if_neg (hmap c hc.notTable)]
      · rw [if_neg hc, if_neg hc]
    · rw [hblock, if_neg (hmap _ h.sound.blockMap.2.2)]
    · rw [hblock, if_neg (hmap _ h.sound.inodeMap.2.2)]

/-- A write that leaves the descriptors and the block bitmap alone keeps the
volume. -/
theorem Volume.of_frame (h : fs.Volume g disk) (hsec : disk'.sectors = disk.sectors)
    (hdesc : ∀ b, fs.IsDesc b → fs.block disk' b = fs.block disk b)
    (hmap : fs.block disk' g.blockMap = fs.block disk g.blockMap) : fs.Volume g disk' := by
  have hseen := seenDescriptor_congr (hdesc _ h.sound.isDesc_table)
  refine ⟨⟨h.sound, hsec.trans h.sectors, fun h1024 k hk => ?_, ?_, fun group hgroup => ?_⟩,
    fun h1024 => ?_, h.freeBlocks1024, ?_, fun b hlo hhi hb => ?_⟩
  · have htab := h.sound.isDesc_table
    rw [h.sound.firstTable h1024] at htab
    rw [hdesc 1 htab]
    exact h.super h1024 k hk
  · rw [seenBlockBitmap, seenInodeBitmap, hseen]
    exact h.maps
  · rw [descAt_congr (hdesc _ ⟨group, hgroup, rfl⟩)]
    exact h.tables group hgroup
  · rw [hseen, hmap]
    exact h.freeBlocks h1024
  · rw [hseen]
    exact h.freeInodes
  · rw [hmap] at hb
    exact h.free b hlo hhi hb

theorem Volume.shows (h : fs.Volume g disk) : fs.Shows g disk (fs.view g disk) := ⟨h, rfl⟩

namespace Shows

theorem readInode_eq (h : fs.Shows g disk v) (hn : fs.ValidInode n) :
    fs.readInode disk n = .ok (v.inode n) := by
  rw [h.toPlaced.readInode_eq hn, h.view]

theorem readBlock_eq (h : fs.Shows g disk v) {cap : Nat} (hb : fs.DataBlock g b)
    (hcap : fs.blockSize ≤ cap) : fs.readBlocks disk b (.zeroed cap) 1 = .ok ⟨cap, v.block b⟩ := by
  rw [h.toPlaced.readBlock_eq hb hcap, h.view]

theorem writeBlock_eq (h : fs.Shows g disk v) (hb : fs.DataBlock g b) (f : Bytes) :
    ∃ disk', fs.writeBlocks disk b f 1 = .ok disk' ∧
      fs.Shows g disk' (v.setBlock b (cut fs.blockSize f)) := by
  obtain ⟨h, rfl⟩ := h
  have hsize := h.sound.mountable.size
  have hon := hb.present.onDisk h.sectors
  have hblock := block_setBlock_cut hsize hon
  refine ⟨fs.setBlock disk b f, writeBlocks_eq hsize hb.present.2.1 f, ?_, ?_⟩
  · refine h.of_frame (setBlock_sectors b f) (fun c hc => ?_) ?_
    · rw [hblock, if_neg]
      intro heq
      rw [heq] at hc
      exact hb.notDesc hc
    · rw [hblock, if_neg (Ne.symm hb.notBlockMap)]
  · simp only [Ext2.view, Vol.setBlock, Vol.mk.injEq]
    refine ⟨funext fun n => ?_, funext fun c => ?_, ?_, ?_⟩
    · by_cases hn : fs.ValidInode n
      · rw [if_pos hn, if_pos hn, hblock, if_neg]
        intro heq
        refine hb.notTable ?_
        rw [← heq]
        exact h.sound.inTable_slot hn
      · rw [if_neg hn, if_neg hn]
    · by_cases hc : c = b
      · subst hc
        rw [update_self, if_pos hb, hblock, if_pos rfl]
      · rw [update_of_ne hc, hblock, if_neg hc]
    · rw [hblock, if_neg (Ne.symm hb.notBlockMap)]
    · rw [hblock, if_neg (Ne.symm hb.notInodeMap)]

theorem writeInode_eq (h : fs.Shows g disk v) (hn : fs.ValidInode n) (inode : Ext2Inode) :
    ∃ disk', fs.writeInode disk n inode = .ok disk' ∧
      fs.Shows g disk' (v.setInode n inode) := by
  obtain ⟨disk', hwrite, hsec, hdesc, hmap, hview⟩ := h.toPlaced.writeInode_eq hn inode
  rw [h.view] at hview
  exact ⟨disk', hwrite, h.of_frame hsec hdesc hmap, hview⟩

end Shows

/-! ## Allocating and freeing -/

/-- The allocator does not hand the block out. -/
def Marked (fs : Ext2) (v : Vol) (g : Geometry) (b : Nat) : Prop :=
  fs.dataStart g ≤ b → b < fs.superblock.sBlocksPerGroup.toNat → bit v.blockMap b = true

/-- How many blocks the allocator can still hand out. -/
def freeBlocks (fs : Ext2) (v : Vol) (g : Geometry) : Nat :=
  clearCount v.blockMap (fs.dataStart g) fs.superblock.sBlocksPerGroup.toNat

theorem Marked.of_ne {c : Nat} (h : fs.Marked v g c) : fs.Marked (v.takeBlock b) g c := by
  intro hlo hhi
  rw [Vol.takeBlock_blockMap, bit_setBit, h hlo hhi, Bool.true_or]

theorem marked_takeBlock (b : Nat) : fs.Marked (v.takeBlock b) g b := by
  intro _ _
  rw [Vol.takeBlock_blockMap, bit_setBit_self]

/-- What a commit of a bitmap changes on a volume. -/
structure Committed (fs : Ext2) (g : Geometry) (disk disk' : Disk) (bm : Nat) (f : Bytes)
    (bgd : Ext2BlockGroupDescriptor) : Prop where
  sectors : disk'.sectors = disk.sectors
  map : fs.block disk' bm = f
  others : ∀ b, fs.Present g b → ¬ fs.IsDesc b → b ≠ bm → fs.block disk' b = fs.block disk b
  super : fs.blockSize = 1024 → ∀ k, k < 1024 → fs.block disk' 1 k = fs.superblock.encode k
  seen : fs.seenDescriptor disk'
    = if fs.blockSize = 1024 then fs.seenDescriptor disk else bgd
  tables : ∀ group, fs.ValidGroup group →
    (fs.descAt disk' group).bgInodeTable = (fs.descAt disk group).bgInodeTable

theorem descAt_zero : fs.descAt disk 0 = fs.seenDescriptor disk := by
  have hshift : shift (fs.descOffset 0) (fs.block disk (fs.descBlock 0))
      = fs.block disk fs.bgdTableBlock := by
    rw [descBlock_zero, descOffset, zero_mod]
    funext k
    rw [shift_apply, Nat.zero_add]
  rw [descAt, hshift, seenDescriptor]

namespace Placed

variable (h : fs.Placed g disk)
include h

theorem committed (bgd : Ext2BlockGroupDescriptor) (hbm : fs.Present g bm) (hdesc : ¬ fs.IsDesc bm)
    (hf : ∀ k, fs.blockSize ≤ k → f k = 0)
    (htable : bgd.bgInodeTable = (fs.seenDescriptor disk).bgInodeTable) :
    Committed fs g disk (fs.commit disk bm f bgd) bm f bgd := by
  have hm := h.sound.mountable
  have hb := hm.size.bounds
  have hon := hbm.onDisk h.sectors
  have htab := h.sound.isDesc_table
  have hne : fs.bgdTableBlock ≠ bm := by
    intro heq
    rw [heq] at htab
    exact hdesc htab
  have htabOn := (h.sound.desc _ htab).onDisk h.sectors
  by_cases h1024 : fs.blockSize = 1024
  · have hone := h.sound.firstTable h1024
    rw [hone] at htabOn hne
    have hblock1 : fs.block (fs.commit disk bm f bgd) 1 = fs.block disk 1 := by
      funext k
      rw [block_commit_super hm h1024 hone f bgd htabOn]
      split
      · rename_i hk
        rw [h.super h1024 k hk]
      · rw [block_apply_ge (by omega)]
    have hothers : ∀ b, b ≠ bm → fs.block (fs.commit disk bm f bgd) b = fs.block disk b := by
      intro b hbb
      by_cases hb1 : b = 1
      · rw [hb1, hblock1]
      · exact block_commit_ne_1024 hm h1024 hone f bgd hbb hb1
    refine ⟨commit_sectors _ _ _, block_commit_bitmap_1024 hm h1024 hone bgd (Ne.symm hne) hon hf,
      fun b _ _ hbb => hothers b hbb, fun _ k hk => ?_, ?_, fun group hgroup => ?_⟩
    · rw [hblock1]
      exact h.super h1024 k hk
    · rw [if_pos h1024]
      refine seenDescriptor_congr ?_
      rw [hone, hblock1]
    · rw [descAt_congr]
      refine hothers _ ?_
      intro heq
      exact hdesc ⟨group, hgroup, heq.symm⟩
  · have hothers : ∀ b, fs.Present g b → b ≠ bm → b ≠ fs.bgdTableBlock →
        fs.block (fs.commit disk bm f bgd) b = fs.block disk b := by
      intro b hpres hbb htb
      exact block_commit_ne hm h1024 f bgd hpres.1 hbb htb
    have hseen := seenDescriptor_commit hm h1024 bm f bgd bgdTableBlock_pos htabOn
    refine ⟨commit_sectors _ _ _, block_commit_bitmap hm h1024 bgd hbm.1 hon (Ne.symm hne) hf,
      fun b hpres hd hbb => ?_, fun heq => absurd heq h1024, ?_, fun group hgroup => ?_⟩
    · refine hothers b hpres hbb ?_
      intro heq
      rw [heq] at hd
      exact hd htab
    · rw [if_neg h1024, hseen]
    · by_cases hzero : group = 0
      · rw [hzero, descAt_zero, descAt_zero, hseen, htable]
      by_cases hsame : fs.descBlock group = fs.bgdTableBlock
      · -- another descriptor in the first block of the table
        have hquot : group / (fs.blockSize / 32) = 0 := by
          rw [descBlock] at hsame
          omega
        have hlt : group < fs.blockSize / 32 := (div_eq_zero_iff_lt (by omega)).1 hquot
        have hoff : fs.descOffset group = group * 32 := by
          rw [descOffset, mod_eq_of_lt hlt]
        rw [descAt, descAt, hsame, block_commit_table hm h1024 f bgd bgdTableBlock_pos htabOn hne]
        congr 1
        refine Packed.decode_congr fun k hk => ?_
        rw [Ext2BlockGroupDescriptor.size_eq] at hk
        rw [shift_apply, cut_apply (by omega), splice_apply_out (by omega), shift_apply]
      · rw [descAt_congr]
        refine hothers _ (h.sound.desc _ ⟨group, hgroup, rfl⟩) ?_ hsame
        intro heq
        exact hdesc ⟨group, hgroup, heq.symm⟩

/-- The inodes and the data blocks do not change with a bitmap. -/
theorem view_committed (hc : Committed fs g disk disk' bm f bgd)
    (hbm : bm = g.blockMap ∨ bm = g.inodeMap) :
    (fs.view g disk').inode = (fs.view g disk).inode ∧
      (fs.view g disk').block = (fs.view g disk).block := by
  simp only [view]
  refine ⟨funext fun n => ?_, funext fun b => ?_⟩
  · by_cases hn : fs.ValidInode n
    · have htab := h.sound.inTable_slot hn
      obtain ⟨hpres, hd⟩ := h.sound.tables _ htab
      rw [if_pos hn, if_pos hn, hc.others _ hpres hd]
      rintro heq
      rw [heq] at htab
      rcases hbm with rfl | rfl
      · exact h.sound.blockMap.2.2 htab
      · exact h.sound.inodeMap.2.2 htab
    · rw [if_neg hn, if_neg hn]
  · by_cases hb : fs.DataBlock g b
    · rw [if_pos hb, if_pos hb, hc.others _ hb.present hb.notDesc]
      rcases hbm with rfl | rfl
      · exact hb.notBlockMap
      · exact hb.notInodeMap
    · rw [if_neg hb, if_neg hb]

theorem view_blockMap (hc : Committed fs g disk disk' g.blockMap f bgd) :
    fs.view g disk' = { fs.view g disk with blockMap := f } := by
  obtain ⟨hinode, hblock⟩ := h.view_committed hc (.inl rfl)
  simp only [view, Vol.mk.injEq]
  exact ⟨hinode, hblock, hc.map, hc.others _ h.sound.inodeMap.1 h.sound.inodeMap.2.1
    h.sound.mapsApart.symm⟩

theorem view_inodeMap (hc : Committed fs g disk disk' g.inodeMap f bgd) :
    fs.view g disk' = { fs.view g disk with inodeMap := f } := by
  obtain ⟨hinode, hblock⟩ := h.view_committed hc (.inr rfl)
  simp only [view, Vol.mk.injEq]
  exact ⟨hinode, hblock, hc.others _ h.sound.blockMap.1 h.sound.blockMap.2.1 h.sound.mapsApart,
    hc.map⟩

theorem of_committed (hc : Committed fs g disk disk' bm f bgd)
    (hmaps : bgd.bgBlockBitmap = (fs.seenDescriptor disk).bgBlockBitmap ∧
      bgd.bgInodeBitmap = (fs.seenDescriptor disk).bgInodeBitmap) : fs.Placed g disk' := by
  refine ⟨h.sound, hc.sectors.trans h.sectors, hc.super, ?_, fun group hgroup => ?_⟩
  · rw [seenBlockBitmap, seenInodeBitmap, hc.seen]
    split
    · exact h.maps
    · rw [hmaps.1, hmaps.2]
      exact h.maps
  · rw [hc.tables group hgroup]
    exact h.tables group hgroup

theorem seenInodeTable_eq : fs.seenInodeTable disk = g.table 0 := by
  have htable := h.tables 0 h.sound.validGroup_zero
  rw [descAt_zero] at htable
  exact htable

theorem toNat_ofNat (hb : fs.DataBlock g b) : (UInt32.ofNat b).toNat = b := by
  exact mod_eq_of_lt (hb.present.lt h.sound.mountable.size)

theorem ofNat_ne_zero (hb : fs.DataBlock g b) : UInt32.ofNat b ≠ 0 := by
  intro heq
  have hpos := hb.present.1
  rw [← h.toNat_ofNat hb, heq] at hpos
  cases hpos

end Placed

/-- A volume after a commit, apart from its counters. -/
theorem Volume.of_committed (h : fs.Volume g disk) (hc : Committed fs g disk disk' bm f bgd)
    (hmaps : bgd.bgBlockBitmap = (fs.seenDescriptor disk).bgBlockBitmap ∧
      bgd.bgInodeBitmap = (fs.seenDescriptor disk).bgInodeBitmap)
    (hblocks : fs.blockSize ≠ 1024 → bgd.bgFreeBlocksCount.toNat
      ≤ clearCount (fs.block disk' g.blockMap) 0 (8 * fs.blockSize))
    (hinodes : bgd.bgFreeInodesCount.toNat + 1 < 2 ^ 16)
    (hfree : ∀ b, fs.dataStart g ≤ b → b < fs.superblock.sBlocksPerGroup.toNat →
      bit (fs.block disk' g.blockMap) b = false → fs.DataBlock g b) : fs.Volume g disk' := by
  refine ⟨h.toPlaced.of_committed hc hmaps, fun h1024 => ?_, h.freeBlocks1024, ?_, hfree⟩
  · rw [hc.seen, if_neg h1024]
    exact hblocks h1024
  · rw [hc.seen]
    split
    · exact h.freeInodes
    · exact hinodes

namespace Shows

variable (h : fs.Shows g disk v)
include h

/-- `alloc_block` takes the first clear bit, or finds none. -/
theorem allocBlock_eq : (fs.allocBlock disk = .ok (none, disk) ∧
      ∀ b, fs.dataStart g ≤ b → b < fs.superblock.sBlocksPerGroup.toNat →
        bit v.blockMap b = true) ∨
    ∃ b disk', FirstClear v.blockMap (fs.dataStart g)
        fs.superblock.sBlocksPerGroup.toNat b ∧ fs.DataBlock g b ∧
      fs.allocBlock disk = .ok (some b, disk') ∧ fs.Shows g disk' (v.takeBlock b) := by
  obtain ⟨h, rfl⟩ := h
  have hm := h.sound.mountable
  have hb := hm.size.bounds
  have hbpg := h.sound.blocks
  have hmap := h.sound.blockMap
  have hcases := allocBlock_cases hm disk (by rw [h.maps.1]; exact hmap.1.2.1)
    (by omega)
  rw [h.maps.1, searchStart, h.seenInodeTable_eq] at hcases
  rcases hcases with hnone | ⟨b, hfirst, hsome⟩
  · exact .inl hnone
  have hlo := hfirst.lower
  have hup := hfirst.upper
  have hdata : fs.DataBlock g b := h.free b hlo hup hfirst.isClear
  have hc := h.committed (takenBlock (fs.seenDescriptor disk))
    (f := setBit b (fs.block disk g.blockMap)) hmap.1 hmap.2.1
    (fun k hk => setBit_block_ge (by omega) hk) rfl
  refine .inr ⟨b, _, hfirst, hdata, hsome, h.of_committed hc ⟨rfl, rfl⟩ (fun h1024 => ?_)
    h.freeInodes (fun c hc1 hc2 hbit => ?_), h.view_blockMap hc⟩
  · rw [hc.map]
    have hcount := clearCount_setBit 0 (8 * fs.blockSize) (Nat.zero_le b)
      (by omega) hfirst.isClear
    have hold := h.freeBlocks h1024
    have htaken : (takenBlock (fs.seenDescriptor disk)).bgFreeBlocksCount.toNat
        = (fs.seenDescriptor disk).bgFreeBlocksCount.toNat - 1 := decrement_toNat _
    omega
  · rw [hc.map, bit_setBit, Bool.or_eq_false_iff] at hbit
    exact h.free c hc1 hc2 hbit.1

/-- `alloc_block` hands out a block that was not in use. -/
theorem allocBlock_fresh :
    (fs.allocBlock disk = .ok (none, disk) ∧ fs.freeBlocks v g = 0) ∨
    ∃ b disk', fs.allocBlock disk = .ok (some b, disk') ∧ fs.DataBlock g b ∧
      ¬ fs.Marked v g b ∧ fs.Shows g disk' (v.takeBlock b) ∧
      fs.freeBlocks (v.takeBlock b) g + 1 = fs.freeBlocks v g := by
  rcases h.allocBlock_eq with ⟨hnone, hall⟩ | ⟨b, disk', hfirst, hdata, hsome, hshows⟩
  · refine .inl ⟨hnone, Nat.eq_zero_of_not_pos fun hpos => ?_⟩
    obtain ⟨i, ⟨hlo, hhi⟩, hclear⟩ := clearCount_pos.1 hpos
    rw [hall i hlo hhi] at hclear
    cases hclear
  refine .inr ⟨b, disk', hsome, hdata, fun hmarked => ?_, hshows,
    clearCount_setBit _ _ hfirst.lower hfirst.upper hfirst.isClear⟩
  have hset := hmarked hfirst.lower hfirst.upper
  rw [hfirst.isClear] at hset
  cases hset

theorem freeBlock_eq (hdata : fs.DataBlock g b)
    (hlt : b < 8 * fs.blockSize) (hset : bit v.blockMap b = true) :
    ∃ disk', fs.freeBlock disk b = .ok disk' ∧ fs.Shows g disk' (v.giveBlock b) := by
  obtain ⟨h, rfl⟩ := h
  have hm := h.sound.mountable
  have hb := hm.size.bounds
  have hmap := h.sound.blockMap
  have hpos := hdata.present.1
  change bit (fs.block disk g.blockMap) b = true at hset
  have hcleared := clearCount_clearBit 0 (8 * fs.blockSize) (Nat.zero_le b)
    hlt hset
  have hbound := clearCount_le (clearBit b (fs.block disk g.blockMap)) 0 (8 * fs.blockSize)
  have hcount : (fs.seenDescriptor disk).bgFreeBlocksCount.toNat + 1 < 2 ^ 16 := by
    by_cases h1024 : fs.blockSize = 1024
    · have hone := h.super h1024
      have htab := h.sound.firstTable h1024
      obtain ⟨_, _, _, hfb, _⟩ := decode_superblock hone
      have hmax := h.freeBlocks1024 h1024
      rw [show fs.seenDescriptor disk = Ext2BlockGroupDescriptor.decode (fs.block disk 1) by
        rw [seenDescriptor, htab]; rfl]
      omega
    · have hold := h.freeBlocks h1024
      omega
  have hfree := Ext2.freeBlock_eq hm disk (b := b) (by omega) (by omega)
    (by rw [h.maps.1]; exact hmap.1.2.1) hcount
  rw [h.maps.1] at hfree
  have hc := h.committed (givenBlock (fs.seenDescriptor disk))
    (f := clearBit b (fs.block disk g.blockMap)) hmap.1 hmap.2.1
    (clearBit_ge (fun k hk => block_apply_ge hk) hlt) rfl
  refine ⟨_, hfree, h.of_committed hc ⟨rfl, rfl⟩ (fun h1024 => ?_) h.freeInodes
    (fun c hc1 hc2 hbit => ?_), h.view_blockMap hc⟩
  · rw [hc.map]
    have hold := h.freeBlocks h1024
    change (UInt16.ofNat _).toNat ≤ _
    rw [UInt16.toNat_ofNat']
    omega
  · rw [hc.map, bit_clearBit, Bool.and_eq_false_iff, decide_eq_false_iff_not,
      Decidable.not_not] at hbit
    rcases hbit with hbit | heq
    · exact h.free c hc1 hc2 hbit
    · rw [heq]
      exact hdata

theorem allocInode_eq : (fs.allocInode disk = .ok (none, disk) ∧
      ∀ i, 12 ≤ i → i < fs.superblock.sInodesPerGroup.toNat →
        bit v.inodeMap i = true) ∨
    ∃ i disk', FirstClear v.inodeMap 12 fs.superblock.sInodesPerGroup.toNat i ∧
      fs.allocInode disk = .ok (some i, disk') ∧ fs.Shows g disk' (v.takeInode i) := by
  obtain ⟨h, rfl⟩ := h
  have hm := h.sound.mountable
  have hb := hm.size.bounds
  have hipg := h.sound.inodes
  have hmap := h.sound.inodeMap
  have hcases := allocInode_cases hm disk (by rw [h.maps.2]; exact hmap.1.2.1)
    (by omega)
  rw [h.maps.2] at hcases
  rcases hcases with hnone | ⟨i, hfirst, hsome⟩
  · exact .inl hnone
  have hup := hfirst.upper
  have hc := h.committed (takenInode (fs.seenDescriptor disk))
    (f := setBit i (fs.block disk g.inodeMap)) hmap.1 hmap.2.1
    (fun k hk => setBit_block_ge (by omega) hk) rfl
  have hblockMap := hc.others _ h.sound.blockMap.1 h.sound.blockMap.2.1 h.sound.mapsApart
  refine .inr ⟨i, _, hfirst, hsome, h.of_committed hc ⟨rfl, rfl⟩ (fun h1024 => ?_)
    (decrement_lt _) (fun c hc1 hc2 hbit => ?_), h.view_inodeMap hc⟩
  · rw [hblockMap]
    exact h.freeBlocks h1024
  · rw [hblockMap] at hbit
    exact h.free c hc1 hc2 hbit

/-- `free_inode` of an inode of group 0: bit `n - 1` is cleared, and the inode
is zeroed.  The count of free inodes may pass the number of free bits here,
because the bit that was taken is another one. -/
theorem freeInode_eq (hn : 1 ≤ n) (hn' : n ≤ fs.superblock.sInodesPerGroup.toNat) :
    ∃ disk', fs.freeInode disk n = .ok disk' ∧
      fs.view g disk' = (v.giveInode (n - 1)).setInode n .zeroed := by
  obtain ⟨h, rfl⟩ := h
  have hm := h.sound.mountable
  have hb := hm.size.bounds
  have hipg := h.sound.inodes
  have hmap := h.sound.inodeMap
  have hvalid : fs.ValidInode n := ⟨hn, by omega⟩
  have hfree := Ext2.freeInode_eq hm disk hn hn' (by omega)
    (by rw [h.maps.2]; exact hmap.1.2.1) h.freeInodes
  rw [h.maps.2] at hfree
  have hc := h.toPlaced.committed (givenInode (fs.seenDescriptor disk))
    (f := clearBit (n - 1) (fs.block disk g.inodeMap)) hmap.1 hmap.2.1
    (clearBit_ge (fun k hk => block_apply_ge hk) (by omega)) rfl
  obtain ⟨disk', hwrite, _, _, _, hview⟩ :=
    (h.toPlaced.of_committed hc ⟨rfl, rfl⟩).writeInode_eq hvalid .zeroed
  refine ⟨disk', hfree.trans hwrite, ?_⟩
  rw [hview, h.view_inodeMap hc]
  rfl

end Shows

/-! ## Volumes under the ext2 layout -/

/-- The geometry of a volume of one group. -/
def groupGeometry (fs : Ext2) (disk : Disk) : Geometry where
  sectors := disk.sectors
  blockMap := fs.blockBitmapBlock disk
  inodeMap := fs.inodeBitmapBlock disk
  table _ := fs.inodeTableBlock disk

section OneGroup

variable (h : GroupZero fs disk)
  (hone : fs.superblock.sInodesCount = fs.superblock.sInodesPerGroup)
include h

theorem present_groupZero (hpos : 1 ≤ b)
    (hb : b < fs.superblock.sBlocksCount.toNat) : fs.Present (fs.groupGeometry disk) b := by
  obtain ⟨hon, ha⟩ := h.onDisk hb
  exact ⟨hpos, ha, hon⟩

include hone

theorem validGroup_iff : fs.ValidGroup group ↔ group = 0 := by
  have hipg := h.inodes.1
  unfold ValidGroup
  rw [hone]
  refine ⟨fun hlt => ?_, fun heq => ?_⟩
  · rcases Nat.eq_zero_or_pos group with hz | hpos
    · exact hz
    · have hmul := Nat.mul_le_mul_right fs.superblock.sInodesPerGroup.toNat hpos
      omega
  · rw [heq]
    omega

theorem inTable_iff : fs.InTable (fs.groupGeometry disk) b ↔ fs.inodeTableBlock disk ≤ b ∧
      b < fs.inodeTableBlock disk + fs.inodeTableSizeInBlocks := by
  refine ⟨fun hin => ?_, fun hin => ⟨0, (validGroup_iff h hone).2 rfl, hin⟩⟩
  obtain ⟨group, _, hof⟩ := hin
  exact hof

variable (h1024 : fs.blockSize ≠ 1024)
include h1024

theorem isDesc_iff : fs.IsDesc b ↔ b = 1 := by
  have htab : fs.descBlock 0 = 1 := by
    rw [descBlock_zero]
    exact (h.table_large h1024).2
  refine ⟨fun hdesc => ?_, fun heq => ⟨0, (validGroup_iff h hone).2 rfl, ?_⟩⟩
  · obtain ⟨group, hgroup, heq⟩ := hdesc
    rw [(validGroup_iff h hone).1 hgroup] at heq
    exact heq.trans htab
  · rw [heq, htab]

theorem sound_groupZero : fs.Sound (fs.groupGeometry disk) := by
  have hgt := h.descriptorTableEnd_gt
  have hbb := h.blockBitmap
  have hib := h.inodeBitmap
  have hit := h.inodeTable
  have hdesc : ∀ b, fs.descriptorTableEnd ≤ b → ¬ fs.IsDesc b := by
    intro b hb hd
    rw [isDesc_iff h hone h1024] at hd
    omega
  refine ⟨h.mountable, fun heq => absurd heq h1024, h.inodeSize, ?_, h.blocks.2,
    fun b hb => ?_, ⟨?_, ?_, fun hin => ?_⟩, ⟨?_, ?_, fun hin => ?_⟩, Ne.symm h.bitmapsApart,
    fun b hin => ?_, fun group group' _ hg hg' _ _ => ?_⟩
  · rw [hone]
    exact ⟨h.inodes.1, h.inodes.2, Nat.le_refl _⟩
  · rw [(isDesc_iff h hone h1024).1 hb]
    exact present_groupZero h (Nat.le_refl 1) (by omega)
  · show fs.Present _ (fs.blockBitmapBlock disk)
    exact present_groupZero h (by omega) hbb.2
  · exact hdesc _ hbb.1
  · obtain ⟨hlo, hhi⟩ := (inTable_iff h hone).1 hin
    exact (h.tableApart _ hlo hhi).1 rfl
  · show fs.Present _ (fs.inodeBitmapBlock disk)
    exact present_groupZero h (by omega) hib.2
  · exact hdesc _ hib.1
  · obtain ⟨hlo, hhi⟩ := (inTable_iff h hone).1 hin
    exact (h.tableApart _ hlo hhi).2 rfl
  · obtain ⟨hlo, hhi⟩ := (inTable_iff h hone).1 hin
    exact ⟨present_groupZero h (by omega) (by omega), hdesc b (by omega)⟩
  · rw [(validGroup_iff h hone).1 hg, (validGroup_iff h hone).1 hg']

/-- A block of the volume that is no metadata can hold data. -/
theorem dataBlock_groupZero (hb : b < fs.superblock.sBlocksCount.toNat)
    (hmeta : ¬ fs.IsMetadata disk b) : fs.DataBlock (fs.groupGeometry disk) b := by
  obtain ⟨hfirst, htab, hbb, hib, hit⟩ :
      b ≠ fs.superblock.sFirstDataBlock.toNat ∧
      ¬ (fs.superblock.sFirstDataBlock.toNat + 1 ≤ b ∧ b < fs.descriptorTableEnd) ∧
      b ≠ fs.blockBitmapBlock disk ∧ b ≠ fs.inodeBitmapBlock disk ∧
      ¬ (fs.inodeTableBlock disk ≤ b ∧
        b < fs.inodeTableBlock disk + fs.inodeTableSizeInBlocks) := by
    simpa only [IsMetadata, not_or] using hmeta
  have hgt := h.descriptorTableEnd_gt
  rw [(h.table_large h1024).1] at hfirst htab
  refine ⟨present_groupZero h (by omega) hb, fun hdesc => ?_, hbb, hib, fun hin => ?_⟩
  · rw [isDesc_iff h hone h1024] at hdesc
    omega
  · exact hit ((inTable_iff h hone).1 hin)

/-- A volume of one group that is well formed under the ext2 layout is a
volume for the driver, when its blocks are not of 1024 bytes. -/
theorem volume_of_groupZero (hok : BlockBitmapOk fs disk)
    (hblocks : (fs.layoutDescriptor disk).bgFreeBlocksCount.toNat
      ≤ clearCount (fs.blockBitmap disk) 0 (8 * fs.blockSize))
    (hinodes : (fs.layoutDescriptor disk).bgFreeInodesCount.toNat
      ≤ fs.superblock.sInodesPerGroup.toNat) : fs.Volume (fs.groupGeometry disk) disk := by
  have hseen := h.seen_of_large h1024
  have hfd := (h.table_large h1024).1
  have hb := h.size.bounds
  have hipg := h.inodes.2
  refine ⟨⟨sound_groupZero h hone h1024, rfl, fun heq => absurd heq h1024, ⟨?_, ?_⟩,
    fun group hgroup => ?_⟩, fun _ => ?_, fun heq => absurd heq h1024, ?_,
    fun b _ hhi hbit => ?_⟩
  · rw [seenBlockBitmap, hseen]
    rfl
  · rw [seenInodeBitmap, hseen]
    rfl
  · rw [(validGroup_iff h hone).1 hgroup, descAt_zero, hseen]
    rfl
  · rw [hseen]
    exact hblocks
  · rw [hseen]
    omega
  · have hfree := hok.free (b := b) (by omega) (by omega) (by rw [hfd]; exact hbit)
    exact dataBlock_groupZero h hone h1024 hfree.1 hfree.2

end OneGroup

/-- The geometry of the small volume. -/
def smallGeometry : Geometry := (smallVolume 2048).groupGeometry (smallDisk 2048)

theorem smallVolume_clear (hlo : 7 ≤ b) (hhi : b < 64) :
    bit (smallFs.blockBitmap (smallDisk 2048)) b = false := by
  have hclear : ∀ i, i < 64 → 7 ≤ i →
      bit (smallFs.blockBitmap (smallDisk 2048)) i = false := by
    decide +kernel
  exact hclear b hhi hlo

theorem smallVolume_volume : smallFs.Volume smallGeometry (smallDisk 2048) := by
  refine volume_of_groupZero (smallVolume_groupZero (.inr rfl)) rfl (by decide)
    (smallVolume_blockBitmapOk (.inr rfl)) ?_ (by decide +kernel)
  rw [show (smallFs.layoutDescriptor (smallDisk 2048)).bgFreeBlocksCount.toNat
    = (Finset.Ico 7 64).card by decide +kernel]
  apply Finset.card_le_card
  intro b hb
  rw [Finset.mem_Ico] at hb
  refine mem_clearSet.2 ⟨⟨Nat.zero_le b, ?_⟩, smallVolume_clear hb.1 hb.2⟩
  show b < 8 * 2048
  omega

theorem smallVolume_freeBlocks :
    57 ≤ smallFs.freeBlocks (smallFs.view smallGeometry (smallDisk 2048))
      smallGeometry := by
  unfold freeBlocks
  rw [show 57 = (Finset.Ico 7 64).card by rfl]
  apply Finset.card_le_card
  intro b hb
  rw [Finset.mem_Ico] at hb
  have hstart : smallFs.dataStart smallGeometry ≤ 7 := by decide +kernel
  have hend : smallFs.superblock.sBlocksPerGroup.toNat = 64 := by decide +kernel
  exact mem_clearSet.2 ⟨⟨by omega, by omega⟩, smallVolume_clear hb.1 hb.2⟩

end Ext2

end Felix
