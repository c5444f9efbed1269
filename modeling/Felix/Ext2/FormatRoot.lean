import Felix.Ext2.Format
import Felix.Ext2.Listing

/-!
# The root directory of a formatted volume

`format` writes the root inode at the offset of the third inode of the table,
while `read_inode` takes inode 2 to be the second, so with blocks of 2048 or
4096 bytes the driver reads an empty inode and lists nothing.  With blocks of
1024 bytes it does not find the inode table at all: it takes the superblock
for the descriptor and reads inode 2 from the boot block, which `format`
leaves as it was.

The block of the root directory is not marked in the bitmap either.
`rootOk_format_iff` says exactly when the volume is usable all the same.
-/

namespace Felix

open Bytes Res

namespace Ext2

/-! ## Every block after a format -/

/-- The size of a volume that `format` accepts. -/
structure FormatSize (N bs : Nat) : Prop where
  size : bs = 1024 ∨ bs = 2048 ∨ bs = 4096
  low : 32 ≤ N
  high : N ≤ bs * 8

namespace FormatSize

variable {N bs : Nat}

theorem inodes (_ : FormatSize N bs) : 64 ≤ formatInodes N ∧ formatInodes N ≤ 16384 := by
  rw [formatInodes]
  omega

theorem places (h : FormatSize N bs) :
    formatBlockBitmap bs = formatFirst bs + 2 ∧ formatInodeBitmap bs = formatFirst bs + 3 ∧
      formatTable bs = formatFirst bs + 4 ∧ formatTable bs + 2 * 128 / bs = formatTable bs ∧
      formatFirst bs ≤ 1 := by
  obtain ⟨hsize, _, _⟩ := h
  rcases hsize with rfl | rfl | rfl <;> decide

theorem root (h : FormatSize N bs) :
    rootBlock N bs = formatFirst bs + 5 + formatTableBlocks N bs ∧ rootBlock N bs < N ∧
      0 < formatTableBlocks N bs := by
  have hplaces := h.places
  have hinodes := h.inodes
  have hroot : rootBlock N bs = formatFirst bs + 5 + formatTableBlocks N bs := by
    rw [rootBlock, firstFreeBlock]
    omega
  have hmin : formatInodes N ≤ max (N / 4) 64 := Nat.min_le_left _ _
  obtain ⟨hsize, hlow, hhigh⟩ := h
  refine ⟨hroot, ?_, ?_⟩
  · rw [hroot, formatTableBlocks]
    rcases hsize with rfl | rfl | rfl <;> omega
  · rw [formatTableBlocks]
    rcases hsize with rfl | rfl | rfl <;> omega

end FormatSize

/-- Block `b` of a formatted volume, as a function of the disk before. -/
def formatImage (N bs po : Nat) (disk : Disk) (b : Nat) : Bytes :=
  if b = rootBlock N bs then cut bs (dotsBlock 2 2 (bs - 12))
  else if b = formatTable bs then cut bs (formatInodeBuf (rootBlock N bs) bs)
  else if formatTable bs ≤ b ∧ b < formatTable bs + formatTableBlocks N bs then fun _ => 0
  else if b = formatInodeBitmap bs then cut bs formatInodeMap
  else if b = formatBlockBitmap bs then cut bs (formatBlockMap N bs)
  else if b = formatFirst bs + 1 then
    cut bs (splice 0 32 (formatDescriptor N bs).encode fun _ => 0)
  else (formatRaw N bs po).block ((formatRaw N bs po).setSuper disk) b

section

variable {disk disk' : Disk} {po total bs N b : Nat} {fs : Ext2}

theorem FormatSize.of_format (h : format disk po total bs = .ok (fs, disk')) :
    FormatSize (formatBlocks total bs) bs := by
  obtain ⟨rfl, hgood, hlow, hhigh, _⟩ := format_eq_ok h
  exact ⟨hgood, hlow, hhigh⟩

theorem formatVolume_onDisk (hb : b < N)
    (hfits : po % 2 ^ 32 + N * (bs / 512) ≤ disk.sectors) :
    (formatVolume N bs po).OnDisk disk b := by
  have hmul := Nat.mul_le_mul_right (bs / 512) (Nat.succ_le_of_lt hb)
  rw [Nat.succ_mul] at hmul
  change po % 2 ^ 32 + b * (bs / 512) + bs / 512 ≤ disk.sectors
  omega

theorem sectors_format (h : format disk po total bs = .ok (fs, disk')) :
    disk'.sectors = disk.sectors := by
  obtain ⟨_, _, _, _, _, _, rfl⟩ := format_eq_ok h
  simp only [setBlock_sectors, zeroBlocks_sectors, setSuper_sectors]

theorem formatVolume_inodes (h : FormatSize N bs) (po : Nat) :
    (formatVolume N bs po).superblock.sInodesPerGroup.toNat = formatInodes N ∧
      (formatVolume N bs po).superblock.sBlocksPerGroup.toNat = N ∧
      (formatVolume N bs po).superblock.sInodeSize.toNat = 128 := by
  have hinodes := h.inodes
  obtain ⟨hsize, hlow, hhigh⟩ := h
  refine ⟨?_, ?_, rfl⟩
  · change (UInt32.ofNat (formatInodes N)).toNat = _
    rw [UInt32.toNat_ofNat']
    omega
  · change (UInt32.ofNat N).toNat = _
    rw [UInt32.toNat_ofNat']
    omega

theorem formatVolume_table (h : FormatSize N bs) (po : Nat) :
    (formatVolume N bs po).bgdTableBlock = 1 := by
  obtain ⟨hsize, _, _⟩ := h
  rcases hsize with rfl | rfl | rfl <;> rfl

theorem formatVolume_slot (h : FormatSize N bs) (po table : Nat) :
    (formatVolume N bs po).inodeBlockIn table 2 = table ∧
      (formatVolume N bs po).inodeOffsetIn 2 = 128 := by
  have hdiv : (2 - 1) * 128 / bs = 0 ∧ (2 - 1) * 128 % bs = 128 := by
    obtain ⟨hsize, _, _⟩ := h
    rcases hsize with rfl | rfl | rfl <;> decide
  rw [inodeBlockIn, inodeOffsetIn, (formatVolume_inodes h po).2.2,
    show (formatVolume N bs po).blockSize = bs from rfl, hdiv.1, hdiv.2]
  exact ⟨rfl, rfl⟩

theorem formatVolume_mountable (h : FormatSize N bs) (hpo : po + 2 < 2 ^ 64)
    (ha : (formatVolume N bs po).Addressable (rootBlock N bs)) :
    (formatVolume N bs po).Mountable ∧
      ∀ b, b ≤ rootBlock N bs → (formatVolume N bs po).Addressable b := by
  have hall : ∀ b, b ≤ rootBlock N bs → (formatVolume N bs po).Addressable b := by
    intro b hb
    have hmul := Nat.mul_le_mul_right (bs / 512) hb
    have hlt : po % 2 ^ 32 + rootBlock N bs * (bs / 512) < 2 ^ 32 := ha
    change po % 2 ^ 32 + b * (bs / 512) < 2 ^ 32
    omega
  refine ⟨⟨rfl, h.size, hpo, ?_⟩, hall⟩
  rw [formatVolume_table h po]
  refine hall 1 ?_
  have hroot := h.root
  omega

/-- What the driver takes from a superblock that `format` wrote. -/
theorem seen_format (sb : Ext2SuperBlock) (hsize : FormatSize N 1024)
    (hcount : sb.sInodesCount = UInt32.ofNat (formatInodes N)) (hres : sb.sRBlocksCount = 0)
    (hone : ∀ k, k < 1024 → (formatVolume N 1024 po).block disk' 1 k = sb.encode k) :
    (formatVolume N 1024 po).seenBlockBitmap disk' = formatInodes N ∧
      (formatVolume N 1024 po).seenInodeTable disk' = 0 := by
  have hinodes := hsize.inodes
  obtain ⟨hbb, _, hit, _, _⟩ := decode_superblock hone
  have hseen : (formatVolume N 1024 po).seenDescriptor disk'
      = Ext2BlockGroupDescriptor.decode ((formatVolume N 1024 po).block disk' 1) := by
    rfl
  rw [seenBlockBitmap, seenInodeTable, hseen, hbb, hit, hcount, hres, UInt32.toNat_ofNat']
  refine ⟨by omega, rfl⟩

end

/-! ## Runs of allocations -/

/-- `n` calls of `alloc_block` in a row, with what they returned. -/
def allocBlocks (fs : Ext2) : Nat → Disk → Res (List (Option Nat) × Disk)
  | 0, disk => .ok ([], disk)
  | n + 1, disk => do
    let (block, disk) ← fs.allocBlock disk
    let (blocks, disk) ← allocBlocks fs n disk
    .ok (block :: blocks, disk)

/-- The disks that a formatted volume with blocks of 1024 bytes goes through
while blocks are allocated: the driver takes block `inodes_per_group` for the
bitmap and searches from the length of the inode table on. -/
structure StrayBitmap (fs : Ext2) (N : Nat) (disk : Disk) : Prop where
  volume : ∃ po, fs = formatVolume N 1024 po
  size : FormatSize N 1024
  mountable : fs.Mountable
  onDisk : fs.OnDisk disk 1
  seen : fs.seenBlockBitmap disk = formatInodes N ∧ fs.seenInodeTable disk = 0

namespace StrayBitmap

variable {fs : Ext2} {N : Nat} {disk : Disk} (h : StrayBitmap fs N disk)
include h

theorem searchStart : fs.searchStart disk = formatTableBlocks N 1024 ∧
      formatTableBlocks N 1024 < rootBlock N 1024 := by
  obtain ⟨hroot, hlt, _⟩ := h.size.root
  have hhigh := h.size.high
  refine ⟨?_, by omega⟩
  have htsize : fs.inodeTableSizeInBlocks = formatTableBlocks N 1024 := by
    obtain ⟨po, rfl⟩ := h.volume
    rw [inodeTableSizeInBlocks, (formatVolume_inodes h.size po).1]
    rfl
  rw [Ext2.searchStart, h.seen.2, htsize, Nat.zero_add]
  exact Nat.mod_eq_of_lt (by omega)

variable (ha : fs.Addressable (formatInodes N))
include ha

/-- One allocation: it takes the first clear bit of the stray bitmap, if it
is on the disk. -/
theorem allocBlock_cases : (fs.allocBlock disk = .ok (none, disk) ∧
      ∀ i, formatTableBlocks N 1024 ≤ i → i < N →
        bit (fs.block disk (formatInodes N)) i = true) ∨
    ∃ i disk', FirstClear (fs.block disk (formatInodes N)) (formatTableBlocks N 1024) N i ∧
      fs.allocBlock disk = .ok (some i, disk') ∧
      StrayBitmap fs N disk' ∧ disk'.sectors = disk.sectors ∧
      (fs.OnDisk disk (formatInodes N) →
        fs.block disk' (formatInodes N) = setBit i (fs.block disk (formatInodes N))) := by
  have hstart := h.searchStart.1
  obtain ⟨⟨po, rfl⟩, hsize, hm, hone, hseen⟩ := h
  obtain ⟨_, hbpg, _⟩ := formatVolume_inodes hsize po
  have hhigh := hsize.high
  have hinodes := hsize.inodes
  have htab := formatVolume_table hsize po
  have hcases := Ext2.allocBlock_cases hm disk (by rw [hseen.1]; exact ha) (by omega)
  rw [hseen.1, hstart, hbpg] at hcases
  rcases hcases with hnone | ⟨i, hfirst, hsome⟩
  · exact .inl hnone
  refine .inr ⟨i, _, hfirst, hsome, ⟨⟨po, rfl⟩, hsize, hm, ?_, ?_⟩, commit_sectors _ _ _, ?_⟩
  · rw [onDisk_congr (commit_sectors _ _ _)]
    exact hone
  · refine seen_format (formatVolume N 1024 po).superblock hsize rfl rfl fun k hk => ?_
    rw [block_commit_super hm rfl htab _ _ hone, if_pos hk]
  intro hon
  have hup := hfirst.upper
  refine block_commit_bitmap_1024 hm rfl htab _ (by omega) hon fun k hk => ?_
  exact setBit_block_ge (by change i < 8 * 1024; omega) hk

/-- A block whose bit is set is never returned. -/
theorem not_mem_of_set (hset : fs.OnDisk disk (formatInodes N) →
      bit (fs.block disk (formatInodes N)) (rootBlock N 1024) = true)
    {n : Nat} {blocks : List (Option Nat)} {disk' : Disk}
    (hrun : fs.allocBlocks n disk = .ok (blocks, disk')) :
    some (rootBlock N 1024) ∉ blocks := by
  induction n generalizing disk blocks with
  | zero =>
    cases hrun
    exact List.not_mem_nil
  | succ n ih =>
    rw [allocBlocks] at hrun
    rcases h.allocBlock_cases ha with ⟨hnone, _⟩ | ⟨i, disk₁, hfirst, hsome, hstray, hsec, hblock⟩
    · rw [hnone, ok_bind] at hrun
      obtain ⟨⟨rest, disk₂⟩, hrest, hret⟩ := bind_eq_ok.1 hrun
      cases hret
      intro hmem
      rcases List.mem_cons.1 hmem with heq | hmem
      · cases heq
      · exact ih h hset hrest hmem
    rw [hsome, ok_bind] at hrun
    obtain ⟨⟨rest, disk₂⟩, hrest, hret⟩ := bind_eq_ok.1 hrun
    cases hret
    intro hmem
    rcases List.mem_cons.1 hmem with heq | hmem
    · cases heq
      by_cases hon : fs.OnDisk disk (formatInodes N)
      · have hclear := hfirst.isClear
        rw [hset hon] at hclear
        cases hclear
      -- a bitmap that is not on the disk reads as zeros
      have hzero := hfirst.before _ (Nat.le_refl _) h.searchStart.2
      rw [show fs.block disk (formatInodes N) = fun _ => 0 by
        funext k
        exact if_neg fun hin => hon hin.1] at hzero
      simp [bit] at hzero
    · refine ih hstray (fun hon => ?_) hrest hmem
      have hon' := (onDisk_congr hsec _).1 hon
      rw [hblock hon', bit_setBit, hset hon', Bool.true_or]

/-- A block whose bit is clear is returned in the end. -/
theorem mem_of_clear (hon : fs.OnDisk disk (formatInodes N))
    (hclear : bit (fs.block disk (formatInodes N)) (rootBlock N 1024) = false) :
    ∃ n blocks disk', fs.allocBlocks n disk = .ok (blocks, disk') ∧
      some (rootBlock N 1024) ∈ blocks := by
  obtain ⟨_, hlt, _⟩ := h.size.root
  -- the number of clear bits in front of it goes down with each call
  induction hc : clearCount (fs.block disk (formatInodes N)) (formatTableBlocks N 1024)
    (rootBlock N 1024) using Nat.strong_induction_on generalizing disk with
  | _ c ih =>
    rcases h.allocBlock_cases ha with ⟨_, hall⟩ | ⟨i, disk₁, hfirst, hsome, hstray, hsec, hblock⟩
    · have hset := hall _ (Nat.le_of_lt h.searchStart.2) hlt
      rw [hclear] at hset
      cases hset
    rcases Nat.lt_trichotomy i (rootBlock N 1024) with hi | hi | hi
    · have hcount := clearCount_setBit _ _ hfirst.lower hi hfirst.isClear
      rw [← hblock hon] at hcount
      obtain ⟨n, blocks, disk', hrun, hmem⟩ := ih _ (by omega) hstray
        ((onDisk_congr hsec _).2 hon)
        (by rw [hblock hon, bit_setBit, hclear, Bool.false_or, decide_eq_false_iff_not]; omega)
        rfl
      refine ⟨n + 1, some i :: blocks, disk', ?_, List.mem_cons_of_mem _ hmem⟩
      rw [allocBlocks, hsome]
      simp only [hrun, ok_bind]
    · subst hi
      refine ⟨1, [some _], disk₁, ?_, List.mem_cons_self⟩
      rw [allocBlocks, hsome]
      rfl
    · have hset := hfirst.before _ (Nat.le_of_lt h.searchStart.2) hi
      rw [hclear] at hset
      cases hset

end StrayBitmap

/-! ## Inode 2 and its listing -/

section

variable {disk disk' : Disk} {po total bs b : Nat} {fs : Ext2}

theorem listDirectoryEntries_root (hm : fs.mounted = true) :
    fs.listDirectoryEntries disk .root = (fs.readInode disk 2 >>= fun inode =>
      if inode.isDir = false then .ok none
      else fs.listBlocks disk inode.directPtrs [] >>= fun entries => .ok (some entries)) := by
  rw [listDirectoryEntries, resolvePath, if_neg (by simp [hm]), if_pos (.inl rfl), ok_bind]

section

variable (h : format disk po total bs = .ok (fs, disk'))
  (hfits : po % 2 ^ 32 + formatBlocks total bs * (bs / 512) ≤ disk.sectors)

include h hfits

theorem block_format (b : Nat) :
    fs.block disk' b = formatImage (formatBlocks total bs) bs po disk b := by
  have hsize := FormatSize.of_format h
  obtain ⟨hfs, hgood, _, _, _, _, rfl⟩ := format_eq_ok h
  generalize formatBlocks total bs = N at *
  subst hfs
  obtain ⟨hbb, hib, hit, hslot, hfirst⟩ := hsize.places
  obtain ⟨hroot, hlt, hpos⟩ := hsize.root
  have hon : ∀ b, b < N → (formatVolume N bs po).OnDisk disk b := by
    intro b hb
    exact formatVolume_onDisk hb hfits
  have hgood' : (formatVolume N bs po).GoodSize := hgood
  have hon' : ∀ disk₁ : Disk, disk₁.sectors = disk.sectors → ∀ b, b < N →
      (formatVolume N bs po).OnDisk disk₁ b := by
    intro disk₁ hsec b hb
    exact (onDisk_congr hsec b).2 (hon b hb)
  rw [hslot]
  rw [block_setBlock_cut hgood' (hon' _ (by simp) _ hlt),
    block_setBlock_cut hgood' (hon' _ (by simp) _ (by omega)),
    block_zeroBlocks hgood' (fun j hj => hon' _ (by simp) _ (by omega)),
    block_setBlock_cut hgood' (hon' _ (by simp) _ (by omega)),
    block_setBlock_cut hgood' (hon' _ (by simp) _ (by omega)),
    block_setBlock_cut hgood' (hon' _ (by simp) _ (by omega))]
  rfl

theorem readInode_format_large (hbs : bs ≠ 1024) : fs.readInode disk' 2 = .ok .zeroed := by
  have hsize := FormatSize.of_format h
  have himage := block_format h hfits
  obtain ⟨rfl, _, _, _, hpo, haddr, _⟩ := format_eq_ok h
  generalize formatBlocks total bs = N at *
  obtain ⟨hbb, hib, hit, hslot, _⟩ := hsize.places
  obtain ⟨hroot, hlt, hpos⟩ := hsize.root
  obtain ⟨hm, hall⟩ := formatVolume_mountable hsize hpo haddr
  have hb := hm.size.bounds
  have hfirst : formatFirst bs = 0 := if_neg hbs
  have htable : (formatVolume N bs po).seenInodeTable disk' = formatTable bs := by
    have hdesc : (formatVolume N bs po).seenDescriptor disk' = formatDescriptor N bs := by
      rw [seenDescriptor, formatVolume_table hsize po, himage, formatImage, if_neg (by omega),
        if_neg (by omega), if_neg (by omega), if_neg (by omega), if_neg (by omega),
        if_pos (by omega), ← Packed.decode_encode (formatDescriptor N bs)]
      refine Packed.decode_congr fun k hk => ?_
      rw [Ext2BlockGroupDescriptor.size_eq] at hk
      rw [cut_apply (by change 1024 ≤ bs ∧ bs ≤ 4096 at hb; omega),
        splice_apply_in (by omega) (by omega), Packed.decode_encode]
      rfl
    rw [seenInodeTable, hdesc]
    change (UInt32.ofNat (formatTable bs)).toNat = _
    rw [UInt32.toNat_ofNat']
    omega
  obtain ⟨hblock, hoff⟩ := formatVolume_slot hsize po (formatTable bs)
  have hipg := (formatVolume_inodes hsize po).1
  have hinodes := hsize.inodes
  change 1024 ≤ bs ∧ bs ≤ 4096 at hb
  rw [readInode_zero hm (by omega) (by omega) (by rw [htable]; omega)
    (by rw [htable]; exact hall _ (by omega))
    (by rw [hoff]; change 128 + 128 ≤ bs; omega), htable, hblock, himage, formatImage,
    if_neg (by omega), if_pos rfl]
  congr 1
  -- the 128 bytes at offset 128 lie before the root inode
  refine Packed.decode_congr (α := Ext2Inode) fun k hk => ?_
  rw [Ext2Inode.size_eq] at hk
  have hmod : 2 * 128 % bs = 256 := Nat.mod_eq_of_lt (by omega)
  rw [shift_apply, cut_apply (by omega), formatInodeBuf, splice_apply_out (by omega)]

theorem listDirectoryEntries_format_large (hbs : bs ≠ 1024) :
    fs.listDirectoryEntries disk' .root = .ok none := by
  have hread := readInode_format_large h hfits hbs
  obtain ⟨rfl, _⟩ := format_eq_ok h
  rw [listDirectoryEntries_root rfl, hread, ok_bind, if_pos (by decide)]

end

/-- The inode that stands at offset 128 of the boot block. -/
def bootInode (N bs po : Nat) (disk : Disk) : Ext2Inode :=
  Ext2Inode.decode (shift 128 ((formatRaw N bs po).block disk 0))

section

variable (h : format disk po total 1024 = .ok (fs, disk'))
  (hfits : po % 2 ^ 32 + formatBlocks total 1024 * (1024 / 512) ≤ disk.sectors)

include h hfits

/-- The blocks in front of the descriptor table and behind the root directory,
after a format with blocks of 1024 bytes: only the superblock is new. -/
theorem block_format_1024 (hb : b < 2 ∨ rootBlock (formatBlocks total 1024) 1024 < b) :
    fs.block disk' b = if b = 1 then cut 1024 (formatSuper (formatBlocks total 1024) 1024).encode
      else fs.block disk b := by
  have hsize := FormatSize.of_format h
  rw [block_format h hfits]
  obtain ⟨rfl, _, _, _, hpo, haddr, _⟩ := format_eq_ok h
  generalize formatBlocks total 1024 = N at *
  obtain ⟨hroot, hlt, hpos⟩ := hsize.root
  have hlba : po % 2 ^ 32 + rootBlock N 1024 * (1024 / 512) < 2 ^ 32 := haddr
  have hon : (formatRaw N 1024 po).OnDisk disk 1 := formatVolume_onDisk (by omega) hfits
  have hplaces := hsize.places
  have hfirst : formatFirst 1024 = 1 := rfl
  rw [formatImage, if_neg (by omega), if_neg (by omega), if_neg (by omega), if_neg (by omega),
    if_neg (by omega), if_neg (by omega),
    setSuper_eq_setBlock rfl (by change po % 2 ^ 32 + 2 < 2 ^ 32; omega)]
  exact block_setBlock_cut (.inl rfl) hon b _

theorem block_one_format (k : Nat) (hk : k < 1024) :
    fs.block disk' 1 k = (formatSuper (formatBlocks total 1024) 1024).encode k := by
  rw [block_format_1024 h hfits (.inl (by omega)), if_pos rfl, cut_apply hk]

/-- With blocks of 1024 bytes inode 2 is read from the boot block. -/
theorem readInode_format_1024 :
    fs.readInode disk' 2 = .ok (bootInode (formatBlocks total 1024) 1024 po disk) := by
  have hsize := FormatSize.of_format h
  have hone := block_one_format h hfits
  have hzero := block_format_1024 h hfits (b := 0) (.inl (by omega))
  obtain ⟨rfl, _, _, _, hpo, haddr, _⟩ := format_eq_ok h
  obtain ⟨hm, hall⟩ := formatVolume_mountable hsize hpo haddr
  obtain ⟨_, htable⟩ := seen_format _ hsize rfl rfl hone
  obtain ⟨hblock, hoff⟩ := formatVolume_slot hsize po 0
  have hipg := (formatVolume_inodes hsize po).1
  have hinodes := hsize.inodes
  rw [readInode_zero hm (by omega) (by omega) (by rw [htable]; omega)
    (by rw [htable]; exact hall _ (by omega))
    (by rw [hoff]; change 128 + 128 ≤ 1024; omega), htable, hblock, hzero]
  rfl

/-- Block `inodes_per_group` is not one that `format` writes. -/
theorem block_stray_format : fs.block disk' (formatInodes (formatBlocks total 1024))
      = fs.block disk (formatInodes (formatBlocks total 1024)) := by
  have hsize := FormatSize.of_format h
  obtain ⟨hroot, _, _⟩ := hsize.root
  have hinodes := hsize.inodes
  have hfirst : formatFirst 1024 = 1 := rfl
  have htable : ∀ N, formatTableBlocks N 1024 = (formatInodes N * 128 + 1024 - 1) / 1024 :=
    fun _ => rfl
  rw [htable] at hroot
  rw [block_format_1024 h hfits (.inr (by omega)), if_neg (by omega)]

theorem strayBitmap_format : StrayBitmap fs (formatBlocks total 1024) disk' := by
  have hsize := FormatSize.of_format h
  have hone := block_one_format h hfits
  have hsec := sectors_format h
  obtain ⟨rfl, _, _, _, hpo, haddr, _⟩ := format_eq_ok h
  exact ⟨⟨po, rfl⟩, hsize, (formatVolume_mountable hsize hpo haddr).1,
    (onDisk_congr hsec 1).2 (formatVolume_onDisk (by omega) hfits),
    seen_format _ hsize rfl rfl hone⟩

/-- The listing of a volume with blocks of 1024 bytes. -/
theorem listed_format_iff : (∃ entries, fs.listDirectoryEntries disk' .root = .ok (some entries) ∧
      entries.map (fun e => (e.inode, e.name)) = [(2, .dot), (2, .dotdot)]) ↔
    (bootInode (formatBlocks total 1024) 1024 po disk).isDir = true ∧
      (∀ p ∈ (bootInode (formatBlocks total 1024) 1024 po disk).directPtrs.takeWhile (· ≠ 0),
        fs.Addressable p.toNat) ∧
      (fs.listedIn disk' (bootInode (formatBlocks total 1024) 1024 po disk).directPtrs).map
        (fun r => (r.1.inode, r.2)) = [(2, .dot), (2, .dotdot)] := by
  have hread := readInode_format_1024 h hfits
  obtain ⟨rfl, hgood, _⟩ := format_eq_ok h
  generalize bootInode (formatBlocks total 1024) 1024 po disk = boot at *
  rw [listDirectoryEntries_root rfl, hread, ok_bind]
  refine ⟨fun hlist => ?_, fun hcond => ?_⟩
  · obtain ⟨entries, hlist, hdots⟩ := hlist
    by_cases hdir : boot.isDir = false
    · rw [if_pos hdir] at hlist
      cases hlist
    rw [if_neg hdir] at hlist
    obtain ⟨es, hblocks, hret⟩ := bind_eq_ok.1 hlist
    cases hret
    have haddr := listBlocks_addressable hgood ⟨entries, hblocks⟩
    rw [listBlocks_eq hgood haddr] at hblocks
    obtain ⟨es', hes, hret⟩ := bind_eq_ok.1 hblocks
    cases hret
    refine ⟨eq_true_of_ne_false hdir, haddr, ?_⟩
    rw [← entriesOf_eq_ok hes]
    exact hdots
  · obtain ⟨hdir, haddr, hdots⟩ := hcond
    rw [if_neg (by simp [hdir]), listBlocks_eq hgood haddr]
    -- every record that is listed is inode 2, which can be read
    have hsafe : Safe ((formatVolume (formatBlocks total 1024) 1024 po).entriesOf disk'
        ((formatVolume (formatBlocks total 1024) 1024 po).listedIn disk' boot.directPtrs)) := by
      refine (entriesOf_safe_iff _).2 fun r hr _ => ?_
      have hmem := List.mem_map_of_mem (f := fun r : Ext2DirEntry × Str => (r.1.inode, r.2)) hr
      rw [hdots] at hmem
      have htwo : r.1.inode = 2 := by
        rcases List.mem_cons.1 hmem with heq | hmem
        · exact congrArg Prod.fst heq
        · exact congrArg Prod.fst (List.mem_singleton.1 hmem)
      rw [htwo]
      exact ⟨_, hread⟩
    obtain ⟨es, hes⟩ := hsafe
    refine ⟨es, ?_, ?_⟩
    · rw [hes, ok_bind, ok_bind, List.nil_append]
    · rw [entriesOf_eq_ok hes, hdots]

end

/-! ## The root directory -/

/-- The volume lists its root as `.` and `..`, both inode 2, and no number of
allocations returns the block of the root directory. -/
structure RootOk (fs : Ext2) (disk : Disk) (root : Nat) : Prop where
  listed : ∃ entries, fs.listDirectoryEntries disk .root = .ok (some entries) ∧
    entries.map (fun e => (e.inode, e.name)) = [(2, .dot), (2, .dotdot)]
  kept : ∀ n blocks disk', fs.allocBlocks n disk = .ok (blocks, disk') → some root ∉ blocks

/-- When a formatted volume is usable: blocks of 1024 bytes, a boot block that
holds a directory inode by chance, blocks of it that list as `.` and `..` once
the volume is formatted, and a block `inodes_per_group` that has the bit of
the root directory set by chance. -/
structure FormatCondition (disk : Disk) (po N bs : Nat) : Prop where
  size : bs = 1024
  isDir : (bootInode N bs po disk).isDir = true
  addressable : ∀ p ∈ (bootInode N bs po disk).directPtrs.takeWhile (· ≠ 0),
    (formatRaw N bs po).Addressable p.toNat
  dots : (((bootInode N bs po disk).directPtrs.takeWhile (· ≠ 0)).flatMap fun p =>
      listed bs (formatImage N bs po disk p.toNat)).map (fun r => (r.1.inode, r.2))
    = [(2, .dot), (2, .dotdot)]
  marked : (formatRaw N bs po).Addressable (formatInodes N) →
    (formatRaw N bs po).OnDisk disk (formatInodes N) →
    bit ((formatRaw N bs po).block disk (formatInodes N)) (rootBlock N bs) = true

/-- A formatted volume has a usable root directory exactly under
`FormatCondition`. -/
theorem rootOk_format_iff (h : format disk po total bs = .ok (fs, disk'))
    (hfits : po % 2 ^ 32 + formatBlocks total bs * (bs / 512) ≤ disk.sectors) :
    RootOk fs disk' (rootBlock (formatBlocks total bs) bs) ↔
      FormatCondition disk po (formatBlocks total bs) bs := by
  by_cases hbs : bs = 1024
  swap
  · refine ⟨fun hok => ?_, fun hcond => absurd hcond.size hbs⟩
    obtain ⟨entries, hlist, _⟩ := hok.listed
    rw [listDirectoryEntries_format_large h hfits hbs] at hlist
    cases hlist
  subst hbs
  have hlisted := listed_format_iff h hfits
  have hstray := strayBitmap_format h hfits
  have hblock := block_stray_format h hfits
  have himage := block_format h hfits
  have hsec := sectors_format h
  obtain ⟨rfl, _⟩ := format_eq_ok h
  generalize formatBlocks total 1024 = N at *
  have hdots : (formatVolume N 1024 po).listedIn disk'
      (bootInode N 1024 po disk).directPtrs
      = ((bootInode N 1024 po disk).directPtrs.takeWhile (· ≠ 0)).flatMap fun p =>
          listed 1024 (formatImage N 1024 po disk p.toNat) := by
    simp only [listedIn, himage]
    rfl
  rw [hdots] at hlisted
  refine ⟨fun hok => ?_, fun hcond => ⟨hlisted.2 ⟨hcond.isDir, hcond.addressable, hcond.dots⟩, ?_⟩⟩
  · obtain ⟨hdir, haddr, hmap⟩ := hlisted.1 hok.listed
    refine ⟨rfl, hdir, haddr, hmap, fun ha hon => ?_⟩
    by_contra hclear
    obtain ⟨n, blocks, disk₂, hrun, hmem⟩ := hstray.mem_of_clear ha ((onDisk_congr hsec _).2 hon)
      (by rw [hblock]; exact Bool.eq_false_iff.2 hclear)
    exact hok.kept n blocks disk₂ hrun hmem
  · intro n blocks disk₂ hrun
    by_cases ha : (formatVolume N 1024 po).Addressable (formatInodes N)
    · refine hstray.not_mem_of_set ha (fun hon => ?_) hrun
      rw [hblock]
      exact hcond.marked ha ((onDisk_congr hsec _).1 hon)
    cases n with
    | zero =>
      cases hrun
      exact List.not_mem_nil
    | succ n =>
      rw [allocBlocks, allocBlock_fault hstray.mountable (by rw [hstray.seen.1]; exact ha)]
        at hrun
      cases hrun

end

/-- A blank disk of 256 sectors. -/
def blankDisk : Disk := ⟨256, fun _ => 0⟩

theorem format_blankDisk : ∃ r, format blankDisk 0 256 2048 = .ok r := ⟨_, rfl⟩

theorem rootOk_format_iff_blank : ∃ r, format blankDisk 0 256 2048 = .ok r ∧
      (RootOk r.1 r.2 (rootBlock 64 2048) ↔ FormatCondition blankDisk 0 64 2048) := by
  obtain ⟨⟨fs, disk'⟩, h⟩ := format_blankDisk
  have hiff := rootOk_format_iff h (by decide)
  exact ⟨(fs, disk'), h, hiff⟩

/-- A blank disk formatted with blocks of 2048 bytes has no root directory to
list. -/
theorem format_blankDisk_not_rootOk : ∃ r, format blankDisk 0 256 2048 = .ok r ∧
      r.1.listDirectoryEntries r.2 .root = .ok none ∧ ¬ RootOk r.1 r.2 (rootBlock 64 2048) := by
  obtain ⟨⟨fs, disk'⟩, h⟩ := format_blankDisk
  have hlist := listDirectoryEntries_format_large h (by decide) (by decide)
  refine ⟨(fs, disk'), h, hlist, fun hok => ?_⟩
  obtain ⟨entries, hsome, _⟩ := hok.listed
  rw [hlist] at hsome
  cases hsome

end Ext2

end Felix
