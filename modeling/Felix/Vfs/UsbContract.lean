import Felix.Vfs.UsbStorage

/-!
# Block sizes of USB storage

The driver scales a transfer by the block size of the device, and the file systems
pass buffers for sectors of 512 bytes.  A computation that does not fault with
`memory` wrote within its buffers, and `ne_memory_bind` carries that through a
sequence.  With blocks of 512 bytes every read of FAT, of the partition tables and of
the superblock stays within its buffer; a block of Ext2 does when it is not longer
than the buffer for structures.
-/

namespace Felix.Usb

open Bytes Res

variable {α β : Type} (w a b : Nat)

/-! ## Computations that stay within their buffers -/

theorem ne_memory_ok (a : α) : (.ok a : Res α) ≠ .error .memory := fun h => (nomatch h)

theorem ne_memory_bind {x : Res α} {f : α → Res β} (hx : x ≠ .error .memory)
    (hf : ∀ a, x = .ok a → f a ≠ .error .memory) : (x >>= f) ≠ .error .memory := by
  cases x with
  | error e => exact fun h => hx (congrArg Except.error (Except.error.inj h))
  | ok a => exact hf a rfl

theorem ne_memory_addW : addW w a b ≠ .error .memory := by
  unfold addW
  split <;> exact fun h => (nomatch h)

theorem ne_memory_mulW : mulW w a b ≠ .error .memory := by
  unfold mulW
  split <;> exact fun h => (nomatch h)

theorem ne_memory_shlW (w a k : Nat) : shlW w a k ≠ .error .memory := by
  unfold shlW
  split <;> exact fun h => (nomatch h)

theorem ne_memory_slice (b : Buf) (lo hi : Nat) : b.slice lo hi ≠ .error .memory := by
  unfold Buf.slice
  split <;> exact fun h => (nomatch h)

theorem ne_memory_copyFromSlice (b : Buf) (lo : Nat) (src : List UInt8) :
    b.copyFromSlice lo src ≠ .error .memory := by
  unfold Buf.copyFromSlice
  split <;> exact fun h => (nomatch h)

/-! ## Transfers -/

section
variable {dev : UsbMsc} {numsects lba : Nat} {buf : Buf}

theorem ne_memory_readSectors (h : numsects * dev.blockSize ≤ buf.len) :
    dev.readSectors numsects lba buf ≠ .error .memory := by
  unfold UsbMsc.readSectors
  split
  · exact ne_memory_ok _
  refine ne_memory_bind (ne_memory_mulW _ _ _) fun bytes hbytes => ?_
  obtain ⟨-, rfl⟩ := mulW_eq_ok.1 hbytes
  split
  · exact ne_memory_ok _
  · rw [if_neg (by omega)]
    exact ne_memory_ok _

theorem readSectors_len {buf' : Buf} (h : dev.readSectors numsects lba buf = .ok (.ok buf')) :
    buf'.len = buf.len := by
  unfold UsbMsc.readSectors at h
  split at h
  · cases h
  obtain ⟨bytes, -, h⟩ := bind_eq_ok.1 h
  split at h
  · cases h
  · split at h <;> cases h
    rfl

/-- A transfer inside the device that does not fit its buffer. -/
theorem readSectors_overrun (hsects : numsects ≠ 0) (hsize : dev.blockSize ≠ 0)
    (hword : numsects * dev.blockSize < 2 ^ 32) (hblocks : lba + numsects ≤ dev.blocks)
    (h : buf.len < numsects * dev.blockSize) :
    dev.readSectors numsects lba buf = .error .memory := by
  rw [UsbMsc.readSectors, if_neg (by omega), mulW_ok hword, ok_bind, if_neg (by omega), if_pos h]

end

/-! ## FAT -/

section
variable {dev : UsbMsc} {fat fat' : FatDisk}

theorem fill_spec (hdev : dev.blockSize = 512) (hcache : fat.cachedSector.len = 512)
    (lba : Nat) : fat.fill dev lba ≠ .error .memory ∧
      (fat.fill dev lba = .ok (some fat') → fat'.cachedSector.len = 512) := by
  unfold FatDisk.fill
  split
  · refine ⟨ne_memory_ok _, fun h => ?_⟩
    cases h
    exact hcache
  constructor
  · refine ne_memory_bind (ne_memory_readSectors (by omega)) fun r _ => ?_
    cases r <;> exact ne_memory_ok _
  · intro h
    obtain ⟨r, hr, h⟩ := bind_eq_ok.1 h
    cases r with
    | error e => cases h
    | ok sector =>
      cases h
      exact (readSectors_len hr).trans hcache

theorem ne_memory_absLba (fat : FatDisk) (byteOff : Nat) : fat.absLba byteOff ≠ .error .memory :=
  ne_memory_bind (ne_memory_mulW _ _ _) fun _ _ =>
    ne_memory_bind (ne_memory_addW _ _ _) fun _ _ => ne_memory_ok _

theorem ne_memory_readLoop (hdev : dev.blockSize = 512) :
    ∀ (fuel done : Nat) {fat : FatDisk} (buf : Buf), fat.cachedSector.len = 512 →
      FatDisk.readLoop dev fuel done fat buf ≠ .error .memory := by
  intro fuel
  induction fuel with
  | zero =>
    intro done fat buf _
    rw [FatDisk.readLoop]
    split <;> exact fun h => (nomatch h)
  | succ fuel ih =>
    intro done fat buf hcache
    rw [FatDisk.readLoop]
    split
    · refine ne_memory_bind (ne_memory_addW _ _ _) fun here _ => ?_
      split
      · exact ne_memory_ok _
      refine ne_memory_bind (ne_memory_absLba _ _) fun place _ => ?_
      refine ne_memory_bind (@fill_spec dev fat fat hdev hcache _).1 fun filled hfilled => ?_
      cases filled with
      | none => exact ne_memory_ok _
      | some fat' =>
        have hcache' := (fill_spec hdev hcache _).2 hfilled
        refine ne_memory_bind (ne_memory_slice _ _ _) fun piece _ => ?_
        refine ne_memory_bind (ne_memory_copyFromSlice _ _ _) fun buf' _ => ?_
        exact ih _ _ hcache'
    · exact ne_memory_ok _

theorem ne_memory_read (hdev : dev.blockSize = 512) (hcache : fat.cachedSector.len = 512)
    (buf : Buf) : fat.read dev buf ≠ .error .memory := by
  unfold FatDisk.read
  split
  · exact ne_memory_ok _
  split
  · exact ne_memory_ok _
  refine ne_memory_bind (ne_memory_readLoop hdev _ _ _ hcache) fun r _ => ?_
  obtain ⟨done, fat', buf'⟩ := r
  cases done with
  | none => exact ne_memory_ok _
  | some done => exact ne_memory_bind (ne_memory_addW _ _ _) fun _ _ => ne_memory_ok _

theorem ne_memory_findFatPartitionConfig (hdev : dev.blockSize = 512) :
    findFatPartitionConfig dev ≠ .error .memory := by
  have hread : ∀ lba, dev.readSectors 1 lba (.zeroed 512) ≠ .error .memory := fun lba =>
    ne_memory_readSectors (by rw [hdev]; decide)
  refine ne_memory_bind (hread 0) fun r _ => ?_
  cases r with
  | error e => exact ne_memory_ok _
  | ok mbr =>
    dsimp only
    split
    · exact ne_memory_ok _
    split
    · exact ne_memory_ok _
    split
    · exact ne_memory_ok _
    · exact ne_memory_bind (hread _) fun _ _ => ne_memory_ok _

end

/-! ## Ext2 -/

section
variable {dev : UsbMsc} {fs : Ext2}

theorem ne_memory_findExt2PartitionConfig (hdev : dev.blockSize = 512) :
    findExt2PartitionConfig dev ≠ .error .memory := by
  refine ne_memory_bind (ne_memory_readSectors (by rw [hdev]; decide)) fun r _ => ?_
  cases r with
  | error e => exact ne_memory_ok _
  | ok mbr =>
    dsimp only
    split
    · exact ne_memory_ok _
    · split <;> exact ne_memory_ok _

theorem ne_memory_mountHereUsb (hdev : dev.blockSize = 512) :
    mountHereUsb fs dev ≠ .error .memory := by
  refine ne_memory_bind (ne_memory_addW _ _ _) fun sbOffset _ => ?_
  refine ne_memory_bind (ne_memory_readSectors (by rw [hdev]; decide)) fun r _ => ?_
  cases r with
  | error e => exact ne_memory_ok _
  | ok superblockBuf =>
    dsimp only
    split
    · exact ne_memory_ok _
    · exact ne_memory_bind (ne_memory_shlW _ _ _) fun _ _ => ne_memory_ok _

theorem blockRequest_eq_ok {block total lba : Nat}
    (h : blockRequest fs block 1 = .ok (total, lba)) :
    total = fs.blockSize / 512 % 2 ^ 8 ∧
      lba = fs.partitionOffset % 2 ^ 32 + block * (fs.blockSize / 512) := by
  obtain ⟨product, hproduct, h⟩ := bind_eq_ok.1 h
  obtain ⟨offset, hoffset, h⟩ := bind_eq_ok.1 h
  obtain ⟨sum, hsum, h⟩ := bind_eq_ok.1 h
  obtain ⟨-, rfl⟩ := mulW_eq_ok.1 hproduct
  obtain ⟨-, rfl⟩ := mulW_eq_ok.1 hoffset
  obtain ⟨-, rfl⟩ := addW_eq_ok.1 hsum
  cases h
  rw [Nat.mul_one]
  exact ⟨rfl, rfl⟩

theorem ne_memory_readBlocksUsb (hdev : dev.blockSize = 512) {buf : Buf}
    (hfits : fs.blockSize / 512 % 2 ^ 8 * 512 ≤ buf.len) (block : Nat) :
    readBlocksUsb fs dev block buf 1 ≠ .error .memory := by
  unfold readBlocksUsb
  split
  · exact ne_memory_ok _
  refine ne_memory_bind ?_ fun request hrequest => ?_
  · refine ne_memory_bind (ne_memory_mulW _ _ _) fun _ _ => ?_
    refine ne_memory_bind (ne_memory_mulW _ _ _) fun _ _ => ?_
    exact ne_memory_bind (ne_memory_addW _ _ _) fun _ _ => ne_memory_ok _
  obtain ⟨total, lba⟩ := request
  obtain ⟨rfl, -⟩ := blockRequest_eq_ok hrequest
  refine ne_memory_bind (ne_memory_readSectors (by rwa [hdev])) fun r _ => ?_
  cases r <;> exact ne_memory_ok _

end

/-! ## The contract -/

/-- For a device that reports blocks of `size` bytes, and an Ext2 volume with blocks of
`ext2Size` bytes: no read of the device goes beyond its buffer, and sector `n` begins
`n` blocks after the start of the partition. -/
structure ReadsWithin (size ext2Size : Nat) : Prop where
  fat : ∀ blocks media (fat : FatDisk) buf, fat.cachedSector.len = 512 →
    fat.read (bind blocks size media) buf ≠ .error .memory
  fatPartition : ∀ blocks media, findFatPartitionConfig (bind blocks size media) ≠ .error .memory
  ext2Partition : ∀ blocks media, findExt2PartitionConfig (bind blocks size media) ≠ .error .memory
  mount : ∀ blocks media fs, mountHereUsb fs (bind blocks size media) ≠ .error .memory
  block : ∀ blocks media (fs : Ext2) block (buf : Buf), fs.blockSize = ext2Size →
    buf.len = 4096 ∨ buf.len = ext2Size →
    readBlocksUsb fs (bind blocks size media) block buf 1 ≠ .error .memory
  fatSector : ∀ blocks media start n, start + n < 2 ^ 32 →
    (FatDisk.new start 0).absLba (n * (bind blocks size media).blockSize) = .ok (start + n, 0)
  ext2Sector : ∀ blocks media (fs : Ext2) block total lba, fs.blockSize = ext2Size →
    blockRequest fs block 1 = .ok (total, lba) →
    lba * (bind blocks size media).blockSize
      = fs.partitionOffset % 2 ^ 32 * (bind blocks size media).blockSize + block * ext2Size

theorem absLba_block {start n : Nat} (h : start + n < 2 ^ 32) :
    (FatDisk.new start 0).absLba (n * 512) = .ok (start + n, 0) := by
  change (mulW 64 start 512 >>= fun base => addW 64 base (n * 512) >>= fun abs =>
    pure (abs / 512 % 2 ^ 32, abs % 512)) = _
  rw [mulW_ok (by omega), ok_bind, addW_ok (by omega), ok_bind, ← Nat.add_mul,
    Nat.mul_div_cancel _ (by decide), Nat.mod_eq_of_lt h, Nat.mul_mod_left]
  rfl

/-- A device with blocks of another size has its second block elsewhere. -/
theorem size_of_absLba {size : Nat} (hword : size < 2 ^ 32)
    (h : (FatDisk.new 0 0).absLba size = .ok (1, 0)) : size = 512 := by
  obtain ⟨start, hstart, h⟩ := bind_eq_ok.1 h
  obtain ⟨abs, habs, h⟩ := bind_eq_ok.1 h
  obtain ⟨-, rfl⟩ := mulW_eq_ok.1 hstart
  obtain ⟨-, rfl⟩ := addW_eq_ok.1 habs
  obtain ⟨hlba, hplace⟩ := Prod.mk.inj (Except.ok.inj h)
  change (0 * 512 + size) / 512 % 2 ^ 32 = 1 at hlba
  omega

/-- An Ext2 volume at the start of the device. -/
def volume (blockSize : Nat) : Ext2 where
  superblock := Ext2SuperBlock.decode fun _ => 0
  blockSize := blockSize
  mounted := true
  partitionOffset := 0

theorem readBlocksUsb_overrun {ext2Size : Nat} (hword : ext2Size < 2 ^ 32) (media : Bytes)
    (h : 4096 < ext2Size / 512 % 2 ^ 8 * 512) :
    readBlocksUsb (volume ext2Size) (bind 256 512 media) 0 (.zeroed 4096) 1
      = .error .memory := by
  have hrequest : blockRequest (volume ext2Size) 0 1 = .ok (ext2Size / 512 % 2 ^ 8, 0) := by
    change (mulW 32 (ext2Size / 512) 1 >>= fun total => mulW 32 0 (ext2Size / 512) >>= fun offset =>
      addW 32 (0 % 2 ^ 32) offset >>= fun lba => pure (total % 2 ^ 8, lba)) = _
    rw [mulW_ok (by omega), ok_bind, mulW_ok (by omega), ok_bind, addW_ok (by omega), Nat.mul_one,
      Nat.zero_mul]
    rfl
  have hread := @readSectors_overrun (bind 256 512 media) (ext2Size / 512 % 2 ^ 8) 0
    (.zeroed 4096) (by omega) (Nat.succ_ne_zero 511) (by change _ * 512 < _; omega)
    (by change _ ≤ 256; omega) h
  have hsize : (volume ext2Size).blockSize ≠ 0 := by
    change ext2Size ≠ 0
    omega
  rw [readBlocksUsb, if_neg hsize, hrequest, ok_bind]
  dsimp only
  rw [hread]
  rfl

/-- The reads stay within their buffers and sectors stand where the device has them exactly
for devices with blocks of 512 bytes and Ext2 blocks that fit the buffer for structures. -/
theorem usb_reads_within_iff {size ext2Size : Nat} (hsize : 0 < size) (hword : size < 2 ^ 32)
    (hext2 : 512 ∣ ext2Size) (hext2Word : ext2Size < 2 ^ 32) :
    ReadsWithin size ext2Size ↔ size = 512 ∧ ext2Size / 512 % 2 ^ 8 * 512 ≤ 4096 := by
  have hbound : ∀ blocks media, (bind blocks size media).blockSize = size := fun _ _ =>
    if_neg (by omega)
  constructor
  · intro h
    have hsector := h.fatSector 1 (fun _ => 0) 0 1 (by decide)
    rw [hbound, Nat.one_mul] at hsector
    obtain rfl := size_of_absLba hword hsector
    refine ⟨rfl, Nat.not_lt.1 fun hlong => ?_⟩
    exact h.block 256 (fun _ => 0) (volume ext2Size) 0 (.zeroed 4096) rfl (Or.inl rfl)
      (readBlocksUsb_overrun hext2Word _ hlong)
  · rintro ⟨rfl, hfits⟩
    have hcancel := Nat.div_mul_cancel hext2
    refine ⟨fun blocks media fat buf hcache => ne_memory_read (hbound _ _) hcache buf,
      fun blocks media => ne_memory_findFatPartitionConfig (hbound _ _),
      fun blocks media => ne_memory_findExt2PartitionConfig (hbound _ _),
      fun blocks media fs => ne_memory_mountHereUsb (hbound _ _), ?_, ?_, ?_⟩
    · rintro blocks media fs block buf rfl hbuf
      refine ne_memory_readBlocksUsb (hbound _ _) ?_ block
      omega
    · intro blocks media start n hn
      exact absLba_block hn
    · rintro blocks media fs block total lba rfl hrequest
      obtain ⟨-, rfl⟩ := blockRequest_eq_ok hrequest
      rw [hbound, Nat.add_mul, Nat.mul_assoc, hcancel]

theorem usb_reads_within_iff_kib :
    ReadsWithin 512 1024 ↔ 512 = 512 ∧ 1024 / 512 % 2 ^ 8 * 512 ≤ 4096 :=
  usb_reads_within_iff (by decide) (by decide) (by decide) (by decide)

/-- A device with blocks of 4096 bytes: looking for a partition writes 4096 bytes into a
buffer of 512. -/
theorem large_blocks_overrun : findExt2PartitionConfig (bind 8 4096 fun _ => 0) = .error .memory ∧
      (FatDisk.new 0 0).read (bind 8 4096 fun _ => 0) (.zeroed 1) = .error .memory ∧
      mountHereUsb (volume 0) (bind 8 4096 fun _ => 0) = .error .memory ∧
      (FatDisk.new 0 0).absLba (1 * 4096) = .ok (8, 0) := by
  exact ⟨rfl, rfl, rfl, @absLba_block 0 8 (by decide)⟩

end Felix.Usb
