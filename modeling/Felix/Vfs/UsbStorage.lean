import Felix.Ext2.Driver

/-!
# File systems on USB storage

`UsbMsc` is the block device of `kernel/src/drivers/usb/msc.rs`.  It moves whole
blocks of the size that the device reported; the caller passes a sector count and a
pointer, so a transfer that is longer than the caller's buffer faults.  The file
systems work with sectors of 512 bytes: `FatDisk` of `fat32.rs`, which turns the
device into a byte stream with a cache of one sector, and the calls by which `Ext2`
reads the device.

The device refuses a transfer beyond its last block and does every other one.  What
is printed is left out.
-/

namespace Felix.Usb

open Bytes

/-- A USB storage device: the block size and the number of blocks it reported, and what
is on it. -/
structure UsbMsc where
  blockSize : Nat
  blocks : Nat
  media : Bytes

/-- The block size and block count that `bind` takes from READ CAPACITY. -/
def bind (blocks size : Nat) (media : Bytes) : UsbMsc :=
  ⟨if size = 0 then 512 else size, blocks, media⟩

/-- `UsbMsc::read_sectors` to the start of a buffer. -/
def UsbMsc.readSectors (dev : UsbMsc) (numsects lba : Nat) (buf : Buf) : Res (Except UInt8 Buf) :=
  if numsects = 0 ∨ dev.blockSize = 0 then .ok (.error 1)
  else do
    let bytes ← mulW 32 numsects dev.blockSize
    if dev.blocks < lba + numsects then .ok (.error 2)
    else if buf.len < bytes then .error .memory
    else .ok (.ok ⟨buf.len, splice 0 bytes (shift (lba * dev.blockSize) dev.media) buf.byte⟩)

/-! ## FAT -/

structure FatDisk where
  startLba : Nat
  pos : Nat
  size : Nat
  cachedLba : Option Nat
  cachedSector : Buf

namespace FatDisk

def new (startLba sizeBytes : Nat) : FatDisk := ⟨startLba, 0, sizeBytes, none, .zeroed 512⟩

/-- The sector of a byte of the partition, and the place of the byte in it. -/
def absLba (fat : FatDisk) (byteOff : Nat) : Res (Nat × Nat) := do
  let start ← mulW 64 fat.startLba 512
  let abs ← addW 64 start byteOff
  pure (abs / 512 % 2 ^ 32, abs % 512)

/-- The part of `read` that brings a sector into the cache; `none` is an error of the
device. -/
def fill (fat : FatDisk) (dev : UsbMsc) (lba : Nat) : Res (Option FatDisk) :=
  if fat.cachedLba = some lba then .ok (some fat)
  else do
    match ← dev.readSectors 1 lba fat.cachedSector with
    | .error _ => .ok none
    | .ok cachedSector => .ok (some { fat with cachedLba := some lba, cachedSector })

/-- The loop of `read`.  The first number bounds the rounds. -/
def readLoop (dev : UsbMsc) : Nat → Nat → FatDisk → Buf → Res (Option Nat × FatDisk × Buf)
  | 0, done, fat, buf =>
    if done < buf.len then .error .diverged else .ok (some done, fat, buf)
  | fuel + 1, done, fat, buf =>
    if done < buf.len then do
      let here ← addW 64 fat.pos done
      if fat.size ≠ 0 ∧ fat.size ≤ here then .ok (some done, fat, buf)
      else do
        let (lba, off) ← fat.absLba here
        match ← fat.fill dev lba with
        | none => .ok (none, fat, buf)
        | some fat => do
          let n := min (512 - off) (buf.len - done)
          let n := if fat.size ≠ 0 then min n ((fat.size - here) % 2 ^ 32) else n
          let piece ← fat.cachedSector.slice off (off + n)
          let buf ← buf.copyFromSlice done piece
          readLoop dev fuel (done + n) fat buf
    else .ok (some done, fat, buf)

/-- `Read::read` of `FatDisk`: the number of bytes read, or `none` for an error of the device. -/
def read (fat : FatDisk) (dev : UsbMsc) (buf : Buf) : Res (Option Nat × FatDisk × Buf) :=
  if buf.len = 0 then .ok (some 0, fat, buf)
  else if fat.size ≠ 0 ∧ fat.size ≤ fat.pos then .ok (some 0, fat, buf)
  else do
    match ← readLoop dev buf.len 0 fat buf with
    | (none, fat, buf) => .ok (none, fat, buf)
    | (some done, fat, buf) => do
      let pos ← addW 64 fat.pos done
      .ok (some done, { fat with pos }, buf)

end FatDisk

def fatPartTypes : List UInt8 := [0x01, 0x04, 0x06, 0x0B, 0x0C, 0x0E]

def isFatVbr (sec : Bytes) : Bool :=
  if sec 510 ≠ 0x55 ∨ sec 511 ≠ 0xAA then false
  else if sec 0 ≠ 0xEB ∧ sec 0 ≠ 0xE9 then false
  else if get16 11 sec ∉ [512, 1024, 2048, 4096] then false
  else if sec 13 = 0 ∨ sec 13 &&& (sec 13 - 1) ≠ 0 then false
  else (sec 38 = 70 && sec 39 = 65 && sec 40 = 84) || (sec 82 = 70 && sec 83 = 65 && sec 84 = 84)

/-- `find_fat_partition_config`: the first sector of the partition.  The boot sector of
the partition is read as well, to be printed. -/
def findFatPartitionConfig (dev : UsbMsc) : Res Nat := do
  match ← dev.readSectors 1 0 (.zeroed 512) with
  | .error _ => .ok 0
  | .ok mbr =>
    if isFatVbr mbr.byte then .ok 0
    else if mbr.byte 510 ≠ 0x55 ∨ mbr.byte 511 ≠ 0xAA then .ok 0
    else
      match (List.range 4).find? fun i => mbr.byte (446 + i * 16 + 4) ∈ fatPartTypes with
      | none => .ok 0
      | some i => do
        let lba := (get32 (446 + i * 16 + 8) mbr.byte).toNat
        let _ ← dev.readSectors 1 lba (.zeroed 512)
        .ok lba

/-! ## Ext2 -/

/-- `find_ext2_partition_config`: the first sector of the partition. -/
def findExt2PartitionConfig (dev : UsbMsc) : Res Nat := do
  match ← dev.readSectors 1 0 (.zeroed 512) with
  | .error _ => .ok 0
  | .ok mbr =>
    if mbr.byte 510 ≠ 0x55 ∨ mbr.byte 511 ≠ 0xAA then .ok 0
    else
      match (List.range 4).find? fun i => mbr.byte (446 + i * 16 + 4) = 0x83 with
      | none => .ok 0
      | some i => .ok (get32 (446 + i * 16 + 8) mbr.byte).toNat

/-- The part of `mount` that reads the superblock, on a USB device. -/
def mountHereUsb (fs : Ext2) (dev : UsbMsc) : Res Ext2 := do
  let sbOffset ← addW 64 fs.partitionOffset 2
  match ← dev.readSectors 2 (sbOffset % 2 ^ 32) (.zeroed 1024) with
  | .error _ => .ok fs
  | .ok superblockBuf =>
    let superblock := Ext2SuperBlock.decode superblockBuf.byte
    if superblock.sMagic ≠ Ext2.ext2Magic then .ok { fs with superblock := superblock }
    else do
      let blockSize ← shlW 32 1024 superblock.sLogBlockSize.toNat
      .ok { fs with superblock := superblock, blockSize := blockSize, mounted := true }

/-- The sectors that `read_blocks` asks for: how many, and the first. -/
def blockRequest (fs : Ext2) (block count : Nat) : Res (Nat × Nat) := do
  let sectorsPerBlock := fs.blockSize / 512
  let total ← mulW 32 sectorsPerBlock count
  let offset ← mulW 32 block sectorsPerBlock
  let lba ← addW 32 (fs.partitionOffset % 2 ^ 32) offset
  pure (total % 2 ^ 8, lba)

/-- `read_blocks` on a USB device. -/
def readBlocksUsb (fs : Ext2) (dev : UsbMsc) (block : Nat) (buf : Buf) (count : Nat) : Res Buf :=
  if fs.blockSize = 0 then .ok buf
  else do
    let (totalSectors, lba) ← blockRequest fs block count
    match ← dev.readSectors totalSectors lba buf with
    | .error _ => .ok buf
    | .ok buf => .ok buf

end Felix.Usb
