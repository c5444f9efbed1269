import Felix.Base.Bytes

/-!
# Block devices

`BlockDevice` is the trait that the file systems read and write through.
A `Disk` is a device of 512-byte sectors that keeps what was last written:
a transfer that leaves the device fails with an error code and moves no
byte.  The lock around the device plays no part here.
-/

namespace Felix

/-- A block device: the number of sectors and their bytes. -/
structure Disk where
  sectors : Nat
  data : Bytes

namespace Disk

open Bytes

/-- `BlockDevice::read_sectors` into a buffer. -/
def readSectors (disk : Disk) (numsects lba : Nat) (buf : Bytes) : Except UInt8 Bytes :=
  if lba + numsects ≤ disk.sectors then
    .ok (splice 0 (numsects * 512) (shift (lba * 512) disk.data) buf)
  else .error 1

/-- `BlockDevice::write_sectors` from a buffer. -/
def writeSectors (disk : Disk) (numsects lba : Nat) (buf : Bytes) : Except UInt8 Disk :=
  if lba + numsects ≤ disk.sectors then
    .ok { disk with data := splice (lba * 512) (numsects * 512) buf disk.data }
  else .error 1

end Disk

end Felix
