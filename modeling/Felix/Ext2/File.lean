import Felix.Ext2.Directory

/-!
# Regular files

The functions of `ext2.rs` that read and write the bytes of a file by its
inode.  `resolve_block` follows the pointers of an inode through up to three
tables; `ensure_file_block` is its counterpart for writes, which goes no
further than one table and allocates what is missing.

The clock is an argument.  A slice of the caller is a list of bytes; the
buffer that `read_at` fills is a `Buf`.
-/

namespace Felix

open Bytes

namespace Ext2

variable (fs : Ext2) (disk : Disk)

/-! ## From a block of the file to a block of the volume -/

/-- A pointer that is zero stands for no block. -/
def pointee (p : UInt32) : Option Nat := if p = 0 then none else some p.toNat

/-- One level of `resolve_block`: the table is read into the buffer, and the
entry is handed on with the buffer. -/
def throughTable (table : UInt32) (buf : Buf) (entry : Nat)
    (next : Buf → UInt32 → Res (Option Nat)) : Res (Option Nat) :=
  if table = 0 then .ok none
  else do
    let buf ← fs.readBlocks disk table.toNat buf 1
    let p ← buf.word (entry * 4)
    next buf p

def resolveBlock (inode : Ext2Inode) (logicalBlock : Nat) : Res (Option Nat) :=
  let numPtrs := fs.blockSize / 4
  let indirectBuf := Buf.zeroed fs.blockSize
  if logicalBlock < 12 then .ok (pointee (inode.ptr logicalBlock))
  else
    let offset := logicalBlock - 12
    if offset < numPtrs then
      fs.throughTable disk (inode.ptr 12) indirectBuf offset fun _ p => .ok (pointee p)
    else do
      let offset := offset - numPtrs
      let square ← mulW 32 numPtrs numPtrs
      if offset < square then
        fs.throughTable disk (inode.ptr 13) indirectBuf (offset / numPtrs) fun buf p =>
          fs.throughTable disk p buf (offset % numPtrs) fun _ p => .ok (pointee p)
      else do
        let offset := offset - square
        let cube ← mulW 32 square numPtrs
        if offset < cube then
          fs.throughTable disk (inode.ptr 14) indirectBuf (offset / square) fun buf p =>
            fs.throughTable disk p buf (offset / numPtrs % numPtrs) fun buf p =>
              fs.throughTable disk p buf (offset % numPtrs) fun _ p => .ok (pointee p)
        else .ok none

/-- The allocation of `ensure_file_block`: the new block is zeroed. -/
def allocZeroed : Res (Option Nat × Disk) := do
  match ← fs.allocBlock disk with
  | (none, disk) => .ok (none, disk)
  | (some block, disk) => do
    let disk ← fs.writeBlocks disk block (fun _ => 0) 1
    .ok (some block, disk)

/-- The part of `ensure_file_block` that gives the inode its table. -/
def ensureTable (inode : Ext2Inode) : Res (Option Ext2Inode × Disk) :=
  if inode.ptr 12 = 0 then do
    match ← fs.allocZeroed disk with
    | (none, disk) => .ok (none, disk)
    | (some table, disk) => .ok (some (inode.setPtr 12 (UInt32.ofNat table)), disk)
  else .ok (some inode, disk)

/-- The part of `ensure_file_block` that gives the table its entry. -/
def ensureEntry (table : UInt32) (entry : Nat) : Res (Option Nat × Disk) := do
  let buf ← fs.readBlocks disk table.toNat (.zeroed fs.blockSize) 1
  let off := entry * 4
  let block ← buf.word off
  if block = 0 then do
    match ← fs.allocZeroed disk with
    | (none, disk) => .ok (none, disk)
    | (some block, disk) => do
      let buf ← buf.setWord off (UInt32.ofNat block)
      let disk ← fs.writeBlocks disk table.toNat buf.byte 1
      .ok (some block, disk)
  else .ok (some block.toNat, disk)

/-- `ensure_file_block`.  It changes the inode in memory only. -/
def ensureFileBlock (inode : Ext2Inode) (logicalBlock : Nat) :
    Res (Option Nat × Ext2Inode × Disk) :=
  let ptrsPerBlock := fs.blockSize / 4
  if 12 + ptrsPerBlock ≤ logicalBlock then .ok (none, inode, disk)
  else if logicalBlock < 12 then
    if inode.ptr logicalBlock = 0 then do
      match ← fs.allocZeroed disk with
      | (none, disk) => .ok (none, inode, disk)
      | (some block, disk) =>
        .ok (some block, inode.setPtr logicalBlock (UInt32.ofNat block), disk)
    else .ok (some (inode.ptr logicalBlock).toNat, inode, disk)
  else do
    match ← fs.ensureTable disk inode with
    | (none, disk) => .ok (none, inode, disk)
    | (some inode, disk) => do
      let (block, disk) ← fs.ensureEntry disk (inode.ptr 12) (logicalBlock - 12)
      .ok (block, inode, disk)

/-! ## Sizes -/

/-- `(size + block_size - 1) / block_size`. -/
def blocksFor (size : Nat) : Res Nat := do
  let sum ← addW 32 size fs.blockSize
  let sum ← subW sum 1
  divW sum fs.blockSize

/-- `(blocks + if blocks > 12 { 1 } else { 0 }) * (block_size / 512)`. -/
def sectorsFor (blocks : Nat) : Res Nat := do
  let total ← addW 32 blocks (if 12 < blocks then 1 else 0)
  mulW 32 total (fs.blockSize / 512)

/-- How many blocks `size` bytes take. -/
def blockCount (size : Nat) : Nat := (size + fs.blockSize - 1) / fs.blockSize

theorem blocksFor_ok {fs : Ext2} {size : Nat} (hpos : 0 < fs.blockSize)
    (h : size + fs.blockSize < 2 ^ 32) : fs.blocksFor size = .ok (fs.blockCount size) := by
  unfold blocksFor
  rw [addW_ok h, Res.ok_bind, subW_ok (by omega), Res.ok_bind, divW_ok hpos]
  rfl

theorem blockCount_le_iff {fs : Ext2} (hpos : 0 < fs.blockSize) {size k : Nat} :
    fs.blockCount size ≤ k ↔ size ≤ k * fs.blockSize := by
  unfold blockCount
  rw [← Nat.lt_add_one_iff, Nat.div_lt_iff_lt_mul hpos, Nat.add_mul]
  omega

theorem lt_of_lt_blockCount {fs : Ext2} (hpos : 0 < fs.blockSize) {size j : Nat}
    (hj : j < fs.blockCount size) : j * fs.blockSize < size := by
  by_contra hle
  have hcount := (blockCount_le_iff hpos).2 (Nat.le_of_not_lt hle)
  omega

theorem sectorsFor_ok (fs : Ext2) (hb : fs.blockSize ≤ 4096) {blocks : Nat}
    (h : blocks < 2 ^ 22 + 1) : ∃ sectors, fs.sectorsFor blocks = .ok sectors := by
  unfold sectorsFor
  have hplus : blocks + (if 12 < blocks then 1 else 0) < 2 ^ 23 := by
    split <;> omega
  have hmul : (blocks + (if 12 < blocks then 1 else 0)) * (fs.blockSize / 512)
      ≤ 2 ^ 23 * (4096 / 512) := Nat.mul_le_mul (by omega) (by omega)
  rw [addW_ok (by omega), Res.ok_bind, mulW_ok (by omega)]
  exact ⟨_, rfl⟩

/-! ## Reading -/

/-- The loop of `read_at`.  The first number bounds the rounds. -/
def readLoop (fs : Ext2) (disk : Disk) (inode : Ext2Inode) (toRead : Nat) :
    Nat → Nat → Nat → Buf → Res (Nat × Buf)
  | 0, bytesRead, _, buf =>
    if bytesRead < toRead then .error .diverged else .ok (bytesRead, buf)
  | fuel + 1, bytesRead, currentOffset, buf =>
    if bytesRead < toRead then do
      let blockIndex := currentOffset / fs.blockSize % 2 ^ 32
      match ← fs.resolveBlock disk inode blockIndex with
      | none => .ok (bytesRead, buf)
      | some blockNum => do
        let blockBuf ← fs.readBlocks disk blockNum (.zeroed fs.blockSize) 1
        let blockOffset := currentOffset % fs.blockSize
        let canRead := min (toRead - bytesRead) (fs.blockSize - blockOffset)
        let chunk ← blockBuf.slice blockOffset (blockOffset + canRead)
        let buf ← buf.copyFromSlice bytesRead chunk
        let currentOffset ← addW 64 currentOffset canRead
        readLoop fs disk inode toRead fuel (bytesRead + canRead) currentOffset buf
    else .ok (bytesRead, buf)

/-- `read_at`: the number of bytes read, and the buffer. -/
def readAt (inodeNum offset : Nat) (buf : Buf) : Res (Nat × Buf) := do
  let inode ← fs.readInode disk inodeNum
  if inode.isRegular = false then .ok (0, buf)
  else
    let fileSize := inode.iSize.toNat
    if fileSize ≤ offset then .ok (0, buf)
    else
      let toRead := min buf.len (fileSize - offset)
      fs.readLoop disk inode toRead toRead 0 offset buf

/-! ## Writing -/

/-- The loop of `write_at`.  The first number bounds the rounds. -/
def writeLoop (fs : Ext2) (buf : List UInt8) :
    Nat → Nat → Nat → Ext2Inode → Disk → Res (Nat × Ext2Inode × Disk)
  | 0, written, _, inode, disk =>
    if written < buf.length then .error .diverged else .ok (written, inode, disk)
  | fuel + 1, written, cur, inode, disk =>
    if written < buf.length then
      let blockIndex := cur / fs.blockSize % 2 ^ 32
      if 12 + fs.blockSize / 4 ≤ blockIndex then .ok (written, inode, disk)
      else do
        match ← fs.ensureFileBlock disk inode blockIndex with
        | (none, inode, disk) => .ok (written, inode, disk)
        | (some blockNum, inode, disk) => do
          let blockOff := cur % fs.blockSize
          let can := min (buf.length - written) (fs.blockSize - blockOff)
          let blockBuf ← fs.readBlocks disk blockNum (.zeroed fs.blockSize) 1
          let chunk ← subslice buf written (written + can)
          let blockBuf ← blockBuf.copyFromSlice blockOff chunk
          let disk ← fs.writeBlocks disk blockNum blockBuf.byte 1
          let cur ← addW 64 cur can
          writeLoop fs buf fuel (written + can) cur inode disk
    else .ok (written, inode, disk)

/-- The inode that `write_at` leaves. -/
def grownInode (inode : Ext2Inode) (offset written : Nat) (now : UInt32) : Res Ext2Inode := do
  let reached ← addW 64 offset written
  let newSize := max inode.iSize.toNat reached % 2 ^ 32
  let usedBlocks ← fs.blocksFor newSize
  let neededSectors ← fs.sectorsFor usedBlocks
  let inode :=
    { inode with
      iSize := UInt32.ofNat newSize
      iBlocks := UInt32.ofNat (max inode.iBlocks.toNat neededSectors) }
  .ok (if written ≠ 0 then { inode with iMtime := now, iCtime := now } else inode)

/-- `write_at`: the number of bytes written, and the disk. -/
def writeAt (inodeNum offset : Nat) (buf : List UInt8) (now : UInt32) : Res (Nat × Disk) :=
  if buf = [] then .ok (0, disk)
  else do
    let inode ← fs.readInode disk inodeNum
    if inode.isRegular = false then .ok (0, disk)
    else do
      let (written, inode, disk) ← fs.writeLoop buf buf.length 0 offset inode disk
      let inode ← fs.grownInode inode offset written now
      let disk ← fs.writeInode disk inodeNum inode
      .ok (written, disk)

/-- The loop of `write_file_by_inode`, from block `i` of the file on. -/
def writeFileBlocks (fs : Ext2) (data : List UInt8) :
    Nat → Nat → Ext2Inode → Disk → Res (Option Ext2Inode × Disk)
  | 0, _, inode, disk => .ok (some inode, disk)
  | rounds + 1, i, inode, disk => do
    match ← fs.ensureFileBlock disk inode i with
    | (none, _, disk) => .ok (none, disk)
    | (some block, inode, disk) => do
      let start ← mulW 32 i fs.blockSize
      let sum ← addW 32 start fs.blockSize
      let finish := min sum data.length
      let chunk ← subslice data start finish
      let blockBuf ← (Buf.zeroed fs.blockSize).copyFromSlice 0 chunk
      let disk ← fs.writeBlocks disk block blockBuf.byte 1
      writeFileBlocks fs data rounds (i + 1) inode disk

def writeFileByInode (inodeNum : Nat) (data : List UInt8) (now : UInt32) : Res (Bool × Disk) := do
  let inode ← fs.readInode disk inodeNum
  if inode.isRegular = false then .ok (false, disk)
  else do
    let numBlocksNeeded ← fs.blocksFor (data.length % 2 ^ 32)
    let maxBlocks := 12 + fs.blockSize / 4
    if maxBlocks < numBlocksNeeded then .ok (false, disk)
    else do
      let (written, disk) ← fs.writeFileBlocks data numBlocksNeeded 0 inode disk
      match written with
      | none => .ok (false, disk)
      | some inode => do
        let neededSectors ← fs.sectorsFor numBlocksNeeded
        let inode :=
          { inode with
            iSize := UInt32.ofNat data.length
            iMtime := now
            iCtime := now
            iBlocks := UInt32.ofNat (max inode.iBlocks.toNat neededSectors) }
        let disk ← fs.writeInode disk inodeNum inode
        .ok (true, disk)

end Ext2

end Felix
