import Felix.Ext2.FileBytes

/-!
# Runs of reads and writes on one file

The three operations on the bytes of a regular file, run one after the other,
against a reference array that is a list of bytes.  `FileOp.step` is what one
operation does, and `runAgrees` is the statement about whole runs.
-/

namespace Felix

open Bytes Res List

namespace Ext2

variable {fs : Ext2} {g : Geometry} {disk : Disk} {n : Nat} {ref : List UInt8}

/-! ## Files and reference arrays -/

/-- Inode `n` is a regular file of the volume on the disk. -/
structure IsFile (fs : Ext2) (g : Geometry) (disk : Disk) (n : Nat) : Prop where
  volume : fs.Volume g disk
  valid : fs.ValidInode n
  regular : ((fs.view g disk).inode n).isRegular = true
  mapped : fs.Mapped (fs.view g disk) ((fs.view g disk).inode n) g

section

variable (fs : Ext2) (g : Geometry) (disk : Disk) (n : Nat)

/-- The size of a file. -/
noncomputable def sizeOf : Nat := ((fs.view g disk).inode n).iSize.toNat

/-- Byte `p` of a file. -/
noncomputable def byteOf (p : Nat) : UInt8 :=
  fs.fileByte (fs.view g disk) ((fs.view g disk).inode n) p

/-- The pointer to block `i` of a file. -/
noncomputable def ptrOf (i : Nat) : UInt32 :=
  fs.blockPtr (fs.view g disk) ((fs.view g disk).inode n) i

/-- The blocks from `lo` to `hi` of a file can be made. -/
def HasRoom (lo hi : Nat) : Prop :=
  fs.need (fs.view g disk) ((fs.view g disk).inode n) lo hi
    ≤ fs.freeBlocks (fs.view g disk) g

/-- The contents of a file. -/
noncomputable def contents : List UInt8 :=
  (List.range (fs.sizeOf g disk n)).map (fs.byteOf g disk n)

end

/-- A file holds the bytes of a reference array. -/
structure Holds (fs : Ext2) (g : Geometry) (disk : Disk) (n : Nat) (ref : List UInt8) :
    Prop where
  size : fs.sizeOf g disk n = ref.length
  bytes : ∀ p, p < ref.length → ref[p]? = some (fs.byteOf g disk n p)

theorem holds_contents : Holds fs g disk n (fs.contents g disk n) := by
  refine ⟨?_, fun p hp => ?_⟩
  · rw [contents, length_map, length_range]
  · rw [contents, length_map, length_range] at hp
    simp [contents, hp]

/-- The reference array after a write: the bytes at the offset, and zeros in a
gap before it. -/
def overwrite (ref : List UInt8) (offset : Nat) (bytes : List UInt8) : List UInt8 :=
  (List.range (max ref.length (offset + bytes.length))).map fun p =>
    if offset ≤ p ∧ p < offset + bytes.length then bytes.getD (p - offset) 0 else ref.getD p 0

theorem length_overwrite (ref : List UInt8) (offset : Nat) (bytes : List UInt8) :
    (overwrite ref offset bytes).length = max ref.length (offset + bytes.length) := by
  rw [overwrite, length_map, length_range]

theorem getElem?_overwrite {offset : Nat} {bytes : List UInt8} {p : Nat}
    (hp : p < max ref.length (offset + bytes.length)) :
    (overwrite ref offset bytes)[p]? = some (if offset ≤ p ∧ p < offset + bytes.length
      then bytes.getD (p - offset) 0 else ref.getD p 0) := by
  rw [overwrite, getElem?_map, getElem?_range hp, Option.map_some]

/-! ## The three operations -/

variable {v : Vol} {inode inode' : Ext2Inode}

theorem slot_setInode (hptr : inode'.iBlock = inode.iBlock) :
    fs.slot (v.setInode n inode') inode' = fs.slot v inode := by
  refine slot_congr (fun i => ?_) fun s _ _ => rfl
  unfold Ext2Inode.ptr
  rw [hptr]

theorem fileByte_setInode (hptr : inode'.iBlock = inode.iBlock) (p : Nat) :
    fs.fileByte (v.setInode n inode') inode' p = fs.fileByte v inode p := by
  have hblock : ∀ i, fs.blockPtr (v.setInode n inode') inode' i = fs.blockPtr v inode i :=
    fun i => congrFun (slot_setInode hptr) (.data i)
  unfold fileByte fileBlock
  rw [hblock, Vol.setInode_block]

theorem Mapped.setInode (h : fs.Mapped v inode g)
    (hptr : inode'.iBlock = inode.iBlock) : fs.Mapped (v.setInode n inode') inode' g :=
  h.congr (slot_setInode hptr) rfl

theorem maxBytes_le (hb : fs.blockSize ≤ 4096) : fs.maxBytes ≤ (12 + 4096 / 4) * 4096 :=
  Nat.mul_le_mul (by omega) hb

namespace IsFile

variable (h : IsFile fs g disk n) (offset : Nat) (now : UInt32) {data : List UInt8}
include h

theorem bounds : 1024 ≤ fs.blockSize ∧ fs.blockSize ≤ 4096 :=
  h.volume.sound.mountable.size.bounds

/-- `read_at` copies the bytes up to the end, or up to the first block that is
missing. -/
theorem readAt_eq (buf : Buf) : ∃ count buf', fs.readAt disk n offset buf = .ok (count, buf') ∧
      count ≤ min buf.len (fs.sizeOf g disk n - offset) ∧
      (∀ k, k < count → buf'.byte k = fs.byteOf g disk n (offset + k)) ∧
      (∀ p, offset ≤ p → p < offset + count → fs.ptrOf g disk n (p / fs.blockSize) ≠ 0) ∧
      (count < min buf.len (fs.sizeOf g disk n - offset) →
        fs.ptrOf g disk n ((offset + count) / fs.blockSize) = 0) := by
  have hsize : fs.sizeOf g disk n < 2 ^ 32 := UInt32.toNat_lt _
  unfold readAt
  rw [h.volume.readInode_eq h.valid, ok_bind, if_neg (by simp [h.regular])]
  by_cases hend : fs.sizeOf g disk n ≤ offset
  · refine ⟨0, buf, if_pos hend, Nat.zero_le _, fun k hk => absurd hk (Nat.not_lt_zero k),
      fun p hp hp' => by omega, fun hlt => by omega⟩
  obtain ⟨count, buf', hrun, _, hhigh, hbytes, hpresent, hhole⟩ :=
    h.volume.shows.readLoop_eq h.mapped
    (min buf.len (fs.sizeOf g disk n - offset)) (min buf.len (fs.sizeOf g disk n - offset))
    0 offset buf (by omega) (by omega) (by omega)
  refine ⟨count, buf', (if_neg hend).trans hrun, by omega, fun k hk => ?_, hpresent, hhole⟩
  rw [hbytes k, if_pos ⟨Nat.zero_le k, hk⟩]
  rfl

/-- `write_at` stores a prefix of the bytes and leaves the others. -/
theorem writeAt_eq (buf : List UInt8) (now : UInt32) (hbuf : buf ≠ [])
    (hoffset : offset < fs.maxBytes) (hlen : buf.length < 2 ^ 32)
    (hsize : fs.sizeOf g disk n + fs.blockSize < 2 ^ 32) :
    ∃ count disk', fs.writeAt disk n offset buf now = .ok (count, disk') ∧
      IsFile fs g disk' n ∧ count ≤ buf.length ∧
      fs.sizeOf g disk' n = max (fs.sizeOf g disk n) (offset + count) ∧
      (∀ p, fs.byteOf g disk' n p = if offset ≤ p ∧ p < offset + count
        then buf.getD (p - offset) 0 else fs.byteOf g disk n p) ∧
      (∀ j, (∀ p, offset ≤ p → p < offset + buf.length → p / fs.blockSize ≠ j) →
        fs.ptrOf g disk' n j = fs.ptrOf g disk n j) ∧
      (offset + buf.length ≤ fs.maxBytes →
        fs.HasRoom g disk n (offset / fs.blockSize)
          ((offset + buf.length - 1) / fs.blockSize + 1) → count = buf.length) := by
  have hb := h.bounds
  have hmax := maxBytes_le hb.2
  have hpos : 0 < buf.length := length_pos_of_ne_nil hbuf
  obtain ⟨count, inode₁, disk₁, v₁, hloop, h₁, hw⟩ := h.volume.shows.writeLoop_eq h.mapped
    buf buf.length 0 offset (by omega) hlen (by omega)
  have hreach := hw.reach
  have hupper := hw.upper
  have hiSize : inode₁.iSize.toNat = fs.sizeOf g disk n := by
    rw [hw.rest]
    rfl
  -- the size stays far below the point where its computation overflows
  generalize hnew : max (fs.sizeOf g disk n) (offset + count) = newSize
  have hnewLt : newSize + fs.blockSize < 2 ^ 32 := by omega
  have hused : fs.blockCount newSize < 2 ^ 22 + 1 :=
    Nat.lt_of_le_of_lt (Nat.div_le_div_left hb.1 (by omega)) (by omega)
  obtain ⟨sectors, hsectors⟩ := sectorsFor_ok fs hb.2 hused
  have hgrown : ∃ inode₂, fs.grownInode inode₁ offset count now = .ok inode₂ ∧
      inode₂.iBlock = inode₁.iBlock ∧ inode₂.iMode = inode₁.iMode ∧
      inode₂.iSize.toNat = newSize := by
    unfold grownInode
    rw [addW_ok (by omega), ok_bind, hiSize, hnew]
    simp only [Nat.mod_eq_of_lt (show newSize < 2 ^ 32 by omega)]
    rw [blocksFor_ok (by omega) hnewLt, ok_bind, hsectors]
    refine ⟨_, rfl, ?_, ?_, ?_⟩
    · split <;> rfl
    · split <;> rfl
    · split
      · exact Nat.mod_eq_of_lt (by omega)
      · exact Nat.mod_eq_of_lt (by omega)
  obtain ⟨inode₂, hgrow, hblock, hmode, hsz⟩ := hgrown
  obtain ⟨disk', hwrite, hvol', hview'⟩ := h₁.writeInode_eq h.valid inode₂
  have hinode : (fs.view g disk').inode n = inode₂ := by
    rw [hview', Vol.setInode_inode_self]
  have hregular := h.regular
  refine ⟨count, disk', ?_, ⟨hvol', h.valid, ?_, ?_⟩, by omega, ?_, fun p => ?_, fun j hj => ?_,
    fun hfit hroom => ?_⟩
  · unfold writeAt
    rw [if_neg hbuf, h.volume.readInode_eq h.valid, ok_bind, if_neg (by simp [hregular]), hloop]
    simp only [hgrow, hwrite, ok_bind]
  · rw [hinode, Ext2Inode.isRegular, hmode, hw.rest]
    exact hregular
  · rw [hinode, hview']
    exact hw.mapped.setInode hblock
  · show ((fs.view g disk').inode n).iSize.toNat = _
    rw [hinode, hsz, ← hnew]
  · unfold byteOf
    rw [hinode, hview', fileByte_setInode hblock, hw.bytes p, Nat.sub_zero, Nat.zero_add]
  · unfold ptrOf
    rw [hinode, hview']
    refine (congrFun (slot_setInode hblock) (.data j)).trans (hw.others j fun p hp hp' => ?_)
    exact hj p hp (by omega)
  · exact hw.all hpos (by omega) hroom

/-- The number of blocks that `write_file_by_inode` needs. -/
theorem blocks_le_iff (size : Nat) :
    fs.blockCount size ≤ 12 + fs.blockSize / 4 ↔ size ≤ fs.maxBytes := by
  have hb := h.bounds
  exact blockCount_le_iff (by omega)

/-- `write_file_by_inode` rejects what is too large and changes nothing. -/
theorem writeFileByInode_reject (hlen : data.length < 2 ^ 31) (hbig : ¬ data.length ≤ fs.maxBytes) :
    fs.writeFileByInode disk n data now = .ok (false, disk) := by
  have hb := h.bounds
  unfold writeFileByInode
  rw [h.volume.readInode_eq h.valid, ok_bind, if_neg (by simp [h.regular]),
    Nat.mod_eq_of_lt (by omega), blocksFor_ok (by omega) (by omega), ok_bind]
  rw [if_pos]
  have hiff := h.blocks_le_iff data.length
  omega

/-- `write_file_by_inode` replaces the contents when there is room. -/
theorem writeFileByInode_eq (hfit : data.length ≤ fs.maxBytes)
    (hroom : fs.HasRoom g disk n 0 (fs.blockCount data.length)) :
    ∃ disk', fs.writeFileByInode disk n data now = .ok (true, disk') ∧
      IsFile fs g disk' n ∧ fs.sizeOf g disk' n = data.length ∧
      ∀ p, p < data.length → fs.byteOf g disk' n p = data.getD p 0 := by
  have hb := h.bounds
  have hmax := maxBytes_le hb.2
  have hblocks := (h.blocks_le_iff data.length).2 hfit
  have hmul : fs.blockCount data.length * fs.blockSize ≤ data.length + fs.blockSize - 1 :=
    Nat.div_mul_le_self (data.length + fs.blockSize - 1) fs.blockSize
  have hcover : data.length ≤ fs.blockCount data.length * fs.blockSize :=
    (blockCount_le_iff (by omega)).1 (Nat.le_refl _)
  generalize hnum : fs.blockCount data.length = num at *
  obtain ⟨inode₁, disk₁, v₁, hloop, h₁, hw⟩ := h.volume.shows.writeFileBlocks_eq h.mapped
    data num 0 (by omega) (by rw [Nat.zero_add]; omega)
    (by rw [Nat.zero_add]; exact hroom)
  obtain ⟨sectors, hsectors⟩ := sectorsFor_ok fs hb.2 (show num < 2 ^ 22 + 1 by omega)
  generalize hinode₂ : ({ inode₁ with
      iSize := UInt32.ofNat data.length
      iMtime := now
      iCtime := now
      iBlocks := UInt32.ofNat (max inode₁.iBlocks.toNat sectors) } : Ext2Inode) = inode₂
  have hblock : inode₂.iBlock = inode₁.iBlock := by rw [← hinode₂]
  obtain ⟨disk', hwrite, hvol', hview'⟩ := h₁.writeInode_eq h.valid inode₂
  have hinode : (fs.view g disk').inode n = inode₂ := by
    rw [hview', Vol.setInode_inode_self]
  have hregular := h.regular
  refine ⟨disk', ?_, ⟨hvol', h.valid, ?_, ?_⟩, ?_, fun p hp => ?_⟩
  · unfold writeFileByInode
    rw [h.volume.readInode_eq h.valid, ok_bind, if_neg (by simp [hregular]),
      Nat.mod_eq_of_lt (by omega), blocksFor_ok (by omega) (by omega), ok_bind]
    simp only [hnum]
    rw [if_neg (by omega), hloop]
    simp only [hsectors, ok_bind, hinode₂, hwrite]
  · rw [hinode, ← hinode₂]
    rw [hw.rest]
    exact hregular
  · rw [hinode, hview']
    exact hw.mapped.setInode hblock
  · unfold sizeOf
    rw [hinode, ← hinode₂]
    exact Nat.mod_eq_of_lt (by omega)
  · unfold byteOf
    rw [hinode, hview', fileByte_setInode hblock, hw.bytes p, if_pos]
    rw [Nat.zero_add]
    omega

end IsFile

/-! ## Runs -/

/-- An operation on the bytes of a file.  `now` is the clock. -/
inductive FileOp where
  | readAt (offset : Nat) (buf : Buf)
  | writeAt (offset : Nat) (buf : List UInt8) (now : UInt32)
  | writeFile (data : List UInt8) (now : UInt32)

/-- What an operation returns. -/
inductive FileRes where
  | read (count : Nat) (buf : Buf)
  | wrote (count : Nat)
  | replaced (ok : Bool)

namespace FileOp

/-- The operation on inode `n`. -/
def run (fs : Ext2) (n : Nat) (disk : Disk) : FileOp → Res (FileRes × Disk)
  | .readAt offset buf => do
    let (count, buf) ← fs.readAt disk n offset buf
    .ok (.read count buf, disk)
  | .writeAt offset buf now => do
    let (count, disk) ← fs.writeAt disk n offset buf now
    .ok (.wrote count, disk)
  | .writeFile data now => do
    let (ok, disk) ← fs.writeFileByInode disk n data now
    .ok (.replaced ok, disk)

/-- Offsets lie below the end of the single indirect blocks, and a slice is
shorter than half of the address space. -/
def InRange (fs : Ext2) : FileOp → Prop
  | .readAt offset buf => offset < fs.maxBytes ∧ buf.len < 2 ^ 31
  | .writeAt offset buf _ => offset < fs.maxBytes ∧ buf.length < 2 ^ 31
  | .writeFile data _ => data.length < 2 ^ 31

/-- The reference array after an operation that returned `res`: a write stores
the bytes that it reports as written, and a rejected one changes nothing. -/
def apply (ref : List UInt8) : FileOp → FileRes → List UInt8
  | .writeAt offset buf _, .wrote count =>
    if buf = [] then ref else overwrite ref offset (buf.take count)
  | .writeFile data _, .replaced true => data
  | _, _ => ref

/-- The result of an operation is the one that the reference array gives.  A
write stores everything when it ends below the last single indirect block and
there are blocks for it, and a rewrite fails only when it is too large. -/
def Agrees (fs : Ext2) (g : Geometry) (disk : Disk) (n : Nat) (ref : List UInt8) :
    FileOp → FileRes → Prop
  | .readAt offset buf, .read count buf' =>
    count = min buf.len (ref.length - offset) ∧
      ∀ k, k < count → ref[offset + k]? = some (buf'.byte k)
  | .writeAt offset buf _, .wrote count =>
    count ≤ buf.length ∧ (offset + buf.length ≤ fs.maxBytes →
      fs.HasRoom g disk n (offset / fs.blockSize)
        ((offset + buf.length - 1) / fs.blockSize + 1) → count = buf.length)
  | .writeFile data _, .replaced ok => ok = decide (data.length ≤ fs.maxBytes)
  | _, _ => False

/-- When an operation agrees with the reference array: a read meets no missing
block; the bytes between the end of the file and the start of a write are
zeros where blocks are allocated, and the size is not at the end of its range;
there are blocks for a rewrite. -/
def Condition (fs : Ext2) (g : Geometry) (disk : Disk) (n : Nat) : FileOp → Prop
  | .readAt offset buf => ∀ p, offset ≤ p → p < offset + buf.len → p < fs.sizeOf g disk n →
    fs.ptrOf g disk n (p / fs.blockSize) ≠ 0
  | .writeAt offset buf _ => buf ≠ [] → fs.sizeOf g disk n + fs.blockSize < 2 ^ 32 ∧
    ∀ p, fs.sizeOf g disk n ≤ p → p < offset → fs.byteOf g disk n p = 0
  | .writeFile data _ => data.length ≤ fs.maxBytes →
    fs.HasRoom g disk n 0 (fs.blockCount data.length)

end FileOp

/-- Every result of the run is the one that the reference array gives. -/
def RunAgrees (fs : Ext2) (g : Geometry) (n : Nat) : List FileOp → Disk → List UInt8 → Prop
  | [], _, _ => True
  | op :: ops, disk, ref =>
    ∃ res disk', op.run fs n disk = .ok (res, disk') ∧ op.Agrees fs g disk n ref res ∧
      RunAgrees fs g n ops disk' (op.apply ref res)

/-- Every step of the run meets the condition. -/
def RunCondition (fs : Ext2) (g : Geometry) (n : Nat) : List FileOp → Disk → Prop
  | [], _ => True
  | op :: ops, disk =>
    op.Condition fs g disk n ∧
      ∀ res disk', op.run fs n disk = .ok (res, disk') → RunCondition fs g n ops disk'

/-- One operation that meets the condition agrees with the reference array and
leaves a file that holds the new one. -/
theorem FileOp.step (h : IsFile fs g disk n) (hholds : Holds fs g disk n ref)
    {op : FileOp} (hrange : op.InRange fs) (hcond : op.Condition fs g disk n) :
    ∃ res disk', op.run fs n disk = .ok (res, disk') ∧ op.Agrees fs g disk n ref res ∧
      IsFile fs g disk' n ∧ Holds fs g disk' n (op.apply ref res) := by
  have hsize := hholds.size
  cases op with
  | readAt offset buf =>
    obtain ⟨count, buf', hrun, hle, hbytes, _, hhole⟩ := h.readAt_eq offset buf
    rw [hsize] at hhole
    have hcount : count = min buf.len (ref.length - offset) := by
      by_contra hne
      have hlt : count < min buf.len (ref.length - offset) := by omega
      exact hcond (offset + count) (by omega) (by omega) (by omega) (hhole hlt)
    refine ⟨.read count buf', disk, ?_, ⟨hcount, fun k hk => ?_⟩, h, hholds⟩
    · rw [FileOp.run, hrun, ok_bind]
    · rw [hbytes k hk]
      exact hholds.bytes (offset + k) (by omega)
  | writeAt offset buf now =>
    by_cases hbuf : buf = []
    · refine ⟨.wrote 0, disk, ?_, ⟨Nat.zero_le _, fun _ _ => by rw [hbuf]; rfl⟩, h, ?_⟩
      · rw [FileOp.run, Ext2.writeAt, if_pos hbuf, ok_bind]
      · rw [FileOp.apply, if_pos hbuf]
        exact hholds
    obtain ⟨hsz, hgap⟩ := hcond hbuf
    have hshort : buf.length < 2 ^ 31 := hrange.2
    obtain ⟨count, disk', hrun, hfile, hle, hnew, hbytes, _, hall⟩ :=
      h.writeAt_eq offset buf now hbuf hrange.1 (by omega) hsz
    rw [hsize] at hnew
    have htake : (buf.take count).length = count := by
      rw [length_take]
      omega
    refine ⟨.wrote count, disk', ?_, ⟨hle, hall⟩, hfile, ?_⟩
    · rw [FileOp.run, hrun, ok_bind]
    rw [FileOp.apply, if_neg hbuf]
    refine ⟨?_, fun p hp => ?_⟩
    · rw [length_overwrite, htake, hnew]
    · rw [length_overwrite] at hp
      rw [getElem?_overwrite hp, hbytes p, htake]
      by_cases hin : offset ≤ p ∧ p < offset + count
      · rw [if_pos hin, if_pos hin, getD_eq_getElem?_getD, getD_eq_getElem?_getD,
          getElem?_take_of_lt (by omega)]
      rw [if_neg hin, if_neg hin]
      by_cases hold : p < ref.length
      · rw [getD_eq_getElem?_getD, hholds.bytes p hold, Option.getD_some]
      · rw [getD_eq_getElem?_getD, getElem?_eq_none (by omega), Option.getD_none,
          hgap p (by omega) (by omega)]
  | writeFile data now =>
    by_cases hfit : data.length ≤ fs.maxBytes
    · obtain ⟨disk', hrun, hfile, hnew, hbytes⟩ := h.writeFileByInode_eq now hfit (hcond hfit)
      refine ⟨.replaced true, disk', ?_, (decide_eq_true hfit).symm, hfile, hnew, fun p hp => ?_⟩
      · rw [FileOp.run, hrun, ok_bind]
      · change p < data.length at hp
        show data[p]? = _
        rw [hbytes p hp, getD_eq_getElem?_getD, getElem?_eq_getElem hp, Option.getD_some]
    · refine ⟨.replaced false, disk, ?_, (decide_eq_false hfit).symm, h, hholds⟩
      rw [FileOp.run, h.writeFileByInode_reject now hrange hfit, ok_bind]

theorem runAgrees_of_holds (h : IsFile fs g disk n)
    (hholds : Holds fs g disk n ref) {ops : List FileOp} (hrange : ∀ op ∈ ops, op.InRange fs)
    (hcond : RunCondition fs g n ops disk) : RunAgrees fs g n ops disk ref := by
  induction ops generalizing disk ref with
  | nil => trivial
  | cons op ops ih =>
    obtain ⟨hfirst, hrest⟩ := hcond
    obtain ⟨res, disk', hrun, hagrees, hfile, hholds'⟩ :=
      FileOp.step h hholds (hrange op mem_cons_self) hfirst
    exact ⟨res, disk', hrun, hagrees, ih hfile hholds'
      (fun op' hop => hrange op' (mem_cons_of_mem _ hop)) (hrest res disk' hrun)⟩

/-- A regular file is a byte array in every run whose steps meet the
condition. -/
theorem runAgrees (h : IsFile fs g disk n) {ops : List FileOp}
    (hrange : ∀ op ∈ ops, op.InRange fs) (hcond : RunCondition fs g n ops disk) :
    RunAgrees fs g n ops disk (fs.contents g disk n) :=
  runAgrees_of_holds h holds_contents hrange hcond

/-! ## A file with a hole -/

/-- An empty regular file. -/
def emptyFile : Ext2Inode := { Ext2Inode.zeroed with iMode := 0x81A4 }

/-- The small volume with an empty file as inode 13. -/
def fileDisk : Disk :=
  ((smallVolume 2048).writeInode (smallDisk 2048) 13 emptyFile).toOption.getD (smallDisk 2048)

theorem fileDisk_view : smallFs.Shows smallGeometry fileDisk
      ((smallFs.view smallGeometry (smallDisk 2048)).setInode 13 emptyFile) := by
  obtain ⟨disk', hwrite, h'⟩ := smallVolume_volume.shows.writeInode_eq (n := 13)
    ⟨by decide, by decide⟩ emptyFile
  unfold fileDisk
  rw [hwrite]
  exact h'

theorem fileDisk_inode : (smallFs.view smallGeometry fileDisk).inode 13 = emptyFile := by
  rw [fileDisk_view.view, Vol.setInode_inode_self]

theorem fileDisk_isFile : IsFile smallFs smallGeometry fileDisk 13 := by
  refine ⟨fileDisk_view.toVolume, ⟨by decide, by decide⟩, ?_, ?_⟩
  · rw [fileDisk_inode]
    rfl
  · rw [fileDisk_inode]
    exact mapped_of_no_ptr Ext2Inode.ptr_zeroed

theorem fileDisk_size : smallFs.sizeOf smallGeometry fileDisk 13 = 0 := by
  unfold sizeOf
  rw [fileDisk_inode]
  rfl

theorem ptrOf_ne_zero {p : Nat} (h : fs.byteOf g disk n p ≠ 0) :
    fs.ptrOf g disk n (p / fs.blockSize) ≠ 0 := by
  intro hptr
  rw [ptrOf] at hptr
  refine h ?_
  rw [byteOf, fileByte, fileBlock, if_pos hptr]

/-- Two bytes are written and read again, and the file is emptied. -/
theorem runAgrees_fileDisk :
    RunAgrees (smallVolume 2048) smallGeometry 13
      [.writeAt 0 [7, 8] 0, .readAt 0 (.zeroed 4), .writeFile [] 0] fileDisk
      ((smallVolume 2048).contents smallGeometry fileDisk 13) := by
  obtain ⟨count, disk₁, hwrite, -, hle, hsize, hbytes, -⟩ := fileDisk_isFile.writeAt_eq 0 [7, 8] 0
    (by simp) (by decide) (by decide) (by rw [fileDisk_size]; decide)
  rw [fileDisk_size] at hsize
  refine runAgrees fileDisk_isFile ?_ ⟨fun _ => ⟨?_, fun p _ hp => absurd hp (Nat.not_lt_zero p)⟩,
    fun _ disk' hrun => ⟨fun p _ _ hp => ?_, fun _ disk'' _ => ⟨fun _ => ?_, fun _ _ _ => trivial⟩⟩⟩
  · simp only [mem_cons, not_mem_nil, or_false, forall_eq_or_imp, forall_eq]
    exact ⟨⟨by decide, by decide⟩, ⟨by decide, by decide⟩, show 0 < 2 ^ 31 by decide⟩
  · rw [fileDisk_size]
    decide
  · -- the bytes that were stored are not zero, so their block is there
    rw [FileOp.run, hwrite] at hrun
    cases hrun
    rw [hsize] at hp
    apply ptrOf_ne_zero
    rw [hbytes p, if_pos (by omega)]
    obtain rfl | rfl : p = 0 ∨ p = 1 := by
      simp only [length_cons, length_nil] at hle
      omega
    · decide
    · decide
  · show (smallVolume 2048).need _ _ 0 0 ≤ _
    exact Nat.zero_le _

/-- One byte is written to the second block of an empty file, and four bytes
are read from its start: the reference array has four zeros there, and
`read_at` returns none. -/
theorem fileDisk_hole : IsFile (smallVolume 2048) smallGeometry fileDisk 13 ∧
      (∀ op ∈ [.writeAt 2048 [1] 0, .readAt 0 (.zeroed 4)], FileOp.InRange (smallVolume 2048) op) ∧
      ¬ RunAgrees (smallVolume 2048) smallGeometry 13
        [.writeAt 2048 [1] 0, .readAt 0 (.zeroed 4)] fileDisk
        ((smallVolume 2048).contents smallGeometry fileDisk 13) := by
  refine ⟨fileDisk_isFile, fun op hop => ?_, fun hagrees => ?_⟩
  · rcases mem_cons.1 hop with hop | hop
    · rw [hop]
      exact ⟨by decide, by decide⟩
    · rw [mem_singleton.1 hop]
      exact ⟨by decide, by decide⟩
  have hrun : (do
      let (count, disk) ← (smallVolume 2048).writeAt fileDisk 13 2048 [1] 0
      let (count', _) ← (smallVolume 2048).readAt disk 13 0 (.zeroed 4)
      .ok (count, count')) = .ok (1, 0) := by
    decide +kernel
  obtain ⟨⟨count, disk⟩, hwrote, hrun⟩ := bind_eq_ok.1 hrun
  obtain ⟨⟨count', buf⟩, hreturned, hrun⟩ := bind_eq_ok.1 hrun
  cases hrun
  obtain ⟨res, disk₁, hwrite, _, res', disk₂, hread, hres, _⟩ := hagrees
  rw [FileOp.run, hwrote] at hwrite
  cases hwrite
  rw [FileOp.run, hreturned] at hread
  cases hread
  have hcount := hres.1
  rw [FileOp.apply, if_neg (by simp), length_overwrite] at hcount
  simp only [Buf.zeroed_len] at hcount
  omega

end Ext2

end Felix
