import Felix.Base.Bytes

/-!
# The on-disk records of ext2

The four packed records of `kernel/src/filesystem/ext2.rs`, field by field
and in the order of the source.  The block group descriptor, the inode and
the directory entry header are instances of `Packed`, because the driver
moves them with `read_unaligned` and `write_unaligned`.  The superblock is
only copied as a whole: `Ext2SuperBlock.encode` gives the bytes that a
write sends to the disk and `Ext2SuperBlock.decode` the record that `mount`
builds from them.
-/

namespace Felix

open Bytes

/-! ## Superblock -/

structure Ext2SuperBlock where
  sInodesCount : UInt32
  sBlocksCount : UInt32
  sRBlocksCount : UInt32
  sFreeBlocksCount : UInt32
  sFreeInodesCount : UInt32
  sFirstDataBlock : UInt32
  sLogBlockSize : UInt32
  sLogFragSize : UInt32
  sBlocksPerGroup : UInt32
  sFragsPerGroup : UInt32
  sInodesPerGroup : UInt32
  sMtime : UInt32
  sWtime : UInt32
  sMntCount : UInt16
  sMaxMntCount : UInt16
  sMagic : UInt16
  sState : UInt16
  sErrors : UInt16
  sMinorRevLevel : UInt16
  sLastcheck : UInt32
  sCheckinterval : UInt32
  sCreatorOs : UInt32
  sRevLevel : UInt32
  sDefResuid : UInt16
  sDefResgid : UInt16
  sFirstIno : UInt32
  sInodeSize : UInt16
  sBlockGroupNr : UInt16
  sFeatureCompat : UInt32
  sFeatureIncompat : UInt32
  sFeatureRoCompat : UInt32
  sUuid : Bytes
  sVolumeName : Bytes
  padding : Bytes

namespace Ext2SuperBlock

/-- The bytes of the record.  The driver writes the first 1024 of them. -/
def encode (sb : Ext2SuperBlock) : Bytes :=
  put32 0 sb.sInodesCount <| put32 4 sb.sBlocksCount <| put32 8 sb.sRBlocksCount <|
  put32 12 sb.sFreeBlocksCount <| put32 16 sb.sFreeInodesCount <|
  put32 20 sb.sFirstDataBlock <| put32 24 sb.sLogBlockSize <|
  put32 28 sb.sLogFragSize <| put32 32 sb.sBlocksPerGroup <|
  put32 36 sb.sFragsPerGroup <| put32 40 sb.sInodesPerGroup <| put32 44 sb.sMtime <|
  put32 48 sb.sWtime <| put16 52 sb.sMntCount <| put16 54 sb.sMaxMntCount <|
  put16 56 sb.sMagic <| put16 58 sb.sState <| put16 60 sb.sErrors <|
  put16 62 sb.sMinorRevLevel <| put32 64 sb.sLastcheck <| put32 68 sb.sCheckinterval <|
  put32 72 sb.sCreatorOs <| put32 76 sb.sRevLevel <| put16 80 sb.sDefResuid <|
  put16 82 sb.sDefResgid <| put32 84 sb.sFirstIno <| put16 88 sb.sInodeSize <|
  put16 90 sb.sBlockGroupNr <| put32 92 sb.sFeatureCompat <|
  put32 96 sb.sFeatureIncompat <| put32 100 sb.sFeatureRoCompat <|
  splice 104 16 sb.sUuid <| splice 120 16 sb.sVolumeName <|
  fun k => sb.padding (k - 136)

/-- The record over given bytes. -/
def decode (f : Bytes) : Ext2SuperBlock where
  sInodesCount := get32 0 f
  sBlocksCount := get32 4 f
  sRBlocksCount := get32 8 f
  sFreeBlocksCount := get32 12 f
  sFreeInodesCount := get32 16 f
  sFirstDataBlock := get32 20 f
  sLogBlockSize := get32 24 f
  sLogFragSize := get32 28 f
  sBlocksPerGroup := get32 32 f
  sFragsPerGroup := get32 36 f
  sInodesPerGroup := get32 40 f
  sMtime := get32 44 f
  sWtime := get32 48 f
  sMntCount := get16 52 f
  sMaxMntCount := get16 54 f
  sMagic := get16 56 f
  sState := get16 58 f
  sErrors := get16 60 f
  sMinorRevLevel := get16 62 f
  sLastcheck := get32 64 f
  sCheckinterval := get32 68 f
  sCreatorOs := get32 72 f
  sRevLevel := get32 76 f
  sDefResuid := get16 80 f
  sDefResgid := get16 82 f
  sFirstIno := get32 84 f
  sInodeSize := get16 88 f
  sBlockGroupNr := get16 90 f
  sFeatureCompat := get32 92 f
  sFeatureIncompat := get32 96 f
  sFeatureRoCompat := get32 100 f
  sUuid := shift 104 f
  sVolumeName := shift 120 f
  padding := shift 136 f

end Ext2SuperBlock

/-! ## Block group descriptor -/

structure Ext2BlockGroupDescriptor where
  bgBlockBitmap : UInt32
  bgInodeBitmap : UInt32
  bgInodeTable : UInt32
  bgFreeBlocksCount : UInt16
  bgFreeInodesCount : UInt16
  bgUsedDirsCount : UInt16
  bgPad : UInt16
  reserved : Vector UInt8 12

namespace Ext2BlockGroupDescriptor

def encode (bgd : Ext2BlockGroupDescriptor) : Bytes :=
  put32 0 bgd.bgBlockBitmap <| put32 4 bgd.bgInodeBitmap <| put32 8 bgd.bgInodeTable <|
  put16 12 bgd.bgFreeBlocksCount <| put16 14 bgd.bgFreeInodesCount <|
  put16 16 bgd.bgUsedDirsCount <| put16 18 bgd.bgPad <|
  fun k => bgd.reserved[k - 20]?.getD 0

def decode (f : Bytes) : Ext2BlockGroupDescriptor where
  bgBlockBitmap := get32 0 f
  bgInodeBitmap := get32 4 f
  bgInodeTable := get32 8 f
  bgFreeBlocksCount := get16 12 f
  bgFreeInodesCount := get16 14 f
  bgUsedDirsCount := get16 16 f
  bgPad := get16 18 f
  reserved := Vector.ofFn fun i => f (20 + i)

theorem decode_encode (bgd : Ext2BlockGroupDescriptor) : decode (encode bgd) = bgd := by
  obtain ⟨bb, ib, it, fb, fi, ud, pad, res⟩ := bgd
  simp only [decode, encode, mk.injEq]
  refine ⟨?_, ?_, ?_, ?_, ?_, ?_, ?_, ?_⟩
  all_goals try
    simp (disch := decide) only [get32, get16, put32, put16, getLe_putLe_ne]
    first
      | exact get32_put32_self _ _ _
      | exact get16_put16_self _ _ _
  apply Vector.ext
  intro i hi
  simp (disch := omega) only [Vector.getElem_ofFn, put32_apply_ne, put16_apply_ne]
  simp [hi]

instance : Packed Ext2BlockGroupDescriptor where
  size := 32
  encode := encode
  decode := decode
  decode_congr := by
    intro f g h
    simp only [decode, mk.injEq]
    refine ⟨?_, ?_, ?_, ?_, ?_, ?_, ?_, ?_⟩
    all_goals first
      | exact get32_congr fun k _ _ => h k (by omega)
      | exact get16_congr fun k _ _ => h k (by omega)
      | exact congrArg Vector.ofFn (funext fun i => h _ (by omega))
  decode_encode := decode_encode

@[simp] theorem size_eq : Packed.size Ext2BlockGroupDescriptor = 32 := rfl

end Ext2BlockGroupDescriptor

/-! ## Inode -/

structure Ext2Inode where
  iMode : UInt16
  iUid : UInt16
  iSize : UInt32
  iAtime : UInt32
  iCtime : UInt32
  iMtime : UInt32
  iDtime : UInt32
  iGid : UInt16
  iLinksCount : UInt16
  iBlocks : UInt32
  iFlags : UInt32
  iOsd1 : UInt32
  iBlock : Vector UInt32 15
  iGeneration : UInt32
  iFileAcl : UInt32
  iDirAcl : UInt32
  iFaddr : UInt32
  iOsd2 : Vector UInt8 12

namespace Ext2Inode

/-- `i_block[i]`.  The driver indexes with numbers below 15 only. -/
def ptr (inode : Ext2Inode) (i : Nat) : UInt32 := inode.iBlock[i]?.getD 0

/-- `i_block[i] = v`. -/
def setPtr (inode : Ext2Inode) (i : Nat) (v : UInt32) : Ext2Inode :=
  { inode with iBlock := inode.iBlock.setIfInBounds i v }

def encode (inode : Ext2Inode) : Bytes :=
  put16 0 inode.iMode <| put16 2 inode.iUid <| put32 4 inode.iSize <|
  put32 8 inode.iAtime <| put32 12 inode.iCtime <| put32 16 inode.iMtime <|
  put32 20 inode.iDtime <| put16 24 inode.iGid <| put16 26 inode.iLinksCount <|
  put32 28 inode.iBlocks <| put32 32 inode.iFlags <| put32 36 inode.iOsd1 <|
  putWords 40 15 inode.ptr <|
  put32 100 inode.iGeneration <| put32 104 inode.iFileAcl <| put32 108 inode.iDirAcl <|
  put32 112 inode.iFaddr <| fun k => inode.iOsd2[k - 116]?.getD 0

def decode (f : Bytes) : Ext2Inode where
  iMode := get16 0 f
  iUid := get16 2 f
  iSize := get32 4 f
  iAtime := get32 8 f
  iCtime := get32 12 f
  iMtime := get32 16 f
  iDtime := get32 20 f
  iGid := get16 24 f
  iLinksCount := get16 26 f
  iBlocks := get32 28 f
  iFlags := get32 32 f
  iOsd1 := get32 36 f
  iBlock := Vector.ofFn fun i => get32 (40 + 4 * i) f
  iGeneration := get32 100 f
  iFileAcl := get32 104 f
  iDirAcl := get32 108 f
  iFaddr := get32 112 f
  iOsd2 := Vector.ofFn fun i => f (116 + i)

/-- `mem::zeroed::<Ext2Inode>()`. -/
def zeroed : Ext2Inode := decode fun _ => 0

@[simp] theorem ptr_setPtr_self {inode : Ext2Inode} {i : Nat} {v : UInt32} (hi : i < 15) :
    (inode.setPtr i v).ptr i = v := by
  simp [ptr, setPtr, hi]

theorem ptr_setPtr_ne {inode : Ext2Inode} {i j : Nat} {v : UInt32} (h : i ≠ j) :
    (inode.setPtr i v).ptr j = inode.ptr j := by
  simp [ptr, setPtr, h]

variable (inode : Ext2Inode) (i : Nat) (v : UInt32)

@[simp] theorem setPtr_iMode : (inode.setPtr i v).iMode = inode.iMode := rfl

@[simp] theorem setPtr_iSize : (inode.setPtr i v).iSize = inode.iSize := rfl

theorem ptr_decode {f : Bytes} {i : Nat} (hi : i < 15) :
    (decode f).ptr i = get32 (40 + 4 * i) f := by
  simp [ptr, decode, hi]

theorem ptr_zeroed : zeroed.ptr i = 0 := by
  by_cases hi : i < 15
  · rw [zeroed, ptr_decode hi]
    rfl
  · simp [ptr, hi]

theorem decode_encode : decode (encode inode) = inode := by
  have hblock : (decode (encode inode)).iBlock = inode.iBlock := by
    apply Vector.ext
    intro i hi
    have hword : get32 (40 + 4 * i) (encode inode) = inode.ptr i := by
      rw [← get32_putWords (v := inode.ptr) (f := fun _ => 0) hi]
      refine get32_congr fun k hk hk' => ?_
      simp (disch := omega) only [encode, put32_apply_ne, put16_apply_ne]
      rw [putWords, putWords, if_pos (by omega), if_pos (by omega)]
    simp only [decode, Vector.getElem_ofFn, hword]
    simp [ptr, hi]
  have hosd : (decode (encode inode)).iOsd2 = inode.iOsd2 := by
    apply Vector.ext
    intro i hi
    simp (disch := omega) only [decode, encode, Vector.getElem_ofFn, put32_apply_ne,
      put16_apply_ne, putWords_apply_out]
    simp [hi]
  have hskip : ∀ w o v (f : Bytes), o + w ≤ 40 ∨ 100 ≤ o →
      getLe w o (putWords 40 15 v f) = getLe w o f := by
    intro w o v f h
    exact getLe_congr fun k hk hk' => putWords_apply_out (by omega)
  obtain ⟨mode, uid, size, atime, ctime, mtime, dtime, gid, links, blocks, flags, osd1,
    block, gen, facl, dacl, faddr, osd2⟩ := inode
  simp only [decode, encode, mk.injEq] at hosd ⊢
  refine ⟨?_, ?_, ?_, ?_, ?_, ?_, ?_, ?_, ?_, ?_, ?_, ?_, hblock, ?_, ?_, ?_, ?_, hosd⟩
  all_goals
    simp (disch := decide) only [get32, get16, put32, put16, getLe_putLe_ne, hskip]
    first
      | exact get32_put32_self _ _ _
      | exact get16_put16_self _ _ _

instance : Packed Ext2Inode where
  size := 128
  encode := encode
  decode := decode
  decode_congr := by
    intro f g h
    simp only [decode, mk.injEq]
    refine ⟨?_, ?_, ?_, ?_, ?_, ?_, ?_, ?_, ?_, ?_, ?_, ?_, ?_, ?_, ?_, ?_, ?_, ?_⟩
    all_goals first
      | exact get32_congr fun k _ _ => h k (by omega)
      | exact get16_congr fun k _ _ => h k (by omega)
      | exact congrArg Vector.ofFn (funext fun i => h _ (by omega))
      | exact congrArg Vector.ofFn
          (funext fun i => get32_congr fun k _ _ => h k (by omega))
  decode_encode := decode_encode

@[simp] theorem size_eq : Packed.size Ext2Inode = 128 := rfl

end Ext2Inode

/-! ## Directory entry -/

/-- The fixed part of a directory entry; the name follows it. -/
structure Ext2DirEntry where
  inode : UInt32
  recLen : UInt16
  nameLen : UInt8
  fileType : UInt8
  deriving DecidableEq

namespace Ext2DirEntry

def encode (e : Ext2DirEntry) : Bytes :=
  put32 0 e.inode <| put16 4 e.recLen <| put8 6 e.nameLen <| put8 7 e.fileType <|
  fun _ => 0

def decode (f : Bytes) : Ext2DirEntry where
  inode := get32 0 f
  recLen := get16 4 f
  nameLen := f 6
  fileType := f 7

theorem decode_encode (e : Ext2DirEntry) : decode (encode e) = e := by
  obtain ⟨ino, rec, len, type⟩ := e
  simp only [decode, encode, mk.injEq]
  refine ⟨get32_put32_self _ _ _, ?_, ?_, ?_⟩
  · rw [get16, put32, getLe_putLe_ne (by decide)]
    exact get16_put16_self _ _ _
  · rfl
  · rfl

instance : Packed Ext2DirEntry where
  size := 8
  encode := encode
  decode := decode
  decode_congr := by
    intro f g h
    simp only [decode, mk.injEq]
    exact ⟨get32_congr fun k _ _ => h k (by omega), get16_congr fun k _ _ => h k (by omega),
      h 6 (by decide), h 7 (by decide)⟩
  decode_encode := decode_encode

@[simp] theorem size_eq : Packed.size Ext2DirEntry = 8 := rfl

end Ext2DirEntry

end Felix
