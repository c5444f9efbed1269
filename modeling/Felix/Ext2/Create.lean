import Felix.Ext2.DirNames
import Felix.Ext2.Namespace

/-!
# What the creation of a file does to a volume

`createWithInode_eq` and `mkdirWithInode_eq` are the specifications of the
parts of `create_new_file` and `mkdir_path` behind the allocation of the inode.
Both fail or succeed by what the volume has to spare, `Enough` and `EnoughDir`,
and a failure does not give back the inode.

The blocks that are allocated on the way are kept track of by `Took`, which
composes along the steps.
-/

namespace Felix

open Bytes Res List

namespace Ext2

/-! ## Taking blocks -/

/-- The fresh blocks `l` were taken, and no other block changed. -/
structure Took (fs : Ext2) (g : Geometry) (v v' : Vol) (l : List Nat) : Prop where
  fresh : ∀ b ∈ l, fs.DataBlock g b ∧ ¬ fs.Marked v g b
  nodup : l.Nodup
  inode : v'.inode = v.inode
  inodeMap : v'.inodeMap = v.inodeMap
  blockMap : ∀ i, bit v'.blockMap i = (bit v.blockMap i || decide (i ∈ l))
  block : ∀ c, c ∉ l → v'.block c = v.block c
  free : fs.freeBlocks v' g + l.length = fs.freeBlocks v g

variable {fs : Ext2} {g : Geometry} {disk : Disk} {v v' v'' : Vol} {l l' : List Nat}

/-- A block that is not marked is one that the allocator can hand out. -/
theorem lt_of_not_marked {b : Nat} (h : ¬ fs.Marked v g b) :
    b < fs.superblock.sBlocksPerGroup.toNat := by
  by_contra hge
  exact h fun _ hlt => absurd hlt hge

namespace Took

theorem refl (v : Vol) : Took fs g v v [] where
  fresh := fun _ hb => (nomatch hb)
  nodup := nodup_nil
  inode := rfl
  inodeMap := rfl
  blockMap := fun i => by simp
  block := fun _ _ => rfl
  free := rfl

variable (h : Took fs g v v' l)
include h

theorem marked {b : Nat} (hb : fs.Marked v g b) : fs.Marked v' g b := by
  intro hlo hhi
  rw [h.blockMap, hb hlo hhi, Bool.true_or]

theorem bit_mem {b : Nat} (hb : b ∈ l) : bit v'.blockMap b = true := by
  rw [h.blockMap, decide_eq_true hb, Bool.or_true]

theorem trans (h' : Took fs g v' v'' l') : Took fs g v v'' (l ++ l') where
  fresh := by
    intro b hb
    rcases mem_append.1 hb with hb | hb
    · exact h.fresh b hb
    · exact ⟨(h'.fresh b hb).1, fun hmarked => (h'.fresh b hb).2 (h.marked hmarked)⟩
  nodup := by
    refine nodup_append.2 ⟨h.nodup, h'.nodup, ?_⟩
    rintro b hb _ hb' rfl
    exact (h'.fresh b hb').2 fun _ _ => h.bit_mem hb
  inode := h'.inode.trans h.inode
  inodeMap := h'.inodeMap.trans h.inodeMap
  blockMap := by
    intro i
    rw [h'.blockMap, h.blockMap, Bool.or_assoc, ← Bool.decide_or]
    simp only [mem_append]
  block := by
    intro c hc
    rw [mem_append, not_or] at hc
    rw [h'.block c hc.2, h.block c hc.1]
  free := by
    have h1 := h.free
    have h2 := h'.free
    rw [length_append]
    omega

theorem setBlock {b : Nat} (hb : b ∈ l) (f : Bytes) : Took fs g v (v'.setBlock b f) l where
  fresh := h.fresh
  nodup := h.nodup
  inode := h.inode
  inodeMap := h.inodeMap
  blockMap := h.blockMap
  block := by
    intro c hc
    rw [Vol.setBlock_block_ne, h.block c hc]
    intro heq
    rw [heq] at hc
    exact hc hb
  free := h.free

theorem isDir {d : Nat} (hd : fs.IsDir g v d) : fs.IsDir g v' d := by
  refine (hd.frame (.of_eq (congrFun h.inode d)) (fun _ => h.marked) fun b hb => ?_).1
  refine h.block b fun hmem => ?_
  exact (h.fresh b hmem).2 (hd.data b hb).2

end Took

theorem Shows.allocBlock_took (h : fs.Shows g disk v) :
    (fs.allocBlock disk = .ok (none, disk) ∧ fs.freeBlocks v g = 0) ∨
    ∃ b disk' v', fs.allocBlock disk = .ok (some b, disk') ∧ fs.Shows g disk' v' ∧
      Took fs g v v' [b] := by
  rcases h.allocBlock_fresh with hnone | ⟨b, disk', hsome, hdata, hfresh, h', hcount⟩
  · exact .inl hnone
  refine .inr ⟨b, disk', _, hsome, h', ?_⟩
  refine ⟨fun c hc => ?_, nodup_singleton b, rfl, rfl, fun i => ?_, fun _ _ => rfl, hcount⟩
  · rw [mem_singleton.1 hc]
    exact ⟨hdata, hfresh⟩
  · rw [Vol.takeBlock_blockMap, bit_setBit]
    simp only [mem_singleton]

/-! ## The blocks of a new file -/

/-- The inode points to the blocks `l` from block `i` of the file on, as far as
it has room for pointers. -/
structure Noted (i : Nat) (l : List Nat) (inode inode' : Ext2Inode) : Prop where
  mode : inode'.iMode = inode.iMode
  ptr : ∀ k, inode'.ptr k = if i ≤ k ∧ k < 12 then
    (l[k - i]?.map UInt32.ofNat).getD (inode.ptr k) else inode.ptr k

theorem Noted.nil (i : Nat) (inode : Ext2Inode) : Noted i [] inode inode := by
  refine ⟨rfl, fun k => ?_⟩
  rw [getElem?_nil, Option.map_none, Option.getD_none, ite_self]

variable {w : Vol} {i b numBlocks t size iBlocks p n sectors : Nat} {inode inode' : Ext2Inode}
  {now : UInt32}
  {data : List UInt8} {buf : Buf}

theorem Noted.direct (hi : i < 12) (h : Noted (i + 1) l (inode.setPtr i (UInt32.ofNat b)) inode') :
    Noted i (b :: l) inode inode' := by
  refine ⟨h.mode, fun k => ?_⟩
  rw [h.ptr]
  by_cases hk : k = i
  · rw [hk, if_neg (by omega), if_pos ⟨Nat.le_refl i, hi⟩, Nat.sub_self,
      Ext2Inode.ptr_setPtr_self (by omega)]
    rfl
  rw [Ext2Inode.ptr_setPtr_ne (Ne.symm hk)]
  by_cases hlo : i ≤ k ∧ k < 12
  · rw [if_pos (by omega), if_pos hlo, show k - i = k - (i + 1) + 1 by omega, getElem?_cons_succ]
  · rw [if_neg (by omega), if_neg hlo]

theorem Noted.indirect (hi : 12 ≤ i)
    (h : Noted (i + 1) l inode inode') : Noted i (b :: l) inode inode' := by
  refine ⟨h.mode, fun k => ?_⟩
  rw [h.ptr, if_neg (by omega), if_neg (by omega)]

/-- A pointer is noted in the inode or in the buffer. -/
theorem notePointer_eq (inode : Ext2Inode) (hbuf : buf.len = 4096) (hi : i < 12 + 1024) :
    ∃ inode1 buf1, notePointer i b inode buf = .ok (some (inode1, buf1)) ∧
      buf1.len = 4096 ∧
      ∀ l inode', Noted (i + 1) l inode1 inode' → Noted i (b :: l) inode inode' := by
  unfold notePointer
  by_cases hlt : i < 12
  · rw [if_pos hlt]
    exact ⟨_, _, rfl, hbuf, fun _ _ h => h.direct hlt⟩
  rw [if_neg hlt]
  rw [if_neg (by omega), Buf.setWord_ok (by omega)]
  exact ⟨_, _, rfl, hbuf, fun _ _ h => h.indirect (by omega)⟩

/-- The loop of `create_new_file` ends when no block is free, or it takes and
notes a block in every round. -/
theorem Shows.newFileBlocks_eq (h : fs.Shows g disk v) (data : List UInt8) (after : Bytes)
    {rounds : Nat} (inode : Ext2Inode) (hbuf : buf.len = 4096)
    (hmax : i + rounds ≤ 12 + fs.blockSize / 4)
    (hdata : ∀ j, j < i + rounds → j * fs.blockSize < data.length) :
    ∃ disk' v' l, fs.Shows g disk' v' ∧ Took fs g v v' l ∧
      ((fs.newFileBlocks data after rounds i inode buf disk = .ok (none, disk') ∧
          l.length < rounds ∧ fs.freeBlocks v' g = 0) ∨
        ∃ inode' buf', fs.newFileBlocks data after rounds i inode buf disk
            = .ok (some (inode', buf'), disk') ∧
          l.length = rounds ∧ Noted i l inode inode') := by
  have hb := h.sound.mountable.size.bounds
  induction rounds generalizing i inode buf disk v with
  | zero =>
    exact ⟨disk, v, [], h, Took.refl _, .inr ⟨inode, buf, rfl, rfl, Noted.nil i inode⟩⟩
  | succ rounds ih =>
    rcases h.allocBlock_took with ⟨hnone, hzero⟩ | ⟨b, disk1, v1, hsome, h1, htook1⟩
    · refine ⟨disk, v, [], h, Took.refl _, .inl ⟨?_, Nat.succ_pos _, hzero⟩⟩
      rw [newFileBlocks, hnone, ok_bind]
    have hmem : b ∈ [b] := mem_singleton_self b
    obtain ⟨inode1, buf1, hnote, hbuf1, hnoted⟩ := notePointer_eq inode hbuf
      (show i < 12 + 1024 by omega)
    have hstart := hdata i (by omega)
    have hmul : i * fs.blockSize ≤ (12 + 4096 / 4) * 4096 := Nat.mul_le_mul (by omega) hb.2
    obtain ⟨disk2, hwrite, h2⟩ := h1.writeBlock_eq (htook1.fresh b hmem).1
      (dataFrom data after (i * fs.blockSize))
    have hround : fs.newFileBlocks data after (rounds + 1) i inode buf disk
        = fs.newFileBlocks data after rounds (i + 1) inode1 buf1 disk2 := by
      rw [newFileBlocks, hsome, ok_bind]
      simp only []
      rw [hnote, ok_bind]
      simp only []
      rw [mulW_ok (by omega), ok_bind, addW_ok (by omega), ok_bind,
        subslice_ok (by omega) (Nat.min_le_right _ _), ok_bind, hwrite, ok_bind]
    obtain ⟨disk', v', l, h', htook', hcases⟩ := ih h2 (i := i + 1) inode1 hbuf1
      (by omega) fun j hj => hdata j (by omega)
    refine ⟨disk', v', b :: l, h', (htook1.setBlock hmem _).trans htook', ?_⟩
    rw [hround, length_cons]
    rcases hcases with ⟨hrun, hlen, hzero⟩ | ⟨inode', buf', hrun, hlen, hptr⟩
    · exact .inl ⟨hrun, by omega, hzero⟩
    · exact .inr ⟨inode', buf', hrun, by omega, hnoted l inode' hptr⟩

/-! ## A new file -/

/-- The block of the table of a file with that many blocks. -/
def tableOf (numBlocks t : Nat) : List Nat := if 12 < numBlocks then [t] else []

theorem length_tableOf (numBlocks t : Nat) :
    (tableOf numBlocks t).length = if 12 < numBlocks then 1 else 0 := by
  unfold tableOf
  split <;> rfl

/-- What the volume needs to have for a new file of `size` bytes with inode `n`
in directory `p`.  The allocator can return the number of the directory
itself. -/
structure Enough (fs : Ext2) (g : Geometry) (v : Vol) (p n size : Nat) : Prop where
  fits : fs.blockCount size ≤ 12 + fs.blockSize / 4
  apart : n ≠ p
  room : (dirBlocks (v.inode p)).length < 12
  blocks : fs.blockCount size + (if 12 < fs.blockCount size then 1 else 0) + 1
    ≤ fs.freeBlocks v g

/-- The pointers of the inode of a new file with the data blocks `l` and the
table `t`. -/
def FilePtrs (numBlocks t : Nat) (l : List Nat) (inode : Ext2Inode) : Prop :=
  ∀ k, inode.ptr k = if k < 12 then (l[k]?.map UInt32.ofNat).getD 0
    else if k = 12 ∧ 12 < numBlocks then UInt32.ofNat t else 0

/-- The volume after a file was made: it took blocks for its data, for its
table and for its name. -/
def Created (fs : Ext2) (g : Geometry) (v v' : Vol) (p n : Nat) (name : Str)
    (numBlocks : Nat) : Prop :=
  ∃ w inode t l b, Took fs g v w (tableOf numBlocks t ++ l) ∧ l.length = numBlocks ∧
    FilePtrs numBlocks t l inode ∧ inode.isDir = false ∧ fs.DataBlock g b ∧
    ¬ fs.Marked w g b ∧
    v' = fs.withName (w.setInode n inode) p b name n 1

theorem Shows.allocTable_eq (h : fs.Shows g disk v) (numBlocks : Nat) :
    (fs.allocTable disk numBlocks = .ok (none, disk) ∧ fs.freeBlocks v g = 0) ∨
    ∃ t disk' v', fs.allocTable disk numBlocks = .ok (some t, disk') ∧ fs.Shows g disk' v' ∧
      Took fs g v v' (tableOf numBlocks t) := by
  unfold allocTable tableOf
  split
  · exact h.allocBlock_took
  · exact .inr ⟨0, disk, v, rfl, h, Took.refl _⟩

theorem Shows.writeTable_eq (h : fs.Shows g disk w)
    (htook : Took fs g v w (tableOf numBlocks t ++ l)) (buf : Buf) :
    ∃ disk' v', fs.writeTable disk numBlocks t buf = .ok disk' ∧ fs.Shows g disk' v' ∧
      Took fs g v v' (tableOf numBlocks t ++ l) := by
  unfold writeTable
  by_cases hlt : 12 < numBlocks
  · have hmem : t ∈ tableOf numBlocks t ++ l := by
      unfold tableOf
      rw [if_pos hlt]
      exact mem_cons_self
    obtain ⟨disk', hwrite, h'⟩ := h.writeBlock_eq (htook.fresh t hmem).1 buf.byte
    rw [if_pos hlt]
    exact ⟨disk', _, hwrite, h', htook.setBlock hmem _⟩
  · rw [if_neg hlt]
    exact ⟨disk, w, rfl, h, htook⟩

theorem filePtrs_finishedInode (h : Noted 0 l (newFileInode size iBlocks now) inode) :
    FilePtrs numBlocks t l (finishedInode inode numBlocks t sectors) := by
  intro k
  have hptr : (finishedInode inode numBlocks t sectors).ptr k
      = if k = 12 ∧ 12 < numBlocks then UInt32.ofNat t else inode.ptr k := by
    show (if 12 < numBlocks then inode.setPtr 12 (UInt32.ofNat t) else inode).ptr k = _
    by_cases hlt : 12 < numBlocks
    · by_cases hk : k = 12
      · rw [if_pos hlt, if_pos ⟨hk, hlt⟩, hk, Ext2Inode.ptr_setPtr_self (by omega)]
      · rw [if_pos hlt, if_neg (by omega), Ext2Inode.ptr_setPtr_ne (Ne.symm hk)]
    · rw [if_neg hlt, if_neg (by omega)]
  have hzero : (newFileInode size iBlocks now).ptr k = 0 := Ext2Inode.ptr_zeroed k
  rw [hptr, h.ptr, hzero, Nat.sub_zero]
  by_cases hk : k < 12
  · rw [if_neg (by omega), if_pos ⟨Nat.zero_le k, hk⟩, if_pos hk]
  · rw [if_neg hk, if_neg (show ¬ (0 ≤ k ∧ k < 12) by omega)]

theorem finishedInode_isDir (h : Noted 0 l (newFileInode size iBlocks now) inode) :
    (finishedInode inode numBlocks t sectors).isDir = false := by
  have hmode : (finishedInode inode numBlocks t sectors).iMode = 0x81A4 := by
    show (if 12 < numBlocks then inode.setPtr 12 (UInt32.ofNat t) else inode).iMode = _
    rw [apply_ite Ext2Inode.iMode, Ext2Inode.setPtr_iMode, ite_self, h.mode]
    rfl
  unfold Ext2Inode.isDir
  rw [hmode]
  decide

/-- The end of `create_new_file`: it fails when there is no place for the name,
or when the inode that was written is that of the directory. -/
theorem Shows.linkNewFile_eq (h : fs.Shows g disk w)
    (hdir : fs.IsDir g v p) (hn : fs.ValidInode n) (hmax : numBlocks ≤ 12 + 1024) (name : Str)
    (buf : Buf) (htook : Took fs g v w (tableOf numBlocks t ++ l))
    (hlen : l.length = numBlocks) (hnoted : Noted 0 l (newFileInode size iBlocks now) inode) :
    (∃ disk', fs.linkNewFile disk p name n numBlocks t inode buf = .ok (false, disk') ∧
      (fs.view g disk').inodeMap = v.inodeMap ∧
      (n = p ∨ (dirBlocks (v.inode p)).length = 12 ∨
        fs.freeBlocks v g = (tableOf numBlocks t ++ l).length)) ∨
    ∃ disk' v', fs.linkNewFile disk p name n numBlocks t inode buf = .ok (true, disk') ∧ n ≠ p ∧
      (dirBlocks (v.inode p)).length < 12 ∧
      (tableOf numBlocks t ++ l).length < fs.freeBlocks v g ∧ fs.Shows g disk' v' ∧
      Created fs g v v' p n name numBlocks := by
  obtain ⟨disk1, v1, htable, h1, htook1⟩ := h.writeTable_eq htook buf
  obtain ⟨sectors, hsectors⟩ := sectorsFor_ok fs h.sound.mountable.size.bounds.2
    (show numBlocks < 2 ^ 22 + 1 by omega)
  obtain ⟨disk2, hwrite, h2⟩ := h1.writeInode_eq hn (finishedInode inode numBlocks t sectors)
  have hrun : fs.linkNewFile disk p name n numBlocks t inode buf
      = fs.addDirEntry disk2 p name n 1 := by
    unfold linkNewFile
    rw [htable, ok_bind, hsectors, ok_bind, hwrite, ok_bind]
  have hmap : (fs.view g disk2).inodeMap = v.inodeMap := by
    rw [h2.view]
    exact htook1.inodeMap
  have hfree := htook1.free
  rw [hrun]
  by_cases hnp : n = p
  · refine .inl ⟨disk2, ?_, hmap, .inl hnp⟩
    unfold addDirEntry
    rw [← hnp, h2.readInode_eq hn, ok_bind, Vol.setInode_inode_self,
      if_pos (finishedInode_isDir hnoted)]
  have hinode := v1.setInode_inode_ne n (finishedInode inode numBlocks t sectors) (Ne.symm hnp)
  have hdir2 := ((htook1.isDir hdir).frame (.of_eq hinode) (fun _ hb => hb) fun _ _ => rfl).1
  rcases DirShape.addEntry_eq h2 hdir2.toDirShape (IsDir.addDirEntry_run h2 hdir2 name n 1) with
    ⟨hfalse, hfull⟩ | ⟨b, disk', htrue, hlt, hdata, hfresh, h', hcount⟩
  · refine .inl ⟨disk2, hfalse, hmap, .inr ?_⟩
    rw [hinode, htook1.inode] at hfull
    rcases hfull with hfull | hfull
    · exact .inl hfull
    · change fs.freeBlocks v1 g = 0 at hfull
      exact .inr (by omega)
  rw [hinode, htook1.inode] at hlt
  change _ = fs.freeBlocks v1 g at hcount
  exact .inr ⟨disk', _, htrue, hnp, hlt, by omega, h', _, _, t, l, b, htook1, hlen,
    filePtrs_finishedInode hnoted, finishedInode_isDir hnoted, hdata, hfresh, rfl⟩

theorem Shows.fillNewFile_eq (h : fs.Shows g disk w) (hdir : fs.IsDir g v p)
    (hn : fs.ValidInode n) (name : Str)
    (hmax : fs.blockCount data.length ≤ 12 + fs.blockSize / 4) (after : Bytes) (now : UInt32)
    (htook : Took fs g v w (tableOf (fs.blockCount data.length) t)) :
    (∃ disk', fs.fillNewFile disk p name n (fs.blockCount data.length) t data after now
        = .ok (false, disk') ∧
      (fs.view g disk').inodeMap = v.inodeMap ∧ ¬ Enough fs g v p n data.length) ∨
    ∃ disk' v', fs.fillNewFile disk p name n (fs.blockCount data.length) t data after now
        = .ok (true, disk') ∧ Enough fs g v p n data.length ∧ fs.Shows g disk' v' ∧
      Created fs g v v' p n name (fs.blockCount data.length) := by
  have hb := h.sound.mountable.size.bounds
  have hsectors : fs.blockCount data.length * (fs.blockSize / 512) ≤ (12 + 1024) * 8 :=
    Nat.mul_le_mul (by omega) (by omega)
  unfold fillNewFile
  rw [mulW_ok (by omega), ok_bind]
  simp only []
  have hdata : ∀ j, j < 0 + fs.blockCount data.length → j * fs.blockSize < data.length :=
    fun j hj => lt_of_lt_blockCount (by omega) (by omega)
  obtain ⟨disk1, v1, l, h1, htook1, hcases⟩ := h.newFileBlocks_eq data after
    (newFileInode (data.length % 2 ^ 32) (fs.blockCount data.length * (fs.blockSize / 512)) now)
    (show (Buf.zeroed 4096).len = 4096 from rfl) (by omega) hdata
  have htook2 := htook.trans htook1
  have hlen := htook2.free
  have hheld : (tableOf (fs.blockCount data.length) t ++ l).length
      = (if 12 < fs.blockCount data.length then 1 else 0) + l.length := by
    rw [length_append, length_tableOf]
  rcases hcases with ⟨hrun, hshort, hzero⟩ | ⟨inode, buf, hrun, hall, hnoted⟩
  · refine .inl ⟨disk1, ?_, ?_, fun henough => ?_⟩
    · rw [hrun, ok_bind]
    · rw [h1.view]
      exact htook2.inodeMap
    · have hblocks := henough.blocks
      omega
  rw [hrun]
  rcases h1.linkNewFile_eq hdir hn (by omega) name buf htook2 hall hnoted with
    ⟨disk', hfalse, hmap, hwhy⟩ | ⟨disk', v', htrue, hapart, hroom, hspare, h', hcreated⟩
  · refine .inl ⟨disk', hfalse, hmap, fun henough => ?_⟩
    have hblocks := henough.blocks
    have hroom := henough.room
    rcases hwhy with heq | heq | heq
    · exact henough.apart heq
    · omega
    · omega
  · exact .inr ⟨disk', v', htrue, ⟨hmax, hapart, hroom, by omega⟩, h', hcreated⟩

/-- The part of `create_new_file` behind the allocation of the inode fails
without giving the inode back, or makes the file. -/
theorem Shows.createWithInode_eq (h : fs.Shows g disk v) (hdir : fs.IsDir g v p)
    (hn : fs.ValidInode n) (name : Str) (hlen : data.length < 2 ^ 31) (after : Bytes)
    (now : UInt32) :
    (∃ disk', fs.createWithInode disk p name n data after now = .ok (false, disk') ∧
      (fs.view g disk').inodeMap = v.inodeMap ∧ ¬ Enough fs g v p n data.length) ∨
    ∃ disk' v', fs.createWithInode disk p name n data after now = .ok (true, disk') ∧
      Enough fs g v p n data.length ∧ fs.Shows g disk' v' ∧
      Created fs g v v' p n name (fs.blockCount data.length) := by
  have hb := h.sound.mountable.size.bounds
  have hcount : fs.blocksFor (data.length % 2 ^ 32) = .ok (fs.blockCount data.length) := by
    rw [Nat.mod_eq_of_lt (by omega), blocksFor_ok (by omega) (by omega)]
  unfold createWithInode
  rw [hcount, ok_bind]
  by_cases hmax : 12 + fs.blockSize / 4 < fs.blockCount data.length
  · rw [if_pos hmax]
    refine .inl ⟨disk, rfl, congrArg _ h.view, fun henough => ?_⟩
    have hfits := henough.fits
    omega
  rw [if_neg hmax]
  rcases h.allocTable_eq (fs.blockCount data.length) with ⟨hnone, hzero⟩ |
    ⟨t, disk1, v1, hsome, h1, htook1⟩
  · rw [hnone]
    refine .inl ⟨disk, rfl, congrArg _ h.view, fun henough => ?_⟩
    have hblocks := henough.blocks
    omega
  · rw [hsome]
    exact h1.fillNewFile_eq hdir hn name (by omega) after now htook1

/-! ## A new directory -/

/-- What the volume needs to have for a new directory. -/
structure EnoughDir (fs : Ext2) (g : Geometry) (v : Vol) : Prop where
  room : (dirBlocks (v.inode 2)).length < 12
  blocks : 2 ≤ fs.freeBlocks v g

/-- The part of `mkdir_path` behind the allocation of the inode fails without
giving the inode back, or has what it needs. -/
theorem Shows.mkdirWithInode_eq (h : fs.Shows g disk v) (hdir : fs.IsDir g v 2)
    (hn : fs.ValidInode n) (hne : n ≠ 2) (name : Str) (now : UInt32) :
    ∃ ok disk', fs.mkdirWithInode disk name n now = .ok (ok, disk') ∧
      (ok = true ↔ EnoughDir fs g v) ∧
      (ok = false → (fs.view g disk').inodeMap = v.inodeMap) := by
  have hb := h.sound.mountable.size.bounds
  unfold mkdirWithInode
  rcases h.allocBlock_took with ⟨hnone, hzero⟩ | ⟨b, disk1, v1, hsome, h1, htook1⟩
  · rw [hnone]
    refine ⟨false, disk, rfl, ⟨fun hfalse => (nomatch hfalse), fun henough => ?_⟩,
      fun _ => congrArg _ h.view⟩
    have hblocks := henough.blocks
    omega
  have hmem : b ∈ [b] := mem_singleton_self b
  have hdata := (htook1.fresh b hmem).1
  obtain ⟨disk2, hwrite, h2⟩ := h1.writeInode_eq hn (fs.newDirInode b now)
  obtain ⟨disk3, hinit, h3⟩ := h2.writeBlock_eq hdata (dotsBlock n 2 ((fs.blockSize - 12) % 2 ^ 16))
  generalize cut fs.blockSize (dotsBlock n 2 ((fs.blockSize - 12) % 2 ^ 16)) = f at h3
  change fs.Shows g disk3 ((v1.setBlock b f).setInode n (fs.newDirInode b now)) at h3
  have htook3 := htook1.setBlock hmem f
  have hkept := (v1.setBlock b f).setInode_inode_ne n (fs.newDirInode b now) (Ne.symm hne)
  have hdir3 := ((htook3.isDir hdir).frame (.of_eq hkept) (fun _ hc => hc) fun _ _ => rfl).1
  have hinode := hkept.trans (congrFun htook3.inode 2)
  have hfree : fs.freeBlocks ((v1.setBlock b f).setInode n (fs.newDirInode b now)) g + 1 = _ :=
    htook3.free
  rw [hsome, ok_bind]
  simp only []
  unfold initDirectoryBlock
  rw [hwrite, ok_bind, subW_ok (by omega), ok_bind, hinit]
  rcases DirShape.addEntry_eq h3 hdir3.toDirShape (IsDir.addDirEntry_run h3 hdir3 name n 2) with
    ⟨hfalse, hfull⟩ | ⟨c, disk', htrue, hlt, _, _, _, hcount⟩
  · refine ⟨false, disk3, hfalse, ⟨fun hfalse => (nomatch hfalse), fun henough => ?_⟩, fun _ => ?_⟩
    · have hroom := henough.room
      have hblocks := henough.blocks
      rw [hinode] at hfull
      omega
    · rw [h3.view]
      exact htook3.inodeMap
  · rw [hinode] at hlt
    exact ⟨true, disk', htrue, ⟨fun _ => ⟨hlt, by omega⟩, fun _ => rfl⟩,
      fun hfalse => (nomatch hfalse)⟩

end Ext2

end Felix
