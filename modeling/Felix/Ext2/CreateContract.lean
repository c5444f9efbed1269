import Felix.Ext2.Create
import Felix.Ext2.DirContract
import Felix.Ext2.FileMap
import Felix.Ext2.Resolve

/-!
# What a failed creation leaves, and what a removal gives back

Two contracts of the functions that make and remove files.

* A creation that fails should leave the volume as it was.  `create_new_file`
  and `mkdir_path` take an inode first and never give it back, so every failure
  behind that step breaks the contract.
* A removal should give back what the creation took.  `remove_file_path` frees
  the direct blocks only, and `free_inode` clears another bit than the one that
  `alloc_inode` set.  `rmdir_path` never gets as far as giving anything back.
-/

namespace Felix

open Bytes Res Vol List

namespace Ext2

variable {fs : Ext2} {g : Geometry} {disk disk' : Disk} {v : Vol}

/-! ## A creation that fails -/

/-- If the call returns `false`, both bitmaps and all that can be resolved are
as before. -/
def KeepsOnFailure (fs : Ext2) (g : Geometry) (disk : Disk) (run : Res (Bool × Disk)) : Prop :=
  ∀ disk', run = .ok (false, disk') →
    (fs.view g disk').inodeMap = (fs.view g disk).inodeMap ∧
    (fs.view g disk').blockMap = (fs.view g disk).blockMap ∧
    ∀ path, fs.resolvePath disk' path = fs.resolvePath disk path

/-- When `create_new_file` gets as far as the allocation of an inode, the volume
has what the new file needs. -/
def CreateCondition (fs : Ext2) (g : Geometry) (disk : Disk) (path : Str) (size : Nat) : Prop :=
  ∀ parentPath name p i, splitPath path = some (parentPath, name) →
    fs.resolvePath disk parentPath = .ok (some p) →
    ((fs.view g disk).inode p).isDir = true →
    FirstClear (fs.view g disk).inodeMap 12 fs.superblock.sInodesPerGroup.toNat i →
    Enough fs g (fs.view g disk) p i size

/-- When `mkdir_path` gets as far as the allocation of an inode, the volume has
what the new directory needs. -/
def MkdirCondition (fs : Ext2) (g : Geometry) (disk : Disk) (path : Str) : Prop :=
  ∀ name i, fs.resolvePath disk path = .ok none → rootName path = some name →
    FirstClear (fs.view g disk).inodeMap 12 fs.superblock.sInodesPerGroup.toNat i →
    EnoughDir fs g (fs.view g disk)

theorem keepsOnFailure_same : fs.KeepsOnFailure g disk (.ok (false, disk)) := by
  intro disk' hrun
  cases hrun
  exact ⟨rfl, rfl, fun _ => rfl⟩

theorem keepsOnFailure_true (disk' : Disk) : fs.KeepsOnFailure g disk (.ok (true, disk')) := by
  intro _ hrun
  cases hrun

/-- A failure that leaves the inode of the new file marked. -/
theorem not_keepsOnFailure {i hi : Nat} (hfirst : FirstClear (fs.view g disk).inodeMap 12 hi i)
    (hmap : (fs.view g disk').inodeMap = setBit i (fs.view g disk).inodeMap) :
    ¬ fs.KeepsOnFailure g disk (.ok (false, disk')) := by
  intro hkeeps
  have hbit := congrArg (fun f => bit f i) ((hkeeps disk' rfl).1.symm.trans hmap)
  simp only [bit_setBit_self, hfirst.isClear] at hbit
  cases hbit

theorem Sound.validInode (h : fs.Sound g) {f : Bytes} {i : Nat}
    (hfirst : FirstClear f 12 fs.superblock.sInodesPerGroup.toNat i) : fs.ValidInode i := by
  have hlo := hfirst.lower
  have hup := hfirst.upper
  have hipg := h.inodes
  exact ⟨by omega, by omega⟩

theorem IsDir.takeInode {d : Nat} (hd : fs.IsDir g v d) (i : Nat) :
    fs.IsDir g (v.takeInode i) d := by
  have hframe : fs.IsDir g (v.takeInode i) d ∧ fs.dirNames (v.takeInode i) d = fs.dirNames v d :=
    hd.frame (.of_eq rfl) (fun _ h => h) fun _ _ => rfl
  exact hframe.1

/-- `mkdir_path` gives up before it takes an inode, or takes one and succeeds
exactly when the volume has what a directory needs. -/
theorem IsDirOn.mkdirPath_eq (h : IsDirOn fs g 2 disk) {path : Str} {found : Option Nat}
    (hfound : fs.resolvePath disk path = .ok found) (now : UInt32) :
    (fs.mkdirPath disk path now = .ok (false, disk) ∧
      ∀ name i, found = none → rootName path = some name →
        ¬ FirstClear (fs.view g disk).inodeMap 12 fs.superblock.sInodesPerGroup.toNat i) ∨
    ∃ name i ok disk', found = none ∧ rootName path = some name ∧
      FirstClear (fs.view g disk).inodeMap 12 fs.superblock.sInodesPerGroup.toNat i ∧
      fs.mkdirPath disk path now = .ok (ok, disk') ∧
      (ok = true ↔ EnoughDir fs g (fs.view g disk)) ∧
      (ok = false → (fs.view g disk').inodeMap = setBit i (fs.view g disk).inodeMap) := by
  have hm : fs.mounted = true := h.volume.sound.mountable.mounted
  unfold mkdirPath
  rw [if_neg (by simp [hm]), hfound]
  cases found with
  | some n => exact .inl ⟨rfl, fun _ _ hnone => (nomatch hnone)⟩
  | none =>
  cases hname : rootName path with
  | none => exact .inl ⟨rfl, fun _ _ _ hnone => (nomatch hnone)⟩
  | some name =>
  simp only []
  rcases h.volume.shows.allocInode_eq with ⟨hnone, hall⟩ | ⟨i, disk₁, hfirst, hsome, h1⟩
  · rw [hnone]
    exact .inl ⟨rfl, fun _ _ _ _ hfirst => hfirst.not_all hall⟩
  rw [hsome]
  have hlo := hfirst.lower
  obtain ⟨ok, disk', hrun, hiff, hmap⟩ := h1.mkdirWithInode_eq (h.dir.takeInode i)
    (h.volume.sound.validInode hfirst) (by omega) name now
  refine .inr ⟨name, i, ok, disk', trivial, rfl, hfirst, hrun, ?_, hmap⟩
  exact hiff.trans ⟨fun henough => ⟨henough.room, henough.blocks⟩,
    fun henough => ⟨henough.room, henough.blocks⟩⟩

namespace WellFormed

variable (h : WellFormed fs g disk)
include h

theorem createNewFile_keeps_iff (path : Str) {data : List UInt8}
    (hlen : data.length < 2 ^ 31) (after : Bytes) (now : UInt32) :
    fs.KeepsOnFailure g disk (fs.createNewFile disk path data after now)
      ↔ fs.CreateCondition g disk path data.length := by
  unfold createNewFile CreateCondition
  rw [if_neg (by simp [h.mounted])]
  cases hsplit : splitPath path with
  | none => exact ⟨fun _ _ _ _ _ hnone => (nomatch hnone), fun _ => keepsOnFailure_same⟩
  | some c =>
  obtain ⟨parentPath, name⟩ := c
  simp only []
  cases hparent : fs.resolvePath disk parentPath with
  | error e =>
    rw [h.resolvePath_eq] at hparent
    cases hparent
  | ok found =>
  rw [ok_bind]
  cases found with
  | none =>
    refine ⟨fun _ _ _ _ _ hsome hres => ?_, fun _ => keepsOnFailure_same⟩
    cases hsome
    rw [hparent] at hres
    cases hres
  | some p =>
  have hnode := h.node_of_resolvePath hparent
  simp only []
  rw [h.volume.readInode_eq hnode.valid, ok_bind]
  by_cases hdir : ((fs.view g disk).inode p).isDir = true
  swap
  · rw [if_pos (Bool.eq_false_iff.2 hdir)]
    refine ⟨fun _ _ _ _ _ hsome hres hisDir => ?_, fun _ => keepsOnFailure_same⟩
    cases hsome
    rw [hparent] at hres
    cases hres
    exact absurd hisDir hdir
  rw [if_neg (by simp [hdir])]
  rcases h.volume.shows.allocInode_eq with ⟨hnone, hall⟩ | ⟨i, disk₁, hfirst, hsome, h1⟩
  · rw [hnone]
    exact ⟨fun _ _ _ _ _ _ _ _ hfirst => (hfirst.not_all hall).elim, fun _ => keepsOnFailure_same⟩
  rw [hsome, ok_bind]
  simp only []
  rcases h1.createWithInode_eq ((hnode.dir hdir).takeInode i) (h.volume.sound.validInode hfirst)
      name hlen after now with ⟨disk', hfalse, hmap, hshort⟩ | ⟨disk', _, htrue, henough, _⟩
  · rw [hfalse]
    refine ⟨fun hkeeps => absurd hkeeps (not_keepsOnFailure hfirst hmap), fun hcond => ?_⟩
    obtain ⟨hfits, hapart, hroom, hblocks⟩ := hcond parentPath name p i rfl hparent hdir hfirst
    exact absurd ⟨hfits, hapart, hroom, hblocks⟩ hshort
  rw [htrue]
  refine ⟨fun _ => ?_, fun _ => keepsOnFailure_true disk'⟩
  intro _ _ p' i' hsome' hres _ hfirst'
  cases hsome'
  rw [hparent] at hres
  cases hres
  rw [hfirst'.unique hfirst]
  exact ⟨henough.fits, henough.apart, henough.room, henough.blocks⟩

theorem mkdirPath_keeps_iff (path : Str) (now : UInt32) :
    fs.KeepsOnFailure g disk (fs.mkdirPath disk path now) ↔ fs.MkdirCondition g disk path := by
  have hroot : IsDirOn fs g 2 disk := ⟨h.volume, h.rootNode.dir h.root⟩
  rcases hroot.mkdirPath_eq (h.resolvePath_eq path) now with ⟨hrun, hnone⟩ |
    ⟨name, i, ok, disk', habsent, hname, hfirst, hrun, hiff, hmap⟩
  · rw [hrun]
    refine ⟨fun _ name i habsent hname hfirst => ?_, fun _ => keepsOnFailure_same⟩
    rw [h.resolvePath_eq, Except.ok.injEq] at habsent
    exact absurd hfirst (hnone name i habsent hname)
  rw [hrun]
  cases ok with
  | true => exact ⟨fun _ _ _ _ _ _ => hiff.1 rfl, fun _ => keepsOnFailure_true disk'⟩
  | false =>
    refine ⟨fun hkeeps => absurd hkeeps (not_keepsOnFailure hfirst (hmap rfl)), fun hcond => ?_⟩
    have henough := hcond name i (by rw [h.resolvePath_eq, habsent]) hname hfirst
    exact absurd (hiff.2 henough) Bool.false_ne_true

end WellFormed

/-- A creation that fails leaves the volume as it was exactly when it does not
fail behind the allocation of the inode. -/
theorem creation_keeps_iff (h : WellFormed fs g disk) (path : Str) {data : List UInt8}
    (hlen : data.length < 2 ^ 31) (after : Bytes) (now : UInt32) :
    (fs.KeepsOnFailure g disk (fs.createNewFile disk path data after now)
      ↔ fs.CreateCondition g disk path data.length) ∧
    (fs.KeepsOnFailure g disk (fs.mkdirPath disk path now) ↔ fs.MkdirCondition g disk path) :=
  ⟨h.createNewFile_keeps_iff path hlen after now, h.mkdirPath_keeps_iff path now⟩

/-! ## Removing a file in the root directory -/

/-- The blocks that a list of pointers names. -/
def held (ptrs : List UInt32) : List Nat := (ptrs.filter (· ≠ 0)).map UInt32.toNat

theorem held_cons {p : UInt32} (hp : p ≠ 0) (ptrs : List UInt32) :
    held (p :: ptrs) = p.toNat :: held ptrs := by
  unfold held
  rw [filter_cons_of_pos (by simp [hp]), map_cons]

theorem held_append (ptrs ptrs' : List UInt32) :
    held (ptrs ++ ptrs') = held ptrs ++ held ptrs' := by
  unfold held
  rw [filter_append, map_append]

/-- `free_blocks_of_inode` clears the bits of the blocks that it is given. -/
theorem Shows.freeAll_eq (h : fs.Shows g disk v) {ptrs : List UInt32}
    (hdata : ∀ b ∈ held ptrs, fs.DataBlock g b ∧ b < 8 * fs.blockSize ∧ bit v.blockMap b = true)
    (hnodup : (held ptrs).Nodup) :
    ∃ disk' v', fs.freeAll ptrs disk = .ok disk' ∧ fs.Shows g disk' v' ∧
      v'.inodeMap = v.inodeMap ∧
      ∀ i, bit v'.blockMap i = (bit v.blockMap i && decide (i ∉ held ptrs)) := by
  induction ptrs generalizing disk v with
  | nil => exact ⟨disk, v, rfl, h, rfl, fun i => by simp [held]⟩
  | cons p ptrs ih =>
    rw [freeAll]
    by_cases hp : p = 0
    · rw [hp] at hdata hnodup
      rw [hp]
      exact ih h hdata hnodup
    rw [if_neg hp]
    rw [held_cons hp] at hdata hnodup ⊢
    obtain ⟨hnotin, hnodup'⟩ := nodup_cons.1 hnodup
    obtain ⟨⟨hblock, hlt, hset⟩, hrest⟩ := forall_mem_cons.1 hdata
    obtain ⟨disk₁, hfree, h1⟩ := h.freeBlock_eq hblock hlt hset
    have hother : ∀ b ∈ held ptrs, bit (v.giveBlock p.toNat).blockMap b = bit v.blockMap b := by
      intro b hb
      have hne : b ≠ p.toNat := fun heq => hnotin (heq ▸ hb)
      rw [giveBlock_blockMap, bit_clearBit, decide_eq_true hne, Bool.and_true]
    obtain ⟨disk', v', hrun, h', hmap', hbits⟩ := ih h1
      (fun b hb => ⟨(hrest b hb).1, (hrest b hb).2.1, (hother b hb).trans (hrest b hb).2.2⟩)
      hnodup'
    refine ⟨disk', v', ?_, h', hmap', fun i => ?_⟩
    · rw [hfree, ok_bind, hrun]
    · rw [hbits, giveBlock_blockMap, bit_clearBit, Bool.and_assoc, ← Bool.decide_and]
      simp only [mem_cons, not_or]

theorem resolvePath_rootName (hm : fs.mounted = true) {path name : Str}
    (hname : rootName path = some name) (hne : name ≠ .empty) :
    fs.resolvePath disk path = fs.findDirEntry disk 2 name := by
  rw [resolvePath_eq_from hm, components_rootName hname hne, resolveFrom]
  cases fs.findDirEntry disk 2 name with
  | error e => rfl
  | ok found =>
    cases found with
    | none => rfl
    | some n => rfl

theorem IsDirOn.mounted (h : IsDirOn fs g 2 disk) : fs.mounted = true :=
  h.volume.sound.mountable.mounted

namespace Shows

variable (h : fs.Shows g disk v) (hd : fs.IsDir g v 2) {path name : Str}
  (hname : rootName path = some name) (hne : name ≠ .empty)
include h hd hname hne

/-- `remove_file_path` of a file in the root directory whose direct blocks are
marked. -/
theorem removeFilePath_eq {n : Nat} (hfound : Names.lookup (fs.dirNames v 2) name = some n)
    (hn : 1 ≤ n ∧ n ≤ fs.superblock.sInodesPerGroup.toNat) (hfile : (v.inode n).isDir = false)
    (hdata : ∀ b ∈ held (v.inode n).directPtrs, fs.DataBlock g b ∧
      b < 8 * fs.blockSize ∧ bit v.blockMap b = true)
    (hnodup : (held (v.inode n).directPtrs).Nodup) :
    ∃ disk', fs.removeFilePath disk path = .ok (true, disk') ∧
      (fs.view g disk').inodeMap = clearBit (n - 1) v.inodeMap ∧
      ∀ i, bit (fs.view g disk').blockMap i
        = (bit v.blockMap i && decide (i ∉ held (v.inode n).directPtrs)) := by
  have hipg := h.sound.inodes
  have hm := h.sound.mountable.mounted
  have hvalid : fs.ValidInode n := ⟨hn.1, by omega⟩
  have hin : name ∈ (fs.dirNames v 2).map Prod.fst :=
    mem_map.2 ⟨_, (Names.mem_of_lookup hfound).1, rfl⟩
  rcases IsDir.removeDirEntry_eq h hd name with ⟨habsent, _⟩ |
    ⟨_, disk₁, b, f, hremove, _, _, h1, _⟩
  · exact absurd hin habsent
  obtain ⟨disk₂, v₂, hfree, h2, hmap2, hbits2⟩ := h1.freeAll_eq hdata hnodup
  obtain ⟨disk3, hinodeFree, hview3⟩ := h2.freeInode_eq hn.1 hn.2
  refine ⟨disk3, ?_, ?_, fun i => ?_⟩
  · unfold removeFilePath freeBlocksOfInode
    rw [if_neg (by simp [hm]), resolvePath_rootName hm hname hne, IsDir.findDirEntry_eq h hd,
      ok_bind, hfound]
    simp only []
    rw [h.readInode_eq hvalid, ok_bind, if_neg (by simp [hfile]), hname]
    simp only []
    rw [hremove, ok_bind]
    simp only []
    rw [if_neg (by decide), h1.readInode_eq hvalid, ok_bind, setBlock_inode, hfree, ok_bind,
      hinodeFree, ok_bind]
  · rw [hview3, setInode_inodeMap, giveInode_inodeMap, hmap2, setBlock_inodeMap]
  · rw [hview3, setInode_blockMap, giveInode_blockMap, hbits2, setBlock_blockMap]

/-- `create_file_path` of a name that is absent fails, or makes a file with the
first free inode. -/
theorem createFilePath_eq (habsent : fs.findDirEntry disk 2 name = .ok none)
    {data : List UInt8} (hlen : data.length < 2 ^ 31) (after : Bytes) (now : UInt32) :
    ((∃ disk', fs.createFilePath disk path data after now = .ok (false, disk')) ∧
      ∀ n, FirstClear v.inodeMap 12 fs.superblock.sInodesPerGroup.toNat n →
        ¬ Enough fs g v 2 n data.length) ∨
    ∃ n disk' v', fs.createFilePath disk path data after now = .ok (true, disk') ∧
      FirstClear v.inodeMap 12 fs.superblock.sInodesPerGroup.toNat n ∧
      Enough fs g v 2 n data.length ∧ fs.Shows g disk' v' ∧
      Created fs g (v.takeInode n) v' 2 n name (fs.blockCount data.length) := by
  have hm := h.sound.mountable.mounted
  have hstart : fs.createFilePath disk path data after now = (fs.allocInode disk >>= fun r =>
      r.1.elim (.ok (false, r.2)) fun n => fs.createWithInode r.2 2 name n data after now) := by
    unfold createFilePath createNewFile
    rw [resolvePath_rootName hm hname hne, habsent, ok_bind]
    rw [if_neg (by simp [hm]), splitPath_rootName hname hne]
    simp only []
    rw [resolvePath_eq_from hm, Str.components_root, resolveFrom, ok_bind]
    simp only []
    rw [h.readInode_eq hd.valid, ok_bind, if_neg (by simp [hd.isDir])]
    congr 1
    funext r
    rcases r with ⟨_ | n, d⟩ <;> rfl
  rw [hstart]
  rcases h.allocInode_eq with ⟨hnone, hall⟩ | ⟨n, disk₁, hfirst, hsome, h1⟩
  · rw [hnone]
    exact .inl ⟨⟨disk, rfl⟩, fun n hfirst => (hfirst.not_all hall).elim⟩
  rw [hsome]
  rcases h1.createWithInode_eq (hd.takeInode n) (h.sound.validInode hfirst) name hlen after now with
    ⟨disk', hfalse, _, hshort⟩ | ⟨disk', v', htrue, henough, h', hcreated⟩
  · refine .inl ⟨⟨disk', hfalse⟩, fun m hm henough => hshort ?_⟩
    rw [hfirst.unique hm]
    exact ⟨henough.fits, henough.apart, henough.room, henough.blocks⟩
  exact .inr ⟨n, disk', v', htrue, hfirst,
    ⟨henough.fits, henough.apart, henough.room, henough.blocks⟩, h', hcreated⟩

end Shows

/-! ## What a removal gives back -/

/-- Every block of the file on `disk`, data or table, is clear in the block
bitmap of `disk'`. -/
def BlocksReleased (fs : Ext2) (g : Geometry) (disk disk' : Disk) (n : Nat) : Prop :=
  ∀ s, fs.slot (fs.view g disk) ((fs.view g disk).inode n) s ≠ 0 →
    bit (fs.view g disk').blockMap
      (fs.slot (fs.view g disk) ((fs.view g disk).inode n) s).toNat = false

/-- The file that was made between `disk` and `disk₁` is given back on `disk₂`:
its blocks are, and what was set for it in the inode bitmap is clear again. -/
structure Released (fs : Ext2) (g : Geometry) (disk disk₁ disk₂ : Disk) (n : Nat) : Prop where
  blocks : BlocksReleased fs g disk₁ disk₂ n
  inode : ∀ i, bit (fs.view g disk).inodeMap i = false →
    bit (fs.view g disk₁).inodeMap i = true → bit (fs.view g disk₂).inodeMap i = false

variable {l : List Nat} {numBlocks n t : Nat} {inode : Ext2Inode}

theorem held_range (hl : ∀ b ∈ l, (UInt32.ofNat b).toNat = b ∧ UInt32.ofNat b ≠ 0) (m : Nat) :
    held ((List.range m).map fun k => (l[k]?.map UInt32.ofNat).getD 0) = l.take m := by
  induction m with
  | zero => rfl
  | succ m ih =>
    rw [range_succ, map_append, held_append, map_singleton, take_add_one]
    congr 1
    cases hk : l[m]? with
    | none => rfl
    | some b =>
      obtain ⟨hnat, hpos⟩ := hl b (mem_of_getElem? hk)
      show held [UInt32.ofNat b] = [b]
      rw [held_cons hpos, hnat]
      rfl

/-- The direct blocks of a new file are the first twelve of its blocks. -/
theorem FilePtrs.held_eq (h : FilePtrs numBlocks t l inode)
    (hl : ∀ b ∈ l, (UInt32.ofNat b).toNat = b ∧ UInt32.ofNat b ≠ 0) :
    held inode.directPtrs = l.take 12 := by
  rw [← held_range hl 12]
  congr 1
  refine map_congr_left fun k hk => ?_
  rw [h k, if_pos (mem_range.1 hk)]

/-- A file of at most twelve blocks has no other blocks. -/
theorem FilePtrs.slot_eq
    (h : FilePtrs numBlocks t l inode) (hsmall : ¬ 12 < numBlocks) (v : Vol) (s : Slot)
    (hs : fs.slot v inode s ≠ 0) : ∃ k, k < 12 ∧ fs.slot v inode s = inode.ptr k := by
  have hupper : ∀ k, 12 ≤ k → inode.ptr k = 0 := by
    intro k hk
    rw [h k, if_neg (by omega), if_neg (by omega)]
  have hentry : ∀ i, v.entry 0 i = 0 := fun _ => if_pos rfl
  cases s with
  | data i =>
    by_cases hi : i < 12
    · exact ⟨i, hi, if_pos hi⟩
    refine absurd ?_ hs
    show fs.blockPtr v inode i = 0
    unfold blockPtr farPtr
    rw [if_neg hi, hupper 12 (by omega), hupper 13 (by omega), hupper 14 (by omega)]
    simp only [hentry, ite_self]
  | table => exact absurd (hupper 12 (by omega)) hs
  | double => exact absurd (hupper 13 (by omega)) hs
  | doubleEntry i =>
    refine absurd ?_ hs
    show v.entry (inode.ptr 13) i = 0
    rw [hupper 13 (by omega), hentry]
  | triple => exact absurd (hupper 14 (by omega)) hs
  | tripleEntry i =>
    refine absurd ?_ hs
    show v.entry (inode.ptr 14) i = 0
    rw [hupper 14 (by omega), hentry]
  | tripleLeaf i j =>
    refine absurd ?_ hs
    show v.entry (v.entry (inode.ptr 14) i) j = 0
    rw [hupper 14 (by omega), hentry, hentry]

/-- What the volume holds after a file was made in the root directory: its
direct blocks are marked, and a table is marked that is none of them. -/
structure Made (fs : Ext2) (g : Geometry) (v v' : Vol) (n : Nat) (name : Str) (numBlocks t : Nat)
    (l : List Nat) : Prop where
  dir : fs.IsDir g v' 2
  names : fs.dirNames v' 2 = fs.dirNames v 2 ++ [(storedName name, n)]
  ptrs : FilePtrs numBlocks t l (v'.inode n)
  file : (v'.inode n).isDir = false
  inodeMap : v'.inodeMap = setBit n v.inodeMap
  data : ∀ b ∈ tableOf numBlocks t ++ l, fs.DataBlock g b ∧ b < 8 * fs.blockSize ∧
    bit v'.blockMap b = true
  nodup : (tableOf numBlocks t ++ l).Nodup

theorem IsDir.setInode_ne {d : Nat} (h : fs.IsDir g v d) (hne : n ≠ d) (inode : Ext2Inode) :
    fs.IsDir g (v.setInode n inode) d ∧ fs.dirNames (v.setInode n inode) d = fs.dirNames v d :=
  h.frame (.of_eq (setInode_inode_ne _ _ _ (Ne.symm hne))) (fun _ hb => hb) fun _ _ => rfl

theorem Created.made {v' : Vol} {name : Str} (hs : fs.Sound g)
    (hd : fs.IsDir g v 2) (hn : n < 2 ^ 32) (hne : n ≠ 2)
    (hroom : (dirBlocks (v.inode 2)).length < 12)
    (h : Created fs g (v.takeInode n) v' 2 n name numBlocks) :
    ∃ t l, Made fs g v v' n name numBlocks t l := by
  obtain ⟨w, inode, t, l, b, htook, _, hptrs, hfile, hdata, hfresh, hview⟩ := h
  have hgood := hs.mountable.size
  have hdir1 : fs.IsDir g w 2 := htook.isDir (hd.takeInode n)
  have hnames1 : fs.dirNames w 2 = fs.dirNames v 2 := by
    have hframe : fs.IsDir g w 2 ∧ fs.dirNames w 2 = fs.dirNames (v.takeInode n) 2 := by
      refine (hd.takeInode n).frame (.of_eq (congrFun htook.inode 2)) (fun _ => htook.marked)
        fun c hc => ?_
      refine htook.block c fun hmem => ?_
      exact (htook.fresh c hmem).2 ((hd.takeInode n).data c hc).2
    exact hframe.2
  have hframe2 := hdir1.setInode_ne hne inode
  have hblocks : dirBlocks ((w.setInode n inode).inode 2) = dirBlocks (v.inode 2) := by
    rw [setInode_inode_ne _ _ _ (Ne.symm hne), htook.inode]
    rfl
  obtain ⟨hdir', _, hnames'⟩ := hframe2.1.withName hgood (by rw [hblocks]; exact hroom) hdata
    hfresh name hn 1
  rw [← hview] at hdir' hnames'
  have hinode : v'.inode n = inode := by
    rw [hview]
    show ((w.setInode n inode).setInode 2 _).inode n = inode
    rw [setInode_inode_ne _ _ _ hne, setInode_inode_self]
  refine ⟨t, l, hdir', ?_, ?_, ?_, ?_, fun c hc => ⟨(htook.fresh c hc).1, ?_, ?_⟩, htook.nodup⟩
  · rw [hnames', hframe2.2, hnames1]
  · rw [hinode]
    exact hptrs
  · rw [hinode]
    exact hfile
  · rw [hview]
    exact htook.inodeMap
  · have hlt := lt_of_not_marked (htook.fresh c hc).2
    have hbpg := hs.blocks
    omega
  · rw [hview]
    show bit (setBit b w.blockMap) c = true
    rw [bit_setBit, htook.bit_mem hc, Bool.true_or]

namespace Made

variable {v v' : Vol} {n numBlocks t : Nat} {l : List Nat} {path name : Str}
  (hs : fs.Shows g disk v') (h : Made fs g v v' n name numBlocks t l)
include hs h

theorem held_eq : held (v'.inode n).directPtrs = l.take 12 := by
  refine h.ptrs.held_eq fun b hb => ?_
  have hdata := (h.data b (mem_append_right _ hb)).1
  exact ⟨hs.toNat_ofNat hdata, hs.ofNat_ne_zero hdata⟩

/-- The removal of a file that was just made.  It does not find a name that was
cut when it was stored. -/
theorem removeFilePath_eq (hname : rootName path = some name) (hne : name ≠ .empty)
    (habsent : Names.lookup (fs.dirNames v 2) name = none)
    (hn : 1 ≤ n ∧ n < fs.superblock.sInodesPerGroup.toNat) :
    (storedName name ≠ name ∧ fs.removeFilePath disk path = .ok (false, disk)) ∨
    fs.resolvePath disk path = .ok (some n) ∧
      ∃ disk', fs.removeFilePath disk path = .ok (true, disk') ∧
        (fs.view g disk').inodeMap = clearBit (n - 1) v'.inodeMap ∧
        ∀ i, bit (fs.view g disk').blockMap i
          = (bit v'.blockMap i && decide (i ∉ l.take 12)) := by
  have hm := hs.sound.mountable.mounted
  have hlookup : Names.lookup (fs.dirNames v' 2) name
      = if storedName name = name then some n else none := by
    rw [h.names, Names.lookup_append, habsent, Option.none_or, Names.lookup_cons, Names.lookup_nil]
    have hpos : n ≠ 0 := by omega
    simp only [hpos, ne_eq, not_false_eq_true, and_true]
  have hresolve : fs.resolvePath disk path = .ok (Names.lookup (fs.dirNames v' 2) name) := by
    rw [resolvePath_rootName hm hname hne, IsDir.findDirEntry_eq hs h.dir]
  by_cases hstored : storedName name = name
  swap
  · refine .inl ⟨hstored, ?_⟩
    rw [if_neg hstored] at hlookup
    unfold removeFilePath
    rw [if_neg (by simp [hm]), hresolve, hlookup, ok_bind]
  rw [if_pos hstored] at hlookup
  right
  refine ⟨by rw [hresolve, hlookup], ?_⟩
  have hheld := h.held_eq hs
  have hsub : ∀ b ∈ l.take 12, b ∈ tableOf numBlocks t ++ l := fun b hb =>
    mem_append_right _ (mem_of_mem_take hb)
  obtain ⟨disk', hrun, hmap, hbits⟩ := hs.removeFilePath_eq h.dir hname hne hlookup
    ⟨hn.1, by omega⟩ h.file (fun b hb => h.data b (hsub b (by rw [← hheld]; exact hb)))
    (by rw [hheld]; exact (nodup_append.1 h.nodup).2.1.sublist (take_sublist _ _))
  rw [hheld] at hbits
  exact ⟨disk', hrun, hmap, hbits⟩

/-- The removal gives back the blocks exactly when there is no table. -/
theorem blocksReleased_iff {disk' : Disk}
    (hbits : ∀ i, bit (fs.view g disk').blockMap i
      = (bit v'.blockMap i && decide (i ∉ l.take 12))) :
    BlocksReleased fs g disk disk' n ↔ numBlocks ≤ 12 := by
  obtain ⟨hvol, rfl⟩ := hs
  have hnodup := nodup_append.1 h.nodup
  refine ⟨fun hreleased => ?_, fun hsmall s hs => ?_⟩
  · -- the table of a larger file is none of the blocks that are freed
    by_contra hlarge
    have htable : tableOf numBlocks t = [t] := if_pos (by omega)
    have hmem : t ∈ tableOf numBlocks t ++ l := by
      rw [htable]
      exact mem_cons_self
    obtain ⟨hdata, _, hset⟩ := h.data t hmem
    have hslot : fs.slot (fs.view g disk) ((fs.view g disk).inode n) .table = UInt32.ofNat t := by
      show ((fs.view g disk).inode n).ptr 12 = _
      rw [h.ptrs 12, if_neg (by omega), if_pos ⟨rfl, by omega⟩]
    have hclear := hreleased .table
    rw [hslot, hvol.toNat_ofNat hdata, hbits, hset, Bool.true_and, decide_eq_false_iff_not,
      Decidable.not_not] at hclear
    have hin := mem_of_mem_take (hclear (hvol.ofNat_ne_zero hdata))
    rw [htable] at hnodup
    exact hnodup.2.2 t (mem_singleton_self t) t hin rfl
  · obtain ⟨k, hk, hslot⟩ := h.ptrs.slot_eq (by omega) (fs.view g disk) s hs
    rw [hslot, h.ptrs k, if_pos hk] at hs
    rw [hslot, h.ptrs k, if_pos hk]
    cases hget : l[k]? with
    | none =>
      rw [hget] at hs
      exact absurd rfl hs
    | some b =>
      have hb : b ∈ l.take 12 := mem_of_getElem? (by rw [getElem?_take, if_pos hk, hget])
      have hdata := (h.data b (mem_append_right _ (mem_of_mem_take hb))).1
      show bit _ (UInt32.ofNat b).toNat = false
      rw [hvol.toNat_ofNat hdata, hbits, decide_eq_false (not_not.2 hb), Bool.and_false]

/-- The bit of the inode that was taken is set, and stays set when the bit
before it is cleared. -/
theorem inode_bit {disk' : Disk} (hpos : 1 ≤ n)
    (hmap : (fs.view g disk').inodeMap = clearBit (n - 1) v'.inodeMap) :
    bit (fs.view g disk).inodeMap n = true ∧ bit (fs.view g disk').inodeMap n = true := by
  rw [hs.view, hmap, bit_clearBit, h.inodeMap, bit_setBit_self, decide_eq_true (by omega)]
  exact ⟨rfl, rfl⟩

end Made

variable {path name : Str} {data : List UInt8} {r : Bool × Disk}

theorem IsDirOn.made (h : IsDirOn fs g 2 disk)
    (hname : rootName path = some name) (hne : name ≠ .empty)
    (habsent : fs.findDirEntry disk 2 name = .ok none)
    (hlen : data.length < 2 ^ 31) {after : Bytes} {now : UInt32}
    (hcreate : fs.createFilePath disk path data after now = .ok (true, disk')) :
    ∃ n t l v', (1 ≤ n ∧ n < fs.superblock.sInodesPerGroup.toNat) ∧
      bit (fs.view g disk).inodeMap n = false ∧ fs.Shows g disk' v' ∧
      Made fs g (fs.view g disk) v' n name (fs.blockCount data.length) t l := by
  rcases h.volume.shows.createFilePath_eq h.dir hname hne habsent hlen after now with
    ⟨⟨_, hfalse⟩, _⟩ | ⟨n, disk₁, v', htrue, hfirst, henough, h', hcreated⟩
  · rw [hcreate] at hfalse
    cases hfalse
  rw [hcreate] at htrue
  cases htrue
  have hlo := hfirst.lower
  have hup := hfirst.upper
  have h32 := fs.superblock.sInodesPerGroup.toNat_lt
  obtain ⟨t, l, hmade⟩ := hcreated.made h.volume.sound h.dir (by omega) henough.apart
    henough.room
  exact ⟨n, t, l, v', ⟨by omega, hup⟩, hfirst.isClear, h', hmade⟩

/-- A removal never gives back a file that was just made: `alloc_inode` has set
bit `n` for inode `n`, and `free_inode` clears bit `n - 1`.  The blocks are
given back exactly if there are at most twelve. -/
theorem removal_never_releases (h : IsDirOn fs g 2 disk) {path name : Str}
    (hname : rootName path = some name) (hne : name ≠ .empty)
    (habsent : fs.findDirEntry disk 2 name = .ok none) {data : List UInt8}
    (hlen : data.length < 2 ^ 31) {after : Bytes} {now : UInt32} {disk₁ disk₂ : Disk}
    (hcreate : fs.createFilePath disk path data after now = .ok (true, disk₁))
    (hremove : fs.removeFilePath disk₁ path = .ok (true, disk₂)) :
    ∃ n, fs.resolvePath disk₁ path = .ok (some n) ∧ ¬ Released fs g disk disk₁ disk₂ n ∧
      (BlocksReleased fs g disk₁ disk₂ n ↔ data.length ≤ 12 * fs.blockSize) := by
  have hb := h.volume.sound.mountable.size.bounds
  obtain ⟨n, t, l, _, hn, hclear, h₁, hmade⟩ := h.made hname hne habsent hlen hcreate
  rw [IsDir.findDirEntry_eq h.volume.shows h.dir, Except.ok.injEq] at habsent
  rcases hmade.removeFilePath_eq h₁ hname hne habsent hn with ⟨_, hfalse⟩ |
    ⟨hresolve, disk', htrue, hmap, hbits⟩
  · rw [hremove] at hfalse
    cases hfalse
  rw [hremove] at htrue
  cases htrue
  obtain ⟨hset, hkept⟩ := hmade.inode_bit h₁ hn.1 hmap
  refine ⟨n, hresolve, fun hreleased => ?_, ?_⟩
  · rw [hreleased.inode n hclear hset] at hkept
    cases hkept
  · rw [hmade.blocksReleased_iff h₁ hbits]
    exact blockCount_le_iff (by omega)

/-! ## Removing a directory that was just made -/

/-- `list_directory_entries_by_inode` has no entries to offer. -/
theorem listDirectoryEntriesByInode_eq {found : Option (List DirEntry)}
    (h : fs.listDirectoryEntriesByInode disk n = .ok found) : found = none := by
  obtain ⟨inode, _, h⟩ := bind_eq_ok.1 h
  split at h
  · cases h
    rfl
  · cases h
    rfl

/-- So `remove_directory_contents` always gives up. -/
theorem removeDirectoryContents_false {rmdir : Disk → Str → Res (Bool × Disk)}
    (h : fs.removeDirectoryContents rmdir disk n = .ok r) : r.1 = false := by
  obtain ⟨found, hlist, h⟩ := bind_eq_ok.1 h
  rw [listDirectoryEntriesByInode_eq hlist] at h
  cases h
  rfl

/-- And `rmdir_path` never removes anything. -/
theorem rmdirPath_false {depth : Nat} (h : fs.rmdirPath depth disk path = .ok r) : r.1 = false := by
  cases depth with
  | zero => cases h
  | succ depth =>
    rw [rmdirPath] at h
    split at h
    · cases h
      rfl
    obtain ⟨found, _, h⟩ := bind_eq_ok.1 h
    cases found with
    | none =>
      cases h
      rfl
    | some n =>
      obtain ⟨inode, _, h⟩ := bind_eq_ok.1 h
      split at h
      · cases h
        rfl
      obtain ⟨⟨emptied, disk₁⟩, hcontents, h⟩ := bind_eq_ok.1 h
      have hemptied : emptied = false := removeDirectoryContents_false hcontents
      simp only [hemptied] at h
      cases h
      rfl

/-- `rmdir_path` undoes `mkdir_path`: the name is gone, and both bitmaps are as
before, apart from a block that the root directory got. -/
def UndoesMkdir (fs : Ext2) (g : Geometry) (disk : Disk) (path : Str) (now : UInt32) : Prop :=
  ∀ disk₁, fs.mkdirPath disk path now = .ok (true, disk₁) →
    ∃ depth disk₂, fs.rmdirPath depth disk₁ path = .ok (true, disk₂) ∧
      fs.resolvePath disk₂ path = .ok none ∧
      (fs.view g disk₂).inodeMap = (fs.view g disk).inodeMap ∧
      ∀ b, b ∉ dirBlocks ((fs.view g disk₂).inode 2) ∨
          b ∈ dirBlocks ((fs.view g disk).inode 2) →
        bit (fs.view g disk₂).blockMap b = bit (fs.view g disk).blockMap b

/-- A directory can be made at the path: nothing is there, an inode is free,
the root directory has room and two blocks are free. -/
def CanMkdir (fs : Ext2) (g : Geometry) (disk : Disk) (path : Str) : Prop :=
  fs.resolvePath disk path = .ok none ∧
    (∃ i, FirstClear (fs.view g disk).inodeMap 12 fs.superblock.sInodesPerGroup.toNat i) ∧
    EnoughDir fs g (fs.view g disk)

theorem IsDirOn.resolvePath_root (h : IsDirOn fs g 2 disk)
    (hname : rootName path = some name) : ∃ found, fs.resolvePath disk path = .ok found := by
  by_cases hne : name = .empty
  · obtain ⟨hbytes, _⟩ := rootName_eq_some hname
    have hpath : path = .root := by
      refine Str.ext ?_
      rw [hbytes, hne]
      rfl
    rw [hpath, resolvePath_eq_from h.mounted]
    exact ⟨some 2, rfl⟩
  · rw [resolvePath_rootName h.mounted hname hne]
    exact ⟨_, h.findDirEntry_eq name⟩

theorem IsDirOn.mkdirPath_true_iff (h : IsDirOn fs g 2 disk)
    (hname : rootName path = some name) (now : UInt32) :
    (∃ disk₁, fs.mkdirPath disk path now = .ok (true, disk₁)) ↔ fs.CanMkdir g disk path := by
  obtain ⟨found, hfound⟩ := h.resolvePath_root hname
  unfold CanMkdir
  rw [hfound, Except.ok.injEq]
  rcases h.mkdirPath_eq hfound now with ⟨hrun, hnone⟩ |
    ⟨_, i, ok, disk', habsent, _, hfirst, hrun, hiff, _⟩
  · rw [hrun]
    constructor
    · rintro ⟨disk₁, htrue⟩
      cases htrue
    · rintro ⟨habsent, ⟨i, hfirst⟩, _⟩
      exact absurd hfirst (hnone name i habsent hname)
  rw [hrun, ← hiff]
  constructor
  · rintro ⟨disk₁, htrue⟩
    cases htrue
    exact ⟨habsent, ⟨i, hfirst⟩, rfl⟩
  · rintro ⟨_, _, htrue⟩
    exact ⟨disk', by rw [htrue]⟩

/-- `rmdir_path` undoes `mkdir_path` exactly where there is nothing to undo. -/
theorem rmdir_undoes_iff (h : IsDirOn fs g 2 disk) {path name : Str}
    (hname : rootName path = some name) (now : UInt32) :
    fs.UndoesMkdir g disk path now ↔ ¬ fs.CanMkdir g disk path := by
  rw [← h.mkdirPath_true_iff hname now]
  constructor
  · rintro hundoes ⟨disk₁, hmkdir⟩
    obtain ⟨depth, disk₂, hrmdir, _⟩ := hundoes disk₁ hmkdir
    cases rmdirPath_false hrmdir
  · intro hnot disk₁ hmkdir
    exact absurd ⟨disk₁, hmkdir⟩ hnot

/-! ## The small volume -/

/-- `"/a"`. -/
def pathA : Str := ⟨[47, 97], by decide⟩

theorem rootDisk_firstClear : FirstClear (smallFs.view smallGeometry rootDisk).inodeMap 12
      smallFs.superblock.sInodesPerGroup.toNat 12 := by
  refine ⟨Nat.le_refl 12, by decide, ?_, fun j hlo hhi => absurd hlo (by omega)⟩
  decide +kernel

/-- The small volume has what a file of up to 54 blocks needs. -/
theorem rootDisk_enough {size : Nat} (hsize : size ≤ 54 * 2048) :
    Enough smallFs smallGeometry (smallFs.view smallGeometry rootDisk) 2 12
      size := by
  obtain ⟨b, h⟩ := rootDisk_spec
  have hfree := h.free
  have hcount : smallFs.blockCount size ≤ 54 := (@blockCount_le_iff smallFs (by decide) _ _).2 hsize
  refine ⟨Nat.le_trans hcount (by decide), by decide, ?_, ?_⟩
  · rw [h.inode, h.blocks.1, length_singleton]
    decide
  · split <;> omega

theorem rootDisk_absent : smallFs.findDirEntry rootDisk 2 nameA = .ok none := by
  decide +kernel

/-- A file of up to 54 blocks is made in the small volume and removed again. -/
theorem rootDisk_roundTrip (hdata : data.length ≤ 54 * 2048) :
    ∃ disk₁ disk₂ n, smallFs.createFilePath rootDisk pathA data (fun _ => 0) 0
        = .ok (true, disk₁) ∧
      smallFs.removeFilePath disk₁ pathA = .ok (true, disk₂) ∧
      smallFs.resolvePath disk₁ pathA = .ok (some n) ∧
      (BlocksReleased smallFs smallGeometry disk₁ disk₂ n ↔ data.length ≤ 12 * 2048) ∧
      bit (smallFs.view smallGeometry rootDisk).inodeMap n = false ∧
      bit (smallFs.view smallGeometry disk₁).inodeMap n = true ∧
      bit (smallFs.view smallGeometry disk₂).inodeMap n = true := by
  have hname : rootName pathA = some nameA := by decide
  have hne : nameA ≠ .empty := by decide
  have habsent := rootDisk_absent
  have hlookup := habsent
  rw [rootDisk_isDirOn.findDirEntry_eq, Except.ok.injEq] at hlookup
  have hlen : data.length < 2 ^ 31 := by omega
  rcases rootDisk_isDirOn.volume.shows.createFilePath_eq rootDisk_isDirOn.dir hname hne habsent
      hlen (fun _ => 0) 0 with ⟨_, hshort⟩ | ⟨_, disk₁, _, hcreate, _⟩
  · exact absurd (rootDisk_enough hdata) (hshort 12 rootDisk_firstClear)
  obtain ⟨n, t, l, _, hn, hclear, h₁, hmade⟩ :=
    rootDisk_isDirOn.made hname hne habsent hlen hcreate
  rcases hmade.removeFilePath_eq h₁ hname hne hlookup hn with ⟨hstored, _⟩ |
    ⟨hresolve, disk₂, hremove, hmap, hbits⟩
  · exact absurd (storedName_eq (by decide)) hstored
  refine ⟨disk₁, disk₂, n, hcreate, hremove, hresolve, ?_, hclear, hmade.inode_bit h₁ hn.1 hmap⟩
  rw [hmade.blocksReleased_iff h₁ hbits]
  exact @blockCount_le_iff smallFs (by decide) _ _

/-- The block of a file of one byte is given back, and its inode is not. -/
theorem removal_never_releases_rootDisk :
    ∃ disk₁ disk₂ n, (smallVolume 2048).createFilePath rootDisk pathA [1] (fun _ => 0) 0
        = .ok (true, disk₁) ∧
      (smallVolume 2048).removeFilePath disk₁ pathA = .ok (true, disk₂) ∧
      ¬ Released (smallVolume 2048) smallGeometry rootDisk disk₁ disk₂ n ∧
      BlocksReleased (smallVolume 2048) smallGeometry disk₁ disk₂ n := by
  obtain ⟨disk₁, disk₂, _, hcreate, hremove, _⟩ := @rootDisk_roundTrip [1] (by decide)
  obtain ⟨n, _, hnever, hiff⟩ := removal_never_releases rootDisk_isDirOn
    (show rootName pathA = some nameA by decide) (by decide) rootDisk_absent (by decide) hcreate
    hremove
  exact ⟨disk₁, disk₂, n, hcreate, hremove, hnever, hiff.2 (by decide)⟩

/-- A file of 13 blocks is made and removed: its table is not given back, and
the bit that was set for its inode stays set. -/
theorem rootDisk_keeps_table : ∃ disk₁ disk₂ n, (smallVolume 2048).createFilePath rootDisk pathA
          (List.replicate 24577 0) (fun _ => 0) 0 = .ok (true, disk₁) ∧
      (smallVolume 2048).removeFilePath disk₁ pathA = .ok (true, disk₂) ∧
      (smallVolume 2048).resolvePath disk₁ pathA = .ok (some n) ∧
      ¬ BlocksReleased (smallVolume 2048) smallGeometry disk₁ disk₂ n ∧
      ¬ Released (smallVolume 2048) smallGeometry rootDisk disk₁ disk₂ n ∧
      bit ((smallVolume 2048).view smallGeometry rootDisk).inodeMap n = false ∧
      bit ((smallVolume 2048).view smallGeometry disk₂).inodeMap n = true := by
  obtain ⟨disk₁, disk₂, n, hcreate, hremove, hresolve, hiff, hclear, hset, hkept⟩ :=
    @rootDisk_roundTrip (List.replicate 24577 0) (by rw [length_replicate]; decide)
  have hblocks : ¬ BlocksReleased smallFs smallGeometry disk₁ disk₂ n := by
    rw [hiff, length_replicate]
    decide
  exact ⟨disk₁, disk₂, n, hcreate, hremove, hresolve, hblocks,
    fun hreleased => hblocks hreleased.blocks, hclear, hkept⟩

/-- The root directory holds no other directory. -/
def FlatRoot (fs : Ext2) (v : Vol) : Prop :=
  ∀ c n, (c, n) ∈ fs.dirNames v 2 → (n = 2 ∧ (c = .dot ∨ c = .dotdot)) ∨
    (fs.ValidInode n ∧ (v.inode n).isDir = false)

/-- A walk ends in the root or in a file of the root. -/
theorem FlatRoot.ends (h : fs.FlatRoot v) {path : List Str}
    (hn : Tree.walk (fs.look v) 2 path = some n) :
    n = 2 ∨ (fs.ValidInode n ∧ (v.inode n).isDir = false) := by
  induction path using List.reverseRecOn generalizing n with
  | nil =>
    cases hn
    exact .inl rfl
  | append_singleton path c ih =>
    obtain ⟨m, hm, hdir, hmem⟩ := exists_of_walk_concat hn
    rcases ih hm with rfl | ⟨_, hfile⟩
    · exact (h c n hmem).imp_left And.left
    · rw [hfile] at hdir
      cases hdir

theorem FlatRoot.wellFormed (h : fs.FlatRoot (fs.view g disk)) (hd : IsDirOn fs g 2 disk) :
    WellFormed fs g disk := by
  refine ⟨hd.volume, hd.dir.isDir, fun path n hn => ?_⟩
  rcases h.ends hn with rfl | ⟨hvalid, hfile⟩
  · exact ⟨hd.dir.valid, fun _ => hd.dir⟩
  · refine ⟨hvalid, fun hdir => ?_⟩
    rw [hfile] at hdir
    cases hdir

/-- The root directory of the small volume holds only itself. -/
theorem rootDisk_wellFormed : WellFormed smallFs smallGeometry rootDisk := by
  have hnames : smallFs.dirNames (smallFs.view smallGeometry rootDisk) 2
      = [(.dot, 2), (.dotdot, 2)] := congrArg DirState.names rootDisk_dirState
  refine FlatRoot.wellFormed (fun c n hmem => .inl ?_) rootDisk_isDirOn
  rw [hnames] at hmem
  simp only [mem_cons, Prod.mk.injEq, not_mem_nil, or_false] at hmem
  rcases hmem with ⟨hc, hn⟩ | ⟨hc, hn⟩
  · exact ⟨hn, .inl hc⟩
  · exact ⟨hn, .inr hc⟩

theorem creation_keeps_rootDisk : ((smallVolume 2048).KeepsOnFailure smallGeometry rootDisk
        ((smallVolume 2048).createNewFile rootDisk pathA [1] (fun _ => 0) 0)
      ↔ (smallVolume 2048).CreateCondition smallGeometry rootDisk pathA 1) ∧
    ((smallVolume 2048).KeepsOnFailure smallGeometry rootDisk
        ((smallVolume 2048).mkdirPath rootDisk pathA 0)
      ↔ (smallVolume 2048).MkdirCondition smallGeometry rootDisk pathA) :=
  creation_keeps_iff rootDisk_wellFormed pathA (show [(1 : UInt8)].length < 2 ^ 31 by decide)
    (fun _ => 0) 0

/-- A file that is too large is refused after its inode was taken. -/
theorem rootDisk_loses_inode : WellFormed (smallVolume 2048) smallGeometry rootDisk ∧
      ¬ (smallVolume 2048).KeepsOnFailure smallGeometry rootDisk
        ((smallVolume 2048).createNewFile rootDisk pathA (List.replicate 1073153 0)
          (fun _ => 0) 0) := by
  refine ⟨rootDisk_wellFormed, fun hkeeps => ?_⟩
  have hlen : (List.replicate 1073153 (0 : UInt8)).length < 2 ^ 31 := by
    rw [length_replicate]
    decide
  have hcond := (rootDisk_wellFormed.createNewFile_keeps_iff pathA hlen _ _).1 hkeeps
  rw [length_replicate] at hcond
  have hroot : (smallVolume 2048).resolvePath rootDisk .root = .ok (some 2) := by
    rw [rootDisk_wellFormed.resolvePath_eq, Str.components_root, Tree.walk_nil]
  have hfits := (hcond .root nameA 2 12 (by decide) hroot rootDisk_wellFormed.root
    rootDisk_firstClear).fits
  have hle := (@blockCount_le_iff (smallVolume 2048) (by decide) _ _).1 hfits
  exact absurd hle (by decide)

/-- Inodes can be taken until none is left. -/
theorem exists_full (h : IsDirOn smallFs smallGeometry 2 disk) :
    ∃ disk', IsDirOn smallFs smallGeometry 2 disk' ∧
      smallFs.allocInode disk' = .ok (none, disk') := by
  induction hc : clearCount (smallFs.view smallGeometry disk).inodeMap 12 16
    using Nat.strong_induction_on generalizing disk with
  | _ c ih =>
    rcases h.volume.shows.allocInode_eq with ⟨hnone, -⟩ | ⟨i, disk₁, hfirst, -, h₁⟩
    · exact ⟨disk, h, hnone⟩
    have hcount := clearCount_setBit 12 16 hfirst.lower hfirst.upper hfirst.isClear
    have hdir₁ : IsDirOn smallFs smallGeometry 2 disk₁ := by
      refine ⟨h₁.toVolume, ?_⟩
      rw [h₁.view]
      exact h.dir.takeInode i
    refine ih _ ?_ hdir₁ rfl
    rw [h₁.view, Vol.takeInode]
    dsimp only
    omega

/-- Where no inode is free `/a` cannot be made, and there is nothing to undo. -/
theorem rmdir_undoes_fullDisk : ∃ disk, (smallVolume 2048).allocInode disk = .ok (none, disk) ∧
    (smallVolume 2048).UndoesMkdir smallGeometry disk pathA 0 := by
  obtain ⟨disk, hdir, hfull⟩ := exists_full rootDisk_isDirOn
  refine ⟨disk, hfull, (rmdir_undoes_iff hdir (show rootName pathA = some nameA by decide) 0).2 ?_⟩
  rintro ⟨-, ⟨i, hfirst⟩, -⟩
  rcases hdir.volume.shows.allocInode_eq with ⟨-, hall⟩ | ⟨i, disk₁, -, hsome, -⟩
  · exact hfirst.not_all hall
  · rw [hfull] at hsome
    cases hsome

/-- The directory `/a` is made and cannot be removed again. -/
theorem rootDisk_keeps_dir : IsDirOn (smallVolume 2048) smallGeometry 2 rootDisk ∧
      ¬ (smallVolume 2048).UndoesMkdir smallGeometry rootDisk pathA 0 := by
  refine ⟨rootDisk_isDirOn, fun hundoes => ?_⟩
  have hmade : ((smallFs.mkdirPath rootDisk pathA 0).map Prod.fst).toOption = some true := by
    decide +kernel
  obtain ⟨⟨_, disk₁⟩, hmkdir, rfl⟩ := of_toOption hmade
  obtain ⟨depth, disk₂, hrmdir, _⟩ := hundoes disk₁ hmkdir
  cases rmdirPath_false hrmdir

end Ext2

end Felix
