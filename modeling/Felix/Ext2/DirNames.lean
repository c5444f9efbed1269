import Felix.Ext2.DirBlock
import Felix.Ext2.Volume

/-!
# The names of a directory

A directory is a list of names with inode numbers, `dirNames`: the names of its
blocks, one after the other.  `IsDir` says that an inode is a well-formed
directory of the volume, and then

* `find_dir_entry` is a lookup in the list,
* `remove_dir_entry` gives the first entry of the name the number zero,
* `update_dotdot` gives the first entry of the name `..` another number,
* `add_dir_entry` puts the new entry at the end, into a fresh block.

The last one has no other way: a well-formed block has no place for another
record, so a directory with twelve blocks is full.
-/

namespace Felix

open Bytes Res Names List

namespace Ext2

/-! ## The blocks of a directory -/

/-- The blocks up to the first pointer that is zero. -/
def leading (ptrs : List UInt32) : List Nat := (ptrs.takeWhile (· ≠ 0)).map UInt32.toNat

/-- The blocks of a directory. -/
def dirBlocks (inode : Ext2Inode) : List Nat := leading inode.directPtrs

theorem leading_cons {p : UInt32} (hp : p ≠ 0) (ptrs : List UInt32) :
    leading (p :: ptrs) = p.toNat :: leading ptrs := by
  unfold leading
  rw [takeWhile_cons_of_pos (by simp [hp]), map_cons]

variable {inode : Ext2Inode} {i : Nat}

theorem dirBlocks_eq {m : Nat} (hm : m ≤ 12)
    (hused : ∀ i, i < m → inode.ptr i ≠ 0) (hend : m < 12 → inode.ptr m = 0) :
    dirBlocks inode = (List.range m).map fun i => (inode.ptr i).toNat := by
  have hsplit : inode.directPtrs = (List.range m).map inode.ptr ++
      (List.range (12 - m)).map fun i => inode.ptr (m + i) := by
    unfold Ext2Inode.directPtrs
    rw [show 12 = m + (12 - m) by omega, range_add, map_append, map_map, Nat.add_sub_cancel_left]
    rfl
  unfold dirBlocks leading
  rw [hsplit, takeWhile_append_of_pos fun p hp => ?_]
  · have hrest : ((List.range (12 - m)).map fun i => inode.ptr (m + i)).takeWhile (· ≠ 0)
        = [] := by
      cases hk : 12 - m with
      | zero => rfl
      | succ k =>
        rw [range_succ_eq_map, map_cons]
        rw [Nat.add_zero, hend (by omega)]
        simp
    rw [hrest, append_nil, map_map]
    rfl
  · obtain ⟨i, hi, rfl⟩ := mem_map.1 hp
    simpa using hused i (mem_range.1 hi)

theorem exists_used (f : Nat → UInt32) (n : Nat) :
    ∃ m, m ≤ n ∧ (∀ i, i < m → f i ≠ 0) ∧ (m < n → f m = 0) := by
  have hend : ∃ m, m = n ∨ f m = 0 := ⟨n, .inl rfl⟩
  refine ⟨Nat.find hend, Nat.find_min' hend (.inl rfl), fun i hi hz => ?_, fun hlt => ?_⟩
  · exact Nat.find_min hend hi (.inr hz)
  · exact (Nat.find_spec hend).resolve_left (Nat.ne_of_lt hlt)

/-- The pointers of a directory with `used` blocks. -/
theorem dirBlocks_spec (inode : Ext2Inode) : (dirBlocks inode).length ≤ 12 ∧
      (∀ i, i < (dirBlocks inode).length → inode.ptr i ≠ 0) ∧
      ((dirBlocks inode).length < 12 → inode.ptr (dirBlocks inode).length = 0) ∧
      dirBlocks inode
        = (List.range (dirBlocks inode).length).map fun i => (inode.ptr i).toNat := by
  obtain ⟨m, hm, hused, hend⟩ := exists_used inode.ptr 12
  have heq := dirBlocks_eq hm hused hend
  have hlen : (dirBlocks inode).length = m := by rw [heq, length_map, length_range]
  rw [hlen]
  exact ⟨hm, hused, hend, heq⟩

theorem ptr_mem_dirBlocks (hi : i < (dirBlocks inode).length) :
    (inode.ptr i).toNat ∈ dirBlocks inode := by
  rw [(dirBlocks_spec inode).2.2.2]
  exact mem_map.2 ⟨i, mem_range.2 hi, rfl⟩

section

variable (fs : Ext2) (g : Geometry) (v : Vol) (d : Nat)

/-- The inode of a directory of the volume, with no assumption on what its
blocks hold: its direct blocks are in use and come without a gap, and there is
room in its counters for those that it does not have yet. -/
structure DirShape : Prop where
  valid : fs.ValidInode d
  isDir : (v.inode d).isDir = true
  tail : ∀ i, (dirBlocks (v.inode d)).length ≤ i → i < 12 → (v.inode d).ptr i = 0
  data : ∀ b ∈ dirBlocks (v.inode d), fs.DataBlock g b ∧ fs.Marked v g b
  nodup : (dirBlocks (v.inode d)).Nodup
  size : (v.inode d).iSize.toNat
    + (12 - (dirBlocks (v.inode d)).length) * fs.blockSize < 2 ^ 32
  sectors : (v.inode d).iBlocks.toNat
    + (12 - (dirBlocks (v.inode d)).length) * (fs.blockSize / 512) < 2 ^ 32

/-- A well-formed directory. -/
structure IsDir : Prop extends fs.DirShape g v d where
  blocks : ∀ b ∈ dirBlocks (v.inode d), DirBlock fs.blockSize (v.block b)

/-- The names in a list of blocks. -/
def namesIn (l : List Nat) : List (Str × Nat) :=
  l.flatMap fun b => blockNames fs.blockSize (v.block b)

/-- The names of a directory, with their inode numbers. -/
def dirNames : List (Str × Nat) := fs.namesIn v (dirBlocks (v.inode d))

end

variable {fs : Ext2} {g : Geometry} {disk : Disk} {v v' : Vol} {d b inodeNum : Nat} {name : Str}
  {ptrs : List UInt32} {f : Bytes}

theorem namesIn_congr {l : List Nat} (h : ∀ b ∈ l, v'.block b = v.block b) :
    fs.namesIn v' l = fs.namesIn v l := by
  unfold namesIn
  rw [flatMap_congr fun b hb => by rw [h b hb]]

/-- A block that holds the first entry of a name is rewritten. -/
theorem namesIn_assign {l pre post : List Nat} {x : Nat}
    (hnodup : l.Nodup) (hl : l = pre ++ b :: post) (hpre : name ∉ (fs.namesIn v pre).map Prod.fst)
    (hin : name ∈ (blockNames fs.blockSize (v.block b)).map Prod.fst)
    (hf : blockNames fs.blockSize f
      = assign name x (blockNames fs.blockSize (v.block b))) :
    fs.namesIn (v.setBlock b f) l = assign name x (fs.namesIn v l) := by
  rw [hl] at hnodup
  have hne : b ∉ pre ∧ b ∉ post := by
    rw [nodup_append, nodup_cons] at hnodup
    exact ⟨fun hmem => hnodup.2.2 b hmem b mem_cons_self rfl, hnodup.2.1.1⟩
  have hother : ∀ m : List Nat, b ∉ m → fs.namesIn (v.setBlock b f) m = fs.namesIn v m := by
    intro m hm
    refine namesIn_congr fun c hc => Vol.setBlock_block_ne _ _ _ ?_
    intro heq
    rw [heq] at hc
    exact hm hc
  have hcat : ∀ w : Vol, fs.namesIn w (pre ++ b :: post) = fs.namesIn w pre ++
      (blockNames fs.blockSize (w.block b) ++ fs.namesIn w post) := by
    intro w
    unfold namesIn
    rw [flatMap_append, flatMap_cons]
  rw [hl, hcat, hcat, hother pre hne.1, hother post hne.2, Vol.setBlock_block_self, hf,
    assign_append_right hpre, assign_append_left hin]

theorem IsDir.setBlock (h : fs.IsDir g v d)
    (hf : DirBlock fs.blockSize f) : fs.IsDir g (v.setBlock b f) d := by
  refine ⟨⟨h.valid, h.isDir, h.tail, h.data, h.nodup, h.size, h.sectors⟩, fun c hc => ?_⟩
  by_cases heq : c = b
  · rw [heq, Vol.setBlock_block_self]
    exact hf
  · rw [Vol.setBlock_block_ne _ _ _ heq]
    exact h.blocks c hc

/-- Two inodes that differ in their times and links only. -/
structure SameShape (inode inode' : Ext2Inode) : Prop where
  mode : inode'.iMode = inode.iMode
  blocks : inode'.iBlock = inode.iBlock
  size : inode'.iSize = inode.iSize
  sectors : inode'.iBlocks = inode.iBlocks

namespace SameShape

variable {inode' : Ext2Inode}

theorem of_eq (h : inode' = inode) : SameShape inode inode' := by
  rw [h]
  exact ⟨rfl, rfl, rfl, rfl⟩

theorem isDir (h : SameShape inode inode') : inode'.isDir = inode.isDir := by
  unfold Ext2Inode.isDir
  rw [h.mode]

theorem ptr (h : SameShape inode inode') (k : Nat) : inode'.ptr k = inode.ptr k := by
  unfold Ext2Inode.ptr
  rw [h.blocks]

theorem dirBlocks (h : SameShape inode inode') : dirBlocks inode' = dirBlocks inode := by
  unfold Ext2.dirBlocks Ext2Inode.directPtrs
  rw [List.map_congr_left fun k _ => h.ptr k]

end SameShape

/-- A directory stays as it is when its inode and its blocks do and no block
is freed. -/
theorem IsDir.frame (h : fs.IsDir g v d) (hshape : SameShape (v.inode d) (v'.inode d))
    (hmarked : ∀ b, fs.Marked v g b → fs.Marked v' g b)
    (hblock : ∀ b ∈ dirBlocks (v.inode d), v'.block b = v.block b) :
    fs.IsDir g v' d ∧ fs.dirNames v' d = fs.dirNames v d := by
  refine ⟨⟨⟨h.valid, ?_, ?_, ?_, ?_, ?_, ?_⟩, ?_⟩, ?_⟩
  all_goals try rw [hshape.dirBlocks]
  · exact hshape.isDir.trans h.isDir
  · intro i hi hi'
    rw [hshape.ptr]
    exact h.tail i hi hi'
  · exact fun b hb => ⟨(h.data b hb).1, hmarked b (h.data b hb).2⟩
  · exact h.nodup
  · rw [hshape.size]
    exact h.size
  · rw [hshape.sectors]
    exact h.sectors
  · intro b hb
    rw [hblock b hb]
    exact h.blocks b hb
  unfold dirNames
  rw [hshape.dirBlocks]
  exact namesIn_congr hblock

/-! ## Looking up a name -/

theorem findBlocks_eq (h : fs.Shows g disk v) (name : Str) (hb : ∀ b ∈ leading ptrs,
      fs.DataBlock g b ∧ DirBlock fs.blockSize (v.block b)) :
    fs.findBlocks disk name ptrs
      = .ok (lookup (fs.namesIn v (leading ptrs)) name) := by
  have hgood := h.sound.mountable.size
  induction ptrs with
  | nil => rfl
  | cons p ptrs ih =>
    rw [findBlocks]
    by_cases hp : p = 0
    · rw [hp]
      rfl
    rw [leading_cons hp] at hb ⊢
    obtain ⟨⟨hdata, hblock⟩, hrest⟩ := forall_mem_cons.1 hb
    rw [if_neg hp, h.readBlock_eq hdata hgood.bounds.2, ok_bind, hblock.scan_find hgood, namesIn,
      flatMap_cons, Names.lookup_append]
    cases lookup (blockNames fs.blockSize (v.block p.toNat)) name with
    | none => exact ih hrest
    | some n => rfl

namespace IsDir

variable (h : fs.Shows g disk v) (hd : fs.IsDir g v d)
include h hd

theorem findDirEntry_eq (name : Str) :
    fs.findDirEntry disk d name = .ok (lookup (fs.dirNames v d) name) := by
  unfold findDirEntry
  rw [h.readInode_eq hd.valid, ok_bind, if_neg (by simp [hd.isDir]),
    findBlocks_eq h name fun b hb => ⟨(hd.data b hb).1, hd.blocks b hb⟩]
  rfl

end IsDir

/-- A record holds at most 255 bytes of a name, so a longer one is found in no
directory, whatever its blocks hold. -/
theorem findDirEntry_long (hlong : 255 < name.bytes.length) {found : Option Nat}
    (h : fs.findDirEntry disk d name = .ok found) : found = none := by
  have hround : ∀ (f : Buf) (s : Option Nat) off (e : Ext2DirEntry) step, s = none →
      fs.findBody f name s off e = .ok step → step = .stop none ∨ step = .next none := by
    rintro f _ off e step rfl hbody
    unfold findBody at hbody
    split at hbody
    · cases hbody
      exact .inl rfl
    simp only [] at hbody
    split at hbody
    · cases hbody
      exact .inl rfl
    split at hbody
    · obtain ⟨slice, hslice, hbody⟩ := bind_eq_ok.1 hbody
      have hlen : slice.length ≤ 255 := by
        have hbyte := e.nameLen.toNat_lt
        unfold Buf.slice at hslice
        split at hslice
        · cases hslice
          rw [length_toList]
          omega
        · cases hslice
      split at hbody
      · rename_i heq
        have hne : name ≠ .empty := by
          intro hempty
          rw [hempty] at hlong
          cases hlong
        rw [(Str.fromUtf8_getD_eq hne).1 heq] at hlen
        omega
      · cases hbody
        exact .inr rfl
    · cases hbody
      exact .inr rfl
  have hscan : ∀ (f : Buf) r, fs.scan f (fs.findBody f name) none = .ok r → r = none := by
    intro f r hr
    refine Buf.walk_keeps (· = none) (fun s off e s' hs hbody => ?_)
      (fun s off e s' hs hbody => ?_) rfl hr
    · rcases hround f s off e _ hs hbody with hstep | hstep
      · cases hstep
        rfl
      · cases hstep
    rcases hround f s off e _ hs hbody with hstep | hstep
    · cases hstep
    · cases hstep
      rfl
  have hblocks : ∀ ptrs r, fs.findBlocks disk name ptrs = .ok r → r = none := by
    intro ptrs
    induction ptrs with
    | nil =>
      intro r hr
      cases hr
      rfl
    | cons p ptrs ih =>
      intro r hr
      rw [findBlocks] at hr
      split at hr
      · cases hr
        rfl
      obtain ⟨buf, _, hr⟩ := bind_eq_ok.1 hr
      obtain ⟨s, hs, hr⟩ := bind_eq_ok.1 hr
      rw [hscan buf s hs] at hr
      exact ih r hr
  obtain ⟨inode, _, h⟩ := bind_eq_ok.1 h
  split at h
  · cases h
    rfl
  · exact hblocks _ found h

/-! ## Removing a name -/

theorem relabel_eq (h : fs.Shows g disk v) (hdata : fs.DataBlock g b)
    {r : Nat × Ext2DirEntry} (hr : r.1 + 8 ≤ fs.blockSize) (x : UInt32) :
    ∃ disk', (do
        let buf ← Buf.store ⟨4096, v.block b⟩ r.1 (relabel r.2 x)
        let disk ← fs.writeBlocks disk b buf.byte 1
        .ok (true, disk)) = .ok (true, disk') ∧
      fs.Shows g disk' (v.setBlock b
        (replaceHeader fs.blockSize r.1 (relabel r.2 x) (v.block b))) := by
  have hb := h.sound.mountable.size.bounds
  obtain ⟨disk', hwrite, h'⟩ := h.writeBlock_eq hdata
    (splice r.1 8 (Packed.encode (relabel r.2 x)) (v.block b))
  refine ⟨disk', ?_, h'⟩
  rw [Buf.store_ok (by rw [Ext2DirEntry.size_eq]; simp only []; omega)]
  show (fs.writeBlocks disk b (splice r.1 8 (Packed.encode (relabel r.2 x))
    (v.block b)) 1 >>= _) = _
  rw [hwrite, ok_bind]

/-- The loop of `remove_dir_entry`: no block has the name, or the first one
that has it is rewritten. -/
theorem removeBlocks_eq (h : fs.Shows g disk v) (name : Str) (hb : ∀ b ∈ leading ptrs,
      fs.DataBlock g b ∧ DirBlock fs.blockSize (v.block b)) :
    (name ∉ (fs.namesIn v (leading ptrs)).map Prod.fst ∧
      fs.removeBlocks disk name ptrs = .ok (false, disk)) ∨
    ∃ pre b post f disk', leading ptrs = pre ++ b :: post ∧
      name ∉ (fs.namesIn v pre).map Prod.fst ∧
      name ∈ (blockNames fs.blockSize (v.block b)).map Prod.fst ∧
      DirBlock fs.blockSize f ∧
      blockNames fs.blockSize f
        = assign name 0 (blockNames fs.blockSize (v.block b)) ∧
      fs.removeBlocks disk name ptrs = .ok (true, disk') ∧ fs.Shows g disk' (v.setBlock b f) := by
  have hgood := h.sound.mountable.size
  induction ptrs with
  | nil => exact .inl ⟨not_mem_nil, rfl⟩
  | cons p ptrs ih =>
    rw [removeBlocks]
    by_cases hp : p = 0
    · rw [hp]
      exact .inl ⟨not_mem_nil, rfl⟩
    rw [leading_cons hp] at hb ⊢
    obtain ⟨⟨hdata, hblock⟩, hrest⟩ := forall_mem_cons.1 hb
    rw [if_neg hp, h.readBlock_eq hdata hgood.bounds.2, ok_bind, hblock.scan_remove hgood]
    cases hfind : (records fs.blockSize (v.block p.toNat)).find? fun r =>
        recName (v.block p.toNat) r = name with
    | none =>
      have habsent := blockNames_not_mem hfind
      rcases ih hrest with ⟨hnone, hrun⟩ |
        ⟨pre, b, post, f, disk', hl, hpre, hin, hf, hnames, hrun, h'⟩
      · refine .inl ⟨?_, hrun⟩
        rw [namesIn, flatMap_cons, map_append, mem_append]
        exact not_or.2 ⟨habsent, hnone⟩
      refine .inr ⟨p.toNat :: pre, b, post, f, disk', ?_, ?_, hin, hf, hnames, hrun, h'⟩
      · rw [hl, cons_append]
      · rw [namesIn, flatMap_cons, map_append, mem_append]
        exact not_or.2 ⟨habsent, hpre⟩
    | some r =>
      have hr := mem_of_find?_eq_some hfind
      obtain ⟨disk', hrun, h'⟩ := relabel_eq h hdata (hblock.header_le hr) 0
      exact .inr ⟨[], p.toNat, leading ptrs,
        replaceHeader fs.blockSize r.1 (relabel r.2 0) (v.block p.toNat), disk',
        rfl, not_mem_nil, blockNames_mem hfind, hblock.relabel hr 0,
        hblock.blockNames_assign 0 hfind, hrun, h'⟩

theorem IsDir.removeDirEntry_eq (h : fs.Shows g disk v) (hd : fs.IsDir g v d)
    (name : Str) :
    (name ∉ (fs.dirNames v d).map Prod.fst ∧
      fs.removeDirEntry disk d name = .ok (false, disk)) ∨
    name ∈ (fs.dirNames v d).map Prod.fst ∧
      ∃ disk' b f, fs.removeDirEntry disk d name = .ok (true, disk') ∧
        b ∈ dirBlocks (v.inode d) ∧ DirBlock fs.blockSize f ∧
        fs.Shows g disk' (v.setBlock b f) ∧
        fs.dirNames (v.setBlock b f) d = assign name 0 (fs.dirNames v d) := by
  have hrun : fs.removeDirEntry disk d name
      = fs.removeBlocks disk name (v.inode d).directPtrs := by
    unfold removeDirEntry
    rw [h.readInode_eq hd.valid, ok_bind, if_neg (by simp [hd.isDir])]
  rw [hrun]
  have hblocks : ∀ b ∈ leading (v.inode d).directPtrs,
      fs.DataBlock g b ∧ DirBlock fs.blockSize (v.block b) :=
    fun b hb => ⟨(hd.data b hb).1, hd.blocks b hb⟩
  rcases removeBlocks_eq h name hblocks with
    hnone | ⟨pre, b, post, f, disk', hl, hpre, hin, hf, hnames, hrun, h'⟩
  · exact .inl hnone
  have hmem : b ∈ dirBlocks (v.inode d) := by
    unfold dirBlocks
    rw [hl]
    exact mem_append_right _ mem_cons_self
  refine .inr ⟨?_, disk', b, f, hrun, hmem, hf, h',
    namesIn_assign hd.nodup hl hpre hin hnames⟩
  obtain ⟨e, he, hname⟩ := mem_map.1 hin
  exact mem_map.2 ⟨e, mem_flatMap.2 ⟨b, hmem, he⟩, hname⟩

/-! ## The parent entry -/

/-- `update_dotdot` of a directory whose first block names its parent. -/
theorem IsDir.updateDotdot_eq (h : fs.Shows g disk v) (hd : fs.IsDir g v d)
    {rest : List Nat} (hfirst : dirBlocks (v.inode d) = b :: rest)
    (hdots : .dotdot ∈ (blockNames fs.blockSize (v.block b)).map Prod.fst)
    (parent : Nat) :
    ∃ disk' f, fs.updateDotdot disk d parent = .ok (true, disk') ∧
      DirBlock fs.blockSize f ∧ fs.Shows g disk' (v.setBlock b f) ∧
      fs.dirNames (v.setBlock b f) d
        = assign .dotdot (UInt32.ofNat parent).toNat (fs.dirNames v d) := by
  have hgood := h.sound.mountable.size
  have hmem : b ∈ dirBlocks (v.inode d) := by
    rw [hfirst]
    exact mem_cons_self
  have hdata := (hd.data b hmem).1
  have hblock := hd.blocks b hmem
  obtain ⟨hused, heq⟩ : (v.inode d).ptr 0 ≠ 0 ∧
      ((v.inode d).ptr 0).toNat = b := by
    obtain ⟨_, hused, _, hlist⟩ := dirBlocks_spec (v.inode d)
    rw [hfirst] at hused hlist
    refine ⟨hused 0 (by simp), ?_⟩
    rw [length_cons, range_succ_eq_map] at hlist
    exact (List.cons.inj hlist).1.symm
  cases hfind : (records fs.blockSize (v.block b)).find? fun r =>
      recName (v.block b) r = .dotdot with
  | none => exact absurd hdots (blockNames_not_mem hfind)
  | some r =>
    have hr := mem_of_find?_eq_some hfind
    obtain ⟨disk', hrun, h'⟩ := relabel_eq h hdata (hblock.header_le hr) (UInt32.ofNat parent)
    refine ⟨disk', _, ?_, hblock.relabel hr (UInt32.ofNat parent), h',
      namesIn_assign hd.nodup (hfirst.trans (nil_append _).symm) not_mem_nil hdots
        (hblock.blockNames_assign (UInt32.ofNat parent) hfind)⟩
    unfold updateDotdot
    rw [h.readInode_eq hd.valid, ok_bind]
    rw [if_neg hused, heq, h.readBlock_eq hdata hgood.bounds.2, ok_bind,
      hblock.scan_dotdot hgood, hfind]
    exact hrun

/-! ## Adding a name -/

/-- The inode of a directory after it got block `b`. -/
def grownDir (fs : Ext2) (inode : Ext2Inode) (b : Nat) : Ext2Inode :=
  { inode.setPtr (dirBlocks inode).length (UInt32.ofNat b) with
    iSize := UInt32.ofNat (inode.iSize.toNat + fs.blockSize)
    iBlocks := UInt32.ofNat (inode.iBlocks.toNat + fs.blockSize / 512) }

/-- The volume after the directory got block `b` with one record. -/
def withName (fs : Ext2) (v : Vol) (d b : Nat) (name : Str) (inodeNum : Nat)
    (fileType : UInt8) : Vol :=
  ((v.takeBlock b).setInode d (fs.grownDir (v.inode d) b)).setBlock b
    (cut fs.blockSize (entryBlock fs.blockSize name inodeNum fileType))

section Grown

variable {inode : Ext2Inode} {b : Nat} (hlt : (dirBlocks inode).length < 12)
include hlt

theorem ptr_grownDir (i : Nat) : (fs.grownDir inode b).ptr i
      = if i = (dirBlocks inode).length then UInt32.ofNat b else inode.ptr i := by
  show (inode.setPtr (dirBlocks inode).length (UInt32.ofNat b)).ptr i = _
  by_cases hi : i = (dirBlocks inode).length
  · rw [if_pos hi, hi, Ext2Inode.ptr_setPtr_self (by omega)]
  · rw [if_neg hi, Ext2Inode.ptr_setPtr_ne (Ne.symm hi)]

/-- The new block comes behind those that the directory had. -/
theorem dirBlocks_grownDir (hb : (UInt32.ofNat b).toNat = b) (hpos : UInt32.ofNat b ≠ 0)
    (htail : ∀ i, (dirBlocks inode).length ≤ i → i < 12 → inode.ptr i = 0) :
    dirBlocks (fs.grownDir inode b) = dirBlocks inode ++ [b] := by
  obtain ⟨_, hused, _, hlist⟩ := dirBlocks_spec inode
  rw [dirBlocks_eq (m := (dirBlocks inode).length + 1) (by omega) (fun i hi => ?_)
    fun hend => ?_]
  · rw [range_succ, map_append, map_singleton, ptr_grownDir hlt, if_pos rfl, hb]
    congr 1
    refine Eq.trans (map_congr_left fun i hi => ?_) hlist.symm
    rw [ptr_grownDir hlt, if_neg (Nat.ne_of_lt (mem_range.1 hi))]
  · rw [ptr_grownDir hlt]
    split
    · exact hpos
    · exact hused i (by omega)
  · rw [ptr_grownDir hlt, if_neg (by omega)]
    exact htail _ (by omega) hend

end Grown

/-- A directory that got a fresh block with one record has one name more. -/
theorem IsDir.withName (hd : fs.IsDir g v d) (hgood : fs.GoodSize)
    (hlt : (dirBlocks (v.inode d)).length < 12) (hdata : fs.DataBlock g b)
    (hfresh : ¬ fs.Marked v g b) (name : Str) (hinode : inodeNum < 2 ^ 32)
    (fileType : UInt8) :
    fs.IsDir g (fs.withName v d b name inodeNum fileType) d ∧
      dirBlocks ((fs.withName v d b name inodeNum fileType).inode d)
        = dirBlocks (v.inode d) ++ [b] ∧
      fs.dirNames (fs.withName v d b name inodeNum fileType) d
        = fs.dirNames v d ++ [(storedName name, inodeNum)] := by
  have htoNat : (UInt32.ofNat b).toNat = b := by
    exact Nat.mod_eq_of_lt (hdata.present.lt hgood)
  have hpos : UInt32.ofNat b ≠ 0 := by
    intro heq
    have h1 := hdata.present.1
    rw [← htoNat, heq] at h1
    cases h1
  have hinode' : (fs.withName v d b name inodeNum fileType).inode d
      = fs.grownDir (v.inode d) b := Vol.setInode_inode_self _ _ _
  have hblocks : dirBlocks (fs.grownDir (v.inode d) b) = dirBlocks (v.inode d) ++ [b] :=
    dirBlocks_grownDir hlt htoNat hpos hd.tail
  have hne : ∀ c ∈ dirBlocks (v.inode d), c ≠ b := by
    intro c hc heq
    rw [heq] at hc
    exact hfresh (hd.data b hc).2
  have hold : ∀ c ∈ dirBlocks (v.inode d),
      (fs.withName v d b name inodeNum fileType).block c = v.block c := fun c hc =>
    Vol.setBlock_block_ne _ _ _ (hne c hc)
  have hnew : (fs.withName v d b name inodeNum fileType).block b
      = cut fs.blockSize (entryBlock fs.blockSize name inodeNum fileType) :=
    Vol.setBlock_block_self _ _ _
  have hsize := hd.size
  have hsectors := hd.sectors
  have hmul : ∀ k, (12 - (dirBlocks (v.inode d)).length) * k
      = (12 - ((dirBlocks (v.inode d)).length + 1)) * k + k := by
    intro k
    rw [← Nat.succ_mul]
    congr 1
    omega
  rw [hmul] at hsize hsectors
  have hlen : (dirBlocks (fs.grownDir (v.inode d) b)).length
      = (dirBlocks (v.inode d)).length + 1 := by
    rw [hblocks, length_append, length_singleton]
  refine ⟨⟨⟨hd.valid, ?_, ?_, ?_, ?_, ?_, ?_⟩, ?_⟩, ?_, ?_⟩
  · rw [hinode']
    exact hd.isDir
  · rw [hinode']
    intro i hi hi'
    rw [ptr_grownDir hlt, if_neg (by omega)]
    exact hd.tail i (by omega) hi'
  · rw [hinode', hblocks]
    intro c hc
    rcases mem_append.1 hc with hc | hc
    · exact ⟨(hd.data c hc).1, (hd.data c hc).2.of_ne⟩
    · rw [mem_singleton.1 hc]
      exact ⟨hdata, marked_takeBlock b⟩
  · rw [hinode', hblocks]
    refine nodup_append.2 ⟨hd.nodup, nodup_singleton b, fun c hc c' hc' => ?_⟩
    rw [mem_singleton.1 hc']
    exact hne c hc
  · rw [hinode', hlen]
    show (UInt32.ofNat ((v.inode d).iSize.toNat + fs.blockSize)).toNat + _ < _
    rw [UInt32.toNat_ofNat']
    omega
  · rw [hinode', hlen]
    show (UInt32.ofNat ((v.inode d).iBlocks.toNat + fs.blockSize / 512)).toNat + _ < _
    rw [UInt32.toNat_ofNat']
    omega
  · rw [hinode', hblocks]
    intro c hc
    rcases mem_append.1 hc with hc | hc
    · rw [hold c hc]
      exact hd.blocks c hc
    · rw [mem_singleton.1 hc, hnew]
      exact dirBlock_entryBlock hgood name inodeNum fileType
  · rw [hinode', hblocks]
  · unfold dirNames
    rw [hinode', hblocks, namesIn, flatMap_append, flatMap_singleton, hnew,
      blockNames_entryBlock hgood name inodeNum fileType hinode]
    congr 1
    exact namesIn_congr hold

/-- `add_dir_entry` gives the directory a zeroed block, if there is one. -/
theorem DirShape.growDir_eq (h : fs.Shows g disk v) (hd : fs.DirShape g v d)
    (hlt : (dirBlocks (v.inode d)).length < 12) :
    (fs.growDir disk d (dirBlocks (v.inode d)).length (v.inode d) = .ok (none, disk) ∧
      fs.freeBlocks v g = 0) ∨
    ∃ b disk', fs.growDir disk d (dirBlocks (v.inode d)).length (v.inode d)
        = .ok (some (fs.grownDir (v.inode d) b), disk') ∧
      fs.DataBlock g b ∧ ¬ fs.Marked v g b ∧
      fs.Shows g disk' (((v.takeBlock b).setInode d
        (fs.grownDir (v.inode d) b)).setBlock b fun _ => 0) ∧
      fs.freeBlocks (v.takeBlock b) g + 1 = fs.freeBlocks v g := by
  unfold growDir
  rcases h.allocBlock_fresh with ⟨hnone, hfull⟩ | ⟨b, disk₁, hsome, hdata, hfresh, h₁, hcount⟩
  · rw [hnone]
    exact .inl ⟨rfl, hfull⟩
  right
  have hsize := hd.size
  have hsectors := hd.sectors
  have hone : 1 ≤ 12 - (dirBlocks (v.inode d)).length := by omega
  have hmul := Nat.mul_le_mul_right fs.blockSize hone
  have hmul' := Nat.mul_le_mul_right (fs.blockSize / 512) hone
  obtain ⟨disk₂, hwrite, h₂⟩ := h₁.writeInode_eq hd.valid (fs.grownDir (v.inode d) b)
  obtain ⟨disk₃, hzero, h₃⟩ := h₂.writeBlock_eq hdata fun _ => 0
  rw [cut_zero] at h₃
  refine ⟨b, disk₃, ?_, hdata, hfresh, h₃, hcount⟩
  rw [hsome, ok_bind]
  simp only []
  rw [Ext2Inode.setPtr_iSize, addW_ok (by omega)]
  show (addW 32 (v.inode d).iBlocks.toNat _ >>= _) = _
  rw [addW_ok (by omega)]
  show (fs.writeInode disk₁ d (fs.grownDir (v.inode d) b) >>= _) = _
  rw [hwrite, ok_bind, hzero]
  rfl

/-- The rounds of `add_dir_entry` over the blocks that the directory has. -/
theorem IsDir.addBlocks_used (h : fs.Shows g disk v) (hd : fs.IsDir g v d)
    (name : Str) (inodeNum : Nat) (fileType : UInt8) (k : Nat)
    (hi : i + k = (dirBlocks (v.inode d)).length) :
    fs.addBlocks d name inodeNum fileType (12 - i) i (v.inode d) disk
      = fs.addBlocks d name inodeNum fileType (12 - (dirBlocks (v.inode d)).length)
          (dirBlocks (v.inode d)).length (v.inode d) disk := by
  obtain ⟨hle, hused, _, _⟩ := dirBlocks_spec (v.inode d)
  have hgood := h.sound.mountable.size
  induction k generalizing i with
  | zero => rw [← hi, Nat.add_zero]
  | succ k ih =>
    have hmem := @ptr_mem_dirBlocks (v.inode d) i (by omega)
    rw [show 12 - i = 12 - (i + 1) + 1 by omega, addBlocks, if_neg (hused i (by omega)), ok_bind]
    simp only []
    rw [h.readBlock_eq (hd.data _ hmem).1 hgood.bounds.2, ok_bind,
      placeEntry_full (hd.blocks _ hmem) hgood]
    exact ih (by omega)

/-- Behind the blocks that the directory has, `add_dir_entry` fails and changes nothing when
there are twelve of them or no block is free, and takes a fresh block otherwise. -/
theorem DirShape.addEntry_eq (h : fs.Shows g disk v) (hd : fs.DirShape g v d)
    {fileType : UInt8} {run : Res (Bool × Disk)}
    (hrun : run = fs.addBlocks d name inodeNum fileType (12 - (dirBlocks (v.inode d)).length)
      (dirBlocks (v.inode d)).length (v.inode d) disk) :
    (run = .ok (false, disk) ∧ ((dirBlocks (v.inode d)).length = 12 ∨ fs.freeBlocks v g = 0)) ∨
    ∃ b disk', run = .ok (true, disk') ∧ (dirBlocks (v.inode d)).length < 12 ∧
      fs.DataBlock g b ∧ ¬ fs.Marked v g b ∧
      fs.Shows g disk' (fs.withName v d b name inodeNum fileType) ∧
      fs.freeBlocks (v.takeBlock b) g + 1 = fs.freeBlocks v g := by
  have hgood := h.sound.mountable.size
  obtain ⟨hle, _, hend, _⟩ := dirBlocks_spec (v.inode d)
  rw [hrun]
  by_cases hfull : (dirBlocks (v.inode d)).length = 12
  · left
    rw [hfull]
    exact ⟨rfl, .inl rfl⟩
  have hlt : (dirBlocks (v.inode d)).length < 12 := by omega
  obtain ⟨rounds, hrounds⟩ : ∃ rounds, 12 - (dirBlocks (v.inode d)).length = rounds + 1 :=
    ⟨11 - (dirBlocks (v.inode d)).length, by omega⟩
  rw [hrounds, addBlocks, if_pos (hend hlt)]
  rcases DirShape.growDir_eq h hd hlt with ⟨hnone, hzero⟩ |
    ⟨b, disk₁, hgrow, hdata, hfresh, h₁, hcount⟩
  · left
    rw [hnone]
    exact ⟨rfl, .inr hzero⟩
  right
  obtain ⟨disk₂, hwrite, h₂⟩ := h₁.writeBlock_eq hdata
    (entryBlock fs.blockSize name inodeNum fileType)
  rw [Vol.setBlock_setBlock] at h₂
  have hblock : ((fs.grownDir (v.inode d) b).ptr (dirBlocks (v.inode d)).length).toNat = b := by
    rw [ptr_grownDir hlt, if_pos rfl]
    exact h.toNat_ofNat hdata
  refine ⟨b, disk₂, ?_, hlt, hdata, hfresh, h₂, hcount⟩
  rw [hgrow, ok_bind]
  simp only []
  rw [hblock, h₁.readBlock_eq hdata hgood.bounds.2, ok_bind, Vol.setBlock_block_self,
    placeEntry_fresh hgood, ok_bind]
  simp only []
  rw [hwrite, ok_bind]

theorem IsDir.addDirEntry_run (h : fs.Shows g disk v) (hd : fs.IsDir g v d)
    (name : Str) (inodeNum : Nat) (fileType : UInt8) :
    fs.addDirEntry disk d name inodeNum fileType = fs.addBlocks d name inodeNum fileType
      (12 - (dirBlocks (v.inode d)).length) (dirBlocks (v.inode d)).length (v.inode d) disk := by
  unfold addDirEntry
  rw [h.readInode_eq hd.valid, ok_bind, if_neg (by simp [hd.isDir])]
  exact IsDir.addBlocks_used h hd name inodeNum fileType _ (Nat.zero_add _)

end Ext2

end Felix
