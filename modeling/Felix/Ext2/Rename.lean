import Felix.Ext2.Resolve

/-!
# What a rename does to a volume

A `Forest` is a set of inodes whose directories are well formed and share no
block.  Each of the steps of `rename_path` keeps it and changes the names of at
most one directory, which is what `Renamed` says.  `moveEntry_eq` puts the
steps together: the part of `rename_path` that changes the disk fails without a
change when the new directory has no room, and otherwise returns `true`.

The last step writes back a copy of the inode that was read before the first.
The forest therefore survives it only when the entry that moves is none of the
two directories.
-/

namespace Felix

open Bytes Res

namespace Ext2

/-- A set of inodes whose directories are well formed and share no block. -/
structure Forest (fs : Ext2) (g : Geometry) (S : Nat → Prop) (v : Vol) : Prop where
  valid : ∀ n, S n → fs.ValidInode n
  dir : ∀ n, S n → (v.inode n).isDir = true → fs.IsDir g v n
  apart : ∀ n m, S n → S m → (v.inode n).isDir = true → (v.inode m).isDir = true → n ≠ m →
    ∀ b ∈ dirBlocks (v.inode n), b ∉ dirBlocks (v.inode m)

/-- The volume changed, but of the directories of the set only `d` has other
names, which are `l`. -/
structure Renamed (fs : Ext2) (S : Nat → Prop) (v v' : Vol) (d : Nat) (l : List (Str × Nat)) :
    Prop where
  isDir : ∀ n, S n → (v'.inode n).isDir = (v.inode n).isDir
  names : ∀ n, S n → (v.inode n).isDir = true →
    fs.dirNames v' n = if n = d then l else fs.dirNames v n

variable {fs : Ext2} {g : Geometry} {S : Nat → Prop} {disk : Disk} {v v' : Vol} {d : Nat}

namespace Forest

variable (h : Forest fs g S v) {b : Nat}
include h

theorem withName (hgood : fs.GoodSize) (hd : S d) (hdir : (v.inode d).isDir = true)
    (hlt : (dirBlocks (v.inode d)).length < 12) (hdata : fs.DataBlock g b)
    (hfresh : ¬ fs.Marked v g b) (name : Str) {x : Nat} (hx : x < 2 ^ 32) (fileType : UInt8) :
    Forest fs g S (fs.withName v d b name x fileType) ∧
      Renamed fs S v (fs.withName v d b name x fileType) d
        (fs.dirNames v d ++ [(storedName name, x)]) ∧
      (∀ n, n ≠ d → (fs.withName v d b name x fileType).inode n = v.inode n) ∧
      dirBlocks ((fs.withName v d b name x fileType).inode d) = dirBlocks (v.inode d) ++ [b] := by
  obtain ⟨hdir', hblocks', hnames'⟩ := (h.dir d hd hdir).withName hgood hlt hdata hfresh name hx
    fileType
  have hinode : ∀ n, n ≠ d → (fs.withName v d b name x fileType).inode n = v.inode n :=
    fun n hn => Vol.setInode_inode_ne _ _ _ hn
  have hisDir : ∀ n, ((fs.withName v d b name x fileType).inode n).isDir = (v.inode n).isDir := by
    intro n
    by_cases hn : n = d
    · rw [hn, hdir'.isDir, hdir]
    · rw [hinode n hn]
  have hnotin : ∀ n, S n → (v.inode n).isDir = true → b ∉ dirBlocks (v.inode n) :=
    fun n hn hndir hmem => hfresh ((h.dir n hn hndir).data b hmem).2
  -- the blocks of the other directories are those of the forest, and not the fresh one
  have hapart : ∀ n, S n → (v.inode n).isDir = true → n ≠ d →
      ∀ c ∈ dirBlocks (v.inode n), c ∉ dirBlocks (v.inode d) ++ [b] := by
    intro n hn hndir hne c hc hc'
    rcases List.mem_append.1 hc' with hc' | hc'
    · exact h.apart n d hn hd hndir hdir hne c hc hc'
    · rw [List.mem_singleton.1 hc'] at hc
      exact hnotin n hn hndir hc
  have hother : ∀ n, S n → (v.inode n).isDir = true → n ≠ d →
      fs.IsDir g (fs.withName v d b name x fileType) n ∧
        fs.dirNames (fs.withName v d b name x fileType) n = fs.dirNames v n := by
    intro n hn hndir hne
    refine (h.dir n hn hndir).frame (.of_eq (hinode n hne)) (fun c hc => hc.of_ne) fun c hc => ?_
    refine Vol.setBlock_block_ne _ _ _ fun heq => ?_
    rw [heq] at hc
    exact hnotin n hn hndir hc
  refine ⟨⟨h.valid, fun n hn hndir => ?_, fun n m hn hm hndir hmdir hne c hc hc' => ?_⟩,
    ⟨fun n _ => hisDir n, fun n hn hndir => ?_⟩, hinode, hblocks'⟩
  · by_cases heq : n = d
    · rw [heq]
      exact hdir'
    · rw [hisDir] at hndir
      exact (hother n hn hndir heq).1
  · rw [hisDir] at hndir hmdir
    by_cases hn' : n = d
    · have hm' : m ≠ d := fun heq => hne (hn'.trans heq.symm)
      rw [hn', hblocks'] at hc
      rw [hinode m hm'] at hc'
      exact hapart m hm hmdir hm' c hc' hc
    rw [hinode n hn'] at hc
    by_cases hm' : m = d
    · rw [hm', hblocks'] at hc'
      exact hapart n hn hndir hn' c hc hc'
    · rw [hinode m hm'] at hc'
      exact h.apart n m hn hm hndir hmdir hne c hc hc'
  · by_cases heq : n = d
    · rw [if_pos heq, heq, hnames']
    · rw [if_neg heq, (hother n hn hndir heq).2]

theorem setBlock (hd : S d) (hdir : (v.inode d).isDir = true)
    (hb : b ∈ dirBlocks (v.inode d)) {f : Bytes} (hf : DirBlock fs.blockSize f) :
    Forest fs g S (v.setBlock b f) ∧
      Renamed fs S v (v.setBlock b f) d (fs.dirNames (v.setBlock b f) d) := by
  refine ⟨⟨h.valid, fun n hn hndir => (h.dir n hn hndir).setBlock hf, h.apart⟩,
    ⟨fun _ _ => rfl, fun n hn hndir => ?_⟩⟩
  by_cases heq : n = d
  · rw [if_pos heq, heq]
  rw [if_neg heq]
  refine namesIn_congr fun c hc => Vol.setBlock_block_ne _ _ _ fun hcb => ?_
  rw [hcb] at hc
  exact h.apart d n hd hn hdir hndir (Ne.symm heq) b hb hc

theorem setInode {inode : Ext2Inode} (hshape : SameShape (v.inode d) inode) :
    Forest fs g S (v.setInode d inode) ∧
      ∀ n, ((v.setInode d inode).inode n).isDir = (v.inode n).isDir ∧
        fs.dirNames (v.setInode d inode) n = fs.dirNames v n := by
  have hsame : ∀ n, SameShape (v.inode n) ((v.setInode d inode).inode n) := by
    intro n
    by_cases hn : n = d
    · rw [hn, Vol.setInode_inode_self]
      exact hshape
    · rw [Vol.setInode_inode_ne _ _ _ hn]
      exact ⟨rfl, rfl, rfl, rfl⟩
  refine ⟨⟨h.valid, fun n hn hndir => ?_, fun n m hn hm hndir hmdir hne => ?_⟩,
    fun n => ⟨(hsame n).isDir, ?_⟩⟩
  · rw [(hsame n).isDir] at hndir
    exact ((h.dir n hn hndir).frame (hsame n) (fun _ hb => hb) fun _ _ => rfl).1
  · rw [(hsame n).isDir] at hndir
    rw [(hsame m).isDir] at hmdir
    rw [(hsame n).dirBlocks, (hsame m).dirBlocks]
    exact h.apart n m hn hm hndir hmdir hne
  · unfold dirNames
    rw [(hsame n).dirBlocks]
    rfl

end Forest

/-! ## The steps behind the change of the names -/

/-- The first block of a directory names its parent. -/
def HasDotdot (fs : Ext2) (v : Vol) (d : Nat) : Prop :=
  ∃ b rest, dirBlocks (v.inode d) = b :: rest ∧
    .dotdot ∈ (blockNames fs.blockSize (v.block b)).map Prod.fst

/-- The directories of the set have the same names, apart from `..`. -/
structure SameNames (fs : Ext2) (S : Nat → Prop) (v v' : Vol) : Prop where
  isDir : ∀ n, S n → (v'.inode n).isDir = (v.inode n).isDir
  lookup : ∀ n, S n → (v.inode n).isDir = true → ∀ c, c ≠ .dotdot →
    Names.lookup (fs.dirNames v' n) c = Names.lookup (fs.dirNames v n) c

theorem SameNames.trans {v'' : Vol} (h : SameNames fs S v v') (h' : SameNames fs S v' v'') :
    SameNames fs S v v'' := by
  refine ⟨fun n hn => (h'.isDir n hn).trans (h.isDir n hn), fun n hn hdir c hc => ?_⟩
  rw [h'.lookup n hn (by rw [h.isDir n hn, hdir]) c hc, h.lookup n hn hdir c hc]

theorem Forest.writeInode_eq (h : Forest fs g S v) (hs : fs.Shows g disk v) (hd : S d)
    (inode : Ext2Inode) : ∃ disk', fs.writeInode disk d inode = .ok disk' ∧
      fs.Shows g disk' (v.setInode d inode) ∧ (SameShape (v.inode d) inode →
        Forest fs g S (v.setInode d inode) ∧ SameNames fs S v (v.setInode d inode)) := by
  obtain ⟨disk', hwrite, h'⟩ := hs.writeInode_eq (h.valid d hd) inode
  refine ⟨disk', hwrite, h', fun hshape => ?_⟩
  obtain ⟨hforest, hsame⟩ := h.setInode hshape
  refine ⟨hforest, fun n _ => (hsame n).1, fun n _ _ c _ => ?_⟩
  rw [(hsame n).2]

section Settle

variable {x op np : Nat} (hs : fs.Shows g disk v) (h : Forest fs g S v)
  (hx : S x) (hop : S op) (hnp : S np)
include hs h hop hnp

theorem touchParents_eq (hne : op ≠ np) (now : UInt32) :
    ∃ disk' v', fs.touchParents disk op np now = .ok disk' ∧ fs.Shows g disk' v' ∧
      Forest fs g S v' ∧ SameNames fs S v v' ∧
      ∀ n, n ≠ op → n ≠ np → v'.inode n = v.inode n := by
  obtain ⟨disk1, hwrite1, h1, hkept1⟩ := h.writeInode_eq hs hop { v.inode op with
    iLinksCount := saturatingDecr (v.inode op).iLinksCount, iMtime := now, iCtime := now }
  obtain ⟨hforest1, hsame1⟩ := hkept1 ⟨rfl, rfl, rfl, rfl⟩
  obtain ⟨disk2, hwrite2, h2, hkept2⟩ := hforest1.writeInode_eq h1 hnp { v.inode np with
    iLinksCount := saturatingIncr (v.inode np).iLinksCount, iMtime := now, iCtime := now }
  rw [Vol.setInode_inode_ne _ _ _ (Ne.symm hne)] at hkept2
  obtain ⟨hforest2, hsame2⟩ := hkept2 ⟨rfl, rfl, rfl, rfl⟩
  refine ⟨disk2, _, ?_, h2, hforest2, hsame1.trans hsame2, fun n hn hn' => ?_⟩
  · unfold touchParents
    rw [hs.readInode_eq (h.valid op hop), ok_bind, hs.readInode_eq (h.valid np hnp),
      ok_bind, hwrite1, ok_bind, hwrite2]
  · rw [Vol.setInode_inode_ne _ _ _ hn', Vol.setInode_inode_ne _ _ _ hn]

include hx

/-- The steps of `rename_path` behind the change of the names always succeed.
They keep the forest when the copy of the inode that is written back is still
the inode. -/
theorem settleMoved_eq {inode : Ext2Inode} (hisDir : inode.isDir = (v.inode x).isDir)
    (hdots : inode.isDir = true → fs.HasDotdot v x) (parentNow now : UInt32) :
    ∃ disk' v', fs.settleMoved disk x op np inode parentNow now = .ok (true, disk') ∧
      (x ≠ op → x ≠ np → SameShape (v.inode x) inode →
        fs.Shows g disk' v' ∧ Forest fs g S v' ∧ SameNames fs S v v') := by
  -- the last write, from any disk of the steps before
  have hlast : ∀ disk1 v1, fs.Shows g disk1 v1 → Forest fs g S v1 → SameNames fs S v v1 →
      (x ≠ op → x ≠ np → v1.inode x = v.inode x) →
      ∃ disk' v', (do
          let disk ← fs.writeInode disk1 x { inode with iCtime := now }
          .ok (true, disk) : Res (Bool × Disk)) = .ok (true, disk') ∧
        (x ≠ op → x ≠ np → SameShape (v.inode x) inode →
          fs.Shows g disk' v' ∧ Forest fs g S v' ∧ SameNames fs S v v') := by
    intro disk1 v1 h1 hforest1 hsame1 hinode1
    obtain ⟨disk', hwrite, h', hkept⟩ := hforest1.writeInode_eq h1 hx { inode with iCtime := now }
    refine ⟨disk', _, by rw [hwrite, ok_bind], fun hxop hxnp hshape => ⟨h', ?_⟩⟩
    rw [hinode1 hxop hxnp] at hkept
    exact (hkept ⟨hshape.mode, hshape.blocks, hshape.size, hshape.sectors⟩).imp_right hsame1.trans
  unfold settleMoved
  by_cases hmoved : inode.isDir = true ∧ op ≠ np
  swap
  · rw [if_neg hmoved]
    exact hlast disk v hs h ⟨fun _ _ => rfl, fun _ _ _ _ _ => rfl⟩ fun _ _ => rfl
  rw [if_pos hmoved]
  obtain ⟨hdir, hne⟩ := hmoved
  obtain ⟨b, rest, hfirst, hin⟩ := hdots hdir
  have hxdir : (v.inode x).isDir = true := hisDir.symm.trans hdir
  obtain ⟨disk1, f, hupdate, hf, h1, hnames1⟩ :=
    IsDir.updateDotdot_eq hs (h.dir x hx hxdir) hfirst hin np
  obtain ⟨hforest1, hrenamed1⟩ := h.setBlock hx hxdir
    (by rw [hfirst]; exact List.mem_cons_self) hf
  have hsame1 : SameNames fs S v (v.setBlock b f) := by
    refine ⟨hrenamed1.isDir, fun n hn hndir c hc => ?_⟩
    rw [hrenamed1.names n hn hndir]
    split
    · rename_i heq
      rw [heq, hnames1, Names.lookup_assign_ne hc]
    · rfl
  obtain ⟨disk2, v2, htouch, h2, hforest2, hsame2, hinode2⟩ :=
    touchParents_eq h1 hforest1 hop hnp hne parentNow
  rw [hupdate, ok_bind]
  simp only []
  rw [htouch]
  exact hlast disk2 v2 h2 hforest2 (hsame1.trans hsame2) (hinode2 x)

end Settle

/-! ## The change of the names -/

/-- The names of the directory `n` after the entry `oldName` of `op` moved to
the entry `newName` of `np`. -/
def movedNames (fs : Ext2) (v : Vol) (op np x : Nat) (oldName newName : Str) (n : Nat) :
    List (Str × Nat) :=
  let names := if n = np then fs.dirNames v n ++ [(storedName newName, x)] else fs.dirNames v n
  if n = op then Names.assign oldName 0 names else names

/-- The directory can take one more name. -/
def HasRoomFor (fs : Ext2) (g : Geometry) (v : Vol) (d : Nat) : Prop :=
  (dirBlocks (v.inode d)).length < 12 ∧ 0 < fs.freeBlocks v g

theorem moveEntry_eq {x op np : Nat} (hs : fs.Shows g disk v) (h : Forest fs g S v) (hx : S x)
    (hop : S op) (hnp : S np) (hopDir : (v.inode op).isDir = true)
    (hnpDir : (v.inode np).isDir = true) {oldName : Str}
    (hold : oldName ∈ (fs.dirNames v op).map Prod.fst) (newName : Str)
    (hdots : (v.inode x).isDir = true → fs.HasDotdot v x)
    (hxop : x ≠ op) (parentNow now : UInt32) :
    (fs.moveEntry disk x op np oldName newName (v.inode x) parentNow now
        = .ok (false, disk) ∧ ¬ fs.HasRoomFor g v np) ∨
    fs.HasRoomFor g v np ∧ ∃ disk' v', fs.moveEntry disk x op np oldName newName
        (v.inode x) parentNow now = .ok (true, disk') ∧
      (x ≠ np → fs.Shows g disk' v' ∧ Forest fs g S v' ∧
        (∀ n, S n → (v'.inode n).isDir = (v.inode n).isDir) ∧
        ∀ n, S n → (v.inode n).isDir = true → ∀ c, c ≠ .dotdot →
          Names.lookup (fs.dirNames v' n) c
            = Names.lookup (fs.movedNames v op np x oldName newName n) c) := by
  have hgood := hs.sound.mountable.size
  have hx32 : x < 2 ^ 32 := by
    have hvalid := (h.valid x hx).2
    have hlt := fs.superblock.sInodesCount.toNat_lt
    omega
  unfold moveEntry
  simp only []
  generalize (if (v.inode x).isDir = true then (2 : UInt8) else 1) = fileType
  rcases DirShape.addEntry_eq hs (h.dir np hnp hnpDir).toDirShape
      (IsDir.addDirEntry_run hs (h.dir np hnp hnpDir) newName x fileType) with
    ⟨hfalse, hfull⟩ | ⟨b, disk1, hadd, hlt, hdata, hfresh, h1, hcount⟩
  · refine .inl ⟨?_, fun hroom => ?_⟩
    · rw [hfalse, ok_bind]
      exact if_pos rfl
    · obtain ⟨hlt, hpos⟩ := hroom
      omega
  refine .inr ⟨⟨hlt, by omega⟩, ?_⟩
  obtain ⟨hforest1, hrenamed1, hinode1, hblocks1⟩ :=
    h.withName hgood hnp hnpDir hlt hdata hfresh newName hx32 fileType
  have hblock1 : ∀ c, c ≠ b → (fs.withName v np b newName x fileType).block c = v.block c :=
    fun _ => Vol.setBlock_block_ne _ _ _
  generalize fs.withName v np b newName x fileType = v1
    at h1 hforest1 hrenamed1 hinode1 hblocks1 hblock1
  have hopDir1 : (v1.inode op).isDir = true := by
    rw [hrenamed1.isDir op hop, hopDir]
  have hnames1 : ∀ n, S n → (v.inode n).isDir = true →
      fs.dirNames v1 n = if n = np
        then fs.dirNames v n ++ [(storedName newName, x)]
        else fs.dirNames v n := by
    intro n hn hndir
    rw [hrenamed1.names n hn hndir]
    split
    · rename_i heq
      rw [heq]
    · rfl
  have hold1 : oldName ∈ (fs.dirNames v1 op).map Prod.fst := by
    rw [hnames1 op hop hopDir]
    split
    · rw [List.map_append]
      exact List.mem_append_left _ hold
    · exact hold
  rcases IsDir.removeDirEntry_eq h1 (hforest1.dir op hop hopDir1) oldName with
    ⟨habsent, _⟩ | ⟨_, disk2, c, f, hremove, hc, hf, h2, hnames2⟩
  · exact absurd hold1 habsent
  obtain ⟨hforest2, hrenamed2⟩ := hforest1.setBlock hop hopDir1 hc hf
  have hisDir2 : ∀ n, S n → ((v1.setBlock c f).inode n).isDir = (v.inode n).isDir := hrenamed1.isDir
  have hdots2 : (v.inode x).isDir = true → fs.HasDotdot (v1.setBlock c f) x := by
    intro hxdir
    obtain ⟨b0, rest, hfirst, hin⟩ := hdots hxdir
    have hb0 : b0 ∈ dirBlocks (v.inode x) := by
      rw [hfirst]
      exact List.mem_cons_self
    -- the first block of the entry is not the fresh one and not one of the old directory
    have hne : b0 ≠ b := by
      intro heq
      rw [heq] at hb0
      exact hfresh ((h.dir x hx hxdir).data b hb0).2
    have hfirst1 : ∃ rest', dirBlocks (v1.inode x) = b0 :: rest' := by
      by_cases hxnp : x = np
      · rw [hxnp, hblocks1, ← hxnp, hfirst]
        exact ⟨_, rfl⟩
      · rw [hinode1 x hxnp]
        exact ⟨rest, hfirst⟩
    obtain ⟨rest', hfirst'⟩ := hfirst1
    have hne' : b0 ≠ c := by
      intro heq
      refine hforest1.apart op x hop hx hopDir1 ?_ (Ne.symm hxop) c hc ?_
      · rw [hrenamed1.isDir x hx, hxdir]
      · rw [hfirst', heq]
        exact List.mem_cons_self
    refine ⟨b0, rest', hfirst', ?_⟩
    rw [Vol.setBlock_block_ne _ _ _ hne', hblock1 b0 hne]
    exact hin
  obtain ⟨disk', v', hsettle, hkeeps⟩ := settleMoved_eq h2 hforest2 hx hop hnp
    (hisDir2 x hx).symm hdots2 parentNow now
  refine ⟨disk', v', ?_, fun hxnp => ?_⟩
  · rw [hadd, ok_bind]
    simp only []
    rw [if_neg (by decide), hremove, ok_bind]
    simp only []
    rw [if_neg (by decide), hsettle]
  · obtain ⟨h', hforest', hnames'⟩ := hkeeps hxop hxnp
      (by rw [Vol.setBlock_inode, hinode1 x hxnp]; exact ⟨rfl, rfl, rfl, rfl⟩)
    refine ⟨h', hforest', fun n hn => ?_, fun n hn hndir d hd => ?_⟩
    · rw [hnames'.isDir n hn, hisDir2 n hn]
    · have hndir1 : (v1.inode n).isDir = true := by
        rw [hrenamed1.isDir n hn, hndir]
      rw [hnames'.lookup n hn (by rw [hisDir2 n hn, hndir]) d hd, hrenamed2.names n hn hndir1]
      unfold movedNames
      rw [← hnames1 n hn hndir]
      split
      · rename_i heq
        rw [hnames2, heq]
      · rfl

end Ext2

end Felix
