import Felix.Base.Tree
import Felix.Ext2.DirNames
import Felix.Ext2.Namespace

/-!
# Resolving paths

On the view of a volume, `look` is the inode under a name of a directory, and
`resolve_path` is a walk along the components of the path.  `WellFormed` says
that every inode that a walk from the root reaches is an inode of the volume,
and a well-formed directory if it is one.

The module also relates the ways in which the functions take a path apart,
`split_path` and `strip_prefix`, to its components.
-/

namespace Felix

open Bytes List

namespace Ext2

/-! ## Paths -/

/-- The last component of a path, with the path of the directory.  A path of
slashes only is split as well, and its last component is empty. -/
theorem splitPath_eq_some {path parent name : Str} (h : splitPath path = some (parent, name)) :
    (name ≠ .empty ∧ path.components = parent.components ++ [name]) ∨
      (path.components = [] ∧ path.trimEnd = .empty) := by
  unfold splitPath at h
  split at h
  · cases h
  simp only [] at h
  rw [← Str.components_trimEnd path]
  cases hsplit : path.trimEnd.splitLast with
  | none =>
    rw [hsplit] at h
    cases h
    rw [Str.components_of_not_mem (Str.splitLast_eq_none.1 hsplit)]
    by_cases hempty : path.trimEnd = .empty
    · rw [if_pos hempty]
      exact .inr ⟨rfl, hempty⟩
    · rw [if_neg hempty]
      exact .inl ⟨hempty, rfl⟩
  | some c =>
    obtain ⟨p, f⟩ := c
    rw [hsplit] at h
    simp only [] at h
    split at h
    · cases h
    rename_i hname
    cases h
    obtain ⟨hbytes, hslash⟩ := Str.splitLast_eq_some hsplit
    have hparent : (if p = .empty then Str.root else p).components = p.components := by
      split
      · rename_i hp
        rw [hp, Str.components_root, Str.components_empty]
      · rfl
    rw [Str.components_append hbytes, Str.components_of_not_mem hslash, if_neg hname, hparent]
    exact .inl ⟨hname, rfl⟩

/-- The directory of an absolute path is an absolute path. -/
theorem splitPath_absolute {path parent name : Str} (h : splitPath path = some (parent, name))
    (habs : path.bytes.head? = some slash) : parent.bytes.head? = some slash := by
  unfold splitPath at h
  split at h
  · cases h
  simp only [] at h
  cases hsplit : path.trimEnd.splitLast with
  | none =>
    rw [hsplit] at h
    cases h
    rfl
  | some c =>
    obtain ⟨p, f⟩ := c
    rw [hsplit] at h
    simp only [] at h
    split at h
    · cases h
    cases h
    split
    · rfl
    rename_i hp
    obtain ⟨hcat, _⟩ := Str.splitLast_eq_some hsplit
    have hpre : p.bytes <+: path.bytes := by
      refine List.IsPrefix.trans ?_ (Str.trimEnd_prefix path)
      rw [hcat]
      exact prefix_append _ _
    obtain ⟨rest, hrest⟩ := hpre
    rw [← habs, ← hrest]
    cases hbytes : p.bytes with
    | nil => exact absurd (Str.ext hbytes) hp
    | cons b l => rfl

theorem rootName_eq_some {path name : Str} (h : rootName path = some name) :
    path.bytes = slash :: name.bytes ∧ slash ∉ name.bytes := by
  unfold rootName at h
  cases hstrip : path.stripSlash with
  | none =>
    rw [hstrip] at h
    cases h
  | some n =>
    rw [hstrip] at h
    simp only [] at h
    split at h
    · cases h
    rename_i hslash
    cases h
    exact ⟨Str.stripSlash_eq_some hstrip, hslash⟩

section RootName

variable {path name : Str} (h : rootName path = some name) (hne : name ≠ .empty)
include h hne

theorem components_rootName : path.components = [name] := by
  obtain ⟨hbytes, hslash⟩ := rootName_eq_some h
  rw [@Str.components_append name path .empty hbytes, Str.components_of_not_mem hslash,
    if_neg hne, Str.components_empty, nil_append]

theorem splitPath_rootName : splitPath path = some (.root, name) := by
  obtain ⟨hbytes, hslash⟩ := rootName_eq_some h
  have hnil : name.bytes ≠ [] := fun hnil => hne (Str.ext hnil)
  have htrim : path.trimEnd = path := by
    refine Str.ext ?_
    refine rdropWhile_eq_self_iff.2 fun hpath hlast => ?_
    have hmem : path.bytes.getLast hpath ∈ name.bytes := by
      simp only [hbytes, getLast_cons hnil]
      exact getLast_mem hnil
    rw [of_decide_eq_true hlast] at hmem
    exact hslash hmem
  have hsplit : path.splitLast = some (.empty, name) := by
    cases hcut : path.splitLast with
    | none =>
      refine absurd ?_ (Str.splitLast_eq_none.1 hcut)
      rw [hbytes]
      exact mem_cons_self
    | some c =>
      obtain ⟨p, f⟩ := c
      obtain ⟨hcat, hf⟩ := Str.splitLast_eq_some hcut
      rw [hbytes] at hcat
      -- the name holds no slash, so the cut is at first
      cases hp : p.bytes with
      | nil =>
        rw [hp] at hcat
        rw [show p = .empty from Str.ext hp, show f = name from Str.ext (List.cons.inj hcat).2.symm]
      | cons b rest =>
        rw [hp] at hcat
        refine absurd ?_ hslash
        rw [(List.cons.inj hcat).2]
        exact mem_append_right _ mem_cons_self
  have hroot : ¬ (path = .root ∨ path = .empty) := by
    rintro (heq | heq)
    · rw [heq] at hbytes
      exact hnil (List.cons.inj hbytes).2.symm
    · rw [heq] at hbytes
      cases hbytes
  unfold splitPath
  rw [if_neg hroot]
  simp only [htrim, hsplit]
  rw [if_neg hne]
  rfl

end RootName

/-! ## Walks -/

/-- The inode under a name. -/
def look (fs : Ext2) (v : Vol) (n : Nat) (name : Str) : Option Nat :=
  if (v.inode n).isDir = true then Names.lookup (fs.dirNames v n) name else none

/-- An inode of the volume, and a well-formed directory if it is one. -/
structure Node (fs : Ext2) (g : Geometry) (v : Vol) (n : Nat) : Prop where
  valid : fs.ValidInode n
  dir : (v.inode n).isDir = true → fs.IsDir g v n

/-- Everything that can be reached from the root is in order. -/
structure WellFormed (fs : Ext2) (g : Geometry) (disk : Disk) : Prop where
  volume : fs.Volume g disk
  root : ((fs.view g disk).inode 2).isDir = true
  nodes : ∀ path n, Tree.walk (fs.look (fs.view g disk)) 2 path = some n →
    fs.Node g (fs.view g disk) n

variable {fs : Ext2} {g : Geometry} {disk : Disk} {n : Nat} {path : List Str} {v : Vol}

theorem look_of_isDir (h : (v.inode n).isDir = true) (name : Str) :
    fs.look v n name = Names.lookup (fs.dirNames v n) name := if_pos h

theorem exists_of_walk_concat {c : Str}
    (h : Tree.walk (fs.look v) 2 (path ++ [c]) = some n) :
    ∃ m, Tree.walk (fs.look v) 2 path = some m ∧ (v.inode m).isDir = true ∧
      (c, n) ∈ fs.dirNames v m := by
  rw [Tree.walk_concat] at h
  obtain ⟨m, hm, hlook⟩ := Option.bind_eq_some_iff.1 h
  by_cases hdir : (v.inode m).isDir = true
  · rw [look_of_isDir hdir] at hlook
    exact ⟨m, hm, hdir, (Names.mem_of_lookup hlook).1⟩
  · rw [look, if_neg hdir] at hlook
    cases hlook

theorem Node.findDirEntry_eq (h : fs.Shows g disk v) (hn : fs.Node g v n) (name : Str) :
    fs.findDirEntry disk n name = .ok (fs.look v n name) := by
  unfold look
  by_cases hdir : (v.inode n).isDir = true
  · rw [if_pos hdir]
    exact IsDir.findDirEntry_eq h (hn.dir hdir) name
  · unfold findDirEntry
    rw [if_neg hdir, h.readInode_eq hn.valid, Res.ok_bind, if_pos (Bool.eq_false_iff.2 hdir)]

/-- The loop of `resolve_path` is a walk, when it looks up names only in inodes
that are in order. -/
theorem Shows.resolveFrom_eq (h : fs.Shows g disk v) (hnodes : ∀ p c, p ++ [c] <+: path →
      ∀ m, Tree.walk (fs.look v) n p = some m → fs.Node g v m) :
    fs.resolveFrom disk n path = .ok (Tree.walk (fs.look v) n path) := by
  induction path generalizing n with
  | nil => rfl
  | cons c rest ih =>
    have hn : fs.Node g v n := hnodes [] c ⟨rest, rfl⟩ n Tree.walk_nil
    rw [resolveFrom, hn.findDirEntry_eq h, Tree.walk_cons]
    cases hlook : fs.look v n c with
    | none => rfl
    | some m =>
      refine ih fun p d hp k hk => hnodes (c :: p) d ?_ k ?_
      · exact cons_prefix_cons.2 ⟨rfl, hp⟩
      · rw [Tree.walk_cons, hlook]
        exact hk

theorem resolveFrom_append (n : Nat) (a b : List Str) :
    fs.resolveFrom disk n (a ++ b) = fs.resolveFrom disk n a >>= fun r =>
      match r with
      | some m => fs.resolveFrom disk m b
      | none => .ok none := by
  induction a generalizing n with
  | nil => rfl
  | cons c a ih =>
    rw [cons_append, resolveFrom, resolveFrom]
    cases fs.findDirEntry disk n c with
    | error e => rfl
    | ok found =>
      cases found with
      | none => rfl
      | some m => exact ih m

theorem resolvePath_eq_from (hm : fs.mounted = true) (path : Str) :
    fs.resolvePath disk path = fs.resolveFrom disk 2 path.components := by
  unfold resolvePath
  rw [if_neg (by simp [hm])]
  split
  · rename_i hroot
    rcases hroot with rfl | rfl
    · rfl
    · rfl
  · rfl

namespace WellFormed

variable (h : WellFormed fs g disk)
include h

theorem mounted : fs.mounted = true := h.volume.sound.mountable.mounted

theorem resolveFrom_eq (path : List Str) :
    fs.resolveFrom disk 2 path = .ok (Tree.walk (fs.look (fs.view g disk)) 2 path) :=
  h.volume.shows.resolveFrom_eq fun p _ _ m hm => h.nodes p m hm

theorem resolvePath_eq (path : Str) : fs.resolvePath disk path
      = .ok (Tree.walk (fs.look (fs.view g disk)) 2 path.components) := by
  rw [resolvePath_eq_from h.mounted, h.resolveFrom_eq]

theorem node_of_resolvePath {path : Str} {n : Nat}
    (hn : fs.resolvePath disk path = .ok (some n)) : fs.Node g (fs.view g disk) n := by
  rw [h.resolvePath_eq, Except.ok.injEq] at hn
  exact h.nodes _ n hn

theorem rootNode : fs.Node g (fs.view g disk) 2 := h.nodes [] 2 Tree.walk_nil

end WellFormed

end Ext2

end Felix
