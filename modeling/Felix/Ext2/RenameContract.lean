import Felix.Ext2.Rename
import Felix.Ext2.CreateContract

/-!
# The contract of a rename

On a volume whose directories form a tree, `RenameCorrect` says what a rename
should do to every path without `.` and `..`: if it returns `true`, the new path
and all below it are what the old path and all below it were, the old path is
gone, and all other paths are as before; if it returns `false`, all paths are as
before.

`rename_correct_iff` says when that holds.  Three things can go wrong once the
checks have passed and the new directory has room.  A live entry can stand
behind a deleted one of the same name, which the removal finds first; a new name
of more than 255 bytes is stored cut; and the test that keeps a directory from
being moved below itself compares texts, so that a doubled slash passes it.
-/

namespace Felix

open Bytes Res Names

namespace Ext2

/-- A component of a path other than `.` and `..`. -/
def PlainName (c : Str) : Prop := c ≠ .empty ∧ slash ∉ c.bytes ∧ c ≠ .dot ∧ c ≠ .dotdot

instance : DecidablePred PlainName := fun _ => inferInstanceAs (Decidable (_ ∧ _ ∧ _ ∧ _))

/-- An absolute path without `.` and `..`. -/
structure PlainPath (path : Str) : Prop where
  absolute : path.bytes.head? = some slash
  dot : .dot ∉ path.components
  dotdot : .dotdot ∉ path.components

theorem PlainPath.plain {path : Str} (h : PlainPath path) : ∀ c ∈ path.components, PlainName c := by
  intro c hc
  obtain ⟨hne, hslash⟩ := Str.mem_components hc
  refine ⟨hne, hslash, fun heq => ?_, fun heq => ?_⟩
  · rw [heq] at hc
    exact h.dot hc
  · rw [heq] at hc
    exact h.dotdot hc

/-- The inodes that can be reached from the root over plain names. -/
def PlainNode (fs : Ext2) (v : Vol) (n : Nat) : Prop :=
  ∃ p, (∀ c ∈ p, PlainName c) ∧ Tree.walk (fs.look v) 2 p = some n

/-- A well-formed volume whose directories form a tree: each is reached over
plain names on one way only, no two share a block, and the first block of each
names its parent. -/
structure IsTree (fs : Ext2) (g : Geometry) (disk : Disk) : Prop extends
    WellFormed fs g disk where
  unique : ∀ p q n, (∀ c ∈ p, PlainName c) → (∀ c ∈ q, PlainName c) →
    Tree.walk (fs.look (fs.view g disk)) 2 p = some n →
    Tree.walk (fs.look (fs.view g disk)) 2 q = some n →
    ((fs.view g disk).inode n).isDir = true → p = q
  apart : ∀ n m, fs.PlainNode (fs.view g disk) n → fs.PlainNode (fs.view g disk) m →
    ((fs.view g disk).inode n).isDir = true → ((fs.view g disk).inode m).isDir = true →
    n ≠ m → ∀ b ∈ dirBlocks ((fs.view g disk).inode n), b ∉ dirBlocks ((fs.view g disk).inode m)
  dots : ∀ n, fs.PlainNode (fs.view g disk) n → ((fs.view g disk).inode n).isDir = true →
    fs.HasDotdot (fs.view g disk) n

/-- What a list of components should resolve to after the move of `old` to
`new`. -/
def afterMove (fs : Ext2) (disk : Disk) (old new q : List Str) : Res (Option Nat) :=
  if new <+: q then fs.resolveFrom disk 2 (old ++ q.drop new.length)
  else if old <+: q then .ok none
  else fs.resolveFrom disk 2 q

/-- The rename does what it says to all plain paths. -/
def RenameCorrect (fs : Ext2) (disk : Disk) (old new : Str) (parentNow now : UInt32) : Prop :=
  ∃ ok disk', fs.renamePath disk old new parentNow now = .ok (ok, disk') ∧
    ∀ q, (∀ c ∈ q, PlainName c) → fs.resolveFrom disk' 2 q
      = if ok = true then fs.afterMove disk old.components new.components q
        else fs.resolveFrom disk 2 q

/-- The rename gets as far as the change of the names: `x` moves from `oldName`
in `op` to `newName` in `np`. -/
structure Links (fs : Ext2) (g : Geometry) (disk : Disk) (old new : Str) (x op np : Nat)
    (oldParent oldName newParent newName : Str) : Prop where
  target : fs.resolvePath disk old = .ok (some x)
  absent : fs.resolvePath disk new = .ok none
  splitOld : splitPath old = some (oldParent, oldName)
  splitNew : splitPath new = some (newParent, newName)
  oldDir : fs.resolvePath disk oldParent = .ok (some op)
  newDir : fs.resolvePath disk newParent = .ok (some np)
  opDir : ((fs.view g disk).inode op).isDir = true
  npDir : ((fs.view g disk).inode np).isDir = true
  allowed : ¬ (((fs.view g disk).inode x).isDir = true ∧ textBelow old newParent = true)

/-- When the rename gets as far as the change of the names and the new directory
has room: no live entry stands behind the first one of the old name, the new
name fits into a record, and a directory is not moved below itself. -/
def RenameCondition (fs : Ext2) (g : Geometry) (disk : Disk) (old new : Str) : Prop :=
  ∀ x op np oldParent oldName newParent newName,
    Links fs g disk old new x op np oldParent oldName newParent newName →
    fs.HasRoomFor g (fs.view g disk) np →
    Names.Unshadowed oldName (fs.dirNames (fs.view g disk) op) ∧ newName.bytes.length ≤ 255 ∧
      (((fs.view g disk).inode x).isDir = true → ¬ old.components <+: newParent.components)

variable {fs : Ext2} {g : Geometry} {disk : Disk} {old new : Str}

/-- The text of a path of slashes only is above every absolute path. -/
theorem textBelow_of_empty {newParent : Str} (hold : old.trimEnd = .empty)
    (habs : newParent.bytes.head? = some slash) : textBelow old newParent = true := by
  unfold textBelow
  simp only [hold, decide_eq_true_eq]
  cases hbytes : newParent.trimEnd.bytes with
  | nil => exact .inl (Str.ext hbytes)
  | cons b rest =>
    refine .inr ⟨List.nil_prefix, ?_⟩
    obtain ⟨tail, htail⟩ := Str.trimEnd_prefix newParent
    rw [← htail, hbytes] at habs
    exact habs

namespace IsTree

variable (h : IsTree fs g disk)
include h

theorem forest : Forest fs g (fs.PlainNode (fs.view g disk)) (fs.view g disk) := by
  refine ⟨fun n hn => ?_, fun n hn hdir => ?_, h.apart⟩
  · obtain ⟨p, _, hp⟩ := hn
    exact (h.nodes p n hp).valid
  · obtain ⟨p, _, hp⟩ := hn
    exact (h.nodes p n hp).dir hdir

/-- A rename that passes the checks changes the names. -/
theorem renamePath_eq {x op np : Nat} {oldParent oldName newParent newName : Str}
    (hlinks : Links fs g disk old new x op np oldParent oldName newParent newName)
    (parentNow now : UInt32) :
    fs.renamePath disk old new parentNow now = fs.moveEntry disk x op np oldName newName
      ((fs.view g disk).inode x) parentNow now := by
  have hearly : ¬ (fs.mounted = false ∨ old = .root ∨ new = .root ∨ old = new) := by
    rintro (hm | rfl | rfl | rfl)
    · rw [h.mounted] at hm
      cases hm
    · exact nomatch hlinks.splitOld
    · exact nomatch hlinks.splitNew
    have htarget := hlinks.target
    rw [hlinks.absent] at htarget
    cases htarget
  unfold renamePath
  rw [if_neg hearly, hlinks.target]
  simp only [hlinks.absent, ok_bind, hlinks.splitOld, hlinks.splitNew, hlinks.oldDir, hlinks.newDir]
  rw [h.volume.readInode_eq (h.node_of_resolvePath hlinks.oldDir).valid, ok_bind,
    if_neg (by simp [hlinks.opDir]),
    h.volume.readInode_eq (h.node_of_resolvePath hlinks.newDir).valid, ok_bind,
    if_neg (by simp [hlinks.npDir]),
    h.volume.readInode_eq (h.node_of_resolvePath hlinks.target).valid, ok_bind,
    if_neg hlinks.allowed]

/-- A rename that does not pass the checks changes nothing. -/
theorem renamePath_refused (hnone : ∀ x op np oldParent oldName newParent newName,
      ¬ Links fs g disk old new x op np oldParent oldName newParent newName)
    (parentNow now : UInt32) : fs.renamePath disk old new parentNow now = .ok (false, disk) := by
  have hresolves : ∀ path, ∃ found, fs.resolvePath disk path = .ok found :=
    fun path => ⟨_, h.resolvePath_eq path⟩
  unfold renamePath
  by_cases hearly : fs.mounted = false ∨ old = .root ∨ new = .root ∨ old = new
  · rw [if_pos hearly]
  rw [if_neg hearly]
  obtain ⟨_ | x, hold⟩ := hresolves old <;> simp only [hold, ok_bind]
  obtain ⟨_ | y, hnew⟩ := hresolves new <;> simp only [hnew, ok_bind]
  rcases hsplitOld : splitPath old with _ | ⟨oldParent, oldName⟩
  · rfl
  rcases hsplitNew : splitPath new with _ | ⟨newParent, newName⟩
  · rfl
  obtain ⟨_ | op, hop⟩ := hresolves oldParent <;> simp only [hop, ok_bind]
  obtain ⟨_ | np, hnp⟩ := hresolves newParent <;> simp only [hnp, ok_bind]
  rw [h.volume.readInode_eq (h.node_of_resolvePath hop).valid, ok_bind]
  by_cases hopDir : ((fs.view g disk).inode op).isDir = true
  swap
  · rw [if_pos (Bool.eq_false_iff.2 hopDir)]
  rw [if_neg (by simp [hopDir]), h.volume.readInode_eq (h.node_of_resolvePath hnp).valid, ok_bind]
  by_cases hnpDir : ((fs.view g disk).inode np).isDir = true
  swap
  · rw [if_pos (Bool.eq_false_iff.2 hnpDir)]
  rw [if_neg (by simp [hnpDir]), h.volume.readInode_eq (h.node_of_resolvePath hold).valid, ok_bind]
  by_cases hbelow : ((fs.view g disk).inode x).isDir = true ∧ textBelow old newParent = true
  · rw [if_pos hbelow]
  exact absurd ⟨hold, hnew, hsplitOld, hsplitNew, hop, hnp, hopDir, hnpDir, hbelow⟩
    (hnone x op np oldParent oldName newParent newName)

end IsTree

/-- The entry and the two directories of a rename, as walks over the components
of the paths. -/
structure Ends (fs : Ext2) (v : Vol) (oldParent : List Str) (oldName : Str)
    (newParent : List Str) (newName : Str) (x op np : Nat) : Prop where
  oldPlain : ∀ c ∈ oldParent ++ [oldName], PlainName c
  newPlain : ∀ c ∈ newParent ++ [newName], PlainName c
  walkOld : Tree.walk (fs.look v) 2 oldParent = some op
  walkNew : Tree.walk (fs.look v) 2 newParent = some np
  target : fs.look v op oldName = some x
  absent : fs.look v np newName = none
  opDir : (v.inode op).isDir = true
  npDir : (v.inode np).isDir = true

namespace Links

variable {x op np : Nat} {oldParent oldName newParent newName : Str}
  (h : Links fs g disk old new x op np oldParent oldName newParent newName)
  (ht : IsTree fs g disk) (hold : PlainPath old) (hnew : PlainPath new)
include h ht hold hnew

theorem ends : old.components = oldParent.components ++ [oldName] ∧
      new.components = newParent.components ++ [newName] ∧
      Ends fs (fs.view g disk) oldParent.components oldName newParent.components newName x op
        np := by
  have htarget := h.target
  have habsent := h.absent
  have hop := h.oldDir
  have hnp := h.newDir
  rw [ht.resolvePath_eq, Except.ok.injEq] at htarget habsent hop hnp
  rcases splitPath_eq_some h.splitNew with ⟨_, hnewC⟩ | ⟨hnewC, _⟩
  swap
  · rw [hnewC] at habsent
    cases habsent
  rcases splitPath_eq_some h.splitOld with ⟨_, holdC⟩ | ⟨holdC, htrim⟩
  swap
  · -- the root cannot be moved below itself, and the text says so
    rw [holdC] at htarget
    cases htarget
    exact absurd ⟨ht.root, textBelow_of_empty htrim (splitPath_absolute h.splitNew hnew.absolute)⟩
      h.allowed
  rw [holdC, Tree.walk_concat, hop] at htarget
  rw [hnewC, Tree.walk_concat, hnp] at habsent
  refine ⟨holdC, hnewC, ?_, ?_, hop, hnp, htarget, habsent, h.opDir, h.npDir⟩
  · rw [← holdC]
    exact hold.plain
  · rw [← hnewC]
    exact hnew.plain

end Links

namespace Ends

variable {x op np : Nat} {oldParent newParent : List Str} {oldName newName : Str}

section

variable {v : Vol} (h : Ends fs v oldParent oldName newParent newName x op np)
include h

theorem plainOld : ∀ c ∈ oldParent, PlainName c :=
  fun c hc => h.oldPlain c (List.mem_append_left _ hc)

theorem plainNew : ∀ c ∈ newParent, PlainName c :=
  fun c hc => h.newPlain c (List.mem_append_left _ hc)

theorem walk_old : Tree.walk (fs.look v) 2 (oldParent ++ [oldName]) = some x := by
  rw [Tree.walk_concat, h.walkOld]
  exact h.target

theorem node_op : fs.PlainNode v op := ⟨oldParent, h.plainOld, h.walkOld⟩

theorem node_np : fs.PlainNode v np := ⟨newParent, h.plainNew, h.walkNew⟩

theorem node_x : fs.PlainNode v x := ⟨_, h.oldPlain, h.walk_old⟩

theorem lookup_old : lookup (fs.dirNames v op) oldName = some x := by
  rw [← look_of_isDir h.opDir]
  exact h.target

theorem lookup_new : lookup (fs.dirNames v np) newName = none := by
  rw [← look_of_isDir h.npDir]
  exact h.absent

theorem mem_old : oldName ∈ (fs.dirNames v op).map Prod.fst :=
  List.mem_map.2 ⟨_, (mem_of_lookup h.lookup_old).1, rfl⟩

theorem pos : x ≠ 0 := (mem_of_lookup h.lookup_old).2

theorem lookup_added (hlen : newName.bytes.length ≤ 255) (n : Nat) (c : Str) : lookup (if n = np
        then fs.dirNames v n ++ [(storedName newName, x)]
        else fs.dirNames v n) c
      = if n = np ∧ c = newName then some x
        else lookup (fs.dirNames v n) c := by
  by_cases hn : n = np
  swap
  · rw [if_neg hn, if_neg fun heq => hn heq.1]
  rw [if_pos hn, lookup_append, lookup_cons, lookup_nil, storedName_eq hlen]
  by_cases hc : c = newName
  · rw [hc, hn, h.lookup_new, Option.none_or, if_pos ⟨rfl, h.pos⟩, if_pos ⟨rfl, rfl⟩]
  · rw [if_neg fun heq : newName = c ∧ x ≠ 0 => hc heq.1.symm, Option.or_none,
      if_neg fun heq => hc heq.2]

theorem lookup_movedNames (hlen : newName.bytes.length ≤ 255) (n : Nat) (c : Str) :
    lookup (fs.movedNames v op np x oldName newName n) c
      = if n = op ∧ c = oldName then
          lookup (assign oldName 0 (fs.dirNames v op)) oldName
        else if n = np ∧ c = newName then some x
        else lookup (fs.dirNames v n) c := by
  have hadded := h.lookup_added hlen n
  unfold movedNames
  by_cases hn : n = op
  swap
  · rw [if_neg hn, hadded, if_neg fun heq : n = op ∧ c = oldName => hn heq.1]
  rw [if_pos hn]
  by_cases hc : c = oldName
  swap
  · rw [lookup_assign_ne hc, hadded, if_neg fun heq : n = op ∧ c = oldName => hc heq.2]
  rw [hc]
  by_cases hnp : n = np
  swap
  · rw [if_neg hnp, if_pos ⟨hn, rfl⟩, hn]
  -- both names are in one directory, so they differ
  have hne : newName ≠ oldName := by
    intro heq
    have habsent := h.lookup_new
    rw [heq, ← hnp, hn, h.lookup_old] at habsent
    cases habsent
  have hmem : oldName ∈ (fs.dirNames v n).map Prod.fst := by
    rw [hn]
    exact h.mem_old
  rw [if_pos hnp, assign_append_left hmem, lookup_append, lookup_cons,
    storedName_eq hlen, if_neg fun heq => hne heq.1, lookup_nil, Option.or_none,
    if_pos ⟨hn, rfl⟩, hn]

/-- An entry that is no directory has nothing below it. -/
theorem not_below (hnot : ¬ (v.inode x).isDir = true) :
    ¬ oldParent ++ [oldName] <+: newParent := by
  rintro ⟨s, hs⟩
  have hwalk := h.walkNew
  rw [← hs, Tree.walk_append, h.walk_old] at hwalk
  cases s with
  | nil =>
    cases hwalk
    exact hnot h.npDir
  | cons c s =>
    rw [Option.bind_some, Tree.walk_cons, look, if_neg hnot] at hwalk
    cases hwalk

end

variable (h : Ends fs (fs.view g disk) oldParent oldName newParent newName x op np)
  (ht : IsTree fs g disk)
include h ht

/-- A directory that is not below the entry is another inode. -/
theorem ne_of_walk {p : List Str} {n : Nat} (hplain : ∀ c ∈ p, PlainName c)
    (hwalk : Tree.walk (fs.look (fs.view g disk)) 2 p = some n)
    (hdir : ((fs.view g disk).inode n).isDir = true) (hbelow : ¬ oldParent ++ [oldName] <+: p) :
    x ≠ n := by
  rintro rfl
  rw [ht.unique _ _ x h.oldPlain hplain h.walk_old hwalk hdir] at hbelow
  exact hbelow (List.prefix_refl _)

theorem ne_op : x ≠ op := h.ne_of_walk ht h.plainOld h.walkOld h.opDir fun hpre => by
  have hlen := hpre.length_le
  rw [List.length_append, List.length_singleton] at hlen
  omega

/-- A rename with a name that fits, of an entry that is not above the new
directory: the tree afterwards. -/
theorem moves (hlen : newName.bytes.length ≤ 255) (hbelow : ¬ oldParent ++ [oldName] <+: newParent)
    (hroom : fs.HasRoomFor g (fs.view g disk) np) (parentNow now : UInt32) :
    ∃ disk' v', fs.moveEntry disk x op np oldName newName ((fs.view g disk).inode x) parentNow now
        = .ok (true, disk') ∧ fs.Shows g disk' v' ∧
      (∀ n, fs.PlainNode (fs.view g disk) n → fs.Node g v' n) ∧
      Tree.Moves PlainName (fs.look (fs.view g disk)) (fs.look v') 2 oldParent
        oldName newParent newName op np x
        (lookup (assign oldName 0 (fs.dirNames (fs.view g disk) op)) oldName) := by
  rcases moveEntry_eq ht.volume.shows ht.forest h.node_x h.node_op h.node_np h.opDir h.npDir
    h.mem_old newName (ht.dots x h.node_x) (h.ne_op ht) parentNow now with ⟨_, hnone⟩ |
    ⟨_, disk', v', hrun, hkeeps⟩
  · exact absurd hroom hnone
  obtain ⟨h', hforest', hisDir', hlookup'⟩ :=
    hkeeps (h.ne_of_walk ht h.plainNew h.walkNew h.npDir hbelow)
  refine ⟨disk', v', hrun, h', fun n hn => ⟨hforest'.valid n hn, hforest'.dir n hn⟩,
    h.oldPlain, h.newPlain, h.walkOld, h.walkNew, h.target, h.absent, fun p hp hwalk => ?_,
    fun p hp hwalk => ?_, hbelow, fun p n c hp hwalk hc => ?_⟩
  · exact ht.unique p oldParent op hp h.plainOld hwalk h.walkOld h.opDir
  · exact ht.unique p newParent np hp h.plainNew hwalk h.walkNew h.npDir
  · have hn : fs.PlainNode (fs.view g disk) n := ⟨p, hp, hwalk⟩
    by_cases hdir : ((fs.view g disk).inode n).isDir = true
    · rw [look_of_isDir (by rw [hisDir' n hn, hdir]), hlookup' n hn hdir c hc.2.2.2,
        h.lookup_movedNames hlen, look_of_isDir hdir]
    have hnop : n ≠ op := fun heq => hdir (heq ▸ h.opDir)
    have hnnp : n ≠ np := fun heq => hdir (heq ▸ h.npDir)
    rw [if_neg fun heq => hnop heq.1, if_neg fun heq => hnnp heq.1]
    unfold look
    rw [if_neg hdir, hisDir' n hn, if_neg hdir]

end Ends

/-! ## When a rename is correct -/

section

variable {x op np : Nat} {oldParent oldName newParent newName : Str}
  (h : IsTree fs g disk) (hold : PlainPath old) (hnew : PlainPath new)
  (hlinks : Links fs g disk old new x op np oldParent oldName newParent newName)
include h hold hnew hlinks

/-- A rename without room in the new directory returns `false` and changes
nothing. -/
theorem renameCorrect_of_no_room (hroom : ¬ fs.HasRoomFor g (fs.view g disk) np)
    (parentNow now : UInt32) : fs.RenameCorrect disk old new parentNow now := by
  obtain ⟨_, _, hends⟩ := hlinks.ends h hold hnew
  rcases moveEntry_eq h.volume.shows h.forest hends.node_x hends.node_op hends.node_np hends.opDir
    hends.npDir hends.mem_old newName (h.dots x hends.node_x) (hends.ne_op h) parentNow now with
    ⟨hrun, _⟩ | ⟨hyes, _⟩
  · exact ⟨false, disk, (h.renamePath_eq hlinks parentNow now).trans hrun,
      fun q _ => (if_neg (by decide)).symm⟩
  · exact absurd hyes hroom

theorem renameCorrect_of_links (hcond : Names.Unshadowed oldName (fs.dirNames (fs.view g disk) op) ∧
      newName.bytes.length ≤ 255 ∧
      (((fs.view g disk).inode x).isDir = true → ¬ old.components <+: newParent.components))
    (hroom : fs.HasRoomFor g (fs.view g disk) np) (parentNow now : UInt32) :
    fs.RenameCorrect disk old new parentNow now := by
  obtain ⟨hshadow, hlen, hbelow⟩ := hcond
  obtain ⟨holdC, hnewC, hends⟩ := hlinks.ends h hold hnew
  have hbelow' : ¬ oldParent.components ++ [oldName] <+: newParent.components := by
    by_cases hdir : ((fs.view g disk).inode x).isDir = true
    · rw [← holdC]
      exact hbelow hdir
    · exact hends.not_below hdir
  obtain ⟨disk', v', hmove, h', hnodes', hmoves⟩ := hends.moves h hlen hbelow' hroom parentNow now
  have hleft := lookup_assign_zero.2 hshadow
  refine ⟨true, disk', (h.renamePath_eq hlinks parentNow now).trans hmove, fun q hq => ?_⟩
  rw [h'.resolveFrom_eq fun p c hp m hm => ?_, hmoves.walk_eq hleft hq]
  · unfold afterMove
    rw [holdC, hnewC, h.resolveFrom_eq, h.resolveFrom_eq]
    split
    · rfl
    · split <;> rfl
  have hplain : ∀ c ∈ p, PlainName c := fun d hd =>
    hq d (hp.subset (List.mem_append_left _ hd))
  exact hnodes' m (hmoves.reached hleft hplain hm)

/-- A correct rename with room in the new directory returns `true`. -/
theorem moved_of_renameCorrect (hroom : fs.HasRoomFor g (fs.view g disk) np)
    {parentNow now : UInt32} (hcorrect : fs.RenameCorrect disk old new parentNow now) :
    ∃ disk', fs.moveEntry disk x op np oldName newName ((fs.view g disk).inode x) parentNow now
        = .ok (true, disk') ∧
      ∀ q, (∀ c ∈ q, PlainName c) → fs.resolveFrom disk' 2 q
        = fs.afterMove disk old.components new.components q := by
  obtain ⟨ok, disk', hrun, hpaths⟩ := hcorrect
  obtain ⟨_, _, hends⟩ := hlinks.ends h hold hnew
  rw [h.renamePath_eq hlinks] at hrun
  rcases moveEntry_eq h.volume.shows h.forest hends.node_x hends.node_op hends.node_np hends.opDir
    hends.npDir hends.mem_old newName (h.dots x hends.node_x) (hends.ne_op h) parentNow now with
    ⟨_, hnone⟩ | ⟨_, disk₁, _, htrue, _⟩
  · exact absurd hroom hnone
  rw [htrue] at hrun
  cases hrun
  exact ⟨_, htrue, fun q hq => (hpaths q hq).trans (if_pos rfl)⟩

theorem condition_of_renameCorrect (hroom : fs.HasRoomFor g (fs.view g disk) np)
    {parentNow now : UInt32} (hcorrect : fs.RenameCorrect disk old new parentNow now) :
    Names.Unshadowed oldName (fs.dirNames (fs.view g disk) op) ∧ newName.bytes.length ≤ 255 ∧
      (((fs.view g disk).inode x).isDir = true → ¬ old.components <+: newParent.components) := by
  obtain ⟨holdC, hnewC, hends⟩ := hlinks.ends h hold hnew
  obtain ⟨disk', hmove, hpaths⟩ := moved_of_renameCorrect h hold hnew hlinks hroom hcorrect
  have hnewPath : fs.resolveFrom disk' 2 new.components = .ok (some x) := by
    rw [hpaths _ hnew.plain, afterMove, if_pos (List.prefix_refl _), List.drop_length,
      List.append_nil, holdC, h.resolveFrom_eq, hends.walk_old]
  have holdPath : ¬ new.components <+: old.components →
      fs.resolveFrom disk' 2 old.components = .ok none := by
    intro hpre
    rw [hpaths _ hold.plain, afterMove, if_neg hpre, if_pos (List.prefix_refl _)]
  have hbelow : ¬ old.components <+: newParent.components := by
    rintro ⟨s, hs⟩
    -- the new path would go through the old one, which is gone
    have hcat : new.components = old.components ++ (s ++ [newName]) := by
      rw [hnewC, ← hs, List.append_assoc]
    have hnone := holdPath fun hpre => by
      have hle := hpre.length_le
      rw [hcat, List.length_append, List.length_append, List.length_singleton] at hle
      omega
    rw [hcat, resolveFrom_append, hnone] at hnewPath
    cases hnewPath
  have hlen : newName.bytes.length ≤ 255 := by
    by_contra hlong
    rw [hnewC, resolveFrom_append] at hnewPath
    obtain ⟨found, _, hlast⟩ := bind_eq_ok.1 hnewPath
    cases found with
    | none => cases hlast
    | some m =>
      obtain ⟨r, hfind, hlast⟩ := bind_eq_ok.1 hlast
      rw [findDirEntry_long (by omega) hfind] at hlast
      cases hlast
  refine ⟨?_, hlen, fun _ => hbelow⟩
  rw [holdC] at hbelow
  obtain ⟨disk₁, v₁, hmove₁, h₁, hnodes₁, hmoves⟩ := hends.moves h hlen hbelow hroom parentNow now
  rw [hmove] at hmove₁
  cases hmove₁
  have hpre : ¬ new.components <+: old.components := by
    rw [holdC, hnewC]
    intro hpre
    have hnone := Tree.walk_eq_none_of_prefix hpre hmoves.walk_absent
    rw [hends.walk_old] at hnone
    cases hnone
  have hresolve := holdPath hpre
  rw [holdC, h₁.resolveFrom_eq fun p c hp m hm => ?_, hmoves.walk_old, Except.ok.injEq]
    at hresolve
  · exact lookup_assign_zero.1 hresolve
  -- the nodes on the way to the old directory are nodes of the old tree
  have hp' : p <+: oldParent.components := by
    rcases List.prefix_concat_iff.1 hp with heq | hlt
    · rw [(List.append_inj' heq rfl).1]
    · exact (List.prefix_append p [c]).trans hlt
  rw [hmoves.walk_toOld hp'] at hm
  exact hnodes₁ m ⟨p, fun d hd => hends.plainOld d (hp'.subset hd), hm⟩

end

/-- A rename of plain absolute paths on a tree is correct exactly under the
condition. -/
theorem rename_correct_iff (h : IsTree fs g disk) (hold : PlainPath old) (hnew : PlainPath new)
    (parentNow now : UInt32) :
    fs.RenameCorrect disk old new parentNow now ↔ fs.RenameCondition g disk old new := by
  constructor
  · intro hcorrect x op np oldParent oldName newParent newName hlinks hroom
    exact condition_of_renameCorrect h hold hnew hlinks hroom hcorrect
  · intro hcond
    by_cases hsome : ∃ x op np oldParent oldName newParent newName,
        Links fs g disk old new x op np oldParent oldName newParent newName
    · obtain ⟨x, op, np, oldParent, oldName, newParent, newName, hlinks⟩ := hsome
      by_cases hroom : fs.HasRoomFor g (fs.view g disk) np
      · exact renameCorrect_of_links h hold hnew hlinks (hcond _ _ _ _ _ _ _ hlinks hroom) hroom
          parentNow now
      · exact renameCorrect_of_no_room h hold hnew hlinks hroom parentNow now
    have hrun := h.renamePath_refused (fun x op np oldParent oldName newParent newName hlinks =>
      hsome ⟨x, op, np, oldParent, oldName, newParent, newName, hlinks⟩) parentNow now
    exact ⟨false, disk, hrun, fun q _ => (if_neg (by decide)).symm⟩

/-! ## Renames in the small volume -/

/-- A volume whose root directory holds no other directory is a tree. -/
theorem isTree_of_flat (hvol : fs.Volume g disk) (hd : fs.IsDir g (fs.view g disk) 2)
    (hdots : fs.HasDotdot (fs.view g disk) 2)
    (hflat : fs.FlatRoot (fs.view g disk)) : IsTree fs g disk := by
  have hroot : ∀ path n, Tree.walk (fs.look (fs.view g disk)) 2 path = some n →
      ((fs.view g disk).inode n).isDir = true → n = 2 := by
    intro path n hn hdir
    rcases hflat.ends hn with h2 | ⟨_, hfile⟩
    · exact h2
    · rw [hfile] at hdir
      cases hdir
  -- over plain names a walk ends in a directory only if it is empty
  have hempty : ∀ path n, (∀ c ∈ path, PlainName c) →
      Tree.walk (fs.look (fs.view g disk)) 2 path = some n →
      ((fs.view g disk).inode n).isDir = true → path = [] := by
    intro path n hplain hn hdir
    rcases List.eq_nil_or_concat path with hnil | ⟨init, c, heq⟩
    · exact hnil
    rw [List.concat_eq_append] at heq
    subst heq
    obtain ⟨m, hm, hmdir, hmem⟩ := exists_of_walk_concat hn
    have hc := hplain c (List.mem_append_right _ (List.mem_singleton_self c))
    rw [hroot init m hm hmdir] at hmem
    rcases hflat c n hmem with ⟨_, hdot | hdotdot⟩ | ⟨_, hfile⟩
    · exact absurd hdot hc.2.2.1
    · exact absurd hdotdot hc.2.2.2
    · rw [hfile] at hdir
      cases hdir
  have hnode : ∀ n, fs.PlainNode (fs.view g disk) n →
      ((fs.view g disk).inode n).isDir = true → n = 2 := by
    rintro n ⟨p, _, hp⟩ hdir
    exact hroot p n hp hdir
  refine ⟨hflat.wellFormed ⟨hvol, hd⟩, fun p q n hp hq hpn hqn hdir => ?_,
    fun n m hn hm hndir hmdir hne => ?_, fun n hn hdir => ?_⟩
  · rw [hempty p n hp hpn hdir, hempty q n hq hqn hdir]
  · exact absurd ((hnode n hn hndir).trans (hnode m hm hmdir).symm) hne
  · rw [hnode n hn hdir]
    exact hdots

theorem rootDisk_withFile : ∃ n disk, smallFs.createFilePath rootDisk pathA [1] (fun _ => 0) 0
        = .ok (true, disk) ∧ IsTree smallFs smallGeometry disk ∧
      smallFs.dirNames (smallFs.view smallGeometry disk) 2
        = [(.dot, 2), (.dotdot, 2), (nameA, n)] := by
  have hrun : (do
      let made ← smallFs.createFilePath rootDisk pathA [1] (fun _ => 0) 0
      let inode ← smallFs.readInode made.2 2
      .ok (made.1, dirBlocks inode,
        (blockNames smallFs.blockSize (smallFs.block made.2 7)).map Prod.fst))
        = .ok (true, [7, 9], [.dot, .dotdot]) := by decide +kernel
  obtain ⟨⟨_, disk⟩, hcreate, hrun⟩ := bind_eq_ok.1 hrun
  obtain ⟨inode, hinode, hrun⟩ := bind_eq_ok.1 hrun
  simp only [Except.ok.injEq, Prod.mk.injEq] at hrun
  obtain ⟨rfl, hblocks, hdots⟩ := hrun
  obtain ⟨n, _, _, _, hn, _, ⟨hvol, rfl⟩, hmade⟩ := rootDisk_isDirOn.made
    (show rootName pathA = some nameA by decide) (by decide) rootDisk_absent
    (show [(1 : UInt8)].length < 2 ^ 31 by decide) hcreate
  cases hinode.symm.trans (hvol.shows.readInode_eq ⟨by decide, by decide⟩)
  have hnames := hmade.names
  rw [show smallFs.dirNames (smallFs.view smallGeometry rootDisk) 2 = [(.dot, 2), (.dotdot, 2)]
    from congrArg DirState.names rootDisk_dirState] at hnames
  refine ⟨n, disk, hcreate, isTree_of_flat hvol hmade.dir ⟨7, [9], hblocks, ?_⟩ ?_, hnames⟩
  · rw [view_block (hmade.dir.data 7 (by rw [hblocks]; decide)).1, hdots]
    decide
  intro c m hmem
  rw [hnames] at hmem
  simp only [List.cons_append, List.nil_append, List.mem_cons, List.not_mem_nil, or_false] at hmem
  rcases hmem with ⟨rfl, rfl⟩ | ⟨rfl, rfl⟩ | ⟨_, rfl⟩
  · exact .inl ⟨rfl, .inl rfl⟩
  · exact .inl ⟨rfl, .inr rfl⟩
  · exact .inr ⟨⟨hn.1, Nat.le_of_lt hn.2⟩, hmade.file⟩

/-- `"/b"`. -/
def pathB : Str := ⟨[47, 98], by decide⟩

/-- A path with a name of 256 bytes. -/
def longPath : Str := ⟨47 :: List.replicate 256 98, by decide +kernel⟩

theorem rename_correct_rootDisk :
    ∃ disk, (smallVolume 2048).createFilePath rootDisk pathA [1] (fun _ => 0) 0
        = .ok (true, disk) ∧ (smallVolume 2048).RenameCorrect disk pathA pathB 0 0 := by
  obtain ⟨n, disk, hcreate, ht, hnames⟩ := rootDisk_withFile
  refine ⟨disk, hcreate, ?_⟩
  refine (rename_correct_iff ht ⟨by decide, by decide, by decide⟩
    ⟨by decide, by decide, by decide⟩ 0 0).2 ?_
  intro x op np oldParent oldName newParent newName hlinks _
  have hold := hlinks.splitOld.symm.trans (show splitPath pathA = some (.root, nameA) by decide)
  have hnew := hlinks.splitNew.symm.trans
    (show splitPath pathB = some (.root, ⟨[98], by decide⟩) by decide)
  cases hold
  cases hnew
  have hop := hlinks.oldDir
  cases hop
  refine ⟨?_, by decide, fun _ => by decide⟩
  rw [hnames, Names.Unshadowed, if_neg (by decide), Names.Unshadowed, if_neg (by decide),
    Names.Unshadowed, if_pos rfl, lookup_nil]

/-- A rename to a name of 256 bytes loses the file: the name is stored cut. -/
theorem rootDisk_loses_file :
    ∃ disk, (smallVolume 2048).createFilePath rootDisk pathA [1] (fun _ => 0) 0
        = .ok (true, disk) ∧ IsTree (smallVolume 2048) smallGeometry disk ∧
      PlainPath pathA ∧ PlainPath longPath ∧
      ¬ (smallVolume 2048).RenameCorrect disk pathA longPath 0 0 := by
  obtain ⟨n, disk, hcreate, ht, -⟩ := rootDisk_withFile
  have hnew : PlainPath longPath := ⟨by decide, by decide +kernel, by decide +kernel⟩
  have hrun : (do
      let made ← smallFs.createFilePath rootDisk pathA [1] (fun _ => 0) 0
      let moved ← smallFs.renamePath made.2 pathA longPath 0 0
      let found ← smallFs.resolveFrom moved.2 2 longPath.components
      let wanted ← smallFs.afterMove made.2 pathA.components longPath.components
        longPath.components
      .ok (moved.1, found, wanted)) = .ok (true, none, some 12) := by decide +kernel
  rw [hcreate, ok_bind] at hrun
  obtain ⟨⟨_, disk'⟩, hmove, hrun⟩ := bind_eq_ok.1 hrun
  obtain ⟨_, hfound, hrun⟩ := bind_eq_ok.1 hrun
  obtain ⟨_, hwanted, hrun⟩ := bind_eq_ok.1 hrun
  cases hrun
  refine ⟨disk, hcreate, ht, ⟨by decide, by decide, by decide⟩, hnew, ?_⟩
  rintro ⟨ok, disk', hmove', hall⟩
  cases hmove.symm.trans hmove'
  have hkept := hall _ hnew.plain
  rw [if_pos rfl, hwanted, hfound] at hkept
  cases hkept

end Ext2

end Felix
