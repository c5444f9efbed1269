import Felix.Base.Runs
import Felix.Ext2.DirNames

/-!
# Runs of additions and removals on one directory

`DirState` is what a well-formed directory is to its callers: the list of its
names and the number of names that it can still take.  `DirOp.step` is an
addition or a removal on that level, and `DirOp.refines` says that the driver
does the same to the directory on the disk.

Two contracts follow.  A removal makes its name absent exactly when no live
entry of that name stands behind the first one, dead or alive.  An addition
never uses the space that the records of the directory leave.
-/

namespace Felix

open Bytes Names

namespace Ext2

/-- A directory as a list of names. -/
structure DirState where
  names : List (Str × Nat)
  room : Nat

/-- A call on one directory. -/
inductive DirOp where
  | add (name : Str) (inodeNum : Nat) (fileType : UInt8)
  | remove (name : Str)

namespace DirOp

/-- The name that a call is about. -/
def name : DirOp → Str
  | .add name _ _ => name
  | .remove name => name

/-- What a lookup of the name should give after a successful call. -/
def outcome : DirOp → Option Nat
  | .add _ inodeNum _ => some inodeNum
  | .remove _ => none

/-- The call on the driver. -/
def run (fs : Ext2) (d : Nat) : DirOp → Disk → Res (Bool × Disk)
  | .add name inodeNum fileType, disk => fs.addDirEntry disk d name inodeNum fileType
  | .remove name, disk => fs.removeDirEntry disk d name

/-- The call on a list of names. -/
def step : DirOp → DirState → Bool × DirState
  | .add name inodeNum _, s =>
    if s.room = 0 then (false, s)
    else (true, ⟨s.names ++ [(storedName name, inodeNum)], s.room - 1⟩)
  | .remove name, s =>
    if name ∈ s.names.map Prod.fst then (true, { s with names := assign name 0 s.names })
    else (false, s)

/-- The names and numbers that a call can have. -/
def InRange : DirOp → Prop
  | .add name inodeNum _ =>
    name ≠ .empty ∧ name.bytes.length ≤ 255 ∧ inodeNum ≠ 0 ∧ inodeNum < 2 ^ 32
  | .remove name => name ≠ .empty ∧ name.bytes.length ≤ 255

/-- A name that is added is absent. -/
def Fresh : DirOp → DirState → Prop
  | .add name _ _, s => lookup s.names name = none
  | .remove _, _ => True

/-- A name that is removed has no live entry behind its first one. -/
def Unshadowed : DirOp → DirState → Prop
  | .add _ _ _, _ => True
  | .remove name, s => Names.Unshadowed name s.names

instance : DecidablePred InRange
  | .add _ _ _ => inferInstanceAs (Decidable (_ ∧ _ ∧ _ ∧ _))
  | .remove _ => inferInstanceAs (Decidable (_ ∧ _))

instance (op : DirOp) (s : DirState) : Decidable (op.Fresh s) :=
  match op with
  | .add _ _ _ => inferInstanceAs (Decidable (_ = _))
  | .remove _ => isTrue trivial

instance (op : DirOp) (s : DirState) : Decidable (op.Unshadowed s) :=
  match op with
  | .add _ _ _ => isTrue trivial
  | .remove name => inferInstanceAs (Decidable (Names.Unshadowed name s.names))

/-- A successful call has the outcome that it should have, and no call changes
what is found under another name. -/
structure Sees (op : DirOp) (s s' : DirState) (ok : Bool) : Prop where
  own : ok = true → lookup s'.names op.name = op.outcome
  others : ∀ other, other ≠ op.name → lookup s'.names other = lookup s.names other

/-- On a list of names, a call is right exactly when it meets the condition. -/
theorem step_sees_iff {op : DirOp} {s : DirState} (hrange : op.InRange) (hfresh : op.Fresh s) :
    op.Sees s (op.step s).2 (op.step s).1 ↔ op.Unshadowed s := by
  cases op with
  | add name inodeNum fileType =>
    refine ⟨fun _ => trivial, fun _ => ?_⟩
    obtain ⟨_, hlen, hpos, _⟩ := hrange
    rw [step]
    split
    · exact ⟨fun htrue => (nomatch htrue), fun _ _ => rfl⟩
    refine ⟨fun _ => ?_, fun other hother => ?_⟩
    · show lookup (s.names ++ _) name = some inodeNum
      have habsent : lookup s.names name = none := hfresh
      rw [lookup_append, habsent, Option.none_or, lookup_cons, if_pos ⟨storedName_eq hlen, hpos⟩]
    · have hne : ¬ (storedName name = other ∧ inodeNum ≠ 0) := by
        intro heq
        rw [storedName_eq hlen] at heq
        exact hother heq.1.symm
      rw [lookup_append, lookup_cons, if_neg hne, lookup_nil, Option.or_none]
  | remove name =>
    rw [step]
    split
    · constructor
      · intro hsees
        exact lookup_assign_zero.1 (hsees.own rfl)
      · intro hcond
        exact ⟨fun _ => lookup_assign_zero.2 hcond, fun other hother => lookup_assign_ne hother⟩
    rename_i habsent
    refine ⟨fun _ => unshadowed_of_not_mem habsent, fun _ => ?_⟩
    exact ⟨fun htrue => (nomatch htrue), fun _ _ => rfl⟩

end DirOp

variable {fs : Ext2} {g : Geometry} {disk : Disk} {d b : Nat} (f : Nat → Bytes) {name : Str}

/-! ## The driver refines the list of names -/

/-- How many names the directory can still take: each needs a block of its
own. -/
def dirRoom (fs : Ext2) (g : Geometry) (v : Vol) (d : Nat) : Nat :=
  min (12 - (dirBlocks (v.inode d)).length) (fs.freeBlocks v g)

/-- The directory as a list of names. -/
noncomputable def dirState (fs : Ext2) (g : Geometry) (d : Nat) (disk : Disk) : DirState where
  names := fs.dirNames (fs.view g disk) d
  room := fs.dirRoom g (fs.view g disk) d

/-- A well-formed directory of the volume on the disk. -/
structure IsDirOn (fs : Ext2) (g : Geometry) (d : Nat) (disk : Disk) : Prop where
  volume : fs.Volume g disk
  dir : fs.IsDir g (fs.view g disk) d

namespace IsDirOn

variable (h : IsDirOn fs g d disk)
include h

theorem findDirEntry_eq (name : Str) :
    fs.findDirEntry disk d name = .ok (lookup (fs.dirState g d disk).names name) :=
  IsDir.findDirEntry_eq h.volume.shows h.dir name

/-- A call does to the directory on the disk what it does to the list. -/
theorem refines (op : DirOp) (hrange : op.InRange) :
    ∃ disk', op.run fs d disk = .ok ((op.step (fs.dirState g d disk)).1, disk') ∧
      IsDirOn fs g d disk' ∧ fs.dirState g d disk' = (op.step (fs.dirState g d disk)).2 := by
  have hgood := h.volume.sound.mountable.size
  cases op with
  | add name inodeNum fileType =>
    obtain ⟨_, _, _, hinode⟩ := hrange
    rw [DirOp.step]
    rcases DirShape.addEntry_eq h.volume.shows h.dir.toDirShape
      (IsDir.addDirEntry_run h.volume.shows h.dir name inodeNum fileType) with
      ⟨hrun, hfull⟩ | ⟨b, disk', hrun, hlt, hdata, hfresh, ⟨hvol, hview⟩, hcount⟩
    · have hroom : (fs.dirState g d disk).room = 0 := by
        show min _ _ = 0
        omega
      rw [if_pos hroom]
      exact ⟨disk, hrun, h, rfl⟩
    obtain ⟨hdir, hblocks, hnames⟩ :=
      h.dir.withName hgood hlt hdata hfresh name hinode fileType
    change fs.freeBlocks (fs.withName _ d b name inodeNum fileType) g + 1 = _ at hcount
    rw [← hview] at hcount hdir hblocks hnames
    have hroom : (fs.dirState g d disk).room ≠ 0 := by
      show min _ _ ≠ 0
      omega
    have hroom' : (fs.dirState g d disk').room = (fs.dirState g d disk).room - 1 := by
      show min _ _ = min _ _ - 1
      rw [hblocks, List.length_append, List.length_singleton]
      omega
    rw [if_neg hroom]
    refine ⟨disk', hrun, ⟨hvol, hdir⟩, ?_⟩
    show DirState.mk _ (fs.dirState g d disk').room = _
    rw [hnames, hroom']
    rfl
  | remove name =>
    rw [DirOp.step]
    rcases IsDir.removeDirEntry_eq h.volume.shows h.dir name with
      ⟨habsent, hrun⟩ | ⟨hin, disk', b, f, hrun, _, hf, ⟨hvol, hview⟩, hnames⟩
    · change name ∉ (fs.dirState g d disk).names.map Prod.fst at habsent
      rw [if_neg habsent]
      exact ⟨disk, hrun, h, rfl⟩
    change name ∈ (fs.dirState g d disk).names.map Prod.fst at hin
    rw [← hview] at hnames
    have hroom : (fs.dirState g d disk').room = (fs.dirState g d disk).room := by
      show fs.dirRoom g _ d = fs.dirRoom g _ d
      rw [hview]
      rfl
    rw [if_pos hin]
    refine ⟨disk', hrun, ⟨hvol, ?_⟩, ?_⟩
    · rw [hview]
      exact h.dir.setBlock hf
    · show DirState.mk _ (fs.dirState g d disk').room = _
      rw [hnames, hroom]
      rfl

/-- A property of the list of names along a run of calls. -/
theorem every_iff (p : DirOp → DirState → Prop) {ops : List DirOp}
    (hrange : ∀ op ∈ ops, op.InRange) :
    Every (DirOp.run fs d) (fun op disk => p op (fs.dirState g d disk)) ops disk
      ↔ EverySteps DirOp.step p ops (fs.dirState g d disk) :=
  every_refines (fs.dirState g d) (IsDirOn fs g d) DirOp.InRange
    (fun op _ hs hop => hs.refines op hop) p h hrange

end IsDirOn

/-! ## Runs -/

/-- A call with a name and a number that it can have, where a name that is
added is not found. -/
def DirOp.Allowed (fs : Ext2) (d : Nat) (op : DirOp) (disk : Disk) : Prop :=
  op.InRange ∧ match op with
    | .add name _ _ => fs.findDirEntry disk d name = .ok none
    | .remove _ => True

/-- The call returns, a successful one has the outcome that it should have, and
what is found under another name is as before. -/
def DirOp.Correct (fs : Ext2) (d : Nat) (op : DirOp) (disk : Disk) : Prop :=
  ∃ ok disk', op.run fs d disk = .ok (ok, disk') ∧
    (ok = true → fs.findDirEntry disk' d op.name = .ok op.outcome) ∧
    ∀ other, other ≠ op.name → fs.findDirEntry disk' d other = fs.findDirEntry disk d other

/-- No live record of a name that is removed stands behind the first record of
that name. -/
def DirOp.Condition (fs : Ext2) (g : Geometry) (d : Nat) (op : DirOp) (disk : Disk) : Prop :=
  op.Unshadowed (fs.dirState g d disk)

section

variable (h : IsDirOn fs g d disk) {op : DirOp}
include h

theorem IsDirOn.allowed_iff (op : DirOp) :
    DirOp.Allowed fs d op disk ↔ op.InRange ∧ op.Fresh (fs.dirState g d disk) := by
  refine and_congr Iff.rfl ?_
  cases op with
  | add name inodeNum fileType =>
    show fs.findDirEntry disk d name = .ok none
      ↔ lookup (fs.dirState g d disk).names name = none
    rw [h.findDirEntry_eq, Except.ok.injEq]
  | remove name => exact Iff.rfl

/-- A call that returns leaves a well-formed directory. -/
theorem IsDirOn.kept (hrange : op.InRange) {ok : Bool}
    {disk' : Disk} (hrun : op.run fs d disk = .ok (ok, disk')) : IsDirOn fs g d disk' := by
  obtain ⟨disk₁, hrun₁, hdir₁, _⟩ := h.refines op hrange
  rw [hrun] at hrun₁
  cases hrun₁
  exact hdir₁

/-- One call is right exactly when it meets the condition. -/
theorem IsDirOn.correct_iff (hallowed : DirOp.Allowed fs d op disk) :
    DirOp.Correct fs d op disk ↔ DirOp.Condition fs g d op disk := by
  obtain ⟨disk', hrun, hdir', hstate⟩ := h.refines op hallowed.1
  have hsees := DirOp.step_sees_iff hallowed.1 ((h.allowed_iff op).1 hallowed).2
  unfold DirOp.Condition
  rw [← hsees, ← hstate]
  constructor
  · rintro ⟨ok, disk₁, hrun₁, hown, hothers⟩
    rw [hrun] at hrun₁
    cases hrun₁
    refine ⟨fun htrue => ?_, fun other hother => ?_⟩
    · have hfind := hown htrue
      rw [hdir'.findDirEntry_eq] at hfind
      exact Except.ok.inj hfind
    · have hfind := hothers other hother
      rw [hdir'.findDirEntry_eq, h.findDirEntry_eq] at hfind
      exact Except.ok.inj hfind
  · intro hs
    refine ⟨_, disk', hrun, fun htrue => ?_, fun other hother => ?_⟩
    · rw [hdir'.findDirEntry_eq, hs.own htrue]
    · rw [hdir'.findDirEntry_eq, h.findDirEntry_eq, hs.others other hother]

/-- A run of calls on a well-formed directory is right exactly when every
removal in it meets the condition. -/
theorem dirRun_correct_iff {ops : List DirOp}
    (hallowed : Every (DirOp.run fs d) (DirOp.Allowed fs d) ops disk) :
    Every (DirOp.run fs d) (DirOp.Correct fs d) ops disk
      ↔ Every (DirOp.run fs d) (DirOp.Condition fs g d) ops disk := by
  exact every_congr (IsDirOn fs g d) (fun _ _ _ _ hs hop hrun => hs.kept hop.1 hrun)
    (fun _ _ hs hop => hs.correct_iff hop) h hallowed

end

/-! ## The space between the records -/

/-- A record leaves enough space for a record of the name, or it is deleted and
long enough itself. -/
def HasSpace (fs : Ext2) (v : Vol) (d : Nat) (name : Str) : Prop :=
  ∃ b ∈ dirBlocks (v.inode d), ∃ r ∈ records fs.blockSize (v.block b),
    Ext2DirEntry.minLen r.2.nameLen.toNat + Ext2DirEntry.minLen name.bytes.length
      ≤ r.2.recLen.toNat ∨
    r.2.inode = 0 ∧ Ext2DirEntry.minLen name.bytes.length ≤ r.2.recLen.toNat

/-- An addition uses such space: it succeeds without a new block when there is
some, and with free blocks on the disk it fails only when there is none. -/
def UsesSpace (fs : Ext2) (g : Geometry) (d : Nat) (disk : Disk) (name : Str) (inodeNum : Nat)
    (fileType : UInt8) : Prop :=
  (fs.HasSpace (fs.view g disk) d name →
    ∃ disk', fs.addDirEntry disk d name inodeNum fileType = .ok (true, disk') ∧
      (fs.view g disk').blockMap = (fs.view g disk).blockMap) ∧
  (fs.freeBlocks (fs.view g disk) g ≠ 0 →
    ∀ disk', fs.addDirEntry disk d name inodeNum fileType = .ok (false, disk') →
      ¬ fs.HasSpace (fs.view g disk) d name)

/-- An addition that succeeds takes a block. -/
theorem IsDirOn.add_takes_block (h : IsDirOn fs g d disk) {inodeNum : Nat}
    {fileType : UInt8} {disk' : Disk}
    (hrun : fs.addDirEntry disk d name inodeNum fileType = .ok (true, disk')) :
    (fs.view g disk').blockMap ≠ (fs.view g disk).blockMap := by
  rcases DirShape.addEntry_eq h.volume.shows h.dir.toDirShape
      (IsDir.addDirEntry_run h.volume.shows h.dir name inodeNum fileType) with
    ⟨hfalse, _⟩ | ⟨b, disk₁, htrue, _, _, _, h', hcount⟩
  · rw [hrun] at hfalse
    cases hfalse
  rw [hrun] at htrue
  cases htrue
  intro heq
  rw [h'.view] at heq
  change ((fs.view g disk).takeBlock b).blockMap = _ at heq
  unfold freeBlocks at hcount
  rw [heq] at hcount
  omega

theorem IsDirOn.not_usesSpace (h : IsDirOn fs g d disk)
    (hspace : fs.HasSpace (fs.view g disk) d name) (inodeNum : Nat) (fileType : UInt8) :
    ¬ fs.UsesSpace g d disk name inodeNum fileType := by
  rintro ⟨huses, _⟩
  obtain ⟨disk', hrun, hsame⟩ := huses hspace
  exact h.add_takes_block hrun hsame

/-- The driver never uses the space that the records of a directory leave. -/
theorem usesSpace_iff (h : IsDirOn fs g d disk) (name : Str) (inodeNum : Nat) (fileType : UInt8) :
    fs.UsesSpace g d disk name inodeNum fileType
      ↔ ¬ fs.HasSpace (fs.view g disk) d name := by
  refine ⟨fun huses hspace => h.not_usesSpace hspace inodeNum fileType huses, fun hnone => ?_⟩
  exact ⟨fun hspace => absurd hspace hnone, fun _ _ _ => hnone⟩

/-! ## A root directory -/

/-- A root inode with one block. -/
def rootInode (b : Nat) : Ext2Inode :=
  { Ext2Inode.zeroed with iMode := 0x41ED, iSize := 2048, iBlocks := 4 }.setPtr 0
    (UInt32.ofNat b)

/-- The small volume with a root directory whose block `b` holds `f b`. -/
def rootDiskWith (f : Nat → Bytes) : Disk :=
  (do
    let (b, disk) ← (smallVolume 2048).allocBlock (smallDisk 2048)
    let disk ← (smallVolume 2048).writeInode disk 2 (rootInode (b.getD 0))
    (smallVolume 2048).writeBlocks disk (b.getD 0) (f (b.getD 0)) 1 : Res Disk).toOption.getD
    (smallDisk 2048)

/-- The small volume with a root directory that holds `.` and `..`. -/
def rootDisk : Disk := rootDiskWith fun _ => dotsBlock 2 2 2036

theorem rootInode_blocks (hb : (UInt32.ofNat b).toNat = b)
    (hpos : UInt32.ofNat b ≠ 0) : dirBlocks (rootInode b) = [b] ∧
      ∀ i, 1 ≤ i → (rootInode b).ptr i = 0 := by
  have hself : (rootInode b).ptr 0 = UInt32.ofNat b := Ext2Inode.ptr_setPtr_self (by decide)
  have hother : ∀ i, 1 ≤ i → (rootInode b).ptr i = 0 := by
    intro i hi
    refine (Ext2Inode.ptr_setPtr_ne (by omega)).trans ?_
    exact Ext2Inode.ptr_zeroed i
  refine ⟨?_, hother⟩
  rw [dirBlocks_eq (by decide) (fun i hi => ?_) (fun _ => hother 1 (Nat.le_refl 1))]
  · rw [List.range_one, List.map_singleton, hself, hb]
  · rw [Nat.lt_one_iff.1 hi]
    exact hpos

/-- The root directory of a small volume is block `b` with the bytes `f`. -/
structure RootAt (disk : Disk) (f : Bytes) (b : Nat) : Prop where
  data : smallFs.DataBlock smallGeometry b
  volume : smallFs.Volume smallGeometry disk
  inode : (smallFs.view smallGeometry disk).inode 2 = rootInode b
  block : (smallFs.view smallGeometry disk).block b = cut 2048 f
  marked : smallFs.Marked (smallFs.view smallGeometry disk) smallGeometry b
  free : 56 ≤ smallFs.freeBlocks (smallFs.view smallGeometry disk) smallGeometry

theorem RootAt.blocks {disk : Disk} {f : Bytes} (h : RootAt disk f b) :
    dirBlocks (rootInode b) = [b] ∧ ∀ i, 1 ≤ i → (rootInode b).ptr i = 0 :=
  rootInode_blocks (h.volume.toNat_ofNat h.data) (h.volume.ofNat_ne_zero h.data)

theorem rootDiskWith_spec : ∃ b, RootAt (rootDiskWith f) (f b) b := by
  have hfree := smallVolume_freeBlocks
  rcases smallVolume_volume.shows.allocBlock_fresh with ⟨_, hfull⟩ |
    ⟨b, disk₁, hsome, hdata, _, h₁, hcount⟩
  · omega
  obtain ⟨disk₂, hwrite, h₂⟩ := h₁.writeInode_eq (n := 2) ⟨by decide, by decide⟩ (rootInode b)
  obtain ⟨disk₃, hblock, h₃⟩ := h₂.writeBlock_eq hdata (f b)
  have hdisk : rootDiskWith f = disk₃ := by
    unfold rootDiskWith
    rw [hsome, Res.ok_bind]
    simp only [Option.getD_some]
    rw [hwrite, Res.ok_bind, hblock]
    rfl
  rw [hdisk]
  refine ⟨b, hdata, h₃.toVolume, ?_, ?_, ?_, ?_⟩
  all_goals rw [h₃.view]
  · rw [Vol.setBlock_inode, Vol.setInode_inode_self]
  · exact Vol.setBlock_block_self ..
  · exact marked_takeBlock b
  · show 56 ≤ smallFs.freeBlocks
      ((smallFs.view smallGeometry (smallDisk 2048)).takeBlock b) smallGeometry
    omega

theorem rootDisk_spec : ∃ b, RootAt rootDisk (dotsBlock 2 2 2036) b := rootDiskWith_spec _

/-- The root directory is in order, whatever its block holds. -/
theorem rootDiskWith_dirShape : smallFs.DirShape smallGeometry
      (smallFs.view smallGeometry (rootDiskWith f)) 2 := by
  obtain ⟨b, hroot⟩ := rootDiskWith_spec f
  obtain ⟨hblocks, hother⟩ := hroot.blocks
  refine ⟨⟨by decide, by decide⟩, ?_, ?_, ?_, ?_, ?_, ?_⟩
  all_goals rw [hroot.inode]
  · show decide ((0x41ED : UInt16) &&& 0xF000 = 0x4000) = true
    decide
  · rw [hblocks]
    exact fun i hi _ => hother i hi
  · rw [hblocks, List.forall_mem_singleton]
    exact ⟨hroot.data, hroot.marked⟩
  · rw [hblocks]
    exact List.nodup_singleton b
  · rw [hblocks]
    show 2048 + 11 * 2048 < 2 ^ 32
    decide
  rw [hblocks]
  show 4 + 11 * (2048 / 512) < 2 ^ 32
  decide

theorem rootDisk_isDirOn : IsDirOn smallFs smallGeometry 2 rootDisk := by
  obtain ⟨b, h⟩ := rootDisk_spec
  refine ⟨h.volume, rootDiskWith_dirShape _, ?_⟩
  rw [h.inode, h.blocks.1, List.forall_mem_singleton, h.block]
  exact dirBlock_dotsBlock h.volume.sound.mountable.size 2 2

theorem rootDisk_dirState : smallFs.dirState smallGeometry 2 rootDisk
      = ⟨[(.dot, 2), (.dotdot, 2)], 11⟩ := by
  obtain ⟨b, h⟩ := rootDisk_spec
  have hfree := h.free
  have hnames : smallFs.dirNames (smallFs.view smallGeometry rootDisk) 2
      = [(.dot, 2), (.dotdot, 2)] := by
    unfold dirNames
    rw [h.inode, h.blocks.1, namesIn, List.flatMap_singleton, h.block]
    exact blockNames_dotsBlock h.volume.sound.mountable.size 2 2 (by decide) (by decide)
  have hroom : smallFs.dirRoom smallGeometry
      (smallFs.view smallGeometry rootDisk) 2 = 11 := by
    unfold dirRoom
    rw [h.inode, h.blocks.1, List.length_singleton]
    omega
  unfold dirState
  rw [hnames, hroom]

/-- `"a"`. -/
def nameA : Str := ⟨[97], by decide⟩

/-- A run on the root directory is allowed when it is on the list of names. -/
theorem rootDisk_allowed {ops : List DirOp} (hrange : ∀ op ∈ ops, op.InRange)
    (hfresh : EverySteps DirOp.step DirOp.Fresh ops ⟨[(.dot, 2), (.dotdot, 2)], 11⟩) :
    Every (DirOp.run smallFs 2) (DirOp.Allowed smallFs 2) ops
      rootDisk := by
  have hsim := rootDisk_isDirOn.every_iff DirOp.Fresh hrange
  rw [rootDisk_dirState] at hsim
  refine (every_congr _ (fun _ _ _ _ hs hop hrun => hs.kept hop hrun)
    (fun op s hs hop => ?_) rootDisk_isDirOn (every_of_forall hrange)).2 (hsim.2 hfresh)
  rw [hs.allowed_iff op]
  exact and_iff_right hop

theorem dirRun_correct_rootDisk :
    Every (DirOp.run (smallVolume 2048) 2) (DirOp.Correct (smallVolume 2048) 2)
      [.add nameA 13 1, .remove nameA] rootDisk := by
  have hsim := rootDisk_isDirOn.every_iff DirOp.Unshadowed
    (show ∀ op ∈ [DirOp.add nameA 13 1, .remove nameA], op.InRange by decide)
  rw [rootDisk_dirState] at hsim
  exact (dirRun_correct_iff rootDisk_isDirOn
    (rootDisk_allowed (by decide) (by decide +kernel))).2 (hsim.2 (by decide +kernel))

/-- A name is added, removed, added again and removed again: the second removal
finds the record that the first one left, and the live one stays. -/
theorem rootDisk_removed_twice :
    Every (DirOp.run (smallVolume 2048) 2) (DirOp.Allowed (smallVolume 2048) 2)
        [.add nameA 13 1, .remove nameA, .add nameA 14 1, .remove nameA] rootDisk ∧
      ¬ Every (DirOp.run (smallVolume 2048) 2) (DirOp.Correct (smallVolume 2048) 2)
        [.add nameA 13 1, .remove nameA, .add nameA 14 1, .remove nameA] rootDisk := by
  have hrange : ∀ op ∈ [DirOp.add nameA 13 1, .remove nameA, .add nameA 14 1, .remove nameA],
      op.InRange := by decide
  have hallowed := rootDisk_allowed hrange (by decide +kernel)
  have hsim := rootDisk_isDirOn.every_iff DirOp.Unshadowed hrange
  rw [rootDisk_dirState] at hsim
  refine ⟨hallowed, fun hcorrect => ?_⟩
  have hcond := (every_congr _ (fun _ _ _ _ hs hop hrun => IsDirOn.kept hs hop.1 hrun)
    (fun _ _ hs hop => IsDirOn.correct_iff hs hop) rootDisk_isDirOn hallowed).1 hcorrect
  exact absurd (hsim.1 hcond) (by decide +kernel)

theorem rootDisk_hasSpace : smallFs.HasSpace (smallFs.view smallGeometry rootDisk) 2 nameA := by
  obtain ⟨b, h⟩ := rootDisk_spec
  have hrecords := records_eq (chain_dotsBlock h.volume.sound.mountable.size 2 2)
  unfold HasSpace
  rw [h.inode, h.blocks.1]
  refine ⟨b, List.mem_singleton_self b, ?_⟩
  rw [h.block]
  refine ⟨(12, ⟨2, 2036, 2, 2⟩), ?_, .inl (by decide)⟩
  exact List.mem_cons_of_mem _ (List.mem_singleton_self _)

theorem usesSpace_iff_rootDisk : (smallVolume 2048).UsesSpace smallGeometry 2 rootDisk nameA 13 1
      ↔ ¬ (smallVolume 2048).HasSpace ((smallVolume 2048).view smallGeometry rootDisk) 2 nameA :=
  usesSpace_iff rootDisk_isDirOn nameA 13 1

/-- The record of `..` takes the rest of the block of the root directory, and
one more name still gets a new block. -/
theorem rootDisk_wastes : IsDirOn (smallVolume 2048) smallGeometry 2 rootDisk ∧
      (smallVolume 2048).findDirEntry rootDisk 2 nameA = .ok none ∧
      (smallVolume 2048).HasSpace ((smallVolume 2048).view smallGeometry rootDisk) 2 nameA ∧
      ¬ (smallVolume 2048).UsesSpace smallGeometry 2 rootDisk nameA 13 1 := by
  refine ⟨rootDisk_isDirOn, ?_, rootDisk_hasSpace,
    rootDisk_isDirOn.not_usesSpace rootDisk_hasSpace 13 1⟩
  decide +kernel

end Ext2

end Felix
