import Felix.Base.Str

/-!
# The mount table

`VfsInner` is the state of `kernel/src/filesystem/vfs.rs`: the root file system
and the mounts, each with the id under which inode numbers refer to it.  A file
system is a handle of an arbitrary type, as the code only holds boxed trait
objects.  Paths are byte strings; the code cuts a path only after a prefix that
is itself a string, so no cut falls inside a character.

`resolve` and `resolve_mut` are two copies of one search loop and are both
written out.  The calls that take an inode number return the method call they
make, or `none` where they fail without one.

The copy of the mount points that `/proc/mounts` reads is left out.
-/

namespace Felix.Vfs

variable {F : Type}

structure Mount (F : Type) where
  point : List UInt8
  fsId : UInt8
  fs : F
  deriving DecidableEq

structure VfsInner (F : Type) where
  rootFs : Option F
  mounts : List (Mount F)
  nextFsId : UInt8
  deriving DecidableEq

variable (inner : VfsInner F)

namespace VfsInner

def new : VfsInner F := ⟨none, [], 1⟩

def setRoot (fs : F) : VfsInner F := { inner with rootFs := some fs }

/-! ## Mounting -/

/-- The loop of `alloc_mount_id`, with the number of tries left. -/
def allocMountIdLoop (inner : VfsInner F) : Nat → Option UInt8 × VfsInner F
  | 0 => (none, inner)
  | tries + 1 =>
    let id := if inner.nextFsId = 0 then 1 else inner.nextFsId
    let inner := { inner with nextFsId := id + 1 }
    if inner.mounts.any fun m => m.fsId = id then allocMountIdLoop inner tries
    else (some id, inner)

def allocMountId : Option UInt8 × VfsInner F :=
  allocMountIdLoop inner 255

def mount (mountPoint : List UInt8) (fs : F) : VfsInner F :=
  if mountPoint.head? ≠ some slash then inner
  else if inner.mounts.any fun m => m.point = mountPoint then inner
  else match inner.allocMountId with
    | (none, inner) => inner
    | (some fsId, inner) => { inner with mounts := inner.mounts ++ [⟨mountPoint, fsId, fs⟩] }

def unmount (mountPoint : List UInt8) : Bool × VfsInner F :=
  let before := inner.mounts.length
  let mounts := inner.mounts.filter fun m => m.point ≠ mountPoint
  (mounts.length < before, { inner with mounts })

/-! ## Resolving a path -/

end VfsInner

/-- `is_mount_prefix`: `/dev` matches `/dev` and `/dev/sda`, but not `/devfoo`. -/
def isMountPrefix (path mp : List UInt8) : Bool :=
  if mp = [slash] then true
  else path = mp || mp.isPrefixOf path && path[mp.length]? = some slash

/-- The file system, the path inside it and the id of the mount, which is 0 for the
root.  The root file system must be set. -/
def resolve (path : List UInt8) : Res (F × List UInt8 × UInt8) :=
  let path := if path.isEmpty then [slash] else path
  match inner.rootFs with
  | none => .error .assertion
  | some rootFs =>
    let best := inner.mounts.foldl (fun best mount =>
      if isMountPrefix path mount.point && decide (mount.point.length > best.point.length)
      then mount else best) ⟨[slash], 0, rootFs⟩
    let relative :=
      if path = best.point then [slash]
      else if best.point.isPrefixOf path && best.point ≠ [slash] then
        path.drop best.point.length
      else path
    .ok (best.fs, relative, best.fsId)

/-- The copy of `resolve` that gives a mutable reference. -/
def resolveMut (path : List UInt8) : Res (F × List UInt8 × UInt8) :=
  let path := if path.isEmpty then [slash] else path
  match inner.rootFs with
  | none => .error .assertion
  | some rootFs =>
    let best := inner.mounts.foldl (fun best mount =>
      if isMountPrefix path mount.point && decide (mount.point.length > best.point.length)
      then mount else best) ⟨[slash], 0, rootFs⟩
    let relative :=
      if path = best.point then [slash]
      else if best.point.isPrefixOf path && best.point ≠ [slash] then
        path.drop best.point.length
      else path
    .ok (best.fs, relative, best.fsId)

/-! ## Inode numbers -/

/-- The id of the mount in the upper 8 bits, the inode of the file system in the
lower 24. -/
def globalInode (fsId : UInt8) (localInode : UInt32) : UInt32 :=
  (fsId.toUInt32 <<< 24) ||| (localInode &&& 0x00FFFFFF)

/-- `Vfs::resolve_path`, where `lookup` is the method of that name of the file
systems. -/
def resolvePath (lookup : F → List UInt8 → Option UInt32) (inner : VfsInner F)
    (path : List UInt8) : Res (Option UInt32) := do
  let (fs, relPath, fsId) ← resolve inner path
  pure ((lookup fs relPath).map (globalInode fsId))

/-- A method call on a file system. -/
inductive Call (F : Type) where
  | readAt (fs : F) (inode : UInt32) (offset : UInt64) (len : Nat)
  | writeAt (fs : F) (inode : UInt32) (offset : UInt64) (buf : List UInt8)
  | metadataInode (fs : F) (inode : UInt32)
  deriving DecidableEq

/-- The file system that an inode number names and the inode there. -/
def target (globalInode : UInt32) : Option (F × UInt32) :=
  let fsId := (globalInode >>> 24).toUInt8
  let localInode := globalInode &&& 0x00FFFFFF
  if fsId = 0 then inner.rootFs.map fun fs => (fs, localInode)
  else (inner.mounts.find? fun m => m.fsId = fsId).map fun m => (m.fs, localInode)

def readAt (globalInode : UInt32) (offset : UInt64) (len : Nat) : Option (Call F) :=
  (target inner globalInode).map fun (fs, inode) => .readAt fs inode offset len

def writeAt (globalInode : UInt32) (offset : UInt64) (buf : List UInt8) : Option (Call F) :=
  (target inner globalInode).map fun (fs, inode) => .writeAt fs inode offset buf

def metadataInode (globalInode : UInt32) : Option (Call F) :=
  (target inner globalInode).map fun (fs, inode) => .metadataInode fs inode

end Felix.Vfs
