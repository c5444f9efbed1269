import Mathlib.Algebra.GroupWithZero.Nat
import Mathlib.Logic.Function.Basic
import Felix.Base.Shared

/-!
# File descriptors

`kernel/src/filesystem/file.rs` and the system calls that change descriptor tables.
A table has 64 slots, each with a descriptor and a reference to an open file
description.  The description keeps the offset, the directory cookie and the status
flags, and is shared by an `Arc`: `strong` is its count, which grows with `clone` and
falls when a slot drops its reference.  Descriptions are numbered as they are made.
`origin` is the descriptor that a description was made from, which the source does
not keep.

Pipe ends, pty sides and sockets are resources.  A call returns the resources that
it acquired and the ones that it released; the objects themselves are left out, and
so are failures to create one, after which no table changes.  A task that has exited
makes no calls.
-/

namespace Felix.Fd

open Function

inductive FileMode where
  | readOnly
  | writeOnly
  | readWrite
  deriving DecidableEq

inductive PipeEnd where
  | read
  | write
  deriving DecidableEq

inductive PtySide where
  | master
  | slave
  deriving DecidableEq

inductive DeviceKind where
  | block
  | char
  deriving DecidableEq

inductive FileDescriptor where
  | consoleIn
  | consoleOut
  | file (inode offset : Nat) (mode : FileMode)
  | socket (socketId : Nat)
  | pipe (pipeId : Nat) (pipeEnd : PipeEnd)
  | pty (ptyId : Nat) (side : PtySide)
  | device (inode offset : Nat) (mode : FileMode) (kind : DeviceKind)
  | dir (path : List UInt8) (cookie : Nat)
  deriving DecidableEq

def FileDescriptor.initialOffset : FileDescriptor → Nat
  | .file _ offset _ | .device _ offset _ _ => offset
  | _ => 0

def FileDescriptor.initialCookie : FileDescriptor → Nat
  | .dir _ cookie => cookie
  | _ => 0

/-- What must be given back when a description goes. -/
inductive Resource where
  | socket (socketId : Nat)
  | pipe (pipeId : Nat) (pipeEnd : PipeEnd)
  | pty (ptyId : Nat) (side : PtySide)
  deriving DecidableEq

def FileDescriptor.resource : FileDescriptor → Option Resource
  | .socket socketId => some (.socket socketId)
  | .pipe pipeId pipeEnd => some (.pipe pipeId pipeEnd)
  | .pty ptyId side => some (.pty ptyId side)
  | _ => none

structure OpenFileDescription where
  offset : Nat
  dirCookie : Nat
  statusFlags : Nat
  strong : Nat
  origin : FileDescriptor

structure ClosedFileDescriptor where
  desc : FileDescriptor
  lastOpenRef : Bool

structure FileDescriptorTable where
  fds : Fin 64 → Option FileDescriptor
  ofds : Fin 64 → Option Nat

def FileDescriptorTable.new : FileDescriptorTable := ⟨fun _ => none, fun _ => none⟩

/-- The tables of the tasks, the tasks that have exited, and the descriptions. -/
structure Kernel (n : Nat) where
  tables : Fin n → Option FileDescriptorTable
  exited : Fin n → Bool
  ofd : Nat → OpenFileDescription
  nextOfd : Nat

variable {n : Nat} (k : Kernel n) (t : Fin n)

instance fds_ne_zero : NeZero 64 := ⟨by decide⟩

namespace Kernel

/-! ## Slots -/

/-- The descriptor of a slot. -/
def get (fd : Fin 64) : Option FileDescriptor :=
  (k.tables t).bind fun table => table.fds fd

/-- The description of a slot. -/
def slot (p : Fin n × Fin 64) : Option Nat :=
  (k.tables p.1).bind fun table => table.ofds p.2

def write (fd : Fin 64) (desc : Option FileDescriptor) (ofd : Option Nat) : Kernel n :=
  match k.tables t with
  | none => k
  | some table =>
    { k with tables := update k.tables t (some ⟨update table.fds fd desc,
        update table.ofds fd ofd⟩) }

/-- A change of the count of a description. -/
def recount (d : Nat) (f : Nat → Nat) : Kernel n :=
  { k with ofd := update k.ofd d { k.ofd d with strong := f (k.ofd d).strong } }

/-- The slot drops its reference and becomes empty. -/
def clear (fd : Fin 64) : Kernel n :=
  match k.slot (t, fd) with
  | none => k.write t fd none none
  | some d => (k.recount d fun count => count - 1).write t fd none none

/-- A descriptor with a description of its own, in place of what the slot held. -/
def putNew (fd : Fin 64) (desc : FileDescriptor) : Kernel n :=
  let k := k.clear t fd
  let id := k.nextOfd
  let k := { k with
    ofd := update k.ofd id ⟨desc.initialOffset, desc.initialCookie, 0, 1, desc⟩
    nextOfd := id + 1 }
  k.write t fd (some desc) (some id)

/-- A descriptor that shares a description, in place of what the slot held. -/
def putShared (fd : Fin 64) (desc : FileDescriptor) (d : Nat) : Kernel n :=
  ((k.clear t fd).recount d fun count => count + 1).write t fd (some desc) (some d)

/-! ## Tables -/

def allocFd : Option (Fin 64) :=
  (List.finRange 64).find? fun fd => (k.get t fd).isNone

/-- `clone_entry`, without the count. -/
def entry (fd : Nat) : Option (FileDescriptor × Nat) :=
  if h : fd < 64 then
    match k.get t ⟨fd, h⟩, k.slot (t, ⟨fd, h⟩) with
    | some desc, some d => some (desc, d)
    | _, _ => none
  else none

def insert (fd : Fin 64) (desc : FileDescriptor) : Bool × Kernel n :=
  if (k.get t fd).isSome then (false, k) else (true, k.putNew t fd desc)

/-- `close` of a table. -/
def close (fd : Fin 64) : Option ClosedFileDescriptor × Kernel n :=
  match k.get t fd with
  | none => (none, k)
  | some desc =>
    let lastOpenRef := match k.slot (t, fd) with
      | some d => decide ((k.ofd d).strong = 1)
      | none => true
    (some ⟨desc, lastOpenRef⟩, k.clear t fd)

/-- The loop of `take_all`. -/
def takeLoop (k : Kernel n) (t : Fin n) : List (Fin 64) → List ClosedFileDescriptor × Kernel n
  | [] => ([], k)
  | fd :: fds =>
    let (closed, k) := k.close t fd
    let (rest, k) := k.takeLoop t fds
    (closed.toList ++ rest, k)

def takeAll : List ClosedFileDescriptor × Kernel n :=
  k.takeLoop t (List.finRange 64)

/-- `dup2` of a table. -/
def dup2 (old new : Nat) : Bool × Kernel n :=
  if h : new < 64 then
    match k.entry t old with
    | none => (false, k)
    | some (desc, d) => if old = new then (true, k) else (true, k.putShared t ⟨new, h⟩ desc d)
  else (false, k)

/-- `with_stdio`, in a slot without a task. -/
def withStdio : Kernel n :=
  let k := { k with tables := update k.tables t (some .new) }
  let (_, k) := k.insert t 0 .consoleIn
  let (_, k) := k.insert t 1 .consoleOut
  let (_, k) := k.insert t 2 .consoleOut
  k

def installChildFd (parent child : Fin n) (childFd : Fin 64) (parentFd : Int)
    (default : FileDescriptor) : Kernel n :=
  if parentFd < 0 then k.putNew child childFd default
  else
    match k.entry parent parentFd.toNat with
    | some (desc, d) => k.putShared child childFd desc d
    | none => k.putNew child childFd default

end Kernel

/-! ## System calls -/

/-- The resources that a call acquired and released. -/
structure Effects where
  acquired : List Resource
  released : List Resource

def Effects.none : Effects := ⟨[], []⟩

def closeDescriptor (closed : ClosedFileDescriptor) : List Resource :=
  if closed.lastOpenRef then closed.desc.resource.toList else []

open Kernel

/-- `open` of a file, a device or a directory. -/
def sysOpen (desc : FileDescriptor) : Effects × Kernel n :=
  match k.allocFd t with
  | none => (.none, k)
  | some fd => (.none, (k.insert t fd desc).2)

/-- A call that makes one descriptor for a new reference to a resource: `socket` and `open` of
`/dev/tty`.  Without a free slot the reference is given back. -/
def sysAcquire (desc : FileDescriptor) : Effects × Kernel n :=
  let acquired := desc.resource.toList
  match k.allocFd t with
  | none => (⟨acquired, acquired⟩, k)
  | some fd =>
    let (inserted, k) := k.insert t fd desc
    (⟨acquired, if inserted then [] else acquired⟩, k)

/-- The shape of `pipe` and `openpty`: two descriptors for the two ends of a new object. -/
def sysPair (first second : FileDescriptor) : Effects × Kernel n :=
  let ends := first.resource.toList ++ second.resource.toList
  match k.allocFd t with
  | none => (⟨ends, ends⟩, k)
  | some fd =>
    let (_, k) := k.insert t fd first
    match k.allocFd t with
    | none =>
      let (_, k) := k.close t fd
      (⟨ends, ends⟩, k)
    | some fd' =>
      let (_, k) := k.insert t fd' second
      (⟨ends, []⟩, k)

def sysPipe (pipeId : Nat) : Effects × Kernel n :=
  sysPair k t (.pipe pipeId .read) (.pipe pipeId .write)

def sysOpenpty (ptyId : Nat) : Effects × Kernel n :=
  sysPair k t (.pty ptyId .master) (.pty ptyId .slave)

def sysClose (fd : Nat) : Effects × Kernel n :=
  if h : fd < 64 then
    match k.close t ⟨fd, h⟩ with
    | (some closed, k) => (⟨[], closeDescriptor closed⟩, k)
    | (none, k) => (.none, k)
  else (.none, k)

def sysDup2 (oldfd newfd : Nat) : Effects × Kernel n :=
  if h : oldfd < 64 ∧ newfd < 64 then
    if (k.get t ⟨oldfd, h.1⟩).isNone then (.none, k)
    else if oldfd = newfd then (.none, k)
    else
      let (old, k) := k.close t ⟨newfd, h.2⟩
      let released := old.toList.flatMap closeDescriptor
      let (_, k) := k.dup2 t oldfd newfd
      (⟨[], released⟩, k)
  else (.none, k)

def sysDup (oldfd : Nat) : Effects × Kernel n :=
  match k.allocFd t with
  | none => (.none, k)
  | some newfd => sysDup2 k t oldfd newfd

/-- The part of `sys_spawn_image` that makes the table of the child. -/
def spawnFds (parent child : Fin n) (stdin stdout stderr : Int) : Kernel n :=
  let k := k.withStdio child
  let k := k.installChildFd parent child 0 stdin .consoleIn
  let k := k.installChildFd parent child 1 stdout .consoleOut
  k.installChildFd parent child 2 stderr .consoleOut

/-- The part of `finish_process` that closes the table. -/
def closeAll : Effects × Kernel n :=
  let (closed, k) := k.takeAll t
  (⟨[], closed.flatMap closeDescriptor⟩, { k with exited := update k.exited t true })

/-- `set_offset` and `set_flags` of a slot. -/
def adjust (fd : Nat) (f : OpenFileDescription → OpenFileDescription) : Kernel n :=
  match k.entry t fd with
  | none => k
  | some (_, d) =>
    { k with ofd := update k.ofd d { f (k.ofd d) with
        strong := (k.ofd d).strong
        origin := (k.ofd d).origin } }

inductive FdOp (n : Nat) where
  | openFile (t : Fin n) (inode offset : Nat) (mode : FileMode)
  | openDevice (t : Fin n) (inode offset : Nat) (mode : FileMode) (kind : DeviceKind)
  | openDir (t : Fin n) (path : List UInt8)
  | openTty (t : Fin n) (ptyId : Nat)
  | socket (t : Fin n) (socketId : Nat)
  | pipe (t : Fin n) (pipeId : Nat)
  | openpty (t : Fin n) (ptyId : Nat)
  | close (t : Fin n) (fd : Nat)
  | dup (t : Fin n) (oldfd : Nat)
  | dup2 (t : Fin n) (oldfd newfd : Nat)
  | setOffset (t : Fin n) (fd offset : Nat)
  | setFlags (t : Fin n) (fd flags : Nat)
  | spawn (parent child : Fin n) (stdin stdout stderr : Int)
  | exit (t : Fin n)
  | reap (t : Fin n)

/-- The task that makes the call. -/
def FdOp.caller : FdOp n → Fin n
  | .openFile t _ _ _ | .openDevice t _ _ _ _ | .openDir t _ | .openTty t _ | .socket t _
  | .pipe t _ | .openpty t _ | .close t _ | .dup t _ | .dup2 t _ _ | .setOffset t _ _
  | .setFlags t _ _ | .spawn t _ _ _ _ | .exit t | .reap t => t

def Kernel.running : Bool := (k.tables t).isSome && !k.exited t

def ofdStatusMask : Nat := 0xC00

/-- What the call does when its task runs. -/
def FdOp.act : FdOp n → Kernel n → Effects × Kernel n
  | .openFile t inode offset mode, k => sysOpen k t (.file inode offset mode)
  | .openDevice t inode offset mode kind, k => sysOpen k t (.device inode offset mode kind)
  | .openDir t path, k => sysOpen k t (.dir path 0)
  | .openTty t ptyId, k => sysAcquire k t (.pty ptyId .slave)
  | .socket t socketId, k => sysAcquire k t (.socket socketId)
  | .pipe t pipeId, k => sysPipe k t pipeId
  | .openpty t ptyId, k => sysOpenpty k t ptyId
  | .close t fd, k => sysClose k t fd
  | .dup t oldfd, k => sysDup k t oldfd
  | .dup2 t oldfd newfd, k => sysDup2 k t oldfd newfd
  | .setOffset t fd offset, k => (.none, adjust k t fd fun o => { o with offset })
  | .setFlags t fd flags, k =>
    (.none, adjust k t fd fun o => { o with statusFlags := flags &&& ofdStatusMask })
  | .spawn parent child stdin stdout stderr, k =>
    if (k.tables child).isSome then (.none, k)
    else (.none, spawnFds k parent child stdin stdout stderr)
  | .exit t, k => closeAll k t
  | .reap _, k => (.none, k)

/-- A call of a running task, or the removal of a task that has exited. -/
def FdOp.step (op : FdOp n) (k : Kernel n) : Effects × Kernel n :=
  match op with
  | .reap t =>
    if k.exited t then
      (.none, { k with tables := update k.tables t none, exited := update k.exited t false })
    else (.none, k)
  | op => if k.running op.caller then op.act k else (.none, k)

/-- Before the first process there are no descriptors, and then there is one process, with the
console. -/
def boot (init : Fin n) : Kernel n :=
  withStdio ⟨fun _ => Option.none, fun _ => false, fun _ => ⟨0, 0, 0, 0, .consoleIn⟩, 0⟩ init

end Felix.Fd
