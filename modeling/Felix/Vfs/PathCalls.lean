import Felix.Base.Str
import Felix.Io.Descriptors

/-!
# System calls that take a path

`open`, `unlink`, `rmdir`, `mkdir` and `rename` of `kernel/src/syscalls/handler.rs`.
Each copies its path from user memory, at most 255 bytes of it, turns the copy into
text with `from_utf8_lossy`, and puts the working directory in front of a relative
path.  `lossy` replaces every maximal piece of the bytes that is no part of a
character by U+FFFD.

The virtual file system is an arbitrary one: `FsApi` are its methods over an
arbitrary state.  An `Outcome` records what was called.  Reopening the controlling
terminal stands for a call with the path `/dev/tty`.

The status flags of a new descriptor and the rewriting of open directory paths after
a rename are left out.
-/

namespace Felix.Path

open Fd (FileDescriptor FileMode DeviceKind)

/-! ## Copying the path -/

/-- U+FFFD. -/
def replacement : List UInt8 := [0xEF, 0xBF, 0xBD]

/-- The loop of `from_utf8_lossy`.  `pending` are the bytes of the character that has
been begun. -/
def lossyLoop : Utf8 → List UInt8 → List UInt8 → List UInt8
  | q, _, [] => if q = .start then [] else replacement
  | q, pending, b :: rest =>
    match q.step b with
    | some .start => pending ++ b :: lossyLoop .start [] rest
    | some q' => lossyLoop q' (pending ++ [b]) rest
    | none =>
      if q = .start then replacement ++ lossyLoop .start [] rest
      else
        -- the byte that does not continue the character begins the next one
        replacement ++ match Utf8.step .start b with
          | some .start => b :: lossyLoop .start [] rest
          | some q' => lossyLoop q' [b] rest
          | none => replacement ++ lossyLoop .start [] rest

/-- `String::from_utf8_lossy`. -/
def lossy (l : List UInt8) : List UInt8 := lossyLoop .start [] l

/-- The loop of `copy_cstr_from_user`, with the number of bytes that may still be read. -/
def copyLoop (mem : Bytes) : Nat → Nat → List UInt8
  | 0, _ => []
  | left + 1, addr => if mem addr = 0 then [] else mem addr :: copyLoop mem left (addr + 1)

def copyCstrFromUser (mem : Bytes) (ptr : Nat) : List UInt8 :=
  if ptr = 0 then [] else lossy (copyLoop mem 255 ptr)

/-! ## Resolving the path -/

/-- One part of a path. -/
def pushPart (parts : List (List UInt8)) (part : List UInt8) : List (List UInt8) :=
  if part = [] ∨ part = Str.dot.bytes then parts
  else if part = Str.dotdot.bytes then parts.dropLast
  else parts ++ [part]

def normalizePath (path : List UInt8) : List UInt8 :=
  let parts := (path.splitOn slash).foldl pushPart []
  if parts = [] then [slash] else slash :: [slash].intercalate parts

/-- A slot without a task counts as one in `/`. -/
def resolveTaskPath (cwd : Option (List UInt8)) (path : List UInt8) : List UInt8 :=
  if path.head? = some slash then normalizePath path
  else
    let cwd := cwd.getD [slash]
    if cwd = [slash] then normalizePath (slash :: path)
    else normalizePath (cwd ++ slash :: path)

/-! ## The file system -/

inductive RenameError where
  | notFound
  | exists
  | crossDevice
  | unsupported
  deriving DecidableEq

/-- The methods of the virtual file system that the calls use.  `isDir` is `path_is_dir` and
`inodeSize` the size that `open` takes for the end of a file. -/
structure FsApi (σ : Type) where
  isDir : σ → List UInt8 → Bool
  resolvePath : σ → List UInt8 → Option Nat
  inodeSize : σ → Nat → Nat
  deviceKind : List UInt8 → Option DeviceKind
  createFile : σ → List UInt8 → Bool × σ
  removeFile : σ → List UInt8 → Bool × σ
  mkdir : σ → List UInt8 → Bool × σ
  rmdir : σ → List UInt8 → Bool × σ
  rename : σ → List UInt8 → List UInt8 → Except RenameError Unit × σ

inductive Call where
  | isDir (path : List UInt8)
  | resolvePath (path : List UInt8)
  | createFile (path : List UInt8)
  | removeFile (path : List UInt8)
  | mkdir (path : List UInt8)
  | rmdir (path : List UInt8)
  | rename (old new : List UInt8)
  | reopenTty

def devTty : List UInt8 := [47, 100, 101, 118, 47, 116, 116, 121]

/-- The paths a call is made with. -/
def Call.paths : Call → List (List UInt8)
  | .isDir path | .resolvePath path | .createFile path | .removeFile path | .mkdir path
  | .rmdir path => [path]
  | .rename old new => [old, new]
  | .reopenTty => [devTty]

inductive Errno where
  | enoent
  | enxio
  | enomem
  | eexist
  | exdev
  | enotdir
  | einval
  | failed
  deriving DecidableEq

structure Outcome (σ : Type) where
  result : Except Errno Nat
  calls : List Call
  fs : σ
  opened : Option FileDescriptor

/-- What the calls use of the caller: its working directory, its terminal and whether that can be
reopened, and the descriptor that a new file gets. -/
structure Caller where
  cwd : Option (List UInt8)
  pty : Option Nat
  addRef : Bool
  freeFd : Option Nat

variable {σ : Type} (fs : FsApi σ) (caller : Caller)

/-! ## The calls -/

def flagSet (flags bit : Nat) : Bool := flags &&& bit ≠ 0

def oWronly : Nat := 1
def oRdwr : Nat := 2
def oCreat : Nat := 0x40
def oTrunc : Nat := 0x200
def oAppend : Nat := 0x400
def oDirectory : Nat := 0x10000

/-- The end of `sys_open`: the descriptor. -/
def install (calls : List Call) (s : σ) (desc : FileDescriptor) : Outcome σ :=
  match caller.freeFd with
  | some fd => ⟨.ok fd, calls, s, some desc⟩
  | none => ⟨.error .enomem, calls, s, none⟩

def openTty (s : σ) : Outcome σ :=
  match caller.pty with
  | none => ⟨.error .enxio, [], s, none⟩
  | some id =>
    if caller.addRef then install caller [.reopenTty] s (.pty id .slave)
    else ⟨.error .enxio, [], s, none⟩

def openDir (calls : List Call) (s : σ) (path : List UInt8) (flags : Nat) : Outcome σ :=
  if flagSet flags oWronly || flagSet flags oRdwr then ⟨.error .einval, calls, s, none⟩
  else if 96 ≤ path.length then ⟨.error .einval, calls, s, none⟩
  else install caller calls s (.dir path 0)

/-- The part of `sys_open` behind the lookup. -/
def openInode (calls : List Call) (s : σ) (path : List UInt8)
    (flags : Nat) (inode : Option Nat) : Outcome σ :=
  match inode with
  | none => ⟨.error .enoent, calls, s, none⟩
  | some inode =>
    let mode := if flags &&& 3 = oWronly then FileMode.writeOnly
      else if flags &&& 3 = oRdwr then .readWrite else .readOnly
    let offset := if flagSet flags oAppend then fs.inodeSize s inode else 0
    match (if (devTty.take 5).isPrefixOf path then fs.deviceKind (path.drop 5) else none) with
    | some kind => install caller calls s (.device inode offset mode kind)
    | none => install caller calls s (.file inode offset mode)

def openFile (s : σ) (path : List UInt8) (flags : Nat) : Outcome σ :=
  if fs.isDir s path then openDir caller [.isDir path] s path flags
  else if flagSet flags oDirectory then ⟨.error .enotdir, [.isDir path], s, none⟩
  else
    let calls : List Call := [.isDir path, .resolvePath path]
    let created : List Call := calls ++ [.createFile path, .resolvePath path]
    match fs.resolvePath s path with
    | none =>
      if flagSet flags oCreat then
        let (ok, s) := fs.createFile s path
        if ok then openInode fs caller created s path flags (fs.resolvePath s path)
        else ⟨.error .enoent, calls ++ [.createFile path], s, none⟩
      else openInode fs caller calls s path flags none
    | some inode =>
      if flagSet flags oTrunc && (flags &&& 3 = oWronly || flags &&& 3 = oRdwr) then
        let (_, s) := fs.createFile s path
        openInode fs caller created s path flags (fs.resolvePath s path)
      else openInode fs caller calls s path flags (some inode)

def sysOpen (mem : Bytes) (s : σ) (pathPtr flags : Nat) : Outcome σ :=
  let rawPath := copyCstrFromUser mem pathPtr
  if rawPath = [] then ⟨.error .enoent, [], s, none⟩
  else
    let path := resolveTaskPath caller.cwd rawPath
    if path = devTty then openTty caller s else openFile fs caller s path flags

/-- The shape of `sys_mkdir`, `sys_rmdir` and `sys_unlink`. -/
def sysChange (change : σ → List UInt8 → Bool × σ) (call : List UInt8 → Call) (caller : Caller)
    (mem : Bytes) (s : σ) (pathPtr : Nat) : Outcome σ :=
  let raw := copyCstrFromUser mem pathPtr
  if raw = [] then ⟨.error .einval, [], s, none⟩
  else
    let path := resolveTaskPath caller.cwd raw
    let (success, s) := change s path
    ⟨if success then .ok 0 else .error .failed, [call path], s, none⟩

def sysMkdir := sysChange fs.mkdir .mkdir

def sysRmdir := sysChange fs.rmdir .rmdir

def sysUnlink := sysChange fs.removeFile .removeFile

/-- The error code of a failed rename. -/
def RenameError.errno : RenameError → Errno
  | .notFound => .enoent
  | .exists => .eexist
  | .crossDevice => .exdev
  | .unsupported => .einval

def sysRename (mem : Bytes) (s : σ) (oldPtr newPtr : Nat) : Outcome σ :=
  let oldRaw := copyCstrFromUser mem oldPtr
  let newRaw := copyCstrFromUser mem newPtr
  if oldRaw = [] ∨ newRaw = [] then ⟨.error .einval, [], s, none⟩
  else
    let old := resolveTaskPath caller.cwd oldRaw
    let new := resolveTaskPath caller.cwd newRaw
    let (result, s) := fs.rename s old new
    let result := match result with
      | .ok () => .ok 0
      | .error e => .error e.errno
    ⟨result, [.rename old new], s, none⟩

/-- A call with its arguments. -/
inductive PathOp where
  | open (path flags : Nat)
  | unlink (path : Nat)
  | rmdir (path : Nat)
  | mkdir (path : Nat)
  | rename (old new : Nat)

def PathOp.run (mem : Bytes) (s : σ) : PathOp → Outcome σ
  | .open path flags => sysOpen fs caller mem s path flags
  | .unlink path => sysUnlink fs caller mem s path
  | .rmdir path => sysRmdir fs caller mem s path
  | .mkdir path => sysMkdir fs caller mem s path
  | .rename old new => sysRename fs caller mem s old new

/-- The addresses of the paths. -/
def PathOp.pointers : PathOp → List Nat
  | .open path _ | .unlink path | .rmdir path | .mkdir path => [path]
  | .rename old new => [old, new]

end Felix.Path
