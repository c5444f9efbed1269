import Felix.Io.Descriptors
import Felix.Memory.KernelHeapContract

/-!
# `read`

`sys_read` of `kernel/src/syscalls/handler.rs` with its temporary buffer.  The buffer is as
long as the request and comes from the kernel heap; a request that the heap cannot meet
ends in the handler for failed allocations, which panics.  In a build with debug
assertions the slices over the memory of the caller are checked, too: they have to be
shorter than 2 GiB and not at address 0.

What is behind the descriptors answers requests: the keyboard, the file systems, pipes,
terminals and sockets.  A `Backend` is all of them, and `ownBackend` is made of the
models of this development.  A back end is handed the temporary buffer, and it may use
the heap itself.  The bytes are left out, and so are the stores in the memory of the
caller, which is taken to be there.  The offset that moves by the answer is part of the
back end's state.
-/

namespace Felix.Read

open Fd (FileDescriptor FileMode PipeEnd PtySide)
open Memory (HeapLedger HeapOp Layout)

/-- The memory that a caller names. -/
structure UserBuffer where
  ptr : Nat
  count : Nat
  ptrFits : ptr < 2 ^ 32
  countFits : count < 2 ^ 32

/-- A request, with the length of its buffer. -/
inductive Request where
  | stdin (len : Nat)
  | readAt (inode offset len : Nat)
  | pipeTryRead (pipeId len : Nat)
  | ttyRead (ptyId : Nat) (side : PtySide) (len : Nat) (nonblock : Bool)
  | recvSlice (socketId len : Nat)

def Request.len : Request → Nat
  | .stdin len | .readAt _ _ len | .pipeTryRead _ len | .ttyRead _ _ len _
  | .recvSlice _ len => len

inductive Errno where
  | eperm
  | eagain
  | efault
  | enxio
  | ebadf
  | epipe
  deriving DecidableEq

inductive Answer where
  | bytes (n : Nat)
  | wouldBlock
  | error (e : Errno)

/-- The result of a call; `restart` is `BLOCK_AND_RESTART`. -/
inductive Ret where
  | bytes (n : Nat)
  | error (e : Errno)
  | restart

variable {σ : Type}

/-- A block of the heap that holds a vector; an empty vector has none. -/
abbrev Block := Option (Nat × Layout)

abbrev State (σ : Type) := HeapLedger × σ

abbrev Backend (σ : Type) := Request → Block → State σ → Res (Answer × State σ)

variable (backend : Backend σ)

/-! ## Buffers -/

/-- The layout of a vector of bytes. -/
def vecLayout (count : Nat) (h : count < 2 ^ 31) : Layout := ⟨count, 1, ⟨0, rfl⟩, h⟩

/-- `vec![0u8; count]`. -/
def zeroed (count : Nat) (heap : HeapLedger) : Res (Block × HeapLedger) :=
  if count = 0 then .ok (none, heap)
  else if h : count < 2 ^ 31 then do
    let (ptr, heap) ← HeapOp.run (.alloc (vecLayout count h)) heap
    if ptr = 0 then .error .memory else .ok (some (ptr, vecLayout count h), heap)
  else .error .overflow

/-- The end of the vector's scope. -/
def release (buf : Block) (heap : HeapLedger) : Res HeapLedger :=
  match buf with
  | none => .ok heap
  | some (ptr, layout) => do
    let (_, heap) ← HeapOp.run (.dealloc ptr layout) heap
    .ok heap

/-- The part of a call that has a temporary buffer. -/
def withBuffer (count : Nat) (f : Block → State σ → Res (Ret × State σ)) (s : State σ) :
    Res (Ret × State σ) := do
  let (buf, heap) ← zeroed count s.1
  let (ret, s) ← f buf (heap, s.2)
  let heap ← release buf s.1
  .ok (ret, heap, s.2)

/-- `from_raw_parts` and `from_raw_parts_mut`. -/
def fromRawParts (buf : UserBuffer) : Res Unit :=
  if buf.ptr ≠ 0 ∧ buf.count < 2 ^ 31 then .ok () else .error .assertion

/-! ## The call -/

/-- What the call reads of the task: a descriptor and its open file description. -/
structure Slot where
  fd : Nat
  desc : Option FileDescriptor
  offset : Nat
  nonblock : Bool

/-- A request; `blocked` is the result of a call that would block. -/
def ask (blocked : Ret) (req : Request) (buf : Block) (s : State σ) : Res (Ret × State σ) := do
  let (answer, s) ← backend req buf s
  match answer with
  | .bytes n => .ok (.bytes n, s)
  | .error e => .ok (.error e, s)
  | .wouldBlock => .ok (blocked, s)

def sysReadStdin (buf : UserBuffer) (s : State σ) : Res (Ret × State σ) :=
  if buf.count = 0 then .ok (.bytes 0, s) else ask backend .restart (.stdin buf.count) none s

/-- `sys_recvfrom`. -/
def sysRecvfrom (socketId : Nat) (nonblock : Bool) (buf : UserBuffer) (s : State σ) :
    Res (Ret × State σ) :=
  if buf.count = 0 then .ok (.bytes 0, s)
  else if buf.ptr = 0 then .ok (.error .efault, s)
  else do
    fromRawParts buf
    ask backend (if nonblock then .error .eagain else .restart) (.recvSlice socketId buf.count)
      none s

/-- What a pipe or a terminal that would block gives. -/
def Slot.blocked (slot : Slot) : Ret := if slot.nonblock then .error .eperm else .restart

def sysRead (slot : Slot) (buf : UserBuffer) (s : State σ) : Res (Ret × State σ) :=
  match slot.desc.or (if slot.fd = 0 then some .consoleIn else none) with
  | some .consoleIn => sysReadStdin backend buf s
  | some (.file inode _ mode) | some (.device inode _ mode _) =>
    if mode = .writeOnly then .ok (.bytes 0, s)
    else
      withBuffer buf.count
        (ask backend (.bytes 0) (.readAt inode slot.offset buf.count)) s
  | some (.pipe pipeId pipeEnd) =>
    if pipeEnd ≠ .read then .ok (.bytes 0, s)
    else ask backend slot.blocked (.pipeTryRead pipeId buf.count) none s
  | some (.pty ptyId side) => do
    fromRawParts buf
    ask backend slot.blocked (.ttyRead ptyId side buf.count slot.nonblock) none s
  | some (.socket socketId) => sysRecvfrom backend socketId slot.nonblock buf s
  | some .consoleOut | some (.dir ..) | none => .ok (.bytes 0, s)

end Felix.Read
