import Mathlib.Logic.Function.Basic
import Felix.Base.Fault

/-!
# Pipes

`pipe.rs`.  A pipe is a ring buffer with a count of its readers and of its writers.  There
is a table of 16 of them, and a descriptor has the index of its pipe.

A transfer takes the buffer of the caller as a list, and the bytes that a read puts there
are part of its result.  That those who wait for input are woken is part of the model of
the scheduler.
-/

namespace Felix.Io

open Function

def pipeBufSize : Nat := 4096

def maxPipes : Nat := 16

/-- `usize::MAX`, which says that a call would block. -/
def usizeMax : Nat := 2 ^ 32 - 1

structure Pipe where
  buf : Nat → UInt8
  /-- The next index to write. -/
  head : Nat
  /-- The next index to read. -/
  tail : Nat
  len : Nat
  readers : Nat
  writers : Nat
  inUse : Bool

def Pipe.empty : Pipe where
  buf := fun _ => 0
  head := 0
  tail := 0
  len := 0
  readers := 0
  writers := 0
  inUse := false

abbrev Pipes := Nat → Pipe

variable (id : Nat) (pipes : Pipes)

def pipeCreate : Option Nat × Pipes :=
  match (List.range maxPipes).find? fun i => !(pipes i).inUse with
  | none => (none, pipes)
  | some i =>
    (some i, update pipes i { Pipe.empty with inUse := true, readers := 1, writers := 1 })

def pipeAddReader : Res Pipes :=
  if id < maxPipes ∧ (pipes id).inUse = true then do
    let readers ← addW 32 (pipes id).readers 1
    .ok (update pipes id { pipes id with readers })
  else .ok pipes

def pipeAddWriter : Res Pipes :=
  if id < maxPipes ∧ (pipes id).inUse = true then do
    let writers ← addW 32 (pipes id).writers 1
    .ok (update pipes id { pipes id with writers })
  else .ok pipes

def maybeFree : Pipes :=
  if (pipes id).readers = 0 ∧ (pipes id).writers = 0 then
    update pipes id { pipes id with inUse := false }
  else pipes

def pipeCloseReader : Pipes :=
  if maxPipes ≤ id ∨ (pipes id).inUse = false then pipes
  else maybeFree id (update pipes id { pipes id with readers := (pipes id).readers - 1 })

def pipeCloseWriter : Pipes :=
  if maxPipes ≤ id ∨ (pipes id).inUse = false then pipes
  else maybeFree id (update pipes id { pipes id with writers := (pipes id).writers - 1 })

def pipeReadable : Bool :=
  if maxPipes ≤ id ∨ (pipes id).inUse = false then true
  else 0 < (pipes id).len || (pipes id).writers = 0

def pipeWritable : Bool :=
  if maxPipes ≤ id ∨ (pipes id).inUse = false then true
  else (pipes id).readers = 0 || (pipes id).len < pipeBufSize

namespace Pipe

/-- The oldest byte leaves the buffer. -/
def pop (p : Pipe) : Pipe := { p with tail := (p.tail + 1) % pipeBufSize, len := p.len - 1 }

/-- A byte is put into the buffer. -/
def push (b : UInt8) (p : Pipe) : Pipe :=
  { p with
    buf := update p.buf p.head b
    head := (p.head + 1) % pipeBufSize
    len := p.len + 1 }

/-- The loop of `pipe_try_read` for the bytes that are left to read. -/
def readLoop : Nat → Pipe → List UInt8 × Pipe
  | 0, p => ([], p)
  | n + 1, p =>
    if 0 < p.len then (p.buf p.tail :: (readLoop n p.pop).1, (readLoop n p.pop).2) else ([], p)

/-- The loop of `pipe_try_write` for the bytes that are left to write. -/
def writeLoop : List UInt8 → Pipe → Nat × Pipe
  | [], p => (0, p)
  | b :: bytes, p =>
    if p.len < pipeBufSize then
      ((writeLoop bytes (p.push b)).1 + 1, (writeLoop bytes (p.push b)).2)
    else (0, p)

end Pipe

/-- `pipe_try_read`, with the bytes that were put into the buffer of the caller. -/
def pipeTryRead (id count : Nat) (pipes : Pipes) : Nat × List UInt8 × Pipes :=
  if maxPipes ≤ id ∨ count = 0 then (0, [], pipes)
  else if (pipes id).inUse = false then (0, [], pipes)
  else if (pipes id).len = 0 then (if (pipes id).writers = 0 then 0 else usizeMax, [], pipes)
  else
    let (bytes, p) := (pipes id).readLoop count
    (bytes.length, bytes, update pipes id p)

def pipeTryWrite (bytes : List UInt8) (pipes : Pipes) : Nat × Pipes :=
  if maxPipes ≤ id ∨ bytes = [] then (0, pipes)
  else if (pipes id).inUse = false then (0, pipes)
  else if (pipes id).readers = 0 then (0, pipes)
  else if (pipes id).len = pipeBufSize then (usizeMax, pipes)
  else
    let (written, p) := Pipe.writeLoop bytes (pipes id)
    (written, update pipes id p)

end Felix.Io
