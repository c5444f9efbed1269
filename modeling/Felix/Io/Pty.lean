import Felix.Kernel.Scheduler

/-!
# Pseudo terminals

`tty.rs`.  A pseudo terminal is two queues of bytes with a line discipline between them:
what is written at the master is edited and queued for the slave, and what the slave
writes is queued for the master.  In canonical mode the slave reads lines, and the sizes
of the lines that are complete are queued beside the bytes.

The model of a call takes the pseudo terminal that the descriptor names, which is missing
when the slot is free.  Whether the caller is a background process of the terminal is a
parameter, and the signals that a call sends to a process group are part of its result.
The size of the window is left out.
-/

namespace Felix.Io

def ptyBuf : Nat := 8192

def canonBuf : Nat := 1024

def vintr : Nat := 0
def vquit : Nat := 1
def verase : Nat := 2
def vkill : Nat := 3
def veof : Nat := 4
def vtime : Nat := 5
def vmin : Nat := 6
def vsusp : Nat := 10

def defaultCc (i : Nat) : UInt8 :=
  if i = vintr then 0x03
  else if i = vquit then 0x1c
  else if i = verase then 0x7f
  else if i = vkill then 0x15
  else if i = veof then 0x04
  else if i = vmin then 1
  else if i = vsusp then 0x1a
  else 0

inductive PtySide where
  | master
  | slave
deriving DecidableEq, Repr

structure TermiosState where
  canonical : Bool
  echo : Bool
  isig : Bool
  tostop : Bool
  icrnl : Bool
  opost : Bool
  onlcr : Bool
  cc : Nat → UInt8

structure Pty where
  toMaster : List UInt8
  toSlave : List UInt8
  canonicalInput : List UInt8
  /-- The sizes of the complete lines that are queued in `toSlave`. -/
  canonicalRecords : List Nat
  masterRefs : Nat
  slaveRefs : Nat
  eofPending : Bool
  /-- The fields of the source that `termios` returns and `set_termios` sets. -/
  termios : TermiosState

/-- The result of a transfer. -/
inductive PtyRet (α : Type) where
  | done (a : α)
  /-- `usize::MAX`: the caller is in the background. -/
  | background
  /-- `WOULD_BLOCK`. -/
  | wouldBlock
deriving DecidableEq, Repr

variable (side : PtySide) (p : Pty)

namespace Pty

def new : Pty where
  toMaster := []
  toSlave := []
  canonicalInput := []
  canonicalRecords := []
  masterRefs := 1
  slaveRefs := 1
  eofPending := false
  termios :=
    { canonical := true
      echo := true
      isig := true
      tostop := false
      icrnl := true
      opost := true
      onlcr := true
      cc := defaultCc }

/-- `queue_echo`.  The loop stops when the queue is full. -/
def queueEcho (bytes : List UInt8) (p : Pty) : Pty :=
  if p.termios.echo then
    { p with toMaster := p.toMaster ++ bytes.take (ptyBuf - p.toMaster.length) }
  else p

/-- The edit buffer is moved to the queue of the slave, as far as there is room.  This is the
loop of `commit_canonical`, `set_termios` and `close_ref`, with the number of bytes queued. -/
def release : Nat × Pty :=
  let queued := p.canonicalInput.take (ptyBuf - p.toSlave.length)
  (queued.length, { p with canonicalInput := [], toSlave := p.toSlave ++ queued })

def commitCanonical : Pty :=
  let (queued, p) := p.release
  if queued ≠ 0 then { p with canonicalRecords := p.canonicalRecords ++ [queued] } else p

@[simp] theorem commitCanonical_termios (p : Pty) : p.commitCanonical.termios = p.termios := by
  unfold commitCanonical release; dsimp only; split <;> rfl

@[simp] theorem commitCanonical_masterRefs (p : Pty) :
    p.commitCanonical.masterRefs = p.masterRefs := by
  unfold commitCanonical release; dsimp only; split <;> rfl

@[simp] theorem commitCanonical_slaveRefs (p : Pty) :
    p.commitCanonical.slaveRefs = p.slaveRefs := by
  unfold commitCanonical release; dsimp only; split <;> rfl

@[simp] theorem commitCanonical_eofPending (p : Pty) :
    p.commitCanonical.eofPending = p.eofPending := by
  unfold commitCanonical release; dsimp only; split <;> rfl

@[simp] theorem commitCanonical_canonicalInput (p : Pty) :
    p.commitCanonical.canonicalInput = [] := by
  unfold commitCanonical release; dsimp only; split <;> rfl

@[simp] theorem commitCanonical_toSlave (p : Pty) : p.commitCanonical.toSlave =
      p.toSlave ++ p.canonicalInput.take (ptyBuf - p.toSlave.length) := by
  unfold commitCanonical release; dsimp only; split <;> rfl

/-- `master_input_byte` from the mapping of carriage returns on. -/
def inputByte (b : UInt8) (p : Pty) : Pty :=
  let cc := p.termios.cc
  if p.termios.canonical then
    if b = cc verase ∨ (cc verase = 0x7f ∧ b = 0x08) then
      if p.canonicalInput = [] then p
      else queueEcho [0x08, 0x20, 0x08] { p with canonicalInput := p.canonicalInput.dropLast }
    else if b = cc vkill ∧ b ≠ 0 then
      if p.canonicalInput = [] then p
      else queueEcho [0x5e, 0x55, 0x0d, 0x0a] { p with canonicalInput := [] }
    else if b = cc veof ∧ b ≠ 0 then
      if p.canonicalInput = [] then { p with eofPending := true } else p.commitCanonical
    else
      let p :=
        if p.canonicalInput.length < canonBuf then
          queueEcho [b] { p with canonicalInput := p.canonicalInput ++ [b] }
        else p
      if b = 0x0a then p.commitCanonical else p
  else if p.toSlave.length < ptyBuf then
    queueEcho [b] { p with toSlave := p.toSlave ++ [b] }
  else p

/-- The byte that a terminal takes for a typed byte. -/
def mapCr (b : UInt8) : UInt8 :=
  if p.termios.icrnl ∧ b = 0x0d then 0x0a else b

/-- `master_input_byte`, with the signal for the foreground. -/
def masterInputByte (b : UInt8) (p : Pty) : Option Nat × Pty :=
  let cc := p.termios.cc
  if p.termios.isig ∧ b = cc vintr ∧ b ≠ 0 then
    (some Kernel.sigint, queueEcho [0x5e, 0x43, 0x0d, 0x0a] { p with canonicalInput := [] })
  else if p.termios.isig ∧ b = cc vquit ∧ b ≠ 0 then
    (some Kernel.sigquit, queueEcho [0x5e, 0x5c, 0x0d, 0x0a] { p with canonicalInput := [] })
  else if p.termios.isig ∧ b = cc vsusp ∧ b ≠ 0 then
    (some Kernel.sigtstp, queueEcho [0x5e, 0x5a, 0x0d, 0x0a] { p with canonicalInput := [] })
  else (none, p.inputByte (p.mapCr b))

/-- One turn of the loop of `write`: whether the byte was taken, and the signal that it
sends.  There is no turn when the other side is closed. -/
def writeByte (b : UInt8) (p : Pty) : Option (Bool × Option Nat × Pty) :=
  match side with
  | .master =>
    if p.slaveRefs = 0 then none
    else
      let (signal, p') := p.masterInputByte b
      some (signal.isSome || p'.termios.canonical || p.toSlave.length < p'.toSlave.length,
        signal, p')
  | .slave =>
    if p.masterRefs = 0 then none
    else if p.termios.opost ∧ p.termios.onlcr ∧ b = 0x0a then
      if p.toMaster.length + 2 > ptyBuf then some (false, none, p)
      else some (true, none, { p with toMaster := p.toMaster ++ [0x0d, 0x0a] })
    else if p.toMaster.length ≥ ptyBuf then some (false, none, p)
    else some (true, none, { p with toMaster := p.toMaster ++ [b] })

/-- The loop of `write` after `written` bytes, with the signals that it sends. -/
def writeLoop (side : PtySide) (nonblock : Bool) :
    List UInt8 → Nat → Pty → PtyRet Nat × List Nat × Pty
  | [], written, p => (.done written, [], p)
  | b :: data, written, p =>
    match p.writeByte side b with
    | none => (.done written, [], p)
    | some (true, signal, p') =>
      let (r, signals, q) := writeLoop side nonblock data (written + 1) p'
      (r, signal.toList ++ signals, q)
    | some (false, signal, p') =>
      (if nonblock ∨ written ≠ 0 then .done written else .wouldBlock, signal.toList, p')

/-- `try_read_inner` with a buffer of `n` bytes: the bytes read and whether the end of the
input is reached. -/
def tryReadInner (n : Nat) (p : Pty) : List UInt8 × Bool × Pty :=
  match side with
  | .slave =>
    if p.termios.canonical then
      match p.canonicalRecords with
      | [] =>
        if p.eofPending then ([], true, { p with eofPending := false })
        else ([], p.masterRefs = 0, p)
      | remaining :: records =>
        let bytes := p.toSlave.take (min n remaining)
        (bytes, false, { p with
            toSlave := p.toSlave.drop (min n remaining)
            canonicalRecords :=
              if bytes.length = remaining then records
              else (remaining - bytes.length) :: records })
    else (p.toSlave.take n, p.masterRefs = 0, { p with toSlave := p.toSlave.drop n })
  | .master => (p.toMaster.take n, p.slaveRefs = 0, { p with toMaster := p.toMaster.drop n })

/-- `read` of a terminal in canonical mode or of its master. -/
def readRecord (n : Nat) (nonblock : Bool) (p : Pty) : PtyRet (List UInt8) × Pty :=
  let (bytes, eof, p) := p.tryReadInner side n
  (if bytes ≠ [] ∨ eof ∨ nonblock then .done bytes else .wouldBlock, p)

/-- `read` of a slave that is not in canonical mode.  Every path through the loop of the
source leaves it in its first turn. -/
def readRaw (n : Nat) (nonblock : Bool) (clock : Kernel.Clock) (p : Pty) :
    PtyRet (List UInt8) × Pty :=
  let (bytes, eof, p') := p.tryReadInner .slave n
  let min' := min (p.termios.cc vmin).toNat n
  let vtimeMs := (p.termios.cc vtime).toNat * 100
  if nonblock ∨ (min' = 0 ∧ vtimeMs = 0) then (.done bytes, p')
  else
    let deadline :=
      if vtimeMs ≠ 0 ∧ (min' = 0 ∨ bytes ≠ []) then some (Kernel.satAdd64 clock.uptimeMs vtimeMs)
      else none
    if bytes ≠ [] ∧ (min' = 0 ∨ min' ≤ bytes.length ∨ bytes.length = n) then (.done bytes, p')
    else if eof then (.done bytes, p')
    else if deadline.any (· ≤ clock.uptimeMs) then (.done bytes, p')
    else (if bytes = [] then .wouldBlock else .done bytes, p')

end Pty

/-- `read` with a buffer of `n` bytes. -/
def ptyRead (n : Nat) (nonblock background : Bool) (clock : Kernel.Clock) :
    Option Pty → PtyRet (List UInt8) × Option Pty
  | none => (.done [], none)
  | some p =>
    if n = 0 then (.done [], some p)
    else if side = .slave ∧ background then (.background, some p)
    else
      let (r, p) :=
        if side = .slave ∧ p.termios.canonical = false then p.readRaw n nonblock clock
        else p.readRecord side n nonblock
      (r, some p)

/-- `write`, with the signals that it sends to the foreground. -/
def ptyWrite (data : List UInt8) (nonblock background : Bool) :
    Option Pty → PtyRet Nat × List Nat × Option Pty
  | none => (.done 0, [], none)
  | some p =>
    if side = .slave ∧ p.termios.tostop ∧ background then (.background, [], some p)
    else
      let (r, signals, p) := p.writeLoop side nonblock data 0
      (r, signals, some p)

/-- `readable`. -/
def ptyReadable : Option Pty → Bool
  | none => false
  | some p =>
    match side with
    | .master => p.toMaster ≠ [] || p.slaveRefs = 0
    | .slave =>
      if p.termios.canonical then p.canonicalRecords ≠ [] || p.eofPending || p.masterRefs = 0
      else p.toSlave ≠ [] || p.masterRefs = 0

/-- `writable`. -/
def ptyWritable : Option Pty → Bool
  | none => false
  | some p =>
    match side with
    | .master => 0 < p.slaveRefs && p.toSlave.length < ptyBuf
    | .slave => 0 < p.masterRefs && p.toMaster.length < ptyBuf

namespace Pty

/-- `add_ref`.  The counts have 16 bits. -/
def addRef : Pty :=
  match side with
  | .master => { p with masterRefs := min (p.masterRefs + 1) 65535 }
  | .slave => { p with slaveRefs := min (p.slaveRefs + 1) 65535 }

/-- `close_ref` up to the test whether a reference is left.  The last reference to the master
completes the line in the edit buffer.  The signals of a hangup are not part of the model. -/
def dropRef : Pty :=
  match side with
  | .master =>
    let q := { p with masterRefs := p.masterRefs - 1 }
    if p.masterRefs ≠ 0 ∧ q.masterRefs = 0 ∧ q.slaveRefs ≠ 0 then
      if q.canonicalInput = [] then q else q.commitCanonical
    else q
  | .slave => { p with slaveRefs := p.slaveRefs - 1 }

/-- `close_ref`.  The slot is free when no reference is left. -/
def closeRef : Option Pty :=
  let p := p.dropRef side
  if p.masterRefs = 0 ∧ p.slaveRefs = 0 then none else some p

def flushInput : Pty :=
  { p with toSlave := [], canonicalInput := [], canonicalRecords := [], eofPending := false }

def setTermios (state : TermiosState) (p : Pty) : Pty :=
  let q := { p with termios := state }
  if p.termios.canonical ∧ state.canonical = false then
    { (release { q with canonicalRecords := [] }).2 with eofPending := false }
  else q

end Pty

end Felix.Io
