import Mathlib.Algebra.Group.Int.Defs
import Mathlib.Algebra.GroupWithZero.Nat
import Mathlib.Data.Fin.Basic

/-!
# Tasks

The part of a task that the scheduler, the signals and the waits read and write.
Memory, descriptors and the terminal are left out.

A signal that is pending is a bit of a word.  Only the numbers 1 to 31 have a bit, so
that the word has 31 of them.
-/

namespace Felix.Kernel

/-- A slot of the task table. -/
abbrev Slot := Fin 32

instance slots_ne_zero : NeZero 32 := ⟨by decide⟩

instance : LawfulBEq Slot := inferInstance

inductive WaitReason where
  | generic
  | input
  | timer
  | child
  | thread
  | poll
  | socket
  | audio
  | futex
  deriving DecidableEq, Repr

inductive TaskState where
  | new
  | runnable
  | running (cpu : Nat)
  | blocked (reason : WaitReason)
  | stopped
  | zombie
  deriving DecidableEq, Repr

/-- What is read and written of the `CPUState` that a task left on its kernel stack. -/
structure Frame where
  eax : UInt32
  eip : UInt32
  esp : UInt32
  /-- `cs & 3 == 3`. -/
  user : Bool
  deriving DecidableEq, Repr

structure Task where
  frame : Frame
  running : Bool
  state : TaskState
  pid : Int
  ppid : Int
  pgid : Int
  sid : Int
  parent : Option Slot
  tid : Int
  leaderSlot : Option Slot
  isThread : Bool
  threadDetached : Bool
  threadExited : Bool
  threadExitValue : UInt32
  zombie : Bool
  stopped : Bool
  stopSignal : Nat
  waitStoppedPending : Bool
  waitContinuedPending : Bool
  termSignal : Nat
  exitCode : Int
  pendingSignals : BitVec 31
  signalHandlers : Nat → UInt32
  wakeDeadlineMs : Nat
  futexKey : Nat
  /-- Four words, a bit for each socket. -/
  networkWaitRead : BitVec 128
  networkWaitWrite : BitVec 128
  networkWaitAny : Bool
  pollPeriodic : Bool

namespace Task

variable (t : Task)

def wake : Task :=
  { t with
    running := true
    state := .runnable
    networkWaitRead := 0
    networkWaitWrite := 0
    networkWaitAny := false
    pollPeriodic := false }

def block (reason : WaitReason) : Task :=
  let t := { t with running := false, state := .blocked reason }
  if reason = .poll ∨ reason = .socket then t
  else
    { t with
      networkWaitRead := 0
      networkWaitWrite := 0
      networkWaitAny := false
      pollPeriodic := false }

/-- What `wake_expired_timers` does to a task.  A task that waits for a futex gets
the error `ETIMEDOUT`. -/
def expire (now : Nat) (t : Task) : Task :=
  match t.state with
  | .blocked .timer =>
    if t.wakeDeadlineMs ≤ now then { t with wakeDeadlineMs := 0 }.wake else t
  | .blocked .poll =>
    if t.wakeDeadlineMs ≠ 0 ∧ t.wakeDeadlineMs ≤ now then t.wake else t
  | .blocked .futex =>
    if t.wakeDeadlineMs ≠ 0 ∧ t.wakeDeadlineMs ≤ now then
      { t with frame := { t.frame with eax := -110 }, futexKey := 0, wakeDeadlineMs := 0 }.wake
    else t
  | _ => t

/-- What `wake_waiters` does to a task. -/
def wakeFor (reason : WaitReason) (t : Task) : Task :=
  if t.state = .blocked reason then t.wake else t

/-- What `wake_network_waiters` does to a task. -/
def wakeReady (readable writable : BitVec 128) (t : Task) : Task :=
  if (t.state = .blocked .poll ∨ t.state = .blocked .socket) ∧
      (t.networkWaitAny = true ∨ t.networkWaitRead &&& readable ≠ 0 ∨
        t.networkWaitWrite &&& writable ≠ 0) then t.wake
  else t

/-- What `wake_periodic_poll_waiters` does to a task. -/
def wakePeriodic : Task :=
  if t.state = .blocked .poll ∧ t.pollPeriodic = true then t.wake else t

/-- The scheduler may select the task. -/
def claimable : Bool :=
  t.running && decide (t.state = .runnable) && !t.zombie && !t.threadExited

end Task

/-! ## Signals of a task -/

/-- The bit of a signal; there is none for other numbers. -/
def sigbit (sig : Nat) : BitVec 31 :=
  if sig = 0 ∨ 31 < sig then 0 else BitVec.twoPow 31 (sig - 1)

def sighup : Nat := 1
def sigint : Nat := 2
def sigquit : Nat := 3
def sigkill : Nat := 9
def sigterm : Nat := 15
def sigcont : Nat := 18
def sigstop : Nat := 19
def sigtstp : Nat := 20
def sigttin : Nat := 21
def sigttou : Nat := 22

/-- `SIG_IGN`; the default action is 0. -/
def sigIgn : UInt32 := 1

def defaultTerminate : BitVec 31 :=
  sigbit sighup ||| sigbit sigint ||| sigbit sigquit ||| sigbit sigkill ||| sigbit sigterm

def lowestSig (mask : BitVec 31) : Option Nat :=
  (List.range' 1 31).find? fun sig => mask.getLsbD (sig - 1)

namespace Task

/-- The signal is pending. -/
def Pending (t : Task) (sig : Nat) : Prop := t.pendingSignals.getLsbD (sig - 1) = true
  deriving Decidable

/-- The disposition of a signal. -/
def handler (t : Task) (sig : Nat) : UInt32 := t.signalHandlers (sig - 1)

def clearSignal (t : Task) (sig : Nat) : Task :=
  { t with pendingSignals := t.pendingSignals &&& ~~~sigbit sig }

end Task

end Felix.Kernel
