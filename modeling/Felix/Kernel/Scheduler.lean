import Mathlib.Logic.Function.Basic
import Felix.Kernel.Task

/-!
# The scheduler

The task manager with the statics that belong to it: the owner of each slot, the slot
that each processor runs, and the clock.  Everything here runs under the kernel lock,
so that a function of the source is a function on this state.

A processor is a number, and 0 is the one that booted.  A frame is kept with the task
whose kernel stack it lies on; the frame that a function of the source gets as `esp` is
that of the current task.

`history` is not in the source.  It records for each slot what happened to the task in
it, the newest event first, so that theorems can speak about the order of events.
-/

namespace Felix.Kernel

open Function

/-- What can happen to a task. -/
inductive Event where
  /-- It was selected to run, at the given uptime. -/
  | selected (now : Nat)
  | stopped
  | continued
  | killed (sig : Nat)
  | exited
  /-- A signal was queued for its process. -/
  | signalled
  /-- A handler of its process was started. -/
  | started (sig : Nat)
  deriving DecidableEq, Repr

/-- `JIFFIES` and `PIT_DIVISOR`. -/
structure Clock where
  jiffies : UInt32
  divisor : UInt32
  deriving DecidableEq, Repr

/-- `saturating_mul` of 64-bit words. -/
def satMul64 (a b : Nat) : Nat := min (a * b) (2 ^ 64 - 1)

/-- `saturating_add` of 64-bit words. -/
def satAdd64 (a b : Nat) : Nat := min (a + b) (2 ^ 64 - 1)

namespace Clock

def uptimeMs (c : Clock) : Nat :=
  if c.divisor = 0 then 0
  else satMul64 (satMul64 c.jiffies.toNat c.divisor.toNat) 1000 / 1193182

/-- `jiffies_inc`. -/
def tick (c : Clock) : Clock := { c with jiffies := c.jiffies + 1 }

end Clock

/-- The uptime is below the limit of the saturating additions. -/
theorem uptimeMs_lt (c : Clock) : c.uptimeMs < 2 ^ 64 - 1 := by
  unfold Clock.uptimeMs
  split
  · decide
  have hle : satMul64 (satMul64 c.jiffies.toNat c.divisor.toNat) 1000 ≤ 2 ^ 64 - 1 :=
    Nat.min_le_right ..
  exact Nat.lt_of_le_of_lt (Nat.div_le_div_right hle) (by decide)

structure TaskManager where
  tasks : Slot → Option Task
  nextPid : Int
  currentTask : Option Slot
  firstSwitch : Bool
  /-- `TASK_OWNER`. -/
  owner : Slot → Option Nat
  /-- `CURRENT_TASK` of each processor. -/
  onCpu : Nat → Option Slot
  clock : Clock
  history : Slot → List Event

namespace TaskManager

variable (cpu : Nat) (slot : Slot) (m : TaskManager)

/-- The uptime. -/
def now : Nat := m.clock.uptimeMs

/-- Every task is changed. -/
def mapTasks (f : Task → Task) (m : TaskManager) : TaskManager :=
  { m with tasks := fun s => (m.tasks s).map f }

/-- The task in a slot is changed. -/
def modify (f : Task → Task) (m : TaskManager) : TaskManager :=
  { m with tasks := update m.tasks slot ((m.tasks slot).map f) }

/-- An event of the task in a slot. -/
def record (e : Event) (m : TaskManager) : TaskManager :=
  { m with history := update m.history slot (e :: m.history slot) }

/-- The events of the task in a slot between two states. -/
def newEvents (m m' : TaskManager) : List Event :=
  (m'.history slot).take ((m'.history slot).length - (m.history slot).length)

theorem newEvents_eq {slot : Slot} {m m' : TaskManager} {es : List Event}
    (h : m'.history slot = es ++ m.history slot) : newEvents slot m m' = es := by
  unfold newEvents
  rw [h, List.length_append, Nat.add_sub_cancel]
  exact List.take_left

def processSlot (slot : Slot) : Slot :=
  match m.tasks slot with
  | some t => t.leaderSlot.getD slot
  | none => slot

/-- The task belongs to the process of a leader, and the test holds of it. -/
def inProcess (leader : Slot) (test : Task → Bool) (t : Task) : Bool :=
  t.leaderSlot = some leader && test t

/-- A loop over `thread_slots`: the tasks of a process for which the test holds are
changed, and an event is recorded for each of them. -/
def onThreads (leader : Slot) (test : Task → Bool) (f : Task → Task) (e : Event)
    (m : TaskManager) : TaskManager :=
  { m with
    tasks := fun s => (m.tasks s).map fun t => if inProcess leader test t = true then f t else t
    history := fun s =>
      if (m.tasks s).any (inProcess leader test) = true then e :: m.history s else m.history s }

/-! ## Waking -/

def wakeExpiredTimers (now : Nat) (m : TaskManager) : TaskManager := m.mapTasks (Task.expire now)

def wakeWaiters (reason : WaitReason) (m : TaskManager) : TaskManager :=
  m.mapTasks (Task.wakeFor reason)

def wakeNetworkWaiters (readable writable : BitVec 128) (m : TaskManager) : TaskManager :=
  m.mapTasks (Task.wakeReady readable writable)

def wakePeriodicPollWaiters : TaskManager := m.mapTasks Task.wakePeriodic

/-! ## Selecting a task -/

/-- The owner of a slot is taken away if its processor runs something else. -/
def repairOwner : TaskManager :=
  match m.owner slot with
  | none => m
  | some cpu =>
    if m.onCpu cpu = some slot then m
    else { m with owner := update m.owner slot none }

/-- The loop of `claim_next_task`.  The result is 0 if no task was found. -/
def claimFrom (cpu : Nat) : Nat → Slot → TaskManager → Slot × TaskManager
  | 0, _, m => (0, m)
  | n + 1, slot, m =>
    let slot := if slot = 0 then 1 else slot
    let m := m.repairOwner slot
    if (m.tasks slot).any Task.claimable = true ∧ m.owner slot = none then
      (slot, { m with owner := update m.owner slot (some cpu) }.record slot
        (.selected m.now))
    else claimFrom cpu n (slot + 1) m

def claimNextTask (after : Option Slot) (m : TaskManager) : Slot × TaskManager :=
  claimFrom cpu 31 ((after.map (· + 1)).getD 1) m

/-- A task that can go on is no longer running. -/
def putBack (t : Task) : Task := if t.running = true then { t with state := .runnable } else t

/-- The current task of a processor leaves it. -/
def leave : TaskManager :=
  let m := m.modify slot putBack
  ({ m with owner := update m.owner slot none }.wakeWaiters .child).wakeWaiters .thread

/-- A processor goes on with the task in a slot. -/
def enter : TaskManager :=
  { m with onCpu := update m.onCpu cpu (some slot) }.modify slot
    fun t => { t with state := .running cpu }

/-- The part of `schedule_ap` in which the current task leaves its processor. -/
def leaveCpu : TaskManager :=
  match m.onCpu cpu with
  | none => m
  | some slot => if (m.tasks slot).isSome = true then m.leave slot else m

def scheduleAp : TaskManager :=
  let (next, m) := (m.leaveCpu cpu).claimNextTask cpu (m.onCpu cpu)
  if next = 0 then { m with onCpu := update m.onCpu cpu none }
  else m.enter cpu next

/-- The part of `schedule` in which the current task leaves the processor that booted. -/
def leaveCurrent : TaskManager :=
  match m.currentTask with
  | none => m
  | some slot => if slot = 0 then m.modify slot putBack else m.leave slot

def schedule : TaskManager :=
  let m := m.wakeExpiredTimers m.now
  if cpu ≠ 0 then m.scheduleAp cpu
  else if (m.tasks 0).isNone = true then m
  else if m.firstSwitch = true then
    let (next, m) := { m with firstSwitch := false, currentTask := some 0 }.claimNextTask 0 (some 0)
    { m with currentTask := some next }.enter 0 next
  else
    let m := m.leaveCurrent
    let (next, m) := m.claimNextTask 0 m.currentTask
    let next := if (m.tasks next).any Task.running = true then next else 0
    { m with currentTask := some next }.enter 0 next

end TaskManager

end Felix.Kernel
