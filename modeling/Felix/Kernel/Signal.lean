import Felix.Kernel.Scheduler

/-!
# Signals

`signal.rs`, and `signal_slot`, `sys_kill` and `sys_sigaction` of the system call
handler.  A signal is queued at the leader of a process.  It is delivered to the thread
that is about to return to user mode, by `deliver_pending`; if that kills the process,
another task is selected, and `deliver_pending_after_switch` looks at its signals.
-/

namespace Felix.Kernel

namespace Task

/-- What `force_kill` does to a thread of the process. -/
def kill (sig : Nat) (t : Task) : Task :=
  { t with
    pendingSignals := 0
    running := false
    state := .zombie
    stopped := false
    threadExited := true
    termSignal := sig
    exitCode := 128 + sig }

/-- What `stop_task_with_signal` does to a thread of the process. -/
def halt (t : Task) : Task := { t with running := false, state := .stopped, stopped := true }

/-- What `continue_task` does to a thread of the process. -/
def resume (t : Task) : Task := { t with stopped := false, running := true, state := .runnable }

/-- The thread has not exited. -/
def live (t : Task) : Bool := !t.threadExited

/-- A signal is queued, which wakes a task that waits. -/
def queue (sig : Nat) (t : Task) : Task :=
  let t := { t with pendingSignals := t.pendingSignals ||| sigbit sig }
  match t.state with
  | .blocked _ => t.wake
  | _ => t

end Task

def einval : UInt32 := -22

namespace TaskManager

variable (slot : Slot) (sig : Nat) (m : TaskManager)

/-! ## Processes -/

def slotByPid (pid : Int) : Option Slot :=
  (List.finRange 32).find? fun s =>
    (m.tasks s).any fun t => t.pid = pid && t.leaderSlot = some s

def slotsInPgid (pgid : Int) : List Slot :=
  (List.finRange 32).filter fun s =>
    (m.tasks s).any fun t => t.pgid = pgid && !t.zombie && t.leaderSlot = some s

/-- The process that the children of a dead process get, if it is alive. -/
def initSlot (deadPid : Int) : Option Slot :=
  if deadPid = 1 then none
  else (m.slotByPid 1).filter fun s => (m.tasks s).any fun t => !t.zombie

def reparentChildrenOf (deadPid : Int) (m : TaskManager) : TaskManager :=
  if deadPid ≤ 0 then m
  else
    let init := m.initSlot deadPid
    m.mapTasks fun t =>
      if t.ppid = deadPid then
        { t with ppid := if init.isSome = true then 1 else 0, parent := some (init.getD 0) }
      else t

/-! ## Sending -/

def sendSignal : Bool × TaskManager :=
  if slot = 0 ∨ sig = 0 ∨ 31 < sig then (false, m)
  else
    let leader := m.processSlot slot
    match m.tasks leader with
    | none => (false, m)
    | some t =>
      if t.zombie = true then (false, m)
      else (true, (m.modify leader (Task.queue sig)).record leader .signalled)

/-- What `stop_task_with_signal` does to the leader at its end. -/
def noteStop (t : Task) : Task :=
  { t with
    stopSignal := sig
    waitStoppedPending := true
    pendingSignals := t.pendingSignals &&& ~~~(sigbit sig ||| sigbit sigcont) }

def stopTaskWithSignal : Bool × TaskManager :=
  if slot = 0 then (false, m)
  else
    let leader := m.processSlot slot
    if (m.tasks leader).all (fun t => t.zombie || t.stopped) = true then (false, m)
    else
      let m := m.onThreads leader Task.live Task.halt .stopped
      (true, (m.modify leader (noteStop sig)).wakeWaiters .child)

/-- The signals that `continue_task` takes back. -/
def jobControl : BitVec 31 :=
  sigbit sigcont ||| sigbit sigstop ||| sigbit sigtstp ||| sigbit sigttin ||| sigbit sigttou

/-- What `continue_task` does to the leader at its end. -/
def noteContinue (wasStopped : Bool) (t : Task) : Task :=
  { t with
    waitContinuedPending := t.waitContinuedPending || wasStopped
    pendingSignals := t.pendingSignals &&& ~~~jobControl }

def continueTask : Bool × TaskManager :=
  if slot = 0 then (false, m)
  else
    let leader := m.processSlot slot
    let wasStopped := (m.tasks leader).any Task.stopped
    let m := m.onThreads leader Task.live Task.resume .continued
    if (m.tasks leader).all Task.zombie = true then (false, m)
    else (true, (m.modify leader (noteContinue wasStopped)).wakeWaiters .child)

/-- `force_kill`.  The descriptors and windows of the process are closed later. -/
def forceKill : Bool × TaskManager :=
  if slot = 0 then (false, m)
  else
    let leader := m.processSlot slot
    match m.tasks leader with
    | none => (false, m)
    | some t =>
      if t.zombie = true then (false, m)
      else
        let termSignal := if sig = 0 then sigkill else sig
        let m := m.onThreads leader (fun _ => true) (Task.kill termSignal) (.killed termSignal)
        let m := m.modify leader fun t => { t with zombie := true }
        (true, ((m.reparentChildrenOf t.pid).wakeWaiters .child).wakeWaiters .thread)

/-- The disposition of a signal; it is the default one without a task. -/
def handlerOf (slot : Slot) (sig : Nat) : UInt32 :=
  ((m.tasks slot).map (Task.handler · sig)).getD 0

/-- The signal stops a process by default, but can be caught. -/
def isJobStop : Bool := sig = sigtstp || sig = sigttin || sig = sigttou

def signalSlot : Bool × TaskManager :=
  if slot = 0 then (false, m)
  else if sig = sigkill then m.forceKill slot sig
  else if sig = sigstop then m.stopTaskWithSignal slot sigstop
  else if isJobStop sig = true then
    if m.handlerOf slot sig = sigIgn then (true, m)
    else if m.handlerOf slot sig ≠ 0 then m.sendSignal slot sig
    else m.stopTaskWithSignal slot sig
  else if sig = sigcont then
    let handler := m.handlerOf slot sig
    let (resumed, m) := m.continueTask slot
    if resumed = true ∧ handler ≠ 0 ∧ handler ≠ sigIgn then (resumed, (m.sendSignal slot sig).2)
    else (resumed, m)
  else m.sendSignal slot sig

/-- A signal is sent to several processes, one after the other. -/
def signalSlots (slots : List Slot) (sig : Nat) (m : TaskManager) : Bool × TaskManager :=
  slots.foldl (fun r slot => ((r.1 || (signalSlot slot sig r.2).1), (signalSlot slot sig r.2).2))
    (false, m)

/-- The processes that `sys_kill` sends a signal to. -/
def killTargets (current : Slot) (pid : Int) : List Slot :=
  if 0 < pid then (m.slotByPid pid).toList
  else if pid = 0 then m.slotsInPgid (((m.tasks current).map Task.pgid).getD (-1))
  else if pid = -1 then
    (List.finRange 32).filter fun s =>
      s ≠ 0 && (m.tasks s).any fun t => t.leaderSlot = some s &&
        t.pid ≠ ((m.tasks current).map Task.pid).getD (-1) && !t.zombie
  else m.slotsInPgid (-pid)

def sysKill (current : Slot) (pid : Int) (sig : Nat) (m : TaskManager) : UInt32 × TaskManager :=
  if sig = 0 ∨ 31 < sig then (einval, m)
  else
    let (any, m) := m.signalSlots (m.killTargets current pid) sig
    (if any = true then 0 else -1, m)

/-- `signal_group` of the terminal, which does the same to every process of a group. -/
def signalGroup (pgid : Int) (sig : Nat) (m : TaskManager) : TaskManager :=
  (m.signalSlots (m.slotsInPgid pgid) sig).2

/-- `sys_sigaction` with a new action. -/
def sysSigaction (current : Slot) (sig : Nat) (handler : UInt32) (m : TaskManager) :
    UInt32 × TaskManager :=
  if sig = 0 ∨ 31 < sig ∨ sig = sigkill ∨ sig = sigstop then (-1, m)
  else (if (m.tasks current).isSome = true then 0 else -1, m.modify current fun t =>
    { t with signalHandlers := Function.update t.signalHandlers (sig - 1) handler })

/-! ## Delivery -/

/-- The signals that can be delivered to a process now. -/
def deliverable (slot : Slot) : Option (BitVec 31) :=
  ((m.tasks slot).filter fun t => t.pendingSignals ≠ 0 && t.running && !t.zombie).map
    Task.pendingSignals

def deliverPendingAfterSwitch (cpu : Nat) (m : TaskManager) : TaskManager :=
  match m.onCpu cpu with
  | none => m
  | some thread =>
    if thread = 0 then m
    else
      let slot := m.processSlot thread
      match m.deliverable slot with
      | none => m
      | some pending =>
        let fatal := pending &&& defaultTerminate
        if fatal ≠ 0 then (m.forceKill slot ((lowestSig fatal).getD sigint)).2.schedule cpu
        else m.modify slot fun t => { t with pendingSignals := 0 }

/-- A handler is started: the thread returns to it, with the signal and the old program
counter on its stack. -/
def startHandler (thread slot : Slot) (sig : Nat) (handler : UInt32) (m : TaskManager) :
    TaskManager :=
  let m := (m.modify slot (Task.clearSignal · sig)).record slot (.started sig)
  m.modify thread fun t =>
    { t with frame := { t.frame with esp := t.frame.esp - 8, eip := handler } }

/-- The loop of `deliver_pending` over the signals that were pending, the lowest first. -/
def deliverSignals (cpu : Nat) (thread slot : Slot) (pending : BitVec 31) :
    List Nat → TaskManager → TaskManager
  | [], m => m
  | sig :: sigs, m =>
    if pending.getLsbD (sig - 1) = false then deliverSignals cpu thread slot pending sigs m
    else if m.handlerOf slot sig = sigIgn then
      deliverSignals cpu thread slot pending sigs (m.modify slot (Task.clearSignal · sig))
    else if m.handlerOf slot sig ≠ 0 then m.startHandler thread slot sig (m.handlerOf slot sig)
    else if defaultTerminate &&& sigbit sig ≠ 0 then
      ((m.forceKill slot sig).2.schedule cpu).deliverPendingAfterSwitch cpu
    else deliverSignals cpu thread slot pending sigs (m.modify slot (Task.clearSignal · sig))

/-- The task in a slot returns to user mode. -/
def inUserMode (slot : Slot) : Bool :=
  slot ≠ 0 && (m.tasks slot).any fun t => t.frame.user

def deliverPending (cpu : Nat) (m : TaskManager) : TaskManager :=
  match m.onCpu cpu with
  | none => m
  | some thread =>
    if m.inUserMode thread = false then m
    else
      let slot := m.processSlot thread
      match m.deliverable slot with
      | none => m
      | some pending => m.deliverSignals cpu thread slot pending (List.range' 1 31)

end TaskManager

end Felix.Kernel
