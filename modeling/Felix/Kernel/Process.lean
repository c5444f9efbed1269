import Felix.Base.Fault
import Felix.Kernel.Syscall

/-!
# Processes

How tasks come and go: `add_task`, `sys_spawn_image` and `sys_thread_create` put one into a
free slot, and `reap` and `reap_thread` take it out, for `sys_wait_status`, `sys_thread_join`
and when a slot is needed.  `sys_setpgid` and `sys_setsid` change the process group and the
session of a process.

What a program that is started brings along is an argument: its entry point and its stack
pointer, or that it could not be loaded.  `sys_execve` is not part of the model, and neither
are the descriptors, the memory and the terminal of a task.
-/

namespace Felix.Kernel

open Function

def eperm : UInt32 := -1
def esrch : UInt32 := -3
def ebusy : UInt32 := -16
def edeadlk : UInt32 := -35

/-- The result `usize::MAX`. -/
def usizeMax : UInt32 := -1

/-- `Task::new` and `Task::new_thread`, and the registers that a new task starts with. -/
def Task.new (isThread : Bool) (entry esp : UInt32) : Task where
  frame := ⟨0, entry, esp, true⟩
  running := true
  state := .runnable
  pid := -1
  ppid := -1
  pgid := -1
  sid := -1
  parent := none
  tid := -1
  leaderSlot := none
  isThread := isThread
  threadDetached := false
  threadExited := false
  threadExitValue := 0
  zombie := false
  stopped := false
  stopSignal := 0
  waitStoppedPending := false
  waitContinuedPending := false
  termSignal := 0
  exitCode := 0
  pendingSignals := 0
  signalHandlers := fun _ => 0
  wakeDeadlineMs := 0
  futexKey := 0
  networkWaitRead := 0
  networkWaitWrite := 0
  networkWaitAny := false
  pollPeriodic := false

namespace TaskManager

variable (m : TaskManager)

/-- `init`: there is the idle task, which runs on the processor that booted. -/
def init (clock : Clock) (entry esp : UInt32) : TaskManager where
  tasks := update (fun _ => none) 0 (some
    { Task.new false entry esp with
      frame := ⟨0, entry, esp, false⟩
      state := .running 0
      pid := 0, tid := 0, leaderSlot := some 0, pgid := 0, sid := 0 })
  nextPid := 1
  currentTask := some 0
  firstSwitch := true
  owner := update (fun _ => none) 0 (some 0)
  onCpu := update (fun _ => none) 0 (some 0)
  clock := clock
  history := fun _ => []

/-! ## Reaping -/

/-- The tasks for which the test holds are taken out. -/
def drop (test : Slot → Task → Bool) (m : TaskManager) : TaskManager :=
  { m with tasks := fun s => (m.tasks s).filter fun t => !test s t }

/-- `process_quiescent`: no thread of the process is on a processor. -/
def processQuiescent (leader : Slot) : Bool :=
  (List.finRange 32).all fun s =>
    !(m.tasks s).any (fun t => t.leaderSlot = some leader) || m.owner s = none

def reap (id : Slot) (m : TaskManager) : Bool × TaskManager :=
  if id = 0 ∨ m.processQuiescent id = false then (false, m)
  else
    match m.tasks id with
    | none => (false, m)
    | some t =>
      if t.zombie = false then (false, m)
      else
        (true, (m.reparentChildrenOf t.pid).drop fun s t => s = id || t.leaderSlot = some id)

def reapThread (id : Slot) (m : TaskManager) : Bool × TaskManager :=
  if id = 0 ∨ m.owner id ≠ none then (false, m)
  else if (m.tasks id).any (fun t => t.isThread && t.threadExited) = true then
    (true, m.drop fun s _ => s = id)
  else (false, m)

def reapDetachedThreads : TaskManager :=
  (List.finRange 32).foldl (fun m slot =>
    if slot ≠ 0 ∧ m.owner slot = none ∧
        (m.tasks slot).any (fun t => t.isThread && t.threadExited && t.threadDetached) = true then
      (m.reapThread slot).2
    else m) m

def parentGone (ppid : Int) : Bool := ppid ≤ 0 || (m.slotByPid ppid).isNone

/-- A task that is not init and has no parent. -/
def orphan (slot : Slot) (t : Task) : Bool :=
  slot ≠ 0 && t.pid ≠ 1 && m.parentGone t.ppid

/-- `reap_orphans`.  Nothing that the loop changes is read by it. -/
def reapOrphans : TaskManager :=
  match (m.slotByPid 1).filter fun s => (m.tasks s).any fun t => !t.zombie with
  | some init =>
    { m with
      tasks := fun s => (m.tasks s).map fun t =>
        if m.orphan s t = true then { t with ppid := 1, parent := some init } else t }
  | none =>
    ((List.finRange 32).filter fun s => (m.tasks s).any fun t => m.orphan s t && t.zombie).foldl
      (fun m id => (m.reap id).2) m

def getFreeSlot : Option Slot × TaskManager :=
  let m := m.reapDetachedThreads.reapOrphans
  ((List.finRange 32).find? fun s => (m.tasks s).isNone, m)

/-! ## Creating -/

/-- `alloc_pid`.  The counter has 32 bits with a sign. -/
def allocPid : Int × TaskManager :=
  (max m.nextPid 1,
    { m with nextPid := if 0 ≤ m.nextPid ∧ m.nextPid < 2 ^ 31 - 1 then m.nextPid + 1 else 1 })

/-- A task is put into a slot. -/
def publish (slot : Slot) (t : Task) (m : TaskManager) : TaskManager :=
  { m with tasks := update m.tasks slot (some t) }

def addTask (entry esp : UInt32) (m : TaskManager) : TaskManager :=
  match m.getFreeSlot with
  | (none, m) => m
  | (some slot, m) =>
    let (pid, m) := m.allocPid
    m.publish slot
      { Task.new false entry esp with
        pid, tid := pid, leaderSlot := some slot, ppid := 0, pgid := pid, sid := pid
        parent := some 0 }

/-- The session of a new process. -/
def spawnSid (parent : Slot) (pid : Int) : Int :=
  let inherited := ((m.tasks parent).map Task.sid).getD pid
  if parent = 0 ∨ inherited ≤ 0 then pid else inherited

/-- The process group of a new process, if there is one as requested. -/
def spawnPgid (parent : Slot) (requested pid sid : Int) : Option Int :=
  let inherited := ((m.tasks parent).map Task.pgid).getD pid
  if requested = -1 then some (if parent = 0 ∨ inherited ≤ 0 then pid else inherited)
  else if requested = 0 then some pid
  else if 0 < requested then
    if (List.finRange 32).any
        (fun s => (m.tasks s).any fun t => t.pgid = requested && t.sid = sid) = true then
      some requested
    else none
  else none

def sysSpawnImage (parent : Slot) (requested : Int) (image : Option (UInt32 × UInt32))
    (m : TaskManager) : UInt32 × TaskManager :=
  match m.getFreeSlot with
  | (none, m) => (usizeMax, m)
  | (some slot, m) =>
    let (pid, m) := m.allocPid
    let sid := m.spawnSid parent pid
    match m.spawnPgid parent requested pid sid, image with
    | some pgid, some (entry, esp) =>
      (UInt32.ofInt pid, m.publish slot
        { Task.new false entry esp with
          pid, tid := pid, leaderSlot := some slot, pgid, sid
          ppid := ((m.tasks parent).map Task.pid).getD 0
          parent := some parent })
    | _, _ => (usizeMax, m)

/-- `sys_thread_create`.  `stackFree` says that the stack of the slot is not mapped. -/
def sysThreadCreate (leader : Slot) (entry esp : UInt32) (stackFree : Bool) (m : TaskManager) :
    UInt32 × TaskManager :=
  if leader = 0 ∨ entry = 0 then (einval, m)
  else
    match m.getFreeSlot with
    | (none, m) => (eagain, m)
    | (some slot, m) =>
      let (tid, m) := m.allocPid
      match m.tasks leader with
      | none => (einval, m)
      | some l =>
        if l.zombie = true then (einval, m)
        else if stackFree = false then (ebusy, m)
        else
          (UInt32.ofInt tid, m.publish slot
            { Task.new true entry esp with
              pid := l.pid, tid, leaderSlot := some leader, ppid := l.ppid, pgid := l.pgid
              sid := l.sid, parent := l.parent })

/-! ## Threads -/

def slotByTid (tid : Int) : Option Slot :=
  (List.finRange 32).find? fun s => (m.tasks s).any fun t => t.tid = tid

def sysThreadJoin (leader caller : Slot) (tid : Int) (m : TaskManager) : UInt32 × TaskManager :=
  if tid ≤ 0 then (einval, m)
  else
    match m.slotByTid tid with
    | none => (esrch, m)
    | some slot =>
      if slot = caller then (edeadlk, m)
      else
        match m.tasks slot with
        | none => (esrch, m)
        | some t =>
          if t.leaderSlot ≠ some leader ∨ t.isThread = false ∨ t.threadDetached = true then
            (einval, m)
          else if t.threadExited = false then (eagain, m)
          else if (m.reapThread slot).1 = false then (eagain, m)
          else (UInt32.ofInt tid, (m.reapThread slot).2)

def sysThreadDetach (leader caller : Slot) (tid : Int) (m : TaskManager) : UInt32 × TaskManager :=
  if tid ≤ 0 then (einval, m)
  else
    match m.slotByTid tid with
    | none => (esrch, m)
    | some slot =>
      match m.tasks slot with
      | none => (esrch, m)
      | some t =>
        if slot = caller ∨ t.leaderSlot ≠ some leader ∨ t.isThread = false ∨
            t.threadDetached = true then (einval, m)
        else
          let m := m.modify slot fun t => { t with threadDetached := true }
          (0, if t.threadExited = true then (m.reapThread slot).2 else m)

/-! ## Waiting for a child -/

/-- What a wait can tell about a child. -/
inductive ChildEvent where
  | exited (slot : Slot) (pid : Int) (exitCode : Int) (termSignal : Nat)
  | stopped (slot : Slot) (pid : Int) (sig : Nat)
  | continued (slot : Slot) (pid : Int)
  deriving DecidableEq, Repr

/-- The options of a wait. -/
structure WaitOptions where
  /-- `WNOHANG`. -/
  nohang : Bool
  /-- `WUNTRACED`. -/
  untraced : Bool
  /-- `WCONTINUED`. -/
  continued : Bool
  deriving DecidableEq, Repr

def matchesSelector (parentPid parentPgid pid : Int) (child : Task) : Bool :=
  child.ppid = parentPid &&
    (if 0 < pid then decide (child.pid = pid)
    else if pid = -1 then true
    else if pid = 0 then decide (child.pgid = parentPgid)
    else decide (child.pgid = -pid))

/-- What there is to tell about a child. -/
def childEvent (options : WaitOptions) (slot : Slot) (child : Task) : Option ChildEvent :=
  if child.zombie = true then some (.exited slot child.pid child.exitCode child.termSignal)
  else if options.untraced = true ∧ child.waitStoppedPending = true then
    some (.stopped slot child.pid child.stopSignal)
  else if options.continued = true ∧ child.waitContinuedPending = true then
    some (.continued slot child.pid)
  else none

/-- The first event that a wait finds. -/
def waitEvent (test : Task → Bool) (options : WaitOptions) : Option ChildEvent :=
  (List.finRange 32).findSome? fun s =>
    if s = 0 then none
    else ((m.tasks s).filter test).bind (childEvent options s)

/-- The status word of a child that has ended. -/
def exitStatus (exitCode : Int) (termSignal : Nat) : Int :=
  if termSignal ≠ 0 then termSignal % 128 else exitCode % 256 * 256

/-- `sys_wait_status`, with the status that it stores. -/
def sysWaitStatus (current : Slot) (pid : Int) (options : WaitOptions) (m : TaskManager) :
    UInt32 × Option Int × TaskManager :=
  match m.tasks current with
  | none => (usizeMax, none, m)
  | some parent =>
    if parent.pid < 0 then (usizeMax, none, m)
    else
      let test := matchesSelector parent.pid parent.pgid pid
      match m.waitEvent test options with
      | some (.exited slot childPid exitCode termSignal) =>
        if (m.reap slot).1 = false then
          (if options.nohang = true then 0 else eagain, none, m)
        else
          (UInt32.ofInt childPid, some (exitStatus exitCode termSignal), (m.reap slot).2)
      | some (.stopped slot childPid sig) =>
        (UInt32.ofInt childPid, some (sig % 256 * 256 + 127),
          m.modify slot fun t => { t with waitStoppedPending := false })
      | some (.continued slot childPid) =>
        (UInt32.ofInt childPid, some 0xffff,
          m.modify slot fun t => { t with waitContinuedPending := false })
      | none =>
        if options.nohang = true then (0, none, m)
        else if (List.finRange 32).any (fun s => s ≠ 0 && (m.tasks s).any test) = true then
          (eagain, none, m)
        else (usizeMax, none, m)

/-! ## Groups and sessions -/

def sysSetpgid (current : Slot) (pid pgid : Int) (m : TaskManager) : UInt32 × TaskManager :=
  let callerPid := ((m.tasks current).map Task.pid).getD (-1)
  let callerSid := ((m.tasks current).map Task.sid).getD (-1)
  let targetPid := if pid = 0 then callerPid else pid
  match m.slotByPid targetPid with
  | none => (usizeMax, m)
  | some slot =>
    match m.tasks slot with
    | none => (usizeMax, m)
    | some target =>
      if targetPid ≠ callerPid ∧ target.ppid ≠ callerPid then (eperm, m)
      else if target.sid ≠ callerSid then (eperm, m)
      else
        let newPgid := if pgid = 0 then targetPid else pgid
        if newPgid ≠ targetPid ∧ (List.finRange 32).any
            (fun s => (m.tasks s).any fun t => t.pgid = newPgid && t.sid = target.sid) = false then
          (eperm, m)
        else (0, m.modify slot fun t => { t with pgid := newPgid })

def sysSetsid (current : Slot) (m : TaskManager) : UInt32 × TaskManager :=
  match m.tasks current with
  | none => (usizeMax, m)
  | some t =>
    if t.pgid = t.pid then (eperm, m)
    else
      (UInt32.ofInt t.pid, m.modify current fun t => { t with sid := t.pid, pgid := t.pid })

end TaskManager

/-! ## Steps -/

/-- The system calls that create, reap and regroup tasks. -/
inductive ProcCall where
  | spawn (requested : Int) (image : Option (UInt32 × UInt32))
  | threadCreate (entry esp : UInt32) (stackFree : Bool)
  | threadJoin (tid : Int)
  | threadDetach (tid : Int)
  | wait (pid : Int) (options : TaskManager.WaitOptions)
  | setpgid (pid pgid : Int)
  | setsid

namespace TaskManager

/-- The result of a call that may have to wait. -/
def finishWait (cpu : Nat) (thread : Slot) (reason : WaitReason) (ret : UInt32)
    (m : TaskManager) : TaskManager :=
  if ret = eagain then m.blockAndRestart cpu thread reason ⟨0, 0, false, false⟩
  else m.setEax thread ret

/-- The calls themselves. -/
def performProc (cpu : Nat) (thread current : Slot) (call : ProcCall) (m : TaskManager) :
    TaskManager :=
  match call with
  | .spawn requested image =>
    let (ret, m) := m.sysSpawnImage current requested image
    m.finishCall cpu thread ret
  | .threadCreate entry esp stackFree =>
    let (ret, m) := m.sysThreadCreate current entry esp stackFree
    m.finishCall cpu thread ret
  | .threadJoin tid =>
    let (ret, m) := m.sysThreadJoin current thread tid
    m.finishWait cpu thread .thread ret
  | .threadDetach tid =>
    let (ret, m) := m.sysThreadDetach current thread tid
    m.finishCall cpu thread ret
  | .wait pid options =>
    let (ret, _, m) := m.sysWaitStatus current pid options
    m.finishWait cpu thread .child ret
  | .setpgid pid pgid =>
    let (ret, m) := m.sysSetpgid current pid pgid
    m.finishCall cpu thread ret
  | .setsid =>
    let (ret, m) := m.sysSetsid current
    m.finishCall cpu thread ret

/-- The task does not get to its call. -/
def barred (m : TaskManager) (thread : Slot) : Bool :=
  (m.tasks thread).all fun t => !t.running || t.threadExited || t.zombie

/-- `syscall_handler` for these calls. -/
def procHandler (cpu : Nat) (frame : Frame) (call : ProcCall) (m : TaskManager) : TaskManager :=
  match m.onCpu cpu with
  | none => m
  | some thread =>
    let m := m.saveFrame cpu frame
    let m :=
      if m.barred thread = true then m.schedule cpu
      else m.reapDetachedThreads.performProc cpu thread (m.processSlot thread) call
    m.deliverPending cpu

end TaskManager

/-- A step of the system in which tasks come and go. -/
inductive ProcOp where
  /-- A step that changes the tasks that are there. -/
  | kernel (op : Op)
  | call (cpu : Nat) (frame : Frame) (c : ProcCall)
  /-- The reaping at the start of every system call. -/
  | reapDetached
  | addTask (entry esp : UInt32)

def ProcOp.apply : ProcOp → TaskManager → TaskManager
  | .kernel op, m => op.apply m
  | .call cpu frame c, m => m.procHandler cpu frame c
  | .reapDetached, m => m.reapDetachedThreads
  | .addTask entry esp, m => m.addTask entry esp

def ProcOp.step (op : ProcOp) (m : TaskManager) : Res (Unit × TaskManager) := .ok ((), op.apply m)

end Felix.Kernel
