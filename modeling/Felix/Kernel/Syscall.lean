import Felix.Kernel.Signal

/-!
# The system

The entries of the kernel that change tasks: the system calls, the timer interrupts, the
faults of user programs and the network work.  Each runs under the kernel lock and is one
step; `Op.run` is a step of the system.

What the calls read from elsewhere is an argument: the readiness of descriptors, the word
of a futex, and what a terminal makes of a byte.  The reaping of tasks is not part of the
steps.
-/

namespace Felix.Kernel

/-- What `prepare_network_wait` computes from the descriptors of a call. -/
structure NetworkWait where
  read : BitVec 128
  write : BitVec 128
  any : Bool
  periodic : Bool

/-- The time that a timed call waits; there is none for an argument that is refused. -/
def waitMs (sec nsec : Int) : Option Nat :=
  if sec < 0 ∨ nsec < 0 ∨ 1000000000 ≤ nsec then none
  else some (satAdd64 (satMul64 sec.toNat 1000) ((nsec.toNat + 999999) / 1000000))

def efault : UInt32 := -14
def eagain : UInt32 := -11
def etimedout : UInt32 := -110

namespace TaskManager

variable (cpu : Nat) (thread : Slot)

def setEax (slot : Slot) (value : UInt32) (m : TaskManager) : TaskManager :=
  m.modify slot fun t => { t with frame := { t.frame with eax := value } }

def setDeadline (slot : Slot) (deadline : Nat) (m : TaskManager) : TaskManager :=
  m.modify slot fun t => { t with wakeDeadlineMs := deadline }

def deadlineOf (m : TaskManager) (slot : Slot) : Nat :=
  ((m.tasks slot).map Task.wakeDeadlineMs).getD 0

/-! ## Waiting -/

/-- The task waits, and executes its system call again when it is woken. -/
def restartLater (reason : WaitReason) (wait : NetworkWait) (t : Task) : Task :=
  let t := { t with frame := { t.frame with eip := t.frame.eip - 2 } }.block reason
  if reason = .poll ∨ reason = .socket then
    { t with
      networkWaitRead := wait.read
      networkWaitWrite := wait.write
      networkWaitAny := wait.any
      pollPeriodic := wait.periodic }
  else t

def blockAndRestart (reason : WaitReason) (wait : NetworkWait) (m : TaskManager) : TaskManager :=
  (m.modify thread (restartLater reason wait)).schedule cpu

/-- A task goes to sleep until the deadline. -/
def sleepUntil (deadline : Nat) (t : Task) : Task :=
  { t with wakeDeadlineMs := deadline }.block .timer

def sysNanosleepBlock (sec nsec : Int) (m : TaskManager) : TaskManager :=
  match waitMs sec nsec with
  | none => m.setEax thread einval
  | some wait =>
    let m := m.setEax thread 0
    if wait = 0 then m
    else (m.modify thread (sleepUntil (satAdd64 m.now wait))).schedule cpu

/-- A task waits for a futex. -/
def waitFutex (key deadline : Nat) (t : Task) : Task :=
  { t with futexKey := key, wakeDeadlineMs := deadline }.block .futex

/-- The part of `FUTEX_WAIT` behind the look at the timeout. -/
def futexBlock (deadline : Nat) (key : Option Nat) (word val : UInt32)
    (m : TaskManager) : TaskManager :=
  match key with
  | none => m.setEax thread efault
  | some key =>
    if word ≠ val then m.setEax thread eagain
    else ((m.setEax thread 0).modify thread (waitFutex key deadline)).schedule cpu

/-- `FUTEX_WAIT` of `sys_futex`.  The key is missing if the address is not mapped. -/
def futexWait (timeout : Option (Int × Int)) (key : Option Nat)
    (word val : UInt32) (m : TaskManager) : TaskManager :=
  match timeout with
  | none => m.futexBlock cpu thread 0 key word val
  | some (sec, nsec) =>
    match waitMs sec nsec with
    | none => m.setEax thread einval
    | some wait =>
      if wait = 0 then m.setEax thread etimedout
      else m.futexBlock cpu thread (satAdd64 m.now wait) key word val

/-- A task that waits for a futex is woken. -/
def wakeFutex (t : Task) : Task := { t with futexKey := 0, wakeDeadlineMs := 0 }.wake

/-- The loop of `FUTEX_WAKE`, with the number of tasks that were woken. -/
def futexWakeFrom (key count : Nat) : List Slot → Nat → TaskManager → Nat × TaskManager
  | [], woken, m => (woken, m)
  | slot :: slots, woken, m =>
    if count ≤ woken then (woken, m)
    else if (m.tasks slot).any (fun t => t.state = .blocked .futex && t.futexKey = key) = true then
      futexWakeFrom key count slots (woken + 1) (m.modify slot wakeFutex)
    else futexWakeFrom key count slots woken m

/-- `FUTEX_WAKE` of `sys_futex`. -/
def futexWake (thread : Slot) (key : Option Nat) (count : Nat) (m : TaskManager) : TaskManager :=
  match key with
  | none => m.setEax thread efault
  | some key =>
    let (woken, m) := m.futexWakeFrom key count (List.finRange 32) 0
    m.setEax thread (UInt32.ofNat woken)

/-- `sys_poll` gets a deadline if the task has none. -/
def startPoll (thread : Slot) (timeout : Int) (m : TaskManager) : TaskManager :=
  if 0 < timeout ∧ m.deadlineOf thread = 0 then
    m.setDeadline thread (satAdd64 m.now timeout.toNat)
  else m

/-- The number of descriptors that are ready.  `sys_poll` looks at 64 of them. -/
def readyCount (ready : List Bool) : Nat := (ready.take 64).count true

/-- `sys_poll`.  `ready` says for each descriptor if it has an event.  There is no result
if the task has to wait. -/
def sysPoll (thread : Slot) (nullFds : Bool) (ready : List Bool) (timeout : Int)
    (m : TaskManager) : Option UInt32 × TaskManager :=
  if nullFds = true ∧ ready ≠ [] then (some efault, m)
  else
    let m := m.startPoll thread timeout
    if 0 < readyCount ready then (some (UInt32.ofNat (readyCount ready)), m.setDeadline thread 0)
    else if timeout = 0 then (some 0, m)
    else if 0 < timeout ∧ m.deadlineOf thread ≤ m.now then (some 0, m.setDeadline thread 0)
    else (none, m)

/-! ## Exit -/

/-- What `sys_exit` does to a thread of the process. -/
def exitThread (value : UInt32) (t : Task) : Task :=
  { t with
    running := false
    state := .zombie
    stopped := false
    threadExited := true
    threadExitValue := value }

/-- What `finish_process` does to the leader. -/
def finishLeader (status : Int) (t : Task) : Task :=
  { t with
    running := false
    state := .zombie
    stopped := false
    threadExited := true
    zombie := true
    termSignal := 0
    exitCode := status }

/-- `finish_process` without a signal. -/
def finishProcess (leader : Slot) (status : Int) (m : TaskManager) : TaskManager :=
  let deadPid := ((m.tasks leader).map Task.pid).getD (-1)
  let m := (m.modify leader (finishLeader status)).record leader .exited
  ((m.reparentChildrenOf deadPid).wakeWaiters .child).wakeWaiters .thread

def sysExit (leader : Slot) (status : Int) (m : TaskManager) : TaskManager :=
  if leader = 0 then m.schedule cpu
  else
    let m := m.onThreads leader (fun _ => true) (exitThread (UInt32.ofInt status)) .exited
    (m.finishProcess leader status).schedule cpu

/-- `live_thread_count` is 0. -/
def allExited (m : TaskManager) (leader : Slot) : Bool :=
  (List.finRange 32).all fun s =>
    (m.tasks s).all fun t => t.leaderSlot ≠ some leader || t.threadExited

def sysThreadExit (value : UInt32) (m : TaskManager) : TaskManager :=
  if thread = 0 ∨ (m.tasks thread).isNone = true then m.schedule cpu
  else
    let leader := m.processSlot thread
    let m := (m.modify thread (exitThread value)).record thread .exited
    let m := m.wakeWaiters .thread
    if m.allExited leader = true then (m.finishProcess leader value.toInt32.toInt).schedule cpu
    else m.schedule cpu

/-! ## Terminals -/

/-- What a terminal does with a byte that is written to it. -/
inductive TtyByte where
  | taken
  | refused
  /-- The byte sends a signal to the foreground group. -/
  | signal (pgid : Int) (sig : Nat)

/-- The loop of `write` of a terminal.  There is no result if the task has to wait. -/
def ttyWrite (nonblock : Bool) : List TtyByte → Nat → TaskManager → Option Nat × TaskManager
  | [], written, m => (some written, m)
  | .taken :: bytes, written, m => ttyWrite nonblock bytes (written + 1) m
  | .signal pgid sig :: bytes, written, m =>
    ttyWrite nonblock bytes (written + 1) (m.signalGroup pgid sig)
  | .refused :: _, written, m =>
    (if written = 0 ∧ nonblock = false then none else some written, m)

end TaskManager

/-! ## Steps -/

/-- The system calls that change tasks. -/
inductive Call where
  | threadExit (value : UInt32)
  | exitGroup (status : Int)
  | yield
  | nanosleep (sec nsec : Int)
  | futexWait (timeout : Option (Int × Int)) (key : Option Nat) (word val : UInt32)
  | futexWake (key : Option Nat) (count : Nat)
  | poll (nullFds : Bool) (ready : List Bool) (timeout : Int) (wait : NetworkWait)
  | kill (pid : Int) (sig : Nat)
  | sigaction (sig : Nat) (handler : UInt32)
  /-- A process in the background uses its terminal, and its group gets a signal. -/
  | background (pgid : Int) (sig : Nat)
  | ttyWrite (nonblock : Bool) (bytes : List TaskManager.TtyByte) (wait : NetworkWait)
  /-- Another call that has to wait. -/
  | restart (reason : WaitReason) (wait : NetworkWait)
  /-- A call for a child or a thread that does not have to wait. -/
  | waited (ret : UInt32)
  /-- Another call that returns.  Some of them wake those that wait for input. -/
  | other (ret : UInt32) (wakesInput : Bool)

namespace TaskManager

/-- A call puts its result into the frame.  If it made its own task unable to run,
another one is selected. -/
def finishCall (cpu : Nat) (thread : Slot) (ret : UInt32) (m : TaskManager) : TaskManager :=
  let m := m.setEax thread ret
  if thread ≠ 0 ∧ (m.tasks thread).any
      (fun t => !t.running && (t.stopped || t.zombie || t.threadExited)) = true then m.schedule cpu
  else m.deliverPending cpu

/-- The calls themselves. -/
def perform (cpu : Nat) (thread : Slot) (call : Call) (m : TaskManager) : TaskManager :=
  let current := m.processSlot thread
  match call with
  | .threadExit value => m.sysThreadExit cpu thread value
  | .exitGroup status => m.sysExit cpu current status
  | .yield => (m.setEax thread 0).schedule cpu
  | .nanosleep sec nsec => m.sysNanosleepBlock cpu thread sec nsec
  | .futexWait timeout key word val => m.futexWait cpu thread timeout key word val
  | .futexWake key count => m.futexWake thread key count
  | .poll nullFds ready timeout wait =>
    match m.sysPoll thread nullFds ready timeout with
    | (none, m) => m.blockAndRestart cpu thread .poll wait
    | (some ret, m) => m.finishCall cpu thread ret
  | .kill pid sig =>
    let (ret, m) := m.sysKill current pid sig
    m.finishCall cpu thread ret
  | .sigaction sig handler =>
    let (ret, m) := m.sysSigaction current sig handler
    m.finishCall cpu thread ret
  | .background pgid sig => (m.signalGroup pgid sig).finishCall cpu thread (-1)
  | .ttyWrite nonblock bytes wait =>
    match m.ttyWrite nonblock bytes 0 with
    | (none, m) => m.blockAndRestart cpu thread .input wait
    | (some written, m) => m.finishCall cpu thread (UInt32.ofNat written)
  | .restart reason wait => m.blockAndRestart cpu thread reason wait
  | .waited ret => m.setEax thread ret
  | .other ret wakesInput =>
    (if wakesInput = true then m.wakeWaiters .input else m).finishCall cpu thread ret

/-- `syscall_handler_locked`.  A task that another one stopped or killed while it waited
for the kernel lock does not get to its call. -/
def syscallLocked (cpu : Nat) (thread : Slot) (call : Call) (m : TaskManager) : TaskManager :=
  if (m.tasks thread).all (fun t => !t.running || t.threadExited || t.zombie) = true then
    m.schedule cpu
  else m.perform cpu thread call

/-- The registers of the current task of a processor are on its kernel stack. -/
def saveFrame (cpu : Nat) (frame : Frame) (m : TaskManager) : TaskManager :=
  match m.onCpu cpu with
  | none => m
  | some thread => m.modify thread fun t => { t with frame := frame }

def syscallHandler (cpu : Nat) (frame : Frame) (call : Call) (m : TaskManager) : TaskManager :=
  match m.onCpu cpu with
  | none => m
  | some thread => ((m.saveFrame cpu frame).syscallLocked cpu thread call).deliverPending cpu

def timerMaySchedule (cpu : Nat) (frame : Frame) (m : TaskManager) : Bool :=
  frame.user || (m.onCpu cpu).all (· = 0)

/-- `timer_handler`.  The sockets that are ready are given if there are any. -/
def timerHandler (frame : Frame) (ready : Option (BitVec 128 × BitVec 128)) (audio : Bool)
    (m : TaskManager) : TaskManager :=
  if m.timerMaySchedule 0 frame = false then m
  else
    let m := m.saveFrame 0 frame
    let m := match ready with
      | none => m
      | some (readable, writable) => m.wakeNetworkWaiters readable writable
    let m := m.wakePeriodicPollWaiters.wakeWaiters .input
    let m := if audio = true then m.wakeWaiters .audio else m
    (m.schedule 0).deliverPending 0

def apTimerHandler (cpu : Nat) (frame : Frame) (m : TaskManager) : TaskManager :=
  if m.timerMaySchedule cpu frame = false then m
  else ((m.saveFrame cpu frame).schedule cpu).deliverPending cpu

/-- `kill_current_task`, for a fault of a user program. -/
def killCurrentTask (cpu : Nat) (frame : Frame) (status : Int) (m : TaskManager) : TaskManager :=
  match m.onCpu cpu with
  | none => m
  | some thread =>
    if thread = 0 then m
    else (m.saveFrame cpu frame).sysExit cpu (m.processSlot thread) status

end TaskManager

/-- A step of the system. -/
inductive Op where
  | tick
  | syscall (cpu : Nat) (frame : Frame) (call : Call)
  | timer (frame : Frame) (ready : Option (BitVec 128 × BitVec 128)) (audio : Bool)
  | apTimer (cpu : Nat) (frame : Frame)
  | fault (cpu : Nat) (frame : Frame) (status : Int)
  | network (readable writable : BitVec 128)

namespace Op

def apply : Op → TaskManager → TaskManager
  | .tick, m => { m with clock := m.clock.tick }
  | .syscall cpu frame call, m => m.syscallHandler cpu frame call
  | .timer frame ready audio, m => m.timerHandler frame ready audio
  | .apTimer cpu frame, m => m.apTimerHandler cpu frame
  | .fault cpu frame status, m => m.killCurrentTask cpu frame status
  | .network readable writable, m => m.wakeNetworkWaiters readable writable

end Op

end Felix.Kernel
