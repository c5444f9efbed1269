import Felix.Kernel.Life
import Felix.Kernel.Moves
import Felix.Kernel.Process

/-!
# The lives of processes

`Life` is what the task table says about who belongs to which process and who has ended.
A process ends in one of three ways: it is killed, it exits, or its last thread exits.
These are the steps of `Life.Step`; scheduling, waiting, signals and the like do not change
it, and `ends_apply` says that every step of the kernel on the tasks that are there is a
sequence of such endings.
-/

namespace Felix.Kernel

open Function Option

def Task.vital (t : Task) : Vital where
  leaderSlot := t.leaderSlot
  isThread := t.isThread
  pid := t.pid
  pgid := t.pgid
  sid := t.sid
  threadExited := t.threadExited
  zombie := t.zombie
  exitCode := t.exitCode
  termSignal := t.termSignal

def TaskManager.life (m : TaskManager) : Life := fun s => (m.tasks s).map Task.vital

namespace TaskManager

variable {m m' m'' : TaskManager} {slot : Slot} {cpu : Nat}

/-! ## What does not end a task -/

variable {f : Task → Task} {t : Task} {thread leader : Slot} (sig : Nat) (reason : WaitReason)
  (g : Vital → Vital) {e : Event}

theorem life_mapTasks (h : ∀ t, (f t).vital = t.vital) : (m.mapTasks f).life = m.life := by
  funext s
  simp only [life, mapTasks, Option.map_map]
  exact congrArg (Option.map · _) (funext h)

theorem life_modify (h : ∀ t, (f t).vital = t.vital) : (m.modify slot f).life = m.life := by
  funext s
  by_cases hs : s = slot
  · subst hs
    simp only [life, modify, update_self, Option.map_map]
    exact congrArg (Option.map · _) (funext h)
  · simp only [life, modify, update_of_ne hs]

theorem life_onThreads {test : Task → Bool}
    (h : ∀ t, (f t).vital = t.vital) : (m.onThreads leader test f e).life = m.life := by
  funext s
  simp only [life, onThreads, Option.map_map]
  refine congrArg (Option.map · _) (funext fun t => ?_)
  show (if _ then f t else t).vital = t.vital
  split
  · exact h t
  · rfl

@[simp] theorem life_record (e : Event) : (m.record slot e).life = m.life := rfl

theorem vital_block (t : Task) (reason : WaitReason) : (t.block reason).vital = t.vital := by
  unfold Task.block
  split <;> rfl

@[simp] theorem life_wakeExpiredTimers (now : Nat) : (m.wakeExpiredTimers now).life = m.life := by
  refine life_mapTasks fun t => ?_
  unfold Task.expire
  split
  · split <;> rfl
  · split <;> rfl
  · split <;> rfl
  · rfl

@[simp] theorem life_wakeWaiters : (m.wakeWaiters reason).life = m.life := by
  refine life_mapTasks fun t => ?_
  unfold Task.wakeFor
  split <;> rfl

@[simp] theorem life_schedule : (m.schedule cpu).life = m.life :=
  Walk.schedule (P := fun m m' => m'.life = m.life) {
    trans := fun h h' => h'.trans h
    frame := fun h _ _ => by
      unfold life
      rw [h]
    enter := fun _ h => by
      refine (life_modify ?_).trans ?_
      · exact fun _ => rfl
      unfold life
      rw [h.tasks]
    expire := fun m => life_wakeExpiredTimers m.now
    wake := fun _ reason _ => life_wakeWaiters reason
    putBack := fun m slot => by
      refine life_modify fun t => ?_
      unfold putBack
      split <;> rfl } m cpu

/-! ## Signals -/

@[simp] theorem life_reparentChildrenOf (deadPid : Int) :
    (m.reparentChildrenOf deadPid).life = m.life := by
  unfold reparentChildrenOf
  split
  · rfl
  · refine life_mapTasks fun t => ?_
    split <;> rfl

theorem vital_queue (t : Task) : (t.queue sig).vital = t.vital := by
  unfold Task.queue
  dsimp only
  split <;> rfl

theorem vital_halt (t : Task) : t.halt.vital = t.vital := rfl

theorem vital_resume (t : Task) : t.resume.vital = t.vital := rfl

theorem vital_noteStop (t : Task) : (noteStop sig t).vital = t.vital := rfl

theorem vital_noteContinue (wasStopped : Bool) (t : Task) :
    (noteContinue wasStopped t).vital = t.vital := rfl

@[simp] theorem life_sendSignal : (m.sendSignal slot sig).2.life = m.life := by
  unfold sendSignal
  dsimp only
  split
  · rfl
  split
  · rfl
  split
  · rfl
  · exact life_modify (vital_queue sig)

@[simp] theorem life_stopTaskWithSignal : (m.stopTaskWithSignal slot sig).2.life = m.life := by
  unfold stopTaskWithSignal
  dsimp only
  split
  · rfl
  split
  · rfl
  · rw [life_wakeWaiters, life_modify (vital_noteStop sig), life_onThreads vital_halt]

@[simp] theorem life_continueTask : (m.continueTask slot).2.life = m.life := by
  unfold continueTask
  dsimp only
  split
  · rfl
  split
  · exact life_onThreads vital_resume
  · rw [life_wakeWaiters, life_modify (vital_noteContinue _), life_onThreads vital_resume]

@[simp] theorem life_sysSigaction (handler : UInt32) :
    (m.sysSigaction slot sig handler).2.life = m.life := by
  unfold sysSigaction
  split
  · rfl
  · exact life_modify fun _ => rfl

/-! ## Endings -/

theorem life_modify_of (h : ∀ t, (f t).vital = g t.vital) :
    (m.modify slot f).life = m.life.change slot g := by
  funext s
  by_cases hs : s = slot
  · subst hs
    simp only [life, modify, Life.change, update_self, Option.map_map]
    exact congrArg (Option.map · _) (funext h)
  · simp only [life, modify, Life.change, update_of_ne hs]

theorem life_onThreads_of (h : ∀ t, (f t).vital = g t.vital) :
    (m.onThreads leader (fun _ => true) f e).life = m.life.changeThreads leader g := by
  funext s
  simp only [life, onThreads, Life.changeThreads, Option.map_map]
  refine congrArg (Option.map · _) (funext fun t => ?_)
  simp only [comp_apply, inProcess, Bool.and_true, decide_eq_true_eq]
  show _ = if t.leaderSlot = some leader then g t.vital else t.vital
  split
  · exact h t
  · rfl

/-- Tasks may have ended between the two states, in one of the ways of `Life.Step`. -/
def Ends (again : Prop) (m m' : TaskManager) : Prop := Life.Steps again m.life m'.life

variable {again : Prop} (wait : NetworkWait) (value : UInt32) (status : Int)

theorem Ends.of_life (h : m'.life = m.life) : Ends again m m' := by
  unfold Ends
  rw [h]
  exact .refl

theorem Ends.of_step (h : Life.Step again m.life m'.life) : Ends again m m' := .single h

theorem Ends.trans (h : Ends again m m') (h' : Ends again m' m'') : Ends again m m'' :=
  Relation.ReflTransGen.trans h h'

/-- What follows does not end a task. -/
theorem Ends.then (h : Ends again m m') (hlife : m''.life = m'.life) : Ends again m m'' :=
  h.trans (.of_life hlife)

theorem life_eq_some (h : m.tasks slot = some t) : m.life slot = some t.vital := by
  rw [life, h, map_some]

theorem life_forceKill (p : Slot) (sig : Nat) :
    ((m.onThreads p (fun _ => true) (Task.kill sig) (.killed sig)).modify p
      fun t => { t with zombie := true }).life = m.life.kill p sig := by
  rw [life_modify_of Vital.bury fun _ => rfl, life_onThreads_of (Vital.kill sig) fun _ => rfl,
    Life.kill]

theorem processSlot_life (s : Slot) : m.life.processSlot s = m.processSlot s := by
  unfold Life.processSlot processSlot life
  cases m.tasks s <;> rfl

/-- `force_kill` does nothing, or it kills a process that has not ended. -/
theorem forceKill_cases : (m.forceKill slot sig).2 = m ∨
    ∃ t k, m.tasks (m.processSlot slot) = some t ∧ t.zombie = false ∧
      (m.forceKill slot sig).2.life = m.life.kill (m.processSlot slot) k := by
  unfold forceKill
  dsimp only
  split
  · exact .inl rfl
  split
  · exact .inl rfl
  rename_i t ht
  split
  · exact .inl rfl
  rename_i hz
  refine .inr ⟨t, if sig = 0 then sigkill else sig, ht, Bool.eq_false_of_not_eq_true hz, ?_⟩
  simp only [life_wakeWaiters, life_reparentChildrenOf, life_forceKill]

theorem ends_forceKill : Ends again m (m.forceKill slot sig).2 := by
  rcases @forceKill_cases m slot sig with hsame | ⟨t, k, ht, hz, hlife⟩
  · exact .of_life (congrArg life hsame)
  refine .of_step ?_
  rw [hlife]
  exact .kill k (processSlot_life slot) (life_eq_some ht) hz

theorem sends_ends : Sends (Ends again) where
  refl := fun _ => .of_life rfl
  trans := Ends.trans
  kill := fun _ _ _ => ends_forceKill _
  stop := fun _ _ _ _ => .of_life (life_stopTaskWithSignal _)
  send := fun _ _ _ => .of_life (life_sendSignal _)
  resume := fun _ _ => .of_life life_continueTask

theorem ends_sysKill (pid : Int) (sig : Nat) : Ends again m (m.sysKill slot pid sig).2 :=
  sends_ends.sysKill m sig slot pid

theorem ends_signalGroup (pgid : Int) (sig : Nat) : Ends again m (m.signalGroup pgid sig) :=
  sends_ends.signalSlots sig _ (false, m)

theorem life_startHandler {sig : Nat} {handler : UInt32} :
    (m.startHandler thread slot sig handler).life = m.life := by
  refine Eq.trans (life_modify fun _ => rfl) ?_
  exact life_modify fun _ => rfl

theorem delivers_ends : Delivers (Ends again) where
  refl := fun _ => .of_life rfl
  trans := Ends.trans
  kill := fun _ _ _ => ends_forceKill _
  switch := fun _ _ => .of_life life_schedule
  clear := fun _ _ _ => .of_life (life_modify fun _ => rfl)
  start := fun _ _ _ _ _ => .of_life life_startHandler

theorem ends_deliverPending : Ends again m (m.deliverPending cpu) :=
  delivers_ends.deliverPending m cpu

/-! ## Calls -/

@[simp] theorem life_setEax : (m.setEax slot value).life = m.life :=
  life_modify fun _ => rfl

@[simp] theorem life_saveFrame (frame : Frame) : (m.saveFrame cpu frame).life = m.life := by
  unfold saveFrame
  split
  · rfl
  · exact life_modify fun _ => rfl

theorem vital_restartLater (t : Task) : (restartLater reason wait t).vital = t.vital := by
  unfold restartLater
  split
  · exact vital_block _ reason
  · exact vital_block _ reason

@[simp] theorem life_blockAndRestart : (m.blockAndRestart cpu slot reason wait).life = m.life := by
  unfold blockAndRestart
  rw [life_schedule, life_modify (vital_restartLater reason wait)]

theorem vital_sleepUntil (deadline : Nat) (t : Task) :
    (sleepUntil deadline t).vital = t.vital := vital_block _ .timer

theorem vital_waitFutex (key deadline : Nat) (t : Task) :
    (waitFutex key deadline t).vital = t.vital := vital_block _ .futex

theorem life_finishProcess : (m.finishProcess slot status).life = m.life.finish slot status := by
  unfold finishProcess
  simp only [life_wakeWaiters, life_reparentChildrenOf]
  exact life_modify_of (Vital.finish status) fun _ => rfl

theorem ends_sysExit {p : Slot} (hp : m.processSlot slot = p)
    (h : again ∨ ∀ v, m.life p = some v → v.zombie = false) :
    Ends again m (m.sysExit cpu p status) := by
  unfold sysExit
  split
  · exact .of_life life_schedule
  refine Ends.then (.of_step ?_) life_schedule
  rw [life_finishProcess, life_onThreads_of Vital.exit fun _ => rfl]
  exact .exit status ((processSlot_life slot).trans hp) h

theorem allExited_iff : m.allExited slot = true ↔ m.life.AllExited slot := by
  unfold allExited
  simp only [List.all_eq_true, List.mem_finRange, forall_const]
  refine forall_congr' fun s => ?_
  unfold life
  cases m.tasks s with
  | none => simp
  | some t =>
    simp only [all_some, Bool.or_eq_true, decide_eq_true_eq, map_some,
      Option.some.injEq, forall_eq']
    exact ⟨fun h hp => h.resolve_left (not_not_intro hp), fun h => by
      by_cases hp : t.leaderSlot = some slot
      · exact .inr (h hp)
      · exact .inl hp⟩

theorem ends_sysThreadExit (ht : m.tasks slot = some t)
    (hlive : t.threadExited = false) : Ends again m (m.sysThreadExit cpu slot value) := by
  have hleave : (((m.modify slot (exitThread value)).record slot .exited).wakeWaiters
      .thread).life = m.life.leave slot := by
    rw [life_wakeWaiters]
    exact life_modify_of Vital.exit fun _ => rfl
  unfold sysThreadExit
  dsimp only
  split
  · exact .of_life life_schedule
  split
  · rename_i hlast
    rw [allExited_iff, hleave] at hlast
    refine Ends.then (.of_step ?_) life_schedule
    rw [life_finishProcess, hleave]
    exact .last _ (processSlot_life slot) (life_eq_some ht) hlive hlast
  rename_i hleft
  rw [allExited_iff, hleave] at hleft
  refine Ends.then (.of_step ?_) life_schedule
  rw [hleave]
  exact .thread (processSlot_life slot) (life_eq_some ht) hlive hleft

theorem handles_ends : Handles ⟨fun _ => True, True⟩ 0 (Ends again) where
  refl := fun _ => .of_life rfl
  trans := Ends.trans
  touch := fun _ _ _ hf => .of_life (life_modify fun t => by
    obtain ⟨frame, handlers, ht⟩ := hf t
    rw [ht]
    rfl)
  rouse := fun _ _ hf => .of_life (life_mapTasks fun t => by
    rcases hf t with h | ⟨h, -⟩
    · rw [h]
    · rw [h]
      rfl)
  wakeFutex := fun _ _ _ => .of_life (life_modify fun _ => rfl)
  deadline := fun _ _ _ _ _ => .of_life (life_modify fun _ => rfl)
  restart := fun _ _ reason wait _ => .of_life (life_modify (vital_restartLater reason wait))
  sleep := fun _ _ d _ _ => .of_life (life_modify (vital_sleepUntil d))
  await := fun _ _ key d _ _ => .of_life (life_modify (vital_waitFutex key d))
  signal := fun m slot sig _ => sends_ends.signalSlot m sig slot
  switch := fun _ _ => .of_life life_schedule
  deliver := fun _ _ => ends_deliverPending

theorem ends_finishCall (ret : UInt32) : Ends again m (m.finishCall cpu slot ret) :=
  handles_ends.finishCall

/-! ## Steps -/

/-- The process of a task that gets to its call has not ended. -/
theorem Calls.alive (ht : Calls m thread t) (h : again ∨ m.life.Wf) :
    again ∨ ∀ v, m.life (m.processSlot thread) = some v → v.zombie = false := by
  refine h.imp_right fun hwf w hw => ?_
  rw [← processSlot_life] at hw
  exact hwf.alive (life_eq_some ht.task) ht.live hw

end TaskManager

/-- A fault is not in a process that has ended. -/
def Op.FaultsAlive : Op → TaskManager → Prop
  | .fault cpu _ _, m =>
    ∀ thread ∈ m.onCpu cpu, ∀ v ∈ m.life (m.processSlot thread), v.zombie = false
  | _, _ => True

instance (op : Op) (m : TaskManager) : Decidable (op.FaultsAlive m) :=
  match op with
  | .fault cpu _ _ => inferInstanceAs (Decidable (∀ thread ∈ m.onCpu cpu,
    ∀ v ∈ m.life (m.processSlot thread), v.zombie = false))
  | .tick | .syscall .. | .timer .. | .apTimer .. | .network .. => isTrue trivial

theorem ends_apply {again : Prop} {m : TaskManager} (op : Op)
    (h : again ∨ m.life.Wf ∧ op.FaultsAlive m) : TaskManager.Ends again m (op.apply m) := by
  by_cases htick : op = .tick
  · subst htick
    exact .of_life rfl
  refine TaskManager.handles_ends.apply htick (Op.setsOnly_of_forall fun _ => trivial)
    (fun _ => trivial) ?_
  cases op with
  | syscall cpu frame call =>
    intro thread t ht
    have hframe : (m.saveFrame cpu frame).life = m.life := TaskManager.life_saveFrame frame
    have hwf := h.imp_right And.left
    rw [← hframe] at hwf
    exact ⟨fun status => TaskManager.ends_sysExit status rfl (ht.alive hwf),
      fun value => TaskManager.ends_sysThreadExit value ht.task ht.live⟩
  | fault cpu frame status =>
    intro thread hthread
    have hframe : (m.saveFrame cpu frame).life = m.life := TaskManager.life_saveFrame frame
    have hslot : (m.saveFrame cpu frame).processSlot thread = m.processSlot thread := by
      rw [← TaskManager.processSlot_life, ← TaskManager.processSlot_life, hframe]
    refine TaskManager.ends_sysExit status hslot ?_
    rw [hframe]
    exact h.imp_right fun h => h.2 thread hthread
  | _ => trivial

end Felix.Kernel
