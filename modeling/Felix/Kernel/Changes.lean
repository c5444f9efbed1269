import Mathlib.Logic.Relation
import Felix.Kernel.Moves

/-!
# What happens to a task

The scheduler and the signals change tasks in a few ways: `Task.Change`.  Every function of
the scheduler and of `signal.rs` leaves every task in its slot and changes it in these ways
only, so that what holds of a task can be followed through them by looking at `Task.Change`.
-/

namespace Felix.Kernel

/-- One way to change a task. -/
inductive Task.Change : Task → Task → Prop
  | expire (now : Nat) (t : Task) : Change t (t.expire now)
  | wakeFor (reason : WaitReason) (t : Task) : Change t (t.wakeFor reason)
  | putBack (t : Task) : Change t (TaskManager.putBack t)
  | enter (cpu : Nat) (t : Task) : Change t { t with state := .running cpu }
  | queue (sig : Nat) (t : Task) : Change t (t.queue sig)
  | halt (t : Task) : Change t t.halt
  | resume (t : Task) : Change t t.resume
  | noteStop (sig : Nat) (t : Task) : Change t (TaskManager.noteStop sig t)
  | noteContinue (wasStopped : Bool) (t : Task) : Change t (TaskManager.noteContinue wasStopped t)
  | kill (sig : Nat) (t : Task) : Change t (t.kill sig)
  | bury (t : Task) : Change t { t with zombie := true }
  | adopt (ppid : Int) (parent : Option Slot) (t : Task) : Change t { t with ppid, parent }
  | signals (pendingSignals : BitVec 31) (t : Task) : Change t { t with pendingSignals }
  | jump (esp eip : UInt32) (t : Task) : Change t { t with frame := { t.frame with esp, eip } }

/-- Several changes, one after the other. -/
def Task.Changes : Task → Task → Prop := Relation.ReflTransGen Task.Change

namespace TaskManager

/-- Every task stays in its slot and was changed. -/
def Changed (m m' : TaskManager) : Prop := ∀ s, Option.Rel Task.Changes (m.tasks s) (m'.tasks s)

variable {m m' m'' : TaskManager} {slot : Slot} {cpu : Nat} {f : Task → Task} (sig : Nat)

theorem Changed.of_tasks (h : m'.tasks = m.tasks) : Changed m m' := by
  intro s
  rw [h]
  cases m.tasks s with
  | none => exact .none
  | some t => exact .some .refl

theorem Changed.refl (m : TaskManager) : Changed m m := .of_tasks rfl

theorem Changed.trans (h : Changed m m') (h' : Changed m' m'') : Changed m m'' := by
  intro s
  have hs := h s
  have hs' := h' s
  generalize m.tasks s = o at hs
  generalize m'.tasks s = o' at hs hs'
  cases hs with
  | none => exact hs'
  | some hchanges =>
    generalize m''.tasks s = o'' at hs'
    cases hs' with
    | some hchanges' => exact .some (Relation.ReflTransGen.trans hchanges hchanges')

theorem Changed.of_map (h : ∀ s, m'.tasks s = (m.tasks s).map f ∨ m'.tasks s = m.tasks s)
    (hf : ∀ t, Task.Changes t (f t)) : Changed m m' := by
  intro s
  rcases h s with htasks | htasks
  · rw [htasks]
    cases m.tasks s with
    | none => exact .none
    | some t => exact .some (hf t)
  rw [htasks]
  cases m.tasks s with
  | none => exact .none
  | some t => exact .some .refl

theorem changed_mapTasks (hf : ∀ t, Task.Changes t (f t)) : Changed m (m.mapTasks f) :=
  .of_map (fun _ => .inl rfl) hf

theorem changed_modify (hf : ∀ t, Task.Change t (f t)) : Changed m (m.modify slot f) := by
  refine .of_map (fun s => ?_) fun t => .single (hf t)
  by_cases hs : s = slot
  · subst hs
    exact .inl (modify_self ..)
  · exact .inr (modify_of_ne hs)

theorem changed_onThreads {leader : Slot} {test : Task → Bool} {e : Event}
    (hf : ∀ t, Task.Change t (f t)) : Changed m (m.onThreads leader test f e) := by
  have hmap :
      Changed m (m.mapTasks fun t => if inProcess leader test t = true then f t else t) := by
    refine changed_mapTasks fun t => ?_
    split
    · exact .single (hf t)
    · exact .refl
  exact hmap.trans (.of_tasks rfl)

theorem changed_record (e : Event) : Changed m (m.record slot e) := .of_tasks rfl

/-! ## The scheduler -/

theorem changed_wakeExpiredTimers (now : Nat) : Changed m (m.wakeExpiredTimers now) :=
  changed_mapTasks fun t => .single (.expire now t)

theorem changed_wakeWaiters (reason : WaitReason) : Changed m (m.wakeWaiters reason) :=
  changed_mapTasks fun t => .single (.wakeFor reason t)

theorem changed_schedule : Changed m (m.schedule cpu) :=
  Walk.schedule (P := Changed) {
    trans := Changed.trans
    frame := fun h _ _ => .of_tasks h
    enter := fun cpu h => (Changed.of_tasks h.tasks).trans (changed_modify (.enter cpu))
    expire := fun m => changed_wakeExpiredTimers m.now
    wake := fun _ reason _ => changed_wakeWaiters reason
    putBack := fun _ _ => changed_modify .putBack } m cpu

/-! ## Signals -/

theorem changed_reparentChildrenOf (deadPid : Int) : Changed m (m.reparentChildrenOf deadPid) := by
  unfold reparentChildrenOf
  split
  · exact .refl m
  refine changed_mapTasks fun t => ?_
  split
  · exact .single (.adopt _ _ t)
  · exact .refl

theorem changed_sendSignal : Changed m (m.sendSignal slot sig).2 := by
  unfold sendSignal
  split
  · exact .refl m
  dsimp only
  split
  · exact .refl m
  split
  · exact .refl m
  · exact (changed_modify (.queue sig)).trans (changed_record _)

theorem changed_stopTaskWithSignal : Changed m (m.stopTaskWithSignal slot sig).2 := by
  unfold stopTaskWithSignal
  split
  · exact .refl m
  dsimp only
  split
  · exact .refl m
  · exact ((changed_onThreads .halt).trans (changed_modify (.noteStop sig))).trans
      (changed_wakeWaiters _)

theorem changed_continueTask : Changed m (m.continueTask slot).2 := by
  unfold continueTask
  split
  · exact .refl m
  dsimp only
  split
  · exact changed_onThreads .resume
  · exact ((changed_onThreads .resume).trans (changed_modify (.noteContinue _))).trans
      (changed_wakeWaiters _)

theorem changed_forceKill : Changed m (m.forceKill slot sig).2 := by
  unfold forceKill
  split
  · exact .refl m
  dsimp only
  split
  · exact .refl m
  split
  · exact .refl m
  have hbury : ∀ m' : TaskManager, Changed m' (m'.modify (m.processSlot slot)
      fun t => { t with zombie := true }) := fun _ => changed_modify .bury
  exact ((((changed_onThreads (.kill _)).trans (hbury _)).trans
    (changed_reparentChildrenOf _)).trans (changed_wakeWaiters _)).trans
      (changed_wakeWaiters _)

theorem changed_signalSlot : Changed m (m.signalSlot slot sig).2 :=
  Sends.signalSlot (P := Changed) {
    refl := .refl
    trans := Changed.trans
    kill := fun _ _ => changed_forceKill
    stop := fun _ _ sig _ => changed_stopTaskWithSignal sig
    send := fun _ _ => changed_sendSignal
    resume := fun _ _ => changed_continueTask } m sig slot

theorem changed_startHandler {thread : Slot} (sig : Nat) (handler : UInt32) :
    Changed m (m.startHandler thread slot sig handler) :=
  ((changed_modify fun t => .signals _ t).trans (changed_record _)).trans
    (changed_modify fun t => .jump _ _ t)

theorem changed_deliverPending : Changed m (m.deliverPending cpu) :=
  Delivers.deliverPending (P := Changed) {
    refl := .refl
    trans := Changed.trans
    kill := fun _ _ => changed_forceKill
    switch := fun _ _ => changed_schedule
    clear := fun _ _ _ => changed_modify fun t => .signals _ t
    start := fun _ _ _ => changed_startHandler } m cpu

end TaskManager

end Felix.Kernel
