import Felix.Kernel.Moves

/-!
# Tasks that are stopped

A task that a signal stopped stays where it is: whatever wakes tasks, none of the
schedulers selects it before `continue_task` was applied to its process or it ended.

The flag `running` and the state of a task are written in many places.  The invariant is
that a task that is held neither runs nor waits: then nothing that wakes a waiting task
applies to it, and a task goes to sleep only while it runs.
-/

namespace Felix.Kernel

/-- Of the events that stop a task and let it go, the newest one stopped it. -/
def Held : List Event → Bool
  | [] => false
  | .stopped :: _ => true
  | .continued :: _ => false
  | .killed _ :: _ => false
  | .exited :: _ => false
  | _ :: es => Held es

/-- The task was never selected while it was held. -/
def NeverSelectedHeld : List Event → Prop
  | [] => True
  | .selected _ :: es => Held es = false ∧ NeverSelectedHeld es
  | _ :: es => NeverSelectedHeld es

/-- A task that is held neither runs nor waits. -/
structure Rests (es : List Event) (c : Core) : Prop where
  history : NeverSelectedHeld es
  running : Held es = true → c.running = false
  waiting : Held es = true → ∀ reason, c.state ≠ .blocked reason

variable {R : Rules} {now : Nat} {es e : List Event} {c c' : Core}

theorem Rests.not_held_of_running (h : Rests es c) (hrunning : c.running = true) :
    Held es = false := by
  cases hheld : Held es with
  | false => rfl
  | true => exact absurd (h.running hheld) (by rw [hrunning]; decide)

theorem Rests.not_held_of_blocked (h : Rests es c) {reason : WaitReason}
    (hstate : c.state = .blocked reason) : Held es = false := by
  cases hheld : Held es with
  | false => rfl
  | true => exact absurd hstate (h.waiting hheld reason)

/-- A task that is not held can be in any state. -/
theorem rests_of_not_held (history : NeverSelectedHeld es) (h : Held es = false) : Rests es c :=
  ⟨history, fun hheld => absurd hheld (by rw [h]; decide),
    fun hheld => absurd hheld (by rw [h]; decide)⟩

theorem quiet_append (h : ∀ e' ∈ e, e'.Quiet) (es : List Event) :
    Held (e ++ es) = Held es ∧ (NeverSelectedHeld (e ++ es) ↔ NeverSelectedHeld es) := by
  induction e with
  | nil => exact ⟨rfl, Iff.rfl⟩
  | cons e' e ih =>
    obtain ⟨hfirst, hrest⟩ := List.forall_mem_cons.1 h
    cases e' with
    | signalled => exact ih hrest
    | started sig => exact ih hrest
    | _ => exact hfirst.elim

theorem Rests.move (h : Rests es c) (hmove : Move R now c e c') : Rests (e ++ es) c' := by
  cases hmove with
  | keep hquiet =>
    obtain ⟨hheld, hnever⟩ := quiet_append hquiet es
    exact ⟨hnever.2 h.history, fun hh => h.running (hheld ▸ hh), fun hh => h.waiting (hheld ▸ hh)⟩
  | expire hstate _ => exact rests_of_not_held h.history (h.not_held_of_blocked hstate)
  | wake hstate _ _ => exact rests_of_not_held h.history (h.not_held_of_blocked hstate)
  | signal hstate _ => exact rests_of_not_held h.history (h.not_held_of_blocked hstate)
  | stop => exact ⟨h.history, fun _ => rfl, fun _ _ hstate => (nomatch hstate)⟩
  | resume _ => exact rests_of_not_held h.history rfl
  | kill sig => exact rests_of_not_held h.history rfl
  | exit => exact rests_of_not_held h.history rfl
  | putBack hrunning => exact rests_of_not_held h.history (h.not_held_of_running hrunning)
  | setDeadline hrunning _ => exact rests_of_not_held h.history (h.not_held_of_running hrunning)
  | block hrunning => exact rests_of_not_held h.history (h.not_held_of_running hrunning)
  | select hrunning _ =>
    have hfree := h.not_held_of_running hrunning
    exact rests_of_not_held ⟨hfree, h.history⟩ hfree

/-- A run of the system. -/
def Op.run (ops : List Op) (m : TaskManager) : TaskManager := ops.foldl (fun m op => op.apply m) m

variable {x : Slot} {m : TaskManager}

/-- The task in a slot rests as it should. -/
def RestsAt (x : Slot) (m : TaskManager) : Prop :=
  ∃ t, m.tasks x = some t ∧ Rests (m.history x) t.core

theorem RestsAt.apply (hx : x ≠ 0) (h : RestsAt x m) (op : Op) : RestsAt x (op.apply m) := by
  by_cases htick : op = .tick
  · subst htick
    exact h
  obtain ⟨t, ht, hrests⟩ := h
  have hdoes : Does ⟨fun _ => True, True⟩ x m (op.apply m) :=
    Op.apply_does hx htick (Op.setsOnly_of_forall fun _ => trivial) fun _ => trivial
  obtain ⟨es, t', ht', _, hlog, hmoves⟩ := hdoes.task t ht
  refine ⟨t', ht', ?_⟩
  rw [hlog]
  exact hmoves.inv Rests (fun _ _ _ _ hc hmove => hc.move hmove) hrests

theorem RestsAt.run (hx : x ≠ 0) (h : RestsAt x m) (ops : List Op) : RestsAt x (Op.run ops m) := by
  induction ops generalizing m with
  | nil => exact h
  | cons op ops ih => exact ih (h.apply hx op)

/-- A task that was stopped is not selected before it is continued or ends. -/
theorem stopped_task_not_selected (hx : x ≠ 0) (htask : (m.tasks x).isSome = true)
    (hhistory : m.history x = []) (ops : List Op) :
    NeverSelectedHeld ((Op.run ops m).history x) := by
  obtain ⟨t, ht⟩ := Option.isSome_iff_exists.1 htask
  have hstart : RestsAt x m := by
    refine ⟨t, ht, ?_⟩
    rw [hhistory]
    exact rests_of_not_held trivial rfl
  obtain ⟨_, _, hrests⟩ := hstart.run hx ops
  exact hrests.history

/-- A task in user mode that is its own process. -/
def plainTask (slot : Slot) (state : TaskState) : Task where
  frame := ⟨0, 0x400000, 0xBFFFF000, true⟩
  running := true
  state := state
  pid := slot.val
  ppid := 0
  pgid := slot.val
  sid := slot.val
  parent := some 0
  tid := slot.val
  leaderSlot := some slot
  isThread := false
  threadDetached := false
  threadExited := false
  threadExitValue := 0
  zombie := false
  stopped := false
  stopSignal := 0
  waitStoppedPending := false
  waitContinuedPending := false
  termSignal := 0
  exitCode := 0
  pendingSignals := 0
  signalHandlers := fun _ => 0
  wakeDeadlineMs := 0
  futexKey := 0
  networkWaitRead := 0
  networkWaitWrite := 0
  networkWaitAny := false
  pollPeriodic := false

/-- A system of one processor with two tasks, of which the first one runs. -/
def twoTasks : TaskManager where
  tasks := fun s =>
    if s = 1 then some (plainTask 1 (.running 0))
    else if s = 0 ∨ s = 2 then some (plainTask s .runnable)
    else none
  nextPid := 3
  currentTask := some 1
  firstSwitch := false
  owner := fun s => if s = 1 then some 0 else none
  onCpu := fun cpu => if cpu = 0 then some 1 else none
  clock := ⟨0, 11932⟩
  history := fun _ => []

/-- The registers of a task that is interrupted. -/
def userFrame : Frame := ⟨0, 0x400002, 0xBFFFF000, true⟩

set_option maxRecDepth 4000 in
/-- The second task is stopped, is not selected, and is selected when it was continued. -/
theorem stopped_task_not_selected_twoTasks :
    (Op.run [.syscall 0 userFrame (.kill 2 sigstop), .timer userFrame none false,
      .syscall 0 userFrame (.kill 2 sigcont), .timer userFrame none false] twoTasks).history 2
        = [.selected 0, .continued, .stopped] ∧
    NeverSelectedHeld ((Op.run [.syscall 0 userFrame (.kill 2 sigstop),
      .timer userFrame none false, .syscall 0 userFrame (.kill 2 sigcont),
      .timer userFrame none false] twoTasks).history 2) := by
  constructor
  · decide +kernel
  · apply stopped_task_not_selected
    · decide
    · decide
    · rfl

end Felix.Kernel
