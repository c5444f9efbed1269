import Felix.Kernel.Syscall

/-!
# What a step does to a task

A step of the system changes many tasks, but each of them in few ways.  `Move` lists
them: what can happen to the scheduling state of one task, with the event that it is
recorded as.  `Does x m m'` says that the task in slot `x` makes such moves, one after the
other, from `m` to `m'`.  There is one theorem for each function of the kernel, and
`apply_does` is the one for a step; an invariant of a task only has to be checked against
the moves.

`Rules` are what is known about the steps: the deadlines that the task's own calls set,
and if a signal can reach the task.
-/

namespace Felix.Kernel

open Function Option

/-- The part of a task that decides if it can run. -/
structure Core where
  running : Bool
  state : TaskState
  deadline : Nat

def Task.core (t : Task) : Core := ⟨t.running, t.state, t.wakeDeadlineMs⟩

structure Rules where
  deadline : Nat → Prop
  signals : Prop

/-- An event that leaves the task as it is. -/
def Event.Quiet : Event → Prop
  | .signalled | .started _ => True
  | _ => False

/-- An elementary change of a task. -/
inductive Move (R : Rules) (now : Nat) : Core → List Event → Core → Prop where
  | keep {c : Core} {es : List Event} (h : ∀ e ∈ es, e.Quiet) : Move R now c es c
  | expire {c : Core} (hstate : c.state = .blocked .timer) (hdue : c.deadline ≤ now) :
    Move R now c [] ⟨true, .runnable, 0⟩
  | wake {c : Core} {reason : WaitReason} {d : Nat} (hstate : c.state = .blocked reason)
    (hreason : reason ≠ .timer) (hd : d = c.deadline ∨ d = 0) : Move R now c [] ⟨true, .runnable, d⟩
  | signal {c : Core} {reason : WaitReason} (hstate : c.state = .blocked reason)
    (hallowed : R.signals) : Move R now c [.signalled] ⟨true, .runnable, c.deadline⟩
  | stop {c : Core} : Move R now c [.stopped] ⟨false, .stopped, c.deadline⟩
  | resume {c : Core} (hallowed : R.signals) :
    Move R now c [.continued] ⟨true, .runnable, c.deadline⟩
  | kill {c : Core} (sig : Nat) : Move R now c [.killed sig] ⟨false, .zombie, c.deadline⟩
  | exit {c : Core} : Move R now c [.exited] ⟨false, .zombie, c.deadline⟩
  | putBack {c : Core} (hrunning : c.running = true) :
    Move R now c [] ⟨c.running, .runnable, c.deadline⟩
  | select {c : Core} {cpu : Nat} (hrunning : c.running = true) (hstate : c.state = .runnable) :
    Move R now c [.selected now] ⟨c.running, .running cpu, c.deadline⟩
  | setDeadline {c : Core} {d : Nat} (hrunning : c.running = true) (hallowed : R.deadline d) :
    Move R now c [] ⟨c.running, c.state, d⟩
  | block {c : Core} {reason : WaitReason} (hrunning : c.running = true) :
    Move R now c [] ⟨false, .blocked reason, c.deadline⟩

/-- Several changes, with the newest event first. -/
inductive Moves (R : Rules) (now : Nat) : Core → List Event → Core → Prop where
  | refl (c : Core) : Moves R now c [] c
  | tail {c c₁ c₂ : Core} {es e : List Event} (h : Moves R now c es c₁)
      (hlast : Move R now c₁ e c₂) :
    Moves R now c (e ++ es) c₂

variable {R : Rules} {now : Nat} {c c' : Core} {es : List Event} {m : TaskManager} {x : Slot}
  {op : Op}

theorem Moves.trans {c₁ c₂ : Core} {es' : List Event}
    (h : Moves R now c es c₁) (h' : Moves R now c₁ es' c₂) : Moves R now c (es' ++ es) c₂ := by
  induction h' with
  | refl => exact h
  | tail _ hlast ih =>
    rw [List.append_assoc]
    exact .tail ih hlast

theorem Move.single {e : List Event} (h : Move R now c e c') : Moves R now c e c' := by
  have hmoves := Moves.tail (.refl c) h
  rwa [List.append_nil] at hmoves

/-- The task in a slot makes some moves. -/
structure Does (R : Rules) (x : Slot) (m m' : TaskManager) : Prop where
  clock : m'.clock = m.clock
  vacant : m.tasks x = none → m'.tasks x = none
  task : ∀ t, m.tasks x = some t → ∃ es t', m'.tasks x = some t' ∧
    t'.leaderSlot = t.leaderSlot ∧ m'.history x = es ++ m.history x ∧
    Moves R m.now t.core es t'.core

/-- An invariant of a task that every move keeps. -/
theorem Moves.inv (I : List Event → Core → Prop)
    (hmove : ∀ es c e c', I es c → Move R now c e c' → I (e ++ es) c') {es₀ : List Event}
    (h : Moves R now c es c') (hc : I es₀ c) : I (es ++ es₀) c' := by
  induction h with
  | refl => exact hc
  | tail _ hlast ih =>
    rw [List.append_assoc]
    exact hmove _ _ _ _ ih hlast

theorem Moves.keeps (I : Core → Prop) (hmove : ∀ c e c', I c → Move R now c e c' → I c')
    (h : Moves R now c es c') (hc : I c) : I c' := by
  induction h with
  | refl => exact hc
  | tail _ hlast ih => exact hmove _ _ _ ih hlast

namespace Does

variable {R : Rules} {x : Slot} {m m' m'' : TaskManager}

theorem refl : Does R x m m :=
  ⟨rfl, id, fun t ht => ⟨[], t, ht, rfl, rfl, .refl _⟩⟩

theorem trans (h : Does R x m m') (h' : Does R x m' m'') : Does R x m m'' := by
  have hclock := h.clock
  refine ⟨h'.clock.trans hclock, fun hnone => h'.vacant (h.vacant hnone), fun t ht => ?_⟩
  obtain ⟨es, t₁, ht₁, hleader₁, hlog₁, hmoves₁⟩ := h.task t ht
  obtain ⟨es', t₂, ht₂, hleader₂, hlog₂, hmoves₂⟩ := h'.task t₁ ht₁
  have hnow : m'.now = m.now := congrArg Clock.uptimeMs hclock
  rw [hnow] at hmoves₂
  refine ⟨es' ++ es, t₂, ht₂, hleader₂.trans hleader₁, ?_, hmoves₁.trans hmoves₂⟩
  rw [hlog₂, hlog₁, List.append_assoc]

theorem of_move (hclock : m'.clock = m.clock) (hnone : m.tasks x = none → m'.tasks x = none)
    (h : ∀ t, m.tasks x = some t → ∃ es t', m'.tasks x = some t' ∧ t'.leaderSlot = t.leaderSlot ∧
      m'.history x = es ++ m.history x ∧ Move R m.now t.core es t'.core) : Does R x m m' := by
  refine ⟨hclock, hnone, fun t ht => ?_⟩
  obtain ⟨es, t', ht', hleader, hlog, hmove⟩ := h t ht
  exact ⟨es, t', ht', hleader, hlog, hmove.single⟩

theorem of_eq (hclock : m'.clock = m.clock) (htask : m'.tasks x = m.tasks x)
    (hlog : m'.history x = m.history x) : Does R x m m' :=
  ⟨hclock, htask.trans, fun t ht => ⟨[], t, htask.trans ht, rfl, hlog, .refl _⟩⟩

/-- The process of a slot stays the same. -/
theorem processSlot (h : Does R x m m') : m'.processSlot x = m.processSlot x := by
  unfold TaskManager.processSlot
  cases ht : m.tasks x with
  | none => rw [h.vacant ht]
  | some t =>
    obtain ⟨_, t', ht', hleader, _⟩ := h.task t ht
    rw [ht']
    exact congrArg (Option.getD · x) hleader

end Does

namespace TaskManager

variable {R : Rules} {x : Slot} {m : TaskManager} {f : Task → Task} {slot : Slot}

theorem modify_self (slot : Slot) (f : Task → Task) (m : TaskManager) :
    (m.modify slot f).tasks slot = (m.tasks slot).map f :=
  update_self ..

theorem modify_of_ne (h : x ≠ slot) : (m.modify slot f).tasks x = m.tasks x :=
  update_of_ne h ..

section

variable (hleader : ∀ t, (f t).leaderSlot = t.leaderSlot)

include hleader

theorem mapTasks_does (hmove : ∀ t, Move R m.now t.core [] (f t).core) : Does R x m
    (m.mapTasks f) := by
  refine Does.of_move rfl (congrArg (Option.map f)) fun t ht =>
    ⟨[], f t, ?_, hleader t, rfl, hmove t⟩
  exact congrArg (Option.map f) ht

theorem modify_moves (hmoves : x = slot → ∀ t, m.tasks slot = some t → Moves R m.now t.core []
    (f t).core) : Does R x m (m.modify slot f) := by
  by_cases heq : x = slot
  · subst heq
    have hself := modify_self x f m
    exact ⟨rfl, fun hnone => hself.trans (congrArg (Option.map f) hnone), fun t ht =>
      ⟨[], f t, hself.trans (congrArg (Option.map f) ht), hleader t, rfl, hmoves rfl t ht⟩⟩
  · exact Does.of_eq rfl (modify_of_ne heq) rfl

theorem modify_does (hmove : x = slot → ∀ t, m.tasks slot = some t → Move R m.now t.core []
    (f t).core) : Does R x m (m.modify slot f) :=
  modify_moves hleader fun heq t ht => (hmove heq t ht).single

end

theorem Move.same {now : Nat} {c c' : Core} (h : c' = c) : Move R now c [] c' := by
  rw [h]
  exact .keep fun e he => absurd he List.not_mem_nil

theorem modify_keeps (hf : ∀ t, (f t).leaderSlot = t.leaderSlot ∧ (f t).core = t.core) :
    Does R x m (m.modify slot f) :=
  modify_does (fun t => (hf t).1) fun _ t _ => Move.same (hf t).2

variable {m' : TaskManager} {reason : WaitReason} {next : Slot} {cpu sig d : Nat}
  {pid timeout status : Int} {value : UInt32} {key : Option Nat} {e : Event}

theorem keeps_then (h : Does R x m m')
    (hf : ∀ t, (f t).leaderSlot = t.leaderSlot ∧ (f t).core = t.core) :
    Does R x m (m'.modify slot f) :=
  h.trans (modify_keeps hf)

theorem onThreads_does {test : Task → Bool} (hleader : ∀ t, (f t).leaderSlot = t.leaderSlot)
    (hmove : ∀ t, m.tasks x = some t → inProcess slot test t = true →
      Move R m.now t.core [e] (f t).core) : Does R x m (m.onThreads slot test f e) := by
  refine ⟨rfl, congrArg (Option.map _), fun t ht => ?_⟩
  unfold onThreads
  dsimp only
  rw [ht, map_some, any_some]
  by_cases hin : inProcess slot test t = true
  · rw [if_pos hin, if_pos hin]
    refine ⟨[e], f t, rfl, hleader t, rfl, ?_⟩
    exact .tail (.refl _) (hmove t ht hin)
  · rw [if_neg hin, if_neg hin]
    exact ⟨[], t, rfl, rfl, rfl, .refl _⟩

/-! ## Waking -/

theorem wakeExpiredTimers_does : Does R x m (m.wakeExpiredTimers m.now) := by
  refine mapTasks_does (fun t => ?_) fun t => ?_
  · unfold Task.expire
    split <;> first | rfl | (split <;> rfl)
  unfold Task.expire
  split
  · rename_i hstate
    split
    · rename_i hdue
      exact .expire hstate hdue
    · exact Move.same rfl
  · rename_i hstate
    split
    · exact .wake hstate (by decide) (.inl rfl)
    · exact Move.same rfl
  · rename_i hstate
    split
    · exact .wake hstate (by decide) (.inr rfl)
    · exact Move.same rfl
  · exact Move.same rfl

theorem wakeWaiters_does (hreason : reason ≠ .timer) : Does R x m (m.wakeWaiters reason) := by
  refine mapTasks_does (fun t => ?_) fun t => ?_
  · unfold Task.wakeFor
    split <;> rfl
  unfold Task.wakeFor
  split
  · rename_i hstate
    exact .wake hstate hreason (.inl rfl)
  · exact Move.same rfl

theorem wakes_then (h : Does R x m m')
    (hreason : reason ≠ .timer) : Does R x m (m'.wakeWaiters reason) :=
  h.trans (wakeWaiters_does hreason)

/-! ## The scheduler -/

/-- What `claim_next_task` does: it finds no task, or one that can run. -/
structure Claims (m : TaskManager) (next : Slot) (m' : TaskManager) : Prop where
  tasks : m'.tasks = m.tasks
  clock : m'.clock = m.clock
  onCpu : m'.onCpu = m.onCpu
  found : (next = 0 ∧ m'.history = m.history) ∨
    (next ≠ 0 ∧ (m.tasks next).any Task.claimable = true ∧
      m'.history = update m.history next (.selected m.now :: m.history next))

theorem repairOwner_eq (slot : Slot) (m : TaskManager) :
    ∃ owner, m.repairOwner slot = { m with owner } := by
  unfold repairOwner
  split
  · exact ⟨m.owner, rfl⟩
  split
  · exact ⟨m.owner, rfl⟩
  · exact ⟨_, rfl⟩

theorem claimFrom_claims (cpu n : Nat) (slot : Slot) (m : TaskManager) :
    Claims m (claimFrom cpu n slot m).1 (claimFrom cpu n slot m).2 := by
  induction n generalizing slot m with
  | zero => exact ⟨rfl, rfl, rfl, .inl ⟨rfl, rfl⟩⟩
  | succ n ih =>
    unfold claimFrom
    dsimp only
    generalize hslot : (if slot = 0 then 1 else slot) = s
    have hs : s ≠ 0 := by
      rw [← hslot]
      split
      · decide
      · assumption
    obtain ⟨owner, hrepair⟩ := repairOwner_eq s m
    rw [hrepair]
    split
    · rename_i h
      exact ⟨rfl, rfl, rfl, .inr ⟨hs, h.1, rfl⟩⟩
    · obtain ⟨htasks, hclock, hcpu, hfound⟩ := ih (s + 1) { m with owner }
      exact ⟨htasks, hclock, hcpu, hfound⟩

theorem claimNextTask_claims (cpu : Nat) (after : Option Slot) (m : TaskManager) :
    Claims m (claimNextTask cpu after m).1 (claimNextTask cpu after m).2 :=
  claimFrom_claims ..

/-- A task that was claimed is running. -/
theorem Claims.running (h : Claims m next m')
    (hnext : ¬ (m'.tasks next).any Task.running = true) : next = 0 := by
  rcases h.found with ⟨hzero, _⟩ | ⟨_, hclaimable, _⟩
  · exact hzero
  refine absurd ?_ hnext
  rw [h.tasks]
  rw [Option.any_eq_true] at hclaimable ⊢
  obtain ⟨t, ht, hclaim⟩ := hclaimable
  refine ⟨t, ht, ?_⟩
  simp only [Task.claimable, Bool.and_eq_true] at hclaim
  exact hclaim.1.1.1

/-- A relation between states that holds for the steps that `schedule` is made of. -/
structure Walk (P : TaskManager → TaskManager → Prop) : Prop where
  trans : ∀ {m m' m''}, P m m' → P m' m'' → P m m''
  frame : ∀ {m m' : TaskManager}, m'.tasks = m.tasks → m'.history = m.history →
    m'.clock = m.clock → P m m'
  enter : ∀ {m m' next} cpu, Claims m next m' →
    P m (m'.modify next fun t => { t with state := .running cpu })
  expire : ∀ m, P m (m.wakeExpiredTimers m.now)
  wake : ∀ m reason, reason ≠ .timer → P m (m.wakeWaiters reason)
  putBack : ∀ m slot, P m (m.modify slot putBack)

namespace Walk

variable {P : TaskManager → TaskManager → Prop} (w : Walk P)
include w

theorem leave (m : TaskManager) (slot : Slot) : P m (m.leave slot) := by
  have howner : P (m.modify slot TaskManager.putBack) { m.modify slot TaskManager.putBack with
      owner := update (m.modify slot TaskManager.putBack).owner slot none } :=
    w.frame rfl rfl rfl
  exact w.trans (w.trans (w.trans (w.putBack m slot) howner) (w.wake _ _ (by decide)))
    (w.wake _ _ (by decide))

theorem scheduleAp (m : TaskManager) (cpu : Nat) : P m (m.scheduleAp cpu) := by
  have hleave : P m (m.leaveCpu cpu) := by
    unfold leaveCpu
    split
    · exact w.frame rfl rfl rfl
    split
    · exact w.leave m _
    · exact w.frame rfl rfl rfl
  have hclaims := claimNextTask_claims cpu (m.onCpu cpu) (m.leaveCpu cpu)
  unfold TaskManager.scheduleAp
  dsimp only
  refine w.trans hleave ?_
  split
  · rename_i hnext
    rcases hclaims.found with ⟨_, hsame⟩ | ⟨hne, _⟩
    · exact w.frame hclaims.tasks hsame hclaims.clock
    · exact absurd hnext hne
  · exact w.trans (w.enter cpu hclaims) (w.frame rfl rfl rfl)

theorem schedule (m : TaskManager) (cpu : Nat) : P m (m.schedule cpu) := by
  unfold TaskManager.schedule
  dsimp only
  refine w.trans (w.expire m) ?_
  generalize m.wakeExpiredTimers m.now = m₁
  split
  · exact w.scheduleAp m₁ cpu
  split
  · exact w.frame rfl rfl rfl
  split
  · have hfirst : P m₁ { m₁ with firstSwitch := false, currentTask := some 0 } :=
      w.frame rfl rfl rfl
    exact w.trans hfirst (w.trans (w.enter 0 (claimNextTask_claims 0 (some 0) _))
      (w.frame rfl rfl rfl))
  have hleave : P m₁ m₁.leaveCurrent := by
    unfold leaveCurrent
    split
    · exact w.frame rfl rfl rfl
    split
    · exact w.putBack m₁ _
    · exact w.leave m₁ _
  have hclaims := claimNextTask_claims 0 m₁.leaveCurrent.currentTask m₁.leaveCurrent
  refine w.trans hleave ?_
  split
  · exact w.trans (w.enter 0 hclaims) (w.frame rfl rfl rfl)
  · rename_i hidle
    rw [hclaims.running hidle] at hclaims
    exact w.trans (w.enter 0 hclaims) (w.frame rfl rfl rfl)

end Walk

/-- A relation between states that holds for the ways to send a signal. -/
structure Sends (P : TaskManager → TaskManager → Prop) : Prop where
  refl : ∀ m, P m m
  trans : ∀ {m m' m''}, P m m' → P m' m'' → P m m''
  kill : ∀ m slot sig, P m (m.forceKill slot sig).2
  stop : ∀ m slot sig, sig = sigstop ∨ isJobStop sig = true → P m (m.stopTaskWithSignal slot sig).2
  send : ∀ m slot sig, P m (m.sendSignal slot sig).2
  resume : ∀ m slot, P m (m.continueTask slot).2

namespace Sends

variable {P : TaskManager → TaskManager → Prop} (w : Sends P) (m : TaskManager) (sig : Nat)
include w

theorem signalSlot (slot : Slot) : P m (m.signalSlot slot sig).2 := by
  unfold TaskManager.signalSlot
  dsimp only
  split
  · exact w.refl m
  split
  · exact w.kill m slot sig
  split
  · exact w.stop m slot sigstop (.inl rfl)
  split
  · split
    · exact w.refl m
    · split
      · exact w.send m slot sig
      · exact w.stop m slot sig (.inr ‹_›)
  split
  · split
    · exact w.trans (w.resume m slot) (w.send _ slot sig)
    · exact w.resume m slot
  · exact w.send m slot sig

theorem signalSlots (slots : List Slot) (r : Bool × TaskManager) :
    P r.2 (slots.foldl (fun r slot => ((r.1 || (r.2.signalSlot slot sig).1),
      (r.2.signalSlot slot sig).2)) r).2 := by
  induction slots generalizing r with
  | nil => exact w.refl r.2
  | cons slot slots ih =>
    refine w.trans (w.signalSlot r.2 sig slot) ?_
    exact ih (r.1 || (r.2.signalSlot slot sig).1, (r.2.signalSlot slot sig).2)

theorem sysKill (current : Slot) (pid : Int) : P m (m.sysKill current pid sig).2 := by
  unfold TaskManager.sysKill
  split
  · exact w.refl m
  · exact w.signalSlots sig _ (false, m)

end Sends

/-- A relation between states that holds for the steps of the delivery of signals. -/
structure Delivers (P : TaskManager → TaskManager → Prop) : Prop where
  refl : ∀ m, P m m
  trans : ∀ {m m' m''}, P m m' → P m' m'' → P m m''
  kill : ∀ m slot sig, P m (m.forceKill slot sig).2
  switch : ∀ m cpu, P m (m.schedule cpu)
  clear : ∀ m slot (signals : Task → BitVec 31),
    P m (m.modify slot fun t => { t with pendingSignals := signals t })
  start : ∀ m thread slot sig handler, P m (m.startHandler thread slot sig handler)

namespace Delivers

variable {P : TaskManager → TaskManager → Prop} (w : Delivers P) (m : TaskManager) (cpu : Nat)
include w

theorem deliverPendingAfterSwitch : P m (m.deliverPendingAfterSwitch cpu) := by
  unfold TaskManager.deliverPendingAfterSwitch
  split
  · exact w.refl m
  split
  · exact w.refl m
  dsimp only
  split
  · exact w.refl m
  split
  · exact w.trans (w.kill m _ _) (w.switch _ cpu)
  · exact w.clear m _ fun _ => 0

theorem deliverSignals {thread slot : Slot} {pending : BitVec 31} (sigs : List Nat) :
    P m (m.deliverSignals cpu thread slot pending sigs) := by
  induction sigs generalizing m with
  | nil => exact w.refl m
  | cons sig sigs ih =>
    have hclear : P m (m.modify slot (Task.clearSignal · sig)) := w.clear m slot _
    unfold TaskManager.deliverSignals
    split
    · exact ih m
    split
    · exact w.trans hclear (ih _)
    split
    · exact w.start m thread slot sig _
    split
    · exact w.trans (w.trans (w.kill m slot sig) (w.switch _ cpu))
        (w.deliverPendingAfterSwitch _ cpu)
    · exact w.trans hclear (ih _)

theorem deliverPending : P m (m.deliverPending cpu) := by
  unfold TaskManager.deliverPending
  split
  · exact w.refl m
  split
  · exact w.refl m
  dsimp only
  split
  · exact w.refl m
  · exact w.deliverSignals m cpu _

end Delivers

/-- A task that was claimed goes to a processor.  The slot 0 belongs to the task that
idles. -/
theorem Claims.enters (hx : x ≠ 0) (h : Claims m next m') :
    Does R x m (m'.modify next fun t => { t with state := .running cpu }) := by
  refine Does.of_move h.clock (fun hnone => ?_) fun t ht => ?_
  · by_cases heq : x = next
    · rw [← heq, modify_self, h.tasks, hnone]
      rfl
    · rw [modify_of_ne heq, h.tasks, hnone]
  show ∃ es t', _ ∧ _ ∧ m'.history x = _ ∧ _
  have hsame : x ≠ next → (m'.modify next fun t => { t with state := .running cpu }).tasks x
      = some t := fun hne => by rw [modify_of_ne hne, h.tasks, ht]
  rcases h.found with ⟨hzero, hnone⟩ | ⟨_, hclaimable, hnew⟩
  · rw [hsame (hzero ▸ hx), hnone]
    exact ⟨[], t, rfl, rfl, rfl, Move.same rfl⟩
  rw [hnew]
  by_cases heq : x = next
  · subst heq
    rw [ht, any_some] at hclaimable
    simp only [Task.claimable, Bool.and_eq_true, decide_eq_true_eq] at hclaimable
    refine ⟨[.selected m.now], { t with state := .running cpu }, ?_, rfl,
      update_self .., .select hclaimable.1.1.1 hclaimable.1.1.2⟩
    rw [modify_self, h.tasks, ht]
    rfl
  · rw [hsame heq, update_of_ne heq]
    exact ⟨[], t, rfl, rfl, rfl, Move.same rfl⟩

theorem putBack_does : Does R x m (m.modify slot putBack) := by
  refine modify_does (fun t => ?_) fun _ t _ => ?_
  · unfold putBack
    split <;> rfl
  unfold putBack
  split
  · rename_i hrunning
    exact .putBack hrunning
  · exact Move.same rfl

theorem walk_does (hx : x ≠ 0) : Walk (Does R x) where
  trans := Does.trans
  frame := fun htasks hlog hclock => .of_eq hclock (congrFun htasks x) (congrFun hlog x)
  enter := fun _ => Claims.enters hx
  expire := fun _ => wakeExpiredTimers_does
  wake := fun _ _ => wakeWaiters_does
  putBack := fun _ _ => putBack_does

theorem schedule_does (hx : x ≠ 0) : Does R x m (m.schedule cpu) :=
  (walk_does hx).schedule m cpu

/-! ## Signals -/

theorem reparentChildrenOf_does : Does R x m (m.reparentChildrenOf pid) := by
  unfold reparentChildrenOf
  split
  · exact .refl
  refine mapTasks_does (fun t => ?_) fun t => ?_
  · split <;> rfl
  split
  · exact Move.same rfl
  · exact Move.same rfl

theorem reparents_then (h : Does R x m m') : Does R x m (m'.reparentChildrenOf pid) :=
  h.trans reparentChildrenOf_does

/-- A signal that is queued wakes the leader of the process. -/
theorem sendSignal_does (hallowed : x = m.processSlot slot → R.signals) :
    Does R x m (m.sendSignal slot sig).2 := by
  unfold sendSignal
  split
  · exact .refl
  dsimp only
  generalize m.processSlot slot = leader at hallowed
  split
  · exact .refl
  split
  · exact .refl
  by_cases heq : x = leader
  · subst heq
    refine Does.of_move rfl (fun hnone => ?_) fun t ht => ⟨[.signalled], Task.queue sig t, ?_, ?_,
      update_self .., ?_⟩
    · exact (modify_self ..).trans (congrArg (Option.map _) hnone)
    · exact (modify_self ..).trans (congrArg (Option.map _) ht)
    · unfold Task.queue
      dsimp only
      split <;> rfl
    unfold Task.queue
    dsimp only
    split
    · rename_i hstate
      exact .signal hstate (hallowed rfl)
    refine .keep fun e he => ?_
    rw [List.mem_singleton.1 he]
    trivial
  · exact Does.of_eq rfl (modify_of_ne heq) (update_of_ne heq ..)

theorem stopTaskWithSignal_does : Does R x m (m.stopTaskWithSignal slot sig).2 := by
  unfold stopTaskWithSignal
  split
  · exact .refl
  dsimp only
  split
  · exact .refl
  have hhalt : Does R x m (m.onThreads (m.processSlot slot) Task.live Task.halt .stopped) :=
    onThreads_does (fun _ => rfl) fun _ _ _ => .stop
  exact wakes_then (keeps_then hhalt fun _ => ⟨rfl, rfl⟩) (by decide)

theorem continueTask_does
    (hallowed : ∀ t, m.tasks x = some t → t.leaderSlot = some (m.processSlot slot) → R.signals) :
    Does R x m (m.continueTask slot).2 := by
  unfold continueTask
  split
  · exact .refl
  dsimp only
  have hresume : Does R x m
      (m.onThreads (m.processSlot slot) Task.live Task.resume .continued) := by
    refine onThreads_does (fun _ => rfl) fun t ht hin => .resume (hallowed t ht ?_)
    exact of_decide_eq_true (Bool.and_eq_true_iff.1 hin).1
  split
  · exact hresume
  · exact wakes_then (keeps_then hresume fun _ => ⟨rfl, rfl⟩) (by decide)

theorem forceKill_does : Does R x m (m.forceKill slot sig).2 := by
  unfold forceKill
  split
  · exact .refl
  dsimp only
  split
  · exact .refl
  split
  · exact .refl
  generalize (if sig = 0 then sigkill else sig) = termSignal
  have hkill : Does R x m (m.onThreads (m.processSlot slot) (fun _ => true)
      (Task.kill termSignal) (.killed termSignal)) :=
    onThreads_does (fun _ => rfl) fun _ _ _ => .kill termSignal
  refine wakes_then (wakes_then (reparents_then (keeps_then hkill fun _ => ⟨rfl, rfl⟩)) ?_) ?_
  · decide
  · decide

/-- The signal is queued: it does not kill, stop or continue the process. -/
def queues (m : TaskManager) (slot : Slot) (sig : Nat) : Prop :=
  sig ≠ sigkill ∧ sig ≠ sigstop ∧ sig ≠ sigcont ∧
    (isJobStop sig = true → m.handlerOf slot sig ≠ 0 ∧ m.handlerOf slot sig ≠ sigIgn)

/-- The signal to a process wakes the task in slot `x`. -/
def Wakes (m : TaskManager) (x slot : Slot) (sig : Nat) : Prop :=
  (m.queues slot sig ∧ m.processSlot slot = x) ∨
    (sig = sigcont ∧ (m.processSlot slot = x ∨ m.processSlot slot = m.processSlot x))

theorem signalSlot_does (hallowed : m.Wakes x slot sig → R.signals) :
    Does R x m (m.signalSlot slot sig).2 := by
  unfold signalSlot
  split
  · exact .refl
  split
  · exact forceKill_does
  rename_i hkill
  split
  · exact stopTaskWithSignal_does
  rename_i hstop
  split
  · rename_i hjob
    split
    · exact .refl
    rename_i hign
    split
    · rename_i hdefault
      refine sendSignal_does fun heq =>
        hallowed (.inl ⟨⟨hkill, hstop, ?_, fun _ => ⟨hdefault, hign⟩⟩,
        heq.symm⟩)
      rintro rfl
      exact absurd hjob (by decide)
    · exact stopTaskWithSignal_does
  rename_i hjob
  split
  · rename_i hcont
    have hcontinue : Does R x m (m.continueTask slot).2 := by
      refine continueTask_does fun t ht hleader => hallowed (.inr ⟨hcont, .inr ?_⟩)
      conv_rhs => unfold processSlot
      rw [ht]
      exact (congrArg (Option.getD · x) hleader).symm
    have hsame : (m.continueTask slot).2.processSlot slot = m.processSlot slot :=
      (continueTask_does (R := ⟨fun _ => True, True⟩) fun _ _ _ => trivial).processSlot
    dsimp only
    split
    · refine hcontinue.trans (sendSignal_does fun heq => hallowed (.inr ⟨hcont, .inl ?_⟩))
      rw [← hsame, heq]
    · exact hcontinue
  · rename_i hcont
    exact sendSignal_does fun heq => hallowed (.inl ⟨⟨hkill, hstop, hcont, fun h => absurd h hjob⟩,
      heq.symm⟩)

/-- One of the signals to several processes wakes the task. -/
def Reached (x : Slot) (sig : Nat) : List Slot → TaskManager → Prop
  | [], _ => False
  | slot :: slots, m => m.Wakes x slot sig ∨ Reached x sig slots (m.signalSlot slot sig).2

/-! ## Delivery -/

theorem record_does (he : e.Quiet) : Does R x m (m.record slot e) := by
  by_cases heq : x = slot
  · subst heq
    refine Does.of_move rfl id fun t ht => ⟨[e], t, ht, rfl, update_self .., .keep ?_⟩
    intro e' he'
    rw [List.mem_singleton.1 he']
    exact he
  · exact Does.of_eq rfl rfl (update_of_ne heq ..)

theorem startHandler_does {thread : Slot} {handler : UInt32} :
    Does R x m (m.startHandler thread slot sig handler) := by
  refine keeps_then (Does.trans ?_ (record_does trivial)) fun _ => ⟨rfl, rfl⟩
  exact modify_keeps fun _ => ⟨rfl, rfl⟩

theorem delivers_does (hx : x ≠ 0) : Delivers (Does R x) where
  refl := fun _ => .refl
  trans := Does.trans
  kill := fun _ _ _ => forceKill_does
  switch := fun _ _ => schedule_does hx
  clear := fun _ _ _ => modify_keeps fun _ => ⟨rfl, rfl⟩
  start := fun _ _ _ _ _ => startHandler_does

theorem deliverPending_does (hx : x ≠ 0) : Does R x m (m.deliverPending cpu) :=
  (delivers_does hx).deliverPending m cpu

/-! ## Waiting -/

theorem block_core (t : Task) (reason : WaitReason) : (t.block reason).leaderSlot = t.leaderSlot ∧
      (t.block reason).core = ⟨false, .blocked reason, t.wakeDeadlineMs⟩ := by
  unfold Task.block
  split
  · exact ⟨rfl, rfl⟩
  · exact ⟨rfl, rfl⟩

/-- A task that is there runs. -/
def Runs (m : TaskManager) (slot : Slot) : Prop := ∀ t, m.tasks slot = some t → t.running = true

theorem Runs.modify (h : m.Runs slot) (hf : ∀ t, (f t).running = t.running) :
    (m.modify slot f).Runs slot := by
  intro t ht
  rw [modify_self, map_eq_some_iff] at ht
  obtain ⟨t₀, ht₀, rfl⟩ := ht
  rw [hf]
  exact h t₀ ht₀

theorem blocksUntil (hrun : m.Runs slot) (hallowed : x = slot → R.deadline d)
    (hf : ∀ t, (f t).leaderSlot = t.leaderSlot ∧ (f t).core = ⟨false, .blocked reason, d⟩) :
    Does R x m (m.modify slot f) := by
  refine modify_moves (fun t => (hf t).1) fun heq t ht => ?_
  have hset : Moves R m.now t.core [] ⟨t.core.running, t.core.state, d⟩ :=
    (Move.setDeadline (hrun t ht) (hallowed heq)).single
  rw [(hf t).2]
  exact hset.tail (.block (hrun t ht))

theorem restartLater_core (reason : WaitReason) (wait : NetworkWait) (t : Task) :
    (restartLater reason wait t).leaderSlot = t.leaderSlot ∧
      (restartLater reason wait t).core = ⟨false, .blocked reason, t.wakeDeadlineMs⟩ := by
  have hblock := block_core { t with frame := { t.frame with eip := t.frame.eip - 2 } } reason
  unfold restartLater
  split
  · exact hblock
  · exact hblock

theorem sleepUntil_core (d : Nat) (t : Task) : (sleepUntil d t).leaderSlot = t.leaderSlot ∧
      (sleepUntil d t).core = ⟨false, .blocked .timer, d⟩ :=
  block_core { t with wakeDeadlineMs := d } .timer

theorem waitFutex_core (key d : Nat) (t : Task) : (waitFutex key d t).leaderSlot = t.leaderSlot ∧
      (waitFutex key d t).core = ⟨false, .blocked .futex, d⟩ :=
  block_core { t with futexKey := key, wakeDeadlineMs := d } .futex

/-- The deadline that a system call of a task stores is allowed. -/
def SetsOnly (D : Nat → Prop) (m : TaskManager) (slot : Slot) : Call → Prop
  | .nanosleep sec nsec => ∀ wait, waitMs sec nsec = some wait → D (satAdd64 m.now wait)
  | .futexWait none _ _ _ => D 0
  | .futexWait (some (sec, nsec)) _ _ _ =>
    ∀ wait, waitMs sec nsec = some wait → D (satAdd64 m.now wait)
  | .poll _ _ timeout _ =>
    D 0 ∧ (0 < timeout → m.deadlineOf slot = 0 → D (satAdd64 m.now timeout.toNat))
  | _ => True

theorem setsOnly_of_forall {D : Nat → Prop} (h : ∀ d, D d) (call : Call) :
    SetsOnly D m slot call := by
  cases call with
  | nanosleep sec nsec => exact fun _ _ => h _
  | poll nullFds ready timeout wait => exact ⟨h 0, fun _ _ => h _⟩
  | futexWait timeout key word val =>
    cases timeout with
    | none => exact h 0
    | some time => exact fun _ _ => h _
  | _ => trivial

/-! ## Exit -/

theorem exits (hleader : ∀ t, (f t).leaderSlot = t.leaderSlot)
    (hcore : ∀ t, (f t).core = ⟨false, .zombie, t.wakeDeadlineMs⟩) :
    Does R x m ((m.modify slot f).record slot .exited) := by
  by_cases heq : x = slot
  · subst heq
    have hself := modify_self x f m
    refine Does.of_move rfl (fun hnone => hself.trans (congrArg (Option.map f) hnone)) fun t ht =>
      ⟨[.exited], f t, hself.trans (congrArg (Option.map f) ht), hleader t, update_self .., ?_⟩
    rw [hcore t]
    exact .exit
  · exact Does.of_eq rfl (modify_of_ne heq) (update_of_ne heq ..)

theorem finishProcess_does : Does R x m (m.finishProcess slot status) := by
  refine wakes_then (wakes_then (reparents_then (exits (fun _ => rfl) fun _ => rfl)) ?_) ?_
  · decide
  · decide

theorem sysExit_does (hx : x ≠ 0) : Does R x m (m.sysExit cpu slot status) := by
  unfold sysExit
  split
  · exact schedule_does hx
  have hthreads : Does R x m (m.onThreads slot (fun _ => true)
      (exitThread (UInt32.ofInt status)) .exited) :=
    onThreads_does (fun _ => rfl) fun _ _ _ => .exit
  exact (hthreads.trans finishProcess_does).trans (schedule_does hx)

theorem sysThreadExit_does (hx : x ≠ 0) : Does R x m (m.sysThreadExit cpu slot value) := by
  unfold sysThreadExit
  split
  · exact schedule_does hx
  dsimp only
  generalize hexited : ((m.modify slot (exitThread value)).record slot .exited).wakeWaiters .thread
    = m₁
  have hexit : Does R x m m₁ := by
    rw [← hexited]
    exact wakes_then (exits (fun _ => rfl) fun _ => rfl) (by decide)
  split
  · exact (hexit.trans finishProcess_does).trans (schedule_does hx)
  · exact hexit.trans (schedule_does hx)

/-! ## Steps -/

/-- One of the signals that a terminal sends wakes the task. -/
def TtyReached (x : Slot) : List TtyByte → TaskManager → Prop
  | .taken :: bytes, m => TtyReached x bytes m
  | .signal pgid sig :: bytes, m =>
    m.Reached x sig (m.slotsInPgid pgid) ∨ TtyReached x bytes (m.signalGroup pgid sig)
  | _, _ => False

/-- A terminal that makes its writer wait has sent no signal. -/
theorem ttyWrite_none {nonblock : Bool} {bytes : List TtyByte} {written : Nat}
    (h : (m.ttyWrite nonblock bytes written).1 = none) :
    written = 0 ∧ (m.ttyWrite nonblock bytes written).2 = m := by
  induction bytes generalizing m written with
  | nil => exact absurd h (by unfold ttyWrite; exact some_ne_none _)
  | cons byte bytes ih =>
    cases byte with
    | taken => exact absurd (ih h).1 (Nat.succ_ne_zero _)
    | signal pgid sig => exact absurd (ih h).1 (Nat.succ_ne_zero _)
    | refused =>
      unfold ttyWrite at h
      split at h
      · rename_i hwait
        exact ⟨hwait.1, rfl⟩
      · exact absurd h (some_ne_none _)

/-- The system call of a task sends a signal that wakes the task in slot `x`. -/
def CallReaches (x : Slot) (m : TaskManager) (thread : Slot) : Call → Prop
  | .kill pid sig => m.Reached x sig (m.killTargets (m.processSlot thread) pid)
  | .background pgid sig => m.Reached x sig (m.slotsInPgid pgid)
  | .ttyWrite _ bytes _ => TtyReached x bytes m
  | _ => False

/-- The change only concerns the registers and the handlers. -/
def Touches (f : Task → Task) : Prop :=
  ∀ t, ∃ frame signalHandlers, f t = { t with frame, signalHandlers }

/-- The change wakes tasks that wait for something else than the time. -/
def Rouses (f : Task → Task) : Prop :=
  ∀ t, f t = t ∨ f t = t.wake ∧ ∃ reason, reason ≠ .timer ∧ t.state = .blocked reason

theorem rouses_wakeFor (hreason : reason ≠ .timer) : Rouses (Task.wakeFor reason) := by
  intro t
  unfold Task.wakeFor
  split
  · exact .inr ⟨rfl, reason, hreason, ‹_›⟩
  · exact .inl rfl

theorem rouses_wakeReady (readable writable : BitVec 128) :
    Rouses (Task.wakeReady readable writable) := by
  intro t
  unfold Task.wakeReady
  split
  · rename_i h
    rcases h.1 with hstate | hstate
    · exact .inr ⟨rfl, .poll, by decide, hstate⟩
    · exact .inr ⟨rfl, .socket, by decide, hstate⟩
  · exact .inl rfl

theorem rouses_wakePeriodic : Rouses Task.wakePeriodic := by
  intro t
  unfold Task.wakePeriodic
  split
  · rename_i h
    exact .inr ⟨rfl, .poll, by decide, h.1⟩
  · exact .inl rfl

/-- The task gets to its call. -/
structure Calls (m : TaskManager) (thread : Slot) (t : Task) : Prop where
  task : m.tasks thread = some t
  running : t.running = true
  live : t.threadExited = false
  zombie : t.zombie = false

theorem calls_of_not_barred (h : ¬ (m.tasks slot).all
    (fun t => !t.running || t.threadExited || t.zombie) = true) : ∃ t, Calls m slot t := by
  cases ht : m.tasks slot with
  | none => simp [ht] at h
  | some t =>
    simp only [ht, all_some, Bool.or_eq_true, Bool.not_eq_true', not_or,
      Bool.not_eq_false, Bool.not_eq_true] at h
    exact ⟨t, ht, h.1.1, h.1.2, h.2⟩

/-- A relation between states that holds for the parts of the system calls and of the interrupts.
The slot and the rules say what they do to one task. -/
structure Handles (R : Rules) (x : Slot) (P : TaskManager → TaskManager → Prop) : Prop where
  refl : ∀ m, P m m
  trans : ∀ {m m' m''}, P m m' → P m' m'' → P m m''
  touch : ∀ m slot {f}, Touches f → P m (m.modify slot f)
  rouse : ∀ m {f}, Rouses f → P m (m.mapTasks f)
  wakeFutex : ∀ m slot, (∀ t, m.tasks slot = some t → t.state = .blocked .futex) →
    P m (m.modify slot wakeFutex)
  deadline : ∀ m slot d, m.Runs slot → (x = slot → R.deadline d) → P m (m.setDeadline slot d)
  restart : ∀ m slot reason wait, m.Runs slot → P m (m.modify slot (restartLater reason wait))
  sleep : ∀ m slot d, m.Runs slot → (x = slot → R.deadline d) →
    P m (m.modify slot (sleepUntil d))
  await : ∀ m slot key d, m.Runs slot → (x = slot → R.deadline d) →
    P m (m.modify slot (waitFutex key d))
  signal : ∀ m slot sig, (m.Wakes x slot sig → R.signals) → P m (m.signalSlot slot sig).2
  switch : ∀ m cpu, P m (m.schedule cpu)
  deliver : ∀ m cpu, P m (m.deliverPending cpu)

namespace Handles

variable {P : TaskManager → TaskManager → Prop} (w : Handles R x P) {slots : List Slot}
  {current : Slot} {frame : Frame} {call : Call}
include w

theorem signalSlots (hallowed : m.Reached x sig slots → R.signals) :
    P m (m.signalSlots slots sig).2 := by
  unfold TaskManager.signalSlots
  generalize false = any
  induction slots generalizing m any with
  | nil => exact w.refl m
  | cons slot slots ih =>
    exact w.trans (w.signal m slot sig fun h => hallowed (.inl h))
      (ih (fun h => hallowed (.inr h)) _)

theorem sysKill (hallowed : m.Reached x sig (m.killTargets current pid) → R.signals) :
    P m (m.sysKill current pid sig).2 := by
  unfold TaskManager.sysKill
  split
  · exact w.refl m
  · exact w.signalSlots hallowed

theorem sysSigaction {handler : UInt32} : P m (m.sysSigaction current sig handler).2 := by
  unfold TaskManager.sysSigaction
  split
  · exact w.refl m
  · exact w.touch m current fun _ => ⟨_, _, rfl⟩

theorem setEax : P m (m.setEax slot value) := w.touch m slot fun _ => ⟨_, _, rfl⟩

theorem saveFrame : P m (m.saveFrame cpu frame) := by
  unfold TaskManager.saveFrame
  split
  · exact w.refl m
  · exact w.touch m _ fun _ => ⟨_, _, rfl⟩

theorem blockAndRestart {wait : NetworkWait} (hrun : m.Runs slot) :
    P m (m.blockAndRestart cpu slot reason wait) :=
  w.trans (w.restart m slot reason wait hrun) (w.switch _ cpu)

theorem sysNanosleepBlock {sec nsec : Int} (hrun : m.Runs slot)
    (hallowed : x = slot → ∀ wait, waitMs sec nsec = some wait → R.deadline (satAdd64 m.now wait)) :
    P m (m.sysNanosleepBlock cpu slot sec nsec) := by
  unfold TaskManager.sysNanosleepBlock
  split
  · exact w.setEax
  rename_i wait hwait
  split
  · exact w.setEax
  exact w.trans (w.trans w.setEax (w.sleep _ slot _ (hrun.modify fun _ => rfl)
    fun heq => hallowed heq wait hwait)) (w.switch _ cpu)

theorem futexBlock {word val : UInt32} (hrun : m.Runs slot) (hallowed : x = slot → R.deadline d) :
    P m (m.futexBlock cpu slot d key word val) := by
  unfold TaskManager.futexBlock
  split
  · exact w.setEax
  split
  · exact w.setEax
  exact w.trans (w.trans w.setEax (w.await _ slot _ d (hrun.modify fun _ => rfl) hallowed))
    (w.switch _ cpu)

theorem futexWait {timeout : Option (Int × Int)} {word val : UInt32} (hrun : m.Runs slot)
    (hallowed : x = slot → SetsOnly R.deadline m slot (.futexWait timeout key word val)) :
    P m (m.futexWait cpu slot timeout key word val) := by
  unfold TaskManager.futexWait
  split
  · exact w.futexBlock hrun hallowed
  split
  · exact w.setEax
  rename_i wait hwait
  split
  · exact w.setEax
  · exact w.futexBlock hrun fun heq => hallowed heq wait hwait

theorem futexWakeFrom {key count woken : Nat} : P m (m.futexWakeFrom key count slots woken).2 := by
  induction slots generalizing m woken with
  | nil => exact w.refl m
  | cons slot slots ih =>
    unfold TaskManager.futexWakeFrom
    split
    · exact w.refl m
    split
    · rename_i hwaits
      refine w.trans (w.wakeFutex m slot fun t ht => ?_) ih
      rw [ht, any_some, Bool.and_eq_true, decide_eq_true_eq] at hwaits
      exact hwaits.1
    · exact ih

theorem futexWake {count : Nat} : P m (m.futexWake slot key count) := by
  unfold TaskManager.futexWake
  split
  · exact w.setEax
  · dsimp only
    exact w.trans w.futexWakeFrom w.setEax

theorem sysPoll {nullFds : Bool} {ready : List Bool} (hrun : m.Runs slot)
    (hzero : x = slot → R.deadline 0) (hallowed : x = slot → 0 < timeout → m.deadlineOf slot = 0 →
      R.deadline (satAdd64 m.now timeout.toNat)) :
    P m (m.sysPoll slot nullFds ready timeout).2 ∧
      (m.sysPoll slot nullFds ready timeout).2.Runs slot := by
  have hstart : P m (m.startPoll slot timeout) ∧ (m.startPoll slot timeout).Runs slot := by
    unfold startPoll
    split
    · rename_i h
      exact ⟨w.deadline m slot _ hrun fun heq => hallowed heq h.1 h.2, hrun.modify fun _ => rfl⟩
    · exact ⟨w.refl m, hrun⟩
  have hreset : P m ((m.startPoll slot timeout).setDeadline slot 0) ∧
      ((m.startPoll slot timeout).setDeadline slot 0).Runs slot :=
    ⟨w.trans hstart.1 (w.deadline _ slot 0 hstart.2 hzero), hstart.2.modify fun _ => rfl⟩
  unfold TaskManager.sysPoll
  split
  · exact ⟨w.refl m, hrun⟩
  dsimp only
  split
  · exact hreset
  split
  · exact hstart
  split
  · exact hreset
  · exact hstart

theorem ttyWrite {nonblock : Bool} {bytes : List TtyByte} {written : Nat}
    (hallowed : TtyReached x bytes m → R.signals) : P m (m.ttyWrite nonblock bytes written).2 := by
  induction bytes generalizing m written with
  | nil => exact w.refl m
  | cons byte bytes ih =>
    cases byte with
    | taken => exact ih hallowed
    | refused => exact w.refl m
    | signal pgid sig =>
      exact w.trans (w.signalSlots fun h => hallowed (.inl h)) (ih fun h => hallowed (.inr h))

theorem finishCall {ret : UInt32} : P m (m.finishCall cpu slot ret) := by
  unfold TaskManager.finishCall
  dsimp only
  split
  · exact w.trans w.setEax (w.switch _ cpu)
  · exact w.trans w.setEax (w.deliver _ cpu)

theorem perform (hrun : m.Runs slot) (hsets : x = slot → SetsOnly R.deadline m slot call)
    (hreach : CallReaches x m slot call → R.signals)
    (hexit : ∀ status, P m (m.sysExit cpu (m.processSlot slot) status))
    (hleave : ∀ value, P m (m.sysThreadExit cpu slot value)) : P m (m.perform cpu slot call) := by
  unfold TaskManager.perform
  cases call with
  | threadExit value => exact hleave value
  | exitGroup status => exact hexit status
  | yield => exact w.trans w.setEax (w.switch _ cpu)
  | nanosleep sec nsec => exact w.sysNanosleepBlock hrun hsets
  | futexWait timeout key word val => exact w.futexWait hrun hsets
  | futexWake key count => exact w.futexWake
  | kill pid sig => exact w.trans (w.sysKill hreach) w.finishCall
  | sigaction sig handler => exact w.trans w.sysSigaction w.finishCall
  | background pgid sig => exact w.trans (w.signalSlots hreach) w.finishCall
  | restart reason wait => exact w.blockAndRestart hrun
  | waited ret => exact w.setEax
  | other ret wakesInput =>
    dsimp only
    split
    · exact w.trans (w.rouse m (rouses_wakeFor (by decide))) w.finishCall
    · exact w.finishCall
  | poll nullFds ready timeout wait =>
    have hpoll : P m (m.sysPoll slot nullFds ready timeout).2 ∧
        (m.sysPoll slot nullFds ready timeout).2.Runs slot :=
      w.sysPoll hrun (fun heq => (hsets heq).1) fun heq => (hsets heq).2
    dsimp only
    split
    · rename_i m' heq
      rw [heq] at hpoll
      exact w.trans hpoll.1 (w.blockAndRestart hpoll.2)
    rename_i ret m' heq
    rw [heq] at hpoll
    exact w.trans hpoll.1 w.finishCall
  | ttyWrite nonblock bytes wait =>
    have hwrite : P m (m.ttyWrite nonblock bytes 0).2 := w.ttyWrite hreach
    dsimp only
    split
    · rename_i m' heq
      have hnone := (ttyWrite_none (congrArg Prod.fst heq)).2
      rw [heq] at hnone
      dsimp only at hnone
      rw [hnone]
      exact w.blockAndRestart hrun
    rename_i written m' heq
    rw [heq] at hwrite
    exact w.trans hwrite w.finishCall

/-- A task that does not run does not get to its call. -/
theorem syscallLocked (hsets : x = slot → SetsOnly R.deadline m slot call)
    (hreach : CallReaches x m slot call → R.signals)
    (hexit : ∀ t, Calls m slot t → (∀ status, P m (m.sysExit cpu (m.processSlot slot) status)) ∧
      ∀ value, P m (m.sysThreadExit cpu slot value)) : P m (m.syscallLocked cpu slot call) := by
  unfold TaskManager.syscallLocked
  split
  · exact w.switch m cpu
  obtain ⟨t, ht⟩ := calls_of_not_barred ‹_›
  refine w.perform (fun t' ht' => ?_) hsets hreach (hexit t ht).1 (hexit t ht).2
  rw [ht.task] at ht'
  cases ht'
  exact ht.running

theorem timerHandler {ready : Option (BitVec 128 × BitVec 128)} {audio : Bool} :
    P m (m.timerHandler frame ready audio) := by
  unfold TaskManager.timerHandler
  split
  · exact w.refl m
  have hready : ∀ m' : TaskManager,
      P m' (ready.elim m' fun r => m'.wakeNetworkWaiters r.1 r.2) := by
    intro m'
    cases ready with
    | none => exact w.refl m'
    | some r => exact w.rouse m' (rouses_wakeReady r.1 r.2)
  have haudio : ∀ m' : TaskManager, P m' (if audio = true then m'.wakeWaiters .audio else m') := by
    intro m'
    split
    · exact w.rouse m' (rouses_wakeFor (by decide))
    · exact w.refl m'
  have hperiodic := w.trans (w.trans w.saveFrame (hready (m.saveFrame 0 frame)))
    (w.rouse _ rouses_wakePeriodic)
  have hne : WaitReason.input ≠ .timer := by decide
  have hinput := w.trans hperiodic (w.rouse _ (rouses_wakeFor hne))
  have hall := w.trans (w.trans (w.trans hinput (haudio _)) (w.switch _ 0)) (w.deliver _ 0)
  cases ready <;> exact hall

end Handles

theorem handles_does (hx : x ≠ 0) : Handles R x (Does R x) where
  refl := fun _ => .refl
  trans := Does.trans
  touch := fun _ _ _ hf => modify_keeps fun t => by
    obtain ⟨frame, handlers, ht⟩ := hf t
    rw [ht]
    exact ⟨rfl, rfl⟩
  rouse := fun _ _ hf => mapTasks_does
    (fun t => by
      rcases hf t with h | ⟨h, -⟩
      · rw [h]
      · rw [h]
        rfl)
    fun t => by
      rcases hf t with h | ⟨h, reason, hreason, hstate⟩
      · exact Move.same (congrArg Task.core h)
      · rw [h]
        exact .wake hstate hreason (.inl rfl)
  wakeFutex := fun _ _ hwaits => modify_does (fun _ => rfl) fun _ t ht =>
    .wake (hwaits t ht) (by decide) (.inr rfl)
  deadline := fun _ _ _ hrun hallowed => modify_does (fun _ => rfl) fun heq t ht =>
    .setDeadline (hrun t ht) (hallowed heq)
  restart := fun _ _ reason wait hrun =>
    modify_does (fun t => (restartLater_core reason wait t).1) fun _ t ht => by
      rw [(restartLater_core reason wait t).2]
      exact .block (hrun t ht)
  sleep := fun _ _ d hrun hallowed => blocksUntil hrun hallowed (sleepUntil_core d)
  await := fun _ _ key d hrun hallowed => blocksUntil hrun hallowed (waitFutex_core key d)
  signal := fun _ _ _ => signalSlot_does
  switch := fun _ _ => schedule_does hx
  deliver := fun _ _ => deliverPending_does hx

end TaskManager

/-- The deadline that a step stores for the task in slot `x` is allowed. -/
def Op.SetsOnly (D : Nat → Prop) (x : Slot) (op : Op) (m : TaskManager) : Prop :=
  match op with
  | .syscall cpu frame call =>
    m.onCpu cpu = some x → TaskManager.SetsOnly D (m.saveFrame cpu frame) x call
  | _ => True

theorem Op.setsOnly_of_forall {D : Nat → Prop} (h : ∀ d, D d) : op.SetsOnly D x m := by
  unfold Op.SetsOnly
  split
  · exact fun _ => TaskManager.setsOnly_of_forall h _
  · trivial

/-- The step sends a signal that wakes the task in slot `x`. -/
def Op.Reaches (x : Slot) (op : Op) (m : TaskManager) : Prop :=
  match op with
  | .syscall cpu frame call => ∃ thread, m.onCpu cpu = some thread ∧
    TaskManager.CallReaches x (m.saveFrame cpu frame) thread call
  | _ => False

/-- The task in a slot is current on a processor and can make a system call. -/
structure Calls (x : Slot) (cpu : Nat) (m : TaskManager) : Prop where
  current : m.onCpu cpu = some x
  live : (m.tasks x).any (fun t => t.running && !t.threadExited && !t.zombie) = true

namespace TaskManager

variable {x : Slot} {m : TaskManager} {cpu : Nat}

theorem saveFrame_eq (h : m.onCpu cpu = some x) (frame : Frame) :
    m.saveFrame cpu frame = m.modify x fun t => { t with frame := frame } := by
  unfold saveFrame
  rw [h]

/-- A task that can make a system call gets to it. -/
theorem syscallHandler_eq (h : Kernel.Calls x cpu m) (frame : Frame) (call : Call) :
    m.syscallHandler cpu frame call
      = ((m.saveFrame cpu frame).perform cpu x call).deliverPending cpu := by
  have hlive : ¬ ((m.saveFrame cpu frame).tasks x).all
      (fun t => !t.running || t.threadExited || t.zombie) = true := by
    obtain ⟨t, ht, htask⟩ := (Option.any_eq_true ..).1 h.live
    rw [saveFrame_eq h.current, modify_self, ht, map_some, all_some]
    simp only [Bool.and_eq_true, Bool.not_eq_true'] at htask
    simp only [htask.1.1, htask.1.2, htask.2]
    decide
  unfold syscallHandler
  rw [h.current]
  show (syscallLocked cpu x call (m.saveFrame cpu frame)).deliverPending cpu = _
  unfold syscallLocked
  rw [if_neg hlive]

end TaskManager

/-- The endings of processes and threads that a step may come to are in a relation. -/
def Op.Exits (P : TaskManager → TaskManager → Prop) (op : Op) (m : TaskManager) : Prop :=
  match op with
  | .syscall cpu frame _ => ∀ thread t, TaskManager.Calls (m.saveFrame cpu frame) thread t →
    (∀ status, P (m.saveFrame cpu frame) ((m.saveFrame cpu frame).sysExit cpu
      ((m.saveFrame cpu frame).processSlot thread) status)) ∧
    ∀ value, P (m.saveFrame cpu frame) ((m.saveFrame cpu frame).sysThreadExit cpu thread value)
  | .fault cpu frame status => ∀ thread, m.onCpu cpu = some thread →
    P (m.saveFrame cpu frame) ((m.saveFrame cpu frame).sysExit cpu (m.processSlot thread) status)
  | _ => True

open TaskManager in
theorem TaskManager.Handles.apply {R : Rules} {P : TaskManager → TaskManager → Prop}
    (w : Handles R x P) (htick : op ≠ .tick)
    (hsets : op.SetsOnly R.deadline x m) (hreach : op.Reaches x m → R.signals)
    (hexits : op.Exits P m) : P m (op.apply m) := by
  cases op with
  | tick => exact absurd rfl htick
  | syscall cpu frame call =>
    show P m (m.syscallHandler cpu frame call)
    unfold syscallHandler
    split
    · exact w.refl m
    rename_i thread hthread
    refine w.trans (w.trans w.saveFrame (w.syscallLocked (fun heq => ?_)
      (fun h => hreach ⟨thread, hthread, h⟩) (hexits thread))) (w.deliver _ cpu)
    subst heq
    exact hsets hthread
  | timer frame ready audio => exact w.timerHandler
  | apTimer cpu frame =>
    show P m (m.apTimerHandler cpu frame)
    unfold apTimerHandler
    split
    · exact w.refl m
    · exact w.trans (w.trans w.saveFrame (w.switch _ cpu)) (w.deliver _ cpu)
  | fault cpu frame status =>
    show P m (m.killCurrentTask cpu frame status)
    unfold killCurrentTask
    split
    · exact w.refl m
    split
    · exact w.refl m
    · exact w.trans w.saveFrame (hexits _ ‹_›)
  | network readable writable => exact w.rouse m (rouses_wakeReady readable writable)

/-- What a step other than a tick of the clock does to a task. -/
theorem Op.apply_does {R : Rules} (hx : x ≠ 0)
    (htick : op ≠ .tick) (hsets : op.SetsOnly R.deadline x m)
    (hreach : op.Reaches x m → R.signals) :
    Does R x m (op.apply m) := by
  refine (TaskManager.handles_does hx).apply htick hsets hreach ?_
  cases op with
  | syscall cpu frame call => exact fun _ _ _ =>
    ⟨fun _ => TaskManager.sysExit_does hx, fun _ => TaskManager.sysThreadExit_does hx⟩
  | fault cpu frame status => exact fun _ _ => TaskManager.sysExit_does hx
  | _ => trivial

end Felix.Kernel
