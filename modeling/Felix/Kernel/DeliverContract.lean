import Felix.Base.Runs
import Felix.Kernel.StopContract

/-!
# The delivery of signals

Signals are sent to processes, handlers are installed, and from time to time a thread
returns to user mode, where `deliver_pending` looks at the signals of its process.  A
signal with a handler should stay pending until its handler is started, and a signal that
is ignored should kill nobody.

`Becomes` says what a step does to the signals of the process in a slot: a function on the
word of pending signals, and the events other than being selected.  The steps compose, and
whether the property holds can be read off both.

There are two places where `deliver_pending` empties the word of a process.  When a signal
has no handler and kills the process, its other signals go with it.  Then another task is
selected, and `deliver_pending_after_switch` does not look at the handlers of that one at
all.  `signals_respected_iff` is the exact condition under which neither does any harm.
-/

namespace Felix.Kernel

open TaskManager Function List Option

namespace Task

/-- There is a handler for the signal. -/
def Catches (t : Task) (sig : Nat) : Prop :=
  sig ≠ sigkill ∧ sig ≠ sigstop ∧ t.handler sig ≠ 0 ∧ t.handler sig ≠ sigIgn
  deriving Decidable

/-- No signal with a handler is pending. -/
def NoneCaught (t : Task) : Prop := ∀ sig ∈ List.range' 1 31, t.Catches sig → ¬ t.Pending sig
  deriving Decidable

/-- The signal is pending, and its delivery starts a handler or kills the process. -/
def acts (t : Task) (sig : Nat) : Bool :=
  t.pendingSignals.getLsbD (sig - 1) && t.handler sig != sigIgn &&
    (t.handler sig != 0 || defaultTerminate &&& sigbit sig != 0)

/-- The first signal that is more than cleared. -/
def acting (t : Task) : Option Nat := (List.range' 1 31).find? t.acts

end Task

/-- From `t` to `t'`, with the given events: a signal with a handler was cleared only when
its handler was started, and the process was not killed by a signal that it ignores. -/
def RespectedIn (t t' : Task) (es : List Event) : Prop :=
  ∀ sig ∈ List.range' 1 31,
    (t.Catches sig → t.Pending sig → t'.Pending sig ∨ Event.started sig ∈ es) ∧
    (t.handler sig = sigIgn → Event.killed sig ∉ es)
  deriving Decidable

/-- The signals of the process in a slot are respected. -/
def RespectedAt (s : Slot) (m m' : TaskManager) : Prop :=
  ∀ t ∈ m.tasks s, t.leaderSlot = some s → ∀ t' ∈ m'.tasks s,
    RespectedIn t t' (newEvents s m m')
  deriving Decidable

/-! ## What a step does to the signals of a process -/

/-- The event is not only that the task was selected. -/
def Event.notable : Event → Bool
  | .selected _ => false
  | _ => true

/-- The word of pending signals in a slot changes, with some events. -/
structure Becomes (s : Slot) (f : BitVec 31 → BitVec 31) (log : List Event)
    (m m' : TaskManager) : Prop where
  task : ∀ t, m.tasks s = some t → ∃ t', m'.tasks s = some t' ∧
    t'.pendingSignals = f t.pendingSignals ∧ t'.signalHandlers = t.signalHandlers ∧
    t'.leaderSlot = t.leaderSlot ∧ (t.zombie = true → t'.zombie = true)
  events : ∃ es, m'.history s = es ++ m.history s ∧ es.filter Event.notable = log

/-- What `Becomes` looks at in a task, after a change of the pending signals. -/
def Task.mail (f : BitVec 31 → BitVec 31) (t : Task) :=
  (f t.pendingSignals, t.signalHandlers, t.leaderSlot, t.zombie)

namespace Becomes

variable {s slot : Slot} {f g : BitVec 31 → BitVec 31} {log log' : List Event}
  {m m' m'' : TaskManager} {h : Task → Task}

theorem refl : Becomes s id [] m m :=
  ⟨fun t ht => ⟨t, ht, rfl, rfl, rfl, id⟩, [], rfl, rfl⟩

theorem trans (h₁ : Becomes s f log m m') (h₂ : Becomes s g log' m' m'') :
    Becomes s (g ∘ f) (log' ++ log) m m'' := by
  refine ⟨fun t ht => ?_, ?_⟩
  · obtain ⟨t', ht', hpending, hhandlers, hleader, hzombie⟩ := h₁.task t ht
    obtain ⟨t'', ht'', hpending', hhandlers', hleader', hzombie'⟩ := h₂.task t' ht'
    refine ⟨t'', ht'', ?_, hhandlers'.trans hhandlers, hleader'.trans hleader,
      fun hz => hzombie' (hzombie hz)⟩
    rw [hpending', hpending]
    rfl
  · obtain ⟨es, hes, hlog⟩ := h₁.events
    obtain ⟨es', hes', hlog'⟩ := h₂.events
    refine ⟨es' ++ es, ?_, ?_⟩
    · rw [hes', hes, append_assoc]
    · rw [filter_append, hlog, hlog']

/-- The signals stay the same afterwards. -/
theorem then_same (h₁ : Becomes s f log m m') (h₂ : Becomes s id [] m' m'') :
    Becomes s f log m m'' :=
  h₁.trans h₂

/-- The signals stayed the same before. -/
theorem after_same (h₁ : Becomes s id [] m m') (h₂ : Becomes s f log m' m'') :
    Becomes s f log m m'' := by
  have h := h₁.trans h₂
  rwa [append_nil] at h

theorem of_eq (htasks : m'.tasks s = m.tasks s) (hhistory : m'.history s = m.history s) :
    Becomes s id [] m m' :=
  ⟨fun t ht => ⟨t, htasks.trans ht, rfl, rfl, rfl, id⟩, [], hhistory, rfl⟩

theorem of_map (htasks : m'.tasks s = (m.tasks s).map h) (hhistory : m'.history s = m.history s)
    (hh : ∀ t, (h t).mail id = t.mail f) : Becomes s f [] m m' := by
  refine ⟨fun t ht => ?_, [], hhistory, rfl⟩
  obtain ⟨hpending, hhandlers, hleader, hzombie⟩ : _ ∧ _ ∧ _ ∧ _ := by
    simpa only [Task.mail, Prod.mk.injEq] using hh t
  refine ⟨h t, ?_, hpending, hhandlers, hleader, hzombie.trans⟩
  rw [htasks, ht]
  rfl

theorem modify_self (hh : ∀ t, (h t).mail id = t.mail f) : Becomes s f [] m (m.modify s h) :=
  of_map (TaskManager.modify_self ..) rfl hh

theorem modify_of_ne (hne : s ≠ slot) : Becomes s id [] m (m.modify slot h) :=
  of_eq (TaskManager.modify_of_ne hne) rfl

theorem modify (hh : ∀ t, (h t).mail id = t.mail id) : Becomes s id [] m (m.modify slot h) := by
  by_cases hne : s = slot
  · subst hne
    exact modify_self hh
  · exact modify_of_ne hne

theorem mapTasks (hh : ∀ t, (h t).mail id = t.mail id) : Becomes s id [] m (m.mapTasks h) :=
  of_map rfl rfl hh

variable {e : Event} {cpu sig : Nat}

theorem record_self (he : e.notable = true) : Becomes s id [e] m (m.record s e) := by
  refine ⟨fun t ht => ⟨t, ht, rfl, rfl, rfl, id⟩, [e], update_self .., ?_⟩
  rw [filter_cons_of_pos he, filter_nil]

theorem record_of_ne (hne : s ≠ slot) : Becomes s id [] m (m.record slot e) :=
  of_eq rfl (update_of_ne hne ..)

theorem startHandler_other {thread : Slot} {handler : UInt32} (hne : s ≠ slot) :
    Becomes s id [] m (m.startHandler thread slot sig handler) := by
  have hcleared : Becomes s id [] m (m.modify slot (Task.clearSignal · sig)) := modify_of_ne hne
  exact (hcleared.then_same (record_of_ne hne)).then_same (modify fun _ => rfl)

theorem wakeExpiredTimers {now : Nat} : Becomes s id [] m (m.wakeExpiredTimers now) := by
  refine mapTasks fun t => ?_
  unfold Task.expire
  split <;> first | rfl | (split <;> rfl)

theorem wakeWaiters {reason : WaitReason} : Becomes s id [] m (m.wakeWaiters reason) := by
  refine mapTasks fun t => ?_
  unfold Task.wakeFor
  split <;> rfl

theorem reparentChildrenOf {pid : Int} : Becomes s id [] m (m.reparentChildrenOf pid) := by
  unfold TaskManager.reparentChildrenOf
  split
  · exact refl
  · refine mapTasks fun t => ?_
    split <;> rfl

theorem claims {next : Slot} (hclaims : TaskManager.Claims m next m') : Becomes s id [] m m' := by
  refine ⟨fun t ht => ⟨t, ?_, rfl, rfl, rfl, id⟩, ?_⟩
  · rw [hclaims.tasks, ht]
  · rcases hclaims.found with ⟨_, hsame⟩ | ⟨_, _, hnew⟩
    · exact ⟨[], congrFun hsame s, rfl⟩
    · by_cases heq : s = next
      · subst heq
        exact ⟨[.selected m.now], (congrFun hnew s).trans (update_self ..), rfl⟩
      · exact ⟨[], (congrFun hnew s).trans (update_of_ne heq ..), rfl⟩

theorem schedule : Becomes s id [] m (m.schedule cpu) :=
  Walk.schedule (P := Becomes s id []) {
    trans := then_same
    frame := fun h h' _ => of_eq (congrFun h s) (congrFun h' s)
    enter := fun _ h => (claims h).then_same (modify fun _ => rfl)
    expire := fun _ => wakeExpiredTimers
    wake := fun _ _ _ => wakeWaiters
    putBack := fun m slot => by
      refine modify fun t => ?_
      unfold TaskManager.putBack
      split <;> rfl } m cpu

/-- Only the threads of a process are changed. -/
theorem onThreads_other {leader : Slot} {test : Task → Bool}
    (hother : ∀ t, m.tasks s = some t → t.leaderSlot ≠ some leader) :
    Becomes s id [] m (m.onThreads leader test h e) := by
  have hnot : ∀ t, m.tasks s = some t → ¬ inProcess leader test t = true := by
    intro t ht hin
    simp only [inProcess, Bool.and_eq_true, decide_eq_true_eq] at hin
    exact hother t ht hin.1
  refine ⟨fun t ht => ⟨t, ?_, rfl, rfl, rfl, id⟩, [], ?_, rfl⟩
  · show (m.tasks s).map _ = _
    rw [ht, map_some, if_neg (hnot t ht)]
  · refine if_neg fun hany => ?_
    obtain ⟨t, ht, hin⟩ := (Option.any_eq_true ..).1 hany
    exact hnot t ht hin

theorem forceKill_other (hne : s ≠ m.processSlot slot)
    (hother : ∀ t, m.tasks s = some t → t.leaderSlot ≠ some (m.processSlot slot)) :
    Becomes s id [] m (m.forceKill slot sig).2 := by
  unfold forceKill
  split
  · exact refl
  dsimp only
  generalize m.processSlot slot = leader at hne hother
  split
  · exact refl
  split
  · exact refl
  have hthreads : Becomes s id [] m (m.onThreads leader (fun _ => true)
      (Task.kill (if sig = 0 then sigkill else sig))
      (.killed (if sig = 0 then sigkill else sig))) := onThreads_other hother
  have hmarked := hthreads.then_same (modify_of_ne (h := fun t => { t with zombie := true }) hne)
  exact ((hmarked.then_same reparentChildrenOf).then_same wakeWaiters).then_same wakeWaiters

end Becomes

/-! ## Processes -/

/-- The process that the task in a slot leads has not ended. -/
structure Alive (m : TaskManager) (p : Slot) (t : Task) : Prop where
  slot : p ≠ 0
  task : m.tasks p = some t
  leader : t.leaderSlot = some p
  zombie : t.zombie = false

/-- Every thread has a process, and the idle task has none but its own. -/
def Grouped (m : TaskManager) : Prop :=
  ∀ s, s ≠ 0 → ∀ t ∈ m.tasks s, ∃ l, l ≠ 0 ∧ t.leaderSlot = some l ∧
    (m.tasks l).map Task.leaderSlot = some (some l)

theorem Does.leaders {R : Rules} {x : Slot} {m m' : TaskManager} (h : Does R x m m') :
    (m'.tasks x).map Task.leaderSlot = (m.tasks x).map Task.leaderSlot := by
  cases ht : m.tasks x with
  | none => rw [h.vacant ht]
  | some t =>
    obtain ⟨_, t', ht', hleader, _⟩ := h.task t ht
    rw [ht', map_some, map_some, hleader]

namespace Grouped

variable {R : Rules} {m m' : TaskManager} {thread : Slot} {t : Task}

theorem does (h : Grouped m) (hdoes : ∀ x, x ≠ 0 → Does R x m m') : Grouped m' := by
  intro s hs t' ht'
  have hleaders := (hdoes s hs).leaders
  rw [Option.mem_def.1 ht'] at hleaders
  obtain ⟨t, ht, hleader⟩ := map_eq_some_iff.1 hleaders.symm
  obtain ⟨l, hl, heq, hself⟩ := h s hs t ht
  refine ⟨l, hl, hleader.symm.trans heq, ?_⟩
  rw [(hdoes l hl).leaders]
  exact hself

theorem alive (h : Grouped m) (hthread : thread ≠ 0)
    (ht : m.tasks (m.processSlot thread) = some t) (hzombie : t.zombie = false) :
    Alive m (m.processSlot thread) t := by
  cases hself : m.tasks thread with
  | none =>
    have hslot : m.processSlot thread = thread := by
      unfold processSlot
      rw [hself]
    rw [hslot, hself] at ht
    cases ht
  | some t₀ =>
    obtain ⟨l, hl, hleader, hleads⟩ := h thread hthread t₀ hself
    have hslot : m.processSlot thread = l := by
      unfold processSlot
      rw [hself]
      show t₀.leaderSlot.getD thread = l
      rw [hleader]
      rfl
    rw [hslot] at ht ⊢
    rw [ht] at hleads
    exact ⟨hl, ht, Option.some.inj hleads, hzombie⟩

end Grouped

/-! ## Words that are emptied -/

/-- The process of a slot loses all its signals, without a handler. -/
structure Empties (p : Slot) (t : Task) (log : List Event) (m m' : TaskManager) : Prop where
  alive : Alive m p t
  self : Becomes p (fun _ => 0) log m m'
  others : ∀ s t', s ≠ p → m.tasks s = some t' → t'.leaderSlot = some s → Becomes s id [] m m'
  unstarted : ∀ sig, Event.started sig ∉ log

/-- A process that loses all its signals misses none, and is not killed by one that it
ignores. -/
def Unharmed (t : Task) (log : List Event) : Prop :=
  t.NoneCaught ∧ ∀ sig ∈ List.range' 1 31, Event.killed sig ∈ log → t.handler sig ≠ sigIgn

theorem Empties.schedule {p : Slot} {t : Task} {log : List Event} {m m' : TaskManager}
    (h : Empties p t log m m') (cpu : Nat) : Empties p t log m (m'.schedule cpu) :=
  ⟨h.alive, h.self.then_same .schedule, fun s t' hne ht' hleader =>
    (h.others s t' hne ht' hleader).then_same .schedule, h.unstarted⟩

section

variable {m m' : TaskManager} {p : Slot} {t : Task} {k : Nat}

theorem Alive.processSlot (h : Alive m p t) : m.processSlot p = p := by
  unfold TaskManager.processSlot
  rw [h.task]
  show t.leaderSlot.getD p = p
  rw [h.leader]
  rfl

/-- The first half of `force_kill`, for a process that is alive. -/
def markDead (p : Slot) (k : Nat) (m : TaskManager) : TaskManager :=
  (m.onThreads p (fun _ => true) (Task.kill k) (.killed k)).modify p fun t =>
    { t with zombie := true }

section

variable (h : Alive m p t)
include h

theorem Alive.forceKill_eq (hk : k ≠ 0) : (m.forceKill p k).2
      = (((markDead p k m).reparentChildrenOf t.pid).wakeWaiters .child).wakeWaiters .thread := by
  unfold forceKill
  rw [if_neg h.slot]
  dsimp only
  rw [h.processSlot, h.task]
  dsimp only
  rw [if_neg (by rw [h.zombie]; decide), if_neg hk]
  rfl

theorem Alive.markDead_task (k : Nat) :
    (markDead p k m).tasks p = some { t.kill k with zombie := true } := by
  have hin : inProcess p (fun _ => true) t = true := by
    simp only [inProcess, h.leader, decide_true, Bool.and_true]
  unfold markDead
  rw [modify_self]
  show ((m.tasks p).map _).map _ = _
  rw [h.task, map_some, if_pos hin]
  rfl

theorem Alive.markDead_history (k : Nat) :
    (markDead p k m).history p = .killed k :: m.history p := by
  refine if_pos ?_
  rw [h.task]
  simp only [any_some, inProcess, h.leader, decide_true, Bool.and_true]

/-- The signals of a process after it was marked. -/
theorem Alive.forceKill_same (hk : k ≠ 0) {s : Slot} :
    Becomes s id [] (markDead p k m) (m.forceKill p k).2 := by
  rw [h.forceKill_eq hk]
  exact (Becomes.reparentChildrenOf.then_same .wakeWaiters).then_same .wakeWaiters

theorem Alive.forceKill (hk : k ≠ 0) : Empties p t [.killed k] m (m.forceKill p k).2 := by
  have hmark : Becomes p (fun _ => 0) [.killed k] m (markDead p k m) := by
    refine ⟨fun t₀ ht₀ => ?_, [.killed k], h.markDead_history k, rfl⟩
    rw [h.task] at ht₀
    cases ht₀
    exact ⟨_, h.markDead_task k, rfl, rfl, rfl, fun _ => rfl⟩
  refine ⟨h, hmark.then_same (h.forceKill_same hk), fun s t₁ hne ht₁ hleader => ?_,
    fun sig hmem => (nomatch mem_singleton.1 hmem)⟩
  refine .forceKill_other (by rw [h.processSlot]; exact hne) fun t₂ ht₂ => ?_
  rw [ht₁] at ht₂
  cases ht₂
  rw [hleader, h.processSlot]
  exact fun heq => hne (Option.some.inj heq)

/-- A process that was killed stays dead when another task is selected. -/
theorem Alive.forceKill_zombie (hk : k ≠ 0) (cpu : Nat) :
    ∃ t', ((m.forceKill p k).2.schedule cpu).tasks p = some t' ∧ t'.zombie = true := by
  have hsame : Becomes p id [] (markDead p k m) ((m.forceKill p k).2.schedule cpu) :=
    (h.forceKill_same hk).then_same .schedule
  obtain ⟨t', ht', _, _, _, hzombie⟩ := hsame.task _ (h.markDead_task k)
  exact ⟨t', ht', hzombie rfl⟩

end

/-- Some signals are cleared. -/
def Task.keepOnly (mask : BitVec 31) (t : Task) : Task :=
  { t with pendingSignals := t.pendingSignals &&& mask }

theorem Alive.keepOnly (h : Alive m p t) (mask : BitVec 31) :
    Alive (m.modify p (Task.keepOnly mask)) p (t.keepOnly mask) := by
  refine ⟨h.slot, ?_, h.leader, h.zombie⟩
  rw [modify_self, h.task]
  rfl

/-- A process that is killed loses its signals, also those that were cleared before. -/
theorem Alive.markDead_keepOnly (h : Alive m p t) (mask : BitVec 31) :
    markDead p k (m.modify p (Task.keepOnly mask)) = markDead p k m := by
  have htasks :
      (markDead p k (m.modify p (Task.keepOnly mask))).tasks = (markDead p k m).tasks := by
    funext s
    by_cases hs : s = p
    · subst hs
      rw [(h.keepOnly mask).markDead_task, h.markDead_task]
      rfl
    unfold markDead
    rw [modify_of_ne hs, modify_of_ne hs]
    show ((m.modify p _).tasks s).map _ = (m.tasks s).map _
    rw [modify_of_ne hs]
  have hhistory : (markDead p k (m.modify p (Task.keepOnly mask))).history
      = (markDead p k m).history := by
    funext s
    by_cases hs : s = p
    · subst hs
      rw [(h.keepOnly mask).markDead_history, h.markDead_history]
      rfl
    show (if ((m.modify p _).tasks s).any _ = true then _ else _) = _
    rw [modify_of_ne hs]
    rfl
  show { markDead p k m with
    tasks := (markDead p k (m.modify p (Task.keepOnly mask))).tasks
    history := (markDead p k (m.modify p (Task.keepOnly mask))).history } = markDead p k m
  rw [htasks, hhistory]

theorem Alive.forceKill_keepOnly (h : Alive m p t) (hk : k ≠ 0) (mask : BitVec 31) :
    ((m.modify p (Task.keepOnly mask)).forceKill p k).2 = (m.forceKill p k).2 := by
  rw [(h.keepOnly mask).forceKill_eq hk, h.forceKill_eq hk, h.markDead_keepOnly mask]
  rfl

end

/-! ## When the signals are respected -/

section

variable {s p : Slot} {f : BitVec 31 → BitVec 31} {log : List Event} {m m' : TaskManager}
  {t t' : Task}

theorem mem_of_notable {es : List Event} {e : Event} (hlog : es.filter Event.notable = log)
    (he : e.notable = true) : e ∈ es ↔ e ∈ log := by
  rw [← hlog, mem_filter]
  exact ⟨fun h => ⟨h, he⟩, fun h => h.1⟩

/-- The property can be read off what becomes of a process. -/
theorem Becomes.respectedAt_iff (h : Becomes s f log m m') (ht : m.tasks s = some t)
    (hleader : t.leaderSlot = some s) :
    RespectedAt s m m' ↔ ∀ sig ∈ List.range' 1 31,
      (t.Catches sig → t.Pending sig → (f t.pendingSignals).getLsbD (sig - 1) = true ∨
        Event.started sig ∈ log) ∧
      (t.handler sig = sigIgn → Event.killed sig ∉ log) := by
  obtain ⟨t', ht', hpending, _⟩ := h.task t ht
  obtain ⟨es, hes, hlog⟩ := h.events
  unfold RespectedAt RespectedIn
  rw [ht, ht', newEvents_eq hes]
  simp only [mem_some_iff, forall_eq', hleader, forall_const, Task.Pending, hpending,
    mem_of_notable hlog (e := .started _) rfl, mem_of_notable hlog (e := .killed _) rfl]

/-- Nothing happens to the signals of a slot. -/
theorem Becomes.respectedAt (h : Becomes s id [] m m') : RespectedAt s m m' := by
  intro t ht hleader t' ht'
  refine (h.respectedAt_iff ht hleader).2 (fun sig _ => ?_) t ht hleader t' ht'
  exact ⟨fun _ hpending => .inl hpending, fun _ => not_mem_nil⟩

theorem Becomes.respectedAt_empty_iff (h : Becomes s (fun _ => 0) log m m')
    (ht : m.tasks s = some t) (hleader : t.leaderSlot = some s)
    (hlog : ∀ sig, Event.started sig ∉ log) : RespectedAt s m m' ↔ Unharmed t log := by
  rw [h.respectedAt_iff ht hleader]
  constructor
  · intro hall
    refine ⟨fun sig hsig hcatches hpending => ?_, fun sig hsig hkilled hign =>
      (hall sig hsig).2 hign hkilled⟩
    rcases (hall sig hsig).1 hcatches hpending with hzero | hstarted
    · exact absurd (hzero.symm.trans BitVec.getLsbD_zero) (by decide)
    · exact hlog sig hstarted
  · intro hfine sig hsig
    exact ⟨fun hcatches hpending => absurd hpending (hfine.1 sig hsig hcatches),
      fun hign hkilled => hfine.2 sig hsig hkilled hign⟩

/-- One process loses its signals. -/
theorem Empties.respected_iff (h : Empties p t log m m') :
    (∀ s, RespectedAt s m m') ↔ Unharmed t log := by
  rw [← h.self.respectedAt_empty_iff h.alive.task h.alive.leader h.unstarted]
  refine ⟨fun hall => hall p, fun hp s => ?_⟩
  by_cases hs : s = p
  · exact hs ▸ hp
  · intro t₁ ht₁ hleader
    exact (h.others s t₁ hs ht₁ hleader).respectedAt t₁ ht₁ hleader

theorem unharmed_congr (hpending : t'.pendingSignals = t.pendingSignals)
    (hhandlers : t'.signalHandlers = t.signalHandlers) : Unharmed t' log ↔ Unharmed t log := by
  unfold Unharmed Task.NoneCaught Task.Catches Task.Pending Task.handler
  rw [hpending, hhandlers]

/-- Two processes lose their signals, one after the other. -/
theorem Empties.respected_two_iff {q : Slot} {log' : List Event} {m'' : TaskManager}
    (h : Empties p t log m m') (h' : Empties q t' log' m' m'') (hne : q ≠ p)
    (hbefore : (m'.tasks q).map Task.leaderSlot = (m.tasks q).map Task.leaderSlot) :
    (∀ s, RespectedAt s m m'') ↔ Unharmed t log ∧ Unharmed t' log' := by
  -- the second process before the first step
  rw [h'.alive.task, map_some, h'.alive.leader] at hbefore
  obtain ⟨t₀, ht₀, hleader₀⟩ := map_eq_some_iff.1 hbefore.symm
  have hsame := h.others q t₀ hne ht₀ hleader₀
  obtain ⟨t₁, ht₁, hpending, hhandlers, _⟩ := hsame.task t₀ ht₀
  rw [h'.alive.task] at ht₁
  cases ht₁
  have hq : RespectedAt q m m'' ↔ Unharmed t' log' := by
    rw [(hsame.after_same h'.self).respectedAt_empty_iff ht₀ hleader₀ h'.unstarted]
    exact (unharmed_congr hpending hhandlers).symm
  -- the first process after the second step
  obtain ⟨t₂, ht₂, _, _, hleader₂, _⟩ := h.self.task t h.alive.task
  have hp : RespectedAt p m m'' ↔ Unharmed t log :=
    (h.self.then_same (h'.others p t₂ (Ne.symm hne) ht₂ (hleader₂.trans h.alive.leader))
      ).respectedAt_empty_iff h.alive.task h.alive.leader h.unstarted
  rw [← hp, ← hq]
  refine ⟨fun hall => ⟨hall p, hall q⟩, fun hboth s => ?_⟩
  by_cases hsp : s = p
  · exact hsp ▸ hboth.1
  by_cases hsq : s = q
  · exact hsq ▸ hboth.2
  intro t₃ ht₃ hleader₃
  have hfirst := h.others s t₃ hsp ht₃ hleader₃
  obtain ⟨t₄, ht₄, _, _, hleader₄, _⟩ := hfirst.task t₃ ht₃
  have hsecond := h'.others s t₄ hsq ht₄ (hleader₄.trans hleader₃)
  exact (hfirst.then_same hsecond).respectedAt t₃ ht₃ hleader₃

end

/-! ## `deliver_pending_after_switch` -/

section

variable {m : TaskManager} {cpu : Nat} {thread slot : Slot} {t : Task} {w : BitVec 31}

/-- The process of the task that was selected has no signal with a handler, and its first
signal that kills by default is not ignored. -/
def SwitchOk (cpu : Nat) (m : TaskManager) : Prop :=
  ∀ thread ∈ m.onCpu cpu, thread ≠ 0 → ∀ t ∈ m.tasks (m.processSlot thread),
    t.running = true → t.zombie = false →
      t.NoneCaught ∧ ∀ k ∈ lowestSig (t.pendingSignals &&& defaultTerminate), t.handler k ≠ sigIgn
  deriving Decidable

theorem mem_of_lowestSig {k : Nat} (h : lowestSig w = some k) : k ∈ List.range' 1 31 :=
  mem_of_find?_eq_some h

theorem exists_lowestSig (h : w ≠ 0) : ∃ k, lowestSig w = some k := by
  cases hlow : lowestSig w with
  | some k => exact ⟨k, rfl⟩
  | none =>
    refine absurd (BitVec.eq_of_getLsbD_eq fun i hi => ?_) h
    have hbit := find?_eq_none.1 hlow (i + 1) (mem_range'_1.2 ⟨by omega, by omega⟩)
    rw [Nat.add_sub_cancel] at hbit
    rw [Bool.eq_false_of_not_eq_true hbit]
    exact BitVec.getLsbD_zero.symm

theorem deliverable_eq_some {pending : BitVec 31}
    (h : m.deliverable slot = some pending) : ∃ t, m.tasks slot = some t ∧
      pending = t.pendingSignals ∧ t.running = true ∧ t.zombie = false := by
  obtain ⟨t, ht, heq⟩ := map_eq_some_iff.1 h
  obtain ⟨htask, htest⟩ := filter_eq_some_iff.1 ht
  simp only [Bool.and_eq_true, Bool.not_eq_true'] at htest
  exact ⟨t, htask, heq.symm, htest.1.2, htest.2⟩

theorem deliverable_eq_none (h : m.deliverable slot = none)
    (ht : m.tasks slot = some t) (hrunning : t.running = true) (hzombie : t.zombie = false) :
    t.pendingSignals = 0 := by
  unfold deliverable at h
  by_contra hpending
  have htest : (decide (t.pendingSignals ≠ 0) && t.running && !t.zombie) = true := by
    rw [hrunning, hzombie, decide_eq_true hpending]
    rfl
  rw [ht, filter_some, if_pos htest] at h
  cases h

/-- Without pending signals there is none with a handler. -/
theorem noneCaught_of_zero (h : t.pendingSignals = 0) : t.NoneCaught := by
  intro sig _ _ hpending
  unfold Task.Pending at hpending
  rw [h] at hpending
  exact absurd (hpending.symm.trans BitVec.getLsbD_zero) (by decide)

theorem switchOk_iff (hcpu : m.onCpu cpu = some thread) (hthread : thread ≠ 0)
    (ht : m.tasks (m.processSlot thread) = some t) (hrunning : t.running = true)
    (hzombie : t.zombie = false) : SwitchOk cpu m ↔
      t.NoneCaught ∧
        ∀ k ∈ lowestSig (t.pendingSignals &&& defaultTerminate), t.handler k ≠ sigIgn := by
  unfold SwitchOk
  rw [hcpu]
  simp only [mem_some_iff, forall_eq', ht, hrunning, hzombie, forall_const]
  exact ⟨fun h => h hthread, fun h _ => h⟩

/-- The process of the task that was selected loses all its signals, or has none. -/
theorem deliverPendingAfterSwitch_cases (hm : Grouped m) (cpu : Nat) :
    (m.deliverPendingAfterSwitch cpu = m ∧ SwitchOk cpu m) ∨
    ∃ q t log, Empties q t log m (m.deliverPendingAfterSwitch cpu) ∧
      (SwitchOk cpu m ↔ Unharmed t log) := by
  unfold deliverPendingAfterSwitch
  split
  · rename_i hcpu
    refine .inl ⟨rfl, fun thread hthread => ?_⟩
    rw [hcpu] at hthread
    cases hthread
  rename_i thread hcpu
  split
  · rename_i hidle
    refine .inl ⟨rfl, fun thread' hthread' hne => ?_⟩
    rw [hcpu] at hthread'
    cases hthread'
    exact absurd hidle hne
  rename_i hthread
  dsimp only
  split
  · rename_i hnone
    refine .inl ⟨rfl, fun thread' hthread' _ t ht hrunning hzombie => ?_⟩
    rw [hcpu] at hthread'
    cases hthread'
    have hzero := deliverable_eq_none hnone ht hrunning hzombie
    refine ⟨noneCaught_of_zero hzero, fun k hk => ?_⟩
    rw [hzero, show (0 : BitVec 31) &&& defaultTerminate = 0 by decide] at hk
    cases hk
  rename_i pending hsome
  obtain ⟨t, ht, rfl, hrunning, hzombie⟩ := deliverable_eq_some hsome
  have halive := hm.alive hthread ht hzombie
  have hok := switchOk_iff hcpu hthread ht hrunning hzombie
  right
  split
  · rename_i hfatal
    obtain ⟨k, hk⟩ := exists_lowestSig hfatal
    have hmem := mem_of_lowestSig hk
    have hpos := (mem_range'_1.1 hmem).1
    refine ⟨m.processSlot thread, t, [.killed k], ?_, hok.trans ?_⟩
    · rw [hk]
      exact (halive.forceKill (by omega)).schedule cpu
    · rw [hk]
      refine and_congr Iff.rfl ⟨fun hnot sig _ hkilled => ?_, fun hall k' hk' => ?_⟩
      · cases mem_singleton.1 hkilled
        exact hnot k rfl
      · cases hk'
        exact hall k hmem mem_cons_self
  · rename_i hharmless
    have hzero : t.pendingSignals &&& defaultTerminate = 0 := Decidable.not_not.1 hharmless
    refine ⟨m.processSlot thread, t, [], ⟨halive, ?_, fun s t' hne _ _ => ?_, fun sig =>
      not_mem_nil⟩, hok.trans ?_⟩
    · exact .modify_self fun _ => rfl
    · exact .modify_of_ne hne
    · rw [hzero]
      refine and_congr Iff.rfl ⟨fun _ sig _ hmem => ?_, fun _ k hk => ?_⟩
      · cases hmem
      · cases hk

end

/-! ## `deliver_pending` -/

section

variable {m : TaskManager} {cpu sig : Nat} {thread p : Slot} {t : Task} {mask : BitVec 31}

theorem TaskManager.modify_modify (f g : Task → Task) :
    (m.modify p f).modify p g = m.modify p (g ∘ f) := by
  unfold modify
  dsimp only
  rw [update_idem, update_self, Option.map_map]

theorem TaskManager.modify_keepOnly_allOnes :
    m.modify p (Task.keepOnly (BitVec.allOnes 31)) = m := by
  have hid : Task.keepOnly (BitVec.allOnes 31) = id := by
    funext t
    unfold Task.keepOnly
    rw [BitVec.and_allOnes]
    rfl
  unfold modify
  rw [hid, Option.map_id, id, update_eq_self]

/-- What the loop does when it comes to a signal that is more than cleared. -/
def actOn (cpu : Nat) (thread p : Slot) (t : Task) (m : TaskManager) : Option Nat → TaskManager
  | none => m
  | some k =>
    if t.handler k ≠ 0 then m.startHandler thread p k (t.handler k)
    else ((m.forceKill p k).2.schedule cpu).deliverPendingAfterSwitch cpu

/-- The signals of the mask include all that have a handler. -/
def KeepsCaught (t : Task) (mask : BitVec 31) : Prop :=
  ∀ sig ∈ List.range' 1 31, t.Catches sig → mask.getLsbD (sig - 1) = true

theorem keepsCaught_allOnes : KeepsCaught t (BitVec.allOnes 31) := by
  intro sig hsig _
  have hrange := mem_range'_1.1 hsig
  rw [BitVec.getLsbD_allOnes]
  exact decide_eq_true (by omega)

theorem getLsbD_not_sigbit {sig' : Nat} (hsig : sig ∈ List.range' 1 31)
    (hsig' : sig' ∈ List.range' 1 31) (hne : sig' ≠ sig) :
    (~~~sigbit sig).getLsbD (sig' - 1) = true := by
  have hrange := mem_range'_1.1 hsig
  have hrange' := mem_range'_1.1 hsig'
  unfold sigbit
  rw [if_neg (by omega), BitVec.getLsbD_not, BitVec.getLsbD_twoPow]
  simp only [Bool.and_eq_true, decide_eq_true_eq, Bool.not_eq_true', Bool.and_eq_false_imp,
    decide_eq_false_iff_not]
  omega

theorem KeepsCaught.clear (h : KeepsCaught t mask)
    (hsig : sig ∈ List.range' 1 31) (hnot : ¬ t.Catches sig) :
    KeepsCaught t (~~~sigbit sig &&& mask) := by
  intro sig' hsig' hcatches
  rw [BitVec.getLsbD_and, h sig' hsig' hcatches, Bool.and_true]
  exact getLsbD_not_sigbit hsig hsig' fun heq => hnot (heq ▸ hcatches)

/-- What is done with a signal.  It is skipped if it is not pending; if it is, its delivery acts
or clears it. -/
theorem Task.onSignal {α : Type} (t : Task) (sig : Nat) (skip clear start kill : α) :
    (if t.pendingSignals.getLsbD (sig - 1) = false then skip
      else if t.handler sig = sigIgn then clear
      else if t.handler sig ≠ 0 then start
      else if defaultTerminate &&& sigbit sig ≠ 0 then kill else clear)
    = if t.acts sig = true then if t.handler sig ≠ 0 then start else kill
      else if t.pendingSignals.getLsbD (sig - 1) = false then skip else clear := by
  unfold Task.acts
  split_ifs <;> simp_all

theorem handlerOf_eq (ht : m.tasks p = some t) (sig : Nat) : m.handlerOf p sig = t.handler sig := by
  rw [handlerOf, ht]
  rfl

theorem handlerOf_clear (sig sig' : Nat) :
    (m.modify p (Task.clearSignal · sig)).handlerOf p sig' = m.handlerOf p sig' := by
  unfold handlerOf
  rw [modify_self, Option.map_map]
  rfl

/-- The loop clears signals without a handler until it comes to one that acts. -/
theorem deliverSignals_eq (cpu : Nat) (thread : Slot) {sigs : List Nat}
    (hsigs : ∀ sig ∈ sigs, sig ∈ List.range' 1 31)
    (hhandlers : ∀ sig, m.handlerOf p sig = t.handler sig) :
    ∃ mask, KeepsCaught t mask ∧ m.deliverSignals cpu thread p t.pendingSignals sigs
      = actOn cpu thread p t (m.modify p (Task.keepOnly mask)) (sigs.find? t.acts) := by
  induction sigs generalizing m with
  | nil =>
    refine ⟨_, keepsCaught_allOnes, ?_⟩
    rw [modify_keepOnly_allOnes]
    rfl
  | cons sig sigs ih =>
    obtain ⟨hsig, hrest⟩ := forall_mem_cons.1 hsigs
    unfold deliverSignals
    rw [hhandlers sig, t.onSignal]
    by_cases hacts : t.acts sig = true
    · refine ⟨_, keepsCaught_allOnes, ?_⟩
      rw [if_pos hacts, modify_keepOnly_allOnes, find?_cons_of_pos hacts]
      rfl
    rw [if_neg hacts, find?_cons_of_neg hacts]
    split
    · exact ih hrest hhandlers
    rename_i hbit
    obtain ⟨mask, hmask, heq⟩ := ih hrest
      fun sig' => (handlerOf_clear sig sig').trans (hhandlers sig')
    refine ⟨~~~sigbit sig &&& mask, hmask.clear hsig fun hcatches => hacts ?_, ?_⟩
    · simp only [Task.acts, hbit, hcatches.2.2, bne_iff_ne, ne_eq, not_false_eq_true,
        Bool.and_eq_true, Bool.or_eq_true, true_or, and_self]
    · rw [heq, modify_modify]
      congr 2
      funext t₀
      unfold Task.keepOnly Task.clearSignal Function.comp
      dsimp only
      rw [BitVec.and_assoc]

/-- If the signals of the process that returns to user mode come to one that kills it, then
it has no other signal with a handler, and nothing goes wrong with the signals of the
process that is selected next. -/
def DeliverOk (cpu : Nat) (m : TaskManager) : Prop :=
  ∀ thread ∈ m.onCpu cpu, m.inUserMode thread = true → ∀ t ∈ m.tasks (m.processSlot thread),
    t.running = true → t.zombie = false → ∀ k ∈ t.acting, t.handler k = 0 →
      t.NoneCaught ∧ SwitchOk cpu ((m.forceKill (m.processSlot thread) k).2.schedule cpu)
  deriving Decidable

theorem deliverOk_iff (hcpu : m.onCpu cpu = some thread) (huser : m.inUserMode thread = true)
    (ht : m.tasks (m.processSlot thread) = some t) (hrunning : t.running = true)
    (hzombie : t.zombie = false) : DeliverOk cpu m ↔ ∀ k ∈ t.acting, t.handler k = 0 →
      t.NoneCaught ∧ SwitchOk cpu ((m.forceKill (m.processSlot thread) k).2.schedule cpu) := by
  unfold DeliverOk
  rw [hcpu]
  simp only [mem_some_iff, forall_eq', huser, ht, hrunning, hzombie, forall_const]

/-- Signals without a handler are cleared. -/
theorem respectedAt_keepOnly (ht : m.tasks p = some t)
    (hleader : t.leaderSlot = some p) (hmask : KeepsCaught t mask) (s : Slot) :
    RespectedAt s m (m.modify p (Task.keepOnly mask)) := by
  by_cases hs : s = p
  · subst hs
    have hbecomes : Becomes s (· &&& mask) [] m (m.modify s (Task.keepOnly mask)) :=
      .modify_self fun _ => rfl
    refine (hbecomes.respectedAt_iff ht hleader).2 fun sig hsig =>
      ⟨fun hcatches hpending => .inl ?_,
      fun _ => not_mem_nil⟩
    rw [BitVec.getLsbD_and, hmask sig hsig hcatches, Bool.and_true]
    exact hpending
  · exact (Becomes.modify_of_ne hs).respectedAt

/-- The same, and a handler is started. -/
theorem respectedAt_startHandler {k : Nat} {handler : UInt32}
    (ht : m.tasks p = some t) (hleader : t.leaderSlot = some p) (hmask : KeepsCaught t mask)
    (hk : k ∈ List.range' 1 31) (s : Slot) :
    RespectedAt s m ((m.modify p (Task.keepOnly mask)).startHandler thread p k handler) := by
  by_cases hs : s = p
  · subst hs
    have hmasked : Becomes s (· &&& mask) [] m (m.modify s (Task.keepOnly mask)) :=
      .modify_self fun _ => rfl
    have hcleared : Becomes s (· &&& ~~~sigbit k) [] (m.modify s (Task.keepOnly mask))
        ((m.modify s (Task.keepOnly mask)).modify s (Task.clearSignal · k)) :=
      .modify_self fun _ => rfl
    have hrecorded := (hmasked.trans hcleared).trans (.record_self (e := .started k) rfl)
    have hframe : ∀ m' : TaskManager, Becomes s id [] m' (m'.modify thread fun t =>
        { t with frame := { t.frame with esp := t.frame.esp - 8, eip := handler } }) :=
      fun _ => .modify fun _ => rfl
    have hstarted := hrecorded.then_same (hframe _)
    refine (hstarted.respectedAt_iff ht hleader).2 fun sig hsig => ⟨fun hcatches hpending => ?_,
      fun _ hmem => (nomatch mem_singleton.1 hmem)⟩
    by_cases heq : sig = k
    · exact .inr (heq ▸ mem_cons_self)
    refine .inl ?_
    show (t.pendingSignals &&& mask &&& ~~~sigbit k).getLsbD (sig - 1) = true
    rw [BitVec.getLsbD_and, BitVec.getLsbD_and, hmask sig hsig hcatches,
      getLsbD_not_sigbit hk hsig heq, Bool.and_true, Bool.and_true]
    exact hpending
  · have hother : Becomes s id [] m (m.modify p (Task.keepOnly mask)) := .modify_of_ne hs
    exact (hother.then_same (.startHandler_other hs)).respectedAt

theorem acting_eq_none_of_zero (h : t.pendingSignals = 0) : t.acting = none := by
  refine find?_eq_none.2 fun sig _ hacts => ?_
  unfold Task.acts at hacts
  rw [h] at hacts
  simp at hacts

/-- What `deliver_pending` does for a process that can take signals; for others it does
nothing. -/
theorem deliverPending_eq (hm : Grouped m) (cpu : Nat) :
    (∃ thread t mask, m.onCpu cpu = some thread ∧ m.inUserMode thread = true ∧
      Alive m (m.processSlot thread) t ∧ t.running = true ∧ KeepsCaught t mask ∧
      m.deliverPending cpu = actOn cpu thread (m.processSlot thread) t
        (m.modify (m.processSlot thread) (Task.keepOnly mask)) t.acting) ∨
    (m.deliverPending cpu = m ∧ ∀ thread ∈ m.onCpu cpu, m.inUserMode thread = true →
      ∀ t ∈ m.tasks (m.processSlot thread), t.running = true → t.zombie = false →
        t.acting = none) := by
  unfold deliverPending
  split
  · rename_i hcpu
    refine .inr ⟨rfl, fun thread hthread => ?_⟩
    rw [hcpu] at hthread
    cases hthread
  rename_i thread hcpu
  split
  · rename_i hkernel
    refine .inr ⟨rfl, fun thread' hthread' huser => ?_⟩
    rw [hcpu] at hthread'
    cases hthread'
    rw [hkernel] at huser
    cases huser
  rename_i huser
  have huser : m.inUserMode thread = true := Bool.eq_true_of_not_eq_false huser
  dsimp only
  split
  · rename_i hnone
    refine .inr ⟨rfl, fun thread' hthread' _ t ht hrunning hzombie => ?_⟩
    rw [hcpu] at hthread'
    cases hthread'
    exact acting_eq_none_of_zero (deliverable_eq_none hnone ht hrunning hzombie)
  rename_i pending hsome
  obtain ⟨t, ht, rfl, hrunning, hzombie⟩ := deliverable_eq_some hsome
  have hthread : thread ≠ 0 := by
    rintro rfl
    exact absurd huser (by simp [inUserMode])
  obtain ⟨mask, hmask, heq⟩ := deliverSignals_eq cpu thread
    (fun sig (hsig : sig ∈ List.range' 1 31) => hsig) (handlerOf_eq ht)
  exact .inl ⟨thread, t, mask, hcpu, huser, hm.alive hthread ht hzombie, hrunning, hmask, heq⟩

/-- Nothing is wrong with what `deliver_pending` does, or it kills the process. -/
theorem deliverPending_cases (hm : Grouped m) (cpu : Nat) :
    (DeliverOk cpu m ∧ ∀ s, RespectedAt s m (m.deliverPending cpu)) ∨
    ∃ p t k, Alive m p t ∧ k ∈ List.range' 1 31 ∧ t.handler k = 0 ∧
      m.deliverPending cpu = ((m.forceKill p k).2.schedule cpu).deliverPendingAfterSwitch cpu ∧
      (DeliverOk cpu m ↔ t.NoneCaught ∧ SwitchOk cpu ((m.forceKill p k).2.schedule cpu)) := by
  rcases deliverPending_eq hm cpu with
    ⟨thread, t, mask, hcpu, huser, halive, hrunning, hmask, heq⟩ | ⟨heq, hnone⟩
  · have hok := deliverOk_iff hcpu huser halive.task hrunning halive.zombie
    rw [heq]
    cases hacting : t.acting with
    | none =>
      refine .inl ⟨hok.2 fun k hk => ?_, respectedAt_keepOnly halive.task halive.leader hmask⟩
      rw [hacting] at hk
      cases hk
    | some k =>
      have hk : k ∈ List.range' 1 31 := mem_of_find?_eq_some hacting
      have hpos := (mem_range'_1.1 hk).1
      rw [hacting] at hok
      dsimp only [actOn]
      split
      · rename_i hhandler
        refine .inl ⟨hok.2 fun k' hk' hzero => ?_,
          respectedAt_startHandler halive.task halive.leader hmask hk⟩
        cases hk'
        exact absurd hzero hhandler
      rename_i hdefault
      have hzero : t.handler k = 0 := Decidable.not_not.1 hdefault
      refine .inr ⟨m.processSlot thread, t, k, halive, hk, hzero, ?_, hok.trans ?_⟩
      · rw [halive.forceKill_keepOnly (by omega) mask]
      · exact ⟨fun h => h k rfl hzero, fun h k' hk' _ => by cases hk'; exact h⟩
  · refine .inl ⟨fun thread hthread huser t ht hrunning hzombie k hk => ?_, fun s => ?_⟩
    · rw [hnone thread hthread huser t ht hrunning hzombie] at hk
      cases hk
    · rw [heq]
      exact Becomes.refl.respectedAt

/-- The exact condition for `deliver_pending`. -/
theorem deliverPending_respected_iff (hm : Grouped m) (cpu : Nat) :
    (∀ s, RespectedAt s m (m.deliverPending cpu)) ↔ DeliverOk cpu m := by
  rcases deliverPending_cases hm cpu with ⟨hok, hall⟩ | ⟨p, t, k, halive, hk, hdefault, heq, hok⟩
  · exact ⟨fun _ => hok, fun _ => hall⟩
  have hpos : k ≠ 0 := by
    have hrange := mem_range'_1.1 hk
    omega
  have hdoes : ∀ x, x ≠ 0 → Does ⟨fun _ => True, True⟩ x m ((m.forceKill p k).2.schedule cpu) :=
    fun x hx => forceKill_does.trans (schedule_does hx)
  have hfirst := (halive.forceKill hpos).schedule cpu
  have hkilled : Unharmed t [.killed k] ↔ t.NoneCaught := by
    refine and_iff_left fun sig _ hmem => ?_
    cases mem_singleton.1 hmem
    rw [hdefault]
    decide
  rw [heq, hok, ← hkilled]
  rcases deliverPendingAfterSwitch_cases (hm.does hdoes) cpu with
    ⟨hsame, hswitch⟩ | ⟨q, t', log, hsecond, hswitch⟩
  · rw [hsame, hfirst.respected_iff]
    exact (and_iff_left hswitch).symm
  -- the process that was killed is not selected again
  have hne : q ≠ p := by
    rintro rfl
    obtain ⟨t₁, ht₁, hzombie⟩ := halive.forceKill_zombie hpos cpu
    rw [hsecond.alive.task] at ht₁
    cases ht₁
    exact absurd hzombie (by rw [hsecond.alive.zombie]; decide)
  rw [hswitch]
  exact hfirst.respected_two_iff hsecond hne (hdoes q hsecond.alive.slot).leaders

end

/-! ## Runs -/

/-- A step that has to do with signals, or another task is selected. -/
inductive SignalOp where
  | send (slot : Slot) (sig : Nat)
  | install (slot : Slot) (sig : Nat) (handler : UInt32)
  /-- The thread on a processor returns to user mode. -/
  | deliver (cpu : Nat)
  | switch (cpu : Nat)

namespace SignalOp

def apply (op : SignalOp) (m : TaskManager) : TaskManager :=
  match op with
  | .send slot sig => (m.sendSignal slot sig).2
  | .install slot sig handler => (m.sysSigaction slot sig handler).2
  | .deliver cpu => m.deliverPending cpu
  | .switch cpu => m.schedule cpu

/-- A step of a run. -/
def step (op : SignalOp) (m : TaskManager) : Res (Unit × TaskManager) := .ok ((), op.apply m)

/-- The step respects the signals of all processes. -/
def Respects (op : SignalOp) (m : TaskManager) : Prop := ∀ s, RespectedAt s m (op.apply m)
  deriving Decidable

/-- The condition for a step: there is one only for a delivery. -/
def Ok (op : SignalOp) (m : TaskManager) : Prop :=
  match op with
  | .deliver cpu => DeliverOk cpu m
  | _ => True

instance (op : SignalOp) (m : TaskManager) : Decidable (op.Ok m) := by
  unfold Ok
  split <;> infer_instance

variable {m : TaskManager} (slot : Slot)

theorem send_respects (sig : Nat) : (SignalOp.send slot sig).Respects m := by
  intro s
  show RespectedAt s m (m.sendSignal slot sig).2
  unfold sendSignal
  split
  · exact Becomes.refl.respectedAt
  dsimp only
  generalize m.processSlot slot = leader
  split
  · exact Becomes.refl.respectedAt
  split
  · exact Becomes.refl.respectedAt
  by_cases hs : s = leader
  · subst hs
    have hqueued : Becomes s (· ||| sigbit sig) [] m (m.modify s (Task.queue sig)) := by
      refine .modify_self fun t => ?_
      unfold Task.queue
      dsimp only
      split <;> rfl
    have hsent := hqueued.trans (.record_self (e := .signalled) rfl)
    intro t ht hleader
    refine (hsent.respectedAt_iff ht hleader).2 (fun sig' _ => ⟨fun _ hpending => .inl ?_,
      fun _ hmem => (nomatch mem_singleton.1 hmem)⟩) t ht hleader
    show (t.pendingSignals ||| sigbit sig).getLsbD (sig' - 1) = true
    rw [BitVec.getLsbD_or, hpending, Bool.true_or]
  · have hother : Becomes s id [] m (m.modify leader (Task.queue sig)) := .modify_of_ne hs
    exact (hother.then_same (.record_of_ne hs)).respectedAt

theorem install_respects (sig : Nat) (handler : UInt32) :
    (SignalOp.install slot sig handler).Respects m := by
  intro s t ht _ t' ht'
  have hsame : t'.pendingSignals = t.pendingSignals ∧
      (m.sysSigaction slot sig handler).2.history = m.history := by
    change (m.sysSigaction slot sig handler).2.tasks s = some t' at ht'
    unfold sysSigaction at ht' ⊢
    split at ht'
    · rw [if_pos ‹_›]
      rw [Option.mem_def.1 ht] at ht'
      cases ht'
      exact ⟨rfl, rfl⟩
    rw [if_neg ‹_›]
    refine ⟨?_, rfl⟩
    by_cases hs : s = slot
    · subst hs
      rw [modify_self, Option.mem_def.1 ht] at ht'
      cases ht'
      rfl
    rw [modify_of_ne hs, Option.mem_def.1 ht] at ht'
    cases ht'
    rfl
  have hevents : newEvents s m ((SignalOp.install slot sig handler).apply m) = [] :=
    newEvents_eq (congrFun hsame.2 s)
  rw [hevents]
  refine fun sig' _ => ⟨fun _ hpending => .inl ?_, fun _ => not_mem_nil⟩
  unfold Task.Pending
  rw [hsame.1]
  exact hpending

theorem respects_iff (hm : Grouped m) (op : SignalOp) : op.Respects m ↔ op.Ok m := by
  cases op with
  | send slot sig => exact iff_of_true (send_respects slot sig) trivial
  | install slot sig handler => exact iff_of_true (install_respects slot sig handler) trivial
  | deliver cpu => exact deliverPending_respected_iff hm cpu
  | switch cpu => exact iff_of_true (fun s => Becomes.schedule.respectedAt) trivial

theorem grouped (hm : Grouped m) (op : SignalOp) : Grouped (op.apply m) := by
  refine hm.does (R := ⟨fun _ => True, True⟩) fun x hx => ?_
  cases op with
  | send slot sig => exact sendSignal_does fun _ => trivial
  | install slot sig handler => exact (handles_does hx).sysSigaction
  | deliver cpu => exact deliverPending_does hx
  | switch cpu => exact schedule_does hx

/-- Along a run, a signal with a handler is cleared only when its handler is started and no
process is killed by a signal that it ignores, if and only if every delivery meets its
condition. -/
theorem signals_respected_iff (hm : Grouped m) (ops : List SignalOp) :
    Every step Respects ops m ↔ Every step Ok ops m := by
  refine every_congr Grouped (fun op m₁ r m₂ hm₁ _ hrun => ?_)
    (fun op m₁ hm₁ _ => respects_iff hm₁ op) hm (every_of_forall fun _ _ => trivial)
  cases hrun
  exact grouped hm₁ op

theorem grouped_twoTasks : Grouped twoTasks := by
  intro s hs t ht
  have hleader : t.leaderSlot = some s := by
    change (if s = 1 then _ else if s = 0 ∨ s = 2 then _ else none) = some t at ht
    split at ht
    · rename_i hone
      cases ht
      rw [hone]
      rfl
    split at ht
    · cases ht
      rfl
    · cases ht
  refine ⟨s, hs, hleader, ?_⟩
  rw [Option.mem_def.1 ht, map_some, hleader]

set_option maxRecDepth 4000 in
/-- A handler for `SIGTERM` is started. -/
theorem signals_respected_twoTasks :
    (apply (.deliver 0) (apply (.send 1 15) (apply (.install 1 15 0x401000) twoTasks))).history 1
      = [.started 15, .signalled] ∧
    Every step Respects [.install 1 15 0x401000, .send 1 15, .deliver 0] twoTasks := by
  refine ⟨by decide +kernel, (signals_respected_iff grouped_twoTasks _).2 ?_⟩
  decide +kernel

set_option maxRecDepth 4000 in
/-- The first task is killed by `SIGINT`.  Then the second one is killed by `SIGTERM`
although it has a handler. -/
theorem twoTasks_handler_not_started :
    ¬ Every step Respects [.install 2 15 0x401000, .send 2 15, .send 1 2, .deliver 0] twoTasks := by
  decide +kernel

end SignalOp

end Felix.Kernel
