import Felix.Kernel.Pending

/-!
# Processes that have to die

After `sys_kill` with a signal whose action is to terminate the process, the process should
be killed when one of its threads comes to a delivery point.  `Watch` keeps the signals that
were sent to a process since one of its threads came to one.

But `deliver_pending` looks at the signals of a process only if its leader can run.  A leader
that has exited cannot, and neither can one that waits or is stopped, so that its threads
pass the delivery point.  They also pass it when a signal with a handler comes first.
`killed_at_delivery_iff` is the exact condition.  Between delivery points no signal gets lost.
-/

namespace Felix.Kernel

open TaskManager Option

/-! ## Delivery -/

/-- The task can run, and its first signal that acts has no handler. -/
def Task.Exposed (t : Task) : Prop := t.running = true ∧ ∀ k ∈ t.acting, t.handler k = 0
  deriving Decidable

namespace TaskManager

/-- The state in which `deliver_pending` has killed a process and another task was selected,
if it comes to that. -/
def struck (cpu : Nat) (m : TaskManager) : Option TaskManager :=
  (m.onCpu cpu).bind fun thread =>
    if m.inUserMode thread = false then none
    else
      ((m.tasks (m.processSlot thread)).filter fun t => t.running && !t.zombie).bind fun t =>
        (t.acting.filter fun k => t.handler k = 0).map fun k =>
          (m.forceKill (m.processSlot thread) k).2.schedule cpu

/-- The process has ended. -/
def ended (m : TaskManager) (p : Slot) : Bool := (m.tasks p).any Task.zombie

end TaskManager

section

variable {m m₁ : TaskManager} {cpu : Nat} {thread p x : Slot} {t : Task} {sig : Nat}

theorem struck_eq (hcpu : m.onCpu cpu = some thread) (huser : m.inUserMode thread = true)
    (ht : m.tasks (m.processSlot thread) = some t) (hrunning : t.running = true)
    (hz : t.zombie = false) : m.struck cpu = (t.acting.filter fun k => t.handler k = 0).map fun k =>
      (m.forceKill (m.processSlot thread) k).2.schedule cpu := by
  unfold struck
  simp [hcpu, huser, ht, filter_some, hrunning, hz]

theorem struck_eq_some (h : m.struck cpu = some m₁) : ∃ thread t k, m.onCpu cpu = some thread ∧
    m.inUserMode thread = true ∧ m.tasks (m.processSlot thread) = some t ∧ t.running = true ∧
      t.zombie = false ∧ t.acting = some k ∧ t.handler k = 0 ∧
        m₁ = (m.forceKill (m.processSlot thread) k).2.schedule cpu := by
  obtain ⟨thread, hcpu, h⟩ := bind_eq_some_iff.1 h
  split at h
  · cases h
  rename_i huser
  obtain ⟨t, ht, h⟩ := bind_eq_some_iff.1 h
  obtain ⟨htask, htest⟩ := filter_eq_some_iff.1 ht
  obtain ⟨k, hk, rfl⟩ := map_eq_some_iff.1 h
  obtain ⟨hacting, hhandler⟩ := filter_eq_some_iff.1 hk
  rw [Bool.and_eq_true, Bool.not_eq_true'] at htest
  exact ⟨thread, t, k, hcpu, Bool.eq_true_of_not_eq_false huser, htask, htest.1, htest.2, hacting,
    of_decide_eq_true hhandler, rfl⟩

theorem pos_of_acting {k : Nat} (h : t.acting = some k) : k ≠ 0 := by
  have hk : k ∈ List.range' 1 31 := List.mem_of_find?_eq_some h
  have hpos := (List.mem_range'_1.1 hk).1
  omega

/-- `deliver_pending` kills the process and looks at the signals of another one, or it lets
the process live and does nothing to others. -/
theorem deliverPending_outcome (hm : Grouped m) (cpu : Nat) :
    (∃ m₁, m.struck cpu = some m₁ ∧ m.deliverPending cpu = m₁.deliverPendingAfterSwitch cpu) ∨
    (m.struck cpu = none ∧ (m.deliverPending cpu).life = m.life ∧
      ∀ x, (∀ thread ∈ m.onCpu cpu, m.inUserMode thread = true → x ≠ m.processSlot thread) →
        Becomes x id [] m (m.deliverPending cpu)) := by
  rcases deliverPending_eq hm cpu with
    ⟨thread, t, mask, hcpu, huser, halive, hrunning, -, heq⟩ | ⟨heq, hnone⟩
  · have hstruck := struck_eq hcpu huser halive.task hrunning halive.zombie
    have hlife : (m.modify (m.processSlot thread) (Task.keepOnly mask)).life = m.life :=
      life_modify fun _ => rfl
    rw [heq]
    cases hacting : t.acting with
    | none =>
      rw [hacting] at hstruck
      exact .inr ⟨hstruck, hlife, fun x hx => .modify_of_ne (hx thread hcpu huser)⟩
    | some k =>
      dsimp only [actOn]
      split
      · rename_i hhandler
        refine .inr ⟨?_, ?_, fun x hx => ?_⟩
        · rw [hstruck, hacting, filter_some, if_neg (by simpa using hhandler), map_none]
        · rw [life_startHandler, hlife]
        have hne := hx thread hcpu huser
        have hmasked : Becomes x id [] m (m.modify (m.processSlot thread) (Task.keepOnly mask)) :=
          .modify_of_ne hne
        exact hmasked.then_same (.startHandler_other hne)
      · rename_i hdefault
        refine .inl ⟨(m.forceKill (m.processSlot thread) k).2.schedule cpu, ?_, ?_⟩
        · rw [hstruck, hacting, filter_some, if_pos (by simpa using hdefault), map_some]
        · rw [halive.forceKill_keepOnly (pos_of_acting hacting) mask]
  · refine .inr ⟨?_, by rw [heq], fun x _ => ?_⟩
    · cases hstruck : m.struck cpu with
      | none => rfl
      | some m₁ =>
        obtain ⟨thread, t, k, hcpu, huser, ht, hrunning, hz, hacting, -⟩ := struck_eq_some hstruck
        rw [hnone thread hcpu huser t ht hrunning hz] at hacting
        cases hacting
    · rw [heq]
      exact .refl

theorem deliverPending_of_struck (hm : Grouped m) (h : m.struck cpu = some m₁) :
    m.deliverPending cpu = m₁.deliverPendingAfterSwitch cpu := by
  rcases deliverPending_outcome hm cpu with ⟨m₂, hstruck, heq⟩ | ⟨hnone, -⟩
  · cases h.symm.trans hstruck
    exact heq
  · cases h.symm.trans hnone

theorem ended_eq_true (ht : m.tasks p = some t) : m.ended p = true ↔ t.zombie = true := by
  rw [ended, ht, any_some]

theorem ended_of_life {m' : TaskManager} (h : m'.life p = m.life p) : m'.ended p = m.ended p := by
  have hview : ∀ n : TaskManager, n.ended p = (n.life p).any Vital.zombie := by
    intro n
    unfold ended life
    cases n.tasks p <;> rfl
  rw [hview, hview, h]

/-- A process that has ended is not changed by the delivery of signals. -/
theorem ended_deliverPendingAfterSwitch (hm : m.life.Wf) (h : m.ended p = true) :
    (m.deliverPendingAfterSwitch cpu).ended p = true := by
  obtain ⟨t, ht, hz⟩ := (Option.any_eq_true ..).1 h
  have hends : TaskManager.Ends False m (m.deliverPendingAfterSwitch cpu) :=
    delivers_ends.deliverPendingAfterSwitch m cpu
  have hstays := Life.Steps.zombie hends hm (life_eq_some ht) hz
  rw [ended_of_life (hstays.trans (life_eq_some ht).symm), h]

/-- A signal that terminates the process, and that is pending without a handler, acts. -/
theorem exists_acting (hsig : Fatal sig) (hpending : t.Pending sig) (hhandler : t.handler sig = 0) :
    ∃ k, t.acting = some k := by
  have hmem : ∀ sig ∈ [1, 2, 3, 9, 15], sig ∈ List.range' 1 31 := by decide
  have hacts : t.acts sig = true := by
    have hbits : (defaultTerminate &&& sigbit sig != 0) = true := bne_iff_ne.2 hsig
    unfold Task.acts
    rw [hbits, hhandler, Bool.or_true, Bool.and_true, Bool.and_eq_true]
    exact ⟨hpending, by decide⟩
  cases hacting : t.acting with
  | some k => exact ⟨k, rfl⟩
  | none => exact absurd hacts (List.find?_eq_none.1 hacting sig (hmem sig (mem_of_fatal hsig)))

/-- When the process of the thread that returns to user mode is killed. -/
theorem ended_deliverPending_iff (hwf : m.life.Wf) (hm : Grouped m)
    (hcpu : m.onCpu cpu = some thread)
    (huser : m.inUserMode thread = true) (halive : Alive m (m.processSlot thread) t)
    (hsig : Fatal sig) (hpending : t.Pending sig) (hhandler : t.handler sig = 0) :
    (m.deliverPending cpu).ended (m.processSlot thread) = true ↔ t.Exposed := by
  constructor
  · intro hended
    rcases deliverPending_outcome hm cpu with ⟨m₁, hstruck, -⟩ | ⟨-, hlife, -⟩
    · obtain ⟨thread', t', k, hcpu', -, ht', hrunning, -, hacting, hzero, -⟩ :=
        struck_eq_some hstruck
      rw [hcpu] at hcpu'
      cases hcpu'
      rw [halive.task] at ht'
      cases ht'
      refine ⟨hrunning, fun k' hk' => ?_⟩
      rw [hacting] at hk'
      cases hk'
      exact hzero
    · rw [ended_of_life (congrFun hlife _), ended_eq_true halive.task, halive.zombie] at hended
      cases hended
  · rintro ⟨hrunning, hzero⟩
    obtain ⟨k, hacting⟩ := exists_acting hsig hpending hhandler
    have hstruck := struck_eq hcpu huser halive.task hrunning halive.zombie
    rw [hacting, filter_some, if_pos (decide_eq_true (hzero k hacting))] at hstruck
    obtain ⟨t', ht', hz⟩ := halive.forceKill_zombie (pos_of_acting hacting) cpu
    have hends : TaskManager.Ends False m ((m.forceKill (m.processSlot thread) k).2.schedule cpu) :=
      (ends_forceKill k).then life_schedule
    rw [deliverPending_of_struck hm hstruck]
    exact ended_deliverPendingAfterSwitch (Life.Steps.wf hends hwf) ((ended_eq_true ht').2 hz)

theorem ended_deliverPendingAfterSwitch_iff (hm : Grouped m) (hcpu : m.onCpu cpu = some thread)
    (hthread : thread ≠ 0) (ht : m.tasks (m.processSlot thread) = some t) (hz : t.zombie = false)
    (hsig : Fatal sig) (hpending : t.Pending sig) :
    (m.deliverPendingAfterSwitch cpu).ended (m.processSlot thread) = true ↔ t.running = true := by
  have hbits : ∀ sig ∈ [1, 2, 3, 9, 15], defaultTerminate.getLsbD (sig - 1) = true := by decide
  have hfatal : t.pendingSignals &&& defaultTerminate ≠ 0 := by
    intro hzero
    have hbit : (t.pendingSignals &&& defaultTerminate).getLsbD (sig - 1) = true := by
      rw [BitVec.getLsbD_and, hpending, hbits sig (mem_of_fatal hsig)]
      rfl
    rw [hzero] at hbit
    exact absurd (hbit.symm.trans BitVec.getLsbD_zero) (by decide)
  have hnonempty : t.pendingSignals ≠ 0 := by
    intro hzero
    rw [hzero] at hfatal
    exact hfatal BitVec.zero_and
  unfold deliverPendingAfterSwitch
  simp only [hcpu, if_neg hthread]
  cases hrunning : t.running with
  | false =>
    have hnone : m.deliverable (m.processSlot thread) = none := by
      simp [deliverable, ht, hrunning]
    simp only [hnone, ended_eq_true ht, hz]
  | true =>
    have hsome : m.deliverable (m.processSlot thread) = some t.pendingSignals := by
      simpa [deliverable, ht, filter_some, hrunning, hz] using hnonempty
    obtain ⟨k, hk⟩ := exists_lowestSig hfatal
    have hpos := (List.mem_range'_1.1 (mem_of_lowestSig hk)).1
    have hkilled := (hm.alive hthread ht hz).forceKill_zombie (k := k) (by omega) cpu
    obtain ⟨t', ht', hz'⟩ := hkilled
    simp only [hsome, if_pos hfatal, hk, getD_some, ended_eq_true ht', hz']

theorem holds_deliverPendingAfterSwitch
    (hnot : ∀ thread ∈ m.onCpu cpu, thread ≠ 0 → p ≠ m.processSlot thread) (h : Holds p sig m) :
    Holds p sig (m.deliverPendingAfterSwitch cpu) := by
  unfold deliverPendingAfterSwitch
  split
  · exact h
  rename_i thread hcpu
  split
  · exact h
  rename_i hthread
  dsimp only
  split
  · exact h
  split
  · exact holds_schedule (holds_forceKill h)
  have hother : Becomes p id [] m (m.modify (m.processSlot thread) fun t =>
      { t with pendingSignals := 0 }) := .modify_of_ne (hnot thread hcpu hthread)
  exact hother.holds h

end

/-! ## Steps -/

/-- A function of the kernel that has to do with signals, threads or processes. -/
inductive KillOp where
  | addTask (entry esp : UInt32)
  | kill (thread : Slot) (pid : Int) (sig : Nat)
  /-- A terminal sends a signal. -/
  | group (pgid : Int) (sig : Nat)
  | install (thread : Slot) (sig : Nat) (handler : UInt32)
  /-- The registers of the thread on a processor are saved. -/
  | enter (cpu : Nat) (frame : Frame)
  /-- The thread on a processor returns to user mode. -/
  | deliver (cpu : Nat)
  | switch (cpu : Nat)
  | exit (cpu : Nat) (thread : Slot) (status : Int)
  | threadExit (cpu : Nat) (thread : Slot) (value : UInt32)
  | block (cpu : Nat) (thread : Slot) (reason : WaitReason) (wait : NetworkWait)
  | wake (reason : WaitReason)
  | call (thread : Slot) (c : ProcCall)

namespace KillOp

/-- A thread that has exited does not get to exit again. -/
def apply : KillOp → TaskManager → TaskManager
  | .addTask entry esp, m => m.addTask entry esp
  | .kill thread pid sig, m => (m.sysKill (m.processSlot thread) pid sig).2
  | .group pgid sig, m => m.signalGroup pgid sig
  | .install thread sig handler, m => (m.sysSigaction (m.processSlot thread) sig handler).2
  | .enter cpu frame, m => m.saveFrame cpu frame
  | .deliver cpu, m => m.deliverPending cpu
  | .switch cpu, m => m.schedule cpu
  | .exit cpu thread status, m => m.sysExit cpu (m.processSlot thread) status
  | .threadExit cpu thread value, m =>
    if m.barred thread = true then m.schedule cpu else m.sysThreadExit cpu thread value
  | .block cpu thread reason wait, m => m.blockAndRestart cpu thread reason wait
  | .wake reason, m => m.wakeWaiters reason
  | .call thread c, m => c.after thread (m.processSlot thread) m

/-- The signal that `sys_kill` sends to a process in order to terminate it. -/
def strikes : KillOp → TaskManager → Slot → List Nat
  | .kill thread pid sig, m, p =>
    if p ≠ 0 ∧ p ∈ m.killTargets (m.processSlot thread) pid ∧ Fatal sig ∧ m.handlerOf p sig = 0 then
      [sig]
    else []
  | _, _, _ => []

/-- A thread of the process comes to a delivery point. -/
def reaches : KillOp → TaskManager → Slot → Bool
  | .deliver cpu, m, p =>
    (m.onCpu cpu).any (fun thread => m.inUserMode thread && m.processSlot thread = p) ||
      (m.struck cpu).any fun m₁ =>
        (m₁.onCpu cpu).any fun thread => thread ≠ 0 && m₁.processSlot thread = p
  | _, _, _ => false

end KillOp

/-- The process is there and has not ended. -/
def TaskManager.living (m : TaskManager) (p : Slot) : Bool :=
  (m.tasks p).any fun t => t.leaderSlot = some p && !t.zombie

/-- The kernel, with the signals that were sent to a process to terminate it, since one of
its threads came to a delivery point. -/
structure Watch where
  kernel : TaskManager
  sent : Slot → List Nat

namespace Watch

def init (clock : Clock) (entry esp : UInt32) : Watch := ⟨.init clock entry esp, fun _ => []⟩

def next (op : KillOp) (w : Watch) : Watch where
  kernel := op.apply w.kernel
  sent := fun p =>
    if (op.apply w.kernel).living p = true then
      op.strikes w.kernel p ++ (if op.reaches w.kernel p = true then [] else w.sent p)
    else []

def step (op : KillOp) (w : Watch) : Res (Unit × Watch) := .ok ((), w.next op)

/-- The thread is alive, and its process has to be killed at a delivery point of the thread:
a signal was sent to it and the action for the signal is to terminate it. -/
def Owed (sent : Slot → List Nat) (thread : Slot) (m : TaskManager) : Prop :=
  (m.tasks thread).any Task.live = true ∧ ∃ t ∈ m.tasks (m.processSlot thread),
    t.zombie = false ∧ ∃ sig ∈ sent (m.processSlot thread), t.handler sig = 0
  deriving Decidable

/-- A process that has to be killed is killed. -/
def Kills (op : KillOp) (w : Watch) : Prop :=
  match op with
  | .deliver cpu =>
    (∀ thread ∈ w.kernel.onCpu cpu, w.kernel.inUserMode thread = true →
      Owed w.sent thread w.kernel →
      (op.apply w.kernel).ended (w.kernel.processSlot thread) = true) ∧
    ∀ m₁ ∈ w.kernel.struck cpu, ∀ thread ∈ m₁.onCpu cpu, thread ≠ 0 → Owed w.sent thread m₁ →
      (op.apply w.kernel).ended (m₁.processSlot thread) = true
  | _ => True

/-- The leader of a process that has to be killed can run, and no signal with a handler comes
first. -/
def Able (op : KillOp) (w : Watch) : Prop :=
  match op with
  | .deliver cpu =>
    (∀ thread ∈ w.kernel.onCpu cpu, w.kernel.inUserMode thread = true →
      Owed w.sent thread w.kernel →
      ∀ t ∈ w.kernel.tasks (w.kernel.processSlot thread), t.Exposed) ∧
    ∀ m₁ ∈ w.kernel.struck cpu, ∀ thread ∈ m₁.onCpu cpu, thread ≠ 0 → Owed w.sent thread m₁ →
      ∀ t ∈ m₁.tasks (m₁.processSlot thread), t.running = true
  | _ => True

instance (op : KillOp) (w : Watch) : Decidable (Kills op w) := by
  unfold Kills
  split <;> infer_instance

instance (op : KillOp) (w : Watch) : Decidable (Able op w) := by
  unfold Able
  split <;> infer_instance

end Watch

/-! ## The invariant -/

/-- No thread but the idle task belongs to slot 0. -/
def Life.IdleAlone (l : Life) : Prop := ∀ s v, l s = some v → v.leaderSlot = some 0 → s = 0

namespace Life.IdleAlone

variable {l l' : Life} {again : Prop}

theorem steps (h : l.IdleAlone) (hl : l.Wf) (hsteps : Steps again l l') : l'.IdleAlone := by
  intro s v' hv' hzero
  obtain ⟨v, hv, hages⟩ := hsteps.was hl hv'
  exact h s v hv (hages.leaderSlot.symm.trans hzero)

theorem reaps (h : l.IdleAlone) (hreaps : Reaps l l') : l'.IdleAlone :=
  fun s v hv => h s v (hreaps.was hv)

theorem act {R : Slot → Int → Int → Prop} (h : l.IdleAlone) (hact : Act R l l') : l'.IdleAlone := by
  intro s v hv hzero
  cases hact with
  | nothing => exact h s v hv hzero
  | spawn =>
    rcases update_eq_some.1 hv with ⟨rfl, heq⟩ | ⟨-, hold⟩
    · cases heq
      exact Option.some.inj hzero
    · exact h s v hold hzero
  | thread hfree hp =>
    rcases update_eq_some.1 hv with ⟨rfl, heq⟩ | ⟨-, hold⟩
    · cases heq
      exact absurd (Option.some.inj hzero) hp
    · exact h s v hold hzero
  | regroup =>
    rw [change_apply, map_eq_some_iff] at hv
    obtain ⟨v', hold, rfl⟩ := hv
    refine h s v' hold (Eq.trans ?_ hzero)
    split <;> rfl

end Life.IdleAlone

theorem grouped_of_wf {m : TaskManager} (hwf : m.life.Wf) (hidle : m.life.IdleAlone) :
    Grouped m := by
  intro s hs t ht
  obtain ⟨p, w, hp, hw, hlead⟩ := hwf.leader (life_eq_some ht)
  obtain ⟨u, hu, rfl⟩ := map_eq_some_iff.1 hw
  refine ⟨p, ?_, hp, ?_⟩
  · rintro rfl
    exact hs (hidle s t.vital (life_eq_some ht) hp)
  · rw [hu]
    exact congrArg some hlead

namespace KillOp

variable {m : TaskManager} {p : Slot} {sig : Nat}

theorem apply_cases (hm : m.life.Wf) (op : KillOp) :
    TaskManager.Ends True m (op.apply m) ∨ ∃ m₁, TaskManager.Cleared m m₁ ∧
      TaskManager.Acts (fun _ _ _ => True) m₁ (op.apply m) := by
  cases op with
  | addTask entry esp =>
    exact .inr ⟨_, cleared_getFreeSlot, acts_addTask entry esp fun _ _ => trivial⟩
  | kill thread pid sig => exact .inl (ends_sysKill pid sig)
  | group pgid sig => exact .inl (ends_signalGroup pgid sig)
  | install thread sig handler => exact .inl (.of_life (life_sysSigaction sig handler))
  | enter cpu frame => exact .inl (.of_life (life_saveFrame frame))
  | deliver cpu => exact .inl ends_deliverPending
  | switch cpu => exact .inl (.of_life life_schedule)
  | exit cpu thread status => exact .inl (ends_sysExit status rfl (.inl trivial))
  | threadExit cpu thread value =>
    left
    dsimp only [apply]
    split
    · exact .of_life life_schedule
    · obtain ⟨t, ht⟩ := calls_of_not_barred ‹_›
      exact ends_sysThreadExit value ht.task ht.live
  | block cpu thread reason wait => exact .inl (.of_life (life_blockAndRestart reason wait))
  | wake reason => exact .inl (.of_life (life_wakeWaiters reason))
  | call thread c =>
    refine .inr (c.after_cases thread (R := fun _ _ _ _ => True) (fun w hw => ?_)
      fun m' _ => c.grants_of_forall fun _ _ _ => trivial)
    exact hm.leads (processSlot_life thread) hw

theorem wf (hm : m.life.Wf) (op : KillOp) : (op.apply m).life.Wf := by
  rcases op.apply_cases hm with hends | ⟨m₁, hcleared, hact⟩
  · exact Life.Steps.wf hends hm
  · exact hact.life.wf (hcleared.wf hm)

theorem idleAlone (hm : m.life.Wf) (hidle : m.life.IdleAlone) (op : KillOp) :
    (op.apply m).life.IdleAlone := by
  rcases op.apply_cases hm with hends | ⟨m₁, hcleared, hact⟩
  · exact hidle.steps hm hends
  · exact (hidle.reaps hcleared.life).act hact.life

theorem living_eq_true : m.living p = true ↔ ∃ t, m.tasks p = some t ∧ t.leaderSlot = some p ∧
    t.zombie = false := by
  unfold living
  simp only [Option.any_eq_true, Bool.and_eq_true, decide_eq_true_eq, Bool.not_eq_true']

/-- A signal that was sent to a process stays pending until a delivery point. -/
theorem holds (hwf : m.life.Wf) (hidle : m.life.IdleAlone) (hsig : Fatal sig) (op : KillOp)
    (hlive : m.living p = true) (hnot : op.reaches m p = false) (h : Holds p sig m) :
    Holds p sig (op.apply m) := by
  obtain ⟨t, ht, hlead, hz⟩ := living_eq_true.1 hlive
  have hstands : Stands p t.vital m := ⟨hwf, life_eq_some ht, hlead, hz⟩
  cases op with
  | addTask entry esp =>
    exact hstands.holds cleared_getFreeSlot
      (acts_addTask (R := fun _ _ _ => True) entry esp fun _ _ => trivial) h
  | kill thread pid sig' => exact (sends_holds hsig).sysKill m sig' _ pid h
  | group pgid sig' => exact (sends_holds hsig).signalSlots sig' _ (false, m) h
  | install thread sig' handler => exact holds_sysSigaction h
  | enter cpu frame =>
    have hsame : Becomes p id [] m (m.saveFrame cpu frame) := by
      unfold saveFrame
      split
      · exact .refl
      · exact .modify fun _ => rfl
    exact hsame.holds h
  | deliver cpu =>
    simp only [reaches, Bool.or_eq_false_iff, Option.any_eq_false, Bool.and_eq_false_imp,
      decide_eq_true_eq, decide_eq_false_iff_not] at hnot
    obtain ⟨hfirst, hsecond⟩ := hnot
    rcases deliverPending_outcome (grouped_of_wf hwf hidle) cpu with
      ⟨m₁, hstruck, heq⟩ | ⟨-, -, hothers⟩
    · obtain ⟨thread, u, k, -, -, -, -, -, -, -, rfl⟩ := struck_eq_some hstruck
      show Holds p sig (m.deliverPending cpu)
      rw [heq]
      refine holds_deliverPendingAfterSwitch (fun thread' hthread' hne hp => ?_)
        (holds_schedule (holds_forceKill h))
      exact hsecond _ hstruck thread' hthread' hne hp.symm
    · refine (hothers p fun thread hthread huser hp => ?_).holds h
      exact hfirst thread hthread huser hp.symm
  | switch cpu => exact holds_schedule h
  | exit cpu thread status => exact holds_sysExit h
  | threadExit cpu thread value =>
    dsimp only [apply]
    split
    · exact holds_schedule h
    · exact holds_sysThreadExit h
  | block cpu thread reason wait => exact holds_blockAndRestart h
  | wake reason => exact holds_wakeWaiters h
  | call thread c =>
    obtain ⟨m₁, hcleared, hact⟩ := c.after_cases thread (R := fun _ _ _ _ => True)
      (fun w hw => hwf.leads (processSlot_life thread) hw)
      fun m' _ => c.grants_of_forall fun _ _ _ => trivial
    exact hstands.holds hcleared hact h

theorem leads_of_mem_killTargets {current : Slot} {pid : Int}
    (h : p ∈ m.killTargets current pid) : Leads p m := by
  have hgroup : ∀ {pgid : Int}, p ∈ m.slotsInPgid pgid → Leads p m := by
    intro pgid hp
    have htest := (List.mem_filter.1 hp).2
    obtain ⟨t, ht, htest⟩ := (Option.any_eq_true ..).1 htest
    simp only [Bool.and_eq_true, decide_eq_true_eq] at htest
    rw [Leads, ht, map_some, htest.2]
  unfold killTargets at h
  split at h
  · obtain ⟨t, ht, -, hlead⟩ := slotByPid_eq_some (Option.mem_toList.1 h)
    rw [Leads, ht, map_some, hlead]
  split at h
  · exact hgroup h
  split at h
  · have htest := (List.mem_filter.1 h).2
    rw [Bool.and_eq_true] at htest
    obtain ⟨t, ht, htest⟩ := (Option.any_eq_true ..).1 htest.2
    simp only [Bool.and_eq_true, decide_eq_true_eq] at htest
    rw [Leads, ht, map_some, htest.1.1]
  · exact hgroup h

/-- A signal that `sys_kill` sends is pending afterwards. -/
theorem holds_of_strikes {op : KillOp} (h : sig ∈ op.strikes m p) :
    p ≠ 0 ∧ Fatal sig ∧ Holds p sig (op.apply m) := by
  unfold strikes at h
  split at h
  · split at h
    · rename_i thread pid sig' hstrikes
      obtain ⟨hp, htarget, hsig, -⟩ := hstrikes
      cases List.mem_singleton.1 h
      exact ⟨hp, hsig, holds_of_sysKill hsig hp htarget (leads_of_mem_killTargets htarget)⟩
    · cases h
  · cases h

end KillOp

namespace Watch

/-- The signals that were sent are pending at processes that have not ended. -/
structure Inv (w : Watch) : Prop where
  wf : w.kernel.life.Wf
  idle : w.kernel.life.IdleAlone
  sent {p : Slot} {sig : Nat} : sig ∈ w.sent p →
    p ≠ 0 ∧ Fatal sig ∧ Holds p sig w.kernel ∧ w.kernel.living p = true

theorem inv_init (clock : Clock) (entry esp : UInt32) : (init clock entry esp).Inv := by
  refine ⟨wf_init clock entry esp, fun s v hv hzero => ?_, fun h => (nomatch h)⟩
  have hlife : (init clock entry esp).kernel.life =
      Function.update (fun _ => none) 0 (some (.newborn 0 0 0 0)) :=
    life_init clock entry esp
  rw [hlife, Life.update_eq_some] at hv
  rcases hv with ⟨hs, -⟩ | ⟨-, hnone⟩
  · exact hs
  · cases hnone

theorem Inv.next {w : Watch} (h : w.Inv) (op : KillOp) : (w.next op).Inv := by
  refine ⟨op.wf h.wf, op.idleAlone h.wf h.idle, fun {p sig} hsent => ?_⟩
  change sig ∈ (if (op.apply w.kernel).living p = true then op.strikes w.kernel p ++
    (if op.reaches w.kernel p = true then [] else w.sent p) else []) at hsent
  split at hsent
  · rename_i hliving
    rcases List.mem_append.1 hsent with hnew | hold
    · obtain ⟨hp, hsig, hholds⟩ := KillOp.holds_of_strikes hnew
      exact ⟨hp, hsig, hholds, hliving⟩
    split at hold
    · cases hold
    rename_i hreaches
    obtain ⟨hp, hsig, hholds, hbefore⟩ := h.sent hold
    exact ⟨hp, hsig, op.holds h.wf h.idle hsig hbefore (Bool.eq_false_of_not_eq_true hreaches)
      hholds, hliving⟩
  · cases hsent

/-- A signal that is held by a process that has not ended is pending. -/
theorem pending_of_holds {m : TaskManager} {p : Slot} {sig : Nat} {t : Task} (h : Holds p sig m)
    (ht : m.tasks p = some t) (hz : t.zombie = false) : t.leaderSlot = some p ∧ t.Pending sig := by
  obtain ⟨u, hu, hlead, hstate⟩ := h
  rw [ht] at hu
  cases hu
  refine ⟨hlead, hstate.resolve_left fun hzombie => ?_⟩
  rw [hz] at hzombie
  cases hzombie

theorem kills_iff {w : Watch} (h : w.Inv) (op : KillOp) : Kills op w ↔ Able op w := by
  have hgrouped := grouped_of_wf h.wf h.idle
  cases op with
  | deliver cpu =>
    refine and_congr ?_ ?_
    · refine forall₄_congr fun thread hcpu huser howed => ?_
      obtain ⟨-, t, ht, hz, sig, hsent, hhandler⟩ := howed
      obtain ⟨hp, hsig, hholds, -⟩ := h.sent hsent
      obtain ⟨hlead, hpending⟩ := pending_of_holds hholds ht hz
      refine (ended_deliverPending_iff h.wf hgrouped hcpu huser ⟨hp, ht, hlead, hz⟩ hsig hpending
        hhandler).trans ⟨fun hexposed u hu => ?_, fun hall => hall t ht⟩
      cases (Option.mem_def.1 ht).symm.trans hu
      exact hexposed
    · refine forall₅_congr fun m₁ hstruck thread hcpu hthread => forall_congr' fun howed => ?_
      obtain ⟨-, t, ht, hz, sig, hsent, -⟩ := howed
      obtain ⟨-, hsig, hholds, -⟩ := h.sent hsent
      have heq := deliverPending_of_struck hgrouped hstruck
      -- the signals of the process that is selected are those that it had before
      obtain ⟨killed, u, k, -, -, -, -, -, -, -, rfl⟩ := struck_eq_some hstruck
      obtain ⟨-, hpending⟩ := pending_of_holds (holds_schedule (holds_forceKill hholds)) ht hz
      have hends : TaskManager.Ends True w.kernel
          ((w.kernel.forceKill (w.kernel.processSlot killed) k).2.schedule cpu) :=
        (ends_forceKill k).then life_schedule
      have hgrouped₁ := grouped_of_wf (Life.Steps.wf hends h.wf) (h.idle.steps h.wf hends)
      show (w.kernel.deliverPending cpu).ended _ = true ↔ _
      rw [heq]
      refine (ended_deliverPendingAfterSwitch_iff hgrouped₁ hcpu hthread ht hz hsig hpending).trans
        ⟨fun hrunning u hu => ?_, fun hall => hall t ht⟩
      cases (Option.mem_def.1 ht).symm.trans hu
      exact hrunning
  | addTask | kill | group | install | enter | switch | exit | threadExit | block | wake | call =>
    exact Iff.rfl

/-- **Processes die at a delivery point.**  In a run from the start of the system, a process
to which `sys_kill` has sent a signal that terminates it is always killed when one of its
threads comes to a delivery point, if and only if its leader can run then and no signal with
a handler comes first. -/
theorem killed_at_delivery_iff (clock : Clock) (entry esp : UInt32) (ops : List KillOp) :
    Every step Kills ops (init clock entry esp) ↔ Every step Able ops (init clock entry esp) := by
  refine every_congr_of Inv (fun op w r w' hw _ hrun => ?_) (fun op w hw => kills_iff hw op)
    (inv_init clock entry esp)
  cases hrun
  exact hw.next op

/-- A process is killed after the first of its two threads has exited. -/
def killWithoutLeader : List KillOp :=
  [.addTask 0 0, .addTask 0 0, .call 2 (.threadCreate 8 0 true), .switch 0, .switch 0,
    .threadExit 0 2 0, .switch 0, .kill 1 2 sigterm, .switch 0, .deliver 0]

set_option maxRecDepth 4000 in
/-- The other thread returns to user mode, and the process lives on. -/
theorem killWithoutLeader_not_killed :
    (killWithoutLeader.foldl (fun w op => w.next op) (init ⟨0, 0⟩ 0 0)).kernel.onCpu 0 = some 3 ∧
    (killWithoutLeader.foldl (fun w op => w.next op) (init ⟨0, 0⟩ 0 0)).kernel.ended 2 = false ∧
      ¬ Every step Kills killWithoutLeader (init ⟨0, 0⟩ 0 0) := by
  decide +kernel

end Watch

/-! ## Signals between delivery points -/

namespace KillOp

variable {m : TaskManager} {p : Slot} {sig : Nat}

/-- The kernel after these steps. -/
def run (ops : List KillOp) (m : TaskManager) : TaskManager := ops.foldl (fun m op => op.apply m) m

/-- The process does not end during these steps, and none of its threads comes to a delivery
point. -/
def Undelivered (p : Slot) : List KillOp → TaskManager → Prop
  | [], m => m.living p = true
  | op :: ops, m => m.living p = true ∧ op.reaches m p = false ∧ Undelivered p ops (op.apply m)

instance (p : Slot) : (ops : List KillOp) → (m : TaskManager) → Decidable (Undelivered p ops m)
  | [], m => inferInstanceAs (Decidable (m.living p = true))
  | op :: ops, m =>
    have := instDecidableUndelivered p ops (op.apply m)
    inferInstanceAs (Decidable (_ ∧ _ ∧ _))

theorem run_wf (ops : List KillOp) (hwf : m.life.Wf) (hidle : m.life.IdleAlone) :
    (run ops m).life.Wf ∧ (run ops m).life.IdleAlone := by
  induction ops generalizing m with
  | nil => exact ⟨hwf, hidle⟩
  | cons op ops ih => exact ih (op.wf hwf) (op.idleAlone hwf hidle)

theorem Undelivered.holds {ops : List KillOp} (h : Undelivered p ops m) (hwf : m.life.Wf)
    (hidle : m.life.IdleAlone) (hsig : Fatal sig) (hm : Holds p sig m) :
    Holds p sig (run ops m) ∧ (run ops m).living p = true := by
  induction ops generalizing m with
  | nil => exact ⟨hm, h⟩
  | cons op ops ih =>
    obtain ⟨hlive, hnot, hrest⟩ := h
    exact ih hrest (op.wf hwf) (op.idleAlone hwf hidle) (op.holds hwf hidle hsig hlive hnot hm)

/-- **No signal gets lost.**  A signal that `sys_kill` sends to a process in order to
terminate it is still pending at the leader after any steps in which the process does not end
and none of its threads comes to a delivery point. -/
theorem sent_signal_stays (clock : Clock) (entry esp : UInt32) (before after : List KillOp)
    (thread p : Slot) (pid : Int) (sig : Nat)
    (hsent : sig ∈ strikes (.kill thread pid sig) (run before (.init clock entry esp)) p)
    (hafter : Undelivered p after
      (run (before ++ [.kill thread pid sig]) (.init clock entry esp))) :
    ∃ t, (run (before ++ .kill thread pid sig :: after) (.init clock entry esp)).tasks p = some t ∧
      t.leaderSlot = some p ∧ t.Pending sig := by
  have hinit := Watch.inv_init clock entry esp
  obtain ⟨hwf, hidle⟩ := run_wf (before ++ [.kill thread pid sig]) hinit.wf hinit.idle
  obtain ⟨-, hsig, hholds⟩ := holds_of_strikes hsent
  have hkill : run (before ++ [.kill thread pid sig]) (.init clock entry esp)
      = (KillOp.kill thread pid sig).apply (run before (.init clock entry esp)) := by
    rw [run, List.foldl_append]
    rfl
  rw [← hkill] at hholds
  obtain ⟨hholds', hlive⟩ := hafter.holds hwf hidle hsig hholds
  obtain ⟨t, ht, -, hz⟩ := living_eq_true.1 hlive
  have hrun : run (before ++ .kill thread pid sig :: after) (.init clock entry esp)
      = run after (run (before ++ [.kill thread pid sig]) (.init clock entry esp)) := by
    simp only [run, List.foldl_append, List.foldl_cons, List.foldl_nil]
  refine ⟨t, ?_, Watch.pending_of_holds hholds' ht hz⟩
  rw [hrun]
  exact ht

set_option maxRecDepth 4000 in
theorem sent_signal_stays_blocked : ∃ t,
    (run [.addTask 0 0, .addTask 0 0, .switch 0, .kill 1 2 sigterm, .switch 0,
      .block 0 2 .child ⟨0, 0, false, false⟩, .wake .child] (.init ⟨0, 0⟩ 0 0)).tasks 2 = some t ∧
      t.leaderSlot = some 2 ∧ t.Pending sigterm :=
  sent_signal_stays ⟨0, 0⟩ 0 0 [.addTask 0 0, .addTask 0 0, .switch 0]
    [.switch 0, .block 0 2 .child ⟨0, 0, false, false⟩, .wake .child] 1 2 2 sigterm
    (by decide +kernel) (by decide +kernel)

end KillOp

end Felix.Kernel
