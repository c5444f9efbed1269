import Felix.Kernel.Biography
import Felix.Kernel.DeliverContract
import Felix.Kernel.Lineage

/-!
# Zombies and waits

A process is a zombie when its last thread has exited, and only then; a wait of its parent
reports its end at most once, with the status that was recorded at the end; and then nothing
of it is left in the table.  `Census` keeps the events of each slot, so that this can be
said about runs.

It holds unless a fault hits a process that has ended.  `kill_current_task` does not look if
another processor has killed the process in the meantime, and `sys_exit` records a status
again, over the one that is there.
-/

namespace Felix.Kernel

open TaskManager Option

/-! ## A process without signals is spared -/

/-- Nothing happens to the signals and to the life of the task in a slot. -/
structure Spares (x : Slot) (m m' : TaskManager) : Prop where
  signals : Becomes x id [] m m'
  life : m'.life x = m.life x

namespace Spares

variable {x slot : Slot} {m m' m'' : TaskManager} {cpu sig : Nat}

theorem refl : Spares x m m := ⟨.refl, rfl⟩

theorem trans (h : Spares x m m') (h' : Spares x m' m'') : Spares x m m'' :=
  ⟨h.signals.then_same h'.signals, h'.life.trans h.life⟩

theorem schedule : Spares x m (m.schedule cpu) :=
  ⟨.schedule, congrFun life_schedule x⟩

theorem modify_of_ne {h : Task → Task} (hne : x ≠ slot) : Spares x m (m.modify slot h) := by
  refine ⟨.modify_of_ne hne, ?_⟩
  simp [TaskManager.life, TaskManager.modify, hne]

theorem setEax {value : UInt32} : Spares x m (m.setEax slot value) :=
  ⟨.modify fun _ => rfl, congrFun (life_setEax ..) x⟩

theorem startHandler {thread : Slot} {handler : UInt32} (hne : x ≠ slot) :
    Spares x m (m.startHandler thread slot sig handler) :=
  ⟨.startHandler_other hne, congrFun life_startHandler x⟩

theorem forceKill {v : Vital} (hv : m.life x = some v)
    (hlead : v.leaderSlot = some x) (hne : x ≠ m.processSlot slot) :
    Spares x m (m.forceKill slot sig).2 := by
  have hother : v.leaderSlot ≠ some (m.processSlot slot) := by
    rw [hlead]
    exact fun h => hne (Option.some.inj h)
  refine ⟨.forceKill_other hne fun t ht => ?_, ?_⟩
  · rw [life_eq_some ht] at hv
    cases hv
    exact hother
  · rcases @forceKill_cases m slot sig with hsame | ⟨t, k, -, -, hlife⟩
    · rw [hsame]
    · rw [hlife, hv]
      exact Life.kill_of_ne hv hother hne

theorem finishWait {thread : Slot} {reason : WaitReason} {ret : UInt32} :
    Spares x m (m.finishWait cpu thread reason ret) := by
  have hlater : Becomes x id [] m (m.modify thread (restartLater reason ⟨0, 0, false, false⟩)) := by
    refine .modify fun t => ?_
    unfold restartLater Task.block
    split <;> rfl
  refine ⟨?_, congrFun (life_finishWait reason ret) x⟩
  unfold TaskManager.finishWait
  split
  · exact hlater.then_same .schedule
  · exact .modify fun _ => rfl

end Spares

/-- The task in a slot leads a process that has no signals. -/
structure Calm (x : Slot) (v : Vital) (m : TaskManager) : Prop where
  wf : m.life.Wf
  life : m.life x = some v
  leader : v.leaderSlot = some x
  signals : ∀ t, m.tasks x = some t → t.pendingSignals = 0

namespace Calm

variable {x slot thread : Slot} {v : Vital} {m m' : TaskManager} {cpu : Nat}

variable (h : Calm x v m) {pending : BitVec 31}

include h

theorem spares (hwf : m'.life.Wf) (hspares : Spares x m m') : Calm x v m' := by
  refine ⟨hwf, hspares.life.trans h.life, h.leader, fun t' ht' => ?_⟩
  obtain ⟨t, ht, -⟩ := map_eq_some_iff.1 h.life
  obtain ⟨u, hu, hpending, -⟩ := hspares.signals.task t ht
  rw [ht'] at hu
  cases hu
  exact hpending.trans (h.signals t ht)

theorem ends (hends : TaskManager.Ends True m m') (hspares : Spares x m m') : Calm x v m' :=
  h.spares (Life.Steps.wf hends h.wf) hspares

/-- A process to which signals can be delivered is another one, and leads itself. -/
theorem ne_of_deliverable (hpending : m.deliverable (m.processSlot slot) = some pending) :
    x ≠ m.processSlot slot ∧ m.processSlot (m.processSlot slot) = m.processSlot slot := by
  obtain ⟨t, hfilter, -⟩ := map_eq_some_iff.1 hpending
  obtain ⟨ht, htest⟩ := filter_eq_some_iff.1 hfilter
  refine ⟨fun hx => ?_, ?_⟩
  · rw [h.signals t (hx ▸ ht)] at htest
    simp at htest
  · have hlead := h.wf.leads (processSlot_life slot) (life_eq_some ht)
    have hself : t.leaderSlot = some (m.processSlot slot) := hlead
    generalize m.processSlot slot = p at ht hself
    rw [processSlot, ht]
    exact congrArg (Option.getD · p) hself

theorem deliverPendingAfterSwitch : Spares x m (m.deliverPendingAfterSwitch cpu) := by
  unfold TaskManager.deliverPendingAfterSwitch
  split
  · exact .refl
  split
  · exact .refl
  dsimp only
  split
  · exact .refl
  rename_i hpending
  obtain ⟨hne, hself⟩ := h.ne_of_deliverable hpending
  split
  · exact (Spares.forceKill h.life h.leader (hself.symm ▸ hne)).trans .schedule
  · exact .modify_of_ne hne

theorem deliverSignals (hne : x ≠ slot) (hself : m.processSlot slot = slot) (sigs : List Nat) :
    Spares x m (m.deliverSignals cpu thread slot pending sigs) := by
  induction sigs generalizing m with
  | nil => exact .refl
  | cons sig sigs ih =>
    have hclear : Spares x m (m.modify slot (Task.clearSignal · sig)) := .modify_of_ne hne
    have hlife : (m.modify slot (Task.clearSignal · sig)).life = m.life := life_modify fun _ => rfl
    have hrest : Spares x m
        ((m.modify slot (Task.clearSignal · sig)).deliverSignals cpu thread slot pending sigs) := by
      refine hclear.trans (ih (h.ends (.of_life hlife) hclear) ?_)
      rw [← processSlot_life, hlife, processSlot_life, hself]
    unfold deliverSignals
    split
    · exact ih h hself
    split
    · exact hrest
    split
    · exact .startHandler hne
    split
    · have hkill : Spares x m ((m.forceKill slot sig).2.schedule cpu) :=
        (Spares.forceKill h.life h.leader (hself.symm ▸ hne)).trans .schedule
      have hends : TaskManager.Ends True m ((m.forceKill slot sig).2.schedule cpu) :=
        (ends_forceKill sig).then life_schedule
      exact hkill.trans (h.ends hends hkill).deliverPendingAfterSwitch
    · exact hrest

theorem deliverPending : Spares x m (m.deliverPending cpu) := by
  unfold TaskManager.deliverPending
  split
  · exact .refl
  split
  · exact .refl
  dsimp only
  split
  · exact .refl
  rename_i hpending
  obtain ⟨hne, hself⟩ := h.ne_of_deliverable hpending
  exact h.deliverSignals hne hself _

theorem finishCall {ret : UInt32} : Spares x m (m.finishCall cpu thread ret) := by
  have hset : Spares x m (m.setEax thread ret) := .setEax
  unfold TaskManager.finishCall
  dsimp only
  split
  · exact hset.trans .schedule
  · exact hset.trans (h.ends (.of_life (life_setEax ret)) hset).deliverPending

end Calm

/-! ## Phases -/

namespace TaskManager

variable {m : TaskManager} {cpu : Nat} {frame : Frame} {thread x : Slot}

variable {requested pid : Int} {image : Option (UInt32 × UInt32)} {options : WaitOptions}
  {current slot : Slot}

/-- A process that a call has created is not hit by the signals that are delivered at the end
of the call. -/
theorem spares_performProc {v : Vital} (c : ProcCall) (h : Calm x v (c.after thread current m)) :
    Spares x (c.after thread current m) (m.performProc cpu thread current c) := by
  cases c with
  | spawn => exact h.finishCall
  | threadCreate => exact h.finishCall
  | threadJoin => exact .finishWait
  | threadDetach => exact h.finishCall
  | wait => exact .finishWait
  | setpgid => exact h.finishCall
  | setsid => exact h.finishCall

theorem goes_procHandler (c : ProcCall) (hm : m.life.Wf) (s : Slot) :
    (m.life.phase s).Goes ((m.procHandler cpu frame c).life.phase s) := by
  cases h : m.admitted cpu frame with
  | none =>
    have hends : Ends False m (m.procHandler cpu frame c) := ends_of_not_admitted c h
    exact .of_parts (.inl rfl) (Life.Steps.phase hends hm s)
  | some thread =>
    obtain ⟨m₁, hreaped, hact⟩ := acts_of_admitted (R := fun _ _ _ _ => True) c hm h
      fun _ _ _ => c.grants_of_forall fun _ _ _ => trivial
    have hwf := hact.life.wf (hreaped.wf hm)
    have hphase := hreaped.life.phase hm s
    rcases hact.life.phase s with hsame | ⟨hfree, hborn, -⟩
    · have hends : Ends False _ (m.procHandler cpu frame c) := ends_of_admitted c h
      have hlast := Life.Steps.phase hends hwf s
      rw [hsame] at hlast
      exact .of_parts hphase hlast
    obtain ⟨v, hv, hlead, hz⟩ := Life.exists_of_phase_alive hborn
    have hcalm : Calm s v _ :=
      ⟨hwf, hv, hlead, fun t ht => hact.fresh (map_eq_none_iff.1 hfree) ht⟩
    have hspares : Spares s _ ((m.entered cpu frame).performProc cpu thread _ c) :=
      spares_performProc c hcalm
    have hlater := hcalm.ends c.ends_performProc hspares
    have hlife : (m.procHandler cpu frame c).life s = some v := by
      rw [procHandler_of_admitted c h]
      exact (hspares.trans hlater.deliverPending).life.trans hv
    rw [Life.phase_of_alive hlife hlead hz]
    rw [Life.phase_of_free hfree] at hphase
    exact .of_birth (hphase.imp_right And.right)

/-! ## Reports -/

/-- What a wait tells about a child that has ended: the slot of the child, and the status. -/
def report (current : Slot) (pid : Int) (options : WaitOptions) (m : TaskManager) :
    Option (Slot × Int) :=
  match m.tasks current with
  | none => none
  | some parent =>
    match m.waitEvent (matchesSelector parent.pid parent.pgid pid) options,
        (m.sysWaitStatus current pid options).2.1 with
    | some (.exited slot _ _ _), some status => some (slot, status)
    | _, _ => none

theorem waitEvent_exited {test : Task → Bool} {exitCode : Int} {termSignal : Nat}
    (h : m.waitEvent test options = some (.exited slot pid exitCode termSignal)) :
    ∃ t, m.tasks slot = some t ∧ t.zombie = true ∧ t.exitCode = exitCode ∧
      t.termSignal = termSignal := by
  obtain ⟨s, -, hs⟩ := List.exists_of_findSome?_eq_some h
  split at hs
  · cases hs
  obtain ⟨t, ht, hevent⟩ := bind_eq_some_iff.1 hs
  obtain ⟨htask, -⟩ := filter_eq_some_iff.1 ht
  unfold childEvent at hevent
  split at hevent
  · cases hevent
    exact ⟨t, htask, ‹_›, rfl, rfl⟩
  split at hevent
  · cases hevent
  split at hevent
  · cases hevent
  · cases hevent

/-- A report is about a process that has ended, has its status, and takes it out. -/
theorem report_eq_some {status : Int} (h : m.report current pid options = some (slot, status)) :
    ∃ t, m.tasks slot = some t ∧ t.zombie = true ∧ status = exitStatus t.exitCode t.termSignal ∧
      (m.reap slot).1 = true ∧ (m.sysWaitStatus current pid options).2.2 = (m.reap slot).2 := by
  unfold report at h
  split at h
  · cases h
  rename_i parent hparent
  split at h
  · rename_i x childPid exitCode termSignal _ hevent hstatus
    cases h
    obtain ⟨t, ht, hz, hcode, hsig⟩ := waitEvent_exited hevent
    refine ⟨t, ht, hz, ?_⟩
    simp only [sysWaitStatus, hparent, hevent] at hstatus ⊢
    split at hstatus
    · cases hstatus
    rename_i hpid
    split at hstatus
    · cases hstatus
    rename_i hreap
    cases hstatus
    rw [if_neg hpid, if_neg hreap, hcode, hsig]
    exact ⟨rfl, Bool.eq_true_of_not_eq_false hreap, rfl⟩
  · cases h

end TaskManager

/-- The report of a step. -/
def ProcOp.report : ProcOp → TaskManager → Option (Slot × Int)
  | .call cpu frame (.wait pid options), m => (m.admitted cpu frame).bind fun thread =>
    (m.entered cpu frame).report (m.processSlot thread) pid options
  | _, _ => none

/-- A fault is not in a process that has ended. -/
def ProcOp.FaultsAlive : ProcOp → TaskManager → Prop
  | .kernel op, m => op.FaultsAlive m
  | _, _ => True

namespace ProcOp

instance (op : ProcOp) (m : TaskManager) : Decidable (op.FaultsAlive m) :=
  match op with
  | .kernel op => inferInstanceAs (Decidable (op.FaultsAlive m))
  | .call .. | .reapDetached | .addTask .. => isTrue trivial

variable {op : ProcOp} {m : TaskManager}

theorem goes (hm : m.life.Wf) (hfault : op.FaultsAlive m) (s : Slot) :
    (m.life.phase s).Goes ((op.apply m).life.phase s) := by
  cases op with
  | kernel op =>
    have hends : TaskManager.Ends False m (op.apply m) := ends_apply op (.inr ⟨hm, hfault⟩)
    exact .of_parts (.inl rfl) (Life.Steps.phase hends hm s)
  | reapDetached =>
    exact .of_parts (cleared_reapDetachedThreads.life.phase hm s) (.inl rfl)
  | addTask entry esp =>
    have hact := @acts_addTask m (fun _ _ _ => True) entry esp fun _ _ => trivial
    have hphase := cleared_getFreeSlot.life.phase hm s
    rcases hact.life.phase s with hsame | ⟨hfree, hborn, -⟩
    · exact .of_parts hphase (.inl hsame)
    rw [Life.phase_of_free hfree] at hphase
    have halive : ((ProcOp.addTask entry esp).apply m).life.phase s = .alive := hborn
    rw [halive]
    exact .of_birth (hphase.imp_right And.right)
  | call cpu frame c => exact goes_procHandler c hm s

/-- What is reported had ended, with the status that is reported, and is gone afterwards. -/
theorem report_spec {slot : Slot} {status : Int} (hm : m.life.Wf)
    (h : op.report m = some (slot, status)) :
    (∃ exitCode termSignal, m.life.phase slot = .ended exitCode termSignal ∧
      status = exitStatus exitCode termSignal) ∧
        ∀ s v, (op.apply m).life s = some v → s ≠ slot ∧ v.leaderSlot ≠ some slot := by
  unfold report at h
  split at h
  · rename_i cpu frame pid options
    obtain ⟨thread, hadmitted, hreport⟩ := bind_eq_some_iff.1 h
    obtain ⟨t, ht, hz, hstatus, hreap, hstate⟩ := report_eq_some hreport
    have hreaped := @reaped_entered m cpu frame
    have hv : m.life slot = some t.vital := hreaped.life.was (life_eq_some ht)
    refine ⟨⟨_, _, Life.phase_of_zombie hv ((hm.zombie hv).1 hz).1 hz, hstatus⟩, fun s v' hv' => ?_⟩
    have hends : TaskManager.Ends True _ (m.procHandler cpu frame (.wait pid options)) :=
      ends_of_admitted _ hadmitted
    have hwf : ((m.entered cpu frame).reap slot).2.life.Wf := cleared_reap.wf (hreaped.wf hm)
    rw [ProcCall.after, hstate] at hends
    obtain ⟨v, hold, hages⟩ := Life.Steps.was hends hwf hv'
    rw [hages.leaderSlot]
    exact gone_of_reap hreap hold
  · cases h

end ProcOp

/-! ## Runs -/

/-- The kernel, with the events of each slot. -/
structure Census where
  kernel : TaskManager
  log : Slot → List LifeEvent

namespace Census

/-- At the start there is the idle task. -/
def init (clock : Clock) (entry esp : UInt32) : Census where
  kernel := .init clock entry esp
  log := fun s => if s = 0 then [.born] else []

/-- The events of a slot in a step.  The report of a process comes before the birth of
another one. -/
def news (op : ProcOp) (m : TaskManager) (s : Slot) : List LifeEvent :=
  (m.life.phase s).news ((op.apply m).life.phase s) ++
    (((op.report m).filter fun r => r.1 = s).map fun r => .reported r.2).toList

def next (op : ProcOp) (c : Census) : Census where
  kernel := op.apply c.kernel
  log := fun s => news op c.kernel s ++ c.log s

def step (op : ProcOp) (c : Census) : Res (Unit × Census) := .ok ((), c.next op)

/-- A process is a zombie exactly when all of its threads have exited. -/
def ZombiesExited (m : TaskManager) : Prop :=
  ∀ s, ∀ t ∈ m.tasks s, t.leaderSlot = some s → (t.zombie = true ↔
    ∀ s', ∀ t' ∈ m.tasks s', t'.leaderSlot = some s → t'.threadExited = true)
  deriving Decidable

/-- Nothing is left of the process that a step reports. -/
def ReportedGone (op : ProcOp) (m : TaskManager) : Prop :=
  ∀ r ∈ op.report m, ∀ s, ∀ t ∈ (op.apply m).tasks s, s ≠ r.1 ∧ t.leaderSlot ≠ some r.1
  deriving Decidable

/-- What holds after every step. -/
def Lawful (op : ProcOp) (c : Census) : Prop :=
  ZombiesExited (op.apply c.kernel) ∧ (∀ s, Told ((c.next op).log s)) ∧ ReportedGone op c.kernel

instance (op : ProcOp) (c : Census) : Decidable (Lawful op c) := by
  unfold Lawful
  infer_instance

theorem zombiesExited {m : TaskManager} (hm : m.life.Wf) : ZombiesExited m := by
  intro s t ht hlead
  have hzombie := hm.zombie (life_eq_some ht)
  refine hzombie.trans ⟨fun h s' t' ht' => h.2 s' t'.vital (life_eq_some ht'),
    fun h => ⟨hlead, fun s' v hv hlead' => ?_⟩⟩
  obtain ⟨t', ht', rfl⟩ := map_eq_some_iff.1 hv
  exact h s' t' ht' hlead'

/-- The events of every slot make sense, and have led to the phase of its process. -/
structure Inv (c : Census) : Prop where
  wf : c.kernel.life.Wf
  told (s : Slot) : Told (c.log s)
  fits (s : Slot) : (c.kernel.life.phase s).Fits (c.log s)

theorem inv_init (clock : Clock) (entry esp : UInt32) : Inv (init clock entry esp) := by
  refine ⟨wf_init clock entry esp, fun s => ?_, fun s => ?_⟩
  · unfold init
    dsimp only
    split
    · exact ⟨fun h => (nomatch h), trivial⟩
    · trivial
  · have hlife : (init clock entry esp).kernel.life =
        Function.update (fun _ => none) 0 (some (.newborn 0 0 0 0)) :=
      life_init clock entry esp
    rw [hlife]
    by_cases hs : s = 0
    · subst hs
      rfl
    · rw [Life.phase_of_free (by simp [hs])]
      simp [Phase.Fits, init, hs]

theorem Inv.told_next {c : Census} {op : ProcOp} (h : c.Inv) (hfault : op.FaultsAlive c.kernel)
    (s : Slot) : Told ((c.next op).log s) ∧
      ((op.apply c.kernel).life.phase s).Fits ((c.next op).log s) := by
  have hgoes := ProcOp.goes h.wf hfault s
  cases hreport : (op.report c.kernel).filter fun r => r.1 = s with
  | none =>
    have hnews : news op c.kernel s =
        (c.kernel.life.phase s).news ((op.apply c.kernel).life.phase s) := by
      rw [news, hreport, map_none, toList_none, List.append_nil]
    have hlog : (c.next op).log s = news op c.kernel s ++ c.log s := rfl
    rw [hlog, hnews]
    exact hgoes.told (h.fits s) (h.told s)
  | some r =>
    obtain ⟨hr, hslot⟩ := filter_eq_some_iff.1 hreport
    obtain ⟨slot, status⟩ := r
    have hslot : slot = s := of_decide_eq_true hslot
    subst hslot
    obtain ⟨⟨exitCode, termSignal, hended, hstatus⟩, hgone⟩ := op.report_spec h.wf hr
    have habsent : (op.apply c.kernel).life.phase slot = .absent :=
      Life.phase_of_absent fun v hv => absurd rfl (hgone slot v hv).1
    have hnews : news op c.kernel slot =
        [.reported (exitStatus exitCode termSignal)] := by
      rw [news, hreport, hended, habsent, hstatus]
      rfl
    have hlog : (c.next op).log slot = news op c.kernel slot ++ c.log slot := rfl
    rw [hlog, hnews, habsent]
    have hfits := h.fits slot
    rw [hended] at hfits
    exact Phase.told_report hfits (h.told slot)

theorem Inv.next {c : Census} {op : ProcOp} (h : c.Inv) (hfault : op.FaultsAlive c.kernel) :
    (c.next op).Inv :=
  ⟨op.wf_apply h.wf, fun s => (h.told_next hfault s).1, fun s => (h.told_next hfault s).2⟩

/-- **The end of a process is reported once.**  Over every run from the start of the system
in which no process faults after its end: a process is a zombie exactly when its last thread
has exited, a wait reports an end at most once, with the status that was recorded at the end,
and then the slot does not belong to the process any more. -/
theorem ends_reported_once (clock : Clock) (entry esp : UInt32) (ops : List ProcOp)
    (hfaults : Every step (fun op c => op.FaultsAlive c.kernel) ops (init clock entry esp)) :
    Every step Lawful ops (init clock entry esp) := by
  refine every_of_inv Inv ?_ ?_ (inv_init clock entry esp) hfaults
  · intro op c r c' hc hop hrun
    cases hrun
    exact hc.next hop
  intro op c hc hop
  refine ⟨zombiesExited (op.wf_apply hc.wf), (hc.next hop).told, fun r hr s t ht => ?_⟩
  exact (op.report_spec hc.wf hr).2 s t.vital (life_eq_some ht)

/-- A child creates a thread and exits, and its parent waits for it. -/
def exitAndWait : List ProcOp :=
  [.addTask 0 0, .kernel (.timer userFrame none false),
    .call 0 userFrame (.spawn 0 (some (0, 0))), .kernel (.timer userFrame none false),
    .call 0 userFrame (.threadCreate 8 0 true), .kernel (.syscall 0 userFrame (.exitGroup 7)),
    .call 0 userFrame (.wait (-1) ⟨false, false, false⟩)]

set_option maxRecDepth 4000 in
theorem ends_reported_once_exitAndWait :
    ((exitAndWait.foldl (fun c op => c.next op) (init ⟨0, 0⟩ 0 0)).log 2 =
        [.reported 0x700, .ended 7 0, .born]) ∧ Every step Lawful exitAndWait (init ⟨0, 0⟩ 0 0) :=
  ⟨by decide +kernel, ends_reported_once ⟨0, 0⟩ 0 0 exitAndWait (by decide +kernel)⟩

/-- A child that runs on another processor is killed, and then faults. -/
def faultAfterKill : List ProcOp :=
  [.addTask 0 0, .kernel (.timer userFrame none false),
    .call 0 userFrame (.spawn 0 (some (0, 0))), .kernel (.apTimer 1 userFrame),
    .kernel (.syscall 0 userFrame (.kill 2 sigkill)), .kernel (.fault 1 userFrame 139),
    .call 0 userFrame (.wait (-1) ⟨false, false, false⟩)]

set_option maxRecDepth 4000 in
/-- The wait reports an exit with 139, and not that the child was killed. -/
theorem faultAfterKill_reports_other_status :
    ((faultAfterKill.foldl (fun c op => c.next op) (init ⟨0, 0⟩ 0 0)).log 2 =
        [.reported 0x8B00, .ended 137 sigkill, .born]) ∧
      ¬ Every step Lawful faultAfterKill (init ⟨0, 0⟩ 0 0) := by
  decide +kernel

end Census

end Felix.Kernel
