import Felix.Kernel.Biography
import Felix.Kernel.DeliverContract
import Felix.Kernel.Lineage

/-!
# Signals that stay pending

A signal whose action is to terminate the process is queued at the leader of the process.
It stays there, whatever the tasks do, until it is delivered or the process ends: `Holds`,
with a lemma for each function of the kernel that is not the delivery.
-/

namespace Felix.Kernel

open TaskManager

/-- The action of the signal is to terminate the process. -/
def Fatal (sig : Nat) : Prop := defaultTerminate &&& sigbit sig ≠ 0
  deriving Decidable

theorem mem_of_fatal {sig : Nat} (h : Fatal sig) : sig ∈ [1, 2, 3, 9, 15] := by
  have hsmall : ∀ sig < 32, Fatal sig → sig ∈ [1, 2, 3, 9, 15] := by decide
  by_cases hsig : sig < 32
  · exact hsmall sig hsig h
  unfold Fatal sigbit at h
  rw [if_pos (.inr (by omega))] at h
  exact absurd BitVec.and_zero h

/-- The process in a slot has ended, or the signal is pending. -/
def Holds (p : Slot) (sig : Nat) (m : TaskManager) : Prop :=
  ∃ t, m.tasks p = some t ∧ t.leaderSlot = some p ∧ (t.zombie = true ∨ t.Pending sig)

section

variable {p slot : Slot} {sig : Nat} {m m' : TaskManager} {log : List Event} {cpu : Nat}

theorem Becomes.holds (h : Becomes p id log m m') (hm : Holds p sig m) : Holds p sig m' := by
  obtain ⟨t, ht, hlead, hstate⟩ := hm
  obtain ⟨t', ht', hpending, -, hlead', hz⟩ := h.task t ht
  refine ⟨t', ht', hlead'.trans hlead, hstate.imp hz fun hsig => ?_⟩
  unfold Task.Pending
  rw [hpending]
  exact hsig

variable {f : Task → Task} {sig' : Nat} {t : Task} {leader : Slot} {test : Task → Bool} {e : Event}
  {reason : WaitReason} {status : Int}

section

variable (hf : ∀ t, (f t).leaderSlot = t.leaderSlot ∧ (t.zombie = true → (f t).zombie = true) ∧
  (t.Pending sig → (f t).Pending sig)) (hm : Holds p sig m)
include hf hm

theorem holds_of_map (htasks : m'.tasks p = (m.tasks p).map f) : Holds p sig m' := by
  obtain ⟨t, ht, hlead, hstate⟩ := hm
  refine ⟨f t, ?_, (hf t).1.trans hlead, hstate.imp (hf t).2.1 (hf t).2.2⟩
  rw [htasks, ht, Option.map_some]

theorem holds_modify : Holds p sig (m.modify slot f) := by
  by_cases hp : p = slot
  · subst hp
    exact holds_of_map hf hm (modify_self ..)
  · have hsame : Becomes p id [] m (m.modify slot f) := .modify_of_ne hp
    exact hsame.holds hm

theorem holds_onThreads : Holds p sig (m.onThreads leader test f e) := by
  refine holds_of_map (fun t => ?_) hm rfl
  split
  · exact hf t
  · exact ⟨rfl, id, id⟩

end

theorem holds_wakeWaiters (hm : Holds p sig m) : Holds p sig (m.wakeWaiters reason) :=
  Becomes.wakeWaiters.holds hm

theorem holds_schedule (hm : Holds p sig m) : Holds p sig (m.schedule cpu) :=
  Becomes.schedule.holds hm

/-! ## Sending -/

theorem pending_queue (h : t.Pending sig) : (t.queue sig').Pending sig := by
  have hbits : (t.queue sig').pendingSignals = t.pendingSignals ||| sigbit sig' := by
    unfold Task.queue
    dsimp only
    split <;> rfl
  unfold Task.Pending
  rw [hbits, BitVec.getLsbD_or, h, Bool.true_or]

theorem queue_same (t : Task) :
    (t.queue sig').leaderSlot = t.leaderSlot ∧ (t.queue sig').zombie = t.zombie := by
  unfold Task.queue
  dsimp only
  split <;> exact ⟨rfl, rfl⟩

theorem holds_sendSignal (hm : Holds p sig m) : Holds p sig (m.sendSignal slot sig').2 := by
  unfold sendSignal
  dsimp only
  split
  · exact hm
  split
  · exact hm
  split
  · exact hm
  have hqueue : Holds p sig (m.modify (m.processSlot slot) (Task.queue sig')) :=
    holds_modify (fun t => ⟨(queue_same t).1, fun hz => (queue_same t).2.trans hz,
      pending_queue⟩) hm
  exact hqueue

theorem pending_clear {mask : BitVec 31} (hmask : mask.getLsbD (sig - 1) = false)
    (hsig : sig - 1 < 31) (h : t.Pending sig) :
    (t.pendingSignals &&& ~~~mask).getLsbD (sig - 1) = true := by
  rw [BitVec.getLsbD_and, h, BitVec.getLsbD_not, hmask]
  simp [hsig]

/-- The signals that stop and continue a process do not terminate it. -/
theorem fatal_not_jobControl (hsig : Fatal sig) (hstop : sig' = sigstop ∨ isJobStop sig' = true) :
    (sigbit sig' ||| sigbit sigcont).getLsbD (sig - 1) = false ∧
      jobControl.getLsbD (sig - 1) = false ∧ sig - 1 < 31 := by
  have hstop : sig' ∈ [19, 20, 21, 22] := by
    rcases hstop with rfl | hstop
    · decide
    · simp only [isJobStop, Bool.or_eq_true, decide_eq_true_eq] at hstop
      rcases hstop with (rfl | rfl) | rfl <;> decide
  have hall : ∀ sig ∈ [1, 2, 3, 9, 15], ∀ sig' ∈ [19, 20, 21, 22],
      (sigbit sig' ||| sigbit sigcont).getLsbD (sig - 1) = false ∧
        jobControl.getLsbD (sig - 1) = false ∧ sig - 1 < 31 := by decide
  exact hall sig (mem_of_fatal hsig) sig' hstop

theorem holds_stopTaskWithSignal (hsig : Fatal sig)
    (hstop : sig' = sigstop ∨ isJobStop sig' = true) (hm : Holds p sig m) :
    Holds p sig (m.stopTaskWithSignal slot sig').2 := by
  obtain ⟨hmask, -, hlt⟩ := fatal_not_jobControl hsig hstop
  unfold stopTaskWithSignal
  dsimp only
  split
  · exact hm
  split
  · exact hm
  refine holds_wakeWaiters (holds_modify (fun t => ⟨rfl, id, fun h => ?_⟩) (holds_onThreads
    (fun t => ⟨rfl, id, id⟩) hm))
  exact pending_clear hmask hlt h

theorem holds_continueTask (hsig : Fatal sig) (hm : Holds p sig m) :
    Holds p sig (m.continueTask slot).2 := by
  obtain ⟨-, hmask, hlt⟩ := fatal_not_jobControl hsig (.inl rfl)
  have hresume : ∀ leader, Holds p sig (m.onThreads leader Task.live Task.resume .continued) :=
    fun leader => holds_onThreads (fun t => ⟨rfl, id, id⟩) hm
  unfold continueTask
  dsimp only
  split
  · exact hm
  split
  · exact hresume _
  · refine holds_wakeWaiters (holds_modify (fun t => ⟨rfl, id, fun h => ?_⟩) (hresume _))
    exact pending_clear hmask hlt h

theorem holds_forceKill (hm : Holds p sig m) : Holds p sig (m.forceKill slot sig').2 := by
  obtain ⟨t, ht, hlead, hstate⟩ := hm
  by_cases hp : p = m.processSlot slot
  · rcases @forceKill_cases m slot sig' with hsame | ⟨-, k, -, -, hlife⟩
    · rw [hsame]
      exact ⟨t, ht, hlead, hstate⟩
    · have hdead : (m.forceKill slot sig').2.life p = some ((t.vital.kill k).bury) := by
        rw [hlife, ← hp]
        simp [Life.kill, Life.change, Life.changeThreads, life_eq_some ht, Task.vital, hlead]
      obtain ⟨t', ht', hvital⟩ := Option.map_eq_some_iff.1 hdead
      have hlead' : t'.leaderSlot = t.leaderSlot := congrArg Vital.leaderSlot hvital
      exact ⟨t', ht', hlead'.trans hlead, .inl (congrArg Vital.zombie hvital)⟩
  · have hother : Becomes p id [] m (m.forceKill slot sig').2 := by
      refine .forceKill_other hp fun u hu => ?_
      rw [ht] at hu
      cases hu
      rw [hlead]
      exact fun h => hp (Option.some.inj h)
    exact hother.holds ⟨t, ht, hlead, hstate⟩

theorem sends_holds (hsig : Fatal sig) : Sends fun m m' => Holds p sig m → Holds p sig m' where
  refl := fun _ hm => hm
  trans := fun hfirst hthen hm => hthen (hfirst hm)
  kill := fun _ _ _ => holds_forceKill
  stop := fun _ _ _ => holds_stopTaskWithSignal hsig
  send := fun _ _ _ => holds_sendSignal
  resume := fun _ _ => holds_continueTask hsig

/-- The slot leads a process. -/
def Leads (p : Slot) (m : TaskManager) : Prop := (m.tasks p).map Task.leaderSlot = some (some p)

theorem leads_signalSlot (hm : Leads p m) : Leads p (m.signalSlot slot sig').2 := by
  have hdoes : Does ⟨fun _ => True, True⟩ p m (m.signalSlot slot sig').2 :=
    signalSlot_does fun _ => trivial
  exact hdoes.leaders.trans hm

theorem Alive.holds_forceKill {k : Nat} (h : Alive m p t) (hk : k ≠ 0) :
    ∃ t', (m.forceKill p k).2.tasks p = some t' ∧ t'.leaderSlot = some p ∧ t'.zombie = true := by
  obtain ⟨t', ht', -, -, hlead, hz⟩ := (h.forceKill_same hk).task _ (h.markDead_task k)
  exact ⟨t', ht', hlead.trans h.leader, hz rfl⟩

/-- What `signal_slot` does with the signals that terminate a process. -/
theorem signalSlot_fatal (hsig : Fatal sig) (hslot : slot ≠ 0) :
    (sig = sigkill ∧ m.signalSlot slot sig = m.forceKill slot sig) ∨
      m.signalSlot slot sig = m.sendSignal slot sig := by
  have hlist : ∀ sig ∈ [1, 2, 3, 9, 15], sig = sigkill ∨ (sig ≠ sigkill ∧ sig ≠ sigstop ∧
      isJobStop sig = false ∧ sig ≠ sigcont) := by decide
  unfold signalSlot
  rw [if_neg hslot]
  rcases hlist sig (mem_of_fatal hsig) with hkill | ⟨hkill, hstop, hjob, hcont⟩
  · exact .inl ⟨hkill, if_pos hkill⟩
  · right
    rw [if_neg hkill, if_neg hstop, hjob, if_neg Bool.false_ne_true, if_neg hcont]

/-- A signal that terminates is queued, unless the process is killed at once. -/
theorem holds_of_signalSlot (hsig : Fatal sig) (hp : p ≠ 0) (hm : Leads p m) :
    Holds p sig (m.signalSlot p sig).2 := by
  obtain ⟨t, ht, hlead⟩ := Option.map_eq_some_iff.1 hm
  have hself : m.processSlot p = p := by
    rw [processSlot, ht]
    exact congrArg (Option.getD · p) hlead
  have hbits : ∀ sig ∈ [1, 2, 3, 9, 15], (sigbit sig).getLsbD (sig - 1) = true ∧ sig ≠ 0 ∧
      ¬ 31 < sig := by decide
  obtain ⟨hbit, hzero, hlarge⟩ := hbits sig (mem_of_fatal hsig)
  rcases @signalSlot_fatal p sig m hsig hp with ⟨-, hkill⟩ | hsend
  · rw [hkill]
    cases hz : t.zombie with
    | true => exact holds_forceKill ⟨t, ht, hlead, .inl hz⟩
    | false =>
      have halive : Alive m p t := ⟨hp, ht, hlead, hz⟩
      obtain ⟨t', ht', hlead', hz'⟩ := halive.holds_forceKill hzero
      exact ⟨t', ht', hlead', .inl hz'⟩
  rw [hsend, sendSignal, if_neg (not_or.2 ⟨hp, not_or.2 ⟨hzero, hlarge⟩⟩)]
  simp only [hself, ht]
  split
  · exact ⟨t, ht, hlead, .inl ‹_›⟩
  refine ⟨t.queue sig, ?_, (queue_same t).1.trans hlead, .inr ?_⟩
  · show (m.modify p (Task.queue sig)).tasks p = _
    rw [modify_self, ht, Option.map_some]
  · have hqueue : (t.queue sig).pendingSignals = t.pendingSignals ||| sigbit sig := by
      unfold Task.queue
      dsimp only
      split <;> rfl
    unfold Task.Pending
    rw [hqueue, BitVec.getLsbD_or, hbit, Bool.or_true]

theorem holds_of_signalSlots (hsig : Fatal sig) (hp : p ≠ 0) {slots : List Slot}
    (hmem : p ∈ slots) (r : Bool × TaskManager) (hr : Leads p r.2) :
    Holds p sig (slots.foldl (fun r slot => ((r.1 || (r.2.signalSlot slot sig).1),
      (r.2.signalSlot slot sig).2)) r).2 := by
  induction slots generalizing r with
  | nil => cases hmem
  | cons slot slots ih =>
    rcases List.mem_cons.1 hmem with rfl | hmem
    · exact (sends_holds hsig).signalSlots sig slots _ (holds_of_signalSlot hsig hp hr)
    · exact ih hmem _ (leads_signalSlot hr)

theorem holds_of_sysKill {current : Slot} {pid : Int} (hsig : Fatal sig) (hp : p ≠ 0)
    (htarget : p ∈ m.killTargets current pid) (hm : Leads p m) :
    Holds p sig (m.sysKill current pid sig).2 := by
  have hrange : ∀ sig ∈ [1, 2, 3, 9, 15], ¬ (sig = 0 ∨ 31 < sig) := by decide
  unfold sysKill
  rw [if_neg (hrange sig (mem_of_fatal hsig))]
  exact holds_of_signalSlots hsig hp htarget (false, m) hm

/-! ## Waiting and exiting -/

theorem holds_sysSigaction {handler : UInt32} (hm : Holds p sig m) :
    Holds p sig (m.sysSigaction slot sig' handler).2 := by
  unfold sysSigaction
  split
  · exact hm
  · exact holds_modify (fun t => ⟨rfl, id, id⟩) hm

theorem holds_blockAndRestart {wait : NetworkWait} (hm : Holds p sig m) :
    Holds p sig (m.blockAndRestart cpu slot reason wait) := by
  have hlater : Becomes p id [] m (m.modify slot (restartLater reason wait)) := by
    refine .modify fun t => ?_
    unfold restartLater Task.block
    split <;> rfl
  exact holds_schedule (hlater.holds hm)

theorem holds_finishProcess (hm : Holds p sig m) : Holds p sig (m.finishProcess slot status) := by
  have hfinish : Holds p sig (m.modify slot (finishLeader status)) :=
    holds_modify (fun t => ⟨rfl, fun _ => rfl, id⟩) hm
  exact holds_wakeWaiters (holds_wakeWaiters (Becomes.reparentChildrenOf.holds hfinish))

theorem holds_sysExit (hm : Holds p sig m) : Holds p sig (m.sysExit cpu slot status) := by
  unfold sysExit
  split
  · exact holds_schedule hm
  · exact holds_schedule (holds_finishProcess (holds_onThreads (fun t => ⟨rfl, id, id⟩) hm))

theorem holds_sysThreadExit {value : UInt32} (hm : Holds p sig m) :
    Holds p sig (m.sysThreadExit cpu slot value) := by
  have hexit : Holds p sig (m.modify slot (exitThread value)) :=
    holds_modify (fun t => ⟨rfl, id, id⟩) hm
  have hwoken : Holds p sig (((m.modify slot (exitThread value)).record slot
      .exited).wakeWaiters .thread) := holds_wakeWaiters hexit
  unfold sysThreadExit
  dsimp only
  split
  · exact holds_schedule hm
  split
  · exact holds_schedule (holds_finishProcess hwoken)
  · exact holds_schedule hwoken

end

/-! ## Creating and reaping -/

/-- The task in a slot leads a process that has not ended. -/
structure Stands (p : Slot) (v : Vital) (m : TaskManager) : Prop where
  wf : m.life.Wf
  life : m.life p = some v
  leader : v.leaderSlot = some p
  alive : v.zombie = false

namespace Stands

variable {p slot : Slot} {v : Vital} {m m' : TaskManager}

theorem reaped (h : Stands p v m) (hreaped : TaskManager.Reaped m m') : Stands p v m' :=
  ⟨hreaped.wf h.wf, hreaped.life.stays h.wf h.life h.leader h.alive, h.leader, h.alive⟩

theorem vital_eq {t : Task} (h : Stands p v m) (ht : m.tasks p = some t) : v = t.vital :=
  Option.some.inj (h.life.symm.trans (life_eq_some ht))

/-- The calls of `Process` reap and create other tasks, and leave the signals of a process
that has not ended. -/
theorem holds {m₁ : TaskManager} {sig : Nat} {R : Slot → Int → Int → Prop} (h : Stands p v m)
    (hcleared : TaskManager.Cleared m m₁) (hacts : TaskManager.Acts R m₁ m')
    (hm : Holds p sig m) : Holds p sig m' := by
  obtain ⟨t, ht, -, hstate⟩ := hm
  have hstands := h.reaped hcleared.toReaped
  have hphase : m'.life.phase p = .alive := by
    rcases hacts.life.phase p with hsame | ⟨hfree, -⟩
    · rw [hsame]
      exact Life.phase_of_alive hstands.life h.leader h.alive
    · rw [hstands.life] at hfree
      cases hfree
  obtain ⟨v', hv', hlead, -⟩ := Life.exists_of_phase_alive hphase
  obtain ⟨t₁, ht₁, -⟩ := Option.map_eq_some_iff.1 hstands.life
  obtain ⟨t', ht', rfl⟩ := Option.map_eq_some_iff.1 hv'
  obtain ⟨u, hu, hsame⟩ := hcleared.signals ht₁
  rw [ht] at hu
  cases hu
  refine ⟨t', ht', hlead, .inr ?_⟩
  unfold Task.Pending
  rw [hacts.signals ht₁ ht', hsame]
  refine hstate.resolve_left fun hz => ?_
  have halive := h.alive
  rw [h.vital_eq ht] at halive
  exact absurd (halive.symm.trans hz) Bool.false_ne_true

end Stands

end Felix.Kernel
