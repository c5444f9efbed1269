import Felix.Kernel.Lives

/-!
# How tasks come and go

What the system calls of `Process` do to the lives of the tasks.  A call first reaps what
has ended, and then creates a task or puts a process into another group: `Reaped` and
`Life.Act`.  What follows, the delivery of signals for instance, can only end tasks.
`acts_of_admitted` and `ends_of_admitted` say this for every call.
-/

namespace Felix.Kernel

open TaskManager Option

namespace TaskManager

variable {m m' m'' : TaskManager} {slot : Slot} {cpu : Nat}

/-! ## Reaping -/

/-- Tasks that have ended were reaped between the two states. -/
structure Reaped (m m' : TaskManager) : Prop where
  nextPid : m'.nextPid = m.nextPid
  life : Life.Reaps m.life m'.life

theorem Reaped.of_life (hpid : m'.nextPid = m.nextPid) (h : m'.life = m.life) : Reaped m m' := by
  refine ⟨hpid, ?_⟩
  rw [h]
  exact .refl

theorem Reaped.refl (m : TaskManager) : Reaped m m := .of_life rfl rfl

theorem Reaped.trans (h : Reaped m m') (h' : Reaped m' m'') : Reaped m m'' :=
  ⟨h'.nextPid.trans h.nextPid, Relation.ReflTransGen.trans h.life h'.life⟩

theorem Reaped.wf (h : Reaped m m') (hm : m.life.Wf) : m'.life.Wf := h.life.wf hm

/-- Tasks that have ended were reaped, and no signal of another one was lost or sent. -/
structure Cleared (m m' : TaskManager) : Prop extends Reaped m m' where
  signals : ∀ {s t'}, m'.tasks s = some t' →
    ∃ t, m.tasks s = some t ∧ t'.pendingSignals = t.pendingSignals

theorem Cleared.trans (h : Cleared m m') (h' : Cleared m' m'') : Cleared m m'' := by
  refine ⟨h.toReaped.trans h'.toReaped, fun ht'' => ?_⟩
  obtain ⟨t', ht', heq'⟩ := h'.signals ht''
  obtain ⟨t, ht, heq⟩ := h.signals ht'
  exact ⟨t, ht, heq'.trans heq⟩

/-- Tasks are changed in other ways. -/
theorem Cleared.of_map {f : Slot → Task → Task} (hpid : m'.nextPid = m.nextPid)
    (htasks : ∀ s, m'.tasks s = (m.tasks s).map (f s) ∨ m'.tasks s = m.tasks s)
    (hf : ∀ s t, (f s t).vital = t.vital ∧ (f s t).pendingSignals = t.pendingSignals) :
    Cleared m m' := by
  refine ⟨.of_life hpid (funext fun s => ?_), fun {s t'} ht' => ?_⟩
  · unfold life
    rcases htasks s with h | h
    · rw [h, Option.map_map]
      exact congrArg (Option.map · _) (funext fun t => (hf s t).1)
    · rw [h]
  · rcases htasks s with h | h
    · rw [h] at ht'
      obtain ⟨t, ht, rfl⟩ := map_eq_some_iff.1 ht'
      exact ⟨t, ht, (hf s t).2⟩
    · exact ⟨t', h.symm.trans ht', rfl⟩

theorem Cleared.refl (m : TaskManager) : Cleared m m :=
  .of_map rfl (fun _ => .inr rfl) (f := fun _ t => t) fun _ _ => ⟨rfl, rfl⟩

theorem Cleared.modify {f : Task → Task}
    (hf : ∀ t, (f t).vital = t.vital ∧ (f t).pendingSignals = t.pendingSignals) :
    Cleared m (m.modify slot f) := by
  refine .of_map rfl (fun s => ?_) fun _ => hf
  by_cases hs : s = slot
  · subst hs
    exact .inl (modify_self ..)
  · exact .inr (modify_of_ne hs)

theorem Cleared.foldl {f : TaskManager → Slot → TaskManager} (hf : ∀ m slot, Cleared m (f m slot))
    (slots : List Slot) : Cleared m (slots.foldl f m) := by
  induction slots generalizing m with
  | nil => exact .refl m
  | cons slot slots ih => exact (hf m slot).trans ih

theorem Cleared.drop {test : Slot → Task → Bool} (h : Life.Reap m.life (m.drop test).life) :
    Cleared m (m.drop test) :=
  ⟨⟨rfl, .single h⟩, fun ht' => ⟨_, (filter_eq_some_iff.1 ht').1, rfl⟩⟩

theorem life_drop {test : Slot → Task → Bool} (test' : Slot → Vital → Bool)
    (h : ∀ s t, test s t = test' s t.vital) : (m.drop test).life = m.life.without test' := by
  funext s
  simp only [life, drop, Life.without]
  cases m.tasks s with
  | none => rfl
  | some t =>
    simp only [map_some, filter_some, h]
    split <;> rfl

theorem cleared_reparentChildrenOf (deadPid : Int) :
    Cleared m (m.reparentChildrenOf deadPid) := by
  unfold reparentChildrenOf
  split
  · exact .refl m
  · refine .of_map rfl (fun _ => .inl rfl) fun _ t => ?_
    split <;> exact ⟨rfl, rfl⟩

/-- `reap` does nothing, or takes out a process that has ended. -/
theorem reap_cases : m.reap slot = (false, m) ∨ slot ≠ 0 ∧ ∃ t, m.tasks slot = some t ∧
    t.zombie = true ∧ (m.reap slot).2.life = (m.life.without fun s v =>
      s = slot || v.leaderSlot = some slot) ∧ (m.reap slot).2 =
        (m.reparentChildrenOf t.pid).drop fun s t => s = slot || t.leaderSlot = some slot := by
  unfold reap
  split
  · exact .inl rfl
  rename_i hslot
  split
  · exact .inl rfl
  rename_i t ht
  split
  · exact .inl rfl
  rename_i hz
  refine .inr ⟨fun h => hslot (.inl h), t, ht, Bool.eq_true_of_not_eq_false hz, ?_, rfl⟩
  have hdrop := @life_drop (m.reparentChildrenOf t.pid)
    (fun s t => s = slot || t.leaderSlot = some slot)
    (fun s v => s = slot || v.leaderSlot = some slot) fun _ _ => rfl
  rw [hdrop, life_reparentChildrenOf]

theorem cleared_reap : Cleared m (m.reap slot).2 := by
  rcases @reap_cases m slot with hsame | ⟨hslot, t, ht, hz, hlife, heq⟩
  · rw [hsame]
    exact .refl m
  rw [heq] at hlife ⊢
  refine (cleared_reparentChildrenOf t.pid).trans (.drop ?_)
  rw [hlife, life_reparentChildrenOf]
  exact .process hslot (life_eq_some ht) hz

theorem gone_of_reap (h : (m.reap slot).1 = true) {s : Slot} {v : Vital}
    (hv : (m.reap slot).2.life s = some v) : s ≠ slot ∧ v.leaderSlot ≠ some slot := by
  rcases @reap_cases m slot with hsame | ⟨-, t, -, -, hlife, -⟩
  · rw [hsame] at h
    cases h
  · rw [hlife, Life.without_eq_some] at hv
    simpa using hv.2

theorem cleared_reapThread : Cleared m (m.reapThread slot).2 := by
  unfold reapThread
  split
  · exact .refl m
  rename_i hslot
  split
  · rename_i hthread
    cases ht : m.tasks slot with
    | none =>
      rw [ht] at hthread
      cases hthread
    | some t =>
      rw [ht, any_some, Bool.and_eq_true] at hthread
      refine .drop ?_
      rw [life_drop (fun s _ => s = slot) fun _ _ => rfl]
      exact .thread (fun h => hslot (.inl h)) (life_eq_some ht) hthread.1 hthread.2
  · exact .refl m

theorem cleared_reapDetachedThreads : Cleared m m.reapDetachedThreads := by
  refine Cleared.foldl (fun m slot => ?_) _
  split
  · exact cleared_reapThread
  · exact .refl m

theorem cleared_reapOrphans : Cleared m m.reapOrphans := by
  unfold reapOrphans
  split
  · refine .of_map rfl (fun _ => .inl rfl) fun s t => ?_
    split <;> exact ⟨rfl, rfl⟩
  · exact Cleared.foldl (fun m slot => cleared_reap) _

theorem cleared_getFreeSlot : Cleared m m.getFreeSlot.2 :=
  cleared_reapDetachedThreads.trans cleared_reapOrphans

theorem getFreeSlot_free (h : m.getFreeSlot.1 = some slot) : m.getFreeSlot.2.life slot = none := by
  have hfree := List.find?_some h
  simp only [isNone_iff_eq_none] at hfree
  rw [life, map_eq_none_iff]
  exact hfree

/-! ## Births -/

variable {R : Slot → Int → Int → Prop} (entry esp : UInt32)

theorem allocPid_pos : 0 < m.allocPid.1 := by
  have : (1 : Int) ≤ max m.nextPid 1 := le_max_right _ _
  exact this

/-- A task without signals is created, or a process is put into another group, and the
signals of the tasks that were there stay. -/
structure Acts (R : Slot → Int → Int → Prop) (m m' : TaskManager) : Prop where
  life : Life.Act R m.life m'.life
  signals : ∀ {s t t'}, m.tasks s = some t → m'.tasks s = some t' →
    t'.pendingSignals = t.pendingSignals
  fresh : ∀ {s t'}, m.tasks s = none → m'.tasks s = some t' → t'.pendingSignals = 0

theorem Acts.nothing (htasks : m'.tasks = m.tasks) : Acts R m m' := by
  refine ⟨?_, fun ht ht' => ?_, fun ht ht' => ?_⟩
  · unfold TaskManager.life
    rw [htasks]
    exact .nothing
  · rw [htasks, ht] at ht'
    cases ht'
    rfl
  · rw [htasks, ht] at ht'
    cases ht'

theorem Acts.publish {t : Task} (hfree : m.life slot = none) (ht : t.pendingSignals = 0)
    (htasks : m'.tasks = Function.update m.tasks slot (some t))
    (h : Life.Act R m.life (Function.update m.life slot (some t.vital))) : Acts R m m' := by
  have hlife : m'.life = Function.update m.life slot (some t.vital) := by
    funext s
    by_cases hs : s = slot
    · subst hs
      simp [TaskManager.life, htasks]
    · simp [TaskManager.life, htasks, hs]
  refine ⟨hlife ▸ h, fun {s u u'} hu hu' => ?_, fun {s u'} hu hu' => ?_⟩
  · have hs : s ≠ slot := by
      rintro rfl
      rw [life_eq_some hu] at hfree
      cases hfree
    rw [htasks, Function.update_of_ne hs, hu] at hu'
    cases hu'
    rfl
  · by_cases hs : s = slot
    · subst hs
      rw [htasks, Function.update_self] at hu'
      cases hu'
      exact ht
    · rw [htasks, Function.update_of_ne hs, hu] at hu'
      cases hu'

theorem Acts.modify {f : Task → Task} (h : Life.Act R m.life (m.modify slot f).life)
    (hf : ∀ t, (f t).pendingSignals = t.pendingSignals) : Acts R m (m.modify slot f) := by
  refine ⟨h, fun {s t t'} ht ht' => ?_, fun {s t'} ht ht' => ?_⟩ <;> by_cases hs : s = slot
  · subst hs
    rw [modify_self, ht] at ht'
    cases ht'
    exact hf t
  · rw [modify_of_ne hs, ht] at ht'
    cases ht'
    rfl
  · subst hs
    rw [modify_self, ht] at ht'
    cases ht'
  · rw [modify_of_ne hs, ht] at ht'
    cases ht'

/-- What holds of the group and the session of a new process, and of the free slot that it
gets. -/
def Spawns (R : Slot → Int → Int → Prop) (parent : Slot) (requested : Int) (m : TaskManager) :
    Prop :=
  ∀ slot pgid, m.life slot = none →
    m.spawnPgid parent requested m.allocPid.1 (m.spawnSid parent m.allocPid.1) = some pgid →
      R slot pgid (m.spawnSid parent m.allocPid.1)

theorem acts_sysSpawnImage {parent : Slot} {requested : Int}
    (image : Option (UInt32 × UInt32)) (h : Spawns R parent requested m.getFreeSlot.2) :
    Acts R m.getFreeSlot.2 (m.sysSpawnImage parent requested image).2 := by
  unfold sysSpawnImage
  have hfree := @getFreeSlot_free m
  generalize m.getFreeSlot = r at h hfree
  obtain ⟨o, m₁⟩ := r
  cases o with
  | none => exact .nothing rfl
  | some slot =>
    have hgroup : m₁.allocPid.2.spawnPgid parent requested m₁.allocPid.1
        (m₁.allocPid.2.spawnSid parent m₁.allocPid.1) = m₁.spawnPgid parent requested m₁.allocPid.1
          (m₁.spawnSid parent m₁.allocPid.1) := rfl
    dsimp only
    rw [hgroup]
    cases hpgid : m₁.spawnPgid parent requested m₁.allocPid.1
        (m₁.spawnSid parent m₁.allocPid.1) with
    | none => exact .nothing rfl
    | some pgid =>
      cases image with
      | none => exact .nothing rfl
      | some image =>
        exact .publish (hfree rfl) rfl rfl
          (.spawn (hfree rfl) allocPid_pos (h slot pgid (hfree rfl) hpgid))

theorem acts_addTask (h : ∀ slot, m.getFreeSlot.2.life slot = none →
      R slot m.getFreeSlot.2.allocPid.1 m.getFreeSlot.2.allocPid.1) :
    Acts R m.getFreeSlot.2 (m.addTask entry esp) := by
  unfold addTask
  have hfree := @getFreeSlot_free m
  generalize m.getFreeSlot = r at h hfree
  obtain ⟨o, m₁⟩ := r
  cases o with
  | none => exact .nothing rfl
  | some slot =>
    exact .publish (hfree rfl) rfl rfl (.spawn (hfree rfl) allocPid_pos (h slot (hfree rfl)))

variable {leader current caller : Slot}

theorem acts_sysThreadCreate (stackFree : Bool)
    (hlead : ∀ w, m.getFreeSlot.2.life leader = some w → w.leaderSlot = some leader) :
    Acts R (if leader = 0 ∨ entry = 0 then m else m.getFreeSlot.2)
      (m.sysThreadCreate leader entry esp stackFree).2 := by
  unfold sysThreadCreate
  split
  · exact .nothing rfl
  rename_i hleader
  have hfree := @getFreeSlot_free m
  generalize m.getFreeSlot = r at hlead hfree
  obtain ⟨o, m₁⟩ := r
  cases o with
  | none => exact .nothing rfl
  | some slot =>
    dsimp only
    split
    · exact .nothing rfl
    rename_i l hl
    split
    · exact .nothing rfl
    rename_i hz
    split
    · exact .nothing rfl
    have hw : m₁.life leader = some l.vital := life_eq_some hl
    exact .publish (hfree rfl) rfl rfl (.thread (hfree rfl) (fun h => hleader (.inl h)) hw
      (hlead _ hw) (Bool.eq_false_of_not_eq_true hz))

/-! ## Threads and children -/

theorem cleared_sysThreadJoin (tid : Int) : Cleared m (m.sysThreadJoin leader caller tid).2 := by
  unfold sysThreadJoin
  split
  · exact .refl m
  split
  · exact .refl m
  split
  · exact .refl m
  split
  · exact .refl m
  split
  · exact .refl m
  split
  · exact .refl m
  split
  · exact .refl m
  · exact cleared_reapThread

theorem cleared_sysThreadDetach (tid : Int) :
    Cleared m (m.sysThreadDetach leader caller tid).2 := by
  have hmodify : ∀ slot, Cleared m (m.modify slot fun t => { t with threadDetached := true }) :=
    fun slot => .modify fun _ => ⟨rfl, rfl⟩
  unfold sysThreadDetach
  split
  · exact .refl m
  split
  · exact .refl m
  split
  · exact .refl m
  split
  · exact .refl m
  split
  · exact (hmodify _).trans cleared_reapThread
  · exact hmodify _

theorem cleared_sysWaitStatus (pid : Int) (options : WaitOptions) :
    Cleared m (m.sysWaitStatus current pid options).2.2 := by
  unfold sysWaitStatus
  split
  · exact .refl m
  split
  · exact .refl m
  dsimp only
  split
  · split
    · exact .refl m
    · exact cleared_reap
  · exact .modify fun _ => ⟨rfl, rfl⟩
  · exact .modify fun _ => ⟨rfl, rfl⟩
  split
  · exact .refl m
  split
  · exact .refl m
  · exact .refl m

/-! ## Groups -/

theorem slotByPid_eq_some {pid : Int} (h : m.slotByPid pid = some slot) :
    ∃ t, m.tasks slot = some t ∧ t.pid = pid ∧ t.leaderSlot = some slot := by
  have hfound := List.find?_some h
  cases ht : m.tasks slot with
  | none =>
    rw [ht] at hfound
    cases hfound
  | some t =>
    simp only [ht, any_some, Bool.and_eq_true, decide_eq_true_eq] at hfound
    exact ⟨t, rfl, hfound⟩

/-- There is a task of the group in the session. -/
theorem member_of_any {pgid sid : Int} (h : (List.finRange 32).any
    (fun s => (m.tasks s).any fun t => t.pgid = pgid && t.sid = sid) = true) :
    ∃ s w, m.life s = some w ∧ w.pgid = pgid ∧ w.sid = sid := by
  obtain ⟨s, -, hs⟩ := List.any_eq_true.1 h
  cases ht : m.tasks s with
  | none =>
    rw [ht] at hs
    cases hs
  | some t =>
    simp only [ht, any_some, Bool.and_eq_true, decide_eq_true_eq] at hs
    exact ⟨s, t.vital, life_eq_some ht, hs⟩

theorem life_regroup {t : Task} (ht : m.tasks slot = some t) (pgid : Int) :
    (m.modify slot fun t => { t with pgid := pgid }).life =
      m.life.change slot (Vital.regroup pgid t.sid) := by
  funext s
  by_cases hs : s = slot
  · subst hs
    simp [life, modify, Life.change, ht, Task.vital, Vital.regroup]
  · simp [life, modify, Life.change, hs]

/-- The process whose group `sys_setpgid` changes. -/
def setpgidTarget (m : TaskManager) (current : Slot) (pid : Int) : Int :=
  if pid = 0 then ((m.tasks current).map Task.pid).getD (-1) else pid

/-- What holds of the group that a process is put into. -/
def Regroups (R : Slot → Int → Int → Prop) (current : Slot) (pid pgid : Int) (m : TaskManager) :
    Prop :=
  ∀ slot v, m.life slot = some v → v.pid = m.setpgidTarget current pid →
    v.sid = ((m.tasks current).map Task.sid).getD (-1) →
      (let new := if pgid = 0 then v.pid else pgid
      (new = v.pid ∨ ∃ s w, m.life s = some w ∧ w.pgid = new ∧ w.sid = v.sid) → R slot new v.sid)

theorem acts_sysSetpgid {pid pgid : Int} (h : Regroups R current pid pgid m) :
    Acts R m (m.sysSetpgid current pid pgid).2 := by
  have htarget : (if pid = 0 then ((m.tasks current).map Task.pid).getD (-1) else pid) =
      m.setpgidTarget current pid := rfl
  unfold sysSetpgid
  simp only [htarget]
  generalize hnew : (if pgid = 0 then m.setpgidTarget current pid else pgid) = new
  split
  · exact .nothing rfl
  rename_i slot hslot
  obtain ⟨t, ht, hpid, -⟩ := slotByPid_eq_some hslot
  simp only [ht]
  split
  · exact .nothing rfl
  split
  · exact .nothing rfl
  rename_i hsid
  split
  · exact .nothing rfl
  rename_i hjoin
  refine .modify ?_ fun _ => rfl
  rw [life_regroup ht]
  have hvalue : (if pgid = 0 then t.vital.pid else pgid) = new := by
    rw [← hnew, ← hpid]
    rfl
  have hR := h slot t.vital (life_eq_some ht) hpid (not_not.1 hsid)
  simp only [hvalue] at hR
  refine .regroup (life_eq_some ht) (hR ?_)
  rcases not_and_or.1 hjoin with hown | hany
  · exact .inl ((not_not.1 hown).trans hpid.symm)
  · exact .inr (member_of_any (Bool.eq_true_of_not_eq_false hany))

theorem acts_sysSetsid (h : ∀ v, m.life current = some v → v.pgid ≠ v.pid → R current v.pid v.pid) :
    Acts R m (m.sysSetsid current).2 := by
  unfold sysSetsid
  split
  · exact .nothing rfl
  rename_i t ht
  split
  · exact .nothing rfl
  rename_i hleader
  refine .modify ?_ fun _ => rfl
  have hregroup : (m.modify current fun t => { t with sid := t.pid, pgid := t.pid }).life =
      m.life.change current (Vital.regroup t.pid t.pid) := by
    funext s
    by_cases hs : s = current
    · subst hs
      simp [life, modify, Life.change, ht, Task.vital, Vital.regroup]
    · simp [life, modify, Life.change, hs]
  rw [hregroup]
  exact .regroup (life_eq_some ht) (h t.vital (life_eq_some ht) hleader)

/-! ## Calls -/

theorem life_finishWait {thread : Slot} (reason : WaitReason) (ret : UInt32) :
    (m.finishWait cpu thread reason ret).life = m.life := by
  unfold finishWait
  split
  · exact life_blockAndRestart _ _
  · exact life_setEax _

end TaskManager

namespace ProcCall

variable {m m' : TaskManager} {thread current : Slot} {cpu : Nat} {again : Prop} (c : ProcCall)

/-- The state behind a call, before its result is given to the task. -/
def after (c : ProcCall) (thread current : Slot) (m : TaskManager) : TaskManager :=
  match c with
  | .spawn requested image => (m.sysSpawnImage current requested image).2
  | .threadCreate entry esp stackFree => (m.sysThreadCreate current entry esp stackFree).2
  | .threadJoin tid => (m.sysThreadJoin current thread tid).2
  | .threadDetach tid => (m.sysThreadDetach current thread tid).2
  | .wait pid options => (m.sysWaitStatus current pid options).2.2
  | .setpgid pid pgid => (m.sysSetpgid current pid pgid).2
  | .setsid => (m.sysSetsid current).2

/-- What holds of the groups and sessions that a call gives to processes. -/
def Grants (R : Slot → Int → Int → Prop) (c : ProcCall) (current : Slot) (m : TaskManager) : Prop :=
  match c with
  | .spawn requested _ => TaskManager.Spawns R current requested m
  | .setpgid pid pgid => TaskManager.Regroups R current pid pgid m
  | .setsid => ∀ v, m.life current = some v → v.pgid ≠ v.pid → R current v.pid v.pid
  | _ => True

theorem grants_of_forall {R : Slot → Int → Int → Prop} (h : ∀ s pgid sid, R s pgid sid) :
    c.Grants R current m := by
  cases c with
  | spawn requested image => exact fun _ _ _ _ => h _ _ _
  | setpgid pid pgid => exact fun _ _ _ _ _ _ => h _ _ _
  | setsid => exact fun _ _ _ => h _ _ _
  | threadCreate => trivial
  | threadJoin => trivial
  | threadDetach => trivial
  | wait => trivial

theorem ends_performProc :
    TaskManager.Ends again (c.after thread current m) (m.performProc cpu thread current c) := by
  cases c with
  | spawn => exact ends_finishCall _
  | threadCreate => exact ends_finishCall _
  | threadJoin => exact .of_life (life_finishWait _ _)
  | threadDetach => exact ends_finishCall _
  | wait => exact .of_life (life_finishWait _ _)
  | setpgid => exact ends_finishCall _
  | setsid => exact ends_finishCall _

/-- A call reaps tasks that have ended, and then creates or regroups one. -/
theorem after_cases (thread : Slot) {R : Life → Slot → Int → Int → Prop} (c : ProcCall)
    (hcurrent : ∀ w, m.life current = some w → w.leaderSlot = some current)
    (hR : ∀ m', TaskManager.Reaped m m' → c.Grants (R m'.life) current m') :
    ∃ m', TaskManager.Cleared m m' ∧
      TaskManager.Acts (R m'.life) m' (c.after thread current m) := by
  cases c with
  | spawn requested image =>
    have hcleared : TaskManager.Cleared m m.getFreeSlot.2 := cleared_getFreeSlot
    exact ⟨_, hcleared, acts_sysSpawnImage image (hR _ hcleared.toReaped)⟩
  | threadCreate entry esp stackFree =>
    have hcleared : TaskManager.Cleared m m.getFreeSlot.2 := cleared_getFreeSlot
    refine ⟨_, ?_, acts_sysThreadCreate entry esp stackFree
      fun w hw => hcurrent w (hcleared.life.was hw)⟩
    split
    · exact .refl m
    · exact hcleared
  | threadJoin tid => exact ⟨_, cleared_sysThreadJoin tid, .nothing rfl⟩
  | threadDetach tid => exact ⟨_, cleared_sysThreadDetach tid, .nothing rfl⟩
  | wait pid options => exact ⟨_, cleared_sysWaitStatus pid options, .nothing rfl⟩
  | setpgid pid pgid => exact ⟨m, .refl m, acts_sysSetpgid (hR m (.refl m))⟩
  | setsid => exact ⟨m, .refl m, acts_sysSetsid (hR m (.refl m))⟩

end ProcCall

namespace TaskManager

variable {m : TaskManager} {cpu : Nat}

/-- The task whose call happens, if there is one. -/
def admitted (cpu : Nat) (frame : Frame) (m : TaskManager) : Option Slot :=
  (m.onCpu cpu).filter fun thread => !(m.saveFrame cpu frame).barred thread

/-- The state in which a call happens. -/
def entered (cpu : Nat) (frame : Frame) (m : TaskManager) : TaskManager :=
  (m.saveFrame cpu frame).reapDetachedThreads

theorem reaped_entered (frame : Frame) : Reaped m (m.entered cpu frame) := by
  have hsave : Cleared m (m.saveFrame cpu frame) := by
    unfold saveFrame
    split
    · exact .refl m
    · exact .modify fun _ => ⟨rfl, rfl⟩
  exact (hsave.trans cleared_reapDetachedThreads).toReaped

theorem processSlot_saveFrame (frame : Frame) (s : Slot) :
    (m.saveFrame cpu frame).processSlot s = m.processSlot s := by
  rw [← processSlot_life, ← processSlot_life, life_saveFrame]

variable {frame : Frame} {thread : Slot} (c : ProcCall) (clock : Clock) (entry esp : UInt32)
  {again : Prop}

/-- A task whose call happens is alive. -/
theorem live_of_admitted (h : m.admitted cpu frame = some thread) :
    ∃ v, m.life thread = some v ∧ v.threadExited = false := by
  rw [admitted, filter_eq_some_iff, Bool.not_eq_true'] at h
  obtain ⟨t, ht⟩ := calls_of_not_barred (Bool.eq_false_iff.1 h.2)
  refine ⟨t.vital, ?_, ht.live⟩
  rw [← @life_saveFrame m cpu frame]
  exact life_eq_some ht.task

/-- If no call happens, tasks may have ended at most. -/
theorem ends_of_not_admitted
    (h : m.admitted cpu frame = none) : Ends again m (m.procHandler cpu frame c) := by
  unfold procHandler
  split
  · exact .of_life rfl
  rename_i thread hthread
  have hbarred : (m.saveFrame cpu frame).barred thread = true := by
    simpa [admitted, hthread] using h
  dsimp only
  rw [if_pos hbarred]
  exact (Ends.of_life (life_schedule.trans (life_saveFrame frame))).trans ends_deliverPending

theorem procHandler_of_admitted
    (h : m.admitted cpu frame = some thread) : m.procHandler cpu frame c =
      ((m.entered cpu frame).performProc cpu thread
        (m.processSlot thread) c).deliverPending cpu := by
  rw [admitted, filter_eq_some_iff, Bool.not_eq_true'] at h
  simp only [procHandler, h.1, h.2]
  rw [if_neg Bool.false_ne_true, processSlot_saveFrame]
  rfl

theorem ends_of_admitted (h : m.admitted cpu frame = some thread) :
    Ends again (c.after thread (m.processSlot thread) (m.entered cpu frame))
      (m.procHandler cpu frame c) := by
  rw [procHandler_of_admitted c h]
  exact (ProcCall.ends_performProc c).trans ends_deliverPending

/-- The process of a task whose call happens is there, also when tasks were reaped. -/
theorem leader_of_admitted (hm : m.life.Wf) (h : m.admitted cpu frame = some thread) :
    ∃ w, m.life (m.processSlot thread) = some w ∧
      w.leaderSlot = some (m.processSlot thread) ∧ w.zombie = false := by
  obtain ⟨v, hv, hlive⟩ := live_of_admitted h
  obtain ⟨p, w, hp, hw, hlead⟩ := hm.leader hv
  rw [hm.leaderSlot_eq hv, processSlot_life] at hp
  cases hp
  refine ⟨w, hw, hlead, hm.alive hv hlive ?_⟩
  rw [processSlot_life]
  exact hw

/-- What a call does to the lives of the tasks, before its result is given to its task. -/
theorem acts_of_admitted {R : Life → Slot → Int → Int → Prop} (hm : m.life.Wf)
    (h : m.admitted cpu frame = some thread)
    (hR : ∀ {m'} {w}, Reaped m m' → m.life (m.processSlot thread) = some w →
      m'.life (m.processSlot thread) = some w → c.Grants (R m'.life) (m.processSlot thread) m') :
    ∃ m', Reaped m m' ∧ Acts (R m'.life) m'
      (c.after thread (m.processSlot thread) (m.entered cpu frame)) := by
  obtain ⟨w, hw, hlead, hz⟩ := leader_of_admitted hm h
  have hentered := @reaped_entered m cpu frame
  have hstays : ∀ {m'}, Reaped m m' → m'.life (m.processSlot thread) = some w :=
    fun hreaped => hreaped.life.stays hm hw hlead hz
  have hcurrent : ∀ u, (m.entered cpu frame).life (m.processSlot thread) = some u →
      u.leaderSlot = some (m.processSlot thread) := by
    intro u hu
    rw [hstays hentered] at hu
    cases hu
    exact hlead
  obtain ⟨m', hcleared, hact⟩ := c.after_cases thread hcurrent fun m' hreaped =>
    hR (hentered.trans hreaped) hw (hstays (hentered.trans hreaped))
  exact ⟨m', hentered.trans hcleared.toReaped, hact⟩

/-! ## The start -/

theorem life_init : (init clock entry esp).life =
    Function.update (fun _ => none) 0 (some (.newborn 0 0 0 0)) := by
  funext s
  by_cases hs : s = 0
  · subst hs
    rfl
  · simp [life, init, hs]

theorem wf_init : (init clock entry esp).life.Wf := by
  have hempty : Life.Wf fun _ => none :=
    ⟨fun h => (nomatch h), fun h => (nomatch h), fun h => (nomatch h)⟩
  rw [life_init]
  exact hempty.update rfl rfl rfl ⟨fun _ => rfl, fun _ => rfl⟩ (.inl rfl)

end TaskManager

theorem ProcOp.wf_apply {m : TaskManager} (op : ProcOp) (hm : m.life.Wf) :
    (op.apply m).life.Wf := by
  cases op with
  | kernel op =>
    have hends : TaskManager.Ends True m (op.apply m) := ends_apply op (.inl trivial)
    exact Life.Steps.wf hends hm
  | reapDetached =>
    exact cleared_reapDetachedThreads.wf hm
  | addTask entry esp =>
    have hact := @acts_addTask m (fun _ _ _ => True) entry esp fun _ _ => trivial
    exact hact.life.wf (cleared_getFreeSlot.wf hm)
  | call cpu frame c =>
    cases h : m.admitted cpu frame with
    | none =>
      have hends : TaskManager.Ends True m (m.procHandler cpu frame c) := ends_of_not_admitted c h
      exact Life.Steps.wf hends hm
    | some thread =>
      obtain ⟨m₁, hreaped, hact⟩ := acts_of_admitted (R := fun _ _ _ _ => True) c hm h
        fun _ _ _ => c.grants_of_forall fun _ _ _ => trivial
      have hends : TaskManager.Ends True _ (m.procHandler cpu frame c) := ends_of_admitted c h
      exact Life.Steps.wf hends (hact.life.wf (hreaped.wf hm))

end Felix.Kernel
