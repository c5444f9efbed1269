import Felix.Base.Runs
import Felix.Kernel.Lineage
import Felix.Kernel.StopContract

/-!
# Process groups and sessions

The processes of a group are in one session, as long as a group that is opened is new: a
process gets a group of its own from `sys_setsid`, `sys_setpgid` or when it is created, and
nothing there checks if the number is still the group of a process of another session.  It
can be: a process that leads a group may join another one, and what it leaves behind keeps
its number.

The invariant is about all tasks of the table.  `sys_setpgid` and `sys_spawn_image` look for
a group among all of them, with the threads and zombies.
-/

namespace Felix.Kernel

open TaskManager Option

namespace Life

variable {l l' : Life} {s x : Slot} {v w : Vital}

/-- Every group is in one session, and only the idle task has the numbers 0. -/
structure Regular (l : Life) : Prop where
  idle : ∃ v, l 0 = some v ∧ v.leaderSlot = some 0 ∧ v.pid = 0 ∧ v.pgid = 0 ∧ v.sid = 0
  pos {s : Slot} {v : Vital} : s ≠ 0 → l s = some v → 0 < v.pid ∧ 0 < v.pgid ∧ 0 < v.sid
  share {s x : Slot} {v w : Vital} : l s = some v → l x = some w → v.pgid = w.pgid → v.sid = w.sid

/-- The numbers of a group and its session can belong to the task in a slot. -/
def Sits (s : Slot) (pgid sid : Int) : Prop :=
  (s = 0 → pgid = 0 ∧ sid = 0) ∧ (s ≠ 0 → 0 < pgid ∧ 0 < sid)

/-- The task in a slot can be put into a group. -/
structure Fits (l : Life) (s : Slot) (pgid sid : Int) : Prop where
  session : ∀ x v, l x = some v → v.pgid = pgid → v.sid = sid
  sits : Sits s pgid sid

namespace Regular

variable (h : l.Regular)
include h

theorem sits (hv : l s = some v) : Sits s v.pgid v.sid := by
  refine ⟨fun hs => ?_, fun hs => (h.pos hs hv).2⟩
  obtain ⟨u, hu, -, -, hgroup, hsid⟩ := h.idle
  rw [hs, hu] at hv
  cases hv
  exact ⟨hgroup, hsid⟩

/-- Two tasks of a session are both idle or none of them is. -/
theorem idle_iff (hv : l s = some v) (hw : l x = some w) (hsid : v.sid = w.sid) :
    s = 0 ↔ x = 0 := by
  have hnot : ∀ {s x : Slot} {v w : Vital}, l s = some v → l x = some w → v.sid = w.sid →
      s = 0 → x = 0 := by
    intro s x v w hv hw hsid hs
    by_contra hx
    have hzero := ((h.sits hv).1 hs).2
    have hpos := ((h.sits hw).2 hx).2
    omega
  exact ⟨hnot hv hw hsid, hnot hw hv hsid.symm⟩

theorem fits_member (hw : l x = some w) (hs : s = 0 ↔ x = 0) : Fits l s w.pgid w.sid := by
  refine ⟨fun y v hv hgroup => h.share hv hw hgroup, ?_⟩
  have hsits := h.sits hw
  exact ⟨fun h0 => hsits.1 (hs.1 h0), fun h0 => hsits.2 fun hx => h0 (hs.2 hx)⟩

/-- Tasks may end and be taken out. -/
theorem of_was (hidle : ∃ v', l' 0 = some v')
    (hwas : ∀ {s : Slot} {v' : Vital}, l' s = some v' → ∃ v, l s = some v ∧ v.Ages v') :
    l'.Regular where
  idle := by
    obtain ⟨v', hv'⟩ := hidle
    obtain ⟨v, hv, hages⟩ := hwas hv'
    obtain ⟨u, hu, hlead, hpid, hgroup, hsid⟩ := h.idle
    rw [hv] at hu
    cases hu
    exact ⟨v', hv', hages.leaderSlot.trans hlead, hages.pid.trans hpid, hages.pgid.trans hgroup,
      hages.sid.trans hsid⟩
  pos := by
    intro s v' hs hv'
    obtain ⟨v, hv, hages⟩ := hwas hv'
    rw [hages.pid, hages.pgid, hages.sid]
    exact h.pos hs hv
  share := by
    intro s x v' w' hv' hw' hgroup
    obtain ⟨v, hv, hages⟩ := hwas hv'
    obtain ⟨w, hw, hages'⟩ := hwas hw'
    rw [hages.pgid, hages'.pgid] at hgroup
    rw [hages.sid, hages'.sid]
    exact h.share hv hw hgroup

theorem steps {again : Prop} (hl : l.Wf) (hsteps : Steps again l l') : l'.Regular := by
  obtain ⟨v, hv, -⟩ := h.idle
  obtain ⟨v', hv', -⟩ := hsteps.stays hl hv
  exact h.of_was ⟨v', hv'⟩ fun hv' => hsteps.was hl hv'

theorem reaps (hreaps : Reaps l l') : l'.Regular := by
  obtain ⟨v, hv, hlead, -⟩ := h.idle
  exact h.of_was ⟨v, hreaps.idle hv hlead⟩ fun {_ v'} hv' => ⟨v', hreaps.was hv', .refl v'⟩

theorem ne_zero_of_free (hs : l s = none) : s ≠ 0 := by
  intro h0
  obtain ⟨v, hv, -⟩ := h.idle
  rw [← h0, hs] at hv
  cases hv

theorem update {pid pgid sid : Int} (hfits : Fits l s pgid sid) (hpid : s ≠ 0 → 0 < pid)
    (hv : v.pid = pid ∧ v.pgid = pgid ∧ v.sid = sid)
    (hs0 : s = 0 → v.leaderSlot = some 0 ∧ v.pid = 0) : Regular (Function.update l s (some v)) := by
  obtain ⟨hvpid, hvgroup, hvsid⟩ := hv
  have hother : ∀ {x : Slot} {w : Vital}, l x = some w → w.pgid = v.pgid → w.sid = v.sid := by
    intro x w hw hgroup
    rw [hvsid]
    exact hfits.session x w hw (hgroup.trans hvgroup)
  refine ⟨?_, fun {x w} hx hw => ?_, fun {x y u w} hu hw hgroup => ?_⟩
  · by_cases hs : s = 0
    · subst hs
      obtain ⟨hlead, hzero⟩ := hs0 rfl
      obtain ⟨hgroup, hsid⟩ := hfits.sits.1 rfl
      exact ⟨v, by simp, hlead, hzero, hvgroup.trans hgroup, hvsid.trans hsid⟩
    · obtain ⟨u, hu, hrest⟩ := h.idle
      exact ⟨u, by rw [Function.update_of_ne (Ne.symm hs), hu], hrest⟩
  · rcases update_eq_some.1 hw with ⟨rfl, heq⟩ | ⟨-, hold⟩
    · cases heq
      rw [hvpid, hvgroup, hvsid]
      exact ⟨hpid hx, hfits.sits.2 hx⟩
    · exact h.pos hx hold
  · rcases update_eq_some.1 hu with ⟨-, heq⟩ | ⟨-, hu⟩ <;>
      rcases update_eq_some.1 hw with ⟨-, heq'⟩ | ⟨-, hw⟩
    · cases heq
      cases heq'
      rfl
    · cases heq
      exact (hother hw hgroup.symm).symm
    · cases heq'
      exact hother hu hgroup
    · exact h.share hu hw hgroup

theorem act (hact : Act (Fits l) l l') : l'.Regular := by
  cases hact with
  | nothing => exact h
  | spawn hnone hpid hfits =>
    exact h.update hfits (fun _ => hpid) ⟨rfl, rfl, rfl⟩ fun h0 =>
      absurd h0 (h.ne_zero_of_free hnone)
  | @thread s p w hnone hp hw hlead hz =>
    have hs : s = 0 ↔ p = 0 :=
      ⟨fun h0 => absurd h0 (h.ne_zero_of_free hnone), fun h0 => absurd h0 hp⟩
    exact h.update (h.fits_member hw hs) (fun _ => (h.pos hp hw).1) ⟨rfl, rfl, rfl⟩
      fun h0 => absurd h0 (h.ne_zero_of_free hnone)
  | @regroup s v pgid sid hv hfits =>
    rw [change, hv]
    refine h.update hfits (fun hs => (h.pos hs hv).1) ⟨rfl, rfl, rfl⟩ fun hs => ?_
    obtain ⟨u, hu, hlead, hpid, -⟩ := h.idle
    rw [hs, hu] at hv
    cases hv
    exact ⟨hlead, hpid⟩

end Regular

end Life

namespace TaskManager

variable {m m' : TaskManager} {current : Slot}

/-- Two processes that have not ended share the session if they share the group. -/
def GroupsShareSession (m : TaskManager) : Prop :=
  ∀ s s', ∀ t ∈ m.tasks s, ∀ t' ∈ m.tasks s', t.leaderSlot = some s → t'.leaderSlot = some s' →
    t.zombie = false → t'.zombie = false → t.pgid = t'.pgid → t.sid = t'.sid
  deriving Decidable

/-- Every task of the group is in the session. -/
def OnlyIn (m : TaskManager) (pgid sid : Int) : Prop :=
  ∀ s, ∀ t ∈ m.tasks s, t.pgid = pgid → t.sid = sid
  deriving Decidable

theorem OnlyIn.life {pgid sid : Int} (h : m.OnlyIn pgid sid) {s : Slot} {v : Vital}
    (hv : m.life s = some v) (hgroup : v.pgid = pgid) : v.sid = sid := by
  rw [TaskManager.life, map_eq_some_iff] at hv
  obtain ⟨t, ht, rfl⟩ := hv
  exact h s t ht hgroup

theorem groupsShareSession_of_regular (h : m.life.Regular) : m.GroupsShareSession := by
  intro s s' t ht t' ht' _ _ _ _ hgroup
  exact h.share (life_eq_some ht) (life_eq_some ht') hgroup

theorem regular_init (clock : Clock) (entry esp : UInt32) :
    (init clock entry esp).life.Regular := by
  rw [life_init]
  refine ⟨⟨_, rfl, rfl, rfl, rfl, rfl⟩, fun {s v} hs hv => ?_, fun {s x v w} hv hw _ => ?_⟩
  · rcases Life.update_eq_some.1 hv with ⟨h0, -⟩ | ⟨-, hnone⟩
    · exact absurd h0 hs
    · cases hnone
  · rcases Life.update_eq_some.1 hv with ⟨-, hv⟩ | ⟨-, hnone⟩
    · rcases Life.update_eq_some.1 hw with ⟨-, hw⟩ | ⟨-, hnone⟩
      · cases hv
        cases hw
        rfl
      · cases hnone
    · cases hnone

end TaskManager

/-- A call that opens a group finds no task of another session in it. -/
def ProcCall.Tame (c : ProcCall) (current : Slot) (m : TaskManager) : Prop :=
  match c with
  | .spawn requested _ => requested = 0 ∨ requested = -1 ∧ current = 0 →
    m.OnlyIn m.allocPid.1 (m.spawnSid current m.allocPid.1)
  | .setpgid pid pgid => pgid = 0 ∨ pgid = m.setpgidTarget current pid →
    ∀ caller ∈ m.tasks current, ∀ s, ∀ t ∈ m.tasks s, t.pid = m.setpgidTarget current pid →
      t.sid = caller.sid → m.OnlyIn t.pid t.sid
  | .setsid => ∀ caller ∈ m.tasks current, caller.pgid ≠ caller.pid →
    m.OnlyIn caller.pid caller.pid
  | _ => True

instance (c : ProcCall) (current : Slot) (m : TaskManager) : Decidable (c.Tame current m) :=
  match c with
  | .spawn requested _ =>
    inferInstanceAs (Decidable (requested = 0 ∨ requested = -1 ∧ current = 0 →
      m.OnlyIn m.allocPid.1 (m.spawnSid current m.allocPid.1)))
  | .setpgid pid pgid =>
    inferInstanceAs (Decidable (pgid = 0 ∨ pgid = m.setpgidTarget current pid →
      ∀ caller ∈ m.tasks current, ∀ s, ∀ t ∈ m.tasks s, t.pid = m.setpgidTarget current pid →
        t.sid = caller.sid → m.OnlyIn t.pid t.sid))
  | .setsid =>
    inferInstanceAs (Decidable (∀ caller ∈ m.tasks current, caller.pgid ≠ caller.pid →
      m.OnlyIn caller.pid caller.pid))
  | .threadCreate .. | .threadJoin .. | .threadDetach .. | .wait .. => isTrue trivial

def ProcOp.Tame : ProcOp → TaskManager → Prop
  | .call cpu _ c, m => ∀ thread ∈ m.onCpu cpu, c.Tame (m.processSlot thread) m
  | .addTask _ _, m => m.OnlyIn m.allocPid.1 m.allocPid.1
  | _, _ => True

instance (op : ProcOp) (m : TaskManager) : Decidable (op.Tame m) :=
  match op with
  | .call cpu _ c =>
    inferInstanceAs (Decidable (∀ thread ∈ m.onCpu cpu, c.Tame (m.processSlot thread) m))
  | .addTask _ _ => inferInstanceAs (Decidable (m.OnlyIn m.allocPid.1 m.allocPid.1))
  | .kernel _ | .reapDetached => isTrue trivial

namespace TaskManager

variable {m m' : TaskManager} {current : Slot} {w : Vital} {requested pgid sid pid : Int}

theorem spawnSid_eq (hw : m.life current = some w) (pid : Int) :
    m.spawnSid current pid = if current = 0 ∨ w.sid ≤ 0 then pid else w.sid := by
  rw [life, map_eq_some_iff] at hw
  obtain ⟨t, ht, rfl⟩ := hw
  rw [spawnSid, ht]
  rfl

theorem OnlyIn.reaped (h : m.OnlyIn pgid sid) (hreaped : Reaped m m') :
    ∀ s v, m'.life s = some v → v.pgid = pgid → v.sid = sid :=
  fun _ _ hv hgroup => h.life (hreaped.life.was hv) hgroup

theorem allocPid_reaped (hreaped : Reaped m m') : m'.allocPid.1 = m.allocPid.1 := by
  rw [allocPid, allocPid, hreaped.nextPid]

/-- A new process in a slot that is free does not get the numbers of the idle task. -/
theorem sits_of_free {slot : Slot} (hm : m.life.Regular)
    (hfree : m.life slot = none) (hpgid : 0 < pgid) (hsid : 0 < sid) : Life.Sits slot pgid sid := by
  exact ⟨fun h0 => absurd h0 (hm.ne_zero_of_free hfree), fun _ => ⟨hpgid, hsid⟩⟩

theorem addTask_fits (hm : m.life.Regular) (hreaped : Reaped m m')
    (htame : m.OnlyIn m.allocPid.1 m.allocPid.1) (slot : Slot) (hfree : m'.life slot = none) :
    Life.Fits m'.life slot m'.allocPid.1 m'.allocPid.1 := by
  refine ⟨?_, sits_of_free (hm.reaps hreaped.life) hfree allocPid_pos allocPid_pos⟩
  rw [allocPid_reaped hreaped]
  exact htame.reaped hreaped

/-- The ways to the group of a new process. -/
theorem spawnPgid_cases (hw : m.life current = some w)
    (h : m.spawnPgid current requested pid sid = some pgid) :
    (requested = -1 ∧ pgid = if current = 0 ∨ w.pgid ≤ 0 then pid else w.pgid) ∨
      (requested = 0 ∧ pgid = pid) ∨
        (0 < pgid ∧ ∃ s u, m.life s = some u ∧ u.pgid = pgid ∧ u.sid = sid) := by
  rw [life, map_eq_some_iff] at hw
  obtain ⟨t, ht, rfl⟩ := hw
  unfold spawnPgid at h
  simp only [ht] at h
  split at h
  · rename_i hrequested
    cases h
    exact .inl ⟨hrequested, rfl⟩
  split at h
  · rename_i hrequested
    cases h
    exact .inr (.inl ⟨hrequested, rfl⟩)
  split at h
  · rename_i hpos
    split at h
    · rename_i hany
      cases h
      exact .inr (.inr ⟨hpos, member_of_any hany⟩)
    · cases h
  · cases h

theorem spawns_fits (hm : m.life.Regular) (hreaped : Reaped m m')
    (hw : m.life current = some w) (hw' : m'.life current = some w)
    (htame : requested = 0 ∨ requested = -1 ∧ current = 0 →
      m.OnlyIn m.allocPid.1 (m.spawnSid current m.allocPid.1)) :
    Spawns (Life.Fits m'.life) current requested m' := by
  have hm' : m'.life.Regular := hm.reaps hreaped.life
  have hpid := allocPid_reaped hreaped
  have hsid : m'.spawnSid current m'.allocPid.1 = m.spawnSid current m.allocPid.1 := by
    rw [spawnSid_eq hw, spawnSid_eq hw', hpid]
  have hsidpos : 0 < m.spawnSid current m.allocPid.1 := by
    rw [spawnSid_eq hw]
    split
    · exact allocPid_pos
    · omega
  intro slot pgid hfree hgroup
  have hslot : slot ≠ 0 := hm'.ne_zero_of_free hfree
  have hopen : (requested = 0 ∨ requested = -1 ∧ current = 0) → pgid = m'.allocPid.1 →
      Life.Fits m'.life slot pgid (m'.spawnSid current m'.allocPid.1) := by
    rintro hrequested rfl
    rw [hsid, hpid]
    exact ⟨(htame hrequested).reaped hreaped, sits_of_free hm' hfree allocPid_pos hsidpos⟩
  rcases spawnPgid_cases hw' hgroup with
    ⟨hrequested, hvalue⟩ | ⟨hrequested, hvalue⟩ | ⟨hpos, x, u, hu, hu', hus⟩
  · by_cases hcurrent : current = 0
    · rw [if_pos (.inl hcurrent)] at hvalue
      exact hopen (.inr ⟨hrequested, hcurrent⟩) hvalue
    · obtain ⟨-, hgrouppos, hsessionpos⟩ := hm.pos hcurrent hw
      rw [if_neg (not_or.2 ⟨hcurrent, by omega⟩)] at hvalue
      rw [hsid, spawnSid_eq hw, if_neg (not_or.2 ⟨hcurrent, by omega⟩), hvalue]
      exact hm'.fits_member hw' ⟨fun h0 => absurd h0 hslot, fun h0 => absurd h0 hcurrent⟩
  · exact hopen (.inl hrequested) hvalue
  rw [← hu', ← hus]
  refine hm'.fits_member hu ⟨fun h0 => absurd h0 hslot, fun h0 => ?_⟩
  have hzero := ((hm'.sits hu).1 h0).1
  omega

theorem setpgidTarget_eq (hw : m.life current = some w) (pid : Int) :
    m.setpgidTarget current pid = if pid = 0 then w.pid else pid := by
  rw [life, map_eq_some_iff] at hw
  obtain ⟨t, ht, rfl⟩ := hw
  rw [setpgidTarget, ht]
  rfl

variable (hm : m.life.Regular) (hreaped : Reaped m m') (hw : m.life current = some w)
  (hw' : m'.life current = some w)

include hm hreaped hw hw'

theorem regroups_fits (htame : ProcCall.Tame (.setpgid pid pgid) current m) :
    Regroups (Life.Fits m'.life) current pid pgid m' := by
  have hm' : m'.life.Regular := hm.reaps hreaped.life
  have htarget : m'.setpgidTarget current pid = m.setpgidTarget current pid := by
    rw [setpgidTarget_eq hw, setpgidTarget_eq hw']
  have hsid : ((m'.tasks current).map Task.sid).getD (-1) = w.sid := by
    rw [life, map_eq_some_iff] at hw'
    obtain ⟨t, ht, rfl⟩ := hw'
    rw [ht]
    rfl
  intro slot v hv hpid hsession
  rw [htarget] at hpid
  rw [hsid] at hsession
  dsimp only
  generalize hnew : (if pgid = 0 then v.pid else pgid) = new
  rintro (hown | ⟨x, u, hu, hgroup, hus⟩)
  · subst hown
    have hopen : pgid = 0 ∨ pgid = m.setpgidTarget current pid := by
      rw [← hpid]
      split at hnew
      · exact .inl ‹_›
      · exact .inr hnew
    have honly : m.OnlyIn v.pid v.sid := by
      obtain ⟨caller, hcaller, rfl⟩ := map_eq_some_iff.1 hw
      obtain ⟨t, ht, rfl⟩ := map_eq_some_iff.1 (hreaped.life.was hv)
      exact htame hopen caller hcaller slot t ht hpid hsession
    refine ⟨honly.reaped hreaped, fun h0 => ?_, fun h0 => ⟨(hm'.pos h0 hv).1, (hm'.pos h0 hv).2.2⟩⟩
    obtain ⟨u, hu, -, hupid, -, husid⟩ := hm'.idle
    rw [h0, hu] at hv
    cases hv
    exact ⟨hupid, husid⟩
  · rw [← hgroup, ← hus]
    exact hm'.fits_member hu (hm'.idle_iff hv hu hus.symm)

theorem setsid_fits (htame : ProcCall.Tame .setsid current m) :
    ProcCall.Grants (Life.Fits m'.life) .setsid current m' := by
  intro v hv hleader
  rw [hw'] at hv
  cases hv
  have honly : m.OnlyIn w.pid w.pid := by
    obtain ⟨caller, hcaller, rfl⟩ := map_eq_some_iff.1 hw
    exact htame caller hcaller hleader
  refine ⟨honly.reaped hreaped, fun h0 => ?_, fun h0 => ⟨(hm.pos h0 hw).1, (hm.pos h0 hw).1⟩⟩
  obtain ⟨u, hu, -, hpid, hgroup, -⟩ := hm.idle
  rw [h0, hu] at hw
  cases hw
  exact absurd (hgroup.trans hpid.symm) hleader

theorem grants_fits {c : ProcCall} (htame : c.Tame current m) :
    c.Grants (Life.Fits m'.life) current m' := by
  cases c with
  | spawn requested image => exact spawns_fits hm hreaped hw hw' htame
  | setpgid pid pgid => exact regroups_fits hm hreaped hw hw' htame
  | setsid => exact setsid_fits hm hreaped hw hw' htame
  | threadCreate => trivial
  | threadJoin => trivial
  | threadDetach => trivial
  | wait => trivial

end TaskManager

/-! ## Steps -/

theorem ProcOp.regular {op : ProcOp} {m : TaskManager} (hwf : m.life.Wf) (hm : m.life.Regular)
    (htame : op.Tame m) : (op.apply m).life.Wf ∧ (op.apply m).life.Regular := by
  have hends : ∀ {m m' : TaskManager}, m.life.Wf → m.life.Regular → TaskManager.Ends True m m' →
      m'.life.Wf ∧ m'.life.Regular := fun hwf hm h => ⟨Life.Steps.wf h hwf, hm.steps hwf h⟩
  cases op with
  | kernel op => exact hends hwf hm (ends_apply op (.inl trivial))
  | reapDetached =>
    have hcleared : TaskManager.Cleared m m.reapDetachedThreads := cleared_reapDetachedThreads
    exact ⟨hcleared.wf hwf, hm.reaps hcleared.life⟩
  | addTask entry esp =>
    have hreaped : TaskManager.Reaped m m.getFreeSlot.2 := cleared_getFreeSlot.toReaped
    have hact := acts_addTask entry esp (addTask_fits hm hreaped htame)
    exact ⟨hact.life.wf (hreaped.wf hwf), (hm.reaps hreaped.life).act hact.life⟩
  | call cpu frame c =>
    cases hadmitted : m.admitted cpu frame with
    | none => exact hends hwf hm (ends_of_not_admitted c hadmitted)
    | some thread =>
      have hcall : c.Tame (m.processSlot thread) m := by
        refine htame thread ?_
        rw [admitted, filter_eq_some_iff] at hadmitted
        exact hadmitted.1
      obtain ⟨m₁, hreaped, hact⟩ := acts_of_admitted c hwf hadmitted
        fun hreaped hw hw' => grants_fits hm hreaped hw hw' hcall
      exact hends (hact.life.wf (hreaped.wf hwf)) ((hm.reaps hreaped.life).act hact.life)
        (ends_of_admitted c hadmitted)

/-- **Groups lie in sessions.**  Over every run from the start of the system in which a call
that opens a group finds no task of another session in it, the processes that have not
ended and share a group share the session. -/
theorem ProcOp.groups_share_session (clock : Clock) (entry esp : UInt32) (ops : List ProcOp)
    (htame : Every ProcOp.step ProcOp.Tame ops (.init clock entry esp)) :
    Every ProcOp.step (fun op m => (op.apply m).GroupsShareSession) ops
      (.init clock entry esp) := by
  refine every_of_inv (fun m => m.life.Wf ∧ m.life.Regular) ?_ ?_
    ⟨wf_init clock entry esp, regular_init clock entry esp⟩ htame
  · intro op m r m' hm hop hrun
    cases hrun
    exact ProcOp.regular hm.1 hm.2 hop
  · intro op m hm hop
    exact groupsShareSession_of_regular (ProcOp.regular hm.1 hm.2 hop).2

/-- A child of the first process opens a session and exits. -/
def startDaemon : List ProcOp :=
  [.addTask 0 0, .kernel (.timer userFrame none false),
    .call 0 userFrame (.spawn (-1) (some (0, 0))), .call 0 userFrame (.spawn 0 (some (0, 0))),
    .kernel (.timer userFrame none false), .call 0 userFrame .setsid,
    .kernel (.syscall 0 userFrame (.exitGroup 0))]

set_option maxRecDepth 4000 in
theorem ProcOp.groups_share_session_startDaemon :
    Every ProcOp.step (fun op m => (op.apply m).GroupsShareSession) startDaemon
      (.init ⟨0, 0⟩ 0 0) :=
  ProcOp.groups_share_session ⟨0, 0⟩ 0 0 startDaemon (by decide +kernel)

/-- The first process starts two others in one group, and moves the one that leads the group
into its own.  That one then opens a session, with the number of the group it has left. -/
def leaveGroupBehind : List ProcOp :=
  [.addTask 0 0, .kernel (.timer userFrame none false),
    .call 0 userFrame (.spawn 0 (some (0, 0))), .call 0 userFrame (.spawn 2 (some (0, 0))),
    .call 0 userFrame (.setpgid 2 1), .kernel (.timer userFrame none false),
    .call 0 userFrame .setsid]

set_option maxRecDepth 4000 in
theorem leaveGroupBehind_splits_group :
    ¬ Every ProcOp.step (fun op m => (op.apply m).GroupsShareSession) leaveGroupBehind
      (.init ⟨0, 0⟩ 0 0) := by
  decide +kernel

end Felix.Kernel
