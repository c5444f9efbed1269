import Mathlib.Data.Option.Basic
import Mathlib.Logic.Function.Basic
import Mathlib.Logic.Relation
import Felix.Kernel.Task

/-!
# The life of a process

`Life` is what a table of tasks says about who belongs to which process and who has ended.
A process ends in one of three ways: it is killed, it exits, or its last thread exits.
These are the steps of `Life.Step`.  A process that has ended stays in the table as a
zombie until it is reaped, and so does a thread; that is `Life.Reap`.

`Life.Wf` is the invariant: every task belongs to a process that is there, and a process
is a zombie exactly when none of its threads is left.
-/

namespace Felix.Kernel

open Option

/-- What is known of a task when its life is told. -/
structure Vital where
  leaderSlot : Option Slot
  isThread : Bool
  pid : Int
  pgid : Int
  sid : Int
  threadExited : Bool
  zombie : Bool
  exitCode : Int
  termSignal : Nat
  deriving DecidableEq, Repr

namespace Vital

def exit (v : Vital) : Vital := { v with threadExited := true }

def kill (sig : Nat) (v : Vital) : Vital :=
  { v with threadExited := true, termSignal := sig, exitCode := 128 + sig }

def bury (v : Vital) : Vital := { v with zombie := true }

def finish (status : Int) (v : Vital) : Vital :=
  { v with threadExited := true, zombie := true, termSignal := 0, exitCode := status }

def regroup (pgid sid : Int) (v : Vital) : Vital := { v with pgid, sid }

/-- A new process. -/
def newborn (s : Slot) (pid pgid sid : Int) : Vital :=
  ⟨some s, false, pid, pgid, sid, false, false, 0, 0⟩

/-- A new thread of the process of a leader. -/
def sibling (p : Slot) (v : Vital) : Vital :=
  ⟨some p, true, v.pid, v.pgid, v.sid, false, false, 0, 0⟩

/-- It is the same task, but it may have ended. -/
structure Ages (v v' : Vital) : Prop where
  leaderSlot : v'.leaderSlot = v.leaderSlot
  isThread : v'.isThread = v.isThread
  pid : v'.pid = v.pid
  pgid : v'.pgid = v.pgid
  sid : v'.sid = v.sid

theorem Ages.refl (v : Vital) : v.Ages v := ⟨rfl, rfl, rfl, rfl, rfl⟩

theorem Ages.trans {v v' v'' : Vital} (h : v.Ages v') (h' : v'.Ages v'') : v.Ages v'' where
  leaderSlot := h'.leaderSlot.trans h.leaderSlot
  isThread := h'.isThread.trans h.isThread
  pid := h'.pid.trans h.pid
  pgid := h'.pgid.trans h.pgid
  sid := h'.sid.trans h.sid

end Vital

/-- The tasks of the table. -/
abbrev Life := Slot → Option Vital

namespace Life

/-- The task in a slot is changed. -/
def change (s : Slot) (f : Vital → Vital) (l : Life) : Life :=
  Function.update l s ((l s).map f)

/-- The threads of a process are changed. -/
def changeThreads (p : Slot) (f : Vital → Vital) (l : Life) : Life :=
  fun s => (l s).map fun v => if v.leaderSlot = some p then f v else v

/-- A process is killed. -/
def kill (p : Slot) (sig : Nat) (l : Life) : Life :=
  (l.changeThreads p (Vital.kill sig)).change p Vital.bury

/-- A thread exits. -/
def leave (s : Slot) (l : Life) : Life := l.change s Vital.exit

/-- A process has come to its end. -/
def finish (p : Slot) (status : Int) (l : Life) : Life := l.change p (Vital.finish status)

/-- A process exits. -/
def exit (p : Slot) (status : Int) (l : Life) : Life :=
  (l.changeThreads p Vital.exit).finish p status

/-- No thread of the process is left. -/
def AllExited (l : Life) (p : Slot) : Prop :=
  ∀ s v, l s = some v → v.leaderSlot = some p → v.threadExited = true

/-- The process that a slot belongs to. -/
def processSlot (l : Life) (s : Slot) : Slot :=
  match l s with
  | some v => v.leaderSlot.getD s
  | none => s

/-- One way for a thread to end.  `again` says that a process may exit that has ended
before. -/
inductive Step (again : Prop) : Life → Life → Prop
  /-- A process that has not ended is killed. -/
  | kill {l : Life} {p s : Slot} {v : Vital} (sig : Nat) (hp : l.processSlot s = p)
      (hv : l p = some v) (hz : v.zombie = false) : Step again l (l.kill p sig)
  | exit {l : Life} {p s : Slot} (status : Int) (hp : l.processSlot s = p)
      (h : again ∨ ∀ v, l p = some v → v.zombie = false) : Step again l (l.exit p status)
  /-- A thread that has not ended exits, and others are left. -/
  | thread {l : Life} {p s : Slot} {v : Vital} (hp : l.processSlot s = p) (hv : l s = some v)
      (hlive : v.threadExited = false) (hleft : ¬ (l.leave s).AllExited p) :
      Step again l (l.leave s)
  /-- The last thread of a process exits. -/
  | last {l : Life} {p s : Slot} {v : Vital} (status : Int) (hp : l.processSlot s = p)
      (hv : l s = some v) (hlive : v.threadExited = false) (hlast : (l.leave s).AllExited p) :
      Step again l ((l.leave s).finish p status)

/-- Several endings, one after the other. -/
def Steps (again : Prop) : Life → Life → Prop := Relation.ReflTransGen (Step again)

/-! ## The invariant -/

/-- What holds of the tasks between two steps. -/
structure Wf (l : Life) : Prop where
  /-- Every task belongs to a process that is there. -/
  leader {s : Slot} {v : Vital} : l s = some v →
    ∃ p w, v.leaderSlot = some p ∧ l p = some w ∧ w.leaderSlot = some p
  thread {s : Slot} {v : Vital} : l s = some v → (v.isThread = false ↔ v.leaderSlot = some s)
  /-- A process is a zombie if its last thread has exited, and only then. -/
  zombie {s : Slot} {v : Vital} : l s = some v →
    (v.zombie = true ↔ v.leaderSlot = some s ∧ l.AllExited s)

theorem Wf.leaderSlot_eq {l : Life} (h : l.Wf) {s : Slot} {v : Vital} (hv : l s = some v) :
    v.leaderSlot = some (l.processSlot s) := by
  obtain ⟨p, _, hp, -⟩ := h.leader hv
  simp only [processSlot, hv, hp, getD_some]

/-- A process with a thread that has not ended has not ended. -/
theorem Wf.alive {l : Life} (h : l.Wf) {s : Slot} {v w : Vital} (hv : l s = some v)
    (hlive : v.threadExited = false) (hw : l (l.processSlot s) = some w) : w.zombie = false := by
  refine Bool.eq_false_of_not_eq_true fun hz => ?_
  have hexited := ((h.zombie hw).1 hz).2 s v hv (h.leaderSlot_eq hv)
  rw [hlive] at hexited
  cases hexited

/-- A slot that leads a process leads itself. -/
theorem Wf.leads {l : Life} (h : l.Wf) {s p : Slot} {w : Vital} (hp : l.processSlot s = p)
    (hw : l p = some w) : w.leaderSlot = some p := by
  cases hs : l s with
  | none =>
    rw [processSlot, hs] at hp
    subst hp
    rw [hs] at hw
    cases hw
  | some v =>
    obtain ⟨q, u, hq, hu, hlead⟩ := h.leader hs
    rw [h.leaderSlot_eq hs, hp] at hq
    cases hq
    rw [hw] at hu
    cases hu
    exact hlead

theorem Wf.not_zombie {l : Life} (h : l.Wf) {s : Slot} {v : Vital} (hv : l s = some v)
    (hlead : v.leaderSlot ≠ some s) : v.zombie = false :=
  Bool.eq_false_of_not_eq_true fun hz => hlead ((h.zombie hv).1 hz).1

/-! ## What an ending does -/

/-- Only threads of one process have ended, and the process has if they all have. -/
structure Touches (p : Slot) (l l' : Life) : Prop where
  none {s : Slot} : l s = none → l' s = none
  others {s : Slot} {v : Vital} : l s = some v → v.leaderSlot ≠ some p → l' s = some v
  members {s : Slot} {v : Vital} : l s = some v → v.leaderSlot = some p →
    ∃ v', l' s = some v' ∧ v.Ages v' ∧ (v'.zombie = true ↔ s = p ∧ l'.AllExited p)

variable {again : Prop} {l l' l'' : Life} {s p x : Slot} {v : Vital} {test : Slot → Vital → Bool}

namespace Touches

theorem was (h : Touches p l l') {v' : Vital} (hv' : l' s = some v') :
    ∃ v, l s = some v ∧ v.Ages v' := by
  cases hv : l s with
  | none =>
    rw [h.none hv] at hv'
    cases hv'
  | some v =>
    by_cases hp : v.leaderSlot = some p
    · obtain ⟨w, hw, hages, -⟩ := h.members hv hp
      rw [hv'] at hw
      cases hw
      exact ⟨v, rfl, hages⟩
    rw [h.others hv hp] at hv'
    cases hv'
    exact ⟨_, rfl, .refl _⟩

theorem stays (h : Touches p l l') (hv : l s = some v) : ∃ v', l' s = some v' ∧ v.Ages v' := by
  by_cases hp : v.leaderSlot = some p
  · obtain ⟨v', hv', hages, -⟩ := h.members hv hp
    exact ⟨v', hv', hages⟩
  · exact ⟨v, h.others hv hp, .refl v⟩

theorem allExited_iff (h : Touches p l l') {q : Slot} (hq : q ≠ p) :
    l'.AllExited q ↔ l.AllExited q := by
  have hne : ∀ v : Vital, v.leaderSlot = some q → v.leaderSlot ≠ some p := by
    intro v hv hv'
    rw [hv] at hv'
    exact hq (Option.some.inj hv')
  constructor
  · intro hall s v hv hlead
    exact hall s v (h.others hv (hne v hlead)) hlead
  · intro hall s v' hv' hlead
    obtain ⟨v, hv, hages⟩ := h.was hv'
    rw [hages.leaderSlot] at hlead
    rw [h.others hv (hne v hlead)] at hv'
    cases hv'
    exact hall s _ hv hlead

theorem wf (h : Touches p l l') (hl : l.Wf) : l'.Wf where
  leader := by
    intro s v' hv'
    obtain ⟨v, hv, hages⟩ := h.was hv'
    obtain ⟨q, w, hq, hw, hlead⟩ := hl.leader hv
    obtain ⟨w', hw', hages'⟩ := h.stays hw
    exact ⟨q, w', hages.leaderSlot.trans hq, hw', hages'.leaderSlot.trans hlead⟩
  thread := by
    intro s v' hv'
    obtain ⟨v, hv, hages⟩ := h.was hv'
    rw [hages.isThread, hages.leaderSlot]
    exact hl.thread hv
  zombie := by
    intro s v' hv'
    obtain ⟨v, hv, hages⟩ := h.was hv'
    rw [hages.leaderSlot]
    by_cases hp : v.leaderSlot = some p
    · obtain ⟨w, hw, -, hz⟩ := h.members hv hp
      rw [hv'] at hw
      cases hw
      rw [hz, hp, Option.some.injEq]
      exact ⟨fun ⟨hs, hall⟩ => ⟨hs.symm, hs ▸ hall⟩, fun ⟨hs, hall⟩ => ⟨hs.symm, hs ▸ hall⟩⟩
    have hw := h.others hv hp
    rw [hv'] at hw
    cases hw
    rw [hl.zombie hv]
    refine and_congr_right fun hlead => (h.allExited_iff fun hs => ?_).symm
    exact hp (hs ▸ hlead)

end Touches

theorem change_apply (f : Vital → Vital) (x : Slot) :
    l.change s f x = (l x).map fun v => if x = s then f v else v := by
  unfold change
  by_cases hx : x = s
  · subst hx
    simp
  · simp [hx]

theorem kill_of_ne {sig : Nat} (hv : l s = some v) (hlead : v.leaderSlot ≠ some p) (hs : s ≠ p) :
    l.kill p sig s = some v := by
  simp [kill, change_apply, changeThreads, hv, hlead, hs]

/-- The threads of one process have ended, and nothing else has happened. -/
structure Clears (p : Slot) (l l' : Life) : Prop where
  none {s : Slot} : l s = none → l' s = none
  others {s : Slot} {v : Vital} : l s = some v → v.leaderSlot ≠ some p → l' s = some v
  members {s : Slot} {v : Vital} : l s = some v → v.leaderSlot = some p →
    ∃ v', l' s = some v' ∧ v.Ages v' ∧ v'.threadExited = true ∧ v'.zombie = v.zombie

theorem clears_changeThreads {f : Vital → Vital}
    (hf : ∀ v, v.Ages (f v) ∧ (f v).threadExited = true ∧ (f v).zombie = v.zombie) :
    Clears p l (l.changeThreads p f) where
  none hv := by simp [changeThreads, hv]
  others hv hlead := by simp [changeThreads, hv, hlead]
  members {_ v} hv hlead := ⟨f v, by simp [changeThreads, hv, hlead], hf v⟩

theorem Wf.ne_of_not_member (hl : l.Wf) {u : Vital} (hp : l.processSlot s = p)
    (hu : l x = some u) (hlead : u.leaderSlot ≠ some p) : x ≠ p ∧ x ≠ s := by
  refine ⟨fun hx => ?_, fun hx => ?_⟩ <;> subst hx
  · exact hlead (hl.leads hp hu)
  · exact hlead (hp ▸ hl.leaderSlot_eq hu)

theorem leave_apply (x : Slot) : l.leave s x = (l x).map fun v => if x = s then v.exit else v :=
  change_apply _ x

theorem clears_leave (hl : l.Wf) (hp : l.processSlot s = p) (hlast : (l.leave s).AllExited p) :
    Clears p l (l.leave s) where
  none hv := by simp [leave_apply, hv]
  others hu hlead := by simp [leave_apply, hu, (hl.ne_of_not_member hp hu hlead).2]
  members {x u} hu hlead := by
    have hx : l.leave s x = some (if x = s then u.exit else u) := by
      rw [leave_apply, hu, map_some]
    have hages : u.Ages (if x = s then u.exit else u) := by
      split
      · exact ⟨rfl, rfl, rfl, rfl, rfl⟩
      · exact .refl u
    refine ⟨_, hx, hages, hlast x _ hx (hages.leaderSlot.trans hlead), ?_⟩
    split <;> rfl

/-- When the threads of a process have ended, so does the process. -/
theorem Clears.touches (h : Clears p l l') (hl : l.Wf) (hp : l.processSlot s = p)
    {g : Vital → Vital} (hg : ∀ v, v.Ages (g v) ∧ (g v).zombie = true ∧
      (v.threadExited = true → (g v).threadExited = true)) : Touches p l (l'.change p g) := by
  have hother : ∀ {x : Slot} {v : Vital}, l x = some v → v.leaderSlot ≠ some p →
      l'.change p g x = some v := by
    intro x v hv hlead
    simp [change_apply, h.others hv hlead, (hl.ne_of_not_member hp hv hlead).1]
  have hall : (l'.change p g).AllExited p := by
    intro x w hw hlead'
    cases hv : l x with
    | none => simp [change_apply, h.none hv] at hw
    | some v =>
      by_cases hlead : v.leaderSlot = some p
      · obtain ⟨v', hv', -, hexited, -⟩ := h.members hv hlead
        rw [change_apply, hv'] at hw
        cases hw
        split
        · exact (hg _).2.2 hexited
        · exact hexited
      rw [hother hv hlead] at hw
      cases hw
      exact absurd hlead' hlead
  refine ⟨fun hv => by simp [change_apply, h.none hv], hother, fun {x v} hv hlead => ?_⟩
  obtain ⟨v', hv', hages, -, hz⟩ := h.members hv hlead
  by_cases hx : x = p
  · exact ⟨g v', by rw [change_apply, hv', map_some, if_pos hx], hages.trans (hg v').1,
      fun _ => ⟨hx, hall⟩, fun _ => (hg v').2.1⟩
  refine ⟨v', by simp [change_apply, hv', hx], hages, ?_⟩
  rw [hz, hl.not_zombie hv fun hs => hx (Option.some.inj (hs.symm.trans hlead))]
  exact ⟨fun hz => (nomatch hz), fun ⟨hs, _⟩ => absurd hs hx⟩

/-- A thread ends, and others are left. -/
theorem touches_leave (hl : l.Wf) (hp : l.processSlot s = p)
    (halive : ∀ v, l p = some v → v.zombie = false) (hleft : ¬ (l.leave s).AllExited p) :
    Touches p l (l.leave s) where
  none hv := by simp [leave_apply, hv]
  others hu hlead := by simp [leave_apply, hu, (hl.ne_of_not_member hp hu hlead).2]
  members {x u} hu hlead := by
    have hz : u.zombie = false := by
      by_cases hx : x = p
      · exact halive u (hx ▸ hu)
      · exact hl.not_zombie hu fun hs => hx (Option.some.inj (hs.symm.trans hlead))
    refine ⟨_, by rw [leave_apply, hu, map_some], ?_, fun h => ?_, fun h => absurd h.2 hleft⟩
    · split
      · exact ⟨rfl, rfl, rfl, rfl, rfl⟩
      · exact .refl u
    · refine absurd h ?_
      split <;> simp [Vital.exit, hz]

/-- Only one process is touched by an ending, and it has not ended before. -/
theorem Step.touches (h : Step again l l') (hl : l.Wf) :
    ∃ p, Touches p l l' ∧ (again ∨ ∀ v, l p = some v → v.zombie = false) := by
  have hsame : ∀ v : Vital, v.Ages v.exit := fun _ => ⟨rfl, rfl, rfl, rfl, rfl⟩
  have hfinish : ∀ (status : Int) (v : Vital), v.Ages (v.finish status) ∧
      (v.finish status).zombie = true ∧
        (v.threadExited = true → (v.finish status).threadExited = true) :=
    fun _ _ => ⟨⟨rfl, rfl, rfl, rfl, rfl⟩, rfl, fun _ => rfl⟩
  cases h with
  | @kill p s v sig hp hv hz =>
    have hclears : Clears p l (l.changeThreads p (Vital.kill sig)) :=
      clears_changeThreads fun _ => ⟨⟨rfl, rfl, rfl, rfl, rfl⟩, rfl, rfl⟩
    refine ⟨p, hclears.touches hl hp fun _ => ⟨⟨rfl, rfl, rfl, rfl, rfl⟩, rfl, id⟩,
      .inr fun w hw => ?_⟩
    rw [hv] at hw
    cases hw
    exact hz
  | @exit p s status hp h =>
    have hclears : Clears p l (l.changeThreads p Vital.exit) :=
      clears_changeThreads fun v => ⟨hsame v, rfl, rfl⟩
    exact ⟨p, hclears.touches hl hp (hfinish status), h⟩
  | @thread p s v hp hv hlive hleft =>
    have halive : ∀ w, l p = some w → w.zombie = false := fun w hw =>
      hl.alive hv hlive (hp ▸ hw)
    exact ⟨p, touches_leave hl hp halive hleft, .inr halive⟩
  | @last p s v status hp hv hlive hlast =>
    exact ⟨p, (clears_leave hl hp hlast).touches hl hp (hfinish status),
      .inr fun w hw => hl.alive hv hlive (hp ▸ hw)⟩

/-! ## Runs of endings -/

theorem Steps.wf (h : Steps again l l') (hl : l.Wf) : l'.Wf := by
  induction h with
  | refl => exact hl
  | tail _ hstep ih =>
    obtain ⟨_, htouches, -⟩ := hstep.touches ih
    exact htouches.wf ih

theorem Steps.was (h : Steps again l l') (hl : l.Wf) {v' : Vital} (hv' : l' s = some v') :
    ∃ v, l s = some v ∧ v.Ages v' := by
  induction h generalizing v' with
  | refl => exact ⟨v', hv', .refl v'⟩
  | tail hsteps hstep ih =>
    obtain ⟨_, htouches, -⟩ := hstep.touches (Steps.wf hsteps hl)
    obtain ⟨w, hw, hages⟩ := htouches.was hv'
    obtain ⟨v, hv, hages'⟩ := ih hw
    exact ⟨v, hv, hages'.trans hages⟩

theorem Steps.stays (h : Steps again l l') (hl : l.Wf) (hv : l s = some v) :
    ∃ v', l' s = some v' ∧ v.Ages v' := by
  induction h with
  | refl => exact ⟨v, hv, .refl v⟩
  | tail hsteps hstep ih =>
    obtain ⟨_, htouches, -⟩ := hstep.touches (Steps.wf hsteps hl)
    obtain ⟨w, hw, hages⟩ := ih
    obtain ⟨v', hv', hages'⟩ := htouches.stays hw
    exact ⟨v', hv', hages.trans hages'⟩

/-- Nothing more happens to a process that has ended. -/
theorem Steps.zombie (h : Steps False l l') (hl : l.Wf) (hv : l s = some v)
    (hz : v.zombie = true) : l' s = some v := by
  induction h with
  | refl => exact hv
  | tail hsteps hstep ih =>
    have hwf := Steps.wf hsteps hl
    obtain ⟨p, htouches, halive⟩ := hstep.touches hwf
    refine htouches.others ih fun hlead => ?_
    have hself := ((hwf.zombie ih).1 hz).1
    rw [hlead] at hself
    cases hself
    rw [halive.resolve_left id v ih] at hz
    cases hz

/-! ## Reaping -/

/-- The tasks for which the test holds are taken out. -/
def without (test : Slot → Vital → Bool) (l : Life) : Life :=
  fun s => (l s).filter fun v => !test s v

/-- What has ended is taken out of the table. -/
inductive Reap : Life → Life → Prop
  /-- A process with all its threads. -/
  | process {l : Life} {p : Slot} {v : Vital} (hp : p ≠ 0) (hv : l p = some v)
      (hz : v.zombie = true) : Reap l (l.without fun s v => s = p || v.leaderSlot = some p)
  | thread {l : Life} {s : Slot} {v : Vital} (hs : s ≠ 0) (hv : l s = some v)
      (hthread : v.isThread = true) (hexited : v.threadExited = true) :
      Reap l (l.without fun x _ => x = s)

def Reaps : Life → Life → Prop := Relation.ReflTransGen Reap

theorem without_eq_some : l.without test s = some v ↔ l s = some v ∧ test s v = false := by
  rw [without, filter_eq_some_iff, Bool.not_eq_true']

/-- Who leads a task that is left is left, and who is taken from a process that is left had
exited. -/
theorem Wf.without (hl : l.Wf)
    (hleader : ∀ {s p : Slot} {v w : Vital}, l s = some v → test s v = false →
      v.leaderSlot = some p → l p = some w → w.leaderSlot = some p → test p w = false)
    (hexited : ∀ {s p : Slot} {v w : Vital}, l s = some v → test s v = true →
      v.leaderSlot = some p → l p = some w → test p w = false → v.threadExited = true) :
    (l.without test).Wf where
  leader := by
    intro s v hv
    rw [without_eq_some] at hv
    obtain ⟨p, w, hp, hw, hlead⟩ := hl.leader hv.1
    exact ⟨p, w, hp, without_eq_some.2 ⟨hw, hleader hv.1 hv.2 hp hw hlead⟩, hlead⟩
  thread := by
    intro s v hv
    exact hl.thread (without_eq_some.1 hv).1
  zombie := by
    intro s v hv
    rw [without_eq_some] at hv
    rw [hl.zombie hv.1]
    refine and_congr_right fun _ => ⟨fun hall x u hu hlead => ?_, fun hall x u hu hlead => ?_⟩
    · exact hall x u (without_eq_some.1 hu).1 hlead
    cases htest : test x u with
    | false => exact hall x u (without_eq_some.2 ⟨hu, htest⟩) hlead
    | true => exact hexited hu htest hlead hv.1 hv.2

theorem Reap.wf (h : Reap l l') (hl : l.Wf) : l'.Wf := by
  cases h with
  | @process p v hp hv hz =>
    have hself : v.leaderSlot = some p := ((hl.zombie hv).1 hz).1
    refine hl.without ?_ ?_
    · intro s q u w _ htest hq _ hlead
      simp only [Bool.or_eq_false_iff, decide_eq_false_iff_not] at htest ⊢
      rw [hlead]
      rw [hq] at htest
      exact ⟨fun hqp => htest.2 (congrArg some hqp), htest.2⟩
    intro s q u w hu htest hq _ hkept
    simp only [Bool.or_eq_true, decide_eq_true_eq, Bool.or_eq_false_iff,
      decide_eq_false_iff_not] at htest hkept
    refine absurd ?_ hkept.1
    rcases htest with rfl | hlead
    · rw [hv] at hu
      cases hu
      exact Option.some.inj (hq.symm.trans hself)
    · exact Option.some.inj (hq.symm.trans hlead)
  | @thread s v hs hv hthread hexited =>
    refine hl.without ?_ ?_
    · intro x q u w _ _ _ hw hlead
      refine decide_eq_false fun hqs => ?_
      subst hqs
      rw [hv] at hw
      cases hw
      rw [(hl.thread hv).2 hlead] at hthread
      cases hthread
    intro x q u w hu htest _ _ _
    rw [of_decide_eq_true htest, hv] at hu
    cases hu
    exact hexited

theorem Reap.was (h : Reap l l') (hv : l' s = some v) : l s = some v := by
  cases h with
  | process => exact (without_eq_some.1 hv).1
  | thread => exact (without_eq_some.1 hv).1

/-- A process that has not ended is not reaped. -/
theorem Reap.stays (h : Reap l l') (hl : l.Wf) (hv : l s = some v)
    (hlead : v.leaderSlot = some s) (hz : v.zombie = false) : l' s = some v := by
  cases h with
  | @process p w hp hw hzombie =>
    have hne : s ≠ p := by
      intro hsp
      subst hsp
      rw [hv] at hw
      cases hw
      rw [hz] at hzombie
      cases hzombie
    refine without_eq_some.2 ⟨hv, ?_⟩
    simp [hlead, hne]
  | @thread x w hx hw hthread hexited =>
    refine without_eq_some.2 ⟨hv, decide_eq_false fun hsx => ?_⟩
    subst hsx
    rw [hv] at hw
    cases hw
    rw [(hl.thread hv).2 hlead] at hthread
    cases hthread

/-- The idle task is not reaped. -/
theorem Reap.idle (h : Reap l l') (hv : l 0 = some v) (hlead : v.leaderSlot = some 0) :
    l' 0 = some v := by
  cases h with
  | process hp hw hz =>
    refine without_eq_some.2 ⟨hv, ?_⟩
    simp [hlead, Ne.symm hp]
  | thread hs hw hthread hexited =>
    exact without_eq_some.2 ⟨hv, decide_eq_false (Ne.symm hs)⟩

theorem Reaps.wf (h : Reaps l l') (hl : l.Wf) : l'.Wf := by
  induction h with
  | refl => exact hl
  | tail _ hreap ih => exact hreap.wf ih

theorem Reaps.was (h : Reaps l l') (hv : l' s = some v) : l s = some v := by
  induction h with
  | refl => exact hv
  | tail _ hreap ih => exact ih (hreap.was hv)

theorem Reaps.stays (h : Reaps l l') (hl : l.Wf) (hv : l s = some v)
    (hlead : v.leaderSlot = some s) (hz : v.zombie = false) : l' s = some v := by
  induction h with
  | refl => exact hv
  | tail hreaps hreap ih => exact hreap.stays (Reaps.wf hreaps hl) ih hlead hz

theorem Reaps.idle (h : Reaps l l') (hv : l 0 = some v) (hlead : v.leaderSlot = some 0) :
    l' 0 = some v := by
  induction h with
  | refl => exact hv
  | tail _ hreap ih => exact hreap.idle ih hlead

/-! ## Births and groups -/

/-- A task is created, or a process is put into another group.  `R` is what is known about
the group and the session that it gets. -/
inductive Act (R : Slot → Int → Int → Prop) : Life → Life → Prop
  | nothing {l : Life} : Act R l l
  | spawn {l : Life} {s : Slot} {pid pgid sid : Int} (hfree : l s = none) (hpid : 0 < pid)
      (h : R s pgid sid) : Act R l (Function.update l s (some (.newborn s pid pgid sid)))
  | thread {l : Life} {s p : Slot} {w : Vital} (hfree : l s = none) (hp : p ≠ 0)
      (hw : l p = some w) (hlead : w.leaderSlot = some p) (hz : w.zombie = false) :
      Act R l (Function.update l s (some (w.sibling p)))
  | regroup {l : Life} {s : Slot} {v : Vital} {pgid sid : Int} (hv : l s = some v)
      (h : R s pgid sid) : Act R l (l.change s (Vital.regroup pgid sid))

theorem update_eq_some {o : Option Vital} :
    Function.update l s o x = some v ↔ (x = s ∧ o = some v) ∨ (x ≠ s ∧ l x = some v) := by
  by_cases hx : x = s
  · subst hx
    simp
  · simp [hx]

/-- A task that has not ended is put into a free slot. -/
theorem Wf.update (hl : l.Wf) (hfree : l s = none) (hlive : v.threadExited = false)
    (hz : v.zombie = false) (hthread : v.isThread = false ↔ v.leaderSlot = some s)
    (hlead : v.leaderSlot = some s ∨
      ∃ p w, v.leaderSlot = some p ∧ l p = some w ∧ w.leaderSlot = some p ∧ w.zombie = false) :
    Wf (Function.update l s (some v)) where
  leader := by
    intro x u hu
    have hkeep : ∀ {q : Slot} {w : Vital}, l q = some w →
        Function.update l s (some v) q = some w := by
      intro q w hw
      refine update_eq_some.2 (.inr ⟨fun hq => ?_, hw⟩)
      rw [hq, hfree] at hw
      cases hw
    rcases update_eq_some.1 hu with ⟨rfl, heq⟩ | ⟨hx, hold⟩
    · cases heq
      rcases hlead with hself | ⟨p, w, hp, hw, hpw, -⟩
      · exact ⟨x, v, hself, by simp, hself⟩
      · exact ⟨p, w, hp, hkeep hw, hpw⟩
    · obtain ⟨p, w, hp, hw, hpw⟩ := hl.leader hold
      exact ⟨p, w, hp, hkeep hw, hpw⟩
  thread := by
    intro x u hu
    rcases update_eq_some.1 hu with ⟨rfl, heq⟩ | ⟨hx, hold⟩
    · cases heq
      exact hthread
    · exact hl.thread hold
  zombie := by
    intro x u hu
    rcases update_eq_some.1 hu with ⟨rfl, heq⟩ | ⟨hx, hold⟩
    · cases heq
      refine ⟨fun h => ?_, fun ⟨hself, hall⟩ => ?_⟩
      · rw [hz] at h
        cases h
      · have hexited := hall x v (by simp) hself
        rw [hlive] at hexited
        cases hexited
    rw [hl.zombie hold]
    refine and_congr_right fun hself => ⟨fun hall y w hw hlead' => ?_, fun hall y w hw hlead' => ?_⟩
    · rcases update_eq_some.1 hw with ⟨rfl, heq⟩ | ⟨hy, hw⟩
      · cases heq
        exfalso
        rcases hlead with hown | ⟨p, w, hp, hw, -, hpz⟩
        · exact hx (Option.some.inj (hlead'.symm.trans hown))
        rw [hlead'] at hp
        cases hp
        rw [hold] at hw
        cases hw
        rw [(hl.zombie hold).2 ⟨hself, hall⟩] at hpz
        cases hpz
      · exact hall y w hw hlead'
    · refine hall y w (update_eq_some.2 (.inr ⟨fun hy => ?_, hw⟩)) hlead'
      rw [hy, hfree] at hw
      cases hw

theorem Wf.regroup (hl : l.Wf) (pgid sid : Int) : (l.change s (Vital.regroup pgid sid)).Wf := by
  have hwas : ∀ {x : Slot} {v' : Vital}, l.change s (Vital.regroup pgid sid) x = some v' →
      ∃ v, l x = some v ∧ v'.leaderSlot = v.leaderSlot ∧ v'.isThread = v.isThread ∧
        v'.zombie = v.zombie ∧ v'.threadExited = v.threadExited := by
    intro x v' hv'
    rw [change_apply, map_eq_some_iff] at hv'
    obtain ⟨v, hv, rfl⟩ := hv'
    refine ⟨v, hv, ?_⟩
    split <;> exact ⟨rfl, rfl, rfl, rfl⟩
  have hstays : ∀ {x : Slot} {v : Vital}, l x = some v →
      ∃ v', l.change s (Vital.regroup pgid sid) x = some v' ∧ v'.leaderSlot = v.leaderSlot ∧
        v'.threadExited = v.threadExited := by
    intro x v hv
    refine ⟨_, by rw [change_apply, hv, map_some], ?_⟩
    split <;> exact ⟨rfl, rfl⟩
  refine ⟨fun {x v'} hv' => ?_, fun {x v'} hv' => ?_, fun {x v'} hv' => ?_⟩ <;>
    obtain ⟨v, hv, hlead, hthread, hz, -⟩ := hwas hv'
  · obtain ⟨p, w, hp, hw, hself⟩ := hl.leader hv
    obtain ⟨w', hw', hlead', -⟩ := hstays hw
    exact ⟨p, w', hlead.trans hp, hw', hlead'.trans hself⟩
  · rw [hthread, hlead]
    exact hl.thread hv
  · rw [hz, hlead, hl.zombie hv]
    refine and_congr_right fun _ => ⟨fun hall y u' hu' hu => ?_, fun hall y u hu hlead' => ?_⟩
    · obtain ⟨u, hold, hl', -, -, he⟩ := hwas hu'
      rw [he]
      exact hall y u hold (hl'.symm.trans hu)
    obtain ⟨u', hu', hl', he⟩ := hstays hu
    rw [← he]
    exact hall y u' hu' (hl'.trans hlead')

theorem Act.wf {R : Slot → Int → Int → Prop} (h : Act R l l') (hl : l.Wf) : l'.Wf := by
  cases h with
  | nothing => exact hl
  | spawn hfree _ _ => exact hl.update hfree rfl rfl ⟨fun _ => rfl, fun _ => rfl⟩ (.inl rfl)
  | @thread s p w hfree hp hw hlead hz =>
    refine hl.update hfree rfl rfl ⟨fun h => (nomatch h), fun h => ?_⟩
      (.inr ⟨p, w, rfl, hw, hlead, hz⟩)
    rw [Option.some.inj h, hfree] at hw
    cases hw
  | regroup _ _ => exact hl.regroup _ _

end Life

end Felix.Kernel
