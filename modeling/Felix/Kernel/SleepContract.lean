import Felix.Base.Runs
import Felix.Kernel.StopContract

/-!
# How long a task sleeps

`nanosleep` stores a deadline and blocks its task.  A task that is woken returns 0 from
the call, whatever woke it: besides the clock that can be a signal that is queued for its
process, and `continue_task`, which makes every thread of the process runnable.

`nanosleep_on_time` is about runs without such signals.  The task is then asleep, or it was
stopped or ended, or the deadline has passed.
-/

namespace Felix.Kernel

open TaskManager List

/-! ## The clock -/

theorem satMul64_mono {a a' b : Nat} (h : a ≤ a') : satMul64 a b ≤ satMul64 a' b := by
  have hmul := Nat.mul_le_mul_right b h
  unfold satMul64
  omega

/-- The uptime grows as long as the counter does not wrap around. -/
theorem uptimeMs_tick {c : Clock} (h : c.jiffies.toNat + 1 < 2 ^ 32) :
    c.uptimeMs ≤ c.tick.uptimeMs := by
  have hnext : c.tick.jiffies.toNat = c.jiffies.toNat + 1 := by
    exact Nat.mod_eq_of_lt h
  unfold Clock.uptimeMs
  rw [hnext]
  unfold Clock.tick
  split
  · exact Nat.le_refl 0
  · exact Nat.div_le_div_right (satMul64_mono (satMul64_mono (Nat.le_succ _)))

/-! ## Waiting for the deadline -/

/-- A task that waits for the deadline `due`, or that cannot run, or the deadline has
passed; and it was not selected before. -/
structure Sleeps (due now : Nat) (es : List Event) (c : Core) : Prop where
  events : ∀ u, Event.selected u ∈ es → due ≤ u ∧ u ≤ now
  core : due ≤ now ∨ c = ⟨false, .blocked .timer, due⟩ ∨
    (c.running = false ∧ (c.state = .stopped ∨ c.state = .zombie))

variable {due now : Nat} {es e : List Event} {c c' : Core}

section

variable (h : Sleeps due now es c)
include h

theorem Sleeps.due_of_running (hrunning : c.running = true) : due ≤ now := by
  rcases h.core with hdue | hasleep | hinert
  · exact hdue
  · rw [hasleep] at hrunning
    cases hrunning
  · exact absurd hrunning (by rw [hinert.1]; decide)

theorem Sleeps.due_of_blocked {reason : WaitReason}
    (hstate : c.state = .blocked reason) : due ≤ now ∨ (reason = .timer ∧ c.deadline = due) := by
  rcases h.core with hdue | hasleep | hinert
  · exact .inl hdue
  · rw [hasleep] at hstate ⊢
    cases hstate
    exact .inr ⟨rfl, rfl⟩
  rw [hstate] at hinert
  rcases hinert.2 with hstopped | hzombie
  · cases hstopped
  · cases hzombie

theorem Sleeps.append (he : ∀ u, Event.selected u ∉ e)
    (hcore : due ≤ now ∨ c' = ⟨false, .blocked .timer, due⟩ ∨
      (c'.running = false ∧ (c'.state = .stopped ∨ c'.state = .zombie))) :
    Sleeps due now (e ++ es) c' := by
  refine ⟨fun u hu => ?_, hcore⟩
  rcases mem_append.1 hu with hnew | hold
  · exact absurd hnew (he u)
  · exact h.events u hold

theorem Sleeps.move {D : Nat → Prop}
    (hmove : Move ⟨D, due ≤ now⟩ now c e c') : Sleeps due now (e ++ es) c' := by
  cases hmove with
  | keep hquiet =>
    refine h.append (fun u hu => ?_) h.core
    exact hquiet _ hu
  | expire hstate hdue =>
    refine h.append (fun u hu => (nomatch hu)) (.inl ?_)
    rcases h.due_of_blocked hstate with hle | ⟨_, hdeadline⟩
    · exact hle
    · exact hdeadline ▸ hdue
  | wake hstate hreason _ =>
    refine h.append (fun u hu => (nomatch hu)) (.inl ?_)
    exact (h.due_of_blocked hstate).resolve_right fun htimer => hreason htimer.1
  | signal _ hallowed =>
    exact h.append (fun u hu => (nomatch mem_singleton.1 hu)) (.inl hallowed)
  | stop => exact h.append (fun u hu => (nomatch mem_singleton.1 hu)) (.inr (.inr ⟨rfl, .inl rfl⟩))
  | resume hallowed =>
    exact h.append (fun u hu => (nomatch mem_singleton.1 hu)) (.inl hallowed)
  | kill sig =>
    exact h.append (fun u hu => (nomatch mem_singleton.1 hu)) (.inr (.inr ⟨rfl, .inr rfl⟩))
  | exit => exact h.append (fun u hu => (nomatch mem_singleton.1 hu)) (.inr (.inr ⟨rfl, .inr rfl⟩))
  | putBack hrunning => exact h.append (fun u hu => (nomatch hu)) (.inl (h.due_of_running hrunning))
  | setDeadline hrunning _ =>
    exact h.append (fun u hu => (nomatch hu)) (.inl (h.due_of_running hrunning))
  | block hrunning => exact h.append (fun u hu => (nomatch hu)) (.inl (h.due_of_running hrunning))
  | select hrunning _ =>
    have hdue := h.due_of_running hrunning
    refine ⟨fun u hu => ?_, .inl hdue⟩
    rcases mem_cons.1 hu with heq | hold
    · cases heq
      exact ⟨hdue, Nat.le_refl _⟩
    · exact h.events u hold

end

/-! ## Runs -/

/-- A step of a run. -/
def Op.step (op : Op) (m : TaskManager) : Res (Unit × TaskManager) := .ok ((), op.apply m)

/-- If the event is that a task was selected, then this was not before the time `ns`,
in nanoseconds. -/
def Event.NotBefore (ns : Nat) : Event → Prop
  | .selected u => ns ≤ u * 1000000
  | _ => True

instance (ns : Nat) (e : Event) : Decidable (e.NotBefore ns) := by
  unfold Event.NotBefore
  split <;> infer_instance

/-- The step does not select the task before the time. -/
def Op.OnTime (x : Slot) (ns : Nat) (op : Op) (m : TaskManager) : Prop :=
  ∀ e ∈ newEvents x m (op.apply m), e.NotBefore ns
  deriving Decidable

/-- The counter of the clock does not wrap around, and before the deadline no signal wakes
the task. -/
def Op.Undisturbed (x : Slot) (due : Nat) (op : Op) (m : TaskManager) : Prop :=
  (op = .tick → m.clock.jiffies.toNat + 1 < 2 ^ 32) ∧ (op.Reaches x m → due ≤ m.now)

variable {x : Slot} {m : TaskManager} {op : Op}

/-- The task in a slot waits for the deadline. -/
def SleepsAt (x : Slot) (due : Nat) (m : TaskManager) : Prop :=
  ∃ t, m.tasks x = some t ∧ Sleeps due m.now [] t.core

/-- The task in a slot is not selected before the deadline. -/
def SelectedDue (x : Slot) (due : Nat) (m m' : TaskManager) : Prop :=
  ∃ es, m'.history x = es ++ m.history x ∧
    ∀ u, Event.selected u ∈ es → due ≤ u ∧ u < 2 ^ 64 - 1

/-- Moves without signals keep the task asleep, or select it behind the deadline. -/
theorem SleepsAt.does {D : Nat → Prop} {m' : TaskManager} (h : SleepsAt x due m)
    (hdoes : Does ⟨D, due ≤ m.now⟩ x m m') : SleepsAt x due m' ∧ SelectedDue x due m m' := by
  obtain ⟨t, ht, hsleeps⟩ := h
  obtain ⟨es, t', ht', _, hlog, hmoves⟩ := hdoes.task t ht
  have hafter := hmoves.inv (Sleeps due m.now) (fun _ _ _ _ hc hmove => hc.move hmove) hsleeps
  rw [append_nil] at hafter
  have hnow : m'.now = m.now := congrArg Clock.uptimeMs hdoes.clock
  refine ⟨⟨t', ht', fun u hu => absurd hu not_mem_nil, ?_⟩, es, hlog, fun u hu => ?_⟩
  · rw [hnow]
    exact hafter.core
  · have hle := hafter.events u hu
    exact ⟨hle.1, Nat.lt_of_le_of_lt hle.2 (uptimeMs_lt m.clock)⟩

theorem SleepsAt.apply (hx : x ≠ 0) (h : SleepsAt x due m)
    (hquiet : op.Undisturbed x due m) :
    SleepsAt x due (op.apply m) ∧ SelectedDue x due m (op.apply m) := by
  by_cases htick : op = .tick
  · subst htick
    obtain ⟨t, ht, hsleeps⟩ := h
    refine ⟨⟨t, ht, fun u hu => absurd hu not_mem_nil, ?_⟩, [], rfl,
      fun u hu => absurd hu not_mem_nil⟩
    exact hsleeps.core.imp_left fun hdue => Nat.le_trans hdue (uptimeMs_tick (hquiet.1 rfl))
  · exact h.does (Op.apply_does hx htick (Op.setsOnly_of_forall fun _ => trivial) hquiet.2)

variable {sec nsec : Int} {wait start : Nat}

/-- The deadline in milliseconds is not before the requested time. -/
theorem waitMs_le {u : Nat} (hwait : waitMs sec nsec = some wait)
    (hdue : satAdd64 start wait ≤ u) (hu : u < 2 ^ 64 - 1) :
    start * 1000000 + (sec.toNat * 1000000000 + nsec.toNat) ≤ u * 1000000 := by
  unfold waitMs at hwait
  split at hwait
  · cases hwait
  cases hwait
  unfold satAdd64 satMul64 at hdue
  omega

theorem SelectedDue.onTime (hwait : waitMs sec nsec = some wait)
    (h : SelectedDue x (satAdd64 start wait) m (op.apply m)) :
    op.OnTime x (start * 1000000 + (sec.toNat * 1000000000 + nsec.toNat)) m := by
  obtain ⟨es, hlog, hevents⟩ := h
  intro e he
  rw [newEvents_eq hlog] at he
  cases e with
  | selected u => exact waitMs_le hwait (hevents u he).1 (hevents u he).2
  | _ => trivial

theorem nanosleep_sleepsAt (hx : x ≠ 0) {cpu : Nat} (frame : Frame)
    (hcalls : Calls x cpu m) (hwait : waitMs sec nsec = some wait) :
    SleepsAt x (satAdd64 m.now wait) ((Op.syscall cpu frame (.nanosleep sec nsec)).apply m) ∧
      SelectedDue x (satAdd64 m.now wait) m
        ((Op.syscall cpu frame (.nanosleep sec nsec)).apply m) := by
  obtain ⟨t, ht, _⟩ := (Option.any_eq_true ..).1 hcalls.live
  -- the state in which the task has its registers on the stack and the result 0 in them
  generalize hready : (m.saveFrame cpu frame).setEax x 0 = m₀
  have hsaved : ∃ t₀, m₀.tasks x = some t₀ := by
    rw [← hready, saveFrame_eq hcalls.current]
    unfold setEax
    rw [modify_self, modify_self, ht]
    exact ⟨_, rfl⟩
  have hnow : m₀.now = m.now := by
    rw [← hready, saveFrame_eq hcalls.current]
    rfl
  have hlog : m₀.history = m.history := by
    rw [← hready, saveFrame_eq hcalls.current]
    rfl
  have happly : (Op.syscall cpu frame (.nanosleep sec nsec)).apply m = (if wait = 0 then m₀
      else (m₀.modify x (sleepUntil (satAdd64 m₀.now wait))).schedule cpu).deliverPending
        cpu := by
    show m.syscallHandler cpu frame (.nanosleep sec nsec) = _
    rw [syscallHandler_eq hcalls frame, ← hready]
    show (sysNanosleepBlock cpu x sec nsec _).deliverPending cpu = _
    unfold sysNanosleepBlock
    rw [hwait]
  obtain ⟨t₀, ht₀⟩ := hsaved
  rw [happly, SelectedDue, ← hlog, ← hnow]
  split
  · rename_i hzero
    refine SleepsAt.does (D := fun _ => True) ⟨t₀, ht₀, fun u hu => absurd hu not_mem_nil,
      .inl ?_⟩ (deliverPending_does hx)
    rw [hzero]
    exact Nat.min_le_left ..
  have hasleep : SleepsAt x (satAdd64 m₀.now wait)
      (m₀.modify x (sleepUntil (satAdd64 m₀.now wait))) := by
    refine ⟨sleepUntil (satAdd64 m₀.now wait) t₀, ?_,
      fun u hu => absurd hu not_mem_nil, .inr (.inl (sleepUntil_core ..).2)⟩
    rw [modify_self, ht₀]
    rfl
  exact hasleep.does (D := fun _ => True)
    ((schedule_does hx).trans (deliverPending_does hx))

/-- Along a run in which no signal wakes the task before its deadline, a task that sleeps
is not selected before the requested time has passed. -/
theorem nanosleep_on_time (hx : x ≠ 0) {cpu wait : Nat} {frame : Frame} {sec nsec : Int}
    (hcalls : Calls x cpu m) (hwait : waitMs sec nsec = some wait) {ops : List Op}
    (hquiet : Every Op.step (Op.Undisturbed x (satAdd64 m.now wait)) ops
      ((Op.syscall cpu frame (.nanosleep sec nsec)).apply m)) :
    Every Op.step (Op.OnTime x (m.now * 1000000 + (sec.toNat * 1000000000 + nsec.toNat)))
      (.syscall cpu frame (.nanosleep sec nsec) :: ops) m := by
  obtain ⟨hsleeps, hselected⟩ := nanosleep_sleepsAt hx frame hcalls hwait
  refine ⟨hselected.onTime hwait, fun r m' hrun => ?_⟩
  cases hrun
  refine every_of_inv (SleepsAt x (satAdd64 m.now wait)) (fun op m₁ r m₂ hs htame hrun => ?_)
    (fun op m₁ hs htame => ?_) hsleeps hquiet
  · cases hrun
    exact (hs.apply hx htame).1
  · exact (hs.apply hx htame).2.onTime hwait

set_option maxRecDepth 4000 in
/-- A task sleeps for 5 ms, and is selected when the clock has moved. -/
theorem nanosleep_on_time_twoTasks :
    Every Op.step (Op.Undisturbed 1 5) [.timer userFrame none false, .tick,
      .timer userFrame none false]
      ((Op.syscall 0 userFrame (.nanosleep 0 5000000)).apply twoTasks) ∧
    Every Op.step (Op.OnTime 1 5000000) [.syscall 0 userFrame (.nanosleep 0 5000000),
      .timer userFrame none false, .tick, .timer userFrame none false] twoTasks := by
  have hquiet : ∀ due, Every Op.step (Op.Undisturbed 1 due) [.timer userFrame none false, .tick,
      .timer userFrame none false]
      ((Op.syscall 0 userFrame (.nanosleep 0 5000000)).apply twoTasks) := by
    intro due
    refine ⟨⟨fun h => (nomatch h), False.elim⟩, fun r m hrun => ?_⟩
    cases hrun
    refine ⟨⟨fun _ => by decide +kernel, False.elim⟩, fun r m hrun => ?_⟩
    cases hrun
    exact ⟨⟨fun h => (nomatch h), False.elim⟩, fun _ _ _ => trivial⟩
  have htime := nanosleep_on_time (by decide) ⟨rfl, by decide⟩
    (show waitMs 0 5000000 = some 5 by decide) (hquiet _)
  exact ⟨hquiet 5, htime⟩

set_option maxRecDepth 4000 in
/-- A task sleeps for a second.  The signal `SIGWINCH` wakes it at once. -/
theorem twoTasks_sleep_too_short :
    ¬ Every Op.step (Op.OnTime 1 1000000000) [.syscall 0 userFrame (.nanosleep 1 0),
      .syscall 0 userFrame (.kill 1 28), .timer userFrame none false] twoTasks := by
  decide +kernel

end Felix.Kernel
