import Felix.Kernel.SleepContract

/-!
# The timeout of `poll`

A `poll` with a timeout keeps its deadline in the task, and finds it there when it is
executed again after a wait.  The same field is used by `nanosleep` and `FUTEX_WAIT`, and
none of the ways in which such a wait is interrupted clears it.  So a `poll` can take over
the deadline of an earlier call.

`poll_timeout` is about a `poll` that begins without an old deadline: as long as the other
calls of the task store no deadline before its own, it returns 0 only when the timeout has
passed.
-/

namespace Felix.Kernel

open TaskManager

/-- A task without a deadline before `due`. -/
def Patient (due : Nat) (d : Nat) : Prop := d = 0 ∨ due ≤ d
  deriving Decidable

variable {due now : Nat} {c c' : Core} {e : List Event} {x : Slot} {m : TaskManager}

theorem patient_move {S : Prop} (h : Patient due c.deadline)
    (hmove : Move ⟨Patient due, S⟩ now c e c') : Patient due c'.deadline := by
  cases hmove with
  | expire _ _ => exact .inl rfl
  | wake _ _ hd =>
    rcases hd with rfl | rfl
    · exact h
    · exact .inl rfl
  | setDeadline _ hallowed => exact hallowed
  | _ => exact h

/-- The state of a `poll` that began at the uptime `start` and ends at `due`. -/
structure Polling (x : Slot) (start due : Nat) (m : TaskManager) : Prop where
  task : (m.tasks x).isSome = true
  started : start ≤ m.now
  patient : Patient due (m.deadlineOf x)

/-- The descriptors of a `poll` of the task with a given timeout. -/
def Op.pollOf (x : Slot) (timeout : Int) (op : Op) (m : TaskManager) : Option (List Bool) :=
  match op with
  | .syscall cpu _ (.poll _ ready timeout' _) =>
    if m.onCpu cpu = some x ∧ timeout' = timeout then some ready else none
  | _ => none

/-- The counter of the clock does not wrap around, the `poll` has no events behind the
64 descriptors that it looks at, and no other call of the task stores a deadline before
`due`. -/
def Op.LeavesDeadline (x : Slot) (timeout : Int) (due : Nat) (op : Op) (m : TaskManager) : Prop :=
  (op = .tick → m.clock.jiffies.toNat + 1 < 2 ^ 32) ∧
    match op.pollOf x timeout m with
    | some ready => ∀ r ∈ ready.drop 64, r = false
    | none => op.SetsOnly (Patient due) x m

/-- If the step is a `poll` of the task that returns 0, then there is no event and the
timeout has passed since the uptime `start`. -/
def Op.TimesOut (x : Slot) (timeout : Int) (start : Nat) (op : Op) (m : TaskManager) : Prop :=
  match op with
  | .syscall cpu frame (.poll nullFds ready timeout' _) =>
    m.onCpu cpu = some x → timeout' = timeout →
      ((m.saveFrame cpu frame).sysPoll x nullFds ready timeout).1 = some 0 →
        (∀ r ∈ ready, r = false) ∧ start + timeout.toNat ≤ m.now
  | _ => True

instance (x : Slot) (timeout : Int) (start : Nat) (op : Op) (m : TaskManager) :
    Decidable (op.TimesOut x timeout start m) := by
  unfold Op.TimesOut
  split <;> infer_instance

theorem satAdd64_mono {a a' b : Nat} (h : a ≤ a') : satAdd64 a b ≤ satAdd64 a' b := by
  unfold satAdd64
  omega

theorem le_of_satAdd64_le {a b c : Nat} (h : satAdd64 a b ≤ c) (hc : c < 2 ^ 64 - 1) :
    a + b ≤ c := by
  unfold satAdd64 at h
  omega

variable {timeout : Int} {start : Nat} {op : Op} {ready : List Bool}

theorem Polling.setsOnly (h : Polling x start (satAdd64 start timeout.toNat) m)
    (hleaves : op.LeavesDeadline x timeout (satAdd64 start timeout.toNat) m) :
    op.SetsOnly (Patient (satAdd64 start timeout.toNat)) x m := by
  have hpoll := hleaves.2
  split at hpoll
  · rename_i ready hready
    unfold Op.pollOf at hready
    split at hready
    · split at hready
      · rename_i hsame
        rw [hsame.2]
        intro _
        refine ⟨.inl rfl, fun _ _ => .inr (satAdd64_mono ?_)⟩
        rw [saveFrame_eq hsame.1]
        exact h.started
      · cases hready
    · cases hready
  · exact hpoll

theorem Polling.apply (hx : x ≠ 0) (h : Polling x start (satAdd64 start timeout.toNat) m)
    (hleaves : op.LeavesDeadline x timeout (satAdd64 start timeout.toNat) m) :
    Polling x start (satAdd64 start timeout.toNat) (op.apply m) := by
  by_cases htick : op = .tick
  · subst htick
    exact ⟨h.task, Nat.le_trans h.started (uptimeMs_tick (hleaves.1 rfl)), h.patient⟩
  have hdoes : Does ⟨Patient (satAdd64 start timeout.toNat), True⟩ x m (op.apply m) :=
    Op.apply_does hx htick (h.setsOnly hleaves) fun _ => trivial
  obtain ⟨t, ht⟩ := Option.isSome_iff_exists.1 h.task
  obtain ⟨es, t', ht', _, _, hmoves⟩ := hdoes.task t ht
  have hpatient := h.patient
  unfold deadlineOf at hpatient
  rw [ht] at hpatient
  have hafter := hmoves.keeps (fun c => Patient (satAdd64 start timeout.toNat) c.deadline)
    (fun _ _ _ hc hmove => patient_move hc hmove) hpatient
  refine ⟨by rw [ht']; rfl, ?_, ?_⟩
  · have hnow : (op.apply m).now = m.now := congrArg Clock.uptimeMs hdoes.clock
    rw [hnow]
    exact h.started
  · unfold deadlineOf
    rw [ht']
    exact hafter

theorem startPoll_now (timeout : Int) : (m.startPoll x timeout).now = m.now := by
  unfold startPoll
  split <;> rfl

/-- A `poll` that returns 0 has seen no event, and its deadline has passed. -/
theorem sysPoll_zero {nullFds : Bool} (htimeout : 0 < timeout)
    (h : (m.sysPoll x nullFds ready timeout).1 = some 0) :
    readyCount ready = 0 ∧ (m.startPoll x timeout).deadlineOf x ≤ m.now := by
  unfold sysPoll at h
  split at h
  · exact absurd (Option.some.inj h) (by decide)
  split at h
  · rename_i hsome
    -- the number of events fits into the result, so it is not 0 there
    have hle : readyCount ready ≤ 64 :=
      Nat.le_trans List.count_le_length (by rw [List.length_take]; exact Nat.min_le_left ..)
    have hzero := congrArg UInt32.toNat (Option.some.inj h)
    rw [UInt32.toNat_ofNat_of_lt' (show _ < 2 ^ 32 by omega)] at hzero
    have : readyCount ready = 0 := hzero
    omega
  refine ⟨by omega, ?_⟩
  rw [if_neg (by omega)] at h
  split at h
  · rename_i hdue
    rw [← startPoll_now timeout]
    exact hdue.2
  · cases h

theorem not_ready_of_readyCount (hcount : readyCount ready = 0)
    (hrest : ∀ r ∈ ready.drop 64, r = false) : ∀ r ∈ ready, r = false := by
  intro r hr
  rw [← List.take_append_drop 64 ready] at hr
  rcases List.mem_append.1 hr with hfirst | hlast
  · have hnot : true ∉ ready.take 64 := List.count_eq_zero.1 hcount
    cases r
    · rfl
    · exact absurd hfirst hnot
  · exact hrest r hlast

/-- After the first lines of a `poll` the deadline is the one of its first entry or a later
one. -/
theorem Polling.le_deadline (htimeout : 0 < timeout)
    (h : Polling x start (satAdd64 start timeout.toNat) m) :
    satAdd64 start timeout.toNat ≤ (m.startPoll x timeout).deadlineOf x := by
  unfold startPoll
  by_cases hnone : m.deadlineOf x = 0
  · rw [if_pos ⟨htimeout, hnone⟩]
    obtain ⟨t, ht⟩ := Option.isSome_iff_exists.1 h.task
    unfold deadlineOf setDeadline
    rw [modify_self, ht]
    exact satAdd64_mono h.started
  · rw [if_neg fun hboth => hnone hboth.2]
    exact h.patient.resolve_left hnone

theorem Polling.saveFrame (h : Polling x start due m) {cpu : Nat}
    (hcurrent : m.onCpu cpu = some x) (frame : Frame) :
    Polling x start due (m.saveFrame cpu frame) := by
  rw [saveFrame_eq hcurrent]
  obtain ⟨t, ht⟩ := Option.isSome_iff_exists.1 h.task
  have hpatient := h.patient
  unfold deadlineOf at hpatient
  rw [ht] at hpatient
  refine ⟨by rw [modify_self, ht]; rfl, h.started, ?_⟩
  unfold deadlineOf
  rw [modify_self, ht]
  exact hpatient

theorem Polling.timesOut (htimeout : 0 < timeout)
    (h : Polling x start (satAdd64 start timeout.toNat) m)
    (hleaves : op.LeavesDeadline x timeout (satAdd64 start timeout.toNat) m) :
    op.TimesOut x timeout start m := by
  unfold Op.TimesOut
  split
  · rename_i cpu frame nullFds ready timeout' wait
    rintro hcurrent rfl hzero
    have hrest := hleaves.2
    rw [Op.pollOf, if_pos ⟨hcurrent, rfl⟩] at hrest
    obtain ⟨hcount, hdue⟩ := sysPoll_zero htimeout hzero
    refine ⟨not_ready_of_readyCount hcount hrest, ?_⟩
    have hsaved := h.saveFrame hcurrent frame
    have hnow : (m.saveFrame cpu frame).now = m.now := by
      rw [saveFrame_eq hcurrent]
      rfl
    rw [hnow] at hdue
    exact le_of_satAdd64_le (Nat.le_trans (hsaved.le_deadline htimeout) hdue) (uptimeMs_lt _)
  · trivial

/-- A `poll` with a timeout that begins without an old deadline, in a run in which no other
call of the task stores an earlier one, returns 0 only when there is no event and the
timeout has passed since its first entry. -/
theorem poll_timeout (hx : x ≠ 0) {cpu : Nat} {frame : Frame} {nullFds : Bool} {ready : List Bool}
    {timeout : Int} {wait : NetworkWait} (htimeout : 0 < timeout) (hcalls : Calls x cpu m)
    (hfresh : m.deadlineOf x = 0 ∨ satAdd64 m.now timeout.toNat ≤ m.deadlineOf x) {ops : List Op}
    (hops : Every Op.step (Op.LeavesDeadline x timeout (satAdd64 m.now timeout.toNat))
      (.syscall cpu frame (.poll nullFds ready timeout wait) :: ops) m) :
    Every Op.step (Op.TimesOut x timeout m.now)
      (.syscall cpu frame (.poll nullFds ready timeout wait) :: ops) m := by
  obtain ⟨t, ht, _⟩ := (Option.any_eq_true ..).1 hcalls.live
  have hstart : Polling x m.now (satAdd64 m.now timeout.toNat) m :=
    ⟨by rw [ht]; rfl, Nat.le_refl _, hfresh⟩
  refine every_of_inv (Polling x m.now (satAdd64 m.now timeout.toNat))
    (fun op m₁ r m₂ hp hleaves hrun => ?_) (fun op m₁ hp hleaves => hp.timesOut htimeout hleaves)
    hstart hops
  cases hrun
  exact hp.apply hx hleaves

/-- A `poll` of a new task for 5 ms.  A signal wakes the task, and when it comes to its
call again after a tick it returns 0. -/
def pollFive : List Op :=
  [.syscall 0 userFrame (.poll false [false] 5 ⟨0, 0, false, false⟩),
    .syscall 0 userFrame (.kill 1 28), .timer userFrame none false, .tick,
    .syscall 0 userFrame (.poll false [false] 5 ⟨0, 0, false, false⟩)]

set_option maxRecDepth 4000 in
theorem poll_timeout_twoTasks : Every Op.step (Op.LeavesDeadline 1 5 5) pollFive twoTasks ∧
    Every Op.step (Op.TimesOut 1 5 0) pollFive twoTasks := by
  have hpoll : ∀ m : TaskManager, m.onCpu 0 = some 1 → Op.LeavesDeadline 1 5 5
      (.syscall 0 userFrame (.poll false [false] 5 ⟨0, 0, false, false⟩)) m := by
    intro m hcurrent
    refine ⟨fun h => (nomatch h), ?_⟩
    rw [Op.pollOf, if_pos ⟨hcurrent, rfl⟩]
    intro r hr
    cases hr
  have hleaves : Every Op.step (Op.LeavesDeadline 1 5 5) pollFive twoTasks := by
    refine ⟨hpoll _ rfl, fun r m hrun => ?_⟩
    cases hrun
    refine ⟨⟨fun h => (nomatch h), fun _ => trivial⟩, fun r m hrun => ?_⟩
    cases hrun
    refine ⟨⟨fun h => (nomatch h), trivial⟩, fun r m hrun => ?_⟩
    cases hrun
    refine ⟨⟨fun _ => by decide +kernel, trivial⟩, fun r m hrun => ?_⟩
    cases hrun
    exact ⟨hpoll _ (by decide +kernel), fun _ _ _ => trivial⟩
  have htime := poll_timeout (m := twoTasks) (by decide)
    (show (0 : Int) < 5 by decide) ⟨rfl, by decide⟩ (.inl (by decide)) hleaves
  exact ⟨hleaves, htime⟩

/-- A task sleeps for 5 ms, a signal wakes it and it is selected. -/
def sleptTask : TaskManager :=
  Op.run [.syscall 0 userFrame (.nanosleep 0 5000000), .syscall 0 userFrame (.kill 1 28),
    .timer userFrame none false, .tick] twoTasks

/-- Its next call is a `poll` for a minute, which returns 0 at once. -/
theorem sleptTask_poll_too_short : (sleptTask.tasks 1).isSome = true ∧ sleptTask.onCpu 0 = some 1 ∧
    ¬ Every Op.step (Op.TimesOut 1 60000 sleptTask.now)
      [.syscall 0 userFrame (.poll false [false] 60000 ⟨0, 0, false, false⟩)] sleptTask := by
  decide +kernel

end Felix.Kernel
