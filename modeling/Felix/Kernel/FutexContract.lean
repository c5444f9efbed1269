import Felix.Base.Runs
import Felix.Kernel.Changes
import Felix.Kernel.Futex
import Felix.Kernel.StopContract

/-!
# Waiting for a futex

Tasks wait for futexes, with a timeout or without one, and wake each other, while timers
expire and signals arrive.  `Book` is the kernel together with the futex that each task
waits for and with what happened to its waits.

`futex_contract` is about every run: a wait whose word has changed does not block, a call to
wake wakes as many of the tasks that wait for its futex as it can and should and touches no
other task, and a wait does not end twice, so that none is both woken and timed out.
-/

namespace Felix.Kernel

open TaskManager List

/-- The task waits for a futex. -/
def Task.Waiting (t : Task) : Prop := t.state = .blocked .futex
  deriving Decidable

/-! ## Changes of a task that waits -/

/-- No wait begins, and the result of a call changes only when a wait times out. -/
structure NoNewWait (t t' : Task) : Prop where
  pid : t'.pid = t.pid
  eax : t'.frame.eax = t.frame.eax ∨ t.Waiting ∧ ¬ t'.Waiting ∧ t'.frame.eax = etimedout
  waits : t'.Waiting → t.Waiting ∧ t'.futexKey = t.futexKey ∧ t'.running = t.running

namespace NoNewWait

variable {t t' t'' : Task}

theorem refl (t : Task) : NoNewWait t t := ⟨rfl, .inl rfl, fun h => ⟨h, rfl, rfl⟩⟩

theorem trans (h : NoNewWait t t') (h' : NoNewWait t' t'') : NoNewWait t t'' := by
  refine ⟨h'.pid.trans h.pid, ?_, fun hw => ?_⟩
  · rcases h'.eax with heq' | ⟨hw', hnot', heax⟩
    · rcases h.eax with heq | ⟨hw, hnot, heax⟩
      · exact .inl (heq'.trans heq)
      · exact .inr ⟨hw, fun hw'' => hnot (h'.waits hw'').1, heq'.trans heax⟩
    · exact .inr ⟨(h.waits hw').1, hnot', heax⟩
  · obtain ⟨hw', hkey', hrun'⟩ := h'.waits hw
    obtain ⟨hw, hkey, hrun⟩ := h.waits hw'
    exact ⟨hw, hkey'.trans hkey, hrun'.trans hrun⟩

theorem of_not_waiting (hpid : t'.pid = t.pid) (heax : t'.frame.eax = t.frame.eax)
    (h : ¬ t'.Waiting) : NoNewWait t t' :=
  ⟨hpid, .inl heax, fun hw => absurd hw h⟩

theorem wake (t : Task) : NoNewWait t t.wake := .of_not_waiting rfl rfl fun h => (nomatch h)

theorem expire (now : Nat) (t : Task) : NoNewWait t (t.expire now) := by
  unfold Task.expire
  split
  · split
    · exact .of_not_waiting rfl rfl fun h => (nomatch h)
    · exact .refl t
  · split
    · exact .wake t
    · exact .refl t
  · rename_i hstate
    split
    · exact ⟨rfl, .inr ⟨hstate, fun h => (nomatch h), rfl⟩, fun h => (nomatch h)⟩
    · exact .refl t
  · exact .refl t

theorem queue (sig : Nat) (t : Task) : NoNewWait t (t.queue sig) := by
  unfold Task.queue
  dsimp only
  split
  · exact .of_not_waiting rfl rfl fun h => (nomatch h)
  · exact ⟨rfl, .inl rfl, fun h => ⟨h, rfl, rfl⟩⟩

theorem of_change (h : Task.Change t t') : NoNewWait t t' := by
  cases h with
  | expire now => exact expire now t
  | wakeFor reason =>
    unfold Task.wakeFor
    split
    · exact wake t
    · exact .refl t
  | putBack =>
    unfold putBack
    split
    · exact .of_not_waiting rfl rfl fun h => (nomatch h)
    · exact .refl t
  | queue sig => exact queue sig t
  | enter | halt | resume | kill => exact .of_not_waiting rfl rfl fun h => (nomatch h)
  | noteStop | noteContinue | bury | adopt | signals | jump =>
    exact ⟨rfl, .inl rfl, fun h => ⟨h, rfl, rfl⟩⟩

theorem of_changes (h : Task.Changes t t') : NoNewWait t t' := by
  induction h with
  | refl => exact .refl t
  | tail _ hchange ih => exact ih.trans (.of_change hchange)

end NoNewWait

/-! ## What happened to a task -/

/-- What can happen to the waits of a task. -/
inductive WaitEvent where
  | began
  | woken
  | timedOut
  /-- The wait was ended by a signal. -/
  | interrupted
  /-- The task made a call that is over. -/
  | called
  deriving DecidableEq, Repr

namespace WaitEvent

/-- The wait is over. -/
def ends : WaitEvent → Bool
  | .woken | .timedOut | .interrupted => true
  | .began | .called => false

/-- Every wait ends once at most: before the end of a wait comes its begin.  The newest event
is first. -/
def Once : List WaitEvent → Prop
  | [] => True
  | e :: es => (e.ends = true → es.head? = some .began) ∧ Once es

/-- The task has the result that belongs to the end of its wait. -/
def Reports (es : List WaitEvent) (t : Task) : Prop :=
  match es.head? with
  | some .woken => t.frame.eax = 0
  | some .timedOut => t.frame.eax = etimedout
  | _ => True

end WaitEvent

open WaitEvent

/-- What holds of a task between two steps. -/
structure TaskBook (t : Task) (name : Option FutexName) (log : List WaitEvent) : Prop where
  pid : 0 ≤ t.pid ∧ t.pid < 2 ^ 31
  reports : Reports log t
  waits : t.Waiting → t.running = false ∧ t.frame.eax = 0 ∧ log.head? = some .began ∧
    ∃ n, name = some n ∧ n.Proper ∧ t.futexKey = n.key

/-- What happens to a task that does not call and is not woken by a call. -/
def idleNews (t t' : Task) : List WaitEvent :=
  if t.Waiting ∧ ¬ t'.Waiting then
    [if t'.frame.eax = etimedout then .timedOut else .interrupted]
  else []

namespace TaskBook

variable {t t' : Task} {name : Option FutexName} {log : List WaitEvent}

theorem once_idleNews (h : TaskBook t name log) (hlog : Once log) :
    Once (idleNews t t' ++ log) := by
  unfold idleNews
  split
  · exact ⟨fun _ => (h.waits (And.left ‹_›)).2.2.1, hlog⟩
  · exact hlog

/-- A task that does not wait keeps its result. -/
theorem reports_of_eax (hlog : Reports log t) (heax : t'.frame.eax = t.frame.eax) :
    Reports log t' := by
  unfold Reports at ⊢
  rw [heax]
  exact hlog

theorem changes (h : TaskBook t name log) (hchanges : Task.Changes t t') :
    TaskBook t' name (idleNews t t' ++ log) := by
  have hnew := NoNewWait.of_changes hchanges
  refine ⟨hnew.pid ▸ h.pid, ?_, fun hw' => ?_⟩
  · unfold idleNews
    split
    · by_cases heax : t'.frame.eax = etimedout
      · rw [if_pos heax]
        exact heax
      · rw [if_neg heax]
        trivial
    rename_i hnot
    rcases hnew.eax with heax | ⟨hw, hnot', -⟩
    · exact reports_of_eax h.reports heax
    · exact absurd ⟨hw, hnot'⟩ hnot
  · obtain ⟨hw, hkey, hrun⟩ := hnew.waits hw'
    obtain ⟨hrunning, heax, hbegan, n, hname, hproper, hn⟩ := h.waits hw
    have hnone : idleNews t t' = [] := if_neg fun hend => hend.2 hw'
    rw [hnone]
    refine ⟨hrun.trans hrunning, ?_, hbegan, n, hname, hproper, hkey.trans hn⟩
    rcases hnew.eax with hsame | ⟨-, hnot, -⟩
    · exact hsame.trans heax
    · exact absurd hw' hnot

theorem wakeFutex (h : TaskBook t name log) (hw : t.Waiting) :
    TaskBook (wakeFutex t) name (.woken :: log) :=
  ⟨h.pid, (h.waits hw).2.1, fun hw' => (nomatch hw')⟩

end TaskBook

/-! ## Steps -/

namespace TaskManager

def waiting (m : TaskManager) (s : Slot) : Bool := (m.tasks s).any fun t => t.Waiting

def runnable (m : TaskManager) (s : Slot) : Bool :=
  (m.tasks s).any fun t => t.state = .runnable && t.running

def eaxOf (m : TaskManager) (s : Slot) : Option UInt32 := (m.tasks s).map fun t => t.frame.eax

end TaskManager

/-- A step of the tasks that use futexes, of the timers or of the signals. -/
inductive FutexOp where
  | call (cpu : Nat) (thread : Slot) (c : FutexCall) (mem : UserMemory)
  | tick
  /-- Timers expire, and another task is selected. -/
  | switch (cpu : Nat)
  | signal (slot : Slot) (sig : Nat)
  | deliver (cpu : Nat)

namespace FutexOp

/-- A task that cannot run does not get to its call. -/
def apply : FutexOp → TaskManager → TaskManager
  | .call cpu thread c mem, m =>
    if m.barred thread = true then m.schedule cpu else m.sysFutex cpu thread c mem
  | .tick, m => { m with clock := m.clock.tick }
  | .switch cpu, m => m.schedule cpu
  | .signal slot sig, m => (m.signalSlot slot sig).2
  | .deliver cpu, m => m.deliverPending cpu

/-- The task whose call happens. -/
def caller : FutexOp → TaskManager → Option Slot
  | .call _ thread _ _, m => if m.barred thread = true then none else some thread
  | _, _ => none

/-- The call is one to wake. -/
def wakes : FutexOp → TaskManager → Bool
  | .call _ thread c _, m => !m.barred thread && c.cmd = futexCmdWake
  | _, _ => false

/-- The futex of the call. -/
def futex : FutexOp → TaskManager → Option FutexName
  | .call _ thread c mem, m => m.futexName thread c mem
  | _, _ => none

/-- What happens to the task in a slot. -/
def news (op : FutexOp) (m : TaskManager) (s : Slot) : List WaitEvent :=
  match m.tasks s, (op.apply m).tasks s with
  | some t, some t' =>
    if op.caller m = some s then [if t'.Waiting then .began else .called]
    else if op.wakes m = true ∧ t.Waiting ∧ ¬ t'.Waiting then [.woken]
    else idleNews t t'
  | _, _ => []

end FutexOp

/-- The kernel, with the futex that each task waits for and with what happened to its waits. -/
structure Book where
  kernel : TaskManager
  name : Slot → Option FutexName
  log : Slot → List WaitEvent

namespace Book

/-- No task waits at the start. -/
def start (m : TaskManager) : Book := ⟨m, fun _ => none, fun _ => []⟩

def next (op : FutexOp) (b : Book) : Book where
  kernel := op.apply b.kernel
  name := fun s =>
    if op.caller b.kernel = some s ∧ (op.apply b.kernel).waiting s = true then op.futex b.kernel
    else b.name s
  log := fun s => op.news b.kernel s ++ b.log s

def step (op : FutexOp) (b : Book) : Res (Unit × Book) := .ok ((), b.next op)

/-- The tasks that wait for a futex. -/
def waiters (b : Book) (n : FutexName) : List Slot :=
  (List.finRange 32).filter fun s => b.kernel.waiting s && b.name s = some n

/-- What a call to wake does. -/
structure Wakes (b : Book) (n : FutexName) (thread : Slot) (count : Nat) (m' : TaskManager) :
    Prop where
  result : m'.eaxOf thread = some (UInt32.ofNat (min count (b.waiters n).length))
  woken : ((b.waiters n).filter m'.runnable).length = min count (b.waiters n).length
  left : ∀ s ∈ b.waiters n, m'.runnable s = false → m'.tasks s = b.kernel.tasks s
  others : ∀ s, s ≠ thread → s ∉ b.waiters n → m'.tasks s = b.kernel.tasks s

/-- What a call does. -/
def CallLawful (op : FutexOp) (b : Book) : Prop :=
  match op with
  | .call _ thread c mem => b.kernel.barred thread = false →
    (c.cmd = futexCmdWait → mem.load thread c.uaddr ≠ c.val →
      ∃ result, op.apply b.kernel = b.kernel.setEax thread result) ∧
    (c.op &&& futexClockRealtime = 0 → c.cmd = futexCmdWake →
      ∀ n ∈ b.kernel.futexName thread c mem, Wakes b n thread c.val.toNat (op.apply b.kernel))
  | _ => True

/-- What holds of every step.  No wait is both woken and timed out, and the task has the
result that belongs to the end of its wait until its next call. -/
def Lawful (op : FutexOp) (b : Book) : Prop :=
  CallLawful op b ∧ ∀ s, Once ((b.next op).log s) ∧
    ∀ t ∈ (op.apply b.kernel).tasks s, Reports ((b.next op).log s) t

end Book

/-! ## The invariant -/

namespace FutexOp

variable {m : TaskManager} {op : FutexOp} {s : Slot} {t t' : Task}

theorem news_of_caller (hcaller : op.caller m = some s) (ht : m.tasks s = some t)
    (ht' : (op.apply m).tasks s = some t') :
    op.news m s = [if t'.Waiting then .began else .called] := by
  simp only [news, ht, ht', if_pos hcaller]

theorem news_of_woken (hcaller : op.caller m ≠ some s) (hwakes : op.wakes m = true)
    (ht : m.tasks s = some t) (ht' : (op.apply m).tasks s = some t') (hw : t.Waiting)
    (hnot : ¬ t'.Waiting) : op.news m s = [.woken] := by
  simp only [news, ht, ht', if_neg hcaller]
  rw [if_pos ⟨hwakes, hw, hnot⟩]

theorem news_of_idle (hcaller : op.caller m ≠ some s) (hwakes : op.wakes m = false)
    (ht : m.tasks s = some t) (ht' : (op.apply m).tasks s = some t') :
    op.news m s = idleNews t t' := by
  simp only [news, ht, ht', if_neg hcaller]
  rw [if_neg fun h => by rw [hwakes] at h; exact absurd h.1 (by decide)]

theorem news_of_same (hcaller : op.caller m ≠ some s) (h : (op.apply m).tasks s = m.tasks s) :
    op.news m s = [] := by
  cases ht : m.tasks s with
  | none => simp only [news, ht]
  | some t =>
    simp only [news, h, ht, if_neg hcaller, idleNews]
    rw [if_neg fun h => h.2.2 h.2.1, if_neg fun h => h.2 h.1]

end FutexOp

namespace Book

variable {b : Book} {op : FutexOp} {s thread : Slot}

/-- What holds of a slot between two steps. -/
def SlotOk (o : Option Task) (name : Option FutexName) (log : List WaitEvent) : Prop :=
  Once log ∧ ∀ t, o = some t → TaskBook t name log

def Inv (b : Book) : Prop := ∀ s, SlotOk (b.kernel.tasks s) (b.name s) (b.log s)

theorem name_next (h : op.caller b.kernel ≠ some s) : (b.next op).name s = b.name s :=
  if_neg fun hcall => h hcall.1

theorem slotOk_same (h : b.Inv) (hcaller : op.caller b.kernel ≠ some s)
    (hsame : (op.apply b.kernel).tasks s = b.kernel.tasks s) :
    SlotOk ((b.next op).kernel.tasks s) ((b.next op).name s) ((b.next op).log s) := by
  show SlotOk ((op.apply b.kernel).tasks s) _ (op.news b.kernel s ++ b.log s)
  rw [hsame, name_next hcaller, FutexOp.news_of_same hcaller hsame]
  exact h s

theorem slotOk_idle (h : b.Inv) (hcaller : op.caller b.kernel ≠ some s)
    (hwakes : op.wakes b.kernel = false)
    (hrel : Option.Rel Task.Changes (b.kernel.tasks s) ((op.apply b.kernel).tasks s)) :
    SlotOk ((b.next op).kernel.tasks s) ((b.next op).name s) ((b.next op).log s) := by
  obtain ⟨honce, hbook⟩ := h s
  show SlotOk ((op.apply b.kernel).tasks s) _ (op.news b.kernel s ++ b.log s)
  rw [name_next hcaller]
  generalize ht : b.kernel.tasks s = o at hrel
  generalize ht' : (op.apply b.kernel).tasks s = o' at hrel
  cases hrel with
  | none =>
    rw [FutexOp.news_of_same hcaller (ht'.trans ht.symm)]
    exact ⟨honce, fun t ht => (nomatch ht)⟩
  | some hchanges =>
    rw [FutexOp.news_of_idle hcaller hwakes ht ht']
    refine ⟨(hbook _ ht).once_idleNews honce, fun u hu => ?_⟩
    cases hu
    exact (hbook _ ht).changes hchanges

/-- A task whose call happens runs, so that it does not wait. -/
theorem caller_spec (h : b.Inv) (hcaller : b.kernel.barred thread = false) :
    ∃ t, b.kernel.tasks thread = some t ∧ TaskBook t (b.name thread) (b.log thread) ∧
      ¬ t.Waiting := by
  unfold barred at hcaller
  cases ht : b.kernel.tasks thread with
  | none =>
    rw [ht] at hcaller
    cases hcaller
  | some t =>
    have hbook := (h thread).2 t ht
    refine ⟨t, rfl, hbook, fun hw => ?_⟩
    simp [ht, (hbook.waits hw).1] at hcaller

theorem slotOk_caller {t t' : Task} (h : b.Inv) (hcaller : op.caller b.kernel = some s)
    (ht : b.kernel.tasks s = some t) (ht' : (op.apply b.kernel).tasks s = some t')
    (hpid : t'.pid = t.pid) (hwaits : t'.Waiting → t'.running = false ∧ t'.frame.eax = 0 ∧
      ∃ n, op.futex b.kernel = some n ∧ n.Proper ∧ t'.futexKey = n.key) :
    SlotOk ((b.next op).kernel.tasks s) ((b.next op).name s) ((b.next op).log s) := by
  obtain ⟨honce, hbook⟩ := h s
  have hpids : 0 ≤ t'.pid ∧ t'.pid < 2 ^ 31 := hpid ▸ (hbook t ht).pid
  have hlog : (b.next op).log s = (if t'.Waiting then .began else .called) :: b.log s := by
    show op.news b.kernel s ++ b.log s = _
    rw [FutexOp.news_of_caller hcaller ht ht']
    rfl
  show SlotOk ((op.apply b.kernel).tasks s) _ _
  rw [hlog, ht']
  by_cases hw : t'.Waiting
  · obtain ⟨hrunning, heax, hname⟩ := hwaits hw
    have hnext : (b.next op).name s = op.futex b.kernel := by
      refine if_pos ⟨hcaller, ?_⟩
      simp [waiting, ht', hw]
    rw [if_pos hw, hnext]
    refine ⟨⟨fun hends => (nomatch hends), honce⟩, fun u hu => ?_⟩
    cases hu
    exact ⟨hpids, trivial, fun _ => ⟨hrunning, heax, rfl, hname⟩⟩
  rw [if_neg hw]
  refine ⟨⟨fun hends => (nomatch hends), honce⟩, fun u hu => ?_⟩
  cases hu
  exact ⟨hpids, trivial, fun hw' => absurd hw' hw⟩

variable {cpu : Nat} {c : FutexCall} {mem : UserMemory} {m : TaskManager} {result : UInt32}
  {n : FutexName}

theorem caller_call (h : b.kernel.barred thread = false) :
    (FutexOp.call cpu thread c mem).caller b.kernel = some thread := by
  simp [FutexOp.caller, h]

theorem apply_call (h : b.kernel.barred thread = false) :
    (FutexOp.call cpu thread c mem).apply b.kernel = b.kernel.sysFutex cpu thread c mem := by
  simp [FutexOp.apply, h]

theorem setEax_of_ne (hs : s ≠ thread) : (m.setEax thread result).tasks s = m.tasks s :=
  modify_of_ne hs

theorem setEax_self {t : Task} (ht : m.tasks thread = some t) :
    (m.setEax thread result).tasks thread =
      some { t with frame := { t.frame with eax := result } } := by
  rw [setEax, modify_self, ht]
  rfl

section

variable (h : b.Inv) (hcall : b.kernel.barred thread = false)

include h hcall

theorem slotOk_return {result : UInt32}
    (heq : b.kernel.sysFutex cpu thread c mem = b.kernel.setEax thread result) :
    ((b.next (.call cpu thread c mem))).Inv := by
  obtain ⟨t, ht, -, hnot⟩ := caller_spec h hcall
  have hcaller : (FutexOp.call cpu thread c mem).caller b.kernel = some thread := caller_call hcall
  intro s
  by_cases hs : s = thread
  · subst hs
    have ht' := @setEax_self s b.kernel result t ht
    rw [← heq, ← apply_call hcall] at ht'
    exact slotOk_caller h hcaller ht ht' rfl fun hw => absurd hw hnot
  refine slotOk_same h (fun heq => hs (Option.some.inj (hcaller.symm.trans heq)).symm) ?_
  rw [apply_call hcall, heq]
  exact setEax_of_ne hs

theorem slotOk_wait {key deadline : Nat} (hcmd : c.cmd = futexCmdWait)
    (hkey : b.kernel.futexKey thread c mem = .ok key)
    (heq : b.kernel.sysFutex cpu thread c mem = ((b.kernel.setEax thread 0).modify thread
      (waitFutex key deadline)).schedule cpu) : (b.next (.call cpu thread c mem)).Inv := by
  obtain ⟨t, ht, hbook, -⟩ := caller_spec h hcall
  have hcaller : (FutexOp.call cpu thread c mem).caller b.kernel = some thread := caller_call hcall
  have hrel := @changed_schedule ((b.kernel.setEax thread 0).modify thread
    (waitFutex key deadline)) cpu
  intro s
  have hrel := hrel s
  rw [← heq, ← apply_call hcall] at hrel
  by_cases hs : s = thread
  · subst hs
    rw [modify_self, setEax_self ht] at hrel
    generalize ht' : (FutexOp.call cpu s c mem).apply b.kernel = m' at hrel
    cases htask : m'.tasks s with
    | none =>
      rw [htask] at hrel
      cases hrel
    | some t' =>
      rw [htask] at hrel
      cases hrel with
      | some hchanges =>
        have hnew := NoNewWait.of_changes hchanges
        refine slotOk_caller h hcaller ht (by rw [ht']; exact htask) hnew.pid fun hw => ?_
        obtain ⟨-, hkey', hrun⟩ := hnew.waits hw
        obtain ⟨n, hname, hn⟩ := futexName_of_key hkey
        refine ⟨hrun, ?_, n, hname, ?_, hkey'.trans hn.symm⟩
        · rcases hnew.eax with hsame | ⟨-, hnot, -⟩
          · exact hsame
          · exact absurd hw hnot
        · refine proper_futexName hname fun u hu => ?_
          rw [ht] at hu
          cases hu
          exact hbook.pid
  · have hwakes : (FutexOp.call cpu thread c mem).wakes b.kernel = false := by
      simp [FutexOp.wakes, hcmd, futexCmdWait, futexCmdWake]
    rw [modify_of_ne hs, setEax_of_ne hs] at hrel
    exact slotOk_idle h (fun heq => hs (Option.some.inj (hcaller.symm.trans heq)).symm) hwakes hrel

theorem slotOk_wake {key : Nat} (hcmd : c.cmd = futexCmdWake)
    (heq : b.kernel.sysFutex cpu thread c mem =
      b.kernel.futexWake thread (some key) c.val.toNat) :
    (b.next (.call cpu thread c mem)).Inv := by
  obtain ⟨t, ht, -, hnot⟩ := caller_spec h hcall
  have hcaller : (FutexOp.call cpu thread c mem).caller b.kernel = some thread := caller_call hcall
  have hwakes : (FutexOp.call cpu thread c mem).wakes b.kernel = true := by
    simp [FutexOp.wakes, hcall, hcmd]
  have hwaiting : ∀ {s}, s ∈ b.kernel.futexChosen key c.val.toNat →
      ∃ u, b.kernel.tasks s = some u ∧ u.Waiting := by
    intro s hs
    have hwaits := (mem_filter.1 (mem_of_mem_take hs)).2
    obtain ⟨u, hu, htest⟩ := (Option.any_eq_true ..).1 hwaits
    rw [Bool.and_eq_true, decide_eq_true_eq] at htest
    exact ⟨u, hu, htest.1⟩
  rw [futexWake_eq, ← apply_call hcall] at heq
  intro s
  by_cases hs : s = thread
  · subst hs
    have hself : (b.kernel.wakeAll (b.kernel.futexChosen key c.val.toNat)).tasks s = some t := by
      refine (if_neg fun hmem => ?_).trans ht
      obtain ⟨u, hu, hw⟩ := hwaiting hmem
      rw [ht] at hu
      cases hu
      exact hnot hw
    have ht' := @setEax_self s _
      (UInt32.ofNat (b.kernel.futexChosen key c.val.toNat).length) t hself
    rw [← heq] at ht'
    exact slotOk_caller h hcaller ht ht' rfl fun hw => absurd hw hnot
  · have hne : (FutexOp.call cpu thread c mem).caller b.kernel ≠ some s :=
      fun heq => hs (Option.some.inj (hcaller.symm.trans heq)).symm
    by_cases hmem : s ∈ b.kernel.futexChosen key c.val.toNat
    · obtain ⟨u, hu, hw⟩ := hwaiting hmem
      obtain ⟨honce, hbook⟩ := h s
      have hu' : ((FutexOp.call cpu thread c mem).apply b.kernel).tasks s =
          some (wakeFutex u) := by
        rw [heq, setEax_of_ne hs]
        refine (if_pos hmem).trans ?_
        rw [hu, Option.map_some]
      have hlog : (b.next (.call cpu thread c mem)).log s = .woken :: b.log s := by
        show FutexOp.news _ b.kernel s ++ b.log s = _
        rw [FutexOp.news_of_woken hne hwakes hu hu' hw fun hw' => (nomatch hw')]
        rfl
      rw [hlog, name_next hne]
      refine ⟨⟨fun _ => ((hbook u hu).waits hw).2.2.1, honce⟩, fun v hv => ?_⟩
      cases hu'.symm.trans hv
      exact (hbook u hu).wakeFutex hw
    · refine slotOk_same h hne ?_
      rw [heq, setEax_of_ne hs]
      exact if_neg hmem

end

theorem Inv.next (h : b.Inv) (op : FutexOp) : (b.next op).Inv := by
  cases op with
  | tick => exact fun s => slotOk_same h (fun hcall => (nomatch hcall)) rfl
  | switch cpu =>
    exact fun s => slotOk_idle h (fun hcall => (nomatch hcall)) rfl (changed_schedule s)
  | signal slot sig =>
    exact fun s => slotOk_idle h (fun hcall => (nomatch hcall)) rfl
      (changed_signalSlot sig s)
  | deliver cpu =>
    exact fun s => slotOk_idle h (fun hcall => (nomatch hcall)) rfl
      (changed_deliverPending s)
  | call cpu thread c mem =>
    cases hcall : b.kernel.barred thread with
    | true =>
      intro s
      refine slotOk_idle h ?_ ?_ ?_
      · simp [FutexOp.caller, hcall]
      · simp [FutexOp.wakes, hcall]
      · simp only [FutexOp.apply, if_pos hcall]
        exact changed_schedule s
    | false =>
      rcases @sysFutex_cases b.kernel cpu thread c mem with
        ⟨result, heq⟩ | ⟨key, deadline, hcmd, hkey, -, heq⟩ | ⟨key, hcmd, -, heq⟩
      · exact slotOk_return h hcall heq
      · exact slotOk_wait h hcall hcmd hkey heq
      · exact slotOk_wake h hcall hcmd heq

/-! ## Waking -/

/-- The tasks that wait for a key are those that wait for its futex. -/
theorem filter_waitsOn (h : b.Inv) (hn : n.Proper) :
    (List.finRange 32).filter (b.kernel.waitsOn n.key) = b.waiters n := by
  refine filter_congr fun s _ => ?_
  cases ht : b.kernel.tasks s with
  | none => simp [waitsOn, waiting, ht]
  | some t =>
    by_cases hw : t.Waiting
    · obtain ⟨-, -, -, n', hname, hn', hkey⟩ := ((h s).2 t ht).waits hw
      have hstate : t.state = .blocked .futex := hw
      have hiff : t.futexKey = n.key ↔ n' = n := by
        rw [hkey]
        exact ⟨FutexName.key_injective hn' hn, fun heq => by rw [heq]⟩
      simp [waitsOn, waiting, ht, hw, hstate, hname, hiff]
    · have hstate : ¬ t.state = .blocked .futex := hw
      simp [waitsOn, waiting, ht, hw, hstate]

theorem wakes_call (h : b.Inv) (hcall : b.kernel.barred thread = false)
    (hclock : c.op &&& futexClockRealtime = 0) (hcmd : c.cmd = futexCmdWake)
    (hname : b.kernel.futexName thread c mem = some n) :
    Wakes b n thread c.val.toNat ((FutexOp.call cpu thread c mem).apply b.kernel) := by
  obtain ⟨t, ht, hbook, hnot⟩ := caller_spec h hcall
  have hn : n.Proper := proper_futexName hname fun u hu => by
    rw [ht] at hu
    cases hu
    exact hbook.pid
  have hchosen : b.kernel.futexChosen n.key c.val.toNat = (b.waiters n).take c.val.toNat := by
    rw [futexChosen, filter_waitsOn h hn]
  have hwaiting : ∀ {s}, s ∈ b.waiters n → s ≠ thread ∧ ∃ u, b.kernel.tasks s = some u ∧
      u.Waiting := by
    intro s hs
    have htest := (mem_filter.1 hs).2
    rw [Bool.and_eq_true] at htest
    obtain ⟨u, hu, hw⟩ := (Option.any_eq_true ..).1 htest.1
    refine ⟨?_, u, hu, of_decide_eq_true hw⟩
    rintro rfl
    rw [ht] at hu
    cases hu
    exact hnot (of_decide_eq_true hw)
  rw [apply_call hcall, sysFutex_wake hclock hcmd hname, futexWake_eq, hchosen, length_take]
  generalize hm' : (b.kernel.wakeAll ((b.waiters n).take c.val.toNat)).setEax thread
    (UInt32.ofNat (min c.val.toNat (b.waiters n).length)) = m'
  have htasks : ∀ s, s ≠ thread → m'.tasks s = if s ∈ (b.waiters n).take c.val.toNat then
      (b.kernel.tasks s).map wakeFutex else b.kernel.tasks s := by
    intro s hs
    rw [← hm', setEax_of_ne hs]
    rfl
  have hrunnable : ∀ s ∈ b.waiters n,
      m'.runnable s = decide (s ∈ (b.waiters n).take c.val.toNat) := by
    intro s hs
    obtain ⟨hne, u, hu, hw⟩ := hwaiting hs
    have hstate : u.state = .blocked .futex := hw
    by_cases hmem : s ∈ (b.waiters n).take c.val.toNat
    · simp [runnable, htasks s hne, hmem, hu, wakeFutex, Task.wake]
    · simp [runnable, htasks s hne, hmem, hu, hstate]
  refine ⟨?_, ?_, fun s hs hstays => ?_, fun s hne hs => ?_⟩
  · have hself : (b.kernel.wakeAll ((b.waiters n).take c.val.toNat)).tasks thread = some t := by
      refine (if_neg fun hmem => ?_).trans ht
      exact (hwaiting (mem_of_mem_take hmem)).1 rfl
    rw [← hm', eaxOf, setEax_self hself]
    rfl
  · have hnodup : (b.waiters n).Nodup := (nodup_finRange 32).filter _
    rw [filter_congr fun s hs => (hrunnable s hs).trans (elem_eq_mem ..).symm,
      ← hnodup.take_eq_filter_mem, length_take]
  · rw [hrunnable s hs, decide_eq_false_iff_not] at hstays
    rw [htasks s (hwaiting hs).1, if_neg hstays]
  · rw [htasks s hne, if_neg fun hmem => hs (mem_of_mem_take hmem)]

theorem lawful (h : b.Inv) (op : FutexOp) : Lawful op b := by
  refine ⟨?_, fun s => ⟨(h.next op s).1, fun t ht => ((h.next op s).2 t ht).reports⟩⟩
  cases op with
  | call cpu thread c mem =>
    intro hcall
    refine ⟨fun hcmd hword => ?_, fun hclock hcmd n hname => wakes_call h hcall hclock hcmd hname⟩
    rw [apply_call hcall]
    exact sysFutex_of_ne hcmd hword
  | tick | switch | signal | deliver => trivial

/-- The pids are those of `alloc_pid`, and no task waits for a futex. -/
def Ready (m : TaskManager) : Prop :=
  ∀ s, ∀ t ∈ m.tasks s, (0 ≤ t.pid ∧ t.pid < 2 ^ 31) ∧ ¬ t.Waiting
  deriving Decidable

theorem inv_start (h : Ready m) : (start m).Inv :=
  fun s => ⟨trivial, fun t ht => ⟨(h s t ht).1, trivial, fun hw => absurd hw (h s t ht).2⟩⟩

/-- **Futexes.**  In every run of calls to wait and to wake, of timers and of signals: a wait
whose word has changed does not block; a call to wake makes as many tasks runnable as it asks
for, of those that wait for its futex, and returns their number; the tasks that wait for other
futexes are not touched; and no wait is both woken and timed out. -/
theorem futex_contract {m : TaskManager} (hm : Ready m) (ops : List FutexOp) :
    Every step Lawful ops (start m) := by
  refine every_of_inv Inv (fun op b r b' hb _ hrun => ?_)
    (fun op b hb _ => lawful hb op) (inv_start hm) (every_of_forall fun _ _ => trivial)
  cases hrun
  exact hb.next op

/-- Both tasks have the same page at the same address, with a 7 in the word of the futex. -/
def sharedPage : UserMemory := ⟨fun _ addr => some (addr + 0x100000), fun _ => 7⟩

/-- The first task waits and is woken by the second one, but not for a private futex.  Then
it waits for a private futex until the timeout. -/
def wakeAndTimeOut : List FutexOp :=
  [.call 0 1 ⟨0x400000, 0, 7, none⟩ sharedPage, .call 0 2 ⟨0x400000, 129, 9, none⟩ sharedPage,
    .call 0 2 ⟨0x400000, 1, 9, none⟩ sharedPage, .switch 0,
    .call 0 1 ⟨0x400000, 128, 7, some (0, 5000000)⟩ sharedPage,
    .call 0 2 ⟨0x400000, 129, 9, none⟩ sharedPage, .tick, .switch 0]

set_option maxRecDepth 4000 in
theorem futex_contract_wakeAndTimeOut :
    ((wakeAndTimeOut.foldl (fun b op => b.next op) (start twoTasks)).log 1 =
        [.timedOut, .began, .woken, .began]) ∧ Every step Lawful wakeAndTimeOut (start twoTasks) :=
  ⟨by decide +kernel, futex_contract (by decide +kernel) wakeAndTimeOut⟩

end Book

end Felix.Kernel
