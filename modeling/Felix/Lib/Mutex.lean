import Mathlib.Data.Fin.Basic
import Mathlib.Data.List.FinRange
import Mathlib.Logic.Function.Basic

/-!
# The user-space mutex

`Mutex` of the user library is a word: 0 when the mutex is free, 1 when it is locked, 2 when
it is locked and threads may sleep on it.  A step of the system is one atomic operation or
one futex call of one thread, so a run is any interleaving of the threads' calls.

A thread that has left the `try_lock` of `lock` behind does not return before it has stored 2,
and a thread that has replaced a 2 by 0 still calls `futex_wake`.  These are the busy threads;
as long as one sleeps, there is a busy thread or the word is 2 (`Inv.sleepers`).
-/

namespace Felix.Mutex

/-- What a thread does next. -/
inductive Pc where
  | outside
  | lock
  | load
  | exchange
  | swap
  | wait
  | asleep
  | wake
  deriving DecidableEq

/-- The thread is in `lock` and does not sleep. -/
def Pc.Locking (pc : Pc) : Prop :=
  pc = .lock ∨ pc = .load ∨ pc = .exchange ∨ pc = .swap ∨ pc = .wait

/-- The thread will store 2 into the word, or wake a thread. -/
def Pc.Busy (pc : Pc) : Prop :=
  pc = .load ∨ pc = .exchange ∨ pc = .swap ∨ pc = .wait ∨ pc = .wake

structure Thread where
  pc : Pc
  holds : Bool
  deriving DecidableEq

structure State (n : Nat) where
  word : UInt32
  threads : Fin n → Thread

/-- `Mutex::new`, with no thread in a call. -/
def new (n : Nat) : State n := ⟨0, fun _ => ⟨.outside, false⟩⟩

namespace State

variable {n : Nat} (i : Fin n)

def goto (pc : Pc) (s : State n) : State n :=
  { s with threads := Function.update s.threads i { s.threads i with pc } }

/-- The thread returns from its call with a guard. -/
def acquire (value : UInt32) (s : State n) : State n :=
  ⟨value, Function.update s.threads i ⟨.outside, true⟩⟩

/-- `try_lock`, which goes on at `failed` without a guard. -/
def tryLock (failed : Pc) (s : State n) : State n :=
  if s.word = 0 then s.acquire i 1 else s.goto i failed

/-- The loop of `lock` with the value that was read. -/
def loop (state : UInt32) (s : State n) : State n :=
  s.goto i (if state = 0 then .exchange else if state ≠ 2 then .swap else .wait)

/-- The drop of the guard. -/
def drop (s : State n) : State n :=
  ⟨0, Function.update s.threads i ⟨if s.word = 2 then .wake else .outside, false⟩⟩

def futexWait (val : UInt32) (s : State n) : State n :=
  s.goto i (if s.word = val then .asleep else .load)

/-- The loop of `FUTEX_WAKE` over the tasks. -/
def futexWake (val : Nat) : List (Fin n) → Nat → State n → State n
  | [], _, s => s
  | i :: is, woken, s =>
    if val ≤ woken then s
    else if (s.threads i).pc = .asleep then futexWake val is (woken + 1) (s.goto i .load)
    else futexWake val is woken s

end State

/-- A call that a thread makes, the next step of its call, or a signal that ends its sleep.
`compare_exchange_weak` may fail without a reason. -/
inductive Op where
  | lock
  | tryLock
  | unlock
  | next (fails : Bool)
  | signal

def step {n : Nat} (i : Fin n) (op : Op) (s : State n) : State n :=
  match op, (s.threads i).pc with
  | .lock, .outside => s.goto i .lock
  | .tryLock, .outside => s.tryLock i .outside
  | .unlock, .outside => if (s.threads i).holds = true then s.drop i else s
  | .next _, .lock => s.tryLock i .load
  | .next _, .load => s.loop i s.word
  | .next fails, .exchange =>
    if s.word = 0 ∧ fails = false then s.acquire i 2 else s.loop i s.word
  | .next _, .swap => if s.word = 0 then s.acquire i 2 else { s.goto i .wait with word := 2 }
  | .next _, .wait => s.futexWait i 2
  | .next _, .wake => (s.futexWake 1 (List.finRange n) 0).goto i .outside
  | .signal, .asleep => s.goto i .load
  | _, _ => s

def run {n : Nat} (ops : List (Fin n × Op)) (s : State n) : State n :=
  ops.foldl (fun s op => step op.1 op.2 s) s

namespace State

variable {n : Nat}

/-- At most one thread holds the mutex. -/
def Exclusive (s : State n) : Prop :=
  ∀ i j, (s.threads i).holds = true → (s.threads j).holds = true → i = j

/-- A thread sleeps on the free mutex, and nothing is under way to wake it. -/
structure LostSleeper (s : State n) : Prop where
  asleep : ∃ i, (s.threads i).pc = .asleep
  free : ∀ i, (s.threads i).holds = false
  noWake : ∀ i, (s.threads i).pc ≠ .wake
  noLock : ∀ i, ¬ (s.threads i).pc.Locking

structure Inv (s : State n) : Prop where
  exclusive : s.Exclusive
  held : s.word ≠ 0 ↔ ∃ i, (s.threads i).holds = true
  sleepers : ∀ i, (s.threads i).pc = .asleep → s.word = 2 ∨ ∃ j, (s.threads j).pc.Busy

variable {s s' : State n} {i : Fin n} {pc : Pc}

@[simp] theorem goto_holds (j : Fin n) : ((s.goto i pc).threads j).holds = (s.threads j).holds := by
  by_cases hj : j = i <;> simp [goto, hj]

@[simp] theorem goto_self : ((s.goto i pc).threads i).pc = pc := by
  simp [goto]

theorem goto_of_ne {j : Fin n} (h : j ≠ i) : (s.goto i pc).threads j = s.threads j := by
  simp [goto, h]

section

variable (h : s.Inv)
include h

theorem Inv.keep (hword : s'.word = s.word)
    (hholds : ∀ j, (s'.threads j).holds = (s.threads j).holds)
    (hsleepers : ∀ j, (s'.threads j).pc = .asleep → s'.word = 2 ∨ ∃ k, (s'.threads k).pc.Busy) :
    s'.Inv := by
  refine ⟨fun j k hj hk => h.exclusive j k ?_ ?_, ?_, hsleepers⟩
  · rwa [← hholds]
  · rwa [← hholds]
  · simpa only [hword, hholds] using h.held

theorem Inv.goto (hsleep : pc = .asleep → s.word = 2)
    (hbusy : (s.threads i).pc.Busy → pc.Busy ∨ s.word = 2) : (s.goto i pc).Inv := by
  refine h.keep rfl goto_holds fun j hj => ?_
  by_cases hword : s.word = 2
  · exact .inl hword
  have hji : j ≠ i := by
    rintro rfl
    exact hword (hsleep (by simpa using hj))
  rw [goto_of_ne hji] at hj
  obtain ⟨k, hk⟩ := (h.sleepers j hj).resolve_left hword
  refine .inr ⟨k, ?_⟩
  by_cases hki : k = i
  · subst hki
    simpa using (hbusy hk).resolve_right hword
  · rwa [goto_of_ne hki]

theorem Inv.acquire {value : UInt32} (hfree : s.word = 0) (hvalue : value ≠ 0)
    (hbusy : (s.threads i).pc.Busy → value = 2) : (s.acquire i value).Inv := by
  have honly : ∀ j, ((s.acquire i value).threads j).holds = true → j = i := by
    intro j hj
    by_contra hji
    exact h.held.2 ⟨j, by simpa [State.acquire, hji] using hj⟩ hfree
  refine ⟨fun j k hj hk => (honly j hj).trans (honly k hk).symm, ?_, fun j hj => ?_⟩
  · exact iff_of_true hvalue ⟨i, by simp [State.acquire]⟩
  have hji : j ≠ i := by
    rintro rfl
    simp [State.acquire] at hj
  obtain hword | ⟨k, hk⟩ := h.sleepers j (by simpa [State.acquire, hji] using hj)
  · rw [hfree] at hword
    exact absurd hword (by decide)
  by_cases hki : k = i
  · exact .inl (hbusy (hki ▸ hk))
  · exact .inr ⟨k, by simpa [State.acquire, hki] using hk⟩

theorem Inv.tryLock (hidle : ¬ (s.threads i).pc.Busy) (hpc : pc ≠ .asleep) :
    (s.tryLock i pc).Inv := by
  unfold State.tryLock
  split
  · exact h.acquire ‹_› (by decide) fun hbusy => absurd hbusy hidle
  · exact h.goto (fun hsleep => absurd hsleep hpc) fun hbusy => absurd hbusy hidle

theorem Inv.loop (state : UInt32) : (s.loop i state).Inv := by
  have hbusy : Pc.Busy (if state = 0 then .exchange else if state ≠ 2 then .swap else .wait) := by
    unfold Pc.Busy
    split
    · simp
    · split <;> simp
  refine h.goto (fun hsleep => ?_) fun _ => .inl hbusy
  rw [hsleep] at hbusy
  simp [Pc.Busy] at hbusy

theorem Inv.drop (hholds : (s.threads i).holds = true)
    (hpc : (s.threads i).pc = .outside) : (s.drop i).Inv := by
  have hnone : ∀ j, ((s.drop i).threads j).holds ≠ true := by
    intro j hj
    by_cases hji : j = i
    · simp [State.drop, hji] at hj
    · exact hji (h.exclusive j i (by simpa [State.drop, hji] using hj) hholds)
  refine ⟨fun j k hj => absurd hj (hnone j), ?_, fun j hj => .inr ?_⟩
  · exact iff_of_false (fun hne => hne rfl) fun ⟨j, hj⟩ => hnone j hj
  by_cases hword : s.word = 2
  · exact ⟨i, by simp [State.drop, hword, Pc.Busy]⟩
  have hji : j ≠ i := by
    rintro rfl
    simp [State.drop, hword] at hj
  obtain ⟨k, hk⟩ := (h.sleepers j (by simpa [State.drop, hji] using hj)).resolve_left hword
  have hki : k ≠ i := by
    rintro rfl
    simp [hpc, Pc.Busy] at hk
  exact ⟨k, by simpa [State.drop, hki] using hk⟩

/-- `swap` on a mutex that is held. -/
theorem Inv.contend (hword : s.word ≠ 0) : Inv { s.goto i .wait with word := 2 } := by
  have hmark : Inv { s with word := 2 } := by
    refine ⟨h.exclusive, iff_of_true ?_ (h.held.1 hword), fun _ _ => .inl rfl⟩
    show (2 : UInt32) ≠ 0
    decide
  exact hmark.goto (fun hsleep => (nomatch hsleep)) fun _ => .inr rfl

theorem Inv.futexWait : (s.futexWait i 2).Inv := by
  refine h.goto (fun hsleep => ?_) fun _ => ?_
  · by_contra hword
    simp [hword] at hsleep
  by_cases hword : s.word = 2
  · exact .inr hword
  · simp [hword, Pc.Busy]

end

/-- `FUTEX_WAKE` of one thread wakes one of the tasks, or none of them sleeps. -/
theorem futexWake_cases (slots : List (Fin n)) (s : State n) :
    (∃ j, (s.threads j).pc = .asleep ∧ s.futexWake 1 slots 0 = s.goto j .load) ∨
      (∀ j ∈ slots, (s.threads j).pc ≠ .asleep) ∧ s.futexWake 1 slots 0 = s := by
  induction slots with
  | nil => exact .inr ⟨by simp, rfl⟩
  | cons j slots ih =>
    by_cases hj : (s.threads j).pc = .asleep
    · refine .inl ⟨j, hj, ?_⟩
      cases slots <;> simp [futexWake, hj]
    · simpa [futexWake, hj] using ih

theorem Inv.wake (h : s.Inv) (hpc : (s.threads i).pc = .wake) :
    ((s.futexWake 1 (List.finRange n) 0).goto i .outside).Inv := by
  rcases futexWake_cases (List.finRange n) s with ⟨j, hj, heq⟩ | ⟨hnone, heq⟩
  · have hji : j ≠ i := by
      rintro rfl
      rw [hpc] at hj
      cases hj
    rw [heq]
    refine h.keep rfl (by simp) fun k _ => .inr ⟨j, ?_⟩
    rw [goto_of_ne hji, goto_self]
    exact .inl rfl
  rw [heq]
  refine h.keep rfl goto_holds fun j hj => ?_
  have hji : j ≠ i := by
    rintro rfl
    simp at hj
  rw [goto_of_ne hji] at hj
  exact absurd hj (hnone j (List.mem_finRange j))

theorem Inv.step (h : s.Inv) (i : Fin n) (op : Op) : (step i op s).Inv := by
  have hidle : ∀ pc, (s.threads i).pc = pc → ¬ pc.Busy → ¬ (s.threads i).pc.Busy :=
    fun pc hpc => hpc ▸ id
  unfold Mutex.step
  split
  case h_1 hpc => exact h.goto (by simp) fun hbusy => absurd hbusy (hidle _ hpc (by simp [Pc.Busy]))
  case h_2 hpc => exact h.tryLock (hidle _ hpc (by simp [Pc.Busy])) (by decide)
  case h_3 hpc =>
    split
    · exact h.drop ‹_› hpc
    · exact h
  case h_4 hpc => exact h.tryLock (hidle _ hpc (by simp [Pc.Busy])) (by decide)
  case h_5 => exact h.loop s.word
  case h_6 =>
    split
    · rename_i hfree
      exact h.acquire hfree.1 (by decide) fun _ => rfl
    · exact h.loop s.word
  case h_7 =>
    split
    · exact h.acquire ‹_› (by decide) fun _ => rfl
    · exact h.contend ‹_›
  case h_8 => exact h.futexWait
  case h_9 hpc => exact h.wake hpc
  case h_10 => exact h.goto (by simp) fun _ => .inl (.inl rfl)
  case h_11 => exact h

theorem Inv.run (h : s.Inv) (ops : List (Fin n × Op)) : (run ops s).Inv := by
  induction ops generalizing s with
  | nil => exact h
  | cons op ops ih => exact ih (h.step op.1 op.2)

theorem inv_new : (new n).Inv := by
  refine ⟨?_, ?_, ?_⟩ <;> simp [new, Exclusive]

/-- A sleeper needs a busy thread: the word of the free mutex is not 2. -/
theorem Inv.not_lostSleeper (h : s.Inv) : ¬ s.LostSleeper := by
  rintro ⟨⟨i, hi⟩, hfree, hnoWake, hnoLock⟩
  rcases h.sleepers i hi with hword | ⟨j, hj⟩
  · obtain ⟨k, hk⟩ := h.held.1 (by rw [hword]; decide)
    rw [hfree k] at hk
    cases hk
  have hlock := hnoLock j
  simp only [Pc.Busy, Pc.Locking] at hj hlock
  simp_all

end State

/-- The word is 0 exactly while no thread holds the mutex. -/
theorem word_ne_zero_iff (n : Nat) (ops : List (Fin n × Op)) : (run ops (new n)).word ≠ 0 ↔
    ∃ i, ((run ops (new n)).threads i).holds = true :=
  (State.inv_new.run ops).held

/-- Any threads, any interleaving: at most one thread holds the mutex, and none is left
asleep. -/
theorem exclusive_and_no_lost_sleeper (n : Nat) (ops : List (Fin n × Op)) :
    (run ops (new n)).Exclusive ∧ ¬ (run ops (new n)).LostSleeper := by
  have hinv := (State.inv_new).run ops
  exact ⟨hinv.exclusive, hinv.not_lostSleeper⟩

end Felix.Mutex
