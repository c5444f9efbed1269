import Felix.Io.DescriptorBooks
import Felix.Io.ReadContract
import Felix.Kernel.DeliverContract
import Felix.Kernel.Process
import Felix.Memory.UserStore

/-!
# Pointers that system calls are given

`sys_read`, `sys_pipe`, `sys_wait_status` and `deliver_pending` store in the memory of the
task they work for, at addresses that the task chooses: a buffer, the place of a result, or
its stack pointer.  The models of these functions are those of the other modules; here
their stores are added.

None of the functions looks at the address before it stores, apart from a null pointer for
a status or for a socket.  So each is confined exactly if the memory that it is to write
may be written by the user.
-/

namespace Felix.UserPointers

open Memory List
open Kernel (TaskManager Task)
open Kernel.TaskManager (WaitOptions)

variable {n x : Nat} {σ : Type} {mem : Machine} {k : Fd.Kernel n} {t : Fin n} {r : Fin 64}

/-! ## `sys_pipe` -/

/-- `sys_pipe`; the numbers of the descriptors are stored at `pipefd`. -/
def sysPipe (t : Fin n) (pipefd : Nat) (pipes : Io.Pipes) (k : Fd.Kernel n) :
    Transfer × Io.Pipes × Fd.Kernel n :=
  match Io.pipeCreate pipes with
  | (none, pipes) => (.run [] .error, pipes, k)
  | (some pipeId, pipes) =>
    if (k.tables t).isNone then (.run [] .error, pipes, k)
    else
      let gone := Io.pipeCloseWriter pipeId (Io.pipeCloseReader pipeId pipes)
      match k.allocFd t with
      | none => (.run [] .error, gone, k)
      | some r =>
        let (_, k) := k.insert t r (.pipe pipeId .read)
        match k.allocFd t with
        | none =>
          let (_, k) := k.close t r
          (.run [] .error, gone, k)
        | some w =>
          let (_, k) := k.insert t w (.pipe pipeId .write)
          (.run [.word pipefd (UInt32.ofNat r), .word (pipefd + 4) (UInt32.ofNat w)] .returned,
            pipes, k)

/-- A pipe and two descriptors are free. -/
structure PipeReady (t : Fin n) (pipes : Io.Pipes) (k : Fd.Kernel n) : Prop where
  caller : (k.tables t).isSome
  pipe : ∃ i < Io.maxPipes, (pipes i).inUse = false
  descriptors : ∃ r w, r ≠ w ∧ k.get t r = none ∧ k.get t w = none

/-- The addresses from `ptr` on. -/
def bytesAt (ptr n : Nat) : List Nat := (List.range n).map (ptr + ·)

theorem mem_bytesAt {ptr : Nat} : x ∈ bytesAt ptr n ↔ ptr ≤ x ∧ x < ptr + n := by
  rw [bytesAt, ← range'_eq_map_range, mem_range'_1]

theorem pipeCreate_isSome {pipes : Io.Pipes} :
    (Io.pipeCreate pipes).1.isSome ↔ ∃ i < Io.maxPipes, (pipes i).inUse = false := by
  have hfind : (Io.pipeCreate pipes).1 =
      (List.range Io.maxPipes).find? fun i => !(pipes i).inUse := by
    rw [Io.pipeCreate]
    split <;> rename_i hfind <;> exact hfind.symm
  rw [hfind, find?_isSome]
  simp only [mem_range, Bool.not_eq_true']

theorem allocFd_eq_none : k.allocFd t = none ↔ ∀ fd, k.get t fd ≠ none := by
  rw [Fd.Kernel.allocFd, find?_eq_none]
  simp only [mem_finRange, forall_const, Option.isNone_iff_eq_none, ne_eq]

/-- There is a second descriptor exactly if two were free. -/
theorem second_free_iff (ht : (k.tables t).isSome)
    (h : k.allocFd t = some r) (desc : Fd.FileDescriptor) :
    (k.insert t r desc).2.allocFd t ≠ none ↔
      ∃ r w, r ≠ w ∧ k.get t r = none ∧ k.get t w = none := by
  have hfree := Fd.get_of_allocFd h
  have hget : ∀ fd, (k.insert t r desc).2.get t fd = if fd = r then some desc else k.get t fd := by
    intro fd
    rw [Fd.Kernel.insert, if_neg (by rw [hfree]; decide)]
    rw [(Fd.putNew_edit ht desc).get]
    simp only [Prod.mk.injEq, true_and]
  rw [Ne, allocFd_eq_none, not_forall]
  simp only [hget, not_not]
  constructor
  · rintro ⟨w, hw⟩
    by_cases hne : w = r
    · rw [if_pos hne] at hw
      cases hw
    · rw [if_neg hne] at hw
      exact ⟨r, w, fun heq => hne heq.symm, hfree, hw⟩
  · rintro ⟨a, b, hab, ha, hb⟩
    by_cases har : a = r
    · exact ⟨b, by rw [if_neg fun hbr => hab (har.trans hbr.symm)]; exact hb⟩
    · exact ⟨a, by rw [if_neg har]; exact ha⟩

section Pipe

variable {t : Fin n} {pipefd : Nat} {pipes : Io.Pipes} {k : Fd.Kernel n}

theorem sysPipe_of_ready (pipefd : Nat) (h : PipeReady t pipes k) : ∃ r w,
    (sysPipe t pipefd pipes k).1 = .run [.word pipefd r, .word (pipefd + 4) w] .returned := by
  obtain ⟨ht, hpipe, hfree⟩ := h
  have hnone : ¬(k.tables t).isNone = true := by
    rw [Option.isNone_iff_eq_none]
    exact Option.isSome_iff_ne_none.1 ht
  have hfirst : k.allocFd t ≠ none := by
    obtain ⟨r, -, -, hget, -⟩ := hfree
    exact fun hnone => allocFd_eq_none.1 hnone r hget
  obtain ⟨r, hr⟩ := Option.ne_none_iff_exists'.1 hfirst
  rw [sysPipe]
  rcases hcreate : Io.pipeCreate pipes with ⟨_ | pipeId, pipes'⟩
  · have hsome := pipeCreate_isSome.2 hpipe
    rw [hcreate] at hsome
    cases hsome
  obtain ⟨w, hw⟩ := Option.ne_none_iff_exists'.1
    ((second_free_iff ht hr (.pipe pipeId .read)).2 hfree)
  refine ⟨UInt32.ofNat r, UInt32.ofNat w, ?_⟩
  dsimp only
  rw [if_neg hnone, hr]
  dsimp only
  rw [hw]

theorem sysPipe_of_not_ready (h : ¬PipeReady t pipes k) :
    (sysPipe t pipefd pipes k).1 = .run [] .error := by
  rw [sysPipe]
  rcases hcreate : Io.pipeCreate pipes with ⟨_ | pipeId, pipes'⟩
  · rfl
  have hpipe := pipeCreate_isSome.1 (show (Io.pipeCreate pipes).1.isSome by rw [hcreate]; rfl)
  dsimp only
  split
  · rfl
  rename_i ht
  have ht : (k.tables t).isSome := by
    rw [← Option.not_isNone, Bool.eq_false_iff.2 ht]
    rfl
  rcases hr : k.allocFd t with _ | r
  · rfl
  dsimp only
  rcases hw : (k.insert t r (.pipe pipeId .read)).2.allocFd t with _ | w
  · rfl
  · have hfree := (second_free_iff ht hr (.pipe pipeId .read)).1 (by rw [hw]; simp)
    exact absurd ⟨ht, hpipe, hfree⟩ h

theorem mem_two_words {x : Nat} {v w : UInt32} :
    x ∈ [Store.word pipefd v, .word (pipefd + 4) w].flatMap Store.range ↔
      pipefd ≤ x ∧ x < pipefd + 8 := by
  simp only [flatMap_cons, flatMap_nil, Store.range, mem_append, mem_cons, not_mem_nil, or_false]
  omega

theorem pipe_confined : (sysPipe t pipefd pipes k).1.Confined mem ↔
      (PipeReady t pipes k → ∀ x, pipefd ≤ x → x < pipefd + 8 → mem.UserWritable x) := by
  by_cases hready : PipeReady t pipes k
  · obtain ⟨v, w, hrun⟩ := sysPipe_of_ready pipefd hready
    rw [hrun, Transfer.confined_returned]
    simp only [mem_two_words, and_imp, hready, forall_const]
  · rw [sysPipe_of_not_ready hready]
    exact iff_of_true (Transfer.confined_nothing _) fun h => absurd h hready

end Pipe

/-! ## `sys_wait_status` -/

/-- `sys_wait_status`, with the store of the status. -/
def sysWaitStatus (current : Kernel.Slot) (pid : Int) (statusPtr : Nat) (options : WaitOptions)
    (m : TaskManager) : Transfer × UInt32 × TaskManager :=
  match m.sysWaitStatus current pid options with
  | (ret, some status, m) =>
    (.run (if statusPtr = 0 then [] else [.word statusPtr (UInt32.ofInt status)]) .returned, ret, m)
  | (ret, none, m) => (.run [] (if ret = 0 then .returned else .error), ret, m)

/-- There is a child to tell about, and one that has ended can be reaped. -/
def Tells (current : Kernel.Slot) (pid : Int) (options : WaitOptions) (m : TaskManager) : Prop :=
  match m.tasks current with
  | none => False
  | some parent =>
    0 ≤ parent.pid ∧
      match m.waitEvent (TaskManager.matchesSelector parent.pid parent.pgid pid) options with
      | none => False
      | some (.exited slot _ _ _) => (m.reap slot).1 = true
      | some (.stopped ..) | some (.continued ..) => True

section Wait

variable {current : Kernel.Slot} {pid : Int} {options : WaitOptions} {m : TaskManager}

theorem wait_stores_iff :
    (m.sysWaitStatus current pid options).2.1.isSome ↔ Tells current pid options m := by
  rw [TaskManager.sysWaitStatus, Tells]
  rcases m.tasks current with _ | parent
  · exact iff_of_false (fun h => Bool.false_ne_true h) id
  dsimp only
  by_cases hpid : parent.pid < 0
  · rw [if_pos hpid]
    exact iff_of_false (fun h => Bool.false_ne_true h) fun h => absurd hpid (Int.not_lt.2 h.1)
  rw [if_neg hpid, and_iff_right (Int.not_lt.1 hpid)]
  rcases m.waitEvent (TaskManager.matchesSelector parent.pid parent.pgid pid) options with
    _ | ⟨slot, childPid, exitCode, termSignal⟩ | ⟨slot, childPid, sig⟩ | ⟨slot, childPid⟩
  · dsimp only
    refine iff_of_false ?_ id
    split
    · exact fun h => Bool.false_ne_true h
    · split <;> exact fun h => Bool.false_ne_true h
  · dsimp only
    rcases hreap : (m.reap slot).1 with _ | _
    · exact iff_of_false (fun h => Bool.false_ne_true h) Bool.false_ne_true
    · exact iff_of_true rfl rfl
  · exact iff_of_true rfl trivial
  · exact iff_of_true rfl trivial

theorem wait_confined {statusPtr : Nat} :
    (sysWaitStatus current pid statusPtr options m).1.Confined mem ↔
      (Tells current pid options m → statusPtr ≠ 0 →
        ∀ x, statusPtr ≤ x → x < statusPtr + 4 → mem.UserWritable x) := by
  rw [← wait_stores_iff, sysWaitStatus]
  rcases m.sysWaitStatus current pid options with ⟨ret, _ | status, m'⟩
  · exact iff_of_true (Transfer.confined_nothing _) fun h => absurd h Bool.false_ne_true
  dsimp only
  by_cases hnull : statusPtr = 0
  · rw [if_pos hnull]
    exact iff_of_true (Transfer.confined_nothing _) fun _ h => absurd hnull h
  rw [if_neg hnull, Transfer.confined_returned]
  have hmem : ∀ x, x ∈ [Store.word statusPtr (UInt32.ofInt status)].flatMap Store.range ↔
      statusPtr ≤ x ∧ x < statusPtr + 4 := by
    intro x
    simp only [flatMap_cons, flatMap_nil, Store.range, append_nil, mem_cons, not_mem_nil, or_false]
    omega
  simp only [hmem, and_imp, ne_eq, hnull, not_false_eq_true, Option.isSome_some, forall_const]

end Wait

/-! ## `deliver_pending` -/

/-- The frame of a handler: the signal and the program counter, on the stack of the thread. -/
def frameStores (m : TaskManager) (thread : Kernel.Slot) (sig : Nat) : List Store :=
  match m.tasks thread with
  | none => []
  | some t =>
    [.word (t.frame.esp - 4).toNat (UInt32.ofNat sig), .word (t.frame.esp - 8).toNat t.frame.eip]

/-- The loop of `deliver_pending`. -/
def deliverSignals (thread slot : Kernel.Slot) (pending : BitVec 31) :
    List Nat → TaskManager → Transfer
  | [], _ => .run [] .returned
  | sig :: sigs, m =>
    if pending.getLsbD (sig - 1) = false then deliverSignals thread slot pending sigs m
    else if m.handlerOf slot sig = Kernel.sigIgn then
      deliverSignals thread slot pending sigs (m.modify slot (Task.clearSignal · sig))
    else if m.handlerOf slot sig ≠ 0 then .run (frameStores m thread sig) .returned
    else if Kernel.defaultTerminate &&& Kernel.sigbit sig ≠ 0 then .run [] .killed
    else deliverSignals thread slot pending sigs (m.modify slot (Task.clearSignal · sig))

/-- The stores of `deliver_pending`. -/
def deliverPending (cpu : Nat) (m : TaskManager) : Transfer :=
  match m.onCpu cpu with
  | none => .run [] .returned
  | some thread =>
    if m.inUserMode thread = false then .run [] .returned
    else
      let slot := m.processSlot thread
      match m.deliverable slot with
      | none => .run [] .returned
      | some pending => deliverSignals thread slot pending (List.range' 1 31) m

section Deliver

variable {m : TaskManager} {cpu sig : Nat} {thread slot : Kernel.Slot} {t : Task}

theorem frameStores_clear (sig sig' : Nat) :
    frameStores (m.modify slot (Task.clearSignal · sig')) thread sig
      = frameStores m thread sig := by
  rw [frameStores, frameStores]
  by_cases heq : thread = slot
  · rw [heq, TaskManager.modify_self]
    rcases m.tasks slot with _ | t <;> rfl
  · rw [TaskManager.modify_of_ne heq]

/-- The loop comes to the first signal that is more than cleared. -/
theorem deliverSignals_transfer {sigs : List Nat}
    (hhandlers : ∀ sig, m.handlerOf slot sig = t.handler sig) :
    deliverSignals thread slot t.pendingSignals sigs m =
      match sigs.find? t.acts with
      | none => .run [] .returned
      | some sig =>
        if t.handler sig ≠ 0 then .run (frameStores m thread sig) .returned
        else .run [] .killed := by
  induction sigs generalizing m with
  | nil => rfl
  | cons sig sigs ih =>
    rw [deliverSignals, hhandlers sig, t.onSignal]
    by_cases hacts : t.acts sig = true
    · rw [if_pos hacts, find?_cons_of_pos hacts]
    rw [if_neg hacts, find?_cons_of_neg hacts]
    split
    · exact ih hhandlers
    · rw [ih fun sig' => (Kernel.handlerOf_clear sig sig').trans (hhandlers sig')]
      simp only [frameStores_clear]

/-- A thread is about to return to user mode, and a handler of its process is to be started
for a signal. -/
structure Starts (cpu : Nat) (m : TaskManager) (thread : Kernel.Slot) (t : Task) (sig : Nat) :
    Prop where
  runs : m.onCpu cpu = some thread
  user : m.inUserMode thread = true
  process : m.tasks (m.processSlot thread) = some t
  alive : t.running = true ∧ t.zombie = false
  acts : t.acting = some sig
  handler : t.handler sig ≠ 0

theorem Starts.deliverable (h : Starts cpu m thread t sig) :
    m.deliverable (m.processSlot thread) = some t.pendingSignals := by
  obtain ⟨hrunning, hzombie⟩ := h.alive
  rcases hsome : m.deliverable (m.processSlot thread) with _ | pending
  · have hzero := Kernel.deliverable_eq_none hsome h.process hrunning hzombie
    have hacts := h.acts
    rw [Kernel.acting_eq_none_of_zero hzero] at hacts
    cases hacts
  obtain ⟨t', ht', hpending, -⟩ := Kernel.deliverable_eq_some hsome
  rw [h.process] at ht'
  cases ht'
  rw [hpending]

/-- What `deliver_pending` stores is the frame of the handler that it starts. -/
theorem deliverPending_of_starts (h : Starts cpu m thread t sig) :
    deliverPending cpu m = .run (frameStores m thread sig) .returned := by
  have hacts : (List.range' 1 31).find? t.acts = some sig := h.acts
  rw [deliverPending, h.runs]
  dsimp only
  rw [h.user, h.deliverable]
  dsimp only
  rw [deliverSignals_transfer (Kernel.handlerOf_eq h.process), hacts]
  exact if_pos h.handler

theorem deliverPending_of_none (h : ∀ thread t sig, ¬Starts cpu m thread t sig) :
    ∃ ending, deliverPending cpu m = .run [] ending := by
  rw [deliverPending]
  rcases hruns : m.onCpu cpu with _ | thread
  · exact ⟨_, rfl⟩
  dsimp only
  rcases huser : m.inUserMode thread with _ | _
  · exact ⟨_, rfl⟩
  rcases hsome : m.deliverable (m.processSlot thread) with _ | pending
  · exact ⟨_, rfl⟩
  obtain ⟨t, ht, rfl, halive⟩ := Kernel.deliverable_eq_some hsome
  dsimp only
  rw [deliverSignals_transfer (Kernel.handlerOf_eq ht)]
  rcases hacts : (List.range' 1 31).find? t.acts with _ | sig
  · exact ⟨_, rfl⟩
  by_cases hhandler : t.handler sig ≠ 0
  · exact absurd ⟨hruns, huser, ht, halive, hacts, hhandler⟩ (h thread t sig)
  · exact ⟨.killed, if_neg hhandler⟩

theorem mem_frameStores {x : Nat} {sig : Nat} {own : Task} (h : m.tasks thread = some own) :
    x ∈ (frameStores m thread sig).flatMap Store.range ↔
      ((own.frame.esp - 4).toNat ≤ x ∧ x < (own.frame.esp - 4).toNat + 4) ∨
        ((own.frame.esp - 8).toNat ≤ x ∧ x < (own.frame.esp - 8).toNat + 4) := by
  rw [frameStores, h]
  simp only [flatMap_cons, flatMap_nil, Store.range, mem_append, mem_cons, not_mem_nil, or_false]
  omega

theorem deliver_confined : (deliverPending cpu m).Confined mem ↔
      ∀ thread t sig own, Starts cpu m thread t sig → m.tasks thread = some own →
        ∀ x, ((own.frame.esp - 4).toNat ≤ x ∧ x < (own.frame.esp - 4).toNat + 4) ∨
          ((own.frame.esp - 8).toNat ≤ x ∧ x < (own.frame.esp - 8).toNat + 4) →
          mem.UserWritable x := by
  by_cases hstarts : ∃ thread t sig, Starts cpu m thread t sig
  · obtain ⟨thread, t, sig, h⟩ := hstarts
    have honly : ∀ thread' t' sig', Starts cpu m thread' t' sig' → thread' = thread := by
      intro thread' t' sig' h'
      have hruns := h'.runs
      rw [h.runs] at hruns
      exact (Option.some.inj hruns).symm
    obtain ⟨own, hown⟩ : ∃ own, m.tasks thread = some own := by
      have huser := h.user
      rw [TaskManager.inUserMode, Bool.and_eq_true] at huser
      obtain ⟨hsome, -⟩ := (Option.any_eq_true_iff_get _ _).1 huser.2
      exact Option.isSome_iff_exists.1 hsome
    rw [deliverPending_of_starts h, Transfer.confined_returned]
    simp only [mem_frameStores hown]
    constructor
    · intro hall thread' t' sig' own' h' hown'
      rw [honly _ _ _ h', hown] at hown'
      cases hown'
      exact hall
    · intro hall
      exact hall thread t sig own h hown
  · have hnone : ∀ thread t sig, ¬Starts cpu m thread t sig :=
      fun thread t sig h => hstarts ⟨thread, t, sig, h⟩
    obtain ⟨ending, hrun⟩ := deliverPending_of_none hnone
    rw [hrun]
    exact iff_of_true (Transfer.confined_nothing _) fun thread t sig _ h => absurd h (hnone _ _ _)

end Deliver

/-! ## `sys_read` -/

section Read

open Read

/-- The stores of `sys_read`: the bytes that were handed over, from the start of the buffer
on. -/
def sysRead (backend : Backend σ) (data : Nat → UInt8) (slot : Read.Slot) (buf : UserBuffer)
    (s : State σ) : Transfer :=
  match Read.sysRead backend slot buf s with
  | .ok (.bytes n, _) =>
    .run ((List.range n).map fun i => .byte (buf.ptr + i) (data i)) .returned
  | .ok (.error _, _) => .run [] .error
  | .ok (.restart, _) => .run [] .returned
  | .error _ => .panics (bytesAt buf.ptr buf.count)

theorem mem_byteStores {ptr x : Nat} {data : Nat → UInt8} :
    x ∈ ((List.range n).map fun i => Store.byte (ptr + i) (data i)).flatMap Store.range ↔
      ptr ≤ x ∧ x < ptr + n := by
  rw [← mem_bytesAt, bytesAt, mem_flatMap, mem_map]
  constructor
  · rintro ⟨_, hstore, hx⟩
    obtain ⟨i, hi, rfl⟩ := mem_map.1 hstore
    exact ⟨i, hi, (mem_singleton.1 hx).symm⟩
  · rintro ⟨i, hi, rfl⟩
    exact ⟨_, mem_map.2 ⟨i, hi, rfl⟩, mem_singleton_self _⟩

variable {backend : Backend σ} {data : Nat → UInt8} {slot : Read.Slot} {buf : UserBuffer}
  {s : State σ}

theorem read_confined (hlaw : Lawful backend) (hheap : Holds none s.1) :
    (sysRead backend data slot buf s).Confined mem ↔
      (∀ n, Handed backend slot buf s n → ∀ x, buf.ptr ≤ x → x < buf.ptr + n →
        mem.UserWritable x) ∧
      (ReadFits backend slot buf s ∨
        ∀ x, buf.ptr ≤ x → x < buf.ptr + buf.count → mem.UserWritable x) := by
  by_cases hfits : ReadFits backend slot buf s
  · rw [and_iff_left (.inl hfits), sysRead]
    have hbytes : ∀ n, 0 < n → (Returns (.bytes n) (Read.sysRead backend slot buf s) ↔
        Handed backend slot buf s n) := fun n => read_bytes_iff hlaw hheap hfits
    obtain ⟨ret, s', hrun⟩ := (read_returns_iff hlaw hheap).2 hfits
    have hquiet : (∀ n, ret ≠ .bytes n) → ∀ n, Handed backend slot buf s n →
        ∀ x, buf.ptr ≤ x → x < buf.ptr + n → mem.UserWritable x := by
      intro hret n hhanded x hle hlt
      obtain ⟨s₁, hrun₁⟩ := (hbytes n (by omega)).2 hhanded
      rw [hrun] at hrun₁
      cases hrun₁
      exact absurd rfl (hret n)
    rw [hrun]
    cases ret with
    | bytes n =>
      rw [Transfer.confined_returned]
      simp only [mem_byteStores, and_imp]
      constructor
      · intro hall n' hhanded x hle hlt
        obtain ⟨s₁, hrun₁⟩ := (hbytes n' (by omega)).2 hhanded
        rw [hrun] at hrun₁
        cases hrun₁
        exact hall x hle hlt
      · intro hall x hle hlt
        exact hall n ((hbytes n (by omega)).1 ⟨s', hrun⟩) x hle hlt
    | error e =>
      exact iff_of_true (Transfer.confined_nothing _) (hquiet fun n h => (nomatch h))
    | restart =>
      exact iff_of_true (Transfer.confined_nothing _) (hquiet fun n h => (nomatch h))
  · obtain ⟨fault, hrun⟩ := read_stops hlaw hheap hfits
    rw [or_iff_right hfits, sysRead, hrun]
    rw [Transfer.confined_panics]
    simp only [mem_bytesAt, and_imp]
    constructor
    · intro hall
      refine ⟨fun n hhanded x hle hlt => hall x hle ?_, hall⟩
      have := hhanded.le hlaw
      omega
    · exact fun h => h.2

/-- The stores that the four functions make for a task are confined exactly if what they are to
write may be written by the user: the descriptors of a pipe that can be made, the status of
a child that there is something to tell about, the frame of a handler that is to be started,
and the bytes that are handed over to a read.  A read that is stopped before that must have
been given a buffer of the user, too. -/
theorem user_pointers_confined_iff (mem : Machine)
    (t : Fin n) (pipefd : Nat) (pipes : Io.Pipes) (k : Fd.Kernel n)
    (current : Kernel.Slot) (pid : Int) (statusPtr : Nat) (options : WaitOptions)
    (cpu : Nat) (m : TaskManager)
    (hlaw : Lawful backend) (data : Nat → UInt8) (slot : Read.Slot) (buf : UserBuffer)
    (s : State σ) {free : List (Nat × Nat)} (hheap : HeapOp.Inv s.1 free) :
    ((sysPipe t pipefd pipes k).1.Confined mem ↔
      (PipeReady t pipes k → ∀ x, pipefd ≤ x → x < pipefd + 8 → mem.UserWritable x)) ∧
    ((sysWaitStatus current pid statusPtr options m).1.Confined mem ↔
      (Tells current pid options m → statusPtr ≠ 0 →
        ∀ x, statusPtr ≤ x → x < statusPtr + 4 → mem.UserWritable x)) ∧
    ((deliverPending cpu m).Confined mem ↔
      ∀ thread t sig own, Starts cpu m thread t sig → m.tasks thread = some own →
        ∀ x, ((own.frame.esp - 4).toNat ≤ x ∧ x < (own.frame.esp - 4).toNat + 4) ∨
          ((own.frame.esp - 8).toNat ≤ x ∧ x < (own.frame.esp - 8).toNat + 4) →
          mem.UserWritable x) ∧
    ((sysRead backend data slot buf s).Confined mem ↔
      (∀ n, Handed backend slot buf s n → ∀ x, buf.ptr ≤ x → x < buf.ptr + n →
        mem.UserWritable x) ∧
      (ReadFits backend slot buf s ∨
        ∀ x, buf.ptr ≤ x → x < buf.ptr + buf.count → mem.UserWritable x)) :=
  ⟨pipe_confined, wait_confined, deliver_confined, read_confined hlaw (holds_none hheap)⟩

end Read

/-! ## Pointers into the kernel -/

/-- The lowest 4 MiB of memory are a page of the kernel, at `KERNEL_OFFSET`, and the next 4 MiB
are a page of the user. -/
def twoPages : Machine where
  entries i := if i = 768 then 0x83 else if i = 1 then 0x400087 else 0
  phys _ _ := 0
  frames := ⟨0x1000, [], 0x8000, fun _ => false⟩

/-- A task with a handler for `SIGTERM`, which is pending, and with a child that has ended. -/
def parentAndChild (esp : UInt32) : TaskManager :=
  (Kernel.twoTasks.modify 1 fun t =>
    { t with
      frame := { t.frame with esp }
      pendingSignals := Kernel.sigbit 15
      signalHandlers := fun _ => 0x401000 }).modify 2 fun t =>
    { t with zombie := true, ppid := 1, exitCode := 7 }

def waitOptions : WaitOptions := ⟨false, false, false⟩

def noPipes : Io.Pipes := fun _ => Io.Pipe.empty

/-- The back ends of the kernel, with sockets that have nothing to read. -/
def ownSources : Read.Backend (Read.Sources Unit) :=
  Read.ownBackend (fun _ => none) false ⟨0, 0⟩ fun _ _ s => .ok (.bytes 0, s)

theorem lawful_ownSources : Read.Lawful ownSources := by
  refine Read.lawful_ownBackend ⟨fun h hholds => ?_, fun h => ?_⟩
  · cases h
    exact hholds
  · cases h
    exact Nat.zero_le _

/-- A key was pressed. -/
def keyTyped : Read.State (Read.Sources Unit) :=
  (HeapOp.newLedger fun _ => 0, ⟨[65], noPipes, fun _ => none, ⟨0, fun _ => 0⟩, ()⟩)

def consoleIn : Read.Slot := ⟨0, some .consoleIn, 0, false⟩

/-- A buffer of the user, or of the kernel. -/
def bufferAt (ptr : Nat) (h : ptr < 2 ^ 32) : Read.UserBuffer := ⟨ptr, 16, h, by decide⟩

theorem userWritable_user_page (hle : 0x400000 ≤ x) (hlt : x < 0x800000) :
    twoPages.UserWritable x := by
  have hentry : twoPages.entries (x / 4096 / 1024) = 0x400087 := by
    rw [show x / 4096 / 1024 = 1 by omega]
    rfl
  refine ⟨by rw [kernelOffset]; omega, ?_, .inl ?_⟩
  · rw [hentry]
    decide
  · rw [hentry]
    decide

/-- With pointers into the page of the user all four are confined. -/
theorem user_pointers_confined_iff_user_page :
    Read.Lawful ownSources ∧ HeapOp.Inv keyTyped.1 [] ∧
      (sysPipe (0 : Fin 1) 0x400000 noPipes (Fd.boot 0)).1.Confined twoPages ∧
      (sysWaitStatus 1 (-1) 0x400000 waitOptions (parentAndChild 0x400100)).1.Confined twoPages ∧
      (deliverPending 0 (parentAndChild 0x400100)).Confined twoPages ∧
      (sysRead ownSources (fun _ => 65) consoleIn (bufferAt 0x400000 (by decide))
        keyTyped).Confined twoPages := by
  obtain ⟨hpipe, hwait, hdeliver, hread⟩ :=
    user_pointers_confined_iff twoPages (0 : Fin 1) 0x400000 noPipes (Fd.boot 0) 1 (-1) 0x400000
      waitOptions 0 (parentAndChild 0x400100) lawful_ownSources (fun _ => 65) consoleIn
      (bufferAt 0x400000 (by decide)) keyTyped (HeapOp.inv_newLedger _)
  refine ⟨lawful_ownSources, HeapOp.inv_newLedger _, hpipe.2 ?_, hwait.2 ?_, hdeliver.2 ?_,
    hread.2 ⟨?_, .inr ?_⟩⟩
  · exact fun _ x hle hlt => userWritable_user_page hle (by omega)
  · exact fun _ _ x hle hlt => userWritable_user_page hle (by omega)
  · intro thread t sig own hstarts hown x hx
    cases hstarts.runs
    cases hown
    have hesp : ((0x400100 - 4 : UInt32)).toNat = 0x4000FC ∧
        ((0x400100 - 8 : UInt32)).toNat = 0x4000F8 := by
      decide
    rw [hesp.1, hesp.2] at hx
    exact userWritable_user_page (by omega) (by omega)
  · intro n hhanded x hle hlt
    have hcount : n ≤ 16 := hhanded.le lawful_ownSources
    have hptr : (bufferAt 0x400000 (by decide)).ptr = 0x400000 := rfl
    exact userWritable_user_page hle (by omega)
  · intro x hle hlt
    change x < 0x400000 + 16 at hlt
    exact userWritable_user_page hle (by omega)

/-- What a transfer did at the addresses from `0xC0100000` on. -/
def kernelBytes (t : Transfer) : List UInt8 :=
  (List.range 8).map ((t.trace twoPages).memory.phys 256)

set_option maxRecDepth 4000 in
/-- All four functions write to the memory of the kernel if they are told to: the numbers of
two descriptors, the status of a child, a signal with a program counter, and a key. -/
theorem kernel_memory_written : ¬twoPages.UserWritable 0xC0100000 ∧
    kernelBytes (.run [] .returned) = [0, 0, 0, 0, 0, 0, 0, 0] ∧
    (kernelBytes (sysPipe (0 : Fin 1) 0xC0100000 noPipes (Fd.boot 0)).1
        = [3, 0, 0, 0, 4, 0, 0, 0] ∧
      ¬(sysPipe (0 : Fin 1) 0xC0100000 noPipes (Fd.boot 0)).1.Confined twoPages) ∧
    (kernelBytes (sysWaitStatus 1 (-1) 0xC0100000 waitOptions (parentAndChild 0)).1
        = [0, 7, 0, 0, 0, 0, 0, 0] ∧
      ¬(sysWaitStatus 1 (-1) 0xC0100000 waitOptions (parentAndChild 0)).1.Confined twoPages) ∧
    (kernelBytes (deliverPending 0 (parentAndChild 0xC0100008)) = [0, 0, 64, 0, 15, 0, 0, 0] ∧
      ¬(deliverPending 0 (parentAndChild 0xC0100008)).Confined twoPages) ∧
    (kernelBytes (sysRead ownSources (fun _ => 65) consoleIn (bufferAt 0xC0100000 (by decide))
        keyTyped) = [65, 0, 0, 0, 0, 0, 0, 0] ∧
      ¬(sysRead ownSources (fun _ => 65) consoleIn (bufferAt 0xC0100000 (by decide))
        keyTyped).Confined twoPages) := by
  have hbad : ¬twoPages.UserWritable 0xC0100000 := by decide
  refine ⟨hbad, rfl, ⟨by decide +kernel, fun h => hbad (h.within _ ?_)⟩,
    ⟨by decide +kernel, fun h => hbad (h.within _ ?_)⟩,
    ⟨by decide +kernel, fun h => hbad (h.within _ ?_)⟩,
    ⟨by decide +kernel, fun h => hbad (h.within _ ?_)⟩⟩
  all_goals decide +kernel

end Felix.UserPointers
