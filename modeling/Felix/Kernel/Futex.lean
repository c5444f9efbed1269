import Felix.Kernel.Moves
import Felix.Kernel.Process
import Felix.Memory.Elf

/-!
# Futexes

`sys_futex` as a whole.  The address of the futex is checked and made a key: the physical
address, or for a private futex the process and the virtual address.  Keys are numbers, and
`FutexName` is what they stand for; different futexes have different keys.

`FUTEX_WAKE` goes through the table and wakes the first tasks that wait for the key.
`futexWake_eq` says which ones.

The page tables and the memory of the user are an argument.
-/

namespace Felix.Kernel

def enosys : UInt32 := -38

/-! ## Constants -/

/-- `FUTEX_WAIT`. -/
def futexCmdWait : UInt32 := 0
/-- `FUTEX_WAKE`. -/
def futexCmdWake : UInt32 := 1
def futexPrivateFlag : UInt32 := 128
def futexClockRealtime : UInt32 := 256
def futexCmdMask : UInt32 := ~~~(futexPrivateFlag ||| futexClockRealtime)

/-- What the calls see of the memory of the user. -/
structure UserMemory where
  /-- `translate` of the page directory of a task. -/
  translate : Slot → UInt32 → Option UInt32
  /-- The word at a physical address. -/
  word : UInt32 → UInt32

/-- A word is read by a task. -/
def UserMemory.load (mem : UserMemory) (thread : Slot) (addr : UInt32) : UInt32 :=
  ((mem.translate thread addr).map mem.word).getD 0

/-- The arguments of `sys_futex`. -/
structure FutexCall where
  uaddr : UInt32
  op : UInt32
  val : UInt32
  timeout : Option (Int × Int)

def FutexCall.cmd (c : FutexCall) : UInt32 := c.op &&& futexCmdMask

/-- The key of a private futex. -/
def privateKey (pid : Int) (addr : UInt32) : Nat :=
  2 ^ 63 ||| (UInt32.ofInt pid).toNat <<< 32 ||| addr.toNat

namespace TaskManager

def futexKey (m : TaskManager) (thread : Slot) (c : FutexCall) (mem : UserMemory) :
    Except UInt32 Nat :=
  if c.uaddr = 0 ∨ c.uaddr &&& 3 ≠ 0 then .error einval
  else if Memory.kernelMmioBase ≤ c.uaddr.toNat then .error efault
  else
    match m.tasks thread with
    | none => .error efault
    | some task =>
      match mem.translate thread c.uaddr with
      | none => .error efault
      | some phys =>
        if c.op &&& futexPrivateFlag ≠ 0 then .ok (privateKey task.pid c.uaddr)
        else .ok phys.toNat

/-- The deadline of a wait; it is 0 without a timeout. -/
def futexDeadline (m : TaskManager) (c : FutexCall) : Except UInt32 Nat :=
  if c.cmd = futexCmdWait then
    match c.timeout with
    | none => .ok 0
    | some (sec, nsec) =>
      match waitMs sec nsec with
      | none => .error einval
      | some wait => if wait = 0 then .error etimedout else .ok (satAdd64 m.now wait)
  else .ok 0

def sysFutex (cpu : Nat) (thread : Slot) (c : FutexCall) (mem : UserMemory) (m : TaskManager) :
    TaskManager :=
  if c.op &&& futexClockRealtime ≠ 0 then m.setEax thread enosys
  else
    match m.futexDeadline c with
    | .error err => m.setEax thread err
    | .ok deadline =>
      match m.futexKey thread c mem with
      | .error err => m.setEax thread err
      | .ok key =>
        if c.cmd = futexCmdWait then
          m.futexBlock cpu thread deadline (some key) (mem.load thread c.uaddr) c.val
        else if c.cmd = futexCmdWake then m.futexWake thread (some key) c.val.toNat
        else m.setEax thread enosys

end TaskManager

/-! ## Names -/

/-- What a key stands for. -/
inductive FutexName where
  /-- A private futex of a process. -/
  | process (pid : Int) (addr : UInt32)
  /-- A physical address. -/
  | shared (phys : UInt32)
  deriving DecidableEq

namespace FutexName

def key : FutexName → Nat
  | .process pid addr => privateKey pid addr
  | .shared phys => phys.toNat

/-- The process is one that `alloc_pid` gives a number to. -/
def Proper : FutexName → Prop
  | .process pid _ => 0 ≤ pid ∧ pid < 2 ^ 31
  | .shared _ => True

theorem privateKey_eq {pid : Int} {addr : UInt32} (h : 0 ≤ pid ∧ pid < 2 ^ 31) :
    privateKey pid addr = 2 ^ 63 + pid.toNat * 2 ^ 32 + addr.toNat := by
  have haddr : addr.toNat < 2 ^ 32 := addr.toNat_lt
  have hpid : (UInt32.ofInt pid).toNat = pid.toNat := by
    rw [UInt32.ofInt, UInt32.toNat_ofNat']
    omega
  have hlow : pid.toNat <<< 32 < 2 ^ 63 := by
    omega
  -- the three parts of the key do not overlap
  have htop := Nat.two_pow_add_eq_or_of_lt hlow 1
  have hhigh : 2 ^ 63 * 1 + pid.toNat <<< 32 = (2 ^ 31 + pid.toNat) <<< 32 := by
    omega
  rw [Nat.mul_one] at htop hhigh
  rw [privateKey, hpid, ← htop, hhigh, ← Nat.shiftLeft_add_eq_or_of_lt haddr]
  omega

theorem key_injective {n n' : FutexName} (hn : n.Proper) (hn' : n'.Proper) (h : n.key = n'.key) :
    n = n' := by
  have hshared : ∀ {pid : Int} {addr phys : UInt32}, 0 ≤ pid ∧ pid < 2 ^ 31 →
      privateKey pid addr ≠ phys.toNat := by
    intro pid addr phys hpid heq
    have hphys : phys.toNat < 2 ^ 32 := phys.toNat_lt
    rw [privateKey_eq hpid] at heq
    omega
  cases n with
  | process pid addr =>
    cases n' with
    | process pid' addr' =>
      have haddr : addr.toNat < 2 ^ 32 := addr.toNat_lt
      have haddr' : addr'.toNat < 2 ^ 32 := addr'.toNat_lt
      rw [key, key, privateKey_eq hn, privateKey_eq hn'] at h
      obtain ⟨hpos, -⟩ := hn
      obtain ⟨hpos', -⟩ := hn'
      rw [show pid = pid' by omega, UInt32.toNat_inj.1 (show addr.toNat = addr'.toNat by omega)]
    | shared phys => exact absurd h (hshared hn)
  | shared phys =>
    cases n' with
    | process pid' addr' => exact absurd h.symm (hshared hn')
    | shared phys' => rw [UInt32.toNat_inj.1 h]

end FutexName

namespace TaskManager

variable {m : TaskManager} {cpu key : Nat} {thread : Slot} {c : FutexCall} {mem : UserMemory}
  {slots : List Slot} {n : FutexName}

/-- The futex that a call is about, if the address is good. -/
def futexName (m : TaskManager) (thread : Slot) (c : FutexCall) (mem : UserMemory) :
    Option FutexName :=
  if (m.futexKey thread c mem).isOk = false then none
  else if c.op &&& futexPrivateFlag ≠ 0 then
    (m.tasks thread).map fun t => .process t.pid c.uaddr
  else (mem.translate thread c.uaddr).map .shared

theorem futexName_of_key (h : m.futexKey thread c mem = .ok key) :
    ∃ n, m.futexName thread c mem = some n ∧ n.key = key := by
  have hok : (m.futexKey thread c mem).isOk = true := by
    rw [h]
    rfl
  unfold futexName
  rw [if_neg (by rw [hok]; decide)]
  unfold futexKey at h
  split at h
  · cases h
  split at h
  · cases h
  split at h
  · cases h
  rename_i t ht
  split at h
  · cases h
  rename_i phys hphys
  split at h
  · rw [if_pos ‹_›, ht]
    cases h
    exact ⟨_, rfl, rfl⟩
  rw [if_neg ‹_›, hphys]
  cases h
  exact ⟨_, rfl, rfl⟩

/-- A private futex is one of the process of the caller. -/
theorem proper_futexName (h : m.futexName thread c mem = some n)
    (hpid : ∀ t, m.tasks thread = some t → 0 ≤ t.pid ∧ t.pid < 2 ^ 31) : n.Proper := by
  unfold futexName at h
  split at h
  · cases h
  split at h
  · obtain ⟨t, ht, rfl⟩ := Option.map_eq_some_iff.1 h
    exact hpid t ht
  · obtain ⟨phys, -, rfl⟩ := Option.map_eq_some_iff.1 h
    trivial

/-- What a call does: it returns at once, or the task waits, or tasks are woken. -/
theorem sysFutex_cases : (∃ result, m.sysFutex cpu thread c mem = m.setEax thread result) ∨
    (∃ key deadline, c.cmd = futexCmdWait ∧ m.futexKey thread c mem = .ok key ∧
      mem.load thread c.uaddr = c.val ∧ m.sysFutex cpu thread c mem =
        ((m.setEax thread 0).modify thread (waitFutex key deadline)).schedule cpu) ∨
    (∃ key, c.cmd = futexCmdWake ∧ m.futexKey thread c mem = .ok key ∧
      m.sysFutex cpu thread c mem = m.futexWake thread (some key) c.val.toNat) := by
  unfold sysFutex
  split
  · exact .inl ⟨_, rfl⟩
  split
  · exact .inl ⟨_, rfl⟩
  split
  · exact .inl ⟨_, rfl⟩
  rename_i key hkey
  split
  · rename_i hwait
    unfold futexBlock
    dsimp only
    split
    · exact .inl ⟨_, rfl⟩
    · rename_i hword
      exact .inr (.inl ⟨key, _, hwait, hkey, Decidable.not_not.1 hword, rfl⟩)
  · split
    · exact .inr (.inr ⟨key, ‹_›, hkey, rfl⟩)
    · exact .inl ⟨_, rfl⟩

/-- A wait whose word has changed returns at once. -/
theorem sysFutex_of_ne (hcmd : c.cmd = futexCmdWait) (hword : mem.load thread c.uaddr ≠ c.val) :
    ∃ result, m.sysFutex cpu thread c mem = m.setEax thread result := by
  rcases @sysFutex_cases m cpu thread c mem with hreturn | ⟨_, _, _, _, heq, _⟩ | ⟨_, hwake, _⟩
  · exact hreturn
  · exact absurd heq hword
  · rw [hcmd] at hwake
    exact absurd hwake (by decide)

theorem sysFutex_wake (hclock : c.op &&& futexClockRealtime = 0)
    (hcmd : c.cmd = futexCmdWake) (hname : m.futexName thread c mem = some n) :
    m.sysFutex cpu thread c mem = m.futexWake thread (some n.key) c.val.toNat := by
  have hkey : m.futexKey thread c mem = .ok n.key := by
    cases hkey : m.futexKey thread c mem with
    | error err =>
      unfold futexName at hname
      rw [hkey] at hname
      cases hname
    | ok key =>
      obtain ⟨n', hname', rfl⟩ := futexName_of_key hkey
      rw [hname] at hname'
      cases hname'
      rfl
  have hdeadline : m.futexDeadline c = .ok 0 := by
    unfold futexDeadline
    rw [if_neg (by rw [hcmd]; decide)]
  unfold sysFutex
  simp only [hdeadline, hkey, hcmd]
  rw [if_neg (not_not_intro hclock), if_neg (by decide), if_pos trivial]

/-! ## Waking -/

/-- The task in a slot waits for the key. -/
def waitsOn (m : TaskManager) (key : Nat) (slot : Slot) : Bool :=
  (m.tasks slot).any fun t => t.state = .blocked .futex && t.futexKey = key

/-- The tasks in some slots are woken. -/
def wakeAll (slots : List Slot) (m : TaskManager) : TaskManager :=
  { m with tasks := fun s => if s ∈ slots then (m.tasks s).map wakeFutex else m.tasks s }

theorem wakeAll_nil : m.wakeAll [] = m := by
  simp [wakeAll]

theorem wakeAll_modify {slot : Slot} (h : slot ∉ slots) :
    (m.modify slot wakeFutex).wakeAll slots = m.wakeAll (slot :: slots) := by
  have htasks :
      ((m.modify slot wakeFutex).wakeAll slots).tasks = (m.wakeAll (slot :: slots)).tasks := by
    funext s
    by_cases hs : s = slot
    · subst hs
      simp [wakeAll, modify, h]
    · simp [wakeAll, modify, hs]
  show { m.wakeAll (slot :: slots) with
    tasks := ((m.modify slot wakeFutex).wakeAll slots).tasks } = m.wakeAll (slot :: slots)
  rw [htasks]

/-- The loop wakes the first tasks that wait, as many as are asked for. -/
theorem futexWakeFrom_eq {count woken : Nat} (hslots : slots.Nodup) :
    m.futexWakeFrom key count slots woken =
      (woken + ((slots.filter (m.waitsOn key)).take (count - woken)).length,
        m.wakeAll ((slots.filter (m.waitsOn key)).take (count - woken))) := by
  induction slots generalizing m woken with
  | nil => simp [futexWakeFrom, wakeAll_nil]
  | cons slot slots ih =>
    obtain ⟨hslot, hslots⟩ := List.nodup_cons.1 hslots
    unfold futexWakeFrom
    split
    · rename_i hdone
      simp [Nat.sub_eq_zero_of_le hdone, wakeAll_nil]
    split
    · rename_i hwaits
      change m.waitsOn key slot = true at hwaits
      have hfilter : slots.filter ((m.modify slot wakeFutex).waitsOn key) =
          slots.filter (m.waitsOn key) := by
        refine List.filter_congr fun s hs => ?_
        unfold waitsOn
        rw [modify_of_ne]
        rintro rfl
        exact hslot hs
      have hcount : count - woken = count - (woken + 1) + 1 := by omega
      rw [ih hslots, hfilter, List.filter_cons_of_pos hwaits, hcount, List.take_succ_cons,
        List.length_cons, wakeAll_modify]
      · rw [Nat.add_right_comm, Nat.add_assoc]
      · exact fun hmem => hslot (List.mem_of_mem_filter (List.mem_of_mem_take hmem))
    · rename_i hnot
      change ¬ m.waitsOn key slot = true at hnot
      rw [ih hslots, List.filter_cons_of_neg hnot]

/-- The slots of the tasks that `FUTEX_WAKE` wakes. -/
def futexChosen (m : TaskManager) (key count : Nat) : List Slot :=
  ((List.finRange 32).filter (m.waitsOn key)).take count

theorem futexWake_eq (key count : Nat) : m.futexWake thread (some key) count =
    (m.wakeAll (m.futexChosen key count)).setEax thread
      (UInt32.ofNat (m.futexChosen key count).length) := by
  unfold futexWake
  simp only [futexWakeFrom_eq (List.nodup_finRange 32), Nat.zero_add]
  rfl

end TaskManager

end Felix.Kernel
