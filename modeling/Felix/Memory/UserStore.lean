import Felix.Memory.AddressSpace
import Felix.Memory.Heap

/-!
# Stores through pointers of the user

A system call that stores a result does so in the address space of its caller, with the
pointer it was given.  The processor is in kernel mode then and `CR0.WP` is not set, so
that a page only has to be present.  A page fault in kernel mode stops the machine; in a
build with debug assertions so does a pointer that is null, not aligned, or out of the
address space.

`Transfer` is what a call does with the memory of its caller, and `Confined` says that it
keeps to what the caller itself may write.
-/

namespace Felix.Memory

open Bytes

/-- The entry is present and has the flags `WRITABLE` and `USER`. -/
def userWritable (w : UInt32) : Bool := present w && w.toNat.testBit 1 && w.toNat.testBit 2

namespace Machine

variable {m m' : Machine} {x : Nat}

/-- The address is below the kernel, and the user may write there. -/
def UserWritable (m : Machine) (x : Nat) : Prop :=
  x < kernelOffset ∧ userWritable (m.entries (x / 4096 / 1024)) = true ∧
    (largePage (m.entries (x / 4096 / 1024)) = true ∨ userWritable (m.pte (x / 4096)) = true)
  deriving Decidable

end Machine

/-! ## Stores -/

inductive Store where
  | byte (addr : Nat) (value : UInt8)
  | word (addr : Nat) (value : UInt32)

namespace Store

/-- The addresses of a store. -/
def range : Store → List Nat
  | .byte addr _ => [addr]
  | .word addr _ => [addr, addr + 1, addr + 2, addr + 3]

/-- The checks of a build with debug assertions. -/
def checked : Store → Bool
  | .byte addr _ => addr ≠ 0 && addr < 2 ^ 32
  | .word addr _ => addr ≠ 0 && addr < 2 ^ 32 && addr % 4 = 0

/-- The store in kernel mode; there may be a page fault. -/
def apply (m : Machine) : Store → Option Machine
  | .byte addr value => (m.translate addr).map fun phys =>
      m.setFrame (phys / 4096) (put8 (phys % 4096) value (m.phys (phys / 4096)))
  | .word addr value => (m.translate addr).map fun phys =>
      m.setFrame (phys / 4096) (put32 (phys % 4096) value (m.phys (phys / 4096)))

end Store

/-- What a call left behind: the addresses that it wrote, whether the machine was stopped, and
the memory. -/
structure Trace where
  written : List Nat
  stopped : Bool
  memory : Machine

/-- Stores, one after the other. -/
def performStores : List Store → Machine → Trace
  | [], m => ⟨[], false, m⟩
  | store :: stores, m =>
    if store.checked = false then ⟨[], true, m⟩
    else
      match store.apply m with
      | none => ⟨[], true, m⟩
      | some m =>
        let rest := performStores stores m
        { rest with written := store.range ++ rest.written }

/-- How a call ends that is not stopped. -/
inductive Ending where
  | returned
  | error
  | killed
  deriving DecidableEq

/-- What a call does with the memory of its caller: some stores before it ends, or a panic when
it was about to store in some memory. -/
inductive Transfer where
  | run (stores : List Store) (ending : Ending)
  | panics (aim : List Nat)

namespace Transfer

/-- The addresses that the call is to write. -/
def aim : Transfer → List Nat
  | .run stores _ => stores.flatMap Store.range
  | .panics aim => aim

def trace (m : Machine) : Transfer → Trace
  | .run stores _ => performStores stores m
  | .panics _ => ⟨[], true, m⟩

/-- The call was refused: it returned an error, or the task was killed. -/
def Refused (m : Machine) (t : Transfer) : Prop :=
  (t.trace m).stopped = false ∧
    match t with
    | .run _ ending => ending = .error ∨ ending = .killed
    | .panics _ => False

/-- All that was written may be written by the user, so that nothing of the kernel was, and a
call that is to write anything else is refused. -/
structure Confined (m : Machine) (t : Transfer) : Prop where
  within : ∀ x ∈ (t.trace m).written, m.UserWritable x
  refused : (∃ x ∈ t.aim, ¬m.UserWritable x) → t.Refused m

variable {m : Machine} {stores : List Store}

theorem written_subset :
    ∀ x ∈ (performStores stores m).written, x ∈ stores.flatMap Store.range := by
  induction stores generalizing m with
  | nil => exact fun x hx => (nomatch hx)
  | cons store stores ih =>
    intro x hx
    rw [performStores] at hx
    split at hx
    · cases hx
    split at hx
    · cases hx
    rcases List.mem_append.1 hx with hhere | hrest
    · exact List.mem_append_left _ hhere
    · exact List.mem_append_right _ (ih x hrest)

/-- The stores themselves check nothing: a call that reports success is confined exactly if the
user may write all it is to write. -/
theorem confined_returned : (run stores .returned).Confined m ↔
      ∀ x ∈ stores.flatMap Store.range, m.UserWritable x := by
  constructor
  · intro hconfined x hx
    by_contra hbad
    obtain ⟨-, hended⟩ := hconfined.refused ⟨x, hx, hbad⟩
    rcases hended with h | h <;> cases h
  · intro haim
    refine ⟨fun x hx => haim x (written_subset x hx), ?_⟩
    rintro ⟨x, hx, hbad⟩
    exact absurd (haim x hx) hbad

theorem confined_nothing (ending : Ending) : (run [] ending).Confined m where
  within x hx := (nomatch hx)
  refused := by
    rintro ⟨x, hx, -⟩
    cases hx

theorem confined_panics {aim : List Nat} :
    (panics aim).Confined m ↔ ∀ x ∈ aim, m.UserWritable x := by
  constructor
  · intro hconfined x hx
    by_contra hbad
    exact (hconfined.refused ⟨x, hx, hbad⟩).2
  · intro haim
    refine ⟨fun x hx => (nomatch hx), ?_⟩
    rintro ⟨x, hx, hbad⟩
    exact absurd (haim x hx) hbad

end Transfer

end Felix.Memory
