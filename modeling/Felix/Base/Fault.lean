import Mathlib.Algebra.GroupWithZero.Nat

/-!
# Computations that can fault

A small library for shallow embeddings of systems code.  A computation is
an `Except` over the reasons why such code stops: the arithmetic checks of
a debug build, an index check of a slice, an assertion, a raw access
outside its buffer, and a loop that runs past its bound.  `Res.bind_eq_ok`
takes a successful sequence apart and `Res.ok_bind` runs one step of it;
the proofs about a modelled function use those two rules and do not unfold
the monad.  `Res.Checked` is the triple for a computation in which no
arithmetic check fails, with a rule for sequences and one for loops.

The checked operators work on naturals that stand for machine words.  Each
has one equation for the case that stays in range.
-/

namespace Felix

/-- Why a computation stops. -/
inductive Fault where
  | overflow
  | divideByZero
  | outOfRange
  | assertion
  | memory
  | diverged
  deriving DecidableEq, Repr

/-- A computation that can fault. -/
abbrev Res (α : Type) := Except Fault α

namespace Res

variable {α β : Type} {f : α → Res β} {x : Res α} {Q : α → Prop}

@[simp] theorem ok_bind (a : α) (f : α → Res β) : ((Except.ok a : Res α) >>= f) = f a := rfl

@[simp] theorem error_bind (e : Fault) (f : α → Res β) :
    ((Except.error e : Res α) >>= f) = .error e := rfl

@[simp] theorem pure_eq (a : α) : (pure a : Res α) = .ok a := rfl

/-- A sequence succeeds when its first part does and the rest succeeds
from there. -/
theorem bind_eq_ok {b : β} : (x >>= f) = .ok b ↔ ∃ a, x = .ok a ∧ f a = .ok b := by
  cases x with
  | error e =>
    constructor
    · intro h
      cases h
    · rintro ⟨a, ha, _⟩
      cases ha
  | ok a =>
    constructor
    · intro h
      exact ⟨a, rfl, h⟩
    · rintro ⟨a', ha, h⟩
      cases ha
      exact h

/-- A part of the result was computed, so there is a result. -/
theorem of_toOption {f : α → β} {b : β} (h : (x.map f).toOption = some b) :
    ∃ a, x = .ok a ∧ f a = b := by
  cases x with
  | error e => cases h
  | ok a => exact ⟨a, rfl, Option.some.inj h⟩

/-- A computation that does not fault. -/
def Safe (x : Res α) : Prop := ∃ a, x = .ok a

@[simp] theorem safe_ok (a : α) : Safe (.ok a : Res α) := ⟨a, rfl⟩

@[simp] theorem not_safe_error (e : Fault) : ¬ Safe (.error e : Res α) := by
  rintro ⟨a, ha⟩
  cases ha

theorem safe_bind : Safe (x >>= f) ↔ ∃ a, x = .ok a ∧ Safe (f a) := by
  constructor
  · rintro ⟨b, hb⟩
    obtain ⟨a, ha, hf⟩ := bind_eq_ok.1 hb
    exact ⟨a, ha, b, hf⟩
  · rintro ⟨a, ha, b, hb⟩
    exact ⟨b, bind_eq_ok.2 ⟨a, ha, hb⟩⟩

/-- No arithmetic check of the computation fails, and its result has the property. -/
def Checked (Q : α → Prop) (x : Res α) : Prop :=
  x ≠ .error .overflow ∧ ∀ a, x = .ok a → Q a

theorem Checked.ok {a : α} (h : Q a) : Checked Q (.ok a) := by
  refine ⟨fun herror => (nomatch herror), fun b hb => ?_⟩
  cases hb
  exact h

theorem Checked.error {e : Fault} (h : e ≠ .overflow) : Checked Q (.error e : Res α) := by
  refine ⟨fun herror => ?_, fun b hb => (nomatch hb)⟩
  cases herror
  exact h rfl

theorem Checked.bind {P : α → Prop} {Q : β → Prop}
    (hx : Checked P x) (hf : ∀ a, P a → Checked Q (f a)) : Checked Q (x >>= f) := by
  cases x with
  | error e =>
    apply Checked.error
    intro h
    exact hx.1 (congrArg Except.error h)
  | ok a => exact hf a (hx.2 a rfl)

/-- A loop whose body keeps an invariant, which can say what is left to do. -/
theorem Checked.foldlM {σ : Type} {f : σ → α → Res σ} (I : List α → σ → Prop)
    (hstep : ∀ x xs s, I (x :: xs) s → Checked (I xs) (f s x)) {xs : List α} {s : σ}
    (hs : I xs s) : Checked (I []) (xs.foldlM f s) := by
  induction xs generalizing s with
  | nil => exact .ok hs
  | cons x xs ih =>
    exact (hstep x xs s hs).bind fun s' hs' => ih hs'

end Res

/-! ## Checked arithmetic -/

/-- Addition of `w`-bit words in a build with overflow checks. -/
def addW (w a b : Nat) : Res Nat :=
  if a + b < 2 ^ w then .ok (a + b) else .error .overflow

/-- Subtraction of words in a build with overflow checks. -/
def subW (a b : Nat) : Res Nat :=
  if b ≤ a then .ok (a - b) else .error .overflow

/-- Multiplication of `w`-bit words in a build with overflow checks. -/
def mulW (w a b : Nat) : Res Nat :=
  if a * b < 2 ^ w then .ok (a * b) else .error .overflow

/-- Left shift of a `w`-bit word.  The amount is checked; the bits that
leave the word are dropped. -/
def shlW (w a k : Nat) : Res Nat :=
  if k < w then .ok (a * 2 ^ k % 2 ^ w) else .error .overflow

/-- Division, which faults on zero in every build. -/
def divW (a b : Nat) : Res Nat :=
  if b = 0 then .error .divideByZero else .ok (a / b)

/-- Remainder, which faults on zero in every build. -/
def modW (a b : Nat) : Res Nat :=
  if b = 0 then .error .divideByZero else .ok (a % b)

variable {w a b c : Nat}

theorem addW_ok (h : a + b < 2 ^ w) : addW w a b = .ok (a + b) :=
  if_pos h

theorem addW_eq_ok : addW w a b = .ok c ↔ a + b < 2 ^ w ∧ c = a + b := by
  unfold addW
  split <;> rename_i h <;> simp [h, eq_comm]

theorem subW_ok (h : b ≤ a) : subW a b = .ok (a - b) :=
  if_pos h

theorem mulW_ok (h : a * b < 2 ^ w) : mulW w a b = .ok (a * b) :=
  if_pos h

theorem mulW_eq_ok : mulW w a b = .ok c ↔ a * b < 2 ^ w ∧ c = a * b := by
  unfold mulW
  split <;> rename_i h <;> simp [h, eq_comm]

theorem divW_ok (h : 0 < b) : divW a b = .ok (a / b) :=
  if_neg (by omega)

theorem modW_ok (h : 0 < b) : modW a b = .ok (a % b) :=
  if_neg (by omega)

end Felix
