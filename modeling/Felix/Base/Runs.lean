import Felix.Base.Fault

/-!
# Runs of operations

A run is a list of operations, each of which returns a result and a new state
or stops.  `Every` says that a property holds at each step of a run, where the
property is about an operation and the state before it.  `EverySteps` is the
same for operations that are total functions, and `AlwaysSteps` says that a
property of states holds in every state of the run, the last one included.

There are seven rules.  `every_of_inv`: a property that follows from an invariant
of the allowed operations holds along their runs, and `everySteps_of_inv` is the same
for total operations, all of them allowed.  `every_congr`: two properties
that agree in every state of an invariant, for the operations that are allowed
there, hold along the same runs, and `everySteps_congr` is the same for total
operations.  `every_congr_of`: so do two properties that agree
under an invariant that they keep themselves.  `every_refines`: when the operations
do to an abstraction of the state what a total function does, a property of the
abstraction can be checked on runs of the function.  `alwaysSteps_iff`: a property
that an invariant implies, and that fails after each step that breaks the
invariant, holds always exactly if no step breaks it.
-/

namespace Felix

variable {σ τ ο ρ : Type} {run : ο → σ → Res (ρ × σ)} {step : ο → τ → ρ × τ}
  {ops : List ο} {s : σ} {t : τ}
  {A P Q : ο → σ → Prop} (I : σ → Prop)

/-- Every step of the run has the property. -/
def Every (run : ο → σ → Res (ρ × σ)) (P : ο → σ → Prop) : List ο → σ → Prop
  | [], _ => True
  | op :: ops, s => P op s ∧ ∀ r s', run op s = .ok (r, s') → Every run P ops s'

/-- Every step of the run of total operations has the property. -/
def EverySteps (step : ο → τ → ρ × τ) (P : ο → τ → Prop) : List ο → τ → Prop
  | [], _ => True
  | op :: ops, t => P op t ∧ EverySteps step P ops (step op t).2

/-- Every state of the run of total operations has the property. -/
def AlwaysSteps (step : ο → τ → ρ × τ) (P : τ → Prop) : List ο → τ → Prop
  | [], t => P t
  | op :: ops, t => P t ∧ AlwaysSteps step P ops (step op t).2

instance decidableEverySteps (P : ο → τ → Prop) [∀ op t, Decidable (P op t)] :
    (ops : List ο) → (t : τ) → Decidable (EverySteps step P ops t)
  | [], _ => isTrue trivial
  | op :: ops, t =>
    have := decidableEverySteps P ops (step op t).2
    inferInstanceAs (Decidable (P op t ∧ EverySteps step P ops (step op t).2))

instance decidableEvery (P : ο → σ → Prop) [∀ op s, Decidable (P op s)] :
    (ops : List ο) → (s : σ) → Decidable (Every run P ops s)
  | [], _ => isTrue trivial
  | op :: ops, s =>
    have : Decidable (∀ r s', run op s = .ok (r, s') → Every run P ops s') :=
      match h : run op s with
      | .error _ => isTrue fun _ _ hrun => (nomatch hrun)
      | .ok (_, s') =>
        have := decidableEvery P ops s'
        decidable_of_iff (Every run P ops s') ⟨fun hs _ _ hrun => by cases hrun; exact hs,
          fun hall => hall _ s' rfl⟩
    inferInstanceAs (Decidable (P op s ∧ ∀ r s', run op s = .ok (r, s') → Every run P ops s'))

theorem every_of_forall {R : ο → Prop} (h : ∀ op ∈ ops, R op) :
    Every run (fun op _ => R op) ops s := by
  induction ops generalizing s with
  | nil => trivial
  | cons op ops ih =>
    obtain ⟨hop, hrest⟩ := List.forall_mem_cons.1 h
    exact ⟨hop, fun _ _ _ => ih hrest⟩

/-- Two properties that agree under an invariant of the allowed operations. -/
theorem every_congr (hkeep : ∀ op s r s', I s → A op s → run op s = .ok (r, s') → I s')
    (hagree : ∀ op s, I s → A op s → (P op s ↔ Q op s)) (hs : I s)
    (hallowed : Every run A ops s) : Every run P ops s ↔ Every run Q ops s := by
  induction ops generalizing s with
  | nil => exact Iff.rfl
  | cons op ops ih =>
    obtain ⟨hfirst, hrest⟩ := hallowed
    have htail : ∀ r s', run op s = .ok (r, s') →
        (Every run P ops s' ↔ Every run Q ops s') := fun r s' hrun =>
      ih (hkeep op s r s' hs hfirst hrun) (hrest r s' hrun)
    refine and_congr (hagree op s hs hfirst) ?_
    exact forall₃_congr fun r s' hrun =>
      htail r s' hrun

/-- Two properties that agree under an invariant, which is kept as long as they hold. -/
theorem every_congr_of (hkeep : ∀ op s r s', I s → P op s → run op s = .ok (r, s') → I s')
    (hagree : ∀ op s, I s → (P op s ↔ Q op s)) (hs : I s) :
    Every run P ops s ↔ Every run Q ops s := by
  induction ops generalizing s with
  | nil => exact Iff.rfl
  | cons op ops ih =>
    rw [Every, Every, ← hagree op s hs]
    exact and_congr_right fun hop => forall₃_congr fun r s' hrun =>
      ih (hkeep op s r s' hs hop hrun)

/-- A property that holds of the allowed operations in every state of an invariant
that they keep. -/
theorem every_of_inv (hkeep : ∀ op s r s', I s → A op s → run op s = .ok (r, s') → I s')
    (hholds : ∀ op s, I s → A op s → P op s) (hs : I s)
    (hallowed : Every run A ops s) : Every run P ops s :=
  (every_congr I hkeep (fun op s hs hop => iff_of_true (hholds op s hs hop) hop) hs hallowed).2
    hallowed

/-- A property of the steps that holds in every state of an invariant, and so of the states. -/
theorem everySteps_of_inv {S : ο → τ → Prop} {P : τ → Prop} (I : τ → Prop)
    (hkeep : ∀ op t, I t → I (step op t).2) (hsteps : ∀ op t, I t → S op t)
    (hstates : ∀ t, I t → P t) (ops : List ο) (ht : I t) :
    EverySteps step S ops t ∧ AlwaysSteps step P ops t := by
  induction ops generalizing t with
  | nil => exact ⟨trivial, hstates t ht⟩
  | cons op ops ih =>
    obtain ⟨hrest, hstays⟩ := ih (hkeep op t ht)
    exact ⟨⟨hsteps op t ht, hrest⟩, hstates t ht, hstays⟩

/-- Two properties of the steps that agree in every state of an invariant. -/
theorem everySteps_congr {S T : ο → τ → Prop} (I : τ → Prop)
    (hkeep : ∀ op t, I t → S op t → I (step op t).2) (hagree : ∀ op t, I t → (S op t ↔ T op t))
    (ht : I t) : EverySteps step S ops t ↔ EverySteps step T ops t := by
  induction ops generalizing t with
  | nil => exact Iff.rfl
  | cons op ops ih =>
    rw [EverySteps, EverySteps, ← hagree op t ht]
    exact and_congr_right fun hop => ih (hkeep op t ht hop)

theorem AlwaysSteps.head {P : τ → Prop} (h : AlwaysSteps step P ops t) : P t := by
  cases ops with
  | nil => exact h
  | cons op ops => exact h.1

/-- A property that holds in the states of an invariant, and that a step keeps exactly
if the step keeps the invariant. -/
theorem alwaysSteps_iff {P : τ → Prop} {C : ο → τ → Prop} (I : τ → Prop)
    (hholds : ∀ t, I t → P t) (hbreak : ∀ op t, I t → P (step op t).2 → C op t)
    (hkeep : ∀ op t, I t → C op t → I (step op t).2) (ht : I t) :
    AlwaysSteps step P ops t ↔ EverySteps step C ops t := by
  induction ops generalizing t with
  | nil => exact iff_of_true (hholds t ht) trivial
  | cons op ops ih =>
    constructor
    · rintro ⟨-, hrest⟩
      have hop := hbreak op t ht hrest.head
      exact ⟨hop, (ih (hkeep op t ht hop)).1 hrest⟩
    · rintro ⟨hop, hrest⟩
      exact ⟨hholds t ht, (ih (hkeep op t ht hop)).2 hrest⟩

/-- Operations that refine total functions on an abstraction of the state. -/
theorem every_refines (α : σ → τ) (I : σ → Prop) (R : ο → Prop)
    (hsim : ∀ op s, I s → R op → ∃ s', run op s = .ok ((step op (α s)).1, s') ∧ I s' ∧
      α s' = (step op (α s)).2)
    (p : ο → τ → Prop) (hs : I s) (hops : ∀ op ∈ ops, R op) :
    Every run (fun op s => p op (α s)) ops s ↔ EverySteps step p ops (α s) := by
  induction ops generalizing s with
  | nil => exact Iff.rfl
  | cons op ops ih =>
    obtain ⟨hop, hrest⟩ := List.forall_mem_cons.1 hops
    obtain ⟨s', hrun, hs', hα⟩ := hsim op s hs hop
    rw [EverySteps, ← hα, ← ih hs' hrest]
    refine and_congr Iff.rfl ⟨fun hall => hall _ s' hrun, fun htail r s₁ hrun₁ => ?_⟩
    rw [hrun] at hrun₁
    cases hrun₁
    exact htail

end Felix
