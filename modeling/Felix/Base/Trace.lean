import Felix.Base.Fault

/-!
# Computations that leave a trace

A computation that can fault and that records events on its way.  The events
that were recorded before a fault are kept, so that a property of the trace is a
property of all that the computation did.

`Good P x` says that `x` comes to its end and that all its events satisfy `P`.
`Exact C P Q x` says that this is so exactly if `C` holds, and that `Q` holds of
the result then.  `exact_bind` is the rule for a sequence and `exact_foldlM` the
rule for a loop.
-/

namespace Felix

/-- A computation with events of type `ε`. -/
structure Traced (ε α : Type) where
  log : List ε
  res : Res α

namespace Traced

variable {ε α β : Type} {x : Traced ε α} {f : α → Traced ε β}

/-- A computation without events. -/
def lift (x : Res α) : Traced ε α := ⟨[], x⟩

/-- Record one event. -/
def emit (e : ε) : Traced ε Unit := ⟨[e], .ok ()⟩

def bind (x : Traced ε α) (f : α → Traced ε β) : Traced ε β :=
  match x.res with
  | .error e => ⟨x.log, .error e⟩
  | .ok a => ⟨x.log ++ (f a).log, (f a).res⟩

instance : Monad (Traced ε) where
  pure a := lift (.ok a)
  bind := bind

instance : LawfulMonad (Traced ε) :=
  LawfulMonad.mk' (Traced ε)
    (fun x => by
      show bind x _ = x
      rcases x with ⟨log, _ | a⟩
      · rfl
      · show Traced.mk (log ++ []) (.ok a) = ⟨log, .ok a⟩
        rw [List.append_nil])
    (fun _ _ => rfl)
    (fun x f g => by
      show bind (bind x f) g = bind x fun a => bind (f a) g
      unfold bind
      cases hx : x.res with
      | error e => rfl
      | ok a =>
        dsimp only
        cases hf : (f a).res with
        | error e => rfl
        | ok b => simp only [List.append_assoc])

/-- The computation comes to its end, and its events are as they should be. -/
def Good (P : ε → Prop) (x : Traced ε α) : Prop := (∀ e ∈ x.log, P e) ∧ ∃ a, x.res = .ok a

variable {P : ε → Prop} {e : ε}

theorem good_pure (a : α) : Good P (pure a : Traced ε α) :=
  ⟨fun _ he => absurd he List.not_mem_nil, a, rfl⟩

theorem good_lift {x : Res α} : Good P (lift x : Traced ε α) ↔ ∃ a, x = .ok a :=
  and_iff_right fun _ he => absurd he List.not_mem_nil

theorem good_emit : Good P (emit e) ↔ P e := by
  constructor
  · intro h
    exact h.1 e (List.mem_singleton_self e)
  · intro h
    exact ⟨fun e' he' => List.mem_singleton.1 he' ▸ h, (), rfl⟩

/-- A sequence succeeds when its first part does and the rest succeeds from
there. -/
theorem bind_res {b : β} : (x >>= f).res = .ok b ↔ ∃ a, x.res = .ok a ∧ (f a).res = .ok b := by
  show (bind x f).res = .ok b ↔ _
  unfold bind
  cases hx : x.res with
  | error e =>
    constructor
    · intro h
      cases h
    · rintro ⟨a, ha, _⟩
      cases ha
  | ok a =>
    constructor
    · intro h
      exact ⟨a, rfl, h⟩
    · rintro ⟨a', ha, hb⟩
      cases ha
      exact hb

/-- A sequence is good when its first part is and the rest is from there. -/
theorem good_bind : Good P (x >>= f) ↔ Good P x ∧ ∀ a, x.res = .ok a → Good P (f a) := by
  show Good P (bind x f) ↔ _
  unfold bind
  cases hx : x.res with
  | error e =>
    constructor
    · rintro ⟨_, a, ha⟩
      cases ha
    · rintro ⟨⟨_, a, ha⟩, _⟩
      rw [hx] at ha
      cases ha
  | ok a =>
    unfold Good
    simp only [hx, List.mem_append, Except.ok.injEq, forall_eq']
    constructor
    · rintro ⟨hlog, hres⟩
      exact ⟨⟨fun e he => hlog e (.inl he), a, rfl⟩, fun e he => hlog e (.inr he), hres⟩
    · rintro ⟨⟨hlog, _⟩, hlog', hres⟩
      exact ⟨fun e he => he.elim (hlog e) (hlog' e), hres⟩

theorem not_good_error_bind {e : Fault} : ¬ Good P ((lift (.error e) : Traced ε α) >>= f) := by
  rw [good_bind, good_lift]
  simp

/-! ## Exact conditions -/

/-- `x` is good exactly if `C` holds, and then `Q` holds of its result. -/
def Exact (C : Prop) (P : ε → Prop) (Q : α → Prop) (x : Traced ε α) : Prop :=
  (Good P x ↔ C) ∧ (C → ∀ a, x.res = .ok a → Q a)

variable {C D : Prop} {Q : α → Prop} {R : β → Prop} {a : α}

theorem Exact.iff (h : Exact C P Q x) (hCD : C ↔ D) : Exact D P Q x :=
  ⟨h.1.trans hCD, fun hD => h.2 (hCD.2 hD)⟩

theorem exact_pure (h : Q a) : Exact True P Q (pure a : Traced ε α) := by
  refine ⟨iff_of_true (good_pure a) trivial, fun _ a' ha' => ?_⟩
  cases ha'
  exact h

theorem exact_not (h : ¬ Good P x) (hC : ¬ C) : Exact C P Q x :=
  ⟨iff_of_false h hC, fun hC' => absurd hC' hC⟩

theorem exact_emit : Exact (P e) P (fun _ => True) (emit e) :=
  ⟨good_emit, fun _ _ _ => trivial⟩

theorem exact_bind (hx : Exact C P Q x)
    (hf : C → ∀ a, Q a → Exact D P R (f a)) : Exact (C ∧ D) P R (x >>= f) := by
  by_cases hC : C
  · obtain ⟨hlog, a, ha⟩ := hx.1.2 hC
    have hfa := hf hC a (hx.2 hC a ha)
    refine ⟨?_, fun hCD b hb => ?_⟩
    · rw [good_bind, hx.1]
      refine and_congr_right fun _ => ?_
      rw [ha]
      simpa only [Except.ok.injEq, forall_eq'] using hfa.1
    · obtain ⟨a', ha', hb'⟩ := bind_res.1 hb
      rw [ha] at ha'
      cases ha'
      exact hfa.2 hCD.2 b hb'
  · refine exact_not (fun hgood => hC ?_) fun hCD => hC hCD.1
    exact hx.1.1 (good_bind.1 hgood).1

/-- A sequence of computations that are always good. -/
theorem exact_bind_true (hx : Exact True P Q x)
    (hf : ∀ a, Q a → Exact True P R (f a)) : Exact True P R (x >>= f) :=
  (exact_bind hx fun _ => hf).iff (and_self_iff)

theorem exact_lift_bind (h : Exact C P R (f a)) :
    Exact C P R ((lift (.ok a) : Traced ε α) >>= f) :=
  h

theorem exact_lift {x : Res α} (h : (∃ a, x = .ok a) ↔ C) (hQ : C → ∀ a, x = .ok a → Q a) :
    Exact C P Q (lift x : Traced ε α) :=
  ⟨good_lift.trans h, hQ⟩

/-- A loop over a list whose body is always good and keeps `I`. -/
theorem exact_foldlM {σ : Type} {I : σ → Prop} {f : σ → α → Traced ε σ} {xs : List α}
    (hstep : ∀ x ∈ xs, ∀ s, I s → Exact True P I (f s x)) {s : σ} (hs : I s) :
    Exact True P I (xs.foldlM f s) := by
  induction xs generalizing s with
  | nil => exact exact_pure hs
  | cons x xs ih =>
    refine (exact_bind (hstep x List.mem_cons_self s hs) fun _ s' hs' => ?_).iff (and_self_iff)
    exact ih (fun y hy => hstep y (List.mem_cons_of_mem x hy)) hs'

theorem exact_addW {w a b : Nat} : Exact (a + b < 2 ^ w) P (fun c => c = a + b)
    (lift (addW w a b) : Traced ε Nat) :=
  exact_lift ⟨fun ⟨_, hc⟩ => (addW_eq_ok.1 hc).1, fun hlt => ⟨_, addW_ok hlt⟩⟩
    fun _ _ hc => (addW_eq_ok.1 hc).2

end Traced

end Felix
