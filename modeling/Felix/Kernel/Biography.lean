import Felix.Kernel.Life
import Felix.Kernel.Process

/-!
# What happens to a process

A slot of the task table is used by one process after the other.  `Phase` says how far the
process in a slot has come, and `LifeEvent` is what happens to it: it is born, it ends with
a status, and it may be reported to its parent.  `Told` are the sequences of events that
make sense: a process ends once, a report comes right after the end that it is about and has
its status, and nothing but the birth of another process comes after that.

`Phase.Goes` is what may happen to a slot in a step, and `Phase.Goes.told` is that the
events then go on to make sense.
-/

namespace Felix.Kernel

/-- How far the process in a slot has come. -/
inductive Phase where
  /-- There is none. -/
  | absent
  | alive
  | ended (exitCode : Int) (termSignal : Nat)
  deriving DecidableEq, Repr

/-- The process that the task in a slot leads. -/
def Life.phase (l : Life) (s : Slot) : Phase :=
  match l s with
  | none => .absent
  | some v =>
    if v.leaderSlot ≠ some s then .absent
    else if v.zombie = true then .ended v.exitCode v.termSignal
    else .alive

inductive LifeEvent where
  | born
  | ended (exitCode : Int) (termSignal : Nat)
  /-- A wait of the parent has told it, with the status. -/
  | reported (status : Int)
  deriving DecidableEq, Repr

/-- The status that a report of the event has. -/
def LifeEvent.status : LifeEvent → Option Int
  | .ended exitCode termSignal => some (TaskManager.exitStatus exitCode termSignal)
  | _ => none

/-- The events of a slot make sense; the newest one comes first. -/
def Told : List LifeEvent → Prop
  | [] => True
  | .born :: es => es.head? ≠ some .born ∧ Told es
  | .ended _ _ :: es => es.head? = some .born ∧ Told es
  | .reported status :: es => es.head?.bind LifeEvent.status = some status ∧ Told es

instance decidableTold : (es : List LifeEvent) → Decidable (Told es)
  | [] => isTrue trivial
  | .born :: es =>
    have := decidableTold es
    inferInstanceAs (Decidable (es.head? ≠ some .born ∧ Told es))
  | .ended _ _ :: es =>
    have := decidableTold es
    inferInstanceAs (Decidable (es.head? = some .born ∧ Told es))
  | .reported status :: es =>
    have := decidableTold es
    inferInstanceAs (Decidable (es.head?.bind LifeEvent.status = some status ∧ Told es))

namespace Phase

/-- The event by which a process gets from one phase to another. -/
def news : Phase → Phase → List LifeEvent
  | .absent, .alive => [.born]
  | .ended _ _, .alive => [.born]
  | .alive, .ended exitCode termSignal => [.ended exitCode termSignal]
  | _, _ => []

/-- What may happen to a slot in a step.  A process that has ended may be reaped, and then
there may be another one. -/
inductive Goes : Phase → Phase → Prop where
  | same (p : Phase) : Goes p p
  | born : Goes .absent .alive
  | ends (exitCode : Int) (termSignal : Nat) : Goes .alive (.ended exitCode termSignal)
  | reaped (exitCode : Int) (termSignal : Nat) : Goes (.ended exitCode termSignal) .absent
  | reborn (exitCode : Int) (termSignal : Nat) : Goes (.ended exitCode termSignal) .alive

/-- The newest event has led to the phase. -/
def Fits : Phase → List LifeEvent → Prop
  | .absent, es => es.head? ≠ some .born
  | .alive, es => es.head? = some .born
  | .ended exitCode termSignal, es => es.head? = some (.ended exitCode termSignal)

variable {es : List LifeEvent}

theorem Goes.told {p p' : Phase} (h : Goes p p') (hfits : p.Fits es)
    (htold : Told es) : Told (news p p' ++ es) ∧ p'.Fits (news p p' ++ es) := by
  cases h with
  | same =>
    cases p with
    | absent => exact ⟨htold, hfits⟩
    | alive => exact ⟨htold, hfits⟩
    | ended => exact ⟨htold, hfits⟩
  | born => exact ⟨⟨hfits, htold⟩, rfl⟩
  | ends exitCode termSignal => exact ⟨⟨hfits, htold⟩, rfl⟩
  | reaped exitCode termSignal =>
    have hhead : es.head? = some (.ended exitCode termSignal) := hfits
    exact ⟨htold, fun hborn => (nomatch hhead.symm.trans hborn)⟩
  | reborn exitCode termSignal =>
    have hhead : es.head? = some (.ended exitCode termSignal) := hfits
    exact ⟨⟨fun hborn => (nomatch hhead.symm.trans hborn), htold⟩, rfl⟩

/-- Reaping comes first in a step, and endings come last. -/
theorem Goes.of_parts {p p₁ p' : Phase} (hreaps : p₁ = p ∨ p₁ = .absent ∧ ∃ c g, p = .ended c g)
    (hends : p' = p₁ ∨ p₁ = .alive ∧ ∃ c g, p' = .ended c g) : Goes p p' := by
  rcases hreaps with rfl | ⟨rfl, c, g, rfl⟩
  · rcases hends with rfl | ⟨rfl, c, g, rfl⟩
    · exact .same p'
    · exact .ends c g
  rcases hends with rfl | ⟨hfalse, -⟩
  · exact .reaped c g
  · cases hfalse

/-- A process is born in a slot that leads none, or only one that was reaped before. -/
theorem Goes.of_birth {p : Phase} (hreaps : Phase.absent = p ∨ ∃ c g, p = .ended c g) :
    Goes p .alive := by
  rcases hreaps with rfl | ⟨c, g, rfl⟩
  · exact .born
  · exact .reborn c g

/-- The end of a process is reported, and the process is reaped. -/
theorem told_report {exitCode : Int} {termSignal : Nat}
    (hfits : Fits (.ended exitCode termSignal) es) (htold : Told es) :
    Told (.reported (TaskManager.exitStatus exitCode termSignal) :: es) ∧
      Fits .absent (.reported (TaskManager.exitStatus exitCode termSignal) :: es) := by
  refine ⟨⟨?_, htold⟩, fun h => (nomatch h)⟩
  rw [hfits]
  rfl

end Phase

/-! ## The phases of a table -/

namespace Life

variable {l l' : Life} {s : Slot} {v : Vital}

theorem phase_of_alive (hv : l s = some v) (hlead : v.leaderSlot = some s)
    (hz : v.zombie = false) : l.phase s = .alive := by
  simp [phase, hv, hlead, hz]

theorem phase_of_zombie (hv : l s = some v) (hlead : v.leaderSlot = some s)
    (hz : v.zombie = true) : l.phase s = .ended v.exitCode v.termSignal := by
  simp [phase, hv, hlead, hz]

theorem phase_of_absent (h : ∀ v, l s = some v → v.leaderSlot ≠ some s) : l.phase s = .absent := by
  cases hv : l s with
  | none => simp [phase, hv]
  | some v => simp [phase, hv, h v hv]

theorem phase_of_free (h : l s = none) : l.phase s = .absent := by
  simp [phase, h]

/-- A slot leads no process, or one that is alive, or one that has ended. -/
theorem phase_cases (l : Life) (s : Slot) : (∀ v, l s = some v → v.leaderSlot ≠ some s) ∨
    ∃ v, l s = some v ∧ v.leaderSlot = some s := by
  by_cases h : ∃ v, l s = some v ∧ v.leaderSlot = some s
  · exact .inr h
  · exact .inl fun v hv hlead => h ⟨v, hv, hlead⟩

theorem exists_of_phase_alive (h : l.phase s = .alive) :
    ∃ v, l s = some v ∧ v.leaderSlot = some s ∧ v.zombie = false := by
  rcases l.phase_cases s with habsent | ⟨v, hv, hlead⟩
  · rw [phase_of_absent habsent] at h
    cases h
  refine ⟨v, hv, hlead, Bool.eq_false_of_not_eq_true fun hz => ?_⟩
  rw [phase_of_zombie hv hlead hz] at h
  cases h

/-- Endings do not reap, and what has ended stays as it is. -/
theorem Steps.phase (h : Steps False l l') (hl : l.Wf) (s : Slot) :
    l'.phase s = l.phase s ∨ l.phase s = .alive ∧ ∃ c g, l'.phase s = .ended c g := by
  rcases l.phase_cases s with habsent | ⟨v, hv, hlead⟩
  · left
    rw [phase_of_absent habsent]
    refine phase_of_absent fun v' hv' => ?_
    obtain ⟨v, hv, hages⟩ := h.was hl hv'
    rw [hages.leaderSlot]
    exact habsent v hv
  cases hz : v.zombie with
  | true =>
    left
    rw [phase_of_zombie hv hlead hz, phase_of_zombie (h.zombie hl hv hz) hlead hz]
  | false =>
    obtain ⟨v', hv', hages⟩ := h.stays hl hv
    have hlead' := hages.leaderSlot.trans hlead
    rw [phase_of_alive hv hlead hz]
    cases hz' : v'.zombie with
    | true => exact .inr ⟨rfl, _, _, phase_of_zombie hv' hlead' hz'⟩
    | false => exact .inl (phase_of_alive hv' hlead' hz')

/-- Only what has ended is reaped. -/
theorem Reaps.phase (h : Reaps l l') (hl : l.Wf) (s : Slot) :
    l'.phase s = l.phase s ∨ l'.phase s = .absent ∧ ∃ c g, l.phase s = .ended c g := by
  rcases l.phase_cases s with habsent | ⟨v, hv, hlead⟩
  · left
    rw [phase_of_absent habsent]
    exact phase_of_absent fun v' hv' => habsent v' (h.was hv')
  cases hz : v.zombie with
  | false =>
    left
    rw [phase_of_alive hv hlead hz, phase_of_alive (h.stays hl hv hlead hz) hlead hz]
  | true =>
    rw [phase_of_zombie hv hlead hz]
    cases hv' : l' s with
    | none => exact .inr ⟨phase_of_free hv', _, _, rfl⟩
    | some v' =>
      have hold := h.was hv'
      rw [hv] at hold
      cases hold
      exact .inl (phase_of_zombie hv' hlead hz)

/-- A birth brings a process to life, and nothing else happens to a process. -/
theorem Act.phase {R : Slot → Int → Int → Prop} (h : Act R l l') (s : Slot) :
    l'.phase s = l.phase s ∨ l s = none ∧ l'.phase s = .alive ∧ ∃ pgid sid, R s pgid sid := by
  cases h with
  | nothing => exact .inl rfl
  | @spawn x pid pgid sid hfree hpid hR =>
    by_cases hs : s = x
    · subst hs
      exact .inr ⟨hfree, phase_of_alive (Function.update_self ..) rfl rfl, pgid, sid, hR⟩
    · left
      simp [Life.phase, hs]
  | @thread x p w hfree hp hw hlead hz =>
    left
    by_cases hs : s = x
    · subst hs
      have hne : some p ≠ some s := by
        rintro hps
        cases hps
        rw [hfree] at hw
        cases hw
      simp [Life.phase, hfree, Vital.sibling, hne]
    · simp [Life.phase, hs]
  | @regroup x v pgid sid hv hR =>
    left
    by_cases hs : s = x
    · subst hs
      simp [Life.phase, change, hv, Vital.regroup]
    · simp [Life.phase, change, hs]

end Life

end Felix.Kernel
