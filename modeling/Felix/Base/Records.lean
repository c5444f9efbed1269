import Felix.Base.Bytes

/-!
# Records that carry their own length

A block of such records is read by a loop that starts at offset zero, decodes
a header, and goes on behind the length that the header gives.  `Buf.walk` is
that loop with its body left open: the body sees the state of the loop, the
offset and the header, and says whether to stop or to go on.

Two rules cover its uses.  `walk_inv` is for a buffer of arbitrary bytes: the
loop ends and keeps an invariant of its state, as long as the body goes on only
behind a record of positive length (`walk_keeps` is for a loop that is known to
end).  `Chain.walk_eq` is for a buffer whose
records form a `Chain` that ends exactly at the limit: there the loop is
`walkList`, a recursion over the list of the records, and `walkList_find` is
its use as a search.
-/

namespace Felix

open Bytes Res

/-- What the body of a walk decides. -/
inductive Step (σ : Type) where
  | stop (s : σ)
  | next (s : σ)

variable {α σ : Type} [Packed α] (len : α → Nat)

/-- The header at an offset. -/
def headerAt (α : Type) [Packed α] (f : Bytes) (off : Nat) : α :=
  Packed.decode (shift off f)

/-- `while offset + size <= limit { .. }`.  The first number bounds the rounds. -/
def Buf.walk (limit : Nat) (b : Buf) (body : σ → Nat → α → Res (Step σ)) :
    Nat → Nat → σ → Res σ
  | 0, off, s => if off + Packed.size α ≤ limit then .error .diverged else .ok s
  | fuel + 1, off, s =>
    if off + Packed.size α ≤ limit then do
      let e ← b.load α off
      match ← body s off e with
      | .stop s => .ok s
      | .next s => Buf.walk limit b body fuel (off + len e) s
    else .ok s

namespace Buf

variable {len} {limit : Nat} {b : Buf} {body : σ → Nat → α → Res (Step σ)}

variable {fuel off : Nat} (I : σ → Prop) {s : σ}

theorem walk_end (h : ¬ off + Packed.size α ≤ limit) :
    walk len limit b body fuel off s = .ok s := by
  cases fuel <;> rw [walk, if_neg h]

theorem walk_step (hlen : limit ≤ b.len) (h : off + Packed.size α ≤ limit) :
    walk len limit b body (fuel + 1) off s =
      (body s off (headerAt α b.byte off) >>= fun step =>
        match step with
        | .stop s => .ok s
        | .next s => walk len limit b body fuel (off + len (headerAt α b.byte off)) s) := by
  rw [walk, if_pos h, load_ok (by omega)]
  rfl

/-! ## Arbitrary bytes -/

/-- The loop ends and keeps an invariant of its state, when the body does not
stop the kernel, keeps the invariant, and goes on only behind a record of
positive length. -/
theorem walk_inv (hsize : 0 < Packed.size α) (hlen : limit ≤ b.len)
    (hbody : ∀ s off, I s → off + Packed.size α ≤ limit →
      (∃ s', body s off (headerAt α b.byte off) = .ok (.stop s') ∧ I s') ∨
      ∃ s', body s off (headerAt α b.byte off) = .ok (.next s') ∧ I s' ∧
        0 < len (headerAt α b.byte off)) (hfuel : limit ≤ off + fuel) (hs : I s) :
    ∃ s', walk len limit b body fuel off s = .ok s' ∧ I s' := by
  induction fuel generalizing off s with
  | zero => exact ⟨s, walk_end (by omega), hs⟩
  | succ fuel ih =>
    by_cases hin : off + Packed.size α ≤ limit
    swap
    · exact ⟨s, walk_end hin, hs⟩
    rw [walk_step hlen hin]
    rcases hbody s off hs hin with ⟨s', hstop, hs'⟩ | ⟨s', hnext, hs', hpos⟩
    · rw [hstop]
      exact ⟨s', rfl, hs'⟩
    · rw [hnext]
      exact ih (by omega) hs'

/-- A loop that ends has kept what every round of its body keeps. -/
theorem walk_keeps (hstop : ∀ s off e s', I s → body s off e = .ok (.stop s') → I s')
    (hnext : ∀ s off e s', I s → body s off e = .ok (.next s') → I s') {s' : σ} (hs : I s)
    (hrun : walk len limit b body fuel off s = .ok s') : I s' := by
  induction fuel generalizing off s with
  | zero =>
    rw [walk] at hrun
    split at hrun
    · cases hrun
    · cases hrun
      exact hs
  | succ fuel ih =>
    rw [walk] at hrun
    split at hrun
    · obtain ⟨e, _, hrun⟩ := bind_eq_ok.1 hrun
      obtain ⟨step, hbody, hrun⟩ := bind_eq_ok.1 hrun
      cases step with
      | stop t =>
        cases hrun
        exact hstop s off e _ hs hbody
      | next t => exact ih (hnext s off e t hs hbody) hrun
    · cases hrun
      exact hs

end Buf

/-! ## Chains -/

/-- The records from an offset on, each where the one before ends, up to the
limit. -/
inductive Chain (limit : Nat) (f : Bytes) : Nat → List (Nat × α) → Prop
  | done : Chain limit f limit []
  | cons {off : Nat} {rest : List (Nat × α)}
      (hlen : Packed.size α ≤ len (headerAt α f off))
      (hend : off + len (headerAt α f off) ≤ limit)
      (htail : Chain limit f (off + len (headerAt α f off)) rest) :
      Chain limit f off ((off, headerAt α f off) :: rest)

/-- The loop over a list of records. -/
def walkList (body : σ → Nat → α → Res (Step σ)) : List (Nat × α) → σ → Res σ
  | [], s => .ok s
  | (off, e) :: rest, s => do
    match ← body s off e with
    | .stop s => .ok s
    | .next s => walkList body rest s

omit [Packed α] in
/-- A loop that looks for the first record with a property. -/
theorem walkList_find {τ : Type} {body : Option τ → Nat → α → Res (Step (Option τ))}
    {recs : List (Nat × α)} (p : Nat × α → Bool) (g : Nat × α → τ)
    (h : ∀ r ∈ recs, body none r.1 r.2 = .ok (if p r then .stop (some (g r)) else .next none)) :
    walkList body recs none = .ok ((recs.find? p).map g) := by
  induction recs with
  | nil => rfl
  | cons r recs ih =>
    rw [walkList, h r List.mem_cons_self, List.find?_cons]
    cases p r with
    | true => rfl
    | false => exact ih fun r' hr' => h r' (List.mem_cons_of_mem _ hr')

namespace Chain

variable {len} {limit : Nat} {f g : Bytes} {off : Nat} {recs : List (Nat × α)}

section

variable (h : Chain len limit f off recs)
include h

theorem mem {r : Nat × α} (hr : r ∈ recs) :
    r.2 = headerAt α f r.1 ∧ off ≤ r.1 ∧ Packed.size α ≤ len r.2 ∧
      r.1 + len r.2 ≤ limit := by
  induction h with
  | done => cases hr
  | @cons off rest hlen hend _ ih =>
    rcases List.mem_cons.1 hr with rfl | hr
    · exact ⟨rfl, Nat.le_refl _, hlen, hend⟩
    · obtain ⟨heq, hlo, hl, hhi⟩ := ih hr
      exact ⟨heq, by omega, hl, hhi⟩

theorem rewrite (hlen : ∀ r ∈ recs, len (headerAt α g r.1) = len r.2) :
    Chain len limit g off (recs.map fun r => (r.1, headerAt α g r.1)) := by
  induction h with
  | done => exact .done
  | @cons off rest hrec hend _ ih =>
    have hhead : len (headerAt α g off) = len (headerAt α f off) :=
      hlen (off, headerAt α f off) List.mem_cons_self
    have htail := ih fun r hr => hlen r (List.mem_cons_of_mem _ hr)
    rw [← hhead] at hrec hend htail
    exact .cons hrec hend htail

theorem pairwise : recs.Pairwise fun r r' => r.1 + len r.2 ≤ r'.1 := by
  induction h with
  | done => exact .nil
  | cons hlen hend htail ih => exact .cons (fun r' hr' => (htail.mem hr').2.1) ih

theorem apart {r r' : Nat × α} (hr : r ∈ recs) (hr' : r' ∈ recs) :
    r.1 = r'.1 ∨ r.1 + len r.2 ≤ r'.1 ∨ r'.1 + len r'.2 ≤ r.1 := by
  refine List.Pairwise.forall_of_forall_of_flip (R := fun r r' : Nat × α =>
    r.1 = r'.1 ∨ r.1 + len r.2 ≤ r'.1 ∨ r'.1 + len r'.2 ≤ r.1) (fun _ _ => .inl rfl) ?_ ?_ hr hr'
  · exact h.pairwise.imp fun hle => .inr (.inl hle)
  · exact h.pairwise.imp fun hle => .inr (.inr hle)

end

theorem walk_eq {b : Buf} {body : σ → Nat → α → Res (Step σ)} (hsize : 0 < Packed.size α)
    (hlen : limit ≤ b.len) (h : Chain len limit b.byte off recs) {fuel : Nat} {s : σ}
    (hfuel : limit ≤ off + fuel) : b.walk len limit body fuel off s = walkList body recs s := by
  generalize hf : b.byte = f at h
  induction h generalizing fuel s with
  | done => rw [Buf.walk_end (by omega), walkList]
  | @cons off rest hrec hend htail ih =>
    cases fuel with
    | zero =>
      omega
    | succ fuel =>
      rw [Buf.walk_step hlen (by omega), hf]
      congr 1
      funext step
      cases step with
      | stop s => rfl
      | next s => exact ih (by omega)

end Chain

end Felix
