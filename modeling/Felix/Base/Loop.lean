import Felix.Base.Trace

/-!
# Loops with a stride

`while x < stop { body(x); x += stride; }`, where the addition is checked.  The
loop is the same in every monad that faults can be lifted to.  Between multiples
of the stride it is a fold over a range, so that a proof about such a loop is an
induction over a list.
-/

namespace Felix

variable {M : Type → Type} [Monad M] {σ : Type}

/-- `while x < stop { body(x); x += stride; }` on 32-bit words. -/
def strideLoop (lift : {α : Type} → Res α → M α) (stride : Nat) (body : σ → Nat → M σ) :
    Nat → Nat → Nat → σ → M σ
  | 0, _, _, _ => lift (.error .diverged)
  | fuel + 1, x, stop, s =>
    if x < stop then do
      let s ← body s x
      let x ← lift (addW 32 x stride)
      strideLoop lift stride body fuel x stop s
    else pure s

theorem strideLoop_eq {lift : {α : Type} → Res α → M α}
    (hlift : ∀ {α β : Type} (a : α) (f : α → M β), (lift (.ok a) >>= f) = f a)
    {stride : Nat} (hstride : 0 < stride) (body : σ → Nat → M σ) {stop : Nat}
    (hstop : stride * stop < 2 ^ 32) :
    ∀ {fuel start : Nat}, stop - start < fuel → ∀ s,
      strideLoop lift stride body fuel (stride * start) (stride * stop) s
        = (List.range' start (stop - start)).foldlM (fun s x => body s (stride * x)) s := by
  intro fuel
  induction fuel with
  | zero =>
    intro start hfuel
    omega
  | succ fuel ih =>
    intro start hfuel s
    unfold strideLoop
    by_cases hlt : start < stop
    · have hnext : stride * start + stride = stride * (start + 1) := (Nat.mul_succ _ _).symm
      have hle : stride * (start + 1) ≤ stride * stop := Nat.mul_le_mul_left stride hlt
      have hstep : ∀ s, (do
            let x ← lift (addW 32 (stride * start) stride)
            strideLoop lift stride body fuel x (stride * stop) s)
          = (List.range' (start + 1) (stop - (start + 1))).foldlM
              (fun s x => body s (stride * x)) s := by
        intro s
        rw [addW_ok (by omega), hlift, hnext]
        exact ih (by omega) s
      rw [if_pos (Nat.mul_lt_mul_of_pos_left hlt hstride), funext hstep,
        show stop - start = (stop - (start + 1)) + 1 by omega, List.range'_succ,
        List.foldlM_cons]
    · rw [if_neg fun h => hlt (Nat.lt_of_mul_lt_mul_left h), show stop - start = 0 by omega]
      rfl

end Felix
