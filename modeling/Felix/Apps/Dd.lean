import Mathlib.Algebra.GroupWithZero.Nat
import Mathlib.Order.Lattice.Nat

/-!
# `dd`

The copy loop of `dd` and its skip.  Reads of the source are full until its end, as those of a file
on disk are; the output may take any part of a buffer.  The loop counts its own reads, of `chunk`
bytes each, as the blocks of `count=`.  The arguments are those after parsing, and the lines that
are printed are left out.  User programs are release builds, so `blocks += 1` wraps.
-/

namespace Felix.Dd

open List

/-- `bs=`, `count=` and `skip=`, 32-bit words. -/
structure Args where
  bs : Nat
  count : Option Nat
  skip : Nat
  bs_pos : 0 < bs
  bs_lt : bs < 2 ^ 32
  count_lt : ∀ c ∈ count, c < 2 ^ 32
  skip_lt : skip < 2 ^ 32

/-- How much is read at once: the block size, clamped. -/
def Args.chunk (args : Args) : Nat := max 512 (min args.bs (64 * 1024))

def Args.start (args : Args) : Nat := args.skip * args.bs

/-- What is left of the source after reads of `left` bytes. -/
def discard (src : List UInt8) (left chunk : Nat) : List UInt8 :=
  if left = 0 then src
  else
    let got := (src.take (min chunk left)).length
    if got = 0 then src else discard (src.drop got) (left - got) chunk
termination_by left
decreasing_by omega

section Loops

-- How many bytes of a buffer the output takes after those it has.
variable (write : List UInt8 → List UInt8 → Option Nat)

/-- The inner loop.  An error and an empty write end the program. -/
def writeAll (out buf : List UInt8) : Except (List UInt8) (List UInt8) :=
  if buf = [] then .ok out
  else match write out buf with
    | some (w + 1) => writeAll (out ++ buf.take (w + 1)) (buf.drop (w + 1))
    | _ => .error out
termination_by buf.length
decreasing_by
  rename_i hbuf
  have := length_pos_iff.2 hbuf
  rw [length_drop]
  omega

/-- The outer loop: the exit code and what was written. -/
def copy (count : Option Nat) (chunk : Nat) (src out : List UInt8) (blocks : Nat) :
    Nat × List UInt8 :=
  if ∀ max ∈ count, blocks < max then
    if (src.take chunk).length = 0 then (0, out)
    else match writeAll write out (src.take chunk) with
      | .ok out => copy count chunk (src.drop chunk) out ((blocks + 1) % 2 ^ 32)
      | .error out => (1, out)
  else (0, out)
termination_by src.length
decreasing_by
  rename_i hread
  rw [length_take] at hread
  rw [length_drop]
  omega

/-- `main`, once both files are open. -/
def main (args : Args) (src : List UInt8) : Nat × List UInt8 :=
  let src := if 0 < args.skip then discard src (min args.start (2 ^ 32 - 1)) args.chunk else src
  copy write args.count args.chunk src [] 0

end Loops

/-! ## What the loops do -/

/-- An output that takes a part of every buffer it is offered. -/
structure Output where
  write : List UInt8 → List UInt8 → Option Nat
  takes : ∀ out buf, buf ≠ [] → ∃ w, write out buf = some (w + 1)

variable (args : Args) (output : Output) {chunk size : Nat} {count : Option Nat}
  (src : List UInt8)

theorem chunk_pos : 0 < args.chunk := by
  unfold Args.chunk
  omega

theorem discard_eq (hchunk : 0 < chunk) (left : Nat) : discard src left chunk = src.drop left := by
  induction left using Nat.strong_induction_on generalizing src with
  | _ left ih =>
    rw [discard]
    have hgot := length_take (i := min chunk left) (l := src)
    dsimp only
    by_cases hleft : left = 0
    · rw [if_pos hleft, hleft, drop_zero]
    rw [if_neg hleft]
    split
    · have hsrc : src = [] := eq_nil_of_length_eq_zero (by omega)
      rw [hsrc, drop_nil]
    · rw [ih _ (by omega), drop_drop, Nat.add_sub_cancel' (by omega)]

theorem writeAll_eq (out buf : List UInt8) : writeAll output.write out buf = .ok (out ++ buf) := by
  fun_induction writeAll output.write out buf with
  | case1 out => rw [append_nil]
  | case2 out buf _ w _ ih => rw [ih, append_assoc, take_append_drop]
  | case3 out buf hbuf hstop =>
    obtain ⟨w, hw⟩ := output.takes out buf hbuf
    exact absurd hw (hstop w)

/-- What `count` blocks take from a source after the first ones. -/
def taken (count : Option Nat) (block blocks : Nat) (src : List UInt8) : List UInt8 :=
  count.elim src fun c => src.take ((c - blocks) * block)

theorem copy_eq (hchunk : 0 < chunk) (hcount : ∀ c ∈ count, c < 2 ^ 32) (out : List UInt8)
    {blocks : Nat} :
    copy output.write count chunk src out blocks = (0, out ++ taken count chunk blocks src) := by
  induction hlen : src.length using Nat.strong_induction_on generalizing src out blocks with
  | _ len ih =>
    rw [copy]
    split_ifs with hlt hread
    · have hsrc : src = [] := by
        rw [length_take] at hread
        exact eq_nil_of_length_eq_zero (by omega)
      cases count <;> simp [hsrc, taken]
    · rw [length_take] at hread
      simp only [writeAll_eq]
      rw [ih _ (by rw [length_drop]; omega) _ _ rfl, append_assoc]
      cases count with
      | none => simp only [taken, Option.elim, take_append_drop]
      | some c =>
        have hnext := hlt c rfl
        have hbound := hcount c rfl
        have hc : (c - blocks) * chunk = chunk + (c - (blocks + 1)) * chunk := by
          rw [Nat.add_comm, ← Nat.succ_mul]
          congr 1
          omega
        have hwrap : (blocks + 1) % 2 ^ 32 = blocks + 1 := Nat.mod_eq_of_lt (by omega)
        simp only [taken, Option.elim, hc, take_add, hwrap]
    · cases count with
      | none => exact absurd nofun hlt
      | some c =>
        have hdone : c ≤ blocks := by simpa using hlt
        simp [taken, Nat.sub_eq_zero_of_le hdone]

theorem main_eq :
    main output.write args src
      = (0, taken args.count args.chunk 0 (src.drop (min args.start (2 ^ 32 - 1)))) := by
  unfold main
  rw [copy_eq output _ (chunk_pos args) args.count_lt, nil_append]
  split_ifs with hskip
  · rw [discard_eq _ (chunk_pos args)]
  · rw [Args.start, Nat.eq_zero_of_not_pos hskip, Nat.zero_mul, Nat.zero_min, drop_zero]

/-! ## The bytes that are asked for -/

/-- The bytes from `skip * bs` up to `(skip + count) * bs`, or to the end without a count. -/
def Args.range (args : Args) (src : List UInt8) : List UInt8 :=
  (args.count.elim src fun c => src.take ((args.skip + c) * args.bs)).drop args.start

/-- The size of a source of which `dd` copies the right range: the skip stays below `2 ^ 32` bytes
or passes the end anyhow, and the blocks that are counted have the size that is asked for or reach
the end, as the right ones do. -/
def Args.Fits (args : Args) (size : Nat) : Prop :=
  args.count = some 0 ∨
    ((args.start < 2 ^ 32 ∨ size < 2 ^ 32) ∧
      ∀ c ∈ args.count,
        args.chunk = args.bs ∨ size ≤ args.start + min (c * args.bs) (c * args.chunk))

theorem range_eq : args.range src = taken args.count args.bs 0 (src.drop args.start) := by
  unfold Args.range taken
  cases args.count with
  | none => rfl
  | some c =>
    dsimp only [Option.elim]
    rw [drop_take, Args.start, Nat.add_mul, Nat.add_sub_cancel_left, Nat.sub_zero]

theorem main_eq_range (h : args.Fits size) (hsrc : src.length = size) :
    main output.write args src = (0, args.range src) := by
  rw [main_eq, range_eq]
  obtain hzero | ⟨hstart, hcount⟩ := h
  · simp [taken, hzero]
  have hdrop : src.drop (min args.start (2 ^ 32 - 1)) = src.drop args.start := by
    by_cases hlt : args.start < 2 ^ 32
    · rw [Nat.min_eq_left (by omega)]
    · rw [drop_eq_nil_of_le (by omega), drop_eq_nil_of_le (by omega)]
  rw [hdrop]
  cases hc : args.count with
  | none => rfl
  | some c =>
    obtain hchunk | hend := hcount c hc
    · rw [hchunk]
    · have hlen := length_drop (i := args.start) (l := src)
      simp only [taken, Option.elim, Nat.sub_zero]
      rw [take_of_length_le (by omega), take_of_length_le (by omega)]

/-- A source with one byte that is not zero. -/
theorem exists_marked {k start : Nat} (hk : k < size) (hstart : k < start) :
    ∃ src : List UInt8, src.length = size ∧ (src.drop k).head? = some 1 ∧ 1 ∉ src.drop start := by
  refine ⟨replicate k 0 ++ 1 :: replicate (size - k - 1) 0, ?_, ?_, ?_⟩
  · rw [length_append, length_cons, length_replicate, length_replicate]
    omega
  · rw [drop_left' length_replicate, head?_cons]
  · obtain ⟨n, rfl⟩ := Nat.exists_eq_add_of_lt hstart
    rw [Nat.add_assoc, ← drop_drop, drop_left' length_replicate, drop_succ_cons, drop_replicate,
      mem_replicate]
    exact fun h => absurd h.2 (by decide)

theorem fits_of_main_eq_range
    (h : ∀ src, src.length = size → main output.write args src = (0, args.range src)) :
    args.Fits size := by
  simp only [main_eq, range_eq, Prod.mk.injEq, true_and] at h
  by_cases hzero : args.count = some 0
  · exact .inl hzero
  have hpos : ∀ c ∈ args.count, 0 < c := fun c hc =>
    Nat.pos_of_ne_zero fun h0 => hzero (h0 ▸ hc)
  refine .inr ⟨?_, fun c hc => ?_⟩
  · -- Past the end of a word the two ranges start at different bytes.
    by_contra hfar
    have hend : 2 ^ 32 - 1 < size := by omega
    have hstart : 2 ^ 32 - 1 < args.start := by omega
    obtain ⟨src, hsize, hhead, hmem⟩ := exists_marked hend hstart
    have heq := h src hsize
    obtain ⟨rest, hrest⟩ := head?_eq_some_iff.1 hhead
    rw [Nat.min_eq_right (by omega), hrest] at heq
    cases hc : args.count with
    | none =>
      rw [hc, taken, Option.elim, taken, Option.elim] at heq
      exact hmem (heq ▸ mem_cons_self)
    | some c =>
      obtain ⟨n, hn⟩ := Nat.exists_eq_succ_of_ne_zero (Nat.mul_pos (hpos c hc) (chunk_pos args)).ne'
      rw [hc, taken, Option.elim, taken, Option.elim, Nat.sub_zero, hn, take_succ_cons] at heq
      exact hmem (mem_of_mem_take (heq ▸ mem_cons_self))
  · -- With other blocks the two ranges differ in length.
    by_contra hshort
    rw [not_or] at hshort
    have hlen := congrArg length (h (replicate size 0) length_replicate)
    have hne : c * args.bs ≠ c * args.chunk := fun heq =>
      hshort.1 (Nat.eq_of_mul_eq_mul_left (hpos c hc) heq).symm
    simp only [Option.mem_def.1 hc, taken, Option.elim, length_take, length_drop,
      length_replicate, Nat.sub_zero] at hlen
    omega

/-- `dd` copies the range it is asked for from every source of a size just when the size fits. -/
theorem dd_copies_range_iff :
    (∀ src, src.length = size → main output.write args src = (0, args.range src))
      ↔ args.Fits size :=
  ⟨fits_of_main_eq_range args output, fun h src => main_eq_range args output src h⟩

/-- With `bs=1 count=1` the two bytes of a source are copied. -/
theorem dd_copies_more_than_count :
    ∃ (args : Args) (output : Output) (src : List UInt8),
      args.bs = 1 ∧ args.count = some 1 ∧ args.skip = 0 ∧ args.range src = [7] ∧
        main output.write args src = (0, [7, 8]) := by
  refine ⟨⟨1, some 1, 0, by decide, by decide, by simp, by decide⟩,
    ⟨fun _ buf => some (buf.length - 1 + 1), fun _ buf _ => ⟨_, rfl⟩⟩, [7, 8], rfl, rfl, rfl, rfl,
    ?_⟩
  rw [main_eq]
  rfl

end Felix.Dd
