import Mathlib.Algebra.GroupWithZero.Nat
import Mathlib.Order.MinMax

/-!
# Results of system calls in the user library

The kernel answers `read`, `write` and `recvfrom` with a count, or with a negative code that the
library gets as a large `usize`.  The library compares with `usize::MAX`, the code -1, where it
looks for an error at all.  Every other code is taken for a length: it is returned as one, a
buffer is cut there, or it is added to the bytes written.

Of `resolve` this is the loop that waits for the answer of the name server; the query that
`build_query` makes and what `parse_response` finds in an answer are left out.
-/

namespace Felix.Lib

/-- What the kernel answers: a count, of which it gives no more than was asked for, or an error,
whose code is -1 for the number 0. -/
inductive Result
  | count (k : Fin (2 ^ 31))
  | error (code : Fin (2 ^ 31))
  deriving DecidableEq

def usizeMax : Nat := 2 ^ 32 - 1

namespace Result

/-- The result of a request for `len` bytes, as `usize`. -/
def value (len : Nat) : Result → Nat
  | count k => min k len
  | error code => usizeMax - code

def IsError : Result → Prop
  | count _ => False
  | error _ => True

/-- No error but -1. -/
def Plain : Result → Prop
  | count _ => True
  | error code => code = 0

/-- -1 and -11. -/
def WouldBlock (r : Result) : Prop := r = error 0 ∨ r = error 10

/-- The results after which a loop over reads asks no more. -/
def stops : Result → Bool
  | count k => k = 0
  | error _ => true

theorem value_count_le (k : Fin (2 ^ 31)) (len : Nat) :
    (count k).value len ≤ len ∧ (count k).value len ≠ usizeMax := by
  simp only [value, usizeMax]
  omega

theorem value_count_eq_zero {k : Fin (2 ^ 31)} {len : Nat} (hl : len ≠ 0) :
    (count k).value len = 0 ↔ k = 0 := by
  rw [Fin.ext_iff, Fin.val_zero, value]
  omega

theorem le_value_error (code : Fin (2 ^ 31)) (len : Nat) : 2 ^ 31 ≤ (error code).value len := by
  simp only [value, usizeMax]
  omega

theorem value_error_eq_max {code : Fin (2 ^ 31)} {len : Nat} :
    (error code).value len = usizeMax ↔ code = 0 := by
  simp only [value, usizeMax, Fin.ext_iff, Fin.val_zero]
  omega

end Result

open Result

/-! ## The calls -/

/-- `File::read` into a buffer of `len` bytes. -/
def read (len : Nat) (r : Result) : Option Nat :=
  if len = 0 then some 0
  else if r.value len = usizeMax then none
  else some (r.value len)

/-- How a call comes back; `waits` if the answers end before. -/
inductive Outcome
  | done (bytes : Nat)
  | failed
  | pending
  | panics
  | waits
  deriving DecidableEq

/-- One round of a loop over `File::read`: `len` bytes of a buffer of `chunk` bytes are asked for,
and what is read is cut out of it. -/
def readRound (len chunk bytes : Nat) (r : Result) (next : Nat → Outcome) : Outcome :=
  match read len r with
  | none => .failed
  | some n =>
    if n = 0 then .done bytes
    else if n ≤ chunk then next n
    else .panics

def readChunk : Nat := 16 * 1024

/-- The loop of `File::read_to_end`. -/
def readToEnd (bytes : Nat) : List Result → Outcome
  | [] => .waits
  | r :: rs => readRound readChunk readChunk bytes r fun n => readToEnd (bytes + n) rs

/-- The loop of `File::read_exact_or_eof`. -/
def readExactOrEof (bytes left : Nat) : List Result → Outcome
  | [] => if left = 0 then .done bytes else .waits
  | r :: rs =>
    if left = 0 then .done bytes
    else readRound (min left 512) 512 bytes r fun n => readExactOrEof (bytes + n) (left - n) rs

/-- `AsyncRead::poll`. -/
def pollRead (len : Nat) (r : Result) : Outcome :=
  if r.value len = usizeMax then .pending else .done (r.value len)

/-- The loop of `AsyncWrite::poll`, with the results it gets and what each adds to the offset. -/
def pollWrite (len offset : Nat) : List Result → Outcome × List (Result × Nat)
  | [] => (if offset < len then .waits else .done offset, [])
  | r :: rs =>
    if offset < len then
      if r.value (len - offset) = usizeMax then (.pending, [(r, 0)])
      else if r.value (len - offset) = 0 then (.done offset, [(r, 0)])
      else
        let rest := pollWrite len ((offset + r.value (len - offset)) % 2 ^ 32) rs
        (rest.1, (r, r.value (len - offset)) :: rest.2)
    else (.done offset, [])

/-- The loop of `resolve` over the results of `recvfrom`; the answer is cut out of a buffer of
512 bytes. -/
def resolve : Nat → List Result → Outcome
  | 0, _ => .failed
  | _ + 1, [] => .waits
  | tries + 1, r :: rs =>
    if 0 < r.value 512 then if r.value 512 ≤ 512 then .done (r.value 512) else .panics
    else resolve tries rs

/-! ## Where a code is taken for a length -/

/-- The results asked for while `left` bytes are left, in requests of `ask` bytes, are plain. -/
def PlainFor (ask : Nat → Nat) (left : Nat) : List Result → Prop
  | [] => True
  | error code :: _ => left = 0 ∨ code = 0
  | count k :: rs => left = 0 ∨ k = 0 ∨ PlainFor ask (left - (count k).value (ask left)) rs

variable {len bytes : Nat} {r : Result} {rs : List Result}

theorem read_count {k : Fin (2 ^ 31)} : read len (count k) = some ((count k).value len) := by
  have h := (value_count_le k len).2
  by_cases hl : len = 0
  · simp [read, hl, value]
  · simp [read, hl, h]

theorem read_error {code : Fin (2 ^ 31)} (hl : len ≠ 0) :
    read len (error code) = if code = 0 then none else some ((error code).value len) := by
  simp [read, hl, value_error_eq_max]

theorem read_right_iff {len : Fin (2 ^ 31)} :
    (∀ n, read len r = some n → n ≤ len) ↔ (len = 0 ∨ r.Plain) := by
  by_cases hl : (len : Nat) = 0
  · simp [read, hl, Fin.ext_iff]
  cases r with
  | count k => simp [read_count, Plain, (value_count_le k len).1]
  | error code =>
    have := le_value_error code len
    by_cases hc : code = 0
    · simp [read_error hl, hc, Plain]
    have hne : ¬ len = 0 := fun h => hl (by simp [h])
    have hlt : ¬ (error code).value len ≤ len := by omega
    simp [read_error hl, Plain, hne, hlt]

theorem readRound_ne_panics {chunk : Nat} {next : Nat → Outcome}
    (hl : len ≠ 0) (hle : len ≤ chunk) (hchunk : chunk < 2 ^ 31) :
    readRound len chunk bytes r next ≠ .panics ↔
      match r with
      | count k => k = 0 ∨ next ((count k).value len) ≠ .panics
      | error code => code = 0 := by
  cases r with
  | count k =>
    have hk := (value_count_le k len).1.trans hle
    by_cases h : k = 0
    · have h0 : (count 0).value len = 0 := (value_count_eq_zero hl).mpr rfl
      simp [readRound, read_count, h, h0]
    · simp [readRound, read_count, value_count_eq_zero hl, h, hk]
  | error code =>
    have hge := le_value_error code len
    by_cases h : code = 0
    · simp [readRound, read_error hl, h]
    have h0 : (error code).value len ≠ 0 := by omega
    have hlt : ¬ (error code).value len ≤ chunk := by omega
    simp [readRound, read_error hl, h, h0, hlt]

theorem readToEnd_ne_panics :
    readToEnd bytes rs ≠ .panics ↔ ∀ r, rs.find? stops = some r → r.Plain := by
  induction rs generalizing bytes with
  | nil => simp [readToEnd]
  | cons r rs ih =>
    rw [readToEnd, readRound_ne_panics (by decide) le_rfl (by decide)]
    cases r with
    | count k => by_cases h : k = 0 <;> simp [h, ih, stops, Plain]
    | error code => simp [stops, Plain]

theorem readExactOrEof_ne_panics {left : Nat} :
    readExactOrEof bytes left rs ≠ .panics ↔ PlainFor (min · 512) left rs := by
  induction rs generalizing bytes left with
  | nil => by_cases h : left = 0 <;> simp [readExactOrEof, PlainFor, h]
  | cons r rs ih =>
    by_cases h : left = 0
    · cases r <;> simp [readExactOrEof, PlainFor, h]
    · rw [readExactOrEof, if_neg h, readRound_ne_panics (by omega) (min_le_right _ _) (by decide)]
      cases r <;> simp [PlainFor, h, ih]

theorem pollRead_right_iff :
    ((r.WouldBlock → pollRead len r = .pending) ∧ (r.IsError → ∀ n, pollRead len r ≠ .done n)) ↔
      r.Plain := by
  cases r with
  | count k => simp [Plain, IsError, WouldBlock]
  | error code => by_cases h : code = 0 <;> simp [pollRead, value_error_eq_max, Plain, IsError, h]

/-- No error is added to the offset, and one that means "would block" makes the call pending. -/
def WriteRight (result : Outcome × List (Result × Nat)) : Prop :=
  ∀ asked ∈ result.2, (asked.1.IsError → asked.2 = 0) ∧
    (asked.1.WouldBlock → result.1 = .pending)

theorem pollWrite_right_iff {offset : Nat} (hlen : len < 2 ^ 31) (hoffset : offset ≤ len) :
    WriteRight (pollWrite len offset rs) ↔ PlainFor id (len - offset) rs := by
  induction rs generalizing offset with
  | nil => simp [WriteRight, pollWrite, PlainFor]
  | cons r rs ih =>
    by_cases h : offset < len
    swap
    · cases r <;> simp [WriteRight, pollWrite, PlainFor, h, Nat.sub_eq_zero_of_le (not_lt.mp h)]
    have hleft : len - offset ≠ 0 := by omega
    cases r with
    | count k =>
      have hk := value_count_le k (len - offset)
      have hsub : len - offset - (count k).value (len - offset) =
        len - (offset + (count k).value (len - offset)) := by omega
      by_cases h0 : k = 0
      · rw [pollWrite, if_pos h, if_neg hk.2, if_pos ((value_count_eq_zero hleft).mpr h0)]
        simp [WriteRight, PlainFor, h0, WouldBlock]
      have hrest := @ih (offset + (count k).value (len - offset)) (by omega)
      rw [pollWrite, if_pos h, if_neg hk.2, if_neg (mt (value_count_eq_zero hleft).mp h0),
        Nat.mod_eq_of_lt (by omega)]
      simp only [PlainFor, hleft, h0, id, hsub, ← hrest]
      simp [WriteRight, IsError, WouldBlock]
    | error code =>
      have hge := le_value_error code (len - offset)
      by_cases h0 : code = 0
      · simp [WriteRight, pollWrite, PlainFor, h, value_error_eq_max, h0]
      · have hne : (error code).value (len - offset) ≠ 0 := by omega
        simp [WriteRight, pollWrite, PlainFor, h, value_error_eq_max, h0, hne, IsError, hleft]

theorem resolve_ne_panics {tries : Nat} : resolve tries rs ≠ .panics ↔
      ∀ r, (rs.take tries).find? (fun r => r ≠ count 0) = some r → ¬ r.IsError := by
  induction rs generalizing tries with
  | nil => cases tries <;> simp [resolve]
  | cons r rs ih =>
    cases tries with
    | zero => simp [resolve]
    | succ tries =>
      cases r with
      | count k =>
        have hk := (value_count_le k 512).1
        have hz : (count k).value 512 = 0 ↔ k = 0 := value_count_eq_zero (by decide)
        by_cases h : k = 0
        · simpa [resolve, h ▸ hz.mpr h, h] using ih
        · simp [resolve, h, hk, hz, Nat.pos_iff_ne_zero, IsError]
      | error code =>
        have hge := le_value_error code 512
        have hpos : 0 < (error code).value 512 := by omega
        have hlt : ¬ (error code).value 512 ≤ 512 := by omega
        simp [resolve, hpos, hlt, IsError]

/-! ## The contract -/

/-- A call with the results the kernel gives it.  A buffer is smaller than 2 GiB, as every
object is. -/
inductive Call
  | read (len : Fin (2 ^ 31)) (r : Result)
  | readToEnd (rs : List Result)
  | readExactOrEof (n : Nat) (rs : List Result)
  | pollRead (len : Fin (2 ^ 31)) (r : Result)
  | pollWrite (len : Fin (2 ^ 31)) (rs : List Result)
  | resolve (rs : List Result)

/-- The call takes no code for a length. -/
def Call.Right : Call → Prop
  | read len r => ∀ n, Lib.read len r = some n → n ≤ len
  | readToEnd rs => Lib.readToEnd 0 rs ≠ .panics
  | readExactOrEof n rs => Lib.readExactOrEof 0 n rs ≠ .panics
  | pollRead len r => (r.WouldBlock → Lib.pollRead len r = .pending) ∧
      (r.IsError → ∀ n, Lib.pollRead len r ≠ .done n)
  | pollWrite len rs => WriteRight (Lib.pollWrite len 0 rs)
  | resolve rs => Lib.resolve 6000 rs ≠ .panics

/-- Each result the call asks for is a count or -1, and a count for `resolve`, which looks for
no error. -/
def Call.Plain : Call → Prop
  | read len r => len = 0 ∨ r.Plain
  | readToEnd rs => ∀ r, rs.find? stops = some r → r.Plain
  | readExactOrEof n rs => PlainFor (min · 512) n rs
  | pollRead _ r => r.Plain
  | pollWrite len rs => PlainFor id len rs
  | resolve rs => ∀ r, (rs.take 6000).find? (fun r => r ≠ count 0) = some r → ¬ r.IsError

/-- The library is right about a result exactly where every error it meets is -1. -/
theorem call_right_iff_plain (call : Call) : call.Right ↔ call.Plain := by
  cases call with
  | read len r => exact read_right_iff
  | readToEnd rs => exact readToEnd_ne_panics
  | readExactOrEof n rs => exact readExactOrEof_ne_panics
  | pollRead len r => exact pollRead_right_iff
  | pollWrite len rs => exact pollWrite_right_iff len.isLt (Nat.zero_le _)
  | resolve rs => exact resolve_ne_panics

/-- A socket without data answers -11: `AsyncRead` is ready with 4294967285 bytes, and
`read_to_end` cuts its buffer there. -/
theorem would_block_taken_for_length :
    pollRead 100 (error 10) = .done 4294967285 ∧ readToEnd 0 [error 10] = .panics ∧
      ¬ (Call.pollRead 100 (error 10)).Right ∧ ¬ (Call.readToEnd [error 10]).Right := by
  have hread : pollRead 100 (error 10) = .done 4294967285 := by decide
  have hend : readToEnd 0 [error 10] = .panics := by decide
  refine ⟨hread, hend, fun h => ?_, fun h => h hend⟩
  have := h.1 (.inr rfl)
  exact absurd (hread.symm.trans this) (by decide)

end Felix.Lib
