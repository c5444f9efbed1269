import Mathlib.Data.Vector.Basic
import Felix.Base.Fault

/-!
# Packed little-endian records and byte buffers

A byte string of unbounded extent is a function from offsets to bytes.
`getLe` and `putLe` read and replace one little-endian field of it, and
`Packed` is the class of record types with a fixed packed layout: its laws
are the round trip and the fact that decoding looks at the bytes of the
record only.

`Buf` is a byte string with a length.  An access through a raw pointer
(`load`, `store`, `copyNonoverlapping`) faults with `memory` outside the buffer and a slice
(`index`, `slice`, `copyFromSlice`) with `outOfRange`.
-/

namespace Felix

/-- The bytes of a memory or disk area, by offset. -/
abbrev Bytes := Nat → UInt8

namespace Bytes

/-! ## One little-endian field -/

/-- The `w`-byte little-endian number at offset `o`. -/
def getLe : Nat → Nat → Bytes → Nat
  | 0, _, _ => 0
  | w + 1, o, f => (f o).toNat + 256 * getLe w (o + 1) f

/-- Replace the `w` bytes at offset `o` by the low bytes of `n`. -/
def putLe (w o n : Nat) (f : Bytes) : Bytes := fun k =>
  if o ≤ k ∧ k < o + w then UInt8.ofNat (n / 256 ^ (k - o)) else f k

variable {w o n k i : Nat} {f g : Bytes} {v : Nat → UInt32}

theorem getLe_eq_of_bytes (hn : n < 256 ^ w)
    (hf : ∀ i, i < w → f (o + i) = UInt8.ofNat (n / 256 ^ i)) : getLe w o f = n := by
  induction w generalizing o n with
  | zero =>
    rw [getLe]
    omega
  | succ w ih =>
    have hhead : (f o).toNat = n % 256 := by
      have h0 := hf 0 (by omega)
      rw [Nat.add_zero, Nat.pow_zero, Nat.div_one] at h0
      rw [h0, UInt8.toNat_ofNat']
    have htail : getLe w (o + 1) f = n / 256 := by
      refine ih ?_ ?_
      · omega
      intro i hi
      have hstep := hf (i + 1) (by omega)
      rw [Nat.add_right_comm, Nat.add_assoc, hstep, Nat.pow_succ,
        Nat.mul_comm, Nat.div_div_eq_div_mul]
    rw [getLe]
    omega

theorem getLe_putLe_self (hn : n < 256 ^ w) : getLe w o (putLe w o n f) = n := by
  refine getLe_eq_of_bytes hn ?_
  intro i hi
  rw [putLe, if_pos (by omega), Nat.add_sub_cancel_left]

theorem getLe_congr (h : ∀ k, o ≤ k → k < o + w → f k = g k) : getLe w o f = getLe w o g := by
  induction w generalizing o with
  | zero => rfl
  | succ w ih =>
    rw [getLe, getLe, h o (by omega) (by omega), ih fun k hk hk' => h k (by omega) (by omega)]

theorem getLe_putLe_ne {w' o' : Nat} (h : o + w ≤ o' ∨ o' + w' ≤ o) :
    getLe w o (putLe w' o' n f) = getLe w o f := by
  refine getLe_congr fun k hk hk' => ?_
  rw [putLe, if_neg (by omega)]

/-! ## Typed fields -/

def get16 (o : Nat) (f : Bytes) : UInt16 := UInt16.ofNat (getLe 2 o f)

def get32 (o : Nat) (f : Bytes) : UInt32 := UInt32.ofNat (getLe 4 o f)

def put8 (o : Nat) (v : UInt8) (f : Bytes) : Bytes := fun k =>
  if k = o then v else f k

def put16 (o : Nat) (v : UInt16) (f : Bytes) : Bytes := putLe 2 o v.toNat f

def put32 (o : Nat) (v : UInt32) (f : Bytes) : Bytes := putLe 4 o v.toNat f

@[simp] theorem get16_put16_self (o : Nat) (v : UInt16) (f : Bytes) :
    get16 o (put16 o v f) = v := by
  rw [get16, put16, getLe_putLe_self (by have := v.toNat_lt; omega)]
  exact UInt16.ofNat_toNat

@[simp] theorem get32_put32_self (o : Nat) (v : UInt32) (f : Bytes) :
    get32 o (put32 o v f) = v := by
  rw [get32, put32, getLe_putLe_self (by have := v.toNat_lt; omega)]
  exact UInt32.ofNat_toNat

theorem get16_congr (h : ∀ k, o ≤ k → k < o + 2 → f k = g k) : get16 o f = get16 o g := by
  rw [get16, get16, getLe_congr h]

theorem get32_congr (h : ∀ k, o ≤ k → k < o + 4 → f k = g k) : get32 o f = get32 o g := by
  rw [get32, get32, getLe_congr h]

theorem put8_apply (o : Nat) (v : UInt8) (f : Bytes) (k : Nat) :
    put8 o v f k = if k = o then v else f k := rfl

theorem put16_apply_ne {v : UInt16} (h : k < o ∨ o + 2 ≤ k) : put16 o v f k = f k := by
  rw [put16, putLe, if_neg (by omega)]

theorem put32_apply_ne {v : UInt32} (h : k < o ∨ o + 4 ≤ k) : put32 o v f k = f k := by
  rw [put32, putLe, if_neg (by omega)]

/-- Overwrite `n` bytes at `o` with the first bytes of `g`. -/
def splice (o n : Nat) (g f : Bytes) : Bytes := fun k =>
  if o ≤ k ∧ k < o + n then g (k - o) else f k

theorem splice_apply_in (h : o ≤ k) (h' : k < o + n) :
    splice o n g f k = g (k - o) := if_pos ⟨h, h'⟩

theorem splice_apply_out (h : k < o ∨ o + n ≤ k) : splice o n g f k = f k := if_neg (by omega)

/-- Overwrite `n` words at `o` with the first words of `v`. -/
def putWords (o n : Nat) (v : Nat → UInt32) (f : Bytes) : Bytes := fun k =>
  if o ≤ k ∧ k < o + 4 * n then
    UInt8.ofNat ((v ((k - o) / 4)).toNat / 256 ^ ((k - o) % 4))
  else f k

theorem putWords_apply_out
    (h : k < o ∨ o + 4 * n ≤ k) : putWords o n v f k = f k := if_neg (by omega)

theorem get32_putWords (hi : i < n) : get32 (o + 4 * i) (putWords o n v f) = v i := by
  have hlt := (v i).toNat_lt
  rw [get32, getLe_eq_of_bytes (by omega), UInt32.ofNat_toNat]
  intro j hj
  rw [putWords, if_pos (by omega), show (o + 4 * i + j - o) / 4 = i by omega,
    show (o + 4 * i + j - o) % 4 = j by omega]

/-- The bytes from an offset on. -/
def shift (o : Nat) (f : Bytes) : Bytes := fun k => f (o + k)

@[simp] theorem shift_apply (o : Nat) (f : Bytes) (k : Nat) : shift o f k = f (o + k) := rfl

/-- The first `n` bytes, padded with zeros. -/
def cut (n : Nat) (f : Bytes) : Bytes := fun k => if k < n then f k else 0

theorem cut_apply (h : k < n) : cut n f k = f k := if_pos h

theorem cut_zero (n : Nat) : cut n (fun _ => 0) = fun _ => 0 := by
  funext k
  exact ite_self _

/-- The `n` bytes from an offset on, as a list. -/
def toList (o n : Nat) (f : Bytes) : List UInt8 :=
  (List.range n).map fun k => f (o + k)

@[simp] theorem length_toList (o n : Nat) (f : Bytes) : (toList o n f).length = n := by
  simp [toList]

theorem toList_congr (h : ∀ k, o ≤ k → k < o + n → f k = g k) : toList o n f = toList o n g := by
  refine List.map_congr_left fun k hk => ?_
  have hk' := List.mem_range.1 hk
  exact h (o + k) (by omega) (by omega)

theorem getElem?_toList (hk : k < n) : (toList o n f)[k]? = some (f (o + k)) := by
  simp [toList, hk]

end Bytes

/-! ## Packed records -/

/-- A record type with a packed layout of `size` bytes. -/
class Packed (α : Type) where
  size : Nat
  encode : α → Bytes
  decode : Bytes → α
  decode_congr : ∀ {f g : Bytes}, (∀ k, k < size → f k = g k) → decode f = decode g
  decode_encode : ∀ x : α, decode (encode x) = x

/-! ## Buffers -/

/-- A byte buffer: `len` bytes of memory.  What `byte` says from `len` on
has no meaning. -/
structure Buf where
  len : Nat
  byte : Bytes

namespace Buf

open Bytes

variable {α : Type} [Packed α]

/-- `[0u8; n]` and `vec![0u8; n]`. -/
def zeroed (n : Nat) : Buf := ⟨n, fun _ => 0⟩

@[simp] theorem zeroed_len (n : Nat) : (zeroed n).len = n := rfl

@[simp] theorem zeroed_byte (n : Nat) : (zeroed n).byte = fun _ => 0 := rfl

/-- `ptr::read_unaligned` of a record at an offset. -/
def load (α : Type) [Packed α] (b : Buf) (off : Nat) : Res α :=
  if off + Packed.size α ≤ b.len then .ok (Packed.decode (shift off b.byte))
  else .error .memory

/-- `ptr::write_unaligned` of a record at an offset. -/
def store (b : Buf) (off : Nat) (v : α) : Res Buf :=
  if off + Packed.size α ≤ b.len then
    .ok ⟨b.len, splice off (Packed.size α) (Packed.encode v) b.byte⟩
  else .error .memory

/-- `buf[i]`. -/
def index (b : Buf) (i : Nat) : Res UInt8 :=
  if i < b.len then .ok (b.byte i) else .error .outOfRange

/-- `u32::from_le_bytes([buf[i], buf[i + 1], buf[i + 2], buf[i + 3]])`. -/
def word (b : Buf) (i : Nat) : Res UInt32 :=
  if i + 4 ≤ b.len then .ok (get32 i b.byte) else .error .outOfRange

/-- `buf[i..i + 4].copy_from_slice(&v.to_le_bytes())`. -/
def setWord (b : Buf) (i : Nat) (v : UInt32) : Res Buf :=
  if i + 4 ≤ b.len then .ok ⟨b.len, put32 i v b.byte⟩ else .error .outOfRange

/-- `&buf[lo..hi]`. -/
def slice (b : Buf) (lo hi : Nat) : Res (List UInt8) :=
  if lo ≤ hi ∧ hi ≤ b.len then .ok (toList lo (hi - lo) b.byte)
  else .error .outOfRange

/-- `buf[lo..lo + src.len()].copy_from_slice(src)`. -/
def copyFromSlice (b : Buf) (lo : Nat) (src : List UInt8) : Res Buf :=
  if lo + src.length ≤ b.len then
    .ok ⟨b.len, splice lo src.length (fun k => src.getD k 0) b.byte⟩
  else .error .outOfRange

/-- `ptr::copy_nonoverlapping` from a slice to an offset. -/
def copyNonoverlapping (b : Buf) (lo : Nat) (src : List UInt8) : Res Buf :=
  if lo + src.length ≤ b.len then
    .ok ⟨b.len, splice lo src.length (fun k => src.getD k 0) b.byte⟩
  else .error .memory

variable {b : Buf} {i lo off : Nat} {src : List UInt8}

theorem load_ok (h : off + Packed.size α ≤ b.len) :
    b.load α off = .ok (Packed.decode (shift off b.byte)) := if_pos h

theorem store_ok {v : α} (h : off + Packed.size α ≤ b.len) :
    b.store off v = .ok ⟨b.len, splice off (Packed.size α) (Packed.encode v) b.byte⟩ :=
  if_pos h

theorem index_ok (h : i < b.len) : b.index i = .ok (b.byte i) :=
  if_pos h

theorem word_ok (h : i + 4 ≤ b.len) : b.word i = .ok (get32 i b.byte) :=
  if_pos h

theorem setWord_ok {v : UInt32} (h : i + 4 ≤ b.len) :
    b.setWord i v = .ok ⟨b.len, put32 i v b.byte⟩ := if_pos h

theorem slice_ok {b : Buf} {lo hi : Nat} (h : lo ≤ hi) (h' : hi ≤ b.len) :
    b.slice lo hi = .ok (toList lo (hi - lo) b.byte) := if_pos ⟨h, h'⟩

theorem copyFromSlice_ok (h : lo + src.length ≤ b.len) : b.copyFromSlice lo src
      = .ok ⟨b.len, splice lo src.length (fun k => src.getD k 0) b.byte⟩ := if_pos h

theorem copyNonoverlapping_ok (h : lo + src.length ≤ b.len) : b.copyNonoverlapping lo src
      = .ok ⟨b.len, splice lo src.length (fun k => src.getD k 0) b.byte⟩ := if_pos h

end Buf

/-- `&data[lo..hi]` of a slice that is a list. -/
def subslice (l : List UInt8) (lo hi : Nat) : Res (List UInt8) :=
  if lo ≤ hi ∧ hi ≤ l.length then .ok ((l.drop lo).take (hi - lo)) else .error .outOfRange

theorem subslice_ok {l : List UInt8} {lo hi : Nat} (h : lo ≤ hi) (h' : hi ≤ l.length) :
    subslice l lo hi = .ok ((l.drop lo).take (hi - lo)) := if_pos ⟨h, h'⟩

/-- A record spliced into a byte string is read back from it. -/
theorem Packed.decode_splice {α : Type} [Packed α] (off : Nat) (v : α) (f : Bytes) :
    Packed.decode (Bytes.shift off (Bytes.splice off (Packed.size α) (Packed.encode v) f))
      = v := by
  rw [← Packed.decode_encode v]
  refine Packed.decode_congr fun k hk => ?_
  rw [Bytes.shift_apply, Bytes.splice_apply_in (by omega) (by omega),
    Nat.add_sub_cancel_left, Packed.decode_encode]

/-- A record is not affected by a splice elsewhere. -/
theorem Packed.decode_splice_ne {α : Type} [Packed α] {off o n : Nat} {g f : Bytes}
    (h : off + Packed.size α ≤ o ∨ o + n ≤ off) :
    (Packed.decode (Bytes.shift off (Bytes.splice o n g f)) : α)
      = Packed.decode (Bytes.shift off f) := by
  refine Packed.decode_congr fun k hk => ?_
  rw [Bytes.shift_apply, Bytes.splice_apply_out (by omega), Bytes.shift_apply]

end Felix
