import Mathlib.Data.Nat.ModEq
import Mathlib.Algebra.Order.Interval.Finset.SuccPred
import Mathlib.Data.Nat.SuccPred
import Felix.Ext2.FileMap

/-!
# Regular files as byte arrays

`fileByte` is byte `p` of a file, zero where no block is allocated, and the
loops of `read_at`, `write_at` and `write_file_by_inode` are specified with
it.  A reference array is a list of bytes; `overwrite` is what a write does to
it.

`read_at` stops at the first block that is missing, although the bytes there
are zeros of the file, and a write behind the end exposes what the blocks
between the old end and its start hold.  `FileOp.Condition` rules both out, and
`runAgrees` says that every run whose steps meet it returns the bytes of the
reference array.
-/

namespace Felix

open Bytes Res List Nat

namespace Ext2

/-! ## Bytes of a file -/

section

variable (fs : Ext2) (v : Vol) (inode : Ext2Inode)

/-- Byte `p` of a file. -/
def fileByte (p : Nat) : UInt8 := fs.fileBlock v inode (p / fs.blockSize) (p % fs.blockSize)

/-- The number of bytes that the pointers up to the single indirect ones cover. -/
def maxBytes : Nat := (12 + fs.blockSize / 4) * fs.blockSize

/-- How many blocks a write to the blocks from `lo` to `hi` has to allocate. -/
def need (lo hi : Nat) : Nat :=
  ((Finset.Ico lo hi).filter fun i => fs.blockPtr v inode i = 0).card
    + if 12 < hi ∧ inode.ptr 12 = 0 then 1 else 0

end

variable {fs : Ext2} {g : Geometry} {disk : Disk} {v v' : Vol} {inode inode' : Ext2Inode}
  {buf : List UInt8}

theorem div_mod_add {n a d : Nat} (hd : a % n + d < n) :
    (a + d) / n = a / n ∧ (a + d) % n = a % n + d := by
  have hd' : d < n := by omega
  have hlt : a % n + d % n < n := by rwa [mod_eq_of_lt hd']
  rw [add_div_eq_of_add_mod_lt hlt, add_mod_of_add_mod_lt hlt, mod_eq_of_lt hd', div_eq_of_lt hd']
  exact ⟨rfl, rfl⟩

theorem fileByte_add {p d : Nat} (hd : p % fs.blockSize + d < fs.blockSize) :
    fs.fileByte v inode (p + d)
      = fs.fileBlock v inode (p / fs.blockSize) (p % fs.blockSize + d) := by
  obtain ⟨hdiv, hmod⟩ := div_mod_add hd
  unfold fileByte
  rw [hdiv, hmod]

/-- A value that is given on two intervals in a row is given on the whole of them. -/
theorem ite_append {α : Type} {a b c c' p : Nat} {x x₁ x₂ y : α} (hab : a ≤ b) (hbc : b ≤ c)
    (hc : c = c') (h₁ : a ≤ p → p < b → x₁ = x) (h₂ : b ≤ p → p < c → x₂ = x) :
    (if b ≤ p ∧ p < c then x₂ else if a ≤ p ∧ p < b then x₁ else y)
      = if a ≤ p ∧ p < c' then x else y := by
  subst hc
  by_cases hfar : b ≤ p ∧ p < c
  · rw [if_pos hfar, if_pos (by omega), h₂ hfar.1 hfar.2]
  rw [if_neg hfar]
  by_cases hnear : a ≤ p ∧ p < b
  · rw [if_pos hnear, if_pos (by omega), h₁ hnear.1 hnear.2]
  · rw [if_neg hnear, if_neg (by omega)]

theorem Extends.fileByte_eq (h : Extends fs g v v' inode inode') (p : Nat) :
    fs.fileByte v' inode' p = fs.fileByte v inode p := by
  unfold fileByte
  rw [h.same]

section

variable {i b : Nat} (h : Ensured fs g v v' inode inode' i (some b))
include h

theorem Ensured.dataBlock : fs.DataBlock g b := by
  obtain ⟨hz, hb, -⟩ := h.found b rfl
  rw [hb]
  exact (h.mapped.block (.data i) hz).1

theorem Ensured.setBlock_slot (f : Bytes) :
    fs.slot (v'.setBlock b f) inode' = fs.slot v' inode' := by
  obtain ⟨hz, hb, -⟩ := h.found b rfl
  rw [hb]
  exact (h.mapped.setBlock hz f).1

end

/-- The cost of a range is that of its first block and that of the rest. -/
theorem card_holes {lo hi : Nat} (hlt : lo < hi) :
    ((Finset.Ico lo hi).filter fun i => fs.blockPtr v inode i = 0).card
      = (if fs.blockPtr v inode lo = 0 then 1 else 0)
        + ((Finset.Ico (lo + 1) hi).filter fun i => fs.blockPtr v inode i = 0).card := by
  rw [← Finset.insert_Ico_add_one_left_eq_Ico hlt, Finset.filter_insert]
  split
  · rw [Finset.card_insert_of_notMem (by simp), Nat.add_comm]
  · rw [Nat.zero_add]

theorem blockCost_le_need {lo hi : Nat} (hlt : lo < hi) :
    fs.blockCost v inode lo ≤ fs.need v inode lo hi := by
  unfold blockCost need
  rw [card_holes hlt]
  by_cases hz : 12 ≤ lo ∧ inode.ptr 12 = 0
  · rw [if_pos hz, if_pos (c := 12 < hi ∧ inode.ptr 12 = 0) ⟨by omega, hz.2⟩]
    omega
  · rw [if_neg hz]
    omega

/-- Ensuring the first block of a range pays for that block. -/
theorem Ensured.need_succ {i hi b : Nat} (h : Ensured fs g v v' inode inode' i (some b))
    (hlt : i < hi) :
    fs.need v inode i hi = fs.blockCost v inode i + fs.need v' inode' (i + 1) hi := by
  obtain ⟨_, _, htable, _⟩ := h.found b rfl
  have hrest : (Finset.Ico (i + 1) hi).filter (fun j => fs.blockPtr v' inode' j = 0)
      = (Finset.Ico (i + 1) hi).filter fun j => fs.blockPtr v inode j = 0 := by
    apply Finset.filter_congr
    intro j hj
    rw [Finset.mem_Ico] at hj
    rw [h.others j (by omega)]
  have htail : (if 12 < hi ∧ inode.ptr 12 = 0 then 1 else 0)
      = (if 12 ≤ i ∧ inode.ptr 12 = 0 then 1 else 0)
        + if 12 < hi ∧ inode'.ptr 12 = 0 then 1 else 0 := by
    by_cases h12 : 12 ≤ i
    · rw [if_neg (c := 12 < hi ∧ inode'.ptr 12 = 0) fun hc => htable h12 hc.2]
      simp only [h12, show 12 < hi by omega, Nat.add_zero]
    · simp only [h12, h.direct (by omega), false_and, if_false, Nat.zero_add]
  unfold need blockCost
  rw [hrest, card_holes hlt]
  omega

/-! ## Reading -/

namespace Shows

/-- The loop of `read_at` copies the bytes of the file up to the first block
that is missing. -/
theorem readLoop_eq (h : fs.Shows g disk v) (hm : fs.Mapped v inode g)
    (toRead fuel bytesRead cur : Nat) (buf : Buf) (hlen : toRead ≤ buf.len)
    (hcur : cur + (toRead - bytesRead) < 2 ^ 32) (hfuel : toRead ≤ bytesRead + fuel) :
    ∃ n buf', fs.readLoop disk inode toRead fuel bytesRead cur buf = .ok (n, buf') ∧
      bytesRead ≤ n ∧ n ≤ max bytesRead toRead ∧
      (∀ k, buf'.byte k = if bytesRead ≤ k ∧ k < n
        then fs.fileByte v inode (cur + (k - bytesRead)) else buf.byte k) ∧
      (∀ p, cur ≤ p → p < cur + (n - bytesRead) →
        fs.blockPtr v inode (p / fs.blockSize) ≠ 0) ∧
      (n < toRead →
        fs.blockPtr v inode ((cur + (n - bytesRead)) / fs.blockSize) = 0) := by
  have hb := h.sound.mountable.size.bounds
  have hdone : ∀ (fuel bytesRead cur : Nat) (buf : Buf), ¬ bytesRead < toRead →
      fs.readLoop disk inode toRead fuel bytesRead cur buf = .ok (bytesRead, buf) := by
    intro fuel bytesRead cur buf hge
    cases fuel <;> rw [readLoop, if_neg hge]
  have hstop : ∀ (bytesRead cur : Nat) (buf : Buf) (k : Nat), buf.byte k
      = if bytesRead ≤ k ∧ k < bytesRead
        then fs.fileByte v inode (cur + (k - bytesRead)) else buf.byte k := by
    intro bytesRead cur buf k
    rw [if_neg (by omega)]
  induction fuel generalizing bytesRead cur buf with
  | zero =>
    exact ⟨bytesRead, buf, hdone _ _ _ _ (by omega), Nat.le_refl _, Nat.le_max_left _ _,
      hstop _ _ _, fun p hp hp' => by omega, fun hlt => by omega⟩
  | succ fuel ih =>
    by_cases hlt : bytesRead < toRead
    swap
    · exact ⟨bytesRead, buf, hdone _ _ _ _ hlt, Nat.le_refl _, Nat.le_max_left _ _,
        hstop _ _ _, fun p hp hp' => by omega, fun hlt' => by omega⟩
    have hdiv := Nat.div_le_self cur fs.blockSize
    have hindex : cur / fs.blockSize % 2 ^ 32 = cur / fs.blockSize := mod_eq_of_lt (by omega)
    rw [readLoop, if_pos hlt]
    simp only [hindex, h.resolveBlock_eq hm.tablesOn]
    by_cases hz : fs.blockPtr v inode (cur / fs.blockSize) = 0
    · rw [show pointee (fs.blockPtr v inode (cur / fs.blockSize)) = none from
        if_pos hz]
      refine ⟨bytesRead, buf, rfl, Nat.le_refl _, Nat.le_max_left _ _, hstop _ _ _,
        fun p hp hp' => by omega, fun _ => ?_⟩
      rw [Nat.sub_self]
      exact hz
    rw [show pointee (fs.blockPtr v inode (cur / fs.blockSize))
      = some (fs.blockPtr v inode (cur / fs.blockSize)).toNat from if_neg hz]
    have hdata : fs.DataBlock g (fs.blockPtr v inode (cur / fs.blockSize)).toNat :=
      (hm.block (.data _) hz).1
    have hoff := mod_lt cur (show 0 < fs.blockSize by omega)
    generalize hcan : min (toRead - bytesRead) (fs.blockSize - cur % fs.blockSize) = can
    have hslice := @Buf.slice_ok ⟨fs.blockSize, v.block
      (fs.blockPtr v inode (cur / fs.blockSize)).toNat⟩ (cur % fs.blockSize)
      (cur % fs.blockSize + can) (by omega) (by simp only []; omega)
    rw [Nat.add_sub_cancel_left] at hslice
    simp only [h.readBlock_eq hdata (Nat.le_refl _), ok_bind, hslice]
    rw [Buf.copyFromSlice_ok (by rw [length_toList]; omega), addW_ok (by omega), length_toList]
    -- what the first round put into the buffer
    have hbyte : ∀ k, bytesRead ≤ k → k < bytesRead + can →
        fs.fileByte v inode (cur + (k - bytesRead))
          = (toList (cur % fs.blockSize) can (v.block
            (fs.blockPtr v inode (cur / fs.blockSize)).toNat)).getD
              (k - bytesRead) 0 := by
      intro k hk hk'
      rw [fileByte_add (by omega), fileBlock, if_neg hz, getD_eq_getElem?_getD,
        getElem?_toList (by omega), Option.getD_some]
    obtain ⟨n, buf', hrun, hlow, hhigh, hbytes, hpresent, hhole⟩ := ih (bytesRead + can)
      (cur + can) ⟨buf.len, splice bytesRead can (fun k => (toList (cur % fs.blockSize) can
        (v.block (fs.blockPtr v inode
          (cur / fs.blockSize)).toNat)).getD k 0) buf.byte⟩ hlen (by omega) (by omega)
    refine ⟨n, buf', hrun, by omega, by omega, fun k => ?_, fun p hp hp' => ?_, fun hn => ?_⟩
    · rw [hbytes k]
      refine ite_append (by omega) hlow rfl (fun hlo hhi => (hbyte k hlo hhi).symm) fun hlo _ => ?_
      rw [show cur + can + (k - (bytesRead + can)) = cur + (k - bytesRead) by omega]
    · by_cases hnear : p < cur + can
      · have heq := (div_mod_add (n := fs.blockSize) (a := cur) (d := p - cur) (by omega)).1
        rw [Nat.add_sub_cancel' hp] at heq
        rw [heq]
        exact hz
      · exact hpresent p (by omega) (by omega)
    · rw [show cur + (n - bytesRead) = cur + can + (n - (bytesRead + can)) by omega]
      exact hhole hn

end Shows

/-! ## Writing one block -/

/-- Overwriting a part of one block of the file overwrites those bytes. -/
theorem Mapped.fileByte_setBlock (h : fs.Mapped v inode g) (hpos : 0 < fs.blockSize)
    (cur can : Nat) (hz : fs.blockPtr v inode (cur / fs.blockSize) ≠ 0)
    (hcan : cur % fs.blockSize + can ≤ fs.blockSize) (chunk : Bytes) (p : Nat) :
    fs.fileByte (v.setBlock (fs.blockPtr v inode (cur / fs.blockSize)).toNat
        (cut fs.blockSize (splice (cur % fs.blockSize) can chunk
          (v.block (fs.blockPtr v inode (cur / fs.blockSize)).toNat)))) inode p
      = if cur ≤ p ∧ p < cur + can then chunk (p - cur) else fs.fileByte v inode p := by
  have hmod := mod_lt p hpos
  have hcur := div_add_mod cur fs.blockSize
  have hp := div_add_mod p fs.blockSize
  unfold fileByte
  rw [(h.setBlock hz _).2]
  by_cases hblock : p / fs.blockSize = cur / fs.blockSize
  · rw [if_pos hblock, cut_apply hmod]
    rw [hblock] at hp
    by_cases hin : cur ≤ p ∧ p < cur + can
    · rw [if_pos hin, splice_apply_in (by omega) (by omega)]
      congr 1
      omega
    rw [if_neg hin, splice_apply_out (by omega), hblock]
    unfold fileBlock
    rw [if_neg hz]
  · rw [if_neg hblock, if_neg]
    intro hin
    have hsame := (div_mod_add (n := fs.blockSize) (a := cur) (d := p - cur) (by omega)).1
    rw [Nat.add_sub_cancel' hin.1] at hsame
    exact hblock hsame

theorem need_congr {lo hi : Nat} (hslot : fs.slot v' inode = fs.slot v inode) :
    fs.need v' inode lo hi = fs.need v inode lo hi := by
  have hptr : ∀ i, fs.blockPtr v' inode i = fs.blockPtr v inode i :=
    fun i => congrFun hslot (.data i)
  unfold need
  simp only [hptr]

/-! ## The loop of `write_at` -/

/-- What the loop of `write_at` leaves, from `written` bytes on. -/
structure Written (fs : Ext2) (g : Geometry) (v v' : Vol) (inode inode' : Ext2Inode)
    (buf : List UInt8) (written cur n : Nat) : Prop where
  mapped : fs.Mapped v' inode' g
  rest : inode' = { inode with iBlock := inode'.iBlock }
  inodes : v'.inode = v.inode
  lower : written ≤ n
  upper : n ≤ max written buf.length
  bytes : ∀ p, fs.fileByte v' inode' p = if cur ≤ p ∧ p < cur + (n - written)
    then buf.getD (written + (p - cur)) 0 else fs.fileByte v inode p
  reach : cur + (n - written) ≤ fs.maxBytes
  others : ∀ j, (∀ p, cur ≤ p → p < cur + (buf.length - written) → p / fs.blockSize ≠ j) →
    fs.blockPtr v' inode' j = fs.blockPtr v inode j
  all : written < buf.length → cur + (buf.length - written) ≤ fs.maxBytes →
    fs.need v inode (cur / fs.blockSize)
      ((cur + (buf.length - written) - 1) / fs.blockSize + 1) ≤ fs.freeBlocks v g →
    n = buf.length

/-- The loop has nothing more to do, or it cannot go on. -/
theorem Written.stop (hext : Extends fs g v v' inode inode')
    {written cur : Nat} (hcur : cur ≤ fs.maxBytes)
    (hothers : ∀ j, (∀ p, cur ≤ p → p < cur + (buf.length - written) → p / fs.blockSize ≠ j) →
      fs.blockPtr v' inode' j = fs.blockPtr v inode j)
    (hall : written < buf.length → cur + (buf.length - written) ≤ fs.maxBytes →
      fs.need v inode (cur / fs.blockSize)
        ((cur + (buf.length - written) - 1) / fs.blockSize + 1) ≤ fs.freeBlocks v g →
      written = buf.length) : Written fs g v v' inode inode' buf written cur written := by
  refine ⟨hext.mapped, hext.rest, hext.inodes, Nat.le_refl _, Nat.le_max_left _ _, fun p => ?_,
    by omega, hothers, hall⟩
  rw [if_neg (by omega), hext.fileByte_eq]

/-- One round of the loop, followed by the rest. -/
theorem Written.step {v₁ v₂ : Vol} {inode₁ : Ext2Inode}
    {written cur can n b : Nat} (hpos : 0 < fs.blockSize)
    (hens : Ensured fs g v v₁ inode inode₁ (cur / fs.blockSize) (some b))
    (hcan : can = min (buf.length - written) (fs.blockSize - cur % fs.blockSize))
    (hlt : written < buf.length)
    (hv₂ : v₂ = v₁.setBlock b (cut fs.blockSize (splice (cur % fs.blockSize) can
      (fun k => ((buf.drop written).take can).getD k 0) (v₁.block b))))
    (hrest : Written fs g v₂ v' inode₁ inode' buf (written + can) (cur + can) n) :
    Written fs g v v' inode inode' buf written cur n := by
  obtain ⟨hz, hb, _, hcount⟩ := hens.found b rfl
  have hmod := mod_lt cur hpos
  have hslot : fs.slot v₂ inode₁ = fs.slot v₁ inode₁ := by
    rw [hv₂]
    exact hens.setBlock_slot _
  have hptr : ∀ j, fs.blockPtr v₂ inode₁ j = fs.blockPtr v₁ inode₁ j :=
    fun j => congrFun hslot (.data j)
  have hlow := hrest.lower
  have hup := hrest.upper
  refine ⟨hrest.mapped, ?_, ?_, by omega, by omega, fun p => ?_, ?_, fun j hj => ?_,
    fun _ hmax hneed => ?_⟩
  · rw [hrest.rest, hens.rest]
  · rw [hrest.inodes, ← hens.inodes, hv₂, Vol.setBlock_inode]
  · -- the bytes of this round lie before those of the rest
    have hround : fs.fileByte v₂ inode₁ p = if cur ≤ p ∧ p < cur + can
        then ((buf.drop written).take can).getD (p - cur) 0 else fs.fileByte v inode p := by
      rw [hv₂, hb, hens.mapped.fileByte_setBlock hpos cur can hz (by omega), hens.fileByte_eq]
    rw [hrest.bytes p, hround]
    refine ite_append (by omega) (by omega) (by omega) (fun hlo hhi => ?_) fun hlo _ => ?_
    · rw [getD_eq_getElem?_getD, getD_eq_getElem?_getD, getElem?_take_of_lt (by omega),
        getElem?_drop]
    · rw [show written + can + (p - (cur + can)) = written + (p - cur) by omega]
  · have hreach := hrest.reach
    omega
  · rw [hrest.others j fun p hp hp' => hj p (by omega) (by omega), hptr, hens.others]
    intro heq
    exact hj cur (Nat.le_refl _) (by omega) heq.symm
  · by_cases hmore : written + can < buf.length
    swap
    · omega
    -- the next round starts with the next block
    have hnext : cur + can = (cur / fs.blockSize + 1) * fs.blockSize := by
      have hsplit := div_add_mod cur fs.blockSize
      rw [Nat.add_mul, Nat.mul_comm (cur / fs.blockSize)]
      omega
    have hindex : (cur + can) / fs.blockSize = cur / fs.blockSize + 1 := by
      rw [hnext, Nat.mul_div_cancel _ hpos]
    have hend : cur + can + (buf.length - (written + can)) = cur + (buf.length - written) := by
      omega
    have hhi : cur / fs.blockSize < (cur + (buf.length - written) - 1) / fs.blockSize + 1 :=
      lt_succ_of_le (Nat.div_le_div_right (by omega))
    refine hrest.all hmore (by omega) ?_
    rw [hend, hindex, need_congr hslot]
    have hsucc := hens.need_succ hhi
    have hfree : fs.freeBlocks v₂ g = fs.freeBlocks v₁ g := by rw [hv₂]; rfl
    omega

/-- The loop of `write_at` writes a prefix of the buffer, all of it when there
is room. -/
theorem Shows.writeLoop_eq (h : fs.Shows g disk v) (hm : fs.Mapped v inode g)
    (buf : List UInt8) (fuel written cur : Nat) (hcur : cur ≤ fs.maxBytes)
    (hlen : buf.length < 2 ^ 32) (hfuel : buf.length ≤ written + fuel) :
    ∃ n inode' disk' v', fs.writeLoop buf fuel written cur inode disk = .ok (n, inode', disk') ∧
      fs.Shows g disk' v' ∧ Written fs g v v' inode inode' buf written cur n := by
  have hb := h.sound.mountable.size.bounds
  have hpos : 0 < fs.blockSize := by omega
  induction fuel generalizing written cur inode disk v with
  | zero =>
    rw [writeLoop, if_neg (by omega)]
    exact ⟨_, _, _, _, rfl, h, .stop (.refl hm) hcur (fun _ _ => rfl) fun hlt => by omega⟩
  | succ fuel ih =>
    rw [writeLoop]
    by_cases hlt : written < buf.length
    swap
    · rw [if_neg hlt]
      exact ⟨_, _, _, _, rfl, h, .stop (.refl hm) hcur (fun _ _ => rfl) fun hlt' => absurd hlt' hlt⟩
    rw [if_pos hlt]
    have hmaxIdx : cur / fs.blockSize ≤ 12 + fs.blockSize / 4 :=
      Nat.div_le_of_le_mul (by rw [Nat.mul_comm]; exact hcur)
    have hindex : cur / fs.blockSize % 2 ^ 32 = cur / fs.blockSize := mod_eq_of_lt (by omega)
    simp only [hindex]
    by_cases hend : 12 + fs.blockSize / 4 ≤ cur / fs.blockSize
    · rw [if_pos hend]
      refine ⟨_, _, _, _, rfl, h, .stop (.refl hm) hcur (fun _ _ => rfl) fun _ hmax => ?_⟩
      have hge : fs.maxBytes ≤ cur :=
        Nat.le_trans (Nat.mul_le_mul_right _ hend) (div_mul_le_self _ _)
      omega
    rw [if_neg hend]
    obtain ⟨r, inode₁, disk₁, v₁, hensure, h₁, hens⟩ := h.ensureFileBlock_eq hm
      (i := cur / fs.blockSize) (by omega)
    rw [hensure]
    cases r with
    | none =>
      refine ⟨_, _, _, _, rfl, h₁, .stop hens.toExtends hcur (fun j hj => ?_) fun _ _ hneed => ?_⟩
      · refine hens.others j fun heq => hj cur (Nat.le_refl _) (by omega) heq.symm
      · have hfull := hens.full rfl
        have hcost : fs.blockCost v inode (cur / fs.blockSize) ≤ _ :=
          blockCost_le_need (lt_add_one_of_le (Nat.div_le_div_right
            (show cur ≤ cur + (buf.length - written) - 1 by omega)))
        omega
    | some b =>
      have hdata := hens.dataBlock
      have hmod := mod_lt cur hpos
      generalize hcan : min (buf.length - written) (fs.blockSize - cur % fs.blockSize) = can
      have hchunk : subslice buf written (written + can) = .ok ((buf.drop written).take can) := by
        rw [subslice_ok (by omega) (by omega), Nat.add_sub_cancel_left]
      have hchunkLen : ((buf.drop written).take can).length = can := by
        rw [length_take, length_drop]
        omega
      obtain ⟨disk₂, hwrite, h₂⟩ := h₁.writeBlock_eq hdata (splice (cur % fs.blockSize) can
        (fun k => ((buf.drop written).take can).getD k 0) (v₁.block b))
      have hnext : cur + can ≤ fs.maxBytes := by
        have hsplit := div_add_mod cur fs.blockSize
        have hblocks := Nat.mul_le_mul_right fs.blockSize
          (show cur / fs.blockSize + 1 ≤ 12 + fs.blockSize / 4 by omega)
        rw [Nat.add_mul, Nat.mul_comm (cur / fs.blockSize)] at hblocks
        unfold maxBytes
        omega
      have hmax : fs.maxBytes ≤ (12 + 4096 / 4) * 4096 := Nat.mul_le_mul (by omega) hb.2
      obtain ⟨n, inode', disk', v', hrun, h', hrest⟩ := ih h₂
        (hens.mapped.congr (hens.setBlock_slot _) rfl) (written + can) (cur + can) hnext (by omega)
      refine ⟨n, inode', disk', v', ?_, h', .step hpos hens hcan.symm hlt rfl hrest⟩
      simp only [h₁.readBlock_eq hdata (Nat.le_refl _), ok_bind, hchunk]
      rw [Buf.copyFromSlice_ok (by rw [hchunkLen]; simp only []; omega), hchunkLen]
      simp only [hwrite, ok_bind]
      rw [addW_ok (by omega)]
      exact hrun

/-! ## The loop of `write_file_by_inode` -/

/-- What the loop of `write_file_by_inode` leaves, from block `i` on. -/
structure Replaced (fs : Ext2) (g : Geometry) (v v' : Vol) (inode inode' : Ext2Inode)
    (data : List UInt8) (i rounds : Nat) : Prop where
  mapped : fs.Mapped v' inode' g
  rest : inode' = { inode with iBlock := inode'.iBlock }
  inodes : v'.inode = v.inode
  bytes : ∀ p, fs.fileByte v' inode' p = if i * fs.blockSize ≤ p ∧ p < (i + rounds) * fs.blockSize
    then data.getD p 0 else fs.fileByte v inode p

/-- The buffer that is written to block `i`: the bytes of the data there, and
zeros behind its end. -/
theorem cut_chunk {bs i : Nat} {data chunk : List UInt8}
    (hchunk : chunk = (data.drop (i * bs)).take (min (i * bs + bs) data.length - i * bs))
    (f : Bytes) :
    cut bs (splice 0 chunk.length (fun k => chunk.getD k 0) fun _ => 0)
      = cut bs (splice 0 bs (fun k => data.getD (i * bs + k) 0) f) := by
  have hlen : chunk.length = min (i * bs + bs) data.length - i * bs := by
    rw [hchunk, length_take, length_drop]
    omega
  funext k
  unfold cut
  split
  swap
  · rfl
  rw [splice_apply_in (Nat.zero_le k) (n := bs) (by omega)]
  by_cases hin : k < chunk.length
  · rw [splice_apply_in (Nat.zero_le k) (by omega), Nat.sub_zero, hchunk,
      getD_eq_getElem?_getD, getD_eq_getElem?_getD,
      getElem?_take_of_lt (by omega), getElem?_drop]
  · rw [splice_apply_out (by omega), getD_eq_getElem?_getD,
      getElem?_eq_none (by omega), Option.getD_none]

theorem Shows.writeFileBlocks_eq (h : fs.Shows g disk v) (hm : fs.Mapped v inode g)
    (data : List UInt8) (rounds i : Nat)
    (hmax : i + rounds ≤ 12 + fs.blockSize / 4)
    (hlen : (i + rounds) * fs.blockSize < data.length + fs.blockSize)
    (hneed : fs.need v inode i (i + rounds) ≤ fs.freeBlocks v g) :
    ∃ inode' disk' v', fs.writeFileBlocks data rounds i inode disk = .ok (some inode', disk') ∧
      fs.Shows g disk' v' ∧ Replaced fs g v v' inode inode' data i rounds := by
  have hb := h.sound.mountable.size.bounds
  have hpos : 0 < fs.blockSize := by omega
  induction rounds generalizing i inode disk v with
  | zero =>
    refine ⟨inode, disk, v, rfl, h, hm, rfl, rfl, fun p => ?_⟩
    rw [if_neg (by rw [Nat.add_zero]; omega)]
  | succ rounds ih =>
    obtain ⟨r, inode₁, disk₁, v₁, hensure, h₁, hens⟩ := h.ensureFileBlock_eq hm (i := i) (by omega)
    have hcost : fs.blockCost v inode i ≤ _ :=
      blockCost_le_need (show i < i + (rounds + 1) by omega)
    cases r with
    | none =>
      have hfull := hens.full rfl
      omega
    | some b =>
      obtain ⟨hz, hbeq, _, hcount⟩ := hens.found b rfl
      have hdata := hens.dataBlock
      have hsize : (i + (rounds + 1)) * fs.blockSize
          = i * fs.blockSize + fs.blockSize + rounds * fs.blockSize := by
        rw [Nat.add_mul, Nat.add_mul]
        omega
      have hstart : i * fs.blockSize + fs.blockSize ≤ (12 + 4096 / 4) * 4096 := by
        have hmul : (i + 1) * fs.blockSize ≤ (12 + 4096 / 4) * 4096 :=
          Nat.mul_le_mul (by omega) hb.2
        rwa [Nat.add_mul, Nat.one_mul] at hmul
      generalize hchunk : (data.drop (i * fs.blockSize)).take
        (min (i * fs.blockSize + fs.blockSize) data.length - i * fs.blockSize) = chunk
      have hchunkLen : chunk.length ≤ fs.blockSize := by
        rw [← hchunk, length_take]
        omega
      obtain ⟨disk₂, hwrite, h₂⟩ := h₁.writeBlock_eq hdata
        (splice 0 chunk.length (fun k => chunk.getD k 0) fun _ => 0)
      rw [cut_chunk hchunk.symm (v₁.block b)] at h₂
      have hround := hens.mapped.fileByte_setBlock hpos (i * fs.blockSize) fs.blockSize
        (by rw [Nat.mul_div_cancel _ hpos]; exact hz)
        (by rw [mul_mod_left, Nat.zero_add]) (fun k => data.getD (i * fs.blockSize + k) 0)
      rw [Nat.mul_div_cancel _ hpos, mul_mod_left, ← hbeq] at hround
      have hslot := hens.setBlock_slot
      have hsucc : fs.need v inode i (i + (rounds + 1)) = _ :=
        hens.need_succ (by omega)
      obtain ⟨inode', disk', v', hrun, h', hrest⟩ := ih h₂
        (hens.mapped.congr (hslot _) rfl) (i + 1) (by omega)
        (by rw [show i + 1 + rounds = i + (rounds + 1) by omega]; exact hlen)
        (by
          rw [need_congr (hslot _), show i + 1 + rounds = i + (rounds + 1) by omega]
          change _ ≤ fs.freeBlocks v₁ g
          omega)
      refine ⟨inode', disk', v', ?_, h', hrest.mapped, ?_, ?_, fun p => ?_⟩
      · rw [writeFileBlocks, hensure, ok_bind]
        simp only []
        rw [mulW_ok (by omega), ok_bind, addW_ok (by omega), ok_bind,
          subslice_ok (by omega) (by omega), ok_bind, hchunk,
          Buf.copyFromSlice_ok (by rw [Buf.zeroed_len]; omega)]
        simp only [Buf.zeroed_byte, hwrite, ok_bind]
        exact hrun
      · rw [hrest.rest, hens.rest]
      · rw [hrest.inodes, ← hens.inodes, Vol.setBlock_inode]
      · rw [hrest.bytes p, hround p, hens.fileByte_eq, show (i + 1 + rounds) * fs.blockSize
            = i * fs.blockSize + fs.blockSize + rounds * fs.blockSize by
              rw [← hsize]; congr 1; omega,
          show (i + 1) * fs.blockSize = i * fs.blockSize + fs.blockSize by
            rw [Nat.add_mul, Nat.one_mul]]
        refine ite_append (by omega) (by omega) hsize.symm (fun hlo _ => ?_) fun _ _ => rfl
        rw [Nat.add_sub_cancel' hlo]

end Ext2

end Felix
