import Mathlib.Algebra.Order.BigOperators.Group.List
import Mathlib.Algebra.Order.Group.Nat
import Felix.Base.Holes
import Felix.Memory.Elf
import Felix.Memory.Translate

/-!
# The initial stack of a process

`setup_user_stack` of the system call handler.  The strings of the environment and
of the argument list go to the top of the stack, below them the two tables of
pointers and the number of arguments.  Everything is written through the page
tables of the new process, with the loop that the loader uses.

There are three layers.  `PageRange` says that a range of pages is mapped to frames
of their own; `view` is the memory behind it as a flat array, and a write through
the page tables is a write to that array.  `Placed` is a stack in a flat array: a
list of pieces that lie above the stack pointer and apart from each other.  Pushing
a piece keeps it.  The contents of the initial stack are read off the list.
-/

namespace Felix.Memory

open Bytes Traced Function List

/-! ## The strings -/

/-- A string of at most `maxLen` bytes before its terminator, as the handler copies
it from the caller. -/
structure CStr (maxLen : Nat) where
  body : List UInt8
  noNul : 0 ∉ body
  short : body.length ≤ maxLen

namespace CStr

variable {maxLen : Nat}

/-- The bytes with the terminator. -/
def bytes (s : CStr maxLen) : List UInt8 := s.body ++ [0]

theorem length_bytes (s : CStr maxLen) : s.bytes.length ≤ maxLen + 1 := by
  have := s.short
  simp [bytes]
  omega

end CStr

/-- The loop that copies at most `fuel` bytes of a string, up to its terminator. -/
def copyBody (mem : Nat → UInt8) : Nat → Nat → List UInt8
  | 0, _ => []
  | fuel + 1, addr => if mem addr = 0 then [] else mem addr :: copyBody mem fuel (addr + 1)

/-- A string of the caller.  A string that is too long is cut off, and the
terminator is added. -/
def readCstr (mem : Nat → UInt8) (maxLen addr : Nat) : CStr maxLen where
  body := copyBody mem maxLen addr
  noNul := by
    fun_induction copyBody mem maxLen addr with
    | case1 | case2 => exact not_mem_nil
    | case3 _ _ hne ih => exact not_mem_cons_of_ne_of_not_mem (Ne.symm hne) ih
  short := by
    fun_induction copyBody mem maxLen addr with
    | case1 | case2 => exact Nat.zero_le _
    | case3 _ _ _ ih => exact Nat.succ_le_succ ih

/-- The loop over a table of pointers, which a null pointer ends. -/
def readCstrs (mem : Nat → UInt8) (maxLen : Nat) : Nat → Nat → List (CStr maxLen)
  | 0, _ => []
  | n + 1, table =>
    let item := (get32 table mem).toNat
    if item = 0 then [] else readCstr mem maxLen item :: readCstrs mem maxLen n (table + 4)

/-- The argument list and the environment that `read_exec_params` copies: at most 64
strings each. -/
def readExecStrings (mem : Nat → UInt8) (argc argv envc envp : Nat) :
    List (CStr 256) × List (CStr 512) :=
  (if argv = 0 then [] else readCstrs mem 256 (min argc 64) argv,
    if envp = 0 then [] else readCstrs mem 512 (min envc 64) envp)

theorem length_readCstrs (mem : Nat → UInt8) (maxLen n table : Nat) :
    (readCstrs mem maxLen n table).length ≤ n := by
  fun_induction readCstrs mem maxLen n table with
  | case1 | case2 => exact Nat.zero_le _
  | case3 _ _ _ _ ih => exact Nat.succ_le_succ ih

theorem length_capped (mem : Nat → UInt8) (maxLen n table : Nat) :
    (if table = 0 then [] else readCstrs mem maxLen (min n 64) table).length ≤ 64 := by
  split
  · exact Nat.zero_le _
  · exact (length_readCstrs mem maxLen _ table).trans (Nat.min_le_right _ _)

/-! ## The function -/

def userStackTop : Nat := 0xBFFFF000

def userStackPages : Nat := 32

/-- The lowest address of the stack. -/
def userStackBottom : Nat := userStackTop - userStackPages * 4096

/-- `val.to_le_bytes()`. -/
def leBytes (w : UInt32) : List UInt8 := (List.range 4).map fun k => UInt8.ofNat (w.toNat / 256 ^ k)

/-- Bytes are written below the stack pointer. -/
def pushBytes (data : List UInt8) (sp : Nat) (m : Machine) : Traced Access (Nat × Machine) := do
  let sp ← lift (subW sp data.length)
  let m ← copyToUserVirt m sp data
  pure (sp, m)

/-- `sp -= 4` and `write_u32_user`. -/
def pushWord (w : UInt32) (sp : Nat) (m : Machine) : Traced Access (Nat × Machine) :=
  pushBytes (leBytes w) sp m

/-- The loops that write the strings, from the last one to the first one.  The
addresses come in the order of the strings. -/
def pushStrings (strings : List (List UInt8)) (sp : Nat) (m : Machine) :
    Traced Access (List Nat × Nat × Machine) :=
  strings.foldrM (fun s (addrs, sp, m) => do
    let (sp, m) ← pushBytes s sp m
    pure (sp :: addrs, sp, m)) ([], sp, m)

/-- The loops that write the pointers. -/
def pushWords (words : List Nat) (sp : Nat) (m : Machine) : Traced Access (Nat × Machine) :=
  words.foldrM (fun w (sp, m) => pushWord (UInt32.ofNat w) sp m) (sp, m)

def setupUserStack (m : Machine) (stackTop : Nat) (argv envp : List (List UInt8)) :
    Traced Access (Nat × Machine) := do
  let (envAddrs, sp, m) ← pushStrings envp stackTop m
  let (argAddrs, sp, m) ← pushStrings argv sp m
  let sp := sp / 16 * 16
  let (sp, m) ← pushWord 0 sp m
  let (sp, m) ← pushWords envAddrs sp m
  let (sp, m) ← pushWord 0 sp m
  let (sp, m) ← pushWords argAddrs sp m
  pushWord (UInt32.ofNat argv.length) sp m

/-! ## A range of pages as flat memory -/

namespace Machine

variable {m m' : Machine} {lo hi : Nat}

/-- The pages from `lo` up to `hi` are mapped to frames of their own. -/
structure PageRange (m : Machine) (lo hi : Nat) : Prop where
  mapped : ∀ p, lo ≤ p → p < hi → m.Mapped p
  apart : ∀ p q, lo ≤ p → p < hi → lo ≤ q → q < hi → m.dataFrame p = m.dataFrame q → p = q
  noTable : ∀ p q, lo ≤ p → p < hi → lo ≤ q → q < hi → m.dataFrame p ≠ m.tableFrame (q / 1024)

/-- The memory behind the pages. -/
def view (m : Machine) : Bytes := fun a => m.phys (m.dataFrame (a / 4096)) (a % 4096)

/-- What a process reads at an address. -/
def userByte (m : Machine) (a : Nat) : Option UInt8 :=
  (m.translate a).map fun phys => m.phys (phys / 4096) (phys % 4096)

theorem PageRange.userByte_eq (h : m.PageRange lo hi) {a : Nat} (ha : 4096 * lo ≤ a)
    (ha' : a < 4096 * hi) : m.userByte a = some (m.view a) := by
  unfold userByte
  rw [translate_of_mapped (h.mapped (a / 4096) (by omega) (by omega))]
  have hdiv : (m.dataFrame (a / 4096) * 4096 + a % 4096) / 4096 = m.dataFrame (a / 4096) := by
    omega
  have hmod : (m.dataFrame (a / 4096) * 4096 + a % 4096) % 4096 = a % 4096 := by
    omega
  rw [Option.map_some, hdiv, hmod]
  rfl

/-- Writing to the frame of a page leaves the page tables alone. -/
theorem PageRange.setFrame (h : m.PageRange lo hi) {p : Nat} (hp : lo ≤ p) (hp' : p < hi)
    (bytes : Bytes) : (m.setFrame (m.dataFrame p) bytes).PageRange lo hi ∧
      ∀ a, 4096 * lo ≤ a → a < 4096 * hi → (m.setFrame (m.dataFrame p) bytes).view a
        = if a / 4096 = p then bytes (a % 4096) else m.view a := by
  have hpte : ∀ q, lo ≤ q → q < hi → (m.setFrame (m.dataFrame p) bytes).pte q = m.pte q := by
    intro q hq hq'
    exact pteOf_setFrame_ne (h.noTable p q hp hp' hq hq').symm
  have hframe : ∀ q, lo ≤ q → q < hi →
      (m.setFrame (m.dataFrame p) bytes).dataFrame q = m.dataFrame q := by
    intro q hq hq'
    exact congrArg frameOf (hpte q hq hq')
  refine ⟨⟨fun q hq hq' => ?_, fun q r hq hq' hr hr' => ?_, fun q r hq hq' hr hr' => ?_⟩,
    fun a ha ha' => ?_⟩
  · refine ⟨(h.mapped q hq hq').1, ?_⟩
    rw [hpte q hq hq']
    exact (h.mapped q hq hq').2
  · rw [hframe q hq hq', hframe r hr hr']
    exact h.apart q r hq hq' hr hr'
  · rw [hframe q hq hq']
    exact h.noTable q r hq hq' hr hr'
  · unfold view
    rw [hframe (a / 4096) (by omega) (by omega)]
    by_cases heq : a / 4096 = p
    · rw [if_pos heq, heq]
      show update m.phys (m.dataFrame p) bytes (m.dataFrame p) (a % 4096) = _
      rw [update_self]
    rw [if_neg heq]
    have hne : m.dataFrame (a / 4096) ≠ m.dataFrame p := fun hsame =>
      heq (h.apart _ _ (by omega) (by omega) hp hp' hsame)
    show update m.phys (m.dataFrame p) bytes (m.dataFrame (a / 4096)) (a % 4096) = _
    rw [update_of_ne hne]

end Machine

/-- The access is a write to a part of the range. -/
def Access.Inside (lo hi : Nat) : Access → Prop
  | .write addr len _ _ => lo ≤ addr ∧ addr + len ≤ hi
  | _ => False

/-- Bytes that were written at an address. -/
structure Wrote (lo hi vaddr : Nat) (data : List UInt8) (m m' : Machine) : Prop where
  range : m'.PageRange lo hi
  view : ∀ a, 4096 * lo ≤ a → a < 4096 * hi → m'.view a
    = if vaddr ≤ a ∧ a < vaddr + data.length then data.getD (a - vaddr) 0 else m.view a

/-- The loop over the pages is a write to flat memory. -/
theorem writeUserVirt_wrote {lo hi low high : Nat} (hword : 4096 * hi < 2 ^ 32) :
    ∀ {fuel : Nat} {m : Machine} {vaddr : Nat} {data : List UInt8}, m.PageRange lo hi →
      4096 * lo ≤ vaddr → vaddr + data.length ≤ 4096 * hi → low ≤ vaddr →
      vaddr + data.length ≤ high → data.length < fuel →
      Exact True (Access.Inside low high) (Wrote lo hi vaddr data m)
        (writeUserVirt fuel m vaddr data) := by
  intro fuel
  induction fuel with
  | zero =>
    intro m vaddr data _ _ _ _ _ hfuel
    omega
  | succ fuel ih =>
    intro m vaddr data h hlo hhi hlow hhigh hfuel
    unfold writeUserVirt
    by_cases hdata : data = []
    · rw [hdata]
      refine exact_pure ⟨h, fun a _ _ => ?_⟩
      rw [if_neg (by simp only [length_nil]; omega)]
    rw [if_neg hdata]
    have hlen : 0 < data.length := length_pos_iff.2 hdata
    obtain ⟨chunk, hchunk⟩ : ∃ chunk, chunk = min data.length (4096 - vaddr % 4096) := ⟨_, rfl⟩
    simp only [← hchunk]
    have hpage : lo ≤ vaddr / 4096 ∧ vaddr / 4096 < hi := by omega
    obtain ⟨hrange, hview⟩ := h.setFrame hpage.1 hpage.2
      (splice (vaddr % 4096) chunk (fun k => data.getD k 0) (m.phys (m.dataFrame (vaddr / 4096))))
    refine exact_bind_true (exact_emit.iff (iff_of_true ⟨hlow, by omega⟩ trivial)) fun _ _ => ?_
    rw [addW_ok (by omega)]
    refine exact_lift_bind ?_
    have hrest := ih hrange (show 4096 * lo ≤ vaddr + chunk by omega)
      (show vaddr + chunk + (data.drop chunk).length ≤ 4096 * hi by
        rw [length_drop]; omega) (by omega)
      (by rw [length_drop]; omega) (by rw [length_drop]; omega)
    refine ⟨hrest.1, fun _ m' hm' => ?_⟩
    obtain ⟨hrange', hview'⟩ := hrest.2 trivial m' hm'
    refine ⟨hrange', fun a ha ha' => ?_⟩
    rw [hview' a ha ha', hview a ha ha', length_drop]
    -- An address behind the first piece, in it, or in none of them.
    by_cases hbehind : vaddr + chunk ≤ a ∧ a < vaddr + data.length
    · rw [if_pos (by omega), if_pos (by omega), getD_eq_getElem?_getD, getElem?_drop,
        ← getD_eq_getElem?_getD, show chunk + (a - (vaddr + chunk)) = a - vaddr by omega]
    rw [if_neg (by omega)]
    by_cases hin : vaddr ≤ a ∧ a < vaddr + chunk
    · rw [if_pos (by omega), if_pos (by omega), splice_apply_in (by omega) (by omega),
        show a % 4096 - vaddr % 4096 = a - vaddr by omega]
    rw [if_neg (c := vaddr ≤ a ∧ a < vaddr + data.length) (by omega)]
    split
    · rename_i hsame
      rw [splice_apply_out (by omega), ← hsame]
      rfl
    · rfl

/-! ## A stack of pieces -/

/-- The range of a piece. -/
def pieceRange (r : Nat × List UInt8) : Nat × Nat := (r.1, r.2.length)

/-- The bytes of a piece are at its place. -/
def PieceAt (mem : Bytes) (r : Nat × List UInt8) : Prop := toList r.1 r.2.length mem = r.2

/-- Pieces above a stack pointer that are apart from each other. -/
structure Placed (mem : Bytes) (sp top : Nat) (pieces : List (Nat × List UInt8)) : Prop where
  low : sp ≤ top
  within : ∀ r ∈ pieces, sp ≤ r.1 ∧ r.1 + r.2.length ≤ top
  apart : (pieces.map pieceRange).Pairwise Apart
  holds : ∀ r ∈ pieces, PieceAt mem r

variable {pieces : List (Nat × List UInt8)} {mem : Bytes} {sp top : Nat}

theorem Placed.lower {sp' : Nat}
    (h : Placed mem sp top pieces) (hsp : sp' ≤ sp) : Placed mem sp' top pieces where
  low := hsp.trans h.low
  within r hr := ⟨hsp.trans (h.within r hr).1, (h.within r hr).2⟩
  apart := h.apart
  holds := h.holds

theorem Placed.push {mem' : Bytes}
    (h : Placed mem sp top pieces) {data : List UInt8} (hlen : data.length ≤ sp)
    (hdata : PieceAt mem' (sp - data.length, data))
    (hsame : ∀ a, sp ≤ a → a < top → mem' a = mem a) :
    Placed mem' (sp - data.length) top ((sp - data.length, data) :: pieces) := by
  have hlow := h.low
  refine ⟨by omega, ?_, ?_, ?_⟩
  · refine forall_mem_cons.2 ⟨⟨Nat.le_refl _, by simp only; omega⟩, fun r hr => ?_⟩
    have := h.within r hr
    omega
  · rw [map_cons, pairwise_cons]
    refine ⟨fun b hb => ?_, h.apart⟩
    obtain ⟨r, hr, rfl⟩ := mem_map.1 hb
    have := (h.within r hr).1
    unfold Apart pieceRange
    simp only
    omega
  · refine forall_mem_cons.2 ⟨hdata, fun r hr => ?_⟩
    refine (toList_congr fun k hk hk' => ?_).trans (h.holds r hr)
    have := h.within r hr
    exact hsame k (by omega) (by omega)

/-- The stack of the new process, with what was pushed. -/
structure UserStack (sp : Nat) (pieces : List (Nat × List UInt8)) (m : Machine) : Prop where
  range : m.PageRange (userStackBottom / 4096) (userStackTop / 4096)
  placed : Placed m.view sp userStackTop pieces

section Push

variable {m : Machine} {sp : Nat} {pieces : List (Nat × List UInt8)}

/-- The accesses to the stack. -/
abbrev OnStack : Access → Prop := Access.Inside userStackBottom userStackTop

theorem pushBytes_exact (h : UserStack sp pieces m) (data : List UInt8)
    (hroom : userStackBottom + data.length ≤ sp) :
    Exact True OnStack (fun r => r.1 = sp - data.length ∧
      UserStack (sp - data.length) ((sp - data.length, data) :: pieces) r.2)
      (pushBytes data sp m) := by
  have hlow := h.placed.low
  have htop : 4096 * (userStackTop / 4096) = userStackTop := by decide
  unfold pushBytes
  rw [subW_ok (by omega)]
  refine exact_lift_bind (exact_bind_true (writeUserVirt_wrote (by decide) h.range
    (by omega) (by omega) (by omega) (by omega) (Nat.lt_succ_self _)) fun m' hm' => ?_)
  refine exact_pure ⟨rfl, hm'.range, h.placed.push (by omega) ?_ fun a ha ha' => ?_⟩
  · show toList (sp - data.length) data.length m'.view = data
    refine ext_getElem? fun k => ?_
    by_cases hk : k < data.length
    · rw [getElem?_toList hk, hm'.view _ (by omega) (by omega), if_pos (by omega),
        show sp - data.length + k - (sp - data.length) = k by omega,
        getD_eq_getElem?_getD, getElem?_eq_getElem hk]
      rfl
    · rw [getElem?_eq_none (by simp; omega), getElem?_eq_none (by omega)]
  · rw [hm'.view a (by omega) (by omega), if_neg (by omega)]

/-- The number of bytes of all strings. -/
def totalLength (strings : List (List UInt8)) : Nat := (strings.map List.length).sum

theorem pushStrings_exact (strings : List (List UInt8)) :
    ∀ {m : Machine} {sp : Nat} {pieces : List (Nat × List UInt8)}, UserStack sp pieces m →
      userStackBottom + totalLength strings ≤ sp →
      Exact True OnStack (fun r => r.1.length = strings.length ∧
        r.2.1 = sp - totalLength strings ∧
        UserStack r.2.1 (r.1.zip strings ++ pieces) r.2.2) (pushStrings strings sp m) := by
  intro m sp pieces h hroom
  unfold pushStrings
  induction strings with
  | nil => exact exact_pure ⟨rfl, rfl, h⟩
  | cons s rest ih =>
    have htotal : totalLength (s :: rest) = s.length + totalLength rest := by
      simp [totalLength]
    rw [foldrM_cons]
    refine exact_bind_true (ih (by omega)) fun ⟨addrs, sp₁, m₁⟩ ⟨hlen, hsp, hstack⟩ => ?_
    refine exact_bind_true (pushBytes_exact hstack s (by omega)) fun ⟨sp₂, m₂⟩ ⟨hsp₂, hstack₂⟩ => ?_
    simp only at hsp₂
    subst hsp₂
    refine exact_pure ⟨by simp [hlen], ?_, hstack₂⟩
    simp only
    omega

/-- A table of words at an address. -/
def wordPieces : Nat → List Nat → List (Nat × List UInt8)
  | _, [] => []
  | a, w :: rest => (a, leBytes (UInt32.ofNat w)) :: wordPieces (a + 4) rest

theorem wordPieces_append (a : Nat) (xs ys : List Nat) :
    wordPieces a (xs ++ ys) = wordPieces a xs ++ wordPieces (a + 4 * xs.length) ys := by
  induction xs generalizing a with
  | nil => rfl
  | cons w rest ih =>
    rw [cons_append, wordPieces, ih,
      show a + 4 + 4 * rest.length = a + 4 * (rest.length + 1) by omega]
    rfl

theorem length_leBytes (w : UInt32) : (leBytes w).length = 4 := by
  simp [leBytes]

theorem pushWord_exact (h : UserStack sp pieces m) (w : Nat) (hroom : userStackBottom + 4 ≤ sp) :
    Exact True OnStack (fun r => r.1 = sp - 4 ∧
      UserStack (sp - 4) (wordPieces (sp - 4) [w] ++ pieces) r.2)
      (pushWord (UInt32.ofNat w) sp m) := by
  have hpush := pushBytes_exact h (leBytes (UInt32.ofNat w)) (by rw [length_leBytes]; exact hroom)
  exact hpush

theorem pushWords_exact (words : List Nat) :
    ∀ {m : Machine} {sp : Nat} {pieces : List (Nat × List UInt8)}, UserStack sp pieces m →
      userStackBottom + 4 * words.length ≤ sp →
      Exact True OnStack (fun r => r.1 = sp - 4 * words.length ∧
        UserStack r.1 (wordPieces r.1 words ++ pieces) r.2) (pushWords words sp m) := by
  intro m sp pieces h hroom
  unfold pushWords
  induction words with
  | nil => exact exact_pure ⟨rfl, h⟩
  | cons w rest ih =>
    rw [length_cons] at hroom
    rw [foldrM_cons]
    refine exact_bind_true (ih (by omega)) fun ⟨sp₁, m₁⟩ ⟨hsp, hstack⟩ => ?_
    have hpush := pushWord_exact hstack w (by omega)
    refine ⟨hpush.1, fun _ r hr => ?_⟩
    obtain ⟨hr₁, hr₂⟩ := hpush.2 trivial r hr
    rw [hr₁]
    refine ⟨by rw [length_cons]; omega, ?_⟩
    have hnext : sp₁ - 4 + 4 = sp₁ := by omega
    rw [wordPieces, hnext]
    exact hr₂

end Push

/-! ## The contents of the initial stack -/

/-- The memory of a process as it reads it. -/
def Machine.userMemory (m : Machine) : Bytes := fun a => (m.userByte a).getD 0

/-- The words of the initial stack, from the lowest address on. -/
def stackWords (argc : Nat) (argAddrs envAddrs : List Nat) : List Nat :=
  argc :: (argAddrs ++ 0 :: (envAddrs ++ [0]))

/-- The table of words and the strings, each with its address and its length. -/
def stackRegions (sp : Nat) (argAddrs envAddrs : List Nat) (argv envp : List (List UInt8)) :
    List (Nat × Nat) :=
  (sp, 4 * (stackWords argv.length argAddrs envAddrs).length) ::
    (argAddrs.zip argv ++ envAddrs.zip envp).map pieceRange

/-- Reading from `sp` on gives the number of arguments, the pointers to them, a null,
the pointers to the environment and a null; every pointer leads to its string, and
no two regions overlap. -/
structure Decodes (m : Machine) (sp : Nat) (argAddrs envAddrs : List Nat)
    (argv envp : List (List UInt8)) : Prop where
  argLength : argAddrs.length = argv.length
  envLength : envAddrs.length = envp.length
  words : ∀ i w, (stackWords argv.length argAddrs envAddrs)[i]? = some w →
    (get32 (sp + 4 * i) m.userMemory).toNat = w
  strings : ∀ r ∈ argAddrs.zip argv ++ envAddrs.zip envp, PieceAt m.userMemory r
  apart : (stackRegions sp argAddrs envAddrs argv envp).Pairwise Apart
  inside : ∀ r ∈ stackRegions sp argAddrs envAddrs argv envp,
    userStackBottom ≤ r.1 ∧ r.1 + r.2 ≤ userStackTop
  mapped : ∀ a, userStackBottom ≤ a → a < userStackTop → (m.translate a).isSome = true

theorem PieceAt.get32_eq {a w : Nat} (hw : w < 2 ^ 32)
    (h : PieceAt mem (a, leBytes (UInt32.ofNat w))) : (get32 a mem).toNat = w := by
  have hbytes : ∀ i, i < 4 → mem (a + i) = UInt8.ofNat (w / 256 ^ i) := by
    intro i hi
    have hlist : toList a 4 mem = leBytes (UInt32.ofNat w) := by
      have := h
      unfold PieceAt at this
      rwa [length_leBytes] at this
    have hget := getElem?_toList (o := a) (f := mem) hi
    rw [hlist] at hget
    unfold leBytes at hget
    rw [getElem?_map, getElem?_range hi, UInt32.toNat_ofNat_of_lt' hw] at hget
    exact (Option.some.inj hget).symm
  unfold get32
  rw [getLe_eq_of_bytes hw hbytes, UInt32.toNat_ofNat_of_lt' hw]

theorem mem_wordPieces {a i w : Nat} {words : List Nat} (h : words[i]? = some w) :
    (a + 4 * i, leBytes (UInt32.ofNat w)) ∈ wordPieces a words := by
  induction words generalizing a i with
  | nil => cases h
  | cons v rest ih =>
    cases i with
    | zero =>
      cases h
      exact mem_cons_self
    | succ i =>
      refine mem_cons_of_mem _ ?_
      rw [show a + 4 * (i + 1) = a + 4 + 4 * i by omega]
      exact ih h

theorem totalLength_le {strings : List (List UInt8)} {n bound : Nat} (hcount : strings.length ≤ n)
    (hlen : ∀ s ∈ strings, s.length ≤ bound) : totalLength strings ≤ n * bound := by
  have hsum := sum_le_card_nsmul (strings.map length) bound (forall_mem_map.2 hlen)
  rw [length_map] at hsum
  exact hsum.trans (Nat.mul_le_mul_right _ hcount)

variable {m : Machine}

/-- The stack before the words are written: the strings lie above the stack pointer. -/
theorem setupStrings_exact {argv envp : List (List UInt8)}
    (hm : m.PageRange (userStackBottom / 4096) (userStackTop / 4096))
    (hroom : userStackBottom + totalLength argv + totalLength envp ≤ userStackTop) :
    Exact True OnStack (fun r => r.1.length = argv.length ∧ r.2.1.length = envp.length ∧
        r.2.2.1 = userStackTop - totalLength envp - totalLength argv ∧
        UserStack r.2.2.1 (r.1.zip argv ++ r.2.1.zip envp) r.2.2.2)
      (do
        let (envAddrs, sp, m) ← pushStrings envp userStackTop m
        let (argAddrs, sp, m) ← pushStrings argv sp m
        pure (argAddrs, envAddrs, sp, m)) := by
  have hstart : UserStack userStackTop [] m :=
    ⟨hm, Nat.le_refl _, fun _ hr => (nomatch hr), .nil, fun _ hr => (nomatch hr)⟩
  refine exact_bind_true (pushStrings_exact envp hstart (by omega))
    fun ⟨envAddrs, sp₁, m₁⟩ ⟨henv, hsp₁, hstack₁⟩ => ?_
  simp only at hsp₁
  rw [append_nil] at hstack₁
  refine exact_bind_true (pushStrings_exact argv hstack₁ (by omega))
    fun ⟨argAddrs, sp₂, m₂⟩ ⟨harg, hsp₂, hstack₂⟩ => ?_
  simp only at hsp₂
  exact exact_pure ⟨harg, henv, by simp only; omega, hstack₂⟩

theorem setupWords_exact (argc : Nat)
    (argAddrs envAddrs : List Nat) (h : UserStack sp pieces m)
    (hroom : userStackBottom + 4 * (stackWords argc argAddrs envAddrs).length ≤ sp) :
    Exact True OnStack (fun r => r.1 = sp - 4 * (stackWords argc argAddrs envAddrs).length ∧
        UserStack r.1 (wordPieces r.1 (stackWords argc argAddrs envAddrs) ++ pieces) r.2)
      (do
        let (sp, m) ← pushWord 0 sp m
        let (sp, m) ← pushWords envAddrs sp m
        let (sp, m) ← pushWord 0 sp m
        let (sp, m) ← pushWords argAddrs sp m
        pushWord (UInt32.ofNat argc) sp m) := by
  have hlength : (stackWords argc argAddrs envAddrs).length
      = argAddrs.length + envAddrs.length + 3 := by
    simp [stackWords]
    omega
  refine exact_bind_true (pushWord_exact h 0 (by omega)) fun ⟨sp₁, m₁⟩ ⟨hsp₁, h₁⟩ => ?_
  subst hsp₁
  refine exact_bind_true (pushWords_exact envAddrs h₁ (by omega)) fun ⟨sp₂, m₂⟩ ⟨hsp₂, h₂⟩ => ?_
  refine exact_bind_true (pushWord_exact h₂ 0 (by omega)) fun ⟨sp₃, m₃⟩ ⟨hsp₃, h₃⟩ => ?_
  subst hsp₃
  refine exact_bind_true (pushWords_exact argAddrs h₃ (by omega)) fun ⟨sp₄, m₄⟩ ⟨hsp₄, h₄⟩ => ?_
  have hlast := pushWord_exact h₄ argc (by omega)
  refine ⟨hlast.1, fun _ r hr => ?_⟩
  obtain ⟨hr₁, hr₂⟩ := hlast.2 trivial r hr
  -- The five tables are one.
  have htable : wordPieces (sp₄ - 4) (stackWords argc argAddrs envAddrs) ++ pieces
      = wordPieces (sp₄ - 4) [argc] ++ (wordPieces sp₄ argAddrs ++ (wordPieces (sp₂ - 4) [0] ++
        (wordPieces sp₂ envAddrs ++ (wordPieces (sp - 4) [0] ++ pieces)))) := by
    unfold stackWords
    rw [wordPieces, wordPieces_append, wordPieces, wordPieces_append,
      show sp₄ - 4 + 4 = sp₄ by omega, show sp₄ + 4 * argAddrs.length = sp₂ - 4 by omega,
      show sp₂ - 4 + 4 = sp₂ by omega, show sp₂ + 4 * envAddrs.length = sp - 4 by omega]
    simp only [wordPieces, cons_append, nil_append, append_assoc]
  rw [hr₁, htable]
  exact ⟨by omega, hr₂⟩

theorem setupUserStack_eq (stackTop : Nat) (argv envp : List (List UInt8)) :
    setupUserStack m stackTop argv envp = (do
      let (argAddrs, envAddrs, sp, m) ← (do
        let (envAddrs, sp, m) ← pushStrings envp stackTop m
        let (argAddrs, sp, m) ← pushStrings argv sp m
        pure (argAddrs, envAddrs, sp, m))
      let sp := sp / 16 * 16
      let (sp, m) ← pushWord 0 sp m
      let (sp, m) ← pushWords envAddrs sp m
      let (sp, m) ← pushWord 0 sp m
      let (sp, m) ← pushWords argAddrs sp m
      pushWord (UInt32.ofNat argv.length) sp m) := by
  unfold setupUserStack
  simp only [bind_assoc, pure_bind]

theorem exists_mem_zip {α β : Type} {xs : List α} {ys : List β} (hlen : xs.length = ys.length)
    {a : α} (ha : a ∈ xs) : ∃ b, (a, b) ∈ xs.zip ys := by
  rw [← map_fst_zip (Nat.le_of_eq hlen)] at ha
  obtain ⟨⟨a', b⟩, hmem, rfl⟩ := mem_map.1 ha
  exact ⟨b, hmem⟩

/-- The stack that was built is the one that is wanted. -/
theorem UserStack.decodes {argc : Nat} {argAddrs envAddrs : List Nat}
    {argv envp : List (List UInt8)} (hargc : argc = argv.length) (hsmall : argc < 2 ^ 32)
    (harg : argAddrs.length = argv.length) (henv : envAddrs.length = envp.length)
    (hbottom : userStackBottom ≤ sp)
    (hstack : UserStack sp (wordPieces sp (stackWords argc argAddrs envAddrs) ++
      (argAddrs.zip argv ++ envAddrs.zip envp)) m)
    (habove : ∀ r ∈ argAddrs.zip argv ++ envAddrs.zip envp,
      sp + 4 * (stackWords argc argAddrs envAddrs).length ≤ r.1)
    (hend : sp + 4 * (stackWords argc argAddrs envAddrs).length ≤ userStackTop) :
    Decodes m sp argAddrs envAddrs argv envp := by
  subst hargc
  have htop : 4096 * (userStackTop / 4096) = userStackTop := by decide
  have hmemory : ∀ a, userStackBottom ≤ a → a < userStackTop → m.userMemory a = m.view a := by
    intro a ha ha'
    unfold Machine.userMemory
    rw [hstack.range.userByte_eq (by omega) (by omega)]
    rfl
  have hpieces : ∀ r ∈ wordPieces sp (stackWords argv.length argAddrs envAddrs) ++
      (argAddrs.zip argv ++ envAddrs.zip envp), PieceAt m.userMemory r := by
    intro r hr
    have hr' := hstack.placed.within r hr
    refine (toList_congr fun k hk hk' => ?_).trans (hstack.placed.holds r hr)
    exact hmemory k (by omega) (by omega)
  obtain ⟨-, hstrings, hcross⟩ := pairwise_append.1
    (map_append ▸ hstack.placed.apart)
  refine ⟨harg, henv, fun i w hw => ?_, fun r hr => ?_, ?_, ?_, fun a ha ha' => ?_⟩
  · have haddr : ∀ a, a ∈ argAddrs ∨ a ∈ envAddrs → a < 2 ^ 32 := by
      -- The addresses are those of strings on the stack.
      intro a ha
      obtain ⟨x, hx⟩ : ∃ x, (a, x) ∈ argAddrs.zip argv ++ envAddrs.zip envp := by
        simp only [mem_append, exists_or]
        exact ha.imp (exists_mem_zip harg) (exists_mem_zip henv)
      have := hstack.placed.within (a, x) (mem_append_right _ hx)
      unfold userStackTop at this
      omega
    have hlt : w < 2 ^ 32 := by
      have hmem := mem_of_getElem? hw
      simp only [stackWords, mem_cons, mem_append, not_mem_nil, or_false] at hmem
      rcases hmem with rfl | harg | rfl | henv | rfl
      · exact hsmall
      · exact haddr w (.inl harg)
      · decide
      · exact haddr w (.inr henv)
      · decide
    exact (hpieces _ (mem_append_left _ (mem_wordPieces hw))).get32_eq hlt
  · exact hpieces r (mem_append_right _ hr)
  · refine pairwise_cons.2 ⟨fun b hb => ?_, hstrings⟩
    obtain ⟨r, hr, rfl⟩ := mem_map.1 hb
    exact .inl (habove r hr)
  · refine forall_mem_cons.2 ⟨⟨hbottom, hend⟩, fun b hb => ?_⟩
    obtain ⟨r, hr, rfl⟩ := mem_map.1 hb
    have := hstack.placed.within r (mem_append_right _ hr)
    exact ⟨hbottom.trans this.1, this.2⟩
  · rw [Machine.translate_of_mapped (hstack.range.mapped _ (by omega) (by omega))]
    rfl

theorem setupUserStack_exact (argv envp : List (List UInt8))
    (hm : m.PageRange (userStackBottom / 4096) (userStackTop / 4096))
    (hargc : argv.length ≤ 64) (henvc : envp.length ≤ 64)
    (hargs : ∀ s ∈ argv, s.length ≤ 257) (henvs : ∀ s ∈ envp, s.length ≤ 513) :
    Exact True OnStack (fun r => ∃ argAddrs envAddrs, Decodes r.2 r.1 argAddrs envAddrs argv envp)
      (setupUserStack m userStackTop argv envp) := by
  have hargLen := totalLength_le hargc hargs
  have henvLen := totalLength_le henvc henvs
  have hsize : userStackTop = userStackBottom + 131072 := by decide
  rw [setupUserStack_eq]
  refine exact_bind_true (setupStrings_exact hm (by omega))
    fun ⟨argAddrs, envAddrs, sp₁, m₁⟩ ⟨harg, henv, hsp₁, hstack₁⟩ => ?_
  simp only at harg henv hsp₁
  have hlength : (stackWords argv.length argAddrs envAddrs).length
      = argv.length + envp.length + 3 := by
    simp [stackWords]
    omega
  have haligned : UserStack (sp₁ / 16 * 16) (argAddrs.zip argv ++ envAddrs.zip envp) m₁ :=
    ⟨hstack₁.range, hstack₁.placed.lower (by omega)⟩
  have hwords := setupWords_exact argv.length argAddrs envAddrs haligned (by omega)
  refine ⟨hwords.1, fun _ r hr => ⟨argAddrs, envAddrs, ?_⟩⟩
  obtain ⟨hr₁, hr₂⟩ := hwords.2 trivial r hr
  refine hr₂.decodes rfl (by omega) harg henv (by omega) (fun p hp => ?_) (by omega)
  have := (hstack₁.placed.within p hp).1
  omega

/-- The initial stack of at most 64 arguments and 64 strings of the environment is
written to the stack of the process only, and decodes to them. -/
theorem setup_user_stack_decodes (hm : m.PageRange (userStackBottom / 4096) (userStackTop / 4096))
    (argv : List (CStr 256)) (envp : List (CStr 512)) (hargc : argv.length ≤ 64)
    (henvc : envp.length ≤ 64) :
    Good OnStack (setupUserStack m userStackTop (argv.map CStr.bytes) (envp.map CStr.bytes)) ∧
      ∀ sp m', (setupUserStack m userStackTop (argv.map CStr.bytes) (envp.map CStr.bytes)).res
          = .ok (sp, m') → ∃ argAddrs envAddrs,
        Decodes m' sp argAddrs envAddrs (argv.map CStr.bytes) (envp.map CStr.bytes) := by
  have hexact := setupUserStack_exact (argv.map CStr.bytes) (envp.map CStr.bytes) hm
    (by simpa using hargc) (by simpa using henvc)
    (by simpa using fun s _ => CStr.length_bytes s)
    (by simpa using fun s _ => CStr.length_bytes s)
  exact ⟨hexact.1.2 trivial, fun sp m' hres => hexact.2 trivial (sp, m') hres⟩

/-- So does the one of the strings that the caller of the system call passes. -/
theorem readExecStrings_decodes
    (hm : m.PageRange (userStackBottom / 4096) (userStackTop / 4096)) (mem : Nat → UInt8)
    (argc argv envc envp : Nat) {args envs}
    (hread : readExecStrings mem argc argv envc envp = (args, envs)) :
    Exact True OnStack (fun r => ∃ argAddrs envAddrs, Decodes r.2 r.1 argAddrs envAddrs
        (args.map CStr.bytes) (envs.map CStr.bytes))
      (setupUserStack m userStackTop (args.map CStr.bytes) (envs.map CStr.bytes)) := by
  obtain ⟨hargs, henvs⟩ := Prod.mk.inj hread
  exact setupUserStack_exact _ _ hm (by simpa [← hargs] using length_capped mem 256 argc argv)
    (by simpa [← henvs] using length_capped mem 512 envc envp)
    (by simpa using fun s _ => CStr.length_bytes s)
    (by simpa using fun s _ => CStr.length_bytes s)

/-- A directory in which nothing but the stack is mapped. -/
def stackMachine : Machine where
  entries i := if i = 767 then entry 5 tableFlags else 0
  phys f := if f = 5 then putWords 0 1024 (fun k => entry (1000 + k) pageFlags) (fun _ => 0)
    else fun _ => 0
  frames := ⟨0x2800, [], 0x4000, fun _ => false⟩

theorem stackMachine_range :
    stackMachine.PageRange (userStackBottom / 4096) (userStackTop / 4096) := by
  have hindex : ∀ p, userStackBottom / 4096 ≤ p → p < userStackTop / 4096 → p / 1024 = 767 := by
    intro p hp hp'
    unfold userStackBottom userStackPages userStackTop at *
    omega
  have htable : frameOf (stackMachine.entries 767) = 5 := frameOf_entry (by decide) (by decide)
  have hpte : ∀ p, userStackBottom / 4096 ≤ p → p < userStackTop / 4096 →
      stackMachine.pte p = entry (1000 + p % 1024) pageFlags := by
    intro p hp hp'
    unfold Machine.pte Machine.pteOf
    rw [hindex p hp hp', htable]
    have := get32_putWords (o := 0) (n := 1024) (i := p % 1024)
      (v := fun k => entry (1000 + k) pageFlags) (f := fun _ => 0) (by omega)
    rwa [Nat.zero_add] at this
  have hframe : ∀ p, userStackBottom / 4096 ≤ p → p < userStackTop / 4096 →
      stackMachine.dataFrame p = 1000 + p % 1024 := by
    intro p hp hp'
    unfold Machine.dataFrame
    rw [hpte p hp hp', frameOf_entry (by omega) (by decide)]
  refine ⟨fun p hp hp' => ⟨?_, ?_⟩, fun p q hp hp' hq hq' heq => ?_, fun p q hp hp' hq hq' => ?_⟩
  · rw [hindex p hp hp']
    exact isTable_entry 5
  · rw [hpte p hp hp']
    exact present_entry_page _
  · rw [hframe p hp hp', hframe q hq hq'] at heq
    have := hindex p hp hp'
    have := hindex q hq hq'
    omega
  · rw [hframe p hp hp', Machine.tableFrame, hindex q hq hq']
    omega

/-- The arguments `sh -c`. -/
def sampleArgs : List (CStr 256) :=
  [⟨[115, 104], by decide, by decide⟩, ⟨[45, 99], by decide, by decide⟩]

theorem setup_user_stack_decodes_sample :
    stackMachine.PageRange (userStackBottom / 4096) (userStackTop / 4096) ∧
      (sampleArgs.length ≤ 64 ∧ ([] : List (CStr 512)).length ≤ 64) ∧
      Good OnStack (setupUserStack stackMachine userStackTop (sampleArgs.map CStr.bytes) []) :=
  ⟨stackMachine_range, by decide,
    (setup_user_stack_decodes stackMachine_range sampleArgs [] (by decide) (by decide)).1⟩

theorem readExecStrings_decodes_sample : Good OnStack (setupUserStack stackMachine userStackTop
    ((readExecStrings (fun _ => 1) 1 4 0 0).1.map CStr.bytes) []) :=
  (readExecStrings_decodes stackMachine_range (fun _ => 1) 1 4 0 0 rfl).1.2 trivial

end Felix.Memory
