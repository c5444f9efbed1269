import Felix.Ext2.File
import Felix.Ext2.Volume

/-!
# The blocks of a file

A file owns blocks in several roles: the blocks of its data, the table of the
single indirect pointers, and the tables of the double and triple indirect
ones.  `Slot` names the roles and `slot` says which block fills each of them,
zero if none does.  `Mapped` is the invariant of a file: every block in a slot
is a data block of the volume that the bitmap marks, and no block fills two
slots.

A file only grows by putting a fresh block into an empty slot.  This is
`Mapped.of_update`, and the three places where `ensure_file_block` allocates
are instances of it.

Whatever the blocks of an inode are, `resolve_block` follows its pointers
through the blocks of the disk.  `resolveBlock_finds` says where it stops: the
number of blocks behind three tables does not fit a word if a block has more
than 4096 bytes, and the sector number of a table may not fit one.
-/

namespace Felix

open Bytes Res Vol

/-- An entry of a table of pointers.  A table that is missing has none. -/
def Vol.entry (v : Vol) (table : UInt32) (i : Nat) : UInt32 :=
  if table = 0 then 0 else get32 (i * 4) (v.block table.toNat)

/-- The roles of the blocks of a file. -/
inductive Slot where
  | data (i : Nat)
  | table
  | double
  | doubleEntry (i : Nat)
  | triple
  | tripleEntry (i : Nat)
  | tripleLeaf (i j : Nat)
  deriving DecidableEq

def Slot.isTable : Slot → Bool
  | .data _ => false
  | _ => true

/-- The tables that `ensure_file_block` never touches. -/
def Slot.isUpper : Slot → Bool
  | .data _ => false
  | .table => false
  | _ => true

namespace Ext2

section

variable (fs : Ext2) (v : Vol) (inode : Ext2Inode)

/-- The pointer to a block of the file behind the single indirect ones. -/
def farPtr (offset : Nat) : UInt32 :=
  let numPtrs := fs.blockSize / 4
  if offset < numPtrs * numPtrs then
    v.entry (v.entry (inode.ptr 13) (offset / numPtrs)) (offset % numPtrs)
  else
    let offset := offset - numPtrs * numPtrs
    if offset < numPtrs * numPtrs * numPtrs then
      v.entry (v.entry (v.entry (inode.ptr 14) (offset / (numPtrs * numPtrs)))
        (offset / numPtrs % numPtrs)) (offset % numPtrs)
    else 0

/-- The pointer to block `i` of the file. -/
def blockPtr (i : Nat) : UInt32 :=
  if i < 12 then inode.ptr i
  else if i - 12 < fs.blockSize / 4 then v.entry (inode.ptr 12) (i - 12)
  else fs.farPtr v inode (i - 12 - fs.blockSize / 4)

/-- The block in a slot. -/
def slot : Slot → UInt32
  | .data i => fs.blockPtr v inode i
  | .table => inode.ptr 12
  | .double => inode.ptr 13
  | .doubleEntry i => v.entry (inode.ptr 13) i
  | .triple => inode.ptr 14
  | .tripleEntry i => v.entry (inode.ptr 14) i
  | .tripleLeaf i j => v.entry (v.entry (inode.ptr 14) i) j

/-- The bytes of block `i` of the file.  A block that is missing is zeros. -/
def fileBlock (i : Nat) : Bytes :=
  if fs.blockPtr v inode i = 0 then fun _ => 0 else v.block (fs.blockPtr v inode i).toNat

/-- The tables on the way to block `i` of the file. -/
def tables (i : Nat) : List UInt32 :=
  let numPtrs := fs.blockSize / 4
  if i < 12 then []
  else if i - 12 < numPtrs then [inode.ptr 12]
  else
    let offset := i - 12 - numPtrs
    if offset < numPtrs * numPtrs then
      [inode.ptr 13, v.entry (inode.ptr 13) (offset / numPtrs)]
    else
      let offset := offset - numPtrs * numPtrs
      if offset < numPtrs * numPtrs * numPtrs then
        let first := v.entry (inode.ptr 14) (offset / (numPtrs * numPtrs))
        [inode.ptr 14, first, v.entry first (offset / numPtrs % numPtrs)]
      else []

/-- The tables of a file are blocks of the volume. -/
def TablesOn (g : Geometry) : Prop :=
  ∀ s, s.isTable = true → fs.slot v inode s ≠ 0 → fs.DataBlock g (fs.slot v inode s).toNat

/-- The blocks of a file are data blocks in use, each in one role. -/
structure Mapped (g : Geometry) : Prop where
  block : ∀ s, fs.slot v inode s ≠ 0 →
    fs.DataBlock g (fs.slot v inode s).toNat ∧ fs.Marked v g (fs.slot v inode s).toNat
  apart : ∀ s s', fs.slot v inode s ≠ 0 → fs.slot v inode s = fs.slot v inode s' → s = s'

end

variable {fs : Ext2} {g : Geometry} {disk : Disk} {v v' : Vol} {inode inode' : Ext2Inode} {i : Nat}

/-! ## Slots that change and slots that do not -/

theorem entry_congr {table : UInt32}
    (h : table ≠ 0 → v'.block table.toNat = v.block table.toNat) :
    v'.entry table i = v.entry table i := by
  unfold entry
  by_cases hz : table = 0
  · rw [if_pos hz, if_pos hz]
  · rw [if_neg hz, if_neg hz, h hz]

/-- What lies behind the upper tables is a function of them. -/
structure SameUpper (fs : Ext2) (v v' : Vol) (inode inode' : Ext2Inode) : Prop where
  double : inode'.ptr 13 = inode.ptr 13
  triple : inode'.ptr 14 = inode.ptr 14
  block : ∀ s, s.isUpper = true → fs.slot v inode s ≠ 0 →
    v'.block (fs.slot v inode s).toNat = v.block (fs.slot v inode s).toNat

namespace SameUpper

variable (h : SameUpper fs v v' inode inode')
include h

theorem doubleEntry (i : Nat) : v'.entry (inode'.ptr 13) i = v.entry (inode.ptr 13) i := by
  rw [h.double]
  exact entry_congr (h.block .double rfl)

theorem doubleData (i j : Nat) :
    v'.entry (v'.entry (inode'.ptr 13) i) j = v.entry (v.entry (inode.ptr 13) i) j := by
  rw [h.doubleEntry i]
  exact entry_congr (h.block (.doubleEntry i) rfl)

theorem tripleEntry (i : Nat) : v'.entry (inode'.ptr 14) i = v.entry (inode.ptr 14) i := by
  rw [h.triple]
  exact entry_congr (h.block .triple rfl)

theorem tripleLeaf (i j : Nat) :
    v'.entry (v'.entry (inode'.ptr 14) i) j = v.entry (v.entry (inode.ptr 14) i) j := by
  rw [h.tripleEntry i]
  exact entry_congr (h.block (.tripleEntry i) rfl)

theorem tripleData (i j k : Nat) : v'.entry (v'.entry (v'.entry (inode'.ptr 14) i) j) k
      = v.entry (v.entry (v.entry (inode.ptr 14) i) j) k := by
  rw [h.tripleLeaf i j]
  exact entry_congr (h.block (.tripleLeaf i j) rfl)

theorem slot_eq {s : Slot} (hs : s.isUpper = true) : fs.slot v' inode' s = fs.slot v inode s := by
  cases s with
  | data i => cases hs
  | table => cases hs
  | double => exact h.double
  | doubleEntry i => exact h.doubleEntry i
  | triple => exact h.triple
  | tripleEntry i => exact h.tripleEntry i
  | tripleLeaf i j => exact h.tripleLeaf i j

theorem farPtr_eq (offset : Nat) : fs.farPtr v' inode' offset = fs.farPtr v inode offset := by
  unfold farPtr
  simp only []
  rw [h.doubleData, h.tripleData]

end SameUpper

theorem slot_congr (hptr : ∀ i, inode'.ptr i = inode.ptr i)
    (hblock : ∀ s, (∀ i, s ≠ .data i) → fs.slot v inode s ≠ 0 →
      v'.block (fs.slot v inode s).toNat = v.block (fs.slot v inode s).toNat) :
    fs.slot v' inode' = fs.slot v inode := by
  have hup : SameUpper fs v v' inode inode' := by
    refine ⟨hptr 13, hptr 14, fun s hs => hblock s ?_⟩
    intro i heq
    rw [heq] at hs
    cases hs
  have htable : ∀ i, v'.entry (inode.ptr 12) i = v.entry (inode.ptr 12) i := fun i =>
    entry_congr (hblock .table fun i heq => by cases heq)
  funext s
  cases s with
  | data i =>
    show fs.blockPtr v' inode' i = fs.blockPtr v inode i
    unfold blockPtr
    rw [hptr i, hptr 12, hup.farPtr_eq, htable]
  | table => exact hptr 12
  | _ => exact hup.slot_eq rfl

variable {t : Slot} {b : UInt32}

/-- A fresh block goes into a slot. -/
theorem Mapped.of_update (h : fs.Mapped v inode g)
    (hslot : ∀ s, fs.slot v' inode' s = if s = t then b else fs.slot v inode s)
    (hdata : fs.DataBlock g b.toNat) (hfresh : ¬ fs.Marked v g b.toNat)
    (hmap : v'.blockMap = (v.takeBlock b.toNat).blockMap) : fs.Mapped v' inode' g := by
  have hmarked : ∀ c, fs.Marked (v.takeBlock b.toNat) g c → fs.Marked v' g c := by
    intro c hc hlo hhi
    rw [hmap]
    exact hc hlo hhi
  have hne : ∀ s, fs.slot v inode s ≠ 0 → fs.slot v inode s ≠ b := by
    intro s hs heq
    refine hfresh ?_
    rw [← heq]
    exact (h.block s hs).2
  refine ⟨fun s hs => ?_, fun s s' hs heq => ?_⟩
  · rw [hslot] at hs ⊢
    split at hs
    · rename_i heq
      rw [if_pos heq]
      exact ⟨hdata, hmarked _ (marked_takeBlock _)⟩
    rename_i hns
    rw [if_neg hns]
    exact ⟨(h.block s hs).1, hmarked _ (h.block s hs).2.of_ne⟩
  · have hb : b ≠ 0 := by
      intro hz
      have hpos := hdata.present.1
      rw [hz] at hpos
      cases hpos
    rw [hslot] at hs heq
    rw [hslot] at heq
    by_cases h1 : s = t
    · by_cases h2 : s' = t
      · rw [h1, h2]
      · rw [if_pos h1, if_neg h2] at heq
        exact absurd heq.symm (hne s' (by rw [← heq]; exact hb))
    rw [if_neg h1] at hs heq
    by_cases h2 : s' = t
    · rw [if_pos h2] at heq
      exact absurd heq (hne s hs)
    · rw [if_neg h2] at heq
      exact h.apart s s' hs heq

theorem slot_update (hup : SameUpper fs v v' inode inode')
    (ht : t.isUpper = false) (hnear : ∀ i, t = .data i → i < 12 + fs.blockSize / 4)
    (hdirect : ∀ i, i < 12 → inode'.ptr i = if .data i = t then b else inode.ptr i)
    (htable : inode'.ptr 12 = if .table = t then b else inode.ptr 12)
    (hentry : ∀ i, i < fs.blockSize / 4 → v'.entry (inode'.ptr 12) i
      = if .data (12 + i) = t then b else v.entry (inode.ptr 12) i) (s : Slot) :
    fs.slot v' inode' s = if s = t then b else fs.slot v inode s := by
  cases s with
  | data i =>
    show fs.blockPtr v' inode' i = if .data i = t then b else fs.blockPtr v inode i
    unfold blockPtr
    by_cases h12 : i < 12
    · rw [if_pos h12, if_pos h12]
      exact hdirect i h12
    rw [if_neg h12, if_neg h12]
    by_cases hsingle : i - 12 < fs.blockSize / 4
    · rw [if_pos hsingle, if_pos hsingle, hentry _ hsingle, Nat.add_sub_cancel' (by omega)]
    rw [if_neg hsingle, if_neg hsingle, hup.farPtr_eq, if_neg]
    intro heq
    have hlt := hnear i heq.symm
    omega
  | table => exact htable
  | _ =>
    rw [hup.slot_eq rfl, if_neg]
    intro heq
    rw [← heq] at ht
    cases ht

/-- A fresh block is in no slot. -/
theorem Mapped.ne_fresh (h : fs.Mapped v inode g) {b : Nat} (hfresh : ¬ fs.Marked v g b)
    {s : Slot} (hs : fs.slot v inode s ≠ 0) : (fs.slot v inode s).toNat ≠ b := by
  intro heq
  refine hfresh ?_
  rw [← heq]
  exact (h.block s hs).2

theorem Mapped.sameUpper (h : fs.Mapped v inode g) {b : Nat} (hfresh : ¬ fs.Marked v g b)
    (f : Bytes) (hdouble : inode'.ptr 13 = inode.ptr 13) (htriple : inode'.ptr 14 = inode.ptr 14) :
    SameUpper fs v ((v.takeBlock b).setBlock b f) inode inode' :=
  ⟨hdouble, htriple, fun _ _ hs => setBlock_block_ne _ _ _ (h.ne_fresh hfresh hs)⟩

/-! ## Files that hold the same bytes -/

/-- The second file holds the same bytes as the first, maybe in more blocks. -/
structure Extends (fs : Ext2) (g : Geometry) (v v' : Vol) (inode inode' : Ext2Inode) : Prop where
  mapped : fs.Mapped v' inode' g
  same : ∀ i, fs.fileBlock v' inode' i = fs.fileBlock v inode i
  kept : ∀ i, fs.blockPtr v inode i ≠ 0 → fs.blockPtr v' inode' i = fs.blockPtr v inode i
  rest : inode' = { inode with iBlock := inode'.iBlock }
  inodes : v'.inode = v.inode

theorem Extends.refl (h : fs.Mapped v inode g) : Extends fs g v v inode inode :=
  ⟨h, fun _ => rfl, fun _ _ => rfl, rfl, rfl⟩

theorem Extends.trans {v'' : Vol} {inode'' : Ext2Inode} (h : Extends fs g v v' inode inode')
    (h' : Extends fs g v' v'' inode' inode'') : Extends fs g v v'' inode inode'' := by
  refine ⟨h'.mapped, fun i => (h'.same i).trans (h.same i), fun i hi => ?_, ?_,
    h'.inodes.trans h.inodes⟩
  · have hkept := h.kept i hi
    rw [h'.kept i (by rw [hkept]; exact hi), hkept]
  · rw [h'.rest, h.rest]

/-- A zeroed block in an empty slot does not change what the file holds. -/
theorem Mapped.extends (h : fs.Mapped v inode g) (hempty : fs.slot v inode t = 0)
    (hslot : ∀ s, fs.slot v' inode' s = if s = t then b else fs.slot v inode s)
    (hdata : fs.DataBlock g b.toNat) (hfresh : ¬ fs.Marked v g b.toNat)
    (hmap : v'.blockMap = (v.takeBlock b.toNat).blockMap) (hzero : v'.block b.toNat = fun _ => 0)
    (hblocks : ∀ i, fs.blockPtr v inode i ≠ 0 →
      v'.block (fs.blockPtr v inode i).toNat = v.block (fs.blockPtr v inode i).toNat)
    (hrest : inode' = { inode with iBlock := inode'.iBlock }) (hinodes : v'.inode = v.inode) :
    Extends fs g v v' inode inode' := by
  refine ⟨h.of_update hslot hdata hfresh hmap, fun i => ?_, fun i hi => ?_, hrest, hinodes⟩
  · have hptr : fs.blockPtr v' inode' i = if .data i = t then b else fs.blockPtr v inode i :=
      hslot (.data i)
    unfold fileBlock
    rw [hptr]
    by_cases hs : .data i = t
    · have hold : fs.blockPtr v inode i = 0 := by
        rw [← hs] at hempty
        exact hempty
      rw [if_pos hs, if_pos hold, hzero, ite_self]
    rw [if_neg hs]
    by_cases hz : fs.blockPtr v inode i = 0
    · rw [if_pos hz, if_pos hz]
    · rw [if_neg hz, if_neg hz, hblocks i hz]
  · have hptr : fs.blockPtr v' inode' i = if .data i = t then b else fs.blockPtr v inode i :=
      hslot (.data i)
    rw [hptr, if_neg]
    intro hs
    rw [← hs] at hempty
    exact hi hempty

theorem Mapped.setBlock (h : fs.Mapped v inode g) (hi : fs.blockPtr v inode i ≠ 0)
    (f : Bytes) :
    fs.slot (v.setBlock (fs.blockPtr v inode i).toNat f) inode = fs.slot v inode ∧
      ∀ j, fs.fileBlock (v.setBlock (fs.blockPtr v inode i).toNat f) inode j
        = if j = i then f else fs.fileBlock v inode j := by
  have hne : ∀ s, s ≠ .data i → fs.slot v inode s ≠ 0 →
      (fs.slot v inode s).toNat ≠ (fs.blockPtr v inode i).toNat := by
    intro s hs hz heq
    exact hs (h.apart s (.data i) hz (UInt32.toNat_inj.1 heq))
  have hslot : fs.slot (v.setBlock (fs.blockPtr v inode i).toNat f) inode
      = fs.slot v inode := by
    refine slot_congr (fun _ => rfl) fun s hs hz => ?_
    exact setBlock_block_ne _ _ _ (hne s (hs i) hz)
  refine ⟨hslot, fun j => ?_⟩
  have hptr : fs.blockPtr (v.setBlock (fs.blockPtr v inode i).toNat f) inode j
      = fs.blockPtr v inode j := congrFun hslot (.data j)
  unfold fileBlock
  rw [hptr]
  by_cases hj : j = i
  · rw [if_pos hj, hj, if_neg hi, setBlock_block_self]
  rw [if_neg hj]
  by_cases hz : fs.blockPtr v inode j = 0
  · rw [if_pos hz, if_pos hz]
  rw [if_neg hz, if_neg hz, setBlock_block_ne]
  refine hne (.data j) ?_ hz
  intro heq
  cases heq
  exact hj rfl

/-- The volume after a fresh block went into the table of the file. -/
def withEntry (v : Vol) (inode : Ext2Inode) (b : Nat) (f : Bytes) : Vol :=
  ((v.takeBlock b).setBlock b fun _ => 0).setBlock (inode.ptr 12).toNat f

section Entry

variable (h : fs.Mapped v inode g) (htable : inode.ptr 12 ≠ 0) {i : Nat} {f : Bytes}
include h

theorem Mapped.withEntry_block {b : Nat} (hfresh : ¬ fs.Marked v g b) {s : Slot}
    (hs : fs.slot v inode s ≠ 0) (hne : s ≠ .table) :
    (withEntry v inode b f).block (fs.slot v inode s).toNat
      = v.block (fs.slot v inode s).toNat := by
  unfold withEntry
  rw [setBlock_block_ne, setBlock_block_ne, takeBlock_block]
  · exact h.ne_fresh hfresh hs
  · intro heq
    exact hne (h.apart s .table hs (UInt32.toNat_inj.1 heq))

include htable

theorem Mapped.slot_entry (hi : i < fs.blockSize / 4) {b : Nat} (hfresh : ¬ fs.Marked v g b)
    (hf : ∀ j, j < fs.blockSize / 4 → get32 (j * 4) f
      = if j = i then UInt32.ofNat b else get32 (j * 4) (v.block (inode.ptr 12).toNat))
    (s : Slot) :
    fs.slot (withEntry v inode b f) inode s
      = if s = .data (12 + i) then UInt32.ofNat b else fs.slot v inode s := by
  have hup : SameUpper fs v (withEntry v inode b f) inode inode := by
    refine ⟨rfl, rfl, fun s hs hs' => h.withEntry_block hfresh hs' ?_⟩
    intro heq
    rw [heq] at hs
    cases hs
  refine slot_update hup rfl (fun j heq => ?_) (fun j hj => ?_) ?_ (fun j hj => ?_) s
  · cases heq
    omega
  · rw [if_neg]
    intro heq
    cases heq
    omega
  · rw [if_neg (by simp)]
  unfold entry withEntry
  rw [if_neg htable, if_neg htable, setBlock_block_self, hf j hj]
  simp only [Slot.data.injEq, Nat.add_left_cancel_iff]

theorem Mapped.extends_entry (hempty : fs.blockPtr v inode (12 + i) = 0) {b : UInt32}
    (hdata : fs.DataBlock g b.toNat) (hfresh : ¬ fs.Marked v g b.toNat)
    (hslot : ∀ s, fs.slot (withEntry v inode b.toNat f) inode s
      = if s = .data (12 + i) then b else fs.slot v inode s) :
    Extends fs g v (withEntry v inode b.toNat f) inode inode := by
  have htb : (inode.ptr 12).toNat ≠ b.toNat := h.ne_fresh hfresh (s := .table) htable
  refine h.extends (t := .data (12 + i)) hempty hslot hdata hfresh rfl ?_ (fun j hj => ?_) rfl
    rfl
  · unfold withEntry
    rw [setBlock_block_ne _ _ _ (Ne.symm htb), setBlock_block_self]
  · exact h.withEntry_block hfresh (s := .data j) hj (by simp)

end Entry

theorem Mapped.tablesOn (h : fs.Mapped v inode g) : fs.TablesOn v inode g :=
  fun s _ hs => (h.block s hs).1

/-- The invariant depends on the slots and the bitmap only. -/
theorem Mapped.congr (h : fs.Mapped v inode g) (hslot : fs.slot v' inode' = fs.slot v inode)
    (hmap : v'.blockMap = v.blockMap) : fs.Mapped v' inode' g := by
  refine ⟨fun s hs => ?_, fun s s' hs heq => ?_⟩
  · rw [hslot] at hs ⊢
    refine ⟨(h.block s hs).1, ?_⟩
    unfold Marked
    rw [hmap]
    exact (h.block s hs).2
  · rw [hslot] at hs heq
    exact h.apart s s' hs heq

/-! ## Reading through the tables -/

section

variable (fs : Ext2)

/-- The blocks of the disk as they are.  The other fields play no part in a
lookup. -/
def raw (disk : Disk) : Vol where
  inode _ := .zeroed
  block := fs.block disk
  blockMap _ := 0
  inodeMap _ := 0

/-- The number of blocks behind three tables fits a word, or is not needed. -/
def Fits (i : Nat) : Prop :=
  fs.blockSize ≤ 4096 ∨ i < 12 + fs.blockSize / 4 + fs.blockSize / 4 * (fs.blockSize / 4)

/-- The disk has every table of the list that has a sector number. -/
def Served (disk : Disk) (ts : List UInt32) : Prop :=
  ∀ t ∈ ts, t ≠ 0 → fs.Addressable t.toNat → fs.OnDisk disk t.toNat

/-- The sector number of every table of the list fits a word. -/
def Reachable (ts : List UInt32) : Prop := ts.Forall fun t => t ≠ 0 → fs.Addressable t.toNat

end

/-- The lookup ends in `p` if the condition holds, and overflows otherwise. -/
def Finds (C : Prop) (p : UInt32) (r : Res (Option Nat)) : Prop :=
  (C → r = .ok (pointee p)) ∧ (¬ C → r = .error .overflow)

section

variable {C F : Prop} {p table : UInt32} {r : Res (Option Nat)} {buf : Buf} {entry : Nat}

theorem Finds.iff (h : Finds C p r) : r = .ok (pointee p) ↔ C := by
  refine ⟨fun heq => ?_, h.1⟩
  by_contra hC
  rw [h.2 hC] at heq
  cases heq

theorem Finds.and (hF : F) (h : Finds C p r) : Finds (F ∧ C) p r :=
  ⟨fun hFC => h.1 hFC.2, fun hFC => h.2 fun hC => hFC ⟨hF, hC⟩⟩

variable (hsize : fs.PowerSize)
include hsize

/-- A table on the disk is read into any buffer of one block.  A table that is missing acts
like one with no entries. -/
theorem throughTable_finds {next : Buf → UInt32 → Res (Option Nat)}
    (hlen : buf.len = fs.blockSize) (hentry : entry < fs.blockSize / 4)
    (hon : table ≠ 0 → fs.Addressable table.toNat → fs.OnDisk disk table.toNat)
    (hzero : table = 0 → C ∧ p = 0)
    (hnext : ∀ buf', buf'.len = fs.blockSize →
      Finds C p (next buf' ((fs.raw disk).entry table entry))) :
    Finds ((table ≠ 0 → fs.Addressable table.toNat) ∧ C) p
      (fs.throughTable disk table buf entry next) := by
  unfold throughTable
  by_cases hz : table = 0
  · rw [if_pos hz, (hzero hz).2]
    exact ⟨fun _ => rfl, fun h => absurd ⟨fun hne => absurd hz hne, (hzero hz).1⟩ h⟩
  rw [if_neg hz]
  by_cases ha : fs.Addressable table.toNat
  · rw [readBlocks_eq hsize ha, if_pos (hon hz ha), if_pos (by omega), ok_bind,
      Buf.word_ok (by simp only []; omega), ok_bind]
    have hword : get32 (entry * 4) (splice 0 fs.blockSize
        (shift (fs.blockLba table.toNat * 512) disk.data) buf.byte)
        = (fs.raw disk).entry table entry := by
      rw [Vol.entry, if_neg hz]
      refine get32_congr fun k hk hk' => ?_
      rw [splice_apply_in (by omega) (by omega), Nat.sub_zero, shift_apply]
      exact (if_pos ⟨hon hz ha, by omega⟩).symm
    rw [hword]
    exact .and (fun _ => ha) (hnext _ hlen)
  · rw [readBlocks_fault hsize ha, error_bind]
    exact ⟨fun h => absurd (h.1 hz) ha, fun _ => rfl⟩

theorem throughTable_leaf (hlen : buf.len = fs.blockSize) (hentry : entry < fs.blockSize / 4)
    (hon : table ≠ 0 → fs.Addressable table.toNat → fs.OnDisk disk table.toNat) :
    Finds (table ≠ 0 → fs.Addressable table.toNat) ((fs.raw disk).entry table entry)
      (fs.throughTable disk table buf entry fun _ p => .ok (pointee p)) := by
  rw [← and_true (table ≠ 0 → _)]
  exact throughTable_finds hsize hlen hentry hon (fun hz => ⟨trivial, if_pos hz⟩)
    fun _ _ => ⟨fun _ => rfl, fun h => absurd trivial h⟩

theorem mulW_square : mulW 32 (fs.blockSize / 4) (fs.blockSize / 4)
    = .ok (fs.blockSize / 4 * (fs.blockSize / 4)) := by
  obtain ⟨k, hk, hbs⟩ := hsize
  rw [hbs]
  refine mulW_ok ?_
  clear hbs
  revert k
  decide

theorem mulW_cube : mulW 32 (fs.blockSize / 4 * (fs.blockSize / 4)) (fs.blockSize / 4) =
    if fs.blockSize ≤ 4096 then
      .ok (fs.blockSize / 4 * (fs.blockSize / 4) * (fs.blockSize / 4))
    else .error .overflow := by
  obtain ⟨k, hk, hbs⟩ := hsize
  rw [hbs, mulW]
  clear hbs
  revert k
  decide

/-- What `resolve_block` returns on a disk that serves the tables. -/
theorem resolveBlock_finds (hserved : fs.Served disk (fs.tables (fs.raw disk) inode i)) :
    Finds (fs.Fits i ∧ fs.Reachable (fs.tables (fs.raw disk) inode i))
      (fs.blockPtr (fs.raw disk) inode i) (fs.resolveBlock disk inode i) := by
  have hpos : 0 < fs.blockSize / 4 := by
    have hsectors := hsize.sectors
    omega
  have hbuf := Buf.zeroed_len fs.blockSize
  unfold resolveBlock blockPtr tables Fits at *
  simp only [] at *
  by_cases hdirect : i < 12
  · simp only [if_pos hdirect]
    exact .and (.inr (by omega)) ⟨fun _ => rfl, fun h => absurd trivial h⟩
  simp only [if_neg hdirect] at *
  by_cases hsingle : i - 12 < fs.blockSize / 4
  · simp only [if_pos hsingle] at *
    exact .and (.inr (by omega)) (throughTable_leaf hsize hbuf hsingle (hserved _ (by simp)))
  unfold farPtr
  simp only [if_neg hsingle, mulW_square hsize, ok_bind] at *
  by_cases hdouble : i - 12 - fs.blockSize / 4 < fs.blockSize / 4 * (fs.blockSize / 4)
  · simp only [if_pos hdouble] at *
    refine .and (.inr (by omega)) (throughTable_finds hsize hbuf (Nat.div_lt_of_lt_mul hdouble)
      (hserved _ (by simp)) (fun hz => ?_) fun buf hlen =>
        throughTable_leaf hsize hlen (Nat.mod_lt _ hpos) (hserved _ (by simp)))
    rw [hz]
    exact ⟨fun hne => absurd rfl hne, rfl⟩
  simp only [if_neg hdouble, mulW_cube hsize] at *
  by_cases hsmall : fs.blockSize ≤ 4096
  swap
  · rw [if_neg hsmall, error_bind]
    exact ⟨fun h => by omega, fun _ => rfl⟩
  simp only [if_pos hsmall, ok_bind]
  by_cases htriple : i - 12 - fs.blockSize / 4 - fs.blockSize / 4 * (fs.blockSize / 4)
      < fs.blockSize / 4 * (fs.blockSize / 4) * (fs.blockSize / 4)
  swap
  · simp only [if_neg htriple]
    exact .and (.inl hsmall) ⟨fun _ => rfl, fun h => absurd trivial h⟩
  simp only [if_pos htriple] at *
  refine .and (.inl hsmall) (throughTable_finds hsize hbuf (Nat.div_lt_of_lt_mul htriple)
    (hserved _ (by simp)) (fun hz => ?_) fun buf hlen =>
      throughTable_finds hsize hlen (Nat.mod_lt _ hpos) (hserved _ (by simp)) (fun hz => ?_)
        fun buf hlen => throughTable_leaf hsize hlen (Nat.mod_lt _ hpos) (hserved _ (by simp)))
  · rw [hz]
    exact ⟨⟨fun hne => absurd rfl hne, fun hne => absurd rfl hne⟩, rfl⟩
  · rw [hz]
    exact ⟨fun hne => absurd rfl hne, rfl⟩

end

/-- The tables on the way to a block are blocks in slots. -/
theorem slot_of_mem_tables {t : UInt32} (h : t ∈ fs.tables v inode i) :
    ∃ s : Slot, s.isTable = true ∧ fs.slot v inode s = t := by
  unfold tables at h
  simp only [] at h
  split at h
  · cases h
  split at h
  · rw [List.mem_singleton.1 h]
    exact ⟨.table, rfl, rfl⟩
  split at h
  · rcases List.mem_pair.1 h with rfl | rfl
    · exact ⟨.double, rfl, rfl⟩
    · exact ⟨.doubleEntry _, rfl, rfl⟩
  split at h
  · rcases List.mem_cons.1 h with rfl | h
    · exact ⟨.triple, rfl, rfl⟩
    rcases List.mem_pair.1 h with rfl | rfl
    · exact ⟨.tripleEntry _, rfl, rfl⟩
    · exact ⟨.tripleLeaf _ _, rfl, rfl⟩
  · cases h

namespace Shows

variable (h : fs.Shows g disk v)
include h

theorem resolveBlock_eq (ht : fs.TablesOn v inode g) (i : Nat) :
    fs.resolveBlock disk inode i = .ok (pointee (fs.blockPtr v inode i)) := by
  have hsize := h.sound.mountable.size
  have hslot : fs.slot (fs.raw disk) inode = fs.slot v inode := by
    refine slot_congr (fun _ => rfl) fun s hs hne => ?_
    have hdata := ht s (by cases s <;> first | rfl | exact absurd rfl (hs _)) hne
    rw [← h.view, view_block (h.view ▸ hdata)]
    rfl
  have htable : ∀ t ∈ fs.tables (fs.raw disk) inode i, t ≠ 0 → fs.DataBlock g t.toNat := by
    intro t hmem hne
    obtain ⟨s, hs, rfl⟩ := slot_of_mem_tables hmem
    rw [hslot] at hne ⊢
    exact ht s hs hne
  have hfinds := resolveBlock_finds hsize.power
    fun t hmem hne _ => (htable t hmem hne).present.onDisk h.sectors
  rw [show fs.blockPtr (fs.raw disk) inode i = fs.blockPtr v inode i from
    congrFun hslot (.data i)] at hfinds
  exact hfinds.1 ⟨.inl hsize.bounds.2,
    List.forall_iff_forall_mem.2 fun t hmem hne => (htable t hmem hne).present.2.1⟩

/-! ## Allocating -/

theorem allocZeroed_eq :
    (fs.allocZeroed disk = .ok (none, disk) ∧ fs.freeBlocks v g = 0) ∨
    ∃ b disk', fs.allocZeroed disk = .ok (some b, disk') ∧ fs.DataBlock g b ∧
      ¬ fs.Marked v g b ∧ fs.Shows g disk' ((v.takeBlock b).setBlock b fun _ => 0) ∧
      fs.freeBlocks (v.takeBlock b) g + 1 = fs.freeBlocks v g := by
  unfold allocZeroed
  rcases h.allocBlock_fresh with ⟨hnone, hfull⟩ | ⟨b, disk₁, hsome, hdata, hfresh, h₁, hcount⟩
  · left
    rw [hnone]
    exact ⟨rfl, hfull⟩
  right
  obtain ⟨disk₂, hwrite, h₂⟩ := h₁.writeBlock_eq hdata fun _ => 0
  rw [cut_zero] at h₂
  refine ⟨b, disk₂, ?_, hdata, hfresh, h₂, hcount⟩
  rw [hsome]
  simp only [hwrite, ok_bind]

/-- A fresh block goes into slot `t` and the inode changes with it. -/
theorem extends_fresh (hm : fs.Mapped v inode g)
    {b : Nat} (hdata : fs.DataBlock g b) (hfresh : ¬ fs.Marked v g b)
    {t : Slot} (hempty : fs.slot v inode t = 0)
    (hslot : ∀ s, fs.slot ((v.takeBlock b).setBlock b fun _ => 0) inode' s
      = if s = t then UInt32.ofNat b else fs.slot v inode s)
    (hrest : inode' = { inode with iBlock := inode'.iBlock }) :
    Extends fs g v ((v.takeBlock b).setBlock b fun _ => 0)
      inode inode' := by
  have hb := h.toNat_ofNat hdata
  refine hm.extends hempty hslot (by rw [hb]; exact hdata) (by rw [hb]; exact hfresh)
    (by rw [hb]; rfl) ?_ (fun i hi => ?_) hrest rfl
  · rw [hb]
    exact setBlock_block_self _ _ _
  · exact setBlock_block_ne _ _ _ (hm.ne_fresh hfresh (s := .data i) hi)

/-- The table of the single indirect pointers is there, or it is made. -/
theorem ensureTable_eq (hm : fs.Mapped v inode g) :
    (fs.ensureTable disk inode = .ok (none, disk) ∧ inode.ptr 12 = 0 ∧
      fs.freeBlocks v g = 0) ∨
    ∃ inode' disk' v', fs.ensureTable disk inode = .ok (some inode', disk') ∧
      fs.Shows g disk' v' ∧ Extends fs g v v' inode inode' ∧
      (∀ i, fs.blockPtr v' inode' i = fs.blockPtr v inode i) ∧ inode'.ptr 12 ≠ 0 ∧
      fs.freeBlocks v' g + (if inode.ptr 12 = 0 then 1 else 0) = fs.freeBlocks v g := by
  unfold ensureTable
  by_cases hz : inode.ptr 12 = 0
  swap
  · rw [if_neg hz]
    exact .inr ⟨inode, disk, v, rfl, h, .refl hm, fun _ => rfl, hz,
      by rw [if_neg hz, Nat.add_zero]⟩
  rw [if_pos hz]
  rcases h.allocZeroed_eq with ⟨hnone, hfull⟩ | ⟨b, disk', hsome, hdata, hfresh, h', hcount⟩
  · left
    rw [hnone]
    exact ⟨rfl, hz, hfull⟩
  right
  have hb := h.toNat_ofNat hdata
  have hne := h.ofNat_ne_zero hdata
  -- the new table has no entries, and the missing one had none either
  have hslot : ∀ s, fs.slot ((v.takeBlock b).setBlock b fun _ => 0)
      (inode.setPtr 12 (UInt32.ofNat b)) s
      = if s = .table then UInt32.ofNat b else fs.slot v inode s := by
    refine slot_update (hm.sameUpper hfresh _ (Ext2Inode.ptr_setPtr_ne (by decide))
      (Ext2Inode.ptr_setPtr_ne (by decide))) rfl (fun i heq => by cases heq) (fun i hi => ?_)
      ?_ (fun i hi => ?_)
    · rw [Ext2Inode.ptr_setPtr_ne (by omega), if_neg (by simp)]
    · rw [Ext2Inode.ptr_setPtr_self (by decide), if_pos rfl]
    rw [Ext2Inode.ptr_setPtr_self (by decide)]
    unfold entry
    rw [if_neg hne, if_pos hz, hb, setBlock_block_self]
    rfl
  refine ⟨inode.setPtr 12 (UInt32.ofNat b), disk', _, ?_, h',
    h.extends_fresh hm hdata hfresh (t := .table) hz hslot rfl, fun i => hslot (.data i), ?_, ?_⟩
  · rw [hsome, ok_bind]
  · rw [Ext2Inode.ptr_setPtr_self (by decide)]
    exact hne
  · rw [if_pos hz]
    exact hcount

theorem ensureEntry_eq (hm : fs.Mapped v inode g)
    (htable : inode.ptr 12 ≠ 0) {i : Nat} (hi : i < fs.blockSize / 4) :
    (fs.ensureEntry disk (inode.ptr 12) i = .ok (none, disk) ∧
      fs.blockPtr v inode (12 + i) = 0 ∧
      fs.freeBlocks v g = 0) ∨
    ∃ b disk' v', fs.ensureEntry disk (inode.ptr 12) i = .ok (some b, disk') ∧
      fs.Shows g disk' v' ∧ Extends fs g v v' inode inode ∧
      (∀ j, j ≠ 12 + i → fs.blockPtr v' inode j = fs.blockPtr v inode j) ∧
      fs.blockPtr v' inode (12 + i) ≠ 0 ∧ b = (fs.blockPtr v' inode (12 + i)).toNat ∧
      fs.freeBlocks v' g + (if fs.blockPtr v inode (12 + i) = 0 then 1 else 0)
        = fs.freeBlocks v g := by
  have htab : fs.DataBlock g (inode.ptr 12).toNat := (hm.block .table htable).1
  have hptr : fs.blockPtr v inode (12 + i)
      = get32 (i * 4) (v.block (inode.ptr 12).toNat) := by
    unfold blockPtr entry
    rw [if_neg (by omega), Nat.add_sub_cancel_left, if_pos hi, if_neg htable]
  unfold ensureEntry
  rw [h.readBlock_eq htab (Nat.le_refl _), ok_bind]
  simp only []
  rw [Buf.word_ok (by simp only []; omega), ok_bind]
  simp only [← hptr]
  by_cases hz : fs.blockPtr v inode (12 + i) = 0
  swap
  · rw [if_neg hz]
    exact .inr ⟨_, disk, v, rfl, h, .refl hm, fun _ _ => rfl, hz, rfl,
      by rw [if_neg hz, Nat.add_zero]⟩
  rw [if_pos hz]
  rcases h.allocZeroed_eq with ⟨hnone, hfull⟩ | ⟨b, disk₁, hsome, hdata, hfresh, h₁, hcount⟩
  · left
    rw [hnone]
    exact ⟨rfl, hz, hfull⟩
  right
  have hb := h.toNat_ofNat hdata
  generalize hput : put32 (i * 4) (UInt32.ofNat b) (v.block (inode.ptr 12).toNat) = f
  obtain ⟨disk₂, hwrite, h₂⟩ := h₁.writeBlock_eq htab f
  change fs.Shows g disk₂ (withEntry v inode b (cut fs.blockSize f)) at h₂
  have hf : ∀ j, j < fs.blockSize / 4 → get32 (j * 4) (cut fs.blockSize f)
      = if j = i then UInt32.ofNat b else get32 (j * 4) (v.block (inode.ptr 12).toNat) := by
    intro j hj
    rw [show get32 (j * 4) (cut fs.blockSize f) = get32 (j * 4) f from
      get32_congr fun k _ hk => cut_apply (by omega), ← hput]
    by_cases hji : j = i
    · rw [hji, if_pos rfl, get32_put32_self]
    · rw [if_neg hji]
      exact get32_congr fun k hk hk' => put32_apply_ne (by omega)
  have hslot := hm.slot_entry htable hi hfresh hf
  have hrest := hm.extends_entry htable hz (by rw [hb]; exact hdata) (by rw [hb]; exact hfresh)
    (by rw [hb]; exact hslot)
  rw [hb] at hrest
  have hnew := (hslot (.data (12 + i))).trans (if_pos rfl)
  change fs.blockPtr _ inode (12 + i) = UInt32.ofNat b at hnew
  refine ⟨b, disk₂, _, ?_, h₂, hrest, fun j hj => ?_, ?_, ?_, ?_⟩
  · rw [hsome, ok_bind]
    simp only []
    rw [Buf.setWord_ok (by simp only []; omega)]
    simp only [hput, hwrite, ok_bind]
  · exact (hslot (.data j)).trans (if_neg (by simp [hj]))
  · rw [hnew]
    exact h.ofNat_ne_zero hdata
  · rw [hnew, hb]
  · rw [if_pos hz]
    exact hcount

end Shows

/-- How many blocks `ensure_file_block` has to allocate. -/
def blockCost (fs : Ext2) (v : Vol) (inode : Ext2Inode) (i : Nat) : Nat :=
  (if fs.blockPtr v inode i = 0 then 1 else 0) + (if 12 ≤ i ∧ inode.ptr 12 = 0 then 1 else 0)

/-- What a call of `ensure_file_block` for block `i` leaves. -/
structure Ensured (fs : Ext2) (g : Geometry) (v v' : Vol) (inode inode' : Ext2Inode) (i : Nat)
    (r : Option Nat) : Prop extends Extends fs g v v' inode inode' where
  others : ∀ j, j ≠ i → fs.blockPtr v' inode' j = fs.blockPtr v inode j
  direct : i < 12 → inode'.ptr 12 = inode.ptr 12
  found : ∀ b, r = some b → fs.blockPtr v' inode' i ≠ 0 ∧
    b = (fs.blockPtr v' inode' i).toNat ∧ (12 ≤ i → inode'.ptr 12 ≠ 0) ∧
    fs.freeBlocks v' g + fs.blockCost v inode i = fs.freeBlocks v g
  full : r = none → fs.freeBlocks v g < fs.blockCost v inode i

namespace Shows

variable (h : fs.Shows g disk v) (hm : fs.Mapped v inode g) {i : Nat}

include h hm

theorem ensureFileBlock_direct (hi : i < 12) :
    ∃ r inode' disk' v', fs.ensureFileBlock disk inode i = .ok (r, inode', disk') ∧
      fs.Shows g disk' v' ∧ Ensured fs g v v' inode inode' i r := by
  have hptr : ∀ inode v, fs.blockPtr v inode i = inode.ptr i := fun _ _ => if_pos hi
  unfold ensureFileBlock
  rw [if_neg (by omega), if_pos hi]
  by_cases hz : inode.ptr i = 0
  swap
  · rw [if_neg hz]
    refine ⟨_, _, _, _, rfl, h, .refl hm, fun _ _ => rfl, fun _ => rfl, fun b hb => ?_,
      fun hnone => (nomatch hnone)⟩
    cases hb
    unfold blockCost
    rw [hptr, if_neg hz, if_neg (by omega)]
    exact ⟨hz, rfl, fun h12 => by omega, rfl⟩
  rw [if_pos hz]
  have hcost : fs.blockCost v inode i = 1 := by
    unfold blockCost
    rw [hptr, if_pos hz, if_neg (by omega)]
  rcases h.allocZeroed_eq with ⟨hnone, hfull⟩ | ⟨b, disk', hsome, hdata, hfresh, h', hcount⟩
  · rw [hnone]
    refine ⟨_, _, _, _, rfl, h, .refl hm, fun _ _ => rfl, fun _ => rfl, fun b hb => (nomatch hb),
      fun _ => ?_⟩
    omega
  rw [hsome]
  have htab : (inode.setPtr i (UInt32.ofNat b)).ptr 12 = inode.ptr 12 :=
    Ext2Inode.ptr_setPtr_ne (by omega)
  have hslot : ∀ s, fs.slot ((v.takeBlock b).setBlock b fun _ => 0)
      (inode.setPtr i (UInt32.ofNat b)) s
      = if s = .data i then UInt32.ofNat b else fs.slot v inode s := by
    refine slot_update (hm.sameUpper hfresh _ (Ext2Inode.ptr_setPtr_ne (by omega))
      (Ext2Inode.ptr_setPtr_ne (by omega))) rfl (fun j heq => ?_) (fun j hj => ?_)
      ?_ (fun j hj => ?_)
    · cases heq
      omega
    · by_cases hji : j = i
      · rw [hji, if_pos rfl, Ext2Inode.ptr_setPtr_self (by omega)]
      · rw [if_neg (by simp [hji]), Ext2Inode.ptr_setPtr_ne (Ne.symm hji)]
    · rw [htab, if_neg (by simp)]
    rw [htab, if_neg]
    · exact entry_congr fun hne =>
        setBlock_block_ne _ _ _ (hm.ne_fresh hfresh (s := .table) hne)
    intro heq
    cases heq
    omega
  have hext := h.extends_fresh hm hdata hfresh (t := .data i) ((hptr _ _).trans hz) hslot rfl
  refine ⟨_, _, _, _, rfl, h', hext, fun j hj => ?_, fun _ => htab, fun c hc => ?_,
    fun hnone => (nomatch hnone)⟩
  · exact (hslot (.data j)).trans (if_neg (by simp [hj]))
  · cases hc
    have hnew := (hslot (.data i)).trans (if_pos rfl)
    change fs.blockPtr _ (inode.setPtr i (UInt32.ofNat b)) i = UInt32.ofNat b at hnew
    rw [hnew, hcost]
    exact ⟨h.ofNat_ne_zero hdata, (h.toNat_ofNat hdata).symm, fun h12 => by omega, hcount⟩

theorem ensureFileBlock_indirect (hdirect : ¬ i < 12) (hi : i < 12 + fs.blockSize / 4) :
    ∃ r inode' disk' v', fs.ensureFileBlock disk inode i = .ok (r, inode', disk') ∧
      fs.Shows g disk' v' ∧ Ensured fs g v v' inode inode' i r := by
  unfold ensureFileBlock
  rw [if_neg (by omega), if_neg hdirect]
  have hsum : 12 + (i - 12) = i := by omega
  have hcost : fs.blockCost v inode i
      = (if fs.blockPtr v inode i = 0 then 1 else 0)
        + (if inode.ptr 12 = 0 then 1 else 0) := by
    unfold blockCost
    simp only [show 12 ≤ i by omega, true_and]
  rcases h.ensureTable_eq hm with
    ⟨hnone, hz, hfull⟩ | ⟨inode₁, disk₁, v₁, hsome, h₁, hext₁, hptr₁, htable, hcount₁⟩
  · rw [hnone]
    refine ⟨_, _, _, _, rfl, h, .refl hm, fun _ _ => rfl, fun _ => rfl, fun b hb => (nomatch hb),
      fun _ => ?_⟩
    rw [hcost, if_pos hz]
    omega
  rw [hsome, ok_bind]
  simp only []
  rcases h₁.ensureEntry_eq hext₁.mapped htable (i := i - 12) (by omega) with
    ⟨hnone, hz, hfull⟩ | ⟨b, disk₂, v₂, hsome₂, h₂, hext₂, hothers, hne, hb, hcount₂⟩
  · rw [hnone]
    rw [hsum, hptr₁] at hz
    refine ⟨_, _, _, _, rfl, h₁, hext₁, fun j _ => hptr₁ j, fun hlt => absurd hlt hdirect,
      fun b hb => (nomatch hb), fun _ => ?_⟩
    rw [hcost, if_pos hz]
    omega
  rw [hsome₂]
  rw [hsum] at hothers hne hb hcount₂
  rw [hptr₁] at hcount₂
  refine ⟨_, _, _, _, rfl, h₂, hext₁.trans hext₂, fun j hj => ?_,
    fun hlt => absurd hlt hdirect, fun c hc => ?_, fun hnone => (nomatch hnone)⟩
  · exact (hothers j hj).trans (hptr₁ j)
  · cases hc
    refine ⟨hne, hb, fun _ => htable, ?_⟩
    omega

/-- `ensure_file_block` keeps the file and finds or makes the block. -/
theorem ensureFileBlock_eq (hi : i < 12 + fs.blockSize / 4) :
    ∃ r inode' disk' v', fs.ensureFileBlock disk inode i = .ok (r, inode', disk') ∧
      fs.Shows g disk' v' ∧ Ensured fs g v v' inode inode' i r := by
  by_cases hdirect : i < 12
  · exact h.ensureFileBlock_direct hm hdirect
  · exact h.ensureFileBlock_indirect hm hdirect hi

end Shows

/-- `resolve_block` is the mapping of ext2 exactly where its arithmetic fits a word.  When
`ensure_file_block` returns a block for a file whose blocks have one role each, the block is
found from then on, and no other one moves. -/
theorem fileMap_correct (hsize : fs.PowerSize) :
    (∀ disk inode i, fs.Served disk (fs.tables (fs.raw disk) inode i) →
      (fs.resolveBlock disk inode i = .ok (pointee (fs.blockPtr (fs.raw disk) inode i)) ↔
        fs.Fits i ∧ fs.Reachable (fs.tables (fs.raw disk) inode i))) ∧
    (∀ g disk inode, fs.Volume g disk → fs.Mapped (fs.view g disk) inode g →
      ∀ i b inode' disk', fs.ensureFileBlock disk inode i = .ok (some b, inode', disk') →
        fs.resolveBlock disk' inode' i = .ok (some b) ∧
        ∀ j, j ≠ i → fs.resolveBlock disk' inode' j = fs.resolveBlock disk inode j) := by
  refine ⟨fun disk inode i hserved => (resolveBlock_finds hsize hserved).iff, ?_⟩
  intro g disk inode h hm i b inode' disk' hrun
  have hi : i < 12 + fs.blockSize / 4 := by
    by_contra hge
    rw [ensureFileBlock, if_pos (Nat.le_of_not_lt hge)] at hrun
    cases hrun
  obtain ⟨r, _, _, v', heq, hs', hens⟩ := h.shows.ensureFileBlock_eq hm hi
  rw [heq] at hrun
  cases hrun
  have hafter := hs'.resolveBlock_eq hens.mapped.tablesOn
  obtain ⟨hne, rfl, _⟩ := hens.found b rfl
  refine ⟨(hafter i).trans (congrArg _ (if_neg hne)), fun j hj => ?_⟩
  rw [hafter, h.shows.resolveBlock_eq hm.tablesOn, hens.others j hj]

/-- A file without pointers has no blocks. -/
theorem slot_eq_zero (hptr : ∀ i, inode.ptr i = 0) (s : Slot) : fs.slot v inode s = 0 := by
  cases s with
  | data i => simp [slot, blockPtr, farPtr, Vol.entry, hptr]
  | _ => simp [slot, Vol.entry, hptr]

theorem mapped_of_no_ptr (hptr : ∀ i, inode.ptr i = 0) : fs.Mapped v inode g :=
  ⟨fun s hs => absurd (slot_eq_zero hptr s) hs, fun s _ hs => absurd (slot_eq_zero hptr s) hs⟩

/-- The small volume with a table in block 7 whose first entry is block 8, and
a table there whose entry 3 is block 9. -/
def tableDisk : Disk :=
  (do
    let (_, disk) ← smallFs.allocZeroed (smallDisk 2048)
    let (_, disk) ← smallFs.allocZeroed disk
    let (_, disk) ← smallFs.allocZeroed disk
    let disk ← smallFs.writeBlocks disk 7 (put32 0 8 fun _ => 0) 1
    smallFs.writeBlocks disk 8 (put32 12 9 fun _ => 0) 1 : Res Disk).toOption.getD (smallDisk 2048)

theorem fileMap_correct_tables :
    smallFs.resolveBlock tableDisk (Ext2Inode.zeroed.setPtr 13 7) 527 = .ok (some 9) ∧
    ∃ disk inode b c inode' disk', inode.ptr 12 ≠ 0 ∧
      smallFs.resolveBlock disk inode 12 = .ok (some b) ∧
      smallFs.ensureFileBlock disk inode 13 = .ok (some c, inode', disk') ∧
      smallFs.resolveBlock disk' inode' 13 = .ok (some c) ∧
      smallFs.resolveBlock disk' inode' 12 = .ok (some b) := by
  obtain ⟨hresolve, hensure⟩ := fileMap_correct (show smallFs.PowerSize from ⟨1, by decide, rfl⟩)
  refine ⟨?_, ?_⟩
  · have hreach : smallFs.Reachable
        (smallFs.tables (smallFs.raw tableDisk) (Ext2Inode.zeroed.setPtr 13 7) 527) := by
      unfold Reachable
      decide +kernel
    refine ((hresolve _ _ _ ?_).2 ⟨.inl (by decide), hreach⟩).trans (congrArg _ ?_)
    · exact List.forall_iff_forall_mem.1 (by decide +kernel)
    · decide +kernel
  have hm : smallFs.Mapped (smallFs.view smallGeometry (smallDisk 2048)) .zeroed smallGeometry :=
    mapped_of_no_ptr Ext2Inode.ptr_zeroed
  have hrun : (do
      let (r, inode, disk) ← smallFs.ensureFileBlock (smallDisk 2048) .zeroed 12
      let old ← smallFs.resolveBlock disk inode 12
      let (s, _) ← smallFs.ensureFileBlock disk inode 13
      .ok (r, inode.ptr 12, old, s)) = .ok (some 8, 7, some 8, some 9) := by decide +kernel
  obtain ⟨⟨_, inode₁, disk₁⟩, hrun₁, hrun⟩ := bind_eq_ok.1 hrun
  obtain ⟨_, hold, hrun⟩ := bind_eq_ok.1 hrun
  obtain ⟨⟨_, inode₂, disk₂⟩, hrun₂, hrun⟩ := bind_eq_ok.1 hrun
  simp only [Except.ok.injEq, Prod.mk.injEq] at hrun
  obtain ⟨rfl, htable, rfl, rfl⟩ := hrun
  obtain ⟨_, _, _, _, heq, h₁, hens₁⟩ :=
    smallVolume_volume.shows.ensureFileBlock_eq hm (show 12 < 12 + 2048 / 4 by decide)
  cases hrun₁.symm.trans heq
  obtain ⟨h₁, rfl⟩ := h₁
  obtain ⟨hfound, hothers⟩ := hensure _ _ _ h₁ hens₁.mapped 13 _ _ _ hrun₂
  exact ⟨_, _, _, _, _, _, by rw [htable]; decide, hold, hrun₂, hfound,
    (hothers 12 (by decide)).trans hold⟩

/-- An inode that reaches the table in block 8 in two ways. -/
def crossedInode : Ext2Inode := (Ext2Inode.zeroed.setPtr 12 8).setPtr 13 7

/-- A volume with blocks of 8192 bytes, of which only the superblock is written. -/
def largeDisk : Disk where
  sectors := 1024
  data := splice 1024 1024 { smallSuper 2048 with sLogBlockSize := 3 }.encode fun _ => 0

/-- Three ways to miss the mapping.  A table is reached in two ways, and the block made for
block 12 of the file becomes block 524 too.  The number of blocks behind three tables of 2048
entries, or the sector number of a table, does not fit a word. -/
theorem inodes_off_mapping :
    smallFs.resolveBlock tableDisk crossedInode 524 = .ok none ∧
    (do
      let (b, inode, disk) ← smallFs.ensureFileBlock tableDisk crossedInode 12
      let r ← smallFs.resolveBlock disk inode 524
      .ok (b, r)) = .ok (some 10, some 10) ∧
    (do
      let fs ← mount { smallFs with mounted := false } largeDisk none
      fs.resolveBlock largeDisk .zeroed (12 + 2048 + 2048 * 2048)) = .error .overflow ∧
    smallFs.resolveBlock (smallDisk 2048) (Ext2Inode.zeroed.setPtr 12 0xFFFFFFFF) 12
      = .error .overflow := by
  refine ⟨?_, ?_, ?_, ?_⟩ <;> decide +kernel

end Ext2

end Felix
