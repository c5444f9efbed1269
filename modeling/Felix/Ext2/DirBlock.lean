import Felix.Base.Names
import Felix.Ext2.Format

/-!
# One block of a directory

`DirBlock` says that a block is a chain of records that ends where the block
ends, each long enough for its name.  `blockNames` is what such a block holds,
without the offsets: the names in order, with their inode numbers.  The loops
of the directory functions are a lookup and updates of that list.

A block of this kind has no place for another record in the eyes of
`add_dir_entry`, because it looks behind the last record only.  That is
`placeEntry_full`.
-/

namespace Felix

open Bytes Res List Nat

namespace Ext2

variable {fs : Ext2} {recs : List (Nat × Ext2DirEntry)} {bs off : Nat}

/-- The name of a record, as the searches compare it. -/
def recName (f : Bytes) (r : Nat × Ext2DirEntry) : Str :=
  (Str.fromUtf8 (toList (r.1 + 8) r.2.nameLen.toNat f)).getD .empty

/-- The records of a block from an offset on. -/
def recordsFrom (bs : Nat) (f : Bytes) : Nat → Nat → List (Nat × Ext2DirEntry)
  | 0, _ => []
  | fuel + 1, off =>
    if off + 8 ≤ bs then
      (off, headerAt Ext2DirEntry f off) ::
        recordsFrom bs f fuel (off + (headerAt Ext2DirEntry f off).len)
    else []

/-- The records of a block. -/
def records (bs : Nat) (f : Bytes) : List (Nat × Ext2DirEntry) := recordsFrom bs f bs 0

/-- A well-formed block of a directory. -/
structure DirBlock (bs : Nat) (f : Bytes) : Prop where
  chain : Chain Ext2DirEntry.len bs f 0 (records bs f)
  names : ∀ r ∈ records bs f, 8 + r.2.nameLen.toNat ≤ r.2.len

/-- The names of a block, with their inode numbers. -/
def blockNames (bs : Nat) (f : Bytes) : List (Str × Nat) :=
  (records bs f).map fun r => (recName f r, r.2.inode.toNat)

theorem recordsFrom_eq {f : Bytes} {fuel : Nat} (h : Chain Ext2DirEntry.len bs f off recs)
    (hfuel : bs ≤ off + fuel) : recordsFrom bs f fuel off = recs := by
  induction h generalizing fuel with
  | done =>
    cases fuel with
    | zero => rfl
    | succ fuel => rw [recordsFrom, if_neg (by omega)]
  | @cons off rest hlen hend htail ih =>
    rw [Ext2DirEntry.size_eq] at hlen
    cases fuel with
    | zero => omega
    | succ fuel => rw [recordsFrom, if_pos (by omega), ih (by omega)]

theorem records_eq {f : Bytes} (h : Chain Ext2DirEntry.len bs f 0 recs) : records bs f = recs :=
  recordsFrom_eq h (by omega)

namespace DirBlock

variable {f : Bytes} (h : DirBlock fs.blockSize f) (hgood : fs.GoodSize)
include h

variable {r : Nat × Ext2DirEntry}

theorem mem (hr : r ∈ records fs.blockSize f) :
    r.2 = headerAt Ext2DirEntry f r.1 ∧ 8 ≤ r.2.recLen.toNat ∧
      r.1 + r.2.recLen.toNat ≤ fs.blockSize ∧ 8 + r.2.nameLen.toNat ≤ r.2.recLen.toNat := by
  obtain ⟨heq, _, hlen, hend⟩ := h.chain.mem hr
  exact ⟨heq, hlen, hend, h.names r hr⟩

theorem header_le (hr : r ∈ records fs.blockSize f) : r.1 + 8 ≤ fs.blockSize := by
  obtain ⟨_, hlen, hend, _⟩ := h.mem hr
  omega

include hgood

theorem scan_eq {σ : Type} (body : σ → Nat → Ext2DirEntry → Res (Step σ)) (s : σ) :
    fs.scan ⟨4096, f⟩ body s = walkList body (records fs.blockSize f) s :=
  h.chain.walk_eq (b := ⟨4096, f⟩) (by decide) hgood.bounds.2 (by omega)

theorem slice_name (hr : r ∈ records fs.blockSize f) :
    (⟨4096, f⟩ : Buf).slice (r.1 + 8) (r.1 + 8 + r.2.nameLen.toNat)
      = .ok (toList (r.1 + 8) r.2.nameLen.toNat f) := by
  obtain ⟨_, _, hend, hname⟩ := h.mem hr
  have hb := hgood.bounds
  rw [Buf.slice_ok (by omega) (by simp only []; omega), Nat.add_sub_cancel_left]

omit hgood in
theorem not_stop (hr : r ∈ records fs.blockSize f) :
    ¬ (r.2.recLen = 0 ∨ fs.blockSize - r.1 < r.2.recLen.toNat) := by
  obtain ⟨_, hlen, hend, _⟩ := h.mem hr
  rintro (hz | hlt)
  · rw [hz] at hlen
    cases hlen
  · omega

/-! ## Searches -/

theorem scan_find (name : Str) : fs.scan ⟨4096, f⟩ (fs.findBody ⟨4096, f⟩ name) none
      = .ok (Names.lookup (blockNames fs.blockSize f) name) := by
  rw [h.scan_eq hgood, walkList_find (fun r => recName f r = name ∧ r.2.inode.toNat ≠ 0)
    (fun r => r.2.inode.toNat) fun r hr => ?_]
  · unfold Names.lookup blockNames
    rw [find?_map, Option.map_map]
    rfl
  obtain ⟨_, hlen, hend, hname⟩ := h.mem hr
  have hdead : r.2.inode = 0 ↔ r.2.inode.toNat = 0 := UInt32.toNat_inj.symm
  unfold findBody
  rw [if_neg (h.not_stop hr), if_neg (by omega), h.slice_name hgood hr]
  show (if r.2.inode ≠ 0 then if recName f r = name then _ else _ else _) = _
  by_cases hz : r.2.inode = 0
  · rw [if_neg (by simp [hz]), if_neg (by simp [hz])]
  rw [if_pos hz]
  by_cases hn : recName f r = name
  · rw [if_pos hn, if_pos (by simp [hn, ← hdead, hz])]
  · rw [if_neg hn, if_neg (by simp [hn])]

/-- `remove_dir_entry` in one block: the first record of the name, whether it
is live or not. -/
theorem scan_remove (name : Str) : fs.scan ⟨4096, f⟩ (removeBody ⟨4096, f⟩ name) none
      = .ok ((records fs.blockSize f).find? fun r => recName f r = name) := by
  rw [h.scan_eq hgood, walkList_find (fun r => recName f r = name) id fun r hr => ?_,
    Option.map_id_fun, id]
  unfold removeBody
  rw [if_neg fun hz => h.not_stop hr (.inl hz), h.slice_name hgood hr]
  show (if recName f r = name then _ else _) = _
  by_cases hn : recName f r = name
  · rw [if_pos hn, if_pos (by simp [hn])]
    rfl
  · rw [if_neg hn, if_neg (by simp [hn])]

/-- `update_dotdot` in one block: the first record whose name is two dots. -/
theorem scan_dotdot : fs.scan ⟨4096, f⟩ (fs.dotdotBody ⟨4096, f⟩) none
      = .ok ((records fs.blockSize f).find? fun r => recName f r = .dotdot) := by
  rw [h.scan_eq hgood, walkList_find (fun r => recName f r = .dotdot) id fun r hr => ?_,
    Option.map_id_fun, id]
  obtain ⟨_, hlen, hend, hname⟩ := h.mem hr
  have hiff : toList (r.1 + 8) r.2.nameLen.toNat f = Str.dotdot.bytes
      ↔ recName f r = .dotdot := (Str.fromUtf8_getD_eq (by decide)).symm
  unfold dotdotBody
  rw [if_neg (h.not_stop hr), if_neg (by omega), h.slice_name hgood hr, ok_bind]
  by_cases hn : recName f r = .dotdot
  · rw [if_pos (hiff.2 hn), if_pos (by simp [hn])]
    rfl
  · rw [if_neg (fun heq => hn (hiff.1 heq)), if_neg (by simp [hn])]

/-! ## Changing a record -/

end DirBlock

/-- The record with another inode number. -/
def relabel (e : Ext2DirEntry) (x : UInt32) : Ext2DirEntry := { e with inode := x }

/-- The block with another header at an offset. -/
def replaceHeader (bs off : Nat) (e : Ext2DirEntry) (f : Bytes) : Bytes :=
  cut bs (splice off 8 (Packed.encode e) f)

theorem headerAt_cut {f : Bytes} (h : off + 8 ≤ bs) :
    headerAt Ext2DirEntry (cut bs f) off = headerAt Ext2DirEntry f off := by
  apply Packed.decode_congr
  intro k hk
  rw [Ext2DirEntry.size_eq] at hk
  exact cut_apply (by omega)

theorem toList_cut {o n : Nat} {f : Bytes} (h : o + n ≤ bs) :
    toList o n (cut bs f) = toList o n f :=
  toList_congr fun k _ hk => cut_apply (by omega)

namespace DirBlock

section

variable {f : Bytes} (h : DirBlock fs.blockSize f) {r r' : Nat × Ext2DirEntry}
  (hr : r ∈ records fs.blockSize f) {e : Ext2DirEntry}
include h hr

theorem headerAt_replace (hr' : r' ∈ records fs.blockSize f) :
    headerAt Ext2DirEntry (replaceHeader fs.blockSize r.1 e f) r'.1
      = if r'.1 = r.1 then e else r'.2 := by
  obtain ⟨_, hlen, hend, _⟩ := h.mem hr
  obtain ⟨heq', hlen', hend', _⟩ := h.mem hr'
  unfold replaceHeader
  rw [headerAt_cut (by omega)]
  by_cases hoff : r'.1 = r.1
  · rw [if_pos hoff, hoff]
    exact Packed.decode_splice r.1 e f
  have hapart : r'.1 + r'.2.recLen.toNat ≤ r.1 ∨ r.1 + r.2.recLen.toNat ≤ r'.1 :=
    (h.chain.apart hr' hr).resolve_left hoff
  rw [if_neg hoff, heq']
  exact Packed.decode_splice_ne (by rw [Ext2DirEntry.size_eq]; omega)

theorem toList_replace (hr' : r' ∈ records fs.blockSize f) :
    toList (r'.1 + 8) r'.2.nameLen.toNat (replaceHeader fs.blockSize r.1 e f)
      = toList (r'.1 + 8) r'.2.nameLen.toNat f := by
  obtain ⟨_, hlen', hend', hname'⟩ := h.mem hr'
  have hapart : r'.1 = r.1 ∨ r'.1 + r'.2.recLen.toNat ≤ r.1 ∨ r.1 + r.2.recLen.toNat ≤ r'.1 :=
    h.chain.apart hr' hr
  unfold replaceHeader
  rw [toList_cut (by omega)]
  exact toList_congr fun k _ _ => splice_apply_out (by omega)

variable (x : UInt32)

theorem records_relabel : Chain Ext2DirEntry.len fs.blockSize
      (replaceHeader fs.blockSize r.1 (relabel r.2 x) f) 0
      ((records fs.blockSize f).map fun r' =>
        (r'.1, if r'.1 = r.1 then relabel r.2 x else r'.2)) := by
  have hchain := h.chain.rewrite (g := replaceHeader fs.blockSize r.1 (relabel r.2 x) f)
    fun r' hr' => ?_
  · rwa [map_congr_left fun r' hr' => by rw [h.headerAt_replace hr hr']] at hchain
  rw [h.headerAt_replace hr hr']
  split
  · rename_i hoff
    rw [(h.mem hr').1, hoff, ← (h.mem hr).1]
    rfl
  · rfl

theorem relabel : DirBlock fs.blockSize (replaceHeader fs.blockSize r.1 (relabel r.2 x) f) := by
  have hrecs := records_eq (h.records_relabel hr x)
  refine ⟨?_, ?_⟩
  · rw [hrecs]
    exact h.records_relabel hr x
  · rw [hrecs]
    intro r₁ hr₁
    obtain ⟨r', hr', rfl⟩ := mem_map.1 hr₁
    simp only []
    split
    · exact h.names r hr
    · exact h.names r' hr'

theorem blockNames_relabel :
    blockNames fs.blockSize (replaceHeader fs.blockSize r.1 (Ext2.relabel r.2 x) f)
      = (records fs.blockSize f).map fun r' =>
          (recName f r', if r'.1 = r.1 then x.toNat else r'.2.inode.toNat) := by
  unfold blockNames
  rw [records_eq (h.records_relabel hr x), map_map]
  refine map_congr_left fun r' hr' => ?_
  show (recName _ (r'.1, if r'.1 = r.1 then Ext2.relabel r.2 x else r'.2),
    (if r'.1 = r.1 then Ext2.relabel r.2 x else r'.2).inode.toNat) = _
  have hnames : (if r'.1 = r.1 then Ext2.relabel r.2 x else r'.2).nameLen = r'.2.nameLen := by
    split
    · rename_i hoff
      rw [(h.mem hr').1, hoff, ← (h.mem hr).1]
      rfl
    · rfl
  unfold recName
  rw [hnames, h.toList_replace hr hr']
  split
  · rfl
  · rfl

end

/-- The first record of a name gets another inode number. -/
theorem blockNames_assign {f : Bytes} (h : DirBlock fs.blockSize f) {name : Str}
    {r : Nat × Ext2DirEntry} (x : UInt32)
    (hfind : ((records fs.blockSize f).find? fun r => recName f r = name) = some r) :
    blockNames fs.blockSize (replaceHeader fs.blockSize r.1 (Ext2.relabel r.2 x) f)
      = Names.assign name x.toNat (blockNames fs.blockSize f) := by
  rw [h.blockNames_relabel (mem_of_find?_eq_some hfind) x, blockNames]
  have hpair := h.chain.pairwise.imp_of_mem fun {a b} ha _ hab =>
    show a.1 ≠ b.1 by
      have hlen := (h.mem ha).2.1
      have hab' : a.1 + a.2.recLen.toNat ≤ b.1 := hab
      omega
  generalize records fs.blockSize f = recs at hfind hpair
  induction recs with
  | nil => rfl
  | cons a recs ih =>
    obtain ⟨hhead, htail⟩ := pairwise_cons.1 hpair
    rw [map_cons, map_cons, Names.assign]
    rw [find?_cons] at hfind
    by_cases hn : recName f a = name
    · -- the record that changes is the head, so the tail keeps its numbers
      simp only [hn, decide_true, Option.some.injEq] at hfind
      rw [hfind] at hhead hn ⊢
      rw [if_pos rfl, if_pos hn]
      congr 1
      refine map_congr_left fun b hb => ?_
      rw [if_neg (Ne.symm (hhead b hb))]
    · simp only [hn] at hfind
      rw [if_neg (hhead r (mem_of_find?_eq_some hfind)), if_neg hn, ih hfind htail]

end DirBlock

variable {f : Bytes} {name : Str}

theorem blockNames_not_mem (hfind : ((records bs f).find? fun r => recName f r = name) = none) :
    name ∉ (blockNames bs f).map Prod.fst := by
  intro hmem
  unfold blockNames at hmem
  rw [map_map] at hmem
  obtain ⟨r, hr, hname⟩ := mem_map.1 hmem
  exact find?_eq_none.1 hfind r hr (decide_eq_true hname)

theorem blockNames_mem {r : Nat × Ext2DirEntry}
    (hfind : ((records bs f).find? fun r => recName f r = name) = some r) :
    name ∈ (blockNames bs f).map Prod.fst := by
  have hname : recName f r = name := by
    have hp := find?_some hfind
    exact of_decide_eq_true hp
  unfold blockNames
  rw [map_map]
  exact mem_map.2 ⟨r, mem_of_find?_eq_some hfind, hname⟩

/-! ## Adding a record -/

/-- On a chain the search of `add_dir_entry` ends at the end of the block. -/
theorem walkList_add (h : Chain Ext2DirEntry.len fs.blockSize f off recs) (last : Nat) :
    ∃ last', walkList fs.addBody recs (off, last) = .ok (fs.blockSize, last') := by
  induction h generalizing last with
  | done => exact ⟨last, rfl⟩
  | @cons off rest hlen hend htail ih =>
    have hgo : ¬ ((headerAt Ext2DirEntry f off).recLen = 0 ∨
        fs.blockSize - off < (headerAt Ext2DirEntry f off).recLen.toNat) := by
      change 8 ≤ (headerAt Ext2DirEntry f off).recLen.toNat at hlen
      change off + (headerAt Ext2DirEntry f off).recLen.toNat ≤ fs.blockSize at hend
      rintro (hz | hlt)
      · rw [hz] at hlen
        cases hlen
      · omega
    obtain ⟨last', hrest⟩ := ih off
    refine ⟨last', ?_⟩
    rw [walkList, addBody, if_neg hgo]
    exact hrest

/-- A well-formed block has no place for another record. -/
theorem placeEntry_full (h : DirBlock fs.blockSize f) (hgood : fs.GoodSize)
    (name : Str) (inodeNum : Nat) (fileType : UInt8) :
    fs.placeEntry ⟨4096, f⟩ name inodeNum fileType = .ok none := by
  obtain ⟨last, hscan⟩ := walkList_add h.chain 0
  have hpos := Ext2DirEntry.le_minLen (name.bytes.length % 2 ^ 8)
  unfold placeEntry
  rw [h.scan_eq hgood, hscan]
  exact if_neg (by omega)

/-- The bytes of a name that fit its length field. -/
def shortName (name : Str) : List UInt8 := name.bytes.take (name.bytes.length % 2 ^ 8)

/-- The name that a lookup sees in a record that was made for `name`. -/
def storedName (name : Str) : Str := (Str.fromUtf8 (shortName name)).getD .empty

theorem length_shortName (name : Str) : (shortName name).length = name.bytes.length % 2 ^ 8 := by
  unfold shortName
  rw [length_take]
  omega

theorem storedName_eq (h : name.bytes.length ≤ 255) : storedName name = name := by
  unfold storedName shortName
  rw [mod_eq_of_lt (by omega), take_length, Str.fromUtf8_bytes, Option.getD_some]

/-- The record that takes a whole block. -/
def wholeEntry (bs : Nat) (name : Str) (inodeNum : Nat) (fileType : UInt8) : Ext2DirEntry where
  inode := UInt32.ofNat inodeNum
  recLen := UInt16.ofNat bs
  nameLen := UInt8.ofNat (name.bytes.length % 2 ^ 8)
  fileType := fileType

/-- A block that holds one record. -/
def entryBlock (bs : Nat) (name : Str) (inodeNum : Nat) (fileType : UInt8) : Bytes :=
  splice 8 (shortName name).length (fun k => (shortName name).getD k 0) <|
    splice 0 8 (Packed.encode (wholeEntry bs name inodeNum fileType)) fun _ => 0

section

variable (hgood : fs.GoodSize) (name : Str) (inodeNum : Nat) (fileType : UInt8)

theorem toNat_nameLen :
    (wholeEntry fs.blockSize name inodeNum fileType).nameLen.toNat = (shortName name).length := by
  have hlt := mod_lt name.bytes.length (show 2 ^ 8 > 0 by decide)
  rw [length_shortName, wholeEntry, UInt8.toNat_ofNat', mod_eq_of_lt hlt]

include hgood

theorem toNat_recLen :
    (wholeEntry fs.blockSize name inodeNum fileType).recLen.toNat = fs.blockSize := by
  have hb := hgood.bounds
  rw [wholeEntry, UInt16.toNat_ofNat', mod_eq_of_lt (by omega)]

/-- In a block of zeros the record gets the whole block. -/
theorem placeEntry_fresh : fs.placeEntry ⟨4096, fun _ => 0⟩ name inodeNum fileType
      = .ok (some ⟨4096, entryBlock fs.blockSize name inodeNum fileType⟩) := by
  have hb := hgood.bounds
  have hshort := length_shortName name
  have hmin : Ext2DirEntry.minLen (name.bytes.length % 2 ^ 8) ≤ 264 := by
    unfold Ext2DirEntry.minLen
    omega
  have hscan : fs.scan ⟨4096, fun _ => 0⟩ fs.addBody (0, 0) = .ok (0, 0) := by
    unfold scan
    obtain ⟨n, hn⟩ : ∃ n, fs.blockSize = n + 1 := ⟨fs.blockSize - 1, by omega⟩
    have hzero : (headerAt Ext2DirEntry (fun _ => 0) 0).recLen = 0 := rfl
    nth_rewrite 2 [hn]
    rw [Buf.walk_step hb.2 (by rw [Ext2DirEntry.size_eq]; omega), addBody,
      if_pos (.inl hzero), ok_bind]
  unfold placeEntry
  rw [hscan, ok_bind]
  simp only []
  rw [if_pos (by omega), shrinkLast, if_neg (by simp), ok_bind]
  rw [if_pos (by omega), subW_ok (by omega), ok_bind,
    Buf.store_ok (by rw [Ext2DirEntry.size_eq]; decide), ok_bind,
    show name.bytes.take (name.bytes.length % 2 ^ 8) = shortName name from rfl,
    Buf.copyNonoverlapping_ok (by simp only []; omega), zero_mod,
    mod_eq_of_lt (show fs.blockSize < 2 ^ 16 by omega)]
  rfl

theorem chain_entryBlock : Chain Ext2DirEntry.len fs.blockSize
      (cut fs.blockSize (entryBlock fs.blockSize name inodeNum fileType)) 0
      [(0, wholeEntry fs.blockSize name inodeNum fileType)] := by
  have hb := hgood.bounds
  have hhead : headerAt Ext2DirEntry
      (cut fs.blockSize (entryBlock fs.blockSize name inodeNum fileType)) 0
      = wholeEntry fs.blockSize name inodeNum fileType := by
    rw [headerAt_cut (by omega)]
    unfold entryBlock headerAt
    rw [Packed.decode_splice_ne (by rw [Ext2DirEntry.size_eq]; omega)]
    exact Packed.decode_splice 0 _ _
  have hlen : Ext2DirEntry.len (headerAt Ext2DirEntry
      (cut fs.blockSize (entryBlock fs.blockSize name inodeNum fileType)) 0) = fs.blockSize := by
    rw [hhead]
    exact toNat_recLen hgood name inodeNum fileType
  rw [← hhead]
  refine .cons (by rw [Ext2DirEntry.size_eq]; omega) (by omega) ?_
  rw [hlen, Nat.zero_add]
  exact .done

theorem toList_entryBlock : toList 8 (shortName name).length
      (cut fs.blockSize (entryBlock fs.blockSize name inodeNum fileType)) = shortName name := by
  have hb := hgood.bounds
  have hshort := length_shortName name
  rw [toList_cut (by omega)]
  apply ext_getElem
  · exact length_toList _ _ _
  intro i hi hi'
  rw [length_toList] at hi
  have hget := getElem?_toList (o := 8) (f := entryBlock fs.blockSize name inodeNum fileType) hi
  rw [getElem?_eq_getElem (by simpa using hi), Option.some.injEq] at hget
  rw [hget, entryBlock, splice_apply_in (by omega) (by omega), Nat.add_sub_cancel_left,
    getD_eq_getElem?_getD, getElem?_eq_getElem hi', Option.getD_some]

theorem dirBlock_entryBlock : DirBlock fs.blockSize
      (cut fs.blockSize (entryBlock fs.blockSize name inodeNum fileType)) := by
  have hb := hgood.bounds
  have hchain := chain_entryBlock hgood name inodeNum fileType
  refine ⟨?_, ?_⟩
  · rw [records_eq hchain]
    exact hchain
  · rw [records_eq hchain, forall_mem_singleton, toNat_nameLen, length_shortName,
      Ext2DirEntry.len, toNat_recLen hgood]
    omega

theorem blockNames_entryBlock (hinode : inodeNum < 2 ^ 32) :
    blockNames fs.blockSize (cut fs.blockSize (entryBlock fs.blockSize name inodeNum fileType))
      = [(storedName name, inodeNum)] := by
  have hnumber : (wholeEntry fs.blockSize name inodeNum fileType).inode.toNat = inodeNum := by
    rw [wholeEntry, UInt32.toNat_ofNat', mod_eq_of_lt hinode]
  unfold blockNames recName
  rw [records_eq (chain_entryBlock hgood name inodeNum fileType), map_singleton, hnumber,
    toNat_nameLen, toList_entryBlock hgood]
  rfl

end

/-! ## A new directory -/

variable (hgood : fs.GoodSize) (self parent : Nat)
include hgood

theorem chain_dotsBlock : Chain Ext2DirEntry.len fs.blockSize
      (cut fs.blockSize (dotsBlock self parent (fs.blockSize - 12))) 0
      [(0, { inode := UInt32.ofNat self, recLen := 12, nameLen := 1, fileType := 2 }),
       (12, { inode := UInt32.ofNat parent, recLen := UInt16.ofNat (fs.blockSize - 12),
              nameLen := 2, fileType := 2 })] := by
  have hb := hgood.bounds
  have hfirst : headerAt Ext2DirEntry
      (cut fs.blockSize (dotsBlock self parent (fs.blockSize - 12))) 0
      = { inode := UInt32.ofNat self, recLen := 12, nameLen := 1, fileType := 2 } := by
    rw [headerAt_cut (by omega)]
    refine Eq.trans (Packed.decode_congr fun k hk => ?_) (Packed.decode_splice 0 _ fun _ => 0)
    rw [Ext2DirEntry.size_eq] at hk
    simp only [shift_apply, dotsBlock, put8_apply]
    rw [if_neg (by omega), if_neg (by omega), splice_apply_out (by omega), put8_apply,
      if_neg (by omega)]
    rfl
  have hsecond : headerAt Ext2DirEntry
      (cut fs.blockSize (dotsBlock self parent (fs.blockSize - 12))) 12
      = { inode := UInt32.ofNat parent, recLen := UInt16.ofNat (fs.blockSize - 12),
          nameLen := 2, fileType := 2 } := by
    rw [headerAt_cut (by omega)]
    refine Eq.trans (Packed.decode_congr fun k hk => ?_) (Packed.decode_splice 12 _ fun _ => 0)
    rw [Ext2DirEntry.size_eq] at hk
    simp only [shift_apply, dotsBlock, put8_apply]
    rw [if_neg (by omega), if_neg (by omega), splice_apply_in (by omega) (by omega),
      splice_apply_in (by omega) (by rw [Ext2DirEntry.size_eq]; omega)]
    rfl
  have hlen : (UInt16.ofNat (fs.blockSize - 12)).toNat = fs.blockSize - 12 := by
    rw [UInt16.toNat_ofNat', mod_eq_of_lt (by omega)]
  rw [← hfirst, ← hsecond]
  have hlen0 : Ext2DirEntry.len (headerAt Ext2DirEntry
      (cut fs.blockSize (dotsBlock self parent (fs.blockSize - 12))) 0) = 12 := by
    rw [hfirst]
    rfl
  have hlen1 : Ext2DirEntry.len (headerAt Ext2DirEntry
      (cut fs.blockSize (dotsBlock self parent (fs.blockSize - 12))) 12)
      = fs.blockSize - 12 := by
    rw [hsecond]
    exact hlen
  refine .cons (by rw [hlen0]; decide) (by omega) ?_
  rw [hlen0, Nat.zero_add]
  refine .cons (by rw [Ext2DirEntry.size_eq]; omega) (by omega) ?_
  rw [hlen1, show 12 + (fs.blockSize - 12) = fs.blockSize by omega]
  exact .done

theorem dirBlock_dotsBlock :
    DirBlock fs.blockSize (cut fs.blockSize (dotsBlock self parent (fs.blockSize - 12))) := by
  have hb := hgood.bounds
  have hchain := chain_dotsBlock hgood self parent
  refine ⟨?_, ?_⟩
  · rw [records_eq hchain]
    exact hchain
  · rw [records_eq hchain, forall_mem_cons, forall_mem_singleton]
    refine ⟨show 8 + 1 ≤ 12 by decide, ?_⟩
    show 8 + 2 ≤ (UInt16.ofNat (fs.blockSize - 12)).toNat
    rw [UInt16.toNat_ofNat']
    omega

theorem blockNames_dotsBlock (hself : self < 2 ^ 32) (hparent : parent < 2 ^ 32) :
    blockNames fs.blockSize (cut fs.blockSize (dotsBlock self parent (fs.blockSize - 12)))
      = [(.dot, self), (.dotdot, parent)] := by
  have hb := hgood.bounds
  have hdot : toList 8 1 (cut fs.blockSize (dotsBlock self parent (fs.blockSize - 12)))
      = Str.dot.bytes := by
    rw [toList_cut (by omega)]
    rfl
  have hdots : toList 20 2 (cut fs.blockSize (dotsBlock self parent (fs.blockSize - 12)))
      = Str.dotdot.bytes := by
    rw [toList_cut (by omega)]
    rfl
  unfold blockNames
  rw [records_eq (chain_dotsBlock hgood self parent), map_cons]
  show [((Str.fromUtf8 (toList 8 1 _)).getD .empty, (UInt32.ofNat self).toNat),
    ((Str.fromUtf8 (toList 20 2 _)).getD .empty, (UInt32.ofNat parent).toNat)] = _
  rw [hdot, hdots, UInt32.toNat_ofNat',
    UInt32.toNat_ofNat', mod_eq_of_lt hself, mod_eq_of_lt hparent]
  rfl

end Ext2

end Felix
