import Felix.Ext2.Alloc
import Felix.Ext2.Directory

/-!
# What a listing reports

`listed` is the list of the records of a block that `list_directory_entries`
reports, as a function of the bytes of the block.  The driver reads the inode
of each of them that is a regular file, for its size, and this is the only
step of a listing that depends on anything but the directory itself:
`scan_list` says that the loop is `listed` followed by those reads.
-/

namespace Felix

open Bytes Res List

namespace Ext2

variable {fs : Ext2} {disk : Disk} {entries : List DirEntry} {ptrs : List UInt32}

/-- The name of a record, as the listing shows it. -/
def shownName (f : Bytes) (off : Nat) (e : Ext2DirEntry) : Str :=
  (Str.fromUtf8 (toList (off + 8) e.nameLen.toNat f)).getD unreadable

/-- The records that a listing reports, from an offset on. -/
def listedFrom (bs : Nat) (f : Bytes) : Nat → Nat → List (Ext2DirEntry × Str)
  | 0, _ => []
  | fuel + 1, off =>
    if off + 8 ≤ bs then
      let e := headerAt Ext2DirEntry f off
      if e.recLen = 0 ∨ bs - off < e.recLen.toNat then []
      else if e.inode = 0 then listedFrom bs f fuel (off + e.recLen.toNat)
      else if bs < off + 8 + e.nameLen.toNat then []
      else (e, shownName f off e) :: listedFrom bs f fuel (off + e.recLen.toNat)
    else []

/-- The records of a block that a listing reports. -/
def listed (bs : Nat) (f : Bytes) : List (Ext2DirEntry × Str) := listedFrom bs f bs 0

/-- The entry for a record: the size of a regular file comes from its inode. -/
def entryOf (fs : Ext2) (disk : Disk) (r : Ext2DirEntry × Str) : Res DirEntry := do
  let size ← fs.entrySize disk r.1
  .ok ⟨r.1.inode, r.2, r.1.fileType, size⟩

/-- The entries for a list of records. -/
def entriesOf (fs : Ext2) (disk : Disk) : List (Ext2DirEntry × Str) → Res (List DirEntry)
  | [] => .ok []
  | r :: rest => do
    let entry ← fs.entryOf disk r
    let entries ← entriesOf fs disk rest
    .ok (entry :: entries)

theorem entriesOf_append (l l' : List (Ext2DirEntry × Str)) :
    fs.entriesOf disk (l ++ l') = (fs.entriesOf disk l >>= fun a =>
      fs.entriesOf disk l' >>= fun b => .ok (a ++ b)) := by
  induction l with
  | nil =>
    rw [nil_append, entriesOf]
    cases fs.entriesOf disk l' <;> rfl
  | cons r l ih =>
    rw [cons_append, entriesOf, entriesOf, ih]
    cases fs.entryOf disk r with
    | error e => rfl
    | ok entry =>
      cases fs.entriesOf disk l with
      | error e => rfl
      | ok a => cases fs.entriesOf disk l' <;> rfl

theorem entryOf_safe_iff (r : Ext2DirEntry × Str) : Safe (fs.entryOf disk r) ↔
      (r.1.fileType = 1 → Safe (fs.readInode disk r.1.inode.toNat)) := by
  rw [entryOf, entrySize]
  by_cases hfile : r.1.fileType = 1
  · rw [if_pos hfile]
    cases fs.readInode disk r.1.inode.toNat with
    | error e => simp [hfile]
    | ok inode => simp
  · simp [hfile]

theorem entriesOf_safe_iff (l : List (Ext2DirEntry × Str)) : Safe (fs.entriesOf disk l) ↔
      ∀ r ∈ l, r.1.fileType = 1 → Safe (fs.readInode disk r.1.inode.toNat) := by
  induction l with
  | nil => simp [entriesOf]
  | cons r l ih =>
    rw [entriesOf, safe_bind, forall_mem_cons, ← ih, ← entryOf_safe_iff]
    refine ⟨?_, ?_⟩
    · intro h
      obtain ⟨entry, hentry, hrest⟩ := h
      obtain ⟨entries, hentries, _⟩ := safe_bind.1 hrest
      exact ⟨⟨entry, hentry⟩, entries, hentries⟩
    · intro h
      obtain ⟨⟨entry, hentry⟩, entries, hentries⟩ := h
      exact ⟨entry, hentry, safe_bind.2 ⟨entries, hentries, safe_ok _⟩⟩

/-- The inode numbers and names of a listing are those of its records. -/
theorem entriesOf_eq_ok {l : List (Ext2DirEntry × Str)} (h : fs.entriesOf disk l = .ok entries) :
    entries.map (fun e => (e.inode, e.name)) = l.map fun r => (r.1.inode, r.2) := by
  induction l generalizing entries with
  | nil =>
    cases h
    rfl
  | cons r l ih =>
    obtain ⟨entry, hentry, h⟩ := bind_eq_ok.1 h
    obtain ⟨rest, hrest, h⟩ := bind_eq_ok.1 h
    obtain ⟨size, _, hmk⟩ := bind_eq_ok.1 hentry
    cases h
    cases hmk
    rw [map_cons, map_cons, ih hrest]

theorem scan_list (h : fs.GoodSize) (f : Bytes) (entries : List DirEntry) :
    fs.scan ⟨4096, f⟩ (fs.listBody disk ⟨4096, f⟩) entries
      = (fs.entriesOf disk (listed fs.blockSize f) >>= fun es => .ok (entries ++ es)) := by
  have hb := h.bounds
  suffices hloop : ∀ fuel off entries, fs.blockSize ≤ off + fuel →
      (⟨4096, f⟩ : Buf).walk Ext2DirEntry.len fs.blockSize (fs.listBody disk ⟨4096, f⟩)
        fuel off entries
      = (fs.entriesOf disk (listedFrom fs.blockSize f fuel off) >>= fun es =>
          .ok (entries ++ es)) by
    exact hloop fs.blockSize 0 entries (by omega)
  intro fuel
  induction fuel with
  | zero =>
    intro off entries hfuel
    rw [Buf.walk_end (by rw [Ext2DirEntry.size_eq]; omega), listedFrom, entriesOf, ok_bind,
      append_nil]
  | succ fuel ih =>
    intro off entries hfuel
    rw [listedFrom]
    by_cases hin : off + 8 ≤ fs.blockSize
    swap
    · rw [if_neg hin, Buf.walk_end hin, entriesOf, ok_bind, append_nil]
    rw [if_pos hin, Buf.walk_step hb.2 hin]
    generalize headerAt Ext2DirEntry f off = e
    rw [listBody]
    by_cases hstop : e.recLen = 0 ∨ fs.blockSize - off < e.recLen.toNat
    · rw [if_pos hstop, if_pos hstop, ok_bind, entriesOf, ok_bind, append_nil]
    have hpos : e.recLen.toNat ≠ 0 := by
      intro hzero
      exact hstop (.inl (UInt16.toNat_inj.1 hzero))
    rw [if_neg hstop, if_neg hstop]
    by_cases hdead : e.inode = 0
    · rw [if_pos hdead, if_pos hdead]
      exact ih _ _ (by rw [Ext2DirEntry.len]; omega)
    rw [if_neg hdead, if_neg hdead]
    by_cases hlong : fs.blockSize < off + 8 + e.nameLen.toNat
    · rw [if_pos hlong, if_pos hlong, ok_bind, entriesOf, ok_bind, append_nil]
    have hslice := @Buf.slice_ok ⟨4096, f⟩ (off + 8) (off + 8 + e.nameLen.toNat) (by omega)
      (by simp only []; omega)
    rw [if_neg hlong, if_neg hlong, hslice, entriesOf, entryOf]
    simp only [Nat.add_sub_cancel_left]
    cases fs.entrySize disk e with
    | error err => rfl
    | ok size =>
      simp only [ok_bind]
      rw [show Ext2DirEntry.len e = e.recLen.toNat from rfl, ih _ _ (by omega)]
      cases fs.entriesOf disk (listedFrom fs.blockSize f fuel (off + e.recLen.toNat)) with
      | error err => rfl
      | ok es =>
        simp only [append_assoc]
        rfl

/-- The records that a listing of a directory reports: its blocks up to the
first zero pointer. -/
def listedIn (fs : Ext2) (disk : Disk) (ptrs : List UInt32) : List (Ext2DirEntry × Str) :=
  (ptrs.takeWhile (· ≠ 0)).flatMap fun p => listed fs.blockSize (fs.block disk p.toNat)

theorem listBlocks_eq (h : fs.GoodSize)
    (ha : ∀ p ∈ ptrs.takeWhile (· ≠ 0), fs.Addressable p.toNat) (entries : List DirEntry) :
    fs.listBlocks disk ptrs entries
      = (fs.entriesOf disk (fs.listedIn disk ptrs) >>= fun es => .ok (entries ++ es)) := by
  have hb := h.bounds
  induction ptrs generalizing entries with
  | nil =>
    rw [listBlocks, listedIn, takeWhile_nil, flatMap_nil, entriesOf, ok_bind, append_nil]
  | cons p ptrs ih =>
    rw [listBlocks, listedIn]
    by_cases hp : p = 0
    · rw [if_pos hp, takeWhile_cons_of_neg (by simp [hp]), flatMap_nil, entriesOf,
        ok_bind, append_nil]
    have htake : List.takeWhile (· ≠ 0) (p :: ptrs) = p :: List.takeWhile (· ≠ 0) ptrs :=
      takeWhile_cons_of_pos (by simp [hp])
    rw [htake] at ha ⊢
    rw [if_neg hp, readBlocks_zeroed h.power (ha p mem_cons_self) hb.2, ok_bind,
      scan_list h, flatMap_cons, entriesOf_append]
    cases fs.entriesOf disk (listed fs.blockSize (fs.block disk p.toNat)) with
    | error err => rfl
    | ok es =>
      simp only [ok_bind]
      rw [ih fun q hq => ha q (mem_cons_of_mem _ hq), listedIn]
      generalize fs.entriesOf disk (List.flatMap (fun p =>
        listed fs.blockSize (fs.block disk p.toNat)) (List.takeWhile (· ≠ 0) ptrs)) = rest
      cases rest with
      | error err => rfl
      | ok es' => simp only [ok_bind, append_assoc]

/-- A listing stops the kernel at a pointer without a sector number. -/
theorem listBlocks_addressable (h : fs.GoodSize) (hsafe : Safe (fs.listBlocks disk ptrs entries)) :
    ∀ p ∈ ptrs.takeWhile (· ≠ 0), fs.Addressable p.toNat := by
  have hb := h.bounds
  induction ptrs generalizing entries with
  | nil =>
    intro p hp
    cases hp
  | cons q ptrs ih =>
    rw [listBlocks] at hsafe
    by_cases hq : q = 0
    · rw [takeWhile_cons_of_neg (by simp [hq])]
      intro p hp
      cases hp
    rw [if_neg hq] at hsafe
    by_cases haq : fs.Addressable q.toNat
    · rw [readBlocks_zeroed h.power haq hb.2, ok_bind] at hsafe
      obtain ⟨es, _, hrest⟩ := safe_bind.1 hsafe
      rw [takeWhile_cons_of_pos (by simp [hq])]
      exact forall_mem_cons.2 ⟨haq, ih hrest⟩
    · rw [readBlocks_fault h.power haq] at hsafe
      exact absurd hsafe (not_safe_error _)

end Ext2

end Felix
