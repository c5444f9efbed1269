import Felix.Ext2.DirContract
import Felix.Ext2.Listing

/-!
# Directories of arbitrary bytes

The five functions that read directory blocks, on a directory whose inode is
in order and whose blocks hold anything.  `find_dir_entry`, `add_dir_entry` and
`update_dotdot` check every length before they use it, so they end and stay
inside the buffer.  The other two do not check everything:

* `remove_dir_entry` takes the name of a record without a look at its length.
  The buffer has 4096 bytes, so with blocks of that size a name can end
  behind it.
* `list_directory_entries` reads the inode of every record that says it is a
  regular file, and `read_inode` can overflow on a number that is no inode of
  the volume.

`dirFunctions_safe_iff` says that there is nothing else.
-/

namespace Felix

open Bytes Res List

namespace Ext2

variable {fs : Ext2} {g : Geometry} {disk : Disk} {v : Vol} {d bs off : Nat} (f : Nat → Bytes)
  {ptrs : List UInt32}
  {name : Str}

/-! ## The functions that check every length -/

/-- A record that does not stop a loop has a positive length. -/
theorem recLen_pos {e : Ext2DirEntry}
    (h : ¬ (e.recLen = 0 ∨ fs.blockSize - off < e.recLen.toNat)) : 0 < e.len := by
  rcases Nat.eq_zero_or_pos e.len with hz | hpos
  · exact absurd (.inl (UInt16.toNat_inj.1 hz)) h
  · exact hpos

section

variable (hgood : fs.GoodSize) (f : Bytes) (name : Str)
include hgood

/-- A loop over one block of arbitrary bytes ends and keeps its invariant. -/
theorem scan_inv {σ : Type} (I : σ → Prop) {body : σ → Nat → Ext2DirEntry → Res (Step σ)}
    {s : σ} (hs : I s) (hbody : ∀ s off, I s → off + 8 ≤ fs.blockSize →
      (∃ s', body s off (headerAt Ext2DirEntry f off) = .ok (.stop s') ∧ I s') ∨
      ∃ s', body s off (headerAt Ext2DirEntry f off) = .ok (.next s') ∧ I s' ∧
        0 < (headerAt Ext2DirEntry f off).len) : ∃ s', fs.scan ⟨4096, f⟩ body s = .ok s' ∧ I s' :=
  Buf.walk_inv I (by decide) hgood.bounds.2 hbody (by omega) hs

theorem scan_find_safe :
    ∃ found, fs.scan ⟨4096, f⟩ (fs.findBody ⟨4096, f⟩ name) none = .ok found := by
  have hb := hgood.bounds
  refine (scan_inv hgood f (fun _ => True) trivial fun s off _ hoff => ?_).imp fun _ hs => hs.1
  generalize headerAt Ext2DirEntry f off = e
  unfold findBody
  by_cases hstop : e.recLen = 0 ∨ fs.blockSize - off < e.recLen.toNat
  · rw [if_pos hstop]
    exact .inl ⟨s, rfl, trivial⟩
  rw [if_neg hstop]
  by_cases hlong : fs.blockSize < off + 8 + e.nameLen.toNat ∨
      off + e.recLen.toNat < off + 8 + e.nameLen.toNat
  · rw [if_pos hlong]
    exact .inl ⟨s, rfl, trivial⟩
  rw [if_neg hlong]
  have hpos := recLen_pos hstop
  by_cases hdead : e.inode = 0
  · rw [if_neg (by simp [hdead])]
    exact .inr ⟨s, rfl, trivial, hpos⟩
  rw [if_pos hdead, Buf.slice_ok (by omega) (by simp only []; omega), ok_bind]
  split
  · exact .inl ⟨_, rfl, trivial⟩
  · exact .inr ⟨s, rfl, trivial, hpos⟩

theorem scan_add_safe : ∃ offset last, fs.scan ⟨4096, f⟩ fs.addBody (0, 0) = .ok (offset, last) ∧
      last + 8 ≤ fs.blockSize := by
  have hb := hgood.bounds
  suffices hscan : ∃ s, fs.scan ⟨4096, f⟩ fs.addBody (0, 0) = .ok s ∧ s.2 + 8 ≤ fs.blockSize by
    obtain ⟨⟨offset, last⟩, hrun, hlast⟩ := hscan
    exact ⟨offset, last, hrun, hlast⟩
  refine scan_inv hgood f (fun s : Nat × Nat => s.2 + 8 ≤ fs.blockSize) (by simp only []; omega)
    fun s off hs hoff => ?_
  generalize headerAt Ext2DirEntry f off = e
  unfold addBody
  by_cases hstop : e.recLen = 0 ∨ fs.blockSize - off < e.recLen.toNat
  · rw [if_pos hstop]
    exact .inl ⟨s, rfl, hs⟩
  · rw [if_neg hstop]
    exact .inr ⟨_, rfl, hoff, recLen_pos hstop⟩

theorem scan_dotdot_safe : ∃ found, fs.scan ⟨4096, f⟩ (fs.dotdotBody ⟨4096, f⟩) none = .ok found ∧
      ∀ r, found = some r → r.1 + 8 ≤ fs.blockSize := by
  have hb := hgood.bounds
  refine scan_inv hgood f
    (fun s : Option (Nat × Ext2DirEntry) => ∀ r, s = some r → r.1 + 8 ≤ fs.blockSize)
    (fun r hr => by cases hr) fun s off hs hoff => ?_
  generalize headerAt Ext2DirEntry f off = e
  unfold dotdotBody
  by_cases hstop : e.recLen = 0 ∨ fs.blockSize - off < e.recLen.toNat
  · rw [if_pos hstop]
    exact .inl ⟨s, rfl, hs⟩
  rw [if_neg hstop]
  by_cases hlong : fs.blockSize < off + 8 + e.nameLen.toNat
  · rw [if_pos hlong]
    exact .inl ⟨s, rfl, hs⟩
  rw [if_neg hlong, Buf.slice_ok (by omega) (by simp only []; omega), ok_bind]
  split
  · refine .inl ⟨_, rfl, fun r hr => ?_⟩
    cases hr
    exact hoff
  · exact .inr ⟨s, rfl, hs, recLen_pos hstop⟩

theorem shrinkLast_safe {b : Buf} (hbuf : b.len = 4096) (offset : Nat) {last : Nat}
    (hlast : last + 8 ≤ fs.blockSize) :
    ∃ b' offset', shrinkLast b offset last = .ok (b', offset') ∧ b'.len = 4096 := by
  have hb := hgood.bounds
  unfold shrinkLast
  by_cases hne : last ≠ offset
  swap
  · rw [if_neg hne]
    exact ⟨b, offset, rfl, hbuf⟩
  have hin : last + Packed.size Ext2DirEntry ≤ b.len := by
    rw [Ext2DirEntry.size_eq]
    omega
  rw [if_pos hne, Buf.load_ok hin, ok_bind]
  simp only []
  split
  · rw [Buf.store_ok hin]
    exact ⟨_, _, rfl, hbuf⟩
  · exact ⟨b, offset, rfl, hbuf⟩

theorem placeEntry_safe (inodeNum : Nat) (fileType : UInt8) :
    ∃ placed, fs.placeEntry ⟨4096, f⟩ name inodeNum fileType = .ok placed := by
  have hb := hgood.bounds
  have hmin := Ext2DirEntry.le_minLen (name.bytes.length % 2 ^ 8)
  have hshort := length_shortName name
  obtain ⟨offset, last, hscan, hlast⟩ := scan_add_safe hgood f
  unfold placeEntry
  rw [hscan, ok_bind]
  simp only []
  split
  swap
  · exact ⟨none, rfl⟩
  obtain ⟨buf, offset', hshrink, hbuf⟩ := shrinkLast_safe hgood (b := ⟨4096, f⟩) rfl offset
    hlast
  rw [hshrink, ok_bind]
  split
  swap
  · exact ⟨none, rfl⟩
  rw [subW_ok (by omega), ok_bind,
    Buf.store_ok (by rw [Ext2DirEntry.size_eq, hbuf]; omega), ok_bind,
    show name.bytes.take (name.bytes.length % 2 ^ 8) = shortName name from rfl,
    Buf.copyNonoverlapping_ok (by simp only []; omega)]
  exact ⟨_, rfl⟩

end

theorem findBlocks_safe (h : fs.Shows g disk v) (name : Str)
    (hdata : ∀ b ∈ leading ptrs, fs.DataBlock g b) : Safe (fs.findBlocks disk name ptrs) := by
  have hgood := h.sound.mountable.size
  induction ptrs with
  | nil => exact safe_ok _
  | cons p ptrs ih =>
    rw [findBlocks]
    by_cases hp : p = 0
    · rw [if_pos hp]
      exact safe_ok _
    rw [leading_cons hp] at hdata
    obtain ⟨hfirst, hrest⟩ := forall_mem_cons.1 hdata
    obtain ⟨found, hscan⟩ := scan_find_safe hgood (v.block p.toNat) name
    rw [if_neg hp, h.readBlock_eq hfirst hgood.bounds.2, ok_bind, hscan]
    cases found with
    | some n => exact safe_ok _
    | none => exact ih hrest

namespace DirShape

variable (h : fs.Shows g disk v) (hd : fs.DirShape g v d) (name : Str)
  (inodeNum : Nat) (fileType : UInt8)
include h hd

theorem findDirEntry_safe : Safe (fs.findDirEntry disk d name) := by
  unfold findDirEntry
  rw [h.readInode_eq hd.valid, ok_bind, if_neg (by simp [hd.isDir])]
  exact findBlocks_safe h name fun b hb => (hd.data b hb).1

theorem updateDotdot_safe (parent : Nat) : Safe (fs.updateDotdot disk d parent) := by
  have hgood := h.sound.mountable.size
  have hb := hgood.bounds
  unfold updateDotdot
  rw [h.readInode_eq hd.valid, ok_bind]
  by_cases hz : (v.inode d).ptr 0 = 0
  · rw [if_pos hz]
    exact safe_ok _
  have hdata : fs.DataBlock g ((v.inode d).ptr 0).toNat := by
    obtain ⟨_, _, hend, _⟩ := dirBlocks_spec (v.inode d)
    refine (hd.data _ (ptr_mem_dirBlocks (Nat.pos_of_ne_zero fun hzero => hz ?_))).1
    rw [hzero] at hend
    exact hend (by decide)
  obtain ⟨found, hscan, hin⟩ := scan_dotdot_safe hgood (v.block ((v.inode d).ptr 0).toNat)
  rw [if_neg hz, h.readBlock_eq hdata hb.2, ok_bind, hscan]
  cases found with
  | none => exact safe_ok _
  | some r =>
    obtain ⟨disk', hrun, _⟩ := relabel_eq h hdata (hin r rfl) (UInt32.ofNat parent)
    exact ⟨_, hrun⟩

theorem addBlocks_safe (k : Nat) {i : Nat} (hi : i + k = (dirBlocks (v.inode d)).length) :
    Safe (fs.addBlocks d name inodeNum fileType (12 - i) i (v.inode d) disk) := by
  have hgood := h.sound.mountable.size
  obtain ⟨hle, hused, _, _⟩ := dirBlocks_spec (v.inode d)
  induction k generalizing i with
  | zero =>
    rw [show i = (dirBlocks (v.inode d)).length from hi]
    rcases DirShape.addEntry_eq h hd rfl with ⟨hrun, _⟩ | ⟨_, _, hrun, _⟩
    · exact ⟨_, hrun⟩
    · exact ⟨_, hrun⟩
  | succ k ih =>
    have hmem := @ptr_mem_dirBlocks (v.inode d) i (by omega)
    obtain ⟨placed, hplace⟩ := placeEntry_safe hgood
      (v.block ((v.inode d).ptr i).toNat) name inodeNum fileType
    rw [show 12 - i = 12 - (i + 1) + 1 by omega, addBlocks, if_neg (hused i (by omega)), ok_bind]
    simp only []
    rw [h.readBlock_eq (hd.data _ hmem).1 hgood.bounds.2, ok_bind, hplace, ok_bind]
    cases placed with
    | none => exact ih (by omega)
    | some buf =>
      obtain ⟨disk', hwrite, _⟩ := h.writeBlock_eq (hd.data _ hmem).1 buf.byte
      simp only []
      rw [hwrite]
      exact safe_ok _

theorem addDirEntry_safe : Safe (fs.addDirEntry disk d name inodeNum fileType) := by
  unfold addDirEntry
  rw [h.readInode_eq hd.valid, ok_bind, if_neg (by simp [hd.isDir])]
  exact DirShape.addBlocks_safe h hd name inodeNum fileType _ (Nat.zero_add _)

end DirShape

/-! ## Removing a name -/

/-- The records that `remove_dir_entry` looks at in a block, from an offset on.
It stops at a length of zero and at the name. -/
def visitedFrom (bs : Nat) (f : Bytes) (name : Str) : Nat → Nat → List (Nat × Ext2DirEntry)
  | 0, _ => []
  | fuel + 1, off =>
    if off + 8 ≤ bs ∧ (headerAt Ext2DirEntry f off).recLen ≠ 0 then
      (off, headerAt Ext2DirEntry f off) ::
        if recName f (off, headerAt Ext2DirEntry f off) = name then []
        else visitedFrom bs f name fuel (off + (headerAt Ext2DirEntry f off).len)
    else []

/-- The records that `remove_dir_entry` looks at in a block. -/
def visited (bs : Nat) (f : Bytes) (name : Str) : List (Nat × Ext2DirEntry) :=
  visitedFrom bs f name bs 0

/-- The name of a record ends inside the buffer of 4096 bytes. -/
def NameInBuffer (r : Nat × Ext2DirEntry) : Prop := r.1 + 8 + r.2.nameLen.toNat ≤ 4096

instance : DecidablePred NameInBuffer := fun _ => inferInstanceAs (Decidable (_ ≤ _))

section

variable {bs : Nat} {f : Bytes} {name : Str} {fuel off : Nat}

theorem visitedFrom_nil (h : ¬ (off + 8 ≤ bs ∧ (headerAt Ext2DirEntry f off).recLen ≠ 0)) :
    visitedFrom bs f name fuel off = [] := by
  cases fuel with
  | zero => rfl
  | succ fuel => rw [visitedFrom, if_neg h]

theorem visitedFrom_found (h : off + 8 ≤ bs) (hz : (headerAt Ext2DirEntry f off).recLen ≠ 0)
    (hn : recName f (off, headerAt Ext2DirEntry f off) = name) :
    visitedFrom bs f name (fuel + 1) off = [(off, headerAt Ext2DirEntry f off)] := by
  rw [visitedFrom, if_pos ⟨h, hz⟩, if_pos hn]

theorem visitedFrom_next (h : off + 8 ≤ bs) (hz : (headerAt Ext2DirEntry f off).recLen ≠ 0)
    (hn : recName f (off, headerAt Ext2DirEntry f off) ≠ name) :
    visitedFrom bs f name (fuel + 1) off = (off, headerAt Ext2DirEntry f off) ::
      visitedFrom bs f name fuel (off + (headerAt Ext2DirEntry f off).len) := by
  rw [visitedFrom, if_pos ⟨h, hz⟩, if_neg hn]

end

theorem mem_visitedFrom {f : Bytes} {fuel : Nat}
    {r : Nat × Ext2DirEntry} (h : r ∈ visitedFrom bs f name fuel off) : r.1 + 8 ≤ bs := by
  induction fuel generalizing off with
  | zero => cases h
  | succ fuel ih =>
    rw [visitedFrom] at h
    split at h
    · rename_i hin
      rcases mem_cons.1 h with rfl | h
      · exact hin.1
      split at h
      · cases h
      · exact ih h
    · cases h

/-- With blocks of 1024 or 2048 bytes every name ends inside the buffer. -/
theorem nameInBuffer_of_small (hbs : bs ≤ 2048) {f : Bytes} :
    ∀ r ∈ visited bs f name, NameInBuffer r := by
  intro r hr
  have hin := mem_visitedFrom hr
  have hlt := r.2.nameLen.toNat_lt
  unfold NameInBuffer
  omega

theorem scan_remove_any (hgood : fs.GoodSize) (f : Bytes) (name : Str) :
    fs.scan ⟨4096, f⟩ (removeBody ⟨4096, f⟩ name) none
      = if ∀ r ∈ visited fs.blockSize f name, NameInBuffer r then
          .ok ((visited fs.blockSize f name).find? fun r => recName f r = name)
        else .error .outOfRange := by
  have hb := hgood.bounds
  suffices hloop : ∀ fuel off, fs.blockSize ≤ off + fuel →
      (⟨4096, f⟩ : Buf).walk Ext2DirEntry.len fs.blockSize (removeBody ⟨4096, f⟩ name)
        fuel off none
      = if ∀ r ∈ visitedFrom fs.blockSize f name fuel off, NameInBuffer r then
          .ok ((visitedFrom fs.blockSize f name fuel off).find? fun r => recName f r = name)
        else .error .outOfRange by
    exact hloop fs.blockSize 0 (by omega)
  intro fuel
  induction fuel with
  | zero =>
    intro off hfuel
    rw [Buf.walk_end (by rw [Ext2DirEntry.size_eq]; omega), visitedFrom]
    rfl
  | succ fuel ih =>
    intro off hfuel
    by_cases hin : off + 8 ≤ fs.blockSize
    swap
    · rw [Buf.walk_end hin, visitedFrom_nil fun hboth => hin hboth.1]
      rfl
    rw [Buf.walk_step hb.2 hin]
    rw [removeBody]
    by_cases hz : (headerAt Ext2DirEntry f off).recLen = 0
    · rw [if_pos hz, visitedFrom_nil fun hboth => hboth.2 hz]
      rfl
    have hpos : 0 < (headerAt Ext2DirEntry f off).len :=
      Nat.pos_of_ne_zero fun hzero => hz (UInt16.toNat_inj.1 hzero)
    rw [if_neg hz]
    by_cases hname : NameInBuffer (off, headerAt Ext2DirEntry f off)
    swap
    · have hslice : (⟨4096, f⟩ : Buf).slice (off + 8)
          (off + 8 + (headerAt Ext2DirEntry f off).nameLen.toNat) = .error .outOfRange :=
        if_neg fun hboth => hname hboth.2
      have hmem : (off, headerAt Ext2DirEntry f off)
          ∈ visitedFrom fs.blockSize f name (fuel + 1) off := by
        rw [visitedFrom, if_pos ⟨hin, hz⟩]
        exact mem_cons_self
      rw [hslice, error_bind, error_bind, if_neg fun hall => hname (hall _ hmem)]
    rw [Buf.slice_ok (by omega) hname, Nat.add_sub_cancel_left]
    show ((if recName f (off, headerAt Ext2DirEntry f off) = name then _ else _) >>= _) = _
    by_cases hn : recName f (off, headerAt Ext2DirEntry f off) = name
    · rw [if_pos hn, ok_bind, visitedFrom_found hin hz hn, if_pos (by simpa using hname),
        find?_cons]
      simp only [hn, decide_true]
    rw [if_neg hn, visitedFrom_next hin hz hn, find?_cons]
    simp only [hn, forall_mem_cons, hname, true_and]
    exact ih _ (by omega)

/-- The names that `remove_dir_entry` looks at end inside the buffer: in the
first block, and in the next ones as long as the name is not found. -/
def NamesInBuffer (fs : Ext2) (v : Vol) (name : Str) : List Nat → Prop
  | [] => True
  | b :: rest =>
    (∀ r ∈ visited fs.blockSize (v.block b) name, NameInBuffer r) ∧
      ((∀ r ∈ visited fs.blockSize (v.block b) name, recName (v.block b) r ≠ name) →
        NamesInBuffer fs v name rest)

theorem namesInBuffer_of_small (hbs : fs.blockSize ≤ 2048) (v : Vol) (name : Str)
    (l : List Nat) : NamesInBuffer fs v name l := by
  induction l with
  | nil => trivial
  | cons b l ih => exact ⟨nameInBuffer_of_small hbs, fun _ => ih⟩

theorem removeBlocks_safe_iff (h : fs.Shows g disk v) (name : Str)
    (hdata : ∀ b ∈ leading ptrs, fs.DataBlock g b) :
    Safe (fs.removeBlocks disk name ptrs) ↔ NamesInBuffer fs v name (leading ptrs) := by
  have hgood := h.sound.mountable.size
  have hb := hgood.bounds
  induction ptrs with
  | nil => exact ⟨fun _ => trivial, fun _ => safe_ok _⟩
  | cons p ptrs ih =>
    rw [removeBlocks]
    by_cases hp : p = 0
    · rw [hp]
      exact ⟨fun _ => trivial, fun _ => safe_ok _⟩
    rw [leading_cons hp] at hdata ⊢
    obtain ⟨hfirst, hrest⟩ := forall_mem_cons.1 hdata
    rw [if_neg hp, h.readBlock_eq hfirst hb.2, ok_bind, scan_remove_any hgood, NamesInBuffer]
    generalize hf : v.block p.toNat = f
    by_cases hin : ∀ r ∈ visited fs.blockSize f name, NameInBuffer r
    swap
    · rw [if_neg hin]
      exact ⟨fun hsafe => absurd hsafe (not_safe_error _), fun hboth => absurd hboth.1 hin⟩
    rw [if_pos hin, ok_bind]
    cases hfind : (visited fs.blockSize f name).find? fun r => recName f r = name with
    | none =>
      have habsent : ∀ r ∈ visited fs.blockSize f name, recName f r ≠ name := by
        intro r hr heq
        exact find?_eq_none.1 hfind r hr (decide_eq_true heq)
      rw [and_iff_right hin]
      simp only [ih hrest]
      exact ⟨fun hall _ => hall, fun hall => hall habsent⟩
    | some r =>
      have hr := mem_of_find?_eq_some hfind
      have hname : recName f r = name := by
        have hp := find?_some hfind
        exact of_decide_eq_true hp
      obtain ⟨disk', hrun, _⟩ := relabel_eq h hfirst (mem_visitedFrom hr) 0
      rw [hf] at hrun
      exact ⟨fun _ => ⟨hin, fun hall => absurd hname (hall r hr)⟩, fun _ => ⟨_, hrun⟩⟩

/-! ## Reading an inode of any number -/

/-- The descriptor and the inode that `read_inode` goes to have sector
numbers. -/
def InodeReadable (fs : Ext2) (disk : Disk) (n : Nat) : Prop :=
  n = 0 ∨ fs.Addressable (fs.descBlock (fs.inodeGroup n)) ∧
    fs.Addressable ((fs.descAt disk (fs.inodeGroup n)).bgInodeTable.toNat
      + fs.inodeStart n / fs.blockSize)

theorem getBgDescriptor_any (hm : fs.Mountable) (disk : Disk) (group : Nat) :
    (fs.Addressable (fs.descBlock group) ∧
      fs.getBgDescriptor disk group = .ok (fs.descAt disk group)) ∨
    (¬ fs.Addressable (fs.descBlock group) ∧
      fs.getBgDescriptor disk group = .error .overflow) := by
  have hb := hm.size.bounds
  have hpos : 0 < fs.blockSize / 32 := by omega
  have hmod := Nat.mod_lt group hpos
  rw [getBgDescriptor, if_neg (by simp [hm.mounted])]
  unfold bgdSlot
  simp only []
  rw [divW_ok hpos, ok_bind, modW_ok hpos]
  by_cases hlt : fs.bgdTableBlock + group / (fs.blockSize / 32) < 2 ^ 32
  · rw [addW_ok hlt, ok_bind, ok_bind, mulW_ok (by omega)]
    by_cases ha : fs.Addressable (fs.descBlock group)
    · exact .inl ⟨ha, readStruct_eq hm.size ha
        (by rw [Ext2BlockGroupDescriptor.size_eq]; omega)⟩
    · exact .inr ⟨ha, readStruct_fault hm.size ha⟩
  · refine .inr ⟨fun ha => hlt (ha.lt hm.size), ?_⟩
    rw [addW, if_neg hlt, error_bind, error_bind]

theorem readInode_safe_iff (h : fs.Sound g) (n : Nat) :
    Safe (fs.readInode disk n) ↔ fs.InodeReadable disk n := by
  have hm := h.mountable
  have hb := hm.size.bounds
  have hpos : 0 < fs.blockSize := by omega
  have hipg := h.inodes.1
  have hoff := h.slotOffset_le n
  by_cases hn : n = 0
  · rw [readInode, if_pos (.inr hn)]
    exact ⟨fun _ => .inl hn, fun _ => safe_ok _⟩
  have hcond : ¬ (fs.mounted = false ∨ n = 0) := by
    rw [hm.mounted]
    simp [hn]
  -- the offset inside the table is far below the limit of the cast
  have hsmall : fs.inodeStart n / fs.blockSize % 2 ^ 32 = fs.inodeStart n / fs.blockSize := by
    have hindex := Nat.mod_lt (n - 1) hipg
    have hle := h.inodes.2.1
    have hisz := fs.superblock.sInodeSize.toNat_lt
    have hmul : fs.inodeStart n ≤ 8 * fs.blockSize * fs.superblock.sInodeSize.toNat :=
      Nat.mul_le_mul_right _ (by omega)
    have hdiv : fs.inodeStart n / fs.blockSize ≤ 8 * fs.superblock.sInodeSize.toNat := by
      refine Nat.div_le_of_le_mul (hmul.trans (Nat.le_of_eq ?_))
      rw [Nat.mul_comm 8, Nat.mul_assoc]
    exact Nat.mod_eq_of_lt (by omega)
  rw [readInode, if_neg hcond, inodeSlot, divW_ok hipg]
  change Safe ((fs.getBgDescriptor disk (fs.inodeGroup n) >>= _) >>= _) ↔ _
  rcases getBgDescriptor_any hm disk (fs.inodeGroup n) with ⟨ha, hdesc⟩ | ⟨ha, hdesc⟩
  swap
  · rw [hdesc]
    exact ⟨fun hsafe => absurd hsafe (not_safe_error _),
      fun hor => absurd (hor.resolve_left hn).1 ha⟩
  rw [hdesc, ok_bind, modW_ok hipg, ok_bind]
  simp only []
  rw [divW_ok hpos, modW_ok hpos]
  change Safe ((addW 32 _ (fs.inodeStart n / fs.blockSize % 2 ^ 32) >>= _) >>= _) ↔ _
  rw [hsmall]
  by_cases ha' : fs.Addressable ((fs.descAt disk (fs.inodeGroup n)).bgInodeTable.toNat
      + fs.inodeStart n / fs.blockSize)
  · rw [addW_ok (ha'.lt hm.size), ok_bind, ok_bind]
    rw [readStruct_eq hm.size ha' (by
      exact Nat.le_trans hoff hb.2)]
    exact ⟨fun _ => .inr ⟨ha, ha'⟩, fun _ => safe_ok _⟩
  refine iff_of_false ?_ fun hor => ha' (hor.resolve_left hn).2
  by_cases hlt : (fs.descAt disk (fs.inodeGroup n)).bgInodeTable.toNat
      + fs.inodeStart n / fs.blockSize < 2 ^ 32
  · rw [addW_ok hlt, ok_bind, ok_bind]
    rw [readStruct_fault hm.size ha']
    exact not_safe_error _
  · rw [addW, if_neg hlt]
    exact not_safe_error _

/-! ## All five functions -/

namespace DirShape

variable (h : fs.Shows g disk v) (hd : fs.DirShape g v d)
include h hd

theorem removeDirEntry_safe_iff (name : Str) : Safe (fs.removeDirEntry disk d name)
      ↔ NamesInBuffer fs v name (dirBlocks (v.inode d)) := by
  unfold removeDirEntry
  rw [h.readInode_eq hd.valid, ok_bind, if_neg (by simp [hd.isDir])]
  exact removeBlocks_safe_iff h name fun b hb => (hd.data b hb).1

theorem listDirectoryEntries_safe_iff {path : Str}
    (hpath : fs.resolvePath disk path = .ok (some d)) :
    Safe (fs.listDirectoryEntries disk path)
      ↔ ∀ r ∈ fs.listedIn disk (v.inode d).directPtrs,
          r.1.fileType = 1 → fs.InodeReadable disk r.1.inode.toNat := by
  have hgood := h.sound.mountable.size
  have haddr : ∀ p ∈ (v.inode d).directPtrs.takeWhile (· ≠ 0),
      fs.Addressable p.toNat := fun p hp =>
    (hd.data p.toNat (mem_map_of_mem hp)).1.present.2.1
  unfold listDirectoryEntries
  rw [hpath, ok_bind]
  simp only []
  rw [h.readInode_eq hd.valid, ok_bind, if_neg (by simp [hd.isDir]), listBlocks_eq hgood haddr]
  simp only [← readInode_safe_iff h.sound]
  rw [← entriesOf_safe_iff]
  cases fs.entriesOf disk (fs.listedIn disk (v.inode d).directPtrs) with
  | error e => exact iff_of_false (not_safe_error _) (not_safe_error _)
  | ok entries => exact iff_of_true (safe_ok _) (safe_ok _)

end DirShape

/-- The five functions on one directory end without a fault. -/
structure DirFunctionsSafe (fs : Ext2) (disk : Disk) (d : Nat) (path name : Str)
    (inodeNum parent : Nat) (fileType : UInt8) : Prop where
  find : Safe (fs.findDirEntry disk d name)
  add : Safe (fs.addDirEntry disk d name inodeNum fileType)
  remove : Safe (fs.removeDirEntry disk d name)
  dotdot : Safe (fs.updateDotdot disk d parent)
  list : Safe (fs.listDirectoryEntries disk path)

/-- On a directory of arbitrary bytes the five functions are safe exactly when
the names that a removal looks at end inside the buffer, and the inodes of the
regular files that a listing reports can be read. -/
theorem dirFunctions_safe_iff (h : fs.Volume g disk) (hd : fs.DirShape g (fs.view g disk) d)
    {path : Str} (hpath : fs.resolvePath disk path = .ok (some d)) (name : Str)
    (inodeNum parent : Nat) (fileType : UInt8) :
    DirFunctionsSafe fs disk d path name inodeNum parent fileType
      ↔ NamesInBuffer fs (fs.view g disk) name (dirBlocks ((fs.view g disk).inode d)) ∧
        ∀ r ∈ fs.listedIn disk ((fs.view g disk).inode d).directPtrs,
          r.1.fileType = 1 → fs.InodeReadable disk r.1.inode.toNat := by
  have h := h.shows
  rw [← DirShape.removeDirEntry_safe_iff h hd, ← DirShape.listDirectoryEntries_safe_iff h hd hpath]
  refine ⟨fun hsafe => ⟨hsafe.remove, hsafe.list⟩, fun hsafe => ?_⟩
  exact ⟨DirShape.findDirEntry_safe h hd name,
    DirShape.addDirEntry_safe h hd name inodeNum fileType, hsafe.1,
    DirShape.updateDotdot_safe h hd parent, hsafe.2⟩

theorem rootDiskWith_listed : ∃ b, smallFs.DataBlock smallGeometry b ∧
      smallFs.block (rootDiskWith f) b = cut 2048 (f b) ∧
      smallFs.listedIn (rootDiskWith f)
        ((smallFs.view smallGeometry (rootDiskWith f)).inode 2).directPtrs
        = listed 2048 (cut 2048 (f b)) := by
  obtain ⟨b, h⟩ := rootDiskWith_spec f
  have hblock : smallFs.block (rootDiskWith f) b = cut 2048 (f b) := by
    rw [← view_block h.data, h.block]
  refine ⟨b, h.data, hblock, ?_⟩
  have hflat : ∀ ptrs, smallFs.listedIn (rootDiskWith f) ptrs
      = (leading ptrs).flatMap fun c =>
        listed 2048 (smallFs.block (rootDiskWith f) c) := by
    intro ptrs
    unfold leading
    rw [flatMap_map]
    rfl
  rw [hflat, h.inode]
  change (dirBlocks (rootInode b)).flatMap _ = _
  rw [h.blocks.1, flatMap_singleton, hblock]

theorem rootDiskWith_resolvePath : smallFs.resolvePath (rootDiskWith f) .root = .ok (some 2) := by
  unfold resolvePath
  rw [if_neg (by decide), if_pos (.inl rfl)]

/-- A directory block with `.`, `..` and the regular file `a`, which is inode 13. -/
def oneFileBlock : Bytes :=
  put8 32 97 <| splice 24 8 (Ext2DirEntry.encode
    { inode := 13, recLen := 2024, nameLen := 1, fileType := 1 }) (dotsBlock 2 2 12)

theorem oneFileBlock_listed : (listed 2048 (cut 2048 oneFileBlock)).map (·.1.inode) = [2, 2, 13] ∧
    ∀ r ∈ listed 2048 (cut 2048 oneFileBlock), r.1.fileType = 1 → r.1.inode = 13 := by
  decide +kernel

theorem dirFunctions_safe_rootDisk : DirFunctionsSafe (smallVolume 2048)
    (rootDiskWith fun _ => oneFileBlock) 2 .root nameA 13 2 1 := by
  obtain ⟨b, _, hvol⟩ := rootDiskWith_spec fun _ => oneFileBlock
  obtain ⟨c, _, _, hlisted⟩ := rootDiskWith_listed fun _ => oneFileBlock
  refine (dirFunctions_safe_iff hvol (rootDiskWith_dirShape _) (rootDiskWith_resolvePath _)
    nameA 13 2 1).2 ⟨namesInBuffer_of_small (by decide) _ _ _, fun r hr hregular => ?_⟩
  rw [hlisted] at hr
  rw [oneFileBlock_listed.2 r hr hregular, ← readInode_safe_iff hvol.sound,
    hvol.shows.readInode_eq ⟨by decide, by decide⟩]
  exact safe_ok _

/-- A record that says it is a regular file, with the number of an inode whose
descriptor would lie at the start of block `b`. -/
def corruptEntry (b : Nat) : Ext2DirEntry where
  inode := UInt32.ofNat ((b - 1) * 64 * 16 + 1)
  recLen := 2048
  nameLen := 4
  fileType := 1

/-- A root directory in block `b` with that record.  The descriptor lies in the
block itself, and its bytes give the largest block number as the place of the
inode table. -/
def corruptRoot (b : Nat) : Bytes :=
  splice 0 8 (Packed.encode (corruptEntry b)) fun _ => 0xFF

/-- A listing of that directory stops the kernel. -/
theorem corruptRoot_not_safe : (smallVolume 2048).Volume smallGeometry (rootDiskWith corruptRoot) ∧
      (smallVolume 2048).DirShape smallGeometry
        ((smallVolume 2048).view smallGeometry (rootDiskWith corruptRoot)) 2 ∧
      (smallVolume 2048).resolvePath (rootDiskWith corruptRoot) .root = .ok (some 2) ∧
      ¬ DirFunctionsSafe (smallVolume 2048) (rootDiskWith corruptRoot) 2 .root nameA 13 2 1 := by
  obtain ⟨_, _, hvol⟩ := rootDiskWith_spec corruptRoot
  have hshape := rootDiskWith_dirShape corruptRoot
  have hpath := rootDiskWith_resolvePath corruptRoot
  have hstops : ((smallVolume 2048).listDirectoryEntries (rootDiskWith corruptRoot) .root).isOk
      = false := by
    decide +kernel
  refine ⟨hvol, hshape, hpath, fun hsafe => ?_⟩
  obtain ⟨r, hrun⟩ := hsafe.list
  rw [hrun] at hstops
  cases hstops

end Ext2

end Felix
