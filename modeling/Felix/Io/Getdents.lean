import Mathlib.Data.List.Basic
import Felix.Base.Runs

/-!
# `getdents64`

A call packs records of a directory into the buffer of the caller, from the entry that the
descriptor has come to, and returns how many bytes it used.  `Reading` is the descriptor
together with all records that were returned through it.

The call stops at a record for which there is no room.  If this is already the first one
then it returns 0, as it does at the end of the directory.  `getdents_delivers_iff` is the
exact condition under which a run of calls returns the listing.
-/

namespace Felix.Io

open List

/-! ## The call -/

/-- What is read of a `DirEntry`. -/
structure DirEntry where
  inode : UInt32
  name : List UInt8
  fileType : UInt8
  deriving DecidableEq

/-- A record of the buffer. -/
structure Dirent where
  ino : UInt32
  off : Nat
  reclen : UInt16
  dtype : UInt8
  name : List UInt8
  deriving DecidableEq

namespace DirEntry

/-- The bytes that are written for an entry: 19 of them, the name and a zero. -/
def base (e : DirEntry) : Nat := 19 + e.name.length + 1

/-- The length of a record, a multiple of 8. -/
def reclen (e : DirEntry) : Nat := (e.base + 7) / 8 * 8

/-- The record for the entry with an index. -/
def record (idx : Nat) (e : DirEntry) : Dirent where
  ino := e.inode
  off := idx + 1
  reclen := UInt16.ofNat e.reclen
  dtype := if e.fileType = 2 then 4 else 8
  name := e.name

end DirEntry

/-- What `list_directory_entries` returns.  The length of a name has 8 bits in every file
system, and its text at most three times as many bytes.  The kernel holds the listing in
its memory. -/
structure Listing where
  entries : List DirEntry
  short : ∀ e ∈ entries, e.name.length < 2 ^ 15
  small : (entries.map DirEntry.reclen).sum < 2 ^ 32

/-- What a descriptor stands for. -/
inductive DirTarget where
  | noTask
  | notDir
  | dir (listing : Option Listing)

def ebadf : Nat := 2 ^ 32 - 9
def enotdir : Nat := 2 ^ 32 - 20
def einval : Nat := 2 ^ 32 - 22

/-- The loop of `sys_getdents64` over the entries that are left.  The result has the records
with their positions, the index of the next entry and the number of bytes. -/
def getdentsLoop (count : Nat) : List DirEntry → Nat → Nat → List (Nat × Dirent) × Nat × Nat
  | [], idx, written => ([], idx, written)
  | e :: rest, idx, written =>
    if count < written + e.reclen then ([], idx, written)
    else
      ((written, e.record idx) :: (getdentsLoop count rest (idx + 1) (written + e.reclen)).1,
        (getdentsLoop count rest (idx + 1) (written + e.reclen)).2)

/-- `sys_getdents64` for a descriptor with a cookie.  The result has the returned value, the
records and the new cookie. -/
def sysGetdents64 (target : DirTarget) (null : Bool) (count cookie : Nat) :
    Nat × List (Nat × Dirent) × Nat :=
  if null = true ∨ count < 24 then (einval, [], cookie)
  else
    match target with
    | .noTask => (ebadf, [], cookie)
    | .notDir => (enotdir, [], cookie)
    | .dir none => (enotdir, [], cookie)
    | .dir (some listing) =>
      let (records, idx, written) :=
        getdentsLoop count (listing.entries.drop cookie) cookie 0
      (written, records, idx)

/-! ## Packed records -/

/-- The records lie one behind the other, from one position to another. -/
inductive Packed : Nat → List (Nat × Dirent) → Nat → Prop where
  | nil (pos : Nat) : Packed pos [] pos
  | cons {pos stop : Nat} {d : Dirent} {rest : List (Nat × Dirent)}
    (h : Packed (pos + d.reclen.toNat) rest stop) : Packed pos ((pos, d) :: rest) stop

theorem Packed.stop_eq {pos stop : Nat} (h : Packed pos [] stop) : stop = pos := by
  cases h
  rfl

/-- A record is aligned, and what is written for it lies in its part of the buffer. -/
def Dirent.Inside (count pos : Nat) (d : Dirent) : Prop :=
  8 ∣ pos ∧ pos + d.reclen.toNat ≤ count ∧ 19 + d.name.length + 1 ≤ d.reclen.toNat

theorem DirEntry.reclen_lt {e : DirEntry} (h : e.name.length < 2 ^ 15) : e.reclen < 2 ^ 16 := by
  unfold DirEntry.reclen DirEntry.base
  omega

theorem DirEntry.record_reclen {e : DirEntry} (h : e.name.length < 2 ^ 15) (idx : Nat) :
    (e.record idx).reclen.toNat = e.reclen :=
  UInt16.toNat_ofNat_of_lt' (DirEntry.reclen_lt h)

variable {count idx written : Nat} {entries : List DirEntry}

/-- What the loop does: it takes a number of entries, and stops at the end or at a record
for which there is no room. -/
theorem getdentsLoop_spec (hshort : ∀ e ∈ entries, e.name.length < 2 ^ 15) (hdvd : 8 ∣ written) :
    ∃ n, n ≤ entries.length ∧
      (getdentsLoop count entries idx written).1.map Prod.snd
        = (entries.take n).mapIdx (fun i e => e.record (idx + i)) ∧
      (getdentsLoop count entries idx written).2.1 = idx + n ∧
      Packed written (getdentsLoop count entries idx written).1
        (getdentsLoop count entries idx written).2.2 ∧
      (∀ d ∈ (getdentsLoop count entries idx written).1, d.2.Inside count d.1) ∧
      (n = 0 ↔ ∀ e ∈ entries.head?, count < written + e.reclen) ∧
      written + n ≤ (getdentsLoop count entries idx written).2.2 := by
  induction entries generalizing idx written with
  | nil =>
    exact ⟨0, Nat.le_refl 0, rfl, rfl, .nil _, by simp [getdentsLoop], by simp, Nat.le_refl _⟩
  | cons e rest ih =>
    obtain ⟨hname, hrest⟩ := forall_mem_cons.1 hshort
    by_cases hroom : count < written + e.reclen
    · refine ⟨0, Nat.zero_le _, ?_⟩
      rw [getdentsLoop, if_pos hroom]
      exact ⟨rfl, rfl, .nil _, by simp, by simp [hroom], Nat.le_refl _⟩
    have hnext : 8 ∣ written + e.reclen := Nat.dvd_add hdvd (Nat.dvd_mul_left ..)
    obtain ⟨n, hn, hrecords, hidx, hpacked, hinside, _, hbytes⟩ :=
      @ih (idx + 1) (written + e.reclen) hrest hnext
    have hlen := DirEntry.record_reclen hname idx
    refine ⟨n + 1, Nat.succ_le_succ hn, ?_⟩
    rw [getdentsLoop, if_neg hroom]
    refine ⟨?_, ?_, ?_, ?_, by simp [hroom], ?_⟩
    · simp only [map_cons, take_succ_cons, mapIdx_cons, hrecords, Nat.add_zero,
        Nat.add_assoc, Nat.add_comm 1]
    · rw [hidx, Nat.add_assoc, Nat.add_comm 1]
    · refine .cons ?_
      rw [hlen]
      exact hpacked
    · refine forall_mem_cons.2 ⟨⟨hdvd, ?_, ?_⟩, hinside⟩
      · rw [hlen]
        omega
      · rw [hlen]
        show e.base ≤ (e.base + 7) / 8 * 8
        omega
    · have hpos : 0 < e.reclen := by
        unfold DirEntry.reclen DirEntry.base
        omega
      show written + (n + 1) ≤ (getdentsLoop count rest (idx + 1) (written + e.reclen)).2.2
      omega

/-! ## Runs -/

/-- The records of a listing. -/
def Listing.records (l : Listing) : List Dirent := l.entries.mapIdx fun i e => e.record i

/-- A descriptor, and the records that were returned through it. -/
structure Reading where
  cookie : Nat
  delivered : List Dirent

/-- A descriptor that was just opened. -/
def Reading.start : Reading := ⟨0, []⟩

/-- A call with a buffer of `count` bytes.  It returns a number and records with their
positions. -/
def getdents (l : Listing) (count : Nat) (s : Reading) :
    Res ((Nat × List (Nat × Dirent)) × Reading) :=
  let (ret, records, cookie) := sysGetdents64 (.dir (some l)) false count s.cookie
  .ok ((ret, records), ⟨cookie, s.delivered ++ records.map Prod.snd⟩)

/-- The records that were returned are a first part of the listing, those of this call are
packed into the buffer, and 0 is returned only when there are no more. -/
def Delivers (l : Listing) (count : Nat) (s : Reading) : Prop :=
  ∀ r s', getdents l count s = .ok (r, s') → s'.delivered <+: l.records ∧
    (r.2 = [] ∨ Packed 0 r.2 r.1) ∧ (∀ d ∈ r.2, d.2.Inside count d.1) ∧
    (r.1 = 0 → s'.delivered = l.records)

/-- There is room for the next record.  A buffer of less than 24 bytes is refused. -/
def HasRoom (l : Listing) (count : Nat) (s : Reading) : Prop :=
  count < 24 ∨ ∀ e ∈ l.entries[s.cookie]?, e.reclen ≤ count
  deriving Decidable

/-- The cookie is the number of records that were returned. -/
structure Reading.Wf (l : Listing) (s : Reading) : Prop where
  le : s.cookie ≤ l.entries.length
  delivered : s.delivered = l.records.take s.cookie

variable {l : Listing} {s s' : Reading}

theorem wf_start : Reading.start.Wf l := ⟨Nat.zero_le _, rfl⟩

/-- Taking some entries from the middle of a listing. -/
theorem records_take_add (l : Listing) (k n : Nat) : l.records.take (k + n) = l.records.take k ++
      ((l.entries.drop k).take n).mapIdx (fun i e => e.record (k + i)) := by
  unfold Listing.records
  rw [take_add]
  congr 1
  apply ext_getElem?
  intro i
  simp only [getElem?_take, getElem?_drop, getElem?_mapIdx]
  split
  · rfl
  · rfl

theorem getdents_spec (h : s.Wf l) (hcount : 24 ≤ count) : ∃ ret records n, getdents l count s
        = .ok ((ret, records), ⟨s.cookie + n, l.records.take (s.cookie + n)⟩) ∧
      s.cookie + n ≤ l.entries.length ∧ Packed 0 records ret ∧
      (∀ d ∈ records, d.2.Inside count d.1) ∧ n ≤ ret ∧
      (n = 0 ↔ ∀ e ∈ l.entries[s.cookie]?, count < e.reclen) ∧ (n = 0 → ret = 0) := by
  have hshort : ∀ e ∈ l.entries.drop s.cookie, e.name.length < 2 ^ 15 := fun e he =>
    l.short e (mem_of_mem_drop he)
  obtain ⟨n, hn, hrecords, hidx, hpacked, hinside, hstop, hbytes⟩ :=
    @getdentsLoop_spec count s.cookie 0 _ hshort (Nat.dvd_zero 8)
  rw [length_drop] at hn
  refine ⟨_, _, n, ?_, ?_, hpacked, hinside, by omega, ?_, fun hzero => ?_⟩
  · unfold getdents sysGetdents64
    rw [if_neg (by simp only [Bool.false_eq_true, false_or]; omega)]
    dsimp only
    rw [hidx, hrecords, h.delivered, records_take_add]
  · have := h.le
    omega
  · rw [hstop, head?_drop]
    simp only [Nat.zero_add]
  · subst hzero
    rw [take_zero, mapIdx_nil, map_eq_nil_iff] at hrecords
    rw [hrecords] at hpacked
    exact hpacked.stop_eq

theorem getdents_refused (hcount : count < 24) (s : Reading) :
    getdents l count s = .ok ((einval, []), s) := by
  unfold getdents sysGetdents64
  rw [if_pos (.inr hcount)]
  simp

theorem length_records : l.records.length = l.entries.length := length_mapIdx

theorem getdents_wf (h : s.Wf l) {r : Nat × List (Nat × Dirent)}
    (hrun : getdents l count s = .ok (r, s')) : s'.Wf l := by
  by_cases hcount : 24 ≤ count
  · obtain ⟨ret, records, n, heq, hle, _⟩ := getdents_spec h hcount
    rw [heq] at hrun
    cases hrun
    exact ⟨hle, rfl⟩
  rw [getdents_refused (by omega)] at hrun
  cases hrun
  exact h

theorem delivers_iff (h : s.Wf l) : Delivers l count s ↔ HasRoom l count s := by
  by_cases hcount : 24 ≤ count
  · obtain ⟨ret, records, n, heq, hle, hpacked, hinside, hret, hstop, hzero⟩ :=
      getdents_spec h hcount
    unfold Delivers
    rw [heq]
    constructor
    · intro hall
      obtain ⟨_, _, _, hend⟩ := hall _ _ rfl
      refine .inr fun e he => Nat.le_of_not_lt fun hlt => ?_
      -- no record was returned, but this one is left
      have hn : n = 0 := hstop.2 fun e' he' => by
        rw [Option.mem_unique he' he]
        exact hlt
      have hfull := congrArg List.length (hend (hzero hn))
      rw [length_take, length_records] at hfull
      obtain ⟨hlast, _⟩ := List.getElem?_eq_some_iff.1 he
      omega
    · rintro (hsmall | hroom) r s' hrun
      · omega
      · cases hrun
        refine ⟨List.take_prefix .., .inr hpacked, hinside, fun hret0 => ?_⟩
        have hn : n = 0 := by
          omega
        refine take_of_length_le ?_
        rw [length_records, hn]
        by_contra hlt
        have hget := getElem?_eq_getElem (Nat.lt_of_not_le hlt)
        have hle' := hroom _ hget
        have hgt := hstop.1 hn _ hget
        omega
  · refine iff_of_true (fun r s' hrun => ?_) (.inl (by omega))
    rw [getdents_refused (by omega)] at hrun
    cases hrun
    refine ⟨?_, .inl rfl, by simp, fun hzero => (nomatch hzero)⟩
    rw [h.delivered]
    exact List.take_prefix ..

/-- A run of calls on a descriptor returns the listing, if and only if each buffer has room
for the next record. -/
theorem getdents_delivers_iff (l : Listing) (counts : List Nat) :
    Every (getdents l) (Delivers l) counts .start ↔ Every (getdents l) (HasRoom l) counts .start :=
  every_congr (A := fun _ _ => True) (Reading.Wf l) (fun _ _ _ _ h _ hrun => getdents_wf h hrun)
    (fun _ _ h _ => delivers_iff h) wf_start (every_of_forall fun _ _ => trivial)

/-- A directory with one file, whose name has ten bytes. -/
def oneFile : Listing where
  entries := [⟨11, List.replicate 10 97, 1⟩]
  short := by decide
  small := by decide

/-- A buffer of 24 bytes has no room for its record, and the call returns 0. -/
theorem oneFile_never_delivered : ¬ Every (getdents oneFile) (Delivers oneFile) [24] .start := by
  intro h
  obtain ⟨_, _, _, hend⟩ := h.1 _ _ rfl
  exact absurd (hend rfl) (by decide)

end Felix.Io
