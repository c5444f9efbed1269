import Felix.Vfs.Normalize
import Felix.Vfs.PathContract

/-!
# Open directories and renames

A directory descriptor keeps the path it lists, in 96 bytes.  After a rename every table is passed
over and the old path at the front of such a path is replaced by the new one, unless the result
needs 96 bytes or more: that descriptor keeps the old path.  The stored bytes are those of a
string, so they always read back as text.
-/

namespace Felix.Path

open List Fd

variable {n : Nat} {old new path : List UInt8}

/-- The part of `current` that stays, where it is the old path or below it. -/
def keptSuffix (old current : List UInt8) : Option (List UInt8) :=
  let oldPrefix := if old = [slash] then [slash] else old.rdropWhile (· = slash) ++ [slash]
  if current = old then some []
  else if oldPrefix.isPrefixOf current then some (current.drop oldPrefix.length) else none

/-- One round of the loop of `rewrite_dir_paths`. -/
def rewriteDirPath (old new : List UInt8) : FileDescriptor → FileDescriptor
  | .dir current cookie => (keptSuffix old current).elim (.dir current cookie) fun suffix =>
    let replacement :=
      if suffix = [] then new
      else if new = [slash] then slash :: suffix
      else new.rdropWhile (· = slash) ++ slash :: suffix
    if 96 ≤ replacement.length then .dir current cookie else .dir replacement cookie
  | desc => desc

def rewriteDirPaths (old new : List UInt8) (table : FileDescriptorTable) : FileDescriptorTable :=
  { table with fds := fun fd => (table.fds fd).map (rewriteDirPath old new) }

/-- The tables of all tasks after `sys_rename`. -/
def sysRenameTables {σ : Type} (fs : FsApi σ) (caller : Caller) (mem : Bytes) (s : σ)
    (oldPtr newPtr : Nat) (k : Kernel n) : Kernel n :=
  match (sysRename fs caller mem s oldPtr newPtr).result with
  | .ok _ => { k with tables := fun t => (k.tables t).map (rewriteDirPaths
      (resolveTaskPath caller.cwd (copyCstrFromUser mem oldPtr))
      (resolveTaskPath caller.cwd (copyCstrFromUser mem newPtr))) }
  | .error _ => k

/-- What stands in front of the slash of a path below `p`. -/
def stem (p : List UInt8) : List UInt8 := if p = [slash] then [] else p

/-- At or below the old path, on a component boundary. -/
def Under (old path : List UInt8) : Prop := path = old ∨ stem old ++ [slash] <+: path

/-- Where a directory is after the rename. -/
def moved (old new path : List UInt8) : List UInt8 :=
  if path = old then new
  else if stem old ++ [slash] <+: path then stem new ++ path.drop (stem old).length
  else path

theorem moved_of_not_under (h : ¬ Under old path) : moved old new path = path := by
  obtain ⟨hold, hbelow⟩ := not_or.1 h
  rw [moved, if_neg hold, if_neg hbelow]

/-- What a descriptor is to be after the rename. -/
def follow (old new : List UInt8) : FileDescriptor → FileDescriptor
  | .dir path cookie => .dir (moved old new path) cookie
  | desc => desc

/-- A path that `sys_open` stores. -/
def Opened (path : List UInt8) : Prop := Normal path ∧ path.length < 96

theorem normal_resolveTaskPath (cwd : Option (List UInt8)) (p : List UInt8) :
    Normal (resolveTaskPath cwd p) := by
  unfold resolveTaskPath
  dsimp only
  split_ifs <;> exact normal_normalizePath _

theorem trim_eq_stem (h : Normal path) (hroot : path ≠ [slash]) :
    path.rdropWhile (· = slash) = stem path := by
  rw [stem, if_neg hroot, rdropWhile_eq_self_iff]
  intro hne hlast
  refine (h.resolve_left hroot).1 ?_
  rw [getLast?_eq_some_getLast hne, of_decide_eq_true hlast]

theorem keptSuffix_eq (h : Normal old) : keptSuffix old path =
    if path = old then some []
    else if stem old ++ [slash] <+: path then some (path.drop ((stem old).length + 1))
    else none := by
  have hfront : (if old = [slash] then [slash] else old.rdropWhile (· = slash) ++ [slash]) =
      stem old ++ [slash] := by
    split
    · rename_i hroot
      rw [hroot]
      rfl
    · rename_i hroot
      rw [trim_eq_stem h hroot]
  rw [keptSuffix, hfront, length_append]
  simp only [ isPrefixOf_iff_prefix]
  rfl

theorem stem_eq_nil (h : Normal path) (hstem : stem path = []) : path = [slash] := by
  by_contra hroot
  obtain ⟨-, rest, rfl, -⟩ := h.resolve_left hroot
  rw [stem, if_neg hroot] at hstem
  exact (nomatch hstem)

/-- A normal path does not end behind the slash of a path above it. -/
theorem suffix_ne_nil {suffix : List UInt8} (hold : Normal old)
    (hpath : Normal (stem old ++ [slash] ++ suffix)) (hne : stem old ++ [slash] ++ suffix ≠ old) :
    suffix ≠ [] := by
  rintro rfl
  rw [append_nil] at hpath
  obtain hroot | ⟨hlast, -⟩ := hpath
  · rw [hroot] at hne
    exact hne (stem_eq_nil hold (append_left_eq_self.1 hroot)).symm
  · exact hlast getLast?_concat

theorem rewriteDirPath_dir (hold : Normal old) (hnew : Normal new) (hpath : Normal path)
    (cookie : Nat) : rewriteDirPath old new (.dir path cookie) =
      if 96 ≤ (moved old new path).length then .dir path cookie
      else .dir (moved old new path) cookie := by
  rw [rewriteDirPath, keptSuffix_eq hold, moved]
  by_cases hsame : path = old
  · rw [if_pos hsame, if_pos hsame]
    rfl
  rw [if_neg hsame, if_neg hsame]
  by_cases hbelow : stem old ++ [slash] <+: path
  · rw [if_pos hbelow, if_pos hbelow]
    obtain ⟨suffix, rfl⟩ := hbelow
    have hjoin : (if new = [slash] then slash :: suffix
        else new.rdropWhile (· = slash) ++ slash :: suffix) = stem new ++ slash :: suffix := by
      split
      · rename_i hroot
        rw [hroot]
        rfl
      · rename_i hroot
        rw [trim_eq_stem hnew hroot]
    have hcut : (stem old ++ [slash] ++ suffix).drop ((stem old).length + 1) = suffix :=
      drop_left' length_append
    have hkept : (stem old ++ [slash] ++ suffix).drop (stem old).length = slash :: suffix := by
      rw [append_assoc, drop_left]
      rfl
    rw [hcut, hkept, Option.elim_some]
    rw [if_neg (suffix_ne_nil hold hpath hsame), hjoin]
  · rw [if_neg hbelow, if_neg hbelow, ite_self]
    rfl

theorem get_renamed {k k' : Kernel n}
    (h : k' = { k with tables := fun t => (k.tables t).map (rewriteDirPaths old new) })
    (t : Fin n) (fd : Fin 64) :
    k'.get t fd = (k.get t fd).map (rewriteDirPath old new) := by
  rw [h, Kernel.get, Kernel.get]
  dsimp only
  cases k.tables t <;> rfl

section Call

variable {σ : Type} (fs : FsApi σ) (caller : Caller) (mem : Bytes) (s : σ) (oldPtr newPtr : Nat)
  (k : Kernel n)

/-- If the call succeeds, every open directory is found where it has gone, and the other
descriptors are as before. -/
def Followed : Prop :=
  (sysRename fs caller mem s oldPtr newPtr).result = .ok 0 → ∀ t fd desc,
    k.get t fd = some desc → (∀ path cookie, desc = .dir path cookie → Opened path) →
      (sysRenameTables fs caller mem s oldPtr newPtr k).get t fd =
        some (follow (resolveTaskPath caller.cwd (copyCstrFromUser mem oldPtr))
          (resolveTaskPath caller.cwd (copyCstrFromUser mem newPtr)) desc)

/-- If the call succeeds, the new path leaves room for what stands behind the old one. -/
def LeavesRoom : Prop :=
  (sysRename fs caller mem s oldPtr newPtr).result = .ok 0 → ∀ t fd path cookie,
    k.get t fd = some (.dir path cookie) → Opened path →
      Under (resolveTaskPath caller.cwd (copyCstrFromUser mem oldPtr)) path →
        (moved (resolveTaskPath caller.cwd (copyCstrFromUser mem oldPtr))
          (resolveTaskPath caller.cwd (copyCstrFromUser mem newPtr)) path).length < 96

theorem rename_followed_iff : Followed fs caller mem s oldPtr newPtr k ↔
    LeavesRoom fs caller mem s oldPtr newPtr k := by
  refine imp_congr_right fun hok => ?_
  have hold := normal_resolveTaskPath caller.cwd (copyCstrFromUser mem oldPtr)
  have hnew := normal_resolveTaskPath caller.cwd (copyCstrFromUser mem newPtr)
  have hget : ∀ t fd, (sysRenameTables fs caller mem s oldPtr newPtr k).get t fd =
      (k.get t fd).map (rewriteDirPath _ _) := get_renamed (by rw [sysRenameTables, hok])
  generalize resolveTaskPath caller.cwd (copyCstrFromUser mem oldPtr) = old at *
  generalize resolveTaskPath caller.cwd (copyCstrFromUser mem newPtr) = new at *
  constructor
  · intro hfollow t fd path cookie hdir hopen hunder
    have hdesc := hfollow t fd _ hdir fun p c h => by cases h; exact hopen
    rw [hget, hdir, Option.map_some, rewriteDirPath_dir hold hnew hopen.1] at hdesc
    by_contra hlong
    rw [if_pos (not_lt.1 hlong)] at hdesc
    have hpath : path = moved old new path := by simpa [follow] using hdesc
    exact hlong (hpath ▸ hopen.2)
  · intro hroom t fd desc hdesc hopen
    rw [hget, hdesc, Option.map_some]
    cases desc with
    | dir path cookie =>
      have hpath := hopen path cookie rfl
      have hshort : (moved old new path).length < 96 := by
        by_cases hunder : Under old path
        · exact hroom t fd path cookie hdesc hpath hunder
        · rw [moved_of_not_under hunder]
          exact hpath.2
      rw [rewriteDirPath_dir hold hnew hpath.1, if_neg (not_le.2 hshort)]
      rfl
    | _ => rfl

end Call

/-- A slash and `a` at 1, and a slash with 94 times `b` at 8. -/
def longMem : Bytes := fun i =>
  if i = 1 ∨ i = 8 then slash else if i = 2 then 97 else if 8 < i ∧ i < 103 then 98 else 0

/-- One task, with `/a/c` open. -/
def oneDir : Kernel 1 where
  tables := fun _ => some ⟨fun _ => some (.dir [slash, 97, slash, 99] 0), fun _ => none⟩
  exited := fun _ => false
  ofd := fun _ => ⟨0, 0, 0, 1, .consoleIn⟩
  nextOfd := 0

theorem rename_leaves_old_path :
    ¬ Followed (granting true) (granted none) longMem () 1 8 oneDir := by
  intro h
  have hopen : Opened [slash, 97, slash, 99] :=
    ⟨normal_resolveTaskPath none [slash, 97, slash, 99], by decide⟩
  have hdesc := h (by decide +kernel) 0 0 _ rfl fun p c hp => by cases hp; exact hopen
  exact absurd hdesc (by decide +kernel)

end Felix.Path
