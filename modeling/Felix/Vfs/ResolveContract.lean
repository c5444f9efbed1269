import Felix.Vfs.Mounts

/-!
# Paths resolve to the longest mount point

The parts of a path are what stands between its slashes.  `isMountPrefix`
compares bytes, and `isMountPrefix_iff` says that it decides whether the parts of
the mount point start the parts of the path.  The search loop keeps the longest
mount point that it has seen (`search_spec`), and of two mount points above one
path the one with more bytes has more parts (`Covers.eq_or_parts_lt`), so the choice
by bytes is the choice by parts.
-/

namespace Felix.Vfs

open List

variable {F : Type}

/-! ## Parts of a path -/

/-- What stands between the slashes. -/
def parts (path : List UInt8) : List (List UInt8) := path.splitOn slash

theorem parts_append_slash (a b : List UInt8) : parts (a ++ slash :: b) = parts a ++ parts b :=
  splitOn_append_cons_self a b

theorem intercalate_parts (path : List UInt8) : [slash].intercalate (parts path) = path :=
  intercalate_splitOn slash

variable {a b path point mp : List UInt8} {inner : VfsInner F}

theorem parts_inj (h : parts a = parts b) : a = b := by
  rw [← intercalate_parts a, h, intercalate_parts]

theorem intercalate_append {sep : List UInt8} {a b : List (List UInt8)} (ha : a ≠ [])
    (hb : b ≠ []) : sep.intercalate (a ++ b) = sep.intercalate a ++ (sep ++ sep.intercalate b) := by
  induction a with
  | nil => exact absurd rfl ha
  | cons x a ih =>
    cases a with
    | nil =>
      rw [singleton_append, intercalate_cons_of_ne_nil hb, intercalate_singleton, append_assoc]
    | cons y a =>
      have hrest := ih (cons_ne_nil y a)
      rw [cons_append, intercalate_cons_of_ne_nil (by simp), hrest,
        intercalate_cons_of_ne_nil (cons_ne_nil y a)]
      simp only [append_assoc]

/-- The mount point is the path or a directory above it. -/
def Covers (mp path : List UInt8) : Prop := parts mp <+: parts path
  deriving Decidable

theorem covers_iff : Covers mp path ↔ path = mp ∨ ∃ rest, path = mp ++ slash :: rest := by
  constructor
  · rintro ⟨below, hbelow⟩
    by_cases hnil : below = []
    · rw [hnil, append_nil] at hbelow
      exact Or.inl (parts_inj hbelow.symm)
    refine Or.inr ⟨[slash].intercalate below, ?_⟩
    have hparts : parts mp ≠ [] := splitOn_ne_nil slash mp
    rw [← intercalate_parts path, ← hbelow, intercalate_append hparts hnil, intercalate_parts]
    rfl
  · rintro (rfl | ⟨rest, rfl⟩)
    · exact prefix_rfl
    · rw [Covers, parts_append_slash]
      exact prefix_append _ _

/-- Of two mount points above one path, the one with more parts has more bytes. -/
theorem Covers.length_lt (ha : Covers a path) (hb : Covers b path)
    (h : (parts a).length < (parts b).length) : a.length < b.length := by
  have hab : Covers a b := prefix_of_prefix_length_le ha hb h.le
  rcases covers_iff.1 hab with heq | ⟨rest, heq⟩
  · rw [heq] at h
    exact absurd h (Nat.lt_irrefl _)
  · rw [heq, length_append, length_cons]
    omega

/-- So the one with at least as many bytes has more parts or is the same. -/
theorem Covers.eq_or_parts_lt (ha : Covers a path) (hb : Covers b path)
    (h : a.length ≤ b.length) : a = b ∨ (parts a).length < (parts b).length := by
  rcases Nat.lt_trichotomy (parts a).length (parts b).length with hlt | heq | hgt
  · exact Or.inr hlt
  · have hab : parts a <+: parts b := prefix_of_prefix_length_le ha hb heq.le
    exact Or.inl (parts_inj (hab.eq_of_length heq))
  · exact absurd (Covers.length_lt hb ha hgt) (Nat.not_lt.2 h)

/-- The comparison of bytes respects the boundaries of the parts. -/
theorem isMountPrefix_iff (hmp : mp ≠ [slash]) : isMountPrefix path mp = true ↔ Covers mp path := by
  rw [isMountPrefix, if_neg hmp, covers_iff, Bool.or_eq_true, Bool.and_eq_true,
    decide_eq_true_iff, decide_eq_true_iff, isPrefixOf_iff_prefix]
  refine or_congr Iff.rfl ⟨?_, ?_⟩
  · rintro ⟨⟨rest, rfl⟩, hslash⟩
    rw [getElem?_append_right (Nat.le_refl _), Nat.sub_self] at hslash
    cases rest with
    | nil => cases hslash
    | cons b rest =>
      cases hslash
      exact ⟨rest, rfl⟩
  rintro ⟨rest, rfl⟩
  refine ⟨prefix_append _ _, ?_⟩
  rw [getElem?_append_right (Nat.le_refl _), Nat.sub_self]
  rfl

/-! ## The search -/

/-- The loop of `resolve`: the last mount that is longer than the best so far. -/
def search (path : List UInt8) (best : Mount F) (mounts : List (Mount F)) : Mount F :=
  mounts.foldl (fun best mount =>
    if isMountPrefix path mount.point && decide (mount.point.length > best.point.length)
    then mount else best) best

/-- The search ends at a mount point above the path, or where it began, and no mount
point above the path is longer. -/
theorem search_spec (path : List UInt8) (best : Mount F) (mounts : List (Mount F)) :
    (search path best mounts = best ∨ search path best mounts ∈ mounts ∧
      isMountPrefix path (search path best mounts).point = true) ∧
    best.point.length ≤ (search path best mounts).point.length ∧
    ∀ m ∈ mounts, isMountPrefix path m.point = true →
      m.point.length ≤ (search path best mounts).point.length := by
  induction mounts generalizing best with
  | nil => exact ⟨Or.inl rfl, Nat.le_refl _, fun m hm => absurd hm not_mem_nil⟩
  | cons mount mounts ih =>
    have hstep : search path best (mount :: mounts) = search path
        (if isMountPrefix path mount.point && decide (mount.point.length > best.point.length)
          then mount else best) mounts := rfl
    rw [hstep]
    split
    · rename_i hbetter
      rw [Bool.and_eq_true, decide_eq_true_iff] at hbetter
      obtain ⟨hwhere, hle, hmax⟩ := ih mount
      refine ⟨Or.inr ?_, by omega, forall_mem_cons.2 ⟨fun _ => hle, hmax⟩⟩
      rcases hwhere with heq | ⟨hmem, hcover⟩
      · rw [heq]
        exact ⟨mem_cons_self, hbetter.1⟩
      · exact ⟨mem_cons_of_mem _ hmem, hcover⟩
    rename_i hworse
    rw [Bool.and_eq_true, decide_eq_true_iff, not_and] at hworse
    obtain ⟨hwhere, hle, hmax⟩ := ih best
    refine ⟨hwhere.imp_right fun ⟨hmem, hcover⟩ => ⟨mem_cons_of_mem _ hmem, hcover⟩, hle,
      forall_mem_cons.2 ⟨fun hcover => ?_, hmax⟩⟩
    have hshort := hworse hcover
    omega

/-- What `resolve` makes of the mount that the search found. -/
def relativeTo (path : List UInt8) (best : Mount F) : List UInt8 :=
  if path = best.point then [slash]
  else if best.point.isPrefixOf path && best.point ≠ [slash] then path.drop best.point.length
  else path

theorem resolve_eq {root : F} (hroot : inner.rootFs = some root) (hpath : path ≠ []) :
    resolve inner path = .ok ((search path ⟨[slash], 0, root⟩ inner.mounts).fs,
      relativeTo path (search path ⟨[slash], 0, root⟩ inner.mounts),
      (search path ⟨[slash], 0, root⟩ inner.mounts).fsId) := by
  rw [resolve, if_neg (by rwa [List.isEmpty_iff]), hroot]
  rfl

theorem relativeTo_of_covers {m : Mount F} (hne : m.point ≠ [slash])
    (hcovers : Covers m.point path) :
    if path = m.point then relativeTo path m = [slash]
    else m.point ++ relativeTo path m = path := by
  split
  · rename_i heq
    exact if_pos heq
  rename_i hpath
  obtain ⟨rest, hrest⟩ := (covers_iff.1 hcovers).resolve_left hpath
  have hprefix : (m.point.isPrefixOf path && decide (m.point ≠ [slash])) = true := by
    rw [Bool.and_eq_true, isPrefixOf_iff_prefix, decide_eq_true_iff, hrest]
    exact ⟨prefix_append _ _, hne⟩
  rw [relativeTo, if_neg hpath, if_pos hprefix, hrest, drop_left]

theorem relativeTo_root (path : List UInt8) (fsId : UInt8) (fs : F) :
    relativeTo path ⟨[slash], fsId, fs⟩ = path := by
  unfold relativeTo
  split
  · rename_i heq
    exact heq.symm
  · rw [if_neg (by simp)]

/-! ## The contract -/

/-- An absolute path without trailing slash. -/
def Plain (point : List UInt8) : Prop :=
  point.head? = some slash ∧ point.getLast? ≠ some slash
  deriving Decidable

theorem Plain.length (h : Plain point) : 1 < point.length := by
  obtain ⟨hhead, hlast⟩ := h
  match point, hhead, hlast with
  | [b], hhead, hlast => exact absurd hhead hlast
  | _ :: _ :: _, _, _ => simp

theorem Plain.ne_root (h : Plain point) : point ≠ [slash] := by
  rintro rfl
  exact h.2 rfl

/-- What a path stands for: the file system, the path inside it and the id.  Every
other mount point above the path has fewer parts than the chosen one, and the path
inside the file system continues its mount point.  The root file system has the empty
mount point. -/
inductive Names (inner : VfsInner F) (root : F) (path : List UInt8) :
    F × List UInt8 × UInt8 → Prop
  | mounted (m : Mount F) (relative : List UInt8) (hmem : m ∈ inner.mounts)
      (hcovers : Covers m.point path)
      (hlongest : ∀ m' ∈ inner.mounts, Covers m'.point path →
        m' = m ∨ (parts m'.point).length < (parts m.point).length)
      (hrelative : if path = m.point then relative = [slash] else m.point ++ relative = path) :
      Names inner root path (m.fs, relative, m.fsId)
  | root (hnone : ∀ m ∈ inner.mounts, ¬ Covers m.point path) :
      Names inner root path (root, path, 0)

/-- The search finds the longest mount point above the path, or the root. -/
theorem names_search (root : F) (hdistinct : (inner.mounts.map Mount.point).Nodup)
    (hplain : ∀ m ∈ inner.mounts, Plain m.point) (path : List UInt8) :
    Names inner root path ((search path ⟨[slash], 0, root⟩ inner.mounts).fs,
      relativeTo path (search path ⟨[slash], 0, root⟩ inner.mounts),
      (search path ⟨[slash], 0, root⟩ inner.mounts).fsId) := by
  obtain ⟨hwhere, -, hmax⟩ := search_spec path ⟨[slash], 0, root⟩ inner.mounts
  generalize search path ⟨[slash], 0, root⟩ inner.mounts = best at hwhere hmax
  have hbelow : ∀ m ∈ inner.mounts, Covers m.point path → m.point.length ≤ best.point.length :=
    fun m hm hcovers => hmax m hm ((isMountPrefix_iff (hplain m hm).ne_root).2 hcovers)
  rcases hwhere with rfl | ⟨hmem, hprefix⟩
  · rw [relativeTo_root]
    refine .root fun m hm hcovers => ?_
    have hlen : m.point.length ≤ 1 := hbelow m hm hcovers
    exact absurd (hplain m hm).length (Nat.not_lt.2 hlen)
  have hne := (hplain best hmem).ne_root
  have hcovers := (isMountPrefix_iff hne).1 hprefix
  refine .mounted best _ hmem hcovers (fun m hm hm' => ?_) (relativeTo_of_covers hne hcovers)
  refine (Covers.eq_or_parts_lt hm' hcovers (hbelow m hm hm')).imp_left fun heq => ?_
  exact inj_on_of_nodup_map hdistinct hm hmem heq

/-- `resolve` and `resolve_mut` give the same answer, the file system of the longest
mount point above the path. -/
theorem resolve_names {inner : VfsInner F} {root : F} (hroot : inner.rootFs = some root)
    (hdistinct : (inner.mounts.map Mount.point).Nodup)
    (hplain : ∀ m ∈ inner.mounts, Plain m.point) {path : List UInt8}
    (hpath : path.head? = some slash) :
    ∃ answer, resolve inner path = .ok answer ∧ resolveMut inner path = .ok answer ∧
      Names inner root path answer := by
  have hne : path ≠ [] := by
    rintro rfl
    cases hpath
  refine ⟨_, resolve_eq hroot hne, ?_, names_search root hdistinct hplain path⟩
  exact resolve_eq hroot hne

/-- `/dev` and `/dev/pts`, one inside the other. -/
def nestedMounts : VfsInner Nat where
  rootFs := some 0
  mounts := [⟨[slash, 100, 101, 118], 1, 1⟩, ⟨[slash, 100, 101, 118, slash, 112, 116, 115], 2, 2⟩]
  nextFsId := 3

theorem resolve_names_nested :
    ∃ answer, resolve nestedMounts [slash, 100, 101, 118, slash, 112, 116, 115, slash, 48]
        = .ok answer ∧
      resolveMut nestedMounts [slash, 100, 101, 118, slash, 112, 116, 115, slash, 48]
        = .ok answer ∧
      Names nestedMounts 0 [slash, 100, 101, 118, slash, 112, 116, 115, slash, 48] answer :=
  resolve_names rfl (by decide) (by decide) rfl

end Felix.Vfs
