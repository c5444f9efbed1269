import Felix.Base.Runs
import Felix.Vfs.ResolveContract

/-!
# What an inode number refers to

An inode number packs the id of a mount and the inode inside the file system.
The ids of the mounts differ from each other and from 0, which stands for the
root (`Ids`), so the id leads back to the mount as long as it is not handed out
again.  `alloc_mount_id` passes over the ids in use: only after the file system
has been unmounted can another one get its id.  The inode keeps its lower 24 bits
only, so a number denotes the file that it was made for exactly if the inode fits
and the id is not given to another file system.
-/

namespace Felix.Vfs

open List

variable {F : Type} {inner : VfsInner F} {fs : F}

/-! ## Packing -/

theorem toNat_and_mask (inode : UInt32) : (inode &&& 0x00FFFFFF).toNat = inode.toNat % 2 ^ 24 := by
  exact Nat.and_two_pow_sub_one_eq_mod inode.toNat 24

theorem globalInode_toNat (fsId : UInt8) (inode : UInt32) :
    (globalInode fsId inode).toNat = fsId.toNat * 2 ^ 24 + inode.toNat % 2 ^ 24 := by
  have hshift : (fsId.toUInt32 <<< 24).toNat = fsId.toNat <<< 24 := by
    have hid := fsId.toNat_lt
    rw [UInt32.toNat_shiftLeft, UInt8.toNat_toUInt32, Nat.mod_eq_of_lt]
    · rfl
    · rw [show (24 : UInt32).toNat % 32 = 24 from rfl]
      omega
  rw [globalInode, UInt32.toNat_or, toNat_and_mask, hshift,
    ← Nat.shiftLeft_add_eq_or_of_lt (Nat.mod_lt _ (by decide)), Nat.shiftLeft_eq]

@[simp] theorem globalInode_fsId (fsId : UInt8) (inode : UInt32) :
    (globalInode fsId inode >>> 24).toUInt8 = fsId := by
  rw [← UInt8.toNat_inj, UInt32.toNat_toUInt8, UInt32.toNat_shiftRight, globalInode_toNat,
    show (24 : UInt32).toNat % 32 = 24 from rfl, Nat.shiftRight_eq_div_pow]
  have hid := fsId.toNat_lt
  omega

@[simp] theorem globalInode_inode (fsId : UInt8) (inode : UInt32) :
    globalInode fsId inode &&& 0x00FFFFFF = inode &&& 0x00FFFFFF := by
  rw [← UInt32.toNat_inj, toNat_and_mask, toNat_and_mask, globalInode_toNat]
  omega

variable {inode : UInt32} {fsId : UInt8} {path relative : List UInt8}

theorem and_mask_eq_self : inode &&& 0x00FFFFFF = inode ↔ inode.toNat < 2 ^ 24 := by
  rw [← UInt32.toNat_inj, toNat_and_mask]
  omega

/-! ## Ids -/

/-- The mounts have different ids, none of them that of the root. -/
structure Ids (inner : VfsInner F) : Prop where
  nodup : (inner.mounts.map Mount.fsId).Nodup
  ne_zero : ∀ m ∈ inner.mounts, m.fsId ≠ 0

theorem ids_new : Ids (VfsInner.new : VfsInner F) where
  nodup := nodup_nil
  ne_zero := fun _ hm => absurd hm not_mem_nil

theorem allocMountIdLoop_spec {inner' : VfsInner F} {tries : Nat} {fsId : Option UInt8}
    (h : inner.allocMountIdLoop tries = (fsId, inner')) :
    inner'.mounts = inner.mounts ∧ inner'.rootFs = inner.rootFs ∧
    ∀ id, fsId = some id → id ≠ 0 ∧ ∀ m ∈ inner.mounts, m.fsId ≠ id := by
  induction tries generalizing inner with
  | zero =>
    cases h
    exact ⟨rfl, rfl, fun id hid => (nomatch hid)⟩
  | succ tries ih =>
    have hzero : (if inner.nextFsId = 0 then 1 else inner.nextFsId) ≠ 0 := by
      split
      · decide
      · assumption
    rw [VfsInner.allocMountIdLoop] at h
    generalize (if inner.nextFsId = 0 then 1 else inner.nextFsId) = id at h hzero
    split at h
    · have hrest := ih h
      exact hrest
    rename_i hfree
    cases h
    refine ⟨rfl, rfl, fun id' hid => ?_⟩
    cases hid
    refine ⟨hzero, fun m hm heq => hfree ?_⟩
    exact any_eq_true.2 ⟨m, hm, decide_eq_true heq⟩

/-- The mount is not refused for its path. -/
def Accepts (inner : VfsInner F) (mountPoint : List UInt8) : Prop :=
  mountPoint.head? = some slash ∧ ∀ m ∈ inner.mounts, m.point ≠ mountPoint
  deriving Decidable

/-- A mount adds the file system under a new id, or leaves the mounts as they are. -/
theorem mount_cases (inner : VfsInner F) (mountPoint : List UInt8) (fs : F) :
    (inner.mount mountPoint fs).rootFs = inner.rootFs ∧
    ((∃ id, Accepts inner mountPoint ∧ inner.allocMountId.1 = some id ∧ id ≠ 0 ∧
        (∀ m ∈ inner.mounts, m.fsId ≠ id) ∧
        (inner.mount mountPoint fs).mounts = inner.mounts ++ [⟨mountPoint, id, fs⟩]) ∨
      (¬ (Accepts inner mountPoint ∧ inner.allocMountId.1.isSome)) ∧
        (inner.mount mountPoint fs).mounts = inner.mounts) := by
  unfold VfsInner.mount
  split
  · rename_i hrelative
    exact ⟨rfl, Or.inr ⟨fun h => hrelative h.1.1, rfl⟩⟩
  rename_i habsolute
  rw [not_not] at habsolute
  split
  · rename_i hused
    obtain ⟨m, hm, heq⟩ := any_eq_true.1 hused
    exact ⟨rfl, Or.inr ⟨fun h => h.1.2 m hm (of_decide_eq_true heq), rfl⟩⟩
  rename_i hfree
  have haccepts : Accepts inner mountPoint := by
    refine ⟨habsolute, fun m hm heq => hfree ?_⟩
    exact any_eq_true.2 ⟨m, hm, decide_eq_true heq⟩
  rcases halloc : inner.allocMountId with ⟨fsId, inner'⟩
  obtain ⟨hmounts, hroot, hid⟩ := allocMountIdLoop_spec halloc
  cases fsId with
  | none => exact ⟨hroot, Or.inr ⟨fun h => by simp at h, hmounts⟩⟩
  | some id =>
    obtain ⟨hzero, hnew⟩ := hid id rfl
    refine ⟨hroot, Or.inl ⟨id, haccepts, rfl, hzero, hnew, ?_⟩⟩
    exact congrArg (· ++ [⟨mountPoint, id, fs⟩]) hmounts

/-! ## Runs -/

inductive VfsOp (F : Type) where
  | setRoot (fs : F)
  | mount (mountPoint : List UInt8) (fs : F)
  | unmount (mountPoint : List UInt8)

/-- What the call returns and the table after it. -/
def VfsOp.step : VfsOp F → VfsInner F → Option Bool × VfsInner F
  | .setRoot fs, inner => (none, inner.setRoot fs)
  | .mount mountPoint fs, inner => (none, inner.mount mountPoint fs)
  | .unmount mountPoint, inner =>
    let (ok, inner) := inner.unmount mountPoint
    (some ok, inner)

/-- The table after a sequence of calls. -/
def after (ops : List (VfsOp F)) (inner : VfsInner F) : VfsInner F :=
  ops.foldl (fun inner op => (op.step inner).2) inner

theorem Ids.step (h : Ids inner) (op : VfsOp F) : Ids (op.step inner).2 := by
  cases op with
  | setRoot fs => exact ⟨h.nodup, h.ne_zero⟩
  | mount mountPoint fs =>
    change Ids (inner.mount mountPoint fs)
    obtain ⟨-, ⟨id, -, -, hzero, hnew, hmounts⟩ | ⟨-, hmounts⟩⟩ :=
      mount_cases inner mountPoint fs
    · constructor
      · rw [hmounts, map_append, nodup_append]
        refine ⟨h.nodup, nodup_singleton id, ?_⟩
        intro a ha b hb heq
        obtain ⟨m, hm, rfl⟩ := mem_map.1 ha
        exact hnew m hm (heq.trans (mem_singleton.1 hb))
      · rw [hmounts]
        intro m hm
        rcases mem_append.1 hm with hm | hm
        · exact h.ne_zero m hm
        · rw [mem_singleton.1 hm]
          exact hzero
    · exact ⟨hmounts ▸ h.nodup, hmounts ▸ h.ne_zero⟩
  | unmount mountPoint =>
    refine ⟨h.nodup.sublist ?_, fun m hm => h.ne_zero m (mem_of_mem_filter hm)⟩
    exact List.filter_sublist.map _

theorem Ids.after (h : Ids inner) (ops : List (VfsOp F)) : Ids (after ops inner) := by
  induction ops generalizing inner with
  | nil => exact h
  | cons op ops ih => exact ih (h.step op)

/-! ## The contract -/

/-- The number reaches this inode of this file system or nothing, in each of the calls
that take one. -/
structure Denotes (fs : F) (inode number : UInt32) (inner : VfsInner F) : Prop where
  read : ∀ offset len call, readAt inner number offset len = some call →
    call = .readAt fs inode offset len
  write : ∀ offset buf call, writeAt inner number offset buf = some call →
    call = .writeAt fs inode offset buf
  metadata : ∀ call, metadataInode inner number = some call → call = .metadataInode fs inode

theorem denotes_iff {number : UInt32} :
    Denotes fs inode number inner ↔
      ∀ t, target inner number = some t → t = (fs, inode) := by
  constructor
  · intro h t ht
    have hcall := h.metadata (.metadataInode t.1 t.2) (by rw [metadataInode, ht]; rfl)
    cases hcall
    rfl
  · intro h
    have hread : ∀ {α : Type} (call : F × UInt32 → α) c,
        (target inner number).map call = some c → c = call (fs, inode) := by
      intro α call c hc
      obtain ⟨t, ht, rfl⟩ := Option.map_eq_some_iff.1 hc
      rw [h t ht]
    exact ⟨fun offset len => hread _, fun offset buf => hread _, hread _⟩

/-- No other file system gets the id of this one.  `alloc_mount_id` hands out an id
only if no mount has it, so this can fail only for the root, or after the file system
has been unmounted. -/
def Keeps (fs : F) (fsId : UInt8) : VfsOp F → VfsInner F → Prop
  | .setRoot fs', _ => fsId = 0 → fs' = fs
  | .mount mountPoint fs', inner =>
    Accepts inner mountPoint → inner.allocMountId.1 = some fsId → fs' = fs
  | .unmount _, _ => True

/-- Who has the id: this file system or nobody. -/
structure Holder (fs : F) (fsId : UInt8) (inner : VfsInner F) : Prop extends Ids inner where
  root : fsId = 0 → inner.rootFs = some fs
  mounts : ∀ m ∈ inner.mounts, m.fsId = fsId → m.fs = fs

theorem target_globalInode (inner : VfsInner F) (fsId : UInt8) (inode : UInt32) :
    target inner (globalInode fsId inode) =
      if fsId = 0 then inner.rootFs.map fun fs => (fs, inode &&& 0x00FFFFFF)
      else (inner.mounts.find? fun m => m.fsId = fsId).map fun m =>
        (m.fs, inode &&& 0x00FFFFFF) := by
  rw [target, globalInode_fsId, globalInode_inode]

theorem Holder.denotes (h : Holder fs fsId inner) (hfits : inode.toNat < 2 ^ 24) :
    Denotes fs inode (globalInode fsId inode) inner := by
  rw [denotes_iff, target_globalInode, and_mask_eq_self.2 hfits]
  intro t ht
  split at ht
  · rename_i hzero
    rw [h.root hzero] at ht
    cases ht
    rfl
  obtain ⟨m, hm, rfl⟩ := Option.map_eq_some_iff.1 ht
  have hid := find?_some hm
  rw [h.mounts m (mem_of_find?_eq_some hm) (of_decide_eq_true hid)]

/-- The answer of `resolve` is the root or one of the mounts. -/
theorem resolve_where (h : resolve inner path = .ok (fs, relative, fsId)) :
    fsId = 0 ∧ inner.rootFs = some fs ∨ ∃ m ∈ inner.mounts, m.fsId = fsId ∧ m.fs = fs := by
  unfold resolve at h
  generalize (if path.isEmpty = true then [slash] else path) = path at h
  cases hroot : inner.rootFs with
  | none =>
    rw [hroot] at h
    cases h
  | some root =>
    rw [hroot] at h
    cases h
    rcases (search_spec path ⟨[slash], 0, root⟩ inner.mounts).1 with heq | ⟨hmem, -⟩
    · refine Or.inl ⟨congrArg Mount.fsId heq, congrArg (some ∘ Mount.fs) heq.symm⟩
    · exact Or.inr ⟨_, hmem, rfl, rfl⟩

theorem holder_of_resolve (hids : Ids inner) (h : resolve inner path = .ok (fs, relative, fsId)) :
    Holder fs fsId inner := by
  rcases resolve_where h with ⟨rfl, hroot⟩ | ⟨m, hm, rfl, rfl⟩
  · exact ⟨hids, fun _ => hroot, fun m hm hzero => absurd hzero (hids.ne_zero m hm)⟩
  · refine ⟨hids, fun hzero => absurd hzero (hids.ne_zero m hm), fun m' hm' heq => ?_⟩
    rw [inj_on_of_nodup_map hids.nodup hm' hm heq]

/-- Right after the number was made it reaches the lower bits of the inode. -/
theorem target_of_resolve (hids : Ids inner)
    (h : resolve inner path = .ok (fs, relative, fsId)) (inode : UInt32) :
    target inner (globalInode fsId inode) = some (fs, inode &&& 0x00FFFFFF) := by
  rw [target_globalInode]
  rcases resolve_where h with ⟨rfl, hroot⟩ | ⟨m, hm, rfl, rfl⟩
  · rw [hroot]
    rfl
  rw [if_neg (hids.ne_zero m hm)]
  obtain ⟨m', hfind⟩ : ∃ m', (inner.mounts.find? fun m' => m'.fsId = m.fsId) = some m' :=
    Option.isSome_iff_exists.1 (find?_isSome.2 ⟨m, hm, decide_eq_true rfl⟩)
  have hid := find?_some hfind
  have heq : m' = m := inj_on_of_nodup_map hids.nodup (mem_of_find?_eq_some hfind) hm
    (of_decide_eq_true hid)
  rw [hfind, heq]
  rfl

theorem Holder.step (h : Holder fs fsId inner)
    {op : VfsOp F} (hkeeps : Keeps fs fsId op inner) : Holder fs fsId (op.step inner).2 := by
  refine ⟨h.toIds.step op, ?_, ?_⟩
  · cases op with
    | setRoot fs' => exact fun hzero => congrArg some (hkeeps hzero)
    | mount mountPoint fs' =>
      exact fun hzero => (mount_cases inner mountPoint fs').1.trans (h.root hzero)
    | unmount mountPoint => exact h.root
  · cases op with
    | setRoot fs' => exact h.mounts
    | mount mountPoint fs' =>
      change ∀ m ∈ (inner.mount mountPoint fs').mounts, m.fsId = fsId → m.fs = fs
      obtain ⟨-, ⟨id, haccepts, halloc, -, -, hmounts⟩ | ⟨-, hmounts⟩⟩ :=
        mount_cases inner mountPoint fs'
      · rw [hmounts]
        intro m hm hid
        rcases mem_append.1 hm with hm | hm
        · exact h.mounts m hm hid
        · rw [mem_singleton.1 hm] at hid ⊢
          exact hkeeps haccepts (halloc.trans (congrArg some hid))
      · rw [hmounts]
        exact h.mounts
    | unmount mountPoint => exact fun m hm => h.mounts m (mem_of_mem_filter hm)

/-- A step that gives the id to another file system makes the number reach that one. -/
theorem keeps_of_denotes {op : VfsOp F}
    (h : Denotes fs inode (globalInode fsId inode) (op.step inner).2) :
    Keeps fs fsId op inner := by
  rw [denotes_iff, target_globalInode] at h
  cases op with
  | setRoot fs' =>
    intro hzero
    exact congrArg Prod.fst (h _ (if_pos hzero))
  | mount mountPoint fs' =>
    intro haccepts halloc
    obtain ⟨-, ⟨id, -, halloc', hzero, hnew, hmounts⟩ | ⟨hnot, -⟩⟩ :=
      mount_cases inner mountPoint fs'
    · rw [halloc'] at halloc
      cases halloc
      have hfind : ((inner.mount mountPoint fs').mounts.find? fun m => m.fsId = fsId)
          = some ⟨mountPoint, fsId, fs'⟩ := by
        rw [hmounts, find?_append, find?_eq_none.2 fun m hm => by simp [hnew m hm]]
        simp
      refine congrArg Prod.fst (h (fs', inode &&& 0x00FFFFFF) ?_)
      rw [if_neg hzero]
      exact congrArg (Option.map _) hfind
    · exact absurd ⟨haccepts, by rw [halloc]; rfl⟩ hnot
  | unmount mountPoint => trivial

/-- The call mounts some file system, or unmounts one that is not the one with the id. -/
def Spares (inner : VfsInner F) (fsId : UInt8) : VfsOp F → Prop
  | .setRoot _ => False
  | .mount _ _ => True
  | .unmount mountPoint => ∀ m ∈ inner.mounts, m.fsId = fsId → m.point ≠ mountPoint

/-- While the file system is mounted, nobody else gets its id. -/
theorem everySteps_keeps {ops : List (VfsOp F)}
    (hspares : ∀ op ∈ ops, Spares inner fsId op) {now : VfsInner F}
    (hnow : fsId = 0 ∨ ∃ m ∈ now.mounts, m.fsId = fsId ∧ m ∈ inner.mounts) :
    EverySteps VfsOp.step (Keeps fs fsId) ops now := by
  induction ops generalizing now with
  | nil => trivial
  | cons op ops ih =>
    obtain ⟨hop, hrest⟩ := forall_mem_cons.1 hspares
    cases op with
    | setRoot fs' => exact hop.elim
    | mount mountPoint fs' =>
      have hcases := (mount_cases now mountPoint fs').2
      refine ⟨fun haccepts halloc => ?_, ih hrest ?_⟩
      · rcases hcases with ⟨id, -, halloc', hzero, hnew, -⟩ | ⟨hnot, -⟩
        · rw [halloc'] at halloc
          cases halloc
          obtain ⟨m, hm, hid, -⟩ := hnow.resolve_left hzero
          exact absurd hid (hnew m hm)
        · exact absurd ⟨haccepts, by rw [halloc]; rfl⟩ hnot
      · refine hnow.imp_right fun ⟨m, hm, hid, hinner⟩ => ⟨m, ?_, hid, hinner⟩
        change m ∈ (now.mount mountPoint fs').mounts
        rcases hcases with ⟨id, -, -, -, -, hmounts⟩ | ⟨-, hmounts⟩
        · rw [hmounts]
          exact mem_append_left _ hm
        · rw [hmounts]
          exact hm
    | unmount mountPoint =>
      refine ⟨trivial, ih hrest ?_⟩
      refine hnow.imp_right fun ⟨m, hm, hid, hinner⟩ => ⟨m, ?_, hid, hinner⟩
      exact mem_filter.2 ⟨hm, decide_eq_true (hop m hinner hid)⟩

theorem fits_of_denotes (hids : Ids inner)
    (hresolve : resolve inner path = .ok (fs, relative, fsId))
    (h : Denotes fs inode (globalInode fsId inode) inner) : inode.toNat < 2 ^ 24 := by
  have htarget := denotes_iff.1 h _ (target_of_resolve hids hresolve inode)
  exact and_mask_eq_self.1 (congrArg Prod.snd htarget)

/-- The number that `resolve_path` gives for an inode of a file system denotes it, in
whatever way file systems are mounted and unmounted later, exactly if the inode has at
most 24 bits and the id is given to no other file system.  The second condition holds
as long as the file system stays mounted. -/
theorem inode_number_denotes_iff (lookup : F → List UInt8 → Option UInt32)
    (history : List (VfsOp F)) {path relative : List UInt8} {fs : F} {fsId : UInt8}
    (hresolve : resolve (after history .new) path = .ok (fs, relative, fsId))
    {inode : UInt32} (hlookup : lookup fs relative = some inode) :
    ∃ number, resolvePath lookup (after history .new) path = .ok (some number) ∧
      ∀ later : List (VfsOp F),
        (AlwaysSteps VfsOp.step (Denotes fs inode number) later (after history .new) ↔
          inode.toNat < 2 ^ 24 ∧
            EverySteps VfsOp.step (Keeps fs fsId) later (after history .new)) ∧
        ((∀ op ∈ later, Spares (after history .new) fsId op) →
          EverySteps VfsOp.step (Keeps fs fsId) later (after history .new)) := by
  have hids : Ids (after history (.new : VfsInner F)) := ids_new.after history
  refine ⟨globalInode fsId inode, ?_, fun later => ?_⟩
  · rw [resolvePath, hresolve, Res.ok_bind]
    dsimp only
    rw [hlookup]
    rfl
  · have hiff : inode.toNat < 2 ^ 24 →
        (AlwaysSteps VfsOp.step (Denotes fs inode (globalInode fsId inode)) later
            (after history .new) ↔
          EverySteps VfsOp.step (Keeps fs fsId) later (after history .new)) := fun hfits =>
      alwaysSteps_iff (Holder fs fsId) (fun _ h => h.denotes hfits)
        (fun _ _ _ h => keeps_of_denotes h) (fun _ _ h hkeeps => h.step hkeeps)
        (holder_of_resolve hids hresolve)
    refine ⟨⟨fun halways => ?_, fun ⟨hfits, hkeeps⟩ => (hiff hfits).2 hkeeps⟩, fun hspares => ?_⟩
    · have hfits := fits_of_denotes hids hresolve halways.head
      exact ⟨hfits, (hiff hfits).1 halways⟩
    · refine everySteps_keeps hspares ((resolve_where hresolve).imp And.left ?_)
      exact fun ⟨m, hm, hid, _⟩ => ⟨m, hm, hid, hm⟩

/-- A file system with two files, whose inodes agree in their lower 24 bits. -/
def twoFiles (_ : Unit) (path : List UInt8) : Option UInt32 :=
  if path = [slash, 97] then some 0x01000005
  else if path = [slash, 98] then some 5
  else none

/-- The number of `/a` reads `/b`. -/
theorem inode_number_reaches_another_file :
    resolvePath twoFiles (after [.setRoot ()] .new) [slash, 97] = .ok (some 5) ∧
      resolvePath twoFiles (after [.setRoot ()] .new) [slash, 98] = .ok (some 5) ∧
      readAt (after [.setRoot ()] .new) 5 0 1 = some (.readAt () 5 0 1) ∧
      ¬ Denotes () 0x01000005 5 (after [.setRoot ()] .new) := by
  refine ⟨by decide, by decide, by decide, fun h => ?_⟩
  have hmetadata := h.metadata (.metadataInode () 5) (by decide)
  exact absurd hmetadata (by decide)

theorem inode_number_denotes_iff_two_files :
    ∃ number, resolvePath twoFiles (after [.setRoot ()] .new) [slash, 98] = .ok (some number) ∧
      ∀ later : List (VfsOp Unit),
        (AlwaysSteps VfsOp.step (Denotes () 5 number) later (after [.setRoot ()] .new) ↔
          (5 : UInt32).toNat < 2 ^ 24 ∧
            EverySteps VfsOp.step (Keeps () 0) later (after [.setRoot ()] .new)) ∧
        ((∀ op ∈ later, Spares (after [.setRoot ()] .new) 0 op) →
          EverySteps VfsOp.step (Keeps () 0) later (after [.setRoot ()] .new)) :=
  inode_number_denotes_iff twoFiles [.setRoot ()] rfl rfl

end Felix.Vfs
