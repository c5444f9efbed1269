import Felix.Base.Runs
import Felix.Io.DescriptorBooks

/-!
# Every description is given up once

The system calls over the books of `Felix.Io.DescriptorBooks`.  Some routines overwrite
a slot without closing it; they only do so in the table of a new child, where the slot
holds the console and has no resource behind it.
-/

namespace Felix.Fd

open Function Kernel

variable {n : Nat} {k k' : Kernel n} {t : Fin n} {fd : Fin 64} (op : FdOp n)

/-! ## System calls -/

section

variable (hk : Inv k) (ht : k.running t = true)

include hk ht

theorem sysOpen_moves {desc : FileDescriptor} (hdesc : desc.resource = none) :
    Keeps k (sysOpen k t desc) := by
  rw [sysOpen]
  rcases halloc : k.allocFd t with _ | fd
  · exact Moves.refl hk
  have hinsert := insert_moves hk ht (slot_of_allocFd hk halloc) desc
  rw [hdesc] at hinsert
  exact hinsert

theorem sysAcquire_moves (desc : FileDescriptor) : Keeps k (sysAcquire k t desc) := by
  rw [sysAcquire]
  rcases halloc : k.allocFd t with _ | fd
  · exact (Moves.refl hk).gain _
  have hempty := slot_of_allocFd hk halloc
  have hinsert := insert_moves hk ht hempty desc
  dsimp only
  rw [insert_eq hk hempty] at hinsert ⊢
  exact hinsert

theorem sysPair_moves (first second : FileDescriptor) : Keeps k (sysPair k t first second) := by
  rw [sysPair]
  rcases halloc : k.allocFd t with _ | fd
  · exact (Moves.refl hk).gain _
  have hempty := slot_of_allocFd hk halloc
  have hinsert := insert_moves hk ht hempty first
  have ht1 := hinsert.running t ht
  dsimp only
  rcases halloc' : (k.insert t fd first).2.allocFd t with _ | fd'
  · -- the first end is closed in the table, and both are given back
    obtain ⟨hclose, hlost, -⟩ := close_moves hinsert.inv ht1 fd
    have hfirst : (k.insert t fd first).2.lost t fd = first.resource.toList := by
      rw [insert_eq hk hempty]
      exact lost_putNew hk ht hempty first
    rw [hlost, hfirst] at hclose
    exact (hinsert.cancel hclose).gain _
  · have hempty' := slot_of_allocFd hinsert.inv halloc'
    exact hinsert.trans (insert_moves hinsert.inv ht1 hempty' second)

theorem sysClose_moves (fd : Nat) : Keeps k (sysClose k t fd) := by
  rw [sysClose]
  split
  · rename_i hfd
    obtain ⟨hclose, -, -⟩ := close_moves hk ht ⟨fd, hfd⟩
    rcases hc : k.close t ⟨fd, hfd⟩ with ⟨closed, k1⟩
    rw [hc] at hclose
    cases closed with
    | none => exact hclose
    | some closed => simpa [Keeps] using hclose
  · exact Moves.refl hk

end

theorem entry_eq (hk : Inv k) {fd : Nat} (h : fd < 64) :
    k.entry t fd = (k.slot (t, ⟨fd, h⟩)).map fun d => ((k.ofd d).origin, d) := by
  rw [entry, dif_pos h, hk.get]
  rcases k.slot (t, ⟨fd, h⟩) with _ | d <;> rfl

theorem entry_of_ge {fd : Nat} (h : ¬fd < 64) : k.entry t fd = none := by
  rw [entry, dif_neg h]

theorem dup2_eq (hk : Inv k) {oldfd newfd d : Nat} (heq : oldfd ≠ newfd) (ho : oldfd < 64)
    (hn : newfd < 64) (h : k.slot (t, ⟨oldfd, ho⟩) = some d) :
    k.dup2 t oldfd newfd = (true, k.putShared t ⟨newfd, hn⟩ (k.ofd d).origin d) := by
  rw [dup2, dif_pos hn, entry_eq hk ho, h]
  exact if_neg heq

/-- The descriptor that is duplicated stays, and the other one gets its description. -/
theorem sysDup2_moves (hk : Inv k) (ht : k.running t = true) (oldfd newfd : Nat) :
    Keeps k (sysDup2 k t oldfd newfd) ∧
      ∀ (ho : oldfd < 64) (hn : newfd < 64), k.slot (t, ⟨oldfd, ho⟩) ≠ none →
        (sysDup2 k t oldfd newfd).2.slot (t, ⟨oldfd, ho⟩) = k.slot (t, ⟨oldfd, ho⟩) ∧
        (sysDup2 k t oldfd newfd).2.slot (t, ⟨newfd, hn⟩) = k.slot (t, ⟨oldfd, ho⟩) := by
  rw [sysDup2]
  split
  · rename_i h
    obtain ⟨ho, hn⟩ := h
    rcases hslot : k.slot (t, ⟨oldfd, ho⟩) with _ | d
    · rw [(slot_eq_none_iff hk).1 hslot]
      exact ⟨Moves.refl hk, fun _ _ h => absurd hslot h⟩
    have hget : (k.get t ⟨oldfd, ho⟩).isNone = false := by
      rw [hk.get, hslot]
      rfl
    rw [hget, if_neg Bool.false_ne_true]
    by_cases heq : oldfd = newfd
    · subst heq
      rw [if_pos rfl]
      exact ⟨Moves.refl hk, fun _ _ _ => ⟨rfl, rfl⟩⟩
    have hne : (t, (⟨oldfd, ho⟩ : Fin 64)) ≠ (t, ⟨newfd, hn⟩) := by
      simp [heq]
    obtain ⟨hclose, -, hcleared⟩ := close_moves hk ht ⟨newfd, hn⟩
    rw [if_neg heq]
    generalize k.close t ⟨newfd, hn⟩ = closed at hclose hcleared
    obtain ⟨old, k1⟩ := closed
    dsimp only at hcleared ⊢
    have hold : k1.slot (t, ⟨oldfd, ho⟩) = some d := by
      rw [hcleared, update_of_ne hne, hslot]
    have hempty : k1.slot (t, ⟨newfd, hn⟩) = none := by
      rw [hcleared, update_self]
    have ht1 := hclose.running t ht
    have hshared := putShared_moves hclose.inv ht1 hne hold
    rw [lost_of_empty hempty] at hshared
    rw [dup2_eq hclose.inv heq ho hn hold]
    refine ⟨?_, fun _ _ _ => ?_⟩
    · have hall := hclose.trans hshared
      rwa [List.append_nil, List.append_nil] at hall
    · rw [(putShared_edit (isSome_of_running ht1) _ d).slot, update_of_ne hne, update_self]
      exact ⟨hold.trans hslot.symm, hslot.symm⟩
  · rename_i h
    exact ⟨Moves.refl hk, fun ho hn => absurd ⟨ho, hn⟩ h⟩

/-! ## Children -/

/-- The slot holds a descriptor without a resource, so that it can be overwritten. -/
def Plain (k : Kernel n) (t : Fin n) (fd : Fin 64) : Prop :=
  (k.get t fd).bind FileDescriptor.resource = none

theorem lost_of_plain (hk : Inv k) (h : Plain k t fd) : k.lost t fd = [] := by
  rw [Plain, hk.get] at h
  rw [lost]
  rcases hslot : k.slot (t, fd) with _ | d
  · rfl
  rw [hslot] at h
  have hkind : k.kind d = none := h
  simp [hkind]

/-- Only this slot is different. -/
def SameBut (k k' : Kernel n) (t : Fin n) (fd : Fin 64) : Prop :=
  ∀ t' fd', (t', fd') ≠ (t, fd) →
    k'.slot (t', fd') = k.slot (t', fd') ∧ k'.get t' fd' = k.get t' fd'

theorem Edit.sameBut {desc : Option FileDescriptor} {ofd : Option Nat}
    (e : Edit k t fd desc ofd k') : SameBut k k' t fd := fun t' fd' hne =>
  ⟨by rw [e.slot, update_of_ne hne], by rw [e.get, if_neg hne]⟩

theorem SameBut.plain {fd' : Fin 64} (h : SameBut k k' t fd) (hne : fd' ≠ fd)
    (hplain : Plain k t fd') : Plain k' t fd' := by
  have hget := (h t fd' (by simp [hne])).2
  rwa [Plain, hget]

/-- The slot of the child refers to what the slot of the parent refers to. -/
def Inherits (k k' : Kernel n) (parent child : Fin n) (fd : Fin 64) (parentFd : Int) : Prop :=
  ∀ h : parentFd.toNat < 64, 0 ≤ parentFd → k.slot (parent, ⟨parentFd.toNat, h⟩) ≠ none →
    k'.slot (child, fd) = k.slot (parent, ⟨parentFd.toNat, h⟩)

section

variable (hk : Inv k) {child parent : Fin n}
include hk

theorem installChildFd_moves
    (hchild : k.running child = true) (hne : parent ≠ child) (hplain : Plain k child fd)
    (default : FileDescriptor) (hdefault : default.resource = none) (parentFd : Int) :
    Moves k [] [] (k.installChildFd parent child fd parentFd default) ∧
      SameBut k (k.installChildFd parent child fd parentFd default) child fd ∧
      Inherits k (k.installChildFd parent child fd parentFd default) parent child fd parentFd := by
  have hsome := isSome_of_running hchild
  have hnew : Moves k [] [] (k.putNew child fd default) ∧
      SameBut k (k.putNew child fd default) child fd := by
    have hput : Moves k default.resource.toList (k.lost child fd) (k.putNew child fd default) :=
      putNew_moves hk hchild default
    rw [hdefault, lost_of_plain hk hplain] at hput
    exact ⟨hput, (putNew_edit hsome default).sameBut⟩
  rw [installChildFd]
  split
  · exact ⟨hnew.1, hnew.2, fun _ hpos => absurd hpos (by omega)⟩
  by_cases hlt : parentFd.toNat < 64
  · rw [entry_eq hk hlt]
    rcases hslot : k.slot (parent, ⟨parentFd.toNat, hlt⟩) with _ | d
    · exact ⟨hnew.1, hnew.2, fun _ _ h => absurd hslot h⟩
    have hshared : Moves k [] (k.lost child fd) (k.putShared child fd (k.ofd d).origin d) :=
      putShared_moves hk hchild (by simp [hne]) hslot
    rw [lost_of_plain hk hplain] at hshared
    have hedit : Edit k child fd _ _ _ := putShared_edit hsome (k.ofd d).origin d
    refine ⟨hshared, hedit.sameBut, fun _ _ _ => ?_⟩
    rw [hslot]
    exact (congrFun hedit.slot _).trans (update_self ..)
  · rw [entry_of_ge hlt]
    exact ⟨hnew.1, hnew.2, fun h => absurd h hlt⟩

theorem newTable_moves (hnone : k.tables child = none) :
    Moves k [] [] { k with tables := update k.tables child (some .new) } ∧
      (∀ p, slot { k with tables := update k.tables child (some .new) } p = k.slot p) ∧
      running { k with tables := update k.tables child (some .new) } child = true := by
  have hslot : slot { k with tables := update k.tables child (some .new) } = k.slot := by
    funext ⟨t, fd⟩
    by_cases ht : t = child
    · subst ht
      simp [slot, hnone, FileDescriptorTable.new]
    · simp [slot, ht]
  have hget : ∀ t fd, get { k with tables := update k.tables child (some .new) } t fd
      = k.get t fd := by
    intro t fd
    by_cases ht : t = child
    · subst ht
      simp [Kernel.get, hnone, FileDescriptorTable.new]
    · simp [Kernel.get, ht]
  have hlive : k.exited child = false := by
    rcases hexit : k.exited child with _ | _
    · rfl
    · have := (hk.exited child hexit).1
      simp [hnone] at this
  have hisSome : ∀ t, (k.tables t).isSome = true →
      (update k.tables child (some FileDescriptorTable.new) t).isSome = true := by
    intro t ht
    by_cases h : t = child
    · simp [h]
    · simpa [h] using ht
  refine ⟨⟨⟨fun t fd => ?_, fun p d hp => ?_, fun d hd => ?_, fun t hexit => ?_⟩, fun t ht => ?_,
    fun r => ?_⟩, fun p => by rw [hslot], ?_⟩
  · rw [hget, hslot]
    exact hk.get t fd
  · rw [hslot] at hp
    exact hk.lt_next p d hp
  · rw [hslot]
    exact hk.strong d hd
  · rw [hslot]
    obtain ⟨hsome, hempty⟩ := hk.exited t hexit
    exact ⟨hisSome t hsome, hempty⟩
  · rw [running, Bool.and_eq_true] at ht ⊢
    exact ⟨hisSome t ht.1, ht.2⟩
  · rw [owned, owned, hslot]
    rfl
  · simp [running, hlive]

theorem insert_plain (ht : k.running t = true) (h : k.slot (t, fd) = none)
    (desc : FileDescriptor) (hdesc : desc.resource = none) :
    Moves k [] [] (k.insert t fd desc).2 ∧ SameBut k (k.insert t fd desc).2 t fd ∧
      Plain (k.insert t fd desc).2 t fd := by
  have hmoves := insert_moves hk ht h desc
  have hsome := isSome_of_running ht
  rw [hdesc] at hmoves
  rw [insert_eq hk h] at hmoves ⊢
  have hedit : Edit k t fd _ _ _ := putNew_edit hsome desc
  refine ⟨hmoves, hedit.sameBut, ?_⟩
  rw [Plain, hedit.get, if_pos rfl]
  exact hdesc

theorem withStdio_moves (hnone : k.tables child = none) :
    Moves k [] [] (k.withStdio child) ∧ (k.withStdio child).running child = true ∧
      (∀ t fd, t ≠ child → (k.withStdio child).slot (t, fd) = k.slot (t, fd)) ∧
      Plain (k.withStdio child) child 0 ∧ Plain (k.withStdio child) child 1 ∧
      Plain (k.withStdio child) child 2 := by
  obtain ⟨hmoves0, hslot0, hrun0⟩ := newTable_moves hk hnone
  rw [withStdio]
  dsimp only
  generalize { k with tables := update k.tables child (some .new) } = k0 at hmoves0 hslot0 hrun0
  have hempty0 : ∀ fd, k0.slot (child, fd) = none := fun fd => by
    rw [hslot0, slot, hnone]
    rfl
  obtain ⟨hmoves1, hsame1, hplain0⟩ :=
    insert_plain hmoves0.inv hrun0 (hempty0 0) .consoleIn rfl
  have hrun1 := hmoves1.running child hrun0
  generalize (k0.insert child 0 .consoleIn).2 = k1 at hmoves1 hsame1 hplain0 hrun1
  have hempty1 : k1.slot (child, 1) = none := by
    rw [(hsame1 child 1 (by simp)).1, hempty0]
  obtain ⟨hmoves2, hsame2, hplain1⟩ :=
    insert_plain hmoves1.inv hrun1 hempty1 .consoleOut rfl
  have hrun2 := hmoves2.running child hrun1
  generalize (k1.insert child 1 .consoleOut).2 = k2 at hmoves2 hsame2 hplain1 hrun2
  have hempty2 : k2.slot (child, 2) = none := by
    rw [(hsame2 child 2 (by simp)).1, (hsame1 child 2 (by simp)).1, hempty0]
  obtain ⟨hmoves3, hsame3, hplain2⟩ :=
    insert_plain hmoves2.inv hrun2 hempty2 .consoleOut rfl
  refine ⟨((hmoves0.trans hmoves1).trans hmoves2).trans hmoves3, hmoves3.running child hrun2,
    fun t fd ht => ?_, hsame3.plain (by decide) (hsame2.plain (by decide) hplain0),
    hsame3.plain (by decide) hplain1, hplain2⟩
  rw [(hsame3 t fd (by simp [ht])).1, (hsame2 t fd (by simp [ht])).1,
    (hsame1 t fd (by simp [ht])).1, hslot0]

theorem spawnFds_moves (hparent : k.running parent = true)
    (hnone : k.tables child = none) (stdin stdout stderr : Int) :
    Moves k [] [] (spawnFds k parent child stdin stdout stderr) ∧
      (∀ fd, (spawnFds k parent child stdin stdout stderr).slot (parent, fd)
        = k.slot (parent, fd)) ∧
      Inherits k (spawnFds k parent child stdin stdout stderr) parent child 0 stdin ∧
      Inherits k (spawnFds k parent child stdin stdout stderr) parent child 1 stdout ∧
      Inherits k (spawnFds k parent child stdin stdout stderr) parent child 2 stderr := by
  have hne : parent ≠ child := by
    rintro rfl
    have := isSome_of_running hparent
    simp [hnone] at this
  obtain ⟨hmoves0, hrun0, hslot0, hplain0, hplain1, hplain2⟩ := withStdio_moves hk hnone
  rw [spawnFds]
  generalize k.withStdio child = k0 at hmoves0 hrun0 hslot0 hplain0 hplain1 hplain2
  obtain ⟨hmoves1, hsame1, hinherits0⟩ :=
    installChildFd_moves hmoves0.inv hrun0 hne hplain0 .consoleIn rfl stdin
  have hrun1 := hmoves1.running child hrun0
  have hplain1 := hsame1.plain (by decide) hplain1
  have hplain2 := hsame1.plain (by decide) hplain2
  generalize k0.installChildFd parent child 0 stdin .consoleIn = k1
    at hmoves1 hsame1 hinherits0 hrun1 hplain1 hplain2
  obtain ⟨hmoves2, hsame2, hinherits1⟩ :=
    installChildFd_moves hmoves1.inv hrun1 hne hplain1 .consoleOut rfl stdout
  have hrun2 := hmoves2.running child hrun1
  have hplain2 := hsame2.plain (by decide) hplain2
  generalize k1.installChildFd parent child 1 stdout .consoleOut = k2
    at hmoves2 hsame2 hinherits1 hrun2 hplain2
  obtain ⟨hmoves3, hsame3, hinherits2⟩ :=
    installChildFd_moves hmoves2.inv hrun2 hne hplain2 .consoleOut rfl stderr
  have hparent0 : ∀ fd, k0.slot (parent, fd) = k.slot (parent, fd) := fun fd => hslot0 parent fd hne
  have hparent1 : ∀ fd, k1.slot (parent, fd) = k.slot (parent, fd) := fun fd => by
    rw [(hsame1 parent fd (by simp [hne])).1, hparent0]
  have hparent2 : ∀ fd, k2.slot (parent, fd) = k.slot (parent, fd) := fun fd => by
    rw [(hsame2 parent fd (by simp [hne])).1, hparent1]
  refine ⟨((hmoves0.trans hmoves1).trans hmoves2).trans hmoves3, fun fd => ?_,
    fun h hpos hopen => ?_, fun h hpos hopen => ?_, fun h hpos hopen => ?_⟩
  · rw [(hsame3 parent fd (by simp [hne])).1, hparent2]
  · rw [← hparent0] at hopen ⊢
    rw [(hsame3 child 0 (by simp)).1, (hsame2 child 0 (by simp)).1]
    exact hinherits0 h hpos hopen
  · rw [← hparent1] at hopen ⊢
    rw [(hsame3 child 1 (by simp)).1]
    exact hinherits1 h hpos hopen
  · rw [← hparent2] at hopen ⊢
    exact hinherits2 h hpos hopen

/-! ## Whole tables -/

theorem closeAll_keeps (ht : k.running t = true) : Settles k (closeAll k t) := by
  obtain ⟨hmoves, hslots⟩ := takeLoop_moves hk ht (List.finRange 64)
  rw [closeAll, takeAll]
  generalize k.takeLoop t (List.finRange 64) = taken at hmoves hslots
  obtain ⟨closed, k1⟩ := taken
  have hempty : ∀ fd, k1.slot (t, fd) = none := fun fd => by
    rw [hslots, if_pos (List.mem_finRange fd)]
  refine ⟨⟨hmoves.inv.get, hmoves.inv.lt_next, hmoves.inv.strong, fun t' hexit => ?_⟩,
    hmoves.balance⟩
  by_cases h : t' = t
  · subst h
    have hsome := isSome_of_running (hmoves.running t' ht)
    exact ⟨hsome, hempty⟩
  · have hold : k1.exited t' = true := by simpa [h] using hexit
    exact hmoves.inv.exited t' hold

theorem reap_keeps (h : k.exited t = true) :
    Inv { k with tables := update k.tables t none, exited := update k.exited t false } ∧
      ∀ r, owned { k with
        tables := update k.tables t none, exited := update k.exited t false } r = k.owned r := by
  obtain ⟨-, hempty⟩ := hk.exited t h
  have hslot : slot { k with
      tables := update k.tables t none, exited := update k.exited t false } = k.slot := by
    funext ⟨t', fd⟩
    by_cases ht : t' = t
    · subst ht
      rw [hempty fd]
      simp [slot]
    · simp [slot, ht]
  refine ⟨⟨fun t' fd => ?_, fun p d hp => ?_, fun d hd => ?_, fun t' hexit => ?_⟩, fun r => ?_⟩
  · rw [hslot]
    by_cases ht : t' = t
    · subst ht
      rw [hempty fd]
      simp [Kernel.get]
    · rw [← hk.get]
      simp [Kernel.get, ht]
  · rw [hslot] at hp
    exact hk.lt_next p d hp
  · rw [hslot]
    exact hk.strong d hd
  · rw [hslot]
    by_cases ht : t' = t
    · simp [ht] at hexit
    · have hold : k.exited t' = true := by simpa [ht] using hexit
      simpa [ht] using hk.exited t' hold
  · rw [owned, hslot]
    rfl

/-- Offsets and flags are not part of the books. -/
theorem adjust_moves (fd : Nat) (f : OpenFileDescription → OpenFileDescription) :
    Moves k [] [] (adjust k t fd f) := by
  rw [adjust]
  split
  · exact Moves.refl hk
  rename_i desc d hentry
  generalize hofd : update k.ofd d { f (k.ofd d) with
    strong := (k.ofd d).strong, origin := (k.ofd d).origin } = ofd
  have hsame : ∀ d', (ofd d').origin = (k.ofd d').origin ∧ (ofd d').strong = (k.ofd d').strong := by
    intro d'
    rw [← hofd, update_apply]
    split
    · rename_i h
      rw [h]
      exact ⟨rfl, rfl⟩
    · exact ⟨rfl, rfl⟩
  refine ⟨⟨fun t' fd' => ?_, hk.lt_next, fun d' hd' => ?_, hk.exited⟩, fun _ ht => ht, fun r => ?_⟩
  · simp only [(hsame _).1]
    exact hk.get t' fd'
  · rw [(hsame d').2]
    exact hk.strong d' hd'
  · simp only [List.count_nil, Nat.zero_add]
    refine Shared.owned_congr (fun d' _ => ?_) r
    rw [kind, kind, (hsame d').1]

end

/-! ## Runs -/

/-- A call accounts for every resource: those behind the descriptions that some slot refers to
change by what it acquired and what it released. -/
def FdOp.Balanced (op : FdOp n) (k : Kernel n) : Prop :=
  ∀ r, (op.step k).1.acquired.count r + k.owned r
    = (op.step k).1.released.count r + (op.step k).2.owned r

/-- Two slots of the state after the call refer to the description that the first one referred
to before. -/
def Shares (k k' : Kernel n) (p q : Fin n × Fin 64) : Prop :=
  k.slot p ≠ none → k'.slot p = k.slot p ∧ k'.slot q = k.slot p

/-- What a duplicated or inherited descriptor refers to. -/
def FdOp.SharesOne (op : FdOp n) (k : Kernel n) : Prop :=
  k.running op.caller = true →
    match op with
    | .dup2 t oldfd newfd => ∀ (ho : oldfd < 64) (hn : newfd < 64),
      Shares k (op.step k).2 (t, ⟨oldfd, ho⟩) (t, ⟨newfd, hn⟩)
    | .dup t oldfd => ∀ (ho : oldfd < 64) (newfd : Fin 64), k.allocFd t = some newfd →
      Shares k (op.step k).2 (t, ⟨oldfd, ho⟩) (t, newfd)
    | .spawn parent child stdin stdout stderr => k.tables child = none →
      ∀ fd parentFd, (fd, parentFd) ∈ [((0 : Fin 64), stdin), (1, stdout), (2, stderr)] →
        0 ≤ parentFd → ∀ h : parentFd.toNat < 64,
          Shares k (op.step k).2 (parent, ⟨parentFd.toNat, h⟩) (child, fd)
    | _ => True

theorem sysDup_moves (hk : Inv k) (ht : k.running t = true) (oldfd : Nat) :
    Keeps k (sysDup k t oldfd) := by
  rw [sysDup]
  rcases k.allocFd t with _ | newfd
  · exact Moves.refl hk
  · exact (sysDup2_moves hk ht oldfd newfd).1

theorem act_keeps (hk : Inv k) (op : FdOp n) (ht : k.running op.caller = true) :
    Settles k (op.act k) := by
  cases op with
  | openFile t inode offset mode => exact (sysOpen_moves hk ht rfl).settles
  | openDevice t inode offset mode kind => exact (sysOpen_moves hk ht rfl).settles
  | openDir t path => exact (sysOpen_moves hk ht rfl).settles
  | openTty t ptyId => exact (sysAcquire_moves hk ht _).settles
  | socket t socketId => exact (sysAcquire_moves hk ht _).settles
  | pipe t pipeId => exact (sysPair_moves hk ht _ _).settles
  | openpty t ptyId => exact (sysPair_moves hk ht _ _).settles
  | close t fd => exact (sysClose_moves hk ht fd).settles
  | dup t oldfd => exact (sysDup_moves hk ht oldfd).settles
  | dup2 t oldfd newfd => exact (sysDup2_moves hk ht oldfd newfd).1.settles
  | setOffset t fd offset =>
    have hadjust := adjust_moves (t := t) hk fd fun o => { o with offset }
    exact Keeps.settles hadjust
  | setFlags t fd flags =>
    have hadjust := adjust_moves (t := t) hk fd fun o =>
      { o with statusFlags := flags &&& ofdStatusMask }
    exact Keeps.settles hadjust
  | spawn parent child stdin stdout stderr =>
    rw [FdOp.act]
    split
    · exact Keeps.settles (Moves.refl hk)
    rename_i hfree
    have hnone : k.tables child = none := by simpa using hfree
    exact Keeps.settles (spawnFds_moves hk ht hnone stdin stdout stderr).1
  | exit t =>
    rw [FdOp.act]
    exact closeAll_keeps hk ht
  | reap t => exact Keeps.settles (Moves.refl hk)

theorem step_of_ne_reap {op : FdOp n} (hop : ∀ t, op ≠ .reap t) :
    op.step k = if k.running op.caller then op.act k else (.none, k) := by
  cases op with
  | reap t => exact absurd rfl (hop t)
  | _ => rfl

theorem step_keeps (k : Kernel n) (hk : Inv k) : Inv (op.step k).2 ∧ op.Balanced k := by
  have hstay : Settles k (.none, k) := ⟨hk, fun _ => rfl⟩
  rw [FdOp.Balanced]
  by_cases hop : ∃ t, op = .reap t
  · obtain ⟨t, rfl⟩ := hop
    rw [FdOp.step]
    split
    · rename_i hexit
      obtain ⟨hinv, howned⟩ := reap_keeps hk hexit
      exact ⟨hinv, fun r => by rw [howned]; rfl⟩
    · exact hstay
  rw [step_of_ne_reap fun t h => hop ⟨t, h⟩]
  split
  · rename_i ht
    exact act_keeps hk op ht
  · exact hstay

theorem step_shares (k : Kernel n) (hk : Inv k) : op.SharesOne k := by
  intro ht
  cases op with
  | dup2 t oldfd newfd =>
    intro ho hn hopen
    have hstep : FdOp.step (.dup2 t oldfd newfd) k = sysDup2 k t oldfd newfd := if_pos ht
    rw [hstep]
    exact (sysDup2_moves hk ht oldfd newfd).2 ho hn hopen
  | dup t oldfd =>
    intro ho newfd halloc hopen
    have hstep : FdOp.step (.dup t oldfd) k = sysDup k t oldfd := if_pos ht
    rw [hstep, sysDup, halloc]
    exact (sysDup2_moves hk ht oldfd newfd).2 ho newfd.isLt hopen
  | spawn parent child stdin stdout stderr =>
    intro hnone fd parentFd hmem hpos h hopen
    have hstep : FdOp.step (.spawn parent child stdin stdout stderr) k
        = (.none, spawnFds k parent child stdin stdout stderr) := by
      have hact : FdOp.step (.spawn parent child stdin stdout stderr) k
          = FdOp.act (.spawn parent child stdin stdout stderr) k := if_pos ht
      rw [hact, FdOp.act, hnone]
      rfl
    obtain ⟨-, hparent, hin, hout, herr⟩ := spawnFds_moves hk ht hnone stdin stdout stderr
    rw [hstep]
    refine ⟨hparent _, ?_⟩
    simp only [List.mem_cons, List.not_mem_nil, or_false] at hmem
    rcases hmem with ⟨rfl, rfl⟩ | ⟨rfl, rfl⟩ | ⟨rfl, rfl⟩
    · exact hin h hpos hopen
    · exact hout h hpos hopen
    · exact herr h hpos hopen
  | _ => trivial

theorem boot_inv (init : Fin n) : Inv (boot init) := by
  refine (withStdio_moves ⟨?_, ?_, ?_, ?_⟩ rfl).1.inv
  · intro t fd
    rfl
  · intro p d hp
    cases hp
  · intro d hd
    exact absurd hd (Nat.not_lt_zero d)
  · intro t hexit
    cases hexit

/-- A slot has a descriptor exactly if it has a description. -/
def Paired (k : Kernel n) : Prop := ∀ t fd, (k.get t fd).isSome = (k.slot (t, fd)).isSome

/-- Along every run the count of a description is the number of slots that refer to it. -/
theorem counts_are_uses (init : Fin n) (ops : List (FdOp n)) :
    Inv (ops.foldl (fun k op => (op.step k).2) (boot init)) :=
  List.foldlRecOn ops _ (boot_inv init) fun k hk op _ => (step_keeps op k hk).1

end Felix.Fd
