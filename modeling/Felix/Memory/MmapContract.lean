import Felix.Memory.Arena

/-!
# `munmap`, and mappings that fail

`sys_munmap` unmaps the pages of its range and nothing else exactly if every page
that is mapped there has one reference.  A call of `sys_mmap2` that fails leaves
everything as it was, unless the kernel chose the address and the call failed after
that.
-/

namespace Felix.Memory

open Machine Res

namespace Vm

variable {kernel : Nat → Prop} {s s' : Vm} {w : World} {a : MmapArgs}

/-! ## Unmapping a range -/

/-- `sys_munmap` returns, and if it returns 0 no page of the range that lies in the
arena is translated any more, and every other page is translated as before. -/
def UnmapsRange (w : World) (addr len : UInt32) (s : Vm) : Prop :=
  ∃ r s', s.sysMunmap w addr len = .ok (r, s') ∧ (r = 0 →
    (∀ x, addr.toNat ≤ x → x < addr.toNat + len.toNat → mmapBase ≤ x → x < wmSharedBase →
      s'.machine.translate x = none) ∧
    ∀ x, x < 4096 * unmapFirst addr ∨ 4096 * unmapEnd addr len ≤ x →
      s'.machine.translate x = s.machine.translate x)

/-- The end of the range is not too close to the end of the address space, and
every page of the range that is translated has one reference. -/
def UnmapCondition (addr len : UInt32) (s : Vm) : Prop :=
  len = 0 ∨ satAdd addr.toNat len.toNat + 4096 < 2 ^ 32 ∧
    (wmSharedBase < 4096 * unmapEnd addr len ∨
      ∀ p, unmapFirst addr ≤ p → p < unmapEnd addr len → mmapBase ≤ 4096 * p →
        (s.machine.translate (4096 * p)).isSome = true → s.counts.count (4096 * p) = 1)

theorem munmap_unmaps_iff (hs : s.Good kernel) (w : World) (addr len : UInt32) :
    UnmapsRange w addr len s ↔ UnmapCondition addr len s := by
  rcases sysMunmap_eq hs w addr len with ⟨hlen, hok⟩ | ⟨hlen, hsum, herror⟩ |
    ⟨hlen, hsum, hrange, hok⟩ | ⟨hlen, hsum, hrange, flushed, s₁, hok, hunmaps⟩
  · refine iff_of_true ⟨0, s, hok, fun _ => ⟨fun x hx hx' => ?_, fun _ _ => rfl⟩⟩ (.inl hlen)
    rw [hlen] at hx'
    exact absurd hx (Nat.not_le.2 hx')
  · refine iff_of_false ?_ ?_
    · rintro ⟨r, s', hok, _⟩
      rw [herror] at hok
      cases hok
    · rintro (hzero | ⟨hlt, _⟩)
      · exact hlen hzero
      · exact absurd hlt (Nat.not_lt.2 hsum)
  · refine iff_of_true ⟨einval, s, hok, fun hzero => ?_⟩ (.inr ⟨hsum, .inl hrange⟩)
    exact absurd hzero (by decide)
  have hmachine := (recycle_machine (4096 * unmapFirst addr) (4096 * unmapEnd addr len)
    flushed s₁).1
  have hcond : UnmapCondition addr len s ↔ ∀ p, unmapFirst addr ≤ p → p < unmapEnd addr len →
      mmapBase ≤ 4096 * p → (s.machine.translate (4096 * p)).isSome = true →
      s.counts.count (4096 * p) = 1 := by
    unfold UnmapCondition
    rw [or_iff_right hlen, and_iff_right hsum, or_iff_right (Nat.not_lt.2 hrange)]
  have hpos : 0 < len.toNat := Nat.pos_of_ne_zero fun h => hlen (UInt32.toNat_inj.1 h)
  rw [hcond]
  constructor
  · rintro ⟨r, s', hok', hprop⟩ p hp hp' hbase hsome
    rw [hok] at hok'
    cases hok'
    have hnone := (hprop rfl).1
    rw [hmachine] at hnone
    -- an address of the page that is in the range
    obtain ⟨x, hx⟩ : ∃ x, x = max (4096 * p) addr.toNat := ⟨_, rfl⟩
    have hpage : x / 4096 = p ∧ addr.toNat ≤ x ∧ x < addr.toNat + len.toNat := by
      unfold unmapFirst at hp
      unfold unmapEnd at hp'
      omega
    unfold mmapBase at hbase
    unfold wmSharedBase at hrange
    have htranslate := hnone x hpage.2.1 hpage.2.2 (by unfold mmapBase; omega)
      (by unfold wmSharedBase; omega)
    have hplain : ∀ m : Machine, (∀ i, 384 ≤ i → i < 640 → m.Plain i) → ∀ y, y / 4096 = p →
        m.Plain (y / 4096 / 1024) := fun m hall y hy => hall _ (by omega) (by omega)
    rw [translate_eq_none_iff (hplain _ hunmaps.good.plain x hpage.1), hpage.1,
      hunmaps.mapped p (userPage_of_lt (by unfold wmSharedBase; omega))] at htranslate
    have hdiv : 4096 * p / 4096 = p := Nat.mul_div_cancel_left p (by decide)
    rw [translate_isSome_iff (hplain _ hs.plain _ hdiv), hdiv] at hsome
    by_contra hne
    exact htranslate ⟨hsome, fun hr => hne hr.2⟩
  · intro hall
    refine ⟨0, _, hok, fun _ => ⟨fun x hx hx' hbase hend => ?_, fun x hx => ?_⟩⟩
    · rw [hmachine]
      have hin : unmapFirst addr ≤ x / 4096 ∧ x / 4096 < unmapEnd addr len := by
        unfold unmapFirst unmapEnd
        omega
      unfold mmapBase at hbase
      unfold wmSharedBase at hend
      have hplain := hs.plain (x / 4096 / 1024) (by omega) (by omega)
      rw [translate_eq_none_iff (hunmaps.good.plain _ (by omega) (by omega)),
        hunmaps.mapped _ (userPage_of_lt (by unfold wmSharedBase; omega))]
      rintro ⟨hm, hnot⟩
      have hdiv : 4096 * (x / 4096) / 4096 = x / 4096 := Nat.mul_div_cancel_left _ (by decide)
      refine hnot ⟨by omega, hall _ hin.1 hin.2 (by unfold mmapBase; omega) ?_⟩
      rw [translate_isSome_iff (by rw [hdiv]; exact hplain), hdiv]
      exact hm
    · rw [hmachine]
      exact hunmaps.others x fun hr => by omega

/-- A page that was mapped once is unmapped. -/
theorem munmap_unmaps_newVm : ∃ s, newVm.sysMmap2 oneFile (anonymousMap 0 4096)
      = .ok (0x60000000, s) ∧ UnmapCondition 0x60000000 4096 s ∧
    UnmapsRange oneFile 0x60000000 4096 s := by
  have hresult : ((newVm.sysMmap2 oneFile (anonymousMap 0 4096)).map
      fun r => (r.1, r.2.counts.count 0x60000000)).toOption = some (0x60000000, 1) := by
    decide +kernel
  obtain ⟨r, hrun, heq⟩ := of_toOption hresult
  rw [Prod.mk.injEq] at heq
  have hgood := (Call.keeps (.mmap oneFile (anonymousMap 0 4096)) ⟨newVm_good, newVm_arena⟩
    (.inl rfl) hrun).1
  have hcond : UnmapCondition 0x60000000 4096 r.2 := by
    refine .inr ⟨by decide, .inr fun p hp hp' _ _ => ?_⟩
    have hfirst : 0x60000 ≤ p := hp
    have hlast : p < 0x60001 := hp'
    rw [show p = 0x60000 by omega]
    exact heq.2
  exact ⟨r.2, by rw [hrun, ← heq.1], hcond, (munmap_unmaps_iff hgood oneFile _ _).2 hcond⟩

/-- The sum overflows near the end of the address space, and a page that was mapped
twice at a fixed address stays translated. -/
theorem newVm_stays_mapped : ¬ UnmapsRange oneFile 0xFFFFF000 1 newVm ∧
    ∃ s, (do
        let (_, s) ← newVm.sysMmap2 oneFile (anonymousMap 0x60000000 4096)
        let (_, s) ← s.sysMmap2 oneFile (anonymousMap 0x60000000 4096)
        (.ok s : Res Vm)) = .ok s ∧ ¬ UnmapsRange oneFile 0x60000000 4096 s := by
  constructor
  · rintro ⟨r, s', hrun, _⟩
    have herror : (newVm.sysMunmap oneFile 0xFFFFF000 1).toOption.isNone = true := by
      decide +kernel
    rw [hrun] at herror
    cases herror
  · have hresult : ((do
        let (_, s) ← newVm.sysMmap2 oneFile (anonymousMap 0x60000000 4096)
        let (_, s) ← s.sysMmap2 oneFile (anonymousMap 0x60000000 4096)
        (.ok s : Res Vm)) >>= fun s : Vm => (s.sysMunmap oneFile 0x60000000 4096).map
          fun r => (r.1, (r.2.machine.translate 0x60000000).isNone)) = .ok (0, false) := by
      decide +kernel
    obtain ⟨s, hrun, hresult⟩ := bind_eq_ok.1 hresult
    refine ⟨s, hrun, ?_⟩
    rintro ⟨r, s', hok, hprop⟩
    rw [hok] at hresult
    obtain ⟨rfl, hsome⟩ := Prod.mk.inj (Except.ok.inj hresult)
    rw [(hprop rfl).1 0x60000000 (by decide) (by decide) (by decide) (by decide)] at hsome
    cases hsome

/-! ## A mapping that fails -/

/-- A call of `sys_mmap2` that returns an error code leaves the bookkeeping of the
arena, the translations and the reference counts as they were. -/
def KeepsOnError (w : World) (a : MmapArgs) (s : Vm) : Prop :=
  ∀ r s', s.sysMmap2 w a = .ok (r, s') → IsError r →
    SameArena s s' ∧ (∀ x, s'.machine.translate x = s.machine.translate x) ∧
      s'.counts = s.counts

/-- The address that the kernel has for `n` bytes: that of the first hole which is
large enough, or the next one that was never handed out. -/
def candidate (n : Nat) (s : Vm) : Option Nat :=
  match s.mmapFree.find? (n ≤ ·.2) with
  | some h => if h.2 = n ∨ h.1 + n < 2 ^ 32 then some h.1 else none
  | none => if satAdd s.arenaNext n < wmSharedBase then some s.arenaNext else none

/-- One of the checks that come after the address was picked fails. -/
def LateFailure (w : World) (a : MmapArgs) (va : Nat) (m : Machine) : Prop :=
  (wmSharedBase ≤ va ∨ wmSharedBase < satAdd va a.lenU) ∨
    a.anonymous = false ∧ ∀ inode, w.inodeOf a.fd.toNat = some inode →
      a.flag mapShared = true ∧ ∀ size, w.sizeOf inode = some size →
        size ≤ a.fileOff + (a.lenU - 4096) ∨ anyTranslated m va (va + a.lenU) = true

theorem acquireFilePage_some {inode offset size : Nat} (hsize : w.sizeOf inode = some size)
    (hoff : offset < size) (haligned : offset % 4096 = 0) {f : Option Nat}
    (hrun : s.acquireFilePage w inode offset = .ok (f, s')) : f ≠ none := by
  unfold acquireFilePage at hrun
  rw [if_neg (not_not.2 haligned)] at hrun
  split at hrun
  · cases hrun
    exact Option.some_ne_none _
  simp only [hsize, if_neg (Nat.not_le.2 hoff)] at hrun
  obtain ⟨⟨frame, m⟩, _, hrest⟩ := bind_eq_ok.1 hrun
  cases hrest
  exact Option.some_ne_none _

theorem mapSharedPages_result {inode va size fuel p off stop r : Nat} {s' : Vm}
    (hsize : w.sizeOf inode = some size) (haligned : off % 4096 = 0)
    (hoff : p < stop → off + (stop - p - 4096) < size) (hdvd : 4096 ∣ stop - p)
    (hrun : s.mapSharedPages w inode va fuel p off stop = .ok (r, s')) : r = va := by
  induction fuel generalizing p off s with
  | zero => cases hrun
  | succ fuel ih =>
    unfold mapSharedPages at hrun
    split at hrun
    · obtain ⟨⟨frame, s₁⟩, hacq, hrest⟩ := bind_eq_ok.1 hrun
      cases frame with
      | none => exact absurd rfl (acquireFilePage_some hsize (by omega) haligned hacq)
      | some f =>
        obtain ⟨⟨_, counts⟩, _, hrest⟩ := bind_eq_ok.1 hrest
        obtain ⟨m, _, hrest⟩ := bind_eq_ok.1 hrest
        obtain ⟨p', hadd, hrest⟩ := bind_eq_ok.1 hrest
        obtain ⟨_, rfl⟩ := addW_eq_ok.1 hadd
        exact ih (by omega) (fun _ => by omega) (by omega) hrest
    · cases hrun
      rfl

/-- After the address was picked, an error code comes from a late check, before
anything was changed. -/
theorem mapRange_error {va : Nat} :
    (LateFailure w a va s.machine → ∃ r, IsError r ∧ s.mapRange w a va = .ok (r, s)) ∧
      (¬ LateFailure w a va s.machine → ∀ r s', s.mapRange w a va = .ok (r, s') → ¬ IsError r) := by
  unfold LateFailure mapRange
  by_cases hrange : wmSharedBase ≤ va ∨ wmSharedBase < satAdd va a.lenU
  · rw [if_pos hrange]
    exact ⟨fun _ => ⟨einval, by decide, rfl⟩, fun hnot => absurd (.inl hrange) hnot⟩
  rw [if_neg hrange, or_iff_right hrange]
  have hva : ¬ IsError va := by
    unfold IsError
    unfold wmSharedBase at hrange
    omega
  have hprivate : ∀ inode r s', s.mapPrivateRange w a inode va = .ok (r, s') → r = va := by
    intro inode r s' hrun
    unfold mapPrivateRange at hrun
    obtain ⟨s₁, _, hrest⟩ := bind_eq_ok.1 hrun
    cases inode with
    | none =>
      cases hrest
      rfl
    | some inode =>
      obtain ⟨m, _, hok⟩ := bind_eq_ok.1 hrest
      cases hok
      rfl
  by_cases hanon : a.anonymous = true
  · rw [if_pos hanon]
    refine ⟨fun hlate => absurd hlate.1 (by rw [hanon]; decide), fun _ r s' hrun => ?_⟩
    rw [hprivate none r s' hrun]
    exact hva
  rw [if_neg hanon, and_iff_right (Bool.eq_false_iff.2 hanon)]
  cases hinode : w.inodeOf a.fd.toNat with
  | none =>
    refine ⟨fun _ => ⟨ebadf, by decide, rfl⟩, fun hnot => absurd ?_ hnot⟩
    exact fun _ hsome => (nomatch hsome)
  | some inode =>
    simp only [Option.some.injEq, forall_eq']
    by_cases hshared : a.flag mapShared = true
    · rw [if_pos hshared, and_iff_right hshared]
      unfold mapSharedRange
      cases hsize : w.sizeOf inode with
      | none =>
        refine ⟨fun _ => ⟨ebadf, by decide, rfl⟩, fun hnot => absurd ?_ hnot⟩
        exact fun _ hsome => (nomatch hsome)
      | some size =>
        simp only [Option.some.injEq, forall_eq']
        by_cases hoff : size ≤ a.fileOff + (a.lenU - 4096)
        · rw [if_pos hoff]
          exact ⟨fun _ => ⟨einval, by decide, rfl⟩, fun hnot => absurd (.inl hoff) hnot⟩
        rw [if_neg hoff, or_iff_right hoff]
        by_cases hbusy : anyTranslated s.machine va (va + a.lenU) = true
        · rw [if_pos hbusy]
          exact ⟨fun _ => ⟨ebusy, by decide, rfl⟩, fun hnot => absurd hbusy hnot⟩
        rw [if_neg hbusy]
        refine ⟨fun hlate => absurd hlate hbusy, fun _ r s' hrun => ?_⟩
        rw [mapSharedPages_result hsize (show a.fileOff % 4096 = 0 from Nat.mul_mod_left _ _)
          (fun _ => by omega) (by rw [Nat.add_sub_cancel_left]; exact lenU_dvd a) hrun]
        exact hva
    · rw [if_neg hshared]
      refine ⟨fun hlate => absurd hlate.1 hshared, fun _ r s' hrun => ?_⟩
      rw [hprivate (some inode) r s' hrun]
      exact hva

/-- The address that the kernel picks, in any state. -/
theorem pickAddress_candidate (h : Admitted a) (hchosen : a.chosen = true) :
    match candidate a.lenU s with
    | some va => ∃ s₁, s.pickAddress a = .ok (.ok va, s₁) ∧ ¬ SameArena s s₁ ∧
        s₁.machine = s.machine
    | none => ∀ r s₁, s.pickAddress a = .ok (r, s₁) → r = .error enomem ∧ s₁ = s := by
  have hpos : 0 < a.lenU := by
    have : a.len.toNat ≠ 0 := fun hzero => h.len (UInt32.toNat_inj.1 hzero)
    unfold MmapArgs.lenU
    omega
  have hmax := h.max
  rw [pickAddress_eq hchosen]
  unfold chooseAddress candidate
  have htake := takeFirst_find a.lenU s.mmapFree
  cases hfind : s.mmapFree.find? (a.lenU ≤ ·.2) with
  | some hole =>
    rw [hfind] at htake
    dsimp only at htake ⊢
    by_cases hfits : hole.2 = a.lenU ∨ hole.1 + a.lenU < 2 ^ 32
    · rw [if_pos hfits] at htake ⊢
      obtain ⟨mmapFree, hsome, hchanged⟩ := htake
      rw [hsome]
      exact ⟨_, rfl, fun hsame => hchanged hpos hsame.2, rfl⟩
    rw [if_neg hfits] at htake ⊢
    rw [htake]
    intro r s₁ hrun
    cases hrun
  | none =>
    rw [hfind] at htake
    rw [htake, show max s.mmapNext mmapBase = s.arenaNext from rfl]
    have hle : s.mmapNext ≤ s.arenaNext := Nat.le_max_left _ _
    by_cases hroom : satAdd s.arenaNext a.lenU < wmSharedBase
    · rw [if_pos hroom]
      rw [if_neg (Nat.not_le.2 hroom)]
      refine ⟨_, rfl, fun hsame => ?_, rfl⟩
      have hnext : satAdd s.arenaNext a.lenU = s.mmapNext := hsame.1
      unfold satAdd at hnext hroom
      unfold wmSharedBase at hroom
      omega
    rw [if_neg hroom]
    rw [if_pos (Nat.not_lt.1 hroom)]
    intro r s₁ hrun
    have hsame : s.arenaNext = s.mmapNext := by
      unfold satAdd MmapArgs.lenU wmSharedBase at hroom
      unfold arenaNext mmapBase at *
      omega
    rw [hsame] at hrun
    cases hrun
    exact ⟨rfl, rfl⟩

/-- A call that fails changes nothing, unless the kernel chose the address and a
check failed after that. -/
theorem failed_mmap_keeps_iff (w : World) (a : MmapArgs) (s : Vm) :
    KeepsOnError w a s ↔ ¬ (Admitted a ∧ a.chosen = true ∧
      ∃ va, candidate a.lenU s = some va ∧ LateFailure w a va s.machine) := by
  constructor
  · rintro hkeeps ⟨hadm, hchosen, va, hcandidate, hlate⟩
    have hpick := pickAddress_candidate (s := s) hadm hchosen
    rw [hcandidate] at hpick
    obtain ⟨s₁, hpick, hchanged, hmachine⟩ := hpick
    rw [← hmachine] at hlate
    obtain ⟨r, herror, hmap⟩ := mapRange_error.1 hlate
    exact hchanged (hkeeps r s₁ (hadm.run hpick ▸ hmap) herror).1
  · intro hnot r s' hrun herror
    have hsame : s' = s := by
      rcases sysMmap2_cases hrun with ⟨_, heq⟩ | ⟨hadm, hrest⟩
      · exact heq
      by_cases hchosen : a.chosen = true
      · have hpick := pickAddress_candidate (s := s) hadm hchosen
        cases hcandidate : candidate a.lenU s with
        | none =>
          rw [hcandidate] at hpick
          obtain ⟨⟨va, s₁⟩, hpick', hend⟩ := bind_eq_ok.1 hrest
          obtain ⟨rfl, rfl⟩ := hpick _ _ hpick'
          cases hend
          rfl
        | some va =>
          rw [hcandidate] at hpick
          obtain ⟨s₁, hpick, _, hmachine⟩ := hpick
          rw [hpick] at hrest
          refine absurd herror (mapRange_error.2 (fun hlate => ?_) r s' hrest)
          rw [hmachine] at hlate
          exact hnot ⟨hadm, hchosen, va, hcandidate, hlate⟩
      · rcases pickAddress_given (Bool.eq_false_iff.2 hchosen) with hpick | hpick
        · rw [hpick] at hrest
          cases hrest
          rfl
        · rw [hpick] at hrest
          by_cases hlate : LateFailure w a (a.addr.toNat / 4096 * 4096) s.machine
          · obtain ⟨r', _, hmap⟩ := mapRange_error.1 hlate
            cases hmap.symm.trans hrest
            rfl
          · exact absurd herror (mapRange_error.2 hlate r s' hrest)
    rw [hsame]
    exact ⟨⟨rfl, rfl⟩, fun _ => rfl, rfl⟩

/-- A private mapping of a descriptor that is not open fails after the kernel chose
its address. -/
theorem newVm_loses_range : ¬ KeepsOnError oneFile ⟨1, 0, 4096, 2, 99, 0⟩ newVm := by
  intro hkeeps
  have hresult : ((newVm.sysMmap2 oneFile ⟨1, 0, 4096, 2, 99, 0⟩).map
      fun r => (r.1, r.2.mmapNext)).toOption = some (ebadf, 0x60001000) := by decide +kernel
  obtain ⟨r, hrun, heq⟩ := of_toOption hresult
  rw [Prod.mk.injEq] at heq
  have hsame := (hkeeps r.1 r.2 hrun (by rw [heq.1]; decide)).1.1
  rw [heq.2] at hsame
  exact absurd hsame (by decide)

end Vm

end Felix.Memory
