import Felix.Base.Runs
import Felix.Memory.MmapState

/-!
# The arena of `mmap`

The kernel chooses an address that nothing is mapped at, along every run of calls
that do not touch the free part of the arena behind the back of its bookkeeping.
`Arena` is the invariant: the addresses above `mmap_next` and the holes are not
mapped.  A call that maps a range takes it out of the bookkeeping first, and a range
that was unmapped is put back only if it was handed out before.
-/

namespace Felix.Memory

open Machine Res

/-- The result of a call is an error code. -/
def IsError (r : Nat) : Prop := 2 ^ 32 - 4095 ≤ r
  deriving Decidable

namespace Vm

variable {kernel : Nat → Prop} {s s' : Vm} {w : World} {a : MmapArgs}

/-! ## The pages of a mapping -/

variable {i j va r : Nat} {m : Machine} {s₁ : Vm}

theorem pages_eq (body : Vm → Nat → Res Vm) (hj : 4096 * j < 2 ^ 32) (s : Vm) :
    s.pages body (4096 * i) (4096 * j)
      = (List.range' i (j - i)).foldlM (fun s p => body s (4096 * p)) s := by
  exact strideLoop_eq (fun _ _ => rfl) (by decide) body hj (by omega) s

theorem anyTranslated_eq_false : anyTranslated m (4096 * i) (4096 * j) = false
      ↔ ∀ p, i ≤ p → p < j → m.translate (4096 * p) = none := by
  unfold anyTranslated
  rw [Nat.mul_div_cancel_left i (by decide), List.any_eq_false]
  simp only [List.mem_range'_1, Bool.not_eq_true, Option.isSome_eq_false_iff,
    Option.isNone_iff_eq_none]
  exact ⟨fun hall p hp hp' => hall p ⟨hp, by omega⟩, fun hall p hp => hall p hp.1 (by omega)⟩

theorem not_mapped_of_translate {p : Nat} (h : m.translate (4096 * p) = none) : ¬ m.Mapped p := by
  intro hm
  have hdiv : 4096 * p / 4096 = p := Nat.mul_div_cancel_left p (by decide)
  rw [translate_of_mapped (by rw [hdiv]; exact hm)] at h
  cases h

theorem mapPrivatePages_good {i n : Nat} (hs : s.Good kernel)
    (huser : ∀ q, i ≤ q → q < i + n → UserPage q)
    (hrun : (List.range' i n).foldlM (fun s p => mapPrivatePage s (4096 * p)) s = .ok s') :
    s'.Good kernel ∧ SameArena s s' ∧ ∀ q, UserPage q →
      (s'.machine.Mapped q ↔ s.machine.Mapped q ∨ (i ≤ q ∧ q < i + n)) := by
  induction n generalizing i s with
  | zero =>
    cases hrun
    exact ⟨hs, ⟨rfl, rfl⟩, fun q _ => (or_iff_left (by omega)).symm⟩
  | succ n ih =>
    obtain ⟨s₁, hfirst, hrest⟩ := bind_eq_ok.1 hrun
    obtain ⟨hs₁, harena₁, hmapped₁⟩ :=
      mapPrivatePage_good hs (huser i (Nat.le_refl i) (by omega)) hfirst
    obtain ⟨hs', harena, hmapped⟩ :=
      ih hs₁ (fun q hq hq' => huser q (by omega) (by omega)) hrest
    refine ⟨hs', ⟨harena.1.trans harena₁.1, harena.2.trans harena₁.2⟩, fun q hq => ?_⟩
    rw [hmapped q hq, hmapped₁ q hq, or_assoc]
    exact or_congr_right (by omega)

/-- What a mapping of a range can do. -/
structure MapsRange (kernel : Nat → Prop) (va n : Nat) (s s' : Vm) : Prop where
  good : s'.Good kernel
  arena : SameArena s s'
  mapped : ∀ q, UserPage q → s'.machine.Mapped q →
    s.machine.Mapped q ∨ (va ≤ 4096 * q ∧ 4096 * q < va + n)

theorem userPage_of_lt {q : Nat} (h : 4096 * q < wmSharedBase) : UserPage q := by
  unfold wmSharedBase at h
  unfold UserPage userEnd
  omega

theorem mapPrivateRange_maps (hs : s.Good kernel) (hva : 4096 ∣ va)
    (hend : va + a.lenU ≤ wmSharedBase) {inode : Option Nat}
    (hrun : s.mapPrivateRange w a inode va = .ok (r, s')) :
    r = va ∧ MapsRange kernel va a.lenU s s' := by
  obtain ⟨i, rfl⟩ := hva
  obtain ⟨n, hn⟩ : ∃ n, a.lenU = 4096 * n := ⟨_, Nat.mul_comm _ _⟩
  have hlen : a.len.toNat ≤ a.lenU := by
    unfold MmapArgs.lenU
    omega
  rw [hn] at hlen ⊢
  unfold mapPrivateRange at hrun
  rw [hn, show 4096 * i + 4096 * n = 4096 * (i + n) by omega,
    pages_eq _ (by unfold wmSharedBase at hend; omega)] at hrun
  obtain ⟨s₁, hloop, hrest⟩ := bind_eq_ok.1 hrun
  obtain ⟨hs₁, harena, hmapped⟩ := mapPrivatePages_good hs
    (fun q _ hq => userPage_of_lt (by omega)) hloop
  have hmapped' : ∀ q, UserPage q → s₁.machine.Mapped q →
      s.machine.Mapped q ∨ (4096 * i ≤ 4096 * q ∧ 4096 * q < 4096 * i + 4096 * n) :=
    fun q hq hm => ((hmapped q hq).1 hm).imp_right fun hr => by omega
  cases inode with
  | none =>
    cases hrest
    exact ⟨rfl, hs₁, harena, hmapped'⟩
  | some inode =>
    obtain ⟨m', hcopy, hok⟩ := bind_eq_ok.1 hrest
    cases hok
    have hrewrites := copyFile_rewrites hs₁.owned
      (fun x hx hx' => by
        have huser := userPage_of_lt (q := x / 4096) (by omega)
        exact ⟨huser, (hmapped _ huser).2 (.inr (by omega))⟩) hcopy
    exact ⟨rfl, hs₁.rewrite hrewrites, harena, fun q hq hm =>
      hmapped' q hq ((hrewrites.mapped q hq).1 hm)⟩

theorem mapSharedRange_maps (hs : s.Good kernel) (hva : 4096 ∣ va)
    (hend : va + a.lenU ≤ wmSharedBase) {inode : Nat}
    (hrun : s.mapSharedRange w a inode va = .ok (r, s')) :
    (IsError r ∨ r = va) ∧ MapsRange kernel va a.lenU s s' := by
  have hsame : MapsRange kernel va a.lenU s s := ⟨hs, ⟨rfl, rfl⟩, fun _ _ => .inl⟩
  unfold mapSharedRange at hrun
  cases hsize : w.sizeOf inode with
  | none =>
    rw [hsize] at hrun
    cases hrun
    exact ⟨.inl (by decide), hsame⟩
  | some size =>
    rw [hsize] at hrun
    dsimp only at hrun
    split at hrun
    · cases hrun
      exact ⟨.inl (by decide), hsame⟩
    split at hrun
    · cases hrun
      exact ⟨.inl (by decide), hsame⟩
    rename_i hfree
    obtain ⟨i, rfl⟩ := hva
    obtain ⟨n, hn⟩ : ∃ n, a.lenU = 4096 * n := ⟨_, Nat.mul_comm _ _⟩
    rw [hn, show 4096 * i + 4096 * n = 4096 * (i + n) by omega] at hrun hfree
    have hnone := anyTranslated_eq_false.1 (Bool.eq_false_iff.2 hfree)
    obtain ⟨hr, hgood, harena, hmapped⟩ := mapSharedPages_good hsize hs
      (fun q hq hq' => ⟨userPage_of_lt (by omega), not_mapped_of_translate (hnone q hq hq')⟩)
      (show a.fileOff % 4096 = 0 from Nat.mul_mod_left _ _) (fun _ => by omega) hrun
    exact ⟨.inr hr, hgood, harena, fun q hq hm => (hmapped q hq hm).imp_right fun hr => by omega⟩

theorem mapRange_maps (hs : s.Good kernel) (hva : 4096 ∣ va)
    (hrun : s.mapRange w a va = .ok (r, s')) :
    (IsError r ∨ r = va ∧ va + a.lenU ≤ wmSharedBase) ∧ MapsRange kernel va a.lenU s s' := by
  have hsame : MapsRange kernel va a.lenU s s := ⟨hs, ⟨rfl, rfl⟩, fun _ _ => .inl⟩
  unfold mapRange at hrun
  split at hrun
  · cases hrun
    exact ⟨.inl (by decide), hsame⟩
  rename_i hrange
  have hend : va + a.lenU ≤ wmSharedBase := by
    unfold satAdd wmSharedBase at hrange
    unfold wmSharedBase
    omega
  split at hrun
  · have hmaps := mapPrivateRange_maps hs hva hend hrun
    exact ⟨.inr ⟨hmaps.1, hend⟩, hmaps.2⟩
  split at hrun
  · cases hrun
    exact ⟨.inl (by decide), hsame⟩
  split at hrun
  · have hmaps := mapSharedRange_maps hs hva hend hrun
    exact ⟨hmaps.1.imp_right fun heq => ⟨heq, hend⟩, hmaps.2⟩
  · have hmaps := mapPrivateRange_maps hs hva hend hrun
    exact ⟨.inr ⟨hmaps.1, hend⟩, hmaps.2⟩

/-! ## The arena -/

/-- The first address of the arena that was never handed out. -/
def arenaNext (s : Vm) : Nat := max s.mmapNext mmapBase

/-- The address can be handed out. -/
def Available (s : Vm) (x : Nat) : Prop :=
  (s.arenaNext ≤ x ∧ x < wmSharedBase) ∨ Covered s.mmapFree x

/-- The bookkeeping of the arena: what can be handed out is not mapped. -/
structure Arena (s : Vm) : Prop where
  aligned : 4096 ∣ s.mmapNext
  limit : s.mmapNext ≤ wmSharedBase
  apart : s.mmapFree.Pairwise Apart
  within : ∀ h ∈ s.mmapFree, Within 4096 mmapBase s.arenaNext h
  free : ∀ p, s.Available (4096 * p) → ¬ s.machine.Mapped p

theorem Arena.next_le (h : s.Arena) : s.arenaNext ≤ wmSharedBase :=
  Nat.max_le.2 ⟨h.limit, by decide⟩

theorem Arena.bounds (h : s.Arena) {x : Nat} (hx : s.Available x) :
    mmapBase ≤ x ∧ x < wmSharedBase := by
  have hnext : mmapBase ≤ s.arenaNext := Nat.le_max_right _ _
  have hlimit := h.next_le
  rcases hx with hfresh | ⟨hole, hmem, hin⟩
  · omega
  have hwithin := h.within hole hmem
  have hlower := hwithin.lower
  have hupper := hwithin.upper
  omega

/-- Pages that cannot be handed out are mapped or unmapped. -/
theorem Arena.of_mapped (h : s.Arena) (harena : SameArena s s')
    (hmapped : ∀ p, UserPage p → s'.machine.Mapped p →
      s.machine.Mapped p ∨ ¬ s.Available (4096 * p)) : s'.Arena := by
  obtain ⟨hnext, hfree⟩ := harena
  have hsame : s'.arenaNext = s.arenaNext := by rw [arenaNext, hnext, arenaNext]
  have havail : ∀ x, s'.Available x ↔ s.Available x := fun x => by
    rw [Available, hsame, hfree, Available]
  refine ⟨hnext ▸ h.aligned, hnext ▸ h.limit, hfree ▸ h.apart, ?_, fun p hp hm => ?_⟩
  · rw [hfree, hsame]
    exact h.within
  · rw [havail] at hp
    rcases hmapped p (userPage_of_lt (h.bounds hp).2) hm with hold | hnot
    · exact h.free p hp hold
    · exact hnot hp

/-- The kernel took a range out of the bookkeeping. -/
structure Picks (va n : Nat) (s s₁ : Vm) : Prop where
  aligned : 4096 ∣ va
  lower : mmapBase ≤ va
  upper : va + n ≤ wmSharedBase
  available : ∀ x, va ≤ x → x < va + n → s.Available x
  taken : ∀ x, va ≤ x → x < va + n → ¬ s₁.Available x
  arena : s₁.Arena
  machine : s₁.machine = s.machine
  counts : s₁.counts = s.counts
  shared : s₁.shared = s.shared

/-- Nothing but the bookkeeping of the arena plays a role for `Good`. -/
theorem Good.of_arena (hs : s.Good kernel) (hmachine : s₁.machine = s.machine)
    (hcounts : s₁.counts = s.counts) (hshared : s₁.shared = s.shared) : s₁.Good kernel := by
  obtain ⟨machine, counts, next, free, shared⟩ := s₁
  cases hmachine
  cases hcounts
  cases hshared
  exact ⟨hs.owned, hs.upper, hs.plain, hs.cache, hs.counted⟩

theorem Arena.takeHole (h : s.Arena) {v n : Nat} {mmapFree : List (Nat × Nat)}
    (htake : TakesRange 4096 mmapBase s.arenaNext n v s.mmapFree mmapFree) :
    Picks v n s { s with mmapFree } := by
  have hlimit := h.next_le
  have hupper := htake.upper
  -- a hole ends below the addresses that were never handed out
  have hnot : ∀ x, v ≤ x → x < v + n → ¬ Available { s with mmapFree } x := by
    rintro x hx hx' (hfresh | hcovered)
    · have : s.arenaNext ≤ x := hfresh.1
      omega
    · exact (htake.left x hcovered).2 ⟨hx, hx'⟩
  refine ⟨htake.start, htake.lower, by omega, fun x hx hx' => .inr (htake.covered x hx hx'), hnot,
    ⟨h.aligned, h.limit, htake.apart, htake.within, fun p hp => h.free p ?_⟩, rfl, rfl, rfl⟩
  exact hp.imp_right fun hcovered => (htake.left _ hcovered).1

theorem Arena.takeNext (h : s.Arena) {n mmapNext : Nat} (hn : 4096 ∣ n)
    (hnext : mmapNext = s.arenaNext + n) (hupper : mmapNext ≤ wmSharedBase) :
    Picks s.arenaNext n s { s with mmapNext } := by
  have hbase : mmapBase ≤ s.arenaNext := Nat.le_max_right _ _
  have haligned : 4096 ∣ s.arenaNext := by
    unfold arenaNext
    rcases Nat.le_total s.mmapNext mmapBase with hle | hle
    · rw [Nat.max_eq_right hle]
      decide
    · rw [Nat.max_eq_left hle]
      exact h.aligned
  have hnew : arenaNext { s with mmapNext } = s.arenaNext + n := by
    show max mmapNext mmapBase = _
    omega
  have havail : ∀ x, Available { s with mmapNext } x → s.Available x := by
    rintro x (hfresh | hcovered)
    · exact .inl (by omega)
    · exact .inr hcovered
  refine ⟨haligned, hbase, by omega, fun x hx hx' => .inl (by omega), fun x hx hx' => ?_,
    ⟨hnext ▸ Nat.dvd_add haligned hn, hupper, h.apart, fun hole hmem => ?_,
      fun p hp => h.free p (havail _ hp)⟩, rfl, rfl, rfl⟩
  · rintro (hfresh | ⟨hole, hmem, hin⟩)
    · omega
    · have := (h.within hole hmem).upper
      omega
  · have hwithin := h.within hole hmem
    have := hwithin.upper
    exact ⟨hwithin.start, hwithin.length, hwithin.lower, by rw [hnew]; omega⟩

theorem lenU_dvd (a : MmapArgs) : 4096 ∣ a.lenU := Nat.dvd_mul_left _ _

theorem pickAddress_eq (hchosen : a.chosen = true) : s.pickAddress a = s.chooseAddress a.lenU := by
  unfold MmapArgs.chosen at hchosen
  rw [Bool.and_eq_true, Bool.not_eq_true', decide_eq_true_eq] at hchosen
  unfold pickAddress
  rw [if_neg (by rw [hchosen.1]; decide), if_neg (not_not.2 hchosen.2)]

theorem pickAddress_chosen (h : s.Arena) (hchosen : a.chosen = true)
    (hlen : a.len.toNat ≤ 64 * 1024 * 1024) :
    (s.pickAddress a = .ok (.error enomem, s)) ∨
      ∃ va s₁, s.pickAddress a = .ok (.ok va, s₁) ∧ Picks va a.lenU s s₁ := by
  rw [pickAddress_eq hchosen, chooseAddress]
  have hnext := h.next_le
  have hhi : s.arenaNext < 2 ^ 32 := Nat.lt_of_le_of_lt hnext (by decide)
  rcases takeFirst_eq (lenU_dvd a) hhi h.apart h.within with hnone | ⟨v, free, hsome, htake⟩
  · rw [hnone, ok_bind]
    dsimp only
    rw [show max s.mmapNext mmapBase = s.arenaNext from rfl]
    have hsat : satAdd s.arenaNext a.lenU = s.arenaNext + a.lenU := by
      unfold satAdd MmapArgs.lenU
      unfold wmSharedBase at hnext
      omega
    rw [hsat]
    by_cases hfull : wmSharedBase ≤ s.arenaNext + a.lenU
    · rw [if_pos hfull]
      -- the arena is larger than the largest mapping, so it began already
      have hsame : s.arenaNext = s.mmapNext := by
        unfold arenaNext MmapArgs.lenU mmapBase wmSharedBase at *
        omega
      refine .inl ?_
      rw [hsame]
    · rw [if_neg hfull]
      exact .inr ⟨_, _, rfl, h.takeNext (lenU_dvd a) rfl (by omega)⟩
  · rw [hsome]
    exact .inr ⟨v, _, rfl, h.takeHole htake⟩

theorem pickAddress_given (hchosen : a.chosen = false) : s.pickAddress a = .ok (.error einval, s) ∨
      s.pickAddress a = .ok (.ok (a.addr.toNat / 4096 * 4096), s) := by
  unfold MmapArgs.chosen at hchosen
  rw [Bool.and_eq_false_iff, Bool.not_eq_false', decide_eq_false_iff_not] at hchosen
  unfold pickAddress
  by_cases hfixed : a.flag mapFixed = true
  · rw [if_pos hfixed]
    by_cases haddr : a.addr = 0
    · rw [if_pos haddr]
      exact .inl rfl
    · rw [if_neg haddr]
      exact .inr rfl
  · rw [if_neg hfixed, if_pos (hchosen.resolve_left hfixed)]
    exact .inr rfl

/-! ## Runs -/

/-- A call. -/
inductive Call
  | mmap (w : World) (a : MmapArgs)
  | munmap (w : World) (addr len : UInt32)

def Call.run : Call → Vm → Res (Nat × Vm)
  | .mmap w a, s => s.sysMmap2 w a
  | .munmap w addr len, s => s.sysMunmap w addr len

/-- The first and the last page of the range of `sys_munmap`, rounded. -/
def unmapFirst (addr : UInt32) : Nat := addr.toNat / 4096

def unmapEnd (addr len : UInt32) : Nat := (addr.toNat + len.toNat + 4095) / 4096

/-- A mapping whose address the kernel chose is aligned, lies in the arena, and
nothing was mapped there. -/
def Call.FreshRange (c : Call) (s : Vm) : Prop :=
  match c with
  | .mmap w a => a.chosen = true → ∀ r s', s.sysMmap2 w a = .ok (r, s') → ¬ IsError r →
    4096 ∣ r ∧ mmapBase ≤ r ∧ r + a.lenU ≤ wmSharedBase ∧
      ∀ x, r ≤ x → x < r + a.lenU → s.machine.translate x = none
  | .munmap _ _ _ => True

/-- The call keeps away from what the kernel can hand out: a mapping at a given
address has no address of that, and only what was handed out is unmapped. -/
def Call.Tame (c : Call) (s : Vm) : Prop :=
  match c with
  | .mmap _ a => a.chosen = true ∨ ∀ x, a.addr.toNat / 4096 * 4096 ≤ x →
    x < a.addr.toNat / 4096 * 4096 + a.lenU → ¬ s.Available x
  | .munmap _ addr len => mmapBase ≤ 4096 * unmapFirst addr →
    4096 * unmapEnd addr len ≤ s.arenaNext

/-- The call passes the checks that come first. -/
structure Admitted (a : MmapArgs) : Prop where
  len : a.len ≠ 0
  max : a.len.toNat ≤ 64 * 1024 * 1024
  kind : a.flag mapShared ≠ a.flag mapPrivate
  anonymous : ¬ (a.flag mapShared && a.anonymous) = true
  slot : ¬ (a.slot = 0 ∨ maxTasks ≤ a.slot)

/-- A call of `sys_mmap2` that returns: it is refused, or it is admitted and picks an
address. -/
theorem sysMmap2_cases (hrun : s.sysMmap2 w a = .ok (r, s')) :
    (IsError r ∧ s' = s) ∨ (Admitted a ∧ (do
      let (va, s) ← s.pickAddress a
      match va with
      | .error e => .ok (e, s)
      | .ok va => s.mapRange w a va) = .ok (r, s')) := by
  have herror : ∀ e, IsError e → (.ok (e, s) : Res (Nat × Vm)) = .ok (r, s') →
      IsError r ∧ s' = s := by
    intro e he heq
    cases heq
    exact ⟨he, rfl⟩
  unfold sysMmap2 at hrun
  split at hrun
  · exact .inl (herror _ (by decide) hrun)
  rename_i hlen
  split at hrun
  · exact .inl (herror _ (by decide) hrun)
  rename_i hmax
  split at hrun
  · exact .inl (herror _ (by decide) hrun)
  rename_i hkind
  split at hrun
  · exact .inl (herror _ (by decide) hrun)
  rename_i hanon
  split at hrun
  · exact .inl (herror _ (by decide) hrun)
  rename_i hslot
  exact .inr ⟨⟨hlen, Nat.not_lt.1 hmax, hkind, hanon, hslot⟩, hrun⟩

theorem Admitted.run (h : Admitted a)
    (hpick : s.pickAddress a = .ok (.ok va, s₁)) : s.sysMmap2 w a = s₁.mapRange w a va := by
  unfold sysMmap2
  rw [if_neg h.len, if_neg (Nat.not_lt.2 h.max), if_neg h.kind, if_neg h.anonymous,
    if_neg h.slot, hpick, ok_bind]

theorem sysMunmap_eq (hs : s.Good kernel) (w : World) (addr len : UInt32) :
    (len = 0 ∧ s.sysMunmap w addr len = .ok (0, s)) ∨
    (len ≠ 0 ∧ 2 ^ 32 ≤ satAdd addr.toNat len.toNat + 4096 ∧
      s.sysMunmap w addr len = .error .overflow) ∨
    (len ≠ 0 ∧ satAdd addr.toNat len.toNat + 4096 < 2 ^ 32 ∧
      wmSharedBase < 4096 * unmapEnd addr len ∧ s.sysMunmap w addr len = .ok (einval, s)) ∨
    (len ≠ 0 ∧ satAdd addr.toNat len.toNat + 4096 < 2 ^ 32 ∧
      4096 * unmapEnd addr len ≤ wmSharedBase ∧
      ∃ flushed s₁, s.sysMunmap w addr len
          = .ok (0, s₁.recycle (4096 * unmapFirst addr) (4096 * unmapEnd addr len) flushed) ∧
        Unmaps kernel (unmapFirst addr) (unmapEnd addr len - unmapFirst addr) s s₁) := by
  unfold sysMunmap
  by_cases hlen : len = 0
  · rw [if_pos hlen]
    exact .inl ⟨hlen, rfl⟩
  rw [if_neg hlen]
  have hpos : 0 < len.toNat := Nat.pos_of_ne_zero fun h => hlen (UInt32.toNat_inj.1 h)
  by_cases hsum : satAdd addr.toNat len.toNat + 4096 < 2 ^ 32
  · have hsat : satAdd addr.toNat len.toNat = addr.toNat + len.toNat := by
      unfold satAdd at hsum ⊢
      omega
    have hstop : (addr.toNat + len.toNat + 4096 - 1) / 4096 * 4096 = 4096 * unmapEnd addr len := by
      unfold unmapEnd
      omega
    have hstart : addr.toNat / 4096 * 4096 = 4096 * unmapFirst addr := Nat.mul_comm _ _
    rw [addW_ok hsum, ok_bind, hsat, hstop, hstart]
    rw [hsat] at hsum
    by_cases hrange : wmSharedBase < 4096 * unmapEnd addr len
    · rw [if_pos (.inr hrange)]
      exact .inr (.inr (.inl ⟨hlen, hsum, hrange, rfl⟩))
    rw [if_neg (by omega)]
    obtain ⟨flushed, s₁, hloop, hunmaps⟩ := unmapPages_unmaps
      (i := unmapFirst addr) (n := unmapEnd addr len - unmapFirst addr) hs
      (fun q _ hq => userPage_of_lt (by omega)) true
    rw [strideLoop_eq (fun _ _ => rfl) (by decide) (unmapPage w)
      (by unfold wmSharedBase at hrange; omega) (by unfold wmSharedBase at hrange; omega),
      hloop]
    exact .inr (.inr (.inr ⟨hlen, hsum, Nat.not_lt.1 hrange, flushed, s₁, rfl, hunmaps⟩))
  · rw [show addW 32 (satAdd addr.toNat len.toNat) 4096 = .error .overflow from if_neg hsum]
    exact .inr (.inl ⟨hlen, Nat.not_lt.1 hsum, rfl⟩)

/-- `recycle` changes the holes only. -/
theorem recycle_machine (start stop : Nat) (flushed : Bool) (s : Vm) :
    (s.recycle start stop flushed).machine = s.machine ∧
      (s.recycle start stop flushed).counts = s.counts ∧
      (s.recycle start stop flushed).shared = s.shared := by
  unfold recycle
  split <;> exact ⟨rfl, rfl, rfl⟩

/-- A range that was handed out and is not mapped any more becomes a hole. -/
theorem Arena.recycle (h : s.Arena) (flushed : Bool)
    (htame : mmapBase ≤ 4096 * i → 4096 * j ≤ s.arenaNext) :
    (s.recycle (4096 * i) (4096 * j) flushed).Arena := by
  unfold Vm.recycle
  split
  · rename_i hcond
    obtain ⟨_, hbase, _, horder, hnone⟩ := hcond
    have hunmapped := anyTranslated_eq_false.1 hnone
    have hwithin : Within 4096 mmapBase s.arenaNext (4096 * i, 4096 * j - 4096 * i) :=
      ⟨Nat.dvd_mul_right _ _, Nat.dvd_sub (Nat.dvd_mul_right _ _) (Nat.dvd_mul_right _ _), hbase,
        by simp only; omega⟩
    have hadds := insertRange_adds (Nat.lt_of_le_of_lt h.next_le (by decide)) hwithin h.within
    refine ⟨h.aligned, h.limit, hadds.apart, hadds.within, fun p hp => ?_⟩
    rcases hp with hfresh | hcovered
    · exact h.free p (.inl hfresh)
    rcases (hadds.covered _).1 hcovered with hrange | hold
    · exact not_mapped_of_translate (hunmapped p (by omega) (by omega))
    · exact h.free p (.inr hold)
  · exact h

theorem Call.keeps (c : Call) (hs : s.Good kernel ∧ s.Arena) (htame : c.Tame s)
    (hrun : c.run s = .ok (r, s')) : s'.Good kernel ∧ s'.Arena := by
  obtain ⟨hgood, harena⟩ := hs
  cases c with
  | mmap w a =>
    rcases sysMmap2_cases hrun with ⟨_, rfl⟩ | ⟨hadm, hrest⟩
    · exact ⟨hgood, harena⟩
    by_cases hchosen : a.chosen = true
    · rcases pickAddress_chosen harena hchosen hadm.max with hpick | ⟨va, s₁, hpick, hpicks⟩
      · rw [hpick] at hrest
        cases hrest
        exact ⟨hgood, harena⟩
      rw [hpick] at hrest
      have hgood₁ := hgood.of_arena hpicks.machine hpicks.counts hpicks.shared
      have hmaps := (mapRange_maps hgood₁ hpicks.aligned hrest).2
      refine ⟨hmaps.good, hpicks.arena.of_mapped hmaps.arena fun p hp hm => ?_⟩
      exact (hmaps.mapped p hp hm).imp_right fun hr => hpicks.taken _ hr.1 hr.2
    · have hgiven := htame.resolve_left hchosen
      rcases pickAddress_given (Bool.eq_false_iff.2 hchosen) with hpick | hpick
      · rw [hpick] at hrest
        cases hrest
        exact ⟨hgood, harena⟩
      rw [hpick] at hrest
      have hmaps := (mapRange_maps hgood (Nat.dvd_mul_left _ _) hrest).2
      refine ⟨hmaps.good, harena.of_mapped hmaps.arena fun p hp hm => ?_⟩
      exact (hmaps.mapped p hp hm).imp_right fun hr => hgiven _ hr.1 hr.2
  | munmap w addr len =>
    have hrun' : s.sysMunmap w addr len = .ok (r, s') := hrun
    rcases sysMunmap_eq hgood w addr len with ⟨_, hok⟩ | ⟨_, _, herror⟩ | ⟨_, _, _, hok⟩ |
      ⟨_, _, _, flushed, s₁, hok, hunmaps⟩
    · rw [hok] at hrun'
      cases hrun'
      exact ⟨hgood, harena⟩
    · rw [herror] at hrun'
      cases hrun'
    · rw [hok] at hrun'
      cases hrun'
      exact ⟨hgood, harena⟩
    rw [hok] at hrun'
    cases hrun'
    have harena₁ : s₁.Arena := harena.of_mapped hunmaps.arena fun p hp hm =>
      .inl ((hunmaps.mapped p hp).1 hm).1
    have hnext : s₁.arenaNext = s.arenaNext := by rw [arenaNext, hunmaps.arena.1, arenaNext]
    obtain ⟨hmachine, hcounts, hshared⟩ := recycle_machine (4096 * unmapFirst addr)
      (4096 * unmapEnd addr len) flushed s₁
    exact ⟨hunmaps.good.of_arena hmachine hcounts hshared, harena₁.recycle flushed (hnext ▸ htame)⟩

theorem Call.freshRange (c : Call) (hs : s.Good kernel ∧ s.Arena) : c.FreshRange s := by
  obtain ⟨hgood, harena⟩ := hs
  cases c with
  | munmap => trivial
  | mmap w a =>
    intro hchosen r s' hrun herror
    rcases sysMmap2_cases hrun with ⟨hr, _⟩ | ⟨hadm, hrest⟩
    · exact absurd hr herror
    rcases pickAddress_chosen harena hchosen hadm.max with hpick | ⟨va, s₁, hpick, hpicks⟩
    · rw [hpick] at hrest
      cases hrest
      exact absurd (by decide) herror
    rw [hpick] at hrest
    have hgood₁ := hgood.of_arena hpicks.machine hpicks.counts hpicks.shared
    obtain ⟨rfl, _⟩ := (mapRange_maps hgood₁ hpicks.aligned hrest).1.resolve_left herror
    refine ⟨hpicks.aligned, hpicks.lower, hpicks.upper, fun x hx hx' => ?_⟩
    have havail := hpicks.available (4096 * (x / 4096))
    have haligned := hpicks.aligned
    have hlower := hpicks.lower
    have hupper := hpicks.upper
    unfold mmapBase at hlower
    unfold wmSharedBase at hupper
    rw [translate_eq_none_iff (hgood.plain _ (by omega) (by omega))]
    exact harena.free _ (havail (by omega) (by omega))

/-- The directory of a kernel without page tables of its own. -/
def largeKernelPd (i : Nat) : UInt32 := if i < 16 then entry (1024 * i) 0xA3 else 0

/-- A new address space. -/
def newVm : Vm where
  machine := ⟨copyKernelMappings largeKernelPd 16 0x27FF000 fun _ => 0, fun _ _ => 0,
    ⟨0x2800, [], 0x4000, fun _ => false⟩⟩
  counts := Counts.empty
  mmapNext := mmapBase
  mmapFree := []
  shared := []

/-- A world with the file 7, which is open as descriptor 3. -/
def oneFile : World where
  inodeOf := fun fd => if fd = 3 then some 7 else none
  sizeOf := fun inode => if inode = 7 then some 5000 else none
  readAt := fun _ _ len => List.replicate len 1
  shootdown := fun _ => true

theorem newVm_entries (hi : 16 ≤ i) (hne : i ≠ 1023) : newVm.machine.entries i = 0 := by
  unfold newVm copyKernelMappings largeKernelPd
  dsimp only
  rw [if_neg hne, if_neg (show ¬ i < 16 by omega), if_neg]
  exact fun hpresent => absurd hpresent.2 (by decide)

theorem newVm_good : newVm.Good (· < 0x2800) := by
  refine ⟨owned_copyKernelMappings ?_ ⟨fun f hf => absurd hf List.not_mem_nil, fun _ _ => rfl,
    by decide, by decide⟩ (fun f hf => Bool.noConfusion hf) (fun f hf => ⟨?_, rfl⟩)
    (fun f hf => absurd hf (Nat.lt_irrefl 0)) rfl, fun i hi ht => ?_, fun i hi hi' => .inr ?_,
    ⟨List.nodup_nil, fun _ h => absurd h List.not_mem_nil, fun _ h => absurd h List.not_mem_nil⟩,
    fun a ha => absurd ha (Nat.lt_irrefl 0)⟩
  · decide
  · rcases hf with hmem | hrange
    · exact absurd hmem List.not_mem_nil
    · exact Nat.not_lt.2 hrange.1
  · by_cases hlast : i = 1023
    · rw [hlast]
      decide
    · unfold userEnd at hi
      rw [HasTable, newVm_entries (by omega) hlast] at ht
      exact absurd ht (by decide)
  · rw [newVm_entries (by omega) (by omega)]
    decide

theorem newVm_arena : newVm.Arena := by
  refine ⟨by decide, by decide, List.Pairwise.nil, fun _ h => absurd h List.not_mem_nil,
    fun p hp hm => ?_⟩
  rcases hp with hfresh | ⟨_, hmem, _⟩
  · have hbase : mmapBase ≤ 4096 * p := hfresh.1
    have hend : 4096 * p < wmSharedBase := hfresh.2
    unfold mmapBase at hbase
    unfold wmSharedBase at hend
    rw [Mapped, HasTable, newVm_entries (by omega) (by omega)] at hm
    exact absurd hm.1 (by decide)
  · exact absurd hmem List.not_mem_nil

/-- An anonymous private mapping. -/
def anonymousMap (addr len : UInt32) : MmapArgs := ⟨1, addr, len, 0x22, -1, 0⟩

end Vm

end Felix.Memory
