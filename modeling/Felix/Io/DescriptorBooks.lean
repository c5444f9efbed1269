import Mathlib.Data.List.Count
import Felix.Io.Descriptors

/-!
# The books of the descriptor tables

Slots of descriptor tables refer to open file descriptions.  The count of a description
is the number of slots that refer to it, over all tables, and so a close knows whether
it gives up the last reference.

`Moves` is what one routine does: it keeps the invariant, and the resources it
acquired, with those behind the descriptions that were referred to before, are the
resources it released, with those behind the descriptions that are referred to after.
-/

namespace Felix.Fd

open Function Kernel

variable {n d : Nat} {k k' k'' : Kernel n} {t : Fin n} {fd : Fin 64}

/-- The resource behind a description. -/
def Kernel.kind (k : Kernel n) (d : Nat) : Option Resource := (k.ofd d).origin.resource

/-- How many descriptions with this resource behind them some slot refers to. -/
def Kernel.owned (k : Kernel n) (r : Resource) : Nat := Shared.owned k.kind k.slot r

structure Inv (k : Kernel n) : Prop where
  get : ∀ t fd, k.get t fd = (k.slot (t, fd)).map fun d => (k.ofd d).origin
  lt_next : ∀ p d, k.slot p = some d → d < k.nextOfd
  strong : ∀ d, d < k.nextOfd → (k.ofd d).strong = Shared.uses k.slot d
  exited : ∀ t, k.exited t = true → (k.tables t).isSome ∧ ∀ fd, k.slot (t, fd) = none

structure Moves (k : Kernel n) (acquired released : List Resource) (k' : Kernel n) : Prop where
  inv : Inv k'
  running : ∀ t, k.running t = true → k'.running t = true
  balance : ∀ r, acquired.count r + k.owned r = released.count r + k'.owned r

/-- A call that keeps the books. -/
def Keeps (k : Kernel n) (r : Effects × Kernel n) : Prop := Moves k r.1.acquired r.1.released r.2

/-- The books are right after a call, which may have ended its task. -/
def Settles (k : Kernel n) (r : Effects × Kernel n) : Prop :=
  Inv r.2 ∧ ∀ res, r.1.acquired.count res + k.owned res = r.1.released.count res + r.2.owned res

theorem Keeps.settles {r : Effects × Kernel n} (h : Keeps k r) : Settles k r := ⟨h.inv, h.balance⟩

theorem Moves.refl (hk : Inv k) : Moves k [] [] k :=
  ⟨hk, fun _ ht => ht, fun _ => rfl⟩

theorem Moves.trans {a1 r1 a2 r2 : List Resource} (h1 : Moves k a1 r1 k')
    (h2 : Moves k' a2 r2 k'') : Moves k (a1 ++ a2) (r1 ++ r2) k'' := by
  refine ⟨h2.inv, fun t ht => h2.running t (h1.running t ht), fun r => ?_⟩
  have hfirst := h1.balance r
  have hsecond := h2.balance r
  rw [List.count_append, List.count_append]
  omega

theorem Moves.gain (h : Moves k [] [] k') (l : List Resource) : Moves k l l k' :=
  ⟨h.inv, h.running, fun r => by have := h.balance r; simpa using this⟩

/-- What has been acquired is released again. -/
theorem Moves.cancel {l : List Resource} (h1 : Moves k l [] k') (h2 : Moves k' [] l k'') :
    Moves k [] [] k'' := by
  refine ⟨h2.inv, (h1.trans h2).running, fun r => ?_⟩
  have hfirst := h1.balance r
  have hsecond := h2.balance r
  omega

/-! ## One slot -/

theorem isSome_of_running (h : k.running t = true) : (k.tables t).isSome := by
  rw [running, Bool.and_eq_true] at h
  exact h.1

theorem not_exited_of_running (h : k.running t = true) : k.exited t = false := by
  rw [running, Bool.and_eq_true] at h
  simpa using h.2

theorem ne_of_exited {t' : Fin n} (h : k.running t = true) (hexit : k.exited t' = true)
    (fd fd' : Fin 64) : (t', fd') ≠ (t, fd) := by
  intro heq
  cases heq
  rw [not_exited_of_running h] at hexit
  cases hexit

/-- One slot is different. -/
structure Edit (k : Kernel n) (t : Fin n) (fd : Fin 64) (desc : Option FileDescriptor)
    (ofd : Option Nat) (k' : Kernel n) : Prop where
  slot : k'.slot = update k.slot (t, fd) ofd
  get : ∀ t' fd', k'.get t' fd' = if (t', fd') = (t, fd) then desc else k.get t' fd'
  exited : k'.exited = k.exited
  isSome : ∀ t', (k'.tables t').isSome = (k.tables t').isSome

section
variable {desc desc' : Option FileDescriptor} {ofd ofd' : Option Nat}

@[simp] theorem ofd_write : (k.write t fd desc ofd).ofd = k.ofd := by
  rw [write]
  split <;> rfl

@[simp] theorem nextOfd_write : (k.write t fd desc ofd).nextOfd = k.nextOfd := by
  rw [write]
  split <;> rfl

theorem write_edit {k₁ : Kernel n} (h : (k.tables t).isSome) (htables : k₁.tables = k.tables)
    (hexited : k₁.exited = k.exited) : Edit k t fd desc ofd (k₁.write t fd desc ofd) := by
  obtain ⟨table, htable⟩ := Option.isSome_iff_exists.1 h
  have hwrite : k₁.write t fd desc ofd = { k₁ with
      tables := update k.tables t
        (some ⟨update table.fds fd desc, update table.ofds fd ofd⟩) } := by
    rw [write, htables, htable]
  rw [hwrite]
  refine ⟨funext fun ⟨t', fd'⟩ => ?_, fun t' fd' => ?_, hexited, fun t' => ?_⟩ <;>
    by_cases ht : t' = t
  · subst ht
    by_cases hfd : fd' = fd
    · subst hfd
      simp [slot]
    · simp [slot, hfd, htable]
  · simp [slot, ht]
  · subst ht
    by_cases hfd : fd' = fd
    · subst hfd
      simp [Kernel.get]
    · simp [Kernel.get, hfd, htable]
  · simp [Kernel.get, ht]
  · subst ht
    simp [htable]
  · simp [ht]

namespace Edit

theorem trans (e : Edit k t fd desc ofd k') (e' : Edit k' t fd desc' ofd' k'') :
    Edit k t fd desc' ofd' k'' where
  slot := by rw [e'.slot, e.slot, update_idem]
  get t' fd' := by
    rw [e'.get, e.get]
    split <;> rfl
  exited := e'.exited.trans e.exited
  isSome t' := (e'.isSome t').trans (e.isSome t')

theorem running (e : Edit k t fd desc ofd k') (t' : Fin n) (h : k.running t' = true) :
    k'.running t' = true := by
  rw [Kernel.running, e.isSome, e.exited]
  exact h

/-- The counts follow the slot, and the descriptor is the one of its description. -/
theorem inv (e : Edit k t fd desc ofd k') (hk : Inv k) (ht : k.running t = true)
    (hdesc : desc = ofd.map fun d => (k'.ofd d).origin) (hnext : k.nextOfd ≤ k'.nextOfd)
    (hofd : ∀ d, ofd = some d → d < k'.nextOfd)
    (horigin : ∀ d, d < k.nextOfd → (k'.ofd d).origin = (k.ofd d).origin)
    (hstrong : ∀ d, d < k'.nextOfd →
      (k'.ofd d).strong = Shared.uses (update k.slot (t, fd) ofd) d) : Inv k' := by
  refine ⟨fun t' fd' => ?_, fun p d hp => ?_, fun d hd => ?_, fun t' hexit => ?_⟩
  · rw [e.get, e.slot]
    by_cases hp : (t', fd') = (t, fd)
    · rw [if_pos hp, hp, update_self, hdesc]
    rw [if_neg hp, update_of_ne hp, hk.get]
    rcases hold : k.slot (t', fd') with _ | d
    · rfl
    · rw [Option.map_some, Option.map_some, horigin d (hk.lt_next _ d hold)]
  · rw [e.slot] at hp
    by_cases hpt : p = (t, fd)
    · rw [hpt, update_self] at hp
      exact hofd d hp
    · rw [update_of_ne hpt] at hp
      exact Nat.lt_of_lt_of_le (hk.lt_next p d hp) hnext
  · rw [e.slot]
    exact hstrong d hd
  · rw [e.exited] at hexit
    rw [e.isSome, e.slot]
    obtain ⟨hlive, hnone⟩ := hk.exited t' hexit
    refine ⟨hlive, fun fd' => ?_⟩
    rw [update_of_ne (ne_of_exited ht hexit fd fd')]
    exact hnone fd'

end Edit

end

/-- The resource that a slot would give up. -/
def Kernel.lost (k : Kernel n) (t : Fin n) (fd : Fin 64) : List Resource :=
  match k.slot (t, fd) with
  | none => []
  | some d => if Shared.uses k.slot d = 1 then (k.kind d).toList else []

theorem lost_of_empty (h : k.slot (t, fd) = none) : k.lost t fd = [] := by
  rw [lost, h]

theorem count_toList (o : Option Resource) (r : Resource) :
    o.toList.count r = if o = some r then 1 else 0 := by
  cases o with
  | none => simp
  | some r' => simp [List.count_singleton]

section
variable (k) (t) (fd)

theorem origin_clear (d : Nat) : ((k.clear t fd).ofd d).origin = (k.ofd d).origin := by
  rw [clear]
  split
  · rw [ofd_write]
  rename_i d' hslot
  rw [recount]
  by_cases hd : d = d'
  · subst hd
    simp
  · simp [hd]

theorem nextOfd_clear : (k.clear t fd).nextOfd = k.nextOfd := by
  rw [clear]
  split <;> rw [nextOfd_write]
  rfl

end

theorem clear_edit (h : (k.tables t).isSome) : Edit k t fd none none (k.clear t fd) := by
  rw [clear]
  split
  · exact write_edit h rfl rfl
  · exact write_edit h rfl rfl

theorem strong_clear (d : Nat) : ((k.clear t fd).ofd d).strong
    = (k.ofd d).strong - if k.slot (t, fd) = some d then 1 else 0 := by
  rw [clear]
  split
  · rename_i hslot
    rw [hslot]
    simp
  rename_i d' hslot
  rw [recount, hslot]
  by_cases hd : d = d'
  · subst hd
    simp
  · simp [hd, Ne.symm hd]

theorem clear_moves (hk : Inv k) (ht : k.running t = true) :
    Moves k [] (k.lost t fd) (k.clear t fd) := by
  have hedit : Edit k t fd none none (k.clear t fd) := clear_edit (isSome_of_running ht)
  refine ⟨hedit.inv hk ht rfl (Nat.le_of_eq (nextOfd_clear k t fd).symm) nofun
    (fun d _ => origin_clear k t fd d) fun d hd => ?_, hedit.running, fun r => ?_⟩
  · rw [nextOfd_clear] at hd
    rw [strong_clear, hk.strong d hd]
    rcases hold : k.slot (t, fd) with _ | d'
    · rw [← hold, update_eq_self]
      simp [hold]
    have huses := Shared.uses_clear hold d
    simp only [Option.some.injEq]
    omega
  · have hkind : (k.clear t fd).kind = k.kind := by
      funext d
      rw [kind, origin_clear, kind]
    rw [owned, owned, hkind, hedit.slot, lost]
    rcases hold : k.slot (t, fd) with _ | d
    · rw [← hold, update_eq_self, hold]
    have howned := @Shared.owned_clear _ _ _ _ _ _ _ k.kind _ _ _ hold r
    rw [howned]
    by_cases hone : Shared.uses k.slot d = 1
    · simp [hone, count_toList]
      omega
    · simp [hone]

/-- An empty slot gets a description, once its count has been raised. -/
theorem write_moves (k₁ : Kernel n) (hk : Inv k) (ht : k.running t = true)
    (hempty : k.slot (t, fd) = none) (htables : k₁.tables = k.tables)
    (hexited : k₁.exited = k.exited) (hnext : k.nextOfd ≤ k₁.nextOfd) (hd : d < k₁.nextOfd)
    (horigin : ∀ d', d' < k.nextOfd → (k₁.ofd d').origin = (k.ofd d').origin)
    (hstrong : ∀ d', d' < k₁.nextOfd →
      (k₁.ofd d').strong = Shared.uses k.slot d' + if d = d' then 1 else 0) :
    Moves k (if d ∈ Shared.held k.slot then [] else (k₁.kind d).toList) []
      (k₁.write t fd (some (k₁.ofd d).origin) (some d)) := by
  have hedit : Edit k t fd (some (k₁.ofd d).origin) (some d)
      (k₁.write t fd (some (k₁.ofd d).origin) (some d)) :=
    write_edit (isSome_of_running ht) htables hexited
  refine ⟨hedit.inv hk ht ?_ ?_ (fun d' hd' => ?_) (fun d' hd' => ?_) fun d' hd' => ?_,
    hedit.running, fun r => ?_⟩
  · rw [Option.map_some, ofd_write]
  · rw [nextOfd_write]
    exact hnext
  · cases hd'
    rw [nextOfd_write]
    exact hd
  · rw [ofd_write]
    exact horigin d' hd'
  · rw [nextOfd_write] at hd'
    rw [ofd_write, hstrong d' hd', Shared.uses_put hempty]
  · have hkind : (k₁.write t fd (some (k₁.ofd d).origin) (some d)).kind = k₁.kind := by
      funext d'
      rw [kind, ofd_write, kind]
    have hsame : Shared.owned k.kind k.slot r = Shared.owned k₁.kind k.slot r := by
      refine Shared.owned_congr (fun d' hd' => ?_) r
      obtain ⟨p, hp⟩ := Shared.mem_held.1 hd'
      rw [kind, kind, horigin d' (hk.lt_next p d' hp)]
    rw [owned, owned, hkind, hedit.slot, Shared.owned_put hempty, hsame]
    by_cases hheld : d ∈ Shared.held k.slot
    · simp [hheld]
    · simp [hheld, count_toList]
      omega

theorem slot_clear_self (h : (k.tables t).isSome) : (k.clear t fd).slot (t, fd) = none := by
  rw [(clear_edit h).slot, update_self]

/-- A slot gets a description of its own. -/
theorem putNew_moves (hk : Inv k) (ht : k.running t = true) (desc : FileDescriptor) :
    Moves k desc.resource.toList (k.lost t fd) (k.putNew t fd desc) := by
  have hsome := isSome_of_running ht
  have hclear : Moves k [] (k.lost t fd) (k.clear t fd) := clear_moves hk ht
  have ht0 := hclear.running t ht
  have hfresh : (k.clear t fd).nextOfd ∉ Shared.held (k.clear t fd).slot := by
    intro hheld
    obtain ⟨p, hp⟩ := Shared.mem_held.1 hheld
    exact Nat.lt_irrefl _ (hclear.inv.lt_next p _ hp)
  have hput := write_moves { k.clear t fd with
      ofd := update (k.clear t fd).ofd (k.clear t fd).nextOfd
        ⟨desc.initialOffset, desc.initialCookie, 0, 1, desc⟩
      nextOfd := (k.clear t fd).nextOfd + 1 }
    hclear.inv ht0 (slot_clear_self hsome) rfl rfl (Nat.le_succ _) (Nat.lt_succ_self _)
    (fun d' hd' => by simp [Nat.ne_of_lt hd']) (fun d' hd' => ?_)
  · rw [if_neg hfresh] at hput
    have hall := hclear.trans hput
    simpa [kind, putNew] using hall
  by_cases heq : d' = (k.clear t fd).nextOfd
  · subst heq
    simp [Shared.uses_eq_zero.2 hfresh]
  have hlt : d' < (k.clear t fd).nextOfd := by
    have : d' < (k.clear t fd).nextOfd + 1 := hd'
    omega
  simp [heq, Ne.symm heq, hclear.inv.strong d' hlt]

/-- A slot gets a description that another slot refers to. -/
theorem putShared_moves {p : Fin n × Fin 64} (hk : Inv k) (ht : k.running t = true)
    (hp : p ≠ (t, fd)) (hd : k.slot p = some d) :
    Moves k [] (k.lost t fd) (k.putShared t fd (k.ofd d).origin d) := by
  have hsome := isSome_of_running ht
  have hclear : Moves k [] (k.lost t fd) (k.clear t fd) := clear_moves hk ht
  have ht0 := hclear.running t ht
  have hstill : (k.clear t fd).slot p = some d := by
    rw [(clear_edit hsome).slot, update_of_ne hp, hd]
  have hlt := hclear.inv.lt_next p d hstill
  have hput := write_moves ((k.clear t fd).recount d fun count => count + 1)
    hclear.inv ht0 (slot_clear_self hsome) rfl rfl (Nat.le_refl _) hlt (fun d' _ => ?_)
    (fun d' hd' => ?_)
  · rw [if_pos (Shared.mem_held.2 ⟨p, hstill⟩)] at hput
    have hall := hclear.trans hput
    have horigin : (((k.clear t fd).recount d fun count => count + 1).ofd d).origin
        = (k.ofd d).origin := by
      simp [recount, origin_clear]
    rw [horigin] at hall
    simpa [putShared] using hall
  · by_cases heq : d' = d
    · subst heq
      simp [recount]
    · simp [recount, heq]
  have hstrong := hclear.inv.strong d' hd'
  by_cases heq : d' = d
  · subst heq
    simp [recount, hstrong]
  · simp [recount, heq, Ne.symm heq, hstrong]

section

variable (h : (k.tables t).isSome) (desc : FileDescriptor)
include h

theorem putNew_edit : Edit k t fd (some desc) (some k.nextOfd) (k.putNew t fd desc) := by
  have hclear : Edit k t fd none none (k.clear t fd) := clear_edit h
  rw [putNew, nextOfd_clear]
  exact hclear.trans (write_edit ((hclear.isSome t).trans h) rfl rfl)

theorem putShared_edit (d : Nat) :
    Edit k t fd (some desc) (some d) (k.putShared t fd desc d) := by
  have hclear : Edit k t fd none none (k.clear t fd) := clear_edit h
  exact hclear.trans (write_edit ((hclear.isSome t).trans h) rfl rfl)

end

theorem lost_putNew (hk : Inv k) (ht : k.running t = true) (h : k.slot (t, fd) = none)
    (desc : FileDescriptor) : (k.putNew t fd desc).lost t fd = desc.resource.toList := by
  have hslot := (@putNew_edit _ _ _ fd (isSome_of_running ht) desc).slot
  have hfresh : k.nextOfd ∉ Shared.held k.slot := by
    intro hheld
    obtain ⟨p, hp⟩ := Shared.mem_held.1 hheld
    exact Nat.lt_irrefl _ (hk.lt_next p _ hp)
  have huses : Shared.uses (update k.slot (t, fd) (some k.nextOfd)) k.nextOfd = 1 := by
    rw [Shared.uses_put h, Shared.uses_eq_zero.2 hfresh, if_pos rfl]
  have hkind : (k.putNew t fd desc).kind k.nextOfd = desc.resource := by
    rw [kind, putNew, ofd_write, nextOfd_clear]
    dsimp only
    rw [update_self]
  rw [lost, hslot, update_self]
  dsimp only
  rw [if_pos huses, hkind]

/-! ## Tables -/

theorem slot_eq_none_iff (hk : Inv k) : k.slot (t, fd) = none ↔ k.get t fd = none := by
  rw [hk.get, Option.map_eq_none_iff]

theorem get_of_allocFd (h : k.allocFd t = some fd) : k.get t fd = none := by
  have hfree := List.find?_some h
  exact Option.isNone_iff_eq_none.1 hfree

theorem slot_of_allocFd (hk : Inv k) (h : k.allocFd t = some fd) : k.slot (t, fd) = none :=
  (slot_eq_none_iff hk).2 (get_of_allocFd h)

theorem insert_eq (hk : Inv k) (h : k.slot (t, fd) = none) (desc : FileDescriptor) :
    k.insert t fd desc = (true, k.putNew t fd desc) := by
  rw [slot_eq_none_iff hk] at h
  rw [Kernel.insert, h]
  rfl

theorem insert_moves (hk : Inv k) (ht : k.running t = true) (h : k.slot (t, fd) = none)
    (desc : FileDescriptor) : Moves k desc.resource.toList [] (k.insert t fd desc).2 := by
  have hput : Moves k desc.resource.toList (k.lost t fd) (k.putNew t fd desc) :=
    putNew_moves hk ht desc
  rw [lost_of_empty h] at hput
  rw [insert_eq hk h]
  exact hput

theorem close_moves (hk : Inv k) (ht : k.running t = true) (fd : Fin 64) :
    Moves k [] ((k.close t fd).1.toList.flatMap closeDescriptor) (k.close t fd).2 ∧
      (k.close t fd).1.toList.flatMap closeDescriptor = k.lost t fd ∧
      (k.close t fd).2.slot = update k.slot (t, fd) none := by
  rcases hslot : k.slot (t, fd) with _ | d
  · have hclose : k.close t fd = (none, k) := by
      rw [close, (slot_eq_none_iff hk).1 hslot]
    rw [hclose, lost_of_empty hslot, ← hslot, update_eq_self]
    exact ⟨Moves.refl hk, rfl, rfl⟩
  have hget : k.get t fd = some (k.ofd d).origin := by
    rw [hk.get, hslot]
    rfl
  have hclose : k.close t fd
      = (some ⟨(k.ofd d).origin, decide (Shared.uses k.slot d = 1)⟩, k.clear t fd) := by
    rw [close, hget, ← hk.strong d (hk.lt_next _ d hslot)]
    simp only [hslot]
  have hlost : (k.close t fd).1.toList.flatMap closeDescriptor = k.lost t fd := by
    rw [hclose, lost, hslot]
    simp [closeDescriptor, kind]
  refine ⟨?_, hlost, ?_⟩
  · rw [hlost, hclose]
    exact clear_moves hk ht
  · rw [hclose]
    exact (clear_edit (isSome_of_running ht)).slot

theorem takeLoop_moves (hk : Inv k) (ht : k.running t = true) (fds : List (Fin 64)) :
    Moves k [] ((k.takeLoop t fds).1.flatMap closeDescriptor) (k.takeLoop t fds).2 ∧
      ∀ fd, (k.takeLoop t fds).2.slot (t, fd) = if fd ∈ fds then none else k.slot (t, fd) := by
  induction fds generalizing k with
  | nil => exact ⟨Moves.refl hk, fun fd => by simp [takeLoop]⟩
  | cons fd fds ih =>
    obtain ⟨hclose, -, hslot⟩ := close_moves hk ht fd
    obtain ⟨hrest, hslots⟩ := ih hclose.inv (hclose.running t ht)
    refine ⟨?_, fun fd' => ?_⟩
    · have hall := hclose.trans hrest
      simpa [takeLoop, List.flatMap_append] using hall
    · rw [takeLoop]
      rw [hslots, hslot]
      by_cases hfd : fd' = fd
      · simp [hfd]
      by_cases hmem : fd' ∈ fds
      · simp [hmem]
      · simp [hfd]

end Felix.Fd
