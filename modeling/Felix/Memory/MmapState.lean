import Felix.Memory.Mmap
import Felix.Memory.Translate

/-!
# The state of the memory calls

`Good` is what the memory calls keep: the frames are owned as `Owned` says, with
the counts of the cache for the shared ones, the arena has no large pages, and
every page with a reference count is mapped.

For each function of `Mmap` that works on pages there is one lemma that says what
it does to the pages that are mapped.  The loops of the calls are then folds whose
invariant is `Good`.
-/

namespace Felix.Memory

open Bytes Machine Res List

/-! ## The cache of shared pages -/

/-- The number of mappings that the cache counts for a frame. -/
def refsOf (shared : List SharedPage) : Nat → Nat :=
  countIn (shared.map fun page => (page.frame, page.refs))

/-- What the cache keeps. -/
structure Cache (shared : List SharedPage) : Prop where
  distinct : (shared.map SharedPage.frame).Nodup
  refs : ∀ page ∈ shared, 0 < page.refs ∧ page.refs < 2 ^ 32
  frames : ∀ page ∈ shared, page.frame < 2 ^ 20

section

variable {shared rest : List SharedPage} {page : SharedPage}

theorem refsOf_eq (hcache : Cache shared) (hperm : shared.Perm (page :: rest)) (f : Nat) :
    refsOf shared f = if page.frame = f then page.refs else refsOf rest f := by
  refine countIn_perm (hperm.map fun page => (page.frame, page.refs)) ?_ f
  rw [map_map]
  exact hcache.distinct

theorem refsOf_self (hcache : Cache shared) (hmem : page ∈ shared) :
    refsOf shared page.frame = page.refs := by
  refine countIn_eq_of_mem ?_ (mem_map.2 ⟨page, hmem, rfl⟩)
  rw [map_map]
  exact hcache.distinct

theorem refsOf_of_notMem {f : Nat} (h : f ∉ shared.map SharedPage.frame) : refsOf shared f = 0 := by
  refine countIn_eq_zero ?_
  rw [map_map]
  exact h

theorem page_of_findIdx {test : SharedPage → Bool} {i : Nat}
    (hidx : shared.findIdx? test = some i) :
    i < shared.length ∧ ∃ page, shared.getD i ⟨0, 0, 0, 0⟩ = page ∧ test page = true ∧
      shared.Perm (page :: shared.eraseIdx i) := by
  obtain ⟨hlt, hfound, _⟩ := findIdx?_eq_some_iff_getElem.1 hidx
  refine ⟨hlt, shared[i], ?_, hfound, (getElem_cons_eraseIdx_perm hlt).symm⟩
  rw [getD_eq_getElem?_getD, getElem?_eq_getElem hlt, Option.getD_some]

/-- A page and the rest of a cache. -/
theorem Cache.uncons (hcache : Cache shared) (hperm : shared.Perm (page :: rest)) :
    page ∈ shared ∧ page.frame ∉ rest.map SharedPage.frame ∧ Cache rest := by
  obtain ⟨hnot, hnodup⟩ :=
    nodup_cons.1 ((hperm.map SharedPage.frame).nodup_iff.1 hcache.distinct)
  have hrest : ∀ p ∈ rest, p ∈ shared := fun p hp => hperm.mem_iff.2 (mem_cons_of_mem page hp)
  exact ⟨hperm.mem_iff.2 mem_cons_self, hnot, hnodup,
    fun p hp => hcache.refs p (hrest p hp), fun p hp => hcache.frames p (hrest p hp)⟩

theorem Cache.cons (hcache : Cache rest) (hperm : shared.Perm (page :: rest))
    (hnot : page.frame ∉ rest.map SharedPage.frame)
    (hrefs : 0 < page.refs ∧ page.refs < 2 ^ 32) (hlt : page.frame < 2 ^ 20) : Cache shared := by
  refine ⟨(hperm.map SharedPage.frame).nodup_iff.2 (nodup_cons.2 ⟨hnot, hcache.distinct⟩),
    fun p hp => ?_, fun p hp => ?_⟩ <;> rcases mem_cons.1 (hperm.mem_iff.1 hp) with rfl | hp
  · exact hrefs
  · exact hcache.refs p hp
  · exact hlt
  · exact hcache.frames p hp

end

namespace Vm

/-! ## Good states -/

/-- What the memory calls keep. -/
structure Good (kernel : Nat → Prop) (s : Vm) : Prop where
  owned : Owned kernel (refsOf s.shared) s.machine
  upper : s.machine.UpperTables kernel
  plain : ∀ i, 384 ≤ i → i < 640 → s.machine.Plain i
  cache : Cache s.shared
  counted : ∀ a, 0 < s.counts.count a →
    4096 ∣ a ∧ UserPage (a / 4096) ∧ s.machine.Mapped (a / 4096)

/-- The bookkeeping of the arena is the same. -/
def SameArena (s s' : Vm) : Prop := s'.mmapNext = s.mmapNext ∧ s'.mmapFree = s.mmapFree

variable {kernel : Nat → Prop} {refs : Nat → Nat} {m m' : Machine} {s s' : Vm} {w : World}

/-- A page was added to those that are mapped. -/
structure Adds (kernel : Nat → Prop) (refs : Nat → Nat) (m m' : Machine) (p : Nat) : Prop where
  owned : Owned kernel refs m'
  mapped : ∀ q, UserPage q → (m'.Mapped q ↔ m.Mapped q ∨ q = p)
  table : ∀ i, m'.HasTable i ↔ m.HasTable i ∨ i = p / 1024
  others : ∀ i, i ≠ p / 1024 → m'.entries i = m.entries i

variable {p i f n inode fuel : Nat} {page : SharedPage} {m'' : Machine}

theorem Adds.upper (h : Adds kernel refs m m' p) (hp : UserPage p)
    (hupper : m.UpperTables kernel) : m'.UpperTables kernel := by
  intro i hi ht
  have hne : i ≠ p / 1024 := by
    unfold UserPage at hp
    omega
  rw [tableFrame, h.others i hne]
  exact hupper i hi (((h.table i).1 ht).resolve_right hne)

theorem Adds.plain (h : Adds kernel refs m m' p) (hplain : m.Plain i) : m'.Plain i := by
  by_cases hi : i = p / 1024
  · exact .inl ((h.table i).2 (.inr hi))
  rcases hplain with ht | habsent
  · exact .inl ((h.table i).2 (.inl ht))
  · exact .inr (h.others i hi ▸ habsent)

/-- Only the bytes of frames that are no page tables changed. -/
structure Rewrites (kernel : Nat → Prop) (refs : Nat → Nat) (m m' : Machine) : Prop where
  owned : Owned kernel refs m'
  mapped : ∀ q, UserPage q → (m'.Mapped q ↔ m.Mapped q)
  entries : m'.entries = m.entries

theorem Rewrites.refl (h : Owned kernel refs m) : Rewrites kernel refs m m :=
  ⟨h, fun _ _ => Iff.rfl, rfl⟩

theorem Rewrites.trans (h : Rewrites kernel refs m m')
    (h' : Rewrites kernel refs m' m'') : Rewrites kernel refs m m'' :=
  ⟨h'.owned, fun q hq => (h'.mapped q hq).trans (h.mapped q hq), h'.entries.trans h.entries⟩

theorem upper_congr (h : m'.entries = m.entries) (hupper : m.UpperTables kernel) :
    m'.UpperTables kernel := by
  intro i hi ht
  rw [HasTable, h] at ht
  rw [tableFrame, h]
  exact hupper i hi ht

theorem plain_congr (h : m'.entries = m.entries) (hplain : m.Plain i) : m'.Plain i := by
  unfold Plain HasTable at ⊢
  rwa [h]

theorem Adds.rewrites (h : Adds kernel refs m m' p)
    (h' : Rewrites kernel refs m' m'') : Adds kernel refs m m'' p := by
  refine ⟨h'.owned, fun q hq => (h'.mapped q hq).trans (h.mapped q hq), fun i => ?_, fun i hi => ?_⟩
  · rw [← h.table i, HasTable, HasTable, h'.entries]
  · rw [h'.entries, h.others i hi]

theorem Good.add (hs : s.Good kernel) (hp : UserPage p)
    (hadds : Adds kernel (refsOf s'.shared) s.machine s'.machine p) (hcache : Cache s'.shared)
    (hcounts : ∀ a, s'.counts.count a
      = if 4096 * p = a then s.counts.count (4096 * p) + 1 else s.counts.count a) :
    s'.Good kernel := by
  refine ⟨hadds.owned, hadds.upper hp hs.upper, fun i hi hi' => hadds.plain (hs.plain i hi hi'),
    hcache, fun a ha => ?_⟩
  rw [hcounts] at ha
  by_cases hpa : 4096 * p = a
  · subst hpa
    rw [Nat.mul_div_cancel_left p (by decide)]
    exact ⟨Nat.dvd_mul_right _ _, hp, (hadds.mapped p hp).2 (.inr rfl)⟩
  rw [if_neg hpa] at ha
  obtain ⟨hdvd, huser, hmapped⟩ := hs.counted a ha
  exact ⟨hdvd, huser, (hadds.mapped _ huser).2 (.inl hmapped)⟩

theorem Good.rewrite (hs : s.Good kernel) (h : Rewrites kernel (refsOf s.shared) s.machine m') :
    Good kernel { s with machine := m' } := by
  refine ⟨h.owned, upper_congr h.entries hs.upper,
    fun i hi hi' => plain_congr h.entries (hs.plain i hi hi'), hs.cache, fun a ha => ?_⟩
  obtain ⟨hdvd, huser, hmapped⟩ := hs.counted a ha
  exact ⟨hdvd, huser, (h.mapped _ huser).2 hmapped⟩

/-! ## Private pages -/

theorem zeroPage_eq (h : Owned kernel refs m) (hp : UserPage p) (hm : m.Mapped p) :
    ∃ m', m.zeroPage (4096 * p) = .ok m' ∧ Rewrites kernel refs m m' := by
  have hdiv : 4096 * p / 4096 = p := Nat.mul_div_cancel_left p (by decide)
  have hmod : 4096 * p % 4096 = 0 := Nat.mul_mod_right 4096 p
  have htranslate := translate_of_mapped (by rw [hdiv]; exact hm)
  rw [hdiv, hmod] at htranslate
  unfold zeroPage
  rw [htranslate]
  simp only [Nat.add_zero, Nat.mul_div_cancel _ (show 0 < 4096 by decide)]
  obtain ⟨howned, hmapped⟩ := h.writeData hp hm fun _ => 0
  exact ⟨_, rfl, howned, hmapped, rfl⟩

theorem mapPrivatePage_good (hs : s.Good kernel) (hp : UserPage p)
    (hrun : s.mapPrivatePage (4096 * p) = .ok s') :
    s'.Good kernel ∧ SameArena s s' ∧
      ∀ q, UserPage q → (s'.machine.Mapped q ↔ s.machine.Mapped q ∨ q = p) := by
  unfold mapPrivatePage at hrun
  rcases s.counts.inc_eq (4096 * p) with ⟨herror, _⟩ | ⟨counts, hinc, hcounts⟩
  · rw [herror] at hrun
    cases hrun
  rw [hinc, ok_bind] at hrun
  obtain ⟨m₁, hmap, hrest⟩ := bind_eq_ok.1 hrun
  have hadds : Adds kernel (refsOf s.shared) s.machine m₁ p := by
    unfold mapIfNeeded at hmap
    split at hmap
    · rcases hs.owned.allocAndMapUserPage_eq hp with ⟨⟨e, herror⟩, _⟩ | ⟨m', hok, hmaps⟩
      · rw [herror] at hmap
        cases hmap
      · rw [hok] at hmap
        cases hmap
        exact ⟨hmaps.owned, hmaps.mapped, hmaps.table, hmaps.others⟩
    -- the page has a count, so it is mapped
    rename_i hneed
    cases hmap
    have hpos : 0 < s.counts.count (4096 * p) := by
      by_contra hzero
      exact hneed (by simp [show s.counts.count (4096 * p) = 0 by omega])
    have hm := (hs.counted _ hpos).2.2
    rw [Nat.mul_div_cancel_left p (by decide)] at hm
    refine ⟨hs.owned, fun q _ => ?_, fun i => ?_, fun _ _ => rfl⟩
    · exact ⟨.inl, fun hor => hor.elim id fun heq => heq ▸ hm⟩
    · exact ⟨.inl, fun hor => hor.elim id fun heq => heq ▸ hm.1⟩
  obtain ⟨m₂, hzero, hrewrites⟩ := zeroPage_eq hadds.owned hp ((hadds.mapped p hp).2 (.inr rfl))
  rw [hzero] at hrest
  cases hrest
  exact ⟨hs.add hp (hadds.rewrites hrewrites) hs.cache hcounts, ⟨rfl, rfl⟩,
    (hadds.rewrites hrewrites).mapped⟩

theorem storeVirt_rewrites {addr : Nat} {data : List UInt8} (h : Owned kernel refs m)
    (hpages : ∀ x, addr ≤ x → x < addr + data.length →
      UserPage (x / 4096) ∧ m.Mapped (x / 4096))
    (hrun : m.storeVirt fuel addr data = .ok m') : Rewrites kernel refs m m' := by
  induction fuel generalizing m addr data with
  | zero => cases hrun
  | succ fuel ih =>
    unfold storeVirt at hrun
    split at hrun
    · cases hrun
      exact Rewrites.refl h
    rename_i hdata
    have hlen : 0 < data.length := length_pos_iff.2 hdata
    obtain ⟨hp, hm⟩ := hpages addr (Nat.le_refl _) (by omega)
    rw [translate_of_mapped hm] at hrun
    have hframe : (m.dataFrame (addr / 4096) * 4096 + addr % 4096) / 4096
        = m.dataFrame (addr / 4096) := by omega
    simp only [hframe] at hrun
    obtain ⟨howned, hmapped⟩ := h.writeData hp hm (splice (addr % 4096)
      (min data.length (4096 - addr % 4096)) (fun k => data.getD k 0)
      (m.phys (m.dataFrame (addr / 4096))))
    have hfirst : Rewrites kernel refs m _ := ⟨howned, hmapped, rfl⟩
    refine hfirst.trans (ih howned (fun x hx hx' => ?_) hrun)
    rw [length_drop] at hx'
    obtain ⟨hq, hmq⟩ := hpages x (by omega) (by omega)
    exact ⟨hq, (hmapped _ hq).2 hmq⟩

theorem copyFile_rewrites {remaining dst off : Nat} (h : Owned kernel refs m)
    (hpages : ∀ x, dst ≤ x → x < dst + remaining → UserPage (x / 4096) ∧ m.Mapped (x / 4096))
    (hrun : copyFile w inode fuel remaining dst off m = .ok m') : Rewrites kernel refs m m' := by
  induction fuel generalizing remaining dst off m with
  | zero => cases hrun
  | succ fuel ih =>
    unfold copyFile at hrun
    split at hrun
    · cases hrun
      exact Rewrites.refl h
    dsimp only at hrun
    obtain ⟨data, hdata⟩ : ∃ data, data
        = (w.readAt inode off (min remaining 4096)).take (min remaining 4096) := ⟨_, rfl⟩
    rw [← hdata] at hrun
    split at hrun
    · cases hrun
      exact Rewrites.refl h
    have hlen : data.length ≤ remaining := by
      rw [hdata, length_take]
      omega
    obtain ⟨m₁, hstore, hrest⟩ := bind_eq_ok.1 hrun
    have hfirst := storeVirt_rewrites h (fun x hx hx' => hpages x hx (by omega)) hstore
    refine hfirst.trans (ih hfirst.owned (fun x hx hx' => ?_) hrest)
    obtain ⟨hq, hmq⟩ := hpages x (by omega) (by omega)
    exact ⟨hq, (hfirst.mapped _ hq).2 hmq⟩

/-! ## Shared pages -/

/-- The frame of a page that was acquired: it can be mapped once more. -/
structure Acquired (kernel : Nat → Prop) (s s' : Vm) (f : Nat) : Prop where
  owned : Owned kernel (refsOf s'.shared) s'.machine
  cache : Cache s'.shared
  mapped : ∀ q, UserPage q → (s'.machine.Mapped q ↔ s.machine.Mapped q)
  entries : s'.machine.entries = s.machine.entries
  counts : s'.counts = s.counts
  arena : SameArena s s'
  use : InUse kernel s'.machine f
  lt : f < 2 ^ 20
  room : (s'.machine.pagesAt f).card + 1 ≤ max 1 (refsOf s'.shared f)

theorem inUse_of_refs (h : Owned kernel refs m) (hf : 0 < refs f) : InUse kernel m f := by
  refine ⟨fun havail => ?_, h.cached f hf, fun i hi ht heq => ?_⟩
  · have := (h.free f havail).2
    omega
  · have := (h.table i hi ht).2.2
    rw [heq] at this
    omega

theorem card_pagesAt_le (m : Machine) (f : Nat) : (m.pagesAt f).card ≤ 764 * 1024 := by
  refine (Finset.card_filter_le _ _).trans ?_
  rw [Finset.card_range]
  exact Nat.le_refl _

theorem acquired_cached (hs : s.Good kernel) {rest shared : List SharedPage}
    (hperm : s.shared.Perm (page :: rest))
    (hperm' : shared.Perm ({ page with refs := satAdd page.refs 1 } :: rest)) :
    Acquired kernel s { s with shared } page.frame := by
  obtain ⟨hmem, hnot, hrest⟩ := hs.cache.uncons hperm
  obtain ⟨hpos, hlt⟩ := hs.cache.refs page hmem
  have hsat : page.refs ≤ satAdd page.refs 1 ∧ satAdd page.refs 1 < 2 ^ 32 := by
    unfold satAdd
    omega
  have hcache : Cache shared := hrest.cons hperm' hnot
    ⟨Nat.lt_of_lt_of_le hpos hsat.1, hsat.2⟩ (hs.cache.frames page hmem)
  have hold := refsOf_eq hs.cache hperm
  have hnew := refsOf_eq hcache hperm'
  have hself : refsOf s.shared page.frame = page.refs := (hold _).trans (if_pos rfl)
  have hself' : refsOf shared page.frame = satAdd page.refs 1 := (hnew _).trans (if_pos rfl)
  have hother : ∀ f, page.frame ≠ f → refsOf shared f = refsOf s.shared f := fun f hf => by
    rw [hnew, hold, if_neg hf, if_neg hf]
  have huse := inUse_of_refs hs.owned (hself ▸ hpos)
  have hsharing := hs.owned.sharing page.frame
  have hcard := card_pagesAt_le s.machine page.frame
  refine ⟨hs.owned.setRefs huse hother (by rw [hself']; omega), hcache, fun _ _ => Iff.rfl, rfl,
    rfl, ⟨rfl, rfl⟩, huse, hs.cache.frames page hmem, ?_⟩
  show (s.machine.pagesAt page.frame).card + 1 ≤ max 1 (refsOf shared page.frame)
  rw [hself', satAdd]
  omega

theorem acquired_fresh (hs : s.Good kernel) {frames : FrameAllocator} {bytes : Bytes}
    (htakes : FrameAllocator.Takes s.machine.frames frames f)
    (hframe : page.frame = f) (hrefs : page.refs = 1) :
    Acquired kernel s
      { s with machine := { s.machine with frames }.setFrame f bytes,
               shared := s.shared ++ [page] } f := by
  obtain ⟨h₁, huse, hempty, hpages⟩ := hs.owned.takeFrame htakes
    (show { s.machine with frames }.setFrame f bytes = _ from rfl)
  have hlt := hs.owned.good.lt htakes.avail
  have hzero := (hs.owned.free f htakes.avail).2
  have hnot : f ∉ s.shared.map SharedPage.frame := by
    intro hmem
    obtain ⟨page', hpage', rfl⟩ := mem_map.1 hmem
    rw [refsOf_self hs.cache hpage'] at hzero
    exact absurd hzero (Nat.ne_of_gt (hs.cache.refs page' hpage').1)
  have hperm : (s.shared ++ [page]).Perm (page :: s.shared) := perm_append_singleton _ _
  have hcache : Cache (s.shared ++ [page]) :=
    hs.cache.cons hperm (hframe ▸ hnot) (by rw [hrefs]; decide) (hframe ▸ hlt)
  have hnew : ∀ g, refsOf (s.shared ++ [page]) g = if f = g then 1 else refsOf s.shared g := by
    intro g
    rw [refsOf_eq hcache hperm, hframe, hrefs]
  have howned : Owned kernel (refsOf (s.shared ++ [page])) _ :=
    h₁.setRefs huse (fun g hg => (hnew g).trans (if_neg hg)) (by rw [hempty]; exact Nat.zero_le _)
  refine ⟨howned, hcache, fun q hq => (hpages q hq).1, rfl, rfl, ⟨rfl, rfl⟩, huse, hlt, ?_⟩
  rw [hempty]
  exact Nat.le_max_left _ _

theorem acquireFilePage_eq (hs : s.Good kernel) {offset size : Nat}
    (hsize : w.sizeOf inode = some size) (hoff : offset < size) (haligned : offset % 4096 = 0) :
    (∃ e, s.acquireFilePage w inode offset = .error e) ∨
      ∃ f s', s.acquireFilePage w inode offset = .ok (some f, s') ∧ Acquired kernel s s' f := by
  unfold acquireFilePage
  rw [if_neg (not_not.2 haligned)]
  cases hidx : s.shared.findIdx? fun page => page.inode = inode ∧ page.offset = offset with
  | some i =>
    obtain ⟨hlt, page, hget, -, hperm⟩ := page_of_findIdx hidx
    simp only [hget]
    exact .inr ⟨_, _, rfl, acquired_cached hs hperm (set_perm_cons_eraseIdx hlt _)⟩
  | none =>
    simp only [hsize, if_neg (Nat.not_le.2 hoff)]
    rcases hs.owned.allocFrame_eq with ⟨⟨e, herror⟩, _⟩ | ⟨f, frames, hok, htakes⟩
    · rw [herror]
      exact .inl ⟨e, rfl⟩
    · rw [hok]
      exact .inr ⟨f, _, rfl, acquired_fresh hs htakes rfl rfl⟩

/-- The loop of a shared mapping does not come to its rollback, and maps its pages
only. -/
theorem mapSharedPages_good {va size off r : Nat} (hsize : w.sizeOf inode = some size)
    (hs : s.Good kernel) (hpages : ∀ q, i ≤ q → q < i + n → UserPage q ∧ ¬ s.machine.Mapped q)
    (haligned : off % 4096 = 0) (hoff : 0 < n → off + 4096 * (n - 1) < size)
    (hrun : s.mapSharedPages w inode va fuel (4096 * i) off (4096 * (i + n)) = .ok (r, s')) :
    r = va ∧ s'.Good kernel ∧ SameArena s s' ∧
      ∀ q, UserPage q → s'.machine.Mapped q → s.machine.Mapped q ∨ (i ≤ q ∧ q < i + n) := by
  induction fuel generalizing i n off s with
  | zero => cases hrun
  | succ fuel ih =>
    unfold mapSharedPages at hrun
    by_cases hn : n = 0
    · rw [if_neg (by omega)] at hrun
      cases hrun
      exact ⟨rfl, hs, ⟨rfl, rfl⟩, fun _ _ hm => .inl hm⟩
    rw [if_pos (by omega)] at hrun
    rcases acquireFilePage_eq hs hsize (show off < size by omega) haligned with ⟨e, herror⟩ |
      ⟨f, s₁, hok, hacq⟩
    · rw [herror] at hrun
      cases hrun
    rw [hok, ok_bind] at hrun
    dsimp only at hrun
    rcases s₁.counts.inc_eq (4096 * i) with ⟨herror, _⟩ | ⟨counts, hinc, hcounts⟩
    · rw [herror] at hrun
      cases hrun
    rw [hinc, ok_bind] at hrun
    obtain ⟨hp, hnone⟩ := hpages i (Nat.le_refl i) (by omega)
    rw [Nat.mul_div_cancel_left i (by decide)] at hrun
    rcases hacq.owned.map_eq hp (fun hm => hnone ((hacq.mapped i hp).1 hm)) hacq.lt hacq.use
      hacq.room with ⟨e, herror⟩ | ⟨m', hmap, howned, htable, hmapped, hothers⟩
    · rw [herror] at hrun
      cases hrun
    rw [hmap, ok_bind] at hrun
    obtain ⟨p, hadd, hrest⟩ := bind_eq_ok.1 hrun
    obtain ⟨_, rfl⟩ := addW_eq_ok.1 hadd
    have hmapped' : ∀ q, UserPage q → (m'.Mapped q ↔ s.machine.Mapped q ∨ q = i) := fun q hq =>
      (hmapped q hq).trans (or_congr_left (hacq.mapped q hq))
    have hadds : Adds kernel (refsOf s₁.shared) s.machine m' i := by
      refine ⟨howned, hmapped', fun j => ?_, fun j hj => ?_⟩
      · rw [htable, HasTable, HasTable, hacq.entries]
      · rw [hothers j hj, hacq.entries]
    have hgood : Good kernel { s₁ with machine := m', counts } :=
      hs.add hp hadds hacq.cache (hacq.counts ▸ hcounts)
    have hnext : ∀ q, i + 1 ≤ q → q < i + 1 + (n - 1) → UserPage q ∧ ¬ m'.Mapped q := by
      intro q hq hq'
      obtain ⟨huser, hfree⟩ := hpages q (by omega) (by omega)
      refine ⟨huser, fun hm => ?_⟩
      exact ((hmapped' q huser).1 hm).elim hfree fun heq => by omega
    rw [show i + n = i + 1 + (n - 1) by omega] at hrest
    obtain ⟨hr, hgood', harena, hfinal⟩ := ih hgood hnext (by omega) (fun hpos => by omega) hrest
    refine ⟨hr, hgood', ⟨harena.1.trans hacq.arena.1, harena.2.trans hacq.arena.2⟩,
      fun q hq hm => ?_⟩
    rcases hfinal q hq hm with hm | hrange
    · exact ((hmapped' q hq).1 hm).imp_right fun heq => by omega
    · exact .inr (by omega)

/-! ## Unmapping -/

/-- Mapping and translation look at the directory and at physical memory. -/
theorem same_tables (hentries : m'.entries = m.entries) (hphys : m'.phys = m.phys) :
    (∀ q, m'.Mapped q ↔ m.Mapped q) ∧ ∀ x, m'.translate x = m.translate x := by
  have hpte : ∀ q, m'.pte q = m.pte q := fun q => by
    unfold pte pteOf
    rw [hentries, hphys]
  refine ⟨fun q => ?_, fun x => translate_congr (by rw [hentries]) fun _ => hpte _⟩
  unfold Mapped HasTable
  rw [hpte, hentries]

/-- The frame of a page that was unmapped is released. -/
theorem releaseUserFrame_owned (h : Owned kernel (refsOf s.shared) s.machine)
    (hcache : Cache s.shared) (huse : InUse kernel s.machine f)
    (hroom : (s.machine.pagesAt f).card + 1 ≤ max 1 (refsOf s.shared f)) :
    Owned kernel (refsOf (s.releaseUserFrame f).shared) (s.releaseUserFrame f).machine ∧
      Cache (s.releaseUserFrame f).shared ∧ (s.releaseUserFrame f).counts = s.counts ∧
      SameArena s (s.releaseUserFrame f) ∧
      (s.releaseUserFrame f).machine.entries = s.machine.entries ∧
      (s.releaseUserFrame f).machine.phys = s.machine.phys := by
  -- without a reference left the frame goes back to the allocator
  have hempty : ∀ refs' : Nat → Nat, refsOf s.shared f ≤ 1 → Owned kernel refs' s.machine →
      refs' f = 0 →
      Owned kernel refs' { s.machine with frames := s.machine.frames.freePhysFrame f } := by
    intro refs' hle howned hzero
    exact howned.freeFrame huse hzero (Finset.card_eq_zero.1 (by omega))
  unfold releaseUserFrame releaseSharedFrame
  cases hidx : s.shared.findIdx? (·.frame = f) with
  | none =>
    have hnot : f ∉ s.shared.map SharedPage.frame := by
      intro hmem
      obtain ⟨page, hpage, hframe⟩ := mem_map.1 hmem
      exact absurd (findIdx?_eq_none_iff.1 hidx page hpage) (by simp [hframe])
    have hzero := refsOf_of_notMem hnot
    exact ⟨hempty _ (by omega) h hzero, hcache, rfl, ⟨rfl, rfl⟩, rfl, rfl⟩
  | some i =>
    obtain ⟨hlt, page, hget, hfound, hperm⟩ := page_of_findIdx hidx
    have hframe : page.frame = f := of_decide_eq_true hfound
    obtain ⟨hmem, hnot, hrest⟩ := hcache.uncons hperm
    obtain ⟨hpos, hbound⟩ := hcache.refs page hmem
    have hold := refsOf_eq hcache hperm
    have hself : refsOf s.shared f = page.refs := (hold f).trans (if_pos hframe)
    -- the counts of the other frames stay, and that of `f` is one less
    have hset : ∀ shared', refsOf shared' f + 1 = page.refs →
        (∀ g, f ≠ g → refsOf shared' g = refsOf s.shared g) →
        Owned kernel (refsOf shared') s.machine :=
      fun shared' hless hother => h.setRefs huse hother (by omega)
    simp only [hget]
    by_cases hmany : 1 < page.refs
    · have hperm' : (s.shared.set i { page with refs := page.refs - 1 }).Perm
          ({ page with refs := page.refs - 1 } :: s.shared.eraseIdx i) :=
        set_perm_cons_eraseIdx hlt _
      have hcache' := hrest.cons hperm' hnot ⟨Nat.sub_pos_of_lt hmany,
        Nat.lt_of_le_of_lt (Nat.sub_le _ _) hbound⟩ (hcache.frames page hmem)
      have hnew := refsOf_eq hcache' hperm'
      have howned := hset _
        (by rw [hnew f, if_pos hframe]; exact Nat.sub_add_cancel hpos)
        fun g hg => by rw [hnew, hold, if_neg fun heq => hg (hframe.symm.trans heq),
          if_neg fun heq => hg (hframe.symm.trans heq)]
      rw [if_pos hmany]
      exact ⟨howned, hcache', rfl, ⟨rfl, rfl⟩, rfl, rfl⟩
    · have hperm' : s.shared.Perm (page :: swapRemove s.shared i) :=
        hperm.trans ((swapRemove_perm hlt).symm.cons page)
      obtain ⟨-, hnot', hcache'⟩ := hcache.uncons hperm'
      have hzero : refsOf (swapRemove s.shared i) f = 0 := refsOf_of_notMem (hframe ▸ hnot')
      have howned := hset (swapRemove s.shared i) (by omega) fun g hg => by
        rw [refsOf_eq hcache hperm', if_neg fun heq => hg (hframe.symm.trans heq)]
      simp only [if_neg hmany]
      exact ⟨hempty _ (by omega) howned hzero, hcache', rfl, ⟨rfl, rfl⟩, rfl, rfl⟩

/-- The `n` pages from `i` on lose one reference, and those that have no other are
unmapped. -/
structure Unmaps (kernel : Nat → Prop) (i n : Nat) (s s' : Vm) : Prop where
  good : s'.Good kernel
  arena : SameArena s s'
  counts : ∀ q, s'.counts.count (4096 * q)
    = if i ≤ q ∧ q < i + n then s.counts.count (4096 * q) - 1 else s.counts.count (4096 * q)
  mapped : ∀ q, UserPage q → (s'.machine.Mapped q
    ↔ s.machine.Mapped q ∧ ¬ ((i ≤ q ∧ q < i + n) ∧ s.counts.count (4096 * q) = 1))
  others : ∀ x, ¬ ((i ≤ x / 4096 ∧ x / 4096 < i + n) ∧
    s.counts.count (4096 * (x / 4096)) = 1) → s'.machine.translate x = s.machine.translate x

theorem Unmaps.trans {s₁ s₂ : Vm} (h : Unmaps kernel i 1 s s₁)
    (h' : Unmaps kernel (i + 1) n s₁ s₂) : Unmaps kernel i (n + 1) s s₂ := by
  -- the counts of the later pages did not change yet
  have hcount : ∀ q, i + 1 ≤ q → s₁.counts.count (4096 * q) = s.counts.count (4096 * q) :=
    fun q hq => (h.counts q).trans (if_neg (by omega))
  refine ⟨h'.good, ⟨h'.arena.1.trans h.arena.1, h'.arena.2.trans h.arena.2⟩, fun q => ?_,
    fun q hq => ?_, fun x hx => ?_⟩
  · rw [h'.counts, h.counts]
    split_ifs <;> omega
  · rw [h'.mapped q hq, h.mapped q hq]
    by_cases hlater : i + 1 ≤ q
    · rw [hcount q hlater]
      constructor
      · rintro ⟨⟨hm, _⟩, hnot⟩
        exact ⟨hm, fun hr => hnot ⟨by omega, hr.2⟩⟩
      · rintro ⟨hm, hnot⟩
        exact ⟨⟨hm, fun hr => by omega⟩, fun hr => hnot ⟨by omega, hr.2⟩⟩
    constructor
    · rintro ⟨⟨hm, hnot⟩, _⟩
      exact ⟨hm, fun hr => hnot ⟨by omega, hr.2⟩⟩
    · rintro ⟨hm, hnot⟩
      exact ⟨⟨hm, fun hr => hnot ⟨by omega, hr.2⟩⟩, fun hr => by omega⟩
  · rw [h'.others x fun hr => hx ⟨by omega, by rw [← hcount _ hr.1.1]; exact hr.2⟩,
      h.others x fun hr => hx ⟨by omega, hr.2⟩]

theorem unmapPage_unmaps (hs : s.Good kernel) (hp : UserPage p) (flushed : Bool) :
    ∃ flushed' s', unmapPage w (flushed, s) (4096 * p) = .ok (flushed', s') ∧
      Unmaps kernel p 1 s s' := by
  obtain ⟨hshould, hcounts⟩ := s.counts.dec_eq (4096 * p)
  have hcounts' : ∀ q, (s.counts.dec (4096 * p)).2.count (4096 * q)
      = if p ≤ q ∧ q < p + 1 then s.counts.count (4096 * q) - 1 else s.counts.count (4096 * q) := by
    intro q
    rw [hcounts]
    by_cases hq : p = q
    · rw [if_pos (by rw [hq]), if_pos (by omega), hq]
    · rw [if_neg (by omega), if_neg (by omega)]
  -- a page keeps its count, and with it its mapping, unless it is this one
  have hcounted : ∀ m' : Machine, (∀ q, UserPage q → s.machine.Mapped q →
        (q = p → s.counts.count (4096 * p) ≠ 1) → m'.Mapped q) →
      ∀ a, 0 < (s.counts.dec (4096 * p)).2.count a →
        4096 ∣ a ∧ UserPage (a / 4096) ∧ m'.Mapped (a / 4096) := by
    intro m' hkeep a ha
    rw [hcounts] at ha
    have hpos : 0 < s.counts.count a := by
      by_cases hpa : 4096 * p = a
      · rw [if_pos hpa] at ha
        rw [← hpa]
        omega
      · rwa [if_neg hpa] at ha
    obtain ⟨hdvd, huser, hmapped⟩ := hs.counted a hpos
    refine ⟨hdvd, huser, hkeep _ huser hmapped fun heq hone => ?_⟩
    have hpa : 4096 * p = a := by omega
    rw [if_pos hpa] at ha
    omega
  have hdec : s.counts.dec (4096 * p)
      = (decide (s.counts.count (4096 * p) = 1), (s.counts.dec (4096 * p)).2) :=
    Prod.ext hshould rfl
  unfold unmapPage
  dsimp only
  rw [hdec]
  by_cases hone : s.counts.count (4096 * p) = 1
  · rw [if_neg (by simp [hone])]
    have hm := (hs.counted (4096 * p) (by omega)).2.2
    rw [Nat.mul_div_cancel_left p (by decide)] at hm
    obtain ⟨m₁, hm₁⟩ : ∃ m₁, m₁ = s.machine.unmap (4096 * p) := ⟨_, rfl⟩
    obtain ⟨howned, huse, hroom, hmapped, hentries, htranslate⟩ := hs.owned.unmap hp hm hm₁
    have hphys := translate_of_mapped
      (by rw [Nat.mul_div_cancel_left p (by decide)]; exact hm)
    rw [Nat.mul_div_cancel_left p (by decide), Nat.mul_mod_right, Nat.add_zero] at hphys
    rw [hphys, ← hm₁]
    -- whatever becomes of the frame, the page tables are those of `m₁`
    have hfinal : ∀ s₁ : Vm, Owned kernel (refsOf s₁.shared) s₁.machine → Cache s₁.shared →
        s₁.counts = (s.counts.dec (4096 * p)).2 → SameArena s s₁ →
        s₁.machine.entries = m₁.entries → s₁.machine.phys = m₁.phys →
        Unmaps kernel p 1 s s₁ := by
      intro s₁ howned₁ hcache₁ hcounts₁ harena₁ hentries₁ hphys₁
      obtain ⟨hsame, hsame'⟩ := same_tables hentries₁ hphys₁
      have hmapped₁ : ∀ q, UserPage q → (s₁.machine.Mapped q ↔ s.machine.Mapped q ∧ q ≠ p) :=
        fun q hq => (hsame q).trans (hmapped q hq)
      have hentries' : s₁.machine.entries = s.machine.entries := hentries₁.trans hentries
      refine ⟨⟨howned₁, upper_congr hentries' hs.upper,
        fun i hi hi' => plain_congr hentries' (hs.plain i hi hi'), hcache₁, ?_⟩, harena₁, ?_,
        fun q hq => ?_, fun x hx => ?_⟩
      · rw [hcounts₁]
        exact hcounted _ fun q hq hmq hne => (hmapped₁ q hq).2 ⟨hmq, fun heq => hne heq hone⟩
      · rw [hcounts₁]
        exact hcounts'
      · rw [hmapped₁ q hq]
        refine and_congr_right fun _ => not_congr ⟨fun heq => ?_, fun hr => by omega⟩
        rw [heq]
        exact ⟨by omega, hone⟩
      · rw [hsame', htranslate hs.upper x fun heq => hx ⟨by omega, by rw [heq]; exact hone⟩]
    by_cases hflush : w.shootdown (4096 * p) = false
    · rw [if_pos hflush]
      exact ⟨false, _, rfl, hfinal _ howned hs.cache rfl ⟨rfl, rfl⟩ rfl rfl⟩
    rw [if_neg hflush]
    simp only [Option.map_some, Nat.mul_div_cancel _ (show 0 < 4096 by decide)]
    have hrelease := releaseUserFrame_owned
      (s := { s with machine := m₁, counts := (s.counts.dec (4096 * p)).2 })
      howned hs.cache huse hroom
    exact ⟨flushed, _, rfl, hfinal _ hrelease.1 hrelease.2.1 hrelease.2.2.1 hrelease.2.2.2.1
      hrelease.2.2.2.2.1 hrelease.2.2.2.2.2⟩
  · rw [if_pos (by simp [hone])]
    refine ⟨flushed, _, rfl, ⟨hs.owned, hs.upper, hs.plain, hs.cache,
      hcounted _ fun q _ hm _ => hm⟩, ⟨rfl, rfl⟩, hcounts', fun q hq => ?_, fun _ _ => rfl⟩
    refine (and_iff_left fun hr => hone ?_).symm
    rw [show p = q by omega]
    exact hr.2

theorem unmapPages_unmaps (hs : s.Good kernel)
    (huser : ∀ q, i ≤ q → q < i + n → UserPage q) (flushed : Bool) :
    ∃ flushed' s', (List.range' i n).foldlM (fun s p => unmapPage w s (4096 * p)) (flushed, s)
      = .ok (flushed', s') ∧ Unmaps kernel i n s s' := by
  induction n generalizing i s flushed with
  | zero =>
    refine ⟨flushed, s, rfl, hs, ⟨rfl, rfl⟩, fun q => ?_, fun q _ => ?_, fun _ _ => rfl⟩
    · rw [if_neg (by omega)]
    · exact (and_iff_left fun hr => by omega).symm
  | succ n ih =>
    obtain ⟨flushed₁, s₁, hfirst, hun⟩ :=
      unmapPage_unmaps hs (huser i (Nat.le_refl i) (by omega)) flushed
    obtain ⟨flushed₂, s₂, hrest, hun'⟩ := ih (i := i + 1) hun.good
      (fun q hq hq' => huser q (by omega) (by omega)) flushed₁
    refine ⟨flushed₂, s₂, ?_, hun.trans hun'⟩
    rw [range'_succ, foldlM_cons, hfirst, ok_bind, hrest]

end Vm

end Felix.Memory
