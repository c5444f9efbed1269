import Felix.Vfs.PathCalls

/-!
# Path calls reach the path that was passed

What a call hands to the file system is the path of the first 255 bytes, read as
text.  These are the bytes that were passed exactly if those are valid UTF-8 and not
longer (`lossy_take_eq_iff`).  A call with another string shows in a file system that
grants everything.
-/

namespace Felix.Path

open List

open Fd (FileDescriptor)

/-! ## Bytes read as text -/

section

variable {q q' : Utf8} {pending l : List UInt8}

theorem run_cons_eq_some {b : UInt8} :
    Utf8.run q (b :: l) = some q' ↔ ∃ q₁, q.step b = some q₁ ∧ Utf8.run q₁ l = some q' := by
  rw [Utf8.run, foldlM_cons]
  exact Option.bind_eq_some_iff

theorem run_append_eq_some {m : List UInt8} :
    Utf8.run q (l ++ m) = some q' ↔ ∃ q₁, Utf8.run q l = some q₁ ∧ Utf8.run q₁ m = some q' := by
  rw [Utf8.run, foldlM_append]
  exact Option.bind_eq_some_iff

theorem run_replacement_append (l : List UInt8) :
    Utf8.run .start (replacement ++ l) = Utf8.run .start l := rfl

theorem start_of_run_replacement (h : Utf8.run q replacement = some .start) : q = .start := by
  revert h
  cases q <;> decide

theorem lossyLoop_step_start {b : UInt8} (rest : List UInt8) (h : q.step b = some .start) :
    lossyLoop q pending (b :: rest) = pending ++ b :: lossyLoop .start [] rest := by
  rw [lossyLoop, h]

theorem lossyLoop_step {b : UInt8} (rest : List UInt8) (h : q.step b = some q')
    (hq : q' ≠ .start) :
    lossyLoop q pending (b :: rest) = lossyLoop q' (pending ++ [b]) rest := by
  rw [lossyLoop, h]
  cases q' <;> first | rfl | exact absurd rfl hq

theorem pending_start : (Utf8.start = .start) ↔ ([] : List UInt8) = [] := iff_of_true rfl rfl

theorem pending_snoc (b : UInt8) (hq : q ≠ .start) : q = .start ↔ pending ++ [b] = [] :=
  iff_of_false hq (append_ne_nil_of_right_ne_nil _ (cons_ne_nil _ _))

/-- Whole characters are copied. -/
theorem lossyLoop_append (hpending : q = .start ↔ pending = [])
    (hrun : Utf8.run q l = some .start) (m : List UInt8) :
    lossyLoop q pending (l ++ m) = pending ++ l ++ lossy m := by
  induction l generalizing q pending with
  | nil =>
    cases hrun
    rw [hpending.1 rfl]
    rfl
  | cons b l ih =>
    obtain ⟨q₁, hstep, hrest⟩ := run_cons_eq_some.1 hrun
    by_cases hq : q₁ = .start
    · subst hq
      rw [cons_append, lossyLoop_step_start _ hstep, ih pending_start hrest]
      simp
    · rw [cons_append, lossyLoop_step _ hstep hq, ih (pending_snoc b hq) hrest]
      simp

theorem lossy_of_run (hrun : Utf8.run .start l = some .start) : lossy l = l := by
  have hsame := lossyLoop_append pending_start hrun []
  rw [append_nil] at hsame
  exact hsame.trans (append_nil _)

/-- When the bytes end inside a character, what there is of it is replaced. -/
theorem lossyLoop_of_run (hpending : q = .start ↔ pending = [])
    (hrun : Utf8.run q l = some q') (hq' : q' ≠ .start) :
    ∃ whole cut, pending ++ l = whole ++ cut ∧ cut ≠ [] ∧
      lossyLoop q pending l = whole ++ replacement := by
  induction l generalizing q pending with
  | nil =>
    cases hrun
    refine ⟨[], pending, append_nil _, mt hpending.2 hq', ?_⟩
    rw [lossyLoop, if_neg hq']
    rfl
  | cons b l ih =>
    obtain ⟨q₁, hstep, hrest⟩ := run_cons_eq_some.1 hrun
    by_cases hq : q₁ = .start
    · subst hq
      obtain ⟨whole, cut, hl, hcut, hloop⟩ := ih pending_start hrest
      refine ⟨pending ++ b :: whole, cut, ?_, hcut, ?_⟩
      · rw [append_assoc, cons_append, ← hl]
        rfl
      · rw [lossyLoop_step_start _ hstep, hloop, append_assoc]
        rfl
    · obtain ⟨whole, cut, hl, hcut, hloop⟩ := ih (pending_snoc b hq) hrest
      refine ⟨whole, cut, ?_, hcut, ?_⟩
      · rw [← hl, append_assoc]
        rfl
      · rw [lossyLoop_step _ hstep hq, hloop]

/-- The result is text. -/
theorem run_lossyLoop (l : List UInt8) (hpending : Utf8.run .start pending = some q) :
    Utf8.run .start (lossyLoop q pending l) = some .start := by
  induction l generalizing q pending with
  | nil =>
    rw [lossyLoop]
    split <;> rfl
  | cons b l ih =>
    have hafter : ∀ {q₁ : Utf8}, q.step b = some q₁ →
        Utf8.run .start (pending ++ [b]) = some q₁ := fun hstep =>
      run_append_eq_some.2 ⟨q, hpending, run_cons_eq_some.2 ⟨_, hstep, rfl⟩⟩
    have hbegin : Utf8.run .start (replacement ++ lossyLoop .start [] l) = some .start := by
      rw [run_replacement_append]
      exact ih rfl
    rcases hstep : q.step b with _ | q₁
    · rw [lossyLoop, hstep]
      dsimp only
      split
      · exact hbegin
      rw [run_replacement_append]
      split
      · rename_i hfirst
        exact run_cons_eq_some.2 ⟨.start, hfirst, ih rfl⟩
      · rename_i q₁ _ hfirst
        exact ih (run_cons_eq_some.2 ⟨q₁, hfirst, rfl⟩)
      · exact hbegin
    by_cases hq : q₁ = .start
    · subst hq
      rw [lossyLoop_step_start _ hstep, append_cons, run_append_eq_some]
      exact ⟨.start, hafter hstep, ih rfl⟩
    · rw [lossyLoop_step _ hstep hq]
      exact ih (hafter hstep)

end

/-- The path is text and fits the copy.  A path that is one or two bytes longer fits as well if
it ends in U+FFFD: the character that is cut off is the one that replaces it. -/
def Copied (bytes : List UInt8) : Prop :=
  validUtf8 bytes = true ∧
    (bytes.length ≤ 255 ∨ bytes.length ≤ 257 ∧ replacement <:+ bytes)

variable {mem : Bytes} {bytes : List UInt8}

theorem lossy_take_eq_iff : lossy (bytes.take 255) = bytes ↔ Copied bytes := by
  constructor
  · intro h
    have hvalid : Utf8.run .start bytes = some .start := by
      rw [← h]
      exact run_lossyLoop _ rfl
    refine ⟨decide_eq_true hvalid, or_iff_not_imp_left.2 fun hlong => ?_⟩
    have hlen : (bytes.take 255).length = 255 := length_take_of_le (Nat.le_of_not_le hlong)
    obtain ⟨q, hrun, -⟩ : ∃ q, Utf8.run .start (bytes.take 255) = some q ∧
        Utf8.run q (bytes.drop 255) = some .start := by
      rwa [← run_append_eq_some, take_append_drop]
    by_cases hq : q = .start
    · subst hq
      rw [lossy_of_run hrun] at h
      rw [h] at hlen
      exact absurd hlen.le hlong
    · obtain ⟨whole, cut, hl, hcut, hloop⟩ := lossyLoop_of_run pending_start hrun hq
      have hbytes : bytes = whole ++ replacement := h.symm.trans hloop
      have hcount := congrArg length hl
      have hpos := length_pos_of_ne_nil hcut
      rw [nil_append, hlen, length_append] at hcount
      refine ⟨?_, whole, hbytes.symm⟩
      rw [hbytes, length_append, show replacement.length = 3 from rfl]
      omega
  · rintro ⟨hvalid, hfits⟩
    have hrun : Utf8.run .start bytes = some .start := of_decide_eq_true hvalid
    by_cases hshort : bytes.length ≤ 255
    · rw [take_of_length_le hshort, lossy_of_run hrun]
    · obtain ⟨hlen, whole, rfl⟩ := hfits.resolve_left hshort
      obtain ⟨q, hwhole, hlast⟩ := run_append_eq_some.1 hrun
      cases start_of_run_replacement hlast
      rw [length_append, show replacement.length = 3 from rfl] at hshort hlen
      rw [take_append, take_of_length_le (by omega : whole.length ≤ 255), lossy,
        lossyLoop_append pending_start hwhole, nil_append]
      obtain hk | hk : 255 - whole.length = 1 ∨ 255 - whole.length = 2 := by omega
      · rw [hk]
        rfl
      · rw [hk]
        rfl

/-! ## The copy -/

/-- A NUL-terminated string in memory. -/
structure Passed (mem : Bytes) (ptr : Nat) (bytes : List UInt8) : Prop where
  ptr_ne : ptr ≠ 0
  bytes_ne : ∀ b ∈ bytes, b ≠ 0
  holds : ∀ i, i < bytes.length → mem (ptr + i) = bytes.getD i 0
  nul : mem (ptr + bytes.length) = 0

theorem copyLoop_eq {left addr : Nat} (hbytes : ∀ b ∈ bytes, b ≠ 0)
    (hmem : ∀ i, i < bytes.length → mem (addr + i) = bytes.getD i 0)
    (hnul : mem (addr + bytes.length) = 0) : copyLoop mem left addr = bytes.take left := by
  induction bytes generalizing left addr with
  | nil =>
    cases left with
    | zero => rfl
    | succ left => exact if_pos hnul
  | cons b bytes ih =>
    obtain ⟨hb, hrest⟩ := forall_mem_cons.1 hbytes
    cases left with
    | zero => rfl
    | succ left =>
      have hfirst : mem addr = b := hmem 0 (Nat.zero_lt_succ _)
      have htail : copyLoop mem left (addr + 1) = bytes.take left := by
        refine ih hrest (fun i hi => ?_) ?_
        · rw [Nat.add_assoc, Nat.add_comm 1]
          exact hmem (i + 1) (Nat.succ_lt_succ hi)
        · rw [Nat.add_assoc, Nat.add_comm 1]
          exact hnul
      rw [copyLoop, hfirst, if_neg hb, htail, take_succ_cons]

theorem copyCstrFromUser_eq {ptr : Nat}
    (h : Passed mem ptr bytes) : copyCstrFromUser mem ptr = lossy (bytes.take 255) := by
  rw [copyCstrFromUser, if_neg h.ptr_ne, copyLoop_eq h.bytes_ne h.holds h.nul]

theorem map_copyCstrFromUser {ptrs : List Nat} {strings : List (List UInt8)}
    (h : List.Forall₂ (Passed mem) ptrs strings) :
    ptrs.map (copyCstrFromUser mem) = strings.map fun bytes => lossy (bytes.take 255) := by
  induction h with
  | nil => rfl
  | cons hfirst _ ih => rw [map_cons, map_cons, copyCstrFromUser_eq hfirst, ih]

theorem replacement_append_ne (l : List UInt8) : replacement ++ l ≠ [] :=
  cons_ne_nil _ _

theorem lossyLoop_ne_nil {pending : List UInt8} : ∀ {l : List UInt8} {q : Utf8},
    q ≠ .start ∨ l ≠ [] → lossyLoop q pending l ≠ [] := by
  intro l
  induction l generalizing pending with
  | nil =>
    intro q h
    rw [lossyLoop, if_neg (h.resolve_right fun hne => hne rfl)]
    exact cons_ne_nil _ _
  | cons b l ih =>
    intro q _
    rw [lossyLoop]
    split
    · simp
    · rename_i q' hstart _
      exact ih (Or.inl fun heq => hstart (by assumption))
    split
    · exact replacement_append_ne _
    · exact replacement_append_ne _

theorem lossy_take_eq_nil : lossy (bytes.take 255) = [] ↔ bytes = [] := by
  constructor
  · intro h
    by_contra hne
    refine lossyLoop_ne_nil (Or.inr ?_) h
    cases bytes with
    | nil => exact absurd rfl hne
    | cons b bytes => exact cons_ne_nil _ _
  · rintro rfl
    rfl

/-! ## The contract -/

/-- The strings that the handlers copy, and whose paths they use. -/
def PathOp.copies (mem : Bytes) (op : PathOp) : List (List UInt8) :=
  op.pointers.map (copyCstrFromUser mem)

variable {σ : Type} (cwd : Option (List UInt8)) {calls : List Call} {s : σ} {op : PathOp}

/-- The call failed and left the file system as it was, or it made its calls with the paths of
the strings that were passed; and no call is made with the path of a string that is not the one
passed. -/
structure Outcome.Right (strings copies : List (List UInt8)) (cwd : Option (List UInt8)) (s : σ)
    (out : Outcome σ) : Prop where
  reached : ((∃ e, out.result = .error e) ∧ out.fs = s) ∨
    ∀ c ∈ out.calls, c.paths = strings.map (resolveTaskPath cwd)
  unaltered : out.calls ≠ [] → copies = strings

section
variable {fs : FsApi σ} {caller : Caller} {calls : List Call} {s : σ} {path : List UInt8}
  {flags : Nat}

theorem install_calls (desc : FileDescriptor) : (install caller calls s desc).calls = calls := by
  unfold install
  split <;> rfl

theorem openInode_calls (inode : Option Nat) :
    (openInode fs caller calls s path flags inode).calls = calls := by
  unfold openInode
  split
  · rfl
  · dsimp only
    split <;> exact install_calls _

/-- Whatever `open` does, it does with the path. -/
theorem openFile_calls : ∀ c ∈ (openFile fs caller s path flags).calls, c.paths = [path] := by
  have hcalls : ∀ c ∈ [Call.isDir path, .resolvePath path], c.paths = [path] := by
    simp [Call.paths]
  have hcreated : ∀ c ∈ [Call.isDir path, .resolvePath path] ++
      [.createFile path, .resolvePath path], c.paths = [path] := by
    simp [Call.paths]
  unfold openFile
  split
  · have hdir : (openDir caller [.isDir path] s path flags).calls = [.isDir path] := by
      unfold openDir
      split
      · rfl
      split
      · rfl
      · exact install_calls _
    rw [hdir]
    simp [Call.paths]
  · split
    · simp [Call.paths]
    · dsimp only
      split
      · split
        · split
          · rw [openInode_calls]
            exact hcreated
          · simp [Call.paths]
        · exact hcalls
      split
      · rw [openInode_calls]
        exact hcreated
      · rw [openInode_calls]
        exact hcalls

theorem openTty_calls : ∀ c ∈ (openTty caller s).calls, c.paths = [devTty] := by
  unfold openTty
  split
  · simp
  split
  · rw [install_calls]
    simp [Call.paths]
  · simp

end

/-- The call makes its calls with the paths of the copies, unless a copy is empty: then
it fails at once. -/
structure Outcome.Uses (raws : List (List UInt8)) (cwd : Option (List UInt8)) (s : σ)
    (out : Outcome σ) : Prop where
  fails : [] ∈ raws → (∃ e, out.result = .error e) ∧ out.fs = s
  paths : ∀ c ∈ out.calls, c.paths = raws.map (resolveTaskPath cwd)
  silent : [] ∈ raws → out.calls = []

theorem uses_of_empty {raws : List (List UInt8)} {cwd : Option (List UInt8)} (e : Errno) :
    Outcome.Uses raws cwd s ⟨.error e, [], s, none⟩ :=
  ⟨fun _ => ⟨⟨e, rfl⟩, rfl⟩, fun _ hc => absurd hc not_mem_nil, fun _ => rfl⟩

theorem uses_of_ne {raws : List (List UInt8)} {cwd : Option (List UInt8)} {out : Outcome σ}
    (hraws : [] ∉ raws) (hpaths : ∀ c ∈ out.calls, c.paths = raws.map (resolveTaskPath cwd)) :
    out.Uses raws cwd s :=
  ⟨fun h => absurd h hraws, hpaths, fun h => absurd h hraws⟩

theorem nil_mem_pair {a b : List UInt8} : [] ∈ [a, b] ↔ a = [] ∨ b = [] := by
  rw [mem_cons, mem_singleton]
  exact or_congr eq_comm eq_comm

section
variable (fs : FsApi σ) (caller : Caller) (mem : Bytes) (s : σ)

theorem sysOpen_uses (ptr flags : Nat) :
    (sysOpen fs caller mem s ptr flags).Uses [copyCstrFromUser mem ptr] caller.cwd s := by
  unfold sysOpen
  dsimp only
  split
  · exact uses_of_empty _
  rename_i hraw
  refine uses_of_ne (fun hempty => hraw (mem_singleton.1 hempty).symm) ?_
  split
  · rename_i htty
    rw [map_singleton, htty]
    exact openTty_calls
  · exact openFile_calls

theorem sysChange_uses (change : σ → List UInt8 → Bool × σ) {call : List UInt8 → Call}
    (hcall : ∀ path, (call path).paths = [path]) (ptr : Nat) :
    (sysChange change call caller mem s ptr).Uses [copyCstrFromUser mem ptr] caller.cwd s := by
  unfold sysChange
  dsimp only
  split
  · exact uses_of_empty _
  rename_i hraw
  refine uses_of_ne (fun hempty => hraw (mem_singleton.1 hempty).symm) fun c hc => ?_
  rw [mem_singleton.1 hc, hcall]
  rfl

theorem sysRename_uses (old new : Nat) : (sysRename fs caller mem s old new).Uses
      [copyCstrFromUser mem old, copyCstrFromUser mem new] caller.cwd s := by
  unfold sysRename
  dsimp only
  split
  · exact uses_of_empty _
  rename_i hraw
  refine uses_of_ne (fun hempty => hraw (nil_mem_pair.1 hempty)) fun c hc => ?_
  rw [mem_singleton.1 hc]
  rfl

theorem run_uses (op : PathOp) :
    (op.run fs caller mem s).Uses (op.copies mem) caller.cwd s := by
  cases op with
  | «open» ptr flags => exact sysOpen_uses fs caller mem s ptr flags
  | unlink ptr => exact sysChange_uses caller mem s fs.removeFile (fun _ => rfl) ptr
  | rmdir ptr => exact sysChange_uses caller mem s fs.rmdir (fun _ => rfl) ptr
  | mkdir ptr => exact sysChange_uses caller mem s fs.mkdir (fun _ => rfl) ptr
  | rename old new => exact sysRename_uses fs caller mem s old new

end

/-- A file system without state in which every name is a directory, or every name is a
file, and every change succeeds. -/
def granting (directories : Bool) : FsApi Unit where
  isDir := fun _ _ => directories
  resolvePath := fun _ _ => some 0
  inodeSize := fun _ _ => 0
  deviceKind := fun _ => none
  createFile := fun _ _ => (true, ())
  removeFile := fun _ _ => (true, ())
  mkdir := fun _ _ => (true, ())
  rmdir := fun _ _ => (true, ())
  rename := fun _ _ _ => (.ok (), ())

/-- A caller to whom nothing is refused. -/
def granted (cwd : Option (List UInt8)) : Caller := ⟨cwd, some 0, true, some 3⟩

theorem openFile_calls_ne (path : List UInt8) (flags : Nat) :
    (openFile (granting false) (granted cwd) () path flags).calls ≠ [] := by
  change (if flagSet flags oDirectory = true then _ else _ : Outcome Unit).calls ≠ []
  split
  · exact cons_ne_nil _ _
  change (if _ then _ else _ : Outcome Unit).calls ≠ []
  split <;> rw [openInode_calls] <;> exact cons_ne_nil _ _

/-- There every call gets to the file system, unless a path is empty. -/
theorem run_granting (mem : Bytes) (hraw : [] ∉ op.copies mem) :
    (op.run (granting false) (granted cwd) mem ()).calls ≠ [] := by
  cases op with
  | «open» ptr flags =>
    have hne : copyCstrFromUser mem ptr ≠ [] := fun h => hraw (mem_singleton.2 h.symm)
    simp only [PathOp.run, sysOpen, if_neg hne]
    split
    · exact cons_ne_nil _ _
    · exact openFile_calls_ne cwd _ flags
  | unlink ptr | rmdir ptr | mkdir ptr =>
    have hne : copyCstrFromUser mem ptr ≠ [] := fun h => hraw (mem_singleton.2 h.symm)
    simp only [PathOp.run, sysUnlink, sysRmdir, sysMkdir, sysChange, if_neg hne]
    exact cons_ne_nil _ _
  | rename old new =>
    have hne : ¬ (copyCstrFromUser mem old = [] ∨ copyCstrFromUser mem new = []) := fun h =>
      hraw (nil_mem_pair.2 h)
    simp only [PathOp.run, sysRename, if_neg hne]
    exact cons_ne_nil _ _

/-- The strings are those that were passed exactly if each of them is text and fits. -/
theorem copies_eq_iff {strings : List (List UInt8)}
    (hpassed : List.Forall₂ (Passed mem) op.pointers strings) :
    op.copies mem = strings ↔ ∀ bytes ∈ strings, Copied bytes := by
  rw [PathOp.copies, map_copyCstrFromUser hpassed]
  constructor
  · intro h bytes hbytes
    exact lossy_take_eq_iff.1 (map_inj_left.1 (h.trans (map_id strings).symm) bytes hbytes)
  · intro h
    exact (map_inj_left.2 fun bytes hbytes => lossy_take_eq_iff.2 (h bytes hbytes)).trans
      (map_id strings)

/-- A call does what was asked, in every file system and for every caller in this working
directory, exactly if the paths that were passed are valid UTF-8 and fit the copy, or if one of
them is empty. -/
theorem path_calls_right_iff {mem : Bytes} {op : PathOp} {strings : List (List UInt8)}
    (hpassed : List.Forall₂ (Passed mem) op.pointers strings) (cwd : Option (List UInt8)) :
    (∀ (σ : Type) (fs : FsApi σ) (s : σ) (caller : Caller), caller.cwd = cwd →
      (op.run fs caller mem s).Right strings (op.copies mem) cwd s) ↔
    (∀ bytes ∈ strings, Copied bytes) ∨ [] ∈ strings := by
  have hempty : [] ∈ op.copies mem ↔ [] ∈ strings := by
    rw [PathOp.copies, map_copyCstrFromUser hpassed, mem_map]
    constructor
    · rintro ⟨bytes, hmem, hnil⟩
      rwa [lossy_take_eq_nil.1 hnil] at hmem
    · exact fun hmem => ⟨[], hmem, rfl⟩
  rw [← copies_eq_iff hpassed, ← hempty]
  constructor
  · intro h
    rw [or_iff_not_imp_right]
    intro hraw
    exact (h Unit (granting false) () (granted cwd) rfl).unaltered (run_granting cwd mem hraw)
  · rintro h σ fs s caller rfl
    have huses := run_uses fs caller mem s op
    rcases h with hsame | hnil
    · refine ⟨Or.inr fun c hc => ?_, fun _ => hsame⟩
      rw [huses.paths c hc, hsame]
    · refine ⟨Or.inl (huses.fails hnil), fun hcalls => ?_⟩
      exact absurd (huses.silent hnil) hcalls

/-- Memory that holds a string at address 1. -/
def memoryWith (bytes : List UInt8) : Bytes := fun k => bytes.getD (k - 1) 0

/-- The byte 0xFF is no text: `mkdir` creates a directory that is named U+FFFD.  A path of 256
bytes is cut: `unlink` removes the file whose name is one byte shorter. -/
theorem altered_paths_reach_file_system :
    ((sysMkdir (granting false) (granted none) (memoryWith [slash, 0xFF]) () 1).calls.map Call.paths
        = [[[slash, 0xEF, 0xBF, 0xBD]]] ∧
      (sysMkdir (granting false) (granted none) (memoryWith [slash, 0xFF]) () 1).result = .ok 0) ∧
    (sysUnlink (granting false) (granted none) (memoryWith (slash :: List.replicate 255 97)) () 1
        ).calls.map Call.paths = [[slash :: List.replicate 254 97]] ∧
      (sysUnlink (granting false) (granted none) (memoryWith (slash :: List.replicate 255 97)) () 1
        ).result = .ok 0 := by
  decide +kernel

/-- A rename of `/a` to a name that is one letter of two bytes. -/
theorem path_calls_right_iff_rename :
    ((PathOp.rename 1 4).run (granting false) (granted none)
        (memoryWith [slash, 97, 0, slash, 0xC3, 0xA9]) ()).Right
      [[slash, 97], [slash, 0xC3, 0xA9]]
      ((PathOp.rename 1 4).copies (memoryWith [slash, 97, 0, slash, 0xC3, 0xA9])) none () := by
  have hold : Passed (memoryWith [slash, 97, 0, slash, 0xC3, 0xA9]) 1 [slash, 97] :=
    ⟨by decide, by simp [slash], by decide, rfl⟩
  have hnew : Passed (memoryWith [slash, 97, 0, slash, 0xC3, 0xA9]) 4 [slash, 0xC3, 0xA9] :=
    ⟨by decide, by simp [slash], by decide, rfl⟩
  refine (path_calls_right_iff (.cons hold (.cons hnew .nil)) none).2 (.inl ?_) _ _ _ _ rfl
  rw [forall_mem_cons, forall_mem_singleton]
  exact ⟨⟨by decide, .inl (by decide)⟩, by decide, .inl (by decide)⟩

end Felix.Path
