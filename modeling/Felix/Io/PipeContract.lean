import Felix.Base.Ring
import Felix.Base.Runs
import Felix.Io.Pipe

/-!
# A pipe is a queue

`Pipe.contents` is the list of the bytes in a pipe.  A read takes bytes from its front and
a write appends some at its end, so that the bytes that were read from a pipe and those
that are in it are together the bytes that were written.

`Traced` is the table of pipes with two lists for each slot: the bytes that were accepted
by writes and those that were returned by reads, since the pipe was created.  `PipeOp.Fifo`
is what one expects of a call, and `pipe_calls_fifo` says that it holds at every step of
every run.
-/

namespace Felix.Io

open Function List

namespace Pipe

/-- The bytes in the pipe, the oldest one first. -/
def contents (p : Pipe) : List UInt8 := ringList pipeBufSize p.buf p.tail p.len

/-- The indices of the ring fit together, and a pipe that is not in use has no ends. -/
structure Wf (p : Pipe) : Prop where
  tail_lt : p.tail < pipeBufSize
  len_le : p.len ≤ pipeBufSize
  head_eq : p.head = (p.tail + p.len) % pipeBufSize
  closed : p.inUse = false → p.readers = 0 ∧ p.writers = 0

variable {p : Pipe}

@[simp] theorem length_contents : p.contents.length = p.len := length_ringList

theorem wf_empty : Wf empty := ⟨by decide, by decide, by decide, fun _ => ⟨rfl, rfl⟩⟩

/-! ## One byte -/

theorem contents_pop (h : p.Wf) (hlen : 0 < p.len) :
    p.contents = p.buf p.tail :: p.pop.contents := by
  obtain ⟨n, hn⟩ : ∃ n, p.len = n + 1 := ⟨p.len - 1, by omega⟩
  unfold contents pop
  rw [hn]
  exact ringList_succ h.tail_lt

theorem wf_pop (h : p.Wf) (hlen : 0 < p.len) : p.pop.Wf := by
  refine ⟨Nat.mod_lt _ (by decide), ?_, ?_, h.closed⟩
  · exact Nat.le_trans (Nat.sub_le ..) h.len_le
  · show p.head = ((p.tail + 1) % pipeBufSize + (p.len - 1)) % pipeBufSize
    rw [h.head_eq, Nat.mod_add_mod]
    congr 1
    omega

theorem contents_push (h : p.Wf) (hlen : p.len < pipeBufSize) (b : UInt8) :
    (p.push b).contents = p.contents ++ [b] := by
  unfold push
  rw [h.head_eq]
  exact ringList_push hlen b

theorem wf_push (h : p.Wf) (hlen : p.len < pipeBufSize) (b : UInt8) : (p.push b).Wf := by
  refine ⟨h.tail_lt, hlen, ?_, h.closed⟩
  show (p.head + 1) % pipeBufSize = (p.tail + (p.len + 1)) % pipeBufSize
  rw [h.head_eq, Nat.mod_add_mod, Nat.add_assoc]

/-! ## The loops -/

/-- What a transfer does not change. -/
def SameEnds (p p' : Pipe) : Prop :=
  p'.readers = p.readers ∧ p'.writers = p.writers ∧ p'.inUse = p.inUse

theorem readLoop_spec (n : Nat) (h : p.Wf) :
    (p.readLoop n).1 = p.contents.take n ∧ (p.readLoop n).2.contents = p.contents.drop n ∧
      (p.readLoop n).2.Wf ∧ SameEnds p (p.readLoop n).2 := by
  induction n generalizing p with
  | zero => exact ⟨rfl, rfl, h, rfl, rfl, rfl⟩
  | succ n ih =>
    unfold readLoop
    split
    · rename_i hlen
      obtain ⟨hbytes, hcontents, hwf, hends⟩ := ih (wf_pop h hlen)
      rw [contents_pop h hlen, hbytes]
      exact ⟨rfl, hcontents, hwf, hends⟩
    have hnil : p.contents = [] := length_eq_zero_iff.1 (by rw [length_contents]; omega)
    rw [hnil]
    exact ⟨rfl, rfl, h, rfl, rfl, rfl⟩

theorem writeLoop_spec (bytes : List UInt8) (h : p.Wf) :
    (writeLoop bytes p).1 = min bytes.length (pipeBufSize - p.len) ∧
      (writeLoop bytes p).2.contents = p.contents ++ bytes.take (writeLoop bytes p).1 ∧
      (writeLoop bytes p).2.Wf ∧ SameEnds p (writeLoop bytes p).2 := by
  induction bytes generalizing p with
  | nil => exact ⟨by simp [writeLoop], by simp [writeLoop], h, rfl, rfl, rfl⟩
  | cons b bytes ih =>
    unfold writeLoop
    split
    · rename_i hlen
      obtain ⟨hcount, hcontents, hwf, hends⟩ := ih (wf_push h hlen b)
      refine ⟨?_, ?_, hwf, hends⟩
      · rw [hcount]
        show min bytes.length (pipeBufSize - (p.len + 1)) + 1 = min (bytes.length + 1) _
        omega
      · rw [hcontents, contents_push h hlen, take_succ_cons, append_assoc, singleton_append]
    refine ⟨?_, by simp, h, rfl, rfl, rfl⟩
    omega

end Pipe

/-! ## Calls -/

inductive PipeOp where
  | create
  | addReader (id : Nat)
  | addWriter (id : Nat)
  | closeReader (id : Nat)
  | closeWriter (id : Nat)
  | tryRead (id count : Nat)
  | tryWrite (id : Nat) (bytes : List UInt8)

/-- What a call returns. -/
inductive PipeRet where
  | unit
  | slot (id : Option Nat)
  | read (ret : Nat) (bytes : List UInt8)
  | wrote (ret : Nat)

/-- The pipes, and for each slot the bytes that were accepted and those that were returned
since its pipe was created. -/
structure Traced where
  pipes : Pipes
  accepted : Nat → List UInt8
  returned : Nat → List UInt8

/-- The state of the kernel when it starts. -/
def Traced.boot : Traced := ⟨fun _ => .empty, fun _ => [], fun _ => []⟩

namespace PipeOp

/-- A step of a run.  The result `usize::MAX` of a write says that no byte was accepted. -/
def step (op : PipeOp) (s : Traced) : Res (PipeRet × Traced) :=
  match op with
  | .create =>
    match pipeCreate s.pipes with
    | (none, pipes) => .ok (.slot none, { s with pipes })
    | (some id, pipes) => .ok (.slot (some id), {
        pipes
        accepted := update s.accepted id []
        returned := update s.returned id [] })
  | .addReader id => do
    let pipes ← pipeAddReader id s.pipes
    .ok (.unit, { s with pipes })
  | .addWriter id => do
    let pipes ← pipeAddWriter id s.pipes
    .ok (.unit, { s with pipes })
  | .closeReader id => .ok (.unit, { s with pipes := pipeCloseReader id s.pipes })
  | .closeWriter id => .ok (.unit, { s with pipes := pipeCloseWriter id s.pipes })
  | .tryRead id count =>
    match pipeTryRead id count s.pipes with
    | (ret, bytes, pipes) => .ok (.read ret bytes, { s with
        pipes
        returned := update s.returned id (s.returned id ++ bytes) })
  | .tryWrite id bytes =>
    match pipeTryWrite id bytes s.pipes with
    | (ret, pipes) => .ok (.wrote ret, { s with
        pipes
        accepted := update s.accepted id (s.accepted id ++
          (if ret = usizeMax then [] else bytes.take ret)) })

/-- There is a pipe in the slot. -/
def Live (s : Traced) (id : Nat) : Prop := id < maxPipes ∧ (s.pipes id).inUse = true

/-- What the result of a call says about the state before it. -/
def Answer (op : PipeOp) (s : Traced) (r : PipeRet) : Prop :=
  match op, r with
  | .create, .slot (some id) => (s.pipes id).readers = 0 ∧ (s.pipes id).writers = 0
  | .tryRead id count, .read ret bytes =>
    bytes.length = (if ret = usizeMax then 0 else ret) ∧
      (Live s id → 0 < count → ret = 0 →
        s.accepted id = s.returned id ∧ (s.pipes id).writers = 0)
  | .tryWrite id bytes, .wrote ret =>
    (ret = usizeMax ∨ ret ≤ bytes.length) ∧
      (Live s id → bytes ≠ [] → ret = 0 → (s.pipes id).readers = 0)
  | _, _ => True

/-- After the call the bytes that were read are a prefix of those that were written, and
the rest fits into the buffer.  The end of the file is reported only for an empty pipe
without writers, a broken pipe only without readers, and a slot is used again only when
both counts are zero. -/
def Fifo (op : PipeOp) (s : Traced) : Prop :=
  ∀ r s', op.step s = .ok (r, s') →
    (∀ id, ∃ unread, s'.accepted id = s'.returned id ++ unread ∧ unread.length ≤ pipeBufSize) ∧
    op.Answer s r

end PipeOp

/-! ## The invariant -/

namespace Traced

/-- The bytes in a pipe are those that were accepted and not returned yet. -/
def Inv (s : Traced) : Prop :=
  ∀ id, (s.pipes id).Wf ∧ s.accepted id = s.returned id ++ (s.pipes id).contents

variable {s : Traced} {id : Nat} {p : Pipe}

theorem inv_boot : boot.Inv := fun _ => ⟨Pipe.wf_empty, rfl⟩

theorem Inv.unread (h : s.Inv) (id : Nat) :
    ∃ unread, s.accepted id = s.returned id ++ unread ∧ unread.length ≤ pipeBufSize :=
  ⟨(s.pipes id).contents, (h id).2, by rw [Pipe.length_contents]; exact (h id).1.len_le⟩

theorem Inv.update (h : s.Inv) {accepted returned : List UInt8} (hwf : p.Wf)
    (hbytes : accepted = returned ++ p.contents) :
    Inv ⟨Function.update s.pipes id p, Function.update s.accepted id accepted,
      Function.update s.returned id returned⟩ := by
  intro i
  by_cases hi : i = id
  · subst hi
    simp only [update_self]
    exact ⟨hwf, hbytes⟩
  · simp only [update_of_ne hi]
    exact h i

theorem Inv.ends (h : s.Inv) (hwf : p.Wf) (hbytes : p.contents = (s.pipes id).contents) :
    Inv { s with pipes := Function.update s.pipes id p } := by
  have hrest : s.accepted id = s.returned id ++ p.contents := by
    rw [hbytes]
    exact (h id).2
  have hupdate := @Inv.update s id p h _ _ hwf hrest
  rwa [update_eq_self, update_eq_self] at hupdate

theorem Inv.maybeFree (h : s.Inv) : Inv { s with pipes := Io.maybeFree id s.pipes } := by
  unfold Io.maybeFree
  split
  · rename_i hcounts
    have hwf := (h id).1
    exact h.ends ⟨hwf.tail_lt, hwf.len_le, hwf.head_eq, fun _ => hcounts⟩ rfl
  · exact h

theorem Inv.counts (h : s.Inv) (huse : (s.pipes id).inUse = true) (readers writers : Nat) :
    Inv { s with pipes := Function.update s.pipes id { s.pipes id with readers, writers } } := by
  have hwf := (h id).1
  refine h.ends ⟨hwf.tail_lt, hwf.len_le, hwf.head_eq, fun hnot => ?_⟩ rfl
  exact absurd hnot (by rw [huse]; decide)

end Traced

namespace PipeOp

variable {s s' : Traced} {r : PipeRet} {id : Nat}

theorem create_spec (h : s.Inv) (hrun : PipeOp.create.step s = .ok (r, s')) :
    s'.Inv ∧ PipeOp.create.Answer s r := by
  unfold step pipeCreate at hrun
  cases hfind : (List.range maxPipes).find? fun i => !(s.pipes i).inUse with
  | none =>
    rw [hfind] at hrun
    cases hrun
    exact ⟨h, trivial⟩
  | some id =>
    rw [hfind] at hrun
    cases hrun
    have hfree := find?_some hfind
    refine ⟨h.update ⟨by decide, by decide, by decide, fun hnot => (nomatch hnot)⟩ rfl, ?_⟩
    exact (h id).1.closed (by simpa using hfree)

theorem tryRead_spec {count : Nat} (h : s.Inv)
    (hrun : (PipeOp.tryRead id count).step s = .ok (r, s')) :
    s'.Inv ∧ (PipeOp.tryRead id count).Answer s r := by
  -- a call that transfers nothing
  have hnone : ∀ ret, (ret = usizeMax ∨ ret = 0) → (Live s id → 0 < count → ret = 0 →
        s.accepted id = s.returned id ∧ (s.pipes id).writers = 0) →
      Traced.Inv { s with returned := update s.returned id (s.returned id ++ []) } ∧
        (PipeOp.tryRead id count).Answer s (.read ret []) := by
    intro ret hret hanswer
    rw [append_nil, update_eq_self]
    refine ⟨h, ?_, hanswer⟩
    rcases hret with rfl | rfl
    · rfl
    · rfl
  dsimp only [step] at hrun
  generalize heq : pipeTryRead id count s.pipes = result at hrun
  obtain ⟨ret, bytes, pipes⟩ := result
  cases hrun
  unfold pipeTryRead at heq
  split at heq
  · cases heq
    refine hnone 0 (.inr rfl) fun hlive hcount _ => ?_
    have := hlive.1
    omega
  split at heq
  · rename_i hclosed
    cases heq
    refine hnone 0 (.inr rfl) fun hlive _ _ => ?_
    exact absurd hlive.2 (by rw [hclosed]; decide)
  split at heq
  · rename_i hempty
    cases heq
    have hnil : (s.pipes id).contents = [] :=
      length_eq_zero_iff.1 (by rw [Pipe.length_contents, hempty])
    refine hnone _ ?_ fun _ _ hzero => ?_
    · split
      · exact .inr rfl
      · exact .inl rfl
    split at hzero
    · rename_i hwriters
      refine ⟨?_, hwriters⟩
      rw [(h id).2, hnil, append_nil]
    · cases hzero
  · obtain ⟨hbytes, hcontents, hwf, _⟩ := Pipe.readLoop_spec count (h id).1
    cases heq
    have hlength : ((s.pipes id).readLoop count).1.length = min count (s.pipes id).len := by
      rw [hbytes, length_take, Pipe.length_contents]
    have hle := (h id).1.len_le
    have hmax : usizeMax = 2 ^ 32 - 1 := rfl
    have hsize : pipeBufSize = 4096 := rfl
    refine ⟨?_, ?_, fun _ hcount hzero => ?_⟩
    · have hrest : s.accepted id = s.returned id ++ ((s.pipes id).readLoop count).1 ++
          ((s.pipes id).readLoop count).2.contents := by
        rw [hcontents, hbytes, append_assoc, take_append_drop]
        exact (h id).2
      have hupdate := @Traced.Inv.update s id _ h _ _ hwf hrest
      rwa [update_eq_self] at hupdate
    · rw [if_neg (by omega)]
    · omega

theorem tryWrite_spec {bytes : List UInt8} (h : s.Inv)
    (hrun : (PipeOp.tryWrite id bytes).step s = .ok (r, s')) :
    s'.Inv ∧ (PipeOp.tryWrite id bytes).Answer s r := by
  have hnone : ∀ ret, (ret = usizeMax ∨ ret = 0) →
      (Live s id → bytes ≠ [] → ret = 0 → (s.pipes id).readers = 0) →
      Traced.Inv { s with accepted := update s.accepted id (s.accepted id ++
        (if ret = usizeMax then [] else bytes.take ret)) } ∧
        (PipeOp.tryWrite id bytes).Answer s (.wrote ret) := by
    intro ret hret hanswer
    have hnil : (if ret = usizeMax then [] else bytes.take ret) = [] := by
      rcases hret with rfl | rfl
      · rfl
      · rfl
    rw [hnil, append_nil, update_eq_self]
    refine ⟨h, hret.imp_right fun hzero => ?_, hanswer⟩
    rw [hzero]
    exact Nat.zero_le _
  dsimp only [step] at hrun
  generalize heq : pipeTryWrite id bytes s.pipes = result at hrun
  obtain ⟨ret, pipes⟩ := result
  cases hrun
  unfold pipeTryWrite at heq
  split at heq
  · rename_i hbad
    cases heq
    refine hnone 0 (.inr rfl) fun hlive hbytes _ => ?_
    rcases hbad with hid | hnil
    · exact absurd hlive.1 (by omega)
    · exact absurd hnil hbytes
  rename_i hgood
  split at heq
  · rename_i hclosed
    cases heq
    refine hnone 0 (.inr rfl) fun hlive _ _ => ?_
    exact absurd hlive.2 (by rw [hclosed]; decide)
  split at heq
  · rename_i hreaders
    cases heq
    exact hnone 0 (.inr rfl) fun _ _ _ => hreaders
  split at heq
  · cases heq
    exact hnone usizeMax (.inl rfl) fun _ _ hzero => (nomatch hzero)
  obtain ⟨hcount, hcontents, hwf, _⟩ := Pipe.writeLoop_spec bytes (h id).1
  cases heq
  have hle := (h id).1.len_le
  have hmax : usizeMax = 2 ^ 32 - 1 := rfl
  have hsize : pipeBufSize = 4096 := rfl
  have hbytes : 0 < bytes.length := length_pos_iff.2 fun hnil => hgood (.inr hnil)
  refine ⟨?_, .inr (by omega), fun _ _ hzero => by omega⟩
  rw [if_neg (by omega)]
  have hrest : s.accepted id ++ bytes.take (Pipe.writeLoop bytes (s.pipes id)).1 =
      s.returned id ++ (Pipe.writeLoop bytes (s.pipes id)).2.contents := by
    rw [hcontents, (h id).2, append_assoc]
  have hupdate := @Traced.Inv.update s id _ h _ _ hwf hrest
  rwa [update_eq_self] at hupdate

theorem step_spec (op : PipeOp) (h : s.Inv) (hrun : op.step s = .ok (r, s')) :
    s'.Inv ∧ op.Answer s r := by
  cases op with
  | create => exact create_spec h hrun
  | tryRead id count => exact tryRead_spec h hrun
  | tryWrite id bytes => exact tryWrite_spec h hrun
  | addReader id =>
    obtain ⟨pipes, hpipes, heq⟩ := Res.bind_eq_ok.1 hrun
    cases heq
    refine ⟨?_, trivial⟩
    unfold pipeAddReader at hpipes
    split at hpipes
    · rename_i huse
      obtain ⟨readers, _, heq⟩ := Res.bind_eq_ok.1 hpipes
      cases heq
      exact h.counts huse.2 readers (s.pipes id).writers
    · cases hpipes
      exact h
  | addWriter id =>
    obtain ⟨pipes, hpipes, heq⟩ := Res.bind_eq_ok.1 hrun
    cases heq
    refine ⟨?_, trivial⟩
    unfold pipeAddWriter at hpipes
    split at hpipes
    · rename_i huse
      obtain ⟨writers, _, heq⟩ := Res.bind_eq_ok.1 hpipes
      cases heq
      exact h.counts huse.2 (s.pipes id).readers writers
    · cases hpipes
      exact h
  | closeReader id =>
    cases hrun
    refine ⟨?_, trivial⟩
    unfold pipeCloseReader
    split
    · exact h
    rename_i hgood
    push Not at hgood
    exact (h.counts (by simpa using hgood.2) _ _).maybeFree
  | closeWriter id =>
    cases hrun
    refine ⟨?_, trivial⟩
    unfold pipeCloseWriter
    split
    · exact h
    rename_i hgood
    push Not at hgood
    exact (h.counts (by simpa using hgood.2) _ _).maybeFree

/-- Every run of calls on pipes from the start of the kernel treats each pipe as a queue. -/
theorem pipe_calls_fifo (ops : List PipeOp) : Every step Fifo ops Traced.boot := by
  refine every_of_inv Traced.Inv
    (fun op s r s' h _ hrun => (step_spec op h hrun).1) (fun op s h _ => ?_) Traced.inv_boot
    (every_of_forall fun _ _ => trivial)
  intro r s' hrun
  obtain ⟨hinv, hanswer⟩ := step_spec op h hrun
  exact ⟨hinv.unread, hanswer⟩

end PipeOp

end Felix.Io
