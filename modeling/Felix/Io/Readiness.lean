import Felix.Io.PipeContract
import Felix.Io.PtyBlocking
import Felix.Io.PtyState

/-!
# Poll readiness

`fd_poll_revents` against `sys_read` and `sys_write`, for descriptors of pipes and of both
ends of pseudo terminals.  `Devices` is the table of pipes and that of terminals, and a
state is reachable when calls on them lead to it.

A descriptor that is not blocking never waits, so the question is whether a call on a
blocking one would.  The answer of poll is the right one for each end of a pipe and for the
reader of a master.  For the other ends `poll_matches_iff` says exactly when it is.
-/

namespace Felix.Io

inductive PipeEnd where
  | read
  | write
deriving DecidableEq, Repr

/-- `FileDescriptor`, for pipes and pseudo terminals. -/
inductive FileDescriptor where
  | pipe (pipeId : Nat) (pipeEnd : PipeEnd)
  | pty (ptyId : Nat) (side : PtySide)
deriving DecidableEq, Repr

/-- The pipes, with the bytes that went through them, and the pseudo terminals. -/
structure Devices where
  pipes : Traced
  ptys : Nat → Option Pty

def Devices.boot : Devices := ⟨.boot, fun _ => none⟩

def maxPtys : Nat := 8

/-- `alloc_pty` without the controlling terminals. -/
def allocPty (ptys : Nat → Option Pty) : Option Nat × (Nat → Option Pty) :=
  match (List.range maxPtys).find? fun id => (ptys id).isNone with
  | none => (none, ptys)
  | some id => (some id, Function.update ptys id (some .new))

/-! ## The calls -/

def pollin : BitVec 16 := 0x0001
def pollout : BitVec 16 := 0x0004
def pollerr : BitVec 16 := 0x0008
def pollhup : BitVec 16 := 0x0010

def fdPollRevents (desc : FileDescriptor) (events : BitVec 16) (d : Devices) : BitVec 16 :=
  match desc with
  | .pipe id .read =>
    if events &&& pollin ≠ 0 ∧ pipeReadable id d.pipes.pipes then pollin else 0
  | .pipe id .write =>
    if events &&& pollout ≠ 0 ∧ pipeWritable id d.pipes.pipes then pollout else 0
  | .pty id side =>
    (if events &&& pollin ≠ 0 ∧ ptyReadable side (d.ptys id) then pollin else 0) |||
      (if events &&& pollout ≠ 0 ∧ ptyWritable side (d.ptys id) then pollout else 0)

/-- The result of a system call. -/
inductive SysRet where
  | ret (value : Nat)
  /-- `BLOCK_AND_RESTART`. -/
  | blockAndRestart
deriving DecidableEq, Repr

/-- The result of a transfer of a terminal as that of the system call. -/
def PtyRet.toSysRet {α : Type} (count : α → Nat) (nonblock : Bool) : PtyRet α → SysRet
  | .done a => .ret (count a)
  | .background => .ret usizeMax
  | .wouldBlock => if nonblock then .ret usizeMax else .blockAndRestart

/-- The result of a transfer of a pipe as that of the system call. -/
def pipeSysRet (nonblock : Bool) (result : Nat) : SysRet :=
  if nonblock then .ret result else if result = usizeMax then .blockAndRestart else .ret result

/-- What `sys_read` returns. -/
def sysRead (desc : FileDescriptor) (count : Nat) (nonblock background : Bool)
    (clock : Kernel.Clock) (d : Devices) : SysRet :=
  match desc with
  | .pipe id .read => pipeSysRet nonblock (pipeTryRead id count d.pipes.pipes).1
  | .pipe _ .write => .ret 0
  | .pty id side =>
    (ptyRead side count nonblock background clock (d.ptys id)).1.toSysRet List.length nonblock

/-- What `sys_write` returns. -/
def sysWrite (desc : FileDescriptor) (data : List UInt8) (nonblock background : Bool)
    (d : Devices) : SysRet :=
  match desc with
  | .pipe _ .read => .ret 0
  | .pipe id .write => pipeSysRet nonblock (pipeTryWrite id data d.pipes.pipes).1
  | .pty id side =>
    (ptyWrite side data nonblock background (d.ptys id)).1.toSysRet (fun n => n) nonblock

/-! ## Reachable states -/

/-- A call that changes a device. -/
inductive DeviceOp where
  | pipe (op : PipeOp)
  | allocPty
  | pty (id : Nat) (op : PtyOp)

/-- One call. -/
def DeviceOp.step : DeviceOp → Devices → Res Devices
  | .pipe op, d => do
    let (_, pipes) ← op.step d.pipes
    .ok { d with pipes }
  | .allocPty, d => .ok { d with ptys := (Io.allocPty d.ptys).2 }
  | .pty id op, d => .ok { d with ptys := Function.update d.ptys id (op.apply (d.ptys id)) }

namespace Devices

/-- Calls lead from the start of the kernel to the state. -/
inductive Reachable : Devices → Prop
  | boot : Reachable .boot
  | step {d d' : Devices} (h : Reachable d) (op : DeviceOp) (hrun : op.step d = .ok d') :
    Reachable d'

/-- The pipes and the terminals are well formed. -/
structure Inv (d : Devices) : Prop where
  pipes : d.pipes.Inv
  ptys : ∀ id, ∀ p ∈ d.ptys id, p.Wf

theorem Inv.update {d : Devices} (h : d.Inv) {id : Nat} {p : Option Pty} (hp : ∀ q ∈ p, q.Wf) :
    Inv { d with ptys := Function.update d.ptys id p } := by
  refine ⟨h.pipes, fun i q hq => ?_⟩
  dsimp only at hq
  by_cases hi : i = id
  · rw [hi, Function.update_self] at hq
    exact hp q hq
  · rw [Function.update_of_ne hi] at hq
    exact h.ptys i q hq

theorem Inv.step {d d' : Devices} (h : d.Inv) (op : DeviceOp) (hrun : op.step d = .ok d') :
    d'.Inv := by
  cases op with
  | pipe op =>
    obtain ⟨⟨r, pipes⟩, hstep, hd⟩ := Res.bind_eq_ok.1 hrun
    cases hd
    exact ⟨(op.step_spec h.pipes hstep).1, h.ptys⟩
  | allocPty =>
    cases hrun
    unfold Io.allocPty
    split
    · exact h
    · exact h.update fun q hq => by cases hq; exact Pty.wf_new
  | pty id op =>
    cases hrun
    exact h.update (op.wf_apply (h.ptys id))

theorem Reachable.inv {d : Devices} (h : d.Reachable) : d.Inv := by
  induction h with
  | boot => exact ⟨Traced.inv_boot, fun _ _ hp => (nomatch hp)⟩
  | step _ op hrun ih => exact ih.step op hrun

end Devices

/-! ## What poll reports -/

/-- The answer says that a read does not wait. -/
def ReportsIn (revents : BitVec 16) : Prop := revents &&& (pollin ||| pollhup) ≠ 0

/-- The answer says that a write does not wait. -/
def ReportsOut (revents : BitVec 16) : Prop := revents &&& (pollout ||| pollerr ||| pollhup) ≠ 0

/-- Poll reports that the descriptor is readable exactly when a read with a buffer of `n`
bytes does not block. -/
def ReadMatches (desc : FileDescriptor) (events : BitVec 16) (n : Nat) (background : Bool)
    (clock : Kernel.Clock) (d : Devices) : Prop :=
  ReportsIn (fdPollRevents desc events d) ↔
    sysRead desc n false background clock d ≠ .blockAndRestart

/-- Poll reports that the descriptor is writable exactly when a write of the byte does not
block. -/
def WriteMatches (desc : FileDescriptor) (events : BitVec 16) (b : UInt8) (background : Bool)
    (d : Devices) : Prop :=
  ReportsOut (fdPollRevents desc events d) ↔
    sysWrite desc [b] false background d ≠ .blockAndRestart

section Reports

variable {id : Nat} {side : PtySide} {events : BitVec 16} {d : Devices} {a b : Prop}
  [Decidable a] [Decidable b]

theorem reportsIn_flags :
    ReportsIn ((if a then pollin else 0) ||| (if b then pollout else 0)) ↔ a := by
  unfold ReportsIn
  by_cases ha : a <;> by_cases hb : b <;> simp only [ha, hb] <;> decide

theorem reportsOut_flags :
    ReportsOut ((if a then pollin else 0) ||| (if b then pollout else 0)) ↔ b := by
  unfold ReportsOut
  by_cases ha : a <;> by_cases hb : b <;> simp only [ha, hb] <;> decide

theorem fdPollRevents_pipe_read : fdPollRevents (.pipe id .read) events d =
      (if events &&& pollin ≠ 0 ∧ pipeReadable id d.pipes.pipes then pollin else 0) |||
        (if False then pollout else 0) := by
  simp [fdPollRevents]

theorem fdPollRevents_pipe_write : fdPollRevents (.pipe id .write) events d =
      (if False then pollin else 0) |||
        (if events &&& pollout ≠ 0 ∧ pipeWritable id d.pipes.pipes then pollout else 0) := by
  simp [fdPollRevents]

end Reports

/-! ## When the calls block -/

section Blocks

variable {id n : Nat} {pipes : Pipes} {b : UInt8}

theorem pipeTryRead_blocks (h : (pipes id).Wf) (hn : 0 < n) :
    (pipeTryRead id n pipes).1 = usizeMax ↔ pipeReadable id pipes = false := by
  have hne : n ≠ 0 := Nat.pos_iff_ne_zero.1 hn
  have hlength : ((pipes id).readLoop n).1.length ≠ usizeMax := by
    rw [(Pipe.readLoop_spec n h).1, List.length_take, Pipe.length_contents]
    have := h.len_le
    simp only [pipeBufSize, usizeMax] at this ⊢
    omega
  unfold pipeTryRead pipeReadable
  by_cases hid : maxPipes ≤ id
  · simp [hid, usizeMax]
  by_cases hfree : (pipes id).inUse = false
  · simp [hne, hfree, usizeMax]
  by_cases hempty : (pipes id).len = 0
  · by_cases hwriters : (pipes id).writers = 0 <;>
      simp [hid, hne, hfree, hempty, usizeMax]
  · simp [hid, hne, hfree, hempty, hlength]

theorem pipeTryWrite_blocks (h : (pipes id).Wf) :
    (pipeTryWrite id [b] pipes).1 = usizeMax ↔ pipeWritable id pipes = false := by
  have hlength : (Pipe.writeLoop [b] (pipes id)).1 ≠ usizeMax := by
    rw [(Pipe.writeLoop_spec [b] h).1]
    simp only [List.length_singleton, usizeMax]
    omega
  unfold pipeTryWrite pipeWritable
  by_cases hid : maxPipes ≤ id
  · simp [hid, usizeMax]
  by_cases hfree : (pipes id).inUse = false
  · simp [hfree, usizeMax]
  by_cases hreaders : (pipes id).readers = 0
  · simp [hfree, hreaders, usizeMax]
  by_cases hfull : (pipes id).len = pipeBufSize
  · simp [hid, hfree, hreaders, hfull]
  · have hroom : (pipes id).len < pipeBufSize := Nat.lt_of_le_of_ne h.len_le hfull
    simp [hid, hfree, hreaders, hfull, hlength, hroom]

end Blocks

namespace Pty

/-- There is something to read. -/
def HasInput (p : Pty) : Prop :=
  if p.termios.canonical then p.canonicalRecords ≠ [] ∨ p.eofPending = true else p.toSlave ≠ []

variable {p : Pty} {n : Nat} {background : Bool} {clock : Kernel.Clock} {b : UInt8}

theorem ptyReadable_slave : ptyReadable .slave (some p) = true ↔ p.HasInput ∨ p.masterRefs = 0 := by
  unfold HasInput
  cases hcanonical : p.termios.canonical <;> simp [ptyReadable, hcanonical]

/-- A read of lines blocks only when there are none. -/
theorem ptyRead_canonical_blocks (h : p.Wf) (hcanonical : p.termios.canonical = true) (hn : 0 < n) :
    (ptyRead .slave n false background clock (some p)).1 = .wouldBlock ↔
      background = false ∧ ¬ p.HasInput ∧ p.masterRefs ≠ 0 := by
  have hne : n ≠ 0 := Nat.pos_iff_ne_zero.1 hn
  simp only [HasInput]
  cases hrecords : p.canonicalRecords with
  | nil =>
    cases background <;> cases heof : p.eofPending <;> by_cases hclosed : p.masterRefs = 0 <;>
      simp [ptyRead, readRecord, tryReadInner, hne, hcanonical, hrecords, heof]
  | cons remaining records =>
    have hbytes : p.toSlave.take (min n remaining) ≠ [] := by
      have hpos := h.positive remaining (by rw [hrecords]; exact List.mem_cons_self)
      apply List.ne_nil_of_length_pos
      rw [h.length_take hrecords n]
      omega
    cases background <;>
      simp [ptyRead, readRecord, tryReadInner, hne, hcanonical, hrecords, hbytes]

/-- A slave read blocks when there is nothing to read, the master is open, and the reader is
to wait. -/
theorem ptyRead_slave_blocks (h : p.Wf) (hn : 0 < n) :
    (ptyRead .slave n false background clock (some p)).1 = .wouldBlock ↔
      background = false ∧ ¬ p.HasInput ∧ p.masterRefs ≠ 0 ∧
        ¬ (p.termios.canonical = false ∧ p.Polls) := by
  cases hcanonical : p.termios.canonical with
  | true =>
    rw [ptyRead_canonical_blocks h hcanonical hn]
    simp
  | false =>
    rw [ptyRead_raw_blocks hcanonical hn]
    simp [HasInput, hcanonical]

theorem ptyReadable_master (hn : 0 < n) : ptyReadable .master (some p) = true ↔
      (ptyRead .master n false background clock (some p)).1 ≠ .wouldBlock := by
  rw [ne_eq, ptyRead_master_blocks hn]
  by_cases hnil : p.toMaster = [] <;> simp [ptyReadable, hnil]

theorem ptyReadable_slave_iff (h : p.Wf) (hn : 0 < n) : (ptyReadable .slave (some p) = true ↔
        (ptyRead .slave n false background clock (some p)).1 ≠ .wouldBlock) ↔
      (background = true ∨ (p.termios.canonical = false ∧ p.Polls) →
        p.HasInput ∨ p.masterRefs = 0) := by
  rw [ne_eq, ptyRead_slave_blocks h hn, ptyReadable_slave, ← Bool.not_eq_true]
  tauto

theorem ptyWritable_master : (ptyWritable .master (some p) = true ↔
        (ptyWrite .master [b] false background (some p)).1 ≠ .wouldBlock) ↔
      p.slaveRefs ≠ 0 ∧ (p.toSlave.length < ptyBuf ∨
        (p.termios.canonical = false ∧ (p.termios.key b).sig = none)) := by
  rw [ne_eq, ptyWrite_master_blocks]
  simp only [ptyWritable, Bool.and_eq_true, decide_eq_true_eq, Nat.pos_iff_ne_zero]
  have hfull : ptyBuf ≤ p.toSlave.length ↔ ¬ p.toSlave.length < ptyBuf := Nat.not_lt.symm
  tauto

theorem ptyWritable_slave : (ptyWritable .slave (some p) = true ↔
        (ptyWrite .slave [b] false background (some p)).1 ≠ .wouldBlock) ↔
      p.masterRefs ≠ 0 ∧ if p.termios.tostop ∧ background then p.toMaster.length < ptyBuf
        else ¬ (p.termios.opost ∧ p.termios.onlcr ∧ b = 0x0a ∧ p.toMaster.length + 1 = ptyBuf) := by
  rw [ne_eq, ptyWrite_slave_blocks]
  simp only [ptyWritable, Bool.and_eq_true, decide_eq_true_eq, Nat.pos_iff_ne_zero]
  by_cases hclosed : p.masterRefs = 0
  · simp [hclosed]
  by_cases hback : p.termios.tostop = true ∧ background = true
  · simp [hback]
  by_cases hexpands : p.termios.opost = true ∧ p.termios.onlcr = true ∧ b = 0x0a
  · simp only [hback, hexpands]
    simp
    omega
  have hnever : ¬ (p.termios.opost = true ∧ p.termios.onlcr = true ∧ b = 0x0a ∧
      p.toMaster.length + 1 = ptyBuf) := fun h => hexpands ⟨h.1, h.2.1, h.2.2.1⟩
  simp only [hback, hexpands, hnever, if_false]
  simp only [hclosed, ne_eq, not_false_eq_true, true_and, iff_true]
  omega

end Pty

/-! ## Where poll is right -/

/-- Where the answer of poll about a read is right. -/
def ReadOk (desc : FileDescriptor) (background : Bool) (d : Devices) : Prop :=
  match desc with
  | .pipe _ .read => True
  | .pipe _ .write => False
  | .pty id .master => (d.ptys id).isSome
  | .pty id .slave =>
    ∃ p, d.ptys id = some p ∧
      (background = true ∨ (p.termios.canonical = false ∧ p.Polls) →
        p.HasInput ∨ p.masterRefs = 0)

/-- Where the answer of poll about a write is right. -/
def WriteOk (desc : FileDescriptor) (b : UInt8) (background : Bool) (d : Devices) : Prop :=
  match desc with
  | .pipe _ .read => False
  | .pipe _ .write => True
  | .pty id .master =>
    ∃ p, d.ptys id = some p ∧ p.slaveRefs ≠ 0 ∧
      (p.toSlave.length < ptyBuf ∨
        (p.termios.canonical = false ∧ (p.termios.key b).sig = none))
  | .pty id .slave =>
    ∃ p, d.ptys id = some p ∧ p.masterRefs ≠ 0 ∧
      if p.termios.tostop ∧ background then p.toMaster.length < ptyBuf
      else ¬ (p.termios.opost ∧ p.termios.onlcr ∧ b = 0x0a ∧ p.toMaster.length + 1 = ptyBuf)

theorem toSysRet_blocks {α : Type} {count : α → Nat} {r : PtyRet α} :
    r.toSysRet count false ≠ .blockAndRestart ↔ r ≠ .wouldBlock := by
  cases r <;> simp [PtyRet.toSysRet]

theorem pipeSysRet_blocks {r : Nat} : pipeSysRet false r ≠ .blockAndRestart ↔ r ≠ usizeMax := by
  unfold pipeSysRet
  by_cases h : r = usizeMax <;> simp

/-- In every reachable state, for a descriptor of a pipe or of an end of a terminal, poll
reports what a read or a write of one byte would do exactly under these conditions. -/
theorem poll_matches_iff {d : Devices} (h : d.Reachable) (desc : FileDescriptor)
    (events : BitVec 16) (n : Nat) (b : UInt8) (background : Bool) (clock : Kernel.Clock)
    (hin : events &&& pollin ≠ 0) (hout : events &&& pollout ≠ 0) (hn : 0 < n) :
    (ReadMatches desc events n background clock d ↔ ReadOk desc background d) ∧
      (WriteMatches desc events b background d ↔ WriteOk desc b background d) := by
  have hinv := h.inv
  unfold ReadMatches WriteMatches
  rcases desc with ⟨id, pipeEnd⟩ | ⟨id, side⟩
  · cases pipeEnd with
    | read =>
      rw [fdPollRevents_pipe_read, reportsIn_flags, reportsOut_flags, and_iff_right hin]
      constructor
      · simp only [sysRead, pipeSysRet_blocks, ne_eq, pipeTryRead_blocks (hinv.pipes id).1 hn]
        simp [ReadOk]
      · simp [sysWrite, WriteOk]
    | write =>
      rw [fdPollRevents_pipe_write, reportsIn_flags, reportsOut_flags, and_iff_right hout]
      constructor
      · simp [sysRead, ReadOk]
      · simp only [sysWrite, pipeSysRet_blocks, ne_eq, pipeTryWrite_blocks (hinv.pipes id).1]
        simp [WriteOk]
  · simp only [fdPollRevents, reportsIn_flags, reportsOut_flags, and_iff_right hin,
      and_iff_right hout, sysRead, sysWrite, toSysRet_blocks]
    cases hp : d.ptys id with
    | none =>
      cases side <;> simp [ptyReadable, ptyWritable, ptyRead, ptyWrite, ReadOk, WriteOk, hp]
    | some p =>
      have hwf : p.Wf := hinv.ptys id p hp
      cases side with
      | master =>
        simp only [ReadOk, WriteOk, hp, Option.some.injEq, exists_eq_left']
        exact ⟨iff_of_true (Pty.ptyReadable_master hn) rfl, Pty.ptyWritable_master⟩
      | slave =>
        simp only [ReadOk, WriteOk, hp, Option.some.injEq, exists_eq_left']
        exact ⟨Pty.ptyReadable_slave_iff hwf hn, Pty.ptyWritable_slave⟩

/-- The kernel after one terminal was opened. -/
def oneTerminal : Devices := { Devices.boot with ptys := (allocPty Devices.boot.ptys).2 }

theorem reachable_oneTerminal : oneTerminal.Reachable := .step .boot .allocPty rfl

theorem poll_matches_oneTerminal :
    ReadMatches (.pty 0 .slave) (pollin ||| pollout) 16 false ⟨0, 1⟩ oneTerminal ∧
      WriteMatches (.pty 0 .slave) (pollin ||| pollout) 0x61 false oneTerminal := by
  obtain ⟨hread, hwrite⟩ := poll_matches_iff reachable_oneTerminal (.pty 0 .slave)
    (pollin ||| pollout) 16 0x61 false ⟨0, 1⟩ (by decide) (by decide) (by decide)
  refine ⟨hread.2 ⟨.new, rfl, ?_⟩, hwrite.2 ⟨.new, rfl, by decide, by decide⟩⟩
  rintro (hback | ⟨hraw, -⟩)
  · cases hback
  · cases hraw

/-- The same terminal after its slave was closed. -/
def slaveClosed : Devices :=
  { oneTerminal with
    ptys := Function.update oneTerminal.ptys 0
      ((PtyOp.closeRef .slave).apply (oneTerminal.ptys 0)) }

/-- A write at the master then returns 0 at once, and poll does not say so. -/
theorem slaveClosed_write_not_reported : slaveClosed.Reachable ∧
      ¬ WriteMatches (.pty 0 .master) (pollin ||| pollout) 0x61 false slaveClosed := by
  refine ⟨.step reachable_oneTerminal (.pty 0 (.closeRef .slave)) rfl, fun h => ?_⟩
  have hreturns : sysWrite (.pty 0 .master) [0x61] false false slaveClosed ≠ .blockAndRestart := by
    decide
  exact h.2 hreturns (by decide)

end Felix.Io
