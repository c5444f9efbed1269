import Felix.Io.PtyInput

/-!
# When a terminal blocks

For each side of a pseudo terminal, the condition under which a read blocks and the one
under which a write of one byte does.

A read of a slave that is not in canonical mode returns whatever is queued as soon as there
is something.  It therefore returns the `VMIN` bytes that the reader asks for only when as
many are queued at that time: `read_returns_vmin_iff`.
-/

namespace Felix.Io

namespace Pty

variable {p : Pty} {n : Nat} {nonblock background : Bool} {clock : Kernel.Clock} {b : UInt8}

/-! ## Reads that are not in canonical mode -/

/-- A read that is not in canonical mode waits neither for bytes nor for a time. -/
def Polls (p : Pty) : Prop := p.termios.cc vmin = 0 ∧ p.termios.cc vtime = 0

theorem tryReadInner_raw (hraw : p.termios.canonical = false) : p.tryReadInner .slave n =
      (p.toSlave.take n, decide (p.masterRefs = 0), { p with toSlave := p.toSlave.drop n }) := by
  simp [tryReadInner, hraw]

theorem vmin_eq_zero (hn : 0 < n) :
    min (p.termios.cc vmin).toNat n = 0 ↔ p.termios.cc vmin = 0 := by
  rw [← UInt8.toNat_inj, UInt8.toNat_zero]
  omega

theorem vtime_eq_zero : (p.termios.cc vtime).toNat * 100 = 0 ↔ p.termios.cc vtime = 0 := by
  rw [← UInt8.toNat_inj, UInt8.toNat_zero]
  omega

/-- The deadline of a read lies in the future. -/
theorem not_satAdd64_le {ms : Nat} (hms : ms ≠ 0) :
    ¬ Kernel.satAdd64 clock.uptimeMs ms ≤ clock.uptimeMs := by
  have hlt := Kernel.uptimeMs_lt clock
  unfold Kernel.satAdd64
  omega

/-- A read returns what is queued, and blocks only when that is nothing. -/
theorem readRaw_fst (hraw : p.termios.canonical = false) :
    (p.readRaw n nonblock clock).1 = .done (p.toSlave.take n) ∨
      ((p.readRaw n nonblock clock).1 = .wouldBlock ∧ nonblock = false ∧ p.masterRefs ≠ 0 ∧
        p.toSlave.take n = []) := by
  unfold readRaw
  rw [tryReadInner_raw hraw]
  dsimp only
  split
  · exact .inl rfl
  split
  · exact .inl rfl
  split
  · exact .inl rfl
  rename_i hpolls _ hopen
  simp only [not_or, Bool.not_eq_true] at hpolls
  simp only [decide_eq_true_eq] at hopen
  by_cases hbytes : p.toSlave.take n = []
  · rw [if_pos hbytes]
    generalize Option.any _ _ = late
    cases late with
    | true => exact .inl rfl
    | false => exact .inr ⟨rfl, hpolls.1, hopen, hbytes⟩
  · rw [if_neg hbytes, ite_self]
    exact .inl rfl

theorem readRaw_of_nil (hraw : p.termios.canonical = false) (hn : 0 < n) (hnil : p.toSlave = [])
    (hopen : p.masterRefs ≠ 0) : (p.readRaw n false clock).1 = .wouldBlock ↔ ¬ p.Polls := by
  unfold readRaw Polls
  rw [tryReadInner_raw hraw, hnil]
  simp only [Bool.false_eq_true, vmin_eq_zero hn, vtime_eq_zero, ne_eq, hopen]
  by_cases htime : p.termios.cc vtime = 0
  · by_cases hmin : p.termios.cc vmin = 0 <;> simp [htime, hmin]
  have hlate : ¬ Kernel.satAdd64 clock.uptimeMs _ ≤ clock.uptimeMs :=
    not_satAdd64_le (mt vtime_eq_zero.1 htime)
  by_cases hmin : p.termios.cc vmin = 0 <;> simp [htime, hmin, hlate]

theorem ptyRead_slave_raw (hraw : p.termios.canonical = false) (hn : 0 < n)
    (hback : background = false) :
    (ptyRead .slave n nonblock background clock (some p)).1 = (p.readRaw n nonblock clock).1 := by
  have hne : n ≠ 0 := Nat.pos_iff_ne_zero.1 hn
  simp [ptyRead, hne, hback, hraw]

/-- A slave read in non-canonical mode that returns something while the master is open returns
`VMIN` bytes, or as many as fit into the buffer, exactly when as many are queued at the time
of the call or nothing is.  This is so whatever `VTIME` is. -/
theorem read_returns_vmin_iff (p : Pty) (n : Nat) (nonblock background : Bool)
    (clock : Kernel.Clock) (hraw : p.termios.canonical = false) (hn : 0 < n) :
    (∀ bytes, (ptyRead .slave n nonblock background clock (some p)).1 = .done bytes →
        0 < bytes.length → p.masterRefs ≠ 0 → min (p.termios.cc vmin).toNat n ≤ bytes.length)
      ↔ background = true ∨ p.masterRefs = 0 ∨ p.toSlave = [] ∨
        min (p.termios.cc vmin).toNat n ≤ p.toSlave.length := by
  cases hback : background with
  | true =>
    have hne : n ≠ 0 := Nat.pos_iff_ne_zero.1 hn
    simp [ptyRead, hne]
  | false =>
    rw [ptyRead_slave_raw hraw hn rfl]
    simp only [Bool.false_eq_true, false_or]
    have hlength : 0 < (p.toSlave.take n).length ↔ p.toSlave ≠ [] := by
      simp [List.length_pos_iff, hn]
    have htake : min (p.termios.cc vmin).toNat n ≤ (p.toSlave.take n).length ↔
        min (p.termios.cc vmin).toNat n ≤ p.toSlave.length := by
      rw [List.length_take]
      omega
    rcases readRaw_fst hraw with hdone | ⟨hblock, -, -, hnil⟩
    · rw [hdone]
      constructor
      · intro h
        tauto
      · intro h bytes hbytes hpos hopen
        cases hbytes
        rw [hlength] at hpos
        simpa [hopen, hpos] using h
    · have hempty : p.toSlave = [] := by
        rw [hnil] at hlength
        by_contra hne
        exact Nat.lt_irrefl 0 (hlength.2 hne)
      rw [hblock]
      exact ⟨fun _ => .inr (.inl hempty), fun _ _ hbytes => (nomatch hbytes)⟩

/-- A terminal that is not in canonical mode, with three bytes queued and `VMIN` 2. -/
def threeQueued : Pty :=
  { new with
    toSlave := [0x61, 0x62, 0x63]
    termios := { new.termios with canonical := false, cc := fun i => if i = vmin then 2 else 0 } }

theorem read_returns_vmin_threeQueued :
    (ptyRead .slave 16 false false ⟨0, 1⟩ (some threeQueued)).1 = .done [0x61, 0x62, 0x63] ∧
    ∀ bytes, (ptyRead .slave 16 false false ⟨0, 1⟩ (some threeQueued)).1 = .done bytes →
      0 < bytes.length → threeQueued.masterRefs ≠ 0 →
        min (threeQueued.termios.cc vmin).toNat 16 ≤ bytes.length :=
  ⟨by decide, (read_returns_vmin_iff threeQueued 16 false false ⟨0, 1⟩ rfl (by decide)).2
    (.inr (.inr (.inr (by decide))))⟩

/-- One byte is queued and the reader asks for two. -/
theorem oneQueued_returns_one : ¬ ∀ bytes, (ptyRead .slave 16 false false ⟨0, 1⟩
        (some { threeQueued with toSlave := [0x61] })).1 = .done bytes →
      0 < bytes.length → ({ threeQueued with toSlave := [0x61] } : Pty).masterRefs ≠ 0 →
        min (threeQueued.termios.cc vmin).toNat 16 ≤ bytes.length := by
  intro h
  exact absurd (h [0x61] (by decide) (by decide) (by decide)) (by decide)

/-! ## When a call blocks -/

theorem ptyRead_raw_blocks (hraw : p.termios.canonical = false) (hn : 0 < n) :
    (ptyRead .slave n false background clock (some p)).1 = .wouldBlock ↔
      background = false ∧ p.toSlave = [] ∧ p.masterRefs ≠ 0 ∧ ¬ p.Polls := by
  cases background with
  | true =>
    have hne : n ≠ 0 := Nat.pos_iff_ne_zero.1 hn
    simp [ptyRead, hne]
  | false =>
    rw [ptyRead_slave_raw hraw hn rfl]
    by_cases hidle : p.toSlave = [] ∧ p.masterRefs ≠ 0
    · rw [readRaw_of_nil hraw hn hidle.1 hidle.2]
      simp [hidle.1, hidle.2]
    have hfst : (p.readRaw n false clock).1 = _ ∨ _ := readRaw_fst hraw
    rcases hfst with hdone | ⟨-, -, hopen, hnil⟩
    · rw [hdone]
      tauto
    · refine absurd ⟨?_, hopen⟩ hidle
      simpa [Nat.pos_iff_ne_zero.1 hn] using hnil

theorem ptyRead_master_blocks (hn : 0 < n) :
    (ptyRead .master n false background clock (some p)).1 = .wouldBlock ↔
      p.toMaster = [] ∧ p.slaveRefs ≠ 0 := by
  have hne : n ≠ 0 := Nat.pos_iff_ne_zero.1 hn
  simp only [ptyRead, readRecord, tryReadInner]
  by_cases hnil : p.toMaster = [] <;> by_cases hclosed : p.slaveRefs = 0 <;>
    simp [hclosed, hne]

/-- A write of one byte blocks when the byte is not taken. -/
theorem writeLoop_one_blocks {side : PtySide} :
    (p.writeLoop side false [b] 0).1 = .wouldBlock ↔ ∃ r, p.writeByte side b = some (false, r) := by
  cases hbyte : p.writeByte side b with
  | none => simp [writeLoop, hbyte]
  | some turn =>
    obtain ⟨taken, signal, p'⟩ := turn
    cases taken <;> simp [writeLoop, hbyte]

theorem writeByte_slave_full : (∃ r, p.writeByte .slave b = some (false, r)) ↔
      p.masterRefs ≠ 0 ∧ ptyBuf < p.toMaster.length +
        (if p.termios.opost ∧ p.termios.onlcr ∧ b = 0x0a then 2 else 1) := by
  simp only [writeByte]
  split
  · rename_i hclosed
    simp [hclosed]
  rename_i hopen
  split
  · split
    · rename_i hfull
      simp [hopen, hfull]
    · rename_i hroom
      simpa [hopen] using hroom
  split
  · rename_i hfull
    simpa [hopen, Nat.lt_succ_iff] using hfull
  · rename_i hroom
    simpa [hopen, Nat.succ_le_iff] using hroom

theorem writeByte_master_full : (∃ r, p.writeByte .master b = some (false, r)) ↔
      p.slaveRefs ≠ 0 ∧ p.termios.canonical = false ∧ (p.termios.key b).sig = none ∧
        ptyBuf ≤ p.toSlave.length := by
  obtain ⟨hsig, toMaster, heffect⟩ := masterInputByte_eq p b
  simp only [writeByte, hsig, heffect, press_termios]
  split
  · rename_i hclosed
    simp [hclosed]
  rename_i hopen
  cases hcanonical : p.termios.canonical with
  | true => simp
  | false =>
    cases hsig' : (p.termios.key b).sig with
    | some sig => simp
    | none =>
      obtain ⟨c, hkey⟩ := TermiosState.key_raw hcanonical hsig'
      by_cases hroom : p.toSlave.length < ptyBuf
      · simp [hkey, press, hcanonical, hroom]
      · simp [hkey, press, hcanonical, hroom, hopen, Nat.le_of_not_lt hroom]

theorem ptyWrite_slave_blocks : (ptyWrite .slave [b] false background (some p)).1 = .wouldBlock ↔
      ¬ (p.termios.tostop = true ∧ background = true) ∧ p.masterRefs ≠ 0 ∧
        ptyBuf < p.toMaster.length +
          (if p.termios.opost ∧ p.termios.onlcr ∧ b = 0x0a then 2 else 1) := by
  rw [← writeByte_slave_full, ← writeLoop_one_blocks]
  by_cases hback : p.termios.tostop = true ∧ background = true <;> simp [ptyWrite, hback]

theorem ptyWrite_master_blocks : (ptyWrite .master [b] false background (some p)).1 = .wouldBlock ↔
      p.slaveRefs ≠ 0 ∧ p.termios.canonical = false ∧ (p.termios.key b).sig = none ∧
        ptyBuf ≤ p.toSlave.length := by
  rw [← writeByte_master_full, ← writeLoop_one_blocks]
  simp [ptyWrite]

end Pty

end Felix.Io
