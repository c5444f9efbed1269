import Felix.Base.Bytes
import Felix.Base.Runs

/-!
# The receive ring of the RTL8139

`Buf` stops a read outside of the receive buffer.  The device is a `Ring`: the buffer, the frames
that the driver has not taken yet, and the header of the first one.  A device that `Follows` the
protocol keeps them laid out.  Left out are the interrupt status and the log.
-/

namespace Felix.Rtl8139

def rxRing : Nat := 8192

def rxAlloc : Nat := rxRing + (16 + 1518)

/-- The size in the header of a frame that is still copied. -/
def rxEarly : Nat := 0xFFF0

/-- The driver, with the register `CAPR` of the device. -/
structure Nic where
  initialized : Bool
  rxOff : Nat
  capr : Nat

def setup : Nic := ⟨true, 0, 0xFFF0⟩

/-- The start of the header that follows `n` bytes. -/
def next (off n : Nat) : Nat := (off + n + 3) / 4 * 4 % rxRing

def Nic.skip (nic : Nic) (n : Nat) : Nic :=
  { nic with rxOff := next nic.rxOff n, capr := (next nic.rxOff n + 2 ^ 32 - 16) % 2 ^ 16 }

def recv (nic : Nic) (bufe : Bool) (rx : Bytes) (buf : Nat) : Res (Option (List UInt8) × Nic) :=
  if ¬ nic.initialized ∨ bufe then .ok (none, nic)
  else do
    let word ← Buf.word ⟨rxAlloc, rx⟩ nic.rxOff
    let size := word.toNat / 2 ^ 16
    if size = rxEarly ∨ size = 0 then .ok (none, nic)
    else if word.toNat % 2 = 0 ∨ size < 18 ∨ size > 1518 + 4 then .ok (none, nic.skip 4)
    else
      let bytes ← Buf.slice ⟨rxAlloc, rx⟩ (nic.rxOff + 4) (nic.rxOff + 4 + min (size - 4) buf)
      .ok (some bytes, nic.skip (size + 4))

structure Ring where
  mem : Bytes
  head : Nat
  unread : List (List UInt8)

/-- The device stores frames, or `recv` is called with a buffer of a given length. -/
inductive Event where
  | store (mem : Bytes) (frames : List (List UInt8))
  | recv (buf : Nat)

/-- The ring as a queue of frames. -/
def Ring.step : Event → Ring → Option (List UInt8) × Ring
  | .store mem frames, d => (none, ⟨mem, d.head, d.unread ++ frames⟩)
  | .recv buf, d => match d.unread with
    | [] => (none, d)
    | f :: fs => (some (f.take buf), ⟨d.mem, next d.head (f.length + 4 + 4), fs⟩)

def step (e : Event) (s : Nic × Ring) : Res (Option (List UInt8) × Nic × Ring) :=
  match e with
  | .store _ _ => .ok (none, s.1, (s.2.step e).2)
  | .recv buf => (recv s.1 s.2.unread.isEmpty s.2.mem buf).map fun (r, nic) =>
    (r, nic, (s.2.step e).2)

def start (mem : Bytes) : Nic × Ring := (setup, ⟨mem, 0, []⟩)

/-- Each frame lies behind its header. -/
def Laid (mem : Bytes) : Nat → List (List UInt8) → Prop
  | _, [] => True
  | off, f :: fs => (mem.get32 off).toNat % 2 = 1 ∧
    (mem.get32 off).toNat / 2 ^ 16 = f.length + 4 ∧ 18 ≤ f.length + 4 ∧ f.length + 4 ≤ 1522 ∧
    mem.toList (off + 4) f.length = f ∧ Laid mem (next off (f.length + 4 + 4)) fs

def Follows : Event → Nic × Ring → Prop
  | .store mem frames, (_, d) => Laid mem d.head (d.unread ++ frames)
  | .recv _, _ => True

/-- The result is that of the queue, and `CAPR` is 16 bytes before the first unread header. -/
def Delivers (e : Event) (s : Nic × Ring) : Prop :=
  ∃ nic, step e s = .ok ((s.2.step e).1, nic, (s.2.step e).2) ∧
    (nic.capr + 16) % 2 ^ 16 = (s.2.step e).2.head

variable {nic : Nic} {rx : Bytes} {buf : Nat} {e : Event} {s : Nic × Ring}

def Nic.Wf (nic : Nic) : Prop :=
  nic.initialized ∧ nic.rxOff < 8192 ∧ (nic.capr + 16) % 2 ^ 16 = nic.rxOff

theorem skip_wf (h : nic.Wf) (n : Nat) : (nic.skip n).Wf := by
  have hlt : next nic.rxOff n < 8192 := Nat.mod_lt _ (by decide)
  refine ⟨h.1, hlt, ?_⟩
  simp only [Nic.skip]
  omega

theorem inside (h : nic.Wf) (n : Nat) (hn : n ≤ 1518) : nic.rxOff + 4 + n ≤ rxAlloc := by
  obtain ⟨-, hlt, -⟩ := h
  unfold rxAlloc rxRing
  omega

/-- Whatever the buffer holds, `recv` stays inside of it. -/
theorem recv_wf (h : nic.Wf) (bufe : Bool) (rx : Bytes) (buf : Nat) :
    ∃ r nic', recv nic bufe rx buf = .ok (r, nic') ∧ nic'.Wf := by
  unfold recv
  rw [Buf.word_ok (inside h 0 (by decide))]
  split
  · exact ⟨_, _, rfl, h⟩
  · simp only [Res.ok_bind]
    split
    · exact ⟨_, _, rfl, h⟩
    · split
      · exact ⟨_, _, rfl, skip_wf h _⟩
      · rw [Buf.slice_ok (Nat.le_add_right _ _) (inside h _ (by omega))]
        exact ⟨_, _, rfl, skip_wf h _⟩

theorem step_wf (h : s.1.Wf) : ∃ r s', step e s = .ok (r, s') ∧ s'.1.Wf := by
  cases e with
  | store mem frames => exact ⟨_, _, rfl, h⟩
  | recv buf =>
    obtain ⟨r, nic, hrecv, hwf⟩ := recv_wf h s.2.unread.isEmpty s.2.mem buf
    exact ⟨r, (nic, _), by rw [step, hrecv]; rfl, hwf⟩

theorem recv_frame {f : List UInt8} {fs : List (List UInt8)} (h : nic.Wf)
    (hlaid : Laid rx nic.rxOff (f :: fs)) :
    recv nic false rx buf = .ok (some (f.take buf), nic.skip (f.length + 4 + 4)) := by
  obtain ⟨hok, hsize, hlow, hhigh, hf, -⟩ := hlaid
  have htake : rx.toList (nic.rxOff + 4) (min f.length buf) = f.take buf := by
    rw [← hf]
    simp [Bytes.toList, ← List.map_take, Nat.min_comm]
  unfold recv
  rw [Buf.word_ok (inside h 0 (by decide)), if_neg (by simp [h.1])]
  simp only [Res.ok_bind, hsize, rxEarly]
  rw [if_neg (by omega), if_neg (by omega),
    Buf.slice_ok (Nat.le_add_right _ _) (inside h _ (by omega)), Nat.add_sub_cancel_left,
    Nat.add_sub_cancel, htake]
  rfl

structure Synced (s : Nic × Ring) : Prop where
  wf : s.1.Wf
  off : s.1.rxOff = s.2.head
  laid : Laid s.2.mem s.2.head s.2.unread

theorem synced_step (h : Synced s) (he : Follows e s) :
    ∃ nic, step e s = .ok ((s.2.step e).1, nic, (s.2.step e).2) ∧ Synced (nic, (s.2.step e).2) := by
  obtain ⟨nic, mem, head, unread⟩ := s
  obtain ⟨hwf, rfl : nic.rxOff = head, hlaid⟩ := h
  cases e with
  | store mem frames => exact ⟨nic, rfl, hwf, rfl, he⟩
  | recv buf =>
    cases unread with
    | nil =>
      refine ⟨nic, ?_, hwf, rfl, hlaid⟩
      simp [step, recv, Except.map, Ring.step]
    | cons f fs =>
      refine ⟨nic.skip (f.length + 4 + 4), ?_, skip_wf hwf _, rfl, hlaid.2.2.2.2.2⟩
      rw [step, List.isEmpty_cons, recv_frame hwf hlaid]
      rfl

/-- No read leaves the buffer, and a device that follows the protocol has its frames delivered. -/
theorem recv_in_order (mem : Bytes) (es : List Event) :
    Every step (fun e s => (step e s).Safe) es (start mem) ∧
      (Every step Follows es (start mem) → Every step Delivers es (start mem)) := by
  have hwf : setup.Wf := ⟨rfl, by decide, rfl⟩
  refine ⟨every_of_inv (fun s => s.1.Wf) ?_ ?_ hwf (every_of_forall fun _ _ => trivial),
    every_of_inv Synced ?_ ?_ ⟨hwf, rfl, trivial⟩⟩
  · intro e s r s' hs _ hrun
    obtain ⟨_, _, hstep, hwf'⟩ := step_wf hs
    cases hstep.symm.trans hrun
    exact hwf'
  · intro e s hs _
    obtain ⟨r, s', hstep, -⟩ := step_wf hs
    exact ⟨_, hstep⟩
  · intro e s r s' hs he hrun
    obtain ⟨nic, hstep, hsynced⟩ := synced_step hs he
    cases hstep.symm.trans hrun
    exact hsynced
  · intro e s hs he
    obtain ⟨nic, hstep, hsynced⟩ := synced_step hs he
    exact ⟨nic, hstep, hsynced.wf.2.2.trans hsynced.off⟩

/-! ## A full ring -/

instance decidableLaid (mem : Bytes) :
    (off : Nat) → (fs : List (List UInt8)) → Decidable (Laid mem off fs)
  | _, [] => isTrue trivial
  | off, f :: fs =>
    have := decidableLaid mem (next off (f.length + 4 + 4)) fs
    inferInstanceAs (Decidable (_ ∧ _ ∧ _ ∧ _ ∧ _ ∧ _))

instance : (e : Event) → (s : Nic × Ring) → Decidable (Follows e s)
  | .store mem frames, (_, d) => decidableLaid mem d.head (d.unread ++ frames)
  | .recv _, _ => isTrue trivial

/-- Frames of 1518 bytes, each with its header before it and room for the checksum behind it. -/
def ringBytes : Bytes := fun k =>
  if k % 1528 < 4 then [1, 0, 0xF2, 5].getD (k % 1528) 0 else UInt8.ofNat k

def frame (i : Nat) : List UInt8 := ringBytes.toList (1528 * i + 4) 1518

/-- The sixth frame runs past the end of the ring. -/
theorem recv_six_frames : Every step Delivers
    [.store ringBytes [frame 0, frame 1, frame 2, frame 3, frame 4], .recv 1518, .recv 60,
      .recv 1518, .store ringBytes [frame 5], .recv 1518, .recv 1518, .recv 1518, .recv 1518]
    (start fun _ => 0) :=
  (recv_in_order _ _).2 (by decide +kernel)

end Felix.Rtl8139
