import Felix.Kernel.Process

/-!
# The order in which tasks are claimed

`claim_next_task` looks at the slots from 1 to 31 in turn and starts behind the slot of the last
call, so that a task which waits comes nearer with every call.  `seat` is the slot that the loop
looks at after `i` others; the distance to a slot that can be claimed is the measure.
-/

namespace Felix.Kernel.TaskManager

/-- The task in a slot can be claimed. -/
structure Eligible (m : TaskManager) (slot : Slot) : Prop where
  ne_zero : slot ≠ 0
  claimable : (m.tasks slot).any Task.claimable = true
  owner : m.owner slot = none

/-- The slot that the loop looks at after `i` others. -/
def seat (slot : Slot) : Nat → Slot
  | 0 => if slot = 0 then 1 else slot
  | i + 1 => seat ((if slot = 0 then 1 else slot) + 1) i

/-- The slot that the loop starts at. -/
def firstSeat (after : Option Slot) : Slot := (after.map (· + 1)).getD 1

variable {m : TaskManager} {slot start : Slot} {cpu i n : Nat}

theorem val_skipZero (slot : Slot) : (if slot = 0 then 1 else slot).val = max slot.val 1 := by
  split
  · subst_vars
    rfl
  · rename_i hslot
    exact (Nat.max_eq_left (Nat.pos_of_ne_zero fun h => hslot (Fin.ext h))).symm

theorem seat_val (slot : Slot) (i : Nat) :
    (seat slot i).val = (max slot.val 1 - 1 + i) % 31 + 1 := by
  induction i generalizing slot with
  | zero =>
    rw [seat, val_skipZero]
    omega
  | succ i ih =>
    rw [seat, ih, Fin.val_add, val_skipZero]
    omega

theorem seat_ne_zero (slot : Slot) (i : Nat) : seat slot i ≠ 0 := by
  intro h
  have hval := seat_val slot i
  rw [h] at hval
  omega

theorem exists_seat (start : Slot) (hslot : slot ≠ 0) : ∃ i < 31, seat start i = slot := by
  have hpos : slot.val ≠ 0 := fun h => hslot (Fin.ext h)
  refine ⟨(slot.val + 30 - (max start.val 1 - 1)) % 31, Nat.mod_lt _ (by decide), ?_⟩
  ext
  rw [seat_val]
  omega

/-- The seats behind a seat. -/
theorem seat_behind {j : Nat} (hj : j < i) :
    seat (seat start j + 1) (i - j - 1) = seat start i := by
  ext
  rw [seat_val, seat_val start i, Fin.val_add, seat_val]
  omega

theorem Eligible.repairOwner (h : m.Eligible slot) (s : Slot) :
    (m.repairOwner s).Eligible slot := by
  obtain ⟨hslot, htask, howner⟩ := h
  unfold TaskManager.repairOwner
  split
  · exact ⟨hslot, htask, howner⟩
  split
  · exact ⟨hslot, htask, howner⟩
  · refine ⟨hslot, htask, ?_⟩
    dsimp only
    rw [Function.update_apply, howner, ite_self]

/-- The loop stops at a slot that can be claimed, or before it. -/
theorem claimFrom_seat (cpu : Nat) (h : m.Eligible (seat start i)) (hi : i < n) :
    ∃ j ≤ i, (claimFrom cpu n start m).1 = seat start j := by
  induction n generalizing start m i with
  | zero => exact absurd hi (Nat.not_lt_zero i)
  | succ n ih =>
    have hstart : seat start 0 = if start = 0 then 1 else start := rfl
    have hnext := h.repairOwner (seat start 0)
    unfold claimFrom
    dsimp only
    rw [← hstart]
    split
    · exact ⟨0, Nat.zero_le i, rfl⟩
    rename_i hclaim
    cases i with
    | zero => exact absurd ⟨hnext.claimable, hnext.owner⟩ hclaim
    | succ i =>
      have hrest : (m.repairOwner (seat start 0)).Eligible (seat (seat start 0 + 1) i) := hnext
      obtain ⟨j, hj, hseat⟩ := ih hrest (Nat.lt_of_succ_lt_succ hi)
      exact ⟨j + 1, Nat.succ_le_succ hj, hseat⟩

/-- A slot that is `i` seats away is returned by one of the next `i + 1` calls. -/
theorem claimed_within {calls : Nat → TaskManager} {after : Nat → Option Slot} {k : Nat}
    (hnext : ∀ i, after (i + 1) = some ((calls i).claimNextTask cpu (after i)).1)
    (hslot : ∀ i, k ≤ i → i < k + 31 → (calls i).Eligible slot) (hi : i < 31) {n : Nat}
    (hn : k ≤ n) (hend : n + i < k + 31) (hseat : seat (firstSeat (after n)) i = slot) :
    ∃ t ≤ i, ((calls (n + t)).claimNextTask cpu (after (n + t))).1 = slot := by
  induction i using Nat.strongRecOn generalizing n with
  | ind i ih =>
    have heligible := hslot n hn (by omega)
    rw [← hseat] at heligible
    obtain ⟨j, hj, hfound⟩ := claimFrom_seat cpu heligible hi
    by_cases hij : j = i
    · exact ⟨0, Nat.zero_le i, by rw [← hseat, ← hij]; exact hfound⟩
    -- Another slot was returned, which is nearer.
    have hlt : j < i := by omega
    have hbehind : seat (firstSeat (after (n + 1))) (i - j - 1) = slot := by
      rw [hnext n, ← hseat, ← seat_behind hlt, ← hfound]
      rfl
    obtain ⟨t, ht, hclaimed⟩ := ih (i - j - 1) (by omega) (by omega) (by omega) (by omega)
      hbehind
    exact ⟨t + 1, by omega, by rwa [Nat.add_right_comm] at hclaimed⟩

/-- A slot that can be claimed at 31 calls in a row, each of which starts at the result of the
one before, is returned by one of them; and a call finds a slot if there is one. -/
theorem claim_is_fair (cpu : Nat) :
    (∀ (calls : Nat → TaskManager) (after : Nat → Option Slot) (slot : Slot) (k : Nat),
      (∀ i, after (i + 1) = some ((calls i).claimNextTask cpu (after i)).1) →
      (∀ i, k ≤ i → i < k + 31 → (calls i).Eligible slot) →
      ∃ i, k ≤ i ∧ i < k + 31 ∧ ((calls i).claimNextTask cpu (after i)).1 = slot) ∧
    ∀ (m : TaskManager) (after : Option Slot), (m.claimNextTask cpu after).1 = 0 →
      ∀ slot, ¬ m.Eligible slot := by
  refine ⟨fun calls after slot k hnext hslot => ?_, fun m after hnone slot h => ?_⟩
  · have hne := (hslot k (Nat.le_refl k) (by omega)).ne_zero
    obtain ⟨i, hi, hseat⟩ := exists_seat (firstSeat (after k)) hne
    obtain ⟨t, ht, hclaimed⟩ := claimed_within hnext hslot hi (Nat.le_refl k) (by omega) hseat
    exact ⟨k + t, Nat.le_add_right k t, by omega, hclaimed⟩
  · obtain ⟨i, hi, rfl⟩ := exists_seat (firstSeat after) h.ne_zero
    obtain ⟨j, -, hfound⟩ := claimFrom_seat cpu h hi
    exact seat_ne_zero _ j (hfound.symm.trans hnone)

/-- The slots that the calls start behind, when each starts at the result of the one before. -/
def turns (cpu : Nat) (calls : Nat → TaskManager) : Nat → Option Slot
  | 0 => none
  | i + 1 => some ((calls i).claimNextTask cpu (turns cpu calls i)).1

/-- Tasks wait in the slots 1 and 3, and at every second call also in slot 2. -/
def crowd (i : Nat) : TaskManager :=
  let m := ((init ⟨0, 0⟩ 0 0).publish 1 (Task.new false 0 0)).publish 3 (Task.new false 0 0)
  if i % 2 = 0 then m.publish 2 (Task.new false 0 0) else m

theorem crowd_eligible (i : Nat) : (crowd i).Eligible 3 := by
  unfold crowd
  dsimp only
  split <;> exact ⟨by decide, by decide, by decide⟩

/-- The last of them gets its turn. -/
theorem claim_is_fair_crowd : ∃ i, 4 ≤ i ∧ i < 4 + 31 ∧
    ((crowd i).claimNextTask 0 (turns 0 crowd i)).1 = 3 :=
  (claim_is_fair 0).1 crowd (turns 0 crowd) 3 4 (fun _ => rfl) fun i _ _ => crowd_eligible i

end Felix.Kernel.TaskManager
