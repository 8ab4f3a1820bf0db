import Nestchain.Schedule.Slots
import Mathlib.Algebra.BigOperators.Group.List.Basic

/-! The participation of the witnesses.  `recent_slots_filled` is a shift register with a bit for
each of the last 128 slots.  A block shifts its own bit in before it shifts over the missed slots,
so it is counted in the first slot after the block before it, and the slots that were missed after
it. -/

namespace Nestchain.Schedule

open Lib Chain

/-- The absolute slots of the blocks of a run. -/
def producedIn : List Nat → List Nat
  | [] => []
  | n :: missed => lastSlot (n :: missed) :: producedIn missed

/-- A block was produced `k` slots before the slot of the last block. -/
def Filled (missed : List Nat) (k : Nat) : Prop :=
  k ≤ lastSlot missed ∧ lastSlot missed - k ∈ producedIn missed

instance (missed : List Nat) (k : Nat) : Decidable (Filled missed k) :=
  inferInstanceAs (Decidable (_ ∧ _))

/-- The absolute slots in which the blocks of a run are counted: each in the slot after the block
before it. -/
def countedIn : List Nat → List Nat
  | [] => []
  | _ :: missed => (lastSlot missed + 1) :: countedIn missed

/-- A block is counted `k` slots before the slot of the last block. -/
def CountedFilled (missed : List Nat) (k : Nat) : Prop :=
  k ≤ lastSlot missed ∧ lastSlot missed - k ∈ countedIn missed

instance (missed : List Nat) (k : Nat) : Decidable (CountedFilled missed k) :=
  inferInstanceAs (Decidable (_ ∧ _))

/-- The bits of the last `n` slots are right. -/
def Recorded (register : BitVec 128) (missed : List Nat) (n : Nat) : Prop :=
  ∀ k < n, register.getLsbD k = true ↔ Filled missed k

def registerOf : List Nat → BitVec 128
  | [] => BitVec.allOnes 128
  | n :: missed => ((registerOf missed <<< 1) + 1) <<< n

section

variable {missed : List Nat} {n k : Nat}

theorem producedIn_le : ∀ x ∈ producedIn missed, 1 ≤ x ∧ x ≤ lastSlot missed := by
  induction missed with
  | nil => exact fun x hx => nomatch hx
  | cons n missed ih =>
    intro x hx
    rw [lastSlot_cons]
    rcases List.mem_cons.mp hx with rfl | hx
    · rw [lastSlot_cons]
      omega
    · have hbounds := ih x hx
      omega

theorem not_filled_nil : ¬Filled [] k := fun h => nomatch h.2

theorem filled_zero : Filled (n :: missed) 0 := ⟨Nat.zero_le _, List.mem_cons_self⟩

theorem filled_cons (hk : 0 < k) : Filled (n :: missed) k ↔ n + 1 ≤ k ∧ Filled missed (k - (n + 1)) := by
  rw [Filled, Filled, lastSlot_cons, producedIn, lastSlot_cons, List.mem_cons]
  constructor
  · rintro ⟨hle, heq | hmem⟩
    · omega
    · have hbounds := producedIn_le _ hmem
      refine ⟨by omega, by omega, ?_⟩
      rwa [show lastSlot missed - (k - (n + 1)) = n + 1 + lastSlot missed - k by omega]
  · rintro ⟨hge, hle, hmem⟩
    refine ⟨by omega, Or.inr ?_⟩
    rwa [show n + 1 + lastSlot missed - k = lastSlot missed - (k - (n + 1)) by omega]

theorem countedIn_le : ∀ x ∈ countedIn missed, 1 ≤ x ∧ x ≤ lastSlot missed := by
  induction missed with
  | nil => exact fun x hx => nomatch hx
  | cons n missed ih =>
    intro x hx
    rw [lastSlot_cons]
    rcases List.mem_cons.mp hx with rfl | hx
    · omega
    · have hbounds := ih x hx
      omega

theorem countedFilled_cons : CountedFilled (n :: missed) k ↔
    k = n ∨ n + 1 ≤ k ∧ CountedFilled missed (k - (n + 1)) := by
  rw [CountedFilled, CountedFilled, lastSlot_cons, countedIn, List.mem_cons]
  constructor
  · rintro ⟨hle, heq | hmem⟩
    · omega
    · have hbounds := countedIn_le _ hmem
      refine Or.inr ⟨by omega, by omega, ?_⟩
      rwa [show lastSlot missed - (k - (n + 1)) = n + 1 + lastSlot missed - k by omega]
  · rintro (rfl | ⟨hge, hle, hmem⟩)
    · exact ⟨by omega, Or.inl (by omega)⟩
    · refine ⟨by omega, Or.inr ?_⟩
      rwa [show n + 1 + lastSlot missed - k = lastSlot missed - (k - (n + 1)) by omega]

theorem getLsbD_shift_in (x : BitVec 128) (k : Nat) :
    ((x <<< 1) + 1).getLsbD k = if k = 0 then true else decide (k < 128) && x.getLsbD (k - 1) := by
  have hor : (x <<< 1) + 1#128 = (x <<< 1) ||| 1#128 := by
    refine BitVec.add_eq_or_of_and_eq_zero _ _ (BitVec.eq_of_getLsbD_eq fun i hi => ?_)
    simp only [BitVec.getLsbD_and, BitVec.getLsbD_shiftLeft, BitVec.getLsbD_zero]
    rcases Nat.eq_zero_or_pos i with rfl | hpos
    · simp
    · simp [BitVec.getLsbD_one, hpos.ne']
  show ((x <<< 1) + 1#128).getLsbD k = _
  rw [hor, BitVec.getLsbD_or, BitVec.getLsbD_shiftLeft]
  rcases Nat.eq_zero_or_pos k with rfl | hpos
  · rfl
  · rw [if_neg hpos.ne']
    simp [BitVec.getLsbD_one, hpos.ne']

theorem registerOf_cons (hk : k < 128) : (registerOf (n :: missed)).getLsbD k =
    if k < n then false else if k = n then true else (registerOf missed).getLsbD (k - (n + 1)) := by
  rw [registerOf, BitVec.getLsbD_shiftLeft, getLsbD_shift_in]
  by_cases hlt : k < n
  · simp [hlt]
  · by_cases heq : k = n
    · subst heq
      simp [hk]
    · have hsub : k - n - 1 = k - (n + 1) := by omega
      have hne : k - n ≠ 0 := by omega
      have hin : k - n < 128 := by omega
      simp [hk, hlt, heq, hne, hin, hsub]

theorem registerOf_counted (hk : k < 128) : (registerOf missed).getLsbD k = true ↔
    CountedFilled missed k ∨ lastSlot missed ≤ k := by
  induction missed generalizing k with
  | nil =>
    refine ⟨fun _ => Or.inr (Nat.zero_le k), fun _ => ?_⟩
    rw [registerOf, BitVec.getLsbD_allOnes, decide_eq_true_iff]
    exact hk
  | cons n missed ih =>
    rw [registerOf_cons hk, countedFilled_cons, lastSlot_cons]
    by_cases hlt : k < n
    · rw [if_pos hlt]
      refine ⟨fun h => (nomatch h), ?_⟩
      rintro ((rfl | ⟨hge, -⟩) | hge) <;> omega
    · by_cases heq : k = n
      · rw [if_neg hlt, if_pos heq]
        exact ⟨fun _ => Or.inl (Or.inl heq), fun _ => rfl⟩
      · rw [if_neg hlt, if_neg heq, ih (by omega)]
        constructor
        · exact Or.imp (fun h => Or.inr ⟨by omega, h⟩) (fun h => by omega)
        · rintro ((heq' | ⟨-, h⟩) | h)
          · exact absurd heq' heq
          · exact Or.inl h
          · exact Or.inr (by omega)

theorem recorded_iff (h : n ≤ 128) : Recorded (registerOf missed) missed n ↔
    n ≤ missed.length ∧ ∀ m ∈ missed.take n, m = 0 := by
  induction missed generalizing n with
  | nil =>
    rw [List.take_nil, List.length_nil]
    constructor
    · intro hrecorded
      refine ⟨?_, fun m hm => nomatch hm⟩
      by_contra hpos
      refine not_filled_nil ((hrecorded 0 (by omega)).mp ?_)
      exact BitVec.getLsbD_allOnes
    · rintro ⟨hzero, -⟩ k hk
      omega
  | cons m missed ih =>
    cases n with
    | zero => exact ⟨fun _ => ⟨Nat.zero_le _, fun m hm => nomatch hm⟩, fun _ k hk => nomatch hk⟩
    | succ n =>
      have hnext : m = 0 → (Recorded (registerOf (m :: missed)) (m :: missed) (n + 1) ↔
          Recorded (registerOf missed) missed n) := by
        rintro rfl
        constructor
        · intro hrecorded k hk
          have hbit := hrecorded (k + 1) (by omega)
          rwa [registerOf_cons (by omega), if_neg (Nat.not_lt_zero _), if_neg (by omega),
            filled_cons (Nat.succ_pos k), and_iff_right (by omega)] at hbit
        · intro hrecorded k hk
          rcases Nat.eq_zero_or_pos k with rfl | hpos
          · rw [registerOf_cons (by omega)]
            exact ⟨fun _ => filled_zero, fun _ => rfl⟩
          · rw [registerOf_cons (by omega), if_neg (Nat.not_lt_zero _), if_neg (by omega),
              filled_cons hpos, and_iff_right (by omega)]
            exact hrecorded (k - 1) (by omega)
      rw [List.length_cons, List.take_succ_cons, List.forall_mem_cons, Nat.succ_le_succ_iff,
        and_left_comm]
      constructor
      · intro hrecorded
        have hm : m = 0 := by
          by_contra hne
          have hbit := (hrecorded 0 (Nat.succ_pos n)).mpr filled_zero
          rw [registerOf_cons (by omega), if_pos (Nat.pos_of_ne_zero hne)] at hbit
          cases hbit
        exact ⟨hm, (ih (by omega)).mp ((hnext hm).mp hrecorded)⟩
      · rintro ⟨hm, hrest⟩
        exact (hnext hm).mpr ((ih (by omega)).mpr hrest)

/-! ### Runs -/

variable {lastCheckpoint : Option Nat} {digest : BlockHeader → Nat} {s0 s : State}

theorem Run.register (h0 : Genesis s0) (h : Run lastCheckpoint digest s0 missed s) :
    s.recentSlotsFilled = registerOf missed := by
  induction h with
  | start => exact h0.recentSlotsFilled
  | block h hfits ht hblock hstarted hnext ih =>
    have hslot := (State.getSlotAtTime_eq_iff hfits ht (Nat.le_add_left 1 _)).mpr
      ⟨hstarted, hnext⟩
    rw [(applyBlock_applied hblock).recentSlotsFilled, hslot, ih]
    rfl

/-- After a run of at least 128 slots bit `k` is set exactly when a block is counted `k` slots
before the slot of the last block, and the participation rate is the share of the last 128 slots in
which a block is counted.  The bits show the slots of the blocks themselves exactly when no slot was
missed before any of the last 128 blocks. -/
theorem participation_counts_slots (h0 : Genesis s0) (h : Run lastCheckpoint digest s0 missed s)
    (hslots : 128 ≤ lastSlot missed) :
    (∀ k < 128, s.recentSlotsFilled.getLsbD k = true ↔ CountedFilled missed k) ∧
      s.witnessParticipationRate = hundredPercent *
        ((List.range 128).countP fun k => decide (CountedFilled missed k)) / 128 ∧
      (Recorded s.recentSlotsFilled missed 128 ↔ ∀ n ∈ missed.take 128, n = 0) := by
  have hbits : ∀ k < 128, s.recentSlotsFilled.getLsbD k = true ↔ CountedFilled missed k := by
    intro k hk
    rw [h.register h0, registerOf_counted hk, or_iff_left (by omega)]
  refine ⟨hbits, ?_, ?_⟩
  · have hcount : State.popcount s.recentSlotsFilled =
        (List.range 128).countP fun k => decide (CountedFilled missed k) := by
      refine List.countP_congr fun k hk => ?_
      rw [hbits k (List.mem_range.mp hk), decide_eq_true_iff]
    rw [State.witnessParticipationRate, hcount]
  · rw [h.register h0, recorded_iff (le_refl 128)]
    refine ⟨fun hzero => hzero.2, fun hzero => ⟨?_, hzero⟩⟩
    by_contra hshort
    rw [List.take_of_length_le (by omega)] at hzero
    have hsum : missed.sum = 0 := List.sum_eq_zero hzero
    rw [lastSlot_eq] at hslots
    omega

end

theorem lateBlock_run :
    ∃ s, Run none (fun _ => 0) threeWitnesses [128] s ∧ s.recentSlotsFilled = 0 := by
  obtain ⟨s, hs, hzero⟩ : ∃ s, threeWitnesses.applyBlock none (fun _ => 0) false
      (firstBlock 1 1645) sameMaintenance = .ok s ∧ decide (s.recentSlotsFilled = 0) = true :=
    exists_ok_of_any (by decide +kernel)
  exact ⟨s, .block (n := 128) .start (by decide) (by decide) hs (by decide) (by decide),
    of_decide_eq_true hzero⟩

theorem participation_counts_slots_late :
    ∃ s, Run none (fun _ => 0) threeWitnesses [128] s ∧ s.recentSlotsFilled.getLsbD 0 = false ∧
      s.witnessParticipationRate = 0 := by
  obtain ⟨s, hrun, -⟩ := lateBlock_run
  obtain ⟨hbits, hrate, -⟩ := participation_counts_slots threeWitnesses_genesis hrun (by decide)
  refine ⟨s, hrun, ?_, hrate.trans (by decide +kernel)⟩
  rw [← Bool.not_eq_true, hbits 0 (by decide)]
  decide

/-- After the late block no slot counts as filled, not even its own. -/
theorem late_block_not_recorded : ∃ s, Run none (fun _ => 0) threeWitnesses [128] s ∧
    128 ≤ lastSlot [128] ∧ Filled [128] 0 ∧ s.recentSlotsFilled.getLsbD 0 = false := by
  obtain ⟨s, hrun, hregister⟩ := lateBlock_run
  refine ⟨s, hrun, by decide, filled_zero, ?_⟩
  rw [hregister]
  rfl

end Nestchain.Schedule
