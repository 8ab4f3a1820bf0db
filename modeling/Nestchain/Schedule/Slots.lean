import Nestchain.Schedule.Blocks
import Mathlib.Algebra.Order.Group.Nat
import Mathlib.Tactic.Ring

/-! The slots as a grid of times: slot `n` starts `n` intervals after the base of the head block.
The two functions of the code are adjoint on the part of the grid whose times are words, and the
absolute slot number of the head block counts the slots that runs of blocks have passed. -/

namespace Nestchain.Schedule

open Lib Chain

theorem word_eq {x : Nat} (h : x < 2 ^ 32) : word x = x := Nat.mod_eq_of_lt h

theorem grid_le_iff {first interval n t : Nat} (hinterval : 0 < interval) (hfirst : first ≤ t) :
    n ≤ (t - first) / interval ↔ first + n * interval ≤ t := by
  rw [Nat.le_div_iff_mul_le hinterval]
  omega

namespace State

variable {s : State}

/-! ### The grid -/

/-- Slot 0: the genesis, or the slot of the head block and the slots that maintenance skips. -/
def slotBase (s : State) : Nat :=
  if s.headBlockNumber = 0 then s.time
  else s.time / s.parameters.blockInterval * s.parameters.blockInterval +
    if s.maintenanceFlag then s.parameters.maintenanceSkipSlots * s.parameters.blockInterval else 0

/-- The start of a slot, where times are not bounded. -/
def slotStart (s : State) (n : Nat) : Nat := s.slotBase + n * s.parameters.blockInterval

theorem slotStart_succ (n : Nat) :
    s.slotStart (n + 1) = s.slotStart n + s.parameters.blockInterval := by
  rw [slotStart, slotStart, Nat.succ_mul, Nat.add_assoc]

theorem slotStart_eq_first {n : Nat} (h : 1 ≤ n) :
    s.slotStart n = s.slotStart 1 + (n - 1) * s.parameters.blockInterval := by
  obtain ⟨k, rfl⟩ := Nat.exists_eq_add_of_le h
  rw [slotStart, slotStart, Nat.add_sub_cancel_left]
  ring

theorem slotStart_strictMono : StrictMono s.slotStart :=
  strictMono_nat_of_lt_succ fun n => by
    rw [slotStart_succ]
    exact Nat.lt_add_of_pos_right s.parameters.interval_pos

theorem time_lt_slotStart : s.time < s.slotStart 1 := by
  have hpos := s.parameters.interval_pos
  rw [slotStart, slotBase, Nat.one_mul]
  split
  · omega
  · have hslot := Nat.lt_div_mul_add (a := s.time) hpos
    omega

theorem getSlotTime_eq {n : Nat} (h : 1 ≤ n) (hfits : s.slotStart n < 2 ^ 32) :
    s.getSlotTime n = s.slotStart n := by
  have hpos := s.parameters.interval_pos
  have hn : n ≤ n * s.parameters.blockInterval := Nat.le_mul_of_pos_right n hpos
  rw [getSlotTime, if_neg (by omega)]
  unfold slotStart slotBase at hfits ⊢
  by_cases hgenesis : s.headBlockNumber = 0
  · simp only [if_pos hgenesis] at hfits ⊢
    rw [word_eq (by omega : n * s.parameters.blockInterval < 2 ^ 32), word_eq hfits]
  · simp only [if_neg hgenesis] at hfits ⊢
    cases hflag : s.maintenanceFlag with
    | false =>
      simp only [hflag, Bool.false_eq_true, if_false, Nat.add_zero] at hfits ⊢
      rw [word_eq (by omega : n * s.parameters.blockInterval < 2 ^ 32), word_eq hfits]
    | true =>
      simp only [hflag, if_true] at hfits ⊢
      have hskip : s.parameters.maintenanceSkipSlots ≤
          s.parameters.maintenanceSkipSlots * s.parameters.blockInterval :=
        Nat.le_mul_of_pos_right _ hpos
      have hshifted : n * s.parameters.blockInterval +
          s.parameters.maintenanceSkipSlots * s.parameters.blockInterval < 2 ^ 32 := by omega
      rw [word_eq (by omega : n + s.parameters.maintenanceSkipSlots < 2 ^ 32), Nat.add_mul,
        word_eq hshifted, word_eq (by omega)]
      omega

theorem le_getSlotAtTime {n t : Nat} (hfits : s.slotStart 1 < 2 ^ 32) (ht : t < 2 ^ 32)
    (h : 1 ≤ n) : n ≤ s.getSlotAtTime t ↔ s.slotStart n ≤ t := by
  have hpos := s.parameters.interval_pos
  have hfirst := getSlotTime_eq (le_refl 1) hfits
  have hlater : s.slotStart 1 ≤ s.slotStart n := slotStart_strictMono.monotone h
  rw [getSlotAtTime, hfirst]
  split
  · rename_i hlt
    constructor <;> intro hle <;> omega
  · rename_i hge
    have hstart : s.time < s.slotStart 1 := time_lt_slotStart
    have hquotient := Nat.div_le_self (t - s.slotStart 1) s.parameters.blockInterval
    rw [word_eq (by omega), slotStart_eq_first h, ← grid_le_iff hpos (not_lt.mp hge)]
    omega

theorem getSlotAtTime_eq_iff {n t : Nat} (hfits : s.slotStart 1 < 2 ^ 32) (ht : t < 2 ^ 32)
    (h : 1 ≤ n) :
    s.getSlotAtTime t = n ↔ s.slotStart n ≤ t ∧ t < s.slotStart (n + 1) := by
  rw [← le_getSlotAtTime hfits ht h, ← not_le, ← le_getSlotAtTime hfits ht (Nat.le_succ_of_le h)]
  omega

theorem getSlotAtTime_eq_zero_iff {t : Nat} (hfits : s.slotStart 1 < 2 ^ 32) (ht : t < 2 ^ 32) :
    s.getSlotAtTime t = 0 ↔ t < s.slotStart 1 := by
  rw [← not_le, ← le_getSlotAtTime hfits ht (le_refl 1)]
  omega

theorem le_of_slotStart_le {n t : Nat} (h : 1 ≤ n) (hstart : s.slotStart n ≤ t) :
    s.time + n ≤ t := by
  have hpos := s.parameters.interval_pos
  have hfirst : s.time < s.slotStart 1 := time_lt_slotStart
  have hlater : n - 1 ≤ (n - 1) * s.parameters.blockInterval := Nat.le_mul_of_pos_right _ hpos
  rw [slotStart_eq_first h] at hstart
  omega

end State

/-! ### What a block does -/

/-- What an applied block leaves. -/
structure Applied (s : State) (b : BlockHeader) (s' : State) : Prop where
  previous : s.headBlockId = b.previous
  timestamp : s.time < b.timestamp
  slot : s.getSlotAtTime b.timestamp ≠ 0
  headBlockNumber : s'.headBlockNumber = b.blockNum
  headBlockId : s'.headBlockId.num = b.blockNum
  time : s'.time = b.timestamp
  recentSlotsFilled : s'.recentSlotsFilled =
    ((s.recentSlotsFilled <<< 1) + 1) <<< (s.getSlotAtTime b.timestamp - 1)
  currentAslot : s'.currentAslot = (s.currentAslot + s.getSlotAtTime b.timestamp) % 2 ^ 64
  /-- The witnesses are shuffled, or the schedule stays. -/
  schedule : State.shuffle b.timestamp s'.activeWitnesses.1 = .ok s'.currentShuffledWitnesses ∨
    s'.currentShuffledWitnesses = s.currentShuffledWitnesses

section

variable {lastCheckpoint : Option Nat} {digest : BlockHeader → Nat} {skip : Bool}
  {s s' : State} {b : BlockHeader} {m : State.Maintenance}

theorem updateWitnessMissedBlocks_eq {n : Nat}
    (h : s.updateWitnessMissedBlocks b = .ok (n, s')) :
    s.getSlotAtTime b.timestamp ≠ 0 ∧ n = s.getSlotAtTime b.timestamp - 1 ∧
      ∃ totalMissed, s' = { s with totalMissed := totalMissed } := by
  simp only [State.updateWitnessMissedBlocks, bind_eq_ok, require_eq_ok, exists_const] at h
  obtain ⟨hslot, h⟩ := h
  split at h
  · simp only [bind_eq_ok, pure_eq_ok] at h
    obtain ⟨totalMissed, -, h⟩ := h
    obtain ⟨rfl, rfl⟩ := Prod.mk.inj h
    exact ⟨hslot, rfl, totalMissed, rfl⟩
  · obtain ⟨rfl, rfl⟩ := Prod.mk.inj (pure_eq_ok.mp h)
    exact ⟨hslot, rfl, _, rfl⟩

theorem updateWitnessSchedule_eq (h : s.updateWitnessSchedule = .ok s') :
    ∃ shuffled, s' = { s with currentShuffledWitnesses := shuffled } ∧
      (s.headBlockNumber % s.activeWitnesses.1.length = 0 ∧
        State.shuffle s.time s.activeWitnesses.1 = .ok shuffled ∨
      s.headBlockNumber % s.activeWitnesses.1.length ≠ 0 ∧
        shuffled = s.currentShuffledWitnesses) := by
  unfold State.updateWitnessSchedule at h
  split at h
  · rename_i hturn
    simp only [bind_eq_ok, pure_eq_ok] at h
    obtain ⟨shuffled, hshuffled, rfl⟩ := h
    exact ⟨shuffled, rfl, Or.inl ⟨hturn, hshuffled⟩⟩
  · rename_i hturn
    obtain rfl := pure_eq_ok.mp h
    exact ⟨_, rfl, Or.inr ⟨hturn, rfl⟩⟩

theorem applyBlock_applied (h : s.applyBlock lastCheckpoint digest skip b m = .ok s') :
    Applied s b s' := by
  simp only [State.applyBlock, bind_eq_ok] at h
  obtain ⟨_, hheader, ⟨missed, s1⟩, hmissed, h⟩ := h
  have hchecks : s.headBlockId = b.previous ∧ s.time < b.timestamp := by
    simp only [State.validateBlockHeader, bind_eq_ok, require_eq_ok, exists_const] at hheader
    exact ⟨hheader.1, hheader.2.1⟩
  obtain ⟨hslot, rfl, totalMissed, rfl⟩ := updateWitnessMissedBlocks_eq hmissed
  have hslots : s.getSlotAtTime b.timestamp - 1 + 1 = s.getSlotAtTime b.timestamp := by omega
  -- maintenance changes none of the fields
  cases hmaint : decide (s.nextMaintenanceTime ≤ b.timestamp) <;> rw [hmaint] at h <;>
    obtain ⟨shuffled, rfl, hschedule⟩ := updateWitnessSchedule_eq h <;>
    exact ⟨hchecks.1, hchecks.2, hslot, rfl, rfl, rfl, rfl,
      congrArg (fun n => (s.currentAslot + n) % 2 ^ 64) hslots, hschedule.imp And.right And.right⟩

/-! ### Runs -/

/-- The state that `init_genesis` creates. -/
structure Genesis (s : State) : Prop where
  headBlockNumber : s.headBlockNumber = 0
  headBlockId : s.headBlockId.num = 0
  time : s.time < 2 ^ 32
  currentAslot : s.currentAslot = 0
  recentSlotsFilled : s.recentSlotsFilled = BitVec.allOnes 128
  maintenanceFlag : s.maintenanceFlag = false
  currentShuffledWitnesses : s.currentShuffledWitnesses = s.activeWitnesses.1

/-- What a sequence of accepted blocks leads to, with the numbers of the slots that were missed
before each block, the last block first: `n` slots start before the slot in which the time of the
block lies. -/
inductive Run (lastCheckpoint : Option Nat) (digest : BlockHeader → Nat) (s0 : State) :
    List Nat → State → Prop
  | start : Run lastCheckpoint digest s0 [] s0
  | block {missed : List Nat} {s s' : State} {skip : Bool} {b : BlockHeader}
      {m : State.Maintenance} {n : Nat} (h : Run lastCheckpoint digest s0 missed s)
      (hfits : s.slotStart 1 < 2 ^ 32) (ht : b.timestamp < 2 ^ 32)
      (hblock : s.applyBlock lastCheckpoint digest skip b m = .ok s')
      (hstarted : s.slotStart (n + 1) ≤ b.timestamp)
      (hnext : b.timestamp < s.slotStart (n + 2)) :
      Run lastCheckpoint digest s0 (n :: missed) s'

variable {s0 : State} {missed : List Nat}

def lastSlot (missed : List Nat) : Nat := (missed.map (· + 1)).sum

@[simp] theorem lastSlot_nil : lastSlot [] = 0 := rfl

@[simp] theorem lastSlot_cons (n : Nat) (missed : List Nat) :
    lastSlot (n :: missed) = n + 1 + lastSlot missed := by
  simp only [lastSlot, List.map_cons, List.sum_cons]

theorem lastSlot_eq (missed : List Nat) : lastSlot missed = missed.length + missed.sum := by
  induction missed with
  | nil => rfl
  | cons n missed ih =>
    rw [lastSlot_cons, ih, List.length_cons, List.sum_cons]
    omega

/-- What the numbers of a state say about the run that led to it. -/
structure Counted (s : State) (missed : List Nat) : Prop where
  headBlockId : s.headBlockId.num = s.headBlockNumber
  headBlockNumber : s.headBlockNumber = missed.length
  currentAslot : s.currentAslot = lastSlot missed
  currentAslot_le : s.currentAslot ≤ s.time
  time : s.time < 2 ^ 32

theorem Run.counted (h0 : Genesis s0) (h : Run lastCheckpoint digest s0 missed s) :
    Counted s missed := by
  induction h with
  | start =>
    refine ⟨?_, h0.headBlockNumber, h0.currentAslot, ?_, h0.time⟩
    · rw [h0.headBlockId, h0.headBlockNumber]
    · rw [h0.currentAslot]
      exact Nat.zero_le _
  | @block missed s s' skip b m n h hfits ht hblock hstarted hnext ih =>
    have hb := applyBlock_applied hblock
    have hslot : s.getSlotAtTime b.timestamp = n + 1 :=
      (State.getSlotAtTime_eq_iff hfits ht (Nat.le_add_left 1 n)).mpr ⟨hstarted, hnext⟩
    have hseconds := State.le_of_slotStart_le (Nat.le_add_left 1 n) hstarted
    have hold := ih.currentAslot_le
    have hnew : s'.currentAslot = s.currentAslot + (n + 1) := by
      rw [hb.currentAslot, hslot, Nat.mod_eq_of_lt (by omega)]
    refine ⟨hb.headBlockId.trans hb.headBlockNumber.symm, ?_, ?_, ?_, ?_⟩
    · rw [hb.headBlockNumber, BlockHeader.blockNum, ← hb.previous, ih.headBlockId,
        ih.headBlockNumber, List.length_cons]
    · rw [hnew, ih.currentAslot, lastSlot_cons, Nat.add_comm]
    · rw [hnew, hb.time]
      omega
    · rw [hb.time]
      exact ht

/-- Slot numbers and slot times determine each other as long as the times are words, and in every
run of accepted blocks the absolute slot counts the blocks and the missed slots. -/
theorem slots_match_times (s : State) :
    ((∀ n k, 1 ≤ n → n < k → s.slotStart k < 2 ^ 32 → s.getSlotTime n < s.getSlotTime k) ∧
      (s.slotStart 1 < 2 ^ 32 → s.time < s.getSlotTime 1)) ∧
    (∀ n, 1 ≤ n → s.slotStart n < 2 ^ 32 → s.getSlotTime n = s.slotStart n ∧
      s.getSlotAtTime (s.getSlotTime n) = n ∧
      ∀ t < 2 ^ 32, n ≤ s.getSlotAtTime t ↔ s.getSlotTime n ≤ t) ∧
    (∀ t < 2 ^ 32, s.slotStart 1 < 2 ^ 32 →
      (s.getSlotAtTime t = 0 ↔ t < s.getSlotTime 1) ∧
      (s.getSlotTime 1 ≤ t → s.getSlotTime (s.getSlotAtTime t) ≤ t ∧
        (s.slotStart (s.getSlotAtTime t + 1) < 2 ^ 32 →
          t < s.getSlotTime (s.getSlotAtTime t + 1)))) ∧
    ∀ lastCheckpoint digest s' missed, Genesis s → Run lastCheckpoint digest s missed s' →
      s'.currentAslot = s'.headBlockNumber + missed.sum := by
  have hmono : StrictMono s.slotStart := State.slotStart_strictMono
  refine ⟨⟨fun n k hn hk hfits => ?_, fun hfits => ?_⟩, fun n hn hfits => ?_,
    fun t ht hfits => ⟨?_, fun hge => ?_⟩, fun lastCheckpoint digest s' missed h0 h => ?_⟩
  · have hlt : s.slotStart n < s.slotStart k := hmono hk
    rw [State.getSlotTime_eq hn (hlt.trans hfits), State.getSlotTime_eq (hn.trans hk.le) hfits]
    exact hlt
  · rw [State.getSlotTime_eq (le_refl 1) hfits]
    exact State.time_lt_slotStart
  · have hfirst : s.slotStart 1 < 2 ^ 32 := lt_of_le_of_lt (hmono.monotone hn) hfits
    have htime := State.getSlotTime_eq hn hfits
    refine ⟨htime, ?_, fun t ht => ?_⟩
    · rw [htime]
      exact (State.getSlotAtTime_eq_iff hfirst hfits hn).mpr ⟨le_refl _, hmono (Nat.lt_succ_self n)⟩
    · rw [htime]
      exact State.le_getSlotAtTime hfirst ht hn
  · rw [State.getSlotTime_eq (le_refl 1) hfits]
    exact State.getSlotAtTime_eq_zero_iff hfits ht
  · rw [State.getSlotTime_eq (le_refl 1) hfits] at hge
    have hslot : 1 ≤ s.getSlotAtTime t := (State.le_getSlotAtTime hfits ht (le_refl 1)).mpr hge
    obtain ⟨hstarted, hnext⟩ := (State.getSlotAtTime_eq_iff hfits ht hslot).mp rfl
    rw [State.getSlotTime_eq hslot (lt_of_le_of_lt hstarted ht)]
    refine ⟨hstarted, fun hfitsNext => ?_⟩
    rw [State.getSlotTime_eq (Nat.le_succ_of_le hslot) hfitsNext]
    exact hnext
  · have hcounted := h.counted h0
    rw [hcounted.currentAslot, hcounted.headBlockNumber, lastSlot_eq]

end

/-! ### A small chain -/

/-- Three witnesses take turns every five seconds. -/
def threeWitnesses : State where
  parameters := ⟨5, 3600, 3, by decide, by decide, by decide, by decide⟩
  activeWitnesses := ⟨[1, 2, 3], by decide, by decide⟩
  headBlockNumber := 0
  headBlockId := ⟨0, 0⟩
  time := 1000
  nextMaintenanceTime := 0
  recentlyMissedCount := 0
  currentAslot := 0
  recentSlotsFilled := BitVec.allOnes 128
  maintenanceFlag := false
  currentShuffledWitnesses := [1, 2, 3]
  totalMissed _ := 0

theorem threeWitnesses_genesis : Genesis threeWitnesses :=
  ⟨rfl, rfl, by decide, rfl, rfl, rfl, rfl⟩

/-- The first block of the small chain, by a witness at a time. -/
def firstBlock (witness time : Nat) : BlockHeader := ⟨⟨0, 0⟩, time, witness, 0, 0⟩

def sameMaintenance : State.Maintenance := ⟨threeWitnesses.activeWitnesses, none⟩

/-- The first block comes two seconds late in the second slot. -/
theorem slots_match_times_second_slot :
    ∃ s, threeWitnesses.applyBlock none (fun _ => 0) false (firstBlock 3 1012) sameMaintenance =
        .ok s ∧ s.currentAslot = s.headBlockNumber + 1 ∧
      threeWitnesses.getSlotAtTime (threeWitnesses.getSlotTime 2) = 2 := by
  obtain ⟨s, hs, -⟩ : ∃ s, threeWitnesses.applyBlock none (fun _ => 0) false (firstBlock 3 1012)
      sameMaintenance = .ok s ∧ decide (s.currentAslot = 2) = true :=
    exists_ok_of_any (by decide +kernel)
  refine ⟨s, hs, ?_, ((slots_match_times threeWitnesses).2.1 2 (by decide) (by decide)).2.1⟩
  exact (slots_match_times threeWitnesses).2.2.2 none _ s [1] threeWitnesses_genesis
    (.block (n := 1) .start (by decide) (by decide) hs (by decide) (by decide))

end Nestchain.Schedule
