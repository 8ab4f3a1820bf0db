import Nestchain.Schedule.Slots

/-! The turns of the witnesses.  The shuffle swaps positions of the list of the active witnesses, so
the schedule is a permutation of them, and consecutive absolute slots go through the schedule in
order, from any slot on. -/

namespace Nestchain.Schedule

open Lib Chain

/-! ### The shuffle -/

theorem shuffleRound_ok {nowHi : UInt64} {witnesses : Array WitnessId} {i : Nat}
    (h : i < witnesses.size) :
    ∃ witnesses', State.shuffleRound nowHi witnesses i = .ok witnesses' ∧
      witnesses'.Perm witnesses := by
  have hj : i + (State.random nowHi i).toNat % (witnesses.size - i) < witnesses.size := by
    have hlt := Nat.mod_lt (State.random nowHi i).toNat (Nat.sub_pos_of_lt h)
    omega
  exact ⟨witnesses.swap i _ h hj, dif_pos ⟨h, hj⟩, Array.swap_perm h hj⟩

theorem shuffle_ok (time : Nat) (witnesses : List WitnessId) :
    ∃ shuffled, State.shuffle time witnesses = .ok shuffled ∧ shuffled.Perm witnesses := by
  obtain ⟨a, ha, hperm, -⟩ := foldlM_total
    (P := fun l (a : Array WitnessId) =>
      a.Perm witnesses.toArray ∧ ∀ i ∈ l, i < witnesses.length)
    (f := State.shuffleRound (UInt64.ofNat time <<< 32))
    (fun i l a h => by
      have hi : i < a.size := by
        rw [h.1.size_eq, List.size_toArray]
        exact h.2 i List.mem_cons_self
      obtain ⟨a', ha', hperm⟩ := shuffleRound_ok hi
      exact ⟨a', ha', hperm.trans h.1, fun j hj => h.2 j (List.mem_cons_of_mem i hj)⟩)
    (List.range witnesses.length) witnesses.toArray
    ⟨Array.Perm.refl _, fun i hi => List.mem_range.mp hi⟩
  refine ⟨a.toList, ?_, hperm.toList⟩
  rw [State.shuffle, ha]
  rfl

/-! ### Turns -/

theorem add_mod_eq {n c i : Nat} (hi : i < n) :
    (c + i) % n = if c % n + i < n then c % n + i else c % n + i - n := by
  have hlt : c % n < n := Nat.mod_lt c (by omega)
  rw [Nat.add_mod, Nat.mod_eq_of_lt hi]
  split
  · rename_i hsum
    exact Nat.mod_eq_of_lt hsum
  · rename_i hsum
    rw [Nat.mod_eq_sub_mod (not_lt.mp hsum), Nat.mod_eq_of_lt (by omega)]

theorem existsUnique_turn {α : Type} {l : List α} (hl : l.Nodup) (c : Nat) {a : α} (ha : a ∈ l) :
    ∃! i, i < l.length ∧ l[(c + i) % l.length]? = some a := by
  obtain ⟨j, hj, rfl⟩ := List.mem_iff_getElem.mp ha
  have hturn : ∀ i < l.length, l[(c + i) % l.length]? = some l[j] ↔ (c + i) % l.length = j := by
    intro i hi
    have hlt : (c + i) % l.length < l.length := Nat.mod_lt _ (by omega)
    rw [List.getElem?_eq_getElem hlt, Option.some.injEq, hl.getElem_inj_iff]
  have hlt : c % l.length < l.length := Nat.mod_lt c (by omega)
  refine ⟨if c % l.length ≤ j then j - c % l.length else j + l.length - c % l.length, ⟨?_, ?_⟩,
    fun i hi => ?_⟩
  · split <;> omega
  · rw [hturn _ (by split <;> omega), add_mod_eq (by split <;> omega)]
    split <;> split <;> omega
  · have hmod := (hturn i hi.1).mp hi.2
    rw [add_mod_eq hi.1] at hmod
    split at hmod <;> split <;> omega

theorem getScheduledWitness_eq {s : State} {slotNum : Nat} {w : WitnessId}
    (h : s.currentAslot + slotNum < 2 ^ 64) : s.getScheduledWitness slotNum = .ok w ↔
      s.currentShuffledWitnesses[(s.currentAslot + slotNum) %
        s.currentShuffledWitnesses.length]? = some w := by
  rw [State.getScheduledWitness, demand_eq_ok, Nat.mod_eq_of_lt h]

/-! ### Runs -/

/-- The schedule is not empty and names no witness twice. -/
structure Scheduled (s : State) : Prop where
  nodup : s.currentShuffledWitnesses.Nodup
  ne_nil : s.currentShuffledWitnesses ≠ []

theorem scheduled_of_perm {s : State} {active : ActiveWitnesses}
    (h : s.currentShuffledWitnesses.Perm active.1) : Scheduled s where
  nodup := h.nodup_iff.mpr (active.2.1.imp (fun hlt => Nat.ne_of_lt hlt))
  ne_nil hnil := active.2.2 (by rw [hnil] at h; exact h.symm.eq_nil)

theorem Run.scheduled {lastCheckpoint : Option Nat} {digest : BlockHeader → Nat} {s0 s : State}
    {missed : List Nat} (h0 : Genesis s0) (h : Run lastCheckpoint digest s0 missed s) :
    Scheduled s := by
  induction h with
  | start => exact scheduled_of_perm (by rw [h0.currentShuffledWitnesses])
  | @block missed s s' skip b m n h hfits ht hblock hstarted hnext ih =>
    rcases (applyBlock_applied hblock).schedule with hshuffle | hsame
    · obtain ⟨shuffled, hok, hperm⟩ := shuffle_ok b.timestamp s'.activeWitnesses.1
      obtain rfl := Except.ok.inj (hok.symm.trans hshuffle)
      exact scheduled_of_perm hperm
    · exact ⟨hsame ▸ ih.nodup, hsame ▸ ih.ne_nil⟩

/-- The shuffle makes a permutation of the active witnesses, and in every reachable state any `n`
consecutive slots name each of the `n` witnesses of the schedule exactly once. -/
theorem every_witness_gets_its_turn :
    (∀ s : State, ∃ s', s.updateWitnessSchedule = .ok s' ∧
      s' = { s with currentShuffledWitnesses := s'.currentShuffledWitnesses } ∧
      (s.headBlockNumber % s.activeWitnesses.1.length = 0 →
        s'.currentShuffledWitnesses.Perm s.activeWitnesses.1) ∧
      (s.headBlockNumber % s.activeWitnesses.1.length ≠ 0 → s' = s)) ∧
    ∀ {lastCheckpoint digest s0 missed s}, Genesis s0 → Run lastCheckpoint digest s0 missed s →
      0 < s.currentShuffledWitnesses.length ∧
      ∀ aslot first, aslot + first + s.currentShuffledWitnesses.length ≤ 2 ^ 64 ∨
          aslot = s.currentAslot ∧ first + s.currentShuffledWitnesses.length ≤ 2 ^ 32 →
        ∀ w ∈ s.currentShuffledWitnesses, ∃! i, i < s.currentShuffledWitnesses.length ∧
          { s with currentAslot := aslot }.getScheduledWitness (first + i) = .ok w := by
  refine ⟨fun s => ?_, fun {lastCheckpoint digest s0 missed s} h0 h => ?_⟩
  · by_cases hturn : s.headBlockNumber % s.activeWitnesses.1.length = 0
    · obtain ⟨shuffled, hok, hperm⟩ := shuffle_ok s.time s.activeWitnesses.1
      refine ⟨{ s with currentShuffledWitnesses := shuffled }, ?_, rfl, fun _ => hperm,
        fun hne => absurd hturn hne⟩
      rw [State.updateWitnessSchedule, if_pos hturn, hok]
      rfl
    · exact ⟨s, if_neg hturn, rfl, fun hzero => absurd hzero hturn, fun _ => rfl⟩
  · have hscheduled := h.scheduled h0
    have hcounted := h.counted h0
    refine ⟨List.length_pos_iff.mpr hscheduled.ne_nil, fun aslot first hbound w hw => ?_⟩
    have hsmall : aslot + first + s.currentShuffledWitnesses.length ≤ 2 ^ 64 := by
      rcases hbound with hbound | ⟨rfl, hfirst⟩
      · exact hbound
      · have hle := hcounted.currentAslot_le
        have htime := hcounted.time
        omega
    obtain ⟨i, ⟨hi, hturn⟩, hunique⟩ := existsUnique_turn hscheduled.nodup (aslot + first) hw
    have hiff : ∀ i < s.currentShuffledWitnesses.length,
        { s with currentAslot := aslot }.getScheduledWitness (first + i) = .ok w ↔
          s.currentShuffledWitnesses[(aslot + first + i) %
            s.currentShuffledWitnesses.length]? = some w := by
      intro i hi
      have hword : aslot + (first + i) < 2 ^ 64 := by omega
      rw [getScheduledWitness_eq (s := { s with currentAslot := aslot }) hword, Nat.add_assoc]
    exact ⟨i, ⟨hi, (hiff i hi).mpr hturn⟩,
      fun k hk => hunique k ⟨hk.1, (hiff k hk.1).mp hk.2⟩⟩

/-- Three blocks, the first of which does the maintenance and the second of which misses a slot.
The third shuffles the witnesses, and the second witness has one of the next three slots. -/
theorem every_witness_gets_its_turn_three : ∃ s,
    Run none (fun _ => 0) threeWitnesses [0, 1, 0] s ∧ s.currentShuffledWitnesses = [3, 2, 1] ∧
      ∃! i, i < 3 ∧ s.getScheduledWitness (1 + i) = .ok 2 := by
  have hblocks : (threeWitnesses.applyBlock none (fun _ => 0) false (firstBlock 2 1005)
      sameMaintenance).toOption.any (fun s1 =>
        (s1.applyBlock none (fun _ => 0) false ⟨⟨1, 0⟩, 1030, 1, 0, 0⟩
          sameMaintenance).toOption.any fun s2 =>
            (s2.applyBlock none (fun _ => 0) false ⟨⟨2, 0⟩, 1035, 2, 0, 0⟩
              sameMaintenance).toOption.any fun s3 => s1.slotStart 1 < 2 ^ 32 ∧
                (s1.slotStart 2 ≤ 1030 ∧ 1030 < s1.slotStart 3) ∧ s2.slotStart 1 < 2 ^ 32 ∧
                (s2.slotStart 1 ≤ 1035 ∧ 1035 < s2.slotStart 2) ∧ s3.currentAslot = 4 ∧
                s3.currentShuffledWitnesses = [3, 2, 1]) = true := by decide +kernel
  obtain ⟨s1, hs1, hblocks⟩ := exists_ok_of_any hblocks
  obtain ⟨s2, hs2, hblocks⟩ := exists_ok_of_any hblocks
  obtain ⟨s3, hs3, hblocks⟩ := exists_ok_of_any hblocks
  obtain ⟨hfits1, ⟨h1, h1'⟩, hfits2, ⟨h2, h2'⟩, haslot, hshuffled⟩ := of_decide_eq_true hblocks
  have hrun : Run none (fun _ => 0) threeWitnesses [0, 1, 0] s3 :=
    .block (.block (.block .start (by decide) (by decide) hs1 (by decide) (by decide))
      hfits1 (by decide) hs2 h1 h1') hfits2 (by decide) hs3 h2 h2'
  have hlength : s3.currentShuffledWitnesses.length = 3 := congrArg List.length hshuffled
  have hturn := (every_witness_gets_its_turn.2 threeWitnesses_genesis hrun).2 s3.currentAslot 1
    (Or.inl (by rw [hlength, haslot]; decide)) 2 (by rw [hshuffled]; decide)
  rw [hlength] at hturn
  exact ⟨s3, hrun, hshuffled, hturn⟩

end Nestchain.Schedule
