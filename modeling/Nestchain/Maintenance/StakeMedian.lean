import Nestchain.Maintenance.ActiveMembers
import Mathlib.Data.Prod.Lex

/-! The number of active witnesses and of committee members is the median of the numbers that the
ballots ask for, weighted with their stakes; the candidates with the most votes are elected. -/

namespace Nestchain.Maintenance

open Lib

/-! ### What the ballots ask for -/

/-- A number of seats in pairs: more than the maximum counts as the maximum, and 0 is no opinion. -/
def wish (maximum number : Nat) : Nat := min number maximum / 2

def stakeWhere (p : Ballot → Bool) (ballots : List Ballot) : Nat :=
  weightWhere (fun b => b.stake.toNat) p ballots

/-- The stake that has an opinion on the number of seats. -/
def opinionStake (maximum : Nat) (number : Ballot → Nat) (ballots : List Ballot) : Nat :=
  stakeWhere (fun b => decide (0 < wish maximum (number b))) ballots

/-- The stake that has an opinion, and asks for no more than so many pairs of seats. -/
def opinionUpTo (maximum : Nat) (number : Ballot → Nat) (k : Nat) (ballots : List Ballot) : Nat :=
  stakeWhere (fun b => decide (0 < wish maximum (number b) ∧ wish maximum (number b) ≤ k)) ballots

/-- The least number whose stake is more than half of the stake with an opinion. -/
structure IsMedian (maximum : Nat) (number : Ballot → Nat) (ballots : List Ballot) (k : Nat) :
    Prop where
  above : opinionStake maximum number ballots < 2 * opinionUpTo maximum number k ballots
  least : ∀ j < k, 2 * opinionUpTo maximum number j ballots ≤ opinionStake maximum number ballots

/-- The median, once the stake with an opinion is at least 2. -/
def IsWished (maximum : Nat) (number : Ballot → Nat) (ballots : List Ballot) (k : Nat) : Prop :=
  if opinionStake maximum number ballots < 2 then k = 0 else IsMedian maximum number ballots k

def stakeFor (ballots : List Ballot) (c : Candidate) : Nat :=
  stakeWhere (fun b => decide (c.voteId.number ∈ b.options.votes.map VoteId.number)) ballots

/-- So many of the candidates, or all of them, the ones with the most votes. -/
structure Elected (votes : Candidate → Nat) (count : Nat) (all selected : List Candidate) :
    Prop where
  length : selected.length = min count all.length
  nodup : selected.Nodup
  subset : ∀ c ∈ selected, c ∈ all
  best : ∀ c ∈ selected, ∀ d ∈ all, d ∉ selected →
    votes d < votes c ∨ (votes d = votes c ∧ c.voteId.number < d.voteId.number)

/-! ### The buffers -/

def entry (buffer : List UInt64) (i : Nat) : Nat := (buffer.getD i 0).toNat

theorem length_addStake (stake : UInt64) (buffer : List UInt64) (offset : Nat) :
    (addStake stake buffer offset).length = buffer.length := List.length_modify _ _ _

theorem entry_addStake {stake : UInt64} {buffer : List UInt64} {offset i : Nat}
    (hi : i < buffer.length) : entry (addStake stake buffer offset) i =
      (entry buffer i + if i = offset then stake.toNat else 0) % 2 ^ 64 := by
  unfold entry
  rw [addStake, List.getD_eq_getElem?_getD, List.getElem?_modify, List.getD_eq_getElem?_getD,
    List.getElem?_eq_getElem hi]
  by_cases h : i = offset
  · rw [if_pos h]
    simp only [h.symm, if_true, Option.map_eq_map, Option.map_some, Option.getD_some]
    exact UInt64.toNat_add _ _
  · rw [if_neg h]
    simp only [if_neg (Ne.symm h), Option.map_eq_map, Option.map_some, Option.getD_some,
      Nat.add_zero]
    exact (Nat.mod_eq_of_lt (UInt64.toNat_lt _)).symm

theorem foldl_addCount {maximum : Nat} (number : Ballot → Nat) (ballots : List Ballot)
    {histogram : List UInt64} (hlength : histogram.length = maximum / 2 + 1) :
    let result := ballots.foldl (fun h b => addCount b.stake maximum (number b) h) histogram
    result.length = maximum / 2 + 1 ∧ ∀ i ≤ maximum / 2, entry result i =
      (entry histogram i + stakeWhere (fun b => decide (number b ≤ maximum) && number b / 2 == i)
        ballots) % 2 ^ 64 := by
  induction ballots generalizing histogram with
  | nil => exact ⟨hlength, fun i _ => (Nat.mod_eq_of_lt (UInt64.toNat_lt _)).symm⟩
  | cons b ballots ih =>
    have hnext : (addCount b.stake maximum (number b) histogram).length = maximum / 2 + 1 := by
      unfold addCount
      split
      · rw [length_addStake, hlength]
      · exact hlength
    refine ⟨(ih hnext).1, fun i hi => ?_⟩
    have hentry : entry (addCount b.stake maximum (number b) histogram) i = (entry histogram i +
        if (decide (number b ≤ maximum) && number b / 2 == i) = true then b.stake.toNat else 0) %
          2 ^ 64 := by
      unfold addCount
      by_cases hle : number b ≤ maximum
      · have hmin : min (number b / 2) (histogram.length - 1) = number b / 2 := by omega
        rw [if_pos hle, hmin, entry_addStake (by omega)]
        simp only [hle, decide_true, Bool.true_and, beq_iff_eq, eq_comm (a := i)]
      · rw [if_neg hle]
        simp only [hle, decide_false, Bool.false_and, Bool.false_eq_true, if_false, Nat.add_zero]
        exact (Nat.mod_eq_of_lt (UInt64.toNat_lt _)).symm
    rw [List.foldl_cons, (ih hnext).2 i hi, hentry, Nat.mod_add_mod, stakeWhere, stakeWhere,
      weightWhere_cons, Nat.add_assoc]

theorem foldl_addStake (stake : UInt64) {votes : List VoteId} {buffer : List UInt64} {i : Nat}
    (hnodup : (votes.map VoteId.number).Nodup) (hi : i < buffer.length) :
    let result := votes.foldl (fun votes id => addStake stake votes id.number) buffer
    result.length = buffer.length ∧ entry result i =
      (entry buffer i + if i ∈ votes.map VoteId.number then stake.toNat else 0) % 2 ^ 64 := by
  induction votes generalizing buffer with
  | nil => exact ⟨rfl, (Nat.mod_eq_of_lt (UInt64.toNat_lt _)).symm⟩
  | cons v votes ih =>
    rw [List.map_cons, List.nodup_cons] at hnodup
    have hlength := length_addStake stake buffer v.number
    have hi' : i < (addStake stake buffer v.number).length := by omega
    obtain ⟨ihl, ihe⟩ := ih hnodup.2 hi'
    refine ⟨ihl.trans hlength, ?_⟩
    rw [List.foldl_cons, ihe, entry_addStake hi, Nat.mod_add_mod, List.map_cons, Nat.add_assoc]
    congr 2
    by_cases hv : i = v.number
    · rw [if_pos hv, if_neg (hv ▸ hnodup.1), if_pos (hv ▸ List.mem_cons_self), Nat.add_zero]
    · rw [if_neg hv, Nat.zero_add]
      simp only [List.mem_cons, hv, false_or]

theorem foldl_votes {ballots : List Ballot} {buffer : List UInt64} {i : Nat}
    (hnodup : ∀ b ∈ ballots, (b.options.votes.map VoteId.number).Nodup) (hi : i < buffer.length) :
    let result := ballots.foldl (fun votes b =>
      b.options.votes.foldl (fun votes id => addStake b.stake votes id.number) votes) buffer
    result.length = buffer.length ∧ entry result i = (entry buffer i +
      stakeWhere (fun b => decide (i ∈ b.options.votes.map VoteId.number)) ballots) % 2 ^ 64 := by
  induction ballots generalizing buffer with
  | nil => exact ⟨rfl, (Nat.mod_eq_of_lt (UInt64.toNat_lt _)).symm⟩
  | cons b ballots ih =>
    obtain ⟨hlength, hentry⟩ := foldl_addStake b.stake (hnodup b List.mem_cons_self) hi
    obtain ⟨ihl, ihe⟩ := ih (fun b' hb' => hnodup b' (List.mem_cons_of_mem _ hb')) (hlength ▸ hi)
    refine ⟨ihl.trans hlength, ?_⟩
    rw [List.foldl_cons, ihe, hentry, Nat.mod_add_mod, stakeWhere, stakeWhere, weightWhere_cons,
      Nat.add_assoc]
    simp only [decide_eq_true_eq]

theorem foldl_stake (ballots : List Ballot) (total : UInt64) :
    (ballots.foldl (fun total b => total + b.stake) total).toNat =
      (total.toNat + (ballots.map fun b => b.stake.toNat).sum) % 2 ^ 64 := by
  induction ballots generalizing total with
  | nil => exact (Nat.mod_eq_of_lt (UInt64.toNat_lt _)).symm
  | cons b ballots ih =>
    rw [List.foldl_cons, ih, UInt64.toNat_add, Nat.mod_add_mod, List.map_cons, List.sum_cons,
      Nat.add_assoc]

/-! ### The loop over the histogram -/

/-- The loop ends at the first entry with which the tally is above the target, or at the last
one; `rep` relates a tally to its value. -/
theorem countSeats_spec {τ : Type} {add : τ → UInt64 → Attempt τ} {below : τ → Bool}
    {rep : τ → Nat → Prop} {target : Nat}
    (hadd : ∀ t n x, rep t n → n + x.toNat < 2 ^ 63 →
      ∃ t', add t x = .ok t' ∧ rep t' (n + x.toNat))
    (hbelow : ∀ t n, rep t n → n < 2 ^ 63 → (below t = true ↔ n ≤ target)) :
    ∀ (rest : List UInt64) (tally : τ) (n count : Nat), rep tally n →
      n + (rest.map UInt64.toNat).sum < 2 ^ 63 →
      ∃ k ≤ rest.length, countSeats add below tally count rest = .ok (count + k) ∧
        (∀ j < k, n + ((rest.map UInt64.toNat).take j).sum ≤ target) ∧
        (k = rest.length ∨ target < n + ((rest.map UInt64.toNat).take k).sum)
  | [], tally, n, count, _, _ => ⟨0, Nat.le_refl _, rfl, fun j hj => absurd hj (Nat.not_lt_zero j),
      Or.inl rfl⟩
  | x :: rest, tally, n, count, hrep, hsum => by
    rw [List.map_cons, List.sum_cons] at hsum
    by_cases hgo : below tally = true
    · obtain ⟨tally', htally, hrep'⟩ := hadd tally n x hrep (by omega)
      obtain ⟨k, hk, hcount, hbefore, hend⟩ :=
        countSeats_spec hadd hbelow rest tally' (n + x.toNat) (count + 1) hrep' (by omega)
      have htake : ∀ j, n + (((x :: rest).map UInt64.toNat).take (j + 1)).sum =
          n + x.toNat + ((rest.map UInt64.toNat).take j).sum := fun j => by
        rw [List.map_cons, List.take_succ_cons, List.sum_cons, Nat.add_assoc]
      refine ⟨k + 1, Nat.succ_le_succ hk, ?_, fun j hj => ?_, ?_⟩
      · rw [countSeats, if_pos hgo, htally, Nat.add_comm k 1, ← Nat.add_assoc]
        exact hcount
      · cases j with
        | zero => exact (hbelow tally n hrep (by omega)).mp hgo
        | succ j =>
          rw [htake]
          exact hbefore j (Nat.lt_of_succ_lt_succ hj)
      · rw [htake, List.length_cons, Nat.succ_inj]
        exact hend
    · refine ⟨0, Nat.zero_le _, by rw [countSeats, if_neg hgo]; rfl,
        fun j hj => absurd hj (Nat.not_lt_zero j), Or.inr ?_⟩
      rw [hbelow tally n hrep (by omega)] at hgo
      rw [List.take_zero, List.sum_nil]
      omega

/-! ### The median -/

section

variable {maximum : Nat} {number : Ballot → Nat} {ballots : List Ballot}

/-- What the histogram holds from 1 up to some entry. -/
def recordedUpTo (maximum : Nat) (number : Ballot → Nat) (k : Nat) (ballots : List Ballot) : Nat :=
  stakeWhere (fun b => decide (number b ≤ maximum) &&
    decide (0 < number b / 2 ∧ number b / 2 ≤ k)) ballots

theorem wish_le (maximum number : Nat) : wish maximum number ≤ maximum / 2 :=
  Nat.div_le_div_right (min_le_right _ _)

theorem recordedUpTo_eq {k : Nat} (hk : k < maximum / 2) :
    recordedUpTo maximum number k ballots = opinionUpTo maximum number k ballots := by
  refine weightWhere_congr fun b _ => ?_
  rw [Bool.eq_iff_iff, Bool.and_eq_true, decide_eq_true_eq, decide_eq_true_eq, decide_eq_true_eq,
    wish]
  by_cases hle : number b ≤ maximum
  · rw [min_eq_left hle]
    simp only [hle, true_and]
  · rw [min_eq_right (by omega)]
    omega

theorem opinionUpTo_last : opinionUpTo maximum number (maximum / 2) ballots =
    opinionStake maximum number ballots :=
  weightWhere_congr fun b _ => by simp only [wish_le, and_true]

theorem first_add_opinion (number : Ballot → Nat) (ballots : List Ballot)
    (hmaximum : 0 < maximum / 2) :
    stakeWhere (fun b => decide (number b ≤ maximum) && number b / 2 == 0) ballots +
      opinionStake maximum number ballots = (ballots.map fun b => b.stake.toNat).sum := by
  have hall : stakeWhere (fun _ => true) ballots = (ballots.map fun b => b.stake.toNat).sum := by
    rw [stakeWhere, weightWhere, List.filter_true]
  rw [← hall]
  refine weightWhere_add (fun b => ?_) (fun b hb => ?_) ballots
  · symm
    rw [Bool.or_eq_true, Bool.and_eq_true, decide_eq_true_eq, decide_eq_true_eq, beq_iff_eq, wish]
    omega
  · rw [Bool.and_eq_true, decide_eq_true_eq, beq_iff_eq] at hb
    rw [decide_eq_false_iff_not, wish]
    omega

theorem opinionStake_of_small (hmaximum : maximum / 2 = 0) :
    opinionStake maximum number ballots = 0 := by
  have hnone : ∀ b ∈ ballots, ¬decide (0 < wish maximum (number b)) = true := fun b _ h => by
    have hle := wish_le maximum (number b)
    rw [decide_eq_true_eq] at h
    omega
  rw [opinionStake, stakeWhere, weightWhere, List.filter_eq_nil_iff.mpr hnone]
  rfl

theorem isWished_of_loop {k first total : Nat}
    (htotal : total = (ballots.map fun b => b.stake.toNat).sum)
    (hfirst : first =
      stakeWhere (fun b => decide (number b ≤ maximum) && number b / 2 == 0) ballots)
    (hk : k ≤ maximum / 2)
    (hnone : (total - first) / 2 = 0 → k = 0)
    (hloop : 0 < (total - first) / 2 →
      (∀ j < k, recordedUpTo maximum number j ballots ≤ (total - first) / 2) ∧
      (k = maximum / 2 ∨ (total - first) / 2 < recordedUpTo maximum number k ballots)) :
    IsWished maximum number ballots k := by
  unfold IsWished
  by_cases hmaximum : maximum / 2 = 0
  · rw [if_pos (by rw [opinionStake_of_small hmaximum]; decide)]
    omega
  have hsplit := first_add_opinion number ballots (Nat.pos_of_ne_zero hmaximum)
  have hopinion : total - first = opinionStake maximum number ballots := by omega
  rw [hopinion] at hnone hloop
  split
  · exact hnone (by omega)
  · obtain ⟨hbefore, hend⟩ := hloop (by omega)
    refine ⟨?_, fun j hj => ?_⟩
    · by_cases hlast : k = maximum / 2
      · rw [hlast, opinionUpTo_last]
        omega
      · have habove := hend.resolve_left hlast
        rw [recordedUpTo_eq (by omega)] at habove
        omega
    · have hle := hbefore j hj
      rw [recordedUpTo_eq (by omega)] at hle
      omega

end

/-! ### The counts -/

theorem tail_eq {histogram : List UInt64} {n : Nat} (hlength : histogram.length = n + 1) :
    histogram.tail.map UInt64.toNat = (List.range n).map fun i => entry histogram (i + 1) := by
  refine List.ext_getElem ?_ fun i h h' => ?_
  · rw [List.length_map, List.length_tail, hlength, List.length_map, List.length_range]
    rfl
  · rw [List.length_map, List.length_range] at h'
    rw [List.getElem_map, List.getElem_map, List.getElem_tail, List.getElem_range, entry,
      List.getD_eq_getElem?_getD, List.getElem?_eq_getElem (by omega), Option.getD_some]

/-- A histogram of the ballots, with the stake of all of them. -/
structure Records (maximum : Nat) (number : Ballot → Nat) (ballots : List Ballot)
    (histogram : List UInt64) (total : UInt64) : Prop where
  length : histogram.length = maximum / 2 + 1
  entries : ∀ i ≤ maximum / 2, entry histogram i =
    stakeWhere (fun b => decide (number b ≤ maximum) && number b / 2 == i) ballots
  total : total.toNat = (ballots.map fun b => b.stake.toNat).sum
  small : (ballots.map fun b => b.stake.toNat).sum < 2 ^ 63

namespace Records

variable {maximum : Nat} {number : Ballot → Nat} {ballots : List Ballot} {histogram : List UInt64}
  {T : Tally}

theorem take_tail (h : Records maximum number ballots histogram T.totalVotingStake) {j : Nat}
    (hj : j ≤ maximum / 2) : ((histogram.tail.map UInt64.toNat).take j).sum =
      recordedUpTo maximum number j ballots := by
  rw [tail_eq h.length, ← List.map_take, List.take_range, min_eq_left hj, recordedUpTo, stakeWhere,
    ← sum_buckets]
  congr 1
  refine List.map_congr_left fun i hi => ?_
  rw [List.mem_range] at hi
  exact h.entries (i + 1) (by omega)

theorem stakeTarget (h : Records maximum number ballots histogram T.totalVotingStake) :
    entry histogram 0 ≤ T.totalVotingStake.toNat ∧ T.stakeTarget histogram =
      ((T.totalVotingStake.toNat - entry histogram 0) / 2 : Nat) := by
  have hfirst : entry histogram 0 ≤ T.totalVotingStake.toNat := by
    rw [h.entries 0 (Nat.zero_le _), h.total]
    exact weightWhere_le_sum _ _
  have hhead : (histogram.headD 0).toNat = entry histogram 0 := by
    rw [entry, List.headD_eq_head?_getD, List.head?_eq_getElem?, List.getD_eq_getElem?_getD]
  have htotal := h.total
  have hsmall := h.small
  refine ⟨hfirst, ?_⟩
  have hsub : (T.totalVotingStake - histogram.headD 0).toNat =
      T.totalVotingStake.toNat - entry histogram 0 := by
    rw [UInt64.toNat_sub_of_le _ _ (UInt64.le_iff_toNat_le.mpr (hhead ▸ hfirst)), hhead]
  rw [Tally.stakeTarget, UInt64.toNat_div, hsub]
  exact toShare_of_nonneg (Int.natCast_nonneg _) (by simp only [UInt64.reduceToNat]; omega)

theorem isWished {τ : Type} (rep : τ → Nat → Prop) (add : τ → UInt64 → Attempt τ)
    (below : τ → Bool) {start : τ}
    (h : Records maximum number ballots histogram T.totalVotingStake) (hstart : rep start 0)
    (hadd : ∀ t n x, rep t n → n + x.toNat < 2 ^ 63 →
      ∃ t', add t x = .ok t' ∧ rep t' (n + x.toNat))
    (hbelow : ∀ t n, rep t n → n < 2 ^ 63 →
      (below t = true ↔ (n : Int) ≤ T.stakeTarget histogram)) :
    ∃ k, (if 0 < T.stakeTarget histogram then countSeats add below start 0 histogram.tail
      else pure 0) = .ok k ∧ IsWished maximum number ballots k := by
  obtain ⟨hfirst, htarget⟩ := h.stakeTarget
  have hlength : histogram.tail.length = maximum / 2 := by
    rw [List.length_tail, h.length]
    rfl
  have hsum : 0 + (histogram.tail.map UInt64.toNat).sum < 2 ^ 63 := by
    have htake := h.take_tail (j := maximum / 2) le_rfl
    rw [List.take_of_length_le (by rw [List.length_map, hlength])] at htake
    rw [Nat.zero_add, htake]
    exact lt_of_le_of_lt (weightWhere_le_sum _ _) h.small
  rw [htarget] at hbelow ⊢
  obtain ⟨k, hk, hcount, hbefore, hend⟩ := countSeats_spec hadd
    (fun t n hrep hn => (hbelow t n hrep hn).trans Int.ofNat_le) histogram.tail start 0 0 hstart hsum
  rw [hlength] at hk hend
  have hstops := h.entries 0 (Nat.zero_le _)
  by_cases hpos : 0 < (T.totalVotingStake.toNat - entry histogram 0) / 2
  · refine ⟨k, ?_, isWished_of_loop h.total hstops hk (fun hzero => absurd hzero hpos.ne')
      fun _ => ⟨fun j hj => ?_, ?_⟩⟩
    · rw [if_pos (Int.natCast_pos.mpr hpos), hcount, Nat.zero_add]
    · have hle := hbefore j hj
      rw [Nat.zero_add, h.take_tail (by omega)] at hle
      exact hle
    · rw [Nat.zero_add, h.take_tail hk] at hend
      exact hend
  · refine ⟨0, ?_, isWished_of_loop h.total hstops (Nat.zero_le _) (fun _ => rfl)
      fun habove => absurd habove hpos⟩
    rw [if_neg (by rw [Int.natCast_pos]; exact hpos)]
    rfl

end Records

theorem toShare_small {n : Nat} (h : n < 2 ^ 63) : toShare n = n :=
  toShare_of_nonneg (Int.natCast_nonneg _) (by exact_mod_cast h)

theorem addShare_ok {n : Nat} {x : UInt64} (h : n + x.toNat < 2 ^ 63) :
    addShare n x = .ok (n + x.toNat : Nat) := by
  have hx : toShare x.toNat = x.toNat := toShare_small (by omega)
  rw [addShare, hx]
  simp only [bind_eq_ok, require_eq_ok, exists_const, pure_eq_ok, Int.natCast_add, and_true]
  omega

theorem witnessCount_ok {maximum : Nat} {number : Ballot → Nat} {ballots : List Ballot} {T : Tally}
    (h : Records maximum number ballots T.witnessCounts T.totalVotingStake) :
    ∃ k, T.witnessCount = .ok k ∧ IsWished maximum number ballots k := by
  obtain ⟨k, hk, hwished⟩ := Records.isWished (fun (t : Int) n => t = n) addShare
    (fun tally => tally ≤ T.stakeTarget T.witnessCounts) h rfl
    (fun t n x ht hlt => ⟨_, ht ▸ addShare_ok hlt, rfl⟩)
    (fun t n ht _ => by rw [decide_eq_true_eq, ht])
  refine ⟨k, ?_, hwished⟩
  simp only [Tally.witnessCount, bind_eq_ok, require_eq_ok, exists_const]
  exact ⟨by rw [h.length]; exact Nat.succ_pos _, hk⟩

theorem committeeMemberCount_ok {maximum : Nat} {number : Ballot → Nat} {ballots : List Ballot}
    {T : Tally} (h : Records maximum number ballots T.committeeCounts T.totalVotingStake) :
    ∃ k, T.committeeMemberCount = .ok k ∧ IsWished maximum number ballots k := by
  obtain ⟨k, hk, hwished⟩ := Records.isWished (fun (t : UInt64) n => t.toNat = n)
    (fun tally x => pure (tally + x))
    (fun tally => toShare tally.toNat ≤ T.stakeTarget T.committeeCounts) h UInt64.toNat_zero
    (fun t n x ht hlt => ⟨t + x, rfl, by
      rw [UInt64.toNat_add, ht, Nat.mod_eq_of_lt (by omega)]⟩)
    (fun t n ht hlt => by rw [decide_eq_true_eq, ht, toShare_small hlt])
  refine ⟨k, ?_, hwished⟩
  simp only [Tally.committeeMemberCount, bind_eq_ok, require_eq_ok, exists_const]
  exact ⟨by rw [h.length]; exact Nat.succ_pos _, hk⟩

/-! ### The election -/

/-- The candidates of an index: there is one, and each has a vote id of its own. -/
structure Candidates (voteIds : Nat) (all : List Candidate) : Prop where
  ne : all ≠ []
  nodup : (all.map fun c => c.voteId.number).Nodup
  registered : ∀ c ∈ all, c.voteId.number < voteIds

theorem electedBefore_eq {buffer : List UInt64} {votes : Candidate → Nat} {a b : Candidate}
    (ha : votesFor buffer a = votes a) (hb : votesFor buffer b = votes b) :
    electedBefore buffer a b = true ↔
      votes b < votes a ∨ (votes b = votes a ∧ a.voteId.number < b.voteId.number) := by
  unfold electedBefore
  rw [ha, hb]
  split
  · rename_i hne
    rw [decide_eq_true_eq]
    omega
  · rename_i heq
    rw [decide_eq_true_eq]
    omega

theorem insertionSort_ranked {buffer : List UInt64} {all : List Candidate}
    {votes : Candidate → Nat} (hvotes : ∀ c ∈ all, votesFor buffer c = votes c) :
    (all.insertionSort fun a b => electedBefore buffer b a = false).Pairwise
      fun a b => votes b < votes a ∨ (votes b = votes a ∧ a.voteId.number ≤ b.voteId.number) := by
  let key (c : Candidate) := toLex (OrderDual.toDual (votes c), c.voteId.number)
  have hkey : ∀ a b : Candidate, key a ≤ key b ↔
      votes b < votes a ∨ (votes b = votes a ∧ a.voteId.number ≤ b.voteId.number) := by
    intro a b
    rw [Prod.Lex.toLex_le_toLex, OrderDual.toDual_lt_toDual, OrderDual.toDual_inj,
      eq_comm (a := votes b)]
  have hrel : ∀ a ∈ all, ∀ b ∈ all, electedBefore buffer b a = false ↔ key a ≤ key b := by
    intro a ha b hb
    have hbefore := electedBefore_eq (hvotes b hb) (hvotes a ha)
    rw [hkey, ← Bool.not_eq_true, hbefore]
    omega
  have hsorted := List.pairwise_insertionSort (· ≤ ·) (all.map key)
  rw [← List.map_insertionSort _ _ _ _ hrel, List.pairwise_map] at hsorted
  exact hsorted.imp fun h => (hkey _ _).mp h

theorem sortVotableObjects_elected {buffer : List UInt64} {all : List Candidate}
    {votes : Candidate → Nat} (count : Nat) (hall : Candidates buffer.length all)
    (hvotes : ∀ c ∈ all, votesFor buffer c = votes c) :
    ∃ selected, sortVotableObjects buffer all count = .ok selected ∧
      Elected votes count all selected := by
  have hperm := List.perm_insertionSort (fun a b => electedBefore buffer b a = false) all
  have hsorted := insertionSort_ranked hvotes
  refine ⟨_, by
    simp only [sortVotableObjects, bind_eq_ok, require_eq_ok, exists_const, pure_eq_ok]
    exact ⟨hall.ne, hall.registered, rfl⟩, ?_⟩
  generalize all.insertionSort (fun a b => electedBefore buffer b a = false) = sorted
    at hperm hsorted
  have hnodup : (sorted.map fun c => c.voteId.number).Nodup :=
    (hperm.map _).nodup_iff.mpr hall.nodup
  refine ⟨?_, ?_, fun c hc => hperm.mem_iff.mp (List.mem_of_mem_take hc), fun c hc d hd hout => ?_⟩
  · rw [List.length_take, hperm.length_eq, min_assoc, min_self]
  · exact (hnodup.of_map _).sublist (List.take_sublist _ _)
  · -- a candidate that is not taken stands behind all that are
    rw [← List.take_append_drop (min count all.length) sorted] at hnodup hsorted
    have hdrop : d ∈ sorted.drop (min count all.length) := by
      have hmem := hperm.mem_iff.mpr hd
      rw [← List.take_append_drop (min count all.length) sorted] at hmem
      exact (List.mem_append.mp hmem).resolve_left hout
    have hrank := (List.pairwise_append.mp hsorted).2.2 c hc d hdrop
    rw [List.map_append, List.nodup_append] at hnodup
    have hne := hnodup.2.2 _ (List.mem_map_of_mem hc) _ (List.mem_map_of_mem hdrop)
    omega

/-! ### The tally of the ballots -/

section

variable {P : Parameters} {ballots : List Ballot} {T : Tally}

theorem foldl_count_votes : (ballots.foldl (Tally.count P) T).votes = ballots.foldl (fun votes b =>
    b.options.votes.foldl (fun votes id => addStake b.stake votes id.number) votes) T.votes :=
  (List.foldl_hom Tally.votes fun _ _ => rfl).symm

theorem foldl_count_witnessCounts : (ballots.foldl (Tally.count P) T).witnessCounts =
    ballots.foldl (fun h b => addCount b.stake P.maximumWitnessCount b.options.numWitness h)
      T.witnessCounts :=
  (List.foldl_hom Tally.witnessCounts fun _ _ => rfl).symm

theorem foldl_count_committeeCounts : (ballots.foldl (Tally.count P) T).committeeCounts =
    ballots.foldl (fun h b => addCount b.stake P.maximumCommitteeCount b.options.numCommittee h)
      T.committeeCounts :=
  (List.foldl_hom Tally.committeeCounts fun _ _ => rfl).symm

theorem foldl_count_totalVotingStake : (ballots.foldl (Tally.count P) T).totalVotingStake =
    ballots.foldl (fun total b => total + b.stake) T.totalVotingStake :=
  (List.foldl_hom Tally.totalVotingStake fun _ _ => rfl).symm

end

theorem entry_replicate (n i : Nat) : entry (List.replicate n 0) i = 0 := by
  rw [entry, List.getD_eq_getElem?_getD, List.getElem?_replicate]
  split <;> rfl

theorem records_of_foldl (maximum : Nat) (number : Ballot → Nat) {ballots : List Ballot}
    (hsmall : (ballots.map fun b => b.stake.toNat).sum < 2 ^ 63) :
    Records maximum number ballots
      (ballots.foldl (fun h b => addCount b.stake maximum (number b) h)
        (List.replicate (maximum / 2 + 1) 0))
      (ballots.foldl (fun total b => total + b.stake) 0) := by
  obtain ⟨hlength, hentries⟩ := foldl_addCount number ballots
    (List.length_replicate (n := maximum / 2 + 1) (a := (0 : UInt64)))
  refine ⟨hlength, fun i hi => ?_, ?_, hsmall⟩
  · rw [hentries i hi, entry_replicate, Nat.zero_add]
    exact Nat.mod_eq_of_lt (lt_trans (lt_of_le_of_lt (weightWhere_le_sum _ _) hsmall) (by decide))
  · rw [foldl_stake, UInt64.toNat_zero, Nat.zero_add]
    exact Nat.mod_eq_of_lt (lt_trans hsmall (by decide))

/-! ### The active members -/

/-- What the selection of active members returns: so many pairs of seats and one more as the ballots
wish, or the minimum. -/
def Selects (maximum : Nat) (number : Ballot → Nat) (ballots : List Ballot) (minimum : Nat)
    (all : List Candidate) (result : Attempt (List Candidate)) : Prop :=
  ∃ k selected, IsWished maximum number ballots k ∧ result = .ok selected ∧
    Elected (stakeFor ballots) (max (2 * k + 1) minimum) all selected

/-- The first entry of a histogram is part of the stake, and the target is half of the rest. -/
def TargetInRange (T : Tally) (histogram : List UInt64) : Prop :=
  entry histogram 0 ≤ T.totalVotingStake.toNat ∧
    T.stakeTarget histogram = ((T.totalVotingStake.toNat - entry histogram 0) / 2 : Nat)

/-- The ballots of any accounts elect as many witnesses and committee members as the median of their
wishes says.  The stakes are parts of the supply of the core asset, and the votes of an account are
a `flat_set` of ids that exist, each with a number of its own. -/
theorem active_members_are_the_median {S : State} {voters : List (Account × Int)}
    {ballots : List Ballot} {witnesses members : List Candidate} (minWitnessCount
    minCommitteeMemberCount : Nat) (hballots : S.ballots voters = .ok ballots)
    (hsmall : (ballots.map fun b => b.stake.toNat).sum < 2 ^ 63)
    (hvotes : ∀ b ∈ ballots, (b.options.votes.map VoteId.number).Nodup)
    (hwitnesses : Candidates S.nextAvailableVoteId witnesses)
    (hmembers : Candidates S.nextAvailableVoteId members) :
    ∃ T, voters.foldlM (fun T r => S.tallyHelper T r.1 r.2) S.startTally = .ok T ∧
      TargetInRange T T.witnessCounts ∧ TargetInRange T T.committeeCounts ∧
      Selects S.parameters.maximumWitnessCount (fun b => b.options.numWitness) ballots
        minWitnessCount witnesses (T.activeWitnesses minWitnessCount witnesses) ∧
      Selects S.parameters.maximumCommitteeCount (fun b => b.options.numCommittee) ballots
        minCommitteeMemberCount members
        (T.activeCommitteeMembers minCommitteeMemberCount members) := by
  refine ⟨_, State.tally_of_ballots S.startTally hballots, ?_⟩
  have hw := records_of_foldl S.parameters.maximumWitnessCount
    (fun b => b.options.numWitness) hsmall
  have hc := records_of_foldl S.parameters.maximumCommitteeCount
    (fun b => b.options.numCommittee) hsmall
  have hbuffer : ∀ i < S.nextAvailableVoteId,
      (ballots.foldl (Tally.count S.parameters) S.startTally).votes.length =
        S.nextAvailableVoteId ∧
      entry (ballots.foldl (Tally.count S.parameters) S.startTally).votes i =
        stakeWhere (fun b => decide (i ∈ b.options.votes.map VoteId.number)) ballots := by
    intro i hi
    have hstart : S.startTally.votes.length = S.nextAvailableVoteId := List.length_replicate
    obtain ⟨hlength, hentry⟩ := foldl_votes hvotes (hstart.symm ▸ hi)
    rw [foldl_count_votes]
    refine ⟨hlength.trans hstart, hentry.trans ?_⟩
    rw [State.startTally, entry_replicate, Nat.zero_add]
    exact Nat.mod_eq_of_lt (lt_trans (lt_of_le_of_lt (weightWhere_le_sum _ _) hsmall) (by decide))
  have hlength : (ballots.foldl (Tally.count S.parameters) S.startTally).votes.length =
      S.nextAvailableVoteId := by
    obtain ⟨c, hmem⟩ := List.exists_mem_of_ne_nil _ hwitnesses.ne
    exact (hbuffer _ (hwitnesses.registered c hmem)).1
  have hcandidates : ∀ c : Candidate, c.voteId.number < S.nextAvailableVoteId →
      votesFor (ballots.foldl (Tally.count S.parameters) S.startTally).votes c =
        stakeFor ballots c := by
    intro c hc
    have hentry := (hbuffer _ hc).2
    rw [entry] at hentry
    rw [votesFor, hentry]
    exact toShare_small (lt_of_le_of_lt (weightWhere_le_sum _ _) hsmall)
  generalize hT : ballots.foldl (Tally.count S.parameters) S.startTally = T at hlength hcandidates
  have hw' : Records S.parameters.maximumWitnessCount (fun b => b.options.numWitness) ballots
      T.witnessCounts T.totalVotingStake := by
    rw [← hT, foldl_count_witnessCounts, foldl_count_totalVotingStake]
    exact hw
  have hc' : Records S.parameters.maximumCommitteeCount (fun b => b.options.numCommittee) ballots
      T.committeeCounts T.totalVotingStake := by
    rw [← hT, foldl_count_committeeCounts, foldl_count_totalVotingStake]
    exact hc
  refine ⟨hw'.stakeTarget, hc'.stakeTarget, ?_, ?_⟩
  · obtain ⟨k, hk, hwished⟩ := witnessCount_ok hw'
    obtain ⟨selected, hselected, helected⟩ := sortVotableObjects_elected
      (max (k * 2 + 1) minWitnessCount) (hlength ▸ hwitnesses)
      (fun c hc => hcandidates c (hwitnesses.registered c hc))
    refine ⟨k, selected, hwished, ?_, Nat.mul_comm k 2 ▸ helected⟩
    rw [Tally.activeWitnesses, hk]
    exact hselected
  · obtain ⟨k, hk, hwished⟩ := committeeMemberCount_ok hc'
    obtain ⟨selected, hselected, helected⟩ := sortVotableObjects_elected
      (max (k * 2 + 1) minCommitteeMemberCount) (hlength ▸ hmembers)
      (fun c hc => hcandidates c (hmembers.registered c hc))
    refine ⟨k, selected, hwished, ?_, Nat.mul_comm k 2 ▸ helected⟩
    rw [Tally.activeCommitteeMembers, hk]
    exact hselected

/-- An account that votes for the witnesses 0, 1 and 2. -/
def threeWitnesses : AccountOptions :=
  ⟨proxyToSelfAccount, 3, 0, [⟨.witness, 0⟩, ⟨.witness, 1⟩, ⟨.witness, 2⟩], by decide⟩

def oneWitness : AccountOptions := ⟨proxyToSelfAccount, 1, 0, [⟨.witness, 2⟩], by decide⟩

def candidateAt (n : Nat) : Candidate := ⟨n, ⟨.witness, n⟩⟩

def votingState : State := { hourlyState 0 with nextAvailableVoteId := 4 }

/-- A stake of 5 asks for three witnesses, and a stake of 2 has no opinion. -/
theorem active_members_are_the_median_three : ∃ T,
    [({ plainAccount ['v'] 7 0 0 with options := threeWitnesses }, 5),
      ({ plainAccount ['w'] 8 0 0 with options := oneWitness }, 2)].foldlM
        (fun T r => votingState.tallyHelper T r.1 r.2) votingState.startTally = .ok T ∧
    T.activeWitnesses 1 ((List.range 4).map candidateAt) =
      .ok [candidateAt 2, candidateAt 0, candidateAt 1] := by
  have hcandidates : Candidates votingState.nextAvailableVoteId
      ((List.range 4).map candidateAt) := ⟨by decide, by decide, by decide⟩
  have hballots : votingState.ballots
      [({ plainAccount ['v'] 7 0 0 with options := threeWitnesses }, 5),
        ({ plainAccount ['w'] 8 0 0 with options := oneWitness }, 2)] =
      .ok [⟨5, threeWitnesses⟩, ⟨2, oneWitness⟩] := by decide +kernel
  obtain ⟨T, hT, -⟩ := active_members_are_the_median 1 1 hballots (by decide) (by decide)
    hcandidates hcandidates
  have hrun : ([({ plainAccount ['v'] 7 0 0 with options := threeWitnesses }, 5),
      ({ plainAccount ['w'] 8 0 0 with options := oneWitness }, 2)].foldlM
        (fun T r => votingState.tallyHelper T r.1 r.2) votingState.startTally).toOption.any
      (fun T => T.activeWitnesses 1 ((List.range 4).map candidateAt) =
        .ok [candidateAt 2, candidateAt 0, candidateAt 1]) = true := by decide +kernel
  rw [hT] at hrun
  exact ⟨T, hT, of_decide_eq_true hrun⟩

/-- A stake of 1 is the median of itself, but half of it is no target. -/
theorem stake_of_one_has_no_wish : ∃ (voter : Account) (ballots : List Ballot)
    (all : List Candidate) (T : Tally), votingState.ballots [(voter, 1)] = .ok ballots ∧
    (ballots.map fun b => b.stake.toNat).sum < 2 ^ 63 ∧
    (∀ b ∈ ballots, (b.options.votes.map VoteId.number).Nodup) ∧
    Candidates votingState.nextAvailableVoteId all ∧
    [(voter, 1)].foldlM (fun T r => votingState.tallyHelper T r.1 r.2) votingState.startTally =
      .ok T ∧
    IsMedian votingState.parameters.maximumWitnessCount (fun b => b.options.numWitness) ballots 1 ∧
    ∀ selected, T.activeWitnesses 1 all = .ok selected →
      selected.length ≠ min (max (2 * 1 + 1) 1) all.length := by
  have hrun : ([({ plainAccount ['v'] 7 0 0 with options := threeWitnesses }, 1)].foldlM
        (fun T r => votingState.tallyHelper T r.1 r.2) votingState.startTally).toOption.any
      (fun T => T.activeWitnesses 1 ((List.range 4).map candidateAt) = .ok [candidateAt 0]) =
        true := by decide +kernel
  obtain ⟨T, hT, hactive⟩ := exists_ok_of_any hrun
  refine ⟨{ plainAccount ['v'] 7 0 0 with options := threeWitnesses }, [⟨1, threeWitnesses⟩],
    (List.range 4).map candidateAt, T, by decide +kernel, by decide, by decide,
    ⟨by decide, by decide, by decide⟩, hT, ⟨by decide, by decide⟩, fun selected hselected => ?_⟩
  rw [of_decide_eq_true hactive] at hselected
  obtain rfl := Except.ok.inj hselected
  decide

end Nestchain.Maintenance
