import Nestchain.Maintenance.Conservation
import Nestchain.Lib.Histogram

/-! How many witnesses and committee members there are, and which: `update_active_witnesses` and
`update_active_committee_members` as far as they select them. -/

namespace Nestchain.Maintenance

open Lib

/-- A witness or committee member that votes may elect. -/
structure Candidate where
  id : Nat
  voteId : VoteId
deriving DecidableEq

/-! ### The order of the candidates -/

/-- The votes for a candidate as the share amounts that are compared. -/
def votesFor (buffer : List UInt64) (c : Candidate) : Int :=
  toShare (buffer.getD c.voteId.number 0).toNat

/-- The comparison of `sort_votable_objects`. -/
def electedBefore (buffer : List UInt64) (a b : Candidate) : Bool :=
  if votesFor buffer a ≠ votesFor buffer b then votesFor buffer b < votesFor buffer a
  else a.voteId.number < b.voteId.number

/-- `sort_votable_objects`: it takes the first of all objects, and the votes of each of them are in
the buffer. -/
def sortVotableObjects (buffer : List UInt64) (all : List Candidate) (count : Nat) :
    Attempt (List Candidate) := do
  require (all ≠ [])
  require (∀ c ∈ all, c.voteId.number < buffer.length)
  pure ((all.insertionSort fun a b => electedBefore buffer b a = false).take (min count all.length))

/-! ### The number of seats -/

/-- The loop over a histogram without its first entry: it counts the entries that it adds, as long
as the tally is not above the target. -/
def countSeats {τ : Type} (add : τ → UInt64 → Attempt τ) (below : τ → Bool) :
    τ → Nat → List UInt64 → Attempt Nat
  | _, count, [] => pure count
  | tally, count, x :: rest =>
    if below tally then do
      let tally ← add tally x
      countSeats add below tally (count + 1) rest
    else pure count

/-- The addition of share amounts, which checks for an overflow. -/
def addShare (tally : Int) (x : UInt64) : Attempt Int := do
  let sum := tally + toShare x.toNat
  require (-2 ^ 63 ≤ sum ∧ sum < 2 ^ 63)
  pure sum

namespace Tally

/-- Half of the stake that has an opinion on the number of seats. -/
def stakeTarget (T : Tally) (histogram : List UInt64) : Int :=
  toShare ((T.totalVotingStake - histogram.headD 0) / 2).toNat

def witnessCount (T : Tally) : Attempt Nat := do
  require (0 < T.witnessCounts.length)
  let target := T.stakeTarget T.witnessCounts
  if 0 < target then countSeats addShare (fun tally => tally ≤ target) 0 0 T.witnessCounts.tail
  else pure 0

/-- The tally of the committee is an unsigned number. -/
def committeeMemberCount (T : Tally) : Attempt Nat := do
  require (0 < T.committeeCounts.length)
  let target := T.stakeTarget T.committeeCounts
  if 0 < target then
    countSeats (fun tally x => pure (tally + x)) (fun tally => toShare tally.toNat ≤ target) 0 0
      T.committeeCounts.tail
  else pure 0

/-- The witnesses that `update_active_witnesses` makes active. -/
def activeWitnesses (T : Tally) (minWitnessCount : Nat) (all : List Candidate) :
    Attempt (List Candidate) := do
  let count ← T.witnessCount
  sortVotableObjects T.votes all (max (count * 2 + 1) minWitnessCount)

/-- The members that `update_active_committee_members` makes active. -/
def activeCommitteeMembers (T : Tally) (minCommitteeMemberCount : Nat) (all : List Candidate) :
    Attempt (List Candidate) := do
  let count ← T.committeeMemberCount
  sortVotableObjects T.votes all (max (count * 2 + 1) minCommitteeMemberCount)

end Tally

/-! ### Ballots -/

/-- What an account that votes adds to the tally: its stake, with the options of the account that
has its opinion. -/
structure Ballot where
  stake : UInt64
  options : AccountOptions
deriving DecidableEq

namespace State

/-- The ballot of an account that has `core` in its balance, when it counts. -/
def ballot (S : State) (a : Account) (core : Int) : Attempt (Option Ballot) :=
  if S.parameters.countNonMemberVotes || a.isMember S.headBlockTime then do
    let opinion ← (if a.options.votingAccount = proxyToSelfAccount then pure a
      else S.account a.options.votingAccount)
    let cashback ← S.cashback a
    pure (some ⟨UInt64.ofInt (a.statistics.totalCoreInOrders + cashback + core), opinion.options⟩)
  else pure none

/-- The ballots of accounts, each with its balance. -/
def ballots (S : State) : List (Account × Int) → Attempt (List Ballot)
  | [] => pure []
  | r :: voters => do
    let b ← S.ballot r.1 r.2
    let rest ← S.ballots voters
    pure (b.toList ++ rest)

end State

def Tally.count (P : Parameters) (T : Tally) (b : Ballot) : Tally where
  votes := b.options.votes.foldl (fun votes id => addStake b.stake votes id.number) T.votes
  witnessCounts := addCount b.stake P.maximumWitnessCount b.options.numWitness T.witnessCounts
  committeeCounts :=
    addCount b.stake P.maximumCommitteeCount b.options.numCommittee T.committeeCounts
  totalVotingStake := T.totalVotingStake + b.stake

theorem State.tallyHelper_eq_ok {S : State} {T T' : Tally} {a : Account} {core : Int} :
    S.tallyHelper T a core = .ok T' ↔
      ∃ b, S.ballot a core = .ok b ∧ T' = b.toList.foldl (Tally.count S.parameters) T := by
  unfold State.tallyHelper State.ballot
  split
  · simp only [bind_eq_ok, pure_eq_ok]
    constructor
    · rintro ⟨opinion, hopinion, cashback, hcashback, rfl⟩
      exact ⟨_, ⟨opinion, hopinion, cashback, hcashback, rfl⟩, rfl⟩
    · rintro ⟨b, ⟨opinion, hopinion, cashback, hcashback, rfl⟩, rfl⟩
      exact ⟨opinion, hopinion, cashback, hcashback, rfl⟩
  · simp only [pure_eq_ok]
    constructor
    · exact fun h => ⟨none, rfl, h⟩
    · rintro ⟨b, hb, h⟩
      rw [h, hb]
      rfl

theorem State.tally_of_ballots {S : State} {voters : List (Account × Int)} {ballots : List Ballot}
    (T : Tally) (h : S.ballots voters = .ok ballots) :
    voters.foldlM (fun T r => S.tallyHelper T r.1 r.2) T =
      .ok (ballots.foldl (Tally.count S.parameters) T) := by
  induction voters generalizing T ballots with
  | nil => rw [pure_eq_ok.mp h]; rfl
  | cons r voters ih =>
    simp only [State.ballots, bind_eq_ok, pure_eq_ok] at h
    obtain ⟨b, hb, rest, hrest, rfl⟩ := h
    rw [List.foldlM_cons, tallyHelper_eq_ok.mpr ⟨b, hb, rfl⟩, List.foldl_append]
    exact ih _ hrest

theorem State.performAccountMaintenance_tally {S : State} {rounds : Nat} {r : State × Tally}
    (h : S.performAccountMaintenance rounds = .ok r) :
    ∃ ballots : List Ballot, r.2 = ballots.foldl (Tally.count S.parameters) S.startTally := by
  refine (loop_invariant
    (P := fun s : State × Tally × Option AccountId => s.1.parameters = S.parameters ∧
      ∃ ballots : List Ballot, s.2.1 = ballots.foldl (Tally.count S.parameters) S.startTally)
    (Q := fun r => r.1.parameters = S.parameters ∧
      ∃ ballots : List Ballot, r.2 = ballots.foldl (Tally.count S.parameters) S.startTally)
    ?_ ?_ rounds _ r ⟨rfl, [], rfl⟩ h).2
  · rintro ⟨S1, T1, next⟩ s' ⟨hparameters, ballots, hT⟩ hround
    cases next with
    | none => cases pure_eq_ok.mp hround
    | some id =>
      simp only [maintenanceRound, bind_eq_ok, pure_eq_ok, Sum.inl.injEq] at hround
      obtain ⟨a, -, T, hcount, S2, hS2, rfl⟩ := hround
      refine ⟨?_, ?_⟩
      · split at hS2
        · rw [(processFees_adds hS2).rest]
          exact hparameters
        · rw [pure_eq_ok.mp hS2]
          exact hparameters
      · split at hcount
        · obtain ⟨b, -, rfl⟩ := tallyHelper_eq_ok.mp hcount
          refine ⟨ballots ++ b.toList, ?_⟩
          have hsame : S1.parameters = S.parameters := hparameters
          rw [List.foldl_append, ← hT, hsame]
        · exact ⟨ballots, (pure_eq_ok.mp hcount).trans hT⟩
  · rintro ⟨S1, T1, next⟩ s' ⟨hparameters, ballots, hT⟩ hround
    cases next with
    | none =>
      simp only [maintenanceRound, pure_eq_ok, Sum.inr.injEq] at hround
      obtain rfl := hround
      exact ⟨hparameters, ballots, hT⟩
    | some id =>
      simp only [maintenanceRound, bind_eq_ok, pure_eq_ok] at hround
      obtain ⟨a, -, T, -, S2, -, hleft⟩ := hround
      cases hleft

end Nestchain.Maintenance
