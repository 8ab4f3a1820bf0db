import Nestchain.Maintenance.Accounts
import Mathlib.Data.List.Sort

/-! What a block does with the budget: the pay of the witness that signed it, and at maintenance the
fees of confidential transfers, the votes and the fees of the accounts, and the new budget.  The
conversions to 128-bit numbers and back to share amounts wrap as those of the code do. -/

namespace Nestchain.Maintenance

open Lib

/-- `fc::uint128` of a 64-bit number. -/
def toUint128 (x : Int) : Int := x % 2 ^ 128

/-- The conversion of a 64-bit number to a share amount. -/
def toShare (x : Int) : Int := x.bmod (2 ^ 64)

/-- `to_uint64`, and the conversion of the result to a share amount. -/
def toUint64 (x : Int) : Attempt Int := do
  require (x < 2 ^ 64)
  pure (toShare x)

/-! ### Votes -/

/-- `_vote_tally_buffer`, the two histograms of the numbers of witnesses and committee members, and
`_total_voting_stake`. -/
structure Tally where
  votes : List UInt64
  witnessCounts : List UInt64
  committeeCounts : List UInt64
  totalVotingStake : UInt64
deriving DecidableEq

/-- The stake is added to the entry of a buffer. -/
def addStake (stake : UInt64) (buffer : List UInt64) (offset : Nat) : List UInt64 :=
  buffer.modify offset (· + stake)

/-- The stake is added to the entry of a histogram for a number of seats, unless more are asked for
than there may be. -/
def addCount (stake : UInt64) (maximum number : Nat) (histogram : List UInt64) : List UInt64 :=
  if number ≤ maximum then addStake stake histogram (min (number / 2) (histogram.length - 1))
  else histogram

namespace State

/-- The buffers as `vote_tally_helper` starts with them. -/
def startTally (S : State) : Tally :=
  ⟨List.replicate S.nextAvailableVoteId 0,
    List.replicate (S.parameters.maximumWitnessCount / 2 + 1) 0,
    List.replicate (S.parameters.maximumCommitteeCount / 2 + 1) 0, 0⟩

/-- The core asset in the cashback balance of an account. -/
def cashback (S : State) (a : Account) : Attempt Int :=
  match a.cashbackVb with
  | none => pure 0
  | some id => do
    let vbo ← demand (S.vestingBalances.find id)
    pure vbo.balance

/-- `vote_tally_helper` for an account that has `core` in its balance. -/
def tallyHelper (S : State) (T : Tally) (a : Account) (core : Int) : Attempt Tally :=
  if S.parameters.countNonMemberVotes || a.isMember S.headBlockTime then do
    let opinion ← (if a.options.votingAccount = proxyToSelfAccount then pure a
      else S.account a.options.votingAccount)
    let cashback ← S.cashback a
    let stake := UInt64.ofInt (a.statistics.totalCoreInOrders + cashback + core)
    pure
      { votes := opinion.options.votes.foldl (fun votes id =>
        addStake stake votes id.number) T.votes
        witnessCounts := addCount stake S.parameters.maximumWitnessCount opinion.options.numWitness
          T.witnessCounts
        committeeCounts := addCount stake S.parameters.maximumCommitteeCount
          opinion.options.numCommittee T.committeeCounts
        totalVotingStake := T.totalVotingStake + stake }
  else pure T

/-! ### The maintenance of the accounts -/

/-- The loop over the balances with a maintenance flag. -/
def refreshBalances (S : State) : State :=
  { S with
    accounts := S.accounts.map fun a =>
      match a.coreBalance with
      | some ⟨balance, true⟩ =>
        { a with
          statistics := { a.statistics with coreInBalance := balance }
          coreBalance := some ⟨balance, false⟩ }
      | _ => a }

/-- The order of the index `by_maintenance_seq`. -/
def maintainedBefore (a b : Account) : Prop :=
  (a.statistics.needMaintenance = false ∧ b.statistics.needMaintenance = true) ∨
    (a.statistics.needMaintenance = b.statistics.needMaintenance ∧ a.name < b.name)

instance : DecidableRel maintainedBefore := fun _ _ => inferInstanceAs (Decidable (_ ∨ _))

/-- The statistics `by_maintenance_seq`. -/
def maintenanceSeq (S : State) : List (Nat × Account) :=
  S.accounts.rows.insertionSort fun r s => ¬maintainedBefore s.2 r.2

/-- `stats_itr`, where the loop starts. -/
def firstForMaintenance (S : State) : Option AccountId :=
  (S.maintenanceSeq.find? fun r => r.2.statistics.needMaintenance).map Prod.fst

/-- `stats_itr` after it has been incremented at the statistics of an account. -/
def nextForMaintenance (S : State) (a : Account) : Option AccountId :=
  (S.maintenanceSeq.find? fun r => maintainedBefore a r.2).map Prod.fst

/-- A round of the loop of `perform_account_maintenance`. -/
def maintenanceRound (s : State × Tally × Option AccountId) :
    Attempt ((State × Tally × Option AccountId) ⊕ State × Tally) :=
  match s.2.2 with
  | none => pure (.inr (s.1, s.2.1))
  | some id => do
    let a ← s.1.account id
    let next := s.1.nextForMaintenance a
    let T ← (if a.statistics.hasSomeCoreVoting then
        s.1.tallyHelper s.2.1 a a.statistics.coreInBalance
      else pure s.2.1)
    let S ← (if a.statistics.hasPendingFees then s.1.processFees id else pure s.1)
    pure (.inl (S, T, next))

def performAccountMaintenance (rounds : Nat) (S : State) : Attempt (State × Tally) :=
  let S := S.refreshBalances
  loop maintenanceRound rounds (S, S.startTally, S.firstForMaintenance)

/-! ### Fees of confidential transfers -/

def buybackPercent : Nat := 6000

def issuerPercent : Nat := 2000

/-- `split_fba_balance` -/
def splitFbaBalance (S : State) (id : Nat) : Attempt State := do
  let fba ← demand (S.fbaAccumulators.find id)
  let fees := fba.accumulatedFbaFees
  if fees = 0 then pure S
  else do
    let S ← (match fba.designated with
      | none => pure (S.burn fees)
      | some (buybackAccount, issuer) => do
        let buybackAmount ← toUint64 (toUint128 fees * buybackPercent % 2 ^ 128 / fullPercent)
        let issuerAmount ← toUint64 (toUint128 fees * issuerPercent % 2 ^ 128 / fullPercent)
        require (buybackAmount + issuerAmount ≤ fees)
        let S := S.burn (fees - (buybackAmount + issuerAmount))
        let S ← S.adjustBalance buybackAccount buybackAmount
        S.adjustBalance issuer issuerAmount)
    pure { S with
      fbaAccumulators := S.fbaAccumulators.set id { fba with accumulatedFbaFees := 0 } }

def distributeFbaBalances (S : State) : Attempt State :=
  [0, 1, 2].foldlM (fun S id => S.splitFbaBalance id) S

/-! ### Workers -/

end State

namespace Worker

def isActive (w : Worker) (now : Nat) : Bool := w.workBeginDate ≤ now ∧ now ≤ w.workEndDate

def approvingStake (w : Worker) : Int := w.totalVotesFor - w.totalVotesAgainst

/-- The pay of a worker for the time that has passed, in microseconds. -/
def requestedPay (w : Worker) (passed : Int) : Attempt Int :=
  toUint64 (toUint128 w.dailyPay * toUint128 passed % 2 ^ 128 / 86400000000)

end Worker

namespace State

/-- The workers that are paid, the one with the most votes first, and of two with the same votes the
older one. -/
def activeWorkers (S : State) : List (Nat × Worker) :=
  (S.workers.rows.filter fun r => r.2.isActive S.headBlockTime && 0 <
    r.2.approvingStake).insertionSort
    fun r s => s.2.approvingStake < r.2.approvingStake ∨
      (s.2.approvingStake = r.2.approvingStake ∧ r.1 ≤ s.1)

/-- `pay_worker` of the worker types. -/
def payWorker (S : State) (id : Nat) (pay : Int) : Attempt State := do
  let w ← demand (S.workers.find id)
  let paid (S : State) (worker : WorkerType) : State :=
    { S with workers := S.workers.set id { w with worker := worker } }
  match w.worker with
  | .refund totalBurned =>
    pure ((paid S (.refund (totalBurned + pay))).burn pay)
  | .vesting vbid => do
    let vbo ← demand (S.vestingBalances.find vbid)
    pure { S with
      vestingBalances := S.vestingBalances.set vbid { vbo with balance := vbo.balance + pay } }
  | .burn totalBurned => (paid S (.burn (totalBurned + pay))).adjustBalance nullAccount pay

/-- The pay of the next worker, as long as there is a budget. -/
def payNext (passed : Int) (s : State × Int) (w : Nat × Worker) : Attempt (State × Int) :=
  if 0 < s.2 then do
    let requested ← w.2.requestedPay passed
    let actual := min s.2 requested
    let S ← s.1.payWorker w.1 actual
    pure (S, s.2 - actual)
  else pure s

/-- `pay_workers`: what is left of the budget. -/
def payWorkers (S : State) (budget : Int) : Attempt (State × Int) :=
  S.activeWorkers.foldlM
    (payNext (((S.headBlockTime : Int) - S.lastBudgetTime) * 1000000)) (S, budget)

/-! ### The budget -/

/-- `reserved` of the core asset. -/
def reserved (S : State) : Int := S.core.maxSupply - S.core.currentSupply

/-- What the budget may be taken from: the fees and what is left of the budget of the witnesses
count as reserved at the beginning of the interval. -/
def reserve (S : State) : Int := S.reserved + S.core.accumulatedFees + S.witnessBudget

/-- `total_budget` of `initialize_budget_record`. -/
def totalBudget (S : State) : Attempt Int :=
  if S.lastBudgetTime = 0 ∨ S.headBlockTime ≤ S.lastBudgetTime then pure 0
  else
    let dt : Nat := S.headBlockTime - S.lastBudgetTime
    let budget := (toUint128 S.reserve * dt * 17 + (2 ^ 32 - 1)) % 2 ^ 128 / 2 ^ 32
    if budget < toUint128 S.reserve then toUint64 budget else pure S.reserve

/-- The blocks that are due until the next maintenance. -/
def blocksToMaint (S : State) : Nat :=
  (S.nextMaintenanceTime - S.headBlockTime + S.parameters.blockInterval - 1) /
    S.parameters.blockInterval

/-- `requested_witness_budget` -/
def requestedWitnessBudget (S : State) : Int :=
  toShare (S.parameters.witnessPayPerBlock * S.blocksToMaint)

/-- The budget of the workers, of what is available for it. -/
def workerBudget (S : State) (available : Int) : Attempt Int :=
  let budget := toUint128 S.parameters.workerBudgetPerDay *
    (S.nextMaintenanceTime - S.headBlockTime : Nat) % 2 ^ 128 / 86400
  if toUint128 available ≤ budget then pure available else toUint64 budget

/-- The amounts of a `budget_record`. -/
structure BudgetRecord where
  fromInitialReserve : Int
  fromAccumulatedFees : Int
  fromUnusedWitnessBudget : Int
  totalBudget : Int
  requestedWitnessBudget : Int
  witnessBudget : Int
  workerBudget : Int
  leftoverWorkerFunds : Int
  supplyDelta : Int
deriving DecidableEq

def processBudget (S : State) : Attempt (BudgetRecord × State) := do
  let total ← S.totalBudget
  let requested := S.requestedWitnessBudget
  let witnessBudget := min requested total
  let workerBudget ← S.workerBudget (total - witnessBudget)
  let paid ← S.payWorkers workerBudget
  let record : BudgetRecord :=
    { fromInitialReserve := S.reserved
      fromAccumulatedFees := S.core.accumulatedFees
      fromUnusedWitnessBudget := S.witnessBudget
      totalBudget := total
      requestedWitnessBudget := requested
      witnessBudget := witnessBudget
      workerBudget := workerBudget
      leftoverWorkerFunds := paid.2
      supplyDelta := witnessBudget + workerBudget - paid.2 - S.core.accumulatedFees -
        S.witnessBudget }
  let S := paid.1
  pure (record, { S with
    core := { S.core with
      currentSupply := S.core.currentSupply + record.supplyDelta
      accumulatedFees := 0 }
    witnessBudget := witnessBudget
    lastBudgetTime := S.headBlockTime })

/-- The next maintenance after the one that is done in a block. -/
def laterMaintenance (S : State) (firstBlock : Bool) : Nat :=
  let interval := S.parameters.maintenanceInterval
  if firstBlock then (S.headBlockTime / interval + 1) * interval
  else S.nextMaintenanceTime + ((S.headBlockTime - S.nextMaintenanceTime) / interval + 1) * interval

/-! ### Blocks -/

/-- `update_signing_witness`, as far as it pays the witness. -/
def updateSigningWitness (S : State) (witness : Nat) : Attempt State :=
  let witnessPay := min S.parameters.witnessPayPerBlock S.witnessBudget
  { S with witnessBudget := S.witnessBudget - witnessPay }.depositWitnessPay witness witnessPay

/-- `account_upgrade` to a lifetime member. -/
def upgradeToLifetimeMember (S : State) (id : AccountId) : Attempt State := do
  let a ← S.account id
  require (a.isLifetimeMember = false)
  let S ← S.processFees id
  let a ← S.account id
  pure (S.setAccount id { a with
    membershipExpirationDate := endOfTime
    referrer := id
    registrar := id
    lifetimeReferrer := id
    lifetimeReferrerFeePercentage := fullPercent - a.networkFeePercentage
    percentages := ⟨by have := a.percentages.1; omega, a.percentages.2⟩ })

end State

end Nestchain.Maintenance
