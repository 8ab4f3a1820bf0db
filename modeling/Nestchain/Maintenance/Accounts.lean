import Nestchain.Lib.Attempt
import Nestchain.Lib.Table

/-! The accounts as the maintenance of the chain sees them: their votes, the fees that they have
paid since the last maintenance, and the vesting balances in which their shares of the fees are
deposited.  Of the objects of the database the state has what holds or moves the core asset; a
vesting policy is there with the vesting period that a deposit compares, without its coin
seconds. -/

namespace Nestchain.Maintenance

open Lib

abbrev AccountId := Nat

/-- The accounts 0 to 4, which belong to the blockchain: `GRAPHENE_COMMITTEE_ACCOUNT`,
`GRAPHENE_WITNESS_ACCOUNT`, `GRAPHENE_RELAXED_COMMITTEE_ACCOUNT`, `GRAPHENE_NULL_ACCOUNT` and
`GRAPHENE_TEMP_ACCOUNT`. -/
def ofBlockchain (id : AccountId) : Prop := id ≤ 4

instance (id : AccountId) : Decidable (ofBlockchain id) := inferInstanceAs (Decidable (_ ≤ _))

def nullAccount : AccountId := 3

def proxyToSelfAccount : AccountId := 5

def fullPercent : Nat := 10000

/-- `time_point_sec::maximum` -/
def endOfTime : Nat := 4294967295

/-! ### Votes -/

inductive VoteType where
  | committee
  | witness
  | worker
deriving DecidableEq

structure VoteId where
  type : VoteType
  number : Nat
deriving DecidableEq

/-- The step of the loop of `account_options::validate`: the witnesses and the committee members
that are still needed. -/
def countVote (needed : Nat × Nat) (id : VoteId) : Nat × Nat :=
  if id.type = .witness ∧ needed.1 ≠ 0 then (needed.1 - 1, needed.2)
  else if id.type = .committee ∧ needed.2 ≠ 0 then (needed.1, needed.2 - 1)
  else needed

/-- The options of an account that the vote counting reads, with what `account_options::validate`
accepts. -/
structure AccountOptions where
  votingAccount : AccountId
  numWitness : Nat
  numCommittee : Nat
  votes : List VoteId
  valid : votes.foldl countVote (numWitness, numCommittee) = (0, 0)
deriving DecidableEq

/-! ### Accounts -/

structure AccountStatistics where
  totalCoreInOrders : Int
  coreInBalance : Int
  hasCashbackVb : Bool
  isVoting : Bool
  lifetimeFeesPaid : Int
  pendingFees : Int
  pendingVestedFees : Int
deriving DecidableEq

namespace AccountStatistics

def hasSomeCoreVoting (s : AccountStatistics) : Bool :=
  s.isVoting ∧ (0 < s.totalCoreInOrders ∨ 0 < s.coreInBalance ∨ s.hasCashbackVb)

def hasPendingFees (s : AccountStatistics) : Bool := 0 < s.pendingFees ∨ 0 < s.pendingVestedFees

def needMaintenance (s : AccountStatistics) : Bool := s.hasSomeCoreVoting ∨ s.hasPendingFees

def payFee (s : AccountStatistics) (coreFee threshold : Int) : AccountStatistics :=
  if threshold < coreFee then { s with pendingFees := s.pendingFees + coreFee }
  else { s with pendingVestedFees := s.pendingVestedFees + coreFee }

end AccountStatistics

/-- The `account_balance_object` of an account in the core asset. -/
structure CoreBalance where
  balance : Int
  maintenanceFlag : Bool
deriving DecidableEq

structure Account where
  name : List Char
  membershipExpirationDate : Nat
  registrar : AccountId
  referrer : AccountId
  lifetimeReferrer : AccountId
  networkFeePercentage : Nat
  lifetimeReferrerFeePercentage : Nat
  referrerRewardsPercentage : Nat
  options : AccountOptions
  cashbackVb : Option Nat
  statistics : AccountStatistics
  coreBalance : Option CoreBalance
  percentages : networkFeePercentage + lifetimeReferrerFeePercentage ≤ fullPercent ∧
    referrerRewardsPercentage ≤ fullPercent
deriving DecidableEq

namespace Account

def isLifetimeMember (a : Account) : Bool := a.membershipExpirationDate = endOfTime

def isBasicAccount (a : Account) (now : Nat) : Bool := a.membershipExpirationDate < now

def isMember (a : Account) (now : Nat) : Bool := !a.isBasicAccount now

/-- The account, with its lifetime referrer as referrer when the referrer is no longer a member. -/
def withMember (a referrer : Account) (now : Nat) : Account :=
  if referrer.isBasicAccount now then { a with referrer := a.lifetimeReferrer } else a

def core (a : Account) : Int := (a.coreBalance.map CoreBalance.balance).getD 0

end Account

/-- A vesting balance in the core asset; the policy is a coin-days policy with its vesting seconds,
or a linear one. -/
structure VestingBalance where
  owner : AccountId
  balance : Int
  vestingSeconds : Option Nat
deriving DecidableEq

/-! ### The state -/

structure Witness where
  witnessAccount : AccountId
  payVb : Option Nat
deriving DecidableEq

/-- `worker_type` -/
inductive WorkerType where
  | refund (totalBurned : Int)
  | vesting (balance : Nat)
  | burn (totalBurned : Int)
deriving DecidableEq

/-- A worker, with the daily pay that `worker_create` accepts. -/
structure Worker where
  dailyPay : Int
  workBeginDate : Nat
  workEndDate : Nat
  totalVotesFor : Int
  totalVotesAgainst : Int
  worker : WorkerType
  pay_range : 0 < dailyPay ∧ dailyPay < 1000000000000000
deriving DecidableEq

/-- Fees of confidential transfers; the asset that they are designated to is there with the accounts
that it pays, when it is configured as `is_configured` asks. -/
structure FbaAccumulator where
  accumulatedFbaFees : Int
  designated : Option (AccountId × AccountId)
deriving DecidableEq

structure CoreAsset where
  currentSupply : Int
  maxSupply : Int
  accumulatedFees : Int
deriving DecidableEq

structure Parameters where
  blockInterval : Nat
  maintenanceInterval : Nat
  cashbackVestingPeriodSeconds : Nat
  witnessPayVestingSeconds : Nat
  witnessPayPerBlock : Int
  workerBudgetPerDay : Int
  countNonMemberVotes : Bool
  maximumWitnessCount : Nat
  maximumCommitteeCount : Nat
  intervals_pos : 0 < blockInterval ∧ 0 < maintenanceInterval
deriving DecidableEq

/-- The state of the chain that the maintenance reads and writes.  What the market holds of the core
asset, in orders, fee pools and settlement funds, is one amount. -/
structure State where
  headBlockTime : Nat
  nextMaintenanceTime : Nat
  lastBudgetTime : Nat
  nextAvailableVoteId : Nat
  parameters : Parameters
  accounts : Table Account
  vestingBalances : Table VestingBalance
  witnesses : Table Witness
  workers : Table Worker
  fbaAccumulators : Table FbaAccumulator
  core : CoreAsset
  witnessBudget : Int
  held : Int
deriving DecidableEq

namespace State

def account (S : State) (id : AccountId) : Attempt Account := demand (S.accounts.find id)

def setAccount (S : State) (id : AccountId) (a : Account) : State :=
  { S with accounts := S.accounts.set id a }

/-- An amount of the core asset is taken out of the supply. -/
def burn (S : State) (amount : Int) : State :=
  { S with core := { S.core with currentSupply := S.core.currentSupply - amount } }

/-- `adjust_balance` in the core asset. -/
def adjustBalance (S : State) (id : AccountId) (delta : Int) : Attempt State :=
  if delta = 0 then pure S
  else do
    let a ← S.account id
    match a.coreBalance with
    | none => do
      require (0 < delta)
      pure (S.setAccount id { a with coreBalance := some ⟨delta, true⟩ })
    | some b => do
      require (delta < 0 → -delta ≤ b.balance)
      pure (S.setAccount id { a with coreBalance := some ⟨b.balance + delta, true⟩ })

/-! ### Deposits in vesting balances -/

def createVesting (S : State) (owner : AccountId) (amount : Int) (vestingSeconds : Nat) :
    Option Nat × State :=
  (some S.vestingBalances.next,
    { S with vestingBalances := S.vestingBalances.create ⟨owner, amount, some vestingSeconds⟩ })

/-- `deposit_lazy_vesting`: the id of the vesting balance when a new one was created. -/
def depositLazyVesting (S : State) (ovbid : Option Nat) (amount : Int) (reqVestingSeconds : Nat)
    (reqOwner : AccountId) : Attempt (Option Nat × State) :=
  if amount = 0 then pure (none, S)
  else
    match ovbid with
    | none => pure (S.createVesting reqOwner amount reqVestingSeconds)
    | some id => do
      let vbo ← demand (S.vestingBalances.find id)
      if vbo.owner = reqOwner ∧ vbo.vestingSeconds = some reqVestingSeconds then
        pure (none, { S with
          vestingBalances := S.vestingBalances.set id
            { vbo with balance := vbo.balance + amount } })
      else pure (S.createVesting reqOwner amount reqVestingSeconds)

def depositCashback (S : State) (id : AccountId) (amount : Int) : Attempt State := do
  let a ← S.account id
  if amount = 0 then pure S
  else if ofBlockchain id then
    -- the blockchain's accounts do not get cashback; it goes to the reserve pool
    pure (S.burn amount)
  else do
    let r ← S.depositLazyVesting a.cashbackVb amount S.parameters.cashbackVestingPeriodSeconds id
    match r.1 with
    | none => pure r.2
    | some vbid => pure (r.2.setAccount id { a with
        cashbackVb := some vbid
        statistics := { a.statistics with hasCashbackVb := true } })

def depositWitnessPay (S : State) (id : Nat) (amount : Int) : Attempt State := do
  let wit ← demand (S.witnesses.find id)
  let r ← S.depositLazyVesting wit.payVb amount S.parameters.witnessPayVestingSeconds
    wit.witnessAccount
  match r.1 with
  | none => pure r.2
  | some vbid => pure { r.2 with witnesses := r.2.witnesses.set id { wit with payVb := some vbid } }

/-! ### Fees -/

def cutFee (a : Int) (p : Nat) : Int :=
  if a = 0 ∨ p = 0 then 0 else if p = fullPercent then a else a * p / fullPercent

/-- The shares of a fee of an account: what goes to the network, and what is paid to whom. -/
def shares (a : Account) (total : Int) : Int × List (AccountId × Int) :=
  let networkCut := cutFee total a.networkFeePercentage
  let lifetimeCut := cutFee total a.lifetimeReferrerFeePercentage
  let referral := total - networkCut - lifetimeCut
  let referrerCut := cutFee referral a.referrerRewardsPercentage
  (networkCut, [(a.lifetimeReferrer, lifetimeCut), (a.referrer, referrerCut),
    (a.registrar, referral - referrerCut)])

/-- `pay_out_fees` of `process_fees`: a referrer that is no longer a member is replaced first. -/
def payOutFees (S : State) (id : AccountId) (coreFeeTotal : Int) : Attempt State := do
  let a ← S.account id
  let referrer ← S.account a.referrer
  let a := a.withMember referrer S.headBlockTime
  let cuts := shares a coreFeeTotal
  let S := S.setAccount id a
  let S := { S with core := { S.core with accumulatedFees := S.core.accumulatedFees + cuts.1 } }
  cuts.2.foldlM (fun S cut => S.depositCashback cut.1 cut.2) S

def processFees (S : State) (id : AccountId) : Attempt State := do
  let a ← S.account id
  let pendingFees := a.statistics.pendingFees
  let pendingVestedFees := a.statistics.pendingVestedFees
  if 0 < pendingFees ∨ 0 < pendingVestedFees then do
    let S ← S.payOutFees id pendingFees
    let S ← S.payOutFees id pendingVestedFees
    let a ← S.account id
    pure (S.setAccount id { a with
      statistics := { a.statistics with
        lifetimeFeesPaid := a.statistics.lifetimeFeesPaid + (pendingFees + pendingVestedFees)
        pendingFees := 0
        pendingVestedFees := 0 } })
  else pure S

end State

end Nestchain.Maintenance
