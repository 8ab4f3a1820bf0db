import Nestchain.Market.Price
import Nestchain.Lib.Table

/-! Vesting balances, the two policies that say when their funds vest, and what creates, fills and
empties them.  Times are in seconds.  Coin seconds are of the type `uint128_t` and a product of an
amount and of seconds is of the type `int64_t`, which both wrap around.  The assertions of the
policies are assertions here. -/

namespace Nestchain.Vesting

open Lib Market

/-- The value of an `int64_t` after an operation. -/
def int64 (x : Int) : Int := x.bmod (2 ^ 64)

/-- The value of a `uint128_t` after an operation. -/
def uint128 (x : Int) : Nat := (x % 2 ^ 128).toNat

/-- `operator <=` of two amounts, which throws for amounts of different assets. -/
def lessEq (a b : Asset) : Attempt Bool := do
  let greater ← b.less a
  pure (!greater)

theorem lessEq_eq_ok {a b : Asset} {r : Bool} :
    lessEq a b = .ok r ↔ a.assetId = b.assetId ∧ r = decide (a.amount ≤ b.amount) := by
  simp only [lessEq, bind_eq_ok, Asset.less_eq_ok, pure_eq_ok]
  constructor
  · rintro ⟨greater, ⟨hid, rfl⟩, rfl⟩
    exact ⟨hid.symm, by simp only [← decide_not, not_lt]⟩
  · rintro ⟨hid, rfl⟩
    exact ⟨_, ⟨hid.symm, rfl⟩, by simp only [← decide_not, not_lt]⟩

theorem maxShareSupply_nonneg : 0 ≤ maxShareSupply := by decide

theorem int64_of_lt {x : Int} (hneg : 0 ≤ x) (hlt : x < 2 ^ 63) : int64 x = x := by
  rw [int64, Int.bmod_def]
  split <;> omega

theorem uint128_of_lt {x : Int} (hneg : 0 ≤ x) (hlt : x < 2 ^ 128) : uint128 x = x.toNat := by
  rw [uint128, Int.emod_eq_of_lt hneg hlt]

theorem uint128_of_neg {x : Int} (hneg : x < 0) (hle : -2 ^ 63 ≤ x) : 2 ^ 100 ≤ uint128 x := by
  rw [uint128, ← Int.add_emod_right, Int.emod_eq_of_lt (by omega) (by omega)]
  omega

/-- `vesting_policy_context` -/
structure Context where
  balance : Asset
  now : Nat
  amount : Asset

def sumBelowMaxShares (a b : Asset) : Bool :=
  decide (a.amount ≤ maxShareSupply ∧ b.amount ≤ maxShareSupply ∧
    a.amount + b.amount ≤ maxShareSupply)

/-! ### Linear vesting -/

structure LinearPolicy where
  beginTimestamp : Nat
  vestingCliffSeconds : Nat
  vestingDurationSeconds : Nat
  beginBalance : Int
deriving DecidableEq

namespace LinearPolicy

def getAllowedWithdraw (p : LinearPolicy) (ctx : Context) : Attempt Asset :=
  if p.beginTimestamp < ctx.now ∧ p.vestingCliffSeconds ≤ ctx.now - p.beginTimestamp then do
    let elapsedSeconds := ctx.now - p.beginTimestamp
    let totalVested :=
      if elapsedSeconds < p.vestingDurationSeconds then
        int64 (uint128 (p.beginBalance * elapsedSeconds) / p.vestingDurationSeconds)
      else p.beginBalance
    require (0 ≤ totalVested)
    let withdrawnAlready := p.beginBalance - ctx.balance.amount
    require (0 ≤ withdrawnAlready)
    let allowedWithdraw := totalVested - withdrawnAlready
    require (0 ≤ allowedWithdraw)
    pure ⟨allowedWithdraw, ctx.balance.assetId⟩
  else pure ⟨0, ctx.balance.assetId⟩

def isDepositAllowed (_ : LinearPolicy) (ctx : Context) : Bool :=
  decide (ctx.amount.assetId = ctx.balance.assetId) && sumBelowMaxShares ctx.amount ctx.balance

def isWithdrawAllowed (p : LinearPolicy) (ctx : Context) : Attempt Bool :=
  if ctx.amount.assetId = ctx.balance.assetId then do
    let allowed ← p.getAllowedWithdraw ctx
    lessEq ctx.amount allowed
  else pure false

end LinearPolicy

/-! ### Coin-day vesting -/

structure CddPolicy where
  vestingSeconds : Nat
  coinSecondsEarned : Nat
  startClaim : Nat
  coinSecondsEarnedLastUpdate : Nat
deriving DecidableEq

namespace CddPolicy

def computeCoinSecondsEarned (p : CddPolicy) (ctx : Context) : Attempt Nat := do
  require (p.coinSecondsEarnedLastUpdate ≤ ctx.now)
  let deltaSeconds := ctx.now - p.coinSecondsEarnedLastUpdate
  let deltaCoinSeconds := uint128 (ctx.balance.amount * deltaSeconds)
  let coinSecondsEarnedCap := uint128 (ctx.balance.amount * max p.vestingSeconds 1)
  pure (min (uint128 (p.coinSecondsEarned + deltaCoinSeconds)) coinSecondsEarnedCap)

def updateCoinSecondsEarned (p : CddPolicy) (ctx : Context) : Attempt CddPolicy := do
  let earned ← p.computeCoinSecondsEarned ctx
  pure { p with coinSecondsEarned := earned, coinSecondsEarnedLastUpdate := ctx.now }

def getAllowedWithdraw (p : CddPolicy) (ctx : Context) : Attempt Asset :=
  if ctx.now ≤ p.startClaim then pure ⟨0, ctx.balance.assetId⟩
  else do
    let csEarned ← p.computeCoinSecondsEarned ctx
    let withdrawAvailable := csEarned / max p.vestingSeconds 1
    require (withdrawAvailable ≤ ctx.balance.amount)
    pure ⟨withdrawAvailable, ctx.balance.assetId⟩

def onDeposit (p : CddPolicy) (ctx : Context) : Attempt CddPolicy :=
  p.updateCoinSecondsEarned ctx

def onDepositVested (p : CddPolicy) (ctx : Context) : Attempt CddPolicy := do
  let p ← p.onDeposit ctx
  let vested := int64 (ctx.amount.amount * max p.vestingSeconds 1)
  pure { p with coinSecondsEarned := uint128 (p.coinSecondsEarned + vested) }

def onWithdraw (p : CddPolicy) (ctx : Context) : Attempt CddPolicy := do
  let p ← p.updateCoinSecondsEarned ctx
  let coinSecondsNeeded := uint128 (ctx.amount.amount * max p.vestingSeconds 1)
  require (coinSecondsNeeded ≤ p.coinSecondsEarned)
  pure { p with coinSecondsEarned := p.coinSecondsEarned - coinSecondsNeeded }

def isDepositAllowed (_ : CddPolicy) (ctx : Context) : Bool :=
  decide (ctx.amount.assetId = ctx.balance.assetId) && sumBelowMaxShares ctx.amount ctx.balance

def isWithdrawAllowed (p : CddPolicy) (ctx : Context) : Attempt Bool := do
  let allowed ← p.getAllowedWithdraw ctx
  lessEq ctx.amount allowed

end CddPolicy

/-! ### Vesting balances -/

inductive Policy where
  | linear (p : LinearPolicy)
  | cdd (p : CddPolicy)
deriving DecidableEq

namespace Policy

def getAllowedWithdraw (ctx : Context) : Policy → Attempt Asset
  | linear p => p.getAllowedWithdraw ctx
  | cdd p => p.getAllowedWithdraw ctx

def isDepositAllowed (ctx : Context) : Policy → Bool
  | linear p => p.isDepositAllowed ctx
  | cdd p => p.isDepositAllowed ctx

def isDepositVestedAllowed (ctx : Context) : Policy → Bool
  | linear _ => false
  | cdd p => p.isDepositAllowed ctx

def isWithdrawAllowed (ctx : Context) : Policy → Attempt Bool
  | linear p => p.isWithdrawAllowed ctx
  | cdd p => p.isWithdrawAllowed ctx

def onDeposit (ctx : Context) : Policy → Attempt Policy
  | linear p => pure (linear p)
  | cdd p => do
    let p ← p.onDeposit ctx
    pure (cdd p)

/-- May not deposit vested into a linear vesting balance. -/
def onDepositVested (ctx : Context) : Policy → Attempt Policy
  | linear _ => .error .thrown
  | cdd p => do
    let p ← p.onDepositVested ctx
    pure (cdd p)

def onWithdraw (ctx : Context) : Policy → Attempt Policy
  | linear p => pure (linear p)
  | cdd p => do
    let p ← p.onWithdraw ctx
    pure (cdd p)

end Policy

/-- `vesting_balance_object` -/
structure VestingBalance where
  owner : AccountId
  balance : Asset
  policy : Policy
deriving DecidableEq

namespace VestingBalance

def getAllowedWithdraw (b : VestingBalance) (now : Nat) : Attempt Asset :=
  b.policy.getAllowedWithdraw ⟨b.balance, now, ⟨0, coreAsset⟩⟩

def isDepositAllowed (b : VestingBalance) (now : Nat) (amount : Asset) : Bool :=
  b.policy.isDepositAllowed ⟨b.balance, now, amount⟩

def isDepositVestedAllowed (b : VestingBalance) (now : Nat) (amount : Asset) : Bool :=
  b.policy.isDepositVestedAllowed ⟨b.balance, now, amount⟩

/-- If some policy allows to withdraw more than the balance, the assertion fails. -/
def isWithdrawAllowed (b : VestingBalance) (now : Nat) (amount : Asset) : Attempt Bool := do
  let result ← b.policy.isWithdrawAllowed ⟨b.balance, now, amount⟩
  let within ← lessEq amount b.balance
  require (within ∨ result = false)
  pure result

def deposit (b : VestingBalance) (now : Nat) (amount : Asset) : Attempt VestingBalance := do
  let policy ← b.policy.onDeposit ⟨b.balance, now, amount⟩
  let balance ← b.balance.plus amount
  pure { b with balance, policy }

def depositVested (b : VestingBalance) (now : Nat) (amount : Asset) : Attempt VestingBalance := do
  let policy ← b.policy.onDepositVested ⟨b.balance, now, amount⟩
  let balance ← b.balance.plus amount
  pure { b with balance, policy }

def withdraw (b : VestingBalance) (now : Nat) (amount : Asset) : Attempt VestingBalance := do
  let within ← lessEq amount b.balance
  require within
  let policy ← b.policy.onWithdraw ⟨b.balance, now, amount⟩
  let balance ← b.balance.minus amount
  pure { b with balance, policy }

end VestingBalance

/-! ### Operations -/

/-- `vesting_policy_initializer` -/
inductive PolicyInitializer where
  | linear (beginTimestamp vestingCliffSeconds vestingDurationSeconds : Nat)
  | cdd (startClaim vestingSeconds : Nat)

/-- `init_policy_visitor` -/
def PolicyInitializer.init (initBalance : Int) (now : Nat) : PolicyInitializer → Policy
  | linear beginTimestamp cliff duration => .linear ⟨beginTimestamp, cliff, duration, initBalance⟩
  | cdd startClaim vestingSeconds => .cdd ⟨vestingSeconds, 0, startClaim, now⟩

/-- The balance that `vesting_balance_create_operation` makes; the creator pays for it. -/
def vestingBalanceCreate (owner : AccountId) (amount : Asset) (policy : PolicyInitializer)
    (now : Nat) : Attempt VestingBalance := do
  require (0 < amount.amount)
  pure ⟨owner, amount, policy.init amount.amount now⟩

/-- `vesting_balance_withdraw_operation`, whose amount is credited to the owner. -/
def vestingBalanceWithdraw (owner : AccountId) (amount : Asset) (now : Nat) (b : VestingBalance) :
    Attempt VestingBalance := do
  require (0 < amount.amount)
  require (owner = b.owner)
  let allowed ← b.isWithdrawAllowed now amount
  require allowed
  let within ← lessEq amount b.balance
  require within
  b.withdraw now amount

/-- The vesting balance that `deposit_lazy_vesting` creates. -/
def lazyVestingBalance (amount : Int) (reqVestingSeconds : Nat) (reqOwner : AccountId)
    (requireVesting : Bool) (now : Nat) : VestingBalance where
  owner := reqOwner
  balance := ⟨amount, coreAsset⟩
  policy := .cdd {
    vestingSeconds := reqVestingSeconds
    coinSecondsEarned := if requireVesting then 0 else uint128 (int64 (amount * reqVestingSeconds))
    startClaim := 0
    coinSecondsEarnedLastUpdate := now }

/-- `database::deposit_lazy_vesting`: the identifier of the vesting balance, when it is a new one,
and all vesting balances. -/
def depositLazyVesting (ovbid : Option Nat) (amount : Int) (reqVestingSeconds : Nat)
    (reqOwner : AccountId) (requireVesting : Bool) (now : Nat) (vbos : Table VestingBalance) :
    Attempt (Option Nat × Table VestingBalance) :=
  if amount = 0 then pure (none, vbos)
  else
    let created := lazyVestingBalance amount reqVestingSeconds reqOwner requireVesting now
    match ovbid with
    | none => pure (some vbos.next, vbos.create created)
    | some vbid => do
      let vbo ← demand (vbos.find vbid)
      match vbo.policy with
      | .linear _ => pure (some vbos.next, vbos.create created)
      | .cdd p =>
        if vbo.owner = reqOwner ∧ p.vestingSeconds = reqVestingSeconds then do
          let vbo ← (if requireVesting then vbo.deposit else vbo.depositVested) now
            ⟨amount, coreAsset⟩
          pure (none, vbos.set vbid vbo)
        else pure (some vbos.next, vbos.create created)

/-- `balance_object` -/
structure BalanceObject where
  balance : Asset
  vestingPolicy : Option LinearPolicy
  lastClaimDate : Nat
deriving DecidableEq

/-- `balance_claim_operation` of the owner of the balance: the balance that is left, when it is not
removed.  The amount that is claimed is added to the balance of an account. -/
def balanceClaim (totalClaimed : Asset) (now : Nat) (b : BalanceObject) :
    Attempt (Option BalanceObject) := do
  require (totalClaimed.assetId = b.balance.assetId)
  match b.vestingPolicy with
  | none => do
    require (totalClaimed = b.balance)
    pure none
  | some policy => do
    let allowed ← policy.isWithdrawAllowed ⟨b.balance, now, totalClaimed⟩
    require allowed
    require ((86400 : Int) ≤ now - b.lastClaimDate)
    let partly ← totalClaimed.less b.balance
    if partly then do
      let balance ← b.balance.minus totalClaimed
      pure (some { b with balance, lastClaimDate := now })
    else pure none

end Nestchain.Vesting
