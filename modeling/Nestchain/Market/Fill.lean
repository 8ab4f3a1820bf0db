import Nestchain.Market.MaxDebtToCover

/-! Filling and cancelling orders.  The virtual operations that the code pushes for the history are
left out, and with them the arguments that only they use. -/

namespace Nestchain.Market

open Lib

/-- The order after a fill that pays `pays` and leaves some of it. -/
def LimitOrder.afterFill (o : LimitOrder) (pays : Asset) : LimitOrder :=
  { o with
    forSale := o.forSale - pays.amount
    deferredFee := 0
    deferredPaidFee := ⟨0, o.deferredPaidFee.assetId⟩ }

namespace Ledger

/-- Add an amount to the `total_core_in_orders` of an account when it is in the core asset. -/
def noteInOrders (L : Ledger) (account : AccountId) (a : Asset) : Attempt Ledger :=
  if a.assetId = coreAsset then L.addCoreInOrders account a.amount else pure L

/-! ### Cancelling -/

def cancelBid (L : Ledger) (id : Nat) : Attempt Ledger := do
  let b ← demand (L.bids.find id)
  let L ← L.adjustBalance b.bidder b.invSwanPrice.base
  pure { L with bids := L.bids.remove id }

def cancelSettleOrder (L : Ledger) (id : Nat) : Attempt Ledger := do
  let s ← demand (L.settlements.find id)
  let L ← L.adjustBalance s.owner s.balance
  pure { L with settlements := L.settlements.remove id }

/-- The fee for the cancellation of an order that the owner did not ask for, and the order with
what is left of its deferred fees. -/
def payCancelFee (L : Ledger) (o : LimitOrder) : Attempt (LimitOrder × Ledger) :=
  let coreCancelFee := min L.parameters.limitOrderCancelFee o.deferredFee
  if 0 < o.deferredFee ∧ 0 < coreCancelFee then do
    let L ← L.payFee o.seller coreCancelFee
    let o' := { o with deferredFee := o.deferredFee - coreCancelFee }
    let paid := o.deferredPaidFee
    if paid.amount = 0 then pure (o', L)
    else do
      -- the part of the fee that was paid, rounded up
      let cancelFeeAmount := (paid.amount * coreCancelFee + o.deferredFee - 1) / o.deferredFee
      let L ← L.modifyDynamicData paid.assetId fun d =>
        { d with accumulatedFees := d.accumulatedFees + cancelFeeAmount }
      pure ({ o' with deferredPaidFee := ⟨paid.amount - cancelFeeAmount, paid.assetId⟩ }, L)
  else pure (o, L)

/-- The refund of the deferred fees of `o` to the owner, where `paid` says that the order was
created with a fee in another asset, whose core part then goes back to the fee pool. -/
def refundFee (L : Ledger) (o : LimitOrder) (paid : Bool) : Attempt Ledger :=
  if paid then do
    let L ← L.adjustBalance o.seller o.deferredPaidFee
    L.modifyDynamicData o.deferredPaidFee.assetId fun d =>
      { d with feePool := d.feePool + o.deferredFee }
  else L.adjustBalance o.seller ⟨o.deferredFee, coreAsset⟩

/-- `cancel_limit_order`; a virtual operation is created when the order expired or was culled. -/
def cancelLimitOrder (L : Ledger) (id : Nat) (createVirtualOp skipCancelFee : Bool) :
    Attempt Ledger := do
  let o ← demand (L.limitOrders.find id)
  let left ← (if createVirtualOp && !skipCancelFee then L.payCancelFee o else pure (o, L))
  let L ← left.2.noteInOrders o.seller o.amountForSale.neg
  let L ← L.adjustBalance o.seller o.amountForSale
  let L ← L.refundFee left.1 (o.deferredPaidFee.amount ≠ 0)
  pure { L with limitOrders := L.limitOrders.remove id }

def maybeCullSmallOrder (L : Ledger) (id : Nat) : Attempt (Bool × Ledger) := do
  let o ← demand (L.limitOrders.find id)
  let receives ← o.amountToReceive
  if receives.amount = 0 then do
    let L ← L.cancelLimitOrder id true
      (0 < o.deferredFee ∧ L.headBlockTime ≤ hardforkCore604Time)
    pure (true, L)
  else pure (false, L)

/-! ### Filling -/

/-- `calculate_market_fee` of the asset `id`. -/
def calculateMarketFee (id : AssetId) (o : AssetOptions) (tradeAmount : Asset) : Asset :=
  if !o.chargeMarketFee then ⟨0, id⟩
  else if o.marketFeePercent = 0 then ⟨0, id⟩
  else ⟨min (tradeAmount.amount * o.marketFeePercent / fullPercent) o.maxMarketFee, id⟩

def payMarketFees (L : Ledger) (receives : Asset) : Attempt (Asset × Ledger) := do
  let a ← L.asset receives.assetId
  let issuerFees := calculateMarketFee receives.assetId a.options receives
  if 0 < issuerFees.amount then do
    let L ← L.modifyDynamicData receives.assetId fun d =>
      { d with accumulatedFees := d.accumulatedFees + issuerFees.amount }
    pure (issuerFees, L)
  else pure (issuerFees, L)

def payOrder (L : Ledger) (receiver : AccountId) (receives pays : Asset) : Attempt Ledger := do
  let L ← L.noteInOrders receiver pays.neg
  L.adjustBalance receiver receives

/-- The deferred fees of an order that is filled for the first time. -/
def payDeferredFees (L : Ledger) (o : LimitOrder) : Attempt Ledger := do
  let L ← (if 0 < o.deferredFee then L.payFee o.seller o.deferredFee else pure L)
  if 0 < o.deferredPaidFee.amount then
    L.modifyDynamicData o.deferredPaidFee.assetId fun d =>
      { d with accumulatedFees := d.accumulatedFees + o.deferredPaidFee.amount }
  else pure L

def fillLimitOrder (L : Ledger) (id : Nat) (pays receives : Asset) (cullIfSmall : Bool) :
    Attempt (Bool × Ledger) := do
  let o ← demand (L.limitOrders.find id)
  require (o.sellAssetId = pays.assetId)
  require (pays.assetId ≠ receives.assetId)
  let paid ← L.payMarketFees receives
  let net ← receives.minus paid.1
  let L ← paid.2.payOrder o.seller net pays
  let L ← L.payDeferredFees o
  if pays = o.amountForSale then pure (true, { L with limitOrders := L.limitOrders.remove id })
  else if cullIfSmall then
    maybeCullSmallOrder { L with limitOrders := L.limitOrders.set id (o.afterFill pays) } id
  else pure (false, { L with limitOrders := L.limitOrders.set id (o.afterFill pays) })

def fillCallOrder (L : Ledger) (id : Nat) (pays receives : Asset) : Attempt (Bool × Ledger) := do
  let c ← demand (L.callOrders.find id)
  require (c.debtType = receives.assetId)
  require (c.collateralType = pays.assetId)
  require (pays.amount ≤ c.collateral)
  let mia ← L.bitasset receives.assetId
  let debt := Asset.mk (c.debt - receives.amount) c.debtType
  let collateral := Asset.mk (c.collateral - pays.amount) c.collateralType
  let L ← L.modifyDynamicData receives.assetId fun d =>
    { d with currentSupply := d.currentSupply - receives.amount }
  let L ← L.noteInOrders c.borrower pays.neg
  if debt.amount = 0 then do
    -- the collateral that is left is freed
    let L ← L.adjustBalance c.borrower collateral
    let L ← L.noteInOrders c.borrower collateral.neg
    pure (true, { L with callOrders := L.callOrders.remove id })
  else do
    let callPrice ← Price.callPrice debt collateral mia.currentFeed.maintenanceCollateralRatio
    let c' := { c with debt := debt.amount, collateral := collateral.amount, callPrice }
    pure (false, { L with callOrders := L.callOrders.set id c' })

def fillSettleOrder (L : Ledger) (id : Nat) (pays receives : Asset) : Attempt (Bool × Ledger) := do
  let s ← demand (L.settlements.find id)
  let paid ← L.payMarketFees receives
  let isPartial ← pays.less s.balance
  let net ← receives.minus paid.1
  let L ← paid.2.adjustBalance s.owner net
  if isPartial then do
    let s' := { s with balance := ⟨s.balance.amount - pays.amount, s.balance.assetId⟩ }
    pure (false, { L with settlements := L.settlements.set id s' })
  else pure (true, { L with settlements := L.settlements.remove id })

/-! ### Bids -/

/-- `create` of a call order: a borrower has at most one in a debt asset. -/
def createCallOrder (L : Ledger) (c : CallOrder) : Attempt Ledger := do
  require ((L.callOrders.findBy fun d => d.borrower = c.borrower ∧ d.debtType = c.debtType) = none)
  pure { L with callOrders := L.callOrders.create c }

/-- `create` of a bid: a bidder has at most one for a debt asset. -/
def createBid (L : Ledger) (b : CollateralBid) : Attempt Ledger := do
  require ((L.bids.findBy fun d => d.debtType = b.debtType ∧ d.bidder = b.bidder) = none)
  pure { L with bids := L.bids.create b }

def executeBid (L : Ledger) (id : Nat) (debtCovered collateralFromFund : Int)
    (currentFeed : PriceFeed) : Attempt Ledger := do
  let b ← demand (L.bids.find id)
  let collateral := Asset.mk (b.invSwanPrice.base.amount + collateralFromFund)
    b.invSwanPrice.base.assetId
  let callPrice ← Price.callPrice ⟨debtCovered, b.debtType⟩ collateral
    currentFeed.maintenanceCollateralRatio
  let L ← L.createCallOrder ⟨b.bidder, collateral.amount, debtCovered, callPrice, none⟩
  let L ← L.noteInOrders b.bidder collateral
  pure { L with bids := L.bids.remove id }

end Ledger

end Nestchain.Market
