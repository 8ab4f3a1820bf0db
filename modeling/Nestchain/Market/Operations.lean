import Nestchain.Market.Settlement

/-! The operations of the market with their fees, and what a block does with expired orders and at
maintenance.  An operation that throws leaves no trace, so it is no step of the ledger. -/

namespace Nestchain.Market

open Lib

namespace Ledger

/-! ### Fees -/

/-- `prepare_fee`: the fee in the core asset. -/
def prepareFee (L : Ledger) (account : AccountId) (fee : Asset) : Attempt Int := do
  require (0 ≤ fee.amount)
  let payer ← demand (L.accounts.find account)
  let a ← L.asset fee.assetId
  require (payer.isAuthorizedAsset fee.assetId a.options = true)
  if fee.assetId = coreAsset then pure fee.amount
  else do
    let fromPool ← fee.mul a.options.coreExchangeRate
    require (fromPool.assetId = coreAsset)
    require (fromPool.amount ≤ a.dynamicData.feePool)
    pure fromPool.amount

/-- `evaluator::evaluate` up to `do_evaluate`: the fee is enough, unless the schedule is not
checked. -/
def evaluateFee (L : Ledger) (account : AccountId) (fee : Asset) (requiredFee : Int)
    (skipFeeScheduleCheck : Bool) : Attempt Int := do
  let coreFeePaid ← L.prepareFee account fee
  require (skipFeeScheduleCheck = true ∨ requiredFee ≤ coreFeePaid)
  pure coreFeePaid

/-- `generic_evaluator::convert_fee` -/
def convertFee (L : Ledger) (fee : Asset) (coreFeePaid : Int) : Attempt Ledger :=
  if fee.assetId ≠ coreAsset then
    L.modifyDynamicData fee.assetId fun d =>
      { d with
        accumulatedFees := d.accumulatedFees + fee.amount
        feePool := d.feePool - coreFeePaid }
  else pure L

/-- `evaluator::apply`: the fee is taken out of the pool and paid, then the operation is applied,
and then the payer pays the fee. -/
def applyWithFee (L : Ledger) (account : AccountId) (fee : Asset) (coreFeePaid : Int)
    (doApply : Ledger → Attempt Ledger) : Attempt Ledger := do
  let L ← L.convertFee fee coreFeePaid
  let L ← L.payFee account coreFeePaid
  let L ← doApply L
  L.adjustBalance account fee.neg

end Ledger

/-! ### Limit orders -/

structure LimitOrderCreate where
  fee : Asset
  seller : AccountId
  amountToSell : Asset
  minToReceive : Asset
  expiration : Nat
  fillOrKill : Bool

namespace LimitOrderCreate

def Valid (op : LimitOrderCreate) : Prop :=
  op.amountToSell.assetId ≠ op.minToReceive.assetId ∧ 0 ≤ op.fee.amount ∧
    0 < op.amountToSell.amount ∧ 0 < op.minToReceive.amount

instance (op : LimitOrderCreate) : Decidable op.Valid := inferInstanceAs (Decidable (_ ∧ _))

def doEvaluate (op : LimitOrderCreate) (L : Ledger) : Attempt Unit := do
  require (L.headBlockTime ≤ op.expiration)
  let seller ← demand (L.accounts.find op.seller)
  let sell ← L.asset op.amountToSell.assetId
  let receive ← L.asset op.minToReceive.assetId
  require (sell.options.whitelistMarkets = [] ∨
    op.minToReceive.assetId ∈ sell.options.whitelistMarkets)
  require (op.minToReceive.assetId ∉ sell.options.blacklistMarkets)
  require (seller.isAuthorizedAsset op.amountToSell.assetId sell.options = true)
  require (seller.isAuthorizedAsset op.minToReceive.assetId receive.options = true)
  require (op.amountToSell.amount ≤ (L.getBalance op.seller op.amountToSell.assetId).amount)

/-- `convert_fee` of this evaluator: the fee that was paid is deferred, so only the pool pays. -/
def convertFee (op : LimitOrderCreate) (L : Ledger) (coreFeePaid : Int) : Attempt Ledger :=
  if L.headBlockTime ≤ hardforkCore604Time then L.convertFee op.fee coreFeePaid
  else if op.fee.assetId ≠ coreAsset then
    L.modifyDynamicData op.fee.assetId fun d => { d with feePool := d.feePool - coreFeePaid }
  else pure L

/-- `pay_fee` of this evaluator: the fee in its asset that the order defers. -/
def deferredPaidFee (op : LimitOrderCreate) (L : Ledger) : Asset :=
  if hardforkCore604Time < L.headBlockTime ∧ op.fee.assetId ≠ coreAsset then op.fee
  else ⟨0, coreAsset⟩

def doApply (op : LimitOrderCreate) (rounds : Nat) (coreFeePaid : Int) (L : Ledger) :
    Attempt Ledger := do
  let paidFee := op.deferredPaidFee L
  let L ← L.noteInOrders op.seller op.amountToSell
  let L ← L.adjustBalance op.seller op.amountToSell.neg
  let price ← Price.ofAssets op.amountToSell op.minToReceive
  let order : LimitOrder :=
    { expiration := op.expiration
      seller := op.seller
      forSale := op.amountToSell.amount
      sellPrice := price
      deferredFee := coreFeePaid
      deferredPaidFee := paidFee }
  let id := L.limitOrders.next
  let r ← Ledger.applyOrder rounds { L with limitOrders := L.limitOrders.create order } id
  require (op.fillOrKill = false ∨ r.1 = true)
  pure r.2

def apply (op : LimitOrderCreate) (rounds : Nat) (skipFeeScheduleCheck : Bool) (L : Ledger) :
    Attempt Ledger := do
  require op.Valid
  let coreFeePaid ← L.evaluateFee op.seller op.fee L.parameters.limitOrderCreateFee
    skipFeeScheduleCheck
  op.doEvaluate L
  let L ← op.convertFee L coreFeePaid
  let L ← op.doApply rounds coreFeePaid L
  L.adjustBalance op.seller op.fee.neg

/-- The operation up to `apply_order`: the id of the new order and the ledger with it. -/
def place (op : LimitOrderCreate) (skipFeeScheduleCheck : Bool) (L : Ledger) :
    Attempt (Nat × Ledger) := do
  require op.Valid
  let coreFeePaid ← L.evaluateFee op.seller op.fee L.parameters.limitOrderCreateFee
    skipFeeScheduleCheck
  op.doEvaluate L
  let L ← op.convertFee L coreFeePaid
  let paidFee := op.deferredPaidFee L
  let L ← L.noteInOrders op.seller op.amountToSell
  let L ← L.adjustBalance op.seller op.amountToSell.neg
  let price ← Price.ofAssets op.amountToSell op.minToReceive
  let order : LimitOrder :=
    { expiration := op.expiration
      seller := op.seller
      forSale := op.amountToSell.amount
      sellPrice := price
      deferredFee := coreFeePaid
      deferredPaidFee := paidFee }
  pure (L.limitOrders.next, { L with limitOrders := L.limitOrders.create order })

theorem apply_place {op : LimitOrderCreate} {rounds : Nat} {skip : Bool} {L L' : Ledger}
    (h : op.apply rounds skip L = .ok L') :
    ∃ placed r, op.place skip L = .ok placed ∧ Ledger.applyOrder rounds placed.2 placed.1 = .ok r ∧
      r.2.adjustBalance op.seller op.fee.neg = .ok L' := by
  simp only [apply, doApply, bind_eq_ok, pure_eq_ok] at h
  obtain ⟨u, hvalid, core, hcore, v, heval, M1, h1, M5, ⟨M2, h2, M3, h3, p, hp, r, hr, -, -, rfl⟩,
    h4⟩ := h
  refine ⟨(M3.limitOrders.next, { M3 with limitOrders := M3.limitOrders.create ⟨op.expiration,
    op.seller, op.amountToSell.amount, p, core, op.deferredPaidFee M1⟩ }), r, ?_, hr, h4⟩
  simp only [place, bind_eq_ok, pure_eq_ok]
  exact ⟨u, hvalid, core, hcore, v, heval, M1, h1, M2, h2, M3, h3, p, hp, rfl⟩

end LimitOrderCreate

structure LimitOrderCancel where
  fee : Asset
  feePayingAccount : AccountId
  order : Nat

def LimitOrderCancel.apply (op : LimitOrderCancel) (skipFeeScheduleCheck : Bool) (L : Ledger) :
    Attempt Ledger := do
  require (0 ≤ op.fee.amount)
  let coreFeePaid ← L.evaluateFee op.feePayingAccount op.fee L.parameters.limitOrderCancelFee
    skipFeeScheduleCheck
  let o ← demand (L.limitOrders.find op.order)
  require (o.seller = op.feePayingAccount)
  L.applyWithFee op.feePayingAccount op.fee coreFeePaid fun L =>
    L.cancelLimitOrder op.order false false

/-! ### Margin positions -/

structure CallOrderUpdate where
  fee : Asset
  fundingAccount : AccountId
  deltaCollateral : Asset
  deltaDebt : Asset
  targetCollateralRatio : Option Nat

namespace CallOrderUpdate

def Valid (op : CallOrderUpdate) : Prop :=
  0 ≤ op.fee.amount ∧ op.deltaCollateral.assetId ≠ op.deltaDebt.assetId ∧
    (op.deltaCollateral.amount ≠ 0 ∨ op.deltaDebt.amount ≠ 0)

instance (op : CallOrderUpdate) : Decidable op.Valid := inferInstanceAs (Decidable (_ ∧ _))

def doEvaluate (op : CallOrderUpdate) (L : Ledger) : Attempt Unit := do
  let b ← L.bitasset op.deltaDebt.assetId
  require (b.hasSettlement = false)
  require (op.deltaCollateral.assetId = b.options.shortBackingAsset)
  require (if b.isPredictionMarket then op.deltaCollateral.amount = op.deltaDebt.amount
    else b.currentFeed.settlementPrice.isNull = false)
  require (0 < op.deltaCollateral.amount → op.deltaCollateral.amount ≤
    (L.getBalance op.fundingAccount op.deltaCollateral.assetId).amount)

/-- The debt goes to the account and the supply, and the collateral comes from the account. -/
def moveFunds (op : CallOrderUpdate) (L : Ledger) : Attempt Ledger := do
  let L ← L.adjustBalance op.fundingAccount op.deltaDebt
  let L ← L.modifyDynamicData op.deltaDebt.assetId fun d =>
    { d with currentSupply := d.currentSupply + op.deltaDebt.amount }
  let a ← L.asset op.deltaDebt.assetId
  require (op.deltaDebt.amount = 0 ∨ 0 ≤ a.dynamicData.currentSupply)
  let L ← L.adjustBalance op.fundingAccount op.deltaCollateral.neg
  L.noteInOrders op.fundingAccount op.deltaCollateral

/-- Create or change the call order of the account: its id, the order before and the order after. -/
def updateOrder (op : CallOrderUpdate) (L : Ledger) :
    Attempt (Nat × Option CallOrder × CallOrder × Ledger) := do
  let b ← L.bitasset op.deltaDebt.assetId
  let mcr := b.currentFeed.maintenanceCollateralRatio
  match L.callOrders.findBy fun c =>
      c.borrower = op.fundingAccount ∧ c.debtType = op.deltaDebt.assetId with
  | none => do
    require (0 < op.deltaCollateral.amount)
    require (0 < op.deltaDebt.amount)
    let callPrice ← Price.callPrice op.deltaDebt op.deltaCollateral mcr
    let c : CallOrder :=
      { borrower := op.fundingAccount
        collateral := op.deltaCollateral.amount
        debt := op.deltaDebt.amount
        callPrice := callPrice
        targetCollateralRatio := op.targetCollateralRatio }
    pure (L.callOrders.next, none, c, { L with callOrders := L.callOrders.create c })
  | some (id, c) => do
    let collateral := c.collateral + op.deltaCollateral.amount
    let debt := c.debt + op.deltaDebt.amount
    require (¬(collateral = 0 ∧ debt ≠ 0))
    let callPrice ← (if 0 < debt then
        Price.callPrice ⟨debt, c.debtType⟩ ⟨collateral, c.collateralType⟩ mcr
      else pure c.callPrice)
    let c' : CallOrder :=
      { c with
        collateral := collateral
        debt := debt
        callPrice := callPrice
        targetCollateralRatio := op.targetCollateralRatio }
    pure (id, some c, c', { L with callOrders := L.callOrders.set id c' })

/-- The checks after an update: a margin call has closed the order, or none was executed and the
order is not in margin call territory, or it got better. -/
def checkUpdated (op : CallOrderUpdate) (rounds : Nat) (id : Nat) (before : Option CallOrder)
    (L : Ledger) : Attempt Ledger := do
  let b ← L.bitasset op.deltaDebt.assetId
  let r ← L.checkCallOrders rounds op.deltaDebt.assetId false
  if r.1 then do
    require (r.2.callOrders.find id = none)
    pure r.2
  else do
    let c ← demand (r.2.callOrders.find id)
    let safe := c.callPrice.inverse < b.currentFeed.settlementPrice
    let improved ← (match before with
      | none => pure false
      | some old => do
        let new ← c.collateralization
        let old' ← old.collateralization
        pure (decide (c.debt ≤ old.debt ∧ old' < new)))
    require (safe ∨ (hardforkCore583Time < L.headBlockTime ∧ improved = true))
    pure r.2

def doApply (op : CallOrderUpdate) (rounds : Nat) (L : Ledger) : Attempt Ledger := do
  let b ← L.bitasset op.deltaDebt.assetId
  let L ← op.moveFunds L
  let u ← op.updateOrder L
  let c := u.2.2.1
  let L := u.2.2.2
  if c.debt = 0 then do
    require (c.collateral = 0)
    pure { L with callOrders := L.callOrders.remove u.1 }
  else do
    require (0 < c.collateral ∧ 0 < c.debt)
    if b.isPredictionMarket then pure L else op.checkUpdated rounds u.1 u.2.1 L

def apply (op : CallOrderUpdate) (rounds : Nat) (skipFeeScheduleCheck : Bool) (L : Ledger) :
    Attempt Ledger := do
  require op.Valid
  let coreFeePaid ← L.evaluateFee op.fundingAccount op.fee L.parameters.callOrderUpdateFee
    skipFeeScheduleCheck
  op.doEvaluate L
  L.applyWithFee op.fundingAccount op.fee coreFeePaid (op.doApply rounds)

end CallOrderUpdate

structure BidCollateral where
  fee : Asset
  bidder : AccountId
  additionalCollateral : Asset
  debtCovered : Asset

namespace BidCollateral

def Valid (op : BidCollateral) : Prop :=
  0 ≤ op.fee.amount ∧ (op.debtCovered.amount = 0 ∨
    (0 < op.debtCovered.amount ∧ 0 < op.additionalCollateral.amount))

instance (op : BidCollateral) : Decidable op.Valid := inferInstanceAs (Decidable (_ ∧ _))

def current (op : BidCollateral) (L : Ledger) : Option (Nat × CollateralBid) :=
  L.bids.findBy fun b => b.debtType = op.debtCovered.assetId ∧ b.bidder = op.bidder

def doEvaluate (op : BidCollateral) (L : Ledger) : Attempt Unit := do
  let b ← L.bitasset op.debtCovered.assetId
  require (b.hasSettlement = true)
  require (op.additionalCollateral.assetId = b.options.shortBackingAsset)
  require (b.isPredictionMarket = false)
  require (0 < op.additionalCollateral.amount → op.additionalCollateral.amount ≤
    (L.getBalance op.bidder op.additionalCollateral.assetId).amount)
  require (op.current L ≠ none ∨ 0 < op.debtCovered.amount)

def doApply (op : BidCollateral) (L : Ledger) : Attempt Ledger := do
  let L ← (match op.current L with
    | none => pure L
    | some bid => L.cancelBid bid.1)
  if op.debtCovered.amount = 0 then pure L
  else do
    let L ← L.adjustBalance op.bidder op.additionalCollateral.neg
    let price ← Price.ofAssets op.additionalCollateral op.debtCovered
    L.createBid ⟨op.bidder, price⟩

def apply (op : BidCollateral) (skipFeeScheduleCheck : Bool) (L : Ledger) : Attempt Ledger := do
  require op.Valid
  let coreFeePaid ← L.evaluateFee op.bidder op.fee L.parameters.bidCollateralFee
    skipFeeScheduleCheck
  op.doEvaluate L
  L.applyWithFee op.bidder op.fee coreFeePaid op.doApply

end BidCollateral

/-! ### Settlement -/

structure AssetSettle where
  fee : Asset
  account : AccountId
  amount : Asset

namespace AssetSettle

def doEvaluate (op : AssetSettle) (L : Ledger) : Attempt Unit := do
  let a ← L.asset op.amount.assetId
  let b ← L.bitasset op.amount.assetId
  require (a.options.disableForceSettle = false ∨ b.hasSettlement = true)
  require (if b.isPredictionMarket then b.hasSettlement = true
    else b.currentFeed.settlementPrice.isNull = false ∨ b.hasSettlement = true)
  require (op.amount.amount ≤ (L.getBalance op.account op.amount.assetId).amount)

/-- Settle at the settlement price out of the fund. -/
def settleFromFund (op : AssetSettle) (b : BitassetData) (supply : Int) (L : Ledger) :
    Attempt Ledger := do
  let share ← op.amount.mul b.settlementPrice
  let settled := Asset.mk (if op.amount.amount = supply then b.settlementFund else share.amount)
    share.assetId
  require (op.amount.amount = supply ∨ settled.amount ≤ b.settlementFund)
  require (settled.amount ≠ 0 ∨ b.isPredictionMarket = true)
  let pays ← (if op.amount.amount ≠ supply ∧ settled.amount ≠ 0 then
      settled.multiplyAndRoundUp b.settlementPrice
    else pure op.amount)
  let L ← L.adjustBalance op.account pays.neg
  let L ← (if 0 < settled.amount then do
      let L ← L.modifyBitasset op.amount.assetId fun b =>
        { b with settlementFund := b.settlementFund - settled.amount }
      L.adjustBalance op.account settled
    else pure L)
  L.modifyDynamicData op.amount.assetId fun d =>
    { d with currentSupply := d.currentSupply - pays.amount }

def doApply (op : AssetSettle) (L : Ledger) : Attempt Ledger := do
  let a ← L.asset op.amount.assetId
  let b ← L.bitasset op.amount.assetId
  if b.hasSettlement then op.settleFromFund b a.dynamicData.currentSupply L
  else do
    let L ← L.adjustBalance op.account op.amount.neg
    let date := L.headBlockTime + b.options.forceSettlementDelaySec
    pure { L with settlements := L.settlements.create ⟨op.account, op.amount, date⟩ }

def apply (op : AssetSettle) (skipFeeScheduleCheck : Bool) (L : Ledger) : Attempt Ledger := do
  require (0 ≤ op.fee.amount ∧ 0 ≤ op.amount.amount)
  let coreFeePaid ← L.evaluateFee op.account op.fee L.parameters.assetSettleFee
    skipFeeScheduleCheck
  op.doEvaluate L
  L.applyWithFee op.account op.fee coreFeePaid op.doApply

end AssetSettle

structure AssetGlobalSettle where
  fee : Asset
  issuer : AccountId
  assetToSettle : AssetId
  settlePrice : Price

namespace AssetGlobalSettle

def doEvaluate (op : AssetGlobalSettle) (L : Ledger) : Attempt Unit := do
  let a ← L.asset op.assetToSettle
  let b ← L.bitasset op.assetToSettle
  require (a.options.globalSettle = true)
  require (a.issuer = op.issuer)
  require (0 < a.dynamicData.currentSupply)
  require (b.hasSettlement = false)
  let low ← Price.smallest b.options.shortBackingAsset op.assetToSettle
  -- there is a call order, since there is a supply
  let least ← demand (L.callOrdersByCollateralFrom low).head?
  let worth ← least.2.getDebt.mul op.settlePrice
  let short ← least.2.getCollateral.less worth
  require (short = false)

def apply (op : AssetGlobalSettle) (skipFeeScheduleCheck : Bool) (L : Ledger) :
    Attempt Ledger := do
  require (0 ≤ op.fee.amount ∧ op.assetToSettle = op.settlePrice.base.assetId)
  let coreFeePaid ← L.evaluateFee op.issuer op.fee L.parameters.assetGlobalSettleFee
    skipFeeScheduleCheck
  op.doEvaluate L
  L.applyWithFee op.issuer op.fee coreFeePaid fun L =>
    L.globallySettleAsset op.assetToSettle op.settlePrice

end AssetGlobalSettle

/-! ### Feeds -/

structure AssetPublishFeed where
  fee : Asset
  publisher : AccountId
  assetId : AssetId
  feed : PriceFeed

namespace AssetPublishFeed

def Valid (op : AssetPublishFeed) : Prop :=
  0 ≤ op.fee.amount ∧ op.feed.settlementPrice.Valid ∧
    op.feed.settlementPrice.isNull = false ∧ op.feed.settlementPrice.base.assetId = op.assetId

instance (op : AssetPublishFeed) : Decidable op.Valid := inferInstanceAs (Decidable (_ ∧ _))

def doEvaluate (op : AssetPublishFeed) (L : Ledger) : Attempt Unit := do
  let a ← L.asset op.assetId
  let b ← L.bitasset op.assetId
  require (b.isPredictionMarket = false ∨ b.hasSettlement = false)
  require (op.feed.settlementPrice.quote.assetId = b.options.shortBackingAsset)
  require (if a.options.witnessFed then op.publisher ∈ L.parameters.witnessAccounts
    else if a.options.committeeFed then op.publisher ∈ L.parameters.committeeAccounts
    else (b.feeds.any fun f => f.producer = op.publisher) = true)

/-- The condition for the revival of a globally settled asset: nothing is left to settle, or the
fund is enough collateral at the new feed. -/
def revives (mia : AssetId) (supply : Int) (b : BitassetData) : Attempt Bool :=
  if b.currentFeed.settlementPrice.isNull then pure false
  else if supply = 0 then pure true
  else do
    let callPrice ← Price.callPrice ⟨supply, mia⟩ ⟨b.settlementFund, b.options.shortBackingAsset⟩
      b.currentFeed.maintenanceCollateralRatio
    pure (decide (callPrice.inverse < b.currentFeed.settlementPrice))

def doApply (op : AssetPublishFeed) (rounds : Nat) (L : Ledger) : Attempt Ledger := do
  let old ← L.bitasset op.assetId
  let now := L.headBlockTime
  let L ← L.modifyBitasset op.assetId fun b =>
    (b.setFeed ⟨op.publisher, now, op.feed⟩).updateMedianFeeds now
  let b ← L.bitasset op.assetId
  if old.currentFeed.Same b.currentFeed then pure L
  else do
    let a ← L.asset op.assetId
    let L ← (if b.hasSettlement then do
        if ← revives op.assetId a.dynamicData.currentSupply b then L.reviveBitasset op.assetId
        else pure L
      else pure L)
    let r ← L.checkCallOrders rounds op.assetId true
    pure r.2

def apply (op : AssetPublishFeed) (rounds : Nat) (skipFeeScheduleCheck : Bool) (L : Ledger) :
    Attempt Ledger := do
  require op.Valid
  let coreFeePaid ← L.evaluateFee op.publisher op.fee L.parameters.assetPublishFeedFee
    skipFeeScheduleCheck
  op.doEvaluate L
  L.applyWithFee op.publisher op.fee coreFeePaid (op.doApply rounds)

end AssetPublishFeed

end Nestchain.Market
