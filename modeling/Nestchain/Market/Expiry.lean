import Nestchain.Market.Operations
import Mathlib

/-! What a block does without an operation: `clear_expired_orders`, `update_expired_feeds` and
`process_bitassets`. -/

namespace Nestchain.Market

open Lib

namespace Ledger

/-- The limit orders that are expired, in the order of `by_expiration`. -/
def expiredLimitOrders (L : Ledger) : List (Nat × LimitOrder) :=
  (sortRows (fun a b => a.expiration < b.expiration) L.limitOrders).filter fun r =>
    r.2.expiration ≤ L.headBlockTime

/-! ### Force settlement -/

/-- The state of the settlement of one order: the ledger, the volume settled so far, and whether the
asset is finished for this block. -/
structure Settling where
  ledger : Ledger
  settled : Int
  finished : Bool

/-- A round of the settlement of the order `id`: match it with the least collateralized position. -/
def settleRound (mia : AssetId) (id : Nat) (settlementPrice : Price) (maxVolume : Int)
    (s : Settling) : Attempt (Settling ⊕ Settling) := do
  let L := s.ledger
  match L.settlements.find id with
  | none => pure (.inr s)
  | some order =>
    if maxVolume ≤ s.settled then pure (.inr s)
    else do
      let b ← L.bitasset mia
      let low ← Price.smallest b.options.shortBackingAsset mia
      -- there is a call order, since there is a supply
      let call ← demand (L.callOrdersByCollateralFrom low).head?
      if order.balance.amount = 0 then do
        let L ← L.cancelSettleOrder id
        pure (.inr { s with ledger := L })
      else do
        let r ← L.matchCallAndSettle call.1 id settlementPrice ⟨maxVolume - s.settled, mia⟩
        if r.1.amount = 0 then
          pure (.inr ⟨r.2, s.settled, s.finished || (r.2.settlements.find id).isSome⟩)
        else pure (.inl { s with ledger := r.2, settled := s.settled + r.1.amount })

/-- The variables of `clear_expired_orders`. -/
structure Clearing where
  ledger : Ledger
  currentAsset : AssetId
  maxSettlementVolume : Asset
  settlementFillPrice : Price
  settlementPrice : Price
  currentAssetFinished : Bool

/-- `next_asset`: go on with the next asset that has settlements, or end. -/
def nextAsset (s : Clearing) : Clearing ⊕ Ledger :=
  match s.ledger.settlementsByExpiration.filter fun r => s.currentAsset < r.2.balance.assetId with
  | [] => .inr s.ledger
  | r :: _ => .inl { s with currentAsset := r.2.balance.assetId, currentAssetFinished := false }

/-- Settle the order `id` of the current asset as far as the volume allows. -/
def settleOrder (rounds : Nat) (s : Clearing) (id : Nat) (mia : BitassetData) :
    Attempt (Clearing ⊕ Ledger) := do
  let fillPrice ← (if s.settlementFillPrice.base.assetId ≠ s.currentAsset then
      mia.currentFeed.settlementPrice.unscale
        (mkRat (fullPercent - mia.options.forceSettlementOffsetPercent : Nat) fullPercent)
    else pure s.settlementFillPrice)
  let price := if s.settlementPrice.base.assetId ≠ s.currentAsset then fillPrice
    else s.settlementPrice
  let done ← loop (settleRound s.currentAsset id price s.maxSettlementVolume.amount) rounds
    ⟨s.ledger, mia.forceSettledVolume, s.currentAssetFinished⟩
  let L ← (if mia.forceSettledVolume ≠ done.settled then
      done.ledger.modifyBitasset s.currentAsset fun b =>
        { b with forceSettledVolume := done.settled }
    else pure done.ledger)
  pure (.inl { s with
    ledger := L
    settlementFillPrice := fillPrice
    settlementPrice := price
    currentAssetFinished := done.finished })

/-- A round of the loop over the force settlements. -/
def clearRound (rounds : Nat) (s : Clearing) : Attempt (Clearing ⊕ Ledger) :=
  match s.ledger.settlementsByExpiration.filter fun r => s.currentAsset ≤ r.2.balance.assetId with
  | [] => pure (.inr s.ledger)
  | order :: _ => do
    let s := { s with currentAsset := order.2.balance.assetId }
    let a ← s.ledger.asset s.currentAsset
    let mia ← demand a.bitassetData
    if mia.hasSettlement then do
      let L ← s.ledger.cancelSettleOrder order.1
      pure (.inl { s with ledger := L })
    else if s.ledger.headBlockTime < order.2.settlementDate then pure (nextAsset s)
    else if mia.currentFeed.settlementPrice.isNull then do
      let L ← s.ledger.cancelSettleOrder order.1
      pure (.inl { s with ledger := L })
    else do
      let volume := if s.maxSettlementVolume.assetId ≠ s.currentAsset
        then ⟨mia.maxForceSettlementVolume a.dynamicData.currentSupply, s.currentAsset⟩
        else s.maxSettlementVolume
      let s := { s with maxSettlementVolume := volume }
      if volume.amount ≤ mia.forceSettledVolume ∨ s.currentAssetFinished = true then
        pure (nextAsset s)
      else settleOrder rounds s order.1 mia

/-- `clear_expired_orders`, whose loops run for at most so many rounds. -/
def clearExpiredOrders (rounds : Nat) (L : Ledger) : Attempt Ledger := do
  let L ← L.expiredLimitOrders.foldlM (fun L r => L.cancelLimitOrder r.1 true false) L
  match L.settlementsByExpiration with
  | [] => pure L
  | first :: _ =>
    loop (clearRound rounds) rounds
      { ledger := L
        currentAsset := first.2.balance.assetId
        maxSettlementVolume := ⟨0, coreAsset⟩
        settlementFillPrice := Price.null
        settlementPrice := Price.null
        currentAssetFinished := false }

/-! ### Feeds and bids -/

/-- `update_expired_feeds` for one asset: the median of the feeds that are alive now. -/
def updateExpiredFeed (rounds : Nat) (L : Ledger) (mia : AssetId) : Attempt Ledger := do
  let old ← L.bitasset mia
  let now := L.headBlockTime
  let L ← L.modifyBitasset mia fun b => b.updateMedianFeeds now
  let b ← L.bitasset mia
  if b.currentFeed.settlementPrice.isNull = false ∧ ¬b.currentFeed.Same old.currentFeed then do
    let r ← L.checkCallOrders rounds mia true
    pure r.2
  else pure L

/-- `asset_update_feed_producers` -/
def updateFeedProducers (rounds : Nat) (L : Ledger) (mia : AssetId) (producers : List AccountId) :
    Attempt Ledger := do
  let now := L.headBlockTime
  let L ← L.modifyBitasset mia fun b => (b.setFeedProducers producers).updateMedianFeeds now
  let r ← L.checkCallOrders rounds mia true
  pure r.2

/-- `process_bitassets` for one asset: reset its settled volume and look at the bids. -/
def processBitasset (L : Ledger) (mia : AssetId) : Attempt Ledger := do
  let L ← L.modifyBitasset mia fun b => { b with forceSettledVolume := 0 }
  let b ← L.bitasset mia
  if b.hasSettlement then L.processBids mia else pure L

def processBitassets (L : Ledger) : Attempt Ledger :=
  (L.assets.rows.filter fun r => r.2.bitassetData.isSome).foldlM
    (fun L r => L.processBitasset r.1) L

end Ledger

/-! ### Steps -/

/-- The operations of the market. -/
inductive Operation where
  | limitOrderCreate (op : LimitOrderCreate)
  | limitOrderCancel (op : LimitOrderCancel)
  | callOrderUpdate (op : CallOrderUpdate)
  | bidCollateral (op : BidCollateral)
  | assetSettle (op : AssetSettle)
  | assetGlobalSettle (op : AssetGlobalSettle)
  | assetPublishFeed (op : AssetPublishFeed)

def Operation.apply (rounds : Nat) (skipFeeScheduleCheck : Bool) (L : Ledger) :
    Operation → Attempt Ledger
  | .limitOrderCreate op => op.apply rounds skipFeeScheduleCheck L
  | .limitOrderCancel op => op.apply skipFeeScheduleCheck L
  | .callOrderUpdate op => op.apply rounds skipFeeScheduleCheck L
  | .bidCollateral op => op.apply skipFeeScheduleCheck L
  | .assetSettle op => op.apply skipFeeScheduleCheck L
  | .assetGlobalSettle op => op.apply skipFeeScheduleCheck L
  | .assetPublishFeed op => op.apply rounds skipFeeScheduleCheck L

end Nestchain.Market
