import Nestchain.Market.Match

/-! Margin calls, global settlement, and what follows a global settlement: the bids for the
collateral and the revival of the asset. -/

namespace Nestchain.Market

open Lib

namespace Ledger

/-! ### Global settlement -/

/-- Close one margin position at the settlement price and gather what it pays. -/
def closeCallOrder (settlementPrice : Price) (s : Ledger × Asset) (call : Nat × CallOrder) :
    Attempt (Ledger × Asset) := do
  let c ← demand (s.1.callOrders.find call.1)
  let pays ← c.getDebt.multiplyAndRoundUp settlementPrice
  let pays ← pays.least c.getCollateral
  let gathered ← s.2.plus pays
  let r ← s.1.fillCallOrder call.1 pays c.getDebt
  require (r.1 = true)
  pure (r.2, gathered)

def globallySettleAsset (L : Ledger) (mia : AssetId) (settlementPrice : Price) :
    Attempt Ledger := do
  let a ← L.asset mia
  let bitasset ← L.bitasset mia
  require (bitasset.hasSettlement = false)
  let backing := bitasset.options.shortBackingAsset
  let originalMiaSupply := a.dynamicData.currentSupply
  let callMin ← Price.smallest backing mia
  let callMax ← Price.greatest backing mia
  let closed ← (L.callOrdersBetween callMin callMax).foldlM (closeCallOrder settlementPrice)
    (L, ⟨0, backing⟩)
  let price ← Price.ofAssets ⟨originalMiaSupply, mia⟩ closed.2
  let L ← closed.1.modifyBitasset mia fun b =>
    { b with settlementPrice := price, settlementFund := closed.2.amount }
  -- the closed positions took the supply down, but the asset is still out there
  L.modifyDynamicData mia fun d => { d with currentSupply := originalMiaSupply }

/-- The highest price for the collateral: the squeeze price of the feed or the best limit order. -/
def highestBid (L : Ledger) (mia : AssetId) (b : BitassetData) : Attempt Price := do
  let squeeze ← b.currentFeed.maxShortSqueezePrice
  let top ← Price.greatest mia b.options.shortBackingAsset
  let bottom ← Price.smallest mia b.options.shortBackingAsset
  match L.limitOrdersBetween top bottom with
  | [] => pure squeeze
  | o :: _ => do
    require (squeeze.base.assetId = o.2.sellPrice.base.assetId)
    pure (if o.2.sellPrice < squeeze then squeeze else o.2.sellPrice)

/-- `check_for_blackswan`: whether the asset is globally settled now. -/
def checkForBlackswan (L : Ledger) (mia : AssetId) (enableBlackSwan : Bool) :
    Attempt (Bool × Ledger) := do
  let a ← L.asset mia
  match a.bitassetData with
  | none => pure (false, L)
  | some b =>
    if b.hasSettlement then pure (true, L)
    else if b.currentFeed.settlementPrice.isNull then pure (false, L)
    else do
      let callMin ← Price.smallest b.options.shortBackingAsset mia
      let callMax ← Price.greatest b.options.shortBackingAsset mia
      match L.callOrdersBetween callMin callMax with
      | [] => pure (false, L)
      | call :: _ => do
        let highest ← L.highestBid mia b
        let leastCollateral ← call.2.collateralization
        if highest ≤ leastCollateral.inverse then do
          require (enableBlackSwan = true)
          let price := if leastCollateral.inverse ≤ b.currentFeed.settlementPrice
            then b.currentFeed.settlementPrice else leastCollateral.inverse
          let L ← L.globallySettleAsset mia price
          pure (true, L)
        else pure (false, L)

/-! ### Margin calls -/

/-- The two fills of a margin call: the call order `call` buys from the limit order `limit`. -/
def fillMarginCall (L : Ledger) (call limit : Nat) (callReceives orderReceives : Asset) :
    Attempt (Bool × Ledger) := do
  let r ← L.fillCallOrder call orderReceives callReceives
  r.2.fillLimitOrder limit callReceives orderReceives true

/-- A margin call at the price of the limit order: whether the limit order is gone. -/
def marginCall (rounds : Nat) (L : Ledger) (call limit : Nat) (feed : PriceFeed) :
    Attempt (Bool × Ledger) := do
  let c ← demand (L.callOrders.find call)
  let o ← demand (L.limitOrders.find limit)
  let usdToBuy ← c.getMaxDebtToCover rounds o.sellPrice feed.settlementPrice
    feed.maintenanceCollateralRatio
  if ← o.amountForSale.less ⟨usdToBuy, c.debtType⟩ then do
    let orderReceives ← o.amountForSale.mul o.sellPrice
    let callReceives ← orderReceives.multiplyAndRoundUp o.sellPrice
    L.fillMarginCall call limit callReceives orderReceives
  else do
    let callReceives := Asset.mk usdToBuy c.debtType
    let orderReceives ← callReceives.multiplyAndRoundUp o.sellPrice
    L.fillMarginCall call limit callReceives orderReceives

/-- The state of the loop of `check_call_orders`: the ledger, the limit orders that are left, and
whether a margin call was executed. -/
structure Calling where
  ledger : Ledger
  book : List Nat
  marginCalled : Bool
deriving DecidableEq

/-- A round of `check_call_orders`. -/
def checkCallRound (rounds : Nat) (mia : AssetId) (enableBlackSwan : Bool)
    (callMin callMax : Price) (s : Calling) : Attempt (Calling ⊕ Bool × Ledger) := do
  let swan ← s.ledger.checkForBlackswan mia enableBlackSwan
  let L := swan.2
  if swan.1 then pure (.inr (s.marginCalled, L))
  else
    match L.callOrdersBetween callMin callMax, s.book with
    | [], _ => pure (.inr (s.marginCalled, L))
    | _ :: _, [] => pure (.inr (s.marginCalled, L))
    | call :: _, limit :: book => do
      let o ← demand (L.limitOrders.find limit)
      require o.sellPrice.Valid
      let b ← L.bitasset mia
      if call.2.callPrice.inverse < b.currentFeed.settlementPrice then
        pure (.inr (s.marginCalled, L))
      else do
        let cost ← call.2.getDebt.mul o.sellPrice
        if ← call.2.getCollateral.less cost then do
          require (enableBlackSwan = true)
          let L ← L.globallySettleAsset mia b.currentFeed.settlementPrice
          pure (.inr (true, L))
        else do
          let r ← marginCall rounds L call.1 limit b.currentFeed
          pure (.inl ⟨r.2, if r.1 then book else limit :: book, true⟩)

/-- `check_call_orders`: whether a margin call was executed. -/
def checkCallOrders (rounds : Nat) (L : Ledger) (mia : AssetId) (enableBlackSwan : Bool) :
    Attempt (Bool × Ledger) := do
  let a ← L.asset mia
  match a.bitassetData with
  | none => pure (false, L)
  | some b => do
    let swan ← L.checkForBlackswan mia enableBlackSwan
    let L := swan.2
    if swan.1 then pure (false, L)
    else if b.isPredictionMarket then pure (false, L)
    else if b.currentFeed.settlementPrice.isNull then pure (false, L)
    else do
      let maxPrice ← Price.greatest mia b.options.shortBackingAsset
      let minPrice ← b.currentFeed.maxShortSqueezePrice
      match L.limitOrdersBetween maxPrice minPrice with
      | [] => pure (false, L)
      | o :: os => do
        let callMin ← Price.smallest b.options.shortBackingAsset mia
        let callMax ← Price.greatest b.options.shortBackingAsset mia
        loop (checkCallRound rounds mia enableBlackSwan callMin callMax) rounds
          ⟨L, (o :: os).map Prod.fst, false⟩

/-! ### Revival -/

/-- `_cancel_bids_and_revive_mpa` for the asset `mia` with the bitasset data of `bad`. -/
def cancelBidsAndReviveMpa (L : Ledger) (mia bad : AssetId) : Attempt Ledger := do
  let _ ← L.bitasset mia
  let b ← L.bitasset bad
  require (b.hasSettlement = true)
  require (b.isPredictionMarket = false)
  let high ← Price.greatest b.options.shortBackingAsset mia
  let L ← (L.bidsFor mia high).foldlM (fun L r => L.cancelBid r.1) L
  L.modifyBitasset bad fun b => { b with settlementPrice := Price.null, settlementFund := 0 }

def reviveBitasset (L : Ledger) (mia : AssetId) : Attempt Ledger := do
  let a ← L.asset mia
  let b ← L.bitasset mia
  require (b.hasSettlement = true)
  require (b.isPredictionMarket = false)
  require (b.currentFeed.settlementPrice.isNull = false)
  let supply := a.dynamicData.currentSupply
  if 0 < supply then do
    -- a bid of the issuer with no additional collateral
    let price ← Price.ofAssets ⟨0, b.options.shortBackingAsset⟩ ⟨supply, mia⟩
    let bid := L.bids.next
    let L ← L.createBid ⟨a.issuer, price⟩
    let L ← L.executeBid bid supply b.settlementFund b.currentFeed
    L.cancelBidsAndReviveMpa mia mia
  else do
    require (b.settlementFund = 0)
    L.cancelBidsAndReviveMpa mia mia

/-- The bids that cover the supply, the best first, as far as their positions would not be called at
once, and how much they cover. -/
def coveringBids (b : BitassetData) (supply : Int) :
    Int → List (Nat × CollateralBid) → Attempt (Int × List (Nat × CollateralBid))
  | covered, [] => pure (covered, [])
  | covered, bid :: bids =>
    if covered < supply then do
      let swan := bid.2.invSwanPrice
      let fromFund ← swan.quote.mul b.settlementPrice
      let totalCollateral ← fromFund.plus swan.base
      let callPrice ← Price.callPrice swan.quote totalCollateral
        b.currentFeed.maintenanceCollateralRatio
      if b.currentFeed.settlementPrice ≤ callPrice.inverse then pure (covered, [])
      else do
        let rest ← coveringBids b supply (covered + swan.quote.amount) bids
        pure (rest.1, bid :: rest.2)
    else pure (covered, [])

/-- The state of the loop that executes bids: what is left of the supply and of the fund. -/
structure Reviving where
  ledger : Ledger
  toCover : Int
  remainingFund : Int

/-- Execute one bid; the one that covers the rest takes what is left of the fund. -/
def executeCoveringBid (b : BitassetData) (s : Reviving) (bid : Nat × CollateralBid) :
    Attempt Reviving := do
  let quote := bid.2.invSwanPrice.quote
  let share ← quote.mul b.settlementPrice
  let debt := if s.toCover ≤ quote.amount then s.toCover else quote.amount
  let collateral := if s.toCover ≤ quote.amount then s.remainingFund else share.amount
  let L ← s.ledger.executeBid bid.1 debt collateral b.currentFeed
  pure ⟨L, s.toCover - debt, s.remainingFund - collateral⟩

/-- `process_bids` for the bitasset data of `mia`. -/
def processBids (L : Ledger) (mia : AssetId) : Attempt Ledger := do
  let b ← L.bitasset mia
  if b.isPredictionMarket then pure L
  else if b.currentFeed.settlementPrice.isNull then pure L
  else do
    let zero ← (Asset.mk 0 b.options.shortBackingAsset).mul b.settlementPrice
    let toRevive := zero.assetId
    let a ← L.asset toRevive
    let supply := a.dynamicData.currentSupply
    let high ← Price.greatest b.options.shortBackingAsset toRevive
    let covering ← coveringBids b supply 0 (L.bidsFor toRevive high)
    if covering.1 < supply then pure L
    else do
      let done ← covering.2.foldlM (executeCoveringBid b) ⟨L, supply, b.settlementFund⟩
      require (done.remainingFund = 0)
      require (done.toCover = 0)
      done.ledger.cancelBidsAndReviveMpa toRevive mia

end Ledger

end Nestchain.Market
