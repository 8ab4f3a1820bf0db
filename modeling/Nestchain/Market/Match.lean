import Nestchain.Market.Fill

/-! Matching orders: two limit orders, a limit order and a call order, a call order and a force
settlement, and the matching of a new limit order with the book. -/

namespace Nestchain.Market

open Lib

/-- The bit field that `match` returns: whether the taker and whether the maker was filled. -/
structure Filled where
  taker : Bool
  maker : Bool
deriving DecidableEq

namespace Ledger

/-- The two fills of a match of limit orders: what each receives, the other pays. -/
def fillLimitOrders (L : Ledger) (usd core : Nat) (usdReceives coreReceives : Asset)
    (cullTaker : Bool) : Attempt (Filled × Ledger) := do
  let taker ← L.fillLimitOrder usd coreReceives usdReceives cullTaker
  let maker ← taker.2.fillLimitOrder core usdReceives coreReceives true
  require (taker.1 = true ∨ maker.1 = true)
  pure (⟨taker.1, maker.1⟩, maker.2)

/-- `match` of the taker `usd` and the maker `core`. -/
def matchLimitOrders (L : Ledger) (usd core : Nat) (matchPrice : Price) :
    Attempt (Filled × Ledger) := do
  let u ← demand (L.limitOrders.find usd)
  let c ← demand (L.limitOrders.find core)
  require (u.receiveAssetId = c.sellAssetId)
  require (u.sellAssetId = c.receiveAssetId)
  require (0 < u.forSale ∧ 0 < c.forSale)
  let coreWorth ← c.amountForSale.mul matchPrice
  if ← coreWorth.less u.amountForSale then do
    let usdReceives ← coreWorth.multiplyAndRoundUp matchPrice
    L.fillLimitOrders usd core usdReceives coreWorth false
  else do
    let usdReceives ← u.amountForSale.mul matchPrice
    if usdReceives.amount = 0 then pure (⟨true, false⟩, L)
    else do
      let coreReceives ← usdReceives.multiplyAndRoundUp matchPrice
      L.fillLimitOrders usd core usdReceives coreReceives true

/-- The two fills of a match of a limit order and a call order. -/
def fillLimitAndCall (L : Ledger) (bid ask : Nat) (orderReceives callReceives : Asset)
    (cullTaker : Bool) : Attempt (Filled × Ledger) := do
  let taker ← L.fillLimitOrder bid callReceives orderReceives cullTaker
  let maker ← taker.2.fillCallOrder ask orderReceives callReceives
  pure (⟨taker.1, maker.1⟩, maker.2)

/-- `match` of the limit order `bid` and the call order `ask`. -/
def matchLimitAndCall (rounds : Nat) (L : Ledger) (bid ask : Nat) (matchPrice : Price)
    (feed : PriceFeed) : Attempt (Filled × Ledger) := do
  let o ← demand (L.limitOrders.find bid)
  let c ← demand (L.callOrders.find ask)
  require (o.sellAssetId = c.debtType)
  require (o.receiveAssetId = c.collateralType)
  require (0 < o.forSale ∧ 0 < c.debt ∧ 0 < c.collateral)
  let usdToBuy ← c.getMaxDebtToCover rounds matchPrice feed.settlementPrice
    feed.maintenanceCollateralRatio
  if o.forSale < usdToBuy then do
    let orderReceives ← o.amountForSale.mul matchPrice
    if orderReceives.amount = 0 then pure (⟨true, false⟩, L)
    else do
      let callReceives ← orderReceives.multiplyAndRoundUp matchPrice
      L.fillLimitAndCall bid ask orderReceives callReceives true
  else do
    let callReceives := Asset.mk usdToBuy c.debtType
    let orderReceives ← callReceives.multiplyAndRoundUp matchPrice
    L.fillLimitAndCall bid ask orderReceives callReceives false

/-- The two fills of a match with a force settlement, which is cancelled afterwards when what is
left of it is dust. -/
def fillCallAndSettle (L : Ledger) (call settle : Nat) (callPays callReceives : Asset)
    (cullSettleOrder : Bool) : Attempt (Asset × Ledger) := do
  let maker ← L.fillCallOrder call callPays callReceives
  let taker ← maker.2.fillSettleOrder settle callReceives callPays
  let L ← (if cullSettleOrder then taker.2.cancelSettleOrder settle else pure taker.2)
  pure (callReceives, L)

/-- `match` of a call order and a force settlement: the amount that was settled. -/
def matchCallAndSettle (L : Ledger) (call settle : Nat) (matchPrice : Price)
    (maxSettlement : Asset) : Attempt (Asset × Ledger) := do
  let c ← demand (L.callOrders.find call)
  let s ← demand (L.settlements.find settle)
  require (c.debtType = s.balance.assetId)
  require (0 < c.debt ∧ 0 < c.collateral ∧ 0 < s.balance.amount)
  let settleForSale ← s.balance.least maxSettlement
  let callReceives ← settleForSale.least c.getDebt
  let callPays ← callReceives.mul matchPrice
  if callPays.amount = 0 then
    if callReceives = c.getDebt then
      L.fillCallAndSettle call settle ⟨1, callPays.assetId⟩ callReceives false
    else if callReceives = s.balance then do
      let L ← L.cancelSettleOrder settle
      pure (⟨0, s.balance.assetId⟩, L)
    else pure (⟨0, s.balance.assetId⟩, L)
  else if callReceives = c.getDebt then do
    let callPays ← callReceives.multiplyAndRoundUp matchPrice
    L.fillCallAndSettle call settle callPays callReceives false
  else do
    let rounded ← callPays.multiplyAndRoundUp matchPrice
    L.fillCallAndSettle call settle callPays rounded
      (callReceives = s.balance ∧ rounded ≠ s.balance)

/-! ### A new limit order -/

/-- Match the order `id` with the orders of the book whose prices are good, until it is gone:
whether it is, the rest of the book, and the ledger. -/
def matchBook (id : Nat) (good : Price → Bool) :
    List Nat → Ledger → Attempt (Bool × List Nat × Ledger)
  | [], L => pure (false, [], L)
  | maker :: book, L => do
    let o ← demand (L.limitOrders.find maker)
    if good o.sellPrice then do
      let r ← L.matchLimitOrders id maker o.sellPrice
      if r.1 = ⟨false, true⟩ then matchBook id good book r.2 else pure (true, book, r.2)
    else pure (false, maker :: book, L)

/-- The price at which the new order matches call orders, when it can: the highest that a margin
call pays, and the feed it comes from. -/
def callMatchPrice (L : Ledger) (o : LimitOrder) : Attempt (Option (Price × PriceFeed)) := do
  let a ← L.asset o.sellAssetId
  match a.bitassetData with
  | none => pure none
  | some abd =>
    if abd.options.shortBackingAsset = o.receiveAssetId ∧ abd.isPredictionMarket = false ∧
        abd.hasSettlement = false ∧ abd.currentFeed.settlementPrice.isNull = false then do
      let squeeze ← abd.currentFeed.maxShortSqueezePrice
      if o.sellPrice.inverse ≤ squeeze.inverse then pure (some (squeeze.inverse, abd.currentFeed))
      else pure none
    else pure none

/-- A round of the margin calls: the new order is matched with the call order of least call price,
unless that is protected by the feed. -/
def matchCallsRound (rounds : Nat) (id : Nat) (callMin matchPrice : Price) (feed : PriceFeed)
    (L : Ledger) : Attempt (Ledger ⊕ Bool × Ledger) := do
  let o ← demand (L.limitOrders.find id)
  match L.callOrdersFrom callMin with
  | [] => pure (.inr (false, L))
  | call :: _ =>
    if call.2.debtType ≠ o.sellAssetId ∨ feed.settlementPrice.inverse < call.2.callPrice then
      pure (.inr (false, L))
    else do
      let r ← L.matchLimitAndCall rounds id call.1 matchPrice feed
      if r.1.taker then pure (.inr (true, r.2)) else pure (.inl r.2)

/-- The matching of a new order that may be called for: first the limit orders that are better than
the call orders, then the call orders. -/
def matchBeforeBook (rounds : Nat) (L : Ledger) (id : Nat) (o : LimitOrder) (book : List Nat) :
    Attempt (Bool × List Nat × Ledger) := do
  match ← L.callMatchPrice o with
  | none => pure (false, book, L)
  | some (matchPrice, feed) => do
    let better ← matchBook id (fun p => matchPrice < p) book L
    if better.1 then pure better
    else do
      let callMin ← Price.smallest o.receiveAssetId o.sellAssetId
      let called ← loop (matchCallsRound rounds id callMin matchPrice feed) rounds better.2.2
      pure (called.1, better.2.1, called.2)

/-- Another order of the same market is in front of the order `id`. -/
def isBehind (L : Ledger) (id : Nat) (o : LimitOrder) : Bool :=
  match (L.limitOrdersByPrice.takeWhile fun r => r.1 ≠ id).getLast? with
  | none => false
  | some r => r.2.sellAssetId = o.sellAssetId ∧ r.2.receiveAssetId = o.receiveAssetId

/-- The orders that a loop from the `lower_bound` of `high` to the `upper_bound` of `low` visits.
When an order lies strictly between the two, the first is behind the second: the loop misses its
end, goes on to the last order and then past it, to an order that is not there. -/
def limitOrdersVisited (L : Ledger) (high low : Price) : List Nat :=
  if L.limitOrdersByPrice.any fun r => high < r.2.sellPrice ∧ r.2.sellPrice < low then
    (L.limitOrdersByPrice.filter fun r => r.2.sellPrice ≤ high).map Prod.fst ++ [L.limitOrders.next]
  else (L.limitOrdersBetween high low).map Prod.fst

/-- `apply_order`: whether the new order is gone. -/
def applyOrder (rounds : Nat) (L : Ledger) (id : Nat) : Attempt (Bool × Ledger) := do
  let o ← demand (L.limitOrders.find id)
  if L.isBehind id o then pure (false, L)
  else do
    let maxPrice := o.sellPrice.inverse
    let top ← Price.greatest maxPrice.base.assetId maxPrice.quote.assetId
    let calls ← matchBeforeBook rounds L id o (L.limitOrdersVisited top maxPrice)
    let rest ← (if calls.1 then pure calls else matchBook id (fun _ => true) calls.2.1 calls.2.2)
    match rest.2.2.limitOrders.find id with
    | none => pure (true, rest.2.2)
    | some _ => rest.2.2.maybeCullSmallOrder id

end Ledger

end Nestchain.Market
