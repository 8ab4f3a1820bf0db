import Nestchain.Market.PriceOrder
import Nestchain.Market.Ratio
import Nestchain.Lib.Sorted

/-! `limit_order_group_index`: the limit orders of each market in groups of close prices, for every
tracked percentage.  Prices outside of `price::min` and `price::max` are capped in some of the
comparisons. -/

namespace Nestchain.Plugins

open Nestchain.Lib Nestchain.Market

/-- `limit_order_group_key` -/
structure GroupKey where
  group : Nat
  minPrice : Price
deriving DecidableEq

/-- `operator <`: the prices descend. -/
def GroupKey.Less (a b : GroupKey) : Prop :=
  a.group < b.group ∨ a.group = b.group ∧ b.minPrice < a.minPrice

instance (a b : GroupKey) : Decidable (a.Less b) := inferInstanceAs (Decidable (_ ∨ _))

/-- `limit_order_group_data`; the total is not checked for its 64 bits. -/
structure GroupData where
  maxPrice : Price
  totalForSale : Int
deriving DecidableEq

/-- `_og_data`, in the order of the keys. -/
abbrev OrderGroups := List (GroupKey × GroupData)

namespace OrderGroups

/-- The groups before `lower_bound`. -/
def below (idx : OrderGroups) (k : GroupKey) : OrderGroups := idx.takeWhile fun e => e.1.Less k

/-- The groups from `lower_bound` on. -/
def lowerBound (idx : OrderGroups) (k : GroupKey) : OrderGroups := idx.dropWhile fun e => e.1.Less k

/-- `idx[k] = d`: an equivalent key stays as it is. -/
def put (k : GroupKey) (d : GroupData) : OrderGroups → OrderGroups
  | [] => [(k, d)]
  | e :: idx =>
    if k.Less e.1 then (k, d) :: e :: idx
    else if e.1.Less k then e :: put k d idx
    else (e.1, d) :: idx

end OrderGroups

/-- `ratio_type( GRAPHENE_100_PERCENT + group, GRAPHENE_100_PERCENT )` -/
def groupRatio (group : Nat) : ℚ := mkRat (fullPercent + group) fullPercent

/-- The key is of another group type or market. -/
def GroupKey.Foreign (k : GroupKey) (group : Nat) (p : Price) : Prop :=
  k.group ≠ group ∨ k.minPrice.base.assetId ≠ p.base.assetId ∨
    k.minPrice.quote.assetId ≠ p.quote.assetId

instance (k : GroupKey) (group : Nat) (p : Price) : Decidable (k.Foreign group p) :=
  inferInstanceAs (Decidable (_ ∨ _))

/-- The end of the loop body of `object_inserted`: the group before `itr` takes the order, or a new
one does. -/
def checkPrevious (group : Nat) (o : LimitOrder) (capped : Price) (cappedMax : Bool)
    (before rest : OrderGroups) : Attempt OrderGroups :=
  let createOgo := OrderGroups.put ⟨group, o.sellPrice⟩ ⟨o.sellPrice, o.forSale⟩ (before ++ rest)
  match before.getLast? with
  | none => pure createOgo
  | some (k, d) =>
    if k.Foreign group o.sellPrice then pure createOgo
    else do
      let minPrice ← d.maxPrice.unscale (groupRatio group)
      if capped < minPrice then pure createOgo
      else if cappedMax ∧ k.minPrice ≤ o.sellPrice then
        pure (before.dropLast ++
          (k, ⟨if d.maxPrice < o.sellPrice then o.sellPrice else d.maxPrice,
            d.totalForSale + o.forSale⟩) :: rest)
      else
        pure (OrderGroups.put ⟨group, o.sellPrice⟩ ⟨d.maxPrice, o.forSale + d.totalForSale⟩
          (before.dropLast ++ rest))

/-- The loop body of `object_inserted`. -/
def insertOrder (o : LimitOrder) (idx : OrderGroups) (group : Nat) : Attempt OrderGroups :=
  let p := o.sellPrice
  if idx = [] then pure (OrderGroups.put ⟨group, p⟩ ⟨p, o.forSale⟩ idx)
  else do
    let max ← Price.greatest p.base.assetId p.quote.assetId
    let min ← Price.smallest p.base.assetId p.quote.assetId
    let cappedMax := decide (max < p)
    let cappedMin := decide (¬max < p ∧ p < min)
    let capped := if max < p then max else if p < min then min else p
    let before := idx.below ⟨group, capped⟩
    match idx.lowerBound ⟨group, capped⟩ with
    | [] => checkPrevious group o capped cappedMax before []
    | (k, d) :: rest =>
      if k.Foreign group p then checkPrevious group o capped cappedMax before ((k, d) :: rest)
      else do
        let updateMax := decide (d.maxPrice < capped)
        let outOfRange ←
          if updateMax then do
            let maxPrice ← k.minPrice.scale (groupRatio group)
            pure (decide (maxPrice < capped))
          else pure false
        if outOfRange then checkPrevious group o capped cappedMax before ((k, d) :: rest)
        else if cappedMin ∧ p < k.minPrice then
          pure (OrderGroups.put ⟨group, p⟩ ⟨d.maxPrice, o.forSale + d.totalForSale⟩
            (before ++ rest))
        else
          pure (before ++ (k, ⟨if updateMax ∨ (cappedMax ∧ d.maxPrice < p) then p else d.maxPrice,
            d.totalForSale + o.forSale⟩) :: rest)

/-- `object_inserted` -/
def objectInserted (trackedGroups : List Nat) (o : LimitOrder) (idx : OrderGroups) :
    Attempt OrderGroups :=
  trackedGroups.foldlM (insertOrder o) idx

/-- What `remove_order` warns of and should not happen. -/
inductive Mismatch where
  | price
  | amount
deriving DecidableEq

/-- The loop body of `remove_order`, with the warnings so far. -/
def removeFromGroup (o : LimitOrder) (removeEmpty : Bool) (s : OrderGroups × List Mismatch)
    (group : Nat) : OrderGroups × List Mismatch :=
  let idx := s.1
  let before := idx.below ⟨group, o.sellPrice⟩
  match idx.lowerBound ⟨group, o.sellPrice⟩ with
  | [] => (idx, s.2 ++ [.price])
  | (k, d) :: rest =>
    if k.Foreign group o.sellPrice ∨ d.maxPrice < o.sellPrice then (idx, s.2 ++ [.price])
    else if d.totalForSale < o.forSale then (idx, s.2 ++ [.amount])
    else if removeEmpty = false ∨ o.forSale < d.totalForSale then
      (before ++ (k, { d with totalForSale := d.totalForSale - o.forSale }) :: rest, s.2)
    else (before ++ rest, s.2)

/-- `remove_order` -/
def removeOrder (trackedGroups : List Nat) (o : LimitOrder) (removeEmpty : Bool)
    (s : OrderGroups × List Mismatch) : OrderGroups × List Mismatch :=
  trackedGroups.foldl (removeFromGroup o removeEmpty) s

/-- The limit orders, and what the plugin keeps of them. -/
structure Tracker where
  orders : Table LimitOrder
  groups : OrderGroups
  warnings : List Mismatch

def Tracker.empty : Tracker := ⟨.empty, [], []⟩

/-- What happens to limit orders: a modification changes the amount for sale. -/
inductive OrderEvent where
  | insert (o : LimitOrder)
  | modify (id : Nat) (forSale : Int)
  | remove (id : Nat)

/-- The calls of the index: `object_inserted`, `about_to_modify` and `object_modified`, or
`object_removed`. -/
def Tracker.handle (trackedGroups : List Nat) (t : Tracker) : OrderEvent → Attempt Tracker
  | .insert o => do
    let groups ← objectInserted trackedGroups o t.groups
    pure { t with orders := t.orders.create o, groups := groups }
  | .modify id forSale => do
    let o ← demand (t.orders.find id)
    let (groups, warnings) := removeOrder trackedGroups o false (t.groups, t.warnings)
    let groups ← objectInserted trackedGroups { o with forSale := forSale } groups
    pure ⟨t.orders.set id { o with forSale := forSale }, groups, warnings⟩
  | .remove id => do
    let o ← demand (t.orders.find id)
    let (groups, warnings) := removeOrder trackedGroups o true (t.groups, t.warnings)
    pure ⟨t.orders.remove id, groups, warnings⟩

end Nestchain.Plugins
