import Nestchain.Market.Ratio
import Nestchain.Lib.Table
import Mathlib.Data.List.Sort

/-! The objects of the market and the ledger that holds them.  An asset comes with its dynamic data
and, when it is market issued, with its bitasset data, and an account with its statistics.  The next
maintenance time is past the hard forks that the market code compares it with, and the head time is
past those before 2018, so that only the branches after them are here; the head time is compared
with the hard forks 583 and 604 as in the code. -/

namespace Nestchain.Market

open Lib

/-- `price_feed`, with the ranges that `validate` accepts and the default feed meets. -/
structure PriceFeed where
  settlementPrice : Price
  maintenanceCollateralRatio : Nat
  maximumShortSqueezeRatio : Nat
  maintenance_range : 1001 ≤ maintenanceCollateralRatio ∧ maintenanceCollateralRatio ≤ 32000
  squeeze_range : 1001 ≤ maximumShortSqueezeRatio ∧ maximumShortSqueezeRatio ≤ 32000
deriving DecidableEq

/-- `price_feed()` -/
def PriceFeed.default : PriceFeed := ⟨Price.null, 1750, 1500, by decide, by decide⟩

theorem squeeze_range_1100 : 1001 ≤ 1100 ∧ 1100 ≤ 32000 := by decide

/-- `operator ==` of two feeds. -/
def PriceFeed.Same (a b : PriceFeed) : Prop :=
  a.settlementPrice.Same b.settlementPrice ∧
    a.maintenanceCollateralRatio = b.maintenanceCollateralRatio ∧
    a.maximumShortSqueezeRatio = b.maximumShortSqueezeRatio

instance (a b : PriceFeed) : Decidable (a.Same b) := inferInstanceAs (Decidable (_ ∧ _))

def PriceFeed.maxShortSqueezePrice (f : PriceFeed) : Attempt Price := do
  let sp ← rational f.settlementPrice.base.amount f.settlementPrice.quote.amount
  let cp := shortSqueezeHalving.fit (sp * mkRat collateralRatioDenom f.maximumShortSqueezeRatio)
  Price.ofAssets ⟨cp.num, f.settlementPrice.base.assetId⟩ ⟨cp.den, f.settlementPrice.quote.assetId⟩

/-! ### Assets -/

/-- The options of an asset that the market reads, with what `asset_options::validate` accepts.  The
flags and the issuer permissions are Booleans. -/
structure AssetOptions where
  marketFeePercent : Nat
  maxMarketFee : Int
  chargeMarketFee : Bool
  whiteList : Bool
  disableForceSettle : Bool
  globalSettle : Bool
  transferRestricted : Bool
  witnessFed : Bool
  committeeFed : Bool
  maxSupply : Int
  coreExchangeRate : Price
  whitelistAuthorities : List AccountId
  blacklistAuthorities : List AccountId
  whitelistMarkets : List AssetId
  blacklistMarkets : List AssetId
  percent_le : marketFeePercent ≤ fullPercent
  fee_nonneg : 0 ≤ maxMarketFee
deriving DecidableEq

structure AssetDynamicData where
  currentSupply : Int
  accumulatedFees : Int
  feePool : Int
deriving DecidableEq

/-- `bitasset_options`, with what `validate` accepts. -/
structure BitassetOptions where
  feedLifetimeSec : Nat
  minimumFeeds : Nat
  forceSettlementDelaySec : Nat
  forceSettlementOffsetPercent : Nat
  maximumForceSettlementVolume : Nat
  shortBackingAsset : AssetId
  minimum_pos : 0 < minimumFeeds
  offset_le : forceSettlementOffsetPercent ≤ fullPercent
  volume_le : maximumForceSettlementVolume ≤ fullPercent
deriving DecidableEq

theorem offset_le_100 : 100 ≤ fullPercent := by decide

theorem volume_le_2000 : 2000 ≤ fullPercent := by decide

/-- A feed of a producer with the time of its publication, which is zero when there is none yet. -/
structure PublishedFeed where
  producer : AccountId
  time : Nat
  feed : PriceFeed
deriving DecidableEq

structure BitassetData where
  options : BitassetOptions
  feeds : List PublishedFeed
  currentFeed : PriceFeed
  isPredictionMarket : Bool
  forceSettledVolume : Int
  settlementPrice : Price
  settlementFund : Int
deriving DecidableEq

def BitassetData.hasSettlement (b : BitassetData) : Bool := !b.settlementPrice.isNull

/-- `feeds[ producer ] = ( time, feed )` -/
def BitassetData.setFeed (b : BitassetData) (f : PublishedFeed) : BitassetData :=
  { b with
    feeds := if b.feeds.any fun g => g.producer = f.producer
      then b.feeds.map fun g => if g.producer = f.producer then f else g
      else b.feeds ++ [f] }

/-- The feeds of new producers: those of the old ones among them, and no publication yet of the
others. -/
def BitassetData.setFeedProducers (b : BitassetData) (producers : List AccountId) : BitassetData :=
  { b with
    feeds := producers.map fun p =>
      (b.feeds.find? fun f => f.producer = p).getD ⟨p, 0, PriceFeed.default⟩ }

def BitassetData.liveFeeds (b : BitassetData) (now : Nat) : List PriceFeed :=
  (b.feeds.filter fun f => (now : Int) - f.time < b.options.feedLifetimeSec ∧ f.time ≠ 0).map
    PublishedFeed.feed

/-- The feed in the middle of the order of one of their fields. -/
def PriceFeed.median (before : PriceFeed → PriceFeed → Prop) [DecidableRel before]
    (feeds : List PriceFeed) : PriceFeed :=
  ((feeds.insertionSort fun f g => ¬before g f)[feeds.length / 2]?).getD PriceFeed.default

/-- `update_median_feeds`: the median of each field of the feeds that are alive, or the null feed
when there are too few. -/
def BitassetData.updateMedianFeeds (b : BitassetData) (now : Nat) : BitassetData :=
  let feeds := b.liveFeeds now
  let price := PriceFeed.median (fun f g => f.settlementPrice < g.settlementPrice) feeds
  let maintenance := PriceFeed.median
    (fun f g => f.maintenanceCollateralRatio < g.maintenanceCollateralRatio) feeds
  let squeeze := PriceFeed.median
    (fun f g => f.maximumShortSqueezeRatio < g.maximumShortSqueezeRatio) feeds
  { b with
    currentFeed := if feeds.length < b.options.minimumFeeds then PriceFeed.default
      else
        { settlementPrice := price.settlementPrice
          maintenanceCollateralRatio := maintenance.maintenanceCollateralRatio
          maximumShortSqueezeRatio := squeeze.maximumShortSqueezeRatio
          maintenance_range := maintenance.maintenance_range
          squeeze_range := squeeze.squeeze_range } }

def BitassetData.maxForceSettlementVolume (b : BitassetData) (currentSupply : Int) : Int :=
  if b.options.maximumForceSettlementVolume = 0 then 0
  else if b.options.maximumForceSettlementVolume = fullPercent then
    currentSupply + b.forceSettledVolume
  else (currentSupply + b.forceSettledVolume) * b.options.maximumForceSettlementVolume / fullPercent

structure AssetObject where
  issuer : AccountId
  options : AssetOptions
  dynamicData : AssetDynamicData
  bitassetData : Option BitassetData
deriving DecidableEq

/-! ### Accounts and orders -/

structure AccountStatistics where
  totalCoreInOrders : Int
  pendingFees : Int
  pendingVestedFees : Int
deriving DecidableEq

def AccountStatistics.payFee (s : AccountStatistics) (coreFee cashbackVestingThreshold : Int) :
    AccountStatistics :=
  if cashbackVestingThreshold < coreFee then { s with pendingFees := s.pendingFees + coreFee }
  else { s with pendingVestedFees := s.pendingVestedFees + coreFee }

structure Account where
  statistics : AccountStatistics
  allowedAssets : Option (List AssetId)
  blacklistingAccounts : List AccountId
  whitelistingAccounts : List AccountId
deriving DecidableEq

/-- `is_authorized_asset` for the asset `id`. -/
def Account.isAuthorizedAsset (a : Account) (id : AssetId) (o : AssetOptions) : Bool :=
  if !o.whiteList && a.allowedAssets.isNone then true
  else if !(a.allowedAssets.getD [id]).contains id then false
  else if a.blacklistingAccounts.any o.blacklistAuthorities.contains then false
  else if o.whitelistAuthorities.isEmpty then true
  else a.whitelistingAccounts.any o.whitelistAuthorities.contains

structure AccountBalance where
  owner : AccountId
  assetType : AssetId
  balance : Int
deriving DecidableEq

structure LimitOrder where
  expiration : Nat
  seller : AccountId
  forSale : Int
  sellPrice : Price
  deferredFee : Int
  deferredPaidFee : Asset
deriving DecidableEq

namespace LimitOrder

def sellAssetId (o : LimitOrder) : AssetId := o.sellPrice.base.assetId

def receiveAssetId (o : LimitOrder) : AssetId := o.sellPrice.quote.assetId

def amountForSale (o : LimitOrder) : Asset := ⟨o.forSale, o.sellAssetId⟩

def amountToReceive (o : LimitOrder) : Attempt Asset := o.amountForSale.mul o.sellPrice

end LimitOrder

structure CallOrder where
  borrower : AccountId
  collateral : Int
  debt : Int
  callPrice : Price
  targetCollateralRatio : Option Nat
deriving DecidableEq

namespace CallOrder

def debtType (c : CallOrder) : AssetId := c.callPrice.quote.assetId

def collateralType (c : CallOrder) : AssetId := c.callPrice.base.assetId

def getDebt (c : CallOrder) : Asset := ⟨c.debt, c.debtType⟩

def getCollateral (c : CallOrder) : Asset := ⟨c.collateral, c.collateralType⟩

/-- `collateralization()`, which throws when the assets are equal. -/
def collateralization (c : CallOrder) : Attempt Price := Price.ofAssets c.getCollateral c.getDebt

end CallOrder

structure ForceSettlement where
  owner : AccountId
  balance : Asset
  settlementDate : Nat
deriving DecidableEq

structure CollateralBid where
  bidder : AccountId
  invSwanPrice : Price
deriving DecidableEq

def CollateralBid.debtType (b : CollateralBid) : AssetId := b.invSwanPrice.quote.assetId

/-! ### The ledger -/

/-- `HARDFORK_CORE_604_TIME` -/
def hardforkCore604Time : Nat := 1532008920

/-- `HARDFORK_CORE_583_TIME` -/
def hardforkCore583Time : Nat := 1532008920

/-- The parameters of the chain that the market reads: the fees of the current schedule for its
operations, the threshold of the fees that vest, and the accounts in the active authorities of the
witness account and the committee account. -/
structure Parameters where
  limitOrderCreateFee : Int
  limitOrderCancelFee : Int
  callOrderUpdateFee : Int
  bidCollateralFee : Int
  assetSettleFee : Int
  assetGlobalSettleFee : Int
  assetPublishFeedFee : Int
  cashbackVestingThreshold : Int
  witnessAccounts : List AccountId
  committeeAccounts : List AccountId
deriving DecidableEq

structure Ledger where
  headBlockTime : Nat
  parameters : Parameters
  accounts : Table Account
  assets : Table AssetObject
  balances : Table AccountBalance
  limitOrders : Table LimitOrder
  callOrders : Table CallOrder
  settlements : Table ForceSettlement
  bids : Table CollateralBid
deriving DecidableEq

namespace Ledger

/-- The object of an asset, which throws when there is none. -/
def asset (L : Ledger) (id : AssetId) : Attempt AssetObject := demand (L.assets.find id)

/-- `asset_object::bitasset_data` of the asset `id`. -/
def bitasset (L : Ledger) (id : AssetId) : Attempt BitassetData := do
  let a ← L.asset id
  demand a.bitassetData

def modifyAsset (L : Ledger) (id : AssetId) (f : AssetObject → AssetObject) : Attempt Ledger := do
  let a ← L.asset id
  pure { L with assets := L.assets.set id (f a) }

def modifyDynamicData (L : Ledger) (id : AssetId) (f : AssetDynamicData → AssetDynamicData) :
    Attempt Ledger :=
  L.modifyAsset id fun a => { a with dynamicData := f a.dynamicData }

def modifyBitasset (L : Ledger) (id : AssetId) (f : BitassetData → BitassetData) :
    Attempt Ledger := do
  let b ← L.bitasset id
  L.modifyAsset id fun a => { a with bitassetData := some (f b) }

def modifyStatistics (L : Ledger) (id : AccountId) (f : AccountStatistics → AccountStatistics) :
    Attempt Ledger := do
  let a ← demand (L.accounts.find id)
  pure { L with accounts := L.accounts.set id { a with statistics := f a.statistics } }

/-- `account_statistics_object::pay_fee` of an account. -/
def payFee (L : Ledger) (account : AccountId) (coreFee : Int) : Attempt Ledger :=
  L.modifyStatistics account fun s => s.payFee coreFee L.parameters.cashbackVestingThreshold

/-- Add to the `total_core_in_orders` of an account. -/
def addCoreInOrders (L : Ledger) (account : AccountId) (amount : Int) : Attempt Ledger :=
  L.modifyStatistics account fun s => { s with totalCoreInOrders := s.totalCoreInOrders + amount }

def findBalance (L : Ledger) (owner : AccountId) (id : AssetId) : Option (Nat × AccountBalance) :=
  L.balances.findBy fun b => b.owner = owner ∧ b.assetType = id

def getBalance (L : Ledger) (owner : AccountId) (id : AssetId) : Asset :=
  match L.findBalance owner id with
  | none => ⟨0, id⟩
  | some (_, b) => ⟨b.balance, id⟩

def adjustBalance (L : Ledger) (account : AccountId) (delta : Asset) : Attempt Ledger :=
  if delta.amount = 0 then pure L
  else
    match L.findBalance account delta.assetId with
    | none => do
      require (0 < delta.amount)
      pure { L with balances := L.balances.create ⟨account, delta.assetId, delta.amount⟩ }
    | some (id, b) => do
      require (delta.amount < 0 → -delta.amount ≤ b.balance)
      pure { L with balances := L.balances.set id { b with balance := b.balance + delta.amount } }

/-! ### The indexes of the orders -/

/-- The rows of a table in the order of a key and then of the ids. -/
def sortRows {α : Type} (before : α → α → Prop) [DecidableRel before] (t : Table α) :
    List (Nat × α) :=
  t.rows.insertionSort fun r s => before r.2 s.2 ∨ (¬before s.2 r.2 ∧ r.1 ≤ s.1)

/-- The limit orders `by_price`, the highest price first. -/
def limitOrdersByPrice (L : Ledger) : List (Nat × LimitOrder) :=
  sortRows (fun a b => b.sellPrice < a.sellPrice) L.limitOrders

/-- The limit orders between two prices, from the `lower_bound` of the higher to the `upper_bound`
of the lower. -/
def limitOrdersBetween (L : Ledger) (high low : Price) : List (Nat × LimitOrder) :=
  L.limitOrdersByPrice.filter fun r => r.2.sellPrice ≤ high ∧ low ≤ r.2.sellPrice

/-- The call orders `by_price`, the least call price first. -/
def callOrdersByPrice (L : Ledger) : List (Nat × CallOrder) :=
  sortRows (fun a b => a.callPrice < b.callPrice) L.callOrders

/-- The call orders from the `lower_bound` of a call price on. -/
def callOrdersFrom (L : Ledger) (low : Price) : List (Nat × CallOrder) :=
  L.callOrdersByPrice.filter fun r => low ≤ r.2.callPrice

/-- The call orders from the `lower_bound` of one call price to the `upper_bound` of another. -/
def callOrdersBetween (L : Ledger) (low high : Price) : List (Nat × CallOrder) :=
  (L.callOrdersFrom low).filter fun r => r.2.callPrice ≤ high

/-- The call orders `by_collateral`, the least collateral ratio first, from the `lower_bound` of a
collateral ratio on. -/
def callOrdersByCollateralFrom (L : Ledger) (low : Price) : List (Nat × CallOrder) :=
  (sortRows (fun a b => Price.mk a.getCollateral a.getDebt < ⟨b.getCollateral, b.getDebt⟩)
    L.callOrders).filter fun r => low ≤ ⟨r.2.getCollateral, r.2.getDebt⟩

/-- The settlements `by_expiration`: by asset, then by date, then by id. -/
def settlementsByExpiration (L : Ledger) : List (Nat × ForceSettlement) :=
  sortRows (fun a b => a.balance.assetId < b.balance.assetId ∨
    (a.balance.assetId = b.balance.assetId ∧ a.settlementDate < b.settlementDate)) L.settlements

/-- The bids for an asset `by_price`, the highest first, from the `lower_bound` of a price on. -/
def bidsFor (L : Ledger) (id : AssetId) (high : Price) : List (Nat × CollateralBid) :=
  (sortRows (fun a b => b.invSwanPrice < a.invSwanPrice) L.bids).filter fun r =>
    r.2.debtType = id ∧ r.2.invSwanPrice ≤ high

end Ledger

end Nestchain.Market
