import Nestchain.Market.Ledger
import Mathlib.Data.Finset.Basic

/-! The assets and the operations of their issuers and feed producers.  Here an asset comes with its
symbol, its precision and its core exchange rate, and bitasset data with the times and the flags
that decide when a median is computed again.  The head time and the next maintenance time are past
the hard forks that these evaluators compare them with.  Fees and the market are left out: what the
market does to an asset between two operations is in `Assets.Freshness`. -/

namespace Nestchain.Assets

open Lib
open Market (AssetId AccountId Asset Price BitassetOptions coreAsset maxShareSupply fullPercent)

/-! ### Objects -/

/-- `price_feed` -/
structure PriceFeed extends Market.PriceFeed where
  coreExchangeRate : Price
deriving DecidableEq

def PriceFeed.default : PriceFeed := ⟨Market.PriceFeed.default, Price.null⟩

/-- The feed of a producer with the time of its publication, which is zero when there is none
yet. -/
structure PublishedFeed where
  producer : AccountId
  time : Nat
  feed : PriceFeed
deriving DecidableEq

/-- `asset_options`, with the flags and the permissions as bits. -/
structure AssetOptions where
  maxSupply : Int
  marketFeePercent : Nat
  maxMarketFee : Int
  issuerPermissions : BitVec 16
  flags : BitVec 16
  coreExchangeRate : Price
  whitelistAuthorities : List AccountId
  blacklistAuthorities : List AccountId
  whitelistMarkets : List AssetId
  blacklistMarkets : List AssetId
deriving DecidableEq

/-- `asset_bitasset_data_object` -/
structure BitassetData where
  options : BitassetOptions
  feeds : List PublishedFeed
  currentFeed : PriceFeed
  currentFeedPublicationTime : Nat
  isPredictionMarket : Bool
  settlementPrice : Price
  assetCerUpdated : Bool
  feedCerUpdated : Bool
deriving DecidableEq

/-- `asset_object` with its current supply and, when it is market issued, its bitasset data. -/
structure AssetObject where
  symbol : List Char
  precision : Nat
  issuer : AccountId
  options : AssetOptions
  currentSupply : Int
  bitasset : Option BitassetData
deriving DecidableEq

def AssetObject.isMarketIssued (a : AssetObject) : Bool := a.bitasset.isSome

structure ChainParameters where
  blockInterval : Nat
  maximumAssetWhitelistAuthorities : Nat
  maximumAssetFeedPublishers : Nat

/-- What the evaluators read.  The feeders are the accounts in the active authorities of the witness
account and of the committee account. -/
structure Registry where
  accounts : Finset AccountId
  assets : Table AssetObject
  parameters : ChainParameters
  headBlockTime : Nat
  witnessFeeders : Finset AccountId
  committeeFeeders : Finset AccountId

/-- `GRAPHENE_COMMITTEE_ACCOUNT` -/
def committeeAccount : AccountId := 0

def whiteListFlag : BitVec 16 := 0x02

def disableForceSettleFlag : BitVec 16 := 0x10

def globalSettleFlag : BitVec 16 := 0x20

def witnessFedFlag : BitVec 16 := 0x80

def committeeFedFlag : BitVec 16 := 0x100

/-- `ASSET_ISSUER_PERMISSION_MASK` -/
def issuerPermissionMask : BitVec 16 := 0x1ff

def anySet (flags mask : BitVec 16) : Bool := decide (flags &&& mask ≠ 0)

/-! ### Feeds -/

namespace BitassetData

def hasSettlement (b : BitassetData) : Bool := !b.settlementPrice.isNull

/-- The publications that are alive at a time. -/
def liveFeeds (b : BitassetData) (now : Nat) : List PublishedFeed :=
  b.feeds.filter fun f => (now : Int) - f.time < b.options.feedLifetimeSec ∧ f.time ≠ 0

end BitassetData

/-- The feed in the middle of the order of one of their fields. -/
def PriceFeed.median (before : PriceFeed → PriceFeed → Prop) [DecidableRel before]
    (feeds : List PriceFeed) : PriceFeed :=
  ((feeds.insertionSort fun f g => ¬before g f)[feeds.length / 2]?).getD PriceFeed.default

def medianFeed (feeds : List PriceFeed) : PriceFeed :=
  let price := PriceFeed.median (fun f g => f.settlementPrice < g.settlementPrice) feeds
  let maintenance := PriceFeed.median
    (fun f g => f.maintenanceCollateralRatio < g.maintenanceCollateralRatio) feeds
  let squeeze := PriceFeed.median
    (fun f g => f.maximumShortSqueezeRatio < g.maximumShortSqueezeRatio) feeds
  let rate := PriceFeed.median (fun f g => f.coreExchangeRate < g.coreExchangeRate) feeds
  { settlementPrice := price.settlementPrice
    maintenanceCollateralRatio := maintenance.maintenanceCollateralRatio
    maximumShortSqueezeRatio := squeeze.maximumShortSqueezeRatio
    maintenance_range := maintenance.maintenance_range
    squeeze_range := squeeze.squeeze_range
    coreExchangeRate := rate.coreExchangeRate }

namespace BitassetData

def updateMedianFeeds (b : BitassetData) (now : Nat) : BitassetData :=
  let live := b.liveFeeds now
  if live.length < b.options.minimumFeeds then
    { b with
      feedCerUpdated := false
      currentFeedPublicationTime := now
      currentFeed := PriceFeed.default }
  else
    let median := medianFeed (live.map PublishedFeed.feed)
    { b with
      currentFeedPublicationTime := live.foldl (fun time f => min time f.time) now
      feedCerUpdated := b.feedCerUpdated ||
        decide (¬b.currentFeed.coreExchangeRate.Same median.coreExchangeRate)
      currentFeed := median }

def needToUpdateCer (b : BitassetData) : Bool :=
  (b.feedCerUpdated || b.assetCerUpdated) && !b.currentFeed.coreExchangeRate.isNull

/-- `feed_expiration_time`, at most the last time of 32 bits. -/
def feedExpirationTime (b : BitassetData) : Nat :=
  if 2 ^ 32 - 1 - b.currentFeedPublicationTime ≤ b.options.feedLifetimeSec then 2 ^ 32 - 1
  else b.currentFeedPublicationTime + b.options.feedLifetimeSec

def FeedIsExpired (b : BitassetData) (now : Nat) : Prop := b.feedExpirationTime ≤ now

instance (b : BitassetData) (now : Nat) : Decidable (b.FeedIsExpired now) :=
  inferInstanceAs (Decidable (_ ≤ _))

/-- `feeds[ producer ] = ( time, feed )` -/
def setFeed (b : BitassetData) (f : PublishedFeed) : BitassetData :=
  { b with
    feeds := if b.feeds.any fun g => g.producer = f.producer
      then b.feeds.map fun g => if g.producer = f.producer then f else g
      else b.feeds ++ [f] }

/-- The feeds of new producers: those of the old ones among them, and no publication yet of the
others. -/
def setFeedProducers (b : BitassetData) (producers : List AccountId) : BitassetData :=
  { b with
    feeds := (b.feeds.filter fun f => f.producer ∈ producers) ++
      (producers.filter fun p => !b.feeds.any fun f => f.producer = p).map
        fun p => ⟨p, 0, PriceFeed.default⟩ }

/-- The feeds after a change of the backing asset. -/
def resetFeeds (b : BitassetData) (witnessOrCommitteeFed : Bool) : BitassetData :=
  { b with
    feeds := if witnessOrCommitteeFed then []
      else b.feeds.map fun f => { f with feed := { f.feed with settlementPrice := Price.null } } }

end BitassetData

/-! ### Lookups -/

namespace Registry

def asset (R : Registry) (id : AssetId) : Attempt AssetObject := demand (R.assets.find id)

/-- `bitasset_data` of an asset object. -/
def bitassetOf (a : AssetObject) : Attempt BitassetData := demand a.bitasset

/-- `modify` of an asset object. -/
def setAsset (R : Registry) (id : AssetId) (a : AssetObject) : Registry :=
  { R with assets := R.assets.set id a }

def HaveAll (R : Registry) (accounts : List AccountId) : Prop := ∀ id ∈ accounts, id ∈ R.accounts

instance (R : Registry) (accounts : List AccountId) : Decidable (R.HaveAll accounts) :=
  inferInstanceAs (Decidable (∀ id ∈ accounts, _))

/-- The whitelist and blacklist authorities of options are few enough and exist. -/
def checkAuthorities (R : Registry) (o : AssetOptions) : Attempt Unit := do
  require (o.whitelistAuthorities.length ≤ R.parameters.maximumAssetWhitelistAuthorities)
  require (o.blacklistAuthorities.length ≤ R.parameters.maximumAssetWhitelistAuthorities)
  require (R.HaveAll o.whitelistAuthorities)
  require (R.HaveAll o.blacklistAuthorities)

end Registry

def AssetOptions.Valid (o : AssetOptions) : Prop :=
  0 < o.maxSupply ∧ o.maxSupply ≤ maxShareSupply ∧ o.marketFeePercent ≤ fullPercent ∧
    0 ≤ o.maxMarketFee ∧ o.maxMarketFee ≤ maxShareSupply ∧
    anySet o.issuerPermissions (~~~issuerPermissionMask) = false ∧
    anySet o.flags globalSettleFlag = false ∧
    ¬(anySet o.flags witnessFedFlag = true ∧ anySet o.flags committeeFedFlag = true) ∧
    o.coreExchangeRate.Valid ∧
    (o.coreExchangeRate.base.assetId = coreAsset ∨ o.coreExchangeRate.quote.assetId = coreAsset) ∧
    (o.whitelistAuthorities ≠ [] ∨ o.blacklistAuthorities ≠ [] →
      anySet o.flags whiteListFlag = true) ∧
    (∀ id ∈ o.whitelistMarkets, id ∉ o.blacklistMarkets)

instance (o : AssetOptions) : Decidable o.Valid := inferInstanceAs (Decidable (_ ∧ _))

/-! ### Symbols -/

/-- `is_valid_symbol` -/
def isValidSymbol (symbol : List Char) : Bool :=
  3 ≤ symbol.length && symbol.take 3 ≠ ['B', 'I', 'T'] && symbol.length ≤ 16 &&
    symbol.head?.any Char.isAlpha && symbol.getLast?.any Char.isAlphanum &&
    (symbol.all fun c => c.isUpper || c.isDigit || c = '.') && symbol.count '.' ≤ 1

/-- The part of a symbol before its last dot. -/
def symbolParent (symbol : List Char) : Option (List Char) :=
  if '.' ∈ symbol then some ((symbol.reverse.dropWhile (· ≠ '.')).tail.reverse) else none

/-! ### Operations -/

structure AssetCreate where
  fee : Asset
  issuer : AccountId
  symbol : List Char
  precision : Nat
  commonOptions : AssetOptions
  bitassetOpts : Option BitassetOptions
  isPredictionMarket : Bool

namespace AssetCreate

/-- `asset( 1 )` at the core exchange rate is an amount of the asset with the number one, which
stands for the new asset. -/
def RateForNew (op : AssetCreate) : Prop :=
  ((Asset.mk 1 coreAsset).mul op.commonOptions.coreExchangeRate).toOption.map Asset.assetId = some 1

instance (op : AssetCreate) : Decidable op.RateForNew := inferInstanceAs (Decidable (_ = _))

def Valid (op : AssetCreate) : Prop :=
  0 ≤ op.fee.amount ∧ isValidSymbol op.symbol = true ∧ op.commonOptions.Valid ∧
    (anySet op.commonOptions.issuerPermissions (disableForceSettleFlag ||| globalSettleFlag) =
      true →
      op.bitassetOpts.isSome) ∧
    (op.isPredictionMarket = true → op.bitassetOpts.isSome ∧
      anySet op.commonOptions.issuerPermissions globalSettleFlag = true) ∧
    op.RateForNew ∧ op.precision ≤ 12

instance (op : AssetCreate) : Decidable op.Valid := inferInstanceAs (Decidable (_ ∧ _))

/-- The checks of the backing asset of a new bitasset. -/
def checkBacking (op : AssetCreate) (R : Registry) (options : BitassetOptions) : Attempt Unit := do
  let backing ← R.asset options.shortBackingAsset
  (match backing.bitasset with
    | some b => do
      let backingBacking ← R.asset b.options.shortBackingAsset
      require (backingBacking.isMarketIssued = false)
      require (op.issuer ≠ committeeAccount ∨ b.options.shortBackingAsset = coreAsset)
    | none => require (op.issuer ≠ committeeAccount ∨ options.shortBackingAsset = coreAsset))
  require (R.parameters.blockInterval < options.feedLifetimeSec ∧
    R.parameters.blockInterval < options.forceSettlementDelaySec)

/-- A symbol with a dot belongs to the issuer of what stands before the dot. -/
def checkSymbol (op : AssetCreate) (R : Registry) : Attempt Unit := do
  require ((R.assets.findBy fun a => a.symbol = op.symbol) = none)
  match symbolParent op.symbol with
  | some parent => do
    let r ← demand (R.assets.findBy fun a => a.symbol = parent)
    require (r.2.issuer = op.issuer)
  | none => pure ()

def doEvaluate (op : AssetCreate) (R : Registry) : Attempt Unit := do
  R.checkAuthorities op.commonOptions
  op.checkSymbol R
  (match op.bitassetOpts with
    | some options => op.checkBacking R options
    | none => pure ())
  if op.isPredictionMarket then do
    let options ← demand op.bitassetOpts
    let backing ← R.asset options.shortBackingAsset
    require (op.precision = backing.precision)
  else pure ()

/-- The new asset, whose core exchange rate is between the core asset and itself. -/
def newAsset (op : AssetCreate) (id : AssetId) : AssetObject where
  symbol := op.symbol
  precision := op.precision
  issuer := op.issuer
  options := { op.commonOptions with
    coreExchangeRate := if op.commonOptions.coreExchangeRate.base.assetId = 0
      then { op.commonOptions.coreExchangeRate with
        quote := ⟨op.commonOptions.coreExchangeRate.quote.amount, id⟩ }
      else { op.commonOptions.coreExchangeRate with
        base := ⟨op.commonOptions.coreExchangeRate.base.amount, id⟩ } }
  currentSupply := 0
  bitasset := op.bitassetOpts.map fun options =>
    ⟨options, [], PriceFeed.default, 0, op.isPredictionMarket, Price.null, false, false⟩

def apply (op : AssetCreate) (R : Registry) : Attempt Registry := do
  require op.Valid
  op.doEvaluate R
  pure { R with assets := R.assets.create (op.newAsset R.assets.next) }

end AssetCreate

structure AssetUpdate where
  fee : Asset
  issuer : AccountId
  assetToUpdate : AssetId
  newIssuer : Option AccountId
  newOptions : AssetOptions

namespace AssetUpdate

def Valid (op : AssetUpdate) : Prop :=
  0 ≤ op.fee.amount ∧ op.newIssuer ≠ some op.issuer ∧ op.newOptions.Valid ∧
    ((Asset.mk 1 op.assetToUpdate).mul op.newOptions.coreExchangeRate).toOption.map Asset.assetId =
      some coreAsset

instance (op : AssetUpdate) : Decidable op.Valid := inferInstanceAs (Decidable (_ ∧ _))

/-- `asset_object::validate` with the new options. -/
def ValidFor (op : AssetUpdate) (a : AssetObject) : Prop :=
  a.isMarketIssued = true ∨
    anySet op.newOptions.flags (disableForceSettleFlag ||| globalSettleFlag) = false ∧
    anySet op.newOptions.issuerPermissions (disableForceSettleFlag ||| globalSettleFlag) = false

instance (op : AssetUpdate) (a : AssetObject) : Decidable (op.ValidFor a) :=
  inferInstanceAs (Decidable (_ ∨ _))

def doEvaluate (op : AssetUpdate) (R : Registry) (a : AssetObject) : Attempt Unit := do
  require (op.ValidFor a)
  require (op.newIssuer = none)
  require (a.currentSupply = 0 ∨
    anySet op.newOptions.issuerPermissions (~~~a.options.issuerPermissions) = false)
  require (anySet (op.newOptions.flags ^^^ a.options.flags) (~~~a.options.issuerPermissions) =
    false)
  require (op.issuer = a.issuer)
  R.checkAuthorities op.newOptions

/-- A changed core exchange rate of a market issued asset is noted in its bitasset data. -/
def updated (op : AssetUpdate) (a : AssetObject) : AssetObject :=
  { a with
    options := op.newOptions
    bitasset := a.bitasset.map fun b =>
      if a.options.coreExchangeRate.Same op.newOptions.coreExchangeRate then b
      else { b with assetCerUpdated := true } }

def apply (op : AssetUpdate) (R : Registry) : Attempt Registry := do
  require op.Valid
  let a ← R.asset op.assetToUpdate
  op.doEvaluate R a
  pure (R.setAsset op.assetToUpdate (op.updated a))

end AssetUpdate

structure AssetUpdateIssuer where
  fee : Asset
  issuer : AccountId
  assetToUpdate : AssetId
  newIssuer : AccountId

namespace AssetUpdateIssuer

/-- `validate_new_issuer` -/
def validateNewIssuer (R : Registry) (a : AssetObject) (newIssuer : AccountId) : Attempt Unit := do
  require (newIssuer ∈ R.accounts)
  match a.bitasset with
  | some b =>
    if newIssuer = committeeAccount then do
      let backing ← R.asset b.options.shortBackingAsset
      match backing.bitasset with
      | some c => do
        let _ ← R.asset c.options.shortBackingAsset
        require (c.options.shortBackingAsset = coreAsset)
      | none => require (b.options.shortBackingAsset = coreAsset)
    else pure ()
  | none => pure ()

def apply (op : AssetUpdateIssuer) (R : Registry) : Attempt Registry := do
  require (0 ≤ op.fee.amount ∧ op.issuer ≠ op.newIssuer)
  let a ← R.asset op.assetToUpdate
  validateNewIssuer R a op.newIssuer
  require (op.issuer = a.issuer)
  pure (R.setAsset op.assetToUpdate { a with issuer := op.newIssuer })

end AssetUpdateIssuer

structure AssetUpdateBitasset where
  fee : Asset
  issuer : AccountId
  assetToUpdate : AssetId
  newOptions : BitassetOptions

namespace AssetUpdateBitasset

/-- `check_children_of_bitasset`: the assets that are backed by the asset that is updated. -/
def checkChildrenOfBitasset (op : AssetUpdateBitasset) (R : Registry) (newBacking : AssetObject) :
    Attempt Unit :=
  if op.newOptions.shortBackingAsset = coreAsset then pure ()
  else require (∀ r ∈ R.assets.rows, ∀ b ∈ r.2.bitasset,
    b.options.shortBackingAsset = op.assetToUpdate →
      r.1 ≠ op.newOptions.shortBackingAsset ∧ r.2.issuer ≠ committeeAccount ∧
        newBacking.isMarketIssued = false)

def checkBacking (op : AssetUpdateBitasset) (R : Registry) (a : AssetObject) (b : BitassetData) :
    Attempt Unit := do
  require (a.currentSupply = 0)
  let newBacking ← R.asset op.newOptions.shortBackingAsset
  require (op.newOptions.shortBackingAsset ≠ op.assetToUpdate)
  require (b.isPredictionMarket = true → a.precision = newBacking.precision)
  (if a.issuer = committeeAccount then
      match newBacking.bitasset with
      | some c => do
        require (c.options.shortBackingAsset = coreAsset)
        op.checkChildrenOfBitasset R newBacking
      | none => require (op.newOptions.shortBackingAsset = coreAsset)
    else if op.newOptions.shortBackingAsset ≠ coreAsset then op.checkChildrenOfBitasset R newBacking
    else pure ())
  match newBacking.bitasset with
  | some c =>
    if c.options.shortBackingAsset = coreAsset then pure ()
    else do
      let backingBacking ← R.asset c.options.shortBackingAsset
      require (backingBacking.isMarketIssued = false)
  | none => pure ()

def doEvaluate (op : AssetUpdateBitasset) (R : Registry) (a : AssetObject) (b : BitassetData) :
    Attempt Unit := do
  require (op.issuer = a.issuer)
  require (b.hasSettlement = false)
  (if op.newOptions.shortBackingAsset = b.options.shortBackingAsset then pure ()
    else op.checkBacking R a b)
  require (R.parameters.blockInterval < op.newOptions.feedLifetimeSec)
  require (R.parameters.blockInterval < op.newOptions.forceSettlementDelaySec)

/-- `update_bitasset_object_options` -/
def updated (op : AssetUpdateBitasset) (now : Nat) (flags : BitVec 16) (b : BitassetData) :
    BitassetData :=
  let renewed := { b with options := op.newOptions }
  if op.newOptions.shortBackingAsset ≠ b.options.shortBackingAsset then
    (renewed.resetFeeds (anySet flags (witnessFedFlag ||| committeeFedFlag))).updateMedianFeeds now
  else if op.newOptions.minimumFeeds ≠ b.options.minimumFeeds ∨
      op.newOptions.feedLifetimeSec ≠ b.options.feedLifetimeSec then renewed.updateMedianFeeds now
  else renewed

def apply (op : AssetUpdateBitasset) (R : Registry) : Attempt Registry := do
  require (0 ≤ op.fee.amount)
  let a ← R.asset op.assetToUpdate
  let b ← Registry.bitassetOf a
  op.doEvaluate R a b
  pure (R.setAsset op.assetToUpdate
    { a with bitasset := some (op.updated R.headBlockTime a.options.flags b) })

end AssetUpdateBitasset

structure AssetUpdateFeedProducers where
  fee : Asset
  issuer : AccountId
  assetToUpdate : AssetId
  newFeedProducers : List AccountId

namespace AssetUpdateFeedProducers

def apply (op : AssetUpdateFeedProducers) (R : Registry) : Attempt Registry := do
  require (0 ≤ op.fee.amount)
  require (op.newFeedProducers.length ≤ R.parameters.maximumAssetFeedPublishers)
  require (R.HaveAll op.newFeedProducers)
  let a ← R.asset op.assetToUpdate
  let b ← Registry.bitassetOf a
  require (anySet a.options.flags committeeFedFlag = false)
  require (anySet a.options.flags witnessFedFlag = false)
  require (a.issuer = op.issuer)
  pure (R.setAsset op.assetToUpdate { a with
    bitasset := some ((b.setFeedProducers op.newFeedProducers).updateMedianFeeds R.headBlockTime) })

end AssetUpdateFeedProducers

structure AssetPublishFeed where
  fee : Asset
  publisher : AccountId
  assetId : AssetId
  feed : PriceFeed

namespace AssetPublishFeed

def Valid (op : AssetPublishFeed) : Prop :=
  0 ≤ op.fee.amount ∧ op.feed.settlementPrice.Valid ∧ op.feed.coreExchangeRate.Valid ∧
    op.feed.settlementPrice.base.assetId = op.feed.coreExchangeRate.base.assetId ∧
    op.feed.settlementPrice.isNull = false ∧ op.feed.coreExchangeRate.isNull = false ∧
    op.feed.settlementPrice.base.assetId = op.assetId

instance (op : AssetPublishFeed) : Decidable op.Valid := inferInstanceAs (Decidable (_ ∧ _))

def doEvaluate (op : AssetPublishFeed) (R : Registry) (a : AssetObject) (b : BitassetData) :
    Attempt Unit := do
  require (b.isPredictionMarket = false ∨ b.hasSettlement = false)
  require (op.feed.settlementPrice.quote.assetId = b.options.shortBackingAsset)
  require (op.feed.coreExchangeRate.quote.assetId = coreAsset)
  require (if anySet a.options.flags witnessFedFlag then op.publisher ∈ R.witnessFeeders
    else if anySet a.options.flags committeeFedFlag then op.publisher ∈ R.committeeFeeders
    else (b.feeds.any fun f => f.producer = op.publisher) = true)

def apply (op : AssetPublishFeed) (R : Registry) : Attempt Registry := do
  require op.Valid
  let a ← R.asset op.assetId
  let b ← Registry.bitassetOf a
  op.doEvaluate R a b
  let now := R.headBlockTime
  pure (R.setAsset op.assetId
    { a with bitasset := some ((b.setFeed ⟨op.publisher, now, op.feed⟩).updateMedianFeeds now) })

end AssetPublishFeed

inductive Operation where
  | assetCreate (op : AssetCreate)
  | assetUpdate (op : AssetUpdate)
  | assetUpdateIssuer (op : AssetUpdateIssuer)
  | assetUpdateBitasset (op : AssetUpdateBitasset)
  | assetUpdateFeedProducers (op : AssetUpdateFeedProducers)
  | assetPublishFeed (op : AssetPublishFeed)

def Operation.apply : Operation → Registry → Attempt Registry
  | .assetCreate op, R => op.apply R
  | .assetUpdate op, R => op.apply R
  | .assetUpdateIssuer op, R => op.apply R
  | .assetUpdateBitasset op, R => op.apply R
  | .assetUpdateFeedProducers op, R => op.apply R
  | .assetPublishFeed op, R => op.apply R

def Registry.perform (R : Registry) (ops : List Operation) : Attempt Registry :=
  ops.foldlM (fun R op => op.apply R) R

end Nestchain.Assets
