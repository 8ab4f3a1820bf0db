import Nestchain.Market.Price
import Mathlib.Logic.Function.Basic
import Mathlib.Data.List.Sort

/-! The market ticker of the market history plugin.  A fill is added to the ticker of its market
when its block is applied, and subtracted again by a cursor that walks behind through the order
history, from which old records are removed.  The buckets, which have no effect on the ticker, are
apart. -/

namespace Nestchain.Plugins

open Nestchain.Market

/-- The assets of a market, the lower id first. -/
abbrev MarketId := AssetId × AssetId

/-- `fill_order_operation` -/
structure Fill where
  pays : Asset
  receives : Asset
  fillPrice : Price
  isMaker : Bool
  assets_ne : pays.assetId ≠ receives.assetId

namespace Fill

def market (o : Fill) : MarketId :=
  if o.receives.assetId < o.pays.assetId then (o.receives.assetId, o.pays.assetId)
  else (o.pays.assetId, o.receives.assetId)

/-- `trade_price`, with the lower asset id as its base. -/
def tradePrice (o : Fill) : Price :=
  if o.receives.assetId < o.pays.assetId then Price.inverse ⟨o.pays, o.receives⟩
  else ⟨o.pays, o.receives⟩

/-- `fill_price`, with the lower asset id as its base. -/
def marketPrice (o : Fill) : Price :=
  if o.fillPrice.quote.assetId < o.fillPrice.base.assetId then o.fillPrice.inverse else o.fillPrice

end Fill

/-- `order_history_object` -/
structure HistoryRecord where
  id : Nat
  market : MarketId
  sequence : Int
  time : Nat
  op : Fill

/-- `market_ticker_object` -/
structure Ticker where
  lastDayBase : Int
  lastDayQuote : Int
  latestBase : Int
  latestQuote : Int
  baseVolume : Int
  quoteVolume : Int
deriving DecidableEq

/-- `market_ticker_meta_object` -/
structure TickerMeta where
  rollingMinOrderHisId : Nat
  skipMinOrderHisId : Bool
deriving DecidableEq

/-- What the plugin keeps in the database: the order history by id, its next id, the tickers, and
the meta object. -/
structure MarketHistory where
  history : List HistoryRecord
  nextId : Nat
  tickers : MarketId → Option Ticker
  tickerMeta : Option TickerMeta

def MarketHistory.empty : MarketHistory := ⟨[], 0, fun _ => none, none⟩

/-- The configuration of the plugin. -/
structure HistoryOptions where
  maxOrderHisRecordsPerMarket : Nat
  maxOrderHisSecondsPerMarket : Nat

/-- `fc::uint128` -/
def wrap (n : Int) : Int := n % 2 ^ 128

/-- The records of a market in the order of the index `by_key`. -/
def byKey (m : MarketId) (history : List HistoryRecord) : List HistoryRecord :=
  (history.filter fun r => r.market = m).insertionSort fun r r' => r.sequence ≤ r'.sequence

/-- The records of a market in the order of the index `by_market_time`. -/
def byMarketTime (m : MarketId) (history : List HistoryRecord) : List HistoryRecord :=
  (history.filter fun r => r.market = m).insertionSort fun r r' =>
    r'.time < r.time ∨ r'.time = r.time ∧ r.sequence ≤ r'.sequence

/-- `objects_to_remove` after a record with the sequence number was created: records that are both
beyond the number of records to keep, and older than the seconds to keep. -/
def objectsToRemove (opts : HistoryOptions) (now : Nat) (m : MarketId) (sequence : Int)
    (history : List HistoryRecord) : List HistoryRecord :=
  let beyond := (byKey m history).dropWhile fun r =>
    r.sequence < sequence + opts.maxOrderHisRecordsPerMarket
  let minTime := if opts.maxOrderHisSecondsPerMarket < now then now -
    opts.maxOrderHisSecondsPerMarket
    else 0
  let older := (byMarketTime m history).dropWhile fun r =>
    minTime < r.time ∨ minTime = r.time ∧ r.sequence < 0
  match beyond, older with
  | itr :: _, timeItr :: _ => if timeItr.sequence ≤ itr.sequence then beyond else older
  | _, _ => []

def addToTicker (o : Fill) : Option Ticker → Ticker
  | none =>
    { lastDayBase := 0
      lastDayQuote := 0
      latestBase := o.marketPrice.base.amount
      latestQuote := o.marketPrice.quote.amount
      baseVolume := wrap o.tradePrice.base.amount
      quoteVolume := wrap o.tradePrice.quote.amount }
  | some t =>
    { t with
      latestBase := o.marketPrice.base.amount
      latestQuote := o.marketPrice.quote.amount
      baseVolume := wrap (t.baseVolume + o.tradePrice.base.amount)
      quoteVolume := wrap (t.quoteVolume + o.tradePrice.quote.amount) }

/-- `operation_process_fill_order` -/
def processFillOrder (opts : HistoryOptions) (now : Nat) (s : MarketHistory) (o : Fill) :
    MarketHistory :=
  let sequence := match (byKey o.market s.history).head? with
    | some r => r.sequence - 1
    | none => 0
  let history := s.history ++ [⟨s.nextId, o.market, sequence, now, o⟩]
  let removed := objectsToRemove opts now o.market sequence history
  { history := history.filter fun r => r.id ∉ removed.map HistoryRecord.id
    nextId := s.nextId + 1
    tickers :=
      if o.isMaker then
        Function.update s.tickers o.market (some (addToTicker o (s.tickers o.market)))
      else s.tickers
    tickerMeta := some (s.tickerMeta.getD ⟨s.nextId, false⟩) }

def subtractFromTicker (o : Fill) (t : Ticker) : Ticker :=
  { t with
    lastDayBase := o.marketPrice.base.amount
    lastDayQuote := o.marketPrice.quote.amount
    baseVolume := wrap (t.baseVolume - o.tradePrice.base.amount)
    quoteVolume := wrap (t.quoteVolume - o.tradePrice.quote.amount) }

/-- The loop that rolls out expired records: the record where it ends, `last_min_his_id`, and the
tickers. -/
def rollLoop (rolling : Nat) (lastDay : Nat) :
    List HistoryRecord → Bool → Nat → (MarketId → Option Ticker) →
      Option HistoryRecord × Nat × (MarketId → Option Ticker)
  | [], _, lastMin, tickers => (none, lastMin, tickers)
  | r :: rs, skip, lastMin, tickers =>
    if r.time < lastDay then
      if skip ∧ r.id = rolling then rollLoop rolling lastDay rs false r.id tickers
      else if r.op.isMaker then
        rollLoop rolling lastDay rs skip r.id
          (Function.update tickers r.op.market ((tickers r.op.market).map
            (subtractFromTicker r.op)))
      else rollLoop rolling lastDay rs skip r.id tickers
    else (some r, lastMin, tickers)

/-- `b.timestamp - 86400`, in 32 bits. -/
def lastDayOf (timestamp : Nat) : Nat := (timestamp + 2 ^ 32 - 86400) % 2 ^ 32

/-- The end of `update_market_histories`. -/
def rollOut (timestamp : Nat) (s : MarketHistory) : MarketHistory :=
  match s.tickerMeta with
  | none => s
  | some mtm =>
    let rolling := mtm.rollingMinOrderHisId
    let (itr, lastMin, tickers) := rollLoop rolling (lastDayOf timestamp)
      (s.history.dropWhile fun r => r.id < rolling) mtm.skipMinOrderHisId rolling s.tickers
    let mtm := match itr with
      | some r => if r.id ≠ rolling then ⟨r.id, false⟩ else mtm
      | none => if lastMin ≠ rolling then ⟨lastMin, true⟩ else mtm
    { s with tickers := tickers, tickerMeta := some mtm }

/-- A block: its time and the fills among its applied operations. -/
structure FillBlock where
  timestamp : Nat
  fills : List Fill

/-- `update_market_histories` -/
def updateMarketHistories (opts : HistoryOptions) (s : MarketHistory) (b : FillBlock) :
    MarketHistory :=
  rollOut b.timestamp (b.fills.foldl (processFillOrder opts b.timestamp) s)

end Nestchain.Plugins
