import Nestchain.Plugins.MarketHistory
import Mathlib.Data.List.Dedup

/-! The buckets of the market history plugin: the end of `operation_process_fill_order`, which adds
a maker fill to the bucket of its market and time for each bucket size, and removes the buckets of
its market that are too old. -/

namespace Nestchain.Plugins

open Nestchain.Market

/-- `bucket_key` -/
structure BucketKey where
  base : AssetId
  quote : AssetId
  seconds : Nat
  openTime : Nat
deriving DecidableEq

def BucketKey.market (k : BucketKey) : MarketId := (k.base, k.quote)

/-- `bucket_key_comp` -/
def bucketKeyComp (k1 k2 : BucketKey) : Int :=
  if k1.base ≠ k2.base then if k2.base < k1.base then 1 else -1
  else if k1.quote ≠ k2.quote then if k2.quote < k1.quote then 1 else -1
  else if k1.seconds ≠ k2.seconds then if k2.seconds < k1.seconds then 1 else -1
  else if k1.openTime ≠ k2.openTime then if k2.openTime < k1.openTime then 1 else -1
  else 0

def BucketKey.price (k : BucketKey) (base quote : Int) : Price := ⟨⟨base, k.base⟩, ⟨quote, k.quote⟩⟩

/-- `bucket_object` -/
structure Bucket where
  id : Nat
  key : BucketKey
  highBase : Int
  highQuote : Int
  lowBase : Int
  lowQuote : Int
  openBase : Int
  openQuote : Int
  closeBase : Int
  closeQuote : Int
  baseVolume : Int
  quoteVolume : Int

namespace Bucket

def high (b : Bucket) : Price := b.key.price b.highBase b.highQuote

def low (b : Bucket) : Price := b.key.price b.lowBase b.lowQuote

def ofFill (id : Nat) (key : BucketKey) (o : Fill) : Bucket where
  id := id
  key := key
  baseVolume := o.tradePrice.base.amount
  quoteVolume := o.tradePrice.quote.amount
  openBase := o.marketPrice.base.amount
  openQuote := o.marketPrice.quote.amount
  closeBase := o.marketPrice.base.amount
  closeQuote := o.marketPrice.quote.amount
  highBase := o.marketPrice.base.amount
  highQuote := o.marketPrice.quote.amount
  lowBase := o.marketPrice.base.amount
  lowQuote := o.marketPrice.quote.amount

end Bucket

/-- `std::numeric_limits<int64_t>::max()` -/
def maxVolume : Int := 2 ^ 63 - 1

/-- `+=` of an amount that is not negative, with the maximum in place of an
`fc::overflow_exception`. -/
def addVolume (volume amount : Int) : Int :=
  if volume + amount ≤ maxVolume then volume + amount else maxVolume

namespace Bucket

/-- The volumes and the last price after a fill. -/
def addTrade (o : Fill) (b : Bucket) : Bucket :=
  { b with
    baseVolume := addVolume b.baseVolume o.tradePrice.base.amount
    quoteVolume := addVolume b.quoteVolume o.tradePrice.quote.amount
    closeBase := o.marketPrice.base.amount
    closeQuote := o.marketPrice.quote.amount }

def raiseHigh (fillPrice : Price) (b : Bucket) : Bucket :=
  if b.high < fillPrice then { b with highBase := b.closeBase, highQuote := b.closeQuote } else b

def lowerLow (fillPrice : Price) (b : Bucket) : Bucket :=
  if fillPrice < b.low then { b with lowBase := b.closeBase, lowQuote := b.closeQuote } else b

def update (o : Fill) (b : Bucket) : Bucket :=
  ((b.addTrade o).raiseHigh o.marketPrice).lowerLow o.marketPrice

end Bucket

/-- The buckets by id, and the next id. -/
structure BucketStore where
  buckets : List Bucket
  nextId : Nat

namespace BucketStore

def empty : BucketStore := ⟨[], 0⟩

/-- The buckets in the order of the index `by_key`. -/
def byKey (s : BucketStore) : List Bucket :=
  s.buckets.insertionSort fun b b' => bucketKeyComp b.key b'.key ≤ 0

/-- `find_db` of the index `by_key`. -/
def find (s : BucketStore) (key : BucketKey) : Option Bucket :=
  s.byKey.find? fun b => bucketKeyComp b.key key = 0

/-- The buckets that the index `by_key` has from `lower_bound` on. -/
def lowerBound (s : BucketStore) (key : BucketKey) : List Bucket :=
  s.byKey.dropWhile fun b => bucketKeyComp b.key key < 0

/-- A new bucket is created, or the existing one updated. -/
def addFill (key : BucketKey) (o : Fill) (s : BucketStore) : BucketStore :=
  match s.find key with
  | none => ⟨s.buckets ++ [Bucket.ofFill s.nextId key o], s.nextId + 1⟩
  | some bo => { s with buckets := s.buckets.map fun b => if b.id = bo.id then b.update o else b }

/-- The buckets of a market and size that were opened before the cutoff are removed. -/
def expire (key : BucketKey) (cutoff : Nat) (s : BucketStore) : BucketStore :=
  let vect := (s.lowerBound { key with openTime := 0 }).takeWhile fun b =>
    b.key.base = key.base ∧ b.key.quote = key.quote ∧ b.key.seconds = key.seconds ∧
      b.key.openTime < cutoff
  { s with buckets := s.buckets.filter fun b => b.id ∉ vect.map Bucket.id }

end BucketStore

/-- The configured bucket sizes, a `flat_set` from which 0 is erased, and the number of buckets to
keep for each of them. -/
structure BucketOptions where
  trackedBuckets : List Nat
  maxHistory : Nat
  nodup : trackedBuckets.Nodup
  zero_notMem : 0 ∉ trackedBuckets

/-- `plugin_initialize`, with the options `bucket-size` and `history-per-size`. -/
def BucketOptions.pluginInitialize (bucketSize : List Nat) (historyPerSize : Nat) :
    BucketOptions where
  trackedBuckets := (bucketSize.dedup.insertionSort (· ≤ ·)).erase 0
  maxHistory := historyPerSize
  nodup := ((List.perm_insertionSort _ _).nodup_iff.mpr (List.nodup_dedup _)).erase 0
  zero_notMem := ((List.perm_insertionSort _ _).nodup_iff.mpr (List.nodup_dedup _)).not_mem_erase

def recordBucket (maxHistory now : Nat) (o : Fill) (s : BucketStore) (bucket : Nat) : BucketStore :=
  let bucketNum := now / bucket
  let cutoff := if maxHistory < bucketNum then bucket * (bucketNum - maxHistory) else 0
  let key : BucketKey := ⟨o.market.1, o.market.2, bucket, bucketNum * bucket⟩
  (s.addFill key o).expire key cutoff

def updateBuckets (opts : BucketOptions) (now : Nat) (s : BucketStore) (o : Fill) : BucketStore :=
  if o.isMaker = false then s
  else if opts.maxHistory = 0 then s
  else opts.trackedBuckets.foldl (recordBucket opts.maxHistory now o) s

end Nestchain.Plugins
