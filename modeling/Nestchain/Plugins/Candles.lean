import Nestchain.Plugins.Buckets
import Nestchain.Plugins.TickerRun
import Nestchain.Market.PriceOrder
import Mathlib.Data.List.Induction

/-! What the buckets say of the fills of their intervals, and which of them are kept. -/

namespace Nestchain.Plugins

open Nestchain.Lib Nestchain.Market

/-- A fill as the chain makes it: amounts that fit and are not negative, and a price of the two
assets, of which one side is zero where an asset was settled globally for nothing. -/
structure Fill.Proper (o : Fill) : Prop where
  pays : 0 ≤ o.pays.amount ∧ o.pays.amount ≤ maxVolume
  receives : 0 ≤ o.receives.amount ∧ o.receives.amount ≤ maxVolume
  price_nonneg : 0 ≤ o.fillPrice.base.amount ∧ 0 ≤ o.fillPrice.quote.amount
  price_ne : o.fillPrice.base.amount ≠ 0 ∨ o.fillPrice.quote.amount ≠ 0
  price_assets :
    o.fillPrice.base.assetId = o.pays.assetId ∧ o.fillPrice.quote.assetId = o.receives.assetId ∨
      o.fillPrice.base.assetId = o.receives.assetId ∧ o.fillPrice.quote.assetId = o.pays.assetId

/-- The maker fills of the interval of a bucket, the oldest first. -/
def fillsOf (log : List Trade) (k : BucketKey) : List Fill :=
  (log.filter fun t => t.Counts k.market ∧ t.time / k.seconds * k.seconds = k.openTime).map Trade.op

/-- What a bucket says of the fills of its interval. -/
structure IsCandle (fills : List Fill) (b : Bucket) : Prop where
  opens : fills.head?.map Fill.marketPrice = some (b.key.price b.openBase b.openQuote)
  closes : fills.getLast?.map Fill.marketPrice = some (b.key.price b.closeBase b.closeQuote)
  high_mem : ∃ o ∈ fills, o.marketPrice = b.high
  le_high : ∀ o ∈ fills, o.marketPrice ≤ b.high
  low_mem : ∃ o ∈ fills, o.marketPrice = b.low
  low_le : ∀ o ∈ fills, b.low ≤ o.marketPrice
  baseVolume : b.baseVolume = min (fills.map fun o => o.tradePrice.base.amount).sum maxVolume
  quoteVolume : b.quoteVolume = min (fills.map fun o => o.tradePrice.quote.amount).sum maxVolume

/-- The time from which buckets are kept, which does not go below 0. -/
def cutoffOf (opts : BucketOptions) (size time : Nat) : Nat :=
  (time / size - opts.maxHistory) * size

def recordBuckets (opts : BucketOptions) (log : List Trade) : BucketStore :=
  log.foldl (fun s t => updateBuckets opts t.time s t.op) .empty

/-- What a fill after others leaves in the buckets. -/
structure CandlesAfter (opts : BucketOptions) (before : List Trade) (t : Trade) : Prop where
  candles : ∀ b ∈ (recordBuckets opts (before ++ [t])).buckets,
    b.key.seconds ∈ opts.trackedBuckets ∧ IsCandle (fillsOf (before ++ [t]) b.key) b
  unique : ∀ b ∈ (recordBuckets opts (before ++ [t])).buckets,
    ∀ b' ∈ (recordBuckets opts (before ++ [t])).buckets, b.key = b'.key → b = b'
  removed : t.op.isMaker = true → ∀ b ∈ (recordBuckets opts (before ++ [t])).buckets,
    b.key.market = t.op.market → cutoffOf opts b.key.seconds t.time ≤ b.key.openTime
  kept : t.op.isMaker = true → ∀ k : BucketKey, k.market = t.op.market →
    k.seconds ∈ opts.trackedBuckets → cutoffOf opts k.seconds t.time ≤ k.openTime →
      fillsOf (before ++ [t]) k ≠ [] →
        ∃ b ∈ (recordBuckets opts (before ++ [t])).buckets, b.key = k

/-! ### The order of the buckets -/

namespace BucketKey

def rank (k : BucketKey) : ℕ ×ₗ ℕ ×ₗ ℕ ×ₗ ℕ :=
  toLex (k.base, toLex (k.quote, toLex (k.seconds, k.openTime)))

theorem comp_neg_iff {k k' : BucketKey} : bucketKeyComp k k' < 0 ↔ k.rank < k'.rank := by
  obtain ⟨base, quote, seconds, openTime⟩ := k
  obtain ⟨base', quote', seconds', openTime'⟩ := k'
  simp only [bucketKeyComp, rank, Prod.Lex.toLex_lt_toLex]
  split_ifs <;> grind

theorem comp_eq_zero_iff {k k' : BucketKey} : bucketKeyComp k k' = 0 ↔ k = k' := by
  obtain ⟨base, quote, seconds, openTime⟩ := k
  obtain ⟨base', quote', seconds', openTime'⟩ := k'
  simp only [bucketKeyComp, BucketKey.mk.injEq]
  split_ifs <;> grind

theorem comp_le_iff {k k' : BucketKey} : bucketKeyComp k k' ≤ 0 ↔ k.rank ≤ k'.rank := by
  obtain ⟨base, quote, seconds, openTime⟩ := k
  obtain ⟨base', quote', seconds', openTime'⟩ := k'
  simp only [bucketKeyComp, rank, Prod.Lex.toLex_le_toLex]
  split_ifs <;> grind

theorem of_rank_between {k k1 k2 : BucketKey}
    (hlow : ({ k with openTime := 0 } : BucketKey).rank ≤ k1.rank) (hle : k1.rank ≤ k2.rank)
    (hbase : k2.base = k.base) (hquote : k2.quote = k.quote) (hseconds : k2.seconds = k.seconds) :
    k1.base = k.base ∧ k1.quote = k.quote ∧ k1.seconds = k.seconds ∧
      k1.openTime ≤ k2.openTime := by
  simp only [rank, Prod.Lex.toLex_le_toLex] at hlow hle
  grind

end BucketKey

/-! ### The store -/

/-- Buckets have ids and keys of their own. -/
structure Shelved (s : BucketStore) : Prop where
  ids : s.buckets.Pairwise fun b b' => b.id < b'.id
  lt_nextId : ∀ b ∈ s.buckets, b.id < s.nextId
  keys : ∀ b ∈ s.buckets, ∀ b' ∈ s.buckets, b.key = b'.key → b = b'

theorem shelved_empty : Shelved .empty where
  ids := List.Pairwise.nil
  lt_nextId := fun _ hb => absurd hb List.not_mem_nil
  keys := fun _ hb => absurd hb List.not_mem_nil

section Store

variable {s : BucketStore} {key : BucketKey} {o : Fill} {b : Bucket} {cutoff : Nat}

theorem byKey_sorted (s : BucketStore) :
    s.byKey.Pairwise fun b b' => b.key.rank ≤ b'.key.rank := by
  have : Std.Total fun b b' : Bucket => bucketKeyComp b.key b'.key ≤ 0 :=
    ⟨fun b b' => by
      rw [BucketKey.comp_le_iff, BucketKey.comp_le_iff]
      exact le_total _ _⟩
  have : IsTrans Bucket fun b b' => bucketKeyComp b.key b'.key ≤ 0 :=
    ⟨fun b b' b'' h h' => by
      rw [BucketKey.comp_le_iff] at h h' ⊢
      exact le_trans h h'⟩
  exact (List.pairwise_insertionSort _ _).imp fun h => BucketKey.comp_le_iff.mp h

theorem mem_byKey : b ∈ s.byKey ↔ b ∈ s.buckets := List.mem_insertionSort _

theorem find_eq_none : s.find key = none ↔ ∀ b ∈ s.buckets, b.key ≠ key := by
  rw [BucketStore.find, List.find?_eq_none]
  simp only [mem_byKey, decide_eq_true_eq, BucketKey.comp_eq_zero_iff]

theorem find_eq_some (h : s.find key = some b) : b ∈ s.buckets ∧ b.key = key := by
  refine ⟨mem_byKey.mp (List.mem_of_find?_eq_some h), ?_⟩
  have hkey := List.find?_some h
  exact BucketKey.comp_eq_zero_iff.mp (of_decide_eq_true hkey)

theorem mem_expired : b ∈ (s.lowerBound { key with openTime := 0 }).takeWhile (fun b =>
      b.key.base = key.base ∧ b.key.quote = key.quote ∧ b.key.seconds = key.seconds ∧
        b.key.openTime < cutoff) ↔
    b ∈ s.buckets ∧ b.key.market = key.market ∧ b.key.seconds = key.seconds ∧
      b.key.openTime < cutoff := by
  have hlower : s.lowerBound { key with openTime := 0 } =
      s.byKey.filter fun b => !decide (bucketKeyComp b.key { key with openTime := 0 } < 0) := by
    refine (takeWhile_dropWhile_eq_filter (byKey_sorted s) fun b b' hle hlt => ?_).2
    have hlt := BucketKey.comp_neg_iff.mp (of_decide_eq_true hlt)
    exact decide_eq_true (BucketKey.comp_neg_iff.mpr (lt_of_le_of_lt hle hlt))
  have hsorted : (s.lowerBound { key with openTime := 0 }).Pairwise fun b b' =>
      b.key.rank ≤ b'.key.rank ∧ ({ key with openTime := 0 } : BucketKey).rank ≤ b.key.rank := by
    rw [hlower]
    refine ((byKey_sorted s).filter _).imp_of_mem fun {b b'} hb hb' hle => ⟨hle, ?_⟩
    have hnot := (List.mem_filter.mp hb).2
    simp only [Bool.not_eq_true', decide_eq_false_iff_not, BucketKey.comp_neg_iff, not_lt] at hnot
    exact hnot
  rw [(takeWhile_dropWhile_eq_filter hsorted fun b b' hle hb' => ?_).1, List.mem_filter, hlower,
    List.mem_filter, mem_byKey]
  · simp only [Bool.not_eq_true', decide_eq_false_iff_not, decide_eq_true_eq,
      BucketKey.comp_neg_iff, BucketKey.market, Prod.mk.injEq, and_assoc]
    refine and_congr_right fun hb => ⟨fun h => h.2, fun h => ⟨?_, h⟩⟩
    obtain ⟨hbase, hquote, hseconds, -⟩ := h
    simp only [BucketKey.rank, Prod.Lex.toLex_lt_toLex]
    grind
  · obtain ⟨hbase, hquote, hseconds, hlt⟩ := of_decide_eq_true hb'
    obtain ⟨hbase, hquote, hseconds, htime⟩ :=
      BucketKey.of_rank_between hle.2 hle.1 hbase hquote hseconds
    exact decide_eq_true ⟨hbase, hquote, hseconds, Nat.lt_of_le_of_lt htime hlt⟩

theorem Shelved.eq_of_id (h : Shelved s) {b b' : Bucket} (hb : b ∈ s.buckets)
    (hb' : b' ∈ s.buckets) (hid : b.id = b'.id) : b = b' :=
  eq_of_key_eq h.ids hb hb' hid

theorem Shelved.mem_expire (h : Shelved s) : b ∈ (s.expire key cutoff).buckets ↔
    b ∈ s.buckets ∧ ¬(b.key.market = key.market ∧ b.key.seconds = key.seconds ∧
      b.key.openTime < cutoff) := by
  unfold BucketStore.expire
  rw [List.mem_filter, decide_eq_true_eq]
  refine and_congr_right fun hb => not_congr ⟨fun hmem => ?_, fun hold => ?_⟩
  · obtain ⟨b', hb', hid⟩ := List.mem_map.mp hmem
    obtain ⟨hmem', hold⟩ := mem_expired.mp hb'
    rw [← h.eq_of_id hmem' hb hid]
    exact hold
  · exact List.mem_map_of_mem (mem_expired.mpr ⟨hb, hold⟩)

theorem Shelved.expire (h : Shelved s) (key : BucketKey) (cutoff : Nat) :
    Shelved (s.expire key cutoff) where
  ids := h.ids.filter _
  lt_nextId b hb := h.lt_nextId b (h.mem_expire.mp hb).1
  keys b hb b' hb' := h.keys b (h.mem_expire.mp hb).1 b' (h.mem_expire.mp hb').1

theorem update_id_key (o : Fill) (b : Bucket) :
    (b.update o).id = b.id ∧ (b.update o).key = b.key := by
  unfold Bucket.update Bucket.lowerLow
  split <;> unfold Bucket.raiseHigh <;> split <;> exact ⟨rfl, rfl⟩

@[simp] theorem update_id (o : Fill) (b : Bucket) : (b.update o).id = b.id := (update_id_key o b).1

@[simp] theorem update_key (o : Fill) (b : Bucket) : (b.update o).key = b.key :=
  (update_id_key o b).2

theorem Shelved.mem_addFill (h : Shelved s) : b ∈ (s.addFill key o).buckets ↔
    b ∈ s.buckets ∧ b.key ≠ key ∨ (∃ b' ∈ s.buckets, b'.key = key ∧ b = b'.update o) ∨
      (∀ b' ∈ s.buckets, b'.key ≠ key) ∧ b = Bucket.ofFill s.nextId key o := by
  unfold BucketStore.addFill
  split
  · rename_i hnone
    have hnone := find_eq_none.mp hnone
    rw [List.mem_append, List.mem_singleton]
    constructor
    · rintro (hb | rfl)
      · exact Or.inl ⟨hb, hnone b hb⟩
      · exact Or.inr (Or.inr ⟨hnone, rfl⟩)
    · rintro (⟨hb, -⟩ | ⟨b', hb', hkey, -⟩ | ⟨-, rfl⟩)
      · exact Or.inl hb
      · exact absurd hkey (hnone b' hb')
      · exact Or.inr rfl
  · rename_i bo hsome
    obtain ⟨hbo, rfl⟩ := find_eq_some hsome
    have hiff : ∀ b' ∈ s.buckets, b'.id = bo.id ↔ b'.key = bo.key := fun b' hb' =>
      ⟨fun hid => by rw [h.eq_of_id hb' hbo hid], fun hkey => by rw [h.keys b' hb' bo hbo hkey]⟩
    rw [List.mem_map]
    constructor
    · rintro ⟨b', hb', rfl⟩
      by_cases hid : b'.id = bo.id
      · rw [if_pos hid]
        exact Or.inr (Or.inl ⟨b', hb', (hiff b' hb').mp hid, rfl⟩)
      · rw [if_neg hid]
        exact Or.inl ⟨hb', fun hkey => hid ((hiff b' hb').mpr hkey)⟩
    · rintro (⟨hb, hne⟩ | ⟨b', hb', hkey, rfl⟩ | ⟨hnone, -⟩)
      · exact ⟨b, hb, if_neg fun hid => hne ((hiff b hb).mp hid)⟩
      · exact ⟨b', hb', if_pos ((hiff b' hb').mpr hkey)⟩
      · exact absurd rfl (hnone bo hbo)

theorem Shelved.addFill (h : Shelved s) (key : BucketKey) (o : Fill) :
    Shelved (s.addFill key o) := by
  have hkeys : ∀ b ∈ (s.addFill key o).buckets, ∀ b' ∈ (s.addFill key o).buckets,
      b.key = b'.key → b = b' := by
    intro b hb b' hb' hkey
    rcases h.mem_addFill.mp hb with ⟨hb, hne⟩ | ⟨b1, hb1, hk1, rfl⟩ | ⟨hnone, rfl⟩
    · rcases h.mem_addFill.mp hb' with ⟨hb', -⟩ | ⟨b2, hb2, hk2, rfl⟩ | ⟨hnone, rfl⟩
      · exact h.keys b hb b' hb' hkey
      · rw [update_key] at hkey
        exact absurd (hkey.trans hk2) hne
      · exact absurd hkey hne
    · rcases h.mem_addFill.mp hb' with ⟨hb', hne⟩ | ⟨b2, hb2, hk2, rfl⟩ | ⟨hnone, rfl⟩
      · rw [update_key] at hkey
        exact absurd (hkey.symm.trans hk1) hne
      · rw [h.keys b1 hb1 b2 hb2 (hk1.trans hk2.symm)]
      · exact absurd hk1 (hnone b1 hb1)
    · rcases h.mem_addFill.mp hb' with ⟨hb', hne⟩ | ⟨b2, hb2, hk2, rfl⟩ | ⟨-, rfl⟩
      · exact absurd hkey.symm hne
      · exact absurd hk2 (hnone b2 hb2)
      · rfl
  refine ⟨?_, ?_, hkeys⟩
  · unfold BucketStore.addFill
    split
    · refine List.pairwise_append.mpr ⟨h.ids, List.pairwise_singleton _ _, fun b hb b' hb' => ?_⟩
      rw [List.mem_singleton.mp hb']
      exact h.lt_nextId b hb
    · refine List.pairwise_map.mpr (h.ids.imp fun {b b'} hlt => ?_)
      split <;> split <;> simpa using hlt
  · unfold BucketStore.addFill
    split
    · intro b hb
      rcases List.mem_append.mp hb with hb | hb
      · exact Nat.lt_succ_of_lt (h.lt_nextId b hb)
      · rw [List.mem_singleton.mp hb]
        exact Nat.lt_succ_self _
    · intro b hb
      obtain ⟨b', hb', rfl⟩ := List.mem_map.mp hb
      have hlt := h.lt_nextId b' hb'
      split <;> simpa using hlt

end Store

/-! ### Prices of one market -/

/-- A price of a market, of which one side may be zero. -/
structure Quoted (m : MarketId) (p : Price) : Prop where
  assets : (p.base.assetId, p.quote.assetId) = m
  base_nonneg : 0 ≤ p.base.amount
  quote_nonneg : 0 ≤ p.quote.amount
  ne_zero : p.base.amount ≠ 0 ∨ p.quote.amount ≠ 0

namespace Quoted

variable {m : MarketId} {p q r : Price}

theorem lt_iff (hp : Quoted m p) (hq : Quoted m q) :
    p < q ↔ q.quote.amount * p.base.amount < p.quote.amount * q.base.amount := by
  obtain ⟨hbase, hquote⟩ := Prod.ext_iff.mp (hp.assets.trans hq.assets.symm)
  exact Price.lt_iff_mul hbase hquote

theorem le_iff (hp : Quoted m p) (hq : Quoted m q) :
    p ≤ q ↔ q.quote.amount * p.base.amount ≤ p.quote.amount * q.base.amount := by
  obtain ⟨hbase, hquote⟩ := Prod.ext_iff.mp (hp.assets.trans hq.assets.symm)
  exact Price.le_iff_mul hbase hquote

theorem le_refl (hp : Quoted m p) : p ≤ p :=
  (hp.le_iff hp).mpr (Int.le_refl _)

theorem le_of_lt (hp : Quoted m p) (hq : Quoted m q) (h : p < q) : p ≤ q :=
  (hp.le_iff hq).mpr (Int.le_of_lt ((hp.lt_iff hq).mp h))

theorem le_trans (hp : Quoted m p) (hq : Quoted m q) (hr : Quoted m r) (h : p ≤ q) (h' : q ≤ r) :
    p ≤ r := by
  rw [hp.le_iff hq] at h
  rw [hq.le_iff hr] at h'
  rw [hp.le_iff hr]
  rcases hq.quote_nonneg.eq_or_lt with hzero | hpos
  · -- a price above one without a quote has none either
    have hbase : 0 < q.base.amount :=
      lt_of_le_of_ne hq.base_nonneg (hq.ne_zero.resolve_right (not_not.mpr hzero.symm)).symm
    rw [← hzero, zero_mul] at h'
    have hquote : r.quote.amount = 0 :=
      (nonpos_of_mul_nonpos_left h' hbase).antisymm hr.quote_nonneg
    rw [hquote, zero_mul]
    exact mul_nonneg hp.quote_nonneg hr.base_nonneg
  · refine le_of_mul_le_mul_left ?_ hpos
    calc q.quote.amount * (r.quote.amount * p.base.amount)
        = r.quote.amount * (q.quote.amount * p.base.amount) := by ring
      _ ≤ r.quote.amount * (p.quote.amount * q.base.amount) :=
          mul_le_mul_of_nonneg_left h hr.quote_nonneg
      _ = p.quote.amount * (r.quote.amount * q.base.amount) := by ring
      _ ≤ p.quote.amount * (q.quote.amount * r.base.amount) :=
          mul_le_mul_of_nonneg_left h' hp.quote_nonneg
      _ = q.quote.amount * (p.quote.amount * r.base.amount) := by ring

end Quoted

/-! ### One fill -/

namespace Fill.Proper

variable {o : Fill} (h : o.Proper)

include h

theorem marketPrice_assets :
    (o.marketPrice.base.assetId, o.marketPrice.quote.assetId) = o.market := by
  have hne := o.assets_ne
  rcases h.price_assets with ⟨hbase, hquote⟩ | ⟨hbase, hquote⟩
  · unfold Fill.marketPrice Fill.market
    rw [hbase, hquote]
    split
    · exact Prod.ext hquote hbase
    · exact Prod.ext hbase hquote
  · unfold Fill.marketPrice Fill.market
    rw [hbase, hquote]
    rcases Nat.lt_or_gt_of_ne hne with hlt | hlt
    · rw [if_pos hlt, if_neg (Nat.lt_asymm hlt)]
      exact Prod.ext hquote hbase
    · rw [if_neg (Nat.lt_asymm hlt), if_pos hlt]
      exact Prod.ext hbase hquote

theorem marketPrice_eq {k : BucketKey} (hk : k.market = o.market) :
    k.price o.marketPrice.base.amount o.marketPrice.quote.amount = o.marketPrice := by
  have hassets := hk.trans h.marketPrice_assets.symm
  obtain ⟨hbase, hquote⟩ := Prod.ext_iff.mp hassets
  exact Price.ext (Asset.ext rfl hbase) (Asset.ext rfl hquote)

theorem marketPrice_quoted : Quoted o.market o.marketPrice := by
  have hassets := h.marketPrice_assets
  by_cases hlt : o.fillPrice.quote.assetId < o.fillPrice.base.assetId
  · rw [Fill.marketPrice, if_pos hlt] at hassets ⊢
    exact ⟨hassets, h.price_nonneg.2, h.price_nonneg.1, h.price_ne.symm⟩
  · rw [Fill.marketPrice, if_neg hlt] at hassets ⊢
    exact ⟨hassets, h.price_nonneg.1, h.price_nonneg.2, h.price_ne⟩

theorem tradePrice_bounds :
    (0 ≤ o.tradePrice.base.amount ∧ o.tradePrice.base.amount ≤ maxVolume) ∧
      0 ≤ o.tradePrice.quote.amount ∧ o.tradePrice.quote.amount ≤ maxVolume := by
  unfold Fill.tradePrice
  split
  · exact ⟨h.receives, h.pays⟩
  · exact ⟨h.pays, h.receives⟩

end Fill.Proper

section Candle

variable {fills : List Fill} {b : Bucket} {o : Fill}

theorem update_high (o : Fill) (b : Bucket) : (b.update o).high =
    if b.high < o.marketPrice then b.key.price o.marketPrice.base.amount o.marketPrice.quote.amount
    else b.high := by
  have hhigh : ((b.addTrade o).raiseHigh o.marketPrice).high =
      if b.high < o.marketPrice then
        b.key.price o.marketPrice.base.amount o.marketPrice.quote.amount else b.high := by
    unfold Bucket.raiseHigh
    split <;> rename_i h
    · exact (if_pos h).symm
    · exact (if_neg h).symm
  rw [← hhigh]
  unfold Bucket.update Bucket.lowerLow
  split <;> rfl

theorem update_low (o : Fill) (b : Bucket) : (b.update o).low =
    if o.marketPrice < b.low then b.key.price o.marketPrice.base.amount o.marketPrice.quote.amount
    else b.low := by
  have hraise : ((b.addTrade o).raiseHigh o.marketPrice).low = b.low ∧
      ((b.addTrade o).raiseHigh o.marketPrice).key.price
        ((b.addTrade o).raiseHigh o.marketPrice).closeBase
        ((b.addTrade o).raiseHigh o.marketPrice).closeQuote =
      b.key.price o.marketPrice.base.amount o.marketPrice.quote.amount := by
    unfold Bucket.raiseHigh
    split <;> exact ⟨rfl, rfl⟩
  rw [← hraise.1, ← hraise.2]
  unfold Bucket.update
  generalize (b.addTrade o).raiseHigh o.marketPrice = raised
  unfold Bucket.lowerLow
  split <;> rfl

theorem update_rest (o : Fill) (b : Bucket) :
    (b.update o).openBase = b.openBase ∧ (b.update o).openQuote = b.openQuote ∧
      (b.update o).closeBase = o.marketPrice.base.amount ∧
      (b.update o).closeQuote = o.marketPrice.quote.amount ∧
      (b.update o).baseVolume = addVolume b.baseVolume o.tradePrice.base.amount ∧
      (b.update o).quoteVolume = addVolume b.quoteVolume o.tradePrice.quote.amount := by
  unfold Bucket.update Bucket.lowerLow
  split <;> unfold Bucket.raiseHigh <;> split <;> exact ⟨rfl, rfl, rfl, rfl, rfl, rfl⟩

theorem addVolume_min {sum amount : Int} (h : 0 ≤ amount) :
    addVolume (min sum maxVolume) amount = min (sum + amount) maxVolume := by
  unfold addVolume
  split <;> omega

theorem IsCandle.ofFill (h : o.Proper) {key : BucketKey} (hkey : key.market = o.market) (id : Nat) :
    IsCandle [o] (Bucket.ofFill id key o) := by
  have hprice := h.marketPrice_eq hkey
  have hhigh : (Bucket.ofFill id key o).high = o.marketPrice := hprice
  have hlow : (Bucket.ofFill id key o).low = o.marketPrice := hprice
  obtain ⟨⟨-, hbase⟩, -, hquote⟩ := h.tradePrice_bounds
  have hle : o.marketPrice ≤ o.marketPrice := h.marketPrice_quoted.le_refl
  refine
    { opens := congrArg some hprice.symm
      closes := congrArg some hprice.symm
      high_mem := ⟨o, List.mem_singleton_self o, hhigh.symm⟩
      le_high := fun o' ho' => ?_
      low_mem := ⟨o, List.mem_singleton_self o, hlow.symm⟩
      low_le := fun o' ho' => ?_
      baseVolume := ?_
      quoteVolume := ?_ }
  · rw [List.mem_singleton.mp ho', hhigh]
    exact hle
  · rw [List.mem_singleton.mp ho', hlow]
    exact hle
  · rw [List.map_singleton, List.sum_singleton, min_eq_left hbase]
    rfl
  · rw [List.map_singleton, List.sum_singleton, min_eq_left hquote]
    rfl

theorem le_raised {m : MarketId} {p : Price} (hfills : ∀ o ∈ fills, Quoted m o.marketPrice)
    (ho : Quoted m o.marketPrice) (hp : Quoted m p) (h : ∀ o ∈ fills, o.marketPrice ≤ p) :
    ∀ x ∈ fills ++ [o], x.marketPrice ≤ if p < o.marketPrice then o.marketPrice else p := by
  intro x hx
  split <;> rename_i hlt
  · rcases List.mem_append.mp hx with hx | hx
    · exact (hfills x hx).le_trans hp ho (h x hx) (hp.le_of_lt ho hlt)
    · rw [List.mem_singleton.mp hx]
      exact ho.le_refl
  · rcases List.mem_append.mp hx with hx | hx
    · exact h x hx
    · rw [List.mem_singleton.mp hx]
      exact hlt

theorem lowered_le {m : MarketId} {p : Price} (hfills : ∀ o ∈ fills, Quoted m o.marketPrice)
    (ho : Quoted m o.marketPrice) (hp : Quoted m p) (h : ∀ o ∈ fills, p ≤ o.marketPrice) :
    ∀ x ∈ fills ++ [o], (if o.marketPrice < p then o.marketPrice else p) ≤ x.marketPrice := by
  intro x hx
  split <;> rename_i hlt
  · rcases List.mem_append.mp hx with hx | hx
    · exact ho.le_trans hp (hfills x hx) (ho.le_of_lt hp hlt) (h x hx)
    · rw [List.mem_singleton.mp hx]
      exact ho.le_refl
  · rcases List.mem_append.mp hx with hx | hx
    · exact h x hx
    · rw [List.mem_singleton.mp hx]
      exact hlt

theorem IsCandle.update (h : IsCandle fills b)
    (hfills : ∀ o ∈ fills, o.Proper ∧ o.market = b.key.market) (ho : o.Proper)
    (hkey : b.key.market = o.market) : IsCandle (fills ++ [o]) (b.update o) := by
  obtain ⟨hopenBase, hopenQuote, hcloseBase, hcloseQuote, hbaseVolume, hquoteVolume⟩ :=
    update_rest o b
  have hprice := ho.marketPrice_eq hkey
  obtain ⟨⟨hbase, -⟩, hquote, -⟩ := ho.tradePrice_bounds
  have hquoted : ∀ o ∈ fills, Quoted b.key.market o.marketPrice := fun o ho =>
    (hfills o ho).2 ▸ (hfills o ho).1.marketPrice_quoted
  have hnew : Quoted b.key.market o.marketPrice := hkey ▸ ho.marketPrice_quoted
  have hlast : o ∈ fills ++ [o] := List.mem_append_right _ (List.mem_singleton_self o)
  obtain ⟨high, hhigh, hhighEq⟩ := h.high_mem
  obtain ⟨low, hlow, hlowEq⟩ := h.low_mem
  refine
    { opens := ?_
      closes := ?_
      high_mem := ?_
      le_high := ?_
      low_mem := ?_
      low_le := ?_
      baseVolume := ?_
      quoteVolume := ?_ }
  · rw [update_key, hopenBase, hopenQuote, ← h.opens]
    obtain ⟨first, rest, heq⟩ := List.exists_cons_of_ne_nil (List.ne_nil_of_mem hhigh)
    rw [heq]
    rfl
  · rw [update_key, hcloseBase, hcloseQuote, hprice, List.getLast?_concat]
    rfl
  · rw [update_high]
    split
    · exact ⟨o, hlast, hprice.symm⟩
    · exact ⟨high, List.mem_append_left _ hhigh, hhighEq⟩
  · rw [update_high, hprice]
    exact le_raised hquoted hnew (hhighEq ▸ hquoted high hhigh) h.le_high
  · rw [update_low]
    split
    · exact ⟨o, hlast, hprice.symm⟩
    · exact ⟨low, List.mem_append_left _ hlow, hlowEq⟩
  · rw [update_low, hprice]
    exact lowered_le hquoted hnew (hlowEq ▸ hquoted low hlow) h.low_le
  · rw [hbaseVolume, h.baseVolume, addVolume_min hbase, List.map_append, List.sum_append,
      List.map_singleton, List.sum_singleton]
  · rw [hquoteVolume, h.quoteVolume, addVolume_min hquote, List.map_append, List.sum_append,
      List.map_singleton, List.sum_singleton]

end Candle

/-! ### The fills of an interval -/

section Interval

variable {opts : BucketOptions} {log : List Trade} {t : Trade} {k : BucketKey} {size : Nat}

/-- The key of the bucket that a fill belongs to. -/
def keyOf (t : Trade) (size : Nat) : BucketKey :=
  ⟨t.op.market.1, t.op.market.2, size, t.time / size * size⟩

theorem eq_keyOf_iff (hk : k.seconds = size) : k = keyOf t size ↔
    k.market = t.op.market ∧ t.time / k.seconds * k.seconds = k.openTime := by
  obtain ⟨base, quote, seconds, openTime⟩ := k
  obtain rfl : seconds = size := hk
  simp only [keyOf, BucketKey.mk.injEq, BucketKey.market, Prod.ext_iff, true_and]
  grind

theorem fillsOf_append (hmaker : t.op.isMaker = true) (hk : k.seconds = size) :
    fillsOf (log ++ [t]) k =
      if k = keyOf t size then fillsOf log k ++ [t.op] else fillsOf log k := by
  have hiff : (t.Counts k.market ∧ t.time / k.seconds * k.seconds = k.openTime) ↔
      k = keyOf t size := by
    rw [eq_keyOf_iff hk]
    unfold Trade.Counts
    grind
  unfold fillsOf
  rw [List.filter_append, List.map_append]
  split <;> rename_i h
  · rw [List.filter_cons_of_pos (by simpa using hiff.mpr h), List.filter_nil, List.map_singleton]
  · rw [List.filter_cons_of_neg (by simpa using fun h1 h2 => h (hiff.mp ⟨h1, h2⟩)),
      List.filter_nil, List.map_nil, List.append_nil]

theorem fillsOf_append_taker (htaker : t.op.isMaker = false) (k : BucketKey) :
    fillsOf (log ++ [t]) k = fillsOf log k := by
  have hnot : ¬t.Counts k.market := fun h => by simp [Trade.Counts, htaker] at h
  unfold fillsOf
  rw [List.filter_append, List.filter_cons_of_neg (by simp [hnot]), List.filter_nil,
    List.append_nil]

theorem mem_fillsOf {o : Fill} (h : o ∈ fillsOf log k) :
    ∃ t ∈ log, t.op = o ∧ t.Counts k.market := by
  obtain ⟨t, ht, rfl⟩ := List.mem_map.mp h
  obtain ⟨ht, hcond⟩ := List.mem_filter.mp ht
  exact ⟨t, ht, rfl, (of_decide_eq_true hcond).1⟩

theorem cutoffOf_mono {time time' : Nat} (h : time ≤ time') :
    cutoffOf opts size time ≤ cutoffOf opts size time' :=
  Nat.mul_le_mul_right _ (Nat.sub_le_sub_right (Nat.div_le_div_right h) _)

theorem cutoffOf_le_keyOf (t : Trade) (size : Nat) :
    cutoffOf opts size t.time ≤ (keyOf t size).openTime :=
  Nat.mul_le_mul_right _ (Nat.sub_le _ _)

end Interval

/-! ### The buckets of one size -/

/-- The buckets of a size are the candles of the intervals that no fill of their market came too
late for. -/
structure Candles (opts : BucketOptions) (size : Nat) (log : List Trade) (s : BucketStore) :
    Prop where
  candle : ∀ b ∈ s.buckets, b.key.seconds = size → IsCandle (fillsOf log b.key) b
  stored : ∀ k : BucketKey, k.seconds = size → ((∃ b ∈ s.buckets, b.key = k) ↔
    fillsOf log k ≠ [] ∧ ∀ t ∈ log, t.Counts k.market → cutoffOf opts size t.time ≤ k.openTime)

section Size

variable {opts : BucketOptions} {log : List Trade} {t : Trade} {size : Nat} {s : BucketStore}

theorem recordBucket_eq (opts : BucketOptions) (t : Trade) (s : BucketStore) (size : Nat) :
    recordBucket opts.maxHistory t.time t.op s size =
      (s.addFill (keyOf t size) t.op).expire (keyOf t size) (cutoffOf opts size t.time) := by
  have hcutoff : (if opts.maxHistory < t.time / size then
      size * (t.time / size - opts.maxHistory) else 0) = cutoffOf opts size t.time := by
    unfold cutoffOf
    split
    · rw [Nat.mul_comm]
    · rw [Nat.sub_eq_zero_of_le (by omega), Nat.zero_mul]
  unfold recordBucket
  simp only [hcutoff]
  rfl

theorem Shelved.recordBucket (h : Shelved s) (opts : BucketOptions) (t : Trade) (size : Nat) :
    Shelved (recordBucket opts.maxHistory t.time t.op s size) := by
  rw [recordBucket_eq]
  exact (h.addFill _ _).expire _ _

theorem mem_recordBucket_other (h : Shelved s) {b : Bucket} (hb : b.key.seconds ≠ size) :
    b ∈ (recordBucket opts.maxHistory t.time t.op s size).buckets ↔ b ∈ s.buckets := by
  rw [recordBucket_eq, (h.addFill _ _).mem_expire, h.mem_addFill]
  have hne : b.key ≠ keyOf t size := fun heq => hb (congrArg BucketKey.seconds heq)
  constructor
  · rintro ⟨⟨hb', -⟩ | ⟨b', -, hkey, rfl⟩ | ⟨-, rfl⟩, -⟩
    · exact hb'
    · rw [update_key] at hne
      exact absurd hkey hne
    · exact absurd rfl hne
  · exact fun hb' => ⟨Or.inl ⟨hb', hne⟩, fun hold => hb hold.2.1⟩

theorem mem_recordBucket (h : Shelved s) {b : Bucket} :
    b ∈ (recordBucket opts.maxHistory t.time t.op s size).buckets ↔
      (b ∈ s.buckets ∧ b.key ≠ keyOf t size ∨
        (∃ b' ∈ s.buckets, b'.key = keyOf t size ∧ b = b'.update t.op) ∨
        (∀ b' ∈ s.buckets, b'.key ≠ keyOf t size) ∧
          b = Bucket.ofFill s.nextId (keyOf t size) t.op) ∧
      ¬(b.key.market = t.op.market ∧ b.key.seconds = size ∧
        b.key.openTime < cutoffOf opts size t.time) := by
  rw [recordBucket_eq, (h.addFill _ _).mem_expire, h.mem_addFill]
  exact Iff.rfl

theorem Candles.recordBucket (c : Candles opts size log s) (h : Shelved s)
    (hmaker : t.op.isMaker = true) (htimes : ∀ t' ∈ log, t'.time ≤ t.time)
    (hproper : ∀ t' ∈ log, t'.op.isMaker = true → t'.op.Proper) (ht : t.op.Proper) :
    Candles opts size (log ++ [t]) (recordBucket opts.maxHistory t.time t.op s size) := by
  have hstored := c.stored (keyOf t size) rfl
  have hkept : ∀ t' ∈ log, cutoffOf opts size t'.time ≤ (keyOf t size).openTime := fun t' ht' =>
    Nat.le_trans (cutoffOf_mono (htimes t' ht')) (cutoffOf_le_keyOf t size)
  refine ⟨fun b hb hsize => ?_, fun k hk => ?_⟩
  · rw [fillsOf_append hmaker hsize]
    rcases ((mem_recordBucket h).mp hb).1 with ⟨hb, hne⟩ | ⟨b', hb', hkey, rfl⟩ | ⟨hnone, rfl⟩
    · rw [if_neg hne]
      exact c.candle b hb hsize
    · rw [update_key, if_pos hkey]
      refine (c.candle b' hb' (congrArg BucketKey.seconds hkey)).update (fun o ho => ?_) ht
        (congrArg BucketKey.market hkey)
      obtain ⟨t', ht', rfl, hcounts⟩ := mem_fillsOf ho
      exact ⟨hproper t' ht' hcounts.1, hcounts.2⟩
    · have hempty : fillsOf log (keyOf t size) = [] := by
        by_contra hne
        obtain ⟨b', hb', hkey⟩ := hstored.mpr ⟨hne, fun t' ht' _ => hkept t' ht'⟩
        exact hnone b' hb' hkey
      have heq : (Bucket.ofFill s.nextId (keyOf t size) t.op).key = keyOf t size := rfl
      rw [heq, if_pos rfl, hempty]
      exact IsCandle.ofFill ht rfl _
  · have hall : (∀ t' ∈ log ++ [t], t'.Counts k.market → cutoffOf opts size t'.time ≤ k.openTime) ↔
        (∀ t' ∈ log, t'.Counts k.market → cutoffOf opts size t'.time ≤ k.openTime) ∧
          (k.market = t.op.market → cutoffOf opts size t.time ≤ k.openTime) := by
      simp only [List.mem_append, List.mem_singleton, or_imp, forall_and, forall_eq, Trade.Counts,
        hmaker, true_and]
      exact and_congr_right fun _ => ⟨fun h hm => h hm.symm, fun h hm => h hm.symm⟩
    rw [hall, fillsOf_append hmaker hk]
    split
    · -- the interval of the fill
      rename_i heq
      subst heq
      constructor
      · rintro -
        exact ⟨by simp, fun t' ht' _ => hkept t' ht', fun _ => cutoffOf_le_keyOf t size⟩
      · rintro -
        have hnot : ∀ b : Bucket, b.key = keyOf t size → ¬(b.key.market = t.op.market ∧
            b.key.seconds = size ∧ b.key.openTime < cutoffOf opts size t.time) := by
          rintro b hb ⟨-, -, hlt⟩
          rw [hb] at hlt
          exact absurd (cutoffOf_le_keyOf t size) (Nat.not_le_of_lt hlt)
        by_cases hex : ∃ b ∈ s.buckets, b.key = keyOf t size
        · obtain ⟨b, hb, hkey⟩ := hex
          refine ⟨b.update t.op, (mem_recordBucket h).mpr ⟨Or.inr (Or.inl ⟨b, hb, hkey, rfl⟩), ?_⟩,
            (update_key _ _).trans hkey⟩
          exact hnot _ ((update_key _ _).trans hkey)
        · refine ⟨Bucket.ofFill s.nextId (keyOf t size) t.op, (mem_recordBucket h).mpr
            ⟨Or.inr (Or.inr ⟨fun b hb hkey => hex ⟨b, hb, hkey⟩, rfl⟩), ?_⟩, rfl⟩
          exact hnot _ rfl
    · -- another interval
      rename_i hne
      rw [← and_assoc, ← c.stored k hk]
      constructor
      · rintro ⟨b, hb, rfl⟩
        obtain ⟨⟨hb, -⟩ | ⟨b', -, hkey, rfl⟩ | ⟨-, rfl⟩, hnot⟩ := (mem_recordBucket h).mp hb
        · refine ⟨⟨b, hb, rfl⟩, fun hm => ?_⟩
          exact Nat.le_of_not_lt fun hlt => hnot ⟨hm, hk, hlt⟩
        · exact absurd ((update_key _ _).trans hkey) hne
        · exact absurd rfl hne
      · rintro ⟨⟨b, hb, rfl⟩, hcut⟩
        refine ⟨b, (mem_recordBucket h).mpr ⟨Or.inl ⟨hb, hne⟩, ?_⟩, rfl⟩
        rintro ⟨hm, -, hlt⟩
        exact absurd (hcut hm) (Nat.not_le_of_lt hlt)

theorem Candles.congr {s' : BucketStore} (c : Candles opts size log s)
    (h : ∀ b : Bucket, b.key.seconds = size → (b ∈ s'.buckets ↔ b ∈ s.buckets)) :
    Candles opts size log s' := by
  refine ⟨fun b hb hsize => c.candle b ((h b hsize).mp hb) hsize, fun k hk => ?_⟩
  rw [← c.stored k hk]
  constructor
  · rintro ⟨b, hb, rfl⟩
    exact ⟨b, (h b hk).mp hb, rfl⟩
  · rintro ⟨b, hb, rfl⟩
    exact ⟨b, (h b hk).mpr hb, rfl⟩

theorem Candles.taker (c : Candles opts size log s) (htaker : t.op.isMaker = false) :
    Candles opts size (log ++ [t]) s := by
  refine ⟨fun b hb hsize => ?_, fun k hk => ?_⟩
  · rw [fillsOf_append_taker htaker]
    exact c.candle b hb hsize
  · have hnot : ¬t.Counts k.market := fun h => by simp [Trade.Counts, htaker] at h
    rw [c.stored k hk, fillsOf_append_taker htaker]
    refine and_congr_right fun _ => ⟨fun h t' ht' hcounts => ?_, fun h t' ht' => h t' ?_⟩
    · rcases List.mem_append.mp ht' with hold | hnew
      · exact h t' hold hcounts
      · rw [List.mem_singleton.mp hnew] at hcounts
        exact absurd hcounts hnot
    · exact List.mem_append_left _ ht'

end Size

/-! ### A run -/

/-- The buckets are the candles of the tracked sizes. -/
structure Recorded (opts : BucketOptions) (log : List Trade) (s : BucketStore) : Prop
    extends Shelved s where
  tracked : ∀ b ∈ s.buckets, b.key.seconds ∈ opts.trackedBuckets
  candles : ∀ size ∈ opts.trackedBuckets, Candles opts size log s

section Run

variable {opts : BucketOptions} {log : List Trade} {t : Trade} {s : BucketStore}

theorem recorded_empty (opts : BucketOptions) : Recorded opts [] .empty where
  toShelved := shelved_empty
  tracked := fun _ hb => absurd hb List.not_mem_nil
  candles := fun _ _ =>
    { candle := fun _ hb => absurd hb List.not_mem_nil
      stored := fun _ _ => ⟨fun ⟨_, hb, _⟩ => absurd hb List.not_mem_nil, fun h => absurd rfl h.1⟩ }

theorem foldl_recordBucket (opts : BucketOptions) {sizes : List Nat} (hsizes : sizes.Nodup)
    (h : Shelved s)
    (hmaker : t.op.isMaker = true) (htimes : ∀ t' ∈ log, t'.time ≤ t.time)
    (hproper : ∀ t' ∈ log, t'.op.isMaker = true → t'.op.Proper) (ht : t.op.Proper) :
    Shelved (sizes.foldl (recordBucket opts.maxHistory t.time t.op) s) ∧
      (∀ size ∈ sizes, Candles opts size log s → Candles opts size (log ++ [t])
        (sizes.foldl (recordBucket opts.maxHistory t.time t.op) s)) ∧
      ∀ b : Bucket, b.key.seconds ∉ sizes →
        (b ∈ (sizes.foldl (recordBucket opts.maxHistory t.time t.op) s).buckets ↔
          b ∈ s.buckets) := by
  induction sizes generalizing s with
  | nil => exact ⟨h, fun size hsize => absurd hsize List.not_mem_nil, fun b _ => Iff.rfl⟩
  | cons size sizes ih =>
    obtain ⟨hnot, hsizes⟩ := List.nodup_cons.mp hsizes
    obtain ⟨hshelved, hturned, hother⟩ := ih hsizes (h.recordBucket opts t size)
    rw [List.foldl_cons]
    refine ⟨hshelved, fun size' hsize' c => ?_, fun b hb => ?_⟩
    · rcases List.mem_cons.mp hsize' with rfl | hlater
      · -- the sizes that follow leave its buckets
        exact (c.recordBucket h hmaker htimes hproper ht).congr fun b hb =>
          hother b fun hmem => hnot (hb ▸ hmem)
      · have hne : size' ≠ size := fun heq => hnot (heq ▸ hlater)
        exact hturned size' hlater (c.congr fun b hb =>
          mem_recordBucket_other h fun heq => hne (hb.symm.trans heq))
    · obtain ⟨hne, hb⟩ := not_or.mp (List.mem_cons.not.mp hb)
      rw [hother b hb, mem_recordBucket_other h hne]

theorem Recorded.fill (r : Recorded opts log s) (hhistory : 0 < opts.maxHistory)
    (htimes : ∀ t' ∈ log, t'.time ≤ t.time)
    (hproper : ∀ t' ∈ log ++ [t], t'.op.isMaker = true → t'.op.Proper) :
    Recorded opts (log ++ [t]) (updateBuckets opts t.time s t.op) := by
  unfold updateBuckets
  cases hmaker : t.op.isMaker with
  | false =>
    rw [if_pos rfl]
    exact ⟨r.toShelved, r.tracked, fun size hsize => (r.candles size hsize).taker hmaker⟩
  | true =>
    rw [if_neg (by simp), if_neg (Nat.ne_of_gt hhistory)]
    obtain ⟨hshelved, hturned, hother⟩ := foldl_recordBucket opts opts.nodup r.toShelved hmaker
      htimes (fun t' ht' => hproper t' (List.mem_append_left _ ht')) (hproper t (by simp) hmaker)
    refine ⟨hshelved, fun b hb => ?_, fun size hsize => hturned size hsize (r.candles size hsize)⟩
    by_contra hnot
    exact hnot (r.tracked b ((hother b hnot).mp hb))

theorem recordBuckets_append (opts : BucketOptions) (log : List Trade) (t : Trade) :
    recordBuckets opts (log ++ [t]) =
      updateBuckets opts t.time (recordBuckets opts log) t.op := by
  rw [recordBuckets, List.foldl_append]
  rfl

theorem Recorded.run (hhistory : 0 < opts.maxHistory)
    (htimes : log.Pairwise fun t t' => t.time ≤ t'.time)
    (hproper : ∀ t ∈ log, t.op.isMaker = true → t.op.Proper) :
    Recorded opts log (recordBuckets opts log) := by
  induction log using List.reverseRecOn with
  | nil => exact recorded_empty opts
  | append_singleton log t ih =>
    obtain ⟨htimes, -, hlast⟩ := List.pairwise_append.mp htimes
    rw [recordBuckets_append]
    exact (ih htimes fun t' ht' => hproper t' (List.mem_append_left _ ht')).fill hhistory
      (fun t' ht' => hlast t' ht' t (List.mem_singleton_self t)) hproper

theorem Recorded.candlesAfter (r : Recorded opts (log ++ [t]) (recordBuckets opts (log ++ [t])))
    (htimes : ∀ t' ∈ log, t'.time ≤ t.time) : CandlesAfter opts log t := by
  refine ⟨fun b hb => ?_, r.keys, fun hmaker b hb hm => ?_, fun hmaker k hm hsize hcut hne => ?_⟩
  · have htracked := r.tracked b hb
    exact ⟨htracked, (r.candles _ htracked).candle b hb rfl⟩
  · have hstored := ((r.candles _ (r.tracked b hb)).stored b.key rfl).mp ⟨b, hb, rfl⟩
    exact hstored.2 t (by simp) ⟨hmaker, hm.symm⟩
  · refine ((r.candles _ hsize).stored k rfl).mpr ⟨hne, fun t' ht' _ => ?_⟩
    rcases List.mem_append.mp ht' with hold | hnew
    · exact Nat.le_trans (cutoffOf_mono (htimes t' hold)) hcut
    · rw [List.mem_singleton.mp hnew]
      exact hcut

theorem recordBuckets_none (hhistory : opts.maxHistory = 0) (log : List Trade) :
    recordBuckets opts log = .empty := by
  induction log using List.reverseRecOn with
  | nil => rfl
  | append_singleton log t ih =>
    rw [recordBuckets_append, ih]
    unfold updateBuckets
    rw [if_pos hhistory, ite_self]

end Run

/-- With a history of at least one bucket, every fill of a run leaves the right candles: each says
what its interval traded, and those that are kept are the ones from the cutoff on.  Without a
history no bucket is kept. -/
theorem candles_right (opts : BucketOptions) {log : List Trade}
    (htimes : log.Pairwise fun t t' => t.time ≤ t'.time)
    (hproper : ∀ t ∈ log, t.op.isMaker = true → t.op.Proper) :
    (0 < opts.maxHistory → ∀ (i : Nat) (h : i < log.length),
      CandlesAfter opts (log.take i) log[i]) ∧
    (opts.maxHistory = 0 → (recordBuckets opts log).buckets = []) := by
  refine ⟨fun hhistory i h => ?_, fun hhistory => by rw [recordBuckets_none hhistory]; rfl⟩
  have hprefix : log.take i ++ [log[i]] = log.take (i + 1) := by simp
  have hsub : (log.take i ++ [log[i]]).Sublist log := hprefix ▸ List.take_sublist _ _
  have htimes := htimes.sublist hsub
  obtain ⟨-, -, hlast⟩ := List.pairwise_append.mp htimes
  have r := Recorded.run hhistory htimes fun t ht => hproper t (hsub.subset ht)
  exact r.candlesAfter fun t' ht' => hlast t' ht' _ (List.mem_singleton_self _)

/-- A maker fill that trades an amount of asset 1 for an amount of the core asset. -/
def backFill (amount core : Int) : Fill :=
  { pays := ⟨amount, 1⟩
    receives := ⟨core, 0⟩
    fillPrice := ⟨⟨amount, 1⟩, ⟨core, 0⟩⟩
    isMaker := true
    assets_ne := Nat.one_ne_zero }

/-- Fills in both directions, in two intervals of a minute; one is for nothing. -/
def minuteFills : List Trade :=
  [⟨100, makerFill 7⟩, ⟨110, backFill 5 1⟩, ⟨112, backFill 6 0⟩, ⟨115, makerFill 9⟩,
    ⟨130, backFill 8 1⟩]

theorem candles_right_minutes :
    CandlesAfter (.pluginInitialize [60, 300] 1) (minuteFills.take 4) ⟨130, backFill 8 1⟩ ∧
      (recordBuckets (.pluginInitialize [60, 300] 0) minuteFills).buckets = [] := by
  have htimes : minuteFills.Pairwise fun t t' => t.time ≤ t'.time := by decide
  have hproper : ∀ t ∈ minuteFills, t.op.isMaker = true → t.op.Proper := by
    intro t ht _
    simp only [minuteFills, List.mem_cons, List.not_mem_nil, or_false] at ht
    rcases ht with rfl | rfl | rfl | rfl | rfl
    all_goals exact ⟨by decide, by decide, by decide, by decide, by decide⟩
  exact ⟨(candles_right (.pluginInitialize [60, 300] 1) htimes hproper).1 (by decide) 4 (by decide),
    (candles_right (.pluginInitialize [60, 300] 0) htimes hproper).2 rfl⟩

theorem no_history_no_candles :
    (makerFill 7).Proper ∧ ¬CandlesAfter (.pluginInitialize [60] 0) [] ⟨100, makerFill 7⟩ := by
  refine ⟨⟨by decide, by decide, by decide, by decide, by decide⟩, fun h => ?_⟩
  obtain ⟨b, hb, -⟩ := h.kept rfl ⟨0, 1, 60, 60⟩ rfl (by decide) (by decide) (by decide)
  exact List.not_mem_nil hb

end Nestchain.Plugins
