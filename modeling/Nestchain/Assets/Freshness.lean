import Nestchain.Assets.Backing
import Nestchain.Market.PriceOrder

/-! The current feeds at the end of a block.  A median is computed again when a feed is published,
when the producers or the options change, and when the oldest of the feeds in it expires; two flags
tell when the core exchange rate of the asset has to follow the one of the feed.  Between these
updates the feed of an asset may be behind its publications only when it is expired. -/

namespace Nestchain.Assets

open Lib Registry
open Market (AssetId AccountId Price coreAsset)

/-! ### The updates of a block -/

/-- The core exchange rate of the current feed becomes the one of the asset. -/
def AssetObject.followRate (a : AssetObject) (b : BitassetData) : AssetObject :=
  { a with
    options := if a.options.coreExchangeRate.Same b.currentFeed.coreExchangeRate then a.options
      else { a.options with coreExchangeRate := b.currentFeed.coreExchangeRate }
    bitasset := some { b with assetCerUpdated := false, feedCerUpdated := false } }

/-- `update_expired_feeds` for one asset. -/
def AssetObject.updateExpiredFeed (now : Nat) (a : AssetObject) : AssetObject :=
  match a.bitasset with
  | some b =>
    if b.FeedIsExpired now then
      if (b.updateMedianFeeds now).needToUpdateCer then a.followRate (b.updateMedianFeeds now)
      else { a with bitasset := some (b.updateMedianFeeds now) }
    else a
  | none => a

/-- `update_core_exchange_rates` for one asset. -/
def AssetObject.updateCoreExchangeRate (a : AssetObject) : AssetObject :=
  match a.bitasset with
  | some b => if b.needToUpdateCer then a.followRate b else a
  | none => a

/-- The purge of `process_bitassets`: the expired feeds of an asset that witnesses or the committee
feed. -/
def AssetObject.purgeFeeds (now : Nat) (a : AssetObject) : AssetObject :=
  { a with
    bitasset := a.bitasset.map fun b =>
      if anySet a.options.flags (witnessFedFlag ||| committeeFedFlag) ∧
          b.options.feedLifetimeSec < now then
        { b with feeds := b.feeds.filter fun f => ¬f.time < now - b.options.feedLifetimeSec }
      else b }

namespace Registry

def updateExpiredFeeds (R : Registry) : Registry :=
  { R with assets := R.assets.map (AssetObject.updateExpiredFeed R.headBlockTime) }

def updateCoreExchangeRates (R : Registry) : Registry :=
  { R with assets := R.assets.map AssetObject.updateCoreExchangeRate }

def processBitassets (R : Registry) : Registry :=
  { R with assets := R.assets.map (AssetObject.purgeFeeds R.headBlockTime) }

end Registry

/-- What the market does to an asset: the supply changes, and a global settlement or a revival. -/
structure AssetObject.Traded (a a' : AssetObject) : Prop where
  options : a'.options = a.options
  bitasset : ∃ p, a'.bitasset = a.bitasset.map fun b => { b with settlementPrice := p }

/-- What happens elsewhere: the market trades, and accounts, feeders and parameters change. -/
structure Registry.Elsewhere (R R' : Registry) : Prop where
  time : R'.headBlockTime = R.headBlockTime
  assets : ∀ id a', R'.assets.find id = some a' → ∃ a, R.assets.find id = some a ∧ a.Traded a'

/-- What happens between the updates of a block. -/
inductive Activity (R : Registry) : Registry → Prop
  | operation (op : Operation) {R' : Registry} : op.apply R = .ok R' → Activity R R'
  | elsewhere {R' : Registry} : R.Elsewhere R' → Activity R R'

/-- A block: its transactions run at the old head time; then the head time is that of the block,
there may be a maintenance with a purge, and proposals may be executed; then the feeds and the core
exchange rates are updated, with margin calls in between. -/
inductive Block (R : Registry) : Registry → Prop
  | applied {R₁ R₂ R₃ R₄ : Registry} {time : Nat} (maintenance : Bool) :
    Relation.ReflTransGen Activity R R₁ → R₁.headBlockTime ≤ time →
    R₂ = (if maintenance then processBitassets { R₁ with headBlockTime := time }
      else { R₁ with headBlockTime := time }) →
    Relation.ReflTransGen Activity R₂ R₃ → R₃.updateExpiredFeeds.Elsewhere R₄ →
    Block R R₄.updateCoreExchangeRates

/-! ### The current feed -/

namespace BitassetData

abbrev TooFew (b : BitassetData) (now : Nat) : Prop :=
  (b.liveFeeds now).length < b.options.minimumFeeds

/-- The median of the feeds that are alive at a time, or the null feed when there are too few. -/
def feedAt (b : BitassetData) (now : Nat) : PriceFeed :=
  if b.TooFew now then PriceFeed.default
  else medianFeed ((b.liveFeeds now).map PublishedFeed.feed)

/-- The feed is expired, or it is that of the time and no older than the feeds in it. -/
def Current (b : BitassetData) (now : Nat) : Prop :=
  b.FeedIsExpired now ∨ b.currentFeed = b.feedAt now ∧
    (b.TooFew now ∨ ∀ f ∈ b.liveFeeds now, b.currentFeedPublicationTime ≤ f.time)

variable {b b' : BitassetData} {now time : Nat}

theorem liveFeeds_congr (hfeeds : b'.feeds = b.feeds)
    (hlifetime : b'.options.feedLifetimeSec = b.options.feedLifetimeSec) (now : Nat) :
    b'.liveFeeds now = b.liveFeeds now := by
  rw [liveFeeds, hfeeds, hlifetime, liveFeeds]

theorem updateMedianFeeds_feeds (b : BitassetData) (now : Nat) :
    (b.updateMedianFeeds now).feeds = b.feeds := by
  simp only [updateMedianFeeds]
  split <;> rfl

theorem updateMedianFeeds_liveFeeds (b : BitassetData) (now time : Nat) :
    (b.updateMedianFeeds now).liveFeeds time = b.liveFeeds time :=
  liveFeeds_congr (b.updateMedianFeeds_feeds now) (by rw [updateMedianFeeds_options]) time

theorem updateMedianFeeds_tooFew (b : BitassetData) (now time : Nat) :
    (b.updateMedianFeeds now).TooFew time ↔ b.TooFew time := by
  rw [TooFew, updateMedianFeeds_liveFeeds, updateMedianFeeds_options, TooFew]

theorem updateMedianFeeds_feedAt (b : BitassetData) (now time : Nat) :
    (b.updateMedianFeeds now).feedAt time = b.feedAt time := by
  simp only [feedAt, updateMedianFeeds_tooFew, updateMedianFeeds_liveFeeds]

theorem updateMedianFeeds_currentFeed (b : BitassetData) (now : Nat) :
    (b.updateMedianFeeds now).currentFeed = b.feedAt now := by
  simp only [updateMedianFeeds, feedAt]
  split <;> rfl

theorem foldl_min_le {feeds : List PublishedFeed} : ∀ {start : Nat},
    (feeds.foldl (fun time f => min time f.time) start ≤ start) ∧
      ∀ f ∈ feeds, feeds.foldl (fun time f => min time f.time) start ≤ f.time := by
  induction feeds with
  | nil => exact fun {start} => ⟨le_refl start, fun f hf => nomatch hf⟩
  | cons g feeds ih =>
    intro start
    obtain ⟨hstart, hall⟩ := @ih (min start g.time)
    refine ⟨hstart.trans (min_le_left _ _), fun f hf => ?_⟩
    rcases List.mem_cons.mp hf with rfl | hf
    · exact hstart.trans (min_le_right _ _)
    · exact hall f hf

theorem updateMedianFeeds_current (b : BitassetData) (now : Nat) :
    (b.updateMedianFeeds now).Current now := by
  refine Or.inr ⟨?_, ?_⟩
  · rw [updateMedianFeeds_currentFeed, updateMedianFeeds_feedAt]
  · rw [updateMedianFeeds_tooFew, updateMedianFeeds_liveFeeds]
    by_cases hfew : b.TooFew now
    · exact Or.inl hfew
    · right
      have htime : (b.updateMedianFeeds now).currentFeedPublicationTime =
          (b.liveFeeds now).foldl (fun time f => min time f.time) now := by
        simp only [updateMedianFeeds, if_neg hfew]
      rw [htime]
      exact foldl_min_le.2

theorem lt_of_not_expired (h : ¬b.FeedIsExpired now) :
    now < b.currentFeedPublicationTime + b.options.feedLifetimeSec := by
  unfold FeedIsExpired feedExpirationTime at h
  split at h <;> omega

theorem Current.later (h : b.Current now) (hle : now ≤ time) : b.Current time := by
  by_cases hexpired : b.FeedIsExpired time
  · exact Or.inl hexpired
  rcases h with h | ⟨hfeed, hage⟩
  · exact absurd (le_trans h hle) hexpired
  have hstill : ∀ f : PublishedFeed, (time : Int) - f.time < b.options.feedLifetimeSec ∧
    f.time ≠ 0 →
      (now : Int) - f.time < b.options.feedLifetimeSec ∧ f.time ≠ 0 :=
    fun f hf => ⟨by omega, hf.2⟩
  by_cases hfew : b.TooFew now
  · -- no feed comes back to life
    have hfew' : b.TooFew time := by
      refine lt_of_le_of_lt (List.Sublist.length_le ?_) hfew
      exact List.monotone_filter_right b.feeds fun f hf =>
        decide_eq_true (hstill f (of_decide_eq_true hf))
    refine Or.inr ⟨?_, Or.inl hfew'⟩
    rw [hfeed, feedAt, if_pos hfew, feedAt, if_pos hfew']
  · -- none of the feeds in it dies before it expires
    have hage := hage.resolve_left hfew
    have hlive : b.liveFeeds time = b.liveFeeds now := by
      refine List.filter_congr fun f hf => ?_
      rw [decide_eq_decide]
      refine ⟨hstill f, fun hnow => ⟨?_, hnow.2⟩⟩
      have hold := hage f (List.mem_filter.mpr ⟨hf, decide_eq_true hnow⟩)
      have := lt_of_not_expired hexpired
      omega
    refine Or.inr ⟨?_, Or.inr ?_⟩
    · simp only [hfeed, feedAt, TooFew, hlive]
    · rwa [hlive]

end BitassetData

/-! ### The medians -/

/-- In the middle of values: one of them, with at most half of the values before it, and fewer than
half after it. -/
structure MedianOf {α : Type} (before : α → α → Prop) [DecidableRel before] (values : List α)
    (x : α) : Prop where
  mem : x ∈ values
  less : values.countP (fun y => before y x) ≤ values.length / 2
  greater : values.countP (fun y => before x y) ≤ (values.length - 1) / 2

/-- Each field of a feed is in the middle of those of the feeds. -/
structure MedianFeed (feeds : List PriceFeed) (feed : PriceFeed) : Prop where
  settlementPrice : MedianOf (· < ·) (feeds.map fun f => f.settlementPrice) feed.settlementPrice
  maintenanceCollateralRatio : MedianOf (· < ·)
    (feeds.map fun f => f.maintenanceCollateralRatio) feed.maintenanceCollateralRatio
  maximumShortSqueezeRatio : MedianOf (· < ·)
    (feeds.map fun f => f.maximumShortSqueezeRatio) feed.maximumShortSqueezeRatio
  coreExchangeRate : MedianOf (· < ·)
    (feeds.map fun f => f.coreExchangeRate) feed.coreExchangeRate

theorem PriceFeed.median_medianOf {κ : Type} [LinearOrder κ] (before : PriceFeed → PriceFeed → Prop)
    [DecidableRel before] (key : PriceFeed → κ) {feeds : List PriceFeed}
    (hkey : ∀ f ∈ feeds, ∀ g ∈ feeds, (before f g ↔ key f < key g)) (h : feeds ≠ []) :
    MedianOf before feeds (PriceFeed.median before feeds) := by
  have hrel : ∀ f ∈ feeds, ∀ g ∈ feeds, (¬before g f ↔ key f ≤ key g) := by
    intro f hf g hg
    rw [hkey g hg f hf, not_lt]
  have hsorted := List.pairwise_insertionSort (· ≤ ·) (feeds.map key)
  rw [← List.map_insertionSort _ _ _ _ hrel, List.pairwise_map] at hsorted
  have hperm := List.perm_insertionSort (fun f g => ¬before g f) feeds
  have hlength := hperm.length_eq
  set sorted := feeds.insertionSort fun f g => ¬before g f with hsortedDef
  have hpos := List.length_pos_iff.mpr h
  have hlt : feeds.length / 2 < sorted.length := by omega
  have hmedian : PriceFeed.median before feeds = sorted[feeds.length / 2] := by
    rw [PriceFeed.median, ← hsortedDef, List.getElem?_eq_getElem hlt, Option.getD_some]
  have hmem : ∀ f ∈ sorted, f ∈ feeds := fun f hf => hperm.subset hf
  have hmid := hmem _ (List.getElem_mem hlt)
  have hle : ∀ (i j : Nat) (hi : i < sorted.length) (hj : j < sorted.length), i ≤ j →
      key sorted[i] ≤ key sorted[j] := by
    intro i j hi hj hij
    rcases Nat.lt_or_eq_of_le hij with hij | rfl
    · exact List.pairwise_iff_getElem.mp hsorted i j hi hj hij
    · exact le_rfl
  have hparts : ∀ (p : PriceFeed → Bool) (k : Nat),
      feeds.countP p = (sorted.take k).countP p + (sorted.drop k).countP p := by
    intro p k
    rw [← List.countP_append, List.take_append_drop, hperm.countP_eq]
  rw [hmedian]
  refine ⟨hmid, ?_, ?_⟩
  · -- from the middle on none is before it
    have hnone : (sorted.drop (feeds.length / 2)).countP
        (fun f => before f sorted[feeds.length / 2]) = 0 := by
      refine List.countP_eq_zero.mpr fun f hf => ?_
      obtain ⟨i, hi, rfl⟩ := List.mem_iff_getElem.mp hf
      rw [List.length_drop] at hi
      rw [List.getElem_drop, decide_eq_true_eq, hrel _ hmid _ (hmem _ (List.getElem_mem _))]
      exact hle _ _ hlt _ (Nat.le_add_right _ _)
    rw [hparts _ (feeds.length / 2), hnone, add_zero]
    exact List.countP_le_length.trans (List.length_take_le _ _)
  · -- up to the middle none is after it
    have hnone : (sorted.take (feeds.length / 2 + 1)).countP
        (fun f => before sorted[feeds.length / 2] f) = 0 := by
      refine List.countP_eq_zero.mpr fun f hf => ?_
      obtain ⟨i, hi, rfl⟩ := List.mem_iff_getElem.mp hf
      rw [List.length_take] at hi
      rw [List.getElem_take, decide_eq_true_eq, hrel _ (hmem _ (List.getElem_mem _)) _ hmid]
      exact hle _ _ _ hlt (by omega)
    rw [hparts _ (feeds.length / 2 + 1), hnone, zero_add]
    refine List.countP_le_length.trans ?_
    rw [List.length_drop, hlength]
    omega

theorem PriceFeed.median_field {α κ : Type} [LinearOrder κ] (before : α → α → Prop)
    [DecidableRel before] (field : PriceFeed → α) (key : α → κ) {feeds : List PriceFeed}
    (hkey : ∀ f ∈ feeds, ∀ g ∈ feeds,
      (before (field f) (field g) ↔ key (field f) < key (field g))) (h : feeds ≠ []) :
    MedianOf before (feeds.map field)
      (field (PriceFeed.median (fun f g => before (field f) (field g)) feeds)) := by
  have hmedian := PriceFeed.median_medianOf _ (fun f => key (field f)) hkey h
  refine ⟨List.mem_map_of_mem hmedian.mem, ?_, ?_⟩
  · rw [List.countP_map, List.length_map]
    exact hmedian.less
  · rw [List.countP_map, List.length_map]
    exact hmedian.greater

/-- A price of a feed: the null price, or one with a positive amount whose base is not the core
asset. -/
def Price.Comparable (p : Price) : Prop :=
  p = Market.Price.null ∨ 0 < p.quote.amount ∧ p.base.assetId ≠ coreAsset

theorem Price.Comparable.lt_iff_key {p q : Price} (hp : Price.Comparable p)
    (hq : Price.Comparable q) : p < q ↔ p.key < q.key := by
  have hlt : ∀ x y : Price, x.base.assetId < y.base.assetId → x < y ∧ x.key < y.key :=
    fun x y h => ⟨Or.inl h, Prod.Lex.toLex_lt_toLex.mpr (Or.inl h)⟩
  rcases hp with rfl | ⟨hp, hpcore⟩
  · rcases hq with rfl | ⟨-, hqcore⟩
    · exact iff_of_false (by decide) (lt_irrefl _)
    · obtain ⟨hless, hkey⟩ := hlt Market.Price.null q (Nat.pos_of_ne_zero hqcore)
      exact iff_of_true hless hkey
  · rcases hq with rfl | ⟨hq, -⟩
    · obtain ⟨hless, hkey⟩ := hlt Market.Price.null p (Nat.pos_of_ne_zero hpcore)
      refine iff_of_false ?_ (lt_asymm hkey)
      rintro (h | ⟨h, -⟩)
      · exact Nat.not_lt_zero _ h
      · exact hpcore h
    · exact Market.Price.lt_iff_key hp hq

theorem medianFeed_median {feeds : List PriceFeed} (h : feeds ≠ [])
    (hprice : ∀ f ∈ feeds, Price.Comparable f.settlementPrice)
    (hrate : ∀ f ∈ feeds, 0 < f.coreExchangeRate.quote.amount) :
    MedianFeed feeds (medianFeed feeds) where
  settlementPrice := PriceFeed.median_field (· < ·) (fun f => f.settlementPrice) Market.Price.key
    (fun f hf g hg => (hprice f hf).lt_iff_key (hprice g hg)) h
  maintenanceCollateralRatio := PriceFeed.median_field (· < ·)
    (fun f => f.maintenanceCollateralRatio) id (fun _ _ _ _ => Iff.rfl) h
  maximumShortSqueezeRatio := PriceFeed.median_field (· < ·)
    (fun f => f.maximumShortSqueezeRatio) id (fun _ _ _ _ => Iff.rfl) h
  coreExchangeRate := PriceFeed.median_field (· < ·) (fun f => f.coreExchangeRate)
    Market.Price.key (fun f hf g hg => Market.Price.lt_iff_key (hrate f hf) (hrate g hg)) h
/-! ### The core exchange rate -/

/-- A rate between an asset and the core asset. -/
structure IsRate (p : Price) : Prop where
  base_pos : 0 < p.base.amount
  quote_pos : 0 < p.quote.amount
  base_ne : p.base.assetId ≠ coreAsset
  quote_asset : p.quote.assetId = coreAsset

/-- A feed as it is published, and also one that lost its price to another backing asset. -/
structure PriceFeed.Usable (f : PriceFeed) : Prop where
  rate : IsRate f.coreExchangeRate
  price : Price.Comparable f.settlementPrice

/-- The core exchange rate of an asset is that of the current feed, or a flag says that it has to be
updated. -/
structure BitassetData.Rated (b : BitassetData) (rate : Price) : Prop where
  published : ∀ f ∈ b.feeds, f.time ≠ 0 → f.feed.Usable
  current : b.currentFeed.coreExchangeRate.isNull = true ∨ IsRate b.currentFeed.coreExchangeRate
  usable : rate.quote.amount ≠ 0 ∨ rate.base.assetId = coreAsset
  followed : b.currentFeed.coreExchangeRate.isNull = true ∨
    rate.Same b.currentFeed.coreExchangeRate ∨
    b.feedCerUpdated = true ∨ b.assetCerUpdated = true

theorem Price.Same.symm {p q : Price} (h : p.Same q) : q.Same p :=
  ⟨h.1.symm, h.2.1.symm, h.2.2.symm⟩

theorem Price.Same.trans {p q r : Price} (h : p.Same q) (h' : q.Same r) (hq : q.quote.amount ≠ 0) :
    p.Same r := by
  refine ⟨h.1.trans h'.1, h.2.1.trans h'.2.1, mul_left_cancel₀ hq ?_⟩
  calc q.quote.amount * (r.quote.amount * p.base.amount)
      = r.quote.amount * (q.quote.amount * p.base.amount) := by ring
    _ = p.quote.amount * (r.quote.amount * q.base.amount) := by rw [h.2.2]; ring
    _ = q.quote.amount * (p.quote.amount * r.base.amount) := by rw [h'.2.2]; ring

theorem isNull_of_same {p q : Price} (h : p.Same q) (hp : p.isNull = true) : q.isNull = true := by
  simp only [Market.Price.isNull, Bool.and_eq_true, decide_eq_true_eq] at hp ⊢
  exact ⟨h.1.symm.trans hp.1, h.2.1.symm.trans hp.2⟩

theorem PriceFeed.median_mem (before : PriceFeed → PriceFeed → Prop) [DecidableRel before]
    {feeds : List PriceFeed} (h : feeds ≠ []) : PriceFeed.median before feeds ∈ feeds := by
  have hpos := List.length_pos_iff.mpr h
  have hlt : feeds.length / 2 < (feeds.insertionSort fun f g => ¬before g f).length := by
    rw [List.length_insertionSort]
    omega
  rw [median, List.getElem?_eq_getElem hlt, Option.getD_some]
  exact (List.mem_insertionSort _).mp (List.getElem_mem hlt)

namespace BitassetData.Rated

variable {a : AssetObject} {b b' : BitassetData} {rate : Price} {now : Nat}

theorem feedAt_rate (h : ∀ f ∈ b.feeds, f.time ≠ 0 → f.feed.Usable) (now : Nat) :
    (b.feedAt now).coreExchangeRate.isNull = true ∨ IsRate (b.feedAt now).coreExchangeRate := by
  unfold BitassetData.feedAt
  split
  · exact Or.inl rfl
  · rename_i hmany
    right
    have hne : (b.liveFeeds now).map PublishedFeed.feed ≠ [] := by
      intro hnil
      have hlength : (b.liveFeeds now).length = 0 := by
        rw [List.map_eq_nil_iff.mp hnil]
        rfl
      rw [BitassetData.TooFew, hlength] at hmany
      exact hmany b.options.minimum_pos
    obtain ⟨f, hf, he⟩ := List.mem_map.mp (PriceFeed.median_mem
      (fun f g => f.coreExchangeRate < g.coreExchangeRate) hne)
    obtain ⟨hmem, hlive⟩ := List.mem_filter.mp hf
    have hrate := (h f hmem (of_decide_eq_true hlive).2).rate
    rw [he] at hrate
    exact hrate

theorem refeed (h : b.Rated rate)
    (hfeeds : ∀ f ∈ b'.feeds, f.time ≠ 0 → f.feed.Usable)
    (hcurrent : b'.currentFeed = b.currentFeed) (hfeed : b'.feedCerUpdated = b.feedCerUpdated)
    (hasset : b'.assetCerUpdated = b.assetCerUpdated) : b'.Rated rate := by
  refine ⟨hfeeds, ?_, h.usable, ?_⟩
  · rw [hcurrent]
    exact h.current
  · rw [hcurrent, hfeed, hasset]
    exact h.followed

theorem update (h : b.Rated rate) (now : Nat) : (b.updateMedianFeeds now).Rated rate := by
  have hcurrent := b.updateMedianFeeds_currentFeed now
  refine ⟨?_, ?_, h.usable, ?_⟩
  · rw [b.updateMedianFeeds_feeds]
    exact h.published
  · rw [hcurrent]
    exact feedAt_rate h.published now
  · rw [hcurrent]
    by_cases hfew : b.TooFew now
    · left
      rw [BitassetData.feedAt, if_pos hfew]
      rfl
    · have hflag : (b.updateMedianFeeds now).feedCerUpdated = (b.feedCerUpdated ||
          decide (¬b.currentFeed.coreExchangeRate.Same (b.feedAt now).coreExchangeRate)) := by
        simp only [BitassetData.updateMedianFeeds, BitassetData.feedAt, if_neg hfew]
      have hasset : (b.updateMedianFeeds now).assetCerUpdated = b.assetCerUpdated := by
        simp only [BitassetData.updateMedianFeeds, if_neg hfew]
      rw [hflag, hasset]
      by_cases hsame : b.currentFeed.coreExchangeRate.Same (b.feedAt now).coreExchangeRate
      · rcases h.followed with hnull | hfollows | hfeed | hasset
        · exact Or.inl (isNull_of_same hsame hnull)
        · rcases h.current with hnull | hrate
          · exact Or.inl (isNull_of_same hsame hnull)
          · exact Or.inr (Or.inl (Price.Same.trans hfollows hsame (ne_of_gt hrate.quote_pos)))
        · exact Or.inr (Or.inr (Or.inl (by rw [hfeed, Bool.true_or])))
        · exact Or.inr (Or.inr (Or.inr hasset))
      · exact Or.inr (Or.inr (Or.inl (by rw [decide_eq_true hsame, Bool.or_true])))

theorem follow (h : b.Rated a.options.coreExchangeRate) (hneed : b.needToUpdateCer = true) :
    ∃ b', (a.followRate b).bitasset = some b' ∧
      b'.Rated (a.followRate b).options.coreExchangeRate ∧
      (a.followRate b).options.coreExchangeRate.Same b'.currentFeed.coreExchangeRate := by
  have hnull : b.currentFeed.coreExchangeRate.isNull = false := by
    simp only [BitassetData.needToUpdateCer, Bool.and_eq_true, Bool.not_eq_true'] at hneed
    exact hneed.2
  have hrate := h.current.resolve_left (by simp [hnull])
  have hsame : (a.followRate b).options.coreExchangeRate.Same b.currentFeed.coreExchangeRate := by
    simp only [AssetObject.followRate]
    split
    · rename_i hsame
      exact hsame
    · exact ⟨rfl, rfl, rfl⟩
  refine ⟨_, rfl, ⟨h.published, h.current, ?_, Or.inr (Or.inl hsame)⟩, hsame⟩
  simp only [AssetObject.followRate]
  split
  · exact h.usable
  · exact Or.inl (ne_of_gt hrate.quote_pos)

end BitassetData.Rated

/-! ### The operations -/

/-- The market issued assets have a property at the head time. -/
def Registry.Each (R : Registry) (P : Nat → AssetObject → BitassetData → Prop) : Prop :=
  ∀ id a b, R.assets.find id = some a → a.bitasset = some b → P R.headBlockTime a b

/-- What holds between the updates of a block. -/
def Tracked (now : Nat) (a : AssetObject) (b : BitassetData) : Prop :=
  b.Rated a.options.coreExchangeRate ∧ b.Current now

variable {R R' : Registry} {P : Nat → AssetObject → BitassetData → Prop}

theorem Registry.Each.setAsset {id : AssetId} {a a' : AssetObject} (h : R.Each P)
    (ha : R.assets.find id = some a) (h' : ∀ b', a'.bitasset = some b' → P R.headBlockTime a' b') :
    (R.setAsset id a').Each P := by
  intro j c b hc hb
  rcases (Table.find_set_iff ha).mp hc with ⟨-, rfl⟩ | ⟨-, hc⟩
  · exact h' b hb
  · exact h j c b hc hb

theorem Registry.Each.map {Q : Nat → AssetObject → BitassetData → Prop}
    {f : AssetObject → AssetObject}
    (h : R.Each P)
    (hf : ∀ a b', (f a).bitasset = some b' →
      ∃ b, a.bitasset = some b ∧ (P R.headBlockTime a b → Q R.headBlockTime (f a) b')) :
    Registry.Each { R with assets := R.assets.map f } Q := by
  intro id a' b' ha hb
  have ha' : (R.assets.map f).find id = some a' := ha
  rw [Table.find_map, Option.map_eq_some_iff] at ha'
  obtain ⟨a, hfind, rfl⟩ := ha'
  obtain ⟨b, hb', hPQ⟩ := hf a b' hb
  exact hPQ (h id a b hfind hb')

theorem BitassetData.mem_setFeed {b : BitassetData} {f g : PublishedFeed}
    (h : g ∈ (b.setFeed f).feeds) : g = f ∨ g ∈ b.feeds := by
  simp only [setFeed] at h
  split at h
  · obtain ⟨g', hg', rfl⟩ := List.mem_map.mp h
    split
    · exact Or.inl rfl
    · exact Or.inr hg'
  · rcases List.mem_append.mp h with h | h
    · exact Or.inr h
    · exact Or.inl (List.mem_singleton.mp h)

theorem AssetPublishFeed.apply_tracked {op : AssetPublishFeed} (hR : R.Each Tracked)
    (h : op.apply R = .ok R') : R'.Each Tracked := by
  simp only [apply, bitassetOf, doEvaluate, bind_eq_ok, require_eq_ok, exists_const, asset_eq_ok,
    demand_eq_ok, pure_eq_ok] at h
  obtain ⟨hvalid, a, ha, b, hb, ⟨-, -, hquote, -⟩, rfl⟩ := h
  have husable : op.feed.Usable := by
    obtain ⟨-, ⟨-, hprice, -⟩, ⟨hbase, hquotePos, hne⟩, hsame, -⟩ := hvalid
    have hcore : op.feed.coreExchangeRate.base.assetId ≠ coreAsset :=
      fun hcore => hne (hcore.trans hquote.symm)
    exact ⟨⟨hbase, hquotePos, hcore, hquote⟩, Or.inr ⟨hprice, hsame ▸ hcore⟩⟩
  have hrated := (hR _ a b ha hb).1
  refine hR.setAsset ha fun b' hb' => ?_
  obtain rfl := Option.some.inj hb'
  refine ⟨BitassetData.Rated.update ?_ _, BitassetData.updateMedianFeeds_current _ _⟩
  refine hrated.refeed (fun f hf htime => ?_) rfl rfl rfl
  rcases BitassetData.mem_setFeed hf with rfl | hf
  · exact husable
  · exact hrated.published f hf htime

theorem AssetUpdateFeedProducers.apply_tracked {op : AssetUpdateFeedProducers}
    (hR : R.Each Tracked) (h : op.apply R = .ok R') : R'.Each Tracked := by
  simp only [apply, bitassetOf, bind_eq_ok, require_eq_ok, exists_const, asset_eq_ok, demand_eq_ok,
    pure_eq_ok] at h
  obtain ⟨-, -, -, a, ha, b, hb, -, -, -, rfl⟩ := h
  have hrated := (hR _ a b ha hb).1
  refine hR.setAsset ha fun b' hb' => ?_
  obtain rfl := Option.some.inj hb'
  refine ⟨BitassetData.Rated.update ?_ _, BitassetData.updateMedianFeeds_current _ _⟩
  refine hrated.refeed (fun f hf htime => ?_) rfl rfl rfl
  rcases List.mem_append.mp hf with hf | hf
  · exact hrated.published f (List.mem_of_mem_filter hf) htime
  · -- a new producer has not published yet
    obtain ⟨p, -, rfl⟩ := List.mem_map.mp hf
    exact absurd rfl htime

theorem AssetUpdateBitasset.updated_tracked (op : AssetUpdateBitasset) {a : AssetObject}
    {b : BitassetData} {now : Nat} (flags : BitVec 16) (h : Tracked now a b) :
    Tracked now a (op.updated now flags b) := by
  simp only [updated]
  split
  · refine ⟨BitassetData.Rated.update ?_ _, BitassetData.updateMedianFeeds_current _ _⟩
    refine h.1.refeed (fun f hf htime => ?_) rfl rfl rfl
    simp only [BitassetData.resetFeeds] at hf
    split at hf
    · cases hf
    · obtain ⟨g, hg, rfl⟩ := List.mem_map.mp hf
      exact ⟨(h.1.published g hg htime).rate, Or.inl rfl⟩
  · split
    · refine ⟨BitassetData.Rated.update ?_ _, BitassetData.updateMedianFeeds_current _ _⟩
      exact h.1.refeed h.1.published rfl rfl rfl
    · -- the options that the median depends on are as they were
      rename_i hsame
      obtain ⟨hminimum, hlifetime⟩ := not_or.mp hsame
      have hminimum := not_not.mp hminimum
      have hlifetime := not_not.mp hlifetime
      have hcurrent := h.2
      refine ⟨h.1.refeed h.1.published rfl rfl rfl, ?_⟩
      simp only [BitassetData.Current, BitassetData.FeedIsExpired, BitassetData.feedExpirationTime,
        BitassetData.feedAt, BitassetData.TooFew, BitassetData.liveFeeds, hminimum,
        hlifetime] at hcurrent ⊢
      exact hcurrent

theorem AssetUpdate.apply_tracked {op : AssetUpdate} (hR : R.Each Tracked)
    (h : op.apply R = .ok R') : R'.Each Tracked := by
  simp only [apply, bind_eq_ok, require_eq_ok, exists_const, asset_eq_ok, pure_eq_ok] at h
  obtain ⟨hvalid, a, ha, _, -, rfl⟩ := h
  have hrate : op.newOptions.coreExchangeRate.quote.amount ≠ 0 := by
    obtain ⟨-, -, ⟨-, -, -, -, -, -, -, -, hrate, -⟩, -⟩ := hvalid
    exact ne_of_gt hrate.2.1
  refine hR.setAsset ha fun b' hb' => ?_
  simp only [updated] at hb'
  rw [Option.map_eq_some_iff] at hb'
  obtain ⟨b, hb, rfl⟩ := hb'
  obtain ⟨hrated, hcurrent⟩ := hR _ a b ha hb
  split
  · -- the rates are equal, so the new one follows the feed when the old one did
    rename_i hsame
    refine ⟨⟨hrated.published, hrated.current, Or.inl hrate, ?_⟩, hcurrent⟩
    rcases hrated.followed with hnull | hfollows | hflag
    · exact Or.inl hnull
    · rcases hrated.current with hnull | hcurrentRate
      · exact Or.inl hnull
      · have hold := hrated.usable.resolve_right fun hcore =>
          hcurrentRate.base_ne (hfollows.1.symm.trans hcore)
        exact Or.inr (Or.inl (Price.Same.trans (Price.Same.symm hsame) hfollows hold))
    · exact Or.inr (Or.inr hflag)
  · exact ⟨⟨hrated.published, hrated.current, Or.inl hrate, Or.inr (Or.inr (Or.inr rfl))⟩, hcurrent⟩

/-- Bitasset data without feeds, with the null feed. -/
structure AssetObject.Unfed (a : AssetObject) (b : BitassetData) : Prop where
  feeds : b.feeds = []
  currentFeed : b.currentFeed = PriceFeed.default
  options : a.options.coreExchangeRate.quote.amount ≠ 0 ∨
    a.options.coreExchangeRate.base.assetId = coreAsset

theorem AssetObject.Unfed.tracked {a : AssetObject} {b : BitassetData} (h : a.Unfed b) (now : Nat) :
    Tracked now a b := by
  have hfew : b.TooFew now := by
    rw [BitassetData.TooFew, BitassetData.liveFeeds, h.feeds]
    exact b.options.minimum_pos
  refine ⟨⟨fun f hf => ?_, ?_, h.options, ?_⟩, Or.inr ⟨?_, Or.inl hfew⟩⟩
  · rw [h.feeds] at hf
    cases hf
  · rw [h.currentFeed]
    exact Or.inl rfl
  · rw [h.currentFeed]
    exact Or.inl rfl
  · rw [h.currentFeed, BitassetData.feedAt, if_pos hfew]

theorem AssetCreate.apply_tracked {op : AssetCreate} (hR : R.Each Tracked)
    (h : op.apply R = .ok R') : R'.Each Tracked := by
  simp only [apply, bind_eq_ok, require_eq_ok, exists_const, pure_eq_ok] at h
  obtain ⟨hvalid, _, -, rfl⟩ := h
  intro id a b ha hb
  rcases Table.find_create_iff.mp ha with ha | ⟨-, rfl⟩
  · exact hR id a b ha hb
  · simp only [newAsset, Option.map_eq_some_iff] at hb
    obtain ⟨options, -, rfl⟩ := hb
    refine AssetObject.Unfed.tracked ⟨rfl, rfl, ?_⟩ _
    obtain ⟨-, -, ⟨-, -, -, -, -, -, -, -, hrate, -⟩, -⟩ := hvalid
    simp only [newAsset]
    split
    · exact Or.inl (ne_of_gt hrate.2.1)
    · exact Or.inl (ne_of_gt hrate.2.1)

theorem Operation.apply_tracked {op : Operation} (hR : R.Each Tracked) (h : op.apply R = .ok R') :
    R'.Each Tracked := by
  cases op with
  | assetCreate op => exact op.apply_tracked hR h
  | assetUpdate op => exact op.apply_tracked hR h
  | assetUpdateFeedProducers op => exact op.apply_tracked hR h
  | assetPublishFeed op => exact op.apply_tracked hR h
  | assetUpdateIssuer op =>
    simp only [Operation.apply, AssetUpdateIssuer.apply, bind_eq_ok, require_eq_ok, exists_const,
      asset_eq_ok, pure_eq_ok] at h
    obtain ⟨-, a, ha, _, -, -, rfl⟩ := h
    refine hR.setAsset ha fun b hb => ?_
    exact hR _ a b ha hb
  | assetUpdateBitasset op =>
    simp only [Operation.apply, AssetUpdateBitasset.apply, bitassetOf, bind_eq_ok, require_eq_ok,
      exists_const, asset_eq_ok, demand_eq_ok, pure_eq_ok] at h
    obtain ⟨-, a, ha, b, hb, _, -, rfl⟩ := h
    refine hR.setAsset ha fun b' hb' => ?_
    obtain rfl := Option.some.inj hb'
    exact op.updated_tracked a.options.flags (hR _ a b ha hb)

/-! ### Blocks -/

def Computed (now : Nat) (a : AssetObject) (b : BitassetData) : Prop :=
  Tracked now a b ∧ b.currentFeed = b.feedAt now

/-- The current feed is the one that `update_median_feeds` makes of the feeds that are alive: the
null feed when there are too few of them, and otherwise each of its fields is in the middle of
theirs.  The core exchange rate of the asset is that of the feed. -/
structure Fresh (now : Nat) (a : AssetObject) (b : BitassetData) : Prop where
  feed : b.currentFeed = if (b.liveFeeds now).length < b.options.minimumFeeds then PriceFeed.default
    else medianFeed ((b.liveFeeds now).map PublishedFeed.feed)
  median : b.options.minimumFeeds ≤ (b.liveFeeds now).length →
    MedianFeed ((b.liveFeeds now).map PublishedFeed.feed) b.currentFeed
  rate : b.currentFeed.coreExchangeRate.isNull = true ∨
    a.options.coreExchangeRate.Same b.currentFeed.coreExchangeRate

theorem Registry.Elsewhere.each (h : R.Elsewhere R') (hR : R.Each P)
    (hP : ∀ now a a' b p, P now a b → a'.options = a.options →
      P now a' { b with settlementPrice := p }) : R'.Each P := by
  intro id a' b' ha hb
  obtain ⟨a, hfind, hoptions, p, hp⟩ := h.assets id a' ha
  rw [hp, Option.map_eq_some_iff] at hb
  obtain ⟨b, hb, rfl⟩ := hb
  rw [h.time]
  exact hP _ a a' b p (hR id a b hfind hb) hoptions

theorem Tracked.traded {now : Nat} {a a' : AssetObject} {b : BitassetData} {p : Price}
    (h : Tracked now a b) (hoptions : a'.options = a.options) :
    Tracked now a' { b with settlementPrice := p } :=
  ⟨hoptions ▸ h.1.refeed h.1.published rfl rfl rfl, h.2⟩

theorem Activity.tracked (h : Activity R R') (hR : R.Each Tracked) : R'.Each Tracked := by
  cases h with
  | operation op happly => exact op.apply_tracked hR happly
  | elsewhere h => exact h.each hR fun _ _ _ _ _ hP hoptions => hP.traded hoptions

theorem Activity.run_tracked (h : Relation.ReflTransGen Activity R R') (hR : R.Each Tracked) :
    R'.Each Tracked := by
  induction h with
  | refl => exact hR
  | tail _ hstep ih => exact hstep.tracked ih

theorem AssetObject.purgeFeeds_tracked {now : Nat} {a : AssetObject} {b : BitassetData}
    (h : Tracked now a b) {b' : BitassetData} (hb : a.bitasset = some b)
    (hb' : (a.purgeFeeds now).bitasset = some b') : Tracked now (a.purgeFeeds now) b' := by
  simp only [purgeFeeds, hb, Option.map_some] at hb'
  obtain rfl := Option.some.inj hb'
  split
  · rename_i hpurge
    refine ⟨h.1.refeed (fun f hf => h.1.published f (List.mem_of_mem_filter hf)) rfl rfl rfl, ?_⟩
    have hlive : BitassetData.liveFeeds { b with
        feeds := b.feeds.filter fun f => ¬f.time < now - b.options.feedLifetimeSec } now =
          b.liveFeeds now := by
      simp only [BitassetData.liveFeeds, List.filter_filter]
      refine List.filter_congr fun f _ => ?_
      rw [← Bool.decide_and, decide_eq_decide]
      omega
    have hcurrent := h.2
    simp only [BitassetData.Current, BitassetData.feedAt, BitassetData.TooFew, hlive,
      BitassetData.FeedIsExpired, BitassetData.feedExpirationTime] at hcurrent ⊢
    exact hcurrent
  · exact h

theorem Registry.processBitassets_tracked (hR : R.Each Tracked) :
    R.processBitassets.Each Tracked := by
  refine Each.map hR fun a b' hb' => ?_
  have hb : ∃ b, a.bitasset = some b := by
    rw [AssetObject.purgeFeeds, Option.map_eq_some_iff] at hb'
    obtain ⟨b, hb, -⟩ := hb'
    exact ⟨b, hb⟩
  obtain ⟨b, hb⟩ := hb
  exact ⟨b, hb, fun h => AssetObject.purgeFeeds_tracked h hb hb'⟩

theorem Computed.median {now : Nat} {a : AssetObject} {b : BitassetData} (h : Computed now a b)
    (hmany : b.options.minimumFeeds ≤ (b.liveFeeds now).length) :
    MedianFeed ((b.liveFeeds now).map PublishedFeed.feed) b.currentFeed := by
  have husable : ∀ f ∈ (b.liveFeeds now).map PublishedFeed.feed, f.Usable := by
    intro f hf
    obtain ⟨g, hg, rfl⟩ := List.mem_map.mp hf
    obtain ⟨hmem, hlive⟩ := List.mem_filter.mp hg
    exact h.1.1.published g hmem (of_decide_eq_true hlive).2
  rw [h.2, BitassetData.feedAt, if_neg (Nat.not_lt.mpr hmany)]
  refine medianFeed_median (fun hnil => ?_) (fun f hf => (husable f hf).price)
    fun f hf => (husable f hf).rate.quote_pos
  have hlength : (b.liveFeeds now).length = 0 := by
    rw [List.map_eq_nil_iff.mp hnil]
    rfl
  have := b.options.minimum_pos
  omega

theorem AssetObject.followRate_computed {now : Nat} {a : AssetObject} {b b' : BitassetData}
    (h : Computed now a b) (hneed : b.needToUpdateCer = true)
    (hb' : (a.followRate b).bitasset = some b') :
    Computed now (a.followRate b) b' ∧
      (a.followRate b).options.coreExchangeRate.Same b'.currentFeed.coreExchangeRate := by
  obtain ⟨c, hc, hrated, hsame⟩ := h.1.1.follow hneed
  obtain rfl := Option.some.inj (hc.symm.trans hb')
  refine ⟨⟨⟨hrated, ?_⟩, ?_⟩, hsame⟩
  · obtain rfl := Option.some.inj hb'
    exact h.1.2
  · obtain rfl := Option.some.inj hb'
    exact h.2

theorem Registry.updateExpiredFeeds_computed (hR : R.Each Tracked) :
    R.updateExpiredFeeds.Each Computed := by
  refine Each.map hR fun a b' hb' => ?_
  cases hb : a.bitasset with
  | none =>
    simp only [AssetObject.updateExpiredFeed, hb] at hb'
    cases hb'
  | some b =>
    refine ⟨b, rfl, fun h => ?_⟩
    have hcomputed : Computed R.headBlockTime a (b.updateMedianFeeds R.headBlockTime) := by
      refine ⟨⟨h.1.update _, BitassetData.updateMedianFeeds_current _ _⟩, ?_⟩
      rw [BitassetData.updateMedianFeeds_currentFeed, BitassetData.updateMedianFeeds_feedAt]
    by_cases hexpired : b.FeedIsExpired R.headBlockTime
    · by_cases hneed : (b.updateMedianFeeds R.headBlockTime).needToUpdateCer = true
      · simp only [AssetObject.updateExpiredFeed, hb, if_pos hexpired, if_pos hneed] at hb' ⊢
        exact (AssetObject.followRate_computed hcomputed hneed hb').1
      · simp only [AssetObject.updateExpiredFeed, hb, if_pos hexpired, if_neg hneed] at hb' ⊢
        obtain rfl := Option.some.inj hb'
        exact hcomputed
    · simp only [AssetObject.updateExpiredFeed, hb, if_neg hexpired] at hb' ⊢
      obtain rfl := Option.some.inj hb'
      exact ⟨h, (h.2.resolve_left hexpired).1⟩

theorem Registry.updateCoreExchangeRates_fresh (hR : R.Each Computed) :
    R.updateCoreExchangeRates.Each fun now a b => Computed now a b ∧ Fresh now a b := by
  refine Each.map hR fun a b' hb' => ?_
  cases hb : a.bitasset with
  | none =>
    simp only [AssetObject.updateCoreExchangeRate, hb] at hb'
    cases hb'
  | some b =>
    refine ⟨b, rfl, fun h => ?_⟩
    by_cases hneed : b.needToUpdateCer = true
    · simp only [AssetObject.updateCoreExchangeRate, hb, if_pos hneed] at hb' ⊢
      obtain ⟨hcomputed, hsame⟩ := AssetObject.followRate_computed h hneed hb'
      exact ⟨hcomputed, hcomputed.2, hcomputed.median, Or.inr hsame⟩
    · simp only [AssetObject.updateCoreExchangeRate, hb, if_neg hneed] at hb' ⊢
      obtain rfl := Option.some.inj hb'
      refine ⟨h, h.2, h.median, ?_⟩
      -- no flag is set, or the rate of the feed is null
      simp only [BitassetData.needToUpdateCer, Bool.and_eq_true, Bool.or_eq_true,
        Bool.not_eq_true'] at hneed
      rcases h.1.1.followed with hnull | hsame | hflag
      · exact Or.inl hnull
      · exact Or.inr hsame
      · left
        cases hnull : b.currentFeed.coreExchangeRate.isNull with
        | true => rfl
        | false => exact absurd ⟨hflag, hnull⟩ hneed

theorem Block.fresh (hR : R.Each Tracked) (h : Block R R') :
    R'.Each fun now a b => Computed now a b ∧ Fresh now a b := by
  cases h with
  | @applied R₁ R₂ R₃ R₄ time maintenance h₁ htime h₂ h₃ h₄ =>
    have htracked₁ := Activity.run_tracked h₁ hR
    have hlater : Registry.Each { R₁ with headBlockTime := time } Tracked :=
      fun id a b ha hb => ⟨(htracked₁ id a b ha hb).1, (htracked₁ id a b ha hb).2.later htime⟩
    have htracked₂ : R₂.Each Tracked := by
      rw [h₂]
      split
      · exact processBitassets_tracked hlater
      · exact hlater
    have hcomputed := updateExpiredFeeds_computed (Activity.run_tracked h₃ htracked₂)
    refine updateCoreExchangeRates_fresh (h₄.each hcomputed fun _ _ _ _ _ hP hoptions => ?_)
    exact ⟨hP.1.traded hoptions, hP.2⟩

/-- A registry at the start of the chain: no feed is published. -/
def Registry.Genesis (R : Registry) : Prop :=
  ∀ id a b, R.assets.find id = some a → a.bitasset = some b → a.Unfed b

/-- At the end of every block of every run, the current feed of every market issued asset is the
median of the feeds that are alive, and the core exchange rate of the asset is that of the feed. -/
theorem feeds_fresh_at_block_end {R₀ : Registry} (h₀ : R₀.Genesis)
    (h : Relation.ReflTransGen Block R₀ R) (hblock : Block R R') {id : AssetId} {a : AssetObject}
    {b : BitassetData} (ha : R'.assets.find id = some a) (hb : a.bitasset = some b) :
    Fresh R'.headBlockTime a b := by
  have htracked : R.Each Tracked := by
    clear hblock
    induction h with
    | refl => exact fun id a b ha hb => (h₀ id a b ha hb).tracked _
    | tail _ hstep ih => exact fun id a b ha hb => (hstep.fresh ih id a b ha hb).1.1
  exact (hblock.fresh htracked id a b ha hb).2

def Registry.pushBlock (R : Registry) (ops : List Operation) (time : Nat) : Attempt Registry := do
  let R ← R.perform ops
  require (R.headBlockTime ≤ time)
  pure (updateCoreExchangeRates (updateExpiredFeeds { R with headBlockTime := time }))

theorem Registry.pushBlock_block {ops : List Operation} {time : Nat}
    (h : R.pushBlock ops time = .ok R') : Block R R' := by
  simp only [pushBlock, bind_eq_ok, require_eq_ok, exists_const, pure_eq_ok] at h
  obtain ⟨R₁, h₁, htime, rfl⟩ := h
  have hrun : Relation.ReflTransGen Activity R R₁ := foldlM_invariant
    (P := Relation.ReflTransGen Activity R) (fun _ op _ hM happly => hM.tail (.operation op happly))
    ops R R₁ Relation.ReflTransGen.refl h₁
  have hsame : { R₁ with headBlockTime := time } = (if false = true then
      processBitassets { R₁ with headBlockTime := time } else { R₁ with headBlockTime := time }) :=
        rfl
  refine .applied false hrun htime hsame
    Relation.ReflTransGen.refl ⟨rfl, fun id a ha => ⟨a, ha, rfl, ?_⟩⟩
  cases hb : a.bitasset with
  | none => exact ⟨Price.null, rfl⟩
  | some b => exact ⟨b.settlementPrice, rfl⟩

/-- Two producers publish rates of two and three. -/
def publishing : List Operation :=
  [.assetCreate ⟨⟨0, 0⟩, 1, ['U', 'S', 'D'], 4, plainOptions, some (backedBy 0), false⟩,
    .assetUpdateFeedProducers ⟨⟨0, 0⟩, 1, 1, [1, 2]⟩,
    .assetPublishFeed ⟨⟨0, 0⟩, 1, 1, feedOf 2⟩, .assetPublishFeed ⟨⟨0, 0⟩, 2, 1, feedOf 3⟩]
where
  feedOf (rate : Int) : PriceFeed :=
    ⟨⟨⟨⟨rate, 1⟩, ⟨1, 0⟩⟩, 1750, 1100, Market.PriceFeed.default.maintenance_range,
      Market.squeeze_range_1100⟩, ⟨⟨rate, 1⟩, ⟨1, 0⟩⟩⟩

theorem coreRegistry_genesis : coreRegistry.Genesis := by
  intro id a b ha hb
  have hall : ∀ r ∈ coreRegistry.assets.rows, r.2.bitasset = none := by decide
  rw [hall (id, a) (Table.find_iff_mem.mp ha)] at hb
  cases hb

/-- The rate of the asset is the median after the block, and a day later the feed is null. -/
theorem feeds_fresh_at_block_end_published : ∃ R R' a b a' b',
    coreRegistry.pushBlock publishing 1600000005 = .ok R ∧ R.assets.find 1 = some a ∧
    a.bitasset = some b ∧ a.options.coreExchangeRate = ⟨⟨3, 1⟩, ⟨1, 0⟩⟩ ∧
    Fresh R.headBlockTime a b ∧ R.pushBlock [] 1600086405 = .ok R' ∧ R'.assets.find 1 = some a' ∧
    a'.bitasset = some b' ∧ b'.currentFeed = PriceFeed.default ∧ Fresh R'.headBlockTime a' b' := by
  have hrun : (coreRegistry.pushBlock publishing 1600000005).toOption.any (fun R =>
      (R.assets.find 1).any (fun a => a.bitasset.isSome ∧
        a.options.coreExchangeRate = ⟨⟨3, 1⟩, ⟨1, 0⟩⟩) ∧
      (R.pushBlock [] 1600086405).toOption.any (fun R' => (R'.assets.find 1).any fun a' =>
        a'.bitasset.any fun b' => b'.currentFeed = PriceFeed.default)) = true := by
    decide +kernel
  obtain ⟨R, hR, hstate⟩ := exists_ok_of_any hrun
  obtain ⟨hasset, hnext⟩ := of_decide_eq_true hstate
  obtain ⟨a, ha, hasset⟩ := (Option.any_eq_true _ _).mp hasset
  obtain ⟨hsome, hrate⟩ := of_decide_eq_true hasset
  obtain ⟨b, hb⟩ := Option.isSome_iff_exists.mp hsome
  obtain ⟨R', hR', hnext⟩ := exists_ok_of_any hnext
  obtain ⟨a', ha', hnext⟩ := (Option.any_eq_true _ _).mp hnext
  obtain ⟨b', hb', hnull⟩ := (Option.any_eq_true _ _).mp hnext
  have hblock := pushBlock_block hR
  exact ⟨R, R', a, b, a', b', hR, ha, hb, hrate,
    feeds_fresh_at_block_end coreRegistry_genesis Relation.ReflTransGen.refl hblock ha hb, hR', ha',
    hb', of_decide_eq_true hnull, feeds_fresh_at_block_end coreRegistry_genesis
      (Relation.ReflTransGen.single hblock) (pushBlock_block hR') ha' hb'⟩

end Nestchain.Assets
