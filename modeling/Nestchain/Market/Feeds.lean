import Nestchain.Market.Owners

/-! The feeds of a market-issued asset are prices of the asset in its backing, and so is their
median.  With it the squeeze price is a price between the two assets. -/

namespace Nestchain.Market

open Lib Ledger

instance (p : Price) (base quote : AssetId) : Decidable (p.Between base quote) :=
  decidable_of_iff (p.base.assetId = base ∧ p.quote.assetId = quote ∧ 0 < p.base.amount ∧
    0 < p.quote.amount)
    ⟨fun h => ⟨h.1, h.2.1, h.2.2.1, h.2.2.2⟩,
      fun h => ⟨h.base_asset, h.quote_asset, h.base_pos, h.quote_pos⟩⟩

/-- The feeds that were published and the median of the asset `id`. -/
structure BitassetData.Fed (id : AssetId) (b : BitassetData) : Prop where
  published : ∀ f ∈ b.feeds, f.time ≠ 0 →
    f.feed.settlementPrice.Between id b.options.shortBackingAsset
  current : b.currentFeed.settlementPrice.isNull = true ∨
    b.currentFeed.settlementPrice.Between id b.options.shortBackingAsset

instance (id : AssetId) (b : BitassetData) : Decidable (b.Fed id) :=
  decidable_of_iff ((∀ f ∈ b.feeds, f.time ≠ 0 →
      f.feed.settlementPrice.Between id b.options.shortBackingAsset) ∧
    (b.currentFeed.settlementPrice.isNull = true ∨
      b.currentFeed.settlementPrice.Between id b.options.shortBackingAsset))
    ⟨fun h => ⟨h.1, h.2⟩, fun h => ⟨h.published, h.current⟩⟩

def Fed (L : Ledger) : Prop := ∀ id b, L.bitasset id = .ok b → b.Fed id

theorem PriceFeed.median_mem (before : PriceFeed → PriceFeed → Prop) [DecidableRel before]
    {feeds : List PriceFeed} (h : feeds ≠ []) : PriceFeed.median before feeds ∈ feeds := by
  have hlt : feeds.length / 2 < (feeds.insertionSort fun f g => ¬before g f).length := by
    rw [List.length_insertionSort]
    exact Nat.div_lt_self (List.length_pos_iff.mpr h) (by decide)
  rw [PriceFeed.median, List.getElem?_eq_getElem hlt, Option.getD_some]
  exact (List.mem_insertionSort _).mp (List.getElem_mem hlt)

theorem BitassetData.Fed.median {id : AssetId} {b : BitassetData} {feeds : List PublishedFeed}
    {now : Nat} (hb : b.Fed id) (hfeeds : ∀ f ∈ feeds, b.Published id f) :
    (b.fed feeds now).Fed id := by
  have hpublished : ∀ f ∈ feeds, f.time ≠ 0 →
      f.feed.settlementPrice.Between id b.options.shortBackingAsset := by
    intro f hf htime
    rcases hfeeds f hf with hold | hzero | hbetween
    · exact hb.published f hold htime
    · exact absurd hzero htime
    · exact hbetween
  refine ⟨hpublished, ?_⟩
  simp only [BitassetData.fed, BitassetData.updateMedianFeeds]
  split
  · exact Or.inl rfl
  · rename_i henough
    refine Or.inr ?_
    -- at least one feed is needed for a median
    have hne : BitassetData.liveFeeds { b with feeds := feeds } now ≠ [] := by
      intro hnil
      rw [hnil] at henough
      exact henough b.options.minimum_pos
    have hlive : ∀ f ∈ BitassetData.liveFeeds { b with feeds := feeds } now,
        f.settlementPrice.Between id b.options.shortBackingAsset := by
      intro f hf
      obtain ⟨g, hg, rfl⟩ := List.mem_map.mp hf
      obtain ⟨hmem, htime⟩ := List.mem_filter.mp hg
      exact hpublished g hmem (of_decide_eq_true htime).2
    have hmedian := hlive _ (PriceFeed.median_mem
      (fun f g => f.settlementPrice < g.settlementPrice) hne)
    exact hmedian

variable {L L' : Ledger} {loose : Nat → Prop}

theorem Fed.of_terms (h : Fed L) (hterms : ∀ id, (L'.assets.find id).map AssetObject.terms =
    (L.assets.find id).map AssetObject.terms) : Fed L' := by
  intro id b hb
  obtain ⟨b', hb', hoptions, hfeeds, hcurrent, -⟩ := bitasset_of_terms (hterms id).symm hb
  obtain ⟨hpublished, hmedian⟩ := h id b' hb'
  rw [hfeeds, hoptions] at hpublished
  rw [hcurrent, hoptions] at hmedian
  exact ⟨hpublished, hmedian⟩

theorem Fed.change (h : Fed L) (hchange : Change loose L L') : Fed L' :=
  h.of_terms hchange.terms

theorem Fed.setAsset {id : AssetId} {a a' : AssetObject} (h : Fed L)
    (ha : L.assets.find id = some a) (hfed : ∀ b, a'.bitassetData = some b → b.Fed id) :
    Fed { L with assets := L.assets.set id a' } := by
  intro j b hb
  obtain ⟨d, hd, hdb⟩ := bitasset_eq_ok.mp hb
  rcases (Table.find_set_iff ha).mp hd with ⟨rfl, rfl⟩ | ⟨-, hd⟩
  · exact hfed b hdb
  · exact h j b (bitasset_eq_ok.mpr ⟨d, hd, hdb⟩)

theorem Fed.adjustment (h : Fed L) (hadjust : Adjustment L L') : Fed L' := by
  cases hadjust with
  | @feed id a b feeds now ha hb hfeeds =>
    refine h.setAsset ha fun d hd => ?_
    obtain rfl := Option.some.inj hd
    exact (h id b (bitasset_eq_ok.mpr ⟨a, ha, hb⟩)).median hfeeds
  | @asset id a issuer options ha _ =>
    exact h.setAsset ha fun b hb => h id b (bitasset_eq_ok.mpr ⟨a, ha, hb⟩)
  | @bitasset id a b options ha hb hbacking =>
    refine h.setAsset ha fun d hd => ?_
    obtain rfl := Option.some.inj hd
    obtain ⟨hpublished, hcurrent⟩ := h id b (bitasset_eq_ok.mpr ⟨a, ha, hb⟩)
    rw [← hbacking] at hpublished hcurrent
    exact ⟨hpublished, hcurrent⟩
  | time time => exact h
  | parameters parameters => exact h

theorem Run.fed (hL : Balanced L) (hfed : Fed L) (h : Run L L') : Fed L' :=
  h.invariant hL (fun _ _ _ hM hc => hM.change hc) (fun _ _ hM ha => hM.adjustment ha) hfed

/-! ### The start of a run -/

/-- A ledger before the first order, whose assets have their issuers and whose feeds are sound. -/
structure Genesis (L : Ledger) : Prop where
  opening : Opening L
  issuers : ∀ id a, L.assets.find id = some a → (L.accounts.find a.issuer).isSome
  fed : Fed L

theorem Genesis.balanced (h : Genesis L) : Balanced L := h.opening.balanced

theorem Genesis.owned (h : Genesis L) : Owned L := h.opening.owned h.issuers

theorem freshLedger_genesis {time : Nat} {holdings : List Int} {issued : List AssetObject}
    (hholdings : ∀ x ∈ holdings, 0 ≤ x) (hissued : ∀ a ∈ issued, a.Fresh)
    (hrows : ∀ r ∈ (freshLedger time holdings issued).assets.rows,
      ((freshLedger time holdings issued).accounts.find r.2.issuer).isSome ∧
        ∀ b ∈ r.2.bitassetData, b.Fed r.1) : Genesis (freshLedger time holdings issued) := by
  refine ⟨freshLedger_opening hholdings hissued, fun id a ha => ?_, fun id b hb => ?_⟩
  · exact (hrows (id, a) (Table.find_iff_mem.mp ha)).1
  · obtain ⟨a, ha, hab⟩ := bitasset_eq_ok.mp hb
    exact (hrows (id, a) (Table.find_iff_mem.mp ha)).2 b hab

/-- A market-issued asset with one feed of its issuer. -/
def AssetObject.fedWith (feed : PriceFeed) : AssetObject :=
  ⟨1, tradingLedger.plainOptions, ⟨0, 0, 0⟩,
    some ⟨⟨86400, 1, 86400, 100, 2000, coreAsset, Nat.one_pos, offset_le_100, volume_le_2000⟩,
      [⟨1, 1600000000, feed⟩], feed, false, 0, Price.null, 0⟩⟩

/-! ### Prices that come from a feed -/

theorem PriceFeed.maxShortSqueezePrice_spec {f : PriceFeed} {p : Price} {mia backing : AssetId}
    (hf : f.settlementPrice.Between mia backing) (h : f.maxShortSqueezePrice = .ok p) :
    p.Between mia backing ∧ p.InRange ∧ mia ≠ backing := by
  simp only [PriceFeed.maxShortSqueezePrice, rational, bind_eq_ok, require_eq_ok, exists_const,
    pure_eq_ok, Price.ofAssets_eq_ok] at h
  obtain ⟨sp, ⟨-, rfl⟩, hne, rfl⟩ := h
  have hpos : 0 < (Rat.divInt f.settlementPrice.base.amount f.settlementPrice.quote.amount *
      mkRat collateralRatioDenom f.maximumShortSqueezeRatio).num := by
    rw [Rat.num_pos, Rat.divInt_eq_div, Rat.mkRat_eq_div]
    have hsqueeze := f.squeeze_range.1
    refine mul_pos (div_pos ?_ ?_) (div_pos ?_ ?_)
    · exact_mod_cast hf.base_pos
    · exact_mod_cast hf.quote_pos
    · norm_num [collateralRatioDenom]
    · exact_mod_cast (by omega : 0 < f.maximumShortSqueezeRatio)
  have hfit := shortSqueezeHalving.fit_not_tooLarge
    (Rat.divInt f.settlementPrice.base.amount f.settlementPrice.quote.amount *
      mkRat collateralRatioDenom f.maximumShortSqueezeRatio)
  simp only [TooLarge, not_or, not_lt] at hfit
  have hnum := shortSqueezeHalving.fit_pos _ hpos
  have hden : (0 : Int) < (shortSqueezeHalving.fit (Rat.divInt f.settlementPrice.base.amount
      f.settlementPrice.quote.amount * mkRat collateralRatioDenom
        f.maximumShortSqueezeRatio)).den := Int.natCast_pos.mpr (Rat.den_pos _)
  refine ⟨⟨hf.base_asset, hf.quote_asset, hnum, hden⟩, ⟨hnum, hfit.1, hden, hfit.2⟩, ?_⟩
  rwa [hf.base_asset, hf.quote_asset] at hne

/-- The price at which a new order matches call orders is between the assets of the order, and at
least as good as the order asks for. -/
structure CallMatchPrice (L : Ledger) (o : LimitOrder) (p : Price) (feed : PriceFeed) : Prop where
  between : p.Between o.receiveAssetId o.sellAssetId
  good : o.sellPrice.inverse ≤ p
  feed_between : feed.settlementPrice.Between o.sellAssetId o.receiveAssetId
  bitasset : ∃ b, L.bitasset o.sellAssetId = .ok b ∧ b.currentFeed = feed ∧
    b.options.shortBackingAsset = o.receiveAssetId ∧ b.hasSettlement = false ∧
    b.isPredictionMarket = false

theorem Ledger.callMatchPrice_spec {o : LimitOrder} {p : Price} {feed : PriceFeed} (hfed : Fed L)
    (h : L.callMatchPrice o = .ok (some (p, feed))) : CallMatchPrice L o p feed := by
  simp only [callMatchPrice, asset, bind_eq_ok, demand_eq_ok] at h
  obtain ⟨a, ha, h⟩ := h
  split at h
  · cases pure_eq_ok.mp h
  · rename_i b hb
    have hbit : L.bitasset o.sellAssetId = .ok b := bitasset_eq_ok.mpr ⟨a, ha, hb⟩
    split at h
    · rename_i hcond
      obtain ⟨hbacking, hpm, hset, hnull⟩ := hcond
      simp only [bind_eq_ok] at h
      obtain ⟨squeeze, hsqueeze, h⟩ := h
      have hbetween := (hfed _ b hbit).current.resolve_left (by simp [hnull])
      rw [hbacking] at hbetween
      obtain ⟨hp, -, -⟩ := PriceFeed.maxShortSqueezePrice_spec hbetween hsqueeze
      split at h
      · rename_i hgood
        obtain ⟨rfl, rfl⟩ := Prod.mk.inj (Option.some.inj (pure_eq_ok.mp h))
        exact ⟨⟨hp.quote_asset, hp.base_asset, hp.quote_pos, hp.base_pos⟩, hgood, hbetween,
          b, hbit, rfl, hbacking, hset, hpm⟩
      · cases pure_eq_ok.mp h
    · cases pure_eq_ok.mp h

end Nestchain.Market
