import Nestchain.Market.CallPrices
import Nestchain.Market.Tradable

/-! The detection of black swans.  `check_for_blackswan` looks at one position only, the one with
the least stored call price.  That is the one with the least collateral when all call prices are for
the same ratio, and it need not be when the feeds have changed the ratio in between. -/

namespace Nestchain.Market

open Lib Ledger

def CallOrder.swanPrice (c : CallOrder) : Price := ⟨c.getDebt, c.getCollateral⟩

theorem Run.runOf {L L' : Ledger} (h : Run L L') : RunOf (fun _ => True) L L' := by
  induction h with
  | refl => exact Relation.ReflTransGen.refl
  | tail _ hstep ih =>
    refine ih.tail ?_
    rcases step_iff.mp hstep with ⟨rounds, skip, op, happly⟩ | htick
    · exact Or.inl ⟨rounds, skip, op, trivial, happly⟩
    · exact Or.inr htick

theorem Run.resting {L₀ L : Ledger} (h₀ : Genesis L₀) (h : Run L₀ L) :
    RestingBut (fun o => o.sellPrice.Valid) noOrder L := by
  refine h.runOf.resting (fun _ _ hvalid _ => hvalid) (fun op M N o _ hplaces => ?_) h₀
  obtain ⟨hne, -, hsell, hreceive⟩ := hplaces.valid
  rw [hplaces.sellPrice]
  exact ⟨hsell, hreceive, hne⟩

namespace Ledger

variable {L L' : Ledger} {mia : AssetId} {b : BitassetData}

theorem checkForBlackswan_false {enable : Bool} (hb : L.bitasset mia = .ok b)
    (h : L.checkForBlackswan mia enable = .ok (false, L')) :
    L' = L ∧ (b.currentFeed.settlementPrice.isNull = false → ∃ callMin callMax,
      Price.smallest b.options.shortBackingAsset mia = .ok callMin ∧
      Price.greatest b.options.shortBackingAsset mia = .ok callMax ∧
      ∀ call rest, L.callOrdersBetween callMin callMax = call :: rest →
        ∃ highest, L.highestBid mia b = .ok highest ∧ call.2.swanPrice < highest) := by
  simp only [checkForBlackswan, asset, bind_eq_ok, demand_eq_ok] at h
  obtain ⟨a, ha, h⟩ := h
  obtain ⟨a', ha', hab⟩ := bitasset_eq_ok.mp hb
  obtain rfl : a = a' := Option.some.inj (ha.symm.trans ha')
  simp only [hab] at h
  split at h
  · cases pure_eq_ok.mp h
  · split at h
    · rename_i hnull
      cases pure_eq_ok.mp h
      exact ⟨rfl, fun hfeed => absurd (hnull.symm.trans hfeed) (by decide)⟩
    · simp only [bind_eq_ok] at h
      obtain ⟨callMin, hmin, callMax, hmax, h⟩ := h
      split at h
      · rename_i hnone
        cases pure_eq_ok.mp h
        refine ⟨rfl, fun _ => ⟨callMin, callMax, hmin, hmax, fun call rest hcalls => ?_⟩⟩
        rw [hnone] at hcalls
        cases hcalls
      · rename_i first others hfirst
        simp only [bind_eq_ok] at h
        obtain ⟨highest, hhighest, least, hleast, h⟩ := h
        split at h
        · simp only [bind_eq_ok, pure_eq_ok] at h
          obtain ⟨-, -, M, -, he⟩ := h
          cases he
        · rename_i hbelow
          cases pure_eq_ok.mp h
          refine ⟨rfl, fun _ => ⟨callMin, callMax, hmin, hmax, fun call rest hcalls => ?_⟩⟩
          obtain ⟨rfl, -⟩ := List.cons.inj (hfirst.symm.trans hcalls)
          obtain ⟨-, rfl⟩ := Price.ofAssets_eq_ok.mp hleast
          exact ⟨highest, hhighest, not_not.mp hbelow⟩

theorem highestBid_cases {highest squeeze : Price} (h : L.highestBid mia b = .ok highest)
    (hsqueeze : b.currentFeed.maxShortSqueezePrice = .ok squeeze) :
    highest = squeeze ∨ ∃ id o, L.limitOrders.find id = some o ∧ o.sellAssetId = mia ∧
      o.receiveAssetId = b.options.shortBackingAsset ∧ highest = o.sellPrice := by
  simp only [highestBid, bind_eq_ok] at h
  obtain ⟨squeeze', hsqueeze', top, htop, bottom, hbottom, h⟩ := h
  obtain rfl : squeeze = squeeze' := Except.ok.inj (hsqueeze.symm.trans hsqueeze')
  split at h
  · exact Or.inl (pure_eq_ok.mp h)
  · rename_i o rest hbids
    simp only [bind_eq_ok, pure_eq_ok] at h
    obtain ⟨-, -, rfl⟩ := h
    split
    · exact Or.inl rfl
    · have hmem : o ∈ L.limitOrdersBetween top bottom := hbids ▸ List.mem_cons_self ..
      obtain ⟨hfind, hbetween⟩ := List.mem_filter.mp hmem
      obtain ⟨hle, hge⟩ := of_decide_eq_true hbetween
      obtain ⟨hbase, hquote⟩ := Price.assets_of_between hbottom htop hge hle
      exact Or.inr ⟨o.1, o.2, mem_sortRows.mp hfind, hbase, hquote, rfl⟩

/-- The debt over the collateral of every position in the asset is below the squeeze price or the
price of a limit order that sells the asset for its backing. -/
def AboveWater (L : Ledger) (mia : AssetId) (b : BitassetData) (squeeze : Price) : Prop :=
  ∀ id c, L.callOrders.find id = some c → c.debtType = mia → c.swanPrice < squeeze ∨
    ∃ j o, L.limitOrders.find j = some o ∧ o.sellAssetId = mia ∧
      o.receiveAssetId = b.options.shortBackingAsset ∧ c.swanPrice < o.sellPrice

end Ledger

variable {L L' : Ledger} {mia : AssetId} {b : BitassetData}

theorem CallOrder.swanPrice_lt {c d : CallOrder} {p : Price} (hcpos : 0 < c.collateral)
    (hdpos : 0 < d.collateral) (hp : 0 ≤ p.quote.amount) (hbase : p.base.assetId = c.debtType)
    (hquote : p.quote.assetId = c.collateralType) (hdebt : d.debtType = c.debtType)
    (hcollateral : d.collateralType = c.collateralType)
    (hle : d.debt * c.collateral ≤ c.debt * d.collateral) (hlt : c.swanPrice < p) :
    d.swanPrice < p := by
  rw [Price.lt_iff_mul (a := c.swanPrice) hbase.symm hquote.symm] at hlt
  rw [Price.lt_iff_mul (a := d.swanPrice) (hdebt.trans hbase.symm)
    (hcollateral.trans hquote.symm)]
  have hlt' : p.quote.amount * c.debt < c.collateral * p.base.amount := hlt
  show p.quote.amount * d.debt < d.collateral * p.base.amount
  refine lt_of_mul_lt_mul_left ?_ (le_of_lt hcpos)
  calc c.collateral * (p.quote.amount * d.debt)
      = p.quote.amount * (d.debt * c.collateral) := by ring
    _ ≤ p.quote.amount * (c.debt * d.collateral) := mul_le_mul_of_nonneg_left hle hp
    _ = d.collateral * (p.quote.amount * c.debt) := by ring
    _ < d.collateral * (c.collateral * p.base.amount) := mul_lt_mul_of_pos_left hlt' hdpos
    _ = c.collateral * (d.collateral * p.base.amount) := by ring

theorem checkForBlackswan_aboveWater {enable : Bool} {ratio : Nat} {squeeze : Price} (hs : Shape L)
    (hfed : Fed L) (hvalid : ∀ id o, L.limitOrders.find id = some o → o.sellPrice.Valid)
    (hb : L.bitasset mia = .ok b) (hratio : 0 < ratio)
    (hpriced : ∀ id c, L.callOrders.find id = some c → c.debtType = mia →
      c.Priced ratio ∧ c.Unrounded ratio)
    (hfeed : b.currentFeed.settlementPrice.isNull = false)
    (hsqueeze : b.currentFeed.maxShortSqueezePrice = .ok squeeze)
    (h : L.checkForBlackswan mia enable = .ok (false, L')) : L.AboveWater mia b squeeze := by
  intro id d hd hmia
  obtain ⟨-, hfirst⟩ := checkForBlackswan_false hb h
  obtain ⟨callMin, callMax, hmin, hmax, hfirst⟩ := hfirst hfeed
  have hmem := (closes_start hs hb hmin hmax).open_rows id d hd hmia
  cases hcalls : L.callOrdersBetween callMin callMax with
  | nil => exact absurd (hcalls ▸ hmem) List.not_mem_nil
  | cons call rest =>
    obtain ⟨highest, hhighest, hlt⟩ := hfirst call rest hcalls
    obtain ⟨hfind, hcallMia⟩ :=
      (closes_start hs hb hmin hmax).row_open call (hcalls ▸ List.mem_cons_self ..)
    have hcall := hs.callOrders call.1 call.2 hfind
    have hdsound := hs.callOrders id d hd
    have hbacking : ∀ {c : CallOrder}, c.Sound L.bitasset → c.debtType = mia →
        c.collateralType = b.options.shortBackingAsset := by
      intro c hc hcmia
      obtain ⟨b', hb', hback, -⟩ := hc.backed
      rw [hcmia] at hb'
      exact hback.symm.trans (congrArg _ (congrArg _ (Except.ok.inj (hb'.symm.trans hb))))
    obtain ⟨hcpriced, hcexact⟩ := hpriced call.1 call.2 hfind hcallMia
    obtain ⟨hdpriced, hdexact⟩ := hpriced id d hd hmia
    have hdebt : d.debtType = call.2.debtType := hmia.trans hcallMia.symm
    have hcollateral : d.collateralType = call.2.collateralType :=
      (hbacking hdsound hmia).trans (hbacking hcall hcallMia).symm
    have hle := (CallOrder.callPrice_le_iff_swan hratio hcpriced hcexact hcall.debt_pos
      hcall.collateral_pos hdpriced hdexact hdsound.debt_pos hdsound.collateral_pos hdebt
      hcollateral).mp (callPrice_head_le hs hb hmin hmax hcalls hd hmia)
    have hbetween := (hfed mia b hb).current.resolve_left (by simp [hfeed])
    obtain ⟨hsqueezeBetween, -, -⟩ := PriceFeed.maxShortSqueezePrice_spec hbetween hsqueeze
    rcases highestBid_cases hhighest hsqueeze with rfl | ⟨j, o, ho, hsell, hreceive, rfl⟩
    · left
      exact CallOrder.swanPrice_lt hcall.collateral_pos hdsound.collateral_pos
        (le_of_lt hsqueezeBetween.quote_pos) (hsqueezeBetween.base_asset.trans hcallMia.symm)
        (hsqueezeBetween.quote_asset.trans (hbacking hcall hcallMia).symm) hdebt hcollateral hle hlt
    · right
      exact ⟨j, o, ho, hsell, hreceive, CallOrder.swanPrice_lt hcall.collateral_pos
        hdsound.collateral_pos (le_of_lt (hvalid j o ho).2.1) (hsell.trans hcallMia.symm)
        (hreceive.trans (hbacking hcall hcallMia).symm) hdebt hcollateral hle hlt⟩

/-- In every ledger that a run reaches whose steps do not change the maintenance ratio of an asset
with positions, a black swan is detected, when the call prices are not rounded. -/
theorem black_swan_detected {L₀ : Ledger} {enable : Bool} {squeeze : Price} (h₀ : Genesis L₀)
    (hrun : RunWhere (RatiosKept Eq) L₀ L) (hb : L.bitasset mia = .ok b)
    (hexact : ∀ id c, L.callOrders.find id = some c → c.debtType = mia →
      c.Unrounded b.currentFeed.maintenanceCollateralRatio)
    (hfeed : b.currentFeed.settlementPrice.isNull = false)
    (hsqueeze : b.currentFeed.maxShortSqueezePrice = .ok squeeze)
    (h : L.checkForBlackswan mia enable = .ok (false, L')) : L.AboveWater mia b squeeze := by
  have hbalanced := Run.balanced h₀.balanced hrun.run
  refine checkForBlackswan_aboveWater hbalanced.shape (Run.fed h₀.balanced h₀.fed hrun.run)
    (fun id o ho => (Run.resting h₀ hrun.run id o ho).1) hb b.currentFeed.maintenance_pos
    (fun id c hc hmia => ⟨?_, hexact id c hc hmia⟩) hfeed hsqueeze h
  have hpriced := hrun.pricedWithin (fun _ => rfl) (fun h h' => h.trans h') h₀
  obtain ⟨ratio, -, rfl, hc'⟩ := hpriced id c hc b (hmia.symm ▸ hb)
  exact hc'

/-- A feed of the asset of `parLedger`, with the amounts of its price and its ratio. -/
def parFeed (base quote : Int) (ratio : Nat) (h : 1001 ≤ ratio ∧ ratio ≤ 32000) : PriceFeed :=
  ⟨⟨⟨base, 1⟩, ⟨quote, coreAsset⟩⟩, ratio, 1100, h, squeeze_range_1100⟩

/-- Two accounts that hold the core asset, and an asset that is worth as much as the core asset. -/
def parLedger : Ledger :=
  freshLedger 1600000000 [1000, 1000]
    [.fedWith (parFeed 1 1 1750 PriceFeed.default.maintenance_range)]

theorem parLedger_genesis : Genesis parLedger :=
  freshLedger_genesis (by decide) (by decide) (by decide)

/-- A new feed of the issuer. -/
def publishPar (feed : PriceFeed) : Operation := .assetPublishFeed ⟨⟨0, 0⟩, 1, 1, feed⟩

/-- An account borrows a hundred. -/
def borrowPar (account : AccountId) (collateral : Int) : Operation :=
  .callOrderUpdate ⟨⟨0, 0⟩, account, ⟨collateral, 0⟩, ⟨100, 1⟩, none⟩

/-- Two positions after the price has fallen, with the ratio as it was. -/
theorem black_swan_detected_par : ∃ L b squeeze,
    parLedger.performKeeping Eq 5 [borrowPar 0 200, borrowPar 1 310,
      publishPar (parFeed 10 11 1750 (by decide))] = .ok L ∧ L.callOrders.rows.length = 2 ∧
    L.bitasset 1 = .ok b ∧ b.currentFeed.maxShortSqueezePrice = .ok squeeze ∧
    L.AboveWater 1 b squeeze := by
  have hrun : (parLedger.performKeeping Eq 5 [borrowPar 0 200, borrowPar 1 310,
      publishPar (parFeed 10 11 1750 (by decide))]).toOption.any (fun L =>
        L.callOrders.rows.length = 2 ∧ (L.bitasset 1).toOption.any (fun b =>
          b.currentFeed.settlementPrice.isNull = false ∧
          b.currentFeed.maxShortSqueezePrice.toOption.isSome = true ∧
          (∀ r ∈ L.callOrders.rows, r.2.Unrounded b.currentFeed.maintenanceCollateralRatio) ∧
          (L.checkForBlackswan 1 true).toOption.any fun r => r.1 = false)) = true := by
    decide +kernel
  obtain ⟨L, hL, hstate⟩ := exists_ok_of_any hrun
  obtain ⟨hlength, hstate⟩ := of_decide_eq_true hstate
  obtain ⟨b, hb, hstate⟩ := exists_ok_of_any hstate
  obtain ⟨hfeed, hsome, hexact, hswan⟩ := of_decide_eq_true hstate
  obtain ⟨r, hr, hfalse⟩ := exists_ok_of_any hswan
  obtain ⟨squeeze, hsqueeze, -⟩ := exists_ok_of_any (p := fun _ => true)
    (x := b.currentFeed.maxShortSqueezePrice) (by
      rw [Option.any_true]
      exact hsome)
  refine ⟨L, b, squeeze, hL, hlength, hb, hsqueeze, ?_⟩
  obtain ⟨swan, L'⟩ := r
  obtain rfl : swan = false := of_decide_eq_true hfalse
  exact black_swan_detected parLedger_genesis (performKeeping_run hL) hb
    (fun id c hc _ => hexact (id, c) (Table.find_iff_mem.mp hc)) hfeed hsqueeze hr

/-- The ratio goes up and then the price down: the position that was opened at the lower ratio has
the higher call price and is under water, and only the other one is looked at. -/
theorem black_swan_missed : ∃ L₀ L b squeeze, Genesis L₀ ∧ Run L₀ L ∧ L.bitasset 1 = .ok b ∧
    b.hasSettlement = false ∧ b.currentFeed.settlementPrice.isNull = false ∧
    b.currentFeed.maxShortSqueezePrice = .ok squeeze ∧
    (∃ L', L.checkForBlackswan 1 true = .ok (false, L')) ∧ ¬L.AboveWater 1 b squeeze := by
  have hrun : (parLedger.perform 5 [borrowPar 0 200, publishPar (parFeed 1 1 3000 (by decide)),
      borrowPar 1 310, publishPar (parFeed 10 21 3000 (by decide))]).toOption.any (fun L =>
        L.limitOrders.rows = [] ∧ (L.bitasset 1).toOption.any (fun b =>
          b.hasSettlement = false ∧ b.currentFeed.settlementPrice.isNull = false ∧
          b.currentFeed.maxShortSqueezePrice.toOption.any (fun squeeze =>
            (L.callOrders.find 0).any fun c => c.debtType = 1 ∧ ¬c.swanPrice < squeeze) ∧
          (L.checkForBlackswan 1 true).toOption.any fun r => r.1 = false)) = true := by
    decide +kernel
  obtain ⟨L, hL, hstate⟩ := exists_ok_of_any hrun
  obtain ⟨hempty, hstate⟩ := of_decide_eq_true hstate
  obtain ⟨b, hb, hstate⟩ := exists_ok_of_any hstate
  obtain ⟨hunsettled, hfeed, hunder, hswan⟩ := of_decide_eq_true hstate
  obtain ⟨r, hr, hfalse⟩ := exists_ok_of_any hswan
  obtain ⟨squeeze, hsqueeze, hunder⟩ := exists_ok_of_any hunder
  obtain ⟨c, hc, hunder⟩ := (Option.any_eq_true _ _).mp hunder
  obtain ⟨hmia, hnot⟩ := of_decide_eq_true hunder
  obtain ⟨swan, L'⟩ := r
  obtain rfl : swan = false := of_decide_eq_true hfalse
  refine ⟨parLedger, L, b, squeeze, parLedger_genesis, perform_run hL, hb, hunsettled, hfeed,
    hsqueeze, ⟨L', hr⟩, fun habove => ?_⟩
  rcases habove 0 c hc hmia with hlt | ⟨j, o, ho, -⟩
  · exact hnot hlt
  · have hmem := Table.find_iff_mem.mp ho
    rw [hempty] at hmem
    cases hmem

end Nestchain.Market
