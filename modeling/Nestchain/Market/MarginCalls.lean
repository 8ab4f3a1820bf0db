import Nestchain.Market.BlackSwan
import Nestchain.Market.CoverSpec

/-! Margin calls.  A call order is filled with a limit order only when the feed does not protect it,
and as long as no feed lowers the maintenance ratio, that means that its collateral is not above the
maintenance ratio at the feed. -/

namespace Nestchain.Market

open Lib Ledger

namespace CallOrder

/-! ### What is covered is not nothing -/

/-- A position whose collateral is not above the ratio `tcr` at a feed, whose call price for that
ratio is not rounded. -/
structure Coverable (c : CallOrder) (mp fp : Price) (tcr : Nat) : Prop where
  debt_pos : 0 < c.debt
  collateral_pos : 0 < c.collateral
  ratio_pos : 0 < tcr
  assets_ne : c.collateralType ≠ c.debtType
  matched : mp.Between c.collateralType c.debtType
  feed : fp.Between c.collateralType c.debtType
  below : fp.quote.amount * (c.collateral * collateralRatioDenom) ≤
    fp.base.amount * (c.debt * tcr)
  unrounded : c.Unrounded tcr

variable {c : CallOrder} {mp fp : Price} {tcr : Nat}

namespace Coverable

theorem not_aboveTarget (h : c.Coverable mp fp tcr) : c.aboveTarget fp tcr ⟨0, 0⟩ ≠ .ok true := by
  intro habove
  simp only [aboveTarget, sub_zero, bind_eq_ok, pure_eq_ok] at habove
  obtain ⟨p, hp, hlt⟩ := habove
  have hle := (Price.callPrice_le_iff hp h.unrounded h.debt_pos h.collateral_pos h.ratio_pos
    h.feed).mpr h.below
  exact hle (of_decide_eq_true hlt.symm)

end Coverable

theorem orient_between {p : Price} (hne : c.collateralType ≠ c.debtType)
    (hp : p.Between c.debtType c.collateralType ∨ p.Between c.collateralType c.debtType) :
    (c.orient p).Between c.collateralType c.debtType := by
  rcases hp with hp | hp
  · have hflip : p.base.assetId ≠ c.callPrice.base.assetId := hp.base_asset ▸ Ne.symm hne
    rw [orient, if_pos hflip]
    exact ⟨hp.quote_asset, hp.base_asset, hp.quote_pos, hp.base_pos⟩
  · have hsame : p.base.assetId = c.callPrice.base.assetId := hp.base_asset
    rw [orient, if_neg (not_not.mpr hsame)]
    exact hp

theorem orient_inverse {p : Price} (hne : c.collateralType ≠ c.debtType)
    (hp : p.Between c.debtType c.collateralType) : c.orient p = p.inverse := by
  have hflip : p.base.assetId ≠ c.callPrice.base.assetId := hp.base_asset ▸ Ne.symm hne
  rw [orient, if_pos hflip]

/-- The call price of the order is for a ratio up to the maintenance ratio and is not above the
feed. -/
structure Called (c : CallOrder) (feed : PriceFeed) (ratio : Nat) : Prop where
  ratio_pos : 0 < ratio
  ratio_le : ratio ≤ feed.maintenanceCollateralRatio
  priced : c.Priced ratio
  debt_pos : 0 < c.debt
  collateral_pos : 0 < c.collateral
  between : feed.settlementPrice.Between c.debtType c.collateralType
  called : c.callPrice ≤ feed.settlementPrice.inverse

namespace Called

variable {feed : PriceFeed} {ratio : Nat}

theorem assets_ne (h : c.Called feed ratio) : c.collateralType ≠ c.debtType :=
  (Price.callPrice_ids h.priced).1

theorem below (h : c.Called feed ratio) (hexact : c.Unrounded ratio) {tcr : Nat}
    (htcr : ratio ≤ tcr) :
    feed.settlementPrice.base.amount * (c.collateral * collateralRatioDenom) ≤
      feed.settlementPrice.quote.amount * (c.debt * tcr) := by
  have hbetween : feed.settlementPrice.inverse.Between c.collateralType c.debtType :=
    ⟨h.between.quote_asset, h.between.base_asset, h.between.quote_pos, h.between.base_pos⟩
  have hle := (Price.callPrice_le_iff h.priced hexact h.debt_pos h.collateral_pos h.ratio_pos
    hbetween).mp h.called
  refine hle.trans (mul_le_mul_of_nonneg_left ?_ (le_of_lt h.between.quote_pos))
  exact mul_le_mul_of_nonneg_left (Int.ofNat_le.mpr htcr) (le_of_lt h.debt_pos)

theorem getMaxDebtToCover_pos (h : c.Called feed ratio) {rounds : Nat} {x : Int}
    (hmatched : mp.Between c.debtType c.collateralType ∨ mp.Between c.collateralType c.debtType)
    (hexact : ∀ target, c.targetCollateralRatio = some target → c.Unrounded ratio ∧
      c.Unrounded (max target feed.maintenanceCollateralRatio))
    (hx : c.getMaxDebtToCover rounds mp feed.settlementPrice feed.maintenanceCollateralRatio =
      .ok x) : 0 < x := by
  have hpositive : 0 < mp.base.amount ∧ 0 < mp.quote.amount := by
    rcases hmatched with hmp | hmp
    · exact ⟨hmp.base_pos, hmp.quote_pos⟩
    · exact ⟨hmp.base_pos, hmp.quote_pos⟩
  have hcases := getMaxDebtToCover_cases h.assets_ne h.debt_pos hpositive.1 hpositive.2
    h.between.base_pos h.between.quote_pos hx
  rw [orient_inverse h.assets_ne h.between] at hcases
  rcases hcases with ⟨hprotected, -⟩ | ⟨-, -, rfl⟩ | ⟨target, -, htarget, hcase⟩
  · exact absurd hprotected h.called
  · exact h.debt_pos
  · obtain ⟨hratio, htcr⟩ := hexact target htarget
    have hle : ratio ≤ max target feed.maintenanceCollateralRatio :=
      h.ratio_le.trans (le_max_right _ _)
    have hbelow := h.below hratio hle
    have hcoverable : c.Coverable (c.orient mp) feed.settlementPrice.inverse
        (max target feed.maintenanceCollateralRatio) :=
      { debt_pos := h.debt_pos
        collateral_pos := h.collateral_pos
        ratio_pos := lt_of_lt_of_le h.ratio_pos hle
        assets_ne := h.assets_ne
        matched := orient_between h.assets_ne hmatched
        feed := ⟨h.between.quote_asset, h.between.base_asset, h.between.quote_pos,
          h.between.base_pos⟩
        below := hbelow
        unrounded := htcr }
    rcases hcase with ⟨-, hprotected | habove⟩ | rfl | ⟨pay, hinner, -⟩
    · exact absurd hprotected (not_lt.mpr hbelow)
    · exact absurd habove hcoverable.not_aboveTarget
    · exact h.debt_pos
    · exact hinner.cover_pos

end Called

/-- No ratio up to the target rounds the call price of an order that has a target. -/
def TargetUnrounded (c : CallOrder) (feed : PriceFeed) : Prop :=
  ∀ target, c.targetCollateralRatio = some target →
    ∀ ratio ≤ max target feed.maintenanceCollateralRatio, c.Unrounded ratio

/-- The collateral at the feed is not above the maintenance ratio. -/
def Undercollateralized (c : CallOrder) (feed : PriceFeed) : Prop :=
  c.collateral * feed.settlementPrice.base.amount * collateralRatioDenom ≤
    c.debt * feed.settlementPrice.quote.amount * feed.maintenanceCollateralRatio

instance (c : CallOrder) (feed : PriceFeed) : Decidable (c.Undercollateralized feed) :=
  inferInstanceAs (Decidable (_ ≤ _))

theorem Called.undercollateralized {feed : PriceFeed} {ratio : Nat} (h : c.Called feed ratio)
    (hexact : c.Unrounded ratio) : c.Undercollateralized feed := by
  have hbelow := h.below hexact h.ratio_le
  rw [Undercollateralized]
  calc c.collateral * feed.settlementPrice.base.amount * collateralRatioDenom
      = feed.settlementPrice.base.amount * (c.collateral * collateralRatioDenom) := by ring
    _ ≤ feed.settlementPrice.quote.amount * (c.debt * feed.maintenanceCollateralRatio) := hbelow
    _ = c.debt * feed.settlementPrice.quote.amount * feed.maintenanceCollateralRatio := by ring

theorem Called.covers_pos {feed : PriceFeed} {ratio rounds : Nat} {x : Int}
    (h : c.Called feed ratio)
    (hmatched : mp.Between c.debtType c.collateralType ∨ mp.Between c.collateralType c.debtType)
    (hexact : c.TargetUnrounded feed)
    (hx : c.getMaxDebtToCover rounds mp feed.settlementPrice feed.maintenanceCollateralRatio =
      .ok x) : 0 < x :=
  h.getMaxDebtToCover_pos hmatched (fun target htarget =>
    ⟨hexact target htarget ratio (h.ratio_le.trans (le_max_right _ _)),
      hexact target htarget _ le_rfl⟩) hx

end CallOrder

namespace Ledger

variable {N : Ledger}

/-- The call order `call` may be filled with a limit order in the ledger: its call price is that of
a ratio up to the current one and is not above the current feed, so when it is not rounded the
collateral is not above the maintenance ratio; and what it pays and receives is not nothing. -/
structure CalledFill (N : Ledger) (call : Nat) (pays receives : Asset) (c : CallOrder)
    (b : BitassetData) (ratio : Nat) : Prop where
  order : N.callOrders.find call = some c
  bitasset : N.bitasset c.debtType = .ok b
  called : c.Called b.currentFeed ratio
  undercollateralized : c.Unrounded ratio → c.Undercollateralized b.currentFeed
  moved : c.TargetUnrounded b.currentFeed → 0 < pays.amount ∧ 0 < receives.amount

theorem CalledFill.of_called {call : Nat} {pays receives : Asset} {c : CallOrder} {b : BitassetData}
    {ratio : Nat} (hc : N.callOrders.find call = some c) (hb : N.bitasset c.debtType = .ok b)
    (hcalled : c.Called b.currentFeed ratio)
    (hmoved : c.TargetUnrounded b.currentFeed → 0 < pays.amount ∧ 0 < receives.amount) :
    N.CalledFill call pays receives c b ratio :=
  ⟨hc, hb, hcalled, hcalled.undercollateralized, hmoved⟩

/-- Two orders are filled, and then the ledger is `N'`. -/
inductive Fills (N : Ledger) (call : Nat) (pays receives : Asset) (N' : Ledger) : Prop
  | matched {limit : Nat} {cull : Bool} {filled : Filled}
      (h : N.fillLimitAndCall limit call pays receives cull = .ok (filled, N'))
  | called {limit : Nat} {filled : Bool}
      (h : N.fillMarginCall call limit receives pays = .ok (filled, N'))

/-- Nothing is changed, or a call order that may be filled is filled with a limit order. -/
def Calls (N N' : Ledger) : Prop :=
  N' = N ∨ ∃ call pays receives, N.Fills call pays receives N' ∧
    ∃ c b ratio, N.CalledFill call pays receives c b ratio

theorem matchLimitAndCall_calls {rounds bid ask ratio : Nat} {p : Price} {c : CallOrder}
    {b : BitassetData} {r : Filled × Ledger} (hc : N.callOrders.find ask = some c)
    (hb : N.bitasset c.debtType = .ok b) (hcalled : c.Called b.currentFeed ratio)
    (hp : p.Between c.collateralType c.debtType)
    (h : matchLimitAndCall rounds N bid ask p b.currentFeed = .ok r) : N.Calls r.2 := by
  simp only [matchLimitAndCall, bind_eq_ok, demand_eq_ok, require_eq_ok, exists_const] at h
  obtain ⟨o, -, c', hc', -, -, -, toBuy, hbuy, h⟩ := h
  obtain rfl : c = c' := Option.some.inj (hc.symm.trans hc')
  split at h
  · simp only [bind_eq_ok] at h
    obtain ⟨orderReceives, hmul, h⟩ := h
    split at h
    · exact Or.inl (congrArg Prod.snd (pure_eq_ok.mp h))
    · rename_i hne
      simp only [bind_eq_ok] at h
      obtain ⟨callReceives, hround, h⟩ := h
      have hpays : 0 < orderReceives.amount := lt_of_le_of_ne (Asset.mul_nonneg hmul) (Ne.symm hne)
      exact Or.inr ⟨ask, _, _, .matched h, c, b, ratio, .of_called hc hb hcalled fun _ =>
        ⟨hpays, Asset.multiplyAndRoundUp_pos hround hpays hp.base_pos hp.quote_pos⟩⟩
  · simp only [bind_eq_ok] at h
    obtain ⟨orderReceives, hround, h⟩ := h
    refine Or.inr ⟨ask, _, _, .matched h, c, b, ratio, .of_called hc hb hcalled fun hexact => ?_⟩
    have hbuys := hcalled.covers_pos (Or.inr hp) hexact hbuy
    exact ⟨Asset.multiplyAndRoundUp_pos hround hbuys hp.base_pos hp.quote_pos, hbuys⟩

theorem marginCall_calls {rounds call limit ratio : Nat} {c : CallOrder} {b : BitassetData}
    {o : LimitOrder} {r : Bool × Ledger} (hc : N.callOrders.find call = some c)
    (hb : N.bitasset c.debtType = .ok b) (hcalled : c.Called b.currentFeed ratio)
    (ho : N.limitOrders.find limit = some o) (hvalid : o.sellPrice.Valid) (hdust : o.NotDust)
    (h : marginCall rounds N call limit b.currentFeed = .ok r) : N.Calls r.2 := by
  simp only [marginCall, bind_eq_ok, demand_eq_ok, Asset.less_eq_ok] at h
  obtain ⟨c', hc', o', ho', toBuy, hbuy, less, ⟨hsell, rfl⟩, h⟩ := h
  obtain rfl : c = c' := Option.some.inj (hc.symm.trans hc')
  obtain rfl : o = o' := Option.some.inj (ho.symm.trans ho')
  obtain ⟨hbase, hquote, hne⟩ := hvalid
  split at h
  · simp only [bind_eq_ok] at h
    obtain ⟨orderReceives, hmul, callReceives, hround, h⟩ := h
    have hpays : 0 < orderReceives.amount :=
      lt_of_le_of_ne (Asset.mul_nonneg hmul) (Ne.symm (hdust _ hmul))
    exact Or.inr ⟨call, _, _, .called h, c, b, ratio, .of_called hc hb hcalled fun _ =>
      ⟨hpays, Asset.multiplyAndRoundUp_pos hround hpays hbase hquote⟩⟩
  · simp only [bind_eq_ok] at h
    obtain ⟨orderReceives, hround, h⟩ := h
    refine Or.inr ⟨call, _, _, .called h, c, b, ratio, .of_called hc hb hcalled fun hexact => ?_⟩
    -- the limit order sells the debt for the collateral, or the fill would have thrown
    have hbetween : o.sellPrice.Between c.debtType c.collateralType := by
      refine ⟨hsell, ?_, hbase, hquote⟩
      have hfill := h
      simp only [fillMarginCall, fillCallOrder, bind_eq_ok, demand_eq_ok, require_eq_ok,
        exists_const] at hfill
      obtain ⟨closed, ⟨c', hc', -, hcollateral, -⟩, -⟩ := hfill
      obtain rfl : c = c' := Option.some.inj (hc.symm.trans hc')
      rw [Asset.multiplyAndRoundUp_base (a := ⟨toBuy, c.debtType⟩) hsell.symm] at hround
      obtain ⟨-, -, -, rfl⟩ := convert_eq_ok.mp hround
      exact hcollateral.symm
    have hbuys := hcalled.covers_pos (Or.inl hbetween) hexact hbuy
    exact ⟨Asset.multiplyAndRoundUp_pos hround hbuys hbase hquote, hbuys⟩

/-! ### The rounds of the two loops -/

/-- A round of the margin calls of `apply_order`, in a ledger in which the prices of the new order
are those of `o`. -/
theorem matchCallsRound_calls {rounds id : Nat} {callMin p : Price} {feed : PriceFeed}
    {o u : LimitOrder} {b : BitassetData} {r : Ledger ⊕ Bool × Ledger} (hs : Shape N)
    (hpriced : PricedWithin (· ≤ ·) N) (hu : N.limitOrders.find id = some u)
    (hprice : u.sellPrice = o.sellPrice) (hb : N.bitasset o.sellAssetId = .ok b)
    (hfeed : b.currentFeed = feed) (hp : p.Between o.receiveAssetId o.sellAssetId)
    (hbetween : feed.settlementPrice.Between o.sellAssetId o.receiveAssetId)
    (hbacking : b.options.shortBackingAsset = o.receiveAssetId)
    (h : matchCallsRound rounds id callMin p feed N = .ok r) :
    N.Calls (r.elim (fun M => M) Prod.snd) := by
  simp only [matchCallsRound, bind_eq_ok, demand_eq_ok] at h
  obtain ⟨u', hu', h⟩ := h
  obtain rfl : u = u' := Option.some.inj (hu.symm.trans hu')
  split at h
  · exact Or.inl (pure_eq_ok.mp h ▸ rfl)
  · rename_i call rest hcalls
    split at h
    · exact Or.inl (pure_eq_ok.mp h ▸ rfl)
    · rename_i hcalled
      simp only [not_or, not_not] at hcalled
      obtain ⟨hdebt, hcalled⟩ := hcalled
      simp only [bind_eq_ok] at h
      obtain ⟨m, hm, h⟩ := h
      have hc : N.callOrders.find call.1 = some call.2 := by
        have hmem : call ∈ N.callOrdersFrom callMin := hcalls ▸ List.mem_cons_self ..
        exact mem_sortRows.mp (List.mem_filter.mp hmem).1
      have hsell : call.2.debtType = o.sellAssetId := by
        rw [hdebt, LimitOrder.sellAssetId, hprice]
        rfl
      have hsound := hs.callOrders call.1 call.2 hc
      obtain ⟨b', hb', hback, -⟩ := hsound.backed
      obtain rfl : b' = b := Except.ok.inj (hb'.symm.trans (hsell.symm ▸ hb))
      have hreceive : call.2.collateralType = o.receiveAssetId := hback.symm.trans hbacking
      obtain ⟨ratio, hpos, hle, hratio⟩ := hpriced call.1 call.2 hc b' hb'
      rw [← hfeed] at hm hbetween hcalled
      rw [← hsell, ← hreceive] at hbetween hp
      have hmatched := matchLimitAndCall_calls hc hb'
        ⟨hpos, hle, hratio, hsound.debt_pos, hsound.collateral_pos, hbetween, hcalled⟩ hp hm
      split at h <;> exact pure_eq_ok.mp h ▸ hmatched

/-- A round of `check_call_orders` reaches the margin call of a call order with a limit order. -/
structure CallReached (mia : AssetId) (enable : Bool) (callMin callMax : Price) (s : Calling)
    (call : Nat × CallOrder) (limit : Nat) (book : List Nat) (o : LimitOrder) (b : BitassetData) :
    Prop where
  swan : s.ledger.checkForBlackswan mia enable = .ok (false, s.ledger)
  first : ∃ rest, s.ledger.callOrdersBetween callMin callMax = call :: rest
  book : s.book = limit :: book
  limit : s.ledger.limitOrders.find limit = some o
  valid : o.sellPrice.Valid
  bitasset : s.ledger.bitasset mia = .ok b
  called : ¬call.2.callPrice.inverse < b.currentFeed.settlementPrice

namespace CallReached

variable {mia : AssetId} {enable : Bool} {callMin callMax : Price} {s : Calling}
  {call : Nat × CallOrder} {limit : Nat} {book : List Nat} {o : LimitOrder} {b : BitassetData}

theorem find (h : CallReached mia enable callMin callMax s call limit book o b) :
    s.ledger.callOrders.find call.1 = some call.2 := by
  obtain ⟨rest, hcalls⟩ := h.first
  exact (mem_callOrdersBetween.mp (hcalls ▸ List.mem_cons_self ..)).1

theorem types {backing : AssetId} (h : CallReached mia enable callMin callMax s call limit book o b)
    (hmin : Price.smallest backing mia = .ok callMin)
    (hmax : Price.greatest backing mia = .ok callMax) :
    call.2.collateralType = backing ∧ call.2.debtType = mia := by
  obtain ⟨rest, hcalls⟩ := h.first
  obtain ⟨-, hge, hle⟩ := mem_callOrdersBetween.mp (hcalls ▸ List.mem_cons_self ..)
  exact Price.assets_of_between hmin hmax hge hle

theorem callPrice_le {backing : AssetId}
    (h : CallReached mia enable callMin callMax s call limit book o b)
    (hmin : Price.smallest backing mia = .ok callMin)
    (hmax : Price.greatest backing mia = .ok callMax)
    (hfeed : b.currentFeed.settlementPrice.Between mia backing) :
    call.2.callPrice ≤ b.currentFeed.settlementPrice.inverse := by
  obtain ⟨hcollateral, hdebt⟩ := h.types hmin hmax
  exact fun hlt => h.called ((Price.lt_inverse_comm (a := call.2.callPrice.inverse)
    (b := b.currentFeed.settlementPrice.inverse) (hdebt.trans hfeed.base_asset.symm)
    (hcollateral.trans hfeed.quote_asset.symm)).mpr hlt)

end CallReached

theorem checkCallRound_reached {rounds : Nat} {mia : AssetId} {enable : Bool} {b : BitassetData}
    {callMin callMax : Price} {s s' : Calling} (hb : s.ledger.bitasset mia = .ok b)
    (h : checkCallRound rounds mia enable callMin callMax s = .ok (.inl s')) :
    ∃ call limit book o r, CallReached mia enable callMin callMax s call limit book o b ∧
      marginCall rounds s.ledger call.1 limit b.currentFeed = .ok r ∧
      s' = ⟨r.2, if r.1 then book else limit :: book, true⟩ := by
  simp only [checkCallRound, bind_eq_ok] at h
  obtain ⟨swan, hswan, h⟩ := h
  split at h
  · cases pure_eq_ok.mp h
  · rename_i hfalse
    obtain ⟨flag, M⟩ := swan
    obtain rfl : flag = false := by simpa using hfalse
    obtain ⟨rfl, -⟩ := checkForBlackswan_false hb hswan
    split at h
    · cases pure_eq_ok.mp h
    · cases pure_eq_ok.mp h
    · rename_i call rest limit book hcalls hbook
      simp only [bind_eq_ok, demand_eq_ok, require_eq_ok, exists_const] at h
      obtain ⟨o, ho, hvalid, b', hb', h⟩ := h
      obtain rfl : b' = b := Except.ok.inj (hb'.symm.trans hb)
      split at h
      · cases pure_eq_ok.mp h
      · rename_i hcalled
        simp only [bind_eq_ok] at h
        obtain ⟨cost, -, less, -, h⟩ := h
        split at h
        · simp only [bind_eq_ok, pure_eq_ok] at h
          obtain ⟨-, -, M, -, he⟩ := h
          cases he
        · simp only [bind_eq_ok, pure_eq_ok] at h
          obtain ⟨r, hr, he⟩ := h
          cases he
          exact ⟨call, limit, book, o, r, ⟨hswan, ⟨rest, hcalls⟩, hbook, ho, hvalid, hb, hcalled⟩,
            hr, rfl⟩

theorem checkCallRound_calls {rounds : Nat} {mia : AssetId} {enable : Bool} {b : BitassetData}
    {callMin callMax : Price} {s s' : Calling} (hs : Shape s.ledger)
    (hb : s.ledger.bitasset mia = .ok b)
    (hpriced : PricedWithin (· ≤ ·) s.ledger) (hresting :
      RestingBut (fun _ => True) noOrder s.ledger)
    (hfeed : b.currentFeed.settlementPrice.Between mia b.options.shortBackingAsset)
    (hmin : Price.smallest b.options.shortBackingAsset mia = .ok callMin)
    (hmax : Price.greatest b.options.shortBackingAsset mia = .ok callMax)
    (h : checkCallRound rounds mia enable callMin callMax s = .ok (.inl s')) :
    s.ledger.Calls s'.ledger := by
  obtain ⟨call, limit, book, o, r, hreached, hr, rfl⟩ := checkCallRound_reached hb h
  obtain ⟨hcollateral, hdebt⟩ := hreached.types hmin hmax
  have hsound := hs.callOrders call.1 call.2 hreached.find
  have hbc : s.ledger.bitasset call.2.debtType = .ok b := by
    rw [hdebt]
    exact hb
  obtain ⟨ratio, hpos, hratioLe, hratio⟩ := hpriced call.1 call.2 hreached.find b hbc
  have hbetween : b.currentFeed.settlementPrice.Between call.2.debtType call.2.collateralType := by
    rw [hdebt, hcollateral]
    exact hfeed
  have hdust := (hresting limit o hreached.limit).2.resolve_left not_false
  exact marginCall_calls hreached.find hbc ⟨hpos, hratioLe, hratio, hsound.debt_pos,
    hsound.collateral_pos, hbetween, hreached.callPrice_le hmin hmax hfeed⟩ hreached.limit
    hreached.valid hdust hr

end Ledger

/-! ### The ledgers in which margin calls are executed -/

/-- A step from the ledger `L` calls `check_call_orders` for an asset in another ledger: after an
update of a position, after a publication and what it revives, when feeds expire, and when the
producers of the feeds change. -/
inductive ChecksCalls (L : Ledger) : Ledger → AssetId → Prop
  | callOrderUpdate {op : CallOrderUpdate} {skip : Bool} {core : Int} {L1 L2 M : Ledger}
      {u : Nat × Option CallOrder × CallOrder × Ledger}
      (hcore : L.evaluateFee op.fundingAccount op.fee L.parameters.callOrderUpdateFee skip =
        .ok core)
      (heval : op.doEvaluate L = .ok ()) (hconvert : L.convertFee op.fee core = .ok L1)
      (hpay : L1.payFee op.fundingAccount core = .ok L2) (hmove : op.moveFunds L2 = .ok M)
      (hupdate : op.updateOrder M = .ok u) (hpos : 0 < u.2.2.1.collateral ∧ 0 < u.2.2.1.debt) :
      ChecksCalls L u.2.2.2 op.deltaDebt.assetId
  | assetPublishFeed {op : AssetPublishFeed} {skip : Bool} {core : Int} {L1 L2 N M : Ledger}
      (hvalid : op.Valid)
      (hcore : L.evaluateFee op.publisher op.fee L.parameters.assetPublishFeedFee skip = .ok core)
      (heval : op.doEvaluate L = .ok ()) (hconvert : L.convertFee op.fee core = .ok L1)
      (hpay : L1.payFee op.publisher core = .ok L2)
      (hstore : L2.modifyBitasset op.assetId (fun b => (b.setFeed ⟨op.publisher, L2.headBlockTime,
        op.feed⟩).updateMedianFeeds L2.headBlockTime) = .ok N)
      (hrevive : M = N ∨ N.reviveBitasset op.assetId = .ok M) : ChecksCalls L M op.assetId
  | updateExpiredFeed {mia : AssetId} {M : Ledger}
      (h : L.modifyBitasset mia (fun b => b.updateMedianFeeds L.headBlockTime) = .ok M) :
      ChecksCalls L M mia
  | updateFeedProducers {mia : AssetId} {producers : List AccountId} {M : Ledger}
      (h : L.modifyBitasset mia (fun b => (b.setFeedProducers producers).updateMedianFeeds
        L.headBlockTime) = .ok M) : ChecksCalls L M mia

/-- A step from the ledger `L` takes the ledger `N` to `N'` by a round of margin calls: of
`apply_order`, after the new order has been matched with some limit orders and call orders, or of
`check_call_orders`, after some of its rounds. -/
inductive CallsRound (L : Ledger) : Ledger → Ledger → Prop
  | applyOrder {op : LimitOrderCreate} {rounds : Nat} {skip : Bool} {placed : Nat × Ledger}
      {o : LimitOrder} {p callMin : Price} {feed : PriceFeed} {N : Ledger}
      {r : Ledger ⊕ Bool × Ledger} (hplace : op.place skip L = .ok placed)
      (ho : placed.2.limitOrders.find placed.1 = some o)
      (hprice : placed.2.callMatchPrice o = .ok (some (p, feed)))
      (hmatching : Matching rounds placed.1 placed.2 N)
      (hround : matchCallsRound rounds placed.1 callMin p feed N = .ok r) :
      CallsRound L N (r.elim (fun M => M) Prod.snd)
  | checkCallOrders {M : Ledger} {mia : AssetId} {b : BitassetData} {rounds : Nat} {enable : Bool}
      {callMin callMax : Price} {book : List Nat} {s s' : Calling} (hcheck : ChecksCalls L M mia)
      (hb : M.bitasset mia = .ok b) (hfeed : b.currentFeed.settlementPrice.isNull = false)
      (hmin : Price.smallest b.options.shortBackingAsset mia = .ok callMin)
      (hmax : Price.greatest b.options.shortBackingAsset mia = .ok callMax)
      (hrounds : Relation.ReflTransGen (fun s s' =>
        checkCallRound rounds mia enable callMin callMax s =
        .ok (.inl s')) ⟨M, book, false⟩ s)
      (hround : checkCallRound rounds mia enable callMin callMax s = .ok (.inl s')) :
      CallsRound L s.ledger s'.ledger

variable {L L' M : Ledger} {mia : AssetId}

namespace ChecksCalls

theorem adjusts (h : ChecksCalls L M mia) : Adjusts L M := by
  cases h with
  | callOrderUpdate hcore heval hconvert hpay hmove hupdate hpos =>
    have hfees := (convertFee_funds hconvert).trans (modifyStatistics_funds hpay)
    have hmoved := hfees.trans (CallOrderUpdate.moveFunds_funds hmove)
    have haccount := hmoved.accounts _ (evaluateFee_exists hcore).1
    obtain ⟨hupdated, -⟩ := CallOrderUpdate.updateOrder_changes haccount hupdate
    exact Or.inl (hmoved.changes.trans (hupdated hpos.2))
  | @assetPublishFeed op skip core L1 L2 N M hvalid hcore heval hconvert hpay hstore hrevive =>
    have hfees := (convertFee_funds hconvert).trans (modifyStatistics_funds hpay)
    refine Or.inr ⟨L2, N, hfees,
      AssetPublishFeed.storeFeed_adjustment hvalid heval hfees hstore, ?_⟩
    rcases hrevive with rfl | hrevive
    · exact Relation.ReflTransGen.refl
    · exact reviveBitasset_changes hrevive
  | updateExpiredFeed h =>
    obtain ⟨b, hb, -⟩ := bind_eq_ok.mp h
    exact Or.inr ⟨L, M, Funds.refl L, modifyFeed_adjustment BitassetData.feeds hb h
      fun _ hf => Or.inl hf, Relation.ReflTransGen.refl⟩
  | @updateFeedProducers _ producers _ h =>
    obtain ⟨b, hb, -⟩ := bind_eq_ok.mp h
    refine Or.inr ⟨L, M, Funds.refl L, modifyFeed_adjustment
      (fun b => (b.setFeedProducers producers).feeds) hb h fun f hf =>
        ?_, Relation.ReflTransGen.refl⟩
    rcases BitassetData.mem_setFeedProducers hf with hold | hnone
    · exact Or.inl hold
    · exact Or.inr (Or.inl hnone)

theorem shape (hL : Balanced L) (h : ChecksCalls L M mia) : Shape M := by
  cases h with
  | callOrderUpdate hcore heval hconvert hpay hmove hupdate hpos =>
    have hcharged := chargeFee_pays (evaluateFee_prepared hcore) hconvert hpay
    have hs := (hcharged.turn hL.shape (OnAssets.credit _)).shape
    simp only [CallOrderUpdate.doEvaluate, bind_eq_ok, require_eq_ok, exists_const] at heval
    obtain ⟨b, hb, hunsettled, hbacking, -⟩ := heval
    have hkeeps := (CallOrderUpdate.updateOrder_keeps hs ((hcharged.bitasset _).trans hb) hunsettled
      hbacking hmove hupdate).2
    exact (hkeeps hpos.1 hpos.2).shape
  | @assetPublishFeed op skip core L1 L2 N M hvalid hcore heval hconvert hpay hstore hrevive =>
    have hcharged := chargeFee_pays (evaluateFee_prepared hcore) hconvert hpay
    have hs := (hcharged.turn hL.shape (OnAssets.credit _)).shape
    have hstored := modifyBitasset_keeps hs hstore (fun _ _ => rfl) (fun _ => rfl) (fun _ => rfl)
    rcases hrevive with rfl | hrevive
    · exact hstored.shape
    · refine (reviveBitasset_keeps hstored.shape ?_ hrevive).shape
      obtain ⟨old, hold, -⟩ := bind_eq_ok.mp hstore
      simp only [reviveBitasset, bind_eq_ok, require_eq_ok, exists_const] at hrevive
      obtain ⟨a, -, b, hb, hset, -⟩ := hrevive
      rw [modifyBitasset_self hold hstore] at hb
      obtain rfl := Except.ok.inj hb
      rw [modifyBitasset_supply hstore,
        hcharged.supply _ old ((hcharged.bitasset _).symm.trans hold) hset]
      exact Balanced.supply_nonneg hL _
  | updateExpiredFeed h =>
    exact (modifyBitasset_keeps hL.shape h (fun _ _ => rfl) (fun _ => rfl) (fun _ => rfl)).shape
  | updateFeedProducers h =>
    exact (modifyBitasset_keeps hL.shape h (fun _ _ => rfl) (fun _ => rfl) (fun _ => rfl)).shape

end ChecksCalls

theorem RestingBut.adjusts {P : LimitOrder → Prop}
    (hfill : ∀ (o : LimitOrder) (pays : Asset), P o → 0 ≤ pays.amount → P (o.afterFill pays))
    (h : RestingBut P noOrder L) (hadjusts : Adjusts L L') : RestingBut P noOrder L' := by
  refine hadjusts.invariant (fun M M' hM hchange => (hM.change hfill hchange not_false).1)
    (fun M M' hM hadjust => ?_) h
  cases hadjust <;> exact hM

theorem LimitOrderCreate.place_changes {op : LimitOrderCreate} {skip : Bool} {placed : Nat × Ledger}
    (h : op.place skip L = .ok placed) : Changes (· = placed.1) L placed.2 := by
  obtain ⟨M, o, hplaces, rfl⟩ := op.place_spec h
  exact hplaces.funds.changes.tail (.createLimitOrder M o rfl hplaces.seller hplaces.sell
    hplaces.receive hplaces.paid)

theorem ChecksCalls.fed (h : ChecksCalls L M mia) (hfed : Fed L) : Fed M :=
  h.adjusts.invariant (fun _ _ hM hc => hM.change hc) (fun _ _ hM ha => hM.adjustment ha) hfed

theorem ChecksCalls.valid {L₀ : Ledger} (h₀ : Genesis L₀) (hrun : Run L₀ L)
    (h : ChecksCalls L M mia) : RestingBut (fun o => o.sellPrice.Valid) noOrder M :=
  (Run.resting h₀ hrun).adjusts (fun _ _ hvalid _ => hvalid) h.adjusts

theorem ChecksCalls.resting {L₀ : Ledger} (h₀ : Genesis L₀) (hrun : Run L₀ L)
    (h : ChecksCalls L M mia) : RestingBut (fun _ => True) noOrder M :=
  fun id o ho => ⟨trivial, (h.valid h₀ hrun id o ho).2⟩

/-- In every ledger that a run reaches whose steps do not lower the maintenance ratio of an asset
with positions, a round of margin calls fills only call orders whose collateral is not above the
current maintenance ratio at the current feed, up to the rounding of the call price, and what is
filled is not nothing unless that rounding hides the target ratio. -/
theorem margin_calls_respect_feed {L₀ N N' : Ledger} (h₀ : Genesis L₀)
    (hrun : RunWhere (RatiosKept (· ≤ ·)) L₀ L) (hkept : RatiosKept (· ≤ ·) L N)
    (h : CallsRound L N N') : N.Calls N' := by
  have hbalanced := Run.balanced h₀.balanced hrun.run
  have hpriced := hrun.pricedWithin (fun _ => le_refl _) (fun h h' => h.trans h') h₀
  have hfed := Run.fed h₀.balanced h₀.fed hrun.run
  cases h with
  | @applyOrder op rounds skip placed o p callMin feed N r hplace ho hprice hmatching hround =>
    have hplacing := op.place_changes hplace
    have hchanges := hplacing.trans hmatching.changes
    have hfed' : Fed placed.2 := hplacing.invariant (fun _ _ hM hc => hM.change hc) hfed
    obtain ⟨hbetween, -, hfeed, b, hb, hcurrent, hbacking, -⟩ := callMatchPrice_spec hfed' hprice
    obtain ⟨b', hb', hoptions, -, hcurrent', -⟩ := bitasset_of_terms (hmatching.changes.terms _) hb
    obtain ⟨u, hu, -⟩ := bind_eq_ok.mp hround
    have hsame := KeepsOrders.loose_sellPrice ho hmatching.changes (demand_eq_ok.mp hu)
    exact matchCallsRound_calls
      (hmatching.shape (op.place_turn hbalanced.shape hplace).shape)
      (hpriced.changes (fun _ => le_refl _) hchanges) (demand_eq_ok.mp hu) hsame hb'
      (hcurrent'.trans hcurrent) hbetween hfeed (by rw [hoptions]; exact hbacking) hround
  | @checkCallOrders M mia b rounds enable callMin callMax book s s' hcheck hb hfeed hmin hmax
      hrounds hround =>
    have hreached : Changes noOrder M s.ledger ∧ Shape s.ledger := by
      clear hkept hround
      induction hrounds with
      | refl => exact ⟨Relation.ReflTransGen.refl, hcheck.shape hbalanced⟩
      | tail _ hstep ih =>
        exact ⟨ih.1.trans (checkCallRound_changes hstep), (checkCallRound_keeps ih.2 hstep).shape⟩
    obtain ⟨hchanges, hs⟩ := hreached
    have hpricedM := hcheck.adjusts.pricedWithin (fun _ => le_refl _) (fun h h' => h.trans h')
      hbalanced hpriced (hkept.of_changes hchanges)
    have hfedM := hcheck.fed hfed
    have hresting := (hcheck.resting h₀ hrun.run).changes (fun _ _ _ _ => trivial) hchanges
      fun _ hj => absurd hj not_false
    obtain ⟨b', hb', hoptions, -, hcurrent, -⟩ := bitasset_of_terms (hchanges.terms _) hb
    have hbetween := (hfedM mia b hb).current.resolve_left (by simp [hfeed])
    rw [← hcurrent, ← hoptions] at hbetween
    rw [← hoptions] at hmin hmax
    exact checkCallRound_calls hs hb' (hpricedM.changes (fun _ => le_refl _) hchanges) hresting
      hbetween hmin hmax hround

/-- A publication up to the first round of margin calls: the ledgers before and after the round. -/
def publishRound (op : AssetPublishFeed) (book : List Nat) (L : Ledger) :
    Attempt (Ledger × Ledger) := do
  require op.Valid
  let core ← L.evaluateFee op.publisher op.fee L.parameters.assetPublishFeedFee false
  op.doEvaluate L
  let L1 ← L.convertFee op.fee core
  let L2 ← L1.payFee op.publisher core
  let N ← L2.modifyBitasset op.assetId fun b => (b.setFeed ⟨op.publisher, L2.headBlockTime,
    op.feed⟩).updateMedianFeeds L2.headBlockTime
  let b ← N.bitasset op.assetId
  require (b.currentFeed.settlementPrice.isNull = false)
  let callMin ← Price.smallest b.options.shortBackingAsset op.assetId
  let callMax ← Price.greatest b.options.shortBackingAsset op.assetId
  match ← checkCallRound 5 op.assetId true callMin callMax ⟨N, book, false⟩ with
  | .inl s => pure (N, s.ledger)
  | .inr _ => .error .thrown

theorem publishRound_callsRound {op : AssetPublishFeed} {book : List Nat} {r : Ledger × Ledger}
    (h : publishRound op book L = .ok r) : CallsRound L r.1 r.2 := by
  simp only [publishRound, bind_eq_ok, require_eq_ok, exists_const] at h
  obtain ⟨hvalid, core, hcore, u, heval, L1, hconvert, L2, hpay, N, hstore, b, hb, hfeed, callMin,
    hmin, callMax, hmax, round, hround, h⟩ := h
  cases round with
  | inl s =>
    obtain rfl := pure_eq_ok.mp h
    exact .checkCallOrders (.assetPublishFeed hvalid hcore heval hconvert hpay hstore (Or.inl rfl))
      hb hfeed hmin hmax Relation.ReflTransGen.refl hround
  | inr x => cases h

def sellPar (receive : Int) : Operation :=
  .limitOrderCreate ⟨⟨0, 0⟩, 0, ⟨50, 1⟩, ⟨receive, 0⟩, 1700000000, false⟩

/-- The price falls and a position is called, with the ratio as it was. -/
theorem margin_calls_respect_feed_par : ∃ L N N', parLedger.performKeeping (· ≤ ·) 5
      [borrowPar 0 210, sellPar 60] = .ok L ∧
    publishRound ⟨⟨0, 0⟩, 1, 1, parFeed 100 125 1750 (by decide)⟩ [0] L = .ok (N, N') ∧
    (∃ c c', N.callOrders.find 0 = some c ∧ N'.callOrders.find 0 = some c' ∧ c'.debt < c.debt) ∧
    N.Calls N' := by
  have hrun : (parLedger.performKeeping (· ≤ ·) 5 [borrowPar 0 210, sellPar 60]).toOption.any
      (fun L => (publishRound ⟨⟨0, 0⟩, 1, 1, parFeed 100 125 1750 (by decide)⟩ [0] L).toOption.any
        fun r => RatiosKept (· ≤ ·) L r.1 ∧ (r.1.callOrders.find 0).any fun c =>
          (r.2.callOrders.find 0).any fun c' => c'.debt < c.debt) = true := by decide +kernel
  obtain ⟨L, hL, hstate⟩ := exists_ok_of_any hrun
  obtain ⟨⟨N, N'⟩, hround, hstate⟩ := exists_ok_of_any hstate
  obtain ⟨hkept, hstate⟩ := of_decide_eq_true hstate
  obtain ⟨c, hc, hstate⟩ := (Option.any_eq_true _ _).mp hstate
  obtain ⟨c', hc', hless⟩ := (Option.any_eq_true _ _).mp hstate
  exact ⟨L, N, N', hL, hround, ⟨c, c', hc, hc', of_decide_eq_true hless⟩,
    margin_calls_respect_feed parLedger_genesis (performKeeping_run hL) hkept
      (publishRound_callsRound hround)⟩

/-- A publication lowers the ratio, and a position that was opened at the old ratio is called
although its collateral is above the new one. -/
theorem protected_position_called : ∃ L₀ L N N' c c' b, Genesis L₀ ∧ Run L₀ L ∧ CallsRound L N N' ∧
    N.bitasset 1 = .ok b ∧ N.callOrders.find 0 = some c ∧ N'.callOrders.find 0 = some c' ∧
    c'.debt < c.debt ∧ (∀ ratio ≤ 2000, c.Unrounded ratio) ∧
    ¬c.Undercollateralized b.currentFeed := by
  have hrun : (parLedger.perform 5 [publishPar (parFeed 1 1 2000 (by decide)), borrowPar 0 210,
      sellPar 58]).toOption.any (fun L =>
        (publishRound ⟨⟨0, 0⟩, 1, 1, parFeed 100 110 1750 (by decide)⟩ [0] L).toOption.any fun r =>
          (r.1.bitasset 1).toOption.any fun b => (r.1.callOrders.find 0).any fun c =>
            (r.2.callOrders.find 0).any fun c' => c'.debt < c.debt ∧ c.debt = 100 ∧
              c.collateral = 210 ∧ ¬c.Undercollateralized b.currentFeed) = true := by
    decide +kernel
  obtain ⟨L, hL, hstate⟩ := exists_ok_of_any hrun
  obtain ⟨⟨N, N'⟩, hround, hstate⟩ := exists_ok_of_any hstate
  obtain ⟨b, hb, hstate⟩ := exists_ok_of_any hstate
  obtain ⟨c, hc, hstate⟩ := (Option.any_eq_true _ _).mp hstate
  obtain ⟨c', hc', hstate⟩ := (Option.any_eq_true _ _).mp hstate
  obtain ⟨hless, hdebt, hcollateral, hprotected⟩ := of_decide_eq_true hstate
  refine ⟨parLedger, L, N, N', c, c', b, parLedger_genesis, perform_run hL,
    publishRound_callsRound hround, hb, hc, hc', hless, fun ratio hratio => ?_, hprotected⟩
  refine CallOrder.unrounded_of_le (by rw [hdebt]; decide) (by rw [hcollateral]; decide) ?_
    (by rw [hcollateral]; decide)
  rw [hdebt, maxShareSupply]
  omega

end Nestchain.Market
