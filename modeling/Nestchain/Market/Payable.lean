import Nestchain.Market.CoverSpec
import Nestchain.Market.Progress

/-! What a call order is asked to pay.  A match pays at most the collateral when the collateral is
enough for the whole debt at the price of the match, and a partial fill keeps it so: a fill for what
a limit order has for sale keeps the ratio, and after a fill up to the target ratio the position is
protected by the feed. -/

namespace Nestchain.Market

open Lib Ledger

namespace CallOrder

variable {c c' : CallOrder} {mp fp : Price} {tcr : Nat}

/-! ### What the search for the debt to cover reaches -/

/-- The debt that is covered costs at most what is paid. -/
def Paid (c : CallOrder) (mp : Price) (x : Cover) : Prop :=
  ∀ y, c.payOf mp x.toCover = .ok y → y ≤ x.toPay

/-- A cover leaves some of the position, above the target. -/
structure Reaches (c : CallOrder) (mp fp : Price) (tcr : Nat) (x : Cover) : Prop where
  paid : c.Paid mp x
  pay_lt : x.toPay < c.collateral
  cover_lt : x.toCover < c.debt
  above : c.aboveTarget fp tcr x = .ok true

theorem paid_of_payOf {x y : Int} (h : c.payOf mp x = .ok y) : c.Paid mp ⟨y, x⟩ :=
  fun _ hz => le_of_eq (Except.ok.inj (hz.symm.trans h))

theorem getMaxDebtToCover_target {rounds mcr : Nat} {x : Int} (hne : c.collateralType ≠ c.debtType)
    (hdebt : 0 < c.debt) (hmpBase : 0 < mp.base.amount) (hmpQuote : 0 < mp.quote.amount)
    (hfpBase : 0 < fp.base.amount) (hfpQuote : 0 < fp.quote.amount)
    (h : c.getMaxDebtToCover rounds mp fp mcr = .ok x) :
    x = 0 ∨ x = c.debt ∨ ∃ target toPay, c.targetCollateralRatio = some target ∧
      c.Reaches (c.orient mp) (c.orient fp) (max target mcr) ⟨toPay, x⟩ := by
  rcases getMaxDebtToCover_cases hne hdebt hmpBase hmpQuote hfpBase hfpQuote h with
    ⟨-, hzero⟩ | ⟨-, -, hall⟩ | ⟨target, -, htarget, ⟨hzero, -⟩ | hall | ⟨toPay, hinner, habove⟩⟩
  · exact Or.inl hzero
  · exact Or.inr (Or.inl hall)
  · exact Or.inl hzero
  · exact Or.inr (Or.inl hall)
  · exact Or.inr (Or.inr ⟨target, toPay, htarget, paid_of_payOf hinner.settled.pays, hinner.pay_lt,
      hinner.cover_lt, habove⟩)

theorem Reaches.protected {target mcr : Nat} {x toPay pays : Int}
    (h : c.Reaches mp fp (max target mcr) ⟨toPay, x⟩) (hsmall : c.Small)
    (htarget : c.targetCollateralRatio = some target) (hmcr : 0 < mcr)
    (hmax : mcr ≤ maxCollateralRatio) (hfp : fp.Between c.collateralType c.debtType)
    (hx : 0 ≤ x) (hpays : 0 ≤ pays) (hle : pays ≤ toPay) (hleft : c.Left c' pays x mcr) :
    ¬c'.callPrice ≤ fp := by
  obtain ⟨-, hpayLt, hcoverLt, habove⟩ := h
  simp only at hpayLt hcoverLt
  simp only [aboveTarget, bind_eq_ok, pure_eq_ok] at habove
  obtain ⟨p, hp, hlt⟩ := habove
  obtain ⟨hnum, hden⟩ := hsmall target htarget
  have htcr : max target mcr ≤ max target maxCollateralRatio := max_le_max le_rfl hmax
  have hdebt : 0 < c.debt - x := by omega
  have hcollateral : 0 < c.collateral - toPay := by omega
  -- the position after the cover, whose call price is not rounded either
  have hfits : ¬TooLarge (callRatio (c.debt - x) (c.collateral - toPay) (max target mcr)) := by
    refine unrounded_of_le (c := { c with debt := c.debt - x, collateral := c.collateral - toPay })
      (le_of_lt hdebt) hcollateral (le_trans ?_ hnum) (le_trans ?_ hden)
    · exact mul_le_mul (by simp only; omega) (Int.ofNat_le.mpr htcr) (Int.natCast_nonneg _)
        (by omega)
    · exact mul_le_mul_of_nonneg_right (by simp only; omega) (Int.natCast_nonneg _)
  have hexact := (Price.callPrice_le_iff hp hfits hdebt hcollateral
    (lt_of_lt_of_le hmcr (le_max_right _ _)) hfp).not.mp (not_not.mpr (of_decide_eq_true hlt.symm))
  intro hcalled
  have hcollateral' : 0 < c'.collateral := by
    rw [hleft.collateral]
    omega
  have hdebt' : 0 < c'.debt := by
    rw [hleft.debt]
    exact hdebt
  have hfits' : c'.Unrounded mcr := by
    obtain ⟨hnum', hden'⟩ := hsmall.left hleft hpays hx target (hleft.target.trans htarget)
    refine unrounded_of_le (le_of_lt hdebt') hcollateral' (le_trans ?_ hnum') hden'
    exact mul_le_mul_of_nonneg_left
      (Int.ofNat_le.mpr ((le_max_right target mcr).trans htcr)) (le_of_lt hdebt')
  have hexact' := (Price.callPrice_le_iff hleft.priced hfits' hdebt' hcollateral' hmcr
    (by rw [getCollateral, getDebt, hleft.collateralType, hleft.debtType]; exact hfp)).mp hcalled
  refine hexact ?_
  simp only [getCollateral, getDebt, hleft.debt, hleft.collateral] at hexact' ⊢
  calc fp.quote.amount * ((c.collateral - toPay) * collateralRatioDenom)
      ≤ fp.quote.amount * ((c.collateral - pays) * collateralRatioDenom) := by
        refine mul_le_mul_of_nonneg_left (mul_le_mul_of_nonneg_right (by omega) ?_)
          (le_of_lt hfp.quote_pos)
        exact Int.natCast_nonneg _
    _ ≤ fp.base.amount * ((c.debt - x) * mcr) := hexact'
    _ ≤ fp.base.amount * ((c.debt - x) * (max target mcr : Nat)) := by
        refine mul_le_mul_of_nonneg_left (mul_le_mul_of_nonneg_left ?_ (le_of_lt hdebt))
          (le_of_lt hfp.base_pos)
        exact Int.ofNat_le.mpr (le_max_right _ _)

/-! ### What a match asks a position to pay -/

/-- The collateral is enough for the debt at a price of the debt in the collateral. -/
def Affords (c : CallOrder) (p : Price) : Prop :=
  c.debt * p.base.amount ≤ c.collateral * p.quote.amount

theorem affords_of_swanPrice {p : Price} (hp : p.Between c.debtType c.collateralType)
    (h : c.swanPrice ≤ p) : c.Affords p.inverse := by
  rw [Price.le_iff_mul (a := c.swanPrice) hp.base_asset.symm hp.quote_asset.symm] at h
  simp only [swanPrice, getDebt, getCollateral] at h
  simp only [Affords, Price.inverse]
  linarith

end CallOrder

section

variable {forSale pays receives : Asset} {c c' : CallOrder} {p : Price} {usd : Int}

theorem Price.Between.ne (hp : p.Between c.collateralType c.debtType)
    (hne : c.collateralType ≠ c.debtType) : p.base.assetId ≠ p.quote.assetId := by
  rw [hp.base_asset, hp.quote_asset]
  exact hne

theorem Ledger.Amounts.pays_le (hp : p.Between c.collateralType c.debtType)
    (hne : c.collateralType ≠ c.debtType) (hsale : forSale.assetId = c.debtType)
    (husd : usd ≤ c.debt) (h : Amounts forSale c p usd pays receives) (hafford : c.Affords p) :
    pays.amount ≤ c.collateral := by
  unfold CallOrder.Affords at hafford
  cases h with
  | ofOrder hlt hpays _ _ =>
    rw [Asset.mul_quote (hp.ne hne) (hsale.trans hp.quote_asset.symm)] at hpays
    obtain ⟨hd, -, -, rfl⟩ := convert_eq_ok.mp hpays
    simp only
    refine Int.ediv_le_of_le_mul hd (le_trans ?_ hafford)
    exact mul_le_mul_of_nonneg_right (by omega) (le_of_lt hp.base_pos)
  | ofCall _ hreceives hpays =>
    rw [hreceives, Asset.multiplyAndRoundUp_quote (a := ⟨usd, c.debtType⟩) (hp.ne hne)
      hp.quote_asset.symm] at hpays
    obtain ⟨hd, -, -, rfl⟩ := convert_eq_ok.mp hpays
    simp only
    refine (roundUp_le_iff hd).mpr (le_trans ?_ hafford)
    exact mul_le_mul_of_nonneg_right husd (le_of_lt hp.base_pos)

theorem Affords.ofOrder {ratio : Nat} (hp : p.Between c.collateralType c.debtType)
    (hne : c.collateralType ≠ c.debtType) (hsale : forSale.assetId = c.debtType)
    (hpays : forSale.mul p = .ok pays) (hreceives : pays.multiplyAndRoundUp p = .ok receives)
    (hafford : c.Affords p) (hleft : c.Left c' pays.amount receives.amount ratio) :
    c'.Affords p := by
  have hpaid : pays.assetId = p.base.assetId := by
    rw [Asset.mul_quote (hp.ne hne) (hsale.trans hp.quote_asset.symm)] at hpays
    obtain ⟨-, -, -, rfl⟩ := convert_eq_ok.mp hpays
    rfl
  rw [Asset.multiplyAndRoundUp_base hpaid] at hreceives
  obtain ⟨hd, -, -, rfl⟩ := convert_eq_ok.mp hreceives
  have hround := (roundUp_le_iff hd).mp (le_refl ((pays.amount * p.quote.amount +
    p.base.amount - 1) / p.base.amount))
  unfold CallOrder.Affords at hafford ⊢
  rw [hleft.debt, hleft.collateral, sub_mul, sub_mul]
  linarith

theorem Shape.collateralType {L : Ledger} {mia : AssetId} {b : BitassetData} {id : Nat}
    (hs : Shape L) (hb : L.bitasset mia = .ok b) (hc : L.callOrders.find id = some c)
    (hmia : c.debtType = mia) :
    c.collateralType = b.options.shortBackingAsset ∧ c.collateralType ≠ c.debtType := by
  obtain ⟨b', hb', hback, -⟩ := (hs.callOrders id c hc).backed
  obtain rfl : b' = b := Except.ok.inj (hb'.symm.trans (hmia.symm ▸ hb))
  refine ⟨hback.symm, ?_⟩
  rw [← hback, hmia]
  exact (hs.bitassets mia b' hb).backing_ne

end

/-! ### The margin calls of a new limit order -/

/-- The positions in `mia` that the feed does not protect afford their debts at the price at which a
new order is matched with them. -/
structure CallsAfloat (mia backing : AssetId) (feed : PriceFeed) (p : Price)
    (L : Ledger) : Prop where
  shape : Shape L
  bitasset : ∃ b, L.bitasset mia = .ok b ∧ b.currentFeed = feed ∧
    b.options.shortBackingAsset = backing
  feed_between : feed.settlementPrice.Between mia backing
  price_between : p.Between backing mia
  positions : ∀ id c, L.callOrders.find id = some c → c.debtType = mia →
    c.callPrice ≤ feed.settlementPrice.inverse → c.Small ∧ c.Affords p

namespace CallsAfloat

variable {mia backing : AssetId} {feed : PriceFeed} {p : Price} {L L' : Ledger} {id rounds : Nat}
  {c : CallOrder}

theorem collateralType (h : CallsAfloat mia backing feed p L)
    (hc : L.callOrders.find id = some c) (hmia : c.debtType = mia) :
    c.collateralType = backing ∧ c.collateralType ≠ c.debtType := by
  obtain ⟨b, hb, -, rfl⟩ := h.bitasset
  exact h.shape.collateralType hb hc hmia

theorem filled (h : CallsAfloat mia backing feed p L) {usd : Int} {forSale pays receives : Asset}
    (hmatch : CalledMatch rounds mia feed L L' id c forSale p usd pays receives) :
    CallsAfloat mia backing feed p L' := by
  obtain ⟨hc, hmia, hcalled, hsale, husd, hamounts, hfilled, hturn⟩ := hmatch
  obtain ⟨hcollateral, hne⟩ := h.collateralType hc hmia
  have hsound := h.shape.callOrders id c hc
  obtain ⟨hsmall, hafford⟩ := h.positions id c hc hmia hcalled
  have hp : p.Between c.collateralType c.debtType := by
    rw [hcollateral, hmia]
    exact h.price_between
  have hfeed : feed.settlementPrice.Between c.debtType c.collateralType := by
    rw [hcollateral, hmia]
    exact h.feed_between
  have hcovers := CallOrder.getMaxDebtToCover_covers (le_of_lt hsound.debt_pos) husd
  refine ⟨hturn.shape, ?_, h.feed_between, h.price_between, ?_⟩
  · obtain ⟨b, hb, hrest⟩ := h.bitasset
    exact ⟨b, (hturn.bitasset mia).trans hb, hrest⟩
  · refine hfilled.forall (P := fun d => d.debtType = mia →
      d.callPrice ≤ feed.settlementPrice.inverse → d.Small ∧ d.Affords p) hc h.positions
      fun c' hdebt hleft _ hcalled' => ?_
    cases hamounts with
    | ofOrder hlt hpays hnonzero hreceives =>
      exact ⟨hsmall.left hleft (Asset.mul_nonneg hpays) (Asset.multiplyAndRoundUp_nonneg hreceives),
        Affords.ofOrder hp hne hsale hpays hreceives hafford hleft⟩
    | ofCall hle hreceives hpays =>
      have hpaysNonneg := Asset.multiplyAndRoundUp_nonneg hpays
      subst hreceives
      refine ⟨hsmall.left hleft hpaysNonneg hcovers.1, ?_⟩
      have horient : c.orient p = p :=
        if_neg (not_not.mpr hp.base_asset)
      rcases CallOrder.getMaxDebtToCover_target hne hsound.debt_pos hp.base_pos hp.quote_pos
        hfeed.base_pos hfeed.quote_pos husd with
        hzero | hall | ⟨target, toPay, htarget, hreaches⟩
      · -- nothing is covered, so the amounts stay
        have hpaid : pays.amount = 0 := Asset.multiplyAndRoundUp_zero hpays hzero
        unfold CallOrder.Affords
        rw [hleft.debt, hleft.collateral, hpaid]
        simp only [hzero, sub_zero]
        exact hafford
      · exact absurd hall.symm hdebt
      · rw [horient, CallOrder.orient_inverse hne hfeed] at hreaches
        refine absurd hcalled' (hreaches.protected hsmall htarget feed.maintenance_pos
          feed.maintenance_range.2 ⟨hfeed.quote_asset, hfeed.base_asset, hfeed.quote_pos,
            hfeed.base_pos⟩ hcovers.1 hpaysNonneg ?_ hleft)
        refine hreaches.paid _ ?_
        simp only [CallOrder.payOf, bind_eq_ok, pure_eq_ok]
        exact ⟨pays, hpays, rfl⟩

end CallsAfloat

/-! ### The margin calls of `check_call_orders` -/

namespace Ledger

/-- The limit orders that are left for the loop of `check_call_orders` that started in the ledger
`M`: they come from the best to the worst, and none that the squeeze price reaches is missing. -/
structure BookLeft (M : Ledger) (top squeeze : Price) (s : Calling) : Prop where
  rows : ∃ rows : List (Nat × LimitOrder), s.book = rows.map Prod.fst ∧
    rows.Sublist (M.limitOrdersBetween top squeeze)
  kept : KeepsOrders M s.ledger
  complete : ∀ id o, s.ledger.limitOrders.find id = some o → o.sellPrice ≤ top →
    squeeze ≤ o.sellPrice → id ∈ s.book

namespace BookLeft

variable {M : Ledger} {top squeeze : Price} {s s' : Calling} {mia : AssetId} {b : BitassetData}

theorem mem_limitOrdersBetween {L : Ledger} {high low : Price} {r : Nat × LimitOrder} :
    r ∈ L.limitOrdersBetween high low ↔
      L.limitOrders.find r.1 = some r.2 ∧ r.2.sellPrice ≤ high ∧ low ≤ r.2.sellPrice := by
  rw [limitOrdersBetween, limitOrdersByPrice, List.mem_filter, mem_sortRows, decide_eq_true_eq]

theorem start (M : Ledger) (top squeeze : Price) :
    BookLeft M top squeeze ⟨M, (M.limitOrdersBetween top squeeze).map Prod.fst, false⟩ :=
  ⟨⟨_, rfl, List.Sublist.refl _⟩, KeepsOrders.refl M, fun id o ho hle hge =>
    List.mem_map_of_mem (f := Prod.fst) ((mem_limitOrdersBetween (r := (id, o))).mpr
      ⟨ho, hle, hge⟩)⟩

theorem next {rounds : Nat} {enable : Bool} {callMin callMax : Price}
    (h : BookLeft M top squeeze s) (hb : s.ledger.bitasset mia = .ok b)
    (hround : checkCallRound rounds mia enable callMin callMax s = .ok (.inl s')) :
    BookLeft M top squeeze s' := by
  have hchanges : Changes noOrder s.ledger s'.ledger := checkCallRound_changes hround
  have hkept : KeepsOrders s.ledger s'.ledger :=
    (KeepsOrders.of_changes hchanges fun _ hj => absurd hj not_false).1
  obtain ⟨call, limit, book, o, r, hreached, hr, rfl⟩ := checkCallRound_reached hb hround
  obtain ⟨rows, hrows, hsub⟩ := h.rows
  have hcomplete : ∀ id o', r.2.limitOrders.find id = some o' → o'.sellPrice ≤ top →
      squeeze ≤ o'.sellPrice → id ∈ limit :: book := by
    intro id o' ho' hle hge
    obtain ⟨o'', ho'', hprice⟩ := hkept id o' ho'
    rw [← hprice] at hle hge
    exact hreached.book ▸ h.complete id o'' ho'' hle hge
  cases hfilled : r.1 with
  | false =>
    exact ⟨⟨rows, hreached.book.symm.trans hrows, hsub⟩, h.kept.trans hkept, hcomplete⟩
  | true =>
    obtain ⟨row, rest, rfl⟩ : ∃ row rest, rows = row :: rest := by
      cases rows with
      | nil =>
        rw [hreached.book] at hrows
        cases hrows
      | cons row rest => exact ⟨row, rest, rfl⟩
    rw [hreached.book, List.map_cons] at hrows
    refine ⟨⟨rest, (List.cons.inj hrows).2, (List.sublist_cons_self _ _).trans hsub⟩,
      h.kept.trans hkept, fun id o' ho' hle hge => ?_⟩
    -- the limit order that was filled is gone
    have hgone : r.2.limitOrders.find limit = none := by
      rw [marginCall_eq] at hr
      simp only [bind_eq_ok, fillMarginCall] at hr
      obtain ⟨c, -, o, -, a, -, closed, -, hlimit⟩ := hr
      exact fillLimitOrder_gone hlimit hfilled
    rcases List.mem_cons.mp (hcomplete id o' ho' hle hge) with rfl | hmem
    · rw [hgone] at ho'
      cases ho'
    · exact hmem

theorem head_best {limit : Nat} {book : List Nat} {o : LimitOrder} (h : BookLeft M top squeeze s)
    (hpos : ∀ id o, M.limitOrders.find id = some o → 0 < o.sellPrice.quote.amount)
    (hbook : s.book = limit :: book) (ho : s.ledger.limitOrders.find limit = some o) :
    o.sellPrice ≤ top ∧ squeeze ≤ o.sellPrice ∧ ∀ id o', s.ledger.limitOrders.find id = some o' →
      o'.sellPrice ≤ top → squeeze ≤ o'.sellPrice → o'.sellPrice.key ≤ o.sellPrice.key := by
  obtain ⟨rows, hrows, hsub⟩ := h.rows
  have hsorted : rows.Pairwise fun r s => s.2.sellPrice.key ≤ r.2.sellPrice.key :=
    ((limitOrdersByPrice_sorted hpos).filter _).sublist hsub
  obtain ⟨row, rest, rfl⟩ : ∃ row rest, rows = row :: rest := by
    cases rows with
    | nil =>
      rw [hbook] at hrows
      cases hrows
    | cons row rest => exact ⟨row, rest, rfl⟩
  rw [hbook, List.map_cons] at hrows
  obtain ⟨rfl, hrest⟩ := List.cons.inj hrows
  have hprice : ∀ (r : Nat × LimitOrder) (o' : LimitOrder), r ∈ row :: rest →
      s.ledger.limitOrders.find r.1 = some o' → o'.sellPrice = r.2.sellPrice := by
    intro r o' hr ho'
    obtain ⟨o'', ho'', hsame⟩ := h.kept r.1 o' ho'
    have hfind := (mem_limitOrdersBetween.mp (hsub.subset hr)).1
    rw [← hsame, Option.some.inj (ho''.symm.trans hfind)]
  have hrow := hprice row o (List.mem_cons_self ..) ho
  obtain ⟨-, hle, hge⟩ := mem_limitOrdersBetween.mp (hsub.subset (List.mem_cons_self ..))
  refine ⟨hrow ▸ hle, hrow ▸ hge, fun id o' ho' hle' hge' => ?_⟩
  have hmem := h.complete id o' ho' hle' hge'
  rw [hbook] at hmem
  rcases List.mem_cons.mp hmem with rfl | hmem
  · rw [Option.some.inj (ho'.symm.trans ho)]
  · rw [hrest] at hmem
    obtain ⟨r, hr, rfl⟩ := List.mem_map.mp hmem
    rw [hprice r o' (List.mem_cons_of_mem _ hr) ho', hrow]
    exact List.rel_of_pairwise_cons hsorted hr

theorem affords {enable : Bool} {callMin callMax : Price} {call : Nat × CallOrder} {limit : Nat}
    {book : List Nat} {o : LimitOrder} (h : BookLeft M top squeeze s) (hs : Shape s.ledger)
    (hvalid : ∀ id o, M.limitOrders.find id = some o → o.sellPrice.Valid)
    (hreached : CallReached mia enable callMin callMax s call limit book o b)
    (hfeed : b.currentFeed.settlementPrice.Between mia b.options.shortBackingAsset)
    (hmin : Price.smallest b.options.shortBackingAsset mia = .ok callMin)
    (hmax : Price.greatest b.options.shortBackingAsset mia = .ok callMax)
    (htop : Price.greatest mia b.options.shortBackingAsset = .ok top)
    (hsqueeze : b.currentFeed.maxShortSqueezePrice = .ok squeeze)
    (hnull : b.currentFeed.settlementPrice.isNull = false) :
    o.sellPrice.Between mia b.options.shortBackingAsset ∧ call.2.swanPrice ≤ o.sellPrice := by
  obtain ⟨hle, hge, hbest⟩ := h.head_best (fun id o ho => (hvalid id o ho).2.1) hreached.book
    hreached.limit
  have hvalid' : ∀ id o, s.ledger.limitOrders.find id = some o → o.sellPrice.Valid :=
    h.kept.prices hvalid
  have hopos := (hvalid' limit o hreached.limit).2.1
  have hspos : 0 < call.2.swanPrice.quote.amount :=
    (hs.callOrders call.1 call.2 hreached.find).collateral_pos
  obtain ⟨hsqueezeBetween, -, -⟩ := PriceFeed.maxShortSqueezePrice_spec hfeed hsqueeze
  have hqpos := hsqueezeBetween.quote_pos
  have hassets : o.sellPrice.base.assetId = mia ∧
      o.sellPrice.quote.assetId = b.options.shortBackingAsset := by
    have hsame := htop
    simp only [Price.greatest, Price.ofAssets_eq_ok] at hsame
    obtain ⟨-, rfl⟩ := hsame
    have hbase := hsqueezeBetween.base_asset
    have hquote := hsqueezeBetween.quote_asset
    obtain ⟨hbase', hquote'⟩ := Price.assets_of_le hbase hquote hge hle
    exact ⟨hbase'.trans hbase, hquote'.trans hquote⟩
  refine ⟨⟨hassets.1, hassets.2, (hvalid' limit o hreached.limit).1, hopos⟩, ?_⟩
  rw [Price.le_iff_key hqpos hopos] at hge
  rw [Price.le_iff_key hspos hopos]
  obtain ⟨-, hfirst⟩ := checkForBlackswan_false hreached.bitasset hreached.swan
  obtain ⟨callMin', callMax', hmin', hmax', hfirst⟩ := hfirst hnull
  obtain rfl : callMin = callMin' := Except.ok.inj (hmin.symm.trans hmin')
  obtain rfl : callMax = callMax' := Except.ok.inj (hmax.symm.trans hmax')
  obtain ⟨rest, hcalls⟩ := hreached.first
  obtain ⟨highest, hhighest, hlt⟩ := hfirst call rest hcalls
  simp only [highestBid, bind_eq_ok] at hhighest
  obtain ⟨squeeze', hsqueeze', top', htop', bottom, hbottom, hhighest⟩ := hhighest
  obtain rfl : squeeze = squeeze' := Except.ok.inj (hsqueeze.symm.trans hsqueeze')
  obtain rfl : top = top' := Except.ok.inj (htop.symm.trans htop')
  split at hhighest
  · obtain rfl := pure_eq_ok.mp hhighest
    exact le_of_lt (lt_of_lt_of_le ((Price.lt_iff_key hspos hqpos).mp hlt) hge)
  · rename_i best others hbids
    simp only [bind_eq_ok, pure_eq_ok] at hhighest
    obtain ⟨-, -, rfl⟩ := hhighest
    split at hlt
    · exact le_of_lt (lt_of_lt_of_le ((Price.lt_iff_key hspos hqpos).mp hlt) hge)
    · rename_i hreaches
      obtain ⟨hfind, hle, -⟩ :=
        mem_limitOrdersBetween.mp (hbids ▸ List.mem_cons_self .. : best ∈ _)
      have hkey := hbest best.1 best.2 hfind hle hreaches
      have hbpos := (hvalid' best.1 best.2 hfind).2.1
      exact le_of_lt (lt_of_lt_of_le ((Price.lt_iff_key hspos hbpos).mp hlt) hkey)

end BookLeft

end Ledger

/-! ### The calls of `fill_call_order` -/

/-- The new limit order of an operation in the ledger `L` is matched with some limit orders and some
call orders, and then `fill_call_order` is called in a ledger for the next one, which is to pay. -/
inductive MatchFills (L : Ledger) (op : LimitOrderCreate) : Ledger → Nat → Asset → Prop
  | intro {rounds : Nat} {skip : Bool} {placed : Nat × Ledger} {o u : LimitOrder}
      {p callMin : Price} {feed : PriceFeed} {book : List Nat} {better : Bool × List Nat × Ledger}
      {N : Ledger} {call : Nat × CallOrder} {rest : List (Nat × CallOrder)}
      {a : Asset × Asset × Bool} {taker : Bool × Ledger} (hplace : op.place skip L = .ok placed)
      (ho : placed.2.limitOrders.find placed.1 = some o)
      (hprice : placed.2.callMatchPrice o = .ok (some (p, feed)))
      (hbetter : matchBook placed.1 (fun q => p < q) book placed.2 = .ok better)
      (hrounds : Relation.ReflTransGen (fun M M' =>
        matchCallsRound rounds placed.1 callMin p feed M =
        .ok (.inl M')) better.2.2 N)
      (hu : N.limitOrders.find placed.1 = some u) (hcalls : N.callOrdersFrom callMin = call :: rest)
      (hdebt : call.2.debtType = u.sellAssetId)
      (hcalled : ¬feed.settlementPrice.inverse < call.2.callPrice)
      (hamounts : matchAmounts rounds u call.2 p feed = .ok (some a))
      (htaker : N.fillLimitOrder placed.1 a.2.1 a.1 a.2.2 = .ok taker) :
      MatchFills L op taker.2 call.1 a.1

/-- A step from the ledger `L` calls `fill_call_order` in a ledger for an order that is to pay: in a
margin call, after some rounds of `check_call_orders`, or in a global settlement, after some
positions. -/
inductive CheckFills (L : Ledger) : Ledger → Nat → Asset → Prop
  | called {M : Ledger} {mia : AssetId} {rounds : Nat} {enable : Bool} {callMin callMax : Price}
      {begun s : Calling} {call : Nat × CallOrder} {limit : Nat} {book : List Nat} {o : LimitOrder}
      {b : BitassetData} {a : Asset × Asset} (hcheck : ChecksCalls L M mia)
      (hstart : M.checkCallStart mia enable = .ok (.inr (callMin, callMax, begun)))
      (hrounds : Relation.ReflTransGen (fun s s' =>
        checkCallRound rounds mia enable callMin callMax s =
        .ok (.inl s')) begun s)
      (hreached : CallReached mia enable callMin callMax s call limit book o b)
      (hamounts : marginCallAmounts rounds o call.2 b.currentFeed = .ok a) :
      CheckFills L s.ledger call.1 a.1
  | settled {M : Ledger} {price : Price} {gathered paid pays : Asset}
    {rows : List (Nat × CallOrder)}
      {s : Ledger × Asset} {id : Nat} {c : CallOrder}
      (hclosed : rows.foldlM (closeCallOrder price) (M, gathered) = .ok s)
      (hc : s.1.callOrders.find id = some c)
      (hpaid : c.getDebt.multiplyAndRoundUp price = .ok paid)
      (hpays : paid.least c.getCollateral = .ok pays) : CheckFills L s.1 id pays

/-- A position that the feed does not protect is not under water at the squeeze price. -/
def CallOrder.AboveSqueeze (b : BitassetData) (c : CallOrder) : Prop :=
  ∀ squeeze, b.currentFeed.maxShortSqueezePrice = .ok squeeze →
    c.callPrice ≤ b.currentFeed.settlementPrice.inverse → c.swanPrice ≤ squeeze

variable {L₀ L N : Ledger} {id : Nat} {pays : Asset}

/-- There is at most one position of a borrower in an asset. -/
def Single (L : Ledger) : Prop :=
  ∀ i j c d, L.callOrders.find i = some c → L.callOrders.find j = some d →
    c.borrower = d.borrower → c.debtType = d.debtType → i = j

theorem Single.change {loose : Nat → Prop} {L' : Ledger} (h : Single L)
    (hchange : Change loose L L') : Single L' := by
  cases hchange with
  | funds hfunds =>
    intro i j c d hc hd
    rw [hfunds.callOrders] at hc hd
    exact h i j c d hc hd
  | @createCallOrder c b hb hborrower hpriced hfree =>
    intro i j d e hd he hsame hdebt
    rcases Table.find_create_iff.mp hd with hd' | ⟨rfl, rfl⟩ <;>
      rcases Table.find_create_iff.mp he with he' | ⟨rfl, rfl⟩
    · exact h i j d e hd' he' hsame hdebt
    · exact absurd hsame (hfree i d hd' hdebt)
    · exact absurd hsame.symm (hfree j e he' hdebt.symm)
    · rfl
  | @setCallOrder k c c' b hc hb hborrower hdebtType hcollateral hpriced =>
    intro i j d e hd he hsame hdebt
    rcases (Table.find_set_iff hc).mp hd with ⟨rfl, rfl⟩ | ⟨hi, hd'⟩ <;>
      rcases (Table.find_set_iff hc).mp he with ⟨rfl, rfl⟩ | ⟨hj, he'⟩
    · rfl
    · exact h _ j c e hc he' (hborrower.symm.trans hsame) (hdebtType.symm.trans hdebt)
    · exact h i _ d c hd' hc (hsame.trans hborrower) (hdebt.trans hdebtType)
    · exact h i j d e hd' he' hsame hdebt
  | removeCallOrder k =>
    intro i j d e hd he
    exact h i j d e (Table.find_remove_iff.mp hd).2 (Table.find_remove_iff.mp he).2
  | _ => exact h

theorem Run.single (h₀ : Genesis L₀) (hrun : Run L₀ L) : Single L := by
  refine hrun.invariant h₀.balanced (fun _ _ _ hM hchange => hM.change hchange)
    (fun M M' hM hadjust => ?_) fun i _ c _ hc => ?_
  · cases hadjust <;> exact hM
  · rw [h₀.opening.callOrders] at hc
    cases hc

theorem Ledger.callMatchPrice_squeeze {o : LimitOrder} {p : Price} {feed : PriceFeed}
    (h : L.callMatchPrice o = .ok (some (p, feed))) :
    ∃ squeeze, feed.maxShortSqueezePrice = .ok squeeze ∧ p = squeeze.inverse := by
  simp only [callMatchPrice, bind_eq_ok] at h
  obtain ⟨a, -, h⟩ := h
  split at h
  · cases pure_eq_ok.mp h
  · split at h
    · simp only [bind_eq_ok] at h
      obtain ⟨squeeze, hsqueeze, h⟩ := h
      split at h
      · cases pure_eq_ok.mp h
        exact ⟨squeeze, hsqueeze, rfl⟩
      · cases pure_eq_ok.mp h
    · cases pure_eq_ok.mp h

/-- The positions in the asset that the feed does not protect are small and not under water at the
squeeze price. -/
def CallsAboveSqueeze (L : Ledger) (mia : AssetId) : Prop :=
  ∀ b id c, L.bitasset mia = .ok b → L.callOrders.find id = some c → c.debtType = mia →
    (c.callPrice ≤ b.currentFeed.settlementPrice.inverse → c.Small) ∧ c.AboveSqueeze b

theorem MatchFills.payable {op : LimitOrderCreate} (h₀ : Genesis L₀) (hrun : Run L₀ L)
    (hsafe : CallsAboveSqueeze L op.amountToSell.assetId) (h : MatchFills L op N id pays) :
    ∃ c, N.callOrders.find id = some c ∧ pays.amount ≤ c.collateral := by
  have hbalanced := Run.balanced h₀.balanced hrun
  have hfed := Run.fed h₀.balanced h₀.fed hrun
  obtain ⟨hplace, ho, hprice, hbetter, hrounds, hu, hcalls, hdebt, hcalled, hamounts, htaker⟩ := h
  rename_i rounds skip placed o u p callMin feed book better N call rest a taker
  have hturn := op.place_turn hbalanced.shape hplace
  have hfed' : Fed placed.2 :=
    (op.place_changes hplace).invariant (fun _ _ hM hc => hM.change hc) hfed
  obtain ⟨hp, -, hbetween, b, hb, hcurrent, hbacking, -⟩ := callMatchPrice_spec hfed' hprice
  obtain ⟨squeeze, hsqueeze, hsqueezePrice⟩ := callMatchPrice_squeeze hprice
  have hturn' := matchBook_turn hturn.shape hbetter
  have hkept := matchBook_callOrders book hbetter
  have hstart : CallsAfloat o.sellAssetId o.receiveAssetId feed p better.2.2 := by
    refine ⟨hturn'.shape, ⟨b, (hturn'.bitasset _).trans hb, hcurrent, hbacking⟩, hbetween, hp,
      fun j c hc hmia => ?_⟩
    obtain ⟨M, o', hplaces, rfl⟩ := op.place_spec hplace
    obtain rfl : o' = o := Option.some.inj ((Table.find_create_self _ o').symm.trans ho)
    have hsell : o'.sellAssetId = op.amountToSell.assetId := by
      rw [LimitOrder.sellAssetId, hplaces.sellPrice]
    have hc' : L.callOrders.find j = some c := by
      rw [hkept] at hc
      exact hplaces.funds.callOrders ▸ hc
    obtain ⟨hsmall, habove⟩ := hsafe b j c (hsell ▸ (hturn.bitasset _).symm.trans hb) hc'
      (hmia.trans hsell)
    intro hcall
    refine ⟨hsmall (hcurrent ▸ hcall), ?_⟩
    obtain ⟨hcollateral, -⟩ := hturn'.shape.collateralType ((hturn'.bitasset _).trans hb) hc hmia
    rw [hsqueezePrice]
    refine CallOrder.affords_of_swanPrice ?_ (habove squeeze (hcurrent ▸ hsqueeze)
      (hcurrent ▸ hcall))
    rw [hmia, hcollateral, hbacking]
    exact (PriceFeed.maxShortSqueezePrice_spec hbetween hsqueeze).1
  have hchanges : Changes (· = placed.1) placed.2 better.2.2 := by
    refine matchBook_changes ?_ book placed.2 better hbetter
    rfl
  have hsell : ∀ N u, Changes (· = placed.1) placed.2 N → N.limitOrders.find placed.1 = some u →
      u.sellAssetId = o.sellAssetId := by
    intro N u hN hu
    rw [LimitOrder.sellAssetId, KeepsOrders.loose_sellPrice ho hN hu]
    rfl
  have hafloat : CallsAfloat o.sellAssetId o.receiveAssetId feed p N ∧
      Changes (· = placed.1) placed.2 N := by
    clear hu hcalls hamounts htaker
    induction hrounds with
    | refl => exact ⟨hstart, hchanges⟩
    | @tail M M' _ hround ih =>
      obtain ⟨v, hv, -⟩ := bind_eq_ok.mp hround
      obtain ⟨b', hb', hcurrent', -⟩ := ih.1.bitasset
      obtain ⟨j, c, forSale, usd, x, y, hmatch⟩ := matchCallsRound_called ih.1.shape hb'
        hcurrent' (demand_eq_ok.mp hv) (hsell M v ih.2 (demand_eq_ok.mp hv)) hround
      refine ⟨ih.1.filled hmatch, ih.2.trans (matchCallsRound_changes ?_ hround)⟩
      rfl
  have hc : N.callOrders.find call.1 = some call.2 := by
    have hmem : call ∈ N.callOrdersFrom callMin := hcalls ▸ List.mem_cons_self ..
    exact mem_sortRows.mp (List.mem_filter.mp hmem).1
  have hmia : call.2.debtType = o.sellAssetId := hdebt.trans (hsell N u hafloat.2 hu)
  obtain ⟨hcollateral, hne⟩ := hafloat.1.collateralType hc hmia
  obtain ⟨usd, husd, ha⟩ := matchAmounts_spec hamounts
  have hcovers := CallOrder.getMaxDebtToCover_covers
    (le_of_lt (hafloat.1.shape.callOrders call.1 call.2 hc).debt_pos) husd
  rw [← hcollateral, ← hmia] at hp
  refine ⟨call.2, (fillLimitOrder_callOrders htaker).symm ▸ hc, ?_⟩
  have hsale : u.amountForSale.assetId = call.2.debtType := hdebt.symm
  exact ha.pays_le hp hne hsale hcovers.2 (hafloat.1.positions call.1 call.2 hc hmia hcalled).2

theorem Ledger.checkCallStart_spec {mia : AssetId} {enable : Bool} {callMin callMax : Price}
    {begun : Calling} (h : L.checkCallStart mia enable = .ok (.inr (callMin, callMax, begun))) :
    ∃ b top squeeze, L.bitasset mia = .ok b ∧ b.currentFeed.settlementPrice.isNull = false ∧
      Price.greatest mia b.options.shortBackingAsset = .ok top ∧
      b.currentFeed.maxShortSqueezePrice = .ok squeeze ∧
      Price.smallest b.options.shortBackingAsset mia = .ok callMin ∧
      Price.greatest b.options.shortBackingAsset mia = .ok callMax ∧
      begun = ⟨L, (L.limitOrdersBetween top squeeze).map Prod.fst, false⟩ := by
  simp only [checkCallStart, asset, bind_eq_ok, demand_eq_ok] at h
  obtain ⟨a, ha, h⟩ := h
  split at h
  · cases pure_eq_ok.mp h
  · rename_i b hab
    have hb : L.bitasset mia = .ok b := bitasset_eq_ok.mpr ⟨a, ha, hab⟩
    simp only [bind_eq_ok] at h
    obtain ⟨⟨flag, M⟩, hswan, h⟩ := h
    split at h
    · cases pure_eq_ok.mp h
    · rename_i hfalse
      obtain rfl : flag = false := by simpa using hfalse
      obtain ⟨rfl, -⟩ := checkForBlackswan_false hb hswan
      split at h
      · cases pure_eq_ok.mp h
      · split at h
        · cases pure_eq_ok.mp h
        · rename_i hnull
          simp only [bind_eq_ok] at h
          obtain ⟨top, htop, squeeze, hsqueeze, h⟩ := h
          split at h
          · cases pure_eq_ok.mp h
          · rename_i o os hbook
            simp only [bind_eq_ok, pure_eq_ok] at h
            obtain ⟨low, hlow, high, hhigh, h⟩ := h
            cases h
            exact ⟨b, top, squeeze, hb, by simpa using hnull, htop, hsqueeze, hlow, hhigh,
              by rw [hbook]⟩

theorem Ledger.Amounts.inverse {forSale receives : Asset} {c : CallOrder} {p : Price} {usd : Int}
    (hne : p.base.assetId ≠ p.quote.assetId) (h : Amounts forSale c p usd pays receives) :
    Amounts forSale c p.inverse usd pays receives := by
  cases h with
  | ofOrder hlt hpays hnonzero hreceives =>
    exact .ofOrder hlt ((Asset.mul_inverse hne).trans hpays) hnonzero
      ((Asset.multiplyAndRoundUp_inverse hne).trans hreceives)
  | ofCall hle hreceives hpays =>
    exact .ofCall hle hreceives ((Asset.multiplyAndRoundUp_inverse hne).trans hpays)

theorem CheckFills.payable (h₀ : Genesis L₀) (hrun : Run L₀ L) (h : CheckFills L N id pays) :
    ∃ c, N.callOrders.find id = some c ∧ pays.amount ≤ c.collateral := by
  cases h with
  | @settled M price gathered paid pays rows s id c hclosed hc hpaid hpays =>
    exact ⟨c, hc, (Asset.least_spec hpays).2.2.2.1⟩
  | @called M mia rounds enable callMin callMax begun s call limit book o b a hcheck hstart hrounds
      hreached hamounts =>
    have hbalanced := Run.balanced h₀.balanced hrun
    obtain ⟨b₀, top, squeeze, hb₀, hnull, htop, hsqueeze, hmin, hmax, rfl⟩ :=
      checkCallStart_spec hstart
    have hvalid := hcheck.valid h₀ hrun
    have hall : Changes noOrder M s.ledger ∧ Shape s.ledger ∧ BookLeft M top squeeze s := by
      clear hreached
      induction hrounds with
      | refl =>
        exact ⟨Relation.ReflTransGen.refl, hcheck.shape hbalanced, BookLeft.start M top squeeze⟩
      | tail _ hround ih =>
        obtain ⟨hchanges, hs, hbook⟩ := ih
        obtain ⟨b', hb', -⟩ := bitasset_of_terms (hchanges.terms _) hb₀
        exact ⟨hchanges.trans (checkCallRound_changes hround),
          (checkCallRound_keeps hs hround).shape,
          hbook.next hb' hround⟩
    obtain ⟨hchanges, hs, hbook⟩ := hall
    obtain ⟨b', hb', hoptions, -, hcurrent, -⟩ := bitasset_of_terms (hchanges.terms _) hb₀
    obtain rfl : b = b' := Except.ok.inj (hreached.bitasset.symm.trans hb')
    have hfeed := (hcheck.fed (Run.fed h₀.balanced h₀.fed hrun) mia b₀ hb₀).current.resolve_left
      (by simp [hnull])
    rw [← hcurrent, ← hoptions] at hfeed
    rw [← hoptions] at hmin hmax htop
    rw [← hcurrent] at hsqueeze hnull
    obtain ⟨hprice, hswan⟩ := hbook.affords hs (fun j o ho => (hvalid j o ho).1) hreached hfeed hmin
      hmax htop hsqueeze hnull
    obtain ⟨hcollateral, hdebt⟩ := hreached.types hmin hmax
    rw [← hcollateral, ← hdebt] at hprice
    have hne := hreached.valid.2.2
    have hresting := hvalid.changes (fun _ _ hvalid _ => hvalid) hchanges
      fun _ hj => absurd hj not_false
    have hdust := (hresting limit o hreached.limit).2.resolve_left not_false
    obtain ⟨usd, husd, ha, hsell⟩ := marginCallAmounts_spec hdust hamounts
    have hcovers := CallOrder.getMaxDebtToCover_covers
      (le_of_lt (hs.callOrders call.1 call.2 hreached.find).debt_pos) husd
    have hsale : o.amountForSale.assetId = call.2.debtType := hsell
    refine ⟨call.2, hreached.find, (ha.inverse hne).pays_le
      ⟨hprice.quote_asset, hprice.base_asset, hprice.quote_pos, hprice.base_pos⟩ ?_ hsale hcovers.2
      (CallOrder.affords_of_swanPrice hprice hswan)⟩
    rw [← hprice.base_asset, ← hprice.quote_asset]
    exact hne.symm

/-- In every ledger that a run reaches, the call orders have a debt and a collateral, and a borrower
has at most one in an asset.  A call order that `check_call_orders` or a global settlement fills has
the collateral that it is to pay, and so has one that a new limit order is matched with when the
positions that the feed does not protect are not under water at the squeeze price. -/
theorem call_orders_payable (h₀ : Genesis L₀) (hrun : Run L₀ L) :
    (∀ id c, L.callOrders.find id = some c → 0 < c.debt ∧ 0 < c.collateral) ∧ Single L ∧
    (∀ N id pays, CheckFills L N id pays →
      ∃ c, N.callOrders.find id = some c ∧ pays.amount ≤ c.collateral) ∧
    ∀ (op : LimitOrderCreate) (N : Ledger) (id : Nat) (pays : Asset),
      CallsAboveSqueeze L op.amountToSell.assetId → MatchFills L op N id pays →
      ∃ c, N.callOrders.find id = some c ∧ pays.amount ≤ c.collateral := by
  have hs := (Run.balanced h₀.balanced hrun).shape
  refine ⟨fun id c hc => ?_, Run.single h₀ hrun, fun _ _ _ h => h.payable h₀ hrun,
    fun _ _ _ _ hsafe h => h.payable h₀ hrun hsafe⟩
  exact ⟨(hs.callOrders id c hc).debt_pos, (hs.callOrders id c hc).collateral_pos⟩

/-- A new limit order up to the first call of `fill_call_order`: the ledger, the call order and what
it is to pay. -/
def firstFill (rounds : Nat) (op : LimitOrderCreate) (L : Ledger) :
    Attempt (Ledger × Nat × Asset) := do
  let placed ← op.place false L
  let o ← demand (placed.2.limitOrders.find placed.1)
  let price ← placed.2.callMatchPrice o
  match price with
  | none => .error .thrown
  | some (p, feed) => do
    let better ← matchBook placed.1 (fun q => p < q) [] placed.2
    let u ← demand (better.2.2.limitOrders.find placed.1)
    let callMin ← Price.smallest u.receiveAssetId u.sellAssetId
    match better.2.2.callOrdersFrom callMin with
    | [] => .error .thrown
    | call :: _ => do
      require (call.2.debtType = u.sellAssetId ∧
        ¬feed.settlementPrice.inverse < call.2.callPrice)
      match ← matchAmounts rounds u call.2 p feed with
      | none => .error .thrown
      | some a => do
        let taker ← better.2.2.fillLimitOrder placed.1 a.2.1 a.1 a.2.2
        pure (taker.2, call.1, a.1)

theorem firstFill_matchFills {rounds : Nat} {op : LimitOrderCreate} {r : Ledger × Nat × Asset}
    (h : firstFill rounds op L = .ok r) : MatchFills L op r.1 r.2.1 r.2.2 := by
  simp only [firstFill, bind_eq_ok, demand_eq_ok] at h
  obtain ⟨placed, hplace, o, ho, price, hprice, h⟩ := h
  cases price with
  | none => cases h
  | some q =>
    simp only [bind_eq_ok, demand_eq_ok] at h
    obtain ⟨better, hbetter, u, hu, callMin, -, h⟩ := h
    split at h
    · cases h
    · rename_i call rest hcalls
      simp only [bind_eq_ok, require_eq_ok, exists_const] at h
      obtain ⟨⟨hdebt, hcalled⟩, amounts, hamounts, h⟩ := h
      cases amounts with
      | none => cases h
      | some a =>
        simp only [bind_eq_ok, pure_eq_ok] at h
        obtain ⟨taker, htaker, rfl⟩ := h
        exact .intro hplace ho hprice hbetter Relation.ReflTransGen.refl hu hcalls hdebt hcalled
          hamounts htaker

/-- The price falls, and then what was borrowed is sold to the position. -/
theorem call_orders_payable_par : ∃ L b N pays,
    parLedger.perform 5 [borrowPar 0 210, publishPar (parFeed 100 125 1750 (by decide))] = .ok L ∧
    L.bitasset 1 = .ok b ∧ CallsAboveSqueeze L 1 ∧
    MatchFills L ⟨⟨0, 0⟩, 0, ⟨50, 1⟩, ⟨60, 0⟩, 1700000000, false⟩ N 0 pays ∧ pays.amount = 68 ∧
    ∃ c, N.callOrders.find 0 = some c ∧ pays.amount ≤ c.collateral := by
  have hrun : (parLedger.perform 5 [borrowPar 0 210,
      publishPar (parFeed 100 125 1750 (by decide))]).toOption.any (fun L =>
        (L.bitasset 1).toOption.any fun b =>
          (firstFill 5 ⟨⟨0, 0⟩, 0, ⟨50, 1⟩, ⟨60, 0⟩, 1700000000, false⟩ L).toOption.any fun r =>
            r.2.1 = 0 ∧ r.2.2.amount = 68 ∧ b.currentFeed.maxShortSqueezePrice.toOption.any fun p =>
              ∀ r ∈ L.callOrders.rows, r.2.Small ∧ r.2.swanPrice ≤ p) = true := by decide +kernel
  obtain ⟨L, hL, hstate⟩ := exists_ok_of_any hrun
  obtain ⟨b, hb, hstate⟩ := exists_ok_of_any hstate
  obtain ⟨⟨N, id, pays⟩, hfill, hstate⟩ := exists_ok_of_any hstate
  obtain ⟨rfl, hamount, hsqueeze⟩ := of_decide_eq_true hstate
  obtain ⟨squeeze, hsqueeze, hrows⟩ := exists_ok_of_any hsqueeze
  have hsafe : CallsAboveSqueeze L 1 := by
    intro b' id c hb' hc _
    obtain rfl : b = b' := Except.ok.inj (hb.symm.trans hb')
    obtain ⟨hsmall, hle⟩ := of_decide_eq_true hrows (id, c) (Table.find_iff_mem.mp hc)
    refine ⟨fun _ => hsmall, fun p hp _ => ?_⟩
    obtain rfl : squeeze = p := Except.ok.inj (hsqueeze.symm.trans hp)
    exact hle
  exact ⟨L, b, N, pays, hL, hb, hsafe, firstFill_matchFills hfill, hamount,
    (call_orders_payable parLedger_genesis (perform_run hL)).2.2.2 _ _ _ _ hsafe
      (firstFill_matchFills hfill)⟩

/-- A position that was opened at the old ratio comes after one of the new ratio in the order of the
call prices, and its black swan is not seen.  When the other one has been closed, a new limit order
asks for more than its collateral. -/
theorem call_order_not_payable : ∃ L₀ L op N id pays c, Genesis L₀ ∧ Run L₀ L ∧
    MatchFills L op N id pays ∧ N.callOrders.find id = some c ∧ c.collateral < pays.amount := by
  have hrun : (parLedger.perform 5 [borrowPar 0 200, publishPar (parFeed 1 1 3000 (by decide)),
      borrowPar 1 310, publishPar (parFeed 10 21 3000 (by decide)),
      .limitOrderCreate ⟨⟨0, 0⟩, 0, ⟨100, 1⟩, ⟨200, 0⟩, 1700000000, false⟩]).toOption.any (fun L =>
        (firstFill 5 ⟨⟨0, 0⟩, 1, ⟨100, 1⟩, ⟨200, 0⟩, 1700000000, false⟩ L).toOption.any fun r =>
          (r.1.callOrders.find r.2.1).any fun c => c.collateral < r.2.2.amount) = true := by
    decide +kernel
  obtain ⟨L, hL, hstate⟩ := exists_ok_of_any hrun
  obtain ⟨⟨N, id, pays⟩, hfill, hstate⟩ := exists_ok_of_any hstate
  obtain ⟨c, hc, hless⟩ := (Option.any_eq_true _ _).mp hstate
  exact ⟨parLedger, L, _, N, id, pays, c, parLedger_genesis, perform_run hL,
    firstFill_matchFills hfill, hc, of_decide_eq_true hless⟩

end Nestchain.Market
