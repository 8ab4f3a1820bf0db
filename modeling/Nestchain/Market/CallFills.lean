import Nestchain.Market.MarginCalls
import Nestchain.Market.Rounds

/-! What the matches do to the call orders.  A match of a call order with a limit order asks for two
amounts, and the fill of the call order closes the position or leaves a smaller one whose call price
is fresh. -/

namespace Nestchain.Market

open Lib Ledger

/-! ### A fill of a call order -/

/-- What a fill leaves of a position. -/
structure CallOrder.Left (c c' : CallOrder) (pays receives : Int) (ratio : Nat) : Prop where
  debt : c'.debt = c.debt - receives
  collateral : c'.collateral = c.collateral - pays
  borrower : c'.borrower = c.borrower
  debtType : c'.debtType = c.debtType
  collateralType : c'.collateralType = c.collateralType
  target : c'.targetCollateralRatio = c.targetCollateralRatio
  priced : c'.Priced ratio

/-- The call orders after a fill of the order `id`. -/
inductive CallFilled (t : Table CallOrder) (id : Nat) (c : CallOrder) (pays receives : Int)
    (ratio : Nat) : Table CallOrder → Prop
  | closed (h : c.debt = receives) : CallFilled t id c pays receives ratio (t.remove id)
  | left {c' : CallOrder} (hne : c.debt ≠ receives) (h : c.Left c' pays receives ratio) :
      CallFilled t id c pays receives ratio (t.set id c')

theorem CallFilled.forall {t t' : Table CallOrder} {id : Nat} {c : CallOrder} {pays receives : Int}
    {ratio : Nat} {P : CallOrder → Prop} (h : CallFilled t id c pays receives ratio t')
    (hc : t.find id = some c) (hall : ∀ j d, t.find j = some d → P d)
    (hleft : ∀ c', c.debt ≠ receives → c.Left c' pays receives ratio → P c') :
    ∀ j d, t'.find j = some d → P d := by
  intro j d hd
  cases h with
  | closed _ => exact hall j d (Table.find_remove_iff.mp hd).2
  | left hne h =>
    rcases (Table.find_set_iff hc).mp hd with ⟨-, rfl⟩ | ⟨-, hd⟩
    · exact hleft _ hne h
    · exact hall j d hd

namespace Ledger

variable {L L' N : Ledger} {id : Nat}

theorem fillCallOrder_callOrders {pays receives : Asset} {r : Bool × Ledger}
    (h : L.fillCallOrder id pays receives = .ok r) :
    ∃ c b, L.callOrders.find id = some c ∧ L.bitasset c.debtType = .ok b ∧
      CallFilled L.callOrders id c pays.amount receives.amount
        b.currentFeed.maintenanceCollateralRatio r.2.callOrders := by
  simp only [fillCallOrder, bind_eq_ok, demand_eq_ok, require_eq_ok, exists_const] at h
  obtain ⟨c, hc, hdebt, -, -, b, hb, M1, h1, M2, h2, h⟩ := h
  have hM : Funds L M2 := (modifyDynamicData_funds h1).trans (noteInOrders_funds h2)
  refine ⟨c, b, hc, hdebt.symm ▸ hb, ?_⟩
  split at h
  · rename_i hzero
    simp only [bind_eq_ok, pure_eq_ok] at h
    obtain ⟨M3, h3, M, h4, rfl⟩ := h
    have hrest := hM.trans ((adjustBalance_funds h3).trans (noteInOrders_funds h4))
    show CallFilled _ _ _ _ _ _ (M.callOrders.remove id)
    rw [hrest.callOrders]
    exact .closed (sub_eq_zero.mp hzero)
  · rename_i hne
    simp only [bind_eq_ok, pure_eq_ok] at h
    obtain ⟨p, hp, rfl⟩ := h
    obtain ⟨-, hbase, hquote, -⟩ := Price.callPrice_ids hp
    show CallFilled _ _ _ _ _ _ (M2.callOrders.set id _)
    rw [hM.callOrders]
    refine .left (fun he => hne (sub_eq_zero.mpr he)) ⟨rfl, rfl, rfl, hquote, hbase, rfl, ?_⟩
    simp only [CallOrder.Priced, CallOrder.getDebt, CallOrder.getCollateral, CallOrder.debtType,
      CallOrder.collateralType, hbase, hquote]
    exact hp

theorem fillLimitOrder_callOrders {pays receives : Asset} {cull : Bool} {r : Bool × Ledger}
    (h : L.fillLimitOrder id pays receives cull = .ok r) : r.2.callOrders = L.callOrders := by
  simp only [fillLimitOrder, bind_eq_ok, demand_eq_ok, require_eq_ok, exists_const] at h
  obtain ⟨o, -, -, -, paid, hpaid, net, -, M1, h1, M, h2, h⟩ := h
  have hM : Funds L M := (payMarketFees_funds hpaid).trans
    ((payOrder_funds h1).trans (payDeferredFees_funds h2))
  rw [← hM.callOrders]
  split at h
  · rw [pure_eq_ok.mp h]
  · split at h
    · simp only [maybeCullSmallOrder, bind_eq_ok] at h
      obtain ⟨_, -, receives, -, h⟩ := h
      split at h
      · simp only [bind_eq_ok, pure_eq_ok] at h
        obtain ⟨N, hN, rfl⟩ := h
        obtain ⟨N', hfunds, rfl⟩ := cancelLimitOrder_funds hN
        exact hfunds.callOrders
      · rw [pure_eq_ok.mp h]
    · rw [pure_eq_ok.mp h]

theorem matchLimitOrders_callOrders {usd core : Nat} {p : Price} {r : Filled × Ledger}
    (h : L.matchLimitOrders usd core p = .ok r) : r.2.callOrders = L.callOrders := by
  have hfills : ∀ {a b : Asset} {cull : Bool}, L.fillLimitOrders usd core a b cull = .ok r →
      r.2.callOrders = L.callOrders := by
    intro a b cull hf
    simp only [fillLimitOrders, bind_eq_ok, pure_eq_ok] at hf
    obtain ⟨taker, ht, maker, hm, -, -, rfl⟩ := hf
    exact (fillLimitOrder_callOrders hm).trans (fillLimitOrder_callOrders ht)
  simp only [matchLimitOrders, bind_eq_ok] at h
  obtain ⟨u, -, c, -, -, -, -, -, -, -, worth, -, less, -, h⟩ := h
  split at h
  · simp only [bind_eq_ok] at h
    obtain ⟨receives, -, h⟩ := h
    exact hfills h
  · simp only [bind_eq_ok] at h
    obtain ⟨receives, -, h⟩ := h
    split at h
    · rw [pure_eq_ok.mp h]
    · simp only [bind_eq_ok] at h
      obtain ⟨coreReceives, -, h⟩ := h
      exact hfills h

theorem matchBook_callOrders {good : Price → Bool} (book : List Nat) :
    ∀ {L : Ledger} {r : Bool × List Nat × Ledger}, matchBook id good book L = .ok r →
      r.2.2.callOrders = L.callOrders := by
  induction book with
  | nil =>
    intro L r h
    rw [pure_eq_ok.mp h]
  | cons maker book ih =>
    intro L r h
    simp only [matchBook, bind_eq_ok] at h
    obtain ⟨o, -, h⟩ := h
    split at h
    · simp only [bind_eq_ok] at h
      obtain ⟨m, hm, h⟩ := h
      have hmatched := matchLimitOrders_callOrders hm
      split at h
      · exact (ih h).trans hmatched
      · rw [pure_eq_ok.mp h]
        exact hmatched
    · rw [pure_eq_ok.mp h]

/-! ### What a match asks for -/

/-- What the limit order and what the call order receives in `match`, and whether the limit order is
culled; nothing when the limit order is too small. -/
def matchAmounts (rounds : Nat) (o : LimitOrder) (c : CallOrder) (matchPrice : Price)
    (feed : PriceFeed) : Attempt (Option (Asset × Asset × Bool)) := do
  let usdToBuy ← c.getMaxDebtToCover rounds matchPrice feed.settlementPrice
    feed.maintenanceCollateralRatio
  if o.forSale < usdToBuy then do
    let orderReceives ← o.amountForSale.mul matchPrice
    if orderReceives.amount = 0 then pure none
    else do
      let callReceives ← orderReceives.multiplyAndRoundUp matchPrice
      pure (some (orderReceives, callReceives, true))
  else do
    let callReceives := Asset.mk usdToBuy c.debtType
    let orderReceives ← callReceives.multiplyAndRoundUp matchPrice
    pure (some (orderReceives, callReceives, false))

theorem matchLimitAndCall_eq (rounds bid ask : Nat) (p : Price) (feed : PriceFeed) :
    matchLimitAndCall rounds L bid ask p feed = (do
      let o ← demand (L.limitOrders.find bid)
      let c ← demand (L.callOrders.find ask)
      require (o.sellAssetId = c.debtType)
      require (o.receiveAssetId = c.collateralType)
      require (0 < o.forSale ∧ 0 < c.debt ∧ 0 < c.collateral)
      match ← matchAmounts rounds o c p feed with
      | none => pure (⟨true, false⟩, L)
      | some a => L.fillLimitAndCall bid ask a.1 a.2.1 a.2.2) := by
  simp only [matchLimitAndCall, matchAmounts, bind_assoc]
  refine bind_congr fun o => bind_congr fun c => bind_congr fun _ => bind_congr fun _ =>
    bind_congr fun _ => bind_congr fun usd => ?_
  split
  · simp only [bind_assoc]
    refine bind_congr fun receives => ?_
    split <;> simp
  · simp

/-- What the limit order and what the call order receives in a margin call. -/
def marginCallAmounts (rounds : Nat) (o : LimitOrder) (c : CallOrder) (feed : PriceFeed) :
    Attempt (Asset × Asset) := do
  let usdToBuy ← c.getMaxDebtToCover rounds o.sellPrice feed.settlementPrice
    feed.maintenanceCollateralRatio
  if ← o.amountForSale.less ⟨usdToBuy, c.debtType⟩ then do
    let orderReceives ← o.amountForSale.mul o.sellPrice
    let callReceives ← orderReceives.multiplyAndRoundUp o.sellPrice
    pure (orderReceives, callReceives)
  else do
    let callReceives := Asset.mk usdToBuy c.debtType
    let orderReceives ← callReceives.multiplyAndRoundUp o.sellPrice
    pure (orderReceives, callReceives)

theorem marginCall_eq (rounds call limit : Nat) (feed : PriceFeed) :
    marginCall rounds L call limit feed = (do
      let c ← demand (L.callOrders.find call)
      let o ← demand (L.limitOrders.find limit)
      let a ← marginCallAmounts rounds o c feed
      L.fillMarginCall call limit a.2 a.1) := by
  simp only [marginCall, marginCallAmounts, bind_assoc]
  refine bind_congr fun c => bind_congr fun o => bind_congr fun usd => bind_congr fun less => ?_
  split <;> simp

/-- The amounts of a match at a price in which the call order may buy `usd`: what the limit order
has for sale is less than that, or the call order gets all of it. -/
inductive Amounts (forSale : Asset) (c : CallOrder) (p : Price) (usd : Int)
    (pays receives : Asset) :
    Prop
  | ofOrder (hlt : forSale.amount < usd) (hpays : forSale.mul p = .ok pays)
      (hne : pays.amount ≠ 0) (hreceives : pays.multiplyAndRoundUp p = .ok receives)
  | ofCall (hle : usd ≤ forSale.amount) (hreceives : receives = ⟨usd, c.debtType⟩)
      (hpays : receives.multiplyAndRoundUp p = .ok pays)

theorem Amounts.pays_assetId {forSale pays receives : Asset} {c : CallOrder} {p : Price} {usd : Int}
    (h : Amounts forSale c p usd pays receives) (hsale : forSale.assetId = p.base.assetId)
    (hdebt : c.debtType = p.base.assetId) : pays.assetId = p.quote.assetId := by
  cases h with
  | ofOrder _ hpays =>
    rw [Asset.mul_base hsale] at hpays
    obtain ⟨-, -, -, rfl⟩ := convert_eq_ok.mp hpays
    rfl
  | ofCall _ hreceives hpays =>
    rw [hreceives, Asset.multiplyAndRoundUp_base (a := ⟨usd, c.debtType⟩) hdebt] at hpays
    obtain ⟨-, -, -, rfl⟩ := convert_eq_ok.mp hpays
    rfl

theorem matchAmounts_spec {rounds : Nat} {o : LimitOrder} {c : CallOrder} {p : Price}
    {feed : PriceFeed} {a : Asset × Asset × Bool}
    (h : matchAmounts rounds o c p feed = .ok (some a)) :
    ∃ usd, c.getMaxDebtToCover rounds p feed.settlementPrice feed.maintenanceCollateralRatio =
      .ok usd ∧ Amounts o.amountForSale c p usd a.1 a.2.1 := by
  simp only [matchAmounts, bind_eq_ok] at h
  obtain ⟨usd, husd, h⟩ := h
  refine ⟨usd, husd, ?_⟩
  split at h
  · rename_i hlt
    simp only [bind_eq_ok] at h
    obtain ⟨pays, hpays, h⟩ := h
    split at h
    · cases pure_eq_ok.mp h
    · rename_i hne
      simp only [bind_eq_ok, pure_eq_ok] at h
      obtain ⟨receives, hreceives, h⟩ := h
      cases h
      exact .ofOrder hlt hpays hne hreceives
  · rename_i hge
    simp only [bind_eq_ok, pure_eq_ok] at h
    obtain ⟨pays, hpays, h⟩ := h
    cases h
    exact .ofCall (not_lt.mp hge) rfl hpays

theorem marginCallAmounts_spec {rounds : Nat} {o : LimitOrder} {c : CallOrder} {feed : PriceFeed}
    {a : Asset × Asset} (hdust : o.NotDust) (h : marginCallAmounts rounds o c feed = .ok a) :
    ∃ usd, c.getMaxDebtToCover rounds o.sellPrice feed.settlementPrice
      feed.maintenanceCollateralRatio = .ok usd ∧
      Amounts o.amountForSale c o.sellPrice usd a.1 a.2 ∧ o.sellAssetId = c.debtType := by
  simp only [marginCallAmounts, bind_eq_ok, Asset.less_eq_ok] at h
  obtain ⟨usd, husd, less, ⟨hsell, rfl⟩, h⟩ := h
  refine ⟨usd, husd, ?_, hsell⟩
  split at h
  · rename_i hlt
    simp only [bind_eq_ok, pure_eq_ok] at h
    obtain ⟨pays, hpays, receives, hreceives, rfl⟩ := h
    exact .ofOrder (of_decide_eq_true hlt) hpays (hdust _ hpays) hreceives
  · rename_i hge
    simp only [bind_eq_ok, pure_eq_ok] at h
    obtain ⟨pays, hpays, rfl⟩ := h
    exact .ofCall (not_lt.mp fun hlt => hge (decide_eq_true hlt)) rfl hpays

theorem matchLimitAndCall_filled {bid ask : Nat} {p : Price} {c : CallOrder} {b : BitassetData}
    {feed : PriceFeed} {rounds : Nat} {r : Filled × Ledger} (hs : Shape N)
    (hc : N.callOrders.find ask = some c)
    (hb : N.bitasset c.debtType = .ok b)
    (h : matchLimitAndCall rounds N bid ask p feed = .ok r) :
    r = (⟨true, false⟩, N) ∨ ∃ forSale usd pays receives, forSale.assetId = c.debtType ∧
      c.getMaxDebtToCover rounds p feed.settlementPrice feed.maintenanceCollateralRatio = .ok usd ∧
      Amounts forSale c p usd pays receives ∧ CallFilled N.callOrders ask c pays.amount
        receives.amount b.currentFeed.maintenanceCollateralRatio r.2.callOrders := by
  rw [matchLimitAndCall_eq] at h
  simp only [bind_eq_ok, demand_eq_ok, require_eq_ok, exists_const] at h
  obtain ⟨o, ho, c', hc', hsell, -, -, amounts, hamounts, h⟩ := h
  obtain rfl : c = c' := Option.some.inj (hc.symm.trans hc')
  cases amounts with
  | none => exact Or.inl (pure_eq_ok.mp h)
  | some a =>
    obtain ⟨usd, husd, ha⟩ := matchAmounts_spec hamounts
    refine Or.inr ⟨o.amountForSale, usd, a.1, a.2.1, hsell, husd, ha, ?_⟩
    simp only [fillLimitAndCall, bind_eq_ok, pure_eq_ok] at h
    obtain ⟨taker, htaker, maker, hmaker, rfl⟩ := h
    have hkept := fillLimitOrder_callOrders htaker
    have hreceives : 0 ≤ a.2.1.amount := by
      cases ha with
      | ofOrder _ _ _ hreceives => exact Asset.multiplyAndRoundUp_nonneg hreceives
      | ofCall _ hreceives _ =>
        rw [hreceives]
        exact (CallOrder.getMaxDebtToCover_covers (le_of_lt (hs.callOrders ask c hc).debt_pos)
          husd).1
    have hchanges : Changes (fun _ => True) N taker.2 :=
      fillLimitOrder_changes hreceives (Or.inr trivial) htaker
    obtain ⟨d, b', hd, hb', hfilled⟩ := fillCallOrder_callOrders hmaker
    rw [hkept] at hd hfilled
    obtain rfl : c = d := Option.some.inj (hc.symm.trans hd)
    obtain ⟨b'', hb'', -, -, hfeed, -⟩ := bitasset_of_terms (hchanges.terms _) hb
    obtain rfl : b' = b'' := Except.ok.inj (hb'.symm.trans hb'')
    rw [hfeed] at hfilled
    exact hfilled

/-- A call order in `mia` that the feed does not protect is matched at a price, and the match fills
it. -/
structure CalledMatch (rounds : Nat) (mia : AssetId) (feed : PriceFeed) (N N' : Ledger) (call : Nat)
    (c : CallOrder) (forSale : Asset) (p : Price) (usd : Int) (pays receives : Asset) : Prop where
  order : N.callOrders.find call = some c
  debtType : c.debtType = mia
  called : c.callPrice ≤ feed.settlementPrice.inverse
  sale : forSale.assetId = c.debtType
  covers : c.getMaxDebtToCover rounds p feed.settlementPrice feed.maintenanceCollateralRatio =
    .ok usd
  amounts : Amounts forSale c p usd pays receives
  filled : CallFilled N.callOrders call c pays.amount receives.amount
    feed.maintenanceCollateralRatio N'.callOrders
  turn : Turn N N' 0

theorem matchCallsRound_called {rounds : Nat} {mia : AssetId} {feed : PriceFeed} {N' : Ledger}
    {callMin p : Price} {u : LimitOrder} {b : BitassetData} (hs : Shape N)
    (hb : N.bitasset mia = .ok b) (hfeed : b.currentFeed = feed)
    (hu : N.limitOrders.find id = some u) (hsell : u.sellAssetId = mia)
    (hround : matchCallsRound rounds id callMin p feed N = .ok (.inl N')) :
    ∃ call c forSale usd pays receives,
      CalledMatch rounds mia feed N N' call c forSale p usd pays receives := by
  have hturn := (matchCallsRound_turn hs hround).1 N' rfl
  simp only [matchCallsRound, bind_eq_ok, demand_eq_ok] at hround
  obtain ⟨u', hu', hround⟩ := hround
  obtain rfl : u = u' := Option.some.inj (hu.symm.trans hu')
  split at hround
  · cases pure_eq_ok.mp hround
  · rename_i call rest hcalls
    split at hround
    · cases pure_eq_ok.mp hround
    · rename_i hcalled
      simp only [not_or, not_not] at hcalled
      obtain ⟨hdebt, hcalled⟩ := hcalled
      simp only [bind_eq_ok] at hround
      obtain ⟨m, hm, hround⟩ := hround
      split at hround
      · cases pure_eq_ok.mp hround
      · rename_i htaker
        cases pure_eq_ok.mp hround
        have hc : N.callOrders.find call.1 = some call.2 := by
          have hmem : call ∈ N.callOrdersFrom callMin := hcalls ▸ List.mem_cons_self ..
          exact mem_sortRows.mp (List.mem_filter.mp hmem).1
        have hmia : call.2.debtType = mia := hdebt.trans hsell
        rcases matchLimitAndCall_filled hs hc (hmia.symm ▸ hb) hm with rfl |
          ⟨forSale, usd, pays, receives, hsale, husd, hamounts, hfilled⟩
        · exact absurd rfl htaker
        · rw [hfeed] at hfilled
          exact ⟨call.1, call.2, forSale, usd, pays, receives, hc, hmia, hcalled, hsale, husd,
            hamounts, hfilled, hturn⟩

/-! ### The start of `check_call_orders` -/

/-- What `check_call_orders` does before its loop: it returns, or it starts the loop between two
call prices with the limit orders that the squeeze price reaches. -/
def checkCallStart (L : Ledger) (mia : AssetId) (enableBlackSwan : Bool) :
    Attempt ((Bool × Ledger) ⊕ Price × Price × Calling) := do
  let a ← L.asset mia
  match a.bitassetData with
  | none => pure (.inl (false, L))
  | some b => do
    let swan ← L.checkForBlackswan mia enableBlackSwan
    let L := swan.2
    if swan.1 then pure (.inl (false, L))
    else if b.isPredictionMarket then pure (.inl (false, L))
    else if b.currentFeed.settlementPrice.isNull then pure (.inl (false, L))
    else do
      let maxPrice ← Price.greatest mia b.options.shortBackingAsset
      let minPrice ← b.currentFeed.maxShortSqueezePrice
      match L.limitOrdersBetween maxPrice minPrice with
      | [] => pure (.inl (false, L))
      | o :: os => do
        let callMin ← Price.smallest b.options.shortBackingAsset mia
        let callMax ← Price.greatest b.options.shortBackingAsset mia
        pure (.inr (callMin, callMax, ⟨L, (o :: os).map Prod.fst, false⟩))

theorem checkCallOrders_eq (rounds : Nat) (mia : AssetId) (enable : Bool) :
    L.checkCallOrders rounds mia enable = (do
      match ← L.checkCallStart mia enable with
      | .inl r => pure r
      | .inr s => loop (checkCallRound rounds mia enable s.1 s.2.1) rounds s.2.2) := by
  simp only [checkCallOrders, checkCallStart, bind_assoc]
  refine bind_congr fun a => ?_
  cases a.bitassetData with
  | none => simp
  | some b =>
    simp only [bind_assoc]
    refine bind_congr fun swan => ?_
    split
    · simp
    · split
      · simp
      · split
        · simp
        · simp only [bind_assoc]
          refine bind_congr fun top => bind_congr fun squeeze => ?_
          cases swan.2.limitOrdersBetween top squeeze <;> simp

end Ledger

end Nestchain.Market
