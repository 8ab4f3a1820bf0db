import Nestchain.Market.Effects

/-! The shape of a ledger: what holds of every order, bid and market-issued asset between the steps
of an operation, and the lines of the books that stay at zero all the time.  Only the lines of the
assets move while a fee or a fill is on its way. -/

namespace Nestchain.Market

open Lib

structure LimitOrder.Sound (o : LimitOrder) : Prop where
  forSale_pos : 0 < o.forSale
  deferredFee_nonneg : 0 ≤ o.deferredFee
  deferredPaidFee_nonneg : 0 ≤ o.deferredPaidFee.amount

/-- A call order in a ledger with the given bitasset data: it is backed, its debt asset is not
globally settled, and its call price is between `price::min` and `price::max`. -/
structure CallOrder.Sound (bitasset : AssetId → Attempt BitassetData) (c : CallOrder) : Prop where
  debt_pos : 0 < c.debt
  collateral_pos : 0 < c.collateral
  inRange : c.callPrice.InRange
  backed : ∃ b, bitasset c.debtType = .ok b ∧ b.options.shortBackingAsset = c.collateralType ∧
    b.hasSettlement = false

structure CollateralBid.Sound (bitasset : AssetId → Attempt BitassetData) (b : CollateralBid) :
    Prop where
  debt_pos : 0 < b.invSwanPrice.quote.amount
  collateral_nonneg : 0 ≤ b.invSwanPrice.base.amount
  backed : ∃ d, bitasset b.debtType = .ok d ∧
    d.options.shortBackingAsset = b.invSwanPrice.base.assetId

/-- The bitasset data of the asset `id`: the fund is empty until the asset is globally settled, and
then the settlement price is in the asset and its backing. -/
structure BitassetData.Sound (id : AssetId) (b : BitassetData) : Prop where
  backing_ne : b.options.shortBackingAsset ≠ id
  unsettled : b.hasSettlement = false → b.settlementFund = 0
  base_asset : b.hasSettlement = true → b.settlementPrice.base.assetId = id
  quote_asset : b.hasSettlement = true →
    b.settlementPrice.quote.assetId = b.options.shortBackingAsset
  quote_nonneg : b.hasSettlement = true → 0 ≤ b.settlementPrice.quote.amount
  fund_nonneg : 0 ≤ b.settlementFund

/-- The fund of a globally settled asset is enough for its supply at the settlement price, and
nothing is left of it when nothing is left of the supply. -/
structure BitassetData.Solvent (supply : Int) (b : BitassetData) : Prop where
  enough : supply * b.settlementPrice.quote.amount ≤
    b.settlementFund * b.settlementPrice.base.amount
  emptied : supply = 0 → b.settlementFund = 0

structure Shape (L : Ledger) : Prop where
  limitOrders : ∀ id o, L.limitOrders.find id = some o → o.Sound
  callOrders : ∀ id c, L.callOrders.find id = some c → c.Sound L.bitasset
  settlements : ∀ id s, L.settlements.find id = some s → 0 ≤ s.balance.amount
  bids : ∀ id b, L.bids.find id = some b → b.Sound L.bitasset
  nonneg : Nonneg L.accounts L.assets L.balances
  bitassets : ∀ id b, L.bitasset id = .ok b → b.Sound id
  solvent : ∀ id b, L.bitasset id = .ok b → b.hasSettlement = true → b.Solvent (L.supply id)
  debts : ∀ id, L.books (.debt id) = 0
  core : ∀ account, L.books (.core account) = 0

/-- The books move only on the lines of assets. -/
def OnAssets (δ : Books) : Prop := (∀ id, δ (.debt id) = 0) ∧ ∀ account, δ (.core account) = 0

theorem OnAssets.credit (a : Asset) : OnAssets (credit a) :=
  ⟨fun _ => by simp [Market.credit, entry_apply], fun _ => by simp [Market.credit, entry_apply]⟩

theorem OnAssets.zero : OnAssets 0 := ⟨fun _ => rfl, fun _ => rfl⟩

theorem OnAssets.add {δ ε : Books} (h : OnAssets δ) (h' : OnAssets ε) : OnAssets (δ + ε) :=
  ⟨fun i => by simp [h.1, h'.1], fun i => by simp [h.2, h'.2]⟩

theorem OnAssets.neg {δ : Books} (h : OnAssets δ) : OnAssets (-δ) :=
  ⟨fun i => by simp [h.1], fun i => by simp [h.2]⟩

theorem OnAssets.sub {δ ε : Books} (h : OnAssets δ) (h' : OnAssets ε) : OnAssets (δ - ε) := by
  rw [sub_eq_add_neg]
  exact h.add h'.neg

/-- A step within an operation: `δ` is added to the books on the lines of assets, the bitasset data
stay, and the ledger keeps its shape. -/
structure Turn (L L' : Ledger) (δ : Books) : Prop where
  books : L'.books = L.books + δ
  bitasset : ∀ id, L'.bitasset id = L.bitasset id
  shape : Shape L'

namespace Turn

theorem refl {L : Ledger} (h : Shape L) : Turn L L 0 := ⟨(add_zero _).symm, fun _ => rfl, h⟩

theorem trans {L L1 L2 : Ledger} {δ ε : Books} (h : Turn L L1 δ) (h' : Turn L1 L2 ε) :
    Turn L L2 (δ + ε) :=
  ⟨by rw [h'.books, h.books, add_assoc], fun id => (h'.bitasset id).trans (h.bitasset id), h'.shape⟩

theorem congr {L L1 : Ledger} {δ ε : Books} (h : Turn L L1 δ) (he : δ = ε) : Turn L L1 ε := he ▸ h

end Turn

theorem Shape.of_books {L L' : Ledger} {δ : Books} (h : Shape L) (hδ : OnAssets δ)
    (hb : L'.books = L.books + δ) (hbit : ∀ id, L'.bitasset id = L.bitasset id)
    (hsupply : SettledSupply L L')
    (hnonneg : Nonneg L.accounts L.assets L.balances → Nonneg L'.accounts L'.assets L'.balances)
    (hlimit : ∀ id o, L'.limitOrders.find id = some o → o.Sound)
    (hcall : ∀ id c, L'.callOrders.find id = some c → c.Sound L.bitasset)
    (hsettle : ∀ id s, L'.settlements.find id = some s → 0 ≤ s.balance.amount)
    (hbid : ∀ id b, L'.bids.find id = some b → b.Sound L.bitasset) : Shape L' := by
  have hfun : L'.bitasset = L.bitasset := funext hbit
  refine ⟨hlimit, hfun ▸ hcall, hsettle, hfun ▸ hbid, hnonneg h.nonneg, fun id b hb =>
    h.bitassets id b (hbit id ▸ hb),
    fun id b hb hset => ?_, ?_, ?_⟩
  · rw [hbit id] at hb
    rw [hsupply id b hb hset]
    exact h.solvent id b hb hset
  · intro id
    rw [hb, Pi.add_apply, h.debts, hδ.1, add_zero]
  · intro account
    rw [hb, Pi.add_apply, h.core, hδ.2, add_zero]

theorem Pays.turn {L L' : Ledger} {δ : Books} (h : Pays L L' δ) (hs : Shape L) (hδ : OnAssets δ) :
    Turn L L' δ :=
  ⟨h.books, h.bitasset, hs.of_books hδ h.books h.bitasset h.supply h.nonneg
    (h.limitOrders ▸ hs.limitOrders) (h.callOrders ▸ hs.callOrders)
    (h.settlements ▸ hs.settlements) (h.bids ▸ hs.bids)⟩

namespace Ledger

variable {L L' : Ledger} {id : Nat}

/-! ### Orders that are taken away -/

theorem books_removeLimitOrder {o : LimitOrder} (h : L.limitOrders.find id = some o) :
    Ledger.books { L with limitOrders := L.limitOrders.remove id } = L.books - o.worth := by
  simp only [Ledger.books, Table.sum_remove h]
  abel

theorem books_setLimitOrder {o : LimitOrder} (o' : LimitOrder)
    (h : L.limitOrders.find id = some o) :
    Ledger.books { L with limitOrders := L.limitOrders.set id o' } =
      L.books - o.worth + o'.worth := by
  simp only [Ledger.books, Table.sum_set h]
  abel

theorem books_removeCallOrder {c : CallOrder} (h : L.callOrders.find id = some c) :
    Ledger.books { L with callOrders := L.callOrders.remove id } = L.books - c.worth := by
  simp only [Ledger.books, Table.sum_remove h]
  abel

theorem books_setCallOrder {c : CallOrder} (c' : CallOrder) (h : L.callOrders.find id = some c) :
    Ledger.books { L with callOrders := L.callOrders.set id c' } =
      L.books - c.worth + c'.worth := by
  simp only [Ledger.books, Table.sum_set h]
  abel

theorem books_removeSettlement {s : ForceSettlement} (h : L.settlements.find id = some s) :
    Ledger.books { L with settlements := L.settlements.remove id } = L.books - s.worth := by
  simp only [Ledger.books, Table.sum_remove h]
  abel

theorem books_setSettlement {s : ForceSettlement} (s' : ForceSettlement)
    (h : L.settlements.find id = some s) :
    Ledger.books { L with settlements := L.settlements.set id s' } =
      L.books - s.worth + s'.worth := by
  simp only [Ledger.books, Table.sum_set h]
  abel

theorem books_removeBid {b : CollateralBid} (h : L.bids.find id = some b) :
    Ledger.books { L with bids := L.bids.remove id } = L.books - b.worth := by
  simp only [Ledger.books, Table.sum_remove h]
  abel

/-! ### Cancelling -/

theorem cancelBid_turn (hs : Shape L) (h : L.cancelBid id = .ok L') : Turn L L' 0 := by
  obtain ⟨b, M, hb, hM, rfl⟩ := cancelBid_spec h
  have hbooks : Ledger.books { M with bids := M.bids.remove id } = L.books + 0 := by
    rw [books_removeBid (hM.bids ▸ hb), hM.books]
    abel
  refine ⟨hbooks, hM.bitasset, hs.of_books OnAssets.zero hbooks hM.bitasset hM.supply hM.nonneg
    (hM.limitOrders ▸ hs.limitOrders) (hM.callOrders ▸ hs.callOrders)
    (hM.settlements ▸ hs.settlements) fun j b' hj => ?_⟩
  exact hs.bids j b' (hM.bids ▸ (Table.find_remove_iff.mp hj).2)

theorem cancelSettleOrder_turn (hs : Shape L) (h : L.cancelSettleOrder id = .ok L') :
    Turn L L' 0 := by
  obtain ⟨s, M, hf, hM, rfl⟩ := cancelSettleOrder_spec h
  have hbooks : Ledger.books { M with settlements := M.settlements.remove id } = L.books + 0 := by
    rw [books_removeSettlement (hM.settlements ▸ hf), hM.books]
    abel
  refine ⟨hbooks, hM.bitasset, hs.of_books OnAssets.zero hbooks hM.bitasset hM.supply hM.nonneg
    (hM.limitOrders ▸ hs.limitOrders) (hM.callOrders ▸ hs.callOrders) (fun j s' hj => ?_)
    (hM.bids ▸ hs.bids)⟩
  exact hs.settlements j s' (hM.settlements ▸ (Table.find_remove_iff.mp hj).2)

/-- The orders differ only in the limit order `id`. -/
structure OnlyLimitOrder (L L' : Ledger) (id : Nat) : Prop where
  others : ∀ j ≠ id, L'.limitOrders.find j = L.limitOrders.find j
  callOrders : L'.callOrders = L.callOrders
  settlements : L'.settlements = L.settlements

theorem cancelLimitOrder_turn {virtualOp skipFee : Bool} (hs : Shape L)
    (h : L.cancelLimitOrder id virtualOp skipFee = .ok L') :
    Turn L L' 0 ∧ OnlyLimitOrder L L' id := by
  obtain ⟨o, M, ho, hM, rfl⟩ := cancelLimitOrder_spec (fun o ho =>
    ⟨(hs.limitOrders id o ho).deferredFee_nonneg,
      (hs.limitOrders id o ho).deferredPaidFee_nonneg⟩) h
  have hbooks : Ledger.books { M with limitOrders := M.limitOrders.remove id } = L.books + 0 := by
    rw [books_removeLimitOrder (hM.limitOrders ▸ ho), hM.books]
    abel
  refine ⟨⟨hbooks, hM.bitasset, hs.of_books OnAssets.zero hbooks hM.bitasset hM.supply hM.nonneg
    (fun j o' hj => ?_) (hM.callOrders ▸ hs.callOrders) (hM.settlements ▸ hs.settlements)
    (hM.bids ▸ hs.bids)⟩, fun j hj => ?_, hM.callOrders,
    hM.settlements⟩
  · exact hs.limitOrders j o' (hM.limitOrders ▸ (Table.find_remove_iff.mp hj).2)
  · exact (Table.find_remove_ne hj).trans (by rw [hM.limitOrders])

/-! ### Filling -/

theorem OnlyLimitOrder.trans {L1 L2 : Ledger} (h : OnlyLimitOrder L L1 id)
    (h' : OnlyLimitOrder L1 L2 id) : OnlyLimitOrder L L2 id :=
  ⟨fun j hj => (h'.others j hj).trans (h.others j hj), h'.callOrders.trans h.callOrders,
    h'.settlements.trans h.settlements⟩

theorem maybeCullSmallOrder_turn {r : Bool × Ledger} (hs : Shape L)
    (h : L.maybeCullSmallOrder id = .ok r) : Turn L r.2 0 ∧ OnlyLimitOrder L r.2 id := by
  simp only [maybeCullSmallOrder, bind_eq_ok, demand_eq_ok] at h
  obtain ⟨o, -, receives, -, h⟩ := h
  split at h
  · simp only [bind_eq_ok, pure_eq_ok] at h
    obtain ⟨M, hM, rfl⟩ := h
    exact cancelLimitOrder_turn hs hM
  · obtain rfl := pure_eq_ok.mp h
    exact ⟨Turn.refl hs, fun _ _ => rfl, rfl, rfl⟩

theorem afterFill_worth (o : LimitOrder) {pays : Asset} (hid : o.sellAssetId = pays.assetId) :
    (o.afterFill pays).worth =
      o.worth - o.feesWorth - inOrders o.seller pays - credit pays := by
  have hsale : (o.afterFill pays).amountForSale = ⟨o.forSale - pays.amount, pays.assetId⟩ := by
    rw [← hid]
    rfl
  have hpays : o.amountForSale = ⟨o.forSale, pays.assetId⟩ := by
    rw [← hid]
    rfl
  simp only [LimitOrder.worth, hsale, hpays, credit_sub, inOrders_sub, LimitOrder.feesWorth]
  simp only [LimitOrder.afterFill, credit_zero]
  abel

theorem afterFill_sound {o : LimitOrder} {pays : Asset} (hid : o.sellAssetId = pays.assetId)
    (hle : pays.amount ≤ o.forSale) (hne : pays ≠ o.amountForSale) : (o.afterFill pays).Sound := by
  have hlt : pays.amount ≠ o.forSale := fun he => hne (Asset.ext he hid.symm)
  exact ⟨show 0 < o.forSale - pays.amount by omega, le_refl _, le_refl _⟩

theorem fillLimitOrder_turn {pays receives : Asset} {cull : Bool} {r : Bool × Ledger}
    (hs : Shape L) (hr : 0 ≤ receives.amount)
    (hpays : ∀ o, L.limitOrders.find id = some o → pays.amount ≤ o.forSale)
    (h : L.fillLimitOrder id pays receives cull = .ok r) :
    Turn L r.2 (credit receives - credit pays) ∧ OnlyLimitOrder L r.2 id ∧
      pays.assetId ≠ receives.assetId ∧
      ∀ o, L.limitOrders.find id = some o → o.sellAssetId = pays.assetId := by
  simp only [fillLimitOrder, bind_eq_ok, demand_eq_ok, require_eq_ok, exists_const,
    Asset.minus_eq_ok] at h
  obtain ⟨o, ho, hid, hne, paid, hpaid, net, ⟨hfid, rfl⟩, M1, h1, M, h2, h⟩ := h
  have hsound := hs.limitOrders id o ho
  have hsell : ∀ o', L.limitOrders.find id = some o' → o'.sellAssetId = pays.assetId :=
    fun o' ho' => Option.some.inj (ho'.symm.trans ho) ▸ hid
  have hM : Pays L M (credit receives + inOrders o.seller pays + o.feesWorth) := by
    refine (((payMarketFees_pays hr hpaid).trans (payOrder_pays h1)).trans
      (payDeferredFees_pays hsound.deferredFee_nonneg hsound.deferredPaidFee_nonneg h2)).congr ?_
    have hfee : credit paid.1 = credit ⟨paid.1.amount, receives.assetId⟩ := by rw [hfid]
    rw [credit_sub, hfee]
    abel
  have ho' : M.limitOrders.find id = some o := hM.limitOrders ▸ ho
  have hon := (OnAssets.credit receives).sub (OnAssets.credit pays)
  split at h
  · -- the order is filled and goes
    rename_i hall
    obtain rfl := pure_eq_ok.mp h
    have hbooks : Ledger.books { M with limitOrders := M.limitOrders.remove id } =
        L.books + (credit receives - credit pays) := by
      rw [books_removeLimitOrder ho', hM.books, LimitOrder.worth, hall, LimitOrder.feesWorth]
      abel
    refine ⟨⟨hbooks, hM.bitasset, hs.of_books hon hbooks hM.bitasset hM.supply hM.nonneg
      (fun j o' hj => ?_) (hM.callOrders ▸ hs.callOrders) (hM.settlements ▸ hs.settlements)
      (hM.bids ▸ hs.bids)⟩, ⟨fun j hj => ?_, hM.callOrders,
      hM.settlements⟩, hne, hsell⟩
    · exact hs.limitOrders j o' (hM.limitOrders ▸ (Table.find_remove_iff.mp hj).2)
    · exact (Table.find_remove_ne hj).trans (by rw [hM.limitOrders])
  · -- some of the order is left
    rename_i hleft
    have hbooks : Ledger.books { M with limitOrders := M.limitOrders.set id (o.afterFill pays) } =
        L.books + (credit receives - credit pays) := by
      rw [books_setLimitOrder _ ho', hM.books, afterFill_worth o hid]
      abel
    have hturn : Turn L { M with limitOrders := M.limitOrders.set id (o.afterFill pays) }
        (credit receives - credit pays) := by
      refine ⟨hbooks, hM.bitasset, hs.of_books hon hbooks hM.bitasset hM.supply hM.nonneg
        (fun j o' hj => ?_) (hM.callOrders ▸ hs.callOrders) (hM.settlements ▸ hs.settlements)
        (hM.bids ▸ hs.bids)⟩
      rcases (Table.find_set_iff ho').mp hj with ⟨rfl, rfl⟩ | ⟨-, hj⟩
      · exact afterFill_sound hid (hpays o ho) hleft
      · exact hs.limitOrders j o' (hM.limitOrders ▸ hj)
    have honly : OnlyLimitOrder L
        { M with limitOrders := M.limitOrders.set id (o.afterFill pays) } id :=
      ⟨fun j hj => (Table.find_set_ne hj).trans (by rw [hM.limitOrders]), hM.callOrders,
        hM.settlements⟩
    split at h
    · obtain ⟨hcull, honly'⟩ := maybeCullSmallOrder_turn hturn.shape h
      exact ⟨(hturn.trans hcull).congr (add_zero _), honly.trans honly', hne, hsell⟩
    · obtain rfl := pure_eq_ok.mp h
      exact ⟨hturn, honly, hne, hsell⟩

/-- The orders differ only in the call order `id`. -/
structure OnlyCallOrder (L L' : Ledger) (id : Nat) : Prop where
  others : ∀ j ≠ id, L'.callOrders.find j = L.callOrders.find j
  limitOrders : L'.limitOrders = L.limitOrders
  settlements : L'.settlements = L.settlements

theorem fillCallOrder_turn {pays receives : Asset} {r : Bool × Ledger} (hs : Shape L)
    (hreceives : ∀ c, L.callOrders.find id = some c → receives.amount ≤ c.debt)
    (h : L.fillCallOrder id pays receives = .ok r) :
    Turn L r.2 (credit receives - credit pays) ∧ OnlyCallOrder L r.2 id ∧
      (r.1 = true → r.2.callOrders.find id = none) ∧ pays.assetId ≠ receives.assetId := by
  simp only [fillCallOrder, bind_eq_ok, demand_eq_ok, require_eq_ok, exists_const] at h
  obtain ⟨c, hc, hdebt, hcoll, hle, mia, hmia, M1, h1, M2, h2, h⟩ := h
  have hsound := hs.callOrders id c hc
  obtain ⟨b, hb, hbacking, hunsettled⟩ := hsound.backed
  obtain rfl : b = mia := Except.ok.inj (hb.symm.trans (hdebt ▸ hmia))
  have hne : pays.assetId ≠ receives.assetId := by
    rw [← hcoll, ← hdebt, ← hbacking]
    exact (hs.bitassets _ b hb).backing_ne
  have hM2 : Pays L M2 (credit receives + entry (.debt receives.assetId) receives.amount +
      inOrders c.borrower pays) := by
    refine ((subSupply_pays hmia hunsettled h1).trans (noteInOrders_pays h2)).congr ?_
    rw [inOrders_neg, neg_neg]
  have hworth : c.worth = credit ⟨c.collateral, pays.assetId⟩ +
      inOrders c.borrower ⟨c.collateral, pays.assetId⟩ + entry (.debt receives.assetId) c.debt := by
    rw [← hcoll, ← hdebt]
    rfl
  have hon := (OnAssets.credit receives).sub (OnAssets.credit pays)
  split at h
  · -- the position is closed
    rename_i hzero
    simp only [bind_eq_ok, pure_eq_ok] at h
    obtain ⟨M3, h3, M, h4, rfl⟩ := h
    have hM := (hM2.trans (adjustBalance_pays h3)).trans (noteInOrders_pays h4)
    have hc' : M.callOrders.find id = some c := hM.callOrders ▸ hc
    have hamount : receives.amount = c.debt := (sub_eq_zero.mp hzero).symm
    have hbooks : Ledger.books { M with callOrders := M.callOrders.remove id } =
        L.books + (credit receives - credit pays) := by
      rw [books_removeCallOrder hc', hM.books, hworth, hamount, inOrders_neg, hcoll, credit_sub,
        inOrders_sub]
      abel
    refine ⟨⟨hbooks, hM.bitasset, hs.of_books hon hbooks hM.bitasset hM.supply hM.nonneg
      (hM.limitOrders ▸ hs.limitOrders) (fun j c' hj => ?_)
      (hM.settlements ▸ hs.settlements) (hM.bids ▸ hs.bids)⟩,
      ⟨fun j hj => ?_, hM.limitOrders, hM.settlements⟩,
      fun _ => Table.find_remove_self M.callOrders id, hne⟩
    · exact hs.callOrders j c' (hM.callOrders ▸ (Table.find_remove_iff.mp hj).2)
    · exact (Table.find_remove_ne hj).trans (by rw [hM.callOrders])
  · -- the position goes on with less debt and collateral
    rename_i hpos
    simp only [bind_eq_ok, pure_eq_ok] at h
    obtain ⟨p, hp, rfl⟩ := h
    obtain ⟨-, hpbase, hpquote, hcne⟩ := Price.callPrice_ids hp
    have hc' : M2.callOrders.find id = some c := hM2.callOrders ▸ hc
    have hdebtPos : 0 < c.debt - receives.amount := by
      have := hreceives c hc
      omega
    have hcollPos : 0 < c.collateral - pays.amount :=
      lt_of_le_of_ne (sub_nonneg.mpr hle) (Ne.symm hcne)
    have hrange := Price.callPrice_inRange hp hdebtPos hcollPos
      (Nat.lt_of_lt_of_le (by decide) b.currentFeed.maintenance_range.1)
    have hleft : CallOrder.worth ⟨c.borrower, c.collateral - pays.amount,
        c.debt - receives.amount, p, c.targetCollateralRatio⟩ = c.worth - credit pays -
          inOrders c.borrower pays - entry (.debt receives.assetId) receives.amount := by
      rw [hworth]
      simp only [CallOrder.worth, CallOrder.getCollateral, CallOrder.collateralType,
        CallOrder.debtType, hpbase, hpquote]
      rw [show c.callPrice.base.assetId = pays.assetId from hcoll,
        show c.callPrice.quote.assetId = receives.assetId from hdebt, credit_sub, inOrders_sub,
        entry_sub]
      abel
    have hbooks := books_setCallOrder ⟨c.borrower, c.collateral - pays.amount,
      c.debt - receives.amount, p, c.targetCollateralRatio⟩ hc'
    replace hbooks := hbooks.trans (show _ = L.books + (credit receives - credit pays) by
      rw [hleft, hM2.books]
      abel)
    refine ⟨⟨hbooks, hM2.bitasset, hs.of_books hon hbooks hM2.bitasset hM2.supply hM2.nonneg
      (hM2.limitOrders ▸ hs.limitOrders) (fun j c' hj => ?_)
      (hM2.settlements ▸ hs.settlements) (hM2.bids ▸ hs.bids)⟩,
      ⟨fun j hj => ?_, hM2.limitOrders, hM2.settlements⟩, fun h => (by cases h), hne⟩
    · rcases (Table.find_set_iff hc').mp hj with ⟨rfl, rfl⟩ | ⟨-, hj⟩
      · refine ⟨hdebtPos, hcollPos, hrange, b, ?_, ?_, hunsettled⟩
        · exact (congrArg L.bitasset hpquote).trans hb
        · exact hbacking.trans hpbase.symm
      · exact hs.callOrders j c' (hM2.callOrders ▸ hj)
    · exact (Table.find_set_ne hj).trans (by rw [hM2.callOrders])

theorem fillSettleOrder_turn {pays receives : Asset} {r : Bool × Ledger} (hs : Shape L)
    (hr : 0 ≤ receives.amount)
    (hpays : ∀ s, L.settlements.find id = some s → pays.amount ≤ s.balance.amount)
    (h : L.fillSettleOrder id pays receives = .ok r) :
    Turn L r.2 (credit receives - credit pays) := by
  simp only [fillSettleOrder, bind_eq_ok, demand_eq_ok, Asset.minus_eq_ok,
    Asset.less_eq_ok] at h
  obtain ⟨s, hf, paid, hpaid, isPartial, ⟨hid, rfl⟩, net, ⟨hfid, rfl⟩, M, h1, h⟩ := h
  have hM : Pays L M (credit receives) := by
    refine ((payMarketFees_pays hr hpaid).trans (adjustBalance_pays h1)).congr ?_
    have hfee : credit paid.1 = credit ⟨paid.1.amount, receives.assetId⟩ := by rw [hfid]
    rw [credit_sub, hfee]
    abel
  have hf' : M.settlements.find id = some s := hM.settlements ▸ hf
  have hon := (OnAssets.credit receives).sub (OnAssets.credit pays)
  have hbalance : s.worth = credit ⟨s.balance.amount, pays.assetId⟩ := by
    rw [hid]
    rfl
  split at h
  · obtain rfl := pure_eq_ok.mp h
    have hbooks := (books_setSettlement
      ⟨s.owner, ⟨s.balance.amount - pays.amount, s.balance.assetId⟩, s.settlementDate⟩ hf').trans
      (show _ = L.books + (credit receives - credit pays) by
        rw [hM.books, hbalance, ForceSettlement.worth, ← hid, credit_sub]
        abel)
    refine ⟨hbooks, hM.bitasset, hs.of_books hon hbooks hM.bitasset hM.supply hM.nonneg
      (hM.limitOrders ▸ hs.limitOrders) (hM.callOrders ▸ hs.callOrders) (fun j s' hj => ?_)
      (hM.bids ▸ hs.bids)⟩
    rcases (Table.find_set_iff hf').mp hj with ⟨-, rfl⟩ | ⟨-, hj⟩
    · exact sub_nonneg.mpr (hpays s hf)
    · exact hs.settlements j s' (hM.settlements ▸ hj)
  · rename_i hfull
    obtain rfl := pure_eq_ok.mp h
    have hall : s.balance.amount = pays.amount :=
      le_antisymm (not_lt.mp fun hlt => hfull (decide_eq_true hlt)) (hpays s hf)
    have hbooks : Ledger.books { M with settlements := M.settlements.remove id } =
        L.books + (credit receives - credit pays) := by
      rw [books_removeSettlement hf', hM.books, hbalance, hall]
      abel
    refine ⟨hbooks, hM.bitasset, hs.of_books hon hbooks hM.bitasset hM.supply hM.nonneg
      (hM.limitOrders ▸ hs.limitOrders) (hM.callOrders ▸ hs.callOrders) (fun j s' hj => ?_)
      (hM.bids ▸ hs.bids)⟩
    exact hs.settlements j s' (hM.settlements ▸ (Table.find_remove_iff.mp hj).2)

end Ledger

end Nestchain.Market
