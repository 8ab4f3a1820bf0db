import Nestchain.Market.Conservation

/-! What the market can do to a ledger, in single changes.  Money moves, an order is filled, changed
or removed, or a new one is created; every function of the market is a sequence of such changes, and
what each change keeps holds in every ledger that a run reaches. -/

namespace Nestchain.Market

open Lib

/-- The part of an asset that the market leaves as it is. -/
def AssetObject.terms (a : AssetObject) : AccountId × AssetOptions ×
    Option (BitassetOptions × List PublishedFeed × PriceFeed × Bool) :=
  (a.issuer, a.options,
    a.bitassetData.map fun b => (b.options, b.feeds, b.currentFeed, b.isPredictionMarket))

/-- Only money has moved: the orders are the same, the accounts are still there, and the assets have
the same terms. -/
structure Funds (L L' : Ledger) : Prop where
  rest : L' = { L with accounts := L'.accounts, assets := L'.assets, balances := L'.balances }
  accounts : ∀ id, (L.accounts.find id).isSome → (L'.accounts.find id).isSome
  assets : ∀ id, (L'.assets.find id).map AssetObject.terms =
    (L.assets.find id).map AssetObject.terms

/-- The call price of an order is the one for its debt and collateral and the ratio. -/
def CallOrder.Priced (c : CallOrder) (ratio : Nat) : Prop :=
  Price.callPrice c.getDebt c.getCollateral ratio = .ok c.callPrice

/-- What the order would receive is not nothing. -/
def LimitOrder.Receives (o : LimitOrder) : Prop :=
  ∃ receives, o.amountToReceive = .ok receives ∧ receives.amount ≠ 0

/-- A single change.  The orders in `loose` are being matched: what is left of one of them may be
too little to receive anything. -/
inductive Change (loose : Nat → Prop) : Ledger → Ledger → Prop
  | funds {L L' : Ledger} (h : Funds L L') : Change loose L L'
  | createLimitOrder (L : Ledger) (o : LimitOrder) (hloose : loose L.limitOrders.next)
      (hseller : (L.accounts.find o.seller).isSome)
      (hsell : (L.assets.find o.sellAssetId).isSome)
      (hreceive : (L.assets.find o.receiveAssetId).isSome)
      (hpaid : o.deferredPaidFee.amount ≠ 0 → (L.assets.find o.deferredPaidFee.assetId).isSome) :
      Change loose L { L with limitOrders := L.limitOrders.create o }
  | fillLimitOrder {L : Ledger} {id : Nat} {o : LimitOrder} (pays : Asset)
      (ho : L.limitOrders.find id = some o) (hpays : 0 ≤ pays.amount)
      (hleft : loose id ∨ (o.afterFill pays).Receives) :
      Change loose L { L with limitOrders := L.limitOrders.set id (o.afterFill pays) }
  | removeLimitOrder (L : Ledger) (id : Nat) :
      Change loose L { L with limitOrders := L.limitOrders.remove id }
  | createCallOrder {L : Ledger} {c : CallOrder} {b : BitassetData}
      (hb : L.bitasset c.debtType = .ok b)
      (hborrower : (L.accounts.find c.borrower).isSome ∨
        (∃ id d, L.bids.find id = some d ∧ d.bidder = c.borrower) ∨
        ∃ id a, L.assets.find id = some a ∧ a.issuer = c.borrower)
      (hpriced : c.Priced b.currentFeed.maintenanceCollateralRatio)
      (hfree : ∀ id d, L.callOrders.find id = some d → d.debtType = c.debtType →
        d.borrower ≠ c.borrower) :
      Change loose L { L with callOrders := L.callOrders.create c }
  | setCallOrder {L : Ledger} {id : Nat} {c c' : CallOrder} {b : BitassetData}
      (hc : L.callOrders.find id = some c) (hb : L.bitasset c.debtType = .ok b)
      (hborrower : c'.borrower = c.borrower) (hdebt : c'.debtType = c.debtType)
      (hcollateral : c'.collateralType = c.collateralType)
      (hpriced : c'.Priced b.currentFeed.maintenanceCollateralRatio) :
      Change loose L { L with callOrders := L.callOrders.set id c' }
  | removeCallOrder (L : Ledger) (id : Nat) :
      Change loose L { L with callOrders := L.callOrders.remove id }
  | createSettlement {L : Ledger} {b : BitassetData} (s : ForceSettlement)
      (hb : L.bitasset s.balance.assetId = .ok b) :
      Change loose L { L with settlements := L.settlements.create s }
  | setSettlement {L : Ledger} {id : Nat} {s : ForceSettlement} (balance : Int)
      (hs : L.settlements.find id = some s) :
      Change loose L { L with
        settlements := L.settlements.set id { s with balance := ⟨balance, s.balance.assetId⟩ } }
  | removeSettlement (L : Ledger) (id : Nat) :
      Change loose L { L with settlements := L.settlements.remove id }
  | createBid (L : Ledger) (d : CollateralBid) (hbidder : (L.accounts.find d.bidder).isSome)
      (hcollateral : 0 < d.invSwanPrice.base.amount)
      (hfree : ∀ id e, L.bids.find id = some e → e.debtType = d.debtType → e.bidder ≠ d.bidder) :
      Change loose L { L with bids := L.bids.create d }
  | issuerBid (L : Ledger) (d : CollateralBid) :
      Change loose L { L with bids := (L.bids.create d).remove L.bids.next }
  | removeBid (L : Ledger) (id : Nat) : Change loose L { L with bids := L.bids.remove id }

def Changes (loose : Nat → Prop) : Ledger → Ledger → Prop := Relation.ReflTransGen (Change loose)

def noOrder : Nat → Prop := fun _ => False

namespace Funds

variable {L L' L1 : Ledger}

theorem refl (L : Ledger) : Funds L L := ⟨rfl, fun _ h => h, fun _ => rfl⟩

theorem trans (h : Funds L L1) (h' : Funds L1 L') : Funds L L' := by
  refine ⟨?_, fun id hid => h'.accounts id (h.accounts id hid), fun id =>
    (h'.assets id).trans (h.assets id)⟩
  rw [h'.rest, h.rest]

theorem changes {loose : Nat → Prop} (h : Funds L L') : Changes loose L L' :=
  Relation.ReflTransGen.single (.funds h)

theorem limitOrders (h : Funds L L') : L'.limitOrders = L.limitOrders := by rw [h.rest]

theorem callOrders (h : Funds L L') : L'.callOrders = L.callOrders := by rw [h.rest]

theorem settlements (h : Funds L L') : L'.settlements = L.settlements := by rw [h.rest]

theorem bids (h : Funds L L') : L'.bids = L.bids := by rw [h.rest]

end Funds

/-! ### Money -/

namespace Ledger

variable {L L' M : Ledger} {loose : Nat → Prop} {id : Nat}

theorem terms_set {a a' : AssetObject} (ha : L.assets.find id = some a) (h : a'.terms = a.terms)
    (j : Nat) : ((L.assets.set id a').find j).map AssetObject.terms =
      (L.assets.find j).map AssetObject.terms := by
  by_cases hj : j = id
  · subst hj
    rw [Table.find_set_self ha, ha, Option.map_some, Option.map_some, h]
  · rw [Table.find_set_ne hj]

theorem modifyAsset_funds {f : AssetObject → AssetObject}
    (hf : ∀ a, L.assets.find id = some a → (f a).terms = a.terms)
    (h : L.modifyAsset id f = .ok L') :
    Funds L L' := by
  simp only [modifyAsset, asset, bind_eq_ok, demand_eq_ok, pure_eq_ok] at h
  obtain ⟨a, ha, rfl⟩ := h
  exact ⟨rfl, fun _ h => h, terms_set ha (hf a ha)⟩

theorem modifyDynamicData_funds {f : AssetDynamicData → AssetDynamicData}
    (h : L.modifyDynamicData id f = .ok L') : Funds L L' :=
  modifyAsset_funds (f := fun a => { a with dynamicData := f a.dynamicData }) (fun _ _ => rfl) h

theorem modifyBitasset_funds {f : BitassetData → BitassetData}
    (h : L.modifyBitasset id f = .ok L')
    (hf : ∀ b, (f b).options = b.options ∧ (f b).feeds = b.feeds ∧
      (f b).currentFeed = b.currentFeed ∧ (f b).isPredictionMarket = b.isPredictionMarket) :
    Funds L L' := by
  simp only [modifyBitasset, bind_eq_ok] at h
  obtain ⟨b, hb, h⟩ := h
  obtain ⟨a, ha, hab⟩ := bitasset_eq_ok.mp hb
  obtain ⟨h1, h2, h3, h4⟩ := hf b
  refine modifyAsset_funds (fun a' ha' => ?_) h
  obtain rfl : a = a' := Option.some.inj (ha.symm.trans ha')
  simp only [AssetObject.terms, hab, Option.map_some, h1, h2, h3, h4]

theorem modifyStatistics_funds {f : AccountStatistics → AccountStatistics}
    (h : L.modifyStatistics id f = .ok L') : Funds L L' := by
  simp only [modifyStatistics, bind_eq_ok, demand_eq_ok, pure_eq_ok] at h
  obtain ⟨a, ha, rfl⟩ := h
  refine ⟨rfl, fun j hj => ?_, fun _ => rfl⟩
  by_cases hid : j = id
  · subst hid
    rw [Table.find_set_self ha]
    rfl
  · rwa [Table.find_set_ne hid]

theorem noteInOrders_funds {a : Asset} (h : L.noteInOrders id a = .ok L') : Funds L L' := by
  unfold noteInOrders at h
  split at h
  · exact modifyStatistics_funds h
  · exact pure_eq_ok.mp h ▸ Funds.refl _

theorem adjustBalance_funds {delta : Asset} (h : L.adjustBalance id delta = .ok L') :
    Funds L L' := by
  unfold adjustBalance at h
  split at h
  · exact pure_eq_ok.mp h ▸ Funds.refl _
  · split at h <;> simp only [bind_eq_ok, require_eq_ok, exists_const, pure_eq_ok] at h <;>
      obtain ⟨-, rfl⟩ := h <;> exact ⟨rfl, fun _ h => h, fun _ => rfl⟩

theorem payCancelFee_funds {o : LimitOrder} {r : LimitOrder × Ledger}
    (h : L.payCancelFee o = .ok r) : Funds L r.2 := by
  simp only [payCancelFee] at h
  split at h
  · simp only [bind_eq_ok] at h
    obtain ⟨M, hM, h⟩ := h
    split at h
    · exact pure_eq_ok.mp h ▸ modifyStatistics_funds hM
    · simp only [bind_eq_ok, pure_eq_ok] at h
      obtain ⟨N, hN, rfl⟩ := h
      exact (modifyStatistics_funds hM).trans (modifyDynamicData_funds hN)
  · exact pure_eq_ok.mp h ▸ Funds.refl _

theorem refundFee_funds {o : LimitOrder} {paid : Bool} (h : L.refundFee o paid = .ok L') :
    Funds L L' := by
  unfold refundFee at h
  split at h
  · simp only [bind_eq_ok] at h
    obtain ⟨M, hM, h⟩ := h
    exact (adjustBalance_funds hM).trans (modifyDynamicData_funds h)
  · exact adjustBalance_funds h

theorem payMarketFees_funds {receives : Asset} {r : Asset × Ledger}
    (h : L.payMarketFees receives = .ok r) : Funds L r.2 := by
  simp only [payMarketFees, bind_eq_ok] at h
  obtain ⟨a, -, h⟩ := h
  split at h
  · simp only [bind_eq_ok, pure_eq_ok] at h
    obtain ⟨M, hM, rfl⟩ := h
    exact modifyDynamicData_funds hM
  · exact pure_eq_ok.mp h ▸ Funds.refl _

theorem payOrder_funds {receives pays : Asset} (h : L.payOrder id receives pays = .ok L') :
    Funds L L' := by
  simp only [payOrder, bind_eq_ok] at h
  obtain ⟨M, hM, h⟩ := h
  exact (noteInOrders_funds hM).trans (adjustBalance_funds h)

theorem payDeferredFees_funds {o : LimitOrder} (h : L.payDeferredFees o = .ok L') : Funds L L' := by
  simp only [payDeferredFees, bind_eq_ok] at h
  obtain ⟨M, hM, h⟩ := h
  have hfirst : Funds L M := by
    split at hM
    · exact modifyStatistics_funds hM
    · exact pure_eq_ok.mp hM ▸ Funds.refl _
  refine hfirst.trans ?_
  split at h
  · exact modifyDynamicData_funds h
  · exact pure_eq_ok.mp h ▸ Funds.refl _

/-! ### Cancelling and filling -/

theorem cancelBid_changes (h : L.cancelBid id = .ok L') : Changes loose L L' := by
  simp only [cancelBid, bind_eq_ok, demand_eq_ok, pure_eq_ok] at h
  obtain ⟨b, -, M, hM, rfl⟩ := h
  exact (adjustBalance_funds hM).changes.tail (.removeBid M id)

theorem cancelSettleOrder_changes (h : L.cancelSettleOrder id = .ok L') : Changes loose L L' := by
  simp only [cancelSettleOrder, bind_eq_ok, demand_eq_ok, pure_eq_ok] at h
  obtain ⟨s, -, M, hM, rfl⟩ := h
  exact (adjustBalance_funds hM).changes.tail (.removeSettlement M id)

theorem cancelLimitOrder_funds {virtualOp skipFee : Bool}
    (h : L.cancelLimitOrder id virtualOp skipFee = .ok L') :
    ∃ M, Funds L M ∧ L' = { M with limitOrders := M.limitOrders.remove id } := by
  simp only [cancelLimitOrder, bind_eq_ok, demand_eq_ok, pure_eq_ok] at h
  obtain ⟨o, -, left, hleft, M1, h1, M2, h2, M3, h3, rfl⟩ := h
  have hfee : Funds L left.2 := by
    split at hleft
    · exact payCancelFee_funds hleft
    · exact pure_eq_ok.mp hleft ▸ Funds.refl _
  exact ⟨M3, hfee.trans ((noteInOrders_funds h1).trans ((adjustBalance_funds h2).trans
    (refundFee_funds h3))), rfl⟩

theorem cancelLimitOrder_changes {virtualOp skipFee : Bool}
    (h : L.cancelLimitOrder id virtualOp skipFee = .ok L') : Changes loose L L' := by
  obtain ⟨M, hM, rfl⟩ := cancelLimitOrder_funds h
  exact hM.changes.tail (.removeLimitOrder M id)

theorem maybeCullSmallOrder_changes {r : Bool × Ledger}
    (h : L.maybeCullSmallOrder id = .ok r) : Changes loose L r.2 := by
  simp only [maybeCullSmallOrder, bind_eq_ok, demand_eq_ok] at h
  obtain ⟨o, -, receives, -, h⟩ := h
  split at h
  · simp only [bind_eq_ok, pure_eq_ok] at h
    obtain ⟨M, hM, rfl⟩ := h
    exact cancelLimitOrder_changes hM
  · exact pure_eq_ok.mp h ▸ Relation.ReflTransGen.refl

theorem cullFilled_changes {o : LimitOrder} {pays : Asset} {r : Bool × Ledger}
    (ho : M.limitOrders.find id = some o) (hpays : 0 ≤ pays.amount)
    (h : maybeCullSmallOrder { M with limitOrders := M.limitOrders.set id (o.afterFill pays) } id =
      .ok r) : Changes loose M r.2 := by
  simp only [maybeCullSmallOrder, bind_eq_ok, demand_eq_ok] at h
  obtain ⟨o', ho', receives, hreceives, h⟩ := h
  obtain rfl : o.afterFill pays = o' := Option.some.inj ((Table.find_set_self ho).symm.trans ho')
  split at h
  · simp only [bind_eq_ok, pure_eq_ok] at h
    obtain ⟨N, hN, rfl⟩ := h
    obtain ⟨N', hfunds, rfl⟩ := cancelLimitOrder_funds hN
    -- the money that is paid does not depend on the orders
    have hmoney : Funds M { N' with limitOrders := M.limitOrders } := by
      refine ⟨?_, hfunds.accounts, hfunds.assets⟩
      rw [hfunds.rest]
    refine hmoney.changes.tail ?_
    have hremoved : N'.limitOrders.remove id = M.limitOrders.remove id := by
      rw [hfunds.limitOrders]
      exact Table.remove_set _ _ _
    rw [hremoved]
    exact .removeLimitOrder { N' with limitOrders := M.limitOrders } id
  · rename_i hne
    obtain rfl := pure_eq_ok.mp h
    exact Relation.ReflTransGen.single (.fillLimitOrder pays ho hpays
      (Or.inr ⟨receives, hreceives, hne⟩))

theorem fillLimitOrder_changes {pays receives : Asset} {cull : Bool} {r : Bool × Ledger}
    (hpays : 0 ≤ pays.amount) (hcull : cull = true ∨ loose id)
    (h : L.fillLimitOrder id pays receives cull = .ok r) : Changes loose L r.2 := by
  simp only [fillLimitOrder, bind_eq_ok, demand_eq_ok, require_eq_ok, exists_const,
    Asset.minus_eq_ok] at h
  obtain ⟨o, ho, -, -, paid, hpaid, net, -, M1, h1, M, h2, h⟩ := h
  have hM : Funds L M := (payMarketFees_funds hpaid).trans
    ((payOrder_funds h1).trans (payDeferredFees_funds h2))
  have ho' : M.limitOrders.find id = some o := hM.limitOrders ▸ ho
  refine hM.changes.trans ?_
  split at h
  · obtain rfl := pure_eq_ok.mp h
    exact Relation.ReflTransGen.single (.removeLimitOrder M id)
  · split at h
    · exact cullFilled_changes ho' hpays h
    · rename_i hfalse
      obtain rfl := pure_eq_ok.mp h
      exact Relation.ReflTransGen.single (.fillLimitOrder pays ho' hpays
        (Or.inl (hcull.resolve_left hfalse)))

theorem bitasset_of_terms {b : BitassetData}
    (hterms : (M.assets.find id).map AssetObject.terms = (L.assets.find id).map AssetObject.terms)
    (hb : L.bitasset id = .ok b) :
    ∃ b', M.bitasset id = .ok b' ∧ b'.options = b.options ∧ b'.feeds = b.feeds ∧
      b'.currentFeed = b.currentFeed ∧ b'.isPredictionMarket = b.isPredictionMarket := by
  obtain ⟨a, ha, hab⟩ := bitasset_eq_ok.mp hb
  rw [ha, Option.map_some, Option.map_eq_some_iff] at hterms
  obtain ⟨a', ha', he⟩ := hterms
  simp only [AssetObject.terms, hab, Option.map_some, Prod.mk.injEq,
    Option.map_eq_some_iff] at he
  obtain ⟨-, -, b', hb', h1, h2, h3, h4⟩ := he
  exact ⟨b', bitasset_eq_ok.mpr ⟨a', ha', hb'⟩, h1, h2, h3, h4⟩

theorem fillCallOrder_changes {pays receives : Asset} {r : Bool × Ledger}
    (h : L.fillCallOrder id pays receives = .ok r) : Changes loose L r.2 := by
  simp only [fillCallOrder, bind_eq_ok, demand_eq_ok, require_eq_ok, exists_const] at h
  obtain ⟨c, hc, hdebt, -, -, b, hb, M1, h1, M2, h2, h⟩ := h
  have hM : Funds L M2 := (modifyDynamicData_funds h1).trans (noteInOrders_funds h2)
  split at h
  · simp only [bind_eq_ok, pure_eq_ok] at h
    obtain ⟨M3, h3, M, h4, rfl⟩ := h
    exact (hM.trans ((adjustBalance_funds h3).trans (noteInOrders_funds h4))).changes.tail
      (.removeCallOrder M id)
  · simp only [bind_eq_ok, pure_eq_ok] at h
    obtain ⟨p, hp, rfl⟩ := h
    obtain ⟨-, hbase, hquote, -⟩ := Price.callPrice_ids hp
    obtain ⟨b', hb', -, -, hfeed, -⟩ := bitasset_of_terms (hM.assets _) hb
    rw [← hdebt] at hb'
    refine hM.changes.tail (.setCallOrder (hM.callOrders ▸ hc) hb' rfl hquote hbase ?_)
    rw [hfeed]
    simp only [CallOrder.Priced, CallOrder.getDebt, CallOrder.getCollateral, CallOrder.debtType,
      CallOrder.collateralType, hbase, hquote]
    exact hp

theorem fillSettleOrder_changes {pays receives : Asset} {r : Bool × Ledger}
    (h : L.fillSettleOrder id pays receives = .ok r) : Changes loose L r.2 := by
  simp only [fillSettleOrder, bind_eq_ok, demand_eq_ok] at h
  obtain ⟨s, hs, paid, hpaid, isPartial, -, net, -, M, h1, h⟩ := h
  have hM : Funds L M := (payMarketFees_funds hpaid).trans (adjustBalance_funds h1)
  refine hM.changes.trans ?_
  split at h
  · obtain rfl := pure_eq_ok.mp h
    exact Relation.ReflTransGen.single (.setSettlement _ (hM.settlements ▸ hs))
  · obtain rfl := pure_eq_ok.mp h
    exact Relation.ReflTransGen.single (.removeSettlement M id)

theorem executeBid_changes {debt collateral : Int} {b : BitassetData} {d : CollateralBid}
    (hd : L.bids.find id = some d) (hb : L.bitasset d.debtType = .ok b)
    (h : L.executeBid id debt collateral b.currentFeed = .ok L') : Changes loose L L' := by
  simp only [executeBid, createCallOrder, bind_eq_ok, demand_eq_ok, require_eq_ok, exists_const,
    pure_eq_ok] at h
  obtain ⟨d', hd', p, hp, -, ⟨hnone, rfl⟩, N, hN, rfl⟩ := h
  obtain rfl : d = d' := Option.some.inj (hd.symm.trans hd')
  obtain ⟨-, hbase, hquote, -⟩ := Price.callPrice_ids hp
  have hcreate (c : CallOrder)
      (hc : c = ⟨d.bidder, d.invSwanPrice.base.amount + collateral, debt, p, none⟩) :
      Change loose L { L with callOrders := L.callOrders.create c } := by
    subst hc
    refine .createCallOrder (b := b) ?_ (Or.inr (Or.inl
      ⟨id, d, hd, rfl⟩)) ?_ fun j e he hdebt hsame =>
      Table.findBy_none hnone he (decide_eq_true ⟨hsame, hdebt⟩)
    · rw [← hb]
      exact congrArg L.bitasset hquote
    · simp only [CallOrder.Priced, CallOrder.getDebt, CallOrder.getCollateral, CallOrder.debtType,
        CallOrder.collateralType, hbase, hquote]
      exact hp
  exact ((Relation.ReflTransGen.single (hcreate _ rfl)).trans (noteInOrders_funds hN).changes).tail
    (.removeBid N id)

/-! ### Matching -/

theorem fillLimitOrders_changes {usd core : Nat} {usdReceives coreReceives : Asset} {cull : Bool}
    {r : Filled × Ledger} (husd : 0 ≤ usdReceives.amount) (hcore : 0 ≤ coreReceives.amount)
    (hcull : cull = true ∨ loose usd)
    (h : L.fillLimitOrders usd core usdReceives coreReceives cull = .ok r) :
    Changes loose L r.2 := by
  simp only [fillLimitOrders, bind_eq_ok, require_eq_ok, exists_const, pure_eq_ok] at h
  obtain ⟨taker, htaker, maker, hmaker, -, rfl⟩ := h
  exact (fillLimitOrder_changes hcore hcull htaker).trans
    (fillLimitOrder_changes husd (Or.inl rfl) hmaker)

theorem matchLimitOrders_changes {usd core : Nat} {price : Price} {r : Filled × Ledger}
    (husd : loose usd) (h : L.matchLimitOrders usd core price = .ok r) : Changes loose L r.2 := by
  simp only [matchLimitOrders, bind_eq_ok] at h
  obtain ⟨u, -, c, -, -, -, -, -, -, -, coreWorth, hworth, less, -, h⟩ := h
  split at h
  · simp only [bind_eq_ok] at h
    obtain ⟨usdReceives, hround, h⟩ := h
    exact fillLimitOrders_changes (Asset.multiplyAndRoundUp_nonneg hround)
      (Asset.mul_nonneg hworth) (Or.inr husd) h
  · simp only [bind_eq_ok] at h
    obtain ⟨usdReceives, hmul, h⟩ := h
    split at h
    · exact pure_eq_ok.mp h ▸ Relation.ReflTransGen.refl
    · simp only [bind_eq_ok] at h
      obtain ⟨coreReceives, hround, h⟩ := h
      exact fillLimitOrders_changes (Asset.mul_nonneg hmul)
        (Asset.multiplyAndRoundUp_nonneg hround) (Or.inr husd) h

theorem fillLimitAndCall_changes {bid ask : Nat} {orderReceives callReceives : Asset} {cull : Bool}
    {r : Filled × Ledger} (hcall : 0 ≤ callReceives.amount) (hbid : loose bid)
    (h : L.fillLimitAndCall bid ask orderReceives callReceives cull = .ok r) :
    Changes loose L r.2 := by
  simp only [fillLimitAndCall, bind_eq_ok, pure_eq_ok] at h
  obtain ⟨taker, htaker, maker, hmaker, rfl⟩ := h
  exact (fillLimitOrder_changes hcall (Or.inr hbid) htaker).trans (fillCallOrder_changes hmaker)

theorem matchLimitAndCall_changes {rounds bid ask : Nat} {price : Price} {feed : PriceFeed}
    {r : Filled × Ledger} (hbid : loose bid)
    (h : matchLimitAndCall rounds L bid ask price feed = .ok r) : Changes loose L r.2 := by
  simp only [matchLimitAndCall, bind_eq_ok, require_eq_ok, exists_const] at h
  obtain ⟨o, -, c, -, -, -, ⟨-, hdebt, -⟩, usdToBuy, hbuy, h⟩ := h
  split at h
  · simp only [bind_eq_ok] at h
    obtain ⟨orderReceives, -, h⟩ := h
    split at h
    · exact pure_eq_ok.mp h ▸ Relation.ReflTransGen.refl
    · simp only [bind_eq_ok] at h
      obtain ⟨callReceives, hround, h⟩ := h
      exact fillLimitAndCall_changes (Asset.multiplyAndRoundUp_nonneg hround) hbid h
  · simp only [bind_eq_ok] at h
    obtain ⟨orderReceives, -, h⟩ := h
    have hnonneg := (CallOrder.getMaxDebtToCover_covers (le_of_lt hdebt) hbuy).1
    exact fillLimitAndCall_changes hnonneg hbid h

theorem matchBook_changes {good : Price → Bool} (hid : loose id) (book : List Nat) (L : Ledger)
    (r : Bool × List Nat × Ledger) (h : matchBook id good book L = .ok r) :
    Changes loose L r.2.2 :=
  matchBook_invariant (P := Changes loose L)
    (fun _ _ _ _ hM hm => hM.trans (matchLimitOrders_changes hid hm)) Relation.ReflTransGen.refl h

theorem matchCallsRound_changes {rounds : Nat} {low price : Price} {feed : PriceFeed}
    {r : Ledger ⊕ Bool × Ledger} (hid : loose id)
    (h : matchCallsRound rounds id low price feed L = .ok r) :
    Changes loose L (r.elim (fun M => M) Prod.snd) :=
  matchCallsRound_invariant (P := Changes loose L)
    (fun _ _ _ _ _ hM hm => hM.trans (matchLimitAndCall_changes hid hm))
    Relation.ReflTransGen.refl h

theorem applyOrder_changes {rounds : Nat} {r : Bool × Ledger} (hid : loose id)
    (h : applyOrder rounds L id = .ok r) : Changes loose L r.2 :=
  applyOrder_invariant (P := Changes loose L)
    (fun _ _ _ _ hM hm => hM.trans (matchLimitOrders_changes hid hm))
    (fun _ _ _ _ _ hM hm => hM.trans (matchLimitAndCall_changes hid hm))
    (fun _ _ hM hc => hM.trans (maybeCullSmallOrder_changes hc)) Relation.ReflTransGen.refl h

theorem fillCallAndSettle_changes {call settle : Nat} {callPays callReceives : Asset} {cull : Bool}
    {r : Asset × Ledger} (h : L.fillCallAndSettle call settle callPays callReceives cull = .ok r) :
    Changes loose L r.2 := by
  simp only [fillCallAndSettle, bind_eq_ok, pure_eq_ok] at h
  obtain ⟨maker, hmaker, taker, htaker, M, hM, rfl⟩ := h
  refine ((fillCallOrder_changes hmaker).trans (fillSettleOrder_changes htaker)).trans ?_
  split at hM
  · exact cancelSettleOrder_changes hM
  · exact pure_eq_ok.mp hM ▸ Relation.ReflTransGen.refl

theorem matchCallAndSettle_changes {call settle : Nat} {price : Price} {most : Asset}
    {r : Asset × Ledger} (h : L.matchCallAndSettle call settle price most = .ok r) :
    Changes loose L r.2 := by
  simp only [matchCallAndSettle, bind_eq_ok] at h
  obtain ⟨c, -, s, -, -, -, -, -, forSale, -, receives, -, pays, -, h⟩ := h
  split at h
  · split at h
    · exact fillCallAndSettle_changes h
    · split at h
      · simp only [bind_eq_ok, pure_eq_ok] at h
        obtain ⟨M, hM, rfl⟩ := h
        exact cancelSettleOrder_changes hM
      · exact pure_eq_ok.mp h ▸ Relation.ReflTransGen.refl
  · split at h
    · simp only [bind_eq_ok] at h
      obtain ⟨pays', -, h⟩ := h
      exact fillCallAndSettle_changes h
    · simp only [bind_eq_ok] at h
      obtain ⟨rounded, -, h⟩ := h
      exact fillCallAndSettle_changes h

/-! ### Settlement and revival -/

theorem closeCallOrder_changes {price : Price} {s s' : Ledger × Asset} {call : Nat × CallOrder}
    (h : closeCallOrder price s call = .ok s') : Changes loose s.1 s'.1 := by
  simp only [closeCallOrder, bind_eq_ok, require_eq_ok, exists_const, pure_eq_ok] at h
  obtain ⟨c, -, pays, -, least, -, gathered, -, r, hr, -, rfl⟩ := h
  exact fillCallOrder_changes hr

theorem globallySettleAsset_changes {mia : AssetId} {price : Price}
    (h : L.globallySettleAsset mia price = .ok L') : Changes loose L L' := by
  simp only [globallySettleAsset, bind_eq_ok] at h
  obtain ⟨a, -, b, -, -, -, low, -, high, -, closed, hclosed, settled, -, M, hM, h⟩ := h
  have hfills : Changes loose L closed.1 := by
    refine foldlM_invariant (P := fun s : Ledger × Asset => Changes loose L s.1)
      (fun s call s' hs hstep => ?_) _ (L, ⟨0, b.options.shortBackingAsset⟩) _
      Relation.ReflTransGen.refl hclosed
    exact hs.trans (closeCallOrder_changes hstep)
  refine hfills.trans (Funds.changes ?_)
  exact (modifyBitasset_funds hM fun _ => ⟨rfl, rfl, rfl, rfl⟩).trans (modifyDynamicData_funds h)

theorem fillMarginCall_changes {call limit : Nat} {callReceives orderReceives : Asset}
    {r : Bool × Ledger} (hcall : 0 ≤ callReceives.amount)
    (h : L.fillMarginCall call limit callReceives orderReceives = .ok r) :
    Changes loose L r.2 := by
  simp only [fillMarginCall, bind_eq_ok] at h
  obtain ⟨filled, hfilled, h⟩ := h
  exact (fillCallOrder_changes hfilled).trans (fillLimitOrder_changes hcall (Or.inl rfl) h)

theorem marginCall_changes {rounds call limit : Nat} {feed : PriceFeed} {r : Bool × Ledger}
    (hdebt : ∀ c, L.callOrders.find call = some c → 0 ≤ c.debt)
    (h : marginCall rounds L call limit feed = .ok r) : Changes loose L r.2 := by
  simp only [marginCall, bind_eq_ok, demand_eq_ok] at h
  obtain ⟨c, hc, o, -, usdToBuy, hbuy, less, -, h⟩ := h
  split at h
  · simp only [bind_eq_ok] at h
    obtain ⟨orderReceives, -, callReceives, hround, h⟩ := h
    exact fillMarginCall_changes (Asset.multiplyAndRoundUp_nonneg hround) h
  · simp only [bind_eq_ok] at h
    obtain ⟨orderReceives, -, h⟩ := h
    have hnonneg := (CallOrder.getMaxDebtToCover_covers (hdebt c hc) hbuy).1
    exact fillMarginCall_changes hnonneg h

theorem checkCallRound_changes {rounds : Nat} {mia : AssetId} {enable : Bool} {low high : Price}
    {s : Calling} {r : Calling ⊕ Bool × Ledger}
    (h : checkCallRound rounds mia enable low high s = .ok r) :
    Changes loose s.ledger (r.elim Calling.ledger Prod.snd) :=
  checkCallRound_invariant (P := Changes loose s.ledger)
    (fun _ _ _ hM hsettled => hM.trans (globallySettleAsset_changes hsettled))
    (fun _ _ _ _ _ hM hdebt hcalled => hM.trans (marginCall_changes hdebt hcalled))
    Relation.ReflTransGen.refl h

theorem checkCallOrders_changes {rounds : Nat} {mia : AssetId} {enable : Bool} {r : Bool × Ledger}
    (h : checkCallOrders rounds L mia enable = .ok r) : Changes loose L r.2 :=
  checkCallOrders_invariant (P := Changes loose L)
    (fun _ _ _ hM hsettled => hM.trans (globallySettleAsset_changes hsettled))
    (fun _ _ _ _ _ hM hdebt hcalled => hM.trans (marginCall_changes hdebt hcalled))
    Relation.ReflTransGen.refl h

theorem cancelBidsAndReviveMpa_changes {mia bad : AssetId}
    (h : L.cancelBidsAndReviveMpa mia bad = .ok L') : Changes loose L L' := by
  simp only [cancelBidsAndReviveMpa, bind_eq_ok] at h
  obtain ⟨-, -, b, -, -, -, -, -, high, -, M, hM, h⟩ := h
  have hcancel : Changes loose L M :=
    foldlM_invariant (P := fun M => Changes loose L M)
      (fun M r M' hM hstep => hM.trans (cancelBid_changes hstep)) _ _ _
      Relation.ReflTransGen.refl hM
  exact hcancel.trans (modifyBitasset_funds h fun _ => ⟨rfl, rfl, rfl, rfl⟩).changes

theorem issuerBid_changes {mia : AssetId} {a : AssetObject} {b : BitassetData} {d : CollateralBid}
    {debt collateral : Int} (ha : L.assets.find mia = some a) (hb : L.bitasset mia = .ok b)
    (hissuer : d.bidder = a.issuer) (hmia : d.debtType = mia)
    (h : executeBid { L with bids := L.bids.create d } L.bids.next debt collateral b.currentFeed =
      .ok L') : Changes loose L L' := by
  simp only [executeBid, createCallOrder, bind_eq_ok, demand_eq_ok, require_eq_ok, exists_const,
    pure_eq_ok] at h
  obtain ⟨d', hd', p, hp, -, ⟨hnone, rfl⟩, N, hN, rfl⟩ := h
  obtain rfl : d = d' := Option.some.inj ((Table.find_create_self L.bids d).symm.trans hd')
  obtain ⟨-, hbase, hquote, -⟩ := Price.callPrice_ids hp
  generalize hc : CallOrder.mk d.bidder (d.invSwanPrice.base.amount + collateral) debt p none = c
    at hN
  have hcreate : Change loose L { L with callOrders := L.callOrders.create c } := by
    subst hc
    refine .createCallOrder (b := b) ?_ (Or.inr (Or.inr ⟨mia, a, ha, hissuer.symm⟩)) ?_
      fun j e he hdebt hsame => Table.findBy_none hnone he (decide_eq_true ⟨hsame, hdebt⟩)
    · rw [← hb]
      exact congrArg L.bitasset (hquote.trans hmia)
    · simp only [CallOrder.Priced, CallOrder.getDebt, CallOrder.getCollateral, CallOrder.debtType,
        CallOrder.collateralType, hbase, hquote]
      exact hp
  have hfunds := noteInOrders_funds hN
  -- the money moves in the same way without the bid
  have hmoney : Funds { L with callOrders := L.callOrders.create c } { N with bids := L.bids } := by
    refine ⟨?_, hfunds.accounts, hfunds.assets⟩
    rw [hfunds.rest]
  have hremoved : N.bids.remove L.bids.next = (L.bids.create d).remove L.bids.next := by
    rw [hfunds.bids]
  refine ((Relation.ReflTransGen.single hcreate).trans hmoney.changes).tail ?_
  rw [hremoved]
  exact .issuerBid { N with bids := L.bids } d

theorem reviveBitasset_changes {mia : AssetId} (h : L.reviveBitasset mia = .ok L') :
    Changes loose L L' := by
  simp only [reviveBitasset, asset, bind_eq_ok, demand_eq_ok] at h
  obtain ⟨a, ha, b, hb, -, -, -, -, -, -, h⟩ := h
  split at h
  · simp only [bind_eq_ok, Price.ofAssets_eq_ok, createBid, require_eq_ok, exists_const,
      pure_eq_ok] at h
    obtain ⟨price, ⟨-, rfl⟩, N, ⟨-, rfl⟩, M, hM, h⟩ := h
    exact (issuerBid_changes ha hb rfl rfl hM).trans (cancelBidsAndReviveMpa_changes h)
  · simp only [bind_eq_ok] at h
    obtain ⟨-, -, h⟩ := h
    exact cancelBidsAndReviveMpa_changes h

end Ledger

/-! ### What changes keep -/

open Ledger

variable {L L' : Ledger} {loose : Nat → Prop} {id : Nat}

theorem Change.terms (h : Change loose L L') (id : AssetId) :
    (L'.assets.find id).map AssetObject.terms = (L.assets.find id).map AssetObject.terms := by
  cases h with
  | funds h => exact h.assets id
  | _ => rfl

theorem Change.account (h : Change loose L L') (hid : (L.accounts.find id).isSome) :
    (L'.accounts.find id).isSome := by
  cases h with
  | funds h => exact h.accounts id hid
  | _ => exact hid

namespace Changes

theorem invariant {P : Ledger → Prop} (hstep : ∀ M M', P M → Change loose M M' → P M')
    (h : Changes loose L L') (hL : P L) : P L' := by
  induction h with
  | refl => exact hL
  | tail _ hchange ih => exact hstep _ _ ih hchange

theorem terms (h : Changes loose L L') (id : AssetId) :
    (L'.assets.find id).map AssetObject.terms = (L.assets.find id).map AssetObject.terms :=
  h.invariant (P := fun M => (M.assets.find id).map AssetObject.terms =
    (L.assets.find id).map AssetObject.terms) (fun _ _ hM hc => (hc.terms id).trans hM) rfl

theorem account (h : Changes loose L L') (hid : (L.accounts.find id).isSome) :
    (L'.accounts.find id).isSome :=
  h.invariant (P := fun M => (M.accounts.find id).isSome) (fun _ _ hM hc => hc.account hM) hid

end Changes

end Nestchain.Market
