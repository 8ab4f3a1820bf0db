import Nestchain.Market.Revival

/-! The operations keep the books.  A fee is on its way while an operation is applied: it is on the
books of the pool and the statistics before the payer has paid it. -/

namespace Nestchain.Market

open Lib

/-- A ledger between two operations: nothing is on its way. -/
structure Balanced (L : Ledger) : Prop where
  shape : Shape L
  books : L.books = 0

theorem Keeps.balanced {L L' : Ledger} (h : Keeps L L') (hL : Balanced L) : Balanced L' :=
  ⟨h.shape, h.books.trans hL.books⟩

namespace Ledger

variable {L L' : Ledger}

/-! ### Fees -/

/-- What `prepare_fee` has checked of a fee. -/
structure FeePrepared (L : Ledger) (fee : Asset) (coreFeePaid : Int) : Prop where
  fee_nonneg : 0 ≤ fee.amount
  core_nonneg : 0 ≤ coreFeePaid
  core_fee : fee.assetId = coreAsset → coreFeePaid = fee.amount
  pool : fee.assetId ≠ coreAsset → ∀ a, L.assets.find fee.assetId = some a →
    coreFeePaid ≤ a.dynamicData.feePool

theorem evaluateFee_prepared {account : AccountId} {fee : Asset} {required core : Int}
    {skip : Bool} (h : L.evaluateFee account fee required skip = .ok core) :
    FeePrepared L fee core := by
  simp only [evaluateFee, prepareFee, asset, bind_eq_ok, demand_eq_ok, require_eq_ok,
    exists_const, pure_eq_ok] at h
  obtain ⟨c, ⟨hfee, payer, -, a, ha, -, h⟩, -, rfl⟩ := h
  split at h
  · rename_i hcore
    obtain rfl := pure_eq_ok.mp h
    exact ⟨hfee, hfee, fun _ => rfl, fun hne => absurd hcore hne⟩
  · rename_i hcore
    simp only [bind_eq_ok, require_eq_ok, exists_const, pure_eq_ok] at h
    obtain ⟨fromPool, hmul, -, hpool, rfl⟩ := h
    refine ⟨hfee, Asset.mul_nonneg hmul, fun h => absurd h hcore, fun _ a' ha' => ?_⟩
    exact Option.some.inj (ha.symm.trans ha') ▸ hpool

/-- What `convert_fee` adds to the books: the fee, less what the pool pays for it. -/
def conversion (fee : Asset) (coreFeePaid : Int) : Books :=
  if fee.assetId ≠ coreAsset then credit fee - credit ⟨coreFeePaid, coreAsset⟩ else 0

theorem conversion_add {fee : Asset} {core : Int} (h : FeePrepared L fee core) :
    conversion fee core + credit ⟨core, coreAsset⟩ = credit fee := by
  unfold conversion
  split
  · exact sub_add_cancel _ _
  · rename_i hcore
    rw [zero_add, h.core_fee (not_not.mp hcore), ← not_not.mp hcore]

theorem convertFee_pays {fee : Asset} {core : Int} (hfee : FeePrepared L fee core)
    (h : L.convertFee fee core = .ok L') : Pays L L' (conversion fee core) := by
  unfold convertFee at h
  unfold conversion
  split at h
  · rename_i hcore
    rw [if_pos hcore]
    refine modifyDynamicData_pays h (fun a _ => ?_) (Or.inl fun _ => rfl) fun a ha hn => ?_
    · simp only [AssetObject.worth, credit_add, credit_sub]
      rw [show credit fee = credit ⟨fee.amount, fee.assetId⟩ from rfl]
      abel
    · exact ⟨add_nonneg hn.1 hfee.fee_nonneg, sub_nonneg.mpr (hfee.pool hcore a ha)⟩
  · rename_i hcore
    obtain rfl := pure_eq_ok.mp h
    rw [if_neg hcore]
    exact Pays.refl L'

theorem takeFromPool_pays {id : AssetId} {core : Int}
    (hpool : ∀ a, L.assets.find id = some a → core ≤ a.dynamicData.feePool)
    (h : L.modifyDynamicData id (fun d => { d with feePool := d.feePool - core }) = .ok L') :
    Pays L L' (-credit ⟨core, coreAsset⟩) := by
  refine modifyDynamicData_pays h (fun a _ => ?_) (Or.inl fun _ => rfl) fun a ha hn => ?_
  · simp only [AssetObject.worth, credit_sub]
    abel
  · exact ⟨hn.1, sub_nonneg.mpr (hpool a ha)⟩

theorem chargeFee_pays {account : AccountId} {fee : Asset} {core : Int} {M : Ledger}
    (hfee : FeePrepared L fee core) (h : L.convertFee fee core = .ok M)
    (h' : M.payFee account core = .ok L') : Pays L L' (credit fee) :=
  ((convertFee_pays hfee h).trans (payFee_pays hfee.core_nonneg h')).congr (conversion_add hfee)

theorem applyWithFee_keeps {account : AccountId} {fee : Asset} {core : Int}
    {doApply : Ledger → Attempt Ledger} (hs : Shape L) (hfee : FeePrepared L fee core)
    (hdo : ∀ M M', Pays L M (credit fee) → Shape M → doApply M = .ok M' → Keeps M M')
    (h : L.applyWithFee account fee core doApply = .ok L') : Keeps L L' := by
  simp only [applyWithFee, bind_eq_ok] at h
  obtain ⟨M1, h1, M2, h2, M3, h3, h4⟩ := h
  have hcharged := chargeFee_pays hfee h1 h2
  have hturn := hcharged.turn hs (OnAssets.credit fee)
  have hkeeps := hdo M2 M3 hcharged hturn.shape h3
  have hpaid := (adjustBalance_pays h4).turn hkeeps.shape
    (credit_neg fee ▸ (OnAssets.credit fee).neg)
  refine ⟨?_, hpaid.shape⟩
  rw [hpaid.books, hkeeps.books, hturn.books, credit_neg, add_neg_cancel_right]

/-! ### The supply -/

theorem held_le_totalBalance (hs : Shape L) (id : AssetId) :
    (L.balances.sum fun _ b => (Asset.mk b.balance b.assetType).amountIn id) +
      (L.callOrders.sum fun _ c => c.getCollateral.amountIn id) ≤ L.totalBalance id := by
  have hin : ∀ {a : Asset}, 0 ≤ a.amount → 0 ≤ a.amountIn id := Asset.amountIn_nonneg id
  have hsettle : 0 ≤ L.settlements.sum fun _ s => s.balance.amountIn id :=
    Table.sum_nonneg fun j s hj => hin (hs.settlements j s hj)
  have hbids : 0 ≤ L.bids.sum fun _ b => b.invSwanPrice.base.amountIn id :=
    Table.sum_nonneg fun j b hb => hin (hs.bids j b hb).collateral_nonneg
  have hlimit : 0 ≤ L.limitOrders.sum fun _ o => o.amountForSale.amountIn id +
      (Asset.mk o.deferredFee coreAsset).amountIn id + o.deferredPaidFee.amountIn id := by
    refine Table.sum_nonneg fun j o ho => ?_
    have hsound := hs.limitOrders j o ho
    exact add_nonneg (add_nonneg (hin (le_of_lt hsound.forSale_pos))
      (hin hsound.deferredFee_nonneg)) (hin hsound.deferredPaidFee_nonneg)
  have haccounts : 0 ≤ L.accounts.sum fun _ a =>
      (Asset.mk a.statistics.pendingFees coreAsset).amountIn id +
        (Asset.mk a.statistics.pendingVestedFees coreAsset).amountIn id := by
    refine Table.sum_nonneg fun j a ha => ?_
    have hfees := hs.nonneg.pending j a ha
    exact add_nonneg (hin hfees.1) (hin hfees.2)
  refine le_add_of_le_of_nonneg (le_add_of_le_of_nonneg (add_le_add_left
    (le_add_of_le_of_nonneg (le_add_of_le_of_nonneg (le_add_of_nonneg_right hsettle) hbids) hlimit)
    _) (Table.sum_nonneg fun j a ha => ?_)) haccounts
  have hfees := hs.nonneg.fees j a ha
  refine add_nonneg (add_nonneg (hin hfees.1) (hin hfees.2)) ?_
  cases hb : a.bitassetData with
  | none => exact le_refl 0
  | some b => exact hin (hs.bitassets j b (bitasset_eq_ok.mpr ⟨a, ha, hb⟩)).fund_nonneg

theorem collateral_sum_nonneg (hs : Shape L) (id : AssetId) :
    0 ≤ L.callOrders.sum fun _ c => c.getCollateral.amountIn id :=
  Table.sum_nonneg fun j c hc =>
    Asset.amountIn_nonneg id (le_of_lt (hs.callOrders j c hc).collateral_pos)

theorem balances_sum_nonneg (hs : Shape L) (id : AssetId) :
    0 ≤ L.balances.sum fun _ b => (Asset.mk b.balance b.assetType).amountIn id :=
  Table.sum_nonneg fun j b hb => Asset.amountIn_nonneg id (hs.nonneg.balances j b hb)

theorem balances_le_totalBalance (hs : Shape L) (id : AssetId) :
    (L.balances.sum fun _ b => (Asset.mk b.balance b.assetType).amountIn id) ≤
      L.totalBalance id :=
  (le_add_of_nonneg_right (collateral_sum_nonneg hs id)).trans (held_le_totalBalance hs id)

theorem Balanced.totalBalance_eq (h : Balanced L) (id : AssetId) :
    L.totalBalance id = L.supply id := by
  have hbooks := congrFun h.books (.asset id)
  rw [books_asset, Pi.zero_apply, sub_eq_zero] at hbooks
  exact hbooks

theorem Balanced.supply_nonneg (h : Balanced L) (id : AssetId) : 0 ≤ L.supply id := by
  rw [← Balanced.totalBalance_eq h]
  exact (balances_sum_nonneg h.shape id).trans (balances_le_totalBalance h.shape id)

theorem Balanced.balance_le_supply (h : Balanced L) (account : AccountId) (id : AssetId) :
    (L.getBalance account id).amount ≤ L.supply id := by
  unfold getBalance
  split
  · exact Balanced.supply_nonneg h id
  · rename_i j b hfind
    obtain ⟨hb, hkey⟩ := Table.findBy_some hfind
    rw [← Balanced.totalBalance_eq h]
    refine le_trans ?_ (balances_le_totalBalance h.shape id)
    have hle := Table.le_sum (f := fun _ b => (Asset.mk b.balance b.assetType).amountIn id) hb
      fun k d hd => Asset.amountIn_nonneg id (h.shape.nonneg.balances k d hd)
    rwa [Asset.amountIn, if_pos (of_decide_eq_true hkey).2] at hle

theorem Balanced.collateral_le_supply (h : Balanced L) {id : Nat} {c : CallOrder}
    (hc : L.callOrders.find id = some c) : c.collateral ≤ L.supply c.collateralType := by
  rw [← Balanced.totalBalance_eq h]
  refine le_trans ?_ ((le_add_of_nonneg_left (balances_sum_nonneg h.shape _)).trans
    (held_le_totalBalance h.shape _))
  have hle := Table.le_sum (f := fun _ d => d.getCollateral.amountIn c.collateralType) hc fun j d hd =>
    Asset.amountIn_nonneg _ (le_of_lt (h.shape.callOrders j d hd).collateral_pos)
  rwa [Asset.amountIn, if_pos (show c.getCollateral.assetId = c.collateralType from rfl)] at hle

theorem adjustBalance_withAssets {account : AccountId} {delta : Asset} {assets : Table AssetObject}
    (h : Ledger.adjustBalance { L with assets := assets } account delta = .ok L') :
    ∃ M, L.adjustBalance account delta = .ok M ∧ L' = { M with assets := assets } := by
  unfold adjustBalance at h ⊢
  split at h
  · rename_i hzero
    obtain rfl := pure_eq_ok.mp h
    exact ⟨L, if_pos hzero, rfl⟩
  · rename_i hzero
    rw [if_neg hzero]
    have hfind : Ledger.findBalance { L with assets := assets } account delta.assetId =
      L.findBalance account delta.assetId := rfl
    rw [hfind] at h
    split at h
    · simp only [bind_eq_ok, require_eq_ok, exists_const, pure_eq_ok] at h ⊢
      obtain ⟨hpos, rfl⟩ := h
      exact ⟨_, ⟨hpos, rfl⟩, rfl⟩
    · simp only [bind_eq_ok, require_eq_ok, exists_const, pure_eq_ok] at h ⊢
      obtain ⟨hle, rfl⟩ := h
      exact ⟨_, ⟨hle, rfl⟩, rfl⟩

theorem modifyDynamicData_time {id : AssetId} {f : AssetDynamicData → AssetDynamicData}
    (h : L.modifyDynamicData id f = .ok L') : L'.headBlockTime = L.headBlockTime := by
  simp only [modifyDynamicData, modifyAsset, bind_eq_ok, pure_eq_ok] at h
  obtain ⟨a, -, rfl⟩ := h
  rfl

end Ledger

open Ledger

variable {L L' : Ledger}

/-! ### Limit orders -/

namespace LimitOrderCreate

variable {op : LimitOrderCreate} {core : Int}

theorem convertFee_spec (hfee : FeePrepared L op.fee core) (h : op.convertFee L core = .ok L') :
    ∃ δ, Pays L L' δ ∧ 0 ≤ (op.deferredPaidFee L').amount ∧
      δ + (credit ⟨core, coreAsset⟩ + credit (op.deferredPaidFee L')) = credit op.fee := by
  unfold convertFee at h
  split at h
  · rename_i htime
    have htime' : L'.headBlockTime ≤ hardforkCore604Time := by
      unfold Ledger.convertFee at h
      split at h
      · rwa [modifyDynamicData_time h]
      · obtain rfl := pure_eq_ok.mp h
        exact htime
    have hpaid : op.deferredPaidFee L' = ⟨0, coreAsset⟩ :=
      if_neg fun hnew => absurd hnew.1 (not_lt.mpr htime')
    refine ⟨_, convertFee_pays hfee h, ?_, ?_⟩
    · rw [hpaid]
    · rw [hpaid, credit_zero, add_zero, conversion_add hfee]
  · rename_i htime
    split at h
    · rename_i hcore
      have hpaid : op.deferredPaidFee L' = op.fee :=
        if_pos ⟨(modifyDynamicData_time h).symm ▸ not_le.mp htime, hcore⟩
      refine ⟨_, takeFromPool_pays (hfee.pool hcore) h, ?_, ?_⟩
      · rw [hpaid]
        exact hfee.fee_nonneg
      · rw [hpaid, neg_add_cancel_left]
    · rename_i hcore
      obtain rfl := pure_eq_ok.mp h
      have hpaid : op.deferredPaidFee L' = ⟨0, coreAsset⟩ := if_neg fun hnew => hcore hnew.2
      refine ⟨0, Pays.refl L', ?_, ?_⟩
      · rw [hpaid]
      · rw [hpaid, credit_zero, add_zero, zero_add, hfee.core_fee (not_not.mp hcore),
          ← not_not.mp hcore]

theorem place_turn {skip : Bool} {placed : Nat × Ledger} (hs : Shape L)
    (h : op.place skip L = .ok placed) : Turn L placed.2 (credit op.fee) := by
  simp only [place, bind_eq_ok, require_eq_ok, exists_const, Price.ofAssets_eq_ok, pure_eq_ok] at h
  obtain ⟨hvalid, core, hcore, -, -, M1, h1, M2, h2, M3, h3, p, ⟨-, rfl⟩, rfl⟩ := h
  have hfee := evaluateFee_prepared hcore
  obtain ⟨δ, hM1, hpaid, hδ⟩ := convertFee_spec hfee h1
  have hM3 := (hM1.trans (noteInOrders_pays h2)).trans (adjustBalance_pays h3)
  have hbooks : Ledger.books { M3 with limitOrders := M3.limitOrders.create ⟨op.expiration,
      op.seller, op.amountToSell.amount, ⟨op.amountToSell, op.minToReceive⟩, core,
        op.deferredPaidFee M1⟩ } = L.books + credit op.fee := by
    have hcreate : ∀ o, Ledger.books { M3 with limitOrders := M3.limitOrders.create o } =
        M3.books + o.worth := by
      intro o
      simp only [Ledger.books, Table.sum_create]
      abel
    rw [hcreate, hM3.books, ← hδ]
    simp only [LimitOrder.worth, LimitOrder.amountForSale, LimitOrder.sellAssetId, credit_neg]
    abel
  refine ⟨hbooks, hM3.bitasset, hs.of_books (OnAssets.credit _) hbooks hM3.bitasset hM3.supply
    hM3.nonneg (fun j o ho => ?_) (hM3.callOrders ▸ hs.callOrders)
    (hM3.settlements ▸ hs.settlements) (hM3.bids ▸ hs.bids)⟩
  rcases Table.find_create_iff.mp ho with ho | ⟨-, rfl⟩
  · exact hs.limitOrders j o (hM3.limitOrders ▸ ho)
  · exact ⟨hvalid.2.2.1, hfee.core_nonneg, hpaid⟩

theorem apply_keeps {rounds : Nat} {skip : Bool} (hs : Shape L)
    (h : op.apply rounds skip L = .ok L') : Keeps L L' := by
  obtain ⟨placed, r, hplaced, hr, hfee⟩ := apply_place h
  have hcreated := place_turn hs hplaced
  have hmatched := hcreated.trans (applyOrder_turn hcreated.shape hr)
  have hdone := hmatched.trans ((adjustBalance_pays hfee).turn hmatched.shape
    (credit_neg op.fee ▸ (OnAssets.credit op.fee).neg))
  refine (hdone.congr ?_).keeps
  rw [credit_neg, add_zero, add_neg_cancel]

end LimitOrderCreate

theorem LimitOrderCancel.apply_keeps {op : LimitOrderCancel} {skip : Bool} (hs : Shape L)
    (h : op.apply skip L = .ok L') : Keeps L L' := by
  simp only [LimitOrderCancel.apply, bind_eq_ok, demand_eq_ok, require_eq_ok, exists_const] at h
  obtain ⟨-, core, hcore, o, -, -, h⟩ := h
  exact applyWithFee_keeps hs (evaluateFee_prepared hcore)
    (fun M M' _ hM hdo => (cancelLimitOrder_turn hM hdo).1.keeps) h

/-! ### Margin positions -/

namespace CallOrderUpdate

variable {op : CallOrderUpdate} {b : BitassetData}

/-- What a position holds after the funds have been moved. -/
def moved (op : CallOrderUpdate) : Books :=
  credit op.deltaCollateral + inOrders op.fundingAccount op.deltaCollateral +
    entry (.debt op.deltaDebt.assetId) op.deltaDebt.amount

theorem moveFunds_pays (hb : L.bitasset op.deltaDebt.assetId = .ok b)
    (hunsettled : b.hasSettlement = false) (h : op.moveFunds L = .ok L') :
    Pays L L' (-op.moved) := by
  simp only [moveFunds, bind_eq_ok, require_eq_ok, exists_const] at h
  obtain ⟨M1, h1, M2, h2, a, -, -, M3, h3, h4⟩ := h
  have hM1 := adjustBalance_pays h1
  have hM2 := addSupply_pays ((hM1.bitasset _).trans hb) hunsettled h2
  refine (((hM1.trans hM2).trans (adjustBalance_pays h3)).trans (noteInOrders_pays h4)).congr ?_
  rw [credit_neg, moved]
  rw [show credit op.deltaDebt = credit ⟨op.deltaDebt.amount, op.deltaDebt.assetId⟩ from rfl]
  abel

/-- The position `c` under the id `id` in the ledger `L'`, which is otherwise `L`. -/
structure Updated (op : CallOrderUpdate) (L L' : Ledger) (id : Nat) (c : CallOrder) : Prop where
  books : L'.books = L.books + op.moved
  order : L'.callOrders.find id = some c
  others : ∀ j ≠ id, L'.callOrders.find j = L.callOrders.find j
  rest : L' = { L with callOrders := L'.callOrders }
  sound : 0 < c.collateral → 0 < c.debt → c.Sound L.bitasset

theorem updateOrder_updated {u : Nat × Option CallOrder × CallOrder × Ledger}
    (hcalls : ∀ id c, L.callOrders.find id = some c → c.Sound L.bitasset)
    (hb : L.bitasset op.deltaDebt.assetId = .ok b) (hunsettled : b.hasSettlement = false)
    (hbacking : op.deltaCollateral.assetId = b.options.shortBackingAsset)
    (h : op.updateOrder L = .ok u) : Updated op L u.2.2.2 u.1 u.2.2.1 := by
  simp only [updateOrder, bind_eq_ok] at h
  obtain ⟨b', hb', h⟩ := h
  obtain rfl : b' = b := Except.ok.inj (hb'.symm.trans hb)
  have hmcr : 0 < b'.currentFeed.maintenanceCollateralRatio :=
    Nat.lt_of_lt_of_le (by decide) b'.currentFeed.maintenance_range.1
  split at h
  · simp only [bind_eq_ok, require_eq_ok, exists_const, pure_eq_ok] at h
    obtain ⟨hcoll, hdebt, p, hp, rfl⟩ := h
    obtain ⟨-, hpbase, hpquote, -⟩ := Price.callPrice_ids hp
    refine ⟨?_, Table.find_create_self _ _, fun j hj => ?_, rfl, fun _ _ => ?_⟩
    · simp only [Ledger.books, Table.sum_create, CallOrder.worth, CallOrder.getCollateral,
        CallOrder.collateralType, CallOrder.debtType, hpbase, hpquote, moved]
      abel
    · exact Table.find_create_ne hj
    · refine ⟨hdebt, hcoll, Price.callPrice_inRange hp hdebt hcoll hmcr, b', ?_, ?_, hunsettled⟩
      · rw [CallOrder.debtType, hpquote]
        exact hb
      · rw [CallOrder.collateralType, hpbase]
        exact hbacking.symm
  · rename_i id c hfind
    obtain ⟨hc, hkey⟩ := Table.findBy_some hfind
    obtain ⟨hborrower, hdebtType⟩ := of_decide_eq_true hkey
    obtain ⟨d, hd, hcollType, -⟩ := (hcalls id c hc).backed
    obtain rfl : d = b' := Except.ok.inj (hd.symm.trans (hdebtType.symm ▸ hb))
    simp only [bind_eq_ok, require_eq_ok, exists_const, pure_eq_ok] at h
    obtain ⟨-, p, hp, rfl⟩ := h
    have hids : p.base.assetId = c.collateralType ∧ p.quote.assetId = c.debtType := by
      split at hp
      · obtain ⟨-, hpbase, hpquote, -⟩ := Price.callPrice_ids hp
        exact ⟨hpbase, hpquote⟩
      · obtain rfl := pure_eq_ok.mp hp
        exact ⟨rfl, rfl⟩
    refine ⟨?_, Table.find_set_self hc, fun j hj => Table.find_set_ne hj, rfl, fun hpos hdebt => ?_⟩
    · have hworth : ∀ x y, CallOrder.worth ⟨c.borrower, x, y, p, op.targetCollateralRatio⟩ =
          credit ⟨x, op.deltaCollateral.assetId⟩ +
            inOrders op.fundingAccount ⟨x, op.deltaCollateral.assetId⟩ +
            entry (.debt op.deltaDebt.assetId) y := by
        intro x y
        simp only [CallOrder.worth, CallOrder.getCollateral, CallOrder.collateralType,
          CallOrder.debtType]
        rw [hids.1, hids.2, hborrower, hdebtType, ← hcollType, ← hbacking]
      have hold : c.worth = credit ⟨c.collateral, op.deltaCollateral.assetId⟩ +
          inOrders op.fundingAccount ⟨c.collateral, op.deltaCollateral.assetId⟩ +
            entry (.debt op.deltaDebt.assetId) c.debt := by
        simp only [CallOrder.worth, CallOrder.getCollateral]
        rw [hborrower, hdebtType, ← hcollType, ← hbacking]
      rw [books_setCallOrder _ hc, hworth, hold, credit_add, inOrders_add, entry_add, moved]
      abel
    · have hdebt' : 0 < c.debt + op.deltaDebt.amount := hdebt
      rw [if_pos hdebt'] at hp
      refine ⟨hdebt, hpos, Price.callPrice_inRange hp hdebt' hpos hmcr, d, ?_, ?_, hunsettled⟩
      · rw [CallOrder.debtType, hids.2]
        exact hd
      · rw [CallOrder.collateralType, hids.1]
        exact hcollType

theorem checkUpdated_keeps {rounds id : Nat} {before : Option CallOrder} (hs : Shape L)
    (h : op.checkUpdated rounds id before L = .ok L') : Keeps L L' := by
  simp only [checkUpdated, bind_eq_ok] at h
  obtain ⟨b, -, r, hr, h⟩ := h
  split at h
  · simp only [bind_eq_ok, require_eq_ok, exists_const, pure_eq_ok] at h
    obtain ⟨-, rfl⟩ := h
    exact checkCallOrders_keeps hs hr
  · simp only [bind_eq_ok, require_eq_ok, exists_const, pure_eq_ok] at h
    obtain ⟨c, -, improved, -, -, rfl⟩ := h
    exact checkCallOrders_keeps hs hr

theorem updateOrder_keeps {M : Ledger} {u : Nat × Option CallOrder × CallOrder × Ledger}
    (hs : Shape L) (hb : L.bitasset op.deltaDebt.assetId = .ok b)
    (hunsettled : b.hasSettlement = false)
    (hbacking : op.deltaCollateral.assetId = b.options.shortBackingAsset)
    (hM : op.moveFunds L = .ok M) (hu : op.updateOrder M = .ok u) :
    Updated op M u.2.2.2 u.1 u.2.2.1 ∧ (0 < u.2.2.1.collateral → 0 < u.2.2.1.debt →
      Keeps L u.2.2.2) := by
  have hpays := moveFunds_pays hb hunsettled hM
  have hcalls : ∀ id c, M.callOrders.find id = some c → c.Sound M.bitasset := by
    rw [funext hpays.bitasset, hpays.callOrders]
    exact hs.callOrders
  have hup := updateOrder_updated hcalls ((hpays.bitasset _).trans hb) hunsettled hbacking hu
  refine ⟨hup, fun hcoll hdebt => ?_⟩
  obtain ⟨id, before, c, N⟩ := u
  have hbooks : N.books = L.books + 0 := by
    rw [hup.books, hpays.books, neg_add_cancel_right, add_zero]
  have hN : N = { M with callOrders := N.callOrders } := hup.rest
  simp only
  rw [hN] at hbooks ⊢
  refine Turn.keeps ⟨hbooks, hpays.bitasset, hs.of_books OnAssets.zero hbooks hpays.bitasset
    hpays.supply hpays.nonneg (hpays.limitOrders ▸ hs.limitOrders) (fun j c' hj => ?_)
    (hpays.settlements ▸ hs.settlements) (hpays.bids ▸ hs.bids)⟩
  by_cases hne : j = id
  · subst hne
    obtain rfl : c = c' := Option.some.inj (hup.order.symm.trans hj)
    exact funext hpays.bitasset ▸ hup.sound hcoll hdebt
  · exact hs.callOrders j c' (hpays.callOrders ▸ (hup.others j hne).symm.trans hj)

theorem doApply_keeps {rounds : Nat} (hs : Shape L)
    (hb : L.bitasset op.deltaDebt.assetId = .ok b) (hunsettled : b.hasSettlement = false)
    (hbacking : op.deltaCollateral.assetId = b.options.shortBackingAsset)
    (h : op.doApply rounds L = .ok L') : Keeps L L' := by
  simp only [doApply, bind_eq_ok] at h
  obtain ⟨b', -, M, hM, u, hu, h⟩ := h
  have hpays := moveFunds_pays hb hunsettled hM
  obtain ⟨hup, hkeeps⟩ := updateOrder_keeps hs hb hunsettled hbacking hM hu
  obtain ⟨id, before, c, N⟩ := u
  have hN : N = { M with callOrders := N.callOrders } := hup.rest
  simp only at h
  split at h
  · -- the position is closed
    rename_i hdebt
    simp only [bind_eq_ok, require_eq_ok, exists_const, pure_eq_ok] at h
    obtain ⟨hcoll, rfl⟩ := h
    have hzero : c.worth = 0 := by
      simp [CallOrder.worth, CallOrder.getCollateral, hdebt, hcoll]
    have hremoved : Ledger.books { N with callOrders := N.callOrders.remove id } =
        L.books + 0 := by
      rw [books_removeCallOrder hup.order, hzero, sub_zero, add_zero, hup.books, hpays.books,
        neg_add_cancel_right]
    rw [hN] at hremoved ⊢
    refine Turn.keeps ⟨hremoved, hpays.bitasset, hs.of_books OnAssets.zero hremoved hpays.bitasset
      hpays.supply hpays.nonneg (hpays.limitOrders ▸ hs.limitOrders) (fun j c' hj => ?_)
      (hpays.settlements ▸ hs.settlements) (hpays.bids ▸ hs.bids)⟩
    obtain ⟨hne, hj⟩ := Table.find_remove_iff.mp hj
    exact hs.callOrders j c' (hpays.callOrders ▸ (hup.others j hne).symm.trans hj)
  · simp only [bind_eq_ok, require_eq_ok, exists_const] at h
    obtain ⟨⟨hcoll, hdebt⟩, h⟩ := h
    split at h
    · obtain rfl := pure_eq_ok.mp h
      exact hkeeps hcoll hdebt
    · exact (hkeeps hcoll hdebt).trans (checkUpdated_keeps (hkeeps hcoll hdebt).shape h)

theorem apply_keeps {rounds : Nat} {skip : Bool} (hs : Shape L)
    (h : op.apply rounds skip L = .ok L') : Keeps L L' := by
  simp only [apply, doEvaluate, bind_eq_ok, require_eq_ok, exists_const] at h
  obtain ⟨-, core, hcore, ⟨b, hb, hunsettled, hbacking, -⟩, h⟩ := h
  exact applyWithFee_keeps hs (evaluateFee_prepared hcore)
    (fun M M' hpays hM hdo => doApply_keeps hM
      ((hpays.bitasset _).trans hb) hunsettled hbacking hdo)
    h

end CallOrderUpdate

/-! ### Bids -/

namespace BidCollateral

variable {op : BidCollateral} {b : BitassetData}

theorem doApply_keeps (hs : Shape L) (hvalid : op.Valid)
    (hb : L.bitasset op.debtCovered.assetId = .ok b)
    (hbacking : op.additionalCollateral.assetId = b.options.shortBackingAsset)
    (h : op.doApply L = .ok L') : Keeps L L' := by
  simp only [doApply, bind_eq_ok] at h
  obtain ⟨M, hM, h⟩ := h
  have hturn : Turn L M 0 := by
    split at hM
    · obtain rfl := pure_eq_ok.mp hM
      exact Turn.refl hs
    · exact cancelBid_turn hs hM
  split at h
  · obtain rfl := pure_eq_ok.mp h
    exact hturn.keeps
  · rename_i hzero
    simp only [bind_eq_ok, Price.ofAssets_eq_ok] at h
    obtain ⟨N, hN, p, ⟨-, rfl⟩, h⟩ := h
    have hpaid := (adjustBalance_pays hN).turn hturn.shape
      (credit_neg op.additionalCollateral ▸ (OnAssets.credit _).neg)
    have hamounts := hvalid.2.resolve_left hzero
    have hbid : CollateralBid.Sound N.bitasset
        ⟨op.bidder, ⟨op.additionalCollateral, op.debtCovered⟩⟩ := by
      refine ⟨hamounts.1, le_of_lt hamounts.2, b, ?_, hbacking.symm⟩
      exact (hpaid.bitasset _).trans ((hturn.bitasset _).trans hb)
    obtain ⟨-, hcreated⟩ := createBid_turn hpaid.shape hbid h
    refine (((hturn.trans hpaid).trans hcreated).congr ?_).keeps
    rw [credit_neg, CollateralBid.worth]
    abel

theorem apply_keeps {skip : Bool} (hs : Shape L) (h : op.apply skip L = .ok L') :
    Keeps L L' := by
  simp only [apply, doEvaluate, bind_eq_ok, require_eq_ok, exists_const] at h
  obtain ⟨hvalid, core, hcore, ⟨b, hb, -, hbacking, -⟩, h⟩ := h
  exact applyWithFee_keeps hs (evaluateFee_prepared hcore)
    (fun M M' hpays hM hdo => doApply_keeps hM hvalid ((hpays.bitasset _).trans hb) hbacking hdo) h

end BidCollateral

/-! ### Settlement -/

namespace AssetSettle

variable {op : AssetSettle} {b : BitassetData}

/-- What a settlement out of the fund takes: at most the fund, for at most the amount, at least at
the settlement price rounded down, and the fund that is left is enough for the supply that is left
and empty when there is none. -/
structure Payout (op : AssetSettle) (b : BitassetData) (supply settled pays : Int) : Prop where
  settled_nonneg : 0 ≤ settled
  settled_le : settled ≤ b.settlementFund
  pays_nonneg : 0 ≤ pays
  pays_le : pays ≤ op.amount.amount
  at_least : pays * b.settlementPrice.quote.amount / b.settlementPrice.base.amount ≤ settled
  enough : (supply - pays) * b.settlementPrice.quote.amount ≤
    (b.settlementFund - settled) * b.settlementPrice.base.amount
  emptied : supply - pays = 0 → b.settlementFund - settled = 0

theorem payout_spec {share pays : Asset} {supply settled : Int}
    (hsound : b.Sound op.amount.assetId) (hset : b.hasSettlement = true)
    (hsolvent : b.Solvent supply) (hamount : 0 ≤ op.amount.amount)
    (hheld : op.amount.amount ≤ supply)
    (hshare : op.amount.mul b.settlementPrice = .ok share)
    (hsettled : settled = if op.amount.amount = supply then b.settlementFund else share.amount)
    (hfund : op.amount.amount = supply ∨ settled ≤ b.settlementFund)
    (hpays : (if op.amount.amount ≠ supply ∧ settled ≠ 0 then
      (Asset.mk settled share.assetId).multiplyAndRoundUp b.settlementPrice
        else pure op.amount) = .ok pays) :
    Payout op b supply settled pays.amount ∧ pays.assetId = op.amount.assetId ∧
      share.assetId = b.options.shortBackingAsset := by
  have hbase := hsound.base_asset hset
  have hquote := hsound.quote_asset hset
  have hQ := hsound.quote_nonneg hset
  obtain ⟨hid, hB, hfloor⟩ : share.assetId = b.options.shortBackingAsset ∧
      0 < b.settlementPrice.base.amount ∧ share.amount =
        op.amount.amount * b.settlementPrice.quote.amount / b.settlementPrice.base.amount := by
    rcases Asset.mul_cases hshare with ⟨-, hid, hd, -, he⟩ | ⟨hne, -⟩
    · exact ⟨hid.trans hquote, hd, he⟩
    · exact absurd hbase.symm hne
  have hdiffer : b.settlementPrice.base.assetId ≠ b.settlementPrice.quote.assetId := by
    rw [hbase, hquote]
    exact hsound.backing_ne.symm
  by_cases hall : op.amount.amount = supply
  · -- the last holder takes the whole fund
    rw [if_pos hall] at hsettled
    rw [if_neg (fun hn => hn.1 hall)] at hpays
    obtain rfl := pure_eq_ok.mp hpays
    rw [hsettled]
    refine ⟨⟨hsound.fund_nonneg, le_refl _, hamount, le_refl _, ?_, ?_, fun _ => sub_self _⟩, rfl,
      hid⟩
    · rw [hall]
      exact Int.ediv_le_of_le_mul hB hsolvent.enough
    · rw [hall, sub_self, sub_self, zero_mul, zero_mul]
  · rw [if_neg hall] at hsettled
    subst hsettled
    have hle := hfund.resolve_left hall
    have hnonneg := Asset.mul_nonneg hshare
    have hmore : op.amount.amount < supply := lt_of_le_of_ne hheld hall
    split at hpays
    · -- what is paid is rounded up
      obtain ⟨hpaysId, hpaysLe⟩ := Asset.roundUp_mul_le hshare hdiffer hpays
      have hround : share.amount * b.settlementPrice.base.amount ≤
          pays.amount * b.settlementPrice.quote.amount := by
        rcases Asset.multiplyAndRoundUp_cases hpays with ⟨hid', -⟩ | ⟨-, -, -, hd, -, he⟩
        · exact absurd (hid.symm.trans (hid'.trans hbase)) hsound.backing_ne
        · exact (roundUp_le_iff hd).mp he.symm.le
      refine ⟨⟨hnonneg, hle, Asset.multiplyAndRoundUp_nonneg hpays, hpaysLe, ?_, ?_,
        fun hzero => by omega⟩, hpaysId, hid⟩
      · rw [hfloor]
        exact Int.ediv_le_ediv hB (mul_le_mul_of_nonneg_right hpaysLe hQ)
      · rw [sub_mul, sub_mul]
        exact sub_le_sub hsolvent.enough hround
    · rename_i hzero
      obtain rfl := pure_eq_ok.mp hpays
      have hzero' : share.amount = 0 := by
        by_contra hne
        exact hzero ⟨hall, hne⟩
      refine ⟨⟨hnonneg, hle, hamount, le_refl _, hfloor.symm.le, ?_, fun hzero => by omega⟩, rfl,
        hid⟩
      rw [hzero', sub_zero, sub_mul]
      exact (sub_le_self _ (mul_nonneg hamount hQ)).trans hsolvent.enough

/-- The asset after a settlement out of the fund. -/
def settledAsset (a : AssetObject) (b : BitassetData) (settled pays : Int) : AssetObject :=
  { a with
    dynamicData := { a.dynamicData with
      currentSupply := a.dynamicData.currentSupply - pays }
    bitassetData := some { b with settlementFund := b.settlementFund - settled } }

theorem paySettled_spec {a : AssetObject} {settled pays : Int} {M N : Ledger}
    (hsettled : 0 ≤ settled) (ha : M.assets.find op.amount.assetId = some a)
    (hb : a.bitassetData = some b)
    (hN : (if 0 < settled then do
        let L ← M.modifyBitasset op.amount.assetId fun b =>
          { b with settlementFund := b.settlementFund - settled }
        L.adjustBalance op.account ⟨settled, b.options.shortBackingAsset⟩
      else pure M) = .ok N)
    (h : N.modifyDynamicData op.amount.assetId (fun d =>
      { d with currentSupply := d.currentSupply - pays }) = .ok L') :
    ∃ P, M.adjustBalance op.account ⟨settled, b.options.shortBackingAsset⟩ = .ok P ∧
      L' = { P with assets := M.assets.set op.amount.assetId (settledAsset a b settled pays) } := by
  simp only [modifyDynamicData, modifyAsset, asset, bind_eq_ok, demand_eq_ok, pure_eq_ok] at h
  obtain ⟨a1, ha1, rfl⟩ := h
  split at hN
  · simp only [modifyBitasset, modifyAsset, asset, bind_eq_ok, demand_eq_ok, pure_eq_ok] at hN
    obtain ⟨M1, ⟨b1, hb1, a2, ha2, rfl⟩, hN⟩ := hN
    obtain rfl : a2 = a := Option.some.inj (ha2.symm.trans ha)
    obtain rfl : b1 = b := Except.ok.inj (hb1.symm.trans (bitasset_eq_ok.mpr ⟨a2, ha, hb⟩))
    obtain ⟨P, hP, rfl⟩ := adjustBalance_withAssets hN
    refine ⟨P, hP, ?_⟩
    simp only [Table.find_set_self ha, Option.some.injEq] at ha1
    subst ha1
    rw [Table.set_set, settledAsset]
  · rename_i hzero
    obtain rfl := pure_eq_ok.mp hN
    obtain rfl : settled = 0 := le_antisymm (not_lt.mp hzero) hsettled
    obtain rfl : a1 = a := Option.some.inj (ha1.symm.trans ha)
    refine ⟨N, if_pos rfl, ?_⟩
    rw [settledAsset, sub_zero, hb]

theorem settleFromFund_spec {a : AssetObject} (hs : Shape L) (hamount : 0 ≤ op.amount.amount)
    (hheld : op.amount.amount ≤ a.dynamicData.currentSupply)
    (ha : L.assets.find op.amount.assetId = some a) (hb : a.bitassetData = some b)
    (hset : b.hasSettlement = true)
    (h : op.settleFromFund b a.dynamicData.currentSupply L = .ok L') :
    ∃ settled pays M P, Payout op b a.dynamicData.currentSupply settled pays ∧
      L.adjustBalance op.account (Asset.mk pays op.amount.assetId).neg = .ok M ∧
      M.adjustBalance op.account ⟨settled, b.options.shortBackingAsset⟩ = .ok P ∧
      L' = { P with assets := L.assets.set op.amount.assetId (settledAsset a b settled pays) } := by
  have hbit : L.bitasset op.amount.assetId = .ok b := bitasset_eq_ok.mpr ⟨a, ha, hb⟩
  have hsolvent := supply_of_find ha ▸ hs.solvent _ b hbit hset
  simp only [settleFromFund, bind_eq_ok, require_eq_ok, exists_const] at h
  obtain ⟨share, hshare, hfund, -, pays, hpays, M, hM, N, hN, h⟩ := h
  obtain ⟨settled, hsettled⟩ : ∃ x, x = if op.amount.amount = a.dynamicData.currentSupply
    then b.settlementFund else share.amount := ⟨_, rfl⟩
  rw [← hsettled] at hfund hpays hN
  obtain ⟨hpayout, hpaysId, hid⟩ := payout_spec (hs.bitassets _ b hbit) hset hsolvent hamount hheld
    hshare hsettled hfund hpays
  have hassets := adjustBalance_assets hM
  rw [hid] at hN
  obtain ⟨P, hP, rfl⟩ := paySettled_spec hpayout.settled_nonneg (hassets ▸ ha) hb hN h
  refine ⟨settled, pays.amount, M, P, hpayout, ?_, hP, by rw [hassets]⟩
  rw [← hpaysId]
  exact hM

theorem settledAsset_worth {a : AssetObject} {id : AssetId} {settled pays : Int}
    (hb : a.bitassetData = some b) (hset : b.hasSettlement = true) :
    (settledAsset a b settled pays).worth id = a.worth id -
      credit ⟨settled, b.options.shortBackingAsset⟩ + credit ⟨pays, id⟩ := by
  have hset' : BitassetData.hasSettlement
      { b with settlementFund := b.settlementFund - settled } = true := hset
  simp only [AssetObject.worth, settledAsset, hb, fund, outstanding_settled _ hset,
    outstanding_settled _ hset', credit_sub]
  abel

theorem settleFromFund_keeps {a : AssetObject} (hs : Shape L) (hamount : 0 ≤ op.amount.amount)
    (hheld : op.amount.amount ≤ a.dynamicData.currentSupply)
    (ha : L.assets.find op.amount.assetId = some a) (hb : a.bitassetData = some b)
    (hset : b.hasSettlement = true)
    (h : op.settleFromFund b a.dynamicData.currentSupply L = .ok L') : Keeps L L' := by
  have hbit : L.bitasset op.amount.assetId = .ok b := bitasset_eq_ok.mpr ⟨a, ha, hb⟩
  have hsound := hs.bitassets _ b hbit
  obtain ⟨settled, pays, M, P, hpayout, hM, hP, rfl⟩ :=
    settleFromFund_spec hs hamount hheld ha hb hset h
  have hassets : P.assets = L.assets := (adjustBalance_assets hP).trans (adjustBalance_assets hM)
  have hturn := ((adjustBalance_pays hM).trans (adjustBalance_pays hP)).turn hs
    ((credit_neg ⟨pays, op.amount.assetId⟩ ▸ (OnAssets.credit _).neg).add (OnAssets.credit _))
  have haP : P.assets.find op.amount.assetId = some a := hassets ▸ ha
  have hworth : (settledAsset a b settled pays).worth op.amount.assetId =
      a.worth op.amount.assetId - credit ⟨settled, b.options.shortBackingAsset⟩ +
        credit ⟨pays, op.amount.assetId⟩ := settledAsset_worth hb hset
  rw [← hassets]
  refine ⟨?_, Shape.setAsset hturn.shape haP hb rfl rfl ?_
    (fun _ => ⟨hpayout.enough, hpayout.emptied⟩)
    (fun j c hc hd => ?_) (hs.nonneg.fees _ a ha) ?_⟩
  · rw [books_setAsset haP, hworth, hturn.books, credit_neg]
    abel
  · exact ⟨hsound.backing_ne, fun hun => absurd (hset.symm.trans hun) Bool.noConfusion,
      hsound.base_asset, hsound.quote_asset, hsound.quote_nonneg,
      sub_nonneg.mpr hpayout.settled_le⟩
  · obtain ⟨d, hd', -, hunsettled⟩ := (hturn.shape.callOrders j c hc).backed
    rw [hd, hturn.bitasset, hbit] at hd'
    obtain rfl : b = d := Except.ok.inj hd'
    exact hunsettled
  · rw [hworth, sub_add_eq_add_sub, add_sub_assoc, add_sub_cancel_left]
    exact (OnAssets.credit _).sub (OnAssets.credit _)

theorem doApply_keeps (hs : Shape L) (hamount : 0 ≤ op.amount.amount)
    (hheld : ∀ b, L.bitasset op.amount.assetId = .ok b → b.hasSettlement = true →
      op.amount.amount ≤ L.supply op.amount.assetId)
    (h : op.doApply L = .ok L') : Keeps L L' := by
  simp only [doApply, asset, bind_eq_ok, demand_eq_ok] at h
  obtain ⟨a, ha, b, hb, h⟩ := h
  obtain ⟨a', ha', hab⟩ := bitasset_eq_ok.mp hb
  obtain rfl : a' = a := Option.some.inj (ha'.symm.trans ha)
  split at h
  · rename_i hset
    exact settleFromFund_keeps hs hamount (supply_of_find ha ▸ hheld b hb hset) ha hab hset h
  · simp only [bind_eq_ok, pure_eq_ok] at h
    obtain ⟨M, hM, rfl⟩ := h
    have hpays := adjustBalance_pays hM
    have hcreate : ∀ s, Ledger.books { M with settlements := M.settlements.create s } =
        M.books + s.worth := by
      intro s
      simp only [Ledger.books, Table.sum_create]
      abel
    have hbooks : ∀ date, M.books + ForceSettlement.worth ⟨op.account, op.amount, date⟩ =
        L.books + 0 := by
      intro date
      rw [hpays.books, credit_neg, ForceSettlement.worth]
      abel
    have hend := (hcreate _).trans (hbooks (M.headBlockTime + b.options.forceSettlementDelaySec))
    refine Turn.keeps ⟨hend, hpays.bitasset, hs.of_books OnAssets.zero hend
      hpays.bitasset hpays.supply hpays.nonneg (hpays.limitOrders ▸ hs.limitOrders)
      (hpays.callOrders ▸ hs.callOrders) (fun j s hj => ?_) (hpays.bids ▸ hs.bids)⟩
    rcases Table.find_create_iff.mp hj with hj | ⟨-, rfl⟩
    · exact hs.settlements j s (hpays.settlements ▸ hj)
    · exact hamount

theorem apply_keeps {skip : Bool} (hL : Balanced L) (h : op.apply skip L = .ok L') :
    Keeps L L' := by
  simp only [apply, doEvaluate, bind_eq_ok, require_eq_ok, exists_const] at h
  obtain ⟨hvalid, core, hcore, ⟨a, -, b, -, -, -, hbalance⟩, h⟩ := h
  refine applyWithFee_keeps hL.shape (evaluateFee_prepared hcore)
    (fun M M' hpays hM hdo => doApply_keeps hM hvalid.2 (fun b hb hset => ?_) hdo) h
  rw [hpays.supply _ b ((hpays.bitasset _).symm.trans hb) hset]
  exact hbalance.trans (Balanced.balance_le_supply hL _ _)

end AssetSettle

theorem AssetGlobalSettle.apply_keeps {op : AssetGlobalSettle} {skip : Bool} (hs : Shape L)
    (h : op.apply skip L = .ok L') : Keeps L L' := by
  simp only [AssetGlobalSettle.apply, bind_eq_ok, require_eq_ok, exists_const] at h
  obtain ⟨-, core, hcore, -, -, h⟩ := h
  exact applyWithFee_keeps hs (evaluateFee_prepared hcore)
    (fun M M' _ hM hdo => globallySettleAsset_keeps hM hdo) h

/-! ### Feeds -/

theorem modifyBitasset_self {mia : AssetId} {f : BitassetData → BitassetData} {b : BitassetData}
    (hb : L.bitasset mia = .ok b) (h : L.modifyBitasset mia f = .ok L') :
    L'.bitasset mia = .ok (f b) := by
  simp only [modifyBitasset, modifyAsset, asset, bind_eq_ok, demand_eq_ok, pure_eq_ok] at h
  obtain ⟨b', hb', a, ha, rfl⟩ := h
  obtain rfl : b' = b := Except.ok.inj (hb'.symm.trans hb)
  exact bitasset_set_self ha rfl

theorem modifyBitasset_ne {mia id : AssetId} {f : BitassetData → BitassetData} (hid : id ≠ mia)
    (h : L.modifyBitasset mia f = .ok L') : L'.bitasset id = L.bitasset id := by
  simp only [modifyBitasset, modifyAsset, asset, bind_eq_ok, demand_eq_ok, pure_eq_ok] at h
  obtain ⟨b, -, a, -, rfl⟩ := h
  exact bitasset_set_ne hid

theorem modifyBitasset_supply {mia id : AssetId} {f : BitassetData → BitassetData}
    (h : L.modifyBitasset mia f = .ok L') : L'.supply id = L.supply id := by
  simp only [modifyBitasset, modifyAsset, asset, bind_eq_ok, demand_eq_ok, pure_eq_ok] at h
  obtain ⟨b, -, a, ha, rfl⟩ := h
  by_cases hid : id = mia
  · subst hid
    rw [supply_set_self ha, supply_of_find ha]
  · exact supply_set_ne _ hid

namespace AssetPublishFeed

variable {op : AssetPublishFeed}

theorem doApply_keeps {rounds : Nat} (hs : Shape L)
    (hsupply : ∀ b, L.bitasset op.assetId = .ok b → b.hasSettlement = true →
      0 ≤ L.supply op.assetId) (h : op.doApply rounds L = .ok L') : Keeps L L' := by
  simp only [doApply, bind_eq_ok] at h
  obtain ⟨old, hold, M, hM, b, hb, h⟩ := h
  have hfed := modifyBitasset_keeps hs hM (fun _ _ => rfl) (fun _ => rfl) (fun _ => rfl)
  split at h
  · obtain rfl := pure_eq_ok.mp h
    exact hfed
  · simp only [bind_eq_ok, pure_eq_ok] at h
    obtain ⟨a, -, N, hN, r, hr, rfl⟩ := h
    have hrevived : Keeps M N := by
      split at hN
      · rename_i hset
        simp only [bind_eq_ok] at hN
        obtain ⟨revives, -, hN⟩ := hN
        split at hN
        · rw [modifyBitasset_self hold hM] at hb
          obtain rfl := Except.ok.inj hb
          have hsupply' : 0 ≤ M.supply op.assetId := by
            rw [modifyBitasset_supply hM]
            exact hsupply old hold hset
          exact reviveBitasset_keeps hfed.shape hsupply' hN
        · obtain rfl := pure_eq_ok.mp hN
          exact Keeps.refl hfed.shape
      · obtain rfl := pure_eq_ok.mp hN
        exact Keeps.refl hfed.shape
    exact (hfed.trans hrevived).trans (checkCallOrders_keeps hrevived.shape hr)

theorem apply_keeps {rounds : Nat} {skip : Bool} (hL : Balanced L)
    (h : op.apply rounds skip L = .ok L') : Keeps L L' := by
  simp only [apply, bind_eq_ok, require_eq_ok, exists_const] at h
  obtain ⟨-, core, hcore, -, -, h⟩ := h
  refine applyWithFee_keeps hL.shape (evaluateFee_prepared hcore)
    (fun M M' hpays hM hdo => doApply_keeps hM (fun b' hb' hset => ?_) hdo) h
  rw [hpays.supply _ b' ((hpays.bitasset _).symm.trans hb') hset]
  exact Balanced.supply_nonneg hL _

end AssetPublishFeed

/-! ### Payments -/

theorem issue_pays {id : AssetId} {x : Int} {a : AssetObject} (ha : L.assets.find id = some a)
    (hnone : a.bitassetData = none)
    (h : L.modifyDynamicData id (fun d => { d with currentSupply := d.currentSupply + x }) =
      .ok L') : Pays L L' (-credit ⟨x, id⟩) := by
  simp only [modifyDynamicData, modifyAsset, asset, bind_eq_ok, demand_eq_ok, pure_eq_ok] at h
  obtain ⟨a', ha', rfl⟩ := h
  obtain rfl : a' = a := Option.some.inj (ha'.symm.trans ha)
  refine ⟨?_, bitasset_set_of_eq ha rfl, fun j b hb _ => ?_, rfl, rfl, rfl, rfl,
    fun hn => { hn with fees := fun j d hd => ?_ }⟩
  · rw [books_setAsset ha]
    simp only [AssetObject.worth, hnone, fund, outstanding, Option.any_none, Bool.false_eq_true,
      if_false, credit_add]
    abel
  · have hj : j ≠ id := by
      rintro rfl
      obtain ⟨a'', ha'', hab⟩ := bitasset_eq_ok.mp hb
      obtain rfl : a'' = a' := Option.some.inj (ha''.symm.trans ha)
      rw [hnone] at hab
      cases hab
    exact supply_set_ne _ hj
  · rcases (Table.find_set_iff ha).mp hd with ⟨-, rfl⟩ | ⟨-, hd⟩
    · exact hn.fees id a' ha
    · exact hn.fees j d hd

theorem Pays.asset_of {M : Ledger} {δ : Books} {id : AssetId} (h : Pays L M δ) {a : AssetObject}
    (ha : L.assets.find id = some a) (hnone : a.bitassetData = none) :
    ∀ a', M.assets.find id = some a' → a'.bitassetData = none := by
  intro a' ha'
  cases hb : a'.bitassetData with
  | none => rfl
  | some b =>
    have hbit : L.bitasset id = .ok b :=
      (h.bitasset id).symm.trans (bitasset_eq_ok.mpr ⟨a', ha', hb⟩)
    obtain ⟨a'', ha'', hab⟩ := bitasset_eq_ok.mp hbit
    obtain rfl : a'' = a := Option.some.inj (ha''.symm.trans ha)
    rw [hnone] at hab
    cases hab

theorem modifyDynamicData_found {id : AssetId} {f : AssetDynamicData → AssetDynamicData}
    (h : L.modifyDynamicData id f = .ok L') : ∃ a, L.assets.find id = some a := by
  simp only [modifyDynamicData, modifyAsset, asset, bind_eq_ok, demand_eq_ok, pure_eq_ok] at h
  obtain ⟨a, ha, -⟩ := h
  exact ⟨a, ha⟩

theorem Pays.keeps (hs : Shape L) (h : Pays L L' 0) : Keeps L L' :=
  (h.turn hs OnAssets.zero).keeps

theorem Transfer.apply_keeps {op : Transfer} {required : Int} {skip : Bool} (hs : Shape L)
    (h : op.apply required skip L = .ok L') : Keeps L L' := by
  simp only [Transfer.apply, bind_eq_ok, require_eq_ok, exists_const] at h
  obtain ⟨-, core, hcore, -, -, h⟩ := h
  refine applyWithFee_keeps hs (evaluateFee_prepared hcore) (fun M M' _ hM hdo => ?_) h
  simp only [Transfer.doApply, bind_eq_ok] at hdo
  obtain ⟨N, hN, hdo⟩ := hdo
  refine Pays.keeps hM (((adjustBalance_pays hN).trans (adjustBalance_pays hdo)).congr ?_)
  rw [credit_neg, neg_add_cancel]

theorem AssetIssue.apply_keeps {op : AssetIssue} {required : Int} {skip : Bool} (hs : Shape L)
    (h : op.apply required skip L = .ok L') : Keeps L L' := by
  simp only [AssetIssue.apply, AssetIssue.doEvaluate, asset, bind_eq_ok, demand_eq_ok,
    require_eq_ok, exists_const] at h
  obtain ⟨-, core, hcore, ⟨a, ha, -, hnone, -⟩, h⟩ := h
  refine applyWithFee_keeps hs (evaluateFee_prepared hcore) (fun M M' hpays hM hdo => ?_) h
  simp only [AssetIssue.doApply, bind_eq_ok] at hdo
  obtain ⟨N, hN, hdo⟩ := hdo
  have hpaid := adjustBalance_pays hN
  obtain ⟨a', ha'⟩ := modifyDynamicData_found hdo
  have hissue := issue_pays ha' ((hpays.trans hpaid).asset_of ha hnone a' ha') hdo
  exact Pays.keeps hM ((hpaid.trans hissue).congr (add_neg_cancel _))

theorem AssetReserve.apply_keeps {op : AssetReserve} {required : Int} {skip : Bool} (hs : Shape L)
    (h : op.apply required skip L = .ok L') : Keeps L L' := by
  simp only [AssetReserve.apply, AssetReserve.doEvaluate, asset, bind_eq_ok, demand_eq_ok,
    require_eq_ok, exists_const] at h
  obtain ⟨-, core, hcore, ⟨a, ha, hnone, -⟩, h⟩ := h
  refine applyWithFee_keeps hs (evaluateFee_prepared hcore) (fun M M' hpays hM hdo => ?_) h
  simp only [AssetReserve.doApply, bind_eq_ok] at hdo
  obtain ⟨N, hN, hdo⟩ := hdo
  have hpaid := adjustBalance_pays hN
  obtain ⟨a', ha'⟩ := modifyDynamicData_found hdo
  simp only [sub_eq_add_neg] at hdo
  have hreserve := issue_pays ha' ((hpays.trans hpaid).asset_of ha hnone a' ha') hdo
  refine Pays.keeps hM ((hpaid.trans hreserve).congr ?_)
  rw [credit_neg, ← credit_neg ⟨-op.amountToReserve.amount, _⟩, Asset.neg, neg_neg]
  exact neg_add_cancel _

theorem AssetFundFeePool.apply_keeps {op : AssetFundFeePool} {required : Int} {skip : Bool}
    (hs : Shape L) (h : op.apply required skip L = .ok L') : Keeps L L' := by
  simp only [AssetFundFeePool.apply, bind_eq_ok, require_eq_ok, exists_const] at h
  obtain ⟨hvalid, core, hcore, -, -, h⟩ := h
  refine applyWithFee_keeps hs (evaluateFee_prepared hcore) (fun M M' _ hM hdo => ?_) h
  simp only [AssetFundFeePool.doApply, bind_eq_ok] at hdo
  obtain ⟨N, hN, hdo⟩ := hdo
  refine Pays.keeps hM (((adjustBalance_pays hN).trans
    (addFeePool_pays (le_of_lt hvalid.2.2) hdo)).congr ?_)
  rw [credit_neg, neg_add_cancel]

theorem AssetClaimFees.apply_keeps {op : AssetClaimFees} {required : Int} {skip : Bool}
    (hs : Shape L) (h : op.apply required skip L = .ok L') : Keeps L L' := by
  simp only [AssetClaimFees.apply, bind_eq_ok, require_eq_ok, exists_const] at h
  obtain ⟨-, core, hcore, -, -, -, h⟩ := h
  refine applyWithFee_keeps hs (evaluateFee_prepared hcore) (fun M M' _ hM hdo => ?_) h
  simp only [AssetClaimFees.doApply, asset, bind_eq_ok, demand_eq_ok, require_eq_ok,
    exists_const] at hdo
  obtain ⟨a, ha, hle, N, hN, hdo⟩ := hdo
  have hclaim : Pays M N (-credit op.amountToClaim) := by
    refine modifyDynamicData_pays hN (fun a _ => ?_) (Or.inl fun _ => rfl) fun a' ha' hn => ?_
    · simp only [AssetObject.worth, credit_sub]
      rw [show credit op.amountToClaim =
        credit ⟨op.amountToClaim.amount, op.amountToClaim.assetId⟩ from rfl]
      abel
    · obtain rfl : a' = a := Option.some.inj (ha'.symm.trans ha)
      exact ⟨sub_nonneg.mpr hle, hn.2⟩
  exact Pays.keeps hM ((hclaim.trans (adjustBalance_pays hdo)).congr (neg_add_cancel _))

end Nestchain.Market
