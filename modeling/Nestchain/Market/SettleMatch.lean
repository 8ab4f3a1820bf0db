import Nestchain.Market.CallFills
import Nestchain.Market.PositionsClosed
import Nestchain.Market.Total

/-! The match of a call order and a force settlement.  What the settlement offers is the least of
its balance, the volume that is left and the debt of the call order.  The call order pays for it
rounded down, and what it receives is rounded up again from that, so that it never pays for more
than it gets and never gets more than was offered; when it is closed, it pays rounded up, and at
least one. -/

namespace Nestchain.Market

open Lib Ledger

/-! ### Rounding -/

theorem Asset.least_eq_ok {a b c : Asset} :
    a.least b = .ok c ↔ a.assetId = b.assetId ∧ c = ⟨min a.amount b.amount, a.assetId⟩ := by
  constructor
  · intro h
    obtain ⟨hid, hasset, hle, hle', heither⟩ := Asset.least_spec h
    refine ⟨hid, Asset.ext (le_antisymm (le_min hle hle') ?_) hasset⟩
    rcases heither with rfl | rfl
    · exact min_le_left _ _
    · exact min_le_right _ _
  · rintro ⟨hid, rfl⟩
    have hless : b.less a = .ok (decide (b.amount < a.amount)) :=
      Asset.less_eq_ok.mpr ⟨hid.symm, rfl⟩
    simp only [least, bind_eq_ok, hless]
    refine ⟨_, rfl, ?_⟩
    split
    · rename_i hlt
      rw [min_eq_right (le_of_lt (of_decide_eq_true hlt)), hid]
      rfl
    · rename_i hge
      rw [min_eq_left (not_lt.mp fun hlt => hge (decide_eq_true hlt))]
      rfl

/-- The amount that a price converts into `paid`, rounded up, or less than it, is converted rounded
down into at most `paid`, and less into less. -/
theorem Asset.mul_of_roundUp {a b paid : Asset} {p : Price} (h : b.multiplyAndRoundUp p = .ok paid)
    (hid : a.assetId = b.assetId) (ha : 0 ≤ a.amount) (hle : a.amount ≤ b.amount)
    (hbase : 0 < p.base.amount) (hquote : 0 < p.quote.amount) :
    ∃ y, a.mul p = .ok y ∧ y.assetId = paid.assetId ∧ 0 ≤ y.amount ∧ y.amount ≤ paid.amount ∧
      (a.amount < b.amount → y.amount < paid.amount) := by
  have key : ∀ {n d : Int}, 0 < n → 0 < d → 0 ≤ a.amount * n / d ∧
      a.amount * n / d ≤ (b.amount * n + d - 1) / d ∧
      (a.amount < b.amount → a.amount * n / d < (b.amount * n + d - 1) / d) := by
    intro n d hn hd
    have hdown := Int.ediv_mul_le (a.amount * n) (ne_of_gt hd)
    obtain ⟨hup, -⟩ := roundUp_bounds (n := b.amount * n) hd rfl
    refine ⟨Int.ediv_nonneg (Int.mul_nonneg ha hn.le) hd.le, ?_, fun hlt => ?_⟩
    · refine le_of_mul_le_mul_right (hdown.trans (le_trans ?_ hup)) hd
      exact mul_le_mul_of_nonneg_right hle hn.le
    · refine lt_of_mul_lt_mul_right (lt_of_le_of_lt hdown (lt_of_lt_of_le ?_ hup)) hd.le
      exact mul_lt_mul_of_pos_right hlt hn
  unfold Asset.multiplyAndRoundUp at h
  unfold Asset.mul
  rw [hid]
  split at h
  · rename_i hbaseId
    obtain ⟨hd, -, hmax, rfl⟩ := convert_eq_ok.mp h
    obtain ⟨hnonneg, hpaid, hless⟩ := key hquote hd
    rw [if_pos hbaseId]
    exact ⟨_, convert_eq_ok.mpr ⟨hd, Int.mul_nonneg ha hquote.le, hpaid.trans hmax, rfl⟩, rfl,
      hnonneg,
      hpaid, hless⟩
  · rename_i hbaseId
    split at h
    · rename_i hquoteId
      obtain ⟨hd, -, hmax, rfl⟩ := convert_eq_ok.mp h
      obtain ⟨hnonneg, hpaid, hless⟩ := key hbase hd
      rw [if_neg hbaseId, if_pos hquoteId]
      exact ⟨_, convert_eq_ok.mpr ⟨hd, Int.mul_nonneg ha hbase.le, hpaid.trans hmax, rfl⟩, rfl,
        hnonneg,
        hpaid, hless⟩
    · cases h

theorem Asset.roundUp_of_mul {a b : Asset} {p : Price} (h : a.mul p = .ok b)
    (hne : p.base.assetId ≠ p.quote.assetId) (hle : a.amount ≤ maxShareSupply) (hb : 0 ≤ b.amount)
    (hbase : 0 < p.base.amount) (hquote : 0 < p.quote.amount) :
    ∃ c, b.multiplyAndRoundUp p = .ok c ∧ c.assetId = a.assetId ∧ c.amount ≤ a.amount := by
  have key : ∀ {n d : Int}, 0 < n → 0 < d → b.amount = a.amount * n / d →
      0 ≤ b.amount * d + n - 1 ∧ (b.amount * d + n - 1) / n ≤ a.amount := by
    intro n d hn hd he
    have hmul := Int.mul_nonneg hb hd.le
    refine ⟨by omega, (roundUp_le_iff hn).mpr ?_⟩
    rw [he]
    exact Int.ediv_mul_le _ (ne_of_gt hd)
  rcases Asset.mul_cases h with ⟨ha, hbId, hd, -, he⟩ | ⟨-, ha, hbId, hd, -, he⟩
  · obtain ⟨hnonneg, hback⟩ := key hquote hd he
    rw [Asset.multiplyAndRoundUp_quote hne hbId]
    exact ⟨_, convert_eq_ok.mpr ⟨hquote, hnonneg, hback.trans hle, rfl⟩, ha.symm, hback⟩
  · obtain ⟨hnonneg, hback⟩ := key hbase hd he
    rw [Asset.multiplyAndRoundUp_base hbId]
    exact ⟨_, convert_eq_ok.mpr ⟨hbase, hnonneg, hback.trans hle, rfl⟩, ha.symm, hback⟩

/-! ### The two fills -/

/-- The settlement after a fill that takes `settled` from it and leaves some of it. -/
def ForceSettlement.afterFill (s : ForceSettlement) (settled : Int) : ForceSettlement :=
  { s with balance := ⟨s.balance.amount - settled, s.balance.assetId⟩ }

theorem CallFilled.found {t t' : Table CallOrder} {id : Nat} {c : CallOrder} {pays receives : Int}
    {ratio : Nat} (h : CallFilled t id c pays receives ratio t') (hc : t.find id = some c) :
    (c.debt = receives ∧ t'.find id = none) ∨
      ∃ c', c.debt ≠ receives ∧ t'.find id = some c' ∧ c.Left c' pays receives ratio := by
  cases h with
  | closed h => exact .inl ⟨h, Table.find_remove_self _ _⟩
  | left hne h => exact .inr ⟨_, hne, Table.find_set_self hc, h⟩

theorem fillTrade_zero (seller : AccountId) (options : AssetOptions) (id : AssetId) :
    fillTrade seller options ⟨0, id⟩ = 0 := by
  have hfee : (calculateMarketFee id options ⟨0, id⟩).amount = 0 :=
    le_antisymm (calculateMarketFee_le options (le_refl 0))
      (calculateMarketFee_nonneg options (le_refl 0))
  simp [fillTrade, hfee]

namespace Ledger

variable {L L' : Ledger} {call settle : Nat} {c : CallOrder} {s : ForceSettlement}

theorem fillCallOrder_supplies {id : Nat} {pays receives : Asset} {r : Bool × Ledger}
    (h : L.fillCallOrder id pays receives = .ok r) (j : AssetId) :
    r.2.supply j = L.supply j - receives.amountIn j := by
  by_cases hj : receives.assetId = j
  · rw [← hj, fillCallOrder_supply h, Asset.amountIn, if_pos rfl]
  · simp only [fillCallOrder, bind_eq_ok] at h
    obtain ⟨c, -, -, -, -, -, -, -, mia, -, M1, h1, M2, h2, h⟩ := h
    have hM1 : M1.supply j = L.supply j := by
      simp only [modifyDynamicData, modifyAsset, asset, bind_eq_ok, demand_eq_ok, pure_eq_ok] at h1
      obtain ⟨a, ha, rfl⟩ := h1
      exact supply_set_ne _ (Ne.symm hj)
    have hM2 : M2.supply j = L.supply j := (supply_congr (noteInOrders_assets h2) _).trans hM1
    rw [Asset.amountIn, if_neg hj, sub_zero, ← hM2]
    split at h
    · simp only [bind_eq_ok, pure_eq_ok] at h
      obtain ⟨M3, h3, M4, h4, rfl⟩ := h
      exact supply_congr ((noteInOrders_assets h4).trans (adjustBalance_assets h3)) _
    · simp only [bind_eq_ok, pure_eq_ok] at h
      obtain ⟨p, -, rfl⟩ := h
      rfl

theorem modifyDynamicData_supply {id : AssetId} {f : AssetDynamicData → AssetDynamicData}
    (h : L.modifyDynamicData id f = .ok L') (hf : ∀ d, (f d).currentSupply = d.currentSupply)
    (j : AssetId) : L'.supply j = L.supply j := by
  simp only [modifyDynamicData, modifyAsset, asset, bind_eq_ok, demand_eq_ok, pure_eq_ok] at h
  obtain ⟨a, ha, rfl⟩ := h
  by_cases hj : j = id
  · subst hj
    rw [supply_set_self ha, supply_of_find ha]
    exact hf _
  · exact supply_set_ne _ hj

theorem payMarketFees_supply {receives : Asset} {r : Asset × Ledger}
    (h : L.payMarketFees receives = .ok r) (id : AssetId) : r.2.supply id = L.supply id := by
  simp only [payMarketFees, bind_eq_ok] at h
  obtain ⟨a, -, h⟩ := h
  split at h
  · simp only [bind_eq_ok, pure_eq_ok] at h
    obtain ⟨M, hM, rfl⟩ := h
    exact modifyDynamicData_supply hM (fun _ => rfl) id
  · obtain rfl := pure_eq_ok.mp h
    rfl

theorem fillSettleOrder_spec {pays receives : Asset} {r : Bool × Ledger} {a : AssetObject}
    (hs : L.settlements.find settle = some s) (ha : L.assets.find receives.assetId = some a)
    (h : L.fillSettleOrder settle pays receives = .ok r) :
    r.2.callOrders = L.callOrders ∧ (∀ id, r.2.supply id = L.supply id) ∧
      r.2.purses = L.purses + fillTrade s.owner a.options receives ∧
      r.2.settlements = if pays.amount < s.balance.amount
        then L.settlements.set settle (s.afterFill pays.amount)
        else L.settlements.remove settle := by
  simp only [fillSettleOrder, bind_eq_ok, demand_eq_ok, Asset.minus_eq_ok, Asset.less_eq_ok] at h
  obtain ⟨s', hs', paid, hpaid, isPartial, ⟨-, rfl⟩, net, ⟨-, rfl⟩, M, h1, h⟩ := h
  obtain rfl : s = s' := Option.some.inj (hs.symm.trans hs')
  obtain ⟨hfee, hpurses⟩ := payMarketFees_purses ha hpaid
  have hfunds : Funds L M := (payMarketFees_funds hpaid).trans (adjustBalance_funds h1)
  have hM : M.purses = L.purses + fillTrade s.owner a.options receives := by
    rw [adjustBalance_purses h1, hpurses, fillTrade, ← hfee, add_assoc]
  have hsupply : ∀ id, M.supply id = L.supply id := fun id =>
    (supply_congr (adjustBalance_assets h1) id).trans (payMarketFees_supply hpaid id)
  have hsame : ∀ orders : Table ForceSettlement,
      Ledger.purses { M with settlements := orders } = M.purses := fun _ => purses_congr rfl rfl rfl
  split at h
  · rename_i hless
    obtain rfl := pure_eq_ok.mp h
    refine ⟨hfunds.callOrders, hsupply, (hsame _).trans hM, ?_⟩
    rw [if_pos (of_decide_eq_true hless), ← hfunds.settlements]
    rfl
  · rename_i hall
    obtain rfl := pure_eq_ok.mp h
    refine ⟨hfunds.callOrders, hsupply, (hsame _).trans hM, ?_⟩
    rw [if_neg fun hlt => hall (decide_eq_true hlt), ← hfunds.settlements]

theorem cancelSettleOrder_refunds (hs : L.settlements.find settle = some s)
    (h : L.cancelSettleOrder settle = .ok L') :
    L'.callOrders = L.callOrders ∧ (∀ id, L'.supply id = L.supply id) ∧
      L'.settlements = L.settlements.remove settle ∧
      L'.purses = L.purses + inPurse (.balance s.owner s.balance.assetId) s.balance.amount := by
  simp only [cancelSettleOrder, bind_eq_ok, demand_eq_ok, pure_eq_ok] at h
  obtain ⟨s', hs', M, h1, rfl⟩ := h
  obtain rfl : s = s' := Option.some.inj (hs.symm.trans hs')
  have hfunds := adjustBalance_funds h1
  refine ⟨hfunds.callOrders, supply_congr (L := L) (adjustBalance_assets h1 : M.assets = _), ?_, ?_⟩
  · exact congrArg (Table.remove · settle) hfunds.settlements
  · rw [← adjustBalance_purses h1]
    exact purses_congr rfl rfl rfl

/-- A match took `settled` from the settlement `s` and from the debt of the call order `c`, which
paid `pays` for it.  What is left of a settlement that is gone goes back to its owner, and the
collateral that is left of a call order that is gone to its borrower. -/
structure SettleMatched (L L' : Ledger) (call settle : Nat) (c : CallOrder) (s : ForceSettlement)
    (options : AssetOptions) (settled pays : Int) : Prop where
  call_order : (c.debt = settled ∧ L'.callOrders.find call = none) ∨
    (settled < c.debt ∧ ∃ c', L'.callOrders.find call = some c' ∧ c'.borrower = c.borrower ∧
      c'.debt = c.debt - settled ∧ c'.collateral = c.collateral - pays)
  settle_order : L'.settlements.find settle = none ∨
    (settled < s.balance.amount ∧ L'.settlements.find settle = some (s.afterFill settled))
  other_calls : ∀ j ≠ call, L'.callOrders.find j = L.callOrders.find j
  other_settlements : ∀ j ≠ settle, L'.settlements.find j = L.settlements.find j
  supply : ∀ id, L'.supply id = L.supply id - (Asset.mk settled s.balance.assetId).amountIn id
  purses : L'.purses = L.purses + fillTrade s.owner options ⟨pays, c.collateralType⟩ +
    inPurse (.balance s.owner s.balance.assetId)
      (if (L'.settlements.find settle).isNone then s.balance.amount - settled else 0) +
    inPurse (.balance c.borrower c.collateralType)
      (if c.debt = settled then c.collateral - pays else 0)

theorem fillCallAndSettle_matched {pays receives : Asset} {cull : Bool} {r : Asset × Ledger}
    {a : AssetObject} (hshape : Shape L) (hc : L.callOrders.find call = some c)
    (hs : L.settlements.find settle = some s) (ha : L.assets.find c.collateralType = some a)
    (hpays : pays.assetId = c.collateralType) (hreceives : receives.assetId = s.balance.assetId)
    (hdebt : receives.amount ≤ c.debt) (hbalance : receives.amount ≤ s.balance.amount)
    (h : L.fillCallAndSettle call settle pays receives cull = .ok r) :
    r.1 = receives ∧
      SettleMatched L r.2 call settle c s a.options receives.amount pays.amount := by
  simp only [fillCallAndSettle, bind_eq_ok, pure_eq_ok] at h
  obtain ⟨maker, hmaker, taker, htaker, M, hM, rfl⟩ := h
  obtain ⟨c', b, hc', -, hfilled⟩ := fillCallOrder_callOrders hmaker
  obtain rfl : c = c' := Option.some.inj (hc.symm.trans hc')
  obtain ⟨-, hcollateral⟩ := fillCallOrder_purses hc hmaker
  obtain ⟨-, honly, -⟩ := fillCallOrder_turn hshape
    (fun c' hc' => (Option.some.inj (hc.symm.trans hc')) ▸ hdebt) hmaker
  -- the asset that is paid has the same options after the first fill
  have hterms := (fillCallOrder_changes hmaker : Changes noOrder L maker.2).terms pays.assetId
  rw [hpays, ha, Option.map_some, Option.map_eq_some_iff] at hterms
  obtain ⟨a', ha', hsame⟩ := hterms
  have hoptions : a'.options = a.options := congrArg (fun t => t.2.1) hsame
  obtain ⟨hcalls, hsupply, hpaid, hleft⟩ :=
    fillSettleOrder_spec (honly.settlements ▸ hs) (hpays ▸ ha') htaker
  rw [honly.settlements] at hleft
  have hasset : Asset.mk pays.amount c.collateralType = pays := by rw [← hpays]
  have hamount : Asset.mk receives.amount s.balance.assetId = receives := by rw [← hreceives]
  have hcall : (c.debt = receives.amount ∧ maker.2.callOrders.find call = none) ∨
      (receives.amount < c.debt ∧ ∃ c', maker.2.callOrders.find call = some c' ∧
        c'.borrower = c.borrower ∧ c'.debt = c.debt - receives.amount ∧
        c'.collateral = c.collateral - pays.amount) := by
    rcases hfilled.found hc with hclosed | ⟨c', hne, hfind, hl⟩
    · exact Or.inl hclosed
    · exact Or.inr ⟨lt_of_le_of_ne hdebt (Ne.symm hne), c', hfind, hl.borrower, hl.debt,
        hl.collateral⟩
  have hpurses : taker.2.purses = L.purses + fillTrade s.owner a.options pays +
      inPurse (.balance c.borrower c.collateralType)
        (if c.debt = receives.amount then c.collateral - pays.amount else 0) := by
    rw [hpaid, hcollateral, hoptions]
    abel
  have hsupplies : ∀ id, taker.2.supply id = L.supply id - receives.amountIn id :=
    fun id => (hsupply id).trans (fillCallOrder_supplies hmaker id)
  have hset : receives.amount < s.balance.amount →
      taker.2.settlements.find settle = some (s.afterFill receives.amount) := by
    intro hlt
    rw [hleft, if_pos hlt, Table.find_set_self hs]
  have hother : ∀ j ≠ settle, taker.2.settlements.find j = L.settlements.find j := by
    intro j hj
    rw [hleft]
    split
    · exact Table.find_set_ne hj
    · exact Table.find_remove_ne hj
  refine ⟨rfl, ?_⟩
  split at hM
  · -- the rest of the settlement is refunded
    by_cases hlt : receives.amount < s.balance.amount
    · obtain ⟨hcalls', hsupply', hgone, hrefund⟩ := cancelSettleOrder_refunds (hset hlt) hM
      have hnone : M.settlements.find settle = none := by
        rw [hgone]
        exact Table.find_remove_self _ _
      refine ⟨?_, .inl hnone, fun j hj => ?_, fun j hj => ?_, fun id => ?_, ?_⟩
      · rw [hcalls', hcalls]
        exact hcall
      · rw [hcalls', hcalls]
        exact honly.others j hj
      · rw [hgone, Table.find_remove_ne hj]
        exact hother j hj
      · rw [hamount, hsupply', hsupplies]
      · rw [hrefund, hpurses, hasset, hnone]
        simp only [ForceSettlement.afterFill, Option.isNone_none, if_true]
        abel
    · -- there is nothing left that could be cancelled
      simp only [cancelSettleOrder, bind_eq_ok, demand_eq_ok] at hM
      obtain ⟨s', hs', -⟩ := hM
      rw [hleft, if_neg hlt, Table.find_remove_self] at hs'
      cases hs'
  · obtain rfl := pure_eq_ok.mp hM
    refine ⟨hcalls ▸ hcall, ?_, fun j hj => ?_, hother, fun id => ?_, ?_⟩
    · by_cases hlt : receives.amount < s.balance.amount
      · exact .inr ⟨hlt, hset hlt⟩
      · refine .inl ?_
        rw [hleft, if_neg hlt]
        exact Table.find_remove_self _ _
    · rw [hcalls]
      exact honly.others j hj
    · rw [hamount]
      exact hsupplies id
    · rw [hpurses, hasset]
      have hrest : (if (taker.2.settlements.find settle).isNone = true
          then s.balance.amount - receives.amount else 0) = 0 := by
        by_cases hlt : receives.amount < s.balance.amount
        · rw [hset hlt]
          rfl
        · rw [ite_eq_right_iff]
          intro
          omega
      rw [hrest, inPurse_zero, add_zero]

/-! ### The match -/

/-- What a settlement offers a call order, within the volume `most` that is left. -/
def offered (c : CallOrder) (s : ForceSettlement) (most : Int) : Int :=
  min (min s.balance.amount most) c.debt

/-- The branches of a match, with what the call order pays for what is offered, rounded down. -/
inductive MatchCase (L : Ledger) (call settle : Nat) (c : CallOrder) (s : ForceSettlement)
    (p : Price) (x : Int) (y : Asset) (r : Asset × Ledger) : Prop
  | closedForOne (hy : y.amount = 0) (hx : x = c.debt)
      (h : L.fillCallAndSettle call settle ⟨1, y.assetId⟩ ⟨x, s.balance.assetId⟩ false = .ok r)
  | cancelled (hy : y.amount = 0) (hx : x ≠ c.debt) (hall : x = s.balance.amount)
      (h : L.cancelSettleOrder settle = .ok r.2) (hr : r.1 = ⟨0, s.balance.assetId⟩)
  | nothing (hy : y.amount = 0) (hx : x ≠ c.debt) (hpart : x ≠ s.balance.amount)
      (hr : r = (⟨0, s.balance.assetId⟩, L))
  | closed (pays : Asset) (hy : y.amount ≠ 0) (hx : x = c.debt)
      (hpays : Asset.multiplyAndRoundUp ⟨x, s.balance.assetId⟩ p = .ok pays)
      (h : L.fillCallAndSettle call settle pays ⟨x, s.balance.assetId⟩ false = .ok r)
  | left (rounded : Asset) (hy : y.amount ≠ 0) (hx : x ≠ c.debt)
      (hrounded : y.multiplyAndRoundUp p = .ok rounded)
      (h : L.fillCallAndSettle call settle y rounded
        (Asset.mk x s.balance.assetId = s.balance ∧ rounded ≠ s.balance) = .ok r)

theorem matchCallAndSettle_eq_ok {p : Price} {most : Asset} {r : Asset × Ledger}
    (hc : L.callOrders.find call = some c) (hs : L.settlements.find settle = some s) :
    L.matchCallAndSettle call settle p most = .ok r ↔
      c.debtType = s.balance.assetId ∧ (0 < c.debt ∧ 0 < c.collateral ∧ 0 < s.balance.amount) ∧
        most.assetId = s.balance.assetId ∧
        ∃ y, (Asset.mk (offered c s most.amount) s.balance.assetId).mul p = .ok y ∧
          MatchCase L call settle c s p (offered c s most.amount) y r := by
  simp only [matchCallAndSettle, hc, hs, bind_eq_ok, demand_eq_ok, require_eq_ok, exists_const,
    Option.some.injEq, exists_eq_left', Asset.least_eq_ok]
  have hdebt : Asset.mk (offered c s most.amount) s.balance.assetId = c.getDebt ↔
      offered c s most.amount = c.debt ∧ s.balance.assetId = c.debtType := by
    rw [Asset.ext_iff]
    rfl
  have hbalance : Asset.mk (offered c s most.amount) s.balance.assetId = s.balance ↔
      offered c s most.amount = s.balance.amount := by
    rw [Asset.ext_iff]
    exact and_iff_left rfl
  constructor
  · rintro ⟨htype, hpos, forSale, ⟨hmost, rfl⟩, x, ⟨-, rfl⟩, y, hy, h⟩
    refine ⟨htype, hpos, hmost.symm, y, hy, ?_⟩
    change (if y.amount = 0 then
      if Asset.mk (offered c s most.amount) s.balance.assetId = c.getDebt then _
      else if Asset.mk (offered c s most.amount) s.balance.assetId = s.balance then _ else _
      else if Asset.mk (offered c s most.amount) s.balance.assetId = c.getDebt then _ else _) =
        _ at h
    split at h
    · rename_i hzero
      split at h
      · rename_i hx
        exact .closedForOne hzero (hdebt.mp hx).1 h
      · rename_i hx
        have hne : offered c s most.amount ≠ c.debt := fun he => hx (hdebt.mpr ⟨he, htype.symm⟩)
        split at h
        · rename_i hall
          simp only [bind_eq_ok, pure_eq_ok] at h
          obtain ⟨M, hM, rfl⟩ := h
          exact .cancelled hzero hne (hbalance.mp hall) hM rfl
        · rename_i hpart
          exact .nothing hzero hne (fun he => hpart (hbalance.mpr he)) (pure_eq_ok.mp h)
    · rename_i hzero
      split at h
      · rename_i hx
        simp only [bind_eq_ok] at h
        obtain ⟨pays, hpays, h⟩ := h
        exact .closed pays hzero (hdebt.mp hx).1 hpays h
      · rename_i hx
        simp only [bind_eq_ok] at h
        obtain ⟨rounded, hrounded, h⟩ := h
        exact .left rounded hzero (fun he => hx (hdebt.mpr ⟨he, htype.symm⟩)) hrounded h
  · rintro ⟨htype, hpos, hmost, y, hy, h⟩
    refine ⟨htype, hpos, _, ⟨hmost.symm, rfl⟩, _, ⟨htype.symm, rfl⟩, y, hy, ?_⟩
    change (if y.amount = 0 then
      if Asset.mk (offered c s most.amount) s.balance.assetId = c.getDebt then _
      else if Asset.mk (offered c s most.amount) s.balance.assetId = s.balance then _ else _
      else if Asset.mk (offered c s most.amount) s.balance.assetId = c.getDebt then _ else _) = _
    cases h with
    | closedForOne hzero hx h =>
      rw [if_pos hzero, if_pos (hdebt.mpr ⟨hx, htype.symm⟩)]
      exact h
    | cancelled hzero hx hall h hr =>
      rw [if_pos hzero, if_neg fun he => hx (hdebt.mp he).1, if_pos (hbalance.mpr hall)]
      simp only [bind_eq_ok, pure_eq_ok]
      exact ⟨r.2, h, Prod.ext hr rfl⟩
    | nothing hzero hx hpart hr =>
      rw [if_pos hzero, if_neg fun he => hx (hdebt.mp he).1, if_neg fun he =>
        hpart (hbalance.mp he)]
      exact pure_eq_ok.mpr hr
    | closed pays hzero hx hpays h =>
      rw [if_neg hzero, if_pos (hdebt.mpr ⟨hx, htype.symm⟩)]
      exact bind_eq_ok.mpr ⟨pays, hpays, h⟩
    | left rounded hzero hx hrounded h =>
      rw [if_neg hzero, if_neg fun he => hx (hdebt.mp he).1]
      exact bind_eq_ok.mpr ⟨rounded, hrounded, h⟩

theorem fillCallAndSettle_pays {pays receives : Asset} {cull : Bool} {r : Asset × Ledger}
    (hc : L.callOrders.find call = some c)
    (h : L.fillCallAndSettle call settle pays receives cull = .ok r) :
    c.debtType = receives.assetId ∧ c.collateralType = pays.assetId ∧
      pays.amount ≤ c.collateral := by
  simp only [fillCallAndSettle, fillCallOrder, bind_eq_ok, demand_eq_ok, require_eq_ok,
    exists_const] at h
  obtain ⟨maker, ⟨c', hc', hdebt, hcollateral, hle, -⟩, -⟩ := h
  obtain rfl : c = c' := Option.some.inj (hc.symm.trans hc')
  exact ⟨hdebt, hcollateral, hle⟩

theorem debtType_ne_collateralType (hshape : Shape L) (hc : L.callOrders.find call = some c) :
    c.debtType ≠ c.collateralType := by
  obtain ⟨b, hb, hbacking, -⟩ := (hshape.callOrders call c hc).backed
  rw [← hbacking]
  exact (hshape.bitassets _ b hb).backing_ne.symm

theorem SettleMatched.nothing (options : AssetOptions) (hc : L.callOrders.find call = some c)
    (hs : L.settlements.find settle = some s) (hdebt : 0 < c.debt)
    (hbalance : 0 < s.balance.amount) :
    SettleMatched L L call settle c s options 0 0 := by
  refine ⟨.inr ⟨hdebt, c, hc, rfl, (sub_zero _).symm, (sub_zero _).symm⟩, .inr ⟨hbalance, ?_⟩,
    fun _ _ => rfl, fun _ _ => rfl, fun id => ?_, ?_⟩
  · rw [hs, ForceSettlement.afterFill, sub_zero]
  · simp [Asset.amountIn]
  · rw [hs, if_neg (ne_of_gt hdebt), fillTrade_zero]
    simp

theorem SettleMatched.cancelled (options : AssetOptions) (hc : L.callOrders.find call = some c)
    (hs : L.settlements.find settle = some s) (hdebt : 0 < c.debt)
    (h : L.cancelSettleOrder settle = .ok L') :
    SettleMatched L L' call settle c s options 0 0 := by
  obtain ⟨hcalls, hsupply, hgone, hrefund⟩ := cancelSettleOrder_refunds hs h
  have hnone : L'.settlements.find settle = none := by
    rw [hgone]
    exact Table.find_remove_self _ _
  refine ⟨.inr ⟨hdebt, c, hcalls ▸ hc, rfl, (sub_zero _).symm, (sub_zero _).symm⟩, .inl hnone,
    fun j _ => by rw [hcalls], fun j hj => ?_, fun id => ?_, ?_⟩
  · rw [hgone]
    exact Table.find_remove_ne hj
  · rw [hsupply]
    simp [Asset.amountIn]
  · rw [hrefund, hnone, if_neg (ne_of_gt hdebt), fillTrade_zero]
    simp

theorem matchCallAndSettle_matched {p : Price} {most : Asset} {r : Asset × Ledger} {a : AssetObject}
    (hshape : Shape L) (hc : L.callOrders.find call = some c)
    (hs : L.settlements.find settle = some s) (ha : L.assets.find c.collateralType = some a)
    (hbase : 0 < p.base.amount) (hquote : 0 < p.quote.amount) (hmost : 0 ≤ most.amount)
    (h : L.matchCallAndSettle call settle p most = .ok r) :
    ∃ pays, r.1.assetId = s.balance.assetId ∧ 0 ≤ r.1.amount ∧
      r.1.amount ≤ offered c s most.amount ∧ 0 ≤ pays ∧ pays ≤ c.collateral ∧
      (pays = 0 ↔ r.1.amount = 0) ∧
      SettleMatched L r.2 call settle c s a.options r.1.amount pays := by
  obtain ⟨htype, ⟨hdebt, hcollateral, hbalance⟩, -, y, hy, hcase⟩ :=
    (matchCallAndSettle_eq_ok hc hs).mp h
  have hx : 0 ≤ offered c s most.amount := le_min (le_min hbalance.le hmost) hdebt.le
  have hxDebt : offered c s most.amount ≤ c.debt := min_le_right _ _
  have hxBalance : offered c s most.amount ≤ s.balance.amount :=
    (min_le_left _ _).trans (min_le_left _ _)
  have hoffered : (Asset.mk (offered c s most.amount) s.balance.assetId).assetId =
      s.balance.assetId := rfl
  cases hcase with
  | closedForOne hzero hclosed h =>
    obtain ⟨-, hpaid, hle⟩ := fillCallAndSettle_pays hc h
    obtain ⟨hr, hmatched⟩ :=
      fillCallAndSettle_matched hshape hc hs ha hpaid.symm hoffered hxDebt hxBalance h
    rw [hr]
    refine ⟨1, rfl, hx, le_refl _, zero_le_one, hle,
      ⟨fun he => absurd he one_ne_zero, fun he => ?_⟩,
      hmatched⟩
    exact absurd (hclosed.symm.trans he) (ne_of_gt hdebt)
  | cancelled hzero hne hall h hr =>
    rw [hr]
    exact ⟨0, rfl, le_refl _, hx, le_refl _, hcollateral.le, ⟨fun _ => rfl, fun _ => rfl⟩,
      .cancelled a.options hc hs hdebt h⟩
  | nothing hzero hne hpart hr =>
    rw [hr]
    exact ⟨0, rfl, le_refl _, hx, le_refl _, hcollateral.le, ⟨fun _ => rfl, fun _ => rfl⟩,
      .nothing a.options hc hs hdebt hbalance⟩
  | closed pays hzero hclosed hpays h =>
    obtain ⟨-, hpaid, hle⟩ := fillCallAndSettle_pays hc h
    obtain ⟨hr, hmatched⟩ :=
      fillCallAndSettle_matched hshape hc hs ha hpaid.symm hoffered hxDebt hxBalance h
    have hpos : 0 < offered c s most.amount := hclosed ▸ hdebt
    have hpaysPos := Asset.multiplyAndRoundUp_pos hpays hpos hbase hquote
    rw [hr]
    exact ⟨pays.amount, rfl, hx, le_refl _, hpaysPos.le, hle,
      ⟨fun he => absurd he (ne_of_gt hpaysPos), fun he => absurd he (ne_of_gt hpos)⟩, hmatched⟩
  | left rounded hzero hne hrounded h =>
    obtain ⟨hreceived, hpaid, hle⟩ := fillCallAndSettle_pays hc h
    have hyPos : 0 < y.amount := lt_of_le_of_ne (Asset.mul_nonneg hy) (Ne.symm hzero)
    have hroundedPos := Asset.multiplyAndRoundUp_pos hrounded hyPos hbase hquote
    -- rounded up from what was rounded down, it is not above what it came from
    have hassets : y.assetId ≠ rounded.assetId := by
      rw [← hpaid, ← hreceived]
      exact (debtType_ne_collateralType hshape hc).symm
    obtain ⟨hid, hback⟩ :=
      Asset.roundUp_mul_le hy (Asset.multiplyAndRoundUp_ne hrounded hassets) hrounded
    have hback' : rounded.amount ≤ offered c s most.amount := hback
    obtain ⟨hr, hmatched⟩ := fillCallAndSettle_matched hshape hc hs ha hpaid.symm hid
      (hback'.trans hxDebt) (hback'.trans hxBalance) h
    rw [hr]
    exact ⟨y.amount, hid, hroundedPos.le, hback', hyPos.le, hle,
      ⟨fun he => absurd he (ne_of_gt hyPos), fun he => absurd he (ne_of_gt hroundedPos)⟩, hmatched⟩

/-! ### Matches return -/

theorem fillCallOrder_ok {pays receives : Asset} (hshape : Shape L) (howned : Owned L)
    (hc : L.callOrders.find call = some c) (hdebt : c.debtType = receives.assetId)
    (hcollateral : c.collateralType = pays.assetId) (hle : pays.amount ≤ c.collateral)
    (hleft : c.debt ≠ receives.amount → pays.amount ≠ c.collateral) :
    ∃ r, L.fillCallOrder call pays receives = .ok r := by
  obtain ⟨b, hb, -⟩ := (hshape.callOrders call c hc).backed
  obtain ⟨a, ha, -⟩ := bitasset_eq_ok.mp hb
  obtain ⟨M1, h1⟩ := modifyDynamicData_ok (L := L)
    (f := fun d => { d with currentSupply := d.currentSupply - receives.amount })
    (Option.isSome_of_mem (hdebt ▸ ha))
  have hfunds := modifyDynamicData_funds h1
  obtain ⟨M2, h2⟩ := noteInOrders_ok (a := pays.neg)
    (hfunds.accounts _ (howned.borrowers call c hc))
  have hfunds' := hfunds.trans (noteInOrders_funds h2)
  obtain ⟨M3, h3⟩ := adjustBalance_ok M2 c.borrower
    (a := ⟨c.collateral - pays.amount, c.collateralType⟩) (sub_nonneg.mpr hle)
  obtain ⟨M4, h4⟩ := noteInOrders_ok
    (a := Asset.neg ⟨c.collateral - pays.amount, c.collateralType⟩)
    ((hfunds'.trans (adjustBalance_funds h3)).accounts _ (howned.borrowers call c hc))
  simp only [fillCallOrder, hc, bind_eq_ok, demand_eq_ok, require_eq_ok, exists_const,
    Option.some.injEq, exists_eq_left', hdebt ▸ hb, Except.ok.injEq, h1, h2]
  by_cases hall : c.debt = receives.amount
  · exact ⟨_, hdebt, hcollateral, hle, (if_pos (sub_eq_zero.mpr hall)).trans
      (bind_eq_ok.mpr ⟨M3, h3, bind_eq_ok.mpr ⟨M4, h4, rfl⟩⟩)⟩
  · have hne : c.collateral - pays.amount ≠ 0 := fun he => hleft hall (sub_eq_zero.mp he).symm
    have htypes := (debtType_ne_collateralType hshape hc).symm
    exact ⟨_, hdebt, hcollateral, hle, (if_neg fun he => hall (sub_eq_zero.mp he)).trans
      (bind_eq_ok.mpr ⟨_, Price.callPrice_eq_ok.mpr ⟨hne, htypes, rfl⟩, rfl⟩)⟩

theorem fillSettleOrder_ok {pays receives : Asset} {a : AssetObject}
    (hs : L.settlements.find settle = some s) (ha : L.assets.find receives.assetId = some a)
    (hpays : pays.assetId = s.balance.assetId) (hreceives : 0 ≤ receives.amount) :
    ∃ r, L.fillSettleOrder settle pays receives = .ok r := by
  obtain ⟨paid, hpaid, hid, hle⟩ := payMarketFees_ok hreceives (Option.isSome_of_mem ha)
  obtain ⟨M, hM⟩ := adjustBalance_ok paid.2 s.owner
    (a := ⟨receives.amount - paid.1.amount, receives.assetId⟩) (sub_nonneg.mpr hle)
  simp only [fillSettleOrder, hs, bind_eq_ok, demand_eq_ok, Option.some.injEq, exists_eq_left',
    hpaid, Except.ok.injEq, Asset.less_eq_ok, Asset.minus_eq_ok]
  by_cases hlt : pays.amount < s.balance.amount
  · exact ⟨_, _, ⟨hpays, rfl⟩, _, ⟨hid.symm, rfl⟩, M, hM, if_pos (decide_eq_true hlt)⟩
  · exact ⟨_, _, ⟨hpays, rfl⟩, _, ⟨hid.symm, rfl⟩, M, hM,
      if_neg fun he => hlt (of_decide_eq_true he)⟩

theorem cancelSettleOrder_ok (hs : L.settlements.find settle = some s)
    (hbalance : 0 ≤ s.balance.amount) : ∃ L', L.cancelSettleOrder settle = .ok L' := by
  obtain ⟨M, hM⟩ := adjustBalance_ok L s.owner hbalance
  simp only [cancelSettleOrder, hs, bind_eq_ok, demand_eq_ok, Option.some.injEq, exists_eq_left',
    hM,
    Except.ok.injEq]
  exact ⟨_, rfl⟩

theorem fillCallAndSettle_ok {pays receives : Asset} {cull : Bool} {a : AssetObject}
    (hshape : Shape L) (howned : Owned L) (hc : L.callOrders.find call = some c)
    (hs : L.settlements.find settle = some s) (ha : L.assets.find c.collateralType = some a)
    (htype : c.debtType = s.balance.assetId) (hreceives : receives.assetId = s.balance.assetId)
    (hpays : pays.assetId = c.collateralType) (hdebt : receives.amount ≤ c.debt)
    (hbalance : receives.amount ≤ s.balance.amount)
    (hcull : cull = true → receives.amount < s.balance.amount) (hnonneg : 0 ≤ pays.amount)
    (hle : pays.amount ≤ c.collateral)
    (hleft : c.debt ≠ receives.amount → pays.amount ≠ c.collateral) :
    ∃ r, L.fillCallAndSettle call settle pays receives cull = .ok r := by
  obtain ⟨maker, hmaker⟩ := fillCallOrder_ok hshape howned hc
    (htype.trans hreceives.symm) hpays.symm
    hle hleft
  obtain ⟨-, honly, -⟩ := fillCallOrder_turn hshape
    (fun c' hc' => (Option.some.inj (hc.symm.trans hc')) ▸ hdebt) hmaker
  have hterms := (fillCallOrder_changes hmaker : Changes noOrder L maker.2).terms pays.assetId
  rw [hpays, ha, Option.map_some, Option.map_eq_some_iff] at hterms
  obtain ⟨a', ha', -⟩ := hterms
  have hs' : maker.2.settlements.find settle = some s := honly.settlements ▸ hs
  obtain ⟨taker, htaker⟩ := fillSettleOrder_ok hs' (hpays ▸ ha') hreceives hnonneg
  obtain ⟨-, -, -, hrest⟩ := fillSettleOrder_spec hs' (hpays ▸ ha') htaker
  have hculled : ∃ M, (if cull then taker.2.cancelSettleOrder settle else pure taker.2 :
      Attempt Ledger) = .ok M := by
    split
    · rename_i htrue
      rw [if_pos (hcull htrue)] at hrest
      refine cancelSettleOrder_ok (s := s.afterFill receives.amount) ?_ (sub_nonneg.mpr hbalance)
      rw [hrest]
      exact Table.find_set_self hs'
    · exact ⟨taker.2, rfl⟩
  obtain ⟨M, hM⟩ := hculled
  simp only [fillCallAndSettle, bind_eq_ok, hmaker, Except.ok.injEq, exists_eq_left', htaker, hM]
  exact ⟨_, rfl⟩

end Ledger

/-- The collateral is worth the debt at a price, and the debt is an amount that there can be. -/
structure CallOrder.CanPay (c : CallOrder) (p : Price) : Prop where
  inRange : c.debt ≤ maxShareSupply
  pays : ∃ paid, c.getDebt.multiplyAndRoundUp p = .ok paid ∧ paid.assetId = c.collateralType ∧
    paid.amount ≤ c.collateral

namespace Ledger

theorem matchCallAndSettle_ok {p : Price} {most : Asset} {a : AssetObject} (hshape : Shape L)
    (howned : Owned L) (hc : L.callOrders.find call = some c)
    (hs : L.settlements.find settle = some s) (ha : L.assets.find c.collateralType = some a)
    (htype : c.debtType = s.balance.assetId) (hbalance : 0 < s.balance.amount)
    (hbase : 0 < p.base.amount) (hquote : 0 < p.quote.amount)
    (hmostType : most.assetId = s.balance.assetId) (hmost : 0 ≤ most.amount) (hpay : c.CanPay p) :
    ∃ r, L.matchCallAndSettle call settle p most = .ok r := by
  have hsound := hshape.callOrders call c hc
  have hdebt := hsound.debt_pos
  have hcollateral := hsound.collateral_pos
  obtain ⟨paid, hpaid, hpaidType, hpaidLe⟩ := hpay.pays
  have hx : 0 ≤ offered c s most.amount := le_min (le_min hbalance.le hmost) hdebt.le
  have hxDebt : offered c s most.amount ≤ c.debt := min_le_right _ _
  have hxBalance : offered c s most.amount ≤ s.balance.amount :=
    (min_le_left _ _).trans (min_le_left _ _)
  obtain ⟨y, hy, hyType, hyNonneg, hyLe, hyLt⟩ := Asset.mul_of_roundUp
    (a := ⟨offered c s most.amount, s.balance.assetId⟩) hpaid htype.symm hx hxDebt hbase hquote
  have hyAsset : y.assetId = c.collateralType := hyType.trans hpaidType
  have hoffered : (Asset.mk (offered c s most.amount) s.balance.assetId).assetId =
      s.balance.assetId := rfl
  have hkept : false = true → offered c s most.amount < s.balance.amount := fun h => nomatch h
  have hcase : ∃ r, MatchCase L call settle c s p (offered c s most.amount) y r := by
    by_cases hzero : y.amount = 0
    · by_cases hclosed : offered c s most.amount = c.debt
      · obtain ⟨r, hr⟩ := fillCallAndSettle_ok hshape howned hc hs ha htype hoffered
          (show (Asset.mk 1 y.assetId).assetId = c.collateralType from hyAsset) hxDebt hxBalance
          hkept zero_le_one hcollateral fun hne => absurd hclosed.symm hne
        exact ⟨r, .closedForOne hzero hclosed hr⟩
      · by_cases hall : offered c s most.amount = s.balance.amount
        · obtain ⟨M, hM⟩ := cancelSettleOrder_ok hs hbalance.le
          exact ⟨_, .cancelled hzero hclosed hall (r := (⟨0, s.balance.assetId⟩, M)) hM rfl⟩
        · exact ⟨_, .nothing hzero hclosed hall rfl⟩
    · by_cases hclosed : offered c s most.amount = c.debt
      · have hpays : Asset.multiplyAndRoundUp ⟨offered c s most.amount, s.balance.assetId⟩ p =
            .ok paid := by
          rw [hclosed, ← htype]
          exact hpaid
        obtain ⟨r, hr⟩ := fillCallAndSettle_ok hshape howned hc hs ha htype hoffered hpaidType
          hxDebt hxBalance hkept (Asset.multiplyAndRoundUp_nonneg hpaid) hpaidLe
          fun hne => absurd hclosed.symm hne
        exact ⟨r, .closed paid hzero hclosed hpays hr⟩
      · have hlt : offered c s most.amount < c.debt := lt_of_le_of_ne hxDebt hclosed
        have hne : p.base.assetId ≠ p.quote.assetId := by
          refine Asset.multiplyAndRoundUp_ne hpaid ?_
          rw [hpaidType]
          exact debtType_ne_collateralType hshape hc
        obtain ⟨rounded, hrounded, hroundedType, hback⟩ := Asset.roundUp_of_mul hy hne
          (hxDebt.trans hpay.inRange) hyNonneg hbase hquote
        have hback' : rounded.amount ≤ offered c s most.amount := hback
        have hculled : decide (Asset.mk (offered c s most.amount) s.balance.assetId = s.balance ∧
            rounded ≠ s.balance) = true → rounded.amount < s.balance.amount := by
          intro hcull
          refine lt_of_le_of_ne (hback'.trans hxBalance) fun he => ?_
          exact (of_decide_eq_true hcull).2 (Asset.ext he hroundedType)
        obtain ⟨r, hr⟩ := fillCallAndSettle_ok hshape howned hc hs ha htype hroundedType hyAsset
          (hback'.trans hxDebt) (hback'.trans hxBalance) hculled hyNonneg (hyLe.trans hpaidLe)
          fun _ => ne_of_lt ((hyLt hlt).trans_le hpaidLe)
        exact ⟨r, .left rounded hzero hclosed hrounded hr⟩
  obtain ⟨r, hr⟩ := hcase
  exact ⟨r, (matchCallAndSettle_eq_ok hc hs).mpr
    ⟨htype, ⟨hdebt, hcollateral, hbalance⟩, hmostType, y, hy, hr⟩⟩

end Ledger

end Nestchain.Market
