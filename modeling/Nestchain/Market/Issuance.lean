import Nestchain.Market.CallFills
import Nestchain.Maintenance.Conservation

/-! The supplies of the assets.  Matching, settling, margin calls, bids and revivals never add to a
supply; only the issue of an asset and a loan do, and the loan without a look at the maximum
supply. -/

namespace Nestchain.Market

open Lib

def Unissued (L L' : Ledger) : Prop := ∀ id, L'.supply id ≤ L.supply id

/-- At most so much has been added to the supply of one asset. -/
def Issues (id : AssetId) (x : Int) (L L' : Ledger) : Prop :=
  ∀ j, L'.supply j ≤ L.supply j + if j = id then x else 0

theorem Unissued.refl (L : Ledger) : Unissued L L := fun _ => le_refl _

theorem Unissued.trans {L L1 L' : Ledger} (h : Unissued L L1) (h' : Unissued L1 L') :
    Unissued L L' := fun id => (h' id).trans (h id)

theorem Unissued.of_assets {L L' : Ledger} (h : L'.assets = L.assets) : Unissued L L' :=
  fun id => le_of_eq (Ledger.supply_congr h id)

theorem Unissued.congr {L M M' : Ledger} (h : Unissued L M) (hassets : M'.assets = M.assets) :
    Unissued L M' := h.trans (.of_assets hassets)

theorem Issues.before {L L1 L' : Ledger} {id : AssetId} {x : Int} (h : Unissued L L1)
    (h' : Issues id x L1 L') : Issues id x L L' :=
  fun j => (h' j).trans (add_le_add_left (h j) _)

theorem Issues.after {L L1 L' : Ledger} {id : AssetId} {x : Int} (h : Issues id x L L1)
    (h' : Unissued L1 L') : Issues id x L L' := fun j => (h' j).trans (h j)

namespace Ledger

variable {L L' : Ledger} {id : Nat}

/-! ### Money -/

theorem adjustBalance_unissued {delta : Asset} (h : L.adjustBalance id delta = .ok L') :
    Unissued L L' := .of_assets (adjustBalance_assets h)

theorem noteInOrders_unissued {a : Asset} (h : L.noteInOrders id a = .ok L') : Unissued L L' :=
  .of_assets (noteInOrders_assets h)

theorem payFee_unissued {fee : Int} (h : L.payFee id fee = .ok L') : Unissued L L' := by
  simp only [payFee, modifyStatistics, bind_eq_ok, pure_eq_ok] at h
  obtain ⟨a, -, rfl⟩ := h
  exact .of_assets rfl

theorem modifyDynamicData_issues {f : AssetDynamicData → AssetDynamicData} {x : Int}
    (hf : ∀ d, (f d).currentSupply ≤ d.currentSupply + x) (h : L.modifyDynamicData id f = .ok L') :
    Issues id x L L' := by
  simp only [modifyDynamicData, modifyAsset, asset, bind_eq_ok, demand_eq_ok, pure_eq_ok] at h
  obtain ⟨a, ha, rfl⟩ := h
  intro j
  by_cases hj : j = id
  · subst hj
    rw [supply_set_self ha, supply_of_find ha, if_pos rfl]
    exact hf _
  · rw [supply_set_ne _ hj, if_neg hj, add_zero]

theorem modifyDynamicData_unissued {f : AssetDynamicData → AssetDynamicData}
    (h : L.modifyDynamicData id f = .ok L') (hf : ∀ d, (f d).currentSupply ≤ d.currentSupply) :
    Unissued L L' := by
  intro j
  have hle := modifyDynamicData_issues (x := 0) (fun d => (hf d).trans (le_of_eq (add_zero _).symm))
    h j
  rwa [ite_self, add_zero] at hle

theorem modifyBitasset_unissued {f : BitassetData → BitassetData}
    (h : L.modifyBitasset id f = .ok L') : Unissued L L' := fun _ =>
  le_of_eq (modifyBitasset_supply h)

theorem payMarketFees_unissued {receives : Asset} {r : Asset × Ledger}
    (h : L.payMarketFees receives = .ok r) : Unissued L r.2 := by
  simp only [payMarketFees, bind_eq_ok] at h
  obtain ⟨a, -, h⟩ := h
  split at h
  · simp only [bind_eq_ok, pure_eq_ok] at h
    obtain ⟨M, hM, rfl⟩ := h
    exact modifyDynamicData_unissued hM fun _ => le_refl _
  · obtain rfl := pure_eq_ok.mp h
    exact Unissued.refl L

theorem payOrder_unissued {receives pays : Asset} (h : L.payOrder id receives pays = .ok L') :
    Unissued L L' := by
  simp only [payOrder, bind_eq_ok] at h
  obtain ⟨M, hM, h⟩ := h
  exact (noteInOrders_unissued hM).trans (adjustBalance_unissued h)

theorem payDeferredFees_unissued {o : LimitOrder} (h : L.payDeferredFees o = .ok L') :
    Unissued L L' := by
  simp only [payDeferredFees, bind_eq_ok] at h
  obtain ⟨M, hM, h⟩ := h
  have hcore : Unissued L M := by
    split at hM
    · exact payFee_unissued hM
    · obtain rfl := pure_eq_ok.mp hM
      exact Unissued.refl M
  refine hcore.trans ?_
  split at h
  · exact modifyDynamicData_unissued h fun _ => le_refl _
  · obtain rfl := pure_eq_ok.mp h
    exact Unissued.refl L'

/-! ### Cancelling -/

theorem cancelBid_unissued (h : L.cancelBid id = .ok L') : Unissued L L' := by
  simp only [cancelBid, bind_eq_ok, pure_eq_ok] at h
  obtain ⟨b, -, M, hM, rfl⟩ := h
  exact (adjustBalance_unissued hM).congr rfl

theorem cancelSettleOrder_unissued (h : L.cancelSettleOrder id = .ok L') : Unissued L L' := by
  simp only [cancelSettleOrder, bind_eq_ok, pure_eq_ok] at h
  obtain ⟨s, -, M, hM, rfl⟩ := h
  exact (adjustBalance_unissued hM).congr rfl

theorem payCancelFee_unissued {o : LimitOrder} {r : LimitOrder × Ledger}
    (h : L.payCancelFee o = .ok r) : Unissued L r.2 := by
  simp only [payCancelFee] at h
  split at h
  · simp only [bind_eq_ok] at h
    obtain ⟨M, hM, h⟩ := h
    have hcore := payFee_unissued hM
    split at h
    · obtain rfl := pure_eq_ok.mp h
      exact hcore
    · simp only [bind_eq_ok, pure_eq_ok] at h
      obtain ⟨N, hN, rfl⟩ := h
      exact hcore.trans (modifyDynamicData_unissued hN fun _ => le_refl _)
  · obtain rfl := pure_eq_ok.mp h
    exact Unissued.refl L

theorem refundFee_unissued {o : LimitOrder} {paid : Bool} (h : L.refundFee o paid = .ok L') :
    Unissued L L' := by
  unfold refundFee at h
  split at h
  · simp only [bind_eq_ok] at h
    obtain ⟨M, hM, h⟩ := h
    exact (adjustBalance_unissued hM).trans (modifyDynamicData_unissued h fun _ => le_refl _)
  · exact adjustBalance_unissued h

theorem cancelLimitOrder_unissued {virtualOp skipFee : Bool}
    (h : L.cancelLimitOrder id virtualOp skipFee = .ok L') : Unissued L L' := by
  simp only [cancelLimitOrder, bind_eq_ok, pure_eq_ok] at h
  obtain ⟨o, -, left, hleft, M1, h1, M2, h2, M3, h3, rfl⟩ := h
  have hfee : Unissued L left.2 := by
    split at hleft
    · exact payCancelFee_unissued hleft
    · obtain rfl := pure_eq_ok.mp hleft
      exact Unissued.refl L
  have hpaid := (noteInOrders_unissued h1).trans
    ((adjustBalance_unissued h2).trans (refundFee_unissued h3))
  exact (hfee.trans hpaid).congr rfl

theorem maybeCullSmallOrder_unissued {r : Bool × Ledger}
    (h : L.maybeCullSmallOrder id = .ok r) : Unissued L r.2 := by
  simp only [maybeCullSmallOrder, bind_eq_ok] at h
  obtain ⟨o, -, receives, -, h⟩ := h
  split at h
  · simp only [bind_eq_ok, pure_eq_ok] at h
    obtain ⟨M, hM, rfl⟩ := h
    exact cancelLimitOrder_unissued hM
  · obtain rfl := pure_eq_ok.mp h
    exact Unissued.refl L

/-! ### Filling -/

theorem fillLimitOrder_unissued {pays receives : Asset} {cull : Bool} {r : Bool × Ledger}
    (h : L.fillLimitOrder id pays receives cull = .ok r) : Unissued L r.2 := by
  simp only [fillLimitOrder, bind_eq_ok] at h
  obtain ⟨o, -, -, -, -, -, paid, hpaid, net, -, M1, h1, M, h2, h⟩ := h
  have hM : Unissued L M := (payMarketFees_unissued hpaid).trans
    ((payOrder_unissued h1).trans (payDeferredFees_unissued h2))
  split at h
  · obtain rfl := pure_eq_ok.mp h
    exact hM
  · split at h
    · have hculled := maybeCullSmallOrder_unissued h
      exact hM.trans hculled
    · obtain rfl := pure_eq_ok.mp h
      exact hM

theorem fillCallOrder_issues {pays receives : Asset} {r : Bool × Ledger}
    (h : L.fillCallOrder id pays receives = .ok r) :
    Issues receives.assetId (-receives.amount) L r.2 := by
  simp only [fillCallOrder, bind_eq_ok] at h
  obtain ⟨c, -, -, -, -, -, -, -, b, -, M1, h1, M2, h2, h⟩ := h
  have hM := (modifyDynamicData_issues (fun _ => le_of_eq (sub_eq_add_neg _ _)) h1).after
    (noteInOrders_unissued h2)
  split at h
  · simp only [bind_eq_ok, pure_eq_ok] at h
    obtain ⟨M3, h3, M4, h4, rfl⟩ := h
    have hfreed := (adjustBalance_unissued h3).trans (noteInOrders_unissued h4)
    exact hM.after (hfreed.congr rfl)
  · simp only [bind_eq_ok, pure_eq_ok] at h
    obtain ⟨p, -, rfl⟩ := h
    exact hM

theorem fillCallOrder_unissued {pays receives : Asset} {r : Bool × Ledger}
    (hreceives : 0 ≤ receives.amount) (h : L.fillCallOrder id pays receives = .ok r) :
    Unissued L r.2 := by
  intro j
  have hle := fillCallOrder_issues h j
  split at hle <;> omega

theorem fillSettleOrder_unissued {pays receives : Asset} {r : Bool × Ledger}
    (h : L.fillSettleOrder id pays receives = .ok r) : Unissued L r.2 := by
  simp only [fillSettleOrder, bind_eq_ok] at h
  obtain ⟨s, -, paid, hpaid, isPartial, -, net, -, M, hM, h⟩ := h
  have hpays := (payMarketFees_unissued hpaid).trans (adjustBalance_unissued hM)
  split at h <;> obtain rfl := pure_eq_ok.mp h <;> exact hpays

theorem executeBid_unissued {debt collateral : Int} {feed : PriceFeed}
    (h : L.executeBid id debt collateral feed = .ok L') : Unissued L L' := by
  simp only [executeBid, createCallOrder, bind_eq_ok, pure_eq_ok] at h
  obtain ⟨d, -, p, -, M, ⟨-, -, rfl⟩, N, hN, rfl⟩ := h
  exact (noteInOrders_unissued hN).congr rfl

/-! ### Matching -/

theorem matchLimitOrders_unissued {usd core : Nat} {price : Price} {r : Filled × Ledger}
    (h : L.matchLimitOrders usd core price = .ok r) : Unissued L r.2 := by
  have hfills {usdReceives coreReceives : Asset} {cull : Bool}
      (h : L.fillLimitOrders usd core usdReceives coreReceives cull = .ok r) : Unissued L r.2 := by
    simp only [fillLimitOrders, bind_eq_ok, pure_eq_ok] at h
    obtain ⟨taker, htaker, maker, hmaker, -, -, rfl⟩ := h
    exact (fillLimitOrder_unissued htaker).trans (fillLimitOrder_unissued hmaker)
  simp only [matchLimitOrders, bind_eq_ok] at h
  obtain ⟨u, -, c, -, -, -, -, -, -, -, worth, -, less, -, h⟩ := h
  split at h
  · simp only [bind_eq_ok] at h
    obtain ⟨receives, -, h⟩ := h
    exact hfills h
  · simp only [bind_eq_ok] at h
    obtain ⟨receives, -, h⟩ := h
    split at h
    · obtain rfl := pure_eq_ok.mp h
      exact Unissued.refl L
    · simp only [bind_eq_ok] at h
      obtain ⟨pays, -, h⟩ := h
      exact hfills h

theorem matchLimitAndCall_unissued {rounds bid ask : Nat} {price : Price} {feed : PriceFeed}
    {r : Filled × Ledger} (h : matchLimitAndCall rounds L bid ask price feed = .ok r) :
    Unissued L r.2 := by
  have hfills {orderReceives callReceives : Asset} {cull : Bool}
      (hnonneg : 0 ≤ callReceives.amount)
      (h : L.fillLimitAndCall bid ask orderReceives callReceives cull = .ok r) :
      Unissued L r.2 := by
    simp only [fillLimitAndCall, bind_eq_ok, pure_eq_ok] at h
    obtain ⟨taker, htaker, maker, hmaker, rfl⟩ := h
    exact (fillLimitOrder_unissued htaker).trans (fillCallOrder_unissued hnonneg hmaker)
  simp only [matchLimitAndCall, bind_eq_ok, require_eq_ok, exists_const] at h
  obtain ⟨o, -, c, -, -, -, ⟨-, hdebt, -⟩, toBuy, hbuy, h⟩ := h
  split at h
  · simp only [bind_eq_ok] at h
    obtain ⟨receives, -, h⟩ := h
    split at h
    · obtain rfl := pure_eq_ok.mp h
      exact Unissued.refl L
    · simp only [bind_eq_ok] at h
      obtain ⟨callReceives, hround, h⟩ := h
      exact hfills (Asset.multiplyAndRoundUp_nonneg hround) h
  · simp only [bind_eq_ok] at h
    obtain ⟨receives, -, h⟩ := h
    exact hfills (CallOrder.getMaxDebtToCover_covers (le_of_lt hdebt) hbuy).1 h

theorem marginCall_unissued {rounds call limit : Nat} {feed : PriceFeed} {r : Bool × Ledger}
    (hdebt : ∀ c, L.callOrders.find call = some c → 0 ≤ c.debt)
    (h : marginCall rounds L call limit feed = .ok r) : Unissued L r.2 := by
  have hfills {callReceives orderReceives : Asset} (hnonneg : 0 ≤ callReceives.amount)
      (h : L.fillMarginCall call limit callReceives orderReceives = .ok r) : Unissued L r.2 := by
    simp only [fillMarginCall, bind_eq_ok] at h
    obtain ⟨closed, hclosed, h⟩ := h
    exact (fillCallOrder_unissued hnonneg hclosed).trans (fillLimitOrder_unissued h)
  simp only [marginCall, bind_eq_ok, demand_eq_ok] at h
  obtain ⟨c, hc, o, -, toBuy, hbuy, less, -, h⟩ := h
  split at h
  · simp only [bind_eq_ok] at h
    obtain ⟨orderReceives, -, callReceives, hround, h⟩ := h
    exact hfills (Asset.multiplyAndRoundUp_nonneg hround) h
  · simp only [bind_eq_ok] at h
    obtain ⟨orderReceives, -, h⟩ := h
    exact hfills (CallOrder.getMaxDebtToCover_covers (hdebt c hc) hbuy).1 h

theorem matchCallAndSettle_unissued {call settle : Nat} {price : Price} {most : Asset}
    {r : Asset × Ledger} (hmost : 0 ≤ most.amount)
    (h : L.matchCallAndSettle call settle price most = .ok r) : Unissued L r.2 := by
  have hfills {callPays callReceives : Asset} {cull : Bool} (hnonneg : 0 ≤ callReceives.amount)
      (h : L.fillCallAndSettle call settle callPays callReceives cull = .ok r) :
      Unissued L r.2 := by
    simp only [fillCallAndSettle, bind_eq_ok, pure_eq_ok] at h
    obtain ⟨maker, hmaker, taker, htaker, M, hM, rfl⟩ := h
    have hfilled := (fillCallOrder_unissued hnonneg hmaker).trans (fillSettleOrder_unissued htaker)
    split at hM
    · exact hfilled.trans (cancelSettleOrder_unissued hM)
    · obtain rfl := pure_eq_ok.mp hM
      exact hfilled
  simp only [matchCallAndSettle, bind_eq_ok, require_eq_ok, exists_const] at h
  obtain ⟨c, -, s, -, -, ⟨hdebt, -, hbalance⟩, forSale, hsale, callReceives, hreceives, callPays, -,
    h⟩ := h
  have hnonneg : 0 ≤ callReceives.amount := by
    obtain ⟨-, -, -, -, hsaleCases⟩ := Asset.least_spec hsale
    obtain ⟨-, -, -, -, hcases⟩ := Asset.least_spec hreceives
    have hsalePos : 0 ≤ forSale.amount := by
      rcases hsaleCases with rfl | rfl
      · exact le_of_lt hbalance
      · exact hmost
    rcases hcases with rfl | rfl
    · exact hsalePos
    · exact le_of_lt hdebt
  split at h
  · split at h
    · exact hfills hnonneg h
    · split at h
      · simp only [bind_eq_ok, pure_eq_ok] at h
        obtain ⟨M, hM, rfl⟩ := h
        exact cancelSettleOrder_unissued hM
      · obtain rfl := pure_eq_ok.mp h
        exact Unissued.refl L
  · split at h
    · simp only [bind_eq_ok] at h
      obtain ⟨pays, -, h⟩ := h
      exact hfills hnonneg h
    · simp only [bind_eq_ok] at h
      obtain ⟨rounded, hround, h⟩ := h
      exact hfills (Asset.multiplyAndRoundUp_nonneg hround) h

/-! ### A new limit order -/

theorem applyOrder_unissued {rounds : Nat} {r : Bool × Ledger}
    (h : applyOrder rounds L id = .ok r) : Unissued L r.2 :=
  applyOrder_invariant (P := Unissued L)
    (fun _ _ _ _ hM hm => hM.trans (matchLimitOrders_unissued hm))
    (fun _ _ _ _ _ hM hm => hM.trans (matchLimitAndCall_unissued hm))
    (fun _ _ hM hc => hM.trans (maybeCullSmallOrder_unissued hc)) (Unissued.refl L) h

/-! ### Global settlement and margin calls -/

theorem closeCallOrder_others {mia : AssetId} {price : Price} {rows : List (Nat × CallOrder)}
    {call : Nat × CallOrder} {s s' : Ledger × Asset}
    (hs : (∀ j ≠ mia, s.1.supply j ≤ L.supply j) ∧
      ∀ r ∈ call :: rows, ∀ c, s.1.callOrders.find r.1 = some c → c.debtType = mia)
    (h : closeCallOrder price s call = .ok s') :
    (∀ j ≠ mia, s'.1.supply j ≤ L.supply j) ∧
      ∀ r ∈ rows, ∀ c, s'.1.callOrders.find r.1 = some c → c.debtType = mia := by
  simp only [closeCallOrder, bind_eq_ok, demand_eq_ok, pure_eq_ok] at h
  obtain ⟨c, hc, pays, -, paid, -, gathered, -, r, hr, -, -, rfl⟩ := h
  have hdebt := hs.2 call (List.mem_cons_self ..) c hc
  refine ⟨fun j hj => ?_, fun x hx d hd => ?_⟩
  · have hle := fillCallOrder_issues hr j
    have hne : j ≠ c.getDebt.assetId := fun he => hj (he.trans hdebt)
    rw [if_neg hne, add_zero] at hle
    exact hle.trans (hs.1 j hj)
  · obtain ⟨c', b, hc', -, hfilled⟩ := fillCallOrder_callOrders hr
    obtain rfl : c' = c := Option.some.inj (hc'.symm.trans hc)
    generalize r.2.callOrders = calls at hfilled hd
    cases hfilled with
    | closed _ => exact hs.2 x (List.mem_cons_of_mem _ hx) d (Table.find_remove_iff.mp hd).2
    | left _ hleft =>
      rcases (Table.find_set_iff hc).mp hd with ⟨-, rfl⟩ | ⟨-, hd⟩
      · exact hleft.debtType.trans hdebt
      · exact hs.2 x (List.mem_cons_of_mem _ hx) d hd

theorem globallySettleAsset_unissued {mia : AssetId} {price : Price}
    (h : L.globallySettleAsset mia price = .ok L') : Unissued L L' := by
  simp only [globallySettleAsset, asset, bind_eq_ok, demand_eq_ok] at h
  obtain ⟨a, ha, b, -, -, -, low, hlow, high, hhigh, closed, hclosed, p, -, M, hM, h⟩ := h
  have hothers := foldlM_induction
    (P := fun (rows : List (Nat × CallOrder)) (s : Ledger × Asset) =>
      (∀ j ≠ mia, s.1.supply j ≤ L.supply j) ∧
        ∀ r ∈ rows, ∀ c, s.1.callOrders.find r.1 = some c → c.debtType = mia)
    (fun call rows s s' hs hstep => closeCallOrder_others hs hstep) _ _ _
    ⟨fun _ _ => le_refl _, fun r hr c hc => by
      obtain ⟨hfind, hge, hle⟩ := mem_callOrdersBetween.mp hr
      obtain rfl : r.2 = c := Option.some.inj (hfind.symm.trans hc)
      exact (Price.assets_of_between hlow hhigh hge hle).2⟩ hclosed
  intro j
  simp only [modifyDynamicData, modifyAsset, asset, bind_eq_ok, demand_eq_ok, pure_eq_ok] at h
  obtain ⟨a', ha', rfl⟩ := h
  by_cases hj : j = mia
  · subst hj
    rw [supply_set_self ha', supply_of_find ha]
  · rw [supply_set_ne _ hj, modifyBitasset_supply hM]
    exact hothers.1 j hj

theorem checkCallOrders_unissued {rounds : Nat} {mia : AssetId} {enable : Bool} {r : Bool × Ledger}
    (h : checkCallOrders rounds L mia enable = .ok r) : Unissued L r.2 :=
  checkCallOrders_invariant (P := Unissued L)
    (fun _ _ _ hM hsettled => hM.trans (globallySettleAsset_unissued hsettled))
    (fun _ _ _ _ _ hM hdebt hcalled => hM.trans (marginCall_unissued hdebt hcalled))
    (Unissued.refl L) h

/-! ### Bids and revival -/

theorem cancelBidsAndReviveMpa_unissued {mia bad : AssetId}
    (h : L.cancelBidsAndReviveMpa mia bad = .ok L') : Unissued L L' := by
  simp only [cancelBidsAndReviveMpa, bind_eq_ok] at h
  obtain ⟨_, -, b, -, -, -, -, -, high, -, M, hM, h⟩ := h
  have hcancelled := foldlM_invariant (P := fun M => Unissued L M)
    (fun M r M' hM hstep => hM.trans (cancelBid_unissued hstep)) _ _ _ (Unissued.refl L) hM
  exact hcancelled.trans (modifyBitasset_unissued h)

theorem reviveBitasset_unissued {mia : AssetId} (h : L.reviveBitasset mia = .ok L') :
    Unissued L L' := by
  simp only [reviveBitasset, bind_eq_ok] at h
  obtain ⟨a, -, b, -, -, -, -, -, -, -, h⟩ := h
  split at h
  · simp only [createBid, bind_eq_ok, pure_eq_ok] at h
    obtain ⟨p, -, M, ⟨-, -, rfl⟩, N, hN, h⟩ := h
    have hexecuted := (executeBid_unissued hN).trans (cancelBidsAndReviveMpa_unissued h)
    exact hexecuted
  · simp only [bind_eq_ok] at h
    obtain ⟨-, -, h⟩ := h
    exact cancelBidsAndReviveMpa_unissued h

theorem processBids_unissued {mia : AssetId} (h : L.processBids mia = .ok L') : Unissued L L' := by
  simp only [processBids, bind_eq_ok] at h
  obtain ⟨b, -, h⟩ := h
  split at h
  · exact pure_eq_ok.mp h ▸ Unissued.refl L
  · split at h
    · exact pure_eq_ok.mp h ▸ Unissued.refl L
    · simp only [bind_eq_ok] at h
      obtain ⟨zero, -, a, -, high, -, covering, -, h⟩ := h
      split at h
      · exact pure_eq_ok.mp h ▸ Unissued.refl L
      · simp only [bind_eq_ok] at h
        obtain ⟨done, hdone, -, -, -, -, h⟩ := h
        have hexecuted := foldlM_invariant (P := fun s : Reviving => Unissued L s.ledger)
          (fun s bid s' hs hstep => by
            simp only [executeCoveringBid, bind_eq_ok, pure_eq_ok] at hstep
            obtain ⟨share, -, M, hM, rfl⟩ := hstep
            exact hs.trans (executeBid_unissued hM)) _ _ _ (Unissued.refl L) hdone
        exact hexecuted.trans (cancelBidsAndReviveMpa_unissued h)

theorem processBitassets_unissued (h : L.processBitassets = .ok L') : Unissued L L' := by
  refine foldlM_invariant (P := fun M => Unissued L M) (fun M r M' hM hstep => ?_) _ _ _
    (Unissued.refl L) h
  simp only [processBitasset, bind_eq_ok] at hstep
  obtain ⟨N, hN, b, -, hstep⟩ := hstep
  refine hM.trans ((modifyBitasset_unissued hN).trans ?_)
  split at hstep
  · exact processBids_unissued hstep
  · exact pure_eq_ok.mp hstep ▸ Unissued.refl N

/-! ### Expired orders and feeds -/

theorem settleRound_unissued {mia : AssetId} {price : Price} {most : Int} {s : Settling}
    {r : Settling ⊕ Settling} (h : settleRound mia id price most s = .ok r) :
    Unissued s.ledger (r.elim Settling.ledger Settling.ledger) := by
  simp only [settleRound] at h
  split at h
  · exact pure_eq_ok.mp h ▸ Unissued.refl s.ledger
  · split at h
    · exact pure_eq_ok.mp h ▸ Unissued.refl s.ledger
    · rename_i hmost
      simp only [bind_eq_ok] at h
      obtain ⟨b, -, low, -, call, -, h⟩ := h
      split at h
      · simp only [bind_eq_ok, pure_eq_ok] at h
        obtain ⟨M, hM, rfl⟩ := h
        exact cancelSettleOrder_unissued hM
      · simp only [bind_eq_ok] at h
        obtain ⟨m, hm, h⟩ := h
        have hmatch := matchCallAndSettle_unissued (sub_nonneg.mpr (le_of_not_ge hmost)) hm
        split at h <;> exact pure_eq_ok.mp h ▸ hmatch

theorem settleOrder_unissued {rounds : Nat} {s : Clearing} {b : BitassetData}
    {r : Clearing ⊕ Ledger} (h : settleOrder rounds s id b = .ok r) :
    Unissued s.ledger (r.elim Clearing.ledger fun M => M) := by
  simp only [settleOrder, bind_eq_ok, pure_eq_ok] at h
  obtain ⟨fillPrice, -, done, hdone, M, hM, rfl⟩ := h
  have hrounds : Unissued s.ledger done.ledger :=
    loop_invariant (P := fun t : Settling => Unissued s.ledger t.ledger)
      (Q := fun t : Settling => Unissued s.ledger t.ledger)
      (fun t t' ht hround => ht.trans (settleRound_unissued hround))
      (fun t t' ht hround => ht.trans (settleRound_unissued hround)) rounds
      ⟨s.ledger, b.forceSettledVolume, s.currentAssetFinished⟩ _ (Unissued.refl _) hdone
  refine hrounds.trans ?_
  split at hM
  · exact modifyBitasset_unissued hM
  · exact pure_eq_ok.mp hM ▸ Unissued.refl _

theorem clearRound_unissued {rounds : Nat} {s : Clearing} {r : Clearing ⊕ Ledger}
    (h : clearRound rounds s = .ok r) :
    Unissued s.ledger (r.elim Clearing.ledger fun M => M) := by
  simp only [clearRound] at h
  split at h
  · exact pure_eq_ok.mp h ▸ Unissued.refl s.ledger
  · simp only [bind_eq_ok] at h
    obtain ⟨a, -, b, -, h⟩ := h
    split at h
    · simp only [bind_eq_ok, pure_eq_ok] at h
      obtain ⟨M, hM, rfl⟩ := h
      exact cancelSettleOrder_unissued hM
    · split at h
      · rw [pure_eq_ok.mp h, nextAsset_ledger]
        exact Unissued.refl s.ledger
      · split at h
        · simp only [bind_eq_ok, pure_eq_ok] at h
          obtain ⟨M, hM, rfl⟩ := h
          exact cancelSettleOrder_unissued hM
        · generalize (ite (s.maxSettlementVolume.assetId ≠ _) _ _ : Asset) = volume at h
          split at h
          · rw [pure_eq_ok.mp h, nextAsset_ledger]
            exact Unissued.refl s.ledger
          · have hsettled := settleOrder_unissued h
            exact hsettled

theorem clearExpiredOrders_unissued {rounds : Nat} (h : L.clearExpiredOrders rounds = .ok L') :
    Unissued L L' := by
  simp only [clearExpiredOrders, bind_eq_ok] at h
  obtain ⟨M, hM, h⟩ := h
  have hexpired : Unissued L M := foldlM_invariant (P := fun M => Unissued L M)
    (fun M r M' hM hstep => hM.trans (cancelLimitOrder_unissued hstep)) _ _ _ (Unissued.refl L) hM
  split at h
  · exact pure_eq_ok.mp h ▸ hexpired
  · exact loop_invariant (P := fun s => Unissued L s.ledger) (Q := fun M => Unissued L M)
      (fun s s' hs hround => hs.trans (clearRound_unissued hround))
      (fun s r hs hround => hs.trans (clearRound_unissued hround)) rounds _ _ hexpired h

theorem updateExpiredFeed_unissued {rounds : Nat} {mia : AssetId}
    (h : L.updateExpiredFeed rounds mia = .ok L') : Unissued L L' := by
  simp only [updateExpiredFeed, bind_eq_ok] at h
  obtain ⟨old, -, M, hM, b, -, h⟩ := h
  refine (modifyBitasset_unissued hM).trans ?_
  split at h
  · simp only [bind_eq_ok, pure_eq_ok] at h
    obtain ⟨r, hr, rfl⟩ := h
    exact checkCallOrders_unissued hr
  · exact pure_eq_ok.mp h ▸ Unissued.refl M

theorem updateFeedProducers_unissued {rounds : Nat} {mia : AssetId} {producers : List AccountId}
    (h : L.updateFeedProducers rounds mia producers = .ok L') : Unissued L L' := by
  simp only [updateFeedProducers, bind_eq_ok, pure_eq_ok] at h
  obtain ⟨M, hM, r, hr, rfl⟩ := h
  exact (modifyBitasset_unissued hM).trans (checkCallOrders_unissued hr)

end Ledger

/-! ### Operations -/

namespace Ledger

variable {L L' : Ledger}

theorem convertFee_unissued {fee : Asset} {core : Int} (h : L.convertFee fee core = .ok L') :
    Unissued L L' := by
  unfold convertFee at h
  split at h
  · exact modifyDynamicData_unissued h fun _ => le_refl _
  · exact pure_eq_ok.mp h ▸ Unissued.refl L

theorem applyWithFee_issues {account : AccountId} {fee : Asset} {core x : Int} {id : AssetId}
    {doApply : Ledger → Attempt Ledger} (hdo : ∀ M M', doApply M = .ok M' → Issues id x M M')
    (h : L.applyWithFee account fee core doApply = .ok L') : Issues id x L L' := by
  simp only [applyWithFee, bind_eq_ok] at h
  obtain ⟨M1, h1, M2, h2, M3, h3, h4⟩ := h
  have hcharged := (convertFee_unissued h1).trans (payFee_unissued h2)
  exact (Issues.before hcharged (hdo M2 M3 h3)).after (adjustBalance_unissued h4)

theorem applyWithFee_unissued {account : AccountId} {fee : Asset} {core : Int}
    {doApply : Ledger → Attempt Ledger} (hdo : ∀ M M', doApply M = .ok M' → Unissued M M')
    (h : L.applyWithFee account fee core doApply = .ok L') : Unissued L L' := by
  simp only [applyWithFee, bind_eq_ok] at h
  obtain ⟨M1, h1, M2, h2, M3, h3, h4⟩ := h
  have hcharged := (convertFee_unissued h1).trans (payFee_unissued h2)
  exact (hcharged.trans (hdo M2 M3 h3)).trans (adjustBalance_unissued h4)

end Ledger

open Ledger

variable {L L' : Ledger}

theorem LimitOrderCreate.apply_unissued {op : LimitOrderCreate} {rounds : Nat} {skip : Bool}
    (h : op.apply rounds skip L = .ok L') : Unissued L L' := by
  simp only [LimitOrderCreate.apply, LimitOrderCreate.doApply, bind_eq_ok, pure_eq_ok] at h
  obtain ⟨-, -, core, -, -, -, M1, h1, M5, ⟨M2, h2, M3, h3, p, -, r, hr, -, -, rfl⟩, h4⟩ := h
  have hconverted : Unissued L M1 := by
    unfold LimitOrderCreate.convertFee at h1
    split at h1
    · exact convertFee_unissued h1
    · split at h1
      · exact modifyDynamicData_unissued h1 fun _ => le_refl _
      · exact pure_eq_ok.mp h1 ▸ Unissued.refl L
  have hplaced := hconverted.trans ((noteInOrders_unissued h2).trans (adjustBalance_unissued h3))
  have happlied := (applyOrder_unissued hr).trans (adjustBalance_unissued h4)
  exact hplaced.trans happlied

theorem LimitOrderCancel.apply_unissued {op : LimitOrderCancel} {skip : Bool}
    (h : op.apply skip L = .ok L') : Unissued L L' := by
  simp only [LimitOrderCancel.apply, bind_eq_ok] at h
  obtain ⟨-, -, core, -, o, -, -, -, h⟩ := h
  exact applyWithFee_unissued (fun _ _ hdo => cancelLimitOrder_unissued hdo) h

theorem CallOrderUpdate.apply_issues {op : CallOrderUpdate} {rounds : Nat} {skip : Bool}
    (h : op.apply rounds skip L = .ok L') :
    Issues op.deltaDebt.assetId op.deltaDebt.amount L L' := by
  simp only [CallOrderUpdate.apply, bind_eq_ok] at h
  obtain ⟨-, -, core, -, -, -, h⟩ := h
  refine applyWithFee_issues (fun M M' hdo => ?_) h
  simp only [CallOrderUpdate.doApply, CallOrderUpdate.moveFunds, bind_eq_ok] at hdo
  obtain ⟨b, -, N, ⟨N1, h1, N2, h2, a, -, -, -, N3, h3, h4⟩, u, hu, hdo⟩ := hdo
  have hmoved : Issues op.deltaDebt.assetId op.deltaDebt.amount M N :=
    (Issues.before (adjustBalance_unissued h1)
      (modifyDynamicData_issues (fun _ => le_refl _) h2)).after
      ((adjustBalance_unissued h3).trans (noteInOrders_unissued h4))
  have hupdated : u.2.2.2.assets = N.assets := by
    simp only [CallOrderUpdate.updateOrder, bind_eq_ok] at hu
    obtain ⟨b', -, hu⟩ := hu
    split at hu <;> simp only [bind_eq_ok, pure_eq_ok] at hu
    · obtain ⟨-, -, -, -, p, -, rfl⟩ := hu
      rfl
    · obtain ⟨-, -, p, -, rfl⟩ := hu
      rfl
  have hchanged := hmoved.after (Unissued.of_assets hupdated)
  split at hdo
  · simp only [bind_eq_ok, pure_eq_ok] at hdo
    obtain ⟨-, -, rfl⟩ := hdo
    exact hchanged
  · simp only [bind_eq_ok] at hdo
    obtain ⟨-, -, hdo⟩ := hdo
    split at hdo
    · exact pure_eq_ok.mp hdo ▸ hchanged
    · simp only [CallOrderUpdate.checkUpdated, bind_eq_ok] at hdo
      obtain ⟨b', -, r, hr, hdo⟩ := hdo
      have hcalled := hchanged.after (checkCallOrders_unissued hr)
      split at hdo
      · simp only [bind_eq_ok, pure_eq_ok] at hdo
        obtain ⟨-, -, rfl⟩ := hdo
        exact hcalled
      · simp only [bind_eq_ok, pure_eq_ok] at hdo
        obtain ⟨c, -, improved, -, -, -, rfl⟩ := hdo
        exact hcalled

theorem BidCollateral.apply_unissued {op : BidCollateral} {skip : Bool}
    (h : op.apply skip L = .ok L') : Unissued L L' := by
  simp only [BidCollateral.apply, bind_eq_ok] at h
  obtain ⟨-, -, core, -, -, -, h⟩ := h
  refine applyWithFee_unissued (fun M M' hdo => ?_) h
  simp only [BidCollateral.doApply, bind_eq_ok] at hdo
  obtain ⟨N, hN, hdo⟩ := hdo
  have hcancel : Unissued M N := by
    split at hN
    · exact pure_eq_ok.mp hN ▸ Unissued.refl M
    · exact cancelBid_unissued hN
  refine hcancel.trans ?_
  split at hdo
  · exact pure_eq_ok.mp hdo ▸ Unissued.refl N
  · simp only [bind_eq_ok, createBid, pure_eq_ok] at hdo
    obtain ⟨N', hN', price, -, -, -, rfl⟩ := hdo
    exact (adjustBalance_unissued hN').congr rfl

theorem AssetSettle.apply_unissued {op : AssetSettle} {skip : Bool}
    (h : op.apply skip L = .ok L') : Unissued L L' := by
  simp only [AssetSettle.apply, bind_eq_ok, require_eq_ok, exists_const] at h
  obtain ⟨hvalid, core, -, -, -, h⟩ := h
  refine applyWithFee_unissued (fun M M' hdo => ?_) h
  simp only [AssetSettle.doApply, bind_eq_ok] at hdo
  obtain ⟨a, -, b, -, hdo⟩ := hdo
  split at hdo
  · simp only [AssetSettle.settleFromFund, bind_eq_ok] at hdo
    obtain ⟨share, -, -, -, -, -, pays, hpays, N1, h1, N2, h2, hdo⟩ := hdo
    generalize (if op.amount.amount = a.dynamicData.currentSupply then b.settlementFund
      else share.amount) = settled at hpays h2
    have hnonneg : 0 ≤ pays.amount := by
      split at hpays
      · exact Asset.multiplyAndRoundUp_nonneg hpays
      · exact pure_eq_ok.mp hpays ▸ hvalid.2
    have hpaid : Unissued N1 N2 := by
      split at h2
      · simp only [bind_eq_ok] at h2
        obtain ⟨N3, h3, h2⟩ := h2
        exact (modifyBitasset_unissued h3).trans (adjustBalance_unissued h2)
      · exact pure_eq_ok.mp h2 ▸ Unissued.refl N1
    exact ((adjustBalance_unissued h1).trans hpaid).trans
      (modifyDynamicData_unissued hdo fun _ => sub_le_self _ hnonneg)
  · simp only [bind_eq_ok, pure_eq_ok] at hdo
    obtain ⟨N, hN, rfl⟩ := hdo
    exact (adjustBalance_unissued hN).congr rfl

theorem AssetGlobalSettle.apply_unissued {op : AssetGlobalSettle} {skip : Bool}
    (h : op.apply skip L = .ok L') : Unissued L L' := by
  simp only [AssetGlobalSettle.apply, bind_eq_ok] at h
  obtain ⟨-, -, core, -, -, -, h⟩ := h
  exact applyWithFee_unissued (fun _ _ hdo => globallySettleAsset_unissued hdo) h

theorem AssetPublishFeed.apply_unissued {op : AssetPublishFeed} {rounds : Nat} {skip : Bool}
    (h : op.apply rounds skip L = .ok L') : Unissued L L' := by
  simp only [AssetPublishFeed.apply, bind_eq_ok] at h
  obtain ⟨-, -, core, -, -, -, h⟩ := h
  refine applyWithFee_unissued (fun M M' hdo => ?_) h
  simp only [AssetPublishFeed.doApply, bind_eq_ok] at hdo
  obtain ⟨old, -, N, hN, b, -, hdo⟩ := hdo
  have hfed := modifyBitasset_unissued hN
  split at hdo
  · exact pure_eq_ok.mp hdo ▸ hfed
  · simp only [bind_eq_ok, pure_eq_ok] at hdo
    obtain ⟨a, -, N1, h1, r, hr, rfl⟩ := hdo
    have hrevived : Unissued N N1 := by
      split at h1
      · simp only [bind_eq_ok] at h1
        obtain ⟨revives, -, h1⟩ := h1
        split at h1
        · exact reviveBitasset_unissued h1
        · exact pure_eq_ok.mp h1 ▸ Unissued.refl N
      · exact pure_eq_ok.mp h1 ▸ Unissued.refl N
    exact (hfed.trans hrevived).trans (checkCallOrders_unissued hr)

/-! ### Runs -/

/-- A supply that has grown is at most the maximum. -/
def Capped (L L' : Ledger) : Prop :=
  ∀ id a, L'.assets.find id = some a → L.supply id < L'.supply id →
    L'.supply id ≤ a.options.maxSupply

theorem Unissued.capped (h : Unissued L L') : Capped L L' :=
  fun id _ _ hgrown => absurd (h id) (not_le.mpr hgrown)

theorem Issues.capped {loose : Nat → Prop} {id : AssetId} {x : Int} (h : Issues id x L L')
    (hchanges : Changes loose L L')
    (hfits : 0 < x → ∀ a, L.assets.find id = some a →
      a.dynamicData.currentSupply + x ≤ a.options.maxSupply) : Capped L L' := by
  intro j a' ha' hgrown
  have hle := h j
  by_cases hj : j = id
  · subst hj
    rw [if_pos rfl] at hle
    have hterms := hchanges.terms j
    rw [ha', Option.map_some, eq_comm, Option.map_eq_some_iff] at hterms
    obtain ⟨a, ha, hsame⟩ := hterms
    have hoptions : a.options = a'.options := congrArg (fun t => t.2.1) hsame
    have hmax := hfits (by omega) a ha
    rw [supply_of_find ha] at hle
    exact hoptions ▸ hle.trans hmax
  · rw [if_neg hj] at hle
    omega

/-- What the code does not check: the debt that is borrowed fits into the maximum supply. -/
def Operation.Fits (L : Ledger) : Operation → Prop
  | .callOrderUpdate op => 0 < op.deltaDebt.amount → ∀ a,
      L.assets.find op.deltaDebt.assetId = some a →
      a.dynamicData.currentSupply + op.deltaDebt.amount ≤ a.options.maxSupply
  | _ => True

theorem Operation.apply_capped {op : Operation} {rounds : Nat} {skip : Bool} (hfits : op.Fits L)
    (h : op.apply rounds skip L = .ok L') : Capped L L' := by
  cases op with
  | limitOrderCreate op => exact (op.apply_unissued h).capped
  | limitOrderCancel op => exact (op.apply_unissued h).capped
  | callOrderUpdate op =>
    exact (op.apply_issues h).capped (op.apply_changes h : Changes noOrder L L') hfits
  | bidCollateral op => exact (op.apply_unissued h).capped
  | assetSettle op => exact (op.apply_unissued h).capped
  | assetGlobalSettle op => exact (op.apply_unissued h).capped
  | assetPublishFeed op => exact (op.apply_unissued h).capped

theorem Payment.apply_capped {op : Payment} {required : Int} {skip : Bool}
    (h : op.apply required skip L = .ok L') : Capped L L' := by
  have hchanges : Changes noOrder L L' := op.apply_changes h
  cases op with
  | transfer op =>
    simp only [Payment.apply, Transfer.apply, bind_eq_ok] at h
    obtain ⟨-, -, core, -, -, -, h⟩ := h
    refine Unissued.capped (applyWithFee_unissued (fun M M' hdo => ?_) h)
    simp only [Transfer.doApply, bind_eq_ok] at hdo
    obtain ⟨N, hN, hdo⟩ := hdo
    exact (adjustBalance_unissued hN).trans (adjustBalance_unissued hdo)
  | assetIssue op =>
    simp only [Payment.apply, AssetIssue.apply, AssetIssue.doEvaluate, asset, bind_eq_ok,
      demand_eq_ok, require_eq_ok, exists_const] at h
    obtain ⟨-, core, -, ⟨a, ha, -, -, receiver, -, -, hmax⟩, h⟩ := h
    have hissued : Issues op.assetToIssue.assetId op.assetToIssue.amount L L' := by
      refine applyWithFee_issues (fun M M' hdo => ?_) h
      simp only [AssetIssue.doApply, bind_eq_ok] at hdo
      obtain ⟨N, hN, hdo⟩ := hdo
      exact Issues.before (adjustBalance_unissued hN)
        (modifyDynamicData_issues (fun _ => le_refl _) hdo)
    exact hissued.capped hchanges fun _ a' ha' => Option.some.inj (ha'.symm.trans ha) ▸ hmax
  | assetReserve op =>
    simp only [Payment.apply, AssetReserve.apply, bind_eq_ok, require_eq_ok, exists_const] at h
    obtain ⟨hvalid, core, -, -, -, h⟩ := h
    refine Unissued.capped (applyWithFee_unissued (fun M M' hdo => ?_) h)
    simp only [AssetReserve.doApply, bind_eq_ok] at hdo
    obtain ⟨N, hN, hdo⟩ := hdo
    exact (adjustBalance_unissued hN).trans
      (modifyDynamicData_unissued hdo fun _ => sub_le_self _ (le_of_lt hvalid.2.2))
  | assetFundFeePool op =>
    simp only [Payment.apply, AssetFundFeePool.apply, bind_eq_ok] at h
    obtain ⟨-, -, core, -, -, -, h⟩ := h
    refine Unissued.capped (applyWithFee_unissued (fun M M' hdo => ?_) h)
    simp only [AssetFundFeePool.doApply, bind_eq_ok] at hdo
    obtain ⟨N, hN, hdo⟩ := hdo
    exact (adjustBalance_unissued hN).trans (modifyDynamicData_unissued hdo fun _ => le_refl _)
  | assetClaimFees op =>
    simp only [Payment.apply, AssetClaimFees.apply, bind_eq_ok] at h
    obtain ⟨-, -, core, -, a, -, -, -, h⟩ := h
    refine Unissued.capped (applyWithFee_unissued (fun M M' hdo => ?_) h)
    simp only [AssetClaimFees.doApply, bind_eq_ok] at hdo
    obtain ⟨a, -, -, -, N, hN, hdo⟩ := hdo
    exact (modifyDynamicData_unissued hN fun _ => le_refl _).trans (adjustBalance_unissued hdo)

theorem Tick.capped (h : Tick L L') : Capped L L' := by
  cases h with
  | payment required skip op h => exact op.apply_capped h
  | clearExpiredOrders rounds h => exact (clearExpiredOrders_unissued h).capped
  | updateExpiredFeed rounds mia h => exact (updateExpiredFeed_unissued h).capped
  | updateFeedProducers rounds mia producers h => exact (updateFeedProducers_unissued h).capped
  | processBitassets h => exact (processBitassets_unissued h).capped
  | @assetUpdate id a issuer options ha hissuer =>
    refine Unissued.capped fun j => ?_
    by_cases hj : j = id
    · subst hj
      rw [supply_set_self ha, supply_of_find ha]
    · rw [supply_set_ne _ hj]
  | assetUpdateBitasset options hb hbacking h => exact (modifyBitasset_unissued h).capped
  | advance time h => exact (Unissued.of_assets rfl).capped
  | schedule parameters => exact (Unissued.of_assets rfl).capped

/-- `asset_options::validate` of every asset, as far as it is about the maximum supply. -/
def Ledger.MaxSuppliesValid (L : Ledger) : Prop :=
  ∀ id a, L.assets.find id = some a → a.options.maxSupply ≤ maxShareSupply

/-- A step that leaves valid options.  In a run that is `checked` the loans fit. -/
inductive LoanStep (checked : Bool) : Ledger → Ledger → Prop
  | operation {L L' : Ledger} (rounds : Nat) (skipFeeScheduleCheck : Bool) (op : Operation)
      (hfits : checked = true → op.Fits L) (hvalid : L'.MaxSuppliesValid)
      (h : op.apply rounds skipFeeScheduleCheck L = .ok L') : LoanStep checked L L'
  | tick {L L' : Ledger} (hvalid : L'.MaxSuppliesValid) (h : Tick L L') : LoanStep checked L L'

def LoanRun (checked : Bool) : Ledger → Ledger → Prop := Relation.ReflTransGen (LoanStep checked)

variable {L₀ : Ledger} {checked : Bool}

theorem LoanStep.step (h : LoanStep checked L L') : Step L L' := by
  cases h with
  | operation rounds skip op _ _ h => exact .operation rounds skip op h
  | tick _ h => exact step_iff.mpr (Or.inr h)

theorem LoanStep.valid (h : LoanStep checked L L') : L'.MaxSuppliesValid := by
  cases h with
  | operation rounds skip op _ hvalid _ => exact hvalid
  | tick hvalid _ => exact hvalid

theorem LoanStep.capped (h : LoanStep true L L') : Capped L L' := by
  cases h with
  | operation rounds skip op hfits _ h => exact op.apply_capped (hfits rfl) h
  | tick _ h => exact h.capped

theorem LoanRun.run (h : LoanRun checked L₀ L) : Run L₀ L := by
  induction h with
  | refl => exact Relation.ReflTransGen.refl
  | tail _ hstep ih => exact ih.tail hstep.step

theorem LoanRun.supply_le (hsupply : ∀ id, L₀.supply id ≤ maxShareSupply)
    (h : LoanRun true L₀ L) (id : AssetId) : L.supply id ≤ maxShareSupply := by
  induction h with
  | refl => exact hsupply id
  | @tail M N _ hstep ih =>
    by_cases hgrown : M.supply id < N.supply id
    · cases ha : N.assets.find id with
      | none =>
        have hzero : N.supply id = 0 := by
          rw [Ledger.supply, ha]
          rfl
        rw [hzero]
        decide
      | some a => exact (hstep.capped id a ha hgrown).trans (hstep.valid id a ha)
    · exact (not_lt.mp hgrown).trans ih

/-- In every ledger of a run in which the loans fit, the supplies are share amounts and no step
takes one beyond the maximum; and in every state of a run of the maintenance in which the pay fits,
the supply of the core asset is at most its maximum. -/
theorem supplies_bounded {S₀ : Maintenance.State} (h₀ : Opening L₀)
    (hsupply : ∀ id, L₀.supply id ≤ maxShareSupply) (hS₀ : S₀.Sound)
    (hmax : S₀.core.maxSupply ≤ maxShareSupply) :
    (∀ L, LoanRun true L₀ L → (∀ id, 0 ≤ L.supply id ∧ L.supply id ≤ maxShareSupply) ∧
      ∀ L', LoanStep true L L' → Capped L L') ∧
    ∀ S, Maintenance.Run true S₀ S → 0 ≤ S.core.currentSupply ∧
      S.core.currentSupply ≤ S.core.maxSupply ∧ S.core.currentSupply ≤ maxShareSupply := by
  refine ⟨fun L hrun => ⟨fun id => ⟨?_, hrun.supply_le hsupply id⟩, fun L' hstep => hstep.capped⟩,
    fun S hrun => ?_⟩
  · exact Balanced.supply_nonneg (hrun.run.balanced h₀.balanced) id
  · have hsound := hrun.sound hS₀
    have hsame : S.core.maxSupply = S₀.core.maxSupply := hrun.maxSupply
    exact ⟨hsound.supply_nonneg, hsound.below, hsound.below.trans (hsame.trans_le hmax)⟩

/-! ### Loans -/

/-- An account borrows so much against twice as much collateral. -/
def borrow (amount : Int) : Operation :=
  .callOrderUpdate ⟨⟨0, 0⟩, 0, ⟨2 * amount, 0⟩, ⟨amount, 1⟩, none⟩

/-- Accounts that hold the core asset, and an asset whose maximum supply is a thousand. -/
def loanLedger : Ledger :=
  freshLedger 1600000000 [3000, 1000] [.fedWith (parFeed 1 1 1750 PriceFeed.default.maintenance_range)]

theorem loanLedger_supply (id : AssetId) : loanLedger.supply id ≤ maxShareSupply := by
  rw [loanLedger, freshLedger_supply (by decide)]
  split <;> decide

theorem loanLedger_opening : Opening loanLedger := freshLedger_opening (by decide) (by decide)

/-- What a loan leaves: valid options, and room for another loan. -/
def Ledger.hasRoom (L : Ledger) (amount : Int) : Bool :=
  L.assets.rows.all fun r => r.2.options.maxSupply ≤ maxShareSupply ∧
    (r.1 = 1 → r.2.dynamicData.currentSupply + amount ≤ r.2.options.maxSupply)

theorem Ledger.hasRoom_spec {amount : Int} (h : L.hasRoom amount = true) :
    L.MaxSuppliesValid ∧ (borrow amount).Fits L := by
  have hrows : ∀ r ∈ L.assets.rows, r.2.options.maxSupply ≤ maxShareSupply ∧
      (r.1 = 1 → r.2.dynamicData.currentSupply + amount ≤ r.2.options.maxSupply) :=
    fun r hr => of_decide_eq_true (List.all_eq_true.mp h r hr)
  exact ⟨fun id a ha => (hrows (id, a) (Table.find_iff_mem.mp ha)).1,
    fun _ a ha => (hrows (1, a) (Table.find_iff_mem.mp ha)).2 rfl⟩

/-- Two loans up to the maximum supply. -/
theorem supplies_bounded_loan : ∃ L L', (borrow 100).apply 5 false loanLedger = .ok L ∧
    (borrow 900).apply 5 false L = .ok L' ∧ L'.supply 1 = 1000 ∧ Capped L L' ∧
    ∀ id, 0 ≤ L'.supply id ∧ L'.supply id ≤ maxShareSupply := by
  have hrun : loanLedger.hasRoom 100 = true ∧
      ((borrow 100).apply 5 false loanLedger).toOption.any (fun (L : Ledger) => L.hasRoom 900 ∧
        ((borrow 900).apply 5 false L).toOption.any fun (L' : Ledger) =>
          L'.hasRoom 0 ∧ L'.supply 1 = 1000) = true := by decide +kernel
  obtain ⟨hfirst, hstate⟩ := hrun
  obtain ⟨L, hL, hstate⟩ := exists_ok_of_any hstate
  obtain ⟨hsecond, hstate⟩ := of_decide_eq_true hstate
  obtain ⟨L', hL', hstate⟩ := exists_ok_of_any hstate
  obtain ⟨hlast, hsupply⟩ := of_decide_eq_true hstate
  have hstep : LoanStep true loanLedger L := .operation 5 false (borrow 100)
    (fun _ => (hasRoom_spec hfirst).2) (hasRoom_spec hsecond).1 hL
  have hstep' : LoanStep true L L' := .operation 5 false (borrow 900)
    (fun _ => (hasRoom_spec hsecond).2) (hasRoom_spec hlast).1 hL'
  have hruns := (supplies_bounded loanLedger_opening loanLedger_supply
    (Maintenance.hourlyState_sound 10) (by decide)).1
  exact ⟨L, L', hL, hL', hsupply, (hruns L (Relation.ReflTransGen.single hstep)).2 L' hstep',
    (hruns L' ((Relation.ReflTransGen.single hstep).tail hstep')).1⟩

/-- A loan of more than the maximum supply. -/
theorem loan_beyond_max_supply : ∃ L₀ L, Opening L₀ ∧ (∀ id, L₀.supply id ≤ maxShareSupply) ∧
    LoanStep false L₀ L ∧ ¬Capped L₀ L := by
  have hrun : ((borrow 1001).apply 5 false loanLedger).toOption.any (fun (L : Ledger) =>
      L.assets.rows.all (fun r => r.2.options.maxSupply ≤ maxShareSupply) ∧
        (L.assets.find 1).any fun a => loanLedger.supply 1 < a.dynamicData.currentSupply ∧
          a.options.maxSupply < a.dynamicData.currentSupply) = true := by decide +kernel
  obtain ⟨L, hL, hstate⟩ := exists_ok_of_any hrun
  obtain ⟨hvalid, hstate⟩ := of_decide_eq_true hstate
  obtain ⟨a, ha, hstate⟩ := (Option.any_eq_true _ _).mp hstate
  obtain ⟨hgrown, hbeyond⟩ := of_decide_eq_true hstate
  refine ⟨loanLedger, L, loanLedger_opening, loanLedger_supply,
    .operation 5 false (borrow 1001) (fun h => nomatch h) (fun id a ha => ?_) hL, fun hcapped => ?_⟩
  · exact of_decide_eq_true (List.all_eq_true.mp hvalid (id, a) (Table.find_iff_mem.mp ha))
  · rw [← supply_of_find ha] at hgrown hbeyond
    exact absurd (hcapped 1 a ha hgrown) (not_le.mpr hbeyond)

end Nestchain.Market
