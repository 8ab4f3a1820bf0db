import Nestchain.Market.Owners

/-! Computations that return.  Payments to an account that is there, the cancellation of an order
and the fill of an order do not throw in a ledger whose objects have their owners. -/

namespace Nestchain.Market

open Lib

namespace Ledger

variable {L L' : Ledger} {id : Nat}

/-! ### Payments -/

theorem adjustBalance_ok (L : Ledger) (account : AccountId) {a : Asset}
    (h : 0 ≤ a.amount) : ∃ L', L.adjustBalance account a = .ok L' := by
  unfold adjustBalance
  split
  · exact ⟨L, rfl⟩
  · rename_i hne
    split
    · rw [require, if_pos (lt_of_le_of_ne h (Ne.symm hne))]
      exact ⟨_, rfl⟩
    · rw [require, if_pos fun hneg => absurd h (not_le.mpr hneg)]
      exact ⟨_, rfl⟩

theorem modifyStatistics_ok {account : AccountId} {f : AccountStatistics → AccountStatistics}
    (h : (L.accounts.find account).isSome) : ∃ L', L.modifyStatistics account f = .ok L' := by
  obtain ⟨x, hx⟩ := Option.isSome_iff_exists.mp h
  unfold modifyStatistics
  rw [hx]
  exact ⟨_, rfl⟩

theorem modifyDynamicData_ok {f : AssetDynamicData → AssetDynamicData}
    (h : (L.assets.find id).isSome) : ∃ L', L.modifyDynamicData id f = .ok L' := by
  obtain ⟨x, hx⟩ := Option.isSome_iff_exists.mp h
  unfold modifyDynamicData modifyAsset asset
  rw [hx]
  exact ⟨_, rfl⟩

theorem noteInOrders_ok {account : AccountId} {a : Asset}
    (h : (L.accounts.find account).isSome) : ∃ L', L.noteInOrders account a = .ok L' := by
  unfold noteInOrders
  split
  · exact modifyStatistics_ok h
  · exact ⟨L, rfl⟩

theorem payOrder_ok {account : AccountId} {receives : Asset} (pays : Asset)
    (h : (L.accounts.find account).isSome) (hreceives : 0 ≤ receives.amount) :
    ∃ L', L.payOrder account receives pays = .ok L' := by
  obtain ⟨M, hM⟩ := noteInOrders_ok (a := pays.neg) h
  obtain ⟨N, hN⟩ := adjustBalance_ok M account hreceives
  refine ⟨N, ?_⟩
  simp only [payOrder, bind_eq_ok]
  exact ⟨M, hM, hN⟩

/-! ### Fees -/

theorem calculateMarketFee_le {i : AssetId} (o : AssetOptions) {a : Asset} (ha : 0 ≤ a.amount) :
    (calculateMarketFee i o a).amount ≤ a.amount := by
  unfold calculateMarketFee
  split
  · exact ha
  · split
    · exact ha
    · refine (min_le_left _ _).trans ?_
      have hpercent : (o.marketFeePercent : Int) ≤ fullPercent := by exact_mod_cast o.percent_le
      calc a.amount * o.marketFeePercent / fullPercent
          ≤ a.amount * fullPercent / fullPercent :=
            Int.ediv_le_ediv (by decide) (mul_le_mul_of_nonneg_left hpercent ha)
        _ = a.amount := Int.mul_ediv_cancel _ (by decide)

theorem payMarketFees_ok {receives : Asset} (hreceives : 0 ≤ receives.amount)
    (h : (L.assets.find receives.assetId).isSome) :
    ∃ r, L.payMarketFees receives = .ok r ∧ r.1.assetId = receives.assetId ∧
      r.1.amount ≤ receives.amount := by
  obtain ⟨a, ha⟩ := Option.isSome_iff_exists.mp h
  have hid := calculateMarketFee_assetId receives.assetId a.options receives
  have hle := calculateMarketFee_le (i := receives.assetId) a.options hreceives
  simp only [payMarketFees, asset, ha, bind_eq_ok, demand_eq_ok, Option.some.injEq,
    exists_eq_left']
  generalize calculateMarketFee receives.assetId a.options receives = fee at hid hle ⊢
  split
  · obtain ⟨M, hM⟩ := modifyDynamicData_ok
      (f := fun d => { d with accumulatedFees := d.accumulatedFees + fee.amount }) h
    refine ⟨(fee, M), ?_, hid, hle⟩
    simp only [bind_eq_ok, pure_eq_ok]
    exact ⟨M, hM, rfl⟩
  · exact ⟨(fee, L), rfl, hid, hle⟩

theorem payDeferredFees_ok {o : LimitOrder} (ho : o.Owned L.accounts L.assets) :
    ∃ L', L.payDeferredFees o = .ok L' := by
  have hcore : ∃ M, (if 0 < o.deferredFee then L.payFee o.seller o.deferredFee
      else pure L : Attempt Ledger) = .ok M := by
    split
    · exact modifyStatistics_ok ho.seller
    · exact ⟨L, rfl⟩
  obtain ⟨M, hM⟩ := hcore
  have hfunds : Funds L M := by
    split at hM
    · exact modifyStatistics_funds hM
    · exact pure_eq_ok.mp hM ▸ Funds.refl _
  have hasset : ∃ N, (if 0 < o.deferredPaidFee.amount then
      M.modifyDynamicData o.deferredPaidFee.assetId fun d =>
        { d with accumulatedFees := d.accumulatedFees + o.deferredPaidFee.amount }
      else pure M : Attempt Ledger) = .ok N := by
    split
    · rename_i hpos
      exact modifyDynamicData_ok (hfunds.asset (ho.paid (ne_of_gt hpos)))
    · exact ⟨M, rfl⟩
  obtain ⟨N, hN⟩ := hasset
  refine ⟨N, ?_⟩
  simp only [payDeferredFees, bind_eq_ok]
  exact ⟨M, hM, hN⟩

theorem payCancelFee_ok {o : LimitOrder} (ho : o.Owned L.accounts L.assets)
    (hfee : 0 ≤ o.deferredFee) (hpaid : 0 ≤ o.deferredPaidFee.amount) :
    ∃ r, L.payCancelFee o = .ok r ∧ Funds L r.2 ∧ r.1.seller = o.seller ∧ 0 ≤ r.1.deferredFee ∧
      0 ≤ r.1.deferredPaidFee.amount ∧ r.1.deferredPaidFee.assetId = o.deferredPaidFee.assetId := by
  simp only [payCancelFee]
  have hle : min L.parameters.limitOrderCancelFee o.deferredFee ≤ o.deferredFee := min_le_right _ _
  generalize min L.parameters.limitOrderCancelFee o.deferredFee = core at hle ⊢
  split
  · rename_i hpos
    obtain ⟨M, hM⟩ := modifyStatistics_ok
      (f := fun s => s.payFee core L.parameters.cashbackVestingThreshold) ho.seller
    have hpay : L.payFee o.seller core = .ok M := hM
    have hfunds := modifyStatistics_funds hM
    by_cases hzero : o.deferredPaidFee.amount = 0
    · refine ⟨({ o with deferredFee := o.deferredFee - core }, M), ?_, hfunds, rfl,
        sub_nonneg.mpr hle, hpaid, rfl⟩
      simp only [hpay, hzero, bind_eq_ok, if_true]
      exact ⟨M, rfl, rfl⟩
    · have hround : (o.deferredPaidFee.amount * core + o.deferredFee - 1) / o.deferredFee ≤
          o.deferredPaidFee.amount := by
        rw [roundUp_le_iff hpos.1]
        exact mul_le_mul_of_nonneg_left hle hpaid
      generalize (o.deferredPaidFee.amount * core + o.deferredFee - 1) / o.deferredFee = cancelFee
        at hround ⊢
      obtain ⟨N, hN⟩ := modifyDynamicData_ok
        (f := fun d => { d with accumulatedFees := d.accumulatedFees + cancelFee })
        (hfunds.asset (ho.paid hzero))
      refine ⟨({ o with
        deferredFee := o.deferredFee - core
        deferredPaidFee := ⟨o.deferredPaidFee.amount - cancelFee, o.deferredPaidFee.assetId⟩ }, N),
        ?_, hfunds.trans (modifyDynamicData_funds hN), rfl, sub_nonneg.mpr hle,
        sub_nonneg.mpr hround, rfl⟩
      simp only [hpay, hzero, bind_eq_ok, if_false]
      exact ⟨M, rfl, N, hN, rfl⟩
  · exact ⟨(o, L), rfl, Funds.refl L, rfl, hfee, hpaid, rfl⟩

theorem refundFee_ok {o : LimitOrder} (paid : Bool) (hfee : 0 ≤ o.deferredFee)
    (hpaid : 0 ≤ o.deferredPaidFee.amount)
    (hasset : paid = true → (L.assets.find o.deferredPaidFee.assetId).isSome) :
    ∃ L', L.refundFee o paid = .ok L' := by
  unfold refundFee
  cases paid with
  | false => exact adjustBalance_ok L o.seller hfee
  | true =>
    obtain ⟨M, hM⟩ := adjustBalance_ok L o.seller hpaid
    obtain ⟨N, hN⟩ := modifyDynamicData_ok
      (f := fun d => { d with feePool := d.feePool + o.deferredFee })
      ((adjustBalance_funds hM).asset (hasset rfl))
    refine ⟨N, ?_⟩
    simp only [if_true, bind_eq_ok]
    exact ⟨M, hM, hN⟩

/-! ### Orders -/

theorem cancelLimitOrder_ok {o : LimitOrder} (virtualOp skipFee : Bool)
    (ho : L.limitOrders.find id = some o) (howned : o.Owned L.accounts L.assets)
    (hsound : o.Sound) : ∃ L', L.cancelLimitOrder id virtualOp skipFee = .ok L' := by
  have hleft : ∃ r, (if virtualOp && !skipFee then L.payCancelFee o else pure (o, L) :
      Attempt (LimitOrder × Ledger)) = .ok r ∧ Funds L r.2 ∧ r.1.seller = o.seller ∧
        0 ≤ r.1.deferredFee ∧ 0 ≤ r.1.deferredPaidFee.amount ∧
          r.1.deferredPaidFee.assetId = o.deferredPaidFee.assetId := by
    split
    · exact payCancelFee_ok howned hsound.deferredFee_nonneg hsound.deferredPaidFee_nonneg
    · exact ⟨(o, L), rfl, Funds.refl L, rfl, hsound.deferredFee_nonneg,
        hsound.deferredPaidFee_nonneg, rfl⟩
  obtain ⟨r, hr, hfunds, hseller, hfee, hpaid, hasset⟩ := hleft
  obtain ⟨M1, h1⟩ := noteInOrders_ok (a := o.amountForSale.neg)
    (hfunds.accounts _ howned.seller)
  obtain ⟨M2, h2⟩ := adjustBalance_ok M1 o.seller (a := o.amountForSale)
    (le_of_lt hsound.forSale_pos)
  have hfunds2 := hfunds.trans ((noteInOrders_funds h1).trans (adjustBalance_funds h2))
  obtain ⟨M3, h3⟩ := refundFee_ok (L := M2) (o := r.1)
    (decide (o.deferredPaidFee.amount ≠ 0)) hfee hpaid fun hp => by
      rw [hasset]
      exact hfunds2.asset (howned.paid (of_decide_eq_true hp))
  refine ⟨{ M3 with limitOrders := M3.limitOrders.remove id }, ?_⟩
  simp only [cancelLimitOrder, bind_eq_ok, demand_eq_ok, pure_eq_ok]
  exact ⟨o, ho, r, hr, M1, h1, M2, h2, M3, h3, rfl⟩

theorem maybeCullSmallOrder_ok {o : LimitOrder} {receives : Asset}
    (ho : L.limitOrders.find id = some o) (howned : o.Owned L.accounts L.assets)
    (hsound : o.Sound) (hreceives : o.amountToReceive = .ok receives) :
    ∃ r, L.maybeCullSmallOrder id = .ok r ∧ (receives.amount = 0 → r.1 = true) := by
  by_cases hzero : receives.amount = 0
  · obtain ⟨M, hM⟩ := cancelLimitOrder_ok true
      (decide (0 < o.deferredFee ∧ L.headBlockTime ≤ hardforkCore604Time)) ho howned hsound
    refine ⟨(true, M), ?_, fun _ => rfl⟩
    simp only [maybeCullSmallOrder, bind_eq_ok, demand_eq_ok]
    refine ⟨o, ho, receives, hreceives, ?_⟩
    rw [if_pos hzero]
    simp only [bind_eq_ok, pure_eq_ok]
    exact ⟨M, hM, rfl⟩
  · refine ⟨(false, L), ?_, fun h => absurd h hzero⟩
    simp only [maybeCullSmallOrder, bind_eq_ok, demand_eq_ok]
    refine ⟨o, ho, receives, hreceives, ?_⟩
    rw [if_neg hzero]
    rfl

/-- A fill of at most what is for sale returns when what is left can be converted; the order is gone
when it is filled or what is left is culled. -/
theorem fillLimitOrder_ok {o : LimitOrder} (pays receives : Asset) (cull : Bool)
    (ho : L.limitOrders.find id = some o) (howned : o.Owned L.accounts L.assets)
    (hsell : o.sellAssetId = pays.assetId) (hne : pays.assetId ≠ receives.assetId)
    (hreceive : (L.assets.find receives.assetId).isSome) (hreceives : 0 ≤ receives.amount)
    (hle : pays.amount ≤ o.forSale)
    (hleft : cull = true → pays.amount ≠ o.forSale →
      ∃ x, (o.afterFill pays).amountToReceive = .ok x) :
    ∃ r, L.fillLimitOrder id pays receives cull = .ok r ∧
      (pays.amount = o.forSale → r.1 = true) ∧
      (cull = true → pays.amount ≠ o.forSale →
        ∀ x, (o.afterFill pays).amountToReceive = .ok x → x.amount = 0 → r.1 = true) := by
  obtain ⟨paid, hpaid, hpaidId, hpaidLe⟩ := payMarketFees_ok hreceives hreceive
  have hf1 := payMarketFees_funds hpaid
  have hnet : 0 ≤ (Asset.mk (receives.amount - paid.1.amount) receives.assetId).amount :=
    sub_nonneg.mpr hpaidLe
  obtain ⟨M1, h1⟩ := payOrder_ok pays (hf1.accounts _ howned.seller) hnet
  have hf2 := hf1.trans (payOrder_funds h1)
  have howned1 : o.Owned M1.accounts M1.assets :=
    howned.mono hf2.accounts fun _ => hf2.asset
  obtain ⟨M, h2⟩ := payDeferredFees_ok howned1
  have hf3 := hf2.trans (payDeferredFees_funds h2)
  have ho' : M.limitOrders.find id = some o := hf3.limitOrders ▸ ho
  have howned3 : o.Owned M.accounts M.assets := howned.mono hf3.accounts fun _ => hf3.asset
  have hfill : ∀ r, (if pays = o.amountForSale then
      pure (true, { M with limitOrders := M.limitOrders.remove id })
      else if cull then maybeCullSmallOrder
        { M with limitOrders := M.limitOrders.set id (o.afterFill pays) } id
      else pure (false, { M with limitOrders := M.limitOrders.set id (o.afterFill pays) }) :
        Attempt (Bool × Ledger)) = .ok r → L.fillLimitOrder id pays receives cull = .ok r := by
    intro r hr
    simp only [fillLimitOrder, bind_eq_ok, demand_eq_ok, require_eq_ok, exists_const,
      Asset.minus_eq_ok]
    exact ⟨o, ho, hsell, hne, paid, hpaid, _, ⟨hpaidId.symm, rfl⟩, M1, h1, M, h2, hr⟩
  by_cases hall : pays = o.amountForSale
  · refine ⟨_, hfill _ (if_pos hall), fun _ => rfl, fun _ hlt => ?_⟩
    exact absurd (by rw [hall]; rfl) hlt
  · have hamount : pays.amount ≠ o.forSale := fun he => hall (Asset.ext he hsell.symm)
    cases cull with
    | false =>
      refine ⟨_, hfill _ (by rw [if_neg hall]; rfl), fun he => absurd he hamount,
        fun hc => by simp at hc⟩
    | true =>
      obtain ⟨x, hx⟩ := hleft rfl hamount
      have howned' : (o.afterFill pays).Owned M.accounts M.assets :=
        ⟨howned3.seller, howned3.sell, howned3.receive, fun hne => absurd rfl hne⟩
      obtain ⟨r, hr, hculled⟩ := maybeCullSmallOrder_ok
        (L := { M with limitOrders := M.limitOrders.set id (o.afterFill pays) })
        (Table.find_set_self ho') howned' (afterFill_sound hsell hle hall) hx
      refine ⟨r, hfill _ (by rw [if_neg hall]; exact hr), fun he => absurd he hamount,
        fun _ _ y hy hzero => hculled ?_⟩
      obtain rfl := Except.ok.inj (hy.symm.trans hx)
      exact hzero

end Ledger

end Nestchain.Market
