import Nestchain.Market.Books

/-! What filling and cancelling an order adds to the books: a fill takes what the order pays and
gives what it receives, and a cancellation adds nothing. -/

namespace Nestchain.Market

open Lib

def LimitOrder.feesWorth (o : LimitOrder) : Books :=
  credit ⟨o.deferredFee, coreAsset⟩ + credit o.deferredPaidFee

namespace Ledger

variable {L L' : Ledger} {id : Nat}

/-! ### The payments of a fill -/

theorem calculateMarketFee_nonneg {i : AssetId} (o : AssetOptions) {a : Asset}
    (ha : 0 ≤ a.amount) : 0 ≤ (calculateMarketFee i o a).amount := by
  unfold calculateMarketFee
  split
  · exact le_refl _
  · split
    · exact le_refl _
    · refine le_min (Int.ediv_nonneg (mul_nonneg ha (Int.natCast_nonneg _)) ?_) o.fee_nonneg
      exact Int.natCast_nonneg _

theorem calculateMarketFee_assetId (i : AssetId) (o : AssetOptions) (a : Asset) :
    (calculateMarketFee i o a).assetId = i := by
  unfold calculateMarketFee
  split
  · rfl
  · split <;> rfl

theorem payMarketFees_pays {receives : Asset} {r : Asset × Ledger} (hr : 0 ≤ receives.amount)
    (h : L.payMarketFees receives = .ok r) : Pays L r.2 (credit r.1) := by
  simp only [payMarketFees, asset, bind_eq_ok, demand_eq_ok] at h
  obtain ⟨a, ha, h⟩ := h
  have hfee := calculateMarketFee_nonneg (i := receives.assetId) a.options hr
  have hid := calculateMarketFee_assetId receives.assetId a.options receives
  generalize calculateMarketFee receives.assetId a.options receives = fee at h hfee hid
  split at h
  · simp only [bind_eq_ok, pure_eq_ok] at h
    obtain ⟨M, hM, rfl⟩ := h
    exact (addAccumulatedFees_pays hfee hM).congr (by rw [← hid])
  · rename_i hzero
    obtain rfl := pure_eq_ok.mp h
    exact (Pays.refl L).congr (credit_of_amount (le_antisymm (not_lt.mp hzero) hfee)).symm

theorem payOrder_pays {receiver : AccountId} {receives pays : Asset}
    (h : L.payOrder receiver receives pays = .ok L') :
    Pays L L' (inOrders receiver pays + credit receives) := by
  simp only [payOrder, bind_eq_ok] at h
  obtain ⟨M, hM, h⟩ := h
  refine ((noteInOrders_pays hM).trans (adjustBalance_pays h)).congr ?_
  rw [inOrders_neg, neg_neg]

theorem payDeferredFees_pays {o : LimitOrder} (hfee : 0 ≤ o.deferredFee)
    (hpaid : 0 ≤ o.deferredPaidFee.amount) (h : L.payDeferredFees o = .ok L') :
    Pays L L' o.feesWorth := by
  simp only [payDeferredFees, bind_eq_ok] at h
  obtain ⟨M, hM, h⟩ := h
  have hcore : Pays L M (credit ⟨o.deferredFee, coreAsset⟩) := by
    split at hM
    · exact payFee_pays hfee hM
    · rename_i hzero
      obtain rfl := pure_eq_ok.mp hM
      exact (Pays.refl M).congr (credit_of_amount (le_antisymm (not_lt.mp hzero) hfee)).symm
  have hasset : Pays M L' (credit o.deferredPaidFee) := by
    split at h
    · exact addAccumulatedFees_pays hpaid h
    · rename_i hzero
      obtain rfl := pure_eq_ok.mp h
      exact (Pays.refl L').congr (credit_of_amount (le_antisymm (not_lt.mp hzero) hpaid)).symm
  exact hcore.trans hasset

/-! ### Cancelling -/

theorem cancelBid_spec (h : L.cancelBid id = .ok L') :
    ∃ b M, L.bids.find id = some b ∧ Pays L M b.worth ∧
      L' = { M with bids := M.bids.remove id } := by
  simp only [cancelBid, bind_eq_ok, demand_eq_ok, pure_eq_ok] at h
  obtain ⟨b, hb, M, hM, rfl⟩ := h
  exact ⟨b, M, hb, adjustBalance_pays hM, rfl⟩

theorem cancelSettleOrder_spec (h : L.cancelSettleOrder id = .ok L') :
    ∃ s M, L.settlements.find id = some s ∧ Pays L M s.worth ∧
      L' = { M with settlements := M.settlements.remove id } := by
  simp only [cancelSettleOrder, bind_eq_ok, demand_eq_ok, pure_eq_ok] at h
  obtain ⟨s, hs, M, hM, rfl⟩ := h
  exact ⟨s, M, hs, adjustBalance_pays hM, rfl⟩

theorem payCancelFee_pays {o : LimitOrder} {r : LimitOrder × Ledger} (hfee : 0 ≤ o.deferredFee)
    (hpaid : 0 ≤ o.deferredPaidFee.amount) (h : L.payCancelFee o = .ok r) :
    Pays L r.2 (o.feesWorth - r.1.feesWorth) ∧ r.1.seller = o.seller ∧ 0 ≤ r.1.deferredFee ∧
      (o.deferredPaidFee.amount = 0 → r.1.deferredPaidFee.amount = 0) := by
  simp only [payCancelFee] at h
  split at h
  · rename_i hpos
    have hleft : 0 ≤ o.deferredFee - min L.parameters.limitOrderCancelFee o.deferredFee :=
      sub_nonneg.mpr (min_le_right _ _)
    simp only [bind_eq_ok] at h
    obtain ⟨M, hM, h⟩ := h
    have hcore := payFee_pays (le_of_lt hpos.2) hM
    split at h
    · obtain rfl := pure_eq_ok.mp h
      refine ⟨hcore.congr ?_, rfl, hleft, fun h => h⟩
      simp only [LimitOrder.feesWorth, credit_sub]
      abel
    · rename_i hne
      simp only [bind_eq_ok, pure_eq_ok] at h
      obtain ⟨N, hN, rfl⟩ := h
      have hround : 0 ≤ (o.deferredPaidFee.amount *
          min L.parameters.limitOrderCancelFee o.deferredFee + o.deferredFee - 1) /
            o.deferredFee := by
        have := mul_nonneg hpaid (le_of_lt hpos.2)
        exact Int.ediv_nonneg (by omega) hfee
      refine ⟨(hcore.trans (addAccumulatedFees_pays hround hN)).congr ?_, rfl, hleft,
        fun h => absurd h hne⟩
      simp only [LimitOrder.feesWorth, credit_sub]
      abel
  · obtain rfl := pure_eq_ok.mp h
    exact ⟨(Pays.refl L).congr (sub_self _).symm, rfl, hfee, fun h => h⟩

theorem refundFee_pays {o : LimitOrder} {paid : Bool} (hfee : 0 ≤ o.deferredFee)
    (hpaid : paid = false → o.deferredPaidFee.amount = 0) (h : L.refundFee o paid = .ok L') :
    Pays L L' o.feesWorth := by
  unfold refundFee at h
  cases paid with
  | true =>
    simp only [if_true, bind_eq_ok] at h
    obtain ⟨M, hM, h⟩ := h
    exact ((adjustBalance_pays hM).trans (addFeePool_pays hfee h)).congr (add_comm _ _)
  | false =>
    refine (adjustBalance_pays h).congr ?_
    rw [LimitOrder.feesWorth, credit_of_amount (hpaid rfl), add_zero]

theorem cancelLimitOrder_spec {virtualOp skipFee : Bool}
    (hfees : ∀ o, L.limitOrders.find id = some o →
      0 ≤ o.deferredFee ∧ 0 ≤ o.deferredPaidFee.amount)
    (h : L.cancelLimitOrder id virtualOp skipFee = .ok L') :
    ∃ o M, L.limitOrders.find id = some o ∧ Pays L M o.worth ∧
      L' = { M with limitOrders := M.limitOrders.remove id } := by
  simp only [cancelLimitOrder, bind_eq_ok, demand_eq_ok, pure_eq_ok] at h
  obtain ⟨o, ho, left, hleft, M1, h1, M2, h2, M3, h3, rfl⟩ := h
  have hfee : Pays L left.2 (o.feesWorth - left.1.feesWorth) ∧ left.1.seller = o.seller ∧
      0 ≤ left.1.deferredFee ∧
      (o.deferredPaidFee.amount = 0 → left.1.deferredPaidFee.amount = 0) := by
    split at hleft
    · exact payCancelFee_pays (hfees o ho).1 (hfees o ho).2 hleft
    · obtain rfl := pure_eq_ok.mp hleft
      exact ⟨(Pays.refl L).congr (sub_self _).symm, rfl, (hfees o ho).1, fun h => h⟩
  have hrefund := refundFee_pays hfee.2.2.1 (fun hp => hfee.2.2.2 (by simpa using hp)) h3
  refine ⟨o, M3, ho, ((hfee.1.trans (noteInOrders_pays h1)).trans
    ((adjustBalance_pays h2).trans hrefund)).congr ?_, rfl⟩
  rw [inOrders_neg, LimitOrder.worth, ← LimitOrder.feesWorth]
  abel

end Ledger

end Nestchain.Market
