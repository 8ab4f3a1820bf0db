import Nestchain.Market.Charges
import Nestchain.Market.OrderBook
import Nestchain.Market.Solvency

/-! The deferred fees of a limit order.  An order holds the core fee of its creation, and the fee
that was paid for it when that was in another asset, until it is filled or cancelled.  A ledger is
read here as purses, each with an amount: the balances, the fees that accounts paid, and the
accumulated fees and the fee pools of the assets.  What the steps of an order add to the purses is
its trade and a split of the deferred fees. -/

namespace Nestchain.Market

open Lib

/-! ### Purses -/

inductive Purse where
  | balance (account : AccountId) (id : AssetId)
  | fees (account : AccountId)
  | accumulated (id : AssetId)
  | pool (id : AssetId)
deriving DecidableEq

abbrev Purses := Purse → Int

/-- The amount `x` in the purse `p`. -/
def inPurse (p : Purse) (x : Int) : Purses := Pi.single p x

@[simp] theorem inPurse_zero (p : Purse) : inPurse p 0 = 0 := Pi.single_zero p

theorem inPurse_apply (p q : Purse) (x : Int) : inPurse p x q = if q = p then x else 0 :=
  Pi.single_apply p x q

namespace Ledger

def purses (L : Ledger) : Purses
  | .balance account id => (L.getBalance account id).amount
  | .fees account => ((L.accounts.find account).map fun a =>
      a.statistics.pendingFees + a.statistics.pendingVestedFees).getD 0
  | .accumulated id => ((L.assets.find id).map fun a => a.dynamicData.accumulatedFees).getD 0
  | .pool id => ((L.assets.find id).map fun a => a.dynamicData.feePool).getD 0

variable {L L' : Ledger}

theorem purses_congr (haccounts : L'.accounts = L.accounts) (hassets : L'.assets = L.assets)
    (hbalances : L'.balances = L.balances) : L'.purses = L.purses := by
  funext p
  cases p with
  | balance account id => exact congrArg Asset.amount (getBalance_congr hbalances account id)
  | fees account => simp only [purses, haccounts]
  | accumulated id => simp only [purses, hassets]
  | pool id => simp only [purses, hassets]

theorem adjustBalance_purses {account : AccountId} {delta : Asset}
    (h : L.adjustBalance account delta = .ok L') :
    L'.purses = L.purses + inPurse (.balance account delta.assetId) delta.amount := by
  have hrest : L'.accounts = L.accounts ∧ L'.assets = L.assets := by
    unfold adjustBalance at h
    split at h
    · obtain rfl := pure_eq_ok.mp h
      exact ⟨rfl, rfl⟩
    · split at h
      · simp only [bind_eq_ok, require_eq_ok, exists_const, pure_eq_ok] at h
        obtain ⟨-, rfl⟩ := h
        exact ⟨rfl, rfl⟩
      · simp only [bind_eq_ok, require_eq_ok, exists_const, pure_eq_ok] at h
        obtain ⟨-, rfl⟩ := h
        exact ⟨rfl, rfl⟩
  funext p
  rw [Pi.add_apply, inPurse_apply]
  cases p with
  | balance owner id =>
    have hbalance := adjustBalance_getBalance h owner id
    simp only [purses, Purse.balance.injEq]
    rw [hbalance, Asset.amountIn]
    by_cases howner : owner = account <;> by_cases hid : id = delta.assetId <;>
      simp [howner, hid, eq_comm]
  | fees owner => simp [purses, hrest.1]
  | accumulated id => simp [purses, hrest.2]
  | pool id => simp [purses, hrest.2]

theorem modifyDynamicData_purses {id : AssetId} {f : AssetDynamicData → AssetDynamicData}
    {x y : Int} (h : L.modifyDynamicData id f = .ok L')
    (hf : ∀ d, (f d).accumulatedFees = d.accumulatedFees + x ∧ (f d).feePool = d.feePool + y) :
    L'.purses = L.purses + inPurse (.accumulated id) x + inPurse (.pool id) y := by
  simp only [modifyDynamicData, modifyAsset, asset, bind_eq_ok, demand_eq_ok, pure_eq_ok] at h
  obtain ⟨a, ha, rfl⟩ := h
  funext p
  rw [Pi.add_apply, Pi.add_apply, inPurse_apply, inPurse_apply]
  cases p with
  | balance owner i => simp [purses, getBalance, findBalance]
  | fees owner => simp [purses]
  | accumulated i =>
    by_cases hi : i = id
    · subst hi
      simp [purses, Table.find_set_self ha, ha, hf]
    · simp [purses, Table.find_set_ne hi, hi]
  | pool i =>
    by_cases hi : i = id
    · subst hi
      simp [purses, Table.find_set_self ha, ha, hf]
    · simp [purses, Table.find_set_ne hi, hi]

theorem modifyStatistics_purses {account : AccountId} {f : AccountStatistics → AccountStatistics}
    {x : Int} (h : L.modifyStatistics account f = .ok L')
    (hf : ∀ s, (f s).pendingFees + (f s).pendingVestedFees =
      s.pendingFees + s.pendingVestedFees + x) :
    L'.purses = L.purses + inPurse (.fees account) x := by
  simp only [modifyStatistics, bind_eq_ok, demand_eq_ok, pure_eq_ok] at h
  obtain ⟨a, ha, rfl⟩ := h
  funext p
  rw [Pi.add_apply, inPurse_apply]
  cases p with
  | balance owner i => simp [purses, getBalance, findBalance]
  | fees owner =>
    by_cases howner : owner = account
    · subst howner
      simp [purses, Table.find_set_self ha, ha, hf]
    · simp [purses, Table.find_set_ne howner, howner]
  | accumulated i => simp [purses]
  | pool i => simp [purses]

theorem payFee_purses {account : AccountId} {coreFee : Int}
    (h : L.payFee account coreFee = .ok L') :
    L'.purses = L.purses + inPurse (.fees account) coreFee := by
  refine modifyStatistics_purses h fun s => ?_
  unfold AccountStatistics.payFee
  split
  · exact add_right_comm _ _ _
  · exact (add_assoc _ _ _).symm

theorem noteInOrders_purses {account : AccountId} {a : Asset}
    (h : L.noteInOrders account a = .ok L') : L'.purses = L.purses := by
  unfold noteInOrders at h
  split at h
  · have hpurses := modifyStatistics_purses (x := 0) h fun _ => (add_zero _).symm
    rwa [inPurse_zero, add_zero] at hpurses
  · rw [← pure_eq_ok.mp h]

theorem addAccumulatedFees_purses {id : AssetId} {x : Int}
    (h : L.modifyDynamicData id (fun d => { d with accumulatedFees := d.accumulatedFees + x }) =
      .ok L') : L'.purses = L.purses + inPurse (.accumulated id) x := by
  have hpurses := modifyDynamicData_purses (x := x) (y := 0) h
    fun _ => ⟨rfl, (add_zero _).symm⟩
  rwa [inPurse_zero, add_zero] at hpurses

theorem addFeePool_purses {id : AssetId} {x : Int}
    (h : L.modifyDynamicData id (fun d => { d with feePool := d.feePool + x }) = .ok L') :
    L'.purses = L.purses + inPurse (.pool id) x := by
  have hpurses := modifyDynamicData_purses (x := 0) (y := x) h
    fun _ => ⟨(add_zero _).symm, rfl⟩
  rwa [inPurse_zero, add_zero] at hpurses

end Ledger

/-! ### Splits of deferred fees -/

/-- What becomes of the deferred fees of an order: of the core fee, what is charged and what goes
back to the seller or to the pool of the asset that was paid; of the fee in that asset, what is
charged and what goes back. -/
structure FeeSplit where
  coreCharged : Int
  coreRefunded : Int
  coreToPool : Int
  paidCharged : Int
  paidRefunded : Int

def FeeSplit.effect (s : FeeSplit) (seller : AccountId) (paid : AssetId) : Purses :=
  inPurse (.fees seller) s.coreCharged + inPurse (.balance seller coreAsset) s.coreRefunded +
    inPurse (.pool paid) s.coreToPool + inPurse (.accumulated paid) s.paidCharged +
      inPurse (.balance seller paid) s.paidRefunded

/-- A split of the fees `fee` and `paid`, with each unit charged or refunded once.  The part of the
fee `paid` that is charged is rounded up. -/
structure FeeSplit.Exact (s : FeeSplit) (fee paid : Int) : Prop where
  core_charged : 0 ≤ s.coreCharged ∧ s.coreCharged ≤ fee
  paid_charged : 0 ≤ s.paidCharged ∧ s.paidCharged ≤ paid
  core_back : 0 ≤ s.coreRefunded ∧ 0 ≤ s.coreToPool
  paid_back : 0 ≤ s.paidRefunded
  core_sum : s.coreCharged + (s.coreRefunded + s.coreToPool) = fee
  paid_sum : s.paidCharged + s.paidRefunded = paid
  to_seller : paid = 0 → s.coreToPool = 0
  to_pool : paid ≠ 0 → s.coreRefunded = 0
  proportional : 0 < fee → 0 < paid * s.coreCharged + fee ∧
    s.paidCharged = (paid * s.coreCharged + fee - 1) / fee

/-- Everything is charged when the order is filled. -/
def LimitOrder.fillSplit (o : LimitOrder) : FeeSplit :=
  ⟨o.deferredFee, 0, 0, o.deferredPaidFee.amount, 0⟩

/-- The core fee that a cancellation charges. -/
def LimitOrder.cancelCharge (o : LimitOrder) (cancelFee : Int) (charges : Bool) : Int :=
  if charges ∧ 0 < o.deferredFee then max 0 (min cancelFee o.deferredFee) else 0

/-- A cancellation that charges so much of the core fee. -/
def LimitOrder.cancelSplit (o : LimitOrder) (charge : Int) : FeeSplit :=
  let paid := o.deferredPaidFee.amount
  let paidCharged := if charge = 0 then 0 else (paid * charge + o.deferredFee - 1) / o.deferredFee
  ⟨charge, if paid = 0 then o.deferredFee - charge else 0,
    if paid = 0 then 0 else o.deferredFee - charge, paidCharged, paid - paidCharged⟩

namespace LimitOrder

variable {o : LimitOrder}

theorem roundUp_le {paid charge fee : Int} (hpaid : 0 ≤ paid) (hcharge : charge ≤ fee)
    (hfee : 0 < fee) : (paid * charge + fee - 1) / fee ≤ paid := by
  have hle : paid * charge ≤ paid * fee := mul_le_mul_of_nonneg_left hcharge hpaid
  rw [Int.ediv_le_iff_le_mul hfee]
  omega

theorem fillSplit_exact (hfee : 0 ≤ o.deferredFee) (hpaid : 0 ≤ o.deferredPaidFee.amount) :
    o.fillSplit.Exact o.deferredFee o.deferredPaidFee.amount where
  core_charged := ⟨hfee, le_refl _⟩
  paid_charged := ⟨hpaid, le_refl _⟩
  core_back := ⟨le_refl 0, le_refl 0⟩
  paid_back := le_refl 0
  core_sum := by simp [fillSplit]
  paid_sum := by simp [fillSplit]
  to_seller := fun _ => rfl
  to_pool := fun _ => rfl
  proportional := fun hpos => by
    have hproduct := mul_nonneg hpaid hfee
    refine ⟨by simp only [fillSplit]; omega, ?_⟩
    simp only [fillSplit]
    rw [show o.deferredPaidFee.amount * o.deferredFee + o.deferredFee - 1 =
      (o.deferredFee - 1) + o.deferredPaidFee.amount * o.deferredFee by ring,
      Int.add_mul_ediv_right _ _ (by omega), Int.ediv_eq_zero_of_lt (by omega) (by omega), zero_add]

theorem cancelSplit_exact (hfee : 0 ≤ o.deferredFee) (hpaid : 0 ≤ o.deferredPaidFee.amount)
    {charge : Int} (hcharge : 0 ≤ charge) (hle : charge ≤ o.deferredFee) :
    (o.cancelSplit charge).Exact o.deferredFee o.deferredPaidFee.amount := by
  have hround : 0 ≤ (o.cancelSplit charge).paidCharged ∧
      (o.cancelSplit charge).paidCharged ≤ o.deferredPaidFee.amount := by
    simp only [cancelSplit]
    split
    · exact ⟨le_refl 0, hpaid⟩
    · have hproduct := mul_nonneg hpaid hcharge
      exact ⟨Int.ediv_nonneg (by omega) hfee, roundUp_le hpaid hle (by omega)⟩
  exact {
    core_charged := ⟨hcharge, hle⟩
    paid_charged := hround
    core_back := by
      simp only [cancelSplit]
      split <;> simp [hle]
    paid_back := sub_nonneg.mpr hround.2
    core_sum := by
      simp only [cancelSplit]
      split <;> omega
    paid_sum := by
      simp only [cancelSplit]
      omega
    to_seller := fun hzero => by simp [cancelSplit, hzero]
    to_pool := fun hne => by simp [cancelSplit, hne]
    proportional := fun hpos => by
      have hproduct := mul_nonneg hpaid hcharge
      refine ⟨by simp only [cancelSplit]; omega, ?_⟩
      simp only [cancelSplit]
      split
      · rename_i hzero
        rw [hzero, mul_zero, zero_add, Int.ediv_eq_zero_of_lt (by omega) (by omega)]
      · rfl }

theorem cancelCharge_bounds (hfee : 0 ≤ o.deferredFee) (cancelFee : Int) (charges : Bool) :
    0 ≤ o.cancelCharge cancelFee charges ∧ o.cancelCharge cancelFee charges ≤ o.deferredFee := by
  unfold cancelCharge
  split
  · exact ⟨le_max_left _ _, max_le hfee (min_le_right _ _)⟩
  · exact ⟨le_refl 0, hfee⟩

end LimitOrder

theorem LimitOrder.cancelSplit_unpaid {o : LimitOrder} {cancelFee charge : Int} {charges : Bool}
    (hpaid : o.deferredPaidFee.amount = 0) (hcharge : o.cancelCharge cancelFee charges = charge) :
    (o.cancelSplit charge).paidCharged = 0 := by
  simp only [cancelSplit]
  split
  · rfl
  · rename_i hne
    have hfee : 0 < o.deferredFee := by
      by_contra hnot
      refine hne ?_
      rw [← hcharge, cancelCharge, if_neg fun h => hnot h.2]
    rw [hpaid, zero_mul, zero_add, Int.ediv_eq_zero_of_lt (by omega) (by omega)]

/-! ### The steps of an order -/

namespace Ledger

variable {L L' : Ledger} {id : Nat}

theorem payCancelFee_purses {o : LimitOrder} {r : LimitOrder × Ledger} {charge : Int}
    (hcharge : charge = o.cancelCharge L.parameters.limitOrderCancelFee true)
    (h : L.payCancelFee o = .ok r) :
    r.2.purses = L.purses + inPurse (.fees o.seller) charge +
        inPurse (.accumulated o.deferredPaidFee.assetId) (o.cancelSplit charge).paidCharged ∧
      r.1.seller = o.seller ∧ r.1.deferredFee = o.deferredFee - charge ∧
      r.1.deferredPaidFee =
        ⟨o.deferredPaidFee.amount - (o.cancelSplit charge).paidCharged,
          o.deferredPaidFee.assetId⟩ := by
  simp only [payCancelFee] at h
  split at h
  · rename_i hpos
    have hmin : charge = min L.parameters.limitOrderCancelFee o.deferredFee := by
      rw [hcharge, LimitOrder.cancelCharge, if_pos ⟨rfl, hpos.1⟩, max_eq_right hpos.2.le]
    rw [← hmin] at h hpos
    simp only [bind_eq_ok] at h
    obtain ⟨M, hM, h⟩ := h
    have hround : (o.cancelSplit charge).paidCharged =
        (o.deferredPaidFee.amount * charge + o.deferredFee - 1) / o.deferredFee :=
      if_neg (by omega)
    split at h
    · rename_i hzero
      obtain rfl := pure_eq_ok.mp h
      have hnone : (o.cancelSplit charge).paidCharged = 0 := by
        rw [hround, hzero, zero_mul, zero_add, Int.ediv_eq_zero_of_lt (by omega) (by omega)]
      refine ⟨?_, rfl, rfl, ?_⟩
      · rw [hnone, inPurse_zero, add_zero]
        exact payFee_purses hM
      · rw [hnone, sub_zero]
    · simp only [bind_eq_ok, pure_eq_ok] at h
      obtain ⟨N, hN, rfl⟩ := h
      rw [← hround] at hN ⊢
      refine ⟨?_, rfl, rfl, rfl⟩
      rw [addAccumulatedFees_purses hN, payFee_purses hM]
  · rename_i hnone
    obtain rfl := pure_eq_ok.mp h
    have hzero : charge = 0 := by
      rw [hcharge, LimitOrder.cancelCharge]
      split
      · rename_i hfee
        exact max_eq_left (not_lt.mp fun hmin => hnone ⟨hfee.2, hmin⟩)
      · rfl
    have hpaid : (o.cancelSplit charge).paidCharged = 0 := if_pos hzero
    rw [hpaid, hzero]
    simp

theorem refundFee_purses {o : LimitOrder} {paid : Bool} (h : L.refundFee o paid = .ok L') :
    L'.purses = L.purses + if paid then
      inPurse (.balance o.seller o.deferredPaidFee.assetId) o.deferredPaidFee.amount +
        inPurse (.pool o.deferredPaidFee.assetId) o.deferredFee
    else inPurse (.balance o.seller coreAsset) o.deferredFee := by
  unfold refundFee at h
  cases paid with
  | true =>
    simp only [if_true, bind_eq_ok] at h
    obtain ⟨M, hM, h⟩ := h
    rw [addFeePool_purses h, adjustBalance_purses hM, if_pos rfl, add_assoc]
  | false => exact adjustBalance_purses h

theorem cancelLimitOrder_purses {virtualOp skipFee : Bool} {o : LimitOrder}
    (ho : L.limitOrders.find id = some o)
    (h : L.cancelLimitOrder id virtualOp skipFee = .ok L') :
    L'.purses = L.purses + inPurse (.balance o.seller o.sellAssetId) o.forSale +
      (o.cancelSplit (o.cancelCharge L.parameters.limitOrderCancelFee
        (virtualOp && !skipFee))).effect
        o.seller o.deferredPaidFee.assetId := by
  simp only [cancelLimitOrder, bind_eq_ok, demand_eq_ok, pure_eq_ok] at h
  obtain ⟨o', ho', left, hleft, M1, h1, M2, h2, M3, h3, rfl⟩ := h
  obtain rfl : o = o' := Option.some.inj (ho.symm.trans ho')
  generalize hcharge : o.cancelCharge L.parameters.limitOrderCancelFee (virtualOp && !skipFee) =
    charge
  -- the part of the fees that is charged
  have hpaid : left.2.purses = L.purses + inPurse (.fees o.seller) charge +
        inPurse (.accumulated o.deferredPaidFee.assetId) (o.cancelSplit charge).paidCharged ∧
      left.1.seller = o.seller ∧ left.1.deferredFee = o.deferredFee - charge ∧
      left.1.deferredPaidFee =
        ⟨o.deferredPaidFee.amount - (o.cancelSplit charge).paidCharged,
          o.deferredPaidFee.assetId⟩ := by
    cases hcharges : virtualOp && !skipFee with
    | true =>
      rw [hcharges] at hleft hcharge
      exact payCancelFee_purses hcharge.symm hleft
    | false =>
      rw [hcharges] at hleft hcharge
      obtain rfl := pure_eq_ok.mp hleft
      have hzero : charge = 0 := by
        rw [← hcharge, LimitOrder.cancelCharge, if_neg (by simp)]
      have hnone : (o.cancelSplit charge).paidCharged = 0 := if_pos hzero
      rw [hnone, hzero]
      simp
  obtain ⟨hpurses, hseller, hfee, hleftPaid⟩ := hpaid
  have hrefund := refundFee_purses h3
  have hlast : Ledger.purses { M3 with limitOrders := M3.limitOrders.remove id } = M3.purses :=
    purses_congr rfl rfl rfl
  rw [hlast, hrefund, adjustBalance_purses h2, noteInOrders_purses h1, hpurses, hseller, hfee,
    hleftPaid]
  by_cases hzero : o.deferredPaidFee.amount = 0
  · have hnone : (o.cancelSplit charge).paidCharged = 0 :=
      LimitOrder.cancelSplit_unpaid hzero hcharge
    have hrefunded : (o.cancelSplit charge).coreRefunded = o.deferredFee - charge := if_pos hzero
    have hpool : (o.cancelSplit charge).coreToPool = 0 := if_pos hzero
    have hback : (o.cancelSplit charge).paidRefunded = 0 :=
      show o.deferredPaidFee.amount - (o.cancelSplit charge).paidCharged = 0 by omega
    simp only [hzero, FeeSplit.effect, hnone, hrefunded, hpool, hback, inPurse_zero]
    simp only [LimitOrder.cancelSplit, LimitOrder.amountForSale]
    simp only [ne_eq, not_true_eq_false, decide_false, Bool.false_eq_true, if_false]
    abel
  · have hrefunded : (o.cancelSplit charge).coreRefunded = 0 := if_neg hzero
    have hpool : (o.cancelSplit charge).coreToPool = o.deferredFee - charge := if_neg hzero
    have hback : (o.cancelSplit charge).paidRefunded =
      o.deferredPaidFee.amount - (o.cancelSplit charge).paidCharged := rfl
    have hcore : (o.cancelSplit charge).coreCharged = charge := rfl
    simp only [FeeSplit.effect, hcore, hrefunded, hpool, hback, inPurse_zero,
      LimitOrder.amountForSale, ne_eq, hzero, not_false_eq_true, decide_true, if_true]
    abel

/-- What the seller gets for a fill, and what the asset keeps of it. -/
def fillTrade (seller : AccountId) (options : AssetOptions) (receives : Asset) : Purses :=
  inPurse (.accumulated receives.assetId)
      (max 0 (calculateMarketFee receives.assetId options receives).amount) +
    inPurse (.balance seller receives.assetId)
      (receives.amount - (calculateMarketFee receives.assetId options receives).amount)

theorem payMarketFees_purses {receives : Asset} {r : Asset × Ledger} {a : AssetObject}
    (ha : L.assets.find receives.assetId = some a) (h : L.payMarketFees receives = .ok r) :
    r.1 = calculateMarketFee receives.assetId a.options receives ∧
      r.2.purses = L.purses + inPurse (.accumulated receives.assetId) (max 0 r.1.amount) := by
  simp only [payMarketFees, asset, ha, bind_eq_ok, demand_eq_ok, Option.some.injEq,
    exists_eq_left'] at h
  split at h
  · rename_i hpos
    simp only [bind_eq_ok, pure_eq_ok] at h
    obtain ⟨M, hM, rfl⟩ := h
    refine ⟨rfl, ?_⟩
    rw [max_eq_right hpos.le]
    exact addAccumulatedFees_purses hM
  · rename_i hnot
    obtain rfl := pure_eq_ok.mp h
    refine ⟨rfl, ?_⟩
    rw [max_eq_left (not_lt.mp hnot), inPurse_zero, add_zero]

theorem payDeferredFees_purses {o : LimitOrder} (hfee : 0 ≤ o.deferredFee)
    (hpaid : 0 ≤ o.deferredPaidFee.amount) (h : L.payDeferredFees o = .ok L') :
    L'.purses = L.purses + o.fillSplit.effect o.seller o.deferredPaidFee.assetId := by
  simp only [payDeferredFees, bind_eq_ok] at h
  obtain ⟨M, hM, h⟩ := h
  have hcore : M.purses = L.purses + inPurse (.fees o.seller) o.deferredFee := by
    split at hM
    · exact payFee_purses hM
    · obtain rfl := pure_eq_ok.mp hM
      rw [show o.deferredFee = 0 by omega, inPurse_zero, add_zero]
  have hasset : L'.purses = M.purses +
      inPurse (.accumulated o.deferredPaidFee.assetId) o.deferredPaidFee.amount := by
    split at h
    · exact addAccumulatedFees_purses h
    · obtain rfl := pure_eq_ok.mp h
      rw [show o.deferredPaidFee.amount = 0 by omega, inPurse_zero, add_zero]
  rw [hasset, hcore]
  simp only [FeeSplit.effect, LimitOrder.fillSplit, inPurse_zero]
  abel

theorem cancelSplit_afterFill (o : LimitOrder) (pays : Asset) (cancelFee : Int) (charges : Bool) :
    ((o.afterFill pays).cancelSplit ((o.afterFill pays).cancelCharge cancelFee charges)).effect
      (o.afterFill pays).seller (o.afterFill pays).deferredPaidFee.assetId = 0 := by
  have hcharge : (o.afterFill pays).cancelCharge cancelFee charges = 0 :=
    if_neg fun h => lt_irrefl 0 h.2
  rw [hcharge]
  simp [FeeSplit.effect, LimitOrder.cancelSplit, LimitOrder.afterFill]

theorem fillLimitOrder_purses {pays receives : Asset} {cull : Bool} {r : Bool × Ledger}
    {o : LimitOrder} {a : AssetObject} (ho : L.limitOrders.find id = some o)
    (ha : L.assets.find receives.assetId = some a) (hfee : 0 ≤ o.deferredFee)
    (hpaid : 0 ≤ o.deferredPaidFee.amount)
    (h : L.fillLimitOrder id pays receives cull = .ok r) :
    (r.2.limitOrders.find id = none ∨ r.2.limitOrders.find id = some (o.afterFill pays)) ∧
      r.2.purses = L.purses + fillTrade o.seller a.options receives +
        inPurse (.balance o.seller o.sellAssetId)
          (if (r.2.limitOrders.find id).isNone then o.forSale - pays.amount else 0) +
        o.fillSplit.effect o.seller o.deferredPaidFee.assetId := by
  simp only [fillLimitOrder, bind_eq_ok, demand_eq_ok, require_eq_ok, exists_const,
    Asset.minus_eq_ok] at h
  obtain ⟨o', ho', hsell, -, paid, hmarket, net, hnet, M1, h1, M, h2, h⟩ := h
  obtain rfl : o = o' := Option.some.inj (ho.symm.trans ho')
  obtain ⟨hissuer, hmarketPurses⟩ := payMarketFees_purses ha hmarket
  have hfunds : Funds L M := (payMarketFees_funds hmarket).trans
    ((payOrder_funds h1).trans (payDeferredFees_funds h2))
  have hM : M.limitOrders.find id = some o := hfunds.limitOrders ▸ ho
  have hpurses : M.purses = L.purses + fillTrade o.seller a.options receives +
      o.fillSplit.effect o.seller o.deferredPaidFee.assetId := by
    simp only [payOrder, bind_eq_ok] at h1
    obtain ⟨N, hN, h1⟩ := h1
    rw [payDeferredFees_purses hfee hpaid h2, adjustBalance_purses h1, noteInOrders_purses hN,
      hmarketPurses, fillTrade, ← hissuer, hnet.2]
    simp only [add_assoc]
  have hsame : ∀ (N : Ledger) (orders : Table LimitOrder),
      Ledger.purses { N with limitOrders := orders } = N.purses := fun _ _ =>
        purses_congr rfl rfl rfl
  have hset : (M.limitOrders.set id (o.afterFill pays)).find id = some (o.afterFill pays) :=
    Table.find_set_self hM
  -- what is left stays
  have hstays : Ledger.purses { M with limitOrders := M.limitOrders.set id (o.afterFill pays) } =
      L.purses + fillTrade o.seller a.options receives +
        inPurse (.balance o.seller o.sellAssetId) 0 +
        o.fillSplit.effect o.seller o.deferredPaidFee.assetId := by
    rw [hsame, hpurses, inPurse_zero, add_zero]
  split at h
  · rename_i hall
    obtain rfl := pure_eq_ok.mp h
    have hrest : o.forSale - pays.amount = 0 := by
      rw [hall]
      exact sub_self _
    refine ⟨.inl (Table.find_remove_self _ _), ?_⟩
    rw [hrest, ite_self, inPurse_zero, add_zero, hsame, hpurses]
  · split at h
    · simp only [maybeCullSmallOrder, bind_eq_ok, demand_eq_ok] at h
      obtain ⟨left, hleft, got, -, h⟩ := h
      obtain rfl : o.afterFill pays = left := Option.some.inj (hset.symm.trans hleft)
      split at h
      · simp only [bind_eq_ok, pure_eq_ok] at h
        obtain ⟨N, hN, rfl⟩ := h
        have hcancel := cancelLimitOrder_purses hset hN
        have hnone := cancelLimitOrder_gone hN
        refine ⟨.inl hnone, ?_⟩
        rw [hcancel, cancelSplit_afterFill, hsame, hpurses]
        simp only [hnone, Option.isNone_none, if_true, LimitOrder.afterFill, LimitOrder.sellAssetId]
        abel
      · obtain rfl := pure_eq_ok.mp h
        refine ⟨.inr hset, ?_⟩
        simp only [hset, Option.isNone_some, Bool.false_eq_true, if_false]
        exact hstays
    · obtain rfl := pure_eq_ok.mp h
      refine ⟨.inr hset, ?_⟩
      simp only [hset, Option.isNone_some, Bool.false_eq_true, if_false]
      exact hstays

end Ledger

/-! ### The life of an order -/

open Ledger

/-- The life of the order `o` with the number `id`, placed after hard fork 604, up to a ledger: what
it is now, what its own steps added to the purses, and what of this is trade.  Between its steps
anything else may happen that leaves the order as it is. -/
inductive OrderLife (id : Nat) (o : LimitOrder) : Ledger → Option LimitOrder → Purses → Purses →
    Prop
  | placed {L L' : Ledger} {op : LimitOrderCreate} {skip : Bool}
      (hnew : hardforkCore604Time < L.headBlockTime) (h : op.place skip L = .ok (id, L'))
      (ho : L'.limitOrders.find id = some o) : OrderLife id o L' (some o) 0 0
  | between {L L' : Ledger} {now : LimitOrder} {effect trade : Purses}
      (hlife : OrderLife id o L (some now) effect trade)
      (h : L'.limitOrders.find id = some now) : OrderLife id o L' (some now) effect trade
  | cancel {L L' : Ledger} {now : LimitOrder} {effect trade : Purses} {virtualOp skipFee : Bool}
      (hlife : OrderLife id o L (some now) effect trade)
      (h : L.cancelLimitOrder id virtualOp skipFee = .ok L') :
      OrderLife id o L' none (effect + (L'.purses - L.purses))
        (trade + inPurse (.balance now.seller now.sellAssetId) now.forSale)
  | cull {L : Ledger} {r : Bool × Ledger} {now : LimitOrder} {effect trade : Purses}
      (hlife : OrderLife id o L (some now) effect trade) (h : L.maybeCullSmallOrder id = .ok r) :
      OrderLife id o r.2 (r.2.limitOrders.find id) (effect + (r.2.purses - L.purses))
        (trade + inPurse (.balance now.seller now.sellAssetId) (if r.1 then now.forSale else 0))
  | fill {L : Ledger} {r : Bool × Ledger} {now : LimitOrder} {effect trade : Purses}
      {pays receives : Asset} {cull : Bool} {a : AssetObject}
      (hlife : OrderLife id o L (some now) effect trade)
      (ha : L.assets.find receives.assetId = some a)
      (h : L.fillLimitOrder id pays receives cull = .ok r) :
      OrderLife id o r.2 (r.2.limitOrders.find id) (effect + (r.2.purses - L.purses))
        (trade + (fillTrade now.seller a.options receives +
          inPurse (.balance now.seller now.sellAssetId)
            (if (r.2.limitOrders.find id).isNone then now.forSale - pays.amount else 0)))

/-- An order that is there has its deferred fees, or they were charged and it has none. -/
structure LimitOrder.Defers (o now : LimitOrder) (effect trade : Purses) : Prop where
  seller : now.seller = o.seller
  paidAsset : now.deferredPaidFee.assetId = o.deferredPaidFee.assetId
  fees : (now.deferredFee = o.deferredFee ∧ now.deferredPaidFee.amount = o.deferredPaidFee.amount ∧
      effect = trade) ∨
    (now.deferredFee = 0 ∧ now.deferredPaidFee.amount = 0 ∧
      effect = trade + o.fillSplit.effect o.seller o.deferredPaidFee.assetId)

/-- The fees of an order are split as they are charged and refunded. -/
def LimitOrder.Settled (o : LimitOrder) (effect trade : Purses) : Prop :=
  ∃ split : FeeSplit, split.Exact o.deferredFee o.deferredPaidFee.amount ∧
    effect = trade + split.effect o.seller o.deferredPaidFee.assetId

namespace LimitOrder.Defers

variable {o now : LimitOrder} {effect trade : Purses}

theorem fee_nonneg (hd : o.Defers now effect trade) (h : 0 ≤ o.deferredFee) :
    0 ≤ now.deferredFee := by
  rcases hd.fees with ⟨hsame, -⟩ | ⟨hzero, -⟩ <;> omega

theorem paid_nonneg (hd : o.Defers now effect trade) (h : 0 ≤ o.deferredPaidFee.amount) :
    0 ≤ now.deferredPaidFee.amount := by
  rcases hd.fees with ⟨-, hsame, -⟩ | ⟨-, hzero, -⟩ <;> omega

theorem cancel {L L' : Ledger} {id : Nat} {virtualOp skipFee : Bool}
    (hd : o.Defers now effect trade)
    (hfee : 0 ≤ o.deferredFee) (hpaid : 0 ≤ o.deferredPaidFee.amount)
    (hnow : L.limitOrders.find id = some now)
    (h : L.cancelLimitOrder id virtualOp skipFee = .ok L') :
    o.Settled (effect + (L'.purses - L.purses))
      (trade + inPurse (.balance now.seller now.sellAssetId) now.forSale) := by
  have hpurses := cancelLimitOrder_purses hnow h
  rcases hd.fees with ⟨hsame, hsamePaid, rfl⟩ | ⟨hzero, hzeroPaid, rfl⟩
  · have hbounds := cancelCharge_bounds (o := now) (hsame ▸ hfee) L.parameters.limitOrderCancelFee
      (virtualOp && !skipFee)
    have hexact := cancelSplit_exact (hsame ▸ hfee) (hsamePaid ▸ hpaid) hbounds.1 hbounds.2
    rw [hsame, hsamePaid] at hexact
    refine ⟨_, hexact, ?_⟩
    rw [hpurses, hd.seller, hd.paidAsset]
    abel
  · refine ⟨_, fillSplit_exact hfee hpaid, ?_⟩
    have hcharge : now.cancelCharge L.parameters.limitOrderCancelFee (virtualOp && !skipFee) = 0 :=
      if_neg fun h => absurd h.2 (by omega)
    have hnone : (now.cancelSplit 0).effect now.seller now.deferredPaidFee.assetId = 0 := by
      simp [FeeSplit.effect, cancelSplit, hzero, hzeroPaid]
    rw [hpurses, hcharge, hnone]
    abel

theorem fill {L L' : Ledger} {returned : Purses} (hd : o.Defers now effect trade)
    (h : L'.purses = L.purses + returned +
      now.fillSplit.effect now.seller now.deferredPaidFee.assetId) :
    effect + (L'.purses - L.purses) =
      trade + returned + o.fillSplit.effect o.seller o.deferredPaidFee.assetId := by
  rcases hd.fees with ⟨hsame, hsamePaid, rfl⟩ | ⟨hzero, hzeroPaid, rfl⟩
  · have hsplit : now.fillSplit = o.fillSplit := by
      simp only [fillSplit, hsame, hsamePaid]
    rw [h, hsplit, hd.seller, hd.paidAsset]
    abel
  · have hnone : now.fillSplit.effect now.seller now.deferredPaidFee.assetId = 0 := by
      simp [FeeSplit.effect, fillSplit, hzero, hzeroPaid]
    rw [h, hnone]
    abel

end LimitOrder.Defers

theorem OrderLife.spec {id : Nat} {o : LimitOrder} {L : Ledger} {now : Option LimitOrder}
    {effect trade : Purses} (h : OrderLife id o L now effect trade) :
    0 ≤ o.deferredFee ∧ 0 ≤ o.deferredPaidFee.amount ∧
      (∀ w, now = some w → L.limitOrders.find id = some w ∧ o.Defers w effect trade) ∧
      (now = none → o.Settled effect trade) := by
  induction h with
  | placed hnew h ho =>
    simp only [LimitOrderCreate.place, bind_eq_ok, pure_eq_ok] at h
    obtain ⟨_, -, core, hcore, _, -, M1, h1, M2, -, M3, -, p, -, hplaced⟩ := h
    obtain ⟨rfl, rfl⟩ := Prod.mk.inj hplaced
    obtain rfl := Option.some.inj ((Table.find_create_self _ _).symm.trans ho)
    have hprepared := evaluateFee_prepared hcore
    obtain ⟨-, -, hpaid, -⟩ := LimitOrderCreate.convertFee_spec hprepared h1
    refine ⟨hprepared.core_nonneg, hpaid, fun w hw => ?_, fun hnone => nomatch hnone⟩
    obtain rfl := Option.some.inj hw
    exact ⟨ho, rfl, rfl, .inl ⟨rfl, rfl, rfl⟩⟩
  | between _ h ih =>
    obtain ⟨hfee, hpaid, hthere, -⟩ := ih
    refine ⟨hfee, hpaid, fun w hw => ?_, fun hnone => nomatch hnone⟩
    obtain rfl := Option.some.inj hw
    exact ⟨h, (hthere _ rfl).2⟩
  | cancel _ h ih =>
    obtain ⟨hfee, hpaid, hthere, -⟩ := ih
    obtain ⟨hnow, hd⟩ := hthere _ rfl
    exact ⟨hfee, hpaid, fun w hw => (nomatch hw), fun _ => hd.cancel hfee hpaid hnow h⟩
  | cull _ h ih =>
    obtain ⟨hfee, hpaid, hthere, -⟩ := ih
    obtain ⟨hnow, hd⟩ := hthere _ rfl
    simp only [maybeCullSmallOrder, bind_eq_ok, demand_eq_ok] at h
    obtain ⟨_, -, _, -, h⟩ := h
    split at h
    · simp only [bind_eq_ok, pure_eq_ok] at h
      obtain ⟨N, hN, rfl⟩ := h
      refine ⟨hfee, hpaid, fun w hw => ?_, fun _ => hd.cancel hfee hpaid hnow hN⟩
      exact nomatch (cancelLimitOrder_gone hN).symm.trans hw
    · obtain rfl := pure_eq_ok.mp h
      refine ⟨hfee, hpaid, fun w hw => ?_, fun hnone => nomatch hnow.symm.trans hnone⟩
      obtain rfl := Option.some.inj (hnow.symm.trans hw)
      refine ⟨hnow, ?_⟩
      simpa using hd
  | fill _ ha h ih =>
    obtain ⟨hfee, hpaid, hthere, -⟩ := ih
    obtain ⟨hnow, hd⟩ := hthere _ rfl
    obtain ⟨horder, hpurses⟩ := fillLimitOrder_purses hnow ha (hd.fee_nonneg hfee)
      (hd.paid_nonneg hpaid) h
    rw [add_assoc _ (fillTrade _ _ _)] at hpurses
    have hcharged := hd.fill hpurses
    refine ⟨hfee, hpaid, fun w hw => ?_, fun _ => ⟨_, LimitOrder.fillSplit_exact hfee hpaid,
      hcharged⟩⟩
    rcases horder with hnone | hsome
    · exact nomatch hnone.symm.trans hw
    · obtain rfl := Option.some.inj (hsome.symm.trans hw)
      exact ⟨hw, hd.seller, hd.paidAsset, .inr ⟨rfl, rfl, hcharged⟩⟩

/-- The deferred fees of an order that was placed after hard fork 604 are split when it ends, in
whichever way it does: what its steps added to the purses is its trade and a split of the fees, in
which each unit is charged or refunded once. -/
theorem OrderLife.fees_split {id : Nat} {o : LimitOrder} {L : Ledger} {effect trade : Purses}
    (h : OrderLife id o L none effect trade) : o.Settled effect trade :=
  h.spec.2.2.2 rfl

/-- The ledger with two accounts, a cancel fee of 30, and an asset of which 7 are worth 100. -/
def sevenLedger : Ledger :=
  { tradingLedger with
    parameters := ⟨0, 30, 0, 0, 0, 0, 0, 0, [], []⟩
    assets := Table.ofList [⟨0, tradingLedger.plainOptions, ⟨100, 0, 0⟩, none⟩,
      ⟨0, { tradingLedger.plainOptions with coreExchangeRate := ⟨⟨7, 1⟩, ⟨100, 0⟩⟩ }, ⟨50, 0, 500⟩,
        none⟩] }

/-- Five of that asset for ten of the core asset, with the fee of 7, for which 100 are deferred. -/
def sevenOrder : LimitOrder := ⟨1700000000, 1, 5, ⟨⟨5, 1⟩, ⟨10, 0⟩⟩, 100, ⟨7, 1⟩⟩

/-- When the order expires 30 and 3 are charged. -/
theorem fees_split_seven : ∃ L effect trade, OrderLife 0 sevenOrder L none effect trade ∧
    sevenOrder.Settled effect trade ∧ L.purses (.fees 1) = 30 ∧ L.purses (.accumulated 1) = 3 ∧
      L.purses (.pool 1) = 470 := by
  obtain ⟨placed, hplaced, hstate⟩ := exists_ok_of_any
    (x := LimitOrderCreate.place ⟨⟨7, 1⟩, 1, ⟨5, 1⟩, ⟨10, 0⟩, 1700000000, false⟩ false sevenLedger)
    (p := fun r => decide (r.1 = 0 ∧ r.2.limitOrders.find 0 = some sevenOrder) &&
      (r.2.cancelLimitOrder 0 true false).toOption.any fun L : Ledger =>
        decide (L.purses (Purse.fees 1) = 30 ∧ L.purses (Purse.accumulated 1) = 3 ∧
          L.purses (Purse.pool 1) = 470)) (by decide +kernel)
  obtain ⟨hfirst, hcancel⟩ := Bool.and_eq_true_iff.mp hstate
  obtain ⟨hid, ho⟩ := of_decide_eq_true hfirst
  obtain ⟨L, hL, hpurses⟩ := exists_ok_of_any hcancel
  have hplaced' : LimitOrderCreate.place ⟨⟨7, 1⟩, 1, ⟨5, 1⟩, ⟨10, 0⟩, 1700000000, false⟩ false
      sevenLedger = .ok (0, placed.2) := by
    rw [hplaced, ← hid]
  have hlife := (OrderLife.placed (by decide) hplaced' ho).cancel hL
  exact ⟨L, _, _, hlife, hlife.fees_split, of_decide_eq_true hpurses⟩

end Nestchain.Market
