import Nestchain.Market.Settlement

/-! The functions of the market return or throw; only a loop could run out of rounds.  The two
searches of `get_max_debt_to_cover` come to an end for every position and every price. -/

namespace Nestchain.Market

open Lib

/-! ### Amounts and prices -/

@[simp] theorem finishes_convert (n d : Int) (id : AssetId) : Finishes (convert n d id) := by
  simp [convert]

namespace Asset

@[simp] theorem finishes_less (a b : Asset) : Finishes (a.less b) := by simp [less]

@[simp] theorem finishes_plus (a b : Asset) : Finishes (a.plus b) := by simp [plus]

@[simp] theorem finishes_minus (a b : Asset) : Finishes (a.minus b) := by simp [minus]

@[simp] theorem finishes_least (a b : Asset) : Finishes (a.least b) := by simp [least]

@[simp] theorem finishes_mul (a : Asset) (p : Price) : Finishes (a.mul p) := by simp [mul]

@[simp] theorem finishes_multiplyAndRoundUp (a : Asset) (p : Price) :
    Finishes (a.multiplyAndRoundUp p) := by simp [multiplyAndRoundUp]

end Asset

@[simp] theorem finishes_rational (n d : Int) : Finishes (rational n d) := by simp [rational]

namespace Price

@[simp] theorem finishes_ofAssets (a b : Asset) : Finishes (ofAssets a b) := by simp [ofAssets]

@[simp] theorem finishes_greatest (a b : AssetId) : Finishes (greatest a b) := by simp [greatest]

@[simp] theorem finishes_smallest (a b : AssetId) : Finishes (smallest a b) := by simp [smallest]

@[simp] theorem finishes_callPrice (a b : Asset) (ratio : Nat) :
    Finishes (callPrice a b ratio) := by
  simp [callPrice]

end Price

@[simp] theorem PriceFeed.finishes_maxShortSqueezePrice (f : PriceFeed) :
    Finishes f.maxShortSqueezePrice := by
  simp [maxShortSqueezePrice]

/-! ### The ledger -/

namespace Ledger

variable (L : Ledger)

@[simp] theorem finishes_asset (id : AssetId) : Finishes (L.asset id) := by simp [asset]

@[simp] theorem finishes_bitasset (id : AssetId) : Finishes (L.bitasset id) := by simp [bitasset]

@[simp] theorem finishes_modifyDynamicData (id : AssetId)
    (f : AssetDynamicData → AssetDynamicData) :
    Finishes (L.modifyDynamicData id f) := by simp [modifyDynamicData, modifyAsset]

@[simp] theorem finishes_modifyBitasset (id : AssetId) (f : BitassetData → BitassetData) :
    Finishes (L.modifyBitasset id f) := by simp [modifyBitasset, modifyAsset]

@[simp] theorem finishes_payFee (account : AccountId) (fee : Int) :
    Finishes (L.payFee account fee) := by simp [payFee, modifyStatistics]

@[simp] theorem finishes_noteInOrders (account : AccountId) (a : Asset) :
    Finishes (L.noteInOrders account a) := by simp [noteInOrders, addCoreInOrders, modifyStatistics]

@[simp] theorem finishes_adjustBalance (account : AccountId) (a : Asset) :
    Finishes (L.adjustBalance account a) := by
  simp only [adjustBalance, finishes_ite]
  refine ⟨fun _ => finishes_pure _, fun _ => ?_⟩
  split <;> simp

@[simp] theorem finishes_cancelLimitOrder (id : Nat) (virtualOp skipFee : Bool) :
    Finishes (L.cancelLimitOrder id virtualOp skipFee) := by
  simp [cancelLimitOrder, payCancelFee, refundFee]

@[simp] theorem finishes_maybeCullSmallOrder (id : Nat) :
    Finishes (L.maybeCullSmallOrder id) := by
  simp [maybeCullSmallOrder, LimitOrder.amountToReceive]

@[simp] theorem finishes_payMarketFees (a : Asset) : Finishes (L.payMarketFees a) := by
  simp [payMarketFees]

@[simp] theorem finishes_fillLimitOrder (id : Nat) (pays receives : Asset) (cull : Bool) :
    Finishes (L.fillLimitOrder id pays receives cull) := by
  simp [fillLimitOrder, payOrder, payDeferredFees]

@[simp] theorem finishes_fillCallOrder (id : Nat) (pays receives : Asset) :
    Finishes (L.fillCallOrder id pays receives) := by
  simp [fillCallOrder]

@[simp] theorem finishes_matchLimitOrders (usd core : Nat) (p : Price) :
    Finishes (L.matchLimitOrders usd core p) := by
  simp [matchLimitOrders, fillLimitOrders]

@[simp] theorem finishes_fillLimitAndCall (bid ask : Nat) (orderReceives callReceives : Asset)
    (cull : Bool) : Finishes (L.fillLimitAndCall bid ask orderReceives callReceives cull) := by
  simp [fillLimitAndCall]

@[simp] theorem finishes_fillMarginCall (call limit : Nat) (callReceives orderReceives : Asset) :
    Finishes (L.fillMarginCall call limit callReceives orderReceives) := by
  simp [fillMarginCall]

theorem finishes_matchBook (id : Nat) (good : Price → Bool) (book : List Nat) :
    Finishes (matchBook id good book L) := by
  induction book generalizing L with
  | nil => simp [matchBook]
  | cons maker book ih => simp [matchBook, ih]

@[simp] theorem finishes_callMatchPrice (o : LimitOrder) : Finishes (L.callMatchPrice o) := by
  simp only [callMatchPrice, finishes_bind, finishes_asset, true_and]
  intro a _
  split <;> simp

@[simp] theorem finishes_globallySettleAsset (mia : AssetId) (p : Price) :
    Finishes (L.globallySettleAsset mia p) := by
  have hclose : ∀ (s : Ledger × Asset) (c : Nat × CallOrder), Finishes (closeCallOrder p s c) :=
    fun s c => by simp [closeCallOrder]
  simp [globallySettleAsset, foldlM_finishes hclose]

@[simp] theorem finishes_checkForBlackswan (mia : AssetId) (enable : Bool) :
    Finishes (L.checkForBlackswan mia enable) := by
  have hbid : ∀ b, Finishes (L.highestBid mia b) := fun b => by
    simp only [highestBid, finishes_bind, PriceFeed.finishes_maxShortSqueezePrice,
      Price.finishes_greatest, Price.finishes_smallest, true_and]
    intro squeeze _ top _ bottom _
    split <;> simp
  simp only [checkForBlackswan, finishes_bind, finishes_asset, true_and]
  intro a _
  split
  · exact finishes_pure _
  · simp only [finishes_ite, finishes_bind, finishes_pure, Price.finishes_smallest,
      Price.finishes_greatest, true_and, implies_true]
    intro _ _ callMin _ callMax _
    split <;> simp [hbid, CallOrder.collateralization]

end Ledger

/-! ### How much debt is covered -/

namespace CallOrder

variable {c : CallOrder} {mp fp : Price} {tcr : Nat}

@[simp] theorem finishes_coverOf (x : Int) : Finishes (c.coverOf mp x) := by simp [coverOf]

@[simp] theorem finishes_payOf (x : Int) : Finishes (c.payOf mp x) := by simp [payOf]

@[simp] theorem finishes_aboveTarget (x : Cover) : Finishes (c.aboveTarget fp tcr x) := by
  simp [aboveTarget]

theorem payOf_nonneg {x y : Int} (h : c.payOf mp x = .ok y) : 0 ≤ y := by
  simp only [payOf, bind_eq_ok, pure_eq_ok] at h
  obtain ⟨a, ha, rfl⟩ := h
  exact Asset.multiplyAndRoundUp_nonneg ha

/-- The two ends of the binary search are apart. -/
structure Search.Apart (s : Search) : Prop where
  pay_nonneg : 0 ≤ s.low.toPay
  low_nonneg : 0 ≤ s.low.toCover
  high_nonneg : 0 ≤ s.high.toCover
  pay_lt : s.low.toPay < s.high.toPay

theorem finishes_searchRound (s : Search) : Finishes (c.searchRound mp fp tcr s) := by
  have hmean : Finishes (c.searchMean mp s) := by simp [searchMean]
  simp [searchRound, hmean]

theorem searchRound_closer {s : Search} {r : Search ⊕ Int ⊕ Cover} (hs : s.Apart)
    (h : c.searchRound mp fp tcr s = .ok r) :
    (∀ s', r = .inl s' → s'.Apart ∧
      s'.high.toPay - s'.low.toPay < s.high.toPay - s.low.toPay) ∧
      ∀ x, r = .inr (.inr x) → 0 ≤ x.toPay ∧ 0 ≤ x.toCover := by
  simp only [searchRound, bind_eq_ok] at h
  obtain ⟨mean, -, h⟩ := h
  generalize hx : (if mean.toPay ≤ s.low.toPay ∨ mean.toCover ≤ s.low.toCover ∨
    s.high.toPay < mean.toPay ∨ s.high.toCover < mean.toCover then s.high else mean) = x at h
  obtain ⟨low, high, highIsOk⟩ := s
  obtain ⟨hpay, hlow, hhigh, hlt⟩ := hs
  simp only at hpay hlow hhigh hlt hx h ⊢
  have hbounds : low.toPay < x.toPay ∧ x.toPay ≤ high.toPay ∧ 0 ≤ x.toCover := by
    split at hx
    · exact hx ▸ ⟨hlt, le_refl _, hhigh⟩
    · rename_i hin
      simp only [not_or, not_le, not_lt] at hin
      exact hx ▸ ⟨hin.1, hin.2.2.1, hlow.trans (le_of_lt hin.2.1)⟩
  obtain ⟨hxlow, hxhigh, hxcover⟩ := hbounds
  split at h
  · obtain rfl := pure_eq_ok.mp h
    exact ⟨fun _ he => (by cases he), fun _ he => by cases he⟩
  · simp only [bind_eq_ok] at h
    obtain ⟨-, -, above, -, h⟩ := h
    split at h <;> split at h <;> obtain rfl := pure_eq_ok.mp h
    · exact ⟨fun _ he => (by cases he), fun _ he => by cases he⟩
    · refine ⟨fun s' he => ?_, fun _ he => by cases he⟩
      cases he
      exact ⟨⟨hpay, hlow, hxcover, hxlow⟩, by simp only; omega⟩
    · refine ⟨fun _ he => (by cases he), fun y he => ?_⟩
      cases he
      omega
    · refine ⟨fun s' he => ?_, fun _ he => by cases he⟩
      cases he
      exact ⟨⟨by simp only; omega, hxcover, hhigh, by simp only; omega⟩, by simp only; omega⟩

/-- A cover that is not negative, with two steps of which the second is not shorter. -/
structure Ahead (s : Cover × Int × Int) : Prop where
  pay_nonneg : 0 ≤ s.1.toPay
  cover_nonneg : 0 ≤ s.1.toCover
  step_pos : 0 < s.2.1
  next_pos : 0 < s.2.2

theorem forwardStep_short {x y : Cover} {step : Int} (hpay : 0 ≤ x.toPay) (hcover : 0 ≤ x.toCover)
    (h : c.forwardStep mp x step = .ok (some y)) :
    0 ≤ y.toPay ∧ 0 ≤ y.toCover ∧ (step < c.collateral ∨ step < c.debt) := by
  simp only [forwardStep] at h
  split at h
  · split at h
    · cases pure_eq_ok.mp h
    · rename_i hlt
      simp only [bind_eq_ok] at h
      obtain ⟨toCover, hto, h⟩ := h
      split at h
      · cases pure_eq_ok.mp h
      · simp only [bind_eq_ok] at h
        obtain ⟨toPay, hpaid, h⟩ := h
        split at h
        · cases pure_eq_ok.mp h
        · cases pure_eq_ok.mp h
          exact ⟨payOf_nonneg hpaid, coverOf_nonneg hto, Or.inl (by omega)⟩
  · split at h
    · cases pure_eq_ok.mp h
    · rename_i hlt
      simp only [bind_eq_ok] at h
      obtain ⟨toPay, hpaid, h⟩ := h
      split at h
      · cases pure_eq_ok.mp h
      · simp only [bind_eq_ok] at h
        obtain ⟨toCover, hto, h⟩ := h
        split at h
        · cases pure_eq_ok.mp h
        · cases pure_eq_ok.mp h
          exact ⟨payOf_nonneg hpaid, coverOf_nonneg hto, Or.inr (by omega)⟩

theorem finishes_forwardRound (s : Cover × Int × Int) :
    Finishes (c.forwardRound mp fp tcr s) := by
  have hstep : Finishes (c.forwardStep mp s.1 s.2.1) := by simp [forwardStep]
  simp only [forwardRound, finishes_bind]
  refine ⟨hstep, fun next _ => ?_⟩
  split <;> simp

/-- How far the two steps are from the whole position. -/
def stepsLeft (c : CallOrder) (s : Cover × Int × Int) : Nat :=
  (max c.collateral c.debt - s.2.1).toNat + (max c.collateral c.debt - s.2.2).toNat

theorem forwardRound_closer {s s' : Cover × Int × Int} (hs : Ahead s)
    (h : c.forwardRound mp fp tcr s = .ok (.inl s')) :
    Ahead s' ∧ c.stepsLeft s' < c.stepsLeft s := by
  obtain ⟨hpay, hcover, hstep, hnext⟩ := hs
  simp only [forwardRound, bind_eq_ok] at h
  obtain ⟨next, hforward, h⟩ := h
  cases next with
  | none => cases pure_eq_ok.mp h
  | some y =>
    simp only [bind_eq_ok] at h
    obtain ⟨above, -, h⟩ := h
    obtain ⟨hypay, hycover, hshort⟩ := forwardStep_short hpay hcover hforward
    split at h
    · cases pure_eq_ok.mp h
    · cases pure_eq_ok.mp h
      refine ⟨⟨hypay, hycover, hnext, by simp only; omega⟩, ?_⟩
      simp only [stepsLeft]
      omega

/-- The rounds that the two searches need at most. -/
def coverRounds (c : CallOrder) : Nat := 2 * (c.collateral.toNat + c.debt.toNat) + 1

theorem finishes_searchCover {rounds : Nat} {n d : Int} {low : Cover} (hpos : 0 < c.collateral)
    (hdebt : 0 < c.debt) (hrounds : c.coverRounds ≤ rounds) (hpay : 0 ≤ low.toPay)
    (hcover : 0 ≤ low.toCover) : Finishes (c.searchCover rounds mp fp tcr n d low) := by
  unfold coverRounds at hrounds
  simp only [searchCover, finishes_bind, finishes_ite, finishes_pure, finishes_payOf,
    finishes_coverOf, implies_true, true_and]
  intro highPay hhighPay highCover hhighCover hapart
  generalize hhigh : (if c.debt ≤ highCover then Cover.mk c.collateral c.debt
    else ⟨min highPay c.collateral, highCover⟩) = high at hapart ⊢
  have hbounds : high.toPay ≤ c.collateral ∧ 0 ≤ high.toCover := by
    split at hhigh
    · exact hhigh ▸ ⟨le_refl _, le_of_lt hdebt⟩
    · refine hhigh ▸ ⟨min_le_right _ _, ?_⟩
      split at hhighCover
      · exact pure_eq_ok.mp hhighCover ▸ le_of_lt hdebt
      · exact coverOf_nonneg hhighCover
  simp only [not_or, not_le] at hapart
  have hstart : Search.Apart ⟨low, high, false⟩ := ⟨hpay, hcover, hbounds.2, hapart.1⟩
  refine ⟨loop_finishes (P := Search.Apart) (m := fun s => (s.high.toPay - s.low.toPay).toNat)
    (fun s _ => finishes_searchRound s) (fun s s' hs hb => ?_) rounds _ hstart ?_, fun r hr => ?_⟩
  · obtain ⟨hs', hlt⟩ := (searchRound_closer hs hb).1 s' rfl
    have hpayLt := hs.pay_lt
    exact ⟨hs', by omega⟩
  · simp only
    omega
  · cases r with
    | inl toCover => exact finishes_pure _
    | inr x =>
      obtain ⟨hxpay, hxcover⟩ := loop_invariant (P := Search.Apart)
        (Q := fun r => ∀ x, r = .inr x → 0 ≤ x.toPay ∧ 0 ≤ x.toCover)
        (fun s s' hs hb => ((searchRound_closer hs hb).1 s' rfl).1)
        (fun s r hs hb x hx => (searchRound_closer hs hb).2 x (by rw [hx])) rounds _ _ hstart hr
        x rfl
      refine loop_finishes (P := Ahead) (m := c.stepsLeft)
        (fun s _ => finishes_forwardRound s) (fun s s' hs hb => forwardRound_closer hs hb) rounds _
        ⟨hxpay, hxcover, Int.one_pos, Int.one_pos⟩ ?_
      simp only [stepsLeft]
      omega

theorem finishes_getMaxDebtToCover {rounds mcr : Nat} (hpos : 0 < c.collateral) (hdebt : 0 < c.debt)
    (hrounds : c.coverRounds ≤ rounds) : Finishes (c.getMaxDebtToCover rounds mp fp mcr) := by
  simp only [getMaxDebtToCover, finishes_bind, finishes_require, finishes_ite, finishes_pure,
    true_and, implies_true]
  intro _ _ _
  split
  · exact finishes_pure _
  · simp only [finishes_bind, finishes_require, finishes_ite, finishes_pure, Asset.finishes_mul,
      finishes_coverOf, finishes_payOf, finishes_aboveTarget, implies_true, true_and]
    intro _ _ _ _ _ paid _ toCover hcover toPay hpay _ above _ _
    exact finishes_searchCover hpos hdebt hrounds (payOf_nonneg hpay) (coverOf_nonneg hcover)

/-! ### The rounds are a bound only -/

theorem searchCover_within {n m : Nat} {x y : Int} {low : Cover} (hle : n ≤ m) :
    Within (c.searchCover n mp fp tcr x y low) (c.searchCover m mp fp tcr x y low) := by
  refine .bind (.refl _) fun highPay => .bind (.refl _) fun highCover => .ite (.refl _) ?_
  refine .bind (.loop (fun _ => .refl _) _ hle) fun r => ?_
  cases r with
  | inl toCover => exact .refl _
  | inr x => exact .loop (fun _ => .refl _) _ hle

theorem getMaxDebtToCover_within {n m mcr : Nat} (hle : n ≤ m) :
    Within (c.getMaxDebtToCover n mp fp mcr) (c.getMaxDebtToCover m mp fp mcr) := by
  refine .bind (.refl _) fun _ => .ite (.refl _) ?_
  cases c.targetCollateralRatio with
  | none => exact .refl _
  | some target =>
    refine .bind (.refl _) fun _ => .ite (.refl _) (.ite (.refl _) (.ite (.refl _) ?_))
    refine .bind (.refl _) fun _ => .bind (.refl _) fun _ => .bind (.refl _) fun _ =>
      .ite (.refl _) ?_
    exact .bind (.refl _) fun _ => .ite (.refl _) (searchCover_within hle)

end CallOrder

namespace Ledger

variable {L : Ledger} {n m : Nat}

theorem marginCall_within {call limit : Nat} {feed : PriceFeed} (hle : n ≤ m) :
    Within (marginCall n L call limit feed) (marginCall m L call limit feed) :=
  .bind (.refl _) fun _ => .bind (.refl _) fun _ =>
    .bind (CallOrder.getMaxDebtToCover_within hle) fun _ => .refl _

theorem checkCallRound_within {mia : AssetId} {enable : Bool} {callMin callMax : Price}
    {s : Calling} (hle : n ≤ m) : Within (checkCallRound n mia enable callMin callMax s)
      (checkCallRound m mia enable callMin callMax s) := by
  refine .bind (.refl _) fun swan => .ite (.refl _) ?_
  cases swan.2.callOrdersBetween callMin callMax with
  | nil => exact .refl _
  | cons call rest =>
    cases s.book with
    | nil => exact .refl _
    | cons limit book =>
      refine .bind (.refl _) fun _ => .bind (.refl _) fun _ => .bind (.refl _) fun _ =>
        .ite (.refl _) ?_
      exact .bind (.refl _) fun _ => .bind (.refl _) fun _ => .ite (.refl _)
        (.bind (marginCall_within hle) fun _ => .refl _)

end Ledger

end Nestchain.Market
