import Nestchain.Market.Total
import Nestchain.Market.OrderBook

/-! The match of two limit orders is fair.  The amounts are converted down and up again, and
whichever of the two branches is taken, each side receives what its price promises, the exchange is
at the match price up to less than one unit, and what is left of one of the orders is worth
nothing. -/

namespace Nestchain.Market

open Lib Ledger

theorem left_mul_lt {n a b w r : Int} (ha : 0 < a) (hb : 0 < b) (hw : w = n * a / b)
    (hr : r = (w * b + a - 1) / a) : (n - r) * a < b := by
  have hdown : n * a < (w + 1) * b := hw ▸ Int.lt_ediv_add_one_mul_self (n * a) hb
  have hup : w * b ≤ r * a := (roundUp_le_iff ha).mp (le_of_eq hr.symm)
  have hsub : (n - r) * a = n * a - r * a := sub_mul n r a
  linarith

/-- The conversions of `match`: what the taker and the maker receive and whether the taker is culled
afterwards, or nothing when the taker is worth nothing. -/
def LimitOrder.exchange (u c : LimitOrder) (p : Price) :
    Attempt (Option (Asset × Asset × Bool)) := do
  let coreWorth ← c.amountForSale.mul p
  if ← coreWorth.less u.amountForSale then do
    let usdReceives ← coreWorth.multiplyAndRoundUp p
    pure (some (usdReceives, coreWorth, false))
  else do
    let usdReceives ← u.amountForSale.mul p
    if usdReceives.amount = 0 then pure none
    else do
      let coreReceives ← usdReceives.multiplyAndRoundUp p
      pure (some (usdReceives, coreReceives, true))

/-- The taker pays `x` for the `y` that the maker pays. -/
structure FairExchange (u c : LimitOrder) (x y : Int) : Prop where
  taker_pays : 1 ≤ x ∧ x ≤ u.forSale
  maker_pays : 1 ≤ y ∧ y ≤ c.forSale
  taker_promise : x * u.sellPrice.quote.amount / u.sellPrice.base.amount ≤ y
  maker_promise : y * c.sellPrice.quote.amount / c.sellPrice.base.amount ≤ x
  /-- Less than one unit of what the taker pays, or of what the maker pays. -/
  at_price :
    (y * c.sellPrice.quote.amount ≤ x * c.sellPrice.base.amount ∧
      x * c.sellPrice.base.amount < y * c.sellPrice.quote.amount + c.sellPrice.base.amount) ∨
    (x * c.sellPrice.base.amount ≤ y * c.sellPrice.quote.amount ∧
      y * c.sellPrice.quote.amount < x * c.sellPrice.base.amount + c.sellPrice.quote.amount)

/-- A taker and a maker on the two sides of a market, at prices that cross, in a ledger of the shape
that every run keeps.  The maker would receive something. -/
structure Opposed (L : Ledger) (usd core : Nat) (u c : LimitOrder) : Prop where
  shape : Shape L
  owned : Owned L
  taker : L.limitOrders.find usd = some u
  maker : L.limitOrders.find core = some c
  taker_valid : u.sellPrice.Valid
  maker_valid : c.sellPrice.Valid
  receive : u.receiveAssetId = c.sellAssetId
  sell : u.sellAssetId = c.receiveAssetId
  cross : u.sellPrice.inverse ≤ c.sellPrice
  maker_receives : ∃ w, c.amountToReceive = .ok w ∧ 1 ≤ w.amount

/-- What the order would receive at its price. -/
def LimitOrder.worthAtPrice (o : LimitOrder) : Int :=
  o.forSale * o.sellPrice.quote.amount / o.sellPrice.base.amount

theorem LimitOrder.amountToReceive_eq {o : LimitOrder} (hvalid : o.sellPrice.Valid)
    (hpos : 0 ≤ o.forSale) (hle : o.worthAtPrice ≤ maxShareSupply) :
    o.amountToReceive = .ok ⟨o.worthAtPrice, o.receiveAssetId⟩ := by
  rw [LimitOrder.amountToReceive, Asset.mul_base (a := o.amountForSale) rfl]
  exact convert_eq_ok.mpr ⟨hvalid.1, mul_nonneg hpos (le_of_lt hvalid.2.1), hle, rfl⟩

namespace Opposed

variable {L : Ledger} {usd core : Nat} {u c : LimitOrder} {x y : Int}

theorem ne (h : Opposed L usd core u c) : core ≠ usd := by
  rintro rfl
  obtain rfl : u = c := Option.some.inj (h.taker.symm.trans h.maker)
  exact h.taker_valid.2.2 h.sell

theorem taker_pos (h : Opposed L usd core u c) : 0 < u.forSale :=
  (h.shape.limitOrders usd u h.taker).forSale_pos

theorem maker_pos (h : Opposed L usd core u c) : 0 < c.forSale :=
  (h.shape.limitOrders core c h.maker).forSale_pos

theorem worth (h : Opposed L usd core u c) :
    c.amountForSale.mul c.sellPrice = .ok ⟨c.worthAtPrice, c.receiveAssetId⟩ ∧ 1 ≤ c.worthAtPrice ∧
      c.worthAtPrice ≤ maxShareSupply := by
  obtain ⟨w, hw, hone⟩ := h.maker_receives
  have hconvert := hw
  rw [LimitOrder.amountToReceive, Asset.mul_base (a := c.amountForSale) rfl] at hconvert
  obtain ⟨-, -, hle, rfl⟩ := convert_eq_ok.mp hconvert
  exact ⟨hw, hone, hle⟩

theorem cross_mul (h : Opposed L usd core u c) :
    c.sellPrice.quote.amount * u.sellPrice.quote.amount ≤
      u.sellPrice.base.amount * c.sellPrice.base.amount :=
  (Price.le_iff_mul (a := u.sellPrice.inverse) h.receive h.sell).mp h.cross

theorem promise_le (h : Opposed L usd core u c) (hx : 0 ≤ x)
    (hlt : x * c.sellPrice.base.amount < (y + 1) * c.sellPrice.quote.amount) :
    x * u.sellPrice.quote.amount / u.sellPrice.base.amount ≤ y := by
  have hq := h.maker_valid.2.1
  have htb := h.taker_valid.1
  refine Int.le_of_lt_add_one ((Int.ediv_lt_iff_lt_mul htb).mpr ?_)
  -- both sides are compared after multiplication with the quote of the maker's price
  refine lt_of_mul_lt_mul_right ?_ (le_of_lt hq)
  calc x * u.sellPrice.quote.amount * c.sellPrice.quote.amount
      = x * (c.sellPrice.quote.amount * u.sellPrice.quote.amount) := by ring
    _ ≤ x * (u.sellPrice.base.amount * c.sellPrice.base.amount) :=
        mul_le_mul_of_nonneg_left h.cross_mul hx
    _ = x * c.sellPrice.base.amount * u.sellPrice.base.amount := by ring
    _ < (y + 1) * c.sellPrice.quote.amount * u.sellPrice.base.amount :=
        mul_lt_mul_of_pos_right hlt htb
    _ = (y + 1) * u.sellPrice.base.amount * c.sellPrice.quote.amount := by ring

theorem fair_taker (h : Opposed L usd core u c) (hge : u.forSale ≤ c.worthAtPrice)
    (hy : y = u.forSale * c.sellPrice.base.amount / c.sellPrice.quote.amount) (hypos : y ≠ 0)
    (hx : x = (y * c.sellPrice.quote.amount + c.sellPrice.base.amount - 1) /
      c.sellPrice.base.amount) : FairExchange u c x y := by
  obtain ⟨hb, hq, -⟩ := h.maker_valid
  obtain ⟨hup, hlt⟩ := roundUp_bounds hb hx
  have hnonneg : 0 ≤ u.forSale * c.sellPrice.base.amount :=
    mul_nonneg (le_of_lt h.taker_pos) (le_of_lt hb)
  have hyone : 1 ≤ y := lt_of_le_of_ne (hy ▸ Int.ediv_nonneg hnonneg (le_of_lt hq)) (Ne.symm hypos)
  have hyq : 0 < y * c.sellPrice.quote.amount := mul_pos hyone hq
  have hxle : x ≤ u.forSale := by
    rw [hx, roundUp_le_iff hb, hy]
    exact Int.ediv_mul_le _ (ne_of_gt hq)
  have hxone : 1 ≤ x := by
    by_contra hneg
    have hzero := mul_nonpos_of_nonpos_of_nonneg (a := x) (by omega) (le_of_lt hb)
    omega
  have hback : x * c.sellPrice.base.amount < (y + 1) * c.sellPrice.quote.amount :=
    lt_of_le_of_lt (mul_le_mul_of_nonneg_right hxle (le_of_lt hb))
      (hy ▸ Int.lt_ediv_add_one_mul_self _ hq)
  refine ⟨⟨hxone, hxle⟩, ⟨hyone, ?_⟩, h.promise_le (by omega) hback, ?_, Or.inl ⟨hup, hlt⟩⟩
  · -- the maker is worth at least what the taker sells
    have hworth : c.worthAtPrice * c.sellPrice.base.amount ≤ c.forSale * c.sellPrice.quote.amount :=
      Int.ediv_mul_le _ (ne_of_gt hb)
    have hforSale := mul_le_mul_of_nonneg_right hge (le_of_lt hb)
    have hexpand : (c.forSale + 1) * c.sellPrice.quote.amount =
        c.forSale * c.sellPrice.quote.amount + c.sellPrice.quote.amount := by ring
    rw [hy]
    exact Int.le_of_lt_add_one ((Int.ediv_lt_iff_lt_mul hq).mpr (by omega))
  · calc y * c.sellPrice.quote.amount / c.sellPrice.base.amount
        ≤ x * c.sellPrice.base.amount / c.sellPrice.base.amount := Int.ediv_le_ediv hb hup
      _ = x := Int.mul_ediv_cancel _ (ne_of_gt hb)

theorem fair_maker (h : Opposed L usd core u c) (hlt : c.worthAtPrice < u.forSale)
    (hy : y = (c.worthAtPrice * c.sellPrice.base.amount + c.sellPrice.quote.amount - 1) /
      c.sellPrice.quote.amount) : FairExchange u c c.worthAtPrice y := by
  obtain ⟨hb, hq, -⟩ := h.maker_valid
  obtain ⟨hup, hltUp⟩ := roundUp_bounds hq hy
  have hone := h.worth.2.1
  have hworth : 0 < c.worthAtPrice * c.sellPrice.base.amount := mul_pos hone hb
  have hyle : y ≤ c.forSale := by
    rw [hy, roundUp_le_iff hq]
    exact Int.ediv_mul_le _ (ne_of_gt hb)
  have hyone : 1 ≤ y := by
    by_contra hneg
    have hzero := mul_nonpos_of_nonpos_of_nonneg (a := y) (by omega) (le_of_lt hq)
    omega
  refine ⟨⟨hone, le_of_lt hlt⟩, ⟨hyone, hyle⟩, h.promise_le (by omega) ?_, ?_, Or.inr ⟨hup, hltUp⟩⟩
  · have hexpand : (y + 1) * c.sellPrice.quote.amount =
        y * c.sellPrice.quote.amount + c.sellPrice.quote.amount := by ring
    omega
  · exact Int.ediv_le_ediv hb (mul_le_mul_of_nonneg_right hyle (le_of_lt hq))

/-! ### What is left -/

theorem taker_left (h : Opposed L usd core u c)
    (hy : y = u.forSale * c.sellPrice.base.amount / c.sellPrice.quote.amount)
    (hx : x = (y * c.sellPrice.quote.amount + c.sellPrice.base.amount - 1) /
      c.sellPrice.base.amount) (hle : x ≤ u.forSale) :
    (u.afterFill ⟨x, c.receiveAssetId⟩).worthAtPrice = 0 := by
  obtain ⟨hb, hq, -⟩ := h.maker_valid
  have hnonneg : 0 ≤ u.forSale - x := by omega
  have hlt := left_mul_lt hb hq hy hx
  refine le_antisymm (h.promise_le hnonneg (by rwa [zero_add, one_mul])) ?_
  exact Int.ediv_nonneg (mul_nonneg hnonneg (le_of_lt h.taker_valid.2.1)) (le_of_lt h.taker_valid.1)

theorem maker_left (h : Opposed L usd core u c)
    (hy : y = (c.worthAtPrice * c.sellPrice.base.amount + c.sellPrice.quote.amount - 1) /
      c.sellPrice.quote.amount) (hle : y ≤ c.forSale) :
    (c.afterFill ⟨y, c.sellAssetId⟩).worthAtPrice = 0 := by
  obtain ⟨hb, hq, -⟩ := h.maker_valid
  exact Int.ediv_eq_zero_of_lt (mul_nonneg (sub_nonneg.mpr hle) (le_of_lt hq))
    (left_mul_lt hq hb rfl hy)

/-! ### The fills -/

theorem fills (h : Opposed L usd core u c) (hfair : FairExchange u c x y) (cull : Bool)
    (htaker : cull = true → (u.afterFill ⟨x, c.receiveAssetId⟩).worthAtPrice = 0)
    (hmaker : cull = false → (c.afterFill ⟨y, c.sellAssetId⟩).worthAtPrice = 0) :
    ∃ r, L.fillLimitOrders usd core ⟨y, c.sellAssetId⟩ ⟨x, c.receiveAssetId⟩ cull = .ok r := by
  obtain ⟨hxone, hxle⟩ := hfair.taker_pays
  obtain ⟨hyone, hyle⟩ := hfair.maker_pays
  have htakerLeft : cull = true → (u.afterFill ⟨x, c.receiveAssetId⟩).amountToReceive =
      .ok ⟨(u.afterFill ⟨x, c.receiveAssetId⟩).worthAtPrice, u.receiveAssetId⟩ := by
    intro hcull
    refine LimitOrder.amountToReceive_eq (o := u.afterFill ⟨x, c.receiveAssetId⟩) h.taker_valid
      (sub_nonneg.mpr hxle) ?_
    rw [htaker hcull]
    decide
  have hmakerLeft : (c.afterFill ⟨y, c.sellAssetId⟩).amountToReceive =
      .ok ⟨(c.afterFill ⟨y, c.sellAssetId⟩).worthAtPrice, c.receiveAssetId⟩ := by
    refine LimitOrder.amountToReceive_eq (o := c.afterFill ⟨y, c.sellAssetId⟩) h.maker_valid
      (sub_nonneg.mpr hyle) (le_trans ?_ h.worth.2.2)
    refine Int.ediv_le_ediv h.maker_valid.1 (mul_le_mul_of_nonneg_right ?_
      (le_of_lt h.maker_valid.2.1))
    show c.forSale - y ≤ c.forSale
    omega
  obtain ⟨taker, htakes, htakerFull, htakerCulled⟩ := fillLimitOrder_ok
    ⟨x, c.receiveAssetId⟩ ⟨y, c.sellAssetId⟩ cull h.taker
    (h.owned.limitOrders usd u h.taker) h.sell (Ne.symm h.maker_valid.2.2)
    (h.owned.limitOrders core c h.maker).sell (by simp only; omega) hxle
    (fun hcull _ => ⟨_, htakerLeft hcull⟩)
  have hchanges : Changes (· = usd) L taker.2 :=
    fillLimitOrder_changes (by simp only; omega) (Or.inr rfl) htakes
  obtain ⟨-, honly, -⟩ := fillLimitOrder_turn h.shape (by simp only; omega)
    (fun o ho => Option.some.inj (h.taker.symm.trans ho) ▸ hxle) htakes
  have howned : Owned taker.2 :=
    hchanges.invariant (P := Owned) (fun _ _ hM hx => hM.change hx) h.owned
  have hc : taker.2.limitOrders.find core = some c := (honly.others core h.ne).trans h.maker
  obtain ⟨maker, hmakes, hmakerFull, hmakerCulled⟩ := fillLimitOrder_ok
    ⟨y, c.sellAssetId⟩ ⟨x, c.receiveAssetId⟩ true hc
    (howned.limitOrders core c hc) rfl h.maker_valid.2.2
    (howned.limitOrders core c hc).receive (by simp only; omega) hyle
    (fun _ _ => ⟨_, hmakerLeft⟩)
  refine ⟨(⟨taker.1, maker.1⟩, maker.2), ?_⟩
  simp only [fillLimitOrders, bind_eq_ok, require_eq_ok, exists_const, pure_eq_ok]
  refine ⟨taker, htakes, maker, hmakes, ?_, rfl⟩
  cases cull with
  | true =>
    left
    by_cases hall : x = u.forSale
    · exact htakerFull hall
    · exact htakerCulled rfl hall _ (htakerLeft rfl) (htaker rfl)
  | false =>
    right
    by_cases hall : y = c.forSale
    · exact hmakerFull hall
    · exact hmakerCulled rfl hall _ hmakerLeft (hmaker rfl)

theorem match_start (h : Opposed L usd core u c) {r : Filled × Ledger}
    (hr : (if decide (c.worthAtPrice < u.forSale) = true then do
        let usdReceives ← (Asset.mk c.worthAtPrice c.receiveAssetId).multiplyAndRoundUp c.sellPrice
        L.fillLimitOrders usd core usdReceives ⟨c.worthAtPrice, c.receiveAssetId⟩ false
      else do
        let usdReceives ← u.amountForSale.mul c.sellPrice
        if usdReceives.amount = 0 then pure (⟨true, false⟩, L)
        else do
          let coreReceives ← usdReceives.multiplyAndRoundUp c.sellPrice
          L.fillLimitOrders usd core usdReceives coreReceives true : Attempt (Filled × Ledger)) =
        .ok r) : L.matchLimitOrders usd core c.sellPrice = .ok r := by
  simp only [matchLimitOrders, bind_eq_ok, demand_eq_ok, require_eq_ok, exists_const,
    Asset.less_eq_ok]
  exact ⟨u, h.taker, c, h.maker, h.receive, h.sell, ⟨h.taker_pos, h.maker_pos⟩, _, h.worth.1, _,
    ⟨h.sell.symm, rfl⟩, hr⟩

/-- The conversions of a match that are in range: the maker is the smaller order, or the taker is
worth nothing, or the taker is the smaller order. -/
theorem exchange_cases (h : Opposed L usd core u c) {m : Option (Asset × Asset × Bool)}
    (hm : u.exchange c c.sellPrice = .ok m) :
    (c.worthAtPrice < u.forSale ∧
      (Asset.mk c.worthAtPrice c.receiveAssetId).multiplyAndRoundUp c.sellPrice =
        .ok ⟨(c.worthAtPrice * c.sellPrice.base.amount + c.sellPrice.quote.amount - 1) /
          c.sellPrice.quote.amount, c.sellAssetId⟩) ∨
    (u.forSale ≤ c.worthAtPrice ∧ ∃ y,
      y = u.forSale * c.sellPrice.base.amount / c.sellPrice.quote.amount ∧
      u.amountForSale.mul c.sellPrice = .ok ⟨y, c.sellAssetId⟩ ∧ (y ≠ 0 →
        (Asset.mk y c.sellAssetId).multiplyAndRoundUp c.sellPrice =
          .ok ⟨(y * c.sellPrice.quote.amount + c.sellPrice.base.amount - 1) /
            c.sellPrice.base.amount, c.receiveAssetId⟩)) := by
  simp only [LimitOrder.exchange, bind_eq_ok, Asset.less_eq_ok] at hm
  obtain ⟨worth, hworth, -, ⟨-, rfl⟩, hm⟩ := hm
  obtain rfl := Except.ok.inj (h.worth.1.symm.trans hworth)
  split at hm
  · rename_i hlt
    simp only [bind_eq_ok, pure_eq_ok] at hm
    obtain ⟨usdReceives, hround, -⟩ := hm
    refine Or.inl ⟨of_decide_eq_true hlt, ?_⟩
    have hconvert := hround
    rw [Asset.multiplyAndRoundUp_quote (a := ⟨c.worthAtPrice,
      c.receiveAssetId⟩) h.maker_valid.2.2 rfl]
      at hconvert
    obtain ⟨-, -, -, rfl⟩ := convert_eq_ok.mp hconvert
    exact hround
  · rename_i hlt
    simp only [bind_eq_ok] at hm
    obtain ⟨usdReceives, hmul, hm⟩ := hm
    have hconvert := hmul
    rw [Asset.mul_quote (a := u.amountForSale) h.maker_valid.2.2 h.sell] at hconvert
    obtain ⟨-, -, -, rfl⟩ := convert_eq_ok.mp hconvert
    refine Or.inr ⟨not_lt.mp fun hless => hlt (decide_eq_true hless), _, rfl, hmul, fun hne => ?_⟩
    split at hm
    · rename_i hzero
      exact absurd hzero hne
    · simp only [bind_eq_ok, pure_eq_ok] at hm
      obtain ⟨coreReceives, hround, -⟩ := hm
      have hconvert := hround
      rw [Asset.multiplyAndRoundUp, if_pos rfl] at hconvert
      obtain ⟨-, -, -, rfl⟩ := convert_eq_ok.mp hconvert
      exact hround

theorem exchanges (h : Opposed L usd core u c) (htaker : u.forSale ≤ maxShareSupply)
    (hmaker : c.forSale ≤ maxShareSupply) : ∃ m, u.exchange c c.sellPrice = .ok m := by
  obtain ⟨hb, hq, hne⟩ := h.maker_valid
  have hstart {m : Option (Asset × Asset × Bool)}
      (hm : (if decide (c.worthAtPrice < u.forSale) = true then do
          let usdReceives ← (Asset.mk c.worthAtPrice c.receiveAssetId).multiplyAndRoundUp c.sellPrice
          pure (some (usdReceives, ⟨c.worthAtPrice, c.receiveAssetId⟩, false))
        else do
          let usdReceives ← u.amountForSale.mul c.sellPrice
          if usdReceives.amount = 0 then pure none
          else do
            let coreReceives ← usdReceives.multiplyAndRoundUp c.sellPrice
            pure (some (usdReceives, coreReceives, true)) :
              Attempt (Option (Asset × Asset × Bool))) =
          .ok m) : ∃ m, u.exchange c c.sellPrice = .ok m := by
    refine ⟨m, ?_⟩
    simp only [LimitOrder.exchange, bind_eq_ok, Asset.less_eq_ok]
    exact ⟨_, h.worth.1, _, ⟨h.sell.symm, rfl⟩, hm⟩
  by_cases hlt : c.worthAtPrice < u.forSale
  · have hround : ∃ a, (Asset.mk c.worthAtPrice c.receiveAssetId).multiplyAndRoundUp c.sellPrice =
        .ok a := by
      rw [Asset.multiplyAndRoundUp_quote (a := ⟨c.worthAtPrice, c.receiveAssetId⟩) hne rfl]
      have hworth := mul_pos (lt_of_lt_of_le one_pos h.worth.2.1) hb
      refine ⟨_, convert_eq_ok.mpr ⟨hq, ?_, (h.fair_maker hlt rfl).maker_pays.2.trans hmaker, rfl⟩⟩
      simp only
      omega
    obtain ⟨a, ha⟩ := hround
    refine hstart (m := some (a, ⟨c.worthAtPrice, c.receiveAssetId⟩, false)) ?_
    rw [if_pos (decide_eq_true hlt), ha]
    rfl
  · have hbranch : ¬decide (c.worthAtPrice < u.forSale) = true := by simpa using hlt
    obtain ⟨y, hy⟩ : ∃ y, y = u.forSale * c.sellPrice.base.amount / c.sellPrice.quote.amount :=
      ⟨_, rfl⟩
    have hnonneg : 0 ≤ u.forSale * c.sellPrice.base.amount :=
      mul_nonneg (le_of_lt h.taker_pos) (le_of_lt hb)
    have hyle : y ≤ maxShareSupply := by
      by_cases hzero : y = 0
      · rw [hzero]
        decide
      · exact (h.fair_taker (not_lt.mp hlt) hy hzero rfl).maker_pays.2.trans hmaker
    have hmul : u.amountForSale.mul c.sellPrice = .ok ⟨y, c.sellAssetId⟩ := by
      rw [Asset.mul_quote (a := u.amountForSale) hne h.sell]
      exact convert_eq_ok.mpr ⟨hq, hnonneg, hy ▸ hyle, hy ▸ rfl⟩
    by_cases hzero : y = 0
    · refine hstart (m := none) ?_
      rw [if_neg hbranch, hmul]
      exact if_pos hzero
    · have hround : ∃ a, (Asset.mk y c.sellAssetId).multiplyAndRoundUp c.sellPrice = .ok a := by
        rw [Asset.multiplyAndRoundUp_base (a := ⟨y, c.sellAssetId⟩) rfl]
        have hfair := h.fair_taker (not_lt.mp hlt) hy hzero rfl
        have hyq := mul_pos (lt_of_lt_of_le one_pos hfair.maker_pays.1) hq
        refine ⟨_, convert_eq_ok.mpr ⟨hb, ?_, hfair.taker_pays.2.trans htaker, rfl⟩⟩
        simp only
        omega
      obtain ⟨a, ha⟩ := hround
      refine hstart (m := some (⟨y, c.sellAssetId⟩, a, true)) ?_
      rw [if_neg hbranch, hmul]
      refine (if_neg hzero).trans ?_
      rw [ha]
      rfl

theorem completes (h : Opposed L usd core u c) (hconv : ∃ m, u.exchange c c.sellPrice = .ok m) :
    ∃ r, L.matchLimitOrders usd core c.sellPrice = .ok r ∧
      ((r = (⟨true, false⟩, L) ∧
          u.forSale * c.sellPrice.base.amount / c.sellPrice.quote.amount = 0) ∨
        ∃ x y cull, FairExchange u c x y ∧
          L.fillLimitOrders usd core ⟨y, c.sellAssetId⟩ ⟨x, c.receiveAssetId⟩ cull = .ok r) := by
  obtain ⟨m, hm⟩ := hconv
  rcases h.exchange_cases hm with ⟨hlt, hround⟩ | ⟨hge, y, hy, hmul, hround⟩
  · have hfair := h.fair_maker hlt rfl
    obtain ⟨r, hr⟩ := h.fills hfair false (fun he => Bool.noConfusion he)
      fun _ => h.maker_left rfl hfair.maker_pays.2
    refine ⟨r, h.match_start ?_, Or.inr ⟨_, _, false, hfair, hr⟩⟩
    rw [if_pos (decide_eq_true hlt)]
    simp only [bind_eq_ok]
    exact ⟨_, hround, hr⟩
  · have hbranch : ¬decide (c.worthAtPrice < u.forSale) = true := by simpa using hge
    by_cases hzero : y = 0
    · refine ⟨(⟨true, false⟩, L), h.match_start ?_, Or.inl ⟨rfl, hy ▸ hzero⟩⟩
      rw [if_neg hbranch]
      simp only [bind_eq_ok]
      exact ⟨_, hmul, if_pos hzero⟩
    · have hfair := h.fair_taker hge hy hzero rfl
      obtain ⟨r, hr⟩ := h.fills hfair true
        (fun _ => h.taker_left hy rfl hfair.taker_pays.2) fun he => Bool.noConfusion he
      refine ⟨r, h.match_start ?_, Or.inr ⟨_, _, true, hfair, hr⟩⟩
      rw [if_neg hbranch]
      simp only [bind_eq_ok]
      refine ⟨_, hmul, ?_⟩
      rw [if_neg hzero]
      simp only [bind_eq_ok]
      exact ⟨_, hround hzero, hr⟩

end Opposed

/-! ### What the result says -/

theorem Ledger.fillLimitOrder_left {L : Ledger} {id : Nat} {o : LimitOrder} {pays receives : Asset}
    {cull : Bool} {r : Bool × Ledger} (ho : L.limitOrders.find id = some o)
    (h : L.fillLimitOrder id pays receives cull = .ok r) :
    r.2.limitOrders.find id = if r.1 then none else some (o.afterFill pays) := by
  have hfill := h
  simp only [fillLimitOrder, bind_eq_ok, demand_eq_ok, require_eq_ok, exists_const,
    Asset.minus_eq_ok] at h
  obtain ⟨o', ho', -, -, paid, hpaid, net, -, M1, h1, M, h2, h⟩ := h
  obtain rfl := Option.some.inj (ho.symm.trans ho')
  cases hr : r.1 with
  | true => exact fillLimitOrder_gone hfill hr
  | false =>
    have hM : M.limitOrders.find id = some o := by
      rw [((payMarketFees_funds hpaid).trans
        ((payOrder_funds h1).trans (payDeferredFees_funds h2))).limitOrders]
      exact ho
    split at h
    · obtain rfl := pure_eq_ok.mp h
      cases hr
    · split at h
      · rcases maybeCullSmallOrder_cases h with ⟨htrue, -⟩ | ⟨-, hsame, -⟩
        · rw [htrue] at hr
          cases hr
        · rw [hsame]
          exact Table.find_set_self hM
      · obtain rfl := pure_eq_ok.mp h
        exact Table.find_set_self hM

end Nestchain.Market
