import Nestchain.Market.CallPrices

/-! What the loops that make fractions smaller do to their value.  A round halves the two parts of a
fraction and rounds them up, which changes the value when a part is small.  What all rounds together
add to a part is bounded by the parts of the fraction. -/

namespace Nestchain.Market

open Lib

/-! ### The roundings of a loop -/

namespace Halving

variable {h : Halving} {q : ℚ} {c : Int}

/-- A round halves the two parts of a fraction and adds at most `c / 2` to each. -/
def RoundsWithin (h : Halving) (c : Int) : Prop :=
  ∀ q : ℚ, 0 < q.num → TooLarge q → ∃ n d : Int, 0 < n ∧ 0 < d ∧ h.step q = n / d ∧
    q.num ≤ 2 * n ∧ 2 * n ≤ q.num + c ∧ q.den ≤ 2 * d ∧ 2 * d ≤ q.den + c

/-- What the rounds of a loop may add to each part of a fraction.  The first round adds `c` at most,
each further one at least twice as much, and the last one is due before the larger part has been
divided by more than its quotient with the greatest amount. -/
def slack (c : Int) (q : ℚ) : Int :=
  if TooLarge q then
    c * (2 * ((max q.num q.den - c) / (maxShareSupply + 1 - c)) - 1)
  else 0

theorem slack_of_fits (hq : ¬TooLarge q) : slack c q = 0 := if_neg hq

theorem one_le_rounds (hc' : c ≤ 2) (hq : TooLarge q) :
    1 ≤ (max q.num q.den - c) / (maxShareSupply + 1 - c) := by
  have hlarge : maxShareSupply < max q.num q.den := lt_max_iff.mpr hq
  have hM : 0 < maxShareSupply + 1 - c := by simp only [maxShareSupply]; omega
  exact (Int.le_ediv_iff_mul_le hM).mpr (by omega)

theorem slack_step (hc : 1 ≤ c) (hc' : c ≤ 2) (hq : TooLarge q) {n d : Int} (hd : 0 < d)
    (hnum : 2 * n ≤ q.num + c) (hden : 2 * d ≤ q.den + c) :
    ∃ g : Int, 0 < g ∧ n = g * (n / d : ℚ).num ∧ d = g * (n / d : ℚ).den ∧
      c + 2 * (g * slack c (n / d)) ≤ slack c q := by
  obtain ⟨g, hgn, hgd⟩ := Rat.exists_eq_mul_div_num_and_eq_mul_div_den n (ne_of_gt hd)
  set q' : ℚ := n / d
  have hden' : (0 : Int) < q'.den := Int.natCast_pos.mpr q'.den_pos
  have hg : 0 < g := by
    by_contra hle
    have := mul_nonpos_of_nonpos_of_nonneg (not_lt.mp hle) (le_of_lt hden')
    omega
  have hM : 0 < maxShareSupply + 1 - c := by simp only [maxShareSupply]; omega
  have hone := one_le_rounds hc' hq
  set M := maxShareSupply + 1 - c with hMdef
  set s := (max q.num q.den - c) / M with hs
  have hslack : slack c q = c * (2 * s - 1) := if_pos hq
  refine ⟨g, hg, hgn, hgd, ?_⟩
  by_cases hq' : TooLarge q'
  · set s' := (max q'.num q'.den - c) / M with hs'
    have hslack' : slack c q' = c * (2 * s' - 1) := if_pos hq'
    have hparts : 2 * (g * max q'.num q'.den) ≤ max q.num q.den + c := by
      rw [mul_max_of_nonneg _ _ (le_of_lt hg), ← hgn, ← hgd]
      omega
    have hrounds : 2 * g * s' ≤ s := by
      refine (Int.le_ediv_iff_mul_le hM).mpr ?_
      have hs'M : s' * M ≤ max q'.num q'.den - c := Int.ediv_mul_le _ (ne_of_gt hM)
      calc 2 * g * s' * M = 2 * g * (s' * M) := mul_assoc _ _ _
        _ ≤ 2 * g * (max q'.num q'.den - c) :=
            Int.mul_le_mul_of_nonneg_left hs'M (by omega)
        _ = 2 * (g * max q'.num q'.den) - 2 * (g * c) := by ring
        _ ≤ max q.num q.den - c := by nlinarith
    rw [hslack, hslack']
    calc c + 2 * (g * (c * (2 * s' - 1))) = c * (2 * (2 * g * s') + 1 - 2 * g) := by ring
      _ ≤ c * (2 * s - 1) := Int.mul_le_mul_of_nonneg_left (by omega) (by omega)
  · rw [hslack, slack_of_fits hq', mul_zero, mul_zero, add_zero]
    exact le_mul_of_one_le_right (by omega) (by omega)

theorem fit_within (hc : 1 ≤ c) (hc' : c ≤ 2) (hwithin : h.RoundsWithin c) (hpos : 0 < q.num) :
    h.fit q * q.den ≤ q.num + slack c q ∧ q.num ≤ h.fit q * (q.den + slack c q) := by
  induction q using Halving.fit.induct h with
  | case2 q hfits =>
    rw [fit_eq_self h hfits, slack_of_fits hfits]
    have hvalue : q * q.den = q.num := Rat.mul_den_eq_num q
    exact ⟨by simp [hvalue], by simp [hvalue]⟩
  | case1 q hq ih =>
    obtain ⟨n, d, hn, hd, hstep, hnum, hnum', hden, hden'⟩ := hwithin q hpos hq
    obtain ⟨g, hg, hgn, hgd, hslack⟩ := slack_step hc hc' hq hd hnum' hden'
    rw [fit, dif_pos hq]
    obtain ⟨hup, hdown⟩ := ih (h.step_pos q hpos)
    have hfit : 0 < h.fit (h.step q) :=
      Rat.num_pos.mp (h.fit_pos _ (h.step_pos q hpos))
    rw [hstep] at hup hdown hfit ⊢
    -- The bounds for the reduced fraction, with the common factor again.
    generalize h.fit (n / d) = x at hup hdown hfit ⊢
    generalize slack c (n / d) = t at hup hdown hslack
    generalize ((n : ℚ) / d).num = n' at hup hdown hgn
    generalize ((n : ℚ) / d).den = d' at hup hdown hgd
    have hgQ : (0 : ℚ) < g := by exact_mod_cast hg
    have hnQ : (n : ℚ) = g * n' := by exact_mod_cast hgn
    have hdQ : (d : ℚ) = g * d' := by exact_mod_cast hgd
    have hslackQ : (c : ℚ) + 2 * (g * t) ≤ slack c q := by exact_mod_cast hslack
    have hnumQ : (q.num : ℚ) ≤ 2 * n := by exact_mod_cast hnum
    have hnumQ' : 2 * (n : ℚ) ≤ q.num + c := by exact_mod_cast hnum'
    have hdenQ : (q.den : ℚ) ≤ 2 * d := by exact_mod_cast hden
    have hdenQ' : 2 * (d : ℚ) ≤ q.den + c := by exact_mod_cast hden'
    constructor
    · calc x * q.den ≤ x * (2 * d) := mul_le_mul_of_nonneg_left hdenQ (le_of_lt hfit)
        _ = 2 * (g * (x * d')) := by rw [hdQ]; ring
        _ ≤ 2 * (g * (n' + t)) := by linarith [mul_le_mul_of_nonneg_left hup (le_of_lt hgQ)]
        _ = 2 * n + 2 * (g * t) := by rw [hnQ]; ring
        _ ≤ q.num + slack c q := by linarith
    · calc (q.num : ℚ) ≤ 2 * (g * n') := hnQ ▸ hnumQ
        _ ≤ 2 * (g * (x * (d' + t))) := by
            linarith [mul_le_mul_of_nonneg_left hdown (le_of_lt hgQ)]
        _ = x * (2 * d + 2 * (g * t)) := by rw [hdQ]; ring
        _ ≤ x * (q.den + slack c q) := mul_le_mul_of_nonneg_left (by linarith) (le_of_lt hfit)

theorem slack_nonneg (hc : 1 ≤ c) (hc' : c ≤ 2) (q : ℚ) : 0 ≤ slack c q := by
  unfold slack
  split
  · rename_i hq
    exact mul_nonneg (by omega) (by have := one_le_rounds hc' hq; omega)
  · exact le_rfl

theorem parts_le {n d : Int} (hn : 0 < n) (hd : 0 < d) (hq : q = n / d) :
    q.num ≤ n ∧ (q.den : Int) ≤ d := by
  subst hq
  rw [← Rat.divInt_eq_div]
  exact ⟨Int.le_of_dvd hn (Rat.num_dvd n (ne_of_gt hd)), Int.le_of_dvd hd (Rat.den_dvd n d)⟩

theorem fit_of_step {n d : Int} (hq : TooLarge q) (hstep : h.step q = n / d) (hn : 0 < n)
    (hd : 0 < d) (hnum : n ≤ maxShareSupply) (hden : d ≤ maxShareSupply) :
    h.fit q = n / d := by
  have hfits : ¬TooLarge ((n : ℚ) / d) := by
    obtain ⟨hnum', hden'⟩ := parts_le hn hd rfl
    rw [TooLarge, not_or, not_lt, not_lt]
    exact ⟨hnum'.trans hnum, hden'.trans hden⟩
  rw [fit, dif_pos hq, hstep, fit_eq_self h hfits]

end Halving

theorem shortSqueezeHalving_within : shortSqueezeHalving.RoundsWithin 1 := by
  intro q hpos _
  have hden := q.den_pos
  refine ⟨q.num / 2 + q.num % 2, ((q.den / 2 + q.den % 2 : ℕ) : Int), by omega, by omega, ?_,
    by omega, by omega, by omega, by omega⟩
  exact Rat.mkRat_eq_div _ _

theorem callPriceHalving_within : callPriceHalving.RoundsWithin 2 := by
  intro q hpos hq
  have hden := q.den_pos
  refine ⟨q.num / 2 + 1, ((q.den / 2 + 1 : ℕ) : Int), by omega, by omega, ?_, by omega, by omega,
    by omega, by omega⟩
  rw [Int.cast_natCast]
  exact Rat.mkRat_eq_div (q.num / 2 + 1) (q.den / 2 + 1)

/-! ### The ratio of a price -/

namespace Price

def ratio (p : Price) : ℚ := p.base.amount / p.quote.amount

theorem le_iff_ratio {a b : Price} (hbase : a.base.assetId = b.base.assetId)
    (hquote : a.quote.assetId = b.quote.assetId) (ha : 0 < a.quote.amount)
    (hb : 0 < b.quote.amount) : a ≤ b ↔ a.ratio ≤ b.ratio := by
  rw [le_iff_mul hbase hquote, ratio, ratio,
    div_le_div_iff₀ (by exact_mod_cast ha) (by exact_mod_cast hb), mul_comm b.quote.amount,
    mul_comm a.quote.amount]
  exact_mod_cast Iff.rfl

theorem lt_iff_ratio {a b : Price} (hbase : a.base.assetId = b.base.assetId)
    (hquote : a.quote.assetId = b.quote.assetId) (ha : 0 < a.quote.amount)
    (hb : 0 < b.quote.amount) : a < b ↔ a.ratio < b.ratio := by
  rw [lt_iff_mul hbase hquote, ratio, ratio,
    div_lt_div_iff₀ (by exact_mod_cast ha) (by exact_mod_cast hb), mul_comm b.quote.amount,
    mul_comm a.quote.amount]
  exact_mod_cast Iff.rfl

theorem ratio_pos {p : Price} (hbase : 0 < p.base.amount) (hquote : 0 < p.quote.amount) :
    0 < p.ratio :=
  div_pos (by exact_mod_cast hbase) (by exact_mod_cast hquote)

theorem divInt_eq_ratio (p : Price) : Rat.divInt p.base.amount p.quote.amount = p.ratio :=
  Rat.divInt_eq_div _ _

end Price

/-! ### The squeeze limit -/

namespace PriceFeed

/-- The settlement price over the maximum short squeeze ratio. -/
def squeezeRatio (f : PriceFeed) : ℚ :=
  f.settlementPrice.ratio * (collateralRatioDenom / f.maximumShortSqueezeRatio)

/-- The settlement price has room for what the rounds may add to the squeeze ratio. -/
def HasRoom (f : PriceFeed) : Prop :=
  (f.squeezeRatio.num + Halving.slack 1 f.squeezeRatio) * f.settlementPrice.quote.amount ≤
    f.settlementPrice.base.amount * f.squeezeRatio.den

instance (f : PriceFeed) : Decidable f.HasRoom := inferInstanceAs (Decidable (_ ≤ _))

variable {f : PriceFeed}

theorem squeezeRatio_pos (h : f.settlementPrice.Valid) : 0 < f.squeezeRatio := by
  have hsqueeze := f.squeeze_range.1
  refine mul_pos (Price.ratio_pos h.1 h.2.1) (div_pos ?_ ?_)
  · norm_num [collateralRatioDenom]
  · exact_mod_cast (by omega : 0 < f.maximumShortSqueezeRatio)

theorem maxShortSqueezePrice_eq (h : f.settlementPrice.Valid) :
    f.maxShortSqueezePrice = .ok
      ⟨⟨(shortSqueezeHalving.fit f.squeezeRatio).num, f.settlementPrice.base.assetId⟩,
        ⟨(shortSqueezeHalving.fit f.squeezeRatio).den, f.settlementPrice.quote.assetId⟩⟩ := by
  simp only [maxShortSqueezePrice, rational, bind_eq_ok, require_eq_ok, pure_eq_ok, exists_const,
    Price.ofAssets_eq_ok]
  refine ⟨_, ⟨ne_of_gt h.2.1, rfl⟩, h.2.2, ?_⟩
  rw [Price.divInt_eq_ratio, Rat.mkRat_eq_div, squeezeRatio]
  rfl

theorem hasRoom_of_fits (h : f.settlementPrice.Valid) (hfits : ¬TooLarge f.squeezeRatio) :
    f.HasRoom := by
  have hsqueeze := f.squeeze_range.1
  have hden : (0 : ℚ) < f.squeezeRatio.den := by exact_mod_cast f.squeezeRatio.den_pos
  have hquote : (0 : ℚ) < f.settlementPrice.quote.amount := by exact_mod_cast h.2.1
  have hone : ((collateralRatioDenom : ℚ) / f.maximumShortSqueezeRatio) ≤ 1 := by
    refine (div_le_one₀ ?_).mpr ?_
    · exact_mod_cast (by omega : 0 < f.maximumShortSqueezeRatio)
    · exact_mod_cast (by simp only [collateralRatioDenom]; omega :
        collateralRatioDenom ≤ f.maximumShortSqueezeRatio)
  have hle : f.squeezeRatio ≤ f.settlementPrice.ratio :=
    mul_le_of_le_one_right (le_of_lt (Price.ratio_pos h.1 h.2.1)) hone
  rw [← Rat.num_div_den f.squeezeRatio, Price.ratio, div_le_div_iff₀ hden hquote] at hle
  rw [HasRoom, Halving.slack_of_fits hfits, add_zero]
  exact_mod_cast hle

def rounded : PriceFeed where
  settlementPrice := ⟨⟨1000001, 1⟩, ⟨999999999999998, 0⟩⟩
  maintenanceCollateralRatio := 1750
  maximumShortSqueezeRatio := 1500
  maintenance_range := PriceFeed.default.maintenance_range
  squeeze_range := PriceFeed.default.squeeze_range

/-- The least price that a feed can have, at the default squeeze ratio. -/
def lowest : PriceFeed where
  settlementPrice := ⟨⟨1, 1⟩, ⟨1000000000000000, 0⟩⟩
  maintenanceCollateralRatio := 1750
  maximumShortSqueezeRatio := 1500
  maintenance_range := PriceFeed.default.maintenance_range
  squeeze_range := PriceFeed.default.squeeze_range

end PriceFeed

/-! ### The order of the call prices -/

/-- The fractions of two positions are the same, or apart by as much as the rounds may add to
them. -/
def RoundingApart (small large : ℚ) : Prop :=
  small = large ∨ (small.num + Halving.slack 2 small) * (large.den + Halving.slack 2 large) ≤
    large.num * small.den

def OneRound (q : ℚ) : Prop := q.num < 2 * maxShareSupply ∧ q.den < 2 * maxShareSupply

/-- The fraction of a call price after one round at most. -/
def halvedOnce (q : ℚ) : ℚ := if TooLarge q then mkRat (q.num / 2 + 1) (q.den / 2 + 1) else q

section

variable {debt collateral debt' collateral' : Int} {ratio ratio' : Nat} {mia backing : AssetId}

theorem callRatio_eq : callRatio debt collateral ratio =
    debt * ratio / (collateral * collateralRatioDenom) := by
  rw [callRatio, Rat.divInt_eq_div, Rat.mkRat_eq_div, div_mul_div_comm]
  rfl

theorem callRatio_pos (hdebt : 0 < debt) (hcollateral : 0 < collateral) (hratio : 0 < ratio) :
    0 < callRatio debt collateral ratio := by
  rw [callRatio_eq]
  refine div_pos (mul_pos ?_ ?_) (mul_pos ?_ ?_)
  · exact_mod_cast hdebt
  · exact_mod_cast hratio
  · exact_mod_cast hcollateral
  · norm_num [collateralRatioDenom]

theorem callRatio_le (hcollateral : 0 < collateral) (hcollateral' : 0 < collateral')
    (h : collateral * (debt' * ratio') ≤ collateral' * (debt * ratio)) :
    callRatio debt' collateral' ratio' ≤ callRatio debt collateral ratio := by
  have hdenom : (0 : ℚ) < collateralRatioDenom := by norm_num [collateralRatioDenom]
  have hc : (0 : ℚ) < collateral := by exact_mod_cast hcollateral
  have hc' : (0 : ℚ) < collateral' := by exact_mod_cast hcollateral'
  have hQ : (collateral : ℚ) * (debt' * ratio') ≤ collateral' * (debt * ratio) := by
    exact_mod_cast h
  rw [callRatio_eq, callRatio_eq, div_le_div_iff₀ (mul_pos hc' hdenom) (mul_pos hc hdenom)]
  calc (debt' * ratio' : ℚ) * (collateral * collateralRatioDenom)
      = collateral * (debt' * ratio') * collateralRatioDenom := by ring
    _ ≤ collateral' * (debt * ratio) * collateralRatioDenom :=
        mul_le_mul_of_nonneg_right hQ (le_of_lt hdenom)
    _ = debt * ratio * (collateral' * collateralRatioDenom) := by ring

theorem Price.callPrice_of_fit {q : ℚ} (hne : backing ≠ mia) (hcollateral : 0 < collateral)
    (h : callPriceHalving.fit (callRatio debt collateral ratio) = q) :
    Price.callPrice ⟨debt, mia⟩ ⟨collateral, backing⟩ ratio =
      .ok ⟨⟨q.den, backing⟩, ⟨q.num, mia⟩⟩ := by
  subst h
  exact Price.callPrice_eq_ok.mpr ⟨ne_of_gt hcollateral, hne, rfl⟩

theorem Price.callPrice_total (hne : backing ≠ mia) (hdebt : 0 < debt)
    (hcollateral : 0 < collateral)
    (hratio : 0 < ratio) : ∃ p, Price.callPrice ⟨debt, mia⟩ ⟨collateral, backing⟩ ratio = .ok p ∧
      p.base.assetId = backing ∧ p.quote.assetId = mia ∧ p.InRange ∧
      p.ratio = (callPriceHalving.fit (callRatio debt collateral ratio))⁻¹ := by
  have hok : Price.callPrice ⟨debt, mia⟩ ⟨collateral, backing⟩ ratio = _ :=
    Price.callPrice_of_fit hne hcollateral rfl
  refine ⟨_, hok, rfl, rfl, Price.callPrice_inRange hok hdebt hcollateral hratio, ?_⟩
  exact (inv_div _ _).symm.trans (congrArg (·⁻¹) (Rat.num_div_den _))

theorem roundingApart_of_fits {small large : ℚ} (hle : small ≤ large) (hs : ¬TooLarge small)
    (hl : ¬TooLarge large) : RoundingApart small large := by
  right
  rw [Halving.slack_of_fits hs, Halving.slack_of_fits hl, add_zero, add_zero]
  exact (Rat.le_iff small large).mp hle

theorem RoundingApart.fit_le {small large : ℚ} (hsmall : 0 < small) (hlarge : 0 < large)
    (h : RoundingApart small large) : callPriceHalving.fit small ≤ callPriceHalving.fit large := by
  rcases h with rfl | h
  · exact le_rfl
  · have hup := (Halving.fit_within one_le_two le_rfl callPriceHalving_within
      (Rat.num_pos.mpr hsmall)).1
    have hdown := (Halving.fit_within one_le_two le_rfl callPriceHalving_within
      (Rat.num_pos.mpr hlarge)).2
    have hden : (0 : ℚ) < small.den := by exact_mod_cast small.den_pos
    have hroom : (0 : ℚ) < large.den + Halving.slack 2 large := by
      have := Halving.slack_nonneg one_le_two le_rfl large
      have := large.den_pos
      exact_mod_cast (by omega : 0 < (large.den : Int) + Halving.slack 2 large)
    have hQ : (small.num + Halving.slack 2 small : ℚ) * (large.den + Halving.slack 2 large) ≤
        large.num * small.den := by exact_mod_cast h
    calc callPriceHalving.fit small
        ≤ (small.num + Halving.slack 2 small) / small.den := (le_div_iff₀ hden).mpr hup
      _ ≤ large.num / (large.den + Halving.slack 2 large) :=
          (div_le_div_iff₀ hden hroom).mpr hQ
      _ ≤ callPriceHalving.fit large := (div_le_iff₀ hroom).mpr hdown

theorem callPriceHalving_fit_once {q : ℚ} (hpos : 0 < q) (honce : OneRound q) :
    callPriceHalving.fit q = halvedOnce q := by
  obtain ⟨hnum, hden⟩ := honce
  rw [halvedOnce]
  split
  · rename_i hq
    have := Rat.num_pos.mpr hpos
    have hstep : callPriceHalving.step q =
        ((q.num / 2 + 1 : Int) : ℚ) / (((q.den / 2 + 1 : ℕ) : Int) : ℚ) := by
      rw [Int.cast_natCast]
      exact Rat.mkRat_eq_div (q.num / 2 + 1) (q.den / 2 + 1)
    exact (Halving.fit_of_step hq hstep (by omega) (by omega) (by omega) (by omega)).trans
      hstep.symm
  · rename_i hq
    exact Halving.fit_eq_self _ hq

/-- The call prices are in range, and those of two positions are in the order of their
collateralization, or of their ratios, when the fractions are apart; fractions that are not rounded
are.  Where one round is enough, the order is that of the halved fractions. -/
theorem call_price_orders (hne : backing ≠ mia) (hdebt : 0 < debt) (hcollateral : 0 < collateral)
    (hratio : 0 < ratio) (hdebt' : 0 < debt') (hcollateral' : 0 < collateral')
    (hratio' : 0 < ratio') :
    ∃ p p', Price.callPrice ⟨debt, mia⟩ ⟨collateral, backing⟩ ratio = .ok p ∧
      Price.callPrice ⟨debt', mia⟩ ⟨collateral', backing⟩ ratio' = .ok p' ∧
      p.InRange ∧ p'.InRange ∧
      (ratio = ratio' → collateral * debt' ≤ collateral' * debt →
        RoundingApart (callRatio debt' collateral' ratio') (callRatio debt collateral ratio) →
        p ≤ p') ∧
      (debt = debt' → collateral = collateral' → ratio' ≤ ratio →
        RoundingApart (callRatio debt' collateral' ratio') (callRatio debt collateral ratio) →
        p ≤ p') ∧
      (collateral * (debt' * ratio') ≤ collateral' * (debt * ratio) →
        ¬TooLarge (callRatio debt' collateral' ratio') →
        ¬TooLarge (callRatio debt collateral ratio) →
        RoundingApart (callRatio debt' collateral' ratio') (callRatio debt collateral ratio)) ∧
      (OneRound (callRatio debt' collateral' ratio') → OneRound (callRatio debt collateral ratio) →
        (p ≤ p' ↔ halvedOnce (callRatio debt' collateral' ratio') ≤
          halvedOnce (callRatio debt collateral ratio))) := by
  obtain ⟨p, hp, hbase, hquote, hrange, hvalue⟩ :=
    Price.callPrice_total hne hdebt hcollateral hratio
  obtain ⟨p', hp', hbase', hquote', hrange', hvalue'⟩ :=
    Price.callPrice_total hne hdebt' hcollateral' hratio'
  have hq := callRatio_pos hdebt hcollateral hratio
  have hq' := callRatio_pos hdebt' hcollateral' hratio'
  have hle : p ≤ p' ↔ callPriceHalving.fit (callRatio debt' collateral' ratio') ≤
      callPriceHalving.fit (callRatio debt collateral ratio) := by
    rw [Price.le_iff_ratio (hbase.trans hbase'.symm) (hquote.trans hquote'.symm) hrange.quote_pos
      hrange'.quote_pos, hvalue, hvalue', inv_le_inv₀
      (Rat.num_pos.mp (callPriceHalving.fit_pos _ (Rat.num_pos.mpr hq)))
      (Rat.num_pos.mp (callPriceHalving.fit_pos _ (Rat.num_pos.mpr hq')))]
  refine ⟨p, p', hp, hp', hrange, hrange', fun _ _ h => hle.mpr (h.fit_le hq' hq),
    fun _ _ _ h => hle.mpr (h.fit_le hq' hq),
    fun h hs hl => roundingApart_of_fits (callRatio_le hcollateral hcollateral' h) hs hl,
    fun honce' honce => ?_⟩
  rw [hle, callPriceHalving_fit_once hq' honce', callPriceHalving_fit_once hq honce]

end

/-- Two positions whose call prices are rounded. -/
theorem call_price_orders_rounded : TooLarge (callRatio 1000001 999999999999998 1750) ∧
    ∃ p p', Price.callPrice ⟨1000003, 1⟩ ⟨999999999999999, 0⟩ 1750 = .ok p ∧
      Price.callPrice ⟨1000001, 1⟩ ⟨999999999999998, 0⟩ 1750 = .ok p' ∧ p ≤ p' := by
  obtain ⟨p, p', hp, hp', -, -, hposition, -⟩ := call_price_orders
    (by decide : (0 : AssetId) ≠ 1) (by decide : (0 : Int) < 1000003)
    (by decide : (0 : Int) < 999999999999999) (by decide : 0 < 1750)
    (by decide : (0 : Int) < 1000001) (by decide : (0 : Int) < 999999999999998)
    (by decide : 0 < 1750)
  exact ⟨by decide +kernel, p, p', hp, hp', hposition rfl (by decide) (Or.inr (by decide +kernel))⟩

/-- A position whose call price the loop rounds down, below that of a position with less collateral
and below its own call price for a greater ratio. -/
theorem call_price_turned_around :
    Price.callPrice ⟨1, 1⟩ ⟨1000000000000000, 0⟩ 1500 = .ok ⟨⟨500000000000001, 0⟩, ⟨2, 1⟩⟩ ∧
    Price.callPrice ⟨1, 1⟩ ⟨900000000000000, 0⟩ 1500 = .ok ⟨⟨600000000000000, 0⟩, ⟨1, 1⟩⟩ ∧
    Price.callPrice ⟨1, 1⟩ ⟨1000000000000000, 0⟩ 1600 = .ok ⟨⟨625000000000000, 0⟩, ⟨1, 1⟩⟩ ∧
    (⟨⟨500000000000001, 0⟩, ⟨2, 1⟩⟩ : Price) < ⟨⟨600000000000000, 0⟩, ⟨1, 1⟩⟩ ∧
    (⟨⟨500000000000001, 0⟩, ⟨2, 1⟩⟩ : Price) < ⟨⟨625000000000000, 0⟩, ⟨1, 1⟩⟩ := by
  have hfirst : callPriceHalving.step (callRatio 1 1000000000000000 1500) =
      mkRat 2 1000000000000001 := by decide +kernel
  have hsecond : callPriceHalving.step (mkRat 2 1000000000000001) = mkRat 2 500000000000001 := by
    decide +kernel
  have hfit : callPriceHalving.fit (callRatio 1 1000000000000000 1500) =
      mkRat 2 500000000000001 := by
    rw [Halving.fit, dif_pos (by decide +kernel), hfirst, Halving.fit, dif_pos (by decide +kernel),
      hsecond, Halving.fit_eq_self _ (by decide +kernel)]
  have hless := callPriceHalving.fit_eq_self
    (by decide +kernel : ¬TooLarge (callRatio 1 900000000000000 1500))
  have hgreater := callPriceHalving.fit_eq_self
    (by decide +kernel : ¬TooLarge (callRatio 1 1000000000000000 1600))
  refine ⟨(Price.callPrice_of_fit (by decide) (by decide) hfit).trans (by decide +kernel),
    (Price.callPrice_of_fit (by decide) (by decide) hless).trans (by decide +kernel),
    (Price.callPrice_of_fit (by decide) (by decide) hgreater).trans (by decide +kernel),
    by decide +kernel, by decide +kernel⟩

end Nestchain.Market
