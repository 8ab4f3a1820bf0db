import Nestchain.Market.Price

/-! Prices scaled by a ratio.  The code computes them with `boost::rational<int128_t>`, which keeps
fractions in lowest terms and throws when one is made with the denominator zero, and then makes
numerator and denominator small enough for an amount. -/

namespace Nestchain.Market

open Lib

/-- `boost::rational( n, d )` -/
def rational (n d : Int) : Attempt ℚ := do
  require (d ≠ 0)
  pure (Rat.divInt n d)

/-- The fraction does not fit in two amounts. -/
def TooLarge (q : ℚ) : Prop := maxShareSupply < q.num ∨ maxShareSupply < q.den

instance (q : ℚ) : Decidable (TooLarge q) := inferInstanceAs (Decidable (_ ∨ _))

/-- The size of a fraction, which goes down in every round of the loops below. -/
def size (q : ℚ) : Nat := q.num.natAbs + q.den

theorem size_mkRat_le (n : Int) {d : Nat} (hd : 0 < d) : size (mkRat n d) ≤ n.natAbs + d := by
  have hd0 : d ≠ 0 := Nat.ne_of_gt hd
  have hnum : (mkRat n d).num.natAbs ≤ n.natAbs := by
    rw [Rat.num_mkRat, if_neg hd0]
    exact Int.natAbs_ediv_le_natAbs _ _
  have hden : (mkRat n d).den ≤ d := by
    rw [Rat.den_mkRat, if_neg hd0]
    exact Nat.div_le_self _ _
  exact Nat.add_le_add hnum hden

/-- A round of a loop that makes fractions smaller and keeps them positive. -/
structure Halving where
  step : ℚ → ℚ
  size_step : ∀ q, TooLarge q → size (step q) < size q
  step_pos : ∀ q, 0 < q.num → 0 < (step q).num

/-- The loop: rounds until the fraction fits. -/
def Halving.fit (h : Halving) (q : ℚ) : ℚ :=
  if _hq : TooLarge q then h.fit (h.step q) else q
termination_by size q
decreasing_by exact h.size_step q _hq

theorem Halving.fit_not_tooLarge (h : Halving) (q : ℚ) : ¬TooLarge (h.fit q) := by
  induction q using Halving.fit.induct h with
  | case1 q hq ih =>
    rw [Halving.fit, dif_pos hq]
    exact ih
  | case2 q hq =>
    rw [Halving.fit, dif_neg hq]
    exact hq

theorem Halving.fit_eq_self (h : Halving) {q : ℚ} (hq : ¬TooLarge q) : h.fit q = q := by
  rw [Halving.fit, dif_neg hq]

theorem Halving.fit_pos (h : Halving) (q : ℚ) (hpos : 0 < q.num) : 0 < (h.fit q).num := by
  induction q using Halving.fit.induct h with
  | case1 q hq ih =>
    rw [Halving.fit, dif_pos hq]
    exact ih (h.step_pos q hpos)
  | case2 q hq =>
    rw [Halving.fit, dif_neg hq]
    exact hpos

theorem num_mkRat_pos {n : Int} {d : Nat} (hn : 0 < n) (hd : 0 < d) : 0 < (mkRat n d).num := by
  rw [Rat.num_pos, Rat.mkRat_eq_div]
  exact div_pos (by exact_mod_cast hn) (by exact_mod_cast hd)

/-- The loop of `price::call_price`: halve and add one. -/
def callPriceHalving : Halving where
  step q := mkRat (q.num / 2 + 1) (q.den / 2 + 1)
  size_step q hq := by
    refine (size_mkRat_le _ (Nat.succ_pos _)).trans_lt ?_
    have hden := q.den_pos
    simp only [TooLarge, maxShareSupply] at hq
    simp only [size]
    omega
  step_pos q hq := num_mkRat_pos (by omega) (Nat.succ_pos _)

/-- The loop of `price_feed::max_short_squeeze_price`: halve and round up. -/
def shortSqueezeHalving : Halving where
  step q := mkRat (q.num / 2 + q.num % 2) (q.den / 2 + q.den % 2)
  size_step q hq := by
    have hden := q.den_pos
    refine (size_mkRat_le _ (by omega)).trans_lt ?_
    simp only [TooLarge, maxShareSupply] at hq
    simp only [size]
    omega
  step_pos q hq := by
    have hden := q.den_pos
    exact num_mkRat_pos (by omega) (by omega)

/-- `price::call_price`: the collateral over the debt times the ratio. -/
def Price.callPrice (debt collateral : Asset) (collateralRatio : Nat) : Attempt Price := do
  let swan ← rational debt.amount collateral.amount
  let cp := callPriceHalving.fit (swan * mkRat collateralRatio collateralRatioDenom)
  Price.ofAssets ⟨cp.den, collateral.assetId⟩ ⟨cp.num, debt.assetId⟩

/-- A price whose amounts are in `1..GRAPHENE_MAX_SHARE_SUPPLY`. -/
structure Price.InRange (p : Price) : Prop where
  base_pos : 0 < p.base.amount
  base_le : p.base.amount ≤ maxShareSupply
  quote_pos : 0 < p.quote.amount
  quote_le : p.quote.amount ≤ maxShareSupply

theorem Price.assets_of_le {low high p : Price} (hbase : low.base.assetId = high.base.assetId)
    (hquote : low.quote.assetId = high.quote.assetId) (h : low ≤ p) (h' : p ≤ high) :
    p.base.assetId = low.base.assetId ∧ p.quote.assetId = low.quote.assetId := by
  have h1 : ¬(p.base.assetId < low.base.assetId ∨ (p.base.assetId = low.base.assetId ∧
    (p.quote.assetId < low.quote.assetId ∨ _))) := h
  have h2 : ¬(high.base.assetId < p.base.assetId ∨ (high.base.assetId = p.base.assetId ∧
    (high.quote.assetId < p.quote.assetId ∨ _))) := h'
  rw [← hbase, ← hquote] at h2
  simp only [not_or, not_and_or, not_lt] at h1 h2
  have heq : p.base.assetId = low.base.assetId := le_antisymm h2.1 h1.1
  refine ⟨heq, ?_⟩
  rcases h1.2 with hne | ⟨hq, -⟩
  · exact absurd heq hne
  · rcases h2.2 with hne | ⟨hq', -⟩
    · exact absurd heq.symm hne
    · exact le_antisymm hq' hq

theorem Price.assets_of_between {base quote : AssetId} {low high p : Price}
    (hlow : Price.smallest base quote = .ok low) (hhigh : Price.greatest base quote = .ok high)
    (h : low ≤ p) (h' : p ≤ high) : p.base.assetId = base ∧ p.quote.assetId = quote := by
  simp only [Price.smallest, Price.greatest, Price.ofAssets_eq_ok] at hlow hhigh
  have hassets := Price.assets_of_le (by rw [hlow.2, hhigh.2]) (by rw [hlow.2, hhigh.2]) h h'
  rwa [hlow.2] at hassets

theorem Price.InRange.between {low high p : Price} (h : p.InRange)
    (hlow : Price.smallest p.base.assetId p.quote.assetId = .ok low)
    (hhigh : Price.greatest p.base.assetId p.quote.assetId = .ok high) : low ≤ p ∧ p ≤ high := by
  simp only [Price.smallest, Price.greatest, Price.ofAssets_eq_ok] at hlow hhigh
  obtain ⟨-, rfl⟩ := hlow
  obtain ⟨-, rfl⟩ := hhigh
  have hmax : 0 < maxShareSupply := by decide
  refine ⟨fun hlt => ?_, fun hlt => ?_⟩
  · rcases hlt with hlt | ⟨-, hlt | ⟨-, hlt⟩⟩
    · exact Nat.lt_irrefl _ hlt
    · exact Nat.lt_irrefl _ hlt
    · have hlt' : maxShareSupply * p.base.amount < p.quote.amount * 1 := hlt
      nlinarith [h.base_pos, h.quote_le]
  · rcases hlt with hlt | ⟨-, hlt | ⟨-, hlt⟩⟩
    · exact Nat.lt_irrefl _ hlt
    · exact Nat.lt_irrefl _ hlt
    · have hlt' : p.quote.amount * maxShareSupply < 1 * p.base.amount := hlt
      nlinarith [h.quote_pos, h.base_le]

theorem Price.callPrice_eq_ok {debt collateral : Asset} {r : Nat} {p : Price} :
    Price.callPrice debt collateral r = .ok p ↔ collateral.amount ≠ 0 ∧
      collateral.assetId ≠ debt.assetId ∧ p =
        ⟨⟨(callPriceHalving.fit (Rat.divInt debt.amount collateral.amount *
            mkRat r collateralRatioDenom)).den, collateral.assetId⟩,
          ⟨(callPriceHalving.fit (Rat.divInt debt.amount collateral.amount *
            mkRat r collateralRatioDenom)).num, debt.assetId⟩⟩ := by
  simp only [Price.callPrice, rational, bind_eq_ok, require_eq_ok, pure_eq_ok, exists_const,
    Price.ofAssets_eq_ok, and_assoc]
  constructor
  · rintro ⟨swan, hne, rfl, hid, rfl⟩
    exact ⟨hne, hid, rfl⟩
  · rintro ⟨hne, hid, rfl⟩
    exact ⟨_, hne, rfl, hid, rfl⟩

theorem Price.callPrice_ids {debt collateral : Asset} {r : Nat} {p : Price}
    (h : Price.callPrice debt collateral r = .ok p) :
    collateral.assetId ≠ debt.assetId ∧ p.base.assetId = collateral.assetId ∧
      p.quote.assetId = debt.assetId ∧ collateral.amount ≠ 0 := by
  obtain ⟨hne, hid, rfl⟩ := Price.callPrice_eq_ok.mp h
  exact ⟨hid, rfl, rfl, hne⟩

theorem Price.callPrice_inRange {debt collateral : Asset} {r : Nat} {p : Price}
    (h : Price.callPrice debt collateral r = .ok p) (hd : 0 < debt.amount)
    (hc : 0 < collateral.amount) (hr : 0 < r) : p.InRange := by
  obtain ⟨-, -, rfl⟩ := Price.callPrice_eq_ok.mp h
  have hpos : 0 < (Rat.divInt debt.amount collateral.amount *
      mkRat r collateralRatioDenom).num := by
    rw [Rat.num_pos, Rat.divInt_eq_div, Rat.mkRat_eq_div]
    refine mul_pos (div_pos ?_ ?_) (div_pos ?_ ?_)
    · exact_mod_cast hd
    · exact_mod_cast hc
    · exact_mod_cast hr
    · norm_num [collateralRatioDenom]
  have hfit := callPriceHalving.fit_not_tooLarge
    (Rat.divInt debt.amount collateral.amount * mkRat r collateralRatioDenom)
  simp only [TooLarge, not_or, not_lt] at hfit
  exact ⟨Int.natCast_pos.mpr (Rat.den_pos _), hfit.2, callPriceHalving.fit_pos _ hpos, hfit.1⟩

/-! ### Scaling by a ratio -/

/-- The loop of `price * ratio`: the fraction that it ends with and whether it was halved. -/
def scaleFit (cp : ℚ) (shrinked : Bool) : ℚ × Bool :=
  if hq : TooLarge cp then
    if cp.num = 1 then (mkRat 1 maxShareSupply.toNat, shrinked)
    else if hd : cp.den = 1 then (mkRat maxShareSupply 1, shrinked)
    else scaleFit (mkRat (cp.num / 2) (cp.den / 2)) true
  else (cp, shrinked)
termination_by size cp
decreasing_by
  have hden := cp.den_pos
  refine (size_mkRat_le _ (by omega)).trans_lt ?_
  simp only [TooLarge, maxShareSupply] at hq
  simp only [size]
  omega

/-- The choice between the halved fraction `cp` and the accurate `ocp` with the smaller side rounded
to one. -/
def scaleNearest (ocp cp : ℚ) : ℚ :=
  let n := if (ocp.den : Int) < ocp.num then min (ocp.num / ocp.den) maxShareSupply else 1
  let d := if (ocp.den : Int) < ocp.num then 1 else min (ocp.den / ocp.num) maxShareSupply
  let ncp := Rat.divInt n d
  if n = maxShareSupply ∨ d = maxShareSupply then ncp
  else if |ncp - ocp| < |cp - ocp| then ncp else cp

/-- `price * ratio` -/
def Price.scale (p : Price) (r : ℚ) : Attempt Price := do
  require p.Valid
  require (0 < r.num)
  if r.num = r.den then pure p
  else do
    let ocp := Rat.divInt p.base.amount p.quote.amount * r
    let fitted := scaleFit ocp false
    let cp := if fitted.2 then scaleNearest ocp fitted.1 else fitted.1
    let np ← Price.ofAssets ⟨cp.num, p.base.assetId⟩ ⟨cp.den, p.quote.assetId⟩
    let np := if (r.den < r.num ∧ np < p) ∨ (r.num < r.den ∧ p < np) then p else np
    require np.Valid
    pure np

/-- `price / ratio` -/
def Price.unscale (p : Price) (r : ℚ) : Attempt Price := do
  let inverse ← rational r.den r.num
  p.scale inverse

theorem scaleFit_pos {cp : ℚ} (h : 0 < cp.num) (shrinked : Bool) :
    0 < (scaleFit cp shrinked).1.num := by
  induction cp, shrinked using scaleFit.induct with
  | case1 cp shrinked hq hnum =>
    rw [scaleFit, dif_pos hq, if_pos hnum]
    exact num_mkRat_pos (by decide) (by decide)
  | case2 cp shrinked hq hnum hden =>
    rw [scaleFit, dif_pos hq, if_neg hnum, dif_pos hden]
    exact num_mkRat_pos (by decide) (by decide)
  | case3 cp shrinked hq hnum hden ih =>
    rw [scaleFit, dif_pos hq, if_neg hnum, dif_neg hden]
    have hpos := cp.den_pos
    exact ih (num_mkRat_pos (by omega) (by omega))
  | case4 cp shrinked hq =>
    rw [scaleFit, dif_neg hq]
    exact h

theorem scaleNearest_pos {ocp cp : ℚ} (hocp : 0 < ocp.num) (hcp : 0 < cp.num) :
    0 < (scaleNearest ocp cp).num := by
  have hden : (0 : Int) < ocp.den := Int.natCast_pos.mpr ocp.den_pos
  have hmax : 0 < maxShareSupply := by decide
  have hncp : ∀ n d : Int, 0 < n → 0 < d → 0 < (Rat.divInt n d).num := by
    intro n d hn hd
    rw [Rat.num_pos, Rat.divInt_eq_div]
    exact div_pos (by exact_mod_cast hn) (by exact_mod_cast hd)
  have hpos : 0 < (Rat.divInt
      (if (ocp.den : Int) < ocp.num then min (ocp.num / ocp.den) maxShareSupply else 1)
      (if (ocp.den : Int) < ocp.num then 1 else min (ocp.den / ocp.num) maxShareSupply)).num := by
    split
    · rename_i hlt
      refine hncp _ _ (lt_min ((Int.le_ediv_iff_mul_le hden).mpr (by omega)) hmax) Int.one_pos
    · rename_i hge
      refine hncp _ _ Int.one_pos (lt_min ((Int.le_ediv_iff_mul_le hocp).mpr (by omega)) hmax)
  unfold scaleNearest
  dsimp only
  generalize (if (ocp.den : Int) < ocp.num then min (ocp.num / ocp.den) maxShareSupply else 1) = n
    at hpos ⊢
  generalize (if (ocp.den : Int) < ocp.num then 1 else min (ocp.den / ocp.num) maxShareSupply) = d
    at hpos ⊢
  split
  · exact hpos
  · split
    · exact hpos
    · exact hcp

theorem Price.scale_ok {p : Price} (hp : p.Valid) {r : ℚ} (hr : 0 < r) : ∃ q, p.scale r = .ok q ∧
    q.Valid ∧ q.base.assetId = p.base.assetId ∧ q.quote.assetId = p.quote.assetId := by
  obtain ⟨hbase, hquote, hne⟩ := hp
  have hnum : 0 < r.num := Rat.num_pos.mpr hr
  have hocp : 0 < (Rat.divInt p.base.amount p.quote.amount * r).num := by
    rw [Rat.num_pos, Rat.divInt_eq_div]
    exact mul_pos (div_pos (by exact_mod_cast hbase) (by exact_mod_cast hquote)) hr
  by_cases hone : r.num = r.den
  · refine ⟨p, ?_, ⟨hbase, hquote, hne⟩, rfl, rfl⟩
    simp only [Price.scale, bind_eq_ok, require_eq_ok, exists_const, if_pos hone]
    exact ⟨⟨hbase, hquote, hne⟩, hnum, rfl⟩
  · have hfit := scaleFit_pos hocp false
    have hcp : 0 < (if (scaleFit (Rat.divInt p.base.amount p.quote.amount * r) false).2 then
        scaleNearest (Rat.divInt p.base.amount p.quote.amount * r)
          (scaleFit (Rat.divInt p.base.amount p.quote.amount * r) false).1
        else (scaleFit (Rat.divInt p.base.amount p.quote.amount * r) false).1).num := by
      split
      · exact scaleNearest_pos hocp hfit
      · exact hfit
    simp only [Price.scale, bind_eq_ok, require_eq_ok, exists_const, if_neg hone, pure_eq_ok,
      Price.ofAssets_eq_ok]
    generalize (if (scaleFit (Rat.divInt p.base.amount p.quote.amount * r) false).2 then
      scaleNearest (Rat.divInt p.base.amount p.quote.amount * r)
        (scaleFit (Rat.divInt p.base.amount p.quote.amount * r) false).1
      else (scaleFit (Rat.divInt p.base.amount p.quote.amount * r) false).1) = cp at hcp ⊢
    have hnp : Price.Valid ⟨⟨cp.num, p.base.assetId⟩, ⟨cp.den, p.quote.assetId⟩⟩ :=
      ⟨hcp, Int.natCast_pos.mpr cp.den_pos, hne⟩
    refine ⟨_, ⟨⟨hbase, hquote, hne⟩, hnum, _, ⟨hne, rfl⟩, ?_, rfl⟩, ?_⟩
    · split
      · exact ⟨hbase, hquote, hne⟩
      · exact hnp
    · split
      · exact ⟨⟨hbase, hquote, hne⟩, rfl, rfl⟩
      · exact ⟨hnp, rfl, rfl⟩

theorem Price.unscale_ok {p : Price} (hp : p.Valid) {r : ℚ} (hr : 0 < r) :
    ∃ q, p.unscale r = .ok q ∧
    q.Valid ∧ q.base.assetId = p.base.assetId ∧ q.quote.assetId = p.quote.assetId := by
  have hnum : 0 < r.num := Rat.num_pos.mpr hr
  have hinverse : 0 < Rat.divInt r.den r.num := by
    rw [Rat.divInt_eq_div]
    exact div_pos (by exact_mod_cast r.den_pos) (by exact_mod_cast hnum)
  obtain ⟨q, hq, hrest⟩ := Price.scale_ok hp hinverse
  refine ⟨q, ?_, hrest⟩
  simp only [Price.unscale, rational, bind_eq_ok, require_eq_ok, pure_eq_ok, exists_const]
  exact ⟨_, ⟨ne_of_gt hnum, rfl⟩, hq⟩

end Nestchain.Market
