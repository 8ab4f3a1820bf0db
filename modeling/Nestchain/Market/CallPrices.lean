import Nestchain.Market.PriceOrder
import Nestchain.Market.Feeds

/-! The stored call prices.  The call price of a position is computed with the maintenance ratio of
the time when the position was touched last, so in a run it stays related to the ratio of the
current feed only as far as the feeds let it. -/

namespace Nestchain.Market

open Lib Ledger

/-! ### Call prices that are not rounded -/

/-- The debt over the collateral, times a ratio. -/
def callRatio (debt collateral : Int) (ratio : Nat) : ℚ :=
  Rat.divInt debt collateral * mkRat ratio collateralRatioDenom

/-- The call price for a ratio is not rounded. -/
def CallOrder.Unrounded (c : CallOrder) (ratio : Nat) : Prop :=
  ¬TooLarge (callRatio c.debt c.collateral ratio)

instance (c : CallOrder) (ratio : Nat) : Decidable (c.Unrounded ratio) :=
  inferInstanceAs (Decidable (¬_))

theorem CallOrder.unrounded_of_le {c : CallOrder} {ratio : Nat} (hdebt : 0 ≤ c.debt)
    (hcollateral : 0 < c.collateral) (hnum : c.debt * ratio ≤ maxShareSupply)
    (hden : c.collateral * collateralRatioDenom ≤ maxShareSupply) : c.Unrounded ratio := by
  obtain ⟨k, hk⟩ := Int.eq_ofNat_of_zero_le (le_of_lt hcollateral)
  have hkpos : k * collateralRatioDenom ≠ 0 := by
    refine mul_ne_zero ?_ (by decide)
    omega
  have hvalue : callRatio c.debt c.collateral ratio =
      mkRat (c.debt * ratio) (k * collateralRatioDenom) := by
    rw [callRatio, hk, Rat.divInt_ofNat, Rat.mkRat_mul_mkRat]
  rw [CallOrder.Unrounded, hvalue, TooLarge, not_or, not_lt, not_lt, Rat.num_mkRat, Rat.den_mkRat,
    if_neg hkpos, if_neg hkpos]
  constructor
  · exact (Int.ediv_le_self _ (mul_nonneg hdebt (Int.natCast_nonneg _))).trans hnum
  · rw [hk] at hden
    refine le_trans (Int.ofNat_le.mpr (Nat.div_le_self _ _)) ?_
    exact_mod_cast hden

theorem Price.callPrice_mul {debt collateral : Asset} {ratio : Nat} {p : Price}
    (h : Price.callPrice debt collateral ratio = .ok p)
    (hfits : ¬TooLarge (callRatio debt.amount collateral.amount ratio)) :
    p.base.amount * (debt.amount * ratio) =
      p.quote.amount * (collateral.amount * collateralRatioDenom) := by
  obtain ⟨hne, -, rfl⟩ := Price.callPrice_eq_ok.mp h
  rw [callRatio] at hfits
  rw [callPriceHalving.fit_eq_self hfits]
  set q := Rat.divInt debt.amount collateral.amount * mkRat ratio collateralRatioDenom with hq
  have hden : (q.den : ℚ) ≠ 0 := Nat.cast_ne_zero.mpr q.den_ne_zero
  have hvalue : (q.num : ℚ) / q.den =
      (debt.amount * ratio : ℚ) / (collateral.amount * collateralRatioDenom) := by
    rw [Rat.num_div_den, hq, Rat.divInt_eq_div, Rat.mkRat_eq_div, div_mul_div_comm]
    simp
  have hcollateral : (collateral.amount * collateralRatioDenom : ℚ) ≠ 0 := by
    refine mul_ne_zero (Int.cast_ne_zero.mpr hne) ?_
    norm_num [collateralRatioDenom]
  rw [div_eq_div_iff hden hcollateral] at hvalue
  have hint : q.num * (collateral.amount * collateralRatioDenom) =
      debt.amount * ratio * q.den := by exact_mod_cast hvalue
  show (q.den : Int) * (debt.amount * ratio) = _
  rw [hint, mul_comm]

theorem Price.callPrice_le_iff {debt collateral : Asset} {ratio : Nat} {p feed : Price}
    (h : Price.callPrice debt collateral ratio = .ok p)
    (hfits : ¬TooLarge (callRatio debt.amount collateral.amount ratio)) (hdebt : 0 < debt.amount)
    (hcollateral : 0 < collateral.amount) (hratio : 0 < ratio)
    (hfeed : feed.Between collateral.assetId debt.assetId) :
    p ≤ feed ↔ feed.quote.amount * (collateral.amount * collateralRatioDenom) ≤
      feed.base.amount * (debt.amount * ratio) := by
  have hmul := Price.callPrice_mul h hfits
  have hrange := Price.callPrice_inRange h hdebt hcollateral hratio
  obtain ⟨-, hbase, hquote, -⟩ := Price.callPrice_ids h
  rw [Price.le_iff_mul (hbase.trans hfeed.base_asset.symm) (hquote.trans hfeed.quote_asset.symm)]
  have hD : 0 < debt.amount * (ratio : Int) := mul_pos hdebt (Int.natCast_pos.mpr hratio)
  calc feed.quote.amount * p.base.amount ≤ p.quote.amount * feed.base.amount
      ↔ feed.quote.amount * p.base.amount * (debt.amount * ratio) ≤
          p.quote.amount * feed.base.amount * (debt.amount * ratio) :=
        (mul_le_mul_iff_left₀ hD).symm
    _ ↔ p.quote.amount * (feed.quote.amount * (collateral.amount * collateralRatioDenom)) ≤
          p.quote.amount * (feed.base.amount * (debt.amount * ratio)) := by
        rw [mul_assoc, hmul, mul_left_comm, mul_assoc]
    _ ↔ _ := mul_le_mul_iff_right₀ hrange.quote_pos

theorem CallOrder.callPrice_le_iff_swan {c d : CallOrder} {ratio : Nat} (hratio : 0 < ratio)
    (hc : c.Priced ratio) (hc' : c.Unrounded ratio) (hcdebt : 0 < c.debt)
    (hccollateral : 0 < c.collateral) (hd : d.Priced ratio) (hd' : d.Unrounded ratio)
    (hddebt : 0 < d.debt) (hdcollateral : 0 < d.collateral)
    (hdebt : d.debtType = c.debtType) (hcollateral : d.collateralType = c.collateralType) :
    c.callPrice ≤ d.callPrice ↔ d.debt * c.collateral ≤ c.debt * d.collateral := by
  have hrange := Price.callPrice_inRange hd hddebt hdcollateral hratio
  have hmul := Price.callPrice_mul hd hd'
  have hbelow := Price.callPrice_le_iff hc hc' hcdebt hccollateral hratio
    ⟨hcollateral, hdebt, hrange.base_pos, hrange.quote_pos⟩
  simp only [CallOrder.getDebt, CallOrder.getCollateral] at hmul hbelow
  have hpos : 0 < d.callPrice.quote.amount * (collateralRatioDenom : Int) :=
    mul_pos hrange.quote_pos (by decide)
  have hleft : d.debt * (d.callPrice.quote.amount * (c.collateral * collateralRatioDenom)) =
      d.callPrice.quote.amount * collateralRatioDenom * (d.debt * c.collateral) := by ring
  have hright : d.debt * (d.callPrice.base.amount * (c.debt * ratio)) =
      d.callPrice.quote.amount * collateralRatioDenom * (c.debt * d.collateral) := by
    calc d.debt * (d.callPrice.base.amount * (c.debt * ratio))
        = c.debt * (d.callPrice.base.amount * (d.debt * ratio)) := by ring
      _ = c.debt * (d.callPrice.quote.amount *
        (d.collateral * collateralRatioDenom)) := by rw [hmul]
      _ = d.callPrice.quote.amount * collateralRatioDenom * (c.debt * d.collateral) := by ring
  rw [hbelow, ← mul_le_mul_iff_right₀ hddebt, hleft, hright, mul_le_mul_iff_right₀ hpos]

/-! ### Runs with a condition on each step -/

def RunWhere (condition : Ledger → Ledger → Prop) : Ledger → Ledger → Prop :=
  Relation.ReflTransGen fun L L' => Step L L' ∧ condition L L'

variable {L L' : Ledger} {loose : Nat → Prop} {within : Nat → Nat → Prop}

theorem RunWhere.run {condition : Ledger → Ledger → Prop} (h : RunWhere condition L L') :
    Run L L' := by
  induction h with
  | refl => exact Relation.ReflTransGen.refl
  | tail _ hstep ih => exact ih.tail hstep.1

/-- The maintenance ratios of the assets with positions are related before and after. -/
def RatiosKept (within : Nat → Nat → Prop) (L L' : Ledger) : Prop :=
  ∀ id c, L.callOrders.find id = some c → ∀ b b', L.bitasset c.debtType = .ok b →
    L'.bitasset c.debtType = .ok b' →
    within b.currentFeed.maintenanceCollateralRatio b'.currentFeed.maintenanceCollateralRatio

/-- The call prices are those of ratios that are related to the current one. -/
def PricedWithin (within : Nat → Nat → Prop) (L : Ledger) : Prop :=
  ∀ id c, L.callOrders.find id = some c → ∀ b, L.bitasset c.debtType = .ok b →
    ∃ ratio, 0 < ratio ∧ within ratio b.currentFeed.maintenanceCollateralRatio ∧ c.Priced ratio

theorem PriceFeed.maintenance_pos (f : PriceFeed) : 0 < f.maintenanceCollateralRatio :=
  lt_of_lt_of_le (by decide) f.maintenance_range.1

namespace PricedWithin

theorem of_terms (h : PricedWithin within L) (hcalls : L'.callOrders = L.callOrders)
    (hterms : ∀ id, (L'.assets.find id).map AssetObject.terms =
      (L.assets.find id).map AssetObject.terms) : PricedWithin within L' := by
  intro id c hc b hb
  obtain ⟨b', hb', -, -, hfeed, -⟩ := bitasset_of_terms (hterms _).symm hb
  rw [← hfeed]
  exact h id c (hcalls ▸ hc) b' hb'

theorem change (hrefl : ∀ ratio, within ratio ratio) (h : PricedWithin within L)
    (hchange : Change loose L L') : PricedWithin within L' := by
  cases hchange with
  | funds hfunds => exact h.of_terms hfunds.callOrders hfunds.assets
  | @createCallOrder c b hb hborrower hpriced _ =>
    intro id c' hc' b' hb'
    rcases Table.find_create_iff.mp hc' with hc' | ⟨-, rfl⟩
    · exact h id c' hc' b' hb'
    · obtain rfl : b = b' := Except.ok.inj (hb.symm.trans hb')
      exact ⟨_, b.currentFeed.maintenance_pos, hrefl _, hpriced⟩
  | @setCallOrder j c c' b hc hb hborrower hdebt hcollateral hpriced =>
    intro id d hd b' hb'
    rcases (Table.find_set_iff hc).mp hd with ⟨-, rfl⟩ | ⟨-, hd⟩
    · rw [hdebt] at hb'
      obtain rfl : b = b' := Except.ok.inj (hb.symm.trans hb')
      exact ⟨_, b.currentFeed.maintenance_pos, hrefl _, hpriced⟩
    · exact h id d hd b' hb'
  | removeCallOrder j =>
    exact fun id c hc b hb => h id c (Table.find_remove_iff.mp hc).2 b hb
  | _ => exact h

theorem changes (hrefl : ∀ ratio, within ratio ratio) (h : PricedWithin within L)
    (hchanges : Changes loose L L') : PricedWithin within L' :=
  hchanges.invariant (fun _ _ hM hchange => hM.change hrefl hchange) h

theorem of_kept (htrans : ∀ {x y z}, within x y → within y z → within x z) (hs : Shape L)
    (h : PricedWithin within L) (hcalls : L'.callOrders = L.callOrders)
    (hkept : RatiosKept within L L') : PricedWithin within L' := by
  intro id c hc b hb
  rw [hcalls] at hc
  obtain ⟨d, hd, -⟩ := (hs.callOrders id c hc).backed
  obtain ⟨ratio, hpos, hwithin, hpriced⟩ := h id c hc d hd
  exact ⟨ratio, hpos, htrans hwithin (hkept id c hc d b hd hb), hpriced⟩

end PricedWithin

theorem Adjustment.callOrders (h : Adjustment L L') : L'.callOrders = L.callOrders := by
  cases h <;> rfl

theorem RatiosKept.of_changes {N : Ledger} (hchanges : Changes loose N L')
    (h : RatiosKept within L L') : RatiosKept within L N := by
  intro id c hc b b' hb hb'
  obtain ⟨d, hd, -, -, hfeed, -⟩ := bitasset_of_terms (hchanges.terms _) hb'
  rw [← hfeed]
  exact h id c hc b d hb hd

section

variable (hrefl : ∀ ratio, within ratio ratio)
  (htrans : ∀ {x y z}, within x y → within y z → within x z)

include hrefl htrans

theorem Adjusts.pricedWithin (hL : Balanced L) (h : PricedWithin within L) (hadjusts : Adjusts L L')
    (hkept : RatiosKept within L L') : PricedWithin within L' := by
  rcases hadjusts with hchanges | ⟨M, N, hM, hN, hchanges⟩
  · exact h.changes hrefl hchanges
  · refine PricedWithin.changes hrefl ?_ hchanges
    exact h.of_kept htrans hL.shape (hN.callOrders.trans hM.callOrders) (hkept.of_changes hchanges)

theorem Step.pricedWithin (hL : Balanced L) (h : PricedWithin within L) (hstep : Step L L')
    (hkept : RatiosKept within L L') : PricedWithin within L' := by
  rcases step_iff.mp hstep with ⟨rounds, skip, op, happly⟩ | htick
  · rcases op.adjusts happly with ⟨create, -, hcreate⟩ | hadjusts
    · exact h.changes hrefl (create.apply_changes hcreate)
    · exact hadjusts.pricedWithin hrefl htrans hL h hkept
  · exact (htick.adjusts hL).pricedWithin hrefl htrans hL h hkept

/-- In every ledger that a run reaches whose steps keep the ratios related, the call prices are
those of ratios that are related to the current ones. -/
theorem RunWhere.pricedWithin {L₀ : Ledger} (h₀ : Genesis L₀)
    (h : RunWhere (RatiosKept within) L₀ L) : PricedWithin within L := by
  induction h with
  | refl =>
    intro id c hc
    exact absurd ((h₀.opening.callOrders id).symm.trans hc) (Option.some_ne_none _).symm
  | tail hrun hstep ih =>
    exact hstep.1.pricedWithin hrefl htrans (Run.balanced h₀.balanced
      (RunWhere.run hrun)) ih hstep.2

end

/-! ### Runs that are computed -/

instance [DecidableRel within] : Decidable (RatiosKept within L L') :=
  decidable_of_iff (∀ r ∈ L.callOrders.rows, ∀ b ∈ (L.bitasset r.2.debtType).toOption,
    ∀ b' ∈ (L'.bitasset r.2.debtType).toOption, within b.currentFeed.maintenanceCollateralRatio
      b'.currentFeed.maintenanceCollateralRatio) (by
    constructor
    · intro h id c hc b b' hb hb'
      exact h (id, c) (Table.find_iff_mem.mp hc) b (by rw [hb]; rfl) b' (by rw [hb']; rfl)
    · intro h r hr b hb b' hb'
      have hok : ∀ {x : Attempt BitassetData} {a : BitassetData}, a ∈ x.toOption → x = .ok a := by
        intro x a ha
        cases x with
        | error e => cases ha
        | ok y => exact congrArg Except.ok (Option.some.inj ha)
      exact h r.1 r.2 (Table.find_iff_mem.mpr hr) b b' (hok hb) (hok hb'))

/-- Operations one after the other, each of which keeps the ratios related. -/
def Ledger.performKeeping (within : Nat → Nat → Prop) [DecidableRel within] (rounds : Nat) :
    List Operation → Ledger → Attempt Ledger
  | [], L => pure L
  | op :: ops, L => do
    let L' ← op.apply rounds false L
    require (RatiosKept within L L')
    performKeeping within rounds ops L'

theorem Ledger.performKeeping_run [DecidableRel within] {rounds : Nat} :
    ∀ {ops : List Operation} {L : Ledger}, performKeeping within rounds ops L = .ok L' →
      RunWhere (RatiosKept within) L L'
  | [], L, h => pure_eq_ok.mp h ▸ Relation.ReflTransGen.refl
  | op :: ops, L, h => by
    simp only [performKeeping, bind_eq_ok, require_eq_ok, exists_const] at h
    obtain ⟨M, hM, hkept, h⟩ := h
    exact (performKeeping_run h).head ⟨.operation rounds false op hM, hkept⟩

end Nestchain.Market
