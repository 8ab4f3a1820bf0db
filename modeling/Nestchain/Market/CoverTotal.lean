import Nestchain.Market.CoverSpec

/-! `get_max_debt_to_cover` returns.  Its searches come to an end, and when no collateral that is
less than that of the position is worth more than there can be of an asset, no assertion fails on
the way. The numbers that it computes with fit in their types. -/

namespace Nestchain.Market

open Lib

namespace CallOrder

/-- A position whose amounts are in range, with prices in range at which it can be closed. -/
structure Closable (c : CallOrder) (mp fp : Price) : Prop where
  debt_pos : 0 < c.debt
  debt_le : c.debt ≤ maxShareSupply
  collateral_pos : 0 < c.collateral
  collateral_le : c.collateral ≤ maxShareSupply
  assets_ne : c.collateralType ≠ c.debtType
  matched : mp.Between c.collateralType c.debtType
  matched_range : mp.InRange
  feed : fp.Between c.collateralType c.debtType
  feed_range : fp.InRange
  close : (c.debt * mp.base.amount + mp.quote.amount - 1) / mp.quote.amount ≤ c.collateral

/-- The collateral below that of the position is worth at most as much as there can be of an
asset. -/
def WorthInRange (c : CallOrder) (mp : Price) : Prop :=
  mp.quote.amount ≤ mp.base.amount ∨
    (c.collateral - 1) * mp.quote.amount / mp.base.amount ≤ maxShareSupply

instance (c : CallOrder) (mp : Price) : Decidable (c.WorthInRange mp) :=
  inferInstanceAs (Decidable (_ ∨ _))

namespace Closable

variable {c : CallOrder} {mp fp : Price} {tcr : Nat}

/-! ### Conversions -/

theorem payOf_ok (h : c.Closable mp fp) {z : Int} (hz : 0 ≤ z) (hle : z ≤ c.debt) :
    ∃ p, c.payOf mp z = .ok p ∧ p ≤ c.collateral := by
  have hq := h.matched.quote_pos
  have hb := h.matched.base_pos
  have hnonneg := mul_nonneg hz (le_of_lt hb)
  have hcost : (z * mp.base.amount + mp.quote.amount - 1) / mp.quote.amount ≤ c.collateral := by
    refine le_trans (Int.ediv_le_ediv hq ?_) h.close
    have hmul := mul_le_mul_of_nonneg_right hle (le_of_lt hb)
    omega
  exact ⟨_, (payOf_eq_ok h.matched h.assets_ne).mpr ⟨by omega, hcost.trans h.collateral_le, rfl⟩,
    hcost⟩

theorem coverOf_ok (h : c.Closable mp fp) (hworth : c.WorthInRange mp) {p : Int} (hp : 0 ≤ p)
    (hlt : p < c.collateral) : ∃ z, c.coverOf mp p = .ok z := by
  have hq := h.matched.quote_pos
  have hb := h.matched.base_pos
  have hnonneg := mul_nonneg hp (le_of_lt hq)
  refine ⟨_, (coverOf_eq_ok h.matched).mpr ⟨hnonneg, ?_, rfl⟩⟩
  rcases hworth with hle | hworth
  · calc p * mp.quote.amount / mp.base.amount
        ≤ p * mp.base.amount / mp.base.amount :=
          Int.ediv_le_ediv hb (mul_le_mul_of_nonneg_left hle hp)
      _ = p := Int.mul_ediv_cancel _ (ne_of_gt hb)
      _ ≤ maxShareSupply := (le_of_lt hlt).trans h.collateral_le
  · refine le_trans (Int.ediv_le_ediv hb ?_) hworth
    exact mul_le_mul_of_nonneg_right (by omega) (le_of_lt hq)

theorem aboveTarget_ok (h : c.Closable mp fp) (tcr : Nat) {x : Cover}
    (hlt : x.toPay < c.collateral) :
    ∃ b, c.aboveTarget fp tcr x = .ok b := by
  simp only [aboveTarget, bind_eq_ok, pure_eq_ok]
  exact ⟨_, _, Price.callPrice_eq_ok.mpr ⟨by simp only; omega, h.assets_ne, rfl⟩, rfl⟩

/-! ### The binary search -/

theorem high_le {s : Search} (hs : s.Bracket c mp fp tcr) :
    s.high.toPay ≤ c.collateral ∧ s.high.toCover ≤ c.debt := by
  rcases hs.high with hwhole | hinner
  · rw [hwhole]
    exact ⟨le_refl _, le_refl _⟩
  · exact ⟨le_of_lt hinner.pay_lt, le_of_lt hinner.cover_lt⟩

theorem searchMean_ok (h : c.Closable mp fp) (hworth : c.WorthInRange mp) {s : Search}
    (hs : s.Bracket c mp fp tcr) : ∃ mean, c.searchMean mp s = .ok mean := by
  obtain ⟨hhighPay, hhighCover⟩ := high_le hs
  have hpay := hs.pay_nonneg
  have hcover := hs.cover_nonneg
  have hpayLt := hs.pay_lt
  have hcoverLt := hs.cover_lt
  unfold searchMean
  split
  · -- the step of the collateral is smaller
    simp only
    split
    · exact ⟨_, rfl⟩
    · rename_i hne
      obtain ⟨z, hz⟩ := h.coverOf_ok hworth (p := (s.low.toPay + s.high.toPay + 1) / 2) (by omega)
        (by omega)
      rw [hz]
      by_cases hall : s.high.toCover ≤ z
      · exact ⟨_, if_pos hall⟩
      · obtain ⟨p, hp, -⟩ := h.payOf_ok (coverOf_nonneg hz) (by omega)
        have hple : p ≤ (s.low.toPay + s.high.toPay + 1) / 2 := by
          obtain ⟨-, -, hcovered⟩ := (coverOf_eq_ok h.matched).mp hz
          obtain ⟨-, -, hpaid⟩ := (payOf_eq_ok h.matched h.assets_ne).mp hp
          rw [hpaid, roundUp_le_iff h.matched.quote_pos, hcovered]
          exact Int.ediv_mul_le _ (ne_of_gt h.matched.base_pos)
        refine ⟨⟨p, z⟩, (if_neg hall).trans ?_⟩
        simp only [bind_eq_ok, require_eq_ok, exists_const, pure_eq_ok]
        exact ⟨p, hp, by omega, rfl⟩
  · simp only
    split
    · exact ⟨_, rfl⟩
    · rename_i hne
      obtain ⟨p, hp, -⟩ := h.payOf_ok (z := (s.low.toCover + s.high.toCover) / 2) (by omega)
        (by omega)
      rw [hp]
      by_cases hall : s.high.toPay ≤ p
      · exact ⟨_, if_pos hall⟩
      · obtain ⟨z, hz⟩ := h.coverOf_ok hworth (payOf_nonneg hp) (by omega)
        by_cases hmost : s.high.toCover ≤ z
        · refine ⟨s.high, (if_neg hall).trans ?_⟩
          rw [hz]
          exact if_pos hmost
        · refine ⟨⟨p, z⟩, (if_neg hall).trans ?_⟩
          rw [hz]
          exact if_neg hmost

theorem searchRound_ok (h : c.Closable mp fp) (hworth : c.WorthInRange mp) {s : Search}
    (hs : s.Bracket c mp fp tcr) : ∃ r, c.searchRound mp fp tcr s = .ok r := by
  obtain ⟨mean, hmean⟩ := h.searchMean_ok hworth hs
  obtain ⟨hhighPay, hhighCover⟩ := high_le hs
  have hcases := pick_cases h.matched h.assets_ne hs hmean
  unfold searchRound
  simp only [bind_eq_ok]
  rw [exists_comm]
  refine ⟨mean, ?_⟩
  simp only [hmean, true_and]
  rw [← Search.pick]
  generalize s.pick mean = x at hcases ⊢
  by_cases hdone : x.toPay = s.high.toPay ∧ (s.highIsOk = true ∨ x.toPay = c.collateral)
  · exact ⟨_, if_pos hdone⟩
  · rw [if_neg hdone]
    -- a cover that does not end the search is inside of the position
    have hless : x.toPay < c.collateral ∧ x.toCover < c.debt := by
      rcases hcases with rfl | ⟨-, -, -, hpay, hcover⟩
      · rcases hs.high with hwhole | hinner
        · exact absurd ⟨rfl, Or.inr (by rw [hwhole])⟩ hdone
        · exact ⟨hinner.pay_lt, hinner.cover_lt⟩
      · omega
    obtain ⟨above, habove⟩ := h.aboveTarget_ok tcr hless.1
    simp only [bind_eq_ok, require_eq_ok, exists_const]
    cases above with
    | true =>
      by_cases hsame : x.toPay = s.high.toPay
      · exact ⟨_, hless, true, habove, (if_pos rfl).trans (if_pos hsame)⟩
      · exact ⟨_, hless, true, habove, (if_pos rfl).trans (if_neg hsame)⟩
    | false =>
      by_cases hsame : x.toPay = s.high.toPay
      · exact ⟨_, hless, false, habove, (if_neg Bool.false_ne_true).trans (if_pos hsame)⟩
      · exact ⟨_, hless, false, habove, (if_neg Bool.false_ne_true).trans (if_neg hsame)⟩

/-! ### The search forward -/

theorem forwardStep_ok (h : c.Closable mp fp) (hworth : c.WorthInRange mp) {x : Cover} {step : Int}
    (hpay : 0 ≤ x.toPay) (hcover : 0 ≤ x.toCover) (hstep : 0 ≤ step) :
    ∃ y, c.forwardStep mp x step = .ok y := by
  unfold forwardStep
  split
  · simp only
    by_cases hall : c.collateral ≤ x.toPay + step
    · exact ⟨_, if_pos hall⟩
    · obtain ⟨z, hz⟩ := h.coverOf_ok hworth (p := x.toPay + step) (by omega) (by omega)
      rw [if_neg hall, hz]
      by_cases hmost : c.debt ≤ z
      · exact ⟨_, if_pos hmost⟩
      · obtain ⟨p, hp, -⟩ := h.payOf_ok (coverOf_nonneg hz) (by omega)
        by_cases hwhole : c.collateral ≤ p
        · refine ⟨none, (if_neg hmost).trans ?_⟩
          rw [hp]
          exact if_pos hwhole
        · refine ⟨some ⟨p, z⟩, (if_neg hmost).trans ?_⟩
          rw [hp]
          exact if_neg hwhole
  · simp only
    by_cases hall : c.debt ≤ x.toCover + step
    · exact ⟨_, if_pos hall⟩
    · obtain ⟨p, hp, -⟩ := h.payOf_ok (z := x.toCover + step) (by omega) (by omega)
      rw [if_neg hall, hp]
      by_cases hmost : c.collateral ≤ p
      · exact ⟨_, if_pos hmost⟩
      · obtain ⟨z, hz⟩ := h.coverOf_ok hworth (payOf_nonneg hp) (by omega)
        by_cases hwhole : c.debt ≤ z
        · refine ⟨none, (if_neg hmost).trans ?_⟩
          rw [hz]
          exact if_pos hwhole
        · refine ⟨some ⟨p, z⟩, (if_neg hmost).trans ?_⟩
          rw [hz]
          exact if_neg hwhole

theorem forwardRound_ok (h : c.Closable mp fp) (hworth : c.WorthInRange mp) {s : Cover × Int × Int}
    (hs : c.Forward mp s) : ∃ r, c.forwardRound mp fp tcr s = .ok r := by
  obtain ⟨hinner, hstep, -⟩ := hs
  obtain ⟨next, hnext⟩ := h.forwardStep_ok hworth (payOf_nonneg hinner.settled.pays)
    (le_of_lt hinner.cover_pos) (le_of_lt hstep)
  unfold forwardRound
  rw [hnext]
  cases next with
  | none => exact ⟨_, rfl⟩
  | some y =>
    obtain ⟨above, habove⟩ := h.aboveTarget_ok tcr
      (forwardStep_inner h.matched h.assets_ne hinner (le_of_lt hstep) hnext).pay_lt
    simp only [bind_eq_ok, Except.ok.injEq, exists_eq_left', habove]
    cases above with
    | true => exact ⟨_, rfl⟩
    | false => exact ⟨_, rfl⟩

/-! ### The whole -/

theorem searchHigh_ok (h : c.Closable mp fp) (hworth : c.WorthInRange mp) {n d : Int}
    (hn : 0 ≤ n / d) : ∃ high, c.searchHigh mp n d = .ok high := by
  have hdebt := h.debt_pos
  have hpayOk : ∃ highPay, (if min (n / d + 1) c.debt = c.debt then pure c.collateral
      else c.payOf mp (min (n / d + 1) c.debt)) = Except.ok highPay ∧ 0 ≤ highPay := by
    by_cases hall : min (n / d + 1) c.debt = c.debt
    · exact ⟨_, if_pos hall, le_of_lt h.collateral_pos⟩
    · obtain ⟨p, hp, -⟩ := h.payOf_ok (z := min (n / d + 1) c.debt) (by omega) (by omega)
      exact ⟨p, (if_neg hall).trans hp, payOf_nonneg hp⟩
  obtain ⟨highPay, hhighPay, hnonneg⟩ := hpayOk
  have hcoverOk : ∃ highCover, (if min highPay c.collateral = c.collateral then pure c.debt
      else c.coverOf mp (min highPay c.collateral)) = Except.ok highCover := by
    by_cases hall : min highPay c.collateral = c.collateral
    · exact ⟨_, if_pos hall⟩
    · have hpos := h.collateral_pos
      obtain ⟨z, hz⟩ := h.coverOf_ok hworth (p := min highPay c.collateral) (by omega) (by omega)
      exact ⟨z, (if_neg hall).trans hz⟩
  obtain ⟨highCover, hhighCover⟩ := hcoverOk
  simp only [searchHigh, bind_eq_ok, pure_eq_ok]
  exact ⟨_, highPay, hhighPay, highCover, hhighCover, rfl⟩

theorem searchCover_ok (h : c.Closable mp fp) (hworth : c.WorthInRange mp) {rounds : Nat}
    {n d : Int}
    {low : Cover} (hrounds : c.coverRounds ≤ rounds) (hn : 0 ≤ n / d) (hpay : 0 ≤ low.toPay)
    (hcover : 0 ≤ low.toCover) : ∃ z, c.searchCover rounds mp fp tcr n d low = .ok z := by
  have hmp := h.matched
  have hne := h.assets_ne
  unfold coverRounds at hrounds
  obtain ⟨high, hhigh⟩ := h.searchHigh_ok hworth hn
  simp only [searchCover_eq_ok]
  rw [exists_comm]
  refine ⟨high, ?_⟩
  simp only [hhigh, true_and]
  by_cases hclosed : high.toPay ≤ low.toPay ∨ high.toCover ≤ low.toCover
  · exact ⟨_, if_pos hclosed⟩
  · rw [if_neg hclosed]
    have hstart : Search.Bracket c mp fp tcr ⟨low, high, false⟩ :=
      searchHigh_bracket hmp hne hn h.debt_pos hpay hcover hhigh hclosed
    have happart : ∀ {s : Search}, s.Bracket c mp fp tcr → s.Apart := fun hs =>
      ⟨hs.pay_nonneg, hs.cover_nonneg, hs.cover_nonneg.trans (le_of_lt hs.cover_lt), hs.pay_lt⟩
    obtain ⟨r, hr⟩ := loop_total (P := Search.Bracket c mp fp tcr)
      (m := fun s => (s.high.toPay - s.low.toPay).toNat) (fun s hs => h.searchRound_ok hworth hs)
      (fun s s' hs hb => by
        obtain ⟨-, hlt⟩ := (searchRound_closer (happart hs) hb).1 s' rfl
        have hpayLt := hs.pay_lt
        exact ⟨(searchRound_found hmp hne hs hb).1 s' rfl, by omega⟩) rounds
          ⟨low, high, false⟩ hstart
      (by have hle := (high_le hstart).1; simp only at hle ⊢; omega)
    simp only [bind_eq_ok, hr, Except.ok.injEq, exists_eq_left']
    cases r with
    | inl z => exact ⟨z, rfl⟩
    | inr x =>
      have hinner := loop_invariant (P := Search.Bracket c mp fp tcr)
        (Q := fun r => ∀ x, r = .inr x → c.Inner mp x)
        (fun s s' hs hb => (searchRound_found hmp hne hs hb).1 s' rfl)
        (fun s r hs hb x hx => (searchRound_found hmp hne hs hb).2.2 x
          (by rw [hx])) rounds _ _ hstart hr
        x rfl
      refine loop_total (P := c.Forward mp) (m := c.stepsLeft)
        (fun s hs => h.forwardRound_ok hworth hs) (fun s s' hs hb => ?_) rounds _
        ⟨hinner, Int.one_pos, Int.one_pos⟩ ?_
      · have hahead : Ahead s := ⟨payOf_nonneg hs.inner.settled.pays, le_of_lt hs.inner.cover_pos,
          hs.step_pos, hs.next_pos⟩
        exact ⟨(forwardRound_found hmp hne hs hb).1 s' rfl, (forwardRound_closer hahead hb).2⟩
      · have hcollateral := h.collateral_pos
        simp only [stepsLeft]
        omega

theorem estimate_ok (h : c.Closable mp fp) {e : Int} (he : 0 ≤ e) (hlt : e < c.debt) :
    ∃ paid toCover toPay, (Asset.mk e c.debtType).mul mp = .ok paid ∧
      c.coverOf mp paid.amount = .ok toCover ∧ c.payOf mp toCover = .ok toPay := by
  have hb := h.matched.base_pos
  have hq := h.matched.quote_pos
  have hmpNe : mp.base.assetId ≠ mp.quote.assetId := by
    rw [h.matched.base_asset, h.matched.quote_asset]
    exact h.assets_ne
  have hnonneg := mul_nonneg he (le_of_lt hb)
  have hpaid : (Asset.mk e c.debtType).mul mp =
      .ok ⟨e * mp.base.amount / mp.quote.amount, mp.base.assetId⟩ := by
    rw [Asset.mul_quote (a := ⟨e, c.debtType⟩) hmpNe h.matched.quote_asset.symm]
    refine convert_eq_ok.mpr ⟨hq, hnonneg, ?_, rfl⟩
    refine le_trans (Int.ediv_le_ediv hq ?_) (h.close.trans h.collateral_le)
    have hmul := mul_le_mul_of_nonneg_right (le_of_lt hlt) (le_of_lt hb)
    simp only
    omega
  have hback : e * mp.base.amount / mp.quote.amount * mp.quote.amount / mp.base.amount ≤ e := by
    calc e * mp.base.amount / mp.quote.amount * mp.quote.amount / mp.base.amount
        ≤ e * mp.base.amount / mp.base.amount :=
          Int.ediv_le_ediv hb (Int.ediv_mul_le _ (ne_of_gt hq))
      _ = e := Int.mul_ediv_cancel _ (ne_of_gt hb)
  have hcover : c.coverOf mp (e * mp.base.amount / mp.quote.amount) =
      .ok (e * mp.base.amount / mp.quote.amount * mp.quote.amount / mp.base.amount) := by
    refine (coverOf_eq_ok h.matched).mpr ⟨?_, hback.trans ((le_of_lt hlt).trans h.debt_le), rfl⟩
    exact mul_nonneg (Int.ediv_nonneg hnonneg (le_of_lt hq)) (le_of_lt hq)
  obtain ⟨p, hp, -⟩ := h.payOf_ok (coverOf_nonneg hcover) (hback.trans (le_of_lt hlt))
  exact ⟨_, _, p, hpaid, hcover, hp⟩

end Closable

variable {c : CallOrder} {mp fp : Price}

theorem getMaxDebtToCover_ok {rounds mcr : Nat} (h : c.Closable (c.orient mp) (c.orient fp))
    (hworth : c.WorthInRange (c.orient mp)) (hrounds : c.coverRounds ≤ rounds) :
    ∃ r, c.getMaxDebtToCover rounds mp fp mcr = .ok r := by
  have hfp := h.feed
  have hmp := h.matched
  unfold getMaxDebtToCover
  simp only [bind_eq_ok, require_eq_ok, exists_const]
  simp only [hfp.base_asset, hfp.quote_asset, and_self, true_and]
  split
  · exact ⟨_, rfl⟩
  · split
    · exact ⟨_, rfl⟩
    · rename_i target _
      simp only [bind_eq_ok, require_eq_ok, exists_const]
      simp only [hmp.base_asset, hmp.quote_asset, and_self, true_and]
      split
      · exact ⟨_, rfl⟩
      · rename_i hnum
        split
        · exact ⟨_, rfl⟩
        · rename_i hden
          split
          · exact ⟨_, rfl⟩
          · rename_i hlt
            have hnonneg : 0 ≤ (c.orient fp).base.amount * (c.orient mp).quote.amount *
                (max target mcr : Nat) :=
              mul_nonneg (mul_nonneg (le_of_lt hfp.base_pos) (le_of_lt hmp.quote_pos))
                (Int.natCast_nonneg _)
            obtain ⟨paid, toCover, toPay, hpaid, hcover, hpay⟩ :=
              h.estimate_ok (Int.ediv_nonneg (not_lt.mp hnum) (le_of_lt (not_le.mp hden)))
                (not_le.mp hlt)
            simp only [bind_eq_ok, hpaid, Except.ok.injEq, exists_eq_left', hcover, hpay]
            split
            · exact ⟨_, rfl⟩
            · rename_i hless
              simp only [not_or, not_le] at hless
              obtain ⟨above, habove⟩ := h.aboveTarget_ok (max target mcr)
                (x := ⟨toPay, toCover⟩) hless.2
              simp only [bind_eq_ok, habove, Except.ok.injEq, exists_eq_left']
              cases above with
              | true => exact ⟨_, rfl⟩
              | false =>
                refine h.searchCover_ok hworth hrounds (Int.ediv_nonneg ?_ ?_) (payOf_nonneg hpay)
                  (coverOf_nonneg hcover)
                · omega
                · omega

/-! ### Words -/

/-- The numbers that the estimates are computed with fit in 256 bits. -/
structure FitsWide (c : CallOrder) (mp fp : Price) (tcr : Nat) : Prop where
  numerator : |fp.base.amount * mp.quote.amount * c.debt * tcr -
    fp.quote.amount * mp.quote.amount * c.collateral * collateralRatioDenom| < 2 ^ 255
  fraction : |fp.base.amount * mp.quote.amount * c.debt * tcr -
    fp.quote.amount * mp.quote.amount * c.collateral * collateralRatioDenom +
      fp.base.amount * mp.quote.amount * tcr| < 2 ^ 255
  denominator : |fp.base.amount * mp.quote.amount * tcr -
    fp.quote.amount * mp.base.amount * collateralRatioDenom| < 2 ^ 255

theorem mul_in_range {a b A B : Int} (ha : 0 ≤ a ∧ a ≤ A) (hb : 0 ≤ b ∧ b ≤ B) :
    0 ≤ a * b ∧ a * b ≤ A * B :=
  ⟨mul_nonneg ha.1 hb.1, mul_le_mul ha.2 hb.2 hb.1 (ha.1.trans ha.2)⟩

theorem Closable.fitsWide {tcr : Nat} (h : c.Closable mp fp) (htcr : tcr < 2 ^ 16) :
    c.FitsWide mp fp tcr := by
  have hfb := And.intro (le_of_lt h.feed_range.base_pos) h.feed_range.base_le
  have hfq := And.intro (le_of_lt h.feed_range.quote_pos) h.feed_range.quote_le
  have hmb := And.intro (le_of_lt h.matched_range.base_pos) h.matched_range.base_le
  have hmq := And.intro (le_of_lt h.matched_range.quote_pos) h.matched_range.quote_le
  have hdebt := And.intro (le_of_lt h.debt_pos) h.debt_le
  have hcollateral := And.intro (le_of_lt h.collateral_pos) h.collateral_le
  have ht : 0 ≤ (tcr : Int) ∧ (tcr : Int) ≤ 2 ^ 16 := by omega
  have hd : 0 ≤ (collateralRatioDenom : Int) ∧ (collateralRatioDenom : Int) ≤ 2 ^ 16 := by decide
  have hcovered := mul_in_range (mul_in_range (mul_in_range hfb hmq) hdebt) ht
  have hbacked := mul_in_range (mul_in_range (mul_in_range hfq hmq) hcollateral) hd
  have hplus := mul_in_range (mul_in_range hfb hmq) ht
  have hminus := mul_in_range (mul_in_range hfq hmb) hd
  have hmax : maxShareSupply * maxShareSupply * maxShareSupply * 2 ^ 16 < 2 ^ 200 ∧
      maxShareSupply * maxShareSupply * 2 ^ 16 < 2 ^ 200 := by decide
  have hbig : (2 : Int) ^ 200 + 2 ^ 200 + 2 ^ 200 < 2 ^ 255 := by decide
  refine ⟨abs_lt.mpr ⟨?_, ?_⟩, abs_lt.mpr ⟨?_, ?_⟩, abs_lt.mpr ⟨?_, ?_⟩⟩
  all_goals omega

theorem Closable.search_fits {tcr : Nat} (h : c.Closable mp fp) {s s' : Search}
    (hs : s.Bracket c mp fp tcr) (hpasses : Passes (c.searchRound mp fp tcr) s s') :
    s'.low.toPay + s'.high.toPay + 1 < 2 ^ 63 ∧ s'.low.toCover + s'.high.toCover < 2 ^ 63 := by
  have hs' := hpasses.invariant (P := Search.Bracket c mp fp tcr) hs fun s s' hs hb =>
    (searchRound_found h.matched h.assets_ne hs hb).1 s' rfl
  obtain ⟨hpay, hcover⟩ := Closable.high_le hs'
  have hpayLt := hs'.pay_lt
  have hcoverLt := hs'.cover_lt
  have hdebt := h.debt_le
  have hcollateral := h.collateral_le
  have hmax : 2 * maxShareSupply + 1 < 2 ^ 63 := by decide
  omega

/-- The steps of the search forward grow at most twofold, and are at most twice an amount. -/
structure Strides (c : CallOrder) (mp : Price) (s : Cover × Int × Int) : Prop where
  forward : c.Forward mp s
  next_ge : s.2.1 ≤ s.2.2
  next_le : s.2.2 ≤ 2 * s.2.1
  step_le : s.2.1 ≤ 2 * maxShareSupply

theorem Closable.strides_next {tcr : Nat} (h : c.Closable mp fp) {s s' : Cover × Int × Int}
    (hs : c.Strides mp s) (hb : c.forwardRound mp fp tcr s = .ok (.inl s')) : c.Strides mp s' := by
  have hforward := (forwardRound_found h.matched h.assets_ne hs.forward hb).1 s' rfl
  obtain ⟨⟨hinner, hstep, hnext⟩, hge, hle, -⟩ := hs
  simp only [forwardRound, bind_eq_ok] at hb
  obtain ⟨next, hmoved, hb⟩ := hb
  cases next with
  | none => cases pure_eq_ok.mp hb
  | some y =>
    simp only [bind_eq_ok] at hb
    obtain ⟨above, -, hb⟩ := hb
    obtain ⟨-, -, hshort⟩ := forwardStep_short (payOf_nonneg hinner.settled.pays)
      (le_of_lt hinner.cover_pos) hmoved
    have hdebt := h.debt_le
    have hcollateral := h.collateral_le
    split at hb
    · cases pure_eq_ok.mp hb
    · cases pure_eq_ok.mp hb
      exact ⟨hforward, by simp only; omega, by simp only; omega, by simp only; omega⟩

theorem Closable.forward_fits {tcr : Nat} (h : c.Closable mp fp) {x : Cover} (hx : c.Inner mp x)
    {s : Cover × Int × Int} (hpasses : Passes (c.forwardRound mp fp tcr) (x, 1, 1) s) :
    s.1.toPay + s.2.1 < 2 ^ 63 ∧ s.1.toCover + s.2.1 < 2 ^ 63 ∧ s.2.1 + s.2.2 < 2 ^ 63 := by
  have htwo : (1 : Int) ≤ 2 * 1 ∧ (1 : Int) ≤ 2 * maxShareSupply := by decide
  have hstart : c.Strides mp (x, 1, 1) :=
    ⟨⟨hx, Int.one_pos, Int.one_pos⟩, le_refl _, htwo.1, htwo.2⟩
  obtain ⟨⟨hinner, -, -⟩, -, hle, hstep⟩ := hpasses.invariant hstart fun s s' hs hb =>
    h.strides_next hs hb
  have hpay := hinner.pay_lt
  have hcover := hinner.cover_lt
  have hdebt := h.debt_le
  have hcollateral := h.collateral_le
  have hmax : 6 * maxShareSupply < 2 ^ 63 := by decide
  omega

/-- On the positions and prices that matching gives it, `get_max_debt_to_cover` ends its searches,
and no assertion fails unless some collateral below that of the position is worth more than there
can be of an asset.  What it computes with fits: the numbers of the estimates in 256 bits, and in
every state that the searches go through the sums in 64. -/
theorem max_debt_to_cover_total {rounds mcr : Nat} (h : c.Closable (c.orient mp) (c.orient fp))
    (hmcr : 1001 ≤ mcr ∧ mcr ≤ 32000) (htarget : ∀ t, c.targetCollateralRatio = some t → t < 2 ^ 16)
    (hrounds : c.coverRounds ≤ rounds) :
    Finishes (c.getMaxDebtToCover rounds mp fp mcr) ∧
    (c.WorthInRange (c.orient mp) → ∃ r, c.getMaxDebtToCover rounds mp fp mcr = .ok r) ∧
    (∀ t, c.targetCollateralRatio = some t → c.FitsWide (c.orient mp) (c.orient fp) (max t mcr)) ∧
    (∀ tcr n d low high s, 0 ≤ n / d → 0 ≤ low.toPay → 0 ≤ low.toCover →
      c.searchHigh (c.orient mp) n d = .ok high →
      ¬(high.toPay ≤ low.toPay ∨ high.toCover ≤ low.toCover) →
      Passes (c.searchRound (c.orient mp) (c.orient fp) tcr) ⟨low, high, false⟩ s →
      s.low.toPay + s.high.toPay + 1 < 2 ^ 63 ∧ s.low.toCover + s.high.toCover < 2 ^ 63) ∧
    ∀ tcr x s, c.Inner (c.orient mp) x →
      Passes (c.forwardRound (c.orient mp) (c.orient fp) tcr) (x, 1, 1) s →
      s.1.toPay + s.2.1 < 2 ^ 63 ∧ s.1.toCover + s.2.1 < 2 ^ 63 ∧ s.2.1 + s.2.2 < 2 ^ 63 := by
  refine ⟨finishes_getMaxDebtToCover h.collateral_pos h.debt_pos hrounds,
    fun hworth => getMaxDebtToCover_ok h hworth hrounds, fun t ht => ?_, ?_, ?_⟩
  · refine h.fitsWide (max_lt (htarget t ht) ?_)
    omega
  · intro tcr n d low high s hn hpay hcover hhigh happart hpasses
    exact h.search_fits
      (searchHigh_bracket h.matched h.assets_ne hn h.debt_pos hpay hcover hhigh happart) hpasses
  · intro tcr x s hx hpasses
    exact h.forward_fits hx hpasses

theorem partlyCovered_closable :
    partlyCovered.Closable (partlyCovered.orient ⟨⟨11, 0⟩, ⟨10, 1⟩⟩)
      (partlyCovered.orient ⟨⟨12, 0⟩, ⟨10, 1⟩⟩) :=
  ⟨by decide, by decide, by decide, by decide, by decide,
    ⟨by decide, by decide, by decide, by decide⟩,
    ⟨by decide, by decide, by decide, by decide⟩, ⟨by decide, by decide, by decide, by decide⟩,
    ⟨by decide, by decide, by decide, by decide⟩, by decide⟩

theorem max_debt_to_cover_total_partly :
    ∃ r, partlyCovered.getMaxDebtToCover 6001 ⟨⟨11, 0⟩, ⟨10, 1⟩⟩ ⟨⟨12, 0⟩, ⟨10, 1⟩⟩ 1750 = .ok r :=
  (max_debt_to_cover_total partlyCovered_closable (by decide) (by decide) (by decide)).2.1
    (by decide)

/-- A large debt, and few units of collateral that are worth much. -/
def fewUnits : CallOrder :=
  ⟨0, 3, 1000000000000000, ⟨⟨2, 0⟩, ⟨875000000000001, 1⟩⟩, some 1750⟩

/-- The second estimate is rounded up to two units, which are worth more than there can be of an
asset. -/
theorem cover_of_few_units_throws :
    Price.callPrice fewUnits.getDebt fewUnits.getCollateral 1750 = .ok fewUnits.callPrice ∧
      fewUnits.Closable ⟨⟨1, 0⟩, ⟨600000000000000, 1⟩⟩ ⟨⟨5, 0⟩, ⟨1000000000000000, 1⟩⟩ ∧
      ∀ rounds, fewUnits.getMaxDebtToCover rounds ⟨⟨1, 0⟩, ⟨600000000000000, 1⟩⟩
        ⟨⟨5, 0⟩, ⟨1000000000000000, 1⟩⟩ 1750 = .error .thrown := by
  refine ⟨by decide +kernel, ?_, fun rounds => by with_unfolding_all rfl⟩
  exact ⟨by decide, by decide, by decide, by decide, by decide,
    ⟨by decide, by decide, by decide, by decide⟩, ⟨by decide, by decide, by decide, by decide⟩,
    ⟨by decide, by decide, by decide, by decide⟩, ⟨by decide, by decide, by decide, by decide⟩,
    by decide⟩

end CallOrder

end Nestchain.Market
