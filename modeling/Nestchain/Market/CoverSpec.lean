import Nestchain.Market.Rounds
import Nestchain.Market.Steps

/-! What `get_max_debt_to_cover` returns.  Every cover that the searches look at is stable: rounding
the debt up into collateral and the collateral down into debt changes neither.  So what is returned
below the whole debt is the debt that the payment really covers, and leaves the position above its
target. -/

namespace Nestchain.Market

open Lib

namespace CallOrder

variable {c : CallOrder} {mp fp : Price} {tcr : Nat}

/-! ### Conversions -/

theorem coverOf_eq_ok (hmp : mp.Between c.collateralType c.debtType) {p z : Int} :
    c.coverOf mp p = .ok z ↔ 0 ≤ p * mp.quote.amount ∧
      p * mp.quote.amount / mp.base.amount ≤ maxShareSupply ∧
      z = p * mp.quote.amount / mp.base.amount := by
  simp only [coverOf, bind_eq_ok, pure_eq_ok]
  rw [Asset.mul_base (a := ⟨p, c.collateralType⟩) hmp.base_asset.symm]
  constructor
  · rintro ⟨a, ha, rfl⟩
    obtain ⟨-, hnonneg, hle, rfl⟩ := convert_eq_ok.mp ha
    exact ⟨hnonneg, hle, rfl⟩
  · rintro ⟨hnonneg, hle, rfl⟩
    exact ⟨_, convert_eq_ok.mpr ⟨hmp.base_pos, hnonneg, hle, rfl⟩, rfl⟩

theorem payOf_eq_ok (hmp : mp.Between c.collateralType c.debtType)
    (hne : c.collateralType ≠ c.debtType)
    {z p : Int} :
    c.payOf mp z = .ok p ↔ 0 ≤ z * mp.base.amount + mp.quote.amount - 1 ∧
      (z * mp.base.amount + mp.quote.amount - 1) / mp.quote.amount ≤ maxShareSupply ∧
      p = (z * mp.base.amount + mp.quote.amount - 1) / mp.quote.amount := by
  have hmpNe : mp.base.assetId ≠ mp.quote.assetId := by
    rw [hmp.base_asset, hmp.quote_asset]
    exact hne
  simp only [payOf, bind_eq_ok, pure_eq_ok]
  rw [Asset.multiplyAndRoundUp_quote (a := ⟨z, c.debtType⟩) hmpNe hmp.quote_asset.symm]
  constructor
  · rintro ⟨a, ha, rfl⟩
    obtain ⟨-, hnonneg, hle, rfl⟩ := convert_eq_ok.mp ha
    exact ⟨hnonneg, hle, rfl⟩
  · rintro ⟨hnonneg, hle, rfl⟩
    exact ⟨_, convert_eq_ok.mpr ⟨hmp.quote_pos, hnonneg, hle, rfl⟩, rfl⟩

/-- The debt costs what is paid, and what is paid covers the debt. -/
structure Settled (c : CallOrder) (mp : Price) (x : Cover) : Prop where
  pays : c.payOf mp x.toCover = .ok x.toPay
  covers : c.coverOf mp x.toPay = .ok x.toCover

theorem settled_down (hmp : mp.Between c.collateralType c.debtType)
    (hne : c.collateralType ≠ c.debtType)
    {p z p' : Int} (hz : c.coverOf mp p = .ok z) (hp' : c.payOf mp z = .ok p') :
    c.Settled mp ⟨p', z⟩ := by
  refine ⟨hp', ?_⟩
  have hb := hmp.base_pos
  have hq := hmp.quote_pos
  obtain ⟨hnonneg, hle, hz⟩ := (coverOf_eq_ok hmp).mp hz
  obtain ⟨-, -, hp'⟩ := (payOf_eq_ok hmp hne).mp hp'
  have hup := (roundUp_bounds hq hp').1
  have hp'le : p' ≤ p := by
    rw [hp', roundUp_le_iff hq, hz]
    exact Int.ediv_mul_le _ (ne_of_gt hb)
  have hznonneg : 0 ≤ z := hz ▸ Int.ediv_nonneg hnonneg (le_of_lt hb)
  have heq : p' * mp.quote.amount / mp.base.amount = z := by
    refine le_antisymm ?_ ((Int.le_ediv_iff_mul_le hb).mpr hup)
    rw [hz]
    exact Int.ediv_le_ediv hb (mul_le_mul_of_nonneg_right hp'le (le_of_lt hq))
  exact (coverOf_eq_ok hmp).mpr ⟨(mul_nonneg hznonneg (le_of_lt hb)).trans hup,
    heq.le.trans (hz ▸ hle), heq.symm⟩

theorem settled_up (hmp : mp.Between c.collateralType c.debtType)
    (hne : c.collateralType ≠ c.debtType)
    {z p z' : Int} (hz : 0 ≤ z) (hp : c.payOf mp z = .ok p) (hz' : c.coverOf mp p = .ok z') :
    c.Settled mp ⟨p, z'⟩ ∧ z ≤ z' := by
  have hb := hmp.base_pos
  have hq := hmp.quote_pos
  obtain ⟨-, hle, hp⟩ := (payOf_eq_ok hmp hne).mp hp
  have hcovers := hz'
  obtain ⟨-, -, hz'⟩ := (coverOf_eq_ok hmp).mp hz'
  have hzle : z ≤ z' := by
    rw [hz', Int.le_ediv_iff_mul_le hb]
    exact (roundUp_bounds hq hp).1
  have hback : z' * mp.base.amount ≤ p * mp.quote.amount := by
    rw [hz']
    exact Int.ediv_mul_le _ (ne_of_gt hb)
  have heq : (z' * mp.base.amount + mp.quote.amount - 1) / mp.quote.amount = p := by
    refine le_antisymm ((roundUp_le_iff hq).mpr hback) ?_
    rw [hp]
    refine Int.ediv_le_ediv hq ?_
    have hmul := mul_le_mul_of_nonneg_right hzle (le_of_lt hb)
    omega
  have hnonneg := mul_nonneg (hz.trans hzle) (le_of_lt hb)
  exact ⟨⟨(payOf_eq_ok hmp hne).mpr ⟨by simp only; omega, heq.le.trans (hp ▸ hle), heq.symm⟩,
    hcovers⟩,
    hzle⟩

/-! ### The searches -/

/-- A cover of some of the debt, for some of the collateral. -/
structure Inner (c : CallOrder) (mp : Price) (x : Cover) : Prop where
  settled : c.Settled mp x
  cover_pos : 0 < x.toCover
  pay_lt : x.toPay < c.collateral
  cover_lt : x.toCover < c.debt

/-- The debt to cover is all of it, or so much that the position is above the target afterwards. -/
def Found (c : CallOrder) (mp fp : Price) (tcr : Nat) (z : Int) : Prop :=
  z = c.debt ∨ ∃ pay, c.Inner mp ⟨pay, z⟩ ∧ c.aboveTarget fp tcr ⟨pay, z⟩ = .ok true

/-- The ends of a search: the lower one is below the upper one, which is the whole position or
inside of it. -/
structure Search.Bracket (c : CallOrder) (mp fp : Price) (tcr : Nat) (s : Search) : Prop where
  pay_nonneg : 0 ≤ s.low.toPay
  cover_nonneg : 0 ≤ s.low.toCover
  pay_lt : s.low.toPay < s.high.toPay
  cover_lt : s.low.toCover < s.high.toCover
  high : s.high = ⟨c.collateral, c.debt⟩ ∨ c.Inner mp s.high
  ok : s.highIsOk = true → c.Inner mp s.high ∧ c.aboveTarget fp tcr s.high = .ok true

theorem searchMean_settled (hmp : mp.Between c.collateralType c.debtType)
    (hne : c.collateralType ≠ c.debtType) {s : Search} {mean : Cover}
    (hs : s.Bracket c mp fp tcr) (h : c.searchMean mp s = .ok mean) :
    mean = s.high ∨ (c.Settled mp mean ∧ mean.toPay < s.high.toPay ∧
      mean.toCover < s.high.toCover) := by
  simp only [searchMean] at h
  split at h
  · split at h
    · rename_i hsame
      rw [hsame] at h
      exact Or.inl (pure_eq_ok.mp h)
    · simp only [bind_eq_ok] at h
      obtain ⟨toCover, hcover, h⟩ := h
      split at h
      · exact Or.inl (pure_eq_ok.mp h)
      · rename_i hless
        simp only [bind_eq_ok, require_eq_ok, exists_const, pure_eq_ok] at h
        obtain ⟨toPay, hpay, hlt, rfl⟩ := h
        exact Or.inr ⟨settled_down hmp hne hcover hpay, hlt, not_le.mp hless⟩
  · split at h
    · rename_i hsame
      rw [hsame] at h
      exact Or.inl (pure_eq_ok.mp h)
    · simp only [bind_eq_ok] at h
      obtain ⟨toPay, hpay, h⟩ := h
      split at h
      · exact Or.inl (pure_eq_ok.mp h)
      · rename_i hlt
        simp only [bind_eq_ok] at h
        obtain ⟨toCover, hcover, h⟩ := h
        split at h
        · exact Or.inl (pure_eq_ok.mp h)
        · rename_i hless
          obtain rfl := pure_eq_ok.mp h
          have hnonneg : 0 ≤ (s.low.toCover + s.high.toCover) / 2 := by
            have hlow := hs.cover_nonneg
            have hhigh := hs.cover_lt
            omega
          exact Or.inr ⟨(settled_up hmp hne hnonneg hpay hcover).1, not_le.mp hlt, not_le.mp hless⟩

/-- The cover that a round looks at: the mean, or the upper end when the mean is not between the
ends. -/
def Search.pick (s : Search) (mean : Cover) : Cover :=
  if mean.toPay ≤ s.low.toPay ∨ mean.toCover ≤ s.low.toCover ∨ s.high.toPay < mean.toPay ∨
    s.high.toCover < mean.toCover then s.high else mean

theorem pick_cases (hmp : mp.Between c.collateralType c.debtType)
    (hne : c.collateralType ≠ c.debtType) {s : Search} {mean : Cover}
    (hs : s.Bracket c mp fp tcr) (h : c.searchMean mp s = .ok mean) :
    s.pick mean = s.high ∨ (c.Settled mp (s.pick mean) ∧ s.low.toPay < (s.pick mean).toPay ∧
      s.low.toCover < (s.pick mean).toCover ∧ (s.pick mean).toPay < s.high.toPay ∧
      (s.pick mean).toCover < s.high.toCover) := by
  unfold Search.pick
  split
  · exact Or.inl rfl
  · rename_i hin
    simp only [not_or, not_le, not_lt] at hin
    rcases searchMean_settled hmp hne hs h with he | ⟨hsettled, hpay, hcover⟩
    · exact Or.inl he
    · exact Or.inr ⟨hsettled, hin.1, hin.2.1, hpay, hcover⟩

theorem searchRound_found (hmp : mp.Between c.collateralType c.debtType)
    (hne : c.collateralType ≠ c.debtType) {s : Search} {r : Search ⊕ Int ⊕ Cover}
    (hs : s.Bracket c mp fp tcr) (h : c.searchRound mp fp tcr s = .ok r) :
    (∀ s', r = .inl s' → s'.Bracket c mp fp tcr) ∧
      (∀ z, r = .inr (.inl z) → c.Found mp fp tcr z) ∧ ∀ x, r = .inr (.inr x) → c.Inner mp x := by
  simp only [searchRound, bind_eq_ok] at h
  obtain ⟨mean, hmean, h⟩ := h
  rw [← Search.pick] at h
  have hcases := pick_cases hmp hne hs hmean
  generalize s.pick mean = x at h hcases
  have hlow : s.low.toPay < x.toPay ∧ s.low.toCover < x.toCover := by
    rcases hcases with rfl | ⟨-, hpay, hcover, -⟩
    · exact ⟨hs.pay_lt, hs.cover_lt⟩
    · exact ⟨hpay, hcover⟩
  have hcover := hs.cover_nonneg
  have hpay := hs.pay_nonneg
  -- a cover below the whole position is a stable one
  have hinner : x.toPay < c.collateral → x.toCover < c.debt → c.Inner mp x := by
    intro hpayLt hcoverLt
    rcases hcases with rfl | ⟨hsettled, -⟩
    · rcases hs.high with hwhole | hinner
      · rw [hwhole] at hpayLt
        exact absurd hpayLt (lt_irrefl _)
      · exact hinner
    · exact ⟨hsettled, by omega, hpayLt, hcoverLt⟩
  have hhigh : x.toPay = s.high.toPay → x = s.high := by
    intro he
    rcases hcases with rfl | ⟨-, -, -, hlt, -⟩
    · rfl
    · exact absurd he (ne_of_lt hlt)
  split at h
  · rename_i hdone
    obtain rfl := pure_eq_ok.mp h
    refine ⟨fun _ he => (by cases he), fun z he => ?_, fun _ he => by cases he⟩
    cases he
    obtain rfl := hhigh hdone.1
    rcases hs.high with hwhole | hinner
    · exact Or.inl (by rw [hwhole])
    · rcases hdone.2 with hok | hall
      · exact Or.inr ⟨_, hs.ok hok⟩
      · exact absurd hall (ne_of_lt hinner.pay_lt)
  · simp only [bind_eq_ok, require_eq_ok, exists_const] at h
    obtain ⟨⟨hpayLt, hcoverLt⟩, above, habove, h⟩ := h
    have hin := hinner hpayLt hcoverLt
    cases above with
    | true =>
      rw [if_pos rfl] at h
      split at h <;> obtain rfl := pure_eq_ok.mp h
      · refine ⟨fun _ he => (by cases he), fun z he => ?_, fun _ he => by cases he⟩
        cases he
        exact Or.inr ⟨_, hin, habove⟩
      · refine ⟨fun s' he => ?_, fun _ he => (by cases he), fun _ he => by cases he⟩
        cases he
        exact ⟨hpay, hcover, hlow.1, hlow.2, Or.inr hin, fun _ => ⟨hin, habove⟩⟩
    | false =>
      rw [if_neg (by decide)] at h
      split at h <;> obtain rfl := pure_eq_ok.mp h
      · refine ⟨fun _ he => (by cases he), fun _ he => (by cases he), fun y he => ?_⟩
        cases he
        exact hin
      · rename_i hnot
        refine ⟨fun s' he => ?_, fun _ he => (by cases he), fun _ he => by cases he⟩
        cases he
        rcases hcases with rfl | ⟨-, -, -, hltPay, hltCover⟩
        · exact absurd rfl hnot
        · exact ⟨by simp only; omega, by simp only; omega, hltPay, hltCover, hs.high, hs.ok⟩

theorem forwardStep_inner (hmp : mp.Between c.collateralType c.debtType)
    (hne : c.collateralType ≠ c.debtType) {x y : Cover} {step : Int} (hx : c.Inner mp x)
    (hstep : 0 ≤ step) (h : c.forwardStep mp x step = .ok (some y)) : c.Inner mp y := by
  have hpos := hx.cover_pos
  simp only [forwardStep] at h
  split at h
  · split at h
    · cases pure_eq_ok.mp h
    · simp only [bind_eq_ok] at h
      obtain ⟨toCover, hcover, h⟩ := h
      split at h
      · cases pure_eq_ok.mp h
      · rename_i hcoverLt
        simp only [bind_eq_ok] at h
        obtain ⟨toPay, hpay, h⟩ := h
        split at h
        · cases pure_eq_ok.mp h
        · rename_i hpayLt
          cases pure_eq_ok.mp h
          have hgrows : x.toCover ≤ toCover := by
            obtain ⟨-, -, hbefore⟩ := (coverOf_eq_ok hmp).mp hx.settled.covers
            obtain ⟨-, -, hafter⟩ := (coverOf_eq_ok hmp).mp hcover
            rw [hbefore, hafter]
            exact Int.ediv_le_ediv hmp.base_pos
              (mul_le_mul_of_nonneg_right (by omega) (le_of_lt hmp.quote_pos))
          exact ⟨settled_down hmp hne hcover hpay, by simp only; omega, not_le.mp hpayLt,
            not_le.mp hcoverLt⟩
  · split at h
    · cases pure_eq_ok.mp h
    · simp only [bind_eq_ok] at h
      obtain ⟨toPay, hpay, h⟩ := h
      split at h
      · cases pure_eq_ok.mp h
      · rename_i hpayLt
        simp only [bind_eq_ok] at h
        obtain ⟨toCover, hcover, h⟩ := h
        split at h
        · cases pure_eq_ok.mp h
        · rename_i hcoverLt
          cases pure_eq_ok.mp h
          obtain ⟨hsettled, hgrows⟩ := settled_up hmp hne (by omega) hpay hcover
          exact ⟨hsettled, by simp only; omega, not_le.mp hpayLt, not_le.mp hcoverLt⟩

/-- A state of the search forward. -/
structure Forward (c : CallOrder) (mp : Price) (s : Cover × Int × Int) : Prop where
  inner : c.Inner mp s.1
  step_pos : 0 < s.2.1
  next_pos : 0 < s.2.2

theorem forwardRound_found (hmp : mp.Between c.collateralType c.debtType)
    (hne : c.collateralType ≠ c.debtType) {s : Cover × Int × Int}
    {r : (Cover × Int × Int) ⊕ Int} (hs : c.Forward mp s) (h : c.forwardRound mp fp tcr s = .ok r) :
    (∀ s', r = .inl s' → c.Forward mp s') ∧ ∀ z, r = .inr z → c.Found mp fp tcr z := by
  obtain ⟨hinner, hstep, hnext⟩ := hs
  simp only [forwardRound, bind_eq_ok] at h
  obtain ⟨next, hforward, h⟩ := h
  cases next with
  | none =>
    obtain rfl := pure_eq_ok.mp h
    exact ⟨fun _ he => (nomatch he), fun z he => by cases he; exact Or.inl rfl⟩
  | some y =>
    have hy := forwardStep_inner hmp hne hinner (le_of_lt hstep) hforward
    simp only [bind_eq_ok] at h
    obtain ⟨above, habove, h⟩ := h
    cases above with
    | true =>
      obtain rfl := pure_eq_ok.mp h
      exact ⟨fun _ he => (nomatch he), fun z he => by cases he; exact Or.inr ⟨_, hy, habove⟩⟩
    | false =>
      obtain rfl := pure_eq_ok.mp h
      refine ⟨fun s' he => ?_, fun _ he => nomatch he⟩
      cases he
      exact ⟨hy, hnext, by simp only; omega⟩

/-! ### The upper end of the search -/

/-- The upper end that the second estimate gives. -/
def searchHigh (c : CallOrder) (matchPrice : Price) (numerator denominator : Int) :
    Attempt Cover := do
  let estimate := min (numerator / denominator + 1) c.debt
  let highPay ← (if estimate = c.debt then pure c.collateral else c.payOf matchPrice estimate)
  let highPay := min highPay c.collateral
  let highCover ← (if highPay = c.collateral then pure c.debt else c.coverOf matchPrice highPay)
  pure (if c.debt ≤ highCover then Cover.mk c.collateral c.debt else ⟨highPay, highCover⟩)

theorem searchCover_eq_ok {rounds : Nat} {n d z : Int} {low : Cover} :
    c.searchCover rounds mp fp tcr n d low = .ok z ↔ ∃ high, c.searchHigh mp n d = .ok high ∧
      (if high.toPay ≤ low.toPay ∨ high.toCover ≤ low.toCover then pure c.debt
      else do
        match ← loop (c.searchRound mp fp tcr) rounds ⟨low, high, false⟩ with
        | .inl toCover => pure toCover
        | .inr x => loop (c.forwardRound mp fp tcr) rounds (x, 1, 1) : Attempt Int) = .ok z := by
  simp only [searchCover, searchHigh, bind_eq_ok, pure_eq_ok]
  constructor
  · rintro ⟨highPay, hhighPay, highCover, hhighCover, h⟩
    exact ⟨_, ⟨highPay, hhighPay, highCover, hhighCover, rfl⟩, h⟩
  · rintro ⟨high, ⟨highPay, hhighPay, highCover, hhighCover, rfl⟩, h⟩
    exact ⟨highPay, hhighPay, highCover, hhighCover, h⟩

theorem searchHigh_bracket (hmp : mp.Between c.collateralType c.debtType)
    (hne : c.collateralType ≠ c.debtType) {n d : Int} {low high : Cover} (hn : 0 ≤ n / d)
    (hdebt : 0 < c.debt) (hpay : 0 ≤ low.toPay) (hcover : 0 ≤ low.toCover)
    (h : c.searchHigh mp n d = .ok high)
    (happart : ¬(high.toPay ≤ low.toPay ∨ high.toCover ≤ low.toCover)) :
    Search.Bracket c mp fp tcr ⟨low, high, false⟩ := by
  simp only [not_or, not_le] at happart
  refine ⟨hpay, hcover, happart.1, happart.2, ?_, fun hok => nomatch hok⟩
  simp only [searchHigh, bind_eq_ok, pure_eq_ok] at h
  obtain ⟨highPay, hhighPay, highCover, hhighCover, rfl⟩ := h
  by_cases hwhole : c.debt ≤ highCover
  · exact Or.inl (if_pos hwhole)
  · rw [if_neg hwhole] at happart ⊢
    right
    have hlt : highPay < c.collateral := by
      by_contra hge
      rw [min_eq_right (not_lt.mp hge), if_pos rfl] at hhighCover
      exact hwhole (le_of_eq (pure_eq_ok.mp hhighCover).symm)
    rw [min_eq_left (le_of_lt hlt)] at hhighCover happart ⊢
    rw [if_neg (ne_of_lt hlt)] at hhighCover
    split at hhighPay
    · exact absurd (pure_eq_ok.mp hhighPay) (ne_of_lt hlt)
    · obtain ⟨hsettled, -⟩ := settled_up hmp hne (le_min (by omega)
        (le_of_lt hdebt)) hhighPay hhighCover
      exact ⟨hsettled, by simp only at happart ⊢; omega, hlt, not_le.mp hwhole⟩

theorem searchCover_found (hmp : mp.Between c.collateralType c.debtType)
    (hne : c.collateralType ≠ c.debtType) {rounds : Nat} {n d z : Int} {low : Cover}
    (hn : 0 ≤ n / d)
    (hdebt : 0 < c.debt) (hpay : 0 ≤ low.toPay) (hcover : 0 ≤ low.toCover)
    (h : c.searchCover rounds mp fp tcr n d low = .ok z) : c.Found mp fp tcr z := by
  obtain ⟨high, hhigh, h⟩ := searchCover_eq_ok.mp h
  split at h
  · exact Or.inl (pure_eq_ok.mp h)
  · rename_i happart
    have hstart : Search.Bracket c mp fp tcr ⟨low, high, false⟩ :=
      searchHigh_bracket hmp hne hn hdebt hpay hcover hhigh happart
    simp only [bind_eq_ok] at h
    obtain ⟨r, hr, h⟩ := h
    have hfound := loop_invariant (P := Search.Bracket c mp fp tcr)
      (Q := fun r => (∀ z, r = .inl z → c.Found mp fp tcr z) ∧ ∀ x, r = .inr x → c.Inner mp x)
      (fun s s' hs hb => (searchRound_found hmp hne hs hb).1 s' rfl)
      (fun s r hs hb => ⟨fun z hz => (searchRound_found hmp hne hs hb).2.1 z (by rw [hz]),
        fun x hx => (searchRound_found hmp hne hs hb).2.2 x (by rw [hx])⟩) rounds _ r hstart hr
    cases r with
    | inl y => exact pure_eq_ok.mp h ▸ hfound.1 y rfl
    | inr x =>
      exact loop_invariant (P := c.Forward mp) (Q := c.Found mp fp tcr)
        (fun s s' hs hb => (forwardRound_found hmp hne hs hb).1 s' rfl)
        (fun s z hs hb => (forwardRound_found hmp hne hs hb).2 z rfl) rounds _ z
        ⟨hfound.2 x rfl, Int.one_pos, Int.one_pos⟩ h

/-! ### The result -/

/-- The ratio of the position at the feed price is above the ratio `tcr`, without rounding. -/
def ProtectedAt (c : CallOrder) (fp : Price) (tcr : Nat) : Prop :=
  fp.base.amount * (c.debt * tcr) < fp.quote.amount * (c.collateral * collateralRatioDenom)

instance (c : CallOrder) (fp : Price) (tcr : Nat) : Decidable (c.ProtectedAt fp tcr) :=
  inferInstanceAs (Decidable (_ < _))

theorem between_of_orient {p : Price} (hbase : 0 < p.base.amount) (hquote : 0 < p.quote.amount)
    (h : (c.orient p).base.assetId = c.collateralType ∧ (c.orient p).quote.assetId = c.debtType) :
    (c.orient p).Between c.collateralType c.debtType := by
  refine ⟨h.1, h.2, ?_, ?_⟩
  all_goals
    unfold orient
    split
  · exact hquote
  · exact hbase
  · exact hbase
  · exact hquote

theorem numerator_neg_iff (hq : 0 < mp.quote.amount) :
    fp.base.amount * mp.quote.amount * c.debt * tcr -
      fp.quote.amount * mp.quote.amount * c.collateral * collateralRatioDenom < 0 ↔
      c.ProtectedAt fp tcr := by
  have hfactor : fp.base.amount * mp.quote.amount * c.debt * tcr -
      fp.quote.amount * mp.quote.amount * c.collateral * collateralRatioDenom =
      mp.quote.amount * (fp.base.amount * (c.debt * tcr) -
        fp.quote.amount * (c.collateral * collateralRatioDenom)) := by ring
  rw [hfactor, mul_neg_iff]
  constructor
  · rintro (⟨-, hneg⟩ | ⟨hneg, -⟩)
    · exact sub_neg.mp hneg
    · exact absurd hneg (not_lt.mpr (le_of_lt hq))
  · exact fun hprotected => Or.inl ⟨hq, sub_neg.mpr hprotected⟩

theorem estimate_found (hmp : mp.Between c.collateralType c.debtType)
    (hne : c.collateralType ≠ c.debtType) {paid toCover toPay : Int}
    (hcover : c.coverOf mp paid = .ok toCover)
    (hpay : c.payOf mp toCover = .ok toPay) (hless : toCover < c.debt ∧ toPay < c.collateral)
    (habove : c.aboveTarget fp tcr ⟨toPay, toCover⟩ = .ok true) :
    (toCover = 0 ∧ c.aboveTarget fp tcr ⟨0, 0⟩ = .ok true) ∨ c.Found mp fp tcr toCover := by
  by_cases hzero : toCover = 0
  · subst hzero
    left
    have hq := hmp.quote_pos
    obtain ⟨-, -, hpay⟩ := (payOf_eq_ok hmp hne).mp hpay
    have hnothing : toPay = 0 := by
      rw [hpay, zero_mul]
      exact Int.ediv_eq_zero_of_lt (by omega) (by omega)
    rw [hnothing] at habove
    exact ⟨rfl, habove⟩
  · have hpos : 0 < toCover := lt_of_le_of_ne (coverOf_nonneg hcover) (Ne.symm hzero)
    exact Or.inr (Or.inr ⟨toPay, ⟨settled_down hmp hne hcover hpay, hpos, hless.2, hless.1⟩,
      habove⟩)

/-- A position is asked to cover nothing, when the feed protects it by its call price or by its
target; all of its debt, when it has no target; or what a search finds. -/
theorem getMaxDebtToCover_cases {rounds mcr : Nat} {mp fp : Price} {z : Int}
    (hne : c.collateralType ≠ c.debtType) (hdebt : 0 < c.debt) (hmpBase : 0 < mp.base.amount)
    (hmpQuote : 0 < mp.quote.amount) (hfpBase : 0 < fp.base.amount) (hfpQuote : 0 < fp.quote.amount)
    (h : c.getMaxDebtToCover rounds mp fp mcr = .ok z) :
    (c.orient fp < c.callPrice ∧ z = 0) ∨
      (¬c.orient fp < c.callPrice ∧ c.targetCollateralRatio = none ∧ z = c.debt) ∨
      ∃ target, ¬c.orient fp < c.callPrice ∧ c.targetCollateralRatio = some target ∧
        ((z = 0 ∧ (c.ProtectedAt (c.orient fp) (max target mcr) ∨
          c.aboveTarget (c.orient fp) (max target mcr) ⟨0, 0⟩ = .ok true)) ∨
        c.Found (c.orient mp) (c.orient fp) (max target mcr) z) := by
  simp only [getMaxDebtToCover, bind_eq_ok, require_eq_ok, exists_const] at h
  obtain ⟨hfp, h⟩ := h
  have hfp := between_of_orient hfpBase hfpQuote hfp
  split at h
  · rename_i hprotected
    exact Or.inl ⟨hprotected, pure_eq_ok.mp h⟩
  · rename_i hcallable
    right
    split at h
    · rename_i hnone
      exact Or.inl ⟨hcallable, hnone, pure_eq_ok.mp h⟩
    · rename_i target htarget
      simp only [bind_eq_ok, require_eq_ok, exists_const] at h
      obtain ⟨hmp, h⟩ := h
      have hmp := between_of_orient hmpBase hmpQuote hmp
      refine Or.inr ⟨target, hcallable, htarget, ?_⟩
      split at h
      · rename_i hneg
        exact Or.inl ⟨pure_eq_ok.mp h, Or.inl ((numerator_neg_iff hmp.quote_pos).mp hneg)⟩
      · rename_i hnum
        split at h
        · exact Or.inr (Or.inl (pure_eq_ok.mp h))
        · rename_i hden
          split at h
          · exact Or.inr (Or.inl (pure_eq_ok.mp h))
          · simp only [bind_eq_ok] at h
            obtain ⟨paid, -, toCover, hcover, toPay, hpay, h⟩ := h
            split at h
            · exact Or.inr (Or.inl (pure_eq_ok.mp h))
            · rename_i hless
              simp only [not_or, not_le] at hless
              simp only [bind_eq_ok] at h
              obtain ⟨above, habove, h⟩ := h
              cases above with
              | true =>
                obtain rfl := pure_eq_ok.mp h
                refine (estimate_found hmp hne hcover hpay hless habove).imp_left ?_
                exact fun hzero => ⟨hzero.1, Or.inr hzero.2⟩
              | false =>
                have hnonneg : 0 ≤ (c.orient fp).base.amount * (c.orient mp).quote.amount *
                    (max target mcr : Nat) :=
                  mul_nonneg (mul_nonneg (le_of_lt hfp.base_pos) (le_of_lt hmp.quote_pos))
                    (Int.natCast_nonneg _)
                refine Or.inr (searchCover_found hmp hne (Int.ediv_nonneg ?_ ?_) hdebt
                  (payOf_nonneg hpay)
                  (coverOf_nonneg hcover) h)
                · omega
                · omega

/-- What `get_max_debt_to_cover` returns for a position with its call price.  It is nothing only
when the feed protects the position, by its call price, or, when the call price is rounded, by its
target ratio.  It is the whole debt of a position that is called and has no target.  Otherwise it is
positive and at most the debt, and when some debt is left, it is what its cost covers, and the
position is above the target afterwards. -/
theorem max_debt_to_cover_spec {rounds mcr : Nat} {mp fp : Price} {r : Int} (hdebt : 0 < c.debt)
    (hprice : Price.callPrice c.getDebt c.getCollateral mcr = .ok c.callPrice)
    (hmpBase : 0 < mp.base.amount) (hmpQuote : 0 < mp.quote.amount) (hfpBase : 0 < fp.base.amount)
    (hfpQuote : 0 < fp.quote.amount) (h : c.getMaxDebtToCover rounds mp fp mcr = .ok r) :
    (r = 0 → c.orient fp < c.callPrice ∨ ∃ target, c.targetCollateralRatio = some target ∧
      (c.ProtectedAt (c.orient fp) (max target mcr) ∨
        c.aboveTarget (c.orient fp) (max target mcr) ⟨0, 0⟩ = .ok true)) ∧
    (¬c.orient fp < c.callPrice → c.targetCollateralRatio = none → r = c.debt) ∧
    (r ≠ 0 → 0 < r ∧ r ≤ c.debt ∧ (r < c.debt → ∃ target pay,
      c.targetCollateralRatio = some target ∧ c.payOf (c.orient mp) r = .ok pay ∧
        pay < c.collateral ∧
      c.coverOf (c.orient mp) pay = .ok r ∧
      c.aboveTarget (c.orient fp) (max target mcr) ⟨pay, r⟩ = .ok true)) := by
  have hne : c.collateralType ≠ c.debtType := (Price.callPrice_ids hprice).1
  rcases getMaxDebtToCover_cases hne hdebt hmpBase hmpQuote hfpBase hfpQuote h with
    ⟨hprotected, rfl⟩ | ⟨-, hnone, rfl⟩ | ⟨target, -, htarget, hcase⟩
  · exact ⟨fun _ => Or.inl hprotected, fun hnot => absurd hprotected hnot, fun hr => absurd rfl hr⟩
  · exact ⟨fun hzero => absurd hzero (ne_of_gt hdebt), fun _ _ => rfl,
      fun _ => ⟨hdebt, le_refl _, fun hlt => absurd hlt (lt_irrefl _)⟩⟩
  · have hsome : c.targetCollateralRatio ≠ none := by
      rw [htarget]
      exact Option.some_ne_none target
    refine ⟨fun hzero => ?_, fun _ hnone => absurd hnone hsome, fun hr => ?_⟩
    · rcases hcase with ⟨-, hprotected⟩ | hall | ⟨pay, hinner, -⟩
      · exact Or.inr ⟨target, htarget, hprotected⟩
      · omega
      · exact absurd hzero (ne_of_gt hinner.cover_pos)
    · rcases hcase with ⟨hzero, -⟩ | rfl | ⟨pay, hinner, habove⟩
      · exact absurd hzero hr
      · exact ⟨hdebt, le_refl _, fun hlt => absurd hlt (lt_irrefl _)⟩
      · exact ⟨hinner.cover_pos, le_of_lt hinner.cover_lt, fun _ =>
          ⟨target, pay, htarget, hinner.settled.pays, hinner.pay_lt, hinner.settled.covers, habove⟩⟩

/-- A position that is called and covers some of its debt. -/
def partlyCovered : CallOrder := ⟨0, 2000, 1000, ⟨⟨8, 0⟩, ⟨7, 1⟩⟩, some 2000⟩

theorem max_debt_to_cover_spec_partly :
    partlyCovered.getMaxDebtToCover 50 ⟨⟨11, 0⟩, ⟨10, 1⟩⟩ ⟨⟨12, 0⟩, ⟨10, 1⟩⟩ 1750 = .ok 308 ∧
      ∃ target pay, partlyCovered.targetCollateralRatio = some target ∧
        partlyCovered.payOf ⟨⟨11, 0⟩, ⟨10, 1⟩⟩ 308 = .ok pay ∧ pay < 2000 ∧
        partlyCovered.coverOf ⟨⟨11, 0⟩, ⟨10, 1⟩⟩ pay = .ok 308 ∧
        partlyCovered.aboveTarget ⟨⟨12, 0⟩, ⟨10, 1⟩⟩ (max target 1750) ⟨pay, 308⟩ = .ok true := by
  have hresult : partlyCovered.getMaxDebtToCover 50 ⟨⟨11, 0⟩, ⟨10, 1⟩⟩ ⟨⟨12, 0⟩, ⟨10, 1⟩⟩ 1750 =
      .ok 308 := by decide +kernel
  have hspec := max_debt_to_cover_spec (by decide) (by decide +kernel) (by decide) (by decide)
    (by decide) (by decide) hresult
  exact ⟨hresult, (hspec.2.2 (by decide)).2.2 (by decide)⟩

/-- One unit of debt, whose call price does not fit and is rounded down a lot. -/
def coarselyPriced : CallOrder :=
  ⟨0, 999999999999999, 1, ⟨⟨1000000000000000, 0⟩, ⟨3, 1⟩⟩, some 1750⟩

/-- A position that is called and is not asked to cover anything. -/
theorem called_position_covers_nothing :
    Price.callPrice coarselyPriced.getDebt coarselyPriced.getCollateral 1750 =
        .ok coarselyPriced.callPrice ∧
      ¬coarselyPriced.orient ⟨⟨400000000000000, 0⟩, ⟨1, 1⟩⟩ < coarselyPriced.callPrice ∧
      coarselyPriced.getMaxDebtToCover 50 ⟨⟨400000000000000, 0⟩, ⟨1, 1⟩⟩
        ⟨⟨400000000000000, 0⟩, ⟨1, 1⟩⟩ 1750 = .ok 0 := by
  refine ⟨by decide +kernel, by decide +kernel, by decide +kernel⟩

end CallOrder

end Nestchain.Market
