import Nestchain.Market.Ledger

/-! `call_order_object::get_max_debt_to_cover`: how much debt a margin call covers so that the
position reaches its target collateral ratio.  A first estimate is improved by a binary search, and
then by a search forward in steps that grow like the Fibonacci numbers. -/

namespace Nestchain.Market

open Lib

/-- An amount of collateral to pay and the debt that it covers. -/
structure Cover where
  toPay : Int
  toCover : Int
deriving DecidableEq

namespace CallOrder

variable (c : CallOrder)

/-- `to_pay * match_price` -/
def coverOf (matchPrice : Price) (toPay : Int) : Attempt Int := do
  let a ← (Asset.mk toPay c.collateralType).mul matchPrice
  pure a.amount

/-- `to_cover.multiply_and_round_up( match_price )` -/
def payOf (matchPrice : Price) (toCover : Int) : Attempt Int := do
  let a ← (Asset.mk toCover c.debtType).multiplyAndRoundUp matchPrice
  pure a.amount

/-- Whether the position is above the target ratio at the feed price after a cover. -/
def aboveTarget (feedPrice : Price) (tcr : Nat) (x : Cover) : Attempt Bool := do
  let p ← Price.callPrice ⟨c.debt - x.toCover, c.debtType⟩
    ⟨c.collateral - x.toPay, c.collateralType⟩ tcr
  pure (decide (feedPrice < p))

/-- The state of the binary search. -/
structure Search where
  low : Cover
  high : Cover
  highIsOk : Bool
deriving DecidableEq

def searchMean (matchPrice : Price) (s : Search) : Attempt Cover :=
  if matchPrice.base.amount < matchPrice.quote.amount then do
    let toPay := (s.low.toPay + s.high.toPay + 1) / 2
    if toPay = s.high.toPay then pure ⟨toPay, s.high.toCover⟩
    else do
      let toCover ← c.coverOf matchPrice toPay
      if s.high.toCover ≤ toCover then pure s.high
      else do
        let toPay ← c.payOf matchPrice toCover
        require (toPay < s.high.toPay)
        pure ⟨toPay, toCover⟩
  else do
    let toCover := (s.low.toCover + s.high.toCover) / 2
    if toCover = s.high.toCover then pure ⟨s.high.toPay, toCover⟩
    else do
      let toPay ← c.payOf matchPrice toCover
      if s.high.toPay ≤ toPay then pure s.high
      else do
        let toCover ← c.coverOf matchPrice toPay
        if s.high.toCover ≤ toCover then pure s.high else pure ⟨toPay, toCover⟩

/-- A round of the binary search: it goes on, returns a debt to cover, or leaves the cover at which
the search forward starts. -/
def searchRound (matchPrice feedPrice : Price) (tcr : Nat) (s : Search) :
    Attempt (Search ⊕ Int ⊕ Cover) := do
  let mean ← c.searchMean matchPrice s
  let x := if mean.toPay ≤ s.low.toPay ∨ mean.toCover ≤ s.low.toCover ∨
    s.high.toPay < mean.toPay ∨ s.high.toCover < mean.toCover then s.high else mean
  if x.toPay = s.high.toPay ∧ (s.highIsOk = true ∨ x.toPay = c.collateral) then
    pure (.inr (.inl x.toCover))
  else do
    require (x.toPay < c.collateral ∧ x.toCover < c.debt)
    if ← c.aboveTarget feedPrice tcr x then
      if x.toPay = s.high.toPay then pure (.inr (.inl x.toCover))
      else pure (.inl ⟨s.low, x, true⟩)
    else if x.toPay = s.high.toPay then pure (.inr (.inr x))
    else pure (.inl { s with low := x })

/-- The cover that is `step` further, unless that reaches the whole position. -/
def forwardStep (matchPrice : Price) (x : Cover) (step : Int) : Attempt (Option Cover) :=
  if matchPrice.quote.amount < matchPrice.base.amount then do
    let toPay := x.toPay + step
    if c.collateral ≤ toPay then pure none
    else do
      let toCover ← c.coverOf matchPrice toPay
      if c.debt ≤ toCover then pure none
      else do
        let toPay ← c.payOf matchPrice toCover
        if c.collateral ≤ toPay then pure none else pure (some ⟨toPay, toCover⟩)
  else do
    let toCover := x.toCover + step
    if c.debt ≤ toCover then pure none
    else do
      let toPay ← c.payOf matchPrice toCover
      if c.collateral ≤ toPay then pure none
      else do
        let toCover ← c.coverOf matchPrice toPay
        if c.debt ≤ toCover then pure none else pure (some ⟨toPay, toCover⟩)

/-- A round of the search forward, with its step and the next one. -/
def forwardRound (matchPrice feedPrice : Price) (tcr : Nat) (s : Cover × Int × Int) :
    Attempt ((Cover × Int × Int) ⊕ Int) := do
  match ← c.forwardStep matchPrice s.1 s.2.1 with
  | none => pure (.inr c.debt)
  | some y =>
    if ← c.aboveTarget feedPrice tcr y then pure (.inr y.toCover)
    else pure (.inl (y, s.2.2, s.2.1 + s.2.2))

/-- The search from the first estimate `low`, with the two fractions that give the second. -/
def searchCover (rounds : Nat) (matchPrice feedPrice : Price) (tcr : Nat)
    (numerator denominator : Int) (low : Cover) : Attempt Int := do
  let estimate := min (numerator / denominator + 1) c.debt
  let highPay ← (if estimate = c.debt then pure c.collateral else c.payOf matchPrice estimate)
  let highPay := min highPay c.collateral
  let highCover ← (if highPay = c.collateral then pure c.debt else c.coverOf matchPrice highPay)
  let high := if c.debt ≤ highCover then Cover.mk c.collateral c.debt else ⟨highPay, highCover⟩
  if high.toPay ≤ low.toPay ∨ high.toCover ≤ low.toCover then pure c.debt
  else do
    match ← loop (c.searchRound matchPrice feedPrice tcr) rounds ⟨low, high, false⟩ with
    | .inl toCover => pure toCover
    | .inr x => loop (c.forwardRound matchPrice feedPrice tcr) rounds (x, 1, 1)

/-- The price with the collateral as its base. -/
def orient (p : Price) : Price :=
  if p.base.assetId ≠ c.callPrice.base.assetId then p.inverse else p

/-- `get_max_debt_to_cover`, whose two loops run for at most so many rounds each. -/
def getMaxDebtToCover (rounds : Nat) (matchPrice feedPrice : Price)
    (maintenanceCollateralRatio : Nat) : Attempt Int := do
  let fp := c.orient feedPrice
  require (fp.base.assetId = c.collateralType ∧ fp.quote.assetId = c.debtType)
  if fp < c.callPrice then pure 0
  else
    match c.targetCollateralRatio with
    | none => pure c.debt
    | some target => do
      let tcr := max target maintenanceCollateralRatio
      let mp := c.orient matchPrice
      require (mp.base.assetId = c.collateralType ∧ mp.quote.assetId = c.debtType)
      let numerator := fp.base.amount * mp.quote.amount * c.debt * tcr -
        fp.quote.amount * mp.quote.amount * c.collateral * collateralRatioDenom
      let denominator := fp.base.amount * mp.quote.amount * tcr -
        fp.quote.amount * mp.base.amount * collateralRatioDenom
      if numerator < 0 then pure 0
      else if denominator ≤ 0 then pure c.debt
      else if c.debt ≤ numerator / denominator then pure c.debt
      else do
        let paid ← (Asset.mk (numerator / denominator) c.debtType).mul mp
        let toCover ← c.coverOf mp paid.amount
        let toPay ← c.payOf mp toCover
        if c.debt ≤ toCover ∨ c.collateral ≤ toPay then pure c.debt
        else do
          if ← c.aboveTarget fp tcr ⟨toPay, toCover⟩ then pure toCover
          else
            c.searchCover rounds mp fp tcr (numerator + fp.base.amount * mp.quote.amount * tcr)
              denominator ⟨toPay, toCover⟩

/-! ### The result is between zero and the debt -/

variable {c}

theorem coverOf_nonneg {p : Price} {x y : Int} (h : c.coverOf p x = .ok y) : 0 ≤ y := by
  simp only [coverOf, bind_eq_ok, pure_eq_ok] at h
  obtain ⟨a, ha, rfl⟩ := h
  exact Asset.mul_nonneg ha

/-- The amount of debt is between zero and the debt of the order. -/
def Covers (c : CallOrder) (x : Int) : Prop := 0 ≤ x ∧ x ≤ c.debt

theorem searchRound_covers {mp fp : Price} {tcr : Nat} {s : Search} {r : Search ⊕ Int ⊕ Cover}
    (hlow : c.Covers s.low.toCover) (hhigh : c.Covers s.high.toCover)
    (h : c.searchRound mp fp tcr s = .ok r) :
    (∀ s', r = .inl s' → c.Covers s'.low.toCover ∧ c.Covers s'.high.toCover) ∧
      (∀ x, r = .inr (.inl x) → c.Covers x) := by
  simp only [searchRound, bind_eq_ok] at h
  obtain ⟨mean, -, h⟩ := h
  generalize hx : (if mean.toPay ≤ s.low.toPay ∨ mean.toCover ≤ s.low.toCover ∨
    s.high.toPay < mean.toPay ∨ s.high.toCover < mean.toCover then s.high else mean) = x at h
  have hcov : c.Covers x.toCover := by
    split at hx
    · exact hx ▸ hhigh
    · rename_i hin
      simp only [not_or, not_le, not_lt] at hin
      subst hx
      exact ⟨hlow.1.trans (le_of_lt hin.2.1), hin.2.2.2.trans hhigh.2⟩
  split at h
  · obtain rfl := pure_eq_ok.mp h
    exact ⟨fun _ he => (nomatch he), fun y he => by cases he; exact hcov⟩
  · simp only [bind_eq_ok] at h
    obtain ⟨-, -, above, -, h⟩ := h
    split at h <;> split at h <;> obtain rfl := pure_eq_ok.mp h
    · exact ⟨fun _ he => (nomatch he), fun y he => by cases he; exact hcov⟩
    · exact ⟨fun s' he => by cases he; exact ⟨hlow, hcov⟩, fun _ he => nomatch he⟩
    · exact ⟨fun _ he => (nomatch he), fun _ he => nomatch he⟩
    · exact ⟨fun s' he => by cases he; exact ⟨hcov, hhigh⟩, fun _ he => nomatch he⟩

theorem forwardStep_covers {mp : Price} {x y : Cover} {step : Int}
    (h : c.forwardStep mp x step = .ok (some y)) : c.Covers y.toCover := by
  simp only [forwardStep] at h
  split at h
  · split at h
    · cases pure_eq_ok.mp h
    · simp only [bind_eq_ok] at h
      obtain ⟨toCover, hc, h⟩ := h
      split at h
      · cases pure_eq_ok.mp h
      · rename_i hlt
        simp only [bind_eq_ok] at h
        obtain ⟨toPay, -, h⟩ := h
        split at h
        · cases pure_eq_ok.mp h
        · cases pure_eq_ok.mp h
          exact ⟨coverOf_nonneg hc, le_of_lt (not_le.mp hlt)⟩
  · split at h
    · cases pure_eq_ok.mp h
    · simp only [bind_eq_ok] at h
      obtain ⟨toPay, -, h⟩ := h
      split at h
      · cases pure_eq_ok.mp h
      · simp only [bind_eq_ok] at h
        obtain ⟨toCover, hc, h⟩ := h
        split at h
        · cases pure_eq_ok.mp h
        · rename_i hlt
          cases pure_eq_ok.mp h
          exact ⟨coverOf_nonneg hc, le_of_lt (not_le.mp hlt)⟩

theorem forwardRound_covers {mp fp : Price} {tcr : Nat} {s : Cover × Int × Int} {x : Int}
    (hdebt : 0 ≤ c.debt) (h : c.forwardRound mp fp tcr s = .ok (.inr x)) : c.Covers x := by
  simp only [forwardRound, bind_eq_ok] at h
  obtain ⟨next, hnext, h⟩ := h
  cases next with
  | none =>
    cases pure_eq_ok.mp h
    exact ⟨hdebt, le_refl _⟩
  | some y =>
    simp only [bind_eq_ok] at h
    obtain ⟨above, -, h⟩ := h
    split at h
    · cases pure_eq_ok.mp h
      exact forwardStep_covers hnext
    · cases pure_eq_ok.mp h

theorem searchCover_covers {rounds : Nat} {mp fp : Price} {tcr : Nat} {n d x : Int} {low : Cover}
    (hdebt : 0 ≤ c.debt) (hlow : c.Covers low.toCover)
    (h : c.searchCover rounds mp fp tcr n d low = .ok x) : c.Covers x := by
  simp only [searchCover, bind_eq_ok] at h
  obtain ⟨highPay, -, highCover, hcover, h⟩ := h
  generalize hhigh : (if c.debt ≤ highCover then Cover.mk c.collateral c.debt
    else ⟨min highPay c.collateral, highCover⟩) = high at h
  have hcov : c.Covers high.toCover := by
    split at hhigh
    · subst hhigh
      exact ⟨hdebt, le_refl _⟩
    · rename_i hlt
      subst hhigh
      refine ⟨?_, le_of_lt (not_le.mp hlt)⟩
      split at hcover
      · cases pure_eq_ok.mp hcover
        exact hdebt
      · exact coverOf_nonneg hcover
  split at h
  · cases pure_eq_ok.mp h
    exact ⟨hdebt, le_refl _⟩
  · simp only [bind_eq_ok] at h
    obtain ⟨r, hr, h⟩ := h
    have hfound := loop_invariant
      (fun s s' hs hb => (searchRound_covers (c := c) hs.1 hs.2 hb).1 s' rfl)
      (fun s r hs hb => (searchRound_covers (c := c) (r := .inr r) hs.1 hs.2 hb).2) rounds _ r
      ⟨hlow, hcov⟩ hr
    cases r with
    | inl y =>
      cases pure_eq_ok.mp h
      exact hfound x rfl
    | inr y =>
      exact loop_invariant (fun _ _ _ _ => trivial)
        (fun s r _ hb => forwardRound_covers hdebt hb) rounds _ x trivial h

theorem getMaxDebtToCover_covers {rounds : Nat} {mp fp : Price} {mcr : Nat} {x : Int}
    (hdebt : 0 ≤ c.debt) (h : c.getMaxDebtToCover rounds mp fp mcr = .ok x) : c.Covers x := by
  have hzero : c.Covers 0 := ⟨le_refl _, hdebt⟩
  have hall : c.Covers c.debt := ⟨hdebt, le_refl _⟩
  simp only [getMaxDebtToCover, bind_eq_ok] at h
  obtain ⟨-, -, h⟩ := h
  split at h
  · cases pure_eq_ok.mp h
    exact hzero
  · split at h
    · cases pure_eq_ok.mp h
      exact hall
    · simp only [bind_eq_ok] at h
      obtain ⟨-, -, h⟩ := h
      split at h
      · cases pure_eq_ok.mp h
        exact hzero
      · split at h
        · cases pure_eq_ok.mp h
          exact hall
        · split at h
          · cases pure_eq_ok.mp h
            exact hall
          · simp only [bind_eq_ok] at h
            obtain ⟨paid, -, toCover, hcov, toPay, -, h⟩ := h
            split at h
            · cases pure_eq_ok.mp h
              exact hall
            · rename_i hlt
              have hlow : c.Covers toCover :=
                ⟨coverOf_nonneg hcov, le_of_lt (not_le.mp fun hle => hlt (Or.inl hle))⟩
              simp only [bind_eq_ok] at h
              obtain ⟨above, -, h⟩ := h
              split at h
              · cases pure_eq_ok.mp h
                exact hlow
              · exact searchCover_covers hdebt hlow h

end CallOrder

end Nestchain.Market
