import Nestchain.Market.Price
import Mathlib.Data.Int.ConditionallyCompleteOrder
import Mathlib.Order.GaloisConnection.Defs

/-! The laws of rounding.  Converting down over a price and converting up over it are adjoint, so
that the two can be alternated without losing more than the first rounding does. -/

namespace Nestchain.Market

open Lib

/-- The amounts are on the two sides of the price. -/
def Price.Opposite (p : Price) (x y : Asset) : Prop :=
  x.assetId ≠ y.assetId ∧
    (x.assetId = p.base.assetId ∧ y.assetId = p.quote.assetId ∨
      x.assetId = p.quote.assetId ∧ y.assetId = p.base.assetId)

instance (p : Price) (x y : Asset) : Decidable (p.Opposite x y) :=
  inferInstanceAs (Decidable (_ ∧ _))

/-- What holds of the conversions of amounts on the two sides, wherever they are in range. -/
structure Price.RoundingLaws (p : Price) (x y : Asset) : Prop where
  adjoint : ∀ u d, y.multiplyAndRoundUp p = .ok u → x.mul p = .ok d →
    (u.amount ≤ x.amount ↔ y.amount ≤ d.amount)
  up_down_le : ∀ d u, x.mul p = .ok d → d.multiplyAndRoundUp p = .ok u → u.amount ≤ x.amount
  le_down_up : ∀ u d, y.multiplyAndRoundUp p = .ok u → u.mul p = .ok d → y.amount ≤ d.amount
  down_up_down : ∀ d u, x.mul p = .ok d → d.multiplyAndRoundUp p = .ok u → u.mul p = .ok d
  up_down_up : ∀ u d, y.multiplyAndRoundUp p = .ok u → u.mul p = .ok d →
    d.multiplyAndRoundUp p = .ok u
  down_monotone : ∀ x' d d' : Asset, x'.assetId = x.assetId → x.amount ≤ x'.amount →
    x.mul p = .ok d → x'.mul p = .ok d' → d.amount ≤ d'.amount
  up_monotone : ∀ y' u u' : Asset, y'.assetId = y.assetId → y.amount ≤ y'.amount →
    y.multiplyAndRoundUp p = .ok u → y'.multiplyAndRoundUp p = .ok u' → u.amount ≤ u'.amount
  down_le_up : ∀ d u, x.mul p = .ok d → x.multiplyAndRoundUp p = .ok u → d.amount ≤ u.amount
  remainder : ∀ d u, x.mul p = .ok d → d.multiplyAndRoundUp p = .ok u →
    ∃ r, x.minus u = .ok r ∧ r.mul p = .ok ⟨0, y.assetId⟩

theorem conversion_gc {b q : Int} (hb : 0 < b) (hq : 0 < q) :
    GaloisConnection (fun y : Int => (y * b + q - 1) / q) fun x : Int => x * q / b := by
  intro y x
  show (y * b + q - 1) / q ≤ x ↔ y ≤ x * q / b
  rw [roundUp_le_iff hq, Int.le_ediv_iff_mul_le hb]

theorem lost_div_eq_zero {b q x : Int} (hb : 0 < b) (hq : 0 < q) :
    0 ≤ x - (x * q / b * b + q - 1) / q ∧ (x - (x * q / b * b + q - 1) / q) * q / b = 0 := by
  have hle := (conversion_gc hb hq).l_u_le x
  have hup := (roundUp_bounds (n := x * q / b * b) hq rfl).1
  have hdown := Int.lt_ediv_add_one_mul_self (x * q) hb
  have hnonneg : 0 ≤ x - (x * q / b * b + q - 1) / q := by
    simpa using hle
  refine ⟨hnonneg, Int.ediv_eq_zero_of_lt (mul_nonneg hnonneg (le_of_lt hq)) ?_⟩
  rw [sub_mul]
  rw [add_mul, one_mul] at hdown
  omega

theorem div_le_roundUp {n d : Int} (hd : 0 < d) : n / d ≤ (n + d - 1) / d :=
  Int.ediv_le_ediv hd (by omega)

section

variable {p : Price}

theorem Asset.down_eq_ok {i : Int} {d : Asset} :
    Asset.mul ⟨i, p.base.assetId⟩ p = .ok d ↔ 0 < p.base.amount ∧ 0 ≤ i * p.quote.amount ∧
      i * p.quote.amount / p.base.amount ≤ maxShareSupply ∧
      d = ⟨i * p.quote.amount / p.base.amount, p.quote.assetId⟩ := by
  rw [Asset.mul_base (a := ⟨i, p.base.assetId⟩) rfl, convert_eq_ok]

theorem Asset.up_eq_ok (hne : p.base.assetId ≠ p.quote.assetId) {j : Int} {u : Asset} :
    Asset.multiplyAndRoundUp ⟨j, p.quote.assetId⟩ p = .ok u ↔ 0 < p.quote.amount ∧
      0 ≤ j * p.base.amount + p.quote.amount - 1 ∧
      (j * p.base.amount + p.quote.amount - 1) / p.quote.amount ≤ maxShareSupply ∧
      u = ⟨(j * p.base.amount + p.quote.amount - 1) / p.quote.amount, p.base.assetId⟩ := by
  rw [Asset.multiplyAndRoundUp_quote (a := ⟨j, p.quote.assetId⟩) hne rfl, convert_eq_ok]

theorem Price.roundingLaws_base (hbase : 0 < p.base.amount) (hquote : 0 < p.quote.amount)
    (hne : p.base.assetId ≠ p.quote.assetId) (i j : Int) :
    p.RoundingLaws ⟨i, p.base.assetId⟩ ⟨j, p.quote.assetId⟩ := by
  have gc := conversion_gc hbase hquote
  constructor
  case adjoint =>
    intro u d hu hd
    obtain ⟨-, -, -, rfl⟩ := (Asset.up_eq_ok hne).mp hu
    obtain ⟨-, -, -, rfl⟩ := Asset.down_eq_ok.mp hd
    exact gc j i
  case up_down_le =>
    intro d u hd hu
    obtain ⟨-, -, -, rfl⟩ := Asset.down_eq_ok.mp hd
    obtain ⟨-, -, -, rfl⟩ := (Asset.up_eq_ok hne).mp hu
    exact gc.l_u_le i
  case le_down_up =>
    intro u d hu hd
    obtain ⟨-, -, -, rfl⟩ := (Asset.up_eq_ok hne).mp hu
    obtain ⟨-, -, -, rfl⟩ := Asset.down_eq_ok.mp hd
    exact gc.le_u_l j
  case down_up_down =>
    intro d u hd hu
    have hnonneg := Asset.multiplyAndRoundUp_nonneg hu
    obtain ⟨-, -, hrange, rfl⟩ := Asset.down_eq_ok.mp hd
    obtain ⟨-, -, -, rfl⟩ := (Asset.up_eq_ok hne).mp hu
    have hagain := gc.u_l_u_eq_u i
    rw [Asset.down_eq_ok]
    refine ⟨hbase, mul_nonneg hnonneg (le_of_lt hquote), ?_, ?_⟩
    · exact le_of_eq_of_le hagain hrange
    · exact congrArg (Asset.mk · p.quote.assetId) hagain.symm
  case up_down_up =>
    intro u d hu hd
    have hnonneg := Asset.mul_nonneg hd
    obtain ⟨-, -, hrange, rfl⟩ := (Asset.up_eq_ok hne).mp hu
    obtain ⟨-, -, -, rfl⟩ := Asset.down_eq_ok.mp hd
    have hagain := gc.l_u_l_eq_l j
    have hproduct : 0 ≤ (j * p.base.amount + p.quote.amount - 1) / p.quote.amount *
        p.quote.amount / p.base.amount * p.base.amount := mul_nonneg hnonneg (le_of_lt hbase)
    rw [Asset.up_eq_ok hne]
    refine ⟨hquote, by omega, ?_, ?_⟩
    · exact le_of_eq_of_le hagain hrange
    · exact congrArg (Asset.mk · p.base.assetId) hagain.symm
  case down_monotone =>
    rintro ⟨i', id⟩ d d' hid hle hd hd'
    obtain rfl : id = p.base.assetId := hid
    obtain ⟨-, -, -, rfl⟩ := Asset.down_eq_ok.mp hd
    obtain ⟨-, -, -, rfl⟩ := Asset.down_eq_ok.mp hd'
    exact gc.monotone_u hle
  case up_monotone =>
    rintro ⟨j', id⟩ u u' hid hle hu hu'
    obtain rfl : id = p.quote.assetId := hid
    obtain ⟨-, -, -, rfl⟩ := (Asset.up_eq_ok hne).mp hu
    obtain ⟨-, -, -, rfl⟩ := (Asset.up_eq_ok hne).mp hu'
    exact gc.monotone_l hle
  case down_le_up =>
    intro d u hd hu
    obtain ⟨-, -, -, rfl⟩ := Asset.down_eq_ok.mp hd
    rw [Asset.multiplyAndRoundUp_base (a := ⟨i, p.base.assetId⟩) rfl, convert_eq_ok] at hu
    obtain ⟨-, -, -, rfl⟩ := hu
    exact div_le_roundUp hbase
  case remainder =>
    intro d u hd hu
    obtain ⟨-, -, -, rfl⟩ := Asset.down_eq_ok.mp hd
    obtain ⟨-, -, -, rfl⟩ := (Asset.up_eq_ok hne).mp hu
    obtain ⟨hnonneg, hlost⟩ := lost_div_eq_zero (x := i) hbase hquote
    refine ⟨_, Asset.minus_eq_ok.mpr ⟨rfl, rfl⟩, Asset.down_eq_ok.mpr ⟨hbase, ?_, ?_, ?_⟩⟩
    · exact mul_nonneg hnonneg (le_of_lt hquote)
    · exact le_of_eq_of_le hlost (by decide)
    · exact congrArg (Asset.mk · p.quote.assetId) hlost.symm

theorem Price.RoundingLaws.of_inverse (hne : p.base.assetId ≠ p.quote.assetId) {x y : Asset}
    (h : p.inverse.RoundingLaws x y) : p.RoundingLaws x y := by
  have hdown := fun a => Asset.mul_inverse (a := a) hne
  have hup := fun a => Asset.multiplyAndRoundUp_inverse (a := a) hne
  obtain ⟨h₁, h₂, h₃, h₄, h₅, h₆, h₇, h₈, h₉⟩ := h
  simp only [hdown, hup] at h₁ h₂ h₃ h₄ h₅ h₆ h₇ h₈ h₉
  exact ⟨h₁, h₂, h₃, h₄, h₅, h₆, h₇, h₈, h₉⟩

end

/-- Converting up is the lower adjoint of converting down, from either side of a price. -/
theorem conversions_adjoint (p : Price) (hbase : 0 < p.base.amount) (hquote : 0 < p.quote.amount)
    (x y : Asset) (h : p.Opposite x y) : p.RoundingLaws x y := by
  obtain ⟨i, idx⟩ := x
  obtain ⟨j, idy⟩ := y
  obtain ⟨hne, ⟨rfl, rfl⟩ | ⟨rfl, rfl⟩⟩ := h
  · exact Price.roundingLaws_base hbase hquote hne i j
  · exact .of_inverse hne.symm (Price.roundingLaws_base (p := p.inverse) hquote hbase hne i j)

theorem conversions_adjoint_thirds :
    Price.RoundingLaws ⟨⟨3, 0⟩, ⟨7, 1⟩⟩ ⟨10, 1⟩ ⟨4, 0⟩ :=
  conversions_adjoint ⟨⟨3, 0⟩, ⟨7, 1⟩⟩ (by decide) (by decide) ⟨10, 1⟩ ⟨4, 0⟩ (by decide)

end Nestchain.Market
