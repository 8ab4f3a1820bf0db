import Nestchain.Lib.Attempt
import Mathlib.Data.Rat.Lemmas
import Mathlib.Tactic.Linarith
import Mathlib.Tactic.Ring

/-! Amounts and prices.  A `share_type` is a checked 64-bit integer, whose operations throw instead
of wrapping around, and it is an `Int` here; a product of two of them fits in the 128-bit integers
that the code multiplies in. -/

namespace Nestchain.Market

open Lib

abbrev AssetId := Nat

abbrev AccountId := Nat

/-- `asset_id_type()`, the core asset. -/
def coreAsset : AssetId := 0

/-- `GRAPHENE_MAX_SHARE_SUPPLY` -/
def maxShareSupply : Int := 1000000000000000

/-- `GRAPHENE_100_PERCENT` -/
def fullPercent : Nat := 10000

/-- `GRAPHENE_COLLATERAL_RATIO_DENOM` -/
def collateralRatioDenom : Nat := 1000

@[ext]
structure Asset where
  amount : Int
  assetId : AssetId
deriving DecidableEq

namespace Asset

/-- `operator <` of two amounts, which throws for amounts of different assets. -/
def less (a b : Asset) : Attempt Bool := do
  require (a.assetId = b.assetId)
  pure (decide (a.amount < b.amount))

def plus (a b : Asset) : Attempt Asset := do
  require (a.assetId = b.assetId)
  pure ⟨a.amount + b.amount, a.assetId⟩

def minus (a b : Asset) : Attempt Asset := do
  require (a.assetId = b.assetId)
  pure ⟨a.amount - b.amount, a.assetId⟩

def neg (a : Asset) : Asset := ⟨-a.amount, a.assetId⟩

/-- `std::min` -/
def least (a b : Asset) : Attempt Asset := do
  if ← b.less a then pure b else pure a

@[simp] theorem less_eq_ok {a b : Asset} {r : Bool} :
    a.less b = .ok r ↔ a.assetId = b.assetId ∧ r = decide (a.amount < b.amount) := by
  simp only [less, bind_eq_ok, require_eq_ok, pure_eq_ok, exists_const]

@[simp] theorem plus_eq_ok {a b c : Asset} :
    a.plus b = .ok c ↔ a.assetId = b.assetId ∧ c = ⟨a.amount + b.amount, a.assetId⟩ := by
  simp only [plus, bind_eq_ok, require_eq_ok, pure_eq_ok, exists_const]

@[simp] theorem minus_eq_ok {a b c : Asset} :
    a.minus b = .ok c ↔ a.assetId = b.assetId ∧ c = ⟨a.amount - b.amount, a.assetId⟩ := by
  simp only [minus, bind_eq_ok, require_eq_ok, pure_eq_ok, exists_const]

theorem least_spec {a b c : Asset} (h : a.least b = .ok c) :
    a.assetId = b.assetId ∧ c.assetId = a.assetId ∧ c.amount ≤ a.amount ∧ c.amount ≤ b.amount ∧
      (c = a ∨ c = b) := by
  simp only [least, bind_eq_ok, less_eq_ok] at h
  obtain ⟨r, ⟨hid, rfl⟩, h⟩ := h
  split at h
  · rename_i hlt
    obtain rfl := pure_eq_ok.mp h
    exact ⟨hid.symm, hid, le_of_lt (of_decide_eq_true hlt), le_refl _, Or.inr rfl⟩
  · rename_i hlt
    obtain rfl := pure_eq_ok.mp h
    exact ⟨hid.symm, rfl, le_refl _, not_lt.mp fun h => hlt (decide_eq_true h), Or.inl rfl⟩

end Asset

@[ext]
structure Price where
  base : Asset
  quote : Asset
deriving DecidableEq

namespace Price

/-- `operator ~` -/
def inverse (p : Price) : Price := ⟨p.quote, p.base⟩

/-- `operator <`: by the assets, then by the ratio of the amounts. -/
def Less (a b : Price) : Prop :=
  a.base.assetId < b.base.assetId ∨
    (a.base.assetId = b.base.assetId ∧
      (a.quote.assetId < b.quote.assetId ∨
        (a.quote.assetId = b.quote.assetId ∧
          b.quote.amount * a.base.amount < a.quote.amount * b.base.amount)))

instance : LT Price := ⟨Less⟩

instance : DecidableLT Price := fun _ _ => inferInstanceAs (Decidable (_ ∨ _))

instance : LE Price := ⟨fun a b => ¬b < a⟩

instance : DecidableLE Price := fun a b => inferInstanceAs (Decidable (¬b < a))

/-- `operator ==`: the same assets and the same ratio. -/
def Same (a b : Price) : Prop :=
  a.base.assetId = b.base.assetId ∧ a.quote.assetId = b.quote.assetId ∧
    b.quote.amount * a.base.amount = a.quote.amount * b.base.amount

instance (a b : Price) : Decidable (Same a b) := inferInstanceAs (Decidable (_ ∧ _))

/-- `operator /` of two amounts. -/
def ofAssets (base quote : Asset) : Attempt Price := do
  require (base.assetId ≠ quote.assetId)
  pure ⟨base, quote⟩

/-- `price::max` -/
def greatest (base quote : AssetId) : Attempt Price := ofAssets ⟨maxShareSupply, base⟩ ⟨1, quote⟩

/-- `price::min` -/
def smallest (base quote : AssetId) : Attempt Price := ofAssets ⟨1, base⟩ ⟨maxShareSupply, quote⟩

def isNull (p : Price) : Bool :=
  decide (p.base.assetId = coreAsset) && decide (p.quote.assetId = coreAsset)

/-- `price()` -/
def null : Price := ⟨⟨0, coreAsset⟩, ⟨0, coreAsset⟩⟩

def Valid (p : Price) : Prop :=
  0 < p.base.amount ∧ 0 < p.quote.amount ∧ p.base.assetId ≠ p.quote.assetId

instance (p : Price) : Decidable p.Valid := inferInstanceAs (Decidable (_ ∧ _))

@[simp] theorem ofAssets_eq_ok {a b : Asset} {p : Price} :
    ofAssets a b = .ok p ↔ a.assetId ≠ b.assetId ∧ p = ⟨a, b⟩ := by
  simp only [ofAssets, bind_eq_ok, require_eq_ok, pure_eq_ok, exists_const]

end Price

/-! ### Conversions -/

/-- The quotient of a product and an amount, in range.  The code computes it in `uint128_t`, where
a negative product is a number above `2 ^ 127` and fails the range assertion. -/
def convert (product divisor : Int) (id : AssetId) : Attempt Asset := do
  require (0 < divisor)
  require (0 ≤ product ∧ product / divisor ≤ maxShareSupply)
  pure ⟨product / divisor, id⟩

/-- `asset * price`, which rounds down. -/
def Asset.mul (a : Asset) (p : Price) : Attempt Asset :=
  if a.assetId = p.base.assetId then
    convert (a.amount * p.quote.amount) p.base.amount p.quote.assetId
  else if a.assetId = p.quote.assetId then
    convert (a.amount * p.base.amount) p.quote.amount p.base.assetId
  else .error .thrown

def Asset.multiplyAndRoundUp (a : Asset) (p : Price) : Attempt Asset :=
  if a.assetId = p.base.assetId then
    convert (a.amount * p.quote.amount + p.base.amount - 1) p.base.amount p.quote.assetId
  else if a.assetId = p.quote.assetId then
    convert (a.amount * p.base.amount + p.quote.amount - 1) p.quote.amount p.base.assetId
  else .error .thrown

theorem convert_eq_ok {n d : Int} {i : AssetId} {a : Asset} :
    convert n d i = .ok a ↔ 0 < d ∧ 0 ≤ n ∧ n / d ≤ maxShareSupply ∧ a = ⟨n / d, i⟩ := by
  simp only [convert, bind_eq_ok, require_eq_ok, pure_eq_ok, exists_const, and_assoc]

theorem Asset.mul_base {a : Asset} {p : Price} (h : a.assetId = p.base.assetId) :
    a.mul p = convert (a.amount * p.quote.amount) p.base.amount p.quote.assetId :=
  if_pos h

theorem Asset.mul_quote {a : Asset} {p : Price} (hne : p.base.assetId ≠ p.quote.assetId)
    (h : a.assetId = p.quote.assetId) :
    a.mul p = convert (a.amount * p.base.amount) p.quote.amount p.base.assetId := by
  rw [Asset.mul, if_neg (fun he => hne (he.symm.trans h)), if_pos h]

theorem Asset.multiplyAndRoundUp_base {a : Asset} {p : Price} (h : a.assetId = p.base.assetId) :
    a.multiplyAndRoundUp p =
      convert (a.amount * p.quote.amount + p.base.amount - 1) p.base.amount p.quote.assetId :=
  if_pos h

theorem Asset.multiplyAndRoundUp_quote {a : Asset} {p : Price}
    (hne : p.base.assetId ≠ p.quote.assetId) (h : a.assetId = p.quote.assetId) :
    a.multiplyAndRoundUp p =
      convert (a.amount * p.base.amount + p.quote.amount - 1) p.quote.amount p.base.assetId := by
  rw [Asset.multiplyAndRoundUp, if_neg (fun he => hne (he.symm.trans h)), if_pos h]

theorem Asset.mul_inverse {a : Asset} {p : Price} (hne : p.base.assetId ≠ p.quote.assetId) :
    a.mul p.inverse = a.mul p := by
  by_cases hquote : a.assetId = p.quote.assetId
  · rw [Asset.mul_quote hne hquote]
    exact Asset.mul_base (p := p.inverse) hquote
  · by_cases hbase : a.assetId = p.base.assetId
    · rw [Asset.mul_base hbase]
      exact Asset.mul_quote (p := p.inverse) hne.symm hbase
    · simp [Asset.mul, Price.inverse, hquote, hbase]

theorem Asset.multiplyAndRoundUp_inverse {a : Asset} {p : Price}
    (hne : p.base.assetId ≠ p.quote.assetId) :
    a.multiplyAndRoundUp p.inverse = a.multiplyAndRoundUp p := by
  by_cases hquote : a.assetId = p.quote.assetId
  · rw [Asset.multiplyAndRoundUp_quote hne hquote]
    exact Asset.multiplyAndRoundUp_base (p := p.inverse) hquote
  · by_cases hbase : a.assetId = p.base.assetId
    · rw [Asset.multiplyAndRoundUp_base hbase]
      exact Asset.multiplyAndRoundUp_quote (p := p.inverse) hne.symm hbase
    · simp [Asset.multiplyAndRoundUp, Price.inverse, hquote, hbase]

theorem Asset.mul_cases {a b : Asset} {p : Price} (h : a.mul p = .ok b) :
    (a.assetId = p.base.assetId ∧ b.assetId = p.quote.assetId ∧ 0 < p.base.amount ∧
        0 ≤ a.amount * p.quote.amount ∧ b.amount = a.amount * p.quote.amount / p.base.amount) ∨
      (a.assetId ≠ p.base.assetId ∧ a.assetId = p.quote.assetId ∧ b.assetId = p.base.assetId ∧
        0 < p.quote.amount ∧ 0 ≤ a.amount * p.base.amount ∧
          b.amount = a.amount * p.base.amount / p.quote.amount) := by
  unfold Asset.mul at h
  split at h
  · rename_i hid
    obtain ⟨hd, hn, -, rfl⟩ := convert_eq_ok.mp h
    exact Or.inl ⟨hid, rfl, hd, hn, rfl⟩
  · rename_i hne
    split at h
    · rename_i hid
      obtain ⟨hd, hn, -, rfl⟩ := convert_eq_ok.mp h
      exact Or.inr ⟨hne, hid, rfl, hd, hn, rfl⟩
    · cases h

theorem Asset.multiplyAndRoundUp_cases {a b : Asset} {p : Price}
    (h : a.multiplyAndRoundUp p = .ok b) :
    (a.assetId = p.base.assetId ∧ b.assetId = p.quote.assetId ∧ 0 < p.base.amount ∧
        0 ≤ a.amount * p.quote.amount + p.base.amount - 1 ∧
        b.amount = (a.amount * p.quote.amount + p.base.amount - 1) / p.base.amount) ∨
      (a.assetId ≠ p.base.assetId ∧ a.assetId = p.quote.assetId ∧ b.assetId = p.base.assetId ∧
        0 < p.quote.amount ∧ 0 ≤ a.amount * p.base.amount + p.quote.amount - 1 ∧
          b.amount = (a.amount * p.base.amount + p.quote.amount - 1) / p.quote.amount) := by
  unfold Asset.multiplyAndRoundUp at h
  split at h
  · rename_i hid
    obtain ⟨hd, hn, -, rfl⟩ := convert_eq_ok.mp h
    exact Or.inl ⟨hid, rfl, hd, hn, rfl⟩
  · rename_i hne
    split at h
    · rename_i hid
      obtain ⟨hd, hn, -, rfl⟩ := convert_eq_ok.mp h
      exact Or.inr ⟨hne, hid, rfl, hd, hn, rfl⟩
    · cases h

theorem Asset.mul_nonneg {a b : Asset} {p : Price} (h : a.mul p = .ok b) : 0 ≤ b.amount := by
  rcases Asset.mul_cases h with ⟨-, -, hd, hn, hb⟩ | ⟨-, -, -, hd, hn, hb⟩ <;> rw [hb]
  · exact Int.ediv_nonneg hn (le_of_lt hd)
  · exact Int.ediv_nonneg hn (le_of_lt hd)

theorem Asset.multiplyAndRoundUp_nonneg {a b : Asset} {p : Price}
    (h : a.multiplyAndRoundUp p = .ok b) : 0 ≤ b.amount := by
  rcases Asset.multiplyAndRoundUp_cases h with ⟨-, -, hd, hn, hb⟩ | ⟨-, -, -, hd, hn, hb⟩ <;>
    rw [hb]
  · exact Int.ediv_nonneg hn (le_of_lt hd)
  · exact Int.ediv_nonneg hn (le_of_lt hd)

theorem Asset.multiplyAndRoundUp_ne {a b : Asset} {p : Price} (h : a.multiplyAndRoundUp p = .ok b)
    (hne : a.assetId ≠ b.assetId) : p.base.assetId ≠ p.quote.assetId := by
  rcases Asset.multiplyAndRoundUp_cases h with ⟨ha, hb, -⟩ | ⟨-, ha, hb, -⟩
  · rwa [ha, hb] at hne
  · rw [ha, hb] at hne
    exact hne.symm

theorem Asset.mul_assetId_ne {a b : Asset} {p : Price} (h : a.mul p = .ok b)
    (hne : p.base.assetId ≠ p.quote.assetId) : b.assetId ≠ a.assetId := by
  rcases Asset.mul_cases h with ⟨ha, hb, -⟩ | ⟨-, ha, hb, -⟩
  · rw [ha, hb]
    exact hne.symm
  · rwa [ha, hb]

theorem roundUp_le_iff {n d k : Int} (hd : 0 < d) : (n + d - 1) / d ≤ k ↔ n ≤ k * d := by
  rw [Int.ediv_le_iff_le_mul hd]
  omega

theorem roundUp_bounds {n d k : Int} (hd : 0 < d) (hk : k = (n + d - 1) / d) :
    n ≤ k * d ∧ k * d < n + d := by
  refine ⟨(roundUp_le_iff hd).mp (le_of_eq hk.symm), ?_⟩
  have hle := Int.ediv_mul_le (n + d - 1) (ne_of_gt hd)
  rw [← hk] at hle
  omega

theorem Asset.roundUp_mul_le {a b c : Asset} {p : Price} (h : a.mul p = .ok b)
    (hne : p.base.assetId ≠ p.quote.assetId) (hc : b.multiplyAndRoundUp p = .ok c) :
    c.assetId = a.assetId ∧ c.amount ≤ a.amount := by
  rcases Asset.mul_cases h with ⟨ha, hb, hd, hn, he⟩ | ⟨-, ha, hb, hd, hn, he⟩ <;>
    rcases Asset.multiplyAndRoundUp_cases hc with ⟨hb', hc', hd', -, hce⟩ |
      ⟨-, hb', hc', hd', -, hce⟩
  · exact absurd (hb'.symm.trans hb) hne
  · refine ⟨hc'.trans ha.symm, ?_⟩
    rw [hce, roundUp_le_iff hd', he]
    exact Int.ediv_mul_le _ (ne_of_gt hd)
  · refine ⟨hc'.trans ha.symm, ?_⟩
    rw [hce, roundUp_le_iff hd', he]
    exact Int.ediv_mul_le _ (ne_of_gt hd)
  · exact absurd (hb.symm.trans hb') hne

theorem Asset.multiplyAndRoundUp_pos {a b : Asset} {p : Price} (h : a.multiplyAndRoundUp p = .ok b)
    (ha : 0 < a.amount) (hbase : 0 < p.base.amount) (hquote : 0 < p.quote.amount) :
    0 < b.amount := by
  by_contra hnot
  rcases Asset.multiplyAndRoundUp_cases h with ⟨-, -, hd, -, he⟩ | ⟨-, -, -, hd, -, he⟩
  · have hle := (roundUp_le_iff hd).mp (he ▸ not_lt.mp hnot)
    have hpos := mul_pos ha hquote
    omega
  · have hle := (roundUp_le_iff hd).mp (he ▸ not_lt.mp hnot)
    have hpos := mul_pos ha hbase
    omega

theorem Asset.multiplyAndRoundUp_zero {a b : Asset} {p : Price}
    (h : a.multiplyAndRoundUp p = .ok b) (ha : a.amount = 0) : b.amount = 0 := by
  rcases Asset.multiplyAndRoundUp_cases h with ⟨-, -, hd, -, he⟩ | ⟨-, -, -, hd, -, he⟩ <;>
  · rw [he, ha, zero_mul, zero_add]
    exact Int.ediv_eq_zero_of_lt (by omega) (by omega)

theorem Asset.mul_le_of_le_mul {a b c d : Asset} {p : Price} (h : a.mul p = .ok b)
    (hne : p.base.assetId ≠ p.quote.assetId) (hid : c.assetId = b.assetId)
    (hle : c.amount ≤ b.amount) (hd : c.mul p = .ok d) :
    d.assetId = a.assetId ∧ d.amount ≤ a.amount := by
  have key : ∀ {x y q r : Int}, 0 < q → 0 < r → y ≤ x * q / r → 0 ≤ x * q → y * r / q ≤ x := by
    intro x y q r hq hr hy hx
    have h1 : y * r ≤ x * q :=
      (mul_le_mul_of_nonneg_right hy (le_of_lt hr)).trans (Int.ediv_mul_le _ (ne_of_gt hr))
    calc y * r / q ≤ x * q / q := Int.ediv_le_ediv hq h1
      _ = x := Int.mul_ediv_cancel _ (ne_of_gt hq)
  rcases Asset.mul_cases h with ⟨ha, hb, hp, hn, he⟩ | ⟨-, ha, hb, hp, hn, he⟩ <;>
    rcases Asset.mul_cases hd with ⟨hc, hd', hp', -, hde⟩ | ⟨-, hc, hd', hp', -, hde⟩
  · exact absurd (hc.symm.trans (hid.trans hb)) hne
  · refine ⟨hd'.trans ha.symm, ?_⟩
    rw [hde]
    exact key hp' hp (he ▸ hle) hn
  · refine ⟨hd'.trans ha.symm, ?_⟩
    rw [hde]
    exact key hp' hp (he ▸ hle) hn
  · exact absurd (hb.symm.trans (hid.symm.trans hc)) hne

end Nestchain.Market
