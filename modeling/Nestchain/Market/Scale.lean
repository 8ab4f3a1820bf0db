import Nestchain.Market.Rounding
import Mathlib.Data.Rat.Floor

/-! Prices scaled by a ratio: which price the five exits of `price * ratio` choose, and that the
fractions of 128-bit integers that it computes with do not overflow. -/

namespace Nestchain.Market

open Lib

/-! ### Which fraction the exits choose -/

/-- The fraction with both sides shifted right, in lowest terms, until it fits or a side is one. -/
inductive Shifts : ℚ → ℚ → Prop
  | fits {q : ℚ} : ¬TooLarge q → Shifts q q
  | low {q : ℚ} : TooLarge q → q.num = 1 → Shifts q (1 / maxShareSupply)
  | high {q : ℚ} : TooLarge q → q.num ≠ 1 → q.den = 1 → Shifts q maxShareSupply
  | shift {q c : ℚ} : TooLarge q → q.num ≠ 1 → q.den ≠ 1 →
      Shifts (mkRat (q.num / 2) (q.den / 2)) c → Shifts q c

/-- A fraction that does not fit, with the smaller side rounded to one. -/
def wholeSide (q : ℚ) : ℚ := if 1 < q then ⌊q⌋ else 1 / ⌊q⁻¹⌋

/-- What stands for a fraction that does not fit: the end of the range that it is beyond, or else
the nearer of the shifted fraction and the one with a whole side. -/
structure Approximates (q v : ℚ) : Prop where
  high : maxShareSupply ≤ q → v = maxShareSupply
  low : q ≤ 1 / maxShareSupply → v = 1 / maxShareSupply
  nearer : 1 / maxShareSupply < q → q < maxShareSupply → ∃ c, Shifts q c ∧
    (v = c ∨ v = wholeSide q) ∧ |v - q| ≤ |c - q| ∧ |v - q| ≤ |wholeSide q - q|

theorem mkRat_max : mkRat maxShareSupply 1 = maxShareSupply := by
  rw [Rat.mkRat_eq_div, Nat.cast_one, div_one]

theorem mkRat_min : mkRat 1 maxShareSupply.toNat = 1 / maxShareSupply := by
  have htoNat : maxShareSupply.toNat = 1000000000000000 := rfl
  rw [Rat.mkRat_eq_div, htoNat]
  norm_num [maxShareSupply]

theorem scaleFit_shifts (q : ℚ) (shrinked : Bool) : Shifts q (scaleFit q shrinked).1 := by
  induction q, shrinked using scaleFit.induct with
  | case1 q shrinked hq hnum =>
    rw [scaleFit, dif_pos hq, if_pos hnum, mkRat_min]
    exact .low hq hnum
  | case2 q shrinked hq hnum hden =>
    rw [scaleFit, dif_pos hq, if_neg hnum, dif_pos hden, mkRat_max]
    exact .high hq hnum hden
  | case3 q shrinked hq hnum hden ih =>
    rw [scaleFit, dif_pos hq, if_neg hnum, dif_neg hden]
    exact .shift hq hnum hden ih
  | case4 q shrinked hq =>
    rw [scaleFit, dif_neg hq]
    exact .fits hq

theorem Shifts.not_tooLarge {q c : ℚ} (h : Shifts q c) : ¬TooLarge c := by
  induction h with
  | fits h => exact h
  | low _ _ =>
    rw [← mkRat_min]
    decide +kernel
  | high _ _ _ =>
    rw [← mkRat_max]
    decide +kernel
  | shift _ _ _ _ ih => exact ih

theorem scaleFit_shrinked (q : ℚ) : (scaleFit q true).2 = true := by
  suffices h : ∀ shrinked, shrinked = true → (scaleFit q shrinked).2 = true from h true rfl
  intro shrinked
  induction q, shrinked using scaleFit.induct with
  | case1 q shrinked hq hnum =>
    rw [scaleFit, dif_pos hq, if_pos hnum]
    exact id
  | case2 q shrinked hq hnum hden =>
    rw [scaleFit, dif_pos hq, if_neg hnum, dif_pos hden]
    exact id
  | case3 q shrinked hq hnum hden ih =>
    rw [scaleFit, dif_pos hq, if_neg hnum, dif_neg hden]
    exact fun _ => ih rfl
  | case4 q shrinked hq =>
    rw [scaleFit, dif_neg hq]
    exact id

/-! ### The parts of a fraction -/

section

variable {q : ℚ}

theorem one_lt_iff : 1 < q ↔ (q.den : Int) < q.num := by
  have hden : (0 : ℚ) < q.den := by exact_mod_cast q.den_pos
  conv_lhs => rw [← Rat.num_div_den q, one_lt_div hden]
  exact_mod_cast Iff.rfl

theorem floor_inv (hpos : 0 < q.num) : ⌊q⁻¹⌋ = (q.den : Int) / q.num := by
  obtain ⟨n, hn⟩ := Int.eq_ofNat_of_zero_le (le_of_lt hpos)
  have hinv : q⁻¹ = ((q.den : Int) : ℚ) / (n : ℕ) := by
    conv_lhs => rw [← Rat.num_div_den q, inv_div, hn]
    norm_num
  rw [hinv, Rat.floor_intCast_div_natCast, hn]

theorem max_le_floor_iff {x : ℚ} : maxShareSupply ≤ ⌊x⌋ ↔ (maxShareSupply : ℚ) ≤ x :=
  Int.le_floor

theorem max_pos : (0 : ℚ) < maxShareSupply := by norm_num [maxShareSupply]

theorem min_lt_one : 1 / (maxShareSupply : ℚ) < 1 := by norm_num [maxShareSupply]

namespace Approximates

theorem of_high (h : maxShareSupply ≤ q) : Approximates q maxShareSupply := by
  have hone : (1 : ℚ) < maxShareSupply := by norm_num [maxShareSupply]
  refine ⟨fun _ => rfl, fun hlow => ?_, fun _ hlt => absurd h (not_le.mpr hlt)⟩
  have hmin := min_lt_one
  linarith

theorem of_low (h : q ≤ 1 / maxShareSupply) : Approximates q (1 / maxShareSupply) := by
  have hone : (1 : ℚ) < maxShareSupply := by norm_num [maxShareSupply]
  refine ⟨fun hhigh => ?_, fun _ => rfl, fun hlt _ => absurd h (not_le.mpr hlt)⟩
  have hmin := min_lt_one
  linarith

theorem of_between {c : ℚ} (hlow : ¬q ≤ 1 / maxShareSupply) (hhigh : ¬maxShareSupply ≤ q)
    (hc : Shifts q c) :
    Approximates q (if |wholeSide q - q| < |c - q| then wholeSide q else c) := by
  refine ⟨fun h => absurd h hhigh, fun h => absurd h hlow, fun _ _ => ⟨c, hc, ?_⟩⟩
  split
  · rename_i hlt
    exact ⟨Or.inr rfl, le_of_lt hlt, le_refl _⟩
  · rename_i hge
    exact ⟨Or.inl rfl, le_refl _, not_lt.mp hge⟩

end Approximates

theorem divInt_eq {n d : Int} {x y : ℚ} (hn : (n : ℚ) = x) (hd : (d : ℚ) = y) :
    Rat.divInt n d = x / y := by
  rw [Rat.divInt_eq_div, hn, hd]

theorem scaleNearest_approximates {c : ℚ} (hpos : 0 < q.num) (hc : Shifts q c) :
    Approximates q (scaleNearest q c) := by
  have hqpos : 0 < q := Rat.num_pos.mp hpos
  have hmax : maxShareSupply ≠ 1 := by decide
  have hside : (q.den : Int) < q.num ↔ 1 < q := one_lt_iff.symm
  unfold scaleNearest
  dsimp only
  by_cases hone : 1 < q
  · have hlow : ¬q ≤ 1 / maxShareSupply := fun h => absurd (h.trans_lt min_lt_one)
      (not_lt.mpr hone.le)
    have hfloor : q.num / (q.den : Int) = ⌊q⌋ := (Rat.floor_def q).symm
    rw [if_pos (hside.mpr hone), if_pos (hside.mpr hone), hfloor]
    by_cases hhigh : maxShareSupply ≤ q
    · rw [min_eq_right (max_le_floor_iff.mpr hhigh), if_pos (Or.inl rfl), Rat.divInt_one]
      exact .of_high hhigh
    · have hlt : ⌊q⌋ < maxShareSupply := not_le.mp fun h => hhigh (max_le_floor_iff.mp h)
      have hwhole : Rat.divInt ⌊q⌋ 1 = wholeSide q := by rw [Rat.divInt_one, wholeSide, if_pos hone]
      rw [min_eq_left (le_of_lt hlt), if_neg (not_or.mpr ⟨ne_of_lt hlt, hmax.symm⟩), hwhole]
      exact .of_between hlow hhigh hc
  · have hhigh : ¬maxShareSupply ≤ q := fun h => by
      have hlt : (1 : ℚ) < maxShareSupply := by norm_num [maxShareSupply]
      exact hone (lt_of_lt_of_le hlt h)
    rw [if_neg (mt hside.mp hone), if_neg (mt hside.mp hone), ← floor_inv hpos]
    by_cases hlow : q ≤ 1 / maxShareSupply
    · have hinv : (maxShareSupply : ℚ) ≤ q⁻¹ := by
        rwa [le_inv_comm₀ max_pos hqpos, ← one_div]
      have hvalue : Rat.divInt 1 maxShareSupply = 1 / maxShareSupply := divInt_eq Int.cast_one rfl
      rw [min_eq_right (max_le_floor_iff.mpr hinv), if_pos (Or.inr rfl), hvalue]
      exact .of_low hlow
    · have hlt : ⌊q⁻¹⌋ < maxShareSupply := not_le.mp fun h => hlow (by
        rw [one_div, ← le_inv_comm₀ max_pos hqpos]
        exact max_le_floor_iff.mp h)
      have hwhole : Rat.divInt 1 ⌊q⁻¹⌋ = wholeSide q := by
        rw [wholeSide, if_neg hone]
        exact divInt_eq Int.cast_one rfl
      rw [min_eq_left (le_of_lt hlt), if_neg (not_or.mpr ⟨hmax.symm, ne_of_lt hlt⟩), hwhole]
      exact .of_between hlow hhigh hc

theorem fits_of_parts {n d : Int} (hn : 0 < n) (hd : 0 < d) (hn' : n ≤ maxShareSupply)
    (hd' : d ≤ maxShareSupply) : ¬TooLarge (n / d : ℚ) := by
  obtain ⟨hnum, hden⟩ := Halving.parts_le hn hd rfl
  exact not_or.mpr ⟨not_lt.mpr (hnum.trans hn'), not_lt.mpr (hden.trans hd')⟩

theorem wholeSide_fits (hpos : 0 < q) (hlow : 1 / maxShareSupply < q) (hhigh : q < maxShareSupply) :
    ¬TooLarge (wholeSide q) ∧ 0 < wholeSide q := by
  have hmax : (1 : Int) ≤ maxShareSupply := by decide
  rw [wholeSide]
  split
  · rename_i hone
    have hfloor : 1 ≤ ⌊q⌋ := Int.le_floor.mpr (by exact_mod_cast le_of_lt hone)
    have hlt : ⌊q⌋ < maxShareSupply := not_le.mp fun h => not_le.mpr hhigh (max_le_floor_iff.mp h)
    have hfits := fits_of_parts (by omega) Int.one_pos (le_of_lt hlt) hmax
    rw [Int.cast_one, div_one] at hfits
    exact ⟨hfits, by exact_mod_cast (by omega : 0 < ⌊q⌋)⟩
  · rename_i hone
    have hfloor : 1 ≤ ⌊q⁻¹⌋ := by
      refine Int.le_floor.mpr ?_
      rw [Int.cast_one, one_le_inv₀ hpos]
      exact not_lt.mp hone
    have hlt : ⌊q⁻¹⌋ < maxShareSupply := not_le.mp fun h => by
      have hinv := max_le_floor_iff.mp h
      rw [le_inv_comm₀ max_pos hpos, ← one_div] at hinv
      exact not_le.mpr hlow hinv
    have hfits := fits_of_parts Int.one_pos (by omega) hmax (le_of_lt hlt)
    rw [Int.cast_one] at hfits
    exact ⟨hfits, div_pos one_pos (by exact_mod_cast (by omega : 0 < ⌊q⁻¹⌋))⟩

/-- The fraction that the exits choose before it is compared with the price. -/
def scaleApprox (q : ℚ) : ℚ :=
  if (scaleFit q false).2 then scaleNearest q (scaleFit q false).1 else (scaleFit q false).1

theorem scaleApprox_of_fits (h : ¬TooLarge q) : scaleApprox q = q := by
  have hfit : scaleFit q false = (q, false) := by rw [scaleFit, dif_neg h]
  rw [scaleApprox, hfit]
  exact if_neg Bool.false_ne_true

theorem scaleApprox_approximates (hpos : 0 < q.num) (h : TooLarge q) :
    Approximates q (scaleApprox q) := by
  have hvalue : (q.num : ℚ) / q.den = q := Rat.num_div_den q
  by_cases hnum : q.num = 1
  · have hfit : scaleFit q false = (mkRat 1 maxShareSupply.toNat, false) := by
      rw [scaleFit, dif_pos h, if_pos hnum]
    rw [scaleApprox, hfit, if_neg Bool.false_ne_true, mkRat_min]
    refine .of_low ?_
    have hden : maxShareSupply < q.den := h.resolve_left (by rw [hnum]; decide)
    rw [← hvalue, hnum, Int.cast_one]
    exact div_le_div_of_nonneg_left zero_le_one max_pos (by exact_mod_cast le_of_lt hden)
  · by_cases hden : q.den = 1
    · have hfit : scaleFit q false = (mkRat maxShareSupply 1, false) := by
        rw [scaleFit, dif_pos h, if_neg hnum, dif_pos hden]
      rw [scaleApprox, hfit, if_neg Bool.false_ne_true, mkRat_max]
      refine .of_high ?_
      have hnum' : maxShareSupply < q.num := h.resolve_right (by rw [hden]; decide)
      rw [← hvalue, hden, Nat.cast_one, div_one]
      exact_mod_cast le_of_lt hnum'
    · have hshrinked : (scaleFit q false).2 = true := by
        rw [scaleFit, dif_pos h, if_neg hnum, dif_neg hden]
        exact scaleFit_shrinked _
      rw [scaleApprox, if_pos hshrinked]
      exact scaleNearest_approximates hpos (scaleFit_shifts q false)

theorem scaleApprox_fits (hpos : 0 < q.num) :
    ¬TooLarge (scaleApprox q) ∧ 0 < (scaleApprox q).num := by
  have hq : 0 < q := Rat.num_pos.mp hpos
  by_cases h : TooLarge q
  · have hnum : 0 < (scaleApprox q).num := by
      rw [scaleApprox]
      split
      · exact scaleNearest_pos hpos (scaleFit_pos hpos false)
      · exact scaleFit_pos hpos false
    refine ⟨?_, hnum⟩
    have happrox := scaleApprox_approximates hpos h
    by_cases hhigh : maxShareSupply ≤ q
    · rw [happrox.high hhigh, ← mkRat_max]
      decide +kernel
    · by_cases hlow : q ≤ 1 / maxShareSupply
      · rw [happrox.low hlow, ← mkRat_min]
        decide +kernel
      · obtain ⟨c, hc, hv | hv, -⟩ := happrox.nearer (not_le.mp hlow) (not_le.mp hhigh)
        · rw [hv]
          exact hc.not_tooLarge
        · rw [hv]
          exact (wholeSide_fits hq (not_le.mp hlow) (not_le.mp hhigh)).1
  · rw [scaleApprox_of_fits h]
    exact ⟨h, hpos⟩

end

/-! ### The computation with 128-bit integers -/

/-- `operator *` of two `boost::rational<int128_t>`. -/
def mul128 (a b : ℚ) : Attempt ℚ := do
  require (|a.num * b.num| < 2 ^ 127 ∧ a.den * b.den < 2 ^ 127)
  pure (a * b)

/-- `operator -` of two `boost::rational<int128_t>`. -/
def sub128 (a b : ℚ) : Attempt ℚ := do
  require (|a.num * b.den| + |b.num * a.den| < 2 ^ 127 ∧ a.den * b.den < 2 ^ 127)
  pure (a - b)

/-- `operator <` of two prices, whose products are of the type `uint128_t`. -/
def Price.less128 (a b : Price) : Attempt Bool := do
  require (b.quote.amount * a.base.amount < 2 ^ 128 ∧ a.quote.amount * b.base.amount < 2 ^ 128)
  pure (decide (a < b))

def scaleNearest128 (ocp cp : ℚ) : Attempt ℚ := do
  let n := if (ocp.den : Int) < ocp.num then min (ocp.num / ocp.den) maxShareSupply else 1
  let d := if (ocp.den : Int) < ocp.num then 1 else min (ocp.den / ocp.num) maxShareSupply
  let ncp ← rational n d
  if n = maxShareSupply ∨ d = maxShareSupply then pure ncp
  else do
    let diff1 ← sub128 ncp ocp
    let diff2 ← sub128 cp ocp
    pure (if |diff1| < |diff2| then ncp else cp)

def scaleApprox128 (ocp : ℚ) : Attempt ℚ :=
  let fitted := scaleFit ocp false
  if fitted.2 then scaleNearest128 ocp fitted.1 else pure fitted.1

/-- `price * ratio`, which throws where an integer would not fit in 128 bits. -/
def Price.scale128 (p : Price) (r : ℚ) : Attempt Price := do
  require p.Valid
  require (0 < r.num)
  if r.num = r.den then pure p
  else do
    let p128 ← rational p.base.amount p.quote.amount
    let ocp ← mul128 p128 r
    let cp ← scaleApprox128 ocp
    let np ← Price.ofAssets ⟨cp.num, p.base.assetId⟩ ⟨cp.den, p.quote.assetId⟩
    let below ← np.less128 p
    let above ← p.less128 np
    let np := if (r.den < r.num ∧ below) ∨ (r.num < r.den ∧ above) then p else np
    require np.Valid
    pure np

def maxRatio : Int := 65535

theorem mul128_ok {a b : ℚ} (ha : 0 < a.num) (hb : 0 < b.num) (hnum : a.num ≤ maxShareSupply)
    (hden : (a.den : Int) ≤ maxShareSupply) (hnum' : b.num ≤ maxRatio)
      (hden' : (b.den : Int) ≤ maxRatio) :
    mul128 a b = .ok (a * b) := by
  have hdenpos := a.den_pos
  have hnums : a.num * b.num ≤ maxShareSupply * maxRatio :=
    mul_le_mul hnum hnum' (le_of_lt hb) (by decide)
  have hdens : (a.den * b.den : Int) ≤ maxShareSupply * maxRatio :=
    mul_le_mul hden hden' (Int.natCast_nonneg _) (by decide)
  have hlt : maxShareSupply * maxRatio < 2 ^ 127 := by decide
  simp only [mul128, bind_eq_ok, require_eq_ok, pure_eq_ok, exists_const, and_true]
  rw [abs_of_pos (mul_pos ha hb)]
  exact ⟨hnums.trans_lt hlt, by exact_mod_cast hdens.trans_lt hlt⟩

theorem sub128_ok {a b : ℚ} (ha : 0 < a.num) (hb : 0 < b.num) (hfits : ¬TooLarge a)
    (hnum : b.num ≤ maxShareSupply * maxRatio) (hden : (b.den : Int) ≤ maxShareSupply * maxRatio) :
    sub128 a b = .ok (a - b) := by
  simp only [TooLarge, not_or, not_lt] at hfits
  have hdenpos : (0 : Int) < a.den := Int.natCast_pos.mpr a.den_pos
  have hdenpos' : (0 : Int) < b.den := Int.natCast_pos.mpr b.den_pos
  have hmax : (0 : Int) ≤ maxShareSupply := by decide
  have hleft : a.num * b.den ≤ maxShareSupply * (maxShareSupply * maxRatio) :=
    mul_le_mul hfits.1 hden (le_of_lt hdenpos') hmax
  have hright : b.num * a.den ≤ maxShareSupply * maxRatio * maxShareSupply :=
    mul_le_mul hnum hfits.2 (le_of_lt hdenpos) (by decide)
  have hdens : (a.den * b.den : Int) ≤ maxShareSupply * (maxShareSupply * maxRatio) :=
    mul_le_mul hfits.2 hden (le_of_lt hdenpos') hmax
  have hlt : maxShareSupply * (maxShareSupply * maxRatio) +
      maxShareSupply * maxRatio * maxShareSupply < 2 ^ 127 := by decide
  have hlt' : maxShareSupply * (maxShareSupply * maxRatio) < 2 ^ 127 := by decide
  simp only [sub128, bind_eq_ok, require_eq_ok, pure_eq_ok, exists_const, and_true]
  rw [abs_of_pos (mul_pos ha hdenpos'), abs_of_pos (mul_pos hb hdenpos)]
  exact ⟨(add_le_add hleft hright).trans_lt hlt, by exact_mod_cast hdens.trans_lt hlt'⟩

theorem scaleNearest128_ok {ocp cp : ℚ} (hpos : 0 < ocp.num) (hcp : 0 < cp.num)
    (hfits : ¬TooLarge cp) (hnum : ocp.num ≤ maxShareSupply * maxRatio)
    (hden : (ocp.den : Int) ≤ maxShareSupply * maxRatio) :
    scaleNearest128 ocp cp = .ok (scaleNearest ocp cp) := by
  have hdenpos : (0 : Int) < ocp.den := Int.natCast_pos.mpr ocp.den_pos
  have hmax : (1 : Int) ≤ maxShareSupply := by decide
  have hn : ∀ n : Int, n = (if (ocp.den : Int) < ocp.num then
      min (ocp.num / ocp.den) maxShareSupply else 1) → 1 ≤ n ∧ n ≤ maxShareSupply := by
    rintro n rfl
    split
    · rename_i hlt
      refine ⟨le_min ((Int.le_ediv_iff_mul_le hdenpos).mpr (by omega)) hmax, min_le_right _ _⟩
    · exact ⟨le_refl _, hmax⟩
  have hd : ∀ d : Int, d = (if (ocp.den : Int) < ocp.num then 1 else
      min (ocp.den / ocp.num) maxShareSupply) → 1 ≤ d ∧ d ≤ maxShareSupply := by
    rintro d rfl
    split
    · exact ⟨le_refl _, hmax⟩
    · rename_i hge
      exact ⟨le_min ((Int.le_ediv_iff_mul_le hpos).mpr (by omega)) hmax, min_le_right _ _⟩
  unfold scaleNearest128 scaleNearest
  dsimp only
  generalize hneq : (if (ocp.den : Int) < ocp.num then
    min (ocp.num / ocp.den) maxShareSupply else 1) = n
  generalize hdeq : (if (ocp.den : Int) < ocp.num then 1 else
    min (ocp.den / ocp.num) maxShareSupply) = d
  obtain ⟨hn1, hn2⟩ := hn n hneq.symm
  obtain ⟨hd1, hd2⟩ := hd d hdeq.symm
  have hrational : rational n d = .ok (Rat.divInt n d) := by
    simp only [rational, bind_eq_ok, require_eq_ok, pure_eq_ok, exists_const, and_true]
    omega
  have hncp : ¬TooLarge (Rat.divInt n d) := by
    rw [Rat.divInt_eq_div]
    exact fits_of_parts (by omega) (by omega) hn2 hd2
  have hncppos : 0 < (Rat.divInt n d).num := by
    rw [Rat.num_pos, Rat.divInt_eq_div]
    exact div_pos (by exact_mod_cast (by omega : 0 < n)) (by exact_mod_cast (by omega : 0 < d))
  rw [hrational]
  show (if n = maxShareSupply ∨ d = maxShareSupply then pure (Rat.divInt n d) else _) = _
  by_cases hedge : n = maxShareSupply ∨ d = maxShareSupply
  · rw [if_pos hedge, if_pos hedge]
    rfl
  · rw [if_neg hedge, if_neg hedge, sub128_ok hncppos hpos hncp hnum hden,
      sub128_ok hcp hpos hfits hnum hden]
    rfl

/-! ### The scaled price -/

namespace Price

variable {p : Price} {r : ℚ}

/-- The price that the exits choose before it is compared with the price that is scaled. -/
def approximation (p : Price) (r : ℚ) : Price :=
  ⟨⟨(scaleApprox (p.ratio * r)).num, p.base.assetId⟩,
    ⟨(scaleApprox (p.ratio * r)).den, p.quote.assetId⟩⟩

/-- The approximation is on the other side of the price than the ratio says. -/
def Misdirected (p : Price) (r : ℚ) : Prop :=
  (r.den < r.num ∧ p.approximation r < p) ∨ (r.num < r.den ∧ p < p.approximation r)

instance (p : Price) (r : ℚ) : Decidable (p.Misdirected r) := inferInstanceAs (Decidable (_ ∨ _))

theorem scaled_num_pos (hp : p.Valid) (hr : 0 < r) : 0 < (p.ratio * r).num :=
  Rat.num_pos.mpr (mul_pos (ratio_pos hp.1 hp.2.1) hr)

theorem approximation_inRange (hp : p.Valid) (hr : 0 < r) : (p.approximation r).InRange := by
  obtain ⟨hfits, hnum⟩ := scaleApprox_fits (scaled_num_pos hp hr)
  simp only [TooLarge, not_or, not_lt] at hfits
  exact ⟨hnum, hfits.1, Int.natCast_pos.mpr (Rat.den_pos _), hfits.2⟩

theorem approximation_ratio : (p.approximation r).ratio = scaleApprox (p.ratio * r) :=
  Rat.num_div_den _

theorem approximation_valid (hp : p.Valid) (hr : 0 < r) : (p.approximation r).Valid := by
  have hrange := approximation_inRange hp hr
  exact ⟨hrange.base_pos, hrange.quote_pos, hp.2.2⟩

theorem scale_of_ne (hp : p.Valid) (hr : 0 < r) (hne : r.num ≠ r.den) :
    p.scale r = .ok (if p.Misdirected r then p else p.approximation r) := by
  simp only [scale, bind_eq_ok, require_eq_ok, exists_const, if_neg hne, ofAssets_eq_ok,
    pure_eq_ok, divInt_eq_ratio]
  refine ⟨hp, Rat.num_pos.mpr hr, _, ⟨hp.2.2, rfl⟩, ?_, rfl⟩
  show Valid (if p.Misdirected r then p else p.approximation r)
  split
  · exact hp
  · exact approximation_valid hp hr

theorem less128_ok {a b : Price} (ha : a.InRange) (hb : b.InRange) :
    a.less128 b = .ok (decide (a < b)) := by
  have hlt : maxShareSupply * maxShareSupply < 2 ^ 128 := by decide
  have hmax : (0 : Int) ≤ maxShareSupply := by decide
  simp only [less128, bind_eq_ok, require_eq_ok, pure_eq_ok, exists_const, and_true]
  exact ⟨(mul_le_mul hb.quote_le ha.base_le (le_of_lt ha.base_pos) hmax).trans_lt hlt,
    (mul_le_mul ha.quote_le hb.base_le (le_of_lt hb.base_pos) hmax).trans_lt hlt⟩

theorem scale128_eq (hp : p.Valid) (hrange : p.InRange) (hr : 0 < r) (hnum : r.num ≤ maxRatio)
    (hden : (r.den : Int) ≤ maxRatio) : p.scale128 r = p.scale r := by
  by_cases hone : r.num = r.den
  · simp only [scale128, scale, if_pos hone]
  · obtain ⟨hfits, hpos⟩ := scaleApprox_fits (scaled_num_pos hp hr)
    have hparts := Halving.parts_le hrange.base_pos hrange.quote_pos
      (rfl : p.ratio = p.base.amount / p.quote.amount)
    have hprod : p.ratio * r = ((p.base.amount * r.num : Int) : ℚ) /
        ((p.quote.amount * r.den : Int) : ℚ) := by
      rw [ratio, Int.cast_mul, Int.cast_mul, Int.cast_natCast, ← div_mul_div_comm,
        Rat.num_div_den]
    have hrnum : 0 < r.num := Rat.num_pos.mpr hr
    have hrden : (0 : Int) < r.den := Int.natCast_pos.mpr r.den_pos
    obtain ⟨hocpnum, hocpden⟩ := Halving.parts_le (mul_pos hrange.base_pos hrnum)
      (mul_pos hrange.quote_pos hrden) hprod
    have hmax : (0 : Int) ≤ maxShareSupply := by decide
    have hocpnum' : (p.ratio * r).num ≤ maxShareSupply * maxRatio :=
      hocpnum.trans (mul_le_mul hrange.base_le hnum (le_of_lt hrnum) hmax)
    have hocpden' : ((p.ratio * r).den : Int) ≤ maxShareSupply * maxRatio :=
      hocpden.trans (mul_le_mul hrange.quote_le hden (le_of_lt hrden) hmax)
    have hmul : mul128 p.ratio r = .ok (p.ratio * r) :=
      mul128_ok (Rat.num_pos.mpr (ratio_pos hp.1 hp.2.1)) hrnum (hparts.1.trans hrange.base_le)
        (hparts.2.trans hrange.quote_le) hnum hden
    have happrox : scaleApprox128 (p.ratio * r) = .ok (scaleApprox (p.ratio * r)) := by
      unfold scaleApprox128 scaleApprox
      dsimp only
      split
      · exact scaleNearest128_ok (scaled_num_pos hp hr) (scaleFit_pos (scaled_num_pos hp hr) false)
          (scaleFit_shifts _ _).not_tooLarge hocpnum' hocpden'
      · rfl
    have hinRange := approximation_inRange hp hr
    rw [scale_of_ne hp hr hone]
    simp only [scale128, bind_eq_ok, require_eq_ok, exists_const, if_neg hone, rational,
      ofAssets_eq_ok, pure_eq_ok]
    refine ⟨hp, hrnum, p.ratio, ⟨ne_of_gt hp.2.1, (divInt_eq_ratio p).symm⟩, p.ratio * r, hmul,
      scaleApprox (p.ratio * r), happrox, p.approximation r, ⟨hp.2.2, rfl⟩, _,
      less128_ok hinRange hrange, _, less128_ok hrange hinRange, ?_, ?_⟩
    · simp only [decide_eq_true_eq]
      show Valid (if p.Misdirected r then p else p.approximation r)
      split
      · exact hp
      · exact approximation_valid hp hr
    · simp only [decide_eq_true_eq]
      rfl

theorem misdirected_iff (hp : p.Valid) (hr : 0 < r) : p.Misdirected r ↔
    (1 < r ∧ scaleApprox (p.ratio * r) < p.ratio) ∨
      (r < 1 ∧ p.ratio < scaleApprox (p.ratio * r)) := by
  have hquote := (approximation_inRange hp hr).quote_pos
  have hless : r.num < r.den ↔ r < 1 := by
    have hden : (0 : ℚ) < r.den := by exact_mod_cast r.den_pos
    conv_rhs => rw [← Rat.num_div_den r, div_lt_one hden]
    exact_mod_cast Iff.rfl
  rw [Misdirected, ← one_lt_iff, hless,
    lt_iff_ratio (a := p.approximation r) (b := p) rfl rfl hquote hp.2.1,
    lt_iff_ratio (a := p) (b := p.approximation r) rfl rfl hp.2.1 hquote, approximation_ratio]

theorem directed (hp : p.Valid) (hr : 0 < r) :
    (1 < r → p ≤ if p.Misdirected r then p else p.approximation r) ∧
      (r < 1 → (if p.Misdirected r then p else p.approximation r) ≤ p) := by
  have hquote := (approximation_inRange hp hr).quote_pos
  have hself : p ≤ p := (le_iff_ratio rfl rfl hp.2.1 hp.2.1).mpr (le_refl _)
  constructor
  · intro hone
    split
    · exact hself
    · rename_i hnot
      rw [misdirected_iff hp hr, not_or] at hnot
      rw [le_iff_ratio (a := p) (b := p.approximation r) rfl rfl hp.2.1 hquote, approximation_ratio]
      exact not_lt.mp fun h => hnot.1 ⟨hone, h⟩
  · intro hone
    split
    · exact hself
    · rename_i hnot
      rw [misdirected_iff hp hr, not_or] at hnot
      rw [le_iff_ratio (a := p.approximation r) (b := p) rfl rfl hquote hp.2.1, approximation_ratio]
      exact not_lt.mp fun h => hnot.2 ⟨hone, h⟩

theorem not_misdirected (hp : p.Valid) (hr : 0 < r) (hfits : ¬TooLarge (p.ratio * r)) :
    ¬p.Misdirected r := by
  have hpos := ratio_pos hp.1 hp.2.1
  rw [misdirected_iff hp hr, scaleApprox_of_fits hfits, not_or]
  constructor
  · rintro ⟨hone, hlt⟩
    exact absurd ((le_mul_iff_one_le_right hpos).mpr (le_of_lt hone)) (not_le.mpr hlt)
  · rintro ⟨hone, hlt⟩
    exact absurd ((mul_le_iff_le_one_right hpos).mpr (le_of_lt hone)) (not_le.mpr hlt)

theorem unscale_eq (hr : 0 < r) : p.unscale r = p.scale r⁻¹ := by
  have hrational : rational r.den r.num = .ok r⁻¹ := by
    simp only [rational, bind_eq_ok, require_eq_ok, pure_eq_ok, exists_const]
    refine ⟨ne_of_gt (Rat.num_pos.mpr hr), ?_⟩
    rw [Rat.divInt_eq_div, Int.cast_natCast, ← inv_div, Rat.num_div_den]
  rw [unscale, hrational]
  rfl

/-- Scaling a price by a ratio returns without an overflow a price of its market, in range and on
the side that the ratio says: the scaled price itself when it fits, and otherwise its approximation
or, where that is misdirected, the price as it was. -/
theorem times_ratio (hp : p.Valid) (hrange : p.InRange) {n d : ℕ} (hn : 1 ≤ n ∧ n ≤ 65535)
    (hd : 1 ≤ d ∧ d ≤ 65535) : ∃ np, p.scale (n / d) = .ok np ∧ p.scale128 (n / d) = .ok np ∧
      np.base.assetId = p.base.assetId ∧ np.quote.assetId = p.quote.assetId ∧ np.InRange ∧
      (d ≤ n → p ≤ np) ∧ (n ≤ d → np ≤ p) ∧
      (¬TooLarge (p.ratio * (n / d)) → np.ratio = p.ratio * (n / d)) ∧
      (TooLarge (p.ratio * (n / d)) → ∃ v, Approximates (p.ratio * (n / d)) v ∧
        if (d < n ∧ v < p.ratio) ∨ (n < d ∧ p.ratio < v) then np = p else np.ratio = v) ∧
      p.unscale (n / d) = p.scale (d / n) := by
  have hnQ : (0 : ℚ) < n := by exact_mod_cast hn.1
  have hdQ : (0 : ℚ) < d := by exact_mod_cast hd.1
  have hr : (0 : ℚ) < n / d := div_pos hnQ hdQ
  have hgt : (1 : ℚ) < n / d ↔ d < n := by
    rw [one_lt_div hdQ]
    exact_mod_cast Iff.rfl
  have hlt : (n / d : ℚ) < 1 ↔ n < d := by
    rw [div_lt_one hdQ]
    exact_mod_cast Iff.rfl
  obtain ⟨hnum, hden⟩ := Halving.parts_le (n := (n : Int)) (d := (d : Int)) (by omega) (by omega)
    (rfl : (n / d : ℚ) = _)
  have hnum' : (n / d : ℚ).num ≤ maxRatio := hnum.trans (by simp only [maxRatio]; omega)
  have hden' : ((n / d : ℚ).den : Int) ≤ maxRatio := hden.trans (by simp only [maxRatio]; omega)
  have h128 := scale128_eq hp hrange hr hnum' hden'
  have hunscale : p.unscale (n / d) = p.scale (d / n) := by rw [unscale_eq hr, inv_div]
  by_cases hone : (n / d : ℚ).num = (n / d : ℚ).den
  · have hunit : (n / d : ℚ) = 1 := by
      rw [← Rat.num_div_den (n / d : ℚ), hone, Int.cast_natCast]
      exact div_self (by exact_mod_cast (n / d : ℚ).den_ne_zero)
    have hscale : p.scale (n / d) = .ok p := by
      simp only [scale, bind_eq_ok, require_eq_ok, exists_const, if_pos hone, pure_eq_ok]
      exact ⟨hp, Rat.num_pos.mpr hr, trivial⟩
    have hself : p ≤ p := (le_iff_ratio rfl rfl hp.2.1 hp.2.1).mpr (le_refl _)
    have hfits : ¬TooLarge (p.ratio * (n / d)) := by
      rw [hunit, mul_one]
      exact fits_of_parts hp.1 hp.2.1 hrange.base_le hrange.quote_le
    exact ⟨p, hscale, h128.trans hscale, rfl, rfl, hrange, fun _ => hself, fun _ => hself,
      fun _ => by rw [hunit, mul_one], fun h => absurd h hfits, hunscale⟩
  · have hnd : n ≠ d := by
      rintro rfl
      refine hone ?_
      rw [div_self (ne_of_gt hnQ)]
      rfl
    have hscale := scale_of_ne hp hr hone
    have hmis := misdirected_iff hp hr
    rw [hgt, hlt] at hmis
    have hdirected := directed hp hr
    rw [hgt, hlt] at hdirected
    refine ⟨_, hscale, h128.trans hscale, ?_, ?_, ?_, fun h => hdirected.1 (by omega),
      fun h => hdirected.2 (by omega), fun hfits => ?_, fun hlarge => ⟨_,
        scaleApprox_approximates (scaled_num_pos hp hr) hlarge, ?_⟩, hunscale⟩
    · split <;> rfl
    · split <;> rfl
    · split
      · exact hrange
      · exact approximation_inRange hp hr
    · rw [if_neg (not_misdirected hp hr hfits), approximation_ratio, scaleApprox_of_fits hfits]
    · split
      · rename_i hwrong
        exact if_pos (hmis.mpr hwrong)
      · rename_i hright
        rw [if_neg (mt hmis.mp hright), approximation_ratio]

/-- A price of 3/7 at 20% above it. -/
theorem times_ratio_three_sevenths : ∃ np, Price.scale ⟨⟨3, 1⟩, ⟨7, 0⟩⟩ (12 / 10) = .ok np ∧
    np.ratio = 18 / 35 := by
  obtain ⟨np, hscale, -, -, -, -, -, -, hexact, -⟩ := times_ratio
    (p := ⟨⟨3, 1⟩, ⟨7, 0⟩⟩) (n := 12) (d := 10) (by decide)
    ⟨by decide, by decide, by decide, by decide⟩ (by decide) (by decide)
  refine ⟨np, by exact_mod_cast hscale, ?_⟩
  rw [hexact (by decide +kernel)]
  norm_num [ratio]

end Price

end Nestchain.Market
