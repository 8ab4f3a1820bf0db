import Nestchain.Lib.Decimal
import Nestchain.Market.Price
import Mathlib.Algebra.Order.Floor.Semifield
import Mathlib.Data.Rat.Floor

/-! The numbers that are displayed to traders: an amount of 128 bits with a precision, a price, and
the change between two prices.  A number of 128 or 256 bits is a `Nat`, with the remainders that its
operations leave. -/

namespace Nestchain.App

open Lib Market

/-- `std::numeric_limits<int64_t>::max()` -/
def int64Max : Int := 2 ^ 63 - 1

/-- `fc::uint128::max_value()` -/
def max128 : Nat := 2 ^ 128 - 1

/-- `operator /` of `fc::uint128` and `u256`, which throws for a zero divisor. -/
def quotient (a b : Nat) : Attempt Nat := do
  require (b ≠ 0)
  pure (a / b)

/-- `fc::uint128( x )` of an `int64_t` -/
def toUint128 (x : Int) : Nat := (x % 2 ^ 128).toNat

def times128 (a b : Nat) : Nat := a * b % 2 ^ 128

/-! ### Texts -/

/-- `find_last_not_of`, with `npos` for a text of nothing else. -/
def findLastNotOf (s : List Char) (c : Char) : Nat :=
  let kept := s.reverse.dropWhile (· == c)
  if kept = [] then 2 ^ 64 - 1 else kept.length - 1

def substr (s : List Char) (pos n : Nat) : Attempt (List Char) := do
  require (pos ≤ s.length)
  pure ((s.drop pos).take n)

/-- `uint128_amount_to_string`, with indexes of 8 bits. -/
def uint128AmountToString (amount precision : Nat) : Attempt (List Char) :=
  let s := Nat.toDigits 10 amount
  if precision = 0 ∨ amount = 0 then pure s
  else
    let pos := findLastNotOf s '0' % 256
    let len := s.length % 256
    if len > precision then do
      let leftLen := (len - precision) % 256
      let left ← substr s 0 leftLen
      if pos ≥ leftLen then do
        let right ← substr s leftLen (pos - leftLen + 1)
        pure (left ++ '.' :: right)
      else pure left
    else do
      let digits ← substr s 0 (pos + 1)
      pure ("0.".toList ++ List.replicate ((precision - len) % 256) '0' ++ digits)

/-- The amounts that stand for a price in a text. -/
def shownAmounts (p : Price) : Int × Int :=
  if p.quote.amount = 0 then (int64Max, 1) else (p.base.amount, p.quote.amount)

def priceToString (p : Price) (basePrecision quotePrecision : Nat) : Attempt (List Char) :=
  if p.base.amount = 0 then pure "0".toList
  else do
    require (0 ≤ p.base.amount)
    require (0 ≤ p.quote.amount)
    require (basePrecision ≤ 19)
    require (quotePrecision ≤ 19)
    let (base, quote) := shownAmounts p
    let price128 ← quotient (times128 (toUint128 base) (10 ^ 19)) (toUint128 quote)
    uint128AmountToString price128 ((19 + basePrecision - quotePrecision) % 256)

def to256 (t : Nat) : Nat := (t / 2 ^ 64 * 2 ^ 64 + t % 2 ^ 64) % 2 ^ 256

def toCapped128 (t : Nat) : Nat :=
  if t ≥ to256 max128 then max128
  else
    let hi := t / 2 ^ 64
    let lo := t - hi * 2 ^ 64
    hi % 2 ^ 64 * 2 ^ 64 + lo % 2 ^ 64

/-- The amounts that stand for a price in a comparison: an extreme price where one is zero. -/
def comparedAmounts (p : Price) : Int × Int :=
  if p.base.amount = 0 then (1, int64Max)
  else if p.quote.amount = 0 then (int64Max, 1)
  else (p.base.amount, p.quote.amount)

def priceDiffPercentString (oldPrice newPrice : Price) : Attempt (List Char) := do
  require (oldPrice.base.assetId = newPrice.base.assetId)
  require (oldPrice.quote.assetId = newPrice.quote.assetId)
  require (0 ≤ oldPrice.base.amount)
  require (0 ≤ oldPrice.quote.amount)
  require (0 ≤ newPrice.base.amount)
  require (0 ≤ newPrice.quote.amount)
  let (oldBase, oldQuote) := comparedAmounts oldPrice
  let (newBase, newQuote) := comparedAmounts newPrice
  let new128 := times128 (toUint128 newBase) (toUint128 oldQuote)
  let old128 := times128 (toUint128 oldBase) (toUint128 newQuote)
  let diff128 := if new128 ≥ old128 then new128 - old128 else old128 - new128
  let max := max128 / 10000
  let diff128 ← (if diff128 ≤ max then quotient (times128 diff128 10000) old128
    else do
      let diff256 ← quotient (to256 diff128 * 10000 % 2 ^ 256) (to256 old128)
      pure (toCapped128 diff256))
  let diffStr ← uint128AmountToString diff128 2
  if new128 ≥ old128 ∨ diffStr = "0".toList then pure diffStr
  else pure ('-' :: diffStr)

example : uint128AmountToString 1234567890 9 = .ok "1.23456789".toList := by decide +kernel

example : priceDiffPercentString ⟨⟨3, 0⟩, ⟨1, 1⟩⟩ ⟨⟨1, 0⟩, ⟨1, 1⟩⟩ = .ok "-66.66".toList := by
  decide +kernel

/-! ### Amounts -/

theorem findLastNotOf_split {front : List Char} {zeros : Nat} (hne : front ≠ [])
    (hlast : front.getLast? ≠ some '0') :
    findLastNotOf (front ++ List.replicate zeros '0') '0' = front.length - 1 := by
  obtain ⟨l, c, rfl⟩ := (List.eq_nil_or_concat' front).resolve_left hne
  have hc : c ≠ '0' := by simpa using hlast
  have hkept : ((l ++ [c] ++ List.replicate zeros '0').reverse.dropWhile (· == '0')) =
      (l ++ [c]).reverse := by
    rw [List.reverse_append, List.reverse_replicate, List.dropWhile_append_of_pos (by simp),
      List.reverse_concat, List.dropWhile_cons_of_neg (by simpa using hc)]
  simp only [findLastNotOf, hkept]
  simp

theorem substr_eq_ok {s r : List Char} {pos n : Nat} :
    substr s pos n = .ok r ↔ pos ≤ s.length ∧ r = (s.drop pos).take n := by
  simp only [substr, bind_eq_ok, require_eq_ok, pure_eq_ok, exists_const]

/-- The text is that of the digits with the point `precision` places from the end; the indexes fit
in 8 bits. -/
theorem uint128AmountToString_shifted {amount precision zeros : Nat} {front : List Char}
    (hamount : amount ≠ 0) (hprecision : precision ≠ 0) (hp : precision < 256)
    (hdigits : Nat.toDigits 10 amount = front ++ List.replicate zeros '0') (hne : front ≠ [])
    (hlast : front.getLast? ≠ some '0') (hlength : front.length + zeros < 256) :
    uint128AmountToString amount precision = .ok (Decimal.shifted front zeros precision) := by
  have hpos := List.length_pos_iff.mpr hne
  have hlen : (front ++ List.replicate zeros '0').length = front.length + zeros := by simp
  have hlenMod : (front.length + zeros) % 256 = front.length + zeros := Nat.mod_eq_of_lt hlength
  have hposMod : (front.length - 1) % 256 = front.length - 1 := Nat.mod_eq_of_lt (by omega)
  have hleftMod : (front.length + zeros - precision) % 256 = front.length + zeros - precision :=
    Nat.mod_eq_of_lt (by omega)
  have hgapMod : (precision - (front.length + zeros)) % 256 = precision - (front.length + zeros) :=
    Nat.mod_eq_of_lt (by omega)
  simp only [uint128AmountToString, hdigits, hprecision, hamount, or_self, if_false, hlen, hlenMod,
    findLastNotOf_split hne hlast, hposMod, hleftMod, hgapMod, Decimal.shifted]
  by_cases hlong : precision < front.length + zeros
  · simp only [gt_iff_lt, if_pos hlong, bind_eq_ok, substr_eq_ok, hlen, List.drop_zero]
    refine ⟨_, ⟨by omega, rfl⟩, ?_⟩
    by_cases hwhole : precision ≤ zeros
    · -- nothing but zeros behind the point
      have hcount : min (front.length + zeros - precision - front.length) zeros =
          zeros - precision := by omega
      rw [if_neg (by omega), if_pos hwhole, pure_eq_ok, List.take_append,
        List.take_of_length_le (by omega), List.take_replicate, hcount]
    · have hright : ((front ++ List.replicate zeros '0').drop
          (front.length + zeros - precision)).take
          (front.length - 1 - (front.length + zeros - precision) + 1) =
          front.drop (front.length + zeros - precision) := by
        rw [List.drop_append_of_le_length (by omega),
          List.take_append_of_le_length (by rw [List.length_drop]; omega),
          List.take_of_length_le (by rw [List.length_drop]; omega)]
      rw [if_pos (by omega), if_neg hwhole, List.take_append_of_le_length (by omega)]
      simp only [bind_eq_ok, substr_eq_ok, hlen, pure_eq_ok, hright]
      exact ⟨_, ⟨by omega, rfl⟩, rfl⟩
  · have hdigits' : (front ++ List.replicate zeros '0').take (front.length - 1 + 1) = front := by
      rw [Nat.sub_add_cancel hpos, List.take_left]
    rw [if_neg hlong, if_neg (by omega)]
    simp only [if_neg hlong, bind_eq_ok, substr_eq_ok, hlen, List.drop_zero, hdigits',
      pure_eq_ok]
    exact ⟨front, ⟨Nat.zero_le _, rfl⟩, rfl⟩

theorem uint128AmountToString_exact {amount precision : Nat} (hamount : amount < 2 ^ 128)
    (hprecision : precision ≤ 38) :
    ∃ t : Decimal, uint128AmountToString amount precision = .ok t.text ∧ t.negative = false ∧
      t.Canonical ∧ t.value = amount / 10 ^ precision := by
  by_cases hplain : precision = 0 ∨ amount = 0
  · refine ⟨.ofNat amount, ?_, rfl, Decimal.ofNat_canonical amount, ?_⟩
    · rw [uint128AmountToString, if_pos hplain, Decimal.ofNat_text]
      rfl
    · rw [Decimal.ofNat_value]
      rcases hplain with rfl | rfl <;> simp
  · obtain ⟨hp, ha⟩ := not_or.mp hplain
    obtain ⟨front, zeros, hdigits, hne, hlast⟩ := toDigits_split ha
    have hfront : Digits front := fun c hc =>
      toDigits_digits amount c (hdigits ▸ List.mem_append_left _ hc)
    have hhead : front.head? ≠ some '0' := by
      have hhead := head?_toDigits ha
      rwa [hdigits, List.head?_append_of_ne_nil _ hne] at hhead
    have hlength : front.length + zeros ≤ 39 := by
      have hle := (Nat.length_toDigits_le_iff (b := 10) (k := 39) (n := amount) (by decide)
        (by decide)).mpr (by omega)
      rwa [hdigits, List.length_append, List.length_replicate] at hle
    have hvalue : (amount : ℚ) = 10 ^ zeros * Nat.ofDigitChars 10 front 0 := by
      have hread := Nat.ofDigitChars_ten_toDigits (n := amount)
      rw [hdigits, Nat.ofDigitChars_append, Nat.ofDigitChars_replicate_zero] at hread
      exact_mod_cast hread.symm
    obtain ⟨t, ht, hsign, hcanonical, hshifted⟩ :=
      Decimal.exists_shifted hfront hne hhead hlast zeros precision
    refine ⟨t, ?_, hsign, hcanonical, by rw [hshifted, hvalue]⟩
    rw [ht]
    exact uint128AmountToString_shifted ha hp (by omega) hdigits hne hlast (by omega)

/-! ### Prices -/

/-- Amounts that a price can have: they are not negative and fit in an `int64_t`. -/
structure Displayable (p : Price) : Prop where
  base : 0 ≤ p.base.amount ∧ p.base.amount < 2 ^ 63
  quote : 0 ≤ p.quote.amount ∧ p.quote.amount < 2 ^ 63

/-- The number that is displayed for a price. -/
def shownRatio (p : Price) : ℚ :=
  if p.base.amount = 0 then 0 else (shownAmounts p).1 / (shownAmounts p).2

theorem quotient_eq_ok {a b q : Nat} : quotient a b = .ok q ↔ b ≠ 0 ∧ q = a / b := by
  simp only [quotient, bind_eq_ok, require_eq_ok, pure_eq_ok, exists_const]

theorem toUint128_eq {x : Int} (h : 0 ≤ x ∧ x < 2 ^ 63) : toUint128 x = x.toNat := by
  rw [toUint128, Int.emod_eq_of_lt h.1 (by omega)]

theorem times128_eq {a b : Nat} (h : a * b < 2 ^ 128) : times128 a b = a * b := Nat.mod_eq_of_lt h

theorem shownAmounts_eq {p : Price} (h : Displayable p) :
    ∃ base quote : Nat, shownAmounts p = ((base : Int), (quote : Int)) ∧ base < 2 ^ 63 ∧
      0 < quote ∧ quote < 2 ^ 63 := by
  obtain ⟨⟨hb, hb'⟩, hq, hq'⟩ := h
  rw [shownAmounts]
  split
  · exact ⟨2 ^ 63 - 1, 1, rfl, by decide, by decide, by decide⟩
  · exact ⟨p.base.amount.toNat, p.quote.amount.toNat,
      by rw [Int.toNat_of_nonneg hb, Int.toNat_of_nonneg hq], by omega, by omega, by omega⟩

theorem shownAmounts_lt {p : Price} (h : Displayable p) : (shownAmounts p).1 < 2 ^ 63 := by
  rw [shownAmounts]
  split
  · decide
  · exact h.base.2

/-- The text of a price is the canonical text of the price rounded down at the nineteenth place; the
multiplication before the rounding does not overflow. -/
theorem priceToString_exact {p : Price} (h : Displayable p) {basePrecision quotePrecision : Nat}
    (hbase : basePrecision ≤ 19) (hquote : quotePrecision ≤ 19) :
    (shownAmounts p).1 * 10 ^ 19 < 2 ^ 128 ∧
    ∃ t : Decimal, priceToString p basePrecision quotePrecision = .ok t.text ∧ t.Canonical ∧
      t.value = ⌊shownRatio p * 10 ^ 19⌋₊ / 10 ^ (19 + basePrecision - quotePrecision) := by
  refine ⟨?_, ?_⟩
  · have hlt := shownAmounts_lt h
    omega
  rw [priceToString, shownRatio]
  by_cases hzero : p.base.amount = 0
  · refine ⟨.ofNat 0, ?_, Decimal.ofNat_canonical 0, ?_⟩
    · rw [if_pos hzero, Decimal.ofNat_text]
      rfl
    · rw [if_pos hzero, Decimal.ofNat_value]
      simp
  · obtain ⟨base, quote, hshown, hb, hq, hq'⟩ := shownAmounts_eq h
    have hproduct : base * 10 ^ 19 < 2 ^ 128 := by omega
    have hfit : base * 10 ^ 19 / quote < 2 ^ 128 :=
      lt_of_le_of_lt (Nat.div_le_self _ _) hproduct
    have hprecision : (19 + basePrecision - quotePrecision) % 256 =
        19 + basePrecision - quotePrecision := Nat.mod_eq_of_lt (by omega)
    have hplaces : 19 + basePrecision - quotePrecision ≤ 38 := by omega
    obtain ⟨t, ht, -, hcanonical, hvalue⟩ := uint128AmountToString_exact hfit hplaces
    refine ⟨t, ?_, hcanonical, ?_⟩
    · simp only [if_neg hzero, hshown, bind_eq_ok, require_eq_ok, exists_const, quotient_eq_ok,
        toUint128_eq (x := base) ⟨by omega, by omega⟩,
        toUint128_eq (x := quote) ⟨by omega, by omega⟩, Int.toNat_natCast, times128_eq hproduct,
        hprecision]
      exact ⟨h.base.1, h.quote.1, hbase, hquote, _, ⟨by omega, rfl⟩, ht⟩
    · rw [hvalue, if_neg hzero, hshown]
      have hfloor : ⌊((base : Int) : ℚ) / ((quote : Int) : ℚ) * 10 ^ 19⌋₊ =
          base * 10 ^ 19 / quote := by
        rw [← Nat.floor_div_eq_div (K := ℚ), div_mul_eq_mul_div]
        norm_num
      rw [hfloor]

/-! ### Changes -/

theorem to256_eq {t : Nat} (h : t < 2 ^ 128) : to256 t = t := by
  rw [to256]
  omega

theorem toCapped128_eq (t : Nat) : toCapped128 t = min t max128 := by
  have hmax : to256 max128 = max128 := to256_eq (by decide)
  have hvalue : max128 = 2 ^ 128 - 1 := rfl
  rw [toCapped128, hmax]
  split
  · omega
  · simp only
    omega

def comparedRatio (p : Price) : ℚ := (comparedAmounts p).1 / (comparedAmounts p).2

def priceChange (oldPrice newPrice : Price) : ℚ :=
  comparedRatio newPrice / comparedRatio oldPrice - 1

theorem comparedAmounts_eq {p : Price} (h : Displayable p) :
    ∃ base quote : Nat, comparedAmounts p = ((base : Int), (quote : Int)) ∧
      (0 < base ∧ base < 2 ^ 63) ∧ 0 < quote ∧ quote < 2 ^ 63 := by
  obtain ⟨⟨hb, hb'⟩, hq, hq'⟩ := h
  rw [comparedAmounts]
  split
  · exact ⟨1, 2 ^ 63 - 1, rfl, by decide, by decide⟩
  · split
    · exact ⟨2 ^ 63 - 1, 1, rfl, by decide, by decide⟩
    · exact ⟨p.base.amount.toNat, p.quote.amount.toNat,
        by rw [Int.toNat_of_nonneg hb, Int.toNat_of_nonneg hq], by omega, by omega⟩

theorem change_eq_ok {diff old r : Nat} (hdiff : diff < 2 ^ 128) (hold : 0 < old)
    (hold' : old < 2 ^ 128) :
    (if diff ≤ max128 / 10000 then quotient (times128 diff 10000) old
      else do
        let diff256 ← quotient (to256 diff * 10000 % 2 ^ 256) (to256 old)
        pure (toCapped128 diff256)) = .ok r ↔ r = min (diff * 10000 / old) max128 := by
  have hmax : max128 = 2 ^ 128 - 1 := rfl
  split
  · rename_i hle
    have hfit : diff * 10000 < 2 ^ 128 := by omega
    have hcapped : diff * 10000 / old ≤ max128 :=
      le_trans (Nat.div_le_self _ _) (by omega)
    rw [quotient_eq_ok, times128_eq hfit, min_eq_left hcapped]
    exact ⟨fun h => h.2, fun h => ⟨by omega, h⟩⟩
  · have hfit : diff * 10000 % 2 ^ 256 = diff * 10000 := Nat.mod_eq_of_lt (by omega)
    simp only [bind_eq_ok, quotient_eq_ok, pure_eq_ok, to256_eq hdiff, to256_eq hold', hfit,
      toCapped128_eq]
    exact ⟨by rintro ⟨_, ⟨-, rfl⟩, rfl⟩; rfl, fun h => ⟨_, ⟨by omega, rfl⟩, h⟩⟩

theorem change_floor {a b c d : Nat} (hb : 0 < b) (hc : 0 < c) (hd : 0 < d) :
    ((a : ℚ) / b / (c / d) - 1) = ((a * d : Nat) - (c * b : Nat) : ℚ) / (c * b : Nat) := by
  have hb' : (b : ℚ) ≠ 0 := by exact_mod_cast hb.ne'
  have hc' : (c : ℚ) ≠ 0 := by exact_mod_cast hc.ne'
  have hd' : (d : ℚ) ≠ 0 := by exact_mod_cast hd.ne'
  push_cast
  field_simp

theorem floor_change (new : Nat) {old : Nat} (hold : 0 < old) :
    (0 ≤ ((new : ℚ) - old) / old ↔ new ≥ old) ∧
      ⌊|((new : ℚ) - old) / old| * 10000⌋₊ =
        (if new ≥ old then new - old else old - new) * 10000 / old := by
  have hpos : (0 : ℚ) < old := by exact_mod_cast hold
  have hdiff : |(new : ℚ) - old| = ((if new ≥ old then new - old else old - new : Nat) : ℚ) := by
    split
    · rename_i hle
      rw [Nat.cast_sub hle, abs_of_nonneg (sub_nonneg.mpr (by exact_mod_cast hle))]
    · rename_i hlt
      have hle : new ≤ old := by omega
      rw [Nat.cast_sub hle, abs_of_nonpos (sub_nonpos.mpr (by exact_mod_cast hle)), neg_sub]
  constructor
  · rw [le_div_iff₀ hpos, zero_mul, sub_nonneg]
    exact Nat.cast_le
  · rw [abs_div, hdiff, abs_of_pos hpos, ← Nat.floor_div_eq_div (K := ℚ), div_mul_eq_mul_div]
    norm_num

theorem signed_text {amount : Nat} (hamount : amount < 2 ^ 128) (nonNegative : Prop)
    [Decidable nonNegative] :
    ∃ t : Decimal, (do
        let diffStr ← uint128AmountToString amount 2
        if nonNegative ∨ diffStr = "0".toList then pure diffStr else pure ('-' :: diffStr)) =
        .ok t.text ∧ t.Canonical ∧
      t.value = (if nonNegative then 1 else -1) * (amount : ℚ) / 100 := by
  obtain ⟨t, ht, hsign, hcanonical, hvalue⟩ :=
    uint128AmountToString_exact hamount (show 2 ≤ 38 by decide)
  simp only [bind_eq_ok, ht, Except.ok.injEq, exists_eq_left']
  by_cases hnon : nonNegative
  · refine ⟨t, by rw [if_pos (Or.inl hnon)]; rfl, hcanonical, ?_⟩
    rw [hvalue, if_pos hnon]
    norm_num
  · rw [if_neg hnon]
    by_cases hzero : amount = 0
    · subst hzero
      have htext : "0".toList = t.text := Except.ok.inj ht
      refine ⟨t, by rw [if_pos (Or.inr htext.symm)]; rfl, hcanonical, ?_⟩
      rw [hvalue]
      norm_num
    · have hne : t.value ≠ 0 := by
        rw [hvalue]
        have : (amount : ℚ) ≠ 0 := by exact_mod_cast hzero
        positivity
      have htext : t.text ≠ "0".toList := fun h => hne (Decimal.value_of_text_zero h)
      have hsigned : (t.withSign true).value = -1 * t.value := Decimal.withSign_value hsign true
      refine ⟨t.withSign true, ?_, hcanonical.withSign fun _ => ?_, ?_⟩
      · rw [if_neg (not_or.mpr ⟨hnon, htext⟩), Decimal.withSign_text hsign]
        rfl
      · rw [hsigned]
        simpa using hne
      · rw [hsigned, hvalue]
        norm_num
        ring

theorem priceDiffPercentString_exact {oldPrice newPrice : Price} (hold : Displayable oldPrice)
    (hnew : Displayable newPrice) (hbase : oldPrice.base.assetId = newPrice.base.assetId)
    (hquote : oldPrice.quote.assetId = newPrice.quote.assetId) :
    ∃ t : Decimal, priceDiffPercentString oldPrice newPrice = .ok t.text ∧ t.Canonical ∧
      t.value = (if 0 ≤ priceChange oldPrice newPrice then 1 else -1) *
        ((min ⌊|priceChange oldPrice newPrice| * 10000⌋₊ max128 : Nat) : ℚ) / 100 := by
  obtain ⟨oldBase, oldQuote, holdAmounts, ⟨hob, hob'⟩, hoq, hoq'⟩ := comparedAmounts_eq hold
  obtain ⟨newBase, newQuote, hnewAmounts, ⟨hnb, hnb'⟩, hnq, hnq'⟩ := comparedAmounts_eq hnew
  have hnewFit : newBase * oldQuote < 2 ^ 126 := by
    have := Nat.mul_lt_mul'' hnb' hoq'
    omega
  have holdFit : oldBase * newQuote < 2 ^ 126 := by
    have := Nat.mul_lt_mul'' hob' hnq'
    omega
  have holdPos : 0 < oldBase * newQuote := Nat.mul_pos hob hnq
  have hchange : priceChange oldPrice newPrice =
      ((newBase * oldQuote : Nat) - (oldBase * newQuote : Nat) : ℚ) /
        (oldBase * newQuote : Nat) := by
    rw [priceChange, comparedRatio, comparedRatio, holdAmounts, hnewAmounts]
    exact change_floor hnq hob hoq
  simp only [priceDiffPercentString, holdAmounts, hnewAmounts, bind_eq_ok, require_eq_ok,
    exists_const, hbase, hquote, toUint128_eq (x := oldBase) ⟨by omega, by omega⟩,
    toUint128_eq (x := oldQuote) ⟨by omega, by omega⟩,
    toUint128_eq (x := newBase) ⟨by omega, by omega⟩,
    toUint128_eq (x := newQuote) ⟨by omega, by omega⟩, Int.toNat_natCast,
    times128_eq (show newBase * oldQuote < 2 ^ 128 by omega),
    times128_eq (show oldBase * newQuote < 2 ^ 128 by omega)]
  rw [hchange]
  generalize newBase * oldQuote = new at *
  generalize oldBase * newQuote = old at *
  have hdiff : (if new ≥ old then new - old else old - new) < 2 ^ 128 := by split <;> omega
  have hmin : min ((if new ≥ old then new - old else old - new) * 10000 / old) max128 < 2 ^ 128 :=
    lt_of_le_of_lt (min_le_right _ _) (by decide)
  obtain ⟨t, ht, hcanonical, hvalue⟩ := signed_text hmin (new ≥ old)
  refine ⟨t, ⟨trivial, trivial, hold.base.1, hold.quote.1, hnew.base.1, hnew.quote.1, _,
    (change_eq_ok hdiff holdPos (by omega)).mpr rfl, ?_⟩, hcanonical, ?_⟩
  · simpa only [bind_eq_ok] using ht
  · obtain ⟨hsign, hfloor⟩ := floor_change new holdPos
    rw [hvalue, hfloor, if_congr hsign rfl rfl]

/-- The three texts are canonical and denote the numbers they stand for. -/
theorem displayed_exact :
    (∀ amount precision : Nat, amount < 2 ^ 128 → precision ≤ 38 →
      ∃ t : Decimal, uint128AmountToString amount precision = .ok t.text ∧ t.Canonical ∧
        t.value = amount / 10 ^ precision) ∧
    (∀ (p : Price) (basePrecision quotePrecision : Nat), Displayable p → basePrecision ≤ 19 →
      quotePrecision ≤ 19 → (shownAmounts p).1 * 10 ^ 19 < 2 ^ 128 ∧
        ∃ t : Decimal, priceToString p basePrecision quotePrecision = .ok t.text ∧ t.Canonical ∧
          t.value = ⌊shownRatio p * 10 ^ 19⌋₊ / 10 ^ (19 + basePrecision - quotePrecision)) ∧
    ∀ oldPrice newPrice : Price, Displayable oldPrice → Displayable newPrice →
      oldPrice.base.assetId = newPrice.base.assetId →
      oldPrice.quote.assetId = newPrice.quote.assetId →
      ∃ t : Decimal, priceDiffPercentString oldPrice newPrice = .ok t.text ∧ t.Canonical ∧
        t.value = (if 0 ≤ priceChange oldPrice newPrice then 1 else -1) *
          ((min ⌊|priceChange oldPrice newPrice| * 10000⌋₊ max128 : Nat) : ℚ) / 100 := by
  refine ⟨fun amount precision ha hp => ?_, fun p b q h hb hq => priceToString_exact h hb hq,
    fun _ _ hold hnew hb hq => priceDiffPercentString_exact hold hnew hb hq⟩
  obtain ⟨t, ht, -, hcanonical, hvalue⟩ := uint128AmountToString_exact ha hp
  exact ⟨t, ht, hcanonical, hvalue⟩

/-- An amount, the price of two for three in assets of five and four places, and its rise to three
for four. -/
theorem displayed_exact_hundredth :
    (∃ t : Decimal, uint128AmountToString 1024000 9 = .ok t.text ∧ t.Canonical ∧
      t.value = (1024000 : Nat) / 10 ^ 9) ∧
    (∃ t : Decimal, priceToString ⟨⟨2, 0⟩, ⟨3, 1⟩⟩ 5 4 = .ok t.text ∧ t.Canonical ∧
      t.value = ⌊shownRatio ⟨⟨2, 0⟩, ⟨3, 1⟩⟩ * 10 ^ 19⌋₊ / 10 ^ 20) ∧
    ∃ t : Decimal, priceDiffPercentString ⟨⟨2, 0⟩, ⟨3, 1⟩⟩ ⟨⟨3, 0⟩, ⟨4, 1⟩⟩ = .ok t.text ∧
      t.Canonical ∧ t.value =
        (if 0 ≤ priceChange ⟨⟨2, 0⟩, ⟨3, 1⟩⟩ ⟨⟨3, 0⟩, ⟨4, 1⟩⟩ then 1 else -1) *
          ((min ⌊|priceChange ⟨⟨2, 0⟩, ⟨3, 1⟩⟩ ⟨⟨3, 0⟩, ⟨4, 1⟩⟩| * 10000⌋₊ max128 : Nat) : ℚ) /
            100 := by
  have hold : Displayable ⟨⟨2, 0⟩, ⟨3, 1⟩⟩ := ⟨by decide, by decide⟩
  have hnew : Displayable ⟨⟨3, 0⟩, ⟨4, 1⟩⟩ := ⟨by decide, by decide⟩
  exact ⟨displayed_exact.1 1024000 9 (by decide) (by decide),
    (displayed_exact.2.1 _ 5 4 hold (by decide) (by decide)).2,
    displayed_exact.2.2 _ _ hold hnew rfl rfl⟩

end Nestchain.App
