import Mathlib.Algebra.Order.Field.Rat
import Mathlib.Data.List.Induction
import Mathlib.Tactic.FieldSimp
import Mathlib.Tactic.Linarith
import Mathlib.Tactic.Ring

/-! Decimal numbers as they are written: a sign, digits, and perhaps a point with digits after it.
The value of such a text is a rational number, and a canonical text has no character to spare. -/

namespace Nestchain.Lib

/-- The text consists of decimal digits. -/
abbrev Digits (l : List Char) : Prop := ∀ c ∈ l, c.isDigit = true

theorem Digits.append {l m : List Char} (hl : Digits l) (hm : Digits m) : Digits (l ++ m) :=
  fun c hc => (List.mem_append.mp hc).elim (hl c) (hm c)

theorem Digits.zeros (n : Nat) : Digits (List.replicate n '0') := by
  intro c hc
  rw [List.eq_of_mem_replicate hc]
  decide

theorem Digits.notMem {l : List Char} (h : Digits l) {c : Char} (hc : c.isDigit = false) :
    c ∉ l := fun hmem => absurd (h c hmem) (by simp [hc])

/-- The point and the digits after it, where there is a point. -/
def pointed : Option (List Char) → List Char
  | none => []
  | some digits => '.' :: digits

theorem minus_notMem_pointed {y : Option (List Char)} (h : Digits (y.getD [])) :
    '-' ∉ pointed y := by
  cases y with
  | none => exact List.not_mem_nil
  | some digits =>
    rw [pointed, List.mem_cons]
    rintro (hc | hc)
    · exact absurd hc (by decide)
    · exact h.notMem (by decide) hc

structure Decimal where
  negative : Bool
  whole : List Char
  fraction : Option (List Char)
  whole_digits : Digits whole
  fraction_digits : Digits (fraction.getD [])
  some_digit : whole ++ fraction.getD [] ≠ []

namespace Decimal

def text (t : Decimal) : List Char :=
  List.replicate t.negative.toNat '-' ++ t.whole ++ pointed t.fraction

/-- The number of digits after the point. -/
def places (t : Decimal) : Nat := (t.fraction.getD []).length

def sign (t : Decimal) : ℚ := if t.negative then -1 else 1

def value (t : Decimal) : ℚ :=
  t.sign * (Nat.ofDigitChars 10 t.whole 0 +
    Nat.ofDigitChars 10 (t.fraction.getD []) 0 / 10 ^ t.places)

/-- No zero in front, none at the end of the fraction, no point without digits after it, and no sign
before zero. -/
structure Canonical (t : Decimal) : Prop where
  leading : t.whole = ['0'] ∨ t.whole ≠ [] ∧ t.whole.head? ≠ some '0'
  trailing : ∀ digits ∈ t.fraction, digits ≠ [] ∧ digits.getLast? ≠ some '0'
  signed : t.negative = true → t.value ≠ 0

/-- Only the first character can be a sign. -/
theorem minus_notMem_tail (t : Decimal) : '-' ∉ t.text.tail := by
  have hwhole := t.whole_digits.notMem (c := '-') (by decide)
  have hrest : '-' ∉ t.whole ++ pointed t.fraction := by
    rw [List.mem_append]
    rintro (h | h)
    · exact hwhole h
    · exact minus_notMem_pointed t.fraction_digits h
  rw [text, List.append_assoc]
  cases t.negative with
  | false => exact fun h => hrest (List.mem_of_mem_tail h)
  | true => exact hrest

/-- There is a digit. -/
theorem exists_digit (t : Decimal) : ∃ c ∈ t.text, c.isDigit = true := by
  obtain ⟨c, l, hc⟩ := List.exists_cons_of_ne_nil t.some_digit
  have hmem : c ∈ t.whole ++ t.fraction.getD [] := hc ▸ List.mem_cons_self
  refine ⟨c, ?_, t.whole_digits.append t.fraction_digits c hmem⟩
  rw [text, List.append_assoc, List.mem_append, List.mem_append]
  refine Or.inr ((List.mem_append.mp hmem).imp_right fun h => ?_)
  cases hf : t.fraction with
  | none => simp [hf] at h
  | some digits =>
    rw [hf] at h
    exact List.mem_cons_of_mem _ h

/-- In units of the last of `p` places the value is a whole number: the fraction is filled up with
zeros. -/
theorem value_scaled (t : Decimal) {p : Nat} (h : t.places ≤ p) :
    t.value * 10 ^ p = t.sign * (Nat.ofDigitChars 10 t.whole 0 * 10 ^ p +
      Nat.ofDigitChars 10 (t.fraction.getD [] ++ List.replicate (p - t.places) '0') 0 : Nat) := by
  obtain ⟨k, rfl⟩ := Nat.exists_eq_add_of_le h
  rw [Nat.ofDigitChars_append, Nat.ofDigitChars_replicate_zero, Nat.add_sub_cancel_left, value]
  push_cast
  rw [pow_add]
  field_simp

/-- The digits on both sides of the point read as one number, in units of the last place. -/
theorem value_eq_digits (t : Decimal) :
    t.value = t.sign * (Nat.ofDigitChars 10 (t.whole ++ t.fraction.getD []) 0 / 10 ^ t.places) := by
  have happend : Nat.ofDigitChars 10 (t.fraction.getD []) (Nat.ofDigitChars 10 t.whole 0) =
      10 ^ (t.fraction.getD []).length * Nat.ofDigitChars 10 t.whole 0 +
        Nat.ofDigitChars 10 (t.fraction.getD []) 0 := Nat.ofDigitChars_eq_ofDigitChars_zero
  rw [value, Nat.ofDigitChars_append, happend, places]
  push_cast
  field_simp

theorem value_of_text_zero {t : Decimal} (h : t.text = ['0']) : t.value = 0 := by
  obtain ⟨negative, whole, fraction, hwhole, hfraction, hsome⟩ := t
  have hpointed : pointed fraction ≠ ['0'] := by
    cases fraction with
    | none => nofun
    | some digits => exact fun h => absurd (List.cons.inj h).1 (by decide)
  rw [text] at h
  cases negative with
  | true => exact absurd (List.cons.inj h).1 (by decide)
  | false =>
    obtain ⟨-, hrest⟩ | ⟨hzero, hrest⟩ := List.append_eq_singleton_iff.mp h
    · exact absurd hrest hpointed
    · obtain rfl : whole = ['0'] := hzero
      cases fraction with
      | none => simp [value, Nat.ofDigitChars_cons]
      | some digits => cases hrest

/-- The same digits with a sign. -/
def withSign (t : Decimal) (negative : Bool) : Decimal := { t with negative }

theorem withSign_text {t : Decimal} (h : t.negative = false) (negative : Bool) :
    (t.withSign negative).text = List.replicate negative.toNat '-' ++ t.text := by
  rw [text, text, h]
  simp [withSign]

theorem withSign_value {t : Decimal} (h : t.negative = false) (negative : Bool) :
    (t.withSign negative).value = (if negative then -1 else 1) * t.value := by
  rw [value, value, sign, sign, h, if_neg Bool.false_ne_true, one_mul]
  rfl

theorem Canonical.withSign {t : Decimal} (ht : t.Canonical) {negative : Bool}
    (h : negative = true → (t.withSign negative).value ≠ 0) : (t.withSign negative).Canonical :=
  ⟨ht.leading, ht.trailing, h⟩

end Decimal

/-! ### Digits of a number -/

theorem toDigits_digits (n : Nat) : Digits (Nat.toDigits 10 n) := fun _ hc =>
  Nat.isDigit_of_mem_toDigits (by decide) (by decide) hc

/-- A positive number is written without a zero in front. -/
theorem head?_toDigits {n : Nat} (h : n ≠ 0) : (Nat.toDigits 10 n).head? ≠ some '0' := by
  induction n using Nat.strong_induction_on with
  | _ n ih =>
    by_cases hn : n < 10
    · rw [Nat.toDigits_of_lt_base hn]
      intro hzero
      have hcode := congrArg Char.toNat (Option.some.inj hzero)
      rw [Nat.toNat_digitChar_of_lt_ten hn] at hcode
      exact h (Nat.add_left_cancel hcode)
    · rw [Nat.toDigits_of_base_le (by decide) (Nat.not_lt.mp hn),
        List.head?_append_of_ne_nil _ Nat.toDigits_ne_nil]
      exact ih (n / 10) (by omega) (by omega)

/-- The digits of a positive number, with its trailing zeros apart. -/
theorem toDigits_split {n : Nat} (h : n ≠ 0) : ∃ (front : List Char) (zeros : Nat),
    Nat.toDigits 10 n = front ++ List.replicate zeros '0' ∧ front ≠ [] ∧
      front.getLast? ≠ some '0' := by
  have hsplit : ∀ l : List Char, ∃ (front : List Char) (zeros : Nat),
      l = front ++ List.replicate zeros '0' ∧ front.getLast? ≠ some '0' := by
    intro l
    induction l using List.reverseRecOn with
    | nil => exact ⟨[], 0, rfl, nofun⟩
    | append_singleton l c ih =>
      by_cases hc : c = '0'
      · obtain ⟨front, zeros, rfl, hlast⟩ := ih
        exact ⟨front, zeros + 1, by rw [hc, List.replicate_succ', List.append_assoc], hlast⟩
      · exact ⟨l ++ [c], 0, by simp, by simpa using hc⟩
  obtain ⟨front, zeros, hdigits, hlast⟩ := hsplit (Nat.toDigits 10 n)
  refine ⟨front, zeros, hdigits, ?_, hlast⟩
  rintro rfl
  have hvalue := congrArg (Nat.ofDigitChars 10 · 0) hdigits
  simp only [Nat.ofDigitChars_ten_toDigits, List.nil_append, Nat.ofDigitChars_replicate_zero,
    Nat.mul_zero] at hvalue
  exact h hvalue

namespace Decimal

/-- A whole number. -/
def ofNat (n : Nat) : Decimal where
  negative := false
  whole := Nat.toDigits 10 n
  fraction := none
  whole_digits := toDigits_digits n
  fraction_digits _ hc := nomatch hc
  some_digit := by simp [Nat.toDigits_ne_nil]

theorem ofNat_text (n : Nat) : (ofNat n).text = Nat.toDigits 10 n := List.append_nil _

theorem ofNat_value (n : Nat) : (ofNat n).value = n := by
  simp [value, sign, ofNat]

theorem ofNat_canonical (n : Nat) : (ofNat n).Canonical where
  leading := by
    by_cases hn : n = 0
    · exact Or.inl (by rw [hn]; rfl)
    · exact Or.inr ⟨Nat.toDigits_ne_nil, head?_toDigits hn⟩
  trailing _ h := nomatch h
  signed h := nomatch h

section

variable {front : List Char}

/-- A number with `zeros` zeros after `front`, with the point `places` digits from its end: zeros at
the end of a fraction are left out, and a zero is put in front of an empty whole part. -/
def shifted (front : List Char) (zeros places : Nat) : List Char :=
  if places ≤ zeros then front ++ List.replicate (zeros - places) '0'
  else if places < front.length + zeros then
    front.take (front.length + zeros - places) ++
      '.' :: front.drop (front.length + zeros - places)
  else '0' :: '.' :: List.replicate (places - (front.length + zeros)) '0' ++ front

theorem shifted_whole (hfront : Digits front) (hne : front ≠ []) (hhead : front.head? ≠ some '0')
    (zeros places : Nat) (h : places ≤ zeros) :
    ∃ t : Decimal, t.text = front ++ List.replicate (zeros - places) '0' ∧ t.negative = false ∧
      t.Canonical ∧ t.value = 10 ^ zeros * Nat.ofDigitChars 10 front 0 / 10 ^ places := by
  obtain ⟨k, rfl⟩ := Nat.exists_eq_add_of_le h
  rw [Nat.add_sub_cancel_left]
  refine ⟨⟨false, front ++ List.replicate k '0', none, hfront.append (Digits.zeros k), nofun,
    by simp [hne]⟩, by simp [text, pointed], rfl,
    ⟨Or.inr ⟨by simp [hne], ?_⟩, nofun, fun h => (Bool.false_ne_true h).elim⟩, ?_⟩
  · rwa [List.head?_append_of_ne_nil _ hne]
  · rw [value_eq_digits]
    simp only [sign, Bool.false_eq_true, if_false, Option.getD_none, List.append_nil,
      Nat.ofDigitChars_append, Nat.ofDigitChars_replicate_zero, List.length_nil, Decimal.places]
    push_cast
    rw [pow_add]
    field_simp

theorem shifted_inside (hfront : Digits front) (hhead : front.head? ≠ some '0')
    (hlast : front.getLast? ≠ some '0') {left zeros places : Nat} (hleft : left ≠ 0)
    (hin : left < front.length) (hplaces : left + places = front.length + zeros) :
    ∃ t : Decimal, t.text = front.take left ++ '.' :: front.drop left ∧ t.negative = false ∧
      t.Canonical ∧ t.value = 10 ^ zeros * Nat.ofDigitChars 10 front 0 / 10 ^ places := by
  have hne : front.drop left ≠ [] := by
    rw [ne_eq, List.drop_eq_nil_iff]
    omega
  refine ⟨⟨false, front.take left, some (front.drop left), fun c hc => hfront c
    (List.mem_of_mem_take hc), fun c hc => hfront c (List.mem_of_mem_drop hc), ?_⟩,
    rfl, rfl, ⟨Or.inr ⟨?_, ?_⟩, ?_, fun h => (Bool.false_ne_true h).elim⟩, ?_⟩
  · rw [Option.getD_some, List.take_append_drop]
    rintro rfl
    exact hne List.drop_nil
  · rw [ne_eq, List.take_eq_nil_iff]
    rintro (h | rfl)
    · exact hleft h
    · exact hne List.drop_nil
  · rwa [List.head?_take, if_neg hleft]
  · rintro digits hdigits
    obtain rfl := Option.some.inj hdigits
    rw [List.getLast?_drop, if_neg (by omega)]
    exact ⟨hne, hlast⟩
  · obtain rfl : places = front.length - left + zeros := by omega
    rw [value_eq_digits]
    simp only [sign, Bool.false_eq_true, if_false, Option.getD_some, List.take_append_drop,
      Decimal.places, List.length_drop]
    rw [pow_add]
    field_simp

theorem shifted_fraction (hfront : Digits front) (hne : front ≠ [])
    (hlast : front.getLast? ≠ some '0') {zeros places : Nat}
    (h : front.length + zeros ≤ places) :
    ∃ t : Decimal, t.text =
        '0' :: '.' :: List.replicate (places - (front.length + zeros)) '0' ++ front ∧
      t.negative = false ∧ t.Canonical ∧
      t.value = 10 ^ zeros * Nat.ofDigitChars 10 front 0 / 10 ^ places := by
  obtain ⟨k, rfl⟩ := Nat.exists_eq_add_of_le h
  rw [Nat.add_sub_cancel_left]
  refine ⟨⟨false, ['0'], some (List.replicate k '0' ++ front), Digits.zeros 1,
    (Digits.zeros k).append hfront, by simp⟩, rfl, rfl,
    ⟨Or.inl rfl, ?_, fun h => (Bool.false_ne_true h).elim⟩, ?_⟩
  · rintro digits hdigits
    obtain rfl := Option.some.inj hdigits
    rw [List.getLast?_append_of_ne_nil _ hne]
    exact ⟨by simp [hne], hlast⟩
  · have hdigits : Nat.ofDigitChars 10 (['0'] ++ (List.replicate k '0' ++ front)) 0 =
        Nat.ofDigitChars 10 front 0 := by
      rw [← List.append_assoc, ← List.replicate_one, List.replicate_append_replicate,
        Nat.ofDigitChars_append, Nat.ofDigitChars_replicate_zero, Nat.mul_zero]
    rw [value_eq_digits]
    simp only [sign, Bool.false_eq_true, if_false, Option.getD_some, hdigits, Decimal.places,
      List.length_append, List.length_replicate]
    rw [pow_add, pow_add, pow_add]
    field_simp

/-- The shifted text is canonical and denotes the number divided by the power of ten. -/
theorem exists_shifted (hfront : Digits front) (hne : front ≠ [])
    (hhead : front.head? ≠ some '0') (hlast : front.getLast? ≠ some '0') (zeros places : Nat) :
    ∃ t : Decimal, t.text = shifted front zeros places ∧ t.negative = false ∧ t.Canonical ∧
      t.value = 10 ^ zeros * Nat.ofDigitChars 10 front 0 / 10 ^ places := by
  rw [shifted]
  split
  · rename_i h
    exact shifted_whole hfront hne hhead zeros places h
  · split
    · exact shifted_inside hfront hhead hlast (by omega) (by omega) (by omega)
    · exact shifted_fraction hfront hne hlast (by omega)

end

end Decimal

end Nestchain.Lib
