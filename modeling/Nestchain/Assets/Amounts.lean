import Nestchain.Assets.Registry

/-! Amounts as texts: `amount_to_string` writes an amount in units of the asset with a point before
the fraction, and `amount_from_string` reads it.  Share amounts are checked numbers of 64 bits. -/

namespace Nestchain.Assets

open Lib Market

/-- A number that has to fit in an `int64_t`. -/
def checked (x : Int) : Attempt Int := do
  require (-2 ^ 63 ≤ x ∧ x < 2 ^ 63)
  pure x

/-- `asset::scaled_precision` -/
def scaledPrecision (precision : Nat) : Attempt Int := do
  require (precision < 19)
  pure (10 ^ precision)

/-- `fc::to_string` -/
def integerToString (x : Int) : List Char :=
  if x < 0 then '-' :: Nat.toDigits 10 x.natAbs else Nat.toDigits 10 x.natAbs

/-- `std::stoll` of a text of digits, signs and points. -/
def stoll (s : List Char) : Attempt Int := do
  let negative := s.head? = some '-'
  let digits := (if negative then s.drop 1 else s).takeWhile Char.isDigit
  require (digits ≠ [])
  checked (if negative then -Nat.ofDigitChars 10 digits 0 else Nat.ofDigitChars 10 digits 0)

/-- The loop over the characters, with `negative_found` and `decimal_found`. -/
def scan : List Char → Bool → Bool → Attempt (Bool × Bool)
  | [], negativeFound, decimalFound => pure (negativeFound, decimalFound)
  | c :: s, negativeFound, decimalFound =>
    if c.isDigit then scan s negativeFound decimalFound
    else if c = '-' ∧ negativeFound = false then scan s true decimalFound
    else if c = '.' ∧ decimalFound = false then scan s negativeFound true
    else .error .thrown

namespace AssetObject

/-- `amount_from_string` of the asset `id`.  The part before the point is cut out with its position
as the length, so after a sign it ends with the point; where there is no point the position is past
the end. -/
def amountFromString (a : AssetObject) (id : AssetId) (amountString : List Char) :
    Attempt Asset := do
  let (negativeFound, decimalFound) ← scan amountString false false
  let scaled ← scaledPrecision a.precision
  let decimalPos := amountString.idxOf '.'
  let lhs := (amountString.drop negativeFound.toNat).take decimalPos
  let whole ← (if lhs = [] then pure 0 else do
    let n ← stoll lhs
    checked (n * scaled))
  let satoshis ← (if decimalFound then do
      let maxRhsSize := ((integerToString scaled).drop 1).length
      let rhs := amountString.drop (decimalPos + 1)
      require (rhs.length ≤ maxRhsSize)
      let rhs := rhs ++ List.replicate (maxRhsSize - rhs.length) '0'
      if rhs = [] then pure whole else do
        let n ← stoll rhs
        checked (whole + n)
    else pure whole)
  require (satoshis ≤ maxShareSupply)
  let satoshis ← (if negativeFound then checked (satoshis * -1) else pure satoshis)
  pure ⟨satoshis, id⟩

def amountToString (a : AssetObject) (amount : Int) : Attempt (List Char) := do
  let scaled ← scaledPrecision a.precision
  let result := integerToString (amount.tdiv scaled)
  let decimals := |amount.tmod scaled|
  if decimals ≠ 0 then
    let result := if amount < 0 ∧ result = ['0'] then ['-', '0'] else result
    pure (result ++ '.' :: (integerToString (scaled + decimals)).drop 1)
  else pure result

end AssetObject

/-! ### Digits -/

theorem isDigit_toDigits {n : Nat} {c : Char} (h : c ∈ Nat.toDigits 10 n) : c.isDigit = true :=
  Nat.isDigit_of_mem_toDigits (by decide) (by decide) h

theorem ofDigitChars_lt {l : List Char} (h : ∀ c ∈ l, c.isDigit = true) :
    Nat.ofDigitChars 10 l 0 < 10 ^ l.length := by
  induction l with
  | nil => simp
  | cons c l ih =>
    have hc : c.toNat - '0'.toNat ≤ 9 := by
      have := h c List.mem_cons_self
      simp only [Char.isDigit, Bool.and_eq_true, decide_eq_true_eq, UInt32.le_iff_toNat_le] at this
      have hle : c.toNat ≤ 57 := this.2
      have hzero : '0'.toNat = 48 := rfl
      omega
    have htail := ih fun d hd => h d (List.mem_cons_of_mem _ hd)
    rw [Nat.ofDigitChars_cons, Nat.ofDigitChars_eq_ofDigitChars_zero, List.length_cons, pow_succ]
    nlinarith

theorem toDigits_pow_add {p r : Nat} (hr : r < 10 ^ p) :
    ((Nat.toDigits 10 (10 ^ p + r)).drop 1).length = p ∧
      Nat.ofDigitChars 10 ((Nat.toDigits 10 (10 ^ p + r)).drop 1) 0 = r := by
  have hlength : (Nat.toDigits 10 (10 ^ p + r)).length = p + 1 := by
    refine le_antisymm ((Nat.length_toDigits_le_iff (by decide) (Nat.succ_pos p)).mpr ?_) ?_
    · rw [pow_succ]
      omega
    · rcases Nat.eq_zero_or_pos p with rfl | hp
      · exact Nat.length_toDigits_pos
      · by_contra hlt
        have := (Nat.length_toDigits_le_iff (b := 10) (by decide) hp).mp (by omega :
          (Nat.toDigits 10 (10 ^ p + r)).length ≤ p)
        omega
  have hvalue : Nat.ofDigitChars 10 (Nat.toDigits 10 (10 ^ p + r)) 0 = 10 ^ p + r :=
    Nat.ofDigitChars_ten_toDigits
  have hdigits : ∀ c ∈ Nat.toDigits 10 (10 ^ p + r), c.isDigit = true := fun c => isDigit_toDigits
  cases htext : Nat.toDigits 10 (10 ^ p + r) with
  | nil => rw [htext] at hlength; cases hlength
  | cons d l =>
    rw [htext] at hlength hvalue hdigits
    have hl : l.length = p := Nat.succ.inj hlength
    refine ⟨hl, ?_⟩
    have hlt := ofDigitChars_lt fun c hc => hdigits c (List.mem_cons_of_mem d hc)
    rw [hl] at hlt
    rw [Nat.ofDigitChars_cons, Nat.ofDigitChars_eq_ofDigitChars_zero, hl] at hvalue
    have hmod := congrArg (· % 10 ^ p) hvalue
    simp only [Nat.mul_add_mod, Nat.add_mod_left, Nat.mod_eq_of_lt hlt, Nat.mod_eq_of_lt hr] at hmod
    exact hmod

/-! ### The text of an amount -/

theorem scan_digits {ds : List Char} (h : ∀ c ∈ ds, c.isDigit = true) (s : List Char)
    (m d : Bool) : scan (ds ++ s) m d = scan s m d := by
  induction ds with
  | nil => rfl
  | cons c ds ih =>
    rw [List.cons_append, scan, if_pos (h c List.mem_cons_self)]
    exact ih fun e he => h e (List.mem_cons_of_mem c he)

theorem digits_in_front {ds s : List Char} (h : ∀ c ∈ ds, c.isDigit = true) (hne : ds ≠ [])
    (hs : ∀ c ∈ s.head?, c.isDigit = false) :
    (ds ++ s).head? ≠ some '-' ∧ (ds ++ s).takeWhile Char.isDigit = ds := by
  constructor
  · obtain ⟨c, ds, rfl⟩ := List.exists_cons_of_ne_nil hne
    intro hc
    obtain rfl := Option.some.inj hc
    exact absurd (h _ List.mem_cons_self) (by decide)
  · rw [List.takeWhile_append_of_pos h]
    cases s with
    | nil => rw [List.takeWhile_nil, List.append_nil]
    | cons c s => rw [List.takeWhile_cons_of_neg (by simp [hs c rfl]), List.append_nil]

theorem stoll_digits {ds s : List Char} (h : ∀ c ∈ ds, c.isDigit = true) (hne : ds ≠ [])
    (hs : ∀ c ∈ s.head?, c.isDigit = false) (hlt : Nat.ofDigitChars 10 ds 0 < 2 ^ 63) :
    stoll (ds ++ s) = .ok (Nat.ofDigitChars 10 ds 0) := by
  obtain ⟨hhead, htake⟩ := digits_in_front h hne hs
  simp only [stoll, hhead, if_false, htake, checked, bind_eq_ok, require_eq_ok, pure_eq_ok,
    exists_const]
  exact ⟨hne, ⟨by omega, by exact_mod_cast hlt⟩, trivial⟩

/-- The sign, the whole units and what follows the units. -/
def written (negative : Bool) (whole : Nat) (rest : List Char) : List Char :=
  List.replicate negative.toNat '-' ++ (Nat.toDigits 10 whole ++ rest)

/-- The point and the fraction, unless it is zero. -/
def fraction (p r : Nat) : List Char :=
  if r = 0 then [] else '.' :: (Nat.toDigits 10 (10 ^ p + r)).drop 1

theorem scaledPrecision_ok {p : Nat} (h : p < 19) : scaledPrecision p = .ok (10 ^ p) := by
  rw [scaledPrecision, require, if_pos h]
  rfl

theorem integerToString_natCast (n : Nat) : integerToString n = Nat.toDigits 10 n := by
  rw [integerToString, if_neg (by omega), Int.natAbs_natCast]

theorem integerToString_neg {n : Nat} (h : 0 < n) :
    integerToString (-n : Int) = '-' :: Nat.toDigits 10 n := by
  rw [integerToString, if_pos (by omega), Int.natAbs_neg, Int.natAbs_natCast]

theorem integerToString_tdiv (x : Int) (d : Nat) :
    integerToString (x.tdiv d) = if x < 0 ∧ x.natAbs / d ≠ 0 then
      '-' :: Nat.toDigits 10 (x.natAbs / d) else Nat.toDigits 10 (x.natAbs / d) := by
  obtain ⟨n, rfl | rfl⟩ := Int.eq_nat_or_neg x
  · rw [← Int.ofNat_tdiv, integerToString_natCast, if_neg (by omega), Int.natAbs_natCast]
  · rw [Int.neg_tdiv, ← Int.ofNat_tdiv, Int.natAbs_neg, Int.natAbs_natCast]
    rcases Nat.eq_zero_or_pos (n / d) with hzero | hpos
    · rw [hzero, if_neg (fun h => h.2 rfl)]
      rfl
    · have hn : n ≠ 0 := fun hn => by simp [hn] at hpos
      rw [integerToString_neg hpos, if_pos ⟨by omega, hpos.ne'⟩]

theorem amountToString_written {a : AssetObject} (h : a.precision < 19) (x : Int) :
    a.amountToString x = .ok (written (decide (x < 0)) (x.natAbs / 10 ^ a.precision)
      (fraction a.precision (x.natAbs % 10 ^ a.precision))) := by
  generalize hp : a.precision = p at *
  have hpow : ((10 : Int) ^ p) = ((10 ^ p : Nat) : Int) := by norm_cast
  have hdecimals : |x.tmod (10 ^ p)| = ((x.natAbs % 10 ^ p : Nat) : Int) := by
    rw [hpow, Int.abs_eq_natAbs, Int.natAbs_tmod, Int.natAbs_natCast]
  simp only [AssetObject.amountToString, hp, scaledPrecision_ok h, Bind.bind, Except.bind]
  have hresult := integerToString_tdiv x (10 ^ p)
  rw [hdecimals, hpow, ← Nat.cast_add, integerToString_natCast]
  have hsplit := Nat.div_add_mod x.natAbs (10 ^ p)
  generalize integerToString (x.tdiv (10 ^ p : Nat)) = result at *
  generalize x.natAbs / 10 ^ p = q at *
  generalize x.natAbs % 10 ^ p = r at *
  rw [fraction, written]
  by_cases hx : x < 0
  · rw [decide_eq_true hx]
    by_cases hq : q = 0
    · -- less than a unit: the sign is put back
      subst hq
      rw [if_neg (fun h => h.2 rfl)] at hresult
      have hr : r ≠ 0 := by
        rintro rfl
        rw [Nat.mul_zero] at hsplit
        omega
      rw [if_pos (by exact_mod_cast hr), if_neg hr, if_pos ⟨hx, hresult⟩]
      rfl
    · rw [if_pos ⟨hx, hq⟩] at hresult
      subst hresult
      by_cases hr : r = 0
      · subst hr
        rw [if_neg (by simp), if_pos rfl, List.append_nil]
        rfl
      · rw [if_pos (by exact_mod_cast hr), if_neg hr, if_neg]
        · rfl
        · rintro ⟨-, hminus⟩
          exact absurd (List.cons.inj hminus).1 (by decide)
  · rw [decide_eq_false hx]
    rw [if_neg (fun h => hx h.1)] at hresult
    subst hresult
    by_cases hr : r = 0
    · subst hr
      rw [if_neg (by simp), if_pos rfl, List.append_nil]
      rfl
    · rw [if_pos (by exact_mod_cast hr), if_neg hr, if_neg (fun h => hx h.1)]
      rfl

/-! ### Reading it back -/

section

variable {negative : Bool} {p q r : Nat}

theorem scan_written : scan (written negative q (fraction p r)) false false =
    .ok (negative, decide (r ≠ 0)) := by
  have hwhole : ∀ m, scan (Nat.toDigits 10 q ++ fraction p r) m false = .ok (m, decide (r ≠ 0)) := by
    intro m
    rw [scan_digits (fun c => isDigit_toDigits), fraction]
    split
    · rename_i hr
      rw [decide_eq_false (by simp [hr])]
      rfl
    · rename_i hr
      have hdigits : ∀ c ∈ (Nat.toDigits 10 (10 ^ p + r)).drop 1, c.isDigit = true :=
        fun c hc => isDigit_toDigits (List.mem_of_mem_drop hc)
      have hpoint := scan_digits hdigits [] m true
      rw [List.append_nil] at hpoint
      rw [decide_eq_true hr, scan, if_neg (by decide), if_neg (by simp), if_pos ⟨rfl, rfl⟩, hpoint]
      rfl
  cases negative with
  | false => exact hwhole false
  | true => exact hwhole true

theorem written_point (hr : r ≠ 0) :
    (written negative q (fraction p r)).idxOf '.' = negative.toNat + (Nat.toDigits 10 q).length := by
  have hsign : '.' ∉ List.replicate negative.toNat '-' := fun h =>
    absurd (List.eq_of_mem_replicate h) (by decide)
  have hdigits : '.' ∉ Nat.toDigits 10 q := fun h => absurd (isDigit_toDigits h) (by decide)
  rw [written, List.idxOf_append_of_notMem hsign, List.idxOf_append_of_notMem hdigits, fraction,
    if_neg hr, List.idxOf_cons_self, List.length_replicate, Nat.add_zero]

theorem written_drop_sign (rest : List Char) :
    (written negative q rest).drop negative.toNat = Nat.toDigits 10 q ++ rest := by
  rw [written, List.drop_append_of_le_length (by rw [List.length_replicate]), List.drop_replicate,
    Nat.sub_self, List.replicate_zero, List.nil_append]

theorem written_whole (negative : Bool) (p q r : Nat) :
    ∃ rest : List Char, (∀ c ∈ rest.head?, c.isDigit = false) ∧
    ((written negative q (fraction p r)).drop negative.toNat).take
      ((written negative q (fraction p r)).idxOf '.') = Nat.toDigits 10 q ++ rest := by
  rw [written_drop_sign]
  by_cases hr : r = 0
  · refine ⟨[], fun c hc => (nomatch hc), ?_⟩
    have hall : (Nat.toDigits 10 q).length ≤ (written negative q []).idxOf '.' := by
      rw [List.idxOf_eq_length]
      · simp [written]
      · intro h
        rcases List.mem_append.mp h with h | h
        · exact absurd (List.eq_of_mem_replicate h) (by decide)
        · rw [List.append_nil] at h
          exact absurd (isDigit_toDigits h) (by decide)
    rw [fraction, if_pos hr, List.append_nil, List.take_of_length_le hall]
  · refine ⟨(fraction p r).take negative.toNat, fun c hc => ?_, ?_⟩
    · rw [fraction, if_neg hr] at hc
      cases negative with
      | false => cases hc
      | true =>
        obtain rfl := Option.some.inj hc
        decide
    · rw [written_point hr, Nat.add_comm, List.take_length_add_append]

theorem written_fraction (hr : r ≠ 0) :
    (written negative q (fraction p r)).drop ((written negative q (fraction p r)).idxOf '.' + 1) =
      (Nat.toDigits 10 (10 ^ p + r)).drop 1 := by
  rw [written_point hr, written, fraction, if_neg hr, ← List.append_assoc]
  have hlength : (List.replicate negative.toNat '-' ++ Nat.toDigits 10 q).length =
      negative.toNat + (Nat.toDigits 10 q).length := by
    rw [List.length_append, List.length_replicate]
  rw [← hlength, List.drop_length_add_append]
  rfl

end

theorem amountFromString_written {a : AssetObject} (h : a.precision < 19) (id : AssetId)
    (negative : Bool) {n : Nat} (hn : (n : Int) ≤ maxShareSupply) :
    a.amountFromString id (written negative (n / 10 ^ a.precision)
      (fraction a.precision (n % 10 ^ a.precision))) = .ok ⟨if negative then -n else n, id⟩ := by
  have hsmall : n < 2 ^ 63 := by
    have hmax : maxShareSupply < 2 ^ 63 := by decide
    omega
  have hsplit := Nat.div_add_mod n (10 ^ a.precision)
  have hlt := Nat.mod_lt n (Nat.pow_pos (n := a.precision) (show 0 < 10 by decide))
  simp only [AssetObject.amountFromString, scan_written, scaledPrecision_ok h, bind_eq_ok]
  generalize a.precision = p at *
  generalize hq : n / 10 ^ p = q at *
  generalize hr : n % 10 ^ p = r at *
  have hle : q * 10 ^ p ≤ n := by
    rw [Nat.mul_comm]
    omega
  obtain ⟨rest, hrest, hlhs⟩ := written_whole negative p q r
  have hwhole : (do
      let m ← stoll (Nat.toDigits 10 q ++ rest)
      checked (m * 10 ^ p)) = .ok ((q * 10 ^ p : Nat) : Int) := by
    have hqn : q ≤ n := hq ▸ Nat.div_le_self n _
    rw [stoll_digits (fun c => isDigit_toDigits) Nat.toDigits_ne_nil hrest
      (by rw [Nat.ofDigitChars_ten_toDigits]; omega), Nat.ofDigitChars_ten_toDigits]
    simp only [checked, bind_eq_ok, require_eq_ok, pure_eq_ok, exists_const, Except.ok.injEq,
      exists_eq_left']
    push_cast
    refine ⟨⟨?_, ?_⟩, rfl⟩
    · have hnonneg : 0 ≤ (q : Int) * 10 ^ p := by positivity
      omega
    · exact_mod_cast lt_of_le_of_lt hle hsmall
  have hne : Nat.toDigits 10 q ++ rest ≠ [] := fun h =>
    Nat.toDigits_ne_nil (List.append_eq_nil_iff.mp h).1
  refine ⟨_, rfl, _, rfl, (q * 10 ^ p : Nat), ?_, n, ?_, ?_⟩
  · rw [hlhs, if_neg hne]
    exact hwhole
  · by_cases hzero : r = 0
    · rw [if_neg (by simp [hzero]), pure_eq_ok, ← hsplit, hzero, Nat.mul_comm, Nat.add_zero]
    · obtain ⟨hlength, hvalue⟩ := toDigits_pow_add hlt
      have hdigits : ∀ c ∈ (Nat.toDigits 10 (10 ^ p + r)).drop 1, c.isDigit = true :=
        fun c hc => isDigit_toDigits (List.mem_of_mem_drop hc)
      have hmaxRhs : ((integerToString (10 ^ p)).drop 1).length = p := by
        have hpow : ((10 : Int) ^ p) = ((10 ^ p + 0 : Nat) : Int) := by push_cast; ring
        rw [hpow, integerToString_natCast]
        exact (toDigits_pow_add (Nat.pow_pos (by decide))).1
      have hrhs : (Nat.toDigits 10 (10 ^ p + r)).drop 1 ≠ [] := by
        intro hnil
        rw [hnil] at hvalue
        exact hzero hvalue.symm
      have hfraction : stoll ((Nat.toDigits 10 (10 ^ p + r)).drop 1) = .ok (r : Int) := by
        have hread := stoll_digits (s := []) hdigits hrhs (fun c hc => (by cases hc))
          (by rw [hvalue]; omega)
        rwa [List.append_nil, hvalue] at hread
      simp only [hzero, ne_eq, not_false_eq_true, decide_true, if_true, written_fraction hzero,
        hmaxRhs, hlength, Nat.sub_self, List.replicate_zero, List.append_nil, hrhs, if_false,
        hfraction, checked, bind_eq_ok, require_eq_ok, pure_eq_ok, exists_const, le_refl,
        Except.ok.injEq, exists_eq_left']
      have hsum : (n : Int) = (q * 10 ^ p : Nat) + r := by
        rw [← hsplit, Nat.mul_comm]
        push_cast
        rfl
      exact ⟨trivial, ⟨by omega, by omega⟩, hsum⟩
  · simp only [require_eq_ok, exists_const, pure_eq_ok]
    refine ⟨hn, if negative then -n else n, ?_, rfl⟩
    cases negative with
    | false => rfl
    | true =>
      simp only [if_true, checked, bind_eq_ok, require_eq_ok, exists_const, pure_eq_ok]
      exact ⟨by omega, by ring⟩

/-- What `amount_to_string` writes `amount_from_string` reads, for the amounts of both signs. -/
theorem amount_text_round_trip (a : AssetObject) (h : a.precision ≤ 12) (id : AssetId) (x : Int)
    (hx : |x| ≤ maxShareSupply) :
    ∃ s, a.amountToString x = .ok s ∧ a.amountFromString id s = .ok ⟨x, id⟩ := by
  have hprecision : a.precision < 19 := by omega
  have habs : (x.natAbs : Int) ≤ maxShareSupply := by rwa [Int.natCast_natAbs]
  refine ⟨_, amountToString_written hprecision x, ?_⟩
  rw [amountFromString_written hprecision id _ habs]
  by_cases hneg : x < 0
  · rw [if_pos (decide_eq_true hneg), Int.ofNat_natAbs_of_nonpos (le_of_lt hneg), neg_neg]
  · rw [if_neg (by simp [hneg]), Int.natAbs_of_nonneg (not_lt.mp hneg)]

def fiveDigits : AssetObject where
  symbol := "CENT".toList
  precision := 5
  issuer := 0
  options := ⟨maxShareSupply, 0, 0, 0, 0, Price.null, [], [], [], []⟩
  currentSupply := 0
  bitasset := none

example : fiveDigits.amountToString (-1234) = .ok "-0.01234".toList := by decide +kernel

theorem amount_text_round_trip_five_digits : ∃ s, fiveDigits.amountToString (-1234) = .ok s ∧
    fiveDigits.amountFromString 0 s = .ok ⟨-1234, 0⟩ :=
  amount_text_round_trip fiveDigits (by decide) 0 (-1234) (by decide)

end Nestchain.Assets
