import Nestchain.Assets.Amounts
import Nestchain.Lib.Decimal
import Mathlib.Data.List.TakeWhile

/-! Which texts `amount_from_string` takes, and what it makes of them.  A decimal number is read
exactly.  The loop over the characters counts signs and points but not where they stand, and with a
sign the part before the point is cut out without the first character, whatever it is. -/

namespace Nestchain.Assets

open Lib Market

/-! ### What is read -/

/-- The number `std::stoll` finds at the front of a text. -/
def leadingNumber (s : List Char) : Option Int :=
  let negative := s.head? = some '-'
  let digits := (if negative then s.drop 1 else s).takeWhile Char.isDigit
  if digits = [] then none
  else some (if negative then -Nat.ofDigitChars 10 digits 0 else Nat.ofDigitChars 10 digits 0)

def partNumber (s : List Char) : Option Int := if s = [] then some 0 else leadingNumber s

/-- `rhs`, filled up with zeros. -/
def fractionPart (p : Nat) (s : List Char) : List Char :=
  if '.' ∈ s then
    s.drop (s.idxOf '.' + 1) ++ List.replicate (p - (s.drop (s.idxOf '.' + 1)).length) '0'
  else []

/-- `lhs` of a text with a sign somewhere. -/
def wholePart (s : List Char) : List Char := (s.drop 1).take (s.idxOf '.')

/-- A sign behind the first character, in a text that is read all the same: the whole part and the
fraction start with numbers, and these fit. -/
structure StraySign (p : Nat) (s : List Char) : Prop where
  stray : '-' ∈ s.tail
  characters : ∀ c ∈ s, c.isDigit = true ∨ c = '-' ∨ c = '.'
  one_sign : s.count '-' = 1
  one_point : s.count '.' ≤ 1
  places : (s.drop (s.idxOf '.' + 1)).length ≤ p
  fits : ∃ w f : Int, partNumber (wholePart s) = some w ∧ partNumber (fractionPart p s) = some f ∧
    -2 ^ 63 ≤ w * 10 ^ p ∧ w * 10 ^ p < 2 ^ 63 ∧
    -2 ^ 63 < w * 10 ^ p + f ∧ w * 10 ^ p + f ≤ maxShareSupply

theorem checked_eq_ok {x y : Int} : checked x = .ok y ↔ (-2 ^ 63 ≤ x ∧ x < 2 ^ 63) ∧ y = x := by
  simp only [checked, bind_eq_ok, require_eq_ok, pure_eq_ok, exists_const]

theorem stoll_eq_ok {s : List Char} {n : Int} :
    stoll s = .ok n ↔ leadingNumber s = some n ∧ -2 ^ 63 ≤ n ∧ n < 2 ^ 63 := by
  simp only [stoll, leadingNumber, bind_eq_ok, require_eq_ok, checked_eq_ok, exists_const, ne_eq]
  generalize (if s.head? = some '-' then s.drop 1 else s).takeWhile Char.isDigit = digits
  generalize (if s.head? = some '-' then -(Nat.ofDigitChars 10 digits 0 : Int)
    else Nat.ofDigitChars 10 digits 0) = x
  by_cases hnil : digits = []
  · simp [hnil]
  · rw [if_neg hnil, Option.some.injEq]
    constructor
    · rintro ⟨-, hrange, rfl⟩
      exact ⟨rfl, hrange⟩
    · rintro ⟨rfl, hrange⟩
      exact ⟨hnil, hrange, rfl⟩

theorem scan_eq_ok {s : List Char} {m d m' d' : Bool} :
    scan s m d = .ok (m', d') ↔ (∀ c ∈ s, c.isDigit = true ∨ c = '-' ∨ c = '.') ∧
      s.count '-' + m.toNat = m'.toNat ∧ s.count '.' + d.toNat = d'.toNat := by
  induction s generalizing m d with
  | nil => cases m <;> cases d <;> cases m' <;> cases d' <;> simp [scan]
  | cons c s ih =>
    rw [scan, List.forall_mem_cons]
    split
    · rename_i hc
      have hminus : c ≠ '-' := fun h => absurd hc (by rw [h]; decide)
      have hpoint : c ≠ '.' := fun h => absurd hc (by rw [h]; decide)
      rw [ih, List.count_cons_of_ne hminus, List.count_cons_of_ne hpoint]
      simp only [hc, true_or, true_and]
    · rename_i hc
      split
      · rename_i hminus
        obtain ⟨rfl, rfl⟩ := hminus
        rw [ih, List.count_cons_self, List.count_cons_of_ne (by decide)]
        simp
      · rename_i hminus
        split
        · rename_i hpoint
          obtain ⟨rfl, rfl⟩ := hpoint
          rw [ih, List.count_cons_self, List.count_cons_of_ne (by decide)]
          simp
        · rename_i hpoint
          have hsigns := Bool.toNat_le m'
          have hpoints := Bool.toNat_le d'
          simp only [reduceCtorEq, false_iff]
          rintro ⟨⟨h | rfl | rfl, -⟩, hsign, hpoint'⟩
          · exact hc h
          · have hm : m = true := by simpa using fun h => hminus ⟨rfl, h⟩
            rw [List.count_cons_self, hm, Bool.toNat_true] at hsign
            omega
          · have hd : d = true := by simpa using fun h => hpoint ⟨rfl, h⟩
            rw [List.count_cons_self, hd, Bool.toNat_true] at hpoint'
            omega

theorem leadingNumber_lt {s : List Char} {n : Int} (h : leadingNumber s = some n) :
    |n| < 10 ^ s.length := by
  simp only [leadingNumber] at h
  generalize hu : (if s.head? = some '-' then s.drop 1 else s) = u at h
  have hlt := ofDigitChars_lt fun c (hc : c ∈ u.takeWhile Char.isDigit) =>
    List.mem_takeWhile_imp hc
  have hlength : (u.takeWhile Char.isDigit).length ≤ s.length := by
    refine le_trans (List.takeWhile_sublist _).length_le ?_
    subst hu
    split
    · exact (List.drop_sublist 1 s).length_le
    · exact le_refl _
  have hpow := Nat.pow_le_pow_right (show 0 < 10 by decide) hlength
  have hdigits : ((Nat.ofDigitChars 10 (u.takeWhile Char.isDigit) 0 : Nat) : Int) <
      10 ^ s.length := by exact_mod_cast lt_of_lt_of_le hlt hpow
  by_cases hnil : u.takeWhile Char.isDigit = []
  · rw [if_pos hnil] at h
    cases h
  · rw [if_neg hnil] at h
    obtain rfl := Option.some.inj h
    split
    · rwa [abs_neg, Nat.abs_cast]
    · rwa [Nat.abs_cast]

section

variable {a : AssetObject} {id : AssetId} {s : List Char} {p : Nat}

theorem whole_eq_ok {lhs : List Char} {x : Int} :
    (if lhs = [] then pure 0 else do
      let n ← stoll lhs
      checked (n * 10 ^ p) : Attempt Int) = .ok x ↔
    ∃ w, partNumber lhs = some w ∧ x = w * 10 ^ p ∧ -2 ^ 63 ≤ x ∧ x < 2 ^ 63 := by
  by_cases hnil : lhs = []
  · rw [if_pos hnil, partNumber, if_pos hnil, pure_eq_ok]
    constructor
    · rintro rfl
      exact ⟨0, rfl, by ring, by decide, by decide⟩
    · rintro ⟨w, hw, rfl, -⟩
      obtain rfl := Option.some.inj hw
      ring
  · simp only [if_neg hnil, partNumber, bind_eq_ok, stoll_eq_ok, checked_eq_ok]
    constructor
    · rintro ⟨w, ⟨hw, -⟩, hrange, rfl⟩
      exact ⟨w, hw, rfl, hrange⟩
    · rintro ⟨w, hw, rfl, hrange⟩
      -- a number that fits as a multiple of the unit fits by itself
      have hpow : (1 : Int) ≤ 10 ^ p := one_le_pow₀ (by decide)
      exact ⟨w, ⟨hw, by nlinarith, by nlinarith⟩, hrange, rfl⟩

theorem fraction_eq_ok {rhs : List Char} {x y : Int} (hlength : rhs.length < 19)
    (hx : -2 ^ 63 ≤ x ∧ x < 2 ^ 63) :
    (if rhs = [] then pure x else do
      let n ← stoll rhs
      checked (x + n) : Attempt Int) = .ok y ↔
    ∃ f, partNumber rhs = some f ∧ y = x + f ∧ -2 ^ 63 ≤ y ∧ y < 2 ^ 63 := by
  by_cases hnil : rhs = []
  · rw [if_pos hnil, partNumber, if_pos hnil, pure_eq_ok]
    constructor
    · rintro rfl
      exact ⟨0, rfl, by ring, hx⟩
    · rintro ⟨f, hf, rfl, -⟩
      obtain rfl := Option.some.inj hf
      ring
  · simp only [if_neg hnil, partNumber, bind_eq_ok, stoll_eq_ok, checked_eq_ok]
    constructor
    · rintro ⟨f, ⟨hf, -⟩, hrange, rfl⟩
      exact ⟨f, hf, rfl, hrange⟩
    · rintro ⟨f, hf, rfl, hrange⟩
      have hlt := abs_lt.mp (leadingNumber_lt hf)
      have hpow : (10 : Int) ^ rhs.length ≤ 10 ^ 18 :=
        pow_le_pow_right₀ (by decide) (by omega)
      exact ⟨f, ⟨hf, by omega, by omega⟩, hrange, rfl⟩

theorem point_found {m d : Bool} (h : scan s false false = .ok (m, d)) :
    d = true ↔ '.' ∈ s := by
  have hpoints := (scan_eq_ok.mp h).2.2
  rw [← List.count_pos_iff]
  cases d with
  | false => simpa using List.count_eq_zero.mp hpoints
  | true => simp_all

theorem decimal_eq_ok {m d : Bool} {x y : Int} (hp : p < 19)
    (hscan : scan s false false = .ok (m, d)) (hx : -2 ^ 63 ≤ x ∧ x < 2 ^ 63) :
    (if d = true then do
        require ((s.drop (s.idxOf '.' + 1)).length ≤ p)
        if s.drop (s.idxOf '.' + 1) ++
            List.replicate (p - (s.drop (s.idxOf '.' + 1)).length) '0' = [] then pure x
        else do
          let n ← stoll (s.drop (s.idxOf '.' + 1) ++
            List.replicate (p - (s.drop (s.idxOf '.' + 1)).length) '0')
          checked (x + n)
      else pure x : Attempt Int) = .ok y ↔
    (s.drop (s.idxOf '.' + 1)).length ≤ p ∧ ∃ f, partNumber (fractionPart p s) = some f ∧
      y = x + f ∧ -2 ^ 63 ≤ y ∧ y < 2 ^ 63 := by
  by_cases hd : d = true
  · have hpoint := (point_found hscan).mp hd
    simp only [if_pos hd, bind_eq_ok, require_eq_ok, exists_const, fractionPart, if_pos hpoint]
    refine and_congr_right fun hplaces => fraction_eq_ok ?_ hx
    rw [List.length_append, List.length_replicate]
    omega
  · have hpoint : '.' ∉ s := fun h => hd ((point_found hscan).mpr h)
    rw [if_neg hd, fractionPart, if_neg hpoint, List.idxOf_eq_length hpoint,
      List.drop_eq_nil_of_le (Nat.le_succ _), partNumber, if_pos rfl, pure_eq_ok]
    constructor
    · rintro rfl
      exact ⟨Nat.zero_le p, 0, rfl, by ring, hx⟩
    · rintro ⟨-, f, hf, rfl, -⟩
      obtain rfl := Option.some.inj hf
      ring

theorem sign_eq_ok {m : Bool} {x y : Int} (hx : -2 ^ 63 ≤ x ∧ x ≤ maxShareSupply) :
    (if m = true then checked (x * -1) else pure x) = .ok y ↔
    (m = true → -2 ^ 63 < x) ∧ y = if m then -x else x := by
  have hmax : maxShareSupply < 2 ^ 63 := by decide
  cases m with
  | false => simp only [Bool.false_eq_true, if_false, pure_eq_ok, false_implies, true_and]
  | true =>
    simp only [if_true, checked_eq_ok, true_implies]
    constructor
    · rintro ⟨hrange, rfl⟩
      exact ⟨by omega, by ring⟩
    · rintro ⟨hlt, rfl⟩
      exact ⟨⟨by omega, by omega⟩, by ring⟩

theorem amountFromString_eq_ok (h : a.precision < 19) {r : Asset} :
    a.amountFromString id s = .ok r ↔ ∃ (m d : Bool) (w f : Int), scan s false false = .ok (m, d) ∧
      partNumber ((s.drop m.toNat).take (s.idxOf '.')) = some w ∧
      (s.drop (s.idxOf '.' + 1)).length ≤ a.precision ∧
      partNumber (fractionPart a.precision s) = some f ∧
      (-2 ^ 63 ≤ w * 10 ^ a.precision ∧ w * 10 ^ a.precision < 2 ^ 63) ∧
      (-2 ^ 63 ≤ w * 10 ^ a.precision + f ∧ w * 10 ^ a.precision + f ≤ maxShareSupply) ∧
      (m = true → -2 ^ 63 < w * 10 ^ a.precision + f) ∧
      r = ⟨if m then -(w * 10 ^ a.precision + f) else w * 10 ^ a.precision + f, id⟩ := by
  have hmaxRhs : ((integerToString (10 ^ a.precision)).drop 1).length = a.precision := by
    have hpow : ((10 : Int) ^ a.precision) = ((10 ^ a.precision + 0 : Nat) : Int) := by
      push_cast
      ring
    rw [hpow, integerToString_natCast]
    exact (toDigits_pow_add (Nat.pow_pos (by decide))).1
  have hmax : maxShareSupply < 2 ^ 63 := by decide
  simp only [AssetObject.amountFromString, scaledPrecision_ok h, bind_eq_ok, Except.ok.injEq,
    exists_eq_left', whole_eq_ok, hmaxRhs, require_eq_ok, exists_const, pure_eq_ok]
  constructor
  · rintro ⟨⟨m, d⟩, hscan, x, ⟨w, hw, rfl, hwrange⟩, y, hy, hle, z, hz, rfl⟩
    obtain ⟨hplaces, f, hf, rfl, hyrange⟩ := (decimal_eq_ok h hscan hwrange).mp hy
    obtain ⟨hsign, rfl⟩ := (sign_eq_ok ⟨hyrange.1, hle⟩).mp hz
    exact ⟨m, d, w, f, hscan, hw, hplaces, hf, hwrange, ⟨hyrange.1, hle⟩, hsign, rfl⟩
  · rintro ⟨m, d, w, f, hscan, hw, hplaces, hf, hwrange, hyrange, hsign, rfl⟩
    exact ⟨(m, d), hscan, _, ⟨w, hw, rfl, hwrange⟩, _,
      (decimal_eq_ok h hscan hwrange).mpr
        ⟨hplaces, f, hf, rfl, hyrange.1, lt_of_le_of_lt hyrange.2 hmax⟩,
      hyrange.2, _, (sign_eq_ok hyrange).mpr ⟨hsign, rfl⟩, rfl⟩

end

/-! ### What a text may look like -/

section

variable {a : AssetObject} {id : AssetId} {s : List Char} {r : Asset}

theorem straySign_of_accepted (h : a.precision < 19) (hs : a.amountFromString id s = .ok r)
    (hstray : '-' ∈ s.tail) : StraySign a.precision s := by
  obtain ⟨m, d, w, f, hscan, hw, hplaces, hf, hwrange, hrange, hsign, rfl⟩ :=
    (amountFromString_eq_ok h).mp hs
  obtain ⟨hcharacters, hsigns, hpoints⟩ := scan_eq_ok.mp hscan
  have hpos := List.count_pos_iff.mpr (List.mem_of_mem_tail hstray)
  have hm : m = true := by
    cases m with
    | false =>
      rw [Bool.toNat_false] at hsigns
      omega
    | true => rfl
  subst hm
  exact ⟨hstray, hcharacters, hsigns, le_of_le_of_eq (Nat.le_add_right _ _) hpoints |>.trans
      (Bool.toNat_le d), hplaces, w, f, hw, hf, hwrange.1, hwrange.2, hsign rfl, hrange.2⟩

theorem StraySign.accepted (h : a.precision < 19) (hs : StraySign a.precision s) :
    ∃ r, a.amountFromString id s = .ok r := by
  obtain ⟨w, f, hw, hf, hlow, hhigh, hsum, hle⟩ := hs.fits
  have hone := hs.one_point
  refine ⟨_, (amountFromString_eq_ok h).mpr ⟨true, decide (s.count '.' = 1), w, f,
    scan_eq_ok.mpr ⟨hs.characters, hs.one_sign, ?_⟩, hw, hs.places, hf, ⟨hlow, hhigh⟩,
    ⟨le_of_lt hsum, hle⟩, fun _ => hsum, rfl⟩⟩
  by_cases hcount : s.count '.' = 1
  · simp [hcount]
  · simp [hcount]
    omega

theorem sign_of_scan {m d : Bool} (hscan : scan s false false = .ok (m, d))
    (hstray : '-' ∉ s.tail) : ∃ u, s = List.replicate m.toNat '-' ++ u ∧ '-' ∉ u := by
  obtain ⟨-, hsigns, -⟩ := scan_eq_ok.mp hscan
  cases m with
  | false => exact ⟨s, rfl, List.count_eq_zero.mp hsigns⟩
  | true =>
    cases s with
    | nil => cases hsigns
    | cons c u =>
      have hone : (c :: u).count '-' = 1 := hsigns
      have hmem : '-' ∈ c :: u := List.count_pos_iff.mp (by omega)
      obtain rfl := (List.mem_cons.mp hmem).resolve_right hstray
      exact ⟨u, rfl, hstray⟩

theorem parts_of_scan {m d : Bool} (hscan : scan s false false = .ok (m, d))
    (hstray : '-' ∉ s.tail) : ∃ (x : List Char) (y : Option (List Char)), Digits x ∧
      Digits (y.getD []) ∧ s = List.replicate m.toNat '-' ++ x ++ pointed y := by
  obtain ⟨hcharacters, -, hpoints⟩ := scan_eq_ok.mp hscan
  obtain ⟨u, rfl, hminus⟩ := sign_of_scan hscan hstray
  have hdigits : ∀ l : List Char, (∀ c ∈ l, c ∈ u) → '.' ∉ l → Digits l := by
    intro l hl hpoint c hc
    rcases hcharacters c (List.mem_append_right _ (hl c hc)) with h | rfl | rfl
    · exact h
    · exact absurd (hl _ hc) hminus
    · exact absurd hc hpoint
  by_cases hpoint : '.' ∈ u
  · obtain ⟨x, y, rfl⟩ := List.append_of_mem hpoint
    have hle := Bool.toNat_le d
    rw [List.count_append, List.count_append, List.count_cons_self] at hpoints
    have hx : '.' ∉ x := List.count_eq_zero.mp (by omega)
    have hy : '.' ∉ y := List.count_eq_zero.mp (by omega)
    exact ⟨x, some y, hdigits x (fun c => List.mem_append_left _) hx,
      hdigits y (fun c hc => List.mem_append_right _ (List.mem_cons_of_mem _ hc)) hy,
      by rw [List.append_assoc, pointed]⟩
  · exact ⟨u, none, hdigits u (fun c => id) hpoint, fun c hc => (by cases hc),
      by rw [pointed, List.append_nil]⟩

theorem partNumber_digits {x rest : List Char} (h : Digits x) (hx : x ≠ [])
    (hrest : ∀ c ∈ rest.head?, c.isDigit = false) :
    partNumber (x ++ rest) = some (Nat.ofDigitChars 10 x 0 : Int) := by
  obtain ⟨hhead, htake⟩ := digits_in_front h hx hrest
  rw [partNumber, if_neg fun hnil => hx (List.append_eq_nil_iff.mp hnil).1]
  simp only [leadingNumber, hhead, if_false, htake, hx]

theorem idxOf_point {m : Bool} {x : List Char} {y : List Char} (hx : Digits x) :
    (List.replicate m.toNat '-' ++ x ++ pointed (some y)).idxOf '.' = m.toNat + x.length := by
  have hpoint : '.' ∉ List.replicate m.toNat '-' ++ x := by
    rw [List.mem_append]
    rintro (h | h)
    · exact absurd (List.eq_of_mem_replicate h) (by decide)
    · exact hx.notMem (by decide) h
  rw [List.idxOf_append_of_notMem hpoint, pointed, List.idxOf_cons_self, List.length_append,
    List.length_replicate, Nat.add_zero]

theorem point_notMem {m : Bool} {x : List Char} (hx : Digits x) :
    '.' ∉ List.replicate m.toNat '-' ++ x ++ pointed none := by
  rw [pointed, List.append_nil, List.mem_append]
  rintro (h | h)
  · exact absurd (List.eq_of_mem_replicate h) (by decide)
  · exact hx.notMem (by decide) h

theorem whole_of_parts {m : Bool} {x : List Char} {y : Option (List Char)} (hx : Digits x) {w : Int}
    (hs : s = List.replicate m.toNat '-' ++ x ++ pointed y)
    (hw : partNumber ((s.drop m.toNat).take (s.idxOf '.')) = some w)
    (hblank : s ∉ [[], ['-'], ['.']]) :
    w = Nat.ofDigitChars 10 x 0 ∧ x ++ y.getD [] ≠ [] := by
  have hdrop : s.drop m.toNat = x ++ pointed y := by
    rw [hs, List.append_assoc]
    exact List.drop_left' List.length_replicate
  rw [hdrop] at hw
  cases y with
  | none =>
    have hne : x ≠ [] := by
      rintro rfl
      cases m <;> exact hblank (by simp [hs, pointed])
    have hall : (x ++ pointed none).length ≤ s.idxOf '.' := by
      rw [hs, List.idxOf_eq_length (point_notMem hx)]
      simp
    rw [List.take_of_length_le hall, pointed, partNumber_digits hx hne (by simp)] at hw
    exact ⟨(Option.some.inj hw).symm, fun h => hne (List.append_eq_nil_iff.mp h).1⟩
  | some y =>
    rw [hs, idxOf_point hx, Nat.add_comm, List.take_length_add_append, pointed] at hw
    by_cases hnil : x = []
    · subst hnil
      cases m with
      | false =>
        obtain rfl : 0 = w := Option.some.inj hw
        refine ⟨rfl, fun h => hblank ?_⟩
        obtain rfl : y = [] := h
        simp [hs, pointed]
      | true => exact absurd hw (by simp [partNumber, leadingNumber])
    · rw [partNumber_digits hx hnil fun c hc => ?_] at hw
      · exact ⟨(Option.some.inj hw).symm, fun h => hnil (List.append_eq_nil_iff.mp h).1⟩
      · -- after a sign the point is cut out with the digits
        cases m with
        | false => cases hc
        | true =>
          obtain rfl := Option.some.inj hc
          decide

theorem drop_point {m : Bool} {x : List Char} {y : Option (List Char)} (hx : Digits x)
    (hs : s = List.replicate m.toNat '-' ++ x ++ pointed y) :
    s.drop (s.idxOf '.' + 1) = y.getD [] := by
  cases y with
  | none =>
    rw [hs, List.idxOf_eq_length (point_notMem hx)]
    exact List.drop_eq_nil_of_le (Nat.le_succ _)
  | some y =>
    have hlength : m.toNat + x.length + 1 = (List.replicate m.toNat '-' ++ x ++ ['.']).length := by
      simp [Nat.add_assoc]
    rw [hs, idxOf_point hx, pointed, List.append_cons, hlength, List.drop_left]
    rfl

theorem fraction_of_parts {m : Bool} {x : List Char} {y : Option (List Char)} (hx : Digits x)
    (hy : Digits (y.getD [])) {p : Nat} {f : Int}
    (hs : s = List.replicate m.toNat '-' ++ x ++ pointed y)
    (hf : partNumber (fractionPart p s) = some f) :
    f = Nat.ofDigitChars 10 (y.getD [] ++ List.replicate (p - (y.getD []).length) '0') 0 := by
  cases y with
  | none =>
    rw [fractionPart, if_neg (hs ▸ point_notMem hx), partNumber, if_pos rfl] at hf
    rw [Option.getD_none, List.nil_append, Nat.ofDigitChars_replicate_zero, Nat.mul_zero]
    exact (Option.some.inj hf).symm
  | some y =>
    have hpoint : '.' ∈ s := by simp [hs, pointed]
    rw [fractionPart, if_pos hpoint, drop_point hx hs, Option.getD_some] at hf
    rw [Option.getD_some]
    have hdigits := hy.append (Digits.zeros (p - y.length))
    by_cases hnil : y ++ List.replicate (p - y.length) '0' = []
    · rw [hnil, partNumber, if_pos rfl] at hf
      rw [hnil]
      exact (Option.some.inj hf).symm
    · have hend : ∀ c ∈ ([] : List Char).head?, c.isDigit = false := by simp
      have hread := partNumber_digits hdigits hnil hend
      rw [List.append_nil] at hread
      exact Option.some.inj (hf.symm.trans hread)

theorem decimal_of_accepted (h : a.precision < 19) (hs : a.amountFromString id s = .ok r)
    (hstray : '-' ∉ s.tail) (hblank : s ∉ [[], ['-'], ['.']]) :
    ∃ t : Decimal, t.text = s ∧ t.places ≤ a.precision ∧
      (r.amount : ℚ) = t.value * 10 ^ a.precision ∧ r.assetId = id := by
  obtain ⟨m, d, w, f, hscan, hw, hplaces, hf, -, -, -, rfl⟩ := (amountFromString_eq_ok h).mp hs
  obtain ⟨x, y, hx, hy, hparts⟩ := parts_of_scan hscan hstray
  obtain ⟨rfl, hsome⟩ := whole_of_parts hx hparts hw hblank
  obtain rfl := fraction_of_parts hx hy hparts hf
  have hle : (y.getD []).length ≤ a.precision := by
    rwa [drop_point hx hparts] at hplaces
  refine ⟨⟨m, x, y, hx, hy, hsome⟩, hparts.symm, hle, ?_, rfl⟩
  rw [Decimal.value_scaled _ hle, Decimal.sign]
  cases m with
  | false => simp [Decimal.places]
  | true => simp [Decimal.places]

theorem partNumber_zeros (n : Nat) : partNumber (List.replicate n '0') = some 0 := by
  by_cases hn : n = 0
  · rw [hn]
    rfl
  · have hend : ∀ c ∈ ([] : List Char).head?, c.isDigit = false := by simp
    have hread := partNumber_digits (Digits.zeros n) (by simpa using hn) hend
    rwa [List.append_nil, Nat.ofDigitChars_replicate_zero, Nat.mul_zero] at hread

theorem blank_accepted (h : a.precision < 19) (hblank : s ∈ [[], ['-'], ['.']]) :
    a.amountFromString id s = .ok ⟨0, id⟩ := by
  have hpow : (0 : Int) * 10 ^ a.precision = 0 := zero_mul _
  rw [amountFromString_eq_ok h]
  simp only [List.mem_cons, List.not_mem_nil, or_false] at hblank
  obtain rfl | rfl | rfl := hblank
  · exact ⟨false, false, 0, 0, rfl, rfl, Nat.zero_le _, rfl, by rw [hpow]; decide,
      by rw [hpow]; decide, fun h => (nomatch h), by rw [hpow]; rfl⟩
  · exact ⟨true, false, 0, 0, rfl, rfl, Nat.zero_le _, rfl, by rw [hpow]; decide,
      by rw [hpow]; decide, fun _ => by rw [hpow]; decide, by rw [hpow]; rfl⟩
  · exact ⟨false, true, 0, 0, rfl, rfl, Nat.zero_le _, partNumber_zeros _, by rw [hpow]; decide,
      by rw [hpow]; decide, fun h => (nomatch h), by rw [hpow]; rfl⟩

/-- A text that is read is a decimal number and read as what it denotes, unless it has no digit or
has a sign behind its first character. -/
theorem amountFromString_exact_iff (a : AssetObject) (id : AssetId) (s : List Char)
    (h : a.precision ≤ 12) :
    (∀ r, a.amountFromString id s = .ok r → ∃ t : Decimal, t.text = s ∧ t.places ≤ a.precision ∧
      (r.amount : ℚ) = t.value * 10 ^ a.precision ∧ r.assetId = id) ↔
    ¬(s ∈ [[], ['-'], ['.']] ∨ StraySign a.precision s) := by
  have hprecision : a.precision < 19 := by omega
  constructor
  · rintro hexact (hblank | hstray)
    · obtain ⟨t, rfl, -⟩ := hexact _ (blank_accepted hprecision hblank)
      obtain ⟨c, hc, hdigit⟩ := t.exists_digit
      obtain h | h | h : t.text = [] ∨ t.text = ['-'] ∨ t.text = ['.'] := by simpa using hblank
      all_goals simp_all
    · obtain ⟨r, hr⟩ : ∃ r, a.amountFromString id s = .ok r := hstray.accepted hprecision
      obtain ⟨t, rfl, -⟩ := hexact r hr
      exact t.minus_notMem_tail hstray.stray
  · intro hnot r hr
    refine decimal_of_accepted hprecision hr (fun hstray => ?_) fun hblank => hnot (Or.inl hblank)
    exact hnot (Or.inr (straySign_of_accepted hprecision hr hstray))

end

theorem amountFromString_exact_three_halves :
    ∃ t : Decimal, t.text = "-1.5".toList ∧ t.places ≤ 5 ∧
      ((-150000 : Int) : ℚ) = t.value * 10 ^ 5 ∧ (0 : AssetId) = 0 := by
  have hread : fiveDigits.amountFromString 0 "-1.5".toList = .ok ⟨-150000, 0⟩ := by decide +kernel
  refine (amountFromString_exact_iff fiveDigits 0 "-1.5".toList (by decide)).mpr ?_ _ hread
  rintro (h | h)
  · exact absurd h (by decide)
  · exact absurd h.stray (by decide)

/-- Two units, from a text that is no number. -/
theorem amountFromString_stray_sign :
    fiveDigits.amountFromString 0 "1-2".toList = .ok ⟨200000, 0⟩ ∧
      ¬∃ t : Decimal, t.text = "1-2".toList := by
  refine ⟨by decide +kernel, ?_⟩
  rintro ⟨t, ht⟩
  exact t.minus_notMem_tail (by rw [ht]; decide)

/-- The first digit is dropped instead of the sign. -/
example : fiveDigits.amountFromString 0 "12-".toList = .ok ⟨-200000, 0⟩ := by decide +kernel

end Nestchain.Assets
