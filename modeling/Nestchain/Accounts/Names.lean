import Mathlib.Algebra.Group.Nat.Defs
import Mathlib.Data.List.Basic

/-! Account names.  `is_valid_name` walks over the labels of a name with two positions; a position
past the end of the name has no character, and then there is no result. -/

namespace Nestchain.Accounts

/-- `GRAPHENE_MIN_ACCOUNT_NAME_LENGTH` -/
def minAccountNameLength : Nat := 1

/-- `GRAPHENE_MAX_ACCOUNT_NAME_LENGTH` -/
def maxAccountNameLength : Nat := 63

def isLetDig (c : Char) : Bool := c.isLower || c.isDigit

def isLetDigHyp (c : Char) : Bool := isLetDig c || c == '-'

/-- A difference of two `size_t`. -/
def sizeSub (a b : Nat) : Nat := (a + 2 ^ 64 - b) % 2 ^ 64

def findFirstOf (name : List Char) (c : Char) (start : Nat) : Option Nat :=
  if c ∈ name.drop start then some (start + (name.drop start).idxOf c) else none

/-- The loop over the characters between the first and the last, `n` of them from `i` on. -/
def middleValid (name : List Char) : Nat → Nat → Option Bool
  | 0, _ => some true
  | n + 1, i => do
    let c ← name[i]?
    if isLetDigHyp c then middleValid name n (i + 1) else some false

def labelValid (name : List Char) (start stop : Nat) : Option Bool :=
  if sizeSub stop start < minAccountNameLength then some false
  else do
    let first ← name[start]?
    if first.isLower then do
      let last ← name[sizeSub stop 1]?
      if isLetDig last then middleValid name (sizeSub stop 1 - (start + 1)) (start + 1)
      else some false
    else some false

/-- The loop over the labels, from the one that starts at `start`. -/
def labelsValid (name : List Char) : Nat → Nat → Option Bool
  | 0, _ => none
  | rounds + 1, start => do
    let stop := (findFirstOf name '.' start).getD name.length
    let valid ← labelValid name start stop
    if valid then
      if stop = name.length then some true else labelsValid name rounds (stop + 1)
    else some false

def isValidName (rounds : Nat) (name : List Char) : Option Bool :=
  if name.length < minAccountNameLength then some false
  else if maxAccountNameLength < name.length then some false
  else labelsValid name rounds 0

/-! ### The grammar -/

/-- `<label>` -/
structure IsLabel (l : List Char) : Prop where
  length : minAccountNameLength ≤ l.length
  first : ∃ c ∈ l.head?, c.isLower = true
  last : ∃ c ∈ l.getLast?, isLetDig c = true
  characters : ∀ c ∈ l, isLetDigHyp c = true

/-- `<subdomain>`: labels with dots between them. -/
inductive Subdomain : List Char → Prop
  | label {l : List Char} : IsLabel l → Subdomain l
  | dot {l rest : List Char} : IsLabel l → Subdomain rest → Subdomain (l ++ '.' :: rest)

theorem IsLabel.dot_notMem {l : List Char} (h : IsLabel l) : '.' ∉ l :=
  fun hmem => absurd (h.characters _ hmem) (by decide)

theorem isLetDigHyp_of_isLetDig {c : Char} (h : isLetDig c = true) : isLetDigHyp c = true := by
  rw [isLetDigHyp, h, Bool.true_or]

theorem isLetDig_of_isLower {c : Char} (h : c.isLower = true) : isLetDig c = true := by
  rw [isLetDig, h, Bool.true_or]

theorem isLabel_single {c : Char} : IsLabel [c] ↔ c.isLower = true := by
  constructor
  · rintro ⟨-, ⟨d, hd, hlower⟩, -, -⟩
    obtain rfl := Option.some.inj hd
    exact hlower
  · intro h
    have hletDig := isLetDig_of_isLower h
    exact ⟨Nat.le_refl 1, ⟨c, rfl, h⟩, ⟨c, rfl, hletDig⟩, by simp [isLetDigHyp_of_isLetDig hletDig]⟩

theorem isLabel_ends {c d : Char} {middle : List Char} :
    IsLabel (c :: (middle ++ [d])) ↔
      c.isLower = true ∧ isLetDig d = true ∧ ∀ x ∈ middle, isLetDigHyp x = true := by
  have hlast : (c :: (middle ++ [d])).getLast? = some d := by
    rw [← List.cons_append, List.getLast?_concat]
  constructor
  · rintro ⟨-, ⟨x, hx, hlower⟩, ⟨y, hy, hletDig⟩, hall⟩
    obtain rfl := Option.some.inj hx
    rw [hlast] at hy
    obtain rfl := Option.some.inj hy
    exact ⟨hlower, hletDig, fun x hx => hall x (List.mem_cons_of_mem _ (List.mem_append_left _ hx))⟩
  · rintro ⟨hlower, hletDig, hmiddle⟩
    refine ⟨Nat.le_add_left _ _, ⟨c, rfl, hlower⟩, ⟨d, hlast, hletDig⟩, ?_⟩
    simp only [List.forall_mem_cons, List.forall_mem_append]
    exact ⟨isLetDigHyp_of_isLetDig (isLetDig_of_isLower hlower), hmiddle,
      isLetDigHyp_of_isLetDig hletDig, by simp⟩

theorem subdomain_label {s : List Char} (h : '.' ∉ s) : Subdomain s ↔ IsLabel s := by
  refine ⟨fun hs => ?_, Subdomain.label⟩
  cases hs with
  | label hl => exact hl
  | dot hl hrest => exact absurd (by simp) h

theorem subdomain_dot {l rest : List Char} (h : '.' ∉ l) :
    Subdomain (l ++ '.' :: rest) ↔ IsLabel l ∧ Subdomain rest := by
  refine ⟨fun hs => ?_, fun hs => Subdomain.dot hs.1 hs.2⟩
  generalize htext : l ++ '.' :: rest = text at hs
  cases hs with
  | label hl => exact absurd (by simp [← htext]) hl.dot_notMem
  | @dot l' rest' hl hrest =>
    have hposition := congrArg (List.idxOf '.') htext
    rw [List.idxOf_append_of_notMem h, List.idxOf_append_of_notMem hl.dot_notMem,
      List.idxOf_cons_self, List.idxOf_cons_self] at hposition
    obtain ⟨rfl, hrest'⟩ := List.append_inj htext hposition
    obtain rfl := (List.cons.inj hrest').2
    exact ⟨hl, hrest⟩

/-! ### The scanner -/

section

variable {name : List Char}

theorem sizeSub_eq {a b : Nat} (hb : b ≤ a) (ha : a < 2 ^ 64) : sizeSub a b = a - b := by
  rw [sizeSub]
  omega

theorem middleValid_spec (middle before after : List Char) :
    middleValid (before ++ middle ++ after) middle.length before.length =
      some (middle.all isLetDigHyp) := by
  induction middle generalizing before with
  | nil => rfl
  | cons c middle ih =>
    have hread : (before ++ c :: middle ++ after)[before.length]? = some c := by simp
    have hnext := ih (before ++ [c])
    rw [List.length_append, List.append_assoc before [c] middle] at hnext
    rw [List.length_cons, middleValid, hread]
    simp only [Option.bind_eq_bind, Option.bind_some, List.all_cons]
    split
    · rename_i hc
      rw [hc, Bool.true_and]
      exact hnext
    · rename_i hc
      rw [eq_false_of_ne_true hc, Bool.false_and]

theorem labelValid_spec (l before after : List Char)
    (hlength : (before ++ l ++ after).length < 2 ^ 64) :
    ∃ valid, labelValid (before ++ l ++ after) before.length (before.length + l.length) =
      some valid ∧ (valid = true ↔ IsLabel l) := by
  rw [List.length_append, List.length_append] at hlength
  rw [labelValid, sizeSub_eq (Nat.le_add_right _ _) (by omega), Nat.add_sub_cancel_left]
  cases l with
  | nil => exact ⟨false, rfl, by simp, fun h => absurd h.length (by decide)⟩
  | cons c l =>
    have hfirst : (before ++ c :: l ++ after)[before.length]? = some c := by simp
    have hpos : ¬(c :: l).length < minAccountNameLength := Nat.not_lt.mpr (Nat.le_add_left _ _)
    rw [if_neg hpos, sizeSub_eq (by rw [List.length_cons]; omega) (by omega), hfirst]
    simp only [Option.bind_eq_bind, Option.bind_some]
    rcases List.eq_nil_or_concat' l with rfl | ⟨middle, d, rfl⟩
    · -- the first character is also the last
      rw [isLabel_single, List.length_singleton, Nat.add_sub_cancel, hfirst]
      refine ⟨c.isLower, ?_, Iff.rfl⟩
      cases hlower : c.isLower with
      | false => rfl
      | true =>
        simp only [if_true, Option.bind_some, isLetDig_of_isLower hlower]
        rw [Nat.sub_eq_zero_of_le (Nat.le_succ _), middleValid]
    · have hlast : (before ++ c :: (middle ++ [d]) ++ after)[before.length +
          (c :: (middle ++ [d])).length - 1]? = some d := by
        have hsplit : before ++ c :: (middle ++ [d]) ++ after =
            (before ++ c :: middle) ++ d :: after := by simp
        have hindex : before.length + (c :: (middle ++ [d])).length - 1 =
            (before ++ c :: middle).length := by simp
        rw [hsplit, hindex]
        simp
      have hmiddle := middleValid_spec middle (before ++ [c]) (d :: after)
      have hcount : before.length + (c :: (middle ++ [d])).length - 1 - (before.length + 1) =
          middle.length := by simp; omega
      have hname : before ++ [c] ++ middle ++ d :: after =
          before ++ c :: (middle ++ [d]) ++ after := by simp
      rw [hname, List.length_append, List.length_singleton] at hmiddle
      rw [hlast, hcount, isLabel_ends]
      simp only [Option.bind_some, hmiddle]
      refine ⟨c.isLower && (isLetDig d && middle.all isLetDigHyp), ?_, ?_⟩
      · cases c.isLower <;> cases isLetDig d <;> rfl
      · rw [Bool.and_eq_true, Bool.and_eq_true, List.all_eq_true]

theorem labelsValid_spec (rounds : Nat) (before s : List Char)
    (hlength : (before ++ s).length < 2 ^ 64) (hrounds : s.length < rounds) :
    ∃ valid, labelsValid (before ++ s) rounds before.length = some valid ∧
      (valid = true ↔ Subdomain s) := by
  induction rounds generalizing before s with
  | zero => omega
  | succ rounds ih =>
    rw [labelsValid, findFirstOf, List.drop_left]
    by_cases hdot : '.' ∈ s
    · obtain ⟨l, rest, rfl, hl⟩ := List.eq_append_cons_of_mem hdot
      have hname : before ++ (l ++ '.' :: rest) = before ++ l ++ '.' :: rest := by simp
      have hnext : before ++ (l ++ '.' :: rest) = before ++ l ++ ['.'] ++ rest := by simp
      obtain ⟨valid, hvalid, hiff⟩ := labelValid_spec l before ('.' :: rest) (by rwa [← hname])
      obtain ⟨others, hothers, hrest⟩ := ih (before ++ l ++ ['.']) rest (by rwa [← hnext])
        (by rw [List.length_append, List.length_cons] at hrounds; omega)
      rw [← hnext, List.length_append, List.length_append, List.length_singleton] at hothers
      rw [← hname] at hvalid
      rw [if_pos hdot, List.idxOf_append_of_notMem hl, List.idxOf_cons_self, Nat.add_zero,
        Option.getD_some, hvalid, subdomain_dot hl, ← hiff, ← hrest]
      refine ⟨valid && others, ?_, Bool.and_eq_true_iff⟩
      cases valid with
      | false => rfl
      | true => simp [hothers]
    · obtain ⟨valid, hvalid, hiff⟩ := labelValid_spec s before [] (by rwa [List.append_nil])
      rw [List.append_nil] at hvalid
      rw [if_neg hdot, Option.getD_none, List.length_append, hvalid]
      refine ⟨valid, ?_, hiff.trans (subdomain_label hdot).symm⟩
      cases valid with
      | false => rfl
      | true => simp

end

/-- A valid name is a sequence of labels of a length within the bounds; the walk over it ends, and
reads no position outside it. -/
theorem isValidName_spec (name : List Char) :
    ∃ valid, (∀ rounds, name.length < rounds → isValidName rounds name = some valid) ∧
      (valid = true ↔ minAccountNameLength ≤ name.length ∧
        name.length ≤ maxAccountNameLength ∧ Subdomain name) := by
  by_cases hmin : name.length < minAccountNameLength
  · refine ⟨false, fun rounds _ => by rw [isValidName, if_pos hmin], by simp, fun h => ?_⟩
    exact absurd h.1 (Nat.not_le.mpr hmin)
  by_cases hmax : maxAccountNameLength < name.length
  · refine ⟨false, fun rounds _ => by rw [isValidName, if_neg hmin, if_pos hmax], by simp,
      fun h => ?_⟩
    exact absurd h.2.1 (Nat.not_le.mpr hmax)
  have hsize : ([] ++ name).length < 2 ^ 64 :=
    Nat.lt_of_le_of_lt (Nat.not_lt.mp hmax) (by decide)
  obtain ⟨valid, -, hiff⟩ := labelsValid_spec (name.length + 1) [] name hsize (Nat.lt_succ_self _)
  refine ⟨valid, fun rounds hrounds => ?_, ?_⟩
  · obtain ⟨valid', hvalid', hiff'⟩ := labelsValid_spec rounds [] name hsize hrounds
    rw [isValidName, if_neg hmin, if_neg hmax]
    rw [Bool.eq_iff_iff.mpr (hiff.trans hiff'.symm)]
    exact hvalid'
  · rw [hiff]
    exact ⟨fun h => ⟨Nat.not_lt.mp hmin, Nat.not_lt.mp hmax, h⟩, fun h => h.2.2⟩

example : isValidName 64 "init0.cold-wallet".toList = some true := by decide

example : isValidName 64 "init0.".toList = some false := by decide

end Nestchain.Accounts
