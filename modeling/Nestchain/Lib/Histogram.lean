import Mathlib.Algebra.BigOperators.Group.List.Basic
import Mathlib.Algebra.GroupWithZero.Nat

/-! Histograms: the weight of the elements of a list that fall in a bucket. -/

namespace Nestchain.Lib

variable {α : Type} {w : α → Nat}

/-- The weight of the elements that pass a test. -/
def weightWhere (w : α → Nat) (p : α → Bool) (l : List α) : Nat := ((l.filter p).map w).sum

@[simp] theorem weightWhere_nil (w : α → Nat) (p : α → Bool) : weightWhere w p [] = 0 := rfl

theorem weightWhere_cons (w : α → Nat) (p : α → Bool) (a : α) (l : List α) :
    weightWhere w p (a :: l) = (if p a = true then w a else 0) + weightWhere w p l := by
  unfold weightWhere
  by_cases h : p a = true
  · rw [List.filter_cons_of_pos h, if_pos h, List.map_cons, List.sum_cons]
  · rw [List.filter_cons_of_neg h, if_neg h, Nat.zero_add]

theorem weightWhere_congr {p q : α → Bool} {l : List α} (h : ∀ a ∈ l, p a = q a) :
    weightWhere w p l = weightWhere w q l := by
  rw [weightWhere, weightWhere, List.filter_congr h]

/-- What passes one of two tests that exclude each other. -/
theorem weightWhere_add {p q r : α → Bool} (hr : ∀ a, r a = (p a || q a))
    (hpq : ∀ a, p a = true → q a = false) (l : List α) :
    weightWhere w p l + weightWhere w q l = weightWhere w r l := by
  induction l with
  | nil => rfl
  | cons a l ih =>
    rw [weightWhere_cons, weightWhere_cons, weightWhere_cons, ← ih, hr a]
    cases hp : p a with
    | true => simp [hpq a hp, Nat.add_assoc]
    | false => simp [Nat.add_left_comm]

theorem weightWhere_le_sum (p : α → Bool) (l : List α) : weightWhere w p l ≤ (l.map w).sum := by
  have hadd := weightWhere_add (w := w) (p := p) (q := fun a => !p a) (r := fun _ => true)
    (fun a => (Bool.or_not_self (p a)).symm) (fun a h => by rw [h]; rfl) l
  have hall : weightWhere w (fun _ => true) l = (l.map w).sum := by
    rw [weightWhere, List.filter_true]
  omega

/-- The buckets from 1 up to some bucket hold what falls in one of them. -/
theorem sum_buckets (w : α → Nat) (p : α → Bool) (bucket : α → Nat) (l : List α) (n : Nat) :
    ((List.range n).map fun i => weightWhere w (fun a => p a && bucket a == i + 1) l).sum =
      weightWhere w (fun a => p a && decide (0 < bucket a ∧ bucket a ≤ n)) l := by
  induction n with
  | zero =>
    have hnone : ∀ a ∈ l, ¬(p a && decide (0 < bucket a ∧ bucket a ≤ 0)) = true := fun a _ h => by
      rw [Bool.and_eq_true, decide_eq_true_eq] at h
      omega
    rw [weightWhere, List.filter_eq_nil_iff.mpr hnone]
    rfl
  | succ n ih =>
    rw [List.range_succ, List.map_append, List.sum_append, ih, List.map_singleton,
      List.sum_singleton]
    refine weightWhere_add (fun a => ?_) (fun a h => ?_) l
    · rw [← Bool.and_or_distrib_left]
      congr 1
      rw [Bool.eq_iff_iff]
      simp only [Bool.or_eq_true, decide_eq_true_eq, beq_iff_eq]
      omega
    · rw [Bool.and_eq_true, decide_eq_true_eq] at h
      rw [Bool.and_eq_false_iff, beq_eq_false_iff_ne]
      exact Or.inr (by omega)

end Nestchain.Lib
