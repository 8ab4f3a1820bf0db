import Mathlib.Data.List.TakeWhile
import Mathlib.Data.List.Perm.Basic

/-! Sorted lists. -/

namespace Nestchain.Lib

/-- A test that holds up to some place. -/
theorem takeWhile_dropWhile_eq_filter {α : Type} {r : α → α → Prop} {p : α → Bool} {l : List α}
    (h : l.Pairwise r) (hp : ∀ x y, r x y → p y = true → p x = true) :
    l.takeWhile p = l.filter p ∧ l.dropWhile p = l.filter fun x => !p x := by
  induction l with
  | nil => exact ⟨rfl, rfl⟩
  | cons x l ih =>
    obtain ⟨hx, hl⟩ := List.pairwise_cons.mp h
    obtain ⟨ih1, ih2⟩ := ih hl
    by_cases hpx : p x = true
    · rw [List.takeWhile_cons_of_pos hpx, List.dropWhile_cons_of_pos hpx,
        List.filter_cons_of_pos hpx,
        List.filter_cons_of_neg (by simpa using hpx), ih1, ih2]
      exact ⟨rfl, rfl⟩
    · have hnone : ∀ y ∈ l, p y = false := by
        intro y hy
        cases hpy : p y with
        | false => rfl
        | true => exact absurd (hp x y (hx y hy) hpy) hpx
      rw [List.takeWhile_cons_of_neg hpx, List.dropWhile_cons_of_neg hpx,
        List.filter_cons_of_neg hpx, List.filter_cons_of_pos (by simpa using hpx)]
      refine ⟨(List.filter_eq_nil_iff.mpr fun y hy => ?_).symm, ?_⟩
      · simp [hnone y hy]
      · rw [List.filter_eq_self.mpr fun y hy => ?_]
        simp [hnone y hy]

/-- Values in one direction are determined by which they are. -/
theorem eq_of_pairwise_of_mem_iff {α : Type} {r : α → α → Prop} (hne : ∀ x y, r x y → x ≠ y)
    (hr : ∀ x y, r x y → ¬r y x) {l l' : List α} (hl : l.Pairwise r) (hl' : l'.Pairwise r)
    (h : ∀ x, x ∈ l ↔ x ∈ l') : l = l' := by
  refine List.Perm.eq_of_pairwise (fun x y _ _ hxy hyx => absurd hyx (hr x y hxy)) hl hl' ?_
  exact (List.perm_ext_iff_of_nodup (hl.imp fun {x y} => hne x y)
    (hl'.imp fun {x y} => hne x y)).mpr h

/-- Two elements of a list are the same, or one of them comes first. -/
theorem eq_or_rel_of_pairwise {α : Type} {r : α → α → Prop} {l : List α} (h : l.Pairwise r)
    {x y : α}
    (hx : x ∈ l) (hy : y ∈ l) : x = y ∨ r x y ∨ r y x := by
  induction l with
  | nil => exact (List.not_mem_nil hx).elim
  | cons a l ih =>
    obtain ⟨ha, hl⟩ := List.pairwise_cons.mp h
    rcases List.mem_cons.mp hx with rfl | hx'
    · rcases List.mem_cons.mp hy with rfl | hy'
      · exact Or.inl rfl
      · exact Or.inr (Or.inl (ha y hy'))
    · rcases List.mem_cons.mp hy with rfl | hy'
      · exact Or.inr (Or.inr (ha x hx'))
      · exact ih hl hx' hy'

/-- The one of two tails of a list that begins later, if both are nonempty. -/
def laterTail {α : Type} (f : α → Int) : List α → List α → List α
  | a :: as, b :: bs => if f b ≤ f a then a :: as else b :: bs
  | _, _ => []

/-- Of two tails of a sorted list, the later one is what they have in common. -/
theorem laterTail_dropWhile {α : Type} {r : α → α → Prop} {f : α → Int} {p q : α → Bool}
    {l : List α} (h : l.Pairwise r) (hf : ∀ x y, r x y → f x < f y)
    (hp : ∀ x y, r x y → p y = true → p x = true)
    (hq : ∀ x y, r x y → q y = true → q x = true) :
    laterTail f (l.dropWhile p) (l.dropWhile q) = l.filter fun x => !p x && !q x := by
  have hboth : (l.filter fun x => !p x && !q x) = (l.filter fun x => !q x).filter fun x => !p x :=
    List.filter_filter.symm
  have hboth' : (l.filter fun x => !p x && !q x) = (l.filter fun x => !p x).filter fun x => !q x :=
    by
      rw [List.filter_filter]
      exact List.filter_congr fun x hx => Bool.and_comm _ _
  -- in the tail of one, what is not before the first of the other is in the tail of both
  have hlater : ∀ {p : α → Bool} {a b : α} {as : List α},
      (∀ x y, r x y → p y = true → p x = true) → (a :: as).Pairwise r → (∀ x ∈ a :: as, x ∈ l) →
      b ∈ l → p b = false → f b ≤ f a → (a :: as).filter (fun x => !p x) = a :: as := by
    intro p a b as hp has hsub hb hpb hle
    refine List.filter_eq_self.mpr fun x hx => ?_
    have hax : f a ≤ f x := by
      rcases List.mem_cons.mp hx with rfl | hx'
      · exact Int.le_refl _
      · exact Int.le_of_lt (hf a x ((List.pairwise_cons.mp has).1 x hx'))
    cases hpx : p x with
    | false => rfl
    | true =>
      rcases eq_or_rel_of_pairwise h (hsub x hx) hb with rfl | hxb | hbx
      · rw [hpb] at hpx
        cases hpx
      · have hlt := hf x b hxb
        omega
      · rw [hp b x hbx hpx] at hpb
        cases hpb
  rw [(takeWhile_dropWhile_eq_filter h hp).2, (takeWhile_dropWhile_eq_filter h hq).2]
  have hsub : ∀ {p : α → Bool}, ∀ x ∈ l.filter p, x ∈ l := fun x hx => List.mem_of_mem_filter hx
  cases ha : l.filter (fun x => !p x) with
  | nil =>
    rw [hboth', ha]
    rfl
  | cons a as =>
    cases hb : l.filter (fun x => !q x) with
    | nil =>
      rw [hboth, hb]
      rfl
    | cons b bs =>
      have has := ha ▸ h.filter fun x => !p x
      have hbs := hb ▸ h.filter fun x => !q x
      have hamem : a ∈ l.filter fun x => !p x := ha ▸ List.mem_cons_self
      have hbmem : b ∈ l.filter fun x => !q x := hb ▸ List.mem_cons_self
      rw [laterTail]
      split
      · rename_i hle
        rw [hboth', ha]
        exact (hlater hq has (ha ▸ hsub) (hsub b hbmem)
          (by simpa using (List.mem_filter.mp hbmem).2) hle).symm
      · rename_i hle
        rw [hboth, hb]
        exact (hlater hp hbs (hb ▸ hsub) (hsub a hamem)
          (by simpa using (List.mem_filter.mp hamem).2) (by omega)).symm

section Key

variable {α : Type} {f : α → Nat} {l : List α} {n : Nat}

/-- The first entry from a bound on has the least key there. -/
theorem exists_first_of_pairwise (hl : l.Pairwise fun x y => f x < f y)
    (hex : ∃ x ∈ l, n ≤ f x) :
    ∃ e rest, (l.filter fun x => n ≤ f x) = e :: rest ∧ e ∈ l ∧ n ≤ f e ∧
      ∀ y ∈ l, n ≤ f y → f e ≤ f y := by
  obtain ⟨x, hx, hn⟩ := hex
  have hxs : x ∈ l.filter fun x => n ≤ f x := List.mem_filter.mpr ⟨hx, decide_eq_true hn⟩
  obtain ⟨e, rest, heq⟩ := List.exists_cons_of_ne_nil (List.ne_nil_of_mem hxs)
  have hsorted := hl.filter fun x => n ≤ f x
  have he : e ∈ l.filter fun x => n ≤ f x := heq ▸ List.mem_cons_self
  obtain ⟨hel, hen⟩ := List.mem_filter.mp he
  refine ⟨e, rest, heq, hel, of_decide_eq_true hen, fun y hy hny => ?_⟩
  have hys : y ∈ l.filter fun x => n ≤ f x := List.mem_filter.mpr ⟨hy, decide_eq_true hny⟩
  rw [heq] at hsorted hys
  rcases List.mem_cons.mp hys with rfl | hlater
  · exact Nat.le_refl _
  · exact Nat.le_of_lt ((List.pairwise_cons.mp hsorted).1 y hlater)

theorem eq_of_key_eq (hl : l.Pairwise fun x y => f x < f y) {x y : α} (hx : x ∈ l) (hy : y ∈ l)
    (h : f x = f y) : x = y := by
  rcases eq_or_rel_of_pairwise hl hx hy with heq | hlt | hlt
  · exact heq
  · omega
  · omega

/-- Up to that entry there are the entries below the bound, and it. -/
theorem filter_le_first (hl : l.Pairwise fun x y => f x < f y) {e : α} (he : e ∈ l) (hn : n ≤ f e)
    (hfirst : ∀ y ∈ l, n ≤ f y → f e ≤ f y) :
    (l.filter fun x => f x ≤ f e) = (l.filter fun x => f x < n) ++ [e] := by
  refine eq_of_pairwise_of_mem_iff (fun x y hxy heq => ?_) (fun _ _ => Nat.lt_asymm)
    (hl.filter _) ?_ fun x => ?_
  · rw [heq] at hxy
    exact Nat.lt_irrefl _ hxy
  · refine List.pairwise_append.mpr ⟨hl.filter _, List.pairwise_singleton _ _, ?_⟩
    intro x hx y hy
    obtain rfl := List.mem_singleton.mp hy
    have hlt := of_decide_eq_true (List.mem_filter.mp hx).2
    omega
  · rw [List.mem_append, List.mem_filter, List.mem_filter, List.mem_singleton, decide_eq_true_iff,
      decide_eq_true_iff]
    constructor
    · rintro ⟨hx, hle⟩
      by_cases hlt : f x < n
      · exact Or.inl ⟨hx, hlt⟩
      · have hge := hfirst x hx (Nat.not_lt.mp hlt)
        exact Or.inr (eq_of_key_eq hl hx he (Nat.le_antisymm hle hge))
    · rintro (⟨hx, hlt⟩ | rfl)
      · exact ⟨hx, by omega⟩
      · exact ⟨he, Nat.le_refl _⟩

end Key

end Nestchain.Lib
