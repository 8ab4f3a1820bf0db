import Mathlib.Data.List.Basic
import Mathlib.Data.List.Induction
import Mathlib.Data.List.Nodup
import Mathlib.Data.List.Pairwise
import Mathlib.Data.Tree.Basic
import Mathlib.Logic.Relation

/-! Ordered indexes.  An index shows its elements in the order of a search tree, whose shape is left
open.  A new element is placed by a binary search; a changed one stays where it is if it is still
between its neighbours, and is placed anew otherwise.  The comparison orders the elements that are
meant to be in the index; of any other element it is only known that it comes before or after each
of them. -/

namespace Nestchain.Lib

/-! ### Search trees -/

section

variable {α : Type} (before : α → α → Prop)

/-- The elements from left to right. -/
def inorder : BinaryTree α → List α
  | .nil => []
  | .node a left right => inorder left ++ a :: inorder right

/-- A list with an element at a place where the comparison of the element with its neighbours does
not object. -/
structure PlacedAt (x : α) (p s l : List α) : Prop where
  between : l = p ++ x :: s
  left : ∀ a ∈ p.getLast?, ¬before x a
  right : ∀ a ∈ s.head?, before x a

variable [DecidableRel before]

/-- The descent to the place of a new element. -/
def descend (x : α) : BinaryTree α → BinaryTree α
  | .nil => .node x .nil .nil
  | .node a left right =>
    if before x a then .node a (descend x left) right else .node a left (descend x right)

/-- A descent ends between two elements that it has come past. -/
theorem inorder_descend (x : α) (t : BinaryTree α) : ∃ p s : List α, inorder t = p ++ s ∧
    PlacedAt before x p s (inorder (descend before x t)) := by
  induction t with
  | nil => exact ⟨[], [], rfl, rfl, nofun, nofun⟩
  | node a left right ihl ihr =>
    rw [descend]
    split
    · rename_i hlt
      obtain ⟨p, s, hleft, hinsert, hp, hs⟩ := ihl
      refine ⟨p, s ++ a :: inorder right, ?_, ?_, hp, ?_⟩
      · rw [inorder, hleft, List.append_assoc]
      · rw [inorder, hinsert, List.append_assoc, List.cons_append]
      · cases s with
        | nil =>
          rintro b hb
          obtain rfl := Option.some.inj hb
          exact hlt
        | cons b s => exact hs
    · rename_i hnot
      obtain ⟨p, s, hright, hinsert, hp, hs⟩ := ihr
      refine ⟨inorder left ++ a :: p, s, ?_, ?_, ?_, hs⟩
      · rw [inorder, hright, List.append_assoc, List.cons_append]
      · rw [inorder, hinsert, List.append_assoc, List.cons_append]
      · cases p using List.reverseRecOn with
        | nil => simpa using hnot
        | append_singleton p b =>
          rw [List.getLast?_append_of_ne_nil _ (List.cons_ne_nil _ _), ← List.cons_append,
            List.getLast?_concat]
          simpa using hp

end

/-! ### EditStep -/

/-- What happens to an index.  An element that is closed is changed first and then removed. -/
inductive Edit (α : Type) where
  | insert (x : α)
  | modify (x x' : α)
  | remove (x : α)
  | close (x x' : α)

section

variable {α : Type} (before : α → α → Prop) [DecidableRel before]

/-- The element is placed in some tree with the given elements. -/
inductive TreePlacement (x : α) : List α → List α → Prop
  | descend (t : BinaryTree α) : TreePlacement x (inorder t) (inorder (descend before x t))

/-- The changed element `x`, between `p` and `s` before the change, keeps its place or finds another
one. -/
inductive Repositions (x : α) (p s : List α) : List α → Prop
  | stay : (∀ a ∈ p.getLast?, before a x) → (∀ a ∈ s.head?, before x a) →
    Repositions x p s (p ++ x :: s)
  | again {l : List α} : ¬((∀ a ∈ p.getLast?, before a x) ∧ ∀ a ∈ s.head?, before x a) →
    TreePlacement before x (p ++ s) l → Repositions x p s l

inductive Performs : Edit α → List α → List α → Prop
  | insert {x : α} {l l' : List α} : TreePlacement before x l l' → Performs (.insert x) l l'
  | modify {x x' : α} {p s l' : List α} : Repositions before x' p s l' →
    Performs (.modify x x') (p ++ x :: s) l'
  | remove {x : α} {p s : List α} : Performs (.remove x) (p ++ x :: s) (p ++ s)
  | close {x x' : α} {p s p' s' : List α} : Repositions before x' p s (p' ++ x' :: s') →
    Performs (.close x x') (p ++ x :: s) (p' ++ s')

end

/-! ### Order -/

section

variable {α : Type} (before : α → α → Prop) (ident : α → Nat) (good : α → Prop)

/-- New elements have new identities, identities do not change, and only an element that is being
closed is not one that is meant to be in the index. -/
def Admissible : Edit α → List α → Prop
  | .insert x, l => good x ∧ ∀ a ∈ l, ident a ≠ ident x
  | .modify x x', _ => good x' ∧ ident x' = ident x
  | .remove _, _ => True
  | .close x x', _ => ident x' = ident x

/-- The comparison decides between any two elements, and orders the ones that belong there. -/
structure Comparison : Prop where
  total : ∀ a b, ident a ≠ ident b → before a b ∨ before b a
  trans : ∀ a b c, good a → good b → good c → before a b → before b c → before a c

/-- The elements belong there, have different identities and are in order. -/
structure InOrder (l : List α) : Prop where
  sorted : l.Pairwise before
  good : ∀ a ∈ l, good a
  distinct : (l.map ident).Nodup

end

section

variable {α : Type} {before : α → α → Prop} {ident : α → Nat} {good : α → Prop}

theorem inOrder_nil (before : α → α → Prop) (ident : α → Nat) (good : α → Prop) :
    InOrder before ident good [] :=
  ⟨List.Pairwise.nil, (fun _ ha => nomatch ha), List.nodup_nil⟩

/-- An element between its neighbours is between all the others. -/
theorem InOrder.insert (hbefore : Comparison before ident good) {x : α} {p s : List α}
    (h : InOrder before ident good (p ++ s)) (hgood : good x)
    (hx : ∀ a ∈ p ++ s, ident a ≠ ident x) (hp : ∀ a ∈ p.getLast?, before a x)
    (hs : ∀ a ∈ s.head?, before x a) : InOrder before ident good (p ++ x :: s) := by
  obtain ⟨hpsorted, hssorted, hps⟩ := List.pairwise_append.mp h.sorted
  have hgoodp : ∀ a ∈ p, good a := fun a ha => h.good a (List.mem_append_left _ ha)
  have hgoods : ∀ a ∈ s, good a := fun a ha => h.good a (List.mem_append_right _ ha)
  have hleft : ∀ a ∈ p, before a x := by
    intro a ha
    rcases List.eq_nil_or_concat' p with rfl | ⟨q, b, rfl⟩
    · exact absurd ha List.not_mem_nil
    · have hb : before b x := hp b List.getLast?_concat
      rcases List.mem_append.mp ha with haq | hab
      · have hab := (List.pairwise_append.mp hpsorted).2.2 a haq b (List.mem_singleton_self b)
        exact hbefore.trans a b x (hgoodp a ha) (hgoodp b (by simp)) hgood hab hb
      · obtain rfl := List.mem_singleton.mp hab
        exact hb
  have hright : ∀ a ∈ s, before x a := by
    intro a ha
    cases s with
    | nil => exact absurd ha List.not_mem_nil
    | cons b s =>
      have hb : before x b := hs b rfl
      rcases List.mem_cons.mp ha with rfl | has
      · exact hb
      · exact hbefore.trans x b a hgood (hgoods b List.mem_cons_self) (hgoods a ha) hb
          (List.rel_of_pairwise_cons hssorted has)
  refine ⟨?_, ?_, ?_⟩
  · refine List.pairwise_append.mpr ⟨hpsorted, List.pairwise_cons.mpr ⟨hright, hssorted⟩, ?_⟩
    intro a ha b hb
    rcases List.mem_cons.mp hb with rfl | hb
    · exact hleft a ha
    · exact hps a ha b hb
  · intro a ha
    rcases List.mem_append.mp ha with ha | ha
    · exact hgoodp a ha
    · rcases List.mem_cons.mp ha with rfl | ha
      · exact hgood
      · exact hgoods a ha
  · have hfresh : ident x ∉ (p ++ s).map ident := by
      rw [List.mem_map]
      rintro ⟨a, ha, heq⟩
      exact hx a ha heq
    rw [List.map_append, List.map_cons]
    rw [List.map_append] at hfresh
    refine List.nodup_middle.mpr (List.nodup_cons.mpr ⟨hfresh, ?_⟩)
    rw [← List.map_append]
    exact h.distinct

theorem InOrder.erase {x : α} {p s : List α} (h : InOrder before ident good (p ++ x :: s)) :
    InOrder before ident good (p ++ s) ∧ ∀ a ∈ p ++ s, ident a ≠ ident x := by
  have hsub : (p ++ s).Sublist (p ++ x :: s) :=
    List.Sublist.append_left (List.sublist_cons_self x s) p
  refine ⟨⟨h.sorted.sublist hsub, fun a ha => h.good a (hsub.subset ha),
    h.distinct.sublist (hsub.map ident)⟩, ?_⟩
  have hdistinct := h.distinct
  rw [List.map_append, List.map_cons, List.nodup_middle, List.nodup_cons] at hdistinct
  intro a ha heq
  rw [← List.map_append] at hdistinct
  exact hdistinct.1 (heq ▸ List.mem_map_of_mem ha)

variable [DecidableRel before]

theorem TreePlacement.placedAt {x : α} {l l' : List α} (h : TreePlacement before x l l') :
    ∃ p s, l = p ++ s ∧ PlacedAt before x p s l' := by
  obtain ⟨t⟩ := h
  exact inorder_descend before x t

/-- The other elements keep their order. -/
theorem Repositions.placedAt (hbefore : Comparison before ident good) {x : α} {p s l : List α}
    (hx : ∀ a ∈ p ++ s, ident a ≠ ident x) (h : Repositions before x p s l) :
    ∃ p' s', p ++ s = p' ++ s' ∧ l = p' ++ x :: s' ∧ (∀ a ∈ p'.getLast?, before a x) ∧
      ∀ a ∈ s'.head?, before x a := by
  cases h with
  | stay hp hs => exact ⟨p, s, rfl, rfl, hp, hs⟩
  | again _ hplaces =>
    obtain ⟨p', s', heq, hl, hleft, hright⟩ := hplaces.placedAt
    refine ⟨p', s', heq, hl, fun a ha => ?_, hright⟩
    have hne := hx a (heq ▸ List.mem_append_left _ (List.mem_of_getLast? ha))
    exact (hbefore.total a x hne).resolve_right (hleft a ha)

/-- Every change leaves the index in order. -/
theorem Performs.inOrder (hbefore : Comparison before ident good) {c : Edit α} {l l' : List α}
    (h : Performs before c l l') (hc : Admissible ident good c l)
    (hl : InOrder before ident good l) : InOrder before ident good l' := by
  cases h with
  | insert hplaces =>
    obtain ⟨hgood, hfresh⟩ := hc
    obtain ⟨p, s, rfl, rfl, hleft, hright⟩ := hplaces.placedAt
    refine hl.insert hbefore hgood hfresh (fun a ha => ?_) hright
    have hne := hfresh a (List.mem_append_left _ (List.mem_of_getLast? ha))
    exact (hbefore.total a _ hne).resolve_right (hleft a ha)
  | modify hmoves =>
    obtain ⟨hgood, hident⟩ := hc
    obtain ⟨hrest, hfresh⟩ := hl.erase
    rw [← hident] at hfresh
    obtain ⟨p', s', heq, rfl, hp, hs⟩ := hmoves.placedAt hbefore hfresh
    rw [heq] at hrest hfresh
    exact hrest.insert hbefore hgood hfresh hp hs
  | remove => exact hl.erase.1
  | close hmoves =>
    obtain ⟨hrest, hfresh⟩ := hl.erase
    rw [← show ident _ = ident _ from hc] at hfresh
    obtain ⟨p', s', heq, hl', -, -⟩ := hmoves.placedAt hbefore hfresh
    rw [heq] at hfresh hrest
    -- what is removed is where it has been placed
    obtain ⟨rfl, -, rfl⟩ := (List.append_cons_inj_of_notMem
      (fun h => hfresh _ (List.mem_append_left _ h) rfl)
      (fun h => hfresh _ (List.mem_append_right _ h) rfl)).mp hl'.symm
    exact hrest

/-- An element that belongs there and is new is placed in a tree of the index. -/
theorem admissible_insert {l l' : List α} (x : α) (t : BinaryTree α)
    (hgood : good x) (hnew : ∀ a ∈ l, ident a ≠ ident x) (hl : inorder t = l)
    (hl' : inorder (descend before x t) = l') :
    Admissible ident good (.insert x) l ∧ Performs before (.insert x) l l' := by
  subst hl hl'
  exact ⟨⟨hgood, hnew⟩, .insert (.descend t)⟩

/-- The changes of one index. -/
def EditStep (before : α → α → Prop) [DecidableRel before] (ident : α → Nat) (good : α → Prop)
    (l l' : List α) : Prop := ∃ c, Admissible ident good c l ∧ Performs before c l l'

theorem inOrder_run (hbefore : Comparison before ident good) {l l' : List α}
    (h : Relation.ReflTransGen (EditStep before ident good) l l')
    (hl : InOrder before ident good l) : InOrder before ident good l' := by
  induction h with
  | refl => exact hl
  | tail _ hstep ih =>
    obtain ⟨c, hc, hperform⟩ := hstep
    exact hperform.inOrder hbefore hc ih

end

end Nestchain.Lib
