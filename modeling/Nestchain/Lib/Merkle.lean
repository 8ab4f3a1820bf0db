import Mathlib.Data.List.Basic

/-! Trees that are built level by level: the elements of a level are combined in pairs, and an odd
last one is carried up as it is.  A combination that can be taken apart, and is never an element of
the bottom level, determines the whole bottom level, its length included. -/

namespace Nestchain.Lib

section

variable {α β : Type*}

/-- The next level. -/
def pairUp (f : β → β → β) : List β → List β
  | [] => []
  | [a] => [a]
  | a :: b :: rest => f a b :: pairUp f rest

theorem length_pairUp (f : β → β → β) (l : List β) :
    (pairUp f l).length = l.length / 2 + l.length % 2 := by
  induction l using pairUp.induct with
  | case1 => simp [pairUp]
  | case2 a => simp [pairUp]
  | case3 a b rest ih =>
    rw [pairUp, List.length_cons, ih, List.length_cons, List.length_cons]
    omega

theorem pairUp_map {f : α → α → α} {f' : β → β → β} {g : α → β}
    (hg : ∀ a b, g (f a b) = f' (g a) (g b)) (l : List α) :
    pairUp f' (l.map g) = (pairUp f l).map g := by
  induction l using pairUp.induct with
  | case1 => rfl
  | case2 a => rfl
  | case3 a b rest ih => rw [pairUp, List.map_cons, List.map_cons, List.map_cons, pairUp, ih, hg]

theorem pairUp_flatten (l : List (List α)) : (pairUp List.append l).flatten = l.flatten := by
  induction l using pairUp.induct with
  | case1 => rfl
  | case2 a => rfl
  | case3 a b rest ih =>
    rw [pairUp, List.flatten_cons, ih, List.flatten_cons, List.flatten_cons, ← List.append_assoc]
    rfl

/-- The element that the levels end in, unless the bottom level is empty. -/
def combine (f : β → β → β) : List β → Option β
  | [] => none
  | [a] => some a
  | a :: b :: rest => combine f (f a b :: pairUp f rest)
termination_by l => l.length
decreasing_by
  have hlength := length_pairUp f rest
  simp only [List.length_cons]
  omega

/-- A level has the element of the level above it. -/
theorem combine_pairUp (f : β → β → β) (l : List β) : combine f (pairUp f l) = combine f l := by
  match l with
  | [] => rfl
  | [a] => rfl
  | a :: b :: rest => rw [pairUp, combine]

theorem combine_map (f : α → α → α) (f' : β → β → β) (g : α → β)
    (hg : ∀ a b, g (f a b) = f' (g a) (g b)) (l : List α) :
    combine f' (l.map g) = (combine f l).map g := by
  induction l using combine.induct f with
  | case1 => simp only [List.map_nil, combine, Option.map_none]
  | case2 a => simp only [List.map_cons, List.map_nil, combine, Option.map_some]
  | case3 a b rest ih =>
    rw [combine, ← ih, List.map_cons, List.map_cons, List.map_cons, combine, hg, pairUp_map hg]

theorem combine_isSome (f : β → β → β) {l : List β} (h : l ≠ []) :
    ∃ a, combine f l = some a := by
  induction l using combine.induct f with
  | case1 => exact absurd rfl h
  | case2 a => exact ⟨a, by rw [combine]⟩
  | case3 a b rest ih =>
    rw [combine]
    exact ih (List.cons_ne_nil _ _)

/-- Lists end in their concatenation. -/
theorem combine_append {l : List (List α)} (h : l ≠ []) :
    combine List.append l = some l.flatten := by
  induction l using combine.induct List.append with
  | case1 => exact absurd rfl h
  | case2 a => rw [combine, List.flatten_singleton]
  | case3 a b rest ih =>
    rw [combine, ih (List.cons_ne_nil _ _)]
    exact congrArg some (pairUp_flatten (a :: b :: rest))

end

/-- A tree with digests at its leaves. -/
inductive MerkleTree (δ : Type*) where
  | leaf (d : δ)
  | node (left right : MerkleTree δ)

namespace MerkleTree

variable {δ : Type*} {pair : δ → δ → δ}

/-- The digest of a node is computed from the digests of its parts. -/
def root (pair : δ → δ → δ) : MerkleTree δ → δ
  | leaf d => d
  | node left right => pair (left.root pair) (right.root pair)

def leaves : MerkleTree δ → List δ
  | leaf d => [d]
  | node left right => left.leaves ++ right.leaves

/-- The tree over a list of digests. -/
def ofList (l : List δ) : Option (MerkleTree δ) := combine node (l.map leaf)

theorem ofList_eq_none {l : List δ} (h : ofList l = none) : l = [] := by
  by_contra hne
  obtain ⟨t, ht⟩ := combine_isSome node (show l.map leaf ≠ [] by simpa using hne)
  rw [ofList, ht] at h
  cases h

theorem ofList_root (pair : δ → δ → δ) (l : List δ) :
    (ofList l).map (root pair) = combine pair l := by
  rw [ofList, ← combine_map node pair (root pair) fun _ _ => rfl, List.map_map]
  exact congrArg (combine pair) (List.map_id l)

theorem ofList_leaves {l : List δ} {t : MerkleTree δ} (h : ofList l = some t) : t.leaves = l := by
  have hleaves := combine_map node List.append leaves (fun _ _ => rfl) (l.map leaf)
  have hne : l ≠ [] := by
    rintro rfl
    simp [ofList, combine] at h
  rw [combine_append (by simpa using hne), ← ofList, h, List.map_map] at hleaves
  have hsingle : ∀ l : List δ, (l.map (leaves ∘ leaf)).flatten = l := by
    intro l
    induction l with
    | nil => rfl
    | cons d l ih => rw [List.map_cons, List.flatten_cons, ih]; rfl
  rw [hsingle] at hleaves
  exact (Option.some.inj hleaves).symm

/-- Two trees with the same digest are the same. -/
theorem root_injective (hpair : ∀ a b c d, pair a b = pair c d → a = c ∧ b = d)
    {t t' : MerkleTree δ} (ht : ∀ d ∈ t.leaves, ∀ a b, pair a b ≠ d)
    (ht' : ∀ d ∈ t'.leaves, ∀ a b, pair a b ≠ d) (h : t.root pair = t'.root pair) : t = t' := by
  induction t generalizing t' with
  | leaf d =>
    cases t' with
    | leaf d' => exact congrArg leaf h
    | node left' right' => exact absurd h.symm (ht d (List.mem_singleton_self d) _ _)
  | node left right ihl ihr =>
    cases t' with
    | leaf d' => exact absurd h (ht' d' (List.mem_singleton_self d') _ _)
    | node left' right' =>
      obtain ⟨hl, hr⟩ := hpair _ _ _ _ h
      rw [ihl (fun d hd => ht d (List.mem_append_left _ hd))
          (fun d hd => ht' d (List.mem_append_left _ hd)) hl,
        ihr (fun d hd => ht d (List.mem_append_right _ hd))
          (fun d hd => ht' d (List.mem_append_right _ hd)) hr]

/-- The digest of the tree determines the list it is built over. -/
theorem ofList_injective (hpair : ∀ a b c d, pair a b = pair c d → a = c ∧ b = d)
    {l l' : List δ} (hl : ∀ d ∈ l, ∀ a b, pair a b ≠ d) (hl' : ∀ d ∈ l', ∀ a b, pair a b ≠ d)
    {t t' : MerkleTree δ} (ht : ofList l = some t) (ht' : ofList l' = some t')
    (h : t.root pair = t'.root pair) : l = l' := by
  have hleaves := ofList_leaves ht
  have hleaves' := ofList_leaves ht'
  obtain rfl := root_injective hpair (by rwa [hleaves]) (by rwa [hleaves']) h
  exact hleaves.symm.trans hleaves'

end MerkleTree

end Nestchain.Lib
