import Mathlib.Algebra.BigOperators.Group.List.Basic
import Mathlib.Algebra.Order.BigOperators.Group.List
import Mathlib.Algebra.Order.Group.Int
import Mathlib.Data.List.Find
import Mathlib.Tactic.Abel

/-! A table: records under numbers that it hands out in order.  The records of a table are added up
with `sum`, and each operation changes a sum by the records it writes and overwrites. -/

namespace Nestchain.Lib

/-- The records in the order of their ids, and the next id. -/
structure Table (α : Type) where
  rows : List (Nat × α)
  next : Nat
  sorted : rows.Pairwise (·.1 < ·.1)
  below : ∀ r ∈ rows, r.1 < next
deriving DecidableEq

namespace Table

variable {α : Type}

def empty : Table α := ⟨[], 0, List.Pairwise.nil, fun _ h => nomatch h⟩

def find (t : Table α) (id : Nat) : Option α := t.rows.lookup id

/-- The first record that satisfies `p`, with its id. -/
def findBy (t : Table α) (p : α → Bool) : Option (Nat × α) := t.rows.find? fun r => p r.2

def create (t : Table α) (a : α) : Table α where
  rows := t.rows ++ [(t.next, a)]
  next := t.next + 1
  sorted := by
    refine List.pairwise_append.mpr ⟨t.sorted, List.pairwise_singleton _ _, fun r hr s hs => ?_⟩
    obtain rfl := List.mem_singleton.mp hs
    exact t.below r hr
  below := by
    intro r hr
    rcases List.mem_append.mp hr with hr | hr
    · exact (t.below r hr).trans (Nat.lt_succ_self _)
    · obtain rfl := List.mem_singleton.mp hr
      exact Nat.lt_succ_self _

/-- The row `r` with the record `a` in it when its id is `id`. -/
def put (id : Nat) (a : α) (r : Nat × α) : Nat × α := if r.1 = id then (id, a) else r

theorem put_fst (id : Nat) (a : α) (r : Nat × α) : (put id a r).1 = r.1 := by
  unfold put
  split
  · rename_i h
    exact h.symm
  · rfl

def set (t : Table α) (id : Nat) (a : α) : Table α where
  rows := t.rows.map (put id a)
  next := t.next
  sorted := by
    rw [List.pairwise_map]
    exact t.sorted.imp fun h => by rwa [put_fst, put_fst]
  below := by
    intro r hr
    obtain ⟨s, hs, rfl⟩ := List.mem_map.mp hr
    rw [put_fst]
    exact t.below s hs

def remove (t : Table α) (id : Nat) : Table α where
  rows := t.rows.filter fun r => r.1 ≠ id
  next := t.next
  sorted := t.sorted.filter _
  below := fun r hr => t.below r (List.mem_of_mem_filter hr)

/-- Every record changed by a function. -/
def map (t : Table α) (f : α → α) : Table α where
  rows := t.rows.map fun r => (r.1, f r.2)
  next := t.next
  sorted := by
    rw [List.pairwise_map]
    exact t.sorted
  below := by
    intro r hr
    obtain ⟨s, hs, rfl⟩ := List.mem_map.mp hr
    exact t.below s hs

/-! ### Lookups -/

theorem lookup_eq_some {l : List (Nat × α)} (hl : l.Pairwise (·.1 < ·.1)) {id : Nat} {a : α} :
    l.lookup id = some a ↔ (id, a) ∈ l := by
  induction l with
  | nil => simp
  | cons r l ih =>
    obtain ⟨k, b⟩ := r
    obtain ⟨hr, hl⟩ := List.pairwise_cons.mp hl
    rw [List.lookup_cons, List.mem_cons]
    by_cases hk : id = k
    · subst hk
      have hout : (id, a) ∉ l := fun h => absurd (hr _ h) (Nat.lt_irrefl _)
      simp [hout, eq_comm]
    · have hk' : (id == k) = false := beq_false_of_ne hk
      simp only [hk', Prod.mk.injEq, hk, false_and, false_or]
      exact ih hl

theorem find_iff_mem {t : Table α} {id : Nat} {a : α} : t.find id = some a ↔ (id, a) ∈ t.rows :=
  lookup_eq_some t.sorted

theorem findBy_some {t : Table α} {p : α → Bool} {id : Nat} {a : α}
    (h : t.findBy p = some (id, a)) : t.find id = some a ∧ p a = true :=
  ⟨find_iff_mem.mpr (List.mem_of_find?_eq_some h), by simpa using List.find?_some h⟩

theorem findBy_none {t : Table α} {p : α → Bool} {id : Nat} {a : α} (h : t.findBy p = none)
    (ha : t.find id = some a) : ¬p a = true := by
  rw [findBy, List.find?_eq_none] at h
  exact h (id, a) (find_iff_mem.mp ha)

theorem find_lt {t : Table α} {id : Nat} {a : α} (h : t.find id = some a) : id < t.next :=
  t.below _ (find_iff_mem.mp h)

theorem find_create_iff {t : Table α} {a b : α} {id : Nat} :
    (t.create a).find id = some b ↔ t.find id = some b ∨ (id = t.next ∧ b = a) := by
  rw [find_iff_mem, find_iff_mem]
  show (id, b) ∈ t.rows ++ [(t.next, a)] ↔ _
  simp

theorem find_create_self (t : Table α) (a : α) : (t.create a).find t.next = some a :=
  find_create_iff.mpr (Or.inr ⟨rfl, rfl⟩)

theorem find_create_ne {t : Table α} {a : α} {id : Nat} (h : id ≠ t.next) :
    (t.create a).find id = t.find id := by
  refine Option.ext fun b => ?_
  rw [find_create_iff]
  simp [h]

theorem find_set_iff {t : Table α} {a b x : α} {id j : Nat} (h : t.find id = some x) :
    (t.set id a).find j = some b ↔ (j = id ∧ b = a) ∨ (j ≠ id ∧ t.find j = some b) := by
  rw [find_iff_mem, find_iff_mem]
  show (j, b) ∈ t.rows.map (put id a) ↔ _
  rw [List.mem_map]
  constructor
  · rintro ⟨⟨k, c⟩, hc, he⟩
    simp only [put] at he
    split at he
    · obtain ⟨rfl, rfl⟩ := Prod.mk.inj he
      exact Or.inl ⟨rfl, rfl⟩
    · rename_i hk
      obtain ⟨rfl, rfl⟩ := Prod.mk.inj he
      exact Or.inr ⟨hk, hc⟩
  · rintro (⟨rfl, rfl⟩ | ⟨hj, hb⟩)
    · exact ⟨(j, x), find_iff_mem.mp h, by simp [put]⟩
    · exact ⟨(j, b), hb, by simp [put, hj]⟩

theorem find_set_self {t : Table α} {a x : α} {id : Nat} (h : t.find id = some x) :
    (t.set id a).find id = some a :=
  (find_set_iff h).mpr (Or.inl ⟨rfl, rfl⟩)

theorem set_set (t : Table α) (id : Nat) (a b : α) : (t.set id a).set id b = t.set id b := by
  have hput : (put id b) ∘ (put id a) = put id b := by
    funext r
    by_cases hr : r.1 = id <;> simp [put, hr]
  simp only [set, List.map_map, hput]

theorem remove_set (t : Table α) (id : Nat) (a : α) : (t.set id a).remove id = t.remove id := by
  have hrows : (t.rows.map (put id a)).filter (fun r => decide (r.1 ≠ id)) =
      t.rows.filter fun r => decide (r.1 ≠ id) := by
    induction t.rows with
    | nil => rfl
    | cons r l ih =>
      rw [List.map_cons]
      by_cases hr : r.1 = id
      · rw [List.filter_cons_of_neg (by simpa [put_fst] using hr),
          List.filter_cons_of_neg (by simpa using hr), ih]
      · rw [List.filter_cons_of_pos (by simpa [put_fst] using hr),
          List.filter_cons_of_pos (by simpa using hr), ih, put, if_neg hr]
  simp only [remove, set, hrows]

theorem find_remove_iff {t : Table α} {b : α} {id j : Nat} :
    (t.remove id).find j = some b ↔ j ≠ id ∧ t.find j = some b := by
  rw [find_iff_mem, find_iff_mem]
  show (j, b) ∈ t.rows.filter _ ↔ _
  simp [and_comm]

/-- A record that is created and removed again. -/
theorem find_remove_create {t : Table α} {a b : α} {id : Nat} :
    ((t.create a).remove t.next).find id = some b ↔ t.find id = some b := by
  rw [find_remove_iff, find_create_iff]
  constructor
  · rintro ⟨hne, h | ⟨he, -⟩⟩
    · exact h
    · exact absurd he hne
  · intro h
    exact ⟨Nat.ne_of_lt (find_lt h), Or.inl h⟩

theorem find_remove_self (t : Table α) (id : Nat) : (t.remove id).find id = none := by
  cases h : (t.remove id).find id with
  | none => rfl
  | some b => exact absurd rfl (find_remove_iff.mp h).1

theorem find_set_ne {t : Table α} {a : α} {id j : Nat} (hj : j ≠ id) :
    (t.set id a).find j = t.find j := by
  refine Option.ext fun b => ?_
  rw [find_iff_mem, find_iff_mem]
  show (j, b) ∈ t.rows.map (put id a) ↔ _
  rw [List.mem_map]
  constructor
  · rintro ⟨⟨k, c⟩, hc, he⟩
    simp only [put] at he
    split at he
    · exact absurd (Prod.mk.inj he).1.symm hj
    · rw [← he]
      exact hc
  · intro hb
    exact ⟨(j, b), hb, by simp [put, hj]⟩

theorem find_remove_ne {t : Table α} {id j : Nat} (hj : j ≠ id) :
    (t.remove id).find j = t.find j := by
  refine Option.ext fun b => ?_
  rw [find_remove_iff]
  simp [hj]

theorem find_map (t : Table α) (f : α → α) (id : Nat) :
    (t.map f).find id = (t.find id).map f := by
  refine Option.ext fun b => ?_
  rw [find_iff_mem, Option.map_eq_some_iff]
  show (id, b) ∈ t.rows.map (fun r => (r.1, f r.2)) ↔ _
  rw [List.mem_map]
  constructor
  · rintro ⟨⟨k, a⟩, ha, he⟩
    obtain ⟨rfl, rfl⟩ := Prod.mk.inj he
    exact ⟨a, find_iff_mem.mpr ha, rfl⟩
  · rintro ⟨a, ha, rfl⟩
    exact ⟨(id, a), find_iff_mem.mp ha, rfl⟩

theorem findBy_create (t : Table α) (a : α) (p : α → Bool) :
    (t.create a).findBy p = (t.findBy p).or (if p a then some (t.next, a) else none) := by
  show (t.rows ++ [(t.next, a)]).find? _ = _
  rw [List.find?_append, findBy, List.find?_singleton]

/-- A record that is replaced by another on which `p` agrees. -/
theorem findBy_set {t : Table α} {id : Nat} {a x : α} {p : α → Bool} (hx : t.find id = some x)
    (hp : p a = p x) : (t.set id a).findBy p = (t.findBy p).map (put id a) := by
  show (t.rows.map (put id a)).find? _ = _
  rw [List.find?_map, findBy]
  congr 1
  refine List.find?_congr fun r hr => ?_
  by_cases hid : r.1 = id
  · have hr' : t.find id = some r.2 := find_iff_mem.mpr (hid ▸ hr)
    obtain rfl : x = r.2 := Option.some.inj (hx.symm.trans hr')
    simp [put, hid, hp]
  · simp [put, hid]

/-! ### Tables from lists -/

/-- The records of a list under the numbers from zero on. -/
def ofList (l : List α) : Table α := l.foldl create empty

theorem rows_foldl_create (l : List α) (t : Table α) :
    (l.foldl create t).rows = t.rows ++ (l.zipIdx t.next).map Prod.swap := by
  induction l generalizing t with
  | nil => simp
  | cons a l ih =>
    rw [List.foldl_cons, ih]
    simp [create]

theorem find_foldl_create {l : List α} {t : Table α} {id : Nat} {b : α}
    (h : (l.foldl create t).find id = some b) : t.find id = some b ∨ b ∈ l := by
  induction l generalizing t with
  | nil => exact Or.inl h
  | cons a l ih =>
    rcases ih h with h | h
    · rcases find_create_iff.mp h with h | ⟨-, rfl⟩
      · exact Or.inl h
      · exact Or.inr (List.mem_cons_self ..)
    · exact Or.inr (List.mem_cons_of_mem a h)

theorem rows_ofList (l : List α) : (ofList l).rows = l.zipIdx.map Prod.swap :=
  rows_foldl_create l empty

theorem find_ofList (l : List α) (id : Nat) : (ofList l).find id = l[id]? := by
  refine Option.ext fun a => ?_
  rw [find_iff_mem, rows_ofList, List.mem_map]
  constructor
  · rintro ⟨⟨b, j⟩, hmem, he⟩
    cases he
    exact List.mem_zipIdx_iff_getElem?.mp hmem
  · intro h
    exact ⟨(a, id), List.mem_zipIdx_iff_getElem?.mpr h, rfl⟩

/-! ### Records -/

/-- The records in the order of their ids. -/
def records (t : Table α) : List α := t.rows.map Prod.snd

@[simp] theorem records_create (t : Table α) (a : α) : (t.create a).records = t.records ++ [a] := by
  show (t.rows ++ [(t.next, a)]).map Prod.snd = _
  rw [List.map_append]
  rfl

theorem perm_filter_ne {l : List (Nat × α)} (hl : l.Pairwise (·.1 < ·.1)) {id : Nat} {x : α}
    (h : (id, x) ∈ l) : l.Perm ((id, x) :: l.filter fun r => r.1 ≠ id) := by
  induction l with
  | nil => cases h
  | cons r l ih =>
    obtain ⟨hr, hl⟩ := List.pairwise_cons.mp hl
    rcases List.mem_cons.mp h with rfl | h
    · have hall : l.filter (fun r => decide (r.1 ≠ id)) = l :=
        List.filter_eq_self.mpr fun s hs => by simpa using Nat.ne_of_gt (hr s hs)
      rw [List.filter_cons_of_neg (by simp), hall]
    · have hne : r.1 ≠ id := Nat.ne_of_lt (hr _ h)
      rw [List.filter_cons_of_pos (by simpa using hne)]
      exact ((ih hl h).cons r).trans (List.Perm.swap _ _ _)

theorem records_remove {t : Table α} {id : Nat} {x : α} (h : t.find id = some x) :
    t.records.Perm (x :: (t.remove id).records) :=
  (perm_filter_ne t.sorted (find_iff_mem.mp h)).map Prod.snd

theorem mem_records {t : Table α} {x : α} : x ∈ t.records ↔ ∃ id, t.find id = some x := by
  simp only [records, List.mem_map, Prod.exists, exists_eq_right, find_iff_mem]

/-! ### Sums -/

section

variable {M : Type} [AddCommGroup M]

/-- The sum of what `f` gives for each record. -/
def sum (t : Table α) (f : Nat → α → M) : M := (t.rows.map fun r => f r.1 r.2).sum

@[simp] theorem sum_empty (f : Nat → α → M) : (empty : Table α).sum f = 0 := rfl

theorem sum_create (t : Table α) (a : α) (f : Nat → α → M) :
    (t.create a).sum f = t.sum f + f t.next a := by
  show ((t.rows ++ [(t.next, a)]).map fun r => f r.1 r.2).sum = _
  rw [List.map_append, List.sum_append, List.map_singleton, List.sum_singleton]
  rfl

theorem sum_map (t : Table α) (g : α → α) (f : Nat → α → M) :
    (t.map g).sum f = t.sum fun id a => f id (g a) :=
  congrArg List.sum (List.map_map ..)

/-- The rows without the ids from `id` on are as they were. -/
theorem map_put_of_lt {l : List (Nat × α)} {id : Nat} {a : α} (h : ∀ r ∈ l, id < r.1) :
    l.map (put id a) = l := by
  refine (List.map_congr_left fun r hr => ?_).trans (List.map_id l)
  unfold put
  rw [if_neg (Nat.ne_of_gt (h r hr))]
  rfl

theorem sum_map_put {l : List (Nat × α)} (hl : l.Pairwise (·.1 < ·.1)) {id : Nat} {a x : α}
    (h : (id, x) ∈ l) (f : Nat → α → M) :
    ((l.map (put id a)).map fun r => f r.1 r.2).sum =
      (l.map fun r => f r.1 r.2).sum - f id x + f id a := by
  induction l with
  | nil => cases h
  | cons r l ih =>
    obtain ⟨hr, hl⟩ := List.pairwise_cons.mp hl
    simp only [List.map_cons, List.sum_cons]
    rcases List.mem_cons.mp h with rfl | h
    · rw [map_put_of_lt hr]
      simp only [put, if_true]
      abel
    · have hne : r.1 ≠ id := Nat.ne_of_lt (hr _ h)
      rw [ih hl h]
      simp only [put, if_neg hne]
      abel

theorem sum_set {t : Table α} {id : Nat} {a x : α} (h : t.find id = some x)
    (f : Nat → α → M) : (t.set id a).sum f = t.sum f - f id x + f id a :=
  sum_map_put t.sorted (find_iff_mem.mp h) f

theorem sum_filter_ne {l : List (Nat × α)} (hl : l.Pairwise (·.1 < ·.1)) {id : Nat} {x : α}
    (h : (id, x) ∈ l) (f : Nat → α → M) :
    ((l.filter fun r => r.1 ≠ id).map fun r => f r.1 r.2).sum =
      (l.map fun r => f r.1 r.2).sum - f id x := by
  induction l with
  | nil => cases h
  | cons r l ih =>
    obtain ⟨hr, hl⟩ := List.pairwise_cons.mp hl
    rcases List.mem_cons.mp h with rfl | h
    · have hall : l.filter (fun r => decide (r.1 ≠ id)) = l :=
        List.filter_eq_self.mpr fun s hs => by simpa using Nat.ne_of_gt (hr s hs)
      rw [List.filter_cons_of_neg (by simp), hall]
      simp
    · have hne : r.1 ≠ id := Nat.ne_of_lt (hr _ h)
      rw [List.filter_cons_of_pos (by simpa using hne)]
      simp only [List.map_cons, List.sum_cons]
      rw [ih hl h]
      abel

theorem sum_remove {t : Table α} {id : Nat} {x : α} (h : t.find id = some x)
    (f : Nat → α → M) : (t.remove id).sum f = t.sum f - f id x :=
  sum_filter_ne t.sorted (find_iff_mem.mp h) f

/-- A sum of zeros. -/
theorem sum_eq_zero {t : Table α} {f : Nat → α → M}
    (h : ∀ id a, t.find id = some a → f id a = 0) : t.sum f = 0 := by
  refine List.sum_eq_zero fun x hx => ?_
  obtain ⟨r, hr, rfl⟩ := List.mem_map.mp hx
  exact h r.1 r.2 (find_iff_mem.mpr hr)

theorem sum_of_find_none {t : Table α} (h : ∀ id, t.find id = none) (f : Nat → α → M) :
    t.sum f = 0 :=
  sum_eq_zero fun id a ha => by
    rw [h id] at ha
    cases ha

theorem sum_congr {t : Table α} {f g : Nat → α → M}
    (h : ∀ id a, t.find id = some a → f id a = g id a) : t.sum f = t.sum g := by
  refine congrArg List.sum (List.map_congr_left fun r hr => ?_)
  exact h r.1 r.2 (find_iff_mem.mpr hr)

/-- A sum of which only the record `k` is counted. -/
theorem sum_ite_eq (t : Table α) (k : Nat) (g : α → M) :
    (t.sum fun id a => if id = k then g a else 0) = ((t.find k).map g).getD 0 := by
  cases hk : t.find k with
  | none =>
    refine sum_eq_zero fun id a ha => if_neg ?_
    rintro rfl
    rw [hk] at ha
    cases ha
  | some x =>
    have hrest : ((t.remove k).sum fun id a => if id = k then g a else 0) = 0 :=
      sum_eq_zero fun id a ha => if_neg (find_remove_iff.mp ha).1
    rw [sum_remove hk, if_pos rfl, sub_eq_zero] at hrest
    exact hrest

/-- A sum through an additive map. -/
theorem map_sum {N : Type} [AddCommGroup N] (φ : M →+ N) (t : Table α) (f : Nat → α → M) :
    φ (t.sum f) = t.sum fun id a => φ (f id a) := by
  unfold sum
  rw [map_list_sum, List.map_map]
  rfl

theorem sum_ofList (l : List α) (f : α → M) :
    ((ofList l).sum fun _ a => f a) = (l.map f).sum := by
  unfold sum
  rw [rows_ofList, List.map_map]
  have hfst : l.zipIdx.map ((fun r => f r.2) ∘ Prod.swap) = (l.zipIdx.map Prod.fst).map f := by
    rw [List.map_map]
    rfl
  rw [hfst, List.zipIdx_map_fst]

theorem sum_neg (t : Table α) (f : Nat → α → M) : (t.sum fun id a => -f id a) = -t.sum f :=
  (map_sum negAddMonoidHom t f).symm

theorem sum_sub (t : Table α) (f g : Nat → α → M) :
    (t.sum fun id a => f id a - g id a) = t.sum f - t.sum g := by
  unfold sum
  induction t.rows with
  | nil => simp
  | cons r l ih =>
    simp only [List.map_cons, List.sum_cons, ih]
    abel

end

theorem sum_nonneg {t : Table α} {f : Nat → α → Int}
    (h : ∀ id a, t.find id = some a → 0 ≤ f id a) : 0 ≤ t.sum f := by
  refine List.sum_nonneg fun x hx => ?_
  obtain ⟨r, hr, rfl⟩ := List.mem_map.mp hx
  exact h r.1 r.2 (find_iff_mem.mpr hr)

/-- One record is at most the sum. -/
theorem le_sum {t : Table α} {f : Nat → α → Int} {id : Nat} {a : α} (ha : t.find id = some a)
    (h : ∀ j b, t.find j = some b → 0 ≤ f j b) : f id a ≤ t.sum f := by
  have hrest : 0 ≤ (t.remove id).sum f :=
    sum_nonneg fun j b hb => h j b (find_remove_iff.mp hb).2
  rw [sum_remove ha] at hrest
  exact Int.sub_nonneg.mp hrest

end Table

end Nestchain.Lib
