import Mathlib.Data.Finmap
import Mathlib.Data.Finset.Sort
import Mathlib.Data.Prod.Lex

/-! The indexes of `graphene::db`: the objects of all indexes by id, the next id of each index, and
the operations of `generic_index` and `bdb_index` on them.  An index is a
`boost::multi_index_container` whose first key is the object id; its other unique keys are given by
a `Schema`.  An insert that violates a unique key fails, and a modify that violates one erases the
element. -/

namespace Nestchain.Db

/-- The space and the type of an object id, which select the object's index. -/
structure IndexId where
  space : Nat
  type : Nat
deriving DecidableEq

/-- `object_id_type`: the index of an object and its instance number there. -/
structure ObjectId where
  index : IndexId
  number : Nat
deriving DecidableEq

def ObjectId.rank (a : ObjectId) : ℕ ×ₗ ℕ ×ₗ ℕ :=
  toLex (a.index.space, toLex (a.index.type, a.number))

theorem ObjectId.rank_injective : Function.Injective ObjectId.rank := by
  rintro ⟨⟨s, t⟩, n⟩ ⟨⟨s', t'⟩, n'⟩ h
  obtain ⟨hs, h⟩ := Prod.mk.inj (toLex.injective h)
  obtain ⟨ht, hn⟩ := Prod.mk.inj (toLex.injective h)
  simp only at hs ht hn
  subst hs ht hn
  rfl

instance : LinearOrder ObjectId := LinearOrder.lift' ObjectId.rank ObjectId.rank_injective

def sorted (m : Finset ObjectId) : List ObjectId := m.sort (· ≤ ·)

@[simp] theorem mem_sorted {m : Finset ObjectId} {a : ObjectId} : a ∈ sorted m ↔ a ∈ m :=
  Finset.mem_sort _

theorem sorted_nodup (m : Finset ObjectId) : (sorted m).Nodup := Finset.sort_nodup m _

theorem mem_of_lookup {α V : Type} [DecidableEq α] {m : Finmap fun _ : α => V} {a : α} {v : V}
    (h : m.lookup a = some v) : a ∈ m :=
  Finmap.mem_iff.mpr ⟨v, h⟩

/-- The indexes that a database has added: the unique secondary keys of each, as functions of the
object, and whether the objects live in a Berkeley DB file (`is_external_db`), which has no unique
secondary keys. -/
structure Schema (V K : Type) where
  uniqueKeys : IndexId → List (ObjectId → V → K)
  isExternalDb : IndexId → Bool
  external_keys : ∀ i, isExternalDb i = true → uniqueKeys i = []

/-- The objects of all indexes and the `_next_id` of each index. -/
@[ext]
structure Store (V : Type) where
  objects : Finmap fun _ : ObjectId => V
  nextId : IndexId → Nat

section

variable {V K : Type} [DecidableEq K] (sch : Schema V K)

/-- Two objects of one index agree on one of its unique secondary keys. -/
def Schema.SharesKey (a : ObjectId) (v : V) (b : ObjectId) (w : V) : Prop :=
  a.index = b.index ∧ ∃ k ∈ sch.uniqueKeys a.index, k a v = k b w

instance (a : ObjectId) (v : V) (b : ObjectId) (w : V) : Decidable (sch.SharesKey a v b w) :=
  inferInstanceAs (Decidable (_ ∧ _))

omit [DecidableEq K] in
theorem Schema.SharesKey.symm {a b : ObjectId} {v w : V} (h : sch.SharesKey a v b w) :
    sch.SharesKey b w a v := by
  obtain ⟨hi, k, hk, he⟩ := h
  exact ⟨hi.symm, k, hi ▸ hk, he.symm⟩

/-- An object other than `a` holds one of the unique keys that `a` has at the value `v`. -/
def Store.Conflict (s : Store V) (a : ObjectId) (v : V) : Prop :=
  ∃ b ∈ s.objects.keys, b ≠ a ∧ ∃ w ∈ s.objects.lookup b, sch.SharesKey a v b w

instance (s : Store V) (a : ObjectId) (v : V) : Decidable (s.Conflict sch a v) :=
  inferInstanceAs (Decidable (∃ b ∈ s.objects.keys, _))

omit [DecidableEq K] in
theorem Store.conflict_iff {s : Store V} {a : ObjectId} {v : V} :
    s.Conflict sch a v ↔
      ∃ b w, s.objects.lookup b = some w ∧ b ≠ a ∧ sch.SharesKey a v b w := by
  constructor
  · rintro ⟨b, -, hne, w, hw, hk⟩
    exact ⟨b, w, hw, hne, hk⟩
  · rintro ⟨b, w, hw, hne, hk⟩
    exact ⟨b, Finmap.mem_keys.mpr (mem_of_lookup hw), hne, w, hw, hk⟩

/-- `insert` of an object: an in-memory index refuses an id or a unique key that is taken, and a
Berkeley DB index puts the object over what is there. -/
def Store.insert (s : Store V) (a : ObjectId) (v : V) : Option (Store V) :=
  if sch.isExternalDb a.index = false ∧ (a ∈ s.objects ∨ s.Conflict sch a v) then none
  else some { s with objects := s.objects.insert a v }

/-- `create`: the constructor `f` runs on an object with the next id of index `i`, which is used up
when the insert succeeds. -/
def Store.create (s : Store V) (i : IndexId) (f : ObjectId → V) : Option (Store V) :=
  (s.insert sch ⟨i, s.nextId i⟩ (f ⟨i, s.nextId i⟩)).map fun s' =>
    { s' with nextId := Function.update s'.nextId i (s.nextId i + 1) }

/-- `modify` of the object with id `a`: whether it succeeds, and the store it leaves. -/
def Store.modify (s : Store V) (a : ObjectId) (f : V → V) : Bool × Store V :=
  match s.objects.lookup a with
  | none => (false, s)
  | some v =>
    if s.Conflict sch a (f v) then (false, { s with objects := s.objects.erase a })
    else (true, { s with objects := s.objects.insert a (f v) })

/-- `remove` of the object with id `a`: whether it is there, and the store without it. -/
def Store.remove (s : Store V) (a : ObjectId) : Bool × Store V :=
  if a ∈ s.objects then (true, { s with objects := s.objects.erase a }) else (false, s)

/-- What every index keeps: its unique keys are unique, and the ids of its objects are below its
next id. -/
structure Store.WellFormed (s : Store V) : Prop where
  unique : ∀ a v, s.objects.lookup a = some v → ¬s.Conflict sch a v
  fresh : ∀ a ∈ s.objects, a.number < s.nextId a.index

end

/-! ### The effect of each operation on a well-formed store -/

section Effects

variable {V K : Type} [DecidableEq K] {sch : Schema V K} {s s' : Store V} {a : ObjectId}

theorem Store.insert_eq {v : V} (h : s.insert sch a v = some s') :
    s' = { s with objects := s.objects.insert a v } := by
  unfold Store.insert at h
  split at h
  · cases h
  · exact (Option.some.inj h).symm

theorem Store.insert_no_conflict {v : V} (h : s.insert sch a v = some s') :
    ¬s.Conflict sch a v := by
  unfold Store.insert at h
  split at h
  · cases h
  · rename_i hc
    intro hcon
    cases hx : sch.isExternalDb a.index with
    | false => exact hc ⟨hx, Or.inr hcon⟩
    | true =>
      obtain ⟨b, -, -, w, -, -, k, hk, -⟩ := hcon
      rw [sch.external_keys _ hx] at hk
      cases hk

theorem Store.insert_free {v : V} (ha : a ∉ s.objects) (hc : ¬s.Conflict sch a v) :
    s.insert sch a v = some { s with objects := s.objects.insert a v } := by
  unfold Store.insert
  rw [if_neg]
  rintro ⟨-, h | h⟩
  · exact ha h
  · exact hc h

theorem Store.create_eq {i : IndexId} {f : ObjectId → V} (h : s.create sch i f = some s') :
    s' = { objects := s.objects.insert ⟨i, s.nextId i⟩ (f ⟨i, s.nextId i⟩)
           nextId := Function.update s.nextId i (s.nextId i + 1) } := by
  unfold Store.create at h
  obtain ⟨s1, h1, rfl⟩ := Option.map_eq_some_iff.mp h
  rw [Store.insert_eq h1]

theorem Store.create_no_conflict {i : IndexId} {f : ObjectId → V}
    (h : s.create sch i f = some s') :
    ¬s.Conflict sch ⟨i, s.nextId i⟩ (f ⟨i, s.nextId i⟩) := by
  obtain ⟨s1, h1, -⟩ := Option.map_eq_some_iff.mp h
  exact Store.insert_no_conflict h1

theorem Store.modify_eq {f : V → V} (h : s.modify sch a f = (true, s')) :
    ∃ v, s.objects.lookup a = some v ∧ ¬s.Conflict sch a (f v) ∧
      s' = { s with objects := s.objects.insert a (f v) } := by
  unfold Store.modify at h
  split at h
  · cases h
  · rename_i v hv
    split at h
    · cases h
    · rename_i hc
      exact ⟨v, hv, hc, (Prod.mk.inj h).2.symm⟩

theorem Store.modify_of_lookup {f : V → V} {v : V} (hv : s.objects.lookup a = some v)
    (hc : ¬s.Conflict sch a (f v)) :
    s.modify sch a f = (true, { s with objects := s.objects.insert a (f v) }) := by
  simp only [Store.modify, hv, if_neg hc]

omit [DecidableEq K] in
theorem Store.remove_eq (h : s.remove a = (true, s')) :
    a ∈ s.objects ∧ s' = { s with objects := s.objects.erase a } := by
  unfold Store.remove at h
  split at h
  · rename_i ha
    exact ⟨ha, (Prod.mk.inj h).2.symm⟩
  · cases h

end Effects

/-! ### Keeping a store well formed -/

section WellFormed

variable {V K : Type} {sch : Schema V K} {s : Store V}

theorem Store.le_update_nextId (s : Store V) (i j : IndexId) :
    s.nextId j ≤ Function.update s.nextId i (s.nextId i + 1) j := by
  by_cases h : j = i
  · subst h
    simp
  · rw [Function.update_of_ne h]

/-- The effect of an insert or of a replacement on the well-formedness of a store: the object's own
keys are free, and its id is below the next id. -/
theorem Store.WellFormed.insert (h : s.WellFormed sch) {a : ObjectId} {v : V}
    {next : IndexId → Nat} (hc : ¬s.Conflict sch a v) (hle : ∀ i, s.nextId i ≤ next i)
    (ha : a.number < next a.index) :
    Store.WellFormed sch { objects := s.objects.insert a v, nextId := next } := by
  refine ⟨fun b w hb hconf => ?_, fun b hb => ?_⟩
  · obtain ⟨c, x, hx, hne, hk⟩ := (Store.conflict_iff sch).mp hconf
    simp only at hb hx
    by_cases hba : b = a
    · subst hba
      rw [Finmap.lookup_insert_of_ne _ hne] at hx
      obtain rfl : v = w := by simpa using hb
      exact hc ((Store.conflict_iff sch).mpr ⟨c, x, hx, hne, hk⟩)
    · rw [Finmap.lookup_insert_of_ne _ hba] at hb
      by_cases hca : c = a
      · subst hca
        obtain rfl : v = x := by simpa using hx
        exact hc ((Store.conflict_iff sch).mpr ⟨b, w, hb, hba, hk.symm⟩)
      · rw [Finmap.lookup_insert_of_ne _ hca] at hx
        exact h.unique b w hb ((Store.conflict_iff sch).mpr ⟨c, x, hx, hne, hk⟩)
  · rcases Finmap.mem_insert.mp hb with rfl | hb
    · exact ha
    · exact (h.fresh b hb).trans_le (hle b.index)

theorem Store.WellFormed.erase (h : s.WellFormed sch) (a : ObjectId) :
    Store.WellFormed sch { s with objects := s.objects.erase a } := by
  have hsub : ∀ {b w}, (s.objects.erase a).lookup b = some w → s.objects.lookup b = some w := by
    intro b w hb
    by_cases hba : b = a
    · subst hba
      simp at hb
    · rwa [Finmap.lookup_erase_ne hba] at hb
  refine ⟨fun b w hb hconf => ?_, fun b hb => h.fresh b (Finmap.mem_erase.mp hb).2⟩
  obtain ⟨c, x, hx, hne, hk⟩ := (Store.conflict_iff sch).mp hconf
  exact h.unique b w (hsub hb) ((Store.conflict_iff sch).mpr ⟨c, x, hsub hx, hne, hk⟩)

end WellFormed

end Nestchain.Db
