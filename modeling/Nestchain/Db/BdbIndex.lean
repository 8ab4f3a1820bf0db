import Nestchain.Db.Undo
import Nestchain.Lib.Btree

/-! `primary_index<bdb_index<T>>`: the objects of an index in a Berkeley DB file, under their ids
and beside two metadata records, and the in-memory index that it stands for. -/

namespace Nestchain.Db

open Nestchain.Lib

/-- A `uint64_t` read as an `int64_t`. -/
def signed (k : Nat) : Int :=
  if k < 2 ^ 63 then k else k - 2 ^ 64

/-- `object_id_comp`: the sign of the difference, which is taken in 64 bits. -/
def objectIdComp (k1 k2 : Nat) : Int :=
  let ii := signed ((k1 + 2 ^ 64 - k2) % 2 ^ 64)
  if ii > 0 then 1 else if ii = 0 then 0 else -1

/-- `_BDB_DATA_VERSION`. -/
def dataVersionKey : Nat := 2 ^ 64 - 1

/-- `_BDB_NEXT_ID`. -/
def nextIdKey : Nat := 2 ^ 64 - 2

/-- The object class of an index.  `pack` and `unpack` are those of `fc::raw`; the spaces in use are
far below 127, from where the comparison with a metadata key overflows. -/
structure ObjectType (V : Type) where
  index : IndexId
  space_lt : index.space < 127
  type_lt : index.type < 256
  pack : ObjectId × V → List UInt8
  unpack : List UInt8 → Option (ObjectId × V)
  unpack_pack : ∀ n < 2 ^ 48, ∀ v, unpack (pack (⟨index, n⟩, v)) = some (⟨index, n⟩, v)
  version : List UInt8

/-- The id of instance `n`. -/
def ObjectType.id {V : Type} (T : ObjectType V) (n : Nat) : ObjectId := ⟨T.index, n⟩

/-- `object_id_type::number` of instance `n`. -/
def ObjectType.key {V : Type} (T : ObjectType V) (n : Nat) : Nat :=
  T.index.space * 2 ^ 56 + T.index.type * 2 ^ 48 + n

/-- The bytes of a `uint64_t`. -/
def numberBytes (k : Nat) : List UInt8 :=
  (List.range 8).map fun j => UInt8.ofNat (k / 256 ^ j)

/-- The file and the instance of `_next_id`. -/
structure BdbIndex where
  file : List (Nat × List UInt8)
  nextId : Nat

def BdbIndex.empty : BdbIndex := ⟨[], 0⟩

/-- Instance numbers have 48 bits. -/
abbrev Instance := Fin (2 ^ 48)

/-- A call of `create_db`, `modify` of an object as it is stored, `insert`, `remove` of an object,
`remove` of an id (which `remove_db` calls too), or `save`. -/
inductive BdbOp (V : Type) where
  | create (f : ObjectId → V)
  | modify (n : Instance) (g : V → V)
  | insert (n : Instance) (v : V)
  | remove (n : Instance)
  | removeById (n : Instance)
  | save

/-- The index and the undo state of the session that its calls are recorded in. -/
structure BdbSession (V : Type) where
  index : BdbIndex
  undo : UndoState V

section Model

variable {V : Type} (T : ObjectType V) (s : BdbIndex)

/-- `find_db`: the object or a null pointer, or `none` when the data cannot be unpacked. -/
def BdbIndex.findDb (n : Nat) : Option (Option (ObjectId × V)) :=
  match Btree.get objectIdComp (T.key n) s.file with
  | none => some none
  | some data => (T.unpack data).map some

/-- `_bdb->put` of an object. -/
def BdbIndex.put (n : Nat) (o : ObjectId × V) : BdbIndex :=
  { s with file := Btree.put objectIdComp (T.key n) (T.pack o) s.file }

/-- `bdb_index::create_db`. -/
def BdbIndex.create (f : ObjectId → V) : BdbIndex :=
  { s.put T s.nextId (T.id s.nextId, f (T.id s.nextId)) with nextId := s.nextId + 1 }

/-- `bdb_index::insert`. -/
def BdbIndex.insert (n : Nat) (v : V) : BdbIndex :=
  s.put T n (T.id n, v)

/-- `bdb_index::modify`. -/
def BdbIndex.modify (n : Nat) (g : V → V) : Option BdbIndex := do
  let data ← Btree.get objectIdComp (T.key n) s.file
  let o ← T.unpack data
  return s.put T n (o.1, g o.2)

/-- `bdb_index::remove`, which throws when the key is not in the file. -/
def BdbIndex.remove (n : Nat) : Option BdbIndex :=
  if (Btree.get objectIdComp (T.key n) s.file).isSome then
    some { s with file := Btree.del objectIdComp (T.key n) s.file }
  else none

/-- `save`: `save_next_id` and `save_data_version`. -/
def BdbIndex.save : BdbIndex :=
  { s with
    file := Btree.put objectIdComp dataVersionKey T.version
      (Btree.put objectIdComp nextIdKey (numberBytes (T.key s.nextId)) s.file) }

/-- `open_cursor` with `DB_SET_RANGE`, and the objects that the cursor goes through from there with
`DB_NEXT`; `none` when one cannot be unpacked. -/
def BdbIndex.openCursor (n : Nat) : Option (List (ObjectId × V)) :=
  (Btree.setRange objectIdComp (T.key n) s.file).mapM fun e => T.unpack e.2

/-- Iteration from `lower_bound`. -/
def BdbIndex.lowerBound (n : Nat) : Option (List (ObjectId × V)) := s.openCursor T n

/-- Iteration from `upper_bound`, which opens the same cursor. -/
def BdbIndex.upperBound (n : Nat) : Option (List (ObjectId × V)) := s.openCursor T n

/-- A call on `primary_index<bdb_index>` and what it records for undo. -/
def BdbSession.exec (r : BdbSession V) : BdbOp V → Option (BdbSession V)
  | .create f => some ⟨r.index.create T f, r.undo.onCreate (T.id r.index.nextId)⟩
  | .modify n g => do
    let o ← (r.index.findDb T n).join
    let s ← r.index.modify T n g
    return ⟨s, r.undo.onModify (T.id n) o.2⟩
  | .insert n v => some ⟨r.index.insert T n v, r.undo.onCreate (T.id n)⟩
  | .remove n => do
    let o ← (r.index.findDb T n).join
    let s ← r.index.remove T n
    return ⟨s, r.undo.onRemove (T.id n) o.2⟩
  | .removeById n => do
    let s ← r.index.remove T n
    return ⟨s, r.undo⟩
  | .save => some ⟨r.index.save T, r.undo⟩

def BdbSession.run (r : BdbSession V) : List (BdbOp V) → Option (BdbSession V)
  | [] => some r
  | op :: ops => (r.exec T op).bind fun r' => r'.run ops

/-- The body of `undo_database::undo` for the objects of this index: what fails in the first two
loops is caught and logged. -/
def BdbIndex.undo (ord : IterationOrder V) (u : UndoState V) : BdbIndex :=
  let changed := (ord.values u.oldValues).foldl
    (fun s item => (s.modify T item.1.number fun _ => item.2).getD s) s
  let kept := (ord.ids u.newIds).foldl (fun s a => (s.remove T a.number).getD s) changed
  let renumbered :=
    match u.oldIndexNextIds.lookup T.index with
    | some a => { kept with nextId := a.number }
    | none => kept
  (ord.values u.removed).foldl (fun s item => s.insert T item.1.number item.2) renumbered

/-- The number of ids that a sequence of calls uses. -/
def BdbOp.creates : List (BdbOp V) → Nat
  | [] => 0
  | .create _ :: ops => creates ops + 1
  | _ :: ops => creates ops

/-- The states of an index: it starts empty, and then come sessions that are kept or undone.
Instance numbers have 48 bits (`object_id_type` refuses longer ones), so no more ids are used. -/
inductive BdbIndex.Reachable : BdbIndex → Prop
  | empty : Reachable .empty
  | run {s : BdbIndex} {ops : List (BdbOp V)} {r : BdbSession V} :
    Reachable s → s.nextId + BdbOp.creates ops ≤ 2 ^ 48 →
    (BdbSession.mk s .empty).run T ops = some r → Reachable r.index
  | undo {s : BdbIndex} {ops : List (BdbOp V)} {r : BdbSession V} (ord : IterationOrder V) :
    Reachable s → s.nextId + BdbOp.creates ops ≤ 2 ^ 48 →
    (BdbSession.mk s .empty).run T ops = some r → Reachable (r.index.undo T ord r.undo)

end Model

/-! ### The order of the keys -/

def IsKey (k : Nat) : Prop :=
  k < 127 * 2 ^ 56 ∨ k = dataVersionKey ∨ k = nextIdKey

theorem signed_sub {a b : Nat} (ha : IsKey a) (hb : IsKey b) :
    signed ((a + 2 ^ 64 - b) % 2 ^ 64) = signed a - signed b := by
  unfold IsKey dataVersionKey nextIdKey at ha hb
  by_cases hab : b ≤ a
  · have hmod : (a + 2 ^ 64 - b) % 2 ^ 64 = a - b := by omega
    rw [hmod]
    unfold signed
    split_ifs <;> omega
  · have hmod : (a + 2 ^ 64 - b) % 2 ^ 64 = a + 2 ^ 64 - b := by omega
    rw [hmod]
    unfold signed
    split_ifs <;> omega

theorem signed_injective {a b : Nat} (ha : IsKey a) (hb : IsKey b) (h : signed a = signed b) :
    a = b := by
  unfold IsKey dataVersionKey nextIdKey at ha hb
  unfold signed at h
  split_ifs at h <;> omega

theorem objectIdComp_ranks : Btree.Ranks objectIdComp IsKey signed where
  lt := by
    intro a b ha hb
    unfold objectIdComp
    simp only [signed_sub ha hb]
    split_ifs <;> omega
  eq := by
    intro a b ha hb
    unfold objectIdComp
    simp only [signed_sub ha hb]
    constructor
    · intro h
      refine signed_injective ha hb ?_
      split_ifs at h <;> omega
    · rintro rfl
      simp
  injective := signed_injective

section Represents

variable {V : Type} {T : ObjectType V} {n m : Nat}

theorem ObjectType.unpack_pack_id (hn : n < 2 ^ 48) (v : V) :
    T.unpack (T.pack (T.id n, v)) = some (T.id n, v) :=
  T.unpack_pack n hn v

theorem ObjectType.isKey_key (hn : n < 2 ^ 48) : IsKey (T.key n) := by
  have hs := T.space_lt
  have ht := T.type_lt
  unfold ObjectType.key
  exact Or.inl (by omega)

theorem ObjectType.key_inj (h : T.key n = T.key m) : n = m := by
  unfold ObjectType.key at h
  omega

theorem ObjectType.signed_key (hn : n < 2 ^ 48) : signed (T.key n) = T.key n := by
  have hs := T.space_lt
  have ht := T.type_lt
  unfold signed ObjectType.key
  rw [if_pos (by omega)]

/-- The in-memory index: a map from instance numbers to objects, and the next id. -/
@[ext]
structure Memory (V : Type) where
  objects : Nat → Option V
  nextId : Nat

/-- The file holds the objects of the map, and nothing else but metadata. -/
structure BdbIndex.Represents (T : ObjectType V) (s : BdbIndex) (m : Memory V) : Prop where
  sorted : Btree.Sorted IsKey signed s.file
  stored : ∀ n v, m.objects n = some v → (T.key n, T.pack (T.id n, v)) ∈ s.file
  records : ∀ e ∈ s.file, (∃ n v, m.objects n = some v ∧ e = (T.key n, T.pack (T.id n, v))) ∨
    e.1 = dataVersionKey ∨ e.1 = nextIdKey
  bounded : ∀ n v, m.objects n = some v → n < 2 ^ 48
  nextId : s.nextId = m.nextId

def Memory.empty : Memory V := ⟨fun _ => none, 0⟩

/-- The map with an object put in, or taken out. -/
def Memory.set (m : Memory V) (n : Nat) (v : Option V) : Memory V :=
  { m with objects := Function.update m.objects n v }

theorem Memory.set_objects_self (m : Memory V) (n : Nat) (v : Option V) :
    (m.set n v).objects n = v :=
  Function.update_self ..

theorem Memory.set_objects_of_ne (m : Memory V) (v : Option V) {n k : Nat} (h : k ≠ n) :
    (m.set n v).objects k = m.objects k :=
  Function.update_of_ne h ..

variable {s : BdbIndex} {mem : Memory V}

theorem BdbIndex.represents_empty : BdbIndex.Represents T .empty .empty where
  sorted := .nil
  stored := fun _ _ h => (Option.some_ne_none _ h.symm).elim
  records := fun _ h => (List.not_mem_nil h).elim
  bounded := fun _ _ h => (Option.some_ne_none _ h.symm).elim
  nextId := rfl

theorem ObjectType.key_ne_metadata (hn : n < 2 ^ 48) :
    T.key n ≠ dataVersionKey ∧ T.key n ≠ nextIdKey := by
  have hs := T.space_lt
  have ht := T.type_lt
  unfold ObjectType.key dataVersionKey nextIdKey
  constructor <;> omega

theorem BdbIndex.Represents.mem_file (h : s.Represents T mem) (hn : n < 2 ^ 48)
    {data : List UInt8} :
    (T.key n, data) ∈ s.file ↔ ∃ v, mem.objects n = some v ∧ data = T.pack (T.id n, v) := by
  constructor
  · intro hmem
    obtain ⟨hversion, hnext⟩ := T.key_ne_metadata hn
    rcases h.records _ hmem with ⟨k, v, hv, he⟩ | he | he
    · obtain ⟨hkey, hdata⟩ := Prod.mk.inj he
      obtain rfl := T.key_inj hkey
      exact ⟨v, hv, hdata⟩
    · exact absurd he hversion
    · exact absurd he hnext
  · rintro ⟨v, hv, rfl⟩
    exact h.stored n v hv

theorem BdbIndex.Represents.get_eq (h : s.Represents T mem) (hn : n < 2 ^ 48) :
    Btree.get objectIdComp (T.key n) s.file =
      (mem.objects n).map fun v => T.pack (T.id n, v) := by
  refine Option.ext fun data => ?_
  rw [Btree.get_eq_some objectIdComp_ranks h.sorted (T.isKey_key hn), h.mem_file hn,
    Option.map_eq_some_iff]
  constructor
  · rintro ⟨v, hv, rfl⟩
    exact ⟨v, hv, rfl⟩
  · rintro ⟨v, hv, rfl⟩
    exact ⟨v, hv, rfl⟩

theorem BdbIndex.Represents.findDb_eq (h : s.Represents T mem) (hn : n < 2 ^ 48) :
    s.findDb T n = some ((mem.objects n).map fun v => (T.id n, v)) := by
  unfold BdbIndex.findDb
  rw [h.get_eq hn]
  cases mem.objects n with
  | none => rfl
  | some v =>
    show (T.unpack (T.pack (T.id n, v))).map some = _
    rw [T.unpack_pack_id hn]
    rfl

theorem BdbIndex.Represents.put (h : s.Represents T mem) (hn : n < 2 ^ 48) (v : V) :
    (s.put T n (T.id n, v)).Represents T (mem.set n (some v)) where
  sorted := h.sorted.put objectIdComp_ranks (T.isKey_key hn) _
  stored := by
    intro k w hk
    refine (Btree.mem_put objectIdComp_ranks h.sorted (T.isKey_key hn)).mpr ?_
    by_cases hkn : k = n
    · subst hkn
      rw [mem.set_objects_self] at hk
      obtain rfl := Option.some.inj hk
      exact Or.inl rfl
    · rw [mem.set_objects_of_ne _ hkn] at hk
      exact Or.inr ⟨h.stored k w hk, fun heq => hkn (T.key_inj heq)⟩
  records := by
    intro e he
    rcases (Btree.mem_put objectIdComp_ranks h.sorted (T.isKey_key hn)).mp he with rfl | ⟨he, hne⟩
    · exact Or.inl ⟨n, v, mem.set_objects_self n _, rfl⟩
    · rcases h.records e he with ⟨k, w, hk, rfl⟩ | hmeta
      · have hkn : k ≠ n := fun heq => hne (heq ▸ rfl)
        exact Or.inl ⟨k, w, (mem.set_objects_of_ne _ hkn).trans hk, rfl⟩
      · exact Or.inr hmeta
  bounded := by
    intro k w hk
    by_cases hkn : k = n
    · exact hkn ▸ hn
    · exact h.bounded k w ((mem.set_objects_of_ne _ hkn).symm.trans hk)
  nextId := h.nextId

theorem BdbIndex.Represents.del (h : s.Represents T mem) (hn : n < 2 ^ 48) :
    BdbIndex.Represents T { s with file := Btree.del objectIdComp (T.key n) s.file }
      (mem.set n none) where
  sorted := h.sorted.del
  stored := by
    intro k w hk
    have hkn : k ≠ n := by
      rintro rfl
      rw [mem.set_objects_self] at hk
      cases hk
    rw [mem.set_objects_of_ne _ hkn] at hk
    exact (Btree.mem_del objectIdComp_ranks h.sorted (T.isKey_key hn)).mpr
      ⟨h.stored k w hk, fun heq => hkn (T.key_inj heq)⟩
  records := by
    intro e he
    obtain ⟨he, hne⟩ := (Btree.mem_del objectIdComp_ranks h.sorted (T.isKey_key hn)).mp he
    rcases h.records e he with ⟨k, w, hk, rfl⟩ | hmeta
    · have hkn : k ≠ n := fun heq => hne (heq ▸ rfl)
      exact Or.inl ⟨k, w, (mem.set_objects_of_ne _ hkn).trans hk, rfl⟩
    · exact Or.inr hmeta
  bounded := by
    intro k w hk
    have hkn : k ≠ n := by
      rintro rfl
      rw [mem.set_objects_self] at hk
      cases hk
    exact h.bounded k w ((mem.set_objects_of_ne _ hkn).symm.trans hk)
  nextId := h.nextId

theorem BdbIndex.Represents.putMetadata (h : s.Represents T mem) {k : Nat}
    (hk : k = dataVersionKey ∨ k = nextIdKey) (data : List UInt8) :
    BdbIndex.Represents T { s with file := Btree.put objectIdComp k data s.file } mem where
  sorted := h.sorted.put objectIdComp_ranks (Or.inr hk) data
  stored := by
    intro n v hv
    refine (Btree.mem_put objectIdComp_ranks h.sorted (Or.inr hk)).mpr
      (Or.inr ⟨h.stored n v hv, fun heq => ?_⟩)
    obtain ⟨hversion, hnext⟩ := T.key_ne_metadata (h.bounded n v hv)
    have heq : T.key n = k := heq
    rcases hk with rfl | rfl
    · exact hversion heq
    · exact hnext heq
  records := by
    intro e he
    rcases (Btree.mem_put objectIdComp_ranks h.sorted (Or.inr hk)).mp he with rfl | ⟨he, -⟩
    · exact Or.inr hk
    · exact h.records e he
  bounded := h.bounded
  nextId := h.nextId

theorem BdbIndex.Represents.save (h : s.Represents T mem) : (s.save T).Represents T mem :=
  (h.putMetadata (Or.inr rfl) _).putMetadata (Or.inl rfl) _

theorem BdbIndex.Represents.create (h : s.Represents T mem) (hn : s.nextId < 2 ^ 48)
    (f : ObjectId → V) :
    (s.create T f).Represents T
      { mem.set mem.nextId (some (f (T.id mem.nextId))) with nextId := mem.nextId + 1 } := by
  have hput := h.put hn (f (T.id s.nextId))
  rw [h.nextId] at hput
  refine ⟨?_, ?_, ?_, hput.bounded, ?_⟩
  · unfold BdbIndex.create
    rw [h.nextId]
    exact hput.sorted
  · unfold BdbIndex.create
    rw [h.nextId]
    exact hput.stored
  · unfold BdbIndex.create
    rw [h.nextId]
    exact hput.records
  · show s.nextId + 1 = mem.nextId + 1
    rw [h.nextId]

theorem BdbIndex.Represents.modify (h : s.Represents T mem) (hn : n < 2 ^ 48) (g : V → V) :
    s.modify T n g = (mem.objects n).map fun v => s.put T n (T.id n, g v) := by
  unfold BdbIndex.modify
  rw [h.get_eq hn]
  cases mem.objects n with
  | none => rfl
  | some v => simp [T.unpack_pack_id hn]

theorem BdbIndex.Represents.remove (h : s.Represents T mem) (hn : n < 2 ^ 48) :
    s.remove T n = (mem.objects n).map fun _ =>
      { s with file := Btree.del objectIdComp (T.key n) s.file } := by
  unfold BdbIndex.remove
  rw [h.get_eq hn]
  cases mem.objects n with
  | none => rfl
  | some v => rfl

theorem ObjectType.mapM_unpack {P : Nat → V → Prop} {l : List (Nat × List UInt8)}
    (h : ∀ e ∈ l, ∃ k v, k < 2 ^ 48 ∧ P k v ∧ e = (T.key k, T.pack (T.id k, v))) :
    ∃ os, l.mapM (fun e => T.unpack e.2) = some os ∧
      l = os.map (fun o => (T.key o.1.number, T.pack o)) ∧
      ∀ o ∈ os, o.1 = T.id o.1.number ∧ o.1.number < 2 ^ 48 ∧ P o.1.number o.2 := by
  induction l with
  | nil => exact ⟨[], rfl, rfl, fun _ h => (List.not_mem_nil h).elim⟩
  | cons e l ih =>
    obtain ⟨os, hos, hl, hP⟩ := ih fun e he => h e (List.mem_cons_of_mem _ he)
    obtain ⟨k, v, hk, hkv, rfl⟩ := h e List.mem_cons_self
    refine ⟨(T.id k, v) :: os, ?_, ?_, ?_⟩
    · rw [List.mapM_cons, hos]
      simp [T.unpack_pack_id hk]
    · rw [List.map_cons, ← hl]
      rfl
    · intro o ho
      rcases List.mem_cons.mp ho with rfl | ho
      · exact ⟨rfl, hk, hkv⟩
      · exact hP o ho

theorem BdbIndex.Represents.openCursor (h : s.Represents T mem) (hn : n < 2 ^ 48) :
    ∃ l, s.openCursor T n = some l ∧ l.Pairwise (fun a b => a.1.number < b.1.number) ∧
      ∀ a v, (a, v) ∈ l ↔ a.index = T.index ∧ n ≤ a.number ∧ mem.objects a.number = some v := by
  unfold BdbIndex.openCursor
  rw [Btree.setRange_eq objectIdComp_ranks h.sorted (T.isKey_key hn)]
  -- the metadata records are before every object
  have hrecord : ∀ e ∈ s.file.filter fun e => signed (T.key n) ≤ signed e.1,
      ∃ k v, k < 2 ^ 48 ∧ (n ≤ k ∧ mem.objects k = some v) ∧ e = (T.key k, T.pack (T.id k, v)) := by
    intro e he
    obtain ⟨he, hle⟩ := List.mem_filter.mp he
    have hle : signed (T.key n) ≤ signed e.1 := of_decide_eq_true hle
    rw [T.signed_key hn] at hle
    rcases h.records e he with ⟨k, v, hk, rfl⟩ | hmeta | hmeta
    · refine ⟨k, v, h.bounded k v hk, ⟨?_, hk⟩, rfl⟩
      simp only [T.signed_key (h.bounded k v hk)] at hle
      unfold ObjectType.key at hle
      omega
    · rw [hmeta] at hle
      simp only [signed, dataVersionKey] at hle
      omega
    · rw [hmeta] at hle
      simp only [signed, nextIdKey] at hle
      omega
  have hmem : ∀ k v, mem.objects k = some v → n ≤ k →
      (T.key k, T.pack (T.id k, v)) ∈ s.file.filter fun e => signed (T.key n) ≤ signed e.1 := by
    intro k v hk hnk
    refine List.mem_filter.mpr ⟨h.stored k v hk, decide_eq_true ?_⟩
    rw [T.signed_key hn, T.signed_key (h.bounded k v hk)]
    unfold ObjectType.key
    omega
  have hsorted := h.sorted.increasing.filter fun e => decide (signed (T.key n) ≤ signed e.1)
  obtain ⟨os, hos, hl, hP⟩ := T.mapM_unpack hrecord
  refine ⟨os, hos, ?_, fun a v => ?_⟩
  · rw [hl, List.pairwise_map] at hsorted
    refine hsorted.imp_of_mem fun {o o'} ho ho' hlt => ?_
    have hkey := (hP o ho).2.1
    have hkey' := (hP o' ho').2.1
    simp only [T.signed_key hkey, T.signed_key hkey'] at hlt
    unfold ObjectType.key at hlt
    omega
  · constructor
    · intro hav
      obtain ⟨ha, -, hle, hv⟩ := hP (a, v) hav
      exact ⟨congrArg ObjectId.index ha, hle, hv⟩
    · rintro ⟨hindex, hle, hv⟩
      have he := hmem a.number v hv hle
      rw [hl] at he
      obtain ⟨o, ho, hpack⟩ := List.mem_map.mp he
      have hid : T.id a.number = a := by
        rw [ObjectType.id, ← hindex]
      obtain ⟨ho1, hbound, -⟩ := hP o ho
      have hunpack := congrArg T.unpack (Prod.mk.inj hpack).2
      have hpacked : T.unpack (T.pack o) = some o := by
        have := T.unpack_pack_id hbound o.2
        rwa [← ho1] at this
      rw [hpacked, T.unpack_pack_id (h.bounded _ _ hv), hid] at hunpack
      exact Option.some.inj hunpack ▸ ho

end Represents

end Nestchain.Db
