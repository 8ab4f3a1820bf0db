import Nestchain.Db.Store

/-! `primary_index::save` and `open`.  An index is saved as its next id and its packed objects, and
it is opened by inserting what is unpacked again.  The loop of `open` ends at the first failure, so
that nothing tells a file that was read to its end from one that was not. -/

namespace Nestchain.Db

/-- The file of an index. -/
structure IndexFile (Bytes : Type) where
  nextId : Nat
  version : List Char
  objects : List Bytes

/-- `get_object_version`, the hash of a constant. -/
def objectVersion : List Char := ['1', '.', '0']

/-- `fc::raw` for the objects of all indexes. -/
structure Packer (V Bytes : Type) where
  pack : ObjectId → V → Bytes
  unpack : IndexId → Bytes → Option (ObjectId × V)

section

variable {V K Bytes σ : Type} [DecidableEq K]

def Store.ids (s : Store V) (i : IndexId) : List ObjectId :=
  sorted (s.objects.keys.filter fun a => a.index = i)

/-- `save` -/
def Store.save (p : Packer V Bytes) (s : Store V) (i : IndexId) : IndexFile Bytes where
  nextId := s.nextId i
  version := objectVersion
  objects := (s.ids i).filterMap fun a => (s.objects.lookup a).map (p.pack a)

/-- The objects with what their secondary indexes hold. -/
abbrev Opened (V σ : Type) := Store V × σ

variable (sch : Schema V K) (p : Packer V Bytes) (objectInserted : ObjectId → V → σ → σ)

/-- `load` -/
def load (i : IndexId) (bytes : Bytes) (x : Opened V σ) : Option (Opened V σ) := do
  let (a, v) ← p.unpack i bytes
  let s ← x.1.insert sch a v
  pure (s, objectInserted a v x.2)

/-- The loop of `open`. -/
def loadAll (i : IndexId) : List Bytes → Opened V σ → Opened V σ
  | [], x => x
  | bytes :: rest, x =>
    match load sch p objectInserted i bytes x with
    | none => x
    | some y => loadAll i rest y

/-- `open` -/
def openIndex (x : Opened V σ) (file : IndexId × IndexFile Bytes) : Option (Opened V σ) :=
  if file.2.version = objectVersion then
    some (loadAll sch p objectInserted file.1 file.2.objects
      ({ x.1 with nextId := Function.update x.1.nextId file.1 file.2.nextId }, x.2))
  else none

/-- `object_database::flush` -/
def Store.flush (indexes : List IndexId) (s : Store V) : List (IndexId × IndexFile Bytes) :=
  indexes.map fun i => (i, s.save p i)

/-- `object_database::open` of the files into empty indexes. -/
def openFiles (empty : σ) (files : List (IndexId × IndexFile Bytes)) : Option (Opened V σ) :=
  files.foldlM (openIndex sch p objectInserted) (⟨∅, fun _ => 0⟩, empty)

end

/-! ### What is restored -/

section

variable {V K Bytes σ : Type} [DecidableEq K] {sch : Schema V K} {p : Packer V Bytes}
  {objectInserted : ObjectId → V → σ → σ} {restored : ObjectId → V → V} {s : Store V}

def Packer.Restores (p : Packer V Bytes) (restored : ObjectId → V → V) : Prop :=
  ∀ a v, p.unpack a.index (p.pack a v) = some (a, restored a v)

def Schema.KeptBy (sch : Schema V K) (restored : ObjectId → V → V) : Prop :=
  ∀ a, ∀ k ∈ sch.uniqueKeys a.index, ∀ v, k a (restored a v) = k a v

def Store.Unique (sch : Schema V K) (s : Store V) : Prop :=
  ∀ a v, s.objects.lookup a = some v → ¬s.Conflict sch a v

/-- What the secondary indexes are told of an object that is loaded. -/
def tell (objectInserted : ObjectId → V → σ → σ) (restored : ObjectId → V → V) (s : Store V)
    (i : σ) (a : ObjectId) : σ :=
  (s.objects.lookup a).elim i fun v => objectInserted a (restored a v) i

/-- Some objects of a store are loaded. -/
structure Loaded (objectInserted : ObjectId → V → σ → σ) (restored : ObjectId → V → V)
    (empty : σ) (s : Store V) (loaded : List ObjectId) (x : Opened V σ) : Prop where
  objects : ∀ a, x.1.objects.lookup a =
    if a ∈ loaded then (s.objects.lookup a).map (restored a) else none
  index : x.2 = loaded.foldl (tell objectInserted restored s) empty

theorem Store.mem_ids {i : IndexId} {a : ObjectId} :
    a ∈ s.ids i ↔ a ∈ s.objects ∧ a.index = i := by
  rw [ids, mem_sorted, Finset.mem_filter, Finmap.mem_keys]

theorem Store.nodup_ids (s : Store V) (i : IndexId) : (s.ids i).Nodup :=
  sorted_nodup _

variable {empty : σ} {loaded : List ObjectId} {x : Opened V σ}

omit [DecidableEq K] in
theorem Loaded.free (h : Loaded objectInserted restored empty s loaded x)
    (hkeys : sch.KeptBy restored) (hunique : s.Unique sch) {a : ObjectId} {v : V}
    (hv : s.objects.lookup a = some v) : ¬x.1.Conflict sch a (restored a v) := by
  rw [Store.conflict_iff]
  rintro ⟨b, w, hw, hne, hindex, k, hk, heq⟩
  rw [h.objects b] at hw
  split at hw
  · obtain ⟨u, hu, rfl⟩ := Option.map_eq_some_iff.mp hw
    rw [hkeys a k hk, hkeys b k (hindex ▸ hk)] at heq
    exact hunique a v hv ((s.conflict_iff sch).mpr ⟨b, u, hu, hne, hindex, k, hk, heq⟩)
  · cases hw

theorem Loaded.load (h : Loaded objectInserted restored empty s loaded x)
    (hp : p.Restores restored) (hkeys : sch.KeptBy restored) (hunique : s.Unique sch)
    {a : ObjectId} {v : V} (ha : a ∉ loaded) (hv : s.objects.lookup a = some v) :
    ∃ y, Db.load sch p objectInserted a.index (p.pack a v) x = some y ∧ y.1.nextId = x.1.nextId ∧
      Loaded objectInserted restored empty s (loaded ++ [a]) y := by
  have hfresh : a ∉ x.1.objects := by
    rw [← Finmap.lookup_eq_none, h.objects a, if_neg ha]
  have hinsert := Store.insert_free hfresh (h.free hkeys hunique hv)
  refine ⟨({ x.1 with objects := x.1.objects.insert a (restored a v) },
    objectInserted a (restored a v) x.2), ?_, rfl, fun b => ?_, ?_⟩
  · simp only [Db.load, hp a v, hinsert, Option.bind_eq_bind, Option.bind_some]
    rfl
  · dsimp only
    simp only [List.mem_append, List.mem_singleton]
    by_cases hb : b = a
    · subst hb
      rw [Finmap.lookup_insert, if_pos (Or.inr rfl), hv]
      rfl
    · rw [Finmap.lookup_insert_of_ne _ hb, h.objects b]
      simp only [hb, or_false]
  · dsimp only
    rw [List.foldl_append, ← h.index, List.foldl_cons, List.foldl_nil, tell, hv]
    rfl

theorem Loaded.loadAll (hp : p.Restores restored) (hkeys : sch.KeptBy restored)
    (hunique : s.Unique sch) {i : IndexId} (ids : List ObjectId) :
    ∀ {loaded : List ObjectId} {x : Opened V σ},
      Loaded objectInserted restored empty s loaded x →
      (∀ a ∈ ids, a ∈ s.objects ∧ a.index = i ∧ a ∉ loaded) → ids.Nodup →
      ∃ y, Db.loadAll sch p objectInserted i
          (ids.filterMap fun a => (s.objects.lookup a).map (p.pack a)) x = y ∧
        y.1.nextId = x.1.nextId ∧
          Loaded objectInserted restored empty s (loaded ++ ids) y := by
  induction ids with
  | nil =>
    intro loaded x h _ _
    exact ⟨x, rfl, rfl, by rwa [List.append_nil]⟩
  | cons a ids ih =>
    intro loaded x h hids hnodup
    obtain ⟨hmem, rfl, ha⟩ := hids a List.mem_cons_self
    obtain ⟨hother, hnodup⟩ := List.nodup_cons.mp hnodup
    obtain ⟨v, hv⟩ := Finmap.mem_iff.mp hmem
    obtain ⟨y, hy, hnext, hloaded⟩ := h.load hp hkeys hunique ha hv
    obtain ⟨z, hz, hnext', hloaded'⟩ := ih hloaded (fun b hb => by
      obtain ⟨hb', hindex, hnot⟩ := hids b (List.mem_cons_of_mem _ hb)
      refine ⟨hb', hindex, fun hmem => ?_⟩
      rcases List.mem_append.mp hmem with hmem | hmem
      · exact hnot hmem
      · exact hother (List.mem_singleton.mp hmem ▸ hb)) hnodup
    refine ⟨z, ?_, hnext'.trans hnext, ?_⟩
    · rw [List.filterMap_cons_some (by rw [hv]; rfl), Db.loadAll, hy]
      exact hz
    · rwa [List.append_assoc, List.singleton_append] at hloaded'

theorem open_flush (objectInserted : ObjectId → V → σ → σ) (hp : p.Restores restored)
    (hkeys : sch.KeptBy restored) (hunique : s.Unique sch) (empty : σ) {indexes : List IndexId}
    (hnodup : indexes.Nodup) (hregistered : ∀ a ∈ s.objects, a.index ∈ indexes) :
    ∃ y, openFiles sch p objectInserted empty (s.flush p indexes) = some y ∧
      (∀ a, y.1.objects.lookup a = (s.objects.lookup a).map (restored a)) ∧
      (∀ i ∈ indexes, y.1.nextId i = s.nextId i) ∧
      y.2 = (indexes.flatMap s.ids).foldl (tell objectInserted restored s) empty := by
  have hrun : ∀ (l : List IndexId) (loaded : List ObjectId) (x : Opened V σ),
      Loaded objectInserted restored empty s loaded x → l.Nodup →
      (∀ a ∈ loaded, a.index ∉ l) →
      ∃ y, (s.flush p l).foldlM (openIndex sch p objectInserted) x = some y ∧
        Loaded objectInserted restored empty s (loaded ++ l.flatMap s.ids) y ∧
        (∀ i ∈ l, y.1.nextId i = s.nextId i) ∧ ∀ i ∉ l, y.1.nextId i = x.1.nextId i := by
    intro l
    induction l with
    | nil =>
      intro loaded x h _ _
      exact ⟨x, rfl, by simpa using h, fun _ hi => (List.not_mem_nil hi).elim, fun _ _ => rfl⟩
    | cons i l ih =>
      intro loaded x h hnodup hother
      obtain ⟨hi, hnodup⟩ := List.nodup_cons.mp hnodup
      have hstart : Loaded objectInserted restored empty s loaded
          ({ x.1 with nextId := Function.update x.1.nextId i (s.nextId i) }, x.2) :=
        ⟨h.objects, h.index⟩
      obtain ⟨y, hy, hnext, hloaded⟩ := hstart.loadAll hp hkeys hunique (s.ids i)
        (fun a ha => by
          obtain ⟨hmem, hindex⟩ := Store.mem_ids.mp ha
          exact ⟨hmem, hindex, fun hmem' => hother a hmem' (hindex ▸ List.mem_cons_self)⟩)
        (s.nodup_ids i)
      obtain ⟨z, hz, hloaded', hin, hout⟩ := ih _ y hloaded hnodup fun a ha => by
        rcases List.mem_append.mp ha with ha | ha
        · exact fun hmem => hother a ha (List.mem_cons_of_mem _ hmem)
        · rw [(Store.mem_ids.mp ha).2]
          exact hi
      refine ⟨z, ?_, ?_, fun j hj => ?_, fun j hj => ?_⟩
      · have hopen : openIndex sch p objectInserted x (i, s.save p i) = some y := by
          rw [openIndex, if_pos (show (i, s.save p i).2.version = objectVersion from rfl)]
          exact congrArg some hy
        rw [Store.flush, List.map_cons, List.foldlM_cons, hopen]
        exact hz
      · rwa [List.append_assoc, ← List.flatMap_cons] at hloaded'
      · rcases List.mem_cons.mp hj with rfl | hj
        · rw [hout j hi, hnext]
          exact Function.update_self ..
        · exact hin j hj
      · rw [List.mem_cons, not_or] at hj
        rw [hout j hj.2, hnext]
        exact Function.update_of_ne hj.1 ..
  obtain ⟨y, hy, hloaded, hnext, -⟩ := hrun indexes [] (⟨∅, fun _ => 0⟩, empty)
    ⟨fun a => by rw [if_neg List.not_mem_nil, Finmap.lookup_empty], rfl⟩ hnodup
    fun _ ha => (List.not_mem_nil ha).elim
  refine ⟨y, hy, fun a => ?_, hnext, hloaded.index⟩
  rw [hloaded.objects a]
  split
  · rfl
  · rename_i hnot
    rw [List.nil_append, List.mem_flatMap] at hnot
    cases hv : s.objects.lookup a with
    | none => rfl
    | some v =>
      have hmem := mem_of_lookup hv
      exact absurd ⟨_, hregistered a hmem, Store.mem_ids.mpr ⟨hmem, rfl⟩⟩ hnot

omit [DecidableEq K] in
theorem mem_foldl_tell (objectInserted : ObjectId → V → σ → σ) (restored : ObjectId → V → V)
    (s : Store V) (found : σ → ObjectId → Prop) (lists : ObjectId → V → Prop)
    (hinserted : ∀ a v i b, found (objectInserted a v i) b ↔ found i b ∨ (b = a ∧ lists a v))
    (ids : List ObjectId) : ∀ (i : σ) (b : ObjectId),
      found (ids.foldl (tell objectInserted restored s) i) b ↔ found i b ∨
        (b ∈ ids ∧ ∃ v, s.objects.lookup b = some v ∧ lists b (restored b v)) := by
  induction ids with
  | nil =>
    intro i b
    simp
  | cons a ids ih =>
    intro i b
    have htell : found (tell objectInserted restored s i a) b ↔ found i b ∨
        (b = a ∧ ∃ v, s.objects.lookup b = some v ∧ lists b (restored b v)) := by
      cases hv : s.objects.lookup a with
      | none =>
        rw [tell, hv]
        constructor
        · exact Or.inl
        · rintro (h | ⟨rfl, v, hv', -⟩)
          · exact h
          · rw [hv] at hv'
            cases hv'
      | some v =>
        rw [tell, hv, Option.elim_some, hinserted]
        refine or_congr_right (and_congr_right fun hb => ?_)
        subst hb
        rw [hv]
        simp only [Option.some.injEq, exists_eq_left']
    rw [List.foldl_cons, ih, htell, List.mem_cons, or_assoc, or_and_right]

end

end Nestchain.Db
