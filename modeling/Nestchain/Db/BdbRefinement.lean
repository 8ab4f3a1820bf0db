import Nestchain.Db.BdbUndo

/-! The Berkeley DB index against the in-memory index: lookups and iteration, and undo. -/

namespace Nestchain.Db

variable {V : Type} (T : ObjectType V)

/-- An in-memory index throws on an id that is taken, and on an object that is not there. -/
def Memory.refuses (m : Memory V) : BdbOp V → Bool
  | .create _ => (m.objects m.nextId).isSome
  | .insert n _ => (m.objects n).isSome
  | .modify n _ => (m.objects n).isNone
  | .remove n => (m.objects n).isNone
  | .removeById n => (m.objects n).isNone
  | .save => false

def Memory.run (m : Memory V) : List (BdbOp V) → Option (Memory V)
  | [] => some m
  | op :: ops => if m.refuses op then none else (m.step T op).run ops

def BdbIndex.memory (s : BdbIndex) : Memory V where
  objects n := if n < 2 ^ 48 then (s.findDb T n).join.map Prod.snd else none
  nextId := s.nextId

/-- `find_db` returns what a map holds. -/
def BdbIndex.Finds (s : BdbIndex) (m : Memory V) : Prop :=
  ∀ n : Instance, s.findDb T n = some ((m.objects n).map fun v => (T.id n, v))

/-- An iteration yields the stored objects whose instance is in a range, in ascending order. -/
def BdbIndex.Yields (s : BdbIndex) (range : Nat → Prop) (objects : Option (List (ObjectId × V))) :
    Prop :=
  ∃ os, objects = some os ∧ os.Pairwise (fun o o' => o.1.number < o'.1.number) ∧
    ∀ a v, (a, v) ∈ os ↔ a.index = T.index ∧ a.number < 2 ^ 48 ∧ range a.number ∧
      s.findDb T a.number = some (some (a, v))

/-- No object is created or inserted at an id that is taken. -/
def BdbSession.Fresh (r : BdbSession V) : BdbOp V → Prop
  | .create _ => r.index.findDb T r.index.nextId = some none
  | .insert n _ => r.index.findDb T n = some none
  | _ => True

variable {T} {s : BdbIndex} {m : Memory V} {r r' : BdbSession V} {ops : List (BdbOp V)}

theorem BdbIndex.Represents.memory_eq (h : s.Represents T m) : s.memory T = m := by
  refine Memory.ext (funext fun n => ?_) h.nextId
  show (if n < 2 ^ 48 then (s.findDb T n).join.map Prod.snd else none) = m.objects n
  split
  · rename_i hn
    rw [h.findDb_eq hn]
    cases m.objects n <;> rfl
  · rename_i hn
    cases hv : m.objects n with
    | none => rfl
    | some v => exact absurd (h.bounded n v hv) hn

theorem BdbIndex.Represents.findDb_eq_some (h : s.Represents T m) {a : ObjectId} {v : V}
    (ha : a.number < 2 ^ 48) :
    s.findDb T a.number = some (some (a, v)) ↔
      a.index = T.index ∧ m.objects a.number = some v := by
  rw [h.findDb_eq ha, Option.some.injEq, Option.map_eq_some_iff]
  constructor
  · rintro ⟨w, hw, heq⟩
    obtain ⟨hid, rfl⟩ := Prod.mk.inj heq
    exact ⟨(congrArg ObjectId.index hid).symm, hw⟩
  · rintro ⟨hindex, hv⟩
    refine ⟨v, hv, ?_⟩
    rw [ObjectType.id, ← hindex]

theorem BdbIndex.Represents.lowerBound (h : s.Represents T m) (n : Instance) :
    s.Yields T (n.val ≤ ·) (s.lowerBound T n) := by
  obtain ⟨os, hos, hsorted, hmem⟩ := h.openCursor n.isLt
  refine ⟨os, hos, hsorted, fun a v => ?_⟩
  rw [hmem]
  constructor
  · rintro ⟨hindex, hle, hv⟩
    have hlt := h.bounded _ _ hv
    exact ⟨hindex, hlt, hle, (h.findDb_eq_some hlt).mpr ⟨hindex, hv⟩⟩
  · rintro ⟨hindex, hlt, hle, hfind⟩
    exact ⟨hindex, hle, ((h.findDb_eq_some hlt).mp hfind).2⟩

theorem BdbIndex.Represents.upperBound (h : s.Represents T m) (n : Instance) :
    s.Yields T (n.val < ·) (s.upperBound T n) ↔ s.findDb T n = some none := by
  obtain ⟨os, hos, hsorted, hmem⟩ := h.lowerBound n
  have hos : s.upperBound T n = some os := hos
  constructor
  · rintro ⟨os', hos', -, hmem'⟩
    obtain rfl := Option.some.inj (hos.symm.trans hos')
    rw [h.findDb_eq_none n.isLt]
    cases hv : m.objects n with
    | none => rfl
    | some v =>
      have hfind := (h.findDb_eq_some (a := T.id n) n.isLt).mpr ⟨rfl, hv⟩
      have hin := (hmem (T.id n) v).mpr ⟨rfl, n.isLt, Nat.le_refl _, hfind⟩
      exact absurd ((hmem' _ v).mp hin).2.2.1 (Nat.lt_irrefl _)
  · intro hnone
    refine ⟨os, hos, hsorted, fun a v => ?_⟩
    rw [hmem]
    constructor
    · rintro ⟨hindex, hlt, hle, hfind⟩
      refine ⟨hindex, hlt, Nat.lt_of_le_of_ne hle fun heq => ?_, hfind⟩
      rw [← heq, hnone] at hfind
      cases hfind
    · rintro ⟨hindex, hlt, hrange, hfind⟩
      exact ⟨hindex, hlt, Nat.le_of_lt hrange, hfind⟩

theorem BdbSession.refuses_iff {op : BdbOp V} (h : r.index.Represents T m)
    (hids : m.nextId + BdbOp.creates [op] ≤ 2 ^ 48) (hexec : r.exec T op = some r') :
    m.refuses op = false ↔ r.Fresh T op := by
  have hholds := (r.exec_represents h (by rw [h.nextId]; exact hids) hexec).1
  cases op with
  | create f =>
    have hn : m.nextId < 2 ^ 48 := Nat.lt_of_succ_le hids
    simp [Memory.refuses, BdbSession.Fresh, h.nextId, h.findDb_eq_none hn]
  | insert n v => simp [Memory.refuses, BdbSession.Fresh, h.findDb_eq_none n.isLt]
  | modify n g =>
    have hsome : m.objects n ≠ none := hholds
    simpa [Memory.refuses, BdbSession.Fresh, Option.isSome_iff_ne_none] using hsome
  | remove n =>
    have hsome : m.objects n ≠ none := hholds
    simpa [Memory.refuses, BdbSession.Fresh, Option.isSome_iff_ne_none] using hsome
  | removeById n =>
    have hsome : m.objects n ≠ none := hholds
    simpa [Memory.refuses, BdbSession.Fresh, Option.isSome_iff_ne_none] using hsome
  | save => exact iff_of_true rfl trivial

theorem BdbSession.run_fresh (h : r.index.Represents T m)
    (hids : m.nextId + BdbOp.creates ops ≤ 2 ^ 48) (hrun : r.run T ops = some r') :
    (∃ m', m.run T ops = some m' ∧ r'.index.Finds T m') ↔
      BdbSession.Each T (BdbSession.Fresh T) r ops := by
  induction ops generalizing r m with
  | nil =>
    obtain rfl := Option.some.inj hrun
    exact iff_of_true ⟨m, rfl, fun n => h.findDb_eq n.isLt⟩ trivial
  | cons op ops ih =>
    rw [BdbOp.creates_cons] at hids
    obtain ⟨r1, hexec, hrest⟩ := Option.bind_eq_some_iff.mp hrun
    obtain ⟨-, h1, -⟩ := r.exec_represents h (by rw [h.nextId]; omega) hexec
    have hids1 : (m.step T op).nextId + BdbOp.creates ops ≤ 2 ^ 48 := by
      rw [m.step_nextId]
      omega
    have hrefuses := BdbSession.refuses_iff h (by omega) hexec
    cases href : m.refuses op with
    | false =>
      have hstep : m.run T (op :: ops) = (m.step T op).run T ops := by
        simp [Memory.run, href]
      rw [hstep, ih h1 hids1 hrest]
      constructor
      · intro heach
        refine ⟨hrefuses.mp href, fun r2 hr2 => ?_⟩
        obtain rfl := Option.some.inj (hexec.symm.trans hr2)
        exact heach
      · intro heach
        exact heach.2 r1 hexec
    | true =>
      have hstep : m.run T (op :: ops) = none := by
        simp [Memory.run, href]
      refine iff_of_false ?_ ?_
      · rintro ⟨m', hm', -⟩
        rw [hstep] at hm'
        cases hm'
      · intro heach
        have := hrefuses.mpr heach.1
        rw [href] at this
        cases this

/-- The contents of a file and its next id are those of another. -/
def BdbIndex.SameContents (T : ObjectType V) (s s' : BdbIndex) : Prop :=
  (∀ n : Instance, s'.findDb T n = s.findDb T n) ∧ s'.nextId = s.nextId

theorem BdbIndex.Represents.sameContents_iff {s' : BdbIndex} {m' : Memory V}
    (h : s.Represents T m) (h' : s'.Represents T m') : s.SameContents T s' ↔ m' = m := by
  constructor
  · rintro ⟨hfind, hnext⟩
    rw [← h.memory_eq, ← h'.memory_eq]
    refine Memory.ext (funext fun n => ?_) hnext
    show (if n < 2 ^ 48 then _ else _) = if n < 2 ^ 48 then _ else _
    split
    · rename_i hn
      rw [hfind ⟨n, hn⟩]
    · rfl
  · rintro rfl
    refine ⟨fun n => ?_, h'.nextId.trans h.nextId.symm⟩
    rw [h.findDb_eq n.isLt, h'.findDb_eq n.isLt]

/-- The Berkeley DB index and the in-memory index.  Iteration from `lower_bound` is right in every
state; from `upper_bound`, for the ids that are not stored.  After any calls `find_db` returns what
a map holds where a call puts its object over what is there, and what an in-memory index holds when
no id was taken.  Undo restores the contents and the next id when every call of the session was
sound. -/
theorem bdb_index_refines (h : BdbIndex.Reachable T s) :
    (∀ n : Instance, s.Yields T (n.val ≤ ·) (s.lowerBound T n)) ∧
    (∀ n : Instance, s.Yields T (n.val < ·) (s.upperBound T n) ↔ s.findDb T n = some none) ∧
    ∀ (ops : List (BdbOp V)) (r : BdbSession V), s.nextId + BdbOp.creates ops ≤ 2 ^ 48 →
      (BdbSession.mk s .empty).run T ops = some r →
      r.index.Finds T (ops.foldl (Memory.step T) (s.memory T)) ∧
      ((∃ m, (s.memory T).run T ops = some m ∧ r.index.Finds T m) ↔
        BdbSession.Each T (BdbSession.Fresh T) ⟨s, .empty⟩ ops) ∧
      ∀ ord : IterationOrder V, s.SameContents T (r.index.undo T ord r.undo) ↔
        BdbSession.Each T (BdbSession.Sound T) ⟨s, .empty⟩ ops := by
  obtain ⟨m, hm⟩ := h.represents
  refine ⟨hm.lowerBound, hm.upperBound, ?_⟩
  intro ops r hids hrun
  rw [hm.nextId] at hids
  rw [hm.memory_eq]
  obtain ⟨hrep, hu⟩ := BdbSession.run_represents hm .empty hids hrun
  refine ⟨fun n => hrep.findDb_eq n.isLt, BdbSession.run_fresh hm hids hrun, fun ord => ?_⟩
  rw [hm.sameContents_iff (hrep.undo ord hu)]
  exact BdbSession.run_kept hm hids hrun (Memory.Kept.start m)

/-! ### A class with one field -/

/-- The `uint64_t` of eight bytes. -/
def bytesNumber (bytes : List UInt8) : Nat :=
  bytes.foldr (fun b k => b.toNat + 256 * k) 0

theorem bytesNumber_numberBytes {k : Nat} (hk : k < 2 ^ 64) : bytesNumber (numberBytes k) = k := by
  simp only [numberBytes, bytesNumber, List.range, List.range.loop, List.map_cons, List.map_nil,
    List.foldr_cons, List.foldr_nil, UInt8.toNat_ofNat']
  omega

theorem length_numberBytes (k : Nat) : (numberBytes k).length = 8 := rfl

/-- The objects of index 5.1 with a field of one byte: the id is packed first, in eight bytes. -/
def markerType : ObjectType UInt8 where
  index := ⟨5, 1⟩
  space_lt := by decide
  type_lt := by decide
  pack o := numberBytes (o.1.index.space * 2 ^ 56 + o.1.index.type * 2 ^ 48 + o.1.number) ++ [o.2]
  unpack bytes :=
    (bytes[8]?).map fun v =>
      let k := bytesNumber (bytes.take 8)
      (⟨⟨k / 2 ^ 56, k / 2 ^ 48 % 256⟩, k % 2 ^ 48⟩, v)
  unpack_pack := by
    intro n hn v
    have hnumber := bytesNumber_numberBytes (k := 5 * 2 ^ 56 + 1 * 2 ^ 48 + n) (by omega)
    simp only [List.getElem?_append_right (Nat.le_of_eq (length_numberBytes _)),
      List.take_append_of_le_length (Nat.le_of_eq (length_numberBytes _).symm),
      List.take_of_length_le (Nat.le_of_eq (length_numberBytes _)), length_numberBytes, hnumber,
      Nat.sub_self, List.getElem?_cons_zero, Option.map_some, Option.some.injEq, Prod.mk.injEq,
      and_true, ObjectId.mk.injEq, IndexId.mk.injEq]
    omega
  version := [49, 46, 48]

/-- One object, saved. -/
def markerIndex : BdbIndex := ((BdbIndex.empty.create markerType fun _ => 7).save markerType)

theorem markerIndex_reachable : BdbIndex.Reachable markerType markerIndex := by
  have hrun : ∃ undo, (BdbSession.mk BdbIndex.empty .empty).run markerType
      [.create fun _ => 7, .save] = some ⟨markerIndex, undo⟩ := ⟨_, rfl⟩
  obtain ⟨undo, hrun⟩ := hrun
  exact .run .empty (by decide) hrun

/-- A session that creates an object and removes the other. -/
def markerSession : Option (BdbSession UInt8) :=
  (BdbSession.mk markerIndex .empty).run markerType [.create fun _ => 8, .remove 0]

theorem markerSession_isSome : markerSession.isSome = true := by
  decide +kernel

theorem bdb_index_refines_marker :
    markerIndex.Yields markerType (0 ≤ ·) (markerIndex.lowerBound markerType 0) ∧
    markerIndex.Yields markerType (1 < ·) (markerIndex.upperBound markerType 1) ∧
    ((markerSession.get markerSession_isSome).index.findDb markerType 0 = some none) ∧
    ∀ ord : IterationOrder UInt8, markerIndex.SameContents markerType
      ((markerSession.get markerSession_isSome).index.undo markerType ord
        (markerSession.get markerSession_isSome).undo) := by
  obtain ⟨hlower, hupper, hruns⟩ := bdb_index_refines markerIndex_reachable
  obtain ⟨-, -, hundo⟩ := hruns [.create fun _ => 8, .remove 0] _ (by decide)
    (Option.some_get markerSession_isSome).symm
  refine ⟨hlower 0, (hupper 1).mpr (by decide +kernel), by decide +kernel, fun ord => ?_⟩
  exact (hundo ord).mpr ⟨Or.inl (by decide +kernel), fun _ _ => ⟨trivial, fun _ _ => trivial⟩⟩

/-- Removal by id is not undone, and an iteration from `upper_bound` begins with the id itself. -/
theorem removed_object_lost :
    BdbIndex.Reachable markerType markerIndex ∧
    (∃ r, (BdbSession.mk markerIndex .empty).run markerType [.removeById 0] = some r ∧
      ∀ ord : IterationOrder UInt8,
        ¬markerIndex.SameContents markerType (r.index.undo markerType ord r.undo)) ∧
    ¬markerIndex.Yields markerType (0 < ·) (markerIndex.upperBound markerType 0) := by
  obtain ⟨m, hm⟩ := markerIndex_reachable.represents
  refine ⟨markerIndex_reachable, ?_, ?_⟩
  · have hsome : ((BdbSession.mk markerIndex .empty).run markerType [.removeById 0]).isSome =
      true := by
      decide +kernel
    obtain ⟨r, hrun⟩ := Option.isSome_iff_exists.mp hsome
    refine ⟨r, hrun, fun ord => ?_⟩
    have hids : m.nextId + BdbOp.creates [(.removeById 0 : BdbOp UInt8)] ≤ 2 ^ 48 := by
      rw [← hm.nextId]
      decide
    obtain ⟨hrep, hu⟩ := BdbSession.run_represents hm .empty hids hrun
    rw [hm.sameContents_iff (hrep.undo ord hu),
      BdbSession.run_kept hm hids hrun (Memory.Kept.start m)]
    rintro ⟨hnew, -⟩
    exact absurd hnew (Finset.notMem_empty _)
  · intro hyields
    have hnone := (hm.upperBound 0).mp hyields
    exact absurd hnone (by decide +kernel)

end Nestchain.Db
