import Nestchain.Db.BdbIndex

/-! Undo of a session on a Berkeley DB index.  The calls are followed on the map that the file
represents: what a session records, what undo makes of it, and when that is the map before the
session. -/

namespace Nestchain.Db

variable {V : Type} (T : ObjectType V)

def Memory.step (m : Memory V) : BdbOp V → Memory V
  | .create f => { m.set m.nextId (some (f (T.id m.nextId))) with nextId := m.nextId + 1 }
  | .modify n g => m.set n ((m.objects n).map g)
  | .insert n v => m.set n (some v)
  | .remove n => m.set n none
  | .removeById n => m.set n none
  | .save => m

/-- The objects that a call is made on are in the map. -/
def Memory.Holds (m : Memory V) : BdbOp V → Prop
  | .modify n _ => m.objects n ≠ none
  | .remove n => m.objects n ≠ none
  | .removeById n => m.objects n ≠ none
  | _ => True

def Memory.record (m : Memory V) (u : UndoState V) : BdbOp V → UndoState V
  | .create _ => u.onCreate (T.id m.nextId)
  | .modify n _ => ((m.objects n).map (u.onModify (T.id n))).getD u
  | .insert n _ => u.onCreate (T.id n)
  | .remove n => ((m.objects n).map (u.onRemove (T.id n))).getD u
  | .removeById _ => u
  | .save => u

def Memory.undo (m : Memory V) (u : UndoState V) : Memory V where
  objects n :=
    match u.removed.lookup (T.id n) with
    | some v => some v
    | none =>
      if T.id n ∈ u.newIds then none
      else (m.objects n).map fun w => (u.oldValues.lookup (T.id n)).getD w
  nextId :=
    match u.oldIndexNextIds.lookup T.index with
    | some a => a.number
    | none => m.nextId

variable {T} {s : BdbIndex} {m : Memory V} {r r' : BdbSession V} {op : BdbOp V}
  {ops : List (BdbOp V)} {u : UndoState V}

theorem BdbSession.exec_represents (h : r.index.Represents T m)
    (hids : r.index.nextId + BdbOp.creates [op] ≤ 2 ^ 48) (hexec : r.exec T op = some r') :
    m.Holds op ∧ r'.index.Represents T (m.step T op) ∧ r'.undo = m.record T r.undo op := by
  cases op with
  | create f =>
    obtain rfl := Option.some.inj hexec
    refine ⟨trivial, h.create (Nat.lt_of_succ_le hids) f, ?_⟩
    show r.undo.onCreate (T.id r.index.nextId) = r.undo.onCreate (T.id m.nextId)
    rw [h.nextId]
  | modify n g =>
    simp only [BdbSession.exec, h.findDb_eq n.isLt, h.modify n.isLt g] at hexec
    cases hv : m.objects n with
    | none =>
      rw [hv] at hexec
      cases hexec
    | some v =>
      rw [hv] at hexec
      obtain rfl := Option.some.inj hexec
      refine ⟨?_, ?_, ?_⟩
      · show m.objects n ≠ none
        rw [hv]
        exact Option.some_ne_none v
      · have hput := h.put n.isLt (g v)
        show BdbIndex.Represents T _ (m.set n ((m.objects n).map g))
        rw [hv]
        exact hput
      · show _ = ((m.objects n).map (r.undo.onModify (T.id n))).getD r.undo
        rw [hv]
        rfl
  | insert n v =>
    obtain rfl := Option.some.inj hexec
    exact ⟨trivial, h.put n.isLt v, rfl⟩
  | remove n =>
    simp only [BdbSession.exec, h.findDb_eq n.isLt, h.remove n.isLt] at hexec
    cases hv : m.objects n with
    | none =>
      rw [hv] at hexec
      cases hexec
    | some v =>
      rw [hv] at hexec
      obtain rfl := Option.some.inj hexec
      refine ⟨?_, h.del n.isLt, ?_⟩
      · show m.objects n ≠ none
        rw [hv]
        exact Option.some_ne_none v
      · show _ = ((m.objects n).map (r.undo.onRemove (T.id n))).getD r.undo
        rw [hv]
        rfl
  | removeById n =>
    simp only [BdbSession.exec, h.remove n.isLt] at hexec
    cases hv : m.objects n with
    | none =>
      rw [hv] at hexec
      cases hexec
    | some v =>
      rw [hv] at hexec
      obtain rfl := Option.some.inj hexec
      refine ⟨?_, h.del n.isLt, rfl⟩
      show m.objects n ≠ none
      rw [hv]
      exact Option.some_ne_none v
  | save =>
    obtain rfl := Option.some.inj hexec
    exact ⟨trivial, h.save, rfl⟩

/-! ### Undo on the file is undo on the map -/

theorem BdbIndex.Represents.setNextId (h : s.Represents T m) (k : Nat) :
    BdbIndex.Represents T { s with nextId := k } { m with nextId := k } :=
  ⟨h.sorted, h.stored, h.records, h.bounded, rfl⟩

theorem BdbIndex.Represents.foldl {β : Type} (f : BdbIndex → β → BdbIndex) (number : β → Nat)
    (change : β → Option V → Option V) {items : List β}
    (hstep : ∀ b ∈ items, ∀ (s : BdbIndex) (m : Memory V), s.Represents T m →
      (f s b).Represents T (m.set (number b) (change b (m.objects (number b)))))
    (hnodup : (items.map number).Nodup) (h : s.Represents T m) :
    ∃ m' : Memory V, (items.foldl f s).Represents T m' ∧ m'.nextId = m.nextId ∧
      (∀ b ∈ items, m'.objects (number b) = change b (m.objects (number b))) ∧
      ∀ n, (∀ b ∈ items, number b ≠ n) → m'.objects n = m.objects n := by
  induction items generalizing s m with
  | nil => exact ⟨m, h, rfl, fun _ hb => (List.not_mem_nil hb).elim, fun _ _ => rfl⟩
  | cons b items ih =>
    obtain ⟨hb, hnodup⟩ := List.nodup_cons.mp hnodup
    have hne : ∀ c ∈ items, number c ≠ number b := fun c hc heq =>
      hb (heq ▸ List.mem_map_of_mem hc)
    obtain ⟨m', hrep, hnext, hchanged, hsame⟩ :=
      ih (fun c hc => hstep c (List.mem_cons_of_mem _ hc)) hnodup
        (hstep b List.mem_cons_self s m h)
    refine ⟨m', hrep, hnext, ?_, ?_⟩
    · intro c hc
      rcases List.mem_cons.mp hc with rfl | hc
      · rw [hsame _ hne, m.set_objects_self]
      · rw [hchanged c hc, m.set_objects_of_ne _ (hne c hc)]
    · intro n hn
      rw [hsame n fun c hc => hn c (List.mem_cons_of_mem _ hc),
        m.set_objects_of_ne _ (hn b List.mem_cons_self).symm]

/-- The ids that a state names are ids of the index. -/
structure UndoState.Within (T : ObjectType V) (u : UndoState V) : Prop where
  oldValues : ∀ a ∈ u.oldValues, a = T.id a.number ∧ a.number < 2 ^ 48
  newIds : ∀ a ∈ u.newIds, a = T.id a.number ∧ a.number < 2 ^ 48
  removed : ∀ a ∈ u.removed, a = T.id a.number ∧ a.number < 2 ^ 48

theorem ObjectType.nodup_numbers {β : Type} {ids : β → ObjectId} {items : List β}
    (hids : ∀ b ∈ items, ids b = T.id (ids b).number) (h : (items.map ids).Nodup) :
    (items.map fun b => (ids b).number).Nodup := by
  induction items with
  | nil => exact List.nodup_nil
  | cons b items ih =>
    obtain ⟨hb, hnodup⟩ := List.nodup_cons.mp h
    refine List.nodup_cons.mpr ⟨fun hmem => ?_, ih (fun c hc =>
      hids c (List.mem_cons_of_mem _ hc)) hnodup⟩
    obtain ⟨c, hc, heq⟩ := List.mem_map.mp hmem
    refine hb (List.mem_map.mpr ⟨c, hc, ?_⟩)
    rw [hids c (List.mem_cons_of_mem _ hc), hids b List.mem_cons_self, heq]

theorem Memory.set_self (m : Memory V) (n : Nat) : m.set n (m.objects n) = m := by
  unfold Memory.set
  rw [Function.update_eq_self]

theorem BdbIndex.Represents.undo (ord : IterationOrder V) (h : s.Represents T m)
    (hu : u.Within T) : (s.undo T ord u).Represents T (m.undo T u) := by
  have hold : ∀ {item : ObjectId × V}, item ∈ ord.values u.oldValues →
      item.1 = T.id item.1.number ∧ item.1.number < 2 ^ 48 := fun {item} hitem =>
    hu.oldValues _ (mem_of_lookup ((ord.mem_values _ item.1 item.2).mp hitem))
  have hremoved : ∀ {item : ObjectId × V}, item ∈ ord.values u.removed →
      item.1 = T.id item.1.number ∧ item.1.number < 2 ^ 48 := fun {item} hitem =>
    hu.removed _ (mem_of_lookup ((ord.mem_values _ item.1 item.2).mp hitem))
  have hnew : ∀ {a : ObjectId}, a ∈ ord.ids u.newIds → a = T.id a.number ∧ a.number < 2 ^ 48 :=
    fun {a} ha => hu.newIds a ((ord.mem_ids _ a).mp ha)
  -- the three loops, and the next id between the second and the third
  obtain ⟨m1, h1, hnext1, hchanged1, hsame1⟩ := BdbIndex.Represents.foldl
    (fun s item => (s.modify T item.1.number fun _ => item.2).getD s)
    (fun item : ObjectId × V => item.1.number) (fun item v => v.map fun _ => item.2)
    (by
      intro item hitem s m hs
      rw [hs.modify (hold hitem).2]
      cases hv : m.objects item.1.number with
      | none =>
        show s.Represents T (m.set item.1.number none)
        rw [← hv, m.set_self]
        exact hs
      | some v =>
        have hput := hs.put (hold hitem).2 item.2
        exact hput)
    (T.nodup_numbers (fun item hitem => (hold hitem).1) (ord.values_nodup u.oldValues)) h
  obtain ⟨m2, h2, hnext2, hchanged2, hsame2⟩ := BdbIndex.Represents.foldl
    (fun s a => (s.remove T a.number).getD s) ObjectId.number (fun _ _ => none)
    (by
      intro a ha s m hs
      rw [hs.remove (hnew ha).2]
      cases hv : m.objects a.number with
      | none =>
        show s.Represents T (m.set a.number none)
        rw [← hv, m.set_self]
        exact hs
      | some v => exact hs.del (hnew ha).2)
    (T.nodup_numbers (fun a ha => (hnew ha).1) (by simpa using ord.ids_nodup u.newIds)) h1
  have h3 := h2.setNextId (m.undo T u).nextId
  obtain ⟨m4, h4, hnext4, hchanged4, hsame4⟩ := BdbIndex.Represents.foldl
    (fun s item => s.insert T item.1.number item.2)
    (fun item : ObjectId × V => item.1.number) (fun item _ => some item.2)
    (by
      intro item hitem s m hs
      have hput := hs.put (hremoved hitem).2 item.2
      exact hput)
    (T.nodup_numbers (fun item hitem => (hremoved hitem).1) (ord.values_nodup u.removed)) h3
  have hmap : m4 = m.undo T u := by
    refine Memory.ext (funext fun n => ?_) hnext4
    have hnumber : ∀ {a : ObjectId}, a = T.id a.number → a.number = n → a = T.id n :=
      fun ha hn => hn ▸ ha
    show m4.objects n = match u.removed.lookup (T.id n) with
      | some v => some v
      | none => if T.id n ∈ u.newIds then none
        else (m.objects n).map fun w => (u.oldValues.lookup (T.id n)).getD w
    cases hr : u.removed.lookup (T.id n) with
    | some v => exact hchanged4 (T.id n, v) ((ord.mem_values _ _ _).mpr hr)
    | none =>
      have hnot : ∀ item ∈ ord.values u.removed, item.1.number ≠ n := by
        intro item hitem hn
        have hlookup := (ord.mem_values _ item.1 item.2).mp hitem
        rw [hnumber (hremoved hitem).1 hn, hr] at hlookup
        cases hlookup
      rw [hsame4 n hnot]
      show m2.objects n = _
      by_cases hmem : T.id n ∈ u.newIds
      · rw [if_pos hmem]
        exact hchanged2 (T.id n) ((ord.mem_ids _ _).mpr hmem)
      · rw [if_neg hmem]
        have hnot : ∀ a ∈ ord.ids u.newIds, a.number ≠ n := fun a ha hn =>
          hmem (hnumber (hnew ha).1 hn ▸ (ord.mem_ids _ a).mp ha)
        rw [hsame2 n hnot]
        cases ho : u.oldValues.lookup (T.id n) with
        | some v => exact hchanged1 (T.id n, v) ((ord.mem_values _ _ _).mpr ho)
        | none =>
          have hnot : ∀ item ∈ ord.values u.oldValues, item.1.number ≠ n := by
            intro item hitem hn
            have hlookup := (ord.mem_values _ item.1 item.2).mp hitem
            rw [hnumber (hold hitem).1 hn, ho] at hlookup
            cases hlookup
          rw [hsame1 n hnot]
          exact Option.map_id'.symm
  subst hmap
  convert h4 using 1
  simp only [BdbIndex.undo, Memory.undo]
  cases u.oldIndexNextIds.lookup T.index with
  | some a => rfl
  | none =>
    simp only
    rw [← hnext1, ← hnext2, ← h2.nextId]

/-! ### What a state records of one object -/

section Entry

variable {a b : ObjectId} {now before : Option V} {v w : V}

/-- Two states record the same of an object. -/
structure UndoState.SameAt (u u' : UndoState V) (b : ObjectId) : Prop where
  newIds : b ∈ u'.newIds ↔ b ∈ u.newIds
  oldValues : u'.oldValues.lookup b = u.oldValues.lookup b
  removed : u'.removed.lookup b = u.removed.lookup b

theorem UndoState.onCreate_sameAt (u : UndoState V) (h : b ≠ a) : u.SameAt (u.onCreate a) b :=
  ⟨by simp [UndoState.onCreate, h], rfl, rfl⟩

theorem UndoState.onModify_sameAt (u : UndoState V) (w : V) (h : b ≠ a) :
    u.SameAt (u.onModify a w) b := by
  unfold UndoState.onModify
  split
  · exact ⟨Iff.rfl, rfl, rfl⟩
  · split
    · exact ⟨Iff.rfl, rfl, rfl⟩
    · exact ⟨Iff.rfl, Finmap.lookup_insert_of_ne _ h, rfl⟩

theorem UndoState.onRemove_sameAt (u : UndoState V) (w : V) (h : b ≠ a) :
    u.SameAt (u.onRemove a w) b := by
  unfold UndoState.onRemove
  split
  · exact ⟨by simp [h], rfl, rfl⟩
  · split
    · exact ⟨Iff.rfl, Finmap.lookup_erase_ne h, Finmap.lookup_insert_of_ne _ h⟩
    · split
      · exact ⟨Iff.rfl, rfl, rfl⟩
      · exact ⟨Iff.rfl, rfl, Finmap.lookup_insert_of_ne _ h⟩

/-- The record lets undo restore the object `a`, which was `before` and is `now`. -/
structure UndoState.KeptAt (u : UndoState V) (a : ObjectId) (now before : Option V) : Prop where
  new : a ∈ u.newIds → u.oldValues.lookup a = none ∧ (u.removed.lookup a = none → before = none)
  removed : ∀ v, u.removed.lookup a = some v →
    before = some v ∧ u.oldValues.lookup a = none ∧ (now ≠ none → a ∈ u.newIds)
  old : ∀ v, u.oldValues.lookup a = some v → before = some v ∧ now ≠ none
  rest : a ∉ u.newIds → u.removed.lookup a = none → u.oldValues.lookup a = none → now = before

/-- The object was there and undo will not put it back. -/
structure UndoState.LostAt (u : UndoState V) (a : ObjectId) (now before : Option V) : Prop where
  before : before ≠ none
  removed : u.removed.lookup a = none
  gone : a ∈ u.newIds ∨ now = none

theorem UndoState.KeptAt.congr {u' : UndoState V} (h : u.KeptAt a now before)
    (hsame : u.SameAt u' a) : u'.KeptAt a now before := by
  obtain ⟨hnew, hold, hremoved⟩ := hsame
  refine ⟨?_, ?_, ?_, ?_⟩
  · rw [hnew, hold, hremoved]
    exact h.new
  · rw [hnew, hold, hremoved]
    exact h.removed
  · rw [hold]
    exact h.old
  · rw [hnew, hold, hremoved]
    exact h.rest

theorem UndoState.LostAt.congr {u' : UndoState V} (h : u.LostAt a now before)
    (hsame : u.SameAt u' a) : u'.LostAt a now before := by
  obtain ⟨hnew, -, hremoved⟩ := hsame
  exact ⟨h.before, hremoved.trans h.removed, h.gone.imp_left hnew.mpr⟩

theorem UndoState.KeptAt.before_of_not_new (h : u.KeptAt a (some w) before)
    (ha : a ∉ u.newIds) : before ≠ none ∧ u.removed.lookup a = none := by
  have hremoved : u.removed.lookup a = none := by
    cases hr : u.removed.lookup a with
    | none => rfl
    | some v => exact absurd ((h.removed v hr).2.2 (Option.some_ne_none w)) ha
  refine ⟨?_, hremoved⟩
  cases ho : u.oldValues.lookup a with
  | none =>
    rw [← h.rest ha hremoved ho]
    exact Option.some_ne_none w
  | some v =>
    rw [(h.old v ho).1]
    exact Option.some_ne_none v

theorem UndoState.KeptAt.onCreate (h : u.KeptAt a now before) (ha : now = none ∨ a ∈ u.newIds) :
    (u.onCreate a).KeptAt a (some v) before := by
  have hmem : a ∈ (u.onCreate a).newIds := Finset.mem_insert_self a _
  have hold : u.oldValues.lookup a = none := by
    rcases ha with rfl | ha
    · cases ho : u.oldValues.lookup a with
      | none => rfl
      | some x => exact absurd rfl (h.old x ho).2
    · exact (h.new ha).1
  refine ⟨fun _ => ⟨hold, fun hremoved => ?_⟩, ?_, ?_, fun hnot => absurd hmem hnot⟩
  · by_cases hnew : a ∈ u.newIds
    · exact (h.new hnew).2 hremoved
    · rw [← h.rest hnew hremoved hold]
      exact ha.resolve_right hnew
  · intro x hx
    exact ⟨(h.removed x hx).1, hold, fun _ => hmem⟩
  · intro x hx
    exact absurd (hx.symm.trans hold) (Option.some_ne_none x)

theorem UndoState.KeptAt.onModify (h : u.KeptAt a (some w) before) :
    (u.onModify a w).KeptAt a (some v) before := by
  unfold UndoState.onModify
  split
  · rename_i hnew
    refine ⟨h.new, fun x hx => ?_, fun x hx => ?_, fun hnot => absurd hnew hnot⟩
    · exact ⟨(h.removed x hx).1, (h.removed x hx).2.1, fun _ => hnew⟩
    · exact ⟨(h.old x hx).1, Option.some_ne_none v⟩
  · rename_i hnew
    have hremoved := (h.before_of_not_new hnew).2
    split
    · rename_i hmem
      obtain ⟨x, hx⟩ := Finmap.mem_iff.mp hmem
      refine ⟨h.new, fun y hy => ?_, fun y hy => ?_, fun _ _ hnone => ?_⟩
      · exact absurd (hy.symm.trans hremoved) (Option.some_ne_none y)
      · exact ⟨(h.old y hy).1, Option.some_ne_none v⟩
      · exact absurd (hx.symm.trans hnone) (Option.some_ne_none x)
    · rename_i hmem
      have hnone : u.oldValues.lookup a = none := Finmap.lookup_eq_none.mpr hmem
      have hbefore := h.rest hnew hremoved hnone
      have hself : (u.oldValues.insert a w).lookup a = some w := Finmap.lookup_insert _
      refine ⟨fun hin => absurd hin hnew, fun y hy => ?_, fun y hy => ?_, fun _ _ hold => ?_⟩
      · exact absurd (hy.symm.trans hremoved) (Option.some_ne_none y)
      · have hyw : w = y := Option.some.inj (hself.symm.trans hy)
        exact ⟨hyw ▸ hbefore.symm, Option.some_ne_none v⟩
      · exact absurd (hself.symm.trans hold) (Option.some_ne_none w)

theorem UndoState.KeptAt.onRemove (h : u.KeptAt a (some w) before) :
    (u.onRemove a w).KeptAt a none before := by
  unfold UndoState.onRemove
  split
  · rename_i hnew
    have hnot : a ∉ u.newIds.erase a := Finset.notMem_erase a _
    refine ⟨fun hin => absurd hin hnot, fun x hx => ?_, fun x hx => ?_, fun _ hremoved _ => ?_⟩
    · exact ⟨(h.removed x hx).1, (h.new hnew).1, fun hne => absurd rfl hne⟩
    · exact absurd (hx.symm.trans (h.new hnew).1) (Option.some_ne_none x)
    · exact ((h.new hnew).2 hremoved).symm
  · rename_i hnew
    obtain ⟨-, hremoved⟩ := h.before_of_not_new hnew
    split
    · rename_i x hx
      have herase : (u.oldValues.erase a).lookup a = none := Finmap.lookup_erase a _
      have hself : (u.removed.insert a x).lookup a = some x := Finmap.lookup_insert _
      refine ⟨fun hin => absurd hin hnew, fun y hy => ?_, fun y hy => ?_, fun _ hnone _ => ?_⟩
      · have hxy : x = y := Option.some.inj (hself.symm.trans hy)
        exact ⟨hxy ▸ (h.old x hx).1, herase, fun hne => absurd rfl hne⟩
      · exact absurd (hy.symm.trans herase) (Option.some_ne_none y)
      · exact absurd (hself.symm.trans hnone) (Option.some_ne_none x)
    · rename_i hold
      have hnotMem : a ∉ u.removed := Finmap.lookup_eq_none.mp hremoved
      rw [if_neg hnotMem]
      have hself : (u.removed.insert a w).lookup a = some w := Finmap.lookup_insert _
      have hbefore := h.rest hnew hremoved hold
      refine ⟨fun hin => absurd hin hnew, fun y hy => ?_, fun y hy => ?_, fun _ hnone _ => ?_⟩
      · have hwy : w = y := Option.some.inj (hself.symm.trans hy)
        exact ⟨hwy ▸ hbefore.symm, hold, fun hne => absurd rfl hne⟩
      · exact absurd (hy.symm.trans hold) (Option.some_ne_none y)
      · exact absurd (hself.symm.trans hnone) (Option.some_ne_none w)

theorem UndoState.KeptAt.removeById (h : u.KeptAt a now before) (ha : a ∈ u.newIds) :
    u.KeptAt a none before := by
  refine ⟨h.new, fun x hx => ?_, fun x hx => ?_, fun hnot => absurd ha hnot⟩
  · exact ⟨(h.removed x hx).1, (h.removed x hx).2.1, fun hne => absurd rfl hne⟩
  · exact absurd (hx.symm.trans (h.new ha).1) (Option.some_ne_none x)

theorem UndoState.LostAt.onCreate (h : u.LostAt a now before) :
    (u.onCreate a).LostAt a (some v) before :=
  ⟨h.before, h.removed, Or.inl (Finset.mem_insert_self a _)⟩

theorem UndoState.LostAt.onModify (h : u.LostAt a (some w) before) :
    (u.onModify a w).LostAt a (some v) before := by
  have hnew := h.gone.resolve_right (Option.some_ne_none w)
  unfold UndoState.onModify
  rw [if_pos hnew]
  exact ⟨h.before, h.removed, Or.inl hnew⟩

theorem UndoState.LostAt.onRemove (h : u.LostAt a (some w) before) :
    (u.onRemove a w).LostAt a none before := by
  have hnew := h.gone.resolve_right (Option.some_ne_none w)
  unfold UndoState.onRemove
  rw [if_pos hnew]
  exact ⟨h.before, h.removed, Or.inr rfl⟩

theorem UndoState.LostAt.removeById (h : u.LostAt a now before) : u.LostAt a none before :=
  ⟨h.before, h.removed, Or.inr rfl⟩

theorem UndoState.KeptAt.lost_onCreate (h : u.KeptAt a (some w) before) (ha : a ∉ u.newIds) :
    (u.onCreate a).LostAt a (some v) before :=
  ⟨(h.before_of_not_new ha).1, (h.before_of_not_new ha).2,
    Or.inl (Finset.mem_insert_self a _)⟩

theorem UndoState.KeptAt.lost_removeById (h : u.KeptAt a (some w) before) (ha : a ∉ u.newIds) :
    u.LostAt a none before :=
  ⟨(h.before_of_not_new ha).1, (h.before_of_not_new ha).2, Or.inr rfl⟩

end Entry

/-! ### The invariant of a session -/

section Session

variable {before : Memory V} {n : Nat} {v w : V}

theorem ObjectType.id_ne {k : Nat} (h : k ≠ n) : T.id k ≠ T.id n :=
  fun heq => h (congrArg ObjectId.number heq)

theorem UndoState.onModify_oldIndexNextIds (u : UndoState V) (a : ObjectId) (w : V) :
    (u.onModify a w).oldIndexNextIds = u.oldIndexNextIds := by
  unfold UndoState.onModify
  split_ifs <;> rfl

theorem UndoState.onRemove_oldIndexNextIds (u : UndoState V) (a : ObjectId) (w : V) :
    (u.onRemove a w).oldIndexNextIds = u.oldIndexNextIds := by
  unfold UndoState.onRemove
  split
  · rfl
  · split
    · rfl
    · split <;> rfl

/-- Undo will restore the map `before`. -/
structure Memory.Kept (T : ObjectType V) (before m : Memory V) (u : UndoState V) : Prop where
  objects : ∀ n, u.KeptAt (T.id n) (m.objects n) (before.objects n)
  unused : u.oldIndexNextIds.lookup T.index = none → m.nextId = before.nextId
  recorded : ∀ a, u.oldIndexNextIds.lookup T.index = some a → a.number = before.nextId

/-- Undo will not restore the map `before`. -/
def Memory.Lost (T : ObjectType V) (before m : Memory V) (u : UndoState V) : Prop :=
  (∃ n, u.LostAt (T.id n) (m.objects n) (before.objects n)) ∨
    ∃ a, u.oldIndexNextIds.lookup T.index = some a ∧ a.number ≠ before.nextId

/-- A call that undo can take back: a new object is not put over one from before the session, the
first new object of the session has the next id, and only objects of the session are removed by
their id. -/
def Memory.Sound (T : ObjectType V) (m : Memory V) (u : UndoState V) : BdbOp V → Prop
  | .create _ => m.objects m.nextId = none ∨ T.id m.nextId ∈ u.newIds
  | .insert n _ => (m.objects n = none ∨ T.id n ∈ u.newIds) ∧
      (T.index ∈ u.oldIndexNextIds ∨ n.val = m.nextId)
  | .removeById n => T.id n ∈ u.newIds
  | _ => True

theorem Memory.Kept.start (m : Memory V) : Memory.Kept T m m .empty where
  objects _ :=
    ⟨fun h => absurd h (Finset.notMem_empty _), fun _ h => (Option.some_ne_none _ h.symm).elim,
      fun _ h => (Option.some_ne_none _ h.symm).elim, fun _ _ _ => rfl⟩
  unused _ := rfl
  recorded _ h := (Option.some_ne_none _ h.symm).elim

theorem Memory.set_keptAt {u' : UndoState V} {now : Option V}
    (h : ∀ k, u.KeptAt (T.id k) (m.objects k) (before.objects k))
    (hn : u'.KeptAt (T.id n) now (before.objects n))
    (hsame : ∀ k, k ≠ n → u.SameAt u' (T.id k)) (k : Nat) :
    u'.KeptAt (T.id k) ((m.set n now).objects k) (before.objects k) := by
  by_cases hk : k = n
  · subst hk
    rw [m.set_objects_self]
    exact hn
  · rw [m.set_objects_of_ne _ hk]
    exact (h k).congr (hsame k hk)

theorem Memory.set_lostAt {u' : UndoState V} {now : Option V} {k : Nat}
    (h : u.LostAt (T.id k) (m.objects k) (before.objects k))
    (hn : k = n → u'.LostAt (T.id k) now (before.objects k))
    (hsame : k ≠ n → u.SameAt u' (T.id k)) :
    u'.LostAt (T.id k) ((m.set n now).objects k) (before.objects k) := by
  by_cases hk : k = n
  · have hlost := hn hk
    subst hk
    rw [m.set_objects_self]
    exact hlost
  · rw [m.set_objects_of_ne _ hk]
    exact h.congr (hsame hk)

theorem UndoState.onCreate_nextId (u : UndoState V) (n : Nat) :
    (u.onCreate (T.id n)).oldIndexNextIds.lookup T.index =
      some ((u.oldIndexNextIds.lookup T.index).getD (T.id n)) := by
  show (if T.index ∈ u.oldIndexNextIds then _ else _ : Finmap _).lookup T.index = _
  split
  · rename_i hmem
    obtain ⟨a, ha⟩ := Finmap.mem_iff.mp hmem
    rw [ha]
    rfl
  · rename_i hmem
    rw [Finmap.lookup_eq_none.mpr hmem]
    exact Finmap.lookup_insert _

theorem Memory.Kept.onCreate_recorded (h : Memory.Kept T before m u)
    (hn : T.index ∈ u.oldIndexNextIds ∨ n = m.nextId) (a : ObjectId)
    (ha : (u.onCreate (T.id n)).oldIndexNextIds.lookup T.index = some a) :
    a.number = before.nextId := by
  rw [UndoState.onCreate_nextId] at ha
  obtain rfl := Option.some.inj ha
  cases hrec : u.oldIndexNextIds.lookup T.index with
  | some b => exact h.recorded b hrec
  | none =>
    have hnot : T.index ∉ u.oldIndexNextIds := Finmap.lookup_eq_none.mp hrec
    show n = before.nextId
    rw [hn.resolve_left hnot]
    exact h.unused hrec

theorem Memory.Kept.add (h : Memory.Kept T before m u)
    (hfree : m.objects n = none ∨ T.id n ∈ u.newIds)
    (hn : T.index ∈ u.oldIndexNextIds ∨ n = m.nextId) (v : V) (next : Nat) :
    Memory.Kept T before { m.set n (some v) with nextId := next } (u.onCreate (T.id n)) where
  objects := Memory.set_keptAt h.objects ((h.objects n).onCreate hfree)
    fun _ hk => u.onCreate_sameAt (T.id_ne hk)
  unused := fun hnone => by
    rw [UndoState.onCreate_nextId] at hnone
    cases hnone
  recorded := h.onCreate_recorded hn

theorem Memory.Kept.step (h : Memory.Kept T before m u) (hholds : m.Holds op)
    (hsound : m.Sound T u op) : Memory.Kept T before (m.step T op) (m.record T u op) := by
  cases op with
  | create f => exact h.add hsound (Or.inr rfl) _ _
  | insert n v => exact h.add hsound.1 hsound.2 v m.nextId
  | modify n g =>
    obtain ⟨w, hw⟩ := Option.ne_none_iff_exists'.mp hholds
    have hn := h.objects n
    simp only [Memory.step, Memory.record, hw, Option.map_some, Option.getD_some] at hn ⊢
    refine ⟨Memory.set_keptAt h.objects hn.onModify
      fun k hk => u.onModify_sameAt w (T.id_ne hk), ?_, ?_⟩
    · rw [u.onModify_oldIndexNextIds]
      exact h.unused
    · rw [u.onModify_oldIndexNextIds]
      exact h.recorded
  | remove n =>
    obtain ⟨w, hw⟩ := Option.ne_none_iff_exists'.mp hholds
    have hn := h.objects n
    simp only [Memory.step, Memory.record, hw, Option.map_some, Option.getD_some] at hn ⊢
    refine ⟨Memory.set_keptAt h.objects hn.onRemove
      fun k hk => u.onRemove_sameAt w (T.id_ne hk), ?_, ?_⟩
    · rw [u.onRemove_oldIndexNextIds]
      exact h.unused
    · rw [u.onRemove_oldIndexNextIds]
      exact h.recorded
  | removeById n =>
    exact ⟨Memory.set_keptAt h.objects ((h.objects n).removeById hsound)
      fun _ _ => ⟨Iff.rfl, rfl, rfl⟩, h.unused, h.recorded⟩
  | save => exact h

theorem Memory.Kept.lost (h : Memory.Kept T before m u) (hholds : m.Holds op)
    (hsound : ¬m.Sound T u op) : Memory.Lost T before (m.step T op) (m.record T u op) := by
  have hover : ∀ n v next, ¬(m.objects n = none ∨ T.id n ∈ u.newIds) →
      Memory.Lost T before { m.set n (some v) with nextId := next } (u.onCreate (T.id n)) := by
    intro n v next hnot
    obtain ⟨hstored, hnew⟩ := not_or.mp hnot
    obtain ⟨w, hw⟩ := Option.ne_none_iff_exists'.mp hstored
    have hn := h.objects n
    rw [hw] at hn
    refine Or.inl ⟨n, ?_⟩
    show (u.onCreate (T.id n)).LostAt (T.id n) ((m.set n (some v)).objects n) (before.objects n)
    rw [m.set_objects_self]
    exact hn.lost_onCreate hnew
  cases op with
  | create f => exact hover _ _ _ hsound
  | insert n v =>
    rcases not_and_or.mp hsound with hnot | hnot
    · exact hover n v m.nextId hnot
    · obtain ⟨hrec, hne⟩ := not_or.mp hnot
      have hnone := Finmap.lookup_eq_none.mpr hrec
      refine Or.inr ⟨T.id n, ?_, ?_⟩
      · show (u.onCreate (T.id n)).oldIndexNextIds.lookup T.index = _
        rw [UndoState.onCreate_nextId, hnone]
        rfl
      · show n.val ≠ before.nextId
        rw [← h.unused hnone]
        exact hne
  | removeById n =>
    obtain ⟨w, hw⟩ := Option.ne_none_iff_exists'.mp hholds
    have hn := h.objects n
    rw [hw] at hn
    refine Or.inl ⟨n, ?_⟩
    show u.LostAt (T.id n) ((m.set n none).objects n) (before.objects n)
    rw [m.set_objects_self]
    exact hn.lost_removeById hsound
  | modify n g => exact absurd trivial hsound
  | remove n => exact absurd trivial hsound
  | save => exact absurd trivial hsound

theorem Memory.Lost.step (h : Memory.Lost T before m u) (hholds : m.Holds op) :
    Memory.Lost T before (m.step T op) (m.record T u op) := by
  have hadd : ∀ n v next,
      Memory.Lost T before { m.set n (some v) with nextId := next } (u.onCreate (T.id n)) := by
    intro n v next
    rcases h with ⟨k, hk⟩ | ⟨a, ha, hne⟩
    · exact Or.inl ⟨k, Memory.set_lostAt hk (fun heq => heq ▸ hk.onCreate)
        fun hne => u.onCreate_sameAt (T.id_ne hne)⟩
    · refine Or.inr ⟨a, ?_, hne⟩
      rw [UndoState.onCreate_nextId, ha]
      rfl
  cases op with
  | create f => exact hadd _ _ _
  | insert n v => exact hadd n v m.nextId
  | modify n g =>
    obtain ⟨w, hw⟩ := Option.ne_none_iff_exists'.mp hholds
    simp only [Memory.step, Memory.record, hw, Option.map_some, Option.getD_some]
    rcases h with ⟨k, hk⟩ | ⟨a, ha, hne⟩
    · refine Or.inl ⟨k, Memory.set_lostAt hk (fun heq => ?_)
        fun hne => u.onModify_sameAt w (T.id_ne hne)⟩
      subst heq
      rw [hw] at hk
      exact hk.onModify
    · refine Or.inr ⟨a, ?_, hne⟩
      rw [u.onModify_oldIndexNextIds]
      exact ha
  | remove n =>
    obtain ⟨w, hw⟩ := Option.ne_none_iff_exists'.mp hholds
    simp only [Memory.step, Memory.record, hw, Option.map_some, Option.getD_some]
    rcases h with ⟨k, hk⟩ | ⟨a, ha, hne⟩
    · refine Or.inl ⟨k, Memory.set_lostAt hk (fun heq => ?_)
        fun hne => u.onRemove_sameAt w (T.id_ne hne)⟩
      subst heq
      rw [hw] at hk
      exact hk.onRemove
    · refine Or.inr ⟨a, ?_, hne⟩
      rw [u.onRemove_oldIndexNextIds]
      exact ha
  | removeById n =>
    rcases h with ⟨k, hk⟩ | hnext
    · exact Or.inl ⟨k, Memory.set_lostAt hk (fun _ => hk.removeById)
        fun _ => ⟨Iff.rfl, rfl, rfl⟩⟩
    · exact Or.inr hnext
  | save => exact h

theorem Memory.Kept.undo (h : Memory.Kept T before m u) : m.undo T u = before := by
  refine Memory.ext (funext fun n => ?_) ?_
  · have hn := h.objects n
    simp only [Memory.undo]
    cases hr : u.removed.lookup (T.id n) with
    | some v => exact (hn.removed v hr).1.symm
    | none =>
      simp only
      split
      · rename_i hnew
        exact ((hn.new hnew).2 hr).symm
      · rename_i hnew
        cases ho : u.oldValues.lookup (T.id n) with
        | none => exact Option.map_id'.trans (hn.rest hnew hr ho)
        | some v =>
          obtain ⟨hbefore, hnow⟩ := hn.old v ho
          obtain ⟨w, hw⟩ := Option.ne_none_iff_exists'.mp hnow
          rw [hw, hbefore]
          rfl
  · simp only [Memory.undo]
    cases hrec : u.oldIndexNextIds.lookup T.index with
    | some a => exact h.recorded a hrec
    | none => exact h.unused hrec

theorem Memory.Lost.undo (h : Memory.Lost T before m u) : m.undo T u ≠ before := by
  intro heq
  rcases h with ⟨n, hn⟩ | ⟨a, ha, hne⟩
  · refine hn.before ?_
    rw [← heq]
    simp only [Memory.undo, hn.removed]
    rcases hn.gone with hnew | hnow
    · rw [if_pos hnew]
    · rw [hnow]
      split <;> rfl
  · refine hne ?_
    rw [← heq]
    simp only [Memory.undo, ha]

end Session

/-! ### Runs -/

section Runs

variable {before : Memory V}

theorem UndoState.Within.empty : UndoState.Within T .empty :=
  ⟨fun _ h => absurd h Finmap.notMem_empty, fun _ h => absurd h (Finset.notMem_empty _),
    fun _ h => absurd h Finmap.notMem_empty⟩

theorem UndoState.Within.onCreate (h : u.Within T) {n : Nat} (hn : n < 2 ^ 48) :
    (u.onCreate (T.id n)).Within T := by
  refine ⟨h.oldValues, fun a ha => ?_, h.removed⟩
  rcases Finset.mem_insert.mp ha with rfl | ha
  · exact ⟨rfl, hn⟩
  · exact h.newIds a ha

theorem UndoState.Within.onModify (h : u.Within T) {n : Nat} (hn : n < 2 ^ 48) (w : V) :
    (u.onModify (T.id n) w).Within T := by
  unfold UndoState.onModify
  split
  · exact h
  · split
    · exact h
    · refine ⟨fun a ha => ?_, h.newIds, h.removed⟩
      rcases Finmap.mem_insert.mp ha with rfl | ha
      · exact ⟨rfl, hn⟩
      · exact h.oldValues a ha

theorem UndoState.Within.onRemove (h : u.Within T) {n : Nat} (hn : n < 2 ^ 48) (w : V) :
    (u.onRemove (T.id n) w).Within T := by
  have hinsert : ∀ v, ∀ a ∈ u.removed.insert (T.id n) v, a = T.id a.number ∧ a.number < 2 ^ 48 := by
    intro v a ha
    rcases Finmap.mem_insert.mp ha with rfl | ha
    · exact ⟨rfl, hn⟩
    · exact h.removed a ha
  unfold UndoState.onRemove
  split
  · exact ⟨h.oldValues, fun a ha => h.newIds a (Finset.mem_of_mem_erase ha), h.removed⟩
  · split
    · exact ⟨fun a ha => h.oldValues a (Finmap.mem_erase.mp ha).2, h.newIds, hinsert _⟩
    · split
      · exact h
      · exact ⟨h.oldValues, h.newIds, hinsert w⟩

theorem UndoState.Within.record (h : u.Within T) (hids : m.nextId + BdbOp.creates [op] ≤ 2 ^ 48) :
    (m.record T u op).Within T := by
  cases op with
  | create f => exact h.onCreate (Nat.lt_of_succ_le hids)
  | insert n v => exact h.onCreate n.isLt
  | modify n g =>
    show (((m.objects n).map (u.onModify (T.id n))).getD u).Within T
    cases m.objects n with
    | none => exact h
    | some w => exact h.onModify n.isLt w
  | remove n =>
    show (((m.objects n).map (u.onRemove (T.id n))).getD u).Within T
    cases m.objects n with
    | none => exact h
    | some w => exact h.onRemove n.isLt w
  | removeById n => exact h
  | save => exact h

theorem BdbOp.creates_cons (op : BdbOp V) (ops : List (BdbOp V)) :
    BdbOp.creates (op :: ops) = BdbOp.creates [op] + BdbOp.creates ops := by
  cases op <;> simp only [BdbOp.creates] <;> omega

theorem Memory.step_nextId (m : Memory V) (op : BdbOp V) :
    (m.step T op).nextId = m.nextId + BdbOp.creates [op] := by
  cases op <;> rfl

/-- The calls of a run, each with the session it is made in. -/
def BdbSession.Each (T : ObjectType V) (P : BdbSession V → BdbOp V → Prop) :
    BdbSession V → List (BdbOp V) → Prop
  | _, [] => True
  | r, op :: ops => P r op ∧ ∀ r', r.exec T op = some r' → Each T P r' ops

theorem BdbSession.run_represents (h : r.index.Represents T m) (hu : r.undo.Within T)
    (hids : m.nextId + BdbOp.creates ops ≤ 2 ^ 48) (hrun : r.run T ops = some r') :
    r'.index.Represents T (ops.foldl (Memory.step T) m) ∧ r'.undo.Within T := by
  induction ops generalizing r m with
  | nil =>
    obtain rfl := Option.some.inj hrun
    exact ⟨h, hu⟩
  | cons op ops ih =>
    rw [BdbOp.creates_cons] at hids
    obtain ⟨r1, hexec, hrest⟩ := Option.bind_eq_some_iff.mp hrun
    obtain ⟨-, h1, hu1⟩ := r.exec_represents h (by rw [h.nextId]; omega) hexec
    refine ih h1 ?_ ?_ hrest
    · rw [hu1]
      exact hu.record (by omega)
    · rw [m.step_nextId]
      omega

/-- `Memory.Sound` on the file. -/
def BdbSession.Sound (T : ObjectType V) (r : BdbSession V) : BdbOp V → Prop
  | .create _ => r.index.findDb T r.index.nextId = some none ∨
      T.id r.index.nextId ∈ r.undo.newIds
  | .insert n _ => (r.index.findDb T n = some none ∨ T.id n ∈ r.undo.newIds) ∧
      (T.index ∈ r.undo.oldIndexNextIds ∨ n.val = r.index.nextId)
  | .removeById n => T.id n ∈ r.undo.newIds
  | _ => True

theorem BdbIndex.Represents.findDb_eq_none (h : s.Represents T m) {n : Nat} (hn : n < 2 ^ 48) :
    s.findDb T n = some none ↔ m.objects n = none := by
  rw [h.findDb_eq hn]
  cases m.objects n <;> simp

theorem BdbSession.sound_iff (h : r.index.Represents T m)
    (hids : m.nextId + BdbOp.creates [op] ≤ 2 ^ 48) : r.Sound T op ↔ m.Sound T r.undo op := by
  cases op with
  | create f =>
    have hn : m.nextId < 2 ^ 48 := Nat.lt_of_succ_le hids
    simp only [BdbSession.Sound, Memory.Sound, h.nextId, h.findDb_eq_none hn]
  | insert n v =>
    simp only [BdbSession.Sound, Memory.Sound, h.nextId, h.findDb_eq_none n.isLt]
  | removeById n => exact Iff.rfl
  | modify n g => exact Iff.rfl
  | remove n => exact Iff.rfl
  | save => exact Iff.rfl

theorem BdbSession.run_lost (h : r.index.Represents T m)
    (hids : m.nextId + BdbOp.creates ops ≤ 2 ^ 48) (hrun : r.run T ops = some r')
    (hlost : Memory.Lost T before m r.undo) :
    Memory.Lost T before (ops.foldl (Memory.step T) m) r'.undo := by
  induction ops generalizing r m with
  | nil =>
    obtain rfl := Option.some.inj hrun
    exact hlost
  | cons op ops ih =>
    rw [BdbOp.creates_cons] at hids
    obtain ⟨r1, hexec, hrest⟩ := Option.bind_eq_some_iff.mp hrun
    obtain ⟨hholds, h1, hu1⟩ := r.exec_represents h (by rw [h.nextId]; omega) hexec
    refine ih h1 ?_ hrest ?_
    · rw [m.step_nextId]
      omega
    · rw [hu1]
      exact hlost.step hholds

theorem BdbSession.run_kept (h : r.index.Represents T m)
    (hids : m.nextId + BdbOp.creates ops ≤ 2 ^ 48) (hrun : r.run T ops = some r')
    (hkept : Memory.Kept T before m r.undo) :
    (ops.foldl (Memory.step T) m).undo T r'.undo = before ↔
      BdbSession.Each T (BdbSession.Sound T) r ops := by
  induction ops generalizing r m with
  | nil =>
    obtain rfl := Option.some.inj hrun
    exact iff_of_true hkept.undo trivial
  | cons op ops ih =>
    rw [BdbOp.creates_cons] at hids
    obtain ⟨r1, hexec, hrest⟩ := Option.bind_eq_some_iff.mp hrun
    obtain ⟨hholds, h1, hu1⟩ := r.exec_represents h (by rw [h.nextId]; omega) hexec
    have hids1 : (m.step T op).nextId + BdbOp.creates ops ≤ 2 ^ 48 := by
      rw [m.step_nextId]
      omega
    have hsound : r.Sound T op ↔ m.Sound T r.undo op := BdbSession.sound_iff h (by omega)
    by_cases hs : m.Sound T r.undo op
    · have hkept1 : Memory.Kept T before (m.step T op) r1.undo := by
        rw [hu1]
        exact hkept.step hholds hs
      rw [List.foldl_cons, ih h1 hids1 hrest hkept1]
      constructor
      · intro heach
        refine ⟨hsound.mpr hs, fun r2 hr2 => ?_⟩
        obtain rfl := Option.some.inj (hexec.symm.trans hr2)
        exact heach
      · intro heach
        exact heach.2 r1 hexec
    · have hlost1 : Memory.Lost T before (m.step T op) r1.undo := by
        rw [hu1]
        exact hkept.lost hholds hs
      refine iff_of_false (BdbSession.run_lost h1 hids1 hrest hlost1).undo ?_
      intro heach
      exact hs (hsound.mp heach.1)

theorem BdbIndex.Reachable.represents (h : BdbIndex.Reachable T s) : ∃ m, s.Represents T m := by
  induction h with
  | empty => exact ⟨.empty, BdbIndex.represents_empty⟩
  | run _ hids hrun ih =>
    obtain ⟨m, hm⟩ := ih
    rw [hm.nextId] at hids
    exact ⟨_, (BdbSession.run_represents hm .empty hids hrun).1⟩
  | undo ord _ hids hrun ih =>
    obtain ⟨m, hm⟩ := ih
    rw [hm.nextId] at hids
    obtain ⟨hrep, hu⟩ := BdbSession.run_represents hm .empty hids hrun
    exact ⟨_, hrep.undo ord hu⟩

end Runs

end Nestchain.Db
