import Nestchain.Db.Layers

/-! Secondary indexes.  A primary index tells its secondary indexes of every object that is
inserted, removed or modified, also while a session is taken back.  A relation between the objects
and a secondary index that each of these keeps is kept by every run of calls. -/

namespace Nestchain.Db

/-- `secondary_index` -/
structure SecondaryIndex (V σ : Type) where
  objectInserted : ObjectId → V → σ → σ
  objectRemoved : ObjectId → V → σ → σ
  aboutToModify : ObjectId → V → σ → σ
  objectModified : ObjectId → V → σ → σ

/-- A database of objects with a secondary index on them. -/
structure IndexedDatabase (V σ : Type) where
  db : ObjectDatabase V
  index : σ

section

variable {V K σ : Type} [DecidableEq K]

namespace SecondaryIndex

variable (idx : SecondaryIndex V σ) (sch : Schema V K)

/-- What the index is told by a mutator that succeeds. -/
def afterOp (s : Store V) (i : σ) : Op V → σ
  | .create j f => idx.objectInserted ⟨j, s.nextId j⟩ (f ⟨j, s.nextId j⟩) i
  | .modify a f =>
    match s.objects.lookup a with
    | none => i
    | some v => idx.objectModified a (f v) (idx.aboutToModify a v i)
  | .remove a =>
    match s.objects.lookup a with
    | none => i
    | some v => idx.objectRemoved a v i
  | .removeById a =>
    match s.objects.lookup a with
    | none => i
    | some v => idx.objectRemoved a v i

/-- One iteration over `old_values` -/
def modifyBack (r : Restored V × σ) (item : ObjectId × V) : Restored V × σ :=
  (r.1.modify sch item,
    match r.1.store.objects.lookup item.1 with
    | none => r.2
    | some v =>
      if (r.1.store.modify sch item.1 fun _ => item.2).1 then
        idx.objectModified item.1 item.2 (idx.aboutToModify item.1 v r.2)
      else
        idx.aboutToModify item.1 v r.2)

/-- One iteration over `new_ids` -/
def removeBack (r : Restored V × σ) (a : ObjectId) : Restored V × σ :=
  (r.1.remove a,
    match r.1.store.objects.lookup a with
    | none => r.2
    | some v => idx.objectRemoved a v r.2)

/-- One iteration over `removed` -/
def insertBack (r : Restored V × σ) (item : ObjectId × V) : Restored V × σ :=
  (r.1.insert sch item,
    if r.1.threw then r.2
    else
      match r.1.store.insert sch item.1 item.2 with
      | some _ => idx.objectInserted item.1 item.2 r.2
      | none => r.2)

/-- The loops of `UndoState.restore`, and what they tell the index. -/
def restore (ord : IterationOrder V) (u : UndoState V) (s : Store V) (i : σ) : Restored V × σ :=
  let changed := (ord.values u.oldValues).foldl (idx.modifyBack sch) (⟨s, [], false⟩, i)
  let kept := (ord.ids u.newIds).foldl idx.removeBack changed
  (ord.values u.removed).foldl (idx.insertBack sch) (kept.1.setNextIds u.oldIndexNextIds, kept.2)

def after (ord : IterationOrder V) (x : IndexedDatabase V σ) : Call V → σ
  | .op op => idx.afterOp x.db.store x.index op
  | .startUndoSession _ => x.index
  | .commit => x.index
  | .merge => x.index
  | .undo | .popCommit =>
    match x.db.undoDb.stack with
    | [] => x.index
    | u :: _ => (idx.restore sch ord u x.db.store x.index).2

end SecondaryIndex

/-- The database and the index after a call that succeeds. -/
def IndexedDatabase.perform (idx : SecondaryIndex V σ) (sch : Schema V K) (ord : IterationOrder V)
    (x : IndexedDatabase V σ) (call : Call V) : Option (IndexedDatabase V σ) :=
  (x.db.perform sch ord call).map fun db => ⟨db, idx.after sch ord x call⟩

/-- The database and the index after calls that all succeed. -/
def IndexedDatabase.run (idx : SecondaryIndex V σ) (sch : Schema V K) (ord : IterationOrder V)
    (x : IndexedDatabase V σ) : List (Call V) → Option (IndexedDatabase V σ)
  | [] => some x
  | call :: calls => (x.perform idx sch ord call).bind fun y => y.run idx sch ord calls

theorem IndexedDatabase.run_append {idx : SecondaryIndex V σ} {sch : Schema V K}
    {ord : IterationOrder V} (x : IndexedDatabase V σ) (calls calls' : List (Call V)) :
    x.run idx sch ord (calls ++ calls') =
      (x.run idx sch ord calls).bind fun y => y.run idx sch ord calls' := by
  induction calls generalizing x with
  | nil => rfl
  | cons call calls ih => simp only [List.cons_append, IndexedDatabase.run, Option.bind_assoc, ih]

/-! ### What the calls keep -/

/-- A relation between objects and index that insertions and removals keep, and modifications within
an equivalence of the values. -/
structure Mirrors (idx : SecondaryIndex V σ) (Q : V → V → Prop)
    (P : (Finmap fun _ : ObjectId => V) → σ → Prop) : Prop where
  equivalence : Equivalence Q
  inserted : ∀ {m i a} {v : V}, P m i → a ∉ m → P (m.insert a v) (idx.objectInserted a v i)
  removed : ∀ {m i a v}, P m i → m.lookup a = some v → P (m.erase a) (idx.objectRemoved a v i)
  modified : ∀ {m i a v w}, P m i → m.lookup a = some v → Q v w →
    P (m.insert a w) (idx.objectModified a w (idx.aboutToModify a v i))

/-- The objects that exist at both ends are equivalent. -/
def Alike (Q : V → V → Prop) (s0 s : Store V) : Prop :=
  ∀ a v w, s0.objects.lookup a = some v → s.objects.lookup a = some w → Q v w

variable {idx : SecondaryIndex V σ} {sch : Schema V K} {ord : IterationOrder V} {Q : V → V → Prop}
  {P : (Finmap fun _ : ObjectId => V) → σ → Prop}

theorem Alike.insert {s0 s : Store V} {a : ObjectId} {v w : V} {next : IndexId → Nat}
    (h : Alike Q s0 s) (htrans : Equivalence Q) (hv : s.objects.lookup a = some v) (hw : Q v w) :
    Alike Q s0 ⟨s.objects.insert a w, next⟩ := by
  intro b x y hx hy
  by_cases hb : b = a
  · subst hb
    have hy : (s.objects.insert b w).lookup b = some y := hy
    rw [Finmap.lookup_insert] at hy
    obtain rfl := Option.some.inj hy
    exact htrans.trans (h b x v hx hv) hw
  · have hy : (s.objects.insert a w).lookup b = some y := hy
    rw [Finmap.lookup_insert_of_ne _ hb] at hy
    exact h b x y hx hy

theorem Alike.erase {s0 s : Store V} {a : ObjectId} (h : Alike Q s0 s) :
    Alike Q s0 { s with objects := s.objects.erase a } := by
  intro b x y hx hy
  have hy : (s.objects.erase a).lookup b = some y := hy
  by_cases hb : b = a
  · subst hb
    rw [Finmap.lookup_erase] at hy
    cases hy
  · rw [Finmap.lookup_erase_ne hb] at hy
    exact h b x y hx hy

omit [DecidableEq K] in
theorem Alike.create {s0 s : Store V} {u : UndoState V} {i : IndexId} {w : V} {next : IndexId → Nat}
    (h : Alike Q s0 s) (hrec : Records sch s0 u s ∅) :
    Alike Q s0 ⟨s.objects.insert ⟨i, s.nextId i⟩ w, next⟩ := by
  intro b x y hx hy
  by_cases hb : b = ⟨i, s.nextId i⟩
  · subst hb
    have hfresh : s.nextId i < s0.nextId i := hrec.wf0.fresh _ (mem_of_lookup hx)
    have hle := hrec.next_le i
    omega
  · have hy : (s.objects.insert ⟨i, s.nextId i⟩ w).lookup b = some y := hy
    rw [Finmap.lookup_insert_of_ne _ hb] at hy
    exact h b x y hx hy

omit [DecidableEq K] in
theorem Alike.trans {s0 s1 s : Store V} {u0 u1 : UndoState V} (hQ : Equivalence Q)
    (hrec0 : Records sch s0 u0 s1 ∅) (hrec1 : Records sch s1 u1 s ∅) (h0 : Alike Q s0 s1)
    (h1 : Alike Q s1 s) : Alike Q s0 s := by
  intro a v w hv hw
  have hbetween : ∃ x, s1.objects.lookup a = some x := by
    have hold : a.number < s1.nextId a.index := by
      have := hrec0.wf0.fresh a (mem_of_lookup hv)
      have := hrec0.next_le a.index
      omega
    have hnew : a ∉ u1.newIds := by
      intro hnew
      have := (hrec1.new a hnew).1
      omega
    have hremoved : a ∉ u1.removed := hrec1.not_removed (mem_of_lookup hw)
    by_cases hchanged : a ∈ u1.oldValues
    · obtain ⟨x, hx⟩ := Finmap.mem_iff.mp hchanged
      exact ⟨x, (hrec1.old a x hx).1⟩
    · exact ⟨w, (hrec1.other a hnew hchanged hremoved (Set.notMem_empty a)).symm.trans hw⟩
  obtain ⟨x, hx⟩ := hbetween
  exact hQ.trans (h0 a v x hv hx) (h1 a x w hx hw)

/-- In-memory indexes in which no two objects can meet in a unique key. -/
structure Schema.Plain (sch : Schema V K) : Prop where
  inMemory : ∀ i, sch.isExternalDb i = false
  free : ∀ (s : Store V) a v, ¬s.Conflict sch a v

namespace Mirrors

variable (hm : Mirrors idx Q P) (hsch : sch.Plain)

include hm hsch

theorem modifyBack (l : List (ObjectId × V)) : ∀ (r : Restored V × σ), (l.map Prod.fst).Nodup →
    P r.1.store.objects r.2 →
    (∀ item ∈ l, ∀ w, r.1.store.objects.lookup item.1 = some w → Q w item.2) →
    P (l.foldl (idx.modifyBack sch) r).1.store.objects (l.foldl (idx.modifyBack sch) r).2 := by
  induction l with
  | nil =>
    intro r _ hP _
    exact hP
  | cons item l ih =>
    intro r hnodup hP hold
    obtain ⟨hother, hnodup⟩ := List.nodup_cons.mp hnodup
    rw [List.foldl_cons]
    cases hw : r.1.store.objects.lookup item.1 with
    | none =>
      have hsame : (idx.modifyBack sch r item).1.store = r.1.store ∧
          (idx.modifyBack sch r item).2 = r.2 := by
        simp only [SecondaryIndex.modifyBack, Restored.modify, Store.modify, hw, and_self]
      refine ih _ hnodup ?_ fun b hb w hbw => ?_
      · rw [hsame.1, hsame.2]
        exact hP
      · rw [hsame.1] at hbw
        exact hold b (List.mem_cons_of_mem _ hb) w hbw
    | some w =>
      have hmodify : r.1.store.modify sch item.1 (fun _ => item.2) =
          (true, { r.1.store with objects := r.1.store.objects.insert item.1 item.2 }) :=
        Store.modify_of_lookup hw (hsch.free _ _ _)
      have hback : (idx.modifyBack sch r item).1.store.objects =
        r.1.store.objects.insert item.1 item.2 ∧
          (idx.modifyBack sch r item).2 =
            idx.objectModified item.1 item.2 (idx.aboutToModify item.1 w r.2) := by
        simp only [SecondaryIndex.modifyBack, Restored.modify, hmodify, hw, if_true, and_self]
      refine ih _ hnodup ?_ fun b hb x hbx => ?_
      · rw [hback.1, hback.2]
        exact hm.modified hP hw (hold item List.mem_cons_self w hw)
      · have hne : b.1 ≠ item.1 := fun heq => hother (heq ▸ List.mem_map_of_mem hb)
        rw [hback.1, Finmap.lookup_insert_of_ne _ hne] at hbx
        exact hold b (List.mem_cons_of_mem _ hb) x hbx

omit hsch in
theorem removeBack (l : List ObjectId) : ∀ (r : Restored V × σ), P r.1.store.objects r.2 →
    P (l.foldl idx.removeBack r).1.store.objects (l.foldl idx.removeBack r).2 := by
  induction l with
  | nil =>
    intro r hP
    exact hP
  | cons a l ih =>
    intro r hP
    rw [List.foldl_cons]
    refine ih _ ?_
    cases hv : r.1.store.objects.lookup a with
    | none =>
      have hgone : a ∉ r.1.store.objects := Finmap.lookup_eq_none.mp hv
      simp only [SecondaryIndex.removeBack, Restored.remove, Store.remove, if_neg hgone, hv]
      exact hP
    | some v =>
      simp only [SecondaryIndex.removeBack, Restored.remove, Store.remove,
        if_pos (mem_of_lookup hv), hv]
      exact hm.removed hP hv

theorem insertBack (l : List (ObjectId × V)) : ∀ (r : Restored V × σ), P r.1.store.objects r.2 →
    P (l.foldl (idx.insertBack sch) r).1.store.objects (l.foldl (idx.insertBack sch) r).2 := by
  induction l with
  | nil =>
    intro r hP
    exact hP
  | cons item l ih =>
    intro r hP
    rw [List.foldl_cons]
    refine ih _ ?_
    unfold SecondaryIndex.insertBack Restored.insert
    split
    · exact hP
    · cases hinsert : r.1.store.insert sch item.1 item.2 with
      | none => exact hP
      | some s' =>
        have hfresh : item.1 ∉ r.1.store.objects := by
          intro hmem
          simp only [Store.insert, hsch.inMemory, true_and, if_pos (Or.inl hmem), reduceCtorEq]
            at hinsert
        rw [Store.insert_eq hinsert]
        exact hm.inserted hP hfresh

theorem restore {s0 s : Store V} {u : UndoState V} {i : σ} (hrec : Records sch s0 u s ∅)
    (halike : Alike Q s0 s) (hP : P s.objects i) :
    P (u.restore sch ord s).store.objects (idx.restore sch ord u s i).2 := by
  have hstore : (idx.restore sch ord u s i).1 = u.restore sch ord s := by
    have hfst : ∀ {ι : Type} (f : Restored V × σ → ι → Restored V × σ)
      (g : Restored V → ι → Restored V),
        (∀ r x, (f r x).1 = g r.1 x) → ∀ (l : List ι) r, (l.foldl f r).1 = l.foldl g r.1 := by
      intro ι f g hfg l
      induction l with
      | nil =>
        intro r
        rfl
      | cons x l ih =>
        intro r
        rw [List.foldl_cons, List.foldl_cons, ih, hfg]
    simp only [SecondaryIndex.restore, UndoState.restore]
    rw [hfst _ (Restored.insert sch) fun _ _ => rfl, hfst _ Restored.remove fun _ _ => rfl,
      hfst _ (Restored.modify sch) fun _ _ => rfl]
  rw [← hstore]
  refine hm.insertBack hsch _ _ ?_
  refine hm.removeBack _ _ ?_
  refine hm.modifyBack hsch _ _ (ord.values_nodup _) hP fun item hitem w hw => ?_
  have hold := (ord.mem_values _ item.1 item.2).mp hitem
  exact hm.equivalence.symm (halike item.1 item.2 w (hrec.old _ _ hold).1 hw)

omit hsch in
theorem alike_refl (s : Store V) : Alike Q s s := by
  intro a v w hv hw
  obtain rfl := Option.some.inj (hv.symm.trans hw)
  exact hm.equivalence.refl v

theorem executed {x : IndexedDatabase V σ} {db' : ObjectDatabase V} {op : Op V}
    (hP : P x.db.store.objects x.index) (hlayered : Layered sch (Alike Q) x.db)
    (h : x.db.exec sch op = some db')
    (hmodify : ∀ a f v, op = .modify a f → x.db.store.objects.lookup a = some v → Q v (f v)) :
    P db'.store.objects (idx.afterOp x.db.store x.index op) ∧ Layered sch (Alike Q) db' := by
  cases ObjectDatabase.exec_executed h with
  | @created j f s' hcreate =>
    have hcreated := Store.create_eq hcreate
    constructor
    · show P s'.objects (idx.objectInserted _ _ x.index)
      rw [hcreated]
      refine hm.inserted hP fun hmem => ?_
      exact absurd (hlayered.layers.wellFormed.fresh _ hmem) (Nat.lt_irrefl _)
    · refine hlayered.record (.created hcreate) (fun a ha => by cases ha) (hm.alike_refl _) ?_
      intro s0 u hrec halike
      rw [hcreated]
      exact halike.create hrec
  | @modified a f v hv hc =>
    have hQ := hmodify a f v rfl hv
    constructor
    · show P _ (idx.afterOp x.db.store x.index (.modify a f))
      simp only [SecondaryIndex.afterOp, hv]
      exact hm.modified hP hv hQ
    · refine hlayered.record (.modified hv hc) (fun b hb => by cases hb) (hm.alike_refl _) ?_
      intro s0 u hrec halike
      exact halike.insert hm.equivalence hv hQ
  | @removed op a v hop hv =>
    constructor
    · have hafter : idx.afterOp x.db.store x.index op = idx.objectRemoved a v x.index := by
        rcases hop with rfl | rfl <;> simp only [SecondaryIndex.afterOp, hv]
      rw [hafter]
      exact hm.removed hP hv
    · refine hlayered.record (.removed hv) (fun b hb => by cases hb) (hm.alike_refl _) ?_
      intro s0 u hrec halike
      exact halike.erase
  | erased hv hx =>
    rw [hsch.inMemory] at hx
    cases hx

theorem tookBack {x : IndexedDatabase V σ} {db' : ObjectDatabase V} {u : UndoState V}
    {rest : List (UndoState V)} (hP : P x.db.store.objects x.index)
    (hlayered : Layered sch (Alike Q) x.db) (hstack : x.db.undoDb.stack = u :: rest)
    (hstore : db'.store = (u.restore sch ord x.db.store).store)
    (hrest : db'.undoDb.stack = rest) (henabled : db'.undoDb.disabled = false) :
    P db'.store.objects (idx.restore sch ord u x.db.store x.index).2 ∧
      Layered sch (Alike Q) db' := by
  obtain ⟨s0, hbelow, halike, hrec, hrestore⟩ :=
    hlayered.undo hstack ord fun s0 _ a v _ _ => hsch.free _ a v
  refine ⟨?_, ?_, fun hdisabled => ?_⟩
  · rw [hstore]
    exact hm.restore hsch hrec halike hP
  · rw [hstore, hrestore, hrest]
    exact hbelow
  · rw [henabled] at hdisabled
    cases hdisabled

theorem perform {x y : IndexedDatabase V σ} {call : Call V} (hP : P x.db.store.objects x.index)
    (hlayered : Layered sch (Alike Q) x.db) (h : x.perform idx sch ord call = some y)
    (hmodify : ∀ a f v, call = .op (.modify a f) → x.db.store.objects.lookup a = some v →
      Q v (f v)) :
    P y.db.store.objects y.index ∧ Layered sch (Alike Q) y.db := by
  obtain ⟨db', hdb, rfl⟩ := Option.map_eq_some_iff.mp h
  cases call with
  | op op =>
    exact hm.executed hsch hP hlayered hdb fun a f v hop => hmodify a f v (congrArg Call.op hop)
  | startUndoSession force =>
    obtain rfl := Option.some.inj hdb
    refine ⟨?_, hlayered.startUndoSession (hm.alike_refl _) force⟩
    have hstore : (x.db.startUndoSession force).store = x.db.store := by
      unfold ObjectDatabase.startUndoSession
      split <;> rfl
    rw [hstore]
    exact hP
  | commit =>
    have hstore : db'.store = x.db.store := by
      have hdb : x.db.commit = some db' := hdb
      unfold ObjectDatabase.commit at hdb
      split at hdb
      · cases hdb
      · obtain rfl := Option.some.inj hdb
        rfl
    refine ⟨?_, hlayered.commit hdb⟩
    rw [hstore]
    exact hP
  | merge =>
    refine ⟨?_, hlayered.merge (fun s0 s1 u1 u0 h0 h1 => Alike.trans hm.equivalence h0 h1) hdb⟩
    rw [ObjectDatabase.merge_store hdb]
    exact hP
  | undo =>
    obtain ⟨u, rest, hst, -, hstore, hrest, hen⟩ := ObjectDatabase.undo_eq (Or.inl hdb)
    have hafter : idx.after sch ord x .undo = (idx.restore sch ord u x.db.store x.index).2 := by
      simp only [SecondaryIndex.after, hst]
    show P _ (idx.after sch ord x .undo) ∧ _
    rw [hafter]
    exact hm.tookBack hsch hP hlayered hst hstore hrest hen
  | popCommit =>
    obtain ⟨u, rest, hst, -, hstore, hrest, hen⟩ := ObjectDatabase.undo_eq (Or.inr hdb)
    have hafter : idx.after sch ord x .popCommit =
      (idx.restore sch ord u x.db.store x.index).2 := by
      simp only [SecondaryIndex.after, hst]
    show P _ (idx.after sch ord x .popCommit) ∧ _
    rw [hafter]
    exact hm.tookBack hsch hP hlayered hst hstore hrest hen

theorem run (calls : List (Call V)) : ∀ {x y : IndexedDatabase V σ}, P x.db.store.objects x.index →
    Layered sch (Alike Q) x.db → x.run idx sch ord calls = some y →
    (∀ before a f after z v, calls = before ++ .op (.modify a f) :: after →
      x.run idx sch ord before = some z → z.db.store.objects.lookup a = some v → Q v (f v)) →
    P y.db.store.objects y.index ∧ Layered sch (Alike Q) y.db := by
  induction calls with
  | nil =>
    intro x y hP hlayered h _
    obtain rfl := Option.some.inj h
    exact ⟨hP, hlayered⟩
  | cons call calls ih =>
    intro x y hP hlayered h hmodify
    obtain ⟨z, hz, h⟩ := Option.bind_eq_some_iff.mp h
    obtain ⟨hP', hlayered'⟩ := hm.perform hsch hP hlayered hz fun a f v hcall hv =>
      hmodify [] a f calls x v (by rw [hcall, List.nil_append]) rfl hv
    refine ih hP' hlayered' h fun before a f after w v hcalls hw hv => ?_
    refine hmodify (call :: before) a f after w v (by rw [hcalls, List.cons_append]) ?_ hv
    simp only [IndexedDatabase.run, hz, Option.bind_some, hw]

end Mirrors

end

end Nestchain.Db
