import Nestchain.Db.Merge

/-! The undo stack over whole runs.  Every state of the stack holds the events of a run of store
steps, from the store that taking it back leads to; this is kept by the mutators and by starting,
merging and taking back sessions. -/

namespace Nestchain.Db

variable {V K : Type} [DecidableEq K] {sch : Schema V K} {R : Store V → Store V → Prop}

/-- `s` is reached over the states of a stack: the first holds the events of the steps from a store
that is reached over the others and related to `s` by `R`. -/
inductive Layers (sch : Schema V K) (R : Store V → Store V → Prop) :
    Store V → List (UndoState V) → Prop
  | bottom {s : Store V} (hwf : s.WellFormed sch) : Layers sch R s []
  | layer {s0 s : Store V} {rest : List (UndoState V)} {es : List (Event V)}
      (below : Layers sch R s0 rest) (hsteps : StoreSteps sch s0 es s) (hkept : ∀ a, .erased a ∉ es)
      (hrel : R s0 s) : Layers sch R s (es.foldl UndoState.apply .empty :: rest)

theorem StoreSteps.records_all {s0 s : Store V} {es : List (Event V)} (hwf : s0.WellFormed sch)
    (h : StoreSteps sch s0 es s) (hkept : ∀ a, .erased a ∉ es) :
    Records sch s0 (es.foldl UndoState.apply .empty) s ∅ := by
  have hrecords := (Records.start hwf).steps h
  have hnone : (∅ ∪ {a | .erased a ∈ es} : Set ObjectId) = ∅ := by
    rw [Set.empty_union]
    exact Set.eq_empty_iff_forall_notMem.mpr hkept
  rwa [hnone] at hrecords

namespace Layers

variable {s s' : Store V} {u : UndoState V} {stack rest : List (UndoState V)}

theorem wellFormed (h : Layers sch R s stack) : s.WellFormed sch := by
  induction h with
  | bottom hwf => exact hwf
  | layer below hsteps hkept hrel ih => exact (hsteps.records_all ih hkept).wf

theorem top (h : Layers sch R s (u :: rest)) :
    ∃ s0, Layers sch R s0 rest ∧ Records sch s0 u s ∅ ∧ R s0 s := by
  cases h with
  | layer below hsteps hkept hrel =>
    exact ⟨_, below, hsteps.records_all below.wellFormed hkept, hrel⟩

theorem take (h : Layers sch R s stack) (n : Nat) : Layers sch R s (stack.take n) := by
  induction h generalizing n with
  | bottom hwf =>
    rw [List.take_nil]
    exact .bottom hwf
  | layer below hsteps hkept hrel ih =>
    cases n with
    | zero => exact .bottom (hsteps.records_all below.wellFormed hkept).wf
    | succ n => exact .layer (ih n) hsteps hkept hrel

theorem start (h : Layers sch R s stack) (hrel : R s s) : Layers sch R s (.empty :: stack) := by
  show Layers sch R s (([] : List (Event V)).foldl UndoState.apply .empty :: stack)
  refine .layer h (.nil s) (fun a ha => ?_) hrel
  cases ha

theorem step (h : Layers sch R s (u :: rest)) {e : Event V} (hstep : StoreStep sch s e s')
    (hkept : ∀ a, e ≠ .erased a) (hrel : ∀ s0, s0.WellFormed sch → Records sch s0 u s ∅ → R s0 s →
      R s0 s') :
    Layers sch R s' (u.apply e :: rest) := by
  cases h with
  | @layer s0 s rest es below hsteps hnone hbefore =>
    have hlast : (es.foldl UndoState.apply .empty).apply e =
        (es ++ [e]).foldl UndoState.apply .empty := by
      rw [List.foldl_append, List.foldl_cons, List.foldl_nil]
    rw [hlast]
    refine .layer below (hsteps.append (.cons hstep (.nil s'))) (fun a ha => ?_) ?_
    · rcases List.mem_append.mp ha with ha | ha
      · exact hnone a ha
      · exact hkept a (List.mem_singleton.mp ha).symm
    · exact hrel s0 below.wellFormed (hsteps.records_all below.wellFormed hnone) hbefore

theorem merge {prev state : UndoState V} (h : Layers sch R s (state :: prev :: rest))
    (hrel : ∀ s0 s1, Records sch s0 prev s1 ∅ → Records sch s1 state s ∅ → R s0 s1 → R s1 s →
      R s0 s)
    (ord : IterationOrder V) : Layers sch R s (prev.mergeInto ord state :: rest) := by
  cases h with
  | @layer s1 s rest es1 below hsteps1 hkept1 hrel1 =>
    cases below with
    | @layer s0 s1 rest es0 below hsteps0 hkept0 hrel0 =>
      have hrec0 := hsteps0.records_all below.wellFormed hkept0
      have hrec1 := hsteps1.records_all hrec0.wf hkept1
      have hcomp := (Composes.start hrec0.disjoint).steps (Records.start hrec0.wf) hrec0 hsteps1
      have hinto := mergeInto_composes ord hrec0.disjoint hrec1.disjoint fun a ha => by
        rw [hcomp.change a] at ha
        cases ha
      rw [hinto.unique hcomp, ← List.foldl_append]
      refine .layer below (hsteps0.append hsteps1) (fun a ha => ?_)
        (hrel s0 s1 hrec0 hrec1 hrel0 hrel1)
      rcases List.mem_append.mp ha with ha | ha
      · exact hkept0 a ha
      · exact hkept1 a ha

end Layers

/-! ### Calls -/

/-- A call of `object_database` or of its undo database. -/
inductive Call (V : Type) where
  | op (op : Op V)
  | startUndoSession (forceEnable : Bool)
  | commit
  | merge
  | undo
  | popCommit

def ObjectDatabase.perform (sch : Schema V K) (ord : IterationOrder V) (db : ObjectDatabase V) :
    Call V → Option (ObjectDatabase V)
  | .op op => db.exec sch op
  | .startUndoSession forceEnable => some (db.startUndoSession forceEnable)
  | .commit => db.commit
  | .merge => db.merge ord
  | .undo => (db.undo sch ord).map Prod.fst
  | .popCommit => (db.popCommit sch ord).map Prod.fst

/-- A database whose undo stack is in order; while undo is disabled there is nothing on it. -/
structure Layered (sch : Schema V K) (R : Store V → Store V → Prop)
    (db : ObjectDatabase V) : Prop where
  layers : Layers sch R db.store db.undoDb.stack
  disabled : db.undoDb.disabled = true → db.undoDb.stack = []

/-- What a successful mutator does: the store it leaves and the event that it records. -/
inductive Executed (sch : Schema V K) (db : ObjectDatabase V) : Op V → ObjectDatabase V → Prop
  | created {i : IndexId} {f : ObjectId → V} {s' : Store V}
    (h : db.store.create sch i f = some s') :
      Executed sch db (.create i f)
        ⟨s', db.undoDb.record (·.apply (.created ⟨i, db.store.nextId i⟩))⟩
  | modified {a : ObjectId} {f : V → V} {v : V} (hv : db.store.objects.lookup a = some v)
      (hc : ¬db.store.Conflict sch a (f v)) :
      Executed sch db (.modify a f)
        ⟨{ db.store with objects := db.store.objects.insert a (f v) },
          db.undoDb.record (·.apply (.modified a v))⟩
  | removed {op : Op V} {a : ObjectId} {v : V} (hop : op = .remove a ∨ op = .removeById a)
      (hv : db.store.objects.lookup a = some v) :
      Executed sch db op
        ⟨{ db.store with objects := db.store.objects.erase a },
          db.undoDb.record (·.apply (.removed a v))⟩
  | erased {a : ObjectId} {v : V} (hv : db.store.objects.lookup a = some v)
      (hx : sch.isExternalDb a.index = true) :
      Executed sch db (.removeById a)
        ⟨{ db.store with objects := db.store.objects.erase a }, db.undoDb⟩

theorem ObjectDatabase.exec_executed {db db' : ObjectDatabase V} {op : Op V}
    (h : db.exec sch op = some db') : Executed sch db op db' := by
  cases op with
  | create i f =>
    obtain ⟨s', hs, rfl⟩ := Option.map_eq_some_iff.mp h
    exact .created hs
  | modify a f =>
    have h := succeeded_eq h
    unfold ObjectDatabase.modify at h
    split at h
    · cases h
    · rename_i v hv
      obtain ⟨htrue, hdb⟩ := Prod.mk.inj h
      have hmodify : db.store.modify sch a f = (true, (db.store.modify sch a f).2) :=
        Prod.ext htrue rfl
      obtain ⟨w, hw, hc, hs⟩ := Store.modify_eq hmodify
      obtain rfl : v = w := Option.some.inj (hv.symm.trans hw)
      rw [← hdb, hs]
      exact .modified hv hc
  | remove a =>
    obtain ⟨v, hv, rfl⟩ := ObjectDatabase.remove_step (succeeded_eq h)
    exact .removed (Or.inl rfl) hv
  | removeById a =>
    have h := succeeded_eq h
    unfold ObjectDatabase.removeById at h
    split at h
    · rename_i hx
      obtain ⟨htrue, hdb⟩ := Prod.mk.inj h
      have hremove : db.store.remove a = (true, (db.store.remove a).2) := Prod.ext htrue rfl
      obtain ⟨ha, hs⟩ := Store.remove_eq hremove
      obtain ⟨v, hv⟩ := Finmap.mem_iff.mp ha
      rw [← hdb, hs]
      exact .erased hv hx
    · obtain ⟨v, hv, rfl⟩ := ObjectDatabase.remove_step h
      exact .removed (Or.inr rfl) hv

section

variable {db db' : ObjectDatabase V}

theorem Layered.record (h : Layered sch R db) {e : Event V} {s' : Store V}
    (hstep : StoreStep sch db.store e s') (hkept : ∀ a, e ≠ .erased a) (hrefl : R db.store db.store)
    (hrel : ∀ s0 u, Records sch s0 u db.store ∅ → R s0 db.store → R s0 s') :
    Layered sch R ⟨s', db.undoDb.record (·.apply e)⟩ := by
  have hwf := hstep.wellFormed h.layers.wellFormed
  cases hdisabled : db.undoDb.disabled with
  | true =>
    have hnone := h.disabled hdisabled
    have hrecord : db.undoDb.record (·.apply e) = db.undoDb := by
      simp only [UndoDatabase.record, hdisabled, if_true]
    refine ⟨?_, fun _ => ?_⟩
    · show Layers sch R s' (db.undoDb.record (·.apply e)).stack
      rw [hrecord, hnone]
      exact .bottom hwf
    · show (db.undoDb.record (·.apply e)).stack = []
      rw [hrecord, hnone]
  | false =>
    have hstays : (db.undoDb.record (·.apply e)).disabled = false := by
      unfold UndoDatabase.record
      split
      · rename_i htrue
        rw [hdisabled] at htrue
        cases htrue
      · split <;> exact hdisabled
    refine ⟨?_, fun htrue => ?_⟩
    · show Layers sch R s' (db.undoDb.record (·.apply e)).stack
      have hlayers := h.layers
      -- a change on an empty stack is recorded in a state that is added for it
      have hstack : ∃ u rest, Layers sch R db.store (u :: rest) ∧
          (db.undoDb.record (·.apply e)).stack = u.apply e :: rest := by
        cases hst : db.undoDb.stack with
        | nil =>
          rw [hst] at hlayers
          refine ⟨.empty, [], hlayers.start hrefl, ?_⟩
          simp only [UndoDatabase.record, hdisabled, hst, Bool.false_eq_true, if_false]
        | cons u rest =>
          rw [hst] at hlayers
          refine ⟨u, rest, hlayers, ?_⟩
          rw [UndoDatabase.record_top hdisabled hst]
      obtain ⟨u, rest, hlayers, hstack⟩ := hstack
      rw [hstack]
      exact hlayers.step hstep hkept fun s0 _ hrec => hrel s0 u hrec
    · have htrue : (db.undoDb.record (·.apply e)).disabled = true := htrue
      rw [hstays] at htrue
      cases htrue

theorem Layered.startUndoSession (h : Layered sch R db) (hrefl : R db.store db.store)
    (force : Bool) :
    Layered sch R (db.startUndoSession force) := by
  unfold ObjectDatabase.startUndoSession
  split
  · exact h
  · refine ⟨(h.layers.take _).start hrefl, fun hfalse => ?_⟩
    cases hfalse

theorem Layered.commit (h : Layered sch R db) (hcommit : db.commit = some db') :
    Layered sch R db' := by
  unfold ObjectDatabase.commit at hcommit
  split at hcommit
  · cases hcommit
  · obtain rfl := Option.some.inj hcommit
    exact ⟨h.layers, h.disabled⟩

theorem ObjectDatabase.merge_store {ord : IterationOrder V} (hmerge : db.merge ord = some db') :
    db'.store = db.store := by
  unfold ObjectDatabase.merge at hmerge
  split at hmerge
  · cases hmerge
  · split at hmerge
    · cases hmerge
    · split at hmerge
      · obtain rfl := Option.some.inj hmerge
        rfl
      · cases hmerge
    · obtain rfl := Option.some.inj hmerge
      rfl

theorem Layered.merge (h : Layered sch R db) {ord : IterationOrder V}
    (hrel : ∀ s0 s1 u1 u0, Records sch s0 u0 s1 ∅ → Records sch s1 u1 db.store ∅ →
      R s0 s1 → R s1 db.store → R s0 db.store)
    (hmerge : db.merge ord = some db') : Layered sch R db' := by
  have hlayers := h.layers
  unfold ObjectDatabase.merge at hmerge
  split at hmerge
  · cases hmerge
  · split at hmerge
    · cases hmerge
    · split at hmerge
      · obtain rfl := Option.some.inj hmerge
        exact ⟨.bottom hlayers.wellFormed, fun _ => rfl⟩
      · cases hmerge
    · rename_i state prev rest hst
      obtain rfl := Option.some.inj hmerge
      rw [hst] at hlayers
      refine ⟨hlayers.merge (fun s0 s1 h0 h1 => hrel s0 s1 state prev h0 h1) ord, fun hdisabled =>
        ?_⟩
      have hnone := h.disabled hdisabled
      rw [hst] at hnone
      cases hnone

theorem ObjectDatabase.undo_eq {ord : IterationOrder V}
    (h : (db.undo sch ord).map Prod.fst = some db' ∨
      (db.popCommit sch ord).map Prod.fst = some db') :
    ∃ u rest, db.undoDb.stack = u :: rest ∧ (u.restore sch ord db.store).threw = false ∧
      db'.store = (u.restore sch ord db.store).store ∧ db'.undoDb.stack = rest ∧
      db'.undoDb.disabled = false := by
  rcases h with hback | hback
  all_goals
    obtain ⟨⟨d, swallowed⟩, h, rfl⟩ := Option.map_eq_some_iff.mp hback
    first | unfold ObjectDatabase.undo at h | unfold ObjectDatabase.popCommit at h
    split at h
    · cases h
    · split at h
      · cases h
      · rename_i u rest hst
        simp only at h
        split at h
        · cases h
        · rename_i hthrew
          obtain ⟨rfl, -⟩ := Prod.mk.inj (Option.some.inj h)
          exact ⟨u, rest, hst, by simpa using hthrew, rfl, rfl, rfl⟩

theorem Layered.undo (h : Layered sch R db) {u : UndoState V} {rest : List (UndoState V)}
    (hst : db.undoDb.stack = u :: rest) (ord : IterationOrder V)
    (hkeys : ∀ s0, Records sch s0 u db.store ∅ → KeysKept sch s0 db.store) :
    ∃ s0, Layers sch R s0 rest ∧ R s0 db.store ∧ Records sch s0 u db.store ∅ ∧
      u.restore sch ord db.store = ⟨s0, [], false⟩ := by
  have hlayers := h.layers
  rw [hst] at hlayers
  obtain ⟨s0, hbelow, hrec, hrel⟩ := hlayers.top
  exact ⟨s0, hbelow, hrel, hrec, hrec.restore_eq (hkeys s0 hrec) ord⟩

end

end Nestchain.Db
