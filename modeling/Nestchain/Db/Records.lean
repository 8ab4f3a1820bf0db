import Nestchain.Db.Undo

/-! What the last undo state of a session says about the stores at its two ends.  A run of mutators
is a run of store steps, each with the event that `undo_database` sees; `Records` is the invariant
that the recorded events keep between the store at the start of the session and the current one. -/

namespace Nestchain.Db

/-- What a successful mutator tells the undo database.  An erased object was removed by id from a
Berkeley DB index, of which the undo database hears nothing. -/
inductive Event (V : Type) where
  | created (a : ObjectId)
  | modified (a : ObjectId) (v : V)
  | removed (a : ObjectId) (v : V)
  | erased (a : ObjectId)

variable {V K : Type}

def UndoState.apply (u : UndoState V) : Event V → UndoState V
  | .created a => u.onCreate a
  | .modified a v => u.onModify a v
  | .removed a v => u.onRemove a v
  | .erased _ => u

/-- One successful mutator, as a step of the store with its event. -/
inductive StoreStep (sch : Schema V K) [DecidableEq K] : Store V → Event V → Store V → Prop
  | created {s s' : Store V} {i : IndexId} {f : ObjectId → V} (h : s.create sch i f = some s') :
      StoreStep sch s (.created ⟨i, s.nextId i⟩) s'
  | modified {s : Store V} {a : ObjectId} {f : V → V} {v : V}
      (hv : s.objects.lookup a = some v) (hc : ¬s.Conflict sch a (f v)) :
      StoreStep sch s (.modified a v) { s with objects := s.objects.insert a (f v) }
  | removed {s : Store V} {a : ObjectId} {v : V} (hv : s.objects.lookup a = some v) :
      StoreStep sch s (.removed a v) { s with objects := s.objects.erase a }
  | erased {s : Store V} {a : ObjectId} {v : V} (hv : s.objects.lookup a = some v)
      (hx : sch.isExternalDb a.index = true) :
      StoreStep sch s (.erased a) { s with objects := s.objects.erase a }

/-- A run of store steps with its events. -/
inductive StoreSteps (sch : Schema V K) [DecidableEq K] :
    Store V → List (Event V) → Store V → Prop
  | nil (s : Store V) : StoreSteps sch s [] s
  | cons {s s1 s2 : Store V} {e : Event V} {es : List (Event V)} (h : StoreStep sch s e s1)
      (hs : StoreSteps sch s1 es s2) : StoreSteps sch s (e :: es) s2

/-! ### Recording -/

theorem UndoDatabase.record_top {d : UndoDatabase V} {u : UndoState V} {rest : List (UndoState V)}
    (hen : d.disabled = false) (hst : d.stack = u :: rest) (f : UndoState V → UndoState V) :
    d.record f = { d with stack := f u :: rest } := by
  simp [UndoDatabase.record, hen, hst]

theorem succeeded_eq {r : Bool × ObjectDatabase V} {db : ObjectDatabase V}
    (h : succeeded r = some db) : r = (true, db) := by
  obtain ⟨ok, d⟩ := r
  cases ok with
  | false => cases h
  | true => cases h; rfl

theorem ObjectDatabase.remove_step {db db' : ObjectDatabase V} {a : ObjectId}
    (h : db.remove a = (true, db')) :
    ∃ v, db.store.objects.lookup a = some v ∧
      db' = { store := { db.store with objects := db.store.objects.erase a }
              undoDb := db.undoDb.record (·.onRemove a v) } := by
  unfold ObjectDatabase.remove at h
  cases hv : db.store.objects.lookup a with
  | none => simp [hv] at h
  | some v =>
    simp only [hv, Prod.mk.injEq] at h
    have hremove : db.store.remove a = (true, (db.store.remove a).2) := Prod.ext h.1 rfl
    obtain ⟨-, hs⟩ := Store.remove_eq hremove
    exact ⟨v, rfl, by rw [← h.2, hs]⟩

theorem ObjectDatabase.remove_top {d : ObjectDatabase V} {s : Store V} {a : ObjectId} {v : V}
    {u : UndoState V} {rest : List (UndoState V)} (hv : s.objects.lookup a = some v)
    (hen : d.undoDb.disabled = false) (hst : d.undoDb.stack = u :: rest) (hd : d.store = s) :
    succeeded (d.remove a) =
      some { store := { s with objects := s.objects.erase a }
             undoDb := { d.undoDb with stack := u.apply (.removed a v) :: rest } } := by
  simp only [ObjectDatabase.remove, hd, hv, Store.remove, if_pos (mem_of_lookup hv), succeeded,
    if_true, UndoDatabase.record_top hen hst]
  rfl

variable {sch : Schema V K}

/-! ### The invariant of a session -/

/-- `u` says how the store `s0` at the start of a session became `s`, apart from the objects in
`lost`, which left `s` without a record. -/
structure Records (sch : Schema V K) (s0 : Store V) (u : UndoState V) (s : Store V)
    (lost : Set ObjectId) : Prop where
  wf0 : s0.WellFormed sch
  wf : s.WellFormed sch
  next_le : ∀ i, s0.nextId i ≤ s.nextId i
  new : ∀ a ∈ u.newIds, s0.nextId a.index ≤ a.number ∧ a.number < s.nextId a.index ∧
    (a ∈ s.objects ∨ a ∈ lost)
  old : ∀ a v, u.oldValues.lookup a = some v →
    s0.objects.lookup a = some v ∧ (a ∈ s.objects ∨ a ∈ lost)
  removed : ∀ a v, u.removed.lookup a = some v →
    s0.objects.lookup a = some v ∧ a ∉ s.objects ∧ a ∉ lost
  other : ∀ a, a ∉ u.newIds → a ∉ u.oldValues → a ∉ u.removed → a ∉ lost →
    s.objects.lookup a = s0.objects.lookup a
  lost : ∀ a ∈ lost, a ∉ s.objects ∧ (a ∈ u.newIds ∨ a ∈ s0.objects)
  next : ∀ i, match u.oldIndexNextIds.lookup i with
    | some a => a.number = s0.nextId i
    | none => s.nextId i = s0.nextId i

theorem Records.start {s : Store V} (h : s.WellFormed sch) : Records sch s .empty s ∅ where
  wf0 := h
  wf := h
  next_le _ := le_rfl
  new := by simp [UndoState.empty]
  old := by simp [UndoState.empty]
  removed := by simp [UndoState.empty]
  other _ _ _ _ _ := rfl
  lost := by simp
  next i := by simp [UndoState.empty]

namespace Records

variable {s0 s : Store V} {u : UndoState V} {lost : Set ObjectId} {a : ObjectId}

theorem number_lt (h : Records sch s0 u s lost) (ha : a ∈ s0.objects) :
    a.number < s0.nextId a.index :=
  h.wf0.fresh a ha

theorem new_not_mem (h : Records sch s0 u s lost) (ha : a ∈ u.newIds) : a ∉ s0.objects :=
  fun hm => by have := (h.new a ha).1; have := h.number_lt hm; omega

theorem not_lost (h : Records sch s0 u s lost) (ha : a ∈ s.objects) : a ∉ lost :=
  fun hl => (h.lost a hl).1 ha

theorem not_removed (h : Records sch s0 u s lost) (ha : a ∈ s.objects) : a ∉ u.removed := by
  intro hr
  obtain ⟨v, hv⟩ := Finmap.mem_iff.mp hr
  exact (h.removed a v hv).2.1 ha

theorem old_not_new (h : Records sch s0 u s lost) (ha : a ∈ u.oldValues) : a ∉ u.newIds := by
  intro hn
  obtain ⟨v, hv⟩ := Finmap.mem_iff.mp ha
  exact h.new_not_mem hn (mem_of_lookup (h.old a v hv).1)

theorem old_not_removed (h : Records sch s0 u s lost) (ha : a ∈ u.oldValues) :
    a ∉ u.removed := by
  intro hr
  obtain ⟨v, hv⟩ := Finmap.mem_iff.mp ha
  obtain ⟨w, hw⟩ := Finmap.mem_iff.mp hr
  rcases (h.old a v hv).2 with hs | hl
  · exact (h.removed a w hw).2.1 hs
  · exact (h.removed a w hw).2.2 hl

theorem untouched (h : Records sch s0 u s lost) {v : V} (hv : s.objects.lookup a = some v)
    (hn : a ∉ u.newIds) (ho : a ∉ u.oldValues) : s0.objects.lookup a = some v := by
  have ha := mem_of_lookup hv
  rw [← h.other a hn ho (h.not_removed ha) (h.not_lost ha), hv]

theorem next_fresh (h : Records sch s0 u s lost) {i : IndexId} :
    (⟨i, s.nextId i⟩ : ObjectId) ∉ u.newIds ∧ ⟨i, s.nextId i⟩ ∉ s0.objects := by
  constructor
  · intro hn
    have := (h.new _ hn).2.1
    simp at this
  · intro hm
    have h1 := h.number_lt hm
    have h2 := h.next_le i
    simp only at h1
    omega

theorem created (h : Records sch s0 u s lost) {i : IndexId} {w : V}
    (hwf : Store.WellFormed sch
      { objects := s.objects.insert ⟨i, s.nextId i⟩ w
        nextId := Function.update s.nextId i (s.nextId i + 1) }) :
    Records sch s0 (u.onCreate ⟨i, s.nextId i⟩)
      { objects := s.objects.insert ⟨i, s.nextId i⟩ w
        nextId := Function.update s.nextId i (s.nextId i + 1) } lost where
  wf0 := h.wf0
  wf := hwf
  next_le j := (h.next_le j).trans (s.le_update_nextId i j)
  new b hb := by
    rcases Finset.mem_insert.mp hb with rfl | hb
    · exact ⟨h.next_le i, by simp, Or.inl (Finmap.mem_insert.mpr (Or.inl rfl))⟩
    · obtain ⟨h1, h2, h3⟩ := h.new b hb
      exact ⟨h1, h2.trans_le (s.le_update_nextId i _),
        h3.imp_left fun hm => Finmap.mem_insert.mpr (Or.inr hm)⟩
  old b v hb := by
    obtain ⟨h1, h2⟩ := h.old b v hb
    exact ⟨h1, h2.imp_left fun hm => Finmap.mem_insert.mpr (Or.inr hm)⟩
  removed b v hb := by
    obtain ⟨h1, h2, h3⟩ := h.removed b v hb
    refine ⟨h1, fun hm => ?_, h3⟩
    rcases Finmap.mem_insert.mp hm with rfl | hm
    · exact h.next_fresh.2 (mem_of_lookup h1)
    · exact h2 hm
  other b hn ho hr hl := by
    rw [UndoState.onCreate, Finset.mem_insert, not_or] at hn
    show (s.objects.insert _ w).lookup b = _
    rw [Finmap.lookup_insert_of_ne _ hn.1, h.other b hn.2 ho hr hl]
  lost b hb := by
    obtain ⟨h1, h2⟩ := h.lost b hb
    refine ⟨fun hm => ?_, h2.imp_left fun hn => Finset.mem_insert_of_mem hn⟩
    rcases Finmap.mem_insert.mp hm with rfl | hm
    · exact h2.elim h.next_fresh.1 h.next_fresh.2
    · exact h1 hm
  next j := by
    have hj := h.next j
    simp only [UndoState.onCreate]
    split
    · rename_i c hc
      split at hc
      · rw [hc] at hj
        exact hj
      · rename_i hi
        by_cases hij : j = i
        · subst hij
          obtain rfl : ⟨j, s.nextId j⟩ = c := by simpa using hc
          rw [Finmap.lookup_eq_none.mpr hi] at hj
          exact hj
        · rw [Finmap.lookup_insert_of_ne _ hij] at hc
          rw [hc] at hj
          exact hj
    · rename_i hc
      have hij : j ≠ i := by
        rintro rfl
        split at hc
        · rename_i hi
          exact (Finmap.lookup_eq_none.mp hc) hi
        · simp at hc
      rw [Function.update_of_ne hij]
      split at hc
      · rw [hc] at hj
        exact hj
      · rw [Finmap.lookup_insert_of_ne _ hij] at hc
        rw [hc] at hj
        exact hj

theorem modified (h : Records sch s0 u s lost) {v w : V} (hv : s.objects.lookup a = some v)
    (hwf : Store.WellFormed sch { s with objects := s.objects.insert a w }) :
    Records sch s0 (u.onModify a v) { s with objects := s.objects.insert a w } lost := by
  have ha := mem_of_lookup hv
  have hmem : ∀ {b}, b ∈ s.objects.insert a w ↔ b ∈ s.objects := by
    intro b
    rw [Finmap.mem_insert, or_iff_right_of_imp]
    rintro rfl
    exact ha
  -- Once `a` is among the new or the changed objects, the modify leaves no further record.
  have hkeep : a ∈ u.newIds ∨ a ∈ u.oldValues →
      Records sch s0 u { s with objects := s.objects.insert a w } lost := by
    intro hin
    refine { h with wf := hwf, new := ?_, old := ?_, removed := ?_, other := ?_, lost := ?_ }
    · simpa only [hmem] using h.new
    · simpa only [hmem] using h.old
    · simpa only [hmem] using h.removed
    · intro b hn ho hr hl
      have hba : b ≠ a := by
        rintro rfl
        exact hin.elim hn ho
      exact (Finmap.lookup_insert_of_ne _ hba).trans (h.other b hn ho hr hl)
    · simpa only [hmem] using h.lost
  unfold UndoState.onModify
  split
  · rename_i hn
    exact hkeep (Or.inl hn)
  split
  · rename_i ho
    exact hkeep (Or.inr ho)
  rename_i hn ho
  refine { h with wf := hwf, new := ?_, old := ?_, removed := ?_, other := ?_, lost := ?_ }
  · simpa only [hmem] using h.new
  · intro b x hb
    rw [hmem]
    by_cases hba : b = a
    · subst hba
      obtain rfl : v = x := by simpa using hb
      exact ⟨h.untouched hv hn ho, Or.inl ha⟩
    · rw [Finmap.lookup_insert_of_ne _ hba] at hb
      exact h.old b x hb
  · simpa only [hmem] using h.removed
  · intro b hn' ho' hr hl
    rw [Finmap.mem_insert, not_or] at ho'
    exact (Finmap.lookup_insert_of_ne _ ho'.1).trans (h.other b hn' ho'.2 hr hl)
  · simpa only [hmem] using h.lost

theorem removed_new (h : Records sch s0 u s lost) {v : V} (hv : s.objects.lookup a = some v)
    (hn : a ∈ u.newIds) :
    Records sch s0 { u with newIds := u.newIds.erase a }
      { s with objects := s.objects.erase a } lost := by
  have ha := mem_of_lookup hv
  refine { h with wf := h.wf.erase a, new := ?_, old := ?_, removed := ?_, other := ?_, lost := ?_ }
  · intro b hb
    obtain ⟨hba, hb⟩ := Finset.mem_erase.mp hb
    obtain ⟨h1, h2, h3⟩ := h.new b hb
    exact ⟨h1, h2, h3.imp_left fun hm => Finmap.mem_erase.mpr ⟨hba, hm⟩⟩
  · intro b x hb
    obtain ⟨h1, h2⟩ := h.old b x hb
    have hba : b ≠ a := by
      rintro rfl
      exact h.old_not_new (mem_of_lookup hb) hn
    exact ⟨h1, h2.imp_left fun hm => Finmap.mem_erase.mpr ⟨hba, hm⟩⟩
  · intro b x hb
    obtain ⟨h1, h2, h3⟩ := h.removed b x hb
    exact ⟨h1, fun hm => h2 (Finmap.mem_erase.mp hm).2, h3⟩
  · intro b hn' ho hr hl
    show (s.objects.erase a).lookup b = _
    by_cases hba : b = a
    · subst hba
      rw [Finmap.lookup_erase, Finmap.lookup_eq_none.mpr (h.new_not_mem hn)]
    · rw [Finmap.lookup_erase_ne hba]
      exact h.other b (fun hb => hn' (Finset.mem_erase.mpr ⟨hba, hb⟩)) ho hr hl
  · intro b hb
    obtain ⟨h1, h2⟩ := h.lost b hb
    have hba : b ≠ a := by
      rintro rfl
      exact h1 ha
    exact ⟨fun hm => h1 (Finmap.mem_erase.mp hm).2,
      h2.imp_left fun hb => Finset.mem_erase.mpr ⟨hba, hb⟩⟩

theorem removed_old (h : Records sch s0 u s lost) {v x : V} (hv : s.objects.lookup a = some v)
    (hn : a ∉ u.newIds) (hx : s0.objects.lookup a = some x) :
    Records sch s0 { u with removed := u.removed.insert a x, oldValues := u.oldValues.erase a }
      { s with objects := s.objects.erase a } lost := by
  have ha := mem_of_lookup hv
  refine { h with wf := h.wf.erase a, new := ?_, old := ?_, removed := ?_, other := ?_, lost := ?_ }
  · intro b hb
    obtain ⟨h1, h2, h3⟩ := h.new b hb
    have hba : b ≠ a := by
      rintro rfl
      exact hn hb
    exact ⟨h1, h2, h3.imp_left fun hm => Finmap.mem_erase.mpr ⟨hba, hm⟩⟩
  · intro b y hb
    have hba : b ≠ a := by
      rintro rfl
      simp at hb
    rw [Finmap.lookup_erase_ne hba] at hb
    obtain ⟨h1, h2⟩ := h.old b y hb
    exact ⟨h1, h2.imp_left fun hm => Finmap.mem_erase.mpr ⟨hba, hm⟩⟩
  · intro b y hb
    by_cases hba : b = a
    · subst hba
      obtain rfl : x = y := by simpa using hb
      exact ⟨hx, fun hm => (Finmap.mem_erase.mp hm).1 rfl, h.not_lost ha⟩
    · rw [Finmap.lookup_insert_of_ne _ hba] at hb
      obtain ⟨h1, h2, h3⟩ := h.removed b y hb
      exact ⟨h1, fun hm => h2 (Finmap.mem_erase.mp hm).2, h3⟩
  · intro b hn' ho hr hl
    rw [Finmap.mem_insert, not_or] at hr
    show (s.objects.erase a).lookup b = _
    rw [Finmap.lookup_erase_ne hr.1]
    exact h.other b hn' (fun hb => ho (Finmap.mem_erase.mpr ⟨hr.1, hb⟩)) hr.2 hl
  · intro b hb
    obtain ⟨h1, h2⟩ := h.lost b hb
    exact ⟨fun hm => h1 (Finmap.mem_erase.mp hm).2, h2⟩

theorem onRemove (h : Records sch s0 u s lost) {v : V} (hv : s.objects.lookup a = some v) :
    Records sch s0 (u.onRemove a v) { s with objects := s.objects.erase a } lost := by
  unfold UndoState.onRemove
  split
  · rename_i hn
    exact h.removed_new hv hn
  rename_i hn
  split
  · rename_i old ho
    exact h.removed_old hv hn (h.old a old ho).1
  · rename_i ho
    rw [if_neg (h.not_removed (mem_of_lookup hv))]
    have ho := Finmap.lookup_eq_none.mp ho
    have hx := h.untouched hv hn ho
    have hr := h.removed_old hv hn hx
    have he : u.oldValues.erase a = u.oldValues := Finmap.ext_lookup fun b => by
      by_cases hba : b = a
      · subst hba
        rw [Finmap.lookup_erase, Finmap.lookup_eq_none.mpr ho]
      · rw [Finmap.lookup_erase_ne hba]
    rwa [he] at hr

theorem erased (h : Records sch s0 u s lost) {v : V} (hv : s.objects.lookup a = some v) :
    Records sch s0 u { s with objects := s.objects.erase a } (insert a lost) := by
  have ha := mem_of_lookup hv
  have hkeep : ∀ {b}, b ∈ s.objects ∨ b ∈ lost → b ∈ s.objects.erase a ∨ b ∈ insert a lost := by
    rintro b (hm | hl)
    · by_cases hba : b = a
      · exact Or.inr (Or.inl hba)
      · exact Or.inl (Finmap.mem_erase.mpr ⟨hba, hm⟩)
    · exact Or.inr (Or.inr hl)
  refine { h with wf := h.wf.erase a, new := ?_, old := ?_, removed := ?_, other := ?_, lost := ?_ }
  · intro b hb
    obtain ⟨h1, h2, h3⟩ := h.new b hb
    exact ⟨h1, h2, hkeep h3⟩
  · intro b x hb
    obtain ⟨h1, h2⟩ := h.old b x hb
    exact ⟨h1, hkeep h2⟩
  · intro b x hb
    obtain ⟨h1, h2, h3⟩ := h.removed b x hb
    refine ⟨h1, fun hm => h2 (Finmap.mem_erase.mp hm).2, ?_⟩
    rintro (rfl | hl)
    · exact h2 ha
    · exact h3 hl
  · intro b hn ho hr hl
    rw [Set.mem_insert_iff, not_or] at hl
    exact (Finmap.lookup_erase_ne hl.1).trans (h.other b hn ho hr hl.2)
  · rintro b (rfl | hb)
    · refine ⟨fun hm => (Finmap.mem_erase.mp hm).1 rfl, ?_⟩
      by_cases hn : b ∈ u.newIds
      · exact Or.inl hn
      · refine Or.inr ?_
        by_cases ho : b ∈ u.oldValues
        · obtain ⟨x, hx⟩ := Finmap.mem_iff.mp ho
          exact mem_of_lookup (h.old b x hx).1
        · exact mem_of_lookup (h.untouched hv hn ho)
    · obtain ⟨h1, h2⟩ := h.lost b hb
      exact ⟨fun hm => h1 (Finmap.mem_erase.mp hm).2, h2⟩

end Records

variable [DecidableEq K]

theorem StoreSteps.append {s s1 s2 : Store V} {es es' : List (Event V)}
    (h : StoreSteps sch s es s1) (h' : StoreSteps sch s1 es' s2) :
    StoreSteps sch s (es ++ es') s2 := by
  induction h with
  | nil => exact h'
  | cons hstep _ ih => exact .cons hstep (ih h')

/-! ### Mutators as store steps -/

theorem ObjectDatabase.exec_step {db db' : ObjectDatabase V} {op : Op V}
    (h : db.exec sch op = some db') :
    ∃ e, StoreStep sch db.store e db'.store ∧
      (∀ (d : ObjectDatabase V) u rest, d.store = db.store → d.undoDb.disabled = false →
        d.undoDb.stack = u :: rest → d.exec sch op =
          some { store := db'.store, undoDb := { d.undoDb with stack := u.apply e :: rest } }) ∧
      ∀ a, e = .erased a ↔ op = .removeById a ∧ sch.isExternalDb a.index = true := by
  cases op with
  | create i f =>
    simp only [ObjectDatabase.exec, ObjectDatabase.create, Option.map_eq_some_iff] at h
    obtain ⟨s, hs, rfl⟩ := h
    refine ⟨_, .created hs, fun d u rest hd hen hst => ?_, by simp⟩
    simp only [ObjectDatabase.exec, ObjectDatabase.create, hd, hs, Option.map_some,
      UndoDatabase.record_top hen hst]
    rfl
  | modify a f =>
    have h := succeeded_eq h
    unfold ObjectDatabase.modify at h
    cases hv : db.store.objects.lookup a with
    | none => simp [hv] at h
    | some v =>
      simp only [hv, Prod.mk.injEq] at h
      have hmodify : db.store.modify sch a f = (true, (db.store.modify sch a f).2) :=
        Prod.ext h.1 rfl
      obtain ⟨w, hw, hc, hs⟩ := Store.modify_eq hmodify
      obtain rfl : v = w := Option.some.inj (hv.symm.trans hw)
      refine ⟨.modified a v, ?_, fun d u rest hd hen hst => ?_, by simp⟩
      · rw [← h.2, hs]
        exact .modified hw hc
      · simp only [ObjectDatabase.exec, ObjectDatabase.modify, hd, hv, succeeded, h.1, if_true,
          UndoDatabase.record_top hen hst, ← h.2]
        rfl
  | remove a =>
    obtain ⟨v, hv, rfl⟩ := ObjectDatabase.remove_step (succeeded_eq h)
    refine ⟨.removed a v, .removed hv, fun d u rest hd hen hst => ?_, by simp⟩
    exact ObjectDatabase.remove_top hv hen hst hd
  | removeById a =>
    have h := succeeded_eq h
    unfold ObjectDatabase.removeById at h
    cases hx : sch.isExternalDb a.index with
    | false =>
      simp only [hx, Bool.false_eq_true, if_false] at h
      obtain ⟨v, hv, rfl⟩ := ObjectDatabase.remove_step h
      refine ⟨.removed a v, .removed hv, fun d u rest hd hen hst => ?_, ?_⟩
      · simp only [ObjectDatabase.exec, ObjectDatabase.removeById, hx, Bool.false_eq_true,
          if_false]
        exact ObjectDatabase.remove_top hv hen hst hd
      · intro b
        simp only [reduceCtorEq, Op.removeById.injEq, false_iff, not_and, Bool.not_eq_true]
        rintro rfl
        exact hx
    | true =>
      simp only [hx, if_true, Prod.mk.injEq] at h
      have hremove : db.store.remove a = (true, (db.store.remove a).2) := Prod.ext h.1 rfl
      obtain ⟨ha, hs⟩ := Store.remove_eq hremove
      obtain ⟨v, hv⟩ := Finmap.mem_iff.mp ha
      refine ⟨.erased a, ?_, fun d u rest hd hen hst => ?_, ?_⟩
      · rw [← h.2, hs]
        exact .erased hv hx
      · simp only [ObjectDatabase.exec, ObjectDatabase.removeById, hx, if_true, hd, succeeded,
          h.1, ← h.2, UndoState.apply, ← hst]
      · intro b
        constructor
        · intro hb
          cases hb
          exact ⟨rfl, hx⟩
        · rintro ⟨hb, -⟩
          cases hb
          rfl

/-- A sequence of successful calls is a run of store steps.  In every database with the same store
it does the same, and records the events in the last undo state. -/
theorem ObjectDatabase.run_steps {db db' : ObjectDatabase V} {ops : List (Op V)}
    (h : db.run sch ops = some db') :
    ∃ es, StoreSteps sch db.store es db'.store ∧
      (∀ (d : ObjectDatabase V) u rest, d.store = db.store → d.undoDb.disabled = false →
        d.undoDb.stack = u :: rest → d.run sch ops =
          some { store := db'.store
                 undoDb := { d.undoDb with stack := es.foldl UndoState.apply u :: rest } }) ∧
      ∀ a, .erased a ∈ es ↔ .removeById a ∈ ops ∧ sch.isExternalDb a.index = true := by
  induction ops generalizing db with
  | nil =>
    cases h
    refine ⟨[], .nil _, fun d u rest hd hen hst => ?_, by simp⟩
    rw [ObjectDatabase.run, List.foldl_nil, ← hst, ← hd]
  | cons op ops ih =>
    obtain ⟨db1, hdb1, hrun⟩ := Option.bind_eq_some_iff.mp h
    obtain ⟨e, hstep, hexec, he⟩ := exec_step hdb1
    obtain ⟨es, hsteps, hundo, hes⟩ := ih hrun
    refine ⟨e :: es, .cons hstep hsteps, fun d u rest hd hen hst => ?_, fun a => ?_⟩
    · rw [ObjectDatabase.run, hexec d u rest hd hen hst, Option.bind_some, List.foldl_cons]
      exact hundo _ (u.apply e) rest rfl hen rfl
    · rw [List.mem_cons, List.mem_cons, hes a, eq_comm, he a, or_and_right, eq_comm]

theorem StoreStep.wellFormed {s s' : Store V} {e : Event V} (h : StoreStep sch s e s')
    (hwf : s.WellFormed sch) : s'.WellFormed sch := by
  cases h with
  | created h =>
    have hc := Store.create_no_conflict h
    rw [Store.create_eq h]
    exact hwf.insert hc (Store.le_update_nextId s _) (by simp)
  | modified hv hc =>
    exact hwf.insert hc (fun _ => le_rfl) (hwf.fresh _ (mem_of_lookup hv))
  | removed hv => exact hwf.erase _
  | erased hv hx => exact hwf.erase _

/-! ### The invariant along a run -/

/-- The object that an event takes away without a record. -/
def Event.lost : Event V → Set ObjectId
  | .erased a => {a}
  | _ => ∅

theorem Records.step {s0 s s' : Store V} {u : UndoState V} {lost : Set ObjectId} {e : Event V}
    (h : Records sch s0 u s lost) (hs : StoreStep sch s e s') :
    Records sch s0 (u.apply e) s' (lost ∪ e.lost) := by
  have hwf := hs.wellFormed h.wf
  cases hs with
  | created hc =>
    rw [Store.create_eq hc] at hwf ⊢
    simpa [Event.lost, UndoState.apply] using h.created hwf
  | modified hv _ => simpa [Event.lost, UndoState.apply] using h.modified hv hwf
  | removed hv => simpa [Event.lost, UndoState.apply] using h.onRemove hv
  | erased hv _ => simpa [Event.lost, UndoState.apply] using h.erased hv

theorem Records.steps {s0 s s' : Store V} {u : UndoState V} {lost : Set ObjectId}
    {es : List (Event V)} (h : Records sch s0 u s lost) (hs : StoreSteps sch s es s') :
    Records sch s0 (es.foldl UndoState.apply u) s' (lost ∪ {a | .erased a ∈ es}) := by
  induction hs generalizing u lost with
  | nil => simpa using h
  | @cons s s1 s2 e es hstep _ ih =>
    have hlost : lost ∪ {a | Event.erased a ∈ e :: es} =
        lost ∪ e.lost ∪ {a | Event.erased a ∈ es} := by
      ext a
      cases e <;> simp only [Event.lost, Set.mem_union, Set.mem_ofPred_eq, List.mem_cons,
        Set.mem_empty_iff_false, Set.mem_singleton_iff, reduceCtorEq, Event.erased.injEq] <;> tauto
    rw [hlost]
    exact ih (h.step hstep)

end Nestchain.Db
