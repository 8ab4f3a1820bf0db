import Nestchain.Db.Records

/-! Taking a session back.  `restore` writes the old values over the current ones while the objects
that the session created are still there, so an old value can meet a unique key that another object
has taken over meanwhile: the modify then erases the object and the error is only logged.  `undo`
and `pop_commit` restore the store at the start of the session exactly when this does not happen
and no object left a Berkeley DB index unrecorded. -/

namespace Nestchain.Db

variable {V K : Type}

/-- No object that exists at both ends of a session has at the start a unique key that another
object holds at the end. -/
def KeysKept (sch : Schema V K) (s0 s : Store V) : Prop :=
  ∀ a v, s0.objects.lookup a = some v → a ∈ s.objects → ¬s.Conflict sch a v

/-- The result of `undo` or `pop_commit` is the store `s0`, and no error was swallowed. -/
def RestoredTo (r : Option (ObjectDatabase V × List ObjectId)) (s0 : Store V) : Prop :=
  ∃ d, r = some (d, []) ∧ d.store = s0

/-- The unordered containers iterated in the order of the ids. -/
def IterationOrder.byId : IterationOrder V where
  values m := (sorted m.keys).filterMap fun a => (m.lookup a).map fun v => (a, v)
  mem_values m a v := by
    simp only [List.mem_filterMap, mem_sorted, Finmap.mem_keys, Option.map_eq_some_iff,
      Prod.mk.injEq]
    constructor
    · rintro ⟨b, -, w, hw, rfl, rfl⟩
      exact hw
    · exact fun h => ⟨a, mem_of_lookup h, v, h, rfl, rfl⟩
  values_nodup m := by
    rw [List.map_filterMap]
    refine (sorted_nodup m.keys).filterMap fun a a' b hb hb' => ?_
    simp only [Option.map_map, Option.mem_def, Option.map_eq_some_iff, Function.comp] at hb hb'
    obtain ⟨_, _, rfl⟩ := hb
    obtain ⟨_, _, h⟩ := hb'
    exact h.symm
  ids := sorted
  mem_ids _ _ := mem_sorted
  ids_nodup := sorted_nodup

/-- The order `ord` with the item of id `a` moved to the front. -/
def IterationOrder.front (ord : IterationOrder V) (a : ObjectId) : IterationOrder V where
  values m := (ord.values m).filter (·.1 = a) ++ (ord.values m).filter (·.1 ≠ a)
  mem_values m b v := by
    rw [List.mem_append, List.mem_filter, List.mem_filter, ← and_or_left]
    simp [em, ord.mem_values]
  values_nodup m := by
    rw [List.map_append, List.nodup_append]
    refine ⟨(List.filter_sublist.map _).nodup (ord.values_nodup m),
      (List.filter_sublist.map _).nodup (ord.values_nodup m), ?_⟩
    simp only [List.mem_map, List.mem_filter, decide_eq_true_eq]
    rintro _ ⟨x, ⟨-, hx⟩, rfl⟩ _ ⟨y, ⟨-, hy⟩, rfl⟩ heq
    exact hy (heq.symm.trans hx)
  ids := ord.ids
  mem_ids := ord.mem_ids
  ids_nodup := ord.ids_nodup

theorem IterationOrder.mem_keys (ord : IterationOrder V) {m : Finmap fun _ : ObjectId => V}
    {a : ObjectId} : a ∈ (ord.values m).map Prod.fst ↔ a ∈ m := by
  rw [List.mem_map, Finmap.mem_iff]
  constructor
  · rintro ⟨⟨b, v⟩, h, rfl⟩
    exact ⟨v, (ord.mem_values m b v).mp h⟩
  · rintro ⟨v, hv⟩
    exact ⟨(a, v), (ord.mem_values m a v).mpr hv, rfl⟩

theorem IterationOrder.front_values (ord : IterationOrder V) {m : Finmap fun _ : ObjectId => V}
    {a : ObjectId} {v : V} (hv : m.lookup a = some v) :
    ∃ tail, (ord.front a).values m = (a, v) :: tail := by
  have hmem : (a, v) ∈ (ord.values m).filter (·.1 = a) :=
    List.mem_filter.mpr ⟨(ord.mem_values m a v).mpr hv, by simp⟩
  cases hl : (ord.values m).filter (·.1 = a) with
  | nil =>
    rw [hl] at hmem
    cases hmem
  | cons x tail =>
    have hx : x ∈ (ord.values m).filter (·.1 = a) := by rw [hl]; exact List.mem_cons_self
    obtain ⟨b, w⟩ := x
    rw [List.mem_filter, ord.mem_values, decide_eq_true_eq] at hx
    obtain ⟨hw, rfl : b = a⟩ := hx
    obtain rfl : v = w := Option.some.inj (hv.symm.trans hw)
    exact ⟨tail ++ (ord.values m).filter (·.1 ≠ b), by
      simp only [IterationOrder.front, hl, List.cons_append]⟩

variable [DecidableEq K] {sch : Schema V K}

/-! ### The loops, when nothing collides -/

section Loops

variable {s0 s : Store V}

omit [DecidableEq K] in
theorem lookup_put_back {m st : Finmap fun _ : ObjectId => V} {a : ObjectId} {v : V}
    {ks : List ObjectId} (hv : s0.objects.lookup a = some v)
    (h : ∀ b, st.lookup b = if b ∈ ks then s0.objects.lookup b else (m.insert a v).lookup b) :
    ∀ b, st.lookup b = if b ∈ a :: ks then s0.objects.lookup b else m.lookup b := by
  intro b
  rw [h b]
  by_cases hb : b ∈ ks
  · rw [if_pos hb, if_pos (List.mem_cons_of_mem _ hb)]
  · rw [if_neg hb]
    by_cases hba : b = a
    · subst hba
      rw [if_pos List.mem_cons_self, Finmap.lookup_insert, hv]
    · rw [if_neg (by simp [hba, hb]), Finmap.lookup_insert_of_ne _ hba]

/-- The modifies put every old value back.  The store of the loop has at each id the value at the
start or the value at the end of the session, so an old value collides with neither. -/
theorem restore_values (hwf : s0.WellFormed sch) (l : List (ObjectId × V))
    (hnd : (l.map Prod.fst).Nodup)
    (hl : ∀ a v, (a, v) ∈ l → s0.objects.lookup a = some v ∧ ¬s.Conflict sch a v)
    (r : Restored V)
    (hin : ∀ a v, (a, v) ∈ l → a ∈ r.store.objects)
    (hr : ∀ b w, r.store.objects.lookup b = some w →
      s.objects.lookup b = some w ∨ s0.objects.lookup b = some w) :
    ∃ st, l.foldl (Restored.modify sch) r = { r with store := st } ∧ st.nextId = r.store.nextId ∧
      ∀ b, st.objects.lookup b =
        if b ∈ l.map Prod.fst then s0.objects.lookup b else r.store.objects.lookup b := by
  induction l generalizing r with
  | nil => exact ⟨r.store, rfl, rfl, by simp⟩
  | cons x l ih =>
    obtain ⟨a, v⟩ := x
    rw [List.map_cons, List.nodup_cons] at hnd
    obtain ⟨hv, hconf⟩ := hl a v List.mem_cons_self
    obtain ⟨w, hw⟩ := Finmap.mem_iff.mp (hin a v List.mem_cons_self)
    have hfree : ¬r.store.Conflict sch a v := by
      intro hc
      obtain ⟨b, y, hy, hne, hk⟩ := (Store.conflict_iff sch).mp hc
      rcases hr b y hy with h | h
      · exact hconf ((Store.conflict_iff sch).mpr ⟨b, y, h, hne, hk⟩)
      · exact hwf.unique a v hv ((Store.conflict_iff sch).mpr ⟨b, y, h, hne, hk⟩)
    have hstep : r.modify sch (a, v) =
        { r with store := { r.store with objects := r.store.objects.insert a v } } := by
      simp only [Restored.modify,
        Store.modify_of_lookup (f := fun _ => v) hw hfree]
    rw [List.foldl_cons, hstep]
    obtain ⟨st, hst, hnext, hlook⟩ := ih hnd.2
      (fun b y hb => hl b y (List.mem_cons_of_mem _ hb))
      { r with store := { r.store with objects := r.store.objects.insert a v } }
      (fun b y hb => Finmap.mem_insert.mpr (Or.inr (hin b y (List.mem_cons_of_mem _ hb))))
      (fun b y hb => by
        by_cases hba : b = a
        · subst hba
          rw [Finmap.lookup_insert] at hb
          cases hb
          exact Or.inr hv
        · rw [Finmap.lookup_insert_of_ne _ hba] at hb
          exact hr b y hb)
    exact ⟨st, hst, hnext, lookup_put_back hv hlook⟩

omit [DecidableEq K] in
theorem restore_new (l : List ObjectId) (hnd : l.Nodup) (r : Restored V)
    (hin : ∀ a ∈ l, a ∈ r.store.objects) :
    ∃ st, l.foldl Restored.remove r = { r with store := st } ∧ st.nextId = r.store.nextId ∧
      ∀ b, st.objects.lookup b = if b ∈ l then none else r.store.objects.lookup b := by
  induction l generalizing r with
  | nil => exact ⟨r.store, rfl, rfl, by simp⟩
  | cons a l ih =>
    rw [List.nodup_cons] at hnd
    have hstep : r.remove a =
        { r with store := { r.store with objects := r.store.objects.erase a } } := by
      simp only [Restored.remove, Store.remove, if_pos (hin a List.mem_cons_self)]
    rw [List.foldl_cons, hstep]
    obtain ⟨st, hst, hnext, hlook⟩ := ih hnd.2
      { r with store := { r.store with objects := r.store.objects.erase a } }
      (fun b hb => Finmap.mem_erase.mpr
        ⟨fun h => hnd.1 (h ▸ hb), hin b (List.mem_cons_of_mem _ hb)⟩)
    refine ⟨st, hst, hnext, fun b => ?_⟩
    rw [hlook b]
    by_cases hb : b ∈ l
    · rw [if_pos hb, if_pos (List.mem_cons_of_mem _ hb)]
    · rw [if_neg hb]
      by_cases hba : b = a
      · subst hba
        rw [if_pos List.mem_cons_self, Finmap.lookup_erase]
      · rw [if_neg (by simp [hba, hb]), Finmap.lookup_erase_ne hba]

theorem restore_removed (hwf : s0.WellFormed sch) (l : List (ObjectId × V))
    (hnd : (l.map Prod.fst).Nodup) (hl : ∀ a v, (a, v) ∈ l → s0.objects.lookup a = some v)
    (r : Restored V) (hthrew : r.threw = false)
    (hout : ∀ a v, (a, v) ∈ l → a ∉ r.store.objects)
    (hr : ∀ b w, r.store.objects.lookup b = some w → s0.objects.lookup b = some w) :
    ∃ st, l.foldl (Restored.insert sch) r = { r with store := st } ∧ st.nextId = r.store.nextId ∧
      ∀ b, st.objects.lookup b =
        if b ∈ l.map Prod.fst then s0.objects.lookup b else r.store.objects.lookup b := by
  induction l generalizing r with
  | nil => exact ⟨r.store, rfl, rfl, by simp⟩
  | cons x l ih =>
    obtain ⟨a, v⟩ := x
    rw [List.map_cons, List.nodup_cons] at hnd
    have hv := hl a v List.mem_cons_self
    have hfree : ¬r.store.Conflict sch a v := by
      intro hc
      obtain ⟨b, y, hy, hne, hk⟩ := (Store.conflict_iff sch).mp hc
      exact hwf.unique a v hv ((Store.conflict_iff sch).mpr ⟨b, y, hr b y hy, hne, hk⟩)
    have hstep : r.insert sch (a, v) =
        { r with store := { r.store with objects := r.store.objects.insert a v } } := by
      simp [Restored.insert, hthrew, Store.insert_free (hout a v List.mem_cons_self) hfree]
    rw [List.foldl_cons, hstep]
    obtain ⟨st, hst, hnext, hlook⟩ := ih hnd.2
      (fun b y hb => hl b y (List.mem_cons_of_mem _ hb))
      { r with store := { r.store with objects := r.store.objects.insert a v } } hthrew
      (fun b y hb hm => by
        rcases Finmap.mem_insert.mp hm with rfl | hm
        · exact hnd.1 (List.mem_map.mpr ⟨_, hb, rfl⟩)
        · exact hout b y (List.mem_cons_of_mem _ hb) hm)
      (fun b y hb => by
        by_cases hba : b = a
        · subst hba
          rw [Finmap.lookup_insert] at hb
          cases hb
          exact hv
        · rw [Finmap.lookup_insert_of_ne _ hba] at hb
          exact hr b y hb)
    exact ⟨st, hst, hnext, lookup_put_back hv hlook⟩

end Loops

theorem Records.restore_eq {s0 s : Store V} {u : UndoState V} (h : Records sch s0 u s ∅)
    (hkeys : KeysKept sch s0 s) (ord : IterationOrder V) :
    u.restore sch ord s = ⟨s0, [], false⟩ := by
  have hold : ∀ a v, (a, v) ∈ ord.values u.oldValues →
      s0.objects.lookup a = some v ∧ a ∈ s.objects := by
    intro a v ha
    obtain ⟨hv, hs⟩ := h.old a v ((ord.mem_values _ a v).mp ha)
    exact ⟨hv, hs.resolve_right (Set.notMem_empty a)⟩
  obtain ⟨s1, h1, hn1, hl1⟩ := restore_values (s := s) h.wf0 (ord.values u.oldValues)
    (ord.values_nodup _)
    (fun a v ha => ⟨(hold a v ha).1, hkeys a v (hold a v ha).1 (hold a v ha).2⟩) ⟨s, [], false⟩
    (fun a v ha => (hold a v ha).2) (fun _ _ hb => Or.inl hb)
  simp only [ord.mem_keys] at hl1
  obtain ⟨s2, h2, hn2, hl2⟩ := restore_new (ord.ids u.newIds) (ord.ids_nodup _)
    ⟨s1, [], false⟩ (fun a ha => by
      have hn := (ord.mem_ids _ a).mp ha
      rw [Finmap.mem_iff]
      simp only [hl1 a, if_neg fun ho => h.old_not_new ho hn]
      exact Finmap.mem_iff.mp ((h.new a hn).2.2.resolve_right (Set.notMem_empty a)))
  simp only [ord.mem_ids] at hl2
  -- What is left after the removes is the part of the first store that was not removed.
  have hpart : ∀ b, b ∉ u.removed → s2.objects.lookup b = s0.objects.lookup b := by
    intro b hr
    rw [hl2 b]
    by_cases hn : b ∈ u.newIds
    · rw [if_pos hn, Finmap.lookup_eq_none.mpr (h.new_not_mem hn)]
    · rw [if_neg hn]
      show s1.objects.lookup b = _
      rw [hl1 b]
      by_cases ho : b ∈ u.oldValues
      · rw [if_pos ho]
      · rw [if_neg ho]
        exact h.other b hn ho hr (Set.notMem_empty b)
  have hgone : ∀ b, b ∈ u.removed → b ∉ s2.objects := by
    intro b hr hm
    obtain ⟨w, hw⟩ := Finmap.mem_iff.mp hr
    obtain ⟨x, hx⟩ := Finmap.mem_iff.mp hm
    rw [hl2 b] at hx
    split at hx
    · cases hx
    · change s1.objects.lookup b = _ at hx
      rw [hl1 b, if_neg fun ho => h.old_not_removed ho hr] at hx
      exact (h.removed b w hw).2.1 (mem_of_lookup hx)
  have hnext : (Restored.setNextIds ⟨s2, [], false⟩ u.oldIndexNextIds).store.nextId =
      s0.nextId := by
    funext i
    have hi := h.next i
    unfold Restored.setNextIds
    cases ho : u.oldIndexNextIds.lookup i with
    | some a =>
      rw [ho] at hi
      simpa only [ho] using hi
    | none =>
      rw [ho] at hi
      simpa only [ho, hn2, hn1] using hi
  obtain ⟨s3, h3, hn3, hl3⟩ := restore_removed h.wf0 (ord.values u.removed) (ord.values_nodup _)
    (fun a v ha => (h.removed a v ((ord.mem_values _ a v).mp ha)).1)
    (Restored.setNextIds ⟨s2, [], false⟩ u.oldIndexNextIds) rfl
    (fun a v ha => hgone a (mem_of_lookup ((ord.mem_values _ a v).mp ha)))
    (fun b w hb => by
      rw [← hpart b fun hr => hgone b hr (mem_of_lookup hb)]
      exact hb)
  simp only [ord.mem_keys] at hl3
  have hs3 : s3 = s0 := by
    refine Store.ext (Finmap.ext_lookup fun b => ?_) (hn3.trans hnext)
    rw [hl3 b]
    by_cases hr : b ∈ u.removed
    · rw [if_pos hr]
    · rw [if_neg hr]
      exact hpart b hr
  simp only [UndoState.restore, h1, h2]
  rw [h3, hs3]
  rfl

/-! ### The loops, when something was lost or collides -/

section Failures

theorem Restored.modify_objects (r : Restored V) (x : ObjectId × V) {b : ObjectId}
    (hb : b ∉ r.store.objects) : b ∉ (r.modify sch x).store.objects := by
  obtain ⟨a, v⟩ := x
  unfold Restored.modify Store.modify
  cases ha : r.store.objects.lookup a with
  | none => exact hb
  | some w =>
    simp only
    split
    · rename_i s hs
      split at hs
      · cases hs
      · cases hs
        rw [Finmap.mem_insert, not_or]
        exact ⟨fun h => hb (h ▸ mem_of_lookup ha), hb⟩
    · rename_i s hs
      split at hs
      · cases hs
        exact fun h => hb (Finmap.mem_erase.mp h).2
      · cases hs

omit [DecidableEq K] in
theorem Restored.remove_objects (r : Restored V) (a : ObjectId) {b : ObjectId}
    (hb : b ∉ r.store.objects) : b ∉ (r.remove a).store.objects := by
  unfold Restored.remove Store.remove
  by_cases ha : a ∈ r.store.objects
  · simp only [if_pos ha]
    exact fun h => hb (Finmap.mem_erase.mp h).2
  · simpa only [if_neg ha] using hb

theorem Restored.insert_objects (r : Restored V) (x : ObjectId × V) {b : ObjectId}
    (hne : b ≠ x.1) (hb : b ∉ r.store.objects) : b ∉ (r.insert sch x).store.objects := by
  unfold Restored.insert
  split
  · exact hb
  · split
    · rename_i s hs
      rw [Store.insert_eq hs, Finmap.mem_insert, not_or]
      exact ⟨hne, hb⟩
    · exact hb

theorem Restored.modify_swallowed (r : Restored V) (x : ObjectId × V) (h : r.swallowed ≠ []) :
    (r.modify sch x).swallowed ≠ [] := by
  unfold Restored.modify
  split <;> simp [h]

omit [DecidableEq K] in
theorem Restored.remove_swallowed (r : Restored V) (a : ObjectId) (h : r.swallowed ≠ []) :
    (r.remove a).swallowed ≠ [] := by
  unfold Restored.remove
  split <;> simp [h]

theorem Restored.insert_swallowed (r : Restored V) (x : ObjectId × V) :
    (r.insert sch x).swallowed = r.swallowed := by
  unfold Restored.insert
  split
  · rfl
  · split <;> rfl

variable {s : Store V} {u : UndoState V}

theorem restore_swallowed (ord : IterationOrder V)
    (h : ((ord.ids u.newIds).foldl Restored.remove
      ((ord.values u.oldValues).foldl (Restored.modify sch) ⟨s, [], false⟩)).swallowed ≠ []) :
    (u.restore sch ord s).swallowed ≠ [] :=
  List.foldlRecOn _ _ (motive := fun r : Restored V => r.swallowed ≠ []) h
    fun r hr x _ => by rwa [Restored.insert_swallowed]

theorem restore_objects (ord : IterationOrder V) {b : ObjectId} (hb : b ∉ s.objects)
    (hr : b ∉ u.removed) : b ∉ (u.restore sch ord s).store.objects := by
  have h1 : b ∉ ((ord.values u.oldValues).foldl (Restored.modify sch)
      ⟨s, [], false⟩).store.objects :=
    List.foldlRecOn _ _ (motive := fun r : Restored V => b ∉ r.store.objects) hb
      fun r h x _ => r.modify_objects x h
  have h2 : b ∉ ((ord.ids u.newIds).foldl Restored.remove
      ((ord.values u.oldValues).foldl (Restored.modify sch) ⟨s, [], false⟩)).store.objects :=
    List.foldlRecOn _ _ (motive := fun r : Restored V => b ∉ r.store.objects) h1
      fun r h a _ => r.remove_objects a h
  refine List.foldlRecOn _ _ (motive := fun r : Restored V => b ∉ r.store.objects) h2
    fun r h x hx => r.insert_objects x ?_ h
  rintro rfl
  exact hr (mem_of_lookup ((ord.mem_values _ _ _).mp hx))

theorem restore_new_missing (l : List ObjectId) {a : ObjectId} (ha : a ∈ l) (r : Restored V)
    (hb : a ∉ r.store.objects) : (l.foldl Restored.remove r).swallowed ≠ [] := by
  induction l generalizing r with
  | nil => cases ha
  | cons c l ih =>
    rw [List.foldl_cons]
    by_cases hc : a = c
    · subst hc
      refine List.foldlRecOn _ _ (motive := fun r : Restored V => r.swallowed ≠ []) ?_
        fun r h b _ => r.remove_swallowed b h
      simp [Restored.remove, Store.remove, if_neg hb]
    · exact ih ((List.mem_cons.mp ha).resolve_left hc) _ (r.remove_objects c hb)

theorem restore_conflict (ord : IterationOrder V) {a : ObjectId} {v w : V}
    (hv : u.oldValues.lookup a = some v) (hw : s.objects.lookup a = some w)
    (hc : s.Conflict sch a v) : (u.restore sch (ord.front a) s).swallowed ≠ [] := by
  obtain ⟨tail, htail⟩ := ord.front_values hv
  apply restore_swallowed
  refine List.foldlRecOn _ _ (motive := fun r : Restored V => r.swallowed ≠ []) ?_
    fun r h b _ => r.remove_swallowed b h
  rw [htail, List.foldl_cons]
  refine List.foldlRecOn _ _ (motive := fun r : Restored V => r.swallowed ≠ []) ?_
    fun r h x _ => r.modify_swallowed x h
  simp [Restored.modify, Store.modify, hw, hc]

end Failures

/-! ### When a session is taken back -/

/-- Taking the session back restores the store at its start in every iteration order if and only if
the unique keys were kept and nothing was lost. -/
theorem Records.restore_iff {s0 s : Store V} {u : UndoState V} {lost : Set ObjectId}
    (h : Records sch s0 u s lost) :
    (∀ ord, u.restore sch ord s = ⟨s0, [], false⟩) ↔ KeysKept sch s0 s ∧ lost = ∅ := by
  constructor
  · intro hres
    refine ⟨fun a v hv ha hc => ?_, Set.eq_empty_iff_forall_notMem.mpr fun a hl => ?_⟩
    · obtain ⟨w, hw⟩ := Finmap.mem_iff.mp ha
      have hn : a ∉ u.newIds := fun hn => h.new_not_mem hn (mem_of_lookup hv)
      by_cases ho : a ∈ u.oldValues
      · obtain ⟨x, hx⟩ := Finmap.mem_iff.mp ho
        obtain rfl : x = v := Option.some.inj ((h.old a x hx).1.symm.trans hv)
        exact restore_conflict .byId hx hw hc (by rw [hres])
      · -- An object that was not changed has its own keys at the end too.
        obtain rfl : w = v := Option.some.inj ((h.untouched hw hn ho).symm.trans hv)
        exact h.wf.unique a w hw hc
    · obtain ⟨hs, hn | h0⟩ := h.lost a hl
      · have hsw : (u.restore sch .byId s).swallowed = [] := by rw [hres]
        refine restore_swallowed .byId ?_ hsw
        refine restore_new_missing _ ((IterationOrder.byId.mem_ids _ a).mpr hn) _ ?_
        exact List.foldlRecOn _ _ (motive := fun r : Restored V => a ∉ r.store.objects) hs
          fun r h x _ => r.modify_objects x h
      · have hr : a ∉ u.removed := by
          intro hr
          obtain ⟨x, hx⟩ := Finmap.mem_iff.mp hr
          exact (h.removed a x hx).2.2 hl
        have hgone : a ∉ (u.restore sch .byId s).store.objects := restore_objects .byId hs hr
        rw [hres] at hgone
        exact hgone h0
  · rintro ⟨hkeys, rfl⟩ ord
    exact h.restore_eq hkeys ord

theorem restoredTo_undo {db : ObjectDatabase V} {u : UndoState V} {rest : List (UndoState V)}
    {s0 : Store V} {ord : IterationOrder V} (hen : db.undoDb.disabled = false)
    (hact : db.undoDb.activeSessions ≠ 0) (hst : db.undoDb.stack = u :: rest) :
    RestoredTo (db.undo sch ord) s0 ↔ u.restore sch ord db.store = ⟨s0, [], false⟩ := by
  have hcond : ¬(db.undoDb.disabled = true ∨ db.undoDb.activeSessions = 0) := by
    simp [hen, hact]
  simp only [RestoredTo, ObjectDatabase.undo, if_neg hcond, hst]
  generalize u.restore sch ord db.store = r
  obtain ⟨s, sw, threw⟩ := r
  cases threw <;> simp [and_comm]

theorem restoredTo_popCommit (sch : Schema V K) (s0 : Store V) {db : ObjectDatabase V}
    {u : UndoState V} {rest : List (UndoState V)} (hact : db.undoDb.activeSessions = 1)
    (hst : db.undoDb.stack = u :: rest) :
    ∃ committed, db.commit = some committed ∧ ∀ ord,
      RestoredTo (committed.popCommit sch ord) s0 ↔
        u.restore sch ord db.store = ⟨s0, [], false⟩ := by
  refine ⟨{ db with undoDb := { db.undoDb with activeSessions := 0 } }, ?_, fun ord => ?_⟩
  · simp [ObjectDatabase.commit, hact]
  · simp only [RestoredTo, ObjectDatabase.popCommit, ne_eq, not_true, if_false, hst]
    generalize u.restore sch ord db.store = r
    obtain ⟨s, sw, threw⟩ := r
    cases threw <;> simp [and_comm]

theorem ObjectDatabase.session_steps {db db' : ObjectDatabase V} {force : Bool}
    {ops : List (Op V)} (hen : db.undoDb.disabled = false ∨ force = true)
    (hrun : (db.startUndoSession force).run sch ops = some db') :
    ∃ es, StoreSteps sch db.store es db'.store ∧
      (∀ (d : ObjectDatabase V) u rest, d.store = db.store → d.undoDb.disabled = false →
        d.undoDb.stack = u :: rest → d.run sch ops =
          some { store := db'.store
                 undoDb := { d.undoDb with stack := es.foldl UndoState.apply u :: rest } }) ∧
      db'.undoDb =
        { db.undoDb with
          disabled := false
          stack := es.foldl UndoState.apply .empty :: db.undoDb.stack.take db.undoDb.maxSize
          activeSessions := db.undoDb.activeSessions + 1 } ∧
      ∀ a, .erased a ∈ es ↔ .removeById a ∈ ops ∧ sch.isExternalDb a.index = true := by
  have hstart : db.startUndoSession force =
      { db with
        undoDb :=
          { db.undoDb with
            disabled := false
            stack := .empty :: db.undoDb.stack.take db.undoDb.maxSize
            activeSessions := db.undoDb.activeSessions + 1 } } := by
    unfold ObjectDatabase.startUndoSession
    rw [if_neg]
    rcases hen with h | h <;> simp [h]
  rw [hstart] at hrun
  obtain ⟨es, hsteps, hundo, hlost⟩ := ObjectDatabase.run_steps hrun
  refine ⟨es, hsteps, hundo, ?_, hlost⟩
  have h := hrun.symm.trans (hundo _ .empty _ rfl rfl rfl)
  rw [Option.some.inj h]

theorem StoreSteps.records {s0 s : Store V} {es : List (Event V)} {ops : List (Op V)}
    (hwf : s0.WellFormed sch) (h : StoreSteps sch s0 es s)
    (hlost : ∀ a, .erased a ∈ es ↔ .removeById a ∈ ops ∧ sch.isExternalDb a.index = true) :
    Records sch s0 (es.foldl UndoState.apply .empty) s
      {a | .removeById a ∈ ops ∧ sch.isExternalDb a.index = true} := by
  simpa only [Set.empty_union, hlost] using (Records.start hwf).steps h

omit [DecidableEq K] in
theorem lost_eq_empty {ops : List (Op V)} :
    ({a | .removeById a ∈ ops ∧ sch.isExternalDb a.index = true} : Set ObjectId) = ∅ ↔
      ∀ a, .removeById a ∈ ops → sch.isExternalDb a.index = false := by
  simp [Set.eq_empty_iff_forall_notMem]

/-- After a session whose calls all succeeded, `undo` (and `pop_commit` of the committed session)
restores the objects and the next ids at its start without swallowing an error, in every iteration
order, if and only if no object that lives through the session had a unique key at the start that
another object has at the end, and no object was removed by id from a Berkeley DB index. -/
theorem undo_restores_iff {db db' : ObjectDatabase V} {force : Bool} {ops : List (Op V)}
    (hwf : db.store.WellFormed sch) (hen : db.undoDb.disabled = false ∨ force = true)
    (hrun : (db.startUndoSession force).run sch ops = some db') :
    ((∀ ord, RestoredTo (db'.undo sch ord) db.store) ↔
      KeysKept sch db.store db'.store ∧
        ∀ a, .removeById a ∈ ops → sch.isExternalDb a.index = false) ∧
    (db.undoDb.activeSessions = 0 → ∃ committed, db'.commit = some committed ∧
      ((∀ ord, RestoredTo (committed.popCommit sch ord) db.store) ↔
        KeysKept sch db.store db'.store ∧
          ∀ a, .removeById a ∈ ops → sch.isExternalDb a.index = false)) := by
  obtain ⟨es, hsteps, -, hundo, hlost⟩ := ObjectDatabase.session_steps hen hrun
  have hiff := (hsteps.records hwf hlost).restore_iff
  rw [lost_eq_empty] at hiff
  have hdis : db'.undoDb.disabled = false := by rw [hundo]
  have hactive : db'.undoDb.activeSessions = db.undoDb.activeSessions + 1 := by rw [hundo]
  have hstack : db'.undoDb.stack = es.foldl UndoState.apply .empty ::
      db.undoDb.stack.take db.undoDb.maxSize := by rw [hundo]
  constructor
  · rw [← hiff]
    exact forall_congr' fun ord => restoredTo_undo hdis (by omega) hstack
  · intro hact
    obtain ⟨committed, hcommit, hpop⟩ := restoredTo_popCommit sch db.store
      (by omega : db'.undoDb.activeSessions = 1) hstack
    refine ⟨committed, hcommit, ?_⟩
    rw [← hiff]
    exact forall_congr' hpop

/-- An in-memory index of numbers in which every number is unique, as names are in
`account_index`. -/
def uniqueNumbers : Schema Nat Nat where
  uniqueKeys _ := [fun _ v => v]
  isExternalDb _ := false
  external_keys _ h := by cases h

/-- The id of the `n`-th object of an account index. -/
def accountId (n : Nat) : ObjectId := ⟨⟨1, 2⟩, n⟩

/-- A database of `uniqueNumbers` with the object 10 and nothing to undo. -/
def oneNumber : ObjectDatabase Nat where
  store :=
    { objects := Finmap.singleton (accountId 0) 10
      nextId := Function.update (fun _ => 0) (accountId 0).index 1 }
  undoDb := { activeSessions := 0, disabled := false, stack := [], maxSize := 10 }

theorem oneNumber_wellFormed : oneNumber.store.WellFormed uniqueNumbers where
  unique a w ha hc := by
    obtain ⟨b, y, hb, hne, -⟩ := (Store.conflict_iff _).mp hc
    have ha := (Finmap.mem_singleton _ _ _).mp (mem_of_lookup ha)
    have hb := (Finmap.mem_singleton _ _ _).mp (mem_of_lookup hb)
    exact hne (hb.trans ha.symm)
  fresh a ha := by
    obtain rfl := (Finmap.mem_singleton _ _ _).mp ha
    decide

theorem undo_restores_new_key :
    ∃ db', (oneNumber.startUndoSession false).run uniqueNumbers
        [.modify (accountId 0) fun _ => 11, .create ⟨1, 2⟩ fun _ => 12] = some db' ∧
      ∀ ord, RestoredTo (db'.undo uniqueNumbers ord) oneNumber.store := by
  have hsome : ((oneNumber.startUndoSession false).run uniqueNumbers
      [.modify (accountId 0) fun _ => 11, .create ⟨1, 2⟩ fun _ => 12]).isSome := by decide
  refine ⟨_, (Option.some_get hsome).symm, ?_⟩
  refine (undo_restores_iff oneNumber_wellFormed (Or.inl rfl)
    (Option.some_get hsome).symm).1.mpr ⟨fun a v hv _ => ?_, by simp⟩
  obtain rfl := (Finmap.mem_singleton _ _ _).mp (mem_of_lookup hv)
  obtain rfl : 10 = v := Option.some.inj hv
  decide +kernel +revert

/-- Object 0 gives up the number 10, which a new object takes.  The undo writes 10 back into object
0 while the new object still has it: the modify erases object 0, and the error is only logged. -/
theorem undo_erases_object :
    ∃ db', (oneNumber.startUndoSession false).run uniqueNumbers
        [.modify (accountId 0) fun _ => 11, .create ⟨1, 2⟩ fun _ => 10] = some db' ∧
      ((db'.undo uniqueNumbers .byId).map fun r => (r.1.store.objects, r.2)) =
        some (∅, [accountId 0]) ∧
      ¬RestoredTo (db'.undo uniqueNumbers .byId) oneNumber.store := by
  have hsome : ((oneNumber.startUndoSession false).run uniqueNumbers
      [.modify (accountId 0) fun _ => 11, .create ⟨1, 2⟩ fun _ => 10]).isSome := by decide
  have hundo : ((((oneNumber.startUndoSession false).run uniqueNumbers
      [.modify (accountId 0) fun _ => 11, .create ⟨1, 2⟩ fun _ => 10]).get hsome).undo
        uniqueNumbers .byId).map (fun r => (r.1.store.objects, r.2)) =
      some (∅, [accountId 0]) := by decide +kernel +revert
  refine ⟨_, (Option.some_get hsome).symm, hundo, ?_⟩
  rintro ⟨d, hd, -⟩
  rw [hd] at hundo
  simp at hundo

end Nestchain.Db
