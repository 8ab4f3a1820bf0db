import Nestchain.Db.Restore

/-! Merging a session into the session below it.  What an undo state says of one object is one of
the four rows of the matrix documented in `merge`, and the matrix composes them.  Recording an event
and each iteration of the loops of `merge` amend the entry of one object by the matrix, so merging
the state of a child session is recording the child's events in the parent. -/

namespace Nestchain.Db

variable {V K : Type}

/-- An object's relationship to an undo state. -/
inductive Change (V : Type) where
  | new
  | upd (was : V)
  | del (was : V)
  | nop

/-- The matrix documented in `merge`; `none` is a cell marked N/A. -/
def Change.compose : Change V → Change V → Option (Change V)
  | .new, .upd _ => some .new
  | .new, .del _ => some .nop
  | .upd x, .upd _ => some (.upd x)
  | .upd x, .del _ => some (.del x)
  | .nop, d => some d
  | c, .nop => some c
  | _, _ => none

@[simp]
theorem Change.compose_nop (c : Change V) : c.compose .nop = some c := by cases c <;> rfl

@[simp]
theorem Change.nop_compose (c : Change V) : Change.compose .nop c = some c := by cases c <;> rfl

theorem Change.compose_assoc {c d e x y : Change V} (hx : c.compose d = some x)
    (hy : d.compose e = some y) : c.compose y = x.compose e := by
  cases c <;> cases d <;> cases hx <;> cases e <;> cases hy <;> rfl

/-- The relationship of the object `a` to the state `u`. -/
def UndoState.change (u : UndoState V) (a : ObjectId) : Change V :=
  if a ∈ u.newIds then .new
  else
    match u.oldValues.lookup a, u.removed.lookup a with
    | some v, _ => .upd v
    | none, some v => .del v
    | none, none => .nop

/-- Every object is in at most one of the three containers. -/
structure UndoState.Disjoint (u : UndoState V) : Prop where
  old : ∀ a ∈ u.oldValues, a ∉ u.newIds
  removed : ∀ a ∈ u.removed, a ∉ u.newIds ∧ a ∉ u.oldValues

namespace UndoState

variable {u u' : UndoState V} {a : ObjectId}

@[simp]
theorem change_empty (a : ObjectId) : (UndoState.empty : UndoState V).change a = .nop := by
  simp [UndoState.change, UndoState.empty]

theorem change_eq_new : u.change a = .new ↔ a ∈ u.newIds := by
  unfold UndoState.change
  split
  · simp [*]
  · rename_i hn
    split <;> simp [hn]

theorem Disjoint.change_eq_upd (h : u.Disjoint) {v : V} :
    u.change a = .upd v ↔ u.oldValues.lookup a = some v := by
  unfold UndoState.change
  split
  · rename_i hn
    have ho : u.oldValues.lookup a = none :=
      Finmap.lookup_eq_none.mpr fun ho => h.old a ho hn
    simp [ho]
  · split <;> simp [*]

theorem Disjoint.change_eq_del (h : u.Disjoint) {v : V} :
    u.change a = .del v ↔ u.removed.lookup a = some v := by
  have hr : ∀ {w}, u.removed.lookup a = some w → a ∉ u.newIds ∧ u.oldValues.lookup a = none :=
    fun hw => (h.removed a (mem_of_lookup hw)).imp_right Finmap.lookup_eq_none.mpr
  unfold UndoState.change
  split
  · rename_i hn
    simp only [reduceCtorEq, false_iff]
    exact fun hw => (hr hw).1 hn
  · split
    · rename_i ho
      simp only [reduceCtorEq, false_iff]
      intro hw
      rw [(hr hw).2] at ho
      cases ho
    · simp [*]
    · simp [*]

theorem Disjoint.change_eq_nop (h : u.Disjoint) :
    u.change a = .nop ↔ a ∉ u.newIds ∧ a ∉ u.oldValues ∧ a ∉ u.removed := by
  rw [← change_eq_new, ← Finmap.lookup_eq_none, ← Finmap.lookup_eq_none,
    Option.eq_none_iff_forall_ne_some, Option.eq_none_iff_forall_ne_some]
  simp only [ne_eq, ← h.change_eq_upd, ← h.change_eq_del]
  cases u.change a <;> simp

theorem Disjoint.ext (h : u.Disjoint) (h' : u'.Disjoint) (hc : ∀ a, u.change a = u'.change a)
    (hn : u.oldIndexNextIds = u'.oldIndexNextIds) : u = u' := by
  refine UndoState.ext (Finmap.ext_lookup fun a => ?_) hn (Finset.ext fun a => ?_)
    (Finmap.ext_lookup fun a => ?_)
  · exact Option.ext fun v => by rw [← h.change_eq_upd, ← h'.change_eq_upd, hc a]
  · rw [← change_eq_new, ← change_eq_new, hc a]
  · exact Option.ext fun v => by rw [← h.change_eq_del, ← h'.change_eq_del, hc a]

end UndoState

/-- `u'` is `u` with the change `d` of the object `a` composed onto it. -/
structure Amends (u : UndoState V) (a : ObjectId) (d : Change V) (u' : UndoState V) : Prop where
  disjoint : u'.Disjoint
  here : (u.change a).compose d = some (u'.change a)
  elsewhere : ∀ b, b ≠ a → u'.change b = u.change b

namespace Amends

variable {u : UndoState V} {a : ObjectId}

theorem created (h : u.Disjoint) (ha : u.change a = .nop)
    (next : Finmap fun _ : IndexId => ObjectId) :
    Amends u a .new { u with oldIndexNextIds := next, newIds := insert a u.newIds } := by
  obtain ⟨hn, ho, hr⟩ := h.change_eq_nop.mp ha
  refine ⟨⟨fun b hb => ?_, fun b hb => ?_⟩, ?_, fun b hb => ?_⟩
  · rw [Finset.mem_insert, not_or]
    exact ⟨fun hba => ho (hba ▸ hb), h.old b hb⟩
  · rw [Finset.mem_insert, not_or]
    exact ⟨⟨fun hba => hr (hba ▸ hb), (h.removed b hb).1⟩, (h.removed b hb).2⟩
  · rw [ha, Change.nop_compose]
    simp [UndoState.change]
  · simp [UndoState.change, hb]

theorem modified (h : u.Disjoint) (ha : a ∉ u.removed) (v : V) :
    Amends u a (.upd v) (u.onModify a v) := by
  unfold UndoState.onModify
  split
  · rename_i hn
    refine ⟨h, ?_, fun _ _ => rfl⟩
    rw [UndoState.change_eq_new.mpr hn]
    rfl
  split
  · rename_i ho
    obtain ⟨x, hx⟩ := Finmap.mem_iff.mp ho
    refine ⟨h, ?_, fun _ _ => rfl⟩
    rw [h.change_eq_upd.mpr hx]
    rfl
  rename_i hn ho
  refine ⟨⟨fun b hb => ?_, fun b hb => ⟨(h.removed b hb).1, ?_⟩⟩, ?_, fun b hb => ?_⟩
  · rcases Finmap.mem_insert.mp hb with rfl | hb
    · exact hn
    · exact h.old b hb
  · rw [Finmap.mem_insert, not_or]
    exact ⟨fun hba => ha (hba ▸ hb), (h.removed b hb).2⟩
  · rw [h.change_eq_nop.mpr ⟨hn, ho, ha⟩, Change.nop_compose]
    simp [UndoState.change, hn]
  · simp [UndoState.change, Finmap.lookup_insert_of_ne _ hb]

theorem removed (h : u.Disjoint) (ha : a ∉ u.removed) (v : V) :
    Amends u a (.del v) (u.mergeDel (a, v)) := by
  unfold UndoState.mergeDel
  split
  · rename_i hn
    simp only at hn
    have ho : a ∉ u.oldValues := fun ho => h.old a ho hn
    refine ⟨⟨fun b hb hm => h.old b hb (Finset.mem_of_mem_erase hm),
      fun b hb => ⟨fun hm => (h.removed b hb).1 (Finset.mem_of_mem_erase hm),
        (h.removed b hb).2⟩⟩, ?_, fun b hb => ?_⟩
    · rw [UndoState.change_eq_new.mpr hn]
      simp [UndoState.change, Finmap.lookup_eq_none.mpr ho, Finmap.lookup_eq_none.mpr ha,
        Change.compose]
    · simp [UndoState.change, hb]
  rename_i hn
  simp only at hn
  split
  · rename_i old ho
    refine ⟨⟨fun b hb => h.old b (Finmap.mem_erase.mp hb).2, fun b hb => ?_⟩, ?_, fun b hb => ?_⟩
    · rw [Finmap.mem_erase, not_and]
      rcases Finmap.mem_insert.mp hb with rfl | hb
      · exact ⟨hn, fun hne _ => hne rfl⟩
      · exact ⟨(h.removed b hb).1, fun _ => (h.removed b hb).2⟩
    · rw [h.change_eq_upd.mpr ho]
      simp [UndoState.change, hn, Change.compose]
    · simp [UndoState.change, Finmap.lookup_insert_of_ne _ hb, Finmap.lookup_erase_ne hb]
  · rename_i ho
    refine ⟨⟨h.old, fun b hb => ?_⟩, ?_, fun b hb => ?_⟩
    · rcases Finmap.mem_insert.mp hb with rfl | hb
      · exact ⟨hn, Finmap.lookup_eq_none.mp ho⟩
      · exact h.removed b hb
    · rw [h.change_eq_nop.mpr ⟨hn, Finmap.lookup_eq_none.mp ho, ha⟩, Change.nop_compose]
      simp [UndoState.change, hn, ho]
    · simp [UndoState.change, Finmap.lookup_insert_of_ne _ hb]

theorem foldl {ι : Type} (f : UndoState V → ι → UndoState V) (id : ι → ObjectId)
    (d : ι → Change V) (l : List ι) (hnd : (l.map id).Nodup) (u : UndoState V) (hu : u.Disjoint)
    (hf : ∀ x ∈ l, ∀ w : UndoState V, w.Disjoint → w.change (id x) = u.change (id x) →
      Amends w (id x) (d x) (f w x)) :
    (l.foldl f u).Disjoint ∧
      (∀ x ∈ l, (u.change (id x)).compose (d x) = some ((l.foldl f u).change (id x))) ∧
      ∀ b, b ∉ l.map id → (l.foldl f u).change b = u.change b := by
  induction l generalizing u with
  | nil => exact ⟨hu, by simp, by simp⟩
  | cons x l ih =>
    rw [List.map_cons, List.nodup_cons] at hnd
    have hx := hf x List.mem_cons_self u hu rfl
    have hother : ∀ y ∈ l, (f u x).change (id y) = u.change (id y) := fun y hy =>
      hx.elsewhere _ fun h => hnd.1 (h ▸ List.mem_map_of_mem hy)
    obtain ⟨h1, h2, h3⟩ := ih hnd.2 (f u x) hx.disjoint fun y hy w hw hc =>
      hf y (List.mem_cons_of_mem _ hy) w hw (hc.trans (hother y hy))
    refine ⟨h1, fun y hy => ?_, fun b hb => ?_⟩
    · rcases List.mem_cons.mp hy with rfl | hy
      · rw [List.foldl_cons, h3 _ hnd.1]
        exact hx.here
      · rw [← hother y hy]
        exact h2 y hy
    · rw [List.map_cons, List.mem_cons, not_or] at hb
      rw [List.foldl_cons, h3 b hb.2, hx.elsewhere b hb.1]

end Amends

/-! ### Recording amends -/

def Event.id : Event V → ObjectId
  | .created a => a
  | .modified a _ => a
  | .removed a _ => a
  | .erased a => a

def Event.change : Event V → Change V
  | .created _ => .new
  | .modified _ v => .upd v
  | .removed _ v => .del v
  | .erased _ => .nop

def Event.nextIds (e : Event V) (ids : Finmap fun _ : IndexId => ObjectId) :
    Finmap fun _ : IndexId => ObjectId :=
  match e with
  | .created a => if a.index ∈ ids then ids else ids.insert a.index a
  | _ => ids

theorem UndoState.apply_nextIds (u : UndoState V) (e : Event V) :
    (u.apply e).oldIndexNextIds = e.nextIds u.oldIndexNextIds := by
  cases e with
  | created a => rfl
  | modified a v =>
    simp only [UndoState.apply, UndoState.onModify]
    split
    · rfl
    · split <;> rfl
  | removed a v =>
    simp only [UndoState.apply, UndoState.onRemove]
    split
    · rfl
    · split
      · rfl
      · split <;> rfl
  | erased a => rfl

theorem Event.union_nextIds (e : Event V) (m m' : Finmap fun _ : IndexId => ObjectId) :
    m ∪ e.nextIds m' = e.nextIds (m ∪ m') := by
  cases e with
  | created a =>
    refine Finmap.ext_lookup fun i => ?_
    simp only [Event.nextIds, Finmap.mem_union]
    by_cases hm' : a.index ∈ m'
    · simp only [hm', if_true, or_true]
    · by_cases hm : a.index ∈ m
      · simp only [hm, hm', if_false, true_or, if_true]
        by_cases hi : i ∈ m
        · rw [Finmap.lookup_union_left hi, Finmap.lookup_union_left hi]
        · have hne : i ≠ a.index := fun h => hi (h ▸ hm)
          rw [Finmap.lookup_union_right hi, Finmap.lookup_union_right hi,
            Finmap.lookup_insert_of_ne _ hne]
      · simp only [hm, hm', if_false, or_self]
        by_cases hia : i = a.index
        · subst hia
          rw [Finmap.lookup_union_right hm, Finmap.lookup_insert, Finmap.lookup_insert]
        · rw [Finmap.lookup_insert_of_ne _ hia]
          by_cases hi : i ∈ m
          · rw [Finmap.lookup_union_left hi, Finmap.lookup_union_left hi]
          · rw [Finmap.lookup_union_right hi, Finmap.lookup_union_right hi,
              Finmap.lookup_insert_of_ne _ hia]
  | modified a v => rfl
  | removed a v => rfl
  | erased a => rfl

theorem UndoState.onRemove_eq {u : UndoState V} {a : ObjectId} (ha : a ∉ u.removed) (v : V) :
    u.onRemove a v = u.mergeDel (a, v) := by
  unfold UndoState.onRemove UndoState.mergeDel
  simp only [if_neg ha]

section

variable {sch : Schema V K} {s0 s : Store V} {u : UndoState V} {lost : Set ObjectId}

theorem Records.disjoint (h : Records sch s0 u s lost) : u.Disjoint where
  old _ ho := h.old_not_new ho
  removed a hr := by
    refine ⟨fun hn => ?_, fun ho => h.old_not_removed ho hr⟩
    obtain ⟨w, hw⟩ := Finmap.mem_iff.mp hr
    exact h.new_not_mem hn (mem_of_lookup (h.removed a w hw).1)

theorem Records.change_nop (h : Records sch s0 u s lost) {a : ObjectId} (hn : a ∉ u.newIds)
    (h0 : a ∉ s0.objects) : u.change a = .nop := by
  refine h.disjoint.change_eq_nop.mpr ⟨hn, fun ho => ?_, fun hr => ?_⟩
  · obtain ⟨v, hv⟩ := Finmap.mem_iff.mp ho
    exact h0 (mem_of_lookup (h.old a v hv).1)
  · obtain ⟨v, hv⟩ := Finmap.mem_iff.mp hr
    exact h0 (mem_of_lookup (h.removed a v hv).1)

variable [DecidableEq K]

theorem Records.amends {s' : Store V} {e : Event V} (h : Records sch s0 u s lost)
    (hs : StoreStep sch s e s') : Amends u e.id e.change (u.apply e) := by
  cases hs with
  | created _ =>
    exact .created h.disjoint (h.change_nop h.next_fresh.1 h.next_fresh.2) _
  | modified hv _ => exact .modified h.disjoint (h.not_removed (mem_of_lookup hv)) _
  | removed hv =>
    have hr := h.not_removed (mem_of_lookup hv)
    simp only [UndoState.apply, UndoState.onRemove_eq hr]
    exact .removed h.disjoint hr _
  | erased _ _ => exact ⟨h.disjoint, Change.compose_nop _, fun _ _ => rfl⟩

end

/-! ### Composition of two states -/

/-- `total` is the composition of `prev` and `state` by the matrix, with no cell that is N/A. -/
structure Composes (prev state total : UndoState V) : Prop where
  disjoint : total.Disjoint
  change : ∀ a, (prev.change a).compose (state.change a) = some (total.change a)
  next : total.oldIndexNextIds = prev.oldIndexNextIds ∪ state.oldIndexNextIds

namespace Composes

variable {prev state total : UndoState V}

theorem start (h : prev.Disjoint) : Composes prev .empty prev where
  disjoint := h
  change a := by simp
  next := by simp [UndoState.empty]

theorem unique {total' : UndoState V} (h : Composes prev state total)
    (h' : Composes prev state total') : total = total' :=
  h.disjoint.ext h'.disjoint
    (fun a => Option.some.inj ((h.change a).symm.trans (h'.change a))) (h.next.trans h'.next.symm)

theorem apply (h : Composes prev state total) {e : Event V}
    (hs : Amends state e.id e.change (state.apply e))
    (ht : Amends total e.id e.change (total.apply e)) :
    Composes prev (state.apply e) (total.apply e) where
  disjoint := ht.disjoint
  change a := by
    by_cases ha : a = e.id
    · subst ha
      rw [Change.compose_assoc (h.change _) hs.here, ht.here]
    · rw [hs.elsewhere a ha, ht.elsewhere a ha]
      exact h.change a
  next := by
    rw [UndoState.apply_nextIds, UndoState.apply_nextIds, h.next, Event.union_nextIds]

theorem not_applicable (h : Composes prev state total) (hp : prev.Disjoint)
    (hs : state.Disjoint) : ¬prev.NotApplicable state := by
  rintro ⟨a, ⟨hn, hp'⟩ | ⟨hr, hs'⟩⟩
  · have ha := h.change a
    rw [UndoState.change_eq_new.mpr hn] at ha
    have hnop : prev.change a = .nop := by
      cases hc : prev.change a <;> simp [hc, Change.compose] at ha ⊢
    obtain ⟨h1, h2, h3⟩ := hp.change_eq_nop.mp hnop
    rcases hp' with h' | h' | h'
    · exact h1 h'
    · exact h2 h'
    · exact h3 h'
  · obtain ⟨v, hv⟩ := Finmap.mem_iff.mp hr
    have ha := h.change a
    rw [hp.change_eq_del.mpr hv] at ha
    have hnop : state.change a = .nop := by
      cases hc : state.change a <;> simp [hc, Change.compose] at ha ⊢
    obtain ⟨h1, h2, h3⟩ := hs.change_eq_nop.mp hnop
    exact hs'.elim h2 h3

end Composes

/-! ### The loops of merge -/

section Loops

variable {u prev state total : UndoState V} {a : ObjectId} {v : V}

theorem UndoState.Disjoint.not_removed (h : u.Disjoint)
    (ha : (u.change a).compose (.upd v) ≠ none ∨ (u.change a).compose (.del v) ≠ none) :
    a ∉ u.removed := by
  intro hr
  obtain ⟨w, hw⟩ := Finmap.mem_iff.mp hr
  rw [h.change_eq_del.mpr hw] at ha
  exact ha.elim (fun h => h rfl) fun h => h rfl

theorem UndoState.mergeUpd_nextIds (u : UndoState V) (x : ObjectId × V) :
    (u.mergeUpd x).oldIndexNextIds = u.oldIndexNextIds := by
  unfold UndoState.mergeUpd
  split
  · rfl
  · split <;> rfl

theorem UndoState.mergeDel_nextIds (u : UndoState V) (x : ObjectId × V) :
    (u.mergeDel x).oldIndexNextIds = u.oldIndexNextIds := by
  unfold UndoState.mergeDel
  split
  · rfl
  · split <;> rfl

theorem foldl_nextIds {ι : Type} {f : UndoState V → ι → UndoState V}
    (hf : ∀ u x, (f u x).oldIndexNextIds = u.oldIndexNextIds) (l : List ι) (u : UndoState V) :
    (l.foldl f u).oldIndexNextIds = u.oldIndexNextIds :=
  List.foldlRecOn _ _ (motive := fun w : UndoState V => w.oldIndexNextIds = u.oldIndexNextIds) rfl
    fun w hw x _ => (hf w x).trans hw

theorem mergeInto_composes (ord : IterationOrder V) (hp : prev.Disjoint) (hs : state.Disjoint)
    (h : ∀ a, (prev.change a).compose (state.change a) ≠ none) :
    Composes prev state (prev.mergeInto ord state) := by
  obtain ⟨d1, in1, out1⟩ := Amends.foldl UndoState.mergeUpd Prod.fst (fun x => .upd x.2)
    (ord.values state.oldValues) (ord.values_nodup _) prev hp (fun x hx w hw hc => by
      have hv := (ord.mem_values _ x.1 x.2).mp hx
      have hx := h x.1
      rw [hs.change_eq_upd.mpr hv, ← hc] at hx
      exact .modified hw (hw.not_removed (Or.inl hx)) _)
  generalize h1 : (ord.values state.oldValues).foldl UndoState.mergeUpd prev = u1 at d1 in1 out1
  simp only [ord.mem_keys] at out1
  obtain ⟨d2, in2, out2⟩ := Amends.foldl UndoState.mergeNew id
    (fun _ => .new) (ord.ids state.newIds) (by simpa using ord.ids_nodup _) u1 d1
    (fun a ha w hw hc => by
      have hn := (ord.mem_ids _ a).mp ha
      have ha := h a
      rw [UndoState.change_eq_new.mpr hn, ← out1 a fun ho => hs.old a ho hn] at ha
      refine .created hw ?_ _
      rw [hc]
      cases hu : u1.change a <;> simp [hu, Change.compose] at ha ⊢)
  generalize h2 : (ord.ids state.newIds).foldl UndoState.mergeNew u1 = u2 at d2 in2 out2
  simp only [List.map_id, ord.mem_ids] at in2 out2
  have hfree : ∀ a ∈ state.removed, u2.change a = prev.change a := fun a ha =>
    (out2 a (hs.removed a ha).1).trans (out1 a (hs.removed a ha).2)
  obtain ⟨d3, in3, out3⟩ := Amends.foldl UndoState.mergeDel Prod.fst (fun x => .del x.2)
    (ord.values state.removed) (ord.values_nodup _) (u2.mergeNextIds state.oldIndexNextIds)
    ⟨d2.old, d2.removed⟩ (fun x hx w hw hc => by
      have hv := (ord.mem_values _ x.1 x.2).mp hx
      have hx := h x.1
      rw [hs.change_eq_del.mpr hv, ← hfree x.1 (mem_of_lookup hv)] at hx
      have hr : x.1 ∉ w.removed := hw.not_removed (v := x.2) (Or.inr (by rw [hc]; exact hx))
      exact .removed hw hr _)
  simp only [ord.mem_keys] at out3
  have hmerge : prev.mergeInto ord state = (ord.values state.removed).foldl UndoState.mergeDel
      (u2.mergeNextIds state.oldIndexNextIds) := by
    rw [← h2, ← h1]
    rfl
  rw [hmerge]
  refine ⟨d3, fun a => ?_, ?_⟩
  · -- The object is in one container of the second state, so one of the loops met it.
    cases hc : state.change a with
    | new =>
      have hn := UndoState.change_eq_new.mp hc
      rw [out3 a fun hr => (hs.removed a hr).1 hn]
      rw [← out1 a fun ho => hs.old a ho hn]
      exact in2 a hn
    | upd v =>
      have ho := hs.change_eq_upd.mp hc
      have hm := mem_of_lookup ho
      rw [out3 a fun hr => (hs.removed a hr).2 hm]
      show _ = some (u2.change a)
      rw [out2 a (hs.old a hm)]
      exact in1 (a, v) ((ord.mem_values _ a v).mpr ho)
    | del v =>
      have hr := hs.change_eq_del.mp hc
      rw [← hfree a (mem_of_lookup hr)]
      exact in3 (a, v) ((ord.mem_values _ a v).mpr hr)
    | nop =>
      obtain ⟨hn, ho, hr⟩ := hs.change_eq_nop.mp hc
      rw [out3 a hr, Change.compose_nop]
      show _ = some (u2.change a)
      rw [out2 a hn, out1 a ho]
  · rw [foldl_nextIds UndoState.mergeDel_nextIds]
    show u2.oldIndexNextIds ∪ state.oldIndexNextIds = _
    rw [← h2, foldl_nextIds (f := UndoState.mergeNew) (fun _ _ => rfl), ← h1,
      foldl_nextIds UndoState.mergeUpd_nextIds]

end Loops

/-! ### Merging a child session -/

variable [DecidableEq K] {sch : Schema V K}

/-- Along the events of the child session, the state of the parent composed with the state of the
child is the state of one session with all the events. -/
theorem Composes.steps {sA0 sB0 s s' : Store V} {prev state total : UndoState V}
    {lost lost' : Set ObjectId} {es : List (Event V)} (h : Composes prev state total)
    (hB : Records sch sB0 state s lost) (hA : Records sch sA0 total s lost')
    (hs : StoreSteps sch s es s') :
    Composes prev (es.foldl UndoState.apply state) (es.foldl UndoState.apply total) := by
  induction hs generalizing state total lost lost' with
  | nil => exact h
  | cons hstep _ ih =>
    exact ih (h.apply (hB.amends hstep) (hA.amends hstep)) (hB.step hstep) (hA.step hstep)

theorem ObjectDatabase.run_append (db : ObjectDatabase V) (ops ops' : List (Op V)) :
    db.run sch (ops ++ ops') = (db.run sch ops).bind fun d => d.run sch ops' := by
  induction ops generalizing db with
  | nil => rfl
  | cons op ops ih =>
    simp only [List.cons_append, ObjectDatabase.run, Option.bind_assoc, ih]

/-- Merging a child session into its parent, in every iteration order, gives the undo state that one
session with the calls of both would have, and no cell of the matrix that is N/A is met.  Taking the
merged session back restores the store before the parent began under the condition under which a
single session does. -/
theorem merge_is_single_session {db dbA dbB : ObjectDatabase V} {force forceB : Bool}
    {opsA opsB : List (Op V)} (hwf : db.store.WellFormed sch)
    (hen : db.undoDb.disabled = false ∨ force = true) (hmax : 1 ≤ db.undoDb.maxSize)
    (hA : (db.startUndoSession force).run sch opsA = some dbA)
    (hB : (dbA.startUndoSession forceB).run sch opsB = some dbB) (ord : IterationOrder V) :
    (∃ prev state rest, dbB.undoDb.stack = state :: prev :: rest ∧ ¬prev.NotApplicable state) ∧
    ∃ single merged, (db.startUndoSession force).run sch (opsA ++ opsB) = some single ∧
      dbB.merge ord = some merged ∧ merged.store = single.store ∧
      merged.undoDb.activeSessions = single.undoDb.activeSessions ∧
      merged.undoDb.stack.head? = single.undoDb.stack.head? ∧
      ((∀ ord', RestoredTo (merged.undo sch ord') db.store) ↔
        KeysKept sch db.store dbB.store ∧
          ∀ a, .removeById a ∈ opsA ++ opsB → sch.isExternalDb a.index = false) ∧
      (db.undoDb.activeSessions = 0 → ∃ committed, merged.commit = some committed ∧
        ((∀ ord', RestoredTo (committed.popCommit sch ord') db.store) ↔
          KeysKept sch db.store dbB.store ∧
            ∀ a, .removeById a ∈ opsA ++ opsB → sch.isExternalDb a.index = false)) := by
  obtain ⟨esA, hstepsA, -, hundoA, hlostA⟩ := ObjectDatabase.session_steps hen hA
  have henA : dbA.undoDb.disabled = false := by rw [hundoA]
  obtain ⟨esB, hstepsB, hrunB, hundoB, hlostB⟩ := ObjectDatabase.session_steps (Or.inl henA) hB
  have hrecA := hstepsA.records hwf hlostA
  have hrecB := hstepsB.records hrecA.wf hlostB
  have hlost : ∀ a, .erased a ∈ esA ++ esB ↔
      .removeById a ∈ opsA ++ opsB ∧ sch.isExternalDb a.index = true := by
    intro a
    rw [List.mem_append, List.mem_append, hlostA a, hlostB a, or_and_right]
  have hrec := (hstepsA.append hstepsB).records hwf hlost
  rw [List.foldl_append] at hrec
  have hcomp := (Composes.start hrecA.disjoint).steps (Records.start hrecA.wf) hrecA hstepsB
  have hinto := mergeInto_composes ord hrecA.disjoint hrecB.disjoint fun a h => by
    rw [hcomp.change a] at h
    cases h
  have hstackA : dbA.undoDb.stack = esA.foldl UndoState.apply .empty ::
      db.undoDb.stack.take db.undoDb.maxSize := by rw [hundoA]
  have hstackB : dbB.undoDb.stack = esB.foldl UndoState.apply .empty ::
      esA.foldl UndoState.apply .empty ::
      (db.undoDb.stack.take db.undoDb.maxSize).take (db.undoDb.maxSize - 1) := by
    have hmaxA : dbA.undoDb.maxSize = db.undoDb.maxSize - 1 + 1 := by
      rw [hundoA]
      exact (Nat.sub_add_cancel hmax).symm
    rw [hundoB, hstackA, hmaxA, List.take_succ_cons]
  have hactiveA : dbA.undoDb.activeSessions = db.undoDb.activeSessions + 1 := by rw [hundoA]
  have hactiveB : dbB.undoDb.activeSessions = db.undoDb.activeSessions + 2 := by
    rw [hundoB, hactiveA]
  have henB : dbB.undoDb.disabled = false := by rw [hundoB]
  refine ⟨⟨_, _, _, hstackB, hcomp.not_applicable hrecA.disjoint hrecB.disjoint⟩, ?_⟩
  have hsingle : (db.startUndoSession force).run sch (opsA ++ opsB) =
      some { store := dbB.store
             undoDb :=
               { dbA.undoDb with
                 stack := esB.foldl UndoState.apply (esA.foldl UndoState.apply .empty) ::
                   db.undoDb.stack.take db.undoDb.maxSize } } := by
    rw [ObjectDatabase.run_append, hA]
    exact hrunB dbA _ _ rfl henA hstackA
  have hmerge : dbB.merge ord =
      some { store := dbB.store
             undoDb :=
               { dbB.undoDb with
                 stack := esB.foldl UndoState.apply (esA.foldl UndoState.apply .empty) ::
                   (db.undoDb.stack.take db.undoDb.maxSize).take (db.undoDb.maxSize - 1)
                 activeSessions := db.undoDb.activeSessions + 1 } } := by
    rw [ObjectDatabase.merge, if_neg (by omega), hstackB, hactiveB]
    simp only [hinto.unique hcomp, Nat.succ_sub_one]
  have hiff := hrec.restore_iff
  rw [lost_eq_empty] at hiff
  refine ⟨_, _, hsingle, hmerge, rfl, ?_, rfl, ?_, fun hact => ?_⟩
  · exact hactiveA.symm
  · rw [← hiff]
    exact forall_congr' fun ord' => restoredTo_undo henB (Nat.succ_ne_zero _) rfl
  · let merged : ObjectDatabase V :=
      { store := dbB.store
        undoDb :=
          { dbB.undoDb with
            stack := esB.foldl UndoState.apply (esA.foldl UndoState.apply .empty) ::
              (db.undoDb.stack.take db.undoDb.maxSize).take (db.undoDb.maxSize - 1)
            activeSessions := db.undoDb.activeSessions + 1 } }
    have hone : merged.undoDb.activeSessions = 1 := congrArg (· + 1) hact
    obtain ⟨committed, hcommit, hpop⟩ := restoredTo_popCommit sch db.store hone rfl
    refine ⟨committed, hcommit, ?_⟩
    rw [← hiff]
    exact forall_congr' hpop

theorem merge_restores_new_key :
    ∃ dbA dbB, (oneNumber.startUndoSession false).run uniqueNumbers
        [.modify (accountId 0) fun _ => 11] = some dbA ∧
      (dbA.startUndoSession false).run uniqueNumbers [.create ⟨1, 2⟩ fun _ => 12] = some dbB ∧
      ∃ merged, dbB.merge .byId = some merged ∧
        ∀ ord, RestoredTo (merged.undo uniqueNumbers ord) oneNumber.store := by
  have hA : ((oneNumber.startUndoSession false).run uniqueNumbers
      [.modify (accountId 0) fun _ => 11]).isSome := by decide
  have hB : (((((oneNumber.startUndoSession false).run uniqueNumbers
      [.modify (accountId 0) fun _ => 11]).get hA).startUndoSession false).run uniqueNumbers
      [.create ⟨1, 2⟩ fun _ => 12]).isSome := by decide +kernel +revert
  refine ⟨_, _, (Option.some_get hA).symm, (Option.some_get hB).symm, ?_⟩
  obtain ⟨-, single, merged, -, hmerge, -, -, -, hundo, -⟩ :=
    merge_is_single_session oneNumber_wellFormed (Or.inl rfl) (by decide)
      (Option.some_get hA).symm (Option.some_get hB).symm .byId
  refine ⟨merged, hmerge, hundo.mpr ⟨fun a v hv _ => ?_, by simp⟩⟩
  obtain rfl := (Finmap.mem_singleton _ _ _).mp (mem_of_lookup hv)
  obtain rfl : 10 = v := Option.some.inj hv
  clear hmerge hundo hv
  decide +kernel +revert

/-- The number that the parent session frees is taken in the child session: the merged session
cannot be taken back, for the reason for which a single session cannot. -/
theorem merge_erases_object :
    ∃ dbA dbB merged, (oneNumber.startUndoSession false).run uniqueNumbers
        [.modify (accountId 0) fun _ => 11] = some dbA ∧
      (dbA.startUndoSession false).run uniqueNumbers [.create ⟨1, 2⟩ fun _ => 10] = some dbB ∧
      dbB.merge .byId = some merged ∧
      ((merged.undo uniqueNumbers .byId).map fun r => (r.1.store.objects, r.2)) =
        some (∅, [accountId 0]) ∧
      ¬RestoredTo (merged.undo uniqueNumbers .byId) oneNumber.store := by
  have hA : ((oneNumber.startUndoSession false).run uniqueNumbers
      [.modify (accountId 0) fun _ => 11]).isSome := by decide
  have hB : (((((oneNumber.startUndoSession false).run uniqueNumbers
      [.modify (accountId 0) fun _ => 11]).get hA).startUndoSession false).run uniqueNumbers
      [.create ⟨1, 2⟩ fun _ => 10]).isSome := by decide +kernel +revert
  have hM : (((((((oneNumber.startUndoSession false).run uniqueNumbers
      [.modify (accountId 0) fun _ => 11]).get hA).startUndoSession false).run uniqueNumbers
      [.create ⟨1, 2⟩ fun _ => 10]).get hB).merge .byId).isSome := by decide +kernel +revert
  have hundo : (((((((((oneNumber.startUndoSession false).run uniqueNumbers
      [.modify (accountId 0) fun _ => 11]).get hA).startUndoSession false).run uniqueNumbers
      [.create ⟨1, 2⟩ fun _ => 10]).get hB).merge .byId).get hM).undo uniqueNumbers .byId).map
      (fun r => (r.1.store.objects, r.2)) = some (∅, [accountId 0]) := by decide +kernel +revert
  refine ⟨_, _, _, (Option.some_get hA).symm, (Option.some_get hB).symm,
    (Option.some_get hM).symm, hundo, ?_⟩
  rintro ⟨d, hd, -⟩
  rw [hd] at hundo
  simp at hundo

end Nestchain.Db
