import Mathlib.Data.List.Pairwise
import Mathlib.Algebra.Order.Ring.Int

/-! B-tree files: records in the order that a comparison function gives their keys.  The laws need
the comparison to be an order only among the keys in use. -/

namespace Nestchain.Lib.Btree

variable {κ β : Type} (cmp : κ → κ → Int)

/-- The record with a key. -/
def get (k : κ) (file : List (κ × β)) : Option β :=
  (file.find? fun e => cmp k e.1 = 0).map Prod.snd

/-- Store a record in its place, over the one with the same key. -/
def put (k : κ) (v : β) : List (κ × β) → List (κ × β)
  | [] => [(k, v)]
  | e :: file =>
    if cmp k e.1 < 0 then (k, v) :: e :: file
    else if cmp k e.1 = 0 then (e.1, v) :: file
    else e :: put k v file

/-- Delete the record with a key. -/
def del (k : κ) (file : List (κ × β)) : List (κ × β) :=
  file.filter fun e => cmp k e.1 ≠ 0

/-- The records that a cursor goes through from the first key that is not less than `k`. -/
def setRange (k : κ) (file : List (κ × β)) : List (κ × β) :=
  file.dropWhile fun e => cmp e.1 k < 0

/-- Among the keys in `S` the comparison is that of their ranks. -/
structure Ranks (cmp : κ → κ → Int) (S : κ → Prop) (rank : κ → Int) : Prop where
  lt : ∀ {a b}, S a → S b → (cmp a b < 0 ↔ rank a < rank b)
  eq : ∀ {a b}, S a → S b → (cmp a b = 0 ↔ a = b)
  injective : ∀ {a b}, S a → S b → rank a = rank b → a = b

/-- The keys are in use and increase. -/
structure Sorted (S : κ → Prop) (rank : κ → Int) (file : List (κ × β)) : Prop where
  keys : ∀ e ∈ file, S e.1
  increasing : file.Pairwise fun a b => rank a.1 < rank b.1

variable {cmp} {S : κ → Prop} {rank : κ → Int} {file : List (κ × β)} {k : κ} {v : β}

theorem Sorted.nil : Sorted S rank ([] : List (κ × β)) :=
  ⟨fun _ h => (List.not_mem_nil h).elim, List.Pairwise.nil⟩

theorem Sorted.tail {e : κ × β} (h : Sorted S rank (e :: file)) : Sorted S rank file :=
  ⟨fun a ha => h.keys a (List.mem_cons_of_mem e ha), (List.pairwise_cons.mp h.increasing).2⟩

/-- There is one record for a key. -/
theorem Sorted.unique (h : Sorted S rank file) {w : β} (hv : (k, v) ∈ file) (hw : (k, w) ∈ file) :
    v = w := by
  induction file with
  | nil => exact (List.not_mem_nil hv).elim
  | cons e file ih =>
    have hhead := (List.pairwise_cons.mp h.increasing).1
    rcases List.mem_cons.mp hv with rfl | hv'
    · rcases List.mem_cons.mp hw with heq | hw'
      · exact (Prod.mk.inj heq).2.symm
      · exact absurd (hhead _ hw') (Int.lt_irrefl _)
    · rcases List.mem_cons.mp hw with rfl | hw'
      · exact absurd (hhead _ hv') (Int.lt_irrefl _)
      · exact ih h.tail hv' hw'

theorem get_eq_some (hr : Ranks cmp S rank) (h : Sorted S rank file) (hk : S k) :
    get cmp k file = some v ↔ (k, v) ∈ file := by
  unfold get
  rw [Option.map_eq_some_iff]
  constructor
  · rintro ⟨⟨k', v'⟩, hfind, rfl⟩
    have hmem := List.mem_of_find?_eq_some hfind
    have heq := List.find?_some hfind
    simp only [decide_eq_true_eq] at heq
    obtain rfl := (hr.eq hk (h.keys _ hmem)).mp heq
    exact hmem
  · intro hmem
    have hsome : (file.find? fun e => decide (cmp k e.1 = 0)).isSome :=
      List.find?_isSome.mpr ⟨(k, v), hmem, decide_eq_true ((hr.eq hk hk).mpr rfl)⟩
    obtain ⟨⟨k', v'⟩, hfind⟩ := Option.isSome_iff_exists.mp hsome
    have hmem' := List.mem_of_find?_eq_some hfind
    have heq := List.find?_some hfind
    simp only [decide_eq_true_eq] at heq
    obtain rfl := (hr.eq hk (h.keys _ hmem')).mp heq
    exact ⟨(k, v'), hfind, h.unique hmem' hmem⟩

theorem mem_put (hr : Ranks cmp S rank) (h : Sorted S rank file) (hk : S k) {e : κ × β} :
    e ∈ put cmp k v file ↔ e = (k, v) ∨ (e ∈ file ∧ e.1 ≠ k) := by
  induction file with
  | nil => simp [put]
  | cons a file ih =>
    have ha := h.keys a List.mem_cons_self
    have hlater := (List.pairwise_cons.mp h.increasing).1
    unfold put
    split
    · rename_i hlt
      have hrank := (hr.lt hk ha).mp hlt
      -- the key is before all others
      have hne : ∀ b ∈ a :: file, b.1 ≠ k := by
        intro b hb hbk
        rcases List.mem_cons.mp hb with rfl | hb
        · rw [hbk] at hrank
          exact Int.lt_irrefl _ hrank
        · have := hlater b hb
          rw [hbk] at this
          omega
      rw [List.mem_cons]
      constructor
      · rintro (rfl | he)
        · exact Or.inl rfl
        · exact Or.inr ⟨he, hne e he⟩
      · rintro (rfl | ⟨he, -⟩)
        · exact Or.inl rfl
        · exact Or.inr he
    · split
      · rename_i heq
        obtain rfl := (hr.eq hk ha).mp heq
        have hne : ∀ b ∈ file, b.1 ≠ a.1 := by
          intro b hb hba
          have := hlater b hb
          rw [hba] at this
          exact Int.lt_irrefl _ this
        rw [List.mem_cons, List.mem_cons]
        constructor
        · rintro (rfl | he)
          · exact Or.inl rfl
          · exact Or.inr ⟨Or.inr he, hne e he⟩
        · rintro (rfl | ⟨rfl | he, hea⟩)
          · exact Or.inl rfl
          · exact absurd rfl hea
          · exact Or.inr he
      · rename_i hnlt hneq
        have hak : a.1 ≠ k := fun heq => hneq ((hr.eq hk ha).mpr heq.symm)
        rw [List.mem_cons, List.mem_cons, ih h.tail]
        constructor
        · rintro (rfl | rfl | ⟨he, hne⟩)
          · exact Or.inr ⟨Or.inl rfl, hak⟩
          · exact Or.inl rfl
          · exact Or.inr ⟨Or.inr he, hne⟩
        · rintro (rfl | ⟨rfl | he, hne⟩)
          · exact Or.inr (Or.inl rfl)
          · exact Or.inl rfl
          · exact Or.inr (Or.inr ⟨he, hne⟩)

theorem Sorted.put (hr : Ranks cmp S rank) (h : Sorted S rank file) (hk : S k) (v : β) :
    Sorted S rank (put cmp k v file) := by
  refine ⟨fun e he => ?_, ?_⟩
  · rcases (mem_put hr h hk).mp he with rfl | ⟨he, -⟩
    · exact hk
    · exact h.keys e he
  · induction file with
    | nil => exact List.pairwise_singleton _ _
    | cons a file ih =>
      have ha := h.keys a List.mem_cons_self
      obtain ⟨hlater, hincreasing⟩ := List.pairwise_cons.mp h.increasing
      unfold Btree.put
      split
      · rename_i hlt
        have hrank := (hr.lt hk ha).mp hlt
        refine List.pairwise_cons.mpr ⟨fun b hb => ?_, h.increasing⟩
        show rank k < rank b.1
        rcases List.mem_cons.mp hb with rfl | hb
        · exact hrank
        · have := hlater b hb
          omega
      · split
        · exact List.pairwise_cons.mpr ⟨hlater, hincreasing⟩
        · rename_i hnlt hneq
          refine List.pairwise_cons.mpr ⟨fun b hb => ?_, ih h.tail⟩
          rcases (mem_put hr h.tail hk).mp hb with rfl | ⟨hb, -⟩
          · show rank a.1 < rank k
            have hge : ¬rank k < rank a.1 := fun hlt => hnlt ((hr.lt hk ha).mpr hlt)
            have hne : rank k ≠ rank a.1 := fun heq =>
              hneq ((hr.eq hk ha).mpr (hr.injective hk ha heq))
            omega
          · exact hlater b hb

theorem mem_del (hr : Ranks cmp S rank) (h : Sorted S rank file) (hk : S k) {e : κ × β} :
    e ∈ del cmp k file ↔ e ∈ file ∧ e.1 ≠ k := by
  unfold del
  rw [List.mem_filter]
  constructor
  · rintro ⟨he, hne⟩
    exact ⟨he, fun heq => of_decide_eq_true hne ((hr.eq hk (h.keys e he)).mpr heq.symm)⟩
  · rintro ⟨he, hne⟩
    exact ⟨he, decide_eq_true fun heq => hne ((hr.eq hk (h.keys e he)).mp heq).symm⟩

theorem Sorted.del (h : Sorted S rank file) : Sorted S rank (del cmp k file) :=
  ⟨fun e he => h.keys e (List.mem_filter.mp he).1, h.increasing.filter _⟩

/-- A cursor goes through the keys from `k` on, in their order. -/
theorem setRange_eq (hr : Ranks cmp S rank) (h : Sorted S rank file) (hk : S k) :
    setRange cmp k file = file.filter fun e => rank k ≤ rank e.1 := by
  induction file with
  | nil => rfl
  | cons a file ih =>
    have ha := h.keys a List.mem_cons_self
    have hlater := (List.pairwise_cons.mp h.increasing).1
    unfold setRange
    by_cases hlt : cmp a.1 k < 0
    · have hrank := (hr.lt ha hk).mp hlt
      rw [List.dropWhile_cons_of_pos (by simpa using hlt),
        List.filter_cons_of_neg (by simpa using hrank)]
      exact ih h.tail
    · have hrank : rank k ≤ rank a.1 := by
        have hnot : ¬rank a.1 < rank k := fun hless => hlt ((hr.lt ha hk).mpr hless)
        omega
      rw [List.dropWhile_cons_of_neg (by simpa using hlt)]
      refine (List.filter_eq_self.mpr fun b hb => decide_eq_true ?_).symm
      rcases List.mem_cons.mp hb with rfl | hb
      · exact hrank
      · have := hlater b hb
        omega

end Nestchain.Lib.Btree
