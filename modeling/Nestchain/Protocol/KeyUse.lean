import Nestchain.Protocol.Authority

/-! The keys that a verification uses.  A check looks up the keys of the authorities it comes to,
and marks those that signed; what it finds satisfied is satisfied by the keys it has marked.  So a
key that no authority within the depth names stays unmarked, and a key that is needed does not. -/

namespace Nestchain.Protocol

/-! ### More keys and approvals -/

theorem initiallyApproved_mono {active active' owner owner' : Finset AccountId}
    (hactive : active ⊆ active') (howner : owner ⊆ owner') :
    initiallyApproved active owner ⊆ initiallyApproved active' owner' :=
  Finset.insert_subset_insert _ (Finset.union_subset_union hactive howner)

theorem Satisfied.mono {ops : List RequiredAuthorities} {sigs sigs' : Finset PublicKey}
    {getActive getOwner : AccountId → Option Authority}
      {active active' owner owner' : Finset AccountId}
    {n : Nat} (hsigs : sigs ⊆ sigs') (hactive : active ⊆ active') (howner : owner ⊆ owner')
    (h : Satisfied ops sigs getActive getOwner active owner n) :
    Satisfied ops sigs' getActive getOwner active' owner' n := by
  have happroved := initiallyApproved_mono hactive howner
  have hpointer : ∀ {pointer : Option Authority},
      (∃ auth, pointer = some auth ∧ auth.satisfied getActive sigs
        (initiallyApproved active owner) n = true) →
      ∃ auth, pointer = some auth ∧
        auth.satisfied getActive sigs' (initiallyApproved active' owner') n = true :=
    fun ⟨auth, ha, hsat⟩ => ⟨auth, ha, Authority.satisfied_mono_sets hsigs happroved hsat⟩
  refine ⟨fun auth ha => ?_, fun id hid => ?_, fun id hid => ?_⟩
  · exact Authority.satisfied_mono_sets hsigs happroved (h.other auth ha)
  · exact (h.active id hid).imp (fun h => happroved h) fun h => h.imp hpointer hpointer
  · exact (h.owner id hid).imp (fun h => howner h) hpointer

/-! ### Marks -/

/-- The keys of an authority and of those that it stands on, down to a depth. -/
def namedKeys (getActive : AccountId → Option Authority) : Nat → Authority → List PublicKey
  | 0, auth => auth.keyAuths.map Prod.fst
  | n + 1, auth => auth.keyAuths.map Prod.fst ++ auth.accountAuths.flatMap fun a =>
      ((getActive a.1).map (namedKeys getActive n)).getD []

section

variable (getActive : AccountId → Option Authority) (approved : Finset AccountId)

/-- The accounts in the memory count by the keys that are marked. -/
def Grounded (s : SignState) : Prop :=
  ∀ id ∈ s.approvedBy, ∃ n, counts getActive s.used approved n id = true

/-- From `s` to `s'` keys were marked that `named` holds of, and the memory still stands on marked
keys. -/
structure Marking (named : PublicKey → Prop) (s s' : SignState) : Prop where
  grows : s.used ⊆ s'.used
  named : ∀ k ∈ s'.used, k ∈ s.used ∨ named k
  grounded : Grounded getActive approved s → Grounded getActive approved s'

/-- The result of a check from `s`: what it finds stands on marked keys. -/
structure Marks (named : PublicKey → Prop) (atSome : Finset PublicKey → Nat → Prop) (s : SignState)
    (r : Bool × SignState) : Prop extends Marking getActive approved named s r.2 where
  sound : Grounded getActive approved s → r.1 = true → ∃ n, atSome r.2.used n

end

section

variable {getActive : AccountId → Option Authority} {approved : Finset AccountId}
  {named : PublicKey → Prop}

theorem Grounded.grow {s : SignState} {used : Finset PublicKey} (h : Grounded getActive approved s)
    (hused : s.used ⊆ used) : Grounded getActive approved { s with used := used } := by
  intro id hid
  obtain ⟨n, hn⟩ := h id hid
  exact ⟨n, counts_mono_sets hused (Finset.Subset.refl _) n id hn⟩

theorem Marking.refl (named : PublicKey → Prop) (s : SignState) :
    Marking getActive approved named s s :=
  ⟨Finset.Subset.refl _, fun _ hk => Or.inl hk, fun h => h⟩

theorem Marking.trans {s s₁ s₂ : SignState} (h : Marking getActive approved named s s₁)
    (h' : Marking getActive approved named s₁ s₂) : Marking getActive approved named s s₂ := by
  refine ⟨h.grows.trans h'.grows, fun k hk => ?_, fun hs => h'.grounded (h.grounded hs)⟩
  rcases h'.named k hk with hk | hk
  · exact h.named k hk
  · exact Or.inr hk

theorem Marking.mono {named' : PublicKey → Prop} {s s' : SignState}
    (hnamed : ∀ k, named k → named' k)
    (h : Marking getActive approved named s s') : Marking getActive approved named' s s' :=
  ⟨h.grows, fun k hk => (h.named k hk).imp_right (hnamed k), h.grounded⟩

theorem Marking.remember {s s' : SignState} {id : AccountId}
    (h : Marking getActive approved named s s')
    (hid : Grounded getActive approved s → ∃ n, counts getActive s'.used approved n id = true) :
    Marking getActive approved named s { s' with approvedBy := insert id s'.approvedBy } := by
  refine ⟨h.grows, h.named, fun hs j hj => ?_⟩
  rcases Finset.mem_insert.mp hj with rfl | hj
  · exact hid hs
  · exact h.grounded hs j hj

theorem Marks.mono {named' : PublicKey → Prop} {atSome : Finset PublicKey → Nat → Prop}
    {s : SignState}
    {r : Bool × SignState} (h : Marks getActive approved named atSome s r)
    (hnamed : ∀ k, named k → named' k) : Marks getActive approved named' atSome s r :=
  ⟨h.toMarking.mono hnamed, h.sound⟩

theorem Marks.failed {atSome : Finset PublicKey → Nat → Prop} (s : SignState) :
    Marks getActive approved named atSome s (false, s) :=
  ⟨.refl named s, fun _ h => absurd h Bool.false_ne_true⟩

theorem keyLoop_marks (sigs : Finset PublicKey) (threshold : Nat) (keys : List (PublicKey × Nat))
    (total : Nat) (s : SignState) :
    s.used ⊆ (keyLoop sigs threshold keys total s).2.2.used ∧
    (∀ k ∈ (keyLoop sigs threshold keys total s).2.2.used, k ∈ s.used ∨
      (k ∈ sigs ∧ k ∈ keys.map Prod.fst)) ∧
    ((keyLoop sigs threshold keys total s).1 = true → threshold ≤ total +
      weightOf (fun k => decide (k ∈ (keyLoop sigs threshold keys total s).2.2.used)) keys) ∧
    ((keyLoop sigs threshold keys total s).1 = false →
      (keyLoop sigs threshold keys total s).2.1 ≤ total +
      weightOf (fun k => decide (k ∈ (keyLoop sigs threshold keys total s).2.2.used)) keys) := by
  induction keys generalizing total s with
  | nil => exact ⟨Finset.Subset.refl _, fun _ hk => Or.inl hk, fun h => (by cases h),
    fun _ => le_refl _⟩
  | cons r keys ih =>
    obtain ⟨k, w⟩ := r
    by_cases hk : k ∈ sigs
    · by_cases hdone : threshold ≤ total + w
      · simp only [keyLoop, if_pos hk, if_pos hdone]
        refine ⟨Finset.subset_insert _ _, fun j hj => ?_, fun _ => ?_, fun h => (by cases h)⟩
        · rcases Finset.mem_insert.mp hj with rfl | hj
          · exact Or.inr ⟨hk, List.mem_cons_self⟩
          · exact Or.inl hj
        · rw [weightOf_cons, if_pos (decide_eq_true (Finset.mem_insert_self _ _))]
          omega
      · simp only [keyLoop, if_pos hk, if_neg hdone]
        obtain ⟨hgrows, hnamed, hearly, hlate⟩ := ih (total + w) { s with used := insert k s.used }
        have hmarked := hgrows (Finset.mem_insert_self k s.used)
        refine ⟨(Finset.subset_insert _ _).trans hgrows, fun j hj => ?_, fun h => ?_, fun h => ?_⟩
        · rcases hnamed j hj with hj | hj
          · rcases Finset.mem_insert.mp hj with rfl | hj
            · exact Or.inr ⟨hk, List.mem_cons_self⟩
            · exact Or.inl hj
          · exact Or.inr (hj.imp_right (List.mem_cons_of_mem _))
        · rw [weightOf_cons, if_pos (decide_eq_true hmarked), ← Nat.add_assoc]
          exact hearly h
        · rw [weightOf_cons, if_pos (decide_eq_true hmarked), ← Nat.add_assoc]
          exact hlate h
    · simp only [keyLoop, if_neg hk]
      obtain ⟨hgrows, hnamed, hearly, hlate⟩ := ih total s
      refine ⟨hgrows, fun j hj => (hnamed j hj).imp_right fun h =>
        h.imp_right (List.mem_cons_of_mem _),
        fun h => ?_, fun h => ?_⟩
      · have := hearly h
        rw [weightOf_cons]
        omega
      · have := hlate h
        rw [weightOf_cons]
        omega

theorem accountLoop_marks {check : AccountId → SignState → Bool × SignState} (threshold : Nat)
    (accounts : List (AccountId × Nat))
    (hcheck : ∀ a ∈ accounts, ∀ s, Marks getActive approved named
      (fun used n => counts getActive used approved n a.1 = true) s (check a.1 s))
    (total : Nat) (s : SignState) :
    Marks getActive approved named
      (fun used n => threshold ≤ total + weightOf (counts getActive used approved n) accounts) s
      (accountLoop check threshold accounts total s) := by
  induction accounts generalizing total s with
  | nil => exact ⟨.refl named s, fun _ h => ⟨0, of_decide_eq_true h⟩⟩
  | cons a accounts ih =>
    obtain ⟨id, w⟩ := a
    have hrest := fun total s => ih (fun a ha => hcheck a (List.mem_cons_of_mem _ ha)) total s
    -- an account that counts by marked keys adds its weight to the total
    have hadd : ∀ {s' : SignState}, Marking getActive approved named s s' →
        (Grounded getActive approved s → ∃ n, counts getActive s'.used approved n id = true) →
        Marks getActive approved named
          (fun used n => threshold ≤ total + weightOf (counts getActive used approved n)
            ((id, w) :: accounts))
          s (if threshold ≤ total + w then (true, s')
            else accountLoop check threshold accounts (total + w) s') := by
      intro s' hmarking hid
      split
      · rename_i hdone
        refine ⟨hmarking, fun hs _ => ?_⟩
        obtain ⟨n, hn⟩ := hid hs
        refine ⟨n, ?_⟩
        rw [weightOf_cons, if_pos hn]
        omega
      · obtain ⟨hmarking', hsound⟩ := hrest (total + w) s'
        refine ⟨hmarking.trans hmarking', fun hs htrue => ?_⟩
        obtain ⟨n, hn⟩ := hid hs
        obtain ⟨m, hm⟩ := hsound (hmarking.grounded hs) htrue
        have hcounts := counts_mono (le_max_left n m) id
          (counts_mono_sets hmarking'.grows (Finset.Subset.refl _) n id hn)
        refine ⟨max n m, ?_⟩
        rw [weightOf_cons, if_pos hcounts, ← Nat.add_assoc]
        exact hm.trans (Nat.add_le_add_left
          (weightOf_mono fun a _ => counts_mono (le_max_right n m) a) _)
    by_cases hmem : id ∈ s.approvedBy
    · simp only [accountLoop, if_pos hmem]
      exact hadd (.refl named s) fun hs => hs id hmem
    · obtain ⟨hmarking, hsound⟩ := hcheck (id, w) List.mem_cons_self s
      simp only [accountLoop, if_neg hmem]
      by_cases htrue : (check id s).1 = true
      · rw [if_pos htrue]
        exact hadd (hmarking.remember fun hs => hsound hs htrue) fun hs => hsound hs htrue
      · rw [if_neg htrue]
        obtain ⟨hmarking', hsound'⟩ := hrest total (check id s).2
        refine ⟨hmarking.trans hmarking', fun hs h => ?_⟩
        obtain ⟨n, hn⟩ := hsound' (hmarking.grounded hs) h
        refine ⟨n, hn.trans (Nat.add_le_add_left ?_ _)⟩
        rw [weightOf_cons]
        exact Nat.le_add_left _ _

theorem checkMembers_marks (sigs : Finset PublicKey)
    {check : AccountId → SignState → Bool × SignState}
    (auth : Authority) (hkeys : ∀ k ∈ sigs, k ∈ auth.keyAuths.map Prod.fst → named k)
    (hcheck : ∀ a ∈ auth.accountAuths, ∀ s, Marks getActive approved named
      (fun used n => counts getActive used approved n a.1 = true) s (check a.1 s)) (s : SignState) :
    Marks getActive approved named (fun used n => auth.satisfied getActive used approved n = true) s
      (checkMembers sigs check auth s) := by
  obtain ⟨hgrows, hnamed, hearly, hlate⟩ := keyLoop_marks sigs auth.weightThreshold auth.keyAuths 0 s
  have happroved := (keyLoop_spec sigs auth.weightThreshold auth.keyAuths 0 s).1
  have hmarking : Marking getActive approved named s
      (keyLoop sigs auth.weightThreshold auth.keyAuths 0 s).2.2 := by
    refine ⟨hgrows, fun k hk => (hnamed k hk).imp_right fun h => hkeys k h.1 h.2,
      fun hs id hid => ?_⟩
    rw [happroved] at hid
    exact hs.grow hgrows id hid
  simp only [Authority.satisfied, Authority.reaches, decide_eq_true_eq]
  cases hdone : (keyLoop sigs auth.weightThreshold auth.keyAuths 0 s).1 with
  | true =>
    simp only [checkMembers, hdone, if_true]
    refine ⟨hmarking, fun _ _ => ⟨0, le_trans (hearly hdone) ?_⟩⟩
    rw [Nat.zero_add]
    exact Nat.le_add_right _ _
  | false =>
    simp only [checkMembers, hdone, Bool.false_eq_true, if_false]
    obtain ⟨hmarking', hsound⟩ := accountLoop_marks auth.weightThreshold auth.accountAuths hcheck
      (keyLoop sigs auth.weightThreshold auth.keyAuths 0 s).2.1
      (keyLoop sigs auth.weightThreshold auth.keyAuths 0 s).2.2
    refine ⟨hmarking.trans hmarking', fun hs htrue => ?_⟩
    obtain ⟨n, hn⟩ := hsound (hmarking.grounded hs) htrue
    refine ⟨n, hn.trans (Nat.add_le_add_right ?_ _)⟩
    refine (hlate hdone).trans ?_
    rw [Nat.zero_add]
    exact weightOf_mono fun k _ hk => decide_eq_true (hmarking'.grows (of_decide_eq_true hk))

variable (getActive approved) in
theorem checkAuthority_marks (sigs : Finset PublicKey) (n : Nat) :
    ∀ (auth : Authority) (s : SignState),
    Marks getActive approved (fun k => k ∈ sigs ∧ k ∈ namedKeys getActive n auth)
      (fun used m => auth.satisfied getActive used approved m = true) s
      (checkAuthority getActive sigs n auth s) := by
  induction n with
  | zero =>
    intro auth s
    exact checkMembers_marks sigs auth (fun _ hsig hk => ⟨hsig, hk⟩) (fun _ _ s => .failed s) s
  | succ n ih =>
    intro auth s
    refine checkMembers_marks sigs auth (fun _ hsig hk => ⟨hsig, List.mem_append_left _ hk⟩)
      (fun a ha s => ?_) s
    cases hactive : getActive a.1 with
    | none => exact .failed s
    | some auth' =>
      obtain ⟨hmarking, hsound⟩ := ih auth' s
      refine ⟨hmarking.mono fun k hk => ⟨hk.1, List.mem_append_right _
        (List.mem_flatMap.mpr ⟨a, ha, ?_⟩)⟩,
        fun hs htrue => ?_⟩
      · rw [hactive]
        exact hk.2
      · obtain ⟨m, hm⟩ := hsound hs htrue
        refine ⟨m + 1, ?_⟩
        rw [counts, hactive, Option.any_some, Bool.or_eq_true]
        exact Or.inr hm

/-- The keys that the check of a pointer may mark. -/
def pointerKeys (getActive : AccountId → Option Authority) (n : Nat) (pointer : Option Authority) :
    List PublicKey :=
  (pointer.map (namedKeys getActive n)).getD []

variable (getActive approved) in
theorem checkPointer_marks (sigs : Finset PublicKey) (n : Nat) (pointer : Option Authority)
    (s : SignState) :
    Marks getActive approved (fun k => k ∈ sigs ∧ k ∈ pointerKeys getActive n pointer)
      (fun used m => ∃ auth, pointer = some auth ∧ auth.satisfied getActive used approved m =
        true) s
      (checkPointer getActive sigs n pointer s) := by
  cases pointer with
  | none => exact .failed s
  | some auth =>
    obtain ⟨hmarking, hsound⟩ := checkAuthority_marks getActive approved sigs n auth s
    refine ⟨hmarking, fun hs htrue => ?_⟩
    obtain ⟨m, hm⟩ := hsound hs htrue
    exact ⟨m, auth, rfl, hm⟩

theorem requireAll_marks {α : Type} {check : α → SignState → Bool × SignState}
    {error : α → AuthorityError} {atSome : α → Finset PublicKey → Nat → Prop} (l : List α)
    (hcheck : ∀ a ∈ l, ∀ s, Marks getActive approved named (atSome a) s (check a s))
    (hmono : ∀ a n used used', used ⊆ used' → atSome a used n → atSome a used' n) {s s' : SignState}
    (h : requireAll check error l s = .ok s') :
    Marking getActive approved named s s' ∧
      (Grounded getActive approved s → ∀ a ∈ l, ∃ n, atSome a s'.used n) := by
  induction l generalizing s with
  | nil =>
    obtain rfl := Except.ok.inj h
    exact ⟨.refl named s, fun _ a ha => nomatch ha⟩
  | cons a l ih =>
    obtain ⟨hmarking, hsound⟩ := hcheck a List.mem_cons_self s
    by_cases htrue : (check a s).1 = true
    · rw [requireAll, if_pos htrue] at h
      obtain ⟨hmarking', hall⟩ := ih (fun b hb => hcheck b (List.mem_cons_of_mem _ hb)) h
      refine ⟨hmarking.trans hmarking', fun hs b hb => ?_⟩
      rcases List.mem_cons.mp hb with rfl | hb
      · obtain ⟨n, hn⟩ := hsound hs htrue
        exact ⟨n, hmono b n _ _ hmarking'.grows hn⟩
      · exact hall (hmarking.grounded hs) b hb
    · rw [requireAll, if_neg htrue] at h
      cases h

end

/-! ### The verification -/

section

variable (ops : List RequiredAuthorities) (sigs : Finset PublicKey)
  (getActive getOwner : AccountId → Option Authority) (depth : Nat)
  (activeApprovals ownerApprovals : Finset AccountId)

/-- The check of a required active authority. -/
def checkActive (id : AccountId) (s : SignState) : Bool × SignState :=
  let r := checkAccount getActive sigs depth id s
  if r.1 then r else checkPointer getActive sigs depth (getOwner id) r.2

def checkOwner (id : AccountId) (s : SignState) : Bool × SignState :=
  if id ∈ ownerApprovals then (true, s) else checkPointer getActive sigs depth (getOwner id) s

/-- The checks of a verification, from the first to the last. -/
structure Passes (s₁ s₂ s₃ : SignState) : Prop where
  other : requireAll (checkAuthority getActive sigs depth) .missingOtherAuth
    (ops.flatMap RequiredAuthorities.other) ⟨∅, initiallyApproved activeApprovals ownerApprovals⟩ =
      .ok s₁
  active : requireAll (checkActive sigs getActive getOwner depth) .missingActiveAuth
    (requiredActive ops) s₁ = .ok s₂
  owner : requireAll (checkOwner sigs getActive getOwner depth ownerApprovals) .missingOwnerAuth
    (requiredOwner ops) s₂ = .ok s₃

/-- The keys of the authorities that a verification may come to. -/
def keysNamed : List PublicKey :=
  (ops.flatMap RequiredAuthorities.other).flatMap (namedKeys getActive depth) ++
    (requiredActive ops).flatMap (fun id => pointerKeys getActive depth (getActive id) ++
      pointerKeys getActive depth (getOwner id)) ++
    (requiredOwner ops).flatMap fun id => pointerKeys getActive depth (getOwner id)

end

section

variable {ops : List RequiredAuthorities} {sigs : Finset PublicKey}
  {getActive getOwner : AccountId → Option Authority} {depth : Nat}
  {activeApprovals ownerApprovals : Finset AccountId}

variable (sigs) in
theorem checkActive_marks (approved : Finset AccountId) (id : AccountId) (s : SignState) :
    Marks getActive approved
      (fun k => k ∈ sigs ∧
        k ∈ pointerKeys getActive depth (getActive id) ++ pointerKeys getActive depth (getOwner id))
      (fun used m => id ∈ approved ∨
        (∃ auth, getActive id = some auth ∧ auth.satisfied getActive used approved m = true) ∨
        ∃ auth, getOwner id = some auth ∧ auth.satisfied getActive used approved m = true)
      s (checkActive sigs getActive getOwner depth id s) := by
  by_cases hmem : id ∈ s.approvedBy
  · simp only [checkActive, checkAccount, if_pos hmem, if_true]
    refine ⟨.refl _ s, fun hs _ => ?_⟩
    obtain ⟨m, hm⟩ := hs id hmem
    cases m with
    | zero => exact ⟨0, Or.inl (of_decide_eq_true hm)⟩
    | succ m =>
      rw [counts, Bool.or_eq_true] at hm
      refine ⟨m, hm.imp of_decide_eq_true fun hm => Or.inl ?_⟩
      obtain ⟨auth, hauth, hreaches⟩ := (Option.any_eq_true _ _).mp hm
      exact ⟨auth, hauth, hreaches⟩
  · simp only [checkActive, checkAccount, if_neg hmem]
    obtain ⟨hmarking, hsound⟩ := checkPointer_marks getActive approved sigs depth (getActive id) s
    have hactive := hmarking.mono fun k hk =>
      hk.imp_right (List.mem_append_left (pointerKeys getActive depth (getOwner id)))
    by_cases htrue : (checkPointer getActive sigs depth (getActive id) s).1 = true
    · rw [if_pos htrue]
      refine ⟨hactive, fun hs _ => ?_⟩
      obtain ⟨m, hm⟩ := hsound hs htrue
      exact ⟨m, Or.inr (Or.inl hm)⟩
    · rw [if_neg htrue]
      obtain ⟨hmarking', hsound'⟩ := checkPointer_marks getActive approved sigs depth (getOwner id)
        (checkPointer getActive sigs depth (getActive id) s).2
      refine ⟨hactive.trans (hmarking'.mono fun k hk => hk.imp_right (List.mem_append_right _)),
        fun hs h => ?_⟩
      obtain ⟨m, hm⟩ := hsound' (hmarking.grounded hs) h
      exact ⟨m, Or.inr (Or.inr hm)⟩

variable (sigs ownerApprovals) in
theorem checkOwner_marks (approved : Finset AccountId) (id : AccountId) (s : SignState) :
    Marks getActive approved (fun k => k ∈ sigs ∧ k ∈ pointerKeys getActive depth (getOwner id))
      (fun used m => id ∈ ownerApprovals ∨
        ∃ auth, getOwner id = some auth ∧ auth.satisfied getActive used approved m = true)
      s (checkOwner sigs getActive getOwner depth ownerApprovals id s) := by
  unfold checkOwner
  by_cases hmem : id ∈ ownerApprovals
  · rw [if_pos hmem]
    exact ⟨.refl _ s, fun _ _ => ⟨0, Or.inl hmem⟩⟩
  · rw [if_neg hmem]
    obtain ⟨hmarking, hsound⟩ := checkPointer_marks getActive approved sigs depth (getOwner id) s
    refine ⟨hmarking, fun hs h => ?_⟩
    obtain ⟨m, hm⟩ := hsound hs h
    exact ⟨m, Or.inr hm⟩

theorem verifyAuthority_eq_ok :
    verifyAuthority ops sigs getActive getOwner depth true activeApprovals ownerApprovals = .ok () ↔
      ∃ s₁ s₂ s₃, Passes ops sigs getActive getOwner depth activeApprovals ownerApprovals s₁ s₂ s₃ ∧
        sigs ⊆ s₃.used := by
  have hallowed : ¬(true = false ∧ committeeAccount ∈ requiredActive ops) := fun h => nomatch h.1
  constructor
  · intro h
    simp only [verifyAuthority, if_neg hallowed, bind, Except.bind] at h
    split at h
    · cases h
    · rename_i s₁ h₁
      split at h
      · cases h
      · rename_i s₂ h₂
        split at h
        · cases h
        · rename_i s₃ h₃
          refine ⟨s₁, s₂, s₃, ⟨h₁, h₂, h₃⟩, ?_⟩
          by_contra hunused
          rw [if_neg hunused] at h
          cases h
  · rintro ⟨s₁, s₂, s₃, ⟨h₁, h₂, h₃⟩, hused⟩
    have h₂' : requireAll (fun id s => if (checkAccount getActive sigs depth id s).1 = true
        then checkAccount getActive sigs depth id s
        else checkPointer getActive sigs depth (getOwner id)
          (checkAccount getActive sigs depth id s).2)
        .missingActiveAuth (requiredActive ops) s₁ = .ok s₂ := h₂
    have h₃' : requireAll (fun id s => if id ∈ ownerApprovals then (true, s)
        else checkPointer getActive sigs depth (getOwner id) s)
        .missingOwnerAuth (requiredOwner ops) s₂ = .ok s₃ := h₃
    simp only [verifyAuthority, if_neg hallowed, h₁, h₂', h₃', bind, Except.bind, if_pos hused]
    rfl

theorem Satisfied.passes
    (h : Satisfied ops sigs getActive getOwner activeApprovals ownerApprovals depth) :
    ∃ s₁ s₂ s₃, Passes ops sigs getActive getOwner depth activeApprovals ownerApprovals s₁ s₂ s₃ := by
  rcases checks_cases ops sigs getActive getOwner activeApprovals ownerApprovals depth with
    ⟨s₁, s₂, s₃, h₁, h₂, h₃, -⟩ | ⟨hnot, -⟩
  · exact ⟨s₁, s₂, s₃, h₁, h₂, h₃⟩
  · exact absurd h hnot

theorem Passes.marks {s₁ s₂ s₃ : SignState}
    (h : Passes ops sigs getActive getOwner depth activeApprovals ownerApprovals s₁ s₂ s₃) :
    (∀ k ∈ s₃.used, k ∈ sigs ∧ k ∈ keysNamed ops getActive getOwner depth) ∧
      ∃ n, Satisfied ops s₃.used getActive getOwner activeApprovals ownerApprovals n := by
  let approved := initiallyApproved activeApprovals ownerApprovals
  have hmono : ∀ {auth : Authority} {n : Nat} {used used' : Finset PublicKey}, used ⊆ used' →
      auth.satisfied getActive used (initiallyApproved activeApprovals ownerApprovals) n = true →
      auth.satisfied getActive used' (initiallyApproved activeApprovals ownerApprovals) n = true :=
    fun hsub => Authority.satisfied_mono_sets hsub (Finset.Subset.refl _)
  have hpointer : ∀ {pointer : Option Authority} {n : Nat} {used used' : Finset PublicKey},
      used ⊆ used' → (∃ auth, pointer = some auth ∧ auth.satisfied getActive used
        (initiallyApproved activeApprovals ownerApprovals) n = true) →
      ∃ auth, pointer = some auth ∧ auth.satisfied getActive used'
        (initiallyApproved activeApprovals ownerApprovals) n = true :=
    fun hsub ⟨auth, ha, hsat⟩ => ⟨auth, ha, hmono hsub hsat⟩
  have hstart : Grounded getActive (initiallyApproved activeApprovals ownerApprovals)
      ⟨∅, initiallyApproved activeApprovals ownerApprovals⟩ :=
    fun id hid => ⟨0, decide_eq_true hid⟩
  -- what each check marks is named
  have hother := fun auth (ha : auth ∈ ops.flatMap RequiredAuthorities.other) s =>
    (checkAuthority_marks getActive approved sigs depth auth s).mono fun k hk =>
      hk.imp_right fun hk =>
      (List.mem_append_left _ (List.mem_append_left _ (List.mem_flatMap.mpr ⟨auth, ha, hk⟩)) :
        k ∈ keysNamed ops getActive getOwner depth)
  have hactive := fun id (hid : id ∈ requiredActive ops) s =>
    (checkActive_marks sigs approved id s).mono fun k hk => hk.imp_right fun hk =>
      (List.mem_append_left _ (List.mem_append_right _ (List.mem_flatMap.mpr ⟨id, hid, hk⟩)) :
        k ∈ keysNamed ops getActive getOwner depth)
  have howner := fun id (hid : id ∈ requiredOwner ops) s =>
    (checkOwner_marks sigs ownerApprovals approved id s).mono fun k hk => hk.imp_right fun hk =>
      (List.mem_append_right _ (List.mem_flatMap.mpr ⟨id, hid, hk⟩) :
        k ∈ keysNamed ops getActive getOwner depth)
  obtain ⟨hmarking₁, hall₁⟩ := requireAll_marks _ hother
    (fun _ _ _ _ hsub h => hmono hsub h) h.other
  obtain ⟨hmarking₂, hall₂⟩ := requireAll_marks _ hactive (fun _ _ _ _ hsub h =>
    h.imp_right fun h => h.imp (hpointer hsub) (hpointer hsub)) h.active
  obtain ⟨hmarking₃, hall₃⟩ := requireAll_marks _ howner (fun _ _ _ _ hsub h =>
    h.imp_right (hpointer hsub)) h.owner
  refine ⟨fun k hk => ?_, exists_satisfied (fun auth ha => ?_) (fun id hid => ?_) fun id hid => ?_⟩
  · exact (((hmarking₁.trans hmarking₂).trans hmarking₃).named k hk).resolve_left (by simp)
  · obtain ⟨n, hn⟩ := hall₁ hstart auth ha
    exact ⟨n, hmono (hmarking₂.grows.trans hmarking₃.grows) hn⟩
  · obtain ⟨n, hn⟩ := hall₂ (hmarking₁.grounded hstart) id hid
    exact ⟨n, hn.imp_right fun h => h.imp (hpointer hmarking₃.grows) (hpointer hmarking₃.grows)⟩
  · exact hall₃ (hmarking₂.grounded (hmarking₁.grounded hstart)) id hid

end

end Nestchain.Protocol
