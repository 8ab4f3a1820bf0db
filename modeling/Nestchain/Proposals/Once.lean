import Nestchain.Proposals.Execution
import Mathlib.Logic.Relation

/-! A proposal is executed at most once and fails as a whole, as long as no operation deletes a
proposal, or approves it to be executed again, in the course of its execution.  A proposal that
approves itself runs its operations again down to the nesting limit, and is then removed while the
outer executions still refer to it. -/

namespace Nestchain.Proposals

open Nestchain.Lib Nestchain.Protocol

variable {ω σ : Type} {r : Rules ω σ} {executing : List Nat}

/-! ### What a computation keeps -/

/-- No proposal is listed twice as executed, and one that is listed is gone for good. -/
structure Once (o : Objects ω σ) : Prop where
  nodup : o.executed.Nodup
  gone : ∀ id ∈ o.executed, o.proposals.find id = none
  old : ∀ id ∈ o.executed, id < o.proposals.next

/-- The lists that no session takes back are extended. -/
structure Extends (s t : State ω σ) : Prop where
  appliedOps : s.appliedOps <+: t.appliedOps
  disturbed : s.disturbed <+: t.disturbed

theorem Extends.refl (s : State ω σ) : Extends s s := ⟨List.prefix_rfl, List.prefix_rfl⟩

theorem Extends.trans {s t u : State ω σ} (h : Extends s t) (h' : Extends t u) : Extends s u :=
  ⟨h.appliedOps.trans h'.appliedOps, h.disturbed.trans h'.disturbed⟩

theorem Extends.disturbed_ne {s t : State ω σ} (h : Extends s t) (hs : s.disturbed ≠ []) :
    t.disturbed ≠ [] := fun ht => hs (List.prefix_nil.mp (ht ▸ h.disturbed))

/-- The objects after a computation that returned: the proposals under execution are still there,
and no proposal has newly expired. -/
structure Evolves (executing : List Nat) (s t : Objects ω σ) : Prop where
  time : t.headBlockTime = s.headBlockTime
  witnesses : t.activeWitnesses = s.activeWitnesses
  kept : ∀ id ∈ executing, (s.proposals.find id).isSome = true → (t.proposals.find id).isSome = true
  once : Once s → Once t
  expired : ∀ id p, t.proposals.find id = some p → p.expirationTime ≤ s.headBlockTime →
    ∃ q, s.proposals.find id = some q ∧ q.expirationTime = p.expirationTime

theorem Evolves.trans {s t u : Objects ω σ} (h : Evolves executing s t)
    (h' : Evolves executing t u) :
    Evolves executing s u := by
  refine ⟨h'.time.trans h.time, h'.witnesses.trans h.witnesses,
    fun id hid hs => h'.kept id hid (h.kept id hid hs), fun hs => h'.once (h.once hs), ?_⟩
  intro id p hp hle
  obtain ⟨q, hq, he⟩ := h'.expired id p hp (h.time ▸ hle)
  obtain ⟨q', hq', he'⟩ := h.expired id q hq (he ▸ hle)
  exact ⟨q', hq', he'.trans he⟩

theorem Evolves.weaken {id : Nat} {s t : Objects ω σ} (h : Evolves (id :: executing) s t) :
    Evolves executing s t :=
  ⟨h.time, h.witnesses, fun j hj => h.kept j (List.mem_cons_of_mem id hj), h.once, h.expired⟩

theorem Evolves.rest (executing : List Nat) (s : Objects ω σ) (rest : σ) :
    Evolves executing s { s with rest := rest } :=
  ⟨rfl, rfl, fun _ _ h => h, fun h => ⟨h.nodup, h.gone, h.old⟩, fun _ p hp _ => ⟨p, hp, rfl⟩⟩

theorem Evolves.refl (executing : List Nat) (s : Objects ω σ) : Evolves executing s s :=
  Evolves.rest executing s s.rest

theorem Evolves.set {s : Objects ω σ} {id : Nat} {p q : Proposal ω}
    (hp : s.proposals.find id = some p)
    (he : p.expirationTime = q.expirationTime) :
    Evolves executing s { s with proposals := s.proposals.set id q } := by
  refine ⟨rfl, rfl, fun j _ hs => ?_, fun h => ⟨h.nodup, fun j hj => ?_, h.old⟩, fun j q' hq' _ =>
    ?_⟩
  · by_cases hj : j = id
    · subst hj
      show ((s.proposals.set j q).find j).isSome = true
      rw [Table.find_set_self hp]
      rfl
    · show ((s.proposals.set id q).find j).isSome = true
      rwa [Table.find_set_ne hj]
  · have hne : j ≠ id := by
      rintro rfl
      rw [h.gone j hj] at hp
      cases hp
    show (s.proposals.set id q).find j = none
    rw [Table.find_set_ne hne]
    exact h.gone j hj
  · by_cases hj : j = id
    · subst hj
      obtain rfl : q = q' := Option.some.inj ((Table.find_set_self hp).symm.trans hq')
      exact ⟨p, hp, he⟩
    · exact ⟨q', (Table.find_set_ne hj).symm.trans hq', rfl⟩

theorem Evolves.create {s : Objects ω σ} {p : Proposal ω}
    (hp : s.headBlockTime < p.expirationTime) :
    Evolves executing s { s with proposals := s.proposals.create p } := by
  refine ⟨rfl, rfl, fun j _ hs => ?_, fun h => ⟨h.nodup, fun j hj => ?_, fun j hj => ?_⟩, ?_⟩
  · obtain ⟨q, hq⟩ := Option.isSome_iff_exists.mp hs
    have hne : j ≠ s.proposals.next := ne_of_lt (Table.find_lt hq)
    show ((s.proposals.create p).find j).isSome = true
    rwa [Table.find_create_ne hne]
  · show (s.proposals.create p).find j = none
    rw [Table.find_create_ne (ne_of_lt (h.old j hj))]
    exact h.gone j hj
  · exact (h.old j hj).trans (Nat.lt_succ_self _)
  · intro j q hq hle
    by_cases hj : j = s.proposals.next
    · subst hj
      obtain rfl : p = q := Option.some.inj ((Table.find_create_self s.proposals p).symm.trans hq)
      exact absurd hp (not_lt.mpr hle)
    · exact ⟨q, (Table.find_create_ne hj).symm.trans hq, rfl⟩

theorem Evolves.remove {s : Objects ω σ} {id : Nat} (hid : id ∉ executing) :
    Evolves executing s { s with proposals := s.proposals.remove id } := by
  refine ⟨rfl, rfl, fun j hj hs => ?_, fun h => ⟨h.nodup, fun j hj => ?_, h.old⟩, fun j q hq _ =>
    ?_⟩
  · have hne : j ≠ id := fun he => hid (he ▸ hj)
    show ((s.proposals.remove id).find j).isSome = true
    rwa [Table.find_remove_ne hne]
  · show (s.proposals.remove id).find j = none
    by_cases hne : j = id
    · subst hne
      exact Table.find_remove_self _ _
    · rw [Table.find_remove_ne hne]
      exact h.gone j hj
  · exact ⟨q, (Table.find_remove_iff.mp hq).2, rfl⟩

/-! ### How a computation ends -/

/-- A computation that returned has evolved the objects; one that is undefined has disturbed a
proposal under execution. -/
def Ends (executing : List Nat) (s : State ω σ) : Result (State ω σ) → Prop
  | .ok t => Extends s t ∧ Evolves executing s.objects t.objects
  | .thrown t => Extends s t
  | .undefined t => Extends s t ∧ t.disturbed ≠ []

theorem Ends.after {s t : State ω σ} {x : Result (State ω σ)} (hs : Extends s t)
    (ho : Evolves executing s.objects t.objects) (h : Ends executing t x) : Ends executing s x := by
  cases x with
  | ok u => exact ⟨hs.trans h.1, ho.trans h.2⟩
  | thrown u => exact hs.trans h
  | undefined u => exact ⟨hs.trans h.1, h.2⟩

theorem Ends.andThen {s : State ω σ} {x : Result (State ω σ)} {f : State ω σ → Result (State ω σ)}
    (hx : Ends executing s x) (hf : ∀ t, x = .ok t → Ends executing t (f t)) :
    Ends executing s (x.andThen f) := by
  cases x with
  | ok t => exact Ends.after hx.1 hx.2 (hf t rfl)
  | thrown t => exact hx
  | undefined t => exact hx

theorem Ends.call (executing : List Nat) (s : State ω σ) (f : σ → Bool × σ) :
    Ends executing s (s.call f) := by
  unfold State.call
  split
  · exact ⟨⟨List.prefix_rfl, List.prefix_rfl⟩, Evolves.rest executing s.objects _⟩
  · exact ⟨List.prefix_rfl, List.prefix_rfl⟩

theorem call_ok {s t : State ω σ} {f : σ → Bool × σ} (h : s.call f = .ok t) :
    ∃ rest, t = s.setRest rest := by
  unfold State.call at h
  split at h
  · exact ⟨_, (Result.ok.inj h).symm⟩
  · cases h

theorem Ends.withFee {op : Operation ω} {doApply : State ω σ → Result (State ω σ)} {s : State ω σ}
    (h : ∀ rest, Ends executing (s.setRest rest) (doApply (s.setRest rest))) :
    Ends executing s (withFee r op doApply s) := by
  refine Ends.andThen (Ends.andThen (Ends.call executing s _) fun t ht => ?_)
    fun t _ => Ends.call executing t _
  obtain ⟨rest, rfl⟩ := call_ok ht
  exact h rest

theorem extends_disturb (executing : List Nat) (id : Nat) (s : State ω σ) :
    Extends s (s.disturb executing id) := by
  unfold State.disturb
  split
  · exact ⟨List.prefix_rfl, List.prefix_append _ _⟩
  · exact Extends.refl s

theorem disturb_objects (executing : List Nat) (id : Nat) (s : State ω σ) :
    (s.disturb executing id).objects = s.objects := by
  unfold State.disturb
  split <;> rfl

theorem disturb_ne {id : Nat} (h : id ∈ executing) (s : State ω σ) :
    (s.disturb executing id).disturbed ≠ [] := by
  simp [State.disturb, h]

theorem Ends.removeProposal {s : State ω σ} {id : Nat} (h : id ∈ executing → s.disturbed ≠ []) :
    Ends executing s (s.removeProposal executing id) := by
  unfold State.removeProposal
  split
  · rename_i hid
    exact ⟨⟨List.prefix_rfl, List.prefix_rfl⟩, h hid⟩
  · rename_i hid
    exact ⟨⟨List.prefix_rfl, List.prefix_rfl⟩, Evolves.remove hid⟩

/-! ### Operations -/

/-- An execution of a proposal: it ends as every computation does, it removes the proposal when it
returns, and it leaves the objects and the applied operations as they were when it throws. -/
structure Pushes (executing : List Nat) (id : Nat) (s : State ω σ)
    (x : Result (State ω σ)) : Prop where
  ends : Ends executing s x
  removed : ∀ t, x = .ok t → t.objects.proposals.find id = none
  objects : ∀ t, x = .thrown t → t.objects = s.objects
  appliedOps : ∀ t, x = .thrown t → hardfork483Time < s.objects.headBlockTime →
    t.appliedOps = s.appliedOps

/-- The proposals that `push` is called for exist, and one that is under execution counts as
disturbed. -/
def Pushing (push : List Nat → Nat → Proposal ω → State ω σ → Result (State ω σ)) : Prop :=
  ∀ executing id p s, s.objects.proposals.find id = some p → (id ∈ executing → s.disturbed ≠ []) →
    Pushes executing id s (push executing id p s)

variable {push : List Nat → Nat → Proposal ω → State ω σ → Result (State ω σ)}

theorem applyUpdate_ends (hpush : Pushing push) {op : ProposalUpdate} {p : Proposal ω}
    {s : State ω σ}
    (hp : s.objects.proposals.find op.proposal = some p) :
    Ends executing s (applyUpdate r push executing op p s) := by
  have hset : Evolves executing s.objects (s.setProposal op.proposal (op.approve p)).objects :=
    Evolves.set hp rfl
  have hfound : (s.setProposal op.proposal (op.approve p)).objects.proposals.find op.proposal =
      some (op.approve p) := Table.find_set_self hp
  unfold applyUpdate
  simp only
  split
  · -- the proposal is executed
    generalize hs' : (s.setProposal op.proposal (op.approve p)).disturb executing op.proposal = s'
    have hobjects : s'.objects = (s.setProposal op.proposal (op.approve p)).objects := by
      rw [← hs', disturb_objects]
    have hextends : Extends s s' := by
      rw [← hs']
      have hset' : Extends s (s.setProposal op.proposal (op.approve p)) :=
        ⟨List.prefix_rfl, List.prefix_rfl⟩
      exact hset'.trans (extends_disturb executing op.proposal _)
    have hpushes := hpush executing op.proposal (op.approve p) s' (by rw [hobjects, hfound])
      (fun hid => by rw [← hs']; exact disturb_ne hid _)
    have hends := hpushes.ends
    cases hx : push executing op.proposal (op.approve p) s' with
    | thrown t =>
      rw [hx] at hends
      have hsame := hpushes.objects t hx
      refine ⟨hextends.trans ⟨hends.appliedOps, hends.disturbed⟩, hset.trans ?_⟩
      show Evolves executing _ { t.objects with proposals := t.objects.proposals.set op.proposal _ }
      rw [hsame, hobjects]
      exact Evolves.set hfound rfl
    | ok t =>
      rw [hx] at hends
      exact Ends.after hextends (hobjects ▸ hset) hends
    | undefined t =>
      rw [hx] at hends
      exact Ends.after hextends (hobjects ▸ hset) hends
  · exact ⟨⟨List.prefix_rfl, List.prefix_rfl⟩, hset⟩

theorem applyDelete_ends (op : ProposalDelete) (s : State ω σ) :
    Ends executing s (applyDelete executing op s) :=
  Ends.after (extends_disturb executing op.proposal s)
    (by rw [disturb_objects]; exact Evolves.refl executing _)
    (Ends.removeProposal fun hid => disturb_ne hid s)

theorem evaluateCreate_time {ops : List (Operation ω)} {expiration : Nat} {review : Option Nat}
    {s : Objects ω σ} (h : evaluateCreate r ops expiration review s = true) :
    s.headBlockTime < expiration := by
  simp only [evaluateCreate, Bool.and_eq_true, decide_eq_true_eq] at h
  obtain ⟨⟨⟨⟨⟨⟨⟨-, h⟩, -⟩, -⟩, -⟩, -⟩, -⟩, -⟩ := h
  exact h

theorem applyOperation_ends (hpush : Pushing push) (op : Operation ω) (s : State ω σ) :
    Ends executing s (applyOperation r push executing op s) := by
  have hnote : Extends s { s with appliedOps := s.appliedOps ++ [some op] } :=
    ⟨List.prefix_append _ _, List.prefix_rfl⟩
  refine Ends.after hnote (Evolves.refl executing s.objects) ?_
  unfold applyOperation
  generalize { s with appliedOps := s.appliedOps ++ [some op] } = s'
  cases op with
  | other o =>
    simp only
    split
    · exact ⟨⟨List.prefix_append _ _, List.prefix_rfl⟩, Evolves.rest executing s'.objects _⟩
    · exact ⟨List.prefix_append _ _, List.prefix_rfl⟩
  | proposalCreate payer ops expiration review =>
    simp only
    split
    · rename_i h
      rw [Bool.and_eq_true] at h
      have htime : s'.objects.headBlockTime < expiration := evaluateCreate_time h.2
      exact Ends.withFee fun rest => ⟨⟨List.prefix_rfl, List.prefix_rfl⟩, Evolves.create htime⟩
    · exact Extends.refl s'
  | proposalUpdate u =>
    simp only
    cases hp : s'.objects.proposals.find u.proposal with
    | none => exact Extends.refl s'
    | some p =>
      simp only
      split
      · refine Ends.withFee fun rest => ?_
        exact applyUpdate_ends hpush hp
      · exact Extends.refl s'
  | proposalDelete d =>
    simp only
    cases hp : s'.objects.proposals.find d.proposal with
    | none => exact Extends.refl s'
    | some p =>
      simp only
      split
      · exact Ends.withFee fun rest => applyDelete_ends d _
      · exact Extends.refl s'

theorem applyOperations_ends (hpush : Pushing push) (ops : List (Operation ω)) (s : State ω σ) :
    Ends executing s (applyOperations r push executing ops s) := by
  induction ops generalizing s with
  | nil => exact ⟨Extends.refl s, Evolves.refl executing s.objects⟩
  | cons op ops ih => exact Ends.andThen (applyOperation_ends hpush op s) fun t _ => ih t

/-! ### `push_proposal` -/

theorem extends_failProposal {s t : State ω σ} (h : Extends s t) :
    Extends s (s.failProposal t) := by
  obtain ⟨l, hl⟩ := h.appliedOps
  refine ⟨?_, h.disturbed⟩
  unfold State.failProposal
  rw [← hl]
  split
  · simp
  · simp

theorem failProposal_appliedOps {s t : State ω σ} (h : Extends s t)
    (htime : hardfork483Time < s.objects.headBlockTime) :
    (s.failProposal t).appliedOps = s.appliedOps := by
  obtain ⟨l, hl⟩ := h.appliedOps
  simp only [State.failProposal]
  rw [← hl, if_neg (not_le.mpr htime), List.take_left]

theorem pushes_failed {s t : State ω σ} {id : Nat} (h : Extends s t) :
    Pushes executing id s (.thrown (s.failProposal t)) where
  ends := extends_failProposal h
  removed := fun _ ht => nomatch ht
  objects := by
    rintro u ⟨⟩
    rfl
  appliedOps := by
    rintro u ⟨⟩ htime
    exact failProposal_appliedOps h htime

theorem pushes_undefined {s t : State ω σ} {id : Nat} (h : Extends s t) (hne : t.disturbed ≠ []) :
    Pushes executing id s (.undefined t) where
  ends := ⟨h, hne⟩
  removed := fun _ ht => nomatch ht
  objects := fun _ ht => nomatch ht
  appliedOps := fun _ ht => nomatch ht

theorem Evolves.executed {s : Objects ω σ} {id : Nat} {p : Proposal ω}
    (hp : s.proposals.find id = some p) (hid : id ∉ executing) :
    Evolves executing s { s with
      proposals := s.proposals.remove id, executed := s.executed ++ [id] } := by
  have hremove : Evolves executing s { s with proposals := s.proposals.remove id } :=
    Evolves.remove hid
  refine ⟨rfl, rfl, hremove.kept, fun h => ⟨?_, fun j hj => ?_, fun j hj => ?_⟩, hremove.expired⟩
  · refine List.nodup_append.mpr ⟨h.nodup, List.nodup_singleton id, fun j hj k hk he => ?_⟩
    obtain rfl := List.mem_singleton.mp hk
    rw [← he, h.gone j hj] at hp
    cases hp
  · rcases List.mem_append.mp hj with hj | hj
    · exact (hremove.once h).gone j hj
    · obtain rfl := List.mem_singleton.mp hj
      exact Table.find_remove_self _ _
  · rcases List.mem_append.mp hj with hj | hj
    · exact h.old j hj
    · obtain rfl := List.mem_singleton.mp hj
      show j < s.proposals.next
      exact Table.find_lt hp

theorem pushProposal_step (hpush : Pushing push) {id : Nat} {p : Proposal ω} {s : State ω σ}
    (hp : s.objects.proposals.find id = some p) (hid : id ∈ executing → s.disturbed ≠ []) :
    Pushes executing id s
      (match (applyOperations r push (id :: executing) p.operations s).andThen
          (State.removeProposal executing id) with
        | .ok t => .ok { t with objects := { t.objects with executed :=
          t.objects.executed ++ [id] } }
        | .thrown t => .thrown (s.failProposal t)
        | .undefined t => .undefined t) := by
  have hends : Ends (id :: executing) s (applyOperations r push (id :: executing) p.operations s) :=
    applyOperations_ends hpush p.operations s
  cases hx : applyOperations r push (id :: executing) p.operations s with
  | ok t =>
    rw [hx] at hends
    obtain ⟨hextends, hevolves⟩ := hends
    -- the operations did not remove the proposal, or they would not have returned
    obtain ⟨q, hq⟩ := Option.isSome_iff_exists.mp (hevolves.kept id (List.mem_cons_self ..)
      (Option.isSome_iff_exists.mpr ⟨p, hp⟩))
    by_cases hmem : id ∈ executing
    · simp only [Result.andThen, State.removeProposal, if_pos hmem]
      exact pushes_undefined ⟨hextends.appliedOps, hextends.disturbed⟩
        (hextends.disturbed_ne (hid hmem))
    · simp only [Result.andThen, State.removeProposal, if_neg hmem]
      refine ⟨⟨⟨hextends.appliedOps, hextends.disturbed⟩,
        hevolves.weaken.trans (Evolves.executed hq hmem)⟩, ?_, ?_, ?_⟩
      · rintro u ⟨⟩
        exact Table.find_remove_self _ _
      · intro u hu
        cases hu
      · intro u hu
        cases hu
  | thrown t =>
    rw [hx] at hends
    exact pushes_failed hends
  | undefined t =>
    rw [hx] at hends
    exact pushes_undefined hends.1 hends.2

theorem pushProposal_pushing (r : Rules ω σ) (levels : Nat) : Pushing (pushProposal r levels) := by
  induction levels with
  | zero =>
    intro executing id p s _ _
    exact pushes_failed (Extends.refl s)
  | succ levels ih =>
    intro executing id p s hp hid
    exact pushProposal_step ih hp hid

/-! ### Expiration -/

theorem mem_expiredProposals {o : Objects ω σ} {id : Nat} {p : Proposal ω} :
    (id, p) ∈ o.expiredProposals ↔
      o.proposals.find id = some p ∧ p.expirationTime ≤ o.headBlockTime := by
  rw [Objects.expiredProposals, (List.perm_insertionSort _ _).mem_iff, List.mem_filter,
    Table.find_iff_mem, decide_eq_true_eq]

theorem nodup_expiredProposals (o : Objects ω σ) : (o.expiredProposals.map Prod.fst).Nodup := by
  refine (((List.perm_insertionSort _ _).map Prod.fst).nodup_iff).mpr ?_
  refine List.pairwise_map.mpr ((o.proposals.sorted.filter _).imp fun h => ?_)
  exact Nat.ne_of_lt h

theorem Evolves.fewer_expired {s t : Objects ω σ} (h : Evolves [] s t) {id : Nat} {p : Proposal ω}
    (hp : (id, p) ∈ s.expiredProposals) (hgone : t.proposals.find id = none) :
    t.expiredProposals.length < s.expiredProposals.length := by
  have hsubset : id :: t.expiredProposals.map Prod.fst ⊆ s.expiredProposals.map Prod.fst := by
    intro j hj
    rcases List.mem_cons.mp hj with rfl | hj
    · exact List.mem_map_of_mem hp
    · obtain ⟨⟨k, q⟩, hq, rfl⟩ := List.mem_map.mp hj
      obtain ⟨hfind, hle⟩ := mem_expiredProposals.mp hq
      rw [h.time] at hle
      obtain ⟨q', hq', he⟩ := h.expired k q hfind hle
      exact List.mem_map.mpr ⟨(k, q'), mem_expiredProposals.mpr ⟨hq', he.trans_le hle⟩, rfl⟩
  have hnodup : (id :: t.expiredProposals.map Prod.fst).Nodup := by
    refine List.nodup_cons.mpr ⟨fun hmem => ?_, nodup_expiredProposals t⟩
    obtain ⟨⟨k, q⟩, hq, rfl⟩ := List.mem_map.mp hmem
    rw [(mem_expiredProposals.mp hq).1] at hgone
    cases hgone
  have hle := (List.subperm_of_subset hnodup hsubset).length_le
  rw [List.length_cons, List.length_map, List.length_map] at hle
  exact hle

/-- What a loop over the expired proposals gives. -/
structure Clears (s : State ω σ) (rounds : Nat) (x : Result (State ω σ)) : Prop where
  ends : Ends [] s x
  returns : ∀ t, x ≠ .thrown t
  cleared : s.objects.expiredProposals.length ≤ rounds → ∀ t, x = .ok t →
    t.objects.expiredProposals = []

theorem Clears.next {s t : State ω σ} {rounds id : Nat} {p : Proposal ω} {x : Result (State ω σ)}
    (hextends : Extends s t) (hevolves : Evolves [] s.objects t.objects)
    (hp : (id, p) ∈ s.objects.expiredProposals) (hgone : t.objects.proposals.find id = none)
    (h : Clears t rounds x) : Clears s (rounds + 1) x := by
  refine ⟨Ends.after hextends hevolves h.ends, h.returns, fun hle => h.cleared ?_⟩
  have hless := hevolves.fewer_expired hp hgone
  omega

theorem clearExpiredProposals_clears (r : Rules ω σ) (rounds : Nat) (s : State ω σ) :
    Clears s rounds (clearExpiredProposals r rounds s) := by
  induction rounds generalizing s with
  | zero =>
    refine ⟨⟨Extends.refl s, Evolves.refl [] _⟩, fun t ht => (nomatch ht), fun hle t ht => ?_⟩
    obtain rfl := Result.ok.inj ht
    exact List.length_eq_zero_iff.mp (Nat.le_zero.mp hle)
  | succ rounds ih =>
    unfold clearExpiredProposals
    cases hfirst : s.objects.expiredProposals with
    | nil =>
      refine ⟨⟨Extends.refl s, Evolves.refl [] _⟩, fun t ht => (nomatch ht), fun _ t ht => ?_⟩
      obtain rfl := Result.ok.inj ht
      exact hfirst
    | cons x rest =>
      obtain ⟨id, p⟩ := x
      have hmem : (id, p) ∈ s.objects.expiredProposals := hfirst ▸ List.mem_cons_self ..
      have hp := (mem_expiredProposals.mp hmem).1
      -- a proposal that is not executed is removed
      have hremove : ∀ t : State ω σ, Extends s t → t.objects = s.objects →
          Clears s (rounds + 1) ((t.removeProposal [] id).andThen
            (clearExpiredProposals r rounds)) := by
        intro t hextends hobjects
        simp only [State.removeProposal, Result.andThen, List.not_mem_nil, if_false]
        refine Clears.next ?_ ?_ hmem ?_ (ih _)
        · exact ⟨hextends.appliedOps, hextends.disturbed⟩
        · rw [hobjects]
          exact Evolves.remove List.not_mem_nil
        · exact Table.find_remove_self _ _
      simp only
      split
      · have hpushes := pushProposal_pushing r s.objects.nestingLevels [] id p s hp
          fun h => absurd h List.not_mem_nil
        cases hx : pushProposal r s.objects.nestingLevels [] id p s with
        | ok t =>
          have hends := hpushes.ends
          rw [hx] at hends
          exact Clears.next hends.1 hends.2 hmem (hpushes.removed t hx) (ih t)
        | thrown t =>
          have hends := hpushes.ends
          rw [hx] at hends
          exact hremove t hends (hpushes.objects t hx)
        | undefined t =>
          have hends := hpushes.ends
          rw [hx] at hends
          exact ⟨hends, fun u hu => (nomatch hu), fun _ u hu => (nomatch hu)⟩
      · exact hremove s (Extends.refl s) rfl

/-! ### Runs -/

/-- The states of a chain that starts without proposals.  Transactions and the expirations of blocks
follow each other in any order, and the other parts of a block change what the proposals do not
share. -/
inductive Reachable (r : Rules ω σ) : State ω σ → Prop
  | genesis {s : State ω σ} : s.objects.proposals.rows = [] → s.objects.executed = [] →
    s.disturbed = [] → Reachable r s
  | transaction {s t : State ω σ} (ops : List (Operation ω)) : Reachable r s →
    applyTransaction r ops s = .ok t → Reachable r t
  | refused {s t : State ω σ} (ops : List (Operation ω)) : Reachable r s →
    applyTransaction r ops s = .thrown t → Reachable r t
  | expiration {s t : State ω σ} : Reachable r s →
    clearExpiredProposals r s.objects.expiredProposals.length s = .ok t → Reachable r t
  | elsewhere {s : State ω σ} (rest : σ) (time witnesses : Nat) (appliedOps) : Reachable r s →
    s.objects.headBlockTime ≤ time → Reachable r { s with
      objects := { s.objects with rest := rest, headBlockTime := time, activeWitnesses :=
        witnesses }
      appliedOps := appliedOps }

theorem applyTransaction_ends (ops : List (Operation ω)) (s : State ω σ) :
    Ends [] s (applyTransaction r ops s) ∧
      ∀ t, applyTransaction r ops s = .thrown t → t.objects = s.objects := by
  have hends : Ends [] s (applyOperations r (pushProposal r s.objects.nestingLevels) [] ops s) :=
    applyOperations_ends (pushProposal_pushing r _) ops s
  unfold applyTransaction
  cases hx : applyOperations r (pushProposal r s.objects.nestingLevels) [] ops s with
  | ok t =>
    rw [hx] at hends
    exact ⟨hends, fun u hu => nomatch hu⟩
  | thrown t =>
    rw [hx] at hends
    refine ⟨⟨hends.appliedOps, hends.disturbed⟩, ?_⟩
    rintro u ⟨⟩
    rfl
  | undefined t =>
    rw [hx] at hends
    exact ⟨hends, fun u hu => nomatch hu⟩

theorem Reachable.once {s : State ω σ} (h : Reachable r s) : Once s.objects := by
  induction h with
  | genesis _ hexecuted _ =>
    refine ⟨?_, fun id hid => ?_, fun id hid => ?_⟩
    · rw [hexecuted]
      exact List.nodup_nil
    · rw [hexecuted] at hid
      cases hid
    · rw [hexecuted] at hid
      cases hid
  | @transaction s t ops _ happly ih =>
    have hends := (applyTransaction_ends (r := r) ops s).1
    rw [happly] at hends
    exact hends.2.once ih
  | @refused s t ops _ happly ih => rwa [(applyTransaction_ends ops s).2 t happly]
  | @expiration s t _ hclear ih =>
    have hends := (clearExpiredProposals_clears r s.objects.expiredProposals.length s).ends
    rw [hclear] at hends
    exact hends.2.once ih
  | elsewhere rest time witnesses appliedOps _ _ ih => exact ⟨ih.nodup, ih.gone, ih.old⟩

theorem pushProposal_thrown {levels id : Nat} {p : Proposal ω} {s t : State ω σ}
    (h : pushProposal r levels executing id p s = .thrown t) :
    t.objects = s.objects ∧ (hardfork483Time < s.objects.headBlockTime →
      t.appliedOps = s.appliedOps) := by
  cases levels with
  | zero =>
    obtain rfl : s.failProposal s = t := Result.thrown.inj h
    exact ⟨rfl, failProposal_appliedOps (Extends.refl s)⟩
  | succ levels =>
    have hends : Ends (id :: executing) s
        (applyOperations r (pushProposal r levels) (id :: executing) p.operations s) :=
      applyOperations_ends (pushProposal_pushing r levels) p.operations s
    unfold pushProposal at h
    cases hx : applyOperations r (pushProposal r levels) (id :: executing) p.operations s with
    | ok u =>
      rw [hx] at h
      by_cases hmem : id ∈ executing
      · simp only [Result.andThen, State.removeProposal, if_pos hmem] at h
        cases h
      · simp only [Result.andThen, State.removeProposal, if_neg hmem] at h
        cases h
    | thrown u =>
      rw [hx] at h hends
      obtain rfl : s.failProposal u = t := Result.thrown.inj h
      exact ⟨rfl, failProposal_appliedOps hends⟩
    | undefined u =>
      rw [hx] at h
      cases h

def Result.state {α : Type} : Result α → α
  | .ok s => s
  | .thrown s => s
  | .undefined s => s

/-- The next transaction or expiration of a run. -/
inductive Next (r : Rules ω σ) (s : State ω σ) : Result (State ω σ) → Prop
  | transaction (ops : List (Operation ω)) : Next r s (applyTransaction r ops s)
  | expiration : Next r s (clearExpiredProposals r s.objects.expiredProposals.length s)

/-- A proposal takes effect at most once and is gone after that, and an execution that throws leaves
no trace; no step is undefined in which no operation deletes a proposal, or approves it to be
executed again, in the course of its execution. -/
theorem proposals_executed_once (r : Rules ω σ) {s : State ω σ} (h : Reachable r s)
    {x : Result (State ω σ)} (hx : Next r s x) (hundisturbed : x.state.disturbed = []) :
    (∃ t, (x = .ok t ∨ x = .thrown t) ∧ t.objects.executed.Nodup ∧
      ∀ id ∈ t.objects.executed, t.objects.proposals.find id = none) ∧
    ∀ levels executing id p (u t : State ω σ), pushProposal r levels executing id p u = .thrown t →
      t.objects = u.objects ∧
        (hardfork483Time < u.objects.headBlockTime → t.appliedOps = u.appliedOps) := by
  refine ⟨?_, fun levels executing id p u t hthrown => pushProposal_thrown hthrown⟩
  have honce : ∀ {t : State ω σ}, Reachable r t → t.objects.executed.Nodup ∧
      ∀ id ∈ t.objects.executed, t.objects.proposals.find id = none :=
    fun ht => ⟨ht.once.nodup, ht.once.gone⟩
  cases hx with
  | transaction ops =>
    have hends := (applyTransaction_ends (r := r) ops s).1
    cases hresult : applyTransaction r ops s with
    | ok t => exact ⟨t, Or.inl rfl, honce (.transaction ops h hresult)⟩
    | thrown t => exact ⟨t, Or.inr rfl, honce (.refused ops h hresult)⟩
    | undefined t =>
      rw [hresult] at hends hundisturbed
      exact absurd hundisturbed hends.2
  | expiration =>
    have hclears := clearExpiredProposals_clears r s.objects.expiredProposals.length s
    cases hresult : clearExpiredProposals r s.objects.expiredProposals.length s with
    | ok t => exact ⟨t, Or.inl rfl, honce (.expiration h hresult)⟩
    | thrown t => exact absurd hresult (hclears.returns t)
    | undefined t =>
      have hends := hclears.ends
      rw [hresult] at hends hundisturbed
      exact absurd hundisturbed hends.2

/-! ### A proposal that approves itself -/

/-- One kind of other operation, which counts how often it took effect, and one account. -/
def countingRules : Rules Unit Nat where
  validate _ := true
  required _ := ⟨1, [], [], []⟩
  hardforkAllows _ _ := true
  evaluate _ _ n := (true, n + 1, [])
  prepareFee _ _ := true
  payFee _ n := (true, n)
  chargeFee _ n := (true, n)
  getActive _ _ := none
  getOwner _ _ := none
  maxAuthorityDepth _ := 2
  maximumProposalLifetime _ := 100
  committeeProposalReviewPeriod _ := 10

/-- The account 1 approves the proposal 0. -/
def approveFirst : ProposalUpdate where
  feePayingAccount := 1
  proposal := 0
  activeApprovalsToAdd := [1]
  activeApprovalsToRemove := []
  ownerApprovalsToAdd := []
  ownerApprovalsToRemove := []
  keyApprovalsToAdd := []
  keyApprovalsToRemove := []
  fits := no_keys_fit

def countingGenesis : State Unit Nat :=
  ⟨⟨Table.empty, 0, hardforkCore214Time, 1, []⟩, [], []⟩

def createFirst (ops : List (Operation Unit)) : Operation Unit :=
  .proposalCreate 1 ops (hardforkCore214Time + 50) none

/-- A test of a computation that returned, and of one that is undefined. -/
def Result.any {α : Type} (ok undefined : α → Bool) : Result α → Bool
  | .ok s => ok s
  | .thrown _ => false
  | .undefined s => undefined s

theorem Result.exists_ok {α : Type} {x : Result α} {p : α → Bool}
    (h : x.any p (fun _ => false) = true) :
    ∃ s, x = .ok s ∧ p s = true := by
  cases x with
  | ok s => exact ⟨s, rfl, h⟩
  | thrown s => cases h
  | undefined s => cases h

theorem Result.exists_undefined {α : Type} {x : Result α} {p : α → Bool}
    (h : x.any (fun _ => false) p = true) : ∃ s, x = .undefined s ∧ p s = true := by
  cases x with
  | ok s => cases h
  | thrown s => cases h
  | undefined s => exact ⟨s, rfl, h⟩

def approveSecond : ProposalUpdate := { approveFirst with proposal := 1, fits := no_keys_fit }

/-- A proposal that approves another one takes effect when it is approved, the other one in its
execution, and both are gone. -/
theorem proposals_executed_once_nested :
    ∃ s x t, Reachable countingRules s ∧ Next countingRules s x ∧ x = .ok t ∧ t.objects.rest = 2 ∧
      t.objects.executed = [1, 0] ∧ t.objects.executed.Nodup ∧
      t.objects.proposals.find 0 = none ∧ t.objects.proposals.find 1 = none := by
  obtain ⟨s, hs, hnext⟩ := Result.exists_ok
    (x := applyTransaction countingRules [createFirst [.other (), .proposalUpdate approveSecond],
      createFirst [.other ()]] countingGenesis)
    (p := fun s => (applyTransaction countingRules [.proposalUpdate approveFirst] s).any
      (fun t : State Unit Nat => decide (t.objects.rest = 2 ∧ t.objects.executed = [1, 0] ∧
        t.disturbed = []))
      fun _ => false) (by decide +kernel)
  obtain ⟨t, ht, htest⟩ := Result.exists_ok hnext
  obtain ⟨hrest, hexecuted, hundisturbed⟩ := of_decide_eq_true htest
  have hreach : Reachable countingRules s := .transaction _ (.genesis rfl rfl rfl) hs
  obtain ⟨⟨t', ht', hnodup, hgone⟩, -⟩ := proposals_executed_once countingRules hreach
    (.transaction [.proposalUpdate approveFirst]) (by rw [ht]; exact hundisturbed)
  obtain rfl : t' = t := by
    rw [ht] at ht'
    rcases ht' with h | h
    · exact (Result.ok.inj h).symm
    · cases h
  exact ⟨s, _, t', hreach, .transaction _, ht, hrest, hexecuted, hnodup,
    hgone 0 (by simp [hexecuted]), hgone 1 (by simp [hexecuted])⟩

/-- A proposal that also approves itself takes effect in its own execution, down to the nesting
limit of one witness: its operation has counted twice when the inner execution removes the proposal
that the outer one refers to. -/
theorem self_approving_proposal_repeats :
    ∃ s x t, Reachable countingRules s ∧ s.objects.rest = 0 ∧ Next countingRules s x ∧
      x = .undefined t ∧ t.objects.rest = 2 := by
  obtain ⟨s, hs, hnext⟩ := Result.exists_ok
    (x := applyTransaction countingRules
      [createFirst [.other (), .proposalUpdate approveFirst]] countingGenesis)
    (p := fun s => decide (s.objects.rest = 0) &&
      (applyTransaction countingRules [.proposalUpdate approveFirst] s).any (fun _ => false)
        fun t : State Unit Nat => decide (t.objects.rest = 2)) (by decide +kernel)
  obtain ⟨hrest, hnext⟩ := Bool.and_eq_true_iff.mp hnext
  obtain ⟨t, ht, htest⟩ := Result.exists_undefined hnext
  exact ⟨s, _, t, .transaction _ (.genesis rfl rfl rfl) hs, of_decide_eq_true hrest, .transaction _,
    ht,
    of_decide_eq_true htest⟩

end Nestchain.Proposals
