import Nestchain.Proposals.Effects
import Nestchain.Proposals.Once

/-! What requires the committee takes effect only in proposals that were open to review.  The
approvals by accounts are closed in the review period, and those by keys are not; a transaction may
not require the committee's active authority, and may require its owner authority. -/

namespace Nestchain.Proposals

open Nestchain.Lib Nestchain.Protocol

variable {ω σ : Type}

/-- The operations require the active or the owner authority of the committee. -/
def RequiresCommittee (r : Rules ω σ) (ops : List (Operation ω)) : Prop :=
  committeeAccount ∈ requiredActive (ops.map (Operation.required r)) ∨
    committeeAccount ∈ requiredOwner (ops.map (Operation.required r))

instance (r : Rules ω σ) (ops : List (Operation ω)) : Decidable (RequiresCommittee r ops) :=
  inferInstanceAs (Decidable (_ ∨ _))

/-- The approvals of a proposal are among those of another. -/
structure ApprovalsWithin (p q : Proposal ω) : Prop where
  active : p.availableActiveApprovals ⊆ q.availableActiveApprovals
  owner : p.availableOwnerApprovals ⊆ q.availableOwnerApprovals
  keys : p.availableKeyApprovals ⊆ q.availableKeyApprovals

section

variable (r : Rules ω σ) (applied : List (Applied ω σ)) (reviewed : Nat → Option (Proposal ω))

/-- An operation that took effect created the proposal, with the review period that the committee's
proposals needed then. -/
def CreatedForReview (id : Nat) (p : Proposal ω) : Prop :=
  ∃ c ∈ applied, ∃ payer period,
    c.op = .proposalCreate payer p.operations p.expirationTime (some period) ∧
    c.objects.proposals.next = id ∧ r.committeeProposalReviewPeriod c.objects.rest ≤ period ∧
    p.reviewPeriodTime = some (p.expirationTime - period)

/-- The operation is one of a proposal that was created for review and has expired, with approvals
that it had when its review period began. -/
def ReviewedOp (now : Nat) (within : Option (Nat × Proposal ω)) (op : Operation ω) : Prop :=
  ∃ id p p₀, within = some (id, p) ∧ op ∈ p.operations ∧ p.expirationTime ≤ now ∧
    reviewed id = some p₀ ∧ ApprovalsWithin p p₀ ∧ CreatedForReview r applied id p

def Applied.Reviewed (e : Applied ω σ) : Prop :=
  ReviewedOp r applied reviewed e.objects.headBlockTime e.within e.op

/-- The operation is not a `proposal_update` that gives a proposal of the committee in its review
period a key approval that it did not have when the period began, and does not require the
committee's owner authority unless it is part of a proposal. -/
structure Applied.Clean (e : Applied ω σ) : Prop where
  keys : ∀ u p p₀, e.op = .proposalUpdate u → e.objects.proposals.find u.proposal = some p →
    RequiresCommittee r p.operations → (∃ t, p.reviewPeriodTime = some t ∧
      t ≤ e.objects.headBlockTime) →
    reviewed u.proposal = some p₀ →
    ∀ k ∈ u.keyApprovalsToAdd, k ∈ p₀.availableKeyApprovals ∨ k ∈ u.keyApprovalsToRemove
  owner : e.within = none → committeeAccount ∉ requiredOwner [e.op.required r]

/-- The proposals of the committee were created for review, and from the start of their review
period on they have no approvals but those that they had then. -/
structure Reviewing (o : Objects ω σ) : Prop where
  created : ∀ id p, o.proposals.find id = some p → RequiresCommittee r p.operations →
    CreatedForReview r applied id p
  started : ∀ id p t, o.proposals.find id = some p → RequiresCommittee r p.operations →
    p.reviewPeriodTime = some t → (t ≤ o.headBlockTime ↔ (reviewed id).isSome = true)
  within : ∀ id p p₀, o.proposals.find id = some p → RequiresCommittee r p.operations →
    reviewed id = some p₀ → ApprovalsWithin p p₀
  old : ∀ id, (reviewed id).isSome = true → id < o.proposals.next

end

variable {r : Rules ω σ} {applied : List (Applied ω σ)} {reviewed : Nat → Option (Proposal ω)}

theorem RequiresCommittee.mono {ops ops' : List (Operation ω)} (hops : ∀ op ∈ ops, op ∈ ops')
    (h : RequiresCommittee r ops) : RequiresCommittee r ops' := by
  simp only [RequiresCommittee, requiredActive, requiredOwner, mem_flatSet, List.mem_flatMap,
    List.mem_map] at h ⊢
  refine h.imp ?_ ?_
  · rintro ⟨a, ⟨op, hop, ha⟩, hmem⟩
    exact ⟨a, ⟨op, hops op hop, ha⟩, hmem⟩
  · rintro ⟨a, ⟨op, hop, ha⟩, hmem⟩
    exact ⟨a, ⟨op, hops op hop, ha⟩, hmem⟩

theorem ApprovalsWithin.refl (p : Proposal ω) : ApprovalsWithin p p :=
  ⟨Finset.Subset.refl _, Finset.Subset.refl _, Finset.Subset.refl _⟩

/-! ### More history -/

theorem CreatedForReview.append {id : Nat} {p : Proposal ω} (h : CreatedForReview r applied id p)
    (more : List (Applied ω σ)) : CreatedForReview r (applied ++ more) id p := by
  obtain ⟨c, hc, hcreated⟩ := h
  exact ⟨c, List.mem_append_left more hc, hcreated⟩

theorem ReviewedOp.append {now : Nat} {within : Option (Nat × Proposal ω)} {op : Operation ω}
    (h : ReviewedOp r applied reviewed now within op) (more : List (Applied ω σ)) :
    ReviewedOp r (applied ++ more) reviewed now within op := by
  obtain ⟨id, p, p₀, hwithin, hop, hexpired, hp₀, happrovals, hcreated⟩ := h
  exact ⟨id, p, p₀, hwithin, hop, hexpired, hp₀, happrovals, hcreated.append more⟩

theorem ReviewedOp.later {reviewed' : Nat → Option (Proposal ω)}
    (hlater : ∀ id p, reviewed id = some p → reviewed' id = some p) {now : Nat}
    {within : Option (Nat × Proposal ω)} {op : Operation ω}
    (h : ReviewedOp r applied reviewed now within op) :
      ReviewedOp r applied reviewed' now within op := by
  obtain ⟨id, p, p₀, hwithin, hop, hexpired, hp₀, happrovals, hcreated⟩ := h
  exact ⟨id, p, p₀, hwithin, hop, hexpired, hlater id p₀ hp₀, happrovals, hcreated⟩

theorem Applied.Clean.earlier {reviewed' : Nat → Option (Proposal ω)}
    (hlater : ∀ id p, reviewed id = some p → reviewed' id = some p) {e : Applied ω σ}
    (h : e.Clean r reviewed') : e.Clean r reviewed where
  keys u p p₀ hop hp hcommittee hstarted hp₀ :=
    h.keys u p p₀ hop hp hcommittee hstarted (hlater u.proposal p₀ hp₀)
  owner := h.owner

/-! ### What keeps the proposals under review -/

namespace Reviewing

variable {o : Objects ω σ}

theorem append (h : Reviewing r applied reviewed o) (more : List (Applied ω σ)) :
    Reviewing r (applied ++ more) reviewed o :=
  ⟨fun id p hp hcommittee => (h.created id p hp hcommittee).append more, h.started, h.within, h.old⟩

theorem congr (h : Reviewing r applied reviewed o) {o' : Objects ω σ}
    (hproposals : o'.proposals = o.proposals)
    (htime : o'.headBlockTime = o.headBlockTime) : Reviewing r applied reviewed o' := by
  refine ⟨?_, ?_, ?_, ?_⟩
  · rw [hproposals]
    exact h.created
  · rw [hproposals, htime]
    exact h.started
  · rw [hproposals]
    exact h.within
  · rw [hproposals]
    exact h.old

theorem period (h : Reviewing r applied reviewed o) {id : Nat} {p : Proposal ω}
    (hp : o.proposals.find id = some p) (hcommittee : RequiresCommittee r p.operations) :
    ∃ t, p.reviewPeriodTime = some t ∧ t ≤ p.expirationTime := by
  obtain ⟨c, -, payer, period, -, -, -, htime⟩ := h.created id p hp hcommittee
  exact ⟨_, htime, Nat.sub_le _ _⟩

theorem remove (h : Reviewing r applied reviewed o) (id : Nat) :
    Reviewing r applied reviewed { o with proposals := o.proposals.remove id } := by
  have hkept : ∀ j q, (o.proposals.remove id).find j = some q → o.proposals.find j = some q :=
    fun j q hq => (Table.find_remove_iff.mp hq).2
  exact ⟨fun j q hq => h.created j q (hkept j q hq), fun j q t hq => h.started j q t (hkept j q hq),
    fun j q q₀ hq => h.within j q q₀ (hkept j q hq), h.old⟩

/-- A proposal is replaced by one of the same operations and times, with approvals that are within
those at the start of the review period if it has begun. -/
theorem set (h : Reviewing r applied reviewed o) {id : Nat} {p q : Proposal ω}
    (hp : o.proposals.find id = some p) (hops : q.operations = p.operations)
    (hexpiration : q.expirationTime = p.expirationTime)
    (hperiod : q.reviewPeriodTime = p.reviewPeriodTime)
    (hwithin : ∀ p₀, RequiresCommittee r p.operations → reviewed id = some p₀ →
      ApprovalsWithin q p₀) :
    Reviewing r applied reviewed { o with proposals := o.proposals.set id q } := by
  refine ⟨fun j q' hq' => ?_, fun j q' t hq' => ?_, fun j q' q₀ hq' => ?_, h.old⟩
  · rcases (Table.find_set_iff hp).mp hq' with ⟨rfl, rfl⟩ | ⟨-, hq'⟩
    · intro hcommittee
      obtain ⟨c, hc, hcreated⟩ := h.created j p hp (hops ▸ hcommittee)
      refine ⟨c, hc, ?_⟩
      rw [hops, hexpiration, hperiod]
      exact hcreated
    · exact h.created j q' hq'
  · rcases (Table.find_set_iff hp).mp hq' with ⟨rfl, rfl⟩ | ⟨-, hq'⟩
    · rw [hops, hperiod]
      exact h.started j p t hp
    · exact h.started j q' t hq'
  · rcases (Table.find_set_iff hp).mp hq' with ⟨rfl, rfl⟩ | ⟨-, hq'⟩
    · intro hcommittee hq₀
      exact hwithin q₀ (hops ▸ hcommittee) hq₀
    · exact h.within j q' q₀ hq'

end Reviewing

theorem evaluateCreate_period {ops : List (Operation ω)} {expiration period : Nat} {o : Objects ω σ}
    (h : evaluateCreate r ops expiration (some period) o = true) :
    period < expiration - o.headBlockTime := by
  simp only [evaluateCreate, Bool.and_eq_true] at h
  obtain ⟨⟨⟨⟨⟨-, hperiod⟩, -⟩, -⟩, -⟩, -⟩ := h
  exact of_decide_eq_true hperiod

theorem evaluateCreate_review {ops : List (Operation ω)} {expiration : Nat} {review : Option Nat}
    {o : Objects ω σ} (h : evaluateCreate r ops expiration review o = true)
    (hcommittee : RequiresCommittee r ops) :
    ∃ period, review = some period ∧ r.committeeProposalReviewPeriod o.rest ≤ period := by
  simp only [evaluateCreate, Bool.and_eq_true] at h
  obtain ⟨⟨⟨-, hreview⟩, -⟩, -⟩ := h
  have hrequired : (requiredActive (ops.map (Operation.required r)) ++
      requiredOwner (ops.map (Operation.required r))).contains committeeAccount = true := by
    rw [List.contains_iff_mem, List.mem_append]
    exact hcommittee
  rw [hrequired, Bool.not_true, Bool.false_or, Option.any_eq_true] at hreview
  obtain ⟨period, hperiod, hle⟩ := hreview
  exact ⟨period, hperiod, of_decide_eq_true hle⟩

namespace Reviewing

variable {o : Objects ω σ}

theorem create (h : Reviewing r applied reviewed o) {e : Applied ω σ} (he : e ∈ applied)
    {payer : AccountId} {ops : List (Operation ω)} {expiration : Nat} {review : Option Nat}
    (hop : e.op = .proposalCreate payer ops expiration review)
    (hnext : e.objects.proposals.next = o.proposals.next)
    (htime : e.objects.headBlockTime = o.headBlockTime)
    (hevaluate : evaluateCreate r ops expiration review e.objects = true) :
    Reviewing r applied reviewed { o with
      proposals := o.proposals.create (newProposal r payer ops expiration review) } := by
  have hfresh : reviewed o.proposals.next = none := by
    rw [← Option.not_isSome_iff_eq_none]
    exact fun hsome => absurd (h.old _ hsome) (Nat.lt_irrefl _)
  refine ⟨fun j q hq => ?_, fun j q t hq => ?_, fun j q q₀ hq => ?_,
    fun j hj => (h.old j hj).trans (Nat.lt_succ_self _)⟩
  · rcases Table.find_create_iff.mp hq with hq | ⟨rfl, rfl⟩
    · exact h.created j q hq
    · intro hcommittee
      obtain ⟨period, rfl, hle⟩ := evaluateCreate_review hevaluate hcommittee
      exact ⟨e, he, payer, period, hop, hnext, hle, rfl⟩
  · rcases Table.find_create_iff.mp hq with hq | ⟨rfl, rfl⟩
    · exact h.started j q t hq
    · -- the review period of a new proposal lies ahead
      rintro - hperiod
      obtain ⟨period, rfl, rfl⟩ := Option.map_eq_some_iff.mp hperiod
      have hlt := evaluateCreate_period hevaluate
      rw [hfresh]
      refine ⟨fun hle => ?_, fun hsome => nomatch hsome⟩
      have hle : expiration - period ≤ o.headBlockTime := hle
      omega
  · rcases Table.find_create_iff.mp hq with hq | ⟨rfl, rfl⟩
    · exact h.within j q q₀ hq
    · intro _ hq₀
      rw [hfresh] at hq₀
      cases hq₀

theorem approve (h : Reviewing r applied reviewed o) {u : ProposalUpdate} {p : Proposal ω}
    (hp : o.proposals.find u.proposal = some p) (hevaluate : u.evaluate p o.headBlockTime = true)
    (hkeys : ∀ p₀, RequiresCommittee r p.operations →
      (∃ t, p.reviewPeriodTime = some t ∧ t ≤ o.headBlockTime) → reviewed u.proposal = some p₀ →
      ∀ k ∈ u.keyApprovalsToAdd, k ∈ p₀.availableKeyApprovals ∨ k ∈ u.keyApprovalsToRemove) :
    Reviewing r applied reviewed { o with proposals := o.proposals.set u.proposal (u.approve p) } := by
  refine h.set hp rfl rfl rfl fun p₀ hcommittee hp₀ => ?_
  obtain ⟨t, ht, -⟩ := h.period hp hcommittee
  have hle : t ≤ o.headBlockTime := (h.started u.proposal p t hp hcommittee ht).mpr
    (by rw [hp₀]; rfl)
  have hbefore := h.within u.proposal p p₀ hp hcommittee hp₀
  obtain ⟨hactive, howner⟩ : u.activeApprovalsToAdd = [] ∧ u.ownerApprovalsToAdd = [] := by
    simp only [ProposalUpdate.evaluate, ht, Option.any_some, decide_eq_true hle, Bool.not_true,
      Bool.false_or, Bool.and_eq_true, List.isEmpty_iff] at hevaluate
    exact hevaluate.1.1
  refine ⟨fun a ha => ?_, fun a ha => ?_, fun k hk => ?_⟩
  · simp only [ProposalUpdate.approve, hactive, List.toFinset_nil, Finset.mem_sdiff,
      Finset.mem_union,
      Finset.notMem_empty, or_false] at ha
    exact hbefore.active ha.1
  · simp only [ProposalUpdate.approve, howner, List.toFinset_nil, Finset.mem_sdiff,
      Finset.mem_union,
      Finset.notMem_empty, or_false] at ha
    exact hbefore.owner ha.1
  · simp only [ProposalUpdate.approve, Finset.mem_sdiff, Finset.mem_union, List.mem_toFinset] at hk
    obtain ⟨hk | hk, hremove⟩ := hk
    · exact hbefore.keys hk
    · exact (hkeys p₀ hcommittee ⟨t, ht, hle⟩ hp₀ k hk).resolve_right hremove

theorem start (h : Reviewing r applied reviewed o) (rest : σ) {time : Nat} (witnesses : Nat)
    (htime : o.headBlockTime ≤ time) :
    Reviewing r applied (startReviews o time reviewed) { o with
      rest := rest, headBlockTime := time, activeWitnesses := witnesses } := by
  refine ⟨h.created, fun id p t hp hcommittee ht => ?_, fun id p p₀ hp hcommittee hp₀ => ?_,
    fun id hid => ?_⟩
  · have hp : o.proposals.find id = some p := hp
    have hbefore := h.started id p t hp hcommittee ht
    unfold startReviews
    cases hid : reviewed id with
    | some q =>
      have hle := hbefore.mpr (by rw [hid]; rfl)
      exact ⟨fun _ => rfl, fun _ => hle.trans htime⟩
    | none =>
      simp only [hp, Option.filter_some, ht, Option.any_some, decide_eq_true_eq]
      split
      · rename_i hle
        exact ⟨fun _ => rfl, fun _ => hle⟩
      · rename_i hlt
        exact ⟨fun hle => absurd hle hlt, fun hsome => nomatch hsome⟩
  · have hp : o.proposals.find id = some p := hp
    unfold startReviews at hp₀
    cases hid : reviewed id with
    | some q =>
      rw [hid] at hp₀
      obtain rfl := Option.some.inj hp₀
      exact h.within id p q hp hcommittee hid
    | none =>
      rw [hid, hp] at hp₀
      obtain ⟨he, -⟩ := Option.filter_eq_some_iff.mp hp₀
      obtain rfl := Option.some.inj he
      exact ApprovalsWithin.refl p
  · unfold startReviews at hid
    cases hreviewed : reviewed id with
    | some q => exact h.old id (by rw [hreviewed]; rfl)
    | none =>
      rw [hreviewed] at hid
      obtain ⟨q, hq⟩ := Option.isSome_iff_exists.mp hid
      exact Table.find_lt (Option.filter_eq_some_iff.mp hq).1

end Reviewing

theorem startReviews_later {o : Objects ω σ} {time : Nat} (id : Nat) (p : Proposal ω)
    (h : reviewed id = some p) : startReviews o time reviewed id = some p := by
  rw [startReviews, h]

/-! ### Computations -/

/-- The operations that take effect after `applied` and require the committee are reviewed by
then. -/
def AllReviewed (r : Rules ω σ) (reviewed : Nat → Option (Proposal ω))
    (applied : List (Applied ω σ)) :
    List (Applied ω σ) → Prop
  | [] => True
  | e :: effects => (RequiresCommittee r [e.op] → e.Reviewed r applied reviewed) ∧
      AllReviewed r reviewed (applied ++ [e]) effects

theorem allReviewed_append {effects effects' : List (Applied ω σ)} :
    AllReviewed r reviewed applied (effects ++ effects') ↔
      AllReviewed r reviewed applied effects ∧ AllReviewed r reviewed
        (applied ++ effects) effects' := by
  induction effects generalizing applied with
  | nil => simp [AllReviewed]
  | cons e effects ih =>
    simp only [List.cons_append, AllReviewed, ih, and_assoc, List.append_assoc, List.nil_append]

theorem AllReviewed.later {reviewed' : Nat → Option (Proposal ω)}
    (hlater : ∀ id p, reviewed id = some p → reviewed' id = some p) {effects : List (Applied ω σ)}
    (h : AllReviewed r reviewed applied effects) : AllReviewed r reviewed' applied effects := by
  induction effects generalizing applied with
  | nil => exact h
  | cons e effects ih => exact ⟨fun hcommittee => (h.1 hcommittee).later hlater, ih h.2⟩

/-- A computation that returned, with what took effect in it. -/
structure Kept (r : Rules ω σ) (applied : List (Applied ω σ)) (reviewed : Nat → Option (Proposal ω))
    (o o' : Objects ω σ) (effects : List (Applied ω σ)) : Prop where
  time : o'.headBlockTime = o.headBlockTime
  reviewing : Reviewing r (applied ++ effects) reviewed o'
  all : AllReviewed r reviewed applied effects

namespace Kept

variable {o o' o'' : Objects ω σ} {effects effects' : List (Applied ω σ)}

theorem nil (h : Reviewing r applied reviewed o') (htime : o'.headBlockTime = o.headBlockTime) :
    Kept r applied reviewed o o' [] :=
  ⟨htime, (List.append_nil applied).symm ▸ h, trivial⟩

theorem trans (h : Kept r applied reviewed o o' effects)
    (h' : Kept r (applied ++ effects) reviewed o' o'' effects') :
    Kept r applied reviewed o o'' (effects ++ effects') :=
  ⟨h'.time.trans h.time, List.append_assoc applied effects effects' ▸ h'.reviewing,
    allReviewed_append.mpr ⟨h.all, h'.all⟩⟩

end Kept

/-- The executions of proposals that may take effect: those that require the committee when they
have expired.  One that throws leaves no trace. -/
structure Permits (r : Rules ω σ) (reviewed : Nat → Option (Proposal ω))
    (push : List Nat → Nat → Proposal ω → State ω σ → Result (State ω σ))
    (pushEffects : List Nat → Nat → Proposal ω → State ω σ → List (Applied ω σ)) : Prop where
  returns : ∀ applied executing id p s t, Reviewing r applied reviewed s.objects →
    s.objects.proposals.find id = some p →
    (RequiresCommittee r p.operations → p.expirationTime ≤ s.objects.headBlockTime) →
    push executing id p s = .ok t → (∀ e ∈ pushEffects executing id p s, e.Clean r reviewed) →
    Kept r applied reviewed s.objects t.objects (pushEffects executing id p s)
  throws : ∀ executing id p s t, push executing id p s = .thrown t →
    t.objects = s.objects ∧ pushEffects executing id p s = []

section

variable {push : List Nat → Nat → Proposal ω → State ω σ → Result (State ω σ)}
  {pushEffects : List Nat → Nat → Proposal ω → State ω σ → List (Applied ω σ)}
    {executing : List Nat}
  {within : Option (Nat × Proposal ω)}

theorem applyUpdate_kept (hpush : Permits r reviewed push pushEffects) {u : ProposalUpdate}
    {p : Proposal ω}
    {s t : State ω σ} (h : Reviewing r applied reviewed s.objects)
    (hp : s.objects.proposals.find u.proposal = some p)
    (hevaluate : u.evaluate p s.objects.headBlockTime = true)
    (hkeys : ∀ p₀, RequiresCommittee r p.operations →
      (∃ t, p.reviewPeriodTime = some t ∧ t ≤ s.objects.headBlockTime) →
        reviewed u.proposal = some p₀ →
      ∀ k ∈ u.keyApprovalsToAdd, k ∈ p₀.availableKeyApprovals ∨ k ∈ u.keyApprovalsToRemove)
    (hx : applyUpdate r push executing u p s = .ok t)
    (hclean : ∀ e ∈ updateEffects r pushEffects executing u p s, e.Clean r reviewed) :
    Kept r applied reviewed s.objects t.objects (updateEffects r pushEffects executing u p s) := by
  have hset : Reviewing r applied reviewed (s.setProposal u.proposal (u.approve p)).objects :=
    h.approve hp hevaluate hkeys
  have hfound : (s.setProposal u.proposal (u.approve p)).objects.proposals.find u.proposal =
      some (u.approve p) := Table.find_set_self hp
  unfold applyUpdate at hx
  unfold updateEffects at hclean ⊢
  simp only at hx hclean ⊢
  split at hx
  · rename_i hexecutes
    simp only [hexecutes, if_true] at hclean ⊢
    have hnone : (u.approve p).reviewPeriodTime = none :=
      Option.isNone_iff_eq_none.mp (Bool.and_eq_true_iff.mp hexecutes).1
    have hnot : ¬RequiresCommittee r (u.approve p).operations := by
      intro hcommittee
      obtain ⟨t, ht, -⟩ := hset.period hfound hcommittee
      rw [hnone] at ht
      cases ht
    generalize hs' : (s.setProposal u.proposal (u.approve p)).disturb executing u.proposal = s'
      at hx hclean ⊢
    have hobjects : s'.objects = (s.setProposal u.proposal (u.approve p)).objects := by
      rw [← hs', disturb_objects]
    cases hpushed : push executing u.proposal (u.approve p) s' with
    | ok v =>
      rw [hpushed] at hx
      obtain rfl := Result.ok.inj hx
      have hkept := hpush.returns applied executing u.proposal (u.approve p) s' v (hobjects ▸ hset)
        (by rw [hobjects, hfound]) (fun hcommittee => absurd hcommittee hnot) hpushed hclean
      rw [hobjects] at hkept
      exact ⟨hkept.time, hkept.reviewing, hkept.all⟩
    | thrown v =>
      rw [hpushed] at hx
      obtain rfl := Result.ok.inj hx
      obtain ⟨hsame, hnothing⟩ := hpush.throws _ _ _ _ _ hpushed
      rw [hnothing]
      refine Kept.nil ?_ ?_
      · show Reviewing r applied reviewed { v.objects with
          proposals := v.objects.proposals.set u.proposal _ }
        rw [hsame, hobjects]
        exact hset.set hfound rfl rfl rfl fun p₀ hcommittee => absurd hcommittee hnot
      · show v.objects.headBlockTime = _
        rw [hsame, hobjects]
        rfl
    | undefined v =>
      rw [hpushed] at hx
      cases hx
  · rename_i hexecutes
    simp only [hexecutes] at hclean ⊢
    obtain rfl := Result.ok.inj hx
    exact Kept.nil hset rfl

theorem withFee_ok {op : Operation ω} {doApply : State ω σ → Result (State ω σ)} {s t : State ω σ}
    (h : withFee r op doApply s = .ok t) :
    ∃ s' t' rest rest', s' = s.setRest rest ∧ s.call (r.payFee op) = .ok s' ∧ doApply s' = .ok t' ∧
      t = t'.setRest rest' := by
  unfold withFee at h
  cases hpay : s.call (r.payFee op) with
  | ok s' =>
    rw [hpay] at h
    obtain ⟨rest, hs'⟩ := call_ok hpay
    cases happly : doApply s' with
    | ok t' =>
      simp only [Result.andThen, happly] at h
      obtain ⟨rest', ht⟩ := call_ok h
      exact ⟨s', t', rest, rest', hs', rfl, happly, ht⟩
    | thrown t' =>
      simp only [Result.andThen, happly] at h
      cases h
    | undefined t' =>
      simp only [Result.andThen, happly] at h
      cases h
  | thrown s' =>
    rw [hpay] at h
    cases h
  | undefined s' =>
    rw [hpay] at h
    cases h

theorem applyOperation_noted (hpush : Permits r reviewed push pushEffects) {op : Operation ω}
    {s t : State ω σ} (h : Reviewing r applied reviewed s.objects)
    (he : ⟨op, within, s.objects⟩ ∈ applied) (hnoted :
      Applied.Clean r reviewed ⟨op, within, s.objects⟩)
    (hx : applyOperation r push executing op s = .ok t)
    (hclean : ∀ e ∈ (operationEffects r pushEffects executing within op s).tail,
      e.Clean r reviewed) :
    Kept r applied reviewed s.objects t.objects
      (operationEffects r pushEffects executing within op s).tail := by
  unfold applyOperation at hx
  cases op with
  | other o =>
    simp only at hx
    split at hx
    · obtain rfl := Result.ok.inj hx
      exact Kept.nil (h.congr rfl rfl) rfl
    · cases hx
  | proposalCreate payer ops expiration review =>
    simp only at hx
    split at hx
    · rename_i hevaluate
      obtain ⟨-, hevaluate⟩ := Bool.and_eq_true_iff.mp hevaluate
      obtain ⟨s', t', rest, rest', rfl, -, happly, rfl⟩ := withFee_ok hx
      obtain rfl := Result.ok.inj happly
      have hcreate := h.create he rfl rfl rfl hevaluate
      exact Kept.nil (hcreate.congr rfl rfl) rfl
    · cases hx
  | proposalUpdate u =>
    simp only at hx
    cases hp : s.objects.proposals.find u.proposal with
    | none =>
      simp only [hp] at hx
      cases hx
    | some p =>
      simp only [hp] at hx
      split at hx
      · rename_i hevaluate
        obtain ⟨-, hevaluate⟩ := Bool.and_eq_true_iff.mp hevaluate
        obtain ⟨s', t', rest, rest', rfl, hpay, happly, rfl⟩ := withFee_ok hx
        simp only [operationEffects, List.tail_cons, hp, hpay] at hclean ⊢
        have hkeys := fun p₀ hcommittee hstarted hp₀ =>
          hnoted.keys u p p₀ rfl hp hcommittee hstarted hp₀
        generalize hs' : ({ s with appliedOps := s.appliedOps ++ [some (.proposalUpdate u)] } :
          State ω σ).setRest rest = s' at happly hclean ⊢
        have hrest : Reviewing r applied reviewed s'.objects := hs' ▸ h.congr rfl rfl
        have hkept : Kept r applied reviewed s'.objects t'.objects _ :=
          applyUpdate_kept hpush hrest (hs' ▸ hp) (hs' ▸ hevaluate) (hs' ▸ hkeys) happly hclean
        rw [← hs'] at hkept ⊢
        exact ⟨hkept.time, hkept.reviewing.congr rfl rfl, hkept.all⟩
      · cases hx
  | proposalDelete d =>
    simp only at hx
    split at hx
    · cases hx
    · split at hx
      · obtain ⟨s', t', rest, rest', rfl, -, happly, rfl⟩ := withFee_ok hx
        unfold applyDelete State.removeProposal at happly
        split at happly
        · cases happly
        · obtain rfl := Result.ok.inj happly
          refine Kept.nil ?_ ?_
          · simp only [disturb_objects]
            exact (h.remove d.proposal).congr rfl rfl
          · simp only [disturb_objects]
            rfl
      · cases hx

theorem applyOperation_kept (hpush : Permits r reviewed push pushEffects) {op : Operation ω}
    {s t : State ω σ} (h : Reviewing r applied reviewed s.objects)
    (hpermit : Applied.Clean r reviewed ⟨op, within, s.objects⟩ → RequiresCommittee r [op] →
      ReviewedOp r applied reviewed s.objects.headBlockTime within op)
    (hx : applyOperation r push executing op s = .ok t)
    (hclean : ∀ e ∈ operationEffects r pushEffects executing within op s, e.Clean r reviewed) :
    Kept r applied reviewed s.objects t.objects
      (operationEffects r pushEffects executing within op s) := by
  have hnoted := hclean ⟨op, within, s.objects⟩ (List.mem_cons_self ..)
  have hfirst : Kept r applied reviewed s.objects s.objects [⟨op, within, s.objects⟩] :=
    ⟨rfl, h.append _, hpermit hnoted, trivial⟩
  refine hfirst.trans (applyOperation_noted hpush hfirst.reviewing ?_ hnoted hx fun e he =>
    hclean e ?_)
  · exact List.mem_append_right _ (List.mem_singleton_self _)
  · exact List.mem_cons_of_mem _ he

theorem applyOperations_kept (hpush : Permits r reviewed push pushEffects)
    {ops : List (Operation ω)}
    {s t : State ω σ} (h : Reviewing r applied reviewed s.objects)
    (hpermit : ∀ op ∈ ops, ∀ o, Applied.Clean r reviewed ⟨op, within, o⟩ →
      RequiresCommittee r [op] →
      ReviewedOp r applied reviewed s.objects.headBlockTime within op)
    (hx : applyOperations r push executing ops s = .ok t)
    (hclean : ∀ e ∈ operationsEffects r push pushEffects executing within ops s,
      e.Clean r reviewed) :
    Kept r applied reviewed s.objects t.objects
      (operationsEffects r push pushEffects executing within ops s) := by
  induction ops generalizing applied s with
  | nil =>
    obtain rfl := Result.ok.inj hx
    exact Kept.nil h rfl
  | cons op ops ih =>
    unfold applyOperations at hx
    unfold operationsEffects at hclean ⊢
    cases hop : applyOperation r push executing op s with
    | ok s' =>
      simp only [hop, Result.andThen] at hx
      simp only [hop, List.mem_append] at hclean ⊢
      have hfirst := applyOperation_kept hpush h (hpermit op (List.mem_cons_self ..) s.objects) hop
        fun e he => hclean e (Or.inl he)
      refine hfirst.trans (ih hfirst.reviewing (fun op' hop' o hop'clean hcommittee => ?_) hx
        fun e he => hclean e (Or.inr he))
      rw [hfirst.time]
      exact (hpermit op' (List.mem_cons_of_mem op hop') o hop'clean hcommittee).append _
    | thrown s' =>
      rw [hop] at hx
      cases hx
    | undefined s' =>
      rw [hop] at hx
      cases hx

end

theorem Reviewing.permits {o : Objects ω σ} (h : Reviewing r applied reviewed o) {id : Nat}
    {p : Proposal ω}
    (hp : o.proposals.find id = some p)
    (hexpired : RequiresCommittee r p.operations → p.expirationTime ≤ o.headBlockTime)
    {op : Operation ω} (hop : op ∈ p.operations) (hcommittee : RequiresCommittee r [op]) :
    ReviewedOp r applied reviewed o.headBlockTime (some (id, p)) op := by
  have hcommittee : RequiresCommittee r p.operations :=
    hcommittee.mono fun op' hop' => (List.mem_singleton.mp hop').symm ▸ hop
  obtain ⟨t, ht, hle⟩ := h.period hp hcommittee
  obtain ⟨p₀, hp₀⟩ := Option.isSome_iff_exists.mp
    ((h.started id p t hp hcommittee ht).mp (hle.trans (hexpired hcommittee)))
  exact ⟨id, p, p₀, rfl, hop, hexpired hcommittee, hp₀, h.within id p p₀ hp hcommittee hp₀,
    h.created id p hp hcommittee⟩

theorem pushProposal_permits (r : Rules ω σ) (reviewed : Nat → Option (Proposal ω)) (levels : Nat) :
    Permits r reviewed (pushProposal r levels) (pushEffects r levels) := by
  have hthrows : ∀ levels executing id p (s t : State ω σ),
      pushProposal r levels executing id p s = .thrown t →
      t.objects = s.objects ∧ pushEffects r levels executing id p s = [] := by
    intro levels executing id p s t hx
    refine ⟨(pushProposal_thrown hx).1, ?_⟩
    cases levels with
    | zero => rfl
    | succ levels => rw [pushEffects, hx]
  induction levels with
  | zero => exact ⟨fun _ _ _ _ _ _ _ _ _ hx => (nomatch hx), hthrows 0⟩
  | succ levels ih =>
    refine ⟨fun applied executing id p s t h hp hexpired hx hclean => ?_, hthrows (levels + 1)⟩
    rw [pushEffects, hx] at hclean ⊢
    unfold pushProposal at hx
    cases hops : applyOperations r (pushProposal r levels) (id :: executing) p.operations s with
    | ok u =>
      have hkept : Kept r applied reviewed s.objects u.objects (operationsEffects r
          (pushProposal r levels) (pushEffects r levels) (id :: executing)
            (some (id, p)) p.operations s) :=
        applyOperations_kept ih h (fun op hop _ _ hcommittee =>
          h.permits hp hexpired hop hcommittee) hops
          hclean
      by_cases hmem : id ∈ executing
      · simp only [hops, Result.andThen, State.removeProposal, if_pos hmem] at hx
        cases hx
      · simp only [hops, Result.andThen, State.removeProposal, if_neg hmem] at hx
        obtain rfl := Result.ok.inj hx
        exact ⟨hkept.time, (hkept.reviewing.remove id).congr rfl rfl, hkept.all⟩
    | thrown u =>
      rw [hops] at hx
      cases hx
    | undefined u =>
      rw [hops] at hx
      cases hx

/-! ### Runs -/

theorem submit_ok {ops : List (Operation ω)} {sigs : Finset PublicKey} {s t : State ω σ}
    (h : submit r ops sigs s = .ok t) :
    applyTransaction r ops s = .ok t ∧
      committeeAccount ∉ requiredActive (ops.map (Operation.required r)) := by
  unfold submit at h
  split at h
  · rename_i hverify
    refine ⟨h, fun hmem => ?_⟩
    rw [verifyAuthority, if_pos ⟨rfl, hmem⟩] at hverify
    cases hverify
  · cases h

theorem submit_thrown {ops : List (Operation ω)} {sigs : Finset PublicKey} {s t : State ω σ}
    (h : submit r ops sigs s = .thrown t) : t.objects = s.objects := by
  unfold submit at h
  split at h
  · exact (applyTransaction_ends ops s).2 t h
  · obtain rfl := Result.thrown.inj h
    rfl

theorem submit_kept {ops : List (Operation ω)} {sigs : Finset PublicKey} {s t : State ω σ}
    (h : Reviewing r applied reviewed s.objects) (hx : submit r ops sigs s = .ok t)
    (hclean : ∀ e ∈ transactionEffects r ops s, e.Clean r reviewed) :
    Kept r applied reviewed s.objects t.objects (transactionEffects r ops s) := by
  obtain ⟨hx, hactive⟩ := submit_ok hx
  have hops : applyOperations r (pushProposal r s.objects.nestingLevels) [] ops s = .ok t := by
    unfold applyTransaction at hx
    split at hx
    · cases hx
    · exact hx
  refine applyOperations_kept (pushProposal_permits r reviewed _) h ?_ hops hclean
  intro op hop o hopclean hcommittee
  rcases hcommittee with hmem | hmem
  · -- `verify_authority` has refused the committee's active authority
    refine absurd ?_ hactive
    simp only [requiredActive, mem_flatSet, List.mem_flatMap, List.mem_map] at hmem ⊢
    obtain ⟨a, ⟨op', hop', ha⟩, hmem⟩ := hmem
    exact ⟨a, ⟨op', (List.mem_singleton.mp hop').symm ▸ hop, ha⟩, hmem⟩
  · exact absurd hmem (hopclean.owner rfl)

theorem clearExpiredProposals_kept {rounds : Nat} {s t : State ω σ}
    (h : Reviewing r applied reviewed s.objects) (hx : clearExpiredProposals r rounds s = .ok t)
    (hclean : ∀ e ∈ expirationEffects r rounds s, e.Clean r reviewed) :
    Kept r applied reviewed s.objects t.objects (expirationEffects r rounds s) := by
  induction rounds generalizing applied s with
  | zero =>
    obtain rfl := Result.ok.inj hx
    exact Kept.nil h rfl
  | succ rounds ih =>
    unfold clearExpiredProposals at hx
    unfold expirationEffects at hclean ⊢
    cases hfirst : s.objects.expiredProposals with
    | nil =>
      simp only [hfirst] at hx ⊢
      obtain rfl := Result.ok.inj hx
      exact Kept.nil h rfl
    | cons x rest =>
      obtain ⟨id, p⟩ := x
      obtain ⟨hp, hexpired⟩ := mem_expiredProposals.mp (hfirst ▸ List.mem_cons_self ..)
      simp only [hfirst, State.removeProposal, List.not_mem_nil, if_false] at hx hclean ⊢
      -- a proposal that is not executed is removed
      have hremove : ∀ u : State ω σ, u.objects = s.objects →
          clearExpiredProposals r rounds { u with objects := { u.objects with
            proposals := u.objects.proposals.remove id } } = .ok t →
          (∀ e ∈ expirationEffects r rounds { u with objects := { u.objects with
            proposals := u.objects.proposals.remove id } }, e.Clean r reviewed) →
          Kept r applied reviewed s.objects t.objects (expirationEffects r rounds { u with
            objects := { u.objects with proposals := u.objects.proposals.remove id } }) := by
        intro u hobjects hx hclean
        have hkept := ih (s := { u with objects := { u.objects with
          proposals := u.objects.proposals.remove id } }) (hobjects ▸ h.remove id) hx hclean
        exact ⟨hkept.time.trans (by rw [hobjects]), hkept.reviewing, hkept.all⟩
      split at hx
      · rename_i hauthorized
        simp only [hauthorized, if_true] at hclean ⊢
        cases hpushed : pushProposal r s.objects.nestingLevels [] id p s with
        | ok u =>
          simp only [hpushed, List.mem_append] at hx hclean ⊢
          have hkept := (pushProposal_permits r reviewed s.objects.nestingLevels).returns applied
            [] id p s u
            h hp (fun _ => hexpired) hpushed fun e he => hclean e (Or.inl he)
          exact hkept.trans (ih hkept.reviewing hx fun e he => hclean e (Or.inr he))
        | thrown u =>
          simp only [hpushed] at hx hclean ⊢
          exact hremove u (pushProposal_thrown hpushed).1 hx hclean
        | undefined u =>
          rw [hpushed] at hx
          cases hx
      · rename_i hauthorized
        simp only [hauthorized] at hclean ⊢
        exact hremove s rfl hx hclean

theorem Run.kept {s : State ω σ} (h : Run r applied reviewed s)
    (hclean : ∀ e ∈ applied, e.Clean r reviewed) :
    Reviewing r applied reviewed s.objects ∧ AllReviewed r reviewed [] applied := by
  induction h with
  | @genesis s hempty =>
    have hnone : ∀ id p, s.objects.proposals.find id ≠ some p := by
      intro id p hp
      have hmem := Table.find_iff_mem.mp hp
      rw [hempty] at hmem
      cases hmem
    exact ⟨⟨fun id p hp => absurd hp (hnone id p), fun id p t hp => absurd hp (hnone id p),
      fun id p p₀ hp => absurd hp (hnone id p), fun id hid => (nomatch hid)⟩, trivial⟩
  | transaction ops sigs _ hx ih =>
    obtain ⟨hreviewing, hall⟩ := ih fun e he => hclean e (List.mem_append_left _ he)
    have hkept := submit_kept hreviewing hx fun e he => hclean e (List.mem_append_right _ he)
    exact ⟨hkept.reviewing, allReviewed_append.mpr ⟨hall, hkept.all⟩⟩
  | refused ops sigs _ hx ih =>
    obtain ⟨hreviewing, hall⟩ := ih hclean
    exact ⟨(submit_thrown hx).symm ▸ hreviewing, hall⟩
  | expiration _ hx ih =>
    obtain ⟨hreviewing, hall⟩ := ih fun e he => hclean e (List.mem_append_left _ he)
    have hkept := clearExpiredProposals_kept hreviewing hx fun e he =>
      hclean e (List.mem_append_right _ he)
    exact ⟨hkept.reviewing, allReviewed_append.mpr ⟨hall, hkept.all⟩⟩
  | elsewhere rest time witnesses appliedOps _ htime ih =>
    obtain ⟨hreviewing, hall⟩ := ih fun e he => (hclean e he).earlier startReviews_later
    exact ⟨hreviewing.start rest witnesses htime, hall.later startReviews_later⟩

/-- On a chain without late key approvals and without operations of transactions that require the
committee's owner authority, whatever requires the committee takes effect in a proposal that was
created for review, at its expiration and with approvals that it had when its review period began;
and from then on approvals are only withdrawn. -/
theorem committee_operations_reviewed {s : State ω σ} (h : Run r applied reviewed s)
    (hclean : ∀ e ∈ applied, e.Clean r reviewed) :
    AllReviewed r reviewed [] applied ∧
      ∀ id p p₀, s.objects.proposals.find id = some p → RequiresCommittee r p.operations →
        reviewed id = some p₀ → ApprovalsWithin p p₀ :=
  ⟨(h.kept hclean).2, (h.kept hclean).1.within⟩

/-! ### Courses of a small chain -/

inductive Move (ω : Type) where
  | submit (ops : List (Operation ω)) (sigs : Finset PublicKey)
  | expire
  | wait (time : Nat)

/-- A chain with its history. -/
structure Course (ω σ : Type) where
  applied : List (Applied ω σ)
  reviewed : Nat → Option (Proposal ω)
  state : State ω σ

/-- The next move, unless it does not return. -/
def Course.next (r : Rules ω σ) (c : Course ω σ) : Move ω → Option (Course ω σ)
  | .submit ops sigs =>
    match submit r ops sigs c.state with
    | .ok t => some ⟨c.applied ++ transactionEffects r ops c.state, c.reviewed, t⟩
    | _ => none
  | .expire =>
    match clearExpiredProposals r c.state.objects.expiredProposals.length c.state with
    | .ok t => some ⟨c.applied ++ expirationEffects r c.state.objects.expiredProposals.length c.state,
        c.reviewed, t⟩
    | _ => none
  | .wait time =>
    if c.state.objects.headBlockTime ≤ time then
      some ⟨c.applied, startReviews c.state.objects time c.reviewed, { c.state with
        objects := { c.state.objects with headBlockTime := time } }⟩
    else none

theorem Course.next_run {c c' : Course ω σ} {m : Move ω} (h : Run r c.applied c.reviewed c.state)
    (hnext : c.next r m = some c') : Run r c'.applied c'.reviewed c'.state := by
  unfold Course.next at hnext
  cases m with
  | submit ops sigs =>
    simp only at hnext
    split at hnext
    · rename_i hx
      obtain rfl := Option.some.inj hnext
      exact .transaction ops sigs h hx
    · cases hnext
  | expire =>
    simp only at hnext
    split at hnext
    · rename_i hx
      obtain rfl := Option.some.inj hnext
      exact .expiration h hx
    · cases hnext
  | wait time =>
    simp only at hnext
    split at hnext
    · rename_i htime
      obtain rfl := Option.some.inj hnext
      exact .elsewhere _ time _ _ h htime
    · cases hnext

theorem Course.run {c c' : Course ω σ} {moves : List (Move ω)}
    (h : Run r c.applied c.reviewed c.state)
    (hmoves : moves.foldlM (Course.next r) c = some c') :
      Run r c'.applied c'.reviewed c'.state := by
  induction moves generalizing c with
  | nil =>
    obtain rfl := Option.some.inj hmoves
    exact h
  | cons m moves ih =>
    rw [List.foldlM_cons] at hmoves
    obtain ⟨d, hd, hmoves⟩ := Option.bind_eq_some_iff.mp hmoves
    exact ih (Course.next_run h hd) hmoves

/-- The key of the committee is 100 and that of the account 1 is 7; an operation requires what it
says. -/
def committeeRules : Rules RequiredAuthorities Nat where
  validate _ := true
  required op := op
  hardforkAllows _ _ := true
  evaluate _ _ n := (true, n + 1, [])
  prepareFee _ _ := true
  payFee _ n := (true, n)
  chargeFee _ n := (true, n)
  getActive _
    | 0 => some (keyAuthority 100)
    | 1 => some (keyAuthority 7)
    | _ => none
  getOwner _
    | 0 => some (keyAuthority 100)
    | 1 => some (keyAuthority 7)
    | _ => none
  maxAuthorityDepth _ := 2
  maximumProposalLifetime _ := 100
  committeeProposalReviewPeriod _ := 10

def committeeGenesis : Course RequiredAuthorities Nat :=
  ⟨[], fun _ => none, ⟨⟨Table.empty, 0, hardforkCore214Time, 1, []⟩, [], []⟩⟩

/-- The account 1 proposes an operation of the committee, to be reviewed in the last 20 of 50
seconds. -/
def proposeCommittee : Move RequiredAuthorities :=
  .submit [.proposalCreate 1 [.other ⟨committeeAccount, [], [], []⟩] (hardforkCore214Time + 50)
    (some 20)]
    {7}

def committeeUpdate (owner : List AccountId) (keys : List PublicKey)
    (h : (keys ++ []).length < 2 ^ 32) :
    Move RequiredAuthorities :=
  .submit [.proposalUpdate ⟨1, 0, [], [], owner, [], keys, [], h⟩] {7, 100}

def committeeCourse (moves : List (Move RequiredAuthorities)) :
    Option (Course RequiredAuthorities Nat) :=
  moves.foldlM (Course.next committeeRules) committeeGenesis

theorem committeeCourse_run (moves : List (Move RequiredAuthorities))
    (test : Course RequiredAuthorities Nat → Bool) (h : (committeeCourse moves).any test = true) :
    ∃ c, Run committeeRules c.applied c.reviewed c.state ∧ test c = true := by
  obtain ⟨c, hc, htest⟩ := (Option.any_eq_true _ _).mp h
  exact ⟨c, Course.run (.genesis rfl) hc, htest⟩

/-- A test for what is clean because it comes before the review period. -/
def Applied.early (r : Rules ω σ) (e : Applied ω σ) : Bool :=
  (match e.op with
    | .proposalUpdate u => (e.objects.proposals.find u.proposal).all fun p =>
        p.reviewPeriodTime.all fun t => decide (e.objects.headBlockTime < t)
    | _ => true) &&
  (e.within.isSome || decide (committeeAccount ∉ requiredOwner [e.op.required r]))

theorem Applied.clean_of_early {e : Applied ω σ} (h : e.early r = true) : e.Clean r reviewed := by
  obtain ⟨hop, howner⟩ := Bool.and_eq_true_iff.mp h
  refine ⟨fun u p p₀ he hp _ hstarted _ => ?_, fun hwithin => ?_⟩
  · obtain ⟨t, ht, hle⟩ := hstarted
    simp only [he, hp, ht, Option.all_some, decide_eq_true_eq] at hop
    omega
  · simpa [hwithin] using howner

/-- A proposal of the committee that is approved before its review period and executed after it. -/
theorem committee_operations_reviewed_on_time :
    ∃ c : Course RequiredAuthorities Nat, Run committeeRules c.applied c.reviewed c.state ∧
      (∃ e ∈ c.applied, RequiresCommittee committeeRules [e.op]) ∧
      AllReviewed committeeRules c.reviewed [] c.applied ∧
      ∀ id p p₀, c.state.objects.proposals.find id = some p →
        RequiresCommittee committeeRules p.operations → c.reviewed id = some p₀ →
          ApprovalsWithin p p₀ := by
  obtain ⟨c, hrun, htest⟩ := committeeCourse_run
    [proposeCommittee, committeeUpdate [] [100] (by decide), .wait (hardforkCore214Time + 30),
      .wait (hardforkCore214Time + 50), .expire]
    (fun c => c.applied.all (Applied.early committeeRules) &&
      c.applied.any fun e => decide (RequiresCommittee committeeRules [e.op])) (by decide +kernel)
  obtain ⟨hearly, hcommittee⟩ := Bool.and_eq_true_iff.mp htest
  obtain ⟨e, he, hrequires⟩ := List.any_eq_true.mp hcommittee
  exact ⟨c, hrun, ⟨e, he, of_decide_eq_true hrequires⟩, committee_operations_reviewed hrun
    fun e he => Applied.clean_of_early (List.all_eq_true.mp hearly e he)⟩

/-- A test for a key that approves an execution and did not when the review period began. -/
def Applied.late (e : Applied ω σ) (k : PublicKey) (reviewed : Nat → Option (Proposal ω)) : Bool :=
  e.within.any fun x => (reviewed x.1).any fun p₀ =>
    decide (k ∈ x.2.availableKeyApprovals ∧ k ∉ p₀.availableKeyApprovals)

theorem AllReviewed.mem {effects : List (Applied ω σ)} (h : AllReviewed r reviewed applied effects)
    {e : Applied ω σ} (he : e ∈ effects) (hcommittee : RequiresCommittee r [e.op]) :
    ∃ before, e.Reviewed r before reviewed := by
  induction effects generalizing applied with
  | nil => cases he
  | cons e' effects ih =>
    rcases List.mem_cons.mp he with rfl | he
    · exact ⟨applied, h.1 hcommittee⟩
    · exact ih h.2 he

/-- A key that is added in the review period is enough for a proposal of the committee to be
executed, and the owner's key of the committee is enough for an operation of a transaction that
requires its owner authority. -/
theorem late_key_executes_committee_proposal :
    (∃ c : Course RequiredAuthorities Nat, Run committeeRules c.applied c.reviewed c.state ∧
      (∃ e ∈ c.applied, RequiresCommittee committeeRules [e.op] ∧ ∃ id p p₀,
        e.within = some (id, p) ∧
        c.reviewed id = some p₀ ∧ ¬ApprovalsWithin p p₀) ∧
      ¬AllReviewed committeeRules c.reviewed [] c.applied) ∧
    ∃ c : Course RequiredAuthorities Nat, Run committeeRules c.applied c.reviewed c.state ∧
      (∃ e ∈ c.applied, RequiresCommittee committeeRules [e.op] ∧ e.within = none) ∧
      ¬AllReviewed committeeRules c.reviewed [] c.applied := by
  constructor
  · obtain ⟨c, hrun, htest⟩ := committeeCourse_run
      [proposeCommittee, .wait (hardforkCore214Time + 30), committeeUpdate [] [100] (by decide),
        .wait (hardforkCore214Time + 50), .expire]
      (fun c => c.applied.any fun e => decide (RequiresCommittee committeeRules [e.op]) &&
        e.late 100 c.reviewed) (by decide +kernel)
    obtain ⟨e, he, htest⟩ := List.any_eq_true.mp htest
    obtain ⟨hcommittee, htest⟩ := Bool.and_eq_true_iff.mp htest
    obtain ⟨⟨id, p⟩, hwithin, htest⟩ := (Option.any_eq_true _ _).mp htest
    obtain ⟨p₀, hp₀, htest⟩ := (Option.any_eq_true _ _).mp htest
    obtain ⟨hadded, hbefore⟩ : 100 ∈ p.availableKeyApprovals ∧ 100 ∉ p₀.availableKeyApprovals :=
      of_decide_eq_true htest
    have hcommittee := of_decide_eq_true hcommittee
    have hnot : ¬ApprovalsWithin p p₀ := fun h => hbefore (h.keys hadded)
    refine ⟨c, hrun, ⟨e, he, hcommittee, id, p, p₀, hwithin, hp₀, hnot⟩, fun hall => ?_⟩
    obtain ⟨before, id', p', p₀', hwithin', -, -, hp₀', happrovals, -⟩ := hall.mem he hcommittee
    obtain ⟨rfl, rfl⟩ := Prod.mk.inj (Option.some.inj (hwithin.symm.trans hwithin'))
    obtain rfl := Option.some.inj (hp₀.symm.trans hp₀')
    exact hnot happrovals
  · obtain ⟨c, hrun, htest⟩ := committeeCourse_run
      [proposeCommittee, committeeUpdate [committeeAccount] [] (by decide)]
      (fun c => c.applied.any fun e => decide (RequiresCommittee committeeRules [e.op]) &&
        e.within.isNone) (by decide +kernel)
    obtain ⟨e, he, htest⟩ := List.any_eq_true.mp htest
    obtain ⟨hcommittee, hnone⟩ := Bool.and_eq_true_iff.mp htest
    have hcommittee := of_decide_eq_true hcommittee
    have hnone := Option.isNone_iff_eq_none.mp hnone
    refine ⟨c, hrun, ⟨e, he, hcommittee, hnone⟩, fun hall => ?_⟩
    obtain ⟨before, id, p, p₀, hwithin, -⟩ := hall.mem he hcommittee
    rw [hnone] at hwithin
    cases hwithin

end Nestchain.Proposals
