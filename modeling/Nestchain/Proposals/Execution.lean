import Nestchain.Lib.Table
import Nestchain.Protocol.Authority

/-! Proposals: the operations that create, update and delete them, and `push_proposal`, which
executes one.  Operations of other kinds are a parameter: they change objects that the proposals do
not share. -/

namespace Nestchain.Proposals

open Nestchain.Lib Nestchain.Protocol

/-- `HARDFORK_483_TIME` -/
def hardfork483Time : Nat := 1450378800

/-- `HARDFORK_CORE_214_TIME` -/
def hardforkCore214Time : Nat := 1532008920

/-- `proposal_update_operation`.  A transaction has no room for more keys than `fits` allows. -/
structure ProposalUpdate where
  feePayingAccount : AccountId
  proposal : Nat
  activeApprovalsToAdd : List AccountId
  activeApprovalsToRemove : List AccountId
  ownerApprovalsToAdd : List AccountId
  ownerApprovalsToRemove : List AccountId
  keyApprovalsToAdd : List PublicKey
  keyApprovalsToRemove : List PublicKey
  fits : (keyApprovalsToAdd ++ keyApprovalsToRemove).length < 2 ^ 32

theorem no_keys_fit : (([] : List PublicKey) ++ []).length < 2 ^ 32 := by decide

/-- `proposal_delete_operation` -/
structure ProposalDelete where
  feePayingAccount : AccountId
  usingOwnerAuthority : Bool
  proposal : Nat

/-- The operations that deal with proposals, and the others. -/
inductive Operation (ω : Type) where
  | other (op : ω)
  | proposalCreate (feePayingAccount : AccountId) (proposedOps : List (Operation ω))
      (expirationTime : Nat) (reviewPeriodSeconds : Option Nat)
  | proposalUpdate (op : ProposalUpdate)
  | proposalDelete (op : ProposalDelete)

/-- `proposal_object` -/
structure Proposal (ω : Type) where
  expirationTime : Nat
  reviewPeriodTime : Option Nat
  operations : List (Operation ω)
  requiredActiveApprovals : List AccountId
  availableActiveApprovals : Finset AccountId
  requiredOwnerApprovals : List AccountId
  availableOwnerApprovals : Finset AccountId
  availableKeyApprovals : Finset PublicKey
  proposer : AccountId
  /-- A `fail_reason` was noted. -/
  failed : Bool

/-- What the proposals need of the rest of the chain: the checks and the evaluation of the other
operations, which may throw with changes made and push virtual operations, the fees, the authorities
of accounts and the chain parameters. -/
structure Rules (ω σ : Type) where
  validate : ω → Bool
  required : ω → RequiredAuthorities
  hardforkAllows : Nat → ω → Bool
  evaluate : ω → Nat → σ → Bool × σ × List ω
  prepareFee : Operation ω → σ → Bool
  payFee : Operation ω → σ → Bool × σ
  chargeFee : Operation ω → σ → Bool × σ
  getActive : σ → AccountId → Option Authority
  getOwner : σ → AccountId → Option Authority
  maxAuthorityDepth : σ → Nat
  maximumProposalLifetime : σ → Nat
  committeeProposalReviewPeriod : σ → Nat

/-- The objects: an undo session saves and restores them.  `executed` lists the proposals whose
operations took effect. -/
structure Objects (ω σ : Type) where
  proposals : Table (Proposal ω)
  rest : σ
  headBlockTime : Nat
  activeWitnesses : Nat
  executed : List Nat

/-- The database with the list of applied operations, in which entries may have been reset.
`disturbed` lists the proposals that were deleted, or approved to be executed again, by an operation
in the course of their execution. -/
structure State (ω σ : Type) where
  objects : Objects ω σ
  appliedOps : List (Option (Operation ω))
  disturbed : List Nat

/-- How a computation ends.  It is undefined when it removes a proposal that a `push_proposal` under
way refers to: every way on from there uses the dangling reference. -/
inductive Result (α : Type) where
  | ok (s : α)
  | thrown (s : α)
  | undefined (s : α)

section

variable {ω σ : Type}

/-! ### Checks -/

mutual

/-- A property of the other operations, also of those inside of proposals. -/
def Operation.allOther (p : ω → Bool) : Operation ω → Bool
  | .other op => p op
  | .proposalCreate _ ops _ _ => Operation.allOthers p ops
  | _ => true

def Operation.allOthers (p : ω → Bool) : List (Operation ω) → Bool
  | [] => true
  | op :: ops => Operation.allOther p op && Operation.allOthers p ops

end

def ProposalUpdate.validate (op : ProposalUpdate) : Bool :=
  !(op.activeApprovalsToAdd.isEmpty && op.activeApprovalsToRemove.isEmpty &&
    op.ownerApprovalsToAdd.isEmpty && op.ownerApprovalsToRemove.isEmpty &&
    op.keyApprovalsToAdd.isEmpty && op.keyApprovalsToRemove.isEmpty) &&
  op.activeApprovalsToAdd.all (fun a => !op.activeApprovalsToRemove.contains a) &&
  op.ownerApprovalsToAdd.all (fun a => !op.ownerApprovalsToRemove.contains a) &&
  op.keyApprovalsToAdd.all (fun a => !op.keyApprovalsToRemove.contains a)

/-- The keys of `get_required_authorities`. -/
def ProposalUpdate.keyAuths (op : ProposalUpdate) : List (PublicKey × Nat) :=
  (op.keyApprovalsToAdd ++ op.keyApprovalsToRemove).dedup.map fun k => (k, 1)

theorem ProposalUpdate.keyAuths_fit (op : ProposalUpdate) :
    (([] : List (AccountId × Nat)).map Prod.snd).sum + (op.keyAuths.map Prod.snd).sum < 2 ^ 32 := by
  have hsum : (op.keyAuths.map Prod.snd).sum =
      (op.keyApprovalsToAdd ++ op.keyApprovalsToRemove).dedup.length := by
    rw [keyAuths, List.map_map]
    simp [Function.comp_def]
  rw [hsum, List.map_nil, List.sum_nil, Nat.zero_add]
  exact lt_of_le_of_lt (List.dedup_sublist _).length_le op.fits

/-- `get_required_authorities` -/
def ProposalUpdate.otherAuths (op : ProposalUpdate) : List Authority :=
  if 0 < op.keyAuths.length then [⟨op.keyAuths.length, [], op.keyAuths, op.keyAuths_fit⟩] else []

/-- `operation_get_required_authorities` -/
def Operation.required (r : Rules ω σ) : Operation ω → RequiredAuthorities
  | .other op => r.required op
  | .proposalCreate payer _ _ _ => ⟨payer, [], [], []⟩
  | .proposalUpdate op => ⟨op.feePayingAccount, op.activeApprovalsToAdd ++
    op.activeApprovalsToRemove,
      op.ownerApprovalsToAdd ++ op.ownerApprovalsToRemove, op.otherAuths⟩
  | .proposalDelete op => ⟨op.feePayingAccount, [], [], []⟩

mutual

/-- `operation_validate` -/
def Operation.validate (r : Rules ω σ) : Operation ω → Bool
  | .other op => r.validate op
  | .proposalCreate _ ops _ _ => !ops.isEmpty && Operation.validateAll r ops
  | .proposalUpdate op => op.validate
  | .proposalDelete _ => true

def Operation.validateAll (r : Rules ω σ) : List (Operation ω) → Bool
  | [] => true
  | op :: ops => Operation.validate r op && Operation.validateAll r ops

end

def Operation.isUpdate : Operation ω → Bool
  | .proposalUpdate _ => true
  | _ => false

/-- `proposal_object::is_authorized_to_execute` -/
def Proposal.isAuthorizedToExecute (r : Rules ω σ) (p : Proposal ω) (rest : σ) : Bool :=
  match verifyAuthority (p.operations.map (Operation.required r)) p.availableKeyApprovals
      (r.getActive rest) (r.getOwner rest) (r.maxAuthorityDepth rest) true p.availableActiveApprovals
      p.availableOwnerApprovals with
  | .ok _ => true
  | .error _ => false

/-- `proposal_create_evaluator::do_evaluate` -/
def evaluateCreate (r : Rules ω σ) (ops : List (Operation ω)) (expirationTime : Nat)
    (reviewPeriodSeconds : Option Nat) (s : Objects ω σ) : Bool :=
  let required := ops.map (Operation.required r)
  Operation.allOthers (r.hardforkAllows s.headBlockTime) ops &&
  (decide (hardforkCore214Time ≤ s.headBlockTime) || !ops.any Operation.isUpdate) &&
  decide (s.headBlockTime < expirationTime) &&
  decide (expirationTime ≤ s.headBlockTime + r.maximumProposalLifetime s.rest) &&
  reviewPeriodSeconds.all (fun p => decide (p < expirationTime - s.headBlockTime)) &&
  required.all (fun a => a.other.isEmpty) &&
  (!(requiredActive required ++ requiredOwner required).contains committeeAccount ||
    reviewPeriodSeconds.any fun p => decide (r.committeeProposalReviewPeriod s.rest ≤ p)) &&
  !ops.isEmpty && Operation.validateAll r ops

/-- The object that `proposal_create_evaluator::do_apply` creates. -/
def newProposal (r : Rules ω σ) (payer : AccountId) (ops : List (Operation ω))
    (expirationTime : Nat)
    (reviewPeriodSeconds : Option Nat) : Proposal ω where
  expirationTime := expirationTime
  reviewPeriodTime := reviewPeriodSeconds.map fun p => expirationTime - p
  operations := ops
  requiredActiveApprovals := (requiredActive (ops.map (Operation.required r))).filter fun a =>
    !(requiredOwner (ops.map (Operation.required r))).contains a
  availableActiveApprovals := ∅
  requiredOwnerApprovals := requiredOwner (ops.map (Operation.required r))
  availableOwnerApprovals := ∅
  availableKeyApprovals := ∅
  proposer := payer
  failed := false

/-- `proposal_update_evaluator::do_evaluate` -/
def ProposalUpdate.evaluate (op : ProposalUpdate) (p : Proposal ω) (now : Nat) : Bool :=
  (!p.reviewPeriodTime.any (fun t => decide (t ≤ now)) ||
    op.activeApprovalsToAdd.isEmpty && op.ownerApprovalsToAdd.isEmpty) &&
  op.activeApprovalsToRemove.all (fun a => decide (a ∈ p.availableActiveApprovals)) &&
  op.ownerApprovalsToRemove.all fun a => decide (a ∈ p.availableOwnerApprovals)

/-- The approvals that `proposal_update_evaluator::do_apply` adds and removes. -/
def ProposalUpdate.approve (op : ProposalUpdate) (p : Proposal ω) : Proposal ω :=
  { p with
    availableActiveApprovals := (p.availableActiveApprovals ∪ op.activeApprovalsToAdd.toFinset) \
      op.activeApprovalsToRemove.toFinset
    availableOwnerApprovals := (p.availableOwnerApprovals ∪ op.ownerApprovalsToAdd.toFinset) \
      op.ownerApprovalsToRemove.toFinset
    availableKeyApprovals := (p.availableKeyApprovals ∪ op.keyApprovalsToAdd.toFinset) \
      op.keyApprovalsToRemove.toFinset }

/-- `proposal_delete_evaluator::do_evaluate` -/
def ProposalDelete.evaluate (op : ProposalDelete) (p : Proposal ω) : Bool :=
  (if op.usingOwnerAuthority then p.requiredOwnerApprovals
    else p.requiredActiveApprovals).contains op.feePayingAccount

/-! ### Execution -/

def State.setProposal (s : State ω σ) (id : Nat) (p : Proposal ω) : State ω σ :=
  { s with objects := { s.objects with proposals := s.objects.proposals.set id p } }

def State.setRest (s : State ω σ) (rest : σ) : State ω σ :=
  { s with objects := { s.objects with rest := rest } }

/-- `remove(proposal)`, while the proposals `executing` are under execution. -/
def State.removeProposal (executing : List Nat) (id : Nat) (s : State ω σ) : Result (State ω σ) :=
  let s' := { s with objects := { s.objects with proposals := s.objects.proposals.remove id } }
  if id ∈ executing then .undefined s' else .ok s'

/-- Note an operation on a proposal that is under execution. -/
def State.disturb (executing : List Nat) (id : Nat) (s : State ω σ) : State ω σ :=
  if id ∈ executing then { s with disturbed := s.disturbed ++ [id] } else s

/-- Continue after a computation that returned. -/
def Result.andThen {α : Type} (x : Result α) (f : α → Result α) : Result α :=
  match x with
  | .ok s => f s
  | .thrown s => .thrown s
  | .undefined s => .undefined s

/-- A call that changes the other objects and may throw. -/
def State.call (s : State ω σ) (f : σ → Bool × σ) : Result (State ω σ) :=
  if (f s.objects.rest).1 then .ok (s.setRest (f s.objects.rest).2)
  else .thrown (s.setRest (f s.objects.rest).2)

section

variable (r : Rules ω σ) (push : List Nat → Nat → Proposal ω → State ω σ → Result (State ω σ))
  (executing : List Nat)

/-- `proposal_update_evaluator::do_apply`: a proposal that is authorized and has no review period is
executed, and a failure of that is noted. -/
def applyUpdate (op : ProposalUpdate) (p : Proposal ω) (s : State ω σ) : Result (State ω σ) :=
  let p' := op.approve p
  let s := s.setProposal op.proposal p'
  if p'.reviewPeriodTime.isNone && p'.isAuthorizedToExecute r s.objects.rest then
    match push executing op.proposal p' (s.disturb executing op.proposal) with
    | .thrown s => .ok (s.setProposal op.proposal { p' with failed := true })
    | x => x
  else .ok s

/-- `proposal_delete_evaluator::do_apply` -/
def applyDelete (op : ProposalDelete) (s : State ω σ) : Result (State ω σ) :=
  (s.disturb executing op.proposal).removeProposal executing op.proposal

/-- The evaluation of an operation on a proposal that exists and passes `do_evaluate`: the fee is
converted and paid, the operation is applied, and the fee is charged. -/
def withFee (op : Operation ω) (doApply : State ω σ → Result (State ω σ)) (s : State ω σ) :
    Result (State ω σ) :=
  ((s.call (r.payFee op)).andThen doApply).andThen fun s => s.call (r.chargeFee op)

/-- `apply_operation` -/
def applyOperation (op : Operation ω) (s : State ω σ) : Result (State ω σ) :=
  let s := { s with appliedOps := s.appliedOps ++ [some op] }
  match op with
  | .other o =>
    let x := r.evaluate o s.objects.headBlockTime s.objects.rest
    let s := { s.setRest x.2.1 with appliedOps := s.appliedOps ++ x.2.2.map (some ∘ Operation.other) }
    if x.1 then .ok s else .thrown s
  | .proposalCreate payer ops expiration review =>
    if r.prepareFee op s.objects.rest && evaluateCreate r ops expiration review s.objects then
      withFee r op (fun s => .ok { s with objects := { s.objects with
        proposals := s.objects.proposals.create (newProposal r payer ops expiration review) } }) s
    else .thrown s
  | .proposalUpdate u =>
    match s.objects.proposals.find u.proposal with
    | none => .thrown s
    | some p =>
      if r.prepareFee op s.objects.rest && u.evaluate p s.objects.headBlockTime then
        withFee r op (applyUpdate r push executing u p) s
      else .thrown s
  | .proposalDelete d =>
    match s.objects.proposals.find d.proposal with
    | none => .thrown s
    | some p =>
      if r.prepareFee op s.objects.rest && d.evaluate p then
        withFee r op (applyDelete executing d) s
      else .thrown s

/-- The operations of a transaction in order. -/
def applyOperations : List (Operation ω) → State ω σ → Result (State ω σ)
  | [], s => .ok s
  | op :: ops, s => (applyOperation r push executing op s).andThen (applyOperations ops)

end

/-- The handler of `push_proposal`, after the session took back the changes: up to hard fork 483 the
new entries of the applied operations are reset, since then they are dropped. -/
def State.failProposal (before after : State ω σ) : State ω σ :=
  { after with
    objects := before.objects
    appliedOps :=
      if before.objects.headBlockTime ≤ hardfork483Time then
        after.appliedOps.take before.appliedOps.length ++
          (after.appliedOps.drop before.appliedOps.length).map fun _ => none
      else after.appliedOps.take before.appliedOps.length }

/-- `push_proposal` with the levels that the nesting guard leaves. -/
def pushProposal (r : Rules ω σ) : Nat → List Nat → Nat → Proposal ω → State ω σ →
    Result (State ω σ)
  | 0, _, _, _, s => .thrown (s.failProposal s)
  | levels + 1, executing, id, p, s =>
    match (applyOperations r (pushProposal r levels) (id :: executing) p.operations s).andThen
        (State.removeProposal executing id) with
    | .ok t => .ok { t with objects := { t.objects with executed := t.objects.executed ++ [id] } }
    | .thrown t => .thrown (s.failProposal t)
    | .undefined t => .undefined t

/-- `push_proposal_nesting_guard` -/
def Objects.nestingLevels (o : Objects ω σ) : Nat := o.activeWitnesses * 2

/-- The operations of a transaction in a session of their own. -/
def applyTransaction (r : Rules ω σ) (ops : List (Operation ω)) (s : State ω σ) :
    Result (State ω σ) :=
  match applyOperations r (pushProposal r s.objects.nestingLevels) [] ops s with
  | .thrown t => .thrown { t with objects := s.objects }
  | x => x

/-- The proposals that have expired, as `by_expiration` orders them. -/
def Objects.expiredProposals (o : Objects ω σ) : List (Nat × Proposal ω) :=
  (o.proposals.rows.filter fun x => decide (x.2.expirationTime ≤ o.headBlockTime)).insertionSort
    fun x y => x.2.expirationTime ≤ y.2.expirationTime

/-- `clear_expired_proposals`, for at most so many rounds. -/
def clearExpiredProposals (r : Rules ω σ) : Nat → State ω σ → Result (State ω σ)
  | 0, s => .ok s
  | rounds + 1, s =>
    match s.objects.expiredProposals with
    | [] => .ok s
    | (id, p) :: _ =>
      if p.isAuthorizedToExecute r s.objects.rest then
        match pushProposal r s.objects.nestingLevels [] id p s with
        | .ok t => clearExpiredProposals r rounds t
        | .thrown t => (t.removeProposal [] id).andThen (clearExpiredProposals r rounds)
        | .undefined t => .undefined t
      else (s.removeProposal [] id).andThen (clearExpiredProposals r rounds)

end

end Nestchain.Proposals
