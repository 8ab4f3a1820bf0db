import Nestchain.Proposals.Execution

/-! The operations that take effect.  For a computation that returns, they are listed in order, each
with the proposal that it is an operation of, as that proposal is executed, and with the objects
that it is applied to; what a session takes back is not among them.  A run of the chain keeps the
list, and with it the proposals as they were when their review period began. -/

namespace Nestchain.Proposals

open Nestchain.Lib Nestchain.Protocol

variable {ω σ : Type}

structure Applied (ω σ : Type) where
  op : Operation ω
  within : Option (Nat × Proposal ω)
  objects : Objects ω σ

section

variable (r : Rules ω σ) (push : List Nat → Nat → Proposal ω → State ω σ → Result (State ω σ))
  (pushEffects : List Nat → Nat → Proposal ω → State ω σ → List (Applied ω σ))
    (executing : List Nat)
  (within : Option (Nat × Proposal ω))

/-- What takes effect in `applyUpdate` besides the approvals. -/
def updateEffects (op : ProposalUpdate) (p : Proposal ω) (s : State ω σ) : List (Applied ω σ) :=
  let p' := op.approve p
  let s := s.setProposal op.proposal p'
  if p'.reviewPeriodTime.isNone && p'.isAuthorizedToExecute r s.objects.rest then
    pushEffects executing op.proposal p' (s.disturb executing op.proposal)
  else []

/-- What takes effect in an `applyOperation` that returns. -/
def operationEffects (op : Operation ω) (s : State ω σ) : List (Applied ω σ) :=
  ⟨op, within, s.objects⟩ ::
    match op with
    | .proposalUpdate u =>
      match s.objects.proposals.find u.proposal,
        { s with appliedOps := s.appliedOps ++ [some op] }.call (r.payFee op) with
      | some p, .ok s => updateEffects r pushEffects executing u p s
      | _, _ => []
    | _ => []

/-- What takes effect in an `applyOperations` that returns. -/
def operationsEffects : List (Operation ω) → State ω σ → List (Applied ω σ)
  | [], _ => []
  | op :: ops, s => operationEffects r pushEffects executing within op s ++
      match applyOperation r push executing op s with
      | .ok t => operationsEffects ops t
      | _ => []

end

/-- What takes effect in `pushProposal`, which is nothing when it does not return. -/
def pushEffects (r : Rules ω σ) : Nat → List Nat → Nat → Proposal ω → State ω σ → List (Applied ω σ)
  | 0, _, _, _, _ => []
  | levels + 1, executing, id, p, s =>
    match pushProposal r (levels + 1) executing id p s with
    | .ok _ => operationsEffects r (pushProposal r levels) (pushEffects r levels) (id :: executing)
        (some (id, p)) p.operations s
    | _ => []

def transactionEffects (r : Rules ω σ) (ops : List (Operation ω)) (s : State ω σ) :
    List (Applied ω σ) :=
  operationsEffects r (pushProposal r s.objects.nestingLevels)
    (pushEffects r s.objects.nestingLevels) []
    none ops s

/-- What takes effect in `clearExpiredProposals`. -/
def expirationEffects (r : Rules ω σ) : Nat → State ω σ → List (Applied ω σ)
  | 0, _ => []
  | rounds + 1, s =>
    let removed (t : State ω σ) : List (Applied ω σ) :=
      match s.objects.expiredProposals with
      | (id, _) :: _ =>
        match t.removeProposal [] id with
        | .ok u => expirationEffects r rounds u
        | _ => []
      | [] => []
    match s.objects.expiredProposals with
    | [] => []
    | (id, p) :: _ =>
      if p.isAuthorizedToExecute r s.objects.rest then
        match pushProposal r s.objects.nestingLevels [] id p s with
        | .ok t => pushEffects r s.objects.nestingLevels [] id p s ++ expirationEffects r rounds t
        | .thrown t => removed t
        | .undefined _ => []
      else removed s

/-- A transaction with the keys of its signatures: `verify_authority` does not let the committee
approve, and then the operations are applied. -/
def submit (r : Rules ω σ) (ops : List (Operation ω)) (sigs : Finset PublicKey) (s : State ω σ) :
    Result (State ω σ) :=
  match verifyAuthority (ops.map (Operation.required r)) sigs (r.getActive s.objects.rest)
      (r.getOwner s.objects.rest) (r.maxAuthorityDepth s.objects.rest) false ∅ ∅ with
  | .ok _ => applyTransaction r ops s
  | .error _ => .thrown s

/-- The proposals as they are when the head time first reaches their `review_period_time`, which it
does when it moves to `time`. -/
def startReviews (o : Objects ω σ) (time : Nat) (reviewed : Nat → Option (Proposal ω)) (id : Nat) :
    Option (Proposal ω) :=
  match reviewed id with
  | some p => some p
  | none => (o.proposals.find id).filter fun p => p.reviewPeriodTime.any fun t => decide (t ≤ time)

/-- The states of a chain that starts without proposals, with what has taken effect on the way and
the proposals at the start of their review period. -/
inductive Run (r : Rules ω σ) : List (Applied ω σ) → (Nat → Option (Proposal ω)) → State ω σ → Prop
  | genesis {s : State ω σ} : s.objects.proposals.rows = [] → Run r [] (fun _ => none) s
  | transaction {applied reviewed} {s t : State ω σ} (ops : List (Operation ω))
    (sigs : Finset PublicKey) :
    Run r applied reviewed s → submit r ops sigs s = .ok t →
    Run r (applied ++ transactionEffects r ops s) reviewed t
  | refused {applied reviewed} {s t : State ω σ} (ops : List (Operation ω))
    (sigs : Finset PublicKey) :
    Run r applied reviewed s → submit r ops sigs s = .thrown t → Run r applied reviewed t
  | expiration {applied reviewed} {s t : State ω σ} : Run r applied reviewed s →
    clearExpiredProposals r s.objects.expiredProposals.length s = .ok t →
    Run r (applied ++ expirationEffects r s.objects.expiredProposals.length s) reviewed t
  | elsewhere {applied reviewed} {s : State ω σ} (rest : σ) (time witnesses : Nat) (appliedOps) :
    Run r applied reviewed s → s.objects.headBlockTime ≤ time →
    Run r applied (startReviews s.objects time reviewed) { s with
      objects := { s.objects with rest := rest, headBlockTime := time, activeWitnesses :=
        witnesses }
      appliedOps := appliedOps }

end Nestchain.Proposals
