import Nestchain.Market.Operations
import Nestchain.Protocol.Authority
import Mathlib.Data.List.Chain

/-! Confidential transfers.  A blinded balance holds a commitment to its value in place of the
value; the values are hidden, and the code sees of them what the elliptic curve lets it check.  The
public side is a ledger of the market, which has the balances, the fees and the pools; the head time
is past the hard fork that routes the fees of these operations to accumulators. -/

namespace Nestchain.Confidential

open Lib Market
open Protocol (Authority tempAccount)

/-! ### The curve -/

/-- What the code reads of the header of a range proof. -/
structure RangeProofInfo where
  maxValue : Nat
deriving DecidableEq

/-- The part of `fc::ecc` that the operations use.  A commitment is to one value and one blinding
factor, which are numbers modulo the order of the group, and `range_get_info` sees nothing of a
commitment. -/
structure Ecc (C : Type) where
  order : Nat
  value : C → Nat
  blinding : C → Nat
  blind : Nat → Nat → C
  rangeGetInfo : List UInt8 → Attempt RangeProofInfo
  order_large : 2 ^ 128 ≤ order
  value_lt : ∀ c, value c < order
  value_blind : ∀ factor v, value (blind factor v) = v % order

variable {C : Type}

def Ecc.valueOf (E : Ecc C) (l : List C) : Int := (l.map fun c => (E.value c : Int)).sum

/-- The sum of the commitments that come in is that of those that go out and the excess. -/
def Ecc.verifySum (E : Ecc C) (commitsIn negCommitsIn : List C) (excess : Int) : Prop :=
  (E.valueOf commitsIn - (E.valueOf negCommitsIn + excess)) % E.order = 0 ∧
    ((commitsIn.map fun c => (E.blinding c : Int)).sum -
      (negCommitsIn.map fun c => (E.blinding c : Int)).sum) % E.order = 0

instance (E : Ecc C) (commitsIn negCommitsIn : List C) (excess : Int) :
    Decidable (E.verifySum commitsIn negCommitsIn excess) := inferInstanceAs (Decidable (_ ∧ _))

/-! ### The state -/

/-- `authority`, here with `address_auths`. -/
structure Owner extends Authority where
  addressAuths : List (Nat × Nat)
deriving DecidableEq

structure BlindedBalance (C : Type) where
  commitment : C
  assetId : AssetId
  owner : Owner

/-- The accumulators of the fees of the three operations. -/
inductive Fba where
  | transferToBlind
  | blindTransfer
  | transferFromBlind
deriving DecidableEq

/-- `allow_confidential` is the flag of an asset that the ledger of the market does not have, and
`configured` is `is_configured` of the accumulators. -/
structure State (C : Type) where
  ledger : Ledger
  allowConfidential : AssetId → Bool
  configured : Fba → Bool
  accumulatedFbaFees : Fba → Int
  confidentialSupply : AssetId → Int
  blinded : Table (BlindedBalance C)

/-- The result of an operation of `share_type`, which throws when it does not fit in 64 bits. -/
def share (x : Int) : Attempt Int := do
  require (-2 ^ 63 ≤ x ∧ x < 2 ^ 63)
  pure x

/-- The sum of the weights is less than the threshold. -/
def isImpossible (a : Owner) : Bool :=
  decide ((a.accountAuths.map Prod.snd).sum + (a.keyAuths.map Prod.snd).sum +
    (a.addressAuths.map Prod.snd).sum < a.weightThreshold)

namespace State

def adjustBalance (s : State C) (account : AccountId) (delta : Asset) : Attempt (State C) := do
  let ledger ← s.ledger.adjustBalance account delta
  pure { s with ledger := ledger }

/-- Add to the `confidential_supply` of an asset, which may not become negative. -/
def addConfidential (s : State C) (id : AssetId) (delta : Int) : Attempt (State C) := do
  let _ ← s.ledger.asset id
  let supply ← share (s.confidentialSupply id + delta)
  require (0 ≤ supply)
  pure { s with confidentialSupply := Function.update s.confidentialSupply id supply }

/-- `pay_fba_fee` -/
def payFbaFee (s : State C) (fba : Fba) (account : AccountId) (coreFeePaid : Int) :
    Attempt (State C) :=
  if s.configured fba then
    pure { s with accumulatedFbaFees :=
      Function.update s.accumulatedFbaFees fba (s.accumulatedFbaFees fba + coreFeePaid) }
  else do
    let ledger ← s.ledger.payFee account coreFeePaid
    pure { s with ledger := ledger }

/-- `evaluator::apply` -/
def applyWithFee (s : State C) (fba : Fba) (account : AccountId) (fee : Asset) (coreFeePaid : Int)
    (doApply : State C → Attempt (State C)) : Attempt (State C) := do
  let ledger ← s.ledger.convertFee fee coreFeePaid
  let s ← { s with ledger := ledger }.payFbaFee fba account coreFeePaid
  let s ← doApply s
  s.adjustBalance account fee.neg

end State

/-! ### Inputs and outputs -/

structure BlindInput (C : Type) where
  commitment : C
  owner : Owner

structure BlindOutput (C : Type) where
  commitment : C
  rangeProof : List UInt8
  owner : Owner

variable [LinearOrder C]

/-- The balance with a commitment, with its id. -/
def findCommitment (t : Table (BlindedBalance C)) (c : C) : Option (Nat × BlindedBalance C) :=
  t.findBy fun b => b.commitment = c

/-- The loop over the inputs, whose index is a `uint32_t`: over a longer list it does not end. -/
def checkInputs (inputs : List (BlindInput C)) : Attempt Unit := do
  require (inputs.length < 2 ^ 32)
  require ((inputs.map BlindInput.commitment).IsChain (· < ·))

def checkOutputs (outputs : List (BlindOutput C)) : Attempt Unit := do
  require (outputs.length < 2 ^ 32)
  require ((outputs.map BlindOutput.commitment).IsChain (· < ·))
  require (∀ out ∈ outputs, isImpossible out.owner = false)

/-- The range proofs, which are looked at when there is more than one output. -/
def checkRangeProofs (E : Ecc C) (outputs : List (BlindOutput C)) : Attempt Unit :=
  if 1 < outputs.length then
    outputs.forM fun out => do
      let info ← E.rangeGetInfo out.rangeProof
      require ((info.maxValue : Int) ≤ maxShareSupply)
  else pure ()

/-- The inputs are there, in the asset of the fee and with their owners. -/
def evaluateInputs (inputs : List (BlindInput C)) (id : AssetId) (s : State C) : Attempt Unit :=
  inputs.forM fun i => do
    let r ← demand (findCommitment s.blinded i.commitment)
    require (r.2.assetId = id)
    require (r.2.owner = i.owner)

/-- The accounts in the owners of the outputs exist. -/
def evaluateOutputs (outputs : List (BlindOutput C)) (s : State C) : Attempt Unit :=
  require (∀ out ∈ outputs, ∀ r ∈ out.owner.accountAuths,
    (s.ledger.accounts.find r.1).isSome = true)

def spend (t : Table (BlindedBalance C)) (i : BlindInput C) :
    Attempt (Table (BlindedBalance C)) := do
  let r ← demand (findCommitment t i.commitment)
  pure (t.remove r.1)

/-- A new balance, whose commitment no other has. -/
def issue (id : AssetId) (t : Table (BlindedBalance C)) (out : BlindOutput C) :
    Attempt (Table (BlindedBalance C)) := do
  require ((findCommitment t out.commitment).isNone = true)
  pure (t.create ⟨out.commitment, id, out.owner⟩)

namespace State

def spend (s : State C) (inputs : List (BlindInput C)) : Attempt (State C) := do
  let blinded ← inputs.foldlM Confidential.spend s.blinded
  pure { s with blinded := blinded }

def issue (s : State C) (id : AssetId) (outputs : List (BlindOutput C)) : Attempt (State C) := do
  let blinded ← outputs.foldlM (Confidential.issue id) s.blinded
  pure { s with blinded := blinded }

end State

/-! ### The operations -/

structure TransferToBlind (C : Type) where
  fee : Asset
  amount : Asset
  sender : AccountId
  blindingFactor : Nat
  outputs : List (BlindOutput C)

structure TransferFromBlind (C : Type) where
  fee : Asset
  amount : Asset
  receiver : AccountId
  blindingFactor : Nat
  inputs : List (BlindInput C)

structure BlindTransfer (C : Type) where
  fee : Asset
  inputs : List (BlindInput C)
  outputs : List (BlindOutput C)

namespace TransferToBlind

def validate (E : Ecc C) (op : TransferToBlind C) : Attempt Unit := do
  require (0 ≤ op.fee.amount)
  require (0 < op.amount.amount)
  checkOutputs op.outputs
  require (op.outputs.length ≠ 0)
  let publicC := E.blind op.blindingFactor op.amount.amount.toNat
  require (E.verifySum [publicC] (op.outputs.map BlindOutput.commitment) 0)
  checkRangeProofs E op.outputs

def doEvaluate (op : TransferToBlind C) (s : State C) : Attempt Unit := do
  let a ← s.ledger.asset op.amount.assetId
  require (s.allowConfidential op.amount.assetId = true)
  require (a.options.transferRestricted = false)
  require (a.options.whiteList = false)
  evaluateOutputs op.outputs s

def doApply (op : TransferToBlind C) (s : State C) : Attempt (State C) := do
  let s ← s.adjustBalance op.sender op.amount.neg
  let s ← s.addConfidential op.amount.assetId op.amount.amount
  s.issue op.amount.assetId op.outputs

end TransferToBlind

namespace TransferFromBlind

/-- `net_public`, a sum of plain 64-bit integers. -/
def netPublic (op : TransferFromBlind C) : Int := (op.fee.amount + op.amount.amount).bmod (2 ^ 64)

def validate (E : Ecc C) (op : TransferFromBlind C) : Attempt Unit := do
  require (0 < op.amount.amount)
  require (0 ≤ op.fee.amount)
  require (0 < op.inputs.length)
  require (op.amount.assetId = op.fee.assetId)
  let out := E.blind op.blindingFactor (op.netPublic % 2 ^ 64).toNat
  checkInputs op.inputs
  require (E.verifySum (op.inputs.map BlindInput.commitment) [out] 0)

def doEvaluate (op : TransferFromBlind C) (s : State C) : Attempt Unit := do
  let _ ← s.ledger.asset op.fee.assetId
  evaluateInputs op.inputs op.fee.assetId s

def doApply (op : TransferFromBlind C) (s : State C) : Attempt (State C) := do
  let s ← s.adjustBalance tempAccount op.fee
  let s ← s.adjustBalance op.receiver op.amount
  let s ← s.spend op.inputs
  let total ← share (op.amount.amount + op.fee.amount)
  s.addConfidential op.amount.assetId (-total)

end TransferFromBlind

namespace BlindTransfer

def validate (E : Ecc C) (op : BlindTransfer C) : Attempt Unit := do
  checkInputs op.inputs
  checkOutputs op.outputs
  require (op.inputs.length ≠ 0)
  require (E.verifySum (op.inputs.map BlindInput.commitment) (op.outputs.map BlindOutput.commitment)
    op.fee.amount)
  checkRangeProofs E op.outputs

def doEvaluate (op : BlindTransfer C) (s : State C) : Attempt Unit := do
  let _ ← s.ledger.asset op.fee.assetId
  evaluateOutputs op.outputs s
  evaluateInputs op.inputs op.fee.assetId s

def doApply (op : BlindTransfer C) (s : State C) : Attempt (State C) := do
  let s ← s.adjustBalance tempAccount op.fee
  let s ← s.spend op.inputs
  let s ← s.issue op.fee.assetId op.outputs
  s.addConfidential op.fee.assetId (-op.fee.amount)

end BlindTransfer

inductive Operation (C : Type) where
  | transferToBlind (op : TransferToBlind C)
  | transferFromBlind (op : TransferFromBlind C)
  | blindTransfer (op : BlindTransfer C)

namespace Operation

/-- The commitments that an operation spends. -/
def inputs : Operation C → List C
  | transferToBlind _ => []
  | transferFromBlind op => op.inputs.map BlindInput.commitment
  | blindTransfer op => op.inputs.map BlindInput.commitment

/-- The commitments that an operation creates. -/
def outputs : Operation C → List C
  | transferToBlind op => op.outputs.map BlindOutput.commitment
  | transferFromBlind _ => []
  | blindTransfer op => op.outputs.map BlindOutput.commitment

def fee : Operation C → Asset
  | transferToBlind op => op.fee
  | transferFromBlind op => op.fee
  | blindTransfer op => op.fee

def feePayer : Operation C → AccountId
  | transferToBlind op => op.sender
  | transferFromBlind _ => tempAccount
  | blindTransfer _ => tempAccount

def fba : Operation C → Fba
  | transferToBlind _ => .transferToBlind
  | transferFromBlind _ => .transferFromBlind
  | blindTransfer _ => .blindTransfer

def validate (E : Ecc C) : Operation C → Attempt Unit
  | transferToBlind op => op.validate E
  | transferFromBlind op => op.validate E
  | blindTransfer op => op.validate E

def doEvaluate (s : State C) : Operation C → Attempt Unit
  | transferToBlind op => op.doEvaluate s
  | transferFromBlind op => op.doEvaluate s
  | blindTransfer op => op.doEvaluate s

def doApply (s : State C) : Operation C → Attempt (State C)
  | transferToBlind op => op.doApply s
  | transferFromBlind op => op.doApply s
  | blindTransfer op => op.doApply s

/-- An operation with its fee, which the schedule requires to be `requiredFee` at least. -/
def apply (E : Ecc C) (requiredFee : Int) (op : Operation C) (s : State C) : Attempt (State C) := do
  op.validate E
  let coreFeePaid ← s.ledger.evaluateFee op.feePayer op.fee requiredFee false
  op.doEvaluate s
  s.applyWithFee op.fba op.feePayer op.fee coreFeePaid op.doApply

end Operation

/-- Operations that are accepted one after the other. -/
def run (E : Ecc C) (requiredFee : Operation C → Int) (ops : List (Operation C)) (s : State C) :
    Attempt (State C) :=
  ops.foldlM (fun s op => op.apply E (requiredFee op) s) s

end Nestchain.Confidential
