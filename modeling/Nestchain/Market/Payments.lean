import Nestchain.Market.Expiry
import Mathlib.Logic.Relation

/-! The operations that move money outside the market, and the runs of a ledger: operations of the
market and payments, with what a block does in between. -/

namespace Nestchain.Market

open Lib

/-! ### Payments -/

structure Transfer where
  fee : Asset
  sender : AccountId
  receiver : AccountId
  amount : Asset

namespace Transfer

def doEvaluate (op : Transfer) (L : Ledger) : Attempt Unit := do
  let sender ← demand (L.accounts.find op.sender)
  let receiver ← demand (L.accounts.find op.receiver)
  let a ← L.asset op.amount.assetId
  require (sender.isAuthorizedAsset op.amount.assetId a.options = true)
  require (receiver.isAuthorizedAsset op.amount.assetId a.options = true)
  require (a.options.transferRestricted = false ∨ op.sender = a.issuer ∨ op.receiver = a.issuer)
  require (op.amount.amount ≤ (L.getBalance op.sender op.amount.assetId).amount)

def doApply (op : Transfer) (L : Ledger) : Attempt Ledger := do
  let L ← L.adjustBalance op.sender op.amount.neg
  L.adjustBalance op.receiver op.amount

def apply (op : Transfer) (requiredFee : Int) (skipFeeScheduleCheck : Bool) (L : Ledger) :
    Attempt Ledger := do
  require (0 ≤ op.fee.amount ∧ op.sender ≠ op.receiver ∧ 0 < op.amount.amount)
  let coreFeePaid ← L.evaluateFee op.sender op.fee requiredFee skipFeeScheduleCheck
  op.doEvaluate L
  L.applyWithFee op.sender op.fee coreFeePaid op.doApply

end Transfer

structure AssetIssue where
  fee : Asset
  issuer : AccountId
  assetToIssue : Asset
  issueToAccount : AccountId

namespace AssetIssue

def doEvaluate (op : AssetIssue) (L : Ledger) : Attempt Unit := do
  let a ← L.asset op.assetToIssue.assetId
  require (op.issuer = a.issuer)
  require (a.bitassetData = none)
  let receiver ← demand (L.accounts.find op.issueToAccount)
  require (receiver.isAuthorizedAsset op.assetToIssue.assetId a.options = true)
  require (a.dynamicData.currentSupply + op.assetToIssue.amount ≤ a.options.maxSupply)

def doApply (op : AssetIssue) (L : Ledger) : Attempt Ledger := do
  let L ← L.adjustBalance op.issueToAccount op.assetToIssue
  L.modifyDynamicData op.assetToIssue.assetId fun d =>
    { d with currentSupply := d.currentSupply + op.assetToIssue.amount }

def apply (op : AssetIssue) (requiredFee : Int) (skipFeeScheduleCheck : Bool) (L : Ledger) :
    Attempt Ledger := do
  require (0 ≤ op.fee.amount ∧ op.assetToIssue.amount ≤ maxShareSupply ∧
    0 < op.assetToIssue.amount ∧ op.assetToIssue.assetId ≠ coreAsset)
  let coreFeePaid ← L.evaluateFee op.issuer op.fee requiredFee skipFeeScheduleCheck
  op.doEvaluate L
  L.applyWithFee op.issuer op.fee coreFeePaid op.doApply

end AssetIssue

structure AssetReserve where
  fee : Asset
  payer : AccountId
  amountToReserve : Asset

namespace AssetReserve

def doEvaluate (op : AssetReserve) (L : Ledger) : Attempt Unit := do
  let a ← L.asset op.amountToReserve.assetId
  require (a.bitassetData = none)
  let payer ← demand (L.accounts.find op.payer)
  require (payer.isAuthorizedAsset op.amountToReserve.assetId a.options = true)
  require (0 ≤ a.dynamicData.currentSupply - op.amountToReserve.amount)

def doApply (op : AssetReserve) (L : Ledger) : Attempt Ledger := do
  let L ← L.adjustBalance op.payer op.amountToReserve.neg
  L.modifyDynamicData op.amountToReserve.assetId fun d =>
    { d with currentSupply := d.currentSupply - op.amountToReserve.amount }

def apply (op : AssetReserve) (requiredFee : Int) (skipFeeScheduleCheck : Bool) (L : Ledger) :
    Attempt Ledger := do
  require (0 ≤ op.fee.amount ∧ op.amountToReserve.amount ≤ maxShareSupply ∧
    0 < op.amountToReserve.amount)
  let coreFeePaid ← L.evaluateFee op.payer op.fee requiredFee skipFeeScheduleCheck
  op.doEvaluate L
  L.applyWithFee op.payer op.fee coreFeePaid op.doApply

end AssetReserve

structure AssetFundFeePool where
  fee : Asset
  fromAccount : AccountId
  assetId : AssetId
  amount : Int

namespace AssetFundFeePool

def doApply (op : AssetFundFeePool) (L : Ledger) : Attempt Ledger := do
  let L ← L.adjustBalance op.fromAccount (Asset.mk op.amount coreAsset).neg
  L.modifyDynamicData op.assetId fun d => { d with feePool := d.feePool + op.amount }

def apply (op : AssetFundFeePool) (requiredFee : Int) (skipFeeScheduleCheck : Bool) (L : Ledger) :
    Attempt Ledger := do
  require (0 ≤ op.fee.amount ∧ op.fee.assetId = coreAsset ∧ 0 < op.amount)
  let coreFeePaid ← L.evaluateFee op.fromAccount op.fee requiredFee skipFeeScheduleCheck
  let _ ← L.asset op.assetId
  L.applyWithFee op.fromAccount op.fee coreFeePaid op.doApply

end AssetFundFeePool

structure AssetClaimFees where
  fee : Asset
  issuer : AccountId
  amountToClaim : Asset

namespace AssetClaimFees

def doApply (op : AssetClaimFees) (L : Ledger) : Attempt Ledger := do
  let a ← L.asset op.amountToClaim.assetId
  require (op.amountToClaim.amount ≤ a.dynamicData.accumulatedFees)
  let L ← L.modifyDynamicData op.amountToClaim.assetId fun d =>
    { d with accumulatedFees := d.accumulatedFees - op.amountToClaim.amount }
  L.adjustBalance op.issuer op.amountToClaim

def apply (op : AssetClaimFees) (requiredFee : Int) (skipFeeScheduleCheck : Bool) (L : Ledger) :
    Attempt Ledger := do
  require (0 ≤ op.fee.amount ∧ 0 < op.amountToClaim.amount)
  let coreFeePaid ← L.evaluateFee op.issuer op.fee requiredFee skipFeeScheduleCheck
  let a ← L.asset op.amountToClaim.assetId
  require (a.issuer = op.issuer)
  L.applyWithFee op.issuer op.fee coreFeePaid op.doApply

end AssetClaimFees

/-- The operations outside the market that are modelled here. -/
inductive Payment where
  | transfer (op : Transfer)
  | assetIssue (op : AssetIssue)
  | assetReserve (op : AssetReserve)
  | assetFundFeePool (op : AssetFundFeePool)
  | assetClaimFees (op : AssetClaimFees)

def Payment.apply (requiredFee : Int) (skipFeeScheduleCheck : Bool) (L : Ledger) :
    Payment → Attempt Ledger
  | .transfer op => op.apply requiredFee skipFeeScheduleCheck L
  | .assetIssue op => op.apply requiredFee skipFeeScheduleCheck L
  | .assetReserve op => op.apply requiredFee skipFeeScheduleCheck L
  | .assetFundFeePool op => op.apply requiredFee skipFeeScheduleCheck L
  | .assetClaimFees op => op.apply requiredFee skipFeeScheduleCheck L

/-! ### Runs -/

/-- A step of a ledger.  A computation that throws leaves no step, and the loops run for as many
rounds as they need.  The issuer and the options of an asset may change to any, and those of a
market-issued asset to any with the same backing. -/
inductive Step : Ledger → Ledger → Prop
  | operation {L L' : Ledger} (rounds : Nat) (skipFeeScheduleCheck : Bool) (op : Operation)
      (h : op.apply rounds skipFeeScheduleCheck L = .ok L') : Step L L'
  | payment {L L' : Ledger} (requiredFee : Int) (skipFeeScheduleCheck : Bool) (op : Payment)
      (h : op.apply requiredFee skipFeeScheduleCheck L = .ok L') : Step L L'
  | clearExpiredOrders {L L' : Ledger} (rounds : Nat)
      (h : L.clearExpiredOrders rounds = .ok L') : Step L L'
  | updateExpiredFeed {L L' : Ledger} (rounds : Nat) (mia : AssetId)
      (h : L.updateExpiredFeed rounds mia = .ok L') : Step L L'
  | updateFeedProducers {L L' : Ledger} (rounds : Nat) (mia : AssetId) (producers : List AccountId)
      (h : L.updateFeedProducers rounds mia producers = .ok L') : Step L L'
  | processBitassets {L L' : Ledger} (h : L.processBitassets = .ok L') : Step L L'
  | assetUpdate {L : Ledger} {id : AssetId} {a : AssetObject} (issuer : AccountId)
      (options : AssetOptions) (ha : L.assets.find id = some a)
      (hissuer : (L.accounts.find issuer).isSome) :
      Step L { L with assets := L.assets.set id { a with issuer := issuer, options := options } }
  | assetUpdateBitasset {L L' : Ledger} {id : AssetId} {b : BitassetData}
      (options : BitassetOptions) (hb : L.bitasset id = .ok b)
      (hbacking : options.shortBackingAsset = b.options.shortBackingAsset)
      (h : L.modifyBitasset id (fun b => { b with options := options }) = .ok L') : Step L L'
  | advance (L : Ledger) (time : Nat) (h : L.headBlockTime ≤ time) :
      Step L { L with headBlockTime := time }
  | schedule (L : Ledger) (parameters : Parameters) : Step L { L with parameters := parameters }

def Run : Ledger → Ledger → Prop := Relation.ReflTransGen Step

/-- Operations of the market one after the other, with at most so many rounds in each loop. -/
def Ledger.perform (rounds : Nat) (ops : List Operation) (L : Ledger) : Attempt Ledger :=
  ops.foldlM (fun L op => op.apply rounds false L) L

theorem Ledger.perform_run {rounds : Nat} {ops : List Operation} {L L' : Ledger}
    (h : L.perform rounds ops = .ok L') : Run L L' :=
  foldlM_invariant (P := Run L) (fun _ op _ hrun hop => hrun.tail (.operation rounds false op hop))
    ops L L' Relation.ReflTransGen.refl h

end Nestchain.Market
