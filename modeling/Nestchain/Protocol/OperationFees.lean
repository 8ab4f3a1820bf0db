import Nestchain.Market.Price

/-! What each operation costs in CORE before scaling: the parameters of its fee with their defaults,
and `calculate_fee` of its type. -/

namespace Nestchain.Protocol.Fees

open Market

/-! ### Operation types -/

/-- The operations that cost the one fee of their parameters, as `base_operation` has it. -/
inductive PlainOperation where
  | limitOrderCreate
  | limitOrderCancel
  | callOrderUpdate
  | accountWhitelist
  | accountTransfer
  | assetUpdateBitasset
  | assetUpdateFeedProducers
  | assetReserve
  | assetFundFeePool
  | assetSettle
  | assetGlobalSettle
  | assetPublishFeed
  | witnessCreate
  | witnessUpdate
  | proposalDelete
  | withdrawPermissionCreate
  | withdrawPermissionUpdate
  | withdrawPermissionDelete
  | committeeMemberCreate
  | committeeMemberUpdate
  | committeeMemberUpdateGlobalParameters
  | vestingBalanceCreate
  | vestingBalanceWithdraw
  | workerCreate
  | transferFromBlind
  | assetClaimFees
  | smartContractDeploy
  | smartContractActivate
  | smartContractDeactivate
  | smartContractKill
  | smartContractCall
  | bidCollateral
  | assetClaimPool
  | assetUpdateIssuer
deriving DecidableEq

/-- The operations without parameters, which cost nothing. -/
inductive FreeOperation where
  | fillOrder
  | balanceClaim
  | assetSettleCancel
  | fbaDistribute
  | executeBid
deriving DecidableEq

/-- The types of `operation`. -/
inductive OperationType where
  | plain (op : PlainOperation)
  | free (op : FreeOperation)
  | transfer
  | overrideTransfer
  | sendMessage
  | withdrawPermissionClaim
  | assetIssue
  | custom
  | proposalCreate
  | proposalUpdate
  | assetUpdate
  | accountCreate
  | accountUpdate
  | accountUpgrade
  | assetCreate
  | transferToBlind
  | blindTransfer
  | assert
  | pio
deriving DecidableEq

/-! ### Parameters -/

structure KbyteParameters where
  fee : UInt64
  pricePerKbyte : UInt32
deriving DecidableEq

structure OutputParameters where
  fee : UInt64
  pricePerOutput : UInt32
deriving DecidableEq

structure AccountParameters where
  basicFee : UInt64
  premiumFee : UInt64
  pricePerKbyte : UInt32
deriving DecidableEq

structure MembershipParameters where
  membershipAnnualFee : UInt64
  membershipLifetimeFee : UInt64
deriving DecidableEq

structure SymbolParameters where
  symbol3 : UInt64
  symbol4 : UInt64
  longSymbol : UInt64
  pricePerKbyte : UInt32
deriving DecidableEq

/-- `fee_parameters_type` of an operation type.  A fee that is a `share_type` there has the same 64
bits as the `uint64_t` here. -/
def FeeParameters : OperationType → Type
  | .plain _ => UInt64
  | .assert => UInt64
  | .free _ => Unit
  | .transfer => KbyteParameters
  | .overrideTransfer => KbyteParameters
  | .sendMessage => KbyteParameters
  | .withdrawPermissionClaim => KbyteParameters
  | .assetIssue => KbyteParameters
  | .custom => KbyteParameters
  | .proposalCreate => KbyteParameters
  | .proposalUpdate => KbyteParameters
  | .assetUpdate => KbyteParameters
  | .accountUpdate => KbyteParameters
  | .pio => KbyteParameters
  | .accountCreate => AccountParameters
  | .accountUpgrade => MembershipParameters
  | .assetCreate => SymbolParameters
  | .transferToBlind => OutputParameters
  | .blindTransfer => OutputParameters

/-- `GRAPHENE_BLOCKCHAIN_PRECISION` -/
def blockchainPrecision : UInt64 := 100000

def PlainOperation.defaultFee : PlainOperation → UInt64
  | .limitOrderCancel | .withdrawPermissionDelete => 0
  | .accountWhitelist => 300000
  | .assetFundFeePool | .assetPublishFeed | .proposalDelete | .withdrawPermissionCreate
  | .withdrawPermissionUpdate | .committeeMemberUpdateGlobalParameters
  | .vestingBalanceCreate => blockchainPrecision
  | .limitOrderCreate | .transferFromBlind => 5 * blockchainPrecision
  | .callOrderUpdate | .assetReserve | .witnessUpdate | .committeeMemberUpdate
  | .vestingBalanceWithdraw | .assetClaimFees | .bidCollateral | .assetClaimPool
  | .assetUpdateIssuer => 20 * blockchainPrecision
  | .assetSettle => 100 * blockchainPrecision
  | .accountTransfer | .assetUpdateBitasset | .assetUpdateFeedProducers | .assetGlobalSettle
  | .smartContractDeploy | .smartContractActivate | .smartContractDeactivate
  | .smartContractKill | .smartContractCall => 500 * blockchainPrecision
  | .witnessCreate | .committeeMemberCreate | .workerCreate => 5000 * blockchainPrecision

/-- `set_which`: the parameters of a type with their defaults. -/
def defaultParameters : (type : OperationType) → FeeParameters type
  | .plain op => op.defaultFee
  | .assert => blockchainPrecision
  | .free _ => ()
  | .transfer => ⟨20 * blockchainPrecision, 10 * blockchainPrecision.toUInt32⟩
  | .overrideTransfer => ⟨20 * blockchainPrecision, 10⟩
  | .sendMessage => ⟨20 * blockchainPrecision, 10 * blockchainPrecision.toUInt32⟩
  | .withdrawPermissionClaim => ⟨20 * blockchainPrecision, 10⟩
  | .assetIssue => ⟨20 * blockchainPrecision, blockchainPrecision.toUInt32⟩
  | .custom => ⟨blockchainPrecision, 10⟩
  | .proposalCreate => ⟨20 * blockchainPrecision, 10⟩
  | .proposalUpdate => ⟨20 * blockchainPrecision, 10⟩
  | .assetUpdate => ⟨500 * blockchainPrecision, 10⟩
  | .accountUpdate => ⟨20 * blockchainPrecision, blockchainPrecision.toUInt32⟩
  | .pio => ⟨20 * blockchainPrecision, 10 * blockchainPrecision.toUInt32⟩
  | .accountCreate =>
    ⟨5 * blockchainPrecision, 2000 * blockchainPrecision, blockchainPrecision.toUInt32⟩
  | .accountUpgrade => ⟨2000 * blockchainPrecision, 10000 * blockchainPrecision⟩
  | .assetCreate =>
    ⟨500000 * blockchainPrecision, 300000 * blockchainPrecision, 5000 * blockchainPrecision, 10⟩
  | .transferToBlind => ⟨5 * blockchainPrecision, 5 * blockchainPrecision.toUInt32⟩
  | .blindTransfer => ⟨5 * blockchainPrecision, 5 * blockchainPrecision.toUInt32⟩

/-! ### Operations -/

section

variable {Memo : Type}

/-- What `calculate_fee` of a type reads of an operation besides its packed size: the memo, the name
or the symbol, whether there are new options or the upgrade is for a lifetime, or a number of
outputs or predicates. -/
def Content (Memo : Type) : OperationType → Type
  | .plain _ => Unit
  | .free _ => Unit
  | .transfer => Option Memo
  | .overrideTransfer => Option Memo
  | .sendMessage => Memo
  | .withdrawPermissionClaim => Option Memo
  | .assetIssue => Option Memo
  | .custom => Unit
  | .proposalCreate => Unit
  | .proposalUpdate => Unit
  | .assetUpdate => Unit
  | .accountCreate => List Char
  | .accountUpdate => Bool
  | .accountUpgrade => Bool
  | .assetCreate => List Char
  | .transferToBlind => UInt64
  | .blindTransfer => UInt64
  | .assert => UInt64
  | .pio => Unit

/-- `rest` is the packed size of the fields that are not the fee. -/
structure Operation (Memo : Type) where
  type : OperationType
  fee : Asset
  rest : UInt64
  content : Content Memo type

/-- `fc::raw::pack_size` of the values that are charged for. -/
structure Raw (Memo : Type) where
  asset : Asset → UInt64
  memo : Memo → UInt64
  optionalMemo : Option Memo → UInt64

/-- An amount is packed in 8 bytes whatever it is, and an id in as many bytes as it needs. -/
def Raw.SizedById (raw : Raw Memo) : Prop :=
  ∀ a b : Asset, a.assetId = b.assetId → raw.asset a = raw.asset b

def Raw.packSize (raw : Raw Memo) (op : Operation Memo) : UInt64 :=
  raw.asset op.fee + op.rest

/-- `set_fee_visitor` -/
def Operation.setFee (op : Operation Memo) (fee : Asset) : Operation Memo := { op with fee }

@[simp] theorem Operation.type_setFee (op : Operation Memo) (a : Asset) :
    (op.setFee a).type = op.type := rfl

@[simp] theorem Operation.content_setFee (op : Operation Memo) (a : Asset) :
    (op.setFee a).content = op.content := rfl

@[simp] theorem Operation.fee_setFee (op : Operation Memo) (a : Asset) :
    (op.setFee a).fee = a := rfl

@[simp] theorem Operation.setFee_setFee (op : Operation Memo) (a b : Asset) :
    (op.setFee a).setFee b = op.setFee b := rfl

theorem Raw.packSize_setFee {raw : Raw Memo} (hraw : raw.SizedById) (op : Operation Memo)
    {a b : Asset} (hid : a.assetId = b.assetId) :
    raw.packSize (op.setFee a) = raw.packSize (op.setFee b) :=
  congrArg (· + op.rest) (hraw a b hid)

/-! ### Fees -/

/-- `base_operation::calculate_data_fee` -/
def calculateDataFee (bytes pricePerKbyte : UInt64) : Option UInt64 :=
  let result := bytes.toNat * pricePerKbyte.toNat / 1024
  if (result : Int) ≤ maxShareSupply then some (UInt64.ofNat result) else none

/-- `operator +=` of `share_type`, which throws where the sum overflows. -/
def addShares (a b : Int64) : Option Int64 :=
  if -2 ^ 63 ≤ a.toInt + b.toInt ∧ a.toInt + b.toInt < 2 ^ 63 then some (a + b) else none

/-- The fee with a data fee for so many bytes, added as `share_type`. -/
def KbyteParameters.withData (k : KbyteParameters) (bytes : UInt64) : Option Int64 := do
  let dataFee ← calculateDataFee bytes k.pricePerKbyte.toUInt64
  addShares k.fee.toInt64 dataFee.toInt64

/-- The fee with a data fee for so many bytes, added as `uint64_t`. -/
def KbyteParameters.plusData (k : KbyteParameters) (bytes : UInt64) : Option Int64 := do
  let dataFee ← calculateDataFee bytes k.pricePerKbyte.toUInt64
  pure (k.fee + dataFee).toInt64

/-- `is_cheap_name`: a digit, a separator, or no vowel at all. -/
def isCheapName (name : List Char) : Bool :=
  name.any (fun c => c.isDigit || c = '.' || c = '-' || c = '/') ||
    !name.any fun c => c ∈ ['a', 'e', 'i', 'o', 'u', 'y']

/-- `transfer_operation::calculate_fee` -/
def transferFee (raw : Raw Memo) (memo : Option Memo) (k : KbyteParameters) : Option Int64 :=
  if memo.isSome then k.withData (raw.optionalMemo memo) else some k.fee.toInt64

/-- `override_transfer_operation::calculate_fee` -/
def overrideTransferFee (raw : Raw Memo) (memo : Option Memo) (k : KbyteParameters) :
    Option Int64 :=
  transferFee raw memo k

/-- `withdraw_permission_claim_operation::calculate_fee` -/
def withdrawPermissionClaimFee (raw : Raw Memo) (memo : Option Memo) (k : KbyteParameters) :
    Option Int64 :=
  transferFee raw memo k

/-- `send_message_operation::calculate_fee` -/
def sendMessageFee (raw : Raw Memo) (memo : Memo) (k : KbyteParameters) : Option Int64 :=
  k.withData (raw.memo memo)

/-- `asset_issue_operation::calculate_fee`, which charges for an absent memo too. -/
def assetIssueFee (raw : Raw Memo) (memo : Option Memo) (k : KbyteParameters) : Option Int64 :=
  k.plusData (raw.optionalMemo memo)

/-- `account_create_operation::calculate_fee` -/
def accountCreateFee (name : List Char) (size : UInt64) (k : AccountParameters) :
    Option Int64 := do
  let coreFeeRequired := if isCheapName name then k.basicFee else k.premiumFee
  let dataFee ← calculateDataFee size k.pricePerKbyte.toUInt64
  pure (coreFeeRequired + dataFee).toInt64

/-- `account_update_operation::calculate_fee` -/
def accountUpdateFee (newOptions : Bool) (size : UInt64) (k : KbyteParameters) : Option Int64 :=
  if newOptions then k.withData size else some k.fee.toInt64

/-- `account_upgrade_operation::calculate_fee` -/
def accountUpgradeFee (upgradeToLifetimeMember : Bool) (k : MembershipParameters) : Int64 :=
  if upgradeToLifetimeMember then k.membershipLifetimeFee.toInt64
  else k.membershipAnnualFee.toInt64

/-- `asset_create_operation::calculate_fee` -/
def assetCreateFee (symbol : List Char) (size : UInt64) (k : SymbolParameters) :
    Option Int64 := do
  let coreFeeRequired :=
    match symbol.length with
    | 3 => k.symbol3
    | 4 => k.symbol4
    | _ => k.longSymbol
  let dataFee ← calculateDataFee size k.pricePerKbyte.toUInt64
  pure (coreFeeRequired + dataFee).toInt64

/-- `transfer_to_blind_operation::calculate_fee` -/
def transferToBlindFee (outputs : UInt64) (k : OutputParameters) : Int64 :=
  (k.fee + outputs * k.pricePerOutput.toUInt64).toInt64

/-- `blind_transfer_operation::calculate_fee` -/
def blindTransferFee (outputs : UInt64) (k : OutputParameters) : Int64 :=
  transferToBlindFee outputs k

/-- `assert_operation::calculate_fee` -/
def assertFee (predicates fee : UInt64) : Int64 := (fee * predicates).toInt64

/-- `calculate_fee` of an operation's type. -/
def chargeOf (raw : Raw Memo) (size : UInt64) :
    (type : OperationType) → Content Memo type → FeeParameters type → Option Int64
  | .plain _, _, fee => some (UInt64.toInt64 fee)
  | .free _, _, _ => some 0
  | .transfer, memo, k => transferFee raw memo k
  | .overrideTransfer, memo, k => overrideTransferFee raw memo k
  | .sendMessage, memo, k => sendMessageFee raw memo k
  | .withdrawPermissionClaim, memo, k => withdrawPermissionClaimFee raw memo k
  | .assetIssue, memo, k => assetIssueFee raw memo k
  | .custom, _, k => KbyteParameters.plusData k size
  | .proposalCreate, _, k => KbyteParameters.plusData k size
  | .proposalUpdate, _, k => KbyteParameters.plusData k size
  | .assetUpdate, _, k => KbyteParameters.plusData k size
  | .accountCreate, name, k => accountCreateFee name size k
  | .accountUpdate, newOptions, k => accountUpdateFee newOptions size k
  | .accountUpgrade, lifetime, k => some (accountUpgradeFee lifetime k)
  | .assetCreate, symbol, k => assetCreateFee symbol size k
  | .transferToBlind, outputs, k => some (transferToBlindFee outputs k)
  | .blindTransfer, outputs, k => some (blindTransferFee outputs k)
  | .assert, predicates, fee => some (assertFee predicates fee)
  | .pio, _, _ => some 0

/-- `op.calculate_fee( params )` -/
def Operation.calculateFee (raw : Raw Memo) (op : Operation Memo) (k : FeeParameters op.type) :
    Option Int64 :=
  chargeOf raw (raw.packSize op) op.type op.content k

theorem Operation.calculateFee_setFee {raw : Raw Memo} (hraw : raw.SizedById)
    (op : Operation Memo) {a b : Asset} (hid : a.assetId = b.assetId) (k : FeeParameters op.type) :
    (op.setFee a).calculateFee raw k = (op.setFee b).calculateFee raw k :=
  congrArg (fun size => chargeOf raw size op.type op.content k) (raw.packSize_setFee hraw op hid)

end

end Nestchain.Protocol.Fees
