import Mathlib.Data.List.Sort
import Mathlib.Logic.Function.Basic

/-! The data of the chain: blocks, transactions, skip flags, and the objects that block application
reads and writes.  The evaluators of the operations, the signature and witness checks and the parts
of block application that only touch other objects are given by `Rules`. -/

namespace Nestchain.Chain

/-- `block_id_type`: the digest of a signed header, whose first word is the block number. -/
structure BlockId where
  num : Nat
  digest : Nat
deriving DecidableEq

/-- `block_id_type()`, the head block id at genesis. -/
def BlockId.zero : BlockId := ⟨0, 0⟩

abbrev WitnessId := Nat

/-- The active witnesses, a `flat_set` in ascending order; one is always active. -/
abbrev ActiveWitnesses := { l : List WitnessId // l.Pairwise (· < ·) ∧ l ≠ [] }

/-- `transaction`, with operations in `ω`. -/
structure Transaction (ω : Type) where
  refBlockNum : Nat
  refBlockPrefix : Nat
  expiration : Nat
  operations : List ω
deriving DecidableEq

/-- `signed_transaction`.  Its id does not depend on the signatures. -/
structure SignedTransaction (ω : Type) extends Transaction ω where
  signatures : List Nat
deriving DecidableEq

/-- `signed_block_header`. -/
structure BlockHeader where
  previous : BlockId
  timestamp : Nat
  witness : WitnessId
  transactionMerkleRoot : Nat
  witnessSignature : Nat
deriving DecidableEq

/-- `signed_block`. -/
structure SignedBlock (ω : Type) extends BlockHeader where
  transactions : List (SignedTransaction ω)
deriving DecidableEq

/-- `block_num()`. -/
def BlockHeader.blockNum (h : BlockHeader) : Nat := h.previous.num + 1

/-- The `skip_flags` that the modelled functions test. -/
structure SkipFlags where
  witnessSignature : Bool
  transactionSignatures : Bool
  transactionDupeCheck : Bool
  forkDb : Bool
  taposCheck : Bool
  authorityCheck : Bool
  merkleCheck : Bool
  undoHistoryCheck : Bool
  witnessScheduleCheck : Bool
deriving DecidableEq

/-- `skip_nothing`. -/
def SkipFlags.nothing : SkipFlags :=
  ⟨false, false, false, false, false, false, false, false, false⟩

/-- `~0`. -/
def SkipFlags.all : SkipFlags :=
  ⟨true, true, true, true, true, true, true, true, true⟩

/-- `GRAPHENE_MAX_UNDO_HISTORY`. -/
def maxUndoHistory : Nat := 30000

/-- `GRAPHENE_MIN_UNDO_HISTORY`. -/
def minUndoHistory : Nat := 10

/-- `GRAPHENE_100_PERCENT`. -/
def hundredPercent : Nat := 10000

/-- `GRAPHENE_IRREVERSIBLE_THRESHOLD`. -/
def irreversibleThreshold : Nat := 7000

/-- The objects of the database.  `rest` holds those that only the functions of `Rules` use. -/
structure Objects (ρ : Type) where
  headBlockNumber : Nat
  headBlockId : BlockId
  time : Nat
  lastIrreversibleBlockNum : Nat
  activeWitnesses : ActiveWitnesses
  lastConfirmedBlockNum : WitnessId → Nat
  maximumTimeUntilExpiration : Nat
  /-- The id and the expiration of each object of `transaction_index`. -/
  transactions : List (Nat × Nat)
  blockSummaries : Nat → BlockId
  rest : ρ

/-- `is_known_transaction`. -/
def Objects.isKnownTransaction {ρ : Type} (s : Objects ρ) (id : Nat) : Bool :=
  (s.transactions.map Prod.fst).contains id

/-! ### Effects outside the objects -/

/-- The sessions that `push_proposal` opens while operations are applied: each runs further
proposals and is merged, or undone when one of its operations throws. -/
inductive Proposals where
  | done
  | push (inner : Proposals) (merged : Bool) (next : Proposals)

/-- What applying a block does besides changing the objects. -/
inductive Effect where
  | proposals (p : Proposals)
  | setMaxSize (n : Nat)

/-- The result of code that may throw, with the effects up to its end or to the throw. -/
structure Outcome (α : Type) where
  effects : List Effect
  result : Option α

namespace Outcome

variable {α β : Type}

def ok (a : α) : Outcome α := ⟨[], some a⟩

def effect (e : Effect) : Outcome Unit := ⟨[e], some ()⟩

def assert (p : Bool) : Outcome Unit := ⟨[], if p then some () else none⟩

/-- Code that throws when it has no result, without effects. -/
def ofOption (a : Option α) : Outcome α := ⟨[], a⟩

def bind (x : Outcome α) (f : α → Outcome β) : Outcome β :=
  match x.result with
  | none => ⟨x.effects, none⟩
  | some a => ⟨x.effects ++ (f a).effects, (f a).result⟩

instance : Monad Outcome where
  pure := ok
  bind := bind

theorem result_bind {x : Outcome α} {f : α → Outcome β} {b : β} :
    (x >>= f).result = some b ↔ ∃ a, x.result = some a ∧ (f a).result = some b := by
  show (x.bind f).result = some b ↔ _
  unfold Outcome.bind
  cases x.result <;> simp

@[simp]
theorem result_ok {a b : α} : (ok a).result = some b ↔ a = b := by simp [ok]

@[simp]
theorem result_pure {a b : α} : (pure a : Outcome α).result = some b ↔ a = b :=
  result_ok

@[simp]
theorem result_effect {e : Effect} {u : Unit} : (effect e).result = some u ↔ True := by
  simp [effect]

@[simp]
theorem result_assert {p : Bool} {u : Unit} : (assert p).result = some u ↔ p = true := by
  cases p <;> simp [assert]

@[simp]
theorem result_ofOption {a : Option α} {b : α} : (ofOption a).result = some b ↔ a = some b :=
  Iff.rfl

end Outcome

/-- What `perform_chain_maintenance` leaves: the active witnesses, a chain parameter and the other
objects. -/
structure Maintained (ρ : Type) where
  activeWitnesses : ActiveWitnesses
  maximumTimeUntilExpiration : Nat
  rest : ρ

/-- The functions that block and transaction application call. -/
structure Rules (ω ρ : Type) where
  /-- The digest in `signed_block_header::id`. -/
  blockDigest : BlockHeader → Nat
  /-- `transaction::id`. -/
  transactionId : Transaction ω → Nat
  /-- `calculate_merkle_root`. -/
  merkleRoot : List (SignedTransaction ω) → Nat
  /-- `_hash[1]` of a block id. -/
  idPrefix : BlockId → Nat
  /-- `transaction::validate`. -/
  validate : Transaction ω → Bool
  verifyAuthority : Objects ρ → SignedTransaction ω → Bool
  /-- The loop of `apply_operation` over the operations of a transaction. -/
  applyOperations : Objects ρ → SignedTransaction ω → Proposals × Option ρ
  /-- The witness of the block exists. -/
  hasWitness : Objects ρ → WitnessId → Bool
  validateSignee : Objects ρ → BlockHeader → Bool
  /-- The witness of the block is the one scheduled in the slot of its timestamp. -/
  isScheduled : Objects ρ → BlockHeader → Bool
  /-- `update_witness_missed_blocks`, and the slots and missed blocks in
  `update_global_dynamic_data`. -/
  updateMissedBlocks : Objects ρ → BlockHeader → Option ρ
  /-- The witness pay in `update_signing_witness`. -/
  payWitness : Objects ρ → BlockHeader → Option ρ
  /-- `next_maintenance_time <= timestamp`. -/
  maintenanceNeeded : Objects ρ → BlockHeader → Bool
  performChainMaintenance : Objects ρ → SignedBlock ω → Option (Maintained ρ)
  /-- `clear_expired_proposals` and what follows it in `_apply_block`. -/
  processExpired : Objects ρ → SignedBlock ω → Proposals × Option ρ

variable {ω ρ : Type}

/-- `signed_block::id`. -/
def Rules.blockId (r : Rules ω ρ) (b : BlockHeader) : BlockId := ⟨b.blockNum, r.blockDigest b⟩

/-- `id` of a signed transaction. -/
def Rules.trxId (r : Rules ω ρ) (t : SignedTransaction ω) : Nat := r.transactionId t.toTransaction

/-- The checkpoints, by increasing block number. -/
abbrev Checkpoints := List (Nat × BlockId)

end Nestchain.Chain
