import Nestchain.Chain.Block
import Mathlib.Algebra.GroupWithZero.Nat
import Mathlib.Data.Nat.Pairing
import Mathlib.Logic.Equiv.List

/-! `_apply_transaction` and `apply_block`. -/

namespace Nestchain.Chain

variable {ω ρ : Type}

/-! ### Transactions -/

/-- The checks of `_apply_transaction` before the operations.  On block 1 the TaPoS and the
expiration checks are skipped. -/
def Rules.checkTransaction (r : Rules ω ρ) (skip : SkipFlags) (s : Objects ρ)
    (t : SignedTransaction ω) : Bool :=
  r.validate t.toTransaction &&
  (skip.transactionDupeCheck || !s.isKnownTransaction (r.trxId t)) &&
  (skip.transactionSignatures || skip.authorityCheck || r.verifyAuthority s t) &&
  (s.headBlockNumber == 0 ||
    (skip.taposCheck || t.refBlockPrefix == r.idPrefix (s.blockSummaries t.refBlockNum)) &&
    decide (t.expiration ≤ s.time + s.maximumTimeUntilExpiration) &&
    decide (s.time ≤ t.expiration))

/-- The transaction enters `transaction_index`, unless the duplicate check is skipped. -/
def Rules.noteTransaction (r : Rules ω ρ) (skip : SkipFlags) (s : Objects ρ)
    (t : SignedTransaction ω) : Objects ρ :=
  if skip.transactionDupeCheck then s
  else { s with transactions := s.transactions ++ [(r.trxId t, t.expiration)] }

/-- `_apply_transaction`. -/
def Rules.applyTransaction (r : Rules ω ρ) (skip : SkipFlags) (s : Objects ρ)
    (t : SignedTransaction ω) : Outcome (Objects ρ) := do
  Outcome.assert (r.checkTransaction skip s t)
  let noted := r.noteTransaction skip s t
  Outcome.effect (.proposals (r.applyOperations noted t).1)
  let rest ← Outcome.ofOption (r.applyOperations noted t).2
  return { noted with rest := rest }

/-- The loop over the transactions of a block. -/
def Rules.applyTransactions (r : Rules ω ρ) (skip : SkipFlags) :
    Objects ρ → List (SignedTransaction ω) → Outcome (Objects ρ)
  | s, [] => return s
  | s, t :: ts => do
    let s ← r.applyTransaction skip s t
    r.applyTransactions skip s ts

/-! ### Blocks -/

/-- `validate_block_header`. -/
def Rules.validateBlockHeader (r : Rules ω ρ) (skip : SkipFlags) (s : Objects ρ)
    (b : SignedBlock ω) : Bool :=
  decide (s.headBlockId = b.previous) &&
  decide (s.time < b.timestamp) &&
  r.hasWitness s b.witness &&
  (skip.witnessSignature || r.validateSignee s b.toBlockHeader) &&
  (skip.witnessScheduleCheck || r.isScheduled s b.toBlockHeader)

/-- `update_global_dynamic_data`: the head moves to the block, and both databases are resized to
reach the last irreversible block. -/
def Rules.updateGlobalDynamicData (r : Rules ω ρ) (skip : SkipFlags) (s : Objects ρ)
    (b : SignedBlock ω) : Outcome (Objects ρ) := do
  let rest ← Outcome.ofOption (r.updateMissedBlocks s b.toBlockHeader)
  Outcome.assert
    (skip.undoHistoryCheck || decide (b.blockNum - s.lastIrreversibleBlockNum < maxUndoHistory))
  Outcome.effect (.setMaxSize (b.blockNum - s.lastIrreversibleBlockNum + 1))
  return { s with
    headBlockNumber := b.blockNum
    headBlockId := r.blockId b.toBlockHeader
    time := b.timestamp
    rest := rest }

/-- `update_signing_witness`. -/
def Rules.updateSigningWitness (r : Rules ω ρ) (s : Objects ρ) (b : SignedBlock ω) :
    Outcome (Objects ρ) := do
  let rest ← Outcome.ofOption (r.payWitness s b.toBlockHeader)
  return { s with
    lastConfirmedBlockNum := Function.update s.lastConfirmedBlockNum b.witness b.blockNum
    rest := rest }

/-- The last confirmed block numbers of the active witnesses, as `nth_element` orders them. -/
def Objects.confirmations (s : Objects ρ) : List Nat :=
  (s.activeWitnesses.1.map s.lastConfirmedBlockNum).insertionSort (· ≤ ·)

/-- The position of the new last irreversible block number among the confirmations. -/
def irreversibleOffset (n : Nat) : Nat :=
  (hundredPercent - irreversibleThreshold) * n / hundredPercent

/-- `new_last_irreversible_block_num`; the offset is a position of the list because a witness is
active. -/
def Objects.newLastIrreversibleBlockNum (s : Objects ρ) : Nat :=
  s.confirmations.getD (irreversibleOffset s.activeWitnesses.1.length) 0

/-- `update_last_irreversible_block`. -/
def Objects.updateLastIrreversibleBlock (s : Objects ρ) : Objects ρ :=
  { s with
    lastIrreversibleBlockNum :=
      if s.newLastIrreversibleBlockNum > s.lastIrreversibleBlockNum then
        s.newLastIrreversibleBlockNum
      else s.lastIrreversibleBlockNum }

/-- The call of `perform_chain_maintenance`, when `needed`. -/
def Rules.maintain (r : Rules ω ρ) (needed : Bool) (s : Objects ρ) (b : SignedBlock ω) :
    Outcome (Objects ρ) :=
  if needed then do
    let m ← Outcome.ofOption (r.performChainMaintenance s b)
    return { s with
      activeWitnesses := m.activeWitnesses
      maximumTimeUntilExpiration := m.maximumTimeUntilExpiration
      rest := m.rest }
  else return s

/-- `create_block_summary`. -/
def Rules.createBlockSummary (r : Rules ω ρ) (s : Objects ρ) (b : SignedBlock ω) : Objects ρ :=
  { s with
    blockSummaries :=
      Function.update s.blockSummaries (b.blockNum % 65536) (r.blockId b.toBlockHeader) }

/-- `clear_expired_transactions`: the loop takes from the index by expiration as long as the head
block time is past the expiration. -/
def Objects.clearExpiredTransactions (s : Objects ρ) : Objects ρ :=
  { s with transactions := s.transactions.filter fun t => !decide (s.time > t.2) }

/-- `_apply_block`. -/
def Rules.applyBlockBody (r : Rules ω ρ) (skip : SkipFlags) (s : Objects ρ) (b : SignedBlock ω) :
    Outcome (Objects ρ) := do
  Outcome.assert (skip.merkleCheck || b.transactionMerkleRoot == r.merkleRoot b.transactions)
  Outcome.assert (r.validateBlockHeader skip s b)
  let applied ← r.applyTransactions skip s b.transactions
  let headed ← r.updateGlobalDynamicData skip applied b
  let confirmed ← r.updateSigningWitness headed b
  let maintained ← r.maintain (r.maintenanceNeeded s b.toBlockHeader)
    confirmed.updateLastIrreversibleBlock b
  let cleared := (r.createBlockSummary maintained b).clearExpiredTransactions
  Outcome.effect (.proposals (r.processExpired cleared b).1)
  let rest ← Outcome.ofOption (r.processExpired cleared b).2
  return { cleared with rest := rest }

/-- The skip flags with which `apply_block` applies a block: up to the last checkpoint everything
is skipped. -/
def Checkpoints.skipFlags (cps : Checkpoints) (skip : SkipFlags) (num : Nat) : SkipFlags :=
  match cps.getLast? with
  | some (n, id) => if id ≠ BlockId.zero ∧ n ≥ num then .all else skip
  | none => skip

/-- The block is not at a checkpoint of another id. -/
def Checkpoints.allow (cps : Checkpoints) (num : Nat) (id : BlockId) : Bool :=
  match cps.getLast? with
  | some (_, last) =>
    last == BlockId.zero || ((cps.find? (·.1 == num)).map Prod.snd).all (· == id)
  | none => true

/-- `apply_block`. -/
def Rules.applyBlock (r : Rules ω ρ) (cps : Checkpoints) (skip : SkipFlags) (s : Objects ρ)
    (b : SignedBlock ω) : Outcome (Objects ρ) := do
  Outcome.assert (cps.allow b.blockNum (r.blockId b.toBlockHeader))
  r.applyBlockBody (cps.skipFlags skip b.blockNum) s b

/-! ### What a transaction and a block do -/

section Specs

variable {r : Rules ω ρ} {cps : Checkpoints} {skip : SkipFlags} {s s' : Objects ρ}

theorem Rules.applyTransaction_result {t : SignedTransaction ω} :
    (r.applyTransaction skip s t).result = some s' ↔
      r.checkTransaction skip s t = true ∧
        ∃ rest, (r.applyOperations (r.noteTransaction skip s t) t).2 = some rest ∧
          s' = { r.noteTransaction skip s t with rest := rest } := by
  simp only [Rules.applyTransaction, Outcome.result_bind, Outcome.result_assert,
    Outcome.result_effect, Outcome.result_ofOption, Outcome.result_pure]
  constructor
  · rintro ⟨_, hc, _, -, rest, hr, rfl⟩
    exact ⟨hc, rest, hr, rfl⟩
  · rintro ⟨hc, rest, hr, rfl⟩
    exact ⟨(), hc, (), trivial, rest, hr, rfl⟩

/-- A transaction changes nothing but the transaction index and the objects of the operations. -/
structure SameChain (s s' : Objects ρ) : Prop where
  headBlockNumber : s'.headBlockNumber = s.headBlockNumber
  headBlockId : s'.headBlockId = s.headBlockId
  time : s'.time = s.time
  lastIrreversibleBlockNum : s'.lastIrreversibleBlockNum = s.lastIrreversibleBlockNum
  activeWitnesses : s'.activeWitnesses = s.activeWitnesses
  lastConfirmedBlockNum : s'.lastConfirmedBlockNum = s.lastConfirmedBlockNum

theorem SameChain.refl (s : Objects ρ) : SameChain s s := ⟨rfl, rfl, rfl, rfl, rfl, rfl⟩

theorem SameChain.trans {s1 s2 s3 : Objects ρ} (h : SameChain s1 s2) (h' : SameChain s2 s3) :
    SameChain s1 s3 :=
  ⟨h'.1.trans h.1, h'.2.trans h.2, h'.3.trans h.3, h'.4.trans h.4, h'.5.trans h.5, h'.6.trans h.6⟩

theorem Rules.applyTransaction_sameChain {t : SignedTransaction ω}
    (h : (r.applyTransaction skip s t).result = some s') : SameChain s s' := by
  obtain ⟨-, rest, -, rfl⟩ := Rules.applyTransaction_result.mp h
  unfold Rules.noteTransaction
  split <;> exact ⟨rfl, rfl, rfl, rfl, rfl, rfl⟩

theorem Rules.applyTransactions_cons {t : SignedTransaction ω} {ts : List (SignedTransaction ω)} :
    (r.applyTransactions skip s (t :: ts)).result = some s' ↔
      ∃ s1, (r.applyTransaction skip s t).result = some s1 ∧
        (r.applyTransactions skip s1 ts).result = some s' := by
  rw [Rules.applyTransactions, Outcome.result_bind]

theorem Rules.applyTransactions_sameChain {ts : List (SignedTransaction ω)}
    (h : (r.applyTransactions skip s ts).result = some s') : SameChain s s' := by
  induction ts generalizing s with
  | nil =>
    obtain rfl := Outcome.result_pure.mp h
    exact .refl s
  | cons t ts ih =>
    obtain ⟨s1, h1, h2⟩ := Rules.applyTransactions_cons.mp h
    exact (Rules.applyTransaction_sameChain h1).trans (ih h2)

/-- What applying the block `b` to `s` leaves in `s'`. -/
structure BlockApplied (r : Rules ω ρ) (skip : SkipFlags) (s : Objects ρ) (b : SignedBlock ω)
    (s' : Objects ρ) : Prop where
  previous : s.headBlockId = b.previous
  timestamp : s.time < b.timestamp
  history : skip.undoHistoryCheck = true ∨
    b.blockNum - s.lastIrreversibleBlockNum < maxUndoHistory
  headBlockNumber : s'.headBlockNumber = b.blockNum
  headBlockId : s'.headBlockId = r.blockId b.toBlockHeader
  time : s'.time = b.timestamp
  lastConfirmedBlockNum :
    s'.lastConfirmedBlockNum = Function.update s.lastConfirmedBlockNum b.witness b.blockNum
  /-- The last irreversible block is updated with the confirmation of the block, for the witnesses
  that were active before the block. -/
  lastIrreversibleBlockNum : s'.lastIrreversibleBlockNum =
    (Objects.updateLastIrreversibleBlock
      { s with lastConfirmedBlockNum := s'.lastConfirmedBlockNum }).lastIrreversibleBlockNum
  /-- The transactions that have expired by the time of the block leave the index. -/
  transactions : ∃ applied, (r.applyTransactions skip s b.transactions).result = some applied ∧
    s'.transactions = applied.transactions.filter fun t => !decide (b.timestamp > t.2)

theorem Objects.updateLastIrreversibleBlock_congr {s s' : Objects ρ}
    (hl : s'.lastIrreversibleBlockNum = s.lastIrreversibleBlockNum)
    (ha : s'.activeWitnesses = s.activeWitnesses)
    (hc : s'.lastConfirmedBlockNum = s.lastConfirmedBlockNum) :
    s'.updateLastIrreversibleBlock.lastIrreversibleBlockNum =
      s.updateLastIrreversibleBlock.lastIrreversibleBlockNum := by
  have hn : s'.newLastIrreversibleBlockNum = s.newLastIrreversibleBlockNum := by
    simp only [Objects.newLastIrreversibleBlockNum, Objects.confirmations, ha, hc]
  unfold Objects.updateLastIrreversibleBlock
  rw [hn, hl]

theorem Rules.updateGlobalDynamicData_result {b : SignedBlock ω}
    (h : (r.updateGlobalDynamicData skip s b).result = some s') :
    (skip.undoHistoryCheck = true ∨ b.blockNum - s.lastIrreversibleBlockNum < maxUndoHistory) ∧
      ∃ rest, s' = { s with
        headBlockNumber := b.blockNum
        headBlockId := r.blockId b.toBlockHeader
        time := b.timestamp
        rest := rest } := by
  simp only [Rules.updateGlobalDynamicData, Outcome.result_bind, Outcome.result_assert,
    Outcome.result_effect, Outcome.result_ofOption, Outcome.result_pure, Bool.or_eq_true,
    decide_eq_true_eq] at h
  obtain ⟨rest, -, _, hist, _, -, rfl⟩ := h
  exact ⟨hist, rest, rfl⟩

theorem Rules.updateSigningWitness_result {b : SignedBlock ω}
    (h : (r.updateSigningWitness s b).result = some s') :
    ∃ rest, s' = { s with
      lastConfirmedBlockNum := Function.update s.lastConfirmedBlockNum b.witness b.blockNum
      rest := rest } := by
  simp only [Rules.updateSigningWitness, Outcome.result_bind, Outcome.result_ofOption,
    Outcome.result_pure] at h
  obtain ⟨rest, -, rfl⟩ := h
  exact ⟨rest, rfl⟩

theorem Rules.maintain_result {needed : Bool} {b : SignedBlock ω}
    (h : (r.maintain needed s b).result = some s') :
    ∃ active time rest, s' = { s with
      activeWitnesses := active, maximumTimeUntilExpiration := time, rest := rest } := by
  unfold Rules.maintain at h
  split at h
  · simp only [Outcome.result_bind, Outcome.result_ofOption, Outcome.result_pure] at h
    obtain ⟨m, -, rfl⟩ := h
    exact ⟨_, _, _, rfl⟩
  · obtain rfl := Outcome.result_pure.mp h
    exact ⟨_, _, _, rfl⟩

theorem Rules.applyBlockBody_applied {b : SignedBlock ω}
    (h : (r.applyBlockBody skip s b).result = some s') : BlockApplied r skip s b s' := by
  simp only [Rules.applyBlockBody, Outcome.result_bind, Outcome.result_assert,
    Outcome.result_effect, Outcome.result_ofOption, Outcome.result_pure] at h
  obtain ⟨_, -, _, hheader, applied, happlied, headed, hheaded, confirmed, hconfirmed,
    maintained, hmaintained, _, -, rest, -, rfl⟩ := h
  simp only [Rules.validateBlockHeader, Bool.and_eq_true, decide_eq_true_eq] at hheader
  obtain ⟨⟨⟨⟨hprev, htime⟩, -⟩, -⟩, -⟩ := hheader
  have hsame := Rules.applyTransactions_sameChain happlied
  obtain ⟨hist, _, rfl⟩ := Rules.updateGlobalDynamicData_result hheaded
  obtain ⟨_, rfl⟩ := Rules.updateSigningWitness_result hconfirmed
  obtain ⟨_, _, _, rfl⟩ := Rules.maintain_result hmaintained
  rw [hsame.lastIrreversibleBlockNum] at hist
  refine ⟨hprev, htime, hist, rfl, rfl, rfl, ?_, ?_, applied, happlied, rfl⟩
  · show Function.update applied.lastConfirmedBlockNum _ _ = _
    rw [hsame.lastConfirmedBlockNum]
  · refine Objects.updateLastIrreversibleBlock_congr ?_ ?_ rfl
    · exact hsame.lastIrreversibleBlockNum
    · exact hsame.activeWitnesses

/-- A block that `apply_block` applies is not at another checkpoint, and does what `BlockApplied`
says with the skip flags that the checkpoints leave. -/
theorem Rules.applyBlock_applied {b : SignedBlock ω}
    (h : (r.applyBlock cps skip s b).result = some s') :
    BlockApplied r (cps.skipFlags skip b.blockNum) s b s' := by
  simp only [Rules.applyBlock, Outcome.result_bind, Outcome.result_assert] at h
  obtain ⟨_, -, h⟩ := h
  exact Rules.applyBlockBody_applied h

end Specs

/-! ### A small chain

The operations add to a counter, an operation 0 throws, and a block is signed with its own witness's
number plus one. -/

/-- The rules of the small chain. -/
def counterRules : Rules Nat Nat where
  blockDigest h := Nat.pair h.timestamp h.witnessSignature
  transactionId t :=
    Nat.pair (Nat.pair t.refBlockNum t.refBlockPrefix)
      (Nat.pair t.expiration (Encodable.encode t.operations))
  merkleRoot ts := ts.length
  idPrefix id := id.digest
  validate _ := true
  verifyAuthority _ _ := true
  applyOperations s t :=
    (.done, if 0 ∈ t.operations then none else some (s.rest + t.operations.sum))
  hasWitness _ _ := true
  validateSignee _ h := h.witnessSignature == h.witness + 1
  isScheduled _ _ := true
  updateMissedBlocks s _ := some s.rest
  payWitness s _ := some s.rest
  maintenanceNeeded _ _ := false
  performChainMaintenance s _ :=
    some ⟨s.activeWitnesses, s.maximumTimeUntilExpiration, s.rest⟩
  processExpired s _ := (.done, some s.rest)

theorem counterRules_transactionId_injective :
    Function.Injective counterRules.transactionId := by
  rintro ⟨a, b, c, d⟩ ⟨a', b', c', d'⟩ h
  simp only [counterRules, Nat.pair_eq_pair, Encodable.encode_inj] at h
  obtain ⟨⟨rfl, rfl⟩, rfl, rfl⟩ := h
  rfl

/-- The genesis of the small chain with the witnesses below `n + 1` active. -/
def counterGenesis (n : Nat) : Objects Nat where
  headBlockNumber := 0
  headBlockId := BlockId.zero
  time := 0
  lastIrreversibleBlockNum := 0
  activeWitnesses := ⟨List.range (n + 1), List.pairwise_lt_range, by simp⟩
  lastConfirmedBlockNum _ := 0
  maximumTimeUntilExpiration := 100
  transactions := []
  blockSummaries _ := BlockId.zero
  rest := 0

/-- A block of the small chain after the block with id `previous`. -/
def counterBlock (previous : BlockId) (timestamp witness : Nat)
    (transactions : List (SignedTransaction Nat)) : SignedBlock Nat where
  previous := previous
  timestamp := timestamp
  witness := witness
  transactionMerkleRoot := transactions.length
  witnessSignature := witness + 1
  transactions := transactions

/-- Blocks without transactions after the block with id `previous`, each after the one before it,
with the given timestamps and witnesses. -/
def counterChain : BlockId → List (Nat × Nat) → List (SignedBlock Nat)
  | _, [] => []
  | previous, (timestamp, witness) :: l =>
    let b := counterBlock previous timestamp witness []
    b :: counterChain (counterRules.blockId b.toBlockHeader) l

def counterTrx (expiration : Nat) (operations : List Nat) : SignedTransaction Nat where
  refBlockNum := 0
  refBlockPrefix := 0
  expiration := expiration
  operations := operations
  signatures := []

end Nestchain.Chain
