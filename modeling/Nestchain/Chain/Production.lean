import Nestchain.Chain.Follow
import Nestchain.Chain.Pending
import Mathlib.Data.Nat.Log

/-! `_generate_block`.  A producer applies the pending transactions again on the head block, each if
the block has room for it, and pushes the block of those that apply.  A block that is too big throws
when the pending session is closed already, and leaves the pending transactions without it. -/

namespace Nestchain.Chain

open Nestchain.Lib

variable {ω ρ : Type}

/-! ### Sizes -/

/-- The number of bytes of a packed `unsigned_int`. -/
def varintSize (n : Nat) : Nat := Nat.log 128 n + 1

/-- The packed size of a `signed_block_header`. -/
def packedHeaderSize (witness : WitnessId) : Nat := 110 + varintSize witness

/-- `max_block_header_size` -/
def maxBlockHeaderSize : Nat := packedHeaderSize 0 + 4

/-- The packed size of a block with so many transactions, which have so many bytes. -/
def packedBlockSize (witness : WitnessId) (count bytes : Nat) : Nat :=
  packedHeaderSize witness + varintSize count + bytes

/-- What the production of blocks uses besides the rules.  A pending transaction is packed with the
operation results of the time when it was pushed, and one of a block with those that it has
there. -/
structure Production (ω ρ : Type) where
  /-- `get_scheduled_witness` of `get_slot_at_time`, unless that is slot 0. -/
  scheduledWitness : Objects ρ → Nat → Option WitnessId
  signingKey : Objects ρ → WitnessId → Nat
  /-- `get_public_key` -/
  publicKey : Nat → Nat
  sign : Nat → BlockHeader → Nat
  maximumBlockSize : Objects ρ → Nat
  pendingSize : SignedTransaction ω → Nat
  processedSize : Objects ρ → SignedTransaction ω → Nat

/-- The block while it is put together: the database, `total_block_size` and the transactions. -/
structure Assembly (ω ρ : Type) where
  db : Database ω ρ
  totalBlockSize : Nat
  transactions : List (SignedTransaction ω)

/-- The arguments of `generate_block`, with its skip flags. -/
structure BlockRequest where
  when : Nat
  witness : WitnessId
  key : Nat
  skip : SkipFlags
  /-- `skip_block_size_check` -/
  blockSizeCheck : Bool

namespace Database

section

variable (r : Rules ω ρ) (cps : Checkpoints) (p : Production ω ρ)

/-- A round of the loop over the pending transactions. -/
def includeTransaction (skip : SkipFlags) (maximum : Nat) (a : Assembly ω ρ)
    (t : SignedTransaction ω) : Assembly ω ρ :=
  if maximum ≤ a.totalBlockSize + p.pendingSize t then a
  else
    match a.db.startUndoSession.perform (r.applyTransaction skip a.db.objects t) with
    | (db, true) =>
      { db := { db with undoDb := db.undoDb.merge }
        totalBlockSize := a.totalBlockSize + p.processedSize a.db.objects t
        transactions := a.transactions ++ [t] }
    | (db, false) => { a with db := db.undoSession }

/-- The pending session that is opened for the block. -/
def openSession (db : Database ω ρ) : Database ω ρ :=
  { db.resetPendingSession.startUndoSession with pendingTxSession := true }

def assemble (skip : SkipFlags) (db : Database ω ρ) : Assembly ω ρ :=
  db.pendingTx.foldl (includeTransaction r p skip (p.maximumBlockSize db.objects))
    ⟨db.openSession, maxBlockHeaderSize, []⟩

/-- `pending_block`, after the pending session was closed. -/
def pendingBlock (q : BlockRequest) (db : Database ω ρ) : SignedBlock ω :=
  let a := db.assemble r p q.skip
  let header : BlockHeader :=
    { previous := a.db.resetPendingSession.headBlockId
      timestamp := q.when
      witness := q.witness
      transactionMerkleRoot := r.merkleRoot a.transactions
      witnessSignature := 0 }
  { header with
    witnessSignature := if q.skip.witnessSignature then 0 else p.sign q.key header
    transactions := a.transactions }

/-- The size of `pending_block`. -/
def pendingBlockSize (q : BlockRequest) (db : Database ω ρ) : Nat :=
  let a := db.assemble r p q.skip
  packedBlockSize q.witness a.transactions.length (a.totalBlockSize - maxBlockHeaderSize)

/-- The checks at the start of `_generate_block`. -/
def mayProduce (q : BlockRequest) (db : Database ω ρ) : Bool :=
  decide (p.scheduledWitness db.objects q.when = some q.witness) &&
    r.hasWitness db.objects q.witness &&
    (q.skip.witnessSignature ||
      decide (p.signingKey db.objects q.witness = p.publicKey q.key))

/-- `_generate_block`: the block, or `none` when it throws. -/
def generateBlock (q : BlockRequest) (db : Database ω ρ) :
    Database ω ρ × Option (SignedBlock ω) :=
  if db.mayProduce r p q then
    let closed := (db.assemble r p q.skip).db.resetPendingSession
    if q.blockSizeCheck ∨ db.pendingBlockSize r p q ≤ p.maximumBlockSize closed.objects then
      match closed.pushBlock r cps q.skip (db.pendingBlock r p q) with
      | (after, some _) => (after, some (db.pendingBlock r p q))
      | (after, none) => (after, none)
    else (closed, none)
  else (db, none)

end

end Database

/-- What `_apply_block` does with the block `b` of the head objects `s` after its transactions. -/
def Rules.finishBlock (r : Rules ω ρ) (skip : SkipFlags) (s applied : Objects ρ)
    (b : SignedBlock ω) : Outcome (Objects ρ) := do
  let headed ← r.updateGlobalDynamicData skip applied b
  let confirmed ← r.updateSigningWitness headed b
  let maintained ← r.maintain (r.maintenanceNeeded s b.toBlockHeader)
    confirmed.updateLastIrreversibleBlock b
  let cleared := (r.createBlockSummary maintained b).clearExpiredTransactions
  Outcome.effect (.proposals (r.processExpired cleared b).1)
  let rest ← Outcome.ofOption (r.processExpired cleared b).2
  return { cleared with rest := rest }

/-- The block number is past the checkpoints. -/
def Checkpoints.Passed (cps : Checkpoints) (num : Nat) : Prop := ∀ c ∈ cps, c.1 < num

/-- The databases that the two entry points and the production of blocks reach. -/
inductive Produced (r : Rules ω ρ) (cps : Checkpoints) (p : Production ω ρ) :
    Database ω ρ → Prop
  | opened {db : Database ω ρ} (h : Opened r db) : Produced r cps p db
  | call {db : Database ω ρ} (h : Produced r cps p db) (c : Call ω) :
      Produced r cps p (db.call r cps c)
  | generate {db : Database ω ρ} (h : Produced r cps p db) (q : BlockRequest) :
      Produced r cps p (db.generateBlock r cps p q).1

variable {r : Rules ω ρ} {cps : Checkpoints} {p : Production ω ρ} {skip : SkipFlags}
  {q : BlockRequest}

/-! ### The pending transactions aside -/

theorem Database.runEffects_withPending (db : Database ω ρ) (l : List (SignedTransaction ω))
    (es : List Effect) :
    es.foldl Database.runEffect { db with pendingTx := l } =
      { es.foldl Database.runEffect db with pendingTx := l } := by
  induction es generalizing db with
  | nil => rfl
  | cons e es ih =>
    cases e with
    | proposals p => exact ih { db with undoDb := p.run db.undoDb }
    | setMaxSize n =>
      exact ih { db with
        undoDb := { db.undoDb with limit := n }, forkDb := db.forkDb.setMaxSize n }

theorem Database.perform_withPending (db : Database ω ρ) (l : List (SignedTransaction ω))
    (o : Outcome (Objects ρ)) :
    ({ db with pendingTx := l } : Database ω ρ).perform o =
      ({ (db.perform o).1 with pendingTx := l }, (db.perform o).2) := by
  unfold Database.perform
  rw [Database.runEffects_withPending]
  cases o.result <;> rfl

theorem Database.pushTransaction_withPending (db : Database ω ρ) (l : List (SignedTransaction ω))
    (t : SignedTransaction ω) :
    (({ db with pendingTx := l } : Database ω ρ).pushTransaction r skip t).2 =
        (db.pushTransaction r skip t).2 ∧
      { (({ db with pendingTx := l } : Database ω ρ).pushTransaction r skip t).1 with
          pendingTx := [] } =
        { (db.pushTransaction r skip t).1 with pendingTx := [] } := by
  obtain ⟨o, o', ho, ho', hsame⟩ : ∃ o o' : Database ω ρ,
      o = (if db.pendingTxSession then db
        else { db.startUndoSession with pendingTxSession := true }) ∧
      o' = (if ({ db with pendingTx := l } : Database ω ρ).pendingTxSession then
          { db with pendingTx := l }
        else { ({ db with pendingTx := l } : Database ω ρ).startUndoSession with
          pendingTxSession := true }) ∧ o' = { o with pendingTx := l } := by
    refine ⟨_, _, rfl, rfl, ?_⟩
    cases hs : db.pendingTxSession <;> simp [hs, Database.startUndoSession]
  unfold Database.pushTransaction
  rw [← ho, ← ho', hsame]
  have hperform := Database.perform_withPending o.startUndoSession l
    (r.applyTransaction skip o.objects t)
  have hstart : ({ o with pendingTx := l } : Database ω ρ).startUndoSession =
      { o.startUndoSession with pendingTx := l } := rfl
  have hobjects : ({ o with pendingTx := l } : Database ω ρ).objects = o.objects := rfl
  simp only [hstart, hobjects, hperform]
  generalize o.startUndoSession.perform (r.applyTransaction skip o.objects t) = res
  obtain ⟨after, ok⟩ := res
  cases ok <;> exact ⟨rfl, rfl⟩

/-! ### The loop over the pending transactions -/

/-- The bytes of transactions that are applied one after the other. -/
def Production.processedBytes (r : Rules ω ρ) (p : Production ω ρ) (skip : SkipFlags) :
    Objects ρ → List (SignedTransaction ω) → Nat
  | _, [] => 0
  | s, t :: ts =>
    p.processedSize s t + ((r.applyTransaction skip s t).result.elim 0 fun s' =>
      processedBytes r p skip s' ts)

/-- Why a pending transaction is not in the block whose transactions are `chosen`: on top of the
first of those it is too big, or it throws. -/
def LeftOut (r : Rules ω ρ) (p : Production ω ρ) (skip : SkipFlags) (s : Objects ρ) (maximum : Nat)
    (chosen : List (SignedTransaction ω)) (t : SignedTransaction ω) : Prop :=
  ∃ before after s', chosen = before ++ after ∧
    (r.applyTransactions skip s before).result = some s' ∧
    (maximum ≤ maxBlockHeaderSize + p.processedBytes r skip s before + p.pendingSize t ∨
      (r.applyTransaction skip s' t).result = none)

/-- The transactions `chosen` of a block on the objects `s`, out of the pending ones. -/
structure Chosen (r : Rules ω ρ) (p : Production ω ρ) (skip : SkipFlags) (s : Objects ρ)
    (maximum : Nat) (pending chosen : List (SignedTransaction ω)) : Prop where
  order : chosen.Sublist pending
  applied : (r.applyTransactions skip s chosen).result ≠ none
  left : ∀ t ∈ pending, t ∈ chosen ∨ LeftOut r p skip s maximum chosen t

/-- The block is put together on top of the head block of `db`, out of the transactions `done`. -/
structure Assembling (r : Rules ω ρ) (cps : Checkpoints) (p : Production ω ρ) (skip : SkipFlags)
    (maximum : Nat) (db : Database ω ρ) (done : List (SignedTransaction ω)) (a : Assembly ω ρ) :
    Prop where
  /-- Apart from the pending transactions, the transactions of the block were pushed. -/
  pushed : ∃ core : Database ω ρ, a.db = { core with pendingTx := db.pendingTx } ∧
    Consistent r cps core ∧ core.pendingTxSession = true ∧ PendingKept db core ∧
    core.poppedTx = db.poppedTx ∧
    (r.applyTransactions skip db.headObjects a.transactions).result = some core.objects
  size : a.totalBlockSize =
    maxBlockHeaderSize + p.processedBytes r skip db.headObjects a.transactions
  order : a.transactions.Sublist done
  left : ∀ t ∈ done, t ∈ a.transactions ∨
    LeftOut r p skip db.headObjects maximum a.transactions t

theorem LeftOut.append {s : Objects ρ} {maximum : Nat} {chosen : List (SignedTransaction ω)}
    {t : SignedTransaction ω} (h : LeftOut r p skip s maximum chosen t)
    (more : List (SignedTransaction ω)) : LeftOut r p skip s maximum (chosen ++ more) t := by
  obtain ⟨before, after, s', rfl, h1, h2⟩ := h
  exact ⟨before, after ++ more, s', List.append_assoc .., h1, h2⟩

theorem Production.processedBytes_append {s s' : Objects ρ} {ts : List (SignedTransaction ω)}
    (t : SignedTransaction ω) (h : (r.applyTransactions skip s ts).result = some s') :
    p.processedBytes r skip s (ts ++ [t]) =
      p.processedBytes r skip s ts + p.processedSize s' t := by
  induction ts generalizing s with
  | nil =>
    obtain rfl := Outcome.result_pure.mp h
    simp only [List.nil_append, Production.processedBytes]
    cases (r.applyTransaction skip s t).result <;> simp
  | cons t' ts ih =>
    obtain ⟨s1, h1, h2⟩ := Rules.applyTransactions_cons.mp h
    simp only [List.cons_append, Production.processedBytes, h1, Option.elim_some, ih h2]
    omega

theorem Database.includeTransaction_spec {core : Database ω ρ} {l : List (SignedTransaction ω)}
    {maximum size : Nat} {chosen : List (SignedTransaction ω)} (t : SignedTransaction ω)
    (hsession : core.pendingTxSession = true) :
    Database.includeTransaction r p skip maximum ⟨{ core with pendingTx := l }, size, chosen⟩ t =
      if maximum ≤ size + p.pendingSize t then ⟨{ core with pendingTx := l }, size, chosen⟩
      else if (core.pushTransaction r skip t).2 then
        ⟨{ (core.pushTransaction r skip t).1 with pendingTx := l },
          size + p.processedSize core.objects t, chosen ++ [t]⟩
      else ⟨{ (core.pushTransaction r skip t).1 with pendingTx := l }, size, chosen⟩ := by
  unfold Database.includeTransaction Database.pushTransaction
  have hstart : ({ core with pendingTx := l } : Database ω ρ).startUndoSession =
      { core.startUndoSession with pendingTx := l } := rfl
  have hobjects : ({ core with pendingTx := l } : Database ω ρ).objects = core.objects := rfl
  rw [if_pos hsession]
  simp only [hstart, hobjects, Database.perform_withPending]
  split
  · rfl
  · generalize core.startUndoSession.perform (r.applyTransaction skip core.objects t) = res
    obtain ⟨after, ok⟩ := res
    cases ok <;> rfl

theorem Assembling.include {maximum : Nat} {db : Database ω ρ}
    {done : List (SignedTransaction ω)} {a : Assembly ω ρ}
    (h : Assembling r cps p skip maximum db done a) (t : SignedTransaction ω) :
    Assembling r cps p skip maximum db (done ++ [t])
      (Database.includeTransaction r p skip maximum a t) := by
  obtain ⟨aDb, size, chosen⟩ := a
  obtain ⟨⟨core, rfl, hc, hsession, hkept, hpopped, happlied⟩, hsize, horder, hleft⟩ := h
  simp only at hsize horder hleft happlied
  rw [Database.includeTransaction_spec t hsession]
  obtain ⟨hs, hcases⟩ := Database.pushTransaction_spec hc skip t
  -- The transaction `t` is left out.
  have hout : (maximum ≤ size + p.pendingSize t ∨
      (r.applyTransaction skip core.objects t).result = none) →
      ∀ t' ∈ done ++ [t], t' ∈ chosen ∨ LeftOut r p skip db.headObjects maximum chosen t' := by
    intro hwhy t' ht'
    rcases List.mem_append.mp ht' with ht' | ht'
    · exact hleft t' ht'
    · obtain rfl : t' = t := by simpa using ht'
      refine Or.inr ⟨chosen, [], core.objects, by simp, happlied, ?_⟩
      rwa [← hsize]
  have hsub : chosen.Sublist (done ++ [t]) :=
    horder.trans (List.sublist_append_left done [t])
  split
  · rename_i hlarge
    exact ⟨⟨core, rfl, hc, hsession, hkept, hpopped, happlied⟩, hsize, hsub,
      hout (Or.inl hlarge)⟩
  have hpushed := hs.consistent hc
  rcases hcases with ⟨hok, happ, -⟩ | ⟨hok, hthrow, hobj, -⟩
  · rw [hok, if_pos rfl]
    refine ⟨⟨_, rfl, hpushed, hs.session, hkept.trans hs.pendingKept, hs.poppedTx.trans hpopped,
      Rules.applyTransactions_append.mpr ⟨_, happlied, happ⟩⟩, ?_, ?_, ?_⟩
    · simp only
      rw [Production.processedBytes_append t happlied, hsize]
      omega
    · exact horder.append (List.Sublist.refl [t])
    · intro t' ht'
      rcases List.mem_append.mp ht' with ht' | ht'
      · rcases hleft t' ht' with hin | hin
        · exact Or.inl (List.mem_append_left _ hin)
        · exact Or.inr (hin.append [t])
      · exact Or.inl (List.mem_append_right _ ht')
  · rw [hok, if_neg Bool.false_ne_true]
    refine ⟨⟨_, rfl, hpushed, hs.session, hkept.trans hs.pendingKept, hs.poppedTx.trans hpopped,
      ?_⟩, hsize, hsub, hout (Or.inr hthrow)⟩
    rw [hobj]
    exact happlied

theorem Assembling.foldl {maximum : Nat} {db : Database ω ρ}
    {done : List (SignedTransaction ω)} {a : Assembly ω ρ}
    (h : Assembling r cps p skip maximum db done a) (ts : List (SignedTransaction ω)) :
    Assembling r cps p skip maximum db (done ++ ts)
      (ts.foldl (Database.includeTransaction r p skip maximum) a) := by
  induction ts generalizing done a with
  | nil => simpa using h
  | cons t ts ih =>
    have := ih (h.include t)
    rwa [List.append_assoc, List.singleton_append] at this

/-! ### Every database that production reaches -/

/-- What holds in every database that the production of blocks reaches: after a block that is too
big the pending transactions are left without their session, and without them the database is
regular. -/
def Loose (r : Rules ω ρ) (cps : Checkpoints) (db : Database ω ρ) : Prop :=
  Regular r cps { db with pendingTx := [] }

theorem Loose.openSession {db : Database ω ρ} (h : Loose r cps db) :
    ∃ core : Database ω ρ, db.openSession = { core with pendingTx := db.pendingTx } ∧
      Consistent r cps core ∧ core.pendingTxSession = true ∧ PendingKept db core ∧
      core.poppedTx = db.poppedTx ∧ core.objects = db.headObjects := by
  obtain ⟨hidle, hobj, hsaved, hlimit, hfork, hblocks, hpopped⟩ := h.toConsistent.clearPending
  have hobj' : db.clearPending.objects = db.headObjects := hobj
  have hlimit' : db.clearPending.undoDb.limit = db.undoDb.limit := hlimit
  have hsaved' : db.clearPending.undoDb.saved = db.committed := hsaved
  have hpos := hidle.limit
  refine ⟨{ db.clearPending.startUndoSession with pendingTxSession := true }, ?_, ?_, rfl, ?_, ?_,
    hobj'⟩
  · unfold Database.openSession Database.clearPending Database.resetPendingSession
    cases hs : db.pendingTxSession <;> simp [hs, Database.startUndoSession, Database.undoSession]
  · refine ⟨congrArg (· + 1) hidle.active, fun _ => by simp [Database.startUndoSession,
      SnapshotStack.start], fun hf => by simp at hf, hpos, ?_⟩
    show Spine r cps (db.clearPending.objects ::
      db.clearPending.undoDb.saved.take db.clearPending.undoDb.limit)
    exact hidle.spine.take (db.clearPending.undoDb.limit + 1)
  · refine ⟨hobj', ⟨db.undoDb.limit, by omega, ?_⟩, le_of_eq hlimit'.symm, hfork, hblocks⟩
    show db.clearPending.undoDb.saved.take db.clearPending.undoDb.limit = _
    rw [hsaved', hlimit']
  · exact hpopped

theorem Loose.assemble {db : Database ω ρ} (h : Loose r cps db) (skip : SkipFlags) :
    Assembling r cps p skip (p.maximumBlockSize db.objects) db db.pendingTx
      (db.assemble r p skip) := by
  obtain ⟨core, hopen, hc, hsession, hkept, hpopped, hobj⟩ := h.openSession
  have hstart : Assembling r cps p skip (p.maximumBlockSize db.objects) db []
      ⟨db.openSession, maxBlockHeaderSize, []⟩ :=
    ⟨⟨core, hopen, hc, hsession, hkept, hpopped, by rw [hobj]; rfl⟩, rfl, List.Sublist.refl [],
      by simp⟩
  have := hstart.foldl db.pendingTx
  rwa [List.nil_append] at this

theorem Loose.closed {db : Database ω ρ} (h : Loose r cps db) (skip : SkipFlags) :
    ∃ idle : Database ω ρ,
      (db.assemble r p skip).db.resetPendingSession = { idle with pendingTx := db.pendingTx } ∧
      Regular r cps idle ∧ Idle r cps idle ∧ PendingKept db idle ∧ idle.objects = db.headObjects := by
  obtain ⟨core, hdb, hc, hsession, hkept, hpopped, -⟩ := (h.assemble (p := p) skip).pushed
  obtain ⟨hidle, hobj, hsaved, hlimit, hfork, hblocks, hpop⟩ := hc.clearPending
  obtain ⟨heap, hheap⟩ := h.heap
  refine ⟨core.clearPending, ?_, ⟨hidle.consistent, ?_, heap, ?_⟩, hidle, ?_,
    hobj.trans hkept.headObjects⟩
  · rw [hdb]
    unfold Database.clearPending Database.resetPendingSession
    simp [hsession, Database.undoSession]
  · exact hpop.trans (hpopped.trans h.poppedTx)
  · rw [hfork, hkept.forkDb]
    exact hheap
  · refine hkept.trans ⟨hidle.headObjects.trans hobj, ?_, le_of_eq hlimit.symm, hfork, hblocks⟩
    refine ⟨core.committed.length + core.undoDb.limit, by omega, ?_⟩
    rw [hidle.committed, hsaved, List.take_of_length_le (by omega)]

theorem Idle.clearPending {db : Database ω ρ} (h : Idle r cps db)
    (l : List (SignedTransaction ω)) :
    ({ db with pendingTx := l } : Database ω ρ).clearPending = db := by
  have hpending : ({ db with pendingTx := [] } : Database ω ρ) = db := by
    obtain ⟨u, f, s, pend, session, popped⟩ := db
    have : pend = [] := h.pendingTx
    rw [this]
  show ({ db with pendingTx := [] } : Database ω ρ).resetPendingSession = db
  rw [hpending, h.reset]

theorem Regular.loose {db : Database ω ρ} (h : Regular r cps db) : Loose r cps db :=
  ⟨⟨h.active, h.saved, fun _ => rfl, h.limit, h.spine⟩, h.poppedTx, h.heap⟩

theorem Loose.pushBlock {db : Database ω ρ} (h : Loose r cps db) (skip : SkipFlags)
    (b : SignedBlock ω) : Regular r cps (db.pushBlock r cps skip b).1 := by
  obtain ⟨hidle, -, -, -, hfork, -, -⟩ := h.toConsistent.clearPending
  obtain ⟨heap, hheap⟩ := h.heap
  obtain ⟨hmid, heap', hheap'⟩ := Database.pushBlockBody_idle hidle (hfork ▸ hheap) skip b
  obtain ⟨h1, h2, h3⟩ := Database.restorePending_kept hmid skip db.pendingTx
  exact ⟨h1, h3, heap', h2.forkDb ▸ hheap'⟩

theorem Loose.pushTransaction {db : Database ω ρ} (h : Loose r cps db) (skip : SkipFlags)
    (t : SignedTransaction ω) : Loose r cps (db.pushTransaction r skip t).1 := by
  have hreg : Loose r cps (({ db with pendingTx := [] } : Database ω ρ).pushTransaction r skip t).1 :=
    (Database.pushTransaction_regular h t).loose
  unfold Loose at hreg ⊢
  rwa [← (Database.pushTransaction_withPending { db with pendingTx := [] } db.pendingTx t).2]
    at hreg

theorem Loose.generateBlock {db : Database ω ρ} (h : Loose r cps db) (q : BlockRequest) :
    Loose r cps (db.generateBlock r cps p q).1 := by
  unfold Database.generateBlock
  split
  · obtain ⟨idle, hclosed, hreg, -⟩ := h.closed (p := p) q.skip
    have hloose : Loose r cps ((db.assemble r p q.skip).db.resetPendingSession) := by
      have := hreg.loose
      rwa [hclosed]
    simp only
    split
    · have hpushed := (hloose.pushBlock q.skip (db.pendingBlock r p q)).loose
      split <;> rename_i heq <;> simpa [heq] using hpushed
    · exact hloose
  · exact h

theorem Produced.loose {db : Database ω ρ} (h : Produced r cps p db) : Loose r cps db := by
  induction h with
  | opened h => exact (Reachable.opened h).regular.loose
  | call _ c ih =>
    cases c with
    | pushBlock b skip => exact (ih.pushBlock skip b).loose
    | pushTransaction t skip => exact ih.pushTransaction skip t
  | generate _ q ih => exact ih.generateBlock q

/-! ### What transactions leave alone -/

section Same

variable {α : Type} {f : Objects ρ → α}
  (hf : ∀ skip s t s', (r.applyTransaction skip s t).result = some s' → f s' = f s)

include hf

theorem Loose.pushBlock_same {db : Database ω ρ} (h : Loose r cps db) (skip : SkipFlags)
    (b : SignedBlock ω) : f (db.pushBlock r cps skip b).1.objects =
      f (db.pushBlock r cps skip b).1.headObjects := by
  obtain ⟨hidle, -, -, -, hfork, -, -⟩ := h.toConsistent.clearPending
  obtain ⟨heap, hheap⟩ := h.heap
  obtain ⟨hmid, -⟩ := Database.pushBlockBody_idle hidle (hfork ▸ hheap) skip b
  obtain ⟨-, hkept, -⟩ := Database.restorePending_kept hmid skip db.pendingTx
  calc f (db.pushBlock r cps skip b).1.objects
      = f (db.clearPending.pushBlockBody r cps skip b).1.objects :=
        Database.restorePending_same hf hmid skip db.pendingTx
    _ = f (db.pushBlock r cps skip b).1.headObjects :=
        congrArg f (hmid.headObjects.symm.trans hkept.headObjects.symm)

theorem Loose.pushTransaction_same {db : Database ω ρ} (h : Loose r cps db)
    (hsame : f db.objects = f db.headObjects) (skip : SkipFlags) (t : SignedTransaction ω) :
    f (db.pushTransaction r skip t).1.objects = f (db.pushTransaction r skip t).1.headObjects := by
  let clean : Database ω ρ := { db with pendingTx := [] }
  have hclean : { (clean.pushTransaction r skip t).1 with pendingTx := [] } =
      { (db.pushTransaction r skip t).1 with pendingTx := [] } :=
    (Database.pushTransaction_withPending db [] t).2
  have hobjects : (clean.pushTransaction r skip t).1.objects =
      (db.pushTransaction r skip t).1.objects := by
    have := congrArg Database.objects hclean
    exact this
  have hhead : (clean.pushTransaction r skip t).1.headObjects =
      (db.pushTransaction r skip t).1.headObjects := by
    have := congrArg Database.headObjects hclean
    exact this
  obtain ⟨hs, -⟩ := Database.pushTransaction_spec h.toConsistent skip t
  calc f (db.pushTransaction r skip t).1.objects
      = f (clean.pushTransaction r skip t).1.objects := congrArg f hobjects.symm
    _ = f db.objects := Database.pushTransaction_same hf h.toConsistent skip t
    _ = f db.headObjects := hsame
    _ = f (clean.pushTransaction r skip t).1.headObjects := congrArg f hs.headObjects.symm
    _ = f (db.pushTransaction r skip t).1.headObjects := congrArg f hhead

theorem Loose.generateBlock_same {db : Database ω ρ} (h : Loose r cps db)
    (hsame : f db.objects = f db.headObjects) (q : BlockRequest) :
    f (db.generateBlock r cps p q).1.objects = f (db.generateBlock r cps p q).1.headObjects := by
  unfold Database.generateBlock
  split
  · obtain ⟨idle, hclosed, hreg, hidle, -⟩ := h.closed (p := p) q.skip
    have hloose : Loose r cps ((db.assemble r p q.skip).db.resetPendingSession) := by
      have := hreg.loose
      rwa [hclosed]
    simp only
    split
    · have hpushed := hloose.pushBlock_same hf q.skip (db.pendingBlock r p q)
      split <;> rename_i heq <;> simpa [heq] using hpushed
    · rw [hclosed]
      exact congrArg f hidle.headObjects.symm
  · exact hsame

theorem Produced.pending_same {db : Database ω ρ} (h : Produced r cps p db) :
    f db.objects = f db.headObjects := by
  induction h with
  | @opened db h =>
    have hidle : Idle r cps db := h.idle
    exact congrArg f hidle.headObjects.symm
  | @call db h c ih =>
    cases c with
    | pushBlock b skip => exact h.loose.pushBlock_same hf skip b
    | pushTransaction t skip => exact h.loose.pushTransaction_same hf ih skip t
  | generate h q ih => exact h.loose.generateBlock_same hf ih q

end Same

/-! ### The block is pushed -/

theorem Rules.applyBlockBody_result {s s' : Objects ρ} {b : SignedBlock ω} :
    (r.applyBlockBody skip s b).result = some s' ↔
      (skip.merkleCheck || b.transactionMerkleRoot == r.merkleRoot b.transactions) = true ∧
      r.validateBlockHeader skip s b = true ∧
      ∃ applied, (r.applyTransactions skip s b.transactions).result = some applied ∧
        (r.finishBlock skip s applied b).result = some s' := by
  unfold Rules.applyBlockBody Rules.finishBlock
  rw [Outcome.result_bind]
  simp only [Outcome.result_assert, exists_and_left, exists_const]
  refine and_congr_right fun _ => ?_
  rw [Outcome.result_bind]
  simp only [Outcome.result_assert, exists_and_left, exists_const]
  refine and_congr_right fun _ => ?_
  rw [Outcome.result_bind]

theorem Checkpoints.Passed.applyBlock {s : Objects ρ} {b : SignedBlock ω}
    (h : cps.Passed b.blockNum) :
    (r.applyBlock cps skip s b).result = (r.applyBlockBody skip s b).result := by
  have hallow : cps.allow b.blockNum (r.blockId b.toBlockHeader) = true := by
    unfold Checkpoints.allow
    split
    · have hnone : cps.find? (·.1 == b.blockNum) = none := by
        rw [List.find?_eq_none]
        intro c hc
        have := h c hc
        simp only [beq_iff_eq]
        omega
      simp [hnone]
    · rfl
  have hskip : cps.skipFlags skip b.blockNum = skip := by
    unfold Checkpoints.skipFlags
    split
    · rename_i n id hlast
      have := h _ (List.mem_of_getLast? hlast)
      rw [if_neg (by simp only at this; omega)]
    · rfl
  refine Option.ext fun s' => ?_
  unfold Rules.applyBlock
  rw [Outcome.result_bind, hallow, hskip]
  simp

theorem Tracks.refused {db : Database ω ρ} (h : Tracks db) (hreg : Regular r cps db)
    (hskip : skip.forkDb = false) {b : SignedBlock ω}
    (hprev : b.previous = db.headObjects.headBlockId)
    (hthrow : (r.applyBlock cps skip db.headObjects b).result = none) :
    (db.clearPending.pushBlockBody r cps skip b).2 = none ∧
      (db.clearPending.pushBlockBody r cps skip b).1.objects = db.headObjects ∧
      (db.clearPending.pushBlockBody r cps skip b).1.poppedTx = db.poppedTx := by
  obtain ⟨hidle, hobj, -, -, hfork, -, hpopped⟩ := hreg.toConsistent.clearPending
  obtain ⟨heap, hheap⟩ := hreg.heap
  obtain ⟨hsome, hhigher⟩ := h.link hreg hprev
  obtain ⟨f, hf⟩ := Option.isSome_iff_exists.mp hsome
  obtain ⟨item, hdata, -, hhead, -⟩ := hheap.pushBlock_higher hf hhigher
  have hprev' : item.data.previous = db.clearPending.headBlockId := by
    rw [hdata, hprev]
    exact (congrArg Objects.headBlockId hobj).symm
  rw [Database.pushBlockBody_direct hskip (hfork ▸ hf) hhead hprev']
  have hnone : (({ db.clearPending with forkDb := f } : Database ω ρ).pushDirect r cps skip b).2 =
      none := by
    unfold Database.pushDirect
    have hspec := Database.applyAndCommit_spec { db.clearPending with forkDb := f } r cps skip b
    generalize Database.applyAndCommit r cps skip _ b = res at hspec
    obtain ⟨db', ok⟩ := res
    rcases hspec with ⟨-, hb⟩ | ⟨hok, -⟩
    · have hs : (r.applyBlock cps skip db.clearPending.objects b).result = some db'.objects :=
        hb.applied
      rw [hobj, hthrow] at hs
      cases hs
    · simp only at hok
      subst hok
      rfl
  obtain ⟨-, h1, -, -, h2⟩ := Database.pushDirect_thrown hnone
  exact ⟨hnone, h1.trans hobj, h2.trans hpopped⟩

/-- What `_push_block` does with the produced block: in `mid` the pending transactions are not
restored yet. -/
inductive PushedOwn (r : Rules ω ρ) (cps : Checkpoints) (p : Production ω ρ) (q : BlockRequest)
    (db mid : Database ω ρ) : Prop
  | applied (hs : (r.applyBlock cps q.skip db.headObjects (db.pendingBlock r p q)).result =
        some mid.objects)
      (hresult : (db.generateBlock r cps p q).2 = some (db.pendingBlock r p q))
  | refused (hs : (r.applyBlock cps q.skip db.headObjects (db.pendingBlock r p q)).result = none)
      (hobj : mid.objects = db.headObjects) (hresult : (db.generateBlock r cps p q).2 = none)

def Database.Producible (r : Rules ω ρ) (p : Production ω ρ) (q : BlockRequest)
    (db : Database ω ρ) : Prop :=
  db.mayProduce r p q = true ∧ (q.blockSizeCheck = true ∨
    db.pendingBlockSize r p q ≤ p.maximumBlockSize db.headObjects)

theorem Loose.produced {db : Database ω ρ} (h : Loose r cps db) (hf : Follows db)
    (hskip : q.skip.forkDb = false) (hok : db.Producible r p q) :
    ∃ mid : Database ω ρ, Idle r cps mid ∧ mid.poppedTx = [] ∧
      (db.generateBlock r cps p q).1 = mid.restorePending r q.skip db.pendingTx ∧
      PushedOwn r cps p q db mid := by
  obtain ⟨idle, hclosed, hreg, hidle, hkept, hobj⟩ := h.closed (p := p) q.skip
  have hobjects : ((db.assemble r p q.skip).db.resetPendingSession).objects = db.headObjects := by
    rw [hclosed]
    exact hobj
  have hfollows : Follows idle := hf.of_same (hidle.headObjects.trans hobj) hkept.forkDb
  have hhead : idle.headObjects = db.headObjects := hidle.headObjects.trans hobj
  have hprev : (db.pendingBlock r p q).previous = idle.headObjects.headBlockId := by
    show (Database.objects _).headBlockId = _
    rw [hobjects, hhead]
  have hself : idle.clearPending = idle := hidle.clearPending idle.pendingTx
  obtain ⟨heap, hheap⟩ := hreg.heap
  obtain ⟨hmid, -⟩ := Database.pushBlockBody_idle hidle hheap q.skip (db.pendingBlock r p q)
  have hgenerate : db.generateBlock r cps p q =
      ((idle.pushBlockBody r cps q.skip (db.pendingBlock r p q)).1.restorePending r q.skip
          db.pendingTx,
        (idle.pushBlockBody r cps q.skip (db.pendingBlock r p q)).2.map
          fun _ => db.pendingBlock r p q) := by
    unfold Database.generateBlock
    simp only [hobjects]
    rw [if_pos hok.1, if_pos hok.2, hclosed]
    unfold Database.pushBlock
    rw [hidle.clearPending]
    generalize idle.pushBlockBody r cps q.skip (db.pendingBlock r p q) = res
    obtain ⟨after, _ | _⟩ := res <;> rfl
  refine ⟨_, hmid, ?_, congrArg Prod.fst hgenerate, ?_⟩
  all_goals cases happly : (r.applyBlock cps q.skip db.headObjects (db.pendingBlock r p q)).result
  case refine_1.some s =>
    obtain ⟨-, -, -, h3, -⟩ := hfollows.tracks.next hreg hskip hprev (hhead.symm ▸ happly)
    rw [hself] at h3
    exact h3.trans hreg.poppedTx
  case refine_1.none =>
    obtain ⟨-, -, h3⟩ := hfollows.tracks.refused hreg hskip hprev (hhead.symm ▸ happly)
    rw [hself] at h3
    exact h3.trans hreg.poppedTx
  case refine_2.some s =>
    obtain ⟨h1, h2, -⟩ := hfollows.tracks.next hreg hskip hprev (hhead.symm ▸ happly)
    rw [hself] at h1 h2
    refine .applied (happly.trans (congrArg some h2.symm)) ?_
    rw [hgenerate, h1]
    rfl
  case refine_2.none =>
    obtain ⟨h1, h2, -⟩ := hfollows.tracks.refused hreg hskip hprev (hhead.symm ▸ happly)
    rw [hself] at h1 h2
    refine .refused happly (h2.trans hhead) ?_
    rw [hgenerate, h1]
    rfl

theorem Loose.unproducible {db : Database ω ρ} (h : Loose r cps db)
    (hno : ¬db.Producible r p q) :
    (db.generateBlock r cps p q).2 = none ∧
      (db.generateBlock r cps p q).1.headObjects = db.headObjects ∧
      (db.generateBlock r cps p q).1.pendingTx = db.pendingTx := by
  obtain ⟨idle, hclosed, -, hidle, -, hobj⟩ := h.closed (p := p) q.skip
  have hobjects : ((db.assemble r p q.skip).db.resetPendingSession).objects = db.headObjects := by
    rw [hclosed]
    exact hobj
  unfold Database.generateBlock
  split
  · rename_i hmay
    simp only [hobjects]
    rw [if_neg fun hsize => hno ⟨hmay, hsize⟩, hclosed]
    exact ⟨rfl, hidle.headObjects.trans hobj, rfl⟩
  · exact ⟨rfl, rfl, rfl⟩

/-- A signature is accepted for exactly the signing key of its private key. -/
def Production.Signs (p : Production ω ρ) (r : Rules ω ρ) : Prop :=
  ∀ (s : Objects ρ) (h : BlockHeader) (key : Nat),
    r.validateSignee s { h with witnessSignature := p.sign key h } =
      decide (p.signingKey s h.witness = p.publicKey key)

/-! ### The small chain with a producer -/

/-- The rules of the small chain, where the counter is the signing key. -/
def keyedRules : Rules Nat Nat :=
  { counterRules with validateSignee := fun s h => decide (s.rest = h.witnessSignature) }

/-- A producer of the small chain, whose slots are 10 apart and whose transactions have 40 bytes. -/
def keyedProduction : Production Nat Nat where
  scheduledWitness s time := if time < s.time + 10 then none else some 0
  signingKey s _ := s.rest
  publicKey key := key
  sign key _ := key
  maximumBlockSize _ := 200
  pendingSize _ := 40
  processedSize _ _ := 40

theorem keyedProduction_signs : keyedProduction.Signs keyedRules := fun _ _ _ => rfl

/-- Some of the transactions `ts` are pending on the genesis. -/
def keyedPending (ts : List (SignedTransaction Nat)) : Database Nat Nat :=
  (counterDatabase 0).calls keyedRules [] (ts.map fun t => .pushTransaction t .nothing)

theorem keyedPending_produced (ts : List (SignedTransaction Nat)) :
    Produced keyedRules [] keyedProduction (keyedPending ts) := by
  have hopened : Opened keyedRules (counterDatabase 0) :=
    ⟨rfl, rfl, rfl, rfl, rfl, rfl, rfl, Or.inl ⟨rfl, rfl, rfl⟩⟩
  unfold keyedPending Database.calls
  generalize ts.map (fun t => Call.pushTransaction t .nothing) = cs
  suffices h : ∀ db, Produced keyedRules [] keyedProduction db →
      Produced keyedRules [] keyedProduction (cs.foldl (Database.call keyedRules []) db) from
    h _ (.opened hopened)
  induction cs with
  | nil => exact fun db h => h
  | cons c cs ih => exact fun db h => ih _ (h.call c)

/-- Three transactions of which the third does not fit. -/
def keyedTrxs : List (SignedTransaction Nat) :=
  [counterTrx 20 [], counterTrx 30 [], counterTrx 40 []]

def keyedRequest (key : Nat) : BlockRequest := ⟨10, 0, key, .nothing, false⟩

theorem keyedTrxs_follows : Follows (keyedPending keyedTrxs) :=
  .genesis (by decide +kernel) (by decide +kernel) (by decide +kernel)

/-! ### The results -/

theorem Loose.blockNum {db : Database ω ρ} (h : Loose r cps db) (q : BlockRequest) :
    (db.pendingBlock r p q).blockNum = db.headObjects.headBlockNumber + 1 := by
  obtain ⟨idle, hclosed, -, -, -, hobj⟩ := h.closed (p := p) q.skip
  have hprev : (db.pendingBlock r p q).previous = db.headObjects.headBlockId := by
    show (Database.objects _).headBlockId = _
    rw [hclosed]
    exact congrArg Objects.headBlockId hobj
  rw [BlockHeader.blockNum, hprev]
  exact congrArg (· + 1) (h.spine.num _ List.mem_cons_self)

theorem Loose.blockResult {db : Database ω ρ} (h : Loose r cps db) (q : BlockRequest)
    (hpast : cps.Passed (db.headObjects.headBlockNumber + 1)) :
    ∃ applied : Objects ρ,
      (r.applyTransactions q.skip db.headObjects (db.pendingBlock r p q).transactions).result =
        some applied ∧
      Chosen r p q.skip db.headObjects (p.maximumBlockSize db.objects) db.pendingTx
        (db.pendingBlock r p q).transactions ∧
      ∀ s, (r.applyBlock cps q.skip db.headObjects (db.pendingBlock r p q)).result = some s ↔
        r.validateBlockHeader q.skip db.headObjects (db.pendingBlock r p q) = true ∧
          (r.finishBlock q.skip db.headObjects applied (db.pendingBlock r p q)).result =
            some s := by
  have ha := h.assemble (p := p) q.skip
  obtain ⟨core, -, -, -, -, -, happlied⟩ := ha.pushed
  have happlied' : (r.applyTransactions q.skip db.headObjects
      (db.pendingBlock r p q).transactions).result = some core.objects := happlied
  have hmerkle : (q.skip.merkleCheck || (db.pendingBlock r p q).transactionMerkleRoot ==
      r.merkleRoot (db.pendingBlock r p q).transactions) = true := by
    rw [Bool.or_eq_true, beq_iff_eq]
    exact Or.inr rfl
  refine ⟨core.objects, happlied', ⟨ha.order, ?_, ha.left⟩, fun s => ?_⟩
  · show (r.applyTransactions q.skip db.headObjects (db.pendingBlock r p q).transactions).result ≠ _
    simp [happlied']
  · rw [Checkpoints.Passed.applyBlock (h.blockNum (p := p) q ▸ hpast), Rules.applyBlockBody_result,
      happlied']
    constructor
    · rintro ⟨-, hheader, applied, happ, hfinish⟩
      obtain rfl := Option.some.inj happ
      exact ⟨hheader, hfinish⟩
    · rintro ⟨hheader, hfinish⟩
      exact ⟨hmerkle, hheader, _, rfl, hfinish⟩

theorem Noted.not_applied {s s' : Objects ρ} {ts : List (SignedTransaction ω)}
    {t : SignedTransaction ω} (h : Noted r s t) (hdupe : skip.transactionDupeCheck = false)
    (hts : (r.applyTransactions skip s ts).result = some s') : t ∉ ts := by
  intro hin
  obtain ⟨before, after, rfl⟩ := List.append_of_mem hin
  induction before generalizing s with
  | nil =>
    obtain ⟨s1, h1, -⟩ := Rules.applyTransactions_cons.mp hts
    obtain ⟨hc, -⟩ := Rules.applyTransaction_result.mp h1
    rw [h.refused hdupe] at hc
    cases hc
  | cons t' before ih =>
    obtain ⟨s1, h1, h2⟩ := Rules.applyTransactions_cons.mp hts
    have hone : (r.applyTransactions skip s [t']).result = some s1 :=
      Rules.applyTransactions_cons.mpr ⟨s1, h1, rfl⟩
    exact ih (Noted.applyTransactions hdupe hone (Or.inl h)) h2 (by simp)

/-- A producer puts those of the pending transactions into the block, in order, that apply on the
head block and fit, and the block is pushed exactly if it may be produced, has the size and the
header that the chain wants, and what follows the transactions does not throw.  The transactions
cannot make it fail, and the head then is the block. -/
theorem generate_block_iff {db : Database ω ρ} (h : Produced r cps p db) (hf : Follows db)
    (q : BlockRequest) (hskip : q.skip.forkDb = false)
    (hpast : cps.Passed (db.headObjects.headBlockNumber + 1)) :
    ∃ applied : Objects ρ,
      (r.applyTransactions q.skip db.headObjects (db.pendingBlock r p q).transactions).result =
        some applied ∧
      Chosen r p q.skip db.headObjects (p.maximumBlockSize db.objects) db.pendingTx
        (db.pendingBlock r p q).transactions ∧
      ((db.generateBlock r cps p q).2.isSome = true ↔ db.Producible r p q ∧
        r.validateBlockHeader q.skip db.headObjects (db.pendingBlock r p q) = true ∧
        (r.finishBlock q.skip db.headObjects applied (db.pendingBlock r p q)).result ≠ none) ∧
      some (db.generateBlock r cps p q).1.headObjects =
        (match (db.generateBlock r cps p q).2 with
        | some b => (r.finishBlock q.skip db.headObjects applied b).result
        | none => some db.headObjects) ∧
      ∀ b, (db.generateBlock r cps p q).2 = some b → b = db.pendingBlock r p q := by
  have hl := h.loose
  obtain ⟨applied, happlied, hchosen, hbody⟩ := hl.blockResult (p := p) q hpast
  have hsplit : (r.applyBlock cps q.skip db.headObjects (db.pendingBlock r p q)).result ≠ none ↔
      r.validateBlockHeader q.skip db.headObjects (db.pendingBlock r p q) = true ∧
        (r.finishBlock q.skip db.headObjects applied (db.pendingBlock r p q)).result ≠ none := by
    simp only [Option.ne_none_iff_exists', hbody, exists_and_left]
  refine ⟨applied, happlied, hchosen, ?_⟩
  by_cases hok : db.Producible r p q
  · obtain ⟨mid, hidle, -, hafter, hmid⟩ := hl.produced hf hskip hok
    have hhead : (db.generateBlock r cps p q).1.headObjects = mid.objects := by
      obtain ⟨-, hkept, -⟩ := Database.restorePending_kept hidle q.skip db.pendingTx
      rw [hafter]
      exact hkept.headObjects.trans hidle.headObjects
    cases hmid with
    | applied hs hresult =>
      have hne : (r.applyBlock cps q.skip db.headObjects (db.pendingBlock r p q)).result ≠ none := by
        simp [hs]
      rw [hresult, hhead]
      refine ⟨⟨fun _ => ⟨hok, hsplit.mp hne⟩, fun _ => rfl⟩, ((hbody _).mp hs).2.symm, ?_⟩
      rintro b hb
      exact (Option.some.inj hb).symm
    | refused hs hobj hresult =>
      rw [hresult, hhead, hobj]
      refine ⟨⟨fun hsome => absurd hsome (by simp), ?_⟩, rfl, ?_⟩
      · rintro ⟨-, hvalid⟩
        exact absurd hs (hsplit.mpr hvalid)
      · rintro b hb
        cases hb
  · obtain ⟨hresult, hhead, -⟩ := hl.unproducible hok
    rw [hresult, hhead]
    refine ⟨⟨fun hsome => absurd hsome (by simp), fun hvalid => absurd hvalid.1 hok⟩, rfl, ?_⟩
    rintro b hb
    cases hb

/-- Of three transactions two fit, and the block with them is pushed. -/
theorem generate_block_iff_two :
    ((keyedPending keyedTrxs).pendingBlock keyedRules keyedProduction
        (keyedRequest 0)).transactions = [counterTrx 20 [], counterTrx 30 []] ∧
      LeftOut keyedRules keyedProduction .nothing (keyedPending keyedTrxs).headObjects 200
        [counterTrx 20 [], counterTrx 30 []] (counterTrx 40 []) := by
  have hblock : ((keyedPending keyedTrxs).pendingBlock keyedRules keyedProduction
      (keyedRequest 0)).transactions = [counterTrx 20 [], counterTrx 30 []] := by decide +kernel
  obtain ⟨_, -, hchosen, -⟩ := generate_block_iff (keyedPending_produced keyedTrxs)
    keyedTrxs_follows (keyedRequest 0) rfl (fun c hc => absurd hc List.not_mem_nil)
  rw [hblock] at hchosen
  have hpending : counterTrx 40 [] ∈ (keyedPending keyedTrxs).pendingTx := by decide +kernel
  exact ⟨hblock, (hchosen.left _ hpending).resolve_left (by decide)⟩

/-- Each of the pending transactions is in the block or known, is pending again, or was rejected on
top of pending ones, and none of those in the block is pending again. -/
theorem generated_transactions_kept {db : Database ω ρ} (h : Produced r cps p db)
    (hf : Follows db) (q : BlockRequest) (hskip : q.skip.forkDb = false)
    (hdupe : q.skip.transactionDupeCheck = false)
    (hpast : cps.Passed (db.headObjects.headBlockNumber + 1)) (hok : db.Producible r p q) :
    (db.generateBlock r cps p q).1.pendingTx.Sublist db.pendingTx ∧
    ((db.generateBlock r cps p q).1.pendingTx.map r.trxId).Nodup ∧
    (∀ t ∈ db.pendingTx, Accounted r q.skip (db.generateBlock r cps p q).1.headObjects
      (db.generateBlock r cps p q).1.pendingTx t) ∧
    ∀ b, (db.generateBlock r cps p q).2 = some b → ∀ t ∈ b.transactions,
      t.toTransaction ∉ (db.generateBlock r cps p q).1.pendingTx.map
        SignedTransaction.toTransaction := by
  have hl := h.loose
  obtain ⟨mid, hidle, hpopped, hafter, hmid⟩ := hl.produced hf hskip hok
  have hret := Database.restorePending_retried hidle hdupe db.pendingTx
  obtain ⟨-, hkept, -⟩ := Database.restorePending_kept hidle q.skip db.pendingTx
  have hhead : (mid.restorePending r q.skip db.pendingTx).headObjects = mid.objects :=
    hkept.headObjects.trans hidle.headObjects
  rw [hpopped, List.nil_append] at hret
  rw [hafter, hhead]
  refine ⟨hret.order, hret.nodup, hret.accounted, fun b hb t ht hin => ?_⟩
  obtain ⟨applied, -, -, hbody⟩ := hl.blockResult (p := p) q hpast
  cases hmid with
  | applied hs hresult =>
    obtain rfl : db.pendingBlock r p q = b := Option.some.inj (hresult.symm.trans hb)
    have hnoted : Noted r mid.objects t :=
      Noted.block hdupe (Rules.applyBlockBody_applied
        (((Checkpoints.Passed.applyBlock (hl.blockNum (p := p) q ▸ hpast)).symm.trans hs))) (Or.inr ht)
    obtain ⟨t', ht', heq⟩ := List.mem_map.mp hin
    have hnoted' : Noted r mid.objects t' := by
      unfold Noted Rules.trxId at hnoted ⊢
      rwa [heq]
    exact hnoted'.not_applied hdupe hret.applied ht'
  | refused _ _ hresult =>
    rw [hresult] at hb
    cases hb

/-- The transaction that did not fit is pending again. -/
theorem generated_transactions_kept_third :
    ((keyedPending keyedTrxs).generateBlock keyedRules [] keyedProduction
        (keyedRequest 0)).1.pendingTx = [counterTrx 40 []] ∧
      ((keyedPending keyedTrxs).generateBlock keyedRules [] keyedProduction
        (keyedRequest 0)).1.pendingTx.Sublist (keyedPending keyedTrxs).pendingTx := by
  refine ⟨by decide +kernel, (generated_transactions_kept (keyedPending_produced keyedTrxs)
    keyedTrxs_follows (keyedRequest 0) rfl rfl (fun c hc => absurd hc List.not_mem_nil)
    ⟨?_, Or.inr ?_⟩).1⟩
  · decide +kernel
  · decide +kernel

/-- The key is checked with the pending transactions applied and the signature without them.  While
a transaction that changes the signing key of the witness is pending, it cannot produce a block with
either key. -/
theorem rotated_key_blocks_production {db : Database ω ρ} (h : Produced r cps p db)
    (hf : Follows db) (hsigns : p.Signs r) (q : BlockRequest) (hskip : q.skip.forkDb = false)
    (hsignature : q.skip.witnessSignature = false)
    (hpast : cps.Passed (db.headObjects.headBlockNumber + 1))
    (hrotated : p.signingKey db.objects q.witness ≠ p.signingKey db.headObjects q.witness) :
    (db.generateBlock r cps p q).2 = none ∧
      (db.generateBlock r cps p q).1.headObjects = db.headObjects := by
  have hl := h.loose
  by_cases hok : db.Producible r p q
  · obtain ⟨mid, hidle, -, hafter, hmid⟩ := hl.produced hf hskip hok
    obtain ⟨_, -, -, hbody⟩ := hl.blockResult (p := p) q hpast
    obtain ⟨-, hkept, -⟩ := Database.restorePending_kept hidle q.skip db.pendingTx
    cases hmid with
    | applied hs hresult =>
      exfalso
      -- The key of the request is the signing key in both states.
      have hpending : p.signingKey db.objects q.witness = p.publicKey q.key := by
        have hmay := hok.1
        simp only [Database.mayProduce, Bool.and_eq_true, hsignature, Bool.false_or,
          decide_eq_true_eq] at hmay
        exact hmay.2
      have hheader := ((hbody _).mp hs).1
      simp only [Rules.validateBlockHeader, Bool.and_eq_true, hsignature, Bool.false_or,
        decide_eq_true_eq] at hheader
      have hsignee := hheader.1.2
      simp only [Database.pendingBlock, hsignature, Bool.false_eq_true, if_false] at hsignee
      have hkey := of_decide_eq_true ((hsigns _ ⟨_, _, _, _, 0⟩ q.key).symm.trans hsignee)
      exact hrotated (hpending.trans hkey.symm)
    | refused hs hobj hresult =>
      refine ⟨hresult, ?_⟩
      rw [hafter]
      exact hkept.headObjects.trans (hidle.headObjects.trans hobj)
  · obtain ⟨hresult, hhead, -⟩ := hl.unproducible hok
    exact ⟨hresult, hhead⟩

/-- With a pending transaction that changes the key from 0 to 1, the key 1 produces no block. -/
theorem rotated_key_blocks_production_one :
    (keyedPending [counterTrx 20 [1]]).objects.rest = 1 ∧
      ((keyedPending [counterTrx 20 [1]]).generateBlock keyedRules [] keyedProduction
        (keyedRequest 1)).2 = none := by
  have hfollows : Follows (keyedPending [counterTrx 20 [1]]) :=
    .genesis (by decide +kernel) (by decide +kernel) (by decide +kernel)
  refine ⟨by decide +kernel, (rotated_key_blocks_production (keyedPending_produced _) hfollows
    keyedProduction_signs (keyedRequest 1) rfl rfl (fun c hc => absurd hc List.not_mem_nil) ?_).1⟩
  decide +kernel

/-! ### The size of the block -/

theorem varintSize_le {n k : Nat} (hk : 0 < k) (h : n < 128 ^ k) : varintSize n ≤ k := by
  unfold varintSize
  have := Nat.log_lt_of_lt_pow' hk.ne' h
  omega

/-- The transactions of a block that is put together stay below the maximum size. -/
structure Fits (maximum : Nat) (a : Assembly ω ρ) : Prop where
  below : a.transactions = [] ∧ a.totalBlockSize = maxBlockHeaderSize ∨ a.totalBlockSize < maximum
  count : maxBlockHeaderSize + a.transactions.length ≤ a.totalBlockSize

theorem Fits.include {maximum : Nat} {a : Assembly ω ρ}
    (hgrow : ∀ s t, 0 < p.processedSize s t ∧ p.processedSize s t ≤ p.pendingSize t)
    (h : Fits maximum a) (t : SignedTransaction ω) :
    Fits maximum (Database.includeTransaction r p skip maximum a t) := by
  obtain ⟨hpos, hle⟩ := hgrow a.db.objects t
  unfold Database.includeTransaction
  split
  · exact h
  · split
    · have hcount := h.count
      refine ⟨Or.inr ?_, ?_⟩
      · show a.totalBlockSize + p.processedSize a.db.objects t < maximum
        omega
      · show maxBlockHeaderSize + (a.transactions ++ [t]).length ≤
          a.totalBlockSize + p.processedSize a.db.objects t
        rw [List.length_append, List.length_singleton]
        omega
    · exact ⟨h.below, h.count⟩

theorem Fits.foldl {maximum : Nat} {a : Assembly ω ρ}
    (hgrow : ∀ s t, 0 < p.processedSize s t ∧ p.processedSize s t ≤ p.pendingSize t)
    (h : Fits maximum a) (ts : List (SignedTransaction ω)) :
    Fits maximum (ts.foldl (Database.includeTransaction r p skip maximum) a) := by
  induction ts generalizing a with
  | nil => exact h
  | cons t ts ih => exact ih (h.include hgrow t)

theorem pendingBlockSize_le (r : Rules ω ρ) (q : BlockRequest) (db : Database ω ρ)
    (hgrow : ∀ s t, 0 < p.processedSize s t ∧ p.processedSize s t ≤ p.pendingSize t)
    (hwitness : q.witness < 128 ^ 3) (hmin : 114 ≤ p.maximumBlockSize db.objects)
    (hmax : p.maximumBlockSize db.objects ≤ 128 ^ 3) :
    db.pendingBlockSize r p q ≤ p.maximumBlockSize db.objects := by
  have hstart : Fits (p.maximumBlockSize db.objects)
      (⟨db.openSession, maxBlockHeaderSize, []⟩ : Assembly ω ρ) :=
    ⟨Or.inl ⟨rfl, rfl⟩, le_rfl⟩
  obtain ⟨hbelow, hcount⟩ : Fits (p.maximumBlockSize db.objects) (db.assemble r p q.skip) :=
    hstart.foldl hgrow db.pendingTx
  have hheader : maxBlockHeaderSize = 115 := by
    simp [maxBlockHeaderSize, packedHeaderSize, varintSize]
  have hwitness' := varintSize_le (by omega) hwitness
  unfold Database.pendingBlockSize packedBlockSize packedHeaderSize
  simp only
  rcases hbelow with ⟨hnone, hsize⟩ | hbelow
  · have hzero : varintSize ([] : List (SignedTransaction ω)).length = 1 := by simp [varintSize]
    rw [hnone, hsize, hzero]
    omega
  · have hcount' := varintSize_le (n := (db.assemble r p q.skip).transactions.length) (k := 3)
      (by omega) (by omega)
    omega

/-- While the operation results do not grow and no transaction changes the maximum block size, no
block is too big: the size that the loop reserves for the header leaves the room for the number of
the witness and for that of the transactions.  So a producer does the same as without the check. -/
theorem generated_block_fits {db : Database ω ρ} (h : Produced r cps p db) (q : BlockRequest)
    (hkeeps : ∀ skip s t s', (r.applyTransaction skip s t).result = some s' →
      p.maximumBlockSize s' = p.maximumBlockSize s)
    (hgrow : ∀ s t, 0 < p.processedSize s t ∧ p.processedSize s t ≤ p.pendingSize t)
    (hwitness : q.witness < 128 ^ 3) (hmin : 114 ≤ p.maximumBlockSize db.headObjects)
    (hmax : p.maximumBlockSize db.headObjects ≤ 128 ^ 3) :
    db.pendingBlockSize r p q ≤ p.maximumBlockSize db.headObjects ∧
      db.generateBlock r cps p q =
        db.generateBlock r cps p { q with blockSizeCheck := true } := by
  have hmaximum : p.maximumBlockSize db.objects = p.maximumBlockSize db.headObjects :=
    h.pending_same hkeeps
  have hsize : db.pendingBlockSize r p q ≤ p.maximumBlockSize db.headObjects :=
    hmaximum ▸ pendingBlockSize_le r q db hgrow hwitness (hmaximum ▸ hmin) (hmaximum ▸ hmax)
  obtain ⟨idle, hclosed, -, -, -, hobj⟩ := h.loose.closed (p := p) q.skip
  have hobjects : ((db.assemble r p q.skip).db.resetPendingSession).objects = db.headObjects := by
    rw [hclosed]
    exact hobj
  refine ⟨hsize, ?_⟩
  have hchecked : q.blockSizeCheck = true ∨ db.pendingBlockSize r p q ≤
      p.maximumBlockSize ((db.assemble r p q.skip).db.resetPendingSession).objects :=
    Or.inr (hobjects ▸ hsize)
  unfold Database.generateBlock
  simp only [if_pos hchecked, true_or, if_true]
  rfl

theorem generated_block_fits_two :
    (keyedPending keyedTrxs).pendingBlockSize keyedRules keyedProduction (keyedRequest 0) ≤ 200 ∧
      (keyedPending keyedTrxs).generateBlock keyedRules [] keyedProduction (keyedRequest 0) =
        (keyedPending keyedTrxs).generateBlock keyedRules [] keyedProduction
          { keyedRequest 0 with blockSizeCheck := true } :=
  generated_block_fits (keyedPending_produced keyedTrxs) (keyedRequest 0) (fun _ _ _ _ _ => rfl)
    (fun _ _ => ⟨Nat.succ_pos 39, le_rfl⟩) (by decide) (by decide) (by decide)

end Nestchain.Chain
