import Nestchain.Chain.ForkDatabase
import Nestchain.Lib.SnapshotStack

/-! `database`: pushing blocks and transactions, popping blocks, switching forks and restoring the
pending transactions.  A function that may throw returns the database it leaves in either case. -/

namespace Nestchain.Chain

open Nestchain.Lib

/-- The object database with its undo history, the fork database, the block store, and the pending
and popped transactions. -/
structure Database (ω ρ : Type) where
  undoDb : SnapshotStack (Objects ρ)
  forkDb : ForkDatabase ω
  /-- `_block_id_to_block`: by number, the id and the block stored last. -/
  blockIdToBlock : Nat → Option (BlockId × SignedBlock ω)
  pendingTx : List (SignedTransaction ω)
  /-- `_pending_tx_session.valid()`. -/
  pendingTxSession : Bool
  poppedTx : List (SignedTransaction ω)

variable {ω ρ : Type}

/-- The sessions of `push_proposal`, which raises the maximum size so that none is dropped. -/
def Proposals.run {σ : Type} : Proposals → SnapshotStack σ → SnapshotStack σ
  | .done, u => u
  | .push inner merged next, u =>
    let v := inner.run u.startNested
    next.run (if merged then v.merge else v.undo)

namespace Database

def objects (db : Database ω ρ) : Objects ρ := db.undoDb.current

def headBlockId (db : Database ω ρ) : BlockId := db.objects.headBlockId

def headBlockNum (db : Database ω ρ) : Nat := db.objects.headBlockNumber

/-- Carry out an effect of applying a block or a transaction. -/
def runEffect (db : Database ω ρ) : Effect → Database ω ρ
  | .proposals p => { db with undoDb := p.run db.undoDb }
  | .setMaxSize n =>
    { db with undoDb := { db.undoDb with limit := n }, forkDb := db.forkDb.setMaxSize n }

/-- Carry out an outcome: the database after the effects, and whether it was not thrown. -/
def perform (db : Database ω ρ) (o : Outcome (Objects ρ)) : Database ω ρ × Bool :=
  let after := o.effects.foldl runEffect db
  match o.result with
  | some s => ({ after with undoDb := after.undoDb.set s }, true)
  | none => (after, false)

def startUndoSession (db : Database ω ρ) : Database ω ρ := { db with undoDb := db.undoDb.start }

/-- The destructor of a session that was neither committed nor merged. -/
def undoSession (db : Database ω ρ) : Database ω ρ := { db with undoDb := db.undoDb.undo }

/-- `_pending_tx_session.reset()`. -/
def resetPendingSession (db : Database ω ρ) : Database ω ρ :=
  if db.pendingTxSession then { db.undoSession with pendingTxSession := false } else db

/-- `fetch_block_by_id`. -/
def fetchBlockById (db : Database ω ρ) (id : BlockId) : Option (SignedBlock ω) :=
  match db.forkDb.fetchBlock id with
  | some i => some i.data
  | none => (db.blockIdToBlock id.num).bind fun e => if e.1 = id then some e.2 else none

/-- `pop_block`, while a caller holds the items `held`. -/
def popBlock (db : Database ω ρ) (held : List (ForkItem ω)) : Database ω ρ × Bool :=
  let db := db.resetPendingSession
  match db.fetchBlockById db.headBlockId with
  | none => (db, false)
  | some b =>
    match db.forkDb.popBlock held with
    | none => (db, false)
    | some f =>
      match db.undoDb.popCommit with
      | none => ({ db with forkDb := f }, false)
      | some u =>
        ({ db with forkDb := f, undoDb := u, poppedTx := b.transactions ++ db.poppedTx }, true)

/-- Pop blocks until the head block is `target`.  Every pop takes a saved state, and a pop without
one throws, so the fuel is not used up. -/
def popUntil (held : List (ForkItem ω)) (target : BlockId) :
    Nat → Database ω ρ → Database ω ρ × Bool
  | 0, db => (db, false)
  | fuel + 1, db =>
    if db.headBlockId = target then (db, true)
    else
      match db.popBlock held with
      | (db, true) => popUntil held target fuel db
      | (db, false) => (db, false)

section Pushing

variable (r : Rules ω ρ) (cps : Checkpoints) (skip : SkipFlags)

/-- Apply a block in a session of its own, and store and commit it; when it throws the session is
undone. -/
def applyAndCommit (db : Database ω ρ) (b : SignedBlock ω) : Database ω ρ × Bool :=
  match db.startUndoSession.perform (r.applyBlock cps skip db.objects b) with
  | (db, true) =>
    ({ db with
      blockIdToBlock :=
        Function.update db.blockIdToBlock b.blockNum (some (r.blockId b.toBlockHeader, b))
      undoDb := db.undoDb.commit }, true)
  | (db, false) => (db.undoSession, false)

/-- Push the blocks of a branch, the lowest first: the database and the items from the first that
throws on. -/
def pushBranch : List (ForkItem ω) → Database ω ρ → Database ω ρ × List (ForkItem ω)
  | [], db => (db, [])
  | i :: is, db =>
    match db.applyAndCommit r cps skip i.data with
    | (db, true) => pushBranch is db
    | (db, false) => (db, i :: is)

/-- The fork switch of `_push_block` between the branches `first`, of the new head, and `second`, of
the current one: whether it switched, or `none` when it throws. -/
def switchForks (db : Database ω ρ) (first second : List (ForkItem ω)) :
    Database ω ρ × Option Bool :=
  match second.getLast? with
  | none => (db, none)
  | some fork =>
    match db.popUntil (first ++ second) fork.data.previous (db.undoDb.saved.length + 1) with
    | (db, false) => (db, none)
    | (db, true) =>
      match pushBranch r cps skip first.reverse db with
      | (db, []) => (db, some true)
      | (db, bad) =>
        -- The rest of the new branch is invalid, and the old branch is restored.
        let db := { db with
          forkDb := (db.forkDb.removeAll bad).setHead second.head? }
        match db.popUntil (first ++ second) fork.data.previous (db.undoDb.saved.length + 1) with
        | (db, false) => (db, none)
        | (db, true) => ((pushBranch r cps skip second.reverse db).1, none)

/-- The end of `_push_block`: the block is applied on the head block. -/
def pushDirect (db : Database ω ρ) (b : SignedBlock ω) : Database ω ρ × Option Bool :=
  match db.applyAndCommit r cps skip b with
  | (db, true) => (db, some false)
  | (db, false) => ({ db with forkDb := db.forkDb.remove (r.blockId b.toBlockHeader) }, none)

/-- `_push_block`: whether it switched forks, or `none` when it throws. -/
def pushBlockBody (db : Database ω ρ) (b : SignedBlock ω) : Database ω ρ × Option Bool :=
  if skip.forkDb then db.pushDirect r cps skip b
  else
    match db.forkDb.pushBlock r b with
    | none => (db, none)
    | some f =>
      let db := { db with forkDb := f }
      match f.head with
      | none => (db, none)
      | some newHead =>
        if newHead.data.previous ≠ db.headBlockId then
          if newHead.data.blockNum > db.headBlockNum then
            match f.fetchBranchFrom newHead.id db.headBlockId with
            | none => (db, none)
            | some (first, second) => db.switchForks r cps skip first second
          else (db, some false)
        else db.pushDirect r cps skip b

/-- `_push_transaction`, and whether it was not thrown. -/
def pushTransaction (db : Database ω ρ) (t : SignedTransaction ω) : Database ω ρ × Bool :=
  let db := if db.pendingTxSession then db
    else { db.startUndoSession with pendingTxSession := true }
  match db.startUndoSession.perform (r.applyTransaction skip db.objects t) with
  | (db, true) => ({ db with undoDb := db.undoDb.merge, pendingTx := db.pendingTx ++ [t] }, true)
  | (db, false) => (db.undoSession, false)

/-- Retry a popped or pending transaction, unless it is known. -/
def retryTransaction (db : Database ω ρ) (t : SignedTransaction ω) : Database ω ρ :=
  if db.objects.isKnownTransaction (r.trxId t) then db else (db.pushTransaction r skip t).1

/-- The destructor of `pending_transactions_restorer`. -/
def restorePending (db : Database ω ρ) (pending : List (SignedTransaction ω)) : Database ω ρ :=
  let popped := db.poppedTx.foldl (retryTransaction r skip) db
  pending.foldl (retryTransaction r skip) { popped with poppedTx := [] }

/-- `clear_pending`, after the pending transactions were moved away. -/
def clearPending (db : Database ω ρ) : Database ω ρ :=
  { db with pendingTx := [] }.resetPendingSession

/-- `push_block`: whether it switched forks, or `none` when it throws. -/
def pushBlock (db : Database ω ρ) (b : SignedBlock ω) : Database ω ρ × Option Bool :=
  let (after, switched) := db.clearPending.pushBlockBody r cps skip b
  (after.restorePending r skip db.pendingTx, switched)

end Pushing

/-- The state of the objects at the head block, without the pending transactions. -/
def headObjects (db : Database ω ρ) : Objects ρ :=
  if db.pendingTxSession then db.undoDb.saved.headD db.objects else db.objects

/-- The saved states of the committed sessions, one for each block that can be popped. -/
def committed (db : Database ω ρ) : List (Objects ρ) :=
  if db.pendingTxSession then db.undoDb.saved.tail else db.undoDb.saved

end Database

/-- A call of one of the two entry points. -/
inductive Call (ω : Type) where
  | pushBlock (b : SignedBlock ω) (skip : SkipFlags)
  | pushTransaction (t : SignedTransaction ω) (skip : SkipFlags)

/-- The database after a call, whether it returns or throws. -/
def Database.call (r : Rules ω ρ) (cps : Checkpoints) (db : Database ω ρ) :
    Call ω → Database ω ρ
  | .pushBlock b skip => (db.pushBlock r cps skip b).1
  | .pushTransaction t skip => (db.pushTransaction r skip t).1

/-- A database that was just opened on the objects `s`, with nothing to undo.  The fork database
holds the head block, or nothing at genesis. -/
structure Opened (r : Rules ω ρ) (db : Database ω ρ) : Prop where
  invariant : db.objects.headBlockId.num = db.objects.headBlockNumber
  saved : db.undoDb.saved = []
  active : db.undoDb.active = 0
  limit : db.undoDb.limit = minUndoHistory
  pendingTx : db.pendingTx = []
  pendingTxSession : db.pendingTxSession = false
  poppedTx : db.poppedTx = []
  forkDb : (db.forkDb.head = none ∧ db.forkDb.index = [] ∧ db.objects.headBlockId = BlockId.zero) ∨
    ∃ b f, r.blockId b.toBlockHeader = db.objects.headBlockId ∧ f.index = [] ∧
      db.forkDb = ForkDatabase.startBlock r f b

/-- The databases that runs of the entry points reach from an opened one. -/
inductive Reachable (r : Rules ω ρ) (cps : Checkpoints) : Database ω ρ → Prop
  | opened {db : Database ω ρ} (h : Opened r db) : Reachable r cps db
  | call {db : Database ω ρ} (h : Reachable r cps db) (c : Call ω) :
      Reachable r cps (db.call r cps c)

end Nestchain.Chain
