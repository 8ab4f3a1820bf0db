import Nestchain.Chain.Follow
import Mathlib.Algebra.BigOperators.Group.List.Basic
import Mathlib.Algebra.GroupWithZero.Nat
import Mathlib.Algebra.Order.BigOperators.Group.List
import Mathlib.Algebra.Order.Group.Nat

/-! `reindex`: the stored blocks are applied again, with checks switched off that the blocks passed
when they were pushed.  The duplicate check that is switched off also fills `transaction_index`, so
the replayed objects are those of the live run with that index left as it was. -/

namespace Nestchain.Chain

open Nestchain.Lib

variable {ω ρ : Type} {r : Rules ω ρ} {cps : Checkpoints}

/-- The skip flags of `reindex`. -/
def SkipFlags.reindex : SkipFlags :=
  { SkipFlags.nothing with
    witnessSignature := true
    transactionSignatures := true
    transactionDupeCheck := true
    taposCheck := true
    witnessScheduleCheck := true
    authorityCheck := true }

/-- The objects that a block creates in `transaction_index`, by which its next id is moved on. -/
def Checkpoints.created (cps : Checkpoints) (skip : SkipFlags) (b : SignedBlock ω) : Nat :=
  if (cps.skipFlags skip b.blockNum).transactionDupeCheck then 0 else b.transactions.length

/-- A database with the next id of its `transaction_index`. -/
structure Indexed (ω ρ : Type) where
  database : Database ω ρ
  nextTransactionId : Nat

/-! ### The code -/

/-- One block of the loop of `reindex`: below the undo point it is applied with the undo history
disabled, from there on it is pushed. -/
def Indexed.reindexBlock (r : Rules ω ρ) (cps : Checkpoints) (undoPoint i : Nat) (d : Indexed ω ρ)
    (b : SignedBlock ω) : Indexed ω ρ × Bool :=
  if i < undoPoint then
    let x := d.database.perform (r.applyBlock cps .reindex d.database.objects b)
    (⟨x.1, d.nextTransactionId + cps.created .reindex b⟩, x.2)
  else
    let x := d.database.pushBlock r cps .reindex b
    (⟨x.1, d.nextTransactionId + cps.created .reindex b⟩, x.2.isSome)

/-- The loop of `reindex` over `n` block numbers from `i` on.  At a gap the blocks after it are
dropped from the store. -/
def Indexed.reindexFrom (r : Rules ω ρ) (cps : Checkpoints) (undoPoint : Nat) :
    Nat → Nat → Indexed ω ρ → Indexed ω ρ × Bool
  | 0, _, d => (d, true)
  | n + 1, i, d =>
    match d.database.blockIdToBlock i with
    | none =>
      ({ d with database := { d.database with
        blockIdToBlock := fun j => if j ≤ i then d.database.blockIdToBlock j else none } }, true)
    | some (_, b) =>
      match d.reindexBlock r cps undoPoint i b with
      | (d, true) => d.reindexFrom r cps undoPoint n (i + 1)
      | (d, false) => (d, false)

/-- `reindex`, with the number of the last block in the store, and whether it was not thrown. -/
def Indexed.reindex (r : Rules ω ρ) (cps : Checkpoints) (last : Nat) (d : Indexed ω ρ) :
    Indexed ω ρ × Bool :=
  let head := d.database.headBlockNum
  let undoPoint := if last < 50 then 0 else last - 50
  if last ≤ head then (d, true)
  else if undoPoint ≤ head ∧ 0 < head then
    match d.database.blockIdToBlock head with
    | none => (d, false)
    | some (_, b) =>
      Indexed.reindexFrom r cps undoPoint (last - head) (head + 1) { d with
        database := { d.database with forkDb := d.database.forkDb.startBlock r b } }
  else d.reindexFrom r cps undoPoint (last - head) (head + 1)

/-! ### Blocks without the duplicate check -/

/-- The functions that block application calls do not read `transaction_index`. -/
structure Rules.IgnoresTransactions (r : Rules ω ρ) : Prop where
  applyOperations : ∀ s l t, r.applyOperations { s with transactions := l } t =
    r.applyOperations s t
  hasWitness : ∀ s l w, r.hasWitness { s with transactions := l } w = r.hasWitness s w
  updateMissedBlocks : ∀ s l h,
    r.updateMissedBlocks { s with transactions := l } h = r.updateMissedBlocks s h
  payWitness : ∀ s l h, r.payWitness { s with transactions := l } h = r.payWitness s h
  maintenanceNeeded : ∀ s l h,
    r.maintenanceNeeded { s with transactions := l } h = r.maintenanceNeeded s h
  performChainMaintenance : ∀ s l b,
    r.performChainMaintenance { s with transactions := l } b = r.performChainMaintenance s b
  processExpired : ∀ s l b, r.processExpired { s with transactions := l } b = r.processExpired s b

/-- The objects with an empty `transaction_index`. -/
def Objects.forget (s : Objects ρ) : Objects ρ := { s with transactions := [] }

/-- Flags that skip what `skip` skips, and the checks of `reindex`. -/
structure SkipFlags.Looser (skip skip' : SkipFlags) : Prop where
  dupeCheck : skip'.transactionDupeCheck = true
  taposCheck : skip'.taposCheck = true
  authorityCheck : skip'.authorityCheck = true
  witnessSignature : skip'.witnessSignature = true
  witnessScheduleCheck : skip'.witnessScheduleCheck = true
  merkleCheck : skip.merkleCheck = true → skip'.merkleCheck = true
  undoHistoryCheck : skip.undoHistoryCheck = true → skip'.undoHistoryCheck = true

theorem Checkpoints.looser (cps : Checkpoints) (num : Nat) :
    SkipFlags.Looser (cps.skipFlags .nothing num) (cps.skipFlags .reindex num) := by
  unfold Checkpoints.skipFlags
  split
  · split
    · exact ⟨rfl, rfl, rfl, rfl, rfl, fun _ => rfl, fun _ => rfl⟩
    · exact ⟨rfl, rfl, rfl, rfl, rfl, id, id⟩
  · exact ⟨rfl, rfl, rfl, rfl, rfl, id, id⟩

section

variable {skip skip' : SkipFlags} {s s' : Objects ρ}

theorem Rules.applyTransaction_forget (hr : r.IgnoresTransactions) (hskip : skip.Looser skip')
    {t : SignedTransaction ω} (h : (r.applyTransaction skip s t).result = some s') :
    (r.applyTransaction skip' s.forget t).result = some s'.forget := by
  obtain ⟨hcheck, rest, hrest, rfl⟩ := Rules.applyTransaction_result.mp h
  have hnote : r.noteTransaction skip' s.forget t = s.forget := if_pos hskip.dupeCheck
  refine Rules.applyTransaction_result.mpr ⟨?_, rest, ?_, ?_⟩
  · simp only [Rules.checkTransaction, Bool.and_eq_true, Bool.or_eq_true] at hcheck ⊢
    obtain ⟨⟨⟨hvalid, -⟩, -⟩, hexpire⟩ := hcheck
    refine ⟨⟨⟨hvalid, Or.inl hskip.dupeCheck⟩, Or.inl (Or.inr hskip.authorityCheck)⟩, ?_⟩
    rcases hexpire with h | ⟨⟨-, h1⟩, h2⟩
    · exact Or.inl h
    · exact Or.inr ⟨⟨Or.inl hskip.taposCheck, h1⟩, h2⟩
  · have hignore : r.applyOperations s.forget t =
        r.applyOperations (r.noteTransaction skip s t) t := by
      unfold Rules.noteTransaction
      split
      · exact hr.applyOperations s [] t
      · exact (hr.applyOperations s [] t).trans (hr.applyOperations s _ t).symm
    rw [hnote, hignore]
    exact hrest
  · rw [hnote]
    unfold Rules.noteTransaction
    split <;> rfl

theorem Rules.applyTransactions_forget (hr : r.IgnoresTransactions) (hskip : skip.Looser skip')
    {ts : List (SignedTransaction ω)} (h : (r.applyTransactions skip s ts).result = some s') :
    (r.applyTransactions skip' s.forget ts).result = some s'.forget := by
  induction ts generalizing s with
  | nil =>
    obtain rfl := Outcome.result_pure.mp h
    rfl
  | cons t ts ih =>
    obtain ⟨s1, h1, h2⟩ := Rules.applyTransactions_cons.mp h
    exact Rules.applyTransactions_cons.mpr ⟨_, Rules.applyTransaction_forget hr hskip h1, ih h2⟩

theorem Rules.maintain_forget (hr : r.IgnoresTransactions) {needed : Bool} {b : SignedBlock ω}
    (h : (r.maintain needed s b).result = some s') :
    (r.maintain needed s.forget b).result = some s'.forget := by
  unfold Rules.maintain at h ⊢
  split
  · rename_i hneeded
    rw [if_pos hneeded] at h
    simp only [Outcome.result_bind, Outcome.result_ofOption, Outcome.result_pure] at h ⊢
    obtain ⟨m, hm, rfl⟩ := h
    exact ⟨m, (hr.performChainMaintenance s [] b).trans hm, rfl⟩
  · rename_i hneeded
    rw [if_neg hneeded] at h
    obtain rfl := Outcome.result_pure.mp h
    rfl

theorem Rules.applyBlockBody_forget (hr : r.IgnoresTransactions) (hskip : skip.Looser skip')
    {b : SignedBlock ω} (h : (r.applyBlockBody skip s b).result = some s') :
    (r.applyBlockBody skip' s.forget b).result = some s'.forget := by
  simp only [Rules.applyBlockBody, Outcome.result_bind, Outcome.result_assert,
    Outcome.result_effect, Outcome.result_ofOption, Outcome.result_pure] at h ⊢
  obtain ⟨_, hmerkle, _, hheader, applied, happlied, headed, hheaded, confirmed, hconfirmed,
    maintained, hmaintained, _, -, rest, hrest, rfl⟩ := h
  refine ⟨(), ?_, (), ?_, applied.forget, Rules.applyTransactions_forget hr hskip happlied,
    headed.forget, ?_, confirmed.forget, ?_, maintained.forget, ?_, (), trivial, rest, ?_, ?_⟩
  · rw [Bool.or_eq_true] at hmerkle ⊢
    exact hmerkle.imp_left hskip.merkleCheck
  · simp only [Rules.validateBlockHeader, Bool.and_eq_true, Bool.or_eq_true] at hheader ⊢
    obtain ⟨⟨⟨hprev, hwitness⟩, -⟩, -⟩ := hheader
    refine ⟨⟨⟨hprev, ?_⟩, Or.inl hskip.witnessSignature⟩, Or.inl hskip.witnessScheduleCheck⟩
    exact (hr.hasWitness s [] b.witness).trans hwitness
  · simp only [Rules.updateGlobalDynamicData, Outcome.result_bind, Outcome.result_assert,
      Outcome.result_effect, Outcome.result_ofOption, Outcome.result_pure, Bool.or_eq_true]
      at hheaded ⊢
    obtain ⟨rest', hmissed, _, hhistory, _, -, rfl⟩ := hheaded
    exact ⟨rest', (hr.updateMissedBlocks applied [] _).trans hmissed, (),
      hhistory.imp_left hskip.undoHistoryCheck, (), trivial, rfl⟩
  · simp only [Rules.updateSigningWitness, Outcome.result_bind, Outcome.result_ofOption,
      Outcome.result_pure] at hconfirmed ⊢
    obtain ⟨rest', hpay, rfl⟩ := hconfirmed
    exact ⟨rest', (hr.payWitness headed [] _).trans hpay, rfl⟩
  · have hneeded : r.maintenanceNeeded s.forget b.toBlockHeader =
        r.maintenanceNeeded s b.toBlockHeader := hr.maintenanceNeeded s [] _
    rw [hneeded]
    exact Rules.maintain_forget hr hmaintained
  · rw [← hrest]
    exact congrArg Prod.snd ((hr.processExpired _ _ _).trans (hr.processExpired _ _ _).symm)
  · rfl

theorem Rules.applyBlock_forget (hr : r.IgnoresTransactions) {b : SignedBlock ω}
    (h : (r.applyBlock cps .nothing s b).result = some s') :
    (r.applyBlock cps .reindex s.forget b).result = some s'.forget := by
  simp only [Rules.applyBlock, Outcome.result_bind, Outcome.result_assert] at h ⊢
  obtain ⟨_, hallow, h⟩ := h
  exact ⟨(), hallow, Rules.applyBlockBody_forget hr (cps.looser _) h⟩

end

/-! ### The loop -/

/-- A database in the course of `reindex`, at the objects `s` and with the blocks of `store` from
the number `i` on. -/
structure Replaying (r : Rules ω ρ) (cps : Checkpoints)
    (store : Nat → Option (BlockId × SignedBlock ω))
    (i : Nat) (s : Objects ρ) (db : Database ω ρ) : Prop where
  idle : Idle r cps db
  poppedTx : db.poppedTx = []
  heap : ∃ heap, ForkHeap r heap db.forkDb
  tracks : Tracks db
  objects : db.objects = s
  blocks : ∀ j, i ≤ j → db.blockIdToBlock j = store j

section

variable {store : Nat → Option (BlockId × SignedBlock ω)} {i : Nat} {s s' : Objects ρ}
  {db : Database ω ρ} {b : SignedBlock ω}

theorem Replaying.regular (h : Replaying r cps store i s db) : Regular r cps db :=
  ⟨h.idle.consistent, h.poppedTx, h.heap⟩

theorem Replaying.push (h : Replaying r cps store i s db) (hnum : b.blockNum = i)
    (hb : (r.applyBlock cps .reindex s b).result = some s') :
    (db.pushBlock r cps .reindex b).2 = some false ∧
      Replaying r cps store (i + 1) s' (db.pushBlock r cps .reindex b).1 := by
  have hobj : db.headObjects = s := h.idle.headObjects.trans h.objects
  have happlied := Rules.applyBlock_applied hb
  obtain ⟨hreturn, hobjects, hblocks, hpopped, x, hx, hxid, item, hitem, hitemid⟩ :=
    h.tracks.next h.regular (b := b) rfl (hobj ▸ happlied.previous.symm) (hobj ▸ hb)
  obtain ⟨hidle, -, -, -, hfork, -, -⟩ := h.regular.toConsistent.clearPending
  obtain ⟨heap, hheap⟩ := h.heap
  obtain ⟨hmid, hheap'⟩ := Database.pushBlockBody_idle hidle (hfork ▸ hheap) .reindex b
  have hnone := hpopped.trans h.poppedTx
  -- there is nothing to restore
  have hpush : db.pushBlock r cps .reindex b = db.clearPending.pushBlockBody r cps .reindex b := by
    unfold Database.pushBlock Database.restorePending
    rw [h.idle.pendingTx]
    simp only [hnone, List.foldl_nil]
    rw [← hnone]
  rw [hpush]
  have hheadId : (db.clearPending.pushBlockBody r cps .reindex b).1.headObjects.headBlockId =
      r.blockId b.toBlockHeader := by
    rw [hmid.headObjects, hobjects]
    exact happlied.headBlockId
  refine ⟨hreturn, hmid, hnone, hheap', ?_, hobjects, fun j hj => ?_⟩
  · exact .head hx (hxid.trans hheadId.symm) ⟨item, hitem, hitemid.trans hheadId.symm⟩
  · rw [hblocks, Function.update_of_ne (by omega)]
    exact h.blocks j (by omega)

theorem Replaying.apply (h : Replaying r cps store i s db) (hempty : db.undoDb.saved = [])
    (hfork : db.forkDb.head = none ∧ db.forkDb.index = [])
    (hb : (r.applyBlock cps .reindex s b).result = some s') :
    (db.perform (r.applyBlock cps .reindex db.objects b)).2 = true ∧
      Replaying r cps store (i + 1) s' (db.perform (r.applyBlock cps .reindex db.objects b)).1 ∧
      (db.perform (r.applyBlock cps .reindex db.objects b)).1.undoDb.saved = [] ∧
      (db.perform (r.applyBlock cps .reindex db.objects b)).1.forkDb.head = none ∧
      (db.perform (r.applyBlock cps .reindex db.objects b)).1.forkDb.index = [] := by
  rw [h.objects]
  have happlied := Rules.applyBlock_applied hb
  have hres := db.runEffects_resized (r.applyBlock cps .reindex s b).effects
  obtain ⟨heap, hheap⟩ := h.heap
  unfold Database.perform
  simp only [hb]
  have hindex : ((r.applyBlock cps .reindex s b).effects.foldl Database.runEffect db).forkDb.index = [] :=
    List.eq_nil_iff_forall_not_mem.mpr fun x hx => by
      have := hres.forkIndex x hx
      rw [hfork.2] at this
      cases this
  refine ⟨trivial, ⟨⟨?_, ?_, ?_, ?_, ?_⟩, ?_, ⟨heap, ?_⟩, ?_, rfl, ?_⟩, ?_, ?_, ?_⟩
  · exact hres.pendingTxSession.trans h.idle.session
  · exact hres.active.trans h.idle.active
  · exact hres.pendingTx.trans h.idle.pendingTx
  · refine Database.runEffects_limit db _ (fun m hm => ?_) (Or.inr (Rules.applyBlock_resizes hb))
    obtain ⟨-, rfl⟩ := Rules.applyBlock_effects hm
    exact Nat.le_add_left 1 _
  · show Spine r cps (s' :: ((r.applyBlock cps .reindex s b).effects.foldl _ db).undoDb.saved)
    rw [hres.saved, hempty]
    refine ⟨List.isChain_singleton _, fun x hx => ?_⟩
    obtain rfl := List.mem_singleton.mp hx
    rw [happlied.headBlockId, happlied.headBlockNumber]
    rfl
  · exact hres.poppedTx.trans h.poppedTx
  · exact hres.toAside.heap hheap
  · exact .empty (hres.forkHead.trans hfork.1) hindex
  · intro j hj
    show ((r.applyBlock cps .reindex s b).effects.foldl _ db).blockIdToBlock j = _
    rw [hres.blocks]
    exact h.blocks j (by omega)
  · exact hres.saved.trans hempty
  · exact hres.forkHead.trans hfork.1
  · exact hindex

end

/-- The store holds the blocks from the number `i` on. -/
def Stored (store : Nat → Option (BlockId × SignedBlock ω)) : Nat → List (SignedBlock ω) → Prop
  | _, [] => True
  | i, b :: bs => (∃ id, store i = some (id, b)) ∧ Stored store (i + 1) bs

theorem Checkpoints.created_reindex (cps : Checkpoints) (b : SignedBlock ω) :
    cps.created .reindex b = 0 := if_pos (cps.looser b.blockNum).dupeCheck

theorem Rules.replay_cons {skip : SkipFlags} {s t : Objects ρ} {b : SignedBlock ω}
    {bs : List (SignedBlock ω)} (h : r.replay cps skip s (b :: bs) = some t) :
    ∃ s', (r.applyBlock cps skip s b).result = some s' ∧ r.replay cps skip s' bs = some t :=
  Option.bind_eq_some_iff.mp h

theorem Rules.replay_forget (hr : r.IgnoresTransactions) {s t : Objects ρ}
    {bs : List (SignedBlock ω)}
    (h : r.replay cps .nothing s bs = some t) : r.replay cps .reindex s.forget bs =
      some t.forget := by
  induction bs generalizing s with
  | nil =>
    obtain rfl := Option.some.inj h
    rfl
  | cons b bs ih =>
    obtain ⟨s', hb, hbs⟩ := Rules.replay_cons h
    exact Option.bind_eq_some_iff.mpr ⟨s'.forget, Rules.applyBlock_forget hr hb, ih hbs⟩

theorem Indexed.reindexFrom_replays {store : Nat → Option (BlockId × SignedBlock ω)}
    {bs : List (SignedBlock ω)} {undoPoint i : Nat} {s t : Objects ρ} {d : Indexed ω ρ}
    (hstored : Stored store i bs) (hreplay : r.replay cps .reindex s bs = some t)
    (hi : i = s.headBlockNumber + 1) (hd : Replaying r cps store i s d.database)
    (hdisabled : i < undoPoint → d.database.undoDb.saved = [] ∧ d.database.forkDb.head = none ∧
      d.database.forkDb.index = []) :
    (d.reindexFrom r cps undoPoint bs.length i).2 = true ∧
      (d.reindexFrom r cps undoPoint bs.length i).1.database.headObjects = t ∧
      (d.reindexFrom r cps undoPoint bs.length i).1.nextTransactionId = d.nextTransactionId := by
  induction bs generalizing i s d with
  | nil =>
    obtain rfl := Option.some.inj hreplay
    exact ⟨rfl, hd.idle.headObjects.trans hd.objects, rfl⟩
  | cons b bs ih =>
    obtain ⟨s', hb, hbs⟩ := Rules.replay_cons hreplay
    obtain ⟨⟨id, hid⟩, hstored⟩ := hstored
    have happlied := Rules.applyBlock_applied hb
    have hnum : b.blockNum = i := by
      have hspine := hd.idle.spine.num _ (List.mem_cons_self ..)
      rw [hd.objects] at hspine
      rw [hi, BlockHeader.blockNum, ← happlied.previous, hspine]
    have hnext : i + 1 = s'.headBlockNumber + 1 := by rw [happlied.headBlockNumber, hnum]
    have hfetch := (hd.blocks i (le_refl i)).trans hid
    simp only [List.length_cons, Indexed.reindexFrom, hfetch, Indexed.reindexBlock]
    by_cases hlow : i < undoPoint
    · obtain ⟨hsaved, hfork⟩ := hdisabled hlow
      obtain ⟨hok, hrest, hsaved', hfork'⟩ := hd.apply hsaved hfork hb
      simp only [if_pos hlow, hok]
      obtain ⟨h1, h2, h3⟩ := ih (d := ⟨_, d.nextTransactionId + cps.created .reindex b⟩) hstored hbs
        hnext hrest fun _ => ⟨hsaved', hfork'⟩
      exact ⟨h1, h2, h3.trans (by rw [cps.created_reindex]; rfl)⟩
    · obtain ⟨hok, hrest⟩ := hd.push hnum hb
      simp only [if_neg hlow, hok, Option.isSome_some]
      obtain ⟨h1, h2, h3⟩ := ih (d := ⟨_, d.nextTransactionId + cps.created .reindex b⟩) hstored hbs
        hnext hrest fun h => absurd h (by omega)
      exact ⟨h1, h2, h3.trans (by rw [cps.created_reindex]; rfl)⟩

/-! ### What a live run leaves in the index -/

/-- The next id of `transaction_index` after the blocks `bs`. -/
def Checkpoints.nextTransactionId (cps : Checkpoints) (skip : SkipFlags) (next : Nat)
    (bs : List (SignedBlock ω)) : Nat :=
  next + (bs.map (cps.created skip)).sum

theorem Rules.applyTransaction_noted {skip : SkipFlags} {s s' : Objects ρ} {t : SignedTransaction ω}
    (hskip : skip.transactionDupeCheck = true) (h : (r.applyTransaction skip s t).result =
      some s') :
    s'.transactions = s.transactions := by
  obtain ⟨-, rest, -, rfl⟩ := Rules.applyTransaction_result.mp h
  show (r.noteTransaction skip s t).transactions = _
  rw [Rules.noteTransaction, if_pos hskip]

theorem Rules.applyTransactions_noted {skip : SkipFlags} {s s' : Objects ρ}
    {ts : List (SignedTransaction ω)} (hskip : skip.transactionDupeCheck = true ∨ ts = [])
    (h : (r.applyTransactions skip s ts).result = some s') : s'.transactions = s.transactions := by
  induction ts generalizing s with
  | nil =>
    obtain rfl := Outcome.result_pure.mp h
    rfl
  | cons t ts ih =>
    obtain ⟨s1, h1, h2⟩ := Rules.applyTransactions_cons.mp h
    have hdupe : skip.transactionDupeCheck = true := hskip.resolve_right (List.cons_ne_nil t ts)
    rw [ih (Or.inl hdupe) h2, Rules.applyTransaction_noted hdupe h1]

theorem Rules.replay_empty {skip : SkipFlags} {s t : Objects ρ} {bs : List (SignedBlock ω)}
    (hs : s.transactions = []) (hbs : ∀ b ∈ bs, cps.created skip b = 0)
    (h : r.replay cps skip s bs = some t) : t.transactions = [] := by
  induction bs generalizing s with
  | nil =>
    obtain rfl := Option.some.inj h
    exact hs
  | cons b bs ih =>
    obtain ⟨s', hb, hbs'⟩ := Rules.replay_cons h
    refine ih ?_ (fun c hc => hbs c (List.mem_cons_of_mem b hc)) hbs'
    obtain ⟨applied, happlied, htransactions⟩ := (Rules.applyBlock_applied hb).transactions
    have hcreated := hbs b (List.mem_cons_self ..)
    have hskip : (cps.skipFlags skip b.blockNum).transactionDupeCheck = true ∨
      b.transactions = [] := by
      unfold Checkpoints.created at hcreated
      split at hcreated
      · exact Or.inl ‹_›
      · exact Or.inr (List.length_eq_zero_iff.mp hcreated)
    rw [htransactions, Rules.applyTransactions_noted hskip happlied, hs]
    rfl

/-- Replaying the stored blocks from genesis returns, and gives the objects and the next id of a
live run of them with full checks if and only if no block of the chain has a transaction, but for
blocks up to the last checkpoint. -/
theorem reindex_equals_live_iff (hr : r.IgnoresTransactions) {db : Database ω ρ}
    (hopened : Opened r db)
    (hgenesis : db.objects.headBlockId = BlockId.zero) (hindex : db.objects.transactions = [])
    (chain : List (SignedBlock ω)) (hstored : Stored db.blockIdToBlock 1 chain) {live : Objects ρ}
    (hlive : r.replay cps .nothing db.objects chain = some live) (next : Nat) :
    ((⟨db, next⟩ : Indexed ω ρ).reindex r cps chain.length).2 = true ∧
    ((((⟨db, next⟩ : Indexed ω ρ).reindex r cps chain.length).1.database.headObjects = live ∧
      ((⟨db, next⟩ : Indexed ω ρ).reindex r cps chain.length).1.nextTransactionId =
        cps.nextTransactionId .nothing next chain) ↔
      ∀ b ∈ chain, b.transactions = [] ∨
        (cps.skipFlags .nothing b.blockNum).transactionDupeCheck = true) := by
  have hzero : db.objects.headBlockNumber = 0 := by
    rw [← hopened.invariant, hgenesis]
    rfl
  have hempty : db.forkDb.head = none ∧ db.forkDb.index = [] := by
    rcases hopened.forkDb with ⟨h1, h2, -⟩ | ⟨b, f, hid, -⟩
    · exact ⟨h1, h2⟩
    · rw [hgenesis] at hid
      cases congrArg BlockId.num hid
  have hforget : db.objects.forget = db.objects := by
    unfold Objects.forget
    rw [← hindex]
  have hreplaying : Replaying r cps db.blockIdToBlock 1 db.objects db :=
    ⟨hopened.idle, hopened.poppedTx, hopened.heap, .empty hempty.1 hempty.2, rfl, fun _ _ => rfl⟩
  have hreplay : r.replay cps .reindex db.objects chain = some live.forget := by
    have := Rules.replay_forget hr hlive
    rwa [hforget] at this
  have hcreated : ∀ b : SignedBlock ω, cps.created .nothing b = 0 ↔ b.transactions = [] ∨
      (cps.skipFlags .nothing b.blockNum).transactionDupeCheck = true := by
    intro b
    unfold Checkpoints.created
    split
    · rename_i h
      exact ⟨fun _ => Or.inr h, fun _ => rfl⟩
    · rename_i h
      rw [List.length_eq_zero_iff]
      exact ⟨Or.inl, fun h' => h'.resolve_right h⟩
  obtain ⟨hreturn, hobjects, hnext⟩ : ((⟨db, next⟩ : Indexed ω ρ).reindex r cps chain.length).2 =
    true ∧
      ((⟨db, next⟩ : Indexed ω ρ).reindex r cps chain.length).1.database.headObjects = live.forget ∧
      ((⟨db, next⟩ : Indexed ω ρ).reindex r cps chain.length).1.nextTransactionId = next := by
    have hhead : (⟨db, next⟩ : Indexed ω ρ).database.headBlockNum = 0 := hzero
    cases chain with
    | nil =>
      obtain rfl := Option.some.inj hlive
      refine ⟨rfl, ?_, rfl⟩
      rw [hforget]
      exact hreplaying.idle.headObjects
    | cons b bs =>
      unfold Indexed.reindex
      simp only [hhead, List.length_cons, if_false, Nat.lt_irrefl, and_false,
        Nat.sub_zero, Nat.zero_add]
      exact Indexed.reindexFrom_replays hstored hreplay (by rw [hzero]) hreplaying
        fun _ => ⟨hopened.saved, hempty⟩
  refine ⟨hreturn, ?_⟩
  rw [hobjects, hnext]
  constructor
  · rintro ⟨-, hsum⟩ b hb
    refine (hcreated b).mp ?_
    have hzero : (chain.map (cps.created .nothing)).sum = 0 := by
      unfold Checkpoints.nextTransactionId at hsum
      omega
    exact List.sum_eq_zero_iff.mp hzero _ (List.mem_map_of_mem hb)
  · intro hall
    have hnone : ∀ b ∈ chain, cps.created .nothing b = 0 := fun b hb => (hcreated b).mpr (hall b hb)
    refine ⟨?_, ?_⟩
    · have htransactions := Rules.replay_empty hindex hnone hlive
      unfold Objects.forget
      rw [← htransactions]
    · have hzero : (chain.map (cps.created .nothing)).sum = 0 := by
        refine List.sum_eq_zero fun n hn => ?_
        obtain ⟨b, hb, rfl⟩ := List.mem_map.mp hn
        exact hnone b hb
      rw [Checkpoints.nextTransactionId, hzero]
      rfl

/-! ### The small chain, replayed -/

theorem counterRules_ignoresTransactions : counterRules.IgnoresTransactions :=
  ⟨fun _ _ _ => rfl, fun _ _ _ => rfl, fun _ _ _ => rfl, fun _ _ _ => rfl, fun _ _ _ => rfl,
    fun _ _ _ => rfl, fun _ _ _ => rfl⟩

/-- The small chain at genesis, with the blocks of a chain in its store. -/
def storedDatabase (chain : List (SignedBlock Nat)) : Database Nat Nat :=
  { counterDatabase 0 with
    blockIdToBlock := fun
      | 0 => none
      | i + 1 => chain[i]?.map fun b => (counterRules.blockId b.toBlockHeader, b) }

theorem storedDatabase_opened (chain : List (SignedBlock Nat)) :
    Opened counterRules (storedDatabase chain) :=
  ⟨rfl, rfl, rfl, rfl, rfl, rfl, rfl, Or.inl ⟨rfl, rfl, rfl⟩⟩

def checkpointBlock : SignedBlock Nat := counterBlock .zero 10 0 [counterTrx 20 [1]]

def checkpointId : BlockId := counterRules.blockId checkpointBlock.toBlockHeader

/-- A block with a transaction, and two blocks without. -/
def checkpointChain : List (SignedBlock Nat) :=
  checkpointBlock :: counterChain checkpointId [(20, 0), (30, 0)]

/-- A chain whose only transaction is in the block of the checkpoint is replayed to the state of the
live run. -/
theorem reindex_equals_live_checkpoint :
    ∃ live, counterRules.replay [(1, checkpointId)] .nothing
        (storedDatabase checkpointChain).objects checkpointChain = some live ∧
      live.headBlockNumber = 3 ∧ live.rest = 1 ∧
      ((⟨storedDatabase checkpointChain, 0⟩ : Indexed Nat Nat).reindex counterRules
        [(1, checkpointId)] 3).1.database.headObjects = live := by
  obtain ⟨live, hlive, hrun⟩ := (Option.any_eq_true (fun s : Objects Nat =>
    decide (s.headBlockNumber = 3 ∧ s.rest = 1))
    (counterRules.replay [(1, checkpointId)] .nothing (storedDatabase checkpointChain).objects
      checkpointChain)).mp (by decide +kernel)
  obtain ⟨hnum, hrest⟩ := of_decide_eq_true hrun
  have hstored : Stored (storedDatabase checkpointChain).blockIdToBlock 1 checkpointChain :=
    ⟨⟨_, rfl⟩, ⟨_, rfl⟩, ⟨_, rfl⟩, trivial⟩
  have hiff := (reindex_equals_live_iff counterRules_ignoresTransactions
    (storedDatabase_opened checkpointChain) rfl rfl checkpointChain hstored hlive 0).2
  have hall : ∀ b ∈ checkpointChain, b.transactions = [] ∨
      (Checkpoints.skipFlags [(1, checkpointId)] .nothing b.blockNum).transactionDupeCheck =
        true := by
    decide +kernel
  exact ⟨live, hlive, hnum, hrest, (hiff.mpr hall).1⟩

/-- After the replay of a chain with a transaction, the transaction is not known and applies again,
while the live run refuses it. -/
theorem reindex_forgets_transactions :
    ∃ live, counterRules.replay [] .nothing (storedDatabase [checkpointBlock]).objects
        [checkpointBlock] = some live ∧
      ((⟨storedDatabase [checkpointBlock], 0⟩ : Indexed Nat Nat).reindex counterRules []
        1).1.database.headObjects ≠ live ∧
      (counterRules.applyTransaction .nothing live (counterTrx 20 [1])).result.isNone = true ∧
      (counterRules.applyTransaction .nothing
        ((⟨storedDatabase [checkpointBlock], 0⟩ : Indexed Nat Nat).reindex counterRules []
          1).1.database.headObjects (counterTrx 20 [1])).result.isSome = true := by
  obtain ⟨live, hlive, htest⟩ := (Option.any_eq_true
    (fun s : Objects Nat => decide (s.transactions.length = 1) &&
      (counterRules.applyTransaction .nothing s (counterTrx 20 [1])).result.isNone)
    (counterRules.replay [] .nothing (storedDatabase [checkpointBlock]).objects
      [checkpointBlock])).mp (by decide +kernel)
  obtain ⟨hlength, hrefused⟩ := Bool.and_eq_true_iff.mp htest
  have hempty : ((⟨storedDatabase [checkpointBlock], 0⟩ : Indexed Nat Nat).reindex counterRules []
      1).1.database.headObjects.transactions = [] := by decide +kernel
  refine ⟨live, hlive, fun heq => ?_, hrefused, by decide +kernel⟩
  rw [heq] at hempty
  rw [hempty] at hlength
  cases hlength

end Nestchain.Chain
