import Nestchain.Chain.Follow

/-! The delayed node, which takes the irreversible blocks of a trusted node.  Between two of its
calls the trusted node may do anything, and a call may fail.  As long as it answers with blocks of
the numbers that were asked for, the delayed node has one block at each height in its fork database,
and so it never switches forks. -/

namespace Nestchain.Plugins

open Chain

variable {ω ρ : Type}

/-! ### The plugin -/

/-- What the trusted node answers to a call: the last irreversible block number, unless the call
fails, and its blocks. -/
structure TrustedNode (ω : Type) where
  lastIrreversibleBlockNum : Option Nat
  getBlock : Nat → Option (SignedBlock ω)

/-- The delayed node, with the number of the calls that it has made. -/
structure DelayedNode (ω ρ : Type) where
  calls : Nat
  database : Database ω ρ

/-- How a call of `sync_with_trusted_node` ends; it is unfinished where the fuel ends. -/
inductive SyncEnd where
  | returned
  | thrown
  | unfinished
deriving DecidableEq

namespace DelayedNode

section

variable (r : Rules ω ρ) (cps : Checkpoints) (remote : Nat → TrustedNode ω)

/-- The inner loop, up to the number that the trusted node has said. -/
def syncBlocks (lastIrreversibleBlockNum : Nat) :
    Nat → DelayedNode ω ρ → DelayedNode ω ρ × SyncEnd
  | 0, d => (d, .unfinished)
  | fuel + 1, d =>
    if lastIrreversibleBlockNum > d.database.headBlockNum then
      match (remote d.calls).getBlock (d.database.headBlockNum + 1) with
      | none => (⟨d.calls + 1, d.database⟩, .thrown)
      | some block =>
        match d.database.pushBlock r cps .nothing block with
        | (db, none) => (⟨d.calls + 1, db⟩, .thrown)
        | (db, some _) => syncBlocks lastIrreversibleBlockNum fuel ⟨d.calls + 1, db⟩
    else (d, .returned)

/-- `sync_with_trusted_node` -/
def syncWithTrustedNode : Nat → DelayedNode ω ρ → DelayedNode ω ρ × SyncEnd
  | 0, d => (d, .unfinished)
  | fuel + 1, d =>
    match (remote d.calls).lastIrreversibleBlockNum with
    | none => (⟨d.calls + 1, d.database⟩, .thrown)
    | some lastIrreversibleBlockNum =>
      if lastIrreversibleBlockNum ≤ d.database.headBlockNum then
        (⟨d.calls + 1, d.database⟩, .returned)
      else
        match syncBlocks r cps remote lastIrreversibleBlockNum fuel
          ⟨d.calls + 1, d.database⟩ with
        | (d, .returned) => syncWithTrustedNode fuel d
        | stopped => stopped

end

/-- The delayed nodes that `d` becomes: the main loop calls `sync_with_trusted_node` again however
it ended, and clients push transactions.  A sync that has not finished is one in between. -/
inductive Runs (r : Rules ω ρ) (cps : Checkpoints) (remote : Nat → TrustedNode ω)
    (d : DelayedNode ω ρ) : DelayedNode ω ρ → Prop
  | start : Runs r cps remote d d
  | sync {d' : DelayedNode ω ρ} (h : Runs r cps remote d d') (fuel : Nat) :
      Runs r cps remote d (d'.syncWithTrustedNode r cps remote fuel).1
  | transaction {d' : DelayedNode ω ρ} (h : Runs r cps remote d d') (skip : SkipFlags)
      (t : SignedTransaction ω) :
      Runs r cps remote d ⟨d'.calls, (d'.database.pushTransaction r skip t).1⟩

end DelayedNode

/-- The blocks that are answered have the number that was asked for, and the first one follows no
block. -/
def Numbered (remote : Nat → TrustedNode ω) : Prop :=
  ∀ call num block, (remote call).getBlock num = some block →
    block.blockNum = num ∧ (num = 1 → block.previous = BlockId.zero)

variable {r : Rules ω ρ} {cps : Checkpoints} {skip : SkipFlags} {remote : Nat → TrustedNode ω}

/-! ### The fork database -/

section Fork

variable {f f' : ForkDatabase ω} {b : SignedBlock ω} {heap : List (ForkItem ω)}

theorem pushBlock_eq (hf : f.pushBlock r b = some f') :
    ∃ prev, f.link b = some prev ∧ f' = f.pushItem (r.forkItem f.nextPtr prev b) := by
  unfold ForkDatabase.pushBlock at hf
  split at hf
  · obtain ⟨prev, hprev, rfl⟩ := Option.map_eq_some_iff.mp hf
    exact ⟨prev, hprev, rfl⟩
  · cases hf

theorem insert_index_mem (item : ForkItem ω) {i : ForkItem ω} (hi : i ∈ (f.insert item).index) :
    i ∈ f.index ∨ i = item := by
  unfold ForkDatabase.insert at hi
  split at hi
  · exact Or.inl hi
  · exact (List.mem_append.mp hi).imp_right List.mem_singleton.mp

theorem insert_rest (item : ForkItem ω) :
    (f.insert item).head = f.head ∧ (f.insert item).maxSize = f.maxSize := by
  unfold ForkDatabase.insert
  split <;> exact ⟨rfl, rfl⟩

/-- The items that a new item leaves in the index, and the head. -/
structure Pushed (f : ForkDatabase ω) (item : ForkItem ω) (f' : ForkDatabase ω) : Prop where
  index : ∀ i ∈ f'.index, i ∈ f.index ∨ i = item
  /-- The items at the height below are kept. -/
  kept : ∀ i ∈ (f.insert item).index, item.num ≤ i.num + 1 → i ∈ f'.index
  head : f'.head = some item ∨ (∃ x, f.head = some x ∧ f'.head = some x ∧ item.num ≤ x.num)
  maxSize : f'.maxSize = f.maxSize

theorem pushItem_pushed (hsize : 1 ≤ f.maxSize) (item : ForkItem ω) :
    Pushed f item (f.pushItem item) := by
  obtain ⟨-, hmax⟩ := insert_rest (f := f) item
  unfold ForkDatabase.pushItem
  split
  · exact ⟨fun i hi => insert_index_mem item hi, fun i hi _ => hi, Or.inl rfl, hmax⟩
  · rename_i x hx
    split
    · refine ⟨fun i hi => insert_index_mem item (List.mem_filter.mp hi).1, fun i hi hnum => ?_,
        Or.inl rfl, hmax⟩
      exact List.mem_filter.mpr ⟨hi, decide_eq_true (by omega)⟩
    · rename_i hlow
      exact ⟨fun i hi => insert_index_mem item hi, fun i hi _ => hi,
        Or.inr ⟨x, hx, (insert_rest item).1.trans hx, Nat.le_of_not_lt hlow⟩, hmax⟩

end Fork

/-! ### The effects of a block -/

/-- Resizing keeps the items at the height below the head and above. -/
structure Narrowed (f f' : ForkDatabase ω) : Prop where
  head : f'.head = f.head
  index : ∀ i ∈ f'.index, i ∈ f.index
  kept : ∀ i ∈ f.index, (∀ x, f.head = some x → x.num ≤ i.num + 1) → i ∈ f'.index
  maxSize : 1 ≤ f.maxSize → 1 ≤ f'.maxSize

theorem Narrowed.refl (f : ForkDatabase ω) : Narrowed f f :=
  ⟨rfl, fun _ h => h, fun _ h _ => h, fun h => h⟩

theorem Narrowed.trans {f f' f'' : ForkDatabase ω} (h : Narrowed f f') (h' : Narrowed f' f'') :
    Narrowed f f'' :=
  ⟨h'.head.trans h.head, fun i hi => h.index i (h'.index i hi),
    fun i hi hnum => h'.kept i (h.kept i hi hnum) (h.head ▸ hnum),
    fun hs => h'.maxSize (h.maxSize hs)⟩

theorem setMaxSize_narrowed (f : ForkDatabase ω) {n : Nat} (hn : 1 ≤ n) :
    Narrowed f (f.setMaxSize n) := by
  obtain ⟨h1, -, h2, h3, -⟩ := f.setMaxSize_spec n
  refine ⟨h1, h3, fun i hi hnum => ?_, fun _ => hn.trans_eq h2.symm⟩
  unfold ForkDatabase.setMaxSize
  split
  · exact hi
  · rename_i x hx
    have hlow := hnum x hx
    exact List.mem_filter.mpr ⟨hi, decide_eq_true (by omega)⟩

theorem runEffects_narrowed (db : Database ω ρ) {es : List Effect}
    (hes : ∀ n, .setMaxSize n ∈ es → 1 ≤ n) :
    Narrowed db.forkDb (es.foldl Database.runEffect db).forkDb := by
  induction es generalizing db with
  | nil => exact .refl _
  | cons e es ih =>
    refine Narrowed.trans ?_ (ih (db.runEffect e) fun n hn => hes n (List.mem_cons_of_mem _ hn))
    cases e with
    | proposals p => exact .refl _
    | setMaxSize n => exact setMaxSize_narrowed _ (hes n List.mem_cons_self)

theorem applyAndCommit_narrowed (db : Database ω ρ) (b : SignedBlock ω) :
    Narrowed db.forkDb (db.applyAndCommit r cps skip b).1.forkDb := by
  have heffects : Narrowed db.startUndoSession.forkDb
      ((r.applyBlock cps skip db.objects b).effects.foldl Database.runEffect
        db.startUndoSession).forkDb :=
    runEffects_narrowed db.startUndoSession fun n hn => by
      rw [(Rules.applyBlock_effects hn).2]
      omega
  unfold Database.applyAndCommit Database.perform
  cases (r.applyBlock cps skip db.objects b).result <;> exact heffects

/-! ### One block at each height -/

/-- The fork database has one block at the height of the head block and none above it; its head may
be a block that was refused on top of the head block. -/
structure Linear (r : Rules ω ρ) (cps : Checkpoints) (db : Database ω ρ) : Prop where
  regular : Regular r cps db
  num : db.headBlockNum = db.headObjects.headBlockNumber
  maxSize : 1 ≤ db.forkDb.maxSize
  index : ∀ i ∈ db.forkDb.index, i.num ≤ db.headObjects.headBlockNumber ∧
    (i.num = db.headObjects.headBlockNumber → i.id = db.headObjects.headBlockId)
  head : ∀ x, db.forkDb.head = some x → x.num ≤ db.headObjects.headBlockNumber ∨
    (x.num = db.headObjects.headBlockNumber + 1 ∧ x.data.previous = db.headObjects.headBlockId)
  known : db.forkDb.head.isSome → db.headObjects.headBlockId ≠ BlockId.zero →
    ∃ i ∈ db.forkDb.index, i.id = db.headObjects.headBlockId
  zero : db.headObjects.headBlockNumber = 0 → db.headObjects.headBlockId = BlockId.zero
  empty : db.forkDb.head = none → db.headObjects.headBlockNumber = 0

theorem Linear.links {db : Database ω ρ} {f : ForkDatabase ω} {b : SignedBlock ω}
    (h : Linear r cps db) (hnum : b.blockNum = db.headObjects.headBlockNumber + 1)
    (hfirst : b.blockNum = 1 → b.previous = BlockId.zero) (hf : db.forkDb.pushBlock r b = some f) :
    b.previous = db.headObjects.headBlockId ∧ ∃ x, f.head = some x ∧
      x.data.previous = db.headObjects.headBlockId ∧ x.num = b.blockNum := by
  obtain ⟨prev, hlink, rfl⟩ := pushBlock_eq hf
  obtain ⟨heap, hheap⟩ := h.regular.heap
  have hprev : b.previous = db.headObjects.headBlockId := by
    by_cases hzero : db.headObjects.headBlockNumber = 0
    · rw [hfirst (by omega), h.zero hzero]
    · unfold ForkDatabase.link at hlink
      split at hlink
      · obtain ⟨i, hi, -⟩ := Option.map_eq_some_iff.mp hlink
        obtain ⟨hmem, hid⟩ := ForkHeap.fetchBlock_mem hi
        have hinum : i.num = db.headObjects.headBlockNumber := by
          have := (hheap.num (hheap.index i hmem)).2
          rw [hid] at this
          rw [BlockHeader.blockNum] at hnum
          omega
        rw [← hid, (h.index i hmem).2 hinum]
      · rename_i hcond
        have hsome : db.forkDb.head.isSome := by
          rw [Option.isSome_iff_ne_none]
          exact fun hnone => hzero (h.empty hnone)
        have hpz : b.previous = BlockId.zero := by
          by_contra hne
          exact hcond ⟨hsome, hne⟩
        rw [BlockHeader.blockNum, hpz] at hnum
        exact absurd hnum (by simp [BlockId.zero]; omega)
  refine ⟨hprev, ?_⟩
  rcases (pushItem_pushed h.maxSize (r.forkItem db.forkDb.nextPtr prev b)).head with
    hhead | ⟨x, hx, hhead, hle⟩
  · exact ⟨_, hhead, hprev, rfl⟩
  · have hxnum : b.blockNum ≤ x.num := hle
    rcases h.head x hx with hlow | ⟨hhigh, hxprev⟩
    · omega
    · exact ⟨x, hhead, hxprev, hhigh.trans hnum.symm⟩

theorem applyTransaction_num (skip : SkipFlags) (s : Objects ρ) (t : SignedTransaction ω)
    (s' : Objects ρ) (h : (r.applyTransaction skip s t).result = some s') :
    s'.headBlockNumber = s.headBlockNumber := (Rules.applyTransaction_sameChain h).headBlockNumber

theorem Linear.of_same {db db' : Database ω ρ} (h : Linear r cps db) (hreg : Regular r cps db')
    (hnum : db'.headBlockNum = db'.headObjects.headBlockNumber)
    (hobj : db'.headObjects = db.headObjects) (hfork : db'.forkDb = db.forkDb) :
    Linear r cps db' := by
  refine ⟨hreg, hnum, hfork ▸ h.maxSize, ?_, ?_, ?_, hobj ▸ h.zero, ?_⟩
  · rw [hobj, hfork]
    exact h.index
  · rw [hobj, hfork]
    exact h.head
  · rw [hobj, hfork]
    exact h.known
  · rw [hobj, hfork]
    exact h.empty

theorem Linear.pushTransaction {db : Database ω ρ} (h : Linear r cps db) (skip : SkipFlags)
    (t : SignedTransaction ω) : Linear r cps (db.pushTransaction r skip t).1 := by
  obtain ⟨hs, -⟩ := Database.pushTransaction_spec h.regular.toConsistent skip t
  refine h.of_same (Database.pushTransaction_regular h.regular t) ?_ hs.headObjects hs.forkDb
  rw [hs.headObjects, ← h.num]
  exact Database.pushTransaction_same applyTransaction_num h.regular.toConsistent skip t

theorem Linear.refused {db db' : Database ω ρ} {f : ForkDatabase ω} {b : SignedBlock ω}
    (h : Linear r cps db) (hnum : b.blockNum = db.headObjects.headBlockNumber + 1)
    (hfirst : b.blockNum = 1 → b.previous = BlockId.zero) (hf : db.forkDb.pushBlock r b = some f)
    (hreg : Regular r cps db') (hnum' : db'.headBlockNum = db'.headObjects.headBlockNumber)
    (hobj : db'.headObjects = db.headObjects) {f' : ForkDatabase ω} (hn : Narrowed f f')
    (hfork : db'.forkDb = f'.remove (r.blockId b.toBlockHeader)) : Linear r cps db' := by
  obtain ⟨hprev, x, hx, hxprev, hxnum⟩ := h.links hnum hfirst hf
  obtain ⟨prev, -, rfl⟩ := pushBlock_eq hf
  have hp := pushItem_pushed h.maxSize (r.forkItem db.forkDb.nextPtr prev b)
  obtain ⟨heap, hheap⟩ := h.regular.heap
  have hold : ∀ i ∈ db'.forkDb.index, i ∈ db.forkDb.index := by
    intro i hi
    rw [hfork] at hi
    obtain ⟨hi, hne⟩ := List.mem_filter.mp hi
    rcases hp.index i (hn.index i hi) with hi | rfl
    · exact hi
    · exact absurd rfl (of_decide_eq_true hne)
  have hhead : db'.forkDb.head = some x := by
    rw [hfork]
    exact hn.head.trans hx
  refine ⟨hreg, hnum', ?_, fun i hi => hobj ▸ h.index i (hold i hi), fun y hy => ?_,
    fun _ hne => ?_, hobj ▸ h.zero, fun hnone => ?_⟩
  · rw [hfork]
    exact hn.maxSize (h.maxSize.trans_eq hp.maxSize.symm)
  · obtain rfl : x = y := Option.some.inj (hhead.symm.trans hy)
    rw [hobj]
    exact Or.inr ⟨hxnum.trans hnum, hxprev⟩
  · rw [hobj] at hne ⊢
    have hsome : db.forkDb.head.isSome := by
      rw [Option.isSome_iff_ne_none]
      exact fun hnone => hne (h.zero (h.empty hnone))
    obtain ⟨i, hi, hid⟩ := h.known hsome hne
    have hinum : i.num = db.headObjects.headBlockNumber := by
      rw [← (hheap.num (hheap.index i hi)).2, hid, h.regular.spine.num _ List.mem_cons_self]
    refine ⟨i, ?_, hid⟩
    rw [hfork]
    refine List.mem_filter.mpr ⟨hn.kept i (hp.kept i (ForkDatabase.insert_index hi) ?_) ?_, ?_⟩
    · show b.blockNum ≤ i.num + 1
      omega
    · intro y hy
      obtain rfl : x = y := Option.some.inj (hx.symm.trans hy)
      omega
    · refine decide_eq_true fun heq => ?_
      have hsame := congrArg BlockId.num heq
      rw [(hheap.num (hheap.index i hi)).2, hinum] at hsame
      change db.headObjects.headBlockNumber = b.blockNum at hsame
      omega
  · rw [hhead] at hnone
    cases hnone

theorem Linear.applied {db db' : Database ω ρ} {f : ForkDatabase ω} {b : SignedBlock ω}
    (h : Linear r cps db) (hnum : b.blockNum = db.headObjects.headBlockNumber + 1)
    (hfirst : b.blockNum = 1 → b.previous = BlockId.zero) (hf : db.forkDb.pushBlock r b = some f)
    (hreg : Regular r cps db') (hnum' : db'.headBlockNum = db'.headObjects.headBlockNumber)
    (happly : (r.applyBlock cps skip db.headObjects b).result = some db'.headObjects)
    (hn : Narrowed f db'.forkDb) : Linear r cps db' := by
  obtain ⟨hprev, x, hx, hxprev, hxnum⟩ := h.links hnum hfirst hf
  obtain ⟨prev, -, rfl⟩ := pushBlock_eq hf
  have hp := pushItem_pushed h.maxSize (r.forkItem db.forkDb.nextPtr prev b)
  obtain ⟨heap, hheap⟩ := h.regular.heap
  have hb := Rules.applyBlock_applied happly
  refine ⟨hreg, hnum', hn.maxSize (h.maxSize.trans_eq hp.maxSize.symm), fun i hi => ?_,
    fun y hy => ?_, fun _ _ => ?_, fun hzero => ?_, fun hnone => ?_⟩
  · rw [hb.headBlockNumber, hb.headBlockId]
    rcases hp.index i (hn.index i hi) with hi | rfl
    · have hlow := (h.index i hi).1
      exact ⟨by omega, fun heq => by omega⟩
    · exact ⟨le_refl _, fun _ => rfl⟩
  · obtain rfl : x = y := Option.some.inj ((hn.head.trans hx).symm.trans hy)
    rw [hb.headBlockNumber]
    exact Or.inl (le_of_eq hxnum)
  · rw [hb.headBlockId]
    obtain ⟨⟨i, hi, hid⟩, -⟩ := db.forkDb.insert_mem (r.forkItem db.forkDb.nextPtr prev b)
    have hinum : i.num = b.blockNum := by
      rcases insert_index_mem _ hi with hold | rfl
      · rw [← (hheap.num (hheap.index i hold)).2, hid]
        rfl
      · rfl
    refine ⟨i, hn.kept i (hp.kept i hi ?_) fun y hy => ?_, hid⟩
    · show b.blockNum ≤ i.num + 1
      omega
    · obtain rfl : x = y := Option.some.inj (hx.symm.trans hy)
      omega
  · rw [hb.headBlockNumber] at hzero
    omega
  · rw [hn.head, hx] at hnone
    cases hnone

/-- What a block for the height above the head block does: it is refused and leaves the chain, or it
is applied on the head block. -/
inductive Appends (r : Rules ω ρ) (cps : Checkpoints) (skip : SkipFlags) (db : Database ω ρ)
    (b : SignedBlock ω) : Database ω ρ × Option Bool → Prop
  | refused {db' : Database ω ρ} (hobj : db'.headObjects = db.headObjects)
      (hblocks : db'.blockIdToBlock = db.blockIdToBlock)
      (hthrown : b.previous = db.headObjects.headBlockId →
        (r.applyBlock cps skip db.headObjects b).result = none) :
      Appends r cps skip db b (db', none)
  | applied {db' : Database ω ρ}
      (happly : (r.applyBlock cps skip db.headObjects b).result = some db'.headObjects)
      (hblocks : db'.blockIdToBlock =
        Function.update db.blockIdToBlock b.blockNum (some (r.blockId b.toBlockHeader, b))) :
      Appends r cps skip db b (db', some false)

theorem Linear.linked {db : Database ω ρ} {b : SignedBlock ω} (h : Linear r cps db)
    (hprev : b.previous = db.headObjects.headBlockId) : ∃ f, db.forkDb.pushBlock r b = some f := by
  have hnum : b.blockNum = db.headObjects.headBlockNumber + 1 := by
    rw [BlockHeader.blockNum, hprev, h.regular.spine.num _ List.mem_cons_self]
  have hrange : db.forkDb.inRange b = true := by
    unfold ForkDatabase.inRange
    split
    · rename_i x hx
      have hsize := h.maxSize
      refine decide_eq_true ?_
      rcases h.head x hx with hlow | ⟨hhigh, -⟩ <;> omega
    · rfl
  have hlink : (db.forkDb.link b).isSome := by
    unfold ForkDatabase.link
    split
    · rename_i hcond
      obtain ⟨i, hi, hid⟩ := h.known hcond.1 (hprev ▸ hcond.2)
      rw [Option.isSome_map, ForkDatabase.fetchBlock, List.find?_isSome]
      exact ⟨i, hi, by simpa [hprev] using hid⟩
    · rfl
  obtain ⟨prev, hprev⟩ := Option.isSome_iff_exists.mp hlink
  exact ⟨_, by rw [ForkDatabase.pushBlock, if_pos hrange, hprev]; rfl⟩

theorem Linear.pushBlock {db : Database ω ρ} {b : SignedBlock ω} (h : Linear r cps db)
    (hskip : skip.forkDb = false) (hnum : b.blockNum = db.headObjects.headBlockNumber + 1)
    (hfirst : b.blockNum = 1 → b.previous = BlockId.zero) :
    Linear r cps (db.pushBlock r cps skip b).1 ∧
      Appends r cps skip db b (db.pushBlock r cps skip b) := by
  obtain ⟨hidle, hobj, -, -, hfork, hblocks, -⟩ := h.regular.toConsistent.clearPending
  obtain ⟨heap, hheap⟩ := h.regular.heap
  obtain ⟨hmid, -⟩ := Database.pushBlockBody_idle hidle (hfork ▸ hheap) skip b
  obtain ⟨-, hkept, -⟩ := Database.restorePending_kept hmid skip db.pendingTx
  have hrestored := Database.restorePending_same applyTransaction_num hmid skip db.pendingTx
  have hreg : Regular r cps (db.pushBlock r cps skip b).1 :=
    Database.pushBlock_regular h.regular b
  have hafter : (db.pushBlock r cps skip b).1.headObjects =
      (db.clearPending.pushBlockBody r cps skip b).1.objects :=
    hkept.headObjects.trans hmid.headObjects
  have hforkAfter : (db.pushBlock r cps skip b).1.forkDb =
      (db.clearPending.pushBlockBody r cps skip b).1.forkDb := hkept.forkDb
  have hblocksAfter : (db.pushBlock r cps skip b).1.blockIdToBlock =
      (db.clearPending.pushBlockBody r cps skip b).1.blockIdToBlock := hkept.blocks
  have hnumAfter : (db.pushBlock r cps skip b).1.headBlockNum =
      (db.pushBlock r cps skip b).1.headObjects.headBlockNumber := by
    rw [hafter]
    exact hrestored
  have hresult : (db.pushBlock r cps skip b).2 = (db.clearPending.pushBlockBody r cps skip b).2 :=
    rfl
  cases hf : db.forkDb.pushBlock r b with
  | none =>
    have hbody : db.clearPending.pushBlockBody r cps skip b = (db.clearPending, none) := by
      unfold Database.pushBlockBody
      simp [hskip, hfork, hf]
    rw [hbody] at hafter hforkAfter hblocksAfter hresult
    refine ⟨h.of_same hreg hnumAfter (hafter.trans hobj) (hforkAfter.trans hfork), ?_⟩
    rw [← Prod.mk.eta (p := db.pushBlock r cps skip b), hresult]
    refine .refused (hafter.trans hobj) (hblocksAfter.trans hblocks) fun hprev => ?_
    obtain ⟨f, hsome⟩ := h.linked hprev
    rw [hf] at hsome
    cases hsome
  | some f =>
    obtain ⟨hprev, x, hx, hxprev, hxnum⟩ := h.links hnum hfirst hf
    have hdirect : db.clearPending.pushBlockBody r cps skip b =
        ({ db.clearPending with forkDb := f } : Database ω ρ).pushDirect r cps skip b :=
      Database.pushBlockBody_direct hskip (hfork ▸ hf) hx
        (hxprev.trans (congrArg Objects.headBlockId hobj).symm)
    unfold Database.pushDirect at hdirect
    have hspec := Database.applyAndCommit_spec { db.clearPending with forkDb := f } r cps skip b
    have hnarrow : Narrowed f (({ db.clearPending with forkDb := f } : Database ω ρ).applyAndCommit
        r cps skip b).1.forkDb :=
      applyAndCommit_narrowed { db.clearPending with forkDb := f } b
    have hcurrent : ({ db.clearPending with forkDb := f } : Database ω ρ).objects =
        db.headObjects := hobj
    generalize Database.applyAndCommit r cps skip _ b = res at hspec hdirect hnarrow
    obtain ⟨db', ok⟩ := res
    rcases hspec with ⟨hok, hb⟩ | ⟨hok, hb⟩
    · simp only at hok
      subst hok
      rw [hdirect] at hafter hforkAfter hblocksAfter hresult
      have happly : (r.applyBlock cps skip db.headObjects b).result =
          some (db.pushBlock r cps skip b).1.headObjects := by
        rw [hafter, ← hcurrent]
        exact hb.applied
      refine ⟨h.applied hnum hfirst hf hreg hnumAfter happly (hforkAfter ▸ hnarrow), ?_⟩
      rw [← Prod.mk.eta (p := db.pushBlock r cps skip b), hresult]
      refine .applied happly (hblocksAfter.trans (hb.blocks.trans ?_))
      show Function.update db.clearPending.blockIdToBlock b.blockNum _ = _
      rw [hblocks]
    · simp only at hok
      subst hok
      rw [hdirect] at hafter hforkAfter hblocksAfter hresult
      have hsame : (db.pushBlock r cps skip b).1.headObjects = db.headObjects :=
        hafter.trans (hb.objects.trans hcurrent)
      refine ⟨h.refused hnum hfirst hf hreg hnumAfter hsame hnarrow hforkAfter, ?_⟩
      rw [← Prod.mk.eta (p := db.pushBlock r cps skip b), hresult]
      refine .refused hsame (hblocksAfter.trans (hb.blocks.trans hblocks)) fun _ => ?_
      rw [← hcurrent]
      exact hb.thrown

theorem Linear.opened {db : Database ω ρ} (h : Opened r db) (hsize : 1 ≤ db.forkDb.maxSize) :
    Linear r cps db := by
  have hreg : Regular r cps db := Reachable.regular (.opened h)
  have hidle : Idle r cps db := h.idle
  have hobj : db.headObjects = db.objects := hidle.headObjects
  have hspine : db.headObjects.headBlockId.num = db.headObjects.headBlockNumber :=
    hreg.spine.num _ List.mem_cons_self
  have hnum : db.headBlockNum = db.headObjects.headBlockNumber := by
    rw [hobj]
    rfl
  rcases h.forkDb with ⟨hhead, hindex, hzero⟩ | ⟨b, f, hid, hf, hfork⟩
  · have hempty : db.headObjects.headBlockId = BlockId.zero := by rw [hobj, hzero]
    refine ⟨hreg, hnum, hsize, fun i hi => ?_, fun x hx => ?_, fun hsome => ?_, fun _ => hempty,
      fun _ => ?_⟩
    · rw [hindex] at hi
      cases hi
    · rw [hhead] at hx
      cases hx
    · rw [hhead] at hsome
      cases hsome
    · rw [← hspine, hempty]
      rfl
  · have hbnum : b.blockNum = db.headObjects.headBlockNumber := by
      rw [← hspine, hobj, ← hid]
      rfl
    have hindex : db.forkDb.index = [r.forkItem f.nextPtr none b] := by
      rw [hfork]
      simp [ForkDatabase.startBlock, ForkDatabase.insert, ForkDatabase.fetchBlock, hf]
    have hhead : db.forkDb.head = some (r.forkItem f.nextPtr none b) := by
      rw [hfork]
      rfl
    refine ⟨hreg, hnum, hsize, fun i hi => ?_, fun x hx => ?_, fun _ _ => ?_, fun hzero => ?_,
      fun hnone => ?_⟩
    · obtain rfl : i = r.forkItem f.nextPtr none b := by simpa [hindex] using hi
      exact ⟨le_of_eq hbnum, fun _ => by rw [hobj]; exact hid⟩
    · obtain rfl := Option.some.inj (hhead.symm.trans hx)
      exact Or.inl (le_of_eq hbnum)
    · rw [hindex, hobj]
      exact ⟨_, List.mem_singleton_self _, hid⟩
    · rw [← hbnum, BlockHeader.blockNum] at hzero
      cases hzero
    · rw [hhead] at hnone
      cases hnone

/-! ### Runs -/

namespace DelayedNode

variable {d d' d'' : DelayedNode ω ρ}

/-- The block that is stored at a height was answered after the trusted node had said that it is
irreversible, in calls from the one number on and before the other. -/
def Answered (r : Rules ω ρ) (remote : Nat → TrustedNode ω) (first upto n : Nat)
    (stored : Option (BlockId × SignedBlock ω)) : Prop :=
  ∃ said call lib block, first ≤ said ∧ said < call ∧ call < upto ∧
    (remote said).lastIrreversibleBlockNum = some lib ∧ n ≤ lib ∧
    (remote call).getBlock n = some block ∧ stored = some (r.blockId block.toBlockHeader, block)

theorem Answered.widen {first first' upto upto' n : Nat} {stored : Option (BlockId × SignedBlock ω)}
    (h : Answered r remote first upto n stored) (hfirst : first' ≤ first) (hupto : upto ≤ upto') :
    Answered r remote first' upto' n stored := by
  obtain ⟨said, call, lib, block, h1, h2, h3, hrest⟩ := h
  exact ⟨said, call, lib, block, hfirst.trans h1, h2, h3.trans_le hupto, hrest⟩

def num (d : DelayedNode ω ρ) : Nat := d.database.headObjects.headBlockNumber

/-- `d'` has the chain of `d` and blocks that were answered on top of it. -/
structure Extends (r : Rules ω ρ) (remote : Nat → TrustedNode ω) (first : Nat)
    (d d' : DelayedNode ω ρ) : Prop where
  calls : d.calls ≤ d'.calls
  num : d.num ≤ d'.num
  kept : ∀ n ≤ d.num, d'.database.blockIdToBlock n = d.database.blockIdToBlock n
  given : ∀ n, d.num < n → n ≤ d'.num →
    Answered r remote first d'.calls n (d'.database.blockIdToBlock n)

theorem Extends.of_same {first : Nat} (hcalls : d.calls ≤ d'.calls)
    (hobj : d'.database.headObjects = d.database.headObjects)
    (hblocks : d'.database.blockIdToBlock = d.database.blockIdToBlock) :
    Extends r remote first d d' := by
  have hnum : d'.num = d.num := congrArg Objects.headBlockNumber hobj
  exact ⟨hcalls, le_of_eq hnum.symm, fun n _ => congrFun hblocks n, fun n hlt hle => by omega⟩

theorem Extends.trans {first : Nat} (h : Extends r remote first d d')
    (h' : Extends r remote first d' d'') : Extends r remote first d d'' := by
  refine ⟨h.calls.trans h'.calls, h.num.trans h'.num,
    fun n hn => (h'.kept n (hn.trans h.num)).trans (h.kept n hn), fun n hlt hle => ?_⟩
  by_cases hn : n ≤ d'.num
  · rw [h'.kept n hn]
    exact (h.given n hlt hn).widen (le_refl _) h'.calls
  · exact h'.given n (Nat.lt_of_not_le hn) hle

theorem Extends.widen {first first' : Nat} (h : Extends r remote first d d')
    (hfirst : first' ≤ first) : Extends r remote first' d d' :=
  ⟨h.calls, h.num, h.kept, fun n hlt hle => (h.given n hlt hle).widen hfirst (le_refl _)⟩

theorem Appends.extends {said lib : Nat} {block : SignedBlock ω} {res : Database ω ρ × Option Bool}
    (hnum : block.blockNum = d.num + 1)
    (hsaid : (remote said).lastIrreversibleBlockNum = some lib) (hlt : said < d.calls)
    (hlib : d.num < lib) (hblock : (remote d.calls).getBlock (d.num + 1) = some block)
    (h : Appends r cps skip d.database block res) :
    Extends r remote said d ⟨d.calls + 1, res.1⟩ := by
  cases h with
  | refused hobj hblocks _ => exact .of_same (Nat.le_succ _) hobj hblocks
  | @applied db' happly hblocks =>
    have hb := (Rules.applyBlock_applied happly).headBlockNumber
    have hafter : DelayedNode.num ⟨d.calls + 1, (db', some false).1⟩ = d.num + 1 := hb.trans hnum
    refine ⟨Nat.le_succ _, by omega, fun n hn => ?_, fun n hlow hhigh => ?_⟩
    · rw [hblocks, Function.update_of_ne (by omega)]
    · obtain rfl : n = d.num + 1 := by omega
      refine ⟨said, d.calls, lib, block, le_refl _, hlt, Nat.lt_succ_self _, hsaid, hlib, hblock,
        ?_⟩
      rw [hblocks, ← hnum, Function.update_self]

theorem syncBlocks_extends (hremote : Numbered remote) {said lib : Nat}
    (hsaid : (remote said).lastIrreversibleBlockNum = some lib) (fuel : Nat)
    (h : Linear r cps d.database) (hlt : said < d.calls) :
    Linear r cps (d.syncBlocks r cps remote lib fuel).1.database ∧
      Extends r remote said d (d.syncBlocks r cps remote lib fuel).1 := by
  induction fuel generalizing d with
  | zero => exact ⟨h, .of_same (le_refl _) rfl rfl⟩
  | succ fuel ih =>
    have hnum : d.database.headBlockNum = d.num := h.num
    unfold syncBlocks
    rw [hnum]
    split
    · rename_i hlib
      split
      · exact ⟨h, .of_same (Nat.le_succ _) rfl rfl⟩
      · rename_i block hblock
        obtain ⟨hbnum, hfirst⟩ := hremote _ _ _ hblock
        have hskip : SkipFlags.forkDb .nothing = false := rfl
        obtain ⟨hlinear, happends⟩ := h.pushBlock hskip hbnum fun hone => hfirst (hbnum ▸ hone)
        have hextends := Appends.extends hbnum hsaid hlt hlib hblock happends
        split
        · rename_i db hpush
          rw [hpush] at hlinear hextends
          exact ⟨hlinear, hextends⟩
        · rename_i db switched hpush
          rw [hpush] at hlinear hextends
          obtain ⟨hrest, hmore⟩ := ih (d := ⟨d.calls + 1, db⟩) hlinear (Nat.lt_succ_of_lt hlt)
          exact ⟨hrest, hextends.trans hmore⟩
    · exact ⟨h, .of_same (le_refl _) rfl rfl⟩

theorem syncWithTrustedNode_extends (hremote : Numbered remote) (fuel : Nat)
    (h : Linear r cps d.database) :
    Linear r cps (d.syncWithTrustedNode r cps remote fuel).1.database ∧
      Extends r remote d.calls d (d.syncWithTrustedNode r cps remote fuel).1 := by
  induction fuel generalizing d with
  | zero => exact ⟨h, .of_same (le_refl _) rfl rfl⟩
  | succ fuel ih =>
    unfold syncWithTrustedNode
    split
    · exact ⟨h, .of_same (Nat.le_succ _) rfl rfl⟩
    · rename_i lib hsaid
      split
      · exact ⟨h, .of_same (Nat.le_succ _) rfl rfl⟩
      · have hasked : Extends r remote d.calls d ⟨d.calls + 1, d.database⟩ :=
          .of_same (Nat.le_succ _) rfl rfl
        obtain ⟨hlinear, hblocks⟩ := syncBlocks_extends (d := ⟨d.calls + 1, d.database⟩) hremote
          hsaid fuel h (Nat.lt_succ_self _)
        split
        · rename_i d₁ hsync
          rw [hsync] at hlinear hblocks
          obtain ⟨hrest, hmore⟩ := ih hlinear
          exact ⟨hrest, (hasked.trans hblocks).trans
            (hmore.widen ((Nat.le_succ _).trans hblocks.calls))⟩
        · exact ⟨hlinear, hasked.trans hblocks⟩

theorem Runs.extends (hremote : Numbered remote) (h : Linear r cps d.database)
    (hrun : Runs r cps remote d d') :
    Linear r cps d'.database ∧ Extends r remote d.calls d d' := by
  induction hrun with
  | start => exact ⟨h, .of_same (le_refl _) rfl rfl⟩
  | sync _ fuel ih =>
    obtain ⟨hlinear, hextends⟩ := ih
    obtain ⟨hnext, hmore⟩ := syncWithTrustedNode_extends hremote fuel hlinear
    exact ⟨hnext, hextends.trans (hmore.widen hextends.calls)⟩
  | transaction _ skip t ih =>
    obtain ⟨hlinear, hextends⟩ := ih
    obtain ⟨hs, -⟩ := Database.pushTransaction_spec hlinear.regular.toConsistent skip t
    exact ⟨hlinear.pushTransaction skip t,
      hextends.trans (.of_same (le_refl _) hs.headObjects hs.blocks)⟩

/-- However the trusted node behaves between its calls, and however they fail, the delayed node only
puts blocks on top of its chain, each at the height for which the trusted node answered it after it
had said that the height is irreversible. -/
theorem delayed_node_appends (hopened : Opened r d.database)
    (hsize : 1 ≤ d.database.forkDb.maxSize) (hremote : Numbered remote)
    (hrun : Runs r cps remote d d') (hrun' : Runs r cps remote d' d'') :
    d'.num ≤ d''.num ∧
    (∀ n ≤ d'.num, d''.database.blockIdToBlock n = d'.database.blockIdToBlock n) ∧
    ∀ n, d'.num < n → n ≤ d''.num →
      Answered r remote d'.calls d''.calls n (d''.database.blockIdToBlock n) := by
  obtain ⟨hlinear, -⟩ := hrun.extends hremote (.opened hopened hsize)
  obtain ⟨-, hextends⟩ := hrun'.extends hremote hlinear
  exact ⟨hextends.num, hextends.kept, hextends.given⟩

/-- A trusted node that answers with an unsigned block in its first two calls. -/
def hastyNode (call : Nat) : TrustedNode Nat where
  lastIrreversibleBlockNum := some 1
  getBlock num :=
    if num = 1 then some (if call < 2 then unsignedBlock .zero 10 else counterBlock .zero 10 0 [])
    else none

theorem hastyNode_numbered : Numbered hastyNode := by
  intro call num block h
  unfold hastyNode at h
  simp only at h
  split at h
  · rename_i hnum
    subst hnum
    obtain rfl := Option.some.inj h
    split <;> exact ⟨rfl, fun _ => rfl⟩
  · cases h

/-- The delayed node of the small chain, and it after the unsigned block. -/
def smallNode : DelayedNode Nat Nat := ⟨0, counterDatabase 0⟩

def refusedNode : DelayedNode Nat Nat :=
  (smallNode.syncWithTrustedNode counterRules [] hastyNode 3).1

theorem delayed_node_appends_second :
    ∃ d : DelayedNode Nat Nat, d.num = 1 ∧
      Answered counterRules hastyNode refusedNode.calls d.calls 1
        (d.database.blockIdToBlock 1) := by
  have hrun : Runs counterRules [] hastyNode smallNode refusedNode := .sync .start 3
  have hnum : (refusedNode.syncWithTrustedNode counterRules [] hastyNode 3).1.num = 1 := by
    decide +kernel
  refine ⟨_, hnum, (delayed_node_appends (counterDatabase_opened 0) ?_ hastyNode_numbered hrun
    (.sync .start 3)).2.2 1 ?_ (le_of_eq hnum.symm)⟩
  · decide
  · decide +kernel

theorem syncBlocks_replays (hremote : Numbered remote) (h : Linear r cps d.database)
    {blocks : List (SignedBlock ω)} {s : Objects ρ}
    (hreplay : r.replay cps .nothing d.database.headObjects blocks = some s)
    (hblocks : ∀ call, d.calls ≤ call → ∀ i block, blocks[i]? = some block →
      (remote call).getBlock (d.num + 1 + i) = some block) :
    ∃ d', d.syncBlocks r cps remote (d.num + blocks.length) (blocks.length + 1) =
        (d', .returned) ∧ d.calls ≤ d'.calls ∧ Linear r cps d'.database ∧
      d'.num = d.num + blocks.length ∧ d'.database.headObjects = s := by
  induction blocks generalizing d with
  | nil =>
    have hnum : d.database.headBlockNum = d.num := h.num
    refine ⟨d, ?_, le_refl _, h, rfl, Option.some.inj hreplay⟩
    simp [syncBlocks, hnum]
  | cons block blocks ih =>
    obtain ⟨s', happly, hrest⟩ := Option.bind_eq_some_iff.mp hreplay
    have hblock := hblocks d.calls (le_refl _) 0 block rfl
    obtain ⟨hbnum, hfirst⟩ := hremote _ _ _ hblock
    have hskip : SkipFlags.forkDb .nothing = false := rfl
    obtain ⟨hlinear, happends⟩ := h.pushBlock hskip hbnum fun hone => hfirst (hbnum ▸ hone)
    have hprev := (Rules.applyBlock_applied happly).previous
    generalize hpush : d.database.pushBlock r cps .nothing block = res at hlinear happends
    cases happends with
    | refused _ _ hthrown =>
      rw [hthrown hprev.symm] at happly
      cases happly
    | @applied db hnext _ =>
      obtain rfl : db.headObjects = s' := Option.some.inj (hnext.symm.trans happly)
      have hb := (Rules.applyBlock_applied happly).headBlockNumber
      have hafter : DelayedNode.num ⟨d.calls + 1, db⟩ = d.num + 1 := hb.trans hbnum
      obtain ⟨d', hsync, hcalls, hd', hd'num, hd's⟩ := ih (d := ⟨d.calls + 1, db⟩) hlinear hrest
        fun call hcall i b hb => by
          rw [hafter]
          have := hblocks call (Nat.le_of_succ_le hcall) (i + 1) b hb
          rwa [show d.num + 1 + (i + 1) = d.num + 1 + 1 + i by omega] at this
      refine ⟨d', ?_, Nat.le_of_succ_le hcalls, hd', ?_, hd's⟩
      · have hnum : d.database.headBlockNum = d.num := h.num
        rw [hafter] at hsync
        rw [List.length_cons, syncBlocks, hnum, if_pos (by omega), hblock]
        simp only [hpush]
        rw [← hsync]
        congr 1
        omega
      · rw [hd'num, hafter, List.length_cons]
        omega

/-- Whatever a trusted node has answered before, once it answers with blocks that apply on top of
the chain of the delayed node, a sync brings the delayed node to the last of them. -/
theorem delayed_node_catches_up (hopened : Opened r d.database)
    (hsize : 1 ≤ d.database.forkDb.maxSize) (hremote : Numbered remote)
    (hrun : Runs r cps remote d d') {blocks : List (SignedBlock ω)} {s : Objects ρ}
    (hreplay : r.replay cps .nothing d'.database.headObjects blocks = some s)
    (hsaid : ∀ call, d'.calls ≤ call →
      (remote call).lastIrreversibleBlockNum = some (d'.num + blocks.length))
    (hblocks : ∀ call, d'.calls ≤ call → ∀ i block, blocks[i]? = some block →
      (remote call).getBlock (d'.num + 1 + i) = some block) :
    (d'.syncWithTrustedNode r cps remote (blocks.length + 2)).2 = .returned ∧
      (d'.syncWithTrustedNode r cps remote (blocks.length + 2)).1.database.headObjects = s := by
  obtain ⟨hlinear, -⟩ := hrun.extends hremote (.opened hopened hsize)
  have hnum : d'.database.headBlockNum = d'.num := hlinear.num
  obtain ⟨d'', hsync, hcalls, hd'', hd''num, hs⟩ := syncBlocks_replays
    (d := ⟨d'.calls + 1, d'.database⟩) hremote hlinear hreplay
    fun call hcall => hblocks call (Nat.le_of_succ_le hcall)
  have hnum'' : d''.database.headBlockNum = d'.num + blocks.length := hd''.num.trans hd''num
  unfold syncWithTrustedNode
  rw [hsaid _ (le_refl _)]
  simp only [hnum]
  split
  · rename_i hle
    obtain rfl : blocks = [] := List.length_eq_zero_iff.mp (by omega)
    exact ⟨rfl, Option.some.inj hreplay⟩
  · have hsync' : (DelayedNode.syncBlocks r cps remote (d'.num + blocks.length)
        (blocks.length + 1) ⟨d'.calls + 1, d'.database⟩) = (d'', .returned) := hsync
    simp only [hsync']
    unfold syncWithTrustedNode
    rw [hsaid _ (Nat.le_of_succ_le hcalls)]
    simp only [hnum'', le_refl, if_true]
    exact ⟨trivial, hs⟩

theorem delayed_node_catches_up_second :
    (refusedNode.syncWithTrustedNode counterRules [] hastyNode 3).2 = .returned ∧
      (refusedNode.syncWithTrustedNode counterRules [] hastyNode 3).1.num = 1 := by
  have hrun : Runs counterRules [] hastyNode smallNode refusedNode := .sync .start 3
  have hreplays : (counterRules.replay [] .nothing refusedNode.database.headObjects
      [counterBlock .zero 10 0 []]).any (fun s => s.headBlockNumber = 1) = true := by decide +kernel
  obtain ⟨s, hreplay, hone⟩ := (Option.any_eq_true _ _).mp hreplays
  have hnum : refusedNode.num = 0 := by decide +kernel
  have hcalls : refusedNode.calls = 2 := by decide +kernel
  obtain ⟨hreturned, hs⟩ := delayed_node_catches_up (counterDatabase_opened 0) (by decide)
    hastyNode_numbered hrun hreplay (fun call _ => by rw [hnum]; rfl)
    fun call hcall i block hb => by
      rw [hcalls] at hcall
      rw [hnum]
      cases i with
      | zero =>
        obtain rfl := Option.some.inj hb
        simp [hastyNode, Nat.not_lt.mpr hcall]
      | succ i => cases hb
  exact ⟨hreturned, (congrArg Objects.headBlockNumber hs).trans (of_decide_eq_true hone)⟩

end DelayedNode

end Nestchain.Plugins
