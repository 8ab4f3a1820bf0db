import Nestchain.Chain.Sessions

/-! What holds in every reachable database.  `_push_block` starts and ends with an idle database,
whether it returns or throws; between calls at most the pending session is open, on top of the state
of the head block. -/

namespace Nestchain.Chain

open Nestchain.Lib

variable {ω ρ : Type} {r : Rules ω ρ} {cps : Checkpoints} {skip : SkipFlags}

/-! ### The block part of a call -/

theorem ForkHeap.removeAll {f : ForkDatabase ω} {heap : List (ForkItem ω)} (h : ForkHeap r heap f)
    (bad : List (ForkItem ω)) : ForkHeap r heap (f.removeAll bad) := by
  induction bad generalizing f with
  | nil => exact h
  | cons i bad ih => exact ih (h.remove i.id)

theorem fetchBranchFrom_mem {f : ForkDatabase ω} {heap : List (ForkItem ω)}
    (h : ForkHeap r heap f) {a b : BlockId} {l l' : List (ForkItem ω)}
    (hf : f.fetchBranchFrom a b = some (l, l')) : ∀ i ∈ l ++ l', i ∈ heap := by
  obtain ⟨x, y, x', y', m, m', hx, hy, hw, hw', rfl, rfl, -, -⟩ := fetchBranchFrom_branches h hf
  intro i hi
  rcases List.mem_append.mp hi with hi | hi
  · exact (hw.branch h (h.index x (ForkHeap.fetchBlock_mem hx).1)).2.1 i hi
  · exact (hw'.branch h (h.index y (ForkHeap.fetchBlock_mem hy).1)).2.1 i hi

theorem Idle.withForkDb {db : Database ω ρ} (h : Idle r cps db) (f : ForkDatabase ω) :
    Idle r cps { db with forkDb := f } :=
  ⟨h.session, h.active, h.pendingTx, h.limit, h.spine⟩

theorem Database.pushDirect_idle {db : Database ω ρ} {b : SignedBlock ω}
    {heap : List (ForkItem ω)} (h : Idle r cps db) (hh : ForkHeap r heap db.forkDb) :
    Idle r cps (db.pushDirect r cps skip b).1 ∧
      ForkHeap r heap (db.pushDirect r cps skip b).1.forkDb := by
  unfold Database.pushDirect
  rcases db.applyAndCommit_spec r cps skip b with ⟨hok, hb⟩ | ⟨hok, hb⟩ <;>
    generalize db.applyAndCommit r cps skip b = res at hok hb <;> obtain ⟨db', ok⟩ := res <;>
    subst hok
  · exact ⟨h.pushed hb, hb.toAside.heap hh⟩
  · exact ⟨(h.refused hb).withForkDb _, (hb.toAside.heap hh).remove _⟩

/-- The ways through the fork switch after the blocks above `fork` are to be popped. -/
inductive ForkSwitch (r : Rules ω ρ) (cps : Checkpoints) (skip : SkipFlags) (db : Database ω ρ)
    (first second : List (ForkItem ω)) (fork : BlockId) : Database ω ρ × Option Bool → Prop
  | stuck {db1 : Database ω ρ}
      (hpop : Database.popUntil (first ++ second) fork (db.undoDb.saved.length + 1) db =
        (db1, false)) :
      ForkSwitch r cps skip db first second fork (db1, none)
  | switched {db1 db2 : Database ω ρ}
      (hpop : Database.popUntil (first ++ second) fork (db.undoDb.saved.length + 1) db =
        (db1, true))
      (hpush : Database.pushBranch r cps skip first.reverse db1 = (db2, [])) :
      ForkSwitch r cps skip db first second fork (db2, some true)
  | stuckBack {db1 db2 db3 : Database ω ρ} {i : ForkItem ω} {bad : List (ForkItem ω)}
      (hpop : Database.popUntil (first ++ second) fork (db.undoDb.saved.length + 1) db =
        (db1, true))
      (hpush : Database.pushBranch r cps skip first.reverse db1 = (db2, i :: bad))
      (hback : Database.popUntil (first ++ second) fork (db2.undoDb.saved.length + 1) { db2 with
        forkDb := (db2.forkDb.removeAll (i :: bad)).setHead second.head? } = (db3, false)) :
      ForkSwitch r cps skip db first second fork (db3, none)
  | back {db1 db2 db3 : Database ω ρ} {i : ForkItem ω} {bad : List (ForkItem ω)}
      (hpop : Database.popUntil (first ++ second) fork (db.undoDb.saved.length + 1) db =
        (db1, true))
      (hpush : Database.pushBranch r cps skip first.reverse db1 = (db2, i :: bad))
      (hback : Database.popUntil (first ++ second) fork (db2.undoDb.saved.length + 1) { db2 with
        forkDb := (db2.forkDb.removeAll (i :: bad)).setHead second.head? } = (db3, true)) :
      ForkSwitch r cps skip db first second fork
        ((Database.pushBranch r cps skip second.reverse db3).1, none)

theorem Database.switchForks_cases (db : Database ω ρ) (first : List (ForkItem ω))
    {second : List (ForkItem ω)} {fork : ForkItem ω} (hlast : second.getLast? = some fork) :
    ForkSwitch r cps skip db first second fork.data.previous
      (db.switchForks r cps skip first second) := by
  unfold Database.switchForks
  rw [hlast]
  simp only
  generalize hpop : popUntil _ _ _ db = res
  obtain ⟨db1, ok⟩ := res
  cases ok with
  | false => exact .stuck hpop
  | true =>
    simp only
    generalize hpush : pushBranch r cps skip first.reverse db1 = res
    obtain ⟨db2, bad⟩ := res
    cases bad with
    | nil => exact .switched hpop hpush
    | cons i bad =>
      simp only
      generalize hback : popUntil _ _ _ _ = res
      obtain ⟨db3, ok⟩ := res
      cases ok with
      | false => exact .stuckBack hpop hpush hback
      | true => exact .back hpop hpush hback

/-- The ways through `_push_block`. -/
inductive BlockPush (r : Rules ω ρ) (cps : Checkpoints) (skip : SkipFlags) (db : Database ω ρ)
    (b : SignedBlock ω) : Database ω ρ × Option Bool → Prop
  | noForkDb (hskip : skip.forkDb = true) : BlockPush r cps skip db b (db.pushDirect r cps skip b)
  | unlinked (hskip : skip.forkDb = false) (hfork : db.forkDb.pushBlock r b = none) :
      BlockPush r cps skip db b (db, none)
  | direct {f : ForkDatabase ω} {newHead : ForkItem ω} (hskip : skip.forkDb = false)
      (hfork : db.forkDb.pushBlock r b = some f) (hhead : f.head = some newHead)
      (hprev : newHead.data.previous = db.headBlockId) :
      BlockPush r cps skip db b (({ db with forkDb := f } : Database ω ρ).pushDirect r cps skip b)
  | kept {f : ForkDatabase ω} {newHead : ForkItem ω} (hskip : skip.forkDb = false)
      (hfork : db.forkDb.pushBlock r b = some f) (hhead : f.head = some newHead)
      (hprev : newHead.data.previous ≠ db.headBlockId)
      (hnum : newHead.data.blockNum ≤ db.headBlockNum) :
      BlockPush r cps skip db b ({ db with forkDb := f }, some false)
  | noBranches {f : ForkDatabase ω} {newHead : ForkItem ω} (hskip : skip.forkDb = false)
      (hfork : db.forkDb.pushBlock r b = some f) (hhead : f.head = some newHead)
      (hprev : newHead.data.previous ≠ db.headBlockId)
      (hnum : db.headBlockNum < newHead.data.blockNum)
      (hfetch : f.fetchBranchFrom newHead.id db.headBlockId = none) :
      BlockPush r cps skip db b ({ db with forkDb := f }, none)
  | fork {f : ForkDatabase ω} {newHead : ForkItem ω} {first second : List (ForkItem ω)}
      {last : ForkItem ω} {res : Database ω ρ × Option Bool} (hskip : skip.forkDb = false)
      (hfork : db.forkDb.pushBlock r b = some f) (hhead : f.head = some newHead)
      (hprev : newHead.data.previous ≠ db.headBlockId)
      (hnum : db.headBlockNum < newHead.data.blockNum)
      (hfetch : f.fetchBranchFrom newHead.id db.headBlockId = some (first, second))
      (hlast : second.getLast? = some last)
      (hswitch : ForkSwitch r cps skip { db with forkDb :=
        f } first second last.data.previous res) :
      BlockPush r cps skip db b res

theorem ForkDatabase.pushBlock_head {f f' : ForkDatabase ω} {b : SignedBlock ω}
    (h : f.pushBlock r b = some f') : ∃ i, f'.head = some i := by
  unfold ForkDatabase.pushBlock at h
  split at h
  · obtain ⟨prev, -, rfl⟩ := Option.map_eq_some_iff.mp h
    unfold ForkDatabase.pushItem
    split
    · exact ⟨_, rfl⟩
    · rename_i i hi
      split
      · exact ⟨_, rfl⟩
      · refine ⟨i, ?_⟩
        show (f.insert _).head = some i
        unfold ForkDatabase.insert
        split <;> exact hi
  · cases h

theorem Database.pushBlockBody_cases {db : Database ω ρ} {heap : List (ForkItem ω)}
    (hh : ForkHeap r heap db.forkDb) (cps : Checkpoints) (skip : SkipFlags) (b : SignedBlock ω) :
    BlockPush r cps skip db b (db.pushBlockBody r cps skip b) := by
  unfold Database.pushBlockBody
  split
  · rename_i hskip
    exact .noForkDb hskip
  rename_i hskip
  replace hskip : skip.forkDb = false := by simpa using hskip
  cases hf : db.forkDb.pushBlock r b with
  | none => exact .unlinked hskip hf
  | some f =>
    obtain ⟨item, -, -, hheap⟩ := hh.pushBlock hf
    obtain ⟨newHead, hhead⟩ := ForkDatabase.pushBlock_head hf
    simp only [hhead]
    split
    · rename_i hprev
      split
      · rename_i hnum
        split
        · rename_i hfetch
          exact .noBranches hskip hf hhead hprev hnum hfetch
        · rename_i first second hfetch
          obtain ⟨x, y, x', y', m, m', -, -, -, -, rfl, rfl, -, -⟩ :=
            fetchBranchFrom_branches hheap hfetch
          have hlast : (m' ++ [y']).getLast? = some y' := by simp
          exact .fork hskip hf hhead hprev hnum hfetch hlast
            (Database.switchForks_cases _ _ hlast)
      · rename_i hnum
        exact .kept hskip hf hhead hprev (Nat.le_of_not_lt hnum)
    · rename_i hprev
      exact .direct hskip hf hhead (not_not.mp hprev)

theorem ForkSwitch.idle {db : Database ω ρ} {first second : List (ForkItem ω)} {fork : BlockId}
    {res : Database ω ρ × Option Bool} {heap : List (ForkItem ω)}
    (hs : ForkSwitch r cps skip db first second fork res) (h : Idle r cps db)
    (hh : ForkHeap r heap db.forkDb) (hheld : ∀ i ∈ first ++ second, i ∈ heap) :
    Idle r cps res.1 ∧ ForkHeap r heap res.1.forkDb := by
  -- Pushing the first branch, up to the block that throws, and going back to the second.
  have hreturn : ∀ {db1 db2 db3 : Database ω ρ} {fuel fuel' : Nat} {ok : Bool}
      {bad : List (ForkItem ω)},
      Database.popUntil (first ++ second) fork fuel db = (db1, true) →
      Database.pushBranch r cps skip first.reverse db1 = (db2, bad) →
      Database.popUntil (first ++ second) fork fuel' { db2 with
        forkDb := (db2.forkDb.removeAll bad).setHead second.head? } = (db3, ok) →
      Idle r cps db3 ∧ ForkHeap r heap db3.forkDb := by
    intro db1 db2 db3 fuel fuel' ok bad hpop hpush hback
    obtain ⟨hu, -, hkeep⟩ := Database.popUntil_spec h hpop
    obtain ⟨h2, haside, -⟩ := Database.pushBranch_spec (h.unwound hu) hpush
    have hh2 := haside.heap (hkeep heap hheld hh)
    have hh3 : ForkHeap r heap ((db2.forkDb.removeAll bad).setHead second.head?) := by
      refine (hh2.removeAll _).setHead fun x hx => hheld x ?_
      exact List.mem_append_right _ (List.mem_of_mem_head? hx)
    obtain ⟨hu', -, hkeep'⟩ := Database.popUntil_spec (h2.withForkDb _) hback
    exact ⟨(h2.withForkDb _).unwound hu', hkeep' heap hheld hh3⟩
  cases hs with
  | stuck hpop =>
    obtain ⟨hu, -, hkeep⟩ := Database.popUntil_spec h hpop
    exact ⟨h.unwound hu, hkeep heap hheld hh⟩
  | switched hpop hpush =>
    obtain ⟨hu, -, hkeep⟩ := Database.popUntil_spec h hpop
    obtain ⟨h2, haside, -⟩ := Database.pushBranch_spec (h.unwound hu) hpush
    exact ⟨h2, haside.heap (hkeep heap hheld hh)⟩
  | stuckBack hpop hpush hback => exact hreturn hpop hpush hback
  | back hpop hpush hback =>
    obtain ⟨h3, hh3⟩ := hreturn hpop hpush hback
    obtain ⟨h4, haside, -⟩ := Database.pushBranch_spec h3 rfl
    exact ⟨h4, haside.heap hh3⟩

theorem BlockPush.idle {db : Database ω ρ} {heap : List (ForkItem ω)} {b : SignedBlock ω}
    {res : Database ω ρ × Option Bool} (hb : BlockPush r cps skip db b res) (h : Idle r cps db)
    (hh : ForkHeap r heap db.forkDb) :
    Idle r cps res.1 ∧ ∃ heap', ForkHeap r heap' res.1.forkDb := by
  cases hb with
  | noForkDb _ => exact (Database.pushDirect_idle h hh).imp_right fun h => ⟨heap, h⟩
  | unlinked _ _ => exact ⟨h, heap, hh⟩
  | direct _ hfork _ _ =>
    obtain ⟨item, -, -, hh'⟩ := hh.pushBlock hfork
    exact (Database.pushDirect_idle (h.withForkDb _) hh').imp_right fun h => ⟨_, h⟩
  | kept _ hfork _ _ _ =>
    obtain ⟨item, -, -, hh'⟩ := hh.pushBlock hfork
    exact ⟨h.withForkDb _, _, hh'⟩
  | noBranches _ hfork _ _ _ _ =>
    obtain ⟨item, -, -, hh'⟩ := hh.pushBlock hfork
    exact ⟨h.withForkDb _, _, hh'⟩
  | fork _ hfork _ _ _ hfetch _ hswitch =>
    obtain ⟨item, -, -, hh'⟩ := hh.pushBlock hfork
    exact (hswitch.idle (h.withForkDb _) hh' (fetchBranchFrom_mem hh' hfetch)).imp_right
      fun h => ⟨_, h⟩

theorem Database.pushBlockBody_idle {db : Database ω ρ} {heap : List (ForkItem ω)}
    (h : Idle r cps db) (hh : ForkHeap r heap db.forkDb) (skip : SkipFlags) (b : SignedBlock ω) :
    Idle r cps (db.pushBlockBody r cps skip b).1 ∧
      ∃ heap', ForkHeap r heap' (db.pushBlockBody r cps skip b).1.forkDb :=
  (Database.pushBlockBody_cases hh cps skip b).idle h hh

/-! ### The pending session -/

/-- What holds between calls: at most the pending session is open, and it started at the head
block. -/
structure Consistent (r : Rules ω ρ) (cps : Checkpoints) (db : Database ω ρ) : Prop where
  active : db.undoDb.active = if db.pendingTxSession then 1 else 0
  saved : db.pendingTxSession = true → db.undoDb.saved ≠ []
  pendingTx : db.pendingTxSession = false → db.pendingTx = []
  limit : 1 ≤ db.undoDb.limit
  spine : Spine r cps (db.headObjects :: db.committed)

theorem Idle.consistent {db : Database ω ρ} (h : Idle r cps db) : Consistent r cps db where
  active := by simp [h.session, h.active]
  saved hs := by rw [h.session] at hs; cases hs
  pendingTx _ := h.pendingTx
  limit := h.limit
  spine := by simpa [Database.headObjects, Database.committed, h.session] using h.spine

theorem Idle.headObjects {db : Database ω ρ} (h : Idle r cps db) : db.headObjects = db.objects := by
  simp [Database.headObjects, h.session]

theorem Idle.committed {db : Database ω ρ} (h : Idle r cps db) :
    db.committed = db.undoDb.saved := by
  simp [Database.committed, h.session]

theorem Consistent.clearPending {db : Database ω ρ} (h : Consistent r cps db) :
    Idle r cps db.clearPending ∧ db.clearPending.objects = db.headObjects ∧
      db.clearPending.undoDb.saved = db.committed ∧
      db.clearPending.undoDb.limit = db.undoDb.limit ∧
      db.clearPending.forkDb = db.forkDb ∧ db.clearPending.blockIdToBlock = db.blockIdToBlock ∧
      db.clearPending.poppedTx = db.poppedTx := by
  have hactive := h.active
  have hspine := h.spine
  unfold Database.clearPending Database.resetPendingSession
  cases hs : db.pendingTxSession with
  | false =>
    simp only [hs, Bool.false_eq_true, if_false, Database.headObjects, Database.committed]
      at hactive hspine ⊢
    exact ⟨⟨rfl, hactive, rfl, h.limit, hspine⟩, rfl, trivial, trivial, trivial, trivial, trivial⟩
  | true =>
    simp only [hs, if_true, Database.headObjects, Database.committed] at hactive hspine ⊢
    refine ⟨⟨rfl, ?_, rfl, h.limit, hspine⟩, rfl, rfl, rfl, rfl, rfl, rfl⟩
    show db.undoDb.active - 1 = 0
    omega

/-- What pushing the transaction `t` leaves besides the objects and the pending transactions: the
oldest saved states may be dropped, and the undo history may be widened. -/
structure SessionKept (db db' : Database ω ρ) : Prop where
  session : db'.pendingTxSession = true
  active : db'.undoDb.active = 1
  headObjects : db'.headObjects = db.headObjects
  committed : db'.committed = db.committed.take (db.undoDb.limit - 1)
  saved : db'.undoDb.saved ≠ []
  limit : db.undoDb.limit ≤ db'.undoDb.limit
  forkDb : db'.forkDb = db.forkDb
  blocks : db'.blockIdToBlock = db.blockIdToBlock
  poppedTx : db'.poppedTx = db.poppedTx

theorem Database.runEffects_forkDb (db : Database ω ρ) {es : List Effect}
    (h : ∀ n, .setMaxSize n ∉ es) :
    (es.foldl Database.runEffect db).forkDb = db.forkDb ∧
      db.undoDb.limit ≤ (es.foldl Database.runEffect db).undoDb.limit := by
  refine ⟨?_, Database.runEffects_limit db es (fun m hm => absurd hm (h m)) (Or.inl le_rfl)⟩
  induction es generalizing db with
  | nil => rfl
  | cons e es ih =>
    rw [List.foldl_cons, ih _ fun n hn => h n (List.mem_cons_of_mem _ hn)]
    cases e with
    | proposals p => rfl
    | setMaxSize n => exact absurd List.mem_cons_self (h n)

theorem Database.pushTransaction_spec {db : Database ω ρ} (h : Consistent r cps db)
    (skip : SkipFlags) (t : SignedTransaction ω) :
    SessionKept db (db.pushTransaction r skip t).1 ∧
      ((db.pushTransaction r skip t).2 = true ∧
          (r.applyTransaction skip db.objects t).result =
            some (db.pushTransaction r skip t).1.objects ∧
          (db.pushTransaction r skip t).1.pendingTx = db.pendingTx ++ [t] ∨
        (db.pushTransaction r skip t).2 = false ∧
          (r.applyTransaction skip db.objects t).result = none ∧
          (db.pushTransaction r skip t).1.objects = db.objects ∧
          (db.pushTransaction r skip t).1.pendingTx = db.pendingTx) := by
  -- The database in which the pending session is open.
  obtain ⟨opened, hopened, hobj, hsaved, hact, hlim, hsess, hfork, hblocks, hpend, hpop⟩ :
      ∃ o : Database ω ρ, o = (if db.pendingTxSession then db
          else { db.startUndoSession with pendingTxSession := true }) ∧
        o.objects = db.objects ∧
        o.undoDb.saved.take o.undoDb.limit =
          db.headObjects :: db.committed.take (db.undoDb.limit - 1) ∧
        o.undoDb.active = 1 ∧ o.undoDb.limit = db.undoDb.limit ∧ o.pendingTxSession = true ∧
        o.forkDb = db.forkDb ∧ o.blockIdToBlock = db.blockIdToBlock ∧
        o.pendingTx = db.pendingTx ∧ o.poppedTx = db.poppedTx := by
    refine ⟨_, rfl, ?_⟩
    have hactive := h.active
    obtain ⟨n, hn⟩ : ∃ n, db.undoDb.limit = n + 1 := ⟨_, (Nat.sub_add_cancel h.limit).symm⟩
    cases hs : db.pendingTxSession with
    | true =>
      obtain ⟨s, l, hl⟩ := List.exists_cons_of_ne_nil (h.saved hs)
      simp only [hs, if_true] at hactive ⊢
      simp [Database.headObjects, Database.committed, hs, hl, hactive, hn]
    | false =>
      simp only [hs, Bool.false_eq_true, if_false] at hactive ⊢
      refine ⟨rfl, ?_, congrArg (· + 1) hactive, rfl, trivial, rfl, rfl, rfl, rfl⟩
      simp [Database.startUndoSession, SnapshotStack.start, Database.headObjects,
        Database.committed, hs, hn, Database.objects, List.take_take]
  have hres := opened.startUndoSession.runEffects_resized
    (r.applyTransaction skip db.objects t).effects
  obtain ⟨hf, hl⟩ := opened.startUndoSession.runEffects_forkDb
    (fun n => Rules.applyTransaction_effects : ∀ n,
      .setMaxSize n ∉ (r.applyTransaction skip db.objects t).effects)
  have hrs : ((r.applyTransaction skip db.objects t).effects.foldl Database.runEffect
      opened.startUndoSession).undoDb.saved =
      opened.objects :: db.headObjects :: db.committed.take (db.undoDb.limit - 1) := by
    rw [hres.saved, ← hsaved]
    rfl
  have hkept : ∀ db' : Database ω ρ, db'.pendingTxSession = true →
      db'.undoDb.saved = db.headObjects :: db.committed.take (db.undoDb.limit - 1) →
      db'.undoDb.active = 1 → db.undoDb.limit ≤ db'.undoDb.limit → db'.forkDb = db.forkDb →
      db'.blockIdToBlock = db.blockIdToBlock → db'.poppedTx = db.poppedTx →
      SessionKept db db' := by
    intro db' h1 h2 h3 h4 h5 h6 h7
    exact ⟨h1, h3, by simp [Database.headObjects, h1, h2], by simp [Database.committed, h1, h2],
      by simp [h2], h4, h5, h6, h7⟩
  unfold Database.pushTransaction
  rw [← hopened]
  simp only [Database.perform, hobj]
  cases hr : (r.applyTransaction skip db.objects t).result with
  | some s =>
    refine ⟨hkept _ ?_ ?_ ?_ ?_ ?_ ?_ ?_, Or.inl ⟨rfl, rfl, ?_⟩⟩
    · exact hres.pendingTxSession.trans hsess
    · exact congrArg List.tail hrs
    · show _ - 1 = 1
      exact congrArg (· - 1) (hres.active.trans (congrArg (· + 1) hact))
    · exact hlim ▸ hl
    · exact hf.trans hfork
    · exact hres.blocks.trans hblocks
    · exact hres.poppedTx.trans hpop
    · exact congrArg (· ++ [t]) (hres.pendingTx.trans hpend)
  | none =>
    refine ⟨hkept _ ?_ ?_ ?_ ?_ ?_ ?_ ?_, Or.inr ⟨rfl, rfl, ?_, ?_⟩⟩
    · exact hres.pendingTxSession.trans hsess
    · exact congrArg List.tail hrs
    · show _ - 1 = 1
      exact congrArg (· - 1) (hres.active.trans (congrArg (· + 1) hact))
    · exact hlim ▸ hl
    · exact hf.trans hfork
    · exact hres.blocks.trans hblocks
    · exact hres.poppedTx.trans hpop
    · exact (SnapshotStack.undo_current hrs).trans hobj
    · exact hres.pendingTx.trans hpend

/-- `db'` is `db` after more pending transactions: the head block is the same, and no more than the
states beyond the maximum size were dropped. -/
structure PendingKept (db db' : Database ω ρ) : Prop where
  headObjects : db'.headObjects = db.headObjects
  committed : ∃ n, db.undoDb.limit - 1 ≤ n ∧ db'.committed = db.committed.take n
  limit : db.undoDb.limit ≤ db'.undoDb.limit
  forkDb : db'.forkDb = db.forkDb
  blocks : db'.blockIdToBlock = db.blockIdToBlock

theorem PendingKept.refl (db : Database ω ρ) : PendingKept db db :=
  ⟨rfl, ⟨db.committed.length + db.undoDb.limit, by omega,
    (List.take_of_length_le (by omega)).symm⟩, le_rfl, rfl, rfl⟩

theorem PendingKept.trans {db db' db'' : Database ω ρ} (h : PendingKept db db')
    (h' : PendingKept db' db'') : PendingKept db db'' where
  headObjects := h'.headObjects.trans h.headObjects
  committed := by
    obtain ⟨n, hn, hc⟩ := h.committed
    obtain ⟨n', hn', hc'⟩ := h'.committed
    have := h.limit
    exact ⟨min n' n, by omega, by rw [hc', hc, List.take_take]⟩
  limit := h.limit.trans h'.limit
  forkDb := h'.forkDb.trans h.forkDb
  blocks := h'.blocks.trans h.blocks

theorem SessionKept.pendingKept {db db' : Database ω ρ} (h : SessionKept db db') :
    PendingKept db db' :=
  ⟨h.headObjects, ⟨_, le_rfl, h.committed⟩, h.limit, h.forkDb, h.blocks⟩

theorem SessionKept.consistent {db db' : Database ω ρ} (h : Consistent r cps db)
    (hs : SessionKept db db') : Consistent r cps db' where
  active := by rw [hs.active, hs.session]; rfl
  saved _ := hs.saved
  pendingTx hfalse := by rw [hs.session] at hfalse; cases hfalse
  limit := h.limit.trans hs.limit
  spine := by
    rw [hs.headObjects, hs.committed]
    have := h.spine.take (db.undoDb.limit - 1 + 1)
    rwa [List.take_succ_cons] at this

theorem Database.retryTransaction_kept {db : Database ω ρ} (h : Consistent r cps db)
    (skip : SkipFlags) (t : SignedTransaction ω) :
    Consistent r cps (db.retryTransaction r skip t) ∧
      PendingKept db (db.retryTransaction r skip t) ∧
      (db.retryTransaction r skip t).poppedTx = db.poppedTx := by
  unfold Database.retryTransaction
  split
  · exact ⟨h, .refl db, rfl⟩
  · obtain ⟨hs, -⟩ := Database.pushTransaction_spec h skip t
    exact ⟨hs.consistent h, hs.pendingKept, hs.poppedTx⟩

theorem Database.retryTransactions_kept {db : Database ω ρ} (h : Consistent r cps db)
    (skip : SkipFlags) (ts : List (SignedTransaction ω)) :
    Consistent r cps (ts.foldl (Database.retryTransaction r skip) db) ∧
      PendingKept db (ts.foldl (Database.retryTransaction r skip) db) ∧
      (ts.foldl (Database.retryTransaction r skip) db).poppedTx = db.poppedTx := by
  induction ts generalizing db with
  | nil => exact ⟨h, .refl db, rfl⟩
  | cons t ts ih =>
    obtain ⟨h1, h2, h3⟩ := Database.retryTransaction_kept h skip t
    obtain ⟨h4, h5, h6⟩ := ih h1
    exact ⟨h4, h2.trans h5, h6.trans h3⟩

theorem Database.restorePending_kept {db : Database ω ρ} (h : Idle r cps db)
    (skip : SkipFlags) (pending : List (SignedTransaction ω)) :
    Consistent r cps (db.restorePending r skip pending) ∧
      PendingKept db (db.restorePending r skip pending) ∧
      (db.restorePending r skip pending).poppedTx = [] := by
  obtain ⟨h1, h2, -⟩ := Database.retryTransactions_kept h.consistent skip db.poppedTx
  have h1' : Consistent r cps
      { db.poppedTx.foldl (Database.retryTransaction r skip) db with poppedTx := [] } :=
    ⟨h1.active, h1.saved, h1.pendingTx, h1.limit, h1.spine⟩
  obtain ⟨h3, h4, h5⟩ := Database.retryTransactions_kept h1' skip pending
  refine ⟨h3, ?_, h5⟩
  exact h2.trans ⟨h4.headObjects, h4.committed, h4.limit, h4.forkDb, h4.blocks⟩

section Same

variable {α : Type} {f : Objects ρ → α}
  (hf : ∀ skip s t s', (r.applyTransaction skip s t).result = some s' → f s' = f s)

include hf

theorem Database.pushTransaction_same {db : Database ω ρ} (h : Consistent r cps db)
    (skip : SkipFlags) (t : SignedTransaction ω) :
    f (db.pushTransaction r skip t).1.objects = f db.objects := by
  rcases (Database.pushTransaction_spec h skip t).2 with ⟨-, happly, -⟩ | ⟨-, -, hsame, -⟩
  · exact hf skip _ t _ happly
  · exact congrArg f hsame

theorem Database.retryTransactions_same {db : Database ω ρ} (h : Consistent r cps db)
    (skip : SkipFlags) (ts : List (SignedTransaction ω)) :
    f (ts.foldl (Database.retryTransaction r skip) db).objects = f db.objects := by
  induction ts generalizing db with
  | nil => rfl
  | cons t ts ih =>
    rw [List.foldl_cons, ih (Database.retryTransaction_kept h skip t).1]
    unfold Database.retryTransaction
    split
    · rfl
    · exact Database.pushTransaction_same hf h skip t

theorem Database.restorePending_same {db : Database ω ρ} (h : Idle r cps db) (skip : SkipFlags)
    (pending : List (SignedTransaction ω)) :
    f (db.restorePending r skip pending).objects = f db.objects := by
  obtain ⟨hpopped, -, -⟩ := Database.retryTransactions_kept h.consistent skip db.poppedTx
  have hcleared : Consistent r cps
      { db.poppedTx.foldl (Database.retryTransaction r skip) db with poppedTx := [] } :=
    ⟨hpopped.active, hpopped.saved, hpopped.pendingTx, hpopped.limit, hpopped.spine⟩
  exact (Database.retryTransactions_same hf hcleared skip pending).trans
    (Database.retryTransactions_same hf h.consistent skip db.poppedTx)

end Same

/-! ### Reachable databases -/

/-- What holds in every reachable database. -/
structure Regular (r : Rules ω ρ) (cps : Checkpoints) (db : Database ω ρ) : Prop
    extends Consistent r cps db where
  poppedTx : db.poppedTx = []
  heap : ∃ heap, ForkHeap r heap db.forkDb

theorem Opened.idle {db : Database ω ρ} (h : Opened r db) : Idle r cps db where
  session := h.pendingTxSession
  active := h.active
  pendingTx := h.pendingTx
  limit := by rw [h.limit]; decide
  spine := by
    rw [h.saved]
    exact ⟨List.isChain_singleton _, by simpa using h.invariant⟩

theorem Opened.heap {db : Database ω ρ} (h : Opened r db) : ∃ heap, ForkHeap r heap db.forkDb := by
  rcases h.forkDb with ⟨hhead, hindex, -⟩ | ⟨b, f, -, hf, hfork⟩
  · refine ⟨[], ?_, ?_, ?_, ?_, ?_, ?_, ?_⟩ <;> simp [hhead, hindex]
  · have hempty : ForkHeap r [] { f with head := none } := by
      refine ⟨?_, ?_, ?_, ?_, ?_, ?_, ?_⟩ <;> simp [hf]
    let item := r.forkItem f.nextPtr none b
    have hins : ForkHeap r [item] { ({ f with head := none } : ForkDatabase ω).insert item with
        nextPtr := f.nextPtr + 1 } :=
      hempty.insert rfl (fun p hp => by cases hp) ⟨rfl, rfl⟩
    rw [hfork]
    refine ⟨[item], hins.shrink ?_ ?_ rfl⟩
    · intro i hi
      simpa [ForkDatabase.startBlock, ForkDatabase.insert, ForkDatabase.fetchBlock, hf] using hi
    · intro i hi
      cases hi
      exact List.mem_cons_self

theorem Database.pushBlock_regular {db : Database ω ρ} (h : Regular r cps db)
    (b : SignedBlock ω) : Regular r cps (db.pushBlock r cps skip b).1 := by
  obtain ⟨hidle, -, -, -, hfork, -, -⟩ := h.toConsistent.clearPending
  obtain ⟨heap, hheap⟩ := h.heap
  obtain ⟨hmid, heap', hheap'⟩ := Database.pushBlockBody_idle hidle (hfork ▸ hheap) skip b
  obtain ⟨h1, h2, h3⟩ := Database.restorePending_kept hmid skip db.pendingTx
  exact ⟨h1, h3, heap', h2.forkDb ▸ hheap'⟩

theorem Database.pushTransaction_regular {db : Database ω ρ} (h : Regular r cps db)
    (t : SignedTransaction ω) : Regular r cps (db.pushTransaction r skip t).1 := by
  obtain ⟨hs, -⟩ := Database.pushTransaction_spec h.toConsistent skip t
  obtain ⟨heap, hheap⟩ := h.heap
  exact ⟨hs.consistent h.toConsistent, hs.poppedTx.trans h.poppedTx, heap, hs.forkDb ▸ hheap⟩

theorem Reachable.regular {db : Database ω ρ} (h : Reachable r cps db) : Regular r cps db := by
  induction h with
  | opened h => exact ⟨h.idle.consistent, h.poppedTx, h.heap⟩
  | call _ c ih =>
    cases c with
    | pushBlock b skip => exact Database.pushBlock_regular ih b
    | pushTransaction t skip => exact Database.pushTransaction_regular ih t

/-! ### The small chain, opened at genesis -/

/-- The database of the small chain with the witnesses below `n + 1`, opened at genesis. -/
def counterDatabase (n : Nat) : Database Nat Nat where
  undoDb := { current := counterGenesis n, saved := [], active := 0, limit := minUndoHistory }
  forkDb := { maxSize := 1024, index := [], head := none, nextPtr := 0 }
  blockIdToBlock _ := none
  pendingTx := []
  pendingTxSession := false
  poppedTx := []

theorem counterDatabase_opened (n : Nat) : Opened counterRules (counterDatabase n) where
  invariant := rfl
  saved := rfl
  active := rfl
  limit := rfl
  pendingTx := rfl
  pendingTxSession := rfl
  poppedTx := rfl
  forkDb := Or.inl ⟨rfl, rfl, rfl⟩

def Database.calls (r : Rules ω ρ) (cps : Checkpoints) (db : Database ω ρ) (cs : List (Call ω)) :
    Database ω ρ :=
  cs.foldl (Database.call r cps) db

theorem Reachable.calls {db : Database ω ρ} (h : Reachable r cps db) (cs : List (Call ω)) :
    Reachable r cps (db.calls r cps cs) := by
  induction cs generalizing db with
  | nil => exact h
  | cons c cs ih => exact ih (h.call c)

end Nestchain.Chain
