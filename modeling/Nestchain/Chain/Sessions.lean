import Nestchain.Chain.Database
import Nestchain.Chain.Irreversible

/-! What the parts of `push_block` and `push_transaction` do to the undo history.  Between two calls
of the restorer the database is `Idle`: no session is open, and each saved state is the one from
which the block above it was applied. -/

namespace Nestchain.Chain

open Nestchain.Lib

variable {ω ρ : Type}

/-! ### Effects -/

theorem Proposals.run_widens {σ : Type} (p : Proposals) (u : SnapshotStack σ) :
    SnapshotStack.Widens u (p.run u) := by
  induction p generalizing u with
  | done => exact .refl u
  | push inner merged next ih ih' =>
    exact ((ih u.startNested).nested merged).trans (ih' _)

/-- Apart from the objects, their saved states and the block store, `db'` is `db` with the
databases resized: the fork index has lost no item that is as high as the head. -/
structure Aside (db db' : Database ω ρ) : Prop where
  active : db'.undoDb.active = db.undoDb.active
  forkHead : db'.forkDb.head = db.forkDb.head
  forkPtr : db'.forkDb.nextPtr = db.forkDb.nextPtr
  forkIndex : ∀ i ∈ db'.forkDb.index, i ∈ db.forkDb.index
  forkKept : ∀ i ∈ db.forkDb.index, (∀ h, db.forkDb.head = some h → h.num ≤ i.num) →
    i ∈ db'.forkDb.index
  pendingTx : db'.pendingTx = db.pendingTx
  pendingTxSession : db'.pendingTxSession = db.pendingTxSession
  poppedTx : db'.poppedTx = db.poppedTx

theorem Aside.refl (db : Database ω ρ) : Aside db db :=
  ⟨rfl, rfl, rfl, fun _ h => h, fun _ h _ => h, rfl, rfl, rfl⟩

theorem Aside.trans {db db' db'' : Database ω ρ} (h : Aside db db') (h' : Aside db' db'') :
    Aside db db'' where
  active := h'.active.trans h.active
  forkHead := h'.forkHead.trans h.forkHead
  forkPtr := h'.forkPtr.trans h.forkPtr
  forkIndex i hi := h.forkIndex i (h'.forkIndex i hi)
  forkKept i hi hn := h'.forkKept i (h.forkKept i hi hn) (h.forkHead ▸ hn)
  pendingTx := h'.pendingTx.trans h.pendingTx
  pendingTxSession := h'.pendingTxSession.trans h.pendingTxSession
  poppedTx := h'.poppedTx.trans h.poppedTx

/-- `db'` is `db` with the databases resized. -/
structure Resized (db db' : Database ω ρ) : Prop extends Aside db db' where
  objects : db'.undoDb.current = db.undoDb.current
  saved : db'.undoDb.saved = db.undoDb.saved
  blocks : db'.blockIdToBlock = db.blockIdToBlock

theorem Resized.refl (db : Database ω ρ) : Resized db db := ⟨.refl db, rfl, rfl, rfl⟩

theorem Resized.trans {db db' db'' : Database ω ρ} (h : Resized db db') (h' : Resized db' db'') :
    Resized db db'' :=
  ⟨h.toAside.trans h'.toAside, h'.objects.trans h.objects, h'.saved.trans h.saved,
    h'.blocks.trans h.blocks⟩

theorem ForkDatabase.setMaxSize_spec (f : ForkDatabase ω) (n : Nat) :
    (f.setMaxSize n).head = f.head ∧ (f.setMaxSize n).nextPtr = f.nextPtr ∧
      (f.setMaxSize n).maxSize = n ∧ (∀ i ∈ (f.setMaxSize n).index, i ∈ f.index) ∧
      ∀ i ∈ f.index, (∀ h, f.head = some h → h.num ≤ i.num) → i ∈ (f.setMaxSize n).index := by
  unfold ForkDatabase.setMaxSize
  split
  · exact ⟨rfl, rfl, rfl, fun _ h => h, fun _ h _ => h⟩
  · rename_i h hh
    refine ⟨rfl, rfl, rfl, fun i hi => (List.mem_filter.mp hi).1, fun i hi hn => ?_⟩
    exact List.mem_filter.mpr ⟨hi, by have := hn h hh; simp; omega⟩

theorem Database.runEffect_resized (db : Database ω ρ) (e : Effect) :
    Resized db (db.runEffect e) := by
  cases e with
  | proposals p =>
    have h := p.run_widens db.undoDb
    exact ⟨⟨h.active, rfl, rfl, fun _ h => h, fun _ h _ => h, rfl, rfl, rfl⟩, h.current, h.saved,
      rfl⟩
  | setMaxSize n =>
    obtain ⟨h1, h2, -, h3, h4⟩ := db.forkDb.setMaxSize_spec n
    exact ⟨⟨rfl, h1, h2, h3, h4, rfl, rfl, rfl⟩, rfl, rfl, rfl⟩

theorem Database.runEffects_resized (db : Database ω ρ) (es : List Effect) :
    Resized db (es.foldl Database.runEffect db) := by
  induction es generalizing db with
  | nil => exact .refl db
  | cons e es ih => exact (db.runEffect_resized e).trans (ih _)

theorem Database.runEffects_limit {n : Nat} (db : Database ω ρ) (es : List Effect)
    (hes : ∀ m, .setMaxSize m ∈ es → n ≤ m)
    (hn : n ≤ db.undoDb.limit ∨ ∃ m, .setMaxSize m ∈ es) :
    n ≤ (es.foldl Database.runEffect db).undoDb.limit := by
  induction es generalizing db with
  | nil => exact hn.resolve_right (by simp)
  | cons e es ih =>
    refine ih _ (fun m hm => hes m (List.mem_cons_of_mem _ hm)) ?_
    cases e with
    | proposals p =>
      refine hn.imp (fun h => h.trans (p.run_widens db.undoDb).limit) ?_
      rintro ⟨m, hm⟩
      exact ⟨m, by simpa using hm⟩
    | setMaxSize k => exact Or.inl (hes k List.mem_cons_self)

/-! ### Applying a block -/

section

variable {r : Rules ω ρ} {cps : Checkpoints} {skip : SkipFlags}

theorem Outcome.effects_bind {α β : Type} {x : Outcome α} {f : α → Outcome β} {e : Effect}
    (h : e ∈ (x >>= f).effects) : e ∈ x.effects ∨ ∃ a, x.result = some a ∧ e ∈ (f a).effects := by
  change e ∈ (x.bind f).effects at h
  unfold Outcome.bind at h
  cases hx : x.result with
  | none => rw [hx] at h; exact Or.inl h
  | some a =>
    rw [hx] at h
    exact (List.mem_append.mp h).imp_right fun h => ⟨a, rfl, h⟩

theorem Outcome.effects_of_bind {α β : Type} {x : Outcome α} {f : α → Outcome β} {e : Effect}
    (h : e ∈ x.effects ∨ ∃ a, x.result = some a ∧ e ∈ (f a).effects) : e ∈ (x >>= f).effects := by
  change e ∈ (x.bind f).effects
  unfold Outcome.bind
  cases hx : x.result with
  | none =>
    rcases h with h | ⟨a, ha, -⟩
    · exact h
    · rw [hx] at ha; cases ha
  | some a =>
    refine List.mem_append.mpr (h.imp_right ?_)
    rintro ⟨b, hb, he⟩
    obtain rfl : a = b := Option.some.inj (hx.symm.trans hb)
    exact he

theorem Rules.applyTransaction_effects {s : Objects ρ} {t : SignedTransaction ω} {n : Nat} :
    .setMaxSize n ∉ (r.applyTransaction skip s t).effects := by
  intro h
  rcases Outcome.effects_bind h with h | ⟨_, -, h⟩
  · cases h
  rcases Outcome.effects_bind h with h | ⟨_, -, h⟩
  · simp [Outcome.effect] at h
  rcases Outcome.effects_bind h with h | ⟨_, -, h⟩
  · cases h
  · cases h

theorem Rules.applyTransactions_effects {s : Objects ρ} {ts : List (SignedTransaction ω)}
    {n : Nat} : .setMaxSize n ∉ (r.applyTransactions skip s ts).effects := by
  induction ts generalizing s with
  | nil => intro h; cases h
  | cons t ts ih =>
    intro h
    rcases Outcome.effects_bind h with h | ⟨s1, -, h⟩
    · exact Rules.applyTransaction_effects h
    · exact ih h

theorem Rules.updateGlobalDynamicData_effects {s : Objects ρ} {b : SignedBlock ω} {n : Nat}
    (h : .setMaxSize n ∈ (r.updateGlobalDynamicData skip s b).effects) :
    n = b.blockNum - s.lastIrreversibleBlockNum + 1 := by
  rcases Outcome.effects_bind h with h | ⟨_, -, h⟩
  · cases h
  rcases Outcome.effects_bind h with h | ⟨_, -, h⟩
  · cases h
  rcases Outcome.effects_bind h with h | ⟨_, -, h⟩
  · simpa [Outcome.effect] using h
  · cases h

/-- Applying a block sets the maximum size to reach the last irreversible block before the block,
if it sets it, which needs that the block follows the head block. -/
theorem Rules.applyBlock_effects {s : Objects ρ} {b : SignedBlock ω} {n : Nat}
    (h : .setMaxSize n ∈ (r.applyBlock cps skip s b).effects) :
    s.headBlockId = b.previous ∧ n = b.blockNum - s.lastIrreversibleBlockNum + 1 := by
  rcases Outcome.effects_bind h with h | ⟨_, -, h⟩
  · cases h
  rcases Outcome.effects_bind h with h | ⟨_, -, h⟩
  · cases h
  rcases Outcome.effects_bind h with h | ⟨_, hheader, h⟩
  · cases h
  have hprev : s.headBlockId = b.previous := by
    rw [Outcome.result_assert] at hheader
    simp only [Rules.validateBlockHeader, Bool.and_eq_true, decide_eq_true_eq] at hheader
    exact hheader.1.1.1.1
  refine ⟨hprev, ?_⟩
  rcases Outcome.effects_bind h with h | ⟨applied, happlied, h⟩
  · exact absurd h Rules.applyTransactions_effects
  rcases Outcome.effects_bind h with h | ⟨_, -, h⟩
  · rw [Rules.updateGlobalDynamicData_effects h,
      (Rules.applyTransactions_sameChain happlied).lastIrreversibleBlockNum]
  rcases Outcome.effects_bind h with h | ⟨_, -, h⟩
  · rcases Outcome.effects_bind h with h | ⟨_, -, h⟩ <;> cases h
  rcases Outcome.effects_bind h with h | ⟨_, -, h⟩
  · unfold Rules.maintain at h
    split at h
    · rcases Outcome.effects_bind h with h | ⟨_, -, h⟩ <;> cases h
    · cases h
  rcases Outcome.effects_bind h with h | ⟨_, -, h⟩
  · simp [Outcome.effect] at h
  rcases Outcome.effects_bind h with h | ⟨_, -, h⟩ <;> cases h

theorem Rules.applyBlock_resizes {s s' : Objects ρ} {b : SignedBlock ω}
    (h : (r.applyBlock cps skip s b).result = some s') :
    ∃ n, .setMaxSize n ∈ (r.applyBlock cps skip s b).effects := by
  obtain ⟨_, h1, h⟩ := Outcome.result_bind.mp h
  obtain ⟨_, h2, h⟩ := Outcome.result_bind.mp h
  obtain ⟨_, h3, h⟩ := Outcome.result_bind.mp h
  obtain ⟨applied, h4, h⟩ := Outcome.result_bind.mp h
  obtain ⟨headed, h5, h⟩ := Outcome.result_bind.mp h
  obtain ⟨_, h6, h5⟩ := Outcome.result_bind.mp h5
  obtain ⟨_, h7, h5⟩ := Outcome.result_bind.mp h5
  refine ⟨b.blockNum - applied.lastIrreversibleBlockNum + 1, ?_⟩
  refine Outcome.effects_of_bind (Or.inr ⟨_, h1, ?_⟩)
  refine Outcome.effects_of_bind (Or.inr ⟨_, h2, ?_⟩)
  refine Outcome.effects_of_bind (Or.inr ⟨_, h3, ?_⟩)
  refine Outcome.effects_of_bind (Or.inr ⟨_, h4, ?_⟩)
  refine Outcome.effects_of_bind (Or.inl ?_)
  refine Outcome.effects_of_bind (Or.inr ⟨_, h6, ?_⟩)
  refine Outcome.effects_of_bind (Or.inr ⟨_, h7, ?_⟩)
  exact Outcome.effects_of_bind (Or.inl (by simp [Outcome.effect]))

/-- What applying and committing the block `b` does. -/
structure BlockPushed (r : Rules ω ρ) (cps : Checkpoints) (skip : SkipFlags) (db : Database ω ρ)
    (b : SignedBlock ω) (db' : Database ω ρ) : Prop extends Aside db db' where
  applied : (r.applyBlock cps skip db.objects b).result = some db'.objects
  saved : db'.undoDb.saved = db.objects :: db.undoDb.saved.take db.undoDb.limit
  limit : b.blockNum - db.objects.lastIrreversibleBlockNum + 1 ≤ db'.undoDb.limit
  blocks : db'.blockIdToBlock =
    Function.update db.blockIdToBlock b.blockNum (some (r.blockId b.toBlockHeader, b))

/-- What is left when applying the block `b` throws. -/
structure BlockRefused (r : Rules ω ρ) (cps : Checkpoints) (skip : SkipFlags) (db : Database ω ρ)
    (b : SignedBlock ω) (db' : Database ω ρ) : Prop extends Aside db db' where
  thrown : (r.applyBlock cps skip db.objects b).result = none
  objects : db'.objects = db.objects
  saved : db'.undoDb.saved = db.undoDb.saved.take db.undoDb.limit
  limit : ∀ n, n ≤ db.undoDb.limit → (db.objects.headBlockId = b.previous →
    n ≤ b.blockNum - db.objects.lastIrreversibleBlockNum + 1) → n ≤ db'.undoDb.limit
  blocks : db'.blockIdToBlock = db.blockIdToBlock

theorem Database.applyAndCommit_spec (db : Database ω ρ) (r : Rules ω ρ) (cps : Checkpoints)
    (skip : SkipFlags) (b : SignedBlock ω) :
    (db.applyAndCommit r cps skip b).2 = true ∧
        BlockPushed r cps skip db b (db.applyAndCommit r cps skip b).1 ∨
      (db.applyAndCommit r cps skip b).2 = false ∧
        BlockRefused r cps skip db b (db.applyAndCommit r cps skip b).1 := by
  have hres := db.startUndoSession.runEffects_resized (r.applyBlock cps skip db.objects b).effects
  have hlimit : ∀ n, n ≤ db.undoDb.limit ∨
      (∃ m, .setMaxSize m ∈ (r.applyBlock cps skip db.objects b).effects) →
      (db.objects.headBlockId = b.previous →
        n ≤ b.blockNum - db.objects.lastIrreversibleBlockNum + 1) →
      n ≤ ((r.applyBlock cps skip db.objects b).effects.foldl Database.runEffect
        db.startUndoSession).undoDb.limit := by
    intro n hn hle
    refine Database.runEffects_limit _ _ (fun m hm => ?_) hn
    obtain ⟨hprev, rfl⟩ := Rules.applyBlock_effects hm
    exact hle hprev
  unfold Database.applyAndCommit Database.perform
  cases hr : (r.applyBlock cps skip db.objects b).result with
  | some s =>
    refine Or.inl ⟨rfl, ⟨⟨?_, hres.forkHead, hres.forkPtr, hres.forkIndex, hres.forkKept,
      hres.pendingTx, hres.pendingTxSession, hres.poppedTx⟩, hr, hres.saved, ?_, ?_⟩⟩
    · exact congrArg (· - 1) hres.active
    · exact hlimit _ (Or.inr (Rules.applyBlock_resizes hr)) fun _ => le_rfl
    · exact congrArg (fun m => Function.update m b.blockNum _) hres.blocks
  | none =>
    refine Or.inr ⟨rfl, ⟨⟨?_, hres.forkHead, hres.forkPtr, hres.forkIndex, hres.forkKept,
      hres.pendingTx, hres.pendingTxSession, hres.poppedTx⟩, hr, ?_, ?_,
      fun n hn hle => hlimit n (Or.inl hn) hle, hres.blocks⟩⟩
    · exact congrArg (· - 1) hres.active
    · exact SnapshotStack.undo_current hres.saved
    · exact congrArg List.tail hres.saved

/-! ### Popping blocks -/

/-- Each state is the result of applying a block to the next one, and carries the number of its head
block. -/
structure Spine (r : Rules ω ρ) (cps : Checkpoints) (l : List (Objects ρ)) : Prop where
  applied : l.IsChain fun s p => ∃ skip b, (r.applyBlock cps skip p b).result = some s
  num : ∀ s ∈ l, s.headBlockId.num = s.headBlockNumber

theorem Spine.drop {l : List (Objects ρ)} (h : Spine r cps l) (n : Nat) :
    Spine r cps (l.drop n) :=
  ⟨h.applied.drop n, fun s hs => h.num s (List.mem_of_mem_drop hs)⟩

theorem Spine.take {l : List (Objects ρ)} (h : Spine r cps l) (n : Nat) :
    Spine r cps (l.take n) :=
  ⟨h.applied.take n, fun s hs => h.num s (List.mem_of_mem_take hs)⟩

theorem Spine.tail {s : Objects ρ} {l : List (Objects ρ)} (h : Spine r cps (s :: l)) :
    Spine r cps l :=
  ⟨h.applied.tail, fun x hx => h.num x (List.mem_cons_of_mem _ hx)⟩

theorem Spine.push {s s' : Objects ρ} {l : List (Objects ρ)} {b : SignedBlock ω}
    (h : Spine r cps (s :: l)) (hb : (r.applyBlock cps skip s b).result = some s') :
    Spine r cps (s' :: s :: l) := by
  refine ⟨List.isChain_cons_cons.mpr ⟨⟨skip, b, hb⟩, h.applied⟩, fun x hx => ?_⟩
  rcases List.mem_cons.mp hx with rfl | hx
  · have hb := Rules.applyBlock_applied hb
    rw [hb.headBlockId, hb.headBlockNumber]
    rfl
  · exact h.num x hx

/-- The database between the calls of the restorer: no session is open. -/
structure Idle (r : Rules ω ρ) (cps : Checkpoints) (db : Database ω ρ) : Prop where
  session : db.pendingTxSession = false
  active : db.undoDb.active = 0
  pendingTx : db.pendingTx = []
  limit : 1 ≤ db.undoDb.limit
  spine : Spine r cps (db.objects :: db.undoDb.saved)

theorem Idle.reset {db : Database ω ρ} (h : Idle r cps db) : db.resetPendingSession = db := by
  simp [Database.resetPendingSession, h.session]

/-- What a pop that does not throw does in an idle database. -/
structure BlockPopped (db : Database ω ρ) (held : List (ForkItem ω)) (db' : Database ω ρ) :
    Prop where
  saved : db.undoDb.saved = db'.objects :: db'.undoDb.saved
  limit : db'.undoDb.limit = db.undoDb.limit
  active : db'.undoDb.active = db.undoDb.active
  forkDb : db.forkDb.popBlock held = some db'.forkDb
  blocks : db'.blockIdToBlock = db.blockIdToBlock
  pendingTx : db'.pendingTx = db.pendingTx
  session : db'.pendingTxSession = db.pendingTxSession
  poppedTx : ∃ b, db.fetchBlockById db.headBlockId = some b ∧
    db'.poppedTx = b.transactions ++ db.poppedTx

theorem Database.popBlock_true {db db' : Database ω ρ} {held : List (ForkItem ω)}
    (h : Idle r cps db) (hp : db.popBlock held = (db', true)) : BlockPopped db held db' := by
  unfold Database.popBlock at hp
  rw [h.reset] at hp
  cases hb : db.fetchBlockById db.headBlockId with
  | none => simp [hb] at hp
  | some b =>
    cases hf : db.forkDb.popBlock held with
    | none => simp [hb, hf] at hp
    | some f =>
      cases hu : db.undoDb.popCommit with
      | none => simp [hb, hf, hu] at hp
      | some u =>
        simp only [hb, hf, hu, Prod.mk.injEq, and_true] at hp
        subst hp
        unfold SnapshotStack.popCommit at hu
        rw [if_pos h.active] at hu
        cases hs : db.undoDb.saved with
        | nil => simp [hs] at hu
        | cons s saved =>
          simp only [hs, Option.some.injEq] at hu
          subst hu
          exact ⟨hs, rfl, rfl, hf, rfl, rfl, rfl, b, hb, rfl⟩

theorem Database.popBlock_false {db db' : Database ω ρ} {held : List (ForkItem ω)}
    (h : Idle r cps db) (hp : db.popBlock held = (db', false)) :
    db' = db ∨ ∃ f, db.forkDb.popBlock held = some f ∧ db' = { db with forkDb := f } := by
  unfold Database.popBlock at hp
  rw [h.reset] at hp
  cases hb : db.fetchBlockById db.headBlockId with
  | none => simp only [hb, Prod.mk.injEq, and_true] at hp; exact Or.inl hp.symm
  | some b =>
    cases hf : db.forkDb.popBlock held with
    | none => simp only [hb, hf, Prod.mk.injEq, and_true] at hp; exact Or.inl hp.symm
    | some f =>
      cases hu : db.undoDb.popCommit with
      | none => simp only [hb, hf, hu, Prod.mk.injEq, and_true] at hp; exact Or.inr ⟨f, rfl, hp.symm⟩
      | some u => simp [hb, hf, hu] at hp

theorem ForkDatabase.popBlock_same {f f' : ForkDatabase ω} {held : List (ForkItem ω)}
    (h : f.popBlock held = some f') : ∃ p, f' = { f with head := some p } := by
  simp only [ForkDatabase.popBlock, Option.bind_eq_bind, Option.bind_eq_some_iff] at h
  obtain ⟨i, -, p, -, hf'⟩ := h
  cases hf'
  exact ⟨p, rfl⟩

/-- `db'` is `db` with some of the last states taken back.  The fork database keeps its items. -/
structure Unwound (db db' : Database ω ρ) : Prop where
  states : ∃ k, db'.objects :: db'.undoDb.saved = (db.objects :: db.undoDb.saved).drop k
  limit : db'.undoDb.limit = db.undoDb.limit
  active : db'.undoDb.active = db.undoDb.active
  forkDb : ∃ h, db'.forkDb = { db.forkDb with head := h }
  blocks : db'.blockIdToBlock = db.blockIdToBlock
  pendingTx : db'.pendingTx = db.pendingTx
  session : db'.pendingTxSession = db.pendingTxSession
  poppedTx : ∃ l, db'.poppedTx = l ++ db.poppedTx

theorem Unwound.refl (db : Database ω ρ) : Unwound db db :=
  ⟨⟨0, rfl⟩, rfl, rfl, ⟨_, rfl⟩, rfl, rfl, rfl, ⟨[], rfl⟩⟩

theorem Unwound.trans {db db' db'' : Database ω ρ} (h : Unwound db db') (h' : Unwound db' db'') :
    Unwound db db'' where
  states := by
    obtain ⟨k, hk⟩ := h.states
    obtain ⟨k', hk'⟩ := h'.states
    exact ⟨k + k', by rw [hk', hk, List.drop_drop]⟩
  limit := h'.limit.trans h.limit
  active := h'.active.trans h.active
  forkDb := by
    obtain ⟨x, hx⟩ := h.forkDb
    obtain ⟨y, hy⟩ := h'.forkDb
    exact ⟨y, by rw [hy, hx]⟩
  blocks := h'.blocks.trans h.blocks
  pendingTx := h'.pendingTx.trans h.pendingTx
  session := h'.session.trans h.session
  poppedTx := by
    obtain ⟨l, hl⟩ := h.poppedTx
    obtain ⟨l', hl'⟩ := h'.poppedTx
    exact ⟨l' ++ l, by rw [hl', hl, List.append_assoc]⟩

theorem BlockPopped.unwound {db db' : Database ω ρ} {held : List (ForkItem ω)}
    (h : BlockPopped db held db') : Unwound db db' := by
  obtain ⟨p, hp⟩ := ForkDatabase.popBlock_same h.forkDb
  obtain ⟨b, -, hb⟩ := h.poppedTx
  exact ⟨⟨1, by rw [h.saved]; rfl⟩, h.limit, h.active, ⟨_, hp⟩, h.blocks, h.pendingTx, h.session,
    _, hb⟩

theorem Idle.unwound {db db' : Database ω ρ} (h : Idle r cps db) (hu : Unwound db db') :
    Idle r cps db' where
  session := hu.session.trans h.session
  active := hu.active.trans h.active
  pendingTx := hu.pendingTx.trans h.pendingTx
  limit := hu.limit ▸ h.limit
  spine := by
    obtain ⟨k, hk⟩ := hu.states
    rw [hk]
    exact h.spine.drop k

theorem Database.popUntil_spec {held : List (ForkItem ω)} {target : BlockId} {fuel : Nat}
    {db db' : Database ω ρ} {ok : Bool} (h : Idle r cps db)
    (hp : popUntil held target fuel db = (db', ok)) :
    Unwound db db' ∧ (ok = true → db'.headBlockId = target) ∧
      ∀ heap, (∀ i ∈ held, i ∈ heap) → ForkHeap r heap db.forkDb → ForkHeap r heap db'.forkDb := by
  induction fuel generalizing db with
  | zero =>
    cases hp
    exact ⟨.refl _, by simp, fun _ _ h => h⟩
  | succ fuel ih =>
    rw [popUntil] at hp
    split at hp
    · rename_i htarget
      cases hp
      exact ⟨.refl _, fun _ => htarget, fun _ _ h => h⟩
    · split at hp
      · rename_i db1 hpop
        have hpopped := popBlock_true h hpop
        obtain ⟨h1, h2, h3⟩ := ih (h.unwound hpopped.unwound) hp
        exact ⟨hpopped.unwound.trans h1, h2,
          fun heap hheld hheap => h3 heap hheld (hheap.popBlock hheld hpopped.forkDb)⟩
      · rename_i db1 hpop
        cases hp
        refine ⟨?_, by simp, fun heap hheld hheap => ?_⟩
        · rcases popBlock_false h hpop with rfl | ⟨f, hf, rfl⟩
          · exact .refl _
          · obtain ⟨p, hp⟩ := ForkDatabase.popBlock_same hf
            exact ⟨⟨0, rfl⟩, rfl, rfl, ⟨_, hp⟩, rfl, rfl, rfl, ⟨[], rfl⟩⟩
        · rcases popBlock_false h hpop with rfl | ⟨f, hf, rfl⟩
          · exact hheap
          · exact hheap.popBlock hheld hf

/-! ### Pushing a branch -/

def Rules.replay (r : Rules ω ρ) (cps : Checkpoints) (skip : SkipFlags) :
    Objects ρ → List (SignedBlock ω) → Option (Objects ρ)
  | s, [] => some s
  | s, b :: bs => (r.applyBlock cps skip s b).result.bind fun s' => r.replay cps skip s' bs

theorem Idle.pushed {db db' : Database ω ρ} {b : SignedBlock ω} (h : Idle r cps db)
    (hb : BlockPushed r cps skip db b db') : Idle r cps db' where
  session := hb.pendingTxSession.trans h.session
  active := hb.active.trans h.active
  pendingTx := hb.pendingTx.trans h.pendingTx
  limit := (Nat.succ_le_succ (Nat.zero_le _)).trans hb.limit
  spine := by
    rw [hb.saved]
    refine Spine.push ?_ hb.applied
    have := h.spine.take (db.undoDb.limit + 1)
    rwa [List.take_succ_cons] at this

theorem Idle.refused {db db' : Database ω ρ} {b : SignedBlock ω} (h : Idle r cps db)
    (hb : BlockRefused r cps skip db b db') : Idle r cps db' where
  session := hb.pendingTxSession.trans h.session
  active := hb.active.trans h.active
  pendingTx := hb.pendingTx.trans h.pendingTx
  limit := hb.limit 1 h.limit fun _ => Nat.succ_le_succ (Nat.zero_le _)
  spine := by
    rw [hb.saved, hb.objects]
    have := h.spine.take (db.undoDb.limit + 1)
    rwa [List.take_succ_cons] at this

theorem Aside.heap {db db' : Database ω ρ} {heap : List (ForkItem ω)} (h : Aside db db')
    (hh : ForkHeap r heap db.forkDb) : ForkHeap r heap db'.forkDb :=
  hh.shrink h.forkIndex (fun i hi => hh.head i (h.forkHead ▸ hi)) h.forkPtr

theorem Database.pushBranch_spec {is bad : List (ForkItem ω)} {db db' : Database ω ρ}
    (h : Idle r cps db) (hp : pushBranch r cps skip is db = (db', bad)) :
    Idle r cps db' ∧ Aside db db' ∧ ∃ done, is = done ++ bad ∧
      r.replay cps skip db.objects (done.map ForkItem.data) = some db'.objects ∧
      ∀ i ∈ bad.head?, (r.applyBlock cps skip db'.objects i.data).result = none := by
  induction is generalizing db with
  | nil =>
    cases hp
    exact ⟨h, .refl _, [], rfl, rfl, by simp⟩
  | cons i is ih =>
    rw [pushBranch] at hp
    rcases db.applyAndCommit_spec r cps skip i.data with ⟨hok, hb⟩ | ⟨hok, hb⟩
    · generalize hres : db.applyAndCommit r cps skip i.data = res at hp hok hb
      obtain ⟨db1, ok⟩ := res
      subst hok
      obtain ⟨h1, h2, done, h3, h4, h5⟩ := ih (h.pushed hb) hp
      refine ⟨h1, hb.toAside.trans h2, i :: done, by rw [h3]; rfl, ?_, h5⟩
      rw [List.map_cons, Rules.replay, hb.applied]
      exact h4
    · generalize hres : db.applyAndCommit r cps skip i.data = res at hp hok hb
      obtain ⟨db1, ok⟩ := res
      subst hok
      cases hp
      refine ⟨h.refused hb, hb.toAside, [], rfl, by rw [hb.objects]; rfl, ?_⟩
      intro j hj
      obtain rfl : i = j := by simpa using hj
      rw [hb.objects]
      exact hb.thrown

end

end Nestchain.Chain
