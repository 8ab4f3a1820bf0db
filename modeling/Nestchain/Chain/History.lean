import Nestchain.Chain.Reachable

/-! How far the undo history reaches.  Every block sets the maximum size from the last irreversible
block of its time, so the history reaches the highest block that was irreversible since the database
was opened.  A fork switch can bring back an older last irreversible block, but not the states that
were dropped. -/

namespace Nestchain.Chain

variable {ω ρ : Type} {r : Rules ω ρ} {cps : Checkpoints} {skip : SkipFlags}

/-! ### The states that a call passes through -/

/-- The states after each block of a replay, up to the block that throws. -/
def Rules.replayStates (r : Rules ω ρ) (cps : Checkpoints) (skip : SkipFlags) :
    Objects ρ → List (SignedBlock ω) → List (Objects ρ)
  | _, [] => []
  | s, b :: bs =>
    match (r.applyBlock cps skip s b).result with
    | some s' => s' :: r.replayStates cps skip s' bs
    | none => []

/-- The states after the blocks that `switchForks` applies. -/
def Database.switchPassed (r : Rules ω ρ) (cps : Checkpoints) (skip : SkipFlags)
    (db : Database ω ρ) (first second : List (ForkItem ω)) : List (Objects ρ) :=
  match second.getLast? with
  | none => []
  | some fork =>
    match db.popUntil (first ++ second) fork.data.previous (db.undoDb.saved.length + 1) with
    | (_, false) => []
    | (db, true) =>
      r.replayStates cps skip db.objects (first.reverse.map ForkItem.data) ++
        match pushBranch r cps skip first.reverse db with
        | (_, []) => []
        | (db, bad) =>
          match popUntil (first ++ second) fork.data.previous (db.undoDb.saved.length + 1)
            { db with forkDb := (db.forkDb.removeAll bad).setHead second.head? } with
          | (_, false) => []
          | (db, true) => r.replayStates cps skip db.objects (second.reverse.map ForkItem.data)

/-- The states after the blocks that `_push_block` applies. -/
def Database.blockPassed (r : Rules ω ρ) (cps : Checkpoints) (skip : SkipFlags)
    (db : Database ω ρ) (b : SignedBlock ω) : List (Objects ρ) :=
  if skip.forkDb then r.replayStates cps skip db.objects [b]
  else
    match db.forkDb.pushBlock r b with
    | none => []
    | some f =>
      match f.head with
      | none => []
      | some newHead =>
        if newHead.data.previous ≠ db.headBlockId then
          if newHead.data.blockNum > db.headBlockNum then
            match f.fetchBranchFrom newHead.id db.headBlockId with
            | none => []
            | some (first, second) =>
              ({ db with forkDb := f } : Database ω ρ).switchPassed r cps skip first second
          else []
        else r.replayStates cps skip db.objects [b]

def Database.passed (r : Rules ω ρ) (cps : Checkpoints) (db : Database ω ρ) :
    Call ω → List (Objects ρ)
  | .pushBlock b skip => db.clearPending.blockPassed r cps skip b
  | .pushTransaction _ _ => []

/-- A run of calls on a database that was opened at the block number `opening`, with the states of
the objects after each block that the run applied, and the one it was opened with. -/
inductive Run (r : Rules ω ρ) (cps : Checkpoints) :
    Nat → List (Objects ρ) → Database ω ρ → Prop
  | opened {db : Database ω ρ} (h : Opened r db) : Run r cps db.headBlockNum [db.objects] db
  | call {opening : Nat} {states : List (Objects ρ)} {db : Database ω ρ}
      (h : Run r cps opening states db) (c : Call ω) :
      Run r cps opening (db.passed r cps c ++ states) (db.call r cps c)

theorem Run.reachable {opening : Nat} {states : List (Objects ρ)} {db : Database ω ρ}
    (h : Run r cps opening states db) : Reachable r cps db := by
  induction h with
  | opened h => exact .opened h
  | call _ c ih => exact ih.call c

/-- The highest last irreversible block number of the states. -/
def highestIrreversible (states : List (Objects ρ)) : Nat :=
  (states.map Objects.lastIrreversibleBlockNum).foldr max 0

theorem le_highestIrreversible {states : List (Objects ρ)} {s : Objects ρ} (hs : s ∈ states) :
    s.lastIrreversibleBlockNum ≤ highestIrreversible states := by
  induction states with
  | nil => cases hs
  | cons t states ih =>
    show _ ≤ max t.lastIrreversibleBlockNum (highestIrreversible states)
    rcases List.mem_cons.mp hs with rfl | hs
    · exact Nat.le_max_left _ _
    · have := ih hs
      omega

theorem highestIrreversible_append (states states' : List (Objects ρ)) :
    highestIrreversible states' ≤ highestIrreversible (states ++ states') := by
  induction states with
  | nil => exact le_rfl
  | cons t states ih =>
    show _ ≤ max t.lastIrreversibleBlockNum (highestIrreversible (states ++ states'))
    omega

/-! ### What each step keeps -/

/-- The blocks that can be popped reach down to `top` or to the opening of the database, whichever
is higher, and the next session drops none of them. -/
structure HistoryReaches (opening top : Nat) (db : Database ω ρ) : Prop where
  irreversible : ∀ s ∈ db.headObjects :: db.committed, s.lastIrreversibleBlockNum ≤ top
  count : min (db.headObjects.headBlockNumber - opening) (db.headObjects.headBlockNumber - top) ≤
    db.committed.length
  limit : min (db.headObjects.headBlockNumber - opening) (db.headObjects.headBlockNumber - top) <
    db.undoDb.limit

theorem HistoryReaches.mono {opening top top' : Nat} {db : Database ω ρ}
    (h : HistoryReaches opening top db) (htop : top ≤ top') : HistoryReaches opening top' db := by
  have hcount := h.count
  have hlimit := h.limit
  exact ⟨fun s hs => (h.irreversible s hs).trans htop, by omega, by omega⟩

theorem Spine.headBlockNumber {s : Objects ρ} {l : List (Objects ρ)} (h : Spine r cps (s :: l))
    {k : Nat} {t : Objects ρ} (ht : (s :: l)[k]? = some t) :
    t.headBlockNumber + k = s.headBlockNumber := by
  induction k generalizing s l with
  | zero =>
    obtain rfl : s = t := by simpa using ht
    rfl
  | succ k ih =>
    cases l with
    | nil => simp at ht
    | cons p l =>
      obtain ⟨⟨skip, b, hb⟩, -⟩ := List.isChain_cons_cons.mp h.applied
      have happ := Rules.applyBlock_applied hb
      have hp := ih h.tail (by simpa using ht)
      have hnum : s.headBlockNumber = p.headBlockNumber + 1 := by
        rw [happ.headBlockNumber, BlockHeader.blockNum, ← happ.previous, h.tail.num p (by simp)]
      omega

section Steps

variable {opening top : Nat} {db db' : Database ω ρ} {b : SignedBlock ω}

theorem HistoryReaches.pushed (h : Idle r cps db) (hr : HistoryReaches opening top db)
    (hb : BlockPushed r cps skip db b db') (htop : db'.objects.lastIrreversibleBlockNum ≤ top) :
    HistoryReaches opening top db' := by
  have h' := h.pushed hb
  have happ := Rules.applyBlock_applied hb.applied
  have hnum : db'.objects.headBlockNumber = db.objects.headBlockNumber + 1 := by
    have := h'.spine.headBlockNumber (k := 1) (t := db.objects) (by simp [hb.saved])
    omega
  obtain ⟨hirr, hcount, hlimit⟩ := hr
  rw [h.headObjects, h.committed] at hirr hcount
  rw [h.headObjects] at hlimit
  have hlib := hirr db.objects List.mem_cons_self
  refine ⟨?_, ?_, ?_⟩
  · rw [h'.headObjects, h'.committed, hb.saved]
    intro s hs
    rcases List.mem_cons.mp hs with rfl | hs
    · exact htop
    rcases List.mem_cons.mp hs with rfl | hs
    · exact hlib
    · exact hirr s (List.mem_cons_of_mem _ (List.mem_of_mem_take hs))
  · rw [h'.headObjects, h'.committed, hb.saved, hnum, List.length_cons, List.length_take]
    omega
  · have hset := hb.limit
    rw [← happ.headBlockNumber, hnum] at hset
    rw [h'.headObjects, hnum]
    omega

theorem HistoryReaches.refused (h : Idle r cps db) (hr : HistoryReaches opening top db)
    (hb : BlockRefused r cps skip db b db') :
    HistoryReaches opening top db' := by
  have h' := h.refused hb
  obtain ⟨hirr, hcount, hlimit⟩ := hr
  rw [h.headObjects, h.committed] at hirr hcount
  rw [h.headObjects] at hlimit
  have hlib := hirr db.objects List.mem_cons_self
  refine ⟨?_, ?_, ?_⟩
  · rw [h'.headObjects, h'.committed, hb.saved, hb.objects]
    intro s hs
    rcases List.mem_cons.mp hs with rfl | hs
    · exact hlib
    · exact hirr s (List.mem_cons_of_mem _ (List.mem_of_mem_take hs))
  · rw [h'.headObjects, h'.committed, hb.saved, hb.objects, List.length_take]
    omega
  · rw [h'.headObjects, hb.objects]
    refine hb.limit _ hlimit fun hprev => ?_
    rw [BlockHeader.blockNum, ← hprev, h.spine.num _ List.mem_cons_self]
    omega

theorem HistoryReaches.unwound (h : Idle r cps db) (hr : HistoryReaches opening top db)
    (hu : Unwound db db') : HistoryReaches opening top db' := by
  have h' := h.unwound hu
  obtain ⟨k, hk⟩ := hu.states
  obtain ⟨hirr, hcount, hlimit⟩ := hr
  rw [h.headObjects, h.committed] at hirr hcount
  rw [h.headObjects] at hlimit
  have hget : (db.objects :: db.undoDb.saved)[k]? = some db'.objects := by
    rw [← List.head?_drop, ← hk]
    rfl
  have hnum := h.spine.headBlockNumber hget
  have hlen := congrArg List.length hk
  simp only [List.length_cons, List.length_drop] at hlen
  refine ⟨?_, ?_, ?_⟩
  · rw [h'.headObjects, h'.committed, hk]
    exact fun s hs => hirr s (List.mem_of_mem_drop hs)
  · rw [h'.headObjects, h'.committed]
    omega
  · rw [h'.headObjects, hu.limit]
    omega

theorem HistoryReaches.withForkDb (hr : HistoryReaches opening top db) (f : ForkDatabase ω) :
    HistoryReaches opening top { db with forkDb := f } :=
  ⟨hr.irreversible, hr.count, hr.limit⟩

theorem HistoryReaches.pushBranch (h : Idle r cps db) (hr : HistoryReaches opening top db)
    {is : List (ForkItem ω)}
    (htop : ∀ s ∈ r.replayStates cps skip db.objects (is.map ForkItem.data),
      s.lastIrreversibleBlockNum ≤ top) :
    HistoryReaches opening top (Database.pushBranch r cps skip is db).1 := by
  induction is generalizing db with
  | nil => exact hr
  | cons i is ih =>
    rw [Database.pushBranch]
    rw [List.map_cons, Rules.replayStates] at htop
    rcases db.applyAndCommit_spec r cps skip i.data with ⟨hok, hb⟩ | ⟨hok, hb⟩ <;>
      generalize db.applyAndCommit r cps skip i.data = res at hok hb <;>
      obtain ⟨db1, ok⟩ := res <;> subst hok
    · simp only [hb.applied] at htop
      exact ih (h.pushed hb) (hr.pushed h hb (htop _ List.mem_cons_self))
        fun s hs => htop s (List.mem_cons_of_mem _ hs)
    · exact hr.refused h hb

theorem HistoryReaches.pushDirect (h : Idle r cps db) (hr : HistoryReaches opening top db)
    (htop : ∀ s ∈ r.replayStates cps skip db.objects [b], s.lastIrreversibleBlockNum ≤ top) :
    HistoryReaches opening top (db.pushDirect r cps skip b).1 := by
  unfold Database.pushDirect
  rcases db.applyAndCommit_spec r cps skip b with ⟨hok, hb⟩ | ⟨hok, hb⟩ <;>
    generalize db.applyAndCommit r cps skip b = res at hok hb <;> obtain ⟨db1, ok⟩ := res <;>
    subst hok
  · simp only [Rules.replayStates, hb.applied] at htop
    exact hr.pushed h hb (htop _ List.mem_cons_self)
  · exact (hr.refused h hb).withForkDb _

theorem HistoryReaches.switchForks {first second : List (ForkItem ω)} {last : ForkItem ω}
    {res : Database ω ρ × Option Bool} (h : Idle r cps db) (hr : HistoryReaches opening top db)
    (hlast : second.getLast? = some last)
    (hs : ForkSwitch r cps skip db first second last.data.previous res)
    (htop : ∀ s ∈ db.switchPassed r cps skip first second, s.lastIrreversibleBlockNum ≤ top) :
    HistoryReaches opening top res.1 := by
  unfold Database.switchPassed at htop
  rw [hlast] at htop
  cases hs with
  | stuck hpop =>
    obtain ⟨hu, -, -⟩ := Database.popUntil_spec h hpop
    exact hr.unwound h hu
  | switched hpop hpush =>
    obtain ⟨hu, -, -⟩ := Database.popUntil_spec h hpop
    simp only [hpop, hpush, List.append_nil] at htop
    have := (hr.unwound h hu).pushBranch (h.unwound hu) htop
    rwa [hpush] at this
  | stuckBack hpop hpush hback =>
    obtain ⟨hu, -, -⟩ := Database.popUntil_spec h hpop
    obtain ⟨h2, -⟩ := Database.pushBranch_spec (h.unwound hu) hpush
    obtain ⟨hu', -, -⟩ := Database.popUntil_spec (h2.withForkDb _) hback
    simp only [hpop, hpush, hback, List.append_nil] at htop
    have := (hr.unwound h hu).pushBranch (h.unwound hu) htop
    rw [hpush] at this
    exact (this.withForkDb _).unwound (h2.withForkDb _) hu'
  | back hpop hpush hback =>
    obtain ⟨hu, -, -⟩ := Database.popUntil_spec h hpop
    obtain ⟨h2, -⟩ := Database.pushBranch_spec (h.unwound hu) hpush
    obtain ⟨hu', -, -⟩ := Database.popUntil_spec (h2.withForkDb _) hback
    simp only [hpop, hpush, hback, List.mem_append] at htop
    have := (hr.unwound h hu).pushBranch (h.unwound hu) fun s hs => htop s (Or.inl hs)
    rw [hpush] at this
    exact ((this.withForkDb _).unwound (h2.withForkDb _) hu').pushBranch
      ((h2.withForkDb _).unwound hu') fun s hs => htop s (Or.inr hs)

theorem HistoryReaches.pushBlockBody {res : Database ω ρ × Option Bool} (h : Idle r cps db)
    (hr : HistoryReaches opening top db) (hb : BlockPush r cps skip db b res)
    (htop : ∀ s ∈ db.blockPassed r cps skip b, s.lastIrreversibleBlockNum ≤ top) :
    HistoryReaches opening top res.1 := by
  unfold Database.blockPassed at htop
  cases hb with
  | noForkDb hskip =>
    rw [if_pos hskip] at htop
    exact hr.pushDirect h htop
  | unlinked _ _ => exact hr
  | direct hskip hfork hhead hprev =>
    simp only [hskip, hfork, hhead, hprev, Bool.false_eq_true, ne_eq, not_true, if_false] at htop
    exact (hr.withForkDb _).pushDirect (h.withForkDb _) htop
  | kept _ _ _ _ _ => exact hr.withForkDb _
  | noBranches _ _ _ _ _ _ => exact hr.withForkDb _
  | fork hskip hfork hhead hprev hnum hfetch hlast hswitch =>
    simp only [hskip, hfork, hhead, hfetch, Bool.false_eq_true, if_false, ne_eq, hprev,
      not_false_eq_true,
      if_true, gt_iff_lt, hnum] at htop
    exact HistoryReaches.switchForks (h.withForkDb _) (hr.withForkDb _) hlast hswitch htop

theorem HistoryReaches.clearPending (h : Consistent r cps db)
    (hr : HistoryReaches opening top db) : HistoryReaches opening top db.clearPending := by
  obtain ⟨hidle, hobj, hsaved, hlimit, -⟩ := h.clearPending
  obtain ⟨hirr, hcount, hl⟩ := hr
  refine ⟨?_, ?_, ?_⟩
  · rw [hidle.headObjects, hidle.committed, hobj, hsaved]
    exact hirr
  · rw [hidle.headObjects, hidle.committed, hobj, hsaved]
    exact hcount
  · rw [hidle.headObjects, hobj, hlimit]
    exact hl

theorem HistoryReaches.pending (hr : HistoryReaches opening top db) (hk : PendingKept db db') :
    HistoryReaches opening top db' := by
  obtain ⟨n, hn, hcommitted⟩ := hk.committed
  obtain ⟨hirr, hcount, hl⟩ := hr
  have hlimit := hk.limit
  refine ⟨?_, ?_, ?_⟩
  · rw [hk.headObjects, hcommitted]
    intro s hs
    rcases List.mem_cons.mp hs with rfl | hs
    · exact hirr _ List.mem_cons_self
    · exact hirr s (List.mem_cons_of_mem _ (List.mem_of_mem_take hs))
  · rw [hk.headObjects, hcommitted, List.length_take]
    omega
  · rw [hk.headObjects]
    omega

theorem HistoryReaches.call (h : Regular r cps db) (hr : HistoryReaches opening top db)
    (c : Call ω) (htop : ∀ s ∈ db.passed r cps c, s.lastIrreversibleBlockNum ≤ top) :
    HistoryReaches opening top (db.call r cps c) := by
  cases c with
  | pushTransaction t skip =>
    obtain ⟨hs, -⟩ := Database.pushTransaction_spec h.toConsistent skip t
    exact hr.pending hs.pendingKept
  | pushBlock b skip =>
    obtain ⟨hidle, -, -, -, hfork, -, -⟩ := h.toConsistent.clearPending
    obtain ⟨heap, hheap⟩ := h.heap
    have hcases := Database.pushBlockBody_cases (hfork ▸ hheap) cps skip b
    obtain ⟨hmid, -⟩ := Database.pushBlockBody_idle hidle (hfork ▸ hheap) skip b
    obtain ⟨-, hkept, -⟩ := Database.restorePending_kept hmid skip db.pendingTx
    exact ((hr.clearPending h.toConsistent).pushBlockBody hidle hcases htop).pending hkept

end Steps

/-! ### Whole runs -/

theorem Run.reaches {opening : Nat} {states : List (Objects ρ)} {db : Database ω ρ}
    (h : Run r cps opening states db) :
    HistoryReaches opening (highestIrreversible states) db := by
  induction h with
  | @opened db h =>
    have hidle : Idle r cps db := h.idle
    refine ⟨?_, ?_, ?_⟩
    · rw [hidle.headObjects, hidle.committed, h.saved]
      exact fun s hs => le_highestIrreversible hs
    · rw [hidle.headObjects]
      show min (db.objects.headBlockNumber - db.objects.headBlockNumber) _ ≤ _
      omega
    · rw [hidle.headObjects, h.limit]
      show min (db.objects.headBlockNumber - db.objects.headBlockNumber) _ < 10
      omega
  | @call opening states db h c ih =>
    refine (ih.mono (highestIrreversible_append _ states)).call h.reachable.regular c ?_
    exact fun s hs => le_highestIrreversible (List.mem_append_left _ hs)

/-- After every call of a run, the committed undo states are at least as many as the blocks applied
since the database was opened, or as many as the blocks above the highest block that was
irreversible since then; and the `k`-th of them is the state `k` blocks below the head block. -/
theorem undo_history_reaches_irreversible {opening : Nat} {states : List (Objects ρ)}
    {db : Database ω ρ} (h : Run r cps opening states db) :
    min (db.headObjects.headBlockNumber - opening)
        (db.headObjects.headBlockNumber - highestIrreversible states) ≤ db.committed.length ∧
      ∀ k s, (db.headObjects :: db.committed)[k]? = some s →
        s.headBlockNumber + k = db.headObjects.headBlockNumber :=
  ⟨h.reaches.count, fun _ _ hs => h.reachable.regular.spine.headBlockNumber hs⟩

/-- The objects that a run of calls passes through, and those before. -/
def Database.passedBy (r : Rules ω ρ) (cps : Checkpoints) :
    Database ω ρ → List (Objects ρ) → List (Call ω) → List (Objects ρ)
  | _, states, [] => states
  | db, states, c :: cs =>
    Database.passedBy r cps (db.call r cps c) (db.passed r cps c ++ states) cs

theorem Run.calls {opening : Nat} {states : List (Objects ρ)} {db : Database ω ρ}
    (h : Run r cps opening states db) (cs : List (Call ω)) :
    Run r cps opening (db.passedBy r cps states cs) (db.calls r cps cs) := by
  induction cs generalizing states db with
  | nil => exact h
  | cons c cs ih => exact ih (h.call c)

/-- Four blocks, made by two witnesses in turn. -/
def fourBlocks : List (Call Nat) :=
  (counterChain .zero [(1, 0), (2, 1), (3, 0), (4, 1)]).map (.pushBlock · .nothing)

/-- The fourth block makes the third irreversible, and the state of the third is there. -/
theorem undo_history_reaches_irreversible_first :
    ((counterDatabase 1).calls counterRules [] fourBlocks).headObjects.headBlockNumber = 4 ∧
    ((counterDatabase 1).calls counterRules [] fourBlocks).headObjects.lastIrreversibleBlockNum =
      3 ∧
    1 ≤ ((counterDatabase 1).calls counterRules [] fourBlocks).committed.length ∧
    ∀ s, ((counterDatabase 1).calls counterRules [] fourBlocks).committed[0]? = some s →
      s.headBlockNumber = 3 := by
  have hhead : ((counterDatabase 1).calls counterRules [] fourBlocks).headObjects.headBlockNumber =
      4 := by decide +kernel
  have hopened : Run counterRules [] 0 [counterGenesis 1] (counterDatabase 1) :=
    .opened (counterDatabase_opened 1)
  obtain ⟨hcount, hspine⟩ := undo_history_reaches_irreversible (hopened.calls fourBlocks)
  refine ⟨hhead, by decide +kernel, Nat.le_trans ?_ hcount, fun s hs => ?_⟩
  · decide +kernel
  · have hnumber := hspine 1 s (List.getElem?_cons_succ.trans hs)
    omega

/-- Six blocks, of which the fourth makes the third irreversible, and a longer branch from the third
block whose blocks are all of one witness. -/
def deepFork : List (SignedBlock Nat) :=
  counterChain .zero [(1, 0), (2, 0), (3, 0), (4, 1), (5, 1), (6, 1)] ++
    (counterChain .zero [(1, 0), (2, 0), (3, 0), (14, 0), (15, 0), (16, 0), (17, 0)]).drop 3

/-- After the switch the last irreversible block is genesis again, and the states of genesis and the
first block are gone. -/
theorem undo_history_misses_irreversible :
    ∃ states db, Run counterRules [] 0 states db ∧
      db.committed.length < min (db.headObjects.headBlockNumber - 0)
        (db.headObjects.headBlockNumber - db.headObjects.lastIrreversibleBlockNum) := by
  have hopened : Run counterRules [] 0 _ (counterDatabase 1) := .opened (counterDatabase_opened 1)
  refine ⟨_, _, hopened.calls (deepFork.map (.pushBlock · .nothing)), ?_⟩
  decide +kernel

end Nestchain.Chain
