import Nestchain.Chain.BlockDatabase
import Nestchain.Chain.History
import Nestchain.Chain.Unwind

/-! The block store and the chain.  Each applied block is stored under its number, and a pop leaves
the store alone, so below the head block the store always holds the chain.  Above the head block it
holds nothing as long as no fork switch fails after it stored blocks there. -/

namespace Nestchain.Chain

variable {ω ρ : Type} {r : Rules ω ρ} {cps : Checkpoints} {skip : SkipFlags}

/-! ### What a call stores -/

/-- The blocks of a replay up to the one that throws. -/
def Rules.replayed (r : Rules ω ρ) (cps : Checkpoints) (skip : SkipFlags) :
    Objects ρ → List (SignedBlock ω) → List (SignedBlock ω)
  | _, [] => []
  | s, b :: bs =>
    match (r.applyBlock cps skip s b).result with
    | some s' => b :: r.replayed cps skip s' bs
    | none => []

/-- The blocks that `switchForks` stores. -/
def Database.switchStored (r : Rules ω ρ) (cps : Checkpoints) (skip : SkipFlags)
    (db : Database ω ρ) (first second : List (ForkItem ω)) : List (SignedBlock ω) :=
  match second.getLast? with
  | none => []
  | some fork =>
    match db.popUntil (first ++ second) fork.data.previous (db.undoDb.saved.length + 1) with
    | (_, false) => []
    | (db, true) =>
      r.replayed cps skip db.objects (first.reverse.map ForkItem.data) ++
        match pushBranch r cps skip first.reverse db with
        | (_, []) => []
        | (db, bad) =>
          match popUntil (first ++ second) fork.data.previous (db.undoDb.saved.length + 1)
            { db with forkDb := (db.forkDb.removeAll bad).setHead second.head? } with
          | (_, false) => []
          | (db, true) => r.replayed cps skip db.objects (second.reverse.map ForkItem.data)

/-- The blocks that `_push_block` stores. -/
def Database.blockStored (r : Rules ω ρ) (cps : Checkpoints) (skip : SkipFlags)
    (db : Database ω ρ) (b : SignedBlock ω) : List (SignedBlock ω) :=
  if skip.forkDb then r.replayed cps skip db.objects [b]
  else
    match db.forkDb.pushBlock r b with
    | none => []
    | some f =>
      match f.head with
      | none => []
      | some newHead =>
        if newHead.data.previous ≠ db.headBlockId then
          if newHead.data.blockNum > db.headBlockNum then
            match f.fetchBranchFrom newHead.id db.headBlockId with
            | none => []
            | some (first, second) =>
              ({ db with forkDb := f } : Database ω ρ).switchStored r cps skip first second
          else []
        else r.replayed cps skip db.objects [b]

/-- The calls of `store` in `push_block`. -/
def Database.stored (r : Rules ω ρ) (cps : Checkpoints) (skip : SkipFlags) (db : Database ω ρ)
    (b : SignedBlock ω) : List (SignedBlock ω) :=
  db.clearPending.blockStored r cps skip b

/-- Put blocks under their numbers, one after the other. -/
def Rules.putBlocks (r : Rules ω ρ) (slots : Nat → Option (BlockId × SignedBlock ω))
    (bs : List (SignedBlock ω)) : Nat → Option (BlockId × SignedBlock ω) :=
  bs.foldl (fun m b => Function.update m b.blockNum (some (r.blockId b.toBlockHeader, b))) slots

theorem Rules.putBlocks_append (r : Rules ω ρ) (slots : Nat → Option (BlockId × SignedBlock ω))
    (bs bs' : List (SignedBlock ω)) :
    r.putBlocks slots (bs ++ bs') = r.putBlocks (r.putBlocks slots bs) bs' :=
  List.foldl_append

section Stores

variable {db : Database ω ρ} {b : SignedBlock ω}

theorem Database.pushBranch_blocks (r : Rules ω ρ) (cps : Checkpoints) (skip : SkipFlags)
    (is : List (ForkItem ω)) (db : Database ω ρ) :
    (pushBranch r cps skip is db).1.blockIdToBlock =
      r.putBlocks db.blockIdToBlock (r.replayed cps skip db.objects (is.map ForkItem.data)) := by
  induction is generalizing db with
  | nil => rfl
  | cons i is ih =>
    rw [pushBranch, List.map_cons, Rules.replayed]
    rcases db.applyAndCommit_spec r cps skip i.data with ⟨hok, hb⟩ | ⟨hok, hb⟩
    · generalize db.applyAndCommit r cps skip i.data = res at hok hb
      obtain ⟨db1, ok⟩ := res
      subst hok
      simp only [hb.applied]
      rw [ih, hb.blocks]
      rfl
    · generalize db.applyAndCommit r cps skip i.data = res at hok hb
      obtain ⟨db1, ok⟩ := res
      subst hok
      simp only [hb.thrown]
      exact hb.blocks

theorem Database.pushDirect_blocks (r : Rules ω ρ) (cps : Checkpoints) (skip : SkipFlags)
    (db : Database ω ρ) (b : SignedBlock ω) :
    (db.pushDirect r cps skip b).1.blockIdToBlock =
      r.putBlocks db.blockIdToBlock (r.replayed cps skip db.objects [b]) := by
  unfold Database.pushDirect
  rw [Rules.replayed]
  rcases db.applyAndCommit_spec r cps skip b with ⟨hok, hb⟩ | ⟨hok, hb⟩
  · generalize db.applyAndCommit r cps skip b = res at hok hb
    obtain ⟨db1, ok⟩ := res
    subst hok
    simp only [hb.applied]
    exact hb.blocks
  · generalize db.applyAndCommit r cps skip b = res at hok hb
    obtain ⟨db1, ok⟩ := res
    subst hok
    simp only [hb.thrown]
    exact hb.blocks

theorem ForkSwitch.blocks {first second : List (ForkItem ω)} {last : ForkItem ω}
    {res : Database ω ρ × Option Bool} (h : Idle r cps db) (hlast : second.getLast? = some last)
    (hs : ForkSwitch r cps skip db first second last.data.previous res) :
    res.1.blockIdToBlock =
      r.putBlocks db.blockIdToBlock (db.switchStored r cps skip first second) := by
  unfold Database.switchStored
  rw [hlast]
  cases hs with
  | stuck hpop =>
    obtain ⟨hu, -, -⟩ := Database.popUntil_spec h hpop
    simp only [hpop]
    exact hu.blocks
  | @switched db1 db2 hpop hpush =>
    obtain ⟨hu, -, -⟩ := Database.popUntil_spec h hpop
    have hblocks := Database.pushBranch_blocks r cps skip first.reverse db1
    simp only [hpop, hpush, List.append_nil] at hblocks ⊢
    rw [hblocks, hu.blocks]
  | @stuckBack db1 db2 db3 i bad hpop hpush hback =>
    obtain ⟨hu, -, -⟩ := Database.popUntil_spec h hpop
    obtain ⟨h2, -⟩ := Database.pushBranch_spec (h.unwound hu) hpush
    obtain ⟨hu', -, -⟩ := Database.popUntil_spec (h2.withForkDb _) hback
    have hblocks := Database.pushBranch_blocks r cps skip first.reverse db1
    simp only [hpop, hpush, hback, List.append_nil] at hblocks ⊢
    rw [hu'.blocks, hblocks, hu.blocks]
  | @back db1 db2 db3 i bad hpop hpush hback =>
    obtain ⟨hu, -, -⟩ := Database.popUntil_spec h hpop
    obtain ⟨h2, -⟩ := Database.pushBranch_spec (h.unwound hu) hpush
    obtain ⟨hu', -, -⟩ := Database.popUntil_spec (h2.withForkDb _) hback
    have hblocks := Database.pushBranch_blocks r cps skip first.reverse db1
    have hblocks' := Database.pushBranch_blocks r cps skip second.reverse db3
    simp only [hpop, hpush, hback] at hblocks ⊢
    rw [Rules.putBlocks_append, hblocks', hu'.blocks, hblocks, hu.blocks]

theorem BlockPush.blocks {res : Database ω ρ × Option Bool} (h : Idle r cps db)
    (hb : BlockPush r cps skip db b res) :
    res.1.blockIdToBlock =
      r.putBlocks db.blockIdToBlock (db.blockStored r cps skip b) := by
  unfold Database.blockStored
  cases hb with
  | noForkDb hskip =>
    rw [if_pos hskip]
    exact Database.pushDirect_blocks ..
  | unlinked hskip hfork =>
    simp only [hskip, hfork, Bool.false_eq_true, if_false]
    rfl
  | direct hskip hfork hhead hprev =>
    simp only [hskip, hfork, hhead, hprev, Bool.false_eq_true, ne_eq, not_true, if_false]
    exact Database.pushDirect_blocks ..
  | kept hskip hfork hhead hprev hnum =>
    simp only [hskip, hfork, hhead, hprev, Bool.false_eq_true, if_false, ne_eq, not_false_eq_true,
      if_true, gt_iff_lt, if_neg (Nat.not_lt.mpr hnum)]
    rfl
  | noBranches hskip hfork hhead hprev hnum hfetch =>
    simp only [hskip, hfork, hhead, hprev, hnum, hfetch, Bool.false_eq_true, if_false, ne_eq,
      not_false_eq_true, if_true]
    rfl
  | fork hskip hfork hhead hprev hnum hfetch hlast hswitch =>
    simp only [hskip, hfork, hhead, hprev, hnum, hfetch, Bool.false_eq_true, if_false, ne_eq,
      not_false_eq_true, if_true]
    exact ForkSwitch.blocks (h.withForkDb _) hlast hswitch

theorem Database.pushBlock_blocks (h : Regular r cps db) (skip : SkipFlags) (b : SignedBlock ω) :
    (db.pushBlock r cps skip b).1.blockIdToBlock =
      r.putBlocks db.blockIdToBlock (db.stored r cps skip b) := by
  obtain ⟨hidle, -, -, -, hfork, hblocks, -⟩ := h.toConsistent.clearPending
  obtain ⟨heap, hheap⟩ := h.heap
  have hcases := Database.pushBlockBody_cases (hfork ▸ hheap) cps skip b
  obtain ⟨hmid, -⟩ := Database.pushBlockBody_idle hidle (hfork ▸ hheap) skip b
  obtain ⟨-, hkept, -⟩ := Database.restorePending_kept hmid skip db.pendingTx
  have hbody := hcases.blocks hidle
  rw [hblocks] at hbody
  exact hkept.blocks.trans hbody

end Stores

/-! ### The chain -/

/-- The chain of the blocks applied since the objects were `s0` and the chain was `base`, the newest
block first, and the objects after them. -/
inductive Grown (r : Rules ω ρ) (cps : Checkpoints) (base : List (SignedBlock ω)) (s0 : Objects ρ) :
    List (SignedBlock ω) → Objects ρ → Prop
  | base : Grown r cps base s0 base s0
  | block {chain : List (SignedBlock ω)} {s s' : Objects ρ} {skip : SkipFlags} {b : SignedBlock ω}
      (h : Grown r cps base s0 chain s) (hb : (r.applyBlock cps skip s b).result = some s') :
      Grown r cps base s0 (b :: chain) s'

/-- The blocks from `id` down to genesis, each with the id that the one above names. -/
def Descends (r : Rules ω ρ) : BlockId → List (SignedBlock ω) → Prop
  | id, [] => id = .zero
  | id, b :: bs => id = r.blockId b.toBlockHeader ∧ Descends r b.previous bs

section Stocked

variable {base chain : List (SignedBlock ω)} {s s0 : Objects ρ} {states : List (Objects ρ)}
  {slots : Nat → Option (BlockId × SignedBlock ω)} {db db' : Database ω ρ} {b : SignedBlock ω}

theorem Descends.length {id : BlockId} (h : Descends r id chain) : id.num = chain.length := by
  induction chain generalizing id with
  | nil =>
    obtain rfl : id = .zero := h
    rfl
  | cons b chain ih =>
    obtain ⟨rfl, hrest⟩ := h
    show b.previous.num + 1 = chain.length + 1
    rw [ih hrest]

theorem Grown.descends (hbase : Descends r s0.headBlockId base) (h : Grown r cps base s0 chain s) :
    Descends r s.headBlockId chain := by
  induction h with
  | base => exact hbase
  | block h hb ih =>
    have happ := Rules.applyBlock_applied hb
    exact ⟨happ.headBlockId, happ.previous ▸ ih⟩

/-- The objects are those after the chain, the saved states those after the chain without its last
blocks, and the store holds the chain. -/
structure Stocked (r : Rules ω ρ) (cps : Checkpoints) (base : List (SignedBlock ω))
    (s0 : Objects ρ) (chain : List (SignedBlock ω)) (states : List (Objects ρ))
    (slots : Nat → Option (BlockId × SignedBlock ω)) : Prop where
  grown : ∀ (k : Nat) s, states[k]? = some s → Grown r cps base s0 (chain.drop k) s
  blocks : ∀ (k : Nat) b, chain.reverse[k]? = some b →
    slots (k + 1) = some (r.blockId b.toBlockHeader, b)

theorem Stocked.take (h : Stocked r cps base s0 chain states slots) (n : Nat) :
    Stocked r cps base s0 chain (states.take n) slots := by
  refine ⟨fun k s hs => h.grown k s ?_, h.blocks⟩
  rw [List.getElem?_take] at hs
  split at hs
  · exact hs
  · cases hs

theorem Stocked.drop (h : Stocked r cps base s0 chain states slots) (n : Nat) :
    Stocked r cps base s0 (chain.drop n) (states.drop n) slots := by
  refine ⟨fun k s hs => ?_, fun k b hb => ?_⟩
  · rw [List.getElem?_drop] at hs
    rw [List.drop_drop]
    exact h.grown _ s hs
  · rw [List.reverse_drop, List.getElem?_take] at hb
    split at hb
    · exact h.blocks k b hb
    · cases hb

theorem Stocked.push (hbase : Descends r s0.headBlockId base)
    (h : Stocked r cps base s0 chain (s :: states) slots) {s' : Objects ρ}
    (hb : (r.applyBlock cps skip s b).result = some s') :
    Stocked r cps base s0 (b :: chain) (s' :: s :: states)
      (Function.update slots b.blockNum (some (r.blockId b.toBlockHeader, b))) := by
  have hgrown := h.grown 0 s rfl
  have hnum : b.blockNum = chain.length + 1 := by
    show b.previous.num + 1 = _
    rw [← (Rules.applyBlock_applied hb).previous, (hgrown.descends hbase).length]
    rfl
  refine ⟨fun k t ht => ?_, fun k b' hb' => ?_⟩
  · cases k with
    | zero =>
      obtain rfl : s' = t := by simpa using ht
      exact .block hgrown hb
    | succ k => exact h.grown k t (by simpa using ht)
  · rw [List.reverse_cons] at hb'
    by_cases hk : k < chain.length
    · rw [List.getElem?_append_left (by simpa using hk)] at hb'
      rw [Function.update_of_ne (by omega)]
      exact h.blocks k b' hb'
    · rw [List.getElem?_append_right (by simpa using hk)] at hb'
      have hzero : k - chain.reverse.length = 0 := by
        by_contra hne
        rw [List.getElem?_eq_none (by simp only [List.length_singleton]; omega)] at hb'
        cases hb'
      rw [hzero] at hb'
      obtain rfl : b = b' := by simpa using hb'
      have hkn : k + 1 = b.blockNum := by
        rw [List.length_reverse] at hzero
        omega
      rw [hkn, Function.update_self]

def Database.HasChain (r : Rules ω ρ) (cps : Checkpoints) (base : List (SignedBlock ω))
    (s0 : Objects ρ) (db : Database ω ρ) (chain : List (SignedBlock ω)) : Prop :=
  Stocked r cps base s0 chain (db.objects :: db.undoDb.saved) db.blockIdToBlock

theorem BlockPushed.hasChain (hbase : Descends r s0.headBlockId base)
    (h : db.HasChain r cps base s0 chain) (hb : BlockPushed r cps skip db b db') :
    db'.HasChain r cps base s0 (b :: chain) := by
  unfold Database.HasChain
  rw [hb.saved, hb.blocks]
  have htake := h.take (db.undoDb.limit + 1)
  rw [List.take_succ_cons] at htake
  exact htake.push hbase hb.applied

theorem BlockRefused.hasChain (h : db.HasChain r cps base s0 chain)
    (hb : BlockRefused r cps skip db b db') : db'.HasChain r cps base s0 chain := by
  unfold Database.HasChain
  rw [hb.saved, hb.blocks, hb.objects]
  have htake := h.take (db.undoDb.limit + 1)
  rwa [List.take_succ_cons] at htake

theorem Unwound.hasChain (h : db.HasChain r cps base s0 chain) (hu : Unwound db db') :
    ∃ k, db'.HasChain r cps base s0 (chain.drop k) := by
  obtain ⟨k, hk⟩ := hu.states
  refine ⟨k, ?_⟩
  unfold Database.HasChain
  rw [hk, hu.blocks]
  exact h.drop k

theorem Database.HasChain.withForkDb (h : db.HasChain r cps base s0 chain) (f : ForkDatabase ω) :
    ({ db with forkDb := f } : Database ω ρ).HasChain r cps base s0 chain :=
  h

theorem Database.HasChain.pushBranch (hbase : Descends r s0.headBlockId base)
    (h : db.HasChain r cps base s0 chain) (skip : SkipFlags) (is : List (ForkItem ω)) :
    ∃ chain', (Database.pushBranch r cps skip is db).1.HasChain r cps base s0 chain' := by
  induction is generalizing db chain with
  | nil => exact ⟨chain, h⟩
  | cons i is ih =>
    rw [Database.pushBranch]
    rcases db.applyAndCommit_spec r cps skip i.data with ⟨hok, hb⟩ | ⟨hok, hb⟩
    · generalize db.applyAndCommit r cps skip i.data = res at hok hb
      obtain ⟨db1, ok⟩ := res
      subst hok
      exact ih (hb.hasChain hbase h)
    · generalize db.applyAndCommit r cps skip i.data = res at hok hb
      obtain ⟨db1, ok⟩ := res
      subst hok
      exact ⟨chain, hb.hasChain h⟩

theorem Database.HasChain.pushDirect (hbase : Descends r s0.headBlockId base)
    (h : db.HasChain r cps base s0 chain) (b : SignedBlock ω) :
    ∃ chain', (db.pushDirect r cps skip b).1.HasChain r cps base s0 chain' := by
  unfold Database.pushDirect
  rcases db.applyAndCommit_spec r cps skip b with ⟨hok, hb⟩ | ⟨hok, hb⟩
  · generalize db.applyAndCommit r cps skip b = res at hok hb
    obtain ⟨db1, ok⟩ := res
    subst hok
    exact ⟨_, hb.hasChain hbase h⟩
  · generalize db.applyAndCommit r cps skip b = res at hok hb
    obtain ⟨db1, ok⟩ := res
    subst hok
    exact ⟨chain, (hb.hasChain h).withForkDb _⟩

theorem ForkSwitch.hasChain (hbase : Descends r s0.headBlockId base)
    {first second : List (ForkItem ω)}
    {fork : BlockId} {res : Database ω ρ × Option Bool} (hidle : Idle r cps db)
    (h : db.HasChain r cps base s0 chain) (hs : ForkSwitch r cps skip db first second fork res) :
    ∃ chain', res.1.HasChain r cps base s0 chain' := by
  cases hs with
  | stuck hpop =>
    obtain ⟨hu, -, -⟩ := Database.popUntil_spec hidle hpop
    obtain ⟨k, hk⟩ := hu.hasChain h
    exact ⟨_, hk⟩
  | switched hpop hpush =>
    obtain ⟨hu, -, -⟩ := Database.popUntil_spec hidle hpop
    obtain ⟨k, hk⟩ := hu.hasChain h
    obtain ⟨chain', hchain'⟩ := hk.pushBranch hbase skip first.reverse
    rw [hpush] at hchain'
    exact ⟨chain', hchain'⟩
  | @stuckBack _ db2 _ i bad hpop hpush hback =>
    obtain ⟨hu, -, -⟩ := Database.popUntil_spec hidle hpop
    obtain ⟨h2, -⟩ := Database.pushBranch_spec (hidle.unwound hu) hpush
    obtain ⟨hu', -, -⟩ := Database.popUntil_spec (h2.withForkDb _) hback
    obtain ⟨k, hk⟩ := hu.hasChain h
    obtain ⟨chain2, hchain2⟩ := hk.pushBranch hbase skip first.reverse
    rw [hpush] at hchain2
    obtain ⟨k', hk'⟩ := hu'.hasChain (Database.HasChain.withForkDb hchain2 _)
    exact ⟨_, hk'⟩
  | @back _ db2 _ i bad hpop hpush hback =>
    obtain ⟨hu, -, -⟩ := Database.popUntil_spec hidle hpop
    obtain ⟨h2, -⟩ := Database.pushBranch_spec (hidle.unwound hu) hpush
    obtain ⟨hu', -, -⟩ := Database.popUntil_spec (h2.withForkDb _) hback
    obtain ⟨k, hk⟩ := hu.hasChain h
    obtain ⟨chain2, hchain2⟩ := hk.pushBranch hbase skip first.reverse
    rw [hpush] at hchain2
    obtain ⟨k', hk'⟩ := hu'.hasChain (Database.HasChain.withForkDb hchain2 _)
    exact hk'.pushBranch hbase skip second.reverse

theorem BlockPush.hasChain (hbase : Descends r s0.headBlockId base)
    {res : Database ω ρ × Option Bool} (hidle : Idle r cps db)
    (h : db.HasChain r cps base s0 chain) (hb : BlockPush r cps skip db b res) :
    ∃ chain', res.1.HasChain r cps base s0 chain' := by
  cases hb with
  | noForkDb _ => exact h.pushDirect hbase b
  | unlinked _ _ => exact ⟨chain, h⟩
  | direct _ _ _ _ => exact (h.withForkDb _).pushDirect hbase b
  | kept _ _ _ _ _ => exact ⟨chain, h⟩
  | noBranches _ _ _ _ _ _ => exact ⟨chain, h⟩
  | fork _ _ _ _ _ _ _ hswitch => exact hswitch.hasChain hbase (hidle.withForkDb _) (h.withForkDb _)

def Database.HeadChain (r : Rules ω ρ) (cps : Checkpoints) (base : List (SignedBlock ω))
    (s0 : Objects ρ) (db : Database ω ρ) (chain : List (SignedBlock ω)) : Prop :=
  Stocked r cps base s0 chain (db.headObjects :: db.committed) db.blockIdToBlock

theorem Database.HeadChain.clearPending (hc : Consistent r cps db)
    (h : db.HeadChain r cps base s0 chain) : db.clearPending.HasChain r cps base s0 chain := by
  obtain ⟨-, hobj, hsaved, -, -, hblocks, -⟩ := hc.clearPending
  unfold Database.HasChain
  rw [hobj, hsaved, hblocks]
  exact h

theorem PendingKept.headChain (h : db.HeadChain r cps base s0 chain) (hk : PendingKept db db') :
    db'.HeadChain r cps base s0 chain := by
  obtain ⟨n, -, hn⟩ := hk.committed
  unfold Database.HeadChain
  rw [hk.headObjects, hn, hk.blocks]
  have htake := h.take (n + 1)
  rwa [List.take_succ_cons] at htake

theorem Idle.headChain (hidle : Idle r cps db) (h : db.HasChain r cps base s0 chain) :
    db.HeadChain r cps base s0 chain := by
  unfold Database.HeadChain
  rw [hidle.headObjects, hidle.committed]
  exact h

theorem Database.HeadChain.pushBlock (hbase : Descends r s0.headBlockId base)
    (hreg : Regular r cps db) (h : db.HeadChain r cps base s0 chain) (skip : SkipFlags)
    (b : SignedBlock ω) :
    ∃ chain', (db.pushBlock r cps skip b).1.HeadChain r cps base s0 chain' := by
  obtain ⟨hidle, -, -, -, hfork, -, -⟩ := hreg.toConsistent.clearPending
  obtain ⟨heap, hheap⟩ := hreg.heap
  have hcases := Database.pushBlockBody_cases (hfork ▸ hheap) cps skip b
  obtain ⟨hmid, -⟩ := Database.pushBlockBody_idle hidle (hfork ▸ hheap) skip b
  obtain ⟨-, hkept, -⟩ := Database.restorePending_kept hmid skip db.pendingTx
  obtain ⟨chain', hchain'⟩ := hcases.hasChain hbase hidle (h.clearPending hreg.toConsistent)
  exact ⟨chain', hkept.headChain (hmid.headChain hchain')⟩

end Stocked

end Nestchain.Chain
