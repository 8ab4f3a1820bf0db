import Nestchain.Chain.Reachable

/-! A fork switch.  The pops go back to a saved state, that of the common ancestor, and the pushes
replay the new branch from there. -/

namespace Nestchain.Chain

variable {ω ρ : Type} {r : Rules ω ρ} {cps : Checkpoints} {skip : SkipFlags}

/-- The items `l`, tip first, lead from the block `tip` down to a block after `ancestor`. -/
structure LeadsTo (r : Rules ω ρ) (tip ancestor : BlockId) (l : List (ForkItem ω)) : Prop where
  linked : Branch l
  tip : l.head?.map ForkItem.id = some tip
  last : l.getLast?.map (fun i => i.data.previous) = some ancestor
  ids : ∀ i ∈ l, i.id = r.blockId i.data.toBlockHeader

theorem Rules.replay_append {s s' : Objects ρ} {bs bs' : List (SignedBlock ω)} :
    r.replay cps skip s (bs ++ bs') = some s' ↔
      ∃ s1, r.replay cps skip s bs = some s1 ∧ r.replay cps skip s1 bs' = some s' := by
  induction bs generalizing s with
  | nil => simp [Rules.replay]
  | cons b bs ih =>
    simp only [List.cons_append, Rules.replay, Option.bind_eq_some_iff, ih]
    constructor
    · rintro ⟨s2, h2, s1, h1, h⟩
      exact ⟨s1, ⟨s2, h2, h1⟩, h⟩
    · rintro ⟨s1, ⟨s2, h2, h1⟩, h⟩
      exact ⟨s2, h2, s1, h1, h⟩

theorem LeadsTo.replay_head {tip ancestor : BlockId} {l : List (ForkItem ω)} {s s' : Objects ρ}
    (h : LeadsTo r tip ancestor l)
    (hr : r.replay cps skip s (l.reverse.map ForkItem.data) = some s') : s'.headBlockId = tip := by
  have htip := h.tip
  cases l with
  | nil => cases htip
  | cons i l =>
    rw [List.reverse_cons, List.map_append, Rules.replay_append] at hr
    obtain ⟨s1, -, hr⟩ := hr
    simp only [List.map_cons, List.map_nil, Rules.replay, Option.bind_eq_some_iff,
      Option.some.injEq, exists_eq_right] at hr
    rw [(Rules.applyBlock_applied hr).headBlockId, ← h.ids i List.mem_cons_self]
    exact Option.some.inj htip

theorem fetchBranchFrom_leadsTo {f : ForkDatabase ω} {heap : List (ForkItem ω)}
    (h : ForkHeap r heap f) {a b : BlockId} {first second : List (ForkItem ω)}
    (hf : f.fetchBranchFrom a b = some (first, second)) :
    ∃ ancestor, LeadsTo r a ancestor first ∧ LeadsTo r b ancestor second := by
  obtain ⟨x, y, x', y', m, m', hx, hy, hw, hw', rfl, rfl, hprev, -⟩ :=
    fetchBranchFrom_branches h hf
  obtain ⟨hxi, rfl⟩ := ForkHeap.fetchBlock_mem hx
  obtain ⟨hyi, rfl⟩ := ForkHeap.fetchBlock_mem hy
  obtain ⟨hb, hmem, hhead⟩ := hw.branch h (h.index x hxi)
  obtain ⟨hb', hmem', hhead'⟩ := hw'.branch h (h.index y hyi)
  refine ⟨x'.data.previous, ⟨hb, by rw [hhead]; rfl, by simp, ?_⟩,
    ⟨hb', by rw [hhead']; rfl, by simp [hprev], ?_⟩⟩
  · exact fun i hi => (h.item i (hmem i hi)).2
  · exact fun i hi => (h.item i (hmem' i hi)).2

theorem ForkSwitch.replay {db mid : Database ω ρ} {first second : List (ForkItem ω)}
    {fork : BlockId} (h : Idle r cps db)
    (hs : ForkSwitch r cps skip db first second fork (mid, some true)) :
    ∃ s ∈ db.objects :: db.undoDb.saved, s.headBlockId = fork ∧
      r.replay cps skip s (first.reverse.map ForkItem.data) = some mid.objects := by
  cases hs with
  | switched hpop hpush =>
    rename_i db1
    obtain ⟨hu, htarget, -⟩ := Database.popUntil_spec h hpop
    obtain ⟨-, -, done, hdone, hreplay, -⟩ := Database.pushBranch_spec (h.unwound hu) hpush
    rw [List.append_nil] at hdone
    obtain ⟨k, hk⟩ := hu.states
    have hmem : db1.objects ∈ (db.objects :: db.undoDb.saved).drop k := hk ▸ List.mem_cons_self
    exact ⟨db1.objects, List.mem_of_mem_drop hmem, htarget rfl, by rw [hdone]; exact hreplay⟩

theorem Database.pushDirect_not_switched (db : Database ω ρ) (b : SignedBlock ω) :
    (db.pushDirect r cps skip b).2 ≠ some true := by
  unfold Database.pushDirect
  generalize db.applyAndCommit r cps skip b = res
  obtain ⟨db', ok⟩ := res
  cases ok <;> simp

/-- When `_push_block` switches forks in a reachable database, the objects become those that
replaying the new branch gives, from the state of the common ancestor up to the new head.  And for
two blocks of the fork index whose ancestries inside it meet, before or after a block was pushed
into it, `fetch_branch_from` returns linked branches, tip first, whose last blocks have the same
previous block and are different when neither block is an ancestor of the other. -/
theorem fork_switch_is_replay {db : Database ω ρ} (h : Reachable r cps db) :
    (∀ skip b mid, db.clearPending.pushBlockBody r cps skip b = (mid, some true) →
      ∃ f newHead first second, db.forkDb.pushBlock r b = some f ∧ f.head = some newHead ∧
        f.fetchBranchFrom newHead.id db.headObjects.headBlockId = some (first, second) ∧
        ∃ s ∈ db.headObjects :: db.committed,
          LeadsTo r newHead.id s.headBlockId first ∧
          LeadsTo r db.headObjects.headBlockId s.headBlockId second ∧
          r.replay cps skip s (first.reverse.map ForkItem.data) = some mid.objects ∧
          mid.headBlockId = newHead.id) ∧
    (∀ f, f = db.forkDb ∨ (∃ b, db.forkDb.pushBlock r b = some f) →
      ∀ a ∈ f.index, ∀ b ∈ f.index, ∀ p q, Ancestor f a p → Ancestor f b q →
      p.data.previous = q.data.previous →
      ∃ l l' x y, f.fetchBranchFrom a.id b.id = some (l ++ [x], l' ++ [y]) ∧
        (l ++ [x]).head? = some a ∧ (l' ++ [y]).head? = some b ∧ Branch (l ++ [x]) ∧
        Branch (l' ++ [y]) ∧ x.data.previous = y.data.previous ∧
        (¬Ancestor f a b → ¬Ancestor f b a → x.id ≠ y.id)) := by
  have hreg := h.regular
  obtain ⟨heap, hheap⟩ := hreg.heap
  refine ⟨fun skip b mid hmid => ?_, fun f hf a ha b hb p q hp hq hpq => ?_⟩
  · obtain ⟨hidle, hobj, hsaved, -, hfork, -, -⟩ := hreg.toConsistent.clearPending
    have hcases := Database.pushBlockBody_cases (hfork ▸ hheap) cps skip b
    generalize db.clearPending.pushBlockBody r cps skip b = res at hcases hmid
    cases hcases with
    | noForkDb _ => exact absurd (congrArg Prod.snd hmid) (Database.pushDirect_not_switched _ b)
    | unlinked _ _ => cases hmid
    | direct _ _ _ _ =>
      exact absurd (congrArg Prod.snd hmid) (Database.pushDirect_not_switched _ b)
    | kept _ _ _ _ _ => cases hmid
    | noBranches _ _ _ _ _ _ => cases hmid
    | @fork f newHead first second last res _ hpush hnew _ _ hfetch hlast hswitch =>
      obtain rfl : res = (mid, some true) := hmid
      obtain ⟨s, hs, hanc, hreplay⟩ := hswitch.replay (hidle.withForkDb f)
      replace hs : s ∈ db.clearPending.objects :: db.clearPending.undoDb.saved := hs
      rw [hobj, hsaved] at hs
      have hhead : db.clearPending.headBlockId = db.headObjects.headBlockId :=
        congrArg Objects.headBlockId hobj
      rw [hhead] at hfetch
      rw [hfork] at hpush
      obtain ⟨item, -, -, hheap'⟩ := hheap.pushBlock hpush
      obtain ⟨ancestor, hfirst, hsecond⟩ := fetchBranchFrom_leadsTo hheap' hfetch
      have hlast' := hsecond.last
      rw [hlast] at hlast'
      obtain rfl : s.headBlockId = ancestor := hanc.trans (Option.some.inj hlast')
      exact ⟨f, newHead, first, second, hpush, hnew, hfetch, s, hs, hfirst, hsecond, hreplay,
        hfirst.replay_head hreplay⟩
  · obtain ⟨heap', hheap'⟩ : ∃ heap', ForkHeap r heap' f := by
      rcases hf with rfl | ⟨c, hc⟩
      · exact ⟨heap, hheap⟩
      · obtain ⟨item, -, -, h'⟩ := hheap.pushBlock hc
        exact ⟨_, h'⟩
    exact fetchBranchFrom_meets hheap' ha hb hp hq hpq

/-- A second block after genesis of the small chain. -/
def rivalBlock : SignedBlock Nat := counterBlock .zero 11 0 []

/-- A block after `rivalBlock`. -/
def rivalChild : SignedBlock Nat :=
  counterBlock (counterRules.blockId rivalBlock.toBlockHeader) 12 0 []

/-- The small chain with another block applied before `rivalBlock` was pushed. -/
def rivalDatabase : Database Nat Nat :=
  (counterDatabase 0).calls counterRules []
    [.pushBlock (counterBlock .zero 10 0 []) .nothing, .pushBlock rivalBlock .nothing]

/-- Pushing the child switches to the branch of `rivalBlock`, and replays a branch from a saved
state. -/
theorem fork_switch_is_replay_rival :
    (rivalDatabase.clearPending.pushBlockBody counterRules [] .nothing rivalChild).2 = some true ∧
      ∃ s ∈ rivalDatabase.headObjects :: rivalDatabase.committed, ∃ branch : List (ForkItem Nat),
        counterRules.replay [] .nothing s (branch.reverse.map ForkItem.data) = some
          (rivalDatabase.clearPending.pushBlockBody counterRules
            [] .nothing rivalChild).1.objects := by
  have hswitched : (rivalDatabase.clearPending.pushBlockBody counterRules [] .nothing
      rivalChild).2 = some true := by
    decide +kernel
  have hreach : Reachable counterRules [] rivalDatabase :=
    (Reachable.opened (counterDatabase_opened 0)).calls _
  obtain ⟨f, newHead, first, second, -, -, -, s, hs, -, -, hreplay, -⟩ :=
    (fork_switch_is_replay hreach).1 .nothing rivalChild _ (Prod.ext rfl hswitched)
  exact ⟨hswitched, s, hs, first, hreplay⟩

end Nestchain.Chain
