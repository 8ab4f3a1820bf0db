import Nestchain.Chain.BlockStore
import Nestchain.Lib.Packing

/-! The last block of the store.  It is the head block as long as every fork switch either succeeds,
or goes back after it stored no block above the old head block. -/

namespace Nestchain.Chain

variable {ω ρ : Type} {r : Rules ω ρ} {cps : Checkpoints} {skip : SkipFlags}

/-- The store holds nothing above a block number. -/
def Capped (slots : Nat → Option (BlockId × SignedBlock ω)) (n : Nat) : Prop :=
  ∀ k, n < k → slots k = none

/-- The calls of `push_block` after which the last block of the store is the head block. -/
inductive Settles (r : Rules ω ρ) (cps : Checkpoints) (skip : SkipFlags) (db : Database ω ρ)
    (b : SignedBlock ω) : Prop
  /-- There is no fork switch. -/
  | quiet (h : ∀ f newHead, ¬Diverged r db b f newHead)
  | noBranches {f : ForkDatabase ω} {newHead : ForkItem ω} (h : Diverged r db b f newHead)
      (hfetch : f.fetchBranchFrom newHead.id db.headObjects.headBlockId = none)
  /-- The undo history reaches the fork, and the new branch applies. -/
  | switched {f : ForkDatabase ω} {newHead : ForkItem ω} {first second : List (ForkItem ω)}
      {s : Objects ρ} (h : Branches r db b f newHead first second s)
      (hreplay : r.replay cps skip s (first.reverse.map ForkItem.data) ≠ none)
  /-- The new branch is one block longer and does not apply, and the old one applies again.  The
  blocks `done` that apply make no block above the fork irreversible, so that they can be popped,
  and when they are as many as those of the old branch the fork database knows the fork block. -/
  | backed {f : ForkDatabase ω} {newHead i : ForkItem ω}
    {first second done rest : List (ForkItem ω)}
      {s s' : Objects ρ} (h : Branches r db b f newHead first second s)
      (hnext : newHead.data.blockNum = db.headObjects.headBlockNumber + 1)
      (hdone : first.reverse = done ++ i :: rest)
      (hreplay : r.replay cps skip s (done.map ForkItem.data) = some s')
      (hfail : (r.applyBlock cps skip s' i.data).result = none)
      (hlib : ∀ t ∈ s :: r.replayStates cps skip s (done.map ForkItem.data),
        t.lastIrreversibleBlockNum ≤ s.headBlockNumber)
      (hroot : done.length < second.length ∨ ∃ q ∈ f.index, q.id = s.headBlockId ∧
        second.getLast?.bind ForkItem.prev = some q.ptr)
      (hback : r.replay cps skip s (second.reverse.map ForkItem.data) ≠ none)

section

variable {slots : Nat → Option (BlockId × SignedBlock ω)} {bs : List (SignedBlock ω)} {n : Nat}
  {s s' : Objects ρ} {db db' : Database ω ρ} {b : SignedBlock ω}

theorem Settles.of_head (h : ((db.forkDb.pushBlock r b).bind ForkDatabase.head).all (fun i =>
    decide (i.data.previous = db.headObjects.headBlockId ∨
      i.data.blockNum ≤ db.headObjects.headBlockNumber)) = true) : Settles r cps skip db b := by
  refine .quiet fun f newHead hdiv => ?_
  rw [hdiv.fork, Option.bind_some, hdiv.head] at h
  rcases of_decide_eq_true h with hprev | hnum
  · exact hdiv.previous hprev
  · exact absurd hdiv.num (Nat.not_lt.mpr hnum)

theorem Capped.mono {m : Nat} (h : Capped slots n) (hm : n ≤ m) : Capped slots m :=
  fun k hk => h k (by omega)

theorem Rules.putBlocks_capped (h : Capped slots n) (hbs : ∀ b ∈ bs, b.blockNum ≤ n) :
    Capped (r.putBlocks slots bs) n := by
  induction bs generalizing slots with
  | nil => exact h
  | cons b bs ih =>
    refine ih (fun k hk => ?_) fun x hx => hbs x (List.mem_cons_of_mem _ hx)
    have hb := hbs b List.mem_cons_self
    show Function.update slots b.blockNum _ k = none
    rw [Function.update_of_ne (by omega)]
    exact h k hk

theorem Rules.replay_nums (hs : s.headBlockId.num = s.headBlockNumber)
    (h : r.replay cps skip s bs = some s') :
    s'.headBlockId.num = s'.headBlockNumber ∧
      s'.headBlockNumber = s.headBlockNumber + bs.length ∧
      ∀ b ∈ bs, b.blockNum ≤ s'.headBlockNumber := by
  induction bs generalizing s with
  | nil =>
    obtain rfl := Option.some.inj h
    exact ⟨hs, rfl, fun _ h => (List.not_mem_nil h).elim⟩
  | cons b bs ih =>
    obtain ⟨s1, hb, hrest⟩ := Option.bind_eq_some_iff.mp h
    have happ := Rules.applyBlock_applied hb
    have hnum : s1.headBlockNumber = s.headBlockNumber + 1 := by
      rw [happ.headBlockNumber, BlockHeader.blockNum, ← happ.previous, hs]
    have hid : s1.headBlockId.num = s1.headBlockNumber := by
      rw [happ.headBlockId, happ.headBlockNumber]
      rfl
    obtain ⟨h1, h2, h3⟩ := ih hid hrest
    refine ⟨h1, by rw [h2, hnum, List.length_cons]; omega, fun x hx => ?_⟩
    rcases List.mem_cons.mp hx with rfl | hx
    · rw [← happ.headBlockNumber, h2]
      omega
    · exact h3 x hx

theorem Rules.replayed_eq {bad : List (SignedBlock ω)} (h : r.replay cps skip s bs = some s')
    (hbad : ∀ b ∈ bad.head?, (r.applyBlock cps skip s' b).result = none) :
    r.replayed cps skip s (bs ++ bad) = bs := by
  induction bs generalizing s with
  | nil =>
    obtain rfl := Option.some.inj h
    cases bad with
    | nil => rfl
    | cons b bad =>
      rw [List.nil_append, Rules.replayed, hbad b rfl]
  | cons b bs ih =>
    obtain ⟨s1, hb, hrest⟩ := Option.bind_eq_some_iff.mp h
    rw [List.cons_append, Rules.replayed]
    simp only [hb, ih hrest]

theorem Database.pushBranch_stores {is bad : List (ForkItem ω)} (h : Idle r cps db)
    (hp : pushBranch r cps skip is db = (db', bad)) :
    ∃ done, is = done ++ bad ∧
      r.replay cps skip db.objects (done.map ForkItem.data) = some db'.objects ∧
      db'.blockIdToBlock = r.putBlocks db.blockIdToBlock (done.map ForkItem.data) := by
  obtain ⟨-, -, done, hdone, hreplay, hbad⟩ := Database.pushBranch_spec h hp
  refine ⟨done, hdone, hreplay, ?_⟩
  have hblocks := Database.pushBranch_blocks r cps skip is db
  rw [hp, hdone, List.map_append, Rules.replayed_eq hreplay] at hblocks
  · exact hblocks
  · intro b hb
    rw [List.head?_map] at hb
    obtain ⟨i, hi, rfl⟩ := Option.map_eq_some_iff.mp hb
    exact hbad i hi

theorem Database.pushBranch_capped {is bad : List (ForkItem ω)} (h : Idle r cps db)
    (hcap : Capped db.blockIdToBlock n) (hp : pushBranch r cps skip is db = (db', bad)) :
    Capped db'.blockIdToBlock (max n db'.objects.headBlockNumber) := by
  obtain ⟨done, -, hreplay, hblocks⟩ := Database.pushBranch_stores h hp
  rw [hblocks]
  refine Rules.putBlocks_capped (hcap.mono (Nat.le_max_left _ _)) fun b hb => ?_
  have hnums := Rules.replay_nums (h.spine.num _ List.mem_cons_self) hreplay
  exact (hnums.2.2 b hb).trans (Nat.le_max_right _ _)

theorem Database.pushDirect_capped (h : Idle r cps db)
    (hcap : Capped db.blockIdToBlock db.objects.headBlockNumber) (skip : SkipFlags)
    (b : SignedBlock ω) :
    Capped (db.pushDirect r cps skip b).1.blockIdToBlock
      (db.pushDirect r cps skip b).1.objects.headBlockNumber := by
  unfold Database.pushDirect
  rcases db.applyAndCommit_spec r cps skip b with ⟨hok, hb⟩ | ⟨hok, hb⟩
  · generalize db.applyAndCommit r cps skip b = res at hok hb
    obtain ⟨db1, ok⟩ := res
    subst hok
    have hreplay : r.replay cps skip db.objects [b] = some db1.objects := by
      rw [Rules.replay, hb.applied]
      rfl
    obtain ⟨-, hnum, hbs⟩ := Rules.replay_nums (h.spine.num _ List.mem_cons_self) hreplay
    show Capped db1.blockIdToBlock db1.objects.headBlockNumber
    rw [hb.blocks]
    exact Rules.putBlocks_capped (hcap.mono (by rw [hnum]; omega)) hbs
  · generalize db.applyAndCommit r cps skip b = res at hok hb
    obtain ⟨db1, ok⟩ := res
    subst hok
    show Capped db1.blockIdToBlock db1.objects.headBlockNumber
    rw [hb.blocks, hb.objects]
    exact hcap

/-! ### Going back -/

theorem Database.runEffects_keeps {es : List Effect} (hes : ∀ m, .setMaxSize m ∈ es → 1 ≤ m)
    {i : ForkItem ω} (hi : i ∈ db.forkDb.index)
    (hhead : ∀ x, db.forkDb.head = some x → x.num ≤ i.num + 1) :
    i ∈ (es.foldl Database.runEffect db).forkDb.index := by
  induction es generalizing db with
  | nil => exact hi
  | cons e es ih =>
    refine ih (fun m hm => hes m (List.mem_cons_of_mem _ hm)) ?_ ?_
    · cases e with
      | proposals p => exact hi
      | setMaxSize m =>
        have hm := hes m List.mem_cons_self
        show i ∈ (db.forkDb.setMaxSize m).index
        unfold ForkDatabase.setMaxSize
        split
        · exact hi
        · rename_i x hx
          have hnum := hhead x hx
          refine List.mem_filter.mpr ⟨hi, decide_eq_true ?_⟩
          omega
    · rw [(db.runEffect_resized e).forkHead]
      exact hhead

theorem Database.applyAndCommit_keeps {i : ForkItem ω} (hi : i ∈ db.forkDb.index)
    (hhead : ∀ x, db.forkDb.head = some x → x.num ≤ i.num + 1) :
    i ∈ (db.applyAndCommit r cps skip b).1.forkDb.index := by
  have hkeeps : i ∈ ((r.applyBlock cps skip db.objects b).effects.foldl Database.runEffect
      db.startUndoSession).forkDb.index := by
    refine Database.runEffects_keeps (fun m hm => ?_) hi hhead
    rw [(Rules.applyBlock_effects hm).2]
    omega
  unfold Database.applyAndCommit Database.perform
  cases (r.applyBlock cps skip db.objects b).result with
  | some s => exact hkeeps
  | none => exact hkeeps

theorem Database.pushBranch_keeps {is : List (ForkItem ω)} {i : ForkItem ω}
    (hi : i ∈ db.forkDb.index) (hhead : ∀ x, db.forkDb.head = some x → x.num ≤ i.num + 1) :
    i ∈ (pushBranch r cps skip is db).1.forkDb.index := by
  induction is generalizing db with
  | nil => exact hi
  | cons j is ih =>
    have hkeep : i ∈ (db.applyAndCommit r cps skip j.data).1.forkDb.index :=
      Database.applyAndCommit_keeps hi hhead
    rw [pushBranch]
    rcases db.applyAndCommit_spec r cps skip j.data with ⟨hok, hb⟩ | ⟨hok, hb⟩
    · generalize db.applyAndCommit r cps skip j.data = res at hok hb hkeep
      obtain ⟨db1, ok⟩ := res
      subst hok
      refine ih hkeep ?_
      rw [hb.forkHead]
      exact hhead
    · generalize db.applyAndCommit r cps skip j.data = res at hok hb hkeep
      obtain ⟨db1, ok⟩ := res
      subst hok
      exact hkeep

theorem Database.pushBranch_history {is bad : List (ForkItem ω)} {above below : List (Objects ρ)}
    (h : Idle r cps db) (hstates : db.objects :: db.undoDb.saved = above ++ s :: below)
    (hlimit : above.length ≤ db.undoDb.limit)
    (hnum : db.objects.headBlockNumber = s.headBlockNumber + above.length)
    (hlib : ∀ t ∈ db.objects :: r.replayStates cps skip db.objects (is.map ForkItem.data),
      t.lastIrreversibleBlockNum ≤ s.headBlockNumber)
    (hp : pushBranch r cps skip is db = (db', bad)) :
    ∃ above' below', db'.objects :: db'.undoDb.saved = above' ++ s :: below' ∧
      db'.objects.headBlockNumber = s.headBlockNumber + above'.length := by
  induction is generalizing db above below with
  | nil =>
    cases hp
    exact ⟨above, below, hstates, hnum⟩
  | cons i is ih =>
    -- the session of the block drops states beyond the maximum size only
    have htake : db.objects :: db.undoDb.saved.take db.undoDb.limit =
        above ++ s :: below.take (db.undoDb.limit - above.length) := by
      rw [← List.take_succ_cons, hstates, List.take_append, List.take_of_length_le (by omega),
        show db.undoDb.limit + 1 - above.length = (db.undoDb.limit - above.length) + 1 by omega,
        List.take_succ_cons]
    rw [pushBranch] at hp
    rw [List.map_cons, Rules.replayStates] at hlib
    rcases db.applyAndCommit_spec r cps skip i.data with ⟨hok, hb⟩ | ⟨hok, hb⟩
    · generalize db.applyAndCommit r cps skip i.data = res at hok hb hp
      obtain ⟨db1, ok⟩ := res
      subst hok
      simp only [hb.applied] at hlib hp
      have hb1 := Rules.applyBlock_applied hb.applied
      have hnum1 : i.data.blockNum = db.objects.headBlockNumber + 1 := by
        rw [BlockHeader.blockNum, ← hb1.previous, h.spine.num _ List.mem_cons_self]
      have hlib0 := hlib db.objects List.mem_cons_self
      have hlimit1 := hb.limit
      have hstates1 : db1.objects :: db1.undoDb.saved =
          (db1.objects :: above) ++ s :: below.take (db.undoDb.limit - above.length) := by
        rw [hb.saved, htake]
        rfl
      refine ih (h.pushed hb) hstates1 ?_ ?_ ?_ hp
      · rw [List.length_cons]
        omega
      · rw [hb1.headBlockNumber, List.length_cons]
        omega
      · exact fun t ht => hlib t (List.mem_cons_of_mem _ ht)
    · generalize db.applyAndCommit r cps skip i.data = res at hok hb hp
      obtain ⟨db1, ok⟩ := res
      subst hok
      cases hp
      refine ⟨above, below.take (db.undoDb.limit - above.length), ?_, ?_⟩
      · rw [hb.objects, hb.saved]
        exact htake
      · rw [hb.objects]
        exact hnum

theorem Database.HasChain.fetchBlockById {base chain : List (SignedBlock ω)} {s0 : Objects ρ}
    (hbase : Descends r s0.headBlockId base) (h : db.HasChain r cps base s0 chain)
    (hpos : 0 < db.headBlockId.num) : db.fetchBlockById db.headBlockId ≠ none := by
  have hdesc := (h.grown 0 db.objects rfl).descends hbase
  have hlen : db.headBlockId.num = chain.length := hdesc.length
  unfold Database.fetchBlockById
  cases db.forkDb.fetchBlock db.headBlockId with
  | some i => exact Option.some_ne_none _
  | none =>
    cases chain with
    | nil => simp [hlen] at hpos
    | cons b chain =>
      have hid : db.headBlockId = r.blockId b.toBlockHeader := hdesc.1
      have hslot := h.blocks chain.length b (by simp)
      simp only
      rw [hlen, List.length_cons, hslot]
      simp [hid]

theorem Database.popUntil_back {base chain : List (SignedBlock ω)} {s0 : Objects ρ}
    {heap held items : List (ForkItem ω)} {a : ForkItem ω} {above below : List (Objects ρ)}
    (fuel : Nat) (hbase : Descends r s0.headBlockId base) (h : Idle r cps db)
    (hchain : db.HasChain r cps base s0 chain) (hheap : ForkHeap r heap db.forkDb)
    (hheld : ∀ i ∈ held, i ∈ heap) (hhead : db.forkDb.head = some a)
    (hstates : db.objects :: db.undoDb.saved = above ++ s :: below)
    (hlinked : (a :: items).IsChain fun i p => i.prev = some p.ptr)
    (halive : ∀ p ∈ items, p ∈ db.forkDb.index ∨ p ∈ held) (hlen : above.length ≤ items.length)
    (hfuel : above.length < fuel) :
    ∃ db', popUntil held s.headBlockId fuel db = (db', true) ∧ db'.objects = s := by
  induction above generalizing db chain a items fuel with
  | nil =>
    obtain ⟨hs, -⟩ := List.cons_eq_cons.mp hstates
    obtain ⟨fuel, rfl⟩ : ∃ n, fuel = n + 1 := ⟨fuel - 1, by simp at hfuel; omega⟩
    have htarget : db.headBlockId = s.headBlockId := congrArg Objects.headBlockId hs
    refine ⟨db, ?_, hs⟩
    rw [popUntil, if_pos htarget]
  | cons t above ih =>
    obtain ⟨ht, hsaved⟩ := List.cons_eq_cons.mp hstates
    obtain ⟨fuel, rfl⟩ : ∃ n, fuel = n + 1 := ⟨fuel - 1, by simp at hfuel; omega⟩
    -- by the numbers, the head block is above that of `s`
    have hget : (db.objects :: db.undoDb.saved)[above.length + 1]? = some s := by
      rw [hstates]
      simp
    have hnum := h.spine.headBlockNumber hget
    have hid : db.headBlockId.num = db.objects.headBlockNumber :=
      h.spine.num _ List.mem_cons_self
    have hsid : s.headBlockId.num = s.headBlockNumber :=
      h.spine.num s (hstates ▸ List.mem_append_right _ List.mem_cons_self)
    have hne : db.headBlockId ≠ s.headBlockId := by
      intro heq
      have := congrArg BlockId.num heq
      omega
    obtain ⟨b, hb⟩ := Option.ne_none_iff_exists'.mp (hchain.fetchBlockById hbase (by omega))
    cases items with
    | nil => simp at hlen
    | cons p items =>
      obtain ⟨hprev, hlinked⟩ := List.isChain_cons_cons.mp hlinked
      have hp : p ∈ db.forkDb.index ∨ db.forkDb.head = some p ∨ p ∈ held :=
        (halive p List.mem_cons_self).imp_right Or.inr
      have hpheap : p ∈ heap := by
        rcases halive p List.mem_cons_self with hp | hp
        · exact hheap.index p hp
        · exact hheld p hp
      have hfork : db.forkDb.popBlock held = some (db.forkDb.setHead (some p)) := by
        unfold ForkDatabase.popBlock
        rw [hhead]
        show (db.forkDb.lock held a.prev).bind _ = _
        rw [hheap.lock_eq hheld hp hprev]
        rfl
      obtain ⟨u, l, hul⟩ : ∃ u l, above ++ s :: below = u :: l := by
        cases above with
        | nil => exact ⟨s, below, rfl⟩
        | cons u above => exact ⟨u, above ++ s :: below, rfl⟩
      have hpop := Database.popBlock_eq h hb hfork (hsaved.trans hul)
      have hunwound := (popBlock_true h hpop).unwound
      obtain ⟨k, hk⟩ := hunwound.hasChain hchain
      obtain ⟨db', h1, h2⟩ := ih fuel (h.unwound hunwound) hk
        (hheap.setHead fun x hx => by cases hx; exact hpheap) rfl hul.symm hlinked
        (fun q hq => halive q (List.mem_cons_of_mem _ hq)) (by simpa using hlen)
        (by simpa using hfuel)
      refine ⟨db', ?_, h2⟩
      rw [popUntil, if_neg hne, hpop]
      exact h1

theorem Rules.replayStates_eq {bad : List (SignedBlock ω)} (h : r.replay cps skip s bs = some s')
    (hbad : ∀ b ∈ bad.head?, (r.applyBlock cps skip s' b).result = none) :
    r.replayStates cps skip s (bs ++ bad) = r.replayStates cps skip s bs := by
  induction bs generalizing s with
  | nil =>
    obtain rfl := Option.some.inj h
    cases bad with
    | nil => rfl
    | cons b bad =>
      simp only [List.nil_append, Rules.replayStates, hbad b rfl]
  | cons b bs ih =>
    obtain ⟨s1, hb, hrest⟩ := Option.bind_eq_some_iff.mp h
    rw [List.cons_append, Rules.replayStates, Rules.replayStates]
    simp only [hb, ih hrest]

variable {heap first second : List (ForkItem ω)}

theorem SwitchReady.switched_capped (hr : SwitchReady r heap db first second s)
    (h : Idle r cps db) (hcap : Capped db.blockIdToBlock db.objects.headBlockNumber)
    (hreplay : r.replay cps skip s (first.reverse.map ForkItem.data) ≠ none) :
    Capped (db.switchForks r cps skip first second).1.blockIdToBlock
      (db.switchForks r cps skip first second).1.objects.headBlockNumber := by
  obtain ⟨t, ht⟩ := Option.ne_none_iff_exists'.mp hreplay
  obtain ⟨fork, hlast, hprev⟩ := hr.fork
  obtain ⟨db1, hpop, hobj, -, -⟩ := hr.popped h
  obtain ⟨hu, -, -⟩ := Database.popUntil_spec h hpop
  have h1 := h.unwound hu
  obtain ⟨db2, hpush, hobj2, -⟩ := Database.pushBranch_replay h1 (hobj ▸ ht)
  have hcap2 := Database.pushBranch_capped h1 (hu.blocks ▸ hcap) hpush
  have hswitch : db.switchForks r cps skip first second = (db2, some true) := by
    unfold Database.switchForks
    simp only [hlast, hprev, hpop, hpush]
  -- the new branch is longer
  have hid : db.headBlockId.num = db.objects.headBlockNumber :=
    h.spine.num _ List.mem_cons_self
  have hsid : s.headBlockId.num = s.headBlockNumber := by
    have := h1.spine.num _ List.mem_cons_self
    rwa [hobj] at this
  obtain ⟨-, hnum, -⟩ := Rules.replay_nums hsid ht
  have hold := hr.oldBranch.length.1
  have hlonger := hr.longer
  rw [hswitch, hobj2]
  rw [hobj2] at hcap2
  refine hcap2.mono ?_
  rw [List.length_map, List.length_reverse] at hnum
  omega

theorem Database.pushBranch_stops {db1 db2 : Database ω ρ} {l done rest bad : List (ForkItem ω)}
    {i : ForkItem ω} (h1 : Idle r cps db1) (hl : l = done ++ i :: rest)
    (hreplay : r.replay cps skip db1.objects (done.map ForkItem.data) = some s')
    (hfails : ∀ b ∈ ((i :: rest).map ForkItem.data).head?,
      (r.applyBlock cps skip s' b).result = none)
    (hpush : Database.pushBranch r cps skip l db1 = (db2, bad)) :
    bad = i :: rest ∧ db2.objects = s' := by
  obtain ⟨-, -, done', hdone', hreplay', hbad'⟩ := Database.pushBranch_spec h1 hpush
  have hsame : done' = done ∧ bad = i :: rest := by
    refine List.append_inj (hdone'.symm.trans hl) ?_
    have heq : r.replayed cps skip db1.objects (l.map ForkItem.data) = done.map ForkItem.data := by
      rw [hl, List.map_append]
      exact Rules.replayed_eq hreplay hfails
    rw [hdone', List.map_append, Rules.replayed_eq hreplay'] at heq
    · simpa using congrArg List.length heq
    · intro b hb
      rw [List.head?_map] at hb
      obtain ⟨j, hj, rfl⟩ := Option.map_eq_some_iff.mp hb
      exact hbad' j hj
  obtain ⟨rfl, hbad⟩ := hsame
  exact ⟨hbad, Option.some.inj (hreplay'.symm.trans hreplay)⟩

/-- After the invalid blocks of the new branch were removed, the items of the old one, and the item
they start from when all of them are needed, can still be followed. -/
theorem SwitchReady.linked_items {db1 db2 : Database ω ρ} {i y : ForkItem ω}
    {done rest ys : List (ForkItem ω)} (hr : SwitchReady r heap db first (y :: ys) s)
    (hlen : first.length = (y :: ys).length + 1) (hdone : first.reverse = done ++ i :: rest)
    (hfork : db1.forkDb = db.forkDb.setHead first[(y :: ys).length]?)
    (hpush : Database.pushBranch r cps skip first.reverse db1 = (db2, i :: rest))
    (hroot : done.length < (y :: ys).length ∨ ∃ q ∈ db.forkDb.index, q.id = s.headBlockId ∧
      (y :: ys).getLast?.bind ForkItem.prev = some q.ptr) :
    ∃ items : List (ForkItem ω), (y :: items).IsChain (fun i p => i.prev = some p.ptr) ∧
      (∀ p ∈ items, p ∈ (db2.forkDb.removeAll (i :: rest)).index ∨ p ∈ first ++ y :: ys) ∧
      done.length ≤ items.length := by
  have hdoneLen : done.length ≤ (y :: ys).length := by
    have := congrArg List.length hdone
    simp only [List.length_reverse, List.length_append, List.length_cons] at this hlen ⊢
    omega
  by_cases hlt : done.length < (y :: ys).length
  · exact ⟨ys, hr.oldLinked, fun p hp => Or.inr (by simp [hp]), Nat.le_of_lt_succ hlt⟩
  · obtain ⟨q, hq, hqid, hqptr⟩ := hroot.resolve_left hlt
    obtain ⟨tip, hnew⟩ := hr.newBranch
    have hqnum := (hr.forkHeap.num (hr.forkHeap.index q hq)).2
    rw [hqid] at hqnum
    refine ⟨ys ++ [q], ?_, fun p hp => ?_, ?_⟩
    · rw [← List.cons_append]
      refine List.IsChain.append hr.oldLinked (List.isChain_singleton q) ?_
      intro x hx z hz
      obtain rfl : q = z := by simpa using hz
      rw [hx] at hqptr
      exact hqptr
    · rcases List.mem_append.mp hp with hp | hp
      · exact Or.inr (by simp [hp])
      · obtain rfl := List.mem_singleton.mp hp
        refine Or.inl (ForkDatabase.mem_removeAll.mpr ⟨?_, fun j hj heq => ?_⟩)
        · have hkeep : p ∈ (Database.pushBranch r cps skip first.reverse db1).1.forkDb.index := by
            refine Database.pushBranch_keeps (by rw [hfork]; exact hq) fun x hx => ?_
            rw [hfork] at hx
            replace hx : first[(y :: ys).length]? = some x := hx
            have hxmem := List.mem_of_getElem? hx
            obtain ⟨hxdata, -⟩ := hr.forkHeap.num (hr.held x (List.mem_append_left _ hxmem))
            have hlastx := hnew.last
            rw [List.getLast?_eq_getElem?, hlen, Nat.add_sub_cancel, hx] at hlastx
            have hxprev : x.data.previous = s.headBlockId := Option.some.inj hlastx
            rw [hxdata, BlockHeader.blockNum, hxprev]
            omega
          rw [hpush] at hkeep
          exact hkeep
        · have hjfirst : j ∈ first := by
            rw [← List.mem_reverse, hdone]
            exact List.mem_append_right _ hj
          have := hnew.length.2 j hjfirst
          rw [← heq, hqid] at this
          omega
    · simp only [List.length_append, List.length_cons, List.length_nil] at hdoneLen ⊢
      omega

theorem SwitchReady.backed_capped {base chain : List (SignedBlock ω)} {s0 : Objects ρ}
    {i : ForkItem ω} {done rest : List (ForkItem ω)} (hr : SwitchReady r heap db first second s)
    (h : Idle r cps db) (hbase : Descends r s0.headBlockId base)
    (hchain : db.HasChain r cps base s0 chain)
    (hcap : Capped db.blockIdToBlock db.objects.headBlockNumber)
    (hlen : first.length = second.length + 1) (hdone : first.reverse = done ++ i :: rest)
    (hreplay : r.replay cps skip s (done.map ForkItem.data) = some s')
    (hfail : (r.applyBlock cps skip s' i.data).result = none)
    (hlib : ∀ t ∈ s :: r.replayStates cps skip s (done.map ForkItem.data),
      t.lastIrreversibleBlockNum ≤ s.headBlockNumber)
    (hroot : done.length < second.length ∨ ∃ q ∈ db.forkDb.index, q.id = s.headBlockId ∧
      second.getLast?.bind ForkItem.prev = some q.ptr)
    (hback : r.replay cps skip s (second.reverse.map ForkItem.data) ≠ none) :
    Capped (db.switchForks r cps skip first second).1.blockIdToBlock
      (db.switchForks r cps skip first second).1.objects.headBlockNumber := by
  obtain ⟨t, ht⟩ := Option.ne_none_iff_exists'.mp hback
  obtain ⟨fork, hlast, hprev⟩ := hr.fork
  obtain ⟨db1, hpop, hobj, hfork1, -⟩ := hr.popped h
  obtain ⟨hu, -, hheap1⟩ := Database.popUntil_spec h hpop
  have h1 := h.unwound hu
  have hid : db.headBlockId.num = db.objects.headBlockNumber :=
    h.spine.num _ List.mem_cons_self
  have hsid : s.headBlockId.num = s.headBlockNumber := by
    have := h1.spine.num _ List.mem_cons_self
    rwa [hobj] at this
  have hold := hr.oldBranch.length.1
  have hfails : ∀ b ∈ ((i :: rest).map ForkItem.data).head?,
      (r.applyBlock cps skip s' b).result = none := by
    intro b hb
    obtain rfl : i.data = b := by simpa using hb
    exact hfail
  -- the blocks that are applied are `done`
  generalize hpush : Database.pushBranch r cps skip first.reverse db1 = res
  obtain ⟨db2, bad⟩ := res
  obtain ⟨rfl, rfl⟩ := Database.pushBranch_stops h1 hdone (hobj ▸ hreplay) hfails hpush
  obtain ⟨h2, haside, -⟩ := Database.pushBranch_spec h1 hpush
  obtain ⟨-, hnum2, -⟩ := Rules.replay_nums hsid hreplay
  rw [List.length_map] at hnum2
  have hdoneLen : done.length ≤ second.length := by
    have := congrArg List.length hdone
    simp only [List.length_reverse, List.length_append, List.length_cons] at this
    omega
  -- their states are still in the undo history, above `s`
  obtain ⟨above, below, hstates, hnumAbove⟩ := Database.pushBranch_history h1
    (show db1.objects :: db1.undoDb.saved = [] ++ s :: db1.undoDb.saved by rw [hobj]; rfl)
    (Nat.zero_le _) (by rw [hobj]; rfl)
    (by
      rw [hobj, hdone, List.map_append, Rules.replayStates_eq hreplay hfails]
      exact hlib) hpush
  -- and the fork database can go down as far
  have hheap2 := haside.heap (hheap1 heap hr.held hr.forkHeap)
  obtain ⟨y, ys, rfl⟩ : ∃ y ys, second = y :: ys := by
    cases second with
    | nil => cases hlast
    | cons y ys => exact ⟨y, ys, rfl⟩
  have hyheap : y ∈ heap := hr.held y (by simp)
  obtain ⟨items, hlinked, halive, hitems⟩ := hr.linked_items hlen hdone hfork1 hpush hroot
  have hidle2 : Idle r cps { db2 with
      forkDb := (db2.forkDb.removeAll (i :: rest)).setHead (y :: ys).head? } := h2.withForkDb _
  have hheap2' : ForkHeap r heap
      ((db2.forkDb.removeAll (i :: rest)).setHead (y :: ys).head?) :=
    (hheap2.removeAll _).setHead fun x hx => by cases hx; exact hyheap
  obtain ⟨k, hk⟩ := hu.hasChain hchain
  obtain ⟨chain2, hchain2⟩ := hk.pushBranch hbase skip first.reverse
  rw [hpush] at hchain2
  have haboveLen : above.length = done.length := by omega
  obtain ⟨db3, hpop3, hobj3⟩ := Database.popUntil_back (db2.undoDb.saved.length + 1) hbase hidle2
    (hchain2.withForkDb _) hheap2' hr.held rfl hstates hlinked halive (by omega)
    (by
      have := congrArg List.length hstates
      simp only [List.length_cons, List.length_append] at this
      omega)
  obtain ⟨hu3, -, -⟩ := Database.popUntil_spec hidle2 hpop3
  have h3 := hidle2.unwound hu3
  obtain ⟨db4, hpush4, hobj4, -⟩ := Database.pushBranch_replay h3 (hobj3 ▸ ht)
  have hswitch : db.switchForks r cps skip first (y :: ys) = (db4, none) := by
    unfold Database.switchForks
    simp only [hlast, hprev, hpop, hpush, hpop3, hpush4]
  have hcap2 := Database.pushBranch_capped h1 (hu.blocks ▸ hcap) hpush
  have hcap3 : Capped db3.blockIdToBlock db.objects.headBlockNumber := by
    rw [hu3.blocks]
    exact hcap2.mono (by omega)
  have hcap4 := Database.pushBranch_capped h3 hcap3 hpush4
  rw [hswitch, hobj4]
  rw [hobj4] at hcap4
  obtain ⟨-, hnumt, -⟩ := Rules.replay_nums hsid ht
  rw [List.length_map, List.length_reverse] at hnumt
  exact hcap4.mono (by omega)

theorem Consistent.pushBlockBody_diverged {f : ForkDatabase ω} {newHead : ForkItem ω}
    (hc : Consistent r cps db) (hskip : skip.forkDb = false) (h : Diverged r db b f newHead) :
    db.clearPending.pushBlockBody r cps skip b =
      match f.fetchBranchFrom newHead.id db.headObjects.headBlockId with
      | none => ({ db.clearPending with forkDb := f }, none)
      | some (first, second) =>
        ({ db.clearPending with forkDb := f } :
          Database ω ρ).switchForks r cps skip first second := by
  obtain ⟨-, hobj, -, -, hfork, -, -⟩ := hc.clearPending
  have hid : db.clearPending.headBlockId = db.headObjects.headBlockId :=
    congrArg Objects.headBlockId hobj
  have hnum : db.clearPending.headBlockNum = db.headObjects.headBlockNumber :=
    congrArg Objects.headBlockNumber hobj
  have hbody := @Database.pushBlockBody_diverged _ _ _ cps _ _ _ _ _ hskip (hfork ▸ h.fork) h.head
    (hid ▸ h.previous) (hnum ▸ h.num)
  rw [hid] at hbody
  exact hbody

theorem Capped.pushBlock {base chain : List (SignedBlock ω)} {s0 : Objects ρ}
    (hbase : Descends r s0.headBlockId base) (hreg : Regular r cps db)
    (hchain : db.HeadChain r cps base s0 chain)
    (hcap : Capped db.blockIdToBlock db.headObjects.headBlockNumber)
    (hskip : skip.forkDb = false) (hs : Settles r cps skip db b) :
    Capped (db.pushBlock r cps skip b).1.blockIdToBlock
      (db.pushBlock r cps skip b).1.headObjects.headBlockNumber := by
  obtain ⟨hidle, hobj, hsaved, -, hfork, hblocks, -⟩ := hreg.toConsistent.clearPending
  obtain ⟨heap, hheap⟩ := hreg.heap
  have hcases := Database.pushBlockBody_cases (hfork ▸ hheap) cps skip b
  obtain ⟨hmid, -⟩ := Database.pushBlockBody_idle hidle (hfork ▸ hheap) skip b
  obtain ⟨-, hkept, -⟩ := Database.restorePending_kept hmid skip db.pendingTx
  have hid : db.clearPending.headBlockId = db.headObjects.headBlockId :=
    congrArg Objects.headBlockId hobj
  have hnum : db.clearPending.headBlockNum = db.headObjects.headBlockNumber :=
    congrArg Objects.headBlockNumber hobj
  have hcap' : Capped db.clearPending.blockIdToBlock
      db.clearPending.objects.headBlockNumber := by
    rw [hblocks, hobj]
    exact hcap
  suffices hbody : Capped (db.clearPending.pushBlockBody r cps skip b).1.blockIdToBlock
      (db.clearPending.pushBlockBody r cps skip b).1.objects.headBlockNumber by
    have hafter : (db.pushBlock r cps skip b).1 = Database.restorePending r skip
        (db.clearPending.pushBlockBody r cps skip b).1 db.pendingTx := rfl
    rw [hafter, hkept.blocks, hkept.headObjects, hmid.headObjects]
    exact hbody
  cases hs with
  | quiet h =>
    generalize db.clearPending.pushBlockBody r cps skip b = res at hcases
    cases hcases with
    | noForkDb hskip' =>
      rw [hskip] at hskip'
      cases hskip'
    | unlinked _ _ => exact hcap'
    | @direct f _ _ _ _ _ =>
      have hidle' := hidle.withForkDb f
      exact Database.pushDirect_capped hidle' hcap' skip b
    | kept _ _ _ _ _ => exact hcap'
    | noBranches _ _ _ _ _ _ => exact hcap'
    | fork _ hf hhead hprev hnum' _ _ _ =>
      exact absurd ⟨hfork ▸ hf, hhead, hid ▸ hprev, hnum ▸ hnum'⟩ (h _ _)
  | noBranches h hfetch =>
    rw [hreg.toConsistent.pushBlockBody_diverged hskip h]
    simp only [hfetch]
    exact hcap'
  | switched h hreplay =>
    obtain ⟨item, -, -, hheap'⟩ := hheap.pushBlock h.fork
    rw [hreg.toConsistent.pushBlockBody_diverged hskip h.toDiverged]
    simp only [h.fetch]
    exact (h.ready hreg hheap').switched_capped (hidle.withForkDb _) hcap' hreplay
  | @backed f newHead i first second done rest s s' h hnext hdone hreplay hfail hlib hroot hback =>
    obtain ⟨item, -, -, hheap'⟩ := hheap.pushBlock h.fork
    have hready := h.ready hreg hheap'
    have hlen : first.length = second.length + 1 := by
      obtain ⟨ancestor, hl, hl'⟩ := fetchBranchFrom_leadsTo hheap' h.fetch
      have hfirst := hl.length.1
      have hsecond := hl'.length.1
      have hheadNum : db.headObjects.headBlockId.num = db.headObjects.headBlockNumber :=
        hreg.spine.num _ List.mem_cons_self
      obtain ⟨hnewNum, hnewId⟩ := hheap'.num (hheap'.head _ h.head)
      omega
    rw [hreg.toConsistent.pushBlockBody_diverged hskip h.toDiverged]
    simp only [h.fetch]
    exact hready.backed_capped (hidle.withForkDb _) hbase
      ((hchain.clearPending hreg.toConsistent).withForkDb f) hcap' hlen hdone hreplay hfail hlib
      hroot hback

end

/-! ### Whole runs -/

/-- The database and the files of the block store. -/
structure Node (ω ρ : Type) where
  db : Database ω ρ
  blocks : BlockDatabase

/-- `push_block`, with its calls of `store`. -/
def Node.pushBlock (r : Rules ω ρ) (cps : Checkpoints) (c : BlockCodec ω) (n : Node ω ρ)
    (p : SignedBlock ω × SkipFlags) : Node ω ρ where
  db := (n.db.pushBlock r cps p.2 p.1).1
  blocks := (n.db.stored r cps p.2 p.1).foldl
    (fun d b => d.store r c (r.blockId b.toBlockHeader) b) n.blocks

/-- A node that was just opened on the chain `base`, which its store holds. -/
structure Node.Opened (r : Rules ω ρ) (c : BlockCodec ω) (base : List (SignedBlock ω))
    (n : Node ω ρ) : Prop where
  opened : Chain.Opened r n.db
  descends : Descends r n.db.objects.headBlockId base
  blocks : ∀ (k : Nat) b, base.reverse[k]? = some b →
    n.db.blockIdToBlock (k + 1) = some (r.blockId b.toBlockHeader, b)
  capped : Capped n.db.blockIdToBlock n.db.objects.headBlockNumber
  holds : n.blocks.Holds r c n.db.blockIdToBlock

def SettledRun (r : Rules ω ρ) (cps : Checkpoints) (c : BlockCodec ω) :
    Node ω ρ → List (SignedBlock ω × SkipFlags) → Prop
  | _, [] => True
  | n, p :: ps => Settles r cps p.2 n.db p.1 ∧ SettledRun r cps c (n.pushBlock r cps c p) ps

section Runs

variable {c : BlockCodec ω} {n : Node ω ρ} {base : List (SignedBlock ω)} {s0 : Objects ρ}

/-- What every call keeps. -/
structure Node.Sound (r : Rules ω ρ) (cps : Checkpoints) (c : BlockCodec ω)
    (base : List (SignedBlock ω)) (s0 : Objects ρ) (n : Node ω ρ) : Prop where
  reachable : Reachable r cps n.db
  chain : ∃ chain, n.db.HeadChain r cps base s0 chain
  holds : n.blocks.Holds r c n.db.blockIdToBlock

theorem BlockDatabase.Holds.putBlocks {d : BlockDatabase}
    {slots : Nat → Option (BlockId × SignedBlock ω)} (h : d.Holds r c slots)
    (bs : List (SignedBlock ω)) :
    (bs.foldl (fun d b => d.store r c (r.blockId b.toBlockHeader) b) d).Holds r c
      (r.putBlocks slots bs) := by
  induction bs generalizing d slots with
  | nil => exact h
  | cons b bs ih => exact ih (h.store b)

theorem Node.Opened.sound (h : n.Opened r c base) : n.Sound r cps c base n.db.objects := by
  have hidle : Idle r cps n.db := h.opened.idle
  refine ⟨.opened h.opened, ⟨base, ?_, h.blocks⟩, h.holds⟩
  intro k s hs
  rw [hidle.headObjects, hidle.committed, h.opened.saved] at hs
  cases k with
  | zero =>
    obtain rfl : n.db.objects = s := by simpa using hs
    exact .base
  | succ k => simp at hs

theorem Node.Sound.pushBlock (hbase : Descends r s0.headBlockId base) (h : n.Sound r cps c base s0)
    (p : SignedBlock ω × SkipFlags) : (n.pushBlock r cps c p).Sound r cps c base s0 := by
  obtain ⟨chain, hchain⟩ := h.chain
  refine ⟨h.reachable.call (.pushBlock p.1 p.2), hchain.pushBlock hbase h.reachable.regular p.2 p.1,
    ?_⟩
  show BlockDatabase.Holds r c _ (n.db.pushBlock r cps p.2 p.1).1.blockIdToBlock
  rw [Database.pushBlock_blocks h.reachable.regular]
  exact h.holds.putBlocks _

theorem Node.Sound.run (hbase : Descends r s0.headBlockId base) (h : n.Sound r cps c base s0)
    (ps : List (SignedBlock ω × SkipFlags)) :
    (ps.foldl (Node.pushBlock r cps c) n).Sound r cps c base s0 := by
  induction ps generalizing n with
  | nil => exact h
  | cons p ps ih => exact ih (h.pushBlock hbase p)

theorem Node.Sound.capped (hbase : Descends r s0.headBlockId base) (h : n.Sound r cps c base s0)
    (hcap : Capped n.db.blockIdToBlock n.db.headObjects.headBlockNumber)
    {ps : List (SignedBlock ω × SkipFlags)} (hskip : ∀ p ∈ ps, p.2.forkDb = false)
    (hs : SettledRun r cps c n ps) :
    Capped (ps.foldl (Node.pushBlock r cps c) n).db.blockIdToBlock
      (ps.foldl (Node.pushBlock r cps c) n).db.headObjects.headBlockNumber := by
  induction ps generalizing n with
  | nil => exact hcap
  | cons p ps ih =>
    obtain ⟨hp, hrest⟩ := hs
    obtain ⟨chain, hchain⟩ := h.chain
    refine ih (h.pushBlock hbase p) ?_ (fun q hq => hskip q (List.mem_cons_of_mem _ hq)) hrest
    exact Capped.pushBlock hbase h.reachable.regular hchain hcap (hskip p List.mem_cons_self) hp

theorem BlockDatabase.Holds.zero {d : BlockDatabase}
    {slots : Nat → Option (BlockId × SignedBlock ω)} (h : d.Holds r c slots) : slots 0 = none := by
  cases hslot : slots 0 with
  | none => rfl
  | some e =>
    obtain ⟨hnum, e', -, hid, hpoints⟩ := h.stored 0 e.1 e.2 hslot
    rw [← hid, ← hpoints.id] at hnum
    exact absurd hnum (Nat.succ_ne_zero _)

theorem Node.Sound.lastId (hbase : Descends r s0.headBlockId base) (h : n.Sound r cps c base s0)
    (hcap : Capped n.db.blockIdToBlock n.db.headObjects.headBlockNumber) :
    n.blocks.lastId r c =
      if n.db.headObjects.headBlockNumber = 0 then none
      else some n.db.headObjects.headBlockId := by
  obtain ⟨chain, hchain⟩ := h.chain
  have hdesc := (hchain.grown 0 n.db.headObjects rfl).descends hbase
  have hlen : n.db.headObjects.headBlockNumber = chain.length := by
    rw [← h.reachable.regular.spine.num _ List.mem_cons_self]
    exact hdesc.length
  split
  · rename_i hzero
    refine h.holds.lastId_none fun k => ?_
    cases k with
    | zero => exact h.holds.zero
    | succ k => exact hcap (k + 1) (by omega)
  · rename_i hne
    cases chain with
    | nil => exact absurd hlen hne
    | cons b chain =>
      have hslot := hchain.blocks chain.length b (by simp)
      have hid : n.db.headObjects.headBlockId = r.blockId b.toBlockHeader := hdesc.1
      rw [hid]
      refine h.holds.lastId hslot fun k hk => hcap k ?_
      rw [hlen, List.length_cons]
      omega

/-- The block store and the chain.  After any calls of `store` and `remove`, `contains` tells which
ids have a block, and a fetched block has its id.  In every run of `push_block` the store gives the
chain for every number up to the head block; and when every call settles, its last block is the head
block. -/
theorem block_store_agrees (r : Rules ω ρ) (cps : Checkpoints) (c : BlockCodec ω) :
    (∀ (calls : List (BlockDatabase.StoreCall ω)) (id : BlockId),
      ((calls.foldl (BlockDatabase.perform r c) .empty).contains id = true ↔
        ∃ b, (calls.foldl (BlockDatabase.perform r c) .empty).fetchOptional r c id = some b) ∧
      ∀ b, (calls.foldl (BlockDatabase.perform r c) .empty).fetchOptional r c id = some b →
        r.blockId b.toBlockHeader = id) ∧
    ∀ (base : List (SignedBlock ω)) (n n' : Node ω ρ) (ps : List (SignedBlock ω × SkipFlags)),
      n.Opened r c base → (∀ p ∈ ps, p.2.forkDb = false) →
      ps.foldl (Node.pushBlock r cps c) n = n' →
      (∃ chain, Grown r cps base n.db.objects chain n'.db.headObjects ∧
        Descends r n'.db.headObjects.headBlockId chain ∧
        chain.length = n'.db.headObjects.headBlockNumber ∧
        ∀ (k : Nat) b, chain.reverse[k]? = some b →
          n'.blocks.fetchBlockId (k + 1) = some (r.blockId b.toBlockHeader) ∧
          n'.blocks.fetchByNumber r c (k + 1) = some b) ∧
      (SettledRun r cps c n ps → n'.blocks.lastId r c =
        if n'.db.headObjects.headBlockNumber = 0 then none
        else some n'.db.headObjects.headBlockId) := by
  refine ⟨fun calls id => ⟨?_, fun b hb => BlockDatabase.fetchOptional_id hb⟩, ?_⟩
  · exact (BlockDatabase.Valid.empty.performs calls).contains_iff id
  intro base n n' ps hopened hskip hrun
  subst hrun
  have hstart : n.Sound r cps c base n.db.objects := hopened.sound
  have hsound := hstart.run hopened.descends ps
  refine ⟨?_, fun hsettled => ?_⟩
  · obtain ⟨chain, hchain⟩ := hsound.chain
    have hgrown := hchain.grown 0 _ rfl
    have hdesc := hgrown.descends hopened.descends
    refine ⟨chain, hgrown, hdesc, ?_, fun k b hb => ?_⟩
    · rw [← hsound.reachable.regular.spine.num _ List.mem_cons_self]
      exact hdesc.length.symm
    · have hslot := hchain.blocks k b hb
      exact ⟨hsound.holds.fetchBlockId (Nat.succ_pos k) hslot, hsound.holds.fetchByNumber hslot⟩
  · refine hsound.lastId hopened.descends ?_
    have hcap : Capped n.db.blockIdToBlock n.db.headObjects.headBlockNumber := by
      have hidle : Idle r cps n.db := hopened.opened.idle
      rw [hidle.headObjects]
      exact hopened.capped
    exact hstart.capped hopened.descends hcap hskip hsettled

end Runs

/-! ### The small chain, with its store -/

open Lib in
/-- The transactions of the small chain, field by field. -/
def counterTrxPacking : Packing (SignedTransaction Nat) :=
  (Packing.nat.prod (Packing.nat.prod (Packing.nat.prod
    (Packing.nat.list.prod Packing.nat.list)))).ofLeftInverse
    (fun t => (t.refBlockNum, t.refBlockPrefix, t.expiration, t.operations, t.signatures))
    (fun (refBlockNum, refBlockPrefix, expiration, operations, signatures) =>
      ⟨⟨refBlockNum, refBlockPrefix, expiration, operations⟩, signatures⟩)
    (fun _ => rfl)

open Lib in
/-- The blocks of the small chain, field by field. -/
def counterBlockPacking : Packing (SignedBlock Nat) :=
  (Packing.nat.prod (Packing.nat.prod (Packing.nat.prod (Packing.nat.prod (Packing.nat.prod
    (Packing.nat.prod counterTrxPacking.list)))))).ofLeftInverse
    (fun b => (b.previous.num, b.previous.digest, b.timestamp, b.witness, b.transactionMerkleRoot,
      b.witnessSignature, b.transactions))
    (fun (num, digest, timestamp, witness, transactionMerkleRoot, witnessSignature, transactions) =>
      ⟨⟨⟨num, digest⟩, timestamp, witness, transactionMerkleRoot, witnessSignature⟩, transactions⟩)
    (fun _ => rfl)

def counterCodec : BlockCodec Nat where
  pack := counterBlockPacking.pack
  unpack bytes := (counterBlockPacking.unpack bytes).map Prod.fst
  unpack_pack b := by
    rw [counterBlockPacking.unpack_pack_nil]
    rfl
  unpack_nil := rfl

/-- The small chain opened at genesis, with empty files. -/
def counterNode (n : Nat) : Node Nat Nat := ⟨counterDatabase n, .empty⟩

theorem counterNode_opened (n : Nat) : (counterNode n).Opened counterRules counterCodec [] where
  opened := counterDatabase_opened n
  descends := rfl
  blocks _ _ h := by cases h
  capped _ _ := rfl
  holds := .empty

/-- A block, a rival branch that is refused for its first block, and one that is switched to. -/
def rivalries : List (SignedBlock Nat × SkipFlags) :=
  [payingBlock, unsignedBlock .zero 11, unsignedChild, rivalBlock, rivalChild].map (·, .nothing)

/-- The node after the first `n` of them. -/
def rivalNode (n : Nat) : Node Nat Nat :=
  (rivalries.take n).foldl (Node.pushBlock counterRules [] counterCodec) (counterNode 0)

theorem rivalNode_settled : SettledRun counterRules [] counterCodec (counterNode 0) rivalries := by
  refine ⟨.of_head (by decide +kernel), .of_head (by decide +kernel), ?_,
    .of_head (by decide +kernel), ?_, trivial⟩
  · have hbranches : Branches counterRules (rivalNode 2).db unsignedChild
        ⟨2, [counterItem 0 none payingBlock, counterItem 1 none (unsignedBlock .zero 11),
          counterItem 2 (some 1) unsignedChild], some (counterItem 2 (some 1) unsignedChild), 3⟩
        (counterItem 2 (some 1) unsignedChild)
        [counterItem 2 (some 1) unsignedChild, counterItem 1 none (unsignedBlock .zero 11)]
        [counterItem 0 none payingBlock] (counterDatabase 0).objects := by
      refine ⟨⟨rfl, rfl, ?_, ?_⟩, ?_, ?_, ?_, [(rivalNode 2).db.headObjects], [], rfl, ?_⟩ <;>
        decide +kernel
    have hfirst : [counterItem 2 (some 1) unsignedChild,
        counterItem 1 none (unsignedBlock .zero 11)].reverse = [] ++
          counterItem 1 none (unsignedBlock .zero 11) ::
            [counterItem 2 (some 1) unsignedChild] := rfl
    exact .backed hbranches rfl hfirst rfl (by decide +kernel) (by decide +kernel)
      (.inl Nat.one_pos) (by decide +kernel)
  · have hbranches : Branches counterRules (rivalNode 4).db rivalChild
        ⟨2, [counterItem 0 none payingBlock, counterItem 3 none rivalBlock,
          counterItem 4 (some 3) rivalChild], some (counterItem 4 (some 3) rivalChild), 5⟩
        (counterItem 4 (some 3) rivalChild)
        [counterItem 4 (some 3) rivalChild, counterItem 3 none rivalBlock]
        [counterItem 0 none payingBlock] (counterDatabase 0).objects := by
      refine ⟨⟨rfl, rfl, ?_, ?_⟩, ?_, ?_, ?_, [(rivalNode 4).db.headObjects], [], rfl, ?_⟩ <;>
        decide +kernel
    exact .switched hbranches (by decide +kernel)

/-- After a refused switch and one that succeeds, the last block of the store is the child of the
rival block. -/
theorem block_store_agrees_rivalries :
    (rivalNode 3).db.headObjects.headBlockId = counterRules.blockId payingBlock.toBlockHeader ∧
    (rivalNode 5).blocks.lastId counterRules counterCodec =
      some (counterRules.blockId rivalChild.toBlockHeader) := by
  have hlast := ((block_store_agrees counterRules [] counterCodec).2 [] (counterNode 0)
    (rivalNode 5) rivalries (counterNode_opened 0) (by simp [rivalries, SkipFlags.nothing]) rfl).2
    rivalNode_settled
  refine ⟨by decide +kernel, ?_⟩
  rw [hlast]
  decide +kernel

/-- The blocks of a failed switch at the genesis block: two blocks, and a longer branch whose third
block has a wrong merkle root. -/
def strandedBlocks : List (SignedBlock Nat) :=
  counterChain .zero [(10, 0), (20, 0)] ++ counterChain .zero [(11, 0), (21, 0)] ++
    ((counterChain .zero [(11, 0), (21, 0), (31, 0)]).drop 2).map fun b =>
      { b with transactionMerkleRoot := 7 }

def strandedNode : Node Nat Nat :=
  (strandedBlocks.map fun b => (b, SkipFlags.nothing)).foldl
    (Node.pushBlock counterRules [] counterCodec) (counterNode 9)

/-- The fork database does not know the genesis block, so that the blocks of the new branch cannot
all be popped: the head block is the first of them, and the store still has the second. -/
theorem stranded_last_block :
    (counterNode 9).Opened counterRules counterCodec [] ∧
      strandedNode.db.headObjects.headBlockNumber = 1 ∧
      strandedNode.blocks.lastId counterRules counterCodec ≠
        some strandedNode.db.headObjects.headBlockId := by
  refine ⟨counterNode_opened 9, ?_, ?_⟩
  · decide +kernel
  · decide +kernel

end Nestchain.Chain
