import Nestchain.Chain.Unwind

/-! When the fork database follows the chain.  Its head is the head block after a block that extends
the chain, that is not higher, or that is refused before the chain has changed.  It is not after a
block that is refused on top of the head block, which stays its head, and not after a fork switch,
whose pops take its head down the new branch. -/

namespace Nestchain.Chain

variable {ω ρ : Type} {r : Rules ω ρ} {cps : Checkpoints} {skip : SkipFlags}

/-- The head of the fork database is the head block, and its index holds that block.  At genesis the
fork database is empty. -/
inductive Follows (db : Database ω ρ) : Prop
  | head {h : ForkItem ω} (hhead : db.forkDb.head = some h)
      (hid : h.id = db.headObjects.headBlockId)
      (hindex : ∃ i ∈ db.forkDb.index, i.id = db.headObjects.headBlockId)
  | genesis (hhead : db.forkDb.head = none) (hindex : db.forkDb.index = [])
      (hid : db.headObjects.headBlockId = BlockId.zero)

/-- The head of the fork database is the head block, or the fork database is empty. -/
inductive Tracks (db : Database ω ρ) : Prop
  | head {h : ForkItem ω} (hhead : db.forkDb.head = some h)
      (hid : h.id = db.headObjects.headBlockId)
      (hindex : ∃ i ∈ db.forkDb.index, i.id = db.headObjects.headBlockId)
  | empty (hhead : db.forkDb.head = none) (hindex : db.forkDb.index = [])

theorem Follows.tracks {db : Database ω ρ} (h : Follows db) : Tracks db := by
  cases h with
  | head h1 h2 h3 => exact .head h1 h2 h3
  | genesis h1 h2 _ => exact .empty h1 h2

/-- The blocks after which the fork database still follows the chain. -/
inductive Harmless (r : Rules ω ρ) (cps : Checkpoints) (skip : SkipFlags) (db : Database ω ρ)
    (b : SignedBlock ω) : Prop
  | unlinked (hfork : db.forkDb.pushBlock r b = none)
  | low {h : ForkItem ω} (hhead : db.forkDb.head = some h) (hnum : b.blockNum ≤ h.num)
  | next (hprev : b.previous = db.headObjects.headBlockId)
      (happly : (r.applyBlock cps skip db.headObjects b).result ≠ none)
  /-- A fork switch whose first block throws, back to an old branch that applies again. -/
  | backed {f : ForkDatabase ω} {newHead : ForkItem ω} {first second : List (ForkItem ω)}
      {s : Objects ρ} (h : Branches r db b f newHead first second s)
      (hnext : newHead.data.blockNum = db.headObjects.headBlockNumber + 1)
      (hfail : ∀ i ∈ first.getLast?, (r.applyBlock cps skip s i.data).result = none)
      (hreplay : r.replay cps skip s (second.reverse.map ForkItem.data) = some db.headObjects)

/-- A run of calls, without `skip_fork_db`, whose blocks are harmless. -/
inductive HarmlessRun (r : Rules ω ρ) (cps : Checkpoints) (db0 : Database ω ρ) :
    Database ω ρ → Prop
  | start : HarmlessRun r cps db0 db0
  | block {db : Database ω ρ} {skip : SkipFlags} {b : SignedBlock ω}
      (h : HarmlessRun r cps db0 db) (hskip : skip.forkDb = false)
      (hb : Harmless r cps skip db b) : HarmlessRun r cps db0 (db.pushBlock r cps skip b).1
  | transaction {db : Database ω ρ} (h : HarmlessRun r cps db0 db) (skip : SkipFlags)
      (t : SignedTransaction ω) : HarmlessRun r cps db0 (db.pushTransaction r skip t).1

/-! ### Blocks in the fork database -/

section Fork

variable {f f' : ForkDatabase ω} {heap : List (ForkItem ω)} {b : SignedBlock ω}

theorem ForkDatabase.insert_index {item i : ForkItem ω} (hi : i ∈ f.index) :
    i ∈ (f.insert item).index := by
  unfold ForkDatabase.insert
  split
  · exact hi
  · exact List.mem_append_left _ hi

theorem ForkDatabase.insert_mem (item : ForkItem ω) :
    (∃ i ∈ (f.insert item).index, i.id = item.id) ∧
      (f.fetchBlock item.id = none → item ∈ (f.insert item).index) := by
  unfold ForkDatabase.insert
  split
  · rename_i hsome
    obtain ⟨i, hi⟩ := Option.isSome_iff_exists.mp hsome
    refine ⟨⟨i, ForkHeap.fetchBlock_mem hi⟩, fun hnone => ?_⟩
    rw [hnone] at hi
    cases hi
  · exact ⟨⟨item, by simp, rfl⟩, fun _ => by simp⟩

theorem ForkHeap.pushBlock_higher (h : ForkHeap r heap f) (hf : f.pushBlock r b = some f')
    (hhigher : ∀ x, f.head = some x → x.num < b.blockNum) :
    ∃ item, item.data = b ∧ item.id = r.blockId b.toBlockHeader ∧ f'.head = some item ∧
      (∃ i ∈ f'.index, i.id = r.blockId b.toBlockHeader) ∧
      (f.fetchBlock (r.blockId b.toBlockHeader) = none → item ∈ f'.index) := by
  unfold ForkDatabase.pushBlock at hf
  split at hf
  · obtain ⟨prev, -, rfl⟩ := Option.map_eq_some_iff.mp hf
    refine ⟨r.forkItem f.nextPtr prev b, rfl, rfl, ?_⟩
    obtain ⟨⟨i, hi, hid⟩, hnew⟩ := f.insert_mem (r.forkItem f.nextPtr prev b)
    unfold ForkDatabase.pushItem
    cases hhead : f.head with
    | none => exact ⟨rfl, ⟨i, hi, hid⟩, hnew⟩
    | some x =>
      simp only
      rw [if_pos (show (r.forkItem f.nextPtr prev b).num > x.num from hhigher x hhead)]
      -- The items of the block are not pruned.
      have hkeep : ∀ j ∈ (f.insert (r.forkItem f.nextPtr prev b)).index, j.num = b.blockNum →
          j ∈ (f.insert (r.forkItem f.nextPtr prev b)).index.filter fun i =>
            decide (b.blockNum - min f.maxSize b.blockNum ≤ i.num) := by
        intro j hj hnum
        exact List.mem_filter.mpr ⟨hj, by simp [hnum]⟩
      refine ⟨rfl, ⟨i, hkeep i hi ?_, hid⟩, fun hnone => hkeep _ (hnew hnone) rfl⟩
      have hnum : i.id.num = b.blockNum := by rw [hid]; rfl
      unfold ForkDatabase.insert at hi
      split at hi
      · rw [← hnum]
        exact (h.num (h.index i hi)).2.symm
      · rcases List.mem_append.mp hi with hi | hi
        · rw [← hnum]
          exact (h.num (h.index i hi)).2.symm
        · obtain rfl : i = r.forkItem f.nextPtr prev b := by simpa using hi
          rfl
  · cases hf

theorem ForkDatabase.pushBlock_low (hf : f.pushBlock r b = some f') {h : ForkItem ω}
    (hhead : f.head = some h) (hlow : b.blockNum ≤ h.num) :
    f'.head = some h ∧ ∀ i ∈ f.index, i ∈ f'.index := by
  unfold ForkDatabase.pushBlock at hf
  split at hf
  · obtain ⟨prev, -, rfl⟩ := Option.map_eq_some_iff.mp hf
    unfold ForkDatabase.pushItem
    rw [hhead]
    simp only
    rw [if_neg (show ¬(r.forkItem f.nextPtr prev b).num > h.num from Nat.not_lt.mpr hlow)]
    refine ⟨?_, fun i hi => ForkDatabase.insert_index hi⟩
    show (f.insert _).head = some h
    unfold ForkDatabase.insert
    split <;> exact hhead
  · cases hf

end Fork

/-! ### One call -/

section Step

variable {db : Database ω ρ} {b : SignedBlock ω}

theorem Follows.of_same {db' : Database ω ρ} (h : Follows db)
    (hobj : db'.headObjects = db.headObjects) (hfork : db'.forkDb = db.forkDb) : Follows db' := by
  cases h with
  | head h1 h2 h3 => exact .head (hfork ▸ h1) (hobj ▸ h2) (by rw [hobj, hfork]; exact h3)
  | genesis h1 h2 h3 => exact .genesis (hfork ▸ h1) (hfork ▸ h2) (hobj ▸ h3)

theorem Tracks.num (h : Tracks db) (hreg : Regular r cps db) {x : ForkItem ω}
    (hx : db.forkDb.head = some x) :
    x.id = db.headObjects.headBlockId ∧ x.num = db.headObjects.headBlockNumber := by
  obtain ⟨heap, hheap⟩ := hreg.heap
  cases h with
  | @head y h1 h2 h3 =>
    obtain rfl : y = x := Option.some.inj (h1.symm.trans hx)
    refine ⟨h2, ?_⟩
    rw [← (hheap.num (hheap.head y h1)).2, h2, hreg.spine.num _ List.mem_cons_self]
  | empty h1 h2 =>
    rw [h1] at hx
    cases hx

theorem Tracks.link (h : Tracks db) (hreg : Regular r cps db)
    (hprev : b.previous = db.headObjects.headBlockId) :
    (db.forkDb.pushBlock r b).isSome ∧
      ∀ x, db.forkDb.head = some x → x.num < b.blockNum := by
  have hnum : b.blockNum = db.headObjects.headBlockNumber + 1 := by
    rw [BlockHeader.blockNum, hprev, hreg.spine.num _ List.mem_cons_self]
  have hhigher : ∀ x, db.forkDb.head = some x → x.num < b.blockNum := by
    intro x hx
    have := (h.num hreg hx).2
    omega
  refine ⟨?_, hhigher⟩
  have hrange : db.forkDb.inRange b = true := by
    unfold ForkDatabase.inRange
    split
    · rename_i x hx
      have := hhigher x hx
      exact decide_eq_true (by omega)
    · rfl
  unfold ForkDatabase.pushBlock
  rw [if_pos hrange, Option.isSome_map]
  unfold ForkDatabase.link
  split
  · cases h with
    | head h1 h2 h3 =>
      obtain ⟨i, hi, hid⟩ := h3
      rw [Option.isSome_map, ForkDatabase.fetchBlock, List.find?_isSome]
      exact ⟨i, hi, by simpa [hprev] using hid⟩
    | empty h1 h2 =>
      rename_i hcond
      rw [h1] at hcond
      simp at hcond
  · rfl

theorem Tracks.next (h : Tracks db) (hreg : Regular r cps db) (hskip : skip.forkDb = false)
    (hprev : b.previous = db.headObjects.headBlockId) {s : Objects ρ}
    (happly : (r.applyBlock cps skip db.headObjects b).result = some s) :
    (db.clearPending.pushBlockBody r cps skip b).2 = some false ∧
      (db.clearPending.pushBlockBody r cps skip b).1.objects = s ∧
      (db.clearPending.pushBlockBody r cps skip b).1.blockIdToBlock =
        Function.update db.blockIdToBlock b.blockNum (some (r.blockId b.toBlockHeader, b)) ∧
      (db.clearPending.pushBlockBody r cps skip b).1.poppedTx = db.poppedTx ∧
      ∃ x, (db.clearPending.pushBlockBody r cps skip b).1.forkDb.head = some x ∧
        x.id = r.blockId b.toBlockHeader ∧
        ∃ i ∈ (db.clearPending.pushBlockBody r cps skip b).1.forkDb.index,
          i.id = r.blockId b.toBlockHeader := by
  obtain ⟨hidle, hobj, -, -, hfork, hblocks, hpopped⟩ := hreg.toConsistent.clearPending
  obtain ⟨heap, hheap⟩ := hreg.heap
  obtain ⟨hsome, hhigher⟩ := h.link hreg hprev
  obtain ⟨f, hf⟩ := Option.isSome_iff_exists.mp hsome
  obtain ⟨item, hdata, hid, hhead, ⟨i, hi, hiid⟩, -⟩ := hheap.pushBlock_higher hf hhigher
  obtain ⟨item', -, -, hheap'⟩ := hheap.pushBlock hf
  have hprev' : item.data.previous = db.clearPending.headBlockId := by
    rw [hdata, hprev]
    exact (congrArg Objects.headBlockId hobj).symm
  rw [Database.pushBlockBody_direct hskip (hfork ▸ hf) hhead hprev']
  unfold Database.pushDirect
  have hspec := Database.applyAndCommit_spec { db.clearPending with forkDb := f } r cps skip b
  generalize Database.applyAndCommit r cps skip _ b = res at hspec
  obtain ⟨db', ok⟩ := res
  rcases hspec with ⟨hok, hb⟩ | ⟨-, hb⟩
  · simp only at hok
    subst hok
    have hs : (r.applyBlock cps skip db.clearPending.objects b).result = some db'.objects :=
      hb.applied
    rw [hobj, happly] at hs
    refine ⟨rfl, (Option.some.inj hs).symm, ?_, hb.poppedTx.trans hpopped, item,
      hb.forkHead.trans hhead, hid, i, ?_, hiid⟩
    · rw [← hblocks]
      exact hb.blocks
    refine hb.forkKept i hi fun x hx => ?_
    obtain rfl : item = x := Option.some.inj (hhead.symm.trans hx)
    rw [← (hheap'.num (hheap'.head _ hhead)).2, ← (hheap'.num (hheap'.index i hi)).2, hid, hiid]
  · have hs : (r.applyBlock cps skip db.clearPending.objects b).result = none := hb.thrown
    rw [hobj, happly] at hs
    cases hs

theorem ForkHeap.chain_unique {f : ForkDatabase ω} {heap : List (ForkItem ω)}
    (h : ForkHeap r heap f) {i : ForkItem ω} {l l' : List (ForkItem ω)}
    (hl : (i :: l).IsChain fun i p => i.prev = some p.ptr)
    (hl' : (i :: l').IsChain fun i p => i.prev = some p.ptr)
    (hmem : ∀ x ∈ l ++ l', x ∈ heap) (hlen : l.length = l'.length) : l = l' := by
  induction l generalizing i l' with
  | nil => exact (List.length_eq_zero_iff.mp hlen.symm).symm
  | cons p l ih =>
    cases l' with
    | nil => simp at hlen
    | cons q l' =>
      obtain ⟨hp, hl⟩ := List.isChain_cons_cons.mp hl
      obtain ⟨hq, hl'⟩ := List.isChain_cons_cons.mp hl'
      obtain rfl : p = q := h.unique p (hmem p (by simp)) q (hmem q (by simp))
        (Option.some.inj (hp.symm.trans hq))
      rw [ih hl hl' (fun x hx => hmem x ?_) (by simpa using hlen)]
      rcases List.mem_append.mp hx with hx | hx <;> simp [hx]

theorem SwitchReady.disjoint {heap first second : List (ForkItem ω)} {s s' : Objects ρ}
    {y : ForkItem ω} (hr : SwitchReady r heap db first second s)
    (hlen : first.length = second.length + 1)
    (hfail : ∀ i ∈ first.getLast?, (r.applyBlock cps skip s i.data).result = none)
    (hreplay : r.replay cps skip s (second.reverse.map ForkItem.data) = some s')
    (hy : second.head? = some y) : ∀ j ∈ first, y.id ≠ j.id := by
  intro j hj hid
  obtain ⟨tip, hnew⟩ := hr.newBranch
  obtain ⟨ys, rfl⟩ : ∃ ys, second = y :: ys := by
    cases second with
    | nil => cases hy
    | cons z ys => exact ⟨ys, by cases hy; rfl⟩
  obtain ⟨n, m, rest, rfl⟩ : ∃ n m rest, first = n :: m :: rest := by
    cases first with
    | nil => simp at hlen
    | cons n l =>
      cases l with
      | nil => simp at hlen
      | cons m rest => exact ⟨n, m, rest, rfl⟩
  obtain ⟨hm, hprev⟩ := hnew.cons
  have hnnum := hnew.length.1
  have hmnum := hm.length.1
  have hynum := hr.oldBranch.length.1
  have hyid : y.id = db.headBlockId := Option.some.inj hr.oldBranch.tip
  have hnid : n.id = tip := Option.some.inj hnew.tip
  simp only [List.length_cons] at hlen hnnum hmnum hynum
  -- By the numbers, the common block is the parent of the tip.
  obtain rfl : j = m := by
    rcases List.mem_cons.mp hj with rfl | hj
    · have hnum := congrArg BlockId.num (hyid.symm.trans (hid.trans hnid))
      omega
    rcases List.mem_cons.mp hj with rfl | hj
    · rfl
    · cases rest with
      | nil => cases hj
      | cons k rest =>
        have hk := hm.cons.1.bounded j hj
        rw [← hid, hyid] at hk
        simp only [List.length_cons] at hk hlen hmnum
        omega
  have hsame : j = y := hr.forkHeap.ids j (hr.index j (by simp)) y (hr.index y (by simp)) hid.symm
  subst hsame
  obtain rfl : rest = ys := hr.forkHeap.chain_unique (List.isChain_cons_cons.mp hr.linked).2
    hr.oldLinked (fun x hx => hr.held x (by
      rcases List.mem_append.mp hx with hx | hx <;> simp [hx])) (by omega)
  obtain ⟨bottom, hbottom⟩ : ∃ i, (j :: rest).getLast? = some i :=
    ⟨_, List.getLast?_eq_some_getLast (by simp)⟩
  have hthrow := hfail bottom (by rw [List.getLast?_cons_cons]; exact hbottom)
  obtain ⟨l, hl⟩ : ∃ l, (j :: rest).reverse = bottom :: l := by
    rw [← List.head?_reverse] at hbottom
    exact List.head?_eq_some_iff.mp hbottom
  rw [hl, List.map_cons, Rules.replay, hthrow] at hreplay
  cases hreplay

theorem Follows.backed {f : ForkDatabase ω} {newHead : ForkItem ω}
    {first second : List (ForkItem ω)} {s : Objects ρ} (hreg : Regular r cps db)
    (hskip : skip.forkDb = false) (h : Branches r db b f newHead first second s)
    (hnext : newHead.data.blockNum = db.headObjects.headBlockNumber + 1)
    (hfail : ∀ i ∈ first.getLast?, (r.applyBlock cps skip s i.data).result = none)
    (hreplay : r.replay cps skip s (second.reverse.map ForkItem.data) = some db.headObjects) :
    (db.clearPending.pushBlockBody r cps skip b).1.objects = db.headObjects ∧
      ∃ x, (db.clearPending.pushBlockBody r cps skip b).1.forkDb.head = some x ∧
        x.id = db.headObjects.headBlockId ∧
        x ∈ (db.clearPending.pushBlockBody r cps skip b).1.forkDb.index := by
  obtain ⟨hidle, hobj, -, -, hfork, -, -⟩ := hreg.toConsistent.clearPending
  obtain ⟨heap, hheap⟩ := hreg.heap
  obtain ⟨item, -, -, hheap'⟩ := hheap.pushBlock h.fork
  have hid : db.clearPending.headBlockId = db.headObjects.headBlockId :=
    congrArg Objects.headBlockId hobj
  have hnum : db.clearPending.headBlockNum = db.headObjects.headBlockNumber :=
    congrArg Objects.headBlockNumber hobj
  have hr := h.ready hreg hheap'
  obtain ⟨db', hswitch, h1, h2, -, h3, -⟩ := hr.backed (hidle.withForkDb f) hfail
    (by rw [hreplay]; exact congrArg some hobj.symm)
  rw [Database.pushBlockBody_diverged hskip (hfork ▸ h.fork) h.head (hid ▸ h.previous)
    (hnum ▸ h.num), hid, h.fetch]
  simp only [hswitch]
  obtain ⟨y, hy, hyid⟩ := Option.map_eq_some_iff.mp hr.oldBranch.tip
  replace hyid : y.id = db.headObjects.headBlockId := hyid.trans hid
  have hymem : y ∈ second := List.mem_of_mem_head? hy
  have hyheap := hr.held y (List.mem_append_right _ hymem)
  -- The new branch is one block longer.
  obtain ⟨hfirst, hsecond⟩ : newHead.id.num = s.headBlockId.num + first.length ∧
      db.headObjects.headBlockId.num = s.headBlockId.num + second.length := by
    obtain ⟨ancestor, hl, hl'⟩ := fetchBranchFrom_leadsTo hheap' h.fetch
    obtain rfl : ancestor = s.headBlockId :=
      Option.some.inj (hl'.last.symm.trans h.ancestor)
    exact ⟨hl.length.1, hl'.length.1⟩
  have hheadNum : db.headObjects.headBlockId.num = db.headObjects.headBlockNumber :=
    hreg.spine.num _ List.mem_cons_self
  obtain ⟨hnewNum, hnewId⟩ := hheap'.num (hheap'.head _ h.head)
  have hlen : first.length = second.length + 1 := by omega
  refine ⟨h1.trans hobj, y, h2.trans hy, hyid, h3 y ?_ ?_ ?_ ?_⟩
  · exact hr.index y (List.mem_append_right _ hymem)
  · exact hr.disjoint hlen hfail hreplay hy
  · intro j hj
    obtain ⟨tip, hnew⟩ := hr.newBranch
    have hlast := hnew.last
    rw [List.getLast?_eq_getElem?, hlen, Nat.add_sub_cancel, hj] at hlast
    have hjnum := (hheap'.num (hr.held j (List.mem_append_left _ (List.mem_of_getElem? hj)))).1
    have hynum := (hheap'.num hyheap).2
    have hprev : j.data.previous = s.headBlockId := Option.some.inj hlast
    rw [hjnum, BlockHeader.blockNum, hprev, ← hynum, hyid, hsecond]
    have : 0 < second.length := List.length_pos_of_mem hymem
    omega
  · intro j hj
    obtain rfl : y = j := Option.some.inj (hy.symm.trans hj)
    exact le_rfl

theorem Follows.block (h : Follows db) (hreg : Regular r cps db) (hskip : skip.forkDb = false)
    (hb : Harmless r cps skip db b) : Follows (db.pushBlock r cps skip b).1 := by
  obtain ⟨hidle, hobj, -, -, hfork, -, -⟩ := hreg.toConsistent.clearPending
  obtain ⟨heap, hheap⟩ := hreg.heap
  obtain ⟨hmid, -⟩ := Database.pushBlockBody_idle hidle (hfork ▸ hheap) skip b
  obtain ⟨-, hkept, -⟩ := Database.restorePending_kept hmid skip db.pendingTx
  have hid : db.clearPending.headBlockId = db.headObjects.headBlockId :=
    congrArg Objects.headBlockId hobj
  have hnum : db.clearPending.headBlockNum = db.headObjects.headBlockNumber :=
    congrArg Objects.headBlockNumber hobj
  refine Follows.of_same ?_ hkept.headObjects hkept.forkDb
  have hunlinked : db.forkDb.pushBlock r b = none →
      Follows (db.clearPending.pushBlockBody r cps skip b).1 := by
    intro hnone
    have heq : db.clearPending.pushBlockBody r cps skip b = (db.clearPending, none) := by
      unfold Database.pushBlockBody
      simp [hskip, hfork, hnone]
    rw [heq]
    exact h.of_same (hidle.headObjects.trans hobj) hfork
  cases hb with
  | unlinked hnone => exact hunlinked hnone
  | @low x hhead hlow =>
    cases hf : db.forkDb.pushBlock r b with
    | none => exact hunlinked hf
    | some f =>
      obtain ⟨hhead', hindex⟩ := ForkDatabase.pushBlock_low hf hhead hlow
      obtain ⟨hxid, hxnum⟩ := h.tracks.num hreg hhead
      obtain ⟨hdata, hxid'⟩ := hheap.num (hheap.head x hhead)
      have hprev : x.data.previous ≠ db.headObjects.headBlockId := by
        intro heq
        have := congrArg BlockId.num (heq.trans hxid.symm)
        rw [hxid', hdata, BlockHeader.blockNum] at this
        omega
      rw [Database.pushBlockBody_kept hskip (hfork ▸ hf) hhead' (hid ▸ hprev)
        (by rw [hnum, ← hdata, hxnum])]
      have hobj' : ({ db.clearPending with forkDb := f } : Database ω ρ).headObjects =
          db.headObjects := (hidle.withForkDb f).headObjects.trans hobj
      cases h with
      | head h1 h2 h3 =>
        obtain ⟨i, hi, hiid⟩ := h3
        exact .head hhead' (by rw [hobj', hxid]) ⟨i, hindex i hi, by rw [hobj', hiid]⟩
      | genesis h1 h2 h3 =>
        rw [h1] at hhead
        cases hhead
  | next hprev happly =>
    obtain ⟨s, hs⟩ := Option.ne_none_iff_exists'.mp happly
    obtain ⟨-, hsobj, -, -, x, hx, hxid, i, hi, hiid⟩ := h.tracks.next hreg hskip hprev hs
    have hheadId : (db.clearPending.pushBlockBody r cps skip b).1.headObjects.headBlockId =
        r.blockId b.toBlockHeader := by
      rw [hmid.headObjects, hsobj]
      exact (Rules.applyBlock_applied hs).headBlockId
    exact .head hx (hxid.trans hheadId.symm) ⟨i, hi, hiid.trans hheadId.symm⟩
  | backed hbr hnext hfail hreplay =>
    obtain ⟨hobj', x, hx, hxid, hmem⟩ := Follows.backed hreg hskip hbr hnext hfail hreplay
    have hheadObj := hmid.headObjects.trans hobj'
    exact .head hx (by rw [hheadObj]; exact hxid) ⟨x, hmem, by rw [hheadObj]; exact hxid⟩

end Step

/-! ### Whole runs -/

theorem HarmlessRun.reachable {db0 db : Database ω ρ} (h0 : Reachable r cps db0)
    (h : HarmlessRun r cps db0 db) : Reachable r cps db := by
  induction h with
  | start => exact h0
  | block _ _ _ ih => exact ih.call (.pushBlock _ _)
  | transaction _ skip t ih => exact ih.call (.pushTransaction t skip)

theorem HarmlessRun.follows {db0 db : Database ω ρ} (h0 : Reachable r cps db0) (hf : Follows db0)
    (h : HarmlessRun r cps db0 db) : Follows db := by
  induction h with
  | start => exact hf
  | block hrun hskip hb ih => exact ih.block (hrun.reachable h0).regular hskip hb
  | transaction hrun skip t ih =>
    obtain ⟨hs, -⟩ := Database.pushTransaction_spec (hrun.reachable h0).regular.toConsistent skip t
    exact ih.of_same hs.headObjects hs.forkDb

/-- In a run of harmless blocks, from a database whose fork database is at the head block, the fork
database is at the head block after every call.  A valid block that follows the head block is then
applied, and a valid branch that is longer than the chain is switched to. -/
theorem fork_database_follows_chain {db0 db : Database ω ρ} (h0 : Reachable r cps db0)
    (hf : Follows db0) (hrun : HarmlessRun r cps db0 db) :
    Follows db ∧
    (∀ skip b, skip.forkDb = false → b.previous = db.headObjects.headBlockId →
      (r.applyBlock cps skip db.headObjects b).result ≠ none →
      (db.pushBlock r cps skip b).2 = some false ∧
        (db.pushBlock r cps skip b).1.headObjects.headBlockId = r.blockId b.toBlockHeader) ∧
    (∀ skip b f first second s s', skip.forkDb = false → db.forkDb.pushBlock r b = some f →
      b.previous ≠ db.headObjects.headBlockId →
      db.headObjects.headBlockNumber < b.blockNum →
      db.forkDb.fetchBlock (r.blockId b.toBlockHeader) = none →
      f.fetchBranchFrom (r.blockId b.toBlockHeader) db.headObjects.headBlockId =
        some (first, second) →
      second.getLast?.map (fun i => i.data.previous) = some s.headBlockId →
      UndoneTo (db.headObjects :: db.committed) second s →
      r.replay cps skip s (first.reverse.map ForkItem.data) = some s' →
      (db.pushBlock r cps skip b).2 = some true ∧
        (db.pushBlock r cps skip b).1.headObjects = s') := by
  have hreg := (hrun.reachable h0).regular
  have hfollows := hrun.follows h0 hf
  obtain ⟨hidle, hobj, -, -, hfork, -, -⟩ := hreg.toConsistent.clearPending
  obtain ⟨heap, hheap⟩ := hreg.heap
  have hafter : ∀ skip b, (db.pushBlock r cps skip b).1.headObjects =
      (db.clearPending.pushBlockBody r cps skip b).1.objects := by
    intro skip b
    obtain ⟨hmid, -⟩ := Database.pushBlockBody_idle hidle (hfork ▸ hheap) skip b
    obtain ⟨-, hkept, -⟩ := Database.restorePending_kept hmid skip db.pendingTx
    exact hkept.headObjects.trans hmid.headObjects
  refine ⟨hfollows, fun skip b hskip hprev happly => ?_, ?_⟩
  · obtain ⟨s, hs⟩ := Option.ne_none_iff_exists'.mp happly
    obtain ⟨h1, h2, -⟩ := hfollows.tracks.next hreg hskip hprev hs
    refine ⟨h1, ?_⟩
    rw [hafter, h2]
    exact (Rules.applyBlock_applied hs).headBlockId
  · intro skip b f first second s s' hskip hpush hprev hnum hnew hfetch hancestor hstates hreplay
    obtain ⟨item, hdata, hid, hhead, -, hindex⟩ := hheap.pushBlock_higher hpush fun x hx => by
      rw [(hfollows.tracks.num hreg hx).2]
      exact hnum
    obtain ⟨item', -, -, hheap'⟩ := hheap.pushBlock hpush
    have hbr : Branches r db b f item first second s :=
      ⟨⟨hpush, hhead, hdata ▸ hprev, hdata ▸ hnum⟩, hid ▸ hfetch, hindex hnew, hancestor, hstates⟩
    obtain ⟨db', hswitch, hs'⟩ := (hbr.ready hreg hheap').switched (hidle.withForkDb f) hreplay
    have hheadId : db.clearPending.headBlockId = db.headObjects.headBlockId :=
      congrArg Objects.headBlockId hobj
    have hheadNum : db.clearPending.headBlockNum = db.headObjects.headBlockNumber :=
      congrArg Objects.headBlockNumber hobj
    have hbody : db.clearPending.pushBlockBody r cps skip b = (db', some true) := by
      rw [Database.pushBlockBody_diverged hskip (hfork ▸ hpush) hhead (hheadId ▸ hbr.previous)
        (hheadNum ▸ hbr.num), hheadId, hbr.fetch]
      exact hswitch
    refine ⟨congrArg Prod.snd hbody, ?_⟩
    rw [hafter, hbody]
    exact hs'

theorem counterDatabase_follows (n : Nat) : Follows (counterDatabase n) := .genesis rfl rfl rfl

def oneBlockDatabase : Database Nat Nat :=
  ((counterDatabase 0).pushBlock counterRules [] .nothing (counterBlock .zero 10 0 [])).1

theorem oneBlockDatabase_run : HarmlessRun counterRules []
    (counterDatabase 0) oneBlockDatabase := by
  refine .block .start rfl (.next rfl ?_)
  decide +kernel

/-- The small chain after a switch that fails. -/
def refusedDatabase : Database Nat Nat :=
  (unsignedDatabase.pushBlock counterRules [] skipTapos unsignedChild).1

theorem refusedDatabase_run : HarmlessRun counterRules [] (counterDatabase 0) refusedDatabase := by
  have hpaying : HarmlessRun counterRules [] (counterDatabase 0)
      ((counterDatabase 0).pushBlock counterRules [] .nothing payingBlock).1 :=
    .block .start rfl (.next rfl (by decide +kernel))
  have hlow : Harmless counterRules [] .nothing ((counterDatabase 0).calls counterRules []
      [.pushBlock payingBlock .nothing, .pushTransaction (counterTrx 20 [2]) skipTapos])
      (unsignedBlock .zero 11) := .low rfl (by decide +kernel)
  have hunsigned : HarmlessRun counterRules [] (counterDatabase 0) unsignedDatabase :=
    (hpaying.transaction skipTapos (counterTrx 20 [2])).block rfl hlow
  exact hunsigned.block rfl (.backed unsignedDatabase_branches rfl (by decide +kernel) (by rfl))

/-- A second block is applied after a rival branch was refused. -/
theorem fork_database_follows_chain_second :
    (unsignedDatabase.pushBlock counterRules [] skipTapos unsignedChild).2 = none ∧
    (refusedDatabase.pushBlock counterRules [] .nothing (counterBlock
      (counterRules.blockId payingBlock.toBlockHeader) 20 0 [])).2 = some false := by
  have hrefused :
      (unsignedDatabase.pushBlock counterRules [] skipTapos unsignedChild).2 = none := by
    decide +kernel
  refine ⟨hrefused, ((fork_database_follows_chain (.opened (counterDatabase_opened 0))
    (counterDatabase_follows 0) refusedDatabase_run).2.1 .nothing _ rfl ?_ ?_).1⟩
  · decide +kernel
  · decide +kernel

/-- After a fork switch the head of the fork database is below the head block, and after an invalid
block it is above it. -/
theorem fork_database_leaves_chain :
    Follows oneBlockDatabase ∧ oneBlockDatabase.forkDb.head.isSome ∧
      ¬Follows (oneBlockDatabase.calls counterRules []
        [.pushBlock rivalBlock .nothing, .pushBlock rivalChild .nothing]) ∧
      ¬Follows (oneBlockDatabase.calls counterRules []
        [.pushBlock (unsignedBlock
          (counterRules.blockId (counterBlock .zero 10 0 []).toBlockHeader) 20) .nothing]) := by
  -- Where the head of the fork database has another id than the head block it does not follow.
  have hleft : ∀ db : Database Nat Nat, (db.forkDb.head.map ForkItem.id).all
      (· ≠ db.headObjects.headBlockId) = true → db.forkDb.head.isSome = true → ¬Follows db := by
    intro db hne hsome h
    cases h with
    | head h1 h2 _ => simp [h1, h2] at hne
    | genesis h1 _ _ => simp [h1] at hsome
  refine ⟨?_, ?_, hleft _ ?_ ?_, hleft _ ?_ ?_⟩
  · exact oneBlockDatabase_run.follows (.opened (counterDatabase_opened 0))
      (counterDatabase_follows 0)
  all_goals decide +kernel

end Nestchain.Chain
