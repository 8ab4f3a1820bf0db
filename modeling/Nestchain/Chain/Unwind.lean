import Nestchain.Chain.Pending
import Nestchain.Chain.Switch

/-! What `push_block` leaves when it throws.  A block that is refused by the fork database, or at
the very start of the new branch in a fork switch, leaves the chain and the fork database's head as
they were.  A block that is refused on top of the head block stays the fork database's head. -/

namespace Nestchain.Chain

open Nestchain.Lib

variable {ω ρ : Type} {r : Rules ω ρ} {cps : Checkpoints} {skip : SkipFlags}

/-! ### Branches that can be popped -/

theorem LeadsTo.cons {tip ancestor : BlockId} {i j : ForkItem ω} {l : List (ForkItem ω)}
    (h : LeadsTo r tip ancestor (i :: j :: l)) :
    LeadsTo r j.id ancestor (j :: l) ∧ i.data.previous = j.id := by
  obtain ⟨⟨hid, -⟩, hlinked⟩ := List.isChain_cons_cons.mp h.linked
  refine ⟨⟨hlinked, rfl, ?_, fun x hx => h.ids x (List.mem_cons_of_mem _ hx)⟩, hid.symm⟩
  rw [← h.last, List.getLast?_cons_cons]

theorem LeadsTo.length {tip ancestor : BlockId} {l : List (ForkItem ω)}
    (h : LeadsTo r tip ancestor l) :
    tip.num = ancestor.num + l.length ∧ ∀ i ∈ l, ancestor.num < i.id.num := by
  induction l generalizing tip with
  | nil => cases h.tip
  | cons i l ih =>
    obtain rfl : i.id = tip := Option.some.inj h.tip
    have hnum : i.id.num = i.data.previous.num + 1 := by rw [h.ids i List.mem_cons_self]; rfl
    cases l with
    | nil =>
      have hlast : i.data.previous = ancestor := Option.some.inj h.last
      rw [hlast] at hnum
      simp [hnum]
    | cons j l =>
      obtain ⟨htail, hprev⟩ := h.cons
      obtain ⟨hlen, hlt⟩ := ih htail
      rw [hprev, hlen] at hnum
      simp only [List.length_cons] at hnum ⊢
      refine ⟨by omega, fun x hx => ?_⟩
      rcases List.mem_cons.mp hx with rfl | hx
      · omega
      · exact hlt x hx

theorem LeadsTo.bounded {tip ancestor : BlockId} {l : List (ForkItem ω)}
    (h : LeadsTo r tip ancestor l) : ∀ i ∈ l, i.id.num ≤ ancestor.num + l.length := by
  induction l generalizing tip with
  | nil => simp
  | cons i l ih =>
    intro x hx
    rcases List.mem_cons.mp hx with rfl | hx
    · rw [show x.id = tip from Option.some.inj h.tip, h.length.1]
    · cases l with
      | nil => cases hx
      | cons j l =>
        have := ih h.cons.1 x hx
        simp only [List.length_cons] at this ⊢
        omega

theorem Walk.linked {f : ForkDatabase ω} {heap : List (ForkItem ω)} (h : ForkHeap r heap f)
    {a last : ForkItem ω} {l : List (ForkItem ω)} (hw : Walk f a l last) (ha : a ∈ heap) :
    (l ++ [last]).IsChain fun i p => i.prev = some p.ptr := by
  induction hw with
  | here a => exact List.isChain_singleton a
  | @up a p last l hp hw ih =>
    obtain ⟨hpmem, hprev, -, -⟩ := h.lock (by simp) ha hp
    refine List.isChain_cons.mpr ⟨fun y hy => ?_, ih hpmem⟩
    obtain rfl : p = y := Option.some.inj ((hw.branch h hpmem).2.2.symm.trans hy)
    exact hprev

theorem Walk.mem_index {f : ForkDatabase ω} {heap : List (ForkItem ω)} (h : ForkHeap r heap f)
    {a last : ForkItem ω} {l : List (ForkItem ω)} (hw : Walk f a l last) (ha : a ∈ f.index)
    (hnum : ∀ x, f.head = some x → a.num ≤ x.num) : ∀ i ∈ l ++ [last], i ∈ f.index := by
  induction hw with
  | here a => simpa using ha
  | @up a p last l hp hw ih =>
    obtain ⟨-, -, -, hlt⟩ := h.lock (by simp) (h.index a ha) hp
    obtain ⟨q, hq, hfind⟩ := Option.bind_eq_some_iff.mp hp
    have hmem := List.mem_of_find?_eq_some hfind
    have hindex : p ∈ f.index := by
      simp only [List.append_nil, List.mem_append, Option.mem_toList] at hmem
      refine hmem.resolve_right fun hx => ?_
      have := hnum p hx
      omega
    intro i hi
    rcases List.mem_cons.mp hi with rfl | hi
    · exact ha
    · exact ih hindex (fun x hx => by have := hnum x hx; omega) i hi

/-- The undo history holds the states of the blocks of the branch `second`, which ends at the head
block, and below them the state `s`. -/
def UndoneTo (states : List (Objects ρ)) (second : List (ForkItem ω)) (s : Objects ρ) : Prop :=
  ∃ above below, states = above ++ s :: below ∧
    above.map Objects.headBlockId = second.map ForkItem.id

/-- A fork switch that can go back to the state `s`: the branches meet at its head block, and the
first is longer and starts at the head of the fork database. -/
structure SwitchReady (r : Rules ω ρ) (heap : List (ForkItem ω)) (db : Database ω ρ)
    (first second : List (ForkItem ω)) (s : Objects ρ) : Prop where
  forkHeap : ForkHeap r heap db.forkDb
  held : ∀ i ∈ first ++ second, i ∈ heap
  head : db.forkDb.head = first.head?
  newBranch : ∃ tip, LeadsTo r tip s.headBlockId first
  oldBranch : LeadsTo r db.headBlockId s.headBlockId second
  linked : first.IsChain fun i p => i.prev = some p.ptr
  oldLinked : second.IsChain fun i p => i.prev = some p.ptr
  index : ∀ i ∈ first ++ second, i ∈ db.forkDb.index
  longer : second.length < first.length
  states : UndoneTo (db.objects :: db.undoDb.saved) second s

theorem fetchBranchFrom_ready {db : Database ω ρ} {heap : List (ForkItem ω)} {newHead : ForkItem ω}
    {first second : List (ForkItem ω)} {last : ForkItem ω} {s : Objects ρ} (h : Idle r cps db)
    (hheap : ForkHeap r heap db.forkDb) (hhead : db.forkDb.head = some newHead)
    (hindex : newHead ∈ db.forkDb.index) (hnum : db.headBlockNum < newHead.data.blockNum)
    (hfetch : db.forkDb.fetchBranchFrom newHead.id db.headBlockId = some (first, second))
    (hlast : second.getLast? = some last) (hs : s.headBlockId = last.data.previous)
    (hstates : UndoneTo (db.objects :: db.undoDb.saved) second s) :
    SwitchReady r heap db first second s := by
  obtain ⟨ancestor, hfirst, hsecond⟩ := fetchBranchFrom_leadsTo hheap hfetch
  have hancestor := hsecond.last
  rw [hlast] at hancestor
  obtain rfl : s.headBlockId = ancestor := hs.trans (Option.some.inj hancestor)
  obtain ⟨hnewNum, hnewId⟩ := hheap.num (hheap.head _ hhead)
  have hheadNum : db.headBlockId.num = db.headBlockNum := h.spine.num _ List.mem_cons_self
  have hlen := hfirst.length.1
  have hlen' := hsecond.length.1
  obtain ⟨x, y, x', y', m, m', hx, hy, hw, hw', rfl, rfl, -, -⟩ :=
    fetchBranchFrom_branches hheap hfetch
  obtain rfl : newHead = x := Option.some.inj ((hheap.fetchBlock_eq hindex).symm.trans hx)
  obtain ⟨hyi, hyid⟩ := ForkHeap.fetchBlock_mem hy
  have hfront := (hw.branch hheap (hheap.head _ hhead)).2.2
  refine ⟨hheap, fetchBranchFrom_mem hheap hfetch, hhead.trans hfront.symm, ⟨_, hfirst⟩, hsecond,
    hw.linked hheap (hheap.head _ hhead), hw'.linked hheap (hheap.index y hyi), ?_, by omega,
    hstates⟩
  intro i hi
  rcases List.mem_append.mp hi with hi | hi
  · refine hw.mem_index hheap hindex (fun z hz => ?_) i hi
    obtain rfl : newHead = z := Option.some.inj (hhead.symm.trans hz)
    exact le_rfl
  · refine hw'.mem_index hheap hyi (fun z hz => ?_) i hi
    obtain rfl : newHead = z := Option.some.inj (hhead.symm.trans hz)
    have := (hheap.num (hheap.index y hyi)).2
    rw [hyid] at this
    omega

/-! ### The pops -/

theorem Database.popBlock_eq {db : Database ω ρ} {held : List (ForkItem ω)} {b : SignedBlock ω}
    {f : ForkDatabase ω} {s : Objects ρ} {l : List (Objects ρ)} (h : Idle r cps db)
    (hb : db.fetchBlockById db.headBlockId = some b) (hf : db.forkDb.popBlock held = some f)
    (hs : db.undoDb.saved = s :: l) :
    db.popBlock held =
      ({ db with
        forkDb := f
        undoDb := { db.undoDb with current := s, saved := l }
        poppedTx := b.transactions ++ db.poppedTx }, true) := by
  unfold Database.popBlock
  rw [h.reset]
  simp only [hb, hf, SnapshotStack.popCommit, h.active, hs, if_true]

theorem ForkHeap.popBlock_eq {f : ForkDatabase ω} {heap held : List (ForkItem ω)}
    (h : ForkHeap r heap f) (hheld : ∀ i ∈ held, i ∈ heap) {a p : ForkItem ω}
    (ha : f.head = some a) (hp : p ∈ held) (hprev : a.prev = some p.ptr) :
    f.popBlock held = some (f.setHead (some p)) := by
  unfold ForkDatabase.popBlock
  rw [ha]
  show (f.lock held a.prev).bind _ = _
  rw [h.lock_eq hheld (Or.inr (Or.inr hp)) hprev]
  rfl

/-- Popping the blocks of the branch `second` while the head of the fork database goes down along
`a :: chain`. -/
theorem Database.popUntil_branch {heap held second chain : List (ForkItem ω)} {a : ForkItem ω}
    {above below : List (Objects ρ)} {s : Objects ρ} {db : Database ω ρ} {fuel : Nat}
    (h : Idle r cps db) (hheap : ForkHeap r heap db.forkDb) (hheld : ∀ i ∈ held, i ∈ heap)
    (hhead : db.forkDb.head = some a)
    (hstates : db.objects :: db.undoDb.saved = above ++ s :: below)
    (hids : above.map Objects.headBlockId = second.map ForkItem.id)
    (hindex : ∀ i ∈ second, i ∈ db.forkDb.index) (hne : ∀ i ∈ second, i.id ≠ s.headBlockId)
    (hchain : (a :: chain).IsChain fun i p => i.prev = some p.ptr)
    (hmem : ∀ p ∈ chain, p ∈ held) (hlen : second.length ≤ chain.length)
    (hfuel : second.length < fuel) :
    ∃ db', popUntil held s.headBlockId fuel db = (db', true) ∧ db'.objects = s ∧
      db'.forkDb = db.forkDb.setHead (a :: chain)[second.length]? ∧
      db'.poppedTx = second.reverse.flatMap (fun i => i.data.transactions) ++ db.poppedTx := by
  induction second generalizing db a chain above fuel with
  | nil =>
    obtain rfl : above = [] := by simpa using hids
    obtain ⟨hs, -⟩ := List.cons_eq_cons.mp hstates
    obtain ⟨fuel, rfl⟩ : ∃ n, fuel = n + 1 := ⟨fuel - 1, by simp at hfuel; omega⟩
    have htarget : db.headBlockId = s.headBlockId := congrArg Objects.headBlockId hs
    refine ⟨db, ?_, hs, ?_, rfl⟩
    · rw [popUntil, if_pos htarget]
    · show db.forkDb = { db.forkDb with head := some a }
      rw [← hhead]
  | cons y ys ih =>
    cases above with
    | nil => cases hids
    | cons t above =>
      obtain ⟨hyid, hids⟩ := List.cons_eq_cons.mp hids
      obtain ⟨ht, hsaved⟩ := List.cons_eq_cons.mp hstates
      cases chain with
      | nil => simp at hlen
      | cons p chain =>
        obtain ⟨hprev, hchain⟩ := List.isChain_cons_cons.mp hchain
        obtain ⟨fuel, rfl⟩ : ∃ n, fuel = n + 1 := ⟨fuel - 1, by simp at hfuel; omega⟩
        have hheadId : db.headBlockId = y.id := (congrArg Objects.headBlockId ht).trans hyid
        have hblock : db.fetchBlockById db.headBlockId = some y.data := by
          unfold Database.fetchBlockById
          rw [hheadId, hheap.fetchBlock_eq (hindex y List.mem_cons_self)]
        have hfork := hheap.popBlock_eq hheld hhead (hmem p List.mem_cons_self) hprev
        -- The next saved state is that of the next block of the branch, or `s`.
        obtain ⟨u, l, hul⟩ : ∃ u l, above ++ s :: below = u :: l := by
          cases above with
          | nil => exact ⟨s, below, rfl⟩
          | cons u above => exact ⟨u, above ++ s :: below, rfl⟩
        have hpop := Database.popBlock_eq h hblock hfork (hsaved.trans hul)
        obtain ⟨db', h1, h2, h3, h4⟩ := ih (h.unwound (popBlock_true h hpop).unwound)
          (hheap.setHead fun x hx => by cases hx; exact hheld _ (hmem _ List.mem_cons_self))
          rfl hul.symm hids (fun i hi => hindex i (List.mem_cons_of_mem _ hi))
          (fun i hi => hne i (List.mem_cons_of_mem _ hi)) hchain
          (fun q hq => hmem q (List.mem_cons_of_mem _ hq)) (by simpa using hlen)
          (by simpa using hfuel)
        refine ⟨db', ?_, h2, h3, ?_⟩
        · rw [popUntil, if_neg (hheadId ▸ hne y List.mem_cons_self), hpop]
          exact h1
        · rw [h4, List.reverse_cons, List.flatMap_append, List.append_assoc]
          simp

/-! ### The fork switch -/

theorem Database.pushBranch_replay {db : Database ω ρ} {is : List (ForkItem ω)} {s : Objects ρ}
    (h : Idle r cps db)
    (hreplay : r.replay cps skip db.objects (is.map ForkItem.data) = some s) :
    ∃ db', pushBranch r cps skip is db = (db', []) ∧ db'.objects = s ∧ Aside db db' := by
  generalize hpush : pushBranch r cps skip is db = res
  obtain ⟨db', bad⟩ := res
  obtain ⟨-, haside, done, rfl, hdone, hbad⟩ := Database.pushBranch_spec h hpush
  rw [List.map_append, Rules.replay_append] at hreplay
  obtain ⟨s1, h1, h2⟩ := hreplay
  obtain rfl : db'.objects = s1 := Option.some.inj (hdone.symm.trans h1)
  cases bad with
  | nil => exact ⟨db', rfl, Option.some.inj h2, haside⟩
  | cons i bad =>
    rw [List.map_cons, Rules.replay, hbad i rfl] at h2
    cases h2

theorem ForkDatabase.mem_removeAll {f : ForkDatabase ω} {bad : List (ForkItem ω)}
    {i : ForkItem ω} :
    i ∈ (f.removeAll bad).index ↔ i ∈ f.index ∧ ∀ j ∈ bad, i.id ≠ j.id := by
  induction bad generalizing f with
  | nil => simp [ForkDatabase.removeAll]
  | cons j bad ih =>
    show i ∈ ((f.remove j.id).removeAll bad).index ↔ _
    rw [ih]
    simp [ForkDatabase.remove, and_assoc]

section Switch

variable {heap first second : List (ForkItem ω)} {db : Database ω ρ} {s : Objects ρ}

theorem SwitchReady.fork (hr : SwitchReady r heap db first second s) :
    ∃ fork, second.getLast? = some fork ∧ fork.data.previous = s.headBlockId :=
  Option.map_eq_some_iff.mp hr.oldBranch.last

theorem SwitchReady.popped (hr : SwitchReady r heap db first second s) (h : Idle r cps db) :
    ∃ db', Database.popUntil (first ++ second) s.headBlockId (db.undoDb.saved.length + 1) db =
        (db', true) ∧ db'.objects = s ∧ db'.forkDb = db.forkDb.setHead first[second.length]? ∧
      db'.poppedTx = second.reverse.flatMap (fun i => i.data.transactions) ++ db.poppedTx := by
  obtain ⟨above, below, hstates, hids⟩ := hr.states
  have hlen : above.length = second.length := by simpa using congrArg List.length hids
  have hfuel : second.length < db.undoDb.saved.length + 1 := by
    have := congrArg List.length hstates
    simp only [List.length_cons, List.length_append] at this
    omega
  have hlinked := hr.linked
  have hlonger := hr.longer
  have hhead := hr.head
  cases hf : first with
  | nil => simp [hf] at hlonger
  | cons a chain =>
    rw [hf] at hlinked hhead hlonger
    refine Database.popUntil_branch h hr.forkHeap (hf ▸ hr.held) hhead hstates hids
      (fun i hi => hr.index i (List.mem_append_right _ hi)) ?_ hlinked ?_ ?_ hfuel
    · intro i hi heq
      have := hr.oldBranch.length.2 i hi
      rw [heq] at this
      omega
    · exact fun p hp => by simp [hp]
    · simp only [List.length_cons] at hlonger
      omega

theorem SwitchReady.switched (hr : SwitchReady r heap db first second s) (h : Idle r cps db)
    {s' : Objects ρ} (hreplay : r.replay cps skip s (first.reverse.map ForkItem.data) = some s') :
    ∃ db', db.switchForks r cps skip first second = (db', some true) ∧ db'.objects = s' := by
  obtain ⟨fork, hlast, hprev⟩ := hr.fork
  obtain ⟨db1, hpop, hobj, -, -⟩ := hr.popped h
  obtain ⟨hu, -, -⟩ := Database.popUntil_spec h hpop
  obtain ⟨db2, hpush, hobj2, -⟩ := Database.pushBranch_replay (h.unwound hu) (hobj ▸ hreplay)
  refine ⟨db2, ?_, hobj2⟩
  unfold Database.switchForks
  simp only [hlast, hprev, hpop, hpush]

theorem SwitchReady.backed (hr : SwitchReady r heap db first second s) (h : Idle r cps db)
    (hfail : ∀ i ∈ first.getLast?, (r.applyBlock cps skip s i.data).result = none)
    (hreplay : r.replay cps skip s (second.reverse.map ForkItem.data) = some db.objects) :
    ∃ db', db.switchForks r cps skip first second = (db', none) ∧ db'.objects = db.objects ∧
      db'.forkDb.head = second.head? ∧
      (∀ i ∈ db'.forkDb.index, i ∈ db.forkDb.index ∧ ∀ j ∈ first, i.id ≠ j.id) ∧
      (∀ i ∈ db.forkDb.index, (∀ j ∈ first, i.id ≠ j.id) →
        (∀ j, first[second.length]? = some j → j.num ≤ i.num) →
        (∀ j, second.head? = some j → j.num ≤ i.num) → i ∈ db'.forkDb.index) ∧
      db'.poppedTx = second.reverse.flatMap (fun i => i.data.transactions) ++ db.poppedTx := by
  obtain ⟨fork, hlast, hprev⟩ := hr.fork
  obtain ⟨db1, hpop, hobj, hfork, hpopped⟩ := hr.popped h
  obtain ⟨hu, -, -⟩ := Database.popUntil_spec h hpop
  have h1 := h.unwound hu
  obtain ⟨bottom, rest, hrev⟩ : ∃ i l, first.reverse = i :: l := by
    cases hf : first.reverse with
    | nil =>
      have := hr.longer
      simp [List.reverse_eq_nil_iff.mp hf] at this
    | cons i l => exact ⟨i, l, rfl⟩
  have hbottom : (r.applyBlock cps skip db1.objects bottom.data).result = none := by
    rw [hobj]
    exact hfail bottom (by rw [← List.head?_reverse, hrev]; rfl)
  -- The block at the bottom of the new branch throws, and nothing is left to pop.
  obtain ⟨db2, hpush, hb⟩ : ∃ db2, Database.pushBranch r cps skip first.reverse db1 =
      (db2, bottom :: rest) ∧ BlockRefused r cps skip db1 bottom.data db2 := by
    rw [hrev, Database.pushBranch]
    rcases db1.applyAndCommit_spec r cps skip bottom.data with ⟨hok, hb⟩ | ⟨hok, hb⟩
    · rw [hb.applied] at hbottom
      cases hbottom
    · refine ⟨_, ?_, hb⟩
      generalize db1.applyAndCommit r cps skip bottom.data = res at hok
      obtain ⟨db2, ok⟩ := res
      subst hok
      rfl
  let db3 : Database ω ρ :=
    { db2 with forkDb := (db2.forkDb.removeAll (bottom :: rest)).setHead second.head? }
  have hobj3 : db3.objects = s := hb.objects.trans hobj
  have hback : Database.popUntil (first ++ second) s.headBlockId (db2.undoDb.saved.length + 1)
      db3 = (db3, true) := by
    have htarget : db3.headBlockId = s.headBlockId := congrArg Objects.headBlockId hobj3
    rw [Database.popUntil, if_pos htarget]
  have h3 : Idle r cps db3 := (h1.refused hb).withForkDb _
  obtain ⟨db4, hpush', hobj4, haside⟩ := Database.pushBranch_replay h3 (hobj3 ▸ hreplay)
  have hbad : ∀ {j}, j ∈ bottom :: rest ↔ j ∈ first := by
    intro j
    rw [← hrev, List.mem_reverse]
  have hindex1 : db1.forkDb.index = db.forkDb.index := by rw [hfork]; rfl
  refine ⟨db4, ?_, hobj4, haside.forkHead, fun i hi => ?_, fun i hi hne hnum hnum' => ?_, ?_⟩
  · unfold Database.switchForks
    simp only [hlast, hprev, hpop, hpush]
    rw [hback]
    simp only [hpush']
  · obtain ⟨hi, hne⟩ := ForkDatabase.mem_removeAll.mp (haside.forkIndex i hi)
    exact ⟨hindex1 ▸ hb.forkIndex i hi, fun j hj => hne j (hbad.mpr hj)⟩
  · refine haside.forkKept i (ForkDatabase.mem_removeAll.mpr ⟨?_, fun j hj => ?_⟩) hnum'
    · refine hb.forkKept i (hindex1 ▸ hi) fun j hj => hnum j ?_
      rw [hfork] at hj
      exact hj
    · exact hne j (hbad.mp hj)
  · rw [haside.poppedTx, ← hpopped]
    exact hb.poppedTx

end Switch

/-! ### The retried transactions -/

/-- What retrying a transaction does to the objects: nothing when it is known or refused. -/
def Rules.retry (r : Rules ω ρ) (skip : SkipFlags) (s : Objects ρ) (t : SignedTransaction ω) :
    Objects ρ :=
  if s.isKnownTransaction (r.trxId t) then s
  else ((r.applyTransaction skip s t).result).getD s

theorem Database.retryTransactions_objects {db : Database ω ρ} (hc : Consistent r cps db)
    (skip : SkipFlags) (ts : List (SignedTransaction ω)) :
    (ts.foldl (Database.retryTransaction r skip) db).objects =
      ts.foldl (r.retry skip) db.objects := by
  induction ts generalizing db with
  | nil => rfl
  | cons t ts ih =>
    have hone : (db.retryTransaction r skip t).objects = r.retry skip db.objects t := by
      unfold Database.retryTransaction Rules.retry
      split
      · rfl
      · obtain ⟨-, ⟨-, happ, -⟩ | ⟨-, hthrow, hobj, -⟩⟩ := Database.pushTransaction_spec hc skip t
        · rw [happ, Option.getD_some]
        · rw [hthrow, hobj, Option.getD_none]
    rw [List.foldl_cons, ih (Database.retryTransaction_kept hc skip t).1, hone, List.foldl_cons]

theorem Database.restorePending_objects {db : Database ω ρ} (h : Idle r cps db) (skip : SkipFlags)
    (pending : List (SignedTransaction ω)) : (db.restorePending r skip pending).objects =
      (db.poppedTx ++ pending).foldl (r.retry skip) db.objects := by
  obtain ⟨hc, -, -⟩ := Database.retryTransactions_kept h.consistent skip db.poppedTx
  have hc' : Consistent r cps
      { db.poppedTx.foldl (Database.retryTransaction r skip) db with poppedTx := [] } :=
    ⟨hc.active, hc.saved, hc.pendingTx, hc.limit, hc.spine⟩
  rw [List.foldl_append, ← Database.retryTransactions_objects h.consistent skip db.poppedTx]
  exact Database.retryTransactions_objects hc' skip pending

/-- The state `s'` is the one after the transactions, each of which is new and applies again with
the flags of the call.  It was applied with the same say on the duplicate check. -/
inductive RetriesAgain (r : Rules ω ρ) (skip : SkipFlags) :
    Objects ρ → List (SignedTransaction ω) → Objects ρ → Prop
  | none (s : Objects ρ) : RetriesAgain r skip s [] s
  | next {s s1 s' : Objects ρ} {t : SignedTransaction ω} {ts : List (SignedTransaction ω)}
      {skip' : SkipFlags} (happlied : (r.applyTransaction skip' s t).result = some s1)
      (hdupe : skip.transactionDupeCheck = skip'.transactionDupeCheck)
      (hnew : s.isKnownTransaction (r.trxId t) = false)
      (hagain : (r.applyTransaction skip s t).result ≠ none)
      (hrest : RetriesAgain r skip s1 ts s') : RetriesAgain r skip s (t :: ts) s'

theorem Rules.applyTransaction_flags {skip' : SkipFlags} {s s1 s2 : Objects ρ}
    {t : SignedTransaction ω} (hdupe : skip.transactionDupeCheck = skip'.transactionDupeCheck)
    (h1 : (r.applyTransaction skip s t).result = some s1)
    (h2 : (r.applyTransaction skip' s t).result = some s2) : s1 = s2 := by
  obtain ⟨-, rest1, hrest1, rfl⟩ := Rules.applyTransaction_result.mp h1
  obtain ⟨-, rest2, hrest2, rfl⟩ := Rules.applyTransaction_result.mp h2
  have hnote : r.noteTransaction skip s t = r.noteTransaction skip' s t := by
    unfold Rules.noteTransaction
    rw [hdupe]
  rw [hnote] at hrest1 ⊢
  rw [Option.some.inj (hrest1.symm.trans hrest2)]

theorem RetriesAgain.retries {s s' : Objects ρ} {ts : List (SignedTransaction ω)}
    (h : RetriesAgain r skip s ts s') : ts.foldl (r.retry skip) s = s' := by
  induction h with
  | none s => rfl
  | next happlied hdupe hnew hagain _ ih =>
    obtain ⟨s2, hs2⟩ := Option.ne_none_iff_exists'.mp hagain
    obtain rfl := Rules.applyTransaction_flags hdupe hs2 happlied
    rw [List.foldl_cons, Rules.retry, if_neg (by simp [hnew]), hs2, Option.getD_some]
    exact ih

/-- With the duplicate check, transactions that apply one after the other are new. -/
theorem RetriesAgain.of_applied (hdupe : skip.transactionDupeCheck = false) {s s' : Objects ρ}
    {ts : List (SignedTransaction ω)} (h : (r.applyTransactions skip s ts).result = some s') :
    RetriesAgain r skip s ts s' := by
  induction ts generalizing s with
  | nil =>
    obtain rfl := Outcome.result_pure.mp h
    exact .none s
  | cons t ts ih =>
    obtain ⟨s1, h1, h2⟩ := Rules.applyTransactions_cons.mp h
    obtain ⟨hcheck, -⟩ := Rules.applyTransaction_result.mp h1
    have hnew : s.isKnownTransaction (r.trxId t) = false := by
      simp only [Rules.checkTransaction, hdupe, Bool.false_or, Bool.and_eq_true,
        Bool.not_eq_true'] at hcheck
      exact hcheck.1.1.2
    exact .next h1 rfl hnew (by simp [h1]) (ih h2)

/-- Transactions that are known or refused change nothing. -/
theorem Rules.retries_refused {s : Objects ρ} {ts : List (SignedTransaction ω)}
    (h : ∀ t ∈ ts, s.isKnownTransaction (r.trxId t) = true ∨
      (r.applyTransaction skip s t).result = none) : ts.foldl (r.retry skip) s = s := by
  induction ts with
  | nil => rfl
  | cons t ts ih =>
    have hone : r.retry skip s t = s := by
      unfold Rules.retry
      rcases h t List.mem_cons_self with hknown | hrefused
      · rw [if_pos hknown]
      · rw [hrefused, Option.getD_none, ite_self]
    rw [List.foldl_cons, hone]
    exact ih fun t' ht' => h t' (List.mem_cons_of_mem _ ht')

/-! ### Blocks that apply again -/

section Again

variable {skip' : SkipFlags}

theorem Rules.applyTransactions_flags {s s1 s2 : Objects ρ} {ts : List (SignedTransaction ω)}
    (hdupe : ts = [] ∨ skip.transactionDupeCheck = skip'.transactionDupeCheck)
    (h1 : (r.applyTransactions skip s ts).result = some s1)
    (h2 : (r.applyTransactions skip' s ts).result = some s2) : s1 = s2 := by
  induction ts generalizing s with
  | nil => exact (Outcome.result_pure.mp h1).symm.trans (Outcome.result_pure.mp h2)
  | cons t ts ih =>
    have hsame := hdupe.resolve_left (List.cons_ne_nil t ts)
    obtain ⟨u1, hu1, h1⟩ := Rules.applyTransactions_cons.mp h1
    obtain ⟨u2, hu2, h2⟩ := Rules.applyTransactions_cons.mp h2
    obtain rfl := Rules.applyTransaction_flags hsame hu1 hu2
    exact ih (Or.inr hsame) h1 h2

theorem Rules.applyBlock_flags {s s1 s2 : Objects ρ} {b : SignedBlock ω}
    (hdupe : b.transactions = [] ∨ (cps.skipFlags skip b.blockNum).transactionDupeCheck =
      (cps.skipFlags skip' b.blockNum).transactionDupeCheck)
    (h1 : (r.applyBlock cps skip s b).result = some s1)
    (h2 : (r.applyBlock cps skip' s b).result = some s2) : s1 = s2 := by
  simp only [Rules.applyBlock, Rules.applyBlockBody, Outcome.result_bind, Outcome.result_assert,
    Outcome.result_effect, Outcome.result_ofOption, Outcome.result_pure] at h1 h2
  obtain ⟨_, -, _, -, _, -, applied1, happ1, headed1, hhead1, confirmed1, hconf1, maintained1,
    hmaint1, _, -, rest1, hrest1, rfl⟩ := h1
  obtain ⟨_, -, _, -, _, -, applied2, happ2, headed2, hhead2, confirmed2, hconf2, maintained2,
    hmaint2, _, -, rest2, hrest2, rfl⟩ := h2
  obtain rfl := Rules.applyTransactions_flags hdupe happ1 happ2
  simp only [Rules.updateGlobalDynamicData, Outcome.result_bind, Outcome.result_assert,
    Outcome.result_effect, Outcome.result_ofOption, Outcome.result_pure] at hhead1 hhead2
  obtain ⟨restHead1, hrestHead1, _, -, _, -, rfl⟩ := hhead1
  obtain ⟨restHead2, hrestHead2, _, -, _, -, rfl⟩ := hhead2
  obtain rfl := Option.some.inj (hrestHead1.symm.trans hrestHead2)
  obtain rfl := Option.some.inj (hconf1.symm.trans hconf2)
  obtain rfl := Option.some.inj (hmaint1.symm.trans hmaint2)
  obtain rfl := Option.some.inj (hrest1.symm.trans hrest2)
  rfl

/-- The states are those after the blocks of the branch, which goes down to the state `s`, and the
blocks apply again with the flags of the call.  A block with transactions was applied with the same
say on the duplicate check. -/
inductive AppliesAgain (r : Rules ω ρ) (cps : Checkpoints) (skip : SkipFlags) (s : Objects ρ) :
    List (Objects ρ) → List (ForkItem ω) → Prop
  | fork (below : List (Objects ρ)) : AppliesAgain r cps skip s (s :: below) []
  | block {before after : Objects ρ} {states : List (Objects ρ)} {i : ForkItem ω}
      {branch : List (ForkItem ω)} {skip' : SkipFlags}
      (happlied : (r.applyBlock cps skip' before i.data).result = some after)
      (hdupe : i.data.transactions = [] ∨
        (cps.skipFlags skip i.data.blockNum).transactionDupeCheck =
          (cps.skipFlags skip' i.data.blockNum).transactionDupeCheck)
      (hagain : (r.applyBlock cps skip before i.data).result ≠ none)
      (hbelow : AppliesAgain r cps skip s (before :: states) branch) :
      AppliesAgain r cps skip s (after :: before :: states) (i :: branch)

theorem AppliesAgain.replay {s after : Objects ρ} {states : List (Objects ρ)}
    {branch : List (ForkItem ω)} (h : AppliesAgain r cps skip s (after :: states) branch) :
    r.replay cps skip s (branch.reverse.map ForkItem.data) = some after := by
  induction branch generalizing after states with
  | nil =>
    cases h with
    | fork below => rfl
  | cons i branch ih =>
    cases h with
    | @block before _ states _ _ _ happlied hdupe hagain hbelow =>
      obtain ⟨after', hafter'⟩ := Option.ne_none_iff_exists'.mp hagain
      obtain rfl := Rules.applyBlock_flags hdupe hafter' happlied
      rw [List.reverse_cons, List.map_append, Rules.replay_append]
      refine ⟨before, ih hbelow, ?_⟩
      rw [List.map_singleton, Rules.replay, hafter']
      rfl

end Again

/-! ### All or nothing -/

/-- The fork database takes the block, and its head is then higher than the head block and not on
top of it. -/
structure Diverged (r : Rules ω ρ) (db : Database ω ρ) (b : SignedBlock ω) (f : ForkDatabase ω)
    (newHead : ForkItem ω) : Prop where
  fork : db.forkDb.pushBlock r b = some f
  head : f.head = some newHead
  previous : newHead.data.previous ≠ db.headObjects.headBlockId
  num : db.headObjects.headBlockNumber < newHead.data.blockNum

/-- The branches of a fork switch, and the state `s` below them in the undo history. -/
structure Branches (r : Rules ω ρ) (db : Database ω ρ) (b : SignedBlock ω) (f : ForkDatabase ω)
    (newHead : ForkItem ω) (first second : List (ForkItem ω)) (s : Objects ρ) : Prop
    extends Diverged r db b f newHead where
  fetch : f.fetchBranchFrom newHead.id db.headObjects.headBlockId = some (first, second)
  index : newHead ∈ f.index
  ancestor : second.getLast?.map (fun i => i.data.previous) = some s.headBlockId
  states : UndoneTo (db.headObjects :: db.committed) second s

/-- The blocks that `push_block` finds invalid: the block itself when it is applied on the head
block, or the rest of the new branch from the block that throws on. -/
inductive FoundInvalid (r : Rules ω ρ) (cps : Checkpoints) (skip : SkipFlags) (db : Database ω ρ)
    (b : SignedBlock ω) : BlockId → Prop
  | block
      (hdirect : skip.forkDb = true ∨ ∃ f newHead, db.forkDb.pushBlock r b = some f ∧
        f.head = some newHead ∧ newHead.data.previous = db.headObjects.headBlockId)
      (hthrow : (r.applyBlock cps skip db.headObjects b).result = none) :
      FoundInvalid r cps skip db b (r.blockId b.toBlockHeader)
  | branch {f : ForkDatabase ω} {newHead i j : ForkItem ω}
      {first second done rest : List (ForkItem ω)} {s s' : Objects ρ}
      (hskip : skip.forkDb = false) (h : Diverged r db b f newHead)
      (hfetch : f.fetchBranchFrom newHead.id db.headObjects.headBlockId = some (first, second))
      (hs : s ∈ db.headObjects :: db.committed)
      (hancestor : second.getLast?.map (fun i => i.data.previous) = some s.headBlockId)
      (hdone : first.reverse = done ++ i :: rest)
      (hreplay : r.replay cps skip s (done.map ForkItem.data) = some s')
      (hthrow : (r.applyBlock cps skip s' i.data).result = none) (hj : j ∈ i :: rest) :
      FoundInvalid r cps skip db b j.id

/-- The ways of `push_block` that do not throw, or throw without a trace, with the transactions that
are popped before the throw. -/
inductive Traceless (r : Rules ω ρ) (cps : Checkpoints) (skip : SkipFlags) (db : Database ω ρ)
    (b : SignedBlock ω) : List (SignedTransaction ω) → Prop
  | noForkDb (hskip : skip.forkDb = true) : Traceless r cps skip db b []
  | unlinked (hfork : db.forkDb.pushBlock r b = none) : Traceless r cps skip db b []
  /-- The block applies on the head block, or is not the new head of the fork database. -/
  | direct {f : ForkDatabase ω} {newHead : ForkItem ω} (hfork : db.forkDb.pushBlock r b = some f)
      (hhead : f.head = some newHead)
      (hprev : newHead.data.previous = db.headObjects.headBlockId)
      (hsame : (r.applyBlock cps skip db.headObjects b).result ≠ none ∨
        f.head = db.forkDb.head) : Traceless r cps skip db b []
  | kept {f : ForkDatabase ω} {newHead : ForkItem ω} (hfork : db.forkDb.pushBlock r b = some f)
      (hhead : f.head = some newHead)
      (hprev : newHead.data.previous ≠ db.headObjects.headBlockId)
      (hnum : newHead.data.blockNum ≤ db.headObjects.headBlockNumber) :
      Traceless r cps skip db b []
  | noBranches {f : ForkDatabase ω} {newHead : ForkItem ω} (h : Diverged r db b f newHead)
      (hfetch : f.fetchBranchFrom newHead.id db.headObjects.headBlockId = none)
      (hsame : f.head = db.forkDb.head) : Traceless r cps skip db b []
  | switched {f : ForkDatabase ω} {newHead : ForkItem ω} {first second : List (ForkItem ω)}
      {s : Objects ρ} (h : Branches r db b f newHead first second s)
      (hreplay : r.replay cps skip s (first.reverse.map ForkItem.data) ≠ none) :
      Traceless r cps skip db b []
  /-- The first block of the new branch throws, and the old branch, which ends at the head of the
  fork database, applies again. -/
  | backed {f : ForkDatabase ω} {newHead : ForkItem ω} {first second : List (ForkItem ω)}
      {s : Objects ρ} (hskip : skip.forkDb = false)
      (h : Branches r db b f newHead first second s)
      (hfail : ∀ i ∈ first.getLast?, (r.applyBlock cps skip s i.data).result = none)
      (hagain : AppliesAgain r cps skip s (db.headObjects :: db.committed) second)
      (hsame : db.forkDb.head = second.head?) :
      Traceless r cps skip db b (second.reverse.flatMap fun i => i.data.transactions)

/-- The condition under which a throw leaves no trace: one of the ways above, on which the popped
transactions are known or refused at the head block and the pending ones apply again. -/
def Restorable (r : Rules ω ρ) (cps : Checkpoints) (skip : SkipFlags) (db : Database ω ρ)
    (b : SignedBlock ω) : Prop :=
  ∃ popped, Traceless r cps skip db b popped ∧
    (∀ t ∈ popped, db.headObjects.isKnownTransaction (r.trxId t) = true ∨
      (r.applyTransaction skip db.headObjects t).result = none) ∧
    RetriesAgain r skip db.headObjects db.pendingTx db.objects

section Thrown

variable {db : Database ω ρ} {b : SignedBlock ω}

theorem Database.pushDirect_thrown (hthrow : (db.pushDirect r cps skip b).2 = none) :
    (r.applyBlock cps skip db.objects b).result = none ∧
      (db.pushDirect r cps skip b).1.objects = db.objects ∧
      (db.pushDirect r cps skip b).1.forkDb.head = db.forkDb.head ∧
      (∀ i ∈ (db.pushDirect r cps skip b).1.forkDb.index, i.id ≠ r.blockId b.toBlockHeader) ∧
      (db.pushDirect r cps skip b).1.poppedTx = db.poppedTx := by
  unfold Database.pushDirect at hthrow ⊢
  rcases db.applyAndCommit_spec r cps skip b with ⟨hok, hb⟩ | ⟨hok, hb⟩ <;>
    generalize db.applyAndCommit r cps skip b = res at hok hb hthrow <;>
    obtain ⟨db', ok⟩ := res <;> subst hok
  · cases hthrow
  · refine ⟨hb.thrown, hb.objects, hb.forkHead, fun i hi => ?_, hb.poppedTx⟩
    exact of_decide_eq_true (List.mem_filter.mp hi).2

/-- What `_push_block` leaves when it throws without a trace. -/
structure Untouched (r : Rules ω ρ) (cps : Checkpoints) (skip : SkipFlags) (db : Database ω ρ)
    (b : SignedBlock ω) (popped : List (SignedTransaction ω)) (mid : Database ω ρ) : Prop where
  objects : mid.objects = db.headObjects
  forkHead : mid.forkDb.head = db.forkDb.head
  invalid : ∀ id, FoundInvalid r cps skip db b id → ∀ i ∈ mid.forkDb.index, i.id ≠ id
  popped : mid.poppedTx = popped

theorem Branches.ready {f : ForkDatabase ω} {newHead : ForkItem ω}
    {first second : List (ForkItem ω)} {s : Objects ρ} {heap : List (ForkItem ω)}
    (h : Branches r db b f newHead first second s) (hreg : Regular r cps db)
    (hheap : ForkHeap r heap f) :
    SwitchReady r heap { db.clearPending with forkDb := f } first second s := by
  obtain ⟨hidle, hobj, hsaved, -⟩ := hreg.toConsistent.clearPending
  have hid : db.clearPending.headBlockId = db.headObjects.headBlockId :=
    congrArg Objects.headBlockId hobj
  have hnum : db.clearPending.headBlockNum = db.headObjects.headBlockNumber :=
    congrArg Objects.headBlockNumber hobj
  obtain ⟨last, hlast, hs⟩ := Option.map_eq_some_iff.mp h.ancestor
  refine fetchBranchFrom_ready (hidle.withForkDb f) hheap h.head h.index ?_ ?_ hlast hs.symm ?_
  · show db.clearPending.headBlockNum < _
    rw [hnum]
    exact h.num
  · show f.fetchBranchFrom newHead.id db.clearPending.headBlockId = _
    rw [hid]
    exact h.fetch
  · show UndoneTo (db.clearPending.objects :: db.clearPending.undoDb.saved) second s
    rw [hobj, hsaved]
    exact h.states

theorem Database.pushBlockBody_direct {d : Database ω ρ} {f : ForkDatabase ω}
    {newHead : ForkItem ω} (hskip : skip.forkDb = false) (hfork : d.forkDb.pushBlock r b = some f)
    (hhead : f.head = some newHead) (hprev : newHead.data.previous = d.headBlockId) :
    d.pushBlockBody r cps skip b =
      ({ d with forkDb := f } : Database ω ρ).pushDirect r cps skip b := by
  unfold Database.pushBlockBody
  simp only [hskip, Bool.false_eq_true, if_false, hfork, hhead]
  exact if_neg (not_not.mpr hprev)

theorem Database.pushBlockBody_kept {d : Database ω ρ} {f : ForkDatabase ω}
    {newHead : ForkItem ω} (hskip : skip.forkDb = false) (hfork : d.forkDb.pushBlock r b = some f)
    (hhead : f.head = some newHead) (hprev : newHead.data.previous ≠ d.headBlockId)
    (hnum : newHead.data.blockNum ≤ d.headBlockNum) :
    d.pushBlockBody r cps skip b = ({ d with forkDb := f }, some false) := by
  unfold Database.pushBlockBody
  simp only [hskip, Bool.false_eq_true, if_false, hfork, hhead]
  exact (if_pos hprev).trans (if_neg (Nat.not_lt.mpr hnum))

theorem FoundInvalid.of_direct {id : BlockId} (hinv : FoundInvalid r cps skip db b id)
    (hdirect : skip.forkDb = true ∨ ∃ f newHead, db.forkDb.pushBlock r b = some f ∧
      f.head = some newHead ∧ newHead.data.previous = db.headObjects.headBlockId) :
    id = r.blockId b.toBlockHeader := by
  cases hinv with
  | block _ _ => rfl
  | branch hskip h _ _ _ _ _ _ _ =>
    obtain ⟨f, newHead, hf, hhead, hprev⟩ := hdirect.resolve_left (by simp [hskip])
    obtain rfl : f = _ := Option.some.inj (hf.symm.trans h.fork)
    obtain rfl : newHead = _ := Option.some.inj (hhead.symm.trans h.head)
    exact absurd hprev h.previous

theorem FoundInvalid.of_diverged {id : BlockId} {f : ForkDatabase ω} {newHead : ForkItem ω}
    (hinv : FoundInvalid r cps skip db b id) (hskip : skip.forkDb = false)
    (h : Diverged r db b f newHead) :
    ∃ first second, f.fetchBranchFrom newHead.id db.headObjects.headBlockId = some (first, second) ∧
      ∃ j ∈ first, j.id = id := by
  cases hinv with
  | block hdirect _ =>
    obtain ⟨f', newHead', hf, hhead, hprev⟩ := hdirect.resolve_left (by simp [hskip])
    obtain rfl : f = _ := Option.some.inj (h.fork.symm.trans hf)
    obtain rfl : newHead = _ := Option.some.inj (h.head.symm.trans hhead)
    exact absurd hprev h.previous
  | branch _ h' hfetch _ _ hdone _ _ hj =>
    obtain rfl : f = _ := Option.some.inj (h.fork.symm.trans h'.fork)
    obtain rfl : newHead = _ := Option.some.inj (h.head.symm.trans h'.head)
    refine ⟨_, _, hfetch, _, ?_, rfl⟩
    rw [← List.mem_reverse, hdone]
    exact List.mem_append_right _ hj

theorem Traceless.untouched {popped : List (SignedTransaction ω)}
    (ht : Traceless r cps skip db b popped) (hreg : Regular r cps db)
    (hthrow : (db.clearPending.pushBlockBody r cps skip b).2 = none) :
    Untouched r cps skip db b popped (db.clearPending.pushBlockBody r cps skip b).1 := by
  obtain ⟨hidle, hobj, -, -, hfork, -, hpopped⟩ := hreg.toConsistent.clearPending
  obtain ⟨heap, hheap⟩ := hreg.heap
  have hid : db.clearPending.headBlockId = db.headObjects.headBlockId :=
    congrArg Objects.headBlockId hobj
  have hnum : db.clearPending.headBlockNum = db.headObjects.headBlockNumber :=
    congrArg Objects.headBlockNumber hobj
  have hnone : db.clearPending.poppedTx = [] := hpopped.trans hreg.poppedTx
  cases hskip : skip.forkDb with
  | true =>
    have heq : db.clearPending.pushBlockBody r cps skip b =
        db.clearPending.pushDirect r cps skip b := by
      unfold Database.pushBlockBody
      rw [if_pos hskip]
    rw [heq] at hthrow ⊢
    obtain ⟨-, h1, h2, h3, h4⟩ := Database.pushDirect_thrown hthrow
    refine ⟨h1.trans hobj, h2.trans (congrArg _ hfork), fun id hinv => ?_, ?_⟩
    · rw [hinv.of_direct (Or.inl hskip)]
      exact h3
    · rw [h4, hnone]
      cases ht with
      | backed hfalse => rw [hskip] at hfalse; cases hfalse
      | _ => rfl
  | false =>
  cases ht with
  | noForkDb htrue =>
    rw [hskip] at htrue
    cases htrue
  | unlinked hnone' =>
    have heq : db.clearPending.pushBlockBody r cps skip b = (db.clearPending, none) := by
      unfold Database.pushBlockBody
      simp [hskip, hfork, hnone']
    rw [heq]
    refine ⟨hobj, congrArg _ hfork, fun id hinv => ?_, hnone⟩
    cases hinv with
    | block hdirect _ =>
      obtain ⟨f, newHead, hf, -⟩ := hdirect.resolve_left (by simp [hskip])
      rw [hnone'] at hf
      cases hf
    | branch _ h _ _ _ _ _ _ _ =>
      have := h.fork
      rw [hnone'] at this
      cases this
  | @direct f newHead hf hhead hprev hsame =>
    rw [Database.pushBlockBody_direct hskip (hfork ▸ hf) hhead (hid ▸ hprev)] at hthrow ⊢
    obtain ⟨happly, h1, h2, h3, h4⟩ := Database.pushDirect_thrown hthrow
    replace happly : (r.applyBlock cps skip db.clearPending.objects b).result = none := happly
    rw [hobj] at happly
    refine ⟨h1.trans hobj, h2.trans (hsame.resolve_left (by simp [happly])), fun id hinv => ?_, ?_⟩
    · rw [hinv.of_direct (Or.inr ⟨f, newHead, hf, hhead, hprev⟩)]
      exact h3
    · exact h4.trans hnone
  | @kept f newHead hf hhead hprev hle =>
    rw [Database.pushBlockBody_kept hskip (hfork ▸ hf) hhead (hid ▸ hprev) (hnum ▸ hle)] at hthrow
    cases hthrow
  | @noBranches f newHead h hfetch hsame =>
    rw [Database.pushBlockBody_diverged hskip (hfork ▸ h.fork) h.head (hid ▸ h.previous)
      (hnum ▸ h.num), hid, hfetch]
    refine ⟨hobj, hsame, fun id hinv => ?_, hnone⟩
    obtain ⟨first, second, hfetch', -⟩ := hinv.of_diverged hskip h
    rw [hfetch] at hfetch'
    cases hfetch'
  | @switched f newHead first second s h hreplay =>
    obtain ⟨item, -, -, hheap'⟩ := hheap.pushBlock h.fork
    obtain ⟨s', hs'⟩ := Option.ne_none_iff_exists'.mp hreplay
    obtain ⟨db', hswitch, -⟩ := (h.ready hreg hheap').switched (hidle.withForkDb f) hs'
    rw [Database.pushBlockBody_diverged hskip (hfork ▸ h.fork) h.head (hid ▸ h.previous)
      (hnum ▸ h.num), hid, h.fetch] at hthrow
    simp only [hswitch] at hthrow
    cases hthrow
  | @backed f newHead first second s _ h hfail hagain hsame =>
    obtain ⟨item, -, -, hheap'⟩ := hheap.pushBlock h.fork
    obtain ⟨db', hswitch, h1, h2, h3, -, h4⟩ := (h.ready hreg hheap').backed
      (hidle.withForkDb f) hfail (by rw [hagain.replay]; exact congrArg some hobj.symm)
    rw [Database.pushBlockBody_diverged hskip (hfork ▸ h.fork) h.head (hid ▸ h.previous)
      (hnum ▸ h.num), hid, h.fetch]
    simp only [hswitch]
    refine ⟨h1.trans hobj, h2.trans hsame.symm, fun id hinv => ?_, ?_⟩
    · obtain ⟨first', second', hfetch', j, hj, rfl⟩ := hinv.of_diverged hskip h.toDiverged
      obtain ⟨rfl, rfl⟩ := Prod.mk.inj (Option.some.inj (h.fetch.symm.trans hfetch'))
      exact fun i hi => (h3 i hi).2 j hj
    · have hbefore : ({ db.clearPending with forkDb := f } : Database ω ρ).poppedTx = [] := hnone
      rw [h4, hbefore, List.append_nil]

end Thrown

/-- When `push_block` throws on one of these ways, the objects with the pending transactions, the
head block and the head of the fork database are what they were, and no block that it found invalid
is in the fork database. -/
theorem push_block_all_or_nothing {db : Database ω ρ} {b : SignedBlock ω} (h : Reachable r cps db)
    (hc : Restorable r cps skip db b) (hthrow : (db.pushBlock r cps skip b).2 = none) :
    (db.pushBlock r cps skip b).1.objects = db.objects ∧
      (db.pushBlock r cps skip b).1.headObjects = db.headObjects ∧
      (db.pushBlock r cps skip b).1.headBlockId = db.headBlockId ∧
      (db.pushBlock r cps skip b).1.forkDb.head = db.forkDb.head ∧
      ∀ id, FoundInvalid r cps skip db b id →
        (db.pushBlock r cps skip b).1.forkDb.fetchBlock id = none := by
  have hreg := h.regular
  obtain ⟨hidle, -, -, -, hfork, -, -⟩ := hreg.toConsistent.clearPending
  obtain ⟨heap, hheap⟩ := hreg.heap
  obtain ⟨hmid, -⟩ := Database.pushBlockBody_idle hidle (hfork ▸ hheap) skip b
  obtain ⟨popped, hway, hrefused, hretried⟩ := hc
  have hun := hway.untouched hreg hthrow
  obtain ⟨-, hkept, -⟩ := Database.restorePending_kept hmid skip db.pendingTx
  have hobjects : (db.pushBlock r cps skip b).1.objects = db.objects := by
    refine (Database.restorePending_objects hmid skip db.pendingTx).trans ?_
    rw [hun.popped, hun.objects, List.foldl_append, Rules.retries_refused hrefused]
    exact hretried.retries
  have hforkDb : (db.pushBlock r cps skip b).1.forkDb =
      (db.clearPending.pushBlockBody r cps skip b).1.forkDb := hkept.forkDb
  refine ⟨hobjects, ?_, congrArg Objects.headBlockId hobjects, ?_, fun id hid => ?_⟩
  · exact hkept.headObjects.trans (hmid.headObjects.trans hun.objects)
  · rw [hforkDb]
    exact hun.forkHead
  · rw [hforkDb]
    refine List.find?_eq_none.mpr fun i hi => ?_
    simpa using hun.invalid id hid i hi

/-- A block of the small chain with a signature of nobody. -/
def unsignedBlock (previous : BlockId) (timestamp : Nat) : SignedBlock Nat :=
  { counterBlock previous timestamp 0 [] with witnessSignature := 0 }

/-- The flags `skip_tapos_check` alone. -/
def skipTapos : SkipFlags := { SkipFlags.nothing with taposCheck := true }

/-- The small chain with a block that carries a transaction, a pending transaction, and another
block of the same number that nobody signed. -/
def unsignedDatabase : Database Nat Nat :=
  (counterDatabase 0).calls counterRules []
    [.pushBlock payingBlock .nothing, .pushTransaction (counterTrx 20 [2]) skipTapos,
      .pushBlock (unsignedBlock .zero 11) .nothing]

def unsignedChild : SignedBlock Nat :=
  counterBlock (counterRules.blockId (unsignedBlock .zero 11).toBlockHeader) 12 0 []

/-- The items of the blocks of the small chain in the fork database. -/
def counterItem (ptr : Nat) (prev : Option Nat) (b : SignedBlock Nat) : ForkItem Nat :=
  ⟨ptr, prev, b.blockNum, counterRules.blockId b.toBlockHeader, b⟩

theorem unsignedDatabase_branches : Branches counterRules unsignedDatabase unsignedChild
    ⟨2, [counterItem 0 none payingBlock, counterItem 1 none (unsignedBlock .zero 11),
      counterItem 2 (some 1) unsignedChild], some (counterItem 2 (some 1) unsignedChild), 3⟩
    (counterItem 2 (some 1) unsignedChild)
    [counterItem 2 (some 1) unsignedChild, counterItem 1 none (unsignedBlock .zero 11)]
    [counterItem 0 none payingBlock] (counterDatabase 0).objects := by
  refine ⟨⟨rfl, rfl, ?_, ?_⟩, ?_, ?_, ?_, [unsignedDatabase.headObjects], [], rfl, ?_⟩ <;>
    decide +kernel

/-- The unsigned block makes the switch to its child fail, and the chain, the pending transaction
and the head of the fork database are what they were. -/
theorem push_block_all_or_nothing_refused :
    (unsignedDatabase.pushBlock counterRules [] skipTapos unsignedChild).2 = none ∧
    (unsignedDatabase.pushBlock counterRules [] skipTapos unsignedChild).1.objects =
      unsignedDatabase.objects ∧
    (unsignedDatabase.pushBlock counterRules [] skipTapos unsignedChild).1.forkDb.head =
      unsignedDatabase.forkDb.head := by
  have hthrow : (unsignedDatabase.pushBlock counterRules [] skipTapos unsignedChild).2 = none := by
    decide +kernel
  have hreach : Reachable counterRules [] unsignedDatabase :=
    (Reachable.opened (counterDatabase_opened 0)).calls _
  have hagain : AppliesAgain counterRules [] skipTapos (counterDatabase 0).objects
      (unsignedDatabase.headObjects :: unsignedDatabase.committed)
      [counterItem 0 none payingBlock] :=
    .block (by rfl) (Or.inr rfl) (by decide +kernel) (.fork [])
  have hway := Traceless.backed rfl unsignedDatabase_branches (by decide +kernel) hagain rfl
  have hrefused : ∀ t ∈ [counterTrx 20 [1]], unsignedDatabase.headObjects.isKnownTransaction
      (counterRules.trxId t) = true ∨ (counterRules.applyTransaction skipTapos
        unsignedDatabase.headObjects t).result = none := by
    intro t ht
    obtain rfl := List.mem_singleton.mp ht
    exact Or.inl (by decide +kernel)
  have hretried : RetriesAgain counterRules skipTapos unsignedDatabase.headObjects
      unsignedDatabase.pendingTx unsignedDatabase.objects := .of_applied rfl rfl
  have hkept := push_block_all_or_nothing hreach ⟨_, hway, hrefused, hretried⟩ hthrow
  exact ⟨hthrow, hkept.1, hkept.2.2.2.1⟩

/-- An invalid block on top of the head block stays the head of the fork database, from whose index
it was removed. -/
theorem push_block_leaves_fork_head :
    ∃ (db : Database Nat Nat) (b : SignedBlock Nat), Reachable counterRules [] db ∧
      (db.pushBlock counterRules [] .nothing b).2 = none ∧
      (db.pushBlock counterRules [] .nothing b).1.forkDb.head ≠ db.forkDb.head := by
  refine ⟨(counterDatabase 0).calls counterRules []
      [.pushBlock (counterBlock .zero 10 0 []) .nothing],
    unsignedBlock (counterRules.blockId (counterBlock .zero 10 0 []).toBlockHeader) 20,
    (Reachable.opened (counterDatabase_opened 0)).calls _, ?_, ?_⟩
  · decide +kernel
  · decide +kernel

end Nestchain.Chain
