import Nestchain.App.Synopsis
import Nestchain.Chain.History

/-! Reference points of a synopsis, and what `get_block_ids_on_fork` returns for one on a fork.  The
store of a reachable database holds the chain of its head block, whether or not transactions are
pending. -/

namespace Nestchain.App

open Nestchain.Chain

variable {ω ρ : Type} {r : Rules ω ρ} {cps : Checkpoints} {skip : SkipFlags} {db : Database ω ρ}
  {chain path : List (SignedBlock ω)}

/-! ### Main chains -/

theorem pushTransaction_sameChain (h : Consistent r cps db)
    (hsame : SameChain db.headObjects db.objects)
    (t : SignedTransaction ω) : SameChain (db.pushTransaction r skip t).1.headObjects
      (db.pushTransaction r skip t).1.objects := by
  obtain ⟨hkept, hpushed⟩ := Database.pushTransaction_spec h skip t
  rw [hkept.headObjects]
  rcases hpushed with ⟨-, happly, -⟩ | ⟨-, -, hobjects, -⟩
  · exact hsame.trans (Rules.applyTransaction_sameChain happly)
  · rwa [hobjects]

theorem retryTransactions_sameChain (h : Consistent r cps db)
    (hsame : SameChain db.headObjects db.objects)
    (ts : List (SignedTransaction ω)) :
    SameChain (ts.foldl (Database.retryTransaction r skip) db).headObjects
      (ts.foldl (Database.retryTransaction r skip) db).objects := by
  induction ts generalizing db with
  | nil => exact hsame
  | cons t ts ih =>
    refine ih (Database.retryTransaction_kept h skip t).1 ?_
    unfold Database.retryTransaction
    split
    · exact hsame
    · exact pushTransaction_sameChain h hsame t

theorem sameChain_of_reachable (h : Reachable r cps db) : SameChain db.headObjects db.objects := by
  induction h with
  | @opened db hopened =>
    have hidle : Idle r cps db := hopened.idle
    rw [hidle.headObjects]
    exact .refl _
  | @call db hreach c ih =>
    have hreg := hreach.regular
    cases c with
    | pushTransaction t skip => exact pushTransaction_sameChain hreg.toConsistent ih t
    | pushBlock b skip =>
      obtain ⟨hidle, -, -, -, hfork, -, -⟩ := hreg.toConsistent.clearPending
      obtain ⟨heap, hheap⟩ := hreg.heap
      obtain ⟨hmid, -⟩ := Database.pushBlockBody_idle hidle (hfork ▸ hheap) skip b
      have hsame : SameChain (db.clearPending.pushBlockBody r cps skip b).1.headObjects
          (db.clearPending.pushBlockBody r cps skip b).1.objects := by
        rw [hmid.headObjects]
        exact .refl _
      obtain ⟨hpopped, -, -⟩ := Database.retryTransactions_kept hmid.consistent skip
        (db.clearPending.pushBlockBody r cps skip b).1.poppedTx
      have hfirst : SameChain (List.foldl (Database.retryTransaction r skip) _ _).headObjects _ :=
        retryTransactions_sameChain hmid.consistent hsame
          (db.clearPending.pushBlockBody r cps skip b).1.poppedTx
      -- the restorer forgets the popped transactions in between
      have hcleared : Consistent r cps { List.foldl (Database.retryTransaction r skip)
          (db.clearPending.pushBlockBody r cps skip b).1
          (db.clearPending.pushBlockBody r cps skip b).1.poppedTx with poppedTx := [] } :=
        ⟨hpopped.active, hpopped.saved, hpopped.pendingTx, hpopped.limit, hpopped.spine⟩
      exact retryTransactions_sameChain hcleared hfirst db.pendingTx

theorem mainChain_of_reachable {base : List (SignedBlock ω)} {s0 : Objects ρ}
    (h : Reachable r cps db)
    (hbase : Descends r s0.headBlockId base) (hchain : db.HeadChain r cps base s0 chain)
    (hbound : chain.length + 1 < 2 ^ 32) :
    MainChain r db chain ∧ db.committed.length ≤ chain.length := by
  have hsame := sameChain_of_reachable h
  have hdescends : Descends r db.headObjects.headBlockId chain :=
    (hchain.grown 0 db.headObjects rfl).descends hbase
  have hspine := h.regular.spine
  have hnum : db.headObjects.headBlockNumber = chain.length := by
    rw [← hspine.num db.headObjects List.mem_cons_self, hdescends.length]
  refine ⟨⟨?_, hsame.headBlockNumber.trans hnum, hchain.blocks, hbound⟩, ?_⟩
  · show Descends r db.objects.headBlockId chain
    rw [hsame.headBlockId]
    exact hdescends
  · have hget : db.committed.length < (db.headObjects :: db.committed).length := by simp
    have hlast := hspine.headBlockNumber (List.getElem?_eq_getElem hget)
    omega

theorem lastNonUndoableBlockNum_cases (hc : Consistent r cps db) (h : MainChain r db chain)
    (hcommitted : db.committed.length ≤ chain.length) :
    db.pendingTxSession = false ∧ lastNonUndoableBlockNum db = fixedBlockNum db ∨
    db.pendingTxSession = true ∧ fixedBlockNum db = 0 ∧ lastNonUndoableBlockNum db = 2 ^ 32 - 1 ∨
    db.pendingTxSession = true ∧ 0 < fixedBlockNum db ∧
      lastNonUndoableBlockNum db + 1 = fixedBlockNum db := by
  have hhead := h.head
  have hbound := h.bound
  unfold lastNonUndoableBlockNum fixedBlockNum
  cases hsession : db.pendingTxSession with
  | false =>
    have hsaved : db.undoDb.saved.length = db.committed.length := by simp [Database.committed,
      hsession]
    refine Or.inl ⟨rfl, ?_⟩
    omega
  | true =>
    have hsaved : db.undoDb.saved.length = db.committed.length + 1 := by
      obtain ⟨s, l, hl⟩ := List.exists_cons_of_ne_nil (hc.saved hsession)
      simp [Database.committed, hsession, hl]
    by_cases hall : db.headBlockNum - db.committed.length = 0
    · refine Or.inr (Or.inl ⟨rfl, hall, ?_⟩)
      omega
    · refine Or.inr (Or.inr ⟨rfl, Nat.pos_of_ne_zero hall, ?_⟩)
      omega

/-! ### Reference points -/

def tipId (r : Rules ω ρ) : List (SignedBlock ω) → BlockId
  | [] => .zero
  | b :: _ => r.blockId b.toBlockHeader

theorem tipId_eq {id : BlockId} (h : Descends r id chain) : id = tipId r chain := by
  cases chain with
  | nil => exact h
  | cons b chain => exact h.1

/-- The reference points of a synopsis with the chains that they end, and the number of blocks that
the main chain has above the fork point when they are on a fork: none, a block of the main chain, or
the head of a fork that the fork database knows and that branches off at a block that cannot be
popped or above it. -/
inductive Reference (r : Rules ω ρ) (db : Database ω ρ) (chain : List (SignedBlock ω)) :
    BlockId → List (SignedBlock ω) → Option Nat → Prop
  | none : Reference r db chain .zero chain none
  | main {b : SignedBlock ω} {rest : List (SignedBlock ω)} (h : b :: rest <:+ chain) :
      Reference r db chain (r.blockId b.toBlockHeader) (b :: rest) none
  | fork {a last : ForkItem ω} {l : List (ForkItem ω)} {above : Nat}
      (hfetch : db.forkDb.fetchBlock a.id = some a) (hwalk : Walk db.forkDb a l last)
      (habove : above ≤ chain.length) (hmeets : Descends r last.data.previous (chain.drop above))
      (hoff : ∀ i ∈ l ++ [last], ∀ b ∈ chain, r.blockId b.toBlockHeader ≠ i.id)
      (hfixed : fixedBlockNum db ≤ (chain.drop above).length) :
      Reference r db chain a.id ((l ++ [last]).map ForkItem.data ++ chain.drop above) (some above)

/-- The fork database leads from the head block over so many blocks of the main chain. -/
def LeadsBack (db : Database ω ρ) (above : Nat) : Prop :=
  ∃ a l last, db.forkDb.fetchBlock db.headBlockId = some a ∧ Walk db.forkDb a l last ∧
    l.length + 1 = above

/-! ### Forks -/

section Forks

variable {f : ForkDatabase ω} {heap : List (ForkItem ω)} {a b last last' : ForkItem ω}
  {l l' : List (ForkItem ω)}

theorem walk_num (hheap : ForkHeap r heap f) (hw : Walk f a l last) (ha : a ∈ heap) :
    a.num = last.num + l.length ∧ last ∈ heap := by
  induction hw with
  | here a => exact ⟨rfl, ha⟩
  | up hp _ ih =>
    obtain ⟨hpmem, -, -, hnum⟩ := hheap.lock (by simp) ha hp
    obtain ⟨hlast, hmem⟩ := ih hpmem
    rw [List.length_cons]
    exact ⟨by omega, hmem⟩

theorem walk_first (hw : Walk f a l last) : a ∈ l ++ [last] := by
  cases hw with
  | here => exact List.mem_singleton_self _
  | up => exact List.mem_cons_self ..

theorem item_descends (hheap : ForkHeap r heap f) (hinj : Function.Injective r.blockId)
    (ha : a ∈ heap)
    (hchain : Descends r a.id chain) :
    ∃ b rest, chain = b :: rest ∧ r.blockId b.toBlockHeader = a.id ∧
      Descends r a.data.previous rest := by
  obtain ⟨-, hid⟩ := hheap.item a ha
  cases chain with
  | nil =>
    have hzero : a.id = .zero := hchain
    rw [hid] at hzero
    cases congrArg BlockId.num hzero
  | cons b rest =>
    obtain ⟨hb, hrest⟩ := hchain
    have hheader : a.data.toBlockHeader = b.toBlockHeader := hinj (hid.symm.trans hb)
    refine ⟨b, rest, rfl, hb.symm, ?_⟩
    rw [hheader]
    exact hrest

theorem walk_descends (hheap : ForkHeap r heap f) (hinj : Function.Injective r.blockId)
    (hw : Walk f a l last) (ha : a ∈ heap) (hchain : Descends r a.id chain) :
    Descends r last.id (chain.drop l.length) := by
  induction hw generalizing chain with
  | here a => exact hchain
  | up hp _ ih =>
    obtain ⟨hpmem, -, hpid, -⟩ := hheap.lock (by simp) ha hp
    obtain ⟨b, rest, rfl, -, hrest⟩ := item_descends hheap hinj ha hchain
    rw [List.length_cons, List.drop_succ_cons]
    exact ih hpmem (hpid ▸ hrest)

/-- A branch is off the chain of an item of the same height down to where it meets it. -/
structure Apart (r : Rules ω ρ) (chain : List (SignedBlock ω)) (a : ForkItem ω)
    (l : List (ForkItem ω)) (last : ForkItem ω) : Prop where
  on : Descends r a.id chain
  meets : Descends r last.data.previous (chain.drop (l.length + 1))
  off : ∀ i ∈ l ++ [last], ∀ c ∈ chain, r.blockId c.toBlockHeader ≠ i.id

theorem Apart.step {p : ForkItem ω} (hheap : ForkHeap r heap f)
    (hinj : Function.Injective r.blockId)
    (ha : a ∈ heap) (hb : b ∈ heap) (hp : f.lock [] b.prev = some p) (hw : Walk f p l last)
    (h : Apart r chain a (b :: l) last) : a.data.previous ≠ b.data.previous ∧
      ∀ q, f.lock [] a.prev = some q → ∃ c rest, chain = c :: rest ∧ Apart r rest q l last := by
  obtain ⟨hpmem, -, hpid, -⟩ := hheap.lock (by simp) hb hp
  obtain ⟨c, rest, rfl, -, hrest⟩ := item_descends hheap hinj ha h.on
  refine ⟨fun he => ?_, fun q hq => ?_⟩
  · have htip := tipId_eq hrest
    rw [he, ← hpid] at htip
    cases rest with
    | nil =>
      obtain ⟨-, hid⟩ := hheap.item p hpmem
      rw [htip] at hid
      cases congrArg BlockId.num hid
    | cons d rest =>
      exact h.off p (List.mem_cons_of_mem b (walk_first hw)) d (by simp) htip.symm
  · obtain ⟨-, -, hqid, -⟩ := hheap.lock (by simp) ha hq
    exact ⟨c, rest, rfl, hqid ▸ hrest, h.meets, fun i hi d hd =>
      h.off i (List.mem_cons_of_mem b hi) d (List.mem_cons_of_mem c hd)⟩

theorem Apart.previous (hheap : ForkHeap r heap f) (hinj : Function.Injective r.blockId)
    (ha : a ∈ heap)
    (h : Apart r chain a [] last) : a.data.previous = last.data.previous := by
  obtain ⟨c, rest, rfl, -, hrest⟩ := item_descends hheap hinj ha h.on
  rw [tipId_eq hrest]
  exact (tipId_eq h.meets).symm

theorem meet_apart (hheap : ForkHeap r heap f) (hinj : Function.Injective r.blockId) (ha : a ∈ heap)
    (hb : b ∈ heap) (hw : Walk f b l last) (h : Apart r chain a l last) {fuel : Nat}
    {m m' : List (ForkItem ω)} (hmeet : f.meet fuel a b = some (m, m')) :
    m' = l ++ [last] ∧ ∃ n x, Walk f a n x ∧ n.length = l.length ∧ m = n ++ [x] ∧
      x.data.previous = last.data.previous := by
  induction hw generalizing a chain fuel m m' with
  | here b =>
    cases fuel with
    | zero => cases hmeet
    | succ fuel =>
      have hlast := h.previous hheap hinj ha
      rw [ForkDatabase.meet, if_neg (not_not.mpr hlast)] at hmeet
      cases hmeet
      exact ⟨rfl, [], a, .here a, rfl, rfl, hlast⟩
  | @up b p last l hp hw ih =>
    obtain ⟨hne, hstep⟩ := h.step hheap hinj ha hb hp hw
    cases fuel with
    | zero => cases hmeet
    | succ fuel =>
      rw [ForkDatabase.meet, if_pos hne, hp] at hmeet
      simp only [Option.bind_eq_bind, Option.bind_some, Option.bind_eq_some_iff] at hmeet
      obtain ⟨q, hq, ⟨k, k'⟩, hrec, heq⟩ := hmeet
      cases heq
      obtain ⟨hqmem, -⟩ := hheap.lock (by simp) ha hq
      obtain ⟨c, rest, -, hrest⟩ := hstep q hq
      obtain ⟨rfl, n, x, hn, hlength, rfl, hx⟩ := ih hqmem (hheap.lock (by simp) hb hp).1 hrest hrec
      exact ⟨rfl, a :: n, x, .up hq hn, by simp [hlength], rfl, hx⟩

theorem meet_of_walk (hheap : ForkHeap r heap f) (hinj : Function.Injective r.blockId)
    (ha : a ∈ heap)
    (hb : b ∈ heap) (hw : Walk f b l last) (h : Apart r chain a l last) {fuel : Nat}
    (hw' : Walk f a l' last') (hlength : l'.length = l.length) (hfuel : l.length < fuel) :
    f.meet fuel a b = some (l' ++ [last'], l ++ [last]) := by
  induction hw generalizing a chain fuel l' with
  | here b =>
    obtain ⟨fuel, rfl⟩ := Nat.exists_eq_add_one.mpr (Nat.zero_lt_of_lt hfuel)
    obtain rfl := List.eq_nil_of_length_eq_zero hlength
    cases hw'
    rw [ForkDatabase.meet, if_neg (not_not.mpr (h.previous hheap hinj ha))]
    rfl
  | @up b p last l hp hw ih =>
    obtain ⟨fuel, rfl⟩ := Nat.exists_eq_add_one.mpr (Nat.zero_lt_of_lt hfuel)
    obtain ⟨hne, hstep⟩ := h.step hheap hinj ha hb hp hw
    cases hw' with
    | here => cases hlength
    | @up _ q _ l' hq hw' =>
      obtain ⟨hqmem, -⟩ := hheap.lock (by simp) ha hq
      obtain ⟨c, rest, -, hrest⟩ := hstep q hq
      rw [List.length_cons, List.length_cons] at hlength
      rw [List.length_cons] at hfuel
      have hrec := ih hqmem (hheap.lock (by simp) hb hp).1 hrest hw' (by omega)
        (Nat.lt_of_succ_lt_succ hfuel)
      rw [ForkDatabase.meet, if_pos hne, hp, hq]
      simp only [Option.bind_eq_bind, Option.bind_some, hrec]
      rfl

theorem climb_of_walk (hheap : ForkHeap r heap f) (hw : Walk f a l last) (ha : a ∈ heap)
    {fuel num : Nat}
    (hfuel : a.num < fuel) (hle : last.num ≤ num) :
    ∃ m x n, f.climb fuel a num = some (m, x) ∧ Walk f a m x ∧ Walk f x n last ∧ l = m ++ n := by
  induction hw generalizing fuel with
  | here a =>
    obtain ⟨fuel, rfl⟩ := Nat.exists_eq_add_one.mpr (Nat.zero_lt_of_lt hfuel)
    refine ⟨[], a, [], ?_, .here a, .here a, rfl⟩
    rw [ForkDatabase.climb, if_neg (by omega)]
  | @up a p last l hp hw ih =>
    obtain ⟨fuel, rfl⟩ := Nat.exists_eq_add_one.mpr (Nat.zero_lt_of_lt hfuel)
    by_cases hgt : a.num > num
    · obtain ⟨hpmem, -, -, hnum⟩ := hheap.lock (by simp) ha hp
      obtain ⟨m, x, n, hclimb, hm, hn, rfl⟩ := ih hpmem (show p.num < fuel by omega) hle
      refine ⟨a :: m, x, n, ?_, .up hp hm, hn, rfl⟩
      rw [ForkDatabase.climb, if_pos hgt, hp]
      simp only [Option.bind_eq_bind, Option.bind_some, hclimb]
      rfl
    · refine ⟨[], a, a :: l, ?_, .here a, .up hp hw, rfl⟩
      rw [ForkDatabase.climb, if_neg hgt]

theorem climb_level {fuel num : Nat} (hle : b.num ≤ num) :
    f.climb (fuel + 1) b num = some ([], b) := by
  rw [ForkDatabase.climb, if_neg (by omega)]

end Forks

section ForkHistory

variable {heap : List (ForkItem ω)} {b last : ForkItem ω} {l : List (ForkItem ω)} {above : Nat}

/-- For a fork that is not higher than the main chain, `get_block_ids_on_fork` returns the blocks
down to the fork point when the fork database leads back to it from the head block too, and throws
otherwise. -/
theorem getBlockIdsOnFork_spec (hheap : ForkHeap r heap db.forkDb)
    (hinj : Function.Injective r.blockId)
    (h : MainChain r db chain) (hfetch : db.forkDb.fetchBlock b.id = some b)
    (hwalk : Walk db.forkDb b l last) (habove : above ≤ chain.length)
    (hmeets : Descends r last.data.previous (chain.drop above))
    (hoff : ∀ i ∈ l ++ [last], ∀ c ∈ chain, r.blockId c.toBlockHeader ≠ i.id)
    (hle : l.length + 1 ≤ above) :
    (LeadsBack db above → getBlockIdsOnFork db b.id =
      some ((l ++ [last]).map ForkItem.id ++ [tipId r (chain.drop above)])) ∧
    ∀ history, getBlockIdsOnFork db b.id = some history → LeadsBack db above := by
  have hb : b ∈ heap := hheap.index b (ForkHeap.fetchBlock_mem hfetch).1
  obtain ⟨hbnum, hlast⟩ := walk_num hheap hwalk hb
  have hlastNum : last.num = chain.length - above + 1 := by
    have hlength := hmeets.length
    rw [List.length_drop] at hlength
    rw [(hheap.item last hlast).1, BlockHeader.blockNum, hlength]
  have hitem : ∀ a, db.forkDb.fetchBlock db.headBlockId = some a →
      a ∈ heap ∧ a.num = chain.length ∧ Descends r a.id chain := by
    intro a ha
    obtain ⟨hmem, hid⟩ := ForkHeap.fetchBlock_mem ha
    have hdescends : Descends r a.id chain := hid ▸ h.descends
    exact ⟨hheap.index a hmem, by rw [← (hheap.num (hheap.index a hmem)).2, hdescends.length],
      hdescends⟩
  -- the branch is apart from the chain of the block of the main chain at its height
  have hapart : ∀ (x : ForkItem ω) (k : Nat), Descends r x.id (chain.drop k) →
    k + (l.length + 1) = above →
      Apart r (chain.drop k) x l last := by
    intro x k hx hk
    refine ⟨hx, ?_, fun i hi c hc => hoff i hi c (List.mem_of_mem_drop hc)⟩
    rw [List.drop_drop, hk]
    exact hmeets
  constructor
  · rintro ⟨a, m, x, ha, hm, hlength⟩
    obtain ⟨hamem, hanum, hdescends⟩ := hitem a ha
    obtain ⟨hxnum, hxmem⟩ := walk_num hheap hm hamem
    obtain ⟨m₁, y, n, hclimb, hm₁, hn, rfl⟩ :=
      climb_of_walk hheap hm hamem (Nat.lt_succ_self _) (show x.num ≤ b.num by omega)
    obtain ⟨-, hmin, -⟩ := climb_walk hheap hamem hclimb
    obtain ⟨hynum, hymem⟩ := walk_num hheap hm₁ hamem
    obtain ⟨hnnum, -⟩ := walk_num hheap hn hymem
    rw [List.length_append] at hlength hxnum
    have hmeet := meet_of_walk hheap hinj hymem hb hwalk
      (hapart y m₁.length (walk_descends hheap hinj hm₁ hamem hdescends) (by omega)) hn (by omega)
      (show l.length < y.num + 1 by omega)
    have hbranches : db.forkDb.fetchBranchFrom db.headBlockId b.id =
        some (m₁ ++ (n ++ [x]), [] ++ (l ++ [last])) := by
      simp only [ForkDatabase.fetchBranchFrom, ha, hfetch, Option.bind_eq_bind, Option.bind_some,
        hclimb,
        climb_level (show b.num ≤ y.num by omega), hmeet, Option.pure_def]
    have hprevious : x.data.previous = tipId r (chain.drop above) := by
      obtain ⟨c, rest, hdrop, -, hrest⟩ :=
        item_descends hheap hinj hxmem (walk_descends hheap hinj hm hamem hdescends)
      rw [tipId_eq hrest, ← hlength, ← List.drop_drop, ← List.length_append, hdrop]
      rfl
    simp only [getBlockIdsOnFork, hbranches, Option.bind_eq_bind, Option.bind_some, List.nil_append,
      ← List.append_assoc, List.getLast?_concat, hprevious, Option.pure_def]
  · intro history hhistory
    simp only [getBlockIdsOnFork, ForkDatabase.fetchBranchFrom, Option.bind_eq_bind,
      Option.bind_eq_some_iff] at hhistory
    obtain ⟨-, ⟨a, ha, b', hb', ⟨l₁, y⟩, hclimb, ⟨l₂, y'⟩, hclimb', ⟨n, n'⟩, hmeet, -⟩, -⟩ :=
      hhistory
    obtain rfl : b = b' := Option.some.inj (hfetch.symm.trans hb')
    obtain ⟨hamem, hanum, hdescends⟩ := hitem a ha
    obtain ⟨hw, hmin, -⟩ := climb_walk hheap hamem hclimb
    obtain ⟨hynum, hymem⟩ := walk_num hheap hw hamem
    simp only at hmeet hclimb'
    rw [climb_level (by omega)] at hclimb'
    cases hclimb'
    obtain ⟨-, k, x, hk, hlength, -, -⟩ := meet_apart hheap hinj hymem hb hwalk
      (hapart y l₁.length (walk_descends hheap hinj hw hamem hdescends) (by omega)) hmeet
    exact ⟨a, l₁ ++ k, x, ha, hw.append hk, by rw [List.length_append]; omega⟩

end ForkHistory

end Nestchain.App
