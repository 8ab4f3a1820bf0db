import Nestchain.App.Reference

/-! A synopsis summarizes the chain of its reference point, and the reply goes on from its highest
block on the chain of the other node, under conditions on the two databases: the pending session is
counted as a block that can be popped, and branches and blocks are looked up where they may be
missing. -/

namespace Nestchain.App

open Nestchain.Chain

variable {ω ρ : Type} {r : Rules ω ρ} {cps : Checkpoints} {db : Database ω ρ}
  {chain path : List (SignedBlock ω)}

/-- The number of the first block of a synopsis: the last one that cannot be popped, or the
reference point if it is lower. -/
def firstNum (db : Database ω ρ) (path : List (SignedBlock ω)) : Nat :=
  min (max (fixedBlockNum db) 1) path.length

/-- `get_blockchain_synopsis` ends with a summary of the chain of its reference point, up to the
reference point when no blocks are to follow. -/
def HasSynopsis (r : Rules ω ρ) (db : Database ω ρ) (referencePoint : BlockId)
    (path : List (SignedBlock ω)) (n : Nat) : Prop :=
  ∃ fuel ids, getBlockchainSynopsis db fuel referencePoint n = some ids ∧ (path = [] → ids = []) ∧
    (path ≠ [] → Summarizes r path (firstNum db path) ids ∧
      (n = 0 → ids.getLast? = idAt r path path.length))

/-- No session for pending transactions is open, or it makes no difference: one block cannot be
popped, or the reference point is below the last such block.  Not too many blocks are to follow.  A
fork is not higher than the main chain, and the fork database leads back to it from the head
block. -/
structure Summarizable (db : Database ω ρ) (chain : List (SignedBlock ω)) (referencePoint : BlockId)
    (path : List (SignedBlock ω)) (forked : Option Nat) (n : Nat) : Prop where
  start : path = [] ∨ db.pendingTxSession = false ∨ fixedBlockNum db = 1 ∨
    forked = none ∧ referencePoint ≠ .zero ∧
      (path.length < fixedBlockNum db ∨ fixedBlockNum db = 0 ∧ path.length = 1)
  count : path ≠ [] → CountFits path.length n (firstNum db path)
  linked : ∀ above, forked = some above → path.length ≤ chain.length ∧ LeadsBack db above

/-! ### From a range to a synopsis -/

section Range

variable {id referencePoint : BlockId} {low nonFork n : Nat} {fork : List BlockId}

theorem synopsisLoop_head {block : Nat → Option BlockId} {trueHigh high fuel low : Nat}
    {ids : List BlockId}
    (h : synopsisLoop block trueHigh high fuel low = some ids) :
    ∃ id, block low = some id ∧ ids.head? = some id := by
  cases fuel with
  | zero => cases h
  | succ fuel =>
    simp only [synopsisLoop, Option.bind_eq_bind, Option.bind_eq_some_iff] at h
    obtain ⟨id, hid, h⟩ := h
    split at h
    · obtain ⟨ids', -, h⟩ := Option.bind_eq_some_iff.mp h
      cases h
      exact ⟨id, hid, rfl⟩
    · cases h
      exact ⟨id, hid, rfl⟩

theorem getBlockchainSynopsis_eq (hne : path ≠ [])
    (hrange : synopsisRange db referencePoint = some (low, path.length, nonFork, fork))
    (fuel : Nat) :
    getBlockchainSynopsis db fuel referencePoint n =
      synopsisLoop (synopsisBlock db nonFork fork) ((path.length + n) % 2 ^ 32) path.length fuel
        (if low = 0 then 1 else low) := by
  have hpos : path.length ≠ 0 := fun h => hne (List.eq_nil_of_length_eq_zero h)
  simp only [getBlockchainSynopsis, hrange, Option.bind_eq_bind, Option.bind_some, hpos, and_false,
    if_false]

theorem hasSynopsis_of_range (hpath : Descends r id path) (hne : path ≠ [])
    (hrange : synopsisRange db referencePoint = some (low, path.length, nonFork, fork))
    (hblock : ∀ num, 0 < num → num ≤ path.length → synopsisBlock db nonFork fork num =
      idAt r path num)
    (hlow : low ≤ path.length) (hheight : path.length < 2 ^ 32) (hn : n < 2 ^ 32) :
    ((if low = 0 then 1 else low) = firstNum db path → CountFits path.length n (firstNum db path) →
      HasSynopsis r db referencePoint path n) ∧
    (HasSynopsis r db referencePoint path n → (if low = 0 then 1 else low) = firstNum db path ∧
      path.length + n + 2 < 2 ^ 32 + firstNum db path) := by
  have hpos : 0 < path.length := List.length_pos_of_ne_nil hne
  generalize hstart : (if low = 0 then 1 else low) = start
  have hstart₁ : 0 < start ∧ start ≤ path.length := by
    rw [← hstart]
    split <;> omega
  constructor
  · intro hfirst hcount
    subst hfirst
    obtain ⟨fuel, ids, hloop, hsummary, hlast⟩ :=
      synopsisLoop_summarizes hpath hblock hstart₁.1 hstart₁.2 hcount
    refine ⟨fuel, ids, ?_, fun h => absurd h hne, fun _ => ⟨hsummary, hlast⟩⟩
    rw [getBlockchainSynopsis_eq hne hrange, hstart]
    exact hloop
  · rintro ⟨fuel, ids, hids, -, hgood⟩
    rw [getBlockchainSynopsis_eq hne hrange, hstart] at hids
    obtain ⟨id', hid', hhead⟩ := synopsisLoop_head hids
    rw [hblock start hstart₁.1 hstart₁.2] at hid'
    have hfirst := (hgood hne).1.first
    rw [hhead, Option.map_some, idAt_num hpath hid'] at hfirst
    have hfirst := Option.some.inj hfirst
    refine ⟨hfirst, ?_⟩
    rw [← hfirst]
    by_contra hover
    rw [synopsisLoop_none hn hheight hstart₁.1 hstart₁.2 (by omega)] at hids
    cases hids

end Range

/-! ### The ranges of reference points -/

theorem descends_suffix {id : BlockId} (h : Descends r id chain) (hsuffix : path <:+ chain) :
    ∃ id', Descends r id' path := by
  obtain ⟨pre, rfl⟩ := hsuffix
  induction pre generalizing id with
  | nil => exact ⟨id, h⟩
  | cons b pre ih => exact ih h.2

theorem idAt_tip (b : SignedBlock ω) (rest : List (SignedBlock ω)) :
    idAt r (b :: rest) (b :: rest).length = some (r.blockId b.toBlockHeader) := by
  rw [List.length_cons, idAt, List.reverse_cons, List.getElem?_append_right (by simp)]
  simp

theorem synopsisBlock_main (h : MainChain r db chain) (hsuffix : path <:+ chain) (num : Nat)
    (hpos : 0 < num)
    (hle : num ≤ path.length) : synopsisBlock db path.length [] num = idAt r path num := by
  obtain ⟨pre, rfl⟩ := hsuffix
  rw [synopsisBlock, if_pos hle, h.getBlockIdForNum hpos (by rw [List.length_append]; omega),
    idAt_append hle]

theorem synopsisRange_none (h : MainChain r db chain) :
    synopsisRange db .zero = some (lastNonUndoableBlockNum db, chain.length, chain.length, []) := by
  simp [synopsisRange, h.head]

theorem synopsisRange_main (h : MainChain r db chain) {b : SignedBlock ω}
    {rest : List (SignedBlock ω)}
    (hsuffix : b :: rest <:+ chain) :
    synopsisRange db (r.blockId b.toBlockHeader) =
      some (if (b :: rest).length < lastNonUndoableBlockNum db then (b :: rest).length
        else lastNonUndoableBlockNum db, (b :: rest).length, (b :: rest).length, []) := by
  obtain ⟨id, hid, hrest⟩ := descends_suffix h.descends hsuffix
  have hnum : (r.blockId b.toBlockHeader).num = (b :: rest).length := by
    have hdescends : Descends r id (b :: rest) := ⟨hid, hrest⟩
    rw [← hid, hdescends.length]
  have hne : r.blockId b.toBlockHeader ≠ .zero := by
    intro hzero
    rw [hzero] at hnum
    cases hnum
  have hlookup : getBlockIdForNum db (b :: rest).length = some (r.blockId b.toBlockHeader) := by
    obtain ⟨pre, rfl⟩ := hsuffix
    rw [h.getBlockIdForNum (by simp) (by simp), idAt_append le_rfl, idAt_tip]
  rw [synopsisRange, if_pos hne, isIncludedBlock, hnum, hlookup]
  simp

theorem idAt_mem {num : Nat} {id : BlockId} (h : idAt r chain num = some id) :
    ∃ b ∈ chain, r.blockId b.toBlockHeader = id := by
  cases num with
  | zero => cases h
  | succ num =>
    obtain ⟨b, hb, hid⟩ := Option.map_eq_some_iff.mp h
    exact ⟨b, List.mem_reverse.mp (List.mem_of_getElem? hb), hid⟩

section Fork

variable {heap : List (ForkItem ω)} {a last : ForkItem ω} {l : List (ForkItem ω)} {above : Nat}

theorem fork_descends {f : ForkDatabase ω} (hheap : ForkHeap r heap f) (hwalk : Walk f a l last)
    (ha : a ∈ heap) {rest : List (SignedBlock ω)} (hrest : Descends r last.data.previous rest) :
    Descends r a.id ((l ++ [last]).map ForkItem.data ++ rest) := by
  induction hwalk with
  | here a => exact ⟨(hheap.item a ha).2, hrest⟩
  | up hp _ ih =>
    obtain ⟨hpmem, -, hpid, -⟩ := hheap.lock (by simp) ha hp
    exact ⟨(hheap.item _ ha).2, hpid ▸ ih hpmem hrest⟩

theorem synopsisBlock_fork (hheap : ForkHeap r heap db.forkDb) (h : MainChain r db chain)
    (hmem : ∀ i ∈ l ++ [last], i ∈ heap) (num : Nat) (hpos : 0 < num)
    (hle : num ≤ ((l ++ [last]).map ForkItem.data ++ chain.drop above).length) :
    synopsisBlock db (chain.drop above).length ((l ++ [last]).map ForkItem.id).reverse num =
      idAt r ((l ++ [last]).map ForkItem.data ++ chain.drop above) num := by
  by_cases hlow : num ≤ (chain.drop above).length
  · have hmain := synopsisBlock_main h (List.drop_suffix above chain) num hpos hlow
    rw [synopsisBlock, if_pos hlow] at hmain
    rw [synopsisBlock, if_pos hlow, hmain, idAt_append hlow]
  · obtain ⟨num, rfl⟩ := Nat.exists_eq_add_one.mpr hpos
    have hindex : num + 1 - (chain.drop above).length - 1 = num -
      (chain.drop above).reverse.length := by
      rw [List.length_reverse]
      omega
    rw [synopsisBlock, if_neg hlow, idAt, List.reverse_append,
      List.getElem?_append_right (by rw [List.length_reverse]; omega), hindex, ← List.map_reverse,
      ← List.map_reverse, List.getElem?_map, List.getElem?_map, Option.map_map]
    refine Option.map_congr fun i hi => ?_
    exact (hheap.item i (hmem i (List.mem_reverse.mp (List.mem_of_getElem? hi)))).2

theorem isIncludedBlock_fork (h : MainChain r db chain) (hnum : a.id.num ≤ chain.length)
    (hpos : 0 < a.id.num) (hoff : ∀ c ∈ chain, r.blockId c.toBlockHeader ≠ a.id) :
    isIncludedBlock db a.id = some false := by
  obtain ⟨id, hid⟩ := idAt_isSome (r := r) hpos hnum
  obtain ⟨c, hc, hcid⟩ := idAt_mem hid
  have hne : a.id ≠ id := fun he => hoff c hc (hcid.trans he.symm)
  rw [isIncludedBlock, h.getBlockIdForNum hpos hnum, hid, Option.map_some, decide_eq_false hne]

theorem synopsisRange_fork {id : BlockId} (hne : id ≠ .zero)
    (hincluded : isIncludedBlock db id = some false)
    {ids : List BlockId} {rest : List (SignedBlock ω)} {point : BlockId}
    (hpoint : Descends r point rest)
    (hhistory : getBlockIdsOnFork db id = some (ids ++ [tipId r rest])) :
    synopsisRange db id = if rest.length < lastNonUndoableBlockNum db then none
      else some (lastNonUndoableBlockNum db, rest.length + ids.length, rest.length,
        ids.reverse) := by
  have hnum : (if tipId r rest = BlockId.zero then 0 else (tipId r rest).num) = rest.length := by
    rw [← tipId_eq hpoint, ← hpoint.length]
    split
    · rename_i hzero
      rw [hzero]
      rfl
    · rfl
  rw [synopsisRange, if_pos hne, hincluded]
  simp only [Option.bind_eq_bind, Option.bind_some, Bool.false_eq_true, if_false, hhistory,
    List.getLast?_concat, List.dropLast_concat, hnum, List.length_reverse, Option.pure_def]

end Fork

/-! ### Which synopses are right -/

section Synopsis

variable {referencePoint : BlockId} {forked : Option Nat} {n : Nat}

theorem summarizable_of_range {id : BlockId} {low nonFork : Nat} {fork : List BlockId}
    (hpath : Descends r id path) (hne : path ≠ [])
    (hrange : synopsisRange db referencePoint = some (low, path.length, nonFork, fork))
    (hblock : ∀ num, 0 < num → num ≤ path.length → synopsisBlock db nonFork fork num =
      idAt r path num)
    (hlow : low ≤ path.length) (hheight : path.length ≤ chain.length)
    (hbound : chain.length + 1 < 2 ^ 32)
    (hn : n < 2 ^ 32)
    (hstart : (if low = 0 then 1 else low) = firstNum db path ↔
      db.pendingTxSession = false ∨ fixedBlockNum db = 1 ∨ forked = none ∧ referencePoint ≠ .zero ∧
        (path.length < fixedBlockNum db ∨ fixedBlockNum db = 0 ∧ path.length = 1))
    (hlinked : ∀ above, forked = some above → LeadsBack db above) :
    (Summarizable db chain referencePoint path forked n → HasSynopsis r db referencePoint path n) ∧
    (chain.length < 2 ^ 31 → HasSynopsis r db referencePoint path n →
      Summarizable db chain referencePoint path forked n) := by
  have hiff := hasSynopsis_of_range hpath hne hrange hblock hlow (by omega) hn
  refine ⟨fun hs => hiff.1 (hstart.mpr (hs.start.resolve_left hne)) (hs.count hne), fun hsmall hs =>
    ?_⟩
  obtain ⟨hfirst, hcount⟩ := hiff.2 hs
  exact ⟨Or.inr (hstart.mp hfirst), fun _ => ⟨hcount, fun hlarge => by omega⟩,
    fun above habove => ⟨hheight, hlinked above habove⟩⟩

theorem fixedBlockNum_le_chain (h : MainChain r db chain) : fixedBlockNum db ≤ chain.length := by
  rw [fixedBlockNum, h.head]
  exact Nat.sub_le _ _

/-- Where all blocks that cannot be popped are on the path, the synopsis starts at the last one of
them if no pending session is counted, or if it is the first block. -/
theorem start_iff (hreg : Regular r cps db) (h : MainChain r db chain)
    (hcommitted : db.committed.length ≤ chain.length) {m : Nat} (hpos : 0 < m)
    (hfixed : fixedBlockNum db ≤ m)
    (hle : lastNonUndoableBlockNum db ≤ m) (hbound : m + 1 < 2 ^ 32) :
    (if lastNonUndoableBlockNum db = 0 then 1 else lastNonUndoableBlockNum db) =
        min (max (fixedBlockNum db) 1) m ↔
      db.pendingTxSession = false ∨ fixedBlockNum db = 1 := by
  rcases lastNonUndoableBlockNum_cases hreg.toConsistent h hcommitted with
    ⟨hsession, hl⟩ | ⟨hsession, hall, hl⟩ | ⟨hsession, hsome, hl⟩
  · simp only [hsession, true_or, iff_true]
    split <;> omega
  · omega
  · simp only [hsession, Bool.true_eq_false, false_or]
    split <;> omega

theorem not_start_of_wrapped (hreg : Regular r cps db) (h : MainChain r db chain)
    (hcommitted : db.committed.length ≤ chain.length) {m : Nat} (hfixed : fixedBlockNum db ≤ m)
    (hlate : m < lastNonUndoableBlockNum db) :
    ¬(db.pendingTxSession = false ∨ fixedBlockNum db = 1) := by
  rcases lastNonUndoableBlockNum_cases hreg.toConsistent h hcommitted with
    ⟨-, hl⟩ | ⟨hsession, hall, -⟩ | ⟨-, -, hl⟩
  · omega
  · simp [hsession, hall]
  · omega

theorem hasSynopsis_iff_none (hreg : Regular r cps db) (h : MainChain r db chain)
    (hcommitted : db.committed.length ≤ chain.length) (hn : n < 2 ^ 32) :
    (Summarizable db chain .zero chain none n → HasSynopsis r db .zero chain n) ∧
    (chain.length < 2 ^ 31 → HasSynopsis r db .zero chain n →
      Summarizable db chain .zero chain none n) := by
  have hfixed := fixedBlockNum_le_chain h
  by_cases hne : chain = []
  · subst hne
    refine ⟨fun _ => ⟨0, [], ?_, fun _ => rfl, fun h => absurd rfl h⟩, fun _ _ =>
      ⟨Or.inl rfl, fun h => absurd rfl h, fun _ h => nomatch h⟩⟩
    simp only [getBlockchainSynopsis, synopsisRange_none h, Option.bind_eq_bind, Option.bind_some,
      List.length_nil, and_self, if_true, Option.pure_def]
  have hpos : 0 < chain.length := List.length_pos_of_ne_nil hne
  by_cases hle : lastNonUndoableBlockNum db ≤ chain.length
  · refine summarizable_of_range h.descends hne (synopsisRange_none h)
      (synopsisBlock_main h (List.suffix_refl chain)) hle le_rfl h.bound hn ?_ fun _ h => nomatch h
    rw [firstNum, start_iff hreg h hcommitted hpos hfixed hle h.bound]
    simp
  · refine ⟨fun hs => ?_, fun _ hs => ?_⟩
    · rcases hs.start with hnil | hsession | hone | ⟨-, hzero, -⟩
      · exact absurd hnil hne
      · exact absurd (Or.inl hsession)
          (not_start_of_wrapped hreg h hcommitted hfixed (not_le.mp hle))
      · exact absurd (Or.inr hone) (not_start_of_wrapped hreg h hcommitted hfixed (not_le.mp hle))
      · exact absurd rfl hzero
    · obtain ⟨fuel, ids, hids, -⟩ := hs
      rw [getBlockchainSynopsis_eq hne (synopsisRange_none h)] at hids
      obtain ⟨id, hid, -⟩ := synopsisLoop_head hids
      rw [if_neg (by omega), synopsisBlock, if_neg hle] at hid
      cases hid

theorem hasSynopsis_iff_main (hreg : Regular r cps db) (h : MainChain r db chain)
    (hcommitted : db.committed.length ≤ chain.length) {b : SignedBlock ω}
    {rest : List (SignedBlock ω)} (hsuffix : b :: rest <:+ chain) (hn : n < 2 ^ 32) :
    (Summarizable db chain (r.blockId b.toBlockHeader) (b :: rest) none n →
      HasSynopsis r db (r.blockId b.toBlockHeader) (b :: rest) n) ∧
    (chain.length < 2 ^ 31 → HasSynopsis r db (r.blockId b.toBlockHeader) (b :: rest) n →
      Summarizable db chain (r.blockId b.toBlockHeader) (b :: rest) none n) := by
  have hlow := lastNonUndoableBlockNum_cases hreg.toConsistent h hcommitted
  have hfixed := fixedBlockNum_le_chain h
  have hbound := h.bound
  obtain ⟨id, hpath⟩ := descends_suffix h.descends hsuffix
  have hle := hsuffix.length_le
  have hne : r.blockId b.toBlockHeader ≠ .zero := by
    intro hzero
    cases congrArg BlockId.num hzero
  have hpos : 0 < (b :: rest).length := Nat.succ_pos _
  generalize hlowMain : (if (b :: rest).length <
    lastNonUndoableBlockNum db then (b :: rest).length
    else lastNonUndoableBlockNum db) = low
  refine summarizable_of_range hpath (List.cons_ne_nil b rest)
    (hlowMain ▸ synopsisRange_main h hsuffix) (synopsisBlock_main h hsuffix)
    (by rw [← hlowMain]; split <;> omega) hle hbound hn ?_ (fun _ h => nomatch h)
  unfold firstNum
  subst hlowMain
  rcases hlow with ⟨hsession, hl⟩ | ⟨hsession, hall, hl⟩ | ⟨hsession, hsome, hl⟩
  · simp only [hsession, true_or, iff_true]
    split <;> split <;> omega
  · simp only [hsession, Bool.true_eq_false, false_or, hne, ne_eq, not_false_eq_true, true_and]
    split <;> split <;> omega
  · simp only [hsession, Bool.true_eq_false, false_or, hne, ne_eq, not_false_eq_true, true_and]
    split <;> split <;> omega

theorem not_hasSynopsis_of_throws (h : synopsisRange db referencePoint = none) :
    ¬HasSynopsis r db referencePoint path n := by
  rintro ⟨fuel, ids, hids, -⟩
  simp only [getBlockchainSynopsis, h, Option.bind_eq_bind, Option.bind_none] at hids
  cases hids

theorem hasSynopsis_iff_linked (hreg : Regular r cps db) (h : MainChain r db chain)
    (hcommitted : db.committed.length ≤ chain.length) {id : BlockId} {nonFork : Nat}
    {fork : List BlockId} {above : Nat} (hpath : Descends r id path) (hne : path ≠ [])
    (hrange : synopsisRange db id = if nonFork < lastNonUndoableBlockNum db then none
      else some (lastNonUndoableBlockNum db, path.length, nonFork, fork))
    (hblock : ∀ num, 0 < num → num ≤ path.length →
      synopsisBlock db nonFork fork num = idAt r path num)
    (hfork : fixedBlockNum db ≤ nonFork) (hle : nonFork ≤ path.length)
    (hheight : path.length ≤ chain.length) (hlinked : LeadsBack db above) (hn : n < 2 ^ 32) :
    (Summarizable db chain id path (some above) n → HasSynopsis r db id path n) ∧
    (chain.length < 2 ^ 31 → HasSynopsis r db id path n →
      Summarizable db chain id path (some above) n) := by
  have hbound := h.bound
  by_cases hlate : nonFork < lastNonUndoableBlockNum db
  · rw [if_pos hlate] at hrange
    refine ⟨fun hs => ?_, fun _ hs => absurd hs (not_hasSynopsis_of_throws hrange)⟩
    refine absurd ?_ (not_start_of_wrapped hreg h hcommitted hfork hlate)
    rcases hs.start with hnil | hsession | hone | ⟨hforked, -⟩
    · exact absurd hnil hne
    · exact Or.inl hsession
    · exact Or.inr hone
    · cases hforked
  · rw [if_neg hlate] at hrange
    refine summarizable_of_range hpath hne hrange hblock (by omega) hheight hbound hn ?_
      fun k hk => ?_
    · rw [firstNum, start_iff hreg h hcommitted (List.length_pos_of_ne_nil hne) (by omega)
        (by omega) (by omega)]
      simp
    · obtain rfl := Option.some.inj hk
      exact hlinked

theorem hasSynopsis_iff_fork (hreg : Regular r cps db) (hinj : Function.Injective r.blockId)
    (h : MainChain r db chain) (hcommitted : db.committed.length ≤ chain.length)
    {a last : ForkItem ω} {l : List (ForkItem ω)} {above : Nat}
    (hfetch : db.forkDb.fetchBlock a.id = some a) (hwalk : Walk db.forkDb a l last)
    (habove : above ≤ chain.length) (hmeets : Descends r last.data.previous (chain.drop above))
    (hoff : ∀ i ∈ l ++ [last], ∀ b ∈ chain, r.blockId b.toBlockHeader ≠ i.id)
    (hfork : fixedBlockNum db ≤ (chain.drop above).length)
    (hpath : path = (l ++ [last]).map ForkItem.data ++ chain.drop above) (hn : n < 2 ^ 32) :
    (Summarizable db chain a.id path (some above) n → HasSynopsis r db a.id path n) ∧
    (chain.length < 2 ^ 31 → (chain.length < path.length → db.blockIdToBlock path.length = none) →
      HasSynopsis r db a.id path n → Summarizable db chain a.id path (some above) n) := by
  obtain ⟨heap, hheap⟩ := hreg.heap
  have ha : a ∈ heap := hheap.index a (ForkHeap.fetchBlock_mem hfetch).1
  have hdescends : Descends r a.id path := hpath ▸ fork_descends hheap hwalk ha hmeets
  have hlength : path.length = (chain.drop above).length + (l.length + 1) := by
    simp only [hpath, List.length_append, List.length_map, List.length_singleton]
    omega
  have hnum := hdescends.length
  have hne : path ≠ [] := List.ne_nil_of_length_pos (by omega)
  have hnonzero : a.id ≠ .zero := by
    intro hzero
    rw [hzero] at hnum
    have hnum : 0 = path.length := hnum
    omega
  have hbound := h.bound
  by_cases hle : path.length ≤ chain.length
  · have hincluded : isIncludedBlock db a.id = some false :=
      isIncludedBlock_fork h (by omega) (by omega) (hoff a (walk_first hwalk))
    have hdrop : (chain.drop above).length = chain.length - above := List.length_drop
    obtain ⟨hback, hforth⟩ := getBlockIdsOnFork_spec hheap hinj h hfetch hwalk habove hmeets hoff
      (by omega)
    by_cases hlinked : LeadsBack db above
    · have hrange := synopsisRange_fork hnonzero hincluded hmeets (hback hlinked)
      rw [List.length_map, List.length_append, List.length_singleton, ← hlength] at hrange
      have hspec := hasSynopsis_iff_linked hreg h hcommitted hdescends hne hrange
        (hpath ▸ synopsisBlock_fork hheap h (hwalk.branch hheap ha).2.1) hfork (by omega) hle
        hlinked hn
      exact ⟨hspec.1, fun hsmall _ => hspec.2 hsmall⟩
    · have hthrows : getBlockIdsOnFork db a.id = none := by
        cases hhistory : getBlockIdsOnFork db a.id with
        | none => rfl
        | some history => exact absurd (hforth history hhistory) hlinked
      refine ⟨fun hs => absurd (hs.linked above rfl).2 hlinked, fun _ _ hs =>
        absurd hs (not_hasSynopsis_of_throws ?_)⟩
      simp only [synopsisRange, if_pos hnonzero, hincluded, hthrows, Option.bind_eq_bind,
        Option.bind_some, Option.bind_none, Bool.false_eq_true, if_false]
  · -- the number of the reference point is beyond the store
    refine ⟨fun hs => absurd (hs.linked above rfl).1 hle, fun _ hstored hs =>
      absurd hs (not_hasSynopsis_of_throws ?_)⟩
    have hnothing := hstored (by omega)
    have hincluded : isIncludedBlock db a.id = none := by
      rw [isIncludedBlock, hnum, getBlockIdForNum, hnothing]
      rfl
    simp only [synopsisRange, if_pos hnonzero, hincluded, Option.bind_eq_bind, Option.bind_none]

theorem hasSynopsis_iff (hreg : Regular r cps db) (hinj : Function.Injective r.blockId)
    (h : MainChain r db chain) (hcommitted : db.committed.length ≤ chain.length)
    (href : Reference r db chain referencePoint path forked) (hn : n < 2 ^ 32) :
    (Summarizable db chain referencePoint path forked n → HasSynopsis r db referencePoint path n) ∧
    (chain.length < 2 ^ 31 → (chain.length < path.length → db.blockIdToBlock path.length = none) →
      HasSynopsis r db referencePoint path n →
        Summarizable db chain referencePoint path forked n) := by
  cases href with
  | none =>
    have hspec := hasSynopsis_iff_none hreg h hcommitted hn
    exact ⟨hspec.1, fun hsmall _ => hspec.2 hsmall⟩
  | main hsuffix =>
    have hspec := hasSynopsis_iff_main hreg h hcommitted hsuffix hn
    exact ⟨hspec.1, fun hsmall _ => hspec.2 hsmall⟩
  | fork hfetch hwalk habove hmeets hoff hfork =>
    exact hasSynopsis_iff_fork hreg hinj h hcommitted hfetch hwalk habove hmeets hoff hfork rfl hn

end Synopsis

/-! ### Replies -/

/-- A block that the node knows with a number above its head block, at which it has stored nothing
else. -/
def Stray (db : Database ω ρ) (id : BlockId) : Prop :=
  isKnownBlock db id = true ∧ db.headBlockNum < id.num ∧
    ∀ e, db.blockIdToBlock id.num = some e → e.1 = id

/-- The reply starts at the highest block of the synopsis that is on the chain, or at the first
block for an empty synopsis. -/
inductive StartsAt (r : Rules ω ρ) (chain : List (SignedBlock ω)) : List BlockId → Nat → Prop
  | empty : StartsAt r chain [] 1
  | highest {synopsis : List BlockId} {id : BlockId} (hmem : id ∈ synopsis)
      (hid : idAt r chain id.num = some id)
      (hhighest : ∀ j ∈ synopsis, idAt r chain j.num = some j → j.num ≤ id.num) :
      StartsAt r chain synopsis id.num

/-- The ids of the chain from a number on, up to the limit, and the number of blocks after them. -/
def HasReply (r : Rules ω ρ) (db : Database ω ρ) (chain : List (SignedBlock ω))
    (synopsis : List BlockId)
    (limit start : Nat) : Prop :=
  ∃ ids remaining, getBlockIds db synopsis limit = some (ids, remaining) ∧
    ids.map some = (List.range' start (min limit (chain.length + 1 - start))).map (idAt r chain) ∧
    (ids ≠ [] → remaining = chain.length - (start + ids.length - 1))

section Replies

variable {id : BlockId} {ids synopsis : List BlockId} {limit start : Nat}

theorem blockIdsFrom_eq (h : MainChain r db chain) {left num : Nat} (hpos : 0 < num)
    (hleft : num + left = chain.length + 1) (limit : Nat) :
    ∃ ids, blockIdsFrom db left num limit = some ids ∧
      ids.map some = (List.range' num (min limit left)).map (idAt r chain) := by
  induction left generalizing num limit with
  | zero => exact ⟨[], rfl, by simp⟩
  | succ left ih =>
    cases limit with
    | zero => exact ⟨[], rfl, by simp⟩
    | succ limit =>
      obtain ⟨id, hid⟩ := idAt_isSome (r := r) hpos (show num ≤ chain.length by omega)
      obtain ⟨ids, hids, hmap⟩ := ih (Nat.succ_pos num)
        (show num + 1 + left = chain.length + 1 by omega) limit
      refine ⟨id :: ids, ?_, ?_⟩
      · simp only [blockIdsFrom, Nat.succ_ne_zero, if_false, if_pos hpos,
          h.getBlockIdForNum hpos (show num ≤ chain.length by omega), hid, Option.bind_eq_bind,
          Option.bind_some, Nat.add_sub_cancel, hids, Option.pure_def]
      · rw [List.map_cons, hmap, Nat.succ_min_succ, List.range'_succ, List.map_cons, hid]

theorem reply_eq (h : MainChain r db chain) (hne : db.headBlockNum ≠ 0) {last : BlockId}
    (hlast : lastKnownBlockId db synopsis = some last)
    (hids : ∃ ids, blockIdsFrom db (db.headBlockNum + 1 - last.num) last.num limit = some ids ∧
      ids.map some = (List.range' start (min limit (chain.length + 1 - start))).map
        (idAt r chain)) :
    HasReply r db chain synopsis limit start := by
  obtain ⟨ids, hids, hmap⟩ := hids
  refine ⟨ids, remainingItemCount db ids, ?_, hmap, fun hnonempty => ?_⟩
  · simp only [getBlockIds, if_neg hne, hlast, Option.bind_eq_bind, Option.bind_some, hids,
      Option.pure_def]
  · have hlength : ids.length = min limit (chain.length + 1 - start) := by
      have := congrArg List.length hmap
      simpa using this
    have hpos : 0 < ids.length := List.length_pos_of_ne_nil hnonempty
    have hget : idAt r chain (start + ids.length - 1) = some (ids.getLast hnonempty) := by
      have hentry := congrArg (fun l => l[ids.length - 1]?) hmap
      simp only [List.getElem?_map, ← List.getLast?_eq_getElem?,
        List.getLast?_eq_some_getLast hnonempty,
        ← hlength] at hentry
      rw [List.getElem?_range' (by omega)] at hentry
      have hsum : start + 1 * (ids.length - 1) = start + ids.length - 1 := by omega
      simp only [Option.map_some, hsum] at hentry
      exact (Option.some.inj hentry).symm
    have hnum := idAt_num h.descends hget
    rw [remainingItemCount, List.getLast?_eq_some_getLast hnonempty]
    simp only [hnum, h.head]
    split <;> omega

theorem lastKnownBlock_skip (hpos : 0 < id.num)
    (hskip : isKnownBlock db id = true → isIncludedBlock db id = some false) :
    lastKnownBlock db (id :: ids) = lastKnownBlock db ids := by
  have hne : id ≠ BlockId.zero := by
    rintro rfl
    exact absurd hpos (Nat.lt_irrefl 0)
  rw [lastKnownBlock, if_neg hne]
  split
  · rename_i hknown
    simp [hskip hknown]
  · rfl

theorem isIncludedBlock_eq (h : MainChain r db chain) (hpos : 0 < id.num)
    (hle : id.num ≤ chain.length) :
    isIncludedBlock db id = some (decide (idAt r chain id.num = some id)) := by
  obtain ⟨id', hid'⟩ := idAt_isSome (r := r) hpos hle
  rw [isIncludedBlock, h.getBlockIdForNum hpos hle, hid', Option.map_some]
  simp [eq_comm]

theorem isIncludedBlock_off (h : MainChain r db chain) (hpos : 0 < id.num)
    (hoff : idAt r chain id.num ≠ some id) (hstray : ¬Stray db id)
    (hknown : isKnownBlock db id = true) :
    isIncludedBlock db id = some false := by
  by_cases hle : id.num ≤ chain.length
  · rw [isIncludedBlock_eq h hpos hle, decide_eq_false hoff]
  · have hstored : ∃ e, db.blockIdToBlock id.num = some e ∧ e.1 ≠ id := by
      by_contra hnone
      refine hstray ⟨hknown, by rw [h.head]; omega, fun e he => ?_⟩
      by_contra hne
      exact hnone ⟨e, he, hne⟩
    obtain ⟨e, he, hne⟩ := hstored
    rw [isIncludedBlock, getBlockIdForNum, he]
    simp [Ne.symm hne]

theorem lastKnownBlock_highest (h : MainChain r db chain)
    (hdescending : synopsis.Pairwise fun i j => j.num < i.num)
    (hpos : ∀ i ∈ synopsis, 0 < i.num) (hstray : ∀ i ∈ synopsis, ¬Stray db i) (hmem : id ∈ synopsis)
    (hid : idAt r chain id.num = some id)
    (hhighest : ∀ j ∈ synopsis, idAt r chain j.num = some j → j.num ≤ id.num) :
    lastKnownBlock db synopsis = some id := by
  induction synopsis with
  | nil => cases hmem
  | cons j synopsis ih =>
    obtain ⟨hj, hdescending⟩ := List.pairwise_cons.mp hdescending
    rcases List.mem_cons.mp hmem with rfl | hmem
    · have hnum := idAt_le hid
      have hlookup := h.getBlockIdForNum hnum.1 hnum.2
      rw [hid] at hlookup
      obtain ⟨e, he, hfst⟩ := Option.map_eq_some_iff.mp hlookup
      have hknown : isKnownBlock db id = true := by
        rw [isKnownBlock, he]
        simp [hfst]
      have hne : id ≠ BlockId.zero := by
        rintro rfl
        exact absurd hnum.1 (Nat.lt_irrefl 0)
      rw [lastKnownBlock, if_neg hne, if_pos hknown, isIncludedBlock_eq h hnum.1 hnum.2,
        decide_eq_true hid]
      rfl
    · have hhigher := hj id hmem
      have hoff : idAt r chain j.num ≠ some j := by
        intro hon
        have := hhighest j (List.mem_cons_self ..) hon
        omega
      have hjpos := hpos j (List.mem_cons_self ..)
      have hjstray := hstray j (List.mem_cons_self ..)
      rw [lastKnownBlock_skip hjpos (isIncludedBlock_off h hjpos hoff hjstray)]
      exact ih hdescending (fun i hi => hpos i (List.mem_cons_of_mem j hi))
        (fun i hi => hstray i (List.mem_cons_of_mem j hi)) hmem
        fun i hi => hhighest i (List.mem_cons_of_mem j hi)

theorem lastKnownBlock_stray (h : MainChain r db chain)
    (hdescending : synopsis.Pairwise fun i j => j.num < i.num) (hpos : ∀ i ∈ synopsis, 0 < i.num)
    (hmem : id ∈ synopsis) (hstray : Stray db id) :
    ∀ last, lastKnownBlock db synopsis = some last → db.headBlockNum < last.num := by
  induction synopsis with
  | nil => cases hmem
  | cons j synopsis ih =>
    obtain ⟨hj, hdescending⟩ := List.pairwise_cons.mp hdescending
    have hjpos := hpos j (List.mem_cons_self ..)
    intro last hlast
    by_cases hjstray : Stray db j
    · obtain ⟨hknown, habove, hstored⟩ := hjstray
      have hne : j ≠ BlockId.zero := by
        rintro rfl
        exact absurd hjpos (Nat.lt_irrefl 0)
      rw [lastKnownBlock, if_neg hne, if_pos hknown] at hlast
      obtain ⟨included, hincluded, hlast⟩ := Option.bind_eq_some_iff.mp hlast
      obtain ⟨i, hi, hdecide⟩ := Option.map_eq_some_iff.mp hincluded
      obtain ⟨e, he, hfst⟩ := Option.map_eq_some_iff.mp hi
      have hsame : j = i := (hfst ▸ hstored e he).symm
      rw [decide_eq_true hsame] at hdecide
      subst hdecide
      obtain rfl := Option.some.inj hlast
      exact habove
    · rcases List.mem_cons.mp hmem with rfl | hmem
      · exact absurd hstray hjstray
      · have hhigher := hj id hmem
        have habove := hstray.2.1
        have hoff : idAt r chain j.num ≠ some j := by
          intro hon
          have hle := (idAt_le hon).2
          rw [h.head] at habove
          omega
        rw [lastKnownBlock_skip hjpos (isIncludedBlock_off h hjpos hoff hjstray)] at hlast
        exact ih hdescending (fun i hi => hpos i (List.mem_cons_of_mem j hi)) hmem last hlast

theorem hasReply_iff (h : MainChain r db chain) (hascending :
    (synopsis.map BlockId.num).Pairwise (· < ·))
    (hpos : ∀ i ∈ synopsis, 0 < i.num) (hstart : StartsAt r chain synopsis start) :
    ((∀ i ∈ synopsis, ¬Stray db i) → HasReply r db chain synopsis limit start) ∧
    (0 < limit → HasReply r db chain synopsis limit start → ∀ i ∈ synopsis, ¬Stray db i) := by
  have hdescending : synopsis.reverse.Pairwise fun i j => j.num < i.num :=
    List.pairwise_reverse.mpr (List.pairwise_map.mp hascending)
  have hpos' : ∀ i ∈ synopsis.reverse, 0 < i.num := fun i hi => hpos i (List.mem_reverse.mp hi)
  cases hstart with
  | empty =>
    refine ⟨fun _ => ?_, fun _ _ i hi => nomatch hi⟩
    by_cases hne : db.headBlockNum = 0
    · refine ⟨[], 0, by rw [getBlockIds, if_pos hne], ?_, fun hnil => absurd rfl hnil⟩
      rw [h.head] at hne
      simp [hne]
    · refine reply_eq h hne (if_pos (Or.inl rfl)) ?_
      have hhead := h.head
      obtain ⟨ids, hids, hmap⟩ := blockIdsFrom_eq h Nat.one_pos
        (Nat.add_comm 1 chain.length) limit
      refine ⟨ids, ?_, ?_⟩
      · show blockIdsFrom db (db.headBlockNum + 1 - 0) 0 limit = some ids
        rw [Nat.sub_zero, hhead, blockIdsFrom]
        split
        · rename_i hzero
          subst hzero
          cases hlen : chain.length with
          | zero => rwa [hlen] at hids
          | succ k =>
            rw [hlen] at hids
            exact hids
        · exact hids
      · rwa [Nat.add_sub_cancel]
  | @highest _ id hmem hid hhighest =>
    have hnum := idAt_le hid
    have hhead := h.head
    have hnonempty : ¬(synopsis = [] ∨ synopsis = [BlockId.zero]) := by
      rintro (rfl | rfl)
      · cases hmem
      · exact absurd (hpos .zero (List.mem_singleton_self _)) (Nat.lt_irrefl 0)
    refine ⟨fun hstray => ?_, fun hlimit hreply i hi hstray => ?_⟩
    · have hlast := lastKnownBlock_highest h hdescending hpos'
        (fun i hi => hstray i (List.mem_reverse.mp hi)) (List.mem_reverse.mpr hmem) hid
        fun j hj => hhighest j (List.mem_reverse.mp hj)
      refine reply_eq h (by omega) ((if_neg hnonempty).trans hlast) ?_
      rw [hhead]
      exact blockIdsFrom_eq h hnum.1 (by omega) limit
    · obtain ⟨ids, remaining, hids, hmap, -⟩ := hreply
      simp only [getBlockIds, if_neg (show db.headBlockNum ≠ 0 by omega), Option.bind_eq_bind,
        Option.bind_eq_some_iff] at hids
      obtain ⟨last, hlast, ids', hids', hpair⟩ := hids
      rw [lastKnownBlockId, if_neg hnonempty] at hlast
      have habove := lastKnownBlock_stray h hdescending hpos'
        (List.mem_reverse.mpr hi) hstray last hlast
      rw [show db.headBlockNum + 1 - last.num = 0 by omega] at hids'
      obtain rfl := Option.some.inj hids'
      obtain ⟨rfl, -⟩ := Prod.mk.inj (Option.some.inj hpair)
      have hlength := congrArg List.length hmap
      simp only [List.map_nil, List.length_nil, List.length_map, List.length_range'] at hlength
      omega

end Replies

/-! ### The two ends -/

/-- In a database that runs reach, whose store holds the chain of the head block: a synopsis
summarizes the chain of its reference point if the reference point can be summarized, and only then
as long as nothing is stored above the head block; and the reply to a synopsis goes on from its
highest block on the chain, up to the limit, if and only if the node knows no stray block of the
synopsis. -/
theorem synopsis_and_reply_fit {base : List (SignedBlock ω)} {s0 : Objects ρ}
    (h : Reachable r cps db)
    (hbase : Descends r s0.headBlockId base) (hchain : db.HeadChain r cps base s0 chain)
    (hbound : chain.length + 1 < 2 ^ 32) (hinj : Function.Injective r.blockId) :
    (∀ referencePoint path forked n, Reference r db chain referencePoint path forked → n < 2 ^ 32 →
      (Summarizable db chain referencePoint path forked n →
        HasSynopsis r db referencePoint path n) ∧
      (chain.length < 2 ^ 31 → (chain.length < path.length → db.blockIdToBlock path.length = none) →
        HasSynopsis r db referencePoint path n →
          Summarizable db chain referencePoint path forked n)) ∧
    ∀ synopsis limit start, (synopsis.map BlockId.num).Pairwise (· < ·) →
      (∀ i ∈ synopsis, 0 < i.num) →
      StartsAt r chain synopsis start →
      ((∀ i ∈ synopsis, ¬Stray db i) → HasReply r db chain synopsis limit start) ∧
      (0 < limit → HasReply r db chain synopsis limit start → ∀ i ∈ synopsis, ¬Stray db i) := by
  obtain ⟨hmain, hcommitted⟩ := mainChain_of_reachable h hbase hchain hbound
  exact ⟨fun _ _ _ _ href hn => hasSynopsis_iff h.regular hinj hmain hcommitted href hn,
    fun _ _ _ hascending hpos hstart => hasReply_iff hmain hascending hpos hstart⟩

/-- The rules of the small chain, with the whole header in the digest of a block. -/
def headerRules : Rules Nat Nat :=
  { counterRules with
    blockDigest := fun h => Nat.pair (Nat.pair (Nat.pair h.previous.num h.previous.digest)
      (Nat.pair h.timestamp h.witness)) (Nat.pair h.transactionMerkleRoot h.witnessSignature) }

theorem headerRules_blockId_injective : Function.Injective headerRules.blockId := by
  rintro ⟨⟨a, b⟩, c, d, e, f⟩ ⟨⟨a', b'⟩, c', d', e', f'⟩ h
  have hdigest := congrArg BlockId.digest h
  simp only [Rules.blockId, headerRules, Nat.pair_eq_pair] at hdigest
  obtain ⟨⟨⟨rfl, rfl⟩, rfl, rfl⟩, rfl, rfl⟩ := hdigest
  rfl

theorem headChain_pushBlocks {base : List (SignedBlock ω)} {s0 : Objects ρ}
    (hbase : Descends r s0.headBlockId base) (h : Reachable r cps db)
    (hchain : db.HeadChain r cps base s0 chain) (bs : List (SignedBlock ω)) :
    ∃ chain', (db.calls r cps (bs.map (.pushBlock · .nothing))).HeadChain r cps base s0 chain' := by
  induction bs generalizing db chain with
  | nil => exact ⟨chain, hchain⟩
  | cons b bs ih =>
    obtain ⟨chain', hchain'⟩ := hchain.pushBlock hbase h.regular .nothing b
    exact ih (h.call (.pushBlock b .nothing)) hchain'

theorem chain_of_stored (block : Nat → Option (SignedBlock ω)) {blocks : List (SignedBlock ω)}
    (hchain : ∀ (k : Nat) b, chain.reverse[k]? = some b → block (k + 1) = some b)
    (hlength : chain.length = blocks.length)
    (hblocks : ∀ k (hk : k < blocks.length), block (k + 1) = some blocks[k]) :
    chain.reverse = blocks := by
  refine List.ext_getElem (by rw [List.length_reverse, hlength]) fun k hk hk' => ?_
  have hslot := hchain k _ (List.getElem?_eq_getElem hk)
  rw [hblocks k hk'] at hslot
  exact (Option.some.inj hslot).symm

/-- A block after another one, with the ids of these rules. -/
def headerChild (b : SignedBlock Nat) (timestamp : Nat) : SignedBlock Nat :=
  counterBlock (headerRules.blockId b.toBlockHeader) timestamp 0 []

def syncFirst : SignedBlock Nat := counterBlock .zero 10 0 []

def syncSecond : SignedBlock Nat := headerChild syncFirst 20

def syncRival : SignedBlock Nat := headerChild syncSecond 35

/-- The blocks of a chain. -/
def syncChain : List (SignedBlock Nat) :=
  [headerChild (headerChild syncSecond 30) 40, headerChild syncSecond 30, syncSecond, syncFirst]

/-- The small chain after four blocks and a rival of the third. -/
def syncDatabase : Database Nat Nat :=
  (counterDatabase 9).calls headerRules []
    ((syncChain.reverse ++ [syncRival]).map (.pushBlock · .nothing))

def headerItem (ptr : Nat) (prev : Option Nat) (b : SignedBlock Nat) : ForkItem Nat :=
  ⟨ptr, prev, b.blockNum, headerRules.blockId b.toBlockHeader, b⟩

/-- The synopsis for the rival, and the reply to a synopsis with the rival at the end. -/
theorem synopsis_and_reply_fit_rival :
    Reachable headerRules [] syncDatabase ∧
    HasSynopsis headerRules syncDatabase (headerRules.blockId syncRival.toBlockHeader)
      [syncRival, syncSecond, syncFirst] 0 ∧
    HasReply headerRules syncDatabase syncChain
      ([syncFirst, syncSecond, syncRival].map fun b => headerRules.blockId b.toBlockHeader) 2
        2 := by
  have hopened : Opened headerRules (counterDatabase 9) :=
    ⟨rfl, rfl, rfl, rfl, rfl, rfl, rfl, Or.inl ⟨rfl, rfl, rfl⟩⟩
  have hbase : Descends headerRules (counterDatabase 9).objects.headBlockId [] := rfl
  have hstart : (counterDatabase 9).HeadChain headerRules [] [] (counterDatabase 9).objects [] := by
    refine ⟨fun k s hs => ?_, fun k b hb => by cases hb⟩
    cases k with
    | zero =>
      obtain rfl := Option.some.inj hs
      exact .base
    | succ k => cases hs
  have hreach : Reachable headerRules [] syncDatabase := (Reachable.opened hopened).calls _
  obtain ⟨chain, hchain⟩ := headChain_pushBlocks hbase (.opened hopened) hstart
    (syncChain.reverse ++ [syncRival])
  have hlength : chain.length = 4 := by
    have hdescends : Descends headerRules _ chain := (hchain.grown 0 _ rfl).descends hbase
    rw [← hdescends.length]
    decide +kernel
  -- The store holds the chain, which therefore is the given one.
  obtain rfl : chain = syncChain := by
    have hstored : ∀ (k : Nat) b, chain.reverse[k]? = some b →
        (syncDatabase.blockIdToBlock (k + 1)).map Prod.snd = some b :=
      fun k b hb => congrArg (Option.map Prod.snd) (hchain.blocks k b hb)
    have hreverse : chain.reverse = syncChain.reverse :=
      chain_of_stored (fun num => (syncDatabase.blockIdToBlock num).map Prod.snd) hstored hlength
        (by decide +kernel)
    exact List.reverse_injective hreverse
  obtain ⟨hsynopsis, hreply⟩ := synopsis_and_reply_fit hreach hbase hchain (by decide)
    headerRules_blockId_injective
  have hrival : Reference headerRules syncDatabase syncChain
      (headerRules.blockId syncRival.toBlockHeader) [syncRival, syncSecond, syncFirst]
      (some 2) := by
    have hfetch : syncDatabase.forkDb.fetchBlock (headerItem 4 (some 1) syncRival).id =
        some (headerItem 4 (some 1) syncRival) := by decide +kernel
    have hmeets : Descends headerRules (headerItem 4 (some 1) syncRival).data.previous
        (syncChain.drop 2) := ⟨rfl, rfl, rfl⟩
    exact .fork hfetch (.here _) (by decide) hmeets (by decide +kernel) (by decide +kernel)
  have hback : LeadsBack syncDatabase 2 := by
    let third := headerChild syncSecond 30
    let fourth := headerChild third 40
    refine ⟨headerItem 3 (some 2) fourth, _, headerItem 2 (some 1) third, ?_, .up ?_ (.here _), rfl⟩
    · decide +kernel
    · decide +kernel
  have hstarts : StartsAt headerRules syncChain
      ([syncFirst, syncSecond, syncRival].map fun b => headerRules.blockId b.toBlockHeader)
      (headerRules.blockId syncSecond.toBlockHeader).num :=
    .highest (by simp) (by decide +kernel) (by decide +kernel)
  have hbelow : ∀ i ∈ [syncFirst, syncSecond, syncRival].map fun b =>
      headerRules.blockId b.toBlockHeader, 0 < i.num ∧ i.num ≤ syncDatabase.headBlockNum := by
    decide +kernel
  have hfirst : firstNum syncDatabase [syncRival, syncSecond, syncFirst] = 1 := by decide +kernel
  refine ⟨hreach, (hsynopsis _ _ _ 0 hrival (by decide)).1 ⟨Or.inr (Or.inl ?_), fun _ => ?_, ?_⟩,
    (hreply _ 2 2 (by decide +kernel) (fun i hi => (hbelow i hi).1) hstarts).1
      fun i hi hstray => ?_⟩
  · decide +kernel
  · rw [hfirst]
    exact ⟨by decide, by decide⟩
  · intro above habove
    obtain rfl := Option.some.inj habove
    exact ⟨by decide, hback⟩
  · exact absurd hstray.2.1 (Nat.not_lt.mpr (hbelow i hi).2)
/-- The small chain after one block, with a pending transaction. -/
def pendingDatabase : Database Nat Nat :=
  (counterDatabase 0).calls counterRules []
    [.pushBlock (counterBlock .zero 10 0 []) .nothing,
      .pushTransaction (counterTrx 20 [1]) { SkipFlags.nothing with taposCheck := true }]

/-- With one block and a pending transaction, the number of the last block that cannot be undone
wraps around, and the synopsis starts beyond the end of an empty fork history. -/
theorem pending_transaction_breaks_synopsis :
    ∃ chain, Reachable counterRules [] pendingDatabase ∧
      MainChain counterRules pendingDatabase chain ∧
      chain.length = 1 ∧ lastNonUndoableBlockNum pendingDatabase = 4294967295 ∧
      Reference counterRules pendingDatabase chain .zero chain none ∧
      ¬HasSynopsis counterRules pendingDatabase .zero chain 0 := by
  have hmain : MainChain counterRules pendingDatabase [counterBlock .zero 10 0 []] := by
    refine ⟨⟨by decide +kernel, rfl⟩, by decide +kernel, fun k b hb => ?_, by decide⟩
    cases k with
    | zero =>
      obtain rfl := Option.some.inj hb
      decide +kernel
    | succ k => cases hb
  have hlow : lastNonUndoableBlockNum pendingDatabase = 4294967295 := by decide +kernel
  refine ⟨[counterBlock .zero 10 0 []], (Reachable.opened (counterDatabase_opened 0)).calls _,
    hmain, rfl,
    hlow, .none, ?_⟩
  rintro ⟨fuel, ids, hids, -⟩
  rw [getBlockchainSynopsis_eq (List.cons_ne_nil _ _) (synopsisRange_none hmain), hlow] at hids
  obtain ⟨id, hid, -⟩ := synopsisLoop_head hids
  cases hid

end Nestchain.App
