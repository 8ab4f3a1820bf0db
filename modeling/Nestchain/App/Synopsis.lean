import Nestchain.Chain.BlockStore
import Mathlib.Algebra.Group.Int.Defs
import Mathlib.Algebra.Group.Nat.Defs

/-! The two ends of a sync: `get_blockchain_synopsis` summarizes the chain of a node up to a
reference point, and `get_block_ids` replies with the blocks that follow.  Block numbers are words
of 32 bits. -/

namespace Nestchain.App

open Nestchain.Chain

variable {ω ρ : Type}

/-! ### `database` -/

/-- `get_block_id_for_num`, or `none` when it throws. -/
def getBlockIdForNum (db : Database ω ρ) (num : Nat) : Option BlockId :=
  (db.blockIdToBlock num).map Prod.fst

def isKnownBlock (db : Database ω ρ) (id : BlockId) : Bool :=
  (db.forkDb.fetchBlock id).isSome || (db.blockIdToBlock id.num).any fun e => decide (e.1 = id)

/-- The undo stack has an entry for each committed session, and one for the pending session. -/
def lastNonUndoableBlockNum (db : Database ω ρ) : Nat :=
  (((db.headBlockNum : Int) - db.undoDb.saved.length) % 2 ^ 32).toNat

/-- `get_block_ids_on_fork`, or `none` when it throws: the fork from its head on, and the id of the
block that it shares with the preferred chain. -/
def getBlockIdsOnFork (db : Database ω ρ) (headOfFork : BlockId) : Option (List BlockId) := do
  let branches ← db.forkDb.fetchBranchFrom db.headBlockId headOfFork
  let last ← branches.1.getLast?
  return branches.2.map ForkItem.id ++ [last.data.previous]

/-! ### `application_impl` -/

/-- `is_included_block`, or `none` when it throws. -/
def isIncludedBlock (db : Database ω ρ) (id : BlockId) : Option Bool :=
  (getBlockIdForNum db id.num).map fun preferred => decide (id = preferred)

/-- The block id that the synopsis takes for a number: from the preferred chain, or from the
fork. -/
def synopsisBlock (db : Database ω ρ) (nonForkHighBlockNum : Nat) (forkHistory : List BlockId)
    (num : Nat) : Option BlockId :=
  if num ≤ nonForkHighBlockNum then getBlockIdForNum db num
  else forkHistory[num - nonForkHighBlockNum - 1]?

/-- `low_block_num += (true_high_block_num - low_block_num + 2) / 2` -/
def nextLow (trueHigh low : Nat) : Nat :=
  (low + (((trueHigh : Int) - low + 2) % 2 ^ 32).toNat / 2) % 2 ^ 32

/-- The loop of `get_blockchain_synopsis`, or `none` when it throws, reads beyond the end of the
fork history, or has not ended. -/
def synopsisLoop (block : Nat → Option BlockId) (trueHigh high : Nat) :
    Nat → Nat → Option (List BlockId)
  | 0, _ => none
  | fuel + 1, low => do
    let id ← block low
    if nextLow trueHigh low ≤ high then
      let ids ← synopsisLoop block trueHigh high fuel (nextLow trueHigh low)
      return id :: ids
    else return [id]

/-- `low_block_num`, `high_block_num`, `non_fork_high_block_num` and `fork_history` for the
reference point. -/
def synopsisRange (db : Database ω ρ) (referencePoint : BlockId) :
    Option (Nat × Nat × Nat × List BlockId) :=
  let low := lastNonUndoableBlockNum db
  if referencePoint ≠ BlockId.zero then do
    let included ← isIncludedBlock db referencePoint
    if included then
      return (if referencePoint.num < low then referencePoint.num else low, referencePoint.num,
        referencePoint.num, [])
    else
      let history ← getBlockIdsOnFork db referencePoint
      let lastNonForkBlock ← history.getLast?
      let forkHistory := history.dropLast.reverse
      let nonForkHigh := if lastNonForkBlock = BlockId.zero then 0 else lastNonForkBlock.num
      if nonForkHigh < low then none
      else return (low, nonForkHigh + forkHistory.length, nonForkHigh, forkHistory)
  else return (low, db.headBlockNum, db.headBlockNum, [])

def getBlockchainSynopsis (db : Database ω ρ) (fuel : Nat) (referencePoint : BlockId)
    (numberOfBlocksAfterReferencePoint : Nat) : Option (List BlockId) := do
  let (low, high, nonForkHigh, forkHistory) ← synopsisRange db referencePoint
  let trueHigh := (high + numberOfBlocksAfterReferencePoint) % 2 ^ 32
  if referencePoint = BlockId.zero ∧ high = 0 then return []
  else
    synopsisLoop (synopsisBlock db nonForkHigh forkHistory) trueHigh high fuel
      (if low = 0 then 1 else low)

/-- The last block of a reversed synopsis that is known and on the preferred chain, or `none` when
something throws. -/
def lastKnownBlock (db : Database ω ρ) : List BlockId → Option BlockId
  | [] => none
  | id :: ids =>
    if id = BlockId.zero then some id
    else if isKnownBlock db id then do
      let included ← isIncludedBlock db id
      if included then return id else lastKnownBlock db ids
    else lastKnownBlock db ids

/-- `last_known_block_id`.  A synopsis of block zero stands for an empty one. -/
def lastKnownBlockId (db : Database ω ρ) (blockchainSynopsis : List BlockId) : Option BlockId :=
  if blockchainSynopsis = [] ∨ blockchainSynopsis = [BlockId.zero] then some BlockId.zero
  else lastKnownBlock db blockchainSynopsis.reverse

/-- The ids from a block number on, of which so many are left, up to the limit. -/
def blockIdsFrom (db : Database ω ρ) : Nat → Nat → Nat → Option (List BlockId)
  | 0, _, _ => some []
  | left + 1, num, limit =>
    if limit = 0 then some []
    else if 0 < num then do
      let id ← getBlockIdForNum db num
      let ids ← blockIdsFrom db left (num + 1) (limit - 1)
      return id :: ids
    else blockIdsFrom db left (num + 1) limit

/-- The number of blocks after the last one of a reply. -/
def remainingItemCount (db : Database ω ρ) (ids : List BlockId) : Nat :=
  match ids.getLast? with
  | some id => if id.num < db.headBlockNum then db.headBlockNum - id.num else 0
  | none => 0

/-- `get_block_ids` with the `remaining_item_count`, or `none` when it throws. -/
def getBlockIds (db : Database ω ρ) (blockchainSynopsis : List BlockId) (limit : Nat) :
    Option (List BlockId × Nat) :=
  if db.headBlockNum = 0 then some ([], 0)
  else do
    let last ← lastKnownBlockId db blockchainSynopsis
    let ids ← blockIdsFrom db (db.headBlockNum + 1 - last.num) last.num limit
    return (ids, remainingItemCount db ids)

/-! ### Chains -/

/-- The id of the block with a number on a chain, whose newest block is the first. -/
def idAt (r : Rules ω ρ) (chain : List (SignedBlock ω)) : Nat → Option BlockId
  | 0 => none
  | num + 1 => (chain.reverse[num]?).map fun b => r.blockId b.toBlockHeader

/-- The blocks up to the head block, which the store holds. -/
structure MainChain (r : Rules ω ρ) (db : Database ω ρ) (chain : List (SignedBlock ω)) : Prop where
  descends : Descends r db.headBlockId chain
  head : db.headBlockNum = chain.length
  stored : ∀ (k : Nat) b, chain.reverse[k]? = some b →
    db.blockIdToBlock (k + 1) = some (r.blockId b.toBlockHeader, b)
  bound : chain.length + 1 < 2 ^ 32

/-- The number of the last block that cannot be popped. -/
def fixedBlockNum (db : Database ω ρ) : Nat := db.headBlockNum - db.committed.length

variable {r : Rules ω ρ} {cps : Checkpoints} {db : Database ω ρ} {chain path : List (SignedBlock ω)}

theorem idAt_num {id id' : BlockId} (h : Descends r id chain) {num : Nat}
    (hid : idAt r chain num = some id') :
    id'.num = num := by
  induction chain generalizing id with
  | nil => cases num <;> cases hid
  | cons b chain ih =>
    obtain ⟨-, hrest⟩ := h
    cases num with
    | zero => cases hid
    | succ num =>
      obtain ⟨b', hb', rfl⟩ := Option.map_eq_some_iff.mp hid
      rw [List.reverse_cons] at hb'
      by_cases hlt : num < chain.length
      · rw [List.getElem?_append_left (by simpa using hlt)] at hb'
        exact ih hrest (by rw [idAt, hb']; rfl)
      · rw [List.getElem?_append_right (by simpa using hlt), List.length_reverse] at hb'
        have hnum : num - chain.length = 0 := by
          by_contra hne
          rw [List.getElem?_eq_none (by simp only [List.length_singleton]; omega)] at hb'
          cases hb'
        rw [hnum] at hb'
        obtain rfl : b = b' := by simpa using hb'
        have hlength := hrest.length
        show b.previous.num + 1 = num + 1
        omega

theorem idAt_isSome {num : Nat} (hpos : 0 < num) (hle : num ≤ chain.length) :
    ∃ id, idAt r chain num = some id := by
  obtain ⟨num, rfl⟩ := Nat.exists_eq_add_one.mpr hpos
  have hlt : num < chain.reverse.length := by
    rw [List.length_reverse]
    omega
  exact ⟨_, by rw [idAt, List.getElem?_eq_getElem hlt]; rfl⟩

theorem idAt_le {num : Nat} {id : BlockId} (h : idAt r chain num = some id) :
    0 < num ∧ num ≤ chain.length := by
  cases num with
  | zero => cases h
  | succ num =>
    obtain ⟨b, hb, -⟩ := Option.map_eq_some_iff.mp h
    obtain ⟨hlt, -⟩ := List.getElem?_eq_some_iff.mp hb
    rw [List.length_reverse] at hlt
    omega

theorem idAt_append {more : List (SignedBlock ω)} {num : Nat} (hle : num ≤ chain.length) :
    idAt r (more ++ chain) num = idAt r chain num := by
  cases num with
  | zero => rfl
  | succ num =>
    rw [idAt, idAt, List.reverse_append, List.getElem?_append_left
      (by rw [List.length_reverse]; omega)]

theorem MainChain.getBlockIdForNum (h : MainChain r db chain) {num : Nat} (hpos : 0 < num)
    (hle : num ≤ chain.length) : getBlockIdForNum db num = idAt r chain num := by
  obtain ⟨num, rfl⟩ := Nat.exists_eq_add_one.mpr hpos
  have hlt : num < chain.reverse.length := by
    rw [List.length_reverse]
    omega
  have hget := List.getElem?_eq_getElem hlt
  rw [App.getBlockIdForNum, h.stored num _ hget, idAt, hget]
  rfl

/-! ### The loop -/

/-- Ids of blocks of a chain, in ascending order from the number `low` on. -/
structure Summarizes (r : Rules ω ρ) (path : List (SignedBlock ω)) (low : Nat)
    (ids : List BlockId) :
    Prop where
  first : ids.head?.map BlockId.num = some low
  ascending : (ids.map BlockId.num).Pairwise (· < ·)
  on : ∀ id ∈ ids, idAt r path id.num = some id

/-- So many blocks can follow the reference point that no word overflows on the way. -/
def CountFits (high n low : Nat) : Prop :=
  high + n + 2 < 2 ^ 32 + low ∧ (2 ^ 31 ≤ high → high + n + 1 < 2 ^ 32)

section Loop

variable {block : Nat → Option BlockId} {id : BlockId} {high n low : Nat}

theorem nextLow_eq (hle : low ≤ high) (hcount : CountFits high n low) :
    nextLow ((high + n) % 2 ^ 32) low = low + (high + n - low + 2) / 2 := by
  obtain ⟨hcount, hlarge⟩ := hcount
  have hdistance : ((((high + n) % 2 ^ 32 : Nat) : Int) - low + 2) % 2 ^ 32 =
    (high + n - low + 2 : Nat) := by
    omega
  rw [nextLow, hdistance, Int.toNat_natCast]
  by_cases h : high < 2 ^ 31
  · omega
  · have := hlarge (by omega)
    omega

theorem Summarizes.cons {ids : List BlockId} {low' : Nat} (hid : idAt r path low = some id)
    (hnum : id.num = low) (hlt : low < low') (h : Summarizes r path low' ids) :
    Summarizes r path low (id :: ids) := by
  have hfirst := h.first
  cases ids with
  | nil => cases hfirst
  | cons id' ids =>
    have hnum' : id'.num = low' := by simpa using hfirst
    obtain ⟨hrest, -⟩ := List.pairwise_cons.mp h.ascending
    refine ⟨by simp [hnum], List.pairwise_cons.mpr ⟨fun k hk => ?_, h.ascending⟩, fun j hj => ?_⟩
    · rcases List.mem_cons.mp hk with rfl | hk
      · omega
      · have := hrest k hk
        omega
    · rcases List.mem_cons.mp hj with rfl | hj
      · rwa [hnum]
      · exact h.on j hj

theorem synopsisLoop_summarizes (hpath : Descends r id path)
    (hblock : ∀ num, 0 < num → num ≤ path.length → block num = idAt r path num) (hpos : 0 < low)
    (hle : low ≤ path.length) (hcount : CountFits path.length n low) :
    ∃ fuel ids, synopsisLoop block ((path.length + n) % 2 ^ 32) path.length fuel low = some ids ∧
      Summarizes r path low ids ∧ (n = 0 → ids.getLast? = idAt r path path.length) := by
  induction hleft : path.length - low using Nat.strong_induction_on generalizing low with
  | _ left ih =>
    obtain ⟨id', hid'⟩ := idAt_isSome hpos hle
    have hnum := idAt_num hpath hid'
    have hnext := nextLow_eq hle hcount
    by_cases hends : path.length < low + (path.length + n - low + 2) / 2
    · refine ⟨1, [id'], ?_, ⟨by simp [hnum], List.pairwise_singleton _ _, fun j hj => ?_⟩,
        fun hzero => ?_⟩
      · rw [synopsisLoop, hblock low hpos hle, hid', hnext]
        simp only [Option.bind_eq_bind, Option.bind_some, if_neg (not_le.mpr hends),
          Option.pure_def]
      · obtain rfl := List.mem_singleton.mp hj
        rwa [hnum]
      · have hlow : low = path.length := by omega
        rw [← hlow, hid']
        rfl
    · obtain ⟨hcount₁, hcount₂⟩ := hcount
      obtain ⟨fuel, ids, hloop, hsummary, hlast⟩ := ih
        (path.length - (low + (path.length + n - low + 2) / 2))
        (by omega) (by omega) (by omega) ⟨by omega, hcount₂⟩ rfl
      refine ⟨fuel + 1, id' :: ids, ?_, hsummary.cons hid' hnum (by omega), fun hzero => ?_⟩
      · rw [synopsisLoop, hblock low hpos hle, hid', hnext]
        simp only [Option.bind_eq_bind, Option.bind_some, if_pos (not_lt.mp hends), hloop,
          Option.pure_def]
      · rw [← hlast hzero]
        cases ids with
        | nil =>
          have hfirst := hsummary.first
          cases hfirst
        | cons j ids => rfl

theorem synopsisLoop_none (hn : n < 2 ^ 32) (hhigh : high < 2 ^ 32) (hpos : 0 < low)
    (hle : low ≤ high)
    (hcount : 2 ^ 32 + low ≤ high + n + 2) (fuel : Nat) :
    synopsisLoop block ((high + n) % 2 ^ 32) high fuel low = none := by
  induction fuel generalizing low with
  | zero => rfl
  | succ fuel ih =>
    have hnext : nextLow ((high + n) % 2 ^ 32) low = low + (high + n + 2 - low - 2 ^ 32) / 2 := by
      have hdistance : ((((high + n) % 2 ^ 32 : Nat) : Int) - low + 2) % 2 ^ 32 =
          (high + n + 2 - low - 2 ^ 32 : Nat) := by
        omega
      rw [nextLow, hdistance, Int.toNat_natCast]
      omega
    have hstay : low + (high + n + 2 - low - 2 ^ 32) / 2 ≤ high := by omega
    rw [synopsisLoop, hnext]
    cases block low with
    | none => rfl
    | some id =>
      simp only [Option.bind_eq_bind, Option.bind_some, if_pos hstay,
        ih (by omega) hstay (by omega),
        Option.bind_none]

end Loop

end Nestchain.App
