import Nestchain.Chain.Block
import Nestchain.Lib.Attempt
import Mathlib.Data.BitVec

/-! The schedule of the witnesses: the times of the slots, who produces in which slot, and what a
block that is applied does to the numbers that count the slots.  Times are seconds in words of 32
bits.  Of a block only what the schedule depends on is modelled; the votes decide who becomes an
active witness, and the committee which parameters are adopted, so both are given with a block. -/

namespace Nestchain.Schedule

open Lib Chain

/-- The value of a `uint32_t` after an operation. -/
def word (x : Nat) : Nat := x % 2 ^ 32

/-- The `chain_parameters` of the schedule, as `chain_parameters::validate` accepts them. -/
structure Parameters where
  blockInterval : Nat
  maintenanceInterval : Nat
  maintenanceSkipSlots : Nat
  interval_pos : 0 < blockInterval
  interval_le : blockInterval ≤ 30
  interval_lt : blockInterval < maintenanceInterval
  interval_dvd : blockInterval ∣ maintenanceInterval

/-- The fields of the two property objects and of the witness schedule object, and the missed blocks
of the witnesses. -/
structure State where
  parameters : Parameters
  activeWitnesses : ActiveWitnesses
  headBlockNumber : Nat
  headBlockId : BlockId
  time : Nat
  nextMaintenanceTime : Nat
  recentlyMissedCount : Nat
  currentAslot : Nat
  recentSlotsFilled : BitVec 128
  maintenanceFlag : Bool
  currentShuffledWitnesses : List WitnessId
  totalMissed : WitnessId → Nat

namespace State

/-! ### Slots -/

/-- The number is taken modulo the size of the list, which must not be empty. -/
def getScheduledWitness (s : State) (slotNum : Nat) : Attempt WitnessId :=
  let currentAslot := (s.currentAslot + slotNum) % 2 ^ 64
  demand s.currentShuffledWitnesses[currentAslot % s.currentShuffledWitnesses.length]?

def getSlotTime (s : State) (slotNum : Nat) : Nat :=
  if slotNum = 0 then 0
  else
    let interval := s.parameters.blockInterval
    -- the first block is at the genesis time plus one block interval
    if s.headBlockNumber = 0 then word (s.time + word (slotNum * interval))
    else
      let headSlotTime := s.time / interval * interval
      let slotNum :=
        if s.maintenanceFlag then word (slotNum + s.parameters.maintenanceSkipSlots) else slotNum
      word (headSlotTime + word (slotNum * interval))

def getSlotAtTime (s : State) (when : Nat) : Nat :=
  let firstSlotTime := s.getSlotTime 1
  if when < firstSlotTime then 0
  else word ((when - firstSlotTime) / s.parameters.blockInterval + 1)

/-- The number of the missed blocks.  Each is counted for the witness that missed it, unless there
are as many as witnesses. -/
def updateWitnessMissedBlocks (s : State) (b : BlockHeader) : Attempt (Nat × State) := do
  let slot := s.getSlotAtTime b.timestamp
  require (slot ≠ 0)
  let missedBlocks := slot - 1
  if missedBlocks < s.currentShuffledWitnesses.length then do
    let totalMissed ← (List.range missedBlocks).foldlM (fun totalMissed i => do
      let witness ← s.getScheduledWitness (i + 1)
      pure (Function.update totalMissed witness (totalMissed witness + 1))) s.totalMissed
    pure (missedBlocks, { s with totalMissed := totalMissed })
  else pure (missedBlocks, s)

def popcount (x : BitVec 128) : Nat := (List.range 128).countP x.getLsbD

def witnessParticipationRate (s : State) : Nat :=
  hundredPercent * popcount s.recentSlotsFilled / 128

/-! ### The shuffle -/

def random (nowHi : UInt64) (i : Nat) : UInt64 :=
  let k := nowHi + UInt64.ofNat i * 2685821657736338717
  let k := k ^^^ (k >>> 12)
  let k := k ^^^ (k <<< 25)
  let k := k ^^^ (k >>> 27)
  k * 2685821657736338717

/-- Position `i` is swapped with a position that is not before it. -/
def shuffleRound (nowHi : UInt64) (witnesses : Array WitnessId) (i : Nat) :
    Attempt (Array WitnessId) :=
  let jmax := witnesses.size - i
  let j := i + (random nowHi i).toNat % jmax
  if h : i < witnesses.size ∧ j < witnesses.size then pure (witnesses.swap i j) else .error .thrown

def shuffle (time : Nat) (witnesses : List WitnessId) : Attempt (List WitnessId) := do
  let nowHi := UInt64.ofNat time <<< 32
  let shuffled ← (List.range witnesses.length).foldlM (shuffleRound nowHi) witnesses.toArray
  pure shuffled.toList

def updateWitnessSchedule (s : State) : Attempt State :=
  if s.headBlockNumber % s.activeWitnesses.1.length = 0 then do
    let shuffled ← shuffle s.time s.activeWitnesses.1
    pure { s with currentShuffledWitnesses := shuffled }
  else pure s

/-! ### Blocks -/

/-- The checks of the previous block, of the time and of the schedule. -/
def validateBlockHeader (skipWitnessScheduleCheck : Bool) (s : State) (b : BlockHeader) :
    Attempt Unit := do
  require (s.headBlockId = b.previous)
  require (s.time < b.timestamp)
  if skipWitnessScheduleCheck then pure () else do
    let slotNum := s.getSlotAtTime b.timestamp
    require (0 < slotNum)
    let scheduledWitness ← s.getScheduledWitness slotNum
    require (b.witness = scheduledWitness)

/-- The number of recently missed blocks after a block, which is not counted up to the last
checkpoint. -/
def countRecentlyMissed (lastCheckpoint : Option Nat) (blockNum missedBlocks count : Nat) : Nat :=
  if blockNum = 1 then 0
  else if lastCheckpoint.any (blockNum ≤ ·) then 0
  else if missedBlocks ≠ 0 then word (count + 4 * missedBlocks)
  else if 4 < count then count - 3
  else count - 1

def updateGlobalDynamicData (lastCheckpoint : Option Nat) (digest : BlockHeader → Nat) (s : State)
    (b : BlockHeader) (missedBlocks : Nat) : State :=
  { s with
    recentlyMissedCount :=
      countRecentlyMissed lastCheckpoint b.blockNum missedBlocks s.recentlyMissedCount
    headBlockNumber := b.blockNum
    headBlockId := ⟨b.blockNum, digest b⟩
    time := b.timestamp
    recentSlotsFilled := ((s.recentSlotsFilled <<< 1) + 1) <<< missedBlocks
    currentAslot := (s.currentAslot + (missedBlocks + 1)) % 2 ^ 64 }

/-- What maintenance leads to: the witnesses that are voted for, and the parameters that are
pending. -/
structure Maintenance where
  activeWitnesses : ActiveWitnesses
  pendingParameters : Option Parameters

/-- `perform_chain_maintenance`, of which the next maintenance time uses the new parameters. -/
def performChainMaintenance (s : State) (m : Maintenance) (b : BlockHeader) : State :=
  let parameters := m.pendingParameters.getD s.parameters
  let maintenanceInterval := parameters.maintenanceInterval
  { s with
    activeWitnesses := m.activeWitnesses
    parameters := parameters
    nextMaintenanceTime :=
      if s.nextMaintenanceTime ≤ b.timestamp then
        if b.blockNum = 1 then
          word ((b.timestamp / maintenanceInterval + 1) * maintenanceInterval)
        else
          let y := (s.time - s.nextMaintenanceTime) / maintenanceInterval
          word (s.nextMaintenanceTime + (y + 1) * maintenanceInterval)
      else s.nextMaintenanceTime }

def updateMaintenanceFlag (s : State) (newMaintenanceFlag : Bool) : State :=
  { s with maintenanceFlag := newMaintenanceFlag }

/-- `_apply_block`.  The maintenance flag is updated after the slots have been computed. -/
def applyBlock (lastCheckpoint : Option Nat) (digest : BlockHeader → Nat) (skip : Bool) (s : State)
    (b : BlockHeader) (m : Maintenance) : Attempt State := do
  s.validateBlockHeader skip b
  let maintNeeded := decide (s.nextMaintenanceTime ≤ b.timestamp)
  let (missed, s) ← s.updateWitnessMissedBlocks b
  let s := s.updateGlobalDynamicData lastCheckpoint digest b missed
  let s := if maintNeeded then s.performChainMaintenance m b else s
  (s.updateMaintenanceFlag maintNeeded).updateWitnessSchedule

end State

end Nestchain.Schedule
