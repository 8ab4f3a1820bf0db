import Nestchain.Plugins.RollingTicker

/-! Runs of the market history plugin: blocks are applied, and undone, which restores what the
plugin kept before them. -/

namespace Nestchain.Plugins

open Nestchain.Market

/-- The blocks of the chain, the newest first, with what the plugin keeps after each of them. -/
abbrev AppliedBlocks := List (FillBlock × MarketHistory)

namespace AppliedBlocks

def current : AppliedBlocks → MarketHistory
  | [] => .empty
  | (_, s) :: _ => s

/-- The fills of the chain, the oldest first. -/
def trades : AppliedBlocks → List Trade
  | [] => []
  | (b, _) :: chain => trades chain ++ b.fills.map fun o => ⟨b.timestamp, o⟩

/-- When the day before the head block began. -/
def lastDay : AppliedBlocks → Nat
  | [] => 0
  | (b, _) :: _ => b.timestamp - 86400

end AppliedBlocks

inductive ChainEvent where
  | apply (b : FillBlock)
  | undo

/-- `applied_block`, and `undo` of the database. -/
def chainStep (opts : HistoryOptions) (chain : AppliedBlocks) : ChainEvent → AppliedBlocks
  | .apply b => (b, updateMarketHistories opts chain.current b) :: chain
  | .undo => chain.tail

def chainRun (opts : HistoryOptions) (events : List ChainEvent) : AppliedBlocks :=
  events.foldl (chainStep opts) []

/-- The tickers say what was traded in the day before the head block. -/
def TickersRight (chain : AppliedBlocks) : Prop :=
  ∀ m, TickerReflects chain.trades chain.lastDay m (chain.current.tickers m)

/-- What the chain checks of the time of a block, which has 32 bits. -/
def FollowsHead (chain : AppliedBlocks) (b : FillBlock) : Prop :=
  b.timestamp < 2 ^ 32 ∧ ∀ head ∈ chain.head?, head.1.timestamp < b.timestamp

/-- The records that the fills of a block remove. -/
def removedByAll (opts : HistoryOptions) (now : Nat) :
    MarketHistory → List Fill → List HistoryRecord
  | _, [] => []
  | s, o :: os => removedBy opts now s o ++ removedByAll opts now (processFillOrder opts now s o) os

/-- The block is not in the first day of the epoch, removes no maker fill that has not been rolled
out, and finds no maker fill at the cursor that was rolled out without being marked for skipping. -/
structure Settled (opts : HistoryOptions) (chain : AppliedBlocks) (b : FillBlock) : Prop where
  day : 86400 ≤ b.timestamp
  removed : ∀ r ∈ removedByAll opts b.timestamp chain.current b.fills, r.op.isMaker = true →
    r.time < chain.lastDay
  marked : ∀ mtm ∈ chain.current.tickerMeta, mtm.skipMinOrderHisId = false →
    ∀ r ∈ chain.current.history, r.id = mtm.rollingMinOrderHisId → r.op.isMaker = true →
      chain.lastDay ≤ r.time ∨
        r.id ∈ (removedByAll opts b.timestamp chain.current b.fills).map HistoryRecord.id

/-- A condition on every block that a run applies. -/
def AllApplied (opts : HistoryOptions) (P : AppliedBlocks → FillBlock → Prop) :
    AppliedBlocks → List ChainEvent → Prop
  | _, [] => True
  | chain, .apply b :: es => P chain b ∧ AllApplied opts P (chainStep opts chain (.apply b)) es
  | chain, .undo :: es => AllApplied opts P (chainStep opts chain .undo) es

/-! ### A block -/

section Block

variable {opts : HistoryOptions} {s : MarketHistory} {log : List Trade} {since now : Nat}

theorem lastDayOf_eq {timestamp : Nat} (h : 86400 ≤ timestamp) (hlt : timestamp < 2 ^ 32) :
    lastDayOf timestamp = timestamp - 86400 := by
  unfold lastDayOf
  omega

theorem Kept.foldl_processFillOrder (k : Kept s log since) (hnow : since ≤ now)
    (htimes : ∀ t ∈ log, t.time ≤ now) {fills : List Fill}
    (hremoved : ∀ r ∈ removedByAll opts now s fills, r.op.isMaker = true → r.time < since) :
    Kept (fills.foldl (Nestchain.Plugins.processFillOrder opts now) s)
      (log ++ fills.map fun o => ⟨now, o⟩) since := by
  induction fills generalizing s log with
  | nil =>
    rw [List.map_nil, List.append_nil]
    exact k
  | cons o os ih =>
    have hstep := k.processFillOrder hnow htimes fun r hr =>
      hremoved r (List.mem_append_left _ hr)
    have htimes' : ∀ t ∈ log ++ [(⟨now, o⟩ : Trade)], t.time ≤ now := by
      intro t ht
      rcases List.mem_append.mp ht with ht | ht
      · exact htimes t ht
      · rw [List.mem_singleton.mp ht]
    have hrest := ih hstep htimes' fun r hr => hremoved r (List.mem_append_right _ hr)
    rw [List.append_assoc] at hrest
    exact hrest

theorem mem_foldl_processFillOrder {fills : List Fill} {r : HistoryRecord}
    (h : r ∈ (fills.foldl (processFillOrder opts now) s).history) :
    r.time = now ∨ r ∈ s.history ∧ r.id ∉ (removedByAll opts now s fills).map HistoryRecord.id := by
  induction fills generalizing s with
  | nil => exact Or.inr ⟨h, List.not_mem_nil⟩
  | cons o os ih =>
    rcases ih h with heq | ⟨hr, hnot⟩
    · exact Or.inl heq
    · obtain ⟨hr, hnot'⟩ := mem_processFillOrder.mp hr
      rcases hr with hr | rfl
      · refine Or.inr ⟨hr, ?_⟩
        rw [removedByAll, List.map_append, List.mem_append]
        exact fun hmem => hmem.elim hnot' hnot
      · exact Or.inl rfl

theorem tickerMeta_foldl_processFillOrder {fills : List Fill} {mtm : TickerMeta}
    (h : (fills.foldl (processFillOrder opts now) s).tickerMeta = some mtm) :
    s.tickerMeta = some mtm ∨ s.tickerMeta = none ∧ mtm.rollingMinOrderHisId = s.nextId := by
  induction fills generalizing s with
  | nil => exact Or.inl h
  | cons o os ih =>
    cases hs : s.tickerMeta with
    | none =>
      refine Or.inr ⟨rfl, ?_⟩
      rcases ih h with heq | ⟨hnone, -⟩
      · have hmtm : some (s.tickerMeta.getD ⟨s.nextId, false⟩) = some mtm := heq
        rw [hs] at hmtm
        rw [← Option.some.inj hmtm]
        rfl
      · cases hnone
    | some mtm' =>
      refine Or.inl ?_
      rcases ih h with heq | ⟨hnone, -⟩
      · have hmtm : some (s.tickerMeta.getD ⟨s.nextId, false⟩) = some mtm := heq
        rw [hs] at hmtm
        exact hmtm
      · cases hnone

end Block

/-! ### A run -/

/-- The invariant of the blocks and of what is kept to undo them. -/
def Sound : AppliedBlocks → Prop
  | [] => True
  | (b, s) :: chain =>
    86400 ≤ b.timestamp ∧ Kept s (AppliedBlocks.trades ((b, s) :: chain)) (b.timestamp - 86400) ∧
      (∀ t ∈ AppliedBlocks.trades ((b, s) :: chain), t.time ≤ b.timestamp) ∧ Sound chain

section Run

variable {opts : HistoryOptions} {chain : AppliedBlocks} {b : FillBlock} {events : List ChainEvent}

theorem Sound.kept (h : Sound chain) : Kept chain.current chain.trades chain.lastDay := by
  cases chain with
  | nil => exact kept_empty
  | cons e chain => exact h.2.1

theorem Sound.apply (h : Sound chain) (hf : FollowsHead chain b) (hs : Settled opts chain b) :
    Sound (chainStep opts chain (.apply b)) := by
  have htimes : ∀ t ∈ chain.trades, t.time ≤ b.timestamp := by
    intro t ht
    cases chain with
    | nil => exact absurd ht List.not_mem_nil
    | cons e chain =>
      have hle := h.2.2.1 t ht
      have hlt := hf.2 e rfl
      omega
  have hle : chain.lastDay ≤ b.timestamp - 86400 := by
    cases chain with
    | nil => exact Nat.zero_le _
    | cons e chain =>
      have hlt := hf.2 e rfl
      exact Nat.sub_le_sub_right (Nat.le_of_lt hlt) _
  have hday := lastDayOf_eq hs.day hf.1
  have k := h.kept.foldl_processFillOrder (by omega) htimes hs.removed
  have hroll : Kept (updateMarketHistories opts chain.current b) _ (lastDayOf b.timestamp) :=
    k.rollOut (by omega) ?_
  · rw [hday] at hroll
    refine ⟨hs.day, hroll, ?_, h⟩
    intro t ht
    rcases List.mem_append.mp ht with ht | ht
    · exact htimes t ht
    · obtain ⟨o, -, rfl⟩ := List.mem_map.mp ht
      exact le_refl _
  · -- the record at the cursor is new, or the condition speaks of it
    intro mtm hmeta hskip r hr hid hmaker
    rcases mem_foldl_processFillOrder hr with htime | ⟨hr, hnot⟩
    · omega
    · rcases tickerMeta_foldl_processFillOrder hmeta with hmeta | ⟨-, hnext⟩
      · exact (hs.marked mtm hmeta hskip r hr hid hmaker).resolve_right hnot
      · have hlt := h.kept.id_lt hr
        rw [← h.kept.nextId, ← hnext, hid] at hlt
        exact absurd hlt (lt_irrefl _)

theorem Sound.undo (h : Sound chain) : Sound (chainStep opts chain .undo) := by
  cases chain with
  | nil => exact h
  | cons e chain => exact h.2.2.2

theorem Sound.run (h : Sound chain) (hf : AllApplied opts FollowsHead chain events)
    (hs : AllApplied opts (Settled opts) chain events) {earlier : List ChainEvent}
    (hearlier : earlier <+: events) : Sound (earlier.foldl (chainStep opts) chain) := by
  induction events generalizing chain earlier with
  | nil =>
    rw [List.prefix_nil.mp hearlier]
    exact h
  | cons e es ih =>
    rcases List.prefix_cons_iff.mp hearlier with rfl | ⟨earlier, rfl, hrest⟩
    · exact h
    · cases e with
      | apply b => exact ih (h.apply hf.1 hs.1) hf.2 hs.2 hrest
      | undo => exact ih h.undo hf hs hrest

end Run

/-- In a run whose blocks are all settled the tickers are right in every state. -/
theorem rolling_ticker_right (opts : HistoryOptions) (events : List ChainEvent)
    (hf : AllApplied opts FollowsHead [] events) (hs : AllApplied opts (Settled opts) [] events)
    (earlier : List ChainEvent) (hearlier : earlier <+: events) :
    TickersRight (chainRun opts earlier) := by
  have hstart : Sound [] := trivial
  exact (hstart.run hf hs hearlier).kept.tickers

def defaultOptions : HistoryOptions := ⟨1000, 259200⟩

/-- A maker fill that trades one unit of the core asset for an amount of asset 1. -/
def makerFill (amount : Int) : Fill :=
  { pays := ⟨1, 0⟩
    receives := ⟨amount, 1⟩
    fillPrice := ⟨⟨1, 0⟩, ⟨amount, 1⟩⟩
    isMaker := true
    assets_ne := Nat.zero_ne_one }

/-- Two fills, a block a day after the first of them, which is undone, and another with a new
fill. -/
def settledEvents : List ChainEvent :=
  [.apply ⟨100000, [makerFill 7]⟩, .apply ⟨100003, [makerFill 8]⟩, .apply ⟨186401, []⟩, .undo,
    .apply ⟨186402, [makerFill 9]⟩]

theorem rolling_ticker_right_settled :
    TickersRight (chainRun defaultOptions settledEvents) ∧
      ((chainRun defaultOptions settledEvents).current.tickers (0, 1)).map Ticker.quoteVolume =
        some 17 := by
  refine ⟨rolling_ticker_right defaultOptions settledEvents ?_ ?_ settledEvents
    (List.prefix_refl _), by decide +kernel⟩
  · refine ⟨?_, ?_, ?_, ?_, trivial⟩
    all_goals exact ⟨by decide, by decide +kernel⟩
  · refine ⟨?_, ?_, ?_, ?_, trivial⟩
    all_goals exact ⟨by decide, by decide +kernel, by decide +kernel⟩

/-- The only record of the history is rolled out by two blocks. -/
def rolledOutTwice : List ChainEvent :=
  [.apply ⟨100000, [makerFill 7]⟩, .apply ⟨186401, []⟩, .apply ⟨186402, []⟩]

theorem last_record_rolled_out_twice :
    AllApplied defaultOptions FollowsHead [] rolledOutTwice ∧
      ¬TickersRight (chainRun defaultOptions rolledOutTwice) := by
  refine ⟨⟨⟨by decide, by decide +kernel⟩, ⟨by decide, by decide +kernel⟩,
    ⟨by decide, by decide +kernel⟩, trivial⟩, fun h => ?_⟩
  have hticker : (chainRun defaultOptions rolledOutTwice).current.tickers (0, 1) =
      some ⟨1, 7, 1, 7, 2 ^ 128 - 1, 2 ^ 128 - 7⟩ := by decide +kernel
  have hright := h (0, 1)
  rw [hticker] at hright
  have hvolume := hright.quoteVolume
  revert hvolume
  decide +kernel

end Nestchain.Plugins
