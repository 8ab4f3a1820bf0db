import Nestchain.Plugins.MarketHistory
import Nestchain.Lib.Sorted
import Mathlib.Algebra.BigOperators.Group.List.Basic
import Mathlib.Algebra.Order.Ring.Int

/-! What the ticker says of the last day.  It is right as long as no fill is removed from the
history before it is rolled out, and the last record of the history is not rolled out twice. -/

namespace Nestchain.Plugins

open Nestchain.Lib Nestchain.Market

/-- A fill and its time. -/
structure Trade where
  time : Nat
  op : Fill

def HistoryRecord.trade (r : HistoryRecord) : Trade := ⟨r.time, r.op⟩

/-- A fill that the ticker of the market counts. -/
def Trade.Counts (m : MarketId) (t : Trade) : Prop := t.op.isMaker = true ∧ t.op.market = m

instance (m : MarketId) (t : Trade) : Decidable (t.Counts m) := inferInstanceAs (Decidable (_ ∧ _))

/-- The traded amount of the maker fills of a market from a time on. -/
def volumeSince (trades : List Trade) (m : MarketId) (since : Nat) (amount : Fill → Int) : Int :=
  ((trades.filter fun t => t.Counts m ∧ since ≤ t.time).map fun t => amount t.op).sum

/-- The newest maker fill of a market before a time. -/
def newestBefore (trades : List Trade) (m : MarketId) (since : Nat) : Option Fill :=
  ((trades.filter fun t => t.Counts m ∧ t.time < since).getLast?).map Trade.op

/-- What the ticker says of a market. -/
structure Reflects (trades : List Trade) (m : MarketId) (since : Nat) (t : Ticker) : Prop where
  baseVolume : t.baseVolume = wrap (volumeSince trades m since fun o => o.tradePrice.base.amount)
  quoteVolume : t.quoteVolume = wrap (volumeSince trades m since fun o => o.tradePrice.quote.amount)
  lastDayBase : t.lastDayBase =
    ((newestBefore trades m since).map fun o => o.marketPrice.base.amount).getD 0
  lastDayQuote : t.lastDayQuote =
    ((newestBefore trades m since).map fun o => o.marketPrice.quote.amount).getD 0

/-- There is a ticker for every market with a maker fill. -/
def TickerReflects (trades : List Trade) (since : Nat) (m : MarketId) : Option Ticker → Prop
  | none => ∀ t ∈ trades, ¬t.Counts m
  | some t => Reflects trades m since t

/-! ### The loop -/

def rolled (rolling : Nat) (skip : Bool) (rs : List HistoryRecord) : List HistoryRecord :=
  rs.filter fun r => ¬(skip = true ∧ r.id = rolling) ∧ r.op.isMaker = true

def subtract (tickers : MarketId → Option Ticker) (r : HistoryRecord) : MarketId → Option Ticker :=
  Function.update tickers r.op.market ((tickers r.op.market).map (subtractFromTicker r.op))

section Loop

variable {rolling lastDay lastMin : Nat} {rs : List HistoryRecord} {skip : Bool}
  {tickers : MarketId → Option Ticker} {m : MarketId}

theorem rollLoop_eq (hids : rs.Pairwise fun r r' => r.id < r'.id) :
    rollLoop rolling lastDay rs skip lastMin tickers =
      ((rs.dropWhile fun r => r.time < lastDay).head?,
        ((rs.takeWhile fun r => r.time < lastDay).getLast?.map HistoryRecord.id).getD lastMin,
        (rolled rolling skip (rs.takeWhile fun r => r.time < lastDay)).foldl subtract tickers) := by
  induction rs generalizing skip lastMin tickers with
  | nil => rfl
  | cons r rs ih =>
    obtain ⟨hr, hids⟩ := List.pairwise_cons.mp hids
    by_cases htime : r.time < lastDay
    · have hlast : ∀ l : List HistoryRecord, ((r :: l).getLast?.map HistoryRecord.id).getD lastMin =
          (l.getLast?.map HistoryRecord.id).getD r.id := by
        intro l
        rw [List.getLast?_cons]
        cases l.getLast? <;> rfl
      rw [rollLoop, if_pos htime, List.dropWhile_cons_of_pos (by simpa using htime),
        List.takeWhile_cons_of_pos (by simpa using htime), hlast]
      by_cases hskip : skip = true ∧ r.id = rolling
      · obtain ⟨rfl, rfl⟩ := hskip
        -- the ids that follow are greater, and none of them is skipped
        have hrest : rolled r.id true (r :: rs.takeWhile fun x => x.time < lastDay) =
            rolled r.id false (rs.takeWhile fun x => x.time < lastDay) := by
          unfold rolled
          rw [List.filter_cons_of_neg (by simp)]
          refine List.filter_congr fun x hx => ?_
          have hlt := hr x ((List.takeWhile_sublist _).subset hx)
          have hne : x.id ≠ r.id := Nat.ne_of_gt hlt
          simp [hne]
        rw [if_pos ⟨rfl, rfl⟩, ih hids, hrest]
      · rw [if_neg hskip]
        by_cases hmaker : r.op.isMaker = true
        · have hrest : rolled rolling skip (r :: rs.takeWhile fun x => x.time < lastDay) =
              r :: rolled rolling skip (rs.takeWhile fun x => x.time < lastDay) :=
            List.filter_cons_of_pos (decide_eq_true ⟨hskip, hmaker⟩)
          rw [if_pos hmaker, ih hids, hrest, List.foldl_cons]
          rfl
        · have hrest : rolled rolling skip (r :: rs.takeWhile fun x => x.time < lastDay) =
              rolled rolling skip (rs.takeWhile fun x => x.time < lastDay) :=
            List.filter_cons_of_neg (by simp [hmaker])
          rw [if_neg hmaker, ih hids, hrest]
    · rw [rollLoop, if_neg htime, List.dropWhile_cons_of_neg (by simpa using htime),
        List.takeWhile_cons_of_neg (by simpa using htime)]
      rfl

theorem foldl_subtract_market (rs : List HistoryRecord) (tickers : MarketId → Option Ticker)
    (m : MarketId) : rs.foldl subtract tickers m =
      (tickers m).map fun t => (rs.filter fun r => r.op.market = m).foldl
        (fun t r => subtractFromTicker r.op t) t := by
  induction rs generalizing tickers with
  | nil => simp
  | cons r rs ih =>
    rw [List.foldl_cons, ih]
    by_cases hm : r.op.market = m
    · subst hm
      rw [List.filter_cons_of_pos (by simp), subtract, Function.update_self, Option.map_map]
      rfl
    · rw [List.filter_cons_of_neg (by simpa using hm), subtract, Function.update_of_ne (Ne.symm hm)]

theorem wrap_sub (a b : Int) : wrap (wrap a - b) = wrap (a - b) := by
  unfold wrap
  exact Int.emod_sub_emod _ _ _

theorem wrap_add (a b : Int) : wrap (wrap a + b) = wrap (a + b) := by
  unfold wrap
  exact Int.emod_add_emod _ _ _

theorem foldl_subtractFromTicker (rs : List HistoryRecord) {t : Ticker} {a b : Int}
    (ha : t.baseVolume = wrap a) (hb : t.quoteVolume = wrap b) :
    (rs.foldl (fun t r => subtractFromTicker r.op t) t).baseVolume =
        wrap (a - (rs.map fun r => r.op.tradePrice.base.amount).sum) ∧
      (rs.foldl (fun t r => subtractFromTicker r.op t) t).quoteVolume =
        wrap (b - (rs.map fun r => r.op.tradePrice.quote.amount).sum) ∧
      (rs.foldl (fun t r => subtractFromTicker r.op t) t).lastDayBase =
        (rs.getLast?.map fun r => r.op.marketPrice.base.amount).getD t.lastDayBase ∧
      (rs.foldl (fun t r => subtractFromTicker r.op t) t).lastDayQuote =
        (rs.getLast?.map fun r => r.op.marketPrice.quote.amount).getD t.lastDayQuote := by
  induction rs generalizing t a b with
  | nil => simp [ha, hb]
  | cons r rs ih =>
    have h1 : (subtractFromTicker r.op t).baseVolume = wrap (a - r.op.tradePrice.base.amount) := by
      rw [← wrap_sub, ← ha]
      rfl
    have h2 : (subtractFromTicker r.op t).quoteVolume = wrap
      (b - r.op.tradePrice.quote.amount) := by
      rw [← wrap_sub, ← hb]
      rfl
    obtain ⟨hbase, hquote, hlast, hlast'⟩ := ih h1 h2
    rw [List.foldl_cons, List.map_cons, List.map_cons, List.sum_cons, List.sum_cons, hbase, hquote,
      hlast, hlast', sub_sub, sub_sub]
    refine ⟨rfl, rfl, ?_, ?_⟩
    · rw [List.getLast?_cons]
      cases rs.getLast? <;> rfl
    · rw [List.getLast?_cons]
      cases rs.getLast? <;> rfl

end Loop

/-! ### The trades -/

section Trades

variable {trades : List Trade} {m : MarketId} {since since' : Nat}

/-- The fills of a market that a later time leaves out. -/
def expired (trades : List Trade) (m : MarketId) (since since' : Nat) : List Trade :=
  trades.filter fun t => t.Counts m ∧ since ≤ t.time ∧ t.time < since'

theorem volumeSince_eq_add (h : since ≤ since') (amount : Fill → Int) :
    volumeSince trades m since amount =
      volumeSince trades m since' amount +
        ((expired trades m since since').map fun t => amount t.op).sum := by
  unfold volumeSince expired
  induction trades with
  | nil => rfl
  | cons t trades ih =>
    by_cases hm : t.Counts m
    · by_cases h1 : since ≤ t.time
      · by_cases h2 : t.time < since'
        · have h3 : ¬since' ≤ t.time := by omega
          simp only [List.filter_cons, hm, h1, h2, h3, and_true, and_false, decide_true,
            decide_false,
            if_true, List.map_cons, List.sum_cons, ih]
          simp
          omega
        · have h3 : since' ≤ t.time := by omega
          simp only [List.filter_cons, hm, h1, h2, h3, and_true, and_false, decide_true,
            decide_false,
            if_true, List.map_cons, List.sum_cons, ih]
          simp
          omega
      · have h3 : ¬since' ≤ t.time := by omega
        simpa [List.filter_cons, hm, h1, h3] using ih
    · simpa [List.filter_cons, hm] using ih

theorem filter_before_eq_append (hs : trades.Pairwise fun t t' => t.time ≤ t'.time)
    (h : since ≤ since') :
    trades.filter (fun t => t.Counts m ∧ t.time < since') =
      trades.filter (fun t => t.Counts m ∧ t.time < since) ++ expired trades m since since' := by
  unfold expired
  induction trades with
  | nil => rfl
  | cons t trades ih =>
    obtain ⟨ht, hs⟩ := List.pairwise_cons.mp hs
    by_cases hm : t.Counts m
    · by_cases h1 : t.time < since
      · have h2 : t.time < since' := by omega
        have h3 : ¬since ≤ t.time := by omega
        simpa [List.filter_cons, hm, h1, h2, h3] using ih hs
      · have hnone : ∀ l : List Trade, (∀ x ∈ l, t.time ≤ x.time) →
            l.filter (fun t => t.Counts m ∧ t.time < since) = [] := by
          intro l hl
          refine List.filter_eq_nil_iff.mpr fun x hx => ?_
          have hle := hl x hx
          have hx' : ¬x.time < since := by omega
          simp [hx']
        have h3 : since ≤ t.time := by omega
        have ih := ih hs
        rw [hnone trades ht, List.nil_append] at ih
        rw [hnone (t :: trades) (List.forall_mem_cons.mpr ⟨le_refl _, ht⟩), List.nil_append]
        by_cases h2 : t.time < since'
        · simpa [List.filter_cons, hm, h2, h3] using ih
        · simpa [List.filter_cons, hm, h2, h3] using ih
    · simpa [List.filter_cons, hm] using ih hs

theorem newestBefore_eq (hs : trades.Pairwise fun t t' => t.time ≤ t'.time) (h : since ≤ since') :
    newestBefore trades m since' =
      (((expired trades m since since').getLast?).map Trade.op).or
        (newestBefore trades m since) := by
  unfold newestBefore
  rw [filter_before_eq_append hs h, List.getLast?_append]
  cases (expired trades m since since').getLast? <;> rfl

end Trades

/-! ### The cursor -/

/-- The cursor, where fills before `since` were rolled out: what is behind it has expired, and what
is not behind it and has not is still in the history. -/
structure Cursor (log : List Trade) (history : List HistoryRecord) (since : Nat)
    (mtm : TickerMeta) :
    Prop where
  lt : mtm.rollingMinOrderHisId < log.length
  behind : ∀ i t, log[i]? = some t → t.op.isMaker = true → i < mtm.rollingMinOrderHisId →
    t.time < since
  skipped : mtm.skipMinOrderHisId = true → ∀ t, log[mtm.rollingMinOrderHisId]? = some t →
    t.time < since
  ahead : ∀ i t, log[i]? = some t → t.op.isMaker = true → mtm.rollingMinOrderHisId < i →
    since ≤ t.time ∧ ∃ r ∈ history, r.id = i
  here : ∀ t, log[mtm.rollingMinOrderHisId]? = some t → t.op.isMaker = true →
    mtm.skipMinOrderHisId = false → since ≤ t.time →
    ∃ r ∈ history, r.id = mtm.rollingMinOrderHisId

/-- The history holds records of the log, which has every fill at the index of its record id. -/
structure Logged (s : MarketHistory) (log : List Trade) : Prop where
  nextId : s.nextId = log.length
  ids : s.history.Pairwise fun r r' => r.id < r'.id
  logged : ∀ r ∈ s.history, log[r.id]? = some r.trade
  times : log.Pairwise fun t t' => t.time ≤ t'.time

structure Kept (s : MarketHistory) (log : List Trade) (since : Nat) :
    Prop extends Logged s log where
  tickers : ∀ m, TickerReflects log since m (s.tickers m)
  noMeta : s.tickerMeta = none → log = []
  cursor : ∀ mtm, s.tickerMeta = some mtm → Cursor log s.history since mtm

theorem kept_empty : Kept .empty [] 0 where
  nextId := rfl
  ids := List.Pairwise.nil
  logged := fun r hr => absurd hr List.not_mem_nil
  times := List.Pairwise.nil
  tickers := fun m t ht => absurd ht List.not_mem_nil
  noMeta := fun _ => rfl
  cursor := fun mtm h => by cases h

namespace Logged

variable {s : MarketHistory} {log : List Trade} (k : Logged s log)

include k

theorem id_lt {r : HistoryRecord} (hr : r ∈ s.history) : r.id < log.length :=
  (List.getElem?_eq_some_iff.mp (k.logged r hr)).1

theorem time_le {i j : Nat} {t t' : Trade} (ht : log[i]? = some t) (ht' : log[j]? = some t')
    (hij : i ≤ j) : t.time ≤ t'.time := by
  obtain ⟨hi, rfl⟩ := List.getElem?_eq_some_iff.mp ht
  obtain ⟨hj, rfl⟩ := List.getElem?_eq_some_iff.mp ht'
  rcases Nat.lt_or_eq_of_le hij with hlt | rfl
  · exact List.pairwise_iff_getElem.mp k.times i j hi hj hlt
  · exact le_refl _

theorem times_of_ids : s.history.Pairwise fun r r' => r.time ≤ r'.time := by
  refine List.Pairwise.imp_of_mem (fun {r r'} hr hr' hlt => ?_) k.ids
  exact k.time_le (k.logged r hr) (k.logged r' hr') (Nat.le_of_lt hlt)

theorem dropWhile_eq (rolling : Nat) :
    s.history.dropWhile (fun r => r.id < rolling) = s.history.filter fun r => rolling ≤ r.id := by
  rw [(takeWhile_dropWhile_eq_filter k.ids fun x y hxy hy => ?_).2]
  · refine List.filter_congr fun r hr => ?_
    rw [Bool.eq_iff_iff]
    simp
  · simp only [decide_eq_true_eq] at hy ⊢
    omega

theorem takeWhile_dropWhile_time (rolling lastDay : Nat) :
    (s.history.filter fun r => rolling ≤ r.id).takeWhile (fun r => r.time < lastDay) =
        s.history.filter (fun r => rolling ≤ r.id ∧ r.time < lastDay) ∧
      (s.history.filter fun r => rolling ≤ r.id).dropWhile (fun r => r.time < lastDay) =
        s.history.filter (fun r => rolling ≤ r.id ∧ lastDay ≤ r.time) := by
  obtain ⟨h1, h2⟩ := takeWhile_dropWhile_eq_filter (p := fun r : HistoryRecord => r.time < lastDay)
    (k.times_of_ids.filter fun r => rolling ≤ r.id) fun x y hxy hy => by
      simp only [decide_eq_true_eq] at hy ⊢
      omega
  rw [h1, h2, List.filter_filter, List.filter_filter]
  refine ⟨List.filter_congr fun r hr => ?_, List.filter_congr fun r hr => ?_⟩
  · simp [Bool.and_comm]
  · rw [Bool.eq_iff_iff]
    simp [and_comm]

end Logged

/-! ### Rolling out -/

/-- The records from the cursor on that have expired. -/
def passed (history : List HistoryRecord) (rolling lastDay : Nat) : List HistoryRecord :=
  history.filter fun r => rolling ≤ r.id ∧ r.time < lastDay

/-- The records from the cursor on that have not. -/
def remaining (history : List HistoryRecord) (rolling lastDay : Nat) : List HistoryRecord :=
  history.filter fun r => rolling ≤ r.id ∧ lastDay ≤ r.time

def advance (history : List HistoryRecord) (lastDay : Nat) (mtm : TickerMeta) : TickerMeta :=
  let rolling := mtm.rollingMinOrderHisId
  let lastMin := ((passed history rolling lastDay).getLast?.map HistoryRecord.id).getD rolling
  match (remaining history rolling lastDay).head? with
  | some r => if r.id ≠ rolling then ⟨r.id, false⟩ else mtm
  | none => if lastMin ≠ rolling then ⟨lastMin, true⟩ else mtm

section RollOut

variable {s : MarketHistory} {log : List Trade} {since since' : Nat} {mtm : TickerMeta}

theorem rollOut_eq (k : Logged s log) (hmeta : s.tickerMeta = some mtm) (timestamp : Nat) :
    rollOut timestamp s =
      { s with
        tickers := (rolled mtm.rollingMinOrderHisId mtm.skipMinOrderHisId
          (passed s.history mtm.rollingMinOrderHisId
            (lastDayOf timestamp))).foldl subtract s.tickers
        tickerMeta := some (advance s.history (lastDayOf timestamp) mtm) } := by
  obtain ⟨htake, hdrop⟩ := k.takeWhile_dropWhile_time mtm.rollingMinOrderHisId (lastDayOf timestamp)
  unfold rollOut
  rw [hmeta]
  simp only
  rw [k.dropWhile_eq, rollLoop_eq (k.ids.filter _), htake, hdrop]
  rfl

theorem remaining_head (k : Logged s log) {rolling : Nat} {r : HistoryRecord}
    (h : (remaining s.history rolling since).head? = some r) :
    r ∈ s.history ∧ rolling ≤ r.id ∧ since ≤ r.time ∧
      ∀ x ∈ s.history, rolling ≤ x.id → x.id < r.id → x.time < since := by
  obtain ⟨l, hl⟩ := List.head?_eq_some_iff.mp h
  have hmem : ∀ x, x ∈ r :: l ↔ x ∈ s.history ∧ rolling ≤ x.id ∧ since ≤ x.time := by
    intro x
    rw [← hl, remaining, List.mem_filter, decide_eq_true_eq]
  have hids : (r :: l).Pairwise fun r r' => r.id < r'.id := by
    rw [← hl]
    exact k.ids.filter _
  obtain ⟨hr, hge, htime⟩ := (hmem r).mp List.mem_cons_self
  refine ⟨hr, hge, htime, fun x hx hxge hxlt => ?_⟩
  by_contra hnot
  rcases List.mem_cons.mp ((hmem x).mpr ⟨hx, hxge, Nat.le_of_not_lt hnot⟩) with rfl | hxl
  · omega
  · have hlt := (List.pairwise_cons.mp hids).1 x hxl
    omega

theorem passed_getLast (k : Logged s log) {rolling lastMin : Nat}
    (hnone : (remaining s.history rolling since).head? = none)
    (hlast : lastMin =
      ((passed s.history rolling since).getLast?.map HistoryRecord.id).getD rolling) :
    (∀ x ∈ s.history, rolling ≤ x.id → x.time < since ∧ x.id ≤ lastMin) ∧
      (lastMin = rolling ∨ ∃ r ∈ s.history, r.id = lastMin ∧ rolling ≤ r.id) := by
  have hnil := List.head?_eq_none_iff.mp hnone
  have htime : ∀ x ∈ s.history, rolling ≤ x.id → x.time < since := by
    intro x hx hge
    by_contra hnot
    have hmem : x ∈ remaining s.history rolling since :=
      List.mem_filter.mpr ⟨hx, decide_eq_true ⟨hge, Nat.le_of_not_lt hnot⟩⟩
    rw [hnil] at hmem
    exact List.not_mem_nil hmem
  have hin : ∀ x ∈ s.history, rolling ≤ x.id → x ∈ passed s.history rolling since := fun x hx hge =>
    List.mem_filter.mpr ⟨hx, decide_eq_true ⟨hge, htime x hx hge⟩⟩
  rcases List.eq_nil_or_concat (passed s.history rolling since) with hp | ⟨l, r, hp⟩
  · rw [hp] at hin hlast
    exact ⟨fun x hx hge => absurd (hin x hx hge) List.not_mem_nil, Or.inl hlast⟩
  · rw [List.concat_eq_append] at hp
    have hr : r ∈ passed s.history rolling since := by simp [hp]
    obtain ⟨hr1, hr2⟩ := List.mem_filter.mp hr
    have hids : (l ++ [r]).Pairwise fun r r' => r.id < r'.id := by
      rw [← hp]
      exact k.ids.filter _
    have hid : lastMin = r.id := by
      rw [hlast, hp, List.getLast?_concat]
      rfl
    refine ⟨fun x hx hge => ⟨htime x hx hge, ?_⟩, Or.inr
      ⟨r, hr1, hid.symm, (of_decide_eq_true hr2).1⟩⟩
    have hmem := hin x hx hge
    rw [hp] at hmem
    rcases List.mem_append.mp hmem with hxl | hxr
    · have hlt := (List.pairwise_append.mp hids).2.2 x hxl r List.mem_cons_self
      omega
    · rw [List.mem_singleton.mp hxr]
      omega

theorem Cursor.found (k : Logged s log) (c : Cursor log s.history since mtm) {i : Nat} {t : Trade}
    (ht : log[i]? = some t) (hmaker : t.op.isMaker = true) (htime : since ≤ t.time) :
    mtm.rollingMinOrderHisId ≤ i ∧ ∃ r ∈ s.history, r.id = i ∧ r.trade = t := by
  have hrecord : ∀ r ∈ s.history, r.id = i → r.trade = t := by
    rintro r hr rfl
    have heq := k.logged r hr
    rw [ht] at heq
    exact (Option.some.inj heq).symm
  rcases Nat.lt_trichotomy i mtm.rollingMinOrderHisId with hlt | rfl | hlt
  · have hexp := c.behind i t ht hmaker hlt
    omega
  · cases hskip : mtm.skipMinOrderHisId with
    | true =>
      have hexp := c.skipped hskip t ht
      omega
    | false =>
      obtain ⟨r, hr, hid⟩ := c.here t ht hmaker hskip htime
      exact ⟨le_refl _, r, hr, hid, hrecord r hr hid⟩
  · obtain ⟨-, r, hr, hid⟩ := c.ahead i t ht hmaker hlt
    exact ⟨Nat.le_of_lt hlt, r, hr, hid, hrecord r hr hid⟩

theorem Cursor.of_remaining (k : Logged s log) (c : Cursor log s.history since mtm)
    (hle : since ≤ since') {r : HistoryRecord}
    (hhead : (remaining s.history mtm.rollingMinOrderHisId since').head? = some r) :
    Cursor log s.history since' (if r.id ≠ mtm.rollingMinOrderHisId then ⟨r.id,
      false⟩ else mtm) := by
  obtain ⟨hr, hge, htime, hfirst⟩ := remaining_head k hhead
  have hlater : ∀ (i : Nat) (t : Trade), log[i]? = some t → t.op.isMaker = true → r.id < i →
      since' ≤ t.time ∧ ∃ r ∈ s.history, r.id = i := by
    intro i t ht hmaker hlt
    have htime' : since' ≤ t.time :=
      le_trans htime (k.time_le (k.logged r hr) ht (Nat.le_of_lt hlt))
    obtain ⟨-, x, hx, hid, -⟩ := c.found k ht hmaker (le_trans hle htime')
    exact ⟨htime', x, hx, hid⟩
  by_cases hid : r.id = mtm.rollingMinOrderHisId
  · rw [if_neg (not_not_intro hid)]
    exact
      { lt := c.lt
        behind := fun i t ht hmaker hlt => lt_of_lt_of_le (c.behind i t ht hmaker hlt) hle
        skipped := fun hskip t ht => lt_of_lt_of_le (c.skipped hskip t ht) hle
        ahead := fun i t ht hmaker hlt => hlater i t ht hmaker (by omega)
        here := fun t ht hmaker hskip hge => ⟨r, hr, hid⟩ }
  · rw [if_pos hid]
    refine
      { lt := k.id_lt hr
        behind := fun i t ht hmaker hlt => ?_
        skipped := fun hskip => absurd hskip (by simp)
        ahead := hlater
        here := fun t ht hmaker hskip hge => ⟨r, hr, rfl⟩ }
    -- a fill behind the new cursor that has not expired would end the loop earlier
    by_contra hnot
    obtain ⟨hge', x, hx, rfl, rfl⟩ := c.found k ht hmaker (by omega)
    exact hnot (hfirst x hx hge' hlt)

theorem Cursor.of_passed (k : Logged s log) (c : Cursor log s.history since mtm)
    (hle : since ≤ since')
    (hhead : (remaining s.history mtm.rollingMinOrderHisId since').head? = none) {lastMin : Nat}
    (hlast : lastMin = ((passed s.history mtm.rollingMinOrderHisId since').getLast?.map
      HistoryRecord.id).getD mtm.rollingMinOrderHisId) :
    Cursor log s.history since' (if lastMin ≠ mtm.rollingMinOrderHisId then ⟨lastMin,
      true⟩ else mtm) := by
  obtain ⟨hall, hmin⟩ := passed_getLast k hhead hlast
  have hexp : ∀ (i : Nat) (t : Trade), log[i]? = some t → t.op.isMaker = true →
    t.time < since' := by
    intro i t ht hmaker
    by_contra hnot
    obtain ⟨hge, x, hx, rfl, rfl⟩ := c.found k ht hmaker (by omega)
    exact hnot (hall x hx hge).1
  have hahead : ∀ (i : Nat) (t : Trade), log[i]? = some t → t.op.isMaker = true →
      mtm.rollingMinOrderHisId < i → i ≤ lastMin := by
    intro i t ht hmaker hlt
    obtain ⟨-, x, hx, rfl⟩ := c.ahead i t ht hmaker hlt
    exact (hall x hx (Nat.le_of_lt hlt)).2
  by_cases hid : lastMin = mtm.rollingMinOrderHisId
  · rw [if_neg (not_not_intro hid)]
    exact
      { lt := c.lt
        behind := fun i t ht hmaker hlt => hexp i t ht hmaker
        skipped := fun hskip t ht => lt_of_lt_of_le (c.skipped hskip t ht) hle
        ahead := fun i t ht hmaker hlt => by
          have hle' := hahead i t ht hmaker hlt
          omega
        here := fun t ht hmaker hskip hge => by
          have hlt := hexp _ t ht hmaker
          omega }
  · rw [if_pos hid]
    obtain ⟨r, hr, hrid, hrge⟩ := hmin.resolve_left hid
    exact
      { lt := hrid ▸ k.id_lt hr
        behind := fun i t ht hmaker hlt => hexp i t ht hmaker
        skipped := fun _ t ht => by
          have heq := k.logged r hr
          rw [hrid] at heq
          rw [← Option.some.inj (heq.symm.trans ht)]
          exact (hall r hr hrge).1
        ahead := fun i t ht hmaker hlt => by
          have hlt' : lastMin < i := hlt
          have hle' := hahead i t ht hmaker (by omega)
          omega
        here := fun t ht hmaker hskip => absurd hskip (by simp) }

theorem Cursor.advance (k : Logged s log) (c : Cursor log s.history since mtm)
    (hle : since ≤ since') : Cursor log s.history since' (advance s.history since' mtm) := by
  unfold Nestchain.Plugins.advance
  simp only
  cases hhead : (remaining s.history mtm.rollingMinOrderHisId since').head? with
  | some r => exact c.of_remaining k hle hhead
  | none => exact c.of_passed k hle hhead rfl

theorem rolled_eq_expired (k : Logged s log) (c : Cursor log s.history since mtm)
    (hunmarked : mtm.skipMinOrderHisId = false → ∀ r ∈ s.history, r.id = mtm.rollingMinOrderHisId →
      r.op.isMaker = true → since ≤ r.time) (m : MarketId) :
    ((rolled mtm.rollingMinOrderHisId mtm.skipMinOrderHisId
        (passed s.history mtm.rollingMinOrderHisId since')).filter fun r => r.op.market = m).map
      HistoryRecord.trade = expired log m since since' := by
  have hids : (rolled mtm.rollingMinOrderHisId mtm.skipMinOrderHisId
      (passed s.history mtm.rollingMinOrderHisId since')).Pairwise fun r r' => r.id < r'.id :=
    (k.ids.filter _).filter _
  -- the same trades at the same indices
  have hindexed : ((rolled mtm.rollingMinOrderHisId mtm.skipMinOrderHisId
        (passed s.history mtm.rollingMinOrderHisId since')).filter fun r => r.op.market = m).map
        (fun r => (r.trade, r.id)) =
      log.zipIdx.filter fun e => e.1.Counts m ∧ since ≤ e.1.time ∧ e.1.time < since' := by
    refine eq_of_pairwise_of_mem_iff (r := fun e e' => e.2 < e'.2) (fun x y hxy heq => ?_)
      (fun x y hxy hyx => ?_) ?_ ?_ ?_
    · rw [heq] at hxy
      exact lt_irrefl _ hxy
    · exact lt_asymm hxy hyx
    · exact List.pairwise_map.mpr (hids.filter _)
    · refine List.Pairwise.filter _ ?_
      rw [List.pairwise_iff_getElem]
      intro i j hi hj hij
      simpa using hij
    · rintro ⟨t, i⟩
      simp only [List.mem_map, List.mem_filter, rolled, passed, decide_eq_true_eq,
        List.mem_zipIdx_iff_getElem?, Prod.mk.injEq]
      constructor
      · rintro ⟨r, ⟨⟨⟨hr, hge, hlt⟩, hskip, hmaker⟩, hm⟩, rfl, rfl⟩
        refine ⟨k.logged r hr, ⟨hmaker, hm⟩, ?_, hlt⟩
        rcases Nat.lt_or_eq_of_le hge with hlt' | heq
        · exact (c.ahead r.id r.trade (k.logged r hr) hmaker hlt').1
        · refine hunmarked ?_ r hr heq.symm hmaker
          cases hs : mtm.skipMinOrderHisId with
          | false => rfl
          | true => exact absurd ⟨hs, heq.symm⟩ hskip
      · rintro ⟨ht, ⟨hmaker, hm⟩, htime, hlt⟩
        obtain ⟨hge, r, hr, rfl, rfl⟩ := c.found k ht hmaker htime
        refine ⟨r, ⟨⟨⟨hr, hge, hlt⟩, ?_, hmaker⟩, hm⟩, rfl, rfl⟩
        rintro ⟨hskip, hid⟩
        have hexp := c.skipped hskip r.trade (hid ▸ k.logged r hr)
        omega
  have htrades := congrArg (List.map Prod.fst) hindexed
  rw [List.map_map] at htrades
  refine htrades.trans ?_
  unfold expired
  rw [← List.zipIdx_map_fst 0 log, List.filter_map, List.zipIdx_map_fst]
  rfl

theorem Reflects.subtract {m : MarketId} {t : Ticker}
    (hs : log.Pairwise fun t t' => t.time ≤ t'.time) (h : Reflects log m since t)
    (hle : since ≤ since') {rs : List HistoryRecord}
    (hrs : rs.map HistoryRecord.trade = expired log m since since') :
    Reflects log m since' (rs.foldl (fun t r => subtractFromTicker r.op t) t) := by
  obtain ⟨hbase, hquote, hlastBase, hlastQuote⟩ :=
    foldl_subtractFromTicker rs h.baseVolume h.quoteVolume
  have hsum : ∀ amount : Fill → Int, volumeSince log m since amount -
      (rs.map fun r => amount r.op).sum = volumeSince log m since' amount := by
    intro amount
    rw [volumeSince_eq_add hle amount, ← hrs, List.map_map]
    exact Int.add_sub_cancel _ _
  have hnewest : newestBefore log m since' =
      (rs.getLast?.map HistoryRecord.op).or (newestBefore log m since) := by
    rw [newestBefore_eq hs hle, ← hrs, List.getLast?_map, Option.map_map]
    rfl
  refine ⟨?_, ?_, ?_, ?_⟩
  · rw [hbase, hsum fun o => o.tradePrice.base.amount]
  · rw [hquote, hsum fun o => o.tradePrice.quote.amount]
  · rw [hlastBase, hnewest, h.lastDayBase]
    cases rs.getLast? <;> rfl
  · rw [hlastQuote, hnewest, h.lastDayQuote]
    cases rs.getLast? <;> rfl

theorem Kept.of_noMeta (k : Kept s log since) (hmeta : s.tickerMeta = none) (since' : Nat) :
    Kept s log since' := by
  have hlog := k.noMeta hmeta
  subst hlog
  refine
    { nextId := k.nextId
      ids := k.ids
      logged := k.logged
      times := k.times
      tickers := fun m => ?_
      noMeta := k.noMeta
      cursor := fun mtm h => by cases hmeta.symm.trans h }
  have ht := k.tickers m
  cases hm : s.tickers m with
  | none => exact fun t ht => absurd ht List.not_mem_nil
  | some t =>
    rw [hm] at ht
    exact ⟨ht.baseVolume, ht.quoteVolume, ht.lastDayBase, ht.lastDayQuote⟩

theorem Kept.advance (k : Kept s log since) (hmeta : s.tickerMeta = some mtm) (hle : since ≤ since')
    (hunmarked : mtm.skipMinOrderHisId = false → ∀ r ∈ s.history, r.id = mtm.rollingMinOrderHisId →
      r.op.isMaker = true → since ≤ r.time) :
    Kept
      { s with
        tickers := (rolled mtm.rollingMinOrderHisId mtm.skipMinOrderHisId
          (passed s.history mtm.rollingMinOrderHisId since')).foldl Nestchain.Plugins.subtract s.tickers
        tickerMeta := some (advance s.history since' mtm) } log since' := by
  have c := k.cursor mtm hmeta
  refine
    { nextId := k.nextId
      ids := k.ids
      logged := k.logged
      times := k.times
      tickers := fun m => ?_
      noMeta := fun h => by cases h
      cursor := fun mtm' h => ?_ }
  · have ht := k.tickers m
    simp only
    rw [foldl_subtract_market]
    cases hm : s.tickers m with
    | none =>
      rw [hm] at ht
      exact ht
    | some t =>
      rw [hm] at ht
      exact Reflects.subtract k.times ht hle (rolled_eq_expired k.toLogged c hunmarked m)
  · cases h
    exact Cursor.advance (s := s) k.toLogged c hle

theorem Kept.rollOut (k : Kept s log since) {timestamp : Nat} (hle : since ≤ lastDayOf timestamp)
    (hunmarked : ∀ mtm, s.tickerMeta = some mtm → mtm.skipMinOrderHisId = false → ∀ r ∈ s.history,
      r.id = mtm.rollingMinOrderHisId → r.op.isMaker = true → since ≤ r.time) :
    Kept (rollOut timestamp s) log (lastDayOf timestamp) := by
  cases hmeta : s.tickerMeta with
  | none =>
    have heq : Nestchain.Plugins.rollOut timestamp s = s := by
      unfold Nestchain.Plugins.rollOut
      rw [hmeta]
    rw [heq]
    exact k.of_noMeta hmeta _
  | some mtm =>
    rw [rollOut_eq k.toLogged hmeta]
    exact k.advance hmeta hle (hunmarked mtm hmeta)

end RollOut

/-! ### The fills of a block -/

section Fills

variable {s : MarketHistory} {log : List Trade} {since now : Nat} {m : MarketId} {o : Fill}
  {opts : HistoryOptions}

theorem volumeSince_append_counted {t : Trade} (hm : t.Counts m) (ht : since ≤ t.time)
    (amount : Fill → Int) :
    volumeSince (log ++ [t]) m since amount = volumeSince log m since amount + amount t.op := by
  simp [volumeSince, hm, ht]

theorem volumeSince_append_other {t : Trade} (hm : ¬t.Counts m) (amount : Fill → Int) :
    volumeSince (log ++ [t]) m since amount = volumeSince log m since amount := by
  simp [volumeSince, hm]

theorem newestBefore_append {t : Trade} (ht : since ≤ t.time) :
    newestBefore (log ++ [t]) m since = newestBefore log m since := by
  have hlt : ¬t.time < since := by omega
  simp [newestBefore, hlt]

theorem reflects_addToTicker {t : Option Ticker} (h : TickerReflects log since m t)
    (hm : (⟨now, o⟩ : Trade).Counts m) (hnow : since ≤ now) :
    Reflects (log ++ [⟨now, o⟩]) m since (addToTicker o t) := by
  cases t with
  | none =>
    have hnone : ∀ p : Trade → Prop, [DecidablePred p] →
        log.filter (fun t => t.Counts m ∧ p t) = [] := by
      intro p _
      refine List.filter_eq_nil_iff.mpr fun t ht => ?_
      simp [h t ht]
    have hzero : ∀ amount : Fill → Int, volumeSince log m since amount = 0 := by
      intro amount
      rw [volumeSince, hnone]
      rfl
    have hnewest : newestBefore log m since = none := by
      rw [newestBefore, hnone]
      rfl
    refine ⟨?_, ?_, ?_, ?_⟩
    · rw [volumeSince_append_counted hm hnow, hzero, zero_add]
      rfl
    · rw [volumeSince_append_counted hm hnow, hzero, zero_add]
      rfl
    · rw [newestBefore_append hnow, hnewest]
      rfl
    · rw [newestBefore_append hnow, hnewest]
      rfl
  | some t =>
    refine ⟨?_, ?_, ?_, ?_⟩
    · rw [volumeSince_append_counted hm hnow, ← wrap_add, ← h.baseVolume]
      rfl
    · rw [volumeSince_append_counted hm hnow, ← wrap_add, ← h.quoteVolume]
      rfl
    · rw [newestBefore_append hnow]
      exact h.lastDayBase
    · rw [newestBefore_append hnow]
      exact h.lastDayQuote

theorem tickerReflects_append {t : Option Ticker} (h : TickerReflects log since m t)
    (hm : ¬(⟨now, o⟩ : Trade).Counts m) (hnow : since ≤ now) :
    TickerReflects (log ++ [⟨now, o⟩]) since m t := by
  cases t with
  | none =>
    intro x hx
    rcases List.mem_append.mp hx with hx | hx
    · exact h x hx
    · rw [List.mem_singleton.mp hx]
      exact hm
  | some t =>
    refine ⟨?_, ?_, ?_, ?_⟩
    · rw [volumeSince_append_other hm]
      exact h.baseVolume
    · rw [volumeSince_append_other hm]
      exact h.quoteVolume
    · rw [newestBefore_append hnow]
      exact h.lastDayBase
    · rw [newestBefore_append hnow]
      exact h.lastDayQuote

def newRecord (now : Nat) (s : MarketHistory) (o : Fill) : HistoryRecord :=
  ⟨s.nextId, o.market, match (byKey o.market s.history).head? with
    | some r => r.sequence - 1
    | none => 0, now, o⟩

def removedBy (opts : HistoryOptions) (now : Nat) (s : MarketHistory) (o : Fill) :
    List HistoryRecord :=
  objectsToRemove opts now o.market (newRecord now s o).sequence (s.history ++ [newRecord now s o])

theorem mem_processFillOrder {r : HistoryRecord} :
    r ∈ (processFillOrder opts now s o).history ↔
      (r ∈ s.history ∨ r = newRecord now s o) ∧
        r.id ∉ (removedBy opts now s o).map HistoryRecord.id := by
  unfold processFillOrder
  simp only [List.mem_filter, decide_eq_true_eq, List.mem_append, List.mem_singleton]
  rfl

theorem mem_of_mem_objectsToRemove {m : MarketId} {sequence : Int} {history : List HistoryRecord}
    {r : HistoryRecord} (h : r ∈ objectsToRemove opts now m sequence history) :
    r ∈ history ∧ r.market = m := by
  have hmem : r ∈ history.filter fun r => r.market = m := by
    unfold objectsToRemove at h
    simp only at h
    split at h
    · split at h
      · exact (List.perm_insertionSort _ _).mem_iff.mp ((List.dropWhile_sublist _).subset h)
      · exact (List.perm_insertionSort _ _).mem_iff.mp ((List.dropWhile_sublist _).subset h)
    · exact absurd h List.not_mem_nil
  simpa using hmem

theorem removedBy_subset {r : HistoryRecord} (h : r ∈ removedBy opts now s o) :
    r ∈ s.history ∨ r = newRecord now s o := by
  simpa using (mem_of_mem_objectsToRemove h).1

theorem Logged.ids_append (k : Logged s log) (now : Nat) (o : Fill) :
    (s.history ++ [newRecord now s o]).Pairwise fun r r' => r.id < r'.id := by
  refine List.pairwise_append.mpr ⟨k.ids, List.pairwise_singleton _ _, ?_⟩
  intro r hr x hx
  rw [List.mem_singleton.mp hx]
  have hlt := k.id_lt hr
  rw [← k.nextId] at hlt
  exact hlt

theorem Logged.eq_of_id_append (k : Logged s log) {r r' : HistoryRecord}
    (hr : r ∈ s.history ++ [newRecord now s o]) (hr' : r' ∈ s.history ++ [newRecord now s o])
    (h : r.id = r'.id) : r = r' := by
  rcases eq_or_rel_of_pairwise (k.ids_append now o) hr hr' with heq | hlt | hlt
  · exact heq
  · omega
  · omega

theorem Cursor.processFillOrder (k : Kept s log since) (hnow : since ≤ now)
    (hremoved : ∀ r ∈ removedBy opts now s o, r.op.isMaker = true → r.time < since) :
    Cursor (log ++ [⟨now, o⟩]) (processFillOrder opts now s o).history since
      (s.tickerMeta.getD ⟨s.nextId, false⟩) := by
  have hkept : ∀ r, r ∈ s.history ∨ r = newRecord now s o → r.op.isMaker = true → since ≤ r.time →
      r ∈ (Nestchain.Plugins.processFillOrder opts now s o).history := by
    intro r hr hmaker htime
    refine mem_processFillOrder.mpr ⟨hr, fun hmem => ?_⟩
    obtain ⟨x, hx, hid⟩ := List.mem_map.mp hmem
    have heq := k.eq_of_id_append (by simpa using removedBy_subset hx) (by simpa using hr) hid
    rw [← heq] at hmaker htime
    have hlt := hremoved x hx hmaker
    omega
  have hnew : ∀ t, (log ++ [⟨now, o⟩])[log.length]? = some t → t = ⟨now, o⟩ := by
    intro t ht
    rw [List.getElem?_append_right (le_refl _), Nat.sub_self] at ht
    exact (Option.some.inj ht).symm
  cases hmeta : s.tickerMeta with
  | none =>
    have hlog := k.noMeta hmeta
    have hnext : s.nextId = 0 := by rw [k.nextId, hlog, List.length_nil]
    subst hlog
    rw [Option.getD_none, hnext]
    refine
      { lt := Nat.zero_lt_one
        behind := fun i t ht hmaker hlt => absurd hlt (Nat.not_lt_zero i)
        skipped := fun hskip => absurd hskip (by simp)
        ahead := fun i t ht hmaker hlt => ?_
        here := fun t ht hmaker hskip htime => ?_ }
    · have hlt' := (List.getElem?_eq_some_iff.mp ht).1
      have hpos : 0 < i := hlt
      have hone : i < 1 := hlt'
      omega
    · rw [hnew t ht] at hmaker
      exact ⟨newRecord now s o, hkept _ (Or.inr rfl) hmaker hnow, hnext⟩
  | some mtm =>
    have c := k.cursor mtm hmeta
    have hold : ∀ i t, (log ++ [⟨now, o⟩])[i]? = some t → i < log.length → log[i]? = some t := by
      intro i t ht hlt
      rw [List.getElem?_append_left hlt] at ht
      exact ht
    rw [Option.getD_some]
    refine
      { lt := by
          rw [List.length_append]
          exact Nat.lt_succ_of_lt c.lt
        behind := fun i t ht hmaker hlt =>
          c.behind i t (hold i t ht (lt_trans hlt c.lt)) hmaker hlt
        skipped := fun hskip t ht => c.skipped hskip t (hold _ t ht c.lt)
        ahead := fun i t ht hmaker hlt => ?_
        here := fun t ht hmaker hskip htime => ?_ }
    · rcases Nat.lt_or_ge i log.length with hlen | hlen
      · have ht' := hold i t ht hlen
        obtain ⟨htime, -⟩ := c.ahead i t ht' hmaker hlt
        obtain ⟨-, r, hr, hid, rfl⟩ := c.found k.toLogged ht' hmaker htime
        exact ⟨htime, r, hkept r (Or.inl hr) hmaker htime, hid⟩
      · have hi : i = log.length := by
          have hlt' := (List.getElem?_eq_some_iff.mp ht).1
          rw [List.length_append, List.length_singleton] at hlt'
          omega
        subst hi
        rw [hnew t ht] at hmaker ⊢
        exact ⟨hnow, newRecord now s o, hkept _ (Or.inr rfl) hmaker hnow, k.nextId⟩
    · have ht' := hold _ t ht c.lt
      obtain ⟨-, r, hr, hid, rfl⟩ := c.found k.toLogged ht' hmaker htime
      exact ⟨r, hkept r (Or.inl hr) hmaker htime, hid⟩

theorem Logged.processFillOrder (k : Logged s log) (hnow : ∀ t ∈ log, t.time ≤ now) :
    Logged (processFillOrder opts now s o) (log ++ [⟨now, o⟩]) := by
  refine ⟨?_, ?_, ?_, ?_⟩
  · rw [List.length_append, List.length_singleton, ← k.nextId]
    rfl
  · exact (k.ids_append now o).filter _
  · intro r hr
    rcases (mem_processFillOrder.mp hr).1 with hr | rfl
    · rw [List.getElem?_append_left (k.id_lt hr)]
      exact k.logged r hr
    · have hid : (newRecord now s o).id = log.length := k.nextId
      rw [hid, List.getElem?_append_right (le_refl _), Nat.sub_self]
      rfl
  · refine List.pairwise_append.mpr ⟨k.times, List.pairwise_singleton _ _, ?_⟩
    intro t ht x hx
    rw [List.mem_singleton.mp hx]
    exact hnow t ht

theorem Kept.processFillOrder (k : Kept s log since) (hnow : since ≤ now)
    (htimes : ∀ t ∈ log, t.time ≤ now)
    (hremoved : ∀ r ∈ removedBy opts now s o, r.op.isMaker = true → r.time < since) :
    Kept (processFillOrder opts now s o) (log ++ [⟨now, o⟩]) since := by
  refine
    { k.toLogged.processFillOrder htimes with
      tickers := fun m => ?_
      noMeta := fun h => by cases h
      cursor := fun mtm h => ?_ }
  · have ht := k.tickers m
    unfold Nestchain.Plugins.processFillOrder
    simp only
    by_cases hmaker : o.isMaker = true
    · rw [if_pos hmaker]
      by_cases hm : o.market = m
      · subst hm
        rw [Function.update_self]
        exact reflects_addToTicker ht ⟨hmaker, rfl⟩ hnow
      · rw [Function.update_of_ne (Ne.symm hm)]
        exact tickerReflects_append ht (fun h => hm h.2) hnow
    · rw [if_neg hmaker]
      exact tickerReflects_append ht (fun h => hmaker h.1) hnow
  · cases h
    exact Cursor.processFillOrder k hnow hremoved

end Fills

end Nestchain.Plugins
