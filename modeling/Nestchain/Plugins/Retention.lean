import Nestchain.Plugins.TickerRun
import Mathlib.Data.List.Chain

/-! Which fills the order history keeps.  A record is removed if it is beyond the number of records
to keep, and older than the seconds to keep; the first record of a market has the sequence number
that the index by time is searched with, and counts as older one second early. -/

namespace Nestchain.Plugins

open Nestchain.Lib Nestchain.Market

def newestFirst (log : List Trade) (m : MarketId) : List Trade :=
  (log.filter fun t => t.op.market = m).reverse

/-- What is to be kept of the fills of a market: the newest ones up to the number of records, and
those of the others that are in the seconds to keep. -/
def retained (opts : HistoryOptions) (now : Nat) (fills : List Trade) : List Trade :=
  fills.take opts.maxOrderHisRecordsPerMarket ++
    (fills.drop opts.maxOrderHisRecordsPerMarket).filter fun t =>
      now ≤ t.time + opts.maxOrderHisSecondsPerMarket

/-- What the plugin keeps after a sequence of fills. -/
def recordFills (opts : HistoryOptions) (log : List Trade) : MarketHistory :=
  log.foldl (fun s t => processFillOrder opts t.time s t.op) .empty

/-- What a fill after others leaves in the history. -/
structure RetainedAfter (opts : HistoryOptions) (before : List Trade) (t : Trade) : Prop where
  fills : (byKey t.op.market (recordFills opts (before ++ [t])).history).map HistoryRecord.trade =
    retained opts t.time (newestFirst (before ++ [t]) t.op.market)
  consecutive : ((byKey t.op.market (recordFills opts (before ++ [t])).history).map
    HistoryRecord.sequence).IsChain fun n n' => n' = n + 1
  others : ∀ m, m ≠ t.op.market →
    ((recordFills opts (before ++ [t])).history.filter fun r => r.market = m) =
      (recordFills opts before).history.filter fun r => r.market = m

/-- The first fill of the market is beyond the number of records, and as old as a record may be. -/
def FirstFillCut (opts : HistoryOptions) (before : List Trade) (t : Trade) : Prop :=
  opts.maxOrderHisRecordsPerMarket < (newestFirst (before ++ [t]) t.op.market).length ∧
    ∃ first ∈ (newestFirst (before ++ [t]) t.op.market).getLast?,
      first.time = t.time - opts.maxOrderHisSecondsPerMarket

instance (opts : HistoryOptions) (before : List Trade) (t : Trade) :
    Decidable (FirstFillCut opts before t) := inferInstanceAs (Decidable (_ ∧ _))

/-! ### The removed records -/

section Removed

variable {history : List HistoryRecord} {m : MarketId}

/-- The records of a market are made with falling sequence numbers, and at times that do not
fall. -/
def Falling (history : List HistoryRecord) (m : MarketId) : Prop :=
  (history.filter fun r => r.market = m).Pairwise fun r r' =>
    r'.sequence < r.sequence ∧ r.time ≤ r'.time

theorem sorted_eq_reverse {l : List HistoryRecord} {before : HistoryRecord → HistoryRecord → Prop}
    [DecidableRel before] [Std.Total before] [IsTrans HistoryRecord before]
    (hl : l.Pairwise fun r r' => r'.sequence < r.sequence ∧ r.time ≤ r'.time)
    (hbefore : ∀ r r', r'.sequence < r.sequence → r.time ≤ r'.time → before r' r)
    (hseq : ∀ r r', before r r' → before r' r → r.sequence = r'.sequence) :
    l.insertionSort before = l.reverse := by
  refine List.Perm.eq_of_pairwise (fun r r' hr hr' h h' => ?_) (List.pairwise_insertionSort _ _)
    (List.pairwise_reverse.mpr (hl.imp fun h => hbefore _ _ h.1 h.2))
    ((List.perm_insertionSort _ _).trans (List.reverse_perm _).symm)
  have heq := hseq r r' h h'
  rcases eq_or_rel_of_pairwise hl ((List.mem_insertionSort _).mp hr) (List.mem_reverse.mp hr') with
    h | ⟨hlt, -⟩ | ⟨hlt, -⟩
  · exact h
  · omega
  · omega

theorem byKey_eq (h : Falling history m) :
    byKey m history = (history.filter fun r => r.market = m).reverse := by
  have : Std.Total fun r r' : HistoryRecord => r.sequence ≤ r'.sequence :=
    ⟨fun r r' => Int.le_total _ _⟩
  have : IsTrans HistoryRecord fun r r' => r.sequence ≤ r'.sequence :=
    ⟨fun r r' r'' h h' => Int.le_trans h h'⟩
  refine sorted_eq_reverse h (fun r r' hlt _ => Int.le_of_lt hlt) fun r r' h h' => ?_
  exact Int.le_antisymm h h'

theorem byMarketTime_eq (h : Falling history m) :
    byMarketTime m history = (history.filter fun r => r.market = m).reverse := by
  have : Std.Total fun r r' : HistoryRecord =>
      r'.time < r.time ∨ r'.time = r.time ∧ r.sequence ≤ r'.sequence :=
    ⟨fun r r' => by omega⟩
  have : IsTrans HistoryRecord fun r r' =>
      r'.time < r.time ∨ r'.time = r.time ∧ r.sequence ≤ r'.sequence :=
    ⟨fun r r' r'' h h' => by omega⟩
  refine sorted_eq_reverse h (fun r r' hlt hle => ?_) fun r r' h h' => ?_
  · omega
  · omega

/-- What a fill spares of the records of its market, where the new record has the sequence
number. -/
def Spared (opts : HistoryOptions) (now : Nat) (sequence : Int) (p : Trade × Int) : Prop :=
  p.2 < sequence + opts.maxOrderHisRecordsPerMarket ∨
    now - opts.maxOrderHisSecondsPerMarket < p.1.time ∨
      now - opts.maxOrderHisSecondsPerMarket = p.1.time ∧ p.2 < 0

instance (opts : HistoryOptions) (now : Nat) (sequence : Int) (p : Trade × Int) :
    Decidable (Spared opts now sequence p) := inferInstanceAs (Decidable (_ ∨ _))

/-- A record as its fill and its sequence number. -/
def HistoryRecord.entry (r : HistoryRecord) : Trade × Int := (r.trade, r.sequence)

theorem objectsToRemove_eq_laterTail (opts : HistoryOptions) (now : Nat) (m : MarketId)
    (sequence : Int) (history : List HistoryRecord) :
    objectsToRemove opts now m sequence history =
      laterTail HistoryRecord.sequence
        ((byKey m history).dropWhile fun r =>
          r.sequence < sequence + opts.maxOrderHisRecordsPerMarket)
        ((byMarketTime m history).dropWhile fun r =>
          (if opts.maxOrderHisSecondsPerMarket < now then
            now - opts.maxOrderHisSecondsPerMarket else 0) < r.time ∨
          (if opts.maxOrderHisSecondsPerMarket < now then
            now - opts.maxOrderHisSecondsPerMarket else 0) = r.time ∧ r.sequence < 0) := by
  simp only [objectsToRemove]
  generalize (byKey m history).dropWhile _ = beyond
  generalize (byMarketTime m history).dropWhile _ = older
  cases beyond <;> cases older <;> rfl

theorem objectsToRemove_eq (h : Falling history m) (opts : HistoryOptions) (now : Nat)
    (sequence : Int) :
    objectsToRemove opts now m sequence history =
      ((history.filter fun r => r.market = m).reverse).filter fun r =>
        ¬Spared opts now sequence r.entry := by
  have hmin : (if opts.maxOrderHisSecondsPerMarket < now then
      now - opts.maxOrderHisSecondsPerMarket else 0) = now - opts.maxOrderHisSecondsPerMarket := by
    split
    · rfl
    · omega
  have hsorted := List.pairwise_reverse.mpr h
  rw [objectsToRemove_eq_laterTail, hmin, byKey_eq h, byMarketTime_eq h]
  refine (laterTail_dropWhile hsorted (fun r r' h => h.1)
    (fun r r' h hp => ?_) fun r r' h hp => ?_).trans ?_
  · have hlt := of_decide_eq_true hp
    exact decide_eq_true (by omega)
  · have hlt := of_decide_eq_true hp
    exact decide_eq_true (by omega)
  · refine List.filter_congr fun r hr => ?_
    rw [← decide_not, ← decide_not, ← Bool.decide_and]
    exact decide_eq_decide.mpr not_or.symm

end Removed

/-! ### The fills of a market -/

/-- The fills of a market, the oldest first, with the sequence numbers of their records. -/
def numbered (log : List Trade) (m : MarketId) : List (Trade × Int) :=
  ((log.filter fun t => t.op.market = m).zipIdx).map fun p => (p.1, -(p.2 : Int))

/-- What is kept of the fills of a market since the last of them. -/
def Due (opts : HistoryOptions) (log : List Trade) (m : MarketId) (p : Trade × Int) : Prop :=
  p.2 + (log.filter fun t => t.op.market = m).length ≤ opts.maxOrderHisRecordsPerMarket ∨
    ∀ t ∈ log, t.op.market = m → t.time ≤ p.1.time + opts.maxOrderHisSecondsPerMarket

instance (opts : HistoryOptions) (log : List Trade) (m : MarketId) (p : Trade × Int) :
    Decidable (Due opts log m p) := inferInstanceAs (Decidable (_ ∨ _))

section Numbered

variable {log : List Trade} {m : MarketId} {t : Trade}

theorem numbered_append (hm : t.op.market = m) : numbered (log ++ [t]) m =
    numbered log m ++ [(t, -((log.filter fun t => t.op.market = m).length : Int))] := by
  unfold numbered
  rw [List.filter_append, List.filter_cons_of_pos (by simpa using hm), List.filter_nil,
    List.zipIdx_append, List.map_append, Nat.zero_add]
  rfl

theorem numbered_append_other (hm : t.op.market ≠ m) :
    numbered (log ++ [t]) m = numbered log m := by
  unfold numbered
  rw [List.filter_append, List.filter_cons_of_neg (by simpa using hm), List.filter_nil,
    List.append_nil]

theorem mem_numbered {p : Trade × Int} (h : p ∈ numbered log m) :
    ∃ i : Nat, (log.filter fun t => t.op.market = m)[i]? = some p.1 ∧ p.2 = -(i : Int) := by
  obtain ⟨⟨t, i⟩, hmem, rfl⟩ := List.mem_map.mp h
  exact ⟨i, List.mem_zipIdx_iff_getElem?.mp hmem, rfl⟩

theorem fst_numbered (log : List Trade) (m : MarketId) :
    (numbered log m).map Prod.fst = log.filter fun t => t.op.market = m := by
  rw [numbered, List.map_map]
  exact List.zipIdx_map_fst 0 _

theorem snd_numbered (log : List Trade) (m : MarketId) : (numbered log m).map Prod.snd =
    (List.range (log.filter fun t => t.op.market = m).length).map fun i : Nat => -(i : Int) := by
  rw [numbered, List.map_map, List.range_eq_range', ← List.zipIdx_map_snd 0, List.map_map]
  rfl

theorem length_numbered (log : List Trade) (m : MarketId) :
    (numbered log m).length = (log.filter fun t => t.op.market = m).length := by
  rw [← fst_numbered, List.length_map]

theorem numbered_pairwise (htimes : log.Pairwise fun t t' => t.time ≤ t'.time) (m : MarketId) :
    (numbered log m).Pairwise fun p p' => p'.2 < p.2 ∧ p.1.time ≤ p'.1.time := by
  have hfst : (numbered log m).Pairwise fun p p' => p.1.time ≤ p'.1.time := by
    have h := htimes.filter fun t => t.op.market = m
    rw [← fst_numbered, List.pairwise_map] at h
    exact h
  have hsnd : (numbered log m).Pairwise fun p p' => p'.2 < p.2 := by
    have h : ((numbered log m).map Prod.snd).Pairwise fun n n' => n' < n := by
      rw [snd_numbered]
      exact List.pairwise_map.mpr (List.pairwise_lt_range.imp fun h => by omega)
    rw [List.pairwise_map] at h
    exact h
  exact hsnd.and hfst

theorem numbered_chain (log : List Trade) (m : MarketId) :
    ((numbered log m).map Prod.snd).IsChain fun n n' => n = n' + 1 := by
  rw [snd_numbered]
  refine List.isChain_iff_getElem.mpr fun i hi => ?_
  rw [List.getElem_map, List.getElem_map, List.getElem_range, List.getElem_range]
  omega

end Numbered

/-! ### What a fill keeps -/

/-- The history of every market is what is kept of its fills. -/
structure KeepsDue (opts : HistoryOptions) (s : MarketHistory) (log : List Trade) : Prop
    extends Logged s log where
  entries : ∀ m, ((s.history.filter fun r => r.market = m).map HistoryRecord.entry) =
    (numbered log m).filter fun p => Due opts log m p

section Step

variable {opts : HistoryOptions} {s : MarketHistory} {log : List Trade} {t : Trade} {m : MarketId}

theorem keepsDue_empty (opts : HistoryOptions) : KeepsDue opts .empty [] :=
  { kept_empty.toLogged with entries := fun _ => rfl }

theorem market_processFillOrder (k : Logged s log) {now : Nat} {o : Fill}
    (keep : HistoryRecord → Bool) (hkeep : ∀ r ∈ s.history ++ [newRecord now s o], r.market = m →
      (r ∈ removedBy opts now s o ↔ keep r = false)) :
    ((processFillOrder opts now s o).history.filter fun r => r.market = m) =
      ((s.history ++ [newRecord now s o]).filter fun r => r.market = m).filter keep := by
  have heq : (processFillOrder opts now s o).history =
      (s.history ++ [newRecord now s o]).filter fun r =>
        r.id ∉ (removedBy opts now s o).map HistoryRecord.id := rfl
  rw [heq, List.filter_filter, List.filter_filter]
  refine List.filter_congr fun r hr => ?_
  by_cases hm : r.market = m
  · have hid : r.id ∈ (removedBy opts now s o).map HistoryRecord.id ↔ keep r = false := by
      rw [← hkeep r hr hm]
      refine ⟨fun hmem => ?_, fun hmem => List.mem_map_of_mem hmem⟩
      obtain ⟨x, hx, hxid⟩ := List.mem_map.mp hmem
      exact k.eq_of_id_append (by simpa using removedBy_subset hx) hr hxid ▸ hx
    simp [hm, hid]
  · simp [hm]

theorem Falling.of_entries {history : List HistoryRecord} {l : List (Trade × Int)}
    (h : ((history.filter fun r => r.market = m).map HistoryRecord.entry) = l)
    (hl : l.Pairwise fun p p' => p'.2 < p.2 ∧ p.1.time ≤ p'.1.time) : Falling history m := by
  rw [← h, List.pairwise_map] at hl
  exact hl

namespace KeepsDue

variable (k : KeepsDue opts s log)

include k

theorem falling (m : MarketId) : Falling s.history m :=
  Falling.of_entries (k.entries m) ((numbered_pairwise k.times m).filter _)

theorem sequence_newRecord (t : Trade) : (newRecord t.time s t.op).sequence =
    -((log.filter fun t' => t'.op.market = t.op.market).length : Int) := by
  have hentries := k.entries t.op.market
  unfold newRecord
  rw [byKey_eq (k.falling _), List.head?_reverse]
  rcases List.eq_nil_or_concat (log.filter fun t' => t'.op.market = t.op.market) with
    hnil | ⟨fills, newest, hconcat⟩
  · rw [numbered, hnil] at hentries
    rw [List.map_eq_nil_iff.mp hentries, hnil]
    rfl
  · rw [List.concat_eq_append] at hconcat
    have hdue : Due opts log t.op.market (newest, -(fills.length : Int)) := by
      refine Or.inr fun t' ht' hm => ?_
      have htimes := k.times.filter fun t' => t'.op.market = t.op.market
      have hmem : t' ∈ fills ++ [newest] := hconcat ▸ List.mem_filter.mpr ⟨ht', by simpa using hm⟩
      rw [hconcat] at htimes
      rcases List.mem_append.mp hmem with hold | hnew
      · have hle := (List.pairwise_append.mp htimes).2.2 t' hold newest List.mem_cons_self
        exact Nat.le_trans hle (Nat.le_add_right _ _)
      · rw [List.mem_singleton.mp hnew]
        exact Nat.le_add_right _ _
    rw [numbered, hconcat, List.zipIdx_append, List.map_append, List.filter_append, Nat.zero_add,
      List.zipIdx_singleton, List.map_singleton,
      List.filter_cons_of_pos (p := fun p => decide (Due opts log t.op.market p))
        (decide_eq_true hdue), List.filter_nil] at hentries
    have hlast := congrArg List.getLast? hentries
    rw [List.getLast?_concat, List.getLast?_map] at hlast
    obtain ⟨r, hr, hentry⟩ := Option.map_eq_some_iff.mp hlast
    have hsequence : r.sequence = -(fills.length : Int) := congrArg Prod.snd hentry
    rw [hr, hconcat, List.length_append, List.length_singleton]
    simp only [hsequence]
    omega

theorem entry_newRecord (t : Trade) : (newRecord t.time s t.op).entry =
    (t, -((log.filter fun t' => t'.op.market = t.op.market).length : Int)) :=
  Prod.ext rfl (k.sequence_newRecord t)

theorem entries_append (t : Trade) :
    ((s.history ++ [newRecord t.time s t.op]).filter fun r => r.market = t.op.market).map
        HistoryRecord.entry =
      ((numbered log t.op.market).filter fun p => Due opts log t.op.market p) ++
        [(t, -((log.filter fun t' => t'.op.market = t.op.market).length : Int))] := by
  have hnew : (newRecord t.time s t.op).market = t.op.market := rfl
  rw [List.filter_append, List.map_append, k.entries, List.filter_cons_of_pos (by simp [hnew]),
    List.filter_nil, List.map_singleton, k.entry_newRecord]

theorem falling_append (htimes : ∀ t' ∈ log, t'.time ≤ t.time) :
    Falling (s.history ++ [newRecord t.time s t.op]) t.op.market := by
  have hlog : (log ++ [t]).Pairwise fun t t' => t.time ≤ t'.time := by
    refine List.pairwise_append.mpr ⟨k.times, List.pairwise_singleton _ _, fun t' ht' x hx => ?_⟩
    rw [List.mem_singleton.mp hx]
    exact htimes t' ht'
  refine Falling.of_entries (k.entries_append t) ?_
  refine (numbered_pairwise hlog t.op.market).sublist ?_
  rw [numbered_append rfl]
  exact List.filter_sublist.append_right _

theorem entries_processFillOrder (htimes : ∀ t' ∈ log, t'.time ≤ t.time) :
    (((processFillOrder opts t.time s t.op).history.filter fun r => r.market = t.op.market).map
        HistoryRecord.entry) =
      (((numbered log t.op.market).filter fun p => Due opts log t.op.market p) ++
        [(t, -((log.filter fun t' => t'.op.market = t.op.market).length : Int))]).filter fun p =>
          Spared opts t.time (newRecord t.time s t.op).sequence p := by
  rw [← k.entries_append, List.filter_map,
    market_processFillOrder k.toLogged
      (fun r => Spared opts t.time (newRecord t.time s t.op).sequence r.entry) fun r hr hm => ?_]
  · rfl
  · unfold removedBy
    rw [objectsToRemove_eq (k.falling_append htimes), List.mem_filter, List.mem_reverse,
      List.mem_filter]
    simp [hm, by simpa using hr]

end KeepsDue

theorem market_processFillOrder_other (k : Logged s log) {now : Nat} {o : Fill}
    (hm : m ≠ o.market) :
    ((processFillOrder opts now s o).history.filter fun r => r.market = m) =
      s.history.filter fun r => r.market = m := by
  have hnew : (newRecord now s o).market = o.market := rfl
  rw [market_processFillOrder k (fun _ => true) fun r hr hrm => ?_, List.filter_true,
    List.filter_append, List.filter_cons_of_neg (by simpa [hnew] using hm.symm), List.filter_nil,
    List.append_nil]
  have hnot : r ∉ removedBy opts now s o := fun hmem =>
    hm (hrm ▸ (mem_of_mem_objectsToRemove hmem).2)
  simp [hnot]

theorem spared_iff_due (htimes : ∀ t' ∈ log, t'.time ≤ t.time) (hcut : ¬FirstFillCut opts log t)
    {p : Trade × Int} (hp : p ∈ numbered (log ++ [t]) t.op.market) :
    Spared opts t.time (-((log.filter fun t' => t'.op.market = t.op.market).length : Int)) p ↔
      Due opts (log ++ [t]) t.op.market p := by
  obtain ⟨i, hi, hsequence⟩ := mem_numbered hp
  have hfills : ((log ++ [t]).filter fun t' => t'.op.market = t.op.market) =
      (log.filter fun t' => t'.op.market = t.op.market) ++ [t] := by simp
  have hall : (∀ t' ∈ log ++ [t], t'.op.market = t.op.market →
      t'.time ≤ p.1.time + opts.maxOrderHisSecondsPerMarket) ↔
        t.time ≤ p.1.time + opts.maxOrderHisSecondsPerMarket := by
    refine ⟨fun h => h t (by simp) rfl, fun h t' ht' _ => ?_⟩
    rcases List.mem_append.mp ht' with hold | hnew
    · have hle := htimes t' hold
      omega
    · rw [List.mem_singleton.mp hnew]
      exact h
  have hfirst : i = 0 → (log.filter fun t' => t'.op.market = t.op.market).length + 1 >
      opts.maxOrderHisRecordsPerMarket →
        p.1.time ≠ t.time - opts.maxOrderHisSecondsPerMarket := by
    rintro rfl hlen heq
    refine hcut ⟨?_, p.1, ?_, heq⟩
    · rw [newestFirst, hfills, List.length_reverse, List.length_append, List.length_singleton]
      exact hlen
    · rw [newestFirst, List.getLast?_reverse, List.head?_eq_getElem?]
      exact hi
  unfold Spared Due
  rw [hall, hfills, List.length_append, List.length_singleton, hsequence]
  by_cases hzero : i = 0
  · have hne := hfirst hzero
    omega
  · omega

theorem KeepsDue.fill (k : KeepsDue opts s log) (htimes : ∀ t' ∈ log, t'.time ≤ t.time)
    (hcut : ¬FirstFillCut opts log t) :
    KeepsDue opts (processFillOrder opts t.time s t.op) (log ++ [t]) := by
  refine { k.toLogged.processFillOrder htimes with entries := fun m => ?_ }
  by_cases hm : t.op.market = m
  · subst hm
    have hspared := fun p hp => spared_iff_due (p := p) htimes hcut hp
    rw [k.entries_processFillOrder htimes, k.sequence_newRecord, List.filter_append,
      List.filter_filter]
    rw [numbered_append rfl] at hspared ⊢
    rw [List.filter_append]
    congr 1
    · -- what is to be kept now was to be kept before
      refine List.filter_congr fun p hp => ?_
      rw [← Bool.decide_and]
      refine decide_eq_decide.mpr ?_
      rw [hspared p (List.mem_append_left _ hp)]
      refine and_iff_left_of_imp fun hdue => ?_
      unfold Due at hdue ⊢
      rw [List.filter_append, List.length_append] at hdue
      refine hdue.imp (fun h => ?_) fun h t' ht' => h t' (List.mem_append_left _ ht')
      omega
    · refine List.filter_congr fun p hp => ?_
      exact decide_eq_decide.mpr (hspared p (List.mem_append_right _ hp))
  · have hfilter : ((log ++ [t]).filter fun t' => t'.op.market = m) =
        log.filter fun t' => t'.op.market = m := by
      rw [List.filter_append, List.filter_cons_of_neg (by simpa using hm), List.filter_nil,
        List.append_nil]
    rw [market_processFillOrder_other k.toLogged (Ne.symm hm), k.entries,
      numbered_append_other hm]
    refine List.filter_congr fun p _ => decide_eq_decide.mpr ?_
    unfold Due
    rw [hfilter]
    refine or_congr Iff.rfl ⟨fun h t' ht' htm => ?_, fun h t' ht' => h t' ?_⟩
    · rcases List.mem_append.mp ht' with hold | hnew
      · exact h t' hold htm
      · rw [List.mem_singleton.mp hnew] at htm
        exact absurd htm hm
    · exact List.mem_append_left _ ht'

end Step

/-! ### What is to be kept -/

section Kept

variable {opts : HistoryOptions} {log : List Trade} {m : MarketId} {now : Nat}

theorem reverse_due_eq_retained (hlast : ∀ p : Trade × Int,
      (∀ t ∈ log, t.op.market = m → t.time ≤ p.1.time + opts.maxOrderHisSecondsPerMarket) ↔
        now ≤ p.1.time + opts.maxOrderHisSecondsPerMarket) :
    (((numbered log m).filter fun p => Due opts log m p).map Prod.fst).reverse =
      retained opts now (newestFirst log m) := by
  have hnewest : newestFirst log m = (numbered log m).reverse.map Prod.fst := by
    rw [List.map_reverse, fst_numbered]
    rfl
  have hsequence : ∀ i (h : i < (numbered log m).reverse.length),
      ((numbered log m).reverse[i]).2 + (log.filter fun t => t.op.market = m).length = i + 1 := by
    intro i h
    have hlen := length_numbered log m
    rw [List.length_reverse] at h
    rw [List.getElem_reverse]
    simp only [numbered, List.getElem_map, List.getElem_zipIdx]
    simp only [numbered, List.length_map, List.length_zipIdx] at h ⊢
    omega
  rw [retained, hnewest, ← List.map_reverse, ← List.filter_reverse, ← List.map_take,
    ← List.map_drop, List.filter_map, ← List.map_append]
  congr 1
  generalize hl : (numbered log m).reverse = l at hsequence
  conv_lhs => rw [← List.take_append_drop opts.maxOrderHisRecordsPerMarket l, List.filter_append]
  congr 1
  · refine List.filter_eq_self.mpr fun p hp => decide_eq_true ?_
    obtain ⟨i, hi, rfl⟩ := List.mem_take_iff_getElem.mp hp
    have heq := hsequence i (by omega)
    refine Or.inl ?_
    omega
  · refine List.filter_congr fun p hp => decide_eq_decide.mpr ?_
    obtain ⟨i, hi, rfl⟩ := List.mem_drop_iff_getElem.mp hp
    have heq := hsequence (opts.maxOrderHisRecordsPerMarket + i) (by omega)
    unfold Due
    rw [hlast]
    refine or_iff_right fun hle => ?_
    omega

theorem due_suffix (opts : HistoryOptions) (htimes : log.Pairwise fun t t' => t.time ≤ t'.time) :
    ((numbered log m).filter fun p => Due opts log m p) <:+ numbered log m := by
  have hdrop := (takeWhile_dropWhile_eq_filter (p := fun p => !decide (Due opts log m p))
    (numbered_pairwise htimes m) fun p p' hlt hnot => ?_).2
  · simp only [Bool.not_not] at hdrop
    rw [← hdrop]
    exact List.dropWhile_suffix _
  · simp only [Bool.not_eq_true', decide_eq_false_iff_not] at hnot ⊢
    refine fun hdue => hnot (hdue.imp (fun h => ?_) fun h t ht hm => ?_)
    · omega
    · have hle := h t ht hm
      omega

end Kept

/-! ### A run -/

section Run

variable {opts : HistoryOptions} {log : List Trade} {t : Trade}

theorem recordFills_append (opts : HistoryOptions) (log : List Trade) (t : Trade) :
    recordFills opts (log ++ [t]) =
      processFillOrder opts t.time (recordFills opts log) t.op := by
  rw [recordFills, List.foldl_append]
  rfl

theorem pairwise_times_append :
    (log ++ [t]).Pairwise (fun t t' => t.time ≤ t'.time) ↔
      log.Pairwise (fun t t' => t.time ≤ t'.time) ∧ ∀ t' ∈ log, t'.time ≤ t.time := by
  simp [List.pairwise_append]

theorem KeepsDue.retainedAfter (k : KeepsDue opts (recordFills opts log) log)
    (htimes : ∀ t' ∈ log, t'.time ≤ t.time) (hcut : ¬FirstFillCut opts log t) :
    RetainedAfter opts log t := by
  have k' := k.fill htimes hcut
  rw [← recordFills_append] at k'
  have hentries := k'.entries t.op.market
  have hkey := byKey_eq (k'.falling t.op.market)
  refine ⟨?_, ?_, fun m hm => ?_⟩
  · rw [hkey, List.map_reverse, ← reverse_due_eq_retained fun p => ?_, ← hentries, List.map_map]
    · rfl
    · refine ⟨fun h => h t (by simp) rfl, fun h t' ht' _ => ?_⟩
      rcases List.mem_append.mp ht' with hold | hnew
      · exact Nat.le_trans (htimes t' hold) h
      · rw [List.mem_singleton.mp hnew]
        exact h
  · have hchain := (numbered_chain (log ++ [t]) t.op.market).suffix
      ((due_suffix opts k'.times).map Prod.snd)
    rw [← hentries, List.map_map] at hchain
    rw [hkey, List.map_reverse, List.isChain_reverse]
    exact hchain
  · rw [recordFills_append]
    exact market_processFillOrder_other k.toLogged hm

theorem KeepsDue.not_cut (k : KeepsDue opts (recordFills opts log) log)
    (htimes : ∀ t' ∈ log, t'.time ≤ t.time) (h : RetainedAfter opts log t) :
    ¬FirstFillCut opts log t := by
  rintro ⟨hlen, first, hfirst, hcut⟩
  have hlog := pairwise_times_append.mpr ⟨k.times, htimes⟩
  rw [newestFirst, List.getLast?_reverse, Option.mem_def] at hfirst
  obtain ⟨fills, hfills⟩ := List.head?_eq_some_iff.mp hfirst
  have hnumbered := length_numbered (log ++ [t]) t.op.market
  -- the market has all its fills by the seconds to keep
  have hall : (retained opts t.time (newestFirst (log ++ [t]) t.op.market)).length =
      (numbered (log ++ [t]) t.op.market).length := by
    have hdrop : ((newestFirst (log ++ [t]) t.op.market).drop
        opts.maxOrderHisRecordsPerMarket).filter (fun t' =>
          t.time ≤ t'.time + opts.maxOrderHisSecondsPerMarket) =
        (newestFirst (log ++ [t]) t.op.market).drop opts.maxOrderHisRecordsPerMarket := by
      refine List.filter_eq_self.mpr fun t' ht' => decide_eq_true ?_
      have hmem := List.mem_of_mem_drop ht'
      have hsorted := hlog.filter fun t' => t'.op.market = t.op.market
      rw [newestFirst, List.mem_reverse] at hmem
      rw [hfills] at hmem hsorted
      rcases List.mem_cons.mp hmem with rfl | hlater
      · omega
      · have hle := (List.pairwise_cons.mp hsorted).1 t' hlater
        omega
    rw [retained, hdrop, List.take_append_drop, hnumbered, newestFirst, List.length_reverse]
  -- but the entry with the sequence number 0 is not spared
  have hfewer : ((processFillOrder opts t.time (recordFills opts log) t.op).history.filter fun r =>
      r.market = t.op.market).length < (numbered (log ++ [t]) t.op.market).length := by
    rw [← List.length_map HistoryRecord.entry, k.entries_processFillOrder htimes,
      k.sequence_newRecord]
    refine lt_of_le_of_lt (List.Sublist.length_le (List.Sublist.filter _
      (List.filter_sublist.append_right _))) ?_
    rw [← numbered_append rfl]
    refine List.length_filter_lt_length_iff_exists.mpr ⟨(first, 0), ?_, ?_⟩
    · unfold numbered
      rw [hfills, List.zipIdx_cons, List.map_cons]
      exact List.mem_cons_self
    · have hlen' : opts.maxOrderHisRecordsPerMarket <
          (log.filter fun t' => t'.op.market = t.op.market).length + 1 := by
        rw [newestFirst, List.length_reverse, List.filter_append, List.length_append] at hlen
        simpa using hlen
      intro hspared
      have hspared := of_decide_eq_true hspared
      unfold Spared at hspared
      simp only at hspared
      omega
  have hlength := congrArg List.length h.fills
  rw [recordFills_append, List.length_map, hall, byKey, List.length_insertionSort] at hlength
  omega

theorem forall_steps_append {P : List Trade → Trade → Prop} :
    (∀ i (h : i < (log ++ [t]).length), P ((log ++ [t]).take i) (log ++ [t])[i]) ↔
      (∀ i (h : i < log.length), P (log.take i) log[i]) ∧ P log t := by
  constructor
  · intro h
    refine ⟨fun i hi => ?_, ?_⟩
    · have hstep := h i (by simp; omega)
      rwa [List.take_append_of_le_length (Nat.le_of_lt hi), List.getElem_append_left hi] at hstep
    · have hstep := h log.length (by simp)
      rwa [List.take_left, List.getElem_concat_length rfl] at hstep
  · rintro ⟨h, hlast⟩ i hi
    rcases Nat.lt_or_ge i log.length with hlt | hge
    · rw [List.take_append_of_le_length (Nat.le_of_lt hlt), List.getElem_append_left hlt]
      exact h i hlt
    · have heq : i = log.length := by
        rw [List.length_append, List.length_singleton] at hi
        omega
      subst heq
      rw [List.take_left, List.getElem_concat_length rfl]
      exact hlast

theorem KeepsDue.run (htimes : log.Pairwise fun t t' => t.time ≤ t'.time)
    (hcut : ∀ i (h : i < log.length), ¬FirstFillCut opts (log.take i) log[i]) :
    KeepsDue opts (recordFills opts log) log := by
  induction log using List.reverseRecOn with
  | nil => exact keepsDue_empty opts
  | append_singleton log t ih =>
    obtain ⟨htimes, hlast⟩ := pairwise_times_append.mp htimes
    obtain ⟨hcut, hcut'⟩ :=
      (forall_steps_append (P := fun log t => ¬FirstFillCut opts log t)).mp hcut
    rw [recordFills_append]
    exact (ih htimes hcut).fill hlast hcut'

end Run

/-! ### Blocks -/

section Blocks

variable {opts : HistoryOptions} {s s' : MarketHistory}

def blockFills (blocks : List FillBlock) : List Trade :=
  blocks.flatMap fun b => b.fills.map fun o => ⟨b.timestamp, o⟩

/-- The same records, with the same id for the next one. -/
def SameRecords (s s' : MarketHistory) : Prop := s.history = s'.history ∧ s.nextId = s'.nextId

theorem SameRecords.processFillOrder (h : SameRecords s s') (now : Nat) (o : Fill) :
    SameRecords (processFillOrder opts now s o) (processFillOrder opts now s' o) := by
  unfold SameRecords Nestchain.Plugins.processFillOrder
  rw [h.1, h.2]
  exact ⟨rfl, rfl⟩

theorem SameRecords.rollOut (h : SameRecords s s') (timestamp : Nat) :
    SameRecords (rollOut timestamp s) s' := by
  unfold Nestchain.Plugins.rollOut
  split <;> exact h

theorem SameRecords.fills (h : SameRecords s s') (now : Nat) (fills : List Fill) :
    SameRecords (fills.foldl (Nestchain.Plugins.processFillOrder opts now) s)
      ((fills.map fun o => (⟨now, o⟩ : Trade)).foldl
        (fun s t => Nestchain.Plugins.processFillOrder opts t.time s t.op) s') := by
  induction fills generalizing s s' with
  | nil => exact h
  | cons o os ih => exact ih (h.processFillOrder now o)

theorem SameRecords.blocks (h : SameRecords s s') (blocks : List FillBlock) :
    SameRecords (blocks.foldl (updateMarketHistories opts) s)
      ((blockFills blocks).foldl
        (fun s t => Nestchain.Plugins.processFillOrder opts t.time s t.op) s') := by
  induction blocks generalizing s s' with
  | nil => exact h
  | cons b blocks ih =>
    rw [List.foldl_cons, blockFills, List.flatMap_cons, List.foldl_append]
    exact ih ((h.fills b.timestamp b.fills).rollOut b.timestamp)

theorem history_updateMarketHistories (opts : HistoryOptions) (blocks : List FillBlock) :
    (blocks.foldl (updateMarketHistories opts) .empty).history =
      (recordFills opts (blockFills blocks)).history := by
  have hstart : SameRecords .empty .empty := ⟨rfl, rfl⟩
  exact (hstart.blocks blocks).1

end Blocks

/-- At times that do not fall, every fill leaves the newest records up to their number and those in
the seconds to keep, if and only if no fill cuts the first fill of its market. -/
theorem retained_iff (opts : HistoryOptions) {log : List Trade}
    (htimes : log.Pairwise fun t t' => t.time ≤ t'.time) :
    (∀ i (h : i < log.length), RetainedAfter opts (log.take i) log[i]) ↔
      ∀ i (h : i < log.length), ¬FirstFillCut opts (log.take i) log[i] := by
  induction log using List.reverseRecOn with
  | nil => simp
  | append_singleton log t ih =>
    obtain ⟨htimes, hlast⟩ := pairwise_times_append.mp htimes
    rw [forall_steps_append, forall_steps_append (P := fun log t => ¬FirstFillCut opts log t),
      ih htimes]
    refine and_congr_right fun hcut => ?_
    have k := KeepsDue.run htimes hcut
    exact ⟨k.not_cut hlast, k.retainedAfter hlast⟩

/-- Three fills, of which the first is a second too old at the third. -/
def threeFills : List Trade :=
  [⟨100, makerFill 7⟩, ⟨105, makerFill 8⟩, ⟨111, makerFill 9⟩]

theorem retained_three_fills : RetainedAfter ⟨1, 10⟩ (threeFills.take 2) ⟨111, makerFill 9⟩ := by
  have htimes : threeFills.Pairwise fun t t' => t.time ≤ t'.time := by decide
  exact (retained_iff ⟨1, 10⟩ htimes).mpr (by decide) 2 (by decide)

/-- Two fills, of which the first is as old as a record may be at the second. -/
def twoFills : List Trade := [⟨100, makerFill 7⟩, ⟨110, makerFill 8⟩]

theorem first_fill_cut_early :
    (twoFills.Pairwise fun t t' => t.time ≤ t'.time) ∧
      ¬∀ i (h : i < twoFills.length), RetainedAfter ⟨1, 10⟩ (twoFills.take i) twoFills[i] := by
  refine ⟨by decide, fun h => ?_⟩
  have hlength := congrArg List.length (h 1 (by decide)).fills
  revert hlength
  decide +kernel

end Nestchain.Plugins
