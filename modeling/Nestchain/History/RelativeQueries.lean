import Nestchain.History.Queries

/-! The queries of the account history by sequence numbers.  They walk backwards through the
Berkeley DB index `by_seq`, which is ordered by account and sequence number. -/

namespace Nestchain.History

open Nestchain.Db Nestchain.Lib

variable {ω : Type}

/-- `account_seq_key_comp` is negative. -/
def HistoryNode.beforeSeq (a : Nat) (n : Nat) (e : HistoryNode) : Bool :=
  e.account < a ∨ e.account = a ∧ e.sequence < n

/-- `upper_bound` of `by_seq`, which opens the cursor of `lower_bound`. -/
def upperBoundSeq (idx : List HistoryNode) (a : Nat) (n : Nat) : Cursor :=
  match idx.dropWhile (HistoryNode.beforeSeq a n) with
  | [] => []
  | e :: _ => e :: (idx.takeWhile (HistoryNode.beforeSeq a n)).reverse

/-- The loop of both queries: down to the sequence number `low`, with the operations that are
wanted. -/
def walkSeq (s : Store (Record ω)) (wanted : Found ω → Bool) (a low limit : Nat) :
    Cursor → List (Found ω) → Option (List (Found ω))
  | [], result => some result
  | e :: c, result =>
    if e.account = a ∧ low ≤ e.sequence ∧ result.length < limit then
      (findOperation s e.operation).bind fun oho =>
        walkSeq s wanted a low limit c (if wanted oho then result ++ [oho] else result)
    else some result

/-- `get_relative_account_history`, or `none` when it throws or follows a null pointer.  The bounds
are named as in the definition.  (Nothing sets `removed_ops`, which is 0.) -/
def getRelativeAccountHistory (accountOf : String → Option AccountId) (s : Store (Record ω))
    (bySeq : List HistoryNode) (name : String) (start limit stop : Nat) : Option (List (Found ω)) :=
  if 100 < limit then none
  else
    match accountOf name with
    | none => some []
    | some a =>
      (statisticsOf s a).bind fun (_, totalOps, _) =>
        let stop := if stop = 0 then totalOps else min totalOps stop
        if start ≤ stop ∧ 0 < stop ∧ 0 < limit then
          walkSeq s (fun _ => true) a stop limit (upperBoundSeq bySeq a start) []
        else some []

/-- `get_relative_account_history_by_ops`, with `total_count`. -/
def getRelativeAccountHistoryByOps (which : Option ω → Nat) (accountOf : String → Option AccountId)
    (s : Store (Record ω)) (bySeq : List HistoryNode) (name : String) (operationTypes : List Nat)
    (start limit totalCount : Nat) : Option (List (Found ω) × Nat) :=
  if 100 < limit then none
  else
    match accountOf name with
    | none => some ([], totalCount)
    | some a =>
      (statisticsOf s a).bind fun (_, totalOps, _) =>
        if start ≤ totalOps ∧ 0 < totalOps ∧ 0 < limit then
          (walkSeq s (fun oho => operationTypes.isEmpty || operationTypes.contains
            (which oho.2)) a start
            limit (upperBoundSeq bySeq a totalOps) []).map fun result => (result, totalOps)
        else some ([], totalOps)

/-- The index `by_seq`, as Berkeley DB keeps it for the nodes. -/
structure BySeq (s : Store (Record ω)) (idx : List HistoryNode) : Prop where
  sorted : idx.Pairwise fun e e' =>
    e.account < e'.account ∨ e.account = e'.account ∧ e.sequence < e'.sequence
  mem : ∀ e : HistoryNode, e ∈ idx ↔ ∃ k, s.objects.lookup ⟨athoIndex, k⟩ =
    some (.transaction e.account e.operation e.sequence e.next)

/-- The operations of a history with sequence numbers between two bounds, the newest first. -/
def between (s : Store (Record ω)) (es : List (Nat × Nat)) (low high : Nat) : List (Found ω) :=
  foundAll s ((((es.map Prod.snd).zipIdx 1).filter fun e =>
    low ≤ e.2 ∧ e.2 ≤ high).map Prod.fst).reverse

section

variable {s : Store (Record ω)} {a : Nat} {es : List (Nat × Nat)} {idx : List HistoryNode}
  {wanted : Found ω → Bool} {low limit : Nat}

theorem BySeq.nodesOf_eq (h : BySeq s idx) (hes : HasHistory s a es) :
    (nodesOf idx a).map (fun e => (e.operation.number, e.sequence)) =
      (es.map Prod.snd).zipIdx 1 := by
  refine eq_of_pairwise_of_mem_iff (r := fun x y => x.2 < y.2) (fun x y hxy heq => ?_)
    (fun _ _ => Nat.lt_asymm) ?_ ?_ ?_
  · rw [heq] at hxy
    exact Nat.lt_irrefl _ hxy
  · refine List.pairwise_map.mpr ((h.sorted.filter _).imp_of_mem fun {e e'} he he' hlt => ?_)
    have ha : e.account = a := of_decide_eq_true (List.mem_filter.mp he).2
    have ha' : e'.account = a := of_decide_eq_true (List.mem_filter.mp he').2
    show e.sequence < e'.sequence
    omega
  · rw [List.pairwise_iff_getElem]
    intro i j hi hj hij
    simpa using hij
  · rintro ⟨op, n⟩
    rw [List.mk_mem_zipIdx_iff_le_and_getElem?_sub, List.getElem?_map]
    constructor
    · intro hmem
      obtain ⟨e, he, heq⟩ := List.mem_map.mp hmem
      obtain ⟨hop, hseq⟩ := Prod.mk.inj heq
      obtain ⟨hidx, hacc⟩ := List.mem_filter.mp he
      obtain ⟨k, hk⟩ := (h.mem e).mp hidx
      rw [of_decide_eq_true hacc] at hk
      obtain ⟨i, op', hi, hoper, hn, -⟩ := (hes.nodes _ _ _ _).mp hk
      have hin : n - 1 = i := by omega
      rw [hoper] at hop
      refine ⟨by omega, ?_⟩
      rw [hin, hi]
      exact congrArg some hop
    · rintro ⟨hpos, hn⟩
      obtain ⟨⟨k, op'⟩, hi, rfl⟩ := Option.map_eq_some_iff.mp hn
      refine List.mem_map.mpr ⟨⟨a, ⟨ohoIndex, op'⟩, n, ⟨athoIndex, lastNode (es.take (n - 1))⟩⟩, ?_,
        rfl⟩
      refine List.mem_filter.mpr ⟨(h.mem _).mpr ⟨k, ?_⟩, decide_eq_true rfl⟩
      exact (hes.nodes _ _ _ _).mpr ⟨n - 1, op', hi, rfl, (Nat.sub_add_cancel hpos).symm, rfl⟩

theorem BySeq.nodesOf_sorted (h : BySeq s idx) (hes : HasHistory s a es) :
    (nodesOf idx a).Pairwise fun e e' => e.sequence < e'.sequence := by
  have hsorted : ((es.map Prod.snd).zipIdx 1).Pairwise fun x y => x.2 < y.2 := by
    rw [List.pairwise_iff_getElem]
    intro i j hi hj hij
    simpa using hij
  rw [← h.nodesOf_eq hes] at hsorted
  rw [List.pairwise_map] at hsorted
  exact hsorted

theorem BySeq.exists_node (h : BySeq s idx) (hes : HasHistory s a es) {n : Nat} (hpos : 0 < n)
    (hn : n ≤ es.length) : ∃ e ∈ nodesOf idx a, e.sequence = n := by
  have hlt : n - 1 < (es.map Prod.snd).length := by
    rw [List.length_map]
    omega
  have hmem : ((es.map Prod.snd)[n - 1], n) ∈ (es.map Prod.snd).zipIdx 1 := by
    rw [List.mk_mem_zipIdx_iff_le_and_getElem?_sub]
    exact ⟨hpos, List.getElem?_eq_getElem hlt⟩
  rw [← h.nodesOf_eq hes] at hmem
  obtain ⟨e, he, heq⟩ := List.mem_map.mp hmem
  exact ⟨e, he, (Prod.mk.inj heq).2⟩

theorem BySeq.sequence_le (h : BySeq s idx) (hes : HasHistory s a es) {e : HistoryNode}
    (he : e ∈ nodesOf idx a) : 0 < e.sequence ∧ e.sequence ≤ es.length := by
  have hmem : (e.operation.number, e.sequence) ∈ (es.map Prod.snd).zipIdx 1 := by
    rw [← h.nodesOf_eq hes]
    exact List.mem_map_of_mem he
  rw [List.mk_mem_zipIdx_iff_le_and_getElem?_sub] at hmem
  have hlt := (List.getElem?_eq_some_iff.mp hmem.2).1
  rw [List.length_map] at hlt
  omega

theorem BySeq.between_eq (h : BySeq s idx) (hes : HasHistory s a es) (low high : Nat) :
    between s es low high = foundAll s (((nodesOf idx a).filter fun e =>
      low ≤ e.sequence ∧ e.sequence ≤ high).map fun e => e.operation.number).reverse := by
  unfold between
  rw [← h.nodesOf_eq hes, List.filter_map, List.map_map]
  rfl

/-- The cursor starts at the node with the sequence number and goes backwards through the nodes of
the account, and then through those of the lower accounts. -/
theorem BySeq.upperBoundSeq_eq (h : BySeq s idx) (hes : HasHistory s a es) {n : Nat}
    {e : HistoryNode}
    (he : e ∈ nodesOf idx a) (hn : n ≤ e.sequence)
    (hfirst : ∀ e' ∈ nodesOf idx a, n ≤ e'.sequence → e.sequence ≤ e'.sequence) :
    upperBoundSeq idx a n = ((nodesOf idx a).filter fun e' => e'.sequence ≤ e.sequence).reverse ++
      (idx.filter fun e => e.account < a).reverse := by
  have hsorted := h.nodesOf_sorted hes
  obtain ⟨htake, hdrop⟩ := cursor_split h.sorted fun e => decide_eq_true_iff
  have hsorted := h.nodesOf_sorted hes
  obtain ⟨e', rest, hcut, he', hn', hfirst'⟩ := exists_first_of_pairwise hsorted ⟨e, he, hn⟩
  obtain rfl : e = e' := eq_of_key_eq hsorted he he'
    (Nat.le_antisymm (hfirst e' he' hn') (hfirst' e he hn))
  unfold upperBoundSeq HistoryNode.beforeSeq
  rw [htake, hdrop, hcut, filter_le_first hsorted he hn hfirst]
  simp

/-- The loop goes on with the nodes `d` of the account down to the lower bound, unless the limit is
reached before. -/
theorem walkSeq_eq {d rest : Cursor}
    (hd : ∀ e ∈ d, e.account = a ∧ e.operation = ⟨ohoIndex, e.operation.number⟩ ∧
      (findOperation s e.operation).isSome)
    (hsorted : d.Pairwise fun e e' => e'.sequence < e.sequence)
    (hrest : ∀ e ∈ rest.head?, e.account ≠ a) (result : List (Found ω)) :
    walkSeq s wanted a low limit (d ++ rest) result = some (result ++
      ((foundAll s ((d.filter fun e => low ≤ e.sequence).map fun e => e.operation.number)).filter
        wanted).take (limit - result.length)) := by
  induction d generalizing result with
  | nil =>
    cases rest with
    | nil => simp [walkSeq, foundAll]
    | cons e rest =>
      have he : ¬(e.account = a ∧ low ≤ e.sequence ∧ result.length < limit) :=
        fun h => hrest e rfl h.1
      simp [walkSeq, he, foundAll]
  | cons e d ih =>
    obtain ⟨hacc, hop, hfind⟩ := hd e List.mem_cons_self
    obtain ⟨hlater, hsorted⟩ := List.pairwise_cons.mp hsorted
    have ih := ih (fun x hx => hd x (List.mem_cons_of_mem _ hx)) hsorted
    rw [List.cons_append, walkSeq]
    by_cases hlow : low ≤ e.sequence
    · by_cases hlimit : result.length < limit
      · obtain ⟨o, ho⟩ := Option.isSome_iff_exists.mp hfind
        rw [if_pos ⟨hacc, hlow, hlimit⟩, ho, Option.bind_some, ih,
          List.filter_cons_of_pos (by simpa using hlow), List.map_cons, foundAll_cons (hop ▸ ho)]
        by_cases hw : wanted o = true
        · have hlen : limit - result.length = limit - (result ++ [o]).length + 1 := by
            rw [List.length_append, List.length_singleton]
            omega
          rw [if_pos hw, List.filter_cons_of_pos hw, hlen, List.take_succ_cons, List.append_assoc]
          rfl
        · rw [if_neg hw, List.filter_cons_of_neg hw]
      · rw [if_neg fun h => hlimit h.2.2, Nat.sub_eq_zero_of_le (Nat.le_of_not_lt hlimit),
          List.take_zero, List.append_nil]
    · have hnone : (e :: d).filter (fun e => low ≤ e.sequence) = [] := by
        refine List.filter_eq_nil_iff.mpr fun x hx => ?_
        have hle : x.sequence ≤ e.sequence := by
          rcases List.mem_cons.mp hx with rfl | hx
          · exact Nat.le_refl _
          · exact Nat.le_of_lt (hlater x hx)
        simp only [decide_eq_true_eq]
        omega
      rw [if_neg fun h => hlow h.2.1, hnone]
      simp [foundAll]

theorem BySeq.walkSeq_from (h : BySeq s idx) (hes : HasHistory s a es) {n high : Nat}
    (hpos : 0 < high)
    (hhigh : high ≤ es.length) (hn : high = n ∨ n = 0 ∧ high = 1) :
    walkSeq s wanted a low limit (upperBoundSeq idx a n) [] =
      some (((between s es low high).filter wanted).take limit) := by
  obtain ⟨e, he, rfl⟩ := h.exists_node hes hpos hhigh
  have hcursor : upperBoundSeq idx a n = _ := h.upperBoundSeq_eq hes he
    (by omega) fun e' he' hle => by
    have hseq := h.sequence_le hes he'
    omega
  have hlower : ∀ x ∈ (idx.filter fun e => e.account < a).reverse, x.account < a := fun x hx =>
    of_decide_eq_true (List.mem_filter.mp (List.mem_reverse.mp hx)).2
  rw [hcursor, walkSeq_eq
    (fun x hx => nodesOf_stored h.mem hes (List.mem_filter.mp (List.mem_reverse.mp hx)).1)
    (List.pairwise_reverse.mpr ((h.nodesOf_sorted hes).filter _))
    (fun x hx => Nat.ne_of_lt (hlower x (List.mem_of_mem_head? hx))), List.nil_append,
    List.length_nil, Nat.sub_zero, h.between_eq hes, List.filter_reverse, List.map_reverse,
    List.filter_filter]
  have hcongr : (nodesOf idx a).filter (fun x => decide (low ≤ x.sequence) &&
      decide (x.sequence ≤ e.sequence)) = (nodesOf idx a).filter fun x =>
        low ≤ x.sequence ∧ x.sequence ≤ e.sequence := by
    refine List.filter_congr fun x hx => ?_
    simp
  rw [hcongr]

theorem BySeq.between_eq_nil_iff (h : BySeq s idx) (hes : HasHistory s a es) (low high : Nat) :
    between s es low high = [] ↔ ∀ n, 0 < n → n ≤ es.length → ¬(low ≤ n ∧ n ≤ high) := by
  have hlen : (between s es low high).length = ((nodesOf idx a).filter fun e =>
      low ≤ e.sequence ∧ e.sequence ≤ high).length := by
    rw [h.between_eq hes, foundAll_length, List.length_reverse, List.length_map]
    intro op hop
    obtain ⟨e, he, rfl⟩ := List.mem_map.mp (List.mem_reverse.mp hop)
    obtain ⟨-, hoper, hfind⟩ := nodesOf_stored h.mem hes (List.mem_filter.mp he).1
    rw [hoper] at hfind
    exact hfind
  rw [← List.length_eq_zero_iff, hlen, List.length_eq_zero_iff, List.filter_eq_nil_iff]
  constructor
  · intro hnone n hpos hn hin
    obtain ⟨e, he, rfl⟩ := h.exists_node hes hpos hn
    exact hnone e he (decide_eq_true hin)
  · intro hnone e he hin
    have hseq := h.sequence_le hes he
    exact hnone e.sequence hseq.1 hseq.2 (of_decide_eq_true hin)

theorem BySeq.between_min (h : BySeq s idx) (hes : HasHistory s a es) (low high : Nat) :
    between s es low (min es.length high) = between s es low high := by
  rw [h.between_eq hes, h.between_eq hes]
  refine congrArg (fun l : List HistoryNode => foundAll s
    (l.map fun e => e.operation.number).reverse)
    (List.filter_congr fun e he => ?_)
  have hseq := h.sequence_le hes he
  rw [decide_eq_decide]
  omega

end

/-- What the queries by sequence numbers return.  The header names the first bound of
`get_relative_account_history` `stop`, the earliest operation, and the second `start`, the most
recent one.  The definition names them the other way round, and returns what lies between them
exactly when nothing is asked for or that is at most one operation. -/
theorem relative_account_history (which : Option ω → Nat) (accountOf : String → Option AccountId)
    (s : Store (Record ω)) (idx : List HistoryNode) (name : String) {a : Nat}
    {es : List (Nat × Nat)}
    (hname : accountOf name = some a) (hes : HasHistory s a es) (hidx : BySeq s idx)
    (operationTypes : List Nat) (stop limit start totalCount : Nat) (hlimit : limit ≤ 100) :
    (getRelativeAccountHistory accountOf s idx name stop limit start =
        some ((between s es stop (if start = 0 then es.length else start)).take limit) ↔
      limit = 0 ∨ (if start = 0 then es.length else min es.length start) ≤ max stop 1) ∧
    (getRelativeAccountHistoryByOps which accountOf s idx name operationTypes stop limit totalCount =
      some (((between s es stop es.length).filter fun o =>
        operationTypes.isEmpty || operationTypes.contains (which o.2)).take limit, es.length)) := by
  obtain ⟨id, hstat⟩ := hes.statistics
  constructor
  · -- the upper bound, cut off at the end of the history
    obtain ⟨high, hhigh⟩ : ∃ high, (if start = 0 then es.length else min es.length start) = high :=
      ⟨_, rfl⟩
    have hle : high ≤ es.length := by
      rw [← hhigh]
      split <;> omega
    have hspec : between s es stop (if start = 0 then es.length else start) =
      between s es stop high := by
      rw [← hhigh]
      split
      · rfl
      · exact (hidx.between_min hes _ _).symm
    have hcode : getRelativeAccountHistory accountOf s idx name stop limit start =
        if stop ≤ high ∧ 0 < high ∧ 0 < limit then
          walkSeq s (fun _ => true) a high limit (upperBoundSeq idx a stop) []
        else some [] := by
      unfold getRelativeAccountHistory
      rw [if_neg (Nat.not_lt.mpr hlimit), hname]
      simp only [hstat, Option.bind_some, hhigh]
    rw [hcode, hspec, hhigh]
    by_cases hrun : stop ≤ high ∧ 0 < high ∧ 0 < limit
    · obtain ⟨hstop, hpos, hlim⟩ := hrun
      have hwalk : walkSeq s (fun _ => true) a high limit (upperBoundSeq idx a stop) [] =
          some (((between s es high (max stop 1)).filter fun _ => true).take limit) :=
        hidx.walkSeq_from hes (by omega) (by omega) (by omega)
      rw [if_pos ⟨hstop, hpos, hlim⟩, hwalk, List.filter_eq_self.mpr fun _ _ => rfl]
      by_cases hone : high ≤ max stop 1
      · -- the walk and the bounds meet in one node
        have hmax : max stop 1 = high := by omega
        have hsame : between s es high high = between s es stop high := by
          rw [hidx.between_eq hes, hidx.between_eq hes]
          refine congrArg (fun l : List HistoryNode =>
            foundAll s (l.map fun e => e.operation.number).reverse)
            (List.filter_congr fun e he => ?_)
          have hseq := hidx.sequence_le hes he
          rw [decide_eq_decide]
          omega
        rw [hmax, hsame]
        exact iff_of_true rfl (Or.inr (le_refl _))
      · have hnone : between s es high (max stop 1) = [] :=
          (hidx.between_eq_nil_iff hes _ _).mpr fun n _ _ hin => by omega
        rw [hnone, List.take_nil]
        refine iff_of_false (fun heq => ?_) fun hcond => by omega
        have hnil := List.take_eq_nil_iff.mp (Option.some.inj heq).symm
        rcases hnil with hzero | hnil
        · omega
        · exact (hidx.between_eq_nil_iff hes _ _).mp hnil high hpos hle ⟨hstop, le_refl _⟩
    · rw [if_neg hrun]
      rcases Nat.eq_zero_or_pos limit with rfl | hlim
      · rw [List.take_zero]
        exact iff_of_true rfl (Or.inl rfl)
      · have hnone : between s es stop high = [] :=
          (hidx.between_eq_nil_iff hes _ _).mpr fun n hpos _ hin => hrun (by omega)
        rw [hnone, List.take_nil]
        exact iff_of_true rfl (Or.inr (by omega))
  · unfold getRelativeAccountHistoryByOps
    rw [if_neg (Nat.not_lt.mpr hlimit), hname]
    simp only [hstat, Option.bind_some]
    by_cases hrun : stop ≤ es.length ∧ 0 < es.length ∧ 0 < limit
    · rw [if_pos hrun, hidx.walkSeq_from hes hrun.2.1 (le_refl _) (Or.inl rfl), Option.map_some]
    · rw [if_neg hrun]
      rcases Nat.eq_zero_or_pos limit with rfl | hlim
      · rw [List.take_zero]
      · have hnone : between s es stop es.length = [] :=
          (hidx.between_eq_nil_iff hes _ _).mpr fun n hpos hn hin => hrun (by omega)
        rw [hnone, List.filter_nil, List.take_nil]

/-! ### An account with two operations -/

def twoForOne : Store (Record Nat) where
  objects := List.toFinmap
    [⟨⟨accountIndex, 7⟩, .account ⟨statisticsIndex, 7⟩⟩,
     ⟨⟨statisticsIndex, 7⟩, .statistics 2 ⟨athoIndex, 1⟩⟩,
     ⟨⟨ohoIndex, 0⟩, .operation (some 5)⟩,
     ⟨⟨ohoIndex, 1⟩, .operation (some 6)⟩,
     ⟨⟨athoIndex, 0⟩, .transaction 7 ⟨ohoIndex, 0⟩ 1 ⟨athoIndex, 0⟩⟩,
     ⟨⟨athoIndex, 1⟩, .transaction 7 ⟨ohoIndex, 1⟩ 2 ⟨athoIndex, 0⟩⟩]
  nextId _ := 8

def twoForOneNodes : List HistoryNode :=
  [⟨7, ⟨ohoIndex, 0⟩, 1, ⟨athoIndex, 0⟩⟩, ⟨7, ⟨ohoIndex, 1⟩, 2, ⟨athoIndex, 0⟩⟩]

theorem twoForOne_node (k : Nat) : twoForOne.objects.lookup ⟨athoIndex, k⟩ =
    if k = 0 then some (.transaction 7 ⟨ohoIndex, 0⟩ 1 ⟨athoIndex, 0⟩)
    else if k = 1 then some (.transaction 7 ⟨ohoIndex, 1⟩ 2 ⟨athoIndex, 0⟩) else none := by
  match k with
  | 0 => rfl
  | 1 => rfl
  | k + 2 =>
    refine (Finmap.dlookup_list_toFinmap _ _).trans (List.dlookup_eq_none.mpr ?_)
    simp [List.keys, athoIndex, accountIndex, statisticsIndex, ohoIndex]

theorem twoForOne_hasHistory : HasHistory twoForOne 7 [(0, 0), (1, 1)] := by
  refine ⟨by simp, by simp, fun k operation sequence next => ?_, ⟨⟨statisticsIndex, 7⟩, rfl⟩, ?_⟩
  · rw [twoForOne_node]
    constructor
    · intro h
      split at h
      · cases h
        rename_i hk
        exact ⟨0, 0, by simp [hk], rfl, rfl, rfl⟩
      · split at h
        · cases h
          rename_i hk
          exact ⟨1, 1, by simp [hk], rfl, rfl, rfl⟩
        · cases h
    · rintro ⟨i, op, hi, rfl, rfl, rfl⟩
      match i with
      | 0 =>
        obtain ⟨rfl, rfl⟩ : 0 = k ∧ 0 = op := by simpa using hi
        rfl
      | 1 =>
        obtain ⟨rfl, rfl⟩ : 1 = k ∧ 1 = op := by simpa using hi
        rfl
      | i + 2 => simp at hi
  · intro e he
    rcases List.mem_cons.mp he with rfl | he
    · exact ⟨some 5, rfl⟩
    · obtain rfl := List.mem_singleton.mp he
      exact ⟨some 6, rfl⟩

theorem twoForOne_bySeq : BySeq twoForOne twoForOneNodes := by
  refine ⟨by simp [twoForOneNodes], fun e => ?_⟩
  constructor
  · intro he
    rcases List.mem_cons.mp he with rfl | he
    · exact ⟨0, rfl⟩
    · obtain rfl := List.mem_singleton.mp he
      exact ⟨1, rfl⟩
  · rintro ⟨k, hk⟩
    rw [twoForOne_node] at hk
    obtain ⟨account, operation, sequence, next⟩ := e
    split at hk
    · cases hk
      simp [twoForOneNodes]
    · split at hk
      · cases hk
        simp [twoForOneNodes]
      · cases hk

/-- The second operation alone is found, and by type both of them are. -/
theorem relative_account_history_second :
    getRelativeAccountHistory (fun _ => some 7) twoForOne twoForOneNodes "alice" 2 100 2 =
      some [(⟨ohoIndex, 1⟩, some 6)] ∧
    getRelativeAccountHistoryByOps (fun op => op.getD 0) (fun _ => some 7) twoForOne twoForOneNodes
      "alice" [] 0 100 0 = some ([(⟨ohoIndex, 1⟩, some 6), (⟨ohoIndex, 0⟩, some 5)], 2) := by
  have hone := relative_account_history (fun op => op.getD 0) (fun _ => some 7) twoForOne
    twoForOneNodes "alice" rfl twoForOne_hasHistory twoForOne_bySeq [] 2 100 2 0 (by decide)
  have hall := relative_account_history (fun op => op.getD 0) (fun _ => some 7) twoForOne
    twoForOneNodes "alice" rfl twoForOne_hasHistory twoForOne_bySeq [] 0 100 0 0 (by decide)
  exact ⟨hone.1.mpr (Or.inr (by decide)), hall.2⟩

/-- With the default bounds nothing is found of the two operations. -/
theorem relative_account_history_empty :
    HasHistory twoForOne 7 [(0, 0), (1, 1)] ∧ BySeq twoForOne twoForOneNodes ∧
    between twoForOne [(0, 0), (1, 1)] 0 2 =
      [(⟨ohoIndex, 1⟩, some 6), (⟨ohoIndex, 0⟩, some 5)] ∧
    getRelativeAccountHistory (fun _ => some 7) twoForOne twoForOneNodes "alice" 0 100 0 = some [] :=
  ⟨twoForOne_hasHistory, twoForOne_bySeq, rfl, rfl⟩

end Nestchain.History
