import Nestchain.History.OperationIds
import Nestchain.Lib.Sorted

/-! The queries of the account history.  `get_account_history` walks backwards through the Berkeley
DB index `by_op`, which is ordered by account and operation; `get_account_history_operations`
follows the links from the most recent entry of the account. -/

namespace Nestchain.History

open Nestchain.Db Nestchain.Lib

/-- `account_transaction_history_object`, without its id. -/
structure HistoryNode where
  account : Nat
  operation : ObjectId
  sequence : Nat
  next : ObjectId
deriving DecidableEq

/-- The object of a `bdb_iterator` at the end. -/
def HistoryNode.default : HistoryNode := ⟨0, ⟨ohoIndex, 0⟩, 0, ⟨athoIndex, 0⟩⟩

/-- An `operation_history_object`: its id and its operation. -/
abbrev Found (ω : Type) := ObjectId × Option ω

variable {ω K : Type}

/-- `find_db` of an `operation_history_object`, which is not there for `none`. -/
def findOperation (s : Store (Record ω)) (id : ObjectId) : Option (Found ω) :=
  match s.objects.lookup id with
  | some (.operation op) => some (id, op)
  | _ => none

/-- `find_db` of an `account_transaction_history_object`. -/
def findNode (s : Store (Record ω)) (id : ObjectId) : Option HistoryNode :=
  match s.objects.lookup id with
  | some (.transaction account operation sequence next) => some ⟨account, operation, sequence, next⟩
  | _ => none

/-- `get` of an `account_transaction_history_object`.  `find` gives no pointer to the objects in a
Berkeley DB file, and then `get` throws. -/
def getNode (sch : Schema (Record ω) K) (s : Store (Record ω)) (id : ObjectId) :
    Option HistoryNode :=
  if sch.isExternalDb id.index then none else findNode s id

/-- A cursor in the index `by_op`: its object and the ones before it, from there backwards.  Nothing
is left at the end. -/
abbrev Cursor := List HistoryNode

/-- `account_op_key_comp` is negative. -/
def HistoryNode.before (a : Nat) (op : Nat) (e : HistoryNode) : Bool :=
  e.account < a ∨ e.account = a ∧ e.operation.number < op

/-- `lower_bound` -/
def lowerBound (idx : List HistoryNode) (a : Nat) (op : Nat) : Cursor :=
  match idx.dropWhile (HistoryNode.before a op) with
  | [] => []
  | e :: _ => e :: (idx.takeWhile (HistoryNode.before a op)).reverse

/-- `itr->` -/
def Cursor.obj (c : Cursor) : HistoryNode := c.headD .default

/-- The loop of `get_account_history`. -/
def walk (s : Store (Record ω)) (a : Nat) (start stop limit : Nat) :
    Cursor → List (Found ω) → Option (Cursor × List (Found ω))
  | [], result => some ([], result)
  | e :: c, result =>
    if e.account = a ∧ stop < e.operation.number ∧ result.length < limit then
      if e.operation.number ≤ start then
        (findOperation s e.operation).bind fun oho => walk s a start stop limit c (result ++ [oho])
      else walk s a start stop limit c result
    else some (e :: c, result)

/-- `get_account_history`, or `none` when it throws or follows a null pointer. -/
def getAccountHistory (accountOf : String → Option AccountId) (s : Store (Record ω))
    (byOp : List HistoryNode) (name : String) (stop limit start : Nat) : Option (List (Found ω)) :=
  if 100 < limit then none
  else
    match accountOf name with
    | none => some []
    | some a =>
      match statisticsOf s a with
      | none => some []
      | some (_, _, recent) =>
        (findNode s recent).bind fun node =>
          let start := if start = 0 ∨ node.operation.number <
            start then node.operation.number else start
          (walk s a start stop limit (lowerBound byOp a start) []).bind fun (itr, result) =>
            if stop = 0 ∧ result.length < limit ∧ itr.obj.account = a then
              (findOperation s itr.obj.operation).map fun oho => result ++ [oho]
            else some result

/-- The loop of `get_account_history_operations`, for at most `fuel` nodes. -/
def followLinks (which : Option ω → Nat) (s : Store (Record ω))
    (operationId start stop limit : Nat) :
    Nat → HistoryNode → List (Found ω) → Option (List (Found ω))
  | 0, _, _ => none
  | fuel + 1, node, result =>
    if stop < node.operation.number ∧ result.length < limit then
      (if node.operation.number ≤ start then
        (findOperation s node.operation).map fun oho =>
          if which oho.2 = operationId then result ++ [oho] else result
      else some result).bind fun result =>
        if node.next = ⟨athoIndex, 0⟩ then some result
        else
          match findNode s node.next with
          | none => some result
          | some node => followLinks which s operationId start stop limit fuel node result
    else some result

/-- `get_account_history_operations`, or `none` when it throws or follows a null pointer. -/
def getAccountHistoryOperations (sch : Schema (Record ω) K) (which : Option ω → Nat)
    (accountOf : String → Option AccountId) (s : Store (Record ω)) (name : String)
    (operationId start stop limit : Nat) : Option (List (Found ω)) :=
  if 100 < limit then none
  else
    match accountOf name with
    | none => some []
    | some a =>
      (statisticsOf s a).bind fun (_, _, recent) =>
        if recent = ⟨athoIndex, 0⟩ then some []
        else
          (getNode sch s recent).bind fun node =>
            let start := if start = 0 then node.operation.number else start
            (followLinks which s operationId start stop limit (s.nextId athoIndex) node []).bind
              fun result =>
                if stop = 0 ∧ result.length < limit then
                  (findNode s ⟨athoIndex, 0⟩).map fun head =>
                    if head.account = a then
                      match findOperation s head.operation with
                      | some oh => if which oh.2 = operationId then result ++ [oh] else result
                      | none => result
                    else result
                else some result

/-! ### Account histories -/

/-- The id of the last node, or the default id. -/
def lastNode (es : List (Nat × Nat)) : Nat := (es.getLast?.map Prod.fst).getD 0

/-- The history of an account: the ids of its nodes and of their operations, the oldest first.  The
sequence numbers count from 1 to `total_ops`. -/
structure HasHistory (s : Store (Record ω)) (a : Nat) (es : List (Nat × Nat)) : Prop where
  operations : (es.map Prod.snd).Pairwise (· < ·)
  ids : (es.map Prod.fst).Pairwise (· < ·)
  nodes : ∀ k operation sequence next,
    s.objects.lookup ⟨athoIndex, k⟩ = some (.transaction a operation sequence next) ↔
      ∃ (i : Nat) (op : Nat), es[i]? = some (k, op) ∧ operation = ⟨ohoIndex, op⟩ ∧
        sequence = i + 1 ∧
        next = ⟨athoIndex, lastNode (es.take i)⟩
  statistics : ∃ id, statisticsOf s a = some (id, es.length, ⟨athoIndex, lastNode es⟩)
  stored : ∀ e ∈ es, ∃ op, s.objects.lookup ⟨ohoIndex, e.2⟩ = some (.operation op)

/-- The index `by_op`, as Berkeley DB keeps it for the nodes. -/
structure ByOp (s : Store (Record ω)) (idx : List HistoryNode) : Prop where
  sorted : idx.Pairwise fun e e' =>
    e.account < e'.account ∨ e.account = e'.account ∧ e.operation.number < e'.operation.number
  mem : ∀ e : HistoryNode, e ∈ idx ↔ ∃ k, s.objects.lookup ⟨athoIndex, k⟩ =
    some (.transaction e.account e.operation e.sequence e.next)

/-- The operations after `stop` up to `start`.  A `start` of zero is the newest operation, and a
`stop` of zero takes operation zero in. -/
def Requested (stop start op : Nat) : Prop :=
  (stop < op ∨ stop = 0 ∧ op = 0) ∧ (start = 0 ∨ op ≤ start)

instance (stop start op : Nat) : Decidable (Requested stop start op) := by
  unfold Requested
  infer_instance

def foundAll (s : Store (Record ω)) (ops : List Nat) : List (Found ω) :=
  ops.filterMap fun op => findOperation s ⟨ohoIndex, op⟩

/-- The requested operations of a history, the newest first. -/
def requested (s : Store (Record ω)) (es : List (Nat × Nat)) (stop start : Nat) : List (Found ω) :=
  foundAll s ((es.map Prod.snd).reverse.filter fun op => Requested stop start op)

/-- The histories and parameters that `get_account_history` serves.  For an account without
operations there must be a node with the default id, as it is taken for the most recent one; and the
cursor must not run off the history of account zero, which is what the object at the end belongs
to. -/
def Served (s : Store (Record ω)) (a : Nat) (es : List (Nat × Nat)) (stop limit start : Nat) :
    Prop :=
  (es = [] → (findNode s ⟨athoIndex, 0⟩).isSome) ∧
  (a = 0 → es ≠ [] → stop = 0 → 0 ∈ es.map Prod.snd ∨
    limit ≤ ((es.map Prod.snd).filter fun op => start = 0 ∨ op ≤ start).length)

/-! ### The index -/

section Index

variable {s : Store (Record ω)} {a : Nat} {es : List (Nat × Nat)} {idx : List HistoryNode}

theorem findOperation_of_lookup {id : ObjectId} {op : Option ω}
    (h : s.objects.lookup id = some (.operation op)) : findOperation s id = some (id, op) := by
  simp only [findOperation, h]

theorem findNode_eq_some {id : ObjectId} {e : HistoryNode} :
    findNode s id = some e ↔
      s.objects.lookup id = some (.transaction e.account e.operation e.sequence e.next) := by
  unfold findNode
  constructor
  · intro h
    split at h
    · rename_i hlookup
      cases h
      exact hlookup
    · cases h
  · intro h
    simp only [h]

def nodesOf (idx : List HistoryNode) (a : Nat) : List HistoryNode :=
  idx.filter fun e => e.account = a

theorem nodesOf_split (hsorted : idx.Pairwise fun e e' => e.account ≤ e'.account) (a : Nat) :
    idx = idx.filter (fun e => e.account < a) ++ nodesOf idx a ++
      idx.filter fun e => a < e.account := by
  unfold nodesOf
  induction idx with
  | nil => rfl
  | cons e idx ih =>
    obtain ⟨he, hidx⟩ := List.pairwise_cons.mp hsorted
    have ih := ih hidx
    rcases Nat.lt_trichotomy e.account a with hlt | heq | hgt
    · rw [List.filter_cons_of_pos (by simpa using hlt), List.filter_cons_of_neg (by simp; omega),
        List.filter_cons_of_neg (by simp; omega), List.cons_append, List.cons_append, ← ih]
    · have hnone : idx.filter (fun e => e.account < a) = [] := by
        refine List.filter_eq_nil_iff.mpr fun e' he' => ?_
        have := he e' he'
        simp only [decide_eq_true_eq]
        omega
      rw [hnone, List.nil_append] at ih
      rw [List.filter_cons_of_neg (by simp; omega), List.filter_cons_of_pos (by simpa using heq),
        List.filter_cons_of_neg (by simp; omega), hnone, List.nil_append, List.cons_append, ← ih]
    · have hnone : idx.filter (fun e => e.account < a) = [] := by
        refine List.filter_eq_nil_iff.mpr fun e' he' => ?_
        have := he e' he'
        simp only [decide_eq_true_eq]
        omega
      have hnone' : idx.filter (fun e => e.account = a) = [] := by
        refine List.filter_eq_nil_iff.mpr fun e' he' => ?_
        have := he e' he'
        simp only [decide_eq_true_eq]
        omega
      rw [hnone, hnone', List.nil_append, List.nil_append] at ih
      rw [List.filter_cons_of_neg (by simp; omega), List.filter_cons_of_neg (by simp; omega),
        List.filter_cons_of_pos (by simpa using hgt), hnone, hnone', List.nil_append,
          List.nil_append,
        ← ih]

theorem cursor_split {number : HistoryNode → Nat}
    (hsorted : idx.Pairwise fun e e' =>
      e.account < e'.account ∨ e.account = e'.account ∧ number e < number e')
    {a n : Nat} {before : HistoryNode → Bool}
    (hbefore : ∀ e, before e = true ↔ e.account < a ∨ e.account = a ∧ number e < n) :
    idx.takeWhile before = (idx.filter fun e => e.account < a) ++
      ((nodesOf idx a).filter fun e => number e < n) ∧
    idx.dropWhile before = ((nodesOf idx a).filter fun e => n ≤ number e) ++
      idx.filter fun e => a < e.account := by
  have hmono : ∀ e e' : HistoryNode, (e.account < e'.account ∨
      e.account = e'.account ∧ number e < number e') → before e' = true → before e = true := by
    intro e e' hlt he'
    have he' := (hbefore e').mp he'
    refine (hbefore e).mpr ?_
    omega
  obtain ⟨htake, hdrop⟩ := takeWhile_dropWhile_eq_filter hsorted hmono
  have hsplit := nodesOf_split (hsorted.imp fun {e e'} hlt => by omega) a
  have hbelow : ∀ e ∈ idx.filter (fun e => e.account < a), before e = true := fun e he =>
    (hbefore e).mpr (Or.inl (of_decide_eq_true (List.mem_filter.mp he).2))
  have hmine : ∀ e ∈ nodesOf idx a, before e = decide (number e < n) := by
    intro e he
    have hacc : e.account = a := of_decide_eq_true (List.mem_filter.mp he).2
    rw [Bool.eq_iff_iff, hbefore, decide_eq_true_iff]
    omega
  have habove : ∀ e ∈ idx.filter (fun e => a < e.account), ¬before e = true := by
    intro e he
    have hacc : a < e.account := of_decide_eq_true (List.mem_filter.mp he).2
    rw [hbefore]
    omega
  rw [htake, hdrop]
  constructor
  · conv_lhs => rw [hsplit]
    rw [List.filter_append, List.filter_append, List.filter_eq_self.mpr hbelow,
      List.filter_congr hmine, List.filter_eq_nil_iff.mpr habove, List.append_nil]
  · conv_lhs => rw [hsplit]
    rw [List.filter_append, List.filter_append,
      List.filter_eq_nil_iff.mpr fun e he => by simp [hbelow e he], List.nil_append]
    congr 1
    · refine List.filter_congr fun e he => ?_
      rw [hmine e he, ← decide_not, decide_eq_decide]
      omega
    · exact List.filter_eq_self.mpr fun e he => by simp [habove e he]

theorem ByOp.nodesOf_sorted (h : ByOp s idx) (a : Nat) :
    (nodesOf idx a).Pairwise fun e e' => e.operation.number < e'.operation.number := by
  refine ((h.sorted.filter _).imp_of_mem fun {e e'} he he' hlt => ?_)
  have ha : e.account = a := of_decide_eq_true (List.mem_filter.mp he).2
  have ha' : e'.account = a := of_decide_eq_true (List.mem_filter.mp he').2
  omega

theorem ByOp.nodesOf_numbers (h : ByOp s idx) (hes : HasHistory s a es) :
    (nodesOf idx a).map (fun e => e.operation.number) = es.map Prod.snd := by
  refine eq_of_pairwise_of_mem_iff (fun _ _ => Nat.ne_of_lt) (fun _ _ => Nat.lt_asymm)
    (List.pairwise_map.mpr (h.nodesOf_sorted a)) hes.operations fun x =>
      ⟨fun hx => ?_, fun hx => ?_⟩
  · obtain ⟨e, he, rfl⟩ := List.mem_map.mp hx
    obtain ⟨hmem, hacc⟩ := List.mem_filter.mp he
    obtain ⟨k, hk⟩ := (h.mem e).mp hmem
    rw [of_decide_eq_true hacc] at hk
    obtain ⟨i, op, hi, hop, -⟩ := (hes.nodes _ _ _ _).mp hk
    rw [hop]
    exact List.mem_map.mpr ⟨(k, op), List.mem_of_getElem? hi, rfl⟩
  · obtain ⟨⟨k, op⟩, he, rfl⟩ := List.mem_map.mp hx
    obtain ⟨i, hi⟩ := List.getElem?_of_mem he
    refine List.mem_map.mpr ⟨⟨a, ⟨ohoIndex, op⟩, i + 1, ⟨athoIndex, lastNode (es.take i)⟩⟩, ?_, rfl⟩
    refine List.mem_filter.mpr ⟨(h.mem _).mpr ⟨k, ?_⟩, decide_eq_true rfl⟩
    exact (hes.nodes _ _ _ _).mpr ⟨i, op, hi, rfl, rfl, rfl⟩

theorem nodesOf_stored (hidx : ∀ e : HistoryNode, e ∈ idx ↔ ∃ k, s.objects.lookup ⟨athoIndex, k⟩ =
      some (.transaction e.account e.operation e.sequence e.next))
    (hes : HasHistory s a es) {e : HistoryNode} (he : e ∈ nodesOf idx a) :
    e.account = a ∧ e.operation = ⟨ohoIndex, e.operation.number⟩ ∧
      (findOperation s e.operation).isSome := by
  obtain ⟨hmem, hacc⟩ := List.mem_filter.mp he
  have hacc : e.account = a := of_decide_eq_true hacc
  obtain ⟨k, hk⟩ := (hidx e).mp hmem
  rw [hacc] at hk
  obtain ⟨i, op, hi, hop, -⟩ := (hes.nodes _ _ _ _).mp hk
  obtain ⟨o, ho⟩ := hes.stored (k, op) (List.mem_of_getElem? hi)
  refine ⟨hacc, by rw [hop], ?_⟩
  rw [hop, findOperation_of_lookup ho]
  rfl

/-- The cursor goes backwards through the nodes of the account from the first that is not before
`start`, and then through those of the lower accounts. -/
theorem ByOp.lowerBound_eq (h : ByOp s idx) {a start : Nat}
    (hex : ∃ e ∈ nodesOf idx a, start ≤ e.operation.number) :
    ∃ d, lowerBound idx a start = d ++ (idx.filter fun e => e.account < a).reverse ∧
      (∀ e ∈ d, e ∈ nodesOf idx a) ∧
      (∀ e ∈ nodesOf idx a, e.operation.number ≤ start → e ∈ d) ∧
      d.Pairwise fun e e' => e'.operation.number < e.operation.number := by
  obtain ⟨htake, hdrop⟩ := cursor_split h.sorted fun e => decide_eq_true_iff
  have hsorted := h.nodesOf_sorted a
  obtain ⟨e, rest, hcut, he, hes, hfirst⟩ := exists_first_of_pairwise hsorted hex
  refine ⟨e :: ((nodesOf idx a).filter fun e => e.operation.number < start).reverse, ?_, ?_, ?_, ?_⟩
  · unfold lowerBound HistoryNode.before
    rw [htake, hdrop, hcut]
    simp
  · intro e' he'
    rcases List.mem_cons.mp he' with rfl | he'
    · exact he
    · exact (List.mem_filter.mp (List.mem_reverse.mp he')).1
  · intro e' he' hle
    by_cases hlt : e'.operation.number < start
    · exact List.mem_cons_of_mem _ (List.mem_reverse.mpr
        (List.mem_filter.mpr ⟨he', decide_eq_true hlt⟩))
    · have hle' := hfirst e' he' (Nat.not_lt.mp hlt)
      obtain rfl := eq_of_key_eq hsorted he he' (by omega)
      exact List.mem_cons_self
  · refine List.pairwise_cons.mpr ⟨fun e' he' => ?_, List.pairwise_reverse.mpr (hsorted.filter _)⟩
    have := of_decide_eq_true (List.mem_filter.mp (List.mem_reverse.mp he')).2
    omega

/-! ### The walk -/

theorem foundAll_cons {op : Nat} {o : Found ω} (h : findOperation s ⟨ohoIndex, op⟩ = some o)
    (ops : List Nat) : foundAll s (op :: ops) = o :: foundAll s ops := by
  simp only [foundAll, List.filterMap_cons, h]

theorem foundAll_length {ops : List Nat} (h : ∀ op ∈ ops, (findOperation s ⟨ohoIndex, op⟩).isSome) :
    (foundAll s ops).length = ops.length := by
  induction ops with
  | nil => rfl
  | cons op ops ih =>
    obtain ⟨o, ho⟩ := Option.isSome_iff_exists.mp (h op List.mem_cons_self)
    rw [foundAll_cons ho, List.length_cons, List.length_cons,
      ih fun x hx => h x (List.mem_cons_of_mem _ hx)]

/-- The loop goes on with the nodes `d` of the account up to one that is not after `stop`, unless
the limit is reached before. -/
theorem walk_eq (start stop limit : Nat) {d rest : Cursor}
    (hd : ∀ e ∈ d, e.account = a ∧ e.operation = ⟨ohoIndex, e.operation.number⟩ ∧
      (findOperation s e.operation).isSome)
    (hsorted : d.Pairwise fun e e' => e'.operation.number < e.operation.number)
    (hrest : ∀ e ∈ rest.head?, e.account ≠ a) (result : List (Found ω)) :
    ∃ c, walk s a start stop limit (d ++ rest) result = some (c, result ++
      (foundAll s ((d.map fun e => e.operation.number).filter fun op =>
        stop < op ∧ op ≤ start)).take
        (limit - result.length)) ∧
      (result.length + ((foundAll s ((d.map fun e => e.operation.number).filter fun op =>
        stop < op ∧ op ≤ start)).take (limit - result.length)).length < limit →
        c = d.dropWhile (fun e => stop < e.operation.number) ++ rest) := by
  induction d generalizing result with
  | nil =>
    cases rest with
    | nil => exact ⟨[], by simp [walk, foundAll], fun _ => rfl⟩
    | cons e rest =>
      have he : ¬(e.account = a ∧ stop < e.operation.number ∧ result.length < limit) :=
        fun h => hrest e rfl h.1
      exact ⟨e :: rest, by simp [walk, he, foundAll], fun _ => rfl⟩
  | cons e d ih =>
    obtain ⟨hacc, hop, hfind⟩ := hd e List.mem_cons_self
    obtain ⟨hlater, hsorted⟩ := List.pairwise_cons.mp hsorted
    have ih := ih (fun x hx => hd x (List.mem_cons_of_mem _ hx)) hsorted
    rw [List.cons_append, walk, List.map_cons]
    by_cases hstop : stop < e.operation.number
    · by_cases hlimit : result.length < limit
      · rw [if_pos ⟨hacc, hstop, hlimit⟩, List.dropWhile_cons_of_pos (by simpa using hstop)]
        by_cases hstart : e.operation.number ≤ start
        · obtain ⟨o, ho⟩ := Option.isSome_iff_exists.mp hfind
          obtain ⟨c, hwalk, hc⟩ := ih (result ++ [o])
          have hlen : limit - result.length = limit - (result ++ [o]).length + 1 := by
            rw [List.length_append, List.length_singleton]
            omega
          rw [if_pos hstart, ho, Option.bind_some,
            List.filter_cons_of_pos (by simp [hstop, hstart]), foundAll_cons (hop ▸ ho), hlen,
            List.take_succ_cons]
          refine ⟨c, ?_, fun h => hc ?_⟩
          · rw [hwalk, List.append_assoc]
            rfl
          · rw [List.length_append, List.length_singleton]
            rw [List.length_cons] at h
            rw [List.length_append, List.length_singleton] at h
            omega
        · rw [if_neg hstart, List.filter_cons_of_neg (by simp [hstart])]
          exact ih result
      · rw [if_neg fun h => hlimit h.2.2, Nat.sub_eq_zero_of_le (Nat.le_of_not_lt hlimit),
          List.take_zero, List.append_nil]
        exact ⟨_, rfl, fun h => absurd (Nat.lt_of_le_of_lt (Nat.le_add_right _ _) h) hlimit⟩
    · have hnone : (e.operation.number :: d.map fun e => e.operation.number).filter
          (fun op => stop < op ∧ op ≤ start) = [] := by
        refine List.filter_eq_nil_iff.mpr fun op hop' => ?_
        have hle : op ≤ e.operation.number := by
          rcases List.mem_cons.mp hop' with rfl | hop'
          · exact Nat.le_refl _
          · obtain ⟨x, hx, rfl⟩ := List.mem_map.mp hop'
            exact Nat.le_of_lt (hlater x hx)
        simp only [decide_eq_true_eq]
        omega
      rw [if_neg fun h => hstop h.2.1, hnone]
      refine ⟨e :: (d ++ rest), by simp [foundAll], fun _ => ?_⟩
      rw [List.dropWhile_cons_of_neg (by simpa using hstop), List.cons_append]

/-! ### The queries -/

theorem HasHistory.recent (hes : HasHistory s a es) {k m : Nat}
    (hlast : es.getLast? = some (k, m)) :
    ∃ e, findNode s ⟨athoIndex, lastNode es⟩ = some e ∧ e.operation.number = m := by
  have hi : es[es.length - 1]? = some (k, m) := by
    rw [← List.getLast?_eq_getElem?]
    exact hlast
  have hnode := (hes.nodes _ _ _ _).mpr ⟨_, m, hi, rfl, rfl, rfl⟩
  have hid : lastNode es = k := by
    rw [lastNode, hlast]
    rfl
  rw [hid]
  exact ⟨⟨a, ⟨ohoIndex, m⟩, es.length - 1 + 1, ⟨athoIndex, lastNode (es.take (es.length - 1))⟩⟩,
    findNode_eq_some.mpr hnode, rfl⟩

theorem HasHistory.le_last (hes : HasHistory s a es) {k m : Nat} (hlast : es.getLast? = some (k, m))
    {op : Nat} (hop : op ∈ es.map Prod.snd) : op ≤ m := by
  obtain ⟨l, rfl⟩ := List.getLast?_eq_some_iff.mp hlast
  have hsorted := hes.operations
  rw [List.map_append, List.pairwise_append] at hsorted
  rw [List.map_append, List.mem_append] at hop
  rcases hop with hop | hop
  · exact Nat.le_of_lt (hsorted.2.2 op hop m (by simp))
  · simp only [List.map_cons, List.map_nil, List.mem_singleton] at hop
    exact Nat.le_of_eq hop

/-- What `get_account_history` makes of the most recent node. -/
def answer (s : Store (Record ω)) (byOp : List HistoryNode) (a stop limit start : Nat)
    (node : HistoryNode) : Option (List (Found ω)) :=
  let start := if start = 0 ∨ node.operation.number < start then node.operation.number else start
  (walk s a start stop limit (lowerBound byOp a start) []).bind fun (itr, result) =>
    if stop = 0 ∧ result.length < limit ∧ itr.obj.account = a then
      (findOperation s itr.obj.operation).map fun oho => result ++ [oho]
    else some result

theorem getAccountHistory_eq {accountOf : String → Option AccountId} {name : String}
    {stop limit start : Nat} (hes : HasHistory s a es) (hname : accountOf name = some a)
    (hlimit : limit ≤ 100) :
    getAccountHistory accountOf s idx name stop limit start =
      (findNode s ⟨athoIndex, lastNode es⟩).bind (answer s idx a stop limit start) := by
  obtain ⟨id, hstat⟩ := hes.statistics
  unfold getAccountHistory
  rw [if_neg (Nat.not_lt.mpr hlimit), hname]
  simp only [hstat]
  rfl

theorem ByOp.answer_nil (h : ByOp s idx) (hes : HasHistory s a []) {node : HistoryNode} {k : Nat}
    (hnode : findNode s ⟨athoIndex, k⟩ = some node) (stop limit start : Nat) :
    answer s idx a stop limit start node = some [] := by
  have hnone : ∀ e ∈ idx, e.account ≠ a := by
    intro e he hacc
    have hmem : e ∈ nodesOf idx a := List.mem_filter.mpr ⟨he, decide_eq_true hacc⟩
    have := List.mem_map_of_mem (f := fun e => e.operation.number) hmem
    rw [h.nodesOf_numbers hes] at this
    exact List.not_mem_nil this
  have hobj : ∀ op, (lowerBound idx a op).obj.account ≠ a := by
    intro op
    unfold lowerBound
    split
    · rename_i hdrop
      -- the index is not empty, so that the account is not the lowest
      intro hzero
      have hmem : node ∈ idx := (h.mem node).mpr ⟨k, findNode_eq_some.mp hnode⟩
      have hbefore := List.dropWhile_eq_nil_iff.mp hdrop node hmem
      have hacc := hnone node hmem
      have hzero : (0 : Nat) = a := hzero
      have := of_decide_eq_true hbefore
      omega
    · rename_i e l hdrop
      refine hnone e ((List.dropWhile_sublist (HistoryNode.before a op)).subset ?_)
      rw [hdrop]
      exact List.mem_cons_self
  have hwalk : ∀ op, walk s a op stop limit (lowerBound idx a op) [] =
      some (lowerBound idx a op, []) := by
    intro op
    have hop := hobj op
    cases hc : lowerBound idx a op with
    | nil => rfl
    | cons e c =>
      rw [hc] at hop
      rw [walk, if_neg fun h => hop h.1]
  unfold answer
  simp only [hwalk, Option.bind_some]
  rw [if_neg fun h => hobj _ h.2.2]

theorem HasHistory.found (hes : HasHistory s a es) {op : Nat} (hop : op ∈ es.map Prod.snd) :
    (findOperation s ⟨ohoIndex, op⟩).isSome := by
  obtain ⟨e, he, rfl⟩ := List.mem_map.mp hop
  obtain ⟨o, ho⟩ := hes.stored e he
  rw [findOperation_of_lookup ho]
  rfl

theorem HasHistory.foundAll_length (hes : HasHistory s a es) (p : Nat → Prop) [DecidablePred p] :
    (foundAll s ((es.map Prod.snd).reverse.filter p)).length =
      ((es.map Prod.snd).reverse.filter p).length :=
  History.foundAll_length fun _ hop => hes.found (List.mem_reverse.mp (List.mem_filter.mp hop).1)

/-- The walk from `start` on, and where it ends when it reaches no limit.  The object there is that
of operation zero, when the account has it; else it is of another account, or of account zero at the
end of the index. -/
theorem ByOp.walk_lowerBound (h : ByOp s idx) (hes : HasHistory s a es) {start m : Nat}
    (hm : m ∈ es.map Prod.snd) (hle : start ≤ m) (stop limit : Nat) :
    ∃ c, walk s a start stop limit (lowerBound idx a start) [] = some (c, (foundAll s
      ((es.map Prod.snd).reverse.filter fun op => stop < op ∧ op ≤ start)).take limit) ∧
      (((es.map Prod.snd).reverse.filter fun op => stop < op ∧ op ≤ start).length < limit →
        stop = 0 →
        (0 ∈ es.map Prod.snd → c.obj.account = a ∧ c.obj.operation = ⟨ohoIndex, 0⟩) ∧
        (0 ∉ es.map Prod.snd → (c.obj.account = a ↔ a = 0))) := by
  have hnumbers := h.nodesOf_numbers hes
  have hm' := hm
  rw [← hnumbers] at hm'
  obtain ⟨x, hx, rfl⟩ := List.mem_map.mp hm'
  obtain ⟨d, hd, hmem, hall, hsorted⟩ := h.lowerBound_eq ⟨x, hx, hle⟩
  have hmemd : ∀ op, op ≤ start →
      (op ∈ d.map (fun e => e.operation.number) ↔ op ∈ es.map Prod.snd) := by
    intro op hop
    rw [← hnumbers, List.mem_map, List.mem_map]
    constructor
    · rintro ⟨e, he, rfl⟩
      exact ⟨e, hmem e he, rfl⟩
    · rintro ⟨e, he, rfl⟩
      exact ⟨e, hall e he hop, rfl⟩
  have hfilter : (d.map fun e => e.operation.number).filter (fun op => stop < op ∧ op ≤ start) =
      (es.map Prod.snd).reverse.filter fun op => stop < op ∧ op ≤ start := by
    refine eq_of_pairwise_of_mem_iff (fun _ _ => Nat.ne_of_gt) (fun _ _ => Nat.lt_asymm)
      ((List.pairwise_map.mpr hsorted).filter _)
      ((List.pairwise_reverse.mpr hes.operations).filter _) fun op => ?_
    simp only [List.mem_filter, List.mem_reverse, decide_eq_true_eq]
    exact and_congr_left fun hop => hmemd op hop.2
  have hlower : ∀ e ∈ (idx.filter fun e => e.account < a).reverse, e.account < a := fun e he =>
    of_decide_eq_true (List.mem_filter.mp (List.mem_reverse.mp he)).2
  obtain ⟨c, hwalk, hc⟩ := walk_eq start stop limit
    (fun e he => nodesOf_stored h.mem hes (hmem e he)) hsorted
    (fun e he => Nat.ne_of_lt (hlower e (List.mem_of_mem_head? he))) []
  rw [hfilter, List.nil_append, List.length_nil, Nat.sub_zero] at hwalk
  refine ⟨c, hd ▸ hwalk, fun hlen hstop => ?_⟩
  have hfound := hes.foundAll_length fun op => stop < op ∧ op ≤ start
  have hc := hc (by
    rw [hfilter, List.length_nil, Nat.sub_zero, List.length_take, hfound]
    omega)
  subst hstop
  constructor
  · intro hzero
    cases hdrop : d.dropWhile fun e => 0 < e.operation.number with
    | nil =>
      obtain ⟨e, he, hop⟩ := List.mem_map.mp ((hmemd 0 (Nat.zero_le _)).mpr hzero)
      have := List.dropWhile_eq_nil_iff.mp hdrop e he
      simp [hop] at this
    | cons e d' =>
      have hhead := List.head?_dropWhile_not (fun e : HistoryNode => 0 < e.operation.number) d
      rw [hdrop] at hhead
      have he : e ∈ d := by
        refine (List.dropWhile_sublist fun e : HistoryNode => 0 < e.operation.number).subset ?_
        rw [hdrop]
        exact List.mem_cons_self
      obtain ⟨hacc, hop, -⟩ := nodesOf_stored h.mem hes (hmem e he)
      have hnumber : e.operation.number = 0 := by simpa using hhead
      rw [hdrop] at hc
      rw [hc]
      exact ⟨hacc, by rw [← hnumber]; exact hop⟩
  · intro hzero
    have hdrop : d.dropWhile (fun e => 0 < e.operation.number) = [] := by
      refine List.dropWhile_eq_nil_iff.mpr fun e he =>
        decide_eq_true (Nat.pos_of_ne_zero fun hop => ?_)
      exact hzero ((hmemd 0 (Nat.zero_le _)).mp (List.mem_map.mpr ⟨e, he, hop⟩))
    rw [hdrop, List.nil_append] at hc
    cases hlo : (idx.filter fun e => e.account < a).reverse with
    | nil =>
      rw [hc, hlo]
      exact eq_comm
    | cons e lo =>
      have := hlower e (hlo ▸ List.mem_cons_self)
      rw [hc, hlo]
      show e.account = a ↔ a = 0
      omega

section Requested

variable {ops : List Nat} {stop start first : Nat}

theorem requested_zero (hops : ops.Pairwise (· < ·)) (hzero : 0 ∈ ops)
    (hfirst : ∀ op ∈ ops, (op ≤ first ↔ start = 0 ∨ op ≤ start)) :
    ops.reverse.filter (fun op => Requested 0 start op) =
      (ops.reverse.filter fun op => 0 < op ∧ op ≤ first) ++ [0] := by
  have hrev : ops.reverse.Pairwise (· > ·) := List.pairwise_reverse.mpr hops
  refine eq_of_pairwise_of_mem_iff (fun _ _ => Nat.ne_of_gt) (fun _ _ => Nat.lt_asymm)
    (hrev.filter _) ?_ fun op => ?_
  · refine List.pairwise_append.mpr ⟨hrev.filter _, List.pairwise_singleton _ _, ?_⟩
    intro x hx y hy
    obtain rfl := List.mem_singleton.mp hy
    exact (of_decide_eq_true (List.mem_filter.mp hx).2).1
  · rw [List.mem_append, List.mem_filter, List.mem_filter, List.mem_reverse, List.mem_singleton,
      decide_eq_true_iff, decide_eq_true_iff]
    unfold Requested
    constructor
    · rintro ⟨hop, hreq⟩
      have := hfirst op hop
      by_cases h0 : op = 0
      · exact Or.inr h0
      · exact Or.inl ⟨hop, by omega⟩
    · rintro (⟨hop, hreq⟩ | rfl)
      · have := hfirst op hop
        exact ⟨hop, by omega⟩
      · exact ⟨hzero, by omega⟩

theorem requested_of_ne (h : stop ≠ 0 ∨ 0 ∉ ops)
    (hfirst : ∀ op ∈ ops, (op ≤ first ↔ start = 0 ∨ op ≤ start)) :
    ops.reverse.filter (fun op => Requested stop start op) =
      ops.reverse.filter fun op => stop < op ∧ op ≤ first := by
  refine List.filter_congr fun op hop => ?_
  have hop := List.mem_reverse.mp hop
  have hne : stop ≠ 0 ∨ op ≠ 0 := h.imp id fun h heq => h (heq ▸ hop)
  have := hfirst op hop
  rw [decide_eq_decide, Requested]
  omega

theorem requested_length (hzero : 0 ∉ ops)
    (hfirst : ∀ op ∈ ops, (op ≤ first ↔ start = 0 ∨ op ≤ start)) :
    (ops.reverse.filter fun op => 0 < op ∧ op ≤ first).length =
      (ops.filter fun op => start = 0 ∨ op ≤ start).length := by
  rw [List.filter_reverse, List.length_reverse]
  refine congrArg List.length (List.filter_congr fun op hop => ?_)
  have hpos : op ≠ 0 := fun h => hzero (h ▸ hop)
  rw [decide_eq_decide, ← hfirst op hop]
  omega

end Requested

theorem ByOp.answer_eq_iff (h : ByOp s idx) (hes : HasHistory s a es) {node : HistoryNode}
    {k m : Nat}
    (hlast : es.getLast? = some (k, m)) (hnode : node.operation.number = m)
    (stop limit start : Nat) :
    answer s idx a stop limit start node = some ((requested s es stop start).take limit) ↔
      (a = 0 → stop = 0 → 0 ∈ es.map Prod.snd ∨
        limit ≤ ((es.map Prod.snd).filter fun op => start = 0 ∨ op ≤ start).length) := by
  unfold answer requested
  simp only [hnode]
  generalize hstart : (if start = 0 ∨ m < start then m else start) = first
  have hm : m ∈ es.map Prod.snd := List.mem_map.mpr ⟨(k, m), List.mem_of_getLast? hlast, rfl⟩
  have hle : first ≤ m := by
    rw [← hstart]
    split <;> omega
  have hfirst : ∀ op ∈ es.map Prod.snd, (op ≤ first ↔ start = 0 ∨ op ≤ start) := by
    intro op hop
    have := hes.le_last hlast hop
    rw [← hstart]
    split <;> omega
  obtain ⟨c, hwalk, hc⟩ := h.walk_lowerBound hes hm hle stop limit
  have hfound := hes.foundAll_length fun op => stop < op ∧ op ≤ first
  rw [hwalk, Option.bind_some]
  simp only [List.length_take, hfound]
  by_cases hother : stop ≠ 0 ∨ 0 ∉ es.map Prod.snd
  · rw [requested_of_ne hother hfirst]
    by_cases hend : stop = 0 ∧
        ((es.map Prod.snd).reverse.filter fun op => stop < op ∧ op ≤ first).length < limit
    · -- the cursor ran off the operations of the account
      obtain ⟨hstop, hlen⟩ := hend
      have hzero : 0 ∉ es.map Prod.snd := hother.resolve_left fun h => h hstop
      have hacc := (hc hlen hstop).2 hzero
      by_cases ha : a = 0
      · rw [if_pos ⟨hstop, by omega, hacc.mpr ha⟩]
        refine iff_of_false (fun heq => ?_) fun hserved => ?_
        · obtain ⟨o, -, ho⟩ := Option.map_eq_some_iff.mp heq
          simpa using congrArg List.length ho
        · have hge := (hserved ha hstop).resolve_left hzero
          subst hstop
          rw [requested_length hzero hfirst] at hlen
          omega
      · rw [if_neg fun h => ha (hacc.mp h.2.2)]
        exact iff_of_true rfl fun h => absurd h ha
    · rw [if_neg fun h => hend ⟨h.1, by omega⟩]
      refine iff_of_true rfl fun _ hstop => Or.inr ?_
      subst hstop
      rw [← requested_length (hother.resolve_left fun h => h rfl) hfirst]
      exact Nat.le_of_not_lt fun hlen => hend ⟨rfl, hlen⟩
  · obtain ⟨hstop, hzero⟩ := not_or.mp hother
    have hstop := not_not.mp hstop
    have hzero := not_not.mp hzero
    subst hstop
    obtain ⟨o, ho⟩ := Option.isSome_iff_exists.mp (hes.found hzero)
    have happend : ∀ ops : List Nat, foundAll s (ops ++ [0]) = foundAll s ops ++ [o] := by
      intro ops
      simp [foundAll, List.filterMap_append, ho]
    rw [requested_zero hes.operations hzero hfirst, happend]
    refine iff_of_true ?_ fun _ _ => Or.inl hzero
    by_cases hlen : ((es.map Prod.snd).reverse.filter fun op => 0 < op ∧ op ≤ first).length < limit
    · obtain ⟨hacc, hop⟩ := (hc hlen rfl).1 hzero
      rw [if_pos ⟨rfl, by omega, hacc⟩, hop, ho, List.take_of_length_le (by rw [hfound]; omega),
        List.take_of_length_le (by rw [List.length_append, hfound, List.length_singleton]; omega)]
      rfl
    · rw [if_neg fun h => hlen (by omega), List.take_append_of_le_length (by rw [hfound]; omega)]

theorem HasHistory.lastNode_eq_zero (hes : HasHistory s a es) :
    lastNode es = 0 ↔ es = [] ∨ ∃ op, es = [(0, op)] := by
  constructor
  · intro hlast
    rcases List.eq_nil_or_concat es with rfl | ⟨l, ⟨k, op⟩, rfl⟩
    · exact Or.inl rfl
    · obtain rfl : k = 0 := by simpa [lastNode] using hlast
      have hids := hes.ids
      cases l with
      | nil => exact Or.inr ⟨op, rfl⟩
      | cons e l =>
        rw [List.concat_eq_append, List.map_append, List.pairwise_append] at hids
        exact absurd (hids.2.2 e.1 (by simp) 0 (by simp)) (Nat.not_lt_zero _)
  · rintro (rfl | ⟨op, rfl⟩) <;> rfl

theorem getAccountHistoryOperations_eq {sch : Schema (Record ω) K}
    (hsch : sch.isExternalDb athoIndex = true) (which : Option ω → Nat)
    {accountOf : String → Option AccountId} {name : String} (hname : accountOf name = some a)
    (hes : HasHistory s a es) (operationId start stop : Nat) {limit : Nat} (hlimit : limit ≤ 100) :
    getAccountHistoryOperations sch which accountOf s name operationId start stop limit =
      if lastNode es = 0 then some [] else none := by
  obtain ⟨id, hstat⟩ := hes.statistics
  unfold getAccountHistoryOperations
  rw [if_neg (Nat.not_lt.mpr hlimit), hname]
  simp only [hstat, Option.bind_some, ObjectId.mk.injEq, true_and]
  split
  · rfl
  · rw [getNode, if_pos hsch]
    rfl

end Index

/-- What the queries of the account history return.  `get_account_history` returns the requested
operations exactly when the history is served.  `get_account_history_operations` cannot get at a
node: it returns the requested operations of the type exactly when there is none of them and the
most recent node has the default id, which it takes for no history. -/
theorem account_history_queries (sch : Schema (Record ω) K)
    (hsch : sch.isExternalDb athoIndex = true)
    (which : Option ω → Nat) (accountOf : String → Option AccountId) (s : Store (Record ω))
    (idx : List HistoryNode) (name : String) {a : Nat} {es : List (Nat × Nat)}
    (hname : accountOf name = some a) (hes : HasHistory s a es) (hidx : ByOp s idx)
    (operationId stop limit start : Nat) (hlimit : limit ≤ 100) :
    (getAccountHistory accountOf s idx name stop limit start =
        some ((requested s es stop start).take limit) ↔ Served s a es stop limit start) ∧
    (getAccountHistoryOperations sch which accountOf s name operationId start stop limit =
        some (((requested s es stop start).filter fun o => which o.2 = operationId).take limit) ↔
      es = [] ∨ ∃ op, es = [(0, op)] ∧ (limit = 0 ∨ ¬Requested stop start op ∨
        ∀ o, findOperation s ⟨ohoIndex, op⟩ = some o → which o.2 ≠ operationId)) := by
  constructor
  · rw [getAccountHistory_eq hes hname hlimit]
    unfold Served
    cases hlast : es.getLast? with
    | none =>
      obtain rfl := List.getLast?_eq_none_iff.mp hlast
      show (findNode s ⟨athoIndex, 0⟩).bind _ = _ ↔ _
      cases hnode : findNode s ⟨athoIndex, 0⟩ with
      | none => simp
      | some node =>
        rw [Option.bind_some, hidx.answer_nil hes hnode]
        simp [requested, foundAll]
    | some e =>
      obtain ⟨k, m⟩ := e
      have hne : es ≠ [] := by
        rintro rfl
        cases hlast
      obtain ⟨node, hnode, hop⟩ := hes.recent hlast
      rw [hnode, Option.bind_some, hidx.answer_eq_iff hes hlast hop]
      simp [hne]
  · rw [getAccountHistoryOperations_eq hsch which hname hes operationId start stop hlimit]
    constructor
    · intro heq
      split at heq
      · rename_i hlast
        refine (hes.lastNode_eq_zero.mp hlast).imp id ?_
        rintro ⟨op, rfl⟩
        refine ⟨op, rfl, ?_⟩
        by_contra hnone
        obtain ⟨hlim, hreq, o, ho, hwhich⟩ : limit ≠ 0 ∧ Requested stop start op ∧
            ∃ o, findOperation s ⟨ohoIndex, op⟩ = some o ∧ which o.2 = operationId := by
          push Not at hnone
          exact hnone
        have hpos : 0 < limit := Nat.pos_of_ne_zero hlim
        have hlen := congrArg (Option.map List.length) heq
        simp [requested, foundAll, hreq, ho, hwhich] at hlen
        omega
      · cases heq
    · rintro (rfl | ⟨op, rfl, hnone⟩)
      · simp [lastNode, requested, foundAll]
      · show some [] = _
        rcases hnone with rfl | hreq | hwhich
        · rw [List.take_zero]
        · simp [requested, foundAll, hreq]
        · by_cases hreq : Requested stop start op
          · cases ho : findOperation s ⟨ohoIndex, op⟩ with
            | none => simp [requested, foundAll, hreq, ho]
            | some o => simp [requested, foundAll, hreq, ho, hwhich o ho]
          · simp [requested, foundAll, hreq]

/-! ### Stores with given nodes -/

section Nodes

variable {nodes : List HistoryNode}

def HistoryNode.record (n : HistoryNode) : Record ω :=
  .transaction n.account n.operation n.sequence n.next

/-- The nodes of a store, in the order of their ids. -/
def HasNodes (s : Store (Record ω)) (nodes : List HistoryNode) : Prop :=
  ∀ k, s.objects.lookup ⟨athoIndex, k⟩ = nodes[k]?.map HistoryNode.record

theorem HasNodes.lookup_iff (h : HasNodes s nodes) {k : Nat} {n : HistoryNode} :
    s.objects.lookup ⟨athoIndex, k⟩ = some (.transaction n.account n.operation n.sequence n.next) ↔
      nodes[k]? = some n := by
  rw [h k, Option.map_eq_some_iff]
  constructor
  · rintro ⟨m, hm, heq⟩
    obtain ⟨account, operation, sequence, next⟩ := m
    cases heq
    exact hm
  · rintro hn
    exact ⟨n, hn, rfl⟩

theorem HasNodes.hasHistory (h : HasNodes s nodes) {id : ObjectId}
    (hoperations : (es.map Prod.snd).Pairwise (· < ·)) (hids : (es.map Prod.fst).Pairwise (· < ·))
    (hnodes : ∀ i (hi : i < es.length), nodes[es[i].1]? =
      some ⟨a, ⟨ohoIndex, es[i].2⟩, i + 1, ⟨athoIndex, lastNode (es.take i)⟩⟩)
    (honly : ∀ k (hk : k < nodes.length), nodes[k].account = a → k ∈ es.map Prod.fst)
    (hstatistics : statisticsOf s a = some (id, es.length, ⟨athoIndex, lastNode es⟩))
    (hstored : ∀ e ∈ es, ∃ o, s.objects.lookup ⟨ohoIndex, e.2⟩ = some (.operation o)) :
    HasHistory s a es := by
  refine ⟨hoperations, hids, fun k operation sequence next => ?_, ⟨id, hstatistics⟩, hstored⟩
  rw [h.lookup_iff (n := ⟨a, operation, sequence, next⟩)]
  constructor
  · intro hnode
    obtain ⟨hk, hget⟩ := List.getElem?_eq_some_iff.mp hnode
    obtain ⟨e, he, rfl⟩ := List.mem_map.mp (honly k hk (by rw [hget]))
    obtain ⟨i, hi, rfl⟩ := List.getElem_of_mem he
    have hsame := (hnodes i hi).symm.trans hnode
    cases hsame
    exact ⟨i, _, List.getElem?_eq_getElem hi, rfl, rfl, rfl⟩
  · rintro ⟨i, op, hget, rfl, rfl, rfl⟩
    obtain ⟨hi, heq⟩ := List.getElem?_eq_some_iff.mp hget
    have hnode := hnodes i hi
    rwa [heq] at hnode

theorem HasNodes.byOp (h : HasNodes s nodes) {idx : List HistoryNode} (hperm : idx.Perm nodes)
    (hsorted : idx.Pairwise fun e e' => e.account < e'.account ∨ e.account = e'.account ∧
      e.operation.number < e'.operation.number) : ByOp s idx := by
  refine ⟨hsorted, fun e => ?_⟩
  rw [hperm.mem_iff, List.mem_iff_getElem?]
  exact exists_congr fun k => h.lookup_iff.symm

end Nodes

/-! ### Two accounts with their operations -/

/-- Account 1 has the first operation of all, and account 0 the second one. -/
def twoOperations : Store (Record Nat) where
  objects := List.toFinmap
    [⟨⟨accountIndex, 0⟩, .account ⟨statisticsIndex, 0⟩⟩,
     ⟨⟨accountIndex, 1⟩, .account ⟨statisticsIndex, 1⟩⟩,
     ⟨⟨statisticsIndex, 0⟩, .statistics 1 ⟨athoIndex, 1⟩⟩,
     ⟨⟨statisticsIndex, 1⟩, .statistics 1 ⟨athoIndex, 0⟩⟩,
     ⟨⟨ohoIndex, 0⟩, .operation (some 5)⟩,
     ⟨⟨ohoIndex, 1⟩, .operation (some 6)⟩,
     ⟨⟨athoIndex, 0⟩, .transaction 1 ⟨ohoIndex, 0⟩ 1 ⟨athoIndex, 0⟩⟩,
     ⟨⟨athoIndex, 1⟩, .transaction 0 ⟨ohoIndex, 1⟩ 1 ⟨athoIndex, 0⟩⟩]
  nextId _ := 2

/-- Their nodes, as the index has them. -/
def twoNodes : List HistoryNode :=
  [⟨0, ⟨ohoIndex, 1⟩, 1, ⟨athoIndex, 0⟩⟩, ⟨1, ⟨ohoIndex, 0⟩, 1, ⟨athoIndex, 0⟩⟩]

theorem twoOperations_nodes : HasNodes twoOperations twoNodes.reverse := by
  intro k
  match k with
  | 0 => rfl
  | 1 => rfl
  | k + 2 =>
    refine (Finmap.dlookup_list_toFinmap _ _).trans (List.dlookup_eq_none.mpr ?_)
    simp [List.keys, athoIndex, accountIndex, statisticsIndex, ohoIndex]

theorem twoOperations_hasHistory : HasHistory twoOperations 0 [(1, 1)] ∧
    HasHistory twoOperations 1 [(0, 0)] := by
  constructor
  · refine twoOperations_nodes.hasHistory (by simp) (by simp) (by decide) (by decide) rfl ?_
    simp only [List.forall_mem_singleton]
    exact ⟨some 6, rfl⟩
  · refine twoOperations_nodes.hasHistory (by simp) (by simp) (by decide) (by decide) rfl ?_
    simp only [List.forall_mem_singleton]
    exact ⟨some 5, rfl⟩

theorem twoOperations_byOp : ByOp twoOperations twoNodes :=
  twoOperations_nodes.byOp (List.reverse_perm twoNodes).symm (by decide)

/-- Account 1 has two more operations after them. -/
def fourOperations : Store (Record Nat) where
  objects := List.toFinmap
    [⟨⟨accountIndex, 0⟩, .account ⟨statisticsIndex, 0⟩⟩,
     ⟨⟨accountIndex, 1⟩, .account ⟨statisticsIndex, 1⟩⟩,
     ⟨⟨statisticsIndex, 0⟩, .statistics 1 ⟨athoIndex, 1⟩⟩,
     ⟨⟨statisticsIndex, 1⟩, .statistics 3 ⟨athoIndex, 3⟩⟩,
     ⟨⟨ohoIndex, 0⟩, .operation (some 5)⟩,
     ⟨⟨ohoIndex, 1⟩, .operation (some 6)⟩,
     ⟨⟨ohoIndex, 2⟩, .operation (some 7)⟩,
     ⟨⟨ohoIndex, 3⟩, .operation (some 8)⟩,
     ⟨⟨athoIndex, 0⟩, .transaction 1 ⟨ohoIndex, 0⟩ 1 ⟨athoIndex, 0⟩⟩,
     ⟨⟨athoIndex, 1⟩, .transaction 0 ⟨ohoIndex, 1⟩ 1 ⟨athoIndex, 0⟩⟩,
     ⟨⟨athoIndex, 2⟩, .transaction 1 ⟨ohoIndex, 2⟩ 2 ⟨athoIndex, 0⟩⟩,
     ⟨⟨athoIndex, 3⟩, .transaction 1 ⟨ohoIndex, 3⟩ 3 ⟨athoIndex, 2⟩⟩]
  nextId _ := 4

def fourNodes : List HistoryNode :=
  [⟨0, ⟨ohoIndex, 1⟩, 1, ⟨athoIndex, 0⟩⟩, ⟨1, ⟨ohoIndex, 0⟩, 1, ⟨athoIndex, 0⟩⟩,
    ⟨1, ⟨ohoIndex, 2⟩, 2, ⟨athoIndex, 0⟩⟩, ⟨1, ⟨ohoIndex, 3⟩, 3, ⟨athoIndex, 2⟩⟩]

theorem fourOperations_nodes : HasNodes fourOperations (twoNodes.reverse ++ fourNodes.drop 2) := by
  intro k
  match k with
  | 0 => rfl
  | 1 => rfl
  | 2 => rfl
  | 3 => rfl
  | k + 4 =>
    refine (Finmap.dlookup_list_toFinmap _ _).trans (List.dlookup_eq_none.mpr ?_)
    simp [List.keys, athoIndex, accountIndex, statisticsIndex, ohoIndex]

theorem fourOperations_hasHistory : HasHistory fourOperations 1 [(0, 0), (2, 2), (3, 3)] := by
  refine fourOperations_nodes.hasHistory (by decide) (by decide) (by decide) (by decide) rfl ?_
  simp only [List.forall_mem_cons]
  exact ⟨⟨some 5, rfl⟩, ⟨some 7, rfl⟩, ⟨some 8, rfl⟩, nofun⟩

theorem fourOperations_byOp : ByOp fourOperations fourNodes :=
  fourOperations_nodes.byOp (by decide) (by decide)

/-- The indexes, with the account history in Berkeley DB files. -/
def historySchema : Schema (Record Nat) Nat where
  uniqueKeys _ := []
  isExternalDb i := i = ohoIndex ∨ i = athoIndex
  external_keys _ _ := rfl

/-- The newest two of three operations are served, and of another type the single operation of an
account is none. -/
theorem account_history_queries_newest :
    getAccountHistory (fun _ => some 1) fourOperations fourNodes "init0" 0 2 0 =
      some [(⟨ohoIndex, 3⟩, some 8), (⟨ohoIndex, 2⟩, some 7)] ∧
    getAccountHistoryOperations historySchema (fun op => op.getD 0) (fun _ => some 1) twoOperations
      "init0" 6 0 0 100 = some [] := by
  have hfour := account_history_queries historySchema (by decide) (fun op => op.getD 0)
    (fun _ => some 1) fourOperations fourNodes "init0" rfl fourOperations_hasHistory
    fourOperations_byOp 6 0 2 0 (by decide)
  have htwo := account_history_queries historySchema (by decide) (fun op => op.getD 0)
    (fun _ => some 1) twoOperations twoNodes "init0" rfl twoOperations_hasHistory.2
    twoOperations_byOp 6 0 100 0 (by decide)
  refine ⟨hfour.1.mpr ⟨by simp, by simp⟩, htwo.2.mpr (Or.inr ⟨0, rfl, Or.inr (Or.inr ?_)⟩)⟩
  intro o ho
  cases ho
  decide

/-- Account 0 gets the operation of account 1 besides its own, and nothing by type. -/
theorem account_zero_foreign_operation :
    HasHistory twoOperations 0 [(1, 1)] ∧ ByOp twoOperations twoNodes ∧
    requested twoOperations [(1, 1)] 0 0 = [(⟨ohoIndex, 1⟩, some 6)] ∧
    getAccountHistory (fun _ => some 0) twoOperations twoNodes "committee-account" 0 100 0 =
      some [(⟨ohoIndex, 1⟩, some 6), (⟨ohoIndex, 0⟩, some 5)] ∧
    getAccountHistoryOperations historySchema (fun op => op.getD 0) (fun _ => some 0) twoOperations
      "committee-account" 6 0 0 100 = none :=
  ⟨twoOperations_hasHistory.1, twoOperations_byOp, rfl, rfl, rfl⟩

end Nestchain.History
