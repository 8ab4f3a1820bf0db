import Nestchain.Db.Layers
import Mathlib.Algebra.GroupWithZero.Nat

/-! The ids of the operation history.  After every block the account history plugin goes through the
applied operations.  Its configuration decides which of them are stored; for the others an id is
used up without an object.  An exception on the way is caught by the caller, with what was done
before it kept. -/

namespace Nestchain.History

open Nestchain.Db

abbrev AccountId := Nat

def accountIndex : IndexId := ⟨1, 2⟩

/-- `operation_history_object` -/
def ohoIndex : IndexId := ⟨1, 11⟩

def statisticsIndex : IndexId := ⟨2, 6⟩

/-- `account_transaction_history_object` -/
def athoIndex : IndexId := ⟨2, 9⟩

/-- The objects that the plugin deals with, and the others of the database. -/
inductive Record (ω : Type) where
  | account (statistics : ObjectId)
  | operation (op : Option ω)
  | statistics (totalOps : Nat) (mostRecentOp : ObjectId)
  | transaction (account : AccountId) (operation : ObjectId) (sequence : Nat) (next : ObjectId)
  | other (tag : Nat)

/-- The configuration of the plugin. -/
structure Config where
  trackedAccounts : List AccountId
  partialOperations : Bool
  maxOpsPerAccount : Nat

/-- The indexes of the plugin: the history lives in Berkeley DB files.  The keys `by_owner` and
`by_maintenance_seq` of the statistics, which the plugin does not change, are left out. -/
structure HistorySchema {ω K : Type} (sch : Schema (Record ω) K) : Prop where
  oho : sch.isExternalDb ohoIndex = true
  atho : sch.isExternalDb athoIndex = true
  statistics : sch.uniqueKeys statisticsIndex = []

variable {ω K : Type} [DecidableEq K] (sch : Schema (Record ω) K)

/-- `account_id(db).statistics(db)` -/
def statisticsOf (s : Store (Record ω)) (a : AccountId) : Option (ObjectId × Nat × ObjectId) :=
  match s.objects.lookup ⟨accountIndex, a⟩ with
  | some (.account id) =>
    match s.objects.lookup id with
    | some (.statistics totalOps mostRecentOp) =>
      if id.index = statisticsIndex then some (id, totalOps, mostRecentOp) else none
    | _ => none
  | _ => none

/-- `use_next_id` of the operation history -/
def useNextId (db : ObjectDatabase (Record ω)) : ObjectDatabase (Record ω) :=
  { db with
    store :=
      { db.store with
        nextId := Function.update db.store.nextId ohoIndex (db.store.nextId ohoIndex + 1) } }

/-- The loop over the applied operations: the database, `is_first`, the object `oho` of the
operation, and whether something threw. -/
structure Update (ω : Type) where
  db : ObjectDatabase (Record ω)
  isFirst : Bool
  oho : Option ObjectId
  thrown : Bool

namespace Update

def andThen (u : Update ω) (f : Update ω → Update ω) : Update ω :=
  if u.thrown then u else f u

/-- `create_oho` -/
def createOho (op : Option ω) (u : Update ω) : Update ω :=
  match u.db.create sch ohoIndex fun _ => .operation op with
  | some db => { u with
      db := db, isFirst := false, oho := some ⟨ohoIndex, u.db.store.nextId ohoIndex⟩ }
  | none => { u with isFirst := false, thrown := true }

/-- `skip_oho_id` -/
def skipOhoId (u : Update ω) : Update ω :=
  if u.isFirst && !u.db.undoDb.disabled then
    match u.db.create sch ohoIndex fun _ => .operation none with
    | some db =>
      match db.remove ⟨ohoIndex, u.db.store.nextId ohoIndex⟩ with
      | (true, db) => { u with db := db, isFirst := false }
      | (false, db) => { u with db := db, thrown := true }
    | none => { u with thrown := true }
  else
    { u with db := useNextId u.db }

/-- `add_account_history` -/
def addAccountHistory (a : AccountId) (u : Update ω) : Update ω :=
  match statisticsOf u.db.store a, u.oho with
  | some (id, totalOps, mostRecentOp), some opId =>
    match u.db.create sch athoIndex fun _ => .transaction a opId (totalOps + 1) mostRecentOp with
    | some db =>
      match db.modify sch id fun _ =>
          .statistics (totalOps + 1) ⟨athoIndex, u.db.store.nextId athoIndex⟩ with
      | (true, db) => { u with db := db }
      | (false, db) => { u with db := db, thrown := true }
    | none => { u with thrown := true }
  | _, _ => { u with thrown := true }

/-- One applied operation, with the accounts that it has an impact on. -/
def addOperation (cfg : Config) (impacted : ω → List AccountId) (u : Update ω) (o : Option ω) :
    Update ω :=
  let u := { u with oho := none }
  match o with
  | none => u.skipOhoId sch
  | some op =>
    if cfg.maxOpsPerAccount = 0 ∧ cfg.partialOperations = true then u.skipOhoId sch
    else
      let u := if cfg.partialOperations then u else u.createOho sch (some op)
      let u := u.andThen fun u =>
        if cfg.trackedAccounts = [] then
          let u := if impacted op ≠ [] ∧ u.oho = none then u.createOho sch (some op) else u
          if 0 < cfg.maxOpsPerAccount then
            (impacted op).foldl (fun u a => u.andThen (addAccountHistory sch a)) u
          else u
        else if 0 < cfg.maxOpsPerAccount then
          cfg.trackedAccounts.foldl (fun u a => u.andThen fun u =>
            if a ∈ impacted op then
              let u := if u.oho = none then u.createOho sch (some op) else u
              u.andThen (addAccountHistory sch a)
            else u) u
        else u
      u.andThen fun u => if cfg.partialOperations ∧ u.oho = none then u.skipOhoId sch else u

/-- The applied operations one after the other, and the ids that each of them used up. -/
def addOperations (cfg : Config) (impacted : ω → List AccountId) :
    Update ω → List (Option ω) → Update ω × List (List Nat)
  | u, [] => (u, [])
  | u, o :: os =>
    let v := u.andThen fun u => u.addOperation sch cfg impacted o
    let n := u.db.store.nextId ohoIndex
    let rest := addOperations cfg impacted v os
    (rest.1, List.range' n (v.db.store.nextId ohoIndex - n) :: rest.2)

end Update

def indexOf : Op (Record ω) → IndexId
  | .create i _ => i
  | .modify a _ => a.index
  | .remove a => a.index
  | .removeById a => a.index

/-- A block: what its evaluation changes in the database outside of the operation history, and the
operations that it applies. -/
structure Block (ω : Type) where
  changes : List (Op (Record ω))
  operations : List (Option ω)
  foreign : ∀ op ∈ changes, indexOf op ≠ ohoIndex

inductive Event (ω : Type) where
  | applyBlock (b : Block ω)
  | popBlock

/-- The database, and for each block that is applied, the last one first, the ids that its
operations used up. -/
structure Chain (ω : Type) where
  db : ObjectDatabase (Record ω)
  slots : List (List (List Nat))

/-- The chain after a block was applied, with `update_account_histories` at its end, or popped. -/
def Chain.handle (ord : IterationOrder (Record ω)) (cfg : Config) (impacted : ω → List AccountId)
    (c : Chain ω) : Event ω → Option (Chain ω)
  | .applyBlock b => do
    let db ← (c.db.startUndoSession false).run sch b.changes
    let (u, slots) := Update.addOperations sch cfg impacted ⟨db, true, none, false⟩ b.operations
    let db ← u.db.commit
    return ⟨db, slots :: c.slots⟩
  | .popBlock => do
    let (db, _) ← c.db.popCommit sch ord
    return ⟨db, c.slots.tail⟩

/-! ### What uses up an id -/

namespace Update

/-- `k` ids were used up since the session with the last undo state began at the id `n`. -/
structure Counting (n : Nat) (rest : List (UndoState (Record ω))) (sessions : Nat) (u : Update ω)
    (k : Nat) : Prop where
  enabled : u.db.undoDb.disabled = false
  stack : ∃ top, u.db.undoDb.stack = top :: rest ∧
    top.oldIndexNextIds.lookup ohoIndex = if k = 0 then none else some ⟨ohoIndex, n⟩
  next : u.db.store.nextId ohoIndex = n + k
  first : u.isFirst = decide (k = 0)
  sessions : u.db.undoDb.activeSessions = sessions

/-- The object of the operation has an id of its own. -/
def ohoCount (u : Update ω) : Nat := if u.oho.isSome then 1 else 0

/-- From `u` to `v` nothing threw, no statistics were lost, and an id was used up if the object of
the operation was created. -/
structure Moves (u v : Update ω) : Prop where
  thrown : u.thrown = false → v.thrown = false
  statistics : ∀ a, (statisticsOf u.db.store a).isSome → (statisticsOf v.db.store a).isSome
  oho : u.oho.isSome → v.oho.isSome
  counting : ∀ n rest m k, Counting n rest m u (k + u.ohoCount) →
    Counting n rest m v (k + v.ohoCount)

theorem Moves.refl (u : Update ω) : Moves u u :=
  ⟨id, fun _ => id, id, fun _ _ _ _ => id⟩

theorem Moves.trans {u v w : Update ω} (h : Moves u v) (h' : Moves v w) : Moves u w where
  thrown := h'.thrown ∘ h.thrown
  statistics a ha := h'.statistics a (h.statistics a ha)
  oho := h'.oho ∘ h.oho
  counting n rest m k hk := h'.counting n rest m k (h.counting n rest m k hk)

theorem andThen_of_not_thrown {u : Update ω} (h : u.thrown = false) (f : Update ω → Update ω) :
    u.andThen f = f u := by
  simp only [andThen, h, Bool.false_eq_true, if_false]

end Update

theorem create_external (db : ObjectDatabase (Record ω)) {i : IndexId}
    (hx : sch.isExternalDb i = true)
    (f : ObjectId → Record ω) :
    db.create sch i f = some
      { store :=
          { objects := db.store.objects.insert ⟨i, db.store.nextId i⟩ (f ⟨i, db.store.nextId i⟩)
            nextId := Function.update db.store.nextId i (db.store.nextId i + 1) }
        undoDb := db.undoDb.record (·.onCreate ⟨i, db.store.nextId i⟩) } := by
  simp only [ObjectDatabase.create, Store.create, Store.insert, hx, Bool.true_eq_false, false_and,
    if_false, Option.map_some]

theorem statisticsOf_congr {s s' : Store (Record ω)} (h : ∀ b : ObjectId, b.index = accountIndex ∨
    b.index = statisticsIndex → s'.objects.lookup b = s.objects.lookup b) (a : AccountId) :
    statisticsOf s' a = statisticsOf s a := by
  unfold statisticsOf
  rw [h ⟨accountIndex, a⟩ (Or.inl rfl)]
  split
  · rename_i id hid
    by_cases hindex : id.index = statisticsIndex
    · rw [h id (Or.inr hindex)]
    · simp only [if_neg hindex]
      split <;> split <;> rfl
  · rfl

section

variable {sch}
variable (hsch : HistorySchema sch)

theorem create_lookup {db db' : ObjectDatabase (Record ω)} {i : IndexId} {f : ObjectId → Record ω}
    (h : db.create sch i f = some db') {b : ObjectId} (hb : b.index ≠ i) :
    db'.store.objects.lookup b = db.store.objects.lookup b := by
  obtain ⟨s, hs, rfl⟩ := Option.map_eq_some_iff.mp h
  show s.objects.lookup b = _
  rw [Store.create_eq hs]
  exact Finmap.lookup_insert_of_ne _ fun heq => hb (congrArg ObjectId.index heq)

theorem create_statistics {db db' : ObjectDatabase (Record ω)} {i : IndexId}
    {f : ObjectId → Record ω}
    (h : db.create sch i f = some db') (haccount : i ≠ accountIndex)
    (hstatistics : i ≠ statisticsIndex)
    (a : AccountId) : statisticsOf db'.store a = statisticsOf db.store a := by
  refine statisticsOf_congr (fun b hb => create_lookup h ?_) a
  rcases hb with hb | hb
  · rw [hb]
    exact haccount.symm
  · rw [hb]
    exact hstatistics.symm

omit [DecidableEq K] in
theorem remove_recorded {db : ObjectDatabase (Record ω)} {b : ObjectId} {r : Record ω}
    {top : UndoState (Record ω)} {rest : List (UndoState (Record ω))}
    (hb : db.store.objects.lookup b = some r) (hen : db.undoDb.disabled = false)
    (hst : db.undoDb.stack = top :: rest) : ∃ db', db.remove b = (true, db') ∧
      db'.store = { db.store with objects := db.store.objects.erase b } ∧
      db'.undoDb = { db.undoDb with stack := top.onRemove b r :: rest } := by
  refine ⟨⟨{ db.store with objects := db.store.objects.erase b },
    { db.undoDb with stack := top.onRemove b r :: rest }⟩, ?_, rfl, rfl⟩
  simp only [ObjectDatabase.remove, hb, Store.remove, if_pos (mem_of_lookup hb),
    UndoDatabase.record_top hen hst]

theorem statisticsOf_eq_some {s : Store (Record ω)} {a : AccountId} {id mostRecentOp : ObjectId}
    {totalOps : Nat} : statisticsOf s a = some (id, totalOps, mostRecentOp) ↔
      s.objects.lookup ⟨accountIndex, a⟩ = some (.account id) ∧
      s.objects.lookup id = some (.statistics totalOps mostRecentOp) ∧
        id.index = statisticsIndex := by
  unfold statisticsOf
  constructor
  · intro h
    split at h
    · rename_i id' hid
      split at h
      · rename_i t m hstats
        split at h
        · rename_i hindex
          cases h
          exact ⟨hid, hstats, hindex⟩
        · cases h
      · cases h
    · cases h
  · rintro ⟨haccount, hstats, hindex⟩
    simp only [haccount, hstats, hindex, if_true]

theorem onRemove_nextIds (top : UndoState (Record ω)) (b : ObjectId) (r : Record ω) :
    (top.onRemove b r).oldIndexNextIds = top.oldIndexNextIds :=
  UndoState.apply_nextIds top (.removed b r)

theorem onModify_nextIds (top : UndoState (Record ω)) (b : ObjectId) (r : Record ω) :
    (top.onModify b r).oldIndexNextIds = top.oldIndexNextIds :=
  UndoState.apply_nextIds top (.modified b r)

theorem onCreate_nextIds (top : UndoState (Record ω)) {b : ObjectId} {i : IndexId}
    (hb : b.index ≠ i) :
    (top.onCreate b).oldIndexNextIds.lookup i = top.oldIndexNextIds.lookup i := by
  unfold UndoState.onCreate
  split
  · rfl
  · exact Finmap.lookup_insert_of_ne _ hb.symm

theorem Update.Counting.record {n m k : Nat} {rest : List (UndoState (Record ω))} {u : Update ω}
    (h : Update.Counting n rest m u k) {s : Store (Record ω)}
    {f : UndoState (Record ω) → UndoState (Record ω)}
    (hnext : s.nextId ohoIndex = u.db.store.nextId ohoIndex)
    (hf : ∀ top, (f top).oldIndexNextIds.lookup ohoIndex = top.oldIndexNextIds.lookup ohoIndex) :
    Update.Counting n rest m { u with db := ⟨s, u.db.undoDb.record f⟩ } k := by
  obtain ⟨top, hst, htop⟩ := h.stack
  rw [UndoDatabase.record_top h.enabled hst]
  exact ⟨h.enabled, ⟨_, rfl, (hf top).trans htop⟩, hnext.trans h.next, h.first, h.sessions⟩

include hsch

namespace Update

theorem Counting.create {n m k : Nat} {rest : List (UndoState (Record ω))} {u : Update ω}
    {db : ObjectDatabase (Record ω)} {r : Record ω} (h : Counting n rest m u k)
    (hdb : u.db.create sch ohoIndex (fun _ => r) = some db) (oho : Option ObjectId)
    (thrown : Bool) :
    Counting n rest m ⟨db, false, oho, thrown⟩ (k + 1) := by
  obtain ⟨top, hst, htop⟩ := h.stack
  have hcreate := create_external sch u.db hsch.oho fun _ => r
  rw [UndoDatabase.record_top h.enabled hst, hdb] at hcreate
  obtain rfl := Option.some.inj hcreate
  refine ⟨h.enabled, ⟨_, rfl, ?_⟩, ?_, ?_, h.sessions⟩
  · rw [if_neg (Nat.succ_ne_zero k)]
    show Finmap.lookup ohoIndex (if ohoIndex ∈ top.oldIndexNextIds then top.oldIndexNextIds
      else top.oldIndexNextIds.insert ohoIndex ⟨ohoIndex, u.db.store.nextId ohoIndex⟩) = _
    by_cases hk : k = 0
    · rw [if_pos hk] at htop
      rw [if_neg (Finmap.lookup_eq_none.mp htop), Finmap.lookup_insert, h.next, hk, Nat.add_zero]
    · rw [if_neg hk] at htop
      rw [if_pos (mem_of_lookup htop), htop]
  · show Function.update u.db.store.nextId ohoIndex (u.db.store.nextId ohoIndex + 1) ohoIndex = _
    rw [Function.update_self, h.next]
    omega
  · simp

theorem createOho_moves {u : Update ω} (h : u.oho = none) (op : Option ω) :
    Moves u (u.createOho sch op) ∧ (u.createOho sch op).oho.isSome := by
  obtain ⟨db, hdb⟩ : ∃ db, u.db.create sch ohoIndex (fun _ => .operation op) = some db :=
    ⟨_, create_external sch u.db hsch.oho _⟩
  have hoho : u.createOho sch op =
      ⟨db, false, some ⟨ohoIndex, u.db.store.nextId ohoIndex⟩, u.thrown⟩ := by
    simp only [createOho, hdb]
  have hcount : u.ohoCount = 0 := by
    simp only [ohoCount, h, Option.isSome_none, Bool.false_eq_true, if_false]
  rw [hoho]
  refine ⟨⟨id, fun a ha => ?_, fun _ => rfl, fun n rest m k hk => ?_⟩, rfl⟩
  · rw [create_statistics hdb (by decide) (by decide)]
    exact ha
  · rw [hcount] at hk
    exact hk.create hsch hdb _ _

theorem skipOhoId_counting {u : Update ω} {n m k : Nat} {rest : List (UndoState (Record ω))}
    (h : Counting n rest m u k) : Counting n rest m (u.skipOhoId sch) (k + 1) ∧
      ((u.skipOhoId sch).thrown = u.thrown) ∧
      ∀ a, statisticsOf (u.skipOhoId sch).db.store a = statisticsOf u.db.store a := by
  by_cases hk : k = 0
  · have hfirst : (u.isFirst && !u.db.undoDb.disabled) = true := by
      rw [h.first, h.enabled, hk]
      rfl
    obtain ⟨db, hdb⟩ : ∃ db, u.db.create sch ohoIndex (fun _ => .operation none) = some db :=
      ⟨_, create_external sch u.db hsch.oho _⟩
    have hcounting := h.create hsch hdb u.oho u.thrown
    obtain ⟨top, hst, htop⟩ := hcounting.stack
    have hthere : db.store.objects.lookup ⟨ohoIndex, u.db.store.nextId ohoIndex⟩ =
        some (.operation none) := by
      rw [create_external sch u.db hsch.oho] at hdb
      obtain rfl := Option.some.inj hdb
      exact Finmap.lookup_insert _
    obtain ⟨db', hremove, hstore, hundo⟩ := remove_recorded hthere hcounting.enabled hst
    have hskip : u.skipOhoId sch = ⟨db', false, u.oho, u.thrown⟩ := by
      simp only [skipOhoId, hfirst, if_true, hdb, hremove]
    rw [hskip]
    refine ⟨⟨?_, ⟨_, congrArg UndoDatabase.stack hundo, ?_⟩, ?_, hcounting.first, ?_⟩, rfl, fun a =>
      ?_⟩
    · rw [hundo]
      exact hcounting.enabled
    · rw [onRemove_nextIds]
      exact htop
    · rw [hstore]
      exact hcounting.next
    · rw [hundo]
      exact hcounting.sessions
    · rw [← create_statistics hdb (by decide) (by decide) a, hstore]
      refine statisticsOf_congr (fun b hb => Finmap.lookup_erase_ne fun heq => ?_) a
      rw [heq] at hb
      rcases hb with hb | hb <;> cases hb
  · have hlater : (u.isFirst && !u.db.undoDb.disabled) = false := by
      rw [h.first, decide_eq_false hk]
      rfl
    have hskip : u.skipOhoId sch = { u with db := useNextId u.db } := by
      simp only [skipOhoId, hlater, Bool.false_eq_true, if_false]
    rw [hskip]
    obtain ⟨top, hst, htop⟩ := h.stack
    refine ⟨⟨h.enabled, ⟨top, hst, ?_⟩, ?_, ?_, h.sessions⟩, rfl, fun a => rfl⟩
    · rw [if_neg hk] at htop
      rw [if_neg (Nat.succ_ne_zero k), htop]
    · show Function.update u.db.store.nextId ohoIndex (u.db.store.nextId ohoIndex + 1) ohoIndex = _
      rw [Function.update_self, h.next]
      omega
    · show u.isFirst = _
      rw [h.first, decide_eq_false hk, decide_eq_false (Nat.succ_ne_zero k)]

theorem addAccountHistory_moves {u : Update ω} {a : AccountId}
    (ha : (statisticsOf u.db.store a).isSome) (hoho : u.oho.isSome) :
    Moves u (u.addAccountHistory sch a) := by
  obtain ⟨⟨id, totalOps, mostRecentOp⟩, hstats⟩ := Option.isSome_iff_exists.mp ha
  obtain ⟨opId, hopId⟩ := Option.isSome_iff_exists.mp hoho
  obtain ⟨haccount, hrecord, hindex⟩ := statisticsOf_eq_some.mp hstats
  have hcreate := create_external sch u.db hsch.atho
    fun _ => Record.transaction a opId (totalOps + 1) mostRecentOp
  obtain ⟨db, hdb⟩ : ∃ db, u.db.create sch athoIndex
      (fun _ => .transaction a opId (totalOps + 1) mostRecentOp) = some db := ⟨_, hcreate⟩
  have hthere : db.store.objects.lookup id = some (.statistics totalOps mostRecentOp) := by
    rw [create_lookup hdb (by rw [hindex]; decide)]
    exact hrecord
  have hfree : ∀ r, ¬db.store.Conflict sch id r := by
    intro r hconflict
    obtain ⟨b, w, hb, hne, hsame, key, hkey, heq⟩ := (Store.conflict_iff sch).mp hconflict
    rw [hindex, hsch.statistics] at hkey
    cases hkey
  have hadd : u.addAccountHistory sch a = { u with
      db :=
        { store :=
            { db.store with
              objects := db.store.objects.insert id
                (.statistics (totalOps + 1) ⟨athoIndex, u.db.store.nextId athoIndex⟩) }
          undoDb := db.undoDb.record (·.onModify id (.statistics totalOps mostRecentOp)) } } := by
    simp only [addAccountHistory, hstats, hopId, hdb, ObjectDatabase.modify, hthere,
      Store.modify, if_neg (hfree _)]
  rw [hadd]
  refine ⟨fun h => h, fun b hb => ?_, fun h => h, fun n rest m k hk => ?_⟩
  · rw [← create_statistics hdb (by decide) (by decide) b] at hb
    obtain ⟨⟨id', t, r⟩, hb⟩ := Option.isSome_iff_exists.mp hb
    obtain ⟨haccount', hrecord', hindex'⟩ := statisticsOf_eq_some.mp hb
    have hne : (⟨accountIndex, b⟩ : ObjectId) ≠ id := by
      rintro rfl
      cases hindex
    by_cases hid : id' = id
    · refine Option.isSome_iff_exists.mpr ⟨(id', totalOps + 1,
        ⟨athoIndex, u.db.store.nextId athoIndex⟩),
        statisticsOf_eq_some.mpr ⟨?_, ?_, hindex'⟩⟩
      · exact (Finmap.lookup_insert_of_ne _ hne).trans haccount'
      · rw [hid]
        exact Finmap.lookup_insert _
    · refine Option.isSome_iff_exists.mpr ⟨(id', t, r), statisticsOf_eq_some.mpr ⟨?_, ?_, hindex'⟩⟩
      · exact (Finmap.lookup_insert_of_ne _ hne).trans haccount'
      · exact (Finmap.lookup_insert_of_ne _ hid).trans hrecord'
  · have hcreated : Counting n rest m { u with db := db } (k + u.ohoCount) := by
      obtain rfl := Option.some.inj (hdb.symm.trans hcreate)
      refine hk.record ?_ fun top => onCreate_nextIds top ?_
      · have hne : ohoIndex ≠ athoIndex := by decide
        exact Function.update_of_ne hne (u.db.store.nextId athoIndex + 1) u.db.store.nextId
      · show athoIndex ≠ ohoIndex
        decide
    refine hcreated.record rfl fun top => ?_
    rw [onModify_nextIds]

omit hsch [DecidableEq K] in
theorem foldl_moves {f : Update ω → AccountId → Update ω} {P : Update ω → Prop}
    (hP : ∀ u v, Moves u v → P u → P v) (l : List AccountId) :
    ∀ u : Update ω, P u → (∀ a ∈ l, ∀ v, P v → Moves v (f v a)) → Moves u (l.foldl f u) := by
  induction l with
  | nil =>
    intro u _ _
    exact .refl u
  | cons a l ih =>
    intro u hu hf
    have hmoves := hf a List.mem_cons_self u hu
    rw [List.foldl_cons]
    exact hmoves.trans (ih _ (hP u _ hmoves hu) fun b hb => hf b (List.mem_cons_of_mem a hb))

end Update

/-- The accounts in whose history the plugin enters an operation. -/
def Config.recorded (cfg : Config) (impacted : ω → List AccountId) (op : ω) : List AccountId :=
  if cfg.maxOpsPerAccount = 0 then []
  else if cfg.trackedAccounts = [] then impacted op
  else cfg.trackedAccounts.filter fun a => a ∈ impacted op

namespace Update

omit hsch [DecidableEq K] in
theorem Moves.keeps {l : List AccountId} {u v : Update ω} (h : Moves u v)
    (hu : u.thrown = false ∧ ∀ a ∈ l, (statisticsOf u.db.store a).isSome) :
    v.thrown = false ∧ ∀ a ∈ l, (statisticsOf v.db.store a).isSome :=
  ⟨h.thrown hu.1, fun a ha => h.statistics a (hu.2 a ha)⟩

theorem addAll_moves (l : List AccountId) {u : Update ω} (hthrown : u.thrown = false)
    (hoho : l ≠ [] → u.oho.isSome) (hknown : ∀ a ∈ l, (statisticsOf u.db.store a).isSome) :
    Moves u (l.foldl (fun u a => u.andThen (addAccountHistory sch a)) u) := by
  refine foldl_moves (P := fun v => (v.thrown = false ∧ ∀ a ∈ l,
    (statisticsOf v.db.store a).isSome) ∧
    (l ≠ [] → v.oho.isSome)) (fun v w h hv => ⟨h.keeps hv.1, fun hl => h.oho (hv.2 hl)⟩) l u
    ⟨⟨hthrown, hknown⟩, hoho⟩ fun a ha v hv => ?_
  rw [andThen_of_not_thrown hv.1.1]
  exact addAccountHistory_moves hsch (hv.1.2 a ha) (hv.2 (List.ne_nil_of_mem ha))

theorem addTracked_moves (l impacted : List AccountId) (op : ω) {u : Update ω}
    (hthrown : u.thrown = false)
    (hknown : ∀ a ∈ l, a ∈ impacted → (statisticsOf u.db.store a).isSome) :
    Moves u (l.foldl (fun u a => u.andThen fun u =>
      if a ∈ impacted then
        let u := if u.oho = none then u.createOho sch (some op) else u
        u.andThen (addAccountHistory sch a)
      else u) u) := by
  refine foldl_moves (P := fun v => v.thrown = false ∧
    ∀ a ∈ l.filter fun a => a ∈ impacted, (statisticsOf v.db.store a).isSome)
    (fun v w h hv => h.keeps hv) l u ⟨hthrown, fun a ha => ?_⟩ fun a ha v hv => ?_
  · obtain ⟨hal, himpacted⟩ := List.mem_filter.mp ha
    exact hknown a hal (of_decide_eq_true himpacted)
  · rw [andThen_of_not_thrown hv.1]
    split
    · rename_i himpacted
      have hstats := hv.2 a (List.mem_filter.mpr ⟨ha, decide_eq_true himpacted⟩)
      have hcreated : Moves v (if v.oho = none then v.createOho sch (some op) else v) ∧
          (if v.oho = none then v.createOho sch (some op) else v).oho.isSome := by
        split
        · rename_i hnone
          exact createOho_moves hsch hnone (some op)
        · rename_i hsome
          exact ⟨.refl v, Option.isSome_iff_ne_none.mpr hsome⟩
      have hthrown := hcreated.1.thrown hv.1
      show Moves v (andThen (if v.oho = none then v.createOho sch (some op) else v) _)
      rw [andThen_of_not_thrown hthrown]
      exact hcreated.1.trans (addAccountHistory_moves hsch
        (hcreated.1.statistics a hstats) hcreated.2)
    · exact .refl v

theorem addEntries_moves {cfg : Config} {impacted : ω → List AccountId} {op : ω} {u : Update ω}
    (hthrown : u.thrown = false)
    (hknown : ∀ a ∈ cfg.recorded impacted op, (statisticsOf u.db.store a).isSome) :
    Moves u (if cfg.trackedAccounts = [] then
        let u := if impacted op ≠ [] ∧ u.oho = none then u.createOho sch (some op) else u
        if 0 < cfg.maxOpsPerAccount then
          (impacted op).foldl (fun u a => u.andThen (addAccountHistory sch a)) u
        else u
      else if 0 < cfg.maxOpsPerAccount then
        cfg.trackedAccounts.foldl (fun u a => u.andThen fun u =>
          if a ∈ impacted op then
            let u := if u.oho = none then u.createOho sch (some op) else u
            u.andThen (addAccountHistory sch a)
          else u) u
      else u) := by
  unfold Config.recorded at hknown
  split
  · rename_i htracked
    simp only [htracked, if_true] at hknown
    have hcreated : Moves u (if impacted op ≠ [] ∧ u.oho = none then u.createOho sch
      (some op) else u) ∧
        (impacted op ≠ [] →
          (if impacted op ≠ [] ∧ u.oho = none then u.createOho sch
            (some op) else u).oho.isSome) := by
      split
      · rename_i hnone
        have hcreated := createOho_moves hsch hnone.2 (some op)
        exact ⟨hcreated.1, fun _ => hcreated.2⟩
      · rename_i hnot
        exact ⟨.refl u, fun hne => Option.isSome_iff_ne_none.mpr fun hnone => hnot ⟨hne, hnone⟩⟩
    show Moves u (if 0 < cfg.maxOpsPerAccount then _ else _)
    split
    · rename_i hpos
      rw [if_neg (by omega)] at hknown
      exact hcreated.1.trans (addAll_moves hsch _ (hcreated.1.thrown hthrown) hcreated.2
        fun a ha => hcreated.1.statistics a (hknown a ha))
    · exact hcreated.1
  · rename_i htracked
    split
    · rename_i hpos
      rw [if_neg (by omega), if_neg htracked] at hknown
      refine addTracked_moves hsch _ _ op hthrown fun a ha himpacted => ?_
      exact hknown a (List.mem_filter.mpr ⟨ha, decide_eq_true himpacted⟩)
    · exact .refl u

theorem addOperation_counting {cfg : Config} {impacted : ω → List AccountId} {u : Update ω}
    {o : Option ω} {n m k : Nat} {rest : List (UndoState (Record ω))} (h : Counting n rest m u k)
    (hthrown : u.thrown = false)
    (hknown : ∀ op ∈ o, ∀ a ∈ cfg.recorded impacted op, (statisticsOf u.db.store a).isSome) :
    Counting n rest m (u.addOperation sch cfg impacted o) (k + 1) ∧
      (u.addOperation sch cfg impacted o).thrown = false ∧
      ∀ a, (statisticsOf u.db.store a).isSome →
        (statisticsOf (u.addOperation sch cfg impacted o).db.store a).isSome := by
  have hstart : Counting n rest m { u with oho := none } k :=
    ⟨h.enabled, h.stack, h.next, h.first, h.sessions⟩
  have hskip := skipOhoId_counting hsch hstart
  have hskipped : Counting n rest m (skipOhoId sch { u with oho := none }) (k + 1) ∧
      (skipOhoId sch { u with oho := none }).thrown = false ∧
      ∀ a, (statisticsOf u.db.store a).isSome →
        (statisticsOf (skipOhoId sch { u with oho := none }).db.store a).isSome := by
    refine ⟨hskip.1, hskip.2.1.trans hthrown, fun a ha => ?_⟩
    rw [hskip.2.2 a]
    exact ha
  cases o with
  | none => exact hskipped
  | some op =>
    unfold addOperation
    simp only
    split
    · exact hskipped
    · rename_i hentered
      -- the object of the operation, which is created now unless operations are partial
      generalize hu0 : ({ u with oho := none } : Update ω) = u0 at hstart
      have hnone : u0.oho = none := by rw [← hu0]
      have hthrown0 : u0.thrown = false := by rw [← hu0]; exact hthrown
      have hknown0 : ∀ a ∈ cfg.recorded impacted op, (statisticsOf u0.db.store a).isSome := by
        rw [← hu0]
        exact hknown op rfl
      have hfirst : Moves u0 (if cfg.partialOperations then u0 else u0.createOho sch (some op)) ∧
          (cfg.partialOperations = false →
            (if cfg.partialOperations then u0 else u0.createOho sch (some op)).oho.isSome) := by
        cases hpart : cfg.partialOperations with
        | true => exact ⟨.refl u0, fun hfalse => by cases hfalse⟩
        | false =>
          have hcreated := createOho_moves hsch hnone (some op)
          exact ⟨hcreated.1, fun _ => hcreated.2⟩
      generalize (if cfg.partialOperations then u0 else u0.createOho sch (some op)) = u1 at hfirst
      have hthrown1 := hfirst.1.thrown hthrown0
      have hentries := addEntries_moves hsch hthrown1 fun a ha =>
        hfirst.1.statistics a (hknown0 a ha)
      rw [andThen_of_not_thrown hthrown1]
      generalize hu2 : (if cfg.trackedAccounts = [] then _ else _) = u2 at hentries
      have hthrown2 := hentries.thrown hthrown1
      have hmoves := hfirst.1.trans hentries
      have hcount0 : u0.ohoCount = 0 := by
        simp only [ohoCount, hnone, Option.isSome_none, Bool.false_eq_true, if_false]
      have hcounting : Counting n rest m u2 (k + u2.ohoCount) :=
        hmoves.counting n rest m k (by rw [hcount0]; exact hstart)
      have hstats : ∀ a, (statisticsOf u.db.store a).isSome →
        (statisticsOf u2.db.store a).isSome := by
        intro a ha
        refine hmoves.statistics a ?_
        rw [← hu0]
        exact ha
      rw [andThen_of_not_thrown hthrown2]
      split
      · rename_i hlast
        have hcount2 : u2.ohoCount = 0 := by
          simp only [ohoCount, hlast.2, Option.isSome_none, Bool.false_eq_true, if_false]
        rw [hcount2] at hcounting
        have hskip := skipOhoId_counting hsch hcounting
        refine ⟨hskip.1, hskip.2.1.trans hthrown2, fun a ha => ?_⟩
        rw [hskip.2.2 a]
        exact hstats a ha
      · rename_i hlast
        have hsome : u2.oho.isSome := by
          cases hpart : cfg.partialOperations with
          | false => exact hentries.oho (hfirst.2 hpart)
          | true => exact Option.isSome_iff_ne_none.mpr fun hnone => hlast ⟨hpart, hnone⟩
        have hcount2 : u2.ohoCount = 1 := by
          simp only [ohoCount, hsome, if_true]
        rw [hcount2] at hcounting
        exact ⟨hcounting, hthrown2, hstats⟩

end Update

theorem Update.addOperations_counting {cfg : Config} {impacted : ω → List AccountId}
    {rest : List (UndoState (Record ω))} {n m : Nat} (os : List (Option ω)) :
      ∀ (u : Update ω) (k : Nat),
    Counting n rest m u k → u.thrown = false →
    (∀ op, some op ∈ os → ∀ a ∈ cfg.recorded impacted op, (statisticsOf u.db.store a).isSome) →
    Counting n rest m (addOperations sch cfg impacted u os).1 (k + os.length) ∧
      (addOperations sch cfg impacted u os).2 = (List.range' (n + k) os.length).map fun i =>
        [i] := by
  induction os with
  | nil =>
    intro u k h _ _
    exact ⟨h, rfl⟩
  | cons o os ih =>
    intro u k h hthrown hknown
    obtain ⟨hcounting, hthrown', hstats⟩ := addOperation_counting hsch h hthrown (o := o)
      fun op hop a ha => hknown op (by rw [← hop]; exact List.mem_cons_self) a ha
    obtain ⟨hlast, hslots⟩ := ih _ (k + 1) hcounting hthrown' fun op hop a ha =>
      hstats a (hknown op (List.mem_cons_of_mem o hop) a ha)
    simp only [addOperations, andThen_of_not_thrown hthrown]
    refine ⟨?_, ?_⟩
    · rw [List.length_cons, show k + (os.length + 1) = k + 1 + os.length by omega]
      exact hlast
    · have hone : n + (k + 1) - (n + k) = 1 := by omega
      rw [hcounting.next, h.next, hone, hslots, List.length_cons, List.range'_succ]
      rfl

omit hsch in
theorem Update.Counting.exec {n m k : Nat} {rest : List (UndoState (Record ω))}
    {db db' : ObjectDatabase (Record ω)} {first : Bool} {oho : Option ObjectId} {thrown : Bool}
    (h : Counting n rest m ⟨db, first, oho, thrown⟩ k) {op : Op (Record ω)}
    (hop : indexOf op ≠ ohoIndex)
    (hexec : db.exec sch op = some db') : Counting n rest m ⟨db', first, oho, thrown⟩ k := by
  cases ObjectDatabase.exec_executed hexec with
  | created hcreate =>
    refine h.record ?_ fun top => onCreate_nextIds top hop
    rw [Store.create_eq hcreate]
    exact Function.update_of_ne (Ne.symm hop) _ _
  | modified hv hc => exact h.record rfl fun top => by rw [UndoState.apply_nextIds]; rfl
  | removed hop hv => exact h.record rfl fun top => by rw [UndoState.apply_nextIds]; rfl
  | erased hv hx => exact ⟨h.enabled, h.stack, h.next, h.first, h.sessions⟩

omit hsch in
theorem Update.Counting.run {n m k : Nat} {rest : List (UndoState (Record ω))} {first : Bool}
    {oho : Option ObjectId} {thrown : Bool} (ops : List (Op (Record ω))) :
    ∀ {db db' : ObjectDatabase (Record ω)}, Counting n rest m ⟨db, first, oho, thrown⟩ k →
    (∀ op ∈ ops, indexOf op ≠ ohoIndex) → db.run sch ops = some db' →
    Counting n rest m ⟨db', first, oho, thrown⟩ k := by
  induction ops with
  | nil =>
    intro db db' h _ hrun
    obtain rfl := Option.some.inj hrun
    exact h
  | cons op ops ih =>
    intro db db' h hops hrun
    obtain ⟨db1, hexec, hrun⟩ := Option.bind_eq_some_iff.mp hrun
    exact ih (h.exec (hops op List.mem_cons_self) hexec)
      (fun op' hop' => hops op' (List.mem_cons_of_mem op hop')) hrun

end

/-! ### Runs of blocks -/

def total (slots : List (List (List Nat))) : Nat := (slots.map List.length).sum

@[simp] theorem total_nil : total [] = 0 := rfl

@[simp] theorem total_cons (b : List (List Nat)) (slots : List (List (List Nat))) :
    total (b :: slots) = b.length + total slots := by
  simp only [total, List.map_cons, List.sum_cons]

/-- The states of the undo stack lead back to the ids at which the last blocks began. -/
inductive Numbered (n : Nat) : Nat → List (UndoState (Record ω)) → List (List (List Nat)) → Prop
  | bottom (slots : List (List (List Nat))) : Numbered n (n + total slots) [] slots
  | level {u : UndoState (Record ω)} {rest : List (UndoState (Record ω))} {b : List (List Nat)}
      {slots : List (List (List Nat))} (below : Numbered n (n + total slots) rest slots)
      (hu : u.oldIndexNextIds.lookup ohoIndex =
        if b.length = 0 then none else some ⟨ohoIndex, n + total slots⟩) :
      Numbered n (n + total (b :: slots)) (u :: rest) (b :: slots)

theorem Numbered.next {n next : Nat} {stack : List (UndoState (Record ω))}
    {slots : List (List (List Nat))} (h : Numbered n next stack slots) :
      next = n + total slots := by
  cases h <;> rfl

theorem Numbered.take {n next : Nat} {stack : List (UndoState (Record ω))}
    {slots : List (List (List Nat))} (h : Numbered n next stack slots) (k : Nat) :
    Numbered n next (stack.take k) slots := by
  induction h generalizing k with
  | bottom slots =>
    rw [List.take_nil]
    exact .bottom slots
  | @level u rest b slots below hu ih =>
    cases k with
    | zero => exact .bottom (b :: slots)
    | succ k => exact .level (ih k) hu

theorem restore_nextId (ord : IterationOrder (Record ω)) (u : UndoState (Record ω))
    (s : Store (Record ω)) (i : IndexId) : (u.restore sch ord s).store.nextId i =
      match u.oldIndexNextIds.lookup i with
      | some a => a.number
      | none => s.nextId i := by
  have hmodify : ∀ (r : Restored (Record ω)) x, (r.modify sch x).store.nextId = r.store.nextId := by
    intro r x
    unfold Restored.modify Store.modify
    split
    · rename_i heq
      split at heq
      · cases heq
      · split at heq
        · cases heq
        · cases heq
          rfl
    · rename_i heq
      split at heq
      · cases heq
        rfl
      · split at heq
        · cases heq
          rfl
        · cases heq
  have hremove : ∀ (r : Restored (Record ω)) a, (r.remove a).store.nextId = r.store.nextId := by
    intro r a
    unfold Restored.remove Store.remove
    split <;> rename_i heq <;> split at heq <;> cases heq <;> rfl
  have hinsert : ∀ (r : Restored (Record ω)) x, (r.insert sch x).store.nextId = r.store.nextId := by
    intro r x
    unfold Restored.insert
    split
    · rfl
    · split
      · rename_i s' hs
        rw [Store.insert_eq hs]
      · rfl
  have hfold : ∀ {ι : Type} (f : Restored (Record ω) → ι → Restored (Record ω)),
      (∀ r x, (f r x).store.nextId = r.store.nextId) → ∀ (l : List ι) r,
      (l.foldl f r).store.nextId = r.store.nextId := by
    intro ι f hf l
    induction l with
    | nil =>
      intro r
      rfl
    | cons x l ih =>
      intro r
      rw [List.foldl_cons, ih, hf]
  unfold UndoState.restore
  rw [hfold _ hinsert]
  show (match u.oldIndexNextIds.lookup i with
    | some a => a.number
    | none => Store.nextId (Restored.store _) i) = _
  rw [hfold _ hremove, hfold _ hmodify]

variable {sch}

/-- A chain between two blocks, the first of which began at the id `n`. -/
structure Chain.Settled (n : Nat) (c : Chain ω) : Prop where
  enabled : c.db.undoDb.disabled = false
  sessions : c.db.undoDb.activeSessions = 0
  numbered : Numbered n (c.db.store.nextId ohoIndex) c.db.undoDb.stack c.slots

/-- The accounts in whose history the operations of the block are entered have statistics when the
block was evaluated. -/
def Event.Known (sch : Schema (Record ω) K) (cfg : Config) (impacted : ω → List AccountId)
    (c : Chain ω) :
    Event ω → Prop
  | .applyBlock b => ∀ db, (c.db.startUndoSession false).run sch b.changes = some db →
    ∀ op, some op ∈ b.operations → ∀ a ∈ cfg.recorded impacted op, (statisticsOf db.store a).isSome
  | .popBlock => True

/-- The ids that the applied operations have when each of them has one of its own. -/
def slotsAfter (n : Nat) (slots : List (List (List Nat))) : Event ω → List (List (List Nat))
  | .applyBlock b => ((List.range' (n + total slots) b.operations.length).map fun i => [i]) :: slots
  | .popBlock => slots.tail

theorem Chain.Settled.handle (hsch : HistorySchema sch) {ord : IterationOrder (Record ω)}
    {cfg : Config}
    {impacted : ω → List AccountId} {n : Nat} {c c' : Chain ω} {e : Event ω} (h : c.Settled n)
    (hknown : e.Known sch cfg impacted c) (he : c.handle sch ord cfg impacted e = some c') :
    c'.Settled n ∧ c'.slots = slotsAfter n c.slots e := by
  cases e with
  | applyBlock b =>
    obtain ⟨db, hdb, he⟩ := Option.bind_eq_some_iff.mp he
    obtain ⟨last, hlast, he⟩ := Option.bind_eq_some_iff.mp he
    obtain rfl := Option.some.inj he
    have hstart : Update.Counting (c.db.store.nextId ohoIndex)
      (c.db.undoDb.stack.take c.db.undoDb.maxSize)
        1 ⟨c.db.startUndoSession false, true, none, false⟩ 0 := by
      have hsession : c.db.startUndoSession false = { c.db with
          undoDb :=
            { c.db.undoDb with
              disabled := false
              stack := .empty :: c.db.undoDb.stack.take c.db.undoDb.maxSize
              activeSessions := c.db.undoDb.activeSessions + 1 } } := by
        unfold ObjectDatabase.startUndoSession
        rw [h.enabled]
        rfl
      rw [hsession]
      exact ⟨rfl, ⟨_, rfl, rfl⟩, rfl, rfl, congrArg (· + 1) h.sessions⟩
    obtain ⟨hcounting, hslots⟩ := Update.addOperations_counting hsch b.operations _ 0
      (hstart.run b.changes b.foreign hdb) rfl (hknown db hdb)
    have hlast : (Update.addOperations sch cfg impacted ⟨db, true, none, false⟩
      b.operations).1.db.commit = some last := hlast
    generalize Update.addOperations sch cfg impacted ⟨db, true, none, false⟩ b.operations = r
      at hcounting hslots hlast ⊢
    rw [Nat.zero_add] at hcounting
    rw [Nat.add_zero, h.numbered.next] at hslots
    obtain ⟨top, hst, htop⟩ := hcounting.stack
    have hnext := h.numbered.next
    have hlength : r.2.length = b.operations.length := by
      rw [hslots, List.length_map, List.length_range']
    unfold ObjectDatabase.commit at hlast
    rw [hcounting.sessions, if_neg (by omega)] at hlast
    obtain rfl := Option.some.inj hlast
    refine ⟨⟨hcounting.enabled, rfl, ?_⟩, congrArg (· :: c.slots) hslots⟩
    show Numbered n (r.1.db.store.nextId ohoIndex) r.1.db.undoDb.stack (r.2 :: c.slots)
    have hid : r.1.db.store.nextId ohoIndex = n + total (r.2 :: c.slots) := by
      rw [hcounting.next, hnext, total_cons, hlength]
      omega
    rw [hid, hst]
    refine .level ?_ ?_
    · rw [← hnext]
      exact h.numbered.take _
    · rw [htop, hlength, hnext]
  | popBlock =>
    obtain ⟨⟨db, swallowed⟩, hpop, he⟩ := Option.bind_eq_some_iff.mp he
    obtain rfl := Option.some.inj he
    obtain ⟨u, rest, hst, -, hstore, hrest, hen⟩ :=
      ObjectDatabase.undo_eq (Or.inr (Option.map_eq_some_iff.mpr ⟨_, hpop, rfl⟩))
    have hsessions : db.undoDb.activeSessions = 0 := by
      unfold ObjectDatabase.popCommit at hpop
      rw [h.sessions, hst] at hpop
      simp only [ne_eq, not_true, if_false] at hpop
      split at hpop
      · cases hpop
      · obtain ⟨rfl, -⟩ := Prod.mk.inj (Option.some.inj hpop)
        exact h.sessions
    refine ⟨⟨hen, hsessions, ?_⟩, rfl⟩
    show Numbered n (db.store.nextId ohoIndex) db.undoDb.stack c.slots.tail
    have hnumbered := h.numbered
    rw [hst] at hnumbered
    rw [hstore, hrest, restore_nextId]
    generalize hslots : c.slots = slots at hnumbered
    generalize hnext : c.db.store.nextId ohoIndex = next at hnumbered
    cases hnumbered with
    | @level u rest b slots below hu =>
      rw [hu]
      by_cases hb : b.length = 0
      · rw [if_pos hb]
        have hsame : n + total (b :: slots) = n + total slots := by
          rw [total_cons, hb]
          omega
        show Numbered n (n + total (b :: slots)) rest slots
        rw [hsame]
        exact below
      · rw [if_neg hb]
        exact below

/-- A run in which the accounts in whose history operations are entered have statistics. -/
inductive KnownRun (sch : Schema (Record ω) K) (ord : IterationOrder (Record ω)) (cfg : Config)
    (impacted : ω → List AccountId) : Chain ω → List (Event ω) → Chain ω → Prop
  | nil (c : Chain ω) : KnownRun sch ord cfg impacted c [] c
  | cons {c c1 c2 : Chain ω} {e : Event ω} {es : List (Event ω)}
      (h : c.handle sch ord cfg impacted e = some c1) (hknown : e.Known sch cfg impacted c)
      (hrun : KnownRun sch ord cfg impacted c1 es c2) : KnownRun sch ord cfg impacted c (e :: es) c2

theorem KnownRun.slots (hsch : HistorySchema sch) {ord : IterationOrder (Record ω)} {cfg : Config}
    {impacted : ω → List AccountId} {n : Nat} {c c' : Chain ω} {es : List (Event ω)}
    (hrun : KnownRun sch ord cfg impacted c es c') (h : c.Settled n) :
    c'.Settled n ∧ c'.slots = es.foldl (slotsAfter n) c.slots := by
  induction hrun with
  | nil c => exact ⟨h, rfl⟩
  | cons he hknown _ ih =>
    obtain ⟨h1, hslots⟩ := h.handle hsch hknown he
    obtain ⟨h2, hlast⟩ := ih h1
    exact ⟨h2, by rw [hlast, hslots, List.foldl_cons]⟩

/-- Two configurations of the plugin give the operations of the same blocks the same ids, when the
accounts in whose history operations are entered have statistics: every applied operation uses up
one id, and the ids of a block that is popped are used again. -/
theorem operation_ids_independent (sch : Schema (Record ω) K) (hsch : HistorySchema sch)
    (impacted : ω → List AccountId) (ord₁ ord₂ : IterationOrder (Record ω)) (cfg₁ cfg₂ : Config)
    (c c₁ c₂ : Chain ω) (events : List (Event ω)) (henabled : c.db.undoDb.disabled = false)
    (hsessions : c.db.undoDb.activeSessions = 0) (hstack : c.db.undoDb.stack = [])
    (hslots : c.slots = [])
    (h₁ : KnownRun sch ord₁ cfg₁ impacted c events c₁)
    (h₂ : KnownRun sch ord₂ cfg₂ impacted c events c₂) :
    c₁.slots = events.foldl (slotsAfter (c.db.store.nextId ohoIndex)) [] ∧ c₂.slots = c₁.slots ∧
      c₁.db.store.nextId ohoIndex = c.db.store.nextId ohoIndex + total c₁.slots ∧
      c₂.db.store.nextId ohoIndex = c₁.db.store.nextId ohoIndex := by
  have hstart : c.Settled (c.db.store.nextId ohoIndex) := by
    refine ⟨henabled, hsessions, ?_⟩
    rw [hstack, hslots]
    exact .bottom []
  obtain ⟨hend₁, hslots₁⟩ := h₁.slots hsch hstart
  obtain ⟨hend₂, hslots₂⟩ := h₂.slots hsch hstart
  have hsame : c₂.slots = c₁.slots := hslots₂.trans hslots₁.symm
  refine ⟨?_, hsame, hend₁.numbered.next, ?_⟩
  · rw [hslots₁, hslots]
  · rw [hend₁.numbered.next, hend₂.numbered.next, hsame]

/-! ### Proposals for an account that does not exist -/

def plainSchema : Schema (Record (List AccountId)) Unit where
  uniqueKeys _ := []
  isExternalDb i := i = ohoIndex || i = athoIndex
  external_keys _ _ := rfl

theorem plainSchema_history : HistorySchema plainSchema := ⟨rfl, rfl, rfl⟩

/-- Account 0 and its statistics. -/
def oneAccount : Chain (List AccountId) where
  db :=
    { store :=
        { objects := (Finmap.singleton ⟨statisticsIndex, 0⟩ (.statistics 0 ⟨athoIndex, 0⟩)).insert
            ⟨accountIndex, 0⟩ (.account ⟨statisticsIndex, 0⟩)
          nextId := fun _ => 1 }
      undoDb := ⟨0, false, [], 10⟩ }
  slots := []

/-- A block whose operations are given by the accounts that they have an impact on. -/
def blockOf (operations : List (Option (List AccountId))) : Block (List AccountId) where
  changes := []
  operations := operations
  foreign _ h := (List.not_mem_nil h).elim

/-- All accounts are tracked, and all operations are stored. -/
def fullHistory : Config := ⟨[], false, 4294967295⟩

/-- No operation is stored. -/
def noHistory : Config := ⟨[], true, 0⟩

/-- A test of `Event.Known`. -/
def Event.testKnown (cfg : Config) (c : Chain (List AccountId)) : Event (List AccountId) → Bool
  | .applyBlock b => ((c.db.startUndoSession false).run plainSchema b.changes).all fun db =>
    b.operations.all fun op => op.all fun o => (cfg.recorded id o).all fun a =>
      (statisticsOf db.store a).isSome
  | .popBlock => true

/-- A run of the small chain whose events pass the test. -/
def Chain.runKnown (cfg : Config) :
    Chain (List AccountId) → List (Event (List AccountId)) → Option (Chain (List AccountId))
  | c, [] => some c
  | c, e :: es =>
    if e.testKnown cfg c then (c.handle plainSchema .byId cfg id e).bind (runKnown cfg · es)
    else none

theorem knownRun_of_runKnown {cfg : Config} {c c' : Chain (List AccountId)}
    {es : List (Event (List AccountId))} (h : c.runKnown cfg es = some c') :
    KnownRun plainSchema .byId cfg id c es c' := by
  induction es generalizing c with
  | nil =>
    obtain rfl := Option.some.inj h
    exact .nil c
  | cons e es ih =>
    rw [Chain.runKnown] at h
    split at h
    · rename_i htest
      obtain ⟨c1, h1, hes⟩ := Option.bind_eq_some_iff.mp h
      refine .cons h1 ?_ (ih hes)
      cases e with
      | applyBlock b =>
        intro db hdb op hop a ha
        rw [Event.testKnown, hdb, Option.all_some, List.all_eq_true] at htest
        exact List.all_eq_true.mp (htest (some op) hop) a ha
      | popBlock => trivial
    · cases h

/-- A block of two operations, one that is popped, and another block of two. -/
def poppedRun : List (Event (List AccountId)) :=
  [.applyBlock (blockOf [some [0], none]), .applyBlock (blockOf [some []]), .popBlock,
    .applyBlock (blockOf [none, some [0]])]

/-- The id of the popped operation is used again. -/
theorem operation_ids_independent_popped : ∃ c₁ c₂,
    KnownRun plainSchema .byId fullHistory id oneAccount poppedRun c₁ ∧
    KnownRun plainSchema .byId noHistory id oneAccount poppedRun c₂ ∧
    c₁.slots = [[[3], [4]], [[1], [2]]] ∧ c₂.slots = c₁.slots := by
  have hfull : (oneAccount.runKnown fullHistory poppedRun).any
      (fun c => decide (c.slots = [[[3], [4]], [[1], [2]]])) = true := by decide +kernel
  have hnone : (oneAccount.runKnown noHistory poppedRun).isSome := by decide +kernel
  obtain ⟨c₁, h₁, hslots⟩ := (Option.any_eq_true _ _).mp hfull
  obtain ⟨c₂, h₂⟩ := Option.isSome_iff_exists.mp hnone
  have hindependent := operation_ids_independent plainSchema plainSchema_history id .byId .byId
    fullHistory noHistory oneAccount c₁ c₂ poppedRun rfl rfl rfl rfl (knownRun_of_runKnown h₁)
    (knownRun_of_runKnown h₂)
  exact ⟨c₁, c₂, knownRun_of_runKnown h₁, knownRun_of_runKnown h₂, of_decide_eq_true hslots,
    hindependent.2.1⟩

/-- The first operation proposes a transaction of an account that does not exist.  Where all
accounts are tracked, the plugin throws when it looks for its statistics, and the second operation
has no id. -/
theorem operation_ids_depend_on_history : ∃ c₁ c₂,
    oneAccount.handle plainSchema .byId fullHistory id
      (.applyBlock (blockOf [some [0, 99], some [0]])) =
      some c₁ ∧
    oneAccount.handle plainSchema .byId noHistory id
      (.applyBlock (blockOf [some [0, 99], some [0]])) =
      some c₂ ∧ c₁.slots = [[[1], []]] ∧ c₂.slots = [[[1], [2]]] := by
  have hfull : (oneAccount.handle plainSchema .byId fullHistory id
      (.applyBlock (blockOf [some [0, 99], some [0]]))).any
        (fun c => decide (c.slots = [[[1], []]])) = true := by decide +kernel
  have hnone : (oneAccount.handle plainSchema .byId noHistory id
      (.applyBlock (blockOf [some [0, 99], some [0]]))).any
        (fun c => decide (c.slots = [[[1], [2]]])) = true := by decide +kernel
  obtain ⟨c₁, h₁, hslots₁⟩ := (Option.any_eq_true _ _).mp hfull
  obtain ⟨c₂, h₂, hslots₂⟩ := (Option.any_eq_true _ _).mp hnone
  exact ⟨c₁, c₂, h₁, h₂, of_decide_eq_true hslots₁, of_decide_eq_true hslots₂⟩

end Nestchain.History
