import Nestchain.Db.Store

/-! `undo_database` and the operations of `object_database` that record into it.  A session is an
`UndoState` on the stack; `undo` and `pop_commit` take the last state back, and `merge` folds it
into the state below.  The containers of an `UndoState` are unordered: every function that iterates
over one takes the order of iteration as a parameter. -/

namespace Nestchain.Db

/-- `undo_state`: the objects that a session changed. -/
@[ext]
structure UndoState (V : Type) where
  oldValues : Finmap fun _ : ObjectId => V
  oldIndexNextIds : Finmap fun _ : IndexId => ObjectId
  newIds : Finset ObjectId
  removed : Finmap fun _ : ObjectId => V

/-- The state that `_stack.emplace_back()` adds. -/
def UndoState.empty {V : Type} : UndoState V := ⟨∅, ∅, ∅, ∅⟩

/-- The order in which the unordered containers are iterated: a list of each container's elements,
without repetition. -/
structure IterationOrder (V : Type) where
  values : (Finmap fun _ : ObjectId => V) → List (ObjectId × V)
  mem_values : ∀ m a v, (a, v) ∈ values m ↔ m.lookup a = some v
  values_nodup : ∀ m, ((values m).map Prod.fst).Nodup
  ids : Finset ObjectId → List ObjectId
  mem_ids : ∀ m a, a ∈ ids m ↔ a ∈ m
  ids_nodup : ∀ m, (ids m).Nodup

section Recording

variable {V : Type}

/-- `on_create`, just after the object with id `a` was created. -/
def UndoState.onCreate (u : UndoState V) (a : ObjectId) : UndoState V :=
  { u with
    oldIndexNextIds :=
      if a.index ∈ u.oldIndexNextIds then u.oldIndexNextIds
      else u.oldIndexNextIds.insert a.index a
    newIds := insert a u.newIds }

/-- `on_modify`, just before the object with id `a` and value `v` is modified. -/
def UndoState.onModify (u : UndoState V) (a : ObjectId) (v : V) : UndoState V :=
  if a ∈ u.newIds then u
  else if a ∈ u.oldValues then u
  else { u with oldValues := u.oldValues.insert a v }

/-- `on_remove`, just before the object with id `a` and value `v` is removed. -/
def UndoState.onRemove (u : UndoState V) (a : ObjectId) (v : V) : UndoState V :=
  if a ∈ u.newIds then { u with newIds := u.newIds.erase a }
  else
    match u.oldValues.lookup a with
    | some old =>
      { u with removed := u.removed.insert a old, oldValues := u.oldValues.erase a }
    | none => if a ∈ u.removed then u else { u with removed := u.removed.insert a v }

/-- `undo_database`, with the last state of `_stack` first. -/
structure UndoDatabase (V : Type) where
  activeSessions : Nat
  disabled : Bool
  stack : List (UndoState V)
  maxSize : Nat

/-- Record a change in the last state of the stack, which is added when the stack is empty. -/
def UndoDatabase.record (d : UndoDatabase V) (f : UndoState V → UndoState V) : UndoDatabase V :=
  if d.disabled then d
  else
    match d.stack with
    | [] => { d with stack := [f .empty] }
    | u :: rest => { d with stack := f u :: rest }

/-- `object_database`: the indexes and the undo database. -/
structure ObjectDatabase (V : Type) where
  store : Store V
  undoDb : UndoDatabase V

/-- `start_undo_session`: a database that is disabled and not force-enabled gets no state; otherwise
the oldest states beyond `max_size` are dropped and a new one is added. -/
def ObjectDatabase.startUndoSession (db : ObjectDatabase V) (forceEnable : Bool) :
    ObjectDatabase V :=
  if db.undoDb.disabled && !forceEnable then db
  else
    { db with
      undoDb :=
        { db.undoDb with
          disabled := false
          stack := .empty :: db.undoDb.stack.take db.undoDb.maxSize
          activeSessions := db.undoDb.activeSessions + 1 } }

/-- `commit` of the last active session. -/
def ObjectDatabase.commit (db : ObjectDatabase V) : Option (ObjectDatabase V) :=
  if db.undoDb.activeSessions = 0 then none
  else some { db with undoDb := { db.undoDb with activeSessions := db.undoDb.activeSessions - 1 } }

end Recording

section Operations

variable {V K : Type} [DecidableEq K] (sch : Schema V K)

/-- `create` in index `i`. -/
def ObjectDatabase.create (db : ObjectDatabase V) (i : IndexId) (f : ObjectId → V) :
    Option (ObjectDatabase V) :=
  (db.store.create sch i f).map fun s =>
    { store := s, undoDb := db.undoDb.record (·.onCreate ⟨i, db.store.nextId i⟩) }

/-- `modify` of the object with id `a`, which is recorded before it is attempted. -/
def ObjectDatabase.modify (db : ObjectDatabase V) (a : ObjectId) (f : V → V) :
    Bool × ObjectDatabase V :=
  match db.store.objects.lookup a with
  | none => (false, db)
  | some v =>
    ((db.store.modify sch a f).1,
      { store := (db.store.modify sch a f).2, undoDb := db.undoDb.record (·.onModify a v) })

/-- `remove` of an object, given as a reference to it. -/
def ObjectDatabase.remove (db : ObjectDatabase V) (a : ObjectId) : Bool × ObjectDatabase V :=
  match db.store.objects.lookup a with
  | none => (false, db)
  | some v =>
    ((db.store.remove a).1,
      { store := (db.store.remove a).2, undoDb := db.undoDb.record (·.onRemove a v) })

/-- `remove` of an object, given by its id.  A Berkeley DB index deletes it from the file without
calling `on_remove`. -/
def ObjectDatabase.removeById (db : ObjectDatabase V) (a : ObjectId) : Bool × ObjectDatabase V :=
  if sch.isExternalDb a.index then
    ((db.store.remove a).1, { db with store := (db.store.remove a).2 })
  else db.remove a

/-- A call of one of the mutators of `object_database`. -/
inductive Op (V : Type) where
  | create (i : IndexId) (f : ObjectId → V)
  | modify (a : ObjectId) (f : V → V)
  | remove (a : ObjectId)
  | removeById (a : ObjectId)

/-- The database that a call leaves, when the call succeeds. -/
def succeeded (r : Bool × ObjectDatabase V) : Option (ObjectDatabase V) :=
  if r.1 then some r.2 else none

def ObjectDatabase.exec (db : ObjectDatabase V) : Op V → Option (ObjectDatabase V)
  | .create i f => db.create sch i f
  | .modify a f => succeeded (db.modify sch a f)
  | .remove a => succeeded (db.remove a)
  | .removeById a => succeeded (db.removeById sch a)

/-- The database after a sequence of calls that all succeed. -/
def ObjectDatabase.run (db : ObjectDatabase V) : List (Op V) → Option (ObjectDatabase V)
  | [] => some db
  | op :: ops => (db.exec sch op).bind fun d => d.run ops

/-- What taking back an undo state leaves: the store, the ids of the objects whose modify or remove
threw and was caught and only logged, and whether the insert of a removed object threw. -/
structure Restored (V : Type) where
  store : Store V
  swallowed : List ObjectId
  threw : Bool

/-- One iteration over `old_values`: the modify that puts the old value back. -/
def Restored.modify (r : Restored V) (item : ObjectId × V) : Restored V :=
  match r.store.modify sch item.1 fun _ => item.2 with
  | (true, s) => { r with store := s }
  | (false, s) => { r with store := s, swallowed := r.swallowed ++ [item.1] }

/-- One iteration over `new_ids`. -/
def Restored.remove (r : Restored V) (a : ObjectId) : Restored V :=
  match r.store.remove a with
  | (true, s) => { r with store := s }
  | (false, s) => { r with store := s, swallowed := r.swallowed ++ [a] }

/-- One iteration over `removed`; nothing more happens once an insert has thrown. -/
def Restored.insert (r : Restored V) (item : ObjectId × V) : Restored V :=
  if r.threw then r
  else
    match r.store.insert sch item.1 item.2 with
    | some s => { r with store := s }
    | none => { r with threw := true }

/-- The loop over `old_index_next_ids`, each of which sets the next id of another index. -/
def Restored.setNextIds (r : Restored V) (ids : Finmap fun _ : IndexId => ObjectId) : Restored V :=
  { r with
    store :=
      { r.store with
        nextId := fun i =>
          match ids.lookup i with
          | some a => a.number
          | none => r.store.nextId i } }

/-- The body that `undo` and `pop_commit` share: the old values are put back, then the new objects
are removed, then the next ids are set, then the removed objects are inserted again.  Undo is
disabled meanwhile, so nothing is recorded. -/
def UndoState.restore (ord : IterationOrder V) (u : UndoState V) (s : Store V) : Restored V :=
  let changed := (ord.values u.oldValues).foldl (Restored.modify sch) ⟨s, [], false⟩
  let kept := (ord.ids u.newIds).foldl Restored.remove changed
  (ord.values u.removed).foldl (Restored.insert sch) (kept.setNextIds u.oldIndexNextIds)

/-- `undo` of the last active session: the database and the errors that were only logged, or `none`
when it throws. -/
def ObjectDatabase.undo (ord : IterationOrder V) (db : ObjectDatabase V) :
    Option (ObjectDatabase V × List ObjectId) :=
  if db.undoDb.disabled ∨ db.undoDb.activeSessions = 0 then none
  else
    match db.undoDb.stack with
    | [] => none
    | u :: rest =>
      let r := u.restore sch ord db.store
      if r.threw then none
      else
        some ({ store := r.store
                undoDb :=
                  { db.undoDb with
                    disabled := false, stack := rest
                    activeSessions := db.undoDb.activeSessions - 1 } }, r.swallowed)

/-- `pop_commit` of the last committed session. -/
def ObjectDatabase.popCommit (ord : IterationOrder V) (db : ObjectDatabase V) :
    Option (ObjectDatabase V × List ObjectId) :=
  if db.undoDb.activeSessions ≠ 0 then none
  else
    match db.undoDb.stack with
    | [] => none
    | u :: rest =>
      let r := u.restore sch ord db.store
      if r.threw then none
      else
        some ({ store := r.store
                undoDb := { db.undoDb with disabled := false, stack := rest } }, r.swallowed)

end Operations

section Merging

variable {V : Type}

/-- `*+upd`: one iteration over the `old_values` of the merged state. -/
def UndoState.mergeUpd (prev : UndoState V) (item : ObjectId × V) : UndoState V :=
  if item.1 ∈ prev.newIds then prev
  else if item.1 ∈ prev.oldValues then prev
  else { prev with oldValues := prev.oldValues.insert item.1 item.2 }

/-- `*+new`: one iteration over the `new_ids` of the merged state. -/
def UndoState.mergeNew (prev : UndoState V) (a : ObjectId) : UndoState V :=
  { prev with newIds := insert a prev.newIds }

/-- The loop over `old_index_next_ids`, which keeps the ids that the state below already has. -/
def UndoState.mergeNextIds (prev : UndoState V) (ids : Finmap fun _ : IndexId => ObjectId) :
    UndoState V :=
  { prev with oldIndexNextIds := prev.oldIndexNextIds ∪ ids }

/-- `*+del`: one iteration over the `removed` of the merged state. -/
def UndoState.mergeDel (prev : UndoState V) (item : ObjectId × V) : UndoState V :=
  if item.1 ∈ prev.newIds then { prev with newIds := prev.newIds.erase item.1 }
  else
    match prev.oldValues.lookup item.1 with
    | some old =>
      { prev with
        removed := prev.removed.insert item.1 old, oldValues := prev.oldValues.erase item.1 }
    | none => { prev with removed := prev.removed.insert item.1 item.2 }

/-- The four loops of `merge`. -/
def UndoState.mergeInto (ord : IterationOrder V) (prev state : UndoState V) : UndoState V :=
  let upd := (ord.values state.oldValues).foldl UndoState.mergeUpd prev
  let new := (ord.ids state.newIds).foldl UndoState.mergeNew upd
  (ord.values state.removed).foldl UndoState.mergeDel (new.mergeNextIds state.oldIndexNextIds)

/-- `merge` of the last session into the state below it. -/
def ObjectDatabase.merge (ord : IterationOrder V) (db : ObjectDatabase V) :
    Option (ObjectDatabase V) :=
  if db.undoDb.activeSessions = 0 then none
  else
    match db.undoDb.stack with
    | [] => none
    | [_] =>
      if db.undoDb.activeSessions = 1 then
        some { db with undoDb := { db.undoDb with stack := [], activeSessions := 0 } }
      else none
    | state :: prev :: rest =>
      some
        { db with
          undoDb :=
            { db.undoDb with
              stack := prev.mergeInto ord state :: rest
              activeSessions := db.undoDb.activeSessions - 1 } }

/-- An object is in one of the cells of the matrix in `merge` that are marked N/A. -/
def UndoState.NotApplicable (prev state : UndoState V) : Prop :=
  ∃ a : ObjectId,
    (a ∈ state.newIds ∧ (a ∈ prev.newIds ∨ a ∈ prev.oldValues ∨ a ∈ prev.removed)) ∨
    (a ∈ prev.removed ∧ (a ∈ state.oldValues ∨ a ∈ state.removed))

end Merging

end Nestchain.Db
