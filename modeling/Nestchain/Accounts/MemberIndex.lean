import Nestchain.Db.Secondary

/-! `account_member_index`, the secondary index that finds the accounts with an account, a key or an
address among their authorities.  It keeps the members of an account as they are when a modification
begins, in one place for all modifications, so a modification that is begun within another one takes
its place.  A run here begins and ends modifications one within the other. -/

namespace Nestchain.Accounts.MemberIndex

open Nestchain.Db

variable {Key Address : Type}

/-- The members of an `authority`. -/
structure Authority (Key Address : Type) where
  accountAuths : List ObjectId
  keyAuths : List Key
  addressAuths : List Address
deriving DecidableEq

/-- What the index reads of an account. -/
structure Account (Key Address : Type) where
  owner : Authority Key Address
  active : Authority Key Address
  memoKey : Key
deriving DecidableEq

/-- One of the three maps, with the members before a modification. -/
structure Memberships (α : Type) where
  accounts : α → Finset ObjectId
  before : Finset α

namespace Memberships

variable {α : Type} [DecidableEq α]

def empty : Memberships α := ⟨fun _ => ∅, ∅⟩

def inserted (m : Memberships α) (members : Finset α) (id : ObjectId) : Memberships α :=
  { m with accounts := fun e => if e ∈ members then insert id (m.accounts e) else m.accounts e }

def removed (m : Memberships α) (members : Finset α) (id : ObjectId) : Memberships α :=
  { m with accounts := fun e => if e ∈ members then (m.accounts e).erase id else m.accounts e }

def aboutToModify (m : Memberships α) (members : Finset α) : Memberships α :=
  { m with before := members }

/-- The two differences of the members before and after: what is removed and what is added. -/
def modified (m : Memberships α) (after : Finset α) (id : ObjectId) : Memberships α :=
  { m with accounts := fun e =>
      if e ∈ m.before \ after then (m.accounts e).erase id
      else if e ∈ after \ m.before then insert id (m.accounts e)
      else m.accounts e }

end Memberships

structure AccountMemberIndex (Key Address : Type) where
  accountToAccountMemberships : Memberships ObjectId
  accountToKeyMemberships : Memberships Key
  accountToAddressMemberships : Memberships Address

def getAccountMembers (a : Account Key Address) : Finset ObjectId :=
  a.owner.accountAuths.toFinset ∪ a.active.accountAuths.toFinset

def getKeyMembers [DecidableEq Key] (a : Account Key Address) : Finset Key :=
  insert a.memoKey (a.owner.keyAuths.toFinset ∪ a.active.keyAuths.toFinset)

def getAddressMembers [DecidableEq Address] (address : Key → Address) (a : Account Key Address) :
    Finset Address :=
  insert (address a.memoKey) (a.owner.addressAuths.toFinset ∪ a.active.addressAuths.toFinset)

/-- `account_member_index` -/
def accountMemberIndex [DecidableEq Key] [DecidableEq Address] (address : Key → Address) :
    SecondaryIndex (Account Key Address) (AccountMemberIndex Key Address) where
  objectInserted id a i :=
    ⟨i.accountToAccountMemberships.inserted (getAccountMembers a) id,
      i.accountToKeyMemberships.inserted (getKeyMembers a) id,
      i.accountToAddressMemberships.inserted (getAddressMembers address a) id⟩
  objectRemoved id a i :=
    ⟨i.accountToAccountMemberships.removed (getAccountMembers a) id,
      i.accountToKeyMemberships.removed (getKeyMembers a) id,
      i.accountToAddressMemberships.removed (getAddressMembers address a) id⟩
  aboutToModify _ a i :=
    ⟨i.accountToAccountMemberships.aboutToModify (getAccountMembers a),
      i.accountToKeyMemberships.aboutToModify (getKeyMembers a),
      i.accountToAddressMemberships.aboutToModify (getAddressMembers address a)⟩
  objectModified id a i :=
    ⟨i.accountToAccountMemberships.modified (getAccountMembers a) id,
      i.accountToKeyMemberships.modified (getKeyMembers a) id,
      i.accountToAddressMemberships.modified (getAddressMembers address a) id⟩

/-! ### Runs -/

/-- The accounts and the index, with the accounts that are being modified, the innermost first. -/
structure State (Key Address : Type) where
  objects : Finmap fun _ : ObjectId => Account Key Address
  index : AccountMemberIndex Key Address
  modifying : List ObjectId

def State.empty : State Key Address := ⟨∅, ⟨.empty, .empty, .empty⟩, []⟩

/-- What happens to the primary index: `beginModify` and `endModify` are the calls of `modify` and
their returns, and `assign` is what the function of the innermost one writes to its account. -/
inductive Event (Key Address : Type) where
  | insert (id : ObjectId) (a : Account Key Address)
  | remove (id : ObjectId)
  | beginModify (id : ObjectId)
  | assign (a : Account Key Address)
  | endModify

section

variable [DecidableEq Key] [DecidableEq Address]

/-- An event in a state; an account is inserted under a new id, and it is not removed while it is
being modified. -/
def State.step (address : Key → Address) (s : State Key Address) :
    Event Key Address → Option (State Key Address)
  | .insert id a =>
    if id ∈ s.objects then none
    else some ⟨s.objects.insert id a, (accountMemberIndex address).objectInserted id a s.index,
      s.modifying⟩
  | .remove id =>
    match s.objects.lookup id with
    | some a =>
      if id ∈ s.modifying then none
      else some ⟨s.objects.erase id, (accountMemberIndex address).objectRemoved id a s.index,
        s.modifying⟩
    | none => none
  | .beginModify id =>
    match s.objects.lookup id with
    | some a => some ⟨s.objects, (accountMemberIndex address).aboutToModify id a s.index,
        id :: s.modifying⟩
    | none => none
  | .assign a =>
    match s.modifying with
    | id :: _ => some { s with objects := s.objects.insert id a }
    | [] => none
  | .endModify =>
    match s.modifying with
    | id :: rest =>
      match s.objects.lookup id with
      | some a => some ⟨s.objects, (accountMemberIndex address).objectModified id a s.index, rest⟩
      | none => none
    | [] => none

def State.run (address : Key → Address) (s : State Key Address) (events : List (Event Key Address)) :
    Option (State Key Address) :=
  events.foldlM (fun s e => s.step address e) s

end

/-! ### What is promised -/

/-- What an account may list. -/
inductive Member (Key Address : Type) where
  | account (id : ObjectId)
  | key (k : Key)
  | address (x : Address)

/-- The account has the member in its owner or active authority, or as memo key. -/
def Account.lists (address : Key → Address) (a : Account Key Address) : Member Key Address → Prop
  | .account id => id ∈ a.owner.accountAuths ∨ id ∈ a.active.accountAuths
  | .key k => k ∈ a.owner.keyAuths ∨ k ∈ a.active.keyAuths ∨ k = a.memoKey
  | .address x => x ∈ a.owner.addressAuths ∨ x ∈ a.active.addressAuths ∨ x = address a.memoKey

def AccountMemberIndex.find (i : AccountMemberIndex Key Address) :
    Member Key Address → Finset ObjectId
  | .account id => i.accountToAccountMemberships.accounts id
  | .key k => i.accountToKeyMemberships.accounts k
  | .address x => i.accountToAddressMemberships.accounts x

/-- An account, if there is one, is found by its members and by nothing else. -/
def FoundRight (address : Key → Address) (i : AccountMemberIndex Key Address) (id : ObjectId)
    (account : Option (Account Key Address)) : Prop :=
  ∀ e, id ∈ i.find e ↔ ∃ a, account = some a ∧ a.lists address e

def Exact (address : Key → Address) (objects : Finmap fun _ : ObjectId => Account Key Address)
    (i : AccountMemberIndex Key Address) : Prop :=
  ∀ id, FoundRight address i id (objects.lookup id)

/-- After an event, all accounts are found right that are not being modified, and so is one whose
modification has just ended. -/
structure RightAfter (address : Key → Address) (e : Event Key Address) (s s' : State Key Address) :
    Prop where
  others : ∀ id, id ∉ s'.modifying → FoundRight address s'.index id (s'.objects.lookup id)
  ended : e = .endModify → ∀ id ∈ s.modifying.head?,
    FoundRight address s'.index id (s'.objects.lookup id)

/-- The accounts as they were: `begun` when the modification that began last did, and `settled` when
each was inserted or a modification of it ended. -/
structure Earlier (Key Address : Type) where
  begun : Option (Account Key Address)
  settled : ObjectId → Option (Account Key Address)

def Earlier.none : Earlier Key Address := ⟨.none, fun _ => .none⟩

/-- What is remembered of an event in a state. -/
def Earlier.note (p : Earlier Key Address) (s : State Key Address) :
    Event Key Address → Earlier Key Address
  | .insert id a => { p with settled := Function.update p.settled id (some a) }
  | .remove id => { p with settled := Function.update p.settled id .none }
  | .beginModify id => { p with begun := s.objects.lookup id }
  | .assign _ => p
  | .endModify =>
    match s.modifying with
    | id :: _ => { p with settled := Function.update p.settled id (s.objects.lookup id) }
    | [] => p

/-- At the end of a modification, whatever the account lists now as the account of the modification
that began last did then, it also lists as it did when it was settled. -/
def Harmless (address : Key → Address) (p : Earlier Key Address) (s : State Key Address) :
    Event Key Address → Prop
  | .endModify => ∀ id ∈ s.modifying.head?, ∀ begun old now, p.begun = some begun →
      p.settled id = some old → s.objects.lookup id = some now →
      ∀ e, (begun.lists address e ↔ now.lists address e) →
        (old.lists address e ↔ now.lists address e)
  | _ => True

section

variable [DecidableEq Key] [DecidableEq Address]

/-- The index is right after each event of a run. -/
def RightThroughout (address : Key → Address) : List (Event Key Address) → State Key Address → Prop
  | [], _ => True
  | e :: events, s => ∀ s', s.step address e = some s' →
      RightAfter address e s s' ∧ RightThroughout address events s'

def HarmlessThroughout (address : Key → Address) :
    List (Event Key Address) → Earlier Key Address → State Key Address → Prop
  | [], _, _ => True
  | e :: events, p, s => ∀ s', s.step address e = some s' →
      Harmless address p s e ∧ HarmlessThroughout address events (p.note s e) s'

end

/-! ### The callbacks -/

section

variable {α : Type} [DecidableEq α] {m : Memberships α} {members : Finset α} {id j : ObjectId}
  {e : α}

theorem Memberships.mem_inserted : j ∈ (m.inserted members id).accounts e ↔
    j ∈ m.accounts e ∨ (j = id ∧ e ∈ members) := by
  rw [Memberships.inserted]
  by_cases he : e ∈ members
  · simp [he, or_comm]
  · simp [he]

theorem Memberships.mem_removed : j ∈ (m.removed members id).accounts e ↔
    j ∈ m.accounts e ∧ ¬(j = id ∧ e ∈ members) := by
  rw [Memberships.removed]
  by_cases he : e ∈ members
  · simp [he, and_comm]
  · simp [he]

theorem Memberships.mem_modified : j ∈ (m.modified members id).accounts e ↔
    (j = id ∧ e ∉ m.before ∧ e ∈ members) ∨
      (j ∈ m.accounts e ∧ ¬(j = id ∧ e ∈ m.before ∧ e ∉ members)) := by
  rw [Memberships.modified]
  simp only [Finset.mem_sdiff]
  by_cases hbefore : e ∈ m.before <;> by_cases hafter : e ∈ members <;> by_cases hj : j = id <;>
    simp [hbefore, hafter, hj]

end

section

variable {address : Key → Address} {a : Account Key Address}

theorem mem_getAccountMembers (address : Key → Address) {id : ObjectId} :
    id ∈ getAccountMembers a ↔ a.lists address (.account id) := by
  rw [getAccountMembers, Finset.mem_union, List.mem_toFinset, List.mem_toFinset, Account.lists]

theorem mem_getKeyMembers [DecidableEq Key] {k : Key} :
    k ∈ getKeyMembers a ↔ a.lists address (.key k) := by
  rw [getKeyMembers, Finset.mem_insert, Finset.mem_union, List.mem_toFinset, List.mem_toFinset,
    Account.lists, or_comm, or_assoc]

theorem mem_getAddressMembers [DecidableEq Address] {x : Address} :
    x ∈ getAddressMembers address a ↔ a.lists address (.address x) := by
  rw [getAddressMembers, Finset.mem_insert, Finset.mem_union, List.mem_toFinset, List.mem_toFinset,
    Account.lists, or_comm, or_assoc]

/-- The members before a modification, as the index keeps them. -/
def AccountMemberIndex.had (i : AccountMemberIndex Key Address) : Member Key Address → Prop
  | .account id => id ∈ i.accountToAccountMemberships.before
  | .key k => k ∈ i.accountToKeyMemberships.before
  | .address x => x ∈ i.accountToAddressMemberships.before

variable [DecidableEq Key] [DecidableEq Address] {i : AccountMemberIndex Key Address}
  {id j : ObjectId} {e : Member Key Address}

theorem mem_find_inserted : j ∈ ((accountMemberIndex address).objectInserted id a i).find e ↔
    j ∈ i.find e ∨ (j = id ∧ a.lists address e) := by
  cases e with
  | account x => rw [← mem_getAccountMembers address]; exact Memberships.mem_inserted
  | key k => rw [← mem_getKeyMembers]; exact Memberships.mem_inserted
  | address x => rw [← mem_getAddressMembers]; exact Memberships.mem_inserted

theorem mem_find_removed : j ∈ ((accountMemberIndex address).objectRemoved id a i).find e ↔
    j ∈ i.find e ∧ ¬(j = id ∧ a.lists address e) := by
  cases e with
  | account x => rw [← mem_getAccountMembers address]; exact Memberships.mem_removed
  | key k => rw [← mem_getKeyMembers]; exact Memberships.mem_removed
  | address x => rw [← mem_getAddressMembers]; exact Memberships.mem_removed

theorem find_aboutToModify :
    ((accountMemberIndex address).aboutToModify id a i).find e = i.find e := by
  cases e <;> rfl

theorem had_aboutToModify (id : ObjectId) : ((accountMemberIndex address).aboutToModify id a i).had e ↔
    a.lists address e := by
  cases e with
  | account x => exact mem_getAccountMembers address
  | key k => exact mem_getKeyMembers
  | address x => exact mem_getAddressMembers

theorem mem_find_modified : j ∈ ((accountMemberIndex address).objectModified id a i).find e ↔
    (j = id ∧ ¬i.had e ∧ a.lists address e) ∨
      (j ∈ i.find e ∧ ¬(j = id ∧ i.had e ∧ ¬a.lists address e)) := by
  cases e with
  | account x => rw [← mem_getAccountMembers address]; exact Memberships.mem_modified
  | key k => rw [← mem_getKeyMembers]; exact Memberships.mem_modified
  | address x => rw [← mem_getAddressMembers]; exact Memberships.mem_modified

theorem had_inserted : ((accountMemberIndex address).objectInserted id a i).had e ↔ i.had e := by
  cases e <;> rfl

theorem had_removed : ((accountMemberIndex address).objectRemoved id a i).had e ↔ i.had e := by
  cases e <;> rfl

theorem had_modified : ((accountMemberIndex address).objectModified id a i).had e ↔ i.had e := by
  cases e <;> rfl

end

/-! ### One event -/

section

variable {address : Key → Address} {p : Earlier Key Address} {s s' : State Key Address}
  {e : Event Key Address}

/-- The index finds the accounts as they were settled, and keeps the members that the account of the
last modification had when it began. -/
structure Inv (address : Key → Address) (p : Earlier Key Address) (s : State Key Address) : Prop where
  found : ∀ id, FoundRight address s.index id (p.settled id)
  had : ∀ begun, p.begun = some begun → ∀ e, s.index.had e ↔ begun.lists address e
  settled : ∀ id, id ∉ s.modifying → p.settled id = s.objects.lookup id
  modifying : ∀ id ∈ s.modifying, (∃ a, s.objects.lookup id = some a) ∧
    (∃ old, p.settled id = some old) ∧ ∃ begun, p.begun = some begun

theorem Inv.empty (address : Key → Address) : Inv address Earlier.none State.empty := by
  refine ⟨fun id e => ?_, fun _ h => (nomatch h), fun id _ => rfl, fun id h => (nomatch h)⟩
  have hnone : id ∉ (State.empty : State Key Address).index.find e := by
    cases e <;> exact Finset.notMem_empty id
  exact ⟨fun h => absurd h hnone, fun ⟨_, h, _⟩ => nomatch h⟩

theorem Inv.exact (h : Inv address p s) (hmodifying : s.modifying = []) :
    Exact address s.objects s.index := fun id => by
  rw [← h.settled id (by rw [hmodifying]; exact List.not_mem_nil)]
  exact h.found id

theorem settled_insert {id j : ObjectId} {a : Account Key Address} :
    (p.note s (.insert id a)).settled j = if j = id then some a else p.settled j :=
  Function.update_apply _ _ _ _

theorem settled_remove {id j : ObjectId} :
    (p.note s (.remove id)).settled j = if j = id then none else p.settled j :=
  Function.update_apply _ _ _ _

theorem settled_endModify {id j : ObjectId} {rest : List ObjectId} (hid : s.modifying = id :: rest) :
    (p.note s .endModify).settled j =
      if j = id then s.objects.lookup id else p.settled j := by
  rw [Earlier.note, hid]
  exact Function.update_apply _ _ _ _

theorem lookup_insert_eq {objects : Finmap fun _ : ObjectId => Account Key Address}
    {id j : ObjectId} {a : Account Key Address} :
    (objects.insert id a).lookup j = if j = id then some a else objects.lookup j := by
  split
  · rename_i h
    rw [h, Finmap.lookup_insert]
  · rename_i h
    exact Finmap.lookup_insert_of_ne _ h

theorem lookup_erase_eq {objects : Finmap fun _ : ObjectId => Account Key Address}
    {id j : ObjectId} :
    (objects.erase id).lookup j = if j = id then none else objects.lookup j := by
  split
  · rename_i h
    rw [h, Finmap.lookup_erase]
  · rename_i h
    exact Finmap.lookup_erase_ne h

theorem Inv.assign (h : Inv address p s) {id : ObjectId} {rest : List ObjectId}
    {a : Account Key Address} (hid : s.modifying = id :: rest) :
    Inv address (p.note s (.assign a)) { s with objects := s.objects.insert id a } := by
  have hmem : id ∈ s.modifying := hid ▸ List.mem_cons_self
  refine ⟨h.found, h.had, fun j hj => ?_, fun j hj => ?_⟩
  · have hji : j ≠ id := fun heq => hj (heq ▸ hmem)
    rw [lookup_insert_eq, if_neg hji]
    exact h.settled j hj
  · obtain ⟨hobject, hrest⟩ := h.modifying j hj
    refine ⟨?_, hrest⟩
    rw [lookup_insert_eq]
    split
    · exact ⟨a, rfl⟩
    · exact hobject

variable [DecidableEq Key] [DecidableEq Address]

theorem step_cases (h : s.step address e = some s') :
    (∃ id a, e = .insert id a ∧ id ∉ s.objects ∧ s' = ⟨s.objects.insert id a,
      (accountMemberIndex address).objectInserted id a s.index, s.modifying⟩) ∨
    (∃ id a, e = .remove id ∧ s.objects.lookup id = some a ∧ id ∉ s.modifying ∧
      s' = ⟨s.objects.erase id, (accountMemberIndex address).objectRemoved id a s.index,
        s.modifying⟩) ∨
    (∃ id a, e = .beginModify id ∧ s.objects.lookup id = some a ∧
      s' = ⟨s.objects, (accountMemberIndex address).aboutToModify id a s.index,
        id :: s.modifying⟩) ∨
    (∃ id rest a, e = .assign a ∧ s.modifying = id :: rest ∧
      s' = { s with objects := s.objects.insert id a }) ∨
    ∃ id rest a, e = .endModify ∧ s.modifying = id :: rest ∧ s.objects.lookup id = some a ∧
      s' = ⟨s.objects, (accountMemberIndex address).objectModified id a s.index, rest⟩ := by
  cases e with
  | insert id a =>
    simp only [State.step] at h
    split at h
    · cases h
    · exact Or.inl ⟨id, a, rfl, ‹_›, (Option.some.inj h).symm⟩
  | remove id =>
    simp only [State.step] at h
    split at h
    · split at h
      · cases h
      · exact Or.inr (Or.inl ⟨id, _, rfl, ‹_›, ‹_›, (Option.some.inj h).symm⟩)
    · cases h
  | beginModify id =>
    simp only [State.step] at h
    split at h
    · exact Or.inr (Or.inr (Or.inl ⟨id, _, rfl, ‹_›, (Option.some.inj h).symm⟩))
    · cases h
  | assign a =>
    simp only [State.step] at h
    split at h
    · exact Or.inr (Or.inr (Or.inr (Or.inl ⟨_, _, a, rfl, ‹_›, (Option.some.inj h).symm⟩)))
    · cases h
  | endModify =>
    simp only [State.step] at h
    split at h
    · split at h
      · exact Or.inr (Or.inr (Or.inr (Or.inr ⟨_, _, _, rfl, ‹_›, ‹_›, (Option.some.inj h).symm⟩)))
      · cases h
    · cases h

theorem Inv.foundRight_iff (h : Inv address p s) {id : ObjectId} {now : Account Key Address}
    (hid : id ∈ s.modifying) (hnow : s.objects.lookup id = some now) :
    FoundRight address ((accountMemberIndex address).objectModified id now s.index) id (some now) ↔
      ∀ begun old now', p.begun = some begun → p.settled id = some old →
        s.objects.lookup id = some now' → ∀ e, (begun.lists address e ↔ now'.lists address e) →
          (old.lists address e ↔ now'.lists address e) := by
  obtain ⟨-, ⟨old, hold⟩, begun, hbegun⟩ := h.modifying id hid
  have hfound : ∀ e, id ∈ s.index.find e ↔ old.lists address e := fun e => by
    rw [h.found id e, hold]
    exact ⟨fun ⟨a, ha, hl⟩ => Option.some.inj ha ▸ hl, fun hl => ⟨old, rfl, hl⟩⟩
  have hright : ∀ e, (∃ a, some now = some a ∧ a.lists address e) ↔ now.lists address e := fun e =>
    ⟨fun ⟨a, ha, hl⟩ => Option.some.inj ha ▸ hl, fun hl => ⟨now, rfl, hl⟩⟩
  constructor
  · intro hfr begun' old' now' hbegun' hold' hnow' e hsame
    obtain rfl := Option.some.inj (hnow.symm.trans hnow')
    obtain rfl := Option.some.inj (hold.symm.trans hold')
    have he := hfr e
    rw [mem_find_modified, hright, hfound, h.had begun' hbegun' e] at he
    tauto
  · intro hharmless e
    have hsame := hharmless begun old now hbegun hold hnow e
    rw [mem_find_modified, hright, hfound, h.had begun hbegun e]
    tauto

theorem Inv.insert (h : Inv address p s) {id : ObjectId} {a : Account Key Address}
    (hid : id ∉ s.objects) : Inv address (p.note s (.insert id a))
      ⟨s.objects.insert id a, (accountMemberIndex address).objectInserted id a s.index,
        s.modifying⟩ := by
  have hnone : s.objects.lookup id = none := Finmap.lookup_eq_none.mpr hid
  have hout : id ∉ s.modifying := fun hmem => by
    obtain ⟨⟨b, hb⟩, -⟩ := h.modifying id hmem
    rw [hnone] at hb
    cases hb
  refine ⟨fun j e => ?_, fun begun hbegun e => had_inserted.trans (h.had begun hbegun e),
    fun j hj => ?_, fun j hj => ?_⟩
  · rw [mem_find_inserted, h.found j e, settled_insert]
    by_cases hj : j = id
    · subst hj
      rw [if_pos rfl, h.settled j hout, hnone]
      simp
    · rw [if_neg hj]
      simp [hj]
  · rw [settled_insert, lookup_insert_eq, h.settled j hj]
  · have hji : j ≠ id := fun heq => hout (heq ▸ hj)
    rw [settled_insert, lookup_insert_eq, if_neg hji, if_neg hji]
    exact h.modifying j hj

theorem Inv.remove (h : Inv address p s) {id : ObjectId} {a : Account Key Address}
    (ha : s.objects.lookup id = some a) (hout : id ∉ s.modifying) :
    Inv address (p.note s (.remove id))
      ⟨s.objects.erase id, (accountMemberIndex address).objectRemoved id a s.index,
        s.modifying⟩ := by
  refine ⟨fun j e => ?_, fun begun hbegun e => had_removed.trans (h.had begun hbegun e),
    fun j hj => ?_, fun j hj => ?_⟩
  · rw [mem_find_removed, h.found j e, settled_remove]
    by_cases hj : j = id
    · subst hj
      rw [if_pos rfl, h.settled j hout, ha]
      simp
    · rw [if_neg hj]
      simp [hj]
  · rw [settled_remove, lookup_erase_eq, h.settled j hj]
  · have hji : j ≠ id := fun heq => hout (heq ▸ hj)
    rw [settled_remove, lookup_erase_eq, if_neg hji, if_neg hji]
    exact h.modifying j hj

theorem Inv.beginModify (h : Inv address p s) {id : ObjectId} {a : Account Key Address}
    (ha : s.objects.lookup id = some a) : Inv address (p.note s (.beginModify id))
      ⟨s.objects, (accountMemberIndex address).aboutToModify id a s.index, id :: s.modifying⟩ := by
  have hsettled : ∃ old, p.settled id = some old := by
    by_cases hmem : id ∈ s.modifying
    · exact (h.modifying id hmem).2.1
    · exact ⟨a, (h.settled id hmem).trans ha⟩
  refine ⟨fun j e => ?_, fun begun hbegun e => ?_, fun j hj => ?_, fun j hj => ?_⟩
  · rw [find_aboutToModify]
    exact h.found j e
  · obtain rfl := Option.some.inj (ha.symm.trans hbegun)
    exact had_aboutToModify id
  · exact h.settled j fun hmem => hj (List.mem_cons_of_mem _ hmem)
  · rcases List.mem_cons.mp hj with rfl | hmem
    · exact ⟨⟨a, ha⟩, hsettled, a, ha⟩
    · obtain ⟨hobject, hold, -⟩ := h.modifying j hmem
      exact ⟨hobject, hold, a, ha⟩

theorem Inv.endModify (h : Inv address p s) {id : ObjectId} {rest : List ObjectId}
    {a : Account Key Address} (hid : s.modifying = id :: rest) (ha : s.objects.lookup id = some a)
    (hharmless : Harmless address p s .endModify) : Inv address (p.note s .endModify)
      ⟨s.objects, (accountMemberIndex address).objectModified id a s.index, rest⟩ := by
  have hmem : id ∈ s.modifying := hid ▸ List.mem_cons_self
  have hbegun : (p.note s .endModify).begun = p.begun := by
    rw [Earlier.note, hid]
  have hright := (h.foundRight_iff hmem ha).mpr (hharmless id (by rw [hid]; rfl))
  refine ⟨fun j e => ?_, fun begun hb e => had_modified.trans (h.had begun (hbegun ▸ hb) e),
    fun j hj => ?_, fun j hj => ?_⟩
  · rw [settled_endModify hid]
    by_cases hji : j = id
    · subst hji
      rw [if_pos rfl, ha]
      exact hright e
    · rw [if_neg hji, mem_find_modified, ← h.found j e]
      simp [hji]
  · rw [settled_endModify hid]
    by_cases hji : j = id
    · rw [if_pos hji, hji]
    · rw [if_neg hji]
      exact h.settled j (by rw [hid]; exact fun hmem' => (List.mem_cons.mp hmem').elim hji hj)
  · obtain ⟨hobject, hold, hlast⟩ := h.modifying j (hid ▸ List.mem_cons_of_mem _ hj)
    refine ⟨hobject, ?_, hbegun ▸ hlast⟩
    rw [settled_endModify hid]
    split
    · exact ⟨a, ha⟩
    · exact hold

theorem Inv.step (h : Inv address p s) (hstep : s.step address e = some s')
    (hharmless : Harmless address p s e) : Inv address (p.note s e) s' := by
  rcases step_cases hstep with ⟨id, a, rfl, hid, rfl⟩ | ⟨id, a, rfl, ha, hout, rfl⟩ |
    ⟨id, a, rfl, ha, rfl⟩ | ⟨id, rest, a, rfl, hid, rfl⟩ | ⟨id, rest, a, rfl, hid, ha, rfl⟩
  · exact h.insert hid
  · exact h.remove ha hout
  · exact h.beginModify ha
  · exact h.assign hid
  · exact h.endModify hid ha hharmless

theorem Inv.rightAfter_iff (h : Inv address p s) (hstep : s.step address e = some s') :
    RightAfter address e s s' ↔ Harmless address p s e := by
  constructor
  · intro hright
    rcases step_cases hstep with ⟨id, a, rfl, -⟩ | ⟨id, a, rfl, -⟩ | ⟨id, a, rfl, -⟩ |
      ⟨id, rest, a, rfl, -⟩ | ⟨id, rest, a, rfl, hid, ha, rfl⟩
    iterate 4 exact trivial
    intro j hj
    obtain rfl : id = j := by
      rw [hid] at hj
      exact Option.some.inj hj
    have hended := hright.ended rfl id hj
    rw [show (⟨s.objects, _, rest⟩ : State Key Address).objects.lookup id = some a from ha] at hended
    exact (h.foundRight_iff (hid ▸ List.mem_cons_self) ha).mp hended
  · intro hharmless
    have hnext := h.step hstep hharmless
    refine ⟨fun id hid e => ?_, ?_⟩
    · rw [← hnext.settled id hid]
      exact hnext.found id e
    · rintro rfl j hj
      rcases step_cases hstep with ⟨_, _, heq, -⟩ | ⟨_, _, heq, -⟩ | ⟨_, _, heq, -⟩ |
        ⟨_, _, _, heq, -⟩ | ⟨id, rest, a, -, hid, ha, rfl⟩
      iterate 4 cases heq
      obtain rfl : id = j := by
        rw [hid] at hj
        exact Option.some.inj hj
      rw [show (⟨s.objects, _, rest⟩ : State Key Address).objects.lookup id = some a from ha]
      exact (h.foundRight_iff (hid ▸ List.mem_cons_self) ha).mpr (hharmless id hj)

/-! ### Runs -/

theorem Inv.rightThroughout_iff {events : List (Event Key Address)} : ∀ {p : Earlier Key Address}
    {s : State Key Address}, Inv address p s →
      (RightThroughout address events s ↔ HarmlessThroughout address events p s) := by
  induction events with
  | nil => exact fun _ => Iff.rfl
  | cons e events ih =>
    intro p s h
    constructor
    · intro hright s' hstep
      obtain ⟨hafter, hrest⟩ := hright s' hstep
      have hharmless := (h.rightAfter_iff hstep).mp hafter
      exact ⟨hharmless, (ih (h.step hstep hharmless)).mp hrest⟩
    · intro hall s' hstep
      obtain ⟨hharmless, hrest⟩ := hall s' hstep
      exact ⟨(h.rightAfter_iff hstep).mpr hharmless, (ih (h.step hstep hharmless)).mpr hrest⟩

theorem Inv.run {events : List (Event Key Address)} : ∀ {p : Earlier Key Address}
    {s s' : State Key Address}, Inv address p s → HarmlessThroughout address events p s →
      s.run address events = some s' → ∃ p', Inv address p' s' := by
  induction events with
  | nil =>
    intro p s s' h _ hrun
    obtain rfl := Option.some.inj hrun
    exact ⟨p, h⟩
  | cons e events ih =>
    intro p s s' h hall hrun
    rw [State.run, List.foldlM_cons] at hrun
    obtain ⟨s1, hstep, hrun⟩ := Option.bind_eq_some_iff.mp hrun
    obtain ⟨hharmless, hrest⟩ := hall s1 hstep
    exact ih (h.step hstep hharmless) hrest hrun

/-- The index is right throughout a run if and only if all ends of modifications are harmless.
After such a run, with no modification going on, it finds exactly the accounts that list a
member. -/
theorem member_index_right_iff (address : Key → Address) (events : List (Event Key Address)) :
    (RightThroughout address events State.empty ↔
      HarmlessThroughout address events Earlier.none State.empty) ∧
    (HarmlessThroughout address events Earlier.none State.empty →
      ∀ s, State.empty.run address events = some s → s.modifying = [] →
        Exact address s.objects s.index) := by
  refine ⟨(Inv.empty address).rightThroughout_iff, fun hall s hrun hmodifying => ?_⟩
  obtain ⟨p, hp⟩ := (Inv.empty address).run hall hrun
  exact hp.exact hmodifying

/-! ### Databases -/

theorem accountMemberIndex_mirrors (address : Key → Address) :
    Mirrors (accountMemberIndex address) (fun _ _ => True) (Exact address) where
  equivalence := ⟨fun _ => trivial, fun _ => trivial, fun _ _ => trivial⟩
  inserted {m i id a} h hid j e := by
    rw [mem_find_inserted, h j e, lookup_insert_eq]
    by_cases hj : j = id
    · subst hj
      rw [if_pos rfl, Finmap.lookup_eq_none.mpr hid]
      simp
    · rw [if_neg hj]
      simp [hj]
  removed {m i id a} h ha j e := by
    rw [mem_find_removed, h j e, lookup_erase_eq]
    by_cases hj : j = id
    · subst hj
      rw [if_pos rfl, ha]
      simp
    · rw [if_neg hj]
      simp [hj]
  modified {m i id a b} h ha _ j e := by
    rw [mem_find_modified, find_aboutToModify, had_aboutToModify, h j e, lookup_insert_eq]
    by_cases hj : j = id
    · subst hj
      rw [if_pos rfl, ha]
      simp
      tauto
    · rw [if_neg hj]
      simp [hj]

end

/-! ### A modification within another one -/

def accountSix : ObjectId := ⟨⟨1, 2⟩, 6⟩

/-- An account with these keys in its active authority. -/
def keyed (keys : List Nat) : Account Nat Nat := ⟨⟨[], [], []⟩, ⟨[], keys, []⟩, 0⟩

/-- The function of a modification adds a key, and then it modifies the account again. -/
def addedKey : List (Event Nat Nat) :=
  [.insert accountSix (keyed []), .beginModify accountSix, .assign (keyed [7]),
    .beginModify accountSix, .endModify, .endModify]

/-- The account is not found by the key that it lists. -/
theorem added_key_not_found : ∃ s, State.empty.run (fun k => k) addedKey = some s ∧
    s.modifying = [] ∧
    ¬FoundRight (fun k => k) s.index accountSix (s.objects.lookup accountSix) := by
  have hrun : (State.empty.run (fun k => k) addedKey).any
      (fun s => s.modifying = [] ∧ accountSix ∉ s.index.find (.key 7) ∧
        s.objects.lookup accountSix = some (keyed [7])) = true := by decide +kernel
  cases hs : State.empty.run (fun k => k) addedKey with
  | none =>
    rw [hs] at hrun
    cases hrun
  | some s =>
    rw [hs] at hrun
    obtain ⟨hmodifying, hfind, hlookup⟩ := of_decide_eq_true hrun
    refine ⟨s, rfl, hmodifying, fun hright => hfind ((hright (.key 7)).mpr ⟨_, hlookup, ?_⟩)⟩
    exact Or.inr (Or.inl (List.mem_singleton_self 7))

end Nestchain.Accounts.MemberIndex
