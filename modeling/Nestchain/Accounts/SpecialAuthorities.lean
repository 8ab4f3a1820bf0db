import Nestchain.Lib.Table
import Nestchain.Protocol.Authority

/-! The registry of the accounts with a special authority, which maintenance goes through to set the
authorities of these accounts by their top holders.  Creation adds an entry for an extension that is
given; an update adds or removes it by comparing the account before and after.  The other fields of
accounts, and the checks of the operations that do not touch the registry, are left out; an
operation says whether it passes them. -/

namespace Nestchain.Accounts

open Nestchain.Lib Nestchain.Protocol

inductive SpecialAuthority where
  | noSpecialAuthority
  | topHolders (asset : Nat) (numTopHolders : Nat)
deriving DecidableEq

/-- `account_object` -/
structure Account where
  owner : Authority
  active : Authority
  ownerSpecialAuthority : SpecialAuthority
  activeSpecialAuthority : SpecialAuthority
  topNControlFlags : Nat

/-- `has_special_authority` -/
def Account.hasSpecialAuthority (a : Account) : Bool :=
  a.ownerSpecialAuthority ≠ .noSpecialAuthority ∨ a.activeSpecialAuthority ≠ .noSpecialAuthority

/-- The accounts, and `special_authority_index` with the account of each object. -/
structure State where
  accounts : Table Account
  specialAuthorities : Table AccountId

def State.empty : State := ⟨.empty, .empty⟩

/-- `account_create_operation` with the extensions. -/
structure AccountCreate where
  owner : Authority
  active : Authority
  ownerSpecialAuthority : Option SpecialAuthority
  activeSpecialAuthority : Option SpecialAuthority
  passes : Bool

/-- `account_update_operation` with the extensions. -/
structure AccountUpdate where
  account : AccountId
  owner : Option Authority
  active : Option Authority
  ownerSpecialAuthority : Option SpecialAuthority
  activeSpecialAuthority : Option SpecialAuthority
  passes : Bool

/-- Why an operation has no effect: a check fails, the account is not there, the index has an entry
for the account already, or the entry to remove is not there and its reference is followed all the
same. -/
inductive Refusal where
  | check
  | noAccount
  | duplicateEntry
  | missingEntry
deriving DecidableEq

/-- `by_account` -/
def entryOf (t : Table AccountId) (a : AccountId) : Option (Nat × AccountId) :=
  t.findBy fun b => b = a

/-- `create<special_authority_object>` -/
def createEntry (t : Table AccountId) (a : AccountId) : Except Refusal (Table AccountId) :=
  match entryOf t a with
  | none => .ok (t.create a)
  | some _ => .error .duplicateEntry

def removeEntry (t : Table AccountId) (a : AccountId) : Except Refusal (Table AccountId) :=
  match entryOf t a with
  | none => .error .missingEntry
  | some (id, _) => .ok (t.remove id)

def AccountCreate.account (o : AccountCreate) : Account where
  owner := o.owner
  active := o.active
  ownerSpecialAuthority := o.ownerSpecialAuthority.getD .noSpecialAuthority
  activeSpecialAuthority := o.activeSpecialAuthority.getD .noSpecialAuthority
  topNControlFlags := 0

/-- `account_create_evaluator` -/
def applyCreate (o : AccountCreate) (s : State) : Except Refusal State :=
  if o.passes then
    let accounts := s.accounts.create o.account
    if o.ownerSpecialAuthority.isSome || o.activeSpecialAuthority.isSome then
      (createEntry s.specialAuthorities s.accounts.next).map fun t => ⟨accounts, t⟩
    else .ok ⟨accounts, s.specialAuthorities⟩
  else .error .check

def AccountUpdate.update (o : AccountUpdate) (a : Account) : Account where
  owner := o.owner.getD a.owner
  active := o.active.getD a.active
  ownerSpecialAuthority := o.ownerSpecialAuthority.getD a.ownerSpecialAuthority
  activeSpecialAuthority := o.activeSpecialAuthority.getD a.activeSpecialAuthority
  topNControlFlags :=
    if o.owner.isSome || o.active.isSome || o.ownerSpecialAuthority.isSome ||
      o.activeSpecialAuthority.isSome then 0 else a.topNControlFlags

/-- `account_update_evaluator` -/
def applyUpdate (o : AccountUpdate) (s : State) : Except Refusal State :=
  if o.passes then
    match s.accounts.find o.account with
    | none => .error .noAccount
    | some a =>
      let saBefore := a.hasSpecialAuthority
      let saAfter := (o.update a).hasSpecialAuthority
      let accounts := s.accounts.set o.account (o.update a)
      if saBefore && !saAfter then
        (removeEntry s.specialAuthorities o.account).map fun t => ⟨accounts, t⟩
      else if !saBefore && saAfter then
        (createEntry s.specialAuthorities o.account).map fun t => ⟨accounts, t⟩
      else .ok ⟨accounts, s.specialAuthorities⟩
  else .error .check

/-- The accounts that `visit_special_authorities` looks at. -/
def State.visited (s : State) : List AccountId := s.specialAuthorities.rows.map Prod.snd

/-- What `update_top_n_authorities` does for the owner authority of an account, with the authority
that the holders of the asset make up, if any. -/
def updateTopNOwner (holders : AccountId → SpecialAuthority → Option Authority) (id : AccountId)
    (a : Account) : Account :=
  match a.ownerSpecialAuthority, holders id a.ownerSpecialAuthority with
  | .topHolders _ _, some auth => { a with owner := auth, topNControlFlags :=
    a.topNControlFlags ||| 1 }
  | _, _ => a

def updateTopNActive (holders : AccountId → SpecialAuthority → Option Authority) (id : AccountId)
    (a : Account) : Account :=
  match a.activeSpecialAuthority, holders id a.activeSpecialAuthority with
  | .topHolders _ _, some auth => { a with active := auth, topNControlFlags :=
    a.topNControlFlags ||| 2 }
  | _, _ => a

def updateTopNAuthority (holders : AccountId → SpecialAuthority → Option Authority) (id : AccountId)
    (a : Account) : Account :=
  updateTopNActive holders id (updateTopNOwner holders id a)

/-- `update_top_n_authorities` -/
def updateTopNAuthorities (holders : AccountId → SpecialAuthority → Option Authority) (s : State) :
    State :=
  { s with
    accounts := s.visited.foldl (fun t id =>
      match t.find id with
      | some a => t.set id (updateTopNAuthority holders id a)
      | none => t) s.accounts }

inductive AccountEvent where
  | create (o : AccountCreate)
  | update (o : AccountUpdate)
  | maintain (holders : AccountId → SpecialAuthority → Option Authority)

/-- An operation that is refused leaves the state as it is. -/
def step (s : State) : AccountEvent → State
  | .create o => (applyCreate o s).toOption.getD s
  | .update o => (applyUpdate o s).toOption.getD s
  | .maintain holders => updateTopNAuthorities holders s

def runEvents (events : List AccountEvent) : State := events.foldl step .empty

def State.Special (s : State) (id : AccountId) : Prop :=
  ∃ a, s.accounts.find id = some a ∧ a.hasSpecialAuthority = true

/-- The table has one entry for each account of a kind, and no other. -/
structure Lists (t : Table AccountId) (P : AccountId → Prop) : Prop where
  entry : ∀ id, P id → ∃ k, t.find k = some id
  unique : ∀ k k' id, t.find k = some id → t.find k' = some id → k = k'
  sound : ∀ k id, t.find k = some id → P id

/-- There is one entry for each account with a special authority, and no other. -/
def RegistryRight (s : State) : Prop := Lists s.specialAuthorities s.Special

/-- A creation with an extension gives a special authority. -/
def AccountCreate.GivesAuthority (o : AccountCreate) : Prop :=
  o.ownerSpecialAuthority.isSome = true ∨ o.activeSpecialAuthority.isSome = true →
    o.account.hasSpecialAuthority = true

/-- Every creation of a run that passes the other checks gives a special authority with an
extension. -/
def CreationsGiveAuthority (events : List AccountEvent) : Prop :=
  ∀ o, .create o ∈ events → o.passes = true → o.GivesAuthority

/-! ### Entries -/

section

variable {t : Table AccountId} {a : AccountId} {P Q : AccountId → Prop} {s : State}

theorem Lists.congr (h : Lists t P) (hPQ : ∀ id, P id ↔ Q id) : Lists t Q :=
  ⟨fun id hid => h.entry id ((hPQ id).mpr hid), h.unique, fun k id hk =>
    (hPQ id).mp (h.sound k id hk)⟩

theorem Lists.create (h : Lists t P) (ha : ¬P a) : Lists (t.create a) fun id => P id ∨ id = a := by
  refine ⟨fun id hid => ?_, fun k k' id hk hk' => ?_, fun k id hk => ?_⟩
  · rcases hid with hid | rfl
    · obtain ⟨k, hk⟩ := h.entry id hid
      exact ⟨k, Table.find_create_iff.mpr (Or.inl hk)⟩
    · exact ⟨t.next, Table.find_create_self t id⟩
  · rcases Table.find_create_iff.mp hk with hold | ⟨hnew, heq⟩
    · rcases Table.find_create_iff.mp hk' with hold' | ⟨-, heq'⟩
      · exact h.unique k k' id hold hold'
      · exact absurd (heq' ▸ h.sound k id hold) ha
    · rcases Table.find_create_iff.mp hk' with hold' | ⟨hnew', -⟩
      · exact absurd (heq ▸ h.sound k' id hold') ha
      · exact hnew.trans hnew'.symm
  · exact (Table.find_create_iff.mp hk).imp (h.sound k id) fun h => h.2

theorem Lists.remove (h : Lists t P) {k : Nat} (hk : t.find k = some a) :
    Lists (t.remove k) fun id => P id ∧ id ≠ a := by
  refine ⟨fun id hid => ?_, fun i j id hi hj => ?_, fun i id hi => ?_⟩
  · obtain ⟨j, hj⟩ := h.entry id hid.1
    refine ⟨j, Table.find_remove_iff.mpr ⟨fun heq => ?_, hj⟩⟩
    subst heq
    exact hid.2 (Option.some.inj (hj.symm.trans hk))
  · exact h.unique i j id (Table.find_remove_iff.mp hi).2 (Table.find_remove_iff.mp hj).2
  · obtain ⟨hne, hi⟩ := Table.find_remove_iff.mp hi
    refine ⟨h.sound i id hi, fun heq => ?_⟩
    subst heq
    exact hne (h.unique i k id hi hk)

theorem entryOf_eq_none : entryOf t a = none ↔ ∀ k, t.find k ≠ some a := by
  constructor
  · intro h k hk
    exact Table.findBy_none h hk (decide_eq_true rfl)
  · intro h
    cases hentry : entryOf t a with
    | none => rfl
    | some x =>
      obtain ⟨k, b⟩ := x
      obtain ⟨hk, hb⟩ := Table.findBy_some hentry
      obtain rfl := of_decide_eq_true hb
      exact absurd hk (h k)

theorem Lists.createEntry (h : Lists t P) (ha : ¬P a) : createEntry t a = .ok (t.create a) := by
  unfold Accounts.createEntry
  rw [entryOf_eq_none.mpr fun k hk => ha (h.sound k a hk)]

theorem Lists.removeEntry (h : Lists t P) (ha : P a) :
    ∃ k, t.find k = some a ∧ removeEntry t a = .ok (t.remove k) := by
  unfold Accounts.removeEntry
  cases hentry : entryOf t a with
  | none =>
    obtain ⟨k, hk⟩ := h.entry a ha
    exact absurd hk (entryOf_eq_none.mp hentry k)
  | some x =>
    obtain ⟨k, b⟩ := x
    obtain ⟨hk, hb⟩ := Table.findBy_some hentry
    obtain rfl := of_decide_eq_true hb
    exact ⟨k, hk, rfl⟩

/-! ### The operations -/

theorem special_create (s : State) (acct : Account) (t : Table AccountId) (id : AccountId) :
    (⟨s.accounts.create acct, t⟩ : State).Special id ↔
      s.Special id ∨ id = s.accounts.next ∧ acct.hasSpecialAuthority = true := by
  constructor
  · rintro ⟨x, hx, hsp⟩
    rcases Table.find_create_iff.mp hx with hx | ⟨rfl, rfl⟩
    · exact Or.inl ⟨x, hx, hsp⟩
    · exact Or.inr ⟨rfl, hsp⟩
  · rintro (⟨x, hx, hsp⟩ | ⟨rfl, hsp⟩)
    · exact ⟨x, Table.find_create_iff.mpr (Or.inl hx), hsp⟩
    · exact ⟨acct, Table.find_create_self _ _, hsp⟩

theorem special_set {id : AccountId} {x : Account} (hx : s.accounts.find id = some x)
    (acct : Account)
    (t : Table AccountId) (j : AccountId) :
    (⟨s.accounts.set id acct, t⟩ : State).Special j ↔
      (j = id ∧ acct.hasSpecialAuthority = true) ∨ (j ≠ id ∧ s.Special j) := by
  constructor
  · rintro ⟨y, hy, hsp⟩
    rcases (Table.find_set_iff hx).mp hy with ⟨rfl, rfl⟩ | ⟨hne, hy⟩
    · exact Or.inl ⟨rfl, hsp⟩
    · exact Or.inr ⟨hne, y, hy, hsp⟩
  · rintro (⟨rfl, hsp⟩ | ⟨hne, y, hy, hsp⟩)
    · exact ⟨acct, Table.find_set_self hx, hsp⟩
    · exact ⟨y, (Table.find_set_iff hx).mpr (Or.inr ⟨hne, hy⟩), hsp⟩

theorem special_next (s : State) : ¬s.Special s.accounts.next := by
  rintro ⟨x, hx, -⟩
  exact absurd (Table.find_lt hx) (Nat.lt_irrefl _)

theorem RegistryRight.create_iff (h : RegistryRight s) {o : AccountCreate}
    (hpass : o.passes = true) :
    RegistryRight (step s (.create o)) ↔ o.GivesAuthority := by
  have hnext := special_next s
  by_cases hext : (o.ownerSpecialAuthority.isSome || o.activeSpecialAuthority.isSome) = true
  · have hstep : step s (.create o) =
        ⟨s.accounts.create o.account, s.specialAuthorities.create s.accounts.next⟩ := by
      rw [step, applyCreate, if_pos hpass]
      simp only
      rw [if_pos hext, Lists.createEntry h hnext]
      rfl
    rw [hstep]
    rw [Bool.or_eq_true] at hext
    constructor
    · intro hright _
      have hsp := hright.sound _ _ (Table.find_create_self s.specialAuthorities s.accounts.next)
      rcases (special_create s _ _ _).mp hsp with hold | ⟨-, hnew⟩
      · exact absurd hold hnext
      · exact hnew
    · intro hgives
      refine (Lists.create h hnext).congr fun id => ?_
      rw [special_create]
      simp [hgives hext]
  · have hstep : step s (.create o) = ⟨s.accounts.create o.account, s.specialAuthorities⟩ := by
      rw [step, applyCreate, if_pos hpass]
      simp only
      rw [if_neg hext]
      rfl
    rw [Bool.or_eq_true] at hext
    have hnone : o.account.hasSpecialAuthority = false := by
      obtain ⟨howner, hactive⟩ := not_or.mp hext
      rw [Option.not_isSome_iff_eq_none] at howner hactive
      simp [Account.hasSpecialAuthority, AccountCreate.account, howner, hactive]
    rw [hstep]
    refine iff_of_true (h.congr fun id => ?_) fun hgiven => absurd hgiven hext
    rw [special_create]
    simp [hnone]

theorem RegistryRight.update (h : RegistryRight s) {o : AccountUpdate} (hpass : o.passes = true)
    {x : Account} (hx : s.accounts.find o.account = some x) :
    ∃ s', applyUpdate o s = .ok s' ∧ RegistryRight s' := by
  have hspecial : s.Special o.account ↔ x.hasSpecialAuthority = true := by
    constructor
    · rintro ⟨y, hy, hsp⟩
      obtain rfl := Option.some.inj (hx.symm.trans hy)
      exact hsp
    · exact fun hsp => ⟨x, hx, hsp⟩
  unfold applyUpdate
  rw [if_pos hpass, hx]
  simp only
  cases hbefore : x.hasSpecialAuthority with
  | true =>
    cases hafter : (o.update x).hasSpecialAuthority with
    | true =>
      refine ⟨_, rfl, h.congr fun id => ?_⟩
      rw [special_set hx]
      by_cases hid : id = o.account
      · subst hid
        simp [hspecial, hbefore, hafter]
      · simp [hid]
    | false =>
      obtain ⟨k, hk, hremove⟩ := Lists.removeEntry h (hspecial.mpr hbefore)
      rw [if_pos (by simp), hremove]
      refine ⟨_, rfl, (Lists.remove h hk).congr fun id => ?_⟩
      rw [special_set hx]
      by_cases hid : id = o.account
      · subst hid
        simp [hafter]
      · simp [hid]
  | false =>
    have hnot : ¬s.Special o.account := by
      rw [hspecial, hbefore]
      simp
    cases hafter : (o.update x).hasSpecialAuthority with
    | true =>
      rw [if_neg (by simp), if_pos (by simp), Lists.createEntry h hnot]
      refine ⟨_, rfl, (Lists.create h hnot).congr fun id => ?_⟩
      rw [special_set hx]
      by_cases hid : id = o.account
      · subst hid
        simp [hafter]
      · simp [hid]
    | false =>
      refine ⟨_, rfl, h.congr fun id => ?_⟩
      rw [special_set hx]
      by_cases hid : id = o.account
      · subst hid
        simp [hspecial, hbefore, hafter]
      · simp [hid]

theorem step_update_refused {o : AccountUpdate}
    (h : ¬(o.passes = true ∧ ∃ x, s.accounts.find o.account = some x)) :
      step s (.update o) = s := by
  rw [step, applyUpdate]
  by_cases hpass : o.passes = true
  · rw [if_pos hpass]
    cases hx : s.accounts.find o.account with
    | none => rfl
    | some x => exact absurd ⟨hpass, x, hx⟩ h
  · rw [if_neg hpass]
    rfl

theorem hasSpecialAuthority_updateTopN (holders : AccountId → SpecialAuthority → Option Authority)
    (id : AccountId) (x : Account) :
    (updateTopNAuthority holders id x).hasSpecialAuthority = x.hasSpecialAuthority := by
  have howner (x : Account) :
      (updateTopNOwner holders id x).hasSpecialAuthority = x.hasSpecialAuthority := by
    unfold updateTopNOwner
    split <;> rfl
  have hactive (x : Account) :
      (updateTopNActive holders id x).hasSpecialAuthority = x.hasSpecialAuthority := by
    unfold updateTopNActive
    split <;> rfl
  rw [updateTopNAuthority, hactive, howner]

theorem special_foldl_updateTopN (holders : AccountId → SpecialAuthority → Option Authority)
    (t : Table AccountId) (ids : List AccountId) (accounts : Table Account) (id : AccountId) :
    (⟨ids.foldl (fun t id => match t.find id with
      | some x => t.set id (updateTopNAuthority holders id x)
      | none => t) accounts, t⟩ : State).Special id ↔ (⟨accounts, t⟩ : State).Special id := by
  induction ids generalizing accounts with
  | nil => rfl
  | cons j rest ih =>
    rw [List.foldl_cons, ih]
    cases hx : accounts.find j with
    | none => rfl
    | some x =>
      simp only
      rw [special_set (s := ⟨accounts, t⟩) hx, hasSpecialAuthority_updateTopN]
      by_cases hid : id = j
      · subst hid
        simp [State.Special, hx]
      · simp [hid]

theorem RegistryRight.maintain (h : RegistryRight s)
    (holders : AccountId → SpecialAuthority → Option Authority) :
    RegistryRight (step s (.maintain holders)) :=
  h.congr fun id => (special_foldl_updateTopN holders s.specialAuthorities s.visited s.accounts id).symm

theorem RegistryRight.step_update (h : RegistryRight s) (o : AccountUpdate) :
    RegistryRight (step s (.update o)) := by
  by_cases hfits : o.passes = true ∧ ∃ x, s.accounts.find o.account = some x
  · obtain ⟨hpass, x, hx⟩ := hfits
    obtain ⟨s', hs', hright⟩ := h.update hpass hx
    rw [step, hs']
    exact hright
  · rw [step_update_refused hfits]
    exact h

/-! ### Runs -/

theorem registryRight_empty : RegistryRight .empty := by
  refine ⟨?_, ?_, ?_⟩
  · rintro id ⟨x, hx, -⟩
    cases hx
  · intro k k' id hk
    cases hk
  · intro k id hk
    cases hk

theorem registryRight_run (hs : RegistryRight s) (events : List AccountEvent) :
    (∀ earlier, earlier <+: events → RegistryRight (earlier.foldl step s)) ↔
      CreationsGiveAuthority events := by
  induction events generalizing s with
  | nil =>
    refine iff_of_true (fun earlier hearlier => ?_) fun o ho => (nomatch ho)
    rw [List.prefix_nil.mp hearlier]
    exact hs
  | cons e rest ih =>
    -- the step is right exactly when it is no creation of the bad kind
    have hstep : RegistryRight (step s e) ↔ ∀ o, e = .create o → o.passes = true →
      o.GivesAuthority := by
      cases e with
      | create o =>
        by_cases hpass : o.passes = true
        · rw [hs.create_iff hpass]
          exact ⟨fun h _ heq _ => AccountEvent.create.inj heq ▸ h, fun h => h o rfl hpass⟩
        · have hrefused : step s (.create o) = s := by
            rw [step, applyCreate, if_neg hpass]
            rfl
          rw [hrefused]
          exact iff_of_true hs fun _ heq hp => absurd (AccountEvent.create.inj heq ▸ hp) hpass
      | update o => exact iff_of_true (hs.step_update o) fun _ heq => nomatch heq
      | maintain holders => exact iff_of_true (hs.maintain holders) fun _ heq => nomatch heq
    constructor
    · intro hrun o ho hpass
      have hone : RegistryRight (step s e) := hrun [e] ⟨rest, rfl⟩
      rcases List.mem_cons.mp ho with rfl | ho
      · exact hstep.mp hone o rfl hpass
      · refine (ih hone).mp (fun earlier hearlier => ?_) o ho hpass
        exact hrun (e :: earlier) ((List.prefix_cons_inj e).mpr hearlier)
    · intro hgive earlier hearlier
      have hone := hstep.mpr fun o heq hpass => hgive o (heq ▸ List.mem_cons_self) hpass
      rcases List.prefix_cons_iff.mp hearlier with rfl | ⟨t, rfl, ht⟩
      · exact hs
      · exact (ih hone).mpr (fun o ho => hgive o (List.mem_cons_of_mem e ho)) t ht

theorem RegistryRight.visited (h : RegistryRight s) :
    s.visited.Nodup ∧ ∀ id, id ∈ s.visited ↔ s.Special id := by
  constructor
  · refine List.pairwise_map.mpr (s.specialAuthorities.sorted.imp_of_mem fun {r r'} hr hr' hlt heq => ?_)
    have hfirst := h.unique r.1 r'.1 r.2 (Table.find_iff_mem.mpr hr)
      (heq ▸ Table.find_iff_mem.mpr hr')
    omega
  · intro id
    unfold State.visited
    constructor
    · intro hid
      obtain ⟨r, hr, rfl⟩ := List.mem_map.mp hid
      exact h.sound r.1 r.2 (Table.find_iff_mem.mpr hr)
    · intro hid
      obtain ⟨k, hk⟩ := h.entry id hid
      exact List.mem_map.mpr ⟨(k, id), Table.find_iff_mem.mp hk, rfl⟩

/-- The registry is right in every state of a run, no update of an account that is there fails
because of it, and maintenance visits the accounts with a special authority. -/
structure RegistrySound (s : State) : Prop where
  right : RegistryRight s
  update : ∀ o x, o.passes = true → s.accounts.find o.account = some x → ∃ s',
    applyUpdate o s = .ok s'
  visited : s.visited.Nodup ∧ ∀ id, id ∈ s.visited ↔ s.Special id

end

/-- The registry is sound in every state of a run exactly when no creation gives an extension that
holds no special authority alone. -/
theorem special_authority_registry (events : List AccountEvent) :
    (∀ earlier, earlier <+: events → RegistrySound (runEvents earlier)) ↔
      CreationsGiveAuthority events := by
  rw [← registryRight_run registryRight_empty events]
  refine forall₂_congr fun earlier _ => ⟨fun h => h.right, fun h =>
    ⟨h, fun o x hpass hx => ?_, h.visited⟩⟩
  obtain ⟨s', hs', -⟩ := RegistryRight.update h hpass hx
  exact ⟨s', hs'⟩

/-- An account created with an explicit `no_special_authority`, and given its top holders later. -/
def strayCreate : AccountCreate where
  owner := ⟨1, [], [(5, 1)], by decide⟩
  active := ⟨1, [], [(5, 1)], by decide⟩
  ownerSpecialAuthority := some .noSpecialAuthority
  activeSpecialAuthority := none
  passes := true

def giveTopHolders : AccountUpdate where
  account := 0
  owner := none
  active := none
  ownerSpecialAuthority := some (.topHolders 7 3)
  activeSpecialAuthority := none
  passes := true

/-- The entry of the creation is in the way of the update, and maintenance visits an account without
a special authority. -/
theorem stray_entry_stops_update :
    ¬RegistrySound (runEvents [.create strayCreate]) ∧
      (runEvents [.create strayCreate]).visited = [0] ∧
      ((runEvents [.create strayCreate]).accounts.find 0).map Account.hasSpecialAuthority =
        some false ∧
      (applyUpdate giveTopHolders (runEvents [.create strayCreate])).toOption.isNone = true := by
  refine ⟨fun h => ?_, by decide +kernel, by decide +kernel, by decide +kernel⟩
  obtain ⟨s', hs'⟩ := h.update giveTopHolders strayCreate.account rfl rfl
  have hrefused : (applyUpdate giveTopHolders (runEvents [.create strayCreate])).toOption.isNone =
    true := by
    decide +kernel
  rw [hs'] at hrefused
  exact absurd hrefused Bool.false_ne_true

end Nestchain.Accounts
