import Nestchain.Accounts.MemberIndex
import Nestchain.Chain.ObjectClasses
import Nestchain.Proposals.ApprovalIndex

/-! Saving all indexes and opening them again: which objects come back as they were, and what the
two secondary indexes show, which are told of the objects that are loaded as if they were new. -/

namespace Nestchain.Chain

open Db Nestchain.Proposals Accounts.MemberIndex

/-! ### The secondary indexes -/

section

variable {W Key Address K Bytes : Type}

/-- What the secondary indexes read of the values of members. -/
structure Reading (W Key Address : Type) where
  accounts : W → Finset Protocol.AccountId
  authority : W → Authority Key Address
  memoKey : W → Key

/-- The approvals of a proposal; the index reads nothing else. -/
def Reading.proposal (r : Reading W Key Address) (o : Object W) : Proposal Unit where
  expirationTime := 0
  reviewPeriodTime := none
  operations := []
  requiredActiveApprovals := (r.accounts (o "required_active_approvals")).sort (· ≤ ·)
  availableActiveApprovals := r.accounts (o "available_active_approvals")
  requiredOwnerApprovals := (r.accounts (o "required_owner_approvals")).sort (· ≤ ·)
  availableOwnerApprovals := r.accounts (o "available_owner_approvals")
  availableKeyApprovals := ∅
  proposer := 0
  failed := false

/-- The authorities and the memo key of an account. -/
def Reading.account (r : Reading W Key Address) (o : Object W) : Account Key Address where
  owner := r.authority (o "owner")
  active := r.authority (o "active")
  memoKey := r.memoKey (o "options")

structure Secondaries (Key Address : Type) where
  approvals : AccountToProposals
  members : AccountMemberIndex Key Address

/-- `account_member_index` and `required_approval_index` before any object. -/
def Secondaries.empty : Secondaries Key Address := ⟨∅, ⟨.empty, .empty, .empty⟩⟩

variable [DecidableEq Key] [DecidableEq Address]

/-- An index tells its own secondary indexes only. -/
def tellIndex (r : Reading W Key Address) (a : ObjectId) (o : Object W)
    (approvals : Proposal Unit → AccountToProposals → AccountToProposals)
    (members : Account Key Address → AccountMemberIndex Key Address →
      AccountMemberIndex Key Address) (i : Secondaries Key Address) : Secondaries Key Address where
  approvals :=
    if a.index = proposalObject.index then approvals (r.proposal o) i.approvals else i.approvals
  members := if a.index = accountObject.index then members (r.account o) i.members else i.members

def secondaryIndexes (r : Reading W Key Address) (address : Key → Address) :
    SecondaryIndex (Object W) (Secondaries Key Address) where
  objectInserted a o := tellIndex r a o (requiredApprovalIndex.objectInserted a)
    ((accountMemberIndex address).objectInserted a)
  objectRemoved a o := tellIndex r a o (requiredApprovalIndex.objectRemoved a)
    ((accountMemberIndex address).objectRemoved a)
  aboutToModify a o := tellIndex r a o (requiredApprovalIndex.aboutToModify a)
    ((accountMemberIndex address).aboutToModify a)
  objectModified a o := tellIndex r a o (requiredApprovalIndex.objectModified a)
    ((accountMemberIndex address).objectModified a)

/-! ### Saving and opening -/

/-- The unique keys of the containers.  All members that a key is made of are in the lists. -/
def containerSchema (keys : IndexId → List (ObjectId → List W → K)) : Schema (Object W) K where
  uniqueKeys i := (keys i).map fun k a o => k a ((classOf i).reflected.map o)
  isExternalDb _ := false
  external_keys _ h := by cases h

/-- A node that runs: its objects are in the indexes, whose unique keys are unique. -/
structure RunningNode (W Key Address : Type) {K : Type}
    (keys : IndexId → List (ObjectId → List W → K)) where
  store : Store (Object W)
  secondaries : Secondaries Key Address
  unique : store.Unique (containerSchema keys)
  registered : ∀ a ∈ store.objects, a.index ∈ indexes

variable [DecidableEq K] {keys : IndexId → List (ObjectId → List W → K)}

/-- `flush` and then `open` in another process. -/
def RunningNode.reopen (raw : Raw W Bytes) (fresh : IndexId → Object W) (r : Reading W Key Address)
    (address : Key → Address) (x : RunningNode W Key Address keys) :
    Option (Store (Object W) × Secondaries Key Address) :=
  openFiles (containerSchema keys) (packer raw fresh) (secondaryIndexes r address).objectInserted
    Secondaries.empty (x.store.flush (packer raw fresh) indexes)

def memberValues (a : ObjectId) (o : Object W) : List W := (classOf a.index).members.map o

/-- Everything is there again: the objects with all their members, the next ids, and what the two
secondary indexes show. -/
structure RunningNode.RestoredAs (x : RunningNode W Key Address keys)
    (y : Store (Object W) × Secondaries Key Address) : Prop where
  objects : ∀ a, (y.1.objects.lookup a).map (memberValues a) =
    (x.store.objects.lookup a).map (memberValues a)
  nextIds : ∀ i ∈ indexes, y.1.nextId i = x.store.nextId i
  approvals : ∀ account, y.2.approvals.proposalsOf account =
    x.secondaries.approvals.proposalsOf account
  members : ∀ e, y.2.members.find e = x.secondaries.members.find e

/-- The members that no list has are as in a fresh object. -/
def RunningNode.DropsNothing (x : RunningNode W Key Address keys) (fresh : IndexId → Object W) :
    Prop :=
  ∀ a o, x.store.objects.lookup a = some o → ∀ f, (a.index, f) ∈ droppedMembers →
    o f = fresh a.index f

/-- `required_approval_index` has each proposal under the accounts of its approvals of now. -/
def RunningNode.ListsApprovals (x : RunningNode W Key Address keys) (r : Reading W Key Address) :
    Prop :=
  ∀ account a, a ∈ x.secondaries.approvals.proposalsOf account ↔
    ∃ o, x.store.objects.lookup a = some o ∧ a.index = proposalObject.index ∧
      account ∈ (r.proposal o).accounts

/-- `account_member_index` has each account under its members of now. -/
def RunningNode.ListsMembers (x : RunningNode W Key Address keys) (r : Reading W Key Address)
    (address : Key → Address) : Prop :=
  ∀ e a, a ∈ x.secondaries.members.find e ↔
    ∃ o, x.store.objects.lookup a = some o ∧ a.index = accountObject.index ∧
      (r.account o).lists address e

/-! ### What comes back -/

section

variable {raw : Raw W Bytes} {fresh : IndexId → Object W} {r : Reading W Key Address}
  {address : Key → Address} {x : RunningNode W Key Address keys}

omit [DecidableEq K] in
theorem keptBy_restored : (containerSchema keys).KeptBy (restored fresh) := by
  intro a k hk o
  obtain ⟨k, -, rfl⟩ := List.mem_map.mp hk
  refine congrArg (k a) (List.map_congr_left fun f hf => ?_)
  exact if_pos hf

theorem memberValues_restored {a : ObjectId} (ha : a.index ∈ indexes) {o : Object W} :
    memberValues a (restored fresh a o) = memberValues a o ↔
      ∀ f, (a.index, f) ∈ droppedMembers → o f = fresh a.index f := by
  unfold memberValues
  rw [List.map_inj_left]
  constructor
  · intro h f hf
    have hmember := (members_of_dropped _ hf).1
    have hnot := (dropped_iff _ ha f hmember).mpr hf
    rw [← h f hmember, restored, if_neg hnot]
  · intro h f hmember
    unfold restored
    split
    · rfl
    · rename_i hnot
      exact (h f ((dropped_iff _ ha f hmember).mp hnot)).symm

omit [DecidableEq Key] [DecidableEq Address] in
theorem proposal_restored {a : ObjectId} (ha : a.index = proposalObject.index) (o : Object W) :
    r.proposal (restored fresh a o) = r.proposal o := by
  have hsame : ∀ f ∈ (classOf proposalObject.index).reflected, restored fresh a o f = o f :=
    fun f hf => if_pos (ha ▸ hf)
  unfold Reading.proposal
  rw [hsame _ (by decide), hsame _ (by decide), hsame _ (by decide), hsame _ (by decide)]

omit [DecidableEq Key] [DecidableEq Address] in
theorem account_restored {a : ObjectId} (ha : a.index = accountObject.index) (o : Object W) :
    r.account (restored fresh a o) = r.account o := by
  have hsame : ∀ f ∈ (classOf accountObject.index).reflected, restored fresh a o f = o f :=
    fun f hf => if_pos (ha ▸ hf)
  unfold Reading.account
  rw [hsame _ (by decide), hsame _ (by decide), hsame _ (by decide)]

theorem mem_approvals_inserted (account : Protocol.AccountId) (a : ObjectId) (o : Object W)
    (i : Secondaries Key Address) (b : ObjectId) :
    b ∈ ((secondaryIndexes r address).objectInserted a o i).approvals.proposalsOf account ↔
      b ∈ i.approvals.proposalsOf account ∨ (b = a ∧ a.index = proposalObject.index ∧
        account ∈ (r.proposal o).accounts) := by
  show b ∈ (if a.index = proposalObject.index then
    (r.proposal o).approvals.foldl (AccountToProposals.insertEntry a) i.approvals
      else i.approvals).proposalsOf account ↔ _
  split
  · rename_i ha
    rw [AccountToProposals.mem_insertEntries, mem_approvals]
    simp only [ha, true_and]
  · rename_i ha
    simp only [ha, false_and, and_false, or_false]

theorem mem_members_inserted (e : Member Key Address) (a : ObjectId) (o : Object W)
    (i : Secondaries Key Address) (b : ObjectId) :
    b ∈ ((secondaryIndexes r address).objectInserted a o i).members.find e ↔
      b ∈ i.members.find e ∨ (b = a ∧ a.index = accountObject.index ∧
        (r.account o).lists address e) := by
  show b ∈ (if a.index = accountObject.index then
    (accountMemberIndex address).objectInserted a (r.account o) i.members
      else i.members).find e ↔ _
  split
  · rename_i ha
    rw [mem_find_inserted]
    simp only [ha, true_and]
  · rename_i ha
    simp only [ha, false_and, and_false, or_false]

theorem reopen_spec (raw : Raw W Bytes) (fresh : IndexId → Object W) (r : Reading W Key Address)
    (address : Key → Address) (x : RunningNode W Key Address keys) :
    ∃ y, x.reopen raw fresh r address = some y ∧
      (∀ a, y.1.objects.lookup a = (x.store.objects.lookup a).map (restored fresh a)) ∧
      (∀ i ∈ indexes, y.1.nextId i = x.store.nextId i) ∧
      (∀ account a, a ∈ y.2.approvals.proposalsOf account ↔
        ∃ o, x.store.objects.lookup a = some o ∧ a.index = proposalObject.index ∧
          account ∈ (r.proposal o).accounts) ∧
      ∀ e a, a ∈ y.2.members.find e ↔
        ∃ o, x.store.objects.lookup a = some o ∧ a.index = accountObject.index ∧
          (r.account o).lists address e := by
  obtain ⟨y, hy, hobjects, hnext, hindex⟩ := open_flush
    (secondaryIndexes r address).objectInserted (packer_restores raw fresh) keptBy_restored
    x.unique Secondaries.empty nodup_indexes x.registered
  have hids : ∀ a o, x.store.objects.lookup a = some o → a ∈ indexes.flatMap x.store.ids :=
    fun a o ho => List.mem_flatMap.mpr ⟨a.index, x.registered a (mem_of_lookup ho),
      Store.mem_ids.mpr ⟨mem_of_lookup ho, rfl⟩⟩
  refine ⟨y, hy, hobjects, hnext, fun account a => ?_, fun e a => ?_⟩
  · have htold := mem_foldl_tell (secondaryIndexes r address).objectInserted (restored fresh)
      x.store (fun i b => b ∈ i.approvals.proposalsOf account)
      (fun b o => b.index = proposalObject.index ∧ account ∈ (r.proposal o).accounts)
      (mem_approvals_inserted account) (indexes.flatMap x.store.ids) Secondaries.empty a
    rw [hindex]
    refine htold.trans ?_
    constructor
    · rintro (h | ⟨-, o, ho, ha, h⟩)
      · exact absurd h (Finset.notMem_empty _)
      · rw [proposal_restored ha] at h
        exact ⟨o, ho, ha, h⟩
    · rintro ⟨o, ho, ha, h⟩
      refine Or.inr ⟨hids a o ho, o, ho, ha, ?_⟩
      rwa [proposal_restored ha]
  · have htold := mem_foldl_tell (secondaryIndexes r address).objectInserted (restored fresh)
      x.store (fun i b => b ∈ i.members.find e)
      (fun b o => b.index = accountObject.index ∧ (r.account o).lists address e)
      (mem_members_inserted e) (indexes.flatMap x.store.ids) Secondaries.empty a
    rw [hindex]
    refine htold.trans ?_
    constructor
    · rintro (h | ⟨-, o, ho, ha, h⟩)
      · cases e <;> exact absurd h (Finset.notMem_empty _)
      · rw [account_restored ha] at h
        exact ⟨o, ho, ha, h⟩
    · rintro ⟨o, ho, ha, h⟩
      refine Or.inr ⟨hids a o ho, o, ho, ha, ?_⟩
      rwa [account_restored ha]

theorem RunningNode.RestoredAs.listsApprovals {y : Store (Object W) × Secondaries Key Address}
    (h : x.RestoredAs y) (hy : x.reopen raw fresh r address = some y) : x.ListsApprovals r := by
  obtain ⟨z, hz, -, -, happrovals, -⟩ := reopen_spec raw fresh r address x
  obtain rfl := Option.some.inj (hz.symm.trans hy)
  intro account a
  rw [← h.approvals account]
  exact happrovals account a

/-- Saving and opening restores a node if and only if the members that no list has are as in fresh
objects and the secondary indexes have the objects under what is in them now. -/
theorem reopening_restores_iff (raw : Raw W Bytes) (fresh : IndexId → Object W)
    (r : Reading W Key Address) (address : Key → Address) (x : RunningNode W Key Address keys) :
    (∃ y, x.reopen raw fresh r address = some y ∧ x.RestoredAs y) ↔
      x.DropsNothing fresh ∧ x.ListsApprovals r ∧ x.ListsMembers r address := by
  obtain ⟨y, hy, hobjects, hnext, happrovals, hmembers⟩ := reopen_spec raw fresh r address x
  constructor
  · rintro ⟨z, hz, h⟩
    obtain rfl := Option.some.inj (hy.symm.trans hz)
    refine ⟨fun a o ho => ?_, h.listsApprovals hy, fun e a => ?_⟩
    · have hsame := h.objects a
      rw [hobjects a, ho] at hsame
      exact (memberValues_restored (x.registered a (mem_of_lookup ho))).mp
        (Option.some.inj hsame)
    · rw [← h.members e]
      exact hmembers e a
  · rintro ⟨hdrops, hlists, hmembers'⟩
    refine ⟨y, hy, fun a => ?_, hnext, fun account => ?_, fun e => ?_⟩
    · rw [hobjects a]
      cases ho : x.store.objects.lookup a with
      | none => rfl
      | some o =>
        exact congrArg some ((memberValues_restored (x.registered a (mem_of_lookup ho))).mpr
          (hdrops a o ho))
    · ext a
      rw [happrovals account a, hlists account a]
    · ext a
      rw [hmembers e a, hmembers' e a]

end

end

/-! ### An approval before a restart -/

/-- Values that are lists of numbers, packed as they are. -/
def plainRaw : Raw (List Nat) (ObjectId × List (List Nat)) where
  pack a ws := (a, ws)
  unpack _ bytes := some bytes
  unpack_pack _ _ _ := rfl

def plainReading : Reading (List Nat) Nat Nat where
  accounts w := w.toFinset
  authority _ := ⟨[], [], []⟩
  memoKey _ := 0

/-- Account 3 has to approve the proposal, and account 7 does, which may act for it. -/
def approvedByOther : List (Db.Call (Object (List Nat))) :=
  [.op (.create proposalObject.index fun _ f =>
      if f = "required_active_approvals" then [3] else []),
    .op (.modify ⟨proposalObject.index, 0⟩ fun o f =>
      if f = "available_active_approvals" then [7] else o f)]

def approvedRun : Option (IndexedDatabase (Object (List Nat)) (Secondaries Nat Nat)) :=
  IndexedDatabase.run (secondaryIndexes plainReading id)
    (containerSchema fun _ => ([] : List (ObjectId → List (List Nat) → Unit))) .byId
    ⟨⟨⟨∅, fun _ => 0⟩, ⟨0, false, [], 10⟩⟩, .empty⟩ approvedByOther

theorem approval_found_only_after_restart :
    ∃ (y : IndexedDatabase (Object (List Nat)) (Secondaries Nat Nat))
      (x : RunningNode (List Nat) Nat Nat fun _ => ([] : List (ObjectId → List (List Nat) → Unit))),
      approvedRun = some y ∧ x.store = y.db.store ∧ x.secondaries = y.index ∧
        ¬∃ z, x.reopen plainRaw (fun _ _ => []) plainReading id = some z ∧ x.RestoredAs z := by
  have hrun : approvedRun.any (fun y => decide (
      (∀ a ∈ y.db.store.objects.keys, a.index ∈ indexes) ∧
      (y.db.store.objects.lookup ⟨proposalObject.index, 0⟩).any (fun o =>
        decide (7 ∈ (plainReading.proposal o).accounts)) = true ∧
      ⟨proposalObject.index, 0⟩ ∉ y.index.approvals.proposalsOf 7)) = true := by decide +kernel
  obtain ⟨y, hy, hrun⟩ := (Option.any_eq_true _ _).mp hrun
  obtain ⟨hregistered, happroved, hhidden⟩ := of_decide_eq_true hrun
  obtain ⟨o, ho, hmem⟩ := (Option.any_eq_true _ _).mp happroved
  refine ⟨y, ⟨y.db.store, y.index, fun a v hv hconflict => ?_,
    fun a ha => hregistered a (Finmap.mem_keys.mpr ha)⟩, hy, rfl, rfl, ?_⟩
  · obtain ⟨b, -, -, w, -, -, k, hk, -⟩ := hconflict
    cases hk
  · rintro ⟨z, hz, h⟩
    exact hhidden ((h.listsApprovals hz 7 _).mpr ⟨o, ho, rfl, of_decide_eq_true hmem⟩)

end Nestchain.Chain
