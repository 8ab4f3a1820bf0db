import Nestchain.Db.Secondary
import Nestchain.Proposals.Execution

/-! `required_approval_index`, the secondary index that finds the proposals of an account.  It is
told of every modification of a proposal and does nothing then, so it is exact as long as the
modifications keep the accounts of the proposals. -/

namespace Nestchain.Proposals

open Nestchain.Db Nestchain.Protocol

variable {ω : Type}

def proposalIndex : IndexId := ⟨1, 10⟩

/-- `proposal_multi_index_container`: `by_expiration` has the id in its key. -/
def proposalSchema (ω : Type) : Schema (Proposal ω) (Nat × ObjectId) where
  uniqueKeys _ := [fun a p => (p.expirationTime, a)]
  isExternalDb _ := false
  external_keys _ h := by cases h

/-- `_account_to_proposals` -/
abbrev AccountToProposals := Finmap fun _ : AccountId => Finset ObjectId

namespace AccountToProposals

/-- `_account_to_proposals[a].insert( p )` -/
def insertEntry (p : ObjectId) (index : AccountToProposals) (a : AccountId) : AccountToProposals :=
  index.insert a (insert p ((index.lookup a).getD ∅))

/-- `required_approval_index::remove` -/
def removeEntry (p : ObjectId) (index : AccountToProposals) (a : AccountId) : AccountToProposals :=
  match index.lookup a with
  | none => index
  | some proposals =>
    if proposals.erase p = ∅ then index.erase a else index.insert a (proposals.erase p)

/-- The proposals that are found for an account. -/
def proposalsOf (index : AccountToProposals) (a : AccountId) : Finset ObjectId :=
  (index.lookup a).getD ∅

end AccountToProposals

/-- The accounts of the four sets, in the order in which the index goes through them. -/
def Proposal.approvals (p : Proposal ω) : List AccountId :=
  p.requiredActiveApprovals ++ p.requiredOwnerApprovals ++
    p.availableActiveApprovals.sort (· ≤ ·) ++ p.availableOwnerApprovals.sort (· ≤ ·)

/-- The accounts among the required or available approvals. -/
def Proposal.accounts (p : Proposal ω) : Finset AccountId :=
  p.requiredActiveApprovals.toFinset ∪ p.requiredOwnerApprovals.toFinset ∪
    p.availableActiveApprovals ∪ p.availableOwnerApprovals

/-- `required_approval_index` -/
def requiredApprovalIndex : SecondaryIndex (Proposal ω) AccountToProposals where
  objectInserted id p index := p.approvals.foldl (AccountToProposals.insertEntry id) index
  objectRemoved id p index := p.approvals.foldl (AccountToProposals.removeEntry id) index
  aboutToModify _ _ index := index
  objectModified _ _ index := index

/-- Every account is mapped to the proposals in which it appears. -/
def Findable (proposals : Finmap fun _ : ObjectId => Proposal ω) (index : AccountToProposals) :
    Prop :=
  ∀ a id, id ∈ index.proposalsOf a ↔ ∃ p, proposals.lookup id = some p ∧ a ∈ p.accounts

/-! ### The entries of the index -/

theorem mem_approvals {p : Proposal ω} {a : AccountId} : a ∈ p.approvals ↔ a ∈ p.accounts := by
  simp only [Proposal.approvals, Proposal.accounts, List.mem_append, Finset.mem_sort,
    Finset.mem_union,
    List.mem_toFinset]

namespace AccountToProposals

theorem mem_insertEntry {index : AccountToProposals} {p q : ObjectId} {a b : AccountId} :
    q ∈ (insertEntry p index a).proposalsOf b ↔ q ∈ index.proposalsOf b ∨ (q = p ∧ b = a) := by
  unfold insertEntry proposalsOf
  by_cases hb : b = a
  · subst hb
    rw [Finmap.lookup_insert, Option.getD_some, Finset.mem_insert]
    constructor
    · rintro (rfl | hq)
      · exact Or.inr ⟨rfl, rfl⟩
      · exact Or.inl hq
    · rintro (hq | ⟨rfl, -⟩)
      · exact Or.inr hq
      · exact Or.inl rfl
  · rw [Finmap.lookup_insert_of_ne _ hb]
    constructor
    · exact Or.inl
    · rintro (hq | ⟨-, hba⟩)
      · exact hq
      · exact absurd hba hb

theorem mem_removeEntry {index : AccountToProposals} {p q : ObjectId} {a b : AccountId} :
    q ∈ (removeEntry p index a).proposalsOf b ↔ q ∈ index.proposalsOf b ∧ ¬(q = p ∧ b = a) := by
  by_cases hb : b = a
  · subst hb
    have hentry : (removeEntry p index b).proposalsOf b = (index.proposalsOf b).erase p := by
      unfold removeEntry proposalsOf
      split
      · rename_i hnone
        rw [hnone, Option.getD_none, Finset.erase_empty]
      · rename_i proposals hsome
        rw [hsome, Option.getD_some]
        split
        · rename_i hempty
          rw [Finmap.lookup_erase, Option.getD_none, hempty]
        · rw [Finmap.lookup_insert, Option.getD_some]
    rw [hentry, Finset.mem_erase]
    constructor
    · rintro ⟨hne, hq⟩
      exact ⟨hq, fun h => hne h.1⟩
    · rintro ⟨hq, hne⟩
      exact ⟨fun h => hne ⟨h, rfl⟩, hq⟩
  · have hentry : (removeEntry p index a).proposalsOf b = index.proposalsOf b := by
      unfold removeEntry proposalsOf
      split
      · rfl
      · split
        · rw [Finmap.lookup_erase_ne hb]
        · rw [Finmap.lookup_insert_of_ne _ hb]
    rw [hentry]
    constructor
    · intro hq
      exact ⟨hq, fun h => hb h.2⟩
    · exact fun h => h.1

theorem mem_insertEntries {p q : ObjectId} {b : AccountId} (l : List AccountId) :
    ∀ index : AccountToProposals, q ∈ (l.foldl (insertEntry p) index).proposalsOf b ↔
      q ∈ index.proposalsOf b ∨ (q = p ∧ b ∈ l) := by
  induction l with
  | nil =>
    intro index
    simp
  | cons a l ih =>
    intro index
    rw [List.foldl_cons, ih, mem_insertEntry, List.mem_cons]
    tauto

theorem mem_removeEntries {p q : ObjectId} {b : AccountId} (l : List AccountId) :
    ∀ index : AccountToProposals, q ∈ (l.foldl (removeEntry p) index).proposalsOf b ↔
      q ∈ index.proposalsOf b ∧ ¬(q = p ∧ b ∈ l) := by
  induction l with
  | nil =>
    intro index
    simp
  | cons a l ih =>
    intro index
    rw [List.foldl_cons, ih, mem_removeEntry, List.mem_cons]
    tauto

end AccountToProposals

/-! ### The index along a run -/

theorem proposalSchema_plain : (proposalSchema ω).Plain where
  inMemory _ := rfl
  free s a v h := by
    obtain ⟨b, w, -, hne, -, k, hk, heq⟩ := (Store.conflict_iff _).mp h
    obtain rfl := List.mem_singleton.mp hk
    exact hne (Prod.mk.inj heq).2.symm

theorem findable_mirrors :
    Mirrors (requiredApprovalIndex : SecondaryIndex (Proposal ω) AccountToProposals)
      (fun p q => p.accounts = q.accounts) Findable where
  equivalence := ⟨fun _ => rfl, fun h => h.symm, fun h h' => h.trans h'⟩
  inserted {m index id p} h hfresh a b := by
    show b ∈ (p.approvals.foldl (AccountToProposals.insertEntry id) index).proposalsOf a ↔ _
    rw [AccountToProposals.mem_insertEntries, h a b, mem_approvals]
    by_cases hb : b = id
    · subst hb
      rw [Finmap.lookup_insert, Finmap.lookup_eq_none.mpr hfresh]
      simp
    · rw [Finmap.lookup_insert_of_ne _ hb]
      simp [hb]
  removed {m index id p} h hp a b := by
    show b ∈ (p.approvals.foldl (AccountToProposals.removeEntry id) index).proposalsOf a ↔ _
    rw [AccountToProposals.mem_removeEntries, h a b, mem_approvals]
    by_cases hb : b = id
    · subst hb
      rw [Finmap.lookup_erase, hp]
      simp
    · rw [Finmap.lookup_erase_ne hb]
      simp [hb]
  modified {m index id p q} h hp hq a b := by
    show b ∈ index.proposalsOf a ↔ _
    rw [h a b]
    by_cases hb : b = id
    · subst hb
      rw [Finmap.lookup_insert, hp]
      simp [hq]
    · rw [Finmap.lookup_insert_of_ne _ hb]

/-- A database of proposals with the index on them. -/
abbrev ProposalDatabase (ω : Type) := IndexedDatabase (Proposal ω) AccountToProposals

def ProposalDatabase.Exact (x : ProposalDatabase ω) : Prop := Findable x.db.store.objects x.index

def ProposalDatabase.call (ord : IterationOrder (Proposal ω)) (x : ProposalDatabase ω)
    (calls : List (Call (Proposal ω))) : Option (ProposalDatabase ω) :=
  x.run requiredApprovalIndex (proposalSchema ω) ord calls

theorem accounts_of_exact {ord : IterationOrder (Proposal ω)} {x y : ProposalDatabase ω}
    {id : ObjectId}
    {f : Proposal ω → Proposal ω} {p : Proposal ω} (hx : x.Exact)
    (hp : x.db.store.objects.lookup id = some p)
    (hy : x.perform requiredApprovalIndex (proposalSchema ω) ord (.op (.modify id f)) = some y)
    (hexact : y.Exact) : p.accounts = (f p).accounts := by
  obtain ⟨db, hdb, rfl⟩ := Option.map_eq_some_iff.mp hy
  have hdb : x.db.exec (proposalSchema ω) (.modify id f) = some db := hdb
  cases ObjectDatabase.exec_executed hdb with
  | removed hop hv =>
    rcases hop with hop | hop
    · cases hop
    · cases hop
  | @modified id f q hq hc =>
    obtain rfl := Option.some.inj (hq.symm.trans hp)
    have hindex : requiredApprovalIndex.after (proposalSchema ω) ord x (.op (.modify id f)) =
      x.index := by
      simp only [SecondaryIndex.after, SecondaryIndex.afterOp, hq]
      rfl
    ext a
    have hbefore := hx a id
    have hafter : id ∈ (requiredApprovalIndex.after (proposalSchema ω) ord x
        (.op (.modify id f))).proposalsOf a ↔
        ∃ p, (x.db.store.objects.insert id (f q)).lookup id = some p ∧ a ∈ p.accounts := hexact a id
    rw [hindex, hbefore, Finmap.lookup_insert, hq] at hafter
    simpa only [Option.some.injEq, exists_eq_left'] using hafter

/-- The index maps every account to exactly the proposals in which it appears in every state of a
run of insertions, modifications, removals, sessions and undos, if and only if every modification
keeps the accounts of its proposal. -/
theorem proposals_findable_iff (ord : IterationOrder (Proposal ω)) (x y : ProposalDatabase ω)
    (calls : List (Call (Proposal ω))) (hwf : x.db.store.WellFormed (proposalSchema ω))
    (hstack : x.db.undoDb.stack = []) (hexact : x.Exact) (hrun : x.call ord calls = some y) :
    (∀ before after z, calls = before ++ after → x.call ord before = some z → z.Exact) ↔
    (∀ before id f after z p, calls = before ++ .op (.modify id f) :: after →
      x.call ord before = some z → z.db.store.objects.lookup id = some p →
      p.accounts = (f p).accounts) := by
  constructor
  · intro hall before id f after z p hcalls hz hp
    have hsplit : calls = (before ++ [.op (.modify id f)]) ++ after := by
      rw [hcalls, List.append_assoc, List.singleton_append]
    -- the state behind the modification
    obtain ⟨w, hw⟩ : ∃ w, x.call ord (before ++ [.op (.modify id f)]) = some w := by
      have hrun : x.run requiredApprovalIndex (proposalSchema ω) ord calls = some y := hrun
      rw [hsplit, IndexedDatabase.run_append] at hrun
      obtain ⟨w, hw, -⟩ := Option.bind_eq_some_iff.mp hrun
      exact ⟨w, hw⟩
    have hstep : z.perform requiredApprovalIndex (proposalSchema ω) ord (.op (.modify id f)) =
      some w := by
      have hw : x.run requiredApprovalIndex (proposalSchema ω) ord
        (before ++ [.op (.modify id f)]) = some w := hw
      have hz : x.run requiredApprovalIndex (proposalSchema ω) ord before = some z := hz
      rw [IndexedDatabase.run_append, hz, Option.bind_some] at hw
      obtain ⟨w', hw', hlast⟩ := Option.bind_eq_some_iff.mp hw
      obtain rfl := Option.some.inj hlast
      exact hw'
    exact accounts_of_exact (hall before _ z hcalls hz) hp hstep (hall _ after w hsplit hw)
  · intro hkept before after z hcalls hz
    have hlayered : Layered (proposalSchema ω) (Alike fun p q => p.accounts = q.accounts) x.db := by
      refine ⟨?_, fun _ => hstack⟩
      rw [hstack]
      exact .bottom hwf
    refine (findable_mirrors.run proposalSchema_plain before hexact hlayered hz ?_).1
    intro first id f last w p hbefore hw hp
    refine hkept first id f (last ++ after) w p ?_ hw hp
    rw [hcalls, hbefore, List.append_assoc, List.cons_append]

/-! ### Approvals -/

def noProposals : ProposalDatabase Unit where
  db := { store := ⟨∅, fun _ => 0⟩, undoDb := ⟨0, false, [], 10⟩ }
  index := ∅

/-- A proposal that account 3 has to approve. -/
def needsThree : Proposal Unit where
  expirationTime := 1700000000
  reviewPeriodTime := none
  operations := []
  requiredActiveApprovals := [3]
  availableActiveApprovals := ∅
  requiredOwnerApprovals := []
  availableOwnerApprovals := ∅
  availableKeyApprovals := ∅
  proposer := 5
  failed := false

def approval (a : AccountId) : ProposalUpdate where
  feePayingAccount := a
  proposal := 0
  activeApprovalsToAdd := [a]
  activeApprovalsToRemove := []
  ownerApprovalsToAdd := []
  ownerApprovalsToRemove := []
  keyApprovalsToAdd := []
  keyApprovalsToRemove := []
  fits := no_keys_fit

theorem noProposals_wellFormed : noProposals.db.store.WellFormed (proposalSchema Unit) where
  unique a v ha := by cases ha
  fresh a ha := absurd ha (Finmap.notMem_empty)

theorem noProposals_exact : noProposals.Exact := by
  intro a id
  constructor
  · intro hid
    exact absurd hid (Finset.notMem_empty id)
  · rintro ⟨p, hp, -⟩
    cases hp

/-- The account that has to approve does so in a session, which is taken back. -/
theorem proposals_findable_required : ∃ y,
    noProposals.call .byId [.op (.create proposalIndex fun _ => needsThree),
      .startUndoSession false,
      .op (.modify ⟨proposalIndex, 0⟩ (approval 3).approve), .undo] = some y ∧ y.Exact := by
  have hsome : (noProposals.call .byId [.op (.create proposalIndex fun _ => needsThree),
      .startUndoSession false, .op (.modify ⟨proposalIndex, 0⟩ (approval 3).approve),
      .undo]).isSome := by decide +kernel
  have hstart : (noProposals.call .byId [.op (.create proposalIndex fun _ => needsThree),
      .startUndoSession false]).isSome := by decide +kernel
  have haccounts : ((((noProposals.call .byId [.op (.create proposalIndex fun _ => needsThree),
      .startUndoSession false]).get hstart).db.store.objects.lookup ⟨proposalIndex, 0⟩).map fun p =>
        decide (p.accounts = ((approval 3).approve p).accounts)) =
          some true := by decide +kernel +revert
  refine ⟨_, (Option.some_get hsome).symm, ?_⟩
  refine (proposals_findable_iff .byId noProposals _ _ noProposals_wellFormed rfl noProposals_exact
    (Option.some_get hsome).symm).mpr ?_ _ [] _ (List.append_nil _).symm
      (Option.some_get hsome).symm
  intro before id f after z p hcalls hz hp
  rcases before with _ | ⟨c0, _ | ⟨c1, _ | ⟨c2, _ | ⟨c3, before⟩⟩⟩⟩
  · cases hcalls
  · cases hcalls
  · cases hcalls
    obtain rfl := Option.some.inj ((Option.some_get hstart).trans hz)
    rw [hp] at haccounts
    exact of_decide_eq_true (Option.some.inj haccounts)
  · cases hcalls
  · cases before with
    | nil => cases hcalls
    | cons c4 before => cases hcalls

/-- Account 7 approves a proposal, and is not led to it. -/
theorem approval_not_found : ∃ y,
    noProposals.call .byId [.op (.create proposalIndex fun _ => needsThree),
      .op (.modify ⟨proposalIndex, 0⟩ (approval 7).approve)] = some y ∧ ¬y.Exact := by
  have hsome : (noProposals.call .byId [.op (.create proposalIndex fun _ => needsThree),
      .op (.modify ⟨proposalIndex, 0⟩ (approval 7).approve)]).isSome := by decide +kernel
  have hindex : ((noProposals.call .byId [.op (.create proposalIndex fun _ => needsThree),
      .op (.modify ⟨proposalIndex, 0⟩ (approval 7).approve)]).get hsome).index.proposalsOf 7 =
        ∅ := by
    decide +kernel +revert
  have happroved : (((noProposals.call .byId [.op (.create proposalIndex fun _ => needsThree),
      .op (.modify ⟨proposalIndex, 0⟩ (approval 7).approve)]).get hsome).db.store.objects.lookup
        ⟨proposalIndex, 0⟩).any (fun p => decide (7 ∈ p.accounts)) =
          true := by decide +kernel +revert
  refine ⟨_, (Option.some_get hsome).symm, fun hexact => ?_⟩
  obtain ⟨p, hp, h7⟩ := (Option.any_eq_true _ _).mp happroved
  have hmem := (hexact 7 ⟨proposalIndex, 0⟩).mpr ⟨p, hp, of_decide_eq_true h7⟩
  rw [hindex] at hmem
  exact absurd hmem (Finset.notMem_empty _)

end Nestchain.Proposals
