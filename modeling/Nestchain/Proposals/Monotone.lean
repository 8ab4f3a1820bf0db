import Nestchain.Proposals.Execution
import Nestchain.Protocol.KeyUse
import Mathlib.Data.Fintype.EquivFin

/-! Proposals with more approvals.  `is_authorized_to_execute` runs the verification of
transactions, which rejects keys that it does not use, stops at thresholds and remembers what it
passes on the way; so more approvals may stop a proposal that fewer authorize. -/

namespace Nestchain.Proposals

open Nestchain.Lib Nestchain.Protocol

section

variable {ω σ : Type}

def Proposal.withApprovals (p : Proposal ω) (active owner : Finset AccountId)
    (keys : Finset PublicKey) : Proposal ω :=
  { p with
    availableActiveApprovals := active
    availableOwnerApprovals := owner
    availableKeyApprovals := keys }

/-- The keys of the authorities that the check of a proposal may come to. -/
def Proposal.keysNamed (r : Rules ω σ) (p : Proposal ω) (rest : σ) : List PublicKey :=
  Protocol.keysNamed (p.operations.map (Operation.required r)) (r.getActive rest) (r.getOwner rest)
    (r.maxAuthorityDepth rest)

/-- The approvals satisfy what the proposal requires within `n` levels. -/
def Proposal.Approved (r : Rules ω σ) (p : Proposal ω) (rest : σ) (n : Nat) : Prop :=
  Satisfied (p.operations.map (Operation.required r)) p.availableKeyApprovals (r.getActive rest)
    (r.getOwner rest) p.availableActiveApprovals p.availableOwnerApprovals n

variable {r : Rules ω σ} {p : Proposal ω} {rest : σ}

theorem isAuthorizedToExecute_iff :
    p.isAuthorizedToExecute r rest = true ↔ ∃ s₁ s₂ s₃,
      Passes (p.operations.map (Operation.required r)) p.availableKeyApprovals (r.getActive rest)
        (r.getOwner rest) (r.maxAuthorityDepth rest) p.availableActiveApprovals
        p.availableOwnerApprovals s₁ s₂ s₃ ∧ p.availableKeyApprovals ⊆ s₃.used := by
  rw [← verifyAuthority_eq_ok]
  unfold Proposal.isAuthorizedToExecute
  constructor
  · intro h
    split at h
    · rename_i hok
      exact hok
    · cases h
  · intro h
    rw [h]

theorem not_authorized_of_unnamed {k : PublicKey} (hk : k ∈ p.availableKeyApprovals)
    (hnamed : k ∉ p.keysNamed r rest) : p.isAuthorizedToExecute r rest = false := by
  rw [← Bool.not_eq_true, isAuthorizedToExecute_iff]
  rintro ⟨s₁, s₂, s₃, hpasses, hused⟩
  exact hnamed (hpasses.marks.1 k (hused hk)).2

theorem authorized_of_approved (h : p.Approved r rest (r.maxAuthorityDepth rest))
    (hneeded : ∀ k ∈ p.availableKeyApprovals, ∀ n,
      ¬(p.withApprovals p.availableActiveApprovals p.availableOwnerApprovals
        (p.availableKeyApprovals.erase k)).Approved r rest n) :
    p.isAuthorizedToExecute r rest = true := by
  obtain ⟨s₁, s₂, s₃, hpasses⟩ := Satisfied.passes h
  refine isAuthorizedToExecute_iff.mpr ⟨s₁, s₂, s₃, hpasses, fun k hk => ?_⟩
  by_contra hunused
  obtain ⟨hnamed, n, hsat⟩ := hpasses.marks
  refine hneeded k hk n (Satisfied.mono (fun j hj => ?_) (Finset.Subset.refl _)
    (Finset.Subset.refl _) hsat)
  exact Finset.mem_erase.mpr ⟨fun he => hunused (he ▸ hj), (hnamed j hj).1⟩

/-- The approvals of a proposal are monotone only when there are none that authorize it: whoever
adds a key that no authority names stops it.  More approvals of a proposal that is approved within
the depth authorize it as long as no key can be spared. -/
theorem approvals_monotone_iff (r : Rules ω σ) (p : Proposal ω) (rest : σ) :
    ((∀ active active' owner owner' keys keys', active ⊆ active' → owner ⊆ owner' → keys ⊆ keys' →
        (p.withApprovals active owner keys).isAuthorizedToExecute r rest = true →
        (p.withApprovals active' owner' keys').isAuthorizedToExecute r rest = true) ↔
      ∀ active owner keys, (p.withApprovals active owner keys).isAuthorizedToExecute r rest =
        false) ∧
    (∀ (u : ProposalUpdate) k, k ∈ u.keyApprovalsToAdd → k ∉ u.keyApprovalsToRemove →
      k ∉ p.keysNamed r rest → (u.approve p).isAuthorizedToExecute r rest = false) ∧
    ∀ active active' owner owner' keys keys', active ⊆ active' → owner ⊆ owner' → keys ⊆ keys' →
      (p.withApprovals active owner keys).Approved r rest (r.maxAuthorityDepth rest) →
      (∀ k ∈ keys', ∀ n, ¬(p.withApprovals active' owner' (keys'.erase k)).Approved r rest n) →
      (p.withApprovals active' owner' keys').isAuthorizedToExecute r rest = true := by
  refine ⟨⟨fun hmono active owner keys => ?_, fun hnever active _ owner _ keys _ _ _ _ h => ?_⟩,
    fun u k hadd hremove hnamed => ?_,
    fun active active' owner owner' keys keys' hactive howner hkeys h hneeded => ?_⟩
  · rw [← Bool.not_eq_true]
    intro h
    obtain ⟨k, hk⟩ := Infinite.exists_notMem_finset (p.keysNamed r rest).toFinset
    have hmore := hmono active active owner owner keys (insert k keys) (Finset.Subset.refl _)
      (Finset.Subset.refl _) (Finset.subset_insert k keys) h
    have hstopped : (p.withApprovals active owner (insert k keys)).isAuthorizedToExecute r rest =
      false :=
      not_authorized_of_unnamed (Finset.mem_insert_self k keys) fun hk' =>
        hk (List.mem_toFinset.mpr hk')
    rw [hmore] at hstopped
    cases hstopped
  · rw [hnever] at h
    cases h
  · refine not_authorized_of_unnamed (k := k) ?_ hnamed
    exact Finset.mem_sdiff.mpr ⟨Finset.mem_union_right _ (List.mem_toFinset.mpr hadd),
      fun hk => hremove (List.mem_toFinset.mp hk)⟩
  · exact authorized_of_approved (Satisfied.mono hkeys hactive howner h) hneeded

/-! ### Approvals that stop a proposal -/

/-- The accounts 10 and 21 stand on 20, 11 on 21, and 20 on 30; the key of 40 is 100. -/
def standingRules : Rules RequiredAuthorities Nat where
  validate _ := true
  required op := op
  hardforkAllows _ _ := true
  evaluate _ _ n := (true, n + 1, [])
  prepareFee _ _ := true
  payFee _ n := (true, n)
  chargeFee _ n := (true, n)
  getActive _
    | 10 => some (accountAuthority 20)
    | 11 => some (accountAuthority 21)
    | 20 => some (accountAuthority 30)
    | 21 => some (accountAuthority 20)
    | 40 => some (keyAuthority 100)
    | _ => none
  getOwner _ _ := none
  maxAuthorityDepth _ := 1
  maximumProposalLifetime _ := 100
  committeeProposalReviewPeriod _ := 10

/-- A proposal of one operation, without approvals. -/
def proposalOf (op : RequiredAuthorities) : Proposal RequiredAuthorities :=
  newProposal standingRules 1 [.other op] (hardforkCore214Time + 50) none

/-- A key too many stops a proposal, an account that makes a key superfluous does, and so does an
account whose approval keeps the check from coming to another. -/
theorem more_approvals_stop_proposal :
    ((proposalOf ⟨40, [], [], []⟩).withApprovals {40} ∅ ∅).isAuthorizedToExecute standingRules 0 =
      true ∧
    ((proposalOf ⟨40, [], [], []⟩).withApprovals {40} ∅
      {200}).isAuthorizedToExecute standingRules 0 =
      false ∧
    ((proposalOf ⟨40, [], [], []⟩).withApprovals ∅ ∅ {100}).isAuthorizedToExecute standingRules 0 =
      true ∧
    ((proposalOf ⟨40, [], [], []⟩).withApprovals {40} ∅
      {100}).isAuthorizedToExecute standingRules 0 =
      false ∧
    ((proposalOf ⟨10, [11], [], []⟩).withApprovals {30} ∅ ∅).isAuthorizedToExecute standingRules 0 =
      true ∧
    ((proposalOf ⟨10, [11], [], []⟩).withApprovals {10,
      30} ∅ ∅).isAuthorizedToExecute standingRules 0 =
      false := by
  refine ⟨?_, ?_, ?_, ?_, ?_, ?_⟩ <;> decide +kernel

/-- A proposal that the account 40 has to approve, itself or with its key. -/
def keyedProposal : Proposal RequiredAuthorities := proposalOf ⟨40, [], [], []⟩

theorem keyedProposal_approved :
    (keyedProposal.withApprovals ∅ ∅ {100}).Approved standingRules 0 1 := by
  refine ⟨fun auth hauth => (List.not_mem_nil hauth).elim, fun id hid => ?_,
    fun id hid => (List.not_mem_nil hid).elim⟩
  obtain rfl : id = 40 := List.mem_singleton.mp hid
  exact Or.inr (Or.inl ⟨keyAuthority 100, rfl, by decide⟩)

theorem keyedProposal_needs_key (n : Nat) :
    ¬(keyedProposal.withApprovals ∅ ∅ ∅).Approved standingRules 0 n := by
  intro h
  have hmem : 40 ∈ requiredActive (keyedProposal.operations.map
      (Operation.required standingRules)) := List.mem_singleton_self 40
  rcases h.active 40 hmem with hin | ⟨auth, hauth, hsat⟩ | ⟨auth, hauth, -⟩
  · exact absurd hin (by decide)
  · obtain rfl := Option.some.inj hauth
    exact Bool.false_ne_true hsat
  · cases hauth

/-- The key approves the proposal, and a key that no authority names stops it. -/
theorem approvals_monotone_iff_keyed :
    (ProposalUpdate.approve ⟨40, 0, [], [], [], [], [200], [], by decide⟩
      (keyedProposal.withApprovals {40} ∅ ∅)).isAuthorizedToExecute standingRules 0 = false ∧
    (keyedProposal.withApprovals ∅ ∅ {100}).isAuthorizedToExecute standingRules 0 = true := by
  constructor
  · exact (approvals_monotone_iff standingRules _ 0).2.1 _ 200 (by decide) (by decide) (by decide)
  · refine (approvals_monotone_iff standingRules keyedProposal 0).2.2 ∅ ∅ ∅ ∅ {100} {100}
      (Finset.Subset.refl _) (Finset.Subset.refl _) (Finset.Subset.refl _) keyedProposal_approved
      fun k hk n => ?_
    obtain rfl := Finset.mem_singleton.mp hk
    exact keyedProposal_needs_key n

end

end Nestchain.Proposals
