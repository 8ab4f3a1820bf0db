import Nestchain.Chain.Apply

/-! Irreversible blocks.  `update_last_irreversible_block` takes the confirmation at a fixed offset
of the ordered confirmations; the witnesses from that offset on have confirmed at least that
block. -/

namespace Nestchain.Chain

variable {ω ρ : Type}

/-- The objects at genesis. -/
structure Genesis (s : Objects ρ) : Prop where
  headBlockNumber : s.headBlockNumber = 0
  headBlockId : s.headBlockId = BlockId.zero
  lastIrreversibleBlockNum : s.lastIrreversibleBlockNum = 0
  lastConfirmedBlockNum : ∀ w, s.lastConfirmedBlockNum w = 0
  transactions : s.transactions = []

/-- `s` is what a chain of applied blocks leads to from `s0`. -/
inductive AppliedBlocks (r : Rules ω ρ) (cps : Checkpoints) (s0 : Objects ρ) : Objects ρ → Prop
  | start : AppliedBlocks r cps s0 s0
  | block {s s' : Objects ρ} {skip : SkipFlags} {b : SignedBlock ω}
      (h : AppliedBlocks r cps s0 s) (hb : (r.applyBlock cps skip s b).result = some s') :
      AppliedBlocks r cps s0 s'

/-- `ceil(70% of n)`. -/
def irreversibleQuorum (n : Nat) : Nat := (7 * n + 9) / 10

/-! ### The offset -/

theorem irreversibleOffset_lt {n : Nat} (h : 0 < n) : irreversibleOffset n < n := by
  simp only [irreversibleOffset, hundredPercent, irreversibleThreshold]
  omega

theorem sub_irreversibleOffset (n : Nat) :
    n - irreversibleOffset n = irreversibleQuorum n := by
  simp only [irreversibleOffset, irreversibleQuorum, hundredPercent, irreversibleThreshold]
  omega

theorem length_sub_le_countP {l : List Nat} (hl : l.Pairwise (· ≤ ·)) {k : Nat}
    (hk : k < l.length) : l.length - k ≤ l.countP fun x => decide (l.getD k 0 ≤ x) := by
  have hdrop : l.drop k = l.getD k 0 :: l.drop (k + 1) := by
    rw [List.drop_eq_getElem_cons hk, List.getD, List.getElem?_eq_getElem hk, Option.getD_some]
  have hge : ∀ x ∈ l.drop k, decide (l.getD k 0 ≤ x) = true := by
    have hp : (l.drop k).Pairwise (· ≤ ·) := hl.sublist (List.drop_sublist k l)
    rw [hdrop, List.pairwise_cons] at hp
    intro x hx
    rw [hdrop, List.mem_cons] at hx
    rcases hx with rfl | hx
    · simp
    · simpa using hp.1 x hx
  calc l.length - k = (l.drop k).length := (List.length_drop).symm
    _ = (l.drop k).countP fun x => decide (l.getD k 0 ≤ x) := (List.countP_eq_length.mpr hge).symm
    _ ≤ l.countP fun x => decide (l.getD k 0 ≤ x) := (List.drop_sublist k l).countP_le

theorem Objects.confirmations_pairwise (s : Objects ρ) : s.confirmations.Pairwise (· ≤ ·) :=
  List.pairwise_insertionSort _ _

theorem Objects.confirmations_length (s : Objects ρ) :
    s.confirmations.length = s.activeWitnesses.1.length := by
  simp [Objects.confirmations]

theorem Objects.countP_confirmations (s : Objects ρ) (p : Nat → Bool) :
    s.confirmations.countP p =
      s.activeWitnesses.1.countP fun w => p (s.lastConfirmedBlockNum w) := by
  rw [Objects.confirmations, (List.perm_insertionSort _ _).countP_eq, List.countP_map]
  rfl

theorem Objects.irreversibleOffset_lt_length (s : Objects ρ) :
    irreversibleOffset s.activeWitnesses.1.length < s.confirmations.length := by
  rw [s.confirmations_length]
  exact irreversibleOffset_lt (List.length_pos_iff.mpr s.activeWitnesses.2.2)

theorem Objects.quorum_confirmed (s : Objects ρ) :
    irreversibleQuorum s.activeWitnesses.1.length ≤
      s.activeWitnesses.1.countP fun w =>
        decide (s.newLastIrreversibleBlockNum ≤ s.lastConfirmedBlockNum w) := by
  have h := length_sub_le_countP s.confirmations_pairwise s.irreversibleOffset_lt_length
  rw [s.confirmations_length, sub_irreversibleOffset, s.countP_confirmations] at h
  exact h

/-! ### The last irreversible block along a chain -/

/-- What the objects say about the head block in every state of a chain. -/
structure HeadInvariant (s : Objects ρ) : Prop where
  num : s.headBlockId.num = s.headBlockNumber
  confirmed : ∀ w, s.lastConfirmedBlockNum w ≤ s.headBlockNumber
  irreversible : s.lastIrreversibleBlockNum ≤ s.headBlockNumber

theorem Genesis.headInvariant {s : Objects ρ} (h : Genesis s) : HeadInvariant s where
  num := by rw [h.headBlockId, h.headBlockNumber]; rfl
  confirmed w := by rw [h.lastConfirmedBlockNum w]; exact Nat.zero_le _
  irreversible := by rw [h.lastIrreversibleBlockNum]; exact Nat.zero_le _

section

variable {r : Rules ω ρ} {cps : Checkpoints} {skip : SkipFlags} {s s' : Objects ρ}
  {b : SignedBlock ω}

theorem Objects.newLastIrreversibleBlockNum_le {n : Nat} (h : ∀ w, s.lastConfirmedBlockNum w ≤ n) :
    s.newLastIrreversibleBlockNum ≤ n := by
  have hk := s.irreversibleOffset_lt_length
  have hmem : s.newLastIrreversibleBlockNum ∈ s.confirmations := by
    simp [Objects.newLastIrreversibleBlockNum, List.getD, List.getElem?_eq_getElem hk]
  simp only [Objects.confirmations, List.mem_insertionSort, List.mem_map] at hmem
  obtain ⟨w, -, hw⟩ := hmem
  exact hw ▸ h w

theorem HeadInvariant.blockNum (h : HeadInvariant s) (hb : BlockApplied r skip s b s') :
    b.blockNum = s.headBlockNumber + 1 := by
  rw [BlockHeader.blockNum, ← hb.previous, h.num]

theorem BlockApplied.irreversible_le (hb : BlockApplied r skip s b s') :
    s.lastIrreversibleBlockNum ≤ s'.lastIrreversibleBlockNum := by
  rw [hb.lastIrreversibleBlockNum]
  simp only [Objects.updateLastIrreversibleBlock]
  split <;> omega

theorem HeadInvariant.step (h : HeadInvariant s) (hb : BlockApplied r skip s b s') :
    HeadInvariant s' := by
  have hnum := h.blockNum hb
  have hconf : ∀ w, s'.lastConfirmedBlockNum w ≤ b.blockNum := by
    intro w
    rw [hb.lastConfirmedBlockNum]
    by_cases hw : w = b.witness
    · rw [hw, Function.update_self]
    · rw [Function.update_of_ne hw]
      exact (h.confirmed w).trans (by omega)
  refine ⟨?_, fun w => hb.headBlockNumber ▸ hconf w, ?_⟩
  · rw [hb.headBlockId, hb.headBlockNumber]
    rfl
  · have hnew := Objects.newLastIrreversibleBlockNum_le
      (s := { s with lastConfirmedBlockNum := s'.lastConfirmedBlockNum }) hconf
    have hold := h.irreversible
    rw [hb.lastIrreversibleBlockNum, hb.headBlockNumber]
    simp only [Objects.updateLastIrreversibleBlock]
    split
    · exact hnew
    · omega

/-- When a block raises the last irreversible block number, a quorum of the witnesses that are
active when it is applied has confirmed the new one. -/
theorem BlockApplied.quorum (hb : BlockApplied r skip s b s')
    (hlt : s.lastIrreversibleBlockNum < s'.lastIrreversibleBlockNum) :
    irreversibleQuorum s.activeWitnesses.1.length ≤
      s.activeWitnesses.1.countP fun w =>
        decide (s'.lastIrreversibleBlockNum ≤ s'.lastConfirmedBlockNum w) := by
  have hlib := hb.lastIrreversibleBlockNum
  simp only [Objects.updateLastIrreversibleBlock] at hlib
  split at hlib
  · rw [hlib]
    exact Objects.quorum_confirmed { s with lastConfirmedBlockNum := s'.lastConfirmedBlockNum }
  · omega

theorem AppliedBlocks.headInvariant {s0 : Objects ρ} (h0 : HeadInvariant s0)
    (h : AppliedBlocks r cps s0 s) : HeadInvariant s := by
  induction h with
  | start => exact h0
  | block _ hb ih => exact ih.step (Rules.applyBlock_applied hb)

theorem AppliedBlocks.irreversible_le {s0 : Objects ρ} (h : AppliedBlocks r cps s0 s) :
    s0.lastIrreversibleBlockNum ≤ s.lastIrreversibleBlockNum := by
  induction h with
  | start => exact le_rfl
  | block _ hb ih => exact ih.trans (Rules.applyBlock_applied hb).irreversible_le

/-- Along every chain of blocks the last irreversible block number never decreases and never exceeds
the head block number, and a block that raises it is confirmed by 70% of the active witnesses. -/
theorem irreversibility_rule {s0 : Objects ρ} (h0 : Genesis s0) (h : AppliedBlocks r cps s0 s) :
    s.lastIrreversibleBlockNum ≤ s.headBlockNumber ∧
    (∀ s', AppliedBlocks r cps s s' → s.lastIrreversibleBlockNum ≤ s'.lastIrreversibleBlockNum) ∧
    ∀ skip b s', (r.applyBlock cps skip s b).result = some s' →
      s.lastIrreversibleBlockNum < s'.lastIrreversibleBlockNum →
      irreversibleQuorum s.activeWitnesses.1.length ≤
        s.activeWitnesses.1.countP fun w =>
          decide (s'.lastIrreversibleBlockNum ≤ s'.lastConfirmedBlockNum w) :=
  ⟨(h.headInvariant h0.headInvariant).irreversible, fun _ h' => h'.irreversible_le,
    fun _ _ _ hb hlt => (Rules.applyBlock_applied hb).quorum hlt⟩

end

theorem counterGenesis_genesis (n : Nat) : Genesis (counterGenesis n) :=
  ⟨rfl, rfl, rfl, fun _ => rfl, rfl⟩

/-- Four witnesses are active.  When three of them have made a block each, the first block is
irreversible. -/
theorem irreversibility_rule_first_block :
    ∃ s s', AppliedBlocks counterRules [] (counterGenesis 3) s ∧
      AppliedBlocks counterRules [] s s' ∧ s.lastIrreversibleBlockNum = 0 ∧
      s'.headBlockNumber = 3 ∧ s'.lastIrreversibleBlockNum = 1 ∧
      irreversibleQuorum 4 ≤ [0, 1, 2, 3].countP fun w =>
        decide (s'.lastIrreversibleBlockNum ≤ s'.lastConfirmedBlockNum w) := by
  have hblocks : (counterRules.applyBlock [] .nothing (counterGenesis 3)
      (counterBlock .zero 1 0 [])).result.any (fun s1 =>
        (counterRules.applyBlock [] .nothing s1
          (counterBlock s1.headBlockId 2 1 [])).result.any fun s2 =>
            (counterRules.applyBlock [] .nothing s2
              (counterBlock s2.headBlockId 3 2 [])).result.any fun s3 =>
                s2.activeWitnesses.1 = [0, 1, 2, 3] ∧ s2.lastIrreversibleBlockNum = 0 ∧
                  s3.headBlockNumber = 3 ∧ s3.lastIrreversibleBlockNum = 1) = true := by
    decide +kernel
  obtain ⟨s1, hs1, hblocks⟩ := (Option.any_eq_true _ _).mp hblocks
  obtain ⟨s2, hs2, hblocks⟩ := (Option.any_eq_true _ _).mp hblocks
  obtain ⟨s3, hs3, hblocks⟩ := (Option.any_eq_true _ _).mp hblocks
  obtain ⟨hactive, hbefore, hhead, hafter⟩ := of_decide_eq_true hblocks
  have hrun : AppliedBlocks counterRules [] (counterGenesis 3) s2 := .block (.block .start hs1) hs2
  have hquorum := (irreversibility_rule (counterGenesis_genesis 3) hrun).2.2 .nothing _ _ hs3
    (by omega)
  rw [hactive] at hquorum
  exact ⟨s2, s3, hrun, .block .start hs3, hbefore, hhead, hafter, hquorum⟩

end Nestchain.Chain
