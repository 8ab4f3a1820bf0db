import Nestchain.Chain.Irreversible

/-! Duplicate transactions.  A transaction that was applied on the chain is in the transaction index
until the head block time is past its expiration, and from then on the expiration check refuses it,
so no transaction is applied a second time. -/

namespace Nestchain.Chain

variable {ω ρ : Type}

/-- `s` is reached from `s0` by a chain of blocks that were applied with the duplicate check; `ts`
are their transactions. -/
inductive BlockHistory (r : Rules ω ρ) (cps : Checkpoints) (s0 : Objects ρ) :
    Objects ρ → List (SignedTransaction ω) → Prop
  | start : BlockHistory r cps s0 s0 []
  | block {s s' : Objects ρ} {ts : List (SignedTransaction ω)} {skip : SkipFlags}
      {b : SignedBlock ω} (h : BlockHistory r cps s0 s ts)
      (hdupe : (cps.skipFlags skip b.blockNum).transactionDupeCheck = false)
      (hb : (r.applyBlock cps skip s b).result = some s') :
      BlockHistory r cps s0 s' (ts ++ b.transactions)

/-- `s` is reached from a chain of blocks by pending transactions applied on top of it with the
duplicate check; `ts` are the transactions of the blocks and then the pending ones. -/
inductive History (r : Rules ω ρ) (cps : Checkpoints) (s0 : Objects ρ) :
    Objects ρ → List (SignedTransaction ω) → Prop
  | blocks {s : Objects ρ} {ts : List (SignedTransaction ω)} (h : BlockHistory r cps s0 s ts) :
      History r cps s0 s ts
  | pending {s s' : Objects ρ} {ts : List (SignedTransaction ω)} {skip : SkipFlags}
      {t : SignedTransaction ω} (h : History r cps s0 s ts)
      (hdupe : skip.transactionDupeCheck = false)
      (ht : (r.applyTransaction skip s t).result = some s') : History r cps s0 s' (ts ++ [t])

/-- The transaction is in the index or expired. -/
def Noted (r : Rules ω ρ) (s : Objects ρ) (t : SignedTransaction ω) : Prop :=
  (r.trxId t, t.expiration) ∈ s.transactions ∨ 0 < s.headBlockNumber ∧ t.expiration < s.time

/-- The transactions `ts` of a chain are distinct, and each is in the index or expired. -/
structure Remembered (r : Rules ω ρ) (s : Objects ρ) (ts : List (SignedTransaction ω)) : Prop where
  nodup : (ts.map r.trxId).Nodup
  known : ∀ t ∈ ts, Noted r s t

section

variable {r : Rules ω ρ} {cps : Checkpoints} {skip : SkipFlags} {s s' : Objects ρ}
  {ts : List (SignedTransaction ω)} {t : SignedTransaction ω}

theorem Rules.applyTransactions_index (hdupe : skip.transactionDupeCheck = false)
    (h : (r.applyTransactions skip s ts).result = some s') :
    s'.transactions = s.transactions ++ ts.map fun t => (r.trxId t, t.expiration) := by
  induction ts generalizing s with
  | nil =>
    obtain rfl := Outcome.result_pure.mp h
    simp
  | cons t ts ih =>
    obtain ⟨s1, h1, h2⟩ := Rules.applyTransactions_cons.mp h
    obtain ⟨-, rest, -, rfl⟩ := Rules.applyTransaction_result.mp h1
    rw [ih h2]
    simp [Rules.noteTransaction, hdupe]

/-- The checks refuse a transaction that is in the index or expired.  The purge keeps an entry up to
the time that the expiration check still accepts. -/
theorem Noted.refused (h : Noted r s t) (hdupe : skip.transactionDupeCheck = false) :
    r.checkTransaction skip s t = false := by
  by_contra hc
  simp only [Bool.not_eq_false, Rules.checkTransaction, hdupe, Bool.false_or, Bool.and_eq_true,
    Bool.or_eq_true, Bool.not_eq_true', beq_iff_eq, decide_eq_true_eq] at hc
  obtain ⟨⟨⟨-, hnew⟩, -⟩, hrecent⟩ := hc
  rcases h with hin | ⟨hhead, hlt⟩
  · have hknown : s.isKnownTransaction (r.trxId t) = true := by
      rw [Objects.isKnownTransaction, List.contains_iff_mem]
      exact List.mem_map_of_mem hin
    rw [hknown] at hnew
    cases hnew
  · rcases hrecent with h0 | ⟨-, hnow⟩
    · omega
    · omega

theorem Noted.applyTransactions (hdupe : skip.transactionDupeCheck = false)
    (ht : (r.applyTransactions skip s ts).result = some s') (h : Noted r s t ∨ t ∈ ts) :
    Noted r s' t := by
  have hsame := Rules.applyTransactions_sameChain ht
  unfold Noted
  rw [Rules.applyTransactions_index hdupe ht, hsame.headBlockNumber, hsame.time, List.mem_append]
  rcases h with (h | h) | h
  · exact Or.inl (Or.inl h)
  · exact Or.inr h
  · exact Or.inl (Or.inr (List.mem_map_of_mem h))

theorem Noted.block (hdupe : skip.transactionDupeCheck = false) {b : SignedBlock ω}
    (hb : BlockApplied r skip s b s') (h : Noted r s t ∨ t ∈ b.transactions) : Noted r s' t := by
  obtain ⟨applied, happlied, hindex⟩ := hb.transactions
  have hhead : 0 < s'.headBlockNumber := by rw [hb.headBlockNumber]; exact Nat.succ_pos _
  rcases Noted.applyTransactions hdupe happlied h with hin | ⟨-, hlt⟩
  · by_cases hexp : t.expiration < b.timestamp
    · exact Or.inr ⟨hhead, hb.time ▸ hexp⟩
    · refine Or.inl ?_
      rw [hindex, List.mem_filter]
      exact ⟨hin, by simpa using hexp⟩
  · have htime := hb.timestamp
    rw [(Rules.applyTransactions_sameChain happlied).time] at hlt
    exact Or.inr ⟨hhead, by rw [hb.time]; omega⟩

theorem Remembered.applyTransaction (h : Remembered r s ts)
    (hinj : Function.Injective r.transactionId) (hdupe : skip.transactionDupeCheck = false)
    (ht : (r.applyTransaction skip s t).result = some s') : Remembered r s' (ts ++ [t]) := by
  have hone : (r.applyTransactions skip s [t]).result = some s' :=
    Rules.applyTransactions_cons.mpr ⟨s', ht, rfl⟩
  refine ⟨?_, fun t' ht' => ?_⟩
  · rw [List.map_append, List.nodup_append]
    refine ⟨h.nodup, by simp, ?_⟩
    rintro a ha b hb rfl
    obtain rfl : a = r.trxId t := by simpa using hb
    obtain ⟨t', ht', hid⟩ := List.mem_map.mp ha
    have hexp : t'.expiration = t.expiration := congrArg Transaction.expiration (hinj hid)
    have hnoted : Noted r s t := by
      have := h.known t' ht'
      rwa [Noted, hid, hexp] at this
    obtain ⟨hc, -⟩ := Rules.applyTransaction_result.mp ht
    rw [hnoted.refused hdupe] at hc
    cases hc
  · refine Noted.applyTransactions hdupe hone ?_
    rcases List.mem_append.mp ht' with ht' | ht'
    · exact Or.inl (h.known t' ht')
    · exact Or.inr ht'

theorem Remembered.applyTransactions (h : Remembered r s ts)
    (hinj : Function.Injective r.transactionId) (hdupe : skip.transactionDupeCheck = false)
    {ts' : List (SignedTransaction ω)}
    (ht : (r.applyTransactions skip s ts').result = some s') : Remembered r s' (ts ++ ts') := by
  induction ts' generalizing s ts with
  | nil =>
    obtain rfl := Outcome.result_pure.mp ht
    simpa using h
  | cons t ts' ih =>
    obtain ⟨s1, h1, h2⟩ := Rules.applyTransactions_cons.mp ht
    have h := ih (h.applyTransaction hinj hdupe h1) h2
    rwa [List.append_assoc, List.singleton_append] at h

theorem Remembered.block (h : Remembered r s ts) (hinj : Function.Injective r.transactionId)
    (hdupe : skip.transactionDupeCheck = false) {b : SignedBlock ω}
    (hb : BlockApplied r skip s b s') : Remembered r s' (ts ++ b.transactions) := by
  obtain ⟨applied, happlied, -⟩ := hb.transactions
  refine ⟨(h.applyTransactions hinj hdupe happlied).nodup, fun t ht => Noted.block hdupe hb ?_⟩
  exact (List.mem_append.mp ht).imp_left (h.known t)

theorem BlockHistory.remembered {s0 : Objects ρ} (h : BlockHistory r cps s0 s ts)
    (hinj : Function.Injective r.transactionId) : Remembered r s ts := by
  induction h with
  | start => exact ⟨by simp, by simp⟩
  | block _ hdupe hb ih => exact ih.block hinj hdupe (Rules.applyBlock_applied hb)

/-- On a chain of blocks applied with the duplicate check, and pending on top of it, no two
transactions have the same id. -/
theorem no_transaction_applied_twice {s0 : Objects ρ} (h : History r cps s0 s ts)
    (hinj : Function.Injective r.transactionId) : (ts.map r.trxId).Nodup := by
  have hall : Remembered r s ts := by
    induction h with
    | blocks h => exact h.remembered hinj
    | pending _ hdupe ht ih => exact ih.applyTransaction hinj hdupe ht
  exact hall.nodup

end

/-- Block 1 takes a transaction that has already expired, and another one is pending on top. -/
theorem no_transaction_applied_twice_expired :
    ∃ s s', (counterRules.applyBlock [] .nothing (counterGenesis 0)
        (counterBlock .zero 10 0 [counterTrx 5 [1]])).result = some s ∧
      (counterRules.applyTransaction .nothing s (counterTrx 20 [1])).result = some s' ∧
      ([counterTrx 5 [1], counterTrx 20 [1]].map counterRules.trxId).Nodup := by
  have hb : (counterRules.applyBlock [] .nothing (counterGenesis 0)
      (counterBlock .zero 10 0 [counterTrx 5 [1]])).result.isSome := by decide +kernel
  have ht : (counterRules.applyTransaction .nothing ((counterRules.applyBlock [] .nothing
      (counterGenesis 0) (counterBlock .zero 10 0 [counterTrx 5 [1]])).result.get hb)
      (counterTrx 20 [1])).result.isSome := by decide +kernel +revert
  refine ⟨_, _, (Option.some_get hb).symm, (Option.some_get ht).symm, ?_⟩
  exact no_transaction_applied_twice
    (.pending (.blocks (.block .start (by decide) (Option.some_get hb).symm)) (by decide)
      (Option.some_get ht).symm) counterRules_transactionId_injective

end Nestchain.Chain
