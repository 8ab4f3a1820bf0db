import Nestchain.Chain.BlockStore

/-! TaPoS.  The block summaries hold, for each remainder of a block number, the id of the last block
of the chain with that remainder, also after fork switches, so a transaction is only accepted on a
chain that has the block it refers to. -/

namespace Nestchain.Chain

variable {ω ρ : Type} {r : Rules ω ρ} {cps : Checkpoints} {skip : SkipFlags}

/-- `set_reference_block` -/
def SignedTransaction.setReferenceBlock (r : Rules ω ρ) (t : SignedTransaction ω) (id : BlockId) :
    SignedTransaction ω :=
  { t with refBlockNum := id.num % 65536, refBlockPrefix := r.idPrefix id }

/-- The TaPoS check of `_apply_transaction`. -/
def TaposPasses (r : Rules ω ρ) (s : Objects ρ) (t : SignedTransaction ω) : Prop :=
  t.refBlockPrefix = r.idPrefix (s.blockSummaries t.refBlockNum)

/-- The last block of a chain, the newest first, whose number has the remainder `k`. -/
def latestWith (k : Nat) (chain : List (SignedBlock ω)) : Option (SignedBlock ω) :=
  chain.find? fun b => b.blockNum % 65536 == k

/-- The block summaries are those of the chain. -/
def Summarized (r : Rules ω ρ) (chain : List (SignedBlock ω)) (s : Objects ρ) : Prop :=
  ∀ k, s.blockSummaries k = ((latestWith k chain).map fun b => r.blockId b.toBlockHeader).getD .zero

section Steps

variable {s s' : Objects ρ}

theorem Rules.applyTransactions_blockSummaries {ts : List (SignedTransaction ω)}
    (h : (r.applyTransactions skip s ts).result = some s') :
    s'.blockSummaries = s.blockSummaries := by
  induction ts generalizing s with
  | nil =>
    obtain rfl := Outcome.result_pure.mp h
    rfl
  | cons t ts ih =>
    obtain ⟨s1, h1, h2⟩ := Rules.applyTransactions_cons.mp h
    obtain ⟨-, rest, -, rfl⟩ := Rules.applyTransaction_result.mp h1
    rw [ih h2]
    unfold Rules.noteTransaction
    split <;> rfl

theorem Rules.applyBlock_blockSummaries {b : SignedBlock ω}
    (h : (r.applyBlock cps skip s b).result = some s') :
    s'.blockSummaries =
      Function.update s.blockSummaries (b.blockNum % 65536) (r.blockId b.toBlockHeader) := by
  simp only [Rules.applyBlock, Rules.applyBlockBody, Outcome.result_bind, Outcome.result_assert,
    Outcome.result_effect, Outcome.result_ofOption, Outcome.result_pure] at h
  obtain ⟨_, -, _, -, _, -, applied, happlied, headed, hheaded, confirmed, hconfirmed,
    maintained, hmaintained, _, -, rest, -, rfl⟩ := h
  obtain ⟨-, _, rfl⟩ := Rules.updateGlobalDynamicData_result hheaded
  obtain ⟨_, rfl⟩ := Rules.updateSigningWitness_result hconfirmed
  obtain ⟨_, _, _, rfl⟩ := Rules.maintain_result hmaintained
  show Function.update applied.blockSummaries _ _ = _
  rw [Rules.applyTransactions_blockSummaries happlied]

theorem Summarized.block {chain : List (SignedBlock ω)} {b : SignedBlock ω}
    (h : Summarized r chain s) (hb : (r.applyBlock cps skip s b).result = some s') :
    Summarized r (b :: chain) s' := by
  intro k
  rw [Rules.applyBlock_blockSummaries hb]
  unfold latestWith
  by_cases hk : b.blockNum % 65536 = k
  · subst hk
    simp
  · rw [Function.update_of_ne (Ne.symm hk), h k, List.find?_cons_of_neg (by simpa using hk)]
    rfl

theorem Grown.summarized {base chain : List (SignedBlock ω)} {s0 : Objects ρ}
    (hbase : Summarized r base s0) (h : Grown r cps base s0 chain s) : Summarized r chain s := by
  induction h with
  | base => exact hbase
  | block _ hb ih => exact ih.block hb

end Steps

/-! ### The block with a number -/

theorem Descends.mem {chain : List (SignedBlock ω)} {id : BlockId} (h : Descends r id chain)
    {b : SignedBlock ω} (hb : b ∈ chain) : b.blockNum ≤ id.num ∧ 0 < b.blockNum := by
  induction chain generalizing id with
  | nil => cases hb
  | cons c chain ih =>
    obtain ⟨rfl, hrest⟩ := h
    show b.blockNum ≤ c.previous.num + 1 ∧ _
    rcases List.mem_cons.mp hb with rfl | hb
    · exact ⟨le_rfl, Nat.succ_pos _⟩
    · obtain ⟨hle, hpos⟩ := ih hrest hb
      exact ⟨by omega, hpos⟩

theorem Descends.numbered {chain : List (SignedBlock ω)} {id : BlockId} (h : Descends r id chain)
    {n : Nat} (hpos : 0 < n) (hle : n ≤ id.num) : ∃ b ∈ chain, b.blockNum = n := by
  induction chain generalizing id with
  | nil =>
    obtain rfl : id = .zero := h
    exact absurd hle (by simpa [BlockId.zero] using hpos.ne')
  | cons c chain ih =>
    obtain ⟨rfl, hrest⟩ := h
    replace hle : n ≤ c.previous.num + 1 := hle
    by_cases hn : n = c.previous.num + 1
    · exact ⟨c, List.mem_cons_self, hn.symm⟩
    · obtain ⟨b, hb, hnum⟩ := ih hrest (by omega)
      exact ⟨b, List.mem_cons_of_mem _ hb, hnum⟩

theorem Descends.latest {chain : List (SignedBlock ω)} {id : BlockId} (h : Descends r id chain)
    {k : Nat} {b : SignedBlock ω} (hb : latestWith k chain = some b) :
    b ∈ chain ∧ b.blockNum % 65536 = k ∧ id.num < b.blockNum + 65536 ∧
      ∀ c ∈ chain, c.blockNum % 65536 = k → id.num < c.blockNum + 65536 → c = b := by
  induction chain generalizing id with
  | nil => cases hb
  | cons c chain ih =>
    obtain ⟨rfl, hrest⟩ := h
    unfold latestWith at hb
    by_cases hk : c.blockNum % 65536 = k
    · rw [List.find?_cons_of_pos (by simpa using hk)] at hb
      obtain rfl : c = b := Option.some.inj hb
      refine ⟨List.mem_cons_self, hk, ?_, ?_⟩
      · show c.previous.num + 1 < c.previous.num + 1 + 65536
        omega
      · intro d hd hdk hlast
        rcases List.mem_cons.mp hd with rfl | hd
        · rfl
        · have hle := (hrest.mem hd).1
          replace hlast : c.previous.num + 1 < d.blockNum + 65536 := hlast
          have hc : c.blockNum = c.previous.num + 1 := rfl
          omega
    · rw [List.find?_cons_of_neg (by simpa using hk)] at hb
      obtain ⟨hmem, hbk, hlast, huniq⟩ := ih hrest hb
      refine ⟨List.mem_cons_of_mem _ hmem, hbk, ?_, ?_⟩
      · show c.previous.num + 1 < b.blockNum + 65536
        have hc : c.blockNum = c.previous.num + 1 := rfl
        have := (hrest.mem hmem).1
        by_contra hge
        -- Then the block above is the last one with the remainder.
        exact hk (by omega)
      · intro d hd hdk hlast
        rcases List.mem_cons.mp hd with rfl | hd
        · exact absurd hdk hk
        · replace hlast : c.previous.num + 1 < d.blockNum + 65536 := hlast
          exact huniq d hd hdk (by omega)

/-! ### Runs from genesis -/

/-- At genesis every block summary is empty. -/
structure FromGenesis (r : Rules ω ρ) (db : Database ω ρ) : Prop extends Opened r db where
  headBlockId : db.objects.headBlockId = .zero
  blockSummaries : ∀ k, db.objects.blockSummaries k = .zero

theorem FromGenesis.descends {db : Database ω ρ} (h : FromGenesis r db) :
    Descends r db.objects.headBlockId [] := h.headBlockId

theorem FromGenesis.chain {db0 db : Database ω ρ} (h : FromGenesis r db0) (cs : List (Call ω))
    (hdb : db = db0.calls r cps cs) :
    Regular r cps db ∧ ∃ chain, db.HeadChain r cps [] db0.objects chain := by
  subst hdb
  induction cs using List.reverseRecOn with
  | nil =>
    have hidle : Idle r cps db0 := h.idle
    refine ⟨(Reachable.opened h.toOpened).regular, [], hidle.headChain ⟨fun k s hs => ?_, ?_⟩⟩
    · rw [h.saved] at hs
      cases k with
      | zero =>
        obtain rfl : db0.objects = s := Option.some.inj hs
        exact .base
      | succ k => simp at hs
    · intro k b hb
      simp at hb
  | append_singleton cs c ih =>
    obtain ⟨hreg, chain, hchain⟩ := ih
    have hstep : db0.calls r cps (cs ++ [c]) = (db0.calls r cps cs).call r cps c := by
      simp [Database.calls]
    rw [hstep]
    cases c with
    | pushBlock b skip =>
      exact ⟨Database.pushBlock_regular hreg b, hchain.pushBlock h.descends hreg skip b⟩
    | pushTransaction t skip =>
      obtain ⟨hs, -⟩ := Database.pushTransaction_spec hreg.toConsistent skip t
      exact ⟨Database.pushTransaction_regular hreg t, chain, hs.pendingKept.headChain hchain⟩

theorem TaposPasses.of_applied {s s' : Objects ρ} {t : SignedTransaction ω}
    (hskip : skip.taposCheck = false) (hnum : 0 < s.headBlockNumber)
    (h : (r.applyTransaction skip s t).result = some s') : TaposPasses r s t := by
  obtain ⟨hc, -⟩ := Rules.applyTransaction_result.mp h
  simp only [Rules.checkTransaction, hskip, Bool.false_or, Bool.and_eq_true, Bool.or_eq_true,
    beq_iff_eq] at hc
  rcases hc.2 with h0 | ⟨⟨hpre, -⟩, -⟩
  · omega
  · exact hpre

/-- After any calls from genesis, there is the chain of the head block such that a transaction that
is applied, also on top of pending ones, refers to a block of it that is among the last 65536, or
its reference is empty.  When it refers to a block of another fork whose number is among these, it
passes only if that block and the one of the chain with its number have the same prefix, and a
reference to a block of the chain passes as long as it is among the last 65536. -/
theorem reference_block_on_chain {db0 : Database ω ρ} (h : FromGenesis r db0) (cs : List (Call ω)) :
    ∃ chain, Descends r (db0.calls r cps cs).headObjects.headBlockId chain ∧
      ∀ (skip : SkipFlags) (ts : List (SignedTransaction ω)) (s : Objects ρ),
        (r.applyTransactions skip (db0.calls r cps cs).headObjects ts).result = some s →
        (∀ (skip : SkipFlags) (t : SignedTransaction ω), skip.taposCheck = false →
          0 < chain.length → (r.applyTransaction skip s t).result ≠ none →
          (∃ b ∈ chain, b.blockNum % 65536 = t.refBlockNum ∧ chain.length < b.blockNum + 65536 ∧
            r.idPrefix (r.blockId b.toBlockHeader) = t.refBlockPrefix) ∨
          (∀ b ∈ chain, b.blockNum % 65536 ≠ t.refBlockNum) ∧
            t.refBlockPrefix = r.idPrefix .zero) ∧
        ∀ (t : SignedTransaction ω) (id : BlockId), 0 < id.num → id.num ≤ chain.length →
          chain.length < id.num + 65536 →
          ∃ b ∈ chain, b.blockNum = id.num ∧ (TaposPasses r s (t.setReferenceBlock r id) ↔
            r.idPrefix id = r.idPrefix (r.blockId b.toBlockHeader)) := by
  obtain ⟨hreg, chain, hchain⟩ := h.chain cs (Eq.refl (db0.calls r cps cs))
  have hgrown : Grown r cps [] db0.objects chain (db0.calls r cps cs).headObjects := by
    have := hchain.grown 0 _ rfl
    rwa [List.drop_zero] at this
  have hdesc : Descends r (db0.calls r cps cs).headObjects.headBlockId chain :=
    hgrown.descends h.descends
  have hlength := hdesc.length
  have hsum : Summarized r chain (db0.calls r cps cs).headObjects :=
    hgrown.summarized fun k => h.blockSummaries k
  refine ⟨chain, hdesc, fun skip ts s hs => ?_⟩
  have hsame := Rules.applyTransactions_blockSummaries hs
  constructor
  · intro skip t hskip hpos happlied
    obtain ⟨s', hs'⟩ := Option.ne_none_iff_exists'.mp happlied
    have hnum : 0 < s.headBlockNumber := by
      rw [(Rules.applyTransactions_sameChain hs).headBlockNumber,
        ← hreg.spine.num _ List.mem_cons_self, hlength]
      exact hpos
    have ht := TaposPasses.of_applied hskip hnum hs'
    unfold TaposPasses at ht
    rw [hsame, hsum] at ht
    cases hlatest : latestWith t.refBlockNum chain with
    | some b =>
      obtain ⟨hmem, hk, hlast, -⟩ := hdesc.latest hlatest
      rw [hlatest] at ht
      exact Or.inl ⟨b, hmem, hk, hlength ▸ hlast, ht.symm⟩
    | none =>
      rw [hlatest] at ht
      refine Or.inr ⟨fun b hb hk => ?_, ht⟩
      exact List.find?_eq_none.mp hlatest b hb (by simpa using hk)
  · intro t id hpos hle hlast
    obtain ⟨b, hb, hnum⟩ := hdesc.numbered hpos (hlength ▸ hle)
    refine ⟨b, hb, hnum, ?_⟩
    cases hlatest : latestWith (id.num % 65536) chain with
    | some c =>
      obtain ⟨-, -, -, huniq⟩ := hdesc.latest hlatest
      obtain rfl := huniq b hb (by rw [hnum]) (by rw [hlength, hnum]; exact hlast)
      have hsummary : s.blockSummaries (id.num % 65536) = r.blockId b.toBlockHeader := by
        rw [hsame, hsum, hlatest]
        rfl
      unfold TaposPasses SignedTransaction.setReferenceBlock
      simp only [hsummary]
    | none =>
      exact absurd (by simpa using congrArg (· % 65536) hnum)
        (by simpa using List.find?_eq_none.mp hlatest b hb)

theorem counterDatabase_genesis (n : Nat) : FromGenesis counterRules (counterDatabase n) :=
  ⟨counterDatabase_opened n, rfl, fun _ => rfl⟩

/-- After one block, a reference to another block 1 passes only if the two have the same prefix. -/
theorem reference_block_on_chain_other :
    ∃ chain, Descends counterRules ((counterDatabase 0).calls counterRules []
        [.pushBlock (counterBlock .zero 10 0 []) .nothing]).headObjects.headBlockId chain ∧
      ∃ b ∈ chain, b.blockNum = 1 ∧
        (TaposPasses counterRules ((counterDatabase 0).calls counterRules []
            [.pushBlock (counterBlock .zero 10 0 []) .nothing]).headObjects
          ((counterTrx 20 []).setReferenceBlock counterRules ⟨1, 7⟩) ↔
            7 = (counterRules.blockId b.toBlockHeader).digest) := by
  obtain ⟨chain, hdesc, h⟩ : ∃ chain, Descends counterRules ((counterDatabase 0).calls
      counterRules [] [.pushBlock (counterBlock .zero 10 0 []) .nothing]).headObjects.headBlockId
      chain ∧ _ :=
    reference_block_on_chain (counterDatabase_genesis 0) _
  have hlength : chain.length = 1 := by
    rw [← hdesc.length]
    decide +kernel
  obtain ⟨-, h⟩ := h .nothing [] _ rfl
  obtain ⟨b, hb, hnum, hiff⟩ := h (counterTrx 20 []) ⟨1, 7⟩ (by decide) (by rw [hlength])
    (by rw [hlength]; decide)
  exact ⟨chain, hdesc, b, hb, hnum, hiff⟩

end Nestchain.Chain
