import Nestchain.Maintenance.Deposits

/-! The core asset through maintenance.  Every step of the maintenance and the pay of the witnesses
change the sum of all balances by what they change the supply, and as long as the amounts that are
asked for are not negative, no amount becomes negative and the supply stays below its maximum. -/

namespace Nestchain.Maintenance

open Lib

/-! ### Numbers of the machine -/

theorem toUint128_of_nonneg {x : Int} (h : 0 ≤ x) (hlt : x < 2 ^ 128) : toUint128 x = x :=
  Int.emod_eq_of_lt h hlt

theorem toShare_of_nonneg {x : Int} (h : 0 ≤ x) (hlt : x < 2 ^ 63) : toShare x = x := by
  refine Int.bmod_eq_of_le ?_ ?_
  · omega
  · omega

theorem toUint64_of_nonneg {x y : Int} (h : 0 ≤ x) (hlt : x < 2 ^ 63) (hx : toUint64 x = .ok y) :
    y = x := by
  simp only [toUint64, bind_eq_ok, require_eq_ok, exists_const, pure_eq_ok] at hx
  rw [hx.2, toShare_of_nonneg h hlt]

namespace State

variable {S S' : State} {id : Nat}

/-! ### The maintenance of the accounts -/

theorem refreshBalances_worth (S : State) :
    (S.refreshBalances.accounts.sum fun _ a => a.worth) = S.accounts.sum fun _ a => a.worth := by
  rw [refreshBalances, Table.sum_map]
  refine Table.sum_congr fun id a _ => ?_
  split
  · rename_i balance hbalance
    simp [Account.worth, Account.core, hbalance]
  · rfl

theorem refreshBalances_adds (S : State) : Adds S S.refreshBalances 0 := by
  refine ⟨?_, rfl⟩
  have hworth := refreshBalances_worth S
  simp only [books, State.total] at hworth ⊢
  rw [hworth, add_zero]
  rfl

theorem refreshBalances_grows (S : State) : Grows S S.refreshBalances := by
  refine ⟨fun h => ⟨fun id a ha => ?_, h.vestingBalances, h.fbaAccumulators, h.accumulatedFees,
    h.witnessBudget, h.held⟩, le_refl _⟩
  rw [refreshBalances, Table.find_map, Option.map_eq_some_iff] at ha
  obtain ⟨b, hb, rfl⟩ := ha
  have hnonneg := h.accounts id b hb
  split
  · rename_i balance hbalance
    refine ⟨?_, hnonneg.pendingFees, hnonneg.pendingVestedFees⟩
    simpa [Account.core, hbalance] using hnonneg.core
  · exact hnonneg

theorem maintenanceRound_adds {s : State × Tally × Option AccountId}
    {r : (State × Tally × Option AccountId) ⊕ State × Tally} (h : maintenanceRound s = .ok r) :
    Adds s.1 (r.elim Prod.fst Prod.fst) 0 := by
  unfold maintenanceRound at h
  split at h
  · exact pure_eq_ok.mp h ▸ Adds.refl _
  · simp only [bind_eq_ok, pure_eq_ok] at h
    obtain ⟨a, -, T, -, S, hS, rfl⟩ := h
    split at hS
    · exact processFees_adds hS
    · exact pure_eq_ok.mp hS ▸ Adds.refl _

theorem maintenanceRound_grows {s : State × Tally × Option AccountId}
    {r : (State × Tally × Option AccountId) ⊕ State × Tally} (hs : s.1.Nonneg)
    (h : maintenanceRound s = .ok r) : Grows s.1 (r.elim Prod.fst Prod.fst) := by
  unfold maintenanceRound at h
  split at h
  · exact pure_eq_ok.mp h ▸ Grows.refl _
  · simp only [bind_eq_ok, pure_eq_ok] at h
    obtain ⟨a, -, T, -, S, hS, rfl⟩ := h
    split at hS
    · exact processFees_grows hs hS
    · exact pure_eq_ok.mp hS ▸ Grows.refl _

theorem performAccountMaintenance_adds {rounds : Nat} {r : State × Tally}
    (h : S.performAccountMaintenance rounds = .ok r) : Adds S r.1 0 := by
  refine loop_invariant (P := fun s => Adds S s.1 0) (Q := fun r => Adds S r.1 0)
    (fun s s' hs hround => ?_) (fun s r hs hround => ?_) rounds _ r (refreshBalances_adds S) h
  · exact hs.trans (maintenanceRound_adds hround)
  · exact hs.trans (maintenanceRound_adds hround)

theorem performAccountMaintenance_grows {rounds : Nat} {r : State × Tally} (hS : S.Nonneg)
    (h : S.performAccountMaintenance rounds = .ok r) : Grows S r.1 := by
  refine loop_invariant (P := fun s => Grows S s.1) (Q := fun r => Grows S r.1)
    (fun s s' hs hround => ?_) (fun s r hs hround => ?_) rounds _ r (refreshBalances_grows S) h
  · exact hs.trans (maintenanceRound_grows (hs.nonneg hS) hround)
  · exact hs.trans (maintenanceRound_grows (hs.nonneg hS) hround)

theorem upgradeToLifetimeMember_adds (h : S.upgradeToLifetimeMember id = .ok S') : Adds S S' 0 := by
  simp only [upgradeToLifetimeMember, bind_eq_ok, account_eq_ok, require_eq_ok, exists_const,
    pure_eq_ok] at h
  obtain ⟨a, -, -, S1, h1, a1, ha1, rfl⟩ := h
  have hset := setAccount_adds (b := { a1 with
    membershipExpirationDate := endOfTime
    referrer := id
    registrar := id
    lifetimeReferrer := id
    lifetimeReferrerFeePercentage := fullPercent - a1.networkFeePercentage
    percentages := ⟨by have := a1.percentages.1; omega, a1.percentages.2⟩ }) ha1
  have hsame : ∀ b : Account, b.worth - b.worth = 0 := fun b => sub_self _
  exact (processFees_adds h1).trans ((hsame a1) ▸ hset)

theorem upgradeToLifetimeMember_grows (hS : S.Nonneg)
    (h : S.upgradeToLifetimeMember id = .ok S') : Grows S S' := by
  simp only [upgradeToLifetimeMember, bind_eq_ok, account_eq_ok, require_eq_ok, exists_const,
    pure_eq_ok] at h
  obtain ⟨a, -, -, S1, h1, a1, ha1, rfl⟩ := h
  exact (processFees_grows hS h1).trans (setAccount_grows ha1 fun hnonneg =>
    ⟨hnonneg.core, hnonneg.pendingFees, hnonneg.pendingVestedFees⟩)

/-! ### Fees of confidential transfers -/

/-- A change that may also take fees out of an accumulator. -/
structure Conserves (S S' : State) : Prop where
  books : S'.books = S.books
  maxSupply : S'.core.maxSupply = S.core.maxSupply

theorem Conserves.refl (S : State) : Conserves S S := ⟨rfl, rfl⟩

theorem Conserves.trans {S1 : State} (h : Conserves S S1) (h' : Conserves S1 S') : Conserves S S' :=
  ⟨h'.books.trans h.books, h'.maxSupply.trans h.maxSupply⟩

theorem Conserves.balanced (h : Conserves S S') (hS : S.total = S.core.currentSupply) :
    S'.total = S'.core.currentSupply := by
  have hbooks := h.books
  simp only [State.books] at hbooks
  omega

theorem Adds.conserves (h : Adds S S' 0) : Conserves S S' :=
  ⟨h.books.trans (add_zero _), by rw [h.rest]⟩

theorem splitFbaBalance_cases (h : S.splitFbaBalance id = .ok S') :
    ∃ fba S1, S.fbaAccumulators.find id = some fba ∧ S1.fbaAccumulators = S.fbaAccumulators ∧
      ((fba.accumulatedFbaFees = 0 ∧ S' = S) ∨
        (Adds S S1 fba.accumulatedFbaFees ∧
          (0 ≤ fba.accumulatedFbaFees → Grows S S1) ∧
          S' = { S1 with
            fbaAccumulators := S1.fbaAccumulators.set id
              { fba with accumulatedFbaFees := 0 } })) := by
  simp only [splitFbaBalance, bind_eq_ok, demand_eq_ok] at h
  obtain ⟨fba, hfba, h⟩ := h
  split at h
  · exact ⟨fba, S, hfba, rfl, Or.inl ⟨‹_›, pure_eq_ok.mp h⟩⟩
  · simp only [bind_eq_ok, pure_eq_ok] at h
    obtain ⟨S1, h1, rfl⟩ := h
    split at h1
    · obtain rfl := pure_eq_ok.mp h1
      exact ⟨fba, S.burn fba.accumulatedFbaFees, hfba, rfl,
        Or.inr ⟨burn_adds S _, fun hpos => burn_grows S hpos, rfl⟩⟩
    · rename_i buybackAccount issuer hdesignated
      simp only [bind_eq_ok, require_eq_ok, exists_const] at h1
      obtain ⟨buyback, hbuyback, share, hshare, hle, S2, h2, h3⟩ := h1
      have hadds := (burn_adds S (fba.accumulatedFbaFees - (buyback + share))).trans
        ((adjustBalance_adds h2).trans (adjustBalance_adds h3))
      have hsum : fba.accumulatedFbaFees - (buyback + share) + (buyback + share) =
        fba.accumulatedFbaFees := by omega
      refine ⟨fba, S1, hfba, by rw [hadds.rest], Or.inr ⟨hsum ▸ hadds, fun _ => ?_, rfl⟩⟩
      exact (burn_grows S (by omega)).trans ((adjustBalance_grows h2).trans
        (adjustBalance_grows h3))

theorem splitFbaBalance_conserves (h : S.splitFbaBalance id = .ok S') : Conserves S S' := by
  obtain ⟨fba, S1, hfba, hsame, ⟨-, rfl⟩ | ⟨hadds, -, rfl⟩⟩ := splitFbaBalance_cases h
  · exact Conserves.refl _
  · have hbooks := hadds.books
    have hmax : S1.core.maxSupply = S.core.maxSupply := by rw [hadds.rest]
    refine ⟨?_, hmax⟩
    rw [← hsame] at hfba
    simp only [books, State.total, Table.sum_set hfba] at hbooks ⊢
    omega

theorem splitFbaBalance_grows (hS : S.Nonneg) (h : S.splitFbaBalance id = .ok S') : Grows S S' := by
  obtain ⟨fba, S1, hfba, hsame, ⟨-, rfl⟩ | ⟨-, hgrows, rfl⟩⟩ := splitFbaBalance_cases h
  · exact Grows.refl _
  · refine (hgrows (hS.fbaAccumulators id fba hfba)).trans
      ⟨fun hS1 => ⟨hS1.accounts, hS1.vestingBalances, fun j f hf => ?_, hS1.accumulatedFees,
        hS1.witnessBudget, hS1.held⟩, le_refl _⟩
    rw [← hsame] at hfba
    rcases (Table.find_set_iff hfba).mp hf with ⟨-, rfl⟩ | ⟨-, hf⟩
    · exact le_refl 0
    · exact hS1.fbaAccumulators j f hf

theorem distributeFbaBalances_conserves (h : S.distributeFbaBalances = .ok S') : Conserves S S' :=
  foldlM_invariant (P := Conserves S)
    (fun _ _ _ hM hstep => hM.trans (splitFbaBalance_conserves hstep)) _ S S' (Conserves.refl S) h

theorem distributeFbaBalances_grows (hS : S.Nonneg) (h : S.distributeFbaBalances = .ok S') :
    Grows S S' :=
  foldlM_invariant (P := Grows S)
    (fun _ _ _ hM hstep => hM.trans (splitFbaBalance_grows (hM.nonneg hS) hstep)) _ S S'
    (Grows.refl S) h

/-! ### Workers -/

variable {amount passed : Int}

theorem setWorker_adds (S : State) (id : Nat) (w : Worker) :
    Adds S { S with workers := S.workers.set id w } 0 := ⟨(add_zero _).symm, rfl⟩

theorem setWorker_grows (S : State) (id : Nat) (w : Worker) :
    Grows S { S with workers := S.workers.set id w } :=
  ⟨fun hS => ⟨hS.accounts, hS.vestingBalances, hS.fbaAccumulators, hS.accumulatedFees,
    hS.witnessBudget, hS.held⟩, le_refl _⟩

theorem payWorker_adds (h : S.payWorker id amount = .ok S') :
    Adds S S' amount ∧ S'.core.accumulatedFees = S.core.accumulatedFees := by
  simp only [payWorker, bind_eq_ok, demand_eq_ok] at h
  obtain ⟨w, -, h⟩ := h
  split at h
  · obtain rfl := pure_eq_ok.mp h
    exact ⟨((setWorker_adds S id _).trans (burn_adds _ amount)).congr (zero_add amount), rfl⟩
  · simp only [bind_eq_ok, demand_eq_ok, pure_eq_ok] at h
    obtain ⟨vbo, hvbo, rfl⟩ := h
    exact ⟨setVesting_adds hvbo amount, rfl⟩
  · refine ⟨((setWorker_adds S id _).trans (adjustBalance_adds h)).congr (zero_add amount), ?_⟩
    unfold adjustBalance at h
    split at h
    · exact pure_eq_ok.mp h ▸ rfl
    · simp only [bind_eq_ok, account_eq_ok] at h
      obtain ⟨a, -, h⟩ := h
      split at h <;> simp only [bind_eq_ok, require_eq_ok, exists_const, pure_eq_ok] at h <;>
        obtain ⟨-, rfl⟩ := h <;> rfl

theorem payWorker_grows (hamount : 0 ≤ amount) (h : S.payWorker id amount = .ok S') :
    Grows S S' := by
  simp only [payWorker, bind_eq_ok, demand_eq_ok] at h
  obtain ⟨w, -, h⟩ := h
  split at h
  · obtain rfl := pure_eq_ok.mp h
    exact (setWorker_grows S id _).trans (burn_grows _ hamount)
  · simp only [bind_eq_ok, demand_eq_ok, pure_eq_ok] at h
    obtain ⟨vbo, hvbo, rfl⟩ := h
    exact setVesting_grows hvbo hamount
  · exact (setWorker_grows S id _).trans (adjustBalance_grows h)

/-- The workers are paid from a budget: what is paid is added to the books. -/
structure Payroll (S : State) (budget : Int) (s : State × Int) : Prop where
  adds : Adds S s.1 (budget - s.2)
  fees : s.1.core.accumulatedFees = S.core.accumulatedFees

theorem payNext_payroll {budget : Int} {s s' : State × Int} {w : Nat × Worker}
    (hs : Payroll S budget s) (h : payNext passed s w = .ok s') : Payroll S budget s' := by
  unfold payNext at h
  split at h
  · simp only [bind_eq_ok, pure_eq_ok] at h
    obtain ⟨requested, -, S1, h1, rfl⟩ := h
    obtain ⟨hadds, hfees⟩ := payWorker_adds h1
    exact ⟨(hs.adds.trans hadds).congr (by simp only; omega), hfees.trans hs.fees⟩
  · exact pure_eq_ok.mp h ▸ hs

theorem payWorkers_payroll {budget : Int} {s : State × Int} (h : S.payWorkers budget = .ok s) :
    Payroll S budget s := by
  refine foldlM_invariant (P := Payroll S budget) (fun _ _ _ hs hstep => payNext_payroll hs hstep)
    _ _ s ⟨?_, rfl⟩ h
  exact (Adds.refl S).congr (sub_self budget).symm

theorem payWorkers_grows {budget : Int} {s : State × Int} (hbudget : 0 ≤ budget)
    (hpay : 0 < budget → ∀ w ∈ S.activeWorkers, ∀ pay, w.2.requestedPay
      (((S.headBlockTime : Int) - S.lastBudgetTime) * 1000000) = .ok pay → 0 ≤ pay)
    (h : S.payWorkers budget = .ok s) : Grows S s.1 ∧ 0 ≤ s.2 ∧ s.2 ≤ budget := by
  have hall := foldlM_induction
    (P := fun l (s : State × Int) => (∀ w ∈ l, w ∈ S.activeWorkers) ∧ Grows S s.1 ∧ 0 ≤ s.2 ∧
      s.2 ≤ budget)
    (fun w l s s' hs hstep => ?_) S.activeWorkers (S, budget) s
    ⟨fun _ hw => hw, Grows.refl S, hbudget, le_refl _⟩ h
  · exact hall.2
  · obtain ⟨hmem, hgrows, hpos, hle⟩ := hs
    refine ⟨fun v hv => hmem v (List.mem_cons_of_mem _ hv), ?_⟩
    unfold payNext at hstep
    split at hstep
    · rename_i hleft
      simp only [bind_eq_ok, pure_eq_ok] at hstep
      obtain ⟨requested, hrequested, S1, h1, rfl⟩ := hstep
      have hnonneg := hpay (by omega) w (hmem w (List.mem_cons_self ..)) requested hrequested
      refine ⟨hgrows.trans (payWorker_grows (by omega) h1), ?_, ?_⟩ <;> simp only <;> omega
    · exact pure_eq_ok.mp hstep ▸ ⟨hgrows, hpos, hle⟩

/-! ### The budget -/

/-- A state whose amounts are not negative, add up to the supply, and are below the maximum. -/
structure Sound (S : State) : Prop where
  nonneg : S.Nonneg
  balanced : S.total = S.core.currentSupply
  below : S.core.currentSupply ≤ S.core.maxSupply
  maxSupply : S.core.maxSupply < 2 ^ 63

theorem Sound.supply_nonneg (h : S.Sound) : 0 ≤ S.core.currentSupply :=
  h.balanced ▸ h.nonneg.total

theorem Sound.reserve_range (h : S.Sound) : 0 ≤ S.reserve ∧ S.reserve < 2 ^ 63 := by
  have hfees := h.nonneg.accumulatedFees
  have hbudget := h.nonneg.witnessBudget
  have hheld := h.nonneg.held
  have hbelow := h.below
  have hmax := h.maxSupply
  have haccounts : 0 ≤ S.accounts.sum fun _ a => a.worth := Table.sum_nonneg fun id a ha => by
    have := h.nonneg.accounts id a ha
    exact add_nonneg (add_nonneg this.core this.pendingFees) this.pendingVestedFees
  have hvesting : 0 ≤ S.vestingBalances.sum fun _ v => v.balance :=
    Table.sum_nonneg h.nonneg.vestingBalances
  have hfba : 0 ≤ S.fbaAccumulators.sum fun _ f => f.accumulatedFbaFees :=
    Table.sum_nonneg h.nonneg.fbaAccumulators
  have htotal := h.balanced
  simp only [State.total] at htotal
  simp only [reserve, reserved]
  omega

theorem totalBudget_range {total : Int} (hS : S.Sound) (h : S.totalBudget = .ok total) :
    0 ≤ total ∧ total ≤ S.reserve ∧ (0 < total → S.lastBudgetTime < S.headBlockTime) := by
  obtain ⟨hpos, hlt⟩ := hS.reserve_range
  unfold totalBudget at h
  split at h
  · obtain rfl := pure_eq_ok.mp h
    exact ⟨le_refl 0, hpos, fun hlt => absurd hlt (lt_irrefl _)⟩
  · rename_i hdue
    have htime : S.lastBudgetTime < S.headBlockTime := by omega
    simp only at h
    rw [toUint128_of_nonneg hpos (hlt.trans (by decide))] at h
    generalize hbudget : (S.reserve * ((S.headBlockTime - S.lastBudgetTime : Nat) : Int) * 17 +
      (2 ^ 32 - 1)) % 2 ^ 128 / 2 ^ 32 = budget at h
    have hnonneg : 0 ≤ budget := by
      rw [← hbudget]
      exact Int.ediv_nonneg (Int.emod_nonneg _ (by decide)) (by decide)
    split at h
    · rename_i hless
      obtain rfl := toUint64_of_nonneg hnonneg (hless.trans hlt) h
      exact ⟨hnonneg, le_of_lt hless, fun _ => htime⟩
    · obtain rfl := pure_eq_ok.mp h
      exact ⟨hpos, le_refl _, fun _ => htime⟩

theorem workerBudget_range {available budget : Int} (hpos : 0 ≤ available)
    (hlt : available < 2 ^ 63) (h : S.workerBudget available = .ok budget) :
    0 ≤ budget ∧ budget ≤ available := by
  simp only [workerBudget] at h
  rw [toUint128_of_nonneg hpos (hlt.trans (by decide))] at h
  split at h
  · obtain rfl := pure_eq_ok.mp h
    exact ⟨hpos, le_refl _⟩
  · rename_i hless
    have hnonneg : 0 ≤ toUint128 S.parameters.workerBudgetPerDay *
        ((S.nextMaintenanceTime - S.headBlockTime : Nat) : Int) % 2 ^ 128 / 86400 :=
      Int.ediv_nonneg (Int.emod_nonneg _ (by decide)) (by decide)
    obtain rfl := toUint64_of_nonneg hnonneg ((not_le.mp hless).trans hlt) h
    exact ⟨hnonneg, le_of_lt (not_le.mp hless)⟩

/-- The pay of the witnesses until the next maintenance and of the workers since the last budget is
not negative and is a share amount. -/
structure PaysFit (S : State) : Prop where
  witnessPay : 0 ≤ S.parameters.witnessPayPerBlock
  witnessBudget : S.parameters.witnessPayPerBlock * S.blocksToMaint < 2 ^ 63
  workers : ∀ id w, S.workers.find id = some w → w.isActive S.headBlockTime = true →
    w.dailyPay * (((S.headBlockTime : Int) - S.lastBudgetTime) * 1000000) / 86400000000 < 2 ^ 63

theorem requestedPay_nonneg {w : Worker} {pay : Int} (hpassed : 0 ≤ passed)
    (hfit : w.dailyPay * passed / 86400000000 < 2 ^ 63) (h : w.requestedPay passed = .ok pay) :
    0 ≤ pay := by
  have hpay := w.pay_range
  have hnonneg : 0 ≤ w.dailyPay * passed := mul_nonneg (le_of_lt hpay.1) hpassed
  have hsmall : w.dailyPay * passed < 2 ^ 128 := by
    have hlt := Int.lt_mul_of_ediv_lt (by decide) hfit
    exact hlt.trans (by decide)
  have hle : passed ≤ w.dailyPay * passed := le_mul_of_one_le_left hpassed hpay.1
  unfold Worker.requestedPay at h
  rw [toUint128_of_nonneg (le_of_lt hpay.1) (hpay.2.trans (by decide)),
    toUint128_of_nonneg hpassed (hle.trans_lt hsmall), Int.emod_eq_of_lt hnonneg hsmall] at h
  have hdiv : 0 ≤ w.dailyPay * passed / 86400000000 := Int.ediv_nonneg hnonneg (by decide)
  exact toUint64_of_nonneg hdiv hfit h ▸ hdiv

theorem processBudget_conserves {record : BudgetRecord} (h : S.processBudget = .ok (record, S')) :
    Conserves S S' := by
  simp only [processBudget, bind_eq_ok, pure_eq_ok, Prod.mk.injEq] at h
  obtain ⟨total, -, budget, -, paid, hpaid, -, rfl⟩ := h
  obtain ⟨hadds, hfees⟩ := payWorkers_payroll hpaid
  have hbooks := hadds.books
  have hbudget : paid.1.witnessBudget = S.witnessBudget := by rw [hadds.rest]
  have hmax : paid.1.core.maxSupply = S.core.maxSupply := by rw [hadds.rest]
  refine ⟨?_, hmax⟩
  simp only [books, State.total] at hbooks ⊢
  omega

/-- The amounts of a record: what is paid comes out of the budget, and the budget out of the
reserve. -/
structure BudgetRecord.Bounded (record : BudgetRecord) (reserve : Int) : Prop where
  totalBudget : 0 ≤ record.totalBudget ∧ record.totalBudget ≤ reserve
  witnessBudget : 0 ≤ record.witnessBudget
  leftoverWorkerFunds : 0 ≤ record.leftoverWorkerFunds ∧
    record.leftoverWorkerFunds ≤ record.workerBudget
  within : record.witnessBudget + record.workerBudget ≤ record.totalBudget

theorem processBudget_sound {record : BudgetRecord} (hS : S.Sound) (hfit : S.PaysFit)
    (h : S.processBudget = .ok (record, S')) : S'.Sound ∧ record.Bounded S.reserve := by
  have hconserves := processBudget_conserves h
  simp only [processBudget, bind_eq_ok, pure_eq_ok, Prod.mk.injEq] at h
  obtain ⟨total, htotal, budget, hbudget, paid, hpaid, rfl, rfl⟩ := h
  obtain ⟨htotalPos, htotalLe, htime⟩ := totalBudget_range hS htotal
  obtain ⟨-, hreserve⟩ := hS.reserve_range
  have hrequested : 0 ≤ S.requestedWitnessBudget := by
    have hpos : 0 ≤ S.parameters.witnessPayPerBlock * S.blocksToMaint :=
      mul_nonneg hfit.witnessPay (Int.natCast_nonneg _)
    rw [requestedWitnessBudget, toShare_of_nonneg hpos hfit.witnessBudget]
    exact hpos
  obtain ⟨hbudgetPos, hbudgetLe⟩ := workerBudget_range (by omega) (by omega) hbudget
  obtain ⟨hgrows, hleftPos, hleftLe⟩ := payWorkers_grows hbudgetPos (fun hsome w hw pay hpay => by
    have hpassed := htime (by omega)
    obtain ⟨hrow, hactive⟩ := List.mem_filter.mp (List.mem_insertionSort _ |>.mp hw)
    exact requestedPay_nonneg (by omega)
      (hfit.workers w.1 w.2 (Table.find_iff_mem.mpr hrow) (Bool.and_eq_true_iff.mp hactive).1) hpay)
    hpaid
  have hrest := (payWorkers_payroll hpaid).adds.rest
  have hmax : paid.1.core.maxSupply = S.core.maxSupply := by rw [hrest]
  have hpaidNonneg := hgrows.nonneg hS.nonneg
  have hsupply := hgrows.supply
  have hmaxLt := hS.maxSupply
  simp only [reserve, reserved] at htotalLe hreserve
  refine ⟨⟨⟨hpaidNonneg.accounts, hpaidNonneg.vestingBalances, hpaidNonneg.fbaAccumulators,
    le_refl 0,
    ?_, hpaidNonneg.held⟩, hconserves.balanced hS.balanced, ?_, ?_⟩,
    ⟨⟨htotalPos, htotalLe⟩, ?_, ⟨hleftPos, hleftLe⟩, ?_⟩⟩
  · simp only
    omega
  · simp only
    omega
  · simp only
    omega
  · simp only
    omega
  · simp only
    omega

theorem Sound.of_grows (hS : S.Sound) (hconserves : Conserves S S') (hgrows : Grows S S') :
    S'.Sound :=
  ⟨hgrows.nonneg hS.nonneg, hconserves.balanced hS.balanced,
    hgrows.supply.trans (hS.below.trans (le_of_eq hconserves.maxSupply.symm)),
    hconserves.maxSupply ▸ hS.maxSupply⟩

/-! ### Witnesses -/

theorem updateSigningWitness_conserves (h : S.updateSigningWitness id = .ok S') :
    Conserves S S' := by
  have hadds := depositWitnessPay_adds h
  have hbooks := hadds.books
  refine ⟨?_, by rw [hadds.rest]⟩
  rw [hbooks]
  simp only [books, State.total]
  omega

theorem updateSigningWitness_grows (hpay : 0 ≤ S.parameters.witnessPayPerBlock) (hS : S.Nonneg)
    (h : S.updateSigningWitness id = .ok S') : Grows S S' := by
  have hbudget := hS.witnessBudget
  refine Grows.trans (T := { S with
    witnessBudget := S.witnessBudget - min S.parameters.witnessPayPerBlock S.witnessBudget })
    ⟨fun _ => ⟨hS.accounts, hS.vestingBalances, hS.fbaAccumulators, hS.accumulatedFees, ?_,
      hS.held⟩,
      le_refl _⟩ (depositWitnessPay_grows ?_ h)
  · show 0 ≤ S.witnessBudget - min S.parameters.witnessPayPerBlock S.witnessBudget
    omega
  · omega

end State

/-! ### Runs -/

open State

/-- What the rest of a block does, transactions and market: it moves the core asset and may burn
some of it. -/
structure Elsewhere (S S' : State) : Prop where
  conserves : Conserves S S'
  grows : Grows S S'

/-- The steps of a block that the budget pays for or pays from.  In a run that is `checked` the pay
of the witnesses and workers fits. -/
inductive Step (checked : Bool) : State → State → Prop
  | updateSigningWitness {S S' : State} (witness : Nat)
      (hfit : checked = true → 0 ≤ S.parameters.witnessPayPerBlock)
      (h : S.updateSigningWitness witness = .ok S') : Step checked S S'
  | distributeFbaBalances {S S' : State} (h : S.distributeFbaBalances = .ok S') : Step checked S S'
  | performAccountMaintenance {S S' : State} {T : Tally} (rounds : Nat)
      (h : S.performAccountMaintenance rounds = .ok (S', T)) : Step checked S S'
  | upgradeToLifetimeMember {S S' : State} (account : AccountId)
      (h : S.upgradeToLifetimeMember account = .ok S') : Step checked S S'
  | processBudget {S S' : State} {record : BudgetRecord} (firstBlock : Bool)
      (hfit : checked = true →
        { S with nextMaintenanceTime := S.laterMaintenance firstBlock }.PaysFit)
      (h : { S with nextMaintenanceTime := S.laterMaintenance firstBlock }.processBudget =
        .ok (record, S')) : Step checked S S'
  | elsewhere {S S' : State} (h : Elsewhere S S') : Step checked S S'

def Run (checked : Bool) : State → State → Prop := Relation.ReflTransGen (Step checked)

variable {S S' S₀ : State} {checked : Bool}

theorem Step.conserves (h : Step checked S S') : Conserves S S' := by
  cases h with
  | updateSigningWitness witness hfit h => exact updateSigningWitness_conserves h
  | distributeFbaBalances h => exact distributeFbaBalances_conserves h
  | performAccountMaintenance rounds h => exact (performAccountMaintenance_adds h).conserves
  | upgradeToLifetimeMember account h => exact (upgradeToLifetimeMember_adds h).conserves
  | processBudget firstBlock hfit h =>
    exact ⟨(processBudget_conserves h).books, (processBudget_conserves h).maxSupply⟩
  | elsewhere h => exact h.conserves

theorem State.Sound.later (h : S.Sound) (time : Nat) :
    { S with nextMaintenanceTime := time }.Sound :=
  ⟨⟨h.nonneg.accounts, h.nonneg.vestingBalances, h.nonneg.fbaAccumulators, h.nonneg.accumulatedFees,
    h.nonneg.witnessBudget, h.nonneg.held⟩, h.balanced, h.below, h.maxSupply⟩

theorem Step.sound (hS : S.Sound) (h : Step true S S') : S'.Sound := by
  have hconserves := h.conserves
  cases h with
  | updateSigningWitness witness hfit h =>
    exact hS.of_grows hconserves (updateSigningWitness_grows (hfit rfl) hS.nonneg h)
  | distributeFbaBalances h =>
    exact hS.of_grows hconserves (distributeFbaBalances_grows hS.nonneg h)
  | performAccountMaintenance rounds h =>
    exact hS.of_grows hconserves (performAccountMaintenance_grows hS.nonneg h)
  | upgradeToLifetimeMember account h =>
    exact hS.of_grows hconserves (upgradeToLifetimeMember_grows hS.nonneg h)
  | processBudget firstBlock hfit h => exact (processBudget_sound (hS.later _) (hfit rfl) h).1
  | elsewhere h => exact hS.of_grows hconserves h.grows

theorem Run.sound (h₀ : S₀.Sound) (h : Run true S₀ S) : S.Sound := by
  induction h with
  | refl => exact h₀
  | tail _ hstep ih => exact hstep.sound ih

theorem Run.maxSupply (h : Run checked S₀ S) : S.core.maxSupply = S₀.core.maxSupply := by
  induction h with
  | refl => rfl
  | tail _ hstep ih => exact hstep.conserves.maxSupply.trans ih

/-- Every step changes the sum of the core asset by what it changes the supply.  In every state of a
run in which the pay of the witnesses and workers fits, no amount is negative, the supply is at most
the maximum, and a budget pays no more than there is in the reserve. -/
theorem core_conserved_through_maintenance (h₀ : S₀.Sound) :
    (∀ S S', Run false S₀ S → Step false S S' →
      S'.total - S.total = S'.core.currentSupply - S.core.currentSupply) ∧
    ∀ S, Run true S₀ S → S.Nonneg ∧ 0 ≤ S.core.currentSupply ∧
      S.core.currentSupply ≤ S.core.maxSupply ∧
      ∀ (firstBlock : Bool) (record : BudgetRecord) (S' : State),
        { S with nextMaintenanceTime := S.laterMaintenance firstBlock }.PaysFit →
        { S with nextMaintenanceTime := S.laterMaintenance firstBlock }.processBudget =
          .ok (record, S') → record.Bounded S.reserve := by
  refine ⟨fun S S' _ hstep => ?_, fun S hrun => ?_⟩
  · have hbooks := hstep.conserves.books
    simp only [State.books] at hbooks
    omega
  · have hsound := hrun.sound h₀
    exact ⟨hsound.nonneg, hsound.supply_nonneg, hsound.below, fun firstBlock record S' hfit h =>
      (processBudget_sound (hsound.later _) hfit h).2⟩

/-! ### Examples of budgets -/

/-- An account that votes for nothing and refers itself. -/
def plainAccount (name : List Char) (id : AccountId) (core fees : Int) : Account :=
  ⟨name, endOfTime, id, id, id, 2000, 3000, 0, ⟨proxyToSelfAccount, 0, 0, [], rfl⟩, none,
    ⟨0, core, false, false, 0, fees, 0⟩, some ⟨core, false⟩, by decide⟩

/-- An hour after the last budget, with seven accounts of which the last one has paid fees, two
workers, and a pay of the witnesses. -/
def hourlyState (pay : Int) : State where
  headBlockTime := 1600003600
  nextMaintenanceTime := 1600003600
  lastBudgetTime := 1600000000
  nextAvailableVoteId := 0
  parameters := ⟨5, 3600, 31536000, 86400, pay, 1000000, true, 11, 11, by decide⟩
  accounts := Table.ofList ((List.range 6).map (fun id => plainAccount ['a'] id 0 0) ++
    [plainAccount ['b'] 6 900 100])
  vestingBalances := Table.ofList [⟨6, 0, some 86400⟩]
  witnesses := Table.ofList [⟨6, none⟩]
  workers := Table.ofList [⟨24000, 0, endOfTime, 5, 0, .vesting 0, by decide⟩,
    ⟨48000, 0, endOfTime, 4, 0, .refund 0, by decide⟩]
  fbaAccumulators := Table.ofList [⟨0, none⟩, ⟨0, none⟩, ⟨0, none⟩]
  core := ⟨1000, 1000000000000, 0⟩
  witnessBudget := 0
  held := 0

theorem hourlyState_sound (pay : Int) : (hourlyState pay).Sound := by
  have haccounts : ∀ r ∈ (hourlyState 0).accounts.rows,
      0 ≤ r.2.core ∧ 0 ≤ r.2.statistics.pendingFees ∧ 0 ≤ r.2.statistics.pendingVestedFees := by
    decide
  have hvesting : ∀ r ∈ (hourlyState 0).vestingBalances.rows, 0 ≤ r.2.balance := by decide
  have hfba : ∀ r ∈ (hourlyState 0).fbaAccumulators.rows, 0 ≤ r.2.accumulatedFbaFees := by decide
  have hbalanced : (hourlyState 0).total = 1000 := by decide
  refine ⟨⟨fun id a ha => ?_, fun id v hv => hvesting (id, v) (Table.find_iff_mem.mp hv),
    fun id f hf => hfba (id, f) (Table.find_iff_mem.mp hf), le_refl 0, le_refl 0, le_refl 0⟩,
    hbalanced, show (1000 : Int) ≤ 1000000000000 by decide,
    show (1000000000000 : Int) < 2 ^ 63 by decide⟩
  obtain ⟨hcore, hfees, hvested⟩ := haccounts (id, a) (Table.find_iff_mem.mp ha)
  exact ⟨hcore, hfees, hvested⟩

/-- The fees of an account are distributed, and then the budget is made. -/
theorem core_conserved_hourly : ∃ S T S' record,
    (hourlyState 10).performAccountMaintenance 8 = .ok (S, T) ∧
    { S with nextMaintenanceTime := S.laterMaintenance false }.processBudget = .ok (record, S') ∧
    record.witnessBudget = 7200 ∧ S'.core.currentSupply = 9180 ∧
    S'.total - S.total = S'.core.currentSupply - S.core.currentSupply ∧ S.Nonneg ∧
    record.Bounded S.reserve := by
  have hrun : ((hourlyState 10).performAccountMaintenance 8).toOption.any
    (fun (r : State × Tally) =>
      ({ r.1 with nextMaintenanceTime := r.1.laterMaintenance false }.processBudget).toOption.any
        fun (b : BudgetRecord × State) => b.1.witnessBudget = 7200 ∧ b.2.core.currentSupply = 9180 ∧
          0 ≤ r.1.parameters.witnessPayPerBlock ∧ r.1.parameters.witnessPayPerBlock *
            { r.1 with nextMaintenanceTime := r.1.laterMaintenance false }.blocksToMaint < 2 ^ 63 ∧
          ∀ w ∈ r.1.workers.rows, w.2.dailyPay *
            (((r.1.headBlockTime : Int) - r.1.lastBudgetTime) * 1000000) / 86400000000 < 2 ^ 63) =
      true := by decide +kernel
  obtain ⟨⟨S, T⟩, hS, hstate⟩ := exists_ok_of_any hrun
  obtain ⟨⟨record, S'⟩, hbudget, hstate⟩ := exists_ok_of_any hstate
  obtain ⟨hwitness, hsupply, hpay, hblocks, hworkers⟩ := of_decide_eq_true hstate
  have hfit : { S with nextMaintenanceTime := S.laterMaintenance false }.PaysFit :=
    ⟨hpay, hblocks, fun id w hw _ => hworkers (id, w) (Table.find_iff_mem.mp hw)⟩
  obtain ⟨hconserved, hbounds⟩ := core_conserved_through_maintenance (hourlyState_sound 10)
  obtain ⟨hnonneg, -, -, hrecord⟩ :=
    hbounds S (Relation.ReflTransGen.single (.performAccountMaintenance 8 hS))
  exact ⟨S, T, S', record, hS, hbudget, hwitness, hsupply,
    hconserved S S' (Relation.ReflTransGen.single (.performAccountMaintenance 8 hS))
      (.processBudget false (fun h => nomatch h) hbudget), hnonneg,
    hrecord false record S' hfit hbudget⟩

/-- The pay of the witnesses is not checked when it is set, and a negative one makes their budget
negative. -/
theorem witness_budget_negative : ∃ S₀ S, S₀.Sound ∧ Run false S₀ S ∧ S.witnessBudget < 0 := by
  have hrun : ({ hourlyState (-1) with
      nextMaintenanceTime := (hourlyState (-1)).laterMaintenance false }.processBudget).toOption.any
      (fun (r : BudgetRecord × State) => r.2.witnessBudget < 0) = true := by decide +kernel
  obtain ⟨⟨record, S⟩, hbudget, hstate⟩ := exists_ok_of_any hrun
  exact ⟨hourlyState (-1), S, hourlyState_sound (-1),
    Relation.ReflTransGen.single (.processBudget false (fun h => nomatch h) hbudget),
    of_decide_eq_true hstate⟩

end Nestchain.Maintenance
