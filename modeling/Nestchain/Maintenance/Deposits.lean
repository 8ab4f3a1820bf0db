import Nestchain.Maintenance.Chain
import Mathlib.Tactic.Linarith

/-! What the deposits and the distribution of the fees do.  The books are what all holders have of
the core asset less its supply: a deposit of an amount adds it to the books, and the distribution of
fees adds nothing.  Of the other accounts a deposit changes at most the cashback balance of one. -/

namespace Nestchain.Maintenance

open Lib

/-! ### The books -/

/-- The core asset of an account outside of orders and vesting balances: its balance, and the fees
that are not distributed yet. -/
def Account.worth (a : Account) : Int :=
  a.core + a.statistics.pendingFees + a.statistics.pendingVestedFees

structure Account.Nonneg (a : Account) : Prop where
  core : 0 ≤ a.core
  pendingFees : 0 ≤ a.statistics.pendingFees
  pendingVestedFees : 0 ≤ a.statistics.pendingVestedFees

namespace State

/-- All of the core asset: balances, fees that are not distributed, vesting balances, fees of
confidential transfers, accumulated fees, the budget of the witnesses and what the market holds. -/
def total (S : State) : Int :=
  (S.accounts.sum fun _ a => a.worth) + (S.vestingBalances.sum fun _ v => v.balance) +
    (S.fbaAccumulators.sum fun _ f => f.accumulatedFbaFees) + S.core.accumulatedFees +
    S.witnessBudget + S.held

def books (S : State) : Int := S.total - S.core.currentSupply

/-- No amount is negative. -/
structure Nonneg (S : State) : Prop where
  accounts : ∀ id a, S.accounts.find id = some a → a.Nonneg
  vestingBalances : ∀ id v, S.vestingBalances.find id = some v → 0 ≤ v.balance
  fbaAccumulators : ∀ id f, S.fbaAccumulators.find id = some f → 0 ≤ f.accumulatedFbaFees
  accumulatedFees : 0 ≤ S.core.accumulatedFees
  witnessBudget : 0 ≤ S.witnessBudget
  held : 0 ≤ S.held

theorem Nonneg.total {S : State} (h : S.Nonneg) : 0 ≤ S.total := by
  have haccounts : 0 ≤ S.accounts.sum fun _ a => a.worth := Table.sum_nonneg fun id a ha => by
    have := h.accounts id a ha
    exact add_nonneg (add_nonneg this.core this.pendingFees) this.pendingVestedFees
  have hvesting : 0 ≤ S.vestingBalances.sum fun _ v => v.balance :=
    Table.sum_nonneg h.vestingBalances
  have hfba : 0 ≤ S.fbaAccumulators.sum fun _ f => f.accumulatedFbaFees :=
    Table.sum_nonneg h.fbaAccumulators
  have hfees := h.accumulatedFees
  have hbudget := h.witnessBudget
  have hheld := h.held
  unfold State.total
  omega

/-- The amount is added to the books, and the rest of the state stays. -/
structure Adds (S S' : State) (x : Int) : Prop where
  books : S'.books = S.books + x
  rest : S' = { S with
    accounts := S'.accounts
    vestingBalances := S'.vestingBalances
    witnesses := S'.witnesses
    workers := S'.workers
    core := { S'.core with maxSupply := S.core.maxSupply } }

/-- No amount becomes negative, and the supply does not grow. -/
structure Grows (S S' : State) : Prop where
  nonneg : S.Nonneg → S'.Nonneg
  supply : S'.core.currentSupply ≤ S.core.currentSupply

variable {S S1 S' : State}

theorem Adds.refl (S : State) : Adds S S 0 := ⟨(add_zero _).symm, rfl⟩

theorem Adds.trans {x y : Int} (h : Adds S S1 x) (h' : Adds S1 S' y) : Adds S S' (x + y) :=
  ⟨by rw [h'.books, h.books, add_assoc], by rw [h'.rest, h.rest]⟩

theorem Adds.congr {x y : Int} (h : Adds S S' x) (he : x = y) : Adds S S' y := he ▸ h

theorem Grows.refl (S : State) : Grows S S := ⟨id, le_refl _⟩

theorem Grows.trans {T : State} (h : Grows S T) (h' : Grows T S') : Grows S S' :=
  ⟨fun hS => h'.nonneg (h.nonneg hS), h'.supply.trans h.supply⟩

/-! ### Single changes -/

variable {id : Nat} {amount : Int}

@[simp] theorem account_eq_ok {a : Account} :
    S.account id = .ok a ↔ S.accounts.find id = some a := demand_eq_ok

theorem setAccount_adds {a b : Account} (ha : S.accounts.find id = some a) :
    Adds S (S.setAccount id b) (b.worth - a.worth) := by
  refine ⟨?_, rfl⟩
  simp only [books, State.total, setAccount, Table.sum_set ha]
  omega

theorem setAccount_grows {a a' : Account} (ha : S.accounts.find id = some a)
    (ha' : a.Nonneg → a'.Nonneg) : Grows S (S.setAccount id a') := by
  refine ⟨fun h => ⟨fun j b hb => ?_, h.vestingBalances, h.fbaAccumulators, h.accumulatedFees,
    h.witnessBudget, h.held⟩, le_refl _⟩
  rcases (Table.find_set_iff ha).mp hb with ⟨-, rfl⟩ | ⟨-, hb⟩
  · exact ha' (h.accounts id a ha)
  · exact h.accounts j b hb

theorem burn_adds (S : State) (amount : Int) : Adds S (S.burn amount) amount := by
  refine ⟨?_, rfl⟩
  simp only [books, State.total, burn]
  omega

theorem burn_grows (S : State) (h : 0 ≤ amount) : Grows S (S.burn amount) := by
  refine ⟨fun hS => ⟨hS.accounts, hS.vestingBalances, hS.fbaAccumulators, hS.accumulatedFees,
    hS.witnessBudget, hS.held⟩, ?_⟩
  show S.core.currentSupply - amount ≤ S.core.currentSupply
  omega

theorem adjustBalance_adds (h : S.adjustBalance id amount = .ok S') : Adds S S' amount := by
  unfold adjustBalance at h
  split at h
  · rename_i hzero
    rw [hzero]
    exact pure_eq_ok.mp h ▸ Adds.refl S
  · simp only [bind_eq_ok, account_eq_ok] at h
    obtain ⟨a, ha, h⟩ := h
    split at h <;> simp only [bind_eq_ok, require_eq_ok, exists_const, pure_eq_ok] at h <;>
      obtain ⟨-, rfl⟩ := h <;> rename_i hcore
    · have hadds := setAccount_adds (b := { a with coreBalance := some ⟨amount, true⟩ }) ha
      simpa [Account.worth, Account.core, hcore] using hadds
    · rename_i b
      have hadds := setAccount_adds
        (b := { a with coreBalance := some ⟨b.balance + amount, true⟩ }) ha
      simpa [Account.worth, Account.core, hcore] using hadds

theorem adjustBalance_grows (h : S.adjustBalance id amount = .ok S') : Grows S S' := by
  unfold adjustBalance at h
  split at h
  · exact pure_eq_ok.mp h ▸ Grows.refl S
  · simp only [bind_eq_ok, account_eq_ok] at h
    obtain ⟨a, ha, h⟩ := h
    split at h <;> simp only [bind_eq_ok, require_eq_ok, exists_const, pure_eq_ok] at h <;>
      obtain ⟨hreq, rfl⟩ := h <;> rename_i hcore <;> refine setAccount_grows ha fun hnonneg => ?_
    · exact ⟨le_of_lt hreq, hnonneg.pendingFees, hnonneg.pendingVestedFees⟩
    · rename_i b
      have hb : 0 ≤ b.balance := by simpa [Account.core, hcore] using hnonneg.core
      refine ⟨?_, hnonneg.pendingFees, hnonneg.pendingVestedFees⟩
      show 0 ≤ b.balance + amount
      by_cases hneg : amount < 0
      · have := hreq hneg
        omega
      · omega

/-! ### Vesting balances -/

theorem setVesting_adds {v : VestingBalance} (hv : S.vestingBalances.find id = some v)
    (amount : Int) : Adds S { S with
      vestingBalances := S.vestingBalances.set id { v with balance :=
        v.balance + amount } } amount := by
  refine ⟨?_, rfl⟩
  simp only [books, State.total, Table.sum_set hv]
  omega

theorem setVesting_grows {v : VestingBalance} (hv : S.vestingBalances.find id = some v)
    (hamount : 0 ≤ amount) : Grows S { S with
      vestingBalances := S.vestingBalances.set id { v with balance := v.balance + amount } } := by
  refine ⟨fun h => ⟨h.accounts, fun j w hw => ?_, h.fbaAccumulators, h.accumulatedFees,
    h.witnessBudget, h.held⟩, le_refl _⟩
  rcases (Table.find_set_iff hv).mp hw with ⟨-, rfl⟩ | ⟨-, hw⟩
  · exact add_nonneg (h.vestingBalances id v hv) hamount
  · exact h.vestingBalances j w hw

theorem createVesting_adds (S : State) (owner : AccountId) (amount : Int) (seconds : Nat) :
    Adds S (S.createVesting owner amount seconds).2 amount := by
  refine ⟨?_, rfl⟩
  simp only [books, State.total, createVesting, Table.sum_create]
  omega

theorem createVesting_grows {owner : AccountId} {seconds : Nat} (hamount : 0 ≤ amount) :
    Grows S (S.createVesting owner amount seconds).2 := by
  refine ⟨fun h => ⟨h.accounts, fun j w hw => ?_, h.fbaAccumulators, h.accumulatedFees,
    h.witnessBudget, h.held⟩, le_refl _⟩
  rcases Table.find_create_iff.mp hw with hw | ⟨-, rfl⟩
  · exact h.vestingBalances j w hw
  · exact hamount

theorem depositLazyVesting_cases {ovbid : Option Nat} {seconds : Nat} {owner : AccountId}
    {r : Option Nat × State} (h : S.depositLazyVesting ovbid amount seconds owner = .ok r) :
    (amount = 0 ∧ r = (none, S)) ∨
    (∃ vbid v, ovbid = some vbid ∧ S.vestingBalances.find vbid = some v ∧ r = (none, { S with
      vestingBalances := S.vestingBalances.set vbid { v with balance := v.balance + amount } })) ∨
    r = S.createVesting owner amount seconds := by
  unfold depositLazyVesting at h
  split at h
  · exact Or.inl ⟨‹_›, pure_eq_ok.mp h⟩
  · split at h
    · exact Or.inr (Or.inr (pure_eq_ok.mp h))
    · simp only [bind_eq_ok, demand_eq_ok] at h
      obtain ⟨v, hv, h⟩ := h
      split at h
      · exact Or.inr (Or.inl ⟨_, v, rfl, hv, pure_eq_ok.mp h⟩)
      · exact Or.inr (Or.inr (pure_eq_ok.mp h))

theorem depositLazyVesting_adds {ovbid : Option Nat} {seconds : Nat} {owner : AccountId}
    {r : Option Nat × State} (h : S.depositLazyVesting ovbid amount seconds owner = .ok r) :
    Adds S r.2 amount := by
  rcases depositLazyVesting_cases h with ⟨rfl, rfl⟩ | ⟨vbid, v, -, hv, rfl⟩ | rfl
  · exact Adds.refl S
  · exact setVesting_adds hv amount
  · exact createVesting_adds S owner amount seconds

theorem depositLazyVesting_grows {ovbid : Option Nat} {seconds : Nat} {owner : AccountId}
    {r : Option Nat × State} (hamount : 0 ≤ amount)
    (h : S.depositLazyVesting ovbid amount seconds owner = .ok r) : Grows S r.2 := by
  rcases depositLazyVesting_cases h with ⟨rfl, rfl⟩ | ⟨vbid, v, -, hv, rfl⟩ | rfl
  · exact Grows.refl S
  · exact setVesting_grows hv hamount
  · exact createVesting_grows hamount

theorem depositLazyVesting_accounts {ovbid : Option Nat} {seconds : Nat} {owner : AccountId}
    {r : Option Nat × State} (h : S.depositLazyVesting ovbid amount seconds owner = .ok r) :
    r.2.accounts = S.accounts := by
  rcases depositLazyVesting_cases h with ⟨rfl, rfl⟩ | ⟨vbid, v, -, hv, rfl⟩ | rfl <;> rfl

theorem depositWitnessPay_adds (h : S.depositWitnessPay id amount = .ok S') : Adds S S' amount := by
  simp only [depositWitnessPay, bind_eq_ok, demand_eq_ok] at h
  obtain ⟨wit, -, r, hr, h⟩ := h
  have hadds := depositLazyVesting_adds hr
  split at h <;> obtain rfl := pure_eq_ok.mp h
  · exact hadds
  · exact ⟨hadds.books, by rw [hadds.rest]⟩

theorem depositWitnessPay_grows (hamount : 0 ≤ amount)
    (h : S.depositWitnessPay id amount = .ok S') : Grows S S' := by
  simp only [depositWitnessPay, bind_eq_ok, demand_eq_ok] at h
  obtain ⟨wit, -, r, hr, h⟩ := h
  have hgrows := depositLazyVesting_grows hamount hr
  split at h <;> obtain rfl := pure_eq_ok.mp h
  · exact hgrows
  · refine hgrows.trans ⟨fun hS => ?_, le_refl _⟩
    exact ⟨hS.accounts, hS.vestingBalances, hS.fbaAccumulators, hS.accumulatedFees,
      hS.witnessBudget, hS.held⟩

/-! ### Cashback -/

end State

/-- The account has got cashback at most: it may have a new cashback balance, and a cashback balance
never goes. -/
structure Account.Credited (a a' : Account) : Prop where
  rest : a' = { a with
    cashbackVb := a'.cashbackVb
    statistics := { a.statistics with hasCashbackVb := a'.statistics.hasCashbackVb } }
  kept : a.cashbackVb.isSome → a'.cashbackVb.isSome
  cached : a.statistics.hasCashbackVb = a.cashbackVb.isSome →
    a'.statistics.hasCashbackVb = a'.cashbackVb.isSome

namespace Account.Credited

variable {a b c : Account}

theorem refl (a : Account) : a.Credited a := ⟨rfl, id, id⟩

theorem trans (h : a.Credited b) (h' : b.Credited c) : a.Credited c :=
  ⟨by rw [h'.rest, h.rest], fun hsome => h'.kept (h.kept hsome), fun hc => h'.cached (h.cached hc)⟩

end Account.Credited

namespace State

variable {S S1 S' : State} {id : Nat} {amount : Int}

def Credits (S S' : State) : Prop :=
  ∀ id, Option.Rel Account.Credited (S.accounts.find id) (S'.accounts.find id)

namespace Credits

theorem of_accounts (h : S'.accounts = S.accounts) : Credits S S' := by
  intro id
  rw [h]
  cases S.accounts.find id with
  | none => exact .none
  | some a => exact .some (.refl a)

theorem refl (S : State) : Credits S S := of_accounts rfl

theorem trans (h : Credits S S1) (h' : Credits S1 S') : Credits S S' := by
  intro id
  have h1 := h id
  have h2 := h' id
  generalize S.accounts.find id = x at h1
  generalize S1.accounts.find id = y at h1 h2
  generalize S'.accounts.find id = z at h2
  cases h1 with
  | none => exact h2
  | some hab =>
    cases h2 with
    | some hbc => exact .some (hab.trans hbc)

theorem find {a : Account} (h : Credits S S') (ha : S.accounts.find id = some a) :
    ∃ a', S'.accounts.find id = some a' ∧ a.Credited a' := by
  have hid := h id
  rw [ha] at hid
  generalize S'.accounts.find id = z at hid
  cases hid with
  | some hab => exact ⟨_, rfl, hab⟩

end Credits

theorem setAccount_credits {a a' : Account} (ha : S.accounts.find id = some a)
    (h : a.Credited a') : Credits S (S.setAccount id a') := by
  intro j
  by_cases hj : j = id
  · subst hj
    rw [setAccount, Table.find_set_self ha, ha]
    exact .some h
  · rw [setAccount, Table.find_set_ne hj]
    exact Credits.refl S j

theorem depositCashback_credits (h : S.depositCashback id amount = .ok S') : Credits S S' := by
  simp only [depositCashback, bind_eq_ok, account_eq_ok] at h
  obtain ⟨a, ha, h⟩ := h
  split at h
  · exact pure_eq_ok.mp h ▸ Credits.refl S
  · split at h
    · exact pure_eq_ok.mp h ▸ Credits.refl S
    · simp only [bind_eq_ok] at h
      obtain ⟨r, hr, h⟩ := h
      have haccounts := depositLazyVesting_accounts hr
      split at h <;> obtain rfl := pure_eq_ok.mp h
      · exact Credits.of_accounts haccounts
      · exact (Credits.of_accounts haccounts).trans
          (setAccount_credits (haccounts ▸ ha) ⟨rfl, fun _ => rfl, fun _ => rfl⟩)

theorem depositCashback_adds (h : S.depositCashback id amount = .ok S') : Adds S S' amount := by
  simp only [depositCashback, bind_eq_ok, account_eq_ok] at h
  obtain ⟨a, ha, h⟩ := h
  split at h
  · rename_i hzero
    rw [hzero]
    exact pure_eq_ok.mp h ▸ Adds.refl S
  · split at h
    · exact pure_eq_ok.mp h ▸ burn_adds S amount
    · simp only [bind_eq_ok] at h
      obtain ⟨r, hr, h⟩ := h
      have hadds := depositLazyVesting_adds hr
      have ha' : r.2.accounts.find id = some a := depositLazyVesting_accounts hr ▸ ha
      split at h <;> obtain rfl := pure_eq_ok.mp h
      · exact hadds
      · rename_i vbid _
        have hset := setAccount_adds (b := { a with
          cashbackVb := some vbid
          statistics := { a.statistics with hasCashbackVb := true } }) ha'
        simpa [Account.worth, Account.core] using hadds.trans hset

theorem depositCashback_grows (hamount : 0 ≤ amount)
    (h : S.depositCashback id amount = .ok S') : Grows S S' := by
  simp only [depositCashback, bind_eq_ok, account_eq_ok] at h
  obtain ⟨a, ha, h⟩ := h
  split at h
  · exact pure_eq_ok.mp h ▸ Grows.refl S
  · split at h
    · exact pure_eq_ok.mp h ▸ burn_grows S hamount
    · simp only [bind_eq_ok] at h
      obtain ⟨r, hr, h⟩ := h
      have hgrows := depositLazyVesting_grows hamount hr
      have ha' : r.2.accounts.find id = some a := depositLazyVesting_accounts hr ▸ ha
      split at h <;> obtain rfl := pure_eq_ok.mp h
      · exact hgrows
      · exact hgrows.trans (setAccount_grows ha' fun hnonneg =>
          ⟨hnonneg.core, hnonneg.pendingFees, hnonneg.pendingVestedFees⟩)

/-! ### The distribution of the fees -/

theorem cutFee_eq (a : Int) (p : Nat) : cutFee a p = a * p / fullPercent := by
  unfold cutFee
  split
  · rename_i hzero
    rcases hzero with rfl | rfl <;> simp
  · split
    · rename_i hfull
      rw [hfull, Int.mul_ediv_cancel _ (by decide)]
    · rfl

theorem cutFee_nonneg {a : Int} (ha : 0 ≤ a) (p : Nat) : 0 ≤ cutFee a p := by
  rw [cutFee_eq]
  exact Int.ediv_nonneg (mul_nonneg ha (Int.natCast_nonneg _)) (Int.natCast_nonneg _)

theorem cutFee_add_le {a : Int} (ha : 0 ≤ a) {p q : Nat} (h : p + q ≤ fullPercent) :
    cutFee a p + cutFee a q ≤ a := by
  rw [cutFee_eq, cutFee_eq]
  have hp := Int.ediv_mul_le (a * p) (show (fullPercent : Int) ≠ 0 by decide)
  have hq := Int.ediv_mul_le (a * q) (show (fullPercent : Int) ≠ 0 by decide)
  have hall : a * p + a * q ≤ a * fullPercent := by
    rw [← mul_add]
    exact mul_le_mul_of_nonneg_left (by exact_mod_cast h) ha
  have hpos : (0 : Int) < fullPercent := by decide
  nlinarith

theorem cutFee_le {a : Int} (ha : 0 ≤ a) {p : Nat} (h : p ≤ fullPercent) : cutFee a p ≤ a := by
  have hle := cutFee_add_le ha (p := p) (q := 0) h
  have hzero := cutFee_nonneg ha 0
  omega

theorem shares_sum (a : Account) (total : Int) :
    (shares a total).1 + ((shares a total).2.map Prod.snd).sum = total := by
  simp only [shares, List.map_cons, List.map_nil, List.sum_cons, List.sum_nil]
  omega

theorem shares_nonneg {a : Account} {total : Int} (h : 0 ≤ total) :
    0 ≤ (shares a total).1 ∧ ∀ cut ∈ (shares a total).2, 0 ≤ cut.2 := by
  have hcuts := cutFee_add_le h a.percentages.1
  have hreferral : 0 ≤ total - cutFee total a.networkFeePercentage -
      cutFee total a.lifetimeReferrerFeePercentage := by omega
  have hle := cutFee_le hreferral a.percentages.2
  refine ⟨cutFee_nonneg h _, fun cut hcut => ?_⟩
  simp only [shares, List.mem_cons, List.not_mem_nil, or_false] at hcut
  rcases hcut with rfl | rfl | rfl
  · exact cutFee_nonneg h _
  · exact cutFee_nonneg hreferral _
  · simp only
    omega

theorem payCuts_adds {cuts : List (AccountId × Int)}
    (h : cuts.foldlM (fun S cut => S.depositCashback cut.1 cut.2) S = .ok S') :
    Adds S S' (cuts.map Prod.snd).sum := by
  induction cuts generalizing S with
  | nil => exact pure_eq_ok.mp h ▸ Adds.refl S
  | cons cut cuts ih =>
    rw [List.foldlM_cons, bind_eq_ok] at h
    obtain ⟨S1, h1, h⟩ := h
    rw [List.map_cons, List.sum_cons]
    exact (depositCashback_adds h1).trans (ih h)

theorem payCuts_grows {cuts : List (AccountId × Int)} (hcuts : ∀ cut ∈ cuts, 0 ≤ cut.2)
    (h : cuts.foldlM (fun S cut => S.depositCashback cut.1 cut.2) S = .ok S') : Grows S S' := by
  induction cuts generalizing S with
  | nil => exact pure_eq_ok.mp h ▸ Grows.refl S
  | cons cut cuts ih =>
    rw [List.foldlM_cons, bind_eq_ok] at h
    obtain ⟨S1, h1, h⟩ := h
    exact (depositCashback_grows (hcuts cut (List.mem_cons_self ..)) h1).trans
      (ih (fun c hc => hcuts c (List.mem_cons_of_mem _ hc)) h)

theorem payCuts_credits {cuts : List (AccountId × Int)}
    (h : cuts.foldlM (fun S cut => S.depositCashback cut.1 cut.2) S = .ok S') : Credits S S' := by
  induction cuts generalizing S with
  | nil => exact pure_eq_ok.mp h ▸ Credits.refl S
  | cons cut cuts ih =>
    rw [List.foldlM_cons, bind_eq_ok] at h
    obtain ⟨S1, h1, h⟩ := h
    exact (depositCashback_credits h1).trans (ih h)

/-- The state with a member as the referrer of an account and the share of the network of its
fee. -/
def withShare (S : State) (id : AccountId) (a : Account) (share : Int) : State :=
  { S.setAccount id a with
    core := { S.core with accumulatedFees := S.core.accumulatedFees + share } }

theorem payOutFees_eq_ok {total : Int} : S.payOutFees id total = .ok S' ↔
    ∃ a referrer, S.accounts.find id = some a ∧ S.accounts.find a.referrer = some referrer ∧
      (shares (a.withMember referrer S.headBlockTime) total).2.foldlM
        (fun S cut => S.depositCashback cut.1 cut.2)
        (S.withShare id (a.withMember referrer S.headBlockTime)
          (shares (a.withMember referrer S.headBlockTime) total).1) = .ok S' := by
  simp only [payOutFees, bind_eq_ok, account_eq_ok, withShare, setAccount, exists_and_left]

theorem withMember_worth (a referrer : Account) (now : Nat) :
    (a.withMember referrer now).worth = a.worth := by
  unfold Account.withMember
  split <;> rfl

theorem withMember_nonneg {a : Account} (ha : a.Nonneg) (referrer : Account) (now : Nat) :
    (a.withMember referrer now).Nonneg := by
  unfold Account.withMember
  split
  · exact ⟨ha.core, ha.pendingFees, ha.pendingVestedFees⟩
  · exact ha

theorem withShare_adds {a a' : Account} (ha : S.accounts.find id = some a)
    (hworth : a'.worth = a.worth) (share : Int) : Adds S (S.withShare id a' share) share := by
  have hset := setAccount_adds (b := a') ha
  rw [hworth, sub_self] at hset
  refine ⟨?_, rfl⟩
  have hbooks := hset.books
  simp only [books, State.total, withShare, setAccount] at hbooks ⊢
  omega

theorem withShare_grows {a a' : Account} {share : Int} (ha : S.accounts.find id = some a)
    (ha' : a.Nonneg → a'.Nonneg) (hshare : 0 ≤ share) : Grows S (S.withShare id a' share) := by
  refine ⟨fun hS => ?_, le_refl _⟩
  have hset := (setAccount_grows ha ha').nonneg hS
  exact ⟨hset.accounts, hset.vestingBalances, hset.fbaAccumulators,
    add_nonneg hset.accumulatedFees hshare, hset.witnessBudget, hset.held⟩

theorem payOutFees_adds {total : Int} (h : S.payOutFees id total = .ok S') : Adds S S' total := by
  obtain ⟨a, referrer, ha, -, h⟩ := payOutFees_eq_ok.mp h
  have hshare := withShare_adds ha (withMember_worth a referrer S.headBlockTime)
    (shares (a.withMember referrer S.headBlockTime) total).1
  have hall := hshare.trans (payCuts_adds h)
  rwa [shares_sum] at hall

theorem payOutFees_grows {total : Int} (htotal : 0 ≤ total) (h : S.payOutFees id total = .ok S') :
    Grows S S' := by
  obtain ⟨a, referrer, ha, -, h⟩ := payOutFees_eq_ok.mp h
  obtain ⟨hshare, hcuts⟩ := shares_nonneg (a := a.withMember referrer S.headBlockTime) htotal
  exact (withShare_grows ha (fun hnonneg => withMember_nonneg hnonneg referrer _) hshare).trans
    (payCuts_grows hcuts h)

theorem payOutFees_account {total : Int} {a : Account} (ha : S.accounts.find id = some a)
    (h : S.payOutFees id total = .ok S') :
    ∃ a' referrer now, S'.accounts.find id = some a' ∧ (a.withMember referrer now).Credited a' := by
  obtain ⟨a₀, referrer, ha₀, -, h⟩ := payOutFees_eq_ok.mp h
  obtain rfl : a = a₀ := Option.some.inj (ha.symm.trans ha₀)
  obtain ⟨a', ha', hcredited⟩ := (payCuts_credits h).find (Table.find_set_self ha)
  exact ⟨a', referrer, S.headBlockTime, ha', hcredited⟩

theorem withMember_statistics (a referrer : Account) (now : Nat) :
    (a.withMember referrer now).statistics = a.statistics := by
  unfold Account.withMember
  split <;> rfl

/-- The account after its fees have been distributed. -/
def withoutFees (a : Account) (fees : Int) : Account :=
  { a with
    statistics := { a.statistics with
      lifetimeFeesPaid := a.statistics.lifetimeFeesPaid + fees
      pendingFees := 0
      pendingVestedFees := 0 } }

theorem processFees_cases (h : S.processFees id = .ok S') :
    ∃ a, S.accounts.find id = some a ∧
      ((a.statistics.hasPendingFees = false ∧ S' = S) ∨
        (a.statistics.hasPendingFees = true ∧ ∃ S1 S2 a2,
          S.payOutFees id a.statistics.pendingFees = .ok S1 ∧
          S1.payOutFees id a.statistics.pendingVestedFees = .ok S2 ∧
          S2.accounts.find id = some a2 ∧
          S' = S2.setAccount id (withoutFees a2
            (a.statistics.pendingFees + a.statistics.pendingVestedFees)))) := by
  simp only [processFees, bind_eq_ok, account_eq_ok] at h
  obtain ⟨a, ha, h⟩ := h
  refine ⟨a, ha, ?_⟩
  split at h
  · rename_i hpending
    simp only [bind_eq_ok, account_eq_ok, pure_eq_ok] at h
    obtain ⟨S1, h1, S2, h2, a2, ha2, rfl⟩ := h
    exact Or.inr ⟨decide_eq_true hpending, S1, S2, a2, h1, h2, ha2, rfl⟩
  · rename_i hpending
    exact Or.inl ⟨decide_eq_false hpending, pure_eq_ok.mp h⟩

theorem payOutFees_pending {total total' : Int} {a a2 : Account} (ha : S.accounts.find id = some a)
    (h1 : S.payOutFees id total = .ok S1) (h2 : S1.payOutFees id total' = .ok S')
    (ha2 : S'.accounts.find id = some a2) :
    a2.core = a.core ∧ a2.statistics.pendingFees = a.statistics.pendingFees ∧
      a2.statistics.pendingVestedFees = a.statistics.pendingVestedFees := by
  obtain ⟨a1, r1, t1, ha1, hcredited1⟩ := payOutFees_account ha h1
  obtain ⟨a2', r2, t2, ha2', hcredited2⟩ := payOutFees_account ha1 h2
  obtain rfl : a2 = a2' := Option.some.inj (ha2.symm.trans ha2')
  have hcore : ∀ (b referrer : Account) now, (b.withMember referrer now).core = b.core := by
    intro b referrer now
    unfold Account.withMember
    split <;> rfl
  refine ⟨?_, ?_, ?_⟩ <;> rw [hcredited2.rest]
  · exact (hcore a1 r2 t2).trans (by rw [hcredited1.rest]; exact hcore a r1 t1)
  · simp only [withMember_statistics]
    rw [hcredited1.rest]
    simp only [withMember_statistics]
  · simp only [withMember_statistics]
    rw [hcredited1.rest]
    simp only [withMember_statistics]

theorem processFees_adds (h : S.processFees id = .ok S') : Adds S S' 0 := by
  obtain ⟨a, ha, ⟨-, rfl⟩ | ⟨-, S1, S2, a2, h1, h2, ha2, rfl⟩⟩ := processFees_cases h
  · exact Adds.refl _
  · obtain ⟨-, hfees, hvested⟩ := payOutFees_pending ha h1 h2 ha2
    have hadds := ((payOutFees_adds h1).trans (payOutFees_adds h2)).trans
      (setAccount_adds (b := withoutFees a2
        (a.statistics.pendingFees + a.statistics.pendingVestedFees)) ha2)
    have hworth : ∀ fees, (withoutFees a2 fees).worth = a2.core := fun fees =>
      (add_zero _).trans (add_zero _)
    have hzero : a.statistics.pendingFees + a.statistics.pendingVestedFees +
        ((withoutFees a2 (a.statistics.pendingFees + a.statistics.pendingVestedFees)).worth -
          a2.worth) = 0 := by
      rw [hworth, Account.worth, hfees, hvested]
      omega
    rwa [hzero] at hadds

theorem processFees_grows (hS : S.Nonneg) (h : S.processFees id = .ok S') : Grows S S' := by
  obtain ⟨a, ha, ⟨-, rfl⟩ | ⟨-, S1, S2, a2, h1, h2, ha2, rfl⟩⟩ := processFees_cases h
  · exact Grows.refl _
  · have hnonneg := hS.accounts id a ha
    exact ((payOutFees_grows hnonneg.pendingFees h1).trans
      (payOutFees_grows hnonneg.pendingVestedFees h2)).trans
        (setAccount_grows ha2 fun hcore => ⟨hcore.core, le_refl 0, le_refl 0⟩)

end State

end Nestchain.Maintenance
