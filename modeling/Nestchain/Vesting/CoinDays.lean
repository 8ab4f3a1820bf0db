import Nestchain.Vesting.Policies

/-! Coin-day vesting.  A vesting balance earns a coin second for each unit and second, up to the
balance times the vesting seconds, and a withdrawal uses up what it needs of them. -/

namespace Nestchain.Vesting

open Lib Market

namespace CddPolicy

def perUnit (p : CddPolicy) : Nat := max p.vestingSeconds 1

theorem perUnit_pos (p : CddPolicy) : 0 < p.perUnit := by
  rw [perUnit]
  omega

def earnedAt (p : CddPolicy) (balance : Asset) (now : Nat) : Nat :=
  min (p.coinSecondsEarned + balance.amount.toNat * (now - p.coinSecondsEarnedLastUpdate))
    (balance.amount.toNat * p.perUnit)

/-- A policy whose coin seconds are within the cap of its balance. -/
structure Within (p : CddPolicy) (balance : Asset) (now : Nat) : Prop where
  nonneg : 0 ≤ balance.amount
  le_max : balance.amount ≤ maxShareSupply
  seconds_lt : p.vestingSeconds < 2 ^ 32
  earned_le : p.coinSecondsEarned ≤ balance.amount.toNat * p.perUnit
  updated : p.coinSecondsEarnedLastUpdate ≤ now

variable {p : CddPolicy} {balance amount : Asset} {now t : Nat}

theorem Within.perUnit_le (h : p.Within balance now) : p.perUnit ≤ 2 ^ 32 := by
  have hlt := h.seconds_lt
  rw [perUnit]
  omega

theorem product_lt {units seconds : Nat} (hunits : (units : Int) ≤ maxShareSupply)
    (hseconds : seconds ≤ 2 ^ 32) : units * seconds < 2 ^ 100 := by
  have hunits' : units ≤ 1000000000000000 := by
    simp only [maxShareSupply] at hunits
    omega
  calc units * seconds ≤ 1000000000000000 * 2 ^ 32 := Nat.mul_le_mul hunits' hseconds
    _ < 2 ^ 100 := by decide

theorem toNat_mul {x : Int} {n : Nat} (hx : 0 ≤ x) : x * n = ((x.toNat * n : Nat) : Int) := by
  rw [Nat.cast_mul, Int.toNat_of_nonneg hx]

theorem uint128_natCast {n : Nat} (h : n < 2 ^ 128) : uint128 (n : Int) = n := by
  rw [uint128_of_lt (Int.natCast_nonneg n) (by exact_mod_cast h), Int.toNat_natCast]

theorem Within.earnedAt_le (balance : Asset) (t : Nat) :
    p.earnedAt balance t ≤ balance.amount.toNat * p.perUnit := min_le_right _ _

theorem Within.compute (h : p.Within balance now) (hnow : now ≤ t) (htime : t < 2 ^ 32)
    (amount : Asset) :
    p.computeCoinSecondsEarned ⟨balance, t, amount⟩ = .ok (p.earnedAt balance t) := by
  have hunits : ((balance.amount.toNat : Nat) : Int) ≤ maxShareSupply := by
    rw [Int.toNat_of_nonneg h.nonneg]
    exact h.le_max
  have hdelta : balance.amount.toNat * (t - p.coinSecondsEarnedLastUpdate) < 2 ^ 100 :=
    product_lt hunits (by omega)
  have hcap : balance.amount.toNat * p.perUnit < 2 ^ 100 := product_lt hunits h.perUnit_le
  have hearned := h.earned_le
  simp only [computeCoinSecondsEarned, bind_eq_ok, require_eq_ok, exists_const, pure_eq_ok]
  refine ⟨h.updated.trans hnow, ?_⟩
  have hcap' : uint128 (balance.amount * ↑(max p.vestingSeconds 1)) =
      balance.amount.toNat * p.perUnit := by
    rw [← perUnit, toNat_mul h.nonneg, uint128_natCast (by omega)]
  rw [toNat_mul h.nonneg, uint128_natCast (by omega), ← Nat.cast_add, uint128_natCast (by omega),
    earnedAt, ← hcap']

/-- The amount that may be withdrawn at a time. -/
def allowedAt (p : CddPolicy) (balance : Asset) (now : Nat) : Nat :=
  if now ≤ p.startClaim then 0 else p.earnedAt balance now / p.perUnit

theorem allowedAt_le (hnonneg : 0 ≤ balance.amount) :
    (p.allowedAt balance t : Int) ≤ balance.amount := by
  have hdiv : p.earnedAt balance t / p.perUnit ≤ balance.amount.toNat :=
    Nat.div_le_of_le_mul (by rw [mul_comm]; exact Within.earnedAt_le balance t)
  rw [allowedAt]
  split <;> omega

theorem Within.allowed (h : p.Within balance now) (hnow : now ≤ t) (htime : t < 2 ^ 32)
    (amount : Asset) : p.getAllowedWithdraw ⟨balance, t, amount⟩ =
      .ok ⟨p.allowedAt balance t, balance.assetId⟩ := by
  have hle : (p.allowedAt balance t : Int) ≤ balance.amount := allowedAt_le h.nonneg
  by_cases hstart : t ≤ p.startClaim
  · rw [getAllowedWithdraw, if_pos hstart, allowedAt, if_pos hstart]
    rfl
  · rw [allowedAt, if_neg hstart] at hle ⊢
    simp only [getAllowedWithdraw, if_neg hstart, h.compute hnow htime, bind_eq_ok, require_eq_ok,
      exists_const, pure_eq_ok]
    refine ⟨_, rfl, ?_, ?_⟩
    · exact_mod_cast hle
    · rfl

/-- The policy when its coin seconds were updated. -/
def updatedAt (p : CddPolicy) (balance : Asset) (now : Nat) : CddPolicy :=
  { p with coinSecondsEarned := p.earnedAt balance now, coinSecondsEarnedLastUpdate := now }

theorem Within.update (h : p.Within balance now) (hnow : now ≤ t) (htime : t < 2 ^ 32)
    (amount : Asset) :
    p.updateCoinSecondsEarned ⟨balance, t, amount⟩ = .ok (p.updatedAt balance t) := by
  simp only [updateCoinSecondsEarned, h.compute hnow htime, bind_eq_ok, pure_eq_ok]
  exact ⟨_, rfl, rfl⟩

@[simp] theorem perUnit_updatedAt : (p.updatedAt balance t).perUnit = p.perUnit := rfl

theorem Within.deposited (h : p.Within balance now) (hamount : 0 ≤ amount.amount)
    (hsum : balance.amount + amount.amount ≤ maxShareSupply) :
    (p.updatedAt balance t).Within ⟨balance.amount + amount.amount, balance.assetId⟩ t where
  nonneg := add_nonneg h.nonneg hamount
  le_max := hsum
  seconds_lt := h.seconds_lt
  earned_le := (Within.earnedAt_le balance t).trans (Nat.mul_le_mul_right _ (by
    have hnonneg := h.nonneg
    show balance.amount.toNat ≤ (balance.amount + amount.amount).toNat
    omega))
  updated := le_refl _

theorem Within.withdraw (h : p.Within balance now) (hnow : now ≤ t) (htime : t < 2 ^ 32)
    (hamount : 0 ≤ amount.amount) (hallowed : amount.amount ≤ p.allowedAt balance t) :
    ∃ p', p.onWithdraw ⟨balance, t, amount⟩ = .ok p' ∧ p'.startClaim = p.startClaim ∧
      p'.vestingSeconds = p.vestingSeconds ∧
      p'.Within ⟨balance.amount - amount.amount, balance.assetId⟩ t := by
  have hle : (p.allowedAt balance t : Int) ≤ balance.amount := allowedAt_le h.nonneg
  have hunits : ((amount.amount.toNat : Nat) : Int) ≤ maxShareSupply := by
    have hmax := h.le_max
    omega
  have hproduct : amount.amount.toNat * p.perUnit < 2 ^ 100 := product_lt hunits h.perUnit_le
  have hneeded : uint128 (amount.amount * ↑(max p.vestingSeconds 1)) =
      amount.amount.toNat * p.perUnit := by
    rw [← perUnit, toNat_mul hamount, uint128_natCast (by omega)]
  have hearned : amount.amount.toNat * p.perUnit ≤ p.earnedAt balance t := by
    have hdiv : amount.amount.toNat ≤ p.earnedAt balance t / p.perUnit := by
      rw [allowedAt] at hallowed
      generalize p.earnedAt balance t / p.perUnit = units at hallowed ⊢
      split at hallowed <;> omega
    exact (Nat.le_div_iff_mul_le p.perUnit_pos).mp hdiv
  refine ⟨{ p.updatedAt balance t with
    coinSecondsEarned := p.earnedAt balance t - amount.amount.toNat * p.perUnit }, ?_, rfl, rfl,
    ⟨by show 0 ≤ balance.amount - amount.amount; omega, ?_, h.seconds_lt, ?_, le_refl _⟩⟩
  · simp only [onWithdraw, h.update hnow htime, bind_eq_ok, require_eq_ok, exists_const, pure_eq_ok]
    refine ⟨_, rfl, ?_, ?_⟩
    · exact hneeded.trans_le hearned
    · rw [show (p.updatedAt balance t).vestingSeconds = p.vestingSeconds from rfl, hneeded]
      rfl
  · have hmax := h.le_max
    show balance.amount - amount.amount ≤ maxShareSupply
    omega
  · show p.earnedAt balance t - amount.amount.toNat * p.perUnit ≤
      (balance.amount - amount.amount).toNat * p.perUnit
    have hcap : p.earnedAt balance t ≤ balance.amount.toNat * p.perUnit :=
      Within.earnedAt_le balance t
    have hsplit : (balance.amount - amount.amount).toNat =
      balance.amount.toNat - amount.amount.toNat := by
      omega
    rw [hsplit, Nat.sub_mul]
    omega

/-! ### Funds that are added as vested -/

/-- The product of an amount that is added as vested and of the vesting seconds does not
overflow. -/
def VestedFits (p : CddPolicy) (amount : Asset) : Prop := amount.amount * p.perUnit < 2 ^ 63

def grown (balance amount : Asset) : Asset := ⟨balance.amount + amount.amount, balance.assetId⟩

/-- The policy when funds were added as vested. -/
def vestedAt (p : CddPolicy) (balance amount : Asset) (now : Nat) : CddPolicy :=
  { p.updatedAt balance now with
    coinSecondsEarned := uint128 (p.earnedAt balance now + int64 (amount.amount * p.perUnit)) }

theorem Within.depositVested (h : p.Within balance now) (hnow : now ≤ t) (htime : t < 2 ^ 32)
    (amount : Asset) :
    p.onDepositVested ⟨balance, t, amount⟩ = .ok (p.vestedAt balance amount t) := by
  simp only [onDepositVested, onDeposit, h.update hnow htime, bind_eq_ok, pure_eq_ok]
  exact ⟨_, rfl, rfl⟩

/-- The funds that were added are within the cap and may be withdrawn at once. -/
structure AtOnce (p p' : CddPolicy) (balance amount : Asset) (now : Nat) : Prop where
  earned_le : p'.coinSecondsEarned ≤ (grown balance amount).amount.toNat * p'.perUnit
  allowed : (p'.allowedAt (grown balance amount) now : Int) =
    p.allowedAt balance now + amount.amount

theorem int64_overflow {x : Nat} (hx : 2 ^ 63 ≤ x) :
    int64 (x : Int) + 2 ^ 64 ≤ x ∧ -2 ^ 63 ≤ int64 (x : Int) := by
  rw [int64, Int.bmod_def]
  split <;> omega

theorem toNat_add_le {earned added unit : Nat} {vested wrapped : Int}
    (hsign : 0 ≤ earned + vested) (hlost : vested + wrapped ≤ added) (hunit : unit ≤ wrapped) :
    (earned + vested).toNat + unit ≤ earned + added := by
  omega

section

variable (hamount : 0 ≤ amount.amount) (hsum : balance.amount + amount.amount ≤ maxShareSupply)

include hamount hsum

theorem Within.vested_earned (h : p.Within balance now) (hfits : p.VestedFits amount) :
    (p.vestedAt balance amount t).coinSecondsEarned =
      p.earnedAt balance t + amount.amount.toNat * p.perUnit := by
  have hnonneg := h.nonneg
  have hunits : ((balance.amount.toNat : Nat) : Int) ≤ maxShareSupply := by omega
  have hcap : balance.amount.toNat * p.perUnit < 2 ^ 100 := product_lt hunits h.perUnit_le
  have hearned : p.earnedAt balance t ≤ balance.amount.toNat * p.perUnit :=
    earnedAt_le balance t
  have hproduct : amount.amount * p.perUnit = ((amount.amount.toNat * p.perUnit : Nat) : Int) :=
    toNat_mul hamount
  rw [VestedFits, hproduct] at hfits
  show uint128 (p.earnedAt balance t + int64 (amount.amount * p.perUnit)) = _
  rw [hproduct, int64_of_lt (Int.natCast_nonneg _) hfits, ← Nat.cast_add,
    uint128_natCast (by omega)]

theorem Within.vested (h : p.Within balance now) (hfits : p.VestedFits amount) :
    (p.vestedAt balance amount t).Within (grown balance amount) t where
  nonneg := add_nonneg h.nonneg hamount
  le_max := hsum
  seconds_lt := h.seconds_lt
  earned_le := by
    have hnonneg := h.nonneg
    have hsplit : (grown balance amount).amount.toNat =
        balance.amount.toNat + amount.amount.toNat := by
      show (balance.amount + amount.amount).toNat = _
      omega
    rw [h.vested_earned hamount hsum hfits, hsplit, Nat.add_mul]
    exact Nat.add_le_add_right (earnedAt_le balance t) _
  updated := le_refl _

theorem Within.vested_atOnce (h : p.Within balance now) (hstart : p.startClaim < t)
    (hfits : p.VestedFits amount) :
    AtOnce p (p.vestedAt balance amount t) balance amount t := by
  have hwithin := h.vested (t := t) hamount hsum hfits
  refine ⟨hwithin.earned_le, ?_⟩
  have hearnedAt : (p.vestedAt balance amount t).earnedAt (grown balance amount) t =
      p.earnedAt balance t + amount.amount.toNat * p.perUnit := by
    rw [earnedAt, ← h.vested_earned (t := t) hamount hsum hfits]
    show min (_ + _ * (t - t)) _ = _
    rw [Nat.sub_self, Nat.mul_zero, Nat.add_zero]
    exact min_eq_left hwithin.earned_le
  have hstart' : ¬t ≤ (p.vestedAt balance amount t).startClaim := not_le.mpr hstart
  rw [allowedAt, allowedAt, if_neg hstart', if_neg (not_le.mpr hstart), hearnedAt]
  show (((p.earnedAt balance t + amount.amount.toNat * p.perUnit) / p.perUnit : Nat) : Int) = _
  rw [Nat.add_mul_div_right _ _ p.perUnit_pos, Nat.cast_add, Int.toNat_of_nonneg hamount]

theorem Within.fits_of_atOnce (h : p.Within balance now) (hstart : p.startClaim < t)
    (honce : AtOnce p (p.vestedAt balance amount t) balance amount t) :
    p.VestedFits amount := by
  by_contra hnot
  have hnonneg := h.nonneg
  have hperUnit := h.perUnit_le
  have hunits : ((balance.amount.toNat : Nat) : Int) ≤ maxShareSupply := by omega
  have hcap : balance.amount.toNat * p.perUnit < 2 ^ 100 := product_lt hunits h.perUnit_le
  have hearned : p.earnedAt balance t ≤ balance.amount.toNat * p.perUnit :=
    earnedAt_le balance t
  have hproduct : amount.amount * p.perUnit = ((amount.amount.toNat * p.perUnit : Nat) : Int) :=
    toNat_mul hamount
  have hstart' : ¬t ≤ (p.vestedAt balance amount t).startClaim := not_le.mpr hstart
  rw [VestedFits, hproduct, not_lt] at hnot
  obtain ⟨hlost, hleast⟩ := int64_overflow (by exact_mod_cast hnot)
  have hvalue : (p.vestedAt balance amount t).coinSecondsEarned = uint128
      (p.earnedAt balance t + int64 ((amount.amount.toNat * p.perUnit : Nat) : Int)) := by
    rw [← hproduct]
    rfl
  set vested := int64 ((amount.amount.toNat * p.perUnit : Nat) : Int)
  by_cases hsign : 0 ≤ (p.earnedAt balance t : Int) + vested
  · have hless : (p.vestedAt balance amount t).coinSecondsEarned + p.perUnit ≤
        p.earnedAt balance t + amount.amount.toNat * p.perUnit := by
      have hadded : amount.amount.toNat * p.perUnit < 2 ^ 100 :=
        product_lt (by omega) h.perUnit_le
      have hlt : (p.earnedAt balance t : Int) + vested < 2 ^ 128 := by
        have hsumlt : p.earnedAt balance t + amount.amount.toNat * p.perUnit < 2 ^ 128 :=
          (Nat.add_lt_add (hearned.trans_lt hcap) hadded).trans (by decide)
        have hsumlt' : (p.earnedAt balance t : Int) +
          ((amount.amount.toNat * p.perUnit : Nat) : Int) < 2 ^ 128 := by exact_mod_cast hsumlt
        linarith
      have hunit : (p.perUnit : Int) ≤ 2 ^ 64 := by
        exact_mod_cast hperUnit.trans (by decide)
      rw [hvalue, uint128_of_lt hsign hlt]
      exact toNat_add_le hsign hlost hunit
    have hdiv := Nat.div_le_div_right (c := p.perUnit) hless
    rw [Nat.add_div_right _ p.perUnit_pos, Nat.add_mul_div_right _ _ p.perUnit_pos] at hdiv
    have hnow : (p.vestedAt balance amount t).earnedAt (grown balance amount) t ≤
        (p.vestedAt balance amount t).coinSecondsEarned := by
      refine (min_le_left _ _).trans ?_
      show _ + _ * (t - t) ≤ _
      rw [Nat.sub_self, Nat.mul_zero, Nat.add_zero]
    have hdiv' := Nat.div_le_div_right (c := p.perUnit) hnow
    have hallowed := honce.allowed
    rw [allowedAt, allowedAt, if_neg hstart', if_neg (not_le.mpr hstart)] at hallowed
    have hallowed' : (((p.vestedAt balance amount t).earnedAt (grown balance amount) t /
      p.perUnit : Nat) : Int) = _ := hallowed
    omega
  · have hgrown : ((grown balance amount).amount.toNat : Int) ≤ maxShareSupply := by
      show ((balance.amount + amount.amount).toNat : Int) ≤ _
      omega
    have hcap' : (grown balance amount).amount.toNat * p.perUnit < 2 ^ 100 :=
      product_lt hgrown h.perUnit_le
    have hle : (p.vestedAt balance amount t).coinSecondsEarned ≤
        (grown balance amount).amount.toNat * p.perUnit := honce.earned_le
    rw [hvalue] at hle
    have hgreat := uint128_of_neg (not_le.mp hsign)
      (le_add_of_nonneg_of_le (Int.natCast_nonneg _) hleast)
    exact absurd (hgreat.trans hle) (not_le.mpr hcap')

end

/-! ### Runs of a vesting balance -/

end CddPolicy

namespace VestingBalance

/-- The coin seconds are within the cap of the balance. -/
def CoinSecondsWithin (b : VestingBalance) : Prop :=
  ∀ p, b.policy = .cdd p →
    (p.coinSecondsEarned : Int) ≤ b.balance.amount * max p.vestingSeconds 1

/-- Vested funds may be added without an overflow. -/
def VestedFits (b : VestingBalance) (amount : Asset) : Prop :=
  ∀ p, b.policy = .cdd p → amount.amount * max p.vestingSeconds 1 < 2 ^ 63

/-- What the calls of a vesting balance keep. -/
def Vests (b : VestingBalance) (now : Nat) : Prop :=
  ∃ p, b.policy = .cdd p ∧ p.Within b.balance now

end VestingBalance

/-- A coin-day vesting balance when it is created: by an operation, as the pay of a worker, or by
the first lazy deposit. -/
inductive Created (now : Nat) : VestingBalance → Prop
  | operation {owner : AccountId} {amount : Asset} {startClaim vestingSeconds : Nat}
      {b : VestingBalance} (hamount : amount.amount ≤ maxShareSupply)
      (hseconds : vestingSeconds < 2 ^ 32)
      (h : vestingBalanceCreate owner amount (.cdd startClaim vestingSeconds) now = .ok b) :
      Created now b
  | worker {owner : AccountId} {vestingSeconds : Nat} (hseconds : vestingSeconds < 2 ^ 32) :
      Created now ⟨owner, ⟨0, coreAsset⟩, .cdd ⟨vestingSeconds, 0, 0, now⟩⟩
  | lazy {ovbid : Option Nat} {amount : Int} {vestingSeconds : Nat} {owner : AccountId}
      {requireVesting : Bool} {vbos vbos' : Table VestingBalance} {id : Nat} {b : VestingBalance}
      (hamount : 0 ≤ amount ∧ amount ≤ maxShareSupply) (hseconds : vestingSeconds < 2 ^ 32)
      (hfits : requireVesting = false → 0 < vestingSeconds ∧ amount * vestingSeconds < 2 ^ 63)
      (h : depositLazyVesting ovbid amount vestingSeconds owner requireVesting now vbos =
        .ok (some id, vbos')) (hb : vbos'.find id = some b) : Created now b

/-- A deposit, a deposit of vested funds or an allowed withdrawal, of amounts that keep the balance
in range. -/
inductive CddStep (now : Nat) (b b' : VestingBalance) : Prop
  | deposit {amount : Asset} (hamount : 0 ≤ amount.amount)
      (hallowed : b.isDepositAllowed now amount = true) (h : b.deposit now amount = .ok b')
  | depositVested {amount : Asset} (hamount : 0 ≤ amount.amount)
      (hallowed : b.isDepositVestedAllowed now amount = true) (hfits : b.VestedFits amount)
      (h : b.depositVested now amount = .ok b')
  | withdraw {amount : Asset} (hamount : 0 ≤ amount.amount)
      (hallowed : b.isWithdrawAllowed now amount = .ok true) (h : b.withdraw now amount = .ok b')

/-- Calls at times that do not go back. -/
inductive CddRun (start : Nat) (b₀ : VestingBalance) : Nat → VestingBalance → Prop
  | start : CddRun start b₀ start b₀
  | step {now t : Nat} {b b' : VestingBalance} (hrun : CddRun start b₀ now b)
      (hnow : now ≤ t) (htime : t < 2 ^ 32) (h : CddStep t b b') : CddRun start b₀ t b'

theorem sumBelowMaxShares_iff {a b : Asset} : sumBelowMaxShares a b = true ↔
    a.amount ≤ maxShareSupply ∧ b.amount ≤ maxShareSupply ∧
      a.amount + b.amount ≤ maxShareSupply :=
  decide_eq_true_iff

section

variable {p : CddPolicy} {b b' : VestingBalance} {amount : Asset} {now t : Nat}

theorem isDepositAllowed_cdd (hp : b.policy = .cdd p) (h : b.isDepositAllowed now amount = true) :
    b.balance.assetId = amount.assetId ∧ b.balance.amount + amount.amount ≤ maxShareSupply := by
  rw [VestingBalance.isDepositAllowed, hp] at h
  have h' : (decide (amount.assetId = b.balance.assetId) &&
    sumBelowMaxShares amount b.balance) = true := h
  rw [Bool.and_eq_true, decide_eq_true_iff, sumBelowMaxShares_iff] at h'
  exact ⟨h'.1.symm, by rw [add_comm]; exact h'.2.2.2⟩

theorem isDepositVestedAllowed_cdd (hp : b.policy = .cdd p)
    (h : b.isDepositVestedAllowed now amount = true) :
    b.balance.assetId = amount.assetId ∧ b.balance.amount + amount.amount ≤ maxShareSupply := by
  refine isDepositAllowed_cdd hp (?_ : b.isDepositAllowed now amount = true)
  rw [VestingBalance.isDepositVestedAllowed, hp] at h
  rw [VestingBalance.isDepositAllowed, hp]
  exact h

theorem allowed_cdd (hp : b.policy = .cdd p) (h : p.Within b.balance now) (hnow : now ≤ t)
    (htime : t < 2 ^ 32) :
    b.getAllowedWithdraw t = .ok ⟨p.allowedAt b.balance t, b.balance.assetId⟩ := by
  rw [VestingBalance.getAllowedWithdraw, hp]
  exact h.allowed hnow htime _

theorem withdraw_cdd (hp : b.policy = .cdd p) (h : p.Within b.balance now) (hnow : now ≤ t)
    (htime : t < 2 ^ 32) (hamount : 0 ≤ amount.amount)
    (hallowed : b.isWithdrawAllowed t amount = .ok true) :
    ∃ b', b.withdraw t amount = .ok b' ∧ b'.Vests t := by
  have hle : (p.allowedAt b.balance t : Int) ≤ b.balance.amount :=
    CddPolicy.allowedAt_le h.nonneg
  simp only [VestingBalance.isWithdrawAllowed, hp, Policy.isWithdrawAllowed,
    CddPolicy.isWithdrawAllowed, h.allowed hnow htime, bind_eq_ok, require_eq_ok, pure_eq_ok,
    lessEq_eq_ok] at hallowed
  obtain ⟨_, ⟨_, hpolicy, hid, rfl⟩, _, ⟨hid', rfl⟩, -, -, hresult⟩ := hallowed
  obtain rfl := Except.ok.inj hpolicy
  have hamountLe := of_decide_eq_true hresult.symm
  obtain ⟨p', hp', -, -, hwithin⟩ := h.withdraw hnow htime hamount hamountLe
  refine ⟨⟨b.owner, ⟨b.balance.amount - amount.amount, b.balance.assetId⟩, .cdd p'⟩, ?_, p', rfl,
    hwithin⟩
  simp only [VestingBalance.withdraw, hp, Policy.onWithdraw, hp', bind_eq_ok, require_eq_ok,
    pure_eq_ok, lessEq_eq_ok, Asset.minus_eq_ok]
  exact ⟨_, ⟨hid', rfl⟩, (), decide_eq_true (hamountLe.trans hle), _, ⟨_, rfl, rfl⟩, _,
    ⟨hid'.symm, rfl⟩, rfl⟩

theorem depositVested_cdd (hp : b.policy = .cdd p) (h : p.Within b.balance now) (hnow : now ≤ t)
    (htime : t < 2 ^ 32) (hid : b.balance.assetId = amount.assetId) :
    b.depositVested t amount = .ok ⟨b.owner, CddPolicy.grown b.balance amount,
      .cdd (p.vestedAt b.balance amount t)⟩ := by
  simp only [VestingBalance.depositVested, hp, Policy.onDepositVested,
    h.depositVested hnow htime amount, bind_eq_ok, pure_eq_ok, Asset.plus_eq_ok]
  exact ⟨_, ⟨_, rfl, rfl⟩, _, ⟨hid, rfl⟩, rfl⟩

theorem CddStep.vests (h : b.Vests now) (hnow : now ≤ t) (htime : t < 2 ^ 32)
    (hstep : CddStep t b b') : b'.Vests t := by
  obtain ⟨p, hp, hwithin⟩ := h
  cases hstep with
  | deposit hamount hallowed hdeposit =>
    obtain ⟨-, hsum⟩ := isDepositAllowed_cdd hp hallowed
    simp only [VestingBalance.deposit, hp, Policy.onDeposit, CddPolicy.onDeposit,
      hwithin.update hnow htime, bind_eq_ok, pure_eq_ok, Asset.plus_eq_ok] at hdeposit
    obtain ⟨_, ⟨_, hpolicy, rfl⟩, _, ⟨-, rfl⟩, rfl⟩ := hdeposit
    obtain rfl := Except.ok.inj hpolicy
    exact ⟨_, rfl, hwithin.deposited hamount hsum⟩
  | @depositVested amount hamount hallowed hfits hdeposit =>
    obtain ⟨hid, hsum⟩ := isDepositVestedAllowed_cdd hp hallowed
    rw [depositVested_cdd hp hwithin hnow htime hid] at hdeposit
    obtain rfl := Except.ok.inj hdeposit
    exact ⟨_, rfl, hwithin.vested hamount hsum (hfits p hp)⟩
  | withdraw hamount hallowed hwithdraw =>
    obtain ⟨b'', hb'', hvests⟩ := withdraw_cdd hp hwithin hnow htime hamount hallowed
    obtain rfl := Except.ok.inj (hb''.symm.trans hwithdraw)
    exact hvests

theorem depositLazyVesting_created {ovbid : Option Nat} {units : Int} {seconds : Nat}
    {owner : AccountId} {requireVesting : Bool} {vbos vbos' : Table VestingBalance} {id : Nat}
    (h : depositLazyVesting ovbid units seconds owner requireVesting now vbos =
      .ok (some id, vbos')) :
    units ≠ 0 ∧
      vbos'.find id = some (lazyVestingBalance units seconds owner requireVesting now) := by
  have hcreated : ∀ r : Option Nat × Table VestingBalance, (some id, vbos') = r →
      r = (some vbos.next, vbos.create (lazyVestingBalance units seconds owner requireVesting now)) →
      vbos'.find id = some (lazyVestingBalance units seconds owner requireVesting now) := by
    rintro r rfl hr
    obtain ⟨hid, htable⟩ := Prod.mk.inj hr
    obtain rfl := Option.some.inj hid
    exact htable ▸ Table.find_create_self vbos _
  unfold depositLazyVesting at h
  split at h
  · cases h
  · rename_i hunits
    refine ⟨hunits, ?_⟩
    dsimp only at h
    split at h
    · exact hcreated _ rfl (pure_eq_ok.mp h)
    · simp only [bind_eq_ok, demand_eq_ok] at h
      obtain ⟨vbo, -, h⟩ := h
      split at h
      · exact hcreated _ rfl (pure_eq_ok.mp h)
      · split at h
        · simp only [bind_eq_ok, pure_eq_ok] at h
          obtain ⟨_, -, h⟩ := h
          cases h
        · exact hcreated _ rfl (pure_eq_ok.mp h)

theorem coinSecondsWithin_cdd (hp : b.policy = .cdd p) (hnonneg : 0 ≤ b.balance.amount) :
    b.CoinSecondsWithin ↔ p.coinSecondsEarned ≤ b.balance.amount.toNat * p.perUnit := by
  have hcast : (p.coinSecondsEarned : Int) ≤ b.balance.amount *
    ((max p.vestingSeconds 1 : Nat) : Int) ↔
      p.coinSecondsEarned ≤ b.balance.amount.toNat * p.perUnit := by
    rw [CddPolicy.toNat_mul hnonneg, Nat.cast_le]
    exact Iff.rfl
  constructor
  · intro h
    exact hcast.mp (by exact_mod_cast h p hp)
  · intro h p' hp'
    obtain rfl : p = p' := Policy.cdd.inj (hp.symm.trans hp')
    exact_mod_cast hcast.mpr h

theorem vestedFits_cdd (hp : b.policy = .cdd p) : b.VestedFits amount ↔ p.VestedFits amount := by
  constructor
  · intro h
    have h' := h p hp
    rw [CddPolicy.VestedFits, CddPolicy.perUnit]
    exact_mod_cast h'
  · intro h p' hp'
    obtain rfl : p = p' := Policy.cdd.inj (hp.symm.trans hp')
    rw [CddPolicy.VestedFits, CddPolicy.perUnit] at h
    exact_mod_cast h

theorem vested_iff {owner : AccountId} (h : p.Within b.balance now)
    (htime : t < 2 ^ 32) (hstart : p.startClaim < t) (hamount : 0 ≤ amount.amount)
    (hsum : b.balance.amount + amount.amount ≤ maxShareSupply)
    (hb' : b' = ⟨owner, CddPolicy.grown b.balance amount,
      .cdd (p.vestedAt b.balance amount t)⟩) :
    (b'.CoinSecondsWithin ∧ b'.getAllowedWithdraw t =
      .ok ⟨p.allowedAt b.balance t + amount.amount, b.balance.assetId⟩) ↔
      p.VestedFits amount := by
  subst hb'
  have hnonneg : 0 ≤ (CddPolicy.grown b.balance amount).amount := add_nonneg h.nonneg hamount
  have hallowed (hw : (p.vestedAt b.balance amount t).Within
    (CddPolicy.grown b.balance amount) t) :=
    allowed_cdd
      (b := ⟨owner, CddPolicy.grown b.balance amount, .cdd (p.vestedAt b.balance amount t)⟩)
      rfl hw (le_refl _) htime
  constructor
  · rintro ⟨hcoins, hvalue⟩
    have hearned := (coinSecondsWithin_cdd rfl hnonneg).mp hcoins
    have hwithin : (p.vestedAt b.balance amount t).Within (CddPolicy.grown b.balance amount) t :=
      ⟨hnonneg, hsum, h.seconds_lt, hearned, le_refl _⟩
    refine h.fits_of_atOnce hamount hsum hstart ⟨hearned, ?_⟩
    exact congrArg Asset.amount (Except.ok.inj ((hallowed hwithin).symm.trans hvalue))
  · intro hfits
    have hwithin := h.vested (t := t) hamount hsum hfits
    have honce := h.vested_atOnce hamount hsum hstart hfits
    refine ⟨(coinSecondsWithin_cdd rfl hnonneg).mpr hwithin.earned_le, ?_⟩
    rw [hallowed hwithin, ← honce.allowed]
    rfl

/-- The policy of an empty balance. -/
def emptyPolicy (seconds now : Nat) : CddPolicy := ⟨seconds, 0, 0, now⟩

theorem emptyPolicy_within {seconds : Nat} (hseconds : seconds < 2 ^ 32) (now : Nat)
    (hnonneg : 0 ≤ amount.amount) (hle : amount.amount ≤ maxShareSupply) :
    (emptyPolicy seconds now).Within amount now :=
  ⟨hnonneg, hle, hseconds, Nat.zero_le _, le_refl _⟩

theorem emptyPolicy_earnedAt (seconds now : Nat) (amount : Asset) :
    (emptyPolicy seconds now).earnedAt amount now = 0 := by
  simp [CddPolicy.earnedAt, emptyPolicy]

theorem emptyPolicy_allowedAt (seconds now : Nat) (amount : Asset) :
    (emptyPolicy seconds now).allowedAt amount now = 0 := by
  rw [CddPolicy.allowedAt, emptyPolicy_earnedAt, Nat.zero_div, ite_self]

theorem lazyVestingBalance_eq {units : Int} {seconds : Nat} (hseconds : 0 < seconds)
    (owner : AccountId) (now : Nat) : lazyVestingBalance units seconds owner false now =
      ⟨owner, CddPolicy.grown ⟨0, coreAsset⟩ ⟨units, coreAsset⟩,
        .cdd ((emptyPolicy seconds now).vestedAt ⟨0, coreAsset⟩ ⟨units, coreAsset⟩ now)⟩ := by
  have hperUnit : (emptyPolicy seconds now).perUnit = seconds := by
    simp only [CddPolicy.perUnit, emptyPolicy]
    omega
  rw [CddPolicy.vestedAt, hperUnit, emptyPolicy_earnedAt, CddPolicy.grown, Nat.cast_zero, zero_add,
    zero_add]
  rfl

theorem lazy_vested_iff {units : Int} {seconds : Nat} {owner : AccountId}
    (hunits : 0 < units ∧ units ≤ maxShareSupply) (hseconds : seconds < 2 ^ 32)
    (hnow : 0 < now ∧ now < 2 ^ 32) (hb : b = lazyVestingBalance units seconds owner false now) :
    (b.CoinSecondsWithin ∧ b.getAllowedWithdraw now = .ok ⟨units, coreAsset⟩) ↔
      0 < seconds ∧ units * seconds < 2 ^ 63 := by
  by_cases hzero : 0 < seconds
  · have hperUnit : (emptyPolicy seconds now).perUnit = seconds := by
      simp only [CddPolicy.perUnit, emptyPolicy]
      omega
    have hiff : _ ↔ (emptyPolicy seconds now).VestedFits ⟨units, coreAsset⟩ := vested_iff
      (b := ⟨owner, ⟨0, coreAsset⟩, .cdd (emptyPolicy seconds now)⟩)
      (emptyPolicy_within hseconds now (le_refl _) maxShareSupply_nonneg) hnow.2 hnow.1
      (le_of_lt hunits.1) (by rw [zero_add]; exact hunits.2)
      (hb.trans (lazyVestingBalance_eq hzero owner now))
    rw [emptyPolicy_allowedAt, Nat.cast_zero, zero_add, CddPolicy.VestedFits, hperUnit] at hiff
    exact hiff.trans ⟨fun h => ⟨hzero, h⟩, fun h => h.2⟩
  · obtain rfl : seconds = 0 := by omega
    subst hb
    refine ⟨fun h => ?_, fun h => absurd h.1 hzero⟩
    have hpolicy : (lazyVestingBalance units 0 owner false now).policy =
        .cdd (emptyPolicy 0 now) := by
      simp [lazyVestingBalance, emptyPolicy, int64, uint128]
    have hallowed := allowed_cdd hpolicy
      (emptyPolicy_within hseconds now (le_of_lt hunits.1) hunits.2) (le_refl _) hnow.2
    rw [emptyPolicy_allowedAt] at hallowed
    have hamount := congrArg Asset.amount (Except.ok.inj (hallowed.symm.trans h.2))
    exact absurd hamount (ne_of_lt hunits.1)

theorem Created.vests (h : Created now b) : b.Vests now := by
  cases h with
  | @operation owner amount startClaim seconds _ hamount hseconds hcreate =>
    simp only [vestingBalanceCreate, bind_eq_ok, require_eq_ok, exists_const, pure_eq_ok] at hcreate
    obtain ⟨hpos, rfl⟩ := hcreate
    exact ⟨_, rfl, ⟨le_of_lt hpos, hamount, hseconds, Nat.zero_le _, le_refl _⟩⟩
  | worker hseconds =>
    exact ⟨_, rfl, ⟨le_refl _, maxShareSupply_nonneg, hseconds, Nat.zero_le _, le_refl _⟩⟩
  | @lazy ovbid units seconds owner requireVesting vbos vbos' id _ hamount hseconds hfits hcreate hb =>
    obtain ⟨-, hfind⟩ := depositLazyVesting_created hcreate
    obtain rfl := Option.some.inj (hfind.symm.trans hb)
    cases requireVesting with
    | true =>
      exact ⟨_, rfl, ⟨hamount.1, hamount.2, hseconds, Nat.zero_le _, le_refl _⟩⟩
    | false =>
      obtain ⟨hzero, hlt⟩ := hfits rfl
      have hperUnit : (emptyPolicy seconds now).perUnit = seconds := by
        simp only [CddPolicy.perUnit, emptyPolicy]
        omega
      rw [lazyVestingBalance_eq hzero]
      have hempty := ((emptyPolicy_within hseconds now (le_refl _) maxShareSupply_nonneg :
        (emptyPolicy seconds now).Within ⟨0, coreAsset⟩ now))
      refine ⟨_, rfl, hempty.vested hamount.1 ?_ ?_⟩
      · rw [zero_add]
        exact hamount.2
      · rw [CddPolicy.VestedFits, hperUnit]
        exact hlt

theorem CddRun.vests {start : Nat} {b₀ : VestingBalance}
    (hcreated : Created start b₀) (hrun : CddRun start b₀ now b) : b.Vests now := by
  induction hrun with
  | start => exact hcreated.vests
  | step _ hnow htime hstep ih => exact hstep.vests ih hnow htime

theorem depositLazyVesting_reused {ovbid : Option Nat} {units : Int} {seconds : Nat}
    {owner : AccountId} {vbos vbos' : Table VestingBalance} (hunits : units ≠ 0)
    (h : depositLazyVesting ovbid units seconds owner false now vbos = .ok (none, vbos')) :
    ∃ vbid vbo vbo', ovbid = some vbid ∧ vbos.find vbid = some vbo ∧
      vbo.depositVested now ⟨units, coreAsset⟩ = .ok vbo' ∧ vbos' = vbos.set vbid vbo' := by
  unfold depositLazyVesting at h
  rw [if_neg hunits] at h
  dsimp only at h
  split at h
  · cases h
  · rename_i vbid
    simp only [bind_eq_ok, demand_eq_ok] at h
    obtain ⟨vbo, hvbo, h⟩ := h
    split at h
    · cases h
    · split at h
      · simp only [bind_eq_ok, pure_eq_ok] at h
        obtain ⟨vbo', hvested, h⟩ := h
        exact ⟨vbid, vbo, vbo', rfl, hvbo, hvested, (Prod.mk.inj h).2⟩
      · cases h

end

/-- After every run of calls whose vested funds do not overflow, the coin seconds are within the
cap, no more than the balance may be withdrawn, an allowed withdrawal is made, and vested funds may
be withdrawn at once exactly when they do not overflow.  Vested funds of a new balance may be
withdrawn at once exactly when they also have vesting seconds, and those of an old one are such a
deposit. -/
theorem coin_days_vest {start now : Nat} {b₀ b : VestingBalance} (hcreated : Created start b₀)
    (hrun : CddRun start b₀ now b) :
    (∃ p, b.policy = .cdd p ∧ b.CoinSecondsWithin ∧ ∀ t, now ≤ t → t < 2 ^ 32 →
      ∃ a, b.getAllowedWithdraw t = .ok a ∧ a.amount ≤ b.balance.amount ∧
        (∀ amount, 0 ≤ amount.amount → b.isWithdrawAllowed t amount = .ok true →
          ∃ b', b.withdraw t amount = .ok b') ∧
        (∀ amount, 0 ≤ amount.amount → b.isDepositVestedAllowed t amount = true →
          p.startClaim < t → ∃ b', b.depositVested t amount = .ok b' ∧
            ((b'.CoinSecondsWithin ∧ b'.getAllowedWithdraw t =
              .ok ⟨a.amount + amount.amount, b.balance.assetId⟩) ↔ b.VestedFits amount))) ∧
      (∀ ovbid units seconds owner t vbos vbos' id, 0 < units → units ≤ maxShareSupply →
        seconds < 2 ^ 32 → 0 < t → t < 2 ^ 32 →
        depositLazyVesting ovbid units seconds owner false t vbos = .ok (some id, vbos') →
        ∃ b', vbos'.find id = some b' ∧ ((b'.CoinSecondsWithin ∧
          b'.getAllowedWithdraw t = .ok ⟨units, coreAsset⟩) ↔
            0 < seconds ∧ units * seconds < 2 ^ 63)) ∧
      (∀ ovbid units seconds owner t vbos vbos', units ≠ 0 →
        depositLazyVesting ovbid units seconds owner false t vbos = .ok (none, vbos') →
        ∃ vbid vbo vbo', ovbid = some vbid ∧ vbos.find vbid = some vbo ∧
          vbo.depositVested t ⟨units, coreAsset⟩ = .ok vbo' ∧ vbos' = vbos.set vbid vbo') := by
  obtain ⟨p, hp, hwithin⟩ := hrun.vests hcreated
  refine ⟨⟨p, hp, (coinSecondsWithin_cdd hp hwithin.nonneg).mpr hwithin.earned_le, ?_⟩, ?_, ?_⟩
  · intro t hnow htime
    refine ⟨_, allowed_cdd hp hwithin hnow htime, CddPolicy.allowedAt_le hwithin.nonneg, ?_, ?_⟩
    · intro amount hamount hallowed
      obtain ⟨b', hb', -⟩ := withdraw_cdd hp hwithin hnow htime hamount hallowed
      exact ⟨b', hb'⟩
    · intro amount hamount hallowed hstart
      obtain ⟨hid, hsum⟩ := isDepositVestedAllowed_cdd hp hallowed
      refine ⟨_, depositVested_cdd hp hwithin hnow htime hid, ?_⟩
      rw [vestedFits_cdd hp]
      exact vested_iff hwithin htime hstart hamount hsum rfl
  · intro ovbid units seconds owner t vbos vbos' id hpos hle hseconds hzero htime h
    obtain ⟨-, hfind⟩ := depositLazyVesting_created h
    exact ⟨_, hfind, lazy_vested_iff ⟨hpos, hle⟩ hseconds ⟨hzero, htime⟩ rfl⟩
  · intro ovbid units seconds owner t vbos vbos' hunits h
    exact depositLazyVesting_reused hunits h

/-- A balance of 100 with ten vesting seconds, to which 50 vested are added after five seconds. -/
def halfVested : VestingBalance := ⟨1, ⟨150, 0⟩, .cdd ⟨10, 1000, 0, 1005⟩⟩

/-- The half of it that vested and these may be withdrawn, and so may another 50.  The funds of a
new balance may be withdrawn at once, and another deposit goes to it. -/
theorem coin_days_vest_half : halfVested.CoinSecondsWithin ∧
    (∃ a, halfVested.getAllowedWithdraw 1006 = .ok a ∧ a.amount ≤ 150 ∧
      (∃ b', halfVested.withdraw 1006 ⟨100, 0⟩ = .ok b') ∧
      ∃ b', halfVested.depositVested 1006 ⟨50, 0⟩ = .ok b' ∧ b'.CoinSecondsWithin ∧
        b'.getAllowedWithdraw 1006 = .ok ⟨a.amount + 50, 0⟩) ∧
    ∃ vbos b' vbo vbo', depositLazyVesting none 100 10 1 false 1000 Table.empty =
        .ok (some 0, vbos) ∧ vbos.find 0 = some b' ∧ b'.CoinSecondsWithin ∧
      b'.getAllowedWithdraw 1000 = .ok ⟨100, coreAsset⟩ ∧
      depositLazyVesting (some 0) 50 10 1 false 1005 vbos = .ok (none, vbos.set 0 vbo') ∧
      vbos.find 0 = some vbo ∧ vbo.depositVested 1005 ⟨50, coreAsset⟩ = .ok vbo' := by
  have hcreated : Created 1000 ⟨1, ⟨100, 0⟩, .cdd ⟨10, 0, 0, 1000⟩⟩ :=
    @Created.operation 1000 1 ⟨100, 0⟩ 0 10 _ (by decide) (by decide) rfl
  have hrun : CddRun 1000 ⟨1, ⟨100, 0⟩, .cdd ⟨10, 0, 0, 1000⟩⟩ 1005 halfVested :=
    .step .start (by decide) (by decide) (@CddStep.depositVested _ _ _ ⟨50, 0⟩ (by decide)
      (by decide +kernel) (fun p hp => by obtain rfl := Policy.cdd.inj hp; decide)
      (by decide +kernel))
  obtain ⟨⟨p, hp, hwithin, htimes⟩, hnew, hreused⟩ := coin_days_vest hcreated hrun
  obtain rfl := Policy.cdd.inj hp
  refine ⟨hwithin, ?_, ?_⟩
  · obtain ⟨a, ha, hle, hwithdraw, hdeposit⟩ := htimes 1006 (by decide) (by decide)
    obtain ⟨b', hb', hiff⟩ := hdeposit ⟨50, 0⟩ (by decide) (by decide +kernel) (by decide)
    refine ⟨a, ha, hle, hwithdraw ⟨100, 0⟩ (by decide) (by decide +kernel), b', hb', hiff.mpr ?_⟩
    intro p hp
    obtain rfl := Policy.cdd.inj hp
    decide
  · obtain ⟨vbos, hvbos, hfirst⟩ : ∃ vbos, depositLazyVesting none 100 10 1 false 1000 Table.empty =
        .ok (some 0, vbos) ∧ ∃ vbos', depositLazyVesting (some 0) 50 10 1 false 1005 vbos =
          .ok (none, vbos') := ⟨_, rfl, _, rfl⟩
    obtain ⟨vbos', hsecond⟩ := hfirst
    obtain ⟨b', hb', hiff⟩ := hnew none 100 10 1 1000 Table.empty vbos 0 (by decide) (by decide)
      (by decide) (by decide) (by decide) hvbos
    obtain ⟨vbid, vbo, vbo', hvbid, hvbo, hvested, rfl⟩ :=
      hreused (some 0) 50 10 1 1005 vbos vbos' (by decide) hsecond
    obtain rfl := Option.some.inj hvbid
    exact ⟨vbos, b', vbo, vbo', hvbos, hb', (hiff.mpr (by decide)).1, (hiff.mpr (by decide)).2,
      hsecond, hvbo, hvested⟩

/-- Vested funds that may not be withdrawn: without vesting seconds, and with an overflow. -/
theorem vested_funds_locked :
    (∃ vbos b, depositLazyVesting none 100 0 1 false 1000 Table.empty = .ok (some 0, vbos) ∧
      vbos.find 0 = some b ∧ b.getAllowedWithdraw 1000 = .ok ⟨0, 0⟩) ∧
    ∃ b, VestingBalance.depositVested ⟨1, ⟨0, 0⟩, .cdd ⟨31536000, 0, 0, 1000⟩⟩ 1000
      ⟨1000000000000, 0⟩ = .ok b ∧ ¬b.CoinSecondsWithin := by
  refine ⟨⟨_, lazyVestingBalance 100 0 1 false 1000, rfl, rfl, by decide +kernel⟩,
    ⟨1, ⟨1000000000000, 0⟩, .cdd ⟨31536000, 340282366920938463458017119284349108224, 0, 1000⟩⟩,
    by decide +kernel, fun h => absurd (h _ rfl) (by decide +kernel)⟩

end Nestchain.Vesting
