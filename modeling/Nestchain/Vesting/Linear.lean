import Nestchain.Vesting.Policies

/-! Linear vesting.  What was withdrawn already is the difference between the balance at the begin
and the balance that is left, so that what may be withdrawn is right as long as this difference is
what vested or less. -/

namespace Nestchain.Vesting

open Lib Market

namespace LinearPolicy

variable {p : LinearPolicy} {balance amount : Asset} {now t : Nat}

/-- The first moment after the begin and the cliff. -/
def firstClaim (p : LinearPolicy) : Nat := p.beginTimestamp + max p.vestingCliffSeconds 1

/-- What has vested at a time after the begin and the cliff. -/
def vested (p : LinearPolicy) (now : Nat) : Int :=
  if now - p.beginTimestamp < p.vestingDurationSeconds then
    p.beginBalance * ((now - p.beginTimestamp : Nat) : Int) / p.vestingDurationSeconds
  else p.beginBalance

theorem firstClaim_le_iff : p.firstClaim ≤ now ↔
    p.beginTimestamp < now ∧ p.vestingCliffSeconds ≤ now - p.beginTimestamp := by
  rw [firstClaim]
  omega

theorem vested_nonneg (hbegin : 0 ≤ p.beginBalance) (now : Nat) : 0 ≤ p.vested now := by
  rw [vested]
  split
  · exact Int.ediv_nonneg (mul_nonneg hbegin (Int.natCast_nonneg _)) (Int.natCast_nonneg _)
  · exact hbegin

theorem vested_le (hbegin : 0 ≤ p.beginBalance) (now : Nat) : p.vested now ≤ p.beginBalance := by
  rw [vested]
  split
  · rename_i hlt
    refine Int.ediv_le_of_le_mul (by omega) ?_
    exact mul_le_mul_of_nonneg_left (by omega) hbegin
  · exact le_refl _

theorem vested_mono (hbegin : 0 ≤ p.beginBalance) (h : now ≤ t) : p.vested now ≤ p.vested t := by
  rcases Nat.lt_or_ge (t - p.beginTimestamp) p.vestingDurationSeconds with hlt | hge
  · rw [vested, vested, if_pos (by omega), if_pos hlt]
    refine Int.ediv_le_ediv (by omega) (mul_le_mul_of_nonneg_left (by omega) hbegin)
  · rw [vested, vested, if_neg (Nat.not_lt.mpr hge)]
    exact vested_le hbegin now

theorem vested_full (h : p.beginTimestamp + p.vestingDurationSeconds ≤ now) :
    p.vested now = p.beginBalance := by
  rw [vested, if_neg (by omega)]

theorem vested_computed (hbegin : 0 ≤ p.beginBalance) (hlt : p.beginBalance < 2 ^ 63)
    (hnow : now < 2 ^ 32) :
    (if now - p.beginTimestamp < p.vestingDurationSeconds then
      int64 (uint128 (p.beginBalance * ((now - p.beginTimestamp : Nat) : Int)) /
        p.vestingDurationSeconds)
      else p.beginBalance) = p.vested now := by
  have hvested := vested_le hbegin now
  have hvested' := vested_nonneg hbegin now
  rw [vested] at hvested hvested' ⊢
  split
  · rename_i hless
    rw [if_pos hless] at hvested hvested'
    have hproduct : 0 ≤ p.beginBalance * ((now - p.beginTimestamp : Nat) : Int) :=
      mul_nonneg hbegin (Int.natCast_nonneg _)
    have hproduct' : p.beginBalance * ((now - p.beginTimestamp : Nat) : Int) < 2 ^ 128 :=
      calc p.beginBalance * ((now - p.beginTimestamp : Nat) : Int)
          ≤ 2 ^ 63 * 2 ^ 32 := mul_le_mul (le_of_lt hlt)
            (by exact_mod_cast (Nat.sub_le _ _).trans (le_of_lt hnow)) (Int.natCast_nonneg _)
            (by decide)
        _ < 2 ^ 128 := by decide
    rw [uint128_of_lt hproduct hproduct', Int.toNat_of_nonneg hproduct]
    exact int64_of_lt hvested' (hvested.trans_lt hlt)
  · rfl

theorem getAllowedWithdraw_before (h : now < p.firstClaim) (amount : Asset) :
    p.getAllowedWithdraw ⟨balance, now, amount⟩ = .ok ⟨0, balance.assetId⟩ := by
  rw [getAllowedWithdraw, if_neg fun hc => Nat.not_le.mpr h (firstClaim_le_iff.mpr hc)]
  rfl

theorem getAllowedWithdraw_eq_ok {a : Asset} (hbegin : 0 ≤ p.beginBalance)
    (hlt : p.beginBalance < 2 ^ 63) (hnow : now < 2 ^ 32) (h : p.firstClaim ≤ now)
    (amount : Asset) : p.getAllowedWithdraw ⟨balance, now, amount⟩ = .ok a ↔
      balance.amount ≤ p.beginBalance ∧ p.beginBalance - balance.amount ≤ p.vested now ∧
        a = ⟨p.vested now - (p.beginBalance - balance.amount), balance.assetId⟩ := by
  have hvested := vested_nonneg hbegin now
  rw [getAllowedWithdraw, if_pos (firstClaim_le_iff.mp h)]
  dsimp only
  rw [vested_computed hbegin hlt hnow]
  simp only [bind_eq_ok, require_eq_ok, exists_const, pure_eq_ok]
  constructor
  · rintro ⟨-, hdrawn, hallowed, ha⟩
    exact ⟨by omega, by omega, ha⟩
  · rintro ⟨hle, hdrawn, ha⟩
    exact ⟨hvested, by omega, by omega, ha⟩

theorem isWithdrawAllowed_eq_true : p.isWithdrawAllowed ⟨balance, now, amount⟩ = .ok true ↔
    amount.assetId = balance.assetId ∧ ∃ a, p.getAllowedWithdraw ⟨balance, now, amount⟩ = .ok a ∧
      amount.assetId = a.assetId ∧ amount.amount ≤ a.amount := by
  rw [isWithdrawAllowed]
  split
  · rename_i hid
    simp only [bind_eq_ok, lessEq_eq_ok]
    constructor
    · rintro ⟨a, ha, hid', hle⟩
      exact ⟨hid, a, ha, hid', of_decide_eq_true hle.symm⟩
    · rintro ⟨-, a, ha, hid', hle⟩
      exact ⟨a, ha, hid', (decide_eq_true hle).symm⟩
  · rename_i hid
    exact ⟨fun h => absurd (pure_eq_ok.mp h) Bool.false_ne_true.symm, fun h => absurd h.1 hid⟩

/-! ### What a run of withdrawals keeps -/

/-- What was withdrawn so far is what vested or less. -/
structure Limits (p : LinearPolicy) (now : Nat) (withdrawn : Int) : Prop where
  before_cliff : ∀ t, now ≤ t → t < p.beginTimestamp + p.vestingCliffSeconds → withdrawn = 0
  vested_le : ∀ t, now ≤ t → p.beginTimestamp + p.vestingCliffSeconds ≤ t →
    withdrawn ≤ p.vested t

/-- No assertion fails, and the balance may be withdrawn after the duration and the cliff. -/
structure Claimable (p : LinearPolicy) (now : Nat) (balance : Asset) : Prop where
  nonneg : 0 ≤ balance.amount
  asserts : ∀ t amount, now ≤ t → t < 2 ^ 32 →
    ∃ a, p.getAllowedWithdraw ⟨balance, t, amount⟩ = .ok a ∧ 0 ≤ a.amount ∧
      a.amount ≤ balance.amount ∧ a.assetId = balance.assetId
  full : ∀ t amount, now ≤ t → t < 2 ^ 32 → p.beginTimestamp < t →
    p.beginTimestamp + p.vestingCliffSeconds ≤ t →
    p.beginTimestamp + p.vestingDurationSeconds ≤ t →
    p.getAllowedWithdraw ⟨balance, t, amount⟩ = .ok balance

/-- The invariant of a run of withdrawals that started with an initial balance: nothing was
withdrawn, or the claims have begun and the difference to the balance at the begin has vested. -/
structure Drawn (p : LinearPolicy) (initial : Int) (start now : Nat) (withdrawn balance : Int) :
    Prop where
  later : start ≤ now
  balance_eq : balance = initial - withdrawn
  withdrawn_nonneg : 0 ≤ withdrawn
  balance_nonneg : 0 ≤ balance
  drawn : withdrawn = 0 ∨
    (p.firstClaim ≤ now ∧ p.beginBalance - balance ≤ p.vested now)

/-- A balance at its start: what is missing in it has vested when the claims begin. -/
structure Startable (p : LinearPolicy) (initial : Int) (start : Nat) : Prop where
  nonneg : 0 ≤ initial
  le_begin : initial ≤ p.beginBalance
  begin_lt : p.beginBalance < 2 ^ 63
  missing : p.beginBalance - initial ≤ p.vested (max start p.firstClaim)

section

variable {initial withdrawn : Int} {start : Nat}

theorem Startable.begin_nonneg (h : p.Startable initial start) : 0 ≤ p.beginBalance :=
  h.nonneg.trans h.le_begin

theorem Startable.drawn (h : p.Startable initial start) : p.Drawn initial start start 0 initial :=
  ⟨le_refl _, (sub_zero _).symm, le_refl _, h.nonneg, Or.inl rfl⟩

theorem Drawn.missing (hs : p.Startable initial start)
    (h : p.Drawn initial start now withdrawn balance.amount) (hnow : now ≤ t)
    (hfirst : p.firstClaim ≤ t) : p.beginBalance - balance.amount ≤ p.vested t := by
  have hstart := h.later
  have heq := h.balance_eq
  rcases h.drawn with hzero | ⟨-, hdrawn⟩
  · have hmono := vested_mono hs.begin_nonneg (max_le (hstart.trans hnow) hfirst)
    have hmissing := hs.missing
    omega
  · exact hdrawn.trans (vested_mono hs.begin_nonneg hnow)

theorem Drawn.le_begin (hs : p.Startable initial start)
    (h : p.Drawn initial start now withdrawn balance.amount) :
    balance.amount ≤ p.beginBalance := by
  have heq := h.balance_eq
  have hdrawn := h.withdrawn_nonneg
  have hle := hs.le_begin
  omega

theorem Drawn.limits (hs : p.Startable initial start)
    (h : p.Drawn initial start now withdrawn balance.amount) : p.Limits now withdrawn := by
  have heq := h.balance_eq
  have hle := hs.le_begin
  constructor
  · intro t hnow hcliff
    rcases h.drawn with hzero | ⟨hfirst, -⟩
    · exact hzero
    · rw [firstClaim] at hfirst
      omega
  · intro t hnow _
    rcases h.drawn with hzero | ⟨hfirst, -⟩
    · exact hzero ▸ vested_nonneg hs.begin_nonneg t
    · have hmissing := h.missing hs hnow (hfirst.trans hnow)
      omega

theorem Drawn.claimable (hs : p.Startable initial start)
    (h : p.Drawn initial start now withdrawn balance.amount) : p.Claimable now balance := by
  refine ⟨h.balance_nonneg, fun t amount hnow ht => ?_, fun t amount hnow ht hbegin hcliff hend =>
    ?_⟩
  · rcases Nat.lt_or_ge t p.firstClaim with hlt | hge
    · exact ⟨_, getAllowedWithdraw_before hlt amount, le_refl _, h.balance_nonneg, rfl⟩
    · have hmissing := h.missing hs hnow hge
      have hvested := LinearPolicy.vested_le hs.begin_nonneg t
      refine ⟨_, (getAllowedWithdraw_eq_ok hs.begin_nonneg hs.begin_lt ht hge amount).mpr
        ⟨h.le_begin hs, hmissing, rfl⟩, ?_, ?_, rfl⟩
      · show 0 ≤ p.vested t - (p.beginBalance - balance.amount)
        omega
      · show p.vested t - (p.beginBalance - balance.amount) ≤ balance.amount
        omega
  · have hfirst : p.firstClaim ≤ t := by
      rw [firstClaim]
      omega
    rw [getAllowedWithdraw_eq_ok hs.begin_nonneg hs.begin_lt ht hfirst]
    refine ⟨h.le_begin hs, h.missing hs hnow hfirst, ?_⟩
    rw [vested_full hend, sub_sub_cancel]

theorem Drawn.withdraw (hs : p.Startable initial start)
    (h : p.Drawn initial start now withdrawn balance.amount) (hnow : now ≤ t) (ht : t < 2 ^ 32)
    (hamount : 0 ≤ amount.amount)
    (hallowed : p.isWithdrawAllowed ⟨balance, t, amount⟩ = .ok true) :
    p.Drawn initial start t (withdrawn + amount.amount) (balance.amount - amount.amount) := by
  obtain ⟨-, a, ha, -, hle⟩ := isWithdrawAllowed_eq_true.mp hallowed
  have heq := h.balance_eq
  have hdrawn := h.withdrawn_nonneg
  have hnonneg := h.balance_nonneg
  rcases Nat.lt_or_ge t p.firstClaim with hlt | hge
  · rw [getAllowedWithdraw_before hlt] at ha
    obtain rfl := Except.ok.inj ha
    have hzero : amount.amount = 0 := le_antisymm hle hamount
    rw [hzero, add_zero, sub_zero]
    refine ⟨h.later.trans hnow, heq, hdrawn, hnonneg, ?_⟩
    rcases h.drawn with hzero' | ⟨hfirst, -⟩
    · exact Or.inl hzero'
    · omega
  · obtain ⟨-, hmissing, rfl⟩ :=
      (getAllowedWithdraw_eq_ok hs.begin_nonneg hs.begin_lt ht hge amount).mp ha
    have hvested := LinearPolicy.vested_le hs.begin_nonneg t
    have hle' : amount.amount ≤ p.vested t - (p.beginBalance - balance.amount) := hle
    exact ⟨h.later.trans hnow, by omega, by omega, by omega, Or.inr ⟨hge, by omega⟩⟩

end

end LinearPolicy

/-! ### Runs -/

/-- Withdrawals from a vesting balance at times that do not go back, and what they withdrew. -/
inductive WithdrawRun (start : Nat) (b₀ : VestingBalance) : Nat → Int → VestingBalance → Prop
  | start : WithdrawRun start b₀ start 0 b₀
  | withdraw {now t : Nat} {withdrawn : Int} {b b' : VestingBalance} {owner : AccountId}
      {amount : Asset} (hrun : WithdrawRun start b₀ now withdrawn b) (hnow : now ≤ t)
      (ht : t < 2 ^ 32) (h : vestingBalanceWithdraw owner amount t b = .ok b') :
      WithdrawRun start b₀ t (withdrawn + amount.amount) b'

/-- Claims of a genesis balance at times that do not go back, none of which is negative, and what
they claimed. -/
inductive ClaimRun (start : Nat) (b₀ : BalanceObject) :
    Nat → Int → Option BalanceObject → Prop
  | start : ClaimRun start b₀ start 0 (some b₀)
  | claim {now t : Nat} {withdrawn : Int} {b : BalanceObject} {b' : Option BalanceObject}
      {totalClaimed : Asset} (hrun : ClaimRun start b₀ now withdrawn (some b)) (hnow : now ≤ t)
      (ht : t < 2 ^ 32) (hclaimed : 0 ≤ totalClaimed.amount)
      (h : balanceClaim totalClaimed t b = .ok b') :
      ClaimRun start b₀ t (withdrawn + totalClaimed.amount) b'

section

variable {p : LinearPolicy} {start now t : Nat} {withdrawn : Int} {amount : Asset}

theorem withdraw_linear {b : VestingBalance} (hp : b.policy = .linear p)
    (h : b.isWithdrawAllowed t amount = .ok true) :
    p.isWithdrawAllowed ⟨b.balance, t, amount⟩ = .ok true ∧
      b.withdraw t amount = .ok { b with
        balance := ⟨b.balance.amount - amount.amount, b.balance.assetId⟩ } := by
  simp only [VestingBalance.isWithdrawAllowed, hp, Policy.isWithdrawAllowed, bind_eq_ok,
    require_eq_ok, pure_eq_ok, lessEq_eq_ok] at h
  obtain ⟨result, hresult, within, ⟨hid, rfl⟩, _, hwithin, rfl⟩ := h
  refine ⟨hresult, ?_⟩
  simp only [VestingBalance.withdraw, hp, Policy.onWithdraw, bind_eq_ok, require_eq_ok,
    pure_eq_ok, lessEq_eq_ok, Asset.minus_eq_ok]
  exact ⟨_, ⟨hid, rfl⟩, (), hwithin.resolve_right Bool.false_ne_true.symm, _, rfl, _,
    ⟨hid.symm, rfl⟩, rfl⟩

theorem vestingBalanceWithdraw_linear {b b' : VestingBalance} {owner : AccountId}
    (hp : b.policy = .linear p) (h : vestingBalanceWithdraw owner amount t b = .ok b') :
    0 < amount.amount ∧ p.isWithdrawAllowed ⟨b.balance, t, amount⟩ = .ok true ∧
      b'.policy = .linear p ∧ b'.owner = b.owner ∧
        b'.balance = ⟨b.balance.amount - amount.amount, b.balance.assetId⟩ := by
  simp only [vestingBalanceWithdraw, bind_eq_ok, require_eq_ok, exists_const] at h
  obtain ⟨hpos, -, allowed, hallowed, rfl, -, -, -, h⟩ := h
  obtain ⟨hallowed', hwithdraw⟩ := withdraw_linear hp hallowed
  obtain rfl := Except.ok.inj (hwithdraw.symm.trans h)
  exact ⟨hpos, hallowed', hp, rfl, rfl⟩

theorem WithdrawRun.drawn {b₀ b : VestingBalance} (hs : p.Startable b₀.balance.amount start)
    (hp : b₀.policy = .linear p) (h : WithdrawRun start b₀ now withdrawn b) :
    p.Drawn b₀.balance.amount start now withdrawn b.balance.amount ∧ b.policy = .linear p ∧
      b.owner = b₀.owner := by
  induction h with
  | start => exact ⟨hs.drawn, hp, rfl⟩
  | withdraw _ hnow ht hstep ih =>
    obtain ⟨hdrawn, hpolicy, howner⟩ := ih
    obtain ⟨hpos, hallowed, hpolicy', howner', hbalance⟩ :=
      vestingBalanceWithdraw_linear hpolicy hstep
    refine ⟨?_, hpolicy', howner'.trans howner⟩
    rw [hbalance]
    exact hdrawn.withdraw hs hnow ht (le_of_lt hpos) hallowed

theorem vestingBalanceWithdraw_all {b : VestingBalance} (hp : b.policy = .linear p)
    (hpos : 0 < b.balance.amount)
    (hfull : p.getAllowedWithdraw ⟨b.balance, t, b.balance⟩ = .ok b.balance) :
    ∃ b', vestingBalanceWithdraw b.owner b.balance t b = .ok b' ∧ b'.balance.amount = 0 := by
  have hallowed : b.isWithdrawAllowed t b.balance = .ok true := by
    simp only [VestingBalance.isWithdrawAllowed, hp, Policy.isWithdrawAllowed, bind_eq_ok,
      require_eq_ok, pure_eq_ok, lessEq_eq_ok]
    exact ⟨true, LinearPolicy.isWithdrawAllowed_eq_true.mpr ⟨rfl, _, hfull, rfl, le_refl _⟩, _,
      ⟨trivial, rfl⟩, (), Or.inl (decide_eq_true (le_refl _)), rfl⟩
  refine ⟨{ b with balance := ⟨b.balance.amount - b.balance.amount, b.balance.assetId⟩ }, ?_,
    sub_self b.balance.amount⟩
  simp only [vestingBalanceWithdraw, bind_eq_ok, require_eq_ok, exists_const, lessEq_eq_ok]
  exact ⟨hpos, trivial, true, hallowed, rfl, _, ⟨trivial, rfl⟩, decide_eq_true (le_refl _),
    (withdraw_linear hp hallowed).2⟩

theorem balanceClaim_linear {b : BalanceObject} {b' : Option BalanceObject}
    (hp : b.vestingPolicy = some p) (h : balanceClaim amount t b = .ok b') :
    p.isWithdrawAllowed ⟨b.balance, t, amount⟩ = .ok true ∧
      ((amount.amount < b.balance.amount ∧ b' = some { b with
        balance := ⟨b.balance.amount - amount.amount, b.balance.assetId⟩, lastClaimDate := t }) ∨
      (b.balance.amount ≤ amount.amount ∧ b' = none)) := by
  simp only [balanceClaim, hp, bind_eq_ok, require_eq_ok, exists_const, Asset.less_eq_ok] at h
  obtain ⟨-, allowed, hallowed, rfl, -, partly, ⟨-, rfl⟩, h⟩ := h
  refine ⟨hallowed, ?_⟩
  split at h
  · rename_i hlt
    simp only [bind_eq_ok, Asset.minus_eq_ok, pure_eq_ok] at h
    obtain ⟨_, ⟨-, rfl⟩, rfl⟩ := h
    exact Or.inl ⟨of_decide_eq_true hlt, by rw [hp]⟩
  · rename_i hge
    exact Or.inr ⟨not_lt.mp fun h => hge (decide_eq_true h), pure_eq_ok.mp h⟩

theorem ClaimRun.drawn {b₀ : BalanceObject} {left : Option BalanceObject}
    (hs : p.Startable b₀.balance.amount start) (hp : b₀.vestingPolicy = some p)
    (h : ClaimRun start b₀ now withdrawn left) :
    (∀ b, left = some b → p.Drawn b₀.balance.amount start now withdrawn b.balance.amount ∧
      b.vestingPolicy = some p) ∧
      (left = none → p.Drawn b₀.balance.amount start now withdrawn 0) := by
  induction h with
  | start =>
    refine ⟨fun b hb => ?_, fun h => nomatch h⟩
    obtain rfl := Option.some.inj hb
    exact ⟨hs.drawn, hp⟩
  | @claim now t withdrawn b b' claimed _ hnow ht hclaimed hstep ih =>
    obtain ⟨hdrawn, hpolicy⟩ := ih.1 b rfl
    obtain ⟨hallowed, ⟨-, hleft⟩ | ⟨hall, hleft⟩⟩ := balanceClaim_linear hpolicy hstep
    · have hdrawn' := hdrawn.withdraw hs hnow ht hclaimed hallowed
      refine ⟨fun c hc => ?_, fun h => nomatch hleft.symm.trans h⟩
      obtain rfl := Option.some.inj (hleft.symm.trans hc)
      exact ⟨hdrawn', hpolicy⟩
    · have hdrawn' := hdrawn.withdraw hs hnow ht hclaimed hallowed
      have hzero : b.balance.amount - claimed.amount = 0 :=
        le_antisymm (sub_nonpos.mpr hall) hdrawn'.balance_nonneg
      exact ⟨fun c hc => (nomatch hleft.symm.trans hc), fun _ => hzero ▸ hdrawn'⟩

end

/-- A vesting balance that an operation created vests linearly: in every run of withdrawals what was
withdrawn stays below what vested, no assertion fails, and the owner withdraws everything after the
duration and the cliff.  In every run of claims of a genesis balance whose claims are not negative
the same holds, exactly when what is missing in the balance has vested by the first moment of a
claim. -/
theorem linear_vests (start : Nat) :
    (∀ {owner amount beginTimestamp cliff duration b₀ now withdrawn b},
      vestingBalanceCreate owner amount (.linear beginTimestamp cliff duration) start = .ok b₀ →
      amount.amount < 2 ^ 63 → WithdrawRun start b₀ now withdrawn b →
      ∃ p : LinearPolicy, p = ⟨beginTimestamp, cliff, duration, amount.amount⟩ ∧
        p.Limits now withdrawn ∧ p.Claimable now b.balance ∧
        (∀ t x, now ≤ t → b.isWithdrawAllowed t x = .ok true → ∃ b', b.withdraw t x = .ok b') ∧
        ∀ t, now ≤ t → t < 2 ^ 32 → beginTimestamp < t → beginTimestamp + cliff ≤ t →
          beginTimestamp + duration ≤ t → 0 < b.balance.amount →
          ∃ b', vestingBalanceWithdraw owner b.balance t b = .ok b' ∧ b'.balance.amount = 0) ∧
    (∀ {p : LinearPolicy} {b₀ : BalanceObject}, b₀.vestingPolicy = some p →
      0 ≤ b₀.balance.amount → b₀.balance.amount ≤ p.beginBalance → p.beginBalance < 2 ^ 63 →
      start < 2 ^ 32 → p.firstClaim < 2 ^ 32 →
      ((∀ now withdrawn left, ClaimRun start b₀ now withdrawn left →
        p.Limits now withdrawn ∧ ∀ b, left = some b → p.Claimable now b.balance) ↔
        p.beginBalance - b₀.balance.amount ≤ p.vested (max start p.firstClaim))) := by
  constructor
  · intro owner amount beginTimestamp cliff duration b₀ now withdrawn b hcreate hlt hrun
    simp only [vestingBalanceCreate, bind_eq_ok, require_eq_ok, exists_const, pure_eq_ok] at hcreate
    obtain ⟨hpos, rfl⟩ := hcreate
    have hs : LinearPolicy.Startable ⟨beginTimestamp, cliff, duration, amount.amount⟩ amount.amount
        start := ⟨le_of_lt hpos, le_refl _, hlt, by
      rw [sub_self]
      exact LinearPolicy.vested_nonneg (le_of_lt hpos) _⟩
    obtain ⟨hdrawn, hpolicy, howner⟩ := hrun.drawn hs rfl
    have hclaimable := hdrawn.claimable hs
    refine ⟨_, rfl, hdrawn.limits hs, hclaimable, fun t x _ hallowed =>
      ⟨_, (withdraw_linear hpolicy hallowed).2⟩, fun t hnow ht hbegin hcliff hend hpos' => ?_⟩
    have hall := vestingBalanceWithdraw_all hpolicy hpos'
      (hclaimable.full t b.balance hnow ht hbegin hcliff hend)
    rwa [howner] at hall
  · intro p b₀ hp hnonneg hle hlt hstart hfirst
    constructor
    · intro h
      have hmax : max start p.firstClaim < 2 ^ 32 := max_lt hstart hfirst
      have hclaimable := (h start 0 (some b₀) .start).2 b₀ rfl
      obtain ⟨a, ha, -⟩ := hclaimable.asserts (max start p.firstClaim) b₀.balance
        (le_max_left _ _) hmax
      exact ((LinearPolicy.getAllowedWithdraw_eq_ok (hnonneg.trans hle) hlt hmax
        (le_max_right _ _) _).mp ha).2.1
    · intro hmissing now withdrawn left hrun
      have hs : p.Startable b₀.balance.amount start := ⟨hnonneg, hle, hlt, hmissing⟩
      obtain ⟨hleft, hnone⟩ := hrun.drawn hs hp
      cases left with
      | none =>
        have hzero : p.Drawn b₀.balance.amount start now withdrawn (Asset.mk 0 coreAsset).amount :=
          hnone rfl
        exact ⟨hzero.limits hs, (fun b hb => by cases hb)⟩
      | some b =>
        refine ⟨(hleft b rfl).1.limits hs, fun c hc => ?_⟩
        obtain rfl := Option.some.inj hc
        exact (hleft b rfl).1.claimable hs

/-- A balance of 100 that vests in 100 seconds with a cliff of ten, from which 50 were withdrawn
after 50 seconds, and a genesis balance of 50 of which half has vested at the start. -/
theorem linear_vests_half :
    LinearPolicy.Limits ⟨1000, 10, 100, 100⟩ 1050 50 ∧
      ∀ now withdrawn left, ClaimRun 1050 ⟨⟨50, 0⟩, some ⟨1000, 0, 100, 100⟩,
        0⟩ now withdrawn left →
        LinearPolicy.Limits ⟨1000, 0, 100, 100⟩ now withdrawn := by
  have hrun : WithdrawRun 1000 ⟨1, ⟨100, 0⟩, .linear ⟨1000, 10, 100, 100⟩⟩ 1050 (0 + 50)
      ⟨1, ⟨50, 0⟩, .linear ⟨1000, 10, 100, 100⟩⟩ :=
    @WithdrawRun.withdraw _ _ _ _ _ _ _ 1 ⟨50, 0⟩ .start (by decide) (by decide) (by decide +kernel)
  have hcreate : vestingBalanceCreate 1 ⟨100, 0⟩ (.linear 1000 10 100) 1000 =
      .ok ⟨1, ⟨100, 0⟩, .linear ⟨1000, 10, 100, 100⟩⟩ := rfl
  obtain ⟨p, rfl, hlimits, -⟩ := (linear_vests 1000).1 hcreate (by decide) hrun
  exact ⟨hlimits, fun now withdrawn left h =>
    (((linear_vests 1050).2 rfl (by decide) (by decide) (by decide) (by decide) (by decide)).mpr
      (by decide)
      now withdrawn left h).1⟩

/-- A genesis balance from which more is missing than has vested, and one that a negative claim lets
grow above its begin balance. -/
theorem genesis_balance_asserts :
    LinearPolicy.getAllowedWithdraw ⟨1000, 0, 100, 100⟩ ⟨⟨50, 0⟩, 1001, ⟨0, 0⟩⟩ = .error .thrown ∧
      balanceClaim ⟨-5, 0⟩ 100000 ⟨⟨100, 0⟩, some ⟨1000, 0, 100, 100⟩, 0⟩ =
        .ok (some ⟨⟨105, 0⟩, some ⟨1000, 0, 100, 100⟩, 100000⟩) ∧
      LinearPolicy.getAllowedWithdraw ⟨1000, 0, 100, 100⟩ ⟨⟨105, 0⟩, 100001, ⟨0, 0⟩⟩ =
        .error .thrown := by
  refine ⟨?_, ?_, ?_⟩ <;> decide +kernel

end Nestchain.Vesting
