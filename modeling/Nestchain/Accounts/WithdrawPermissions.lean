import Nestchain.Market.Price
import Mathlib.Algebra.Order.BigOperators.Group.List

/-! Withdrawal permissions.  A permission lets an account claim up to a limit in each period; which
period it is in is only worked out by a claim.  Times are seconds of the 32-bit type
`time_point_sec`, whose sums wrap around.  The head time is past hard fork 23.  The checks of a
claim that concern the balance and the asset are left out; a claim says whether it passes them, and
the other operations say whether their accounts and their asset exist. -/

namespace Nestchain.Accounts

open Nestchain.Lib Nestchain.Market

def seconds32 (n : Nat) : Nat := n % 2 ^ 32

/-- The sum of two amounts, which throws past the 64-bit integers. -/
def addShares (x y : Int) : Attempt Int := do
  require (x + y < 2 ^ 63)
  pure (x + y)

/-- The terms that `withdraw_permission_create_operation` and `withdraw_permission_update_operation`
set. -/
structure WithdrawTerms where
  withdrawalLimit : Asset
  withdrawalPeriodSec : Nat
  periodsUntilExpiration : Nat
  periodStartTime : Nat
  period_lt : withdrawalPeriodSec < 2 ^ 32
  periods_lt : periodsUntilExpiration < 2 ^ 32
  start_lt : periodStartTime < 2 ^ 32

/-- The time at which a permission with these terms expires. -/
def WithdrawTerms.expiration (s : WithdrawTerms) : Nat :=
  seconds32 (s.periodStartTime + seconds32 (s.periodsUntilExpiration * s.withdrawalPeriodSec))

def WithdrawTerms.check (s : WithdrawTerms) (known : Bool) (blockInterval now : Nat) :
    Attempt Unit := do
  require (0 < s.withdrawalLimit.amount)
  require (0 < s.withdrawalPeriodSec)
  require (0 < s.periodsUntilExpiration)
  require known
  require (now < s.expiration)
  require (blockInterval ≤ s.withdrawalPeriodSec)

structure WithdrawPermissionCreate where
  withdrawFromAccount : AccountId
  authorizedAccount : AccountId
  terms : WithdrawTerms
  known : Bool

structure WithdrawPermissionUpdate where
  withdrawFromAccount : AccountId
  authorizedAccount : AccountId
  terms : WithdrawTerms
  known : Bool

structure WithdrawPermissionClaim where
  withdrawFromAccount : AccountId
  withdrawToAccount : AccountId
  amountToWithdraw : Asset
  passes : Bool

/-- `withdraw_permission_object` -/
structure WithdrawPermission where
  withdrawFromAccount : AccountId
  authorizedAccount : AccountId
  withdrawalLimit : Asset
  withdrawalPeriodSec : Nat
  periodStartTime : Nat
  expiration : Nat
  claimedThisPeriod : Int
deriving DecidableEq

def WithdrawPermission.availableThisPeriod (p : WithdrawPermission) (currentTime : Nat) : Asset :=
  if seconds32 (p.periodStartTime + p.withdrawalPeriodSec) ≤ currentTime then p.withdrawalLimit
  else
    ⟨if p.claimedThisPeriod < p.withdrawalLimit.amount then
      p.withdrawalLimit.amount - p.claimedThisPeriod else 0, p.withdrawalLimit.assetId⟩

/-- Whether a claim is above the limit, which throws for another asset. -/
def WithdrawPermission.exceeds (p : WithdrawPermission) (amountToWithdraw : Asset) (now : Nat) :
    Attempt Bool :=
  (p.availableThisPeriod now).less amountToWithdraw

/-- The total of a period after a claim, which so many periods have ended before. -/
def WithdrawPermission.claimedAfter (p : WithdrawPermission) (periods : Nat) (amount : Int) :
    Attempt Int :=
  if periods = 0 then addShares p.claimedThisPeriod amount else pure amount

/-- The evaluators, each with the validation of its operation. -/
def WithdrawPermissionCreate.apply (op : WithdrawPermissionCreate) (blockInterval now : Nat) :
    Attempt WithdrawPermission := do
  require (op.withdrawFromAccount ≠ op.authorizedAccount)
  require (now < op.terms.periodStartTime)
  op.terms.check op.known blockInterval now
  pure {
    withdrawFromAccount := op.withdrawFromAccount
    authorizedAccount := op.authorizedAccount
    withdrawalLimit := op.terms.withdrawalLimit
    withdrawalPeriodSec := op.terms.withdrawalPeriodSec
    periodStartTime := op.terms.periodStartTime
    expiration := op.terms.expiration
    claimedThisPeriod := 0 }

def WithdrawPermissionUpdate.apply (op : WithdrawPermissionUpdate) (blockInterval now : Nat)
    (permit : WithdrawPermission) : Attempt WithdrawPermission := do
  require (op.withdrawFromAccount ≠ op.authorizedAccount)
  require (permit.authorizedAccount = op.authorizedAccount)
  require (permit.withdrawFromAccount = op.withdrawFromAccount)
  require (now ≤ op.terms.periodStartTime)
  op.terms.check op.known blockInterval now
  pure { permit with
    periodStartTime := op.terms.periodStartTime
    expiration := op.terms.expiration
    withdrawalLimit := op.terms.withdrawalLimit
    withdrawalPeriodSec := op.terms.withdrawalPeriodSec }

def WithdrawPermissionClaim.apply (op : WithdrawPermissionClaim) (now : Nat)
    (permit : WithdrawPermission) : Attempt WithdrawPermission := do
  require (op.withdrawToAccount ≠ op.withdrawFromAccount)
  require (0 < op.amountToWithdraw.amount)
  require (now < permit.expiration)
  require (permit.authorizedAccount = op.withdrawToAccount)
  require (permit.withdrawFromAccount = op.withdrawFromAccount)
  require (permit.periodStartTime ≤ now)
  let exceeds ← permit.exceeds op.amountToWithdraw now
  require (exceeds = false)
  require op.passes
  let periods := (now - permit.periodStartTime) / permit.withdrawalPeriodSec
  let claimed ← permit.claimedAfter periods op.amountToWithdraw.amount
  pure { permit with
    periodStartTime := seconds32 (permit.periodStartTime + periods * permit.withdrawalPeriodSec)
    claimedThisPeriod := claimed }

/-! ### Periods and claims -/

namespace WithdrawTerms

variable (s : WithdrawTerms)

/-- The number of the period that a time is in. -/
def period (t : Nat) : Nat := (t - s.periodStartTime) / s.withdrawalPeriodSec

/-- The end of a period, where the next one starts. -/
def periodEnd (k : Nat) : Nat := s.periodStartTime + (k + 1) * s.withdrawalPeriodSec

def claimedIn (claims : List (Nat × Int)) (k : Nat) : Int :=
  ((claims.filter fun c => s.period c.1 = k).map Prod.snd).sum

/-- The amount that is available at a time is right: the end of its period is a 32-bit time, and the
period is not the first one or nothing was carried over from earlier terms; or the end of the period
is none, and nothing was claimed in it. -/
def Available (carried : Int) (claims : List (Nat × Int)) (t : Nat) : Prop :=
  if s.periodEnd (s.period t) < 2 ^ 32 then s.period t ≠ 0 ∨ carried = 0
  else s.claimedIn claims (s.period t) = 0

instance (carried : Int) (claims : List (Nat × Int)) (t : Nat) :
    Decidable (s.Available carried claims t) :=
  inferInstanceAs (Decidable (ite _ _ _))

/-! ### Lemmas about periods -/

theorem expiration_le :
    s.expiration ≤ s.periodStartTime + s.periodsUntilExpiration * s.withdrawalPeriodSec := by
  have hproduct := Nat.mod_le (s.periodsUntilExpiration * s.withdrawalPeriodSec) (2 ^ 32)
  have hsum := Nat.mod_le (s.periodStartTime +
    s.periodsUntilExpiration * s.withdrawalPeriodSec % 2 ^ 32) (2 ^ 32)
  unfold expiration seconds32
  omega

variable {s} {claims : List (Nat × Int)} {k t : Nat}

theorem le_period (hpos : 0 < s.withdrawalPeriodSec)
    (h : s.periodStartTime + k * s.withdrawalPeriodSec ≤ t) : k ≤ s.period t :=
  (Nat.le_div_iff_mul_le hpos).mpr (by omega)

theorem lt_periodEnd (hpos : 0 < s.withdrawalPeriodSec) : t < s.periodEnd (s.period t) := by
  have hlt := Nat.lt_div_mul_add (a := t - s.periodStartTime) hpos
  unfold periodEnd period
  rw [Nat.add_one_mul]
  omega

theorem periodEnd_le (hstart : s.periodStartTime ≤ t) (hlt : k < s.period t) :
    s.periodEnd k ≤ t := by
  have hle : (k + 1) * s.withdrawalPeriodSec ≤ t - s.periodStartTime :=
    (Nat.mul_le_mul_right _ hlt).trans (Nat.div_mul_le_self _ _)
  unfold periodEnd
  omega

theorem period_eq (hpos : 0 < s.withdrawalPeriodSec)
    (h : s.periodStartTime + k * s.withdrawalPeriodSec ≤ t) :
    s.period t =
      k + (t - (s.periodStartTime + k * s.withdrawalPeriodSec)) / s.withdrawalPeriodSec := by
  have hsub : t - s.periodStartTime =
      (t - (s.periodStartTime + k * s.withdrawalPeriodSec)) + k * s.withdrawalPeriodSec := by omega
  unfold period
  rw [hsub, Nat.add_mul_div_right _ _ hpos, Nat.add_comm]

theorem claimedIn_append (a : Int) : s.claimedIn (claims ++ [(t, a)]) k =
    s.claimedIn claims k + if s.period t = k then a else 0 := by
  unfold claimedIn
  by_cases h : s.period t = k <;> simp [List.filter_append, h]

theorem claimedIn_eq_zero (h : ∀ c ∈ claims, s.period c.1 ≠ k) : s.claimedIn claims k = 0 := by
  unfold claimedIn
  rw [List.filter_eq_nil_iff.mpr fun c hc => by simpa using h c hc]
  rfl

theorem claimedIn_nonneg (h : ∀ c ∈ claims, 0 < c.2) : 0 ≤ s.claimedIn claims k := by
  refine List.sum_nonneg fun x hx => ?_
  obtain ⟨c, hc, rfl⟩ := List.mem_map.mp hx
  exact (h c (List.mem_filter.mp hc).1).le

end WithdrawTerms

/-! ### What a permission says of the claims under its terms -/

/-- The permission carries the terms, and counts the claims of the period `k`, which no claim is
after.  In the first period the count goes on from what was carried over. -/
structure WithdrawPermission.Follows (p : WithdrawPermission) (s : WithdrawTerms) (carried : Int)
    (claims : List (Nat × Int)) (now k : Nat) : Prop where
  limit : p.withdrawalLimit = s.withdrawalLimit
  length : p.withdrawalPeriodSec = s.withdrawalPeriodSec
  expiration : p.expiration = s.expiration
  limit_pos : 0 < s.withdrawalLimit.amount
  length_pos : 0 < s.withdrawalPeriodSec
  start : p.periodStartTime = s.periodStartTime + k * s.withdrawalPeriodSec
  started : k ≠ 0 → p.periodStartTime ≤ now
  carried_nonneg : 0 ≤ carried
  claim_pos : ∀ c ∈ claims, 0 < c.2
  period_le : ∀ c ∈ claims, s.period c.1 ≤ k
  claimed : p.claimedThisPeriod = s.claimedIn claims k + if k = 0 then carried else 0
  first : s.periodEnd 0 < 2 ^ 32 → carried ≠ 0 → s.claimedIn claims 0 = 0
  within : ∀ j, s.claimedIn claims j ≤ s.withdrawalLimit.amount

namespace WithdrawPermission.Follows

variable {p : WithdrawPermission} {s : WithdrawTerms} {carried : Int} {claims : List (Nat × Int)}
  {now k t : Nat}

theorem claimedThisPeriod_nonneg (h : p.Follows s carried claims now k) :
    0 ≤ p.claimedThisPeriod := by
  have hclaimed : 0 ≤ s.claimedIn claims k := WithdrawTerms.claimedIn_nonneg h.claim_pos
  have hcarried := h.carried_nonneg
  rw [h.claimed]
  split <;> omega

theorem start_le (h : p.Follows s carried claims now k) (hnow : now ≤ t)
    (hstart : s.periodStartTime ≤ t) : s.periodStartTime + k * s.withdrawalPeriodSec ≤ t := by
  by_cases hk : k = 0
  · simpa [hk] using hstart
  · have hle := h.started hk
    have heq := h.start
    omega

theorem claimedIn_eq_zero (h : p.Follows s carried claims now k) {j : Nat} (hj : k < j) :
    s.claimedIn claims j = 0 :=
  WithdrawTerms.claimedIn_eq_zero fun c hc => by
    have hle := h.period_le c hc
    omega

theorem exceeds_eq (h : p.Follows s carried claims now k) (a : Int) :
    p.exceeds ⟨a, s.withdrawalLimit.assetId⟩ t =
      .ok (decide ((p.availableThisPeriod t).amount < a)) := by
  have hid : (p.availableThisPeriod t).assetId = s.withdrawalLimit.assetId := by
    unfold availableThisPeriod
    rw [h.limit]
    split <;> rfl
  unfold exceeds Asset.less
  simp [hid, require, bind, Except.bind, pure, Except.pure]

theorem countedEnd_eq (h : p.Follows s carried claims now k) :
    p.periodStartTime + p.withdrawalPeriodSec = s.periodEnd k := by
  rw [h.start, h.length, WithdrawTerms.periodEnd, Nat.add_one_mul, Nat.add_assoc]

theorem available_later (h : p.Follows s carried claims now k) (ht : t < 2 ^ 32)
    (hstart : s.periodStartTime ≤ t) (hlt : k < s.period t) :
    (p.availableThisPeriod t).amount = s.withdrawalLimit.amount := by
  have hend := WithdrawTerms.periodEnd_le hstart hlt
  unfold availableThisPeriod seconds32
  rw [h.countedEnd_eq, Nat.mod_eq_of_lt (by omega), if_pos hend, h.limit]

theorem available_wrapped (h : p.Follows s carried claims now k)
    (hle : s.periodStartTime + k * s.withdrawalPeriodSec ≤ t) (ht : t < 2 ^ 32)
    (hend : 2 ^ 32 ≤ s.periodEnd k) :
    (p.availableThisPeriod t).amount = s.withdrawalLimit.amount := by
  have hstart := h.start
  have hlength := h.length
  have hcounted := h.countedEnd_eq
  have hlt := s.period_lt
  unfold availableThisPeriod seconds32
  rw [h.countedEnd_eq, if_pos (by omega), h.limit]

theorem available_counted (h : p.Follows s carried claims now k) (hlt : t < s.periodEnd k)
    (hend : s.periodEnd k < 2 ^ 32) :
    (p.availableThisPeriod t).amount =
      if p.claimedThisPeriod < s.withdrawalLimit.amount then
        s.withdrawalLimit.amount - p.claimedThisPeriod else 0 := by
  unfold availableThisPeriod seconds32
  rw [h.countedEnd_eq, Nat.mod_eq_of_lt hend, if_neg (by omega), h.limit]

theorem exceeds_iff (h : p.Follows s carried claims now k) (hnow : now ≤ t) (ht : t < 2 ^ 32)
    (hstart : s.periodStartTime ≤ t) (havailable : s.Available carried claims t) {a : Int} :
    p.exceeds ⟨a, s.withdrawalLimit.assetId⟩ t = .ok false ↔
      s.claimedIn claims (s.period t) + a ≤ s.withdrawalLimit.amount := by
  have hle := h.start_le hnow hstart
  rw [h.exceeds_eq, Except.ok.injEq, decide_eq_false_iff_not, not_lt]
  unfold WithdrawTerms.Available at havailable
  rcases (WithdrawTerms.le_period h.length_pos hle).lt_or_eq with hlt | hk
  · rw [h.available_later ht hstart hlt, h.claimedIn_eq_zero hlt, zero_add]
  · rw [← hk] at havailable ⊢
    by_cases hend : s.periodEnd k < 2 ^ 32
    · have hlt : t < s.periodEnd k := hk ▸ WithdrawTerms.lt_periodEnd h.length_pos
      have hcarried : (if k = 0 then carried else 0) = 0 := by
        rw [if_pos hend] at havailable
        split <;> simp_all
      have hwithin := h.within k
      have hclaimed := h.claimed
      rw [h.available_counted hlt hend]
      split <;> omega
    · rw [if_neg hend] at havailable
      rw [h.available_wrapped hle ht (by omega), havailable, zero_add]

theorem not_exceeds_iff (h : p.Follows s carried claims now k) (hnow : now ≤ t) (ht : t < 2 ^ 32)
    (hstart : s.periodStartTime ≤ t) (havailable : ¬s.Available carried claims t) :
    ∃ a : Int, 0 < a ∧ ¬(p.exceeds ⟨a, s.withdrawalLimit.assetId⟩ t = .ok false ↔
      s.claimedIn claims (s.period t) + a ≤ s.withdrawalLimit.amount) := by
  have hle := h.start_le hnow hstart
  have hpos := h.limit_pos
  refine ⟨s.withdrawalLimit.amount, hpos, ?_⟩
  rw [h.exceeds_eq, Except.ok.injEq, decide_eq_false_iff_not, not_lt]
  unfold WithdrawTerms.Available at havailable
  rcases (WithdrawTerms.le_period h.length_pos hle).lt_or_eq with hlt | hk
  · refine absurd ?_ havailable
    split
    · exact .inl (by omega)
    · exact h.claimedIn_eq_zero hlt
  · rw [← hk] at havailable ⊢
    by_cases hend : s.periodEnd k < 2 ^ 32
    · rw [if_pos hend, not_or, not_not] at havailable
      obtain ⟨rfl, hcarried⟩ := havailable
      have hzero := h.first hend hcarried
      have hnonneg := h.carried_nonneg
      have hclaimed := h.claimed
      rw [if_pos rfl, hzero] at hclaimed
      rw [h.available_counted (hk ▸ WithdrawTerms.lt_periodEnd h.length_pos) hend]
      split <;> omega
    · rw [if_neg hend] at havailable
      have hnonneg : 0 ≤ s.claimedIn claims k := WithdrawTerms.claimedIn_nonneg h.claim_pos
      rw [h.available_wrapped hle ht (by omega)]
      omega

end WithdrawPermission.Follows

/-- Claims and updates of a permission at times that do not go back, with the terms in force, the
total that the permission had when they came into force, and the claims under them.  The amount that
is available is right at each claim. -/
inductive PermissionRun (blockInterval : Nat) :
    Nat → WithdrawPermission → WithdrawTerms → Int → List (Nat × Int) → Prop
  | create {now : Nat} {op : WithdrawPermissionCreate} {p : WithdrawPermission}
      (h : op.apply blockInterval now = .ok p) : PermissionRun blockInterval now p op.terms 0 []
  | claim {now t : Nat} {p p' : WithdrawPermission} {s : WithdrawTerms} {carried : Int}
      {claims : List (Nat × Int)} {op : WithdrawPermissionClaim}
      (hrun : PermissionRun blockInterval now p s carried claims) (hnow : now ≤ t)
      (ht : t < 2 ^ 32) (havailable : s.Available carried claims t)
      (h : op.apply t p = .ok p') :
      PermissionRun blockInterval t p' s carried (claims ++ [(t, op.amountToWithdraw.amount)])
  | update {now t : Nat} {p p' : WithdrawPermission} {s : WithdrawTerms} {carried : Int}
      {claims : List (Nat × Int)} {op : WithdrawPermissionUpdate}
      (hrun : PermissionRun blockInterval now p s carried claims) (hnow : now ≤ t)
      (ht : t < 2 ^ 32) (h : op.apply blockInterval t p = .ok p') :
      PermissionRun blockInterval t p' op.terms p.claimedThisPeriod []

/-! ### The operations -/

theorem WithdrawTerms.check_eq_ok {s : WithdrawTerms} {known : Bool} {blockInterval now : Nat}
    {u : Unit} (h : s.check known blockInterval now = .ok u) :
    0 < s.withdrawalLimit.amount ∧ 0 < s.withdrawalPeriodSec := by
  simp only [check, bind_eq_ok, require_eq_ok] at h
  obtain ⟨_, hlimit, _, hlength, _⟩ := h
  exact ⟨hlimit, hlength⟩

theorem WithdrawPermissionCreate.follows {op : WithdrawPermissionCreate} {blockInterval now : Nat}
    {p : WithdrawPermission} (h : op.apply blockInterval now = .ok p) :
    p.Follows op.terms 0 [] now 0 := by
  simp only [apply, bind_eq_ok, require_eq_ok, pure_eq_ok] at h
  obtain ⟨_, _, _, _, _, hcheck, rfl⟩ := h
  obtain ⟨hlimit, hlength⟩ := WithdrawTerms.check_eq_ok hcheck
  exact {
    limit := rfl
    length := rfl
    expiration := rfl
    limit_pos := hlimit
    length_pos := hlength
    start := by simp
    started := fun hk => absurd rfl hk
    carried_nonneg := le_refl 0
    claim_pos := by simp
    period_le := by simp
    claimed := by simp [WithdrawTerms.claimedIn]
    first := fun _ _ => rfl
    within := fun _ => hlimit.le }

theorem WithdrawPermissionUpdate.follows {op : WithdrawPermissionUpdate} {blockInterval now : Nat}
    {p p' : WithdrawPermission} (hnonneg : 0 ≤ p.claimedThisPeriod)
    (h : op.apply blockInterval now p = .ok p') :
    p'.Follows op.terms p.claimedThisPeriod [] now 0 := by
  simp only [apply, bind_eq_ok, require_eq_ok, pure_eq_ok] at h
  obtain ⟨_, _, _, _, _, _, _, _, _, hcheck, rfl⟩ := h
  obtain ⟨hlimit, hlength⟩ := WithdrawTerms.check_eq_ok hcheck
  exact {
    limit := rfl
    length := rfl
    expiration := rfl
    limit_pos := hlimit
    length_pos := hlength
    start := by simp
    started := fun hk => absurd rfl hk
    carried_nonneg := hnonneg
    claim_pos := by simp
    period_le := by simp
    claimed := by simp [WithdrawTerms.claimedIn]
    first := fun _ _ => rfl
    within := fun _ => hlimit.le }

theorem WithdrawPermissionClaim.spec {op : WithdrawPermissionClaim} {now : Nat}
    {p p' : WithdrawPermission} (h : op.apply now p = .ok p') :
    0 < op.amountToWithdraw.amount ∧ now < p.expiration ∧ p.periodStartTime ≤ now ∧
      p.exceeds op.amountToWithdraw now = .ok false ∧
      p' = { p with
        periodStartTime := seconds32 (p.periodStartTime +
          (now - p.periodStartTime) / p.withdrawalPeriodSec * p.withdrawalPeriodSec)
        claimedThisPeriod := if (now - p.periodStartTime) / p.withdrawalPeriodSec = 0 then
          p.claimedThisPeriod + op.amountToWithdraw.amount else op.amountToWithdraw.amount } := by
  simp only [apply, bind_eq_ok, require_eq_ok, pure_eq_ok] at h
  obtain ⟨_, _, _, hpos, _, hexpiration, _, _, _, _, _, hstart, exceeds, hexceeds, _, hwithin,
    _, _, claimed, hclaimed, rfl⟩ := h
  refine ⟨hpos, hexpiration, hstart, hwithin ▸ hexceeds, ?_⟩
  unfold WithdrawPermission.claimedAfter at hclaimed
  split at hclaimed
  · rename_i hsame
    simp only [addShares, bind_eq_ok, require_eq_ok, pure_eq_ok] at hclaimed
    obtain ⟨_, _, rfl⟩ := hclaimed
    simp [hsame]
  · rename_i hnext
    obtain rfl := pure_eq_ok.mp hclaimed
    simp [hnext]

theorem WithdrawPermission.exceeds_assetId {p : WithdrawPermission} {a : Asset} {now : Nat}
    {b : Bool}
    (h : p.exceeds a now = .ok b) : a.assetId = p.withdrawalLimit.assetId := by
  have hid : (p.availableThisPeriod now).assetId = p.withdrawalLimit.assetId := by
    unfold availableThisPeriod
    split <;> rfl
  unfold exceeds Asset.less at h
  simp only [bind_eq_ok, require_eq_ok] at h
  obtain ⟨_, heq, _⟩ := h
  exact heq.symm.trans hid

theorem WithdrawPermission.Follows.claim {p p' : WithdrawPermission} {s : WithdrawTerms}
    {carried : Int} {claims : List (Nat × Int)} {now t k : Nat} {op : WithdrawPermissionClaim}
    (hp : p.Follows s carried claims now k) (hnow : now ≤ t) (ht : t < 2 ^ 32)
    (havailable : s.Available carried claims t) (h : op.apply t p = .ok p') :
    p'.Follows s carried (claims ++ [(t, op.amountToWithdraw.amount)]) t (s.period t) := by
  obtain ⟨hpos, hexpiration, hstart, hexceeds, rfl⟩ := op.spec h
  have hstartEq := hp.start
  have hlengthPos := hp.length_pos
  have hfrom : s.periodStartTime + k * s.withdrawalPeriodSec ≤ t := hstartEq ▸ hstart
  have hbegan : s.periodStartTime ≤ t := by omega
  have hlePeriod := WithdrawTerms.le_period hlengthPos hfrom
  have hperiod : s.period t = k + (t - p.periodStartTime) / p.withdrawalPeriodSec := by
    rw [hp.start, hp.length]
    exact WithdrawTerms.period_eq hlengthPos hfrom
  -- the claim is one within the limit
  have hwithin : s.claimedIn claims (s.period t) + op.amountToWithdraw.amount ≤
      s.withdrawalLimit.amount := by
    refine (hp.exceeds_iff hnow ht hbegan havailable).mp ?_
    rw [← hp.limit, ← WithdrawPermission.exceeds_assetId hexceeds]
    exact hexceeds
  have hmoved : p.periodStartTime +
      (t - p.periodStartTime) / p.withdrawalPeriodSec * p.withdrawalPeriodSec =
        s.periodStartTime + s.period t * s.withdrawalPeriodSec := by
    rw [hperiod, Nat.add_mul, hp.length, hp.start]
    omega
  have hmovedLe : s.periodStartTime + s.period t * s.withdrawalPeriodSec ≤ t := by
    have hle := Nat.div_mul_le_self (t - s.periodStartTime) s.withdrawalPeriodSec
    unfold WithdrawTerms.period
    omega
  have hnewStart : seconds32 (p.periodStartTime +
      (t - p.periodStartTime) / p.withdrawalPeriodSec * p.withdrawalPeriodSec) =
        s.periodStartTime + s.period t * s.withdrawalPeriodSec := by
    rw [hmoved]
    exact Nat.mod_eq_of_lt (by omega)
  exact {
    limit := hp.limit
    length := hp.length
    expiration := hp.expiration
    limit_pos := hp.limit_pos
    length_pos := hlengthPos
    start := hnewStart
    started := fun _ => hnewStart.trans_le hmovedLe
    carried_nonneg := hp.carried_nonneg
    claim_pos := fun c hc => by
      rcases List.mem_append.mp hc with hc | hc
      · exact hp.claim_pos c hc
      · rw [List.mem_singleton.mp hc]
        exact hpos
    period_le := fun c hc => by
      rcases List.mem_append.mp hc with hc | hc
      · exact (hp.period_le c hc).trans hlePeriod
      · rw [List.mem_singleton.mp hc]
    claimed := by
      rw [WithdrawTerms.claimedIn_append, if_pos rfl]
      have hclaimed := hp.claimed
      by_cases hsame : (t - p.periodStartTime) / p.withdrawalPeriodSec = 0
      · have hk : s.period t = k := by omega
        simp only [hsame, if_true, hk]
        omega
      · have hnext : k < s.period t := by omega
        simp only [hsame, if_false, hp.claimedIn_eq_zero hnext]
        simp [show s.period t ≠ 0 by omega]
    first := fun hend hcarried => by
      have hzero := hp.first hend hcarried
      unfold WithdrawTerms.Available at havailable
      have hperiodNe : s.period t ≠ 0 := by
        intro heq
        rw [heq, if_pos hend] at havailable
        exact havailable.elim (fun hne => hne rfl) hcarried
      rw [WithdrawTerms.claimedIn_append, if_neg hperiodNe, hzero, add_zero]
    within := fun j => by
      have hj := hp.within j
      rw [WithdrawTerms.claimedIn_append]
      split
      · rename_i heq
        rw [← heq]
        exact hwithin
      · simpa using hj }

theorem PermissionRun.follows {blockInterval now : Nat} {p : WithdrawPermission} {s : WithdrawTerms}
    {carried : Int} {claims : List (Nat × Int)}
    (h : PermissionRun blockInterval now p s carried claims) :
    ∃ k, p.Follows s carried claims now k := by
  induction h with
  | create h => exact ⟨0, WithdrawPermissionCreate.follows h⟩
  | claim _ hnow ht havailable h ih =>
    obtain ⟨k, hk⟩ := ih
    exact ⟨_, hk.claim hnow ht havailable h⟩
  | update _ _ _ h ih =>
    obtain ⟨k, hk⟩ := ih
    exact ⟨0, WithdrawPermissionUpdate.follows hk.claimedThisPeriod_nonneg h⟩

/-- In a run in which the amount that is available is right at each claim, the claims in each period
stay within the limit, and none is accepted from the end of the last period on.  The next claim is
refused for the limit where it would go above it and nowhere else, exactly if the amount that is
available is right then. -/
theorem PermissionRun.limit_exact {blockInterval now : Nat} {p : WithdrawPermission}
    {s : WithdrawTerms} {carried : Int} {claims : List (Nat × Int)}
    (h : PermissionRun blockInterval now p s carried claims) :
    (∀ k, s.claimedIn claims k ≤ s.withdrawalLimit.amount) ∧
      (∀ t, now ≤ t → t < 2 ^ 32 → s.periodStartTime ≤ t →
        ((∀ a : Int, 0 < a → (p.exceeds ⟨a, s.withdrawalLimit.assetId⟩ t = .ok false ↔
            s.claimedIn claims (s.period t) + a ≤ s.withdrawalLimit.amount)) ↔
          s.Available carried claims t)) ∧
      ∀ (op : WithdrawPermissionClaim) (t : Nat) (p' : WithdrawPermission), op.apply t p = .ok p' →
        t < s.periodStartTime + s.periodsUntilExpiration * s.withdrawalPeriodSec := by
  obtain ⟨k, hk⟩ := h.follows
  refine ⟨hk.within, fun t hnow ht hstart => ⟨fun hexact => ?_, fun havailable a _ => ?_⟩,
    fun op t p' hclaim => ?_⟩
  · by_contra hnot
    obtain ⟨a, hpos, hne⟩ := hk.not_exceeds_iff hnow ht hstart hnot
    exact hne (hexact a hpos)
  · exact hk.exceeds_iff hnow ht hstart havailable
  · have hexpiration := (op.spec hclaim).2.1
    rw [hk.expiration] at hexpiration
    exact hexpiration.trans_le s.expiration_le

/-! ### Claims that the limit check gets wrong -/

/-- Ten periods of 1,000 seconds with a limit of 100 in each, and the same from a later time. -/
def thousandSeconds : WithdrawTerms where
  withdrawalLimit := ⟨100, 0⟩
  withdrawalPeriodSec := 1000
  periodsUntilExpiration := 10
  periodStartTime := 2000
  period_lt := by decide
  periods_lt := by decide
  start_lt := by decide

def fromThreeThousand : WithdrawTerms := { thousandSeconds with
  periodStartTime := 3000
  start_lt := by decide }

/-- Two periods of 2,700,000,000 seconds: the first ends past the 32-bit times. -/
def twoLongPeriods : WithdrawTerms where
  withdrawalLimit := ⟨100, 0⟩
  withdrawalPeriodSec := 2700000000
  periodsUntilExpiration := 2
  periodStartTime := 1600000000
  period_lt := by decide
  periods_lt := by decide
  start_lt := by decide

def claimOf (amount : Int) : WithdrawPermissionClaim := ⟨1, 2, ⟨amount, 0⟩, true⟩

/-- Under new terms the claims before them still count, and a claim of 1 is refused; in a period
that ends past the 32-bit times the limit does not hold, and two claims of 100 are accepted. -/
theorem limit_not_exact :
    (∃ p, (do
        let p ← (WithdrawPermissionCreate.mk 1 2 thousandSeconds true).apply 5 1000
        let p ← (claimOf 100).apply 2500 p
        (WithdrawPermissionUpdate.mk 1 2 fromThreeThousand true).apply 5 2600 p) = .ok p ∧
      p.exceeds ⟨1, 0⟩ 3100 = .ok true ∧
      fromThreeThousand.claimedIn [] (fromThreeThousand.period 3100) + 1 ≤
        fromThreeThousand.withdrawalLimit.amount) ∧
      (∃ p, (do
          let p ← (WithdrawPermissionCreate.mk 1 2 twoLongPeriods true).apply 5 1500000000
          let p ← (claimOf 100).apply 1700000000 p
          (claimOf 100).apply 1700000001 p) = .ok p) ∧
      twoLongPeriods.withdrawalLimit.amount <
        twoLongPeriods.claimedIn [(1700000000, 100), (1700000001, 100)] 0 := by
  refine ⟨?_, ?_, by decide +kernel⟩
  · exact (exists_ok_of_any (p := fun p => decide (p = ⟨1, 2, ⟨100, 0⟩, 1000, 3000, 13000, 100⟩))
      (by decide +kernel)).imp fun p hp => ⟨hp.1, by rw [of_decide_eq_true hp.2]; decide +kernel⟩
  · exact (exists_ok_of_any (p := fun _ => true) (by decide +kernel)).imp fun _ hp => hp.1

/-- A claim of 60 in the first period, and one of 40 in the next. -/
theorem limit_exact_two_claims :
    (∃ p, PermissionRun 5 3100 p thousandSeconds 0 [(2500, 60), (3100, 40)]) ∧
      ∀ k, thousandSeconds.claimedIn [(2500, 60), (3100, 40)] k ≤ 100 := by
  have hcreate : (WithdrawPermissionCreate.mk 1 2 thousandSeconds true).apply 5 1000 =
      .ok ⟨1, 2, ⟨100, 0⟩, 1000, 2000, 12000, 0⟩ := rfl
  have hfirst : (claimOf 60).apply 2500 ⟨1, 2, ⟨100, 0⟩, 1000, 2000, 12000, 0⟩ =
      .ok ⟨1, 2, ⟨100, 0⟩, 1000, 2000, 12000, 60⟩ := rfl
  have hsecond : (claimOf 40).apply 3100 ⟨1, 2, ⟨100, 0⟩, 1000, 2000, 12000, 60⟩ =
      .ok ⟨1, 2, ⟨100, 0⟩, 1000, 3000, 12000, 40⟩ := rfl
  have hrun := ((PermissionRun.create hcreate).claim (t := 2500) (by decide) (by decide)
    (by decide +kernel) hfirst).claim (t := 3100) (by decide) (by decide)
      (by decide +kernel) hsecond
  exact ⟨⟨_, hrun⟩, hrun.limit_exact.1⟩

end Nestchain.Accounts
