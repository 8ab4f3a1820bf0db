import Nestchain.Lib.Attempt
import Mathlib.Algebra.Order.Group.Nat
import Mathlib.Algebra.Order.Ring.Nat
import Mathlib.Data.Nat.Basic

/-! The fee of `account_create` within a maintenance interval: registrations shift its basic fee to
the left at each multiple of a number of accounts, and the maintenance shifts it back by what the
number of all registrations says. -/

namespace Nestchain.Accounts

open Lib

/-! ### Parameters -/

/-- The parameters that `chain_parameters::validate` reads, and those of the scaling.  `currentFees`
is the basic fee of `account_create`, if the schedule has one. -/
structure ChainParameters where
  currentFees : Option UInt64
  blockInterval : UInt8
  maintenanceInterval : UInt32
  committeeProposalReviewPeriod : UInt32
  maximumTransactionSize : UInt32
  maximumBlockSize : UInt32
  maximumTimeUntilExpiration : UInt32
  maximumProposalLifetime : UInt32
  reservePercentOfFee : UInt16
  networkPercentOfFee : UInt16
  lifetimeReferrerPercentOfFee : UInt16
  accountsPerFeeScale : UInt16
  accountFeeScaleBitshifts : UInt8
deriving DecidableEq

namespace ChainParameters

/-- `chain_parameters::validate`; the fee schedule accepts every fee. -/
def validate (p : ChainParameters) : Attempt Unit := do
  require (p.reservePercentOfFee.toNat ≤ 10000)
  require (p.networkPercentOfFee.toNat ≤ 10000)
  require (p.lifetimeReferrerPercentOfFee.toNat ≤ 10000)
  require (p.networkPercentOfFee.toNat + p.lifetimeReferrerPercentOfFee.toNat ≤ 10000)
  require (1 ≤ p.blockInterval.toNat)
  require (p.blockInterval.toNat ≤ 30)
  require (0 < p.blockInterval.toNat)
  require (p.blockInterval.toNat < p.maintenanceInterval.toNat)
  require (p.maintenanceInterval.toNat % p.blockInterval.toNat = 0)
  require (1024 ≤ p.maximumTransactionSize.toNat)
  require (5120 ≤ p.maximumBlockSize.toNat)
  require (p.blockInterval.toNat < p.maximumTimeUntilExpiration.toNat)
  require (p.blockInterval.toNat <
    (p.maximumProposalLifetime - p.committeeProposalReviewPeriod).toNat)

/-- The test of `account_create_evaluator::do_apply` for a number of accounts. -/
def scalesAt (p : ChainParameters) (registered : UInt32) : Bool :=
  registered.toNat % p.accountsPerFeeScale.toNat = 0 ∧ p.accountFeeScaleBitshifts ≠ 0

/-- The bits by which the maintenance shifts the fee back. -/
def removedBits (p : ChainParameters) (registered : UInt32) : UInt32 :=
  p.accountFeeScaleBitshifts.toUInt32 * (registered / p.accountsPerFeeScale.toUInt32)

end ChainParameters

/-- The parameters of the chain and the accounts of the interval. -/
structure ChainState where
  parameters : ChainParameters
  pendingParameters : Option ChainParameters
  accountsRegisteredThisInterval : UInt32
deriving DecidableEq

/-! ### The scaling -/

/-- `<<=` on 64 bits, which is not defined for 64 or more. -/
def shiftLeft (x : UInt64) (bits : Nat) : Attempt UInt64 := do
  require (bits < 64)
  pure (x <<< UInt64.ofNat bits)

def shiftRight (x : UInt64) (bits : Nat) : Attempt UInt64 := do
  require (bits < 64)
  pure (x >>> UInt64.ofNat bits)

namespace ChainState

/-- The registration of an account in `account_create_evaluator::do_apply`. -/
def registerAccount (s : ChainState) : Attempt ChainState := do
  let s := { s with accountsRegisteredThisInterval := s.accountsRegisteredThisInterval + 1 }
  -- the remainder is taken before the bits are looked at
  require (s.parameters.accountsPerFeeScale.toNat ≠ 0)
  if s.parameters.scalesAt s.accountsRegisteredThisInterval then do
    let fee ← demand s.parameters.currentFees
    let fee ← shiftLeft fee s.parameters.accountFeeScaleBitshifts.toNat
    pure { s with parameters := { s.parameters with currentFees := some fee } }
  else pure s

/-- The parameters after the maintenance has removed the scaling. -/
def removeScaling (s : ChainState) : Attempt ChainParameters := do
  let fee ← demand s.parameters.currentFees
  require (s.parameters.accountsPerFeeScale.toNat ≠ 0)
  let fee ← shiftRight fee
    (s.parameters.removedBits s.accountsRegisteredThisInterval).toNat
  pure { s.parameters with currentFees := some fee }

def registerAccounts : Nat → ChainState → Attempt ChainState
  | 0, s => pure s
  | n + 1, s => do
    let s ← s.registerAccount
    registerAccounts n s

/-- `perform_chain_maintenance`, as far as it goes on to the next interval. -/
def performChainMaintenance (s : ChainState) : Attempt ChainState := do
  let parameters ← s.removeScaling
  pure ⟨s.pendingParameters.getD parameters, none, 0⟩

end ChainState

/-! ### What is promised -/

/-- From a state, so many registrations and then the maintenance: they are all done, the fee is
never below `fee`, no shift loses bits, and `fee` is what is left. -/
def RunsBack (fee : UInt64) : Nat → ChainState → Prop
  | 0, s => ∃ scaled p, s.parameters.currentFees = some scaled ∧ s.removeScaling = .ok p ∧
      p.currentFees = some fee ∧ scaled.toNat = fee.toNat *
        2 ^ (s.parameters.removedBits s.accountsRegisteredThisInterval).toNat
  | n + 1, s => ∃ s' before after, s.registerAccount = .ok s' ∧
      s.parameters.currentFees = some before ∧ s'.parameters.currentFees = some after ∧
      fee ≤ after ∧
      after.toNat = (if s.parameters.scalesAt s'.accountsRegisteredThisInterval then
        before.toNat * 2 ^ s.parameters.accountFeeScaleBitshifts.toNat else before.toNat) ∧
      RunsBack fee n s'

/-- The scaling of an interval with so many registrations is undone. -/
def ScalingUndone (p : ChainParameters) (pending : Option ChainParameters) (registrations : Nat) :
    Prop :=
  ∃ fee, p.currentFees = some fee ∧ RunsBack fee registrations ⟨p, pending, 0⟩

/-- There is a fee, the number of accounts between scalings is not zero, and all bits of the scaled
fee fit.  A fee of zero has none, but the shifts must be defined. -/
def Scalable (p : ChainParameters) (registrations : Nat) : Prop :=
  ∃ fee, p.currentFees = some fee ∧ p.accountsPerFeeScale.toNat ≠ 0 ∧
    if fee.toNat = 0 then
      (p.accountFeeScaleBitshifts.toNat < 64 ∨ registrations < p.accountsPerFeeScale.toNat) ∧
        p.accountFeeScaleBitshifts.toNat *
          (registrations % 2 ^ 32 / p.accountsPerFeeScale.toNat) % 2 ^ 32 < 64
    else fee.toNat * 2 ^ (p.accountFeeScaleBitshifts.toNat *
      (registrations / p.accountsPerFeeScale.toNat)) < 2 ^ 64

/-! ### Shifts -/

theorem shiftLeft_ok {x y : UInt64} {bits : Nat} :
    shiftLeft x bits = .ok y ↔ bits < 64 ∧ y.toNat = x.toNat * 2 ^ bits % 2 ^ 64 := by
  simp only [shiftLeft, bind_eq_ok, require_eq_ok, exists_const, pure_eq_ok]
  refine and_congr_right fun hbits => ?_
  have hvalue : (x <<< UInt64.ofNat bits).toNat = x.toNat * 2 ^ bits % 2 ^ 64 := by
    rw [UInt64.toNat_shiftLeft, UInt64.toNat_ofNat', Nat.mod_eq_of_lt (by omega : bits < 2 ^ 64),
      Nat.mod_eq_of_lt hbits, Nat.shiftLeft_eq]
  rw [← hvalue, UInt64.toNat_inj]

theorem shiftRight_ok {x y : UInt64} {bits : Nat} :
    shiftRight x bits = .ok y ↔ bits < 64 ∧ y.toNat = x.toNat / 2 ^ bits := by
  simp only [shiftRight, bind_eq_ok, require_eq_ok, exists_const, pure_eq_ok]
  refine and_congr_right fun hbits => ?_
  have hvalue : (x >>> UInt64.ofNat bits).toNat = x.toNat / 2 ^ bits := by
    rw [UInt64.toNat_shiftRight, UInt64.toNat_ofNat', Nat.mod_eq_of_lt (by omega : bits < 2 ^ 64),
      Nat.mod_eq_of_lt hbits, Nat.shiftRight_eq_div_pow]
  rw [← hvalue, UInt64.toNat_inj]

/-! ### How often the fee is scaled -/

/-- How many of so many registrations scale the fee. -/
def scalings (perScale : Nat) : Nat → Nat
  | 0 => 0
  | n + 1 => scalings perScale n + if (n + 1) % 2 ^ 32 % perScale = 0 then 1 else 0

theorem scalings_eq {perScale n : Nat} (h : n < 2 ^ 32) : scalings perScale n = n / perScale := by
  induction n with
  | zero => rw [scalings, Nat.zero_div]
  | succ n ih =>
    rw [scalings, ih (by omega), Nat.mod_eq_of_lt h, Nat.succ_div]
    simp only [Nat.dvd_iff_mod_eq_zero]

theorem le_of_scaling {perScale i : Nat} (h32 : perScale < 2 ^ 32)
    (h : (i + 1) % 2 ^ 32 % perScale = 0) : perScale ≤ i + 1 := by
  by_contra hlt
  rw [Nat.mod_eq_of_lt (by omega), Nat.mod_eq_of_lt (by omega)] at h
  exact absurd h (Nat.succ_ne_zero i)

/-! ### One registration -/

section

variable {p : ChainParameters} {fee : UInt64}

/-- The state after some registrations that have lost nothing. -/
structure Scaled (p : ChainParameters) (fee : UInt64) (i : Nat) (s : ChainState) : Prop where
  registered : s.accountsRegisteredThisInterval.toNat = i % 2 ^ 32
  parameters : ∃ now, s.parameters = { p with currentFees := some now } ∧
    now.toNat = fee.toNat *
      2 ^ (p.accountFeeScaleBitshifts.toNat * scalings p.accountsPerFeeScale.toNat i)

theorem registered_succ {i : Nat} {n : UInt32} (h : n.toNat = i % 2 ^ 32) :
    (n + 1).toNat = (i + 1) % 2 ^ 32 := by
  rw [UInt32.toNat_add, h, UInt32.toNat_one]
  omega

theorem scalesAt_iff {n : UInt32} {now : Option UInt64} :
    ({ p with currentFees := now } : ChainParameters).scalesAt n = true ↔
      n.toNat % p.accountsPerFeeScale.toNat = 0 ∧ p.accountFeeScaleBitshifts.toNat ≠ 0 := by
  rw [ChainParameters.scalesAt, decide_eq_true_eq]
  refine and_congr_right fun _ => not_congr ?_
  rw [← UInt8.toNat_inj]
  rfl

theorem scaled_pow (p : ChainParameters) (f i : Nat) : f * 2 ^ (p.accountFeeScaleBitshifts.toNat *
      scalings p.accountsPerFeeScale.toNat (i + 1)) =
    if (i + 1) % 2 ^ 32 % p.accountsPerFeeScale.toNat = 0 ∧
        p.accountFeeScaleBitshifts.toNat ≠ 0 then
      f * 2 ^ (p.accountFeeScaleBitshifts.toNat * scalings p.accountsPerFeeScale.toNat i) *
        2 ^ p.accountFeeScaleBitshifts.toNat
    else f * 2 ^ (p.accountFeeScaleBitshifts.toNat * scalings p.accountsPerFeeScale.toNat i) := by
  rw [scalings]
  by_cases hdue : (i + 1) % 2 ^ 32 % p.accountsPerFeeScale.toNat = 0
  · by_cases hbits : p.accountFeeScaleBitshifts.toNat = 0
    · rw [if_pos hdue, if_neg (fun h => h.2 hbits), hbits, Nat.zero_mul, Nat.zero_mul]
    · rw [if_pos hdue, if_pos ⟨hdue, hbits⟩, Nat.mul_add, Nat.mul_one, Nat.pow_add, Nat.mul_assoc]
  · rw [if_neg hdue, if_neg (fun h => hdue h.1), Nat.add_zero]

theorem registerAccount_ok {s s' : ChainState} {now : UInt64}
    (hs : s.parameters = { p with currentFees := some now }) :
    s.registerAccount = .ok s' ↔ p.accountsPerFeeScale.toNat ≠ 0 ∧
      ∃ after : UInt64, s' = ⟨{ p with currentFees := some after }, s.pendingParameters,
        s.accountsRegisteredThisInterval + 1⟩ ∧
      if (s.accountsRegisteredThisInterval + 1).toNat % p.accountsPerFeeScale.toNat = 0 ∧
          p.accountFeeScaleBitshifts.toNat ≠ 0 then
        p.accountFeeScaleBitshifts.toNat < 64 ∧
          after.toNat = now.toNat * 2 ^ p.accountFeeScaleBitshifts.toNat % 2 ^ 64
      else after = now := by
  obtain ⟨parameters, pending, registered⟩ := s
  obtain rfl : parameters = { p with currentFees := some now } := hs
  simp only [ChainState.registerAccount, bind_eq_ok, require_eq_ok, exists_const]
  refine and_congr_right fun _ => ?_
  by_cases hscales : (registered + 1).toNat % p.accountsPerFeeScale.toNat = 0 ∧
      p.accountFeeScaleBitshifts.toNat ≠ 0
  · rw [if_pos (scalesAt_iff.mpr hscales)]
    simp only [if_pos hscales, bind_eq_ok, demand_eq_ok, pure_eq_ok, Option.some.injEq,
      exists_eq_left', shiftLeft_ok]
    exact exists_congr fun after => and_comm
  · rw [if_neg (fun h => hscales (scalesAt_iff.mp h))]
    simp only [if_neg hscales, pure_eq_ok]
    constructor
    · exact fun h => ⟨now, h, rfl⟩
    · rintro ⟨after, h, hafter⟩
      exact hafter ▸ h

theorem removeScaling_ok {s : ChainState} {now : UInt64} {q : ChainParameters}
    (hs : s.parameters = { p with currentFees := some now }) :
    s.removeScaling = .ok q ↔ p.accountsPerFeeScale.toNat ≠ 0 ∧ ∃ after : UInt64,
      q = { p with currentFees := some after } ∧
      (p.removedBits s.accountsRegisteredThisInterval).toNat < 64 ∧
      after.toNat = now.toNat / 2 ^ (p.removedBits s.accountsRegisteredThisInterval).toNat := by
  obtain ⟨parameters, pending, registered⟩ := s
  obtain rfl : parameters = { p with currentFees := some now } := hs
  simp only [ChainState.removeScaling, bind_eq_ok, require_eq_ok, exists_const, demand_eq_ok,
    Option.some.injEq, exists_eq_left', shiftRight_ok, pure_eq_ok]
  refine and_congr_right fun _ => ?_
  exact exists_congr fun after => and_comm

theorem removedBits_toNat {n : UInt32} {i : Nat} (hn : n.toNat = i % 2 ^ 32) :
    (p.removedBits n).toNat = p.accountFeeScaleBitshifts.toNat *
      (i % 2 ^ 32 / p.accountsPerFeeScale.toNat) % 2 ^ 32 := by
  rw [ChainParameters.removedBits, UInt32.toNat_mul, UInt32.toNat_div, hn, UInt8.toNat_toUInt32,
    UInt16.toNat_toUInt32]

end

/-! ### The interval -/

section

variable {p : ChainParameters} {fee : UInt64} {s : ChainState} {i n : Nat}

theorem Scaled.start (pending : Option ChainParameters) (hfee : p.currentFees = some fee) :
    Scaled p fee 0 ⟨p, pending, 0⟩ := by
  refine ⟨rfl, fee, by rw [← hfee], ?_⟩
  rw [scalings, Nat.mul_zero, Nat.pow_zero, Nat.mul_one]

theorem Scaled.register (h : Scaled p fee i s) (hscale : p.accountsPerFeeScale.toNat ≠ 0)
    (hbits : (i + 1) % 2 ^ 32 % p.accountsPerFeeScale.toNat = 0 →
      p.accountFeeScaleBitshifts.toNat < 64)
    (hfits : fee.toNat * 2 ^ (p.accountFeeScaleBitshifts.toNat *
      scalings p.accountsPerFeeScale.toNat (i + 1)) < 2 ^ 64) :
    ∃ s' before after, s.registerAccount = .ok s' ∧ s.parameters.currentFees = some before ∧
      s'.parameters.currentFees = some after ∧ fee ≤ after ∧
      after.toNat = (if s.parameters.scalesAt s'.accountsRegisteredThisInterval then
        before.toNat * 2 ^ s.parameters.accountFeeScaleBitshifts.toNat else before.toNat) ∧
      Scaled p fee (i + 1) s' := by
  obtain ⟨now, hp, hnow⟩ := h.parameters
  have hregistered := registered_succ h.registered
  have hpow := scaled_pow p fee.toNat i
  rw [← hnow] at hpow
  -- the fee after the registration
  obtain ⟨after, hafter⟩ : ∃ after : UInt64, after.toNat = fee.toNat *
      2 ^ (p.accountFeeScaleBitshifts.toNat * scalings p.accountsPerFeeScale.toNat (i + 1)) :=
    ⟨_, UInt64.toNat_ofNat_of_lt' hfits⟩
  refine ⟨⟨{ p with currentFees := some after }, s.pendingParameters,
    s.accountsRegisteredThisInterval + 1⟩, now, after, ?_, by rw [hp], rfl, ?_, ?_,
    hregistered, after, rfl, hafter⟩
  · refine (registerAccount_ok hp).mpr ⟨hscale, after, rfl, ?_⟩
    rw [hregistered]
    split
    · rename_i hscales
      rw [if_pos hscales] at hpow
      rw [← hpow, hafter, Nat.mod_eq_of_lt hfits]
      exact ⟨hbits hscales.1, rfl⟩
    · rename_i hscales
      rw [if_neg hscales] at hpow
      exact UInt64.toNat_inj.mp (hafter.trans hpow)
  · rw [UInt64.le_iff_toNat_le, hafter]
    exact Nat.le_mul_of_pos_right _ (Nat.two_pow_pos _)
  · rw [hafter, hpow, hp]
    simp only [scalesAt_iff, hregistered]

theorem Scaled.remove (h : Scaled p fee i s) (hscale : p.accountsPerFeeScale.toNat ≠ 0)
    (hbits : p.accountFeeScaleBitshifts.toNat *
      (i % 2 ^ 32 / p.accountsPerFeeScale.toNat) % 2 ^ 32 < 64)
    (hexact : fee.toNat * 2 ^ (p.accountFeeScaleBitshifts.toNat *
        scalings p.accountsPerFeeScale.toNat i) =
      fee.toNat * 2 ^ (p.accountFeeScaleBitshifts.toNat *
        (i % 2 ^ 32 / p.accountsPerFeeScale.toNat) % 2 ^ 32)) : RunsBack fee 0 s := by
  obtain ⟨now, hp, hnow⟩ := h.parameters
  have hremoved := removedBits_toNat (p := p) h.registered
  have hsame : (s.parameters.removedBits s.accountsRegisteredThisInterval).toNat =
      (p.removedBits s.accountsRegisteredThisInterval).toNat := by
    rw [hp]
    rfl
  rw [hexact] at hnow
  refine ⟨now, { p with currentFees := some fee }, by rw [hp], ?_, rfl, ?_⟩
  · refine (removeScaling_ok hp).mpr ⟨hscale, fee, rfl, hremoved ▸ hbits, ?_⟩
    rw [hremoved, hnow, Nat.mul_div_cancel _ (Nat.two_pow_pos _)]
  · rw [hsame, hremoved, hnow]

theorem Scaled.runsBack (hscale : p.accountsPerFeeScale.toNat ≠ 0)
    (hbits : ∀ j ≤ n, scalings p.accountsPerFeeScale.toNat j ≠ 0 →
      p.accountFeeScaleBitshifts.toNat < 64)
    (hfits : ∀ j ≤ n, fee.toNat * 2 ^ (p.accountFeeScaleBitshifts.toNat *
      scalings p.accountsPerFeeScale.toNat j) < 2 ^ 64)
    (hend : p.accountFeeScaleBitshifts.toNat *
      (n % 2 ^ 32 / p.accountsPerFeeScale.toNat) % 2 ^ 32 < 64)
    (hexact : fee.toNat * 2 ^ (p.accountFeeScaleBitshifts.toNat *
        scalings p.accountsPerFeeScale.toNat n) =
      fee.toNat * 2 ^ (p.accountFeeScaleBitshifts.toNat *
        (n % 2 ^ 32 / p.accountsPerFeeScale.toNat) % 2 ^ 32)) :
    ∀ (k i : Nat) (s : ChainState), i + k = n → Scaled p fee i s → RunsBack fee k s
  | 0, i, s, hi, h => by
    obtain rfl : i = n := hi
    exact h.remove hscale hend hexact
  | k + 1, i, s, hi, h => by
    obtain ⟨s', before, after, hs', hbefore, hafter, hle, hstep, hnext⟩ := h.register hscale
      (fun hdue => hbits (i + 1) (by omega) (by
        rw [scalings, if_pos hdue]
        exact Nat.succ_ne_zero _))
      (hfits (i + 1) (by omega))
    exact ⟨s', before, after, hs', hbefore, hafter, hle, hstep,
      Scaled.runsBack hscale hbits hfits hend hexact k (i + 1) s' (by omega) hnext⟩

theorem Scaled.of_runsBack (h : Scaled p fee i s) (hrun : RunsBack fee (n + 1) s) :
    ∃ s', Scaled p fee (i + 1) s' ∧ RunsBack fee n s' ∧
      ((i + 1) % 2 ^ 32 % p.accountsPerFeeScale.toNat = 0 →
        p.accountFeeScaleBitshifts.toNat < 64) := by
  obtain ⟨now, hp, hnow⟩ := h.parameters
  have hregistered := registered_succ h.registered
  have hpow := scaled_pow p fee.toNat i
  rw [← hnow] at hpow
  obtain ⟨s', before, after, hs', hbefore, hafter, -, hstep, hrest⟩ := hrun
  obtain ⟨-, after', rfl, hshift⟩ := (registerAccount_ok hp).mp hs'
  obtain rfl : now = before := by
    rw [hp] at hbefore
    exact Option.some.inj hbefore
  obtain rfl : after' = after := Option.some.inj hafter
  rw [hp] at hstep
  simp only [scalesAt_iff, hregistered] at hstep
  refine ⟨_, ⟨hregistered, after', rfl, hstep.trans hpow.symm⟩, hrest, fun hdue => ?_⟩
  by_cases hzero : p.accountFeeScaleBitshifts.toNat = 0
  · omega
  · rw [hregistered, if_pos ⟨hdue, hzero⟩] at hshift
    exact hshift.1

theorem Scaled.part_of_runsBack (h : Scaled p fee 0 s) (hrun : RunsBack fee n s) :
    ∀ i ≤ n, ∃ s', Scaled p fee i s' ∧ RunsBack fee (n - i) s' ∧
      (scalings p.accountsPerFeeScale.toNat i ≠ 0 → p.accountFeeScaleBitshifts.toNat < 64)
  | 0, _ => ⟨s, h, hrun, fun hne => absurd rfl hne⟩
  | i + 1, hi => by
    obtain ⟨s', hs', hrun', hbits⟩ := Scaled.part_of_runsBack h hrun i (by omega)
    obtain ⟨k, hk⟩ : ∃ k, n - i = k + 1 := ⟨n - i - 1, by omega⟩
    rw [hk] at hrun'
    obtain ⟨s'', hs'', hrun'', hlast⟩ := hs'.of_runsBack hrun'
    refine ⟨s'', hs'', by rwa [show n - (i + 1) = k by omega], fun hne => ?_⟩
    rw [scalings] at hne
    by_cases hdue : (i + 1) % 2 ^ 32 % p.accountsPerFeeScale.toNat = 0
    · exact hlast hdue
    · rw [if_neg hdue] at hne
      exact hbits hne

end

theorem scalings_ne_zero {perScale j : Nat} (h32 : perScale < 2 ^ 32)
    (h : scalings perScale j ≠ 0) : perScale ≤ j := by
  induction j with
  | zero => exact absurd rfl h
  | succ j ih =>
    rw [scalings] at h
    by_cases hdue : (j + 1) % 2 ^ 32 % perScale = 0
    · exact le_of_scaling h32 hdue
    · rw [if_neg hdue] at h
      exact (ih h).trans (Nat.le_succ j)

theorem accountsPerFeeScale_lt (p : ChainParameters) : p.accountsPerFeeScale.toNat < 2 ^ 16 :=
  p.accountsPerFeeScale.toNat_lt

theorem few_registrations {p : ChainParameters} {fee n : Nat} (hfee : fee ≠ 0)
    (hscale : p.accountsPerFeeScale.toNat ≠ 0) (hbits : p.accountFeeScaleBitshifts.toNat ≠ 0)
    (h : fee * 2 ^ (p.accountFeeScaleBitshifts.toNat *
      (n / p.accountsPerFeeScale.toNat)) < 2 ^ 64) :
    p.accountFeeScaleBitshifts.toNat * (n / p.accountsPerFeeScale.toNat) < 64 ∧ n < 2 ^ 32 := by
  have hexponent : p.accountFeeScaleBitshifts.toNat * (n / p.accountsPerFeeScale.toNat) < 64 := by
    refine (Nat.pow_lt_pow_iff_right (by decide : 1 < 2)).mp (lt_of_le_of_lt ?_ h)
    exact Nat.le_mul_of_pos_left _ (Nat.pos_of_ne_zero hfee)
  refine ⟨hexponent, ?_⟩
  have hquotient : n / p.accountsPerFeeScale.toNat < 64 :=
    lt_of_le_of_lt (Nat.le_mul_of_pos_left _ (Nat.pos_of_ne_zero hbits)) hexponent
  have hn := (Nat.div_lt_iff_lt_mul (Nat.pos_of_ne_zero hscale)).mp hquotient
  have hlt := accountsPerFeeScale_lt p
  omega

theorem scalingUndone_of_scalable {p : ChainParameters} (pending : Option ChainParameters)
    {n : Nat} (h : Scalable p n) : ScalingUndone p pending n := by
  obtain ⟨fee, hfee, hscale, hcondition⟩ := h
  have h32 : p.accountsPerFeeScale.toNat < 2 ^ 32 := (accountsPerFeeScale_lt p).trans (by decide)
  refine ⟨fee, hfee, ?_⟩
  suffices hall : (∀ j ≤ n, scalings p.accountsPerFeeScale.toNat j ≠ 0 →
        p.accountFeeScaleBitshifts.toNat < 64) ∧
      (∀ j ≤ n, fee.toNat * 2 ^ (p.accountFeeScaleBitshifts.toNat *
        scalings p.accountsPerFeeScale.toNat j) < 2 ^ 64) ∧
      p.accountFeeScaleBitshifts.toNat *
        (n % 2 ^ 32 / p.accountsPerFeeScale.toNat) % 2 ^ 32 < 64 ∧
      fee.toNat * 2 ^ (p.accountFeeScaleBitshifts.toNat *
          scalings p.accountsPerFeeScale.toNat n) =
        fee.toNat * 2 ^ (p.accountFeeScaleBitshifts.toNat *
          (n % 2 ^ 32 / p.accountsPerFeeScale.toNat) % 2 ^ 32) from
    Scaled.runsBack hscale hall.1 hall.2.1 hall.2.2.1 hall.2.2.2 n 0 _ (Nat.zero_add n)
      (Scaled.start pending hfee)
  by_cases hzero : fee.toNat = 0
  · -- a fee of zero has no bits to lose
    rw [if_pos hzero] at hcondition
    rw [hzero]
    refine ⟨fun j hj hne => ?_, fun j _ => by rw [Nat.zero_mul]; decide, hcondition.2,
      by rw [Nat.zero_mul, Nat.zero_mul]⟩
    have hle := scalings_ne_zero h32 hne
    omega
  · rw [if_neg hzero] at hcondition
    by_cases hbits : p.accountFeeScaleBitshifts.toNat = 0
    · simp only [hbits, Nat.zero_mul, Nat.zero_mod, Nat.pow_zero, Nat.mul_one]
      exact ⟨fun _ _ _ => by decide, fun _ _ => fee.toNat_lt, by decide, trivial⟩
    · obtain ⟨hexponent, hn⟩ := few_registrations hzero hscale hbits hcondition
      have hle : ∀ j ≤ n, p.accountFeeScaleBitshifts.toNat *
          scalings p.accountsPerFeeScale.toNat j ≤
            p.accountFeeScaleBitshifts.toNat * (n / p.accountsPerFeeScale.toNat) := fun j hj => by
        rw [scalings_eq (lt_of_le_of_lt hj hn)]
        exact Nat.mul_le_mul_left _ (Nat.div_le_div_right hj)
      rw [Nat.mod_eq_of_lt hn, Nat.mod_eq_of_lt (hexponent.trans (by decide)), scalings_eq hn]
      refine ⟨fun j hj hne => ?_, fun j hj => ?_, hexponent, rfl⟩
      · exact lt_of_le_of_lt ((Nat.le_mul_of_pos_right _ (Nat.pos_of_ne_zero hne)).trans (hle j hj))
          hexponent
      · exact lt_of_le_of_lt
          (Nat.mul_le_mul_left _ (Nat.pow_le_pow_right (by decide) (hle j hj))) hcondition

theorem scalable_of_scalingUndone {p : ChainParameters} {pending : Option ChainParameters} {n : Nat}
    (h : ScalingUndone p pending n) : Scalable p n := by
  obtain ⟨fee, hfee, hrun⟩ := h
  have hparts := Scaled.part_of_runsBack (Scaled.start pending hfee) hrun
  have hfits : ∀ i ≤ n, fee.toNat * 2 ^ (p.accountFeeScaleBitshifts.toNat *
      scalings p.accountsPerFeeScale.toNat i) < 2 ^ 64 := fun i hi => by
    obtain ⟨s, hs, -, -⟩ := hparts i hi
    obtain ⟨now, -, hnow⟩ := hs.parameters
    exact hnow ▸ now.toNat_lt
  -- the maintenance at the end
  obtain ⟨s, hs, hend, -⟩ := hparts n le_rfl
  obtain ⟨now, hp, -⟩ := hs.parameters
  rw [Nat.sub_self] at hend
  obtain ⟨scaled, q, -, hremove, -, -⟩ := hend
  obtain ⟨hscale, after, -, hbits, -⟩ := (removeScaling_ok hp).mp hremove
  rw [removedBits_toNat hs.registered] at hbits
  refine ⟨fee, hfee, hscale, ?_⟩
  have h16 := accountsPerFeeScale_lt p
  split
  · refine ⟨or_iff_not_imp_right.mpr fun hn => ?_, hbits⟩
    obtain ⟨-, -, -, hshifts⟩ := hparts p.accountsPerFeeScale.toNat (not_lt.mp hn)
    refine hshifts ?_
    rw [scalings_eq (h16.trans (by decide)), Nat.div_self (Nat.pos_of_ne_zero hscale)]
    decide
  · rename_i hne
    by_cases hzero : p.accountFeeScaleBitshifts.toNat = 0
    · rw [hzero, Nat.zero_mul, Nat.pow_zero, Nat.mul_one]
      exact fee.toNat_lt
    by_cases hn : n < 2 ^ 32
    · exact scalings_eq hn ▸ hfits n le_rfl
    · -- after 2 ^ 32 - 1 registrations all bits of the fee are lost
      have hmany := hfits (2 ^ 32 - 1) (by omega)
      rw [scalings_eq (by decide)] at hmany
      have hfew := (few_registrations hne hscale hzero hmany).1
      have hquotient : (2 ^ 32 - 1) / p.accountsPerFeeScale.toNat < 64 :=
        lt_of_le_of_lt (Nat.le_mul_of_pos_left _ (Nat.pos_of_ne_zero hzero)) hfew
      have hlarge := (Nat.div_lt_iff_lt_mul (Nat.pos_of_ne_zero hscale)).mp hquotient
      omega

/-- The scaling of the fee is undone for exactly these parameters and numbers of registrations. -/
theorem fee_scaling_undone_iff (p : ChainParameters) (pending : Option ChainParameters)
    (registrations : Nat) : ScalingUndone p pending registrations ↔ Scalable p registrations :=
  ⟨scalable_of_scalingUndone, scalingUndone_of_scalable _⟩

/-- Parameters with the default values, and these two values of the scaling. -/
def scalingParameters (accountsPerFeeScale : UInt16) (accountFeeScaleBitshifts : UInt8) :
    ChainParameters :=
  ⟨some 500000, 5, 86400, 1209600, 2048, 1228800, 86400, 2419200, 2000, 2000, 3000,
    accountsPerFeeScale, accountFeeScaleBitshifts⟩

/-- The maintenance divides by zero, and a registration shifts by 64. -/
theorem fee_scaling_not_undone :
    ((scalingParameters 0 4).validate = .ok () ∧ ¬ScalingUndone (scalingParameters 0 4) none 0) ∧
    ((scalingParameters 1 64).validate = .ok () ∧
      ¬ScalingUndone (scalingParameters 1 64) none 1) ∧
    (scalingParameters 1000 4).validate = .ok () ∧
      ¬ScalingUndone (scalingParameters 1000 4) none 12000 := by
  refine ⟨⟨by decide, fun h => ?_⟩, ⟨by decide, fun h => ?_⟩, by decide, fun h => ?_⟩
  · obtain ⟨fee, -, hscale, -⟩ := scalable_of_scalingUndone h
    exact hscale rfl
  · obtain ⟨fee, hfee, -, hcondition⟩ := scalable_of_scalingUndone h
    obtain rfl := Option.some.inj hfee
    exact absurd hcondition (by decide)
  · obtain ⟨fee, hfee, -, hcondition⟩ := scalable_of_scalingUndone h
    obtain rfl := Option.some.inj hfee
    exact absurd hcondition (by decide)

end Nestchain.Accounts
