import Nestchain.Market.Rounds
import Nestchain.Protocol.OperationFees
import Mathlib.Order.Bounds.Basic

/-! The fee of an operation in a fee asset: what the fee schedule asks for, the fee that
`set_fee` settles on although the fee is part of what is charged for, and the test of the evaluator,
which converts the fee that is paid back to CORE. -/

namespace Nestchain.Protocol.Fees

open Lib Market

section

variable {Memo : Type}

/-! ### The fee schedule -/

/-- `parameters` is a set with at most one entry for each type. -/
structure FeeSchedule where
  parameters : (type : OperationType) → Option (FeeParameters type)
  scale : UInt32

namespace FeeSchedule

/-- `fee_schedule::get`: the newer operations fall back to the fee of another one. -/
def get (s : FeeSchedule) : (type : OperationType) → Option (FeeParameters type)
  | .plain .bidCollateral =>
    (s.parameters (.plain .bidCollateral)).or (s.parameters (.plain .callOrderUpdate))
  | .plain .assetUpdateIssuer =>
    (s.parameters (.plain .assetUpdateIssuer)).or
      ((s.parameters .assetUpdate).map KbyteParameters.fee)
  | .plain .assetClaimPool =>
    (s.parameters (.plain .assetClaimPool)).or (s.parameters (.plain .assetFundFeePool))
  | type => s.parameters type

/-- `calc_fee_visitor`.  An overflow is not caught, but then the second try overflows again. -/
def baseFee (raw : Raw Memo) (s : FeeSchedule) (op : Operation Memo) : Option UInt64 :=
  (((s.get op.type).bind (op.calculateFee raw)).or
    (op.calculateFee raw ((s.parameters op.type).getD (defaultParameters op.type)))).map
      Int64.toUInt64

def scaledFee (raw : Raw Memo) (s : FeeSchedule) (op : Operation Memo) : Attempt Int := do
  let baseValue ← demand (s.baseFee raw op)
  let scaled := baseValue.toNat * s.scale.toNat / fullPercent
  require ((scaled : Int) ≤ maxShareSupply)
  pure scaled

/-- A round of the loop of `calculate_fee`. -/
def chargeMore (rate : Price) (scaled result : Asset) : Attempt (Asset ⊕ Asset) := do
  let paid ← result.mul rate
  if ← paid.less scaled then pure (.inl ⟨result.amount + 1, result.assetId⟩)
  else pure (.inr result)

def calculateFee (rounds : Nat) (raw : Raw Memo) (s : FeeSchedule) (op : Operation Memo)
    (rate : Price) : Attempt Asset := do
  let scaled ← s.scaledFee raw op
  let result ← (⟨scaled, coreAsset⟩ : Asset).mul rate
  let result ← loop (chargeMore rate ⟨scaled, coreAsset⟩) rounds result
  require (result.amount ≤ maxShareSupply)
  pure result

/-- `MAX_FEE_STABILIZATION_ITERATION` -/
def maxFeeStabilizationIteration : Nat := 4

/-- `std::max` -/
def larger (a b : Asset) : Attempt Asset := do
  if ← a.less b then pure b else pure a

/-- The loop of `set_fee`. -/
def stabilize (rounds : Nat) (raw : Raw Memo) (s : FeeSchedule) (rate : Price) :
    Nat → Operation Memo → Asset → Asset → Attempt (Operation Memo × Asset)
  | 0, op, _, fMax => pure (op, fMax)
  | i + 1, op, f, fMax => do
    let op := op.setFee fMax
    let f2 ← s.calculateFee rounds raw op rate
    if f = f2 then pure (op, fMax)
    else
      let fMax ← larger fMax f2
      stabilize rounds raw s rate i op f2 fMax

/-- `set_fee`: the operation that it leaves, and what it returns. -/
def setFee (rounds : Nat) (raw : Raw Memo) (s : FeeSchedule) (op : Operation Memo)
    (rate : Price) : Attempt (Operation Memo × Asset) := do
  let f ← s.calculateFee rounds raw op rate
  s.stabilize rounds raw rate maxFeeStabilizationIteration op f f

end FeeSchedule

/-! ### The evaluator -/

/-- `price::unit_price` -/
def unitPrice : Price := ⟨⟨1, coreAsset⟩, ⟨1, coreAsset⟩⟩

/-- `HARDFORK_419_TIME` -/
def hardfork419Time : UInt32 := 1446652800

/-- An asset with its pool. -/
structure FeeAsset where
  coreExchangeRate : Price
  feePool : Int
deriving DecidableEq

/-- What the evaluator reads of the database. -/
structure FeeDatabase where
  headBlockTime : UInt32
  hasAccount : Market.AccountId → Bool
  assets : AssetId → Option FeeAsset
  isAuthorizedAsset : Market.AccountId → AssetId → Bool
  currentFeeSchedule : FeeSchedule

def coreFeePaid (rate : Price) (fee : Asset) : Attempt Int :=
  if fee.assetId = coreAsset then pure fee.amount
  else do
    let feeFromPool ← fee.mul rate
    require (feeFromPool.assetId = coreAsset)
    pure feeFromPool.amount

namespace FeeDatabase

/-- Nobody checks who may hold the asset before the hard fork. -/
def Authorized (d : FeeDatabase) (account : Market.AccountId) (asset : AssetId) : Prop :=
  hardfork419Time < d.headBlockTime → d.isAuthorizedAsset account asset = true

instance (d : FeeDatabase) (account : Market.AccountId) (asset : AssetId) :
    Decidable (d.Authorized account asset) := inferInstanceAs (Decidable (_ → _))

/-- `generic_evaluator::prepare_fee` -/
def prepareFee (d : FeeDatabase) (account : Market.AccountId) (fee : Asset) : Attempt Int := do
  require (0 ≤ fee.amount)
  require (d.hasAccount account = true)
  let feeAsset ← demand (d.assets fee.assetId)
  require (d.Authorized account fee.assetId)
  let paid ← coreFeePaid feeAsset.coreExchangeRate fee
  require (fee.assetId = coreAsset ∨ paid ≤ feeAsset.feePool)
  pure paid

/-- `generic_evaluator::calculate_fee_for_operation` -/
def calculateFeeForOperation (rounds : Nat) (raw : Raw Memo) (d : FeeDatabase)
    (op : Operation Memo) : Attempt Int := do
  let fee ← d.currentFeeSchedule.calculateFee rounds raw op unitPrice
  pure fee.amount

/-- What `evaluator::evaluate` does before `do_evaluate`. -/
def evaluateFee (rounds : Nat) (raw : Raw Memo) (d : FeeDatabase) (account : Market.AccountId)
    (op : Operation Memo) : Attempt Unit := do
  let paid ← d.prepareFee account op.fee
  let requiredFee ← d.calculateFeeForOperation rounds raw op
  require (requiredFee ≤ paid)

end FeeDatabase

/-! ### Core exchange rates -/

/-- A price of an asset in CORE, as `asset_options::validate` accepts it, or the unit price, which
CORE itself has. -/
structure CoreExchangeRate extends Price where
  base_pos : 0 < base.amount
  quote_pos : 0 < quote.amount
  core : base.assetId = coreAsset ∨ quote.assetId = coreAsset
  apart : base.assetId ≠ quote.assetId ∨ toPrice = unitPrice

namespace CoreExchangeRate

variable (rate : CoreExchangeRate)

def feeAsset : AssetId :=
  if rate.base.assetId = coreAsset then rate.quote.assetId else rate.base.assetId

def coreAmount : Int :=
  if rate.base.assetId = coreAsset then rate.base.amount else rate.quote.amount

def feeAmount : Int :=
  if rate.base.assetId = coreAsset then rate.quote.amount else rate.base.amount

def unit : CoreExchangeRate where
  toPrice := unitPrice
  base_pos := Int.one_pos
  quote_pos := Int.one_pos
  core := Or.inl rfl
  apart := Or.inr rfl

theorem coreAmount_pos : 0 < rate.coreAmount := by
  unfold coreAmount
  split
  · exact rate.base_pos
  · exact rate.quote_pos

theorem feeAmount_pos : 0 < rate.feeAmount := by
  unfold feeAmount
  split
  · exact rate.quote_pos
  · exact rate.base_pos

theorem amounts_of_core (h : rate.feeAsset = coreAsset) :
    rate.coreAmount = 1 ∧ rate.feeAmount = 1 := by
  unfold feeAsset at h
  unfold coreAmount feeAmount
  have hunit : rate.toPrice = unitPrice := by
    refine rate.apart.resolve_left (not_not_intro ?_)
    split at h
    · rename_i hbase
      exact hbase.trans h.symm
    · exact absurd h ‹_›
  rw [hunit]
  exact ⟨rfl, rfl⟩

theorem mul_core (x : Int) : (⟨x, coreAsset⟩ : Asset).mul rate.toPrice =
    convert (x * rate.feeAmount) rate.coreAmount rate.feeAsset := by
  unfold feeAsset coreAmount feeAmount
  by_cases hbase : rate.base.assetId = coreAsset
  · simp only [if_pos hbase]
    exact Asset.mul_base hbase.symm
  · simp only [if_neg hbase]
    have hquote := rate.core.resolve_left hbase
    exact Asset.mul_quote (fun h => hbase (h.trans hquote)) hquote.symm

theorem mul_fee (x : Int) : (⟨x, rate.feeAsset⟩ : Asset).mul rate.toPrice =
    convert (x * rate.coreAmount) rate.feeAmount coreAsset := by
  by_cases hbase : rate.base.assetId = coreAsset
  · simp only [feeAsset, coreAmount, feeAmount, if_pos hbase]
    rw [← hbase]
    rcases rate.apart with hne | hunit
    · exact Asset.mul_quote hne rfl
    · rw [hunit]
      exact Asset.mul_base rfl
  · simp only [feeAsset, coreAmount, feeAmount, if_neg hbase]
    rw [← rate.core.resolve_left hbase]
    exact Asset.mul_base rfl

/-- What an amount of the fee asset is worth, rounded down. -/
def worth (x : Int) : Int := x * rate.coreAmount / rate.feeAmount

theorem worth_of_core (h : rate.feeAsset = coreAsset) (x : Int) : rate.worth x = x := by
  obtain ⟨hcore, hfee⟩ := rate.amounts_of_core h
  rw [worth, hcore, hfee, Int.mul_one, Int.ediv_one]

theorem worth_mono {x y : Int} (h : x ≤ y) : rate.worth x ≤ rate.worth y :=
  Int.ediv_le_ediv rate.feeAmount_pos
    (Int.mul_le_mul_of_nonneg_right h rate.coreAmount_pos.le)

theorem le_worth_iff {s x : Int} :
    s ≤ rate.worth x ↔ s * rate.feeAmount ≤ x * rate.coreAmount :=
  Int.le_ediv_iff_mul_le rate.feeAmount_pos

theorem mul_fee_eq_ok {x : Int} {c : Asset} :
    (⟨x, rate.feeAsset⟩ : Asset).mul rate.toPrice = .ok c ↔
      0 ≤ x ∧ rate.worth x ≤ maxShareSupply ∧ c = ⟨rate.worth x, coreAsset⟩ := by
  rw [mul_fee, convert_eq_ok]
  simp only [rate.feeAmount_pos, mul_nonneg_iff_of_pos_right rate.coreAmount_pos, true_and, worth]

theorem coreFeePaid_eq_ok {x paid : Int} :
    coreFeePaid rate.toPrice ⟨x, rate.feeAsset⟩ = .ok paid ↔
      (rate.feeAsset = coreAsset ∨ 0 ≤ x ∧ rate.worth x ≤ maxShareSupply) ∧
        paid = rate.worth x := by
  unfold coreFeePaid
  dsimp only
  split
  · rename_i hid
    rw [pure_eq_ok, rate.worth_of_core hid]
    exact ⟨fun h => ⟨Or.inl hid, h⟩, And.right⟩
  · rename_i hid
    simp only [bind_eq_ok, require_eq_ok, pure_eq_ok, exists_const, rate.mul_fee_eq_ok]
    constructor
    · rintro ⟨c, ⟨hx, hmax, rfl⟩, -, rfl⟩
      exact ⟨Or.inr ⟨hx, hmax⟩, rfl⟩
    · rintro ⟨h, rfl⟩
      obtain ⟨hx, hmax⟩ := h.resolve_left hid
      exact ⟨_, ⟨hx, hmax, rfl⟩, rfl, rfl⟩

/-! ### The least fee -/

def start (s : Int) : Int := s * rate.feeAmount / rate.coreAmount

def least (s : Int) : Int :=
  if rate.worth (rate.start s) < s then rate.start s + 1 else rate.start s

theorem start_nonneg {s : Int} (hs : 0 ≤ s) : 0 ≤ rate.start s :=
  Int.ediv_nonneg (Int.mul_nonneg hs rate.feeAmount_pos.le) rate.coreAmount_pos.le

theorem start_le_least (s : Int) : rate.start s ≤ rate.least s := by
  unfold least
  split
  · exact (Int.lt_succ _).le
  · exact le_refl _

theorem worth_start_le (s : Int) : rate.worth (rate.start s) ≤ s :=
  Int.ediv_le_of_le_mul rate.feeAmount_pos
    (Int.ediv_mul_le (s * rate.feeAmount) rate.coreAmount_pos.ne')

theorem le_worth_start_add_one (s : Int) : s ≤ rate.worth (rate.start s + 1) :=
  rate.le_worth_iff.mpr
    (Int.lt_ediv_add_one_mul_self (s * rate.feeAmount) rate.coreAmount_pos).le

theorem isLeast_least (s : Int) : IsLeast {x | s ≤ rate.worth x} (rate.least s) := by
  unfold least
  split
  · rename_i hshort
    refine ⟨rate.le_worth_start_add_one s, fun x (hx : s ≤ rate.worth x) => ?_⟩
    by_contra hlt
    have hmono := rate.worth_mono (Int.lt_add_one_iff.mp (not_le.mp hlt))
    exact absurd (hx.trans hmono) (not_le.mpr hshort)
  · rename_i henough
    refine ⟨not_lt.mp henough, fun x hx => ?_⟩
    -- what is worth the fee exchanges for at least what the fee exchanges for
    have hle := rate.le_worth_iff.mp hx
    have hdiv := Int.ediv_le_ediv rate.coreAmount_pos hle
    rwa [Int.mul_ediv_cancel x rate.coreAmount_pos.ne'] at hdiv

theorem least_of_core (h : rate.feeAsset = coreAsset) (s : Int) : rate.least s = s := by
  refine (rate.isLeast_least s).unique ⟨(rate.worth_of_core h s).ge, fun x hx => ?_⟩
  rw [← rate.worth_of_core h x]
  exact hx

theorem least_nonneg {s : Int} (hs : 0 ≤ s) : 0 ≤ rate.least s :=
  (rate.start_nonneg hs).trans (rate.start_le_least s)

theorem isLeast_coreFeePaid_iff {s x : Int} (hs : 0 ≤ s) (hx : x ≤ maxShareSupply) :
    IsLeast {y | ∃ paid, coreFeePaid rate.toPrice ⟨y, rate.feeAsset⟩ = .ok paid ∧ s ≤ paid} x ↔
      x = rate.least s ∧ rate.worth x ≤ maxShareSupply := by
  have hleast := rate.isLeast_least s
  constructor
  · rintro ⟨⟨paid, hpaid, hle⟩, hlower⟩
    obtain ⟨hrange, rfl⟩ := rate.coreFeePaid_eq_ok.mp hpaid
    have hworth : rate.worth x ≤ maxShareSupply := by
      rcases hrange with hcore | hrange
      · rwa [rate.worth_of_core hcore]
      · exact hrange.2
    refine ⟨le_antisymm (hlower ⟨_, rate.coreFeePaid_eq_ok.mpr ⟨Or.inr ⟨rate.least_nonneg hs, ?_⟩,
      rfl⟩, hleast.1⟩) (hleast.2 hle), hworth⟩
    exact (rate.worth_mono (hleast.2 hle)).trans hworth
  · rintro ⟨rfl, hworth⟩
    refine ⟨⟨_, rate.coreFeePaid_eq_ok.mpr ⟨Or.inr ⟨rate.least_nonneg hs, hworth⟩, rfl⟩,
      hleast.1⟩, ?_⟩
    rintro y ⟨paid, hpaid, hle⟩
    obtain ⟨-, rfl⟩ := rate.coreFeePaid_eq_ok.mp hpaid
    exact hleast.2 hle

end CoreExchangeRate

/-! ### The fee of an operation -/

namespace FeeSchedule

variable {s : FeeSchedule} {raw : Raw Memo} {op : Operation Memo} {rate : CoreExchangeRate}
  {rounds : Nat}

theorem scaledFee_spec {scaled : Int} (h : s.scaledFee raw op = .ok scaled) :
    0 ≤ scaled ∧ scaled ≤ maxShareSupply := by
  simp only [scaledFee, bind_eq_ok, demand_eq_ok, require_eq_ok, pure_eq_ok, exists_const] at h
  obtain ⟨baseValue, -, hmax, rfl⟩ := h
  exact ⟨Int.natCast_nonneg _, hmax⟩

theorem finishes_scaledFee (raw : Raw Memo) (s : FeeSchedule) (op : Operation Memo) :
    Finishes (s.scaledFee raw op) := by
  simp [scaledFee]

theorem chargeMore_eq_ok {scaled x : Int} (hx : 0 ≤ x) {r : Asset ⊕ Asset} :
    chargeMore rate.toPrice ⟨scaled, coreAsset⟩ ⟨x, rate.feeAsset⟩ = .ok r ↔
      rate.worth x ≤ maxShareSupply ∧
        r = if rate.worth x < scaled then .inl ⟨x + 1, rate.feeAsset⟩
          else .inr ⟨x, rate.feeAsset⟩ := by
  simp only [chargeMore, bind_eq_ok, rate.mul_fee_eq_ok, hx, true_and,
    Asset.less_eq_ok]
  constructor
  · rintro ⟨paid, ⟨hmax, rfl⟩, short, ⟨-, rfl⟩, h⟩
    simp only [decide_eq_true_eq] at h
    split at h
    · rename_i hshort
      rw [if_pos hshort]
      exact ⟨hmax, pure_eq_ok.mp h⟩
    · rename_i henough
      rw [if_neg henough]
      exact ⟨hmax, pure_eq_ok.mp h⟩
  · rintro ⟨hmax, rfl⟩
    refine ⟨_, ⟨hmax, rfl⟩, _, ⟨rfl, rfl⟩, ?_⟩
    simp only [decide_eq_true_eq]
    split <;> rfl

theorem chargeMore_eq_inl {scaled x : Int} (hx : 0 ≤ x) {next : Asset} :
    chargeMore rate.toPrice ⟨scaled, coreAsset⟩ ⟨x, rate.feeAsset⟩ = .ok (.inl next) ↔
      rate.worth x ≤ maxShareSupply ∧ rate.worth x < scaled ∧ next = ⟨x + 1, rate.feeAsset⟩ := by
  rw [chargeMore_eq_ok hx]
  by_cases hshort : rate.worth x < scaled
  · simp [hshort]
  · simp [hshort]

theorem chargeMore_eq_inr {scaled x : Int} (hx : 0 ≤ x) {last : Asset} :
    chargeMore rate.toPrice ⟨scaled, coreAsset⟩ ⟨x, rate.feeAsset⟩ = .ok (.inr last) ↔
      rate.worth x ≤ maxShareSupply ∧ scaled ≤ rate.worth x ∧ last = ⟨x, rate.feeAsset⟩ := by
  rw [chargeMore_eq_ok hx]
  by_cases hshort : rate.worth x < scaled
  · simp [hshort, not_le.mpr hshort]
  · simp [hshort, not_lt.mp hshort]

theorem loop_chargeMore {scaled : Int} (hscaled : 0 ≤ scaled) (hmax : scaled ≤ maxShareSupply)
    (hrounds : 2 ≤ rounds) {r : Asset} :
    loop (chargeMore rate.toPrice ⟨scaled, coreAsset⟩) rounds
        ⟨rate.start scaled, rate.feeAsset⟩ = .ok r ↔
      rate.worth (rate.least scaled) ≤ maxShareSupply ∧
        r = ⟨rate.least scaled, rate.feeAsset⟩ := by
  obtain ⟨n, rfl⟩ := Nat.exists_eq_add_of_le hrounds
  have hstart := rate.start_nonneg hscaled
  have hsmall := (rate.worth_start_le scaled).trans hmax
  have henough := rate.le_worth_start_add_one scaled
  rw [Nat.add_comm, loop_succ_eq_ok]
  simp only [chargeMore_eq_inl hstart, chargeMore_eq_inr hstart, CoreExchangeRate.least]
  by_cases hshort : rate.worth (rate.start scaled) < scaled
  · -- the second round finds that the fee is enough
    rw [if_pos hshort]
    constructor
    · rintro (⟨next, ⟨-, -, rfl⟩, h⟩ | ⟨-, hle, -⟩)
      · rw [loop_succ_eq_ok] at h
        simp only [chargeMore_eq_inl (Int.add_nonneg hstart Int.one_pos.le),
          chargeMore_eq_inr (Int.add_nonneg hstart Int.one_pos.le)] at h
        obtain ⟨next, ⟨-, hlt, -⟩, -⟩ | ⟨hworth, -, rfl⟩ := h
        · exact absurd hlt (not_lt.mpr henough)
        · exact ⟨hworth, rfl⟩
      · exact absurd hshort (not_lt.mpr hle)
    · rintro ⟨hworth, rfl⟩
      refine Or.inl ⟨_, ⟨hsmall, hshort, rfl⟩, ?_⟩
      rw [loop_succ_eq_ok]
      exact Or.inr ((chargeMore_eq_inr (Int.add_nonneg hstart Int.one_pos.le)).mpr
        ⟨hworth, henough, rfl⟩)
  · rw [if_neg hshort]
    constructor
    · rintro (⟨next, ⟨-, hlt, -⟩, -⟩ | ⟨hworth, -, rfl⟩)
      · exact absurd hlt hshort
      · exact ⟨hworth, rfl⟩
    · rintro ⟨hworth, rfl⟩
      exact Or.inr ⟨hworth, not_lt.mp hshort, rfl⟩

theorem finishes_chargeMore (scaled result : Asset) :
    Finishes (chargeMore rate.toPrice scaled result) := by
  simp [chargeMore]

theorem finishes_loop_chargeMore {scaled : Int} (hscaled : 0 ≤ scaled) (hrounds : 2 ≤ rounds) :
    Finishes (loop (chargeMore rate.toPrice ⟨scaled, coreAsset⟩) rounds
      ⟨rate.start scaled, rate.feeAsset⟩) := by
  refine loop_finishes
    (P := fun a => rate.start scaled ≤ a.amount ∧ a.assetId = rate.feeAsset)
    (m := fun a => (rate.start scaled + 1 - a.amount).toNat)
    (fun a _ => finishes_chargeMore _ a) ?_ rounds _ ⟨le_refl _, rfl⟩ ?_
  · rintro ⟨x, id⟩ next ⟨hle, hid⟩ hnext
    dsimp only at hle hid
    subst hid
    obtain ⟨-, hshort, rfl⟩ :=
      (chargeMore_eq_inl ((rate.start_nonneg hscaled).trans hle)).mp hnext
    -- more than the start would be enough
    have hlt : x < rate.start scaled + 1 := by
      by_contra hge
      exact absurd ((rate.le_worth_start_add_one scaled).trans (rate.worth_mono (not_lt.mp hge)))
        (not_le.mpr hshort)
    refine ⟨⟨?_, rfl⟩, ?_⟩
    · dsimp only
      omega
    · dsimp only
      omega
  · dsimp only
    omega

theorem calculateFee_eq_ok (rate : CoreExchangeRate) (hrounds : 2 ≤ rounds) {r : Asset} :
    s.calculateFee rounds raw op rate.toPrice = .ok r ↔
      ∃ scaled, s.scaledFee raw op = .ok scaled ∧ r = ⟨rate.least scaled, rate.feeAsset⟩ ∧
        r.amount ≤ maxShareSupply ∧ rate.worth r.amount ≤ maxShareSupply := by
  simp only [calculateFee, bind_eq_ok, require_eq_ok, pure_eq_ok, exists_const]
  refine exists_congr fun scaled => and_congr_right fun hscaled => ?_
  obtain ⟨hpos, hmax⟩ := scaledFee_spec hscaled
  rw [rate.mul_core]
  simp only [convert_eq_ok]
  constructor
  · rintro ⟨first, ⟨-, -, -, rfl⟩, last, hlast, hle, rfl⟩
    obtain ⟨hworth, rfl⟩ := (loop_chargeMore hpos hmax hrounds).mp hlast
    exact ⟨rfl, hle, hworth⟩
  · rintro ⟨rfl, hle, hworth⟩
    exact ⟨_, ⟨rate.coreAmount_pos, Int.mul_nonneg hpos rate.feeAmount_pos.le,
      (rate.start_le_least scaled).trans hle, rfl⟩, _,
      (loop_chargeMore hpos hmax hrounds).mpr ⟨hworth, rfl⟩, hle, rfl⟩

theorem finishes_calculateFee (hrounds : 2 ≤ rounds) :
    Finishes (s.calculateFee rounds raw op rate.toPrice) := by
  simp only [calculateFee, finishes_bind, Asset.finishes_mul, finishes_require, finishes_pure,
    true_and, implies_true, and_true]
  refine ⟨finishes_scaledFee raw s op, fun scaled hscaled first hfirst => ?_⟩
  obtain ⟨hpos, hmax⟩ := scaledFee_spec hscaled
  rw [rate.mul_core] at hfirst
  obtain ⟨-, -, -, rfl⟩ := convert_eq_ok.mp hfirst
  exact finishes_loop_chargeMore hpos hrounds

/-! ### The fee that is set -/

section

variable (hraw : raw.SizedById)

include hraw

theorem scaledFee_setFee {a b : Asset} (hid : a.assetId = b.assetId) :
    s.scaledFee raw (op.setFee a) = s.scaledFee raw (op.setFee b) := by
  have hfee : (op.setFee a).calculateFee raw = (op.setFee b).calculateFee raw :=
    funext fun k => op.calculateFee_setFee hraw hid k
  unfold scaledFee baseFee
  rw [hfee]
  rfl

theorem calculateFee_setFee {a b : Asset} (hid : a.assetId = b.assetId) (p : Price) :
    s.calculateFee rounds raw (op.setFee a) p = s.calculateFee rounds raw (op.setFee b) p := by
  unfold calculateFee
  rw [scaledFee_setFee hraw hid]

end

theorem larger_eq_ok {a b c : Asset} :
    larger a b = .ok c ↔ a.assetId = b.assetId ∧ c = if a.amount < b.amount then b else a := by
  simp only [larger, bind_eq_ok, Asset.less_eq_ok]
  constructor
  · rintro ⟨r, ⟨hid, rfl⟩, h⟩
    simp only [decide_eq_true_eq] at h
    split at h <;> rename_i hlt
    · rw [if_pos hlt]
      exact ⟨hid, pure_eq_ok.mp h⟩
    · rw [if_neg hlt]
      exact ⟨hid, pure_eq_ok.mp h⟩
  · rintro ⟨hid, rfl⟩
    refine ⟨_, ⟨hid, rfl⟩, ?_⟩
    simp only [decide_eq_true_eq]
    split <;> rfl

theorem assetId_calculateFee (hrounds : 2 ≤ rounds) {r : Asset}
    (h : s.calculateFee rounds raw op rate.toPrice = .ok r) : r.assetId = rate.feeAsset := by
  obtain ⟨scaled, -, rfl, -⟩ := (calculateFee_eq_ok rate hrounds).mp h
  rfl

theorem setFee_eq_ok (hraw : raw.SizedById) (hrounds : 2 ≤ rounds) {op' : Operation Memo}
    {r : Asset} :
    s.setFee rounds raw op rate.toPrice = .ok (op', r) ↔
      ∃ f f2, s.calculateFee rounds raw op rate.toPrice = .ok f ∧
        s.calculateFee rounds raw (op.setFee f) rate.toPrice = .ok f2 ∧
          r = (if f.amount < f2.amount then f2 else f) ∧ op' = op.setFee r := by
  simp only [setFee, maxFeeStabilizationIteration, stabilize, bind_eq_ok]
  refine exists_congr fun f => ?_
  rw [← exists_and_left]
  refine exists_congr fun f2 => and_congr_right fun hf => and_congr_right fun hf2 => ?_
  have hid : f.assetId = f2.assetId :=
    (assetId_calculateFee hrounds hf).trans (assetId_calculateFee hrounds hf2).symm
  by_cases heq : f = f2
  · subst heq
    rw [if_pos rfl, if_neg (lt_irrefl _), pure_eq_ok, Prod.mk.injEq]
    constructor
    · rintro ⟨rfl, rfl⟩
      exact ⟨rfl, rfl⟩
    · rintro ⟨rfl, rfl⟩
      exact ⟨rfl, rfl⟩
  · rw [if_neg heq]
    have hid' : (if f.amount < f2.amount then f2 else f).assetId = f.assetId := by
      split
      · exact hid.symm
      · rfl
    -- the size of the operation with the larger fee is the same
    have hagain : s.calculateFee rounds raw
        (op.setFee (if f.amount < f2.amount then f2 else f)) rate.toPrice = .ok f2 :=
      (calculateFee_setFee hraw hid' _).trans hf2
    simp only [bind_eq_ok, larger_eq_ok, Operation.setFee_setFee]
    constructor
    · rintro ⟨fMax, ⟨-, rfl⟩, f3, hf3, h⟩
      obtain rfl := Except.ok.inj (hagain.symm.trans hf3)
      rw [if_pos rfl, pure_eq_ok, Prod.mk.injEq] at h
      exact ⟨h.2, h.2 ▸ h.1⟩
    · rintro ⟨rfl, rfl⟩
      refine ⟨_, ⟨hid, rfl⟩, f2, hagain, ?_⟩
      rw [if_pos rfl]
      rfl

theorem finishes_larger (a b : Asset) : Finishes (larger a b) := by
  simp [larger]

theorem finishes_stabilize (hrounds : 2 ≤ rounds) :
    ∀ (i : Nat) (op : Operation Memo) (f fMax : Asset),
      Finishes (s.stabilize rounds raw rate.toPrice i op f fMax)
  | 0, op, f, fMax => finishes_pure _
  | i + 1, op, f, fMax => by
    simp only [stabilize, finishes_bind, finishes_ite, finishes_pure, implies_true, true_and]
    exact ⟨finishes_calculateFee hrounds, fun f2 _ _ => ⟨finishes_larger _ _, fun fMax _ =>
      finishes_stabilize hrounds i _ f2 fMax⟩⟩

theorem finishes_setFee (hrounds : 2 ≤ rounds) :
    Finishes (s.setFee rounds raw op rate.toPrice) := by
  simp only [setFee, finishes_bind]
  exact ⟨finishes_calculateFee hrounds, fun f _ => finishes_stabilize hrounds _ op f f⟩

end FeeSchedule

namespace FeeDatabase

variable {d : FeeDatabase} {raw : Raw Memo} {op : Operation Memo} {rate : CoreExchangeRate}
  {rounds : Nat}

theorem calculateFeeForOperation_eq_ok (hrounds : 2 ≤ rounds) {required : Int} :
    d.calculateFeeForOperation rounds raw op = .ok required ↔
      d.currentFeeSchedule.scaledFee raw op = .ok required := by
  have hunit := CoreExchangeRate.unit.least_of_core rfl
  have hworth := CoreExchangeRate.unit.worth_of_core rfl
  simp only [calculateFeeForOperation, bind_eq_ok, pure_eq_ok]
  constructor
  · rintro ⟨fee, hfee, rfl⟩
    obtain ⟨scaled, hscaled, rfl, -⟩ :=
      (FeeSchedule.calculateFee_eq_ok CoreExchangeRate.unit hrounds).mp hfee
    rwa [hunit]
  · intro h
    obtain ⟨-, hmax⟩ := FeeSchedule.scaledFee_spec h
    refine ⟨⟨required, coreAsset⟩,
      (FeeSchedule.calculateFee_eq_ok CoreExchangeRate.unit hrounds).mpr
        ⟨required, h, ?_, hmax, ?_⟩, rfl⟩
    · rw [hunit]
      rfl
    · rwa [hworth]

/-- The database has the rate for its asset; what it has for CORE is not read. -/
def HasRate (d : FeeDatabase) (rate : CoreExchangeRate) (a : FeeAsset) : Prop :=
  d.assets rate.feeAsset = some a ∧
    (rate.feeAsset = coreAsset ∨ a.coreExchangeRate = rate.toPrice)

/-- The tests of `prepare_fee` that are not about the amount of the fee: there is the account, it
may hold the asset, and the pool has the CORE. -/
def Admits (d : FeeDatabase) (account : Market.AccountId) (asset : AssetId) (a : FeeAsset)
    (paid : Int) : Prop :=
  d.hasAccount account = true ∧ d.Authorized account asset ∧
    (asset = coreAsset ∨ paid ≤ a.feePool)

theorem prepareFee_eq_ok {a : FeeAsset} (ha : d.HasRate rate a) {account : Market.AccountId}
    {x paid : Int} :
    d.prepareFee account ⟨x, rate.feeAsset⟩ = .ok paid ↔
      0 ≤ x ∧ coreFeePaid rate.toPrice ⟨x, rate.feeAsset⟩ = .ok paid ∧
        d.Admits account rate.feeAsset a paid := by
  obtain ⟨hasset, hrate⟩ := ha
  have hpaid : coreFeePaid a.coreExchangeRate ⟨x, rate.feeAsset⟩ =
      coreFeePaid rate.toPrice ⟨x, rate.feeAsset⟩ := by
    rcases hrate with hcore | hrate
    · unfold coreFeePaid
      rw [if_pos hcore, if_pos hcore]
    · rw [hrate]
  simp only [prepareFee, Admits, bind_eq_ok, require_eq_ok, demand_eq_ok, pure_eq_ok,
    exists_const, hasset, Option.some.injEq, exists_eq_left', hpaid]
  constructor
  · rintro ⟨hx, haccount, hauth, p, hp, hpool, rfl⟩
    exact ⟨hx, hp, haccount, hauth, hpool⟩
  · rintro ⟨hx, hp, haccount, hauth, hpool⟩
    exact ⟨hx, haccount, hauth, paid, hp, hpool, rfl⟩

theorem worth_of_setFee (hraw : raw.SizedById) (hrounds : 2 ≤ rounds) {op' : Operation Memo}
    {fee : Asset}
    (h : d.currentFeeSchedule.setFee rounds raw op rate.toPrice = .ok (op', fee)) :
    op'.fee = fee ∧ fee.assetId = rate.feeAsset ∧ 0 ≤ fee.amount ∧
      rate.worth fee.amount ≤ maxShareSupply ∧
        ∃ required, d.calculateFeeForOperation rounds raw op' = .ok required ∧
          required ≤ rate.worth fee.amount := by
  obtain ⟨f, f2, hf, hf2, hfee, rfl⟩ := (FeeSchedule.setFee_eq_ok hraw hrounds).mp h
  obtain ⟨scaled, hscaled, hleast, -, hworth⟩ :=
    (FeeSchedule.calculateFee_eq_ok rate hrounds).mp hf
  obtain ⟨scaled2, hscaled2, hleast2, -, hworth2⟩ :=
    (FeeSchedule.calculateFee_eq_ok rate hrounds).mp hf2
  have hpos := rate.least_nonneg (FeeSchedule.scaledFee_spec hscaled).1
  have hid : fee.assetId = rate.feeAsset := by
    rw [hfee, hleast, hleast2]
    split <;> rfl
  have hle : f2.amount ≤ fee.amount ∧ f.amount ≤ fee.amount := by
    rw [hfee]
    split <;> rename_i hlt
    · exact ⟨le_refl _, hlt.le⟩
    · exact ⟨not_lt.mp hlt, le_refl _⟩
  refine ⟨rfl, hid, ?_, ?_, scaled2, ?_, ?_⟩
  · rw [hleast] at hle
    exact hpos.trans hle.2
  · rw [hfee]
    split
    · exact hworth2
    · exact hworth
  · rw [calculateFeeForOperation_eq_ok hrounds,
      FeeSchedule.scaledFee_setFee hraw (hid.trans (congrArg Asset.assetId hleast).symm)]
    exact hscaled2
  · have hreach := (rate.isLeast_least scaled2).1
    rw [hleast2] at hle
    exact le_trans hreach (rate.worth_mono hle.1)

/-- The fee that is calculated is the least one that the evaluator accepts, and the fee that is set
is accepted. -/
theorem fees_agree (hrounds : 2 ≤ rounds) (raw : Raw Memo) (d : FeeDatabase)
    (op : Operation Memo) (rate : CoreExchangeRate) :
    Finishes (d.currentFeeSchedule.calculateFee rounds raw op rate.toPrice) ∧
      (∀ fee : Asset, d.currentFeeSchedule.calculateFee rounds raw op rate.toPrice = .ok fee ↔
        ∃ required, d.calculateFeeForOperation rounds raw op = .ok required ∧
          fee.assetId = rate.feeAsset ∧ fee.amount ≤ maxShareSupply ∧
            IsLeast {x | ∃ paid, coreFeePaid rate.toPrice ⟨x, rate.feeAsset⟩ = .ok paid ∧
              required ≤ paid} fee.amount) ∧
      (raw.SizedById →
        Finishes (d.currentFeeSchedule.setFee rounds raw op rate.toPrice) ∧
          ((∃ op' fee, d.currentFeeSchedule.setFee rounds raw op rate.toPrice = .ok (op', fee)) ↔
            ∃ f f2, d.currentFeeSchedule.calculateFee rounds raw op rate.toPrice = .ok f ∧
              d.currentFeeSchedule.calculateFee rounds raw (op.setFee f) rate.toPrice =
                .ok f2) ∧
          ∀ op' fee, d.currentFeeSchedule.setFee rounds raw op rate.toPrice = .ok (op', fee) →
            op' = op.setFee fee ∧ op'.fee = fee ∧
              ∃ required paid, d.calculateFeeForOperation rounds raw op' = .ok required ∧
                coreFeePaid rate.toPrice fee = .ok paid ∧ required ≤ paid ∧
                ∀ (a : FeeAsset) (account : Market.AccountId), d.HasRate rate a →
                  (d.evaluateFee rounds raw account op' = .ok () ↔
                    d.Admits account fee.assetId a paid)) := by
  refine ⟨FeeSchedule.finishes_calculateFee hrounds, fun fee => ?_, fun hraw =>
    ⟨FeeSchedule.finishes_setFee hrounds, ?_, fun op' fee h => ?_⟩⟩
  · rw [FeeSchedule.calculateFee_eq_ok rate hrounds]
    refine exists_congr fun scaled => ?_
    rw [calculateFeeForOperation_eq_ok hrounds]
    refine and_congr_right fun hscaled => ?_
    obtain ⟨hpos, -⟩ := FeeSchedule.scaledFee_spec hscaled
    constructor
    · rintro ⟨rfl, hmax, hworth⟩
      exact ⟨rfl, hmax, (rate.isLeast_coreFeePaid_iff hpos hmax).mpr ⟨rfl, hworth⟩⟩
    · rintro ⟨hid, hmax, hleast⟩
      obtain ⟨hamount, hworth⟩ := (rate.isLeast_coreFeePaid_iff hpos hmax).mp hleast
      exact ⟨Asset.ext hamount hid, hmax, hworth⟩
  · simp only [FeeSchedule.setFee_eq_ok hraw hrounds]
    constructor
    · rintro ⟨op', fee, f, f2, hf, hf2, -⟩
      exact ⟨f, f2, hf, hf2⟩
    · rintro ⟨f, f2, hf, hf2⟩
      exact ⟨_, _, f, f2, hf, hf2, rfl, rfl⟩
  · obtain ⟨-, -, -, -, -, hop⟩ := (FeeSchedule.setFee_eq_ok hraw hrounds).mp h
    obtain ⟨hset, hid, hpos, hworth, required, hrequired, hle⟩ :=
      worth_of_setFee hraw hrounds h
    have hfee : fee = ⟨fee.amount, rate.feeAsset⟩ := Asset.ext rfl hid
    have hpaid : coreFeePaid rate.toPrice fee = .ok (rate.worth fee.amount) := by
      rw [hfee]
      exact rate.coreFeePaid_eq_ok.mpr ⟨Or.inr ⟨hpos, hworth⟩, rfl⟩
    refine ⟨hop, hset, required, _, hrequired, hpaid, hle, fun a account ha => ?_⟩
    simp only [evaluateFee, bind_eq_ok, require_eq_ok, hset, hrequired]
    rw [hfee] at hpaid ⊢
    simp only [prepareFee_eq_ok ha, hpaid]
    constructor
    · rintro ⟨paid, ⟨-, hp, hadmits⟩, -⟩
      obtain rfl := Except.ok.inj hp
      exact hadmits
    · intro hadmits
      exact ⟨_, ⟨hpos, rfl, hadmits⟩, required, rfl, hle⟩

end FeeDatabase

end

/-! ### A custom operation -/

/-- Packed amounts, with an id of seven bits a byte, and memos of packed bytes. -/
def serialized : Raw (List UInt8) where
  asset a := 8 + UInt64.ofNat (a.assetId.log2 / 7 + 1)
  memo m := UInt64.ofNat m.length
  optionalMemo m := 1 + UInt64.ofNat (m.elim 0 List.length)

theorem serialized_sizedById : serialized.SizedById := fun _ _ h =>
  congrArg (fun id => 8 + UInt64.ofNat (Nat.log2 id / 7 + 1)) h

/-- Seven units of asset 1000 for three of CORE. -/
def sevenThirds : CoreExchangeRate where
  base := ⟨7, 1000⟩
  quote := ⟨3, coreAsset⟩
  base_pos := by decide
  quote_pos := by decide
  core := Or.inr rfl
  apart := Or.inl (by decide)

/-- A custom operation costs one unit of CORE a byte. -/
def byteDatabase : FeeDatabase where
  headBlockTime := 1500000000
  hasAccount account := account = 7
  assets id := if id = 1000 then some ⟨sevenThirds.toPrice, 200000⟩ else none
  isAuthorizedAsset account _ := account = 7
  currentFeeSchedule :=
    { parameters := fun
        | .custom => some ⟨100000, 1024⟩
        | type => some (defaultParameters type)
      scale := 10000 }

/-- The fee is in CORE before it is set, and its id takes one byte less. -/
def customOperation : Operation (List UInt8) where
  type := .custom
  fee := ⟨0, coreAsset⟩
  rest := 50
  content := ()

/-- The second try is for the longer id. -/
theorem fees_agree_custom : 2 ≤ 2 ∧ serialized.SizedById ∧
    ∃ op' fee, byteDatabase.currentFeeSchedule.setFee 2 serialized customOperation
        sevenThirds.toPrice = .ok (op', fee) ∧ fee = ⟨233474, 1000⟩ ∧ op'.fee = fee ∧
      byteDatabase.evaluateFee 2 serialized 7 op' = .ok () := by
  obtain ⟨⟨op', fee⟩, hset, hfee⟩ := exists_ok_of_any
    (x := byteDatabase.currentFeeSchedule.setFee 2 serialized customOperation sevenThirds.toPrice)
    (p := fun r => decide (r.2 = ⟨233474, 1000⟩)) (by decide +kernel)
  obtain rfl := of_decide_eq_true hfee
  obtain ⟨-, -, h⟩ := FeeDatabase.fees_agree (le_refl 2) serialized byteDatabase customOperation
    sevenThirds
  obtain ⟨-, -, h⟩ := h serialized_sizedById
  obtain ⟨-, hop, required, paid, -, hpaid, -, h⟩ := h op' _ hset
  have hworth : paid = sevenThirds.worth 233474 :=
    (sevenThirds.coreFeePaid_eq_ok.mp hpaid).2
  refine ⟨le_refl 2, serialized_sizedById, op', _, hset, rfl, hop, ?_⟩
  refine (h ⟨sevenThirds.toPrice, 200000⟩ 7 ⟨rfl, Or.inr rfl⟩).mpr ⟨rfl, fun _ => rfl, Or.inr ?_⟩
  rw [hworth]
  decide

end Nestchain.Protocol.Fees
