import Nestchain.Market.BlackSwan
import Nestchain.Market.DeferredFees
import Mathlib.Algebra.Order.Floor.Ring
import Mathlib.Data.Rat.Floor

/-! Global settlement, position by position.  Each position in the asset pays its debt at the
settlement price, rounded up and at most its collateral, and the borrower gets the rest back.  What
the open positions still have to pay and to return, with what was paid and returned already, stays
the same while they are closed. -/

namespace Nestchain.Market

open Lib Ledger

/-! ### What a position pays -/

/-- What a unit of the asset `id` is worth at a price, in the other asset. -/
def Price.rate (p : Price) (id : AssetId) : ℚ :=
  if id = p.base.assetId then p.quote.amount / p.base.amount
  else p.base.amount / p.quote.amount

theorem roundUp_eq_ceil {n d : Int} (hd : 0 < d) : (n + d - 1) / d = ⌈(n : ℚ) / d⌉ := by
  refine eq_of_forall_ge_iff fun k => ?_
  have hd' : (0 : ℚ) < d := Int.cast_pos.mpr hd
  rw [roundUp_le_iff hd, Int.ceil_le, div_le_iff₀ hd']
  exact_mod_cast Iff.rfl

theorem Asset.multiplyAndRoundUp_ceil {a b : Asset} {p : Price}
    (h : a.multiplyAndRoundUp p = .ok b) : b.amount = ⌈(a.amount : ℚ) * p.rate a.assetId⌉ := by
  rcases Asset.multiplyAndRoundUp_cases h with ⟨ha, -, hd, -, hb⟩ | ⟨hne, -, -, hd, -, hb⟩
  · rw [hb, roundUp_eq_ceil hd, Price.rate, if_pos ha, Int.cast_mul, mul_div_assoc]
  · rw [hb, roundUp_eq_ceil hd, Price.rate, if_neg hne, Int.cast_mul, mul_div_assoc]

namespace CallOrder

/-- What a position pays when it is closed at a price. -/
def pays (c : CallOrder) (price : Price) : Int :=
  min c.collateral ⌈(c.debt : ℚ) * price.rate c.debtType⌉

theorem pays_eq_least {c : CallOrder} {price : Price} {worth paid : Asset}
    (hworth : c.getDebt.multiplyAndRoundUp price = .ok worth)
    (hpaid : worth.least c.getCollateral = .ok paid) : paid = ⟨c.pays price, c.collateralType⟩ := by
  obtain ⟨hid, hasset, hle, hle', heither⟩ := Asset.least_spec hpaid
  have hceil : worth.amount = ⌈(c.debt : ℚ) * price.rate c.debtType⌉ :=
    Asset.multiplyAndRoundUp_ceil hworth
  refine Asset.ext ?_ (hasset.trans hid)
  show paid.amount = min c.collateral ⌈(c.debt : ℚ) * price.rate c.debtType⌉
  rw [← hceil]
  have hcollateral : paid.amount ≤ c.collateral := hle'
  rcases heither with rfl | rfl
  · exact (min_eq_right hcollateral).symm
  · exact (min_eq_left hle).symm

theorem pays_pos_iff {c : CallOrder} {price : Price} (hdebt : 0 < c.debt)
    (hcollateral : 0 < c.collateral) : 0 < c.pays price ↔ 0 < price.rate c.debtType := by
  have hdebt' : (0 : ℚ) < c.debt := Int.cast_pos.mpr hdebt
  rw [pays, lt_min_iff, Int.ceil_pos, mul_pos_iff_of_pos_left hdebt']
  exact ⟨And.right, fun h => ⟨hcollateral, h⟩⟩

end CallOrder

namespace Ledger

/-- What the positions in an asset pay when they are closed at a price. -/
def settlementDues (L : Ledger) (mia : AssetId) (price : Price) : Int :=
  L.callOrders.sum fun _ c => if c.debtType = mia then c.pays price else 0

/-- What is left to a borrower of the collateral of the positions in an asset that are closed. -/
def collateralLeft (L : Ledger) (mia : AssetId) (price : Price) (owner : AccountId) : Int :=
  L.callOrders.sum fun _ c =>
    if c.debtType = mia ∧ c.borrower = owner then c.collateral - c.pays price else 0

/-- The purses that the collateral goes to that is left. -/
def collateralBack (L : Ledger) (mia : AssetId) (price : Price) : Purses :=
  L.callOrders.sum fun _ c =>
    if c.debtType = mia then
      inPurse (.balance c.borrower c.collateralType) (c.collateral - c.pays price)
    else 0

variable {L L' : Ledger} {mia : AssetId} {price : Price} {id : Nat} {c : CallOrder}

theorem settlementDues_remove (hc : L.callOrders.find id = some c) (hmia : c.debtType = mia) :
    settlementDues { L with callOrders := L.callOrders.remove id } mia price =
      L.settlementDues mia price - c.pays price := by
  simp only [settlementDues, Table.sum_remove hc, if_pos hmia]

theorem collateralBack_remove (hc : L.callOrders.find id = some c) (hmia : c.debtType = mia) :
    collateralBack { L with callOrders := L.callOrders.remove id } mia price =
      L.collateralBack mia price -
        inPurse (.balance c.borrower c.collateralType) (c.collateral - c.pays price) := by
  simp only [collateralBack, Table.sum_remove hc, if_pos hmia]

theorem collateralBack_balance {backing : AssetId} (hbacking : ∀ id c,
      L.callOrders.find id = some c → c.debtType = mia → c.collateralType = backing)
    (owner : AccountId) (asset : AssetId) :
    L.collateralBack mia price (.balance owner asset) =
      if asset = backing then L.collateralLeft mia price owner else 0 := by
  have hat := Table.map_sum (Pi.evalAddMonoidHom (fun _ => Int) (Purse.balance owner asset))
    L.callOrders fun _ c => if c.debtType = mia then
      inPurse (.balance c.borrower c.collateralType) (c.collateral - c.pays price) else 0
  refine hat.trans ?_
  rw [collateralLeft]
  split
  · rename_i hasset
    refine Table.sum_congr fun id c hc => ?_
    by_cases hmia : c.debtType = mia
    · have hcoll := hbacking id c hc hmia
      by_cases howner : c.borrower = owner
      · simp [hmia, inPurse_apply, hcoll, hasset, howner]
      · simp [hmia, inPurse_apply, hcoll, hasset, howner, Ne.symm howner]
    · simp [hmia]
  · rename_i hasset
    refine Table.sum_eq_zero fun id c hc => ?_
    by_cases hmia : c.debtType = mia
    · have hcoll := hbacking id c hc hmia
      simp [hmia, inPurse_apply, hcoll, hasset]
    · simp [hmia]

/-! ### Closing one position -/

/-- A fill of a call order leaves the purses alone until its debt is covered; then the order is
gone, and the borrower has the collateral back that it does not pay. -/
theorem fillCallOrder_purses {pays receives : Asset} {r : Bool × Ledger}
    (hc : L.callOrders.find id = some c) (h : L.fillCallOrder id pays receives = .ok r) :
    (c.debt = receives.amount → r.2.callOrders = L.callOrders.remove id) ∧
      r.2.purses = L.purses + inPurse (.balance c.borrower c.collateralType)
        (if c.debt = receives.amount then c.collateral - pays.amount else 0) := by
  simp only [fillCallOrder, bind_eq_ok, demand_eq_ok, require_eq_ok, exists_const] at h
  obtain ⟨c', hc', -, -, -, b, -, M1, h1, M2, h2, h⟩ := h
  obtain rfl : c = c' := Option.some.inj (hc.symm.trans hc')
  have hM2 : Funds L M2 := (modifyDynamicData_funds h1).trans (noteInOrders_funds h2)
  have hpurses1 : M1.purses = L.purses := by
    have hsame := modifyDynamicData_purses (x := 0) (y := 0) h1
      fun _ => ⟨(add_zero _).symm, (add_zero _).symm⟩
    rwa [inPurse_zero, inPurse_zero, add_zero, add_zero] at hsame
  have hsame : ∀ (M : Ledger) (orders : Table CallOrder),
      Ledger.purses { M with callOrders := orders } = M.purses := fun _ _ =>
        purses_congr rfl rfl rfl
  split at h
  · rename_i hzero
    simp only [bind_eq_ok, pure_eq_ok] at h
    obtain ⟨M3, h3, M4, h4, rfl⟩ := h
    have hfunds := hM2.trans ((adjustBalance_funds h3).trans (noteInOrders_funds h4))
    refine ⟨fun _ => congrArg (Table.remove · id) hfunds.callOrders, ?_⟩
    rw [if_pos (sub_eq_zero.mp hzero), hsame, noteInOrders_purses h4, adjustBalance_purses h3,
      noteInOrders_purses h2, hpurses1]
  · rename_i hne
    simp only [bind_eq_ok, pure_eq_ok] at h
    obtain ⟨p, -, rfl⟩ := h
    have hopen : c.debt ≠ receives.amount := fun he => hne (sub_eq_zero.mpr he)
    refine ⟨fun he => absurd he hopen, ?_⟩
    rw [if_neg hopen, hsame, noteInOrders_purses h2, hpurses1, inPurse_zero, add_zero]

/-- What stays the same while the positions in `mia` are closed: what was paid with what is to be
paid, the purses with what goes back to them, and the positions in other assets. -/
structure Gathers (L : Ledger) (mia : AssetId) (price : Price) (s : Ledger × Asset) : Prop where
  dues : s.2.amount + s.1.settlementDues mia price = L.settlementDues mia price
  purses : s.1.purses + s.1.collateralBack mia price = L.purses + L.collateralBack mia price
  others : ∀ id c, c.debtType ≠ mia →
    (s.1.callOrders.find id = some c ↔ L.callOrders.find id = some c)

theorem Gathers.start (L : Ledger) (mia : AssetId) (price : Price) (backing : AssetId) :
    Gathers L mia price (L, ⟨0, backing⟩) :=
  ⟨zero_add _, rfl, fun _ _ _ => Iff.rfl⟩

theorem closeCallOrder_gathers {backing : AssetId} {call : Nat × CallOrder}
    {rows : List (Nat × CallOrder)} {s s' : Ledger × Asset}
    (hcloses : Closes L mia backing (call :: rows) s) (hs : Gathers L mia price s)
    (h : closeCallOrder price s call = .ok s') : Gathers L mia price s' := by
  simp only [closeCallOrder, bind_eq_ok, demand_eq_ok, require_eq_ok, exists_const,
    Asset.plus_eq_ok, pure_eq_ok] at h
  obtain ⟨c, hc, worth, hworth, paid, hpaid, gathered, ⟨-, rfl⟩, r, hr, -, rfl⟩ := h
  obtain ⟨hfound, hdebt⟩ := hcloses.row_open call (List.mem_cons_self ..)
  obtain rfl : call.2 = c := Option.some.inj (hfound.symm.trans hc)
  obtain rfl := CallOrder.pays_eq_least hworth hpaid
  obtain ⟨hgone, hpurses⟩ := fillCallOrder_purses hc hr
  rw [if_pos (show call.2.debt = call.2.getDebt.amount from rfl)] at hpurses
  have hcalls : r.2.callOrders = s.1.callOrders.remove call.1 := hgone rfl
  have hdues : r.2.settlementDues mia price =
      s.1.settlementDues mia price - call.2.pays price := by
    rw [settlementDues, hcalls]
    exact settlementDues_remove hc hdebt
  have hback : r.2.collateralBack mia price = s.1.collateralBack mia price -
      inPurse (.balance call.2.borrower call.2.collateralType)
        (call.2.collateral - call.2.pays price) := by
    rw [collateralBack, hcalls]
    exact collateralBack_remove hc hdebt
  refine ⟨?_, ?_, fun j d hd => ?_⟩
  · have hbefore := hs.dues
    show s.2.amount + call.2.pays price + r.2.settlementDues mia price = _
    omega
  · rw [hpurses, hback, ← hs.purses]
    abel
  · rw [← hs.others j d hd, hcalls, Table.find_remove_iff]
    refine ⟨And.right, fun hj => ⟨fun he => ?_, hj⟩⟩
    rw [he, hc] at hj
    exact hd (Option.some.inj hj ▸ hdebt)

/-! ### Closing all positions -/

/-- All positions in `mia` are closed at a price, in a ledger whose bitasset data of `mia` was `b`
and is `b'`: what they paid is the fund, the borrowers have the rest of the collateral, and the
supply, the other balances and the positions in other assets are as they were. -/
structure PositionsClosed (mia : AssetId) (price : Price) (L L' : Ledger) (b b' : BitassetData) :
    Prop where
  none_left : ∀ id c, L'.callOrders.find id = some c → c.debtType ≠ mia
  others : ∀ id c, c.debtType ≠ mia →
    (L'.callOrders.find id = some c ↔ L.callOrders.find id = some c)
  fund : b'.settlementFund = L.settlementDues mia price
  returned : ∀ owner, (L'.getBalance owner b.options.shortBackingAsset).amount =
    (L.getBalance owner b.options.shortBackingAsset).amount + L.collateralLeft mia price owner
  balances : ∀ owner id, id ≠ b.options.shortBackingAsset →
    L'.getBalance owner id = L.getBalance owner id
  supply : L'.supply mia = L.supply mia
  price : b'.settlementPrice =
    ⟨⟨L.supply mia, mia⟩, ⟨b'.settlementFund, b.options.shortBackingAsset⟩⟩

/-- A global settlement of `mia` at a price that closes all positions and records a price with two
positive sides. -/
def SettledGlobally (mia : AssetId) (price : Price) (L L' : Ledger) : Prop :=
  ∃ b b', L.bitasset mia = .ok b ∧ L'.bitasset mia = .ok b' ∧
    PositionsClosed mia price L L' b b' ∧ 0 < b'.settlementPrice.base.amount ∧
    0 < b'.settlementPrice.quote.amount

theorem getBalance_assetId (L : Ledger) (owner : AccountId) (id : AssetId) :
    (L.getBalance owner id).assetId = id := by
  unfold getBalance
  split <;> rfl

theorem globallySettleAsset_closed (hs : Shape L)
    (h : L.globallySettleAsset mia price = .ok L') :
    ∃ b b', L.bitasset mia = .ok b ∧ L'.bitasset mia = .ok b' ∧ b.hasSettlement = false ∧
      PositionsClosed mia price L L' b b' := by
  obtain ⟨b, low, high, M, a, x, hb, hunsettled, hlow, hhigh, hclosed, -, ha, hab, rfl⟩ :=
    globallySettleAsset_cases hs h
  obtain ⟨hcloses, hgathers⟩ := foldlM_induction
    (P := fun rows s => Closes L mia b.options.shortBackingAsset rows s ∧ Gathers L mia price s)
    (fun call rows s s' hs hstep =>
      ⟨closeCallOrder_closes hs.1 hstep, closeCallOrder_gathers hs.1 hs.2 hstep⟩) _ _ _
    ⟨closes_start hs hb hlow hhigh, Gathers.start L mia price _⟩ hclosed
  have hnone : ∀ id c, M.callOrders.find id = some c → c.debtType ≠ mia :=
    fun id c hc hd => absurd (hcloses.open_rows id c hc hd) List.not_mem_nil
  have hpaid : M.settlementDues mia price = 0 :=
    Table.sum_eq_zero fun id c hc => if_neg (hnone id c hc)
  have hback : M.collateralBack mia price = 0 :=
    Table.sum_eq_zero fun id c hc => if_neg (hnone id c hc)
  have hpurses : M.purses = L.purses + L.collateralBack mia price := by
    rw [← hgathers.purses, hback, add_zero]
  have hbacking : ∀ id c, L.callOrders.find id = some c → c.debtType = mia →
      c.collateralType = b.options.shortBackingAsset := by
    intro id c hc hmia
    obtain ⟨b', hb', hcollateral, -⟩ := (hs.callOrders id c hc).backed
    obtain rfl : b' = b := Except.ok.inj (hb'.symm.trans (hmia.symm ▸ hb))
    exact hcollateral.symm
  have hbalance : ∀ owner id, (M.getBalance owner id).amount = (L.getBalance owner id).amount +
      if id = b.options.shortBackingAsset then L.collateralLeft mia price owner else 0 := by
    intro owner id
    rw [← collateralBack_balance hbacking owner id]
    exact congrFun hpurses (.balance owner id)
  refine ⟨b, settledData mia (L.supply mia) x b, hb, bitasset_set_self ha rfl, hunsettled, hnone,
    hgathers.others, ?_, fun owner => ?_, fun owner id hid => ?_, supply_set_self ha, rfl⟩
  · have hdues := hgathers.dues
    rw [hpaid, add_zero] at hdues
    exact hdues
  · have hat := hbalance owner b.options.shortBackingAsset
    rw [if_pos rfl] at hat
    exact hat
  · have hat := hbalance owner id
    rw [if_neg hid, add_zero] at hat
    exact Asset.ext hat ((getBalance_assetId M owner id).trans (getBalance_assetId L owner id).symm)

theorem supply_pos_iff {b : BitassetData} (hs : Shape L) (hb : L.bitasset mia = .ok b)
    (hunsettled : b.hasSettlement = false) :
    0 < L.supply mia ↔ ∃ id c, L.callOrders.find id = some c ∧ c.debtType = mia := by
  constructor
  · intro hpos
    by_contra hnone
    push Not at hnone
    exact absurd (supply_eq_zero hs hb hunsettled hnone) (ne_of_gt hpos)
  · rintro ⟨id, c, hc, hmia⟩
    have hle : c.getDebt.amountIn mia ≤ L.totalDebt mia := by
      refine Table.le_sum hc fun j d hd => ?_
      unfold Asset.amountIn
      split
      · exact le_of_lt (hs.callOrders j d hd).debt_pos
      · exact le_refl 0
    rw [Asset.amountIn, if_pos (show c.getDebt.assetId = mia from hmia),
      totalDebt_eq_supply hs hb hunsettled] at hle
    exact lt_of_lt_of_le (hs.callOrders id c hc).debt_pos hle

theorem settlementDues_pos_iff {b : BitassetData} (hs : Shape L) (hb : L.bitasset mia = .ok b)
    (hunsettled : b.hasSettlement = false) :
    0 < L.settlementDues mia price ↔ 0 < L.supply mia ∧ 0 < price.rate mia := by
  have hpays : ∀ id c, L.callOrders.find id = some c → c.debtType = mia →
      (0 < c.pays price ↔ 0 < price.rate mia) := by
    intro id c hc hmia
    rw [← hmia]
    exact CallOrder.pays_pos_iff (hs.callOrders id c hc).debt_pos
      (hs.callOrders id c hc).collateral_pos
  rw [supply_pos_iff hs hb hunsettled]
  constructor
  · intro hdues
    -- without a position that pays, nothing is paid
    by_contra hnot
    refine absurd hdues (not_lt.mpr (neg_nonneg.mp ?_))
    rw [settlementDues, ← Table.sum_neg]
    refine Table.sum_nonneg fun id c hc => ?_
    split
    · rename_i hmia
      have hzero : ¬0 < c.pays price := fun h =>
        hnot ⟨⟨id, c, hc, hmia⟩, (hpays id c hc hmia).mp h⟩
      omega
    · exact le_of_eq neg_zero.symm
  · rintro ⟨⟨id, c, hc, hmia⟩, hrate⟩
    have hle := Table.le_sum (f := fun _ c => if c.debtType = mia then c.pays price else 0) hc
      fun j d hd => by
        split
        · rename_i hd'
          exact le_of_lt ((hpays j d hd hd').mpr hrate)
        · exact le_refl 0
    rw [if_pos hmia] at hle
    exact lt_of_lt_of_le ((hpays id c hc hmia).mpr hrate) hle

end Ledger

/-! ### Reachable ledgers -/

/-- In every ledger that a run reaches, a global settlement that completes closes all positions, and
the price that it records has two positive sides if and only if there is a supply of the asset and
the price that it is settled at is positive. -/
theorem globally_settled_iff {L₀ L L' : Ledger} {mia : AssetId} {price : Price} (h₀ : Genesis L₀)
    (hrun : Run L₀ L) (h : L.globallySettleAsset mia price = .ok L') :
    SettledGlobally mia price L L' ↔ 0 < L.supply mia ∧ 0 < price.rate mia := by
  have hs := (Run.balanced h₀.balanced hrun).shape
  obtain ⟨b, b', hb, hb', hunsettled, hclosed⟩ := globallySettleAsset_closed hs h
  have hbase : b'.settlementPrice.base.amount = L.supply mia := by rw [hclosed.price]
  have hquote : b'.settlementPrice.quote.amount = L.settlementDues mia price := by
    rw [hclosed.price, ← hclosed.fund]
  rw [← settlementDues_pos_iff hs hb hunsettled]
  constructor
  · rintro ⟨-, c', -, hc', -, -, hpos⟩
    obtain rfl : b' = c' := Except.ok.inj (hb'.symm.trans hc')
    rwa [hquote] at hpos
  · intro hdues
    have hsupply := ((settlementDues_pos_iff hs hb hunsettled).mp hdues).1
    exact ⟨b, b', hb, hb', hclosed, hbase ▸ hsupply, hquote ▸ hdues⟩

/-- Two accounts borrow dollars. -/
def borrowedDollars : Attempt Ledger :=
  (freshLedger 1600000000 [1000, 1000] [dollar]).perform 5
    [.callOrderUpdate ⟨⟨0, 0⟩, 0, ⟨300, 0⟩, ⟨100, 1⟩, none⟩,
      .callOrderUpdate ⟨⟨0, 0⟩, 1, ⟨180, 0⟩, ⟨55, 1⟩, none⟩]

theorem borrowedDollars_genesis : Genesis (freshLedger 1600000000 [1000, 1000] [dollar]) :=
  freshLedger_genesis (by decide) (by decide) (by decide)

/-- The operation of the issuer that settles the dollars globally. -/
def settleDollars (price : Price) : AssetGlobalSettle := ⟨⟨0, 0⟩, 1, 1, price⟩

/-- Settled at three for two, the dollars are paid for with `150 + 83`. -/
theorem globally_settled_two_positions : ∃ L L' b, borrowedDollars = .ok L ∧
    L.globallySettleAsset 1 ⟨⟨2, 1⟩, ⟨3, 0⟩⟩ = .ok L' ∧
    SettledGlobally 1 ⟨⟨2, 1⟩, ⟨3, 0⟩⟩ L L' ∧ L'.bitasset 1 = .ok b ∧ b.settlementFund = 233 := by
  have hrun : borrowedDollars.toOption.any (fun L => 0 < L.supply 1 ∧
      (L.globallySettleAsset 1 ⟨⟨2, 1⟩, ⟨3, 0⟩⟩).toOption.any fun L' =>
        (L'.bitasset 1).toOption.any fun b => b.settlementFund = 233) = true := by decide +kernel
  obtain ⟨L, hL, hstate⟩ := exists_ok_of_any hrun
  obtain ⟨hsupply, hstate⟩ := of_decide_eq_true hstate
  obtain ⟨L', hL', hstate⟩ := exists_ok_of_any hstate
  obtain ⟨b, hb, hfund⟩ := exists_ok_of_any hstate
  exact ⟨L, L', b, hL, hL', (globally_settled_iff borrowedDollars_genesis (perform_run hL) hL').mpr
    ⟨hsupply, by norm_num [Price.rate]⟩, hb, of_decide_eq_true hfund⟩

/-- The operation is accepted with a price of zero: the positions pay nothing, and the fund that the
dollars are to be settled from is empty. -/
theorem globally_settled_for_nothing : ∃ L₀ L L' M, Genesis L₀ ∧ Run L₀ L ∧
    (settleDollars ⟨⟨2, 1⟩, ⟨0, 0⟩⟩).apply false L = .ok M ∧
    L.globallySettleAsset 1 ⟨⟨2, 1⟩, ⟨0, 0⟩⟩ = .ok L' ∧ 0 < L.supply 1 ∧
    ¬SettledGlobally 1 ⟨⟨2, 1⟩, ⟨0, 0⟩⟩ L L' := by
  have hrun : borrowedDollars.toOption.any (fun L => 0 < L.supply 1 ∧
      ((settleDollars ⟨⟨2, 1⟩, ⟨0, 0⟩⟩).apply false L).toOption.any (fun _ => true) ∧
      (L.globallySettleAsset 1 ⟨⟨2, 1⟩, ⟨0, 0⟩⟩).toOption.any fun L' =>
        (L'.bitasset 1).toOption.any fun b => b.settlementPrice.quote.amount = 0) = true := by
    decide +kernel
  obtain ⟨L, hL, hstate⟩ := exists_ok_of_any hrun
  obtain ⟨hsupply, happly, hstate⟩ := of_decide_eq_true hstate
  obtain ⟨M, hM, -⟩ := exists_ok_of_any happly
  obtain ⟨L', hL', hstate⟩ := exists_ok_of_any hstate
  obtain ⟨b, hb, hzero⟩ := exists_ok_of_any hstate
  refine ⟨_, L, L', M, borrowedDollars_genesis, perform_run hL, hM, hL', hsupply, ?_⟩
  rintro ⟨-, b', -, hb', -, -, hpos⟩
  obtain rfl : b = b' := Except.ok.inj (hb.symm.trans hb')
  exact absurd (of_decide_eq_true hzero) (ne_of_gt hpos)

end Nestchain.Market
