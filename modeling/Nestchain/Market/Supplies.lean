import Nestchain.Market.Books

/-! The sums that `verify_asset_supplies` of the tests compares: what is held of an asset with its
supply, the debts in an asset with its supply, and the core asset in the orders of an account with
its statistics.  They are the lines of the books. -/

namespace Nestchain.Market

open Lib

/-- The amount when it is in the asset `id`, and zero otherwise. -/
def Asset.amountIn (a : Asset) (id : AssetId) : Int := if a.assetId = id then a.amount else 0

theorem Asset.amountIn_nonneg {a : Asset} (id : AssetId) (h : 0 ≤ a.amount) :
    0 ≤ a.amountIn id := by
  unfold Asset.amountIn
  split
  · exact h
  · exact le_refl 0

namespace Ledger

variable (L : Ledger)

/-- `total_balances`: account balances, force settlements, collateral bids, limit orders with their
deferred fees, the collateral of call orders, accumulated fees, fee pools, settlement funds and
pending fees in the asset `id`. -/
def totalBalance (id : AssetId) : Int :=
  (L.balances.sum fun _ b => (Asset.mk b.balance b.assetType).amountIn id) +
  (L.settlements.sum fun _ s => s.balance.amountIn id) +
  (L.bids.sum fun _ b => b.invSwanPrice.base.amountIn id) +
  (L.limitOrders.sum fun _ o => o.amountForSale.amountIn id +
    (Asset.mk o.deferredFee coreAsset).amountIn id + o.deferredPaidFee.amountIn id) +
  (L.callOrders.sum fun _ c => c.getCollateral.amountIn id) +
  (L.assets.sum fun k a => (Asset.mk a.dynamicData.accumulatedFees k).amountIn id +
    (Asset.mk a.dynamicData.feePool coreAsset).amountIn id +
    match a.bitassetData with
    | none => 0
    | some b => (Asset.mk b.settlementFund b.options.shortBackingAsset).amountIn id) +
  (L.accounts.sum fun _ a => (Asset.mk a.statistics.pendingFees coreAsset).amountIn id +
    (Asset.mk a.statistics.pendingVestedFees coreAsset).amountIn id)

/-- `total_debts`: the debts of the call orders in the asset `id`. -/
def totalDebt (id : AssetId) : Int := L.callOrders.sum fun _ c => c.getDebt.amountIn id

/-- The core asset in the limit orders and call orders of an account. -/
def coreInOrders (account : AccountId) : Int :=
  (L.limitOrders.sum fun _ o =>
    if o.seller = account then o.amountForSale.amountIn coreAsset else 0) +
  L.callOrders.sum fun _ c =>
    if c.borrower = account then c.getCollateral.amountIn coreAsset else 0

/-- What the statistics of an account say of its orders. -/
def reportedCoreInOrders (account : AccountId) : Int :=
  ((L.accounts.find account).map fun a => a.statistics.totalCoreInOrders).getD 0

end Ledger

/-! ### The lines of the books -/

@[simp] theorem credit_asset (a : Asset) (id : AssetId) :
    credit a (.asset id) = a.amountIn id := by
  simp [credit, entry_apply, Asset.amountIn, eq_comm]

@[simp] theorem credit_debt (a : Asset) (id : AssetId) : credit a (.debt id) = 0 := by
  simp [credit, entry_apply]

@[simp] theorem credit_core (a : Asset) (account : AccountId) : credit a (.core account) = 0 := by
  simp [credit, entry_apply]

@[simp] theorem inOrders_asset (account : AccountId) (a : Asset) (id : AssetId) :
    inOrders account a (.asset id) = 0 := by
  unfold inOrders
  split <;> simp [entry_apply]

@[simp] theorem inOrders_debt (account : AccountId) (a : Asset) (id : AssetId) :
    inOrders account a (.debt id) = 0 := by
  unfold inOrders
  split <;> simp [entry_apply]

@[simp] theorem inOrders_core (owner : AccountId) (a : Asset) (account : AccountId) :
    inOrders owner a (.core account) = if owner = account then a.amountIn coreAsset else 0 := by
  unfold inOrders Asset.amountIn
  split <;> simp [entry_apply, eq_comm]

@[simp] theorem outstanding_asset (k : AssetId) (b : Option BitassetData) (x : Int)
    (id : AssetId) : outstanding k b x (.asset id) = if k = id then x else 0 := by
  unfold outstanding
  split <;> simp [entry_apply, Asset.amountIn]

@[simp] theorem outstanding_debt (k : AssetId) (b : Option BitassetData) (x : Int)
    (id : AssetId) : outstanding k b x (.debt id) =
      if k = id then (if b.any fun b => !b.hasSettlement then x else 0) else 0 := by
  unfold outstanding
  split <;> simp [entry_apply, eq_comm]

@[simp] theorem outstanding_core (k : AssetId) (b : Option BitassetData) (x : Int)
    (account : AccountId) : outstanding k b x (.core account) = 0 := by
  unfold outstanding
  split <;> simp [entry_apply]

theorem sum_apply {α : Type} (t : Table α) (f : Nat → α → Books) (l : Line) :
    t.sum f l = t.sum fun id a => f id a l :=
  Table.map_sum (Pi.evalAddMonoidHom (fun _ : Line => Int) l) t f

namespace Ledger

variable (L : Ledger)

theorem books_asset (id : AssetId) :
    L.books (.asset id) = L.totalBalance id - L.supply id := by
  have hsupply : L.supply id =
      L.assets.sum fun k a => if k = id then a.dynamicData.currentSupply else 0 :=
    (Table.sum_ite_eq L.assets id _).symm
  have haccounts : (L.accounts.sum fun k a => a.statistics.worth k (.asset id)) =
      L.accounts.sum fun _ a => (Asset.mk a.statistics.pendingFees coreAsset).amountIn id +
        (Asset.mk a.statistics.pendingVestedFees coreAsset).amountIn id :=
    Table.sum_congr fun k a _ => by simp [AccountStatistics.worth, entry_apply]
  have hassets : (L.assets.sum fun k a => a.worth k (.asset id)) =
      (L.assets.sum fun k a => (Asset.mk a.dynamicData.accumulatedFees k).amountIn id +
        (Asset.mk a.dynamicData.feePool coreAsset).amountIn id +
        match a.bitassetData with
        | none => 0
        | some b => (Asset.mk b.settlementFund b.options.shortBackingAsset).amountIn id) -
      L.supply id := by
    rw [hsupply, ← Table.sum_sub]
    refine Table.sum_congr fun k a _ => ?_
    cases hb : a.bitassetData <;> simp [AssetObject.worth, fund, hb]
  have hlimit : (L.limitOrders.sum fun _ o => o.worth (.asset id)) =
      L.limitOrders.sum fun _ o => o.amountForSale.amountIn id +
        (Asset.mk o.deferredFee coreAsset).amountIn id + o.deferredPaidFee.amountIn id :=
    Table.sum_congr fun k o _ => by simp [LimitOrder.worth, add_assoc]
  have hcall : (L.callOrders.sum fun _ c => c.worth (.asset id)) =
      L.callOrders.sum fun _ c => c.getCollateral.amountIn id :=
    Table.sum_congr fun k c _ => by simp [CallOrder.worth, entry_apply]
  simp only [books, Pi.add_apply, sum_apply, haccounts, hassets, hlimit, hcall, totalBalance,
    AccountBalance.worth, ForceSettlement.worth, CollateralBid.worth, credit_asset]
  omega

theorem books_debt (id : AssetId) :
    L.books (.debt id) = L.totalDebt id -
      ((L.assets.find id).map fun a => if a.bitassetData.any fun b => !b.hasSettlement
        then a.dynamicData.currentSupply else 0).getD 0 := by
  have hassets : (L.assets.sum fun k a => a.worth k (.debt id)) =
      -(L.assets.sum fun k a => if k = id then (if a.bitassetData.any fun b => !b.hasSettlement
        then a.dynamicData.currentSupply else 0) else 0) := by
    rw [← Table.sum_neg]
    refine Table.sum_congr fun k a _ => ?_
    cases hb : a.bitassetData <;> simp [AssetObject.worth, fund, hb]
  have haccounts : (L.accounts.sum fun k a => a.statistics.worth k (.debt id)) = 0 :=
    Table.sum_eq_zero fun k a _ => by simp [AccountStatistics.worth, entry_apply]
  have hbalances : (L.balances.sum fun _ b => b.worth (.debt id)) = 0 :=
    Table.sum_eq_zero fun k b _ => by simp [AccountBalance.worth]
  have hlimit : (L.limitOrders.sum fun _ o => o.worth (.debt id)) = 0 :=
    Table.sum_eq_zero fun k o _ => by simp [LimitOrder.worth]
  have hcall : (L.callOrders.sum fun _ c => c.worth (.debt id)) = L.totalDebt id :=
    Table.sum_congr fun k c _ => by
      simp [CallOrder.worth, CallOrder.getDebt, Asset.amountIn, entry_apply, eq_comm]
  have hsettle : (L.settlements.sum fun _ s => s.worth (.debt id)) = 0 :=
    Table.sum_eq_zero fun k s _ => by simp [ForceSettlement.worth]
  have hbids : (L.bids.sum fun _ b => b.worth (.debt id)) = 0 :=
    Table.sum_eq_zero fun k b _ => by simp [CollateralBid.worth]
  simp only [books, Pi.add_apply, sum_apply, haccounts, hassets, hbalances, hlimit, hcall, hsettle,
    hbids, Table.sum_ite_eq]
  omega

theorem books_core (account : AccountId) :
    L.books (.core account) = L.coreInOrders account - L.reportedCoreInOrders account := by
  have haccounts : (L.accounts.sum fun k a => a.statistics.worth k (.core account)) =
      -L.reportedCoreInOrders account := by
    rw [reportedCoreInOrders, ← Table.sum_ite_eq, ← Table.sum_neg]
    refine Table.sum_congr fun k a _ => ?_
    simp [AccountStatistics.worth, entry_apply, eq_comm]
  have hassets : (L.assets.sum fun k a => a.worth k (.core account)) = 0 :=
    Table.sum_eq_zero fun k a _ => by
      cases hb : a.bitassetData <;> simp [AssetObject.worth, fund, hb]
  have hbalances : (L.balances.sum fun _ b => b.worth (.core account)) = 0 :=
    Table.sum_eq_zero fun k b _ => by simp [AccountBalance.worth]
  have hlimit : (L.limitOrders.sum fun _ o => o.worth (.core account)) =
      L.limitOrders.sum fun _ o =>
        if o.seller = account then o.amountForSale.amountIn coreAsset else 0 :=
    Table.sum_congr fun k o _ => by simp [LimitOrder.worth]
  have hcall : (L.callOrders.sum fun _ c => c.worth (.core account)) =
      L.callOrders.sum fun _ c =>
        if c.borrower = account then c.getCollateral.amountIn coreAsset else 0 :=
    Table.sum_congr fun k c _ => by simp [CallOrder.worth, entry_apply]
  have hsettle : (L.settlements.sum fun _ s => s.worth (.core account)) = 0 :=
    Table.sum_eq_zero fun k s _ => by simp [ForceSettlement.worth]
  have hbids : (L.bids.sum fun _ b => b.worth (.core account)) = 0 :=
    Table.sum_eq_zero fun k b _ => by simp [CollateralBid.worth]
  simp only [books, Pi.add_apply, sum_apply, haccounts, hassets, hbalances, hlimit, hcall, hsettle,
    hbids, coreInOrders]
  omega

end Ledger

end Nestchain.Market
