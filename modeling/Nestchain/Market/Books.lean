import Nestchain.Market.Payments
import Mathlib.Algebra.Group.Pi.Lemmas

/-! The books of a ledger.  A ledger is read as three kinds of lines: what is held of an asset less
its supply, the debts in an asset less the supply that they back, and the core asset in the orders
of an account less what its statistics say.  Every object is worth something on these lines, and the
books are the sum.  A step of the code is then described by what it adds to the books. -/

namespace Nestchain.Market

open Lib

/-- The lines of the books. -/
inductive Line where
  | asset (id : AssetId)
  | debt (id : AssetId)
  | core (account : AccountId)
deriving DecidableEq

abbrev Books := Line → Int

/-- The amount `x` on the line `l`. -/
def entry (l : Line) (x : Int) : Books := Pi.single l x

theorem entry_add (l : Line) (x y : Int) : entry l (x + y) = entry l x + entry l y :=
  Pi.single_add (f := fun _ => Int) l x y

theorem entry_sub (l : Line) (x y : Int) : entry l (x - y) = entry l x - entry l y :=
  Pi.single_sub (f := fun _ => Int) l x y

theorem entry_neg (l : Line) (x : Int) : entry l (-x) = -entry l x :=
  Pi.single_neg (f := fun _ => Int) l x

@[simp] theorem entry_zero (l : Line) : entry l 0 = 0 := Pi.single_zero l

theorem entry_apply (l k : Line) (x : Int) : entry l x k = if k = l then x else 0 :=
  Pi.single_apply l x k

def credit (a : Asset) : Books := entry (.asset a.assetId) a.amount

theorem credit_add (x y : Int) (id : AssetId) : credit ⟨x + y, id⟩ = credit ⟨x, id⟩ + credit
    ⟨y, id⟩ :=
  entry_add _ _ _

theorem credit_sub (x y : Int) (id : AssetId) : credit ⟨x - y, id⟩ = credit ⟨x, id⟩ - credit
    ⟨y, id⟩ :=
  entry_sub _ _ _

@[simp] theorem credit_neg (a : Asset) : credit a.neg = -credit a := entry_neg _ _

@[simp] theorem credit_zero (id : AssetId) : credit ⟨0, id⟩ = 0 := entry_zero _

theorem credit_of_amount {a : Asset} (h : a.amount = 0) : credit a = 0 := by
  rw [credit, h, entry_zero]

/-- An amount in an order of an account, which counts when it is in the core asset. -/
def inOrders (account : AccountId) (a : Asset) : Books :=
  if a.assetId = coreAsset then entry (.core account) a.amount else 0

theorem inOrders_add (account : AccountId) (x y : Int) (id : AssetId) :
    inOrders account ⟨x + y, id⟩ = inOrders account ⟨x, id⟩ + inOrders account ⟨y, id⟩ := by
  unfold inOrders
  split
  · exact entry_add _ _ _
  · exact (add_zero 0).symm

theorem inOrders_sub (account : AccountId) (x y : Int) (id : AssetId) :
    inOrders account ⟨x - y, id⟩ = inOrders account ⟨x, id⟩ - inOrders account ⟨y, id⟩ := by
  unfold inOrders
  split
  · exact entry_sub _ _ _
  · exact (sub_zero 0).symm

@[simp] theorem inOrders_neg (account : AccountId) (a : Asset) :
    inOrders account a.neg = -inOrders account a := by
  unfold inOrders Asset.neg
  split
  · exact entry_neg _ _
  · exact neg_zero.symm

@[simp] theorem inOrders_zero (account : AccountId) (id : AssetId) :
    inOrders account ⟨0, id⟩ = 0 := by
  unfold inOrders
  split
  · exact entry_zero _
  · rfl

/-! ### The worth of an object -/

def AccountBalance.worth (b : AccountBalance) : Books := credit ⟨b.balance, b.assetType⟩

def LimitOrder.worth (o : LimitOrder) : Books :=
  credit o.amountForSale + inOrders o.seller o.amountForSale +
    (credit ⟨o.deferredFee, coreAsset⟩ + credit o.deferredPaidFee)

def CallOrder.worth (c : CallOrder) : Books :=
  credit c.getCollateral + inOrders c.borrower c.getCollateral + entry (.debt c.debtType) c.debt

def ForceSettlement.worth (s : ForceSettlement) : Books := credit s.balance

def CollateralBid.worth (b : CollateralBid) : Books := credit b.invSwanPrice.base

/-- The statistics of the account `id`. -/
def AccountStatistics.worth (id : AccountId) (s : AccountStatistics) : Books :=
  credit ⟨s.pendingFees, coreAsset⟩ + credit ⟨s.pendingVestedFees, coreAsset⟩ -
    entry (.core id) s.totalCoreInOrders

/-- The supply of the asset `id`, which counts against what is held of it and, when the debts back
it, against them. -/
def outstanding (id : AssetId) (b : Option BitassetData) (x : Int) : Books :=
  credit ⟨x, id⟩ + if b.any fun b => !b.hasSettlement then entry (.debt id) x else 0

/-- The settlement fund of a market-issued asset. -/
def fund : Option BitassetData → Books
  | none => 0
  | some b => credit ⟨b.settlementFund, b.options.shortBackingAsset⟩

def AssetObject.worth (id : AssetId) (a : AssetObject) : Books :=
  credit ⟨a.dynamicData.accumulatedFees, id⟩ + credit ⟨a.dynamicData.feePool, coreAsset⟩ +
    fund a.bitassetData - outstanding id a.bitassetData a.dynamicData.currentSupply

def Ledger.books (L : Ledger) : Books :=
  L.accounts.sum (fun id a => a.statistics.worth id) + L.assets.sum AssetObject.worth +
    L.balances.sum (fun _ b => b.worth) + L.limitOrders.sum (fun _ o => o.worth) +
    L.callOrders.sum (fun _ c => c.worth) + L.settlements.sum (fun _ s => s.worth) +
    L.bids.sum (fun _ b => b.worth)

/-! ### Payments -/

/-- `current_supply` of an asset. -/
def Ledger.supply (L : Ledger) (id : AssetId) : Int :=
  ((L.assets.find id).map fun a => a.dynamicData.currentSupply).getD 0

/-- The supplies of globally settled assets are the same. -/
def SettledSupply (L L' : Ledger) : Prop :=
  ∀ id b, L.bitasset id = .ok b → b.hasSettlement = true → L'.supply id = L.supply id

/-- No balance, fee or fee pool is negative. -/
structure Nonneg (accounts : Table Account) (assets : Table AssetObject)
    (balances : Table AccountBalance) : Prop where
  pending : ∀ id a, accounts.find id = some a →
    0 ≤ a.statistics.pendingFees ∧ 0 ≤ a.statistics.pendingVestedFees
  fees : ∀ id a, assets.find id = some a →
    0 ≤ a.dynamicData.accumulatedFees ∧ 0 ≤ a.dynamicData.feePool
  balances : ∀ id b, balances.find id = some b → 0 ≤ b.balance

/-- `L'` has the orders and the bitasset data of `L`, and `δ` more on its books: money has moved
between balances, fees and supplies. -/
structure Pays (L L' : Ledger) (δ : Books) : Prop where
  books : L'.books = L.books + δ
  bitasset : ∀ id, L'.bitasset id = L.bitasset id
  supply : SettledSupply L L'
  limitOrders : L'.limitOrders = L.limitOrders
  callOrders : L'.callOrders = L.callOrders
  settlements : L'.settlements = L.settlements
  bids : L'.bids = L.bids
  nonneg : Nonneg L.accounts L.assets L.balances → Nonneg L'.accounts L'.assets L'.balances

namespace Pays

theorem refl (L : Ledger) : Pays L L 0 :=
  ⟨(add_zero _).symm, fun _ => rfl, fun _ _ _ _ => rfl, rfl, rfl, rfl, rfl, fun h => h⟩

theorem trans {L L1 L2 : Ledger} {δ ε : Books} (h : Pays L L1 δ) (h' : Pays L1 L2 ε) :
    Pays L L2 (δ + ε) :=
  ⟨by rw [h'.books, h.books, add_assoc], fun id => (h'.bitasset id).trans (h.bitasset id),
    fun id b hb hset => (h'.supply id b ((h.bitasset id).trans hb) hset).trans
      (h.supply id b hb hset), h'.limitOrders.trans h.limitOrders, h'.callOrders.trans h.callOrders,
    h'.settlements.trans h.settlements, h'.bids.trans h.bids, fun hn => h'.nonneg (h.nonneg hn)⟩

theorem congr {L L1 : Ledger} {δ ε : Books} (h : Pays L L1 δ) (he : δ = ε) : Pays L L1 ε := he ▸ h

end Pays

namespace Ledger

variable {L L' : Ledger}

theorem adjustBalance_pays {account : AccountId} {delta : Asset}
    (h : L.adjustBalance account delta = .ok L') : Pays L L' (credit delta) := by
  unfold adjustBalance at h
  split at h
  · rename_i hzero
    obtain rfl := pure_eq_ok.mp h
    exact (Pays.refl L').congr (credit_of_amount hzero).symm
  · split at h
    · simp only [bind_eq_ok, require_eq_ok, exists_const, pure_eq_ok] at h
      obtain ⟨hpos, rfl⟩ := h
      refine ⟨?_, fun _ => rfl, fun _ _ _ _ => rfl, rfl, rfl, rfl, rfl,
        fun hn => { hn with balances := fun j d hd => ?_ }⟩
      · simp only [Ledger.books, Table.sum_create, AccountBalance.worth]
        abel
      · rcases Table.find_create_iff.mp hd with hd | ⟨-, rfl⟩
        · exact hn.balances j d hd
        · exact le_of_lt hpos
    · rename_i id b hfind
      simp only [bind_eq_ok, require_eq_ok, exists_const, pure_eq_ok] at h
      obtain ⟨henough, rfl⟩ := h
      obtain ⟨hb, hkey⟩ := Table.findBy_some hfind
      have hid : b.assetType = delta.assetId := (of_decide_eq_true hkey).2
      refine ⟨?_, fun _ => rfl, fun _ _ _ _ => rfl, rfl, rfl, rfl, rfl,
        fun hn => { hn with balances := fun j d hd => ?_ }⟩
      · simp only [Ledger.books, Table.sum_set hb, AccountBalance.worth, credit_add, hid]
        abel
      · rcases (Table.find_set_iff hb).mp hd with ⟨-, rfl⟩ | ⟨-, hd⟩
        · have hold := hn.balances id b hb
          show 0 ≤ b.balance + delta.amount
          by_cases hneg : delta.amount < 0
          · have := henough hneg
            omega
          · omega
        · exact hn.balances j d hd

theorem modifyStatistics_pays {account : AccountId} {f : AccountStatistics → AccountStatistics}
    {δ : Books} (hf : ∀ s, (f s).worth account = s.worth account + δ)
    (hfees : ∀ s, 0 ≤ s.pendingFees ∧ 0 ≤ s.pendingVestedFees →
      0 ≤ (f s).pendingFees ∧ 0 ≤ (f s).pendingVestedFees)
    (h : L.modifyStatistics account f = .ok L') : Pays L L' δ := by
  simp only [modifyStatistics, bind_eq_ok, demand_eq_ok, pure_eq_ok] at h
  obtain ⟨a, ha, rfl⟩ := h
  refine ⟨?_, fun _ => rfl, fun _ _ _ _ => rfl, rfl, rfl, rfl, rfl,
    fun hn => { hn with pending := fun j d hd => ?_ }⟩
  · simp only [Ledger.books, Table.sum_set ha, hf]
    abel
  · rcases (Table.find_set_iff ha).mp hd with ⟨-, rfl⟩ | ⟨-, hd⟩
    · exact hfees _ (hn.pending account a ha)
    · exact hn.pending j d hd

theorem payFee_pays {account : AccountId} {coreFee : Int} (hfee : 0 ≤ coreFee)
    (h : L.payFee account coreFee = .ok L') : Pays L L' (credit ⟨coreFee, coreAsset⟩) := by
  refine modifyStatistics_pays (fun s => ?_) (fun s hs => ?_) h
  · unfold AccountStatistics.payFee
    split <;> simp only [AccountStatistics.worth, credit_add] <;> abel
  · unfold AccountStatistics.payFee
    split
    · exact ⟨add_nonneg hs.1 hfee, hs.2⟩
    · exact ⟨hs.1, add_nonneg hs.2 hfee⟩

theorem noteInOrders_pays {account : AccountId} {a : Asset}
    (h : L.noteInOrders account a = .ok L') : Pays L L' (-inOrders account a) := by
  unfold noteInOrders at h
  split at h
  · rename_i hcore
    refine modifyStatistics_pays (fun s => ?_) (fun s hs => ?_) h
    · simp only [AccountStatistics.worth, entry_add, inOrders, if_pos hcore]
      abel
    · exact hs
  · rename_i hcore
    obtain rfl := pure_eq_ok.mp h
    refine (Pays.refl L').congr ?_
    rw [inOrders, if_neg hcore, neg_zero]

theorem bitasset_eq_ok {id : AssetId} {b : BitassetData} :
    L.bitasset id = .ok b ↔ ∃ a, L.assets.find id = some a ∧ a.bitassetData = some b := by
  simp only [bitasset, asset, bind_eq_ok, demand_eq_ok]

theorem bitasset_set_of_eq {id : AssetId} {a a' : AssetObject} (ha : L.assets.find id = some a)
    (hb : a'.bitassetData = a.bitassetData) (j : AssetId) :
    Ledger.bitasset { L with assets := L.assets.set id a' } j = L.bitasset j := by
  unfold bitasset asset
  by_cases hj : j = id
  · subst hj
    simp only [Table.find_set_self ha, ha, demand, bind, Except.bind, hb]
  · simp only [Table.find_set_ne hj]

theorem supply_of_find {id : AssetId} {a : AssetObject} (ha : L.assets.find id = some a) :
    L.supply id = a.dynamicData.currentSupply := by
  simp [supply, ha]

theorem supply_set_self {id : AssetId} {a a' : AssetObject} (ha : L.assets.find id = some a) :
    Ledger.supply { L with assets := L.assets.set id a' } id = a'.dynamicData.currentSupply :=
  supply_of_find (L := { L with assets := L.assets.set id a' }) (Table.find_set_self ha)

theorem supply_set_ne {id j : AssetId} (a' : AssetObject) (hj : j ≠ id) :
    Ledger.supply { L with assets := L.assets.set id a' } j = L.supply j := by
  simp only [supply, Table.find_set_ne hj]

theorem modifyDynamicData_pays {id : AssetId} {f : AssetDynamicData → AssetDynamicData}
    {δ : Books} (h : L.modifyDynamicData id f = .ok L')
    (hf : ∀ a, L.assets.find id = some a →
      AssetObject.worth id { a with dynamicData := f a.dynamicData } = a.worth id + δ)
    (hsupply : (∀ d, (f d).currentSupply = d.currentSupply) ∨
      ∃ b, L.bitasset id = .ok b ∧ b.hasSettlement = false)
    (hfees : ∀ a, L.assets.find id = some a →
      0 ≤ a.dynamicData.accumulatedFees ∧ 0 ≤ a.dynamicData.feePool →
        0 ≤ (f a.dynamicData).accumulatedFees ∧ 0 ≤ (f a.dynamicData).feePool) : Pays L L' δ := by
  simp only [modifyDynamicData, modifyAsset, asset, bind_eq_ok, demand_eq_ok, pure_eq_ok] at h
  obtain ⟨a, ha, rfl⟩ := h
  have hsame : (AssetObject.mk a.issuer a.options (f a.dynamicData) a.bitassetData).bitassetData =
    a.bitassetData := rfl
  refine ⟨?_, bitasset_set_of_eq ha hsame, fun j b hb hset => ?_, rfl, rfl, rfl, rfl,
    fun hn => { hn with fees := fun j d hd => ?_ }⟩
  · simp only [Ledger.books, Table.sum_set ha, hf a ha]
    abel
  · by_cases hj : j = id
    · subst hj
      rw [supply_set_self ha, supply_of_find ha]
      rcases hsupply with hsupply | ⟨b', hb', hunset⟩
      · exact hsupply _
      · obtain rfl : b = b' := Except.ok.inj (hb.symm.trans hb')
        rw [hset] at hunset
        cases hunset
    · exact supply_set_ne _ hj
  · rcases (Table.find_set_iff ha).mp hd with ⟨-, rfl⟩ | ⟨-, hd⟩
    · exact hfees a ha (hn.fees id a ha)
    · exact hn.fees j d hd

theorem addAccumulatedFees_pays {id : AssetId} {x : Int} (hx : 0 ≤ x)
    (h : L.modifyDynamicData id (fun d => { d with accumulatedFees := d.accumulatedFees + x }) =
      .ok L') : Pays L L' (credit ⟨x, id⟩) := by
  refine modifyDynamicData_pays h (fun a _ => ?_) (Or.inl fun _ => rfl)
    fun a _ ha => ⟨add_nonneg ha.1 hx, ha.2⟩
  simp only [AssetObject.worth, credit_add]
  abel

theorem addFeePool_pays {id : AssetId} {x : Int} (hx : 0 ≤ x)
    (h : L.modifyDynamicData id (fun d => { d with feePool := d.feePool + x }) = .ok L') :
    Pays L L' (credit ⟨x, coreAsset⟩) := by
  refine modifyDynamicData_pays h (fun a _ => ?_) (Or.inl fun _ => rfl)
    fun a _ ha => ⟨ha.1, add_nonneg ha.2 hx⟩
  simp only [AssetObject.worth, credit_add]
  abel

theorem outstanding_unsettled {id : AssetId} {b : BitassetData} (x : Int)
    (h : b.hasSettlement = false) :
    outstanding id (some b) x = credit ⟨x, id⟩ + entry (.debt id) x := by
  simp [outstanding, h]

theorem outstanding_settled {id : AssetId} {b : BitassetData} (x : Int)
    (h : b.hasSettlement = true) : outstanding id (some b) x = credit ⟨x, id⟩ := by
  simp [outstanding, h]

theorem addSupply_pays {id : AssetId} {b : BitassetData} {x : Int} (hb : L.bitasset id = .ok b)
    (hunsettled : b.hasSettlement = false)
    (h : L.modifyDynamicData id (fun d => { d with currentSupply := d.currentSupply + x }) =
      .ok L') : Pays L L' (-(credit ⟨x, id⟩ + entry (.debt id) x)) := by
  refine modifyDynamicData_pays h (fun a ha => ?_) (Or.inr ⟨b, hb, hunsettled⟩) fun _ _ ha => ha
  obtain ⟨a', ha', hab⟩ := bitasset_eq_ok.mp hb
  obtain rfl : a' = a := Option.some.inj (ha'.symm.trans ha)
  simp only [AssetObject.worth, hab, outstanding_unsettled _ hunsettled, credit_add, entry_add]
  abel

theorem subSupply_pays {id : AssetId} {b : BitassetData} {x : Int} (hb : L.bitasset id = .ok b)
    (hunsettled : b.hasSettlement = false)
    (h : L.modifyDynamicData id (fun d => { d with currentSupply := d.currentSupply - x }) =
      .ok L') : Pays L L' (credit ⟨x, id⟩ + entry (.debt id) x) := by
  refine modifyDynamicData_pays h (fun a ha => ?_) (Or.inr ⟨b, hb, hunsettled⟩) fun _ _ ha => ha
  obtain ⟨a', ha', hab⟩ := bitasset_eq_ok.mp hb
  obtain rfl : a' = a := Option.some.inj (ha'.symm.trans ha)
  simp only [AssetObject.worth, hab, outstanding_unsettled _ hunsettled, credit_sub, entry_sub]
  abel

end Ledger

end Nestchain.Market
