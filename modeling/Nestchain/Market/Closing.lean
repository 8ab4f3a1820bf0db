import Nestchain.Market.Trades
import Nestchain.Market.Supplies

/-! Global settlement and margin calls keep the books.  A global settlement closes every position of
its asset, since the call prices are all between `price::min` and `price::max`, so that no debt is
left and the fund holds what the positions paid. -/

namespace Nestchain.Market

open Lib

/-- A step that adds nothing to the books and keeps the shape of the ledger. -/
structure Keeps (L L' : Ledger) : Prop where
  books : L'.books = L.books
  shape : Shape L'

theorem Keeps.refl {L : Ledger} (h : Shape L) : Keeps L L := ⟨rfl, h⟩

theorem Keeps.trans {L L1 L2 : Ledger} (h : Keeps L L1) (h' : Keeps L1 L2) : Keeps L L2 :=
  ⟨h'.books.trans h.books, h'.shape⟩

theorem Turn.keeps {L L' : Ledger} (h : Turn L L' 0) : Keeps L L' :=
  ⟨h.books.trans (add_zero _), h.shape⟩

namespace Ledger

variable {L L' : Ledger}

/-! ### The indexes -/

theorem mem_sortRows {α : Type} {before : α → α → Prop} [DecidableRel before] {t : Table α}
    {r : Nat × α} : r ∈ sortRows before t ↔ t.find r.1 = some r.2 := by
  rw [sortRows, List.mem_insertionSort, Table.find_iff_mem]

theorem sortRows_nodup {α : Type} (before : α → α → Prop) [DecidableRel before] (t : Table α) :
    ((sortRows before t).map Prod.fst).Nodup := by
  unfold sortRows
  rw [((List.perm_insertionSort _ t.rows).map Prod.fst).nodup_iff, List.Nodup, List.pairwise_map]
  exact t.sorted.imp fun h => Nat.ne_of_lt h

theorem mem_callOrdersBetween {low high : Price} {r : Nat × CallOrder} :
    r ∈ L.callOrdersBetween low high ↔
      L.callOrders.find r.1 = some r.2 ∧ low ≤ r.2.callPrice ∧ r.2.callPrice ≤ high := by
  simp only [callOrdersBetween, callOrdersFrom, callOrdersByPrice, List.mem_filter, mem_sortRows,
    decide_eq_true_eq, and_assoc]

theorem callOrdersBetween_nodup (L : Ledger) (low high : Price) :
    ((L.callOrdersBetween low high).map Prod.fst).Nodup :=
  (sortRows_nodup _ L.callOrders).sublist
    ((List.filter_sublist.trans List.filter_sublist).map Prod.fst)

/-! ### Closing the positions -/

theorem adjustBalance_assets {account : AccountId} {delta : Asset}
    (h : L.adjustBalance account delta = .ok L') : L'.assets = L.assets := by
  unfold adjustBalance at h
  split at h
  · obtain rfl := pure_eq_ok.mp h
    rfl
  · split at h <;> simp only [bind_eq_ok, pure_eq_ok] at h <;> obtain ⟨-, -, rfl⟩ := h <;> rfl

theorem noteInOrders_assets {account : AccountId} {a : Asset}
    (h : L.noteInOrders account a = .ok L') : L'.assets = L.assets := by
  unfold noteInOrders at h
  split at h
  · simp only [addCoreInOrders, modifyStatistics, bind_eq_ok, pure_eq_ok] at h
    obtain ⟨-, -, rfl⟩ := h
    rfl
  · obtain rfl := pure_eq_ok.mp h
    rfl

theorem supply_congr (h : L'.assets = L.assets) (id : AssetId) : L'.supply id = L.supply id := by
  simp only [supply, h]

theorem fillCallOrder_supply {id : Nat} {pays receives : Asset} {r : Bool × Ledger}
    (h : L.fillCallOrder id pays receives = .ok r) :
    r.2.supply receives.assetId = L.supply receives.assetId - receives.amount := by
  simp only [fillCallOrder, bind_eq_ok] at h
  obtain ⟨c, -, -, -, -, -, -, -, mia, -, M1, h1, M2, h2, h⟩ := h
  have hM1 : M1.supply receives.assetId = L.supply receives.assetId - receives.amount := by
    simp only [modifyDynamicData, modifyAsset, asset, bind_eq_ok, demand_eq_ok, pure_eq_ok] at h1
    obtain ⟨a, ha, rfl⟩ := h1
    rw [supply_set_self ha, supply_of_find ha]
  have hM2 : M2.supply receives.assetId = L.supply receives.assetId - receives.amount :=
    (supply_congr (noteInOrders_assets h2) _).trans hM1
  split at h
  · simp only [bind_eq_ok, pure_eq_ok] at h
    obtain ⟨M3, h3, M4, h4, rfl⟩ := h
    have hassets : M4.assets = M2.assets :=
      (noteInOrders_assets h4).trans (adjustBalance_assets h3)
    exact (supply_congr hassets _).trans hM2
  · simp only [bind_eq_ok, pure_eq_ok] at h
    obtain ⟨p, -, rfl⟩ := h
    exact hM2

/-- What holds while the positions of `mia` are closed, with the rows that are left: what the
positions paid is on its way to the fund, and the positions that are open are in these rows. -/
structure Closes (L : Ledger) (mia backing : AssetId) (rows : List (Nat × CallOrder))
    (s : Ledger × Asset) : Prop where
  turn : Turn L s.1 (credit ⟨L.supply mia - s.1.supply mia, mia⟩ - credit s.2)
  gathered_asset : s.2.assetId = backing
  gathered_nonneg : 0 ≤ s.2.amount
  nodup : (rows.map Prod.fst).Nodup
  row_open : ∀ r ∈ rows, s.1.callOrders.find r.1 = some r.2 ∧ r.2.debtType = mia
  open_rows : ∀ id c, s.1.callOrders.find id = some c → c.debtType = mia → (id, c) ∈ rows

theorem closeCallOrder_closes {mia backing : AssetId} {price : Price} {call : Nat × CallOrder}
    {rows : List (Nat × CallOrder)} {s s' : Ledger × Asset}
    (hs : Closes L mia backing (call :: rows) s)
    (h : closeCallOrder price s call = .ok s') : Closes L mia backing rows s' := by
  simp only [closeCallOrder, bind_eq_ok, demand_eq_ok, require_eq_ok, exists_const,
    Asset.plus_eq_ok, pure_eq_ok] at h
  obtain ⟨c, hc, pays, hpays, paid, hpaid, gathered, ⟨hid, rfl⟩, r, hr, hdone, rfl⟩ := h
  obtain ⟨hfound, hdebt⟩ := hs.row_open call (List.mem_cons_self ..)
  obtain rfl : call.2 = c := Option.some.inj (hfound.symm.trans hc)
  obtain ⟨hturn, honly, hgone, -⟩ := fillCallOrder_turn hs.turn.shape
    (fun c' hc' => (Option.some.inj (hc'.symm.trans hc)) ▸ le_refl _) hr
  obtain ⟨-, -, -, -, hpaidCases⟩ := Asset.least_spec hpaid
  have hpaidNonneg : 0 ≤ paid.amount := by
    rcases hpaidCases with rfl | rfl
    · exact Asset.multiplyAndRoundUp_nonneg hpays
    · exact le_of_lt (hs.turn.shape.callOrders _ _ hc).collateral_pos
  obtain ⟨hnot, hnodup⟩ := List.nodup_cons.mp hs.nodup
  have hother : ∀ x ∈ rows, x.1 ≠ call.1 := fun x hx he =>
    hnot (he ▸ List.mem_map_of_mem hx)
  refine ⟨(hs.turn.trans hturn).congr ?_, hs.gathered_asset,
    add_nonneg hs.gathered_nonneg hpaidNonneg, hnodup, fun x hx => ?_, fun j c' hj hd => ?_⟩
  · have hsupply := fillCallOrder_supply hr
    have hasset : call.2.getDebt.assetId = mia := hdebt
    rw [hasset] at hsupply
    have hgathered : credit ⟨s.2.amount + paid.amount, s.2.assetId⟩ = credit s.2 + credit paid := by
      rw [credit_add]
      exact congrArg (fun id => credit s.2 + credit ⟨paid.amount, id⟩) hid
    have hcovered : credit call.2.getDebt = credit ⟨call.2.getDebt.amount, mia⟩ := by
      rw [← hasset]
    simp only [hsupply, hgathered, hcovered, credit_sub]
    abel
  · obtain ⟨hx1, hx2⟩ := hs.row_open x (List.mem_cons_of_mem _ hx)
    exact ⟨(honly.others x.1 (hother x hx)).trans hx1, hx2⟩
  · by_cases hjc : j = call.1
    · subst hjc
      rw [hgone hdone] at hj
      cases hj
    · rw [honly.others j hjc] at hj
      rcases List.mem_cons.mp (hs.open_rows j c' hj hd) with he | hmem
      · exact absurd (congrArg Prod.fst he) hjc
      · exact hmem

theorem closes_start {mia : AssetId} {b : BitassetData} {low high : Price} (hs : Shape L)
    (hb : L.bitasset mia = .ok b)
    (hlow : Price.smallest b.options.shortBackingAsset mia = .ok low)
    (hhigh : Price.greatest b.options.shortBackingAsset mia = .ok high) :
    Closes L mia b.options.shortBackingAsset (L.callOrdersBetween low high)
      (L, ⟨0, b.options.shortBackingAsset⟩) := by
  refine ⟨(Turn.refl hs).congr ?_, rfl, le_refl _, callOrdersBetween_nodup L low high,
    fun r hr => ?_, fun id c hc hd => ?_⟩
  · rw [sub_self, credit_zero, credit_zero, sub_zero]
  · obtain ⟨hfind, hge, hle⟩ := mem_callOrdersBetween.mp hr
    exact ⟨hfind, (Price.assets_of_between hlow hhigh hge hle).2⟩
  · have hsound := hs.callOrders id c hc
    obtain ⟨b', hb', hbacking, -⟩ := hsound.backed
    obtain rfl : b' = b := Except.ok.inj (hb'.symm.trans (hd.symm ▸ hb))
    rw [mem_callOrdersBetween]
    rw [hbacking, ← hd] at hlow hhigh
    exact ⟨hc, hsound.inRange.between hlow hhigh⟩

/-! ### A change of one asset -/

section

variable {id : AssetId} {a a' : AssetObject} {b b' : BitassetData}

theorem bitasset_set_self (ha : L.assets.find id = some a) (hb : a'.bitassetData = some b') :
    Ledger.bitasset { L with assets := L.assets.set id a' } id = .ok b' :=
  bitasset_eq_ok.mpr ⟨a', Table.find_set_self ha, hb⟩

theorem bitasset_set_ne {j : AssetId} (hj : j ≠ id) :
    Ledger.bitasset { L with assets := L.assets.set id a' } j = L.bitasset j := by
  simp only [bitasset, asset, Table.find_set_ne hj]

theorem books_setAsset (ha : L.assets.find id = some a) :
    Ledger.books { L with assets := L.assets.set id a' } = L.books - a.worth id + a'.worth id := by
  simp only [Ledger.books, Table.sum_set ha]
  abel

theorem Shape.setAsset (hs : Shape L) (ha : L.assets.find id = some a)
    (hb : a.bitassetData = some b) (hb' : a'.bitassetData = some b')
    (hbacking : b'.options.shortBackingAsset = b.options.shortBackingAsset) (hsound : b'.Sound id)
    (hsolvent : b'.hasSettlement = true → b'.Solvent a'.dynamicData.currentSupply)
    (hcalls : ∀ j c, L.callOrders.find j = some c → c.debtType = id → b'.hasSettlement = false)
    (hfees : 0 ≤ a'.dynamicData.accumulatedFees ∧ 0 ≤ a'.dynamicData.feePool)
    (hbooks : OnAssets (a'.worth id - a.worth id)) :
    Shape { L with assets := L.assets.set id a' } := by
  have hself := bitasset_set_self ha hb'
  have hold : L.bitasset id = .ok b := bitasset_eq_ok.mpr ⟨a, ha, hb⟩
  have hset : Ledger.books { L with assets := L.assets.set id a' } =
      L.books + (a'.worth id - a.worth id) := by
    rw [books_setAsset ha]
    abel
  refine ⟨hs.limitOrders, fun j c hc => ?_, hs.settlements, fun j d hd => ?_,
    { hs.nonneg with fees := fun j d hd => ?_ }, fun j d hd => ?_,
    fun j d hd hset => ?_, fun j => ?_, fun account => ?_⟩
  · obtain ⟨d, hd, hcoll, hunsettled⟩ := (hs.callOrders j c hc).backed
    refine { hs.callOrders j c hc with backed := ?_ }
    by_cases hj : c.debtType = id
    · rw [hj] at hd ⊢
      obtain rfl : d = b := Except.ok.inj (hd.symm.trans hold)
      exact ⟨b', hself, hbacking.trans hcoll, hcalls j c hc hj⟩
    · exact ⟨d, (bitasset_set_ne hj).trans hd, hcoll, hunsettled⟩
  · obtain ⟨e, he, hcoll⟩ := (hs.bids j d hd).backed
    refine { hs.bids j d hd with backed := ?_ }
    by_cases hj : d.debtType = id
    · rw [hj] at he ⊢
      obtain rfl : e = b := Except.ok.inj (he.symm.trans hold)
      exact ⟨b', hself, hbacking.trans hcoll⟩
    · exact ⟨e, (bitasset_set_ne hj).trans he, hcoll⟩
  · rcases (Table.find_set_iff ha).mp hd with ⟨-, rfl⟩ | ⟨-, hd⟩
    · exact hfees
    · exact hs.nonneg.fees j d hd
  · by_cases hj : j = id
    · subst hj
      exact Except.ok.inj (hself.symm.trans hd) ▸ hsound
    · exact hs.bitassets j d ((bitasset_set_ne hj).symm.trans hd)
  · by_cases hj : j = id
    · subst hj
      obtain rfl : b' = d := Except.ok.inj (hself.symm.trans hd)
      rw [supply_set_self ha]
      exact hsolvent hset
    · rw [supply_set_ne _ hj]
      exact hs.solvent j d ((bitasset_set_ne hj).symm.trans hd) hset
  · rw [hset, Pi.add_apply, hs.debts, hbooks.1, add_zero]
  · rw [hset, Pi.add_apply, hs.core, hbooks.2, add_zero]

end

theorem totalDebt_eq_supply {mia : AssetId} {b : BitassetData} (hs : Shape L)
    (hb : L.bitasset mia = .ok b) (hunsettled : b.hasSettlement = false) :
    L.totalDebt mia = L.supply mia := by
  obtain ⟨a, ha, hab⟩ := bitasset_eq_ok.mp hb
  have hdebts := hs.debts mia
  rw [books_debt, ha, sub_eq_zero] at hdebts
  rw [hdebts, supply_of_find ha]
  simp [hab, hunsettled]

theorem supply_eq_zero {mia : AssetId} {b : BitassetData} (hs : Shape L)
    (hb : L.bitasset mia = .ok b) (hunsettled : b.hasSettlement = false)
    (hnone : ∀ id c, L.callOrders.find id = some c → c.debtType ≠ mia) : L.supply mia = 0 := by
  rw [← totalDebt_eq_supply hs hb hunsettled]
  exact Table.sum_eq_zero fun id c hc => if_neg (hnone id c hc)

/-! ### Global settlement -/

/-- The settled bitasset data: the price is the supply over what the positions paid. -/
def settledData (mia : AssetId) (supply gathered : Int) (b : BitassetData) : BitassetData :=
  { b with
    settlementPrice := ⟨⟨supply, mia⟩, ⟨gathered, b.options.shortBackingAsset⟩⟩
    settlementFund := gathered }

theorem settledData_hasSettlement {mia : AssetId} (supply gathered : Int) {b : BitassetData}
    (hne : b.options.shortBackingAsset ≠ mia) :
    (settledData mia supply gathered b).hasSettlement = true := by
  have hnull : (settledData mia supply gathered b).settlementPrice.isNull = false := by
    rw [Bool.eq_false_iff]
    intro hnull
    rw [Price.isNull, Bool.and_eq_true] at hnull
    exact hne ((of_decide_eq_true hnull.2).trans (of_decide_eq_true hnull.1).symm)
  rw [BitassetData.hasSettlement, hnull]
  rfl

theorem callOrdersBetween_eq_nil {mia : AssetId} {b : BitassetData} {low high : Price}
    (hs : Shape L) (hb : L.bitasset mia = .ok b) (hunsettled : b.hasSettlement = false)
    (hlow : Price.smallest b.options.shortBackingAsset mia = .ok low)
    (hhigh : Price.greatest b.options.shortBackingAsset mia = .ok high)
    (hzero : L.supply mia = 0) : L.callOrdersBetween low high = [] := by
  rw [List.eq_nil_iff_forall_not_mem]
  intro r hr
  obtain ⟨hfind, hge, hle⟩ := mem_callOrdersBetween.mp hr
  have hdebt : r.2.debtType = mia := (Price.assets_of_between hlow hhigh hge hle).2
  have hpos := (hs.callOrders r.1 r.2 hfind).debt_pos
  have htotal : r.2.getDebt.amountIn mia ≤ L.totalDebt mia := by
    refine Table.le_sum hfind fun j c hc => ?_
    unfold Asset.amountIn
    split
    · exact le_of_lt (hs.callOrders j c hc).debt_pos
    · exact le_refl 0
  rw [Asset.amountIn, if_pos (show r.2.getDebt.assetId = mia from hdebt),
    totalDebt_eq_supply hs hb hunsettled, hzero] at htotal
  exact absurd hpos (not_lt.mpr htotal)

/-- A global settlement closes the positions one after the other, which leaves the ledger `M`, and
then writes the settlement to the asset, whose supply is as it was. -/
theorem globallySettleAsset_cases {mia : AssetId} {price : Price} (hs : Shape L)
    (h : L.globallySettleAsset mia price = .ok L') :
    ∃ b low high M a x, L.bitasset mia = .ok b ∧ b.hasSettlement = false ∧
      Price.smallest b.options.shortBackingAsset mia = .ok low ∧
      Price.greatest b.options.shortBackingAsset mia = .ok high ∧
      (L.callOrdersBetween low high).foldlM (closeCallOrder price)
        (L, ⟨0, b.options.shortBackingAsset⟩) = .ok (M, ⟨x, b.options.shortBackingAsset⟩) ∧
      Closes L mia b.options.shortBackingAsset [] (M, ⟨x, b.options.shortBackingAsset⟩) ∧
      M.assets.find mia = some a ∧ a.bitassetData = some b ∧
      L' = { M with assets := M.assets.set mia ⟨a.issuer, a.options,
        { a.dynamicData with currentSupply := L.supply mia },
        some (settledData mia (L.supply mia) x b)⟩ } := by
  simp only [globallySettleAsset, asset, bind_eq_ok, demand_eq_ok, require_eq_ok, exists_const,
    Price.ofAssets_eq_ok] at h
  obtain ⟨a, ha, b, hb, hunsettled, low, hlow, high, hhigh, closed, hclosed, price', ⟨-, rfl⟩, M1,
    h1,
    h2⟩ := h
  have hcloses := foldlM_induction
    (P := fun rows s => Closes L mia b.options.shortBackingAsset rows s)
    (fun call rows s s' hs hstep => closeCallOrder_closes hs hstep) _ _ _
    (closes_start hs hb hlow hhigh) hclosed
  have hasset : closed = (closed.1, ⟨closed.2.amount, b.options.shortBackingAsset⟩) := by
    rw [← hcloses.gathered_asset]
  have hfinal : closed.1.bitasset mia = .ok b := (hcloses.turn.bitasset mia).trans hb
  obtain ⟨a0, ha0, hab0⟩ := bitasset_eq_ok.mp hfinal
  simp only [modifyBitasset, modifyAsset, asset, bind_eq_ok, demand_eq_ok, pure_eq_ok] at h1
  obtain ⟨b1, hb1, a1, ha1, rfl⟩ := h1
  obtain rfl : b1 = b := Except.ok.inj (hb1.symm.trans hfinal)
  obtain rfl : a1 = a0 := Option.some.inj (ha1.symm.trans ha0)
  simp only [modifyDynamicData, modifyAsset, asset, bind_eq_ok, demand_eq_ok, pure_eq_ok,
    Table.find_set_self ha0, Option.some.injEq] at h2
  obtain ⟨-, rfl, rfl⟩ := h2
  refine ⟨b1, low, high, closed.1, a1, closed.2.amount, hb, hunsettled, hlow, hhigh,
    hasset ▸ hclosed, hasset ▸ hcloses, ha0, hab0, ?_⟩
  rw [Table.set_set, supply_of_find ha, settledData, ← hcloses.gathered_asset]

theorem globallySettleAsset_spec {mia : AssetId} {price : Price} (hs : Shape L)
    (h : L.globallySettleAsset mia price = .ok L') :
    ∃ b M a x, L.bitasset mia = .ok b ∧ b.hasSettlement = false ∧
      Closes L mia b.options.shortBackingAsset [] (M, ⟨x, b.options.shortBackingAsset⟩) ∧
      (L.supply mia = 0 → x = 0) ∧ M.assets.find mia = some a ∧ a.bitassetData = some b ∧
      L' = { M with assets := M.assets.set mia ⟨a.issuer, a.options,
        { a.dynamicData with currentSupply := L.supply mia },
        some (settledData mia (L.supply mia) x b)⟩ } := by
  obtain ⟨b, low, high, M, a, x, hb, hunsettled, hlow, hhigh, hclosed, hcloses, ha, hab, hL'⟩ :=
    globallySettleAsset_cases hs h
  refine ⟨b, M, a, x, hb, hunsettled, hcloses, fun hzero => ?_, ha, hab, hL'⟩
  rw [callOrdersBetween_eq_nil hs hb hunsettled hlow hhigh hzero, List.foldlM_nil,
    pure_eq_ok] at hclosed
  exact congrArg (fun s => s.2.amount) hclosed

theorem globallySettleAsset_keeps {mia : AssetId} {price : Price} (hs : Shape L)
    (h : L.globallySettleAsset mia price = .ok L') : Keeps L L' := by
  obtain ⟨b, M, a, x, hb, hunsettled, hcloses, hempty, ha, hab, rfl⟩ :=
    globallySettleAsset_spec hs h
  have hM := hcloses.turn.shape
  have hnone : ∀ id c, M.callOrders.find id = some c → c.debtType ≠ mia :=
    fun id c hc hd => nomatch hcloses.open_rows id c hc hd
  have hsound := hs.bitassets mia b hb
  have hzero : M.supply mia = 0 :=
    supply_eq_zero hM ((hcloses.turn.bitasset mia).trans hb) hunsettled hnone
  have hsettled := settledData_hasSettlement (L.supply mia) x hsound.backing_ne
  have hbooks : AssetObject.worth mia ⟨a.issuer, a.options,
      { a.dynamicData with currentSupply := L.supply mia },
      some (settledData mia (L.supply mia) x b)⟩ - a.worth mia =
        credit ⟨x, b.options.shortBackingAsset⟩ - credit ⟨L.supply mia, mia⟩ := by
    have hsupply := hzero
    rw [supply_of_find ha] at hsupply
    simp only [AssetObject.worth, hab, outstanding_settled _ hsettled,
      outstanding_unsettled _ hunsettled, fund, hsound.unsettled hunsettled, hsupply, credit_zero,
      entry_zero]
    simp only [settledData]
    abel
  refine ⟨?_, Shape.setAsset hM ha hab rfl rfl ?_ (fun _ => ?_)
    (fun j c hc hd => absurd hd (hnone j c hc)) (hM.nonneg.fees mia a ha) ?_⟩
  · rw [books_setAsset ha, sub_add_eq_add_sub, add_sub_assoc, hbooks, hcloses.turn.books, hzero,
      sub_zero]
    abel
  · exact ⟨hsound.backing_ne, fun h => absurd (hsettled.symm.trans h) Bool.noConfusion, fun _ =>
      rfl, fun _ => rfl,
      fun _ => hcloses.gathered_nonneg, hcloses.gathered_nonneg⟩
  · exact ⟨le_of_eq (mul_comm _ _), hempty⟩
  · rw [hbooks]
    exact (OnAssets.credit _).sub (OnAssets.credit _)

/-! ### Black swans and margin calls -/

theorem debt_nonneg_of_mul {c : CallOrder} {p : Price} {cost : Asset} (hp : p.Valid)
    (h : c.getDebt.mul p = .ok cost) : 0 ≤ c.debt := by
  obtain ⟨hbase, hquote, -⟩ := hp
  rcases Asset.mul_cases h with ⟨-, -, -, hn, -⟩ | ⟨-, -, -, -, hn, -⟩
  · exact nonneg_of_mul_nonneg_left hn hquote
  · exact nonneg_of_mul_nonneg_left hn hbase

section Invariant

variable {P : Ledger → Prop} {mia : AssetId} {enable : Bool}

theorem checkForBlackswan_invariant {r : Bool × Ledger}
    (hsettle : ∀ M M' price, P M → M.globallySettleAsset mia price = .ok M' → P M')
    (hL : P L) (h : L.checkForBlackswan mia enable = .ok r) : P r.2 := by
  simp only [checkForBlackswan, bind_eq_ok] at h
  obtain ⟨a, -, h⟩ := h
  split at h
  · exact pure_eq_ok.mp h ▸ hL
  · split at h
    · exact pure_eq_ok.mp h ▸ hL
    · split at h
      · exact pure_eq_ok.mp h ▸ hL
      · simp only [bind_eq_ok] at h
        obtain ⟨low, -, high, -, h⟩ := h
        split at h
        · exact pure_eq_ok.mp h ▸ hL
        · simp only [bind_eq_ok] at h
          obtain ⟨highest, -, least, -, h⟩ := h
          split at h
          · simp only [bind_eq_ok, require_eq_ok, exists_const, pure_eq_ok] at h
            obtain ⟨-, M, hM, rfl⟩ := h
            exact hsettle _ _ _ hL hM
          · exact pure_eq_ok.mp h ▸ hL

/-- What a global settlement and a margin call of a position with a debt keep, a round of
`check_call_orders` keeps. -/
theorem checkCallRound_invariant {rounds : Nat} {low high : Price} {s : Calling}
    {x : Calling ⊕ Bool × Ledger}
    (hsettle : ∀ M M' price, P M → M.globallySettleAsset mia price = .ok M' → P M')
    (hmargin : ∀ M call limit feed r, P M → (∀ c, M.callOrders.find call = some c → 0 ≤ c.debt) →
      marginCall rounds M call limit feed = .ok r → P r.2)
    (hs : P s.ledger) (h : checkCallRound rounds mia enable low high s = .ok x) :
    P (x.elim Calling.ledger Prod.snd) := by
  simp only [checkCallRound, bind_eq_ok] at h
  obtain ⟨swan, hswan, h⟩ := h
  have hfirst := checkForBlackswan_invariant hsettle hs hswan
  split at h
  · exact pure_eq_ok.mp h ▸ hfirst
  · split at h
    · exact pure_eq_ok.mp h ▸ hfirst
    · exact pure_eq_ok.mp h ▸ hfirst
    · rename_i call rest limit book hcalls _
      simp only [bind_eq_ok, require_eq_ok, exists_const] at h
      obtain ⟨o, -, hvalid, b, -, h⟩ := h
      split at h
      · exact pure_eq_ok.mp h ▸ hfirst
      · simp only [bind_eq_ok] at h
        obtain ⟨cost, hcost, less, -, h⟩ := h
        split at h
        · simp only [bind_eq_ok, pure_eq_ok] at h
          obtain ⟨-, -, M, hM, rfl⟩ := h
          exact hsettle _ _ _ hfirst hM
        · simp only [bind_eq_ok, pure_eq_ok] at h
          obtain ⟨called, hcalled, rfl⟩ := h
          refine hmargin _ _ _ _ _ hfirst (fun c hc => ?_) hcalled
          have hcall := (mem_callOrdersBetween.mp (hcalls ▸ List.mem_cons_self ..)).1
          obtain rfl : call.2 = c := Option.some.inj (hcall.symm.trans hc)
          exact debt_nonneg_of_mul hvalid hcost

theorem checkCallOrders_invariant {rounds : Nat} {r : Bool × Ledger}
    (hsettle : ∀ M M' price, P M → M.globallySettleAsset mia price = .ok M' → P M')
    (hmargin : ∀ M call limit feed r, P M → (∀ c, M.callOrders.find call = some c → 0 ≤ c.debt) →
      marginCall rounds M call limit feed = .ok r → P r.2)
    (hL : P L) (h : L.checkCallOrders rounds mia enable = .ok r) : P r.2 := by
  simp only [checkCallOrders, bind_eq_ok] at h
  obtain ⟨a, -, h⟩ := h
  split at h
  · exact pure_eq_ok.mp h ▸ hL
  · simp only [bind_eq_ok] at h
    obtain ⟨swan, hswan, h⟩ := h
    have hfirst := checkForBlackswan_invariant hsettle hL hswan
    split at h
    · exact pure_eq_ok.mp h ▸ hfirst
    · split at h
      · exact pure_eq_ok.mp h ▸ hfirst
      · split at h
        · exact pure_eq_ok.mp h ▸ hfirst
        · simp only [bind_eq_ok] at h
          obtain ⟨top, -, bottom, -, h⟩ := h
          split at h
          · exact pure_eq_ok.mp h ▸ hfirst
          · simp only [bind_eq_ok] at h
            obtain ⟨low, -, high, -, h⟩ := h
            exact loop_invariant (P := fun s => P s.ledger) (Q := fun r => P r.2)
              (fun s s' hs hround => checkCallRound_invariant hsettle hmargin hs hround)
              (fun s r hs hround => checkCallRound_invariant hsettle hmargin hs hround)
              _ _ _ hfirst h

end Invariant

theorem checkCallRound_keeps {rounds : Nat} {mia : AssetId} {enable : Bool} {low high : Price}
    {s : Calling} {x : Calling ⊕ Bool × Ledger} (hs : Shape s.ledger)
    (h : checkCallRound rounds mia enable low high s = .ok x) :
    Keeps s.ledger (x.elim Calling.ledger Prod.snd) :=
  checkCallRound_invariant
    (fun _ _ _ hM hsettled => hM.trans (globallySettleAsset_keeps hM.shape hsettled))
    (fun _ _ _ _ _ hM _ hcalled => hM.trans (marginCall_turn hM.shape hcalled).keeps)
    (Keeps.refl hs) h

theorem checkCallOrders_keeps {rounds : Nat} {mia : AssetId} {enable : Bool} {r : Bool × Ledger}
    (hs : Shape L) (h : L.checkCallOrders rounds mia enable = .ok r) : Keeps L r.2 :=
  checkCallOrders_invariant
    (fun _ _ _ hM hsettled => hM.trans (globallySettleAsset_keeps hM.shape hsettled))
    (fun _ _ _ _ _ hM _ hcalled => hM.trans (marginCall_turn hM.shape hcalled).keeps)
    (Keeps.refl hs) h

theorem modifyBitasset_keeps {mia : AssetId} {f : BitassetData → BitassetData} (hs : Shape L)
    (h : L.modifyBitasset mia f = .ok L') (hbacking : ∀ b, L.bitasset mia = .ok b →
      (f b).options.shortBackingAsset = b.options.shortBackingAsset)
    (hprice : ∀ b, (f b).settlementPrice = b.settlementPrice)
    (hfund : ∀ b, (f b).settlementFund = b.settlementFund) : Keeps L L' := by
  simp only [modifyBitasset, modifyAsset, asset, bind_eq_ok, demand_eq_ok, pure_eq_ok] at h
  obtain ⟨b, hb, a, ha, rfl⟩ := h
  obtain ⟨a', ha', hab⟩ := bitasset_eq_ok.mp hb
  obtain rfl : a' = a := Option.some.inj (ha'.symm.trans ha)
  have hset : (f b).hasSettlement = b.hasSettlement := by
    rw [BitassetData.hasSettlement, hprice]
    rfl
  have hworth : AssetObject.worth mia { a' with bitassetData := some (f b) } = a'.worth mia := by
    simp only [AssetObject.worth, fund, outstanding, hab, hfund, hbacking b hb, Option.any_some,
      hset]
  have hsound := hs.bitassets mia b hb
  refine ⟨?_, Shape.setAsset hs ha hab rfl (hbacking b hb) ?_ (fun hsettled => ?_)
    (fun j c hc hd => ?_) (hs.nonneg.fees mia a' ha) ?_⟩
  · rw [books_setAsset ha, hworth, sub_add_cancel]
  · refine ⟨?_, ?_, ?_, ?_, ?_, ?_⟩ <;>
      simp only [hbacking b hb, hset, hfund, hprice]
    · exact hsound.backing_ne
    · exact hsound.unsettled
    · exact hsound.base_asset
    · exact hsound.quote_asset
    · exact hsound.quote_nonneg
    · exact hsound.fund_nonneg
  · have hsolvent := hs.solvent mia b hb (hset ▸ hsettled)
    rw [supply_of_find ha] at hsolvent
    refine ⟨?_, ?_⟩ <;> rw [hfund]
    · rw [hprice]
      exact hsolvent.enough
    · exact hsolvent.emptied
  · obtain ⟨d, hd', -, hunsettled⟩ := (hs.callOrders j c hc).backed
    obtain rfl : d = b := Except.ok.inj (hd'.symm.trans (hd.symm ▸ hb))
    rw [hset, hunsettled]
  · rw [hworth, sub_self]
    exact OnAssets.zero

end Ledger

end Nestchain.Market
