import Nestchain.Market.Total
import Nestchain.Market.Solvency

/-! The revival of a globally settled asset by a price feed: when the publication of a feed can
decide on it, and when the revival then completes. -/

namespace Nestchain.Market

open Lib

namespace Ledger

variable {L M N : Ledger} {mia : AssetId}

/-! ### Refunds -/

/-- What the bids for `mia` of an account hold of the asset `id`. -/
def bidsOf (L : Ledger) (mia : AssetId) (account : AccountId) (id : AssetId) : Int :=
  L.bids.sum fun _ d => if d.debtType = mia ∧ d.bidder = account
    then d.invSwanPrice.base.amountIn id else 0

/-- What holds when the bids in `done` are cancelled. -/
structure Refunds (N : Ledger) (mia : AssetId) (done : List (Nat × CollateralBid)) (M : Ledger) :
    Prop where
  assets : M.assets = N.assets
  callOrders : M.callOrders = N.callOrders
  bids : ∀ id, M.bids.find id = if id ∈ done.map Prod.fst then none else N.bids.find id
  balances : ∀ account id, (M.getBalance account id).amount + M.bidsOf mia account id =
    (N.getBalance account id).amount + N.bidsOf mia account id

theorem cancelBid_refunds {bid : Nat × CollateralBid} {done : List (Nat × CollateralBid)}
    (h : Refunds N mia done M) (hbid : N.bids.find bid.1 = some bid.2) (hmia : bid.2.debtType = mia)
    (hnonneg : 0 ≤ bid.2.invSwanPrice.base.amount) (hnew : bid.1 ∉ done.map Prod.fst) :
    ∃ M', M.cancelBid bid.1 = .ok M' ∧ Refunds N mia (done ++ [bid]) M' := by
  have hfind : M.bids.find bid.1 = some bid.2 := by rw [h.bids, if_neg hnew, hbid]
  obtain ⟨R, hR⟩ := adjustBalance_ok M bid.2.bidder hnonneg
  have hfunds := adjustBalance_funds hR
  have hcancel : M.cancelBid bid.1 = .ok { R with bids := R.bids.remove bid.1 } := by
    simp only [cancelBid, bind_eq_ok, demand_eq_ok, pure_eq_ok]
    exact ⟨bid.2, hfind, R, hR, rfl⟩
  refine ⟨_, hcancel, ?_, ?_, fun id => ?_, fun account id => ?_⟩
  · exact (adjustBalance_assets hR).trans h.assets
  · exact hfunds.callOrders.trans h.callOrders
  · by_cases hid : id = bid.1
    · subst hid
      rw [if_pos (List.mem_map_of_mem (List.mem_append_right done (List.mem_singleton_self bid)))]
      exact Table.find_remove_self _ _
    · show (R.bids.remove bid.1).find id = _
      have hmem : id ∈ (done ++ [bid]).map Prod.fst ↔ id ∈ done.map Prod.fst := by simp [hid]
      rw [Table.find_remove_ne hid, hfunds.bids, h.bids]
      simp only [hmem]
  · rw [← h.balances account id]
    have hbalance := adjustBalance_getBalance hR account id
    have hsum : bidsOf { R with bids := R.bids.remove bid.1 } mia account id =
        M.bidsOf mia account id - if bid.2.debtType = mia ∧ bid.2.bidder = account
          then bid.2.invSwanPrice.base.amountIn id else 0 := by
      rw [bidsOf, hfunds.bids]
      exact Table.sum_remove hfind _
    show (R.getBalance account id).amount + _ = _
    rw [hbalance, hsum]
    by_cases haccount : account = bid.2.bidder
    · subst haccount
      simp only [hmia, and_self, if_true]
      omega
    · simp only [haccount, Ne.symm haccount, and_false, if_false]
      omega

theorem bidsFor_inRange {d : CollateralBid} {backing : AssetId} {high : Price}
    (hhigh : Price.greatest backing mia = .ok high) (hmia : d.debtType = mia)
    (hbacking : d.invSwanPrice.base.assetId = backing) :
    d.invSwanPrice ≤ high ↔
      d.invSwanPrice.base.amount ≤ maxShareSupply * d.invSwanPrice.quote.amount := by
  simp only [Price.greatest, Price.ofAssets_eq_ok] at hhigh
  obtain ⟨-, rfl⟩ := hhigh
  have hquote : d.invSwanPrice.quote.assetId = mia := hmia
  have hless : (Price.mk ⟨maxShareSupply, backing⟩ ⟨1, mia⟩ < d.invSwanPrice) ↔
      maxShareSupply * d.invSwanPrice.quote.amount < d.invSwanPrice.base.amount := by
    show Price.Less _ _ ↔ _
    simp only [Price.Less, hbacking, hquote, lt_irrefl, true_and, false_or, one_mul]
    rw [mul_comm]
  show ¬_ ↔ _
  rw [hless, not_lt]

theorem cancelBids_ok (N : Ledger) (mia : AssetId) (high : Price)
    (hs : ∀ id d, N.bids.find id = some d → 0 ≤ d.invSwanPrice.base.amount) :
    ∃ M, (N.bidsFor mia high).foldlM (fun L r => L.cancelBid r.1) N = .ok M ∧
      Refunds N mia (N.bidsFor mia high) M := by
  have hnodup : ((N.bidsFor mia high).map Prod.fst).Nodup :=
    (sortRows_nodup _ N.bids).sublist ((List.filter_sublist).map _)
  have hstart : Refunds N mia [] N := ⟨rfl, rfl, fun _ => rfl, fun _ _ => rfl⟩
  obtain ⟨M, hM, done, hdone, hrefunds⟩ := foldlM_total
    (f := fun (L : Ledger) (r : Nat × CollateralBid) => L.cancelBid r.1)
    (P := fun rest M => ∃ done, N.bidsFor mia high = done ++ rest ∧ Refunds N mia done M)
    (fun bid rest M ⟨done, hdone, hM⟩ => by
      obtain ⟨hfind, hmia, -⟩ := mem_bidsFor.mp (hdone ▸ List.mem_append_right done
        (List.mem_cons_self ..) : bid ∈ N.bidsFor mia high)
      have hnew : bid.1 ∉ done.map Prod.fst := by
        rw [hdone, List.map_append, List.map_cons] at hnodup
        intro hin
        exact (List.nodup_append.mp hnodup).2.2 bid.1 hin bid.1 (List.mem_cons_self ..) rfl
      obtain ⟨M', hcancel, hM'⟩ := cancelBid_refunds hM hfind hmia (hs _ _ hfind) hnew
      exact ⟨M', hcancel, done ++ [bid], by rw [hdone, List.append_assoc]; rfl, hM'⟩)
    (N.bidsFor mia high) N ⟨[], rfl, hstart⟩
  rw [List.append_nil] at hdone
  exact ⟨M, hM, hdone ▸ hrefunds⟩

/-! ### Executed bids -/

/-- The ledger `N` after the execution of the bid `id` in `L`. -/
structure Executed (L N : Ledger) (id : Nat) (c : CallOrder) : Prop where
  accounts : ∀ j, (L.accounts.find j).isSome → (N.accounts.find j).isSome
  assets : N.assets = L.assets
  balances : N.balances = L.balances
  callOrders : N.callOrders = L.callOrders.create c
  bids : N.bids = L.bids.remove id

theorem noteInOrders_balances {account : AccountId} {a : Asset}
    (h : L.noteInOrders account a = .ok M) : M.balances = L.balances := by
  unfold noteInOrders at h
  split at h
  · simp only [addCoreInOrders, modifyStatistics, bind_eq_ok, pure_eq_ok] at h
    obtain ⟨-, -, rfl⟩ := h
    rfl
  · rw [pure_eq_ok.mp h]

theorem executeBid_ok {id : Nat} {d : CollateralBid} (debt : Int) {collateral : Int}
    (feed : PriceFeed) (hd : L.bids.find id = some d)
    (hcollateral : d.invSwanPrice.base.amount + collateral ≠ 0)
    (hbacking : d.invSwanPrice.base.assetId ≠ d.debtType)
    (hfree : ∀ j c, L.callOrders.find j = some c → c.debtType = d.debtType →
      c.borrower ≠ d.bidder)
    (hbidder : (L.accounts.find d.bidder).isSome) :
    ∃ p N, L.executeBid id debt collateral feed = .ok N ∧
      Price.callPrice ⟨debt, d.debtType⟩ ⟨d.invSwanPrice.base.amount + collateral,
        d.invSwanPrice.base.assetId⟩ feed.maintenanceCollateralRatio = .ok p ∧
      Executed L N id ⟨d.bidder, d.invSwanPrice.base.amount + collateral, debt, p, none⟩ := by
  obtain ⟨p, hp⟩ : ∃ p, Price.callPrice ⟨debt, d.debtType⟩ ⟨d.invSwanPrice.base.amount + collateral,
      d.invSwanPrice.base.assetId⟩ feed.maintenanceCollateralRatio = .ok p :=
    ⟨_, Price.callPrice_eq_ok.mpr ⟨hcollateral, hbacking, rfl⟩⟩
  obtain ⟨-, -, hquote, -⟩ := Price.callPrice_ids hp
  generalize hc : CallOrder.mk d.bidder (d.invSwanPrice.base.amount + collateral) debt p none = c
  have hcreate : L.createCallOrder c = .ok { L with callOrders := L.callOrders.create c } := by
    rw [createCallOrder, require, if_pos]
    · rfl
    · rw [Table.findBy, List.find?_eq_none]
      intro r hr hkey
      obtain ⟨hborrower, hdebt⟩ := of_decide_eq_true hkey
      subst hc
      exact hfree r.1 r.2 (Table.find_iff_mem.mpr hr) (hdebt.trans hquote) hborrower
  obtain ⟨N, hN⟩ := noteInOrders_ok (L := { L with callOrders := L.callOrders.create c })
    (a := ⟨d.invSwanPrice.base.amount + collateral, d.invSwanPrice.base.assetId⟩) hbidder
  have hfunds := noteInOrders_funds hN
  have hassets := noteInOrders_assets hN
  have hbalances := noteInOrders_balances hN
  refine ⟨p, { N with bids := N.bids.remove id }, ?_, hp, hfunds.accounts, hassets, hbalances,
    by rw [hc]; exact hfunds.callOrders, by rw [hfunds.bids]⟩
  simp only [executeBid, bind_eq_ok, demand_eq_ok, pure_eq_ok]
  exact ⟨d, hd, p, hp, _, hc.symm ▸ hcreate, N, hN, rfl⟩

/-! ### Revival -/

/-- The ledger `M'` after the revival of `mia` in `M`. -/
structure Revived (M M' : Ledger) (mia : AssetId) (a : AssetObject) (b : BitassetData) : Prop where
  bitasset : M'.bitasset mia = .ok (revivedData b)
  position : a.dynamicData.currentSupply ≠ 0 → ∃ p, M'.callOrders = M.callOrders.create
    ⟨a.issuer, b.settlementFund, a.dynamicData.currentSupply, p, none⟩
  positions : a.dynamicData.currentSupply = 0 → M'.callOrders = M.callOrders
  bids : ∀ id d, M'.bids.find id = some d → d.debtType ≠ mia
  refunds : ∀ account id, (M'.getBalance account id).amount =
    (M.getBalance account id).amount + M.bidsOf mia account id

section

variable {a : AssetObject} {b : BitassetData}

theorem bidsOf_eq_zero (h : ∀ id d, M.bids.find id = some d → d.debtType ≠ mia)
    (account : AccountId) (id : AssetId) : M.bidsOf mia account id = 0 :=
  Table.sum_eq_zero fun j d hd => if_neg fun hk => h j d hd hk.1

theorem cancelBidsAndReviveMpa_ok (ha : N.assets.find mia = some a) (hb : a.bitassetData = some b)
    (hset : b.hasSettlement = true) (hpm : b.isPredictionMarket = false)
    (hbacking : b.options.shortBackingAsset ≠ mia)
    (hsound : ∀ id d, N.bids.find id = some d → 0 ≤ d.invSwanPrice.base.amount ∧
      (d.debtType = mia → d.invSwanPrice.base.assetId = b.options.shortBackingAsset)) :
    ∃ M', N.cancelBidsAndReviveMpa mia mia = .ok M' ∧
      M'.bitasset mia = .ok (revivedData b) ∧ M'.callOrders = N.callOrders ∧
      (∀ account id, (M'.getBalance account id).amount + M'.bidsOf mia account id =
        (N.getBalance account id).amount + N.bidsOf mia account id) ∧
      ∀ id d, M'.bids.find id = some d ↔ N.bids.find id = some d ∧ (d.debtType = mia →
        maxShareSupply * d.invSwanPrice.quote.amount < d.invSwanPrice.base.amount) := by
  have hbit : N.bitasset mia = .ok b := bitasset_eq_ok.mpr ⟨a, ha, hb⟩
  obtain ⟨high, hhigh⟩ : ∃ high, Price.greatest b.options.shortBackingAsset mia = .ok high :=
    ⟨_, Price.ofAssets_eq_ok.mpr ⟨hbacking, rfl⟩⟩
  obtain ⟨M, hM, hrefunds⟩ := cancelBids_ok N mia high fun id d hd => (hsound id d hd).1
  have haM : M.assets.find mia = some a := hrefunds.assets ▸ ha
  refine ⟨{ M with assets := M.assets.set mia (revivedAsset a b) }, ?_, ?_,
    hrefunds.callOrders, hrefunds.balances, fun id d => ?_⟩
  · simp only [cancelBidsAndReviveMpa, bind_eq_ok, require_eq_ok, exists_const]
    refine ⟨b, hbit, b, hbit, hset, hpm, high, hhigh, M, hM, ?_⟩
    simp only [modifyBitasset, modifyAsset, asset, bind_eq_ok, demand_eq_ok, pure_eq_ok]
    exact ⟨b, bitasset_eq_ok.mpr ⟨a, haM, hb⟩, a, haM, rfl⟩
  · exact bitasset_set_self haM rfl
  · show M.bids.find id = some d ↔ _
    rw [hrefunds.bids]
    by_cases hin : id ∈ (N.bidsFor mia high).map Prod.fst
    · rw [if_pos hin]
      obtain ⟨r, hr, rfl⟩ := List.mem_map.mp hin
      obtain ⟨hfind, hmia, hle⟩ := mem_bidsFor.mp hr
      refine ⟨fun h => (by cases h), fun hin => ?_⟩
      obtain ⟨hd, hrange⟩ := hin
      obtain rfl : r.2 = d := Option.some.inj (hfind.symm.trans hd)
      have hback := (hsound _ _ hfind).2 hmia
      exact absurd ((bidsFor_inRange hhigh hmia hback).mp hle) (not_le.mpr (hrange hmia))
    · rw [if_neg hin]
      refine ⟨fun hd => ⟨hd, fun hmia => ?_⟩, fun h => h.1⟩
      by_contra hrange
      have hback := (hsound _ _ hd).2 hmia
      have hle := (bidsFor_inRange hhigh hmia hback).mpr (not_lt.mp hrange)
      have hmem : (id, d) ∈ N.bidsFor mia high := mem_bidsFor.mpr ⟨hd, hmia, hle⟩
      exact hin (List.mem_map.mpr ⟨(id, d), hmem, rfl⟩)

/-- The bids for an asset do not stand in the way of its revival: none of them is the issuer's own,
unless nothing is left of the supply, and the price of none is above `price::max`. -/
structure Revivable (M : Ledger) (mia : AssetId) (a : AssetObject) : Prop where
  issuer : a.dynamicData.currentSupply ≠ 0 → ∀ id d, M.bids.find id = some d →
    d.debtType = mia → d.bidder ≠ a.issuer
  found : ∀ id d, M.bids.find id = some d → d.debtType = mia →
    d.invSwanPrice.base.amount ≤ maxShareSupply * d.invSwanPrice.quote.amount

theorem bid_backed (hs : Shape M) (hb : M.bitasset mia = .ok b) {id : Nat}
    {d : CollateralBid} (hd : M.bids.find id = some d) : 0 ≤ d.invSwanPrice.base.amount ∧
      (d.debtType = mia → d.invSwanPrice.base.assetId = b.options.shortBackingAsset) := by
  have hsound := hs.bids id d hd
  refine ⟨hsound.collateral_nonneg, fun hmia => ?_⟩
  obtain ⟨b', hb', hbacking⟩ := hsound.backed
  rw [hmia, hb] at hb'
  rw [← hbacking, Except.ok.inj hb']

theorem createBid_ok {d : CollateralBid} (h : ∀ id e, M.bids.find id = some e →
    e.debtType = d.debtType → e.bidder ≠ d.bidder) :
    M.createBid d = .ok { M with bids := M.bids.create d } := by
  rw [createBid, require, if_pos]
  · rfl
  · rw [Table.findBy, List.find?_eq_none]
    intro r hr hkey
    obtain ⟨hdebt, hbidder⟩ := of_decide_eq_true hkey
    exact h r.1 r.2 (Table.find_iff_mem.mpr hr) hdebt hbidder

theorem debtType_ne_of_settled (hs : Shape M) (hbit : M.bitasset mia = .ok b)
    (hset : b.hasSettlement = true) {id : Nat} {c : CallOrder}
    (hc : M.callOrders.find id = some c) : c.debtType ≠ mia := by
  intro hmia
  obtain ⟨b', hb', -, hunset⟩ := (hs.callOrders id c hc).backed
  rw [hmia, hbit] at hb'
  rw [← Except.ok.inj hb', hset] at hunset
  cases hunset

theorem issuerBid_ok {d : CollateralBid} (hs : Shape M) (ho : Owned M)
    (ha : M.assets.find mia = some a) (hb : a.bitassetData = some b) (hset : b.hasSettlement = true)
    (hfund : b.settlementFund ≠ 0)
    (hd : CollateralBid.mk a.issuer ⟨⟨0, b.options.shortBackingAsset⟩,
      ⟨a.dynamicData.currentSupply, mia⟩⟩ = d) :
    ∃ p N, executeBid { M with bids := M.bids.create d } M.bids.next a.dynamicData.currentSupply
        b.settlementFund b.currentFeed = .ok N ∧
      Price.callPrice ⟨a.dynamicData.currentSupply, mia⟩ ⟨b.settlementFund,
        b.options.shortBackingAsset⟩ b.currentFeed.maintenanceCollateralRatio = .ok p ∧
      Executed { M with bids := M.bids.create d } N M.bids.next
        ⟨a.issuer, b.settlementFund, a.dynamicData.currentSupply, p, none⟩ := by
  have hbit : M.bitasset mia = .ok b := bitasset_eq_ok.mpr ⟨a, ha, hb⟩
  have hcollateral : d.invSwanPrice.base.amount + b.settlementFund ≠ 0 := by
    subst hd
    rwa [zero_add]
  have hexecute := executeBid_ok (L := { M with bids := M.bids.create d })
    a.dynamicData.currentSupply b.currentFeed (Table.find_create_self M.bids d) hcollateral
  subst hd
  simp only [zero_add] at hexecute
  refine hexecute (hs.bitassets mia b hbit).backing_ne (fun j c hc hdebt => ?_)
    (ho.issuers mia a ha)
  exact absurd hdebt (debtType_ne_of_settled hs hbit hset hc)

theorem reviveBitasset_ok (hs : Shape M) (ho : Owned M) (ha : M.assets.find mia = some a)
    (hb : a.bitassetData = some b) (hset : b.hasSettlement = true)
    (hpm : b.isPredictionMarket = false)
    (hnull : b.currentFeed.settlementPrice.isNull = false)
    (hsupply : 0 ≤ a.dynamicData.currentSupply)
    (hfund : a.dynamicData.currentSupply ≠ 0 → b.settlementFund ≠ 0)
    (hr : Revivable M mia a) :
    ∃ M', M.reviveBitasset mia = .ok M' ∧ Revived M M' mia a b := by
  have hbit : M.bitasset mia = .ok b := bitasset_eq_ok.mpr ⟨a, ha, hb⟩
  have hdata := hs.bitassets mia b hbit
  by_cases hzero : a.dynamicData.currentSupply = 0
  · -- nothing is left: the bids are cancelled
    obtain ⟨M', hM', hbitasset, hcalls, hbalances, hbids⟩ := cancelBidsAndReviveMpa_ok ha hb hset
      hpm hdata.backing_ne fun id d hd => bid_backed hs hbit hd
    have hgone : ∀ id d, M'.bids.find id = some d → d.debtType ≠ mia := by
      intro id d hd hmia
      obtain ⟨hfind, hrange⟩ := (hbids id d).mp hd
      exact absurd (hr.found id d hfind hmia) (not_le.mpr (hrange hmia))
    refine ⟨M', ?_, hbitasset, fun hne => absurd hzero hne, fun _ => hcalls, hgone,
      fun account id => ?_⟩
    · simp only [reviveBitasset, asset, bind_eq_ok, demand_eq_ok, require_eq_ok, exists_const]
      refine ⟨a, ha, b, hbit, hset, hpm, hnull, ?_⟩
      rw [if_neg (by omega)]
      simp only [bind_eq_ok, require_eq_ok, exists_const]
      have hsolvent := (hs.solvent mia b hbit hset).emptied
      rw [supply_of_find ha] at hsolvent
      exact ⟨hsolvent hzero, hM'⟩
    · rw [← hbalances account id, bidsOf_eq_zero hgone, add_zero]
  · -- the bid of the issuer takes the whole fund and the whole supply
    have hpos : 0 < a.dynamicData.currentSupply := lt_of_le_of_ne hsupply (Ne.symm hzero)
    generalize hd : CollateralBid.mk a.issuer ⟨⟨0, b.options.shortBackingAsset⟩,
      ⟨a.dynamicData.currentSupply, mia⟩⟩ = d
    have hcreate := createBid_ok (M := M) (d := d) (by subst hd; exact hr.issuer hzero)
    obtain ⟨p, N, hexecute, -, hN⟩ := issuerBid_ok hs ho ha hb hset (hfund hzero) hd
    obtain ⟨M', hM', hbitasset, hcalls, hbalances, hbids⟩ := cancelBidsAndReviveMpa_ok
      (hN.assets ▸ ha) hb hset hpm hdata.backing_ne fun id e he =>
        bid_backed hs hbit (Table.find_remove_create.mp (hN.bids ▸ he))
    have hgone : ∀ id e, M'.bids.find id = some e → e.debtType ≠ mia := by
      intro id e he hmia
      obtain ⟨hfind, hrange⟩ := (hbids id e).mp he
      rw [hN.bids] at hfind
      exact absurd (hr.found id e (Table.find_remove_create.mp hfind) hmia)
        (not_le.mpr (hrange hmia))
    refine ⟨M', ?_, hbitasset, fun _ => ⟨p, ?_⟩, fun h => absurd h hzero, hgone,
      fun account id => ?_⟩
    · simp only [reviveBitasset, asset, bind_eq_ok, demand_eq_ok, require_eq_ok, exists_const]
      refine ⟨a, ha, b, hbit, hset, hpm, hnull, ?_⟩
      rw [if_pos hpos]
      simp only [bind_eq_ok, Price.ofAssets_eq_ok]
      exact ⟨_, ⟨hdata.backing_ne, rfl⟩, _, hd.symm ▸ hcreate, N, hexecute, hM'⟩
    · rw [hcalls, hN.callOrders]
    · have hbalance := hbalances account id
      rw [bidsOf_eq_zero hgone, add_zero] at hbalance
      rw [hbalance, getBalance_congr hN.balances]
      have hsum : N.bidsOf mia account id = M.bidsOf mia account id := by
        rw [bidsOf, hN.bids, Table.sum_remove (Table.find_create_self M.bids d), Table.sum_create]
        exact add_sub_cancel_right _ _
      rw [hsum]
      rfl

theorem revivable_of_revived {M' : Ledger} (hs : Shape M) (ha : M.assets.find mia = some a)
    (hb : a.bitassetData = some b) (hset : b.hasSettlement = true)
    (hsupply : 0 ≤ a.dynamicData.currentSupply) (h : M.reviveBitasset mia = .ok M')
    (hrevived : Revived M M' mia a b) : Revivable M mia a := by
  have hbit : M.bitasset mia = .ok b := bitasset_eq_ok.mpr ⟨a, ha, hb⟩
  have hdata := hs.bitassets mia b hbit
  simp only [reviveBitasset, asset, bind_eq_ok, demand_eq_ok, require_eq_ok, exists_const] at h
  obtain ⟨a', ha', b', hb', -, hpm, -, h⟩ := h
  obtain rfl : a = a' := Option.some.inj (ha.symm.trans ha')
  obtain rfl : b = b' := Except.ok.inj (hbit.symm.trans hb')
  refine ⟨fun hne id d hd hmia hissuer => ?_, fun id d hd hmia => ?_⟩
  · rw [if_pos (lt_of_le_of_ne hsupply (Ne.symm hne))] at h
    simp only [bind_eq_ok, Price.ofAssets_eq_ok, createBid, require_eq_ok, exists_const] at h
    obtain ⟨price, ⟨-, rfl⟩, N, ⟨hfree, -⟩, -⟩ := h
    rw [Table.findBy, List.find?_eq_none] at hfree
    exact hfree (id, d) (Table.find_iff_mem.mp hd) (decide_eq_true ⟨hmia, hissuer⟩)
  · -- a bid with a higher price is not cancelled
    by_contra hrange
    have hkept : ∀ N : Ledger, N.assets.find mia = some a →
      N.cancelBidsAndReviveMpa mia mia = .ok M' →
        (∀ j e, N.bids.find j = some e ↔ M.bids.find j = some e) → False := by
      intro N haN hN hbids
      obtain ⟨N', hN', -, -, -, hiff⟩ := cancelBidsAndReviveMpa_ok haN hb hset hpm hdata.backing_ne
        fun j e he => bid_backed hs hbit ((hbids j e).mp he)
      obtain rfl : N' = M' := Except.ok.inj (hN'.symm.trans hN)
      exact hrevived.bids id d ((hiff id d).mpr
        ⟨(hbids id d).mpr hd, fun _ => not_le.mp hrange⟩) hmia
    split at h
    · simp only [bind_eq_ok, Price.ofAssets_eq_ok, createBid, require_eq_ok, exists_const,
        pure_eq_ok] at h
      obtain ⟨price, ⟨-, rfl⟩, N, ⟨-, rfl⟩, N', hN', h⟩ := h
      simp only [executeBid, createCallOrder, bind_eq_ok, demand_eq_ok, require_eq_ok,
        exists_const, pure_eq_ok] at hN'
      obtain ⟨e, -, p, -, N, ⟨-, rfl⟩, R, hR, rfl⟩ := hN'
      have hassets := noteInOrders_assets hR
      have hbids := (noteInOrders_funds hR).bids
      refine hkept _ (hassets.symm ▸ ha) h fun j e => ?_
      show (R.bids.remove M.bids.next).find j = some e ↔ _
      rw [hbids]
      exact Table.find_remove_create
    · simp only [bind_eq_ok] at h
      obtain ⟨-, -, h⟩ := h
      exact hkept M ha h fun _ _ => Iff.rfl

end

end Ledger

/-! ### Publications -/

open Ledger

namespace AssetPublishFeed

/-- A publication up to the point where the revival is decided: the fee is paid and the median is
stored. -/
def publish (op : AssetPublishFeed) (skipFeeScheduleCheck : Bool) (L : Ledger) :
    Attempt Ledger := do
  require op.Valid
  let coreFeePaid ← L.evaluateFee op.publisher op.fee L.parameters.assetPublishFeedFee
    skipFeeScheduleCheck
  op.doEvaluate L
  let L ← L.convertFee op.fee coreFeePaid
  let L ← L.payFee op.publisher coreFeePaid
  let now := L.headBlockTime
  L.modifyBitasset op.assetId fun b =>
    (b.setFeed ⟨op.publisher, now, op.feed⟩).updateMedianFeeds now

variable {L L' M : Ledger} {op : AssetPublishFeed} {skip : Bool} {a : AssetObject}
  {b : BitassetData}

theorem revives_eq_ok (hnull : b.currentFeed.settlementPrice.isNull = true ∨
      a.dynamicData.currentSupply = 0 ∨ b.settlementFund ≠ 0)
    (hbacking : b.options.shortBackingAsset ≠ op.assetId) :
    ∃ r, revives op.assetId a.dynamicData.currentSupply b = .ok r := by
  unfold revives
  split
  · exact ⟨false, rfl⟩
  · rename_i hfeed
    split
    · exact ⟨true, rfl⟩
    · rename_i hsupply
      have hfund := (hnull.resolve_left hfeed).resolve_left hsupply
      simp only [bind_eq_ok, pure_eq_ok]
      exact ⟨_, _, Price.callPrice_eq_ok.mpr ⟨hfund, hbacking, rfl⟩, rfl⟩

theorem of_revives_eq_ok {r : Bool}
    (h : revives op.assetId a.dynamicData.currentSupply b = .ok r) :
    b.currentFeed.settlementPrice.isNull = true ∨ a.dynamicData.currentSupply = 0 ∨
      b.settlementFund ≠ 0 := by
  unfold revives at h
  split at h
  · rename_i hnull
    exact Or.inl hnull
  · split at h
    · rename_i hzero
      exact Or.inr (Or.inl hzero)
    · simp only [bind_eq_ok] at h
      obtain ⟨p, hp, -⟩ := h
      exact Or.inr (Or.inr (Price.callPrice_ids hp).2.2.2)

/-- The ledger at which the revival of a globally settled asset is decided. -/
structure Published (op : AssetPublishFeed) (L M : Ledger) (a : AssetObject) (b : BitassetData) :
    Prop where
  shape : Shape M
  owned : Owned M
  bids : M.bids = L.bids
  supply_nonneg : 0 ≤ a.dynamicData.currentSupply
  notPrediction : b.isPredictionMarket = false

theorem publish_spec (hL : Balanced L) (ho : Owned L) (hM : op.publish skip L = .ok M)
    (ha : M.assets.find op.assetId = some a) (hb : a.bitassetData = some b)
    (hset : b.hasSettlement = true) : Published op L M a b := by
  simp only [publish, bind_eq_ok, require_eq_ok, exists_const] at hM
  obtain ⟨hvalid, core, hcore, u, heval, M1, h1, M2, h2, hN⟩ := hM
  have hfee := evaluateFee_prepared hcore
  have hpays := ((convertFee_pays hfee h1).trans (payFee_pays hfee.core_nonneg h2)).congr
    (conversion_add hfee)
  have hM2 := hpays.turn hL.shape (OnAssets.credit op.fee)
  have hfunds : Funds L M2 := (convertFee_funds h1).trans (modifyStatistics_funds h2)
  have hdata := heval
  simp only [doEvaluate, bind_eq_ok, require_eq_ok, exists_const] at hdata
  obtain ⟨a₀, -, old, hold, hpm, -⟩ := hdata
  have hold' : M2.bitasset op.assetId = .ok old := (hpays.bitasset _).trans hold
  have hself := modifyBitasset_self hold' hN
  rw [bitasset_eq_ok.mpr ⟨a, ha, hb⟩] at hself
  obtain rfl := Except.ok.inj hself
  have hsettled : old.hasSettlement = true := hset
  have hadjust : Adjustment M2 M := storeFeed_adjustment hvalid heval hfunds hN
  refine ⟨(modifyBitasset_keeps hM2.shape hN (fun _ _ => rfl) (fun _ => rfl) fun _ => rfl).shape,
    (ho.funds hfunds).adjustment hadjust, ?_, ?_, ?_⟩
  · simp only [modifyBitasset, modifyAsset, bind_eq_ok, pure_eq_ok] at hN
    obtain ⟨-, -, -, -, rfl⟩ := hN
    exact hfunds.bids
  · rw [← supply_of_find ha, modifyBitasset_supply hN, hpays.supply _ old hold hsettled]
    exact Balanced.supply_nonneg hL _
  · exact hpm.resolve_right (by simp [hsettled])

end AssetPublishFeed

variable {L₀ L M : Ledger} {op : AssetPublishFeed} {skip : Bool} {a : AssetObject}
  {b : BitassetData}

/-- For every publication that stores a median for a globally settled asset: the condition for the
revival is evaluated and the revival, when it is called, completes, if and only if the fund is not
empty (or nothing is left of the supply, or the median is null) and the bids do not stand in the way
of a revival that is called. -/
theorem revival_by_feed_iff (h₀ : Opening L₀)
    (hissuers : ∀ id a, L₀.assets.find id = some a → (L₀.accounts.find a.issuer).isSome)
    (h : Run L₀ L) (hM : op.publish skip L = .ok M) (ha : M.assets.find op.assetId = some a)
    (hb : a.bitassetData = some b) (hset : b.hasSettlement = true) :
    ((∃ r, AssetPublishFeed.revives op.assetId a.dynamicData.currentSupply b = .ok r) ∧
      (AssetPublishFeed.revives op.assetId a.dynamicData.currentSupply b = .ok true →
        ∃ M', M.reviveBitasset op.assetId = .ok M' ∧ Revived M M' op.assetId a b)) ↔
    (b.currentFeed.settlementPrice.isNull = true ∨ a.dynamicData.currentSupply = 0 ∨
      b.settlementFund ≠ 0) ∧
      (AssetPublishFeed.revives op.assetId a.dynamicData.currentSupply b = .ok true →
        Revivable L op.assetId a) := by
  have hp := AssetPublishFeed.publish_spec (h.balanced h₀.balanced)
    (h.owned h₀.balanced (h₀.owned hissuers)) hM ha hb hset
  have hbit : M.bitasset op.assetId = .ok b := bitasset_eq_ok.mpr ⟨a, ha, hb⟩
  have hbacking := (hp.shape.bitassets _ b hbit).backing_ne
  have hiff : Revivable M op.assetId a ↔ Revivable L op.assetId a := by
    constructor
    · rintro ⟨hissuer, hfound⟩
      exact ⟨hp.bids ▸ hissuer, hp.bids ▸ hfound⟩
    · rintro ⟨hissuer, hfound⟩
      exact ⟨hp.bids ▸ hissuer, hp.bids ▸ hfound⟩
  constructor
  · rintro ⟨⟨r, hr⟩, hcompletes⟩
    refine ⟨AssetPublishFeed.of_revives_eq_ok hr, fun hrevives => ?_⟩
    obtain ⟨M', hM', hrevived⟩ := hcompletes hrevives
    exact hiff.mp (revivable_of_revived hp.shape ha hb hset hp.supply_nonneg hM' hrevived)
  · rintro ⟨hfund, hrevivable⟩
    refine ⟨AssetPublishFeed.revives_eq_ok hfund hbacking, fun hrevives => ?_⟩
    have hnull : b.currentFeed.settlementPrice.isNull = false := by
      cases hnull : b.currentFeed.settlementPrice.isNull with
      | false => rfl
      | true =>
        rw [AssetPublishFeed.revives, if_pos hnull] at hrevives
        cases hrevives
    refine reviveBitasset_ok hp.shape hp.owned ha hb hset hp.notPrediction hnull hp.supply_nonneg
      (fun hne => ?_) (hiff.mpr (hrevivable hrevives))
    exact (hfund.resolve_left (by simp [hnull])).resolve_left hne

/-- A position in dollars that is settled globally at a price, and then more operations. -/
def settledWith (price : Price) (ops : List Operation) : Attempt Ledger :=
  (freshLedger 1600000000 [1000, 100] [dollar]).perform 5
    ([.callOrderUpdate ⟨⟨0, 0⟩, 0, ⟨300, 0⟩, ⟨100, 1⟩, none⟩,
      .assetGlobalSettle ⟨⟨0, 0⟩, 1, 1, price⟩] ++ ops)

/-- A publication of the issuer that makes a fund of 150 enough collateral for a supply of 100. -/
def raisedFeed : AssetPublishFeed :=
  ⟨⟨0, coreAsset⟩, 1, 1, ⟨⟨⟨2, 1⟩, ⟨1, coreAsset⟩⟩, 1750, 1100,
    PriceFeed.default.maintenance_range, squeeze_range_1100⟩⟩

/-- A test of the ledger at which the revival is decided. -/
def AssetPublishFeed.decides (op : AssetPublishFeed)
    (p : Ledger → Ledger → AssetObject → BitassetData → Bool) (L : Ledger) : Bool :=
  (op.publish false L).toOption.any fun M => (M.assets.find op.assetId).any fun a =>
    a.bitassetData.any fun b => b.hasSettlement && p L M a b

theorem exists_of_decides {x : Attempt Ledger} {op : AssetPublishFeed}
    {p : Ledger → Ledger → AssetObject → BitassetData → Bool}
    (h : x.toOption.any (op.decides p) = true) :
    ∃ L M a b, x = .ok L ∧ op.publish false L = .ok M ∧ M.assets.find op.assetId = some a ∧
      a.bitassetData = some b ∧ b.hasSettlement = true ∧ p L M a b = true := by
  obtain ⟨L, hL, h⟩ := exists_ok_of_any h
  obtain ⟨M, hM, h⟩ := exists_ok_of_any h
  cases ha : M.assets.find op.assetId with
  | none =>
    rw [ha] at h
    cases h
  | some a =>
    rw [ha] at h
    cases hb : a.bitassetData with
    | none =>
      simp only [Option.any_some, hb] at h
      cases h
    | some b =>
      simp only [Option.any_some, hb, Bool.and_eq_true] at h
      exact ⟨L, M, a, b, hL, hM, ha, hb, h.1, h.2⟩

/-- With a bid of the issuer the revival is called and throws, and with an empty fund the condition
for the revival throws. -/
theorem revival_by_feed_throws :
    (∃ L M a b, settledWith ⟨⟨2, 1⟩, ⟨3, 0⟩⟩ [.bidCollateral ⟨⟨0, 0⟩, 1, ⟨10, 0⟩, ⟨5, 1⟩⟩] = .ok L ∧
      raisedFeed.publish false L = .ok M ∧ M.assets.find 1 = some a ∧ a.bitassetData = some b ∧
      b.hasSettlement = true ∧
      AssetPublishFeed.revives 1 a.dynamicData.currentSupply b = .ok true ∧
      ∀ M', M.reviveBitasset 1 ≠ .ok M') ∧
    ∃ L M a b, settledWith ⟨⟨2, 1⟩, ⟨0, 0⟩⟩ [] = .ok L ∧ raisedFeed.publish false L = .ok M ∧
      M.assets.find 1 = some a ∧ a.bitassetData = some b ∧ b.hasSettlement = true ∧
      ∀ r, AssetPublishFeed.revives 1 a.dynamicData.currentSupply b ≠ .ok r := by
  constructor
  · have hrun : (settledWith ⟨⟨2, 1⟩, ⟨3, 0⟩⟩
        [.bidCollateral ⟨⟨0, 0⟩, 1, ⟨10, 0⟩, ⟨5, 1⟩⟩]).toOption.any (raisedFeed.decides
          fun _ M a b => decide (AssetPublishFeed.revives 1 a.dynamicData.currentSupply b =
            .ok true) && (M.reviveBitasset 1).toOption.isNone) = true := by decide +kernel
    obtain ⟨L, M, a, b, hL, hM, ha, hb, hset, hp⟩ := exists_of_decides hrun
    obtain ⟨hrevives, hthrows⟩ := Bool.and_eq_true_iff.mp hp
    refine ⟨L, M, a, b, hL, hM, ha, hb, hset, of_decide_eq_true hrevives, fun M' hM' => ?_⟩
    rw [hM'] at hthrows
    cases hthrows
  · have hrun : (settledWith ⟨⟨2, 1⟩, ⟨0, 0⟩⟩ []).toOption.any (raisedFeed.decides
        fun _ _ a b => (AssetPublishFeed.revives 1 a.dynamicData.currentSupply b).toOption.isNone) =
          true := by decide +kernel
    obtain ⟨L, M, a, b, hL, hM, ha, hb, hset, hthrows⟩ := exists_of_decides hrun
    refine ⟨L, M, a, b, hL, hM, ha, hb, hset, fun r hr => ?_⟩
    rw [hr] at hthrows
    cases hthrows

/-- With a bid of the borrower the fund becomes the collateral of a position of the issuer, and the
bid is refunded. -/
theorem revival_by_feed_completes :
    ∃ L M M' a b,
      settledWith ⟨⟨2, 1⟩, ⟨3, 0⟩⟩ [.bidCollateral ⟨⟨0, 0⟩, 0, ⟨10, 0⟩, ⟨5, 1⟩⟩] = .ok L ∧
      raisedFeed.publish false L = .ok M ∧ M.bidsOf 1 0 0 = 10 ∧
      AssetPublishFeed.revives 1 a.dynamicData.currentSupply b = .ok true ∧
      M.reviveBitasset 1 = .ok M' ∧ Revived M M' 1 a b := by
  have hrun : (settledWith ⟨⟨2, 1⟩, ⟨3, 0⟩⟩
      [.bidCollateral ⟨⟨0, 0⟩, 0, ⟨10, 0⟩, ⟨5, 1⟩⟩]).toOption.any (raisedFeed.decides
        fun L M a b => decide (M.bidsOf 1 0 0 = 10 ∧
          AssetPublishFeed.revives 1 a.dynamicData.currentSupply b = .ok true ∧
          b.settlementFund ≠ 0 ∧ ∀ r ∈ L.bids.rows, r.2.bidder ≠ a.issuer ∧
            r.2.invSwanPrice.base.amount ≤ maxShareSupply * r.2.invSwanPrice.quote.amount)) =
        true := by decide +kernel
  obtain ⟨L, M, a, b, hL, hM, ha, hb, hset, hp⟩ := exists_of_decides hrun
  obtain ⟨hbidsOf, hrevives, hfund, hbids⟩ := of_decide_eq_true hp
  have hopening : Opening (freshLedger 1600000000 [1000, 100] [dollar]) :=
    freshLedger_opening (by decide) (by decide)
  have hissuers : ∀ id a, (freshLedger 1600000000 [1000, 100] [dollar]).assets.find id = some a →
      ((freshLedger 1600000000 [1000, 100] [dollar]).accounts.find a.issuer).isSome := by
    intro id a ha
    rw [Table.find_iff_mem] at ha
    have hall : ∀ r ∈ (freshLedger 1600000000 [1000, 100] [dollar]).assets.rows,
      ((freshLedger 1600000000 [1000, 100] [dollar]).accounts.find r.2.issuer).isSome := by decide
    exact hall (id, a) ha
  have hrevivable : Revivable L 1 a :=
    ⟨fun _ id d hd _ => (hbids (id, d) (Table.find_iff_mem.mp hd)).1,
      fun id d hd _ => (hbids (id, d) (Table.find_iff_mem.mp hd)).2⟩
  have hiff := revival_by_feed_iff hopening hissuers (perform_run hL) hM ha hb hset
  obtain ⟨-, hcompletes⟩ := hiff.mpr ⟨Or.inr (Or.inr hfund), fun _ => hrevivable⟩
  obtain ⟨M', hM', hrevived⟩ := hcompletes hrevives
  exact ⟨L, M, M', a, b, hL, hM, hbidsOf, hrevives, hM', hrevived⟩

end Nestchain.Market
