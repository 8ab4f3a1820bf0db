import Nestchain.Market.Closing

/-! The revival of a globally settled asset keeps the books.  While the bids are executed the new
positions hold the part of the fund and the part of the supply that is theirs, and at the end the
fund is empty and the debts are the supply. -/

namespace Nestchain.Market

open Lib

/-- A position that a bid has opened in the asset `mia`. -/
structure CallOrder.Opened (mia backing : AssetId) (c : CallOrder) : Prop where
  debt_asset : c.debtType = mia
  collateral_asset : c.collateralType = backing
  debt_pos : 0 < c.debt
  collateral_pos : 0 < c.collateral
  inRange : c.callPrice.InRange

/-- `M` comes from `L` when bids for `mia` were executed or cancelled: `covered` of the supply is
the debt of new positions, and `paid` of the fund is their collateral. -/
structure Revives (L M : Ledger) (mia backing : AssetId) (covered paid : Int) : Prop where
  books : M.books = L.books + credit ⟨paid, backing⟩ + entry (.debt mia) covered
  assets : M.assets = L.assets
  limitOrders : M.limitOrders = L.limitOrders
  settlements : M.settlements = L.settlements
  callOrders : ∀ id c, M.callOrders.find id = some c →
    L.callOrders.find id = some c ∨ c.Opened mia backing
  bids : ∀ id b, M.bids.find id = some b → L.bids.find id = some b
  nonneg : Nonneg L.accounts L.assets L.balances → Nonneg M.accounts M.assets M.balances

namespace Ledger

variable {L L' M M' : Ledger} {mia backing : AssetId} {covered paid : Int}

theorem revives_refl (L : Ledger) (mia backing : AssetId) : Revives L L mia backing 0 0 :=
  ⟨by rw [credit_zero, entry_zero, add_zero, add_zero], rfl, rfl, rfl, fun _ _ h => Or.inl h,
    fun _ _ h => h, fun h => h⟩

theorem executeBid_revives {id : Nat} {debt collateral : Int} {feed : PriceFeed}
    {d : CollateralBid} (hM : Revives L M mia backing covered paid) (hd : L.bids.find id = some d)
    (hmia : d.debtType = mia) (hbacking : d.invSwanPrice.base.assetId = backing)
    (hbase : 0 ≤ d.invSwanPrice.base.amount) (hdebt : 0 < debt) (hcollateral : 0 ≤ collateral)
    (h : M.executeBid id debt collateral feed = .ok M') :
    Revives L M' mia backing (covered + debt) (paid + collateral) := by
  simp only [executeBid, createCallOrder, bind_eq_ok, demand_eq_ok, require_eq_ok, exists_const,
    pure_eq_ok] at h
  obtain ⟨d', hd', p, hp, -, ⟨-, rfl⟩, N, hN, rfl⟩ := h
  obtain rfl : d' = d := Option.some.inj ((hM.bids id d' hd').symm.trans hd)
  obtain ⟨-, hpbase, hpquote, hne⟩ := Price.callPrice_ids hp
  have hpos : 0 < d'.invSwanPrice.base.amount + collateral :=
    lt_of_le_of_ne (add_nonneg hbase hcollateral) (Ne.symm hne)
  have hrange := Price.callPrice_inRange hp hdebt hpos
    (Nat.lt_of_lt_of_le (by decide) feed.maintenance_range.1)
  have hpays := noteInOrders_pays hN
  have hcall : CallOrder.worth ⟨d'.bidder, d'.invSwanPrice.base.amount + collateral, debt, p,
    none⟩ =
      d'.worth + credit ⟨collateral, backing⟩ + inOrders d'.bidder
        ⟨d'.invSwanPrice.base.amount + collateral, d'.invSwanPrice.base.assetId⟩ +
          entry (.debt mia) debt := by
    simp only [CallOrder.worth, CallOrder.getCollateral, CallOrder.collateralType,
      CallOrder.debtType, hpbase, hpquote, hmia, credit_add, CollateralBid.worth, hbacking]
    rw [← hbacking]
  have hbid : N.bids.find id = some d' := hpays.bids ▸ hd'
  refine ⟨?_, ?_, hpays.limitOrders.trans hM.limitOrders, hpays.settlements.trans hM.settlements,
    fun j c hc => ?_, fun j e he => ?_, fun hn => hpays.nonneg (hM.nonneg hn)⟩
  · rw [books_removeBid hbid, hpays.books, credit_add, entry_add]
    have hcreate : Ledger.books { M with callOrders := M.callOrders.create ⟨d'.bidder,
        d'.invSwanPrice.base.amount + collateral, debt, p, none⟩ } = M.books + CallOrder.worth
          ⟨d'.bidder, d'.invSwanPrice.base.amount + collateral, debt, p, none⟩ := by
      simp only [Ledger.books, Table.sum_create]
      abel
    rw [hcreate, hcall, hM.books]
    abel
  · exact (noteInOrders_assets hN).trans hM.assets
  · rw [show N.callOrders = _ from hpays.callOrders] at hc
    rcases Table.find_create_iff.mp hc with hc | ⟨-, rfl⟩
    · exact hM.callOrders j c hc
    · exact Or.inr ⟨hpquote.trans hmia, hpbase.trans hbacking, hdebt, hpos, hrange⟩
  · exact hM.bids j e (hpays.bids ▸ (Table.find_remove_iff.mp he).2)

theorem cancelBid_revives {id : Nat} (hM : Revives L M mia backing covered paid)
    (h : M.cancelBid id = .ok M') : Revives L M' mia backing covered paid := by
  simp only [cancelBid, bind_eq_ok, demand_eq_ok, pure_eq_ok] at h
  obtain ⟨b, hb, N, hN, rfl⟩ := h
  have hpays := adjustBalance_pays hN
  refine ⟨?_, (adjustBalance_assets hN).trans hM.assets, hpays.limitOrders.trans hM.limitOrders,
    hpays.settlements.trans hM.settlements, fun j c hc => ?_, fun j e he => ?_,
    fun hn => hpays.nonneg (hM.nonneg hn)⟩
  · rw [books_removeBid (hpays.bids ▸ hb), hpays.books, CollateralBid.worth, add_sub_cancel_right,
      hM.books]
  · exact hM.callOrders j c (hpays.callOrders ▸ hc)
  · exact hM.bids j e (hpays.bids ▸ (Table.find_remove_iff.mp he).2)

def revivedData (b : BitassetData) : BitassetData :=
  { b with settlementPrice := Price.null, settlementFund := 0 }

def revivedAsset (a : AssetObject) (b : BitassetData) : AssetObject :=
  { a with bitassetData := some (revivedData b) }

theorem revives_keeps {b : BitassetData} {a : AssetObject} (hs : Shape L)
    (ha : L.assets.find mia = some a) (hb : a.bitassetData = some b)
    (hsettled : b.hasSettlement = true)
    (hM : Revives L M mia b.options.shortBackingAsset (L.supply mia) b.settlementFund) :
    Keeps L { M with assets := M.assets.set mia (revivedAsset a b) } := by
  have hbit : L.bitasset mia = .ok b := bitasset_eq_ok.mpr ⟨a, ha, hb⟩
  have haM : M.assets.find mia = some a := hM.assets ▸ ha
  have hself : Ledger.bitasset { M with assets := M.assets.set mia (revivedAsset a b) } mia =
      .ok (revivedData b) := bitasset_set_self haM rfl
  have hother : ∀ j ≠ mia, Ledger.bitasset
      { M with assets := M.assets.set mia (revivedAsset a b) } j = L.bitasset j := by
    intro j hj
    rw [bitasset_set_ne hj]
    simp only [bitasset, asset, hM.assets]
  have hunsettled : (revivedData b).hasSettlement = false := rfl
  have hbooks : Ledger.books { M with assets := M.assets.set mia (revivedAsset a b) } =
      L.books := by
    rw [books_setAsset haM, hM.books, supply_of_find ha]
    simp only [AssetObject.worth, revivedAsset, hb, outstanding_settled _ hsettled,
      outstanding_unsettled _ hunsettled, fund]
    simp only [revivedData, credit_zero]
    abel
  refine ⟨hbooks, hM.limitOrders ▸ hs.limitOrders, fun j c hc => ?_,
    hM.settlements ▸ hs.settlements, fun j d hd => ?_, ?_, fun j d hd => ?_, fun j d hd hset => ?_,
    fun j => hbooks ▸ hs.debts j, fun account => hbooks ▸ hs.core account⟩
  · rcases hM.callOrders j c hc with hc | hopened
    · -- the positions of before are in other assets, since `mia` was globally settled
      obtain ⟨d, hd, hcoll, hunset⟩ := (hs.callOrders j c hc).backed
      have hj : c.debtType ≠ mia := by
        intro hj
        obtain rfl : d = b := Except.ok.inj (hd.symm.trans (hj.symm ▸ hbit))
        exact absurd (hsettled.symm.trans hunset) Bool.noConfusion
      exact { hs.callOrders j c hc with backed := ⟨d, (hother _ hj).trans hd, hcoll, hunset⟩ }
    · refine ⟨hopened.debt_pos, hopened.collateral_pos, hopened.inRange, revivedData b, ?_,
        hopened.collateral_asset.symm, rfl⟩
      rw [hopened.debt_asset]
      exact hself
  · obtain ⟨e, he, hcoll⟩ := (hs.bids j d (hM.bids j d hd)).backed
    refine { hs.bids j d (hM.bids j d hd) with backed := ?_ }
    by_cases hj : d.debtType = mia
    · rw [hj] at he ⊢
      obtain rfl : e = b := Except.ok.inj (he.symm.trans hbit)
      exact ⟨revivedData e, hself, hcoll⟩
    · exact ⟨e, (hother _ hj).trans he, hcoll⟩
  · refine { hM.nonneg hs.nonneg with fees := fun j d hd => ?_ }
    rcases (Table.find_set_iff haM).mp hd with ⟨-, rfl⟩ | ⟨-, hd⟩
    · exact hs.nonneg.fees mia a ha
    · exact hs.nonneg.fees j d (hM.assets ▸ hd)
  · by_cases hj : j = mia
    · subst hj
      obtain rfl : revivedData b = d := Except.ok.inj (hself.symm.trans hd)
      exact ⟨(hs.bitassets j b hbit).backing_ne, fun _ => rfl, fun h => (by cases h),
        fun h => (by cases h), fun h => (by cases h), le_refl _⟩
    · exact hs.bitassets j d ((hother j hj).symm.trans hd)
  · by_cases hj : j = mia
    · subst hj
      obtain rfl : revivedData b = d := Except.ok.inj (hself.symm.trans hd)
      exact absurd hset (by simp [hunsettled])
    · rw [supply_set_ne _ hj, supply_congr hM.assets]
      exact hs.solvent j d ((hother j hj).symm.trans hd) hset

theorem cancelBidsAndReviveMpa_keeps {b : BitassetData} (hs : Shape L)
    (hb : L.bitasset mia = .ok b)
    (hM : Revives L M mia b.options.shortBackingAsset (L.supply mia) b.settlementFund)
    (h : M.cancelBidsAndReviveMpa mia mia = .ok L') : Keeps L L' := by
  obtain ⟨a, ha, hab⟩ := bitasset_eq_ok.mp hb
  simp only [cancelBidsAndReviveMpa, bind_eq_ok, require_eq_ok, exists_const] at h
  obtain ⟨-, -, b', hb', hsettled, -, high, -, N, hN, h⟩ := h
  have hbM : M.bitasset mia = .ok b := bitasset_eq_ok.mpr ⟨a, hM.assets ▸ ha, hab⟩
  obtain rfl : b = b' := Except.ok.inj (hbM.symm.trans hb')
  have hrevives := foldlM_invariant
    (P := fun N => Revives L N mia b.options.shortBackingAsset (L.supply mia) b.settlementFund)
    (fun s r s' hs hstep => cancelBid_revives hs hstep) _ _ _ hM hN
  simp only [modifyBitasset, modifyAsset, asset, bind_eq_ok, demand_eq_ok, pure_eq_ok] at h
  obtain ⟨b1, hb1, a1, ha1, rfl⟩ := h
  have hbN : N.bitasset mia = .ok b := bitasset_eq_ok.mpr ⟨a, hrevives.assets ▸ ha, hab⟩
  obtain rfl : b1 = b := Except.ok.inj (hb1.symm.trans hbN)
  obtain rfl : a = a1 := Option.some.inj (ha.symm.trans (hrevives.assets ▸ ha1))
  exact revives_keeps hs ha hab hsettled hrevives

/-! ### The revival by the issuer -/

theorem createBid_books {d : CollateralBid} :
    Ledger.books { L with bids := L.bids.create d } = L.books + d.worth := by
  simp only [Ledger.books, Table.sum_create]
  abel

theorem createBid_turn {d : CollateralBid} (hs : Shape L) (hd : d.Sound L.bitasset)
    (h : L.createBid d = .ok L') :
    L' = { L with bids := L.bids.create d } ∧ Turn L L' d.worth := by
  simp only [createBid, bind_eq_ok, require_eq_ok, exists_const, pure_eq_ok] at h
  obtain ⟨-, rfl⟩ := h
  have hon : OnAssets d.worth := OnAssets.credit _
  refine ⟨rfl, createBid_books, fun _ => rfl, hs.of_books hon createBid_books (fun _ => rfl)
    (fun _ _ _ _ => rfl) (fun h => h) hs.limitOrders hs.callOrders hs.settlements
    fun j e he => ?_⟩
  rcases Table.find_create_iff.mp he with he | ⟨-, rfl⟩
  · exact hs.bids j e he
  · exact hd

theorem reviveBitasset_keeps (hs : Shape L) (hsupply : 0 ≤ L.supply mia)
    (h : L.reviveBitasset mia = .ok L') : Keeps L L' := by
  simp only [reviveBitasset, asset, bind_eq_ok, demand_eq_ok, require_eq_ok, exists_const] at h
  obtain ⟨a, ha, b, hb, -, -, -, h⟩ := h
  have hsound := hs.bitassets mia b hb
  rw [supply_of_find ha] at hsupply
  split at h
  · rename_i hpos
    simp only [bind_eq_ok, Price.ofAssets_eq_ok] at h
    obtain ⟨price, ⟨-, rfl⟩, L0, hcreate, M, hM, h⟩ := h
    have hbid : CollateralBid.Sound L.bitasset ⟨a.issuer, ⟨⟨0, b.options.shortBackingAsset⟩,
        ⟨a.dynamicData.currentSupply, mia⟩⟩⟩ := ⟨hpos, le_refl 0, b, hb, rfl⟩
    obtain ⟨rfl, hturn⟩ := createBid_turn hs hbid hcreate
    have hrevives := executeBid_revives (revives_refl _ mia b.options.shortBackingAsset)
      (Table.find_create_self _ _) rfl rfl (le_refl 0) hpos hsound.fund_nonneg hM
    rw [zero_add, zero_add] at hrevives
    have hkeeps := cancelBidsAndReviveMpa_keeps hturn.shape hb (supply_of_find ha ▸ hrevives) h
    refine ⟨hkeeps.books.trans (hturn.books.trans ?_), hkeeps.shape⟩
    rw [CollateralBid.worth, credit_zero, add_zero]
  · rename_i hnot
    simp only [bind_eq_ok, require_eq_ok, exists_const] at h
    obtain ⟨hfund, h⟩ := h
    have hzero : a.dynamicData.currentSupply = 0 := le_antisymm (not_lt.mp hnot) hsupply
    refine cancelBidsAndReviveMpa_keeps hs hb ?_ h
    rw [supply_of_find ha, hzero, hfund]
    exact revives_refl L mia _

/-! ### The revival by bids -/

section

variable {b : BitassetData} {supply : Int}

theorem coveringBids_cons {covered total : Int} {bids rest : List (Nat × CollateralBid)}
    {bid : Nat × CollateralBid}
    (h : coveringBids b supply covered bids = .ok (total, bid :: rest)) :
    covered < supply ∧ ∃ bids', bids = bid :: bids' ∧
      coveringBids b supply (covered + bid.2.invSwanPrice.quote.amount) bids' =
        .ok (total, rest) := by
  cases bids with
  | nil =>
    have := congrArg Prod.snd (pure_eq_ok.mp h)
    cases this
  | cons first bids =>
    simp only [coveringBids] at h
    split at h
    · rename_i hlt
      simp only [bind_eq_ok] at h
      obtain ⟨fromFund, -, collateral, -, price, -, h⟩ := h
      split at h
      · have := congrArg Prod.snd (pure_eq_ok.mp h)
        cases this
      · simp only [bind_eq_ok, pure_eq_ok] at h
        obtain ⟨r, hr, he⟩ := h
        obtain ⟨rfl, hl⟩ := Prod.mk.inj he
        obtain ⟨rfl, rfl⟩ := List.cons.inj hl
        exact ⟨hlt, bids, rfl, hr⟩
    · have := congrArg Prod.snd (pure_eq_ok.mp h)
      cases this

theorem coveringBids_done {covered total : Int} {bids rest : List (Nat × CollateralBid)}
    (hc : supply ≤ covered) (h : coveringBids b supply covered bids = .ok (total, rest)) :
    rest = [] := by
  cases rest with
  | nil => rfl
  | cons bid rest => exact absurd (coveringBids_cons h).1 (not_lt.mpr hc)

theorem coveringBids_sublist {total : Int} :
    ∀ {rest bids : List (Nat × CollateralBid)} {covered : Int},
      coveringBids b supply covered bids = .ok (total, rest) → rest <+: bids
  | [], bids, _, _ => List.nil_prefix
  | bid :: rest, bids, covered, h => by
    obtain ⟨-, bids', rfl, h'⟩ := coveringBids_cons h
    exact (List.prefix_cons_inj bid).mpr (coveringBids_sublist h')

/-- What holds while the bids in `rest` are still to be executed: what is left of the fund is enough
for what is left to cover, and there is something to cover before each bid. -/
structure Covering (L : Ledger) (mia : AssetId) (b : BitassetData) (supply : Int)
    (rest : List (Nat × CollateralBid)) (s : Reviving) : Prop where
  revives : Revives L s.ledger mia b.options.shortBackingAsset (supply - s.toCover)
    (b.settlementFund - s.remainingFund)
  toCover_nonneg : 0 ≤ s.toCover
  enough : s.toCover * b.settlementPrice.quote.amount ≤
    s.remainingFund * b.settlementPrice.base.amount
  placed : ∀ r ∈ rest, L.bids.find r.1 = some r.2 ∧ r.2.debtType = mia
  covering : rest = [] ∨ ∃ total bids, coveringBids b supply (supply - s.toCover) bids =
    .ok (total, rest)

theorem executeCoveringBid_covering {bid : Nat × CollateralBid}
    {rest : List (Nat × CollateralBid)} {s s' : Reviving} (hs : Shape L)
    (hb : L.bitasset mia = .ok b) (hsettled : b.hasSettlement = true)
    (hc : Covering L mia b supply (bid :: rest) s) (h : executeCoveringBid b s bid = .ok s') :
    Covering L mia b supply rest s' := by
  simp only [executeCoveringBid, bind_eq_ok, pure_eq_ok] at h
  obtain ⟨share, hshare, M, hM, rfl⟩ := h
  obtain ⟨hbid, hmia⟩ := hc.placed bid (List.mem_cons_self ..)
  have hplaced := fun r hr => hc.placed r (List.mem_cons_of_mem bid hr)
  have hsound := hs.bids bid.1 bid.2 hbid
  have hdata := hs.bitassets mia b hb
  obtain ⟨d, hd, hbacking⟩ := hsound.backed
  obtain rfl : d = b := Except.ok.inj (hd.symm.trans (hmia.symm ▸ hb))
  obtain ⟨total, bids, hcovering⟩ := hc.covering.resolve_left (List.cons_ne_nil _ _)
  obtain ⟨hlt, bids', -, hcovering'⟩ := coveringBids_cons hcovering
  have hpos : 0 < s.toCover := by omega
  -- the share is what the debt of the bid is worth at the settlement price
  have hbase := hdata.base_asset hsettled
  have hshare' : 0 < d.settlementPrice.base.amount ∧ 0 ≤ share.amount ∧
      share.amount * d.settlementPrice.base.amount ≤
        bid.2.invSwanPrice.quote.amount * d.settlementPrice.quote.amount := by
    rcases Asset.mul_cases hshare with ⟨-, -, hd, -, he⟩ | ⟨hne, -⟩
    · refine ⟨hd, Asset.mul_nonneg hshare, ?_⟩
      rw [he]
      exact Int.ediv_mul_le _ (ne_of_gt hd)
    · exact absurd (hmia.trans hbase.symm) hne
  obtain ⟨hB, hnonneg, hle⟩ := hshare'
  have hQ := hdata.quote_nonneg hsettled
  have hfund : 0 ≤ s.remainingFund := by
    have h0 : 0 ≤ s.toCover * d.settlementPrice.quote.amount := mul_nonneg hc.toCover_nonneg hQ
    exact nonneg_of_mul_nonneg_left (h0.trans hc.enough) hB
  split at hM
  · -- the bid covers the rest
    rename_i hlast
    have hrevives := executeBid_revives hc.revives hbid hmia hbacking.symm
      hsound.collateral_nonneg hpos hfund hM
    simp only [if_pos hlast, sub_self]
    refine ⟨?_, le_refl 0, ?_, hplaced, Or.inl ?_⟩
    · rw [sub_zero, sub_zero]
      rwa [sub_add_cancel, sub_add_cancel] at hrevives
    · rw [zero_mul, zero_mul]
    · exact coveringBids_done (by omega) hcovering'
  · rename_i hmore
    have hrevives := executeBid_revives hc.revives hbid hmia hbacking.symm
      hsound.collateral_nonneg hsound.debt_pos hnonneg hM
    simp only [if_neg hmore]
    refine ⟨?_, sub_nonneg.mpr (le_of_lt (not_le.mp hmore)), ?_, hplaced,
      Or.inr ⟨total, bids', ?_⟩⟩
    · rwa [sub_add, sub_add] at hrevives
    · rw [sub_mul, sub_mul]
      exact sub_le_sub hc.enough hle
    · rwa [sub_add] at hcovering'

end

theorem mem_bidsFor {id : AssetId} {high : Price} {r : Nat × CollateralBid} :
    r ∈ L.bidsFor id high ↔
      L.bids.find r.1 = some r.2 ∧ r.2.debtType = id ∧ r.2.invSwanPrice ≤ high := by
  simp only [bidsFor, List.mem_filter, mem_sortRows, decide_eq_true_eq]

theorem toRevive_eq {b : BitassetData} {zero : Asset} (hs : Shape L) (hb : L.bitasset mia = .ok b)
    (hsettled : b.hasSettlement = true)
    (h : (Asset.mk 0 b.options.shortBackingAsset).mul b.settlementPrice = .ok zero) :
    zero.assetId = mia := by
  have hdata := hs.bitassets mia b hb
  rcases Asset.mul_cases h with ⟨hid, -⟩ | ⟨-, -, hid, -⟩
  · exact absurd (hid.trans (hdata.base_asset hsettled)) hdata.backing_ne
  · exact hid.trans (hdata.base_asset hsettled)

theorem processBids_keeps {b : BitassetData} (hs : Shape L) (hsupply : 0 ≤ L.supply mia)
    (hb : L.bitasset mia = .ok b) (hsettled : b.hasSettlement = true)
    (h : L.processBids mia = .ok L') : Keeps L L' := by
  simp only [processBids, asset, bind_eq_ok] at h
  obtain ⟨b', hb', h⟩ := h
  obtain rfl : b' = b := Except.ok.inj (hb'.symm.trans hb)
  split at h
  · obtain rfl := pure_eq_ok.mp h
    exact Keeps.refl hs
  · split at h
    · obtain rfl := pure_eq_ok.mp h
      exact Keeps.refl hs
    · simp only [bind_eq_ok, demand_eq_ok] at h
      obtain ⟨zero, hzero, a, ha, high, -, covering, hcovering, h⟩ := h
      have hmia := toRevive_eq hs hb hsettled hzero
      rw [hmia] at ha hcovering
      split at h
      · obtain rfl := pure_eq_ok.mp h
        exact Keeps.refl hs
      · simp only [bind_eq_ok, require_eq_ok, exists_const] at h
        obtain ⟨done, hdone, hfund, hcover, h⟩ := h
        have hsolvent := hs.solvent mia b' hb hsettled
        rw [supply_of_find ha] at hsupply hsolvent
        have hstart : Covering L mia b' a.dynamicData.currentSupply covering.2
            ⟨L, a.dynamicData.currentSupply, b'.settlementFund⟩ := by
          refine ⟨?_, hsupply, hsolvent.enough, fun r hr =>
            ?_, Or.inr ⟨covering.1, L.bidsFor mia high, ?_⟩⟩
          · rw [sub_self, sub_self]
            exact revives_refl L mia _
          · obtain ⟨hfind, hdebt, -⟩ := mem_bidsFor.mp
              ((coveringBids_sublist hcovering).subset hr)
            exact ⟨hfind, hdebt⟩
          · rw [sub_self]
            exact hcovering
        have hend := foldlM_induction
          (P := fun rest s => Covering L mia b' a.dynamicData.currentSupply rest s)
          (fun bid rest s s' hc hstep => executeCoveringBid_covering hs hb hsettled hc hstep)
          _ _ _ hstart hdone
        have hrevives := hend.revives
        rw [hfund, hcover, sub_zero, sub_zero, ← supply_of_find ha] at hrevives
        rw [hmia] at h
        exact cancelBidsAndReviveMpa_keeps hs hb hrevives h

end Ledger

end Nestchain.Market
