import Nestchain.Market.Changes

/-! A step of a run in single changes.  Apart from the creation of a limit order, which leaves the
new order loose while it is matched, a step is a sequence of changes with at most one adjustment in
it: of a feed, of the options of an asset, of the time or of the parameters. -/

namespace Nestchain.Market

open Lib

/-- A price between two assets with positive amounts. -/
structure Price.Between (p : Price) (base quote : AssetId) : Prop where
  base_asset : p.base.assetId = base
  quote_asset : p.quote.assetId = quote
  base_pos : 0 < p.base.amount
  quote_pos : 0 < p.quote.amount

/-- The bitasset data with other feeds and their median. -/
def BitassetData.fed (b : BitassetData) (feeds : List PublishedFeed) (now : Nat) : BitassetData :=
  BitassetData.updateMedianFeeds { b with feeds := feeds } now

/-- The feed was published before, or there is no publication yet, or its price is between the asset
and its backing. -/
def BitassetData.Published (id : AssetId) (b : BitassetData) (f : PublishedFeed) : Prop :=
  f ∈ b.feeds ∨ f.time = 0 ∨ f.feed.settlementPrice.Between id b.options.shortBackingAsset

/-- What is adjusted outside the market. -/
inductive Adjustment : Ledger → Ledger → Prop
  | feed {L : Ledger} {id : AssetId} {a : AssetObject} {b : BitassetData}
      (feeds : List PublishedFeed) (now : Nat) (ha : L.assets.find id = some a)
      (hb : a.bitassetData = some b) (hfeeds : ∀ f ∈ feeds, b.Published id f) :
      Adjustment L { L with
        assets := L.assets.set id { a with bitassetData := some (b.fed feeds now) } }
  | asset {L : Ledger} {id : AssetId} {a : AssetObject} (issuer : AccountId)
      (options : AssetOptions) (ha : L.assets.find id = some a)
      (hissuer : (L.accounts.find issuer).isSome) :
      Adjustment L { L with
        assets := L.assets.set id { a with issuer := issuer, options := options } }
  | bitasset {L : Ledger} {id : AssetId} {a : AssetObject} {b : BitassetData}
      (options : BitassetOptions) (ha : L.assets.find id = some a) (hb : a.bitassetData = some b)
      (hbacking : options.shortBackingAsset = b.options.shortBackingAsset) :
      Adjustment L { L with assets := L.assets.set id { a with
        bitassetData := some { b with options := options } } }
  | time (L : Ledger) (time : Nat) : Adjustment L { L with headBlockTime := time }
  | parameters (L : Ledger) (parameters : Parameters) :
      Adjustment L { L with parameters := parameters }

namespace Ledger

variable {L L' M : Ledger} {loose : Nat → Prop} {id : Nat}

/-! ### Fees -/

theorem evaluateFee_exists {account : AccountId} {fee : Asset} {required core : Int} {skip : Bool}
    (h : L.evaluateFee account fee required skip = .ok core) :
    (L.accounts.find account).isSome ∧ (L.assets.find fee.assetId).isSome := by
  simp only [evaluateFee, prepareFee, asset, bind_eq_ok, demand_eq_ok] at h
  obtain ⟨x, ⟨-, -, payer, hpayer, a, ha, -⟩, -⟩ := h
  rw [hpayer, ha]
  exact ⟨rfl, rfl⟩

theorem convertFee_funds {fee : Asset} {core : Int} (h : L.convertFee fee core = .ok L') :
    Funds L L' := by
  unfold convertFee at h
  split at h
  · exact modifyDynamicData_funds h
  · exact pure_eq_ok.mp h ▸ Funds.refl _

theorem applyWithFee_changes {account : AccountId} {fee : Asset} {core : Int}
    {doApply : Ledger → Attempt Ledger}
    (hdo : ∀ M M', Funds L M → doApply M = .ok M' → Changes loose M M')
    (h : L.applyWithFee account fee core doApply = .ok L') : Changes loose L L' := by
  simp only [applyWithFee, bind_eq_ok] at h
  obtain ⟨M1, h1, M2, h2, M3, h3, h4⟩ := h
  have hfees : Funds L M2 := (convertFee_funds h1).trans (modifyStatistics_funds h2)
  exact (hfees.changes.trans (hdo M2 M3 hfees h3)).trans (adjustBalance_funds h4).changes

end Ledger

open Ledger

variable {L L' M : Ledger} {loose : Nat → Prop} {id : Nat}

/-! ### Operations -/

theorem LimitOrderCreate.convertFee_funds {op : LimitOrderCreate} {core : Int}
    (h : op.convertFee L core = .ok L') : Funds L L' := by
  unfold LimitOrderCreate.convertFee at h
  split at h
  · exact Ledger.convertFee_funds h
  · split at h
    · exact modifyDynamicData_funds h
    · exact pure_eq_ok.mp h ▸ Funds.refl _

/-- The new order of an operation and the ledger in which it is created. -/
structure LimitOrderCreate.Places (op : LimitOrderCreate) (L M : Ledger) (o : LimitOrder) :
    Prop where
  valid : op.Valid
  funds : Funds L M
  forSale : o.forSale = op.amountToSell.amount
  sellPrice : o.sellPrice = ⟨op.amountToSell, op.minToReceive⟩
  seller : (M.accounts.find o.seller).isSome
  sell : (M.assets.find o.sellAssetId).isSome
  receive : (M.assets.find o.receiveAssetId).isSome
  paid : o.deferredPaidFee.amount ≠ 0 → (M.assets.find o.deferredPaidFee.assetId).isSome

theorem Funds.asset (h : Funds L M) (hid : (L.assets.find id).isSome) :
    (M.assets.find id).isSome := by
  rw [← Option.isSome_map (f := AssetObject.terms), h.assets id, Option.isSome_map]
  exact hid

theorem LimitOrderCreate.place_spec {op : LimitOrderCreate} {skip : Bool} {placed : Nat × Ledger}
    (h : op.place skip L = .ok placed) :
    ∃ M o, op.Places L M o ∧
      placed = (M.limitOrders.next, { M with limitOrders := M.limitOrders.create o }) := by
  simp only [LimitOrderCreate.place, LimitOrderCreate.doEvaluate, Ledger.asset, bind_eq_ok,
    require_eq_ok, exists_const, demand_eq_ok, Price.ofAssets_eq_ok, pure_eq_ok] at h
  obtain ⟨hvalid, core, hcore, ⟨-, seller, hseller, sell, hsell, receive, hreceive, -⟩, M1, h1, M2,
    h2, M3, h3, price, ⟨-, rfl⟩, rfl⟩ := h
  obtain ⟨-, hfee⟩ := evaluateFee_exists hcore
  have hfunds : Funds L M3 := (LimitOrderCreate.convertFee_funds h1).trans
    ((noteInOrders_funds h2).trans (adjustBalance_funds h3))
  refine ⟨M3, _, ⟨hvalid, hfunds, rfl, rfl, ?_, ?_, ?_, fun hne => ?_⟩, rfl⟩
  · exact hfunds.accounts _ (by rw [hseller]; rfl)
  · exact hfunds.asset (by rw [LimitOrder.sellAssetId, hsell]; rfl)
  · exact hfunds.asset (by rw [LimitOrder.receiveAssetId, hreceive]; rfl)
  · refine hfunds.asset ?_
    simp only [LimitOrderCreate.deferredPaidFee] at hne ⊢
    split at hne
    · rename_i hpaid
      rw [if_pos hpaid]
      exact hfee
    · exact absurd rfl hne

theorem LimitOrderCreate.apply_spec {op : LimitOrderCreate} {rounds : Nat} {skip : Bool}
    (h : op.apply rounds skip L = .ok L') :
    ∃ M o r, op.Places L M o ∧ Ledger.applyOrder rounds
      { M with limitOrders := M.limitOrders.create o } M.limitOrders.next = .ok r ∧
      Funds r.2 L' := by
  obtain ⟨placed, r, hplaced, hr, hfee⟩ := LimitOrderCreate.apply_place h
  obtain ⟨M, o, hplaces, rfl⟩ := op.place_spec hplaced
  exact ⟨M, o, r, hplaces, hr, adjustBalance_funds hfee⟩

/-- The ledgers that the loops of `apply_order` for the order `id` go through: matches with limit
orders and with call orders. -/
def Matching (rounds id : Nat) : Ledger → Ledger → Prop :=
  Relation.ReflTransGen fun M M' =>
    (∃ maker p filled, M.matchLimitOrders id maker p = .ok (filled, M')) ∨
      ∃ call p feed filled, matchLimitAndCall rounds M id call p feed = .ok (filled, M')

theorem Matching.changes {rounds : Nat} (h : Matching rounds id L L') : Changes (· = id) L L' := by
  induction h with
  | refl => exact Relation.ReflTransGen.refl
  | @tail M M' _ hstep ih =>
    rcases hstep with ⟨maker, p, filled, hmatch⟩ | ⟨call, p, feed, filled, hmatch⟩
    · have hmatched : Changes (· = id) M (filled, M').2 := matchLimitOrders_changes rfl hmatch
      exact ih.trans hmatched
    · have hmatched : Changes (· = id) M (filled, M').2 := matchLimitAndCall_changes rfl hmatch
      exact ih.trans hmatched

theorem Matching.shape {rounds : Nat} (hs : Shape L) (h : Matching rounds id L L') : Shape L' := by
  induction h with
  | refl => exact hs
  | tail _ hstep ih =>
    rcases hstep with ⟨maker, p, filled, hmatch⟩ | ⟨call, p, feed, filled, hmatch⟩
    · exact (matchLimitOrders_turn ih hmatch).shape
    · exact (matchLimitAndCall_turn ih hmatch).shape

theorem LimitOrderCreate.apply_changes {op : LimitOrderCreate} {rounds : Nat} {skip : Bool}
    (h : op.apply rounds skip L = .ok L') : Changes (· = L.limitOrders.next) L L' := by
  obtain ⟨M, o, r, hplaces, happly, hfee⟩ := op.apply_spec h
  have hnext : M.limitOrders.next = L.limitOrders.next := by rw [hplaces.funds.limitOrders]
  refine (hplaces.funds.changes.tail (.createLimitOrder M o hnext hplaces.seller hplaces.sell
    hplaces.receive hplaces.paid)).trans ?_
  have hmatched : Changes (· = L.limitOrders.next) _ r.2 := applyOrder_changes hnext happly
  exact hmatched.trans hfee.changes

theorem LimitOrderCancel.apply_changes {op : LimitOrderCancel} {skip : Bool}
    (h : op.apply skip L = .ok L') : Changes loose L L' := by
  simp only [LimitOrderCancel.apply, bind_eq_ok] at h
  obtain ⟨-, -, core, -, o, -, -, -, h⟩ := h
  exact applyWithFee_changes (fun _ _ _ hdo => cancelLimitOrder_changes hdo) h

namespace CallOrderUpdate

variable {op : CallOrderUpdate}

theorem moveFunds_funds (h : op.moveFunds L = .ok L') : Funds L L' := by
  simp only [moveFunds, bind_eq_ok] at h
  obtain ⟨M1, h1, M2, h2, a, -, -, -, M3, h3, h4⟩ := h
  exact (adjustBalance_funds h1).trans ((modifyDynamicData_funds h2).trans
    ((adjustBalance_funds h3).trans (noteInOrders_funds h4)))

theorem updateOrder_changes {u : Nat × Option CallOrder × CallOrder × Ledger}
    (haccount : (L.accounts.find op.fundingAccount).isSome) (h : op.updateOrder L = .ok u) :
    (0 < u.2.2.1.debt → Changes loose L u.2.2.2) ∧
      (u.2.2.1.debt = 0 → Changes loose L { u.2.2.2 with
        callOrders := u.2.2.2.callOrders.remove u.1 }) := by
  simp only [updateOrder, bind_eq_ok] at h
  obtain ⟨b, hb, h⟩ := h
  split at h
  · rename_i hnone
    simp only [bind_eq_ok, require_eq_ok, exists_const, pure_eq_ok] at h
    obtain ⟨-, hpos, p, hp, rfl⟩ := h
    obtain ⟨-, hbase, hquote, -⟩ := Price.callPrice_ids hp
    refine ⟨fun _ => Relation.ReflTransGen.single (.createCallOrder (b := b) ?_
      (Or.inl haccount) ?_ fun j d hd hdebt hsame => ?_), fun hzero => absurd hzero (ne_of_gt hpos)⟩
    · rw [← hb]
      exact congrArg L.bitasset hquote
    · simp only [CallOrder.Priced, CallOrder.getDebt, CallOrder.getCollateral, CallOrder.debtType,
        CallOrder.collateralType, hbase, hquote]
      exact hp
    · exact Table.findBy_none hnone hd (decide_eq_true ⟨hsame, hdebt.trans hquote⟩)
  · rename_i j c hfound
    obtain ⟨hc, hkey⟩ := Table.findBy_some hfound
    have hdebt : c.debtType = op.deltaDebt.assetId := (of_decide_eq_true hkey).2
    simp only [bind_eq_ok, require_eq_ok, exists_const, pure_eq_ok] at h
    obtain ⟨-, p, hp, rfl⟩ := h
    refine ⟨fun hpos => ?_, fun _ => ?_⟩
    · rw [if_pos hpos] at hp
      obtain ⟨-, hbase, hquote, -⟩ := Price.callPrice_ids hp
      refine Relation.ReflTransGen.single (.setCallOrder hc (hdebt ▸ hb) rfl hquote hbase ?_)
      simp only [CallOrder.Priced, CallOrder.getDebt, CallOrder.getCollateral, CallOrder.debtType,
        CallOrder.collateralType, hbase, hquote]
      exact hp
    · simp only [Table.remove_set]
      exact Relation.ReflTransGen.single (.removeCallOrder L j)

theorem apply_changes {rounds : Nat} {skip : Bool} (h : op.apply rounds skip L = .ok L') :
    Changes loose L L' := by
  simp only [apply, bind_eq_ok] at h
  obtain ⟨-, -, core, hcore, -, -, h⟩ := h
  obtain ⟨haccount, -⟩ := evaluateFee_exists hcore
  refine applyWithFee_changes (fun M M' hM hdo => ?_) h
  simp only [doApply, bind_eq_ok] at hdo
  obtain ⟨b, -, N, hN, u, hu, hdo⟩ := hdo
  have hmoved := moveFunds_funds hN
  have haccount' := hmoved.accounts _ (hM.accounts _ haccount)
  obtain ⟨hchanged, hremoved⟩ := updateOrder_changes haccount' hu
  refine hmoved.changes.trans ?_
  split at hdo
  · rename_i hzero
    simp only [bind_eq_ok, require_eq_ok, exists_const, pure_eq_ok] at hdo
    obtain ⟨-, rfl⟩ := hdo
    exact hremoved hzero
  · simp only [bind_eq_ok, require_eq_ok, exists_const] at hdo
    obtain ⟨⟨-, hpos⟩, hdo⟩ := hdo
    refine (hchanged hpos).trans ?_
    split at hdo
    · exact pure_eq_ok.mp hdo ▸ Relation.ReflTransGen.refl
    · simp only [checkUpdated, bind_eq_ok] at hdo
      obtain ⟨b', -, r, hr, hdo⟩ := hdo
      have hcalls : Changes loose u.2.2.2 r.2 := checkCallOrders_changes hr
      split at hdo
      · simp only [bind_eq_ok, pure_eq_ok] at hdo
        obtain ⟨-, -, rfl⟩ := hdo
        exact hcalls
      · simp only [bind_eq_ok, pure_eq_ok] at hdo
        obtain ⟨c, -, improved, -, -, -, rfl⟩ := hdo
        exact hcalls

end CallOrderUpdate

theorem BidCollateral.apply_changes {op : BidCollateral} {skip : Bool}
    (h : op.apply skip L = .ok L') : Changes loose L L' := by
  simp only [BidCollateral.apply, bind_eq_ok, require_eq_ok, exists_const] at h
  obtain ⟨hvalid, core, hcore, -, -, h⟩ := h
  obtain ⟨haccount, -⟩ := evaluateFee_exists hcore
  refine applyWithFee_changes (fun M M' hM hdo => ?_) h
  simp only [BidCollateral.doApply, bind_eq_ok] at hdo
  obtain ⟨N, hN, hdo⟩ := hdo
  have hcancel : Changes loose M N := by
    split at hN
    · exact pure_eq_ok.mp hN ▸ Relation.ReflTransGen.refl
    · exact cancelBid_changes hN
  refine hcancel.trans ?_
  split at hdo
  · exact pure_eq_ok.mp hdo ▸ Relation.ReflTransGen.refl
  · rename_i hne
    simp only [bind_eq_ok, createBid, require_eq_ok, exists_const, pure_eq_ok,
      Price.ofAssets_eq_ok] at hdo
    obtain ⟨N', hN', price, ⟨-, rfl⟩, hnone, rfl⟩ := hdo
    have hfunds := adjustBalance_funds hN'
    have hbidder := hfunds.accounts _ (hcancel.account (hM.accounts _ haccount))
    refine hfunds.changes.tail (.createBid N' _ hbidder (hvalid.2.resolve_left hne).2
      fun id e he hdebt hsame => ?_)
    exact Table.findBy_none hnone he (decide_eq_true ⟨hdebt, hsame⟩)

namespace AssetSettle

variable {op : AssetSettle}

theorem settleFromFund_funds {b : BitassetData} {supply : Int}
    (h : op.settleFromFund b supply L = .ok L') : Funds L L' := by
  simp only [settleFromFund, bind_eq_ok] at h
  obtain ⟨share, -, -, -, -, -, pays, -, M, hM, N, hN, h⟩ := h
  refine (adjustBalance_funds hM).trans (Funds.trans ?_ (modifyDynamicData_funds h))
  generalize (if op.amount.amount = supply then b.settlementFund else share.amount) = settled at hN
  split at hN
  · simp only [bind_eq_ok] at hN
    obtain ⟨N', hN', hN⟩ := hN
    exact (modifyBitasset_funds hN' fun _ => ⟨rfl, rfl, rfl, rfl⟩).trans (adjustBalance_funds hN)
  · exact pure_eq_ok.mp hN ▸ Funds.refl _

theorem apply_changes {skip : Bool} (h : op.apply skip L = .ok L') : Changes loose L L' := by
  simp only [apply, bind_eq_ok] at h
  obtain ⟨-, -, core, -, -, -, h⟩ := h
  refine applyWithFee_changes (fun M M' hM hdo => ?_) h
  simp only [doApply, bind_eq_ok] at hdo
  obtain ⟨a, -, b, hb, hdo⟩ := hdo
  split at hdo
  · exact (settleFromFund_funds hdo).changes
  · simp only [bind_eq_ok, pure_eq_ok] at hdo
    obtain ⟨N, hN, rfl⟩ := hdo
    have hfunds := adjustBalance_funds hN
    obtain ⟨b', hb', -⟩ := bitasset_of_terms (hfunds.assets _) hb
    exact hfunds.changes.tail (.createSettlement _ hb')

end AssetSettle

theorem AssetGlobalSettle.apply_changes {op : AssetGlobalSettle} {skip : Bool}
    (h : op.apply skip L = .ok L') : Changes loose L L' := by
  simp only [AssetGlobalSettle.apply, bind_eq_ok] at h
  obtain ⟨-, -, core, -, -, -, h⟩ := h
  exact applyWithFee_changes (fun _ _ _ hdo => globallySettleAsset_changes hdo) h

theorem modifyFeed_adjustment (feeds : BitassetData → List PublishedFeed) {now : Nat}
    {b : BitassetData} (hb : L.bitasset id = .ok b)
    (h : L.modifyBitasset id (fun b => b.fed (feeds b) now) = .ok L')
    (hfeeds : ∀ f ∈ feeds b, b.Published id f) : Adjustment L L' := by
  simp only [modifyBitasset, modifyAsset, asset, bind_eq_ok, demand_eq_ok, pure_eq_ok] at h
  obtain ⟨b', hb', a, ha, rfl⟩ := h
  obtain rfl : b' = b := Except.ok.inj (hb'.symm.trans hb)
  obtain ⟨a', ha', hab⟩ := bitasset_eq_ok.mp hb
  obtain rfl : a' = a := Option.some.inj (ha'.symm.trans ha)
  exact .feed (feeds b') now ha hab hfeeds

theorem BitassetData.mem_setFeed {b : BitassetData} {f g : PublishedFeed}
    (h : g ∈ (b.setFeed f).feeds) : g = f ∨ g ∈ b.feeds := by
  simp only [BitassetData.setFeed] at h
  split at h
  · obtain ⟨x, hx, he⟩ := List.mem_map.mp h
    split at he
    · exact Or.inl he.symm
    · exact Or.inr (he ▸ hx)
  · rcases List.mem_append.mp h with h | h
    · exact Or.inr h
    · exact Or.inl (List.mem_singleton.mp h)

theorem BitassetData.mem_setFeedProducers {b : BitassetData} {producers : List AccountId}
    {f : PublishedFeed} (h : f ∈ (b.setFeedProducers producers).feeds) :
    f ∈ b.feeds ∨ f.time = 0 := by
  obtain ⟨p, -, rfl⟩ := List.mem_map.mp h
  cases hf : b.feeds.find? fun f => f.producer = p with
  | none => exact Or.inr rfl
  | some f => exact Or.inl (List.mem_of_find?_eq_some hf)

theorem AssetPublishFeed.storeFeed_adjustment {op : AssetPublishFeed} {N : Ledger}
    (hvalid : op.Valid) (heval : op.doEvaluate L = .ok ()) (hfunds : Funds L M)
    (h : M.modifyBitasset op.assetId (fun b => (b.setFeed ⟨op.publisher, M.headBlockTime,
      op.feed⟩).updateMedianFeeds M.headBlockTime) = .ok N) : Adjustment M N := by
  simp only [AssetPublishFeed.doEvaluate, bind_eq_ok, require_eq_ok, exists_const] at heval
  obtain ⟨a, -, b, hb, -, hquote, -⟩ := heval
  obtain ⟨b', hb', hoptions, -⟩ := bitasset_of_terms (hfunds.assets _) hb
  refine modifyFeed_adjustment (fun b => (b.setFeed ⟨op.publisher, M.headBlockTime,
    op.feed⟩).feeds) hb' h fun f hf => ?_
  rcases BitassetData.mem_setFeed hf with rfl | hold
  swap
  · exact Or.inl hold
  refine Or.inr (Or.inr ?_)
  obtain ⟨-, ⟨hbasePos, hquotePos, -⟩, -, hbase⟩ := hvalid
  exact ⟨hbase, hquote.trans (by rw [hoptions]), hbasePos, hquotePos⟩

theorem AssetPublishFeed.apply_changes {op : AssetPublishFeed} {rounds : Nat} {skip : Bool}
    (h : op.apply rounds skip L = .ok L') :
    ∃ M N, Funds L M ∧ Adjustment M N ∧ Changes noOrder N L' := by
  simp only [AssetPublishFeed.apply, applyWithFee, AssetPublishFeed.doApply, bind_eq_ok,
    require_eq_ok, exists_const] at h
  obtain ⟨hvalid, core, -, u, heval, M1, h1, M2, h2, M3, ⟨old, -, N, hN, b, -, hdo⟩, h4⟩ := h
  have hfunds : Funds L M2 := (convertFee_funds h1).trans (modifyStatistics_funds h2)
  refine ⟨M2, N, hfunds, storeFeed_adjustment hvalid heval hfunds hN,
    Relation.ReflTransGen.trans ?_ (adjustBalance_funds h4).changes⟩
  split at hdo
  · exact pure_eq_ok.mp hdo ▸ Relation.ReflTransGen.refl
  · simp only [bind_eq_ok, pure_eq_ok] at hdo
    obtain ⟨a, -, R, hR, r, hr, rfl⟩ := hdo
    refine Relation.ReflTransGen.trans ?_ (checkCallOrders_changes hr)
    split at hR
    · simp only [bind_eq_ok] at hR
      obtain ⟨revives, -, hR⟩ := hR
      split at hR
      · exact reviveBitasset_changes hR
      · exact pure_eq_ok.mp hR ▸ Relation.ReflTransGen.refl
    · exact pure_eq_ok.mp hR ▸ Relation.ReflTransGen.refl

theorem Payment.apply_changes {op : Payment} {required : Int} {skip : Bool}
    (h : op.apply required skip L = .ok L') : Changes loose L L' := by
  cases op with
  | transfer op =>
    simp only [Payment.apply, Transfer.apply, bind_eq_ok] at h
    obtain ⟨-, -, core, -, -, -, h⟩ := h
    refine applyWithFee_changes (fun M M' _ hdo => ?_) h
    simp only [Transfer.doApply, bind_eq_ok] at hdo
    obtain ⟨N, hN, hdo⟩ := hdo
    exact ((adjustBalance_funds hN).trans (adjustBalance_funds hdo)).changes
  | assetIssue op =>
    simp only [Payment.apply, AssetIssue.apply, bind_eq_ok] at h
    obtain ⟨-, -, core, -, -, -, h⟩ := h
    refine applyWithFee_changes (fun M M' _ hdo => ?_) h
    simp only [AssetIssue.doApply, bind_eq_ok] at hdo
    obtain ⟨N, hN, hdo⟩ := hdo
    exact ((adjustBalance_funds hN).trans (modifyDynamicData_funds hdo)).changes
  | assetReserve op =>
    simp only [Payment.apply, AssetReserve.apply, bind_eq_ok] at h
    obtain ⟨-, -, core, -, -, -, h⟩ := h
    refine applyWithFee_changes (fun M M' _ hdo => ?_) h
    simp only [AssetReserve.doApply, bind_eq_ok] at hdo
    obtain ⟨N, hN, hdo⟩ := hdo
    exact ((adjustBalance_funds hN).trans (modifyDynamicData_funds hdo)).changes
  | assetFundFeePool op =>
    simp only [Payment.apply, AssetFundFeePool.apply, bind_eq_ok] at h
    obtain ⟨-, -, core, -, -, -, h⟩ := h
    refine applyWithFee_changes (fun M M' _ hdo => ?_) h
    simp only [AssetFundFeePool.doApply, bind_eq_ok] at hdo
    obtain ⟨N, hN, hdo⟩ := hdo
    exact ((adjustBalance_funds hN).trans (modifyDynamicData_funds hdo)).changes
  | assetClaimFees op =>
    simp only [Payment.apply, AssetClaimFees.apply, bind_eq_ok] at h
    obtain ⟨-, -, core, -, a, -, -, -, h⟩ := h
    refine applyWithFee_changes (fun M M' _ hdo => ?_) h
    simp only [AssetClaimFees.doApply, bind_eq_ok] at hdo
    obtain ⟨a, -, -, -, N, hN, hdo⟩ := hdo
    exact ((modifyDynamicData_funds hN).trans (adjustBalance_funds hdo)).changes

/-! ### Blocks -/

namespace Ledger

theorem settleRound_changes {mia : AssetId} {price : Price} {most : Int} {s : Settling}
    {r : Settling ⊕ Settling} (h : settleRound mia id price most s = .ok r) :
    Changes loose s.ledger (r.elim Settling.ledger Settling.ledger) := by
  simp only [settleRound] at h
  split at h
  · exact pure_eq_ok.mp h ▸ Relation.ReflTransGen.refl
  · split at h
    · exact pure_eq_ok.mp h ▸ Relation.ReflTransGen.refl
    · simp only [bind_eq_ok] at h
      obtain ⟨b, -, low, -, call, -, h⟩ := h
      split at h
      · simp only [bind_eq_ok, pure_eq_ok] at h
        obtain ⟨M, hM, rfl⟩ := h
        exact cancelSettleOrder_changes hM
      · simp only [bind_eq_ok] at h
        obtain ⟨m, hm, h⟩ := h
        have hmatch : Changes loose s.ledger m.2 := matchCallAndSettle_changes hm
        split at h <;> exact pure_eq_ok.mp h ▸ hmatch

theorem settleOrder_changes {rounds : Nat} {s : Clearing} {b : BitassetData}
    {r : Clearing ⊕ Ledger} (h : settleOrder rounds s id b = .ok r) :
    Changes loose s.ledger (r.elim Clearing.ledger fun M => M) := by
  simp only [settleOrder, bind_eq_ok, pure_eq_ok] at h
  obtain ⟨fillPrice, -, done, hdone, M, hM, rfl⟩ := h
  have hrounds : Changes loose s.ledger done.ledger := by
    refine loop_invariant (P := fun t : Settling => Changes loose s.ledger t.ledger)
      (Q := fun t : Settling => Changes loose s.ledger t.ledger) (fun t t' ht hround => ?_)
      (fun t t' ht hround => ?_) rounds
      ⟨s.ledger, b.forceSettledVolume, s.currentAssetFinished⟩ _ Relation.ReflTransGen.refl hdone
    · exact ht.trans (settleRound_changes hround)
    · exact ht.trans (settleRound_changes hround)
  refine hrounds.trans ?_
  split at hM
  · exact (modifyBitasset_funds hM fun _ => ⟨rfl, rfl, rfl, rfl⟩).changes
  · exact pure_eq_ok.mp hM ▸ Relation.ReflTransGen.refl

theorem clearRound_changes {rounds : Nat} {s : Clearing} {r : Clearing ⊕ Ledger}
    (h : clearRound rounds s = .ok r) :
    Changes loose s.ledger (r.elim Clearing.ledger fun M => M) := by
  simp only [clearRound] at h
  split at h
  · exact pure_eq_ok.mp h ▸ Relation.ReflTransGen.refl
  · simp only [bind_eq_ok] at h
    obtain ⟨a, -, b, -, h⟩ := h
    split at h
    · simp only [bind_eq_ok, pure_eq_ok] at h
      obtain ⟨M, hM, rfl⟩ := h
      exact cancelSettleOrder_changes hM
    · split at h
      · rw [pure_eq_ok.mp h, nextAsset_ledger]
        exact Relation.ReflTransGen.refl
      · split at h
        · simp only [bind_eq_ok, pure_eq_ok] at h
          obtain ⟨M, hM, rfl⟩ := h
          exact cancelSettleOrder_changes hM
        · generalize (ite (s.maxSettlementVolume.assetId ≠ _) _ _ : Asset) = volume at h
          split at h
          · rw [pure_eq_ok.mp h, nextAsset_ledger]
            exact Relation.ReflTransGen.refl
          · have hsettled : Changes loose _ _ := settleOrder_changes h
            exact hsettled

theorem clearExpiredOrders_changes {rounds : Nat} (h : L.clearExpiredOrders rounds = .ok L') :
    Changes loose L L' := by
  simp only [clearExpiredOrders, bind_eq_ok] at h
  obtain ⟨M, hM, h⟩ := h
  have hexpired : Changes loose L M := by
    refine foldlM_invariant (P := fun M => Changes loose L M) (fun M r M' hM hstep => ?_) _ _ _
      Relation.ReflTransGen.refl hM
    exact hM.trans (cancelLimitOrder_changes hstep)
  split at h
  · exact pure_eq_ok.mp h ▸ hexpired
  · refine loop_invariant (P := fun s => Changes loose L s.ledger)
      (Q := fun M => Changes loose L M) (fun s s' hs hround => ?_) (fun s r hs hround => ?_)
      rounds _ _ hexpired h
    · exact hs.trans (clearRound_changes hround)
    · exact hs.trans (clearRound_changes hround)

theorem updateExpiredFeed_changes {rounds : Nat} {mia : AssetId}
    (h : L.updateExpiredFeed rounds mia = .ok L') :
    ∃ M, Adjustment L M ∧ Changes noOrder M L' := by
  simp only [updateExpiredFeed, bind_eq_ok] at h
  obtain ⟨old, hold, M, hM, b, -, h⟩ := h
  refine ⟨M, modifyFeed_adjustment BitassetData.feeds hold hM fun _ hf => Or.inl hf, ?_⟩
  split at h
  · simp only [bind_eq_ok, pure_eq_ok] at h
    obtain ⟨r, hr, rfl⟩ := h
    exact checkCallOrders_changes hr
  · exact pure_eq_ok.mp h ▸ Relation.ReflTransGen.refl

theorem updateFeedProducers_changes {rounds : Nat} {mia : AssetId} {producers : List AccountId}
    (h : L.updateFeedProducers rounds mia producers = .ok L') :
    ∃ M, Adjustment L M ∧ Changes noOrder M L' := by
  simp only [updateFeedProducers, bind_eq_ok, pure_eq_ok] at h
  obtain ⟨M, hM, r, hr, rfl⟩ := h
  obtain ⟨b, hb, -⟩ := bind_eq_ok.mp hM
  refine ⟨M, modifyFeed_adjustment (fun b => (b.setFeedProducers producers).feeds) hb hM
    fun f hf => ?_, checkCallOrders_changes hr⟩
  rcases BitassetData.mem_setFeedProducers hf with hold | hnone
  · exact Or.inl hold
  · exact Or.inr (Or.inl hnone)

theorem executeCoveringBid_changes {mia : AssetId} {b : BitassetData} {s s' : Reviving}
    {bid : Nat × CollateralBid} (hL : L.bitasset mia = .ok b)
    (hs : Changes loose L s.ledger ∧
      ∀ j d, s.ledger.bids.find j = some d → L.bids.find j = some d)
    (hbid : L.bids.find bid.1 = some bid.2 ∧ bid.2.debtType = mia)
    (h : executeCoveringBid b s bid = .ok s') :
    Changes loose L s'.ledger ∧ ∀ j d, s'.ledger.bids.find j = some d → L.bids.find j = some d := by
  simp only [executeCoveringBid, bind_eq_ok, pure_eq_ok] at h
  obtain ⟨share, -, M, hM, rfl⟩ := h
  obtain ⟨b', hb', -, -, hfeed, -⟩ := bitasset_of_terms (hs.1.terms mia) hL
  have hexecute := hM
  simp only [executeBid, createCallOrder, bind_eq_ok, demand_eq_ok, require_eq_ok, exists_const,
    pure_eq_ok] at hexecute
  obtain ⟨d, hd, p, -, -, ⟨-, rfl⟩, N, hN, rfl⟩ := hexecute
  obtain rfl : d = bid.2 := Option.some.inj ((hs.2 _ d hd).symm.trans hbid.1)
  rw [← hfeed] at hM
  refine ⟨hs.1.trans (executeBid_changes hd (hbid.2.symm ▸ hb') hM), fun j e he => ?_⟩
  have hfind := (Table.find_remove_iff.mp he).2
  rw [(noteInOrders_funds hN).bids] at hfind
  exact hs.2 j e hfind

theorem processBids_changes {mia : AssetId} {b : BitassetData} (hs : Shape L)
    (hb : L.bitasset mia = .ok b) (hsettled : b.hasSettlement = true)
    (h : L.processBids mia = .ok L') : Changes loose L L' := by
  simp only [processBids, bind_eq_ok] at h
  obtain ⟨b', hb', h⟩ := h
  obtain rfl : b' = b := Except.ok.inj (hb'.symm.trans hb)
  split at h
  · exact pure_eq_ok.mp h ▸ Relation.ReflTransGen.refl
  · split at h
    · exact pure_eq_ok.mp h ▸ Relation.ReflTransGen.refl
    · simp only [bind_eq_ok] at h
      obtain ⟨zero, hzero, a, -, high, -, covering, hcovering, h⟩ := h
      have hmia := toRevive_eq hs hb hsettled hzero
      split at h
      · exact pure_eq_ok.mp h ▸ Relation.ReflTransGen.refl
      · simp only [bind_eq_ok] at h
        obtain ⟨done, hdone, -, -, -, -, h⟩ := h
        have hplaced : ∀ r ∈ covering.2, L.bids.find r.1 = some r.2 ∧ r.2.debtType = mia := by
          intro r hr
          obtain ⟨hfind, hdebt, -⟩ := mem_bidsFor.mp ((coveringBids_sublist hcovering).subset hr)
          exact ⟨hfind, hdebt.trans hmia⟩
        have hexecuted := foldlM_induction
          (P := fun (rest : List (Nat × CollateralBid)) (s : Reviving) =>
            (∀ r ∈ rest, L.bids.find r.1 = some r.2 ∧ r.2.debtType = mia) ∧
            Changes loose L s.ledger ∧
              ∀ j d, s.ledger.bids.find j = some d → L.bids.find j = some d)
          (fun bid rest s s' hP hstep => ⟨fun r hr => hP.1 r (List.mem_cons_of_mem bid hr),
            executeCoveringBid_changes hb hP.2 (hP.1 bid (List.mem_cons_self ..)) hstep⟩)
          covering.2 ⟨L, a.dynamicData.currentSupply, b'.settlementFund⟩ done
          ⟨hplaced, Relation.ReflTransGen.refl, fun _ _ hd => hd⟩ hdone
        exact hexecuted.2.1.trans (cancelBidsAndReviveMpa_changes h)

theorem processBitasset_changes {mia : AssetId} (hL : Balanced L)
    (h : L.processBitasset mia = .ok L') : Changes loose L L' := by
  simp only [processBitasset, bind_eq_ok] at h
  obtain ⟨M, hM, b, hb, h⟩ := h
  have hreset := modifyBitasset_keeps hL.shape hM (fun _ _ => rfl) (fun _ => rfl) (fun _ => rfl)
  refine (modifyBitasset_funds hM fun _ => ⟨rfl, rfl, rfl, rfl⟩).changes.trans ?_
  split at h
  · rename_i hset
    exact processBids_changes hreset.shape hb hset h
  · exact pure_eq_ok.mp h ▸ Relation.ReflTransGen.refl

theorem processBitassets_changes (hL : Balanced L) (h : L.processBitassets = .ok L') :
    Changes loose L L' := by
  have hall := foldlM_invariant (P := fun M => Balanced M ∧ Changes loose L M)
    (fun M r M' hM hstep => ⟨(processBitasset_keeps hM.1 hstep).balanced hM.1,
      hM.2.trans (processBitasset_changes hM.1 hstep)⟩) _ _ _ ⟨hL, Relation.ReflTransGen.refl⟩ h
  exact hall.2

end Ledger

/-! ### Steps -/

/-- A step that is no operation of the market. -/
inductive Tick : Ledger → Ledger → Prop
  | payment {L L' : Ledger} (requiredFee : Int) (skipFeeScheduleCheck : Bool) (op : Payment)
      (h : op.apply requiredFee skipFeeScheduleCheck L = .ok L') : Tick L L'
  | clearExpiredOrders {L L' : Ledger} (rounds : Nat)
      (h : L.clearExpiredOrders rounds = .ok L') : Tick L L'
  | updateExpiredFeed {L L' : Ledger} (rounds : Nat) (mia : AssetId)
      (h : L.updateExpiredFeed rounds mia = .ok L') : Tick L L'
  | updateFeedProducers {L L' : Ledger} (rounds : Nat) (mia : AssetId) (producers : List AccountId)
      (h : L.updateFeedProducers rounds mia producers = .ok L') : Tick L L'
  | processBitassets {L L' : Ledger} (h : L.processBitassets = .ok L') : Tick L L'
  | assetUpdate {L : Ledger} {id : AssetId} {a : AssetObject} (issuer : AccountId)
      (options : AssetOptions) (ha : L.assets.find id = some a)
      (hissuer : (L.accounts.find issuer).isSome) :
      Tick L { L with assets := L.assets.set id { a with issuer := issuer, options := options } }
  | assetUpdateBitasset {L L' : Ledger} {id : AssetId} {b : BitassetData}
      (options : BitassetOptions) (hb : L.bitasset id = .ok b)
      (hbacking : options.shortBackingAsset = b.options.shortBackingAsset)
      (h : L.modifyBitasset id (fun b => { b with options := options }) = .ok L') : Tick L L'
  | advance (L : Ledger) (time : Nat) (h : L.headBlockTime ≤ time) :
      Tick L { L with headBlockTime := time }
  | schedule (L : Ledger) (parameters : Parameters) : Tick L { L with parameters := parameters }

theorem step_iff : Step L L' ↔
    (∃ rounds skip, ∃ op : Operation, op.apply rounds skip L = .ok L') ∨ Tick L L' := by
  constructor
  · intro h
    cases h with
    | operation rounds skip op h => exact Or.inl ⟨rounds, skip, op, h⟩
    | payment required skip op h => exact Or.inr (.payment required skip op h)
    | clearExpiredOrders rounds h => exact Or.inr (.clearExpiredOrders rounds h)
    | updateExpiredFeed rounds mia h => exact Or.inr (.updateExpiredFeed rounds mia h)
    | updateFeedProducers rounds mia producers h =>
      exact Or.inr (.updateFeedProducers rounds mia producers h)
    | processBitassets h => exact Or.inr (.processBitassets h)
    | assetUpdate issuer options ha hissuer => exact Or.inr (.assetUpdate issuer options ha hissuer)
    | assetUpdateBitasset options hb hbacking h =>
      exact Or.inr (.assetUpdateBitasset options hb hbacking h)
    | advance time h => exact Or.inr (.advance L time h)
    | schedule parameters => exact Or.inr (.schedule L parameters)
  · rintro (⟨rounds, skip, op, h⟩ | h)
    · exact .operation rounds skip op h
    · cases h with
      | payment required skip op h => exact .payment required skip op h
      | clearExpiredOrders rounds h => exact .clearExpiredOrders rounds h
      | updateExpiredFeed rounds mia h => exact .updateExpiredFeed rounds mia h
      | updateFeedProducers rounds mia producers h =>
        exact .updateFeedProducers rounds mia producers h
      | processBitassets h => exact .processBitassets h
      | assetUpdate issuer options ha hissuer => exact .assetUpdate issuer options ha hissuer
      | assetUpdateBitasset options hb hbacking h =>
        exact .assetUpdateBitasset options hb hbacking h
      | advance time h => exact .advance L time h
      | schedule parameters => exact .schedule L parameters

/-- There are only changes, or changes after an adjustment. -/
def Adjusts (L L' : Ledger) : Prop :=
  Changes noOrder L L' ∨ ∃ M N, Funds L M ∧ Adjustment M N ∧ Changes noOrder N L'

theorem Tick.adjusts (hL : Balanced L) (h : Tick L L') : Adjusts L L' := by
  cases h with
  | payment required skip op h => exact Or.inl (op.apply_changes h)
  | clearExpiredOrders rounds h => exact Or.inl (clearExpiredOrders_changes h)
  | updateExpiredFeed rounds mia h =>
    obtain ⟨M, hM, hchanges⟩ := updateExpiredFeed_changes h
    exact Or.inr ⟨L, M, Funds.refl L, hM, hchanges⟩
  | updateFeedProducers rounds mia producers h =>
    obtain ⟨M, hM, hchanges⟩ := updateFeedProducers_changes h
    exact Or.inr ⟨L, M, Funds.refl L, hM, hchanges⟩
  | processBitassets h => exact Or.inl (processBitassets_changes hL h)
  | assetUpdate issuer options ha hissuer =>
    exact Or.inr ⟨L, _, Funds.refl L, .asset issuer options ha hissuer, Relation.ReflTransGen.refl⟩
  | assetUpdateBitasset options hb hbacking h =>
    obtain ⟨a, ha, hab⟩ := bitasset_eq_ok.mp hb
    simp only [modifyBitasset, modifyAsset, asset, bind_eq_ok, demand_eq_ok, pure_eq_ok] at h
    obtain ⟨b', hb', a', ha', rfl⟩ := h
    obtain rfl := Except.ok.inj (hb'.symm.trans hb)
    obtain rfl : a' = a := Option.some.inj (ha'.symm.trans ha)
    exact Or.inr ⟨L, _, Funds.refl L, .bitasset options ha hab hbacking,
      Relation.ReflTransGen.refl⟩
  | advance time _ =>
    exact Or.inr ⟨L, _, Funds.refl L, .time L time, Relation.ReflTransGen.refl⟩
  | schedule parameters =>
    exact Or.inr ⟨L, _, Funds.refl L, .parameters L parameters, Relation.ReflTransGen.refl⟩

theorem Operation.adjusts {op : Operation} {rounds : Nat} {skip : Bool}
    (h : op.apply rounds skip L = .ok L') :
    (∃ create, op = .limitOrderCreate create ∧ create.apply rounds skip L = .ok L') ∨
      Adjusts L L' := by
  cases op with
  | limitOrderCreate op => exact Or.inl ⟨op, rfl, h⟩
  | limitOrderCancel op => exact Or.inr (Or.inl (op.apply_changes h))
  | callOrderUpdate op => exact Or.inr (Or.inl (op.apply_changes h))
  | bidCollateral op => exact Or.inr (Or.inl (op.apply_changes h))
  | assetSettle op => exact Or.inr (Or.inl (op.apply_changes h))
  | assetGlobalSettle op => exact Or.inr (Or.inl (op.apply_changes h))
  | assetPublishFeed op => exact Or.inr (Or.inr (op.apply_changes h))

theorem Adjusts.invariant {P : Ledger → Prop} (hchange : ∀ M M', P M → Change noOrder M M' → P M')
    (hadjust : ∀ M M', P M → Adjustment M M' → P M') (h : Adjusts L L') (hP : P L) : P L' := by
  rcases h with hrest | ⟨M, N, hM, hN, hrest⟩
  · exact hrest.invariant hchange hP
  · exact hrest.invariant hchange (hadjust _ _ (hchange _ _ hP (.funds hM)) hN)

theorem Run.invariant {P : Ledger → Prop} (hL : Balanced L)
    (hchange : ∀ (loose : Nat → Prop) M M', P M → Change loose M M' → P M')
    (hadjust : ∀ M M', P M → Adjustment M M' → P M') (h : Run L L') (hP : P L) : P L' := by
  have hall : Balanced L' ∧ P L' := by
    induction h with
    | refl => exact ⟨hL, hP⟩
    | tail _ hstep ih =>
      refine ⟨(hstep.keeps ih.1).balanced ih.1, ?_⟩
      rcases step_iff.mp hstep with ⟨rounds, skip, op, happly⟩ | htick
      · rcases op.adjusts happly with ⟨create, -, hcreate⟩ | hadjusts
        · exact (create.apply_changes hcreate).invariant (hchange _) ih.2
        · exact hadjusts.invariant (hchange _) hadjust ih.2
      · exact (htick.adjusts ih.1).invariant (hchange _) hadjust ih.2
  exact hall.2

/-! ### Runs of allowed operations -/

/-- A run in which every operation of the market is allowed. -/
def RunOf (allowed : Operation → Prop) : Ledger → Ledger → Prop :=
  Relation.ReflTransGen fun L L' =>
    (∃ rounds skip, ∃ op : Operation, allowed op ∧ op.apply rounds skip L = .ok L') ∨ Tick L L'

theorem RunOf.run {allowed : Operation → Prop} (h : RunOf allowed L L') : Run L L' := by
  induction h with
  | refl => exact Relation.ReflTransGen.refl
  | tail _ hstep ih =>
    refine ih.tail (step_iff.mpr ?_)
    rcases hstep with ⟨rounds, skip, op, -, happly⟩ | htick
    · exact Or.inl ⟨rounds, skip, op, happly⟩
    · exact Or.inr htick

theorem RunOf.invariant {allowed : Operation → Prop} {P : Ledger → Prop} (hL : Balanced L)
    (hcreate : ∀ M M' rounds skip (op : LimitOrderCreate), Balanced M → P M →
      allowed (.limitOrderCreate op) → op.apply rounds skip M = .ok M' → P M')
    (hchange : ∀ M M', P M → Change noOrder M M' → P M')
    (hadjust : ∀ M M', P M → Adjustment M M' → P M') (h : RunOf allowed L L') (hP : P L) :
    P L' := by
  have hall : Balanced L' ∧ P L' := by
    induction h with
    | refl => exact ⟨hL, hP⟩
    | @tail M M' _ hstep ih =>
      have hkeeps : Keeps M M' := by
        refine (step_iff.mpr ?_ : Step M M').keeps ih.1
        rcases hstep with ⟨rounds, skip, op, -, happly⟩ | htick
        · exact Or.inl ⟨rounds, skip, op, happly⟩
        · exact Or.inr htick
      refine ⟨hkeeps.balanced ih.1, ?_⟩
      rcases hstep with ⟨rounds, skip, op, hallowed, happly⟩ | htick
      · rcases op.adjusts happly with ⟨create, rfl, happly⟩ | hadjusts
        · exact hcreate M M' rounds skip create ih.1 ih.2 hallowed happly
        · exact hadjusts.invariant hchange hadjust ih.2
      · exact (htick.adjusts ih.1).invariant hchange hadjust ih.2
  exact hall.2

theorem Ledger.perform_runOf {allowed : Operation → Prop} {rounds : Nat} {ops : List Operation}
    (hallowed : ∀ op ∈ ops, allowed op) (h : L.perform rounds ops = .ok L') :
    RunOf allowed L L' := by
  have hrun := foldlM_induction (f := fun M (op : Operation) => op.apply rounds false M)
    (P := fun rest M => (∀ op ∈ rest, allowed op) ∧ RunOf allowed L M)
    (fun op rest M M' hM hop => ⟨fun op' hop' => hM.1 op' (List.mem_cons_of_mem op hop'),
      hM.2.tail (Or.inl ⟨rounds, false, op, hM.1 op (List.mem_cons_self ..), hop⟩)⟩)
    ops L L' ⟨hallowed, Relation.ReflTransGen.refl⟩ h
  exact hrun.2

end Nestchain.Market
