import Nestchain.Market.Charges

/-! Conservation in the market: whatever operations and blocks do, what is held of an asset is its
supply, the debts in an asset that is not globally settled are its supply, and the statistics of an
account say how much of the core asset is in its orders. -/

namespace Nestchain.Market

open Lib

namespace Ledger

variable {L L' : Ledger}

/-! ### Expired orders -/

theorem settleRound_keeps {mia : AssetId} {id : Nat} {price : Price} {volume : Int} {s : Settling}
    {x : Settling ⊕ Settling} (hs : Shape s.ledger)
    (h : settleRound mia id price volume s = .ok x) :
    Keeps s.ledger (x.elim Settling.ledger Settling.ledger) := by
  simp only [settleRound] at h
  split at h
  · obtain rfl := pure_eq_ok.mp h
    exact Keeps.refl hs
  · split at h
    · obtain rfl := pure_eq_ok.mp h
      exact Keeps.refl hs
    · simp only [bind_eq_ok] at h
      obtain ⟨b, -, low, -, call, -, h⟩ := h
      split at h
      · simp only [bind_eq_ok, pure_eq_ok] at h
        obtain ⟨M, hM, rfl⟩ := h
        exact (cancelSettleOrder_turn hs hM).keeps
      · simp only [bind_eq_ok] at h
        obtain ⟨r, hr, h⟩ := h
        have hkeeps := (matchCallAndSettle_turn hs hr).keeps
        split at h
        · obtain rfl := pure_eq_ok.mp h
          exact hkeeps
        · obtain rfl := pure_eq_ok.mp h
          exact hkeeps

theorem settleOrder_keeps {rounds : Nat} {s : Clearing} {id : Nat} {mia : BitassetData}
    {x : Clearing ⊕ Ledger} (h : settleOrder rounds s id mia = .ok x) (hs : Shape s.ledger) :
    Keeps s.ledger (x.elim Clearing.ledger fun L => L) := by
  simp only [settleOrder, bind_eq_ok, pure_eq_ok] at h
  obtain ⟨price, -, done, hdone, M, hM, rfl⟩ := h
  have hsettled : Keeps s.ledger done.ledger :=
    loop_invariant (P := fun t => Keeps s.ledger t.ledger) (Q := fun t => Keeps s.ledger t.ledger)
      (fun t t' ht hround => ht.trans (settleRound_keeps ht.shape hround))
      (fun t t' ht hround => ht.trans (settleRound_keeps ht.shape hround)) _ _ _
      (Keeps.refl hs) hdone
  split at hM
  · exact hsettled.trans (modifyBitasset_keeps hsettled.shape hM (fun _ _ => rfl) (fun _ => rfl)
      (fun _ => rfl))
  · obtain rfl := pure_eq_ok.mp hM
    exact hsettled

theorem nextAsset_ledger (s : Clearing) :
    (nextAsset s).elim Clearing.ledger (fun L => L) = s.ledger := by
  unfold nextAsset
  split <;> rfl

theorem clearRound_keeps {rounds : Nat} {s : Clearing} {x : Clearing ⊕ Ledger}
    (hs : Shape s.ledger) (h : clearRound rounds s = .ok x) :
    Keeps s.ledger (x.elim Clearing.ledger fun L => L) := by
  unfold clearRound at h
  split at h
  · obtain rfl := pure_eq_ok.mp h
    exact Keeps.refl hs
  · simp only [bind_eq_ok, demand_eq_ok] at h
    obtain ⟨a, -, mia, -, h⟩ := h
    split at h
    · simp only [bind_eq_ok, pure_eq_ok] at h
      obtain ⟨M, hM, rfl⟩ := h
      exact (cancelSettleOrder_turn hs hM).keeps
    · split at h
      · obtain rfl := pure_eq_ok.mp h
        rw [nextAsset_ledger]
        exact Keeps.refl hs
      · split at h
        · simp only [bind_eq_ok, pure_eq_ok] at h
          obtain ⟨M, hM, rfl⟩ := h
          exact (cancelSettleOrder_turn hs hM).keeps
        · generalize (ite (s.maxSettlementVolume.assetId ≠ _) _ _ : Asset) = volume at h
          split at h
          · obtain rfl := pure_eq_ok.mp h
            rw [nextAsset_ledger]
            exact Keeps.refl hs
          · have hkeeps := settleOrder_keeps h hs
            exact hkeeps

theorem clearExpiredOrders_keeps {rounds : Nat} (hs : Shape L)
    (h : clearExpiredOrders rounds L = .ok L') : Keeps L L' := by
  simp only [clearExpiredOrders, bind_eq_ok] at h
  obtain ⟨M, hM, h⟩ := h
  have hcancelled : Keeps L M :=
    foldlM_invariant (P := fun M => Keeps L M)
      (fun M r M' hM hstep => hM.trans (cancelLimitOrder_turn hM.shape hstep).1.keeps) _ _ _
      (Keeps.refl hs) hM
  split at h
  · obtain rfl := pure_eq_ok.mp h
    exact hcancelled
  · exact loop_invariant (P := fun s => Keeps L s.ledger) (Q := fun L' => Keeps L L')
      (fun s s' hs hround => hs.trans (clearRound_keeps hs.shape hround))
      (fun s r hs hround => hs.trans (clearRound_keeps hs.shape hround)) _ _ _ hcancelled h

/-! ### Feeds and bids -/

theorem updateExpiredFeed_keeps {rounds : Nat} {mia : AssetId} (hs : Shape L)
    (h : L.updateExpiredFeed rounds mia = .ok L') : Keeps L L' := by
  simp only [updateExpiredFeed, bind_eq_ok] at h
  obtain ⟨old, -, M, hM, b, -, h⟩ := h
  have hfed := modifyBitasset_keeps hs hM (fun _ _ => rfl) (fun _ => rfl) (fun _ => rfl)
  split at h
  · simp only [bind_eq_ok, pure_eq_ok] at h
    obtain ⟨r, hr, rfl⟩ := h
    exact hfed.trans (checkCallOrders_keeps hfed.shape hr)
  · obtain rfl := pure_eq_ok.mp h
    exact hfed

theorem updateFeedProducers_keeps {rounds : Nat} {mia : AssetId} {producers : List AccountId}
    (hs : Shape L) (h : L.updateFeedProducers rounds mia producers = .ok L') : Keeps L L' := by
  simp only [updateFeedProducers, bind_eq_ok, pure_eq_ok] at h
  obtain ⟨M, hM, r, hr, rfl⟩ := h
  have hfed := modifyBitasset_keeps hs hM (fun _ _ => rfl) (fun _ => rfl) (fun _ => rfl)
  exact hfed.trans (checkCallOrders_keeps hfed.shape hr)

theorem processBitasset_keeps {mia : AssetId} (hL : Balanced L)
    (h : L.processBitasset mia = .ok L') : Keeps L L' := by
  simp only [processBitasset, bind_eq_ok] at h
  obtain ⟨M, hM, b, hb, h⟩ := h
  have hreset := modifyBitasset_keeps hL.shape hM (fun _ _ => rfl) (fun _ => rfl) (fun _ => rfl)
  split at h
  · rename_i hset
    exact hreset.trans (processBids_keeps hreset.shape
      (Balanced.supply_nonneg (hreset.balanced hL) mia) hb hset h)
  · obtain rfl := pure_eq_ok.mp h
    exact hreset

theorem processBitassets_keeps (hL : Balanced L) (h : L.processBitassets = .ok L') :
    Keeps L L' :=
  foldlM_invariant (P := fun M => Keeps L M)
    (fun _ _ _ hM hstep => hM.trans (processBitasset_keeps (hM.balanced hL) hstep)) _ _ _
    (Keeps.refl hL.shape) h

end Ledger

open Ledger

theorem Operation.apply_keeps {L L' : Ledger} {rounds : Nat} {skip : Bool} {op : Operation}
    (hL : Balanced L) (h : op.apply rounds skip L = .ok L') : Keeps L L' := by
  cases op with
  | limitOrderCreate op => exact op.apply_keeps hL.shape h
  | limitOrderCancel op => exact op.apply_keeps hL.shape h
  | callOrderUpdate op => exact op.apply_keeps hL.shape h
  | bidCollateral op => exact op.apply_keeps hL.shape h
  | assetSettle op => exact op.apply_keeps hL h
  | assetGlobalSettle op => exact op.apply_keeps hL.shape h
  | assetPublishFeed op => exact op.apply_keeps hL h

theorem Payment.apply_keeps {L L' : Ledger} {required : Int} {skip : Bool} {op : Payment}
    (hL : Balanced L) (h : op.apply required skip L = .ok L') : Keeps L L' := by
  cases op with
  | transfer op => exact op.apply_keeps hL.shape h
  | assetIssue op => exact op.apply_keeps hL.shape h
  | assetReserve op => exact op.apply_keeps hL.shape h
  | assetFundFeePool op => exact op.apply_keeps hL.shape h
  | assetClaimFees op => exact op.apply_keeps hL.shape h

/-! ### Runs -/

theorem assetUpdate_keeps {L : Ledger} {id : AssetId} {a : AssetObject} {issuer : AccountId}
    {options : AssetOptions} (hs : Shape L) (ha : L.assets.find id = some a) :
    Keeps L { L with assets := L.assets.set id { a with issuer := issuer, options :=
      options } } := by
  refine Pays.keeps hs ⟨?_, bitasset_set_of_eq ha rfl, fun j b _ _ => ?_, rfl, rfl, rfl, rfl,
    fun hn => { hn with fees := fun j d hd => ?_ }⟩
  · rw [books_setAsset ha, add_zero]
    exact sub_add_cancel _ _
  · by_cases hj : j = id
    · subst hj
      rw [supply_set_self ha, supply_of_find ha]
    · exact supply_set_ne _ hj
  · rcases (Table.find_set_iff ha).mp hd with ⟨-, rfl⟩ | ⟨-, hd⟩
    · exact hn.fees id a ha
    · exact hn.fees j d hd

theorem Step.keeps {L L' : Ledger} (hL : Balanced L) (h : Step L L') : Keeps L L' := by
  cases h with
  | operation rounds skip op h => exact op.apply_keeps hL h
  | payment required skip op h => exact op.apply_keeps hL h
  | clearExpiredOrders rounds h => exact clearExpiredOrders_keeps hL.shape h
  | updateExpiredFeed rounds mia h => exact updateExpiredFeed_keeps hL.shape h
  | updateFeedProducers rounds mia producers h => exact updateFeedProducers_keeps hL.shape h
  | processBitassets h => exact processBitassets_keeps hL h
  | assetUpdate issuer options ha _ => exact assetUpdate_keeps hL.shape ha
  | assetUpdateBitasset options hb hbacking h =>
    refine modifyBitasset_keeps hL.shape h (fun b' hb' => ?_) (fun _ => rfl) (fun _ => rfl)
    exact Except.ok.inj (hb.symm.trans hb') ▸ hbacking
  | advance time _ =>
    exact ⟨rfl, hL.shape.limitOrders, hL.shape.callOrders, hL.shape.settlements, hL.shape.bids,
      hL.shape.nonneg, hL.shape.bitassets, hL.shape.solvent, hL.shape.debts, hL.shape.core⟩
  | schedule parameters =>
    exact ⟨rfl, hL.shape.limitOrders, hL.shape.callOrders, hL.shape.settlements, hL.shape.bids,
      hL.shape.nonneg, hL.shape.bitassets, hL.shape.solvent, hL.shape.debts, hL.shape.core⟩

theorem Run.balanced {L L' : Ledger} (hL : Balanced L) (h : Run L L') : Balanced L' := by
  induction h with
  | refl => exact hL
  | tail _ hstep ih => exact (hstep.keeps ih).balanced ih

/-- A ledger before the first order: what is held of each asset is its supply, and no market-issued
asset has a supply or a settlement. -/
structure Opening (L : Ledger) : Prop where
  limitOrders : ∀ id, L.limitOrders.find id = none
  callOrders : ∀ id, L.callOrders.find id = none
  settlements : ∀ id, L.settlements.find id = none
  bids : ∀ id, L.bids.find id = none
  nonneg : Nonneg L.accounts L.assets L.balances
  bitassets : ∀ id b, L.bitasset id = .ok b → b.options.shortBackingAsset ≠ id ∧
    b.settlementPrice = Price.null ∧ b.settlementFund = 0 ∧ L.supply id = 0
  held : ∀ id, L.totalBalance id = L.supply id
  statistics : ∀ id a, L.accounts.find id = some a → a.statistics.totalCoreInOrders = 0

theorem Opening.balanced {L : Ledger} (h : Opening L) : Balanced L := by
  have hunsettled : ∀ id b, L.bitasset id = .ok b → b.hasSettlement = false := by
    intro id b hb
    rw [BitassetData.hasSettlement, (h.bitassets id b hb).2.1]
    rfl
  have hbooks : L.books = 0 := by
    funext l
    cases l with
    | asset id => rw [books_asset, h.held, sub_self, Pi.zero_apply]
    | debt id =>
      rw [books_debt, Ledger.totalDebt, Table.sum_of_find_none h.callOrders, zero_sub,
        Pi.zero_apply,
        neg_eq_zero]
      cases ha : L.assets.find id with
      | none => rfl
      | some a =>
        cases hb : a.bitassetData with
        | none => simp [hb]
        | some b =>
          have hzero := (h.bitassets id b (bitasset_eq_ok.mpr ⟨a, ha, hb⟩)).2.2.2
          rw [supply_of_find ha] at hzero
          simp [hzero]
    | core account =>
      rw [books_core, Ledger.coreInOrders, Table.sum_of_find_none h.limitOrders,
        Table.sum_of_find_none h.callOrders, Ledger.reportedCoreInOrders, Pi.zero_apply]
      cases ha : L.accounts.find account with
      | none => rfl
      | some a => simp [h.statistics account a ha]
  refine ⟨⟨fun id o ho => ?_, fun id c hc => ?_, fun id s hs => ?_, fun id b hb => ?_, h.nonneg,
    fun id b hb => ?_, fun id b hb hset => ?_, fun id => hbooks ▸ rfl, fun account => hbooks ▸ rfl⟩,
    hbooks⟩
  · exact absurd ((h.limitOrders id).symm.trans ho) (Option.some_ne_none _).symm
  · exact absurd ((h.callOrders id).symm.trans hc) (Option.some_ne_none _).symm
  · exact absurd ((h.settlements id).symm.trans hs) (Option.some_ne_none _).symm
  · exact absurd ((h.bids id).symm.trans hb) (Option.some_ne_none _).symm
  · obtain ⟨hbacking, -, hfund, -⟩ := h.bitassets id b hb
    have hfalse : ¬b.hasSettlement = true := by simp [hunsettled id b hb]
    exact ⟨hbacking, fun _ => hfund, fun hset => absurd hset hfalse, fun hset => absurd hset hfalse,
      fun hset => absurd hset hfalse, le_of_eq hfund.symm⟩
  · exact absurd hset (by simp [hunsettled id b hb])

/-- In every ledger that a run reaches, what is held of each asset is its supply, the debts in each
market-issued asset that is not globally settled are its supply, and the statistics of each account
say how much of the core asset is in its orders. -/
theorem assets_conserved {L₀ L : Ledger} (h₀ : Opening L₀) (h : Run L₀ L) :
    (∀ id, L.totalBalance id = L.supply id) ∧
    (∀ id b, L.bitasset id = .ok b → b.hasSettlement = false → L.totalDebt id = L.supply id) ∧
    ∀ account, L.reportedCoreInOrders account = L.coreInOrders account := by
  have hL := h.balanced h₀.balanced
  refine ⟨fun id => ?_, fun id b hb hunsettled => ?_, fun account => ?_⟩
  · exact Balanced.totalBalance_eq hL id
  · exact totalDebt_eq_supply hL.shape hb hunsettled
  · have hline := congrFun hL.books (.core account)
    rw [books_core, Pi.zero_apply, sub_eq_zero] at hline
    exact hline.symm

/-- Two accounts with a hundred of the core asset and fifty of another asset. -/
def tradingLedger : Ledger where
  headBlockTime := 1600000000
  parameters := ⟨0, 0, 0, 0, 0, 0, 0, 0, [], []⟩
  accounts := (Table.empty.create ⟨⟨0, 0, 0⟩, none, [], []⟩).create ⟨⟨0, 0, 0⟩, none, [], []⟩
  assets := (Table.empty.create ⟨0, plainOptions, ⟨100, 0, 0⟩, none⟩).create
    ⟨0, plainOptions, ⟨50, 0, 0⟩, none⟩
  balances := (Table.empty.create ⟨0, 0, 100⟩).create ⟨1, 1, 50⟩
  limitOrders := Table.empty
  callOrders := Table.empty
  settlements := Table.empty
  bids := Table.empty
where
  plainOptions : AssetOptions :=
    ⟨0, 0, false, false, false, false, false, false, false, 1000, Price.null, [], [], [], [],
      Nat.zero_le fullPercent, by decide⟩

/-- Ten of the core asset for five of the other asset, and the other way round. -/
def sellCore : LimitOrderCreate := ⟨⟨0, 0⟩, 0, ⟨10, 0⟩, ⟨5, 1⟩, 1700000000, false⟩

def buyCore : LimitOrderCreate := ⟨⟨0, 0⟩, 1, ⟨5, 1⟩, ⟨10, 0⟩, 1700000000, false⟩

theorem tradingLedger_opening : Opening tradingLedger where
  limitOrders _ := rfl
  callOrders _ := rfl
  settlements _ := rfl
  bids _ := rfl
  nonneg := by
    refine ⟨fun id a h => ?_, fun id a h => ?_, fun id b h => ?_⟩ <;>
      rw [Table.find_iff_mem] at h <;>
      simp [tradingLedger, Table.create, Table.empty] at h <;>
      rcases h with ⟨-, rfl⟩ | ⟨-, rfl⟩ <;> decide
  bitassets id b h := by
    obtain ⟨a, ha, hb⟩ := bitasset_eq_ok.mp h
    rw [Table.find_iff_mem] at ha
    simp [tradingLedger, Table.create, Table.empty] at ha
    rcases ha with ⟨-, rfl⟩ | ⟨-, rfl⟩ <;> cases hb
  held id := by
    rcases id with _ | _ | n
    · decide
    · decide
    · simp [Ledger.totalBalance, Ledger.supply, tradingLedger, Table.create, Table.empty,
        Table.sum, Table.find, Asset.amountIn, coreAsset, List.lookup]
  statistics id a h := by
    rw [Table.find_iff_mem] at h
    simp [tradingLedger, Table.create, Table.empty] at h
    rcases h with ⟨-, rfl⟩ | ⟨-, rfl⟩ <;> rfl

theorem tradingLedger_conserved : ∃ L L' : Ledger,
    sellCore.apply 5 false tradingLedger = .ok L ∧ buyCore.apply 5 false L = .ok L' ∧
    (∀ id, L'.totalBalance id = L'.supply id) ∧
    (∀ id b, L'.bitasset id = .ok b → b.hasSettlement = false →
      L'.totalDebt id = L'.supply id) ∧
    ∀ account, L'.reportedCoreInOrders account = L'.coreInOrders account := by
  have hrun : (do
      let L ← sellCore.apply 5 false tradingLedger
      buyCore.apply 5 false L).toOption.isSome = true := by decide +kernel
  cases hL : sellCore.apply 5 false tradingLedger with
  | error e =>
    rw [hL] at hrun
    cases hrun
  | ok L =>
    rw [hL] at hrun
    cases hL' : buyCore.apply 5 false L with
    | error e =>
      change (buyCore.apply 5 false L).toOption.isSome = true at hrun
      rw [hL'] at hrun
      cases hrun
    | ok L' =>
      refine ⟨L, L', rfl, hL', assets_conserved tradingLedger_opening ?_⟩
      exact (Relation.ReflTransGen.refl.tail (.operation 5 false
        (.limitOrderCreate sellCore) hL)).tail
        (.operation 5 false (.limitOrderCreate buyCore) hL')

/-! ### Ledgers to start from -/

/-- A market-issued asset that is backed by the core asset and of which nothing is issued yet. -/
def AssetObject.Fresh (a : AssetObject) : Prop :=
  a.dynamicData = ⟨0, 0, 0⟩ ∧ ∃ b ∈ a.bitassetData, b.options.shortBackingAsset = coreAsset ∧
    b.settlementPrice = Price.null ∧ b.settlementFund = 0

instance (a : AssetObject) : Decidable a.Fresh := inferInstanceAs (Decidable (_ ∧ _))

/-- Accounts that hold some of the core asset, and market-issued assets. -/
def freshLedger (time : Nat) (holdings : List Int) (issued : List AssetObject) : Ledger where
  headBlockTime := time
  parameters := ⟨0, 0, 0, 0, 0, 0, 0, 0, [], []⟩
  accounts := Table.ofList (holdings.map fun _ => ⟨⟨0, 0, 0⟩, none, [], []⟩)
  assets := Table.ofList (⟨0, tradingLedger.plainOptions, ⟨holdings.sum, 0, 0⟩, none⟩ :: issued)
  balances := Table.ofList (holdings.zipIdx.map fun r => ⟨r.2, coreAsset, r.1⟩)
  limitOrders := Table.empty
  callOrders := Table.empty
  settlements := Table.empty
  bids := Table.empty

section

variable {time : Nat} {holdings : List Int} {issued : List AssetObject} {id : Nat}

theorem freshLedger_account {a : Account}
    (h : (freshLedger time holdings issued).accounts.find id = some a) :
    a.statistics = ⟨0, 0, 0⟩ := by
  rw [freshLedger, Table.find_ofList] at h
  obtain ⟨x, -, rfl⟩ := List.mem_map.mp (List.mem_of_getElem? h)
  rfl

theorem freshLedger_asset {a : AssetObject}
    (h : (freshLedger time holdings issued).assets.find id = some a) :
    (id = coreAsset ∧ a.dynamicData = ⟨holdings.sum, 0, 0⟩ ∧ a.bitassetData = none) ∨
      (id ≠ coreAsset ∧ a ∈ issued) := by
  rw [freshLedger, Table.find_ofList] at h
  cases id with
  | zero =>
    obtain rfl := Option.some.inj h
    exact Or.inl ⟨rfl, rfl, rfl⟩
  | succ n => exact Or.inr ⟨Nat.succ_ne_zero n, List.mem_of_getElem? h⟩

theorem freshLedger_balance {b : AccountBalance}
    (h : (freshLedger time holdings issued).balances.find id = some b) :
    b.assetType = coreAsset ∧ b.balance ∈ holdings := by
  rw [freshLedger, Table.find_ofList] at h
  obtain ⟨r, hr, rfl⟩ := List.mem_map.mp (List.mem_of_getElem? h)
  exact ⟨rfl, List.mem_of_getElem? (List.mem_zipIdx_iff_getElem?.mp hr)⟩

theorem freshLedger_empty (hissued : ∀ a ∈ issued, a.Fresh) {a : AssetObject}
    (h : (freshLedger time holdings issued).assets.find id = some a) :
    a.dynamicData.accumulatedFees = 0 ∧ a.dynamicData.feePool = 0 ∧
      ∀ b, a.bitassetData = some b → b.settlementFund = 0 := by
  rcases freshLedger_asset h with ⟨-, hd, hb⟩ | ⟨-, hmem⟩
  · rw [hd]
    refine ⟨rfl, rfl, fun b h => ?_⟩
    rw [hb] at h
    cases h
  · obtain ⟨hd, b, hb, -, -, hfund⟩ := hissued a hmem
    rw [hd]
    exact ⟨rfl, rfl, fun b' h => Option.some.inj (h.symm.trans hb) ▸ hfund⟩

theorem freshLedger_balances (id : AssetId) :
    ((freshLedger time holdings issued).balances.sum fun _ b =>
      (Asset.mk b.balance b.assetType).amountIn id) = if id =
        coreAsset then holdings.sum else 0 := by
  rw [freshLedger, Table.sum_ofList, List.map_map]
  by_cases hid : id = coreAsset
  · subst hid
    have hfst : (fun b : AccountBalance => (Asset.mk b.balance b.assetType).amountIn coreAsset) ∘
        (fun r : Int × Nat => AccountBalance.mk r.2 coreAsset r.1) = Prod.fst := by
      funext r
      simp [Asset.amountIn]
    rw [if_pos rfl, hfst, List.zipIdx_map_fst]
  · rw [if_neg hid]
    refine List.sum_eq_zero fun x hx => ?_
    obtain ⟨r, -, rfl⟩ := List.mem_map.mp hx
    exact if_neg (Ne.symm hid)

theorem freshLedger_supply (hissued : ∀ a ∈ issued, a.Fresh) (id : AssetId) :
    (freshLedger time holdings issued).supply id = if id = coreAsset then holdings.sum else 0 := by
  cases ha : (freshLedger time holdings issued).assets.find id with
  | none =>
    have hid : id ≠ coreAsset := by
      rintro rfl
      rw [freshLedger, Table.find_ofList] at ha
      cases ha
    rw [Ledger.supply, ha, if_neg hid]
    rfl
  | some a =>
    rw [supply_of_find ha]
    rcases freshLedger_asset ha with ⟨hid, hd, -⟩ | ⟨hid, hmem⟩
    · rw [hd, if_pos hid]
    · rw [(hissued a hmem).1, if_neg hid]

theorem freshLedger_held (hissued : ∀ a ∈ issued, a.Fresh) (id : AssetId) :
    (freshLedger time holdings issued).totalBalance id =
      (freshLedger time holdings issued).supply id := by
  have haccounts : ((freshLedger time holdings issued).accounts.sum fun _ a =>
      (Asset.mk a.statistics.pendingFees coreAsset).amountIn id +
      (Asset.mk a.statistics.pendingVestedFees coreAsset).amountIn id) = 0 := by
    refine Table.sum_eq_zero fun k a ha => ?_
    simp [freshLedger_account ha, Asset.amountIn]
  rw [Ledger.totalBalance, freshLedger_balances, haccounts, freshLedger_supply hissued,
    Table.sum_eq_zero (t := (freshLedger time holdings issued).assets)]
  · simp [freshLedger]
  · intro k a ha
    obtain ⟨hfees, hpool, hfund⟩ := freshLedger_empty hissued ha
    cases hb : a.bitassetData with
    | none => simp [Asset.amountIn, hfees, hpool]
    | some b => simp [Asset.amountIn, hfees, hpool, hfund b hb]

theorem freshLedger_opening (hholdings : ∀ x ∈ holdings, 0 ≤ x)
    (hissued : ∀ a ∈ issued, a.Fresh) : Opening (freshLedger time holdings issued) where
  limitOrders _ := rfl
  callOrders _ := rfl
  settlements _ := rfl
  bids _ := rfl
  nonneg := by
    refine ⟨fun id a h => ?_, fun id a h => ?_, fun id b h => ?_⟩
    · simp [freshLedger_account h]
    · obtain ⟨hfees, hpool, -⟩ := freshLedger_empty hissued h
      exact ⟨le_of_eq hfees.symm, le_of_eq hpool.symm⟩
    · exact hholdings _ (freshLedger_balance h).2
  bitassets id b h := by
    obtain ⟨a, ha, hb⟩ := bitasset_eq_ok.mp h
    rcases freshLedger_asset ha with ⟨-, -, hnone⟩ | ⟨hid, hmem⟩
    · rw [hnone] at hb
      cases hb
    · obtain ⟨hd, b', hb', hbacking, hprice, hfund⟩ := hissued a hmem
      obtain rfl : b' = b := Option.some.inj (hb'.symm.trans hb)
      refine ⟨fun he => hid (he.symm.trans hbacking), hprice, hfund, ?_⟩
      rw [supply_of_find ha, hd]
  held := freshLedger_held hissued
  statistics id a h := by rw [freshLedger_account h]

end

end Nestchain.Market
