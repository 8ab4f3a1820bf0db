import Nestchain.Market.FeedRevival
import Nestchain.Market.CallPrices

/-! The revival of a globally settled asset by collateral bids.  `process_bids` runs in the
maintenance of the chain, where nothing may throw: the bids that cover the supply become positions
that share the fund, and the others are refunded. -/

namespace Nestchain.Market

open Lib Ledger

/-! ### Bids of a run -/

/-- The bids have collateral, and a bidder has at most one for an asset. -/
structure BidsSound (L : Ledger) : Prop where
  collateral : ∀ id d, L.bids.find id = some d → 0 < d.invSwanPrice.base.amount
  unique : ∀ i j d e, L.bids.find i = some d → L.bids.find j = some e → d.debtType = e.debtType →
    d.bidder = e.bidder → i = j

variable {L L' : Ledger} {loose : Nat → Prop}

theorem BidsSound.of_find (h : BidsSound L)
    (hbids : ∀ id d, L'.bids.find id = some d → L.bids.find id = some d) : BidsSound L' :=
  ⟨fun id d hd => h.collateral id d (hbids id d hd), fun i j d e hd he =>
    h.unique i j d e (hbids i d hd) (hbids j e he)⟩

theorem BidsSound.change (h : BidsSound L) (hchange : Change loose L L') : BidsSound L' := by
  cases hchange with
  | funds hfunds => exact h.of_find fun id d hd => hfunds.bids ▸ hd
  | createBid d hbidder hcollateral hfree =>
    constructor
    · intro id e he
      rcases Table.find_create_iff.mp he with he | ⟨-, rfl⟩
      · exact h.collateral id e he
      · exact hcollateral
    · intro i j x y hx hy hdebt hsame
      rcases Table.find_create_iff.mp hx with hx' | ⟨rfl, rfl⟩ <;>
        rcases Table.find_create_iff.mp hy with hy' | ⟨rfl, rfl⟩
      · exact h.unique i j x y hx' hy' hdebt hsame
      · exact absurd hsame (hfree i x hx' hdebt)
      · exact absurd hsame.symm (hfree j y hy' hdebt.symm)
      · rfl
  | issuerBid d => exact h.of_find fun id e he => Table.find_remove_create.mp he
  | removeBid j => exact h.of_find fun id d hd => (Table.find_remove_iff.mp hd).2
  | _ => exact ⟨h.collateral, h.unique⟩

theorem Run.bidsSound (hL : Balanced L) (hbids : BidsSound L) (h : Run L L') : BidsSound L' := by
  refine h.invariant hL (fun _ _ _ hM hc => hM.change hc) (fun M M' hM ha => ?_) hbids
  cases ha <;> exact ⟨hM.collateral, hM.unique⟩

/-- The ledgers that the maintenance of the bitassets goes through: the settled volume of an asset
is reset, and the bids of a globally settled one are processed. -/
def Maintaining : Ledger → Ledger → Prop :=
  Relation.ReflTransGen fun M M' =>
    (∃ mia, M.modifyBitasset mia (fun b => { b with forceSettledVolume := 0 }) = .ok M') ∨
      ∃ mia b, M.bitasset mia = .ok b ∧ b.hasSettlement = true ∧ M.processBids mia = .ok M'

/-- What holds of a ledger in which bids are processed. -/
structure BidsReady (L : Ledger) : Prop where
  balanced : Balanced L
  owned : Owned L
  fed : Fed L
  bids : BidsSound L

theorem BidsReady.of_run {L₀ : Ledger} (h₀ : Genesis L₀) (h : Run L₀ L) : BidsReady L := by
  refine ⟨Run.balanced h₀.balanced h, Run.owned h₀.balanced h₀.owned h,
    Run.fed h₀.balanced h₀.fed h, Run.bidsSound h₀.balanced
      ⟨fun id d hd => ?_, fun i j d e hd => ?_⟩ h⟩
  · exact absurd ((h₀.opening.bids id).symm.trans hd) (Option.some_ne_none _).symm
  · exact absurd ((h₀.opening.bids i).symm.trans hd) (Option.some_ne_none _).symm

theorem BidsReady.changes (h : BidsReady L) (hkeeps : Keeps L L')
    (hchanges : Changes noOrder L L') :
    BidsReady L' :=
  ⟨hkeeps.balanced h.balanced, hchanges.invariant (fun _ _ hM hc => hM.change hc) h.owned,
    hchanges.invariant (fun _ _ hM hc => hM.change hc) h.fed,
    hchanges.invariant (fun _ _ hM hc => hM.change hc) h.bids⟩

theorem Maintaining.ready (hL : BidsReady L) (h : Maintaining L L') : BidsReady L' := by
  induction h with
  | refl => exact hL
  | tail _ hstep ih =>
    rcases hstep with ⟨mia, hreset⟩ | ⟨mia, b, hb, hset, hprocess⟩
    · exact ih.changes
        (modifyBitasset_keeps ih.balanced.shape hreset (fun _ _ => rfl) (fun _ => rfl) fun _ => rfl)
        (modifyBitasset_funds hreset fun _ => ⟨rfl, rfl, rfl, rfl⟩).changes
    · exact ih.changes
        (processBids_keeps ih.balanced.shape (Balanced.supply_nonneg ih.balanced mia) hb hset hprocess)
        (processBids_changes ih.balanced.shape hb hset hprocess)

/-! ### The condition -/

/-- What the debt of a bid is worth at the settlement price. -/
def BitassetData.worthOf (b : BitassetData) (d : CollateralBid) : Int :=
  d.invSwanPrice.quote.amount * b.settlementPrice.quote.amount / b.settlementPrice.base.amount

/-- The call price of the position of a bid with a debt and a share of the fund. -/
def CollateralBid.callPrice (d : CollateralBid) (debt share : Int) (ratio : Nat) : Attempt Price :=
  Price.callPrice ⟨debt, d.debtType⟩ ⟨d.invSwanPrice.base.amount + share,
    d.invSwanPrice.base.assetId⟩
    ratio

/-- The rounding of call prices does not turn their order around: a position of the bid with more
collateral for its debt than the whole bid has no lower call price. -/
def BitassetData.KeepsOrder (b : BitassetData) (d : CollateralBid) (debt share : Int) : Prop :=
  ∀ p q, 0 ≤ share → share ≤ b.settlementFund →
    debt * (d.invSwanPrice.base.amount + b.worthOf d) ≤
      d.invSwanPrice.quote.amount * (d.invSwanPrice.base.amount + share) →
    d.callPrice d.invSwanPrice.quote.amount (b.worthOf d)
      b.currentFeed.maintenanceCollateralRatio = .ok p →
    d.callPrice debt share b.currentFeed.maintenanceCollateralRatio = .ok q → p ≤ q

/-- The position of a whole bid would not be called. -/
def BitassetData.Uncalled (b : BitassetData) (d : CollateralBid) : Prop :=
  ∀ p, d.callPrice d.invSwanPrice.quote.amount (b.worthOf d)
    b.currentFeed.maintenanceCollateralRatio = .ok p → p.inverse < b.currentFeed.settlementPrice

def debtOf (bids : List (Nat × CollateralBid)) : Int :=
  (bids.map fun r => r.2.invSwanPrice.quote.amount).sum

/-- The shares of whole bids in the settlement fund. -/
def sharesOf (b : BitassetData) (bids : List (Nat × CollateralBid)) : Int :=
  (bids.map fun r => b.worthOf r.2).sum

@[simp] theorem debtOf_concat (bids : List (Nat × CollateralBid)) (r : Nat × CollateralBid) :
    debtOf (bids ++ [r]) = debtOf bids + r.2.invSwanPrice.quote.amount := by
  simp [debtOf]

@[simp] theorem sharesOf_concat (b : BitassetData) (bids : List (Nat × CollateralBid))
    (r : Nat × CollateralBid) :
    sharesOf b (bids ++ [r]) = sharesOf b bids + b.worthOf r.2 := by
  simp [sharesOf]

/-- The search for the bids that cover the supply comes to a bid: those with a better price would
not be called and do not cover it. -/
structure Reaches (L : Ledger) (mia : AssetId) (b : BitassetData) (supply : Int)
    (before : List (Nat × CollateralBid)) (r : Nat × CollateralBid) : Prop where
  listed : ∃ high after, Price.greatest b.options.shortBackingAsset mia = .ok high ∧
    L.bidsFor mia high = before ++ r :: after
  uncalled : ∀ r' ∈ before, b.Uncalled r'.2
  uncovered : debtOf before < supply

theorem Reaches.found {mia : AssetId} {b : BitassetData} {supply : Int}
    {before : List (Nat × CollateralBid)} {r : Nat × CollateralBid}
    (h : Reaches L mia b supply before r) : L.bids.find r.1 = some r.2 := by
  obtain ⟨high, after, -, hlisted⟩ := h.listed
  exact (mem_bidsFor.mp (hlisted ▸ List.mem_append_right before List.mem_cons_self)).1

/-- The bids for an asset can be processed: the settlement price is not zero, the prices of the bids
are up to `price::max`, the debts of those that the search comes to can be converted, and rounding
does not call the position of the one that covers the rest of the supply. -/
structure Processable (L : Ledger) (mia : AssetId) (b : BitassetData) (supply : Int) : Prop where
  price : 0 < b.settlementPrice.quote.amount
  found : ∀ id d, L.bids.find id = some d → d.debtType = mia →
    d.invSwanPrice.base.amount ≤ maxShareSupply * d.invSwanPrice.quote.amount
  worth : ∀ before r, Reaches L mia b supply before r → b.worthOf r.2 ≤ maxShareSupply
  ordered : ∀ before r, Reaches L mia b supply before r → supply ≤ debtOf (before ++ [r]) →
    b.KeepsOrder r.2 (supply - debtOf before) (b.settlementFund - sharesOf b before)

/-! ### The parts of the bids -/

/-- The part of a bid in the revival: the debt that it takes, its share of the fund and the call
price of its position. -/
structure BidPart where
  id : Nat
  bid : CollateralBid
  debt : Int
  share : Int
  callPrice : Price

namespace BidPart

def position (p : BidPart) : CallOrder :=
  ⟨p.bid.bidder, p.bid.invSwanPrice.base.amount + p.share, p.debt, p.callPrice, none⟩

/-- The part is that of a bid for the asset, and its position has debt and collateral and is not
called at the current feed. -/
structure Sound (p : BidPart) (L : Ledger) (mia : AssetId) (feed : PriceFeed) : Prop where
  bid : L.bids.find p.id = some p.bid
  debtType : p.bid.debtType = mia
  debt_pos : 0 < p.debt
  collateral_pos : 0 < p.position.collateral
  priced : p.position.Priced feed.maintenanceCollateralRatio
  uncalled : p.callPrice.inverse < feed.settlementPrice

theorem priced {p : BidPart} {ratio : Nat}
    (h : p.bid.callPrice p.debt p.share ratio = .ok p.callPrice) : p.position.Priced ratio := by
  obtain ⟨-, hbase, hquote, -⟩ := Price.callPrice_ids h
  simp only [CallOrder.Priced, CallOrder.getDebt, CallOrder.getCollateral, CallOrder.debtType,
    CallOrder.collateralType, position, hbase, hquote]
  exact h

/-- The collateral in an asset that the executed bids of an account put in. -/
def spent (parts : List BidPart) (account : AccountId) (id : AssetId) : Int :=
  (parts.map fun p => if p.bid.bidder = account then p.bid.invSwanPrice.base.amountIn id else 0).sum

end BidPart

/-- The ledger `L'` after the revival of `mia` in `L` by the parts. -/
structure RevivedByBids (L L' : Ledger) (mia : AssetId) (a : AssetObject) (b : BitassetData)
    (parts : List BidPart) : Prop where
  bitasset : L'.bitasset mia = .ok (revivedData b)
  distinct : (parts.map BidPart.id).Nodup
  sound : ∀ p ∈ parts, p.Sound L mia b.currentFeed
  debts : (parts.map BidPart.debt).sum = a.dynamicData.currentSupply
  shares : (parts.map BidPart.share).sum = b.settlementFund
  positions : L'.callOrders = (parts.map BidPart.position).foldl Table.create L.callOrders
  bids : ∀ id d, L'.bids.find id = some d → d.debtType ≠ mia
  refunds : ∀ account id, (L'.getBalance account id).amount + BidPart.spent parts account id =
    (L.getBalance account id).amount + L.bidsOf mia account id

/-! ### The bids that cover the supply -/

/-- A ledger in which the bids of a globally settled asset are processed. -/
structure Processing (L : Ledger) (mia : AssetId) (a : AssetObject) (b : BitassetData) : Prop where
  ready : BidsReady L
  asset : L.assets.find mia = some a
  data : a.bitassetData = some b
  settled : b.hasSettlement = true
  notPrediction : b.isPredictionMarket = false
  feed : b.currentFeed.settlementPrice.Between mia b.options.shortBackingAsset
  processable : Processable L mia b a.dynamicData.currentSupply

namespace Processing

variable {mia : AssetId} {a : AssetObject} {b : BitassetData}

theorem bitasset (h : Processing L mia a b) : L.bitasset mia = .ok b :=
  bitasset_eq_ok.mpr ⟨a, h.asset, h.data⟩

theorem dataSound (h : Processing L mia a b) : b.Sound mia :=
  h.ready.balanced.shape.bitassets mia b h.bitasset

theorem solvent (h : Processing L mia a b) : b.Solvent a.dynamicData.currentSupply := by
  have hsolvent := h.ready.balanced.shape.solvent mia b h.bitasset h.settled
  rwa [supply_of_find h.asset] at hsolvent

theorem supply_nonneg (h : Processing L mia a b) : 0 ≤ a.dynamicData.currentSupply := by
  have hsupply := Balanced.supply_nonneg h.ready.balanced mia
  rwa [supply_of_find h.asset] at hsupply

theorem base_pos (h : Processing L mia a b) (hsupply : 0 < a.dynamicData.currentSupply) :
    0 < b.settlementPrice.base.amount := by
  have hpos := mul_pos hsupply h.processable.price
  exact pos_of_mul_pos_right (lt_of_lt_of_le hpos h.solvent.enough) h.dataSound.fund_nonneg

/-- A bid for the asset. -/
structure Bid (L : Ledger) (mia : AssetId) (r : Nat × CollateralBid) : Prop where
  found : L.bids.find r.1 = some r.2
  debtType : r.2.debtType = mia

variable {r : Nat × CollateralBid}

theorem debt_pos (h : Processing L mia a b) (hr : Bid L mia r) :
    0 < r.2.invSwanPrice.quote.amount :=
  (h.ready.balanced.shape.bids r.1 r.2 hr.found).debt_pos

theorem collateral_pos (h : Processing L mia a b) (hr : Bid L mia r) :
    0 < r.2.invSwanPrice.base.amount := h.ready.bids.collateral r.1 r.2 hr.found

theorem backing (h : Processing L mia a b) (hr : Bid L mia r) :
    r.2.invSwanPrice.base.assetId = b.options.shortBackingAsset :=
  (bid_backed h.ready.balanced.shape h.bitasset hr.found).2 hr.debtType

theorem worth_nonneg (h : Processing L mia a b) (hr : Bid L mia r)
    (hbase : 0 < b.settlementPrice.base.amount) : 0 ≤ b.worthOf r.2 :=
  Int.ediv_nonneg (mul_nonneg (le_of_lt (h.debt_pos hr)) (le_of_lt h.processable.price))
    (le_of_lt hbase)

theorem worth_ok (h : Processing L mia a b) (hr : Bid L mia r)
    (hbase : 0 < b.settlementPrice.base.amount) (hworth : b.worthOf r.2 ≤ maxShareSupply) :
    r.2.invSwanPrice.quote.mul b.settlementPrice =
      .ok ⟨b.worthOf r.2, b.options.shortBackingAsset⟩ := by
  have hid : r.2.invSwanPrice.quote.assetId = b.settlementPrice.base.assetId :=
    hr.debtType.trans (h.dataSound.base_asset h.settled).symm
  rw [Asset.mul_base hid, h.dataSound.quote_asset h.settled]
  exact convert_eq_ok.mpr ⟨hbase, mul_nonneg (le_of_lt (h.debt_pos hr))
    (le_of_lt h.processable.price), hworth, rfl⟩

theorem callPrice_ok (h : Processing L mia a b) (hr : Bid L mia r) (debt : Int) {share : Int}
    (hshare : 0 ≤ share) :
    ∃ p, r.2.callPrice debt share b.currentFeed.maintenanceCollateralRatio = .ok p := by
  have hpos := h.collateral_pos hr
  refine ⟨_, Price.callPrice_eq_ok.mpr ⟨?_, ?_, rfl⟩⟩
  · exact ne_of_gt (add_pos_of_pos_of_nonneg hpos hshare)
  · simp only [h.backing hr, hr.debtType]
    exact h.dataSound.backing_ne

theorem callPrice_whole (h : Processing L mia a b) (hr : Bid L mia r) (ratio : Nat) :
    Price.callPrice r.2.invSwanPrice.quote
      ⟨b.worthOf r.2 + r.2.invSwanPrice.base.amount, b.options.shortBackingAsset⟩ ratio =
      r.2.callPrice r.2.invSwanPrice.quote.amount (b.worthOf r.2) ratio := by
  rw [CollateralBid.callPrice, add_comm, h.backing hr]
  rfl

theorem bid_of_listed {high : Price} {before after : List (Nat × CollateralBid)}
    (hlisted : L.bidsFor mia high = before ++ after) {r : Nat × CollateralBid}
    (hr : r ∈ before ++ after) : Bid L mia r :=
  ⟨(mem_bidsFor.mp (hlisted ▸ hr)).1, (mem_bidsFor.mp (hlisted ▸ hr)).2.1⟩

theorem debtOf_nonneg (h : Processing L mia a b) {bids : List (Nat × CollateralBid)}
    (hbids : ∀ r ∈ bids, Bid L mia r) : 0 ≤ debtOf bids := by
  refine List.sum_nonneg fun x hx => ?_
  obtain ⟨r, hr, rfl⟩ := List.mem_map.mp hx
  exact le_of_lt (h.debt_pos (hbids r hr))

theorem coveringBids_ok (h : Processing L mia a b) {high : Price}
    (hhigh : Price.greatest b.options.shortBackingAsset mia = .ok high) :
    ∀ bids before : List (Nat × CollateralBid), L.bidsFor mia high = before ++ bids →
      (∀ r ∈ before, b.Uncalled r.2) →
      ∃ c, coveringBids b a.dynamicData.currentSupply (debtOf before) bids = .ok c
  | [], before, _, _ => ⟨_, rfl⟩
  | r :: bids, before, hlisted, huncalled => by
    have hr : Bid L mia r := bid_of_listed hlisted (by simp)
    simp only [coveringBids]
    split
    · rename_i hlt
      have hcovered := h.debtOf_nonneg fun r' hr' =>
        bid_of_listed hlisted (List.mem_append_left _ hr')
      have hbase := h.base_pos (lt_of_le_of_lt hcovered hlt)
      have hworth := h.worth_ok hr hbase
        (h.processable.worth before r ⟨⟨high, bids, hhigh, hlisted⟩, huncalled, hlt⟩)
      obtain ⟨p, hp⟩ := h.callPrice_ok hr r.2.invSwanPrice.quote.amount (h.worth_nonneg hr hbase)
      by_cases hcalled : b.currentFeed.settlementPrice ≤ p.inverse
      · refine ⟨(debtOf before, []), ?_⟩
        simp only [bind_eq_ok, Asset.plus_eq_ok]
        refine ⟨_, hworth, _, ⟨(h.backing hr).symm, rfl⟩, p, ?_, ?_⟩
        · exact (h.callPrice_whole hr _).trans hp
        · rw [if_pos hcalled]
          rfl
      · obtain ⟨rest, hrest⟩ := coveringBids_ok h hhigh bids (before ++ [r]) (by simp [hlisted]) (by
          intro r' hr' q hq
          rcases List.mem_append.mp hr' with hr' | hr'
          · exact huncalled r' hr' q hq
          · obtain rfl := List.mem_singleton.mp hr'
            obtain rfl := Except.ok.inj (hp.symm.trans hq)
            exact not_not.mp hcalled)
        rw [debtOf_concat] at hrest
        refine ⟨(rest.1, r :: rest.2), ?_⟩
        simp only [bind_eq_ok, Asset.plus_eq_ok]
        refine ⟨_, hworth, _, ⟨(h.backing hr).symm, rfl⟩, p, ?_, ?_⟩
        · exact (h.callPrice_whole hr _).trans hp
        · rw [if_neg hcalled]
          simp only [bind_eq_ok, pure_eq_ok]
          exact ⟨rest, hrest, rfl⟩
    · exact ⟨_, rfl⟩

theorem coveringBids_taken (h : Processing L mia a b) (hr : Bid L mia r)
    {covered total : Int} {bids rest : List (Nat × CollateralBid)} {p : Price}
    (hbase : 0 < b.settlementPrice.base.amount) (hworth : b.worthOf r.2 ≤ maxShareSupply)
    (hp : r.2.callPrice r.2.invSwanPrice.quote.amount (b.worthOf r.2)
      b.currentFeed.maintenanceCollateralRatio = .ok p)
    (hcovering : coveringBids b a.dynamicData.currentSupply covered bids = .ok (total, r :: rest)) :
    p.inverse < b.currentFeed.settlementPrice := by
  obtain ⟨hlt, bids', rfl, -⟩ := coveringBids_cons hcovering
  simp only [coveringBids, if_pos hlt, bind_eq_ok, Asset.plus_eq_ok] at hcovering
  obtain ⟨fund, hfund, collateral, ⟨-, rfl⟩, p', hp', hcovering⟩ := hcovering
  obtain rfl := Except.ok.inj (hfund.symm.trans (h.worth_ok hr hbase hworth))
  obtain rfl : p = p' :=
    Except.ok.inj (hp.symm.trans ((h.callPrice_whole hr _).symm.trans hp'))
  split at hcovering
  · have := congrArg Prod.snd (pure_eq_ok.mp hcovering)
    cases this
  · rename_i hnot
    exact not_not.mp hnot

theorem coveringBids_nil {b : BitassetData} {supply covered total : Int}
    {bids : List (Nat × CollateralBid)}
    (h : coveringBids b supply covered bids = .ok (total, [])) : total = covered := by
  cases bids with
  | nil => exact congrArg Prod.fst (pure_eq_ok.mp h)
  | cons r bids =>
    simp only [coveringBids] at h
    split at h
    · simp only [bind_eq_ok] at h
      obtain ⟨-, -, -, -, p, -, h⟩ := h
      split at h
      · exact congrArg Prod.fst (pure_eq_ok.mp h)
      · simp only [bind_eq_ok, pure_eq_ok] at h
        obtain ⟨rest, -, h⟩ := h
        exact absurd (congrArg Prod.snd h) (List.cons_ne_nil _ _).symm
    · exact congrArg Prod.fst (pure_eq_ok.mp h)

theorem uncalled_of_le (h : Processing L mia a b) (hr : Bid L mia r) {debt share : Int}
    {p q : Price}
    (hbase : 0 < b.settlementPrice.base.amount) (hkeeps : b.KeepsOrder r.2 debt share)
    (hdebt : 0 < debt) (hshare : 0 ≤ share) (hfund : share ≤ b.settlementFund)
    (hmore : debt * (r.2.invSwanPrice.base.amount + b.worthOf r.2) ≤
      r.2.invSwanPrice.quote.amount * (r.2.invSwanPrice.base.amount + share))
    (hp : r.2.callPrice r.2.invSwanPrice.quote.amount (b.worthOf r.2)
      b.currentFeed.maintenanceCollateralRatio = .ok p)
    (hq : r.2.callPrice debt share b.currentFeed.maintenanceCollateralRatio = .ok q)
    (huncalled : p.inverse < b.currentFeed.settlementPrice) :
    q.inverse < b.currentFeed.settlementPrice := by
  have hcollateral := h.collateral_pos hr
  have hratio := b.currentFeed.maintenance_pos
  have hpRange := Price.callPrice_inRange hp (h.debt_pos hr)
    (add_pos_of_pos_of_nonneg hcollateral (h.worth_nonneg hr hbase)) hratio
  have hqRange := Price.callPrice_inRange hq hdebt
    (add_pos_of_pos_of_nonneg hcollateral hshare) hratio
  obtain ⟨-, hpb, hpq, -⟩ := Price.callPrice_ids hp
  obtain ⟨-, hqb, hqq, -⟩ := Price.callPrice_ids hq
  have hpq' := hkeeps p q hshare hfund hmore hp hq
  have hids : b.currentFeed.settlementPrice.quote.assetId = r.2.invSwanPrice.base.assetId ∧
      b.currentFeed.settlementPrice.base.assetId = r.2.debtType :=
    ⟨h.feed.quote_asset.trans (h.backing hr).symm, h.feed.base_asset.trans hr.debtType.symm⟩
  have hlt : b.currentFeed.settlementPrice.inverse < p :=
    (Price.lt_inverse_comm (b := p.inverse) (hids.1.trans hpb.symm) (hids.2.trans hpq.symm)).mpr
      huncalled
  refine (Price.lt_inverse_comm (a := b.currentFeed.settlementPrice.inverse) (b := q.inverse)
    (hids.1.trans hqb.symm) (hids.2.trans hqq.symm)).mp ?_
  rw [Price.lt_iff_key h.feed.base_pos hpRange.quote_pos] at hlt
  rw [Price.le_iff_key hpRange.quote_pos hqRange.quote_pos] at hpq'
  exact (Price.lt_iff_key h.feed.base_pos hqRange.quote_pos).mpr (hlt.trans_le hpq')

end Processing

/-! ### The execution of the bids -/

/-- The bids before those in `rest` are executed as a whole and do not cover the supply. -/
structure Progress (L : Ledger) (mia : AssetId) (a : AssetObject) (b : BitassetData) (total : Int)
    (before rest : List (Nat × CollateralBid)) (s : Reviving) : Prop where
  covering : ∃ high bids, Price.greatest b.options.shortBackingAsset mia = .ok high ∧
    L.bidsFor mia high = before ++ bids ∧
    coveringBids b a.dynamicData.currentSupply (debtOf before) bids = .ok (total, rest)
  uncalled : ∀ r ∈ before, b.Uncalled r.2
  toCover : a.dynamicData.currentSupply - debtOf before = s.toCover
  fund : b.settlementFund - sharesOf b before = s.remainingFund

/-- What holds while the bids in `rest` are still to be executed: the parts of the others are in the
ledger, and what is left of the fund is enough for what is left to cover. -/
structure Executing (L : Ledger) (mia : AssetId) (a : AssetObject) (b : BitassetData) (total : Int)
    (parts : List BidPart) (rest : List (Nat × CollateralBid)) (s : Reviving) : Prop where
  accounts : ∀ j, (L.accounts.find j).isSome → (s.ledger.accounts.find j).isSome
  assets : s.ledger.assets = L.assets
  balances : s.ledger.balances = L.balances
  callOrders : s.ledger.callOrders = (parts.map BidPart.position).foldl Table.create L.callOrders
  bids : ∀ id, s.ledger.bids.find id =
    if id ∈ parts.map BidPart.id then none else L.bids.find id
  distinct : (parts.map BidPart.id ++ rest.map Prod.fst).Nodup
  sound : ∀ p ∈ parts, p.Sound L mia b.currentFeed
  debts : (parts.map BidPart.debt).sum + s.toCover = a.dynamicData.currentSupply
  shares : (parts.map BidPart.share).sum + s.remainingFund = b.settlementFund
  enough : s.toCover * b.settlementPrice.quote.amount ≤
    s.remainingFund * b.settlementPrice.base.amount
  remaining_le : s.remainingFund ≤ b.settlementFund
  placed : ∀ r ∈ rest, Processing.Bid L mia r
  left : (s.toCover = 0 ∧ s.remainingFund = 0 ∧ rest = []) ∨ 0 < s.toCover ∧
    ∃ before, Progress L mia a b total before rest s
  refunds : ∀ account id, s.ledger.bidsOf mia account id + BidPart.spent parts account id =
    L.bidsOf mia account id

namespace Executing

variable {mia : AssetId} {a : AssetObject} {b : BitassetData} {total : Int} {parts : List BidPart}
  {rest : List (Nat × CollateralBid)} {r : Nat × CollateralBid} {s : Reviving}

theorem next (hL : Processing L mia a b) (h : Executing L mia a b total parts (r :: rest) s)
    (debt : Int) {share : Int} (hshare : 0 ≤ share) :
    ∃ p N, s.ledger.executeBid r.1 debt share b.currentFeed = .ok N ∧
      r.2.callPrice debt share b.currentFeed.maintenanceCollateralRatio = .ok p ∧
      Executed s.ledger N r.1 (BidPart.position ⟨r.1, r.2, debt, share, p⟩) := by
  have hr := h.placed r (List.mem_cons_self ..)
  have hnew : r.1 ∉ parts.map BidPart.id := by
    intro hin
    exact (List.nodup_append.mp h.distinct).2.2 r.1 hin r.1 (List.mem_cons_self ..) rfl
  refine executeBid_ok debt b.currentFeed (by rw [h.bids, if_neg hnew, hr.found])
    (ne_of_gt (add_pos_of_pos_of_nonneg (hL.collateral_pos hr) hshare)) ?_ ?_
    (h.accounts _ (hL.ready.owned.bidders r.1 r.2 hr.found))
  · rw [hL.backing hr, hr.debtType]
    exact hL.dataSound.backing_ne
  · -- the positions in the asset are those of the other bidders
    intro j c hc hdebt hborrower
    rw [h.callOrders] at hc
    rcases Table.find_foldl_create hc with hc | hc
    · exact debtType_ne_of_settled hL.ready.balanced.shape hL.bitasset hL.settled hc
        (hdebt.trans hr.debtType)
    · obtain ⟨p, hp, rfl⟩ := List.mem_map.mp hc
      have hpart := h.sound p hp
      have hsame := hL.ready.bids.unique p.id r.1 p.bid r.2 hpart.bid hr.found
        (hpart.debtType.trans hr.debtType.symm) hborrower
      exact hnew (hsame ▸ List.mem_map_of_mem hp)

theorem extend {N : Ledger} {debt share : Int} {p : Price}
    (h : Executing L mia a b total parts (r :: rest) s)
    (hN : Executed s.ledger N r.1 (BidPart.position ⟨r.1, r.2, debt, share, p⟩))
    (hpart : BidPart.Sound ⟨r.1, r.2, debt, share, p⟩ L mia b.currentFeed) (hshare : 0 ≤ share)
    (henough : (s.toCover - debt) * b.settlementPrice.quote.amount ≤
      (s.remainingFund - share) * b.settlementPrice.base.amount)
    (hleft : (s.toCover - debt = 0 ∧ s.remainingFund - share = 0 ∧ rest = []) ∨
      0 < s.toCover - debt ∧ ∃ before, Progress L mia a b total before rest
        ⟨N, s.toCover - debt, s.remainingFund - share⟩) :
    Executing L mia a b total (parts ++ [⟨r.1, r.2, debt, share, p⟩]) rest
      ⟨N, s.toCover - debt, s.remainingFund - share⟩ := by
  have hr := h.placed r (List.mem_cons_self ..)
  have hnew : r.1 ∉ parts.map BidPart.id := by
    intro hin
    exact (List.nodup_append.mp h.distinct).2.2 r.1 hin r.1 (List.mem_cons_self ..) rfl
  have hfind : s.ledger.bids.find r.1 = some r.2 := by rw [h.bids, if_neg hnew, hr.found]
  constructor
  case accounts => exact fun j hj => hN.accounts j (h.accounts j hj)
  case assets => exact hN.assets.trans h.assets
  case balances => exact hN.balances.trans h.balances
  case callOrders =>
    show N.callOrders = _
    rw [hN.callOrders, h.callOrders, List.map_append, List.foldl_append]
    rfl
  case bids =>
    intro id
    show N.bids.find id = _
    rw [hN.bids]
    by_cases hid : id = r.1
    · subst hid
      rw [Table.find_remove_self, if_pos]
      simp
    · have hmem : id ∈ (parts ++ [BidPart.mk r.1 r.2 debt share p]).map BidPart.id ↔
          id ∈ parts.map BidPart.id := by simp [hid]
      rw [Table.find_remove_ne hid, h.bids]
      simp only [hmem]
  case distinct => simpa using h.distinct
  case sound =>
    intro q hq
    rcases List.mem_append.mp hq with hq | hq
    · exact h.sound q hq
    · obtain rfl := List.mem_singleton.mp hq
      exact hpart
  case debts =>
    have hdebts := h.debts
    simp only [List.map_append, List.sum_append, List.map_cons, List.map_nil, List.sum_singleton]
    omega
  case shares =>
    have hshares := h.shares
    simp only [List.map_append, List.sum_append, List.map_cons, List.map_nil, List.sum_singleton]
    omega
  case enough => exact henough
  case remaining_le => exact (Int.sub_le_self _ hshare).trans h.remaining_le
  case placed => exact fun q hq => h.placed q (List.mem_cons_of_mem r hq)
  case left => exact hleft
  case refunds =>
    intro account id
    have hsum : N.bidsOf mia account id = s.ledger.bidsOf mia account id -
        if r.2.debtType = mia ∧ r.2.bidder = account
          then r.2.invSwanPrice.base.amountIn id else 0 := by
      rw [bidsOf, hN.bids]
      exact Table.sum_remove hfind _
    rw [← h.refunds account id, hsum]
    simp only [BidPart.spent, List.map_append, List.sum_append, List.map_cons, List.map_nil,
      List.sum_singleton, hr.debtType, true_and]
    omega

theorem step (hL : Processing L mia a b) (h : Executing L mia a b total parts (r :: rest) s) :
    ∃ s', executeCoveringBid b s r = .ok s' ∧
      ∃ parts', Executing L mia a b total parts' rest s' := by
  have hr := h.placed r (List.mem_cons_self ..)
  obtain ⟨hpos, before, hprogress⟩ := h.left.resolve_left fun hdone => nomatch hdone.2.2
  obtain ⟨high, bids, hhigh, hlisted, hcovering⟩ := hprogress.covering
  obtain ⟨huncovered, bids', rfl, hcovering'⟩ := coveringBids_cons hcovering
  have hreaches : Reaches L mia b a.dynamicData.currentSupply before r :=
    ⟨⟨high, bids', hhigh, hlisted⟩, hprogress.uncalled, huncovered⟩
  have hfits := hL.processable.worth before r hreaches
  have hdebts : 0 ≤ (parts.map BidPart.debt).sum := List.sum_nonneg fun x hx => by
    obtain ⟨p, hp, rfl⟩ := List.mem_map.mp hx
    exact le_of_lt (h.sound p hp).debt_pos
  have hbase := hL.base_pos (by have := h.debts; omega)
  have hquote := hL.debt_pos hr
  have hworth := hL.worth_nonneg hr hbase
  have hremaining : 0 ≤ s.remainingFund :=
    nonneg_of_mul_nonneg_left ((mul_nonneg (le_of_lt hpos)
      (le_of_lt hL.processable.price)).trans h.enough) hbase
  have hmul : b.worthOf r.2 * b.settlementPrice.base.amount ≤
      r.2.invSwanPrice.quote.amount * b.settlementPrice.quote.amount :=
    Int.ediv_mul_le _ (ne_of_gt hbase)
  obtain ⟨q, hq⟩ := hL.callPrice_ok hr r.2.invSwanPrice.quote.amount hworth
  have hcalled := hL.coveringBids_taken hr hbase hfits hq hcovering
  by_cases hlast : s.toCover ≤ r.2.invSwanPrice.quote.amount
  · -- the bid covers the rest and takes what is left of the fund
    obtain ⟨p, N, hexecute, hp, hN⟩ := h.next hL s.toCover hremaining
    have hmore : s.toCover * b.worthOf r.2 ≤ r.2.invSwanPrice.quote.amount * s.remainingFund := by
      refine le_of_mul_le_mul_right ?_ hbase
      calc s.toCover * b.worthOf r.2 * b.settlementPrice.base.amount
          ≤ s.toCover * (r.2.invSwanPrice.quote.amount * b.settlementPrice.quote.amount) := by
            rw [mul_assoc]
            exact mul_le_mul_of_nonneg_left hmul (le_of_lt hpos)
        _ = r.2.invSwanPrice.quote.amount * (s.toCover * b.settlementPrice.quote.amount) := by ring
        _ ≤ r.2.invSwanPrice.quote.amount * (s.remainingFund * b.settlementPrice.base.amount) :=
            mul_le_mul_of_nonneg_left h.enough (le_of_lt hquote)
        _ = _ := by ring
    have hkeeps := hL.processable.ordered before r hreaches (by
      rw [debtOf_concat]
      have htoCover := hprogress.toCover
      omega)
    rw [hprogress.toCover, hprogress.fund] at hkeeps
    have huncalled := hL.uncalled_of_le hr hbase hkeeps hpos hremaining h.remaining_le (by
      rw [mul_add, mul_add]
      exact add_le_add (mul_le_mul_of_nonneg_right hlast (le_of_lt (hL.collateral_pos hr))) hmore)
      hq hp hcalled
    refine ⟨⟨N, s.toCover - s.toCover, s.remainingFund - s.remainingFund⟩, ?_, _,
      h.extend hN ⟨hr.found, hr.debtType, hpos, ?_, BidPart.priced hp, huncalled⟩ hremaining ?_
        (Or.inl ?_)⟩
    · simp only [executeCoveringBid, bind_eq_ok, pure_eq_ok, if_pos hlast]
      exact ⟨_, hL.worth_ok hr hbase hfits, N, hexecute, rfl⟩
    · exact add_pos_of_pos_of_nonneg (hL.collateral_pos hr) hremaining
    · simp
    · refine ⟨sub_self _, sub_self _, ?_⟩
      refine coveringBids_done ?_ hcovering'
      have htoCover := hprogress.toCover
      omega
  · -- the bid is executed as a whole
    obtain ⟨p, N, hexecute, hp, hN⟩ := h.next hL r.2.invSwanPrice.quote.amount hworth
    obtain rfl : q = p := Except.ok.inj (hq.symm.trans hp)
    refine ⟨⟨N, s.toCover - r.2.invSwanPrice.quote.amount, s.remainingFund - b.worthOf r.2⟩, ?_, _,
      h.extend hN ⟨hr.found, hr.debtType, hquote, ?_, BidPart.priced hp,
        hcalled⟩ hworth ?_ (Or.inr ?_)⟩
    · simp only [executeCoveringBid, bind_eq_ok, pure_eq_ok, if_neg hlast]
      exact ⟨_, hL.worth_ok hr hbase hfits, N, hexecute, rfl⟩
    · exact add_pos_of_pos_of_nonneg (hL.collateral_pos hr) hworth
    · rw [sub_mul, sub_mul]
      exact sub_le_sub h.enough hmul
    · refine ⟨by omega, before ++ [r], ⟨high, bids', hhigh, by simp [hlisted], ?_⟩, ?_, ?_, ?_⟩
      · rw [debtOf_concat]
        exact hcovering'
      · intro r' hr' p hp'
        rcases List.mem_append.mp hr' with hr' | hr'
        · exact hprogress.uncalled r' hr' p hp'
        · obtain rfl := List.mem_singleton.mp hr'
          obtain rfl := Except.ok.inj (hq.symm.trans hp')
          exact hcalled
      · rw [debtOf_concat, ← sub_sub, hprogress.toCover]
      · rw [sharesOf_concat, ← sub_sub, hprogress.fund]

end Executing

namespace Processing

variable {mia : AssetId} {a : AssetObject} {b : BitassetData}

theorem executing_start (h : Processing L mia a b) {high : Price} {total : Int}
    {taken : List (Nat × CollateralBid)}
    (hhigh : Price.greatest b.options.shortBackingAsset mia = .ok high)
    (hcovering : coveringBids b a.dynamicData.currentSupply 0 (L.bidsFor mia high) =
      .ok (total, taken)) :
    Executing L mia a b total [] taken ⟨L, a.dynamicData.currentSupply, b.settlementFund⟩ := by
  have hstart := coveringBids_sublist hcovering
  have hnodup : ((L.bidsFor mia high).map Prod.fst).Nodup :=
    (sortRows_nodup _ L.bids).sublist ((List.filter_sublist).map _)
  refine ⟨fun _ hj => hj, rfl, rfl, rfl, fun _ => rfl, hnodup.sublist (hstart.sublist.map _),
    fun p hp => (nomatch hp), zero_add _, zero_add _, h.solvent.enough, le_refl _, fun r hr => ?_,
      ?_,
    fun _ _ => add_zero _⟩
  · obtain ⟨hfind, hdebt, -⟩ := mem_bidsFor.mp (hstart.subset hr)
    exact ⟨hfind, hdebt⟩
  · by_cases hzero : a.dynamicData.currentSupply = 0
    · refine Or.inl ⟨hzero, h.solvent.emptied hzero, ?_⟩
      exact coveringBids_done (le_of_eq hzero) hcovering
    · exact Or.inr ⟨lt_of_le_of_ne h.supply_nonneg (Ne.symm hzero), [],
        ⟨high, L.bidsFor mia high, hhigh, rfl, hcovering⟩, fun r hr => absurd hr List.not_mem_nil,
        sub_zero _, sub_zero _⟩

theorem executeBids_ok (h : Processing L mia a b) {high : Price} {total : Int}
    {taken : List (Nat × CollateralBid)}
    (hhigh : Price.greatest b.options.shortBackingAsset mia = .ok high)
    (hcovering : coveringBids b a.dynamicData.currentSupply 0 (L.bidsFor mia high) =
      .ok (total, taken)) (htotal : a.dynamicData.currentSupply ≤ total) :
    ∃ s parts, taken.foldlM (executeCoveringBid b)
        ⟨L, a.dynamicData.currentSupply, b.settlementFund⟩ = .ok s ∧
      Executing L mia a b total parts [] s ∧ s.toCover = 0 ∧ s.remainingFund = 0 := by
  obtain ⟨s, hs, parts, hparts⟩ := foldlM_total
    (P := fun rest s => ∃ parts, Executing L mia a b total parts rest s)
    (fun r rest s ⟨parts, hparts⟩ => hparts.step h) taken _ ⟨[], h.executing_start hhigh hcovering⟩
  rcases hparts.left with ⟨hcover, hfund, -⟩ | ⟨hpos, before, hprogress⟩
  · exact ⟨s, parts, hs, hparts, hcover, hfund⟩
  · obtain ⟨-, bids, -, -, hnil⟩ := hprogress.covering
    have hcovered := coveringBids_nil hnil
    have htoCover := hprogress.toCover
    omega

theorem revivedByBids (h : Processing L mia a b) {total : Int} {parts : List BidPart} {s : Reviving}
    (hs : Executing L mia a b total parts [] s) (hcover : s.toCover = 0)
    (hfund : s.remainingFund = 0) :
    ∃ L', s.ledger.cancelBidsAndReviveMpa mia mia = .ok L' ∧ RevivedByBids L L' mia a b parts := by
  have hfind : ∀ id d, s.ledger.bids.find id = some d → L.bids.find id = some d := by
    intro id d hd
    rw [hs.bids] at hd
    split at hd
    · cases hd
    · exact hd
  obtain ⟨L', hL', hbit, hcalls, hbalances, hbids⟩ := cancelBidsAndReviveMpa_ok
    (hs.assets ▸ h.asset) h.data h.settled h.notPrediction h.dataSound.backing_ne
    fun id d hd => bid_backed h.ready.balanced.shape h.bitasset (hfind id d hd)
  have hgone : ∀ id d, L'.bids.find id = some d → d.debtType ≠ mia := by
    intro id d hd hmia
    obtain ⟨hd, hrange⟩ := (hbids id d).mp hd
    exact absurd (h.processable.found id d (hfind id d hd) hmia) (not_le.mpr (hrange hmia))
  have hdebts := hs.debts
  have hshares := hs.shares
  rw [hcover, add_zero] at hdebts
  rw [hfund, add_zero] at hshares
  refine ⟨L', hL', hbit, ?_, hs.sound, hdebts, hshares, hcalls.trans hs.callOrders, hgone,
    fun account id => ?_⟩
  · have hdistinct := hs.distinct
    rwa [List.map_nil, List.append_nil] at hdistinct
  · have hbalance := hbalances account id
    rw [bidsOf_eq_zero hgone, add_zero, getBalance_congr hs.balances] at hbalance
    rw [hbalance, add_assoc, hs.refunds]

theorem processBids_ok (h : Processing L mia a b)
    (hnull : b.currentFeed.settlementPrice.isNull = false) :
    ∃ L', L.processBids mia = .ok L' ∧ (L' = L ∨ ∃ parts, RevivedByBids L L' mia a b parts) := by
  have hzero : (Asset.mk 0 b.options.shortBackingAsset).mul b.settlementPrice = .ok ⟨0, mia⟩ := by
    have hquote := h.dataSound.quote_asset h.settled
    have hne : b.settlementPrice.base.assetId ≠ b.settlementPrice.quote.assetId := by
      rw [h.dataSound.base_asset h.settled, hquote]
      exact h.dataSound.backing_ne.symm
    rw [Asset.mul_quote hne hquote.symm, h.dataSound.base_asset h.settled]
    refine convert_eq_ok.mpr ⟨h.processable.price, ?_, ?_, ?_⟩ <;> simp [maxShareSupply]
  obtain ⟨high, hhigh⟩ : ∃ high, Price.greatest b.options.shortBackingAsset mia = .ok high :=
    ⟨_, Price.ofAssets_eq_ok.mpr ⟨h.dataSound.backing_ne, rfl⟩⟩
  obtain ⟨⟨total, taken⟩, hcovering⟩ := h.coveringBids_ok hhigh (L.bidsFor mia high) [] rfl
    fun r hr => absurd hr List.not_mem_nil
  by_cases htotal : total < a.dynamicData.currentSupply
  · refine ⟨L, ?_, Or.inl rfl⟩
    simp only [processBids, bind_eq_ok]
    refine ⟨b, h.bitasset, ?_⟩
    rw [if_neg (by simp [h.notPrediction]), if_neg (by simp [hnull])]
    simp only [bind_eq_ok]
    refine ⟨_, hzero, a, demand_eq_ok.mpr h.asset, high, hhigh, _, hcovering, ?_⟩
    rw [if_pos htotal]
    rfl
  · obtain ⟨s, parts, hs, hparts, hcover, hfund⟩ := h.executeBids_ok hhigh hcovering (not_lt.mp htotal)
    obtain ⟨L', hL', hrevived⟩ := h.revivedByBids hparts hcover hfund
    refine ⟨L', ?_, Or.inr ⟨parts, hrevived⟩⟩
    simp only [processBids, bind_eq_ok]
    refine ⟨b, h.bitasset, ?_⟩
    rw [if_neg (by simp [h.notPrediction]), if_neg (by simp [hnull])]
    simp only [bind_eq_ok]
    refine ⟨_, hzero, a, demand_eq_ok.mpr h.asset, high, hhigh, _, hcovering, ?_⟩
    rw [if_neg htotal]
    simp only [bind_eq_ok, require_eq_ok, exists_const]
    exact ⟨s, hs, hfund, hcover, hL'⟩

end Processing

/-- In every ledger that a run and then the maintenance of the bitassets reach, and for every
globally settled asset whose bids can be processed: `process_bids` returns, and it leaves the ledger
as it is or the bids that cover the supply become positions that share the fund. -/
theorem process_bids_distributes {L₀ N : Ledger} {mia : AssetId} {a : AssetObject}
    {b : BitassetData}
    (h₀ : Genesis L₀) (h : Run L₀ L) (hN : Maintaining L N) (ha : N.assets.find mia = some a)
    (hb : a.bitassetData = some b) (hset : b.hasSettlement = true)
    (hprocessable : b.isPredictionMarket = false → b.currentFeed.settlementPrice.isNull = false →
      Processable N mia b a.dynamicData.currentSupply) :
    ∃ N', N.processBids mia = .ok N' ∧
      (N' = N ∨ ∃ parts, RevivedByBids N N' mia a b parts) := by
  have hready := hN.ready (BidsReady.of_run h₀ h)
  have hbit : N.bitasset mia = .ok b := bitasset_eq_ok.mpr ⟨a, ha, hb⟩
  cases hpm : b.isPredictionMarket with
  | true =>
    refine ⟨N, ?_, Or.inl rfl⟩
    simp only [processBids, bind_eq_ok]
    refine ⟨b, hbit, ?_⟩
    rw [if_pos hpm]
    rfl
  | false =>
    cases hnull : b.currentFeed.settlementPrice.isNull with
    | true =>
      refine ⟨N, ?_, Or.inl rfl⟩
      simp only [processBids, bind_eq_ok]
      refine ⟨b, hbit, ?_⟩
      rw [if_neg (by simp [hpm]), if_pos hnull]
      rfl
    | false =>
      have hfeed := (hready.fed mia b hbit).current.resolve_left (by simp [hnull])
      exact Processing.processBids_ok
        ⟨hready, ha, hb, hset, hpm, hfeed, hprocessable hpm hnull⟩ hnull

theorem BitassetData.keepsOrder_of_le {b : BitassetData} {d : CollateralBid} {debt share : Int}
    (hdebt : 0 < debt) (hle : debt ≤ d.invSwanPrice.quote.amount)
    (hbase : 0 < d.invSwanPrice.base.amount) (hworth : 0 ≤ b.worthOf d)
    (hnum : d.invSwanPrice.quote.amount * b.currentFeed.maintenanceCollateralRatio ≤ maxShareSupply)
    (hwhole : (d.invSwanPrice.base.amount + b.worthOf d) * collateralRatioDenom ≤ maxShareSupply)
    (hfund : (d.invSwanPrice.base.amount + b.settlementFund) * collateralRatioDenom ≤
      maxShareSupply) : b.KeepsOrder d debt share := by
  intro p q hshare hle' hmore hp hq
  obtain ⟨-, hpb, hpq, -⟩ := Price.callPrice_ids hp
  obtain ⟨-, hqb, hqq, -⟩ := Price.callPrice_ids hq
  have hwholeUnrounded : (BidPart.position ⟨0, d, d.invSwanPrice.quote.amount, b.worthOf d,
    p⟩).Unrounded
      b.currentFeed.maintenanceCollateralRatio :=
    CallOrder.unrounded_of_le (le_of_lt (lt_of_lt_of_le hdebt hle))
      (add_pos_of_pos_of_nonneg hbase hworth) hnum hwhole
  have hpartUnrounded : (BidPart.position ⟨0, d, debt, share, q⟩).Unrounded
      b.currentFeed.maintenanceCollateralRatio := by
    refine CallOrder.unrounded_of_le (le_of_lt hdebt) (add_pos_of_pos_of_nonneg hbase hshare) ?_ ?_
    · exact (mul_le_mul_of_nonneg_right hle (Int.natCast_nonneg _)).trans hnum
    · exact (mul_le_mul_of_nonneg_right (add_le_add_right hle' _)
        (Int.natCast_nonneg _)).trans hfund
  exact (CallOrder.callPrice_le_iff_swan b.currentFeed.maintenance_pos
    (BidPart.priced (p := ⟨0, d, d.invSwanPrice.quote.amount, b.worthOf d, p⟩) hp) hwholeUnrounded
    (lt_of_lt_of_le hdebt hle) (add_pos_of_pos_of_nonneg hbase hworth)
    (BidPart.priced (p := ⟨0, d, debt, share, q⟩) hq) hpartUnrounded hdebt
    (add_pos_of_pos_of_nonneg hbase hshare) (hqq.trans hpq.symm) (hqb.trans hpb.symm)).mpr hmore

/-- A hundred dollars with a fund of 150, and bids for them. -/
def bidding (bids : List BidCollateral) : Attempt Ledger :=
  (freshLedger 1600000000 [1000, 1000, 1000] [dollar]).perform 5
    ([.callOrderUpdate ⟨⟨0, 0⟩, 0, ⟨300, 0⟩, ⟨100, 1⟩, none⟩,
      .assetGlobalSettle ⟨⟨0, 0⟩, 1, 1, ⟨⟨2, 1⟩, ⟨3, 0⟩⟩⟩] ++ bids.map .bidCollateral)

theorem bidding_genesis : Genesis (freshLedger 1600000000 [1000, 1000, 1000] [dollar]) :=
  freshLedger_genesis (by decide) (by decide) (by decide)

/-- Of three bids the first is executed, the second covers the rest and the third is refunded. -/
theorem process_bids_distributes_dollars : ∃ L L' a b parts,
    bidding [⟨⟨0, 0⟩, 1, ⟨40, 0⟩, ⟨60, 1⟩⟩, ⟨⟨0, 0⟩, 0, ⟨30, 0⟩, ⟨70, 1⟩⟩,
      ⟨⟨0, 0⟩, 2, ⟨10, 0⟩, ⟨50, 1⟩⟩] = .ok L ∧ L.processBids 1 = .ok L' ∧
    L'.callOrders.rows.length = 2 ∧ RevivedByBids L L' 1 a b parts := by
  have hrun : (bidding [⟨⟨0, 0⟩, 1, ⟨40, 0⟩, ⟨60, 1⟩⟩, ⟨⟨0, 0⟩, 0, ⟨30, 0⟩, ⟨70, 1⟩⟩,
      ⟨⟨0, 0⟩, 2, ⟨10, 0⟩, ⟨50, 1⟩⟩]).toOption.any (fun L => L.callOrders.rows.length = 0 ∧
        (L.assets.find 1).any (fun a => a.bitassetData.any fun b => b.hasSettlement = true ∧
          0 < b.settlementPrice.quote.amount ∧ ∀ r ∈ L.bids.rows,
            r.2.invSwanPrice.base.amount ≤ maxShareSupply * r.2.invSwanPrice.quote.amount ∧
            0 < r.2.invSwanPrice.base.amount ∧ 0 ≤ b.worthOf r.2 ∧ b.worthOf r.2 ≤ maxShareSupply ∧
            r.2.invSwanPrice.quote.amount * b.currentFeed.maintenanceCollateralRatio ≤
              maxShareSupply ∧
            (r.2.invSwanPrice.base.amount + b.worthOf r.2) * collateralRatioDenom ≤
              maxShareSupply ∧
            (r.2.invSwanPrice.base.amount + b.settlementFund) * collateralRatioDenom ≤
              maxShareSupply) ∧
        (L.processBids 1).toOption.any fun L' => L'.callOrders.rows.length = 2) = true := by
    decide +kernel
  obtain ⟨L, hL, hstate⟩ := exists_ok_of_any hrun
  obtain ⟨hnone, hstate, hprocess⟩ := of_decide_eq_true hstate
  obtain ⟨a, ha, hstate⟩ := (Option.any_eq_true _ _).mp hstate
  obtain ⟨b, hb, hstate⟩ := (Option.any_eq_true _ _).mp hstate
  obtain ⟨hset, hprice, hbids⟩ := of_decide_eq_true hstate
  obtain ⟨L', hL', htwo⟩ := exists_ok_of_any hprocess
  have htwo' := of_decide_eq_true htwo
  have hrows := fun id d (hd : L.bids.find id = some d) => hbids (id, d) (Table.find_iff_mem.mp hd)
  obtain ⟨N', hN', hN⟩ := process_bids_distributes bidding_genesis (perform_run hL)
    Relation.ReflTransGen.refl ha hb hset fun _ _ =>
      ⟨hprice, fun id d hd _ => (hrows id d hd).1,
        fun before r hr => (hrows r.1 r.2 hr.found).2.2.2.1, fun before r hr hcovers => by
          obtain ⟨-, hbase, hworth, -, hnum, hwhole, hfund⟩ := hrows r.1 r.2 hr.found
          have huncovered := hr.uncovered
          rw [debtOf_concat] at hcovers
          exact BitassetData.keepsOrder_of_le (by omega) (by omega) hbase hworth hnum hwhole hfund⟩
  obtain rfl : L' = N' := Except.ok.inj (hL'.symm.trans hN')
  rcases hN with rfl | ⟨parts, hparts⟩
  · omega
  · exact ⟨L, L', a, b, parts, hL, hL', htwo', hparts⟩

/-- A bid for more debt than can be converted at the settlement price makes the maintenance
throw. -/
theorem process_bids_throws : ∃ L₀ L b, Genesis L₀ ∧ Run L₀ L ∧ L.bitasset 1 = .ok b ∧
    b.hasSettlement = true ∧ ∀ L', L.processBids 1 ≠ .ok L' := by
  have hrun : (bidding [⟨⟨0, 0⟩, 1, ⟨1, 0⟩, ⟨1000000000000000, 1⟩⟩]).toOption.any (fun L =>
      (L.bitasset 1).toOption.any (fun b => b.hasSettlement = true) ∧
        (L.processBids 1).toOption.isNone = true) = true := by
    decide +kernel
  obtain ⟨L, hL, hstate⟩ := exists_ok_of_any hrun
  obtain ⟨hbit, hthrows⟩ := of_decide_eq_true hstate
  obtain ⟨b, hb, hset⟩ := exists_ok_of_any hbit
  refine ⟨_, L, b, bidding_genesis, perform_run hL, hb, of_decide_eq_true hset, fun L' hL' => ?_⟩
  rw [hL'] at hthrows
  cases hthrows

end Nestchain.Market
