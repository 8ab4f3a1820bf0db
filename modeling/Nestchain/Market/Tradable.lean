import Nestchain.Market.FairMatch

/-! The limit orders that rest in the book can be traded: what an order would receive can be
computed and is not nothing, and a new order that crosses with it is matched without an
exception. -/

namespace Nestchain.Market

open Lib Ledger

/-- The amounts of the price of an order are in range, and no more is for sale than at the start. -/
structure LimitOrder.Moderate (o : LimitOrder) : Prop where
  inRange : o.sellPrice.InRange
  assets_ne : o.sellAssetId ≠ o.receiveAssetId
  forSale_le : o.forSale ≤ o.sellPrice.base.amount

/-- Both amounts of a new limit order are at most `GRAPHENE_MAX_SHARE_SUPPLY`. -/
def Operation.Moderate : Operation → Prop
  | .limitOrderCreate op =>
    op.amountToSell.amount ≤ maxShareSupply ∧ op.minToReceive.amount ≤ maxShareSupply
  | _ => True

instance (op : Operation) : Decidable op.Moderate :=
  match op with
  | .limitOrderCreate _ => inferInstanceAs (Decidable (_ ∧ _))
  | .limitOrderCancel _ | .callOrderUpdate _ | .bidCollateral _ | .assetSettle _
  | .assetGlobalSettle _ | .assetPublishFeed _ => inferInstanceAs (Decidable True)

namespace LimitOrder.Moderate

variable {o : LimitOrder}

theorem valid (h : o.Moderate) : o.sellPrice.Valid :=
  ⟨h.inRange.base_pos, h.inRange.quote_pos, h.assets_ne⟩

theorem amountToReceive (h : o.Moderate) (hpos : 0 ≤ o.forSale) :
    o.amountToReceive = .ok ⟨o.worthAtPrice, o.receiveAssetId⟩ ∧ 0 ≤ o.worthAtPrice ∧
      o.worthAtPrice ≤ maxShareSupply := by
  have hbase := h.inRange.base_pos
  have hnonneg : 0 ≤ o.forSale * o.sellPrice.quote.amount :=
    mul_nonneg hpos (le_of_lt h.inRange.quote_pos)
  have hle : o.worthAtPrice ≤ maxShareSupply := by
    refine le_trans ?_ h.inRange.quote_le
    calc o.forSale * o.sellPrice.quote.amount / o.sellPrice.base.amount
        ≤ o.sellPrice.base.amount * o.sellPrice.quote.amount / o.sellPrice.base.amount :=
          Int.ediv_le_ediv hbase
            (mul_le_mul_of_nonneg_right h.forSale_le (le_of_lt h.inRange.quote_pos))
      _ = o.sellPrice.quote.amount := Int.mul_ediv_cancel_left _ (ne_of_gt hbase)
  refine ⟨?_, Int.ediv_nonneg hnonneg (le_of_lt hbase), hle⟩
  rw [LimitOrder.amountToReceive, Asset.mul_base (a := o.amountForSale) rfl]
  exact convert_eq_ok.mpr ⟨hbase, hnonneg, hle, rfl⟩

theorem afterFill {pays : Asset} (h : o.Moderate) (hpays : 0 ≤ pays.amount) :
    (o.afterFill pays).Moderate := by
  refine ⟨h.inRange, h.assets_ne, ?_⟩
  have hle := h.forSale_le
  simp only [LimitOrder.afterFill]
  omega

end LimitOrder.Moderate

/-! ### What a run keeps -/

/-- When what the order would receive is computed, it is not nothing. -/
def LimitOrder.NotDust (o : LimitOrder) : Prop :=
  ∀ receives, o.amountToReceive = .ok receives → receives.amount ≠ 0

theorem LimitOrder.Receives.notDust {o : LimitOrder} (h : o.Receives) : o.NotDust := by
  obtain ⟨x, hx, hne⟩ := h
  intro y hy
  obtain rfl := Except.ok.inj (hx.symm.trans hy)
  exact hne

/-- The orders have a property, and are not dust unless they are loose. -/
def RestingBut (P : LimitOrder → Prop) (loose : Nat → Prop) (L : Ledger) : Prop :=
  ∀ id o, L.limitOrders.find id = some o → P o ∧ (loose id ∨ o.NotDust)

namespace RestingBut

variable {L L' : Ledger} {P : LimitOrder → Prop} {loose : Nat → Prop}

theorem of_eq (h : RestingBut P loose L) (he : L'.limitOrders = L.limitOrders) :
    RestingBut P loose L' := fun id o ho => h id o (he ▸ ho)

section

variable (hfill : ∀ (o : LimitOrder) (pays : Asset), P o → 0 ≤ pays.amount → P (o.afterFill pays))

include hfill

theorem change (h : RestingBut P loose L) (hchange : Change loose L L')
    (hnext : ¬loose L.limitOrders.next) :
    RestingBut P loose L' ∧ L'.limitOrders.next = L.limitOrders.next := by
  cases hchange with
  | funds hfunds => exact ⟨h.of_eq hfunds.limitOrders, by rw [hfunds.limitOrders]⟩
  | createLimitOrder o hloose => exact absurd hloose hnext
  | @fillLimitOrder j o pays ho hpays hleft =>
    refine ⟨fun id o' ho' => ?_, rfl⟩
    rcases (Table.find_set_iff ho).mp ho' with ⟨rfl, rfl⟩ | ⟨-, ho'⟩
    · exact ⟨hfill o pays (h id o ho).1 hpays, hleft.imp_right LimitOrder.Receives.notDust⟩
    · exact h id o' ho'
  | removeLimitOrder j => exact ⟨fun id o ho => h id o (Table.find_remove_iff.mp ho).2, rfl⟩
  | _ => exact ⟨h, rfl⟩

theorem changes (h : RestingBut P loose L) (hchanges : Changes loose L L')
    (hloose : ∀ j, loose j → j < L.limitOrders.next) : RestingBut P loose L' := by
  have hall := hchanges.invariant
    (P := fun M => RestingBut P loose M ∧ M.limitOrders.next = L.limitOrders.next)
    (fun M M' hM hchange => ?_) ⟨h, rfl⟩
  · exact hall.1
  · have hnext : ¬loose M.limitOrders.next := fun hl => Nat.lt_irrefl _ (hM.2 ▸ hloose _ hl)
    obtain ⟨hM', hnext'⟩ := hM.1.change hfill hchange hnext
    exact ⟨hM', hnext'.trans hM.2⟩

end

theorem create {M : Ledger} {o : LimitOrder} (h : RestingBut P noOrder M) (ho : P o) :
    RestingBut P (· = M.limitOrders.next)
      { M with limitOrders := M.limitOrders.create o } := by
  intro id o' ho'
  rcases Table.find_create_iff.mp ho' with ho' | ⟨rfl, rfl⟩
  · obtain ⟨hP, hnotDust⟩ := h id o' ho'
    exact ⟨hP, Or.inr (hnotDust.resolve_left not_false)⟩
  · exact ⟨ho, Or.inl rfl⟩

end RestingBut

variable {L L' : Ledger}

theorem LimitOrderCreate.Places.notDust {op : LimitOrderCreate} {M : Ledger} {o : LimitOrder}
    (h : op.Places L M o) : o.NotDust := by
  obtain ⟨-, -, hsell, hreceive⟩ := h.valid
  intro x hx
  rw [LimitOrder.amountToReceive, Asset.mul_base (a := o.amountForSale) rfl] at hx
  obtain ⟨-, -, -, rfl⟩ := convert_eq_ok.mp hx
  have hworth : o.forSale * o.sellPrice.quote.amount / o.sellPrice.base.amount =
      op.minToReceive.amount := by
    rw [h.forSale, h.sellPrice]
    exact Int.mul_ediv_cancel_left _ (ne_of_gt hsell)
  exact ne_of_eq_of_ne hworth (ne_of_gt hreceive)

theorem LimitOrderCreate.apply_resting {op : LimitOrderCreate} {rounds : Nat} {skip : Bool}
    {P : LimitOrder → Prop}
    (hfill : ∀ (o : LimitOrder) (pays : Asset), P o → 0 ≤ pays.amount → P (o.afterFill pays))
    (hplaced : ∀ M o, op.Places L M o → P o) (hL : RestingBut P noOrder L)
    (h : op.apply rounds skip L = .ok L') : RestingBut P noOrder L' := by
  obtain ⟨M, o, r, hplaces, happly, hfee⟩ := op.apply_spec h
  have hcreated := (hL.of_eq hplaces.funds.limitOrders).create (hplaced M o hplaces)
  have hmatched : Changes (· = M.limitOrders.next) _ r.2 := applyOrder_changes rfl happly
  have hself : ({ M with limitOrders := M.limitOrders.create o } : Ledger).limitOrders.find
      M.limitOrders.next = some o := Table.find_create_self _ _
  have hafter := hcreated.changes hfill hmatched fun _ hj => hj ▸ Table.find_lt hself
  -- what `apply_order` leaves of the new order was looked at last
  have hnew : ∀ u, r.2.limitOrders.find M.limitOrders.next = some u → u.NotDust := by
    intro u hu
    simp only [applyOrder, bind_eq_ok, demand_eq_ok] at happly
    obtain ⟨o', ho', happly⟩ := happly
    obtain rfl : o = o' := Option.some.inj (hself.symm.trans ho')
    split at happly
    · obtain rfl := pure_eq_ok.mp happly
      obtain rfl : o = u := Option.some.inj (hself.symm.trans hu)
      exact hplaces.notDust
    · simp only [bind_eq_ok] at happly
      obtain ⟨top, -, calls, -, rest, -, happly⟩ := happly
      split at happly
      · rename_i hnone
        obtain rfl := pure_eq_ok.mp happly
        rw [hnone] at hu
        cases hu
      · rcases maybeCullSmallOrder_cases happly with ⟨-, hnone⟩ | ⟨-, hsame, w, hw, hreceives⟩
        · rw [hnone] at hu
          cases hu
        · rw [hsame] at hu
          obtain rfl : w = u := Option.some.inj (hw.symm.trans hu)
          exact hreceives.notDust
  intro id u hu
  rw [hfee.limitOrders] at hu
  obtain ⟨hP, hid | hnotDust⟩ := hafter id u hu
  · subst hid
    exact ⟨hP, Or.inr (hnew u hu)⟩
  · exact ⟨hP, Or.inr hnotDust⟩

/-- In every ledger that a run of allowed operations reaches, the resting orders have a property
that new orders have and fills keep, and none of them is dust. -/
theorem RunOf.resting {L₀ : Ledger} {allowed : Operation → Prop} {P : LimitOrder → Prop}
    (hfill : ∀ (o : LimitOrder) (pays : Asset), P o → 0 ≤ pays.amount → P (o.afterFill pays))
    (hplaced : ∀ op L M o, allowed (.limitOrderCreate op) → op.Places L M o → P o)
    (h₀ : Genesis L₀) (h : RunOf allowed L₀ L) : RestingBut P noOrder L := by
  refine h.invariant h₀.balanced (fun M M' rounds skip op _ hM hop happly =>
    op.apply_resting hfill (fun N o hplaces => hplaced op M N o hop hplaces) hM happly)
    (fun M M' hM hchange => (hM.change hfill hchange not_false).1)
    (fun M M' hM hadjust => ?_) fun id o ho => ?_
  · cases hadjust <;> exact hM
  · exact absurd ((h₀.opening.limitOrders id).symm.trans ho) (Option.some_ne_none _).symm

theorem LimitOrderCreate.Places.moderate {op : LimitOrderCreate} {M : Ledger} {o : LimitOrder}
    (h : op.Places L M o) (hop : Operation.Moderate (.limitOrderCreate op)) : o.Moderate := by
  obtain ⟨hne, -, hsell, hreceive⟩ := h.valid
  refine ⟨?_, ?_, ?_⟩
  · rw [h.sellPrice]
    exact ⟨hsell, hop.1, hreceive, hop.2⟩
  · simp only [LimitOrder.sellAssetId, LimitOrder.receiveAssetId, h.sellPrice]
    exact hne
  · rw [h.forSale, h.sellPrice]

/-! ### A match does not throw -/

/-- A taker and a maker that can be traded, at prices that cross. -/
structure Crossing (L : Ledger) (usd core : Nat) (u c : LimitOrder) : Prop where
  shape : Shape L
  owned : Owned L
  taker : L.limitOrders.find usd = some u
  maker : L.limitOrders.find core = some c
  taker_moderate : u.Moderate
  maker_moderate : c.Moderate
  maker_notDust : c.NotDust
  receive : u.receiveAssetId = c.sellAssetId
  sell : u.sellAssetId = c.receiveAssetId
  cross : u.sellPrice.inverse ≤ c.sellPrice

namespace Ledger

/-- A match returns, and changes nothing because the taker is too small, or both orders are paid. -/
def Matches (L : Ledger) (usd core : Nat) (p : Price) : Prop :=
  ∃ r, L.matchLimitOrders usd core p = .ok r ∧ (r = (⟨true, false⟩, L) ∨
    ∃ usdReceives coreReceives cull, 0 < usdReceives.amount ∧ 0 < coreReceives.amount ∧
      L.fillLimitOrders usd core usdReceives coreReceives cull = .ok r)

end Ledger

namespace Crossing

variable {usd core : Nat} {u c : LimitOrder}

theorem maker_pos (h : Crossing L usd core u c) : 0 < c.forSale :=
  (h.shape.limitOrders core c h.maker).forSale_pos

theorem opposed (h : Crossing L usd core u c) : Opposed L usd core u c := by
  obtain ⟨hworth, hnonneg, -⟩ := h.maker_moderate.amountToReceive (le_of_lt h.maker_pos)
  have hone : 1 ≤ c.worthAtPrice := lt_of_le_of_ne hnonneg (Ne.symm (h.maker_notDust _ hworth))
  exact ⟨h.shape, h.owned, h.taker, h.maker, h.taker_moderate.valid, h.maker_moderate.valid,
    h.receive,
    h.sell, h.cross, _, hworth, hone⟩

theorem completes (h : Crossing L usd core u c) : L.Matches usd core c.sellPrice := by
  have htaker : u.forSale ≤ maxShareSupply :=
    h.taker_moderate.forSale_le.trans h.taker_moderate.inRange.base_le
  have hmaker : c.forSale ≤ maxShareSupply :=
    h.maker_moderate.forSale_le.trans h.maker_moderate.inRange.base_le
  obtain ⟨r, hr, hcase⟩ := h.opposed.completes (h.opposed.exchanges htaker hmaker)
  refine ⟨r, hr, hcase.imp And.left ?_⟩
  rintro ⟨x, y, cull, hfair, hfills⟩
  exact ⟨⟨y, c.sellAssetId⟩, ⟨x, c.receiveAssetId⟩, cull, hfair.maker_pays.1, hfair.taker_pays.1,
    hfills⟩

end Crossing

theorem LimitOrderCreate.place_owned {op : LimitOrderCreate} {skip : Bool} {placed : Nat × Ledger}
    (hL : Owned L) (h : op.place skip L = .ok placed) : Owned placed.2 := by
  obtain ⟨M, o, hplaces, rfl⟩ := op.place_spec h
  have hcreate : Change (· = M.limitOrders.next) M _ := .createLimitOrder M o rfl hplaces.seller
    hplaces.sell hplaces.receive hplaces.paid
  exact (hL.funds hplaces.funds).change hcreate

/-- In every ledger that a run reaches, whose new orders are all moderate, every order of the book
has something for sale and what it would receive is computed and at least one; and in the matching
of any new moderate order, a match with an order of the book that it crosses with does not throw,
and pays that order something unless the new order is too small to be matched at all. -/
theorem resting_orders_tradable {L₀ : Ledger} (h₀ : Genesis L₀)
    (h : RunOf Operation.Moderate L₀ L) :
    (∀ id o, L.limitOrders.find id = some o → 0 < o.forSale ∧
      o.amountToReceive = .ok ⟨o.forSale * o.sellPrice.quote.amount / o.sellPrice.base.amount,
        o.receiveAssetId⟩ ∧
      1 ≤ o.forSale * o.sellPrice.quote.amount / o.sellPrice.base.amount ∧
      o.forSale * o.sellPrice.quote.amount / o.sellPrice.base.amount ≤ maxShareSupply) ∧
    ∀ (op : LimitOrderCreate) skip placed rounds N maker u c,
      Operation.Moderate (.limitOrderCreate op) → op.place skip L = .ok placed →
      Matching rounds placed.1 placed.2 N → N.limitOrders.find placed.1 = some u →
      N.limitOrders.find maker = some c → u.receiveAssetId = c.sellAssetId →
      u.sellAssetId = c.receiveAssetId → u.sellPrice.inverse ≤ c.sellPrice →
      N.Matches placed.1 maker c.sellPrice := by
  have hshape := (h.run.balanced h₀.balanced).shape
  have hresting : RestingBut LimitOrder.Moderate noOrder L :=
    RunOf.resting (fun _ _ ho hpays => ho.afterFill hpays)
      (fun _ _ _ _ hop hplaces => hplaces.moderate hop) h₀ h
  refine ⟨fun id o ho => ?_, ?_⟩
  · have hpos := (hshape.limitOrders id o ho).forSale_pos
    obtain ⟨hmoderate, hnotDust⟩ := hresting id o ho
    obtain ⟨hworth, hnonneg, hle⟩ := hmoderate.amountToReceive (le_of_lt hpos)
    have hne := hnotDust.resolve_left not_false _ hworth
    have hone : 1 ≤ o.worthAtPrice := lt_of_le_of_ne hnonneg (Ne.symm hne)
    exact ⟨hpos, hworth, hone, hle⟩
  · intro op skip placed rounds N maker u c hop hplace hmatching hu hc hreceive hsell hcross
    have hplaced := (LimitOrderCreate.place_turn hshape hplace).shape
    have howned := hmatching.changes.invariant (P := Owned) (fun _ _ hM hx => hM.change hx)
      (LimitOrderCreate.place_owned (h.run.owned h₀.balanced h₀.owned) hplace)
    obtain ⟨M, o, hplaces, rfl⟩ := op.place_spec hplace
    have hself : ({ M with limitOrders := M.limitOrders.create o } : Ledger).limitOrders.find
        M.limitOrders.next = some o := Table.find_create_self _ _
    have hcreated := (hresting.of_eq hplaces.funds.limitOrders).create (hplaces.moderate hop)
    have hN := hcreated.changes (fun _ _ ho hpays => ho.afterFill hpays) hmatching.changes
      fun _ hj => hj ▸ Table.find_lt hself
    have hne : maker ≠ M.limitOrders.next := by
      rintro rfl
      obtain rfl : u = c := Option.some.inj (hu.symm.trans hc)
      exact (hN _ u hu).1.assets_ne hsell
    exact Crossing.completes ⟨hmatching.shape hplaced, howned, hu, hc, (hN _ u hu).1,
      (hN _ c hc).1, (hN _ c hc).2.resolve_left hne, hreceive, hsell, hcross⟩

/-- Cents for sale, and an order that buys some of them. -/
def centsForSale : Attempt Ledger := centLedger.perform 5
  [.callOrderUpdate ⟨⟨0, 0⟩, 0, ⟨4000000000000, 0⟩, ⟨3000, 1⟩, none⟩,
    .limitOrderCreate ⟨⟨0, 0⟩, 0, ⟨3000, 1⟩, ⟨4, 0⟩, 1700000000, false⟩]

def buyCents : LimitOrderCreate := ⟨⟨0, 0⟩, 0, ⟨2, 0⟩, ⟨1200, 1⟩, 1700000000, false⟩

theorem centsForSale_tradable : ∃ L placed c, centsForSale = .ok L ∧
    buyCents.place false L = .ok placed ∧ placed.2.limitOrders.find 0 = some c ∧
    1 ≤ c.forSale * c.sellPrice.quote.amount / c.sellPrice.base.amount ∧
    placed.2.Matches placed.1 0 c.sellPrice := by
  have hrun : centsForSale.toOption.any (fun L => (L.limitOrders.find 0).any fun o =>
      (buyCents.place false L).toOption.any fun placed =>
        (placed.2.limitOrders.find placed.1).any fun u =>
          (placed.2.limitOrders.find 0).any fun c => decide (c = o ∧
            u.receiveAssetId = c.sellAssetId ∧ u.sellAssetId = c.receiveAssetId ∧
            u.sellPrice.inverse ≤ c.sellPrice)) = true := by decide +kernel
  obtain ⟨L, hL, h⟩ := exists_ok_of_any hrun
  obtain ⟨o, ho, h⟩ := (Option.any_eq_true _ _).mp h
  obtain ⟨placed, hplaced, h⟩ := exists_ok_of_any h
  obtain ⟨u, hu, h⟩ := (Option.any_eq_true _ _).mp h
  obtain ⟨c, hc, h⟩ := (Option.any_eq_true _ _).mp h
  obtain ⟨rfl, hreceive, hsell, hcross⟩ := of_decide_eq_true h
  obtain ⟨hresting, hmatch⟩ :=
    resting_orders_tradable centLedger_genesis (perform_runOf (by decide) hL)
  exact ⟨L, placed, c, hL, hplaced, hc, (hresting 0 c ho).2.2.1,
    hmatch buyCents false placed 5 placed.2 0 u c (by decide) hplaced Relation.ReflTransGen.refl hu
      hc hreceive hsell hcross⟩

/-- An order behind another one of its side that asks for more than there can be of an asset. -/
theorem resting_order_throws : ∃ L₀ L id o, Genesis L₀ ∧ Run L₀ L ∧
    L.limitOrders.find id = some o ∧
    maxShareSupply < o.forSale * o.sellPrice.quote.amount / o.sellPrice.base.amount ∧
    ∀ x, o.amountToReceive ≠ .ok x := by
  have hrun : (centLedger.perform 5
      [.limitOrderCreate ⟨⟨0, 0⟩, 0, ⟨10, 0⟩, ⟨10, 1⟩, 1700000000, false⟩,
        .limitOrderCreate ⟨⟨0, 0⟩, 0, ⟨1, 0⟩, ⟨2000000000000000, 1⟩, 1700000000,
          false⟩]).toOption.any (fun L => (L.limitOrders.find 1).any fun o =>
        decide (maxShareSupply < o.forSale * o.sellPrice.quote.amount / o.sellPrice.base.amount) &&
          o.amountToReceive.toOption.isNone) = true := by decide +kernel
  obtain ⟨L, hL, h⟩ := exists_ok_of_any hrun
  obtain ⟨o, ho, h⟩ := (Option.any_eq_true _ _).mp h
  obtain ⟨hlarge, hthrows⟩ := Bool.and_eq_true_iff.mp h
  refine ⟨centLedger, L, 1, o, centLedger_genesis, perform_run hL, ho,
    of_decide_eq_true hlarge, fun x hx => ?_⟩
  rw [hx] at hthrows
  cases hthrows

/-! ### A match is fair -/

/-- When its conversions are in range, the match of a taker with a resting maker at the maker's
price returns.  It reports the taker as filled and moves nothing, when the taker is worth nothing at
that price, or it fills both orders by a fair exchange; then one of the two is reported as filled
and gone, and one that is not reported stays with what the exchange left of it. -/
theorem limit_orders_match_fairly {L : Ledger} {usd core : Nat} {u c : LimitOrder}
    (h : Opposed L usd core u c) (hconv : ∃ m, u.exchange c c.sellPrice = .ok m) :
    ∃ r, L.matchLimitOrders usd core c.sellPrice = .ok r ∧
      ((r = (⟨true, false⟩, L) ∧
          u.forSale * c.sellPrice.base.amount / c.sellPrice.quote.amount = 0) ∨
        ∃ x y cull, FairExchange u c x y ∧
          L.fillLimitOrders usd core ⟨y, c.sellAssetId⟩ ⟨x, c.receiveAssetId⟩ cull = .ok r ∧
          (r.1.taker = true ∨ r.1.maker = true) ∧
          r.2.limitOrders.find usd =
            (if r.1.taker then none else some (u.afterFill ⟨x, c.receiveAssetId⟩)) ∧
          r.2.limitOrders.find core =
            (if r.1.maker then none else some (c.afterFill ⟨y, c.sellAssetId⟩))) := by
  obtain ⟨r, hr, hcase⟩ := h.completes hconv
  refine ⟨r, hr, hcase.imp_right ?_⟩
  rintro ⟨x, y, cull, hfair, hfills⟩
  refine ⟨x, y, cull, hfair, hfills, ?_⟩
  simp only [fillLimitOrders, bind_eq_ok, require_eq_ok, exists_const, pure_eq_ok] at hfills
  obtain ⟨taker, htakes, maker, hmakes, hfilled, rfl⟩ := hfills
  obtain ⟨hxone, hxle⟩ := hfair.taker_pays
  obtain ⟨hyone, hyle⟩ := hfair.maker_pays
  obtain ⟨hturn, honly, -⟩ := fillLimitOrder_turn h.shape (by simp only; omega)
    (fun o ho => Option.some.inj (h.taker.symm.trans ho) ▸ hxle) htakes
  have hc : taker.2.limitOrders.find core = some c := (honly.others core h.ne).trans h.maker
  obtain ⟨-, honly', -⟩ := fillLimitOrder_turn hturn.shape (by simp only; omega)
    (fun o ho => Option.some.inj (hc.symm.trans ho) ▸ hyle) hmakes
  refine ⟨hfilled, ?_, fillLimitOrder_left hc hmakes⟩
  rw [honly'.others usd h.ne.symm]
  exact fillLimitOrder_left h.taker htakes

theorem centsForSale_match_fairly : ∃ L placed u c r, centsForSale = .ok L ∧
    buyCents.place false L = .ok placed ∧ placed.2.limitOrders.find placed.1 = some u ∧
    placed.2.limitOrders.find 0 = some c ∧
    placed.2.matchLimitOrders placed.1 0 c.sellPrice = .ok r ∧
    ((r = (⟨true, false⟩, placed.2) ∧
        u.forSale * c.sellPrice.base.amount / c.sellPrice.quote.amount = 0) ∨
      ∃ x y cull, FairExchange u c x y ∧
        placed.2.fillLimitOrders placed.1 0 ⟨y, c.sellAssetId⟩ ⟨x, c.receiveAssetId⟩ cull = .ok r ∧
        (r.1.taker = true ∨ r.1.maker = true) ∧
        r.2.limitOrders.find placed.1 =
          (if r.1.taker then none else some (u.afterFill ⟨x, c.receiveAssetId⟩)) ∧
        r.2.limitOrders.find 0 =
          (if r.1.maker then none else some (c.afterFill ⟨y, c.sellAssetId⟩))) := by
  have hrun : centsForSale.toOption.any (fun L =>
      (buyCents.place false L).toOption.any fun placed =>
        (placed.2.limitOrders.find placed.1).any fun u =>
          (placed.2.limitOrders.find 0).any fun c => decide (u.sellPrice.Valid ∧
            c.sellPrice.Valid ∧ u.receiveAssetId = c.sellAssetId ∧
            u.sellAssetId = c.receiveAssetId ∧ u.sellPrice.inverse ≤ c.sellPrice ∧
            u.forSale ≤ maxShareSupply ∧ c.forSale ≤ maxShareSupply) &&
            c.amountToReceive.toOption.any fun w => decide (1 ≤ w.amount)) =
              true := by decide +kernel
  obtain ⟨L, hL, h⟩ := exists_ok_of_any hrun
  obtain ⟨placed, hplaced, h⟩ := exists_ok_of_any h
  obtain ⟨u, hu, h⟩ := (Option.any_eq_true _ _).mp h
  obtain ⟨c, hc, h⟩ := (Option.any_eq_true _ _).mp h
  obtain ⟨hfacts, hworth⟩ := Bool.and_eq_true_iff.mp h
  obtain ⟨huvalid, hcvalid, hreceive, hsell, hcross, husale, hcsale⟩ := of_decide_eq_true hfacts
  obtain ⟨w, hw, hone⟩ := exists_ok_of_any hworth
  have hrunL : Run centLedger L := perform_run hL
  have hshape := (hrunL.balanced centLedger_genesis.balanced).shape
  have hopposed : Opposed placed.2 placed.1 0 u c :=
    ⟨(LimitOrderCreate.place_turn hshape hplaced).shape,
      LimitOrderCreate.place_owned (hrunL.owned centLedger_genesis.balanced centLedger_genesis.owned)
        hplaced, hu, hc, huvalid, hcvalid, hreceive, hsell, hcross, w, hw, of_decide_eq_true hone⟩
  obtain ⟨r, hr, hcase⟩ := limit_orders_match_fairly hopposed (hopposed.exchanges husale hcsale)
  exact ⟨L, placed, u, c, r, hL, hplaced, hu, hc, hr, hcase⟩

end Nestchain.Market
