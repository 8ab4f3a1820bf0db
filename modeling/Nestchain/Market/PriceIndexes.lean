import Nestchain.Lib.OrderedIndex
import Nestchain.Market.CallFills
import Nestchain.Market.PriceOrder
import Nestchain.Market.Rounding

/-! Indexes that are keyed by prices.  A call order that is closed is changed to no debt and no
collateral before it is removed; the ratio of the two then compares equal to every price of its
market, so that only the ids decide, and the order of the others is kept. -/

namespace Nestchain.Market

open Lib

/-! ### The order of prices -/

namespace Price

def HasRatio (p : Price) : Prop := 0 ≤ p.base.amount ∧ 0 < p.quote.amount

/-- The prices of a market, seen from one side. -/
def SamePair (a b : Price) : Prop :=
  a.base.assetId = b.base.assetId ∧ a.quote.assetId = b.quote.assetId

/-- `operator <` orders prices by their assets and their ratios, up to `operator ==`. -/
structure OrderLaws : Prop where
  irrefl : ∀ a : Price, ¬a < a
  trans : ∀ a b c : Price, a.HasRatio → b.HasRatio → c.HasRatio → a < b → b < c → a < c
  equivalent_iff : ∀ a b : Price, ¬a < b ∧ ¬b < a ↔ a.Same b
  same_trans : ∀ a b c : Price, a.HasRatio → b.HasRatio → c.HasRatio → a.Same b → b.Same c →
    a.Same c
  contiguous : ∀ a b c : Price, a.HasRatio → b.HasRatio → c.HasRatio → a ≤ b → b ≤ c →
    a.SamePair c → a.SamePair b
  by_ratio : ∀ a b : Price, a.HasRatio → b.HasRatio → a.SamePair b → (a < b ↔ a.ratio < b.ratio)

theorem lt_def {a b : Price} : a < b ↔ a.base.assetId < b.base.assetId ∨
    a.base.assetId = b.base.assetId ∧ (a.quote.assetId < b.quote.assetId ∨
      a.quote.assetId = b.quote.assetId ∧
        b.quote.amount * a.base.amount < a.quote.amount * b.base.amount) := Iff.rfl

theorem not_lt_iff_same (a b : Price) : ¬a < b ∧ ¬b < a ↔ a.Same b := by
  rw [lt_def, lt_def, Same]
  generalize b.quote.amount * a.base.amount = x
  generalize a.quote.amount * b.base.amount = y
  grind

theorem same_iff_key {a b : Price} (ha : a.HasRatio) (hb : b.HasRatio) :
    a.Same b ↔ a.key = b.key := by
  rw [← not_lt_iff_same, lt_iff_key ha.2 hb.2, lt_iff_key hb.2 ha.2, not_lt, not_lt]
  exact ⟨fun h => le_antisymm h.2 h.1, fun h => ⟨ge_of_eq h, le_of_eq h⟩⟩

theorem orderLaws : OrderLaws where
  irrefl a h := by
    rw [lt_def] at h
    grind
  trans a b c ha hb hc hab hbc := by
    rw [lt_iff_key ha.2 hb.2] at hab
    rw [lt_iff_key hb.2 hc.2] at hbc
    rw [lt_iff_key ha.2 hc.2]
    exact hab.trans hbc
  equivalent_iff := not_lt_iff_same
  same_trans a b c ha hb hc hab hbc := by
    rw [same_iff_key ha hb] at hab
    rw [same_iff_key hb hc] at hbc
    rw [same_iff_key ha hc]
    exact hab.trans hbc
  contiguous a b c ha hb hc hab hbc hpair := by
    rw [le_iff_key ha.2 hb.2] at hab
    rw [le_iff_key hb.2 hc.2] at hbc
    simp only [key, Prod.Lex.toLex_le_toLex] at hab hbc
    obtain ⟨hbase, hquote⟩ := hpair
    rw [SamePair]
    grind
  by_ratio a b ha hb hpair := by
    rw [lt_iff_key ha.2 hb.2]
    simp only [key, Prod.Lex.toLex_lt_toLex, hpair.1, hpair.2, lt_irrefl, false_or, true_and, ratio]

end Price

/-! ### Comparisons by several keys -/

/-- A comparison by one key and then by others, as `composite_key_compare` makes it. -/
def byThen {α : Type} (first others : α → α → Prop) (x y : α) : Prop :=
  first x y ∨ ¬first y x ∧ others x y

section

variable {α : Type} {first others : α → α → Prop}

instance [DecidableRel first] [DecidableRel others] : DecidableRel (byThen first others) :=
  fun _ _ => inferInstanceAs (Decidable (_ ∨ _))

theorem byThen_total {x y : α} (h : others x y ∨ others y x) :
    byThen first others x y ∨ byThen first others y x := by
  simp only [byThen]
  tauto

theorem byThen_iff {κ μ : Type} [LinearOrder κ] [LinearOrder μ] {f : α → κ} {g : α → μ} {x y : α}
    (hxy : first x y ↔ f x < f y) (hyx : first y x ↔ f y < f x) (hg : others x y ↔ g x < g y) :
    byThen first others x y ↔ toLex (f x, g x) < toLex (f y, g y) := by
  rw [byThen, hxy, hyx, hg, Prod.Lex.toLex_lt_toLex, not_lt]
  constructor
  · rintro (h | ⟨hle, hlt⟩)
    · exact Or.inl h
    · exact (lt_or_eq_of_le hle).imp_right fun h => ⟨h, hlt⟩
  · rintro (h | ⟨heq, hlt⟩)
    · exact Or.inl h
    · exact Or.inr ⟨le_of_eq heq, hlt⟩

theorem comparison_of_key {ident : α → Nat} {before : α → α → Prop} {good : α → Prop} {κ : Type}
    [LinearOrder κ] (key : α → κ)
    (htotal : ∀ a b, ident a ≠ ident b → before a b ∨ before b a)
    (hkey : ∀ a b, good a → good b → (before a b ↔ key a < key b)) :
    Comparison before ident good where
  total := htotal
  trans a b c ha hb hc hab hbc := by
    rw [hkey a b ha hb] at hab
    rw [hkey b c hb hc] at hbc
    rw [hkey a c ha hc]
    exact hab.trans hbc

end

def byId {α : Type} (x y : Nat × α) : Prop := x.1 < y.1

instance {α : Type} : DecidableRel (byId (α := α)) := fun _ _ => inferInstanceAs (Decidable (_ < _))

theorem byId_total {α : Type} {x y : Nat × α} (h : x.1 ≠ y.1) : byId x y ∨ byId y x :=
  Nat.lt_or_gt_of_ne h

/-! ### The indexes -/

/-- `by_price` of the limit orders, with `std::greater`. -/
def LimitOrder.byPrice : Nat × LimitOrder → Nat × LimitOrder → Prop :=
  byThen (fun x y => y.2.sellPrice < x.2.sellPrice) byId

instance : DecidableRel LimitOrder.byPrice := inferInstanceAs (DecidableRel (byThen _ _))

def LimitOrder.Indexed (x : Nat × LimitOrder) : Prop := x.2.sellPrice.HasRatio

/-- The price that `collateralization()` returns. -/
def CallOrder.collateralPrice (c : CallOrder) : Price := ⟨c.getCollateral, c.getDebt⟩

def CallOrder.byPrice : Nat × CallOrder → Nat × CallOrder → Prop :=
  byThen (fun x y => x.2.callPrice < y.2.callPrice) byId

instance : DecidableRel CallOrder.byPrice := inferInstanceAs (DecidableRel (byThen _ _))

def CallOrder.byCollateral : Nat × CallOrder → Nat × CallOrder → Prop :=
  byThen (fun x y => x.2.collateralPrice < y.2.collateralPrice) byId

instance : DecidableRel CallOrder.byCollateral := inferInstanceAs (DecidableRel (byThen _ _))

def CallOrder.Indexed (x : Nat × CallOrder) : Prop :=
  x.2.callPrice.HasRatio ∧ x.2.collateralPrice.HasRatio

def CollateralBid.byPrice : Nat × CollateralBid → Nat × CollateralBid → Prop :=
  byThen (fun x y => x.2.debtType < y.2.debtType)
    (byThen (fun x y => y.2.invSwanPrice < x.2.invSwanPrice) byId)

instance : DecidableRel CollateralBid.byPrice := inferInstanceAs (DecidableRel (byThen _ _))

def CollateralBid.Indexed (x : Nat × CollateralBid) : Prop := x.2.invSwanPrice.HasRatio

theorem limitOrder_comparison :
    Comparison LimitOrder.byPrice Prod.fst LimitOrder.Indexed := by
  refine comparison_of_key (fun x => toLex (OrderDual.toDual x.2.sellPrice.key, x.1))
    (fun x y hne => byThen_total (byId_total hne)) fun x y hx hy => ?_
  refine byThen_iff (f := fun x : Nat × LimitOrder => OrderDual.toDual x.2.sellPrice.key)
    (g := Prod.fst) ?_ ?_ Iff.rfl
  · rw [OrderDual.toDual_lt_toDual]
    exact Price.lt_iff_key hy.2 hx.2
  · rw [OrderDual.toDual_lt_toDual]
    exact Price.lt_iff_key hx.2 hy.2

theorem callOrder_comparison_price :
    Comparison CallOrder.byPrice Prod.fst CallOrder.Indexed := by
  refine comparison_of_key (fun x => toLex (x.2.callPrice.key, x.1))
    (fun x y hne => byThen_total (byId_total hne)) fun x y hx hy => ?_
  exact byThen_iff (f := fun x : Nat × CallOrder => x.2.callPrice.key) (g := Prod.fst)
    (Price.lt_iff_key hx.1.2 hy.1.2) (Price.lt_iff_key hy.1.2 hx.1.2) Iff.rfl

theorem callOrder_comparison_collateral :
    Comparison CallOrder.byCollateral Prod.fst CallOrder.Indexed := by
  refine comparison_of_key (fun x => toLex (x.2.collateralPrice.key, x.1))
    (fun x y hne => byThen_total (byId_total hne)) fun x y hx hy => ?_
  exact byThen_iff (f := fun x : Nat × CallOrder => x.2.collateralPrice.key) (g := Prod.fst)
    (Price.lt_iff_key hx.2.2 hy.2.2) (Price.lt_iff_key hy.2.2 hx.2.2) Iff.rfl

theorem bid_comparison :
    Comparison CollateralBid.byPrice Prod.fst CollateralBid.Indexed := by
  refine comparison_of_key
    (fun x => toLex (x.2.debtType, toLex (OrderDual.toDual x.2.invSwanPrice.key, x.1)))
    (fun x y hne => byThen_total (byThen_total (byId_total hne))) fun x y hx hy => ?_
  refine byThen_iff (f := fun x : Nat × CollateralBid => x.2.debtType)
    (g := fun x => toLex (OrderDual.toDual x.2.invSwanPrice.key, x.1)) Iff.rfl Iff.rfl ?_
  refine byThen_iff (f := fun x : Nat × CollateralBid => OrderDual.toDual x.2.invSwanPrice.key)
    (g := Prod.fst) ?_ ?_ Iff.rfl
  · rw [OrderDual.toDual_lt_toDual]
    exact Price.lt_iff_key hy.2 hx.2
  · rw [OrderDual.toDual_lt_toDual]
    exact Price.lt_iff_key hx.2 hy.2

/-! ### Runs -/

/-- The two indexes of the call orders by prices, which change together. -/
structure CallIndexes where
  byPrice : List (Nat × CallOrder)
  byCollateral : List (Nat × CallOrder)

def CallIndexes.Step (s s' : CallIndexes) : Prop :=
  ∃ e, (Admissible Prod.fst CallOrder.Indexed e s.byPrice ∧
      Performs CallOrder.byPrice e s.byPrice s'.byPrice) ∧
    Admissible Prod.fst CallOrder.Indexed e s.byCollateral ∧
      Performs CallOrder.byCollateral e s.byCollateral s'.byCollateral

/-- What the modification in `fill_call_order` makes of an order. -/
def CallOrder.filled (c : CallOrder) (pays receives : Int) (callPrice : Price) : CallOrder :=
  if c.debt - receives = 0 then { c with debt := 0, collateral := 0 }
  else { c with debt := c.debt - receives, collateral := c.collateral - pays, callPrice }

/-- What `fill_call_order` does to the indexes: it removes an order without debt. -/
def CallOrder.fillEdit (id : Nat) (c : CallOrder) (pays receives : Int) (callPrice : Price) :
    Edit (Nat × CallOrder) :=
  if c.debt - receives = 0 then .close (id, c) (id, c.filled pays receives callPrice)
  else .modify (id, c) (id, c.filled pays receives callPrice)

theorem fillEdit_admissible {id : Nat} {c : CallOrder} {pays receives : Int} {callPrice : Price}
    (l : List (Nat × CallOrder))
    (h : c.debt ≠ receives → CallOrder.Indexed (id, c.filled pays receives callPrice)) :
    Admissible Prod.fst CallOrder.Indexed (c.fillEdit id pays receives callPrice) l := by
  rw [CallOrder.fillEdit]
  split
  · exact rfl
  · rename_i hne
    exact ⟨h fun heq => hne (sub_eq_zero.mpr heq), rfl⟩

theorem Ledger.fillCallOrder_edit {L : Ledger} {id : Nat} {pays receives : Asset}
    {r : Bool × Ledger} (h : L.fillCallOrder id pays receives = .ok r) :
    ∃ c callPrice, L.callOrders.find id = some c ∧
      match c.fillEdit id pays.amount receives.amount callPrice with
      | .close _ _ => r.2.callOrders = L.callOrders.remove id
      | .modify _ x' => r.2.callOrders = L.callOrders.set id x'.2
      | _ => False := by
  obtain ⟨c, b, hc, -, hfilled⟩ := Ledger.fillCallOrder_callOrders h
  generalize r.2.callOrders = t at *
  cases hfilled with
  | closed hdebt =>
    refine ⟨c, c.callPrice, hc, ?_⟩
    rw [CallOrder.fillEdit, if_pos (sub_eq_zero.mpr hdebt)]
  | @left c' hne hleft =>
    have hdebt : ¬c.debt - receives.amount = 0 := fun heq => hne (sub_eq_zero.mp heq)
    refine ⟨c, c'.callPrice, hc, ?_⟩
    have hc' : c' = c.filled pays.amount receives.amount c'.callPrice := by
      rw [CallOrder.filled, if_neg hdebt, ← hleft.debt, ← hleft.collateral, ← hleft.borrower,
        ← hleft.target]
    rw [CallOrder.fillEdit, if_neg hdebt, ← hc']

/-- The order of prices, and the indexes in their order after every sequence of changes. -/
theorem priceIndexes_inOrder :
    Price.OrderLaws ∧
    (∀ orders, Relation.ReflTransGen (EditStep LimitOrder.byPrice Prod.fst LimitOrder.Indexed)
      [] orders → orders.Pairwise LimitOrder.byPrice) ∧
    (∀ calls, Relation.ReflTransGen CallIndexes.Step ⟨[], []⟩ calls →
      calls.byPrice.Pairwise CallOrder.byPrice ∧
        calls.byCollateral.Pairwise CallOrder.byCollateral) ∧
    (∀ (id : Nat) (c : CallOrder) (pays receives : Int) (callPrice : Price),
      (c.debt ≠ receives → CallOrder.Indexed (id, c.filled pays receives callPrice)) → ∀ l,
      Admissible Prod.fst CallOrder.Indexed (c.fillEdit id pays receives callPrice) l) ∧
    ∀ bids, Relation.ReflTransGen (EditStep CollateralBid.byPrice Prod.fst CollateralBid.Indexed)
      [] bids → bids.Pairwise CollateralBid.byPrice := by
  refine ⟨Price.orderLaws, fun orders h => ?_, fun calls h => ⟨?_, ?_⟩,
    fun _ _ _ _ _ h l => fillEdit_admissible l h, fun bids h => ?_⟩
  · exact (inOrder_run limitOrder_comparison h (inOrder_nil _ _ _)).sorted
  · have hrun := h.lift (p := EditStep CallOrder.byPrice Prod.fst CallOrder.Indexed)
      CallIndexes.byPrice fun s s' ⟨e, he, _⟩ => ⟨e, he⟩
    exact (inOrder_run callOrder_comparison_price hrun (inOrder_nil _ _ _)).sorted
  · have hrun := h.lift (p := EditStep CallOrder.byCollateral Prod.fst CallOrder.Indexed)
      CallIndexes.byCollateral fun s s' ⟨e, _, he⟩ => ⟨e, he⟩
    exact (inOrder_run callOrder_comparison_collateral hrun (inOrder_nil _ _ _)).sorted
  · exact (inOrder_run bid_comparison h (inOrder_nil _ _ _)).sorted

/-! ### Two orders, three positions and two bids -/

def openedCall (id : Nat) (collateral : Int) : Nat × CallOrder :=
  (id, ⟨0, collateral, 100, ⟨⟨collateral, 0⟩, ⟨175, 1⟩⟩, none⟩)

theorem openedCall_step (id : Nat) (collateral : Int) {l l' : List (Nat × CallOrder)}
    (t : BinaryTree (Nat × CallOrder)) (h : 0 ≤ collateral) (hnew : ∀ a ∈ l, a.1 ≠ id)
    (hl : inorder t = l)
    (hprice : inorder (descend CallOrder.byPrice (openedCall id collateral) t) = l')
    (hcollateral : inorder (descend CallOrder.byCollateral (openedCall id collateral) t) = l') :
    CallIndexes.Step ⟨l, l⟩ ⟨l', l'⟩ := by
  have hindexed : CallOrder.Indexed (openedCall id collateral) :=
    ⟨⟨h, by change (0 : Int) < 175; decide⟩, h, by change (0 : Int) < 100; decide⟩
  exact ⟨_, admissible_insert _ t hindexed hnew hl hprice,
    admissible_insert _ t hindexed hnew hl hcollateral⟩

/-- Of three positions the middle one is opened first and covered last.  Without debt and collateral
its id alone decides its place in the second index, where it moves to the front. -/
theorem covered_run : Relation.ReflTransGen CallIndexes.Step ⟨[], []⟩
    ⟨[openedCall 1 200, openedCall 2 400], [openedCall 1 200, openedCall 2 400]⟩ := by
  have hfirst : CallIndexes.Step ⟨[], []⟩ ⟨[openedCall 0 300], [openedCall 0 300]⟩ :=
    openedCall_step 0 300 .nil (by decide) nofun rfl rfl rfl
  have hsecond : CallIndexes.Step ⟨[openedCall 0 300], [openedCall 0 300]⟩
      ⟨[openedCall 1 200, openedCall 0 300], [openedCall 1 200, openedCall 0 300]⟩ :=
    openedCall_step 1 200 (.node _ .nil .nil) (by decide) (by decide) rfl (by decide) (by decide)
  have hthird : CallIndexes.Step
      ⟨[openedCall 1 200, openedCall 0 300], [openedCall 1 200, openedCall 0 300]⟩
      ⟨[openedCall 1 200, openedCall 0 300, openedCall 2 400],
        [openedCall 1 200, openedCall 0 300, openedCall 2 400]⟩ :=
    openedCall_step 2 400 (.node (openedCall 1 200) .nil (.node (openedCall 0 300) .nil .nil))
      (by decide) (by decide) rfl (by decide) (by decide)
  have hcovered : CallIndexes.Step
      ⟨[openedCall 1 200, openedCall 0 300, openedCall 2 400],
        [openedCall 1 200, openedCall 0 300, openedCall 2 400]⟩
      ⟨[openedCall 1 200, openedCall 2 400], [openedCall 1 200, openedCall 2 400]⟩ := by
    let covered := (openedCall 0 300).2.filled 300 100 Price.null
    refine ⟨(openedCall 0 300).2.fillEdit 0 300 100 Price.null, ⟨rfl, ?_⟩, rfl, ?_⟩
    · have hstays : Repositions CallOrder.byPrice (0, covered) [openedCall 1 200]
          [openedCall 2 400] ([openedCall 1 200] ++ (0, covered) :: [openedCall 2 400]) :=
        .stay (by decide) (by decide)
      exact .close hstays
    · have hmoves : Repositions CallOrder.byCollateral (0, covered) [openedCall 1 200]
          [openedCall 2 400] ([] ++ (0, covered) :: [openedCall 1 200, openedCall 2 400]) := by
        refine .again (by decide) ?_
        exact .descend (.node (openedCall 1 200) .nil (.node (openedCall 2 400) .nil .nil))
      exact .close hmoves
  exact (((Relation.ReflTransGen.single hfirst).tail hsecond).tail hthird).tail hcovered

def placedOrder (id : Nat) (asks : Int) : Nat × LimitOrder :=
  (id, ⟨0, 0, 100, ⟨⟨100, 0⟩, ⟨asks, 1⟩⟩, 0, ⟨0, 0⟩⟩)

def placedBid (id : Nat) (offers : Int) : Nat × CollateralBid := (id, ⟨0, ⟨⟨offers, 0⟩, ⟨100, 1⟩⟩⟩)

/-- The order that asks for less and the bid that offers more come first; a position is left with
half its debt. -/
theorem priceIndexes_inOrder_covered :
    [placedOrder 1 50, placedOrder 0 80].Pairwise LimitOrder.byPrice ∧
    [openedCall 1 200, openedCall 2 400].Pairwise CallOrder.byPrice ∧
    [openedCall 1 200, openedCall 2 400].Pairwise CallOrder.byCollateral ∧
    Admissible Prod.fst CallOrder.Indexed
      ((openedCall 1 200).2.fillEdit 1 100 50 ⟨⟨100, 0⟩, ⟨175, 1⟩⟩)
      [openedCall 1 200, openedCall 2 400] ∧
    [placedBid 1 90, placedBid 0 70].Pairwise CollateralBid.byPrice := by
  obtain ⟨-, horders, hcalls, hfills, hbids⟩ := priceIndexes_inOrder
  refine ⟨horders _ ?_, (hcalls _ covered_run).1, (hcalls _ covered_run).2,
    hfills 1 (openedCall 1 200).2 100 50 ⟨⟨100, 0⟩, ⟨175, 1⟩⟩ (fun _ => ?_) _, hbids _ ?_⟩
  · have hfirst : EditStep LimitOrder.byPrice Prod.fst LimitOrder.Indexed [] [placedOrder 0 80] :=
      ⟨_, admissible_insert _ .nil ⟨by decide, by decide⟩ nofun rfl rfl⟩
    exact .tail (.single hfirst)
      ⟨_, admissible_insert (placedOrder 1 50) (.node (placedOrder 0 80) .nil .nil)
        ⟨by decide, by decide⟩ (by decide) rfl (by decide)⟩
  · exact ⟨⟨by decide, by decide⟩, by decide, by decide⟩
  · have hfirst : EditStep CollateralBid.byPrice Prod.fst CollateralBid.Indexed []
        [placedBid 0 70] := ⟨_, admissible_insert _ .nil ⟨by decide, by decide⟩ nofun rfl rfl⟩
    exact .tail (.single hfirst)
      ⟨_, admissible_insert (placedBid 1 90) (.node (placedBid 0 70) .nil .nil)
        ⟨by decide, by decide⟩ (by decide) rfl (by decide)⟩

end Nestchain.Market
