import Nestchain.Market.Feeds
import Nestchain.Market.PriceOrder

/-! The book of the limit orders is not crossed.  A new order that is not in front of its side
leaves the book alone, and one that is takes every order that it crosses with, unless it is used up
before: what is left of it then would receive nothing and is culled. -/

namespace Nestchain.Market

open Lib Ledger

/-- No two orders of a market face each other at prices that cross. -/
def Uncrossed (L : Ledger) : Prop :=
  ∀ i j a b, L.limitOrders.find i = some a → L.limitOrders.find j = some b →
    a.sellAssetId = b.receiveAssetId → a.receiveAssetId = b.sellAssetId →
    a.sellPrice < b.sellPrice.inverse

/-- A valid price that is not above `price::max`. -/
structure Price.Listed (p : Price) : Prop where
  valid : p.Valid
  le_max : p.base.amount ≤ maxShareSupply * p.quote.amount

theorem Price.Listed.le_greatest {p top : Price} (h : p.Listed)
    (htop : Price.greatest p.base.assetId p.quote.assetId = .ok top) : p ≤ top := by
  simp only [Price.greatest, Price.ofAssets_eq_ok] at htop
  rw [Price.le_iff_mul (by rw [htop.2]) (by rw [htop.2]), htop.2]
  simp only [one_mul]
  rw [mul_comm]
  exact h.le_max

/-- The orders that are left are there before, at the same prices. -/
def KeepsOrders (L L' : Ledger) : Prop :=
  ∀ id o', L'.limitOrders.find id = some o' →
    ∃ o, L.limitOrders.find id = some o ∧ o.sellPrice = o'.sellPrice

namespace KeepsOrders

variable {L L1 L' : Ledger} {loose : Nat → Prop} {id : Nat}

theorem refl (L : Ledger) : KeepsOrders L L := fun _ o ho => ⟨o, ho, rfl⟩

theorem trans (h : KeepsOrders L L1) (h' : KeepsOrders L1 L') : KeepsOrders L L' := by
  intro id o' ho'
  obtain ⟨o1, ho1, hprice1⟩ := h' id o' ho'
  obtain ⟨o, ho, hprice⟩ := h id o1 ho1
  exact ⟨o, ho, hprice.trans hprice1⟩

theorem of_eq (h : L'.limitOrders = L.limitOrders) : KeepsOrders L L' :=
  fun _ o ho => ⟨o, h ▸ ho, rfl⟩

theorem none (h : KeepsOrders L L') (hid : L.limitOrders.find id = .none) :
    L'.limitOrders.find id = .none := by
  rw [Option.eq_none_iff_forall_ne_some]
  intro o' ho'
  obtain ⟨o, ho, -⟩ := h id o' ho'
  rw [hid] at ho
  cases ho

theorem uncrossed (h : KeepsOrders L L') (hL : Uncrossed L) : Uncrossed L' := by
  intro i j a' b' ha' hb' hsell hreceive
  obtain ⟨a, ha, hpa⟩ := h i a' ha'
  obtain ⟨b, hb, hpb⟩ := h j b' hb'
  have hcross := hL i j a b ha hb
  simp only [LimitOrder.sellAssetId, LimitOrder.receiveAssetId, hpa, hpb] at hcross hsell hreceive
  exact hcross hsell hreceive

theorem prices {P : Price → Prop} (h : KeepsOrders L L')
    (hL : ∀ id o, L.limitOrders.find id = some o → P o.sellPrice) :
    ∀ id o, L'.limitOrders.find id = some o → P o.sellPrice := by
  intro id o' ho'
  obtain ⟨o, ho, hprice⟩ := h id o' ho'
  exact hprice ▸ hL id o ho

theorem of_change (h : Change loose L L') (hnext : ¬loose L.limitOrders.next) :
    KeepsOrders L L' ∧ L'.limitOrders.next = L.limitOrders.next := by
  cases h with
  | funds h => exact ⟨of_eq h.limitOrders, by rw [h.limitOrders]⟩
  | createLimitOrder o hloose => exact absurd hloose hnext
  | @fillLimitOrder j o pays ho _ _ =>
    refine ⟨fun id o' ho' => ?_, rfl⟩
    rcases (Table.find_set_iff ho).mp ho' with ⟨rfl, rfl⟩ | ⟨-, ho'⟩
    · exact ⟨o, ho, rfl⟩
    · exact ⟨o', ho', rfl⟩
  | removeLimitOrder j => exact ⟨fun id o ho => ⟨o, (Table.find_remove_iff.mp ho).2, rfl⟩, rfl⟩
  | _ => exact ⟨refl L, rfl⟩

theorem of_changes (h : Changes loose L L') (hloose : ∀ j, loose j → j < L.limitOrders.next) :
    KeepsOrders L L' ∧ L'.limitOrders.next = L.limitOrders.next := by
  refine h.invariant (P := fun M => KeepsOrders L M ∧ M.limitOrders.next = L.limitOrders.next)
    (fun M M' hM hchange => ?_) ⟨refl L, rfl⟩
  have hnext : ¬loose M.limitOrders.next := fun hl => Nat.lt_irrefl _ (hM.2 ▸ hloose _ hl)
  obtain ⟨hkeeps, hnext'⟩ := of_change hchange hnext
  exact ⟨hM.1.trans hkeeps, hnext'.trans hM.2⟩

theorem of_loose {o : LimitOrder} (ho : L.limitOrders.find id = some o)
    (h : Changes (· = id) L L') : KeepsOrders L L' :=
  (of_changes h fun _ hj => hj ▸ Table.find_lt ho).1

theorem loose_sellPrice {o u : LimitOrder} (ho : L.limitOrders.find id = some o)
    (h : Changes (· = id) L L') (hu : L'.limitOrders.find id = some u) :
    u.sellPrice = o.sellPrice := by
  obtain ⟨v, hv, hsame⟩ := of_loose ho h id u hu
  obtain rfl : o = v := Option.some.inj (ho.symm.trans hv)
  exact hsame.symm

theorem of_noOrder (h : Change noOrder L L') : KeepsOrders L L' := (of_change h not_false).1

end KeepsOrders

theorem LimitOrder.nothing_of_good {o : LimitOrder} {p : Price} {x receives : Asset}
    (hvalid : o.sellPrice.Valid) (hbase : p.base.assetId = o.receiveAssetId)
    (hquote : p.quote.assetId = o.sellAssetId) (hgood : o.sellPrice.inverse ≤ p)
    (h : o.amountForSale.mul p = .ok x) (hx : x.amount = 0)
    (hreceives : o.amountToReceive = .ok receives) : receives.amount = 0 := by
  obtain ⟨hbasePos, hquotePos, hne⟩ := hvalid
  rw [Price.le_iff_mul (a := o.sellPrice.inverse) hbase.symm hquote.symm] at hgood
  simp only [Price.inverse] at hgood
  rcases Asset.mul_cases hreceives with ⟨-, -, -, hnonneg, he⟩ | ⟨hother, -⟩
  swap
  · exact absurd rfl hother
  rcases Asset.mul_cases h with ⟨hsell, -⟩ | ⟨-, -, -, hq, -, hx'⟩
  · exact absurd (hsell.trans hbase) hne
  rw [hx] at hx'
  have hlt := Int.lt_ediv_add_one_mul_self (o.forSale * p.base.amount) hq
  have hforSale : 0 ≤ o.forSale := nonneg_of_mul_nonneg_left hnonneg hquotePos
  simp only [LimitOrder.amountForSale] at hx' he hnonneg
  rw [← hx', zero_add, one_mul] at hlt
  rw [he]
  refine Int.ediv_eq_zero_of_lt hnonneg ?_
  -- both sides are compared after multiplication with the quote of the price
  refine lt_of_mul_lt_mul_right ?_ (le_of_lt hq)
  calc o.forSale * o.sellPrice.quote.amount * p.quote.amount
      = o.forSale * (p.quote.amount * o.sellPrice.quote.amount) := by ring
    _ ≤ o.forSale * (o.sellPrice.base.amount * p.base.amount) :=
      mul_le_mul_of_nonneg_left hgood hforSale
    _ = o.sellPrice.base.amount * (o.forSale * p.base.amount) := by ring
    _ < o.sellPrice.base.amount * p.quote.amount := mul_lt_mul_of_pos_left hlt hbasePos

namespace Ledger

variable {L L' M : Ledger} {id : Nat}

/-! ### What is left of an order that was filled -/

/-- The order is gone, or what is left of it would receive nothing. -/
def Spent (L : Ledger) (id : Nat) : Prop :=
  ∀ o, L.limitOrders.find id = some o → ∀ receives, o.amountToReceive = .ok receives →
    receives.amount = 0

theorem Spent.of_none (h : L.limitOrders.find id = none) : Spent L id := by
  intro o ho
  rw [h] at ho
  cases ho

theorem cancelLimitOrder_gone {virtualOp skipFee : Bool}
    (h : L.cancelLimitOrder id virtualOp skipFee = .ok L') : L'.limitOrders.find id = none := by
  obtain ⟨M, -, rfl⟩ := cancelLimitOrder_funds h
  exact Table.find_remove_self _ _

theorem maybeCullSmallOrder_cases {r : Bool × Ledger} (h : L.maybeCullSmallOrder id = .ok r) :
    (r.1 = true ∧ r.2.limitOrders.find id = none) ∨
      (r.1 = false ∧ r.2 = L ∧ ∃ o, L.limitOrders.find id = some o ∧ o.Receives) := by
  simp only [maybeCullSmallOrder, bind_eq_ok, demand_eq_ok] at h
  obtain ⟨o, ho, receives, hreceives, h⟩ := h
  split at h
  · simp only [bind_eq_ok, pure_eq_ok] at h
    obtain ⟨M, hM, rfl⟩ := h
    exact Or.inl ⟨rfl, cancelLimitOrder_gone hM⟩
  · rename_i hne
    obtain rfl := pure_eq_ok.mp h
    exact Or.inr ⟨rfl, rfl, o, ho, receives, hreceives, hne⟩

theorem fillLimitOrder_gone {pays receives : Asset} {cull : Bool} {r : Bool × Ledger}
    (h : L.fillLimitOrder id pays receives cull = .ok r) (hr : r.1 = true) :
    r.2.limitOrders.find id = none := by
  simp only [fillLimitOrder, bind_eq_ok] at h
  obtain ⟨o, -, -, -, -, -, paid, -, net, -, M1, -, M, -, h⟩ := h
  split at h
  · obtain rfl := pure_eq_ok.mp h
    exact Table.find_remove_self _ _
  · split at h
    · rcases maybeCullSmallOrder_cases h with ⟨-, hnone⟩ | ⟨hfalse, -⟩
      · exact hnone
      · rw [hfalse] at hr
        cases hr
    · obtain rfl := pure_eq_ok.mp h
      cases hr

theorem fillLimitOrder_keepsOrders {pays receives : Asset} {cull : Bool} {r : Bool × Ledger}
    (hpays : 0 ≤ pays.amount) (h : L.fillLimitOrder id pays receives cull = .ok r) :
    KeepsOrders L r.2 := by
  have hfind := h
  simp only [fillLimitOrder, bind_eq_ok, demand_eq_ok] at hfind
  obtain ⟨o, ho, -⟩ := hfind
  exact .of_loose ho (fillLimitOrder_changes hpays (Or.inr rfl) h)

theorem fillLimitOrders_gone {usd core : Nat} {usdReceives coreReceives : Asset} {cull : Bool}
    {r : Filled × Ledger} (husd : 0 ≤ usdReceives.amount)
    (h : L.fillLimitOrders usd core usdReceives coreReceives cull = .ok r) :
    (r.1.taker = true → r.2.limitOrders.find usd = none) ∧
      (r.1.maker = true → r.2.limitOrders.find core = none) ∧
      (r.1.taker = true ∨ r.1.maker = true) := by
  simp only [fillLimitOrders, bind_eq_ok, require_eq_ok, exists_const, pure_eq_ok] at h
  obtain ⟨taker, htaker, maker, hmaker, hfilled, rfl⟩ := h
  refine ⟨fun ht => ?_, fun hm => fillLimitOrder_gone hmaker hm, hfilled⟩
  exact (fillLimitOrder_keepsOrders husd hmaker).none (fillLimitOrder_gone htaker ht)

/-- The price is in the market of the order `id`, and not worse than the order asks for. -/
def GoodFor (L : Ledger) (id : Nat) (p : Price) : Prop :=
  ∀ u, L.limitOrders.find id = some u → u.sellPrice.Valid ∧
    p.base.assetId = u.receiveAssetId ∧ p.quote.assetId = u.sellAssetId ∧ u.sellPrice.inverse ≤ p

theorem GoodFor.keeps {p : Price} (h : GoodFor L id p) (hkeeps : KeepsOrders L L') :
    GoodFor L' id p := by
  intro u' hu'
  obtain ⟨u, hu, hprice⟩ := hkeeps id u' hu'
  have hgood := h u hu
  simp only [LimitOrder.receiveAssetId, LimitOrder.sellAssetId, hprice] at hgood
  exact hgood

theorem matchLimitOrders_result {usd core : Nat} {p : Price} {r : Filled × Ledger}
    (hgood : GoodFor L usd p) (h : L.matchLimitOrders usd core p = .ok r) :
    KeepsOrders L r.2 ∧ (r.1 = ⟨false, true⟩ → r.2.limitOrders.find core = none) ∧
      (r.1 ≠ ⟨false, true⟩ → Spent r.2 usd) := by
  have hfills : ∀ (usdReceives coreReceives : Asset) cull, 0 ≤ usdReceives.amount →
      L.fillLimitOrders usd core usdReceives coreReceives cull = .ok r →
      (r.1 = ⟨false, true⟩ → r.2.limitOrders.find core = none) ∧
        (r.1 ≠ ⟨false, true⟩ → Spent r.2 usd) := by
    intro usdReceives coreReceives cull hnonneg hfill
    obtain ⟨htaker, hmaker, hfilled⟩ := fillLimitOrders_gone hnonneg hfill
    refine ⟨fun he => hmaker (by rw [he]), fun hne => .of_none (htaker ?_)⟩
    by_contra hfalse
    have hfalse' : r.1.taker = false := by simpa using hfalse
    refine hne ?_
    have hm := hfilled.resolve_left hfalse
    obtain ⟨⟨taker, maker⟩, N⟩ := r
    simp only at hfalse' hm
    rw [hfalse', hm]
  have hchanges : Changes (· = usd) L r.2 := matchLimitOrders_changes rfl h
  simp only [matchLimitOrders, bind_eq_ok, demand_eq_ok] at h
  obtain ⟨u, hu, c, -, -, -, -, -, -, -, worth, -, less, -, h⟩ := h
  refine ⟨.of_loose hu hchanges, ?_⟩
  split at h
  · simp only [bind_eq_ok] at h
    obtain ⟨usdReceives, hround, h⟩ := h
    exact hfills _ _ _ (Asset.multiplyAndRoundUp_nonneg hround) h
  · simp only [bind_eq_ok] at h
    obtain ⟨usdReceives, husd, h⟩ := h
    split at h
    · rename_i hzero
      obtain rfl := pure_eq_ok.mp h
      refine ⟨fun he => by simp at he, fun _ o ho receives hreceives => ?_⟩
      obtain ⟨hvalid, hbase, hquote, hle⟩ := hgood o ho
      obtain rfl : u = o := Option.some.inj (hu.symm.trans ho)
      exact LimitOrder.nothing_of_good hvalid hbase hquote hle husd hzero hreceives
    · simp only [bind_eq_ok] at h
      obtain ⟨coreReceives, -, h⟩ := h
      exact hfills _ _ _ (Asset.mul_nonneg husd) h

theorem matchLimitAndCall_result {rounds bid ask : Nat} {p : Price} {feed : PriceFeed}
    {r : Filled × Ledger} (hgood : GoodFor L bid p)
    (h : matchLimitAndCall rounds L bid ask p feed = .ok r) :
    KeepsOrders L r.2 ∧ (r.1.taker = true → Spent r.2 bid) := by
  have hfills : ∀ orderReceives callReceives cull,
      L.fillLimitAndCall bid ask orderReceives callReceives cull = .ok r →
      (r.1.taker = true → Spent r.2 bid) := by
    intro orderReceives callReceives cull hfill htaken
    simp only [fillLimitAndCall, bind_eq_ok, pure_eq_ok] at hfill
    obtain ⟨taker, htaker, maker, hmaker, rfl⟩ := hfill
    have hcall : Changes noOrder taker.2 maker.2 := fillCallOrder_changes hmaker
    have hkeeps := (KeepsOrders.of_changes hcall fun _ hj => hj.elim).1
    exact .of_none (hkeeps.none (fillLimitOrder_gone htaker htaken))
  have hchanges : Changes (· = bid) L r.2 := matchLimitAndCall_changes rfl h
  simp only [matchLimitAndCall, bind_eq_ok, demand_eq_ok] at h
  obtain ⟨o, ho, c, -, -, -, -, -, -, -, usdToBuy, -, h⟩ := h
  refine ⟨.of_loose ho hchanges, ?_⟩
  split at h
  · simp only [bind_eq_ok] at h
    obtain ⟨orderReceives, horder, h⟩ := h
    split at h
    · rename_i hzero
      obtain rfl := pure_eq_ok.mp h
      intro _ u hu receives hreceives
      obtain ⟨hvalid, hbase, hquote, hle⟩ := hgood u hu
      obtain rfl : o = u := Option.some.inj (ho.symm.trans hu)
      exact LimitOrder.nothing_of_good hvalid hbase hquote hle horder hzero hreceives
    · simp only [bind_eq_ok] at h
      obtain ⟨callReceives, -, h⟩ := h
      exact hfills _ _ _ h
  · simp only [bind_eq_ok] at h
    obtain ⟨orderReceives, -, h⟩ := h
    exact hfills _ _ _ h

/-! ### The loops of `apply_order` -/

/-- The orders of a book face the order `id`: their prices are good for it. -/
def Facing (L : Ledger) (id : Nat) (book : List Nat) : Prop :=
  ∀ maker ∈ book, ∀ o, L.limitOrders.find maker = some o → GoodFor L id o.sellPrice

theorem Facing.keeps {book : List Nat} (h : Facing L id book) (hkeeps : KeepsOrders L L') :
    Facing L' id book := by
  intro maker hmaker o' ho'
  obtain ⟨o, ho, hprice⟩ := hkeeps maker o' ho'
  exact hprice ▸ (h maker hmaker o ho).keeps hkeeps

/-- The matching with a book uses the order up, or takes the orders at the start of the book, all of
them when all prices are good. -/
structure BookMatched (id : Nat) (good : Price → Bool) (book : List Nat) (L : Ledger)
    (r : Bool × List Nat × Ledger) : Prop where
  keeps : KeepsOrders L r.2.2
  spent : r.1 = true → Spent r.2.2 id
  subset : r.1 = false → r.2.1 ⊆ book
  gone : r.1 = false → ∀ maker ∈ book, maker ∈ r.2.1 ∨ r.2.2.limitOrders.find maker = none
  all : r.1 = false → (∀ p, good p = true) → r.2.1 = []

theorem matchBook_result {good : Price → Bool} :
    ∀ (book : List Nat) (L : Ledger) (r : Bool × List Nat × Ledger), Facing L id book →
      matchBook id good book L = .ok r → BookMatched id good book L r
  | [], L, r, _, h => by
    obtain rfl := pure_eq_ok.mp h
    exact ⟨.refl L, fun hr => by simp at hr, fun _ => List.Subset.refl _,
      fun _ _ hm => Or.inl hm, fun _ _ => rfl⟩
  | maker :: book, L, r, hfacing, h => by
    simp only [matchBook, bind_eq_ok, demand_eq_ok] at h
    obtain ⟨o, ho, h⟩ := h
    split at h
    · simp only [bind_eq_ok] at h
      obtain ⟨m, hm, h⟩ := h
      obtain ⟨hkeeps, hgone, hspent⟩ :=
        matchLimitOrders_result (hfacing maker (List.mem_cons_self ..) o ho) hm
      split at h
      · rename_i hfilled
        have hrest := matchBook_result book m.2 r (Facing.keeps
          (fun j hj => hfacing j (List.mem_cons_of_mem _ hj)) hkeeps) h
        refine ⟨hkeeps.trans hrest.keeps, hrest.spent, fun hr => ?_, fun hr j hj => ?_, hrest.all⟩
        · exact List.Subset.trans (hrest.subset hr) (List.subset_cons_self ..)
        · rcases List.mem_cons.mp hj with rfl | hj
          · exact Or.inr (hrest.keeps.none (hgone hfilled))
          · exact hrest.gone hr j hj
      · rename_i hfilled
        obtain rfl := pure_eq_ok.mp h
        exact ⟨hkeeps, fun _ => hspent hfilled, fun hr => by simp at hr, fun hr => by simp at hr,
          fun hr => by simp at hr⟩
    · rename_i hbad
      obtain rfl := pure_eq_ok.mp h
      exact ⟨.refl L, fun hr => by simp at hr, fun _ => List.Subset.refl _,
        fun _ _ hj => Or.inl hj, fun _ hall => absurd (hall _) hbad⟩

theorem matchCallsRound_result {rounds : Nat} {low p : Price} {feed : PriceFeed}
    {r : Ledger ⊕ Bool × Ledger} (hgood : GoodFor L id p)
    (h : matchCallsRound rounds id low p feed L = .ok r) :
    KeepsOrders L (r.elim (fun M => M) Prod.snd) ∧
      ∀ M, r = .inr (true, M) → Spent M id := by
  simp only [matchCallsRound, bind_eq_ok] at h
  obtain ⟨o, -, h⟩ := h
  split at h
  · obtain rfl := pure_eq_ok.mp h
    exact ⟨.refl L, fun M hM => by simp at hM⟩
  · split at h
    · obtain rfl := pure_eq_ok.mp h
      exact ⟨.refl L, fun M hM => by simp at hM⟩
    · simp only [bind_eq_ok] at h
      obtain ⟨m, hm, h⟩ := h
      obtain ⟨hkeeps, hspent⟩ := matchLimitAndCall_result hgood hm
      split at h
      · rename_i htaken
        obtain rfl := pure_eq_ok.mp h
        refine ⟨hkeeps, fun M hM => ?_⟩
        obtain ⟨-, rfl⟩ := Prod.mk.inj (Sum.inr.inj hM)
        exact hspent htaken
      · obtain rfl := pure_eq_ok.mp h
        exact ⟨hkeeps, fun M hM => by simp at hM⟩

theorem matchBeforeBook_result {rounds : Nat} {o : LimitOrder} {book : List Nat}
    {r : Bool × List Nat × Ledger} (hfed : Fed L) (ho : L.limitOrders.find id = some o)
    (hvalid : o.sellPrice.Valid) (hfacing : Facing L id book)
    (h : matchBeforeBook rounds L id o book = .ok r) :
    KeepsOrders L r.2.2 ∧ (r.1 = true → Spent r.2.2 id) ∧ (r.1 = false → r.2.1 ⊆ book ∧
      ∀ maker ∈ book, maker ∈ r.2.1 ∨ r.2.2.limitOrders.find maker = none) := by
  simp only [matchBeforeBook, bind_eq_ok] at h
  obtain ⟨price, hprice, h⟩ := h
  cases price with
  | none =>
    obtain rfl := pure_eq_ok.mp h
    exact ⟨.refl L, fun hr => by simp at hr, fun _ => ⟨List.Subset.refl _, fun _ hm => Or.inl hm⟩⟩
  | some p =>
    obtain ⟨p, feed⟩ := p
    have hcalls := callMatchPrice_spec hfed hprice
    have hgood : GoodFor L id p := by
      intro u hu
      obtain rfl : o = u := Option.some.inj (ho.symm.trans hu)
      exact ⟨hvalid, hcalls.between.base_asset, hcalls.between.quote_asset, hcalls.good⟩
    simp only [bind_eq_ok] at h
    obtain ⟨better, hbetter, h⟩ := h
    have hbook := matchBook_result book L better hfacing hbetter
    split at h
    · rename_i hfinished
      obtain rfl := pure_eq_ok.mp h
      exact ⟨hbook.keeps, hbook.spent, fun hr => by simp [hr] at hfinished⟩
    · rename_i hunfinished
      have hfalse : better.1 = false := by simpa using hunfinished
      simp only [bind_eq_ok, pure_eq_ok] at h
      obtain ⟨low, -, called, hcalled, rfl⟩ := h
      have hloop := loop_invariant (P := fun M => KeepsOrders better.2.2 M)
        (Q := fun r => KeepsOrders better.2.2 r.2 ∧ (r.1 = true → Spent r.2 id))
        (fun M M' hM hround => ?_) (fun M r hM hround => ?_) rounds _ _ (.refl _) hcalled
      · refine ⟨hbook.keeps.trans hloop.1, hloop.2, fun _ => ⟨hbook.subset hfalse, fun m hm => ?_⟩⟩
        exact (hbook.gone hfalse m hm).imp_right hloop.1.none
      · exact hM.trans (matchCallsRound_result (hgood.keeps (hbook.keeps.trans hM)) hround).1
      · obtain ⟨hkeeps, hspent⟩ :=
          matchCallsRound_result (hgood.keeps (hbook.keeps.trans hM)) hround
        refine ⟨hM.trans hkeeps, fun hr => hspent r.2 ?_⟩
        rw [← hr]

theorem applyOrder_result {rounds : Nat} {o : LimitOrder} {top : Price} {r : Bool × Ledger}
    (hfed : Fed L) (ho : L.limitOrders.find id = some o) (hvalid : o.sellPrice.Valid)
    (hfront : L.isBehind id o = false)
    (htop : Price.greatest o.receiveAssetId o.sellAssetId = .ok top)
    (hfacing : Facing L id (L.limitOrdersVisited top o.sellPrice.inverse))
    (h : applyOrder rounds L id = .ok r) :
    ∀ u, r.2.limitOrders.find id = some u →
      ∀ maker ∈ L.limitOrdersVisited top o.sellPrice.inverse,
        r.2.limitOrders.find maker = none := by
  simp only [applyOrder, bind_eq_ok, demand_eq_ok] at h
  obtain ⟨o', ho', h⟩ := h
  obtain rfl : o = o' := Option.some.inj (ho.symm.trans ho')
  rw [if_neg (by simp [hfront])] at h
  simp only [bind_eq_ok] at h
  obtain ⟨top', htop', calls, hcalls, rest, hrest, h⟩ := h
  obtain rfl : top = top' := Except.ok.inj (htop.symm.trans htop')
  obtain ⟨hkeeps, hspent, hleft⟩ := matchBeforeBook_result hfed ho hvalid hfacing hcalls
  -- the order is used up by the call orders or by the book, or the whole book is gone
  have hmatched : Spent rest.2.2 id ∨ ∀ maker ∈ L.limitOrdersVisited top o.sellPrice.inverse,
      rest.2.2.limitOrders.find maker = none := by
    split at hrest
    · rename_i hfinished
      obtain rfl := pure_eq_ok.mp hrest
      exact Or.inl (hspent hfinished)
    · rename_i hunfinished
      obtain ⟨hsubset, hgone⟩ := hleft (by simpa using hunfinished)
      have hfacing' : Facing calls.2.2 id calls.2.1 :=
        Facing.keeps (fun m hm => hfacing m (hsubset hm)) hkeeps
      have hbook := matchBook_result _ _ _ hfacing' hrest
      cases hflag : rest.1 with
      | true => exact Or.inl (hbook.spent hflag)
      | false =>
        refine Or.inr fun maker hmaker => ?_
        rcases hgone maker hmaker with hm | hm
        · have hnone := hbook.gone hflag maker hm
          rw [hbook.all hflag fun _ => rfl] at hnone
          exact hnone.resolve_left (List.not_mem_nil)
        · exact hbook.keeps.none hm
  intro u hu
  split at h
  · rename_i hnone
    obtain rfl := pure_eq_ok.mp h
    rw [hnone] at hu
    cases hu
  · rcases maybeCullSmallOrder_cases h with ⟨-, hnone⟩ | ⟨-, hsame, w, hw, receives, hreceives, hne⟩
    · rw [hnone] at hu
      cases hu
    · rw [hsame]
      rcases hmatched with hspent' | hall
      · exact absurd (hspent' w hw receives hreceives) hne
      · exact hall

/-! ### The front of the book -/

theorem isBehind_spec {o : LimitOrder}
    (hpos : ∀ id o, L.limitOrders.find id = some o → 0 < o.sellPrice.quote.amount)
    (ho : L.limitOrders.find id = some o) (h : L.isBehind id o = true) :
    ∃ j p, j ≠ id ∧ L.limitOrders.find j = some p ∧ p.sellAssetId = o.sellAssetId ∧
      p.receiveAssetId = o.receiveAssetId ∧ o.sellPrice.key ≤ p.sellPrice.key := by
  unfold isBehind at h
  split at h
  · cases h
  · rename_i r hr
    obtain ⟨hsell, hreceive⟩ := of_decide_eq_true h
    have hmem : r ∈ L.limitOrdersByPrice.takeWhile fun r => decide (r.1 ≠ id) :=
      List.mem_of_getLast? hr
    have hid : (id, o) ∈ L.limitOrdersByPrice.dropWhile fun r => decide (r.1 ≠ id) := by
      have hall : (id, o) ∈ L.limitOrdersByPrice := mem_sortRows.mpr ho
      rw [← List.takeWhile_append_dropWhile (p := fun r => decide (r.1 ≠ id))
        (l := L.limitOrdersByPrice)] at hall
      refine (List.mem_append.mp hall).resolve_left fun htake => ?_
      have hne := List.all_eq_true.mp List.all_takeWhile _ htake
      simp at hne
    have hsorted := limitOrdersByPrice_sorted hpos
    rw [← List.takeWhile_append_dropWhile (p := fun r => decide (r.1 ≠ id))
      (l := L.limitOrdersByPrice), List.pairwise_append] at hsorted
    have hne := List.all_eq_true.mp List.all_takeWhile _ hmem
    refine ⟨r.1, r.2, of_decide_eq_true hne, ?_, hsell, hreceive, hsorted.2.2 r hmem _ hid⟩
    exact mem_sortRows.mp ((List.takeWhile_sublist _).subset hmem)

theorem mem_limitOrdersVisited {low top : Price} {j : Nat} (hlow : 0 < low.quote.amount)
    (hlisted : ∀ id o, L.limitOrders.find id = some o → o.sellPrice.Listed)
    (htop : Price.greatest low.base.assetId low.quote.assetId = .ok top) :
    j ∈ L.limitOrdersVisited top low ↔ ∃ b, L.limitOrders.find j = some b ∧ b.sellPrice ≤ top ∧
      low ≤ b.sellPrice := by
  have hids := htop
  simp only [Price.greatest, Price.ofAssets_eq_ok] at hids
  have hnone : (L.limitOrdersByPrice.any fun r =>
      decide (top < r.2.sellPrice ∧ r.2.sellPrice < low)) = false := by
    rw [List.any_eq_false]
    intro r hr hbetween
    obtain ⟨habove, hbelow⟩ := of_decide_eq_true hbetween
    have hr' := hlisted _ _ (mem_sortRows.mp hr)
    have hpos := hr'.valid.2.1
    have htopPos : 0 < top.quote.amount := by rw [hids.2]; exact Int.one_pos
    have habove' : top ≤ r.2.sellPrice := by
      rw [Price.le_iff_key htopPos hpos]
      exact le_of_lt ((Price.lt_iff_key htopPos hpos).mp habove)
    have hbelow' : r.2.sellPrice ≤ low := by
      rw [Price.le_iff_key hpos hlow]
      exact le_of_lt ((Price.lt_iff_key hpos hlow).mp hbelow)
    obtain ⟨hbase, hquote⟩ := Price.assets_of_le (by rw [hids.2]) (by rw [hids.2]) habove' hbelow'
    refine hr'.le_greatest ?_ habove
    rw [hbase, hquote, hids.2]
    rw [hids.2] at htop
    exact htop
  rw [limitOrdersVisited, hnone]
  simp only [Bool.false_eq_true, if_false, List.mem_map, limitOrdersBetween, List.mem_filter,
    limitOrdersByPrice, mem_sortRows, decide_eq_true_eq, Prod.exists, exists_and_right,
    exists_eq_right]

end Ledger

/-! ### Runs -/

/-- What holds of the book between the steps. -/
structure BookSound (L : Ledger) : Prop where
  fed : Fed L
  listed : ∀ id o, L.limitOrders.find id = some o → o.sellPrice.Listed
  uncrossed : Uncrossed L

/-- The price of a new limit order is not above `price::max`. -/
def Operation.Listed : Operation → Prop
  | .limitOrderCreate op => op.amountToSell.amount ≤ maxShareSupply * op.minToReceive.amount
  | _ => True

variable {L L' M : Ledger}

theorem applyOrder_uncrossed {rounds : Nat} {o : LimitOrder} {r : Bool × Ledger}
    (hfed : Fed M) (hlisted : ∀ id o, M.limitOrders.find id = some o → o.sellPrice.Listed)
    (hM : Uncrossed M) (ho : o.sellPrice.Listed)
    (h : applyOrder rounds { M with limitOrders := M.limitOrders.create o } M.limitOrders.next =
      .ok r) {j : Nat} {b u : LimitOrder} (hu : r.2.limitOrders.find M.limitOrders.next = some u)
    (hb : M.limitOrders.find j = some b) (hleft : r.2.limitOrders.find j ≠ none)
    (hsell : o.sellAssetId = b.receiveAssetId) (hreceive : o.receiveAssetId = b.sellAssetId) :
    o.sellPrice < b.sellPrice.inverse := by
  set L1 : Ledger := { M with limitOrders := M.limitOrders.create o } with hL1
  have hself : L1.limitOrders.find M.limitOrders.next = some o := Table.find_create_self _ _
  have hb1 : L1.limitOrders.find j = some b := Table.find_create_iff.mpr (Or.inl hb)
  have hlisted1 : ∀ id o, L1.limitOrders.find id = some o → o.sellPrice.Listed := by
    intro id o' ho'
    rcases Table.find_create_iff.mp ho' with ho' | ⟨-, rfl⟩
    · exact hlisted id o' ho'
    · exact ho
  have hbpos := (hlisted j b hb).valid
  by_contra hcross
  cases hfront : L1.isBehind M.limitOrders.next o with
  | true =>
    obtain ⟨k, p, hk, hp, hpsell, hpreceive, hkey⟩ :=
      isBehind_spec (fun id o ho => (hlisted1 id o ho).valid.2.1) hself hfront
    have hp' : M.limitOrders.find k = some p := by rwa [hL1, Table.find_create_ne hk] at hp
    have hlt := hM k j p b hp' hb (hpsell.trans hsell) (hpreceive.trans hreceive)
    refine hcross ?_
    rw [Price.lt_iff_key ho.valid.2.1 hbpos.1]
    exact hkey.trans_lt ((Price.lt_iff_key (hlisted k p hp').valid.2.1 hbpos.1).mp hlt)
  | false =>
    obtain ⟨top, htop⟩ : ∃ top, Price.greatest o.receiveAssetId o.sellAssetId = .ok top :=
      ⟨_, Price.ofAssets_eq_ok.mpr ⟨Ne.symm ho.valid.2.2, rfl⟩⟩
    have hlow : 0 < o.sellPrice.inverse.quote.amount := ho.valid.1
    have hmem : ∀ m, m ∈ L1.limitOrdersVisited top o.sellPrice.inverse ↔ _ := fun m =>
      mem_limitOrdersVisited hlow hlisted1 htop
    have hids := htop
    simp only [Price.greatest, Price.ofAssets_eq_ok] at hids
    have hfacing : Facing L1 M.limitOrders.next
        (L1.limitOrdersVisited top o.sellPrice.inverse) := by
      intro m hm c hc w hw
      obtain rfl : o = w := Option.some.inj (hself.symm.trans hw)
      obtain ⟨c', hc', hle, hge⟩ := (hmem m).mp hm
      obtain rfl : c = c' := Option.some.inj (hc.symm.trans hc')
      obtain ⟨hbase, hquote⟩ := Price.assets_of_le (by rw [hids.2]; rfl)
        (by rw [hids.2]; rfl) hge hle
      exact ⟨ho.valid, hbase, hquote, hge⟩
    have hfed1 : Fed L1 := hfed
    refine hleft (applyOrder_result hfed1 hself ho.valid hfront htop hfacing h u hu j
      ((hmem j).mpr ⟨b, hb1, ?_, ?_⟩))
    · refine (hlisted j b hb).le_greatest ?_
      rw [← htop]
      exact congrArg₂ Price.greatest hreceive.symm hsell.symm
    · exact fun hlt => hcross ((Price.lt_inverse_comm hsell hreceive).mpr hlt)

theorem LimitOrderCreate.apply_book {op : LimitOrderCreate} {rounds : Nat} {skip : Bool}
    (hL : BookSound L) (hop : Operation.Listed (.limitOrderCreate op))
    (h : op.apply rounds skip L = .ok L') : BookSound L' := by
  have hchanges := op.apply_changes h
  obtain ⟨M, o, r, hplaces, happly, hfee⟩ := op.apply_spec h
  have hkeepsM : KeepsOrders L M := .of_eq hplaces.funds.limitOrders
  have hlistedM := hkeepsM.prices hL.listed
  have hfedM : Fed M := hL.fed.of_terms hplaces.funds.assets
  have ho : o.sellPrice.Listed := by
    obtain ⟨hne, -, hsell, hreceive⟩ := hplaces.valid
    rw [hplaces.sellPrice]
    exact ⟨⟨hsell, hreceive, hne⟩, hop⟩
  have hself : ({ M with limitOrders := M.limitOrders.create o } : Ledger).limitOrders.find
      M.limitOrders.next = some o := Table.find_create_self _ _
  have hmatched : Changes (· = M.limitOrders.next) _ r.2 := applyOrder_changes rfl happly
  have hkeeps := KeepsOrders.of_loose hself hmatched
  have hlast : KeepsOrders r.2 L' := .of_eq hfee.limitOrders
  refine ⟨hchanges.invariant (P := Fed) (fun _ _ hN hc => hN.change hc) hL.fed, ?_,
    hlast.uncrossed fun i j a' b' ha' hb' hsell hreceive => ?_⟩
  · refine (hkeeps.trans hlast).prices (P := Price.Listed) fun id o' ho' => ?_
    rcases Table.find_create_iff.mp ho' with ho' | ⟨-, rfl⟩
    · exact hlistedM id o' ho'
    · exact ho
  · obtain ⟨a, ha, hpa⟩ := hkeeps i a' ha'
    obtain ⟨b, hb, hpb⟩ := hkeeps j b' hb'
    simp only [LimitOrder.sellAssetId, LimitOrder.receiveAssetId, ← hpa, ← hpb] at hsell hreceive ⊢
    have huncrossed := hkeepsM.uncrossed hL.uncrossed
    rcases Table.find_create_iff.mp ha with haM | ⟨rfl, rfl⟩ <;>
      rcases Table.find_create_iff.mp hb with hbM | ⟨rfl, rfl⟩
    · exact huncrossed i j a b haM hbM hsell hreceive
    · -- the new order is on the other side
      rw [Price.lt_inverse_comm hsell hreceive]
      exact applyOrder_uncrossed hfedM hlistedM huncrossed ho happly hb' haM (by simp [ha'])
        hreceive.symm hsell.symm
    · exact applyOrder_uncrossed hfedM hlistedM huncrossed ho happly ha' hbM (by simp [hb'])
        hsell hreceive
    · exact absurd hsell ho.valid.2.2

/-- In every ledger that a run reaches, whose new orders are all listed, the book is not crossed. -/
theorem order_book_uncrossed {L₀ : Ledger} (h₀ : Genesis L₀) (h : RunOf Operation.Listed L₀ L) :
    Uncrossed L := by
  have hstart : BookSound L₀ := by
    refine ⟨h₀.fed, fun id o ho => ?_, fun i j a b ha => ?_⟩
    · exact absurd ((h₀.opening.limitOrders id).symm.trans ho) (Option.some_ne_none _).symm
    · exact absurd ((h₀.opening.limitOrders i).symm.trans ha) (Option.some_ne_none _).symm
  refine (h.invariant (P := BookSound) h₀.balanced (fun M M' rounds skip op _ hM hop happly =>
    op.apply_book hM hop happly) (fun M M' hM hchange => ?_) (fun M M' hM hadjust => ?_)
    hstart).uncrossed
  · have hkeeps := KeepsOrders.of_noOrder hchange
    exact ⟨hM.fed.change hchange, hkeeps.prices hM.listed, hkeeps.uncrossed hM.uncrossed⟩
  · have hkeeps : KeepsOrders M M' := by
      cases hadjust <;> exact KeepsOrders.of_eq rfl
    exact ⟨hM.fed.adjustment hadjust, hkeeps.prices hM.listed, hkeeps.uncrossed hM.uncrossed⟩

instance (op : Operation) : Decidable op.Listed :=
  match op with
  | .limitOrderCreate _ => inferInstanceAs (Decidable (_ ≤ _))
  | .limitOrderCancel _ | .callOrderUpdate _ | .bidCollateral _ | .assetSettle _
  | .assetGlobalSettle _ | .assetPublishFeed _ => inferInstanceAs (Decidable True)

/-- A thousand cents for one of the core asset. -/
def centFeed : PriceFeed :=
  ⟨⟨⟨1000, 1⟩, ⟨1, coreAsset⟩⟩, 1750, 1100, PriceFeed.default.maintenance_range,
    squeeze_range_1100⟩

/-- An account that holds as much of the core asset as there can be, and cents. -/
def centLedger : Ledger := freshLedger 1600000000 [1000000000000000, 0] [.fedWith centFeed]

theorem centLedger_genesis : Genesis centLedger :=
  freshLedger_genesis (by decide) (by decide) (by decide)

/-- Cents are borrowed and sold, and then bought. -/
def tradeCents (borrowed : Int) (sold bought : LimitOrderCreate) : List Operation :=
  [.callOrderUpdate ⟨⟨0, 0⟩, 0, ⟨4000000000000, 0⟩, ⟨borrowed, 1⟩, none⟩,
    .limitOrderCreate sold, .limitOrderCreate bought]

/-- What is left of an order and an order of the other side that it did not take. -/
theorem order_book_uncrossed_cents : ∃ L, centLedger.perform 5 (tradeCents 3000
    ⟨⟨0, 0⟩, 0, ⟨3000, 1⟩, ⟨4, 0⟩, 1700000000, false⟩
    ⟨⟨0, 0⟩, 0, ⟨2, 0⟩, ⟨1600, 1⟩, 1700000000, false⟩) = .ok L ∧
    L.limitOrders.rows.length = 2 ∧ Uncrossed L := by
  have hrun : (centLedger.perform 5 (tradeCents 3000
      ⟨⟨0, 0⟩, 0, ⟨3000, 1⟩, ⟨4, 0⟩, 1700000000, false⟩
      ⟨⟨0, 0⟩, 0, ⟨2, 0⟩, ⟨1600, 1⟩, 1700000000, false⟩)).toOption.any
        (fun L => L.limitOrders.rows.length = 2) = true := by decide +kernel
  obtain ⟨L, hL, hlength⟩ := exists_ok_of_any hrun
  exact ⟨L, hL, of_decide_eq_true hlength, order_book_uncrossed centLedger_genesis
    (perform_runOf (by decide) hL)⟩

/-- An order above `price::max` is not found by an order of the other side that crosses with it. -/
theorem order_book_crossed : ∃ L₀ L, Genesis L₀ ∧ Run L₀ L ∧ ¬Uncrossed L := by
  have hrun : (centLedger.perform 5 (tradeCents 2000000000000000
      ⟨⟨0, 0⟩, 0, ⟨2000000000000000, 1⟩, ⟨1, 0⟩, 1700000000, false⟩
      ⟨⟨0, 0⟩, 0, ⟨1, 0⟩, ⟨1000000000000000, 1⟩, 1700000000, false⟩)).toOption.any
        (fun L => (L.limitOrders.find 0).any fun a => (L.limitOrders.find 1).any fun b =>
          decide (a.sellAssetId = b.receiveAssetId ∧ a.receiveAssetId = b.sellAssetId ∧
            ¬a.sellPrice < b.sellPrice.inverse)) = true := by decide +kernel
  obtain ⟨L, hL, hcrossed⟩ := exists_ok_of_any hrun
  refine ⟨centLedger, L, centLedger_genesis, perform_run hL, fun huncrossed => ?_⟩
  obtain ⟨a, ha, hcrossed⟩ := (Option.any_eq_true _ _).mp hcrossed
  obtain ⟨b, hb, hcrossed⟩ := (Option.any_eq_true _ _).mp hcrossed
  obtain ⟨hsell, hreceive, hnot⟩ := of_decide_eq_true hcrossed
  exact hnot (huncrossed 0 1 a b ha hb hsell hreceive)

end Nestchain.Market
