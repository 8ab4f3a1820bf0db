import Nestchain.Market.Shape

/-! Matching adds nothing to the books: what one order pays the other receives. -/

namespace Nestchain.Market

open Lib

theorem Turn.andThen {L M N : Ledger} (h : Turn L M 0) (h' : Turn M N 0) : Turn L N 0 :=
  (h.trans h').congr (add_zero _)

namespace Ledger

variable {L L' : Ledger}

/-! ### Two limit orders -/

theorem fillLimitOrders_turn {usd core : Nat} {usdReceives coreReceives : Asset} {cull : Bool}
    {r : Filled × Ledger} (hs : Shape L) (hne : core ≠ usd) (husd : 0 ≤ usdReceives.amount)
    (hcore : 0 ≤ coreReceives.amount)
    (htaker : ∀ o, L.limitOrders.find usd = some o → coreReceives.amount ≤ o.forSale)
    (hmaker : ∀ o, L.limitOrders.find core = some o → usdReceives.amount ≤ o.forSale)
    (h : L.fillLimitOrders usd core usdReceives coreReceives cull = .ok r) : Turn L r.2 0 := by
  simp only [fillLimitOrders, bind_eq_ok, require_eq_ok, exists_const, pure_eq_ok] at h
  obtain ⟨taker, ht, maker, hm, -, rfl⟩ := h
  obtain ⟨hturn, honly, -⟩ := fillLimitOrder_turn hs husd htaker ht
  have hmaker' : ∀ o, taker.2.limitOrders.find core = some o → usdReceives.amount ≤ o.forSale :=
    fun o ho => hmaker o (honly.others core hne ▸ ho)
  obtain ⟨hturn', -⟩ := fillLimitOrder_turn hturn.shape hcore hmaker' hm
  exact (hturn.trans hturn').congr (by abel)

theorem fillLimitOrders_assets {usd core : Nat} {usdReceives coreReceives : Asset} {cull : Bool}
    {r : Filled × Ledger} (h : L.fillLimitOrders usd core usdReceives coreReceives cull = .ok r) :
    coreReceives.assetId ≠ usdReceives.assetId ∧
      ∀ o, L.limitOrders.find usd = some o → o.sellAssetId = coreReceives.assetId := by
  simp only [fillLimitOrders, fillLimitOrder, bind_eq_ok, demand_eq_ok, require_eq_ok,
    exists_const] at h
  obtain ⟨taker, ⟨o, ho, hid, hne, -⟩, -⟩ := h
  exact ⟨hne, fun o' ho' => Option.some.inj (ho'.symm.trans ho) ▸ hid⟩

theorem matchLimitOrders_turn {usd core : Nat} {p : Price} {r : Filled × Ledger} (hs : Shape L)
    (h : L.matchLimitOrders usd core p = .ok r) : Turn L r.2 0 := by
  simp only [matchLimitOrders, bind_eq_ok, demand_eq_ok, require_eq_ok, exists_const,
    Asset.less_eq_ok] at h
  obtain ⟨u, hu, c, hc, -, -, -, coreWorth, hworth, less, ⟨hid, rfl⟩, h⟩ := h
  -- the price converts the assets of the two orders into each other
  have hdistinct : p.base.assetId ≠ p.quote.assetId → u.sellAssetId = coreWorth.assetId →
      core ≠ usd := by
    rintro hp hsell rfl
    obtain rfl : u = c := Option.some.inj (hu.symm.trans hc)
    exact Asset.mul_assetId_ne hworth hp hsell.symm
  split at h
  · rename_i hlt
    simp only [bind_eq_ok] at h
    obtain ⟨usdReceives, hround, h⟩ := h
    obtain ⟨hne, hsell⟩ := fillLimitOrders_assets h
    have hp := Asset.multiplyAndRoundUp_ne hround hne
    refine fillLimitOrders_turn hs (hdistinct hp (hsell u hu))
      (Asset.multiplyAndRoundUp_nonneg hround) (Asset.mul_nonneg hworth) (fun o ho => ?_)
      (fun o ho => ?_) h
    · obtain rfl : o = u := Option.some.inj (ho.symm.trans hu)
      exact le_of_lt (of_decide_eq_true hlt)
    · obtain rfl : o = c := Option.some.inj (ho.symm.trans hc)
      exact (Asset.roundUp_mul_le hworth hp hround).2
  · rename_i hle
    simp only [bind_eq_ok] at h
    obtain ⟨usdReceives, hmul, h⟩ := h
    split at h
    · obtain rfl := pure_eq_ok.mp h
      exact Turn.refl hs
    · simp only [bind_eq_ok] at h
      obtain ⟨coreReceives, hround, h⟩ := h
      obtain ⟨hne, hsell⟩ := fillLimitOrders_assets h
      have hp := Asset.multiplyAndRoundUp_ne hround hne.symm
      refine fillLimitOrders_turn hs (hdistinct hp hid.symm) (Asset.mul_nonneg hmul)
        (Asset.multiplyAndRoundUp_nonneg hround) (fun o ho => ?_) (fun o ho => ?_) h
      · obtain rfl : o = u := Option.some.inj (ho.symm.trans hu)
        exact (Asset.roundUp_mul_le hmul hp hround).2
      · obtain rfl : o = c := Option.some.inj (ho.symm.trans hc)
        exact (Asset.mul_le_of_le_mul hworth hp hid.symm
          (not_lt.mp fun hlt => hle (decide_eq_true hlt)) hmul).2

/-! ### A limit order and a call order -/

theorem fillLimitAndCall_turn {bid ask : Nat} {orderReceives callReceives : Asset} {cull : Bool}
    {r : Filled × Ledger} (hs : Shape L) (horder : 0 ≤ orderReceives.amount)
    (hbid : ∀ o, L.limitOrders.find bid = some o → callReceives.amount ≤ o.forSale)
    (hask : ∀ c, L.callOrders.find ask = some c → callReceives.amount ≤ c.debt)
    (h : L.fillLimitAndCall bid ask orderReceives callReceives cull = .ok r) : Turn L r.2 0 := by
  simp only [fillLimitAndCall, bind_eq_ok, pure_eq_ok] at h
  obtain ⟨taker, ht, maker, hm, rfl⟩ := h
  obtain ⟨hturn, honly, -⟩ := fillLimitOrder_turn hs horder hbid ht
  obtain ⟨hturn', -⟩ := fillCallOrder_turn hturn.shape
    (fun c hc => hask c (honly.callOrders ▸ hc)) hm
  exact (hturn.trans hturn').congr (by abel)

theorem fillMarginCall_turn {call limit : Nat} {callReceives orderReceives : Asset}
    {r : Bool × Ledger} (hs : Shape L) (horder : 0 ≤ orderReceives.amount)
    (hlimit : ∀ o, L.limitOrders.find limit = some o → callReceives.amount ≤ o.forSale)
    (hcall : ∀ c, L.callOrders.find call = some c → callReceives.amount ≤ c.debt)
    (h : L.fillMarginCall call limit callReceives orderReceives = .ok r) : Turn L r.2 0 := by
  simp only [fillMarginCall, bind_eq_ok] at h
  obtain ⟨closed, hc, h⟩ := h
  obtain ⟨hturn, honly, -⟩ := fillCallOrder_turn hs hcall hc
  obtain ⟨hturn', -⟩ := fillLimitOrder_turn hturn.shape horder
    (fun o ho => hlimit o (honly.limitOrders ▸ ho)) h
  exact (hturn.trans hturn').congr (by abel)

theorem fillLimitAndCall_assets {bid ask : Nat} {orderReceives callReceives : Asset} {cull : Bool}
    {r : Filled × Ledger}
    (h : L.fillLimitAndCall bid ask orderReceives callReceives cull = .ok r) :
    callReceives.assetId ≠ orderReceives.assetId := by
  simp only [fillLimitAndCall, fillLimitOrder, bind_eq_ok, require_eq_ok, exists_const] at h
  obtain ⟨taker, ⟨o, -, -, hne, -⟩, -⟩ := h
  exact hne

theorem fillMarginCall_assets {call limit : Nat} {callReceives orderReceives : Asset}
    {r : Bool × Ledger} (h : L.fillMarginCall call limit callReceives orderReceives = .ok r) :
    callReceives.assetId ≠ orderReceives.assetId := by
  simp only [fillMarginCall, fillLimitOrder, bind_eq_ok, require_eq_ok, exists_const] at h
  obtain ⟨closed, -, o, -, -, hne, -⟩ := h
  exact hne

theorem matchLimitAndCall_turn {rounds bid ask : Nat} {p : Price} {feed : PriceFeed}
    {r : Filled × Ledger} (hs : Shape L) (h : matchLimitAndCall rounds L bid ask p feed = .ok r) :
    Turn L r.2 0 := by
  simp only [matchLimitAndCall, bind_eq_ok, demand_eq_ok, require_eq_ok, exists_const] at h
  obtain ⟨o, ho, c, hc, -, -, -, toBuy, hbuy, h⟩ := h
  have hcover := CallOrder.getMaxDebtToCover_covers
    (le_of_lt (hs.callOrders ask c hc).debt_pos) hbuy
  split at h
  · rename_i hlt
    simp only [bind_eq_ok] at h
    obtain ⟨orderReceives, hmul, h⟩ := h
    split at h
    · obtain rfl := pure_eq_ok.mp h
      exact Turn.refl hs
    · simp only [bind_eq_ok] at h
      obtain ⟨callReceives, hround, h⟩ := h
      have hp := Asset.multiplyAndRoundUp_ne hround (fillLimitAndCall_assets h).symm
      have hle : callReceives.amount ≤ o.forSale := (Asset.roundUp_mul_le hmul hp hround).2
      refine fillLimitAndCall_turn hs (Asset.mul_nonneg hmul) (fun o' ho' => ?_)
        (fun c' hc' => ?_) h
      · exact Option.some.inj (ho'.symm.trans ho) ▸ hle
      · obtain rfl : c' = c := Option.some.inj (hc'.symm.trans hc)
        exact (hle.trans (le_of_lt hlt)).trans hcover.2
  · rename_i hge
    simp only [bind_eq_ok] at h
    obtain ⟨orderReceives, hround, h⟩ := h
    refine fillLimitAndCall_turn hs (Asset.multiplyAndRoundUp_nonneg hround) (fun o' ho' => ?_)
      (fun c' hc' => ?_) h
    · exact Option.some.inj (ho'.symm.trans ho) ▸ not_lt.mp hge
    · exact Option.some.inj (hc'.symm.trans hc) ▸ hcover.2

theorem marginCall_turn {rounds call limit : Nat} {feed : PriceFeed} {r : Bool × Ledger}
    (hs : Shape L) (h : marginCall rounds L call limit feed = .ok r) : Turn L r.2 0 := by
  simp only [marginCall, bind_eq_ok, demand_eq_ok, Asset.less_eq_ok] at h
  obtain ⟨c, hc, o, ho, toBuy, hbuy, less, ⟨-, rfl⟩, h⟩ := h
  have hcover := CallOrder.getMaxDebtToCover_covers
    (le_of_lt (hs.callOrders call c hc).debt_pos) hbuy
  split at h
  · rename_i hlt
    simp only [bind_eq_ok] at h
    obtain ⟨orderReceives, hmul, callReceives, hround, h⟩ := h
    have hp := Asset.multiplyAndRoundUp_ne hround (fillMarginCall_assets h).symm
    have hle : callReceives.amount ≤ o.forSale := (Asset.roundUp_mul_le hmul hp hround).2
    refine fillMarginCall_turn hs (Asset.mul_nonneg hmul) (fun o' ho' => ?_) (fun c' hc' => ?_) h
    · exact Option.some.inj (ho'.symm.trans ho) ▸ hle
    · obtain rfl : c' = c := Option.some.inj (hc'.symm.trans hc)
      exact (hle.trans (le_of_lt (of_decide_eq_true hlt))).trans hcover.2
  · rename_i hge
    simp only [bind_eq_ok] at h
    obtain ⟨orderReceives, hround, h⟩ := h
    refine fillMarginCall_turn hs (Asset.multiplyAndRoundUp_nonneg hround) (fun o' ho' => ?_)
      (fun c' hc' => ?_) h
    · obtain rfl : o' = o := Option.some.inj (ho'.symm.trans ho)
      exact not_lt.mp fun hlt => hge (decide_eq_true hlt)
    · exact Option.some.inj (hc'.symm.trans hc) ▸ hcover.2

/-! ### A call order and a force settlement -/

theorem fillCallAndSettle_turn {call settle : Nat} {callPays callReceives : Asset} {cull : Bool}
    {r : Asset × Ledger} (hs : Shape L) (hpays : 0 ≤ callPays.amount)
    (hcall : ∀ c, L.callOrders.find call = some c → callReceives.amount ≤ c.debt)
    (hsettle : ∀ s, L.settlements.find settle = some s → callReceives.amount ≤ s.balance.amount)
    (h : L.fillCallAndSettle call settle callPays callReceives cull = .ok r) : Turn L r.2 0 := by
  simp only [fillCallAndSettle, bind_eq_ok, pure_eq_ok] at h
  obtain ⟨maker, hm, taker, ht, M, hM, rfl⟩ := h
  obtain ⟨hturn, honly, -⟩ := fillCallOrder_turn hs hcall hm
  have hturn' := fillSettleOrder_turn hturn.shape hpays
    (fun s hf => hsettle s (honly.settlements ▸ hf)) ht
  have hfills : Turn L taker.2 0 := (hturn.trans hturn').congr (by abel)
  split at hM
  · exact hfills.andThen (cancelSettleOrder_turn hfills.shape hM)
  · obtain rfl := pure_eq_ok.mp hM
    exact hfills

theorem matchCallAndSettle_turn {call settle : Nat} {p : Price} {maxSettlement : Asset}
    {r : Asset × Ledger} (hs : Shape L)
    (h : L.matchCallAndSettle call settle p maxSettlement = .ok r) : Turn L r.2 0 := by
  simp only [matchCallAndSettle, bind_eq_ok, demand_eq_ok, require_eq_ok, exists_const] at h
  obtain ⟨c, hc, s, hf, -, -, forSale, hsale, callReceives, hrec, callPays, hmul, h⟩ := h
  obtain ⟨-, -, hsaleLe, -, -⟩ := Asset.least_spec hsale
  obtain ⟨-, -, hle, hdebt, -⟩ := Asset.least_spec hrec
  have hcall : ∀ c', L.callOrders.find call = some c' → callReceives.amount ≤ c'.debt :=
    fun c' hc' => Option.some.inj (hc'.symm.trans hc) ▸ hdebt
  have hsettle : ∀ s', L.settlements.find settle = some s' →
      callReceives.amount ≤ s'.balance.amount :=
    fun s' hf' => Option.some.inj (hf'.symm.trans hf) ▸ hle.trans hsaleLe
  split at h
  · split at h
    · exact fillCallAndSettle_turn hs (show (0 : Int) ≤ 1 by decide) hcall hsettle h
    · split at h
      · simp only [bind_eq_ok, pure_eq_ok] at h
        obtain ⟨M, hM, rfl⟩ := h
        exact cancelSettleOrder_turn hs hM
      · obtain rfl := pure_eq_ok.mp h
        exact Turn.refl hs
  · split at h
    · simp only [bind_eq_ok] at h
      obtain ⟨callPays', hround, h⟩ := h
      exact fillCallAndSettle_turn hs (Asset.multiplyAndRoundUp_nonneg hround) hcall hsettle h
    · simp only [bind_eq_ok] at h
      obtain ⟨rounded, hround, h⟩ := h
      -- the amount that was rounded down and back up again is not above the one it came from
      have hback : rounded.assetId ≠ callPays.assetId → rounded.amount ≤ callReceives.amount :=
        fun hne => (Asset.roundUp_mul_le hmul (Asset.multiplyAndRoundUp_ne hround hne.symm) hround).2
      have hne : rounded.assetId ≠ callPays.assetId := by
        simp only [fillCallAndSettle, fillCallOrder, bind_eq_ok, demand_eq_ok, require_eq_ok,
          exists_const] at h
        obtain ⟨maker, ⟨c', hc', hdt, hct, -⟩, -⟩ := h
        obtain ⟨b, hb, hbacking, -⟩ := (hs.callOrders call c' hc').backed
        rw [← hdt, ← hct, ← hbacking]
        exact (hs.bitassets _ b hb).backing_ne.symm
      exact fillCallAndSettle_turn hs (Asset.mul_nonneg hmul)
        (fun c' hc' => (hback hne).trans (hcall c' hc'))
        (fun s' hf' => (hback hne).trans (hsettle s' hf')) h

/-! ### A new limit order -/

section Invariant

variable {P : Ledger → Prop} {id : Nat}

theorem matchBook_invariant {good : Price → Bool}
    (hmatch : ∀ M maker price r, P M → M.matchLimitOrders id maker price = .ok r → P r.2) :
    ∀ {book : List Nat} {L : Ledger} {r : Bool × List Nat × Ledger}, P L →
      matchBook id good book L = .ok r → P r.2.2
  | [], L, r, hL, h => pure_eq_ok.mp h ▸ hL
  | maker :: book, L, r, hL, h => by
    simp only [matchBook, bind_eq_ok, demand_eq_ok] at h
    obtain ⟨o, -, h⟩ := h
    split at h
    · simp only [bind_eq_ok] at h
      obtain ⟨m, hm, h⟩ := h
      have hmatched := hmatch _ _ _ _ hL hm
      split at h
      · exact matchBook_invariant hmatch hmatched h
      · exact pure_eq_ok.mp h ▸ hmatched
    · exact pure_eq_ok.mp h ▸ hL

variable {rounds : Nat}

theorem matchCallsRound_invariant {callMin p : Price} {feed : PriceFeed} {r : Ledger ⊕ Bool × Ledger}
    (hcall : ∀ M ask price feed r, P M → matchLimitAndCall rounds M id ask price feed = .ok r →
      P r.2)
    (hL : P L) (h : matchCallsRound rounds id callMin p feed L = .ok r) :
    P (r.elim (fun M => M) Prod.snd) := by
  simp only [matchCallsRound, bind_eq_ok, demand_eq_ok] at h
  obtain ⟨o, -, h⟩ := h
  split at h
  · exact pure_eq_ok.mp h ▸ hL
  · split at h
    · exact pure_eq_ok.mp h ▸ hL
    · simp only [bind_eq_ok] at h
      obtain ⟨m, hm, h⟩ := h
      have hmatched := hcall _ _ _ _ _ hL hm
      split at h <;> exact pure_eq_ok.mp h ▸ hmatched

theorem matchBeforeBook_invariant {o : LimitOrder} {book : List Nat} {r : Bool × List Nat × Ledger}
    (hmatch : ∀ M maker price r, P M → M.matchLimitOrders id maker price = .ok r → P r.2)
    (hcall : ∀ M ask price feed r, P M → matchLimitAndCall rounds M id ask price feed = .ok r →
      P r.2)
    (hL : P L) (h : matchBeforeBook rounds L id o book = .ok r) : P r.2.2 := by
  simp only [matchBeforeBook, bind_eq_ok] at h
  obtain ⟨price, -, h⟩ := h
  split at h
  · exact pure_eq_ok.mp h ▸ hL
  · simp only [bind_eq_ok] at h
    obtain ⟨better, hbetter, h⟩ := h
    have hbook := matchBook_invariant hmatch hL hbetter
    split at h
    · exact pure_eq_ok.mp h ▸ hbook
    · simp only [bind_eq_ok, pure_eq_ok] at h
      obtain ⟨callMin, -, called, hcalled, rfl⟩ := h
      exact loop_invariant (P := P) (Q := fun x => P x.2)
        (fun M N hM hround => matchCallsRound_invariant hcall hM hround)
        (fun M x hM hround => matchCallsRound_invariant hcall hM hround) rounds _ called hbook
        hcalled

theorem applyOrder_invariant {r : Bool × Ledger}
    (hmatch : ∀ M maker price r, P M → M.matchLimitOrders id maker price = .ok r → P r.2)
    (hcall : ∀ M ask price feed r, P M → matchLimitAndCall rounds M id ask price feed = .ok r →
      P r.2)
    (hcull : ∀ M r, P M → M.maybeCullSmallOrder id = .ok r → P r.2)
    (hL : P L) (h : applyOrder rounds L id = .ok r) : P r.2 := by
  simp only [applyOrder, bind_eq_ok, demand_eq_ok] at h
  obtain ⟨o, -, h⟩ := h
  split at h
  · exact pure_eq_ok.mp h ▸ hL
  · simp only [bind_eq_ok] at h
    obtain ⟨top, -, calls, hcalls, rest, hrest, h⟩ := h
    have hcalled := matchBeforeBook_invariant hmatch hcall hL hcalls
    have hbook : P rest.2.2 := by
      split at hrest
      · exact pure_eq_ok.mp hrest ▸ hcalled
      · exact matchBook_invariant hmatch hcalled hrest
    split at h
    · exact pure_eq_ok.mp h ▸ hbook
    · exact hcull _ _ hbook h

end Invariant

theorem matchBook_turn {id : Nat} {good : Price → Bool} {book : List Nat}
    {r : Bool × List Nat × Ledger} (hs : Shape L) (h : matchBook id good book L = .ok r) :
    Turn L r.2.2 0 :=
  matchBook_invariant (P := fun M => Turn L M 0)
    (fun _ _ _ _ hM hm => hM.andThen (matchLimitOrders_turn hM.shape hm)) (Turn.refl hs) h

theorem matchCallsRound_turn {rounds id : Nat} {callMin p : Price} {feed : PriceFeed}
    {r : Ledger ⊕ Bool × Ledger} (hs : Shape L)
    (h : matchCallsRound rounds id callMin p feed L = .ok r) :
    (∀ M, r = .inl M → Turn L M 0) ∧ ∀ x, r = .inr x → Turn L x.2 0 := by
  have hturn := matchCallsRound_invariant (P := fun M => Turn L M 0)
    (fun _ _ _ _ _ hM hm => hM.andThen (matchLimitAndCall_turn hM.shape hm)) (Turn.refl hs) h
  constructor
  · rintro M rfl
    exact hturn
  · rintro x rfl
    exact hturn

theorem applyOrder_turn {rounds id : Nat} {r : Bool × Ledger} (hs : Shape L)
    (h : applyOrder rounds L id = .ok r) : Turn L r.2 0 :=
  applyOrder_invariant (P := fun M => Turn L M 0)
    (fun _ _ _ _ hM hm => hM.andThen (matchLimitOrders_turn hM.shape hm))
    (fun _ _ _ _ _ hM hm => hM.andThen (matchLimitAndCall_turn hM.shape hm))
    (fun _ _ hM hc => hM.andThen (maybeCullSmallOrder_turn hM.shape hc).1) (Turn.refl hs) h

end Ledger

end Nestchain.Market
