import Nestchain.Market.CallFills

/-! The loops of the matching come to an end.  Every round of margin calls takes debt off a
position, or leaves it with a fresh call price in the place of a stale one; what is left to do is
the sum of the debts and the number of stale call prices.  A position with a fresh call price that
is called covers some of its debt, unless its call price is rounded: then the loops can stand
still. -/

namespace Nestchain.Market

open Lib Ledger

/-- `GRAPHENE_MAX_COLLATERAL_RATIO` -/
def maxCollateralRatio : Nat := 32000

namespace CallOrder

variable {c c' : CallOrder} {pays receives : Int} {ratio : Nat}

/-- If the position has a target ratio, then neither that nor any maintenance ratio rounds its call
price, whatever is filled of it. -/
def Small (c : CallOrder) : Prop :=
  ∀ target, c.targetCollateralRatio = some target →
    c.debt * (max target maxCollateralRatio : Nat) ≤ maxShareSupply ∧
      c.collateral * collateralRatioDenom ≤ maxShareSupply

instance (c : CallOrder) : Decidable c.Small :=
  match h : c.targetCollateralRatio with
  | none => .isTrue (fun _ ht => nomatch h.symm.trans ht)
  | some target =>
    decidable_of_iff (c.debt * (max target maxCollateralRatio : Nat) ≤ maxShareSupply ∧
      c.collateral * collateralRatioDenom ≤ maxShareSupply)
      ⟨fun hsmall _ ht => Option.some.inj (h.symm.trans ht) ▸ hsmall, fun hsmall => hsmall target h⟩

theorem Small.targetUnrounded (h : c.Small) (hdebt : 0 < c.debt) (hcollateral : 0 < c.collateral)
    (feed : PriceFeed) : c.TargetUnrounded feed := by
  intro target htarget ratio hratio
  obtain ⟨hnum, hden⟩ := h target htarget
  refine unrounded_of_le (le_of_lt hdebt) hcollateral (le_trans ?_ hnum) hden
  refine mul_le_mul_of_nonneg_left (Int.ofNat_le.mpr (hratio.trans ?_)) (le_of_lt hdebt)
  exact max_le_max le_rfl feed.maintenance_range.2

theorem Small.left (h : c.Small) (hleft : c.Left c' pays receives ratio) (hpays : 0 ≤ pays)
    (hreceives : 0 ≤ receives) : c'.Small := by
  intro target htarget
  obtain ⟨hnum, hden⟩ := h target (hleft.target ▸ htarget)
  have hdebt : c'.debt ≤ c.debt := by
    rw [hleft.debt]
    omega
  have hcollateral : c'.collateral ≤ c.collateral := by
    rw [hleft.collateral]
    omega
  exact ⟨(mul_le_mul_of_nonneg_right hdebt (Int.natCast_nonneg _)).trans hnum,
    (mul_le_mul_of_nonneg_right hcollateral (Int.natCast_nonneg _)).trans hden⟩

theorem coverRounds_left (hleft : c.Left c' pays receives ratio) (hpays : 0 ≤ pays)
    (hreceives : 0 ≤ receives) : c'.coverRounds ≤ c.coverRounds := by
  have hdebt := hleft.debt
  have hcollateral := hleft.collateral
  unfold coverRounds
  omega

open Classical in
/-- What is left to do for a position: its debt, and a fresh call price when it has none. -/
noncomputable def work (ratio : Nat) (c : CallOrder) : Int :=
  c.debt + if c.Priced ratio then 0 else 1

theorem debt_le_work : c.debt ≤ c.work ratio := by
  unfold work
  split <;> omega

end CallOrder

/-- What is left to do for all positions. -/
noncomputable def Ledger.work (L : Ledger) (ratio : Nat) : Int :=
  L.callOrders.sum fun _ c => c.work ratio

theorem CallFilled.work_lt {L L' : Ledger} {id : Nat} {c : CallOrder} {pays receives : Int}
    {ratio : Nat} (h : CallFilled L.callOrders id c pays receives ratio L'.callOrders)
    (hc : L.callOrders.find id = some c) (hdebt : 0 < c.debt) (hreceives : 0 ≤ receives)
    (hworks : 0 < receives ∨ ¬c.Priced ratio) : L'.work ratio < L.work ratio := by
  unfold Ledger.work
  generalize L'.callOrders = t at h
  have hle : c.debt ≤ c.work ratio := CallOrder.debt_le_work
  cases h with
  | closed =>
    rw [Table.sum_remove hc]
    omega
  | @left c' _ hleft =>
    rw [Table.sum_set hc]
    have hfresh : c'.work ratio = c.debt - receives := by
      rw [CallOrder.work, if_pos hleft.priced, hleft.debt, add_zero]
    rcases hworks with hpos | hstale
    · omega
    · have hwork : c.work ratio = c.debt + 1 := by rw [CallOrder.work, if_neg hstale]
      omega

theorem Ledger.work_nonneg {L : Ledger} (hs : Shape L) (ratio : Nat) : 0 ≤ L.work ratio :=
  Table.sum_nonneg fun id c hc =>
    (le_of_lt (hs.callOrders id c hc).debt_pos).trans CallOrder.debt_le_work

/-! ### A round of margin calls -/

/-- A ledger in which the positions in `mia` are called with a feed, with enough rounds for the
search of the debt to cover. -/
structure CallsReady (rounds : Nat) (mia backing : AssetId) (feed : PriceFeed) (L : Ledger) :
    Prop where
  shape : Shape L
  bitasset : ∃ b, L.bitasset mia = .ok b ∧ b.currentFeed = feed ∧
    b.options.shortBackingAsset = backing
  between : feed.settlementPrice.Between mia backing
  positions : ∀ id c, L.callOrders.find id = some c → c.debtType = mia →
    (c.callPrice ≤ feed.settlementPrice.inverse → c.Small) ∧ c.coverRounds ≤ rounds

/-- The positions in the asset that the feed does not protect are small. -/
def SmallCalls (L : Ledger) (mia : AssetId) : Prop :=
  ∀ b id c, L.bitasset mia = .ok b → L.callOrders.find id = some c → c.debtType = mia →
    c.callPrice ≤ b.currentFeed.settlementPrice.inverse → c.Small

namespace CallsReady

variable {rounds : Nat} {mia backing : AssetId} {feed : PriceFeed} {L L' : Ledger} {id : Nat}
  {c : CallOrder}

theorem collateralType (h : CallsReady rounds mia backing feed L)
    (hc : L.callOrders.find id = some c) (hmia : c.debtType = mia) :
    c.collateralType = backing := by
  obtain ⟨b, hb, -, hbacking⟩ := h.bitasset
  obtain ⟨b', hb', hback, -⟩ := (h.shape.callOrders id c hc).backed
  obtain rfl : b' = b := Except.ok.inj (hb'.symm.trans (hmia.symm ▸ hb))
  exact hback.symm.trans hbacking

theorem filled (h : CallsReady rounds mia backing feed L) {p : Price} {usd : Int}
    {forSale pays receives : Asset}
    (hmatch : CalledMatch rounds mia feed L L' id c forSale p usd pays receives)
    (hp : p.Between mia backing ∨ p.Between backing mia) :
    CallsReady rounds mia backing feed L' ∧
      L'.work feed.maintenanceCollateralRatio < L.work feed.maintenanceCollateralRatio := by
  obtain ⟨hc, hmia, hcalled, -, husd, hamounts, hfilled, hturn⟩ := hmatch
  have hsound := h.shape.callOrders id c hc
  have hcollateral := h.collateralType hc hmia
  have hbetween := h.between
  rw [← hmia, ← hcollateral] at hbetween hp
  have hpos : 0 < p.base.amount ∧ 0 < p.quote.amount :=
    hp.elim (fun hp => ⟨hp.base_pos, hp.quote_pos⟩) fun hp => ⟨hp.base_pos, hp.quote_pos⟩
  have hsmall := (h.positions id c hc hmia).1 hcalled
  have hpays : 0 ≤ pays.amount := by
    cases hamounts with
    | ofOrder _ hpays => exact Asset.mul_nonneg hpays
    | ofCall _ _ hpays => exact Asset.multiplyAndRoundUp_nonneg hpays
  have hreceives : 0 ≤ receives.amount ∧
      (c.Priced feed.maintenanceCollateralRatio → 0 < receives.amount) := by
    cases hamounts with
    | ofOrder _ hpays hne hreceives =>
      have hpaysPos : 0 < pays.amount := lt_of_le_of_ne (Asset.mul_nonneg hpays) (Ne.symm hne)
      have hreceivesPos := Asset.multiplyAndRoundUp_pos hreceives hpaysPos hpos.1 hpos.2
      exact ⟨le_of_lt hreceivesPos, fun _ => hreceivesPos⟩
    | ofCall _ hreceives _ =>
      rw [hreceives]
      refine ⟨(CallOrder.getMaxDebtToCover_covers (le_of_lt hsound.debt_pos) husd).1, fun hfresh =>
        ?_⟩
      -- the call price is fresh, so the collateral is not above the maintenance ratio
      have hcall : c.Called feed feed.maintenanceCollateralRatio :=
        ⟨feed.maintenance_pos, le_refl _, hfresh, hsound.debt_pos, hsound.collateral_pos, hbetween,
          hcalled⟩
      exact hcall.covers_pos hp
        (hsmall.targetUnrounded hsound.debt_pos hsound.collateral_pos feed) husd
  refine ⟨⟨hturn.shape, ?_, h.between, ?_⟩, hfilled.work_lt hc hsound.debt_pos hreceives.1 ?_⟩
  · obtain ⟨b, hb, hrest⟩ := h.bitasset
    exact ⟨b, (hturn.bitasset mia).trans hb, hrest⟩
  · refine hfilled.forall (P := fun d => d.debtType = mia →
      (d.callPrice ≤ feed.settlementPrice.inverse → d.Small) ∧ d.coverRounds ≤ rounds) hc
      h.positions fun c' _ hleft _ => ?_
    exact ⟨fun _ => hsmall.left hleft hpays hreceives.1,
      (CallOrder.coverRounds_left hleft hpays hreceives.1).trans (h.positions id c hc hmia).2⟩
  · by_cases hfresh : c.Priced feed.maintenanceCollateralRatio
    · exact Or.inl (hreceives.2 hfresh)
    · exact Or.inr hfresh

end CallsReady

namespace Ledger

variable {rounds id : Nat} {mia backing : AssetId} {feed : PriceFeed} {L L' N N' : Ledger}

theorem finishes_matchCallsRound {callMin p : Price} (h : CallsReady rounds mia backing feed N)
    (hsell : ∀ u, N.limitOrders.find id = some u → u.sellAssetId = mia) :
    Finishes (matchCallsRound rounds id callMin p feed N) := by
  simp only [matchCallsRound, finishes_bind, finishes_demand, true_and, demand_eq_ok]
  intro u hu
  split
  · exact finishes_pure _
  · rename_i call rest hcalls
    simp only [finishes_ite, finishes_pure, implies_true, true_and, finishes_bind, not_or, not_not]
    rintro ⟨hdebt, -⟩
    refine ⟨?_, trivial⟩
    have hc : N.callOrders.find call.1 = some call.2 := by
      have hmem : call ∈ N.callOrdersFrom callMin := hcalls ▸ List.mem_cons_self ..
      exact mem_sortRows.mp (List.mem_filter.mp hmem).1
    have hrounds := (h.positions call.1 call.2 hc (hdebt.trans (hsell u hu))).2
    have hsound := h.shape.callOrders call.1 call.2 hc
    simp only [matchLimitAndCall, finishes_bind, finishes_demand, true_and, demand_eq_ok]
    intro o _ c hc'
    obtain rfl : call.2 = c := Option.some.inj (hc.symm.trans hc')
    simp [CallOrder.finishes_getMaxDebtToCover hsound.collateral_pos hsound.debt_pos hrounds]

theorem checkCallRound_progress {enable : Bool} {callMin callMax : Price} {s s' : Calling}
    (h : CallsReady rounds mia backing feed s.ledger)
    (hresting : RestingBut (fun _ => True) noOrder s.ledger)
    (hmin : Price.smallest backing mia = .ok callMin)
    (hmax : Price.greatest backing mia = .ok callMax)
    (hround : checkCallRound rounds mia enable callMin callMax s = .ok (.inl s')) :
    CallsReady rounds mia backing feed s'.ledger ∧ RestingBut (fun _ => True) noOrder s'.ledger ∧
      s'.ledger.work feed.maintenanceCollateralRatio <
        s.ledger.work feed.maintenanceCollateralRatio := by
  have hchanges : Changes noOrder s.ledger s'.ledger := checkCallRound_changes hround
  have hresting' := hresting.changes (fun _ _ _ _ => trivial) hchanges
    fun _ hj => absurd hj not_false
  obtain ⟨b, hb, rfl, hbacking⟩ := h.bitasset
  obtain ⟨call, limit, book, o, r, hreached, hr, rfl⟩ := checkCallRound_reached hb hround
  obtain ⟨hcollateral, hmia⟩ := hreached.types hmin hmax
  have hc := hreached.find
  have hturn := marginCall_turn h.shape hr
  rw [marginCall_eq] at hr
  simp only [bind_eq_ok, demand_eq_ok] at hr
  obtain ⟨c, hc', o', ho', a, ha, hfill⟩ := hr
  obtain rfl : call.2 = c := Option.some.inj (hc.symm.trans hc')
  obtain rfl : o = o' := Option.some.inj (hreached.limit.symm.trans ho')
  obtain ⟨usd, husd, hamounts, hsell⟩ :=
    marginCallAmounts_spec ((hresting limit o hreached.limit).2.resolve_left not_false) ha
  simp only [fillMarginCall, bind_eq_ok] at hfill
  obtain ⟨closed, hclosed, hlimit⟩ := hfill
  have hreceive : o.receiveAssetId = backing := by
    have hclosed' := hclosed
    simp only [fillCallOrder, bind_eq_ok, demand_eq_ok, require_eq_ok, exists_const] at hclosed'
    obtain ⟨c', hc', -, hpaid, -⟩ := hclosed'
    obtain rfl : call.2 = c' := Option.some.inj (hc.symm.trans hc')
    exact (hamounts.pays_assetId rfl hsell.symm).symm.trans (hpaid.symm.trans hcollateral)
  obtain ⟨c', b', hc'', hb', hfilled⟩ := fillCallOrder_callOrders hclosed
  obtain rfl : call.2 = c' := Option.some.inj (hc.symm.trans hc'')
  obtain rfl : b' = b := Except.ok.inj (hb'.symm.trans (by rw [hmia]; exact hb))
  rw [← fillLimitOrder_callOrders hlimit] at hfilled
  have hmatch : CalledMatch rounds mia b'.currentFeed s.ledger r.2 call.1 call.2 o.amountForSale
      o.sellPrice usd a.1 a.2 :=
    ⟨hc, hmia, hreached.callPrice_le hmin hmax h.between, hsell, husd, hamounts, hfilled, hturn⟩
  obtain ⟨hready, hless⟩ := h.filled hmatch
    (Or.inl ⟨hsell.trans hmia, hreceive, hreached.valid.1, hreached.valid.2.1⟩)
  exact ⟨hready, hresting', hless⟩

theorem finishes_checkCallRound {enable : Bool} {callMin callMax : Price} {s : Calling}
    (h : CallsReady rounds mia backing feed s.ledger)
    (hmin : Price.smallest backing mia = .ok callMin)
    (hmax : Price.greatest backing mia = .ok callMax) :
    Finishes (checkCallRound rounds mia enable callMin callMax s) := by
  obtain ⟨b, hb, -⟩ := h.bitasset
  simp only [checkCallRound, finishes_bind, finishes_checkForBlackswan, true_and]
  intro swan hswan
  simp only [finishes_ite, finishes_pure, implies_true, true_and]
  intro hfalse
  obtain ⟨flag, M⟩ := swan
  obtain rfl : flag = false := by simpa using hfalse
  obtain ⟨rfl, -⟩ := checkForBlackswan_false hb hswan
  split
  · exact finishes_pure _
  · exact finishes_pure _
  · rename_i call rest limit book hcalls _
    obtain ⟨hc, hge, hle⟩ := mem_callOrdersBetween.mp (hcalls ▸ List.mem_cons_self ..)
    obtain ⟨-, hmia⟩ := Price.assets_of_between hmin hmax hge hle
    have hrounds := (h.positions call.1 call.2 hc hmia).2
    have hsound := h.shape.callOrders call.1 call.2 hc
    have hcalled : Finishes (marginCall rounds s.ledger call.1 limit b.currentFeed) := by
      simp only [marginCall, finishes_bind, finishes_demand, true_and, demand_eq_ok]
      intro c hc'
      obtain rfl : call.2 = c := Option.some.inj (hc.symm.trans hc')
      simp [CallOrder.finishes_getMaxDebtToCover hsound.collateral_pos hsound.debt_pos hrounds]
    simp only [finishes_bind, finishes_demand, finishes_require, finishes_bitasset, finishes_ite,
      finishes_pure, Asset.finishes_mul, Asset.finishes_less, finishes_globallySettleAsset,
      implies_true, true_and]
    intro o _ _ _ b' hb' _ cost _ less _ _
    obtain rfl : b' = b := Except.ok.inj (hb'.symm.trans hb)
    exact ⟨hcalled, trivial⟩

/-! ### Enough rounds -/

/-- The rounds that the loops of the matching need at most with a maintenance ratio. -/
noncomputable def enoughRounds (L : Ledger) (ratio : Nat) : Nat :=
  (L.callOrders.sum fun _ c => (c.coverRounds : Int)).toNat + (L.work ratio).toNat + 1

theorem coverRounds_le_enough {c : CallOrder} {ratio : Nat} (hc : L.callOrders.find id = some c) :
    c.coverRounds ≤ L.enoughRounds ratio := by
  have hle := Table.le_sum (f := fun _ c => (CallOrder.coverRounds c : Int)) hc
    fun _ _ _ => Int.natCast_nonneg _
  unfold enoughRounds
  omega

theorem work_lt_enough {ratio : Nat} : (L.work ratio).toNat < L.enoughRounds ratio := by
  unfold enoughRounds
  omega

theorem finishes_matchBeforeBook {o : LimitOrder} {p : Price} {book : List Nat} (hs : Shape L)
    (hfed : Fed L) (ho : L.limitOrders.find id = some o)
    (hprice : L.callMatchPrice o = .ok (some (p, feed)))
    (hsmall : SmallCalls L o.sellAssetId)
    (hrounds : L.enoughRounds feed.maintenanceCollateralRatio ≤ rounds) :
    Finishes (matchBeforeBook rounds L id o book) := by
  obtain ⟨hp, -, hbetween, b, hb, hcurrent, hbacking, -⟩ := callMatchPrice_spec hfed hprice
  simp only [matchBeforeBook, finishes_bind, finishes_callMatchPrice, true_and]
  intro price hprice'
  obtain rfl : some (p, feed) = price := Except.ok.inj (hprice.symm.trans hprice')
  simp only [finishes_bind, finishes_matchBook, finishes_ite, finishes_pure,
    Price.finishes_smallest, implies_true, true_and, and_true]
  intro better hbetter _ callMin _
  have hturn := matchBook_turn hs hbetter
  have hkept := matchBook_callOrders book hbetter
  have hchanges : Changes (· = id) L better.2.2 := by
    refine matchBook_changes ?_ book L better hbetter
    rfl
  have hsell : ∀ N u, Changes (· = id) L N → N.limitOrders.find id = some u →
      u.sellAssetId = o.sellAssetId := by
    intro N u hN hu
    rw [LimitOrder.sellAssetId, KeepsOrders.loose_sellPrice ho hN hu]
    rfl
  have hready : CallsReady rounds o.sellAssetId o.receiveAssetId feed better.2.2 := by
    refine ⟨hturn.shape, ⟨b, (hturn.bitasset _).trans hb, hcurrent, hbacking⟩, hbetween,
      fun j c hc hdebt => ?_⟩
    rw [hkept] at hc
    exact ⟨fun hcalled => hsmall b j c hb hc hdebt (hcurrent ▸ hcalled),
      (coverRounds_le_enough hc).trans hrounds⟩
  refine loop_finishes
    (P := fun N => CallsReady rounds o.sellAssetId o.receiveAssetId feed N ∧ Changes (· = id) L N)
    (m := fun N => (N.work feed.maintenanceCollateralRatio).toNat)
    (fun N hN => finishes_matchCallsRound hN.1 fun u hu => hsell N u hN.2 hu)
    (fun N N' hN hround => ?_) rounds _ ⟨hready, hchanges⟩ ?_
  · obtain ⟨u, hu, -⟩ := bind_eq_ok.mp hround
    obtain ⟨b', hb', hcurrent', -⟩ := hN.1.bitasset
    obtain ⟨call, c, forSale, usd, pays, receives, hmatch⟩ := matchCallsRound_called hN.1.shape hb'
      hcurrent' (demand_eq_ok.mp hu) (hsell N u hN.2 (demand_eq_ok.mp hu)) hround
    obtain ⟨hready', hless⟩ := hN.1.filled hmatch (Or.inr hp)
    have hround' : Changes (· = id) N N' := by
      refine matchCallsRound_changes ?_ hround
      rfl
    have hnonneg := work_nonneg hready'.shape feed.maintenanceCollateralRatio
    exact ⟨⟨hready', hN.2.trans hround'⟩, by omega⟩
  · have hwork : better.2.2.work feed.maintenanceCollateralRatio =
        L.work feed.maintenanceCollateralRatio := by rw [work, work, hkept]
    have henough : (L.work feed.maintenanceCollateralRatio).toNat <
        L.enoughRounds feed.maintenanceCollateralRatio := work_lt_enough
    omega

theorem finishes_applyOrder {o : LimitOrder} (hs : Shape L) (hfed : Fed L)
    (ho : L.limitOrders.find id = some o) (hsmall : SmallCalls L o.sellAssetId) :
    ∃ n, ∀ rounds, n ≤ rounds → Finishes (applyOrder rounds L id) := by
  have hbefore : ∃ n, ∀ rounds, n ≤ rounds → ∀ book,
      Finishes (matchBeforeBook rounds L id o book) := by
    cases hprice : L.callMatchPrice o with
    | error e =>
      refine ⟨0, fun rounds _ book => ?_⟩
      have he := finishes_callMatchPrice L o
      rw [hprice] at he
      simpa [matchBeforeBook, hprice] using he
    | ok price =>
      cases price with
      | none => exact ⟨0, fun rounds _ book => by simp [matchBeforeBook, hprice]⟩
      | some q => exact ⟨_, fun rounds hrounds book =>
          finishes_matchBeforeBook hs hfed ho hprice hsmall hrounds⟩
  obtain ⟨n, hn⟩ := hbefore
  refine ⟨n, fun rounds hrounds => ?_⟩
  simp only [applyOrder, finishes_bind, finishes_demand, true_and, demand_eq_ok]
  intro o' ho'
  obtain rfl : o = o' := Option.some.inj (ho.symm.trans ho')
  simp only [finishes_ite, finishes_bind, finishes_pure, Price.finishes_greatest, hn rounds hrounds,
    finishes_matchBook, implies_true, true_and]
  intro _ top _ calls _ rest _
  split <;> simp

theorem finishes_checkCallOrders {enable : Bool} (hs : Shape L) (hfed : Fed L)
    (hresting : RestingBut (fun _ => True) noOrder L) (hsmall : SmallCalls L mia) :
    ∃ n, ∀ rounds, n ≤ rounds → Finishes (L.checkCallOrders rounds mia enable) := by
  cases ha : L.assets.find mia with
  | none => exact ⟨0, fun rounds _ => by simp [checkCallOrders, asset, ha, demand]⟩
  | some a =>
    cases hab : a.bitassetData with
    | none => exact ⟨0, fun rounds _ => by simp [checkCallOrders, asset, ha, demand, hab]⟩
    | some b =>
      have hb : L.bitasset mia = .ok b := bitasset_eq_ok.mpr ⟨a, ha, hab⟩
      refine ⟨L.enoughRounds b.currentFeed.maintenanceCollateralRatio, fun rounds hrounds => ?_⟩
      simp only [checkCallOrders, asset, finishes_bind, finishes_demand, true_and, demand_eq_ok]
      intro a' ha'
      obtain rfl : a = a' := Option.some.inj (ha.symm.trans ha')
      simp only [hab, finishes_bind, finishes_checkForBlackswan, finishes_ite, finishes_pure,
        Price.finishes_greatest, PriceFeed.finishes_maxShortSqueezePrice, implies_true, true_and]
      intro swan hswan hfalse _ hfeed top _ squeeze _
      obtain ⟨flag, M⟩ := swan
      obtain rfl : flag = false := by simpa using hfalse
      obtain ⟨rfl, -⟩ := checkForBlackswan_false hb hswan
      have hbetween := (hfed mia b hb).current.resolve_left hfeed
      split
      · exact finishes_pure _
      · simp only [finishes_bind, Price.finishes_smallest, Price.finishes_greatest, true_and]
        intro callMin hmin callMax hmax
        refine loop_finishes
          (P := fun s => CallsReady rounds mia b.options.shortBackingAsset b.currentFeed s.ledger ∧
            RestingBut (fun _ => True) noOrder s.ledger)
          (m := fun s => (s.ledger.work b.currentFeed.maintenanceCollateralRatio).toNat)
          (fun s hs => finishes_checkCallRound hs.1 hmin hmax) (fun s s' hs hround => ?_) rounds _
          ⟨⟨hs, ⟨b, hb, rfl, rfl⟩, hbetween, fun j c hc hdebt =>
            ⟨hsmall b j c hb hc hdebt, (coverRounds_le_enough hc).trans hrounds⟩⟩, hresting⟩
          (lt_of_lt_of_le work_lt_enough hrounds)
        obtain ⟨hready, hresting', hless⟩ :=
          checkCallRound_progress hs.1 hs.2 hmin hmax hround
        have hnonneg := work_nonneg hready.shape b.currentFeed.maintenanceCollateralRatio
        exact ⟨⟨hready, hresting'⟩, by omega⟩

end Ledger

variable {L₀ L : Ledger}

/-- In every ledger that a run reaches, the matching of a new order and the margin calls of a step
come to an end, when the positions in the asset that the feed does not protect and that have a
target ratio are small. -/
theorem matching_progresses (h₀ : Genesis L₀) (hrun : Run L₀ L) :
    (∀ (op : LimitOrderCreate) (skip : Bool) (placed : Nat × Ledger), op.place skip L = .ok placed →
      SmallCalls placed.2 op.amountToSell.assetId →
      ∃ n, ∀ rounds, n ≤ rounds → Finishes (applyOrder rounds placed.2 placed.1)) ∧
    ∀ (M : Ledger) (mia : AssetId) (enable : Bool), ChecksCalls L M mia →
      SmallCalls M mia →
      ∃ n, ∀ rounds, n ≤ rounds → Finishes (M.checkCallOrders rounds mia enable) := by
  have hbalanced := Run.balanced h₀.balanced hrun
  have hfed := Run.fed h₀.balanced h₀.fed hrun
  constructor
  · intro op skip placed hplace hsmall
    have hs := (op.place_turn hbalanced.shape hplace).shape
    have hplaced : Fed placed.2 :=
      (op.place_changes hplace).invariant (fun _ _ hM hc => hM.change hc) hfed
    obtain ⟨M, o, hplaces, rfl⟩ := op.place_spec hplace
    refine finishes_applyOrder hs hplaced (Table.find_create_self _ o) ?_
    rw [LimitOrder.sellAssetId, hplaces.sellPrice]
    exact hsmall
  · intro M mia enable hchecks hsmall
    exact finishes_checkCallOrders (hchecks.shape hbalanced) (hchecks.fed hfed)
      (hchecks.resting h₀ hrun) hsmall

/-- A publication up to `check_call_orders`, when it revives nothing. -/
def publishFeed (op : AssetPublishFeed) (L : Ledger) : Attempt Ledger := do
  require op.Valid
  let core ← L.evaluateFee op.publisher op.fee L.parameters.assetPublishFeedFee false
  op.doEvaluate L
  let L1 ← L.convertFee op.fee core
  let L2 ← L1.payFee op.publisher core
  L2.modifyBitasset op.assetId fun b => (b.setFeed ⟨op.publisher, L2.headBlockTime,
    op.feed⟩).updateMedianFeeds L2.headBlockTime

theorem publishFeed_checksCalls {op : AssetPublishFeed} {M : Ledger}
    (h : publishFeed op L = .ok M) : ChecksCalls L M op.assetId := by
  simp only [publishFeed, bind_eq_ok, require_eq_ok, exists_const] at h
  obtain ⟨hvalid, core, hcore, u, heval, L1, hconvert, L2, hpay, hstore⟩ := h
  exact .assetPublishFeed hvalid hcore heval hconvert hpay hstore (Or.inl rfl)

/-- A position with a target ratio is called by a publication, and a new order is called for. -/
theorem matching_progresses_par : ∃ L placed M,
    parLedger.perform 5 [.callOrderUpdate ⟨⟨0, 0⟩, 0, ⟨210, 0⟩, ⟨100, 1⟩, some 2000⟩, sellPar 60] =
      .ok L ∧
    LimitOrderCreate.place ⟨⟨0, 0⟩, 0, ⟨50, 1⟩, ⟨55, 0⟩, 1700000000, false⟩ false L = .ok placed ∧
    publishFeed ⟨⟨0, 0⟩, 1, 1, parFeed 100 125 1750 (by decide)⟩ L = .ok M ∧
    (∃ n, ∀ rounds, n ≤ rounds → Finishes (applyOrder rounds placed.2 placed.1)) ∧
    ∃ n, ∀ rounds, n ≤ rounds → Finishes (M.checkCallOrders rounds 1 true) := by
  have hrun : (parLedger.perform 5 [.callOrderUpdate ⟨⟨0, 0⟩, 0, ⟨210, 0⟩, ⟨100, 1⟩, some 2000⟩,
      sellPar 60]).toOption.any (fun L =>
        (LimitOrderCreate.place ⟨⟨0, 0⟩, 0, ⟨50, 1⟩, ⟨55, 0⟩, 1700000000, false⟩ false
          L).toOption.any (fun placed => ∀ r ∈ placed.2.callOrders.rows, r.2.Small) ∧
        (publishFeed ⟨⟨0, 0⟩, 1, 1, parFeed 100 125 1750 (by decide)⟩ L).toOption.any fun M =>
          ∀ r ∈ M.callOrders.rows, r.2.Small) = true := by decide +kernel
  obtain ⟨L, hL, hstate⟩ := exists_ok_of_any hrun
  obtain ⟨hplaced, hpublished⟩ := of_decide_eq_true hstate
  obtain ⟨placed, hplace, hsmall⟩ := exists_ok_of_any hplaced
  obtain ⟨M, hM, hsmall'⟩ := exists_ok_of_any hpublished
  obtain ⟨happly, hcheck⟩ := matching_progresses parLedger_genesis (perform_run hL)
  exact ⟨L, placed, M, hL, hplace, hM,
    happly _ _ _ hplace fun _ id c _ hc _ _ => of_decide_eq_true hsmall (id, c)
      (Table.find_iff_mem.mp hc),
    hcheck M 1 true (publishFeed_checksCalls hM) fun _ id c _ hc _ _ =>
      of_decide_eq_true hsmall' (id, c) (Table.find_iff_mem.mp hc)⟩

/-! ### A loop that stands still -/

theorem Ledger.checkCallOrders_unfinished {M : Ledger} {mia : AssetId} {enable : Bool}
    {start : Price × Price × Calling} {s : Calling}
    (hstart : M.checkCallStart mia enable = .ok (.inr start))
    (hfirst : checkCallRound 0 mia enable start.1 start.2.1 start.2.2 = .ok (.inl s))
    (hagain : checkCallRound 0 mia enable start.1 start.2.1 s = .ok (.inl s)) (rounds : Nat) :
    M.checkCallOrders rounds mia enable = .error .unfinished := by
  rw [checkCallOrders_eq, hstart]
  show loop _ rounds start.2.2 = _
  have hfirst' := checkCallRound_within (Nat.zero_le rounds) _ hfirst
  have hagain' := checkCallRound_within (Nat.zero_le rounds) _ hagain
  cases rounds with
  | zero => rfl
  | succ n =>
    rw [loop, hfirst']
    exact loop_unfinished hagain' n

/-- A feed of the asset of `coarseLedger`. -/
def coarseFeed (quote : Int) : PriceFeed :=
  ⟨⟨⟨1, 1⟩, ⟨quote, coreAsset⟩⟩, 1001, 1001, by decide, by decide⟩

/-- Two accounts, one of them rich, and an asset of which one is worth a lot. -/
def coarseLedger : Ledger :=
  freshLedger 1600000000 [100000000000000, 1000] [.fedWith (coarseFeed 9000000000000)]

theorem coarseLedger_genesis : Genesis coarseLedger :=
  freshLedger_genesis (by decide) (by decide) (by decide)

/-- One is borrowed with a target ratio and put up for sale, and then the price of the asset goes
up. The call price is rounded so that the position is called, and the search finds that it is above
its target and covers nothing. -/
theorem margin_calls_stand_still : ∃ L₀ L M, Genesis L₀ ∧ Run L₀ L ∧ ChecksCalls L M 1 ∧
    ∀ rounds, M.checkCallOrders rounds 1 true = .error .unfinished := by
  have hrun : (coarseLedger.perform 5
      [.callOrderUpdate ⟨⟨0, 0⟩, 0, ⟨10000000000002, 0⟩, ⟨1, 1⟩, some 1001⟩,
        .limitOrderCreate ⟨⟨0, 0⟩, 0, ⟨1, 1⟩, ⟨9900000000000, 0⟩, 1700000000, false⟩]).toOption.any
      (fun L => (publishFeed ⟨⟨0, 0⟩, 1, 1, coarseFeed 9900000000000⟩ L).toOption.any fun M =>
        (M.checkCallStart 1 true).toOption.any fun start => start.getRight?.any fun start =>
          (checkCallRound 0 1 true start.1 start.2.1 start.2.2).toOption.any fun s =>
            s.getLeft?.any fun s =>
              (checkCallRound 0 1 true start.1 start.2.1 s).toOption.any fun s' =>
                s'.getLeft? = some s) = true := by decide +kernel
  obtain ⟨L, hL, hstate⟩ := exists_ok_of_any hrun
  obtain ⟨M, hM, hstate⟩ := exists_ok_of_any hstate
  obtain ⟨begun, hbegun, hstate⟩ := exists_ok_of_any hstate
  obtain ⟨start, hright, hrounds⟩ := (Option.any_eq_true _ _).mp hstate
  obtain ⟨first, hfirst, hrounds⟩ := exists_ok_of_any hrounds
  obtain ⟨s, hleft, hsecond⟩ := (Option.any_eq_true _ _).mp hrounds
  obtain ⟨second, hagain, hsame⟩ := exists_ok_of_any hsecond
  rw [Sum.getRight?_eq_some_iff.mp hright] at hbegun
  rw [Sum.getLeft?_eq_some_iff.mp hleft] at hfirst
  rw [Sum.getLeft?_eq_some_iff.mp (of_decide_eq_true hsame)] at hagain
  exact ⟨coarseLedger, L, M, coarseLedger_genesis, perform_run hL, publishFeed_checksCalls hM,
    checkCallOrders_unfinished hbegun hfirst hagain⟩

end Nestchain.Market
