import Nestchain.Market.SettleMatch

/-! The volume of the force settlements of a block.  `clear_expired_orders` goes through the
settlements asset by asset, and computes the volume that can be settled in an asset once, when it
gets to the asset.  It keeps this volume, and the price, while the supply goes down; until it gets
to an asset, the volume that was settled in it and its supply are as they were. -/

namespace Nestchain.Market

open Lib Ledger

/-- The bitasset data with another volume that was settled. -/
def BitassetData.withVolume (b : BitassetData) (volume : Int) : BitassetData :=
  { b with forceSettledVolume := volume }

namespace Ledger

variable {L M L' : Ledger} {mia : AssetId} {id : Nat}

/-! ### The settlement of one order -/

theorem mul_null {a b : Asset} : a.mul Price.null ≠ .ok b := by
  intro h
  rcases Asset.mul_cases h with ⟨-, -, hd, -⟩ | ⟨-, -, -, hd, -⟩
  · exact lt_irrefl 0 hd
  · exact lt_irrefl 0 hd

/-- A price whose amounts are positive, or none. -/
def PriceOrNone (p : Price) : Prop := p = Price.null ∨ (0 < p.base.amount ∧ 0 < p.quote.amount)

theorem collateral_asset (hL : Balanced L) {c : CallOrder} (hc : L.callOrders.find id = some c) :
    ∃ a, L.assets.find c.collateralType = some a := by
  rw [← Option.isSome_iff_exists]
  by_contra hnone
  have hle := Balanced.collateral_le_supply hL hc
  rw [supply, Option.not_isSome_iff_eq_none.mp hnone] at hle
  exact absurd (hL.shape.callOrders id c hc).collateral_pos (not_lt.mpr hle)

theorem matchCallAndSettle_burns {call settle : Nat} {p : Price} {most : Asset} {r : Asset × Ledger}
    (hL : Balanced L) (hp : PriceOrNone p) (hmost : 0 ≤ most.amount)
    (h : L.matchCallAndSettle call settle p most = .ok r) :
    p ≠ Price.null ∧ r.1.amount ≤ most.amount ∧
      ∀ id, r.2.supply id = L.supply id - (Asset.mk r.1.amount most.assetId).amountIn id := by
  have hfound := h
  simp only [matchCallAndSettle, bind_eq_ok, demand_eq_ok] at hfound
  obtain ⟨c, hc, s, hs, -⟩ := hfound
  obtain ⟨-, -, hasset, y, hy, -⟩ := (matchCallAndSettle_eq_ok hc hs).mp h
  have hpriced : p ≠ Price.null := fun he => mul_null (he ▸ hy)
  obtain ⟨hbase, hquote⟩ := hp.resolve_left hpriced
  obtain ⟨a, ha⟩ := collateral_asset hL hc
  obtain ⟨pays, -, -, hle, -, -, -, hmatched⟩ :=
    matchCallAndSettle_matched hL.shape hc hs ha hbase hquote hmost h
  rw [hasset]
  exact ⟨hpriced, hle.trans ((min_le_left _ _).trans (min_le_right _ _)), hmatched.supply⟩

/-- The settlement of one order so far, that started with the volume `start` and has at most the
volume `most`: what was added to the volume was taken off the supply. -/
structure Settles (M : Ledger) (mia : AssetId) (start most : Int) (p : Price) (t : Settling) :
    Prop where
  balanced : Balanced t.ledger
  bitasset : ∀ id, t.ledger.bitasset id = M.bitasset id
  others : ∀ id ≠ mia, t.ledger.supply id = M.supply id
  burned : t.ledger.supply mia + t.settled = M.supply mia + start
  bounded : t.settled ≤ max start most
  unpriced : p = Price.null → t.settled = start

theorem Settles.start {most start : Int} {p : Price} {finished : Bool} (hM : Balanced M) :
    Settles M mia start most p ⟨M, start, finished⟩ :=
  ⟨hM, fun _ => rfl, fun _ _ => rfl, rfl, le_max_left _ _, fun _ => rfl⟩

theorem settleRound_settles {start most : Int} {p : Price} {t : Settling} {x : Settling ⊕ Settling}
    (hp : PriceOrNone p) (ht : Settles M mia start most p t)
    (h : settleRound mia id p most t = .ok x) :
    Settles M mia start most p (x.elim (fun t => t) fun t => t) := by
  simp only [settleRound] at h
  split at h
  · obtain rfl := pure_eq_ok.mp h
    exact ht
  · rename_i order horder
    split at h
    · obtain rfl := pure_eq_ok.mp h
      exact ht
    · rename_i hless
      simp only [bind_eq_ok] at h
      obtain ⟨b, -, low, -, call, -, h⟩ := h
      split at h
      · simp only [bind_eq_ok, pure_eq_ok] at h
        obtain ⟨N, hN, rfl⟩ := h
        have hturn := cancelSettleOrder_turn ht.balanced.shape hN
        obtain ⟨-, hsupply, -⟩ := cancelSettleOrder_refunds horder hN
        refine ⟨hturn.keeps.balanced ht.balanced, fun j => (hturn.bitasset j).trans (ht.bitasset j),
          fun j hj => (hsupply j).trans (ht.others j hj), ?_, ht.bounded, ht.unpriced⟩
        exact (congrArg (· + t.settled) (hsupply mia)).trans ht.burned
      · simp only [bind_eq_ok] at h
        obtain ⟨r, hr, h⟩ := h
        have hturn := matchCallAndSettle_turn ht.balanced.shape hr
        obtain ⟨hpriced, hle, hsupply⟩ := matchCallAndSettle_burns ht.balanced hp
          (show 0 ≤ most - t.settled by omega) hr
        have hle' : r.1.amount ≤ most - t.settled := hle
        have hburned : r.2.supply mia = t.ledger.supply mia - r.1.amount := by
          rw [hsupply, Asset.amountIn, if_pos rfl]
        have hothers : ∀ j ≠ mia, r.2.supply j = M.supply j := by
          intro j hj
          rw [hsupply, Asset.amountIn, if_neg (Ne.symm hj), sub_zero]
          exact ht.others j hj
        have hbefore := ht.burned
        split at h
        · rename_i hzero
          obtain rfl := pure_eq_ok.mp h
          refine ⟨hturn.keeps.balanced ht.balanced,
            fun j => (hturn.bitasset j).trans (ht.bitasset j), hothers, ?_, ht.bounded, ht.unpriced⟩
          show r.2.supply mia + t.settled = _
          omega
        · obtain rfl := pure_eq_ok.mp h
          refine ⟨hturn.keeps.balanced ht.balanced,
            fun j => (hturn.bitasset j).trans (ht.bitasset j), hothers, ?_, ?_,
            fun he => absurd he hpriced⟩
          · show r.2.supply mia + (t.settled + r.1.amount) = _
            omega
          · refine le_max_of_le_right ?_
            show t.settled + r.1.amount ≤ most
            omega

/-! ### The settlements of a block -/

/-- The ledger `M` is `L` after some settlements, where `v` is the volume of each asset: it is at
most what there was before or what could be settled then, and what was added to it was taken off the
supply. -/
structure Volumes (L M : Ledger) (v : AssetId → Int) : Prop where
  balanced : Balanced M
  bitasset : ∀ id, M.bitasset id = (L.bitasset id).map fun b => b.withVolume (v id)
  burned : ∀ id b, L.bitasset id = .ok b →
    M.supply id + v id = L.supply id + b.forceSettledVolume
  bounded : ∀ id b, L.bitasset id = .ok b →
    v id ≤ max b.forceSettledVolume (b.maxForceSettlementVolume (L.supply id))

/-- The variables of `clear_expired_orders` on the way: the volume that is kept is the one for the
ledger `L` in which the run started, and the assets that it did not get to are as they were.  The
volume and the prices that the run starts with are those of no asset. -/
structure Clears (L : Ledger) (v : AssetId → Int) (s : Clearing) : Prop where
  volumes : Volumes L s.ledger v
  untouched : ∀ id b, L.bitasset id = .ok b → s.currentAsset < id ∨
    (s.currentAsset = id ∧ s.maxSettlementVolume.assetId ≠ id) → v id = b.forceSettledVolume
  asset_le : s.maxSettlementVolume.assetId ≤ s.currentAsset
  fillPrice : PriceOrNone s.settlementFillPrice
  price : PriceOrNone s.settlementPrice
  kept : (∀ b, L.bitasset s.maxSettlementVolume.assetId = .ok b → s.maxSettlementVolume.amount ≤
      b.maxForceSettlementVolume (L.supply s.maxSettlementVolume.assetId)) ∨
    (s.maxSettlementVolume.assetId = coreAsset ∧ s.settlementFillPrice = Price.null ∧
      s.settlementPrice = Price.null)

variable {v : AssetId → Int} {s s' : Clearing}

theorem Volumes.bitasset_eq (h : Volumes L M v) {b : BitassetData} (hb : M.bitasset id = .ok b) :
    ∃ b₀, L.bitasset id = .ok b₀ ∧ b = b₀.withVolume (v id) := by
  rw [h.bitasset] at hb
  cases hL : L.bitasset id with
  | error e =>
    rw [hL] at hb
    cases hb
  | ok b₀ =>
    rw [hL] at hb
    exact ⟨b₀, rfl, (Except.ok.inj hb).symm⟩

theorem Volumes.cancel (h : Volumes L M v) (hcancel : M.cancelSettleOrder id = .ok L') :
    Volumes L L' v := by
  have hturn := cancelSettleOrder_turn h.balanced.shape hcancel
  have hfound := hcancel
  simp only [cancelSettleOrder, bind_eq_ok, demand_eq_ok] at hfound
  obtain ⟨order, horder, -⟩ := hfound
  obtain ⟨-, hsupply, -⟩ := cancelSettleOrder_refunds horder hcancel
  refine ⟨hturn.keeps.balanced h.balanced, fun j => (hturn.bitasset j).trans (h.bitasset j),
    fun j b hb => ?_, h.bounded⟩
  rw [hsupply]
  exact h.burned j b hb

theorem Clears.move (h : Clears L v s) (hledger : s'.ledger = s.ledger)
    (hcurrent : s.currentAsset ≤ s'.currentAsset)
    (hvolume : s'.maxSettlementVolume = s.maxSettlementVolume)
    (hfill : s'.settlementFillPrice = s.settlementFillPrice)
    (hprice : s'.settlementPrice = s.settlementPrice) : Clears L v s' := by
  refine ⟨hledger ▸ h.volumes, fun j b hb hj => h.untouched j b hb ?_, ?_, hfill ▸ h.fillPrice,
    hprice ▸ h.price, ?_⟩
  · rw [hvolume] at hj
    rcases hj with hlt | ⟨he, hne⟩
    · exact .inl (lt_of_le_of_lt hcurrent hlt)
    · rcases lt_or_eq_of_le (hcurrent.trans_eq he) with hlt | heq
      · exact .inl hlt
      · exact .inr ⟨heq, hne⟩
  · rw [hvolume]
    exact h.asset_le.trans hcurrent
  · rw [hvolume, hfill, hprice]
    exact h.kept

theorem Clears.cancel (h : Clears L v s) (hcancel : s.ledger.cancelSettleOrder id = .ok L') :
    Clears L v { s with ledger := L' } :=
  { h with volumes := h.volumes.cancel hcancel }

theorem Clears.reach (h : Clears L v s) {a : AssetObject} {b : BitassetData}
    (ha : s.ledger.assets.find s.currentAsset = some a) (hb : a.bitassetData = some b) :
    Clears L v { s with maxSettlementVolume := if s.maxSettlementVolume.assetId ≠ s.currentAsset
      then ⟨b.maxForceSettlementVolume a.dynamicData.currentSupply, s.currentAsset⟩
      else s.maxSettlementVolume } := by
  by_cases hsame : s.maxSettlementVolume.assetId = s.currentAsset
  · rw [if_neg (not_not.mpr hsame)]
    exact h
  · rw [if_pos hsame]
    refine ⟨h.volumes, fun j b hb hj => h.untouched j b hb ?_, le_refl _, h.fillPrice, h.price,
      .inl fun b₀ hb₀ => le_of_eq ?_⟩
    · rcases hj with hlt | ⟨he, hne⟩
      · exact .inl hlt
      · exact absurd he hne
    · -- the asset is as it was when the run started
      have huntouched : v s.currentAsset = b₀.forceSettledVolume :=
        h.untouched s.currentAsset b₀ hb₀ (.inr ⟨rfl, hsame⟩)
      have hdata := h.volumes.bitasset s.currentAsset
      have hb' : L.bitasset s.currentAsset = .ok b₀ := hb₀
      rw [hb', huntouched, bitasset_eq_ok.mpr ⟨a, ha, hb⟩] at hdata
      have hsupply := h.volumes.burned s.currentAsset b₀ hb₀
      rw [huntouched, add_left_inj, supply_of_find ha] at hsupply
      obtain rfl : b = b₀ := Except.ok.inj hdata
      rw [hsupply]

theorem unscale_valid {p q : Price} (hp : p.Valid) {n : Nat}
    (h : p.unscale (mkRat n fullPercent) = .ok q) : q.Valid := by
  rcases Nat.eq_zero_or_pos n with rfl | hpos
  · simp [Price.unscale, rational] at h
  · have hr : (0 : ℚ) < mkRat n fullPercent := by
      rw [Rat.mkRat_eq_div]
      exact div_pos (by exact_mod_cast hpos) (by norm_num [fullPercent])
    obtain ⟨q', hq', hvalid, -⟩ := Price.unscale_ok hp hr
    obtain rfl : q = q' := Except.ok.inj (h.symm.trans hq')
    exact hvalid

theorem loop_settleRound_settles {rounds : Nat} {start most : Int} {p : Price} {t done : Settling}
    (hp : PriceOrNone p) (ht : Settles M mia start most p t)
    (h : loop (settleRound mia id p most) rounds t = .ok done) :
    Settles M mia start most p done :=
  loop_invariant (P := Settles M mia start most p) (Q := Settles M mia start most p)
    (fun _ _ ht hround => settleRound_settles hp ht hround)
    (fun _ _ ht hround => settleRound_settles hp ht hround) rounds t done ht h

theorem writeVolume_spec {settled : Int} {b : BitassetData} {N : Ledger} (hs : Shape L)
    (hb : L.bitasset mia = .ok b)
    (h : (if b.forceSettledVolume ≠ settled then
        L.modifyBitasset mia fun b => { b with forceSettledVolume := settled }
      else pure L) = .ok N) :
    N.bitasset mia = .ok (b.withVolume settled) ∧ (∀ j ≠ mia, N.bitasset j = L.bitasset j) ∧
      (∀ j, N.supply j = L.supply j) ∧ Keeps L N := by
  split at h
  · exact ⟨modifyBitasset_self hb h, fun j hj => modifyBitasset_ne hj h,
      fun j => modifyBitasset_supply h,
      modifyBitasset_keeps hs h (fun _ _ => rfl) (fun _ => rfl) fun _ => rfl⟩
  · rename_i hvolume
    obtain rfl := pure_eq_ok.mp h
    refine ⟨?_, fun _ _ => rfl, fun _ => rfl, Keeps.refl hs⟩
    rw [hb, ← not_not.mp hvolume]
    rfl

theorem Volumes.write {N : Ledger} {settled : Int} {b₀ : BitassetData} (h : Volumes L M v)
    (hb₀ : L.bitasset mia = .ok b₀) (hN : Balanced N)
    (hself : N.bitasset mia = .ok (b₀.withVolume settled))
    (hothers : ∀ j ≠ mia, N.bitasset j = M.bitasset j)
    (hsupply : ∀ j ≠ mia, N.supply j = M.supply j)
    (hburned : N.supply mia + settled = M.supply mia + v mia)
    (hbounded : settled ≤ max b₀.forceSettledVolume (b₀.maxForceSettlementVolume (L.supply mia))) :
    Volumes L N (Function.update v mia settled) := by
  refine ⟨hN, fun j => ?_, fun j c hc => ?_, fun j c hc => ?_⟩
  · by_cases hj : j = mia
    · subst hj
      rw [Function.update_self, hself, hb₀]
      rfl
    · rw [Function.update_of_ne hj, hothers j hj]
      exact h.bitasset j
  · show N.supply j + _ = _
    by_cases hj : j = mia
    · subst hj
      rw [Function.update_self, hburned]
      exact h.burned _ c hc
    · rw [Function.update_of_ne hj, hsupply j hj]
      exact h.burned j c hc
  · by_cases hj : j = mia
    · subst hj
      obtain rfl : c = b₀ := Except.ok.inj (hc.symm.trans hb₀)
      rw [Function.update_self]
      exact hbounded
    · rw [Function.update_of_ne hj]
      exact h.bounded j c hc

theorem settleOrder_clears {rounds : Nat} {b : BitassetData} {x : Clearing ⊕ Ledger}
    (hs : Clears L v s) (hb : s.ledger.bitasset s.currentAsset = .ok b)
    (hsame : s.maxSettlementVolume.assetId = s.currentAsset)
    (hfeed : b.currentFeed.settlementPrice.Valid)
    (h : settleOrder rounds s id b = .ok x) :
    ∃ v', x.elim (Clears L v') fun L' => Volumes L L' v' := by
  simp only [settleOrder, bind_eq_ok, pure_eq_ok] at h
  obtain ⟨fillPrice, hfill, done, hdone, N, hN, rfl⟩ := h
  have hfillPrice : PriceOrNone fillPrice := by
    split at hfill
    · have hvalid := unscale_valid hfeed hfill
      exact .inr ⟨hvalid.1, hvalid.2.1⟩
    · exact pure_eq_ok.mp hfill ▸ hs.fillPrice
  have hprice : PriceOrNone (if s.settlementPrice.base.assetId ≠ s.currentAsset then fillPrice
      else s.settlementPrice) := by
    split
    · exact hfillPrice
    · exact hs.price
  have hsettles := loop_settleRound_settles hprice (Settles.start hs.volumes.balanced) hdone
  obtain ⟨hself, hothers, hsupply, hkeeps⟩ := writeVolume_spec hsettles.balanced.shape
    ((hsettles.bitasset _).trans hb) hN
  obtain ⟨b₀, hb₀, hbv⟩ := hs.volumes.bitasset_eq hb
  have hstart : b.forceSettledVolume = v s.currentAsset := by rw [hbv]; rfl
  have hbounded : done.settled ≤
      max b₀.forceSettledVolume (b₀.maxForceSettlementVolume (L.supply s.currentAsset)) := by
    have hbefore := hs.volumes.bounded _ b₀ hb₀
    rcases hs.kept with hkept | ⟨hcore, -, hnull⟩
    · rw [hsame] at hkept
      refine hsettles.bounded.trans (max_le (hstart ▸ hbefore) ?_)
      exact (hkept b₀ hb₀).trans (le_max_right _ _)
    · -- nothing is settled at no price
      have hbase : s.settlementPrice.base.assetId = s.currentAsset := by
        rw [hnull, ← hsame, hcore]
        rfl
      rw [if_neg (not_not.mpr hbase)] at hsettles
      rw [hsettles.unpriced hnull, hstart]
      exact hbefore
  have hwritten := hs.volumes.write (N := N) hb₀ (hkeeps.balanced hsettles.balanced)
    (by rw [hself, hbv]; rfl) (fun j hj => (hothers j hj).trans (hsettles.bitasset j))
    (fun j hj => (hsupply j).trans (hsettles.others j hj))
    (by rw [hsupply, hsettles.burned, hstart]) hbounded
  refine ⟨Function.update v s.currentAsset done.settled, hwritten, fun j c hc hj => ?_, hs.asset_le,
    hfillPrice, hprice, ?_⟩
  · have hne : j ≠ s.currentAsset := by
      rintro rfl
      rcases hj with hlt | ⟨-, hne⟩
      · exact lt_irrefl _ hlt
      · exact hne hsame
    rw [Function.update_of_ne hne]
    exact hs.untouched j c hc hj
  · refine hs.kept.imp_right fun hkept => ?_
    obtain ⟨hcore, hfillNull, hnull⟩ := hkept
    have hcurrent : Price.null.base.assetId = s.currentAsset := hcore.symm.trans hsame
    rw [hfillNull, if_neg (not_not.mpr hcurrent), pure_eq_ok] at hfill
    refine ⟨hcore, hfill, ?_⟩
    show (if s.settlementPrice.base.assetId ≠ s.currentAsset then fillPrice
      else s.settlementPrice) = Price.null
    rw [hnull, if_neg (not_not.mpr hcurrent)]

theorem nextAsset_clears (hs : Clears L v s) :
    (nextAsset s).elim (Clears L v) fun L' => Volumes L L' v := by
  unfold nextAsset
  split
  · exact hs.volumes
  · rename_i order rest hrest
    have hmem := List.mem_filter.mp (hrest ▸ List.mem_cons_self .. : order ∈ _)
    exact hs.move rfl (le_of_lt (of_decide_eq_true hmem.2)) rfl rfl rfl

theorem clearRound_clears {rounds : Nat} {x : Clearing ⊕ Ledger} (hfed : Fed L)
    (hs : Clears L v s) (h : clearRound rounds s = .ok x) :
    ∃ v', x.elim (Clears L v') fun L' => Volumes L L' v' := by
  unfold clearRound at h
  split at h
  · obtain rfl := pure_eq_ok.mp h
    exact ⟨v, hs.volumes⟩
  · rename_i order rest hrest
    have hmem := List.mem_filter.mp (hrest ▸ List.mem_cons_self .. : order ∈ _)
    have hmoved : Clears L v { s with currentAsset := order.2.balance.assetId } :=
      hs.move rfl (of_decide_eq_true hmem.2) rfl rfl rfl
    simp only [asset, bind_eq_ok, demand_eq_ok] at h
    obtain ⟨a, ha, b, hb, h⟩ := h
    split at h
    · simp only [bind_eq_ok, pure_eq_ok] at h
      obtain ⟨N, hN, rfl⟩ := h
      exact ⟨v, hmoved.cancel hN⟩
    · split at h
      · obtain rfl := pure_eq_ok.mp h
        exact ⟨v, nextAsset_clears hmoved⟩
      · split at h
        · simp only [bind_eq_ok, pure_eq_ok] at h
          obtain ⟨N, hN, rfl⟩ := h
          exact ⟨v, hmoved.cancel hN⟩
        · rename_i hfeed
          have hreached := hmoved.reach ha hb
          have hcurrent : (if s.maxSettlementVolume.assetId ≠ order.2.balance.assetId then
              ⟨b.maxForceSettlementVolume a.dynamicData.currentSupply, order.2.balance.assetId⟩
              else s.maxSettlementVolume : Asset).assetId = order.2.balance.assetId := by
            split
            · rfl
            · rename_i hsame
              exact not_not.mp hsame
          dsimp only at hreached h
          generalize (if s.maxSettlementVolume.assetId ≠ order.2.balance.assetId then
              ⟨b.maxForceSettlementVolume a.dynamicData.currentSupply, order.2.balance.assetId⟩
              else s.maxSettlementVolume : Asset) = volume at h hreached hcurrent
          split at h
          · obtain rfl := pure_eq_ok.mp h
            exact ⟨v, nextAsset_clears hreached⟩
          · have hbit : s.ledger.bitasset order.2.balance.assetId = .ok b :=
              bitasset_eq_ok.mpr ⟨a, ha, hb⟩
            obtain ⟨b₀, hb₀, hbv⟩ := hs.volumes.bitasset_eq hbit
            have hcurrentFeed : b.currentFeed = b₀.currentFeed := by
              rw [hbv]
              rfl
            rw [hcurrentFeed] at hfeed
            have hbetween := (hfed _ b₀ hb₀).current.resolve_left hfeed
            refine settleOrder_clears hreached hbit hcurrent ?_ h
            rw [hcurrentFeed]
            refine ⟨hbetween.base_pos, hbetween.quote_pos, ?_⟩
            rw [hbetween.base_asset, hbetween.quote_asset]
            have hne := (hs.volumes.balanced.shape.bitassets _ b hbit).backing_ne
            rw [hbv] at hne
            exact hne.symm

/-! ### The whole run -/

theorem cancelLimitOrder_supply {virtualOp skipFee : Bool} {b : BitassetData} (hs : Shape L)
    (hb : L.bitasset mia = .ok b) (h : L.cancelLimitOrder id virtualOp skipFee = .ok L') :
    L'.supply mia = L.supply mia := by
  obtain ⟨hturn, honly⟩ := cancelLimitOrder_turn hs h
  cases hset : b.hasSettlement with
  | false =>
    -- the debts are the supply
    rw [← totalDebt_eq_supply hs hb hset, ← totalDebt_eq_supply hturn.shape
      ((hturn.bitasset mia).trans hb) hset, totalDebt, totalDebt, honly.callOrders]
  | true =>
    obtain ⟨o, N, -, hN, rfl⟩ := cancelLimitOrder_spec (fun o ho =>
      ⟨(hs.limitOrders id o ho).deferredFee_nonneg,
        (hs.limitOrders id o ho).deferredPaidFee_nonneg⟩) h
    exact hN.supply mia b hb hset

def startVolume (L : Ledger) (id : AssetId) : Int :=
  match L.bitasset id with
  | .error _ => 0
  | .ok b => b.forceSettledVolume

theorem startVolume_eq {b : BitassetData} (hb : L.bitasset id = .ok b) :
    L.startVolume id = b.forceSettledVolume := by
  rw [startVolume, hb]

theorem Volumes.start (hL : Balanced L) : Volumes L L L.startVolume := by
  refine ⟨hL, fun j => ?_, fun j b hb => ?_, fun j b hb => ?_⟩
  · cases hj : L.bitasset j with
    | error e => rfl
    | ok b =>
      rw [startVolume_eq hj]
      rfl
  · rw [startVolume_eq hb]
  · rw [startVolume_eq hb]
    exact le_max_left _ _

theorem Volumes.cancelLimitOrder {virtualOp skipFee : Bool} (h : Volumes L M v)
    (hcancel : M.cancelLimitOrder id virtualOp skipFee = .ok L') : Volumes L L' v := by
  obtain ⟨hturn, -⟩ := cancelLimitOrder_turn h.balanced.shape hcancel
  refine ⟨hturn.keeps.balanced h.balanced, fun j => (hturn.bitasset j).trans (h.bitasset j),
    fun j b hb => ?_, h.bounded⟩
  have hM : M.bitasset j = .ok (b.withVolume (v j)) := by
    rw [h.bitasset, hb]
    rfl
  rw [cancelLimitOrder_supply h.balanced.shape hM hcancel]
  exact h.burned j b hb

theorem clearExpiredOrders_volumes {rounds : Nat} (hL : Balanced L) (hfed : Fed L)
    (h : L.clearExpiredOrders rounds = .ok L') : ∃ v, Volumes L L' v := by
  simp only [clearExpiredOrders, bind_eq_ok] at h
  obtain ⟨M, hM, h⟩ := h
  have hcancelled : Volumes L M L.startVolume :=
    foldlM_invariant (P := fun M => Volumes L M L.startVolume)
      (fun M r M' hM hstep => hM.cancelLimitOrder hstep) _ _ _ (Volumes.start hL) hM
  split at h
  · obtain rfl := pure_eq_ok.mp h
    exact ⟨_, hcancelled⟩
  · exact loop_invariant (P := fun s => ∃ v, Clears L v s) (Q := fun L' => ∃ v, Volumes L L' v)
      (fun s s' hs hround => hs.elim fun v hs => clearRound_clears hfed hs hround)
      (fun s r hs hround => hs.elim fun v hs => clearRound_clears hfed hs hround) _ _ _
      ⟨L.startVolume, hcancelled, fun j b hb _ => startVolume_eq hb, Nat.zero_le _, .inl rfl,
        .inl rfl, .inr ⟨rfl, rfl, rfl⟩⟩ h

/-- The ledgers on the way through `clear_expired_orders`. -/
inductive DuringClear (L : Ledger) : Ledger → Prop
  | start : DuringClear L L
  | expire {M N : Ledger} {id : Nat} (h : DuringClear L M)
      (hstep : M.cancelLimitOrder id true false = .ok N) : DuringClear L N
  | cancel {M N : Ledger} {id : Nat} (h : DuringClear L M)
      (hstep : M.cancelSettleOrder id = .ok N) : DuringClear L N
  | settle {M : Ledger} {call settle : Nat} {p : Price} {most : Asset} {r : Asset × Ledger}
      (h : DuringClear L M) (hstep : M.matchCallAndSettle call settle p most = .ok r) :
      DuringClear L r.2
  | volume {M N : Ledger} {mia : AssetId} {x : Int} (h : DuringClear L M)
      (hstep : M.modifyBitasset mia (fun b => b.withVolume x) = .ok N) : DuringClear L N

theorem DuringClear.keeps (hL : Balanced L) (h : DuringClear L M) :
    Balanced M ∧ Changes noOrder L M := by
  induction h with
  | start => exact ⟨hL, Relation.ReflTransGen.refl⟩
  | expire _ hstep ih =>
    exact ⟨(cancelLimitOrder_turn ih.1.shape hstep).1.keeps.balanced ih.1,
      ih.2.trans (cancelLimitOrder_changes hstep)⟩
  | cancel _ hstep ih =>
    exact ⟨(cancelSettleOrder_turn ih.1.shape hstep).keeps.balanced ih.1,
      ih.2.trans (cancelSettleOrder_changes hstep)⟩
  | settle _ hstep ih =>
    exact ⟨(matchCallAndSettle_turn ih.1.shape hstep).keeps.balanced ih.1,
      ih.2.trans (matchCallAndSettle_changes hstep)⟩
  | volume _ hstep ih =>
    exact ⟨(modifyBitasset_keeps ih.1.shape hstep (fun _ _ => rfl) (fun _ => rfl)
      fun _ => rfl).balanced ih.1,
      ih.2.trans (modifyBitasset_funds hstep fun _ => ⟨rfl, rfl, rfl, rfl⟩).changes⟩

/-- What a match of the call order `c` and the settlement `s` does: it takes at most what is
offered, and nothing only for nothing; it returns when the call order can pay; and a settlement that
would be paid nothing for all of its balance is cancelled. -/
structure MatchBounded (M : Ledger) (call settle : Nat) (c : CallOrder) (s : ForceSettlement)
    (p : Price) (most : Asset) : Prop where
  takes : ∀ r, M.matchCallAndSettle call settle p most = .ok r → ∃ a pays,
    M.assets.find c.collateralType = some a ∧ r.1.assetId = s.balance.assetId ∧
    0 ≤ r.1.amount ∧ r.1.amount ≤ offered c s most.amount ∧ 0 ≤ pays ∧ pays ≤ c.collateral ∧
    (pays = 0 ↔ r.1.amount = 0) ∧
    SettleMatched M r.2 call settle c s a.options r.1.amount pays
  returns : c.CanPay p → ∃ r, M.matchCallAndSettle call settle p most = .ok r
  dust : s.balance.amount < c.debt → s.balance.amount ≤ most.amount →
    (∃ y, s.balance.mul p = .ok y ∧ y.amount = 0) → ∃ N,
      M.matchCallAndSettle call settle p most = .ok (⟨0, s.balance.assetId⟩, N) ∧
      N.settlements.find settle = none ∧ N.callOrders = M.callOrders ∧
      N.purses = M.purses + inPurse (.balance s.owner s.balance.assetId) s.balance.amount

theorem matchBounded {call settle : Nat} {c : CallOrder} {s : ForceSettlement} {p : Price}
    {most : Asset} (hL : Balanced L) (howned : Owned L) (hc : L.callOrders.find call = some c)
    (hs : L.settlements.find settle = some s) (htype : c.debtType = s.balance.assetId)
    (hbalance : 0 < s.balance.amount) (hbase : 0 < p.base.amount) (hquote : 0 < p.quote.amount)
    (hmostType : most.assetId = s.balance.assetId) (hmost : 0 ≤ most.amount) :
    MatchBounded L call settle c s p most := by
  obtain ⟨a, ha⟩ := collateral_asset hL hc
  have hsound := hL.shape.callOrders call c hc
  refine ⟨fun r hr => ?_, fun hpay => ?_, fun hless hfits hnothing => ?_⟩
  · obtain ⟨pays, hrest⟩ := matchCallAndSettle_matched hL.shape hc hs ha hbase hquote hmost hr
    exact ⟨a, pays, ha, hrest⟩
  · exact matchCallAndSettle_ok hL.shape howned hc hs ha htype hbalance hbase hquote hmostType hmost
      hpay
  · obtain ⟨y, hy, hzero⟩ := hnothing
    have hall : offered c s most.amount = s.balance.amount := by
      rw [offered, min_eq_left hfits, min_eq_left hless.le]
    obtain ⟨N, hN⟩ := cancelSettleOrder_ok hs hbalance.le
    obtain ⟨hcalls, -, hgone, hrefund⟩ := cancelSettleOrder_refunds hs hN
    refine ⟨N, (matchCallAndSettle_eq_ok hc hs).mpr ⟨htype, ⟨hsound.debt_pos,
      hsound.collateral_pos, hbalance⟩, hmostType, y, ?_, .cancelled hzero ?_ hall hN rfl⟩, ?_,
        hcalls,
      hrefund⟩
    · rw [hall]
      exact hy
    · rw [hall]
      exact ne_of_lt hless
    · rw [hgone]
      exact Table.find_remove_self _ _

end Ledger

/-! ### Reachable ledgers -/

/-- In every ledger that a run reaches, and on the way through `clear_expired_orders` from it, a
match of a call order and a force settlement is bounded; and after `clear_expired_orders` the volume
that was settled in an asset is at most what it was before or what could be settled at the start,
when nothing was settled in the asset yet, and what was added to it was taken off the supply. -/
theorem force_settlement_bounded {L₀ L : Ledger} (h₀ : Genesis L₀) (hrun : Run L₀ L) :
    (∀ M, DuringClear L M → ∀ call settle c s p most, M.callOrders.find call = some c →
      M.settlements.find settle = some s → c.debtType = s.balance.assetId →
      0 < s.balance.amount → 0 < p.base.amount → 0 < p.quote.amount →
      most.assetId = s.balance.assetId → 0 ≤ most.amount →
      MatchBounded M call settle c s p most) ∧
    ∀ rounds L', L.clearExpiredOrders rounds = .ok L' → ∀ id b, L.bitasset id = .ok b →
      ∃ b', L'.bitasset id = .ok b' ∧
        b'.forceSettledVolume ≤
          max b.forceSettledVolume (b.maxForceSettlementVolume (L.supply id)) ∧
        b'.forceSettledVolume - b.forceSettledVolume = L.supply id - L'.supply id := by
  have hL := Run.balanced h₀.balanced hrun
  have howned := Run.owned h₀.balanced h₀.owned hrun
  refine ⟨fun M hM call settle c s p most hc hs htype hbalance hbase hquote hmostType hmost => ?_,
    fun rounds L' h id b hb => ?_⟩
  · obtain ⟨hbalanced, hchanges⟩ := hM.keeps hL
    exact matchBounded hbalanced (hchanges.invariant (fun _ _ hN hc => hN.change hc) howned) hc hs
      htype hbalance hbase hquote hmostType hmost
  · obtain ⟨v, hv⟩ := clearExpiredOrders_volumes hL (Run.fed h₀.balanced h₀.fed hrun) h
    refine ⟨b.withVolume (v id), ?_, hv.bounded id b hb, ?_⟩
    · rw [hv.bitasset, hb]
      rfl
    · have hburned := hv.burned id b hb
      show v id - b.forceSettledVolume = _
      omega

/-- One of the borrowers asks for the settlement of forty dollars. -/
def askedDollars : Attempt Ledger :=
  (freshLedger 1600000000 [1000, 1000] [dollar]).perform 5
    [.callOrderUpdate ⟨⟨0, 0⟩, 0, ⟨300, 0⟩, ⟨100, 1⟩, none⟩,
      .callOrderUpdate ⟨⟨0, 0⟩, 1, ⟨180, 0⟩, ⟨55, 1⟩, none⟩, .assetSettle ⟨⟨0, 0⟩, 0, ⟨40, 1⟩⟩]

/-- A day later, a fifth of the dollars can be settled. -/
theorem force_settlement_bounded_dollars : ∃ L L' r b b', askedDollars = .ok L ∧
    L.matchCallAndSettle 0 0 ⟨⟨100, 1⟩, ⟨99, 0⟩⟩ ⟨31, 1⟩ = .ok r ∧ r.1.amount ≤ 31 ∧
    Ledger.clearExpiredOrders 9 { L with headBlockTime := 1600086400 } = .ok L' ∧
    L.bitasset 1 = .ok b ∧ L'.bitasset 1 = .ok b' ∧ b'.forceSettledVolume = 31 ∧
    b'.forceSettledVolume ≤ max b.forceSettledVolume (b.maxForceSettlementVolume (L.supply 1)) ∧
    b'.forceSettledVolume - b.forceSettledVolume = L.supply 1 - L'.supply 1 := by
  have hstate : askedDollars.toOption.any (fun L => L.headBlockTime ≤ 1600086400 ∧
      (L.callOrders.find 0).any (fun c => c.debtType = 1) ∧
      (L.settlements.find 0).any (fun s => s.balance = ⟨40, 1⟩) ∧
      (L.bitasset 1).toOption.any (fun _ => true) ∧
      (L.matchCallAndSettle 0 0 ⟨⟨100, 1⟩, ⟨99, 0⟩⟩ ⟨31, 1⟩).toOption.any (fun _ => true) ∧
      (Ledger.clearExpiredOrders 9 { L with headBlockTime := 1600086400 }).toOption.any fun L' =>
        (L'.bitasset 1).toOption.any fun b => b.forceSettledVolume = 31) = true := by
    decide +kernel
  obtain ⟨L, hL, hstate⟩ := exists_ok_of_any hstate
  obtain ⟨htime, hcall, hsettle, hbit, hmatch, hclear⟩ := of_decide_eq_true hstate
  obtain ⟨c, hc, htype⟩ := (Option.any_eq_true _ _).mp hcall
  obtain ⟨s, hs, hbalance⟩ := (Option.any_eq_true _ _).mp hsettle
  obtain ⟨b, hb, -⟩ := exists_ok_of_any hbit
  obtain ⟨r, hr, -⟩ := exists_ok_of_any hmatch
  obtain ⟨L', hL', hvolume⟩ := exists_ok_of_any hclear
  obtain ⟨b', hb', hvolume⟩ := exists_ok_of_any hvolume
  have hbalance' : s.balance = ⟨40, 1⟩ := of_decide_eq_true hbalance
  have hrun : Run (freshLedger 1600000000 [1000, 1000] [dollar])
      { L with headBlockTime := 1600086400 } :=
    (perform_run hL).tail (.advance L 1600086400 htime)
  obtain ⟨hmatches, -⟩ := force_settlement_bounded borrowedDollars_genesis (perform_run hL)
  obtain ⟨-, hclears⟩ := force_settlement_bounded borrowedDollars_genesis hrun
  obtain ⟨a, pays, -, -, -, htakes, -⟩ := (hmatches L .start 0 0 c s ⟨⟨100, 1⟩, ⟨99, 0⟩⟩
    ⟨31, 1⟩ hc hs
    (by rw [hbalance']; exact of_decide_eq_true htype) (by rw [hbalance']; decide) (by decide)
    (by decide) (by rw [hbalance']) (by decide)).takes r hr
  obtain ⟨d, hd, hbounded, hburned⟩ := hclears 9 L' hL' 1 b hb
  obtain rfl : b' = d := Except.ok.inj (hb'.symm.trans hd)
  exact ⟨L, L', r, b, b', hL, hr, htakes.trans ((min_le_left _ _).trans (min_le_right _ _)), hL',
    hb,
    hb', of_decide_eq_true hvolume, hbounded, hburned⟩

end Nestchain.Market
