import Nestchain.Market.Conservation

/-! The fund of a globally settled asset is enough for its supply until the asset is revived,
whatever is settled in between. -/

namespace Nestchain.Market

open Lib

namespace Ledger

variable {L L' : Ledger}

theorem adjustment_eq_zero {owner account : AccountId} {delta : Asset} {id : AssetId}
    (h : ¬(owner = account ∧ delta.assetId = id)) :
    (if owner = account then delta.amountIn id else 0) = 0 := by
  by_cases howner : owner = account
  · rw [if_pos howner, Asset.amountIn, if_neg fun hid => h ⟨howner, hid⟩]
  · rw [if_neg howner]

theorem adjustBalance_getBalance {account : AccountId} {delta : Asset}
    (h : L.adjustBalance account delta = .ok L') (owner : AccountId) (id : AssetId) :
    (L'.getBalance owner id).amount = (L.getBalance owner id).amount +
      if owner = account then delta.amountIn id else 0 := by
  unfold adjustBalance at h
  split at h
  · rename_i hzero
    obtain rfl := pure_eq_ok.mp h
    simp [Asset.amountIn, hzero]
  · split at h
    · -- a new balance, which no other account or asset finds
      rename_i hnone
      simp only [bind_eq_ok, require_eq_ok, exists_const, pure_eq_ok] at h
      obtain ⟨-, rfl⟩ := h
      simp only [getBalance, findBalance, Table.findBy_create]
      by_cases hkey : owner = account ∧ delta.assetId = id
      · obtain ⟨rfl, rfl⟩ := hkey
        rw [findBalance] at hnone
        rw [hnone]
        simp [Asset.amountIn]
      · have hrow : decide (account = owner ∧ delta.assetId = id) = false :=
          decide_eq_false fun hk => hkey ⟨hk.1.symm, hk.2⟩
        simp only [hrow, Bool.false_eq_true, if_false, Option.or_none, adjustment_eq_zero hkey,
          add_zero]
    · rename_i j b hfound
      simp only [bind_eq_ok, require_eq_ok, exists_const, pure_eq_ok] at h
      obtain ⟨-, rfl⟩ := h
      obtain ⟨hb, hkey⟩ := Table.findBy_some hfound
      obtain ⟨howner, hasset⟩ := of_decide_eq_true hkey
      have hset : (L.balances.set j { b with balance := b.balance + delta.amount }).findBy
          (fun c => decide (c.owner = owner ∧ c.assetType = id)) =
          (L.balances.findBy fun c => decide (c.owner = owner ∧ c.assetType = id)).map
            (Table.put j { b with balance := b.balance + delta.amount }) := Table.findBy_set hb rfl
      simp only [getBalance, findBalance]
      rw [hset]
      cases hother : L.balances.findBy fun c => decide (c.owner = owner ∧ c.assetType = id) with
      | none =>
        have hne : ¬(owner = account ∧ delta.assetId = id) := by
          rintro ⟨rfl, rfl⟩
          rw [findBalance, hother] at hfound
          cases hfound
        simp [adjustment_eq_zero hne]
      | some r =>
        obtain ⟨k, c⟩ := r
        obtain ⟨hc, hkey'⟩ := Table.findBy_some hother
        obtain ⟨howner', hasset'⟩ := of_decide_eq_true hkey'
        by_cases hk : k = j
        · subst hk
          obtain rfl : c = b := Option.some.inj (hc.symm.trans hb)
          simp [Table.put, Asset.amountIn, ← howner', ← hasset', howner, hasset]
        · have hne : ¬(owner = account ∧ delta.assetId = id) := by
            rintro ⟨rfl, rfl⟩
            rw [findBalance, hother] at hfound
            exact hk (congrArg Prod.fst (Option.some.inj hfound))
          simp [Table.put, hk, adjustment_eq_zero hne]

theorem getBalance_congr (h : L'.balances = L.balances) (owner : AccountId) (id : AssetId) :
    L'.getBalance owner id = L.getBalance owner id := by
  simp only [getBalance, findBalance, h]

end Ledger

open Ledger

variable {L L' : Ledger}

theorem BitassetData.Solvent.share_le {supply amount : Int} {b : BitassetData}
    (h : b.Solvent supply) (hB : 0 < b.settlementPrice.base.amount)
    (hQ : 0 ≤ b.settlementPrice.quote.amount) (hle : amount ≤ supply) :
    amount * b.settlementPrice.quote.amount / b.settlementPrice.base.amount ≤ b.settlementFund :=
  Int.ediv_le_of_le_mul hB ((mul_le_mul_of_nonneg_right hle hQ).trans h.enough)

namespace AssetSettle

variable {op : AssetSettle} {b : BitassetData}

/-- A settlement of a globally settled asset: what is paid and received, and what the account has
afterwards. -/
structure Settled (op : AssetSettle) (b : BitassetData) (L L' : Ledger) (pays settled : Int) :
    Prop where
  payout : Payout op b (L.supply op.amount.assetId) settled pays
  supply : L'.supply op.amount.assetId = L.supply op.amount.assetId - pays
  bitasset : L'.bitasset op.amount.assetId =
    .ok { b with settlementFund := b.settlementFund - settled }
  balance : ∀ id, (L'.getBalance op.account id).amount = (L.getBalance op.account id).amount +
    (Asset.mk settled b.options.shortBackingAsset).amountIn id -
    (Asset.mk pays op.amount.assetId).amountIn id - op.fee.amountIn id

theorem convertFee_balances {fee : Asset} {core : Int} (h : L.convertFee fee core = .ok L') :
    L'.balances = L.balances := by
  unfold Ledger.convertFee at h
  split at h
  · simp only [modifyDynamicData, modifyAsset, bind_eq_ok, pure_eq_ok] at h
    obtain ⟨-, -, rfl⟩ := h
    rfl
  · obtain rfl := pure_eq_ok.mp h
    rfl

theorem payFee_balances {account : AccountId} {core : Int} (h : L.payFee account core = .ok L') :
    L'.balances = L.balances := by
  simp only [payFee, modifyStatistics, bind_eq_ok, pure_eq_ok] at h
  obtain ⟨-, -, rfl⟩ := h
  rfl

theorem amountIn_neg (a : Asset) (id : AssetId) : a.neg.amountIn id = -a.amountIn id := by
  unfold Asset.amountIn Asset.neg
  split
  · rfl
  · exact neg_zero.symm

theorem apply_settled {skip : Bool} (hL : Balanced L) (hb : L.bitasset op.amount.assetId = .ok b)
    (hset : b.hasSettlement = true) (h : op.apply skip L = .ok L') :
    ∃ pays settled, Settled op b L L' pays settled := by
  simp only [apply, doEvaluate, applyWithFee, bind_eq_ok, require_eq_ok, exists_const] at h
  obtain ⟨hvalid, core, hcore, ⟨-, -, -, -, -, -, hbalance⟩, M1, h1, M2, h2, M3, h3, h4⟩ := h
  have hfee := evaluateFee_prepared hcore
  have hpays := ((convertFee_pays hfee h1).trans (payFee_pays hfee.core_nonneg h2)).congr
    (conversion_add hfee)
  have hM2 := hpays.turn hL.shape (OnAssets.credit op.fee)
  have hsupply : M2.supply op.amount.assetId = L.supply op.amount.assetId :=
    hpays.supply _ b hb hset
  simp only [doApply, asset, bind_eq_ok, demand_eq_ok] at h3
  obtain ⟨a, ha, b', hb', h3⟩ := h3
  obtain rfl : b' = b := Except.ok.inj (hb'.symm.trans ((hpays.bitasset _).trans hb))
  obtain ⟨a', ha', hab⟩ := bitasset_eq_ok.mp hb'
  obtain rfl : a' = a := Option.some.inj (ha'.symm.trans ha)
  rw [if_pos hset] at h3
  have hheld : op.amount.amount ≤ a'.dynamicData.currentSupply := by
    rw [← supply_of_find ha, hsupply]
    exact hbalance.trans (Balanced.balance_le_supply hL _ _)
  obtain ⟨settled, pays, N, P, hpayout, hN, hP, rfl⟩ :=
    settleFromFund_spec hM2.shape hvalid.2 hheld ha hab hset h3
  have hassets := adjustBalance_assets h4
  refine ⟨pays, settled, ?_, ?_, ?_, fun id => ?_⟩
  · rw [← hsupply, supply_of_find ha]
    exact hpayout
  · rw [supply_congr hassets, supply_set_self (L := { P with assets := M2.assets }) ha, ← hsupply,
      supply_of_find ha]
    rfl
  · refine bitasset_eq_ok.mpr ⟨settledAsset a' b' settled pays, ?_, rfl⟩
    rw [hassets]
    exact Table.find_set_self ha
  · have hstart : M2.balances = L.balances := (payFee_balances h2).trans (convertFee_balances h1)
    have hfinal := adjustBalance_getBalance h4 op.account id
    rw [if_pos rfl, amountIn_neg] at hfinal
    have hmid := adjustBalance_getBalance hP op.account id
    have hfirst := adjustBalance_getBalance hN op.account id
    rw [if_pos rfl] at hmid hfirst
    rw [amountIn_neg, getBalance_congr hstart] at hfirst
    rw [hfinal]
    change (P.getBalance op.account id).amount + _ = _
    rw [hmid, hfirst]
    omega

end AssetSettle

/-- In every ledger that a run reaches and for every asset that is globally settled in it, the fund
is enough for the supply, nothing is left of the fund when nothing is left of the supply, and in a
settlement the assertion on the fund holds, the account pays at most what it asked for and receives
at least the settlement price of what it pays, rounded down. -/
theorem global_settlement_solvent {L₀ : Ledger} {mia : AssetId} {b : BitassetData}
    (h₀ : Opening L₀) (h : Run L₀ L) (hb : L.bitasset mia = .ok b) (hset : b.hasSettlement = true) :
    L.supply mia * b.settlementPrice.quote.amount ≤
      b.settlementFund * b.settlementPrice.base.amount ∧
    (L.supply mia = 0 → b.settlementFund = 0) ∧
    ∀ op : AssetSettle, op.amount.assetId = mia →
      (∀ share, op.doEvaluate L = .ok () → op.amount.mul b.settlementPrice = .ok share →
        share.amount ≤ b.settlementFund) ∧
      ∀ skip L', op.apply skip L = .ok L' → ∃ pays settled,
        pays ≤ op.amount.amount ∧
        pays * b.settlementPrice.quote.amount / b.settlementPrice.base.amount ≤ settled ∧
        L'.supply mia = L.supply mia - pays ∧
        L'.bitasset mia = .ok { b with settlementFund := b.settlementFund - settled } ∧
        ∀ id, (L'.getBalance op.account id).amount = (L.getBalance op.account id).amount +
          (Asset.mk settled b.options.shortBackingAsset).amountIn id -
          (Asset.mk pays mia).amountIn id - op.fee.amountIn id := by
  have hL := h.balanced h₀.balanced
  have hsolvent := hL.shape.solvent mia b hb hset
  have hsound := hL.shape.bitassets mia b hb
  refine ⟨hsolvent.enough, hsolvent.emptied, ?_⟩
  rintro op rfl
  refine ⟨fun share heval hshare => ?_, fun skip L' happly => ?_⟩
  · simp only [AssetSettle.doEvaluate, bind_eq_ok, require_eq_ok] at heval
    obtain ⟨-, -, -, -, -, -, -, -, hbalance⟩ := heval
    rcases Asset.mul_cases hshare with ⟨-, -, hB, -, he⟩ | ⟨hne, -⟩
    · rw [he]
      exact hsolvent.share_le hB (hsound.quote_nonneg hset)
        (hbalance.trans (Balanced.balance_le_supply hL _ _))
    · exact absurd (hsound.base_asset hset).symm hne
  · obtain ⟨pays, settled, hsettled⟩ := AssetSettle.apply_settled hL hb hset happly
    exact ⟨pays, settled, hsettled.payout.pays_le, hsettled.payout.at_least, hsettled.supply,
      hsettled.bitasset, hsettled.balance⟩

/-- An asset that the second account issues, and a margin position in it that is settled
globally. -/
def dollar : AssetObject :=
  ⟨1, { tradingLedger.plainOptions with globalSettle := true }, ⟨0, 0, 0⟩,
    some ⟨⟨86400, 1, 86400, 100, 2000, coreAsset, Nat.one_pos, offset_le_100, volume_le_2000⟩,
      [⟨1, 1600000000, dollarFeed⟩], dollarFeed, false, 0, Price.null, 0⟩⟩
where
  dollarFeed : PriceFeed := ⟨⟨⟨1, 1⟩, ⟨1, coreAsset⟩⟩, 1750, 1100,
    PriceFeed.default.maintenance_range, squeeze_range_1100⟩

def settledDollars : Attempt Ledger :=
  (freshLedger 1600000000 [1000, 0] [dollar]).perform 5
    [.callOrderUpdate ⟨⟨0, 0⟩, 0, ⟨300, 0⟩, ⟨100, 1⟩, none⟩,
      .assetGlobalSettle ⟨⟨0, 0⟩, 1, 1, ⟨⟨2, 1⟩, ⟨3, 0⟩⟩⟩]

/-- The borrower settles 41 of the hundred, for 61 of the 150 in the fund. -/
def settleSome : AssetSettle := ⟨⟨0, 0⟩, 0, ⟨41, 1⟩⟩

theorem settledDollars_solvent : ∃ L b L' pays settled, settledDollars = .ok L ∧
    L.bitasset 1 = .ok b ∧ b.hasSettlement = true ∧ L.supply 1 = 100 ∧
    L.supply 1 * b.settlementPrice.quote.amount ≤
      b.settlementFund * b.settlementPrice.base.amount ∧
    (L.supply 1 = 0 → b.settlementFund = 0) ∧
    (∀ share, settleSome.amount.mul b.settlementPrice = .ok share →
      share.amount ≤ b.settlementFund) ∧
    settleSome.apply false L = .ok L' ∧ pays ≤ 41 ∧
    pays * b.settlementPrice.quote.amount / b.settlementPrice.base.amount ≤ settled ∧
    L'.supply 1 = L.supply 1 - pays ∧
    L'.bitasset 1 = .ok { b with settlementFund := b.settlementFund - settled } ∧
    (L'.getBalance 0 1).amount = (L.getBalance 0 1).amount - pays := by
  have hrun : settledDollars.toOption.any (fun L => (L.bitasset 1).toOption.any fun b =>
      (settleSome.doEvaluate L).toOption.any fun _ =>
        (settleSome.apply false L).toOption.any fun _ => b.hasSettlement = true ∧
          L.supply 1 = 100 ∧ b.options.shortBackingAsset = 0) = true := by decide +kernel
  obtain ⟨L, hL, hstate⟩ := exists_ok_of_any hrun
  obtain ⟨b, hb, hstate⟩ := exists_ok_of_any hstate
  obtain ⟨_, heval, hstate⟩ := exists_ok_of_any hstate
  obtain ⟨L', happly, hstate⟩ := exists_ok_of_any hstate
  obtain ⟨hset, hsupply, hbacking⟩ := of_decide_eq_true hstate
  have hopening : Opening (freshLedger 1600000000 [1000, 0] [dollar]) :=
    freshLedger_opening (by decide) (by decide)
  obtain ⟨henough, hemptied, hsettles⟩ :=
    global_settlement_solvent hopening (perform_run hL) hb hset
  obtain ⟨hshare, hpayout⟩ := hsettles settleSome rfl
  obtain ⟨pays, settled, hpays, hleast, hsupply', hbit, hbalance⟩ := hpayout false L' happly
  have hdollars := hbalance 1
  simp only [Asset.amountIn, hbacking, settleSome] at hdollars
  exact ⟨L, b, L', pays, settled, hL, hb, hset, hsupply, henough, hemptied,
    fun share => hshare share heval, happly, hpays, hleast, hsupply', hbit, by simpa using hdollars⟩

end Nestchain.Market
