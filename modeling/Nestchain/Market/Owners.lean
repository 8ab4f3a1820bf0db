import Nestchain.Market.Steps

/-! Every object belongs to an account that is there, and is in assets that are there. -/

namespace Nestchain.Market

open Lib

/-- The seller of an order, and the assets that it is in. -/
structure LimitOrder.Owned (accounts : Table Account) (assets : Table AssetObject)
    (o : LimitOrder) : Prop where
  seller : (accounts.find o.seller).isSome
  sell : (assets.find o.sellAssetId).isSome
  receive : (assets.find o.receiveAssetId).isSome
  paid : o.deferredPaidFee.amount ≠ 0 → (assets.find o.deferredPaidFee.assetId).isSome

structure Owned (L : Ledger) : Prop where
  issuers : ∀ id a, L.assets.find id = some a → (L.accounts.find a.issuer).isSome
  limitOrders : ∀ id o, L.limitOrders.find id = some o → o.Owned L.accounts L.assets
  borrowers : ∀ id c, L.callOrders.find id = some c → (L.accounts.find c.borrower).isSome
  bidders : ∀ id d, L.bids.find id = some d → (L.accounts.find d.bidder).isSome
  settlements : ∀ id s, L.settlements.find id = some s → ∃ b, L.bitasset s.balance.assetId = .ok b

variable {L L' : Ledger} {loose : Nat → Prop}

theorem LimitOrder.Owned.mono {o : LimitOrder} (h : o.Owned L.accounts L.assets)
    (haccounts : ∀ id, (L.accounts.find id).isSome → (L'.accounts.find id).isSome)
    (hassets : ∀ id, (L.assets.find id).isSome → (L'.assets.find id).isSome) :
    o.Owned L'.accounts L'.assets :=
  ⟨haccounts _ h.seller, hassets _ h.sell, hassets _ h.receive, fun hne => hassets _ (h.paid hne)⟩

theorem Owned.of_assets (h : Owned L)
    (haccounts : ∀ id, (L.accounts.find id).isSome → (L'.accounts.find id).isSome)
    (hassets : ∀ id, (L.assets.find id).isSome → (L'.assets.find id).isSome)
    (hissuers : ∀ id a, L'.assets.find id = some a → (L'.accounts.find a.issuer).isSome)
    (hbitassets : ∀ id b, L.bitasset id = .ok b → ∃ b', L'.bitasset id = .ok b')
    (hlimit : L'.limitOrders = L.limitOrders) (hcall : L'.callOrders = L.callOrders)
    (hsettle : L'.settlements = L.settlements) (hbids : L'.bids = L.bids) : Owned L' := by
  refine ⟨hissuers, fun id o ho => ?_, fun id c hc => ?_, fun id d hd => ?_, fun id s hs => ?_⟩
  · exact (h.limitOrders id o (hlimit ▸ ho)).mono haccounts hassets
  · exact haccounts _ (h.borrowers id c (hcall ▸ hc))
  · exact haccounts _ (h.bidders id d (hbids ▸ hd))
  · obtain ⟨b, hb⟩ := h.settlements id s (hsettle ▸ hs)
    exact hbitassets _ b hb

theorem Owned.funds (h : Owned L) (hfunds : Funds L L') : Owned L' := by
  refine h.of_assets hfunds.accounts (fun id => hfunds.asset) (fun id a ha => ?_)
    (fun id b hb => ?_) hfunds.limitOrders hfunds.callOrders hfunds.settlements hfunds.bids
  · have hterms := hfunds.assets id
    rw [ha, Option.map_some, eq_comm, Option.map_eq_some_iff] at hterms
    obtain ⟨a', ha', he⟩ := hterms
    have hissuer : a'.issuer = a.issuer := congrArg Prod.fst he
    exact hissuer ▸ hfunds.accounts _ (h.issuers id a' ha')
  · obtain ⟨b', hb', -⟩ := Ledger.bitasset_of_terms (hfunds.assets id) hb
    exact ⟨b', hb'⟩

theorem Owned.change (h : Owned L) (hchange : Change loose L L') : Owned L' := by
  cases hchange with
  | funds hfunds => exact h.funds hfunds
  | createLimitOrder o _ hseller hsell hreceive hpaid =>
    refine { h with limitOrders := fun id o' ho' => ?_ }
    rcases Table.find_create_iff.mp ho' with ho' | ⟨-, rfl⟩
    · exact h.limitOrders id o' ho'
    · exact ⟨hseller, hsell, hreceive, hpaid⟩
  | fillLimitOrder pays ho _ _ =>
    refine { h with limitOrders := fun id o' ho' => ?_ }
    rcases (Table.find_set_iff ho).mp ho' with ⟨rfl, rfl⟩ | ⟨-, ho'⟩
    · have hold := h.limitOrders id _ ho
      exact ⟨hold.seller, hold.sell, hold.receive, fun hne => absurd rfl hne⟩
    · exact h.limitOrders id o' ho'
  | removeLimitOrder j =>
    exact { h with limitOrders := fun id o ho => h.limitOrders id o (Table.find_remove_iff.mp ho).2 }
  | createCallOrder hb hborrower _ _ =>
    refine { h with borrowers := fun id c hc => ?_ }
    rcases Table.find_create_iff.mp hc with hc | ⟨-, rfl⟩
    · exact h.borrowers id c hc
    · rcases hborrower with hsome | ⟨j, d, hd, hbidder⟩ | ⟨j, a, ha, hissuer⟩
      · exact hsome
      · exact hbidder ▸ h.bidders j d hd
      · exact hissuer ▸ h.issuers j a ha
  | setCallOrder hc _ hborrower _ _ _ =>
    refine { h with borrowers := fun id c' hc' => ?_ }
    rcases (Table.find_set_iff hc).mp hc' with ⟨rfl, rfl⟩ | ⟨-, hc'⟩
    · rw [hborrower]
      exact h.borrowers id _ hc
    · exact h.borrowers id c' hc'
  | removeCallOrder j =>
    exact { h with borrowers := fun id c hc => h.borrowers id c (Table.find_remove_iff.mp hc).2 }
  | createSettlement s hb =>
    refine { h with settlements := fun id s' hs' => ?_ }
    rcases Table.find_create_iff.mp hs' with hs' | ⟨-, rfl⟩
    · exact h.settlements id s' hs'
    · exact ⟨_, hb⟩
  | setSettlement balance hs =>
    refine { h with settlements := fun id s' hs' => ?_ }
    rcases (Table.find_set_iff hs).mp hs' with ⟨rfl, rfl⟩ | ⟨-, hs'⟩
    · have hold := h.settlements id _ hs
      exact hold
    · exact h.settlements id s' hs'
  | removeSettlement j =>
    exact { h with settlements := fun id s hs => h.settlements id s (Table.find_remove_iff.mp hs).2 }
  | createBid d hbidder _ _ =>
    refine { h with bidders := fun id d' hd' => ?_ }
    rcases Table.find_create_iff.mp hd' with hd' | ⟨-, rfl⟩
    · exact h.bidders id d' hd'
    · exact hbidder
  | issuerBid d =>
    exact { h with bidders := fun id d hd => h.bidders id d (Table.find_remove_create.mp hd) }
  | removeBid j =>
    exact { h with bidders := fun id d hd => h.bidders id d (Table.find_remove_iff.mp hd).2 }

theorem isSome_find_set {α : Type} {t : Table α} {id j : Nat} {a x : α} (hx : t.find id = some x)
    (hj : (t.find j).isSome) : ((t.set id a).find j).isSome := by
  by_cases hid : j = id
  · subst hid
    rw [Table.find_set_self hx]
    rfl
  · rwa [Table.find_set_ne hid]

theorem Owned.setAsset {id : AssetId} {a a' : AssetObject} (h : Owned L)
    (ha : L.assets.find id = some a) (hissuer : (L.accounts.find a'.issuer).isSome)
    (hbit : ∀ b, a.bitassetData = some b → ∃ b', a'.bitassetData = some b') :
    Owned { L with assets := L.assets.set id a' } := by
  refine h.of_assets (fun _ h => h) (fun j hj => isSome_find_set ha hj) (fun j d hd => ?_)
    (fun j b hb => ?_) rfl rfl rfl rfl
  · rcases (Table.find_set_iff ha).mp hd with ⟨-, rfl⟩ | ⟨-, hd⟩
    · exact hissuer
    · exact h.issuers j d hd
  · by_cases hj : j = id
    · subst hj
      obtain ⟨d, hd, hdb⟩ := Ledger.bitasset_eq_ok.mp hb
      obtain rfl : a = d := Option.some.inj (ha.symm.trans hd)
      obtain ⟨b', hb'⟩ := hbit b hdb
      exact ⟨b', Ledger.bitasset_eq_ok.mpr ⟨a', Table.find_set_self ha, hb'⟩⟩
    · exact ⟨b, (Ledger.bitasset_set_ne hj).trans hb⟩

theorem Owned.adjustment (h : Owned L) (hadjust : Adjustment L L') : Owned L' := by
  cases hadjust with
  | feed published now ha hb _ =>
    have hissuer := h.issuers _ _ ha
    exact h.setAsset ha hissuer fun _ _ => ⟨_, rfl⟩
  | asset issuer options ha hissuer => exact h.setAsset ha hissuer fun b hb => ⟨b, hb⟩
  | bitasset options ha hb _ =>
    have hissuer := h.issuers _ _ ha
    exact h.setAsset ha hissuer fun _ _ => ⟨_, rfl⟩
  | time time => exact ⟨h.issuers, h.limitOrders, h.borrowers, h.bidders, h.settlements⟩
  | parameters parameters => exact ⟨h.issuers, h.limitOrders, h.borrowers, h.bidders, h.settlements⟩

theorem Opening.owned (h : Opening L)
    (hissuers : ∀ id a, L.assets.find id = some a → (L.accounts.find a.issuer).isSome) :
    Owned L := by
  refine ⟨hissuers, fun id o ho => ?_, fun id c hc => ?_, fun id d hd => ?_, fun id s hs => ?_⟩
  · exact absurd ((h.limitOrders id).symm.trans ho) (Option.some_ne_none _).symm
  · exact absurd ((h.callOrders id).symm.trans hc) (Option.some_ne_none _).symm
  · exact absurd ((h.bids id).symm.trans hd) (Option.some_ne_none _).symm
  · exact absurd ((h.settlements id).symm.trans hs) (Option.some_ne_none _).symm

theorem Run.owned (hL : Balanced L) (howned : Owned L) (h : Run L L') : Owned L' :=
  h.invariant hL (fun _ _ _ hM hc => hM.change hc) (fun _ _ hM ha => hM.adjustment ha) howned

end Nestchain.Market
