import Nestchain.Confidential.Operations
import Nestchain.Market.Charges

/-! What confidential operations do to the two sides of the books.  In public an operation moves
money between balances, fees, accumulators and the confidential supplies, and what it adds comes to
nothing; out of sight it spends some balances and creates others. -/

namespace Nestchain.Confidential

open Lib Market

variable {C : Type}

/-! ### The public side -/

/-- The confidential supplies, on the lines of the assets. -/
def State.confidential (s : State C) : Books
  | .asset id => s.confidentialSupply id
  | _ => 0

def State.fbaFees (s : State C) : Int :=
  s.accumulatedFbaFees .transferToBlind + s.accumulatedFbaFees .blindTransfer +
    s.accumulatedFbaFees .transferFromBlind

def State.books (s : State C) : Books :=
  s.ledger.books + credit ⟨s.fbaFees, coreAsset⟩ + s.confidential

/-- Public balances, fees and the confidential supply of an asset. -/
def State.total (s : State C) (id : AssetId) : Int :=
  s.ledger.totalBalance id + (Asset.mk s.fbaFees coreAsset).amountIn id + s.confidentialSupply id

theorem State.books_asset (s : State C) (id : AssetId) :
    s.books (.asset id) = s.total id - s.ledger.supply id := by
  simp only [books, Pi.add_apply, Ledger.books_asset, credit_asset, confidential, total]
  omega

theorem State.confidentialSupply_le {s : State C} (hs : Shape s.ledger)
    (hfees : ∀ fba, 0 ≤ s.accumulatedFbaFees fba)
    (id : AssetId) : s.confidentialSupply id ≤ s.total id := by
  have hheld : 0 ≤ s.ledger.totalBalance id := by
    refine le_trans (Table.sum_nonneg fun j b hb => ?_) (Ledger.balances_le_totalBalance hs id)
    exact Asset.amountIn_nonneg id (hs.nonneg.balances j b hb)
  have hfba : 0 ≤ (Asset.mk s.fbaFees coreAsset).amountIn id :=
    Asset.amountIn_nonneg id (add_nonneg (add_nonneg (hfees _) (hfees _)) (hfees _))
  unfold total
  omega

/-- Money has moved in public, and the books have `δ` more. -/
structure Moves (s s' : State C) (δ : Books) : Prop where
  books : s'.books = s.books + δ
  shape : Shape s.ledger → Shape s'.ledger
  supply : ∀ id, s'.ledger.supply id = s.ledger.supply id
  fees : (∀ fba, 0 ≤ s.accumulatedFbaFees fba) → ∀ fba, 0 ≤ s'.accumulatedFbaFees fba

namespace Moves

variable {s s₁ s' : State C} {δ ε : Books}

theorem trans (h : Moves s s₁ δ) (h' : Moves s₁ s' ε) : Moves s s' (δ + ε) :=
  ⟨by rw [h'.books, h.books, add_assoc], fun hs => h'.shape (h.shape hs),
    fun id => (h'.supply id).trans (h.supply id), fun hf => h'.fees (h.fees hf)⟩

theorem congr (h : Moves s s' δ) (he : δ = ε) : Moves s s' ε := he ▸ h

theorem of_pays {L : Ledger} (h : Pays s.ledger L δ) (hδ : OnAssets δ)
    (hsupply : ∀ id, L.supply id = s.ledger.supply id) : Moves s { s with ledger := L } δ := by
  refine ⟨?_, fun hs => (h.turn hs hδ).shape, hsupply, fun hf => hf⟩
  simp only [State.books, State.fbaFees, h.books]
  show s.ledger.books + δ + _ + s.confidential = _
  abel

theorem withBlinded (h : Moves s s' δ) (t : Table (BlindedBalance C)) :
    Moves s { s' with blinded := t } δ := ⟨h.books, h.shape, h.supply, h.fees⟩

end Moves

theorem supply_of_assets {L L' : Ledger} (h : L'.assets = L.assets) (id : AssetId) :
    L'.supply id = L.supply id := by
  unfold Ledger.supply
  rw [h]

variable {s s' : State C}

theorem State.adjustBalance_moves {account : AccountId} {delta : Asset}
    (h : s.adjustBalance account delta = .ok s') :
    Moves s s' (credit delta) ∧ s'.confidentialSupply = s.confidentialSupply ∧
      s'.blinded = s.blinded := by
  simp only [adjustBalance, bind_eq_ok, pure_eq_ok] at h
  obtain ⟨L, hL, rfl⟩ := h
  exact ⟨.of_pays (Ledger.adjustBalance_pays hL) (.credit delta)
    (supply_of_assets (Ledger.adjustBalance_assets hL)), rfl, rfl⟩

theorem State.convertFee_moves {fee : Asset} {core : Int} {L : Ledger}
    (hfee : Ledger.FeePrepared s.ledger fee core) (h : s.ledger.convertFee fee core = .ok L) :
    Moves s { s with ledger := L } (Ledger.conversion fee core) := by
  have hon : OnAssets (Ledger.conversion fee core) := by
    unfold Ledger.conversion
    split
    · exact (OnAssets.credit _).sub (OnAssets.credit _)
    · exact OnAssets.zero
  refine .of_pays (Ledger.convertFee_pays hfee h) hon fun id => ?_
  unfold Ledger.convertFee at h
  split at h
  · simp only [Ledger.modifyDynamicData, Ledger.modifyAsset, Ledger.asset, bind_eq_ok, demand_eq_ok,
      pure_eq_ok] at h
    obtain ⟨a, ha, rfl⟩ := h
    by_cases hid : id = fee.assetId
    · subst hid
      rw [Ledger.supply_set_self ha, Ledger.supply_of_find ha]
    · exact Ledger.supply_set_ne _ hid
  · obtain rfl := pure_eq_ok.mp h
    rfl

theorem State.payFbaFee_moves {fba : Fba} {account : AccountId} {core : Int} (hcore : 0 ≤ core)
    (h : s.payFbaFee fba account core = .ok s') :
    Moves s s' (credit ⟨core, coreAsset⟩) ∧ s'.confidentialSupply = s.confidentialSupply ∧
      s'.blinded = s.blinded := by
  unfold payFbaFee at h
  split at h
  · obtain rfl := pure_eq_ok.mp h
    refine ⟨⟨?_, fun hs => hs, fun _ => rfl, fun hf other => ?_⟩, rfl, rfl⟩
    · have hfees : State.fbaFees { s with
          accumulatedFbaFees :=
            Function.update s.accumulatedFbaFees fba (s.accumulatedFbaFees fba + core) } =
          s.fbaFees + core := by
        unfold fbaFees
        cases fba <;> simp [Function.update] <;> omega
      unfold books
      rw [hfees, credit_add]
      show s.ledger.books + _ + s.confidential = _
      abel
    · by_cases ho : other = fba
      · subst ho
        have := hf other
        simp only [Function.update_self]
        omega
      · simp only [Function.update_of_ne ho]
        exact hf other
  · simp only [bind_eq_ok, pure_eq_ok] at h
    obtain ⟨L, hL, rfl⟩ := h
    refine ⟨.of_pays (Ledger.payFee_pays hcore hL) (.credit _) (supply_of_assets ?_), rfl, rfl⟩
    simp only [Ledger.payFee, Ledger.modifyStatistics, bind_eq_ok, pure_eq_ok] at hL
    obtain ⟨a, -, rfl⟩ := hL
    rfl

theorem State.addConfidential_moves {id : AssetId} {delta : Int}
    (h : s.addConfidential id delta = .ok s') :
    Moves s s' (credit ⟨delta, id⟩) ∧
      s'.confidentialSupply = Function.update s.confidentialSupply id
        (s.confidentialSupply id + delta) ∧
      0 ≤ s.confidentialSupply id + delta ∧ s'.blinded = s.blinded := by
  simp only [addConfidential, share, bind_eq_ok, require_eq_ok, exists_const, pure_eq_ok] at h
  obtain ⟨-, -, supply, ⟨-, rfl⟩, hnonneg, rfl⟩ := h
  refine ⟨⟨?_, fun hs => hs, fun _ => rfl, fun hf => hf⟩, rfl, hnonneg, rfl⟩
  have hconfidential : State.confidential { s with
      confidentialSupply :=
        Function.update s.confidentialSupply id (s.confidentialSupply id + delta) } =
      s.confidential + credit ⟨delta, id⟩ := by
    funext line
    cases line with
    | asset k =>
      rw [Pi.add_apply, credit_asset, Asset.amountIn]
      by_cases hk : k = id
      · subst hk
        simp [confidential]
      · simp [confidential, Function.update_of_ne hk, Ne.symm hk]
    | debt k => simp [confidential]
    | core k => simp [confidential, credit, entry_apply]
  unfold books
  rw [hconfidential]
  show s.ledger.books + credit ⟨s.fbaFees, coreAsset⟩ + _ = _
  abel

theorem State.applyWithFee_moves {fba : Fba} {account : AccountId} {fee : Asset} {core : Int}
    {doApply : State C → Attempt (State C)} (hfee : Ledger.FeePrepared s.ledger fee core)
    (h : s.applyWithFee fba account fee core doApply = .ok s') :
    ∃ s₁ s₂, Moves s s₁ (credit fee) ∧ s₁.confidentialSupply = s.confidentialSupply ∧
      s₁.blinded = s.blinded ∧ doApply s₁ = .ok s₂ ∧ Moves s₂ s' (-credit fee) ∧
      s'.confidentialSupply = s₂.confidentialSupply ∧ s'.blinded = s₂.blinded := by
  simp only [applyWithFee, bind_eq_ok] at h
  obtain ⟨L, hL, s₁, hpay, s₂, hdo, hadjust⟩ := h
  obtain ⟨hmoves, hsupply, hblinded⟩ := payFbaFee_moves hfee.core_nonneg hpay
  obtain ⟨hmoves', hsupply', hblinded'⟩ := adjustBalance_moves hadjust
  refine ⟨s₁, s₂, ?_, hsupply, hblinded, hdo, hmoves'.congr (credit_neg fee), hsupply', hblinded'⟩
  exact ((convertFee_moves hfee hL).trans hmoves).congr (Ledger.conversion_add hfee)

/-! ### The hidden side -/

variable [LinearOrder C]

def State.commitments (s : State C) : List C := s.blinded.records.map BlindedBalance.commitment

/-- What an operation does out of sight: it spends balances in an asset and creates others, and the
confidential supply grows by `net`. -/
structure Effect (s s' : State C) (id : AssetId) (inputs outputs : List C) (net : Int) : Prop where
  supply : s'.confidentialSupply =
    Function.update s.confidentialSupply id (s.confidentialSupply id + net)
  nonneg : 0 ≤ s.confidentialSupply id + net
  balances : ∃ spent kept created : List (BlindedBalance C),
    spent.map BlindedBalance.commitment = inputs ∧ created.map BlindedBalance.commitment = outputs ∧
    (∀ b ∈ spent, b.assetId = id) ∧ (∀ b ∈ created, b.assetId = id) ∧
    s.blinded.records.Perm (spent ++ kept) ∧ s'.blinded.records.Perm (kept ++ created)
  unique : s'.commitments.Nodup

theorem findCommitment_some {t : Table (BlindedBalance C)} {c : C} {r : Nat × BlindedBalance C}
    (h : findCommitment t c = some r) : t.find r.1 = some r.2 ∧ r.2.commitment = c := by
  have hfound : t.find r.1 = some r.2 ∧ decide (r.2.commitment = c) = true := Table.findBy_some h
  exact ⟨hfound.1, of_decide_eq_true hfound.2⟩

theorem forM_ok {α : Type} {f : α → Attempt Unit} {l : List α} {u : Unit}
    (h : l.forM f = .ok u) : ∀ a ∈ l, f a = .ok () := by
  induction l with
  | nil => exact fun _ ha => nomatch ha
  | cons a l ih =>
    obtain ⟨v, hv, h⟩ := bind_eq_ok.mp (show (f a >>= fun _ => l.forM f) = .ok u from h)
    intro b hb
    rcases List.mem_cons.mp hb with rfl | hb
    · exact hv
    · exact ih h b hb

theorem foldlM_spend {inputs : List (BlindInput C)} {t t' : Table (BlindedBalance C)}
    (h : inputs.foldlM spend t = .ok t') :
    ∃ spent : List (BlindedBalance C),
      spent.map BlindedBalance.commitment = inputs.map BlindInput.commitment ∧
        t.records.Perm (spent ++ t'.records) := by
  induction inputs generalizing t with
  | nil =>
    rw [List.foldlM_nil, pure_eq_ok] at h
    exact ⟨[], rfl, by rw [h]; exact List.Perm.refl _⟩
  | cons i inputs ih =>
    simp only [List.foldlM_cons, bind_eq_ok, spend, demand_eq_ok, pure_eq_ok] at h
    obtain ⟨t₁, ⟨r, hr, rfl⟩, h⟩ := h
    obtain ⟨hfind, hkey⟩ := findCommitment_some hr
    obtain ⟨spent, hspent, hperm⟩ := ih h
    refine ⟨r.2 :: spent, by rw [List.map_cons, List.map_cons, hkey, hspent], ?_⟩
    exact (Table.records_remove hfind).trans (hperm.cons r.2)

theorem foldlM_spend_evaluated {id : AssetId} {inputs : List (BlindInput C)}
    {t : Table (BlindedBalance C)} (hunique : s.commitments.Nodup)
    (heval : evaluateInputs inputs id s = .ok ()) (h : inputs.foldlM spend s.blinded = .ok t) :
    (t.records.map BlindedBalance.commitment).Nodup ∧ ∃ spent : List (BlindedBalance C),
      spent.map BlindedBalance.commitment = inputs.map BlindInput.commitment ∧
        (∀ b ∈ spent, b.assetId = id) ∧ s.blinded.records.Perm (spent ++ t.records) := by
  obtain ⟨spent, hspent, hperm⟩ := foldlM_spend h
  refine ⟨?_, spent, hspent, fun b hb => ?_, hperm⟩
  · have hmap := (hperm.map BlindedBalance.commitment).nodup_iff.mp hunique
    rw [List.map_append] at hmap
    exact hmap.of_append_right
  · have hcommitment := List.mem_map_of_mem (f := BlindedBalance.commitment) hb
    rw [hspent] at hcommitment
    obtain ⟨i, hi, he⟩ := List.mem_map.mp hcommitment
    have hfound := forM_ok heval i hi
    simp only [bind_eq_ok, demand_eq_ok, require_eq_ok, exists_const] at hfound
    obtain ⟨r, hr, hasset, -⟩ := hfound
    obtain ⟨hfind, hkey⟩ := findCommitment_some hr
    have hsame := List.inj_on_of_nodup_map hunique (hperm.mem_iff.mpr (List.mem_append_left _ hb))
      (Table.mem_records.mpr ⟨r.1, hfind⟩) (he.symm.trans hkey.symm)
    rw [hsame, hasset]

theorem foldlM_issue {id : AssetId} {outputs : List (BlindOutput C)}
    {t t' : Table (BlindedBalance C)}
    (hunique : (t.records.map BlindedBalance.commitment).Nodup)
    (h : outputs.foldlM (issue id) t = .ok t') :
    (t'.records.map BlindedBalance.commitment).Nodup ∧ ∃ created : List (BlindedBalance C),
      created.map BlindedBalance.commitment = outputs.map BlindOutput.commitment ∧
        (∀ b ∈ created, b.assetId = id) ∧ t'.records = t.records ++ created := by
  induction outputs generalizing t with
  | nil =>
    rw [List.foldlM_nil, pure_eq_ok] at h
    subst h
    exact ⟨hunique, [], rfl, List.forall_mem_nil _, (List.append_nil _).symm⟩
  | cons out outputs ih =>
    simp only [List.foldlM_cons, bind_eq_ok, issue, require_eq_ok, exists_const, pure_eq_ok] at h
    obtain ⟨t₁, ⟨hnone, rfl⟩, h⟩ := h
    have hnew : out.commitment ∉ t.records.map BlindedBalance.commitment := by
      intro hmem
      obtain ⟨b, hb, hcommitment⟩ := List.mem_map.mp hmem
      obtain ⟨k, hk⟩ := Table.mem_records.mp hb
      exact Table.findBy_none (Option.isNone_iff_eq_none.mp hnone) hk (decide_eq_true hcommitment)
    have hunique₁ : ((t.create ⟨out.commitment, id, out.owner⟩).records.map
        BlindedBalance.commitment).Nodup := by
      rw [Table.records_create, List.map_append, List.nodup_append]
      refine ⟨hunique, List.nodup_singleton _, fun a ha b hb => ?_⟩
      obtain rfl := List.mem_singleton.mp hb
      intro he
      rw [show a = out.commitment from he] at ha
      exact hnew ha
    obtain ⟨hunique', created, hcreated, hasset, hrecords⟩ := ih hunique₁ h
    refine ⟨hunique', ⟨out.commitment, id, out.owner⟩ :: created, ?_, ?_, ?_⟩
    · rw [List.map_cons, List.map_cons, hcreated]
    · intro b hb
      rcases List.mem_cons.mp hb with rfl | hb
      · rfl
      · exact hasset b hb
    · rw [hrecords, Table.records_create, List.append_assoc]
      rfl

end Nestchain.Confidential
