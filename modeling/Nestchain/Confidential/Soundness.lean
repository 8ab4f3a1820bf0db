import Nestchain.Confidential.Moves
import Nestchain.Market.Conservation

/-! Soundness of blinded balances.  The values behind the commitments of an operation add up modulo
the order of the group, and they add up as numbers when none of them is out of range.  Nothing in
the code keeps them in range but the header of a range proof, which says nothing of the commitment
beside it; so the invariant is proved of the operations whose proofs are genuine, and whose fees are
covered by what they spend. -/

namespace Nestchain.Confidential

open Lib Market

variable {C : Type} {E : Ecc C} {s s' : State C}

/-! ### The values behind the commitments -/

/-- The values of the live balances in an asset. -/
def blindedValue (E : Ecc C) (id : AssetId) (l : List (BlindedBalance C)) : Int :=
  E.valueOf ((l.filter fun b => b.assetId = id).map BlindedBalance.commitment)

theorem Ecc.valueOf_append (E : Ecc C) (l l' : List C) :
    E.valueOf (l ++ l') = E.valueOf l + E.valueOf l' := by
  simp only [valueOf, List.map_append, List.sum_append]

theorem Ecc.valueOf_nonneg (E : Ecc C) (l : List C) : 0 ≤ E.valueOf l := by
  refine List.sum_nonneg fun x hx => ?_
  obtain ⟨c, -, rfl⟩ := List.mem_map.mp hx
  exact Int.natCast_nonneg _

theorem Ecc.value_le_valueOf {l : List C} {c : C} (hc : c ∈ l) :
    (E.value c : Int) ≤ E.valueOf l := by
  induction l with
  | nil => cases hc
  | cons d l ih =>
    have hnonneg := E.valueOf_nonneg l
    have hcons : E.valueOf (d :: l) = E.value d + E.valueOf l := by
      simp only [valueOf, List.map_cons, List.sum_cons]
    rcases List.mem_cons.mp hc with rfl | hc
    · omega
    · have := ih hc
      omega

theorem Ecc.valueOf_le {l : List C} {m : Int} (h : ∀ c ∈ l, (E.value c : Int) ≤ m) :
    E.valueOf l ≤ l.length * m := by
  induction l with
  | nil => simp [valueOf]
  | cons c l ih =>
    have hrest := ih fun d hd => h d (List.mem_cons_of_mem _ hd)
    have hfirst := h c List.mem_cons_self
    simp only [valueOf, List.map_cons, List.sum_cons, List.length_cons] at hrest ⊢
    rw [Nat.cast_add, add_mul]
    omega

theorem Ecc.eq_of_sub_emod {x y : Int} (h : (x - y) % E.order = 0) (hx : 0 ≤ x) (hx' : x < E.order)
    (hy : 0 ≤ y) (hy' : y < E.order) : x = y := by
  have hmod := Int.emod_eq_emod_iff_emod_sub_eq_zero.mpr h
  rwa [Int.emod_eq_of_lt hx hx', Int.emod_eq_of_lt hy hy'] at hmod

section

variable {id : AssetId} {l l' : List (BlindedBalance C)}

theorem blindedValue_append : blindedValue E id (l ++ l') =
    blindedValue E id l + blindedValue E id l' := by
  simp only [blindedValue, List.filter_append, List.map_append, Ecc.valueOf_append]

theorem blindedValue_perm (h : l.Perm l') : blindedValue E id l = blindedValue E id l' :=
  ((((h.filter _).map _).map _)).sum_eq

theorem blindedValue_nonneg : 0 ≤ blindedValue E id l := E.valueOf_nonneg _

theorem blindedValue_self (h : ∀ b ∈ l, b.assetId = id) :
    blindedValue E id l = E.valueOf (l.map BlindedBalance.commitment) := by
  unfold blindedValue
  rw [List.filter_eq_self.mpr fun b hb => decide_eq_true (h b hb)]

theorem blindedValue_other {k : AssetId} (hk : k ≠ id) (h : ∀ b ∈ l, b.assetId = id) :
    blindedValue E k l = 0 := by
  unfold blindedValue
  rw [List.filter_eq_nil_iff.mpr fun b hb => by simpa [h b hb] using Ne.symm hk]
  rfl

end

/-! ### Range proofs -/

/-- The range proofs of several outputs are genuine: each commitment is to a value in the range that
the header of its proof states. -/
def Genuine (E : Ecc C) (outputs : List (BlindOutput C)) : Prop :=
  1 < outputs.length → ∀ out ∈ outputs, ∀ info,
    E.rangeGetInfo out.rangeProof = .ok info → E.value out.commitment ≤ info.maxValue

theorem Genuine.valueOf_le {outputs : List (BlindOutput C)} (h : Genuine E outputs)
    (hmany : 1 < outputs.length) (hlength : outputs.length < 2 ^ 32)
    (hproofs : checkRangeProofs E outputs = .ok ()) :
    E.valueOf (outputs.map BlindOutput.commitment) ≤ 2 ^ 32 * maxShareSupply := by
  rw [checkRangeProofs, if_pos hmany] at hproofs
  have hle : ∀ c ∈ outputs.map BlindOutput.commitment, (E.value c : Int) ≤ maxShareSupply := by
    intro c hc
    obtain ⟨out, hout, rfl⟩ := List.mem_map.mp hc
    have hproof := forM_ok hproofs out hout
    simp only [bind_eq_ok, require_eq_ok] at hproof
    obtain ⟨info, hinfo, hmax⟩ := hproof
    have hvalue := h hmany out hout info hinfo
    omega
  refine (E.valueOf_le hle).trans ?_
  rw [List.length_map]
  refine mul_le_mul_of_nonneg_right ?_ (by decide)
  omega

theorem Ecc.valueOf_single_lt {outputs : List (BlindOutput C)} (h : outputs.length = 1) :
    E.valueOf (outputs.map BlindOutput.commitment) < E.order := by
  obtain ⟨out, rfl⟩ := List.length_eq_one_iff.mp h
  have := E.value_lt out.commitment
  simp only [valueOf, List.map_cons, List.map_nil, List.sum_cons, List.sum_nil]
  omega

/-! ### Sound states -/

/-- The state is sound, and holds what the state at the start held. -/
structure Sound (E : Ecc C) (start s : State C) : Prop where
  shape : Shape s.ledger
  fees : ∀ fba, 0 ≤ s.accumulatedFbaFees fba
  conserved : ∀ id, s.total id = start.total id
  supply : ∀ id, s.confidentialSupply id = blindedValue E id s.blinded.records
  unique : s.commitments.Nodup

/-- A state without blinded balances, with no more of an asset than there can be. -/
structure State.Unblinded (s : State C) : Prop where
  shape : Shape s.ledger
  fees : ∀ fba, 0 ≤ s.accumulatedFbaFees fba
  capped : ∀ id, s.total id ≤ maxShareSupply
  supply : ∀ id, s.confidentialSupply id = 0
  none : s.blinded.rows = []

theorem State.Unblinded.sound (h : s.Unblinded) : Sound E s s := by
  have hrecords : s.blinded.records = [] := by rw [Table.records, h.none, List.map_nil]
  refine ⟨h.shape, h.fees, fun _ => rfl, fun id => ?_, ?_⟩
  · rw [h.supply, hrecords]
    rfl
  · rw [State.commitments, hrecords]
    exact List.nodup_nil

theorem Sound.supply_le {start : State C} (h : Sound E start s)
    (hcapped : ∀ id, start.total id ≤ maxShareSupply)
    (id : AssetId) : s.confidentialSupply id ≤ maxShareSupply :=
  (State.confidentialSupply_le h.shape h.fees id).trans (h.conserved id ▸ hcapped id)

variable [LinearOrder C]

/-! ### What an operation does -/

namespace Operation

/-- The asset of the balances that an operation spends or creates. -/
def asset : Operation C → AssetId
  | transferToBlind op => op.amount.assetId
  | transferFromBlind op => op.fee.assetId
  | blindTransfer op => op.fee.assetId

/-- What an operation adds to the confidential supply. -/
def net : Operation C → Int
  | transferToBlind op => op.amount.amount
  | transferFromBlind op => -(op.amount.amount + op.fee.amount)
  | blindTransfer op => -op.fee.amount

end Operation

theorem TransferToBlind.doApply_effect {op : TransferToBlind C} (hunique : s.commitments.Nodup)
    (h : op.doApply s = .ok s') :
    Moves s s' 0 ∧ Effect s s' op.amount.assetId [] (op.outputs.map BlindOutput.commitment)
      op.amount.amount := by
  simp only [doApply, State.issue, bind_eq_ok, pure_eq_ok] at h
  obtain ⟨s₁, h₁, s₂, h₂, t, ht, rfl⟩ := h
  obtain ⟨hmoves₁, hsupply₁, hblinded₁⟩ := State.adjustBalance_moves h₁
  obtain ⟨hmoves₂, hsupply₂, hnonneg, hblinded₂⟩ := State.addConfidential_moves h₂
  rw [hblinded₂, hblinded₁] at ht
  rw [hsupply₁] at hsupply₂ hnonneg
  obtain ⟨hunique', created, hcreated, hasset, happend⟩ := foldlM_issue hunique ht
  refine ⟨((hmoves₁.trans hmoves₂).withBlinded t).congr ?_, hsupply₂, hnonneg, ?_, hunique'⟩
  · rw [credit_neg]
    exact neg_add_cancel _
  · exact ⟨[], s.blinded.records, created, rfl, hcreated, List.forall_mem_nil _, hasset,
      List.Perm.refl _, List.Perm.of_eq happend⟩

theorem TransferFromBlind.doApply_effect {op : TransferFromBlind C} (hunique : s.commitments.Nodup)
    (hasset : op.amount.assetId = op.fee.assetId)
    (heval : evaluateInputs op.inputs op.fee.assetId s = .ok ()) (h : op.doApply s = .ok s') :
    Moves s s' 0 ∧ Effect s s' op.fee.assetId (op.inputs.map BlindInput.commitment) []
      (-(op.amount.amount + op.fee.amount)) := by
  simp only [doApply, State.spend, share, bind_eq_ok, require_eq_ok, exists_const, pure_eq_ok] at h
  obtain ⟨s₁, h₁, s₂, h₂, -, ⟨t, ht, rfl⟩, total, ⟨-, rfl⟩, h₃⟩ := h
  obtain ⟨hmoves₁, hsupply₁, hblinded₁⟩ := State.adjustBalance_moves h₁
  obtain ⟨hmoves₂, hsupply₂, hblinded₂⟩ := State.adjustBalance_moves h₂
  obtain ⟨hmoves₃, hsupply₃, hnonneg, hblinded₃⟩ := State.addConfidential_moves h₃
  rw [hblinded₂, hblinded₁] at ht
  simp only [hsupply₂, hsupply₁, hasset] at hsupply₃ hnonneg
  obtain ⟨hunique', spent, hspent, hspentAsset, hperm⟩ := foldlM_spend_evaluated hunique heval ht
  have hrecords : s'.blinded = t := hblinded₃
  refine ⟨(((hmoves₁.trans hmoves₂).withBlinded t).trans hmoves₃).congr ?_, hsupply₃, hnonneg,
    ⟨spent, t.records, [], hspent, rfl, hspentAsset, List.forall_mem_nil _, hperm, ?_⟩, ?_⟩
  · have hfee : credit op.fee = credit ⟨op.fee.amount, op.amount.assetId⟩ := by rw [hasset]
    have hneg := credit_neg ⟨op.amount.amount + op.fee.amount, op.amount.assetId⟩
    rw [hfee, show credit ⟨-(op.amount.amount + op.fee.amount), op.amount.assetId⟩ = _ from hneg,
      credit_add]
    show _ + credit ⟨op.amount.amount, op.amount.assetId⟩ + _ = _
    abel
  · rw [hrecords, List.append_nil]
  · unfold State.commitments
    rwa [hrecords]

theorem BlindTransfer.doApply_effect {op : BlindTransfer C} (hunique : s.commitments.Nodup)
    (heval : evaluateInputs op.inputs op.fee.assetId s = .ok ()) (h : op.doApply s = .ok s') :
    Moves s s' 0 ∧ Effect s s' op.fee.assetId (op.inputs.map BlindInput.commitment)
      (op.outputs.map BlindOutput.commitment) (-op.fee.amount) := by
  simp only [doApply, State.spend, State.issue, bind_eq_ok, pure_eq_ok] at h
  obtain ⟨s₁, h₁, -, ⟨t, ht, rfl⟩, -, ⟨t', ht', rfl⟩, h₂⟩ := h
  obtain ⟨hmoves₁, hsupply₁, hblinded₁⟩ := State.adjustBalance_moves h₁
  obtain ⟨hmoves₂, hsupply₂, hnonneg, hblinded₂⟩ := State.addConfidential_moves h₂
  rw [hblinded₁] at ht
  simp only [hsupply₁] at hsupply₂ hnonneg
  obtain ⟨hleft, spent, hspent, hspentAsset, hperm⟩ := foldlM_spend_evaluated hunique heval ht
  obtain ⟨hunique', created, hcreated, hasset, happend⟩ := foldlM_issue hleft ht'
  have hrecords : s'.blinded = t' := hblinded₂
  refine ⟨((hmoves₁.withBlinded t').trans hmoves₂).congr ?_, hsupply₂, hnonneg,
    ⟨spent, t.records, created, hspent, hcreated, hspentAsset, hasset, hperm, ?_⟩, ?_⟩
  · exact (congrArg (credit op.fee + ·) (credit_neg op.fee)).trans (add_neg_cancel _)
  · rw [hrecords, happend]
  · unfold State.commitments
    rwa [hrecords]

namespace Operation

/-- What is known of an operation that was accepted. -/
structure Accepted (E : Ecc C) (op : Operation C) (s s' : State C) : Prop where
  valid : op.validate E = .ok ()
  fee_nonneg : 0 ≤ op.fee.amount
  moves : Moves s s' 0
  effect : Effect s s' op.asset op.inputs op.outputs op.net

theorem doApply_effect {op : Operation C} {s₀ : State C} (hblinded : s.blinded = s₀.blinded)
    (hvalid : op.validate E = .ok ()) (hunique : s.commitments.Nodup)
    (heval : op.doEvaluate s₀ = .ok ()) (h : op.doApply s = .ok s') :
    Moves s s' 0 ∧ Effect s s' op.asset op.inputs op.outputs op.net := by
  have hinputs : ∀ {inputs : List (BlindInput C)} {id : AssetId},
      evaluateInputs inputs id s₀ = .ok () → evaluateInputs inputs id s = .ok () := by
    intro inputs id he
    unfold evaluateInputs at he ⊢
    rwa [hblinded]
  cases op with
  | transferToBlind op => exact op.doApply_effect hunique h
  | transferFromBlind op =>
    simp only [validate, TransferFromBlind.validate, bind_eq_ok, require_eq_ok,
      exists_const] at hvalid
    simp only [doEvaluate, TransferFromBlind.doEvaluate, bind_eq_ok] at heval
    obtain ⟨-, -, heval⟩ := heval
    exact op.doApply_effect hunique hvalid.2.2.2.1 (hinputs heval) h
  | blindTransfer op =>
    simp only [doEvaluate, BlindTransfer.doEvaluate, bind_eq_ok] at heval
    obtain ⟨-, -, -, -, heval⟩ := heval
    exact op.doApply_effect hunique (hinputs heval) h

theorem apply_accepted {requiredFee : Int} {op : Operation C} (hunique : s.commitments.Nodup)
    (h : op.apply E requiredFee s = .ok s') : op.Accepted E s s' := by
  simp only [apply, bind_eq_ok] at h
  obtain ⟨u, hvalid, core, hcore, v, heval, h⟩ := h
  have hfee := Ledger.evaluateFee_prepared hcore
  obtain ⟨s₁, s₂, hbefore, hsupply₁, hblinded₁, hdo, hafter, hsupply₂, hblinded₂⟩ :=
    State.applyWithFee_moves hfee h
  have hunique₁ : s₁.commitments.Nodup := by
    unfold State.commitments at hunique ⊢
    rwa [hblinded₁]
  obtain ⟨hmoves, hsupply, hnonneg, hbalances, hunique₂⟩ :=
    doApply_effect hblinded₁ hvalid hunique₁ heval hdo
  rw [hsupply₁, ← hsupply₂] at hsupply
  rw [hsupply₁] at hnonneg
  rw [hblinded₁, ← hblinded₂] at hbalances
  refine ⟨hvalid, hfee.fee_nonneg, ((hbefore.trans hmoves).trans hafter).congr ?_, hsupply, hnonneg,
    hbalances, ?_⟩
  · rw [add_zero, add_neg_cancel]
  · unfold State.commitments at hunique₂ ⊢
    rwa [hblinded₂]

end Operation

/-! ### One operation -/

/-- The range proofs are genuine, and a transfer to a single output, which needs no proof, spends
enough for its fee. -/
def Operation.Covered (E : Ecc C) : Operation C → Prop
  | transferToBlind op => Genuine E op.outputs
  | transferFromBlind _ => True
  | blindTransfer op => Genuine E op.outputs ∧
      (op.outputs.length = 1 → op.fee.amount ≤ E.valueOf (op.inputs.map BlindInput.commitment))

namespace Operation

variable {op : Operation C}

theorem valueOf_outputs (hvalid : op.validate E = .ok ()) (hfee : 0 ≤ op.fee.amount)
    (hcovered : op.Covered E) (hinputs : E.valueOf op.inputs ≤ maxShareSupply)
    (hnet : -maxShareSupply ≤ op.net ∧ op.net ≤ maxShareSupply) :
    E.valueOf op.outputs = E.valueOf op.inputs + op.net := by
  have horder : (2 : Int) ^ 128 ≤ E.order := by exact_mod_cast E.order_large
  have hmax : 2 ^ 32 * maxShareSupply + maxShareSupply < 2 ^ 128 := by decide
  have hinputs₀ := E.valueOf_nonneg op.inputs
  have houtputs₀ := E.valueOf_nonneg op.outputs
  cases op with
  | transferToBlind op =>
    simp only [validate, TransferToBlind.validate, checkOutputs, bind_eq_ok, require_eq_ok,
      exists_const] at hvalid
    obtain ⟨-, hpos, ⟨hlength, -⟩, hsome, ⟨hsum, -⟩, hproofs⟩ := hvalid
    simp only [net] at hnet
    have hpublic : E.valueOf [E.blind op.blindingFactor op.amount.amount.toNat] =
      op.amount.amount := by
      simp only [Ecc.valueOf, List.map_cons, List.map_nil, List.sum_cons, List.sum_nil,
        E.value_blind]
      rw [Nat.mod_eq_of_lt (by omega)]
      omega
    have hlt : E.valueOf (op.outputs.map BlindOutput.commitment) < E.order := by
      by_cases hmany : 1 < op.outputs.length
      · have hle := Genuine.valueOf_le hcovered hmany hlength hproofs
        omega
      · exact Ecc.valueOf_single_lt (by omega)
    rw [hpublic, add_zero] at hsum
    have heq := E.eq_of_sub_emod hsum (by omega) (by omega) houtputs₀ hlt
    show E.valueOf (op.outputs.map BlindOutput.commitment) = 0 + op.amount.amount
    omega
  | transferFromBlind op =>
    simp only [validate, TransferFromBlind.validate, bind_eq_ok, require_eq_ok,
      exists_const] at hvalid
    obtain ⟨hpos, -, -, -, u, -, hsum, -⟩ := hvalid
    simp only [net] at hnet
    simp only [fee] at hfee
    simp only [inputs] at hinputs hinputs₀
    have hsmall : maxShareSupply < 2 ^ 63 := by decide
    have hwrap : op.netPublic = op.fee.amount + op.amount.amount := by
      unfold TransferFromBlind.netPublic
      exact Int.bmod_eq_of_le (by omega) (by omega)
    have hpublic : E.valueOf [E.blind op.blindingFactor (op.netPublic % 2 ^ 64).toNat] =
        op.fee.amount + op.amount.amount := by
      simp only [Ecc.valueOf, List.map_cons, List.map_nil, List.sum_cons, List.sum_nil,
        E.value_blind]
      rw [hwrap, Nat.mod_eq_of_lt (by omega)]
      omega
    rw [hpublic, add_zero] at hsum
    have heq := E.eq_of_sub_emod hsum hinputs₀ (by omega) (by omega) (by omega)
    show (0 : Int) = E.valueOf (op.inputs.map BlindInput.commitment) + _
    simp only [net]
    omega
  | blindTransfer op =>
    simp only [validate, BlindTransfer.validate, checkOutputs, bind_eq_ok, require_eq_ok,
      exists_const] at hvalid
    obtain ⟨-, -, ⟨hlength, -⟩, -, ⟨hsum, -⟩, hproofs⟩ := hvalid
    simp only [net] at hnet
    simp only [fee] at hfee
    obtain ⟨hgenuine, hsingle⟩ := hcovered
    simp only [inputs, outputs, net] at hinputs hinputs₀ houtputs₀ ⊢
    by_cases hone : op.outputs.length = 1
    · -- the one value is what is left of the inputs, which is in range
      have hleft := hsingle hone
      have hsum' : (E.valueOf (op.inputs.map BlindInput.commitment) - op.fee.amount -
          E.valueOf (op.outputs.map BlindOutput.commitment)) % E.order = 0 := by
        rwa [sub_sub, add_comm op.fee.amount]
      have heq := E.eq_of_sub_emod hsum' (by omega) (by omega) houtputs₀
        (Ecc.valueOf_single_lt hone)
      omega
    · have hle : E.valueOf (op.outputs.map BlindOutput.commitment) ≤ 2 ^ 32 * maxShareSupply := by
        by_cases hmany : 1 < op.outputs.length
        · exact hgenuine.valueOf_le hmany hlength hproofs
        · have hnil : op.outputs = [] := List.length_eq_zero_iff.mp (by omega)
          rw [hnil]
          exact (by decide : (0 : Int) ≤ 2 ^ 32 * maxShareSupply)
      have heq := E.eq_of_sub_emod hsum hinputs₀ (by omega) (by omega) (by omega)
      omega

end Operation

/-! ### Runs -/

namespace Sound

variable {start : State C} {op : Operation C}

theorem valueOf_outputs (h : Sound E start s) (hcapped : ∀ id, start.total id ≤ maxShareSupply)
    (haccepted : op.Accepted E s s') (hcovered : op.Covered E) :
    E.valueOf op.outputs = E.valueOf op.inputs + op.net := by
  obtain ⟨hvalid, hfee, hmoves, hsupply, hnonneg, ⟨spent, kept, created, hspent, -, hasset, -,
    hperm, -⟩,
    -⟩ := haccepted
  have hold := h.supply op.asset
  rw [blindedValue_perm hperm, blindedValue_append, blindedValue_self hasset, hspent] at hold
  have hkept : 0 ≤ blindedValue E op.asset kept := blindedValue_nonneg
  have hspent₀ := E.valueOf_nonneg op.inputs
  have hle := h.supply_le hcapped op.asset
  have hle' : s.confidentialSupply op.asset + op.net ≤ maxShareSupply := by
    have hnew := State.confidentialSupply_le (hmoves.shape h.shape) (hmoves.fees h.fees) op.asset
    have htotal := congrFun hmoves.books (.asset op.asset)
    rw [add_zero, State.books_asset, State.books_asset, hmoves.supply] at htotal
    have hstart := h.conserved op.asset
    have hcap := hcapped op.asset
    rw [hsupply, Function.update_self] at hnew
    omega
  exact op.valueOf_outputs hvalid hfee hcovered (by omega) ⟨by omega, by omega⟩

theorem step (h : Sound E start s) (hcapped : ∀ id, start.total id ≤ maxShareSupply)
    (haccepted : op.Accepted E s s') (hcovered : op.Covered E) : Sound E start s' := by
  have hvalues := h.valueOf_outputs hcapped haccepted hcovered
  obtain ⟨-, -, hmoves, hsupply, -, ⟨spent, kept, created, hspent, hcreated, hspentAsset,
    hcreatedAsset,
    hperm, hperm'⟩, hunique⟩ := haccepted
  refine ⟨hmoves.shape h.shape, hmoves.fees h.fees, fun id => ?_, fun id => ?_, hunique⟩
  · have htotal := congrFun hmoves.books (.asset id)
    rw [add_zero, State.books_asset, State.books_asset, hmoves.supply] at htotal
    have hstart := h.conserved id
    omega
  · have hold := h.supply id
    rw [blindedValue_perm hperm, blindedValue_append] at hold
    rw [hsupply, blindedValue_perm hperm', blindedValue_append]
    by_cases hid : id = op.asset
    · subst hid
      rw [blindedValue_self hspentAsset, hspent] at hold
      rw [Function.update_self, blindedValue_self hcreatedAsset, hcreated]
      omega
    · rw [blindedValue_other hid hspentAsset] at hold
      rw [Function.update_of_ne hid, blindedValue_other hid hcreatedAsset]
      omega

end Sound

theorem Effect.count {id : AssetId} {inputs outputs : List C} {net : Int}
    (h : Effect s s' id inputs outputs net) (c : C) :
    inputs.count c + s'.commitments.count c = outputs.count c + s.commitments.count c := by
  obtain ⟨spent, kept, created, rfl, rfl, -, -, hperm, hperm'⟩ := h.balances
  have hcount := (hperm.map BlindedBalance.commitment).count_eq c
  have hcount' := (hperm'.map BlindedBalance.commitment).count_eq c
  rw [List.map_append, List.count_append] at hcount hcount'
  unfold State.commitments
  omega

theorem run_sound {requiredFee : Operation C → Int} {start : State C}
    (hcapped : ∀ id, start.total id ≤ maxShareSupply) {ops : List (Operation C)}
    (hcovered : ∀ op ∈ ops, op.Covered E) (hs : Sound E start s)
    (h : run E requiredFee ops s = .ok s') :
    Sound E start s' ∧ ∀ c, (ops.flatMap Operation.inputs).count c + s'.commitments.count c =
      (ops.flatMap Operation.outputs).count c + s.commitments.count c := by
  induction ops generalizing s with
  | nil =>
    rw [run, List.foldlM_nil, pure_eq_ok] at h
    subst h
    exact ⟨hs, fun _ => rfl⟩
  | cons op ops ih =>
    rw [run, List.foldlM_cons, bind_eq_ok] at h
    obtain ⟨s₁, hop, h⟩ := h
    have haccepted := Operation.apply_accepted hs.unique hop
    have hs₁ := hs.step hcapped haccepted (hcovered op List.mem_cons_self)
    obtain ⟨hs', hcount⟩ := ih (fun o ho => hcovered o (List.mem_cons_of_mem _ ho)) hs₁ h
    refine ⟨hs', fun c => ?_⟩
    have hstep := haccepted.effect.count c
    have hrest := hcount c
    rw [List.flatMap_cons, List.flatMap_cons, List.count_append, List.count_append]
    omega

/-- In every run of operations with genuine range proofs and covered fees, the confidential supply
of an asset is what its live balances are worth, none of which is worth more than there can be of an
asset; a commitment is spent as often as it was created, and once less while it is live; public
balances, fees and confidential supplies are conserved; and who takes money out takes out what the
balances they spend are worth. -/
theorem blinded_funds_sound (requiredFee : Operation C → Int) {ops : List (Operation C)}
    (hstart : s.Unblinded) (hcovered : ∀ op ∈ ops, op.Covered E)
    (h : run E requiredFee ops s = .ok s') :
    (∀ id, s'.confidentialSupply id = blindedValue E id s'.blinded.records) ∧
    (∀ b ∈ s'.blinded.records, (E.value b.commitment : Int) ≤ maxShareSupply) ∧
    (∀ c, s'.commitments.count c ≤ 1 ∧
      (ops.flatMap Operation.inputs).count c + s'.commitments.count c =
        (ops.flatMap Operation.outputs).count c) ∧
    (∀ id, s'.total id = s.total id) ∧
    ∀ (op : TransferFromBlind C) (s'' : State C),
      (Operation.transferFromBlind op).apply E (requiredFee (.transferFromBlind op)) s' = .ok s'' →
      op.amount.amount + op.fee.amount = E.valueOf (op.inputs.map BlindInput.commitment) := by
  obtain ⟨hs', hcount⟩ := run_sound hstart.capped hcovered hstart.sound h
  refine ⟨hs'.supply, fun b hb => ?_, fun c => ⟨?_, ?_⟩, hs'.conserved, fun op s'' hop => ?_⟩
  · have hle := hs'.supply_le hstart.capped b.assetId
    rw [hs'.supply] at hle
    refine le_trans (Ecc.value_le_valueOf ?_) hle
    exact List.mem_map_of_mem (List.mem_filter.mpr ⟨hb, decide_eq_true rfl⟩)
  · exact List.nodup_iff_count_le_one.mp hs'.unique c
  · have hnone : s.commitments = [] := by
      rw [State.commitments, Table.records, hstart.none, List.map_nil, List.map_nil]
    rw [hcount c, hnone]
    rfl
  · have hvalues := hs'.valueOf_outputs hstart.capped
      (Operation.apply_accepted hs'.unique hop) trivial
    have hvalues' : (0 : Int) = E.valueOf (op.inputs.map BlindInput.commitment) +
        -(op.amount.amount + op.fee.amount) := hvalues
    omega

/-! ### An honest run, and one that is not -/

/-- The order of the group of `secp256k1`. -/
def groupOrder : Nat := 0xFFFFFFFFFFFFFFFFFFFFFFFFFFFFFFFEBAAEDCE6AF48A03BBFD25E8CD0364141

theorem groupOrder_large : 2 ^ 128 ≤ groupOrder := by decide +kernel

theorem groupOrder_pos : 0 < groupOrder := by decide +kernel

/-- Commitments written as numbers, with the order of the group of the curve.  A range proof is read
when it has 65 bytes, no exponent and no minimum: its second byte is then the length of the range in
bits, less one. -/
def openCommitments : Ecc Nat where
  order := groupOrder
  value c := c % groupOrder
  blinding c := c / groupOrder % groupOrder
  blind factor v := v % groupOrder + groupOrder * (factor % groupOrder)
  rangeGetInfo
    | 64 :: bits :: rest =>
      if bits < 64 ∧ 63 ≤ rest.length then .ok ⟨2 ^ (bits.toNat + 1) - 1⟩ else .error .thrown
    | _ => .error .thrown
  order_large := groupOrder_large
  value_lt c := Nat.mod_lt c groupOrder_pos
  value_blind factor v := by rw [Nat.add_mul_mod_self_left, Nat.mod_mod]

/-- Accounts 5 and 6 have a hundred of the core asset each. -/
def vault : State Nat :=
  ⟨freshLedger 1600000000 [0, 0, 0, 0, 0, 100, 100] [], fun _ => true, fun _ => false, fun _ => 0,
    fun _ => 0, Table.empty⟩

theorem vault_unblinded : vault.Unblinded := by
  have hopening : Opening (freshLedger 1600000000 [0, 0, 0, 0, 0, 100, 100] []) :=
    freshLedger_opening (by decide) (by decide)
  refine ⟨hopening.balanced.shape, fun _ => le_refl _, fun id => ?_, fun _ => rfl, rfl⟩
  have hheld : vault.ledger.totalBalance id = if id = coreAsset then 200 else 0 :=
    (hopening.held id).trans (freshLedger_supply (by decide) id)
  have hfees : (Asset.mk vault.fbaFees coreAsset).amountIn id = 0 := by
    unfold Asset.amountIn
    split <;> rfl
  rw [State.total, hheld, hfees]
  show (if id = coreAsset then (200 : Int) else 0) + 0 + 0 ≤ maxShareSupply
  split <;> decide

def keyOwner : Owner := { Protocol.keyAuthority 7 with addressAuths := [] }

/-- The commitment to a value under a blinding factor, with a proof of a range of 63. -/
def commitTo (factor v : Nat) : BlindOutput Nat :=
  ⟨openCommitments.blind factor v, 64 :: 5 :: List.replicate 63 0, keyOwner⟩

/-- The balance that a commitment made, to be spent. -/
def BlindOutput.input (out : BlindOutput Nat) : BlindInput Nat := ⟨out.commitment, out.owner⟩

/-- A hundred in two parts, one of which is taken out again. -/
def honestRun : List (Operation Nat) :=
  [.transferToBlind ⟨⟨0, 0⟩, ⟨100, 0⟩, 5, 3, [commitTo 1 60, commitTo 2 40]⟩,
    .transferFromBlind ⟨⟨0, 0⟩, ⟨60, 0⟩, 5, 1, [(commitTo 1 60).input]⟩]

theorem blinded_funds_sound_honest :
    ∃ s', run openCommitments (fun _ => 0) honestRun vault = .ok s' ∧
      ∀ id, s'.confidentialSupply id = blindedValue openCommitments id s'.blinded.records := by
  obtain ⟨s', hs', -⟩ := exists_ok_of_any (x := run openCommitments (fun _ => 0) honestRun vault)
    (p := fun _ => true) (by decide +kernel)
  refine ⟨s', hs', (blinded_funds_sound (fun _ => 0) vault_unblinded (fun op hop => ?_) hs').1⟩
  rcases List.mem_cons.mp hop with rfl | hop
  · intro _ out hout info hinfo
    rcases List.mem_cons.mp hout with rfl | hout
    · obtain rfl := Except.ok.inj hinfo
      decide +kernel
    · obtain rfl := List.mem_singleton.mp hout
      obtain rfl := Except.ok.inj hinfo
      decide +kernel
  · obtain rfl := List.mem_singleton.mp hop
    exact trivial

/-- Account 5 puts in a hundred.  Account 6 puts in a hundred too, as minus a hundred and two
hundred, and takes the two hundred out. -/
def forgedRun : List (Operation Nat) :=
  [.transferToBlind ⟨⟨0, 0⟩, ⟨100, 0⟩, 5, 5, [commitTo 5 100]⟩,
    .transferToBlind ⟨⟨0, 0⟩, ⟨100, 0⟩, 6, 3, [commitTo 1 (groupOrder - 100), commitTo 2 200]⟩,
    .transferFromBlind ⟨⟨0, 0⟩, ⟨200, 0⟩, 6, 2, [(commitTo 2 200).input]⟩]

/-- The forged run is accepted, and leaves nothing for the hundred that account 5 has put in. -/
theorem forged_value_is_withdrawn :
    vault.Unblinded ∧ ∃ s', run openCommitments (fun _ => 0) forgedRun vault = .ok s' ∧
      (s'.ledger.getBalance 6 coreAsset).amount = 200 ∧
        (commitTo 5 100).commitment ∈ s'.commitments ∧
      s'.confidentialSupply coreAsset = 0 ∧
      blindedValue openCommitments coreAsset s'.blinded.records = groupOrder ∧
      ∃ b ∈ s'.blinded.records, maxShareSupply < openCommitments.value b.commitment := by
  obtain ⟨s', hs', hp⟩ := exists_ok_of_any (x := run openCommitments (fun _ => 0) forgedRun vault)
    (p := fun s' => decide ((s'.ledger.getBalance 6 coreAsset).amount = 200 ∧
      (commitTo 5 100).commitment ∈ s'.commitments ∧ s'.confidentialSupply coreAsset = 0 ∧
      blindedValue openCommitments coreAsset s'.blinded.records = groupOrder ∧
      ∃ b ∈ s'.blinded.records, maxShareSupply < openCommitments.value b.commitment))
    (by decide +kernel)
  exact ⟨vault_unblinded, s', hs', of_decide_eq_true hp⟩

end Nestchain.Confidential
