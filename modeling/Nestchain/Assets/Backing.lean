import Nestchain.Assets.Registry
import Mathlib.Logic.Relation

/-! The backing of market issued assets.  What the operations of the issuers keep is a property of
the graph of all assets, while each evaluator looks at the neighbours of one asset: the asset behind
it, the asset behind that one, or the assets that it backs. -/

namespace Nestchain.Assets

open Lib
open Market (AssetId AccountId coreAsset)

theorem not_transGen_self {α : Type} {r : α → α → Prop}
    (h : ∀ i j k l, r i j → r j k → ¬r k l) (x : α) : ¬Relation.TransGen r x x := by
  have hout : ∀ {i j}, Relation.TransGen r i j → ∃ k, r i k ∧
    (k = j ∨ Relation.TransGen r k j) := by
    intro i j hij
    rcases Relation.TransGen.head'_iff.mp hij with ⟨k, hik, hkj⟩
    rcases Relation.reflTransGen_iff_eq_or_transGen.mp hkj with he | hkj
    · exact ⟨k, hik, Or.inl he.symm⟩
    · exact ⟨k, hik, Or.inr hkj⟩
  have hnext : ∀ {k}, k = x ∨ Relation.TransGen r k x → Relation.TransGen r x x →
      ∃ l, r k l ∧ (l = x ∨ Relation.TransGen r l x) := by
    rintro k (rfl | hk) hx
    · exact hout hx
    · exact hout hk
  intro hx
  obtain ⟨i, hxi, hi⟩ := hout hx
  obtain ⟨j, hij, hj⟩ := hnext hi hx
  obtain ⟨k, hjk, -⟩ := hnext hj hx
  exact h x i j k hxi hij hjk

/-! ### The structure -/

/-- What the structure of the assets is about. -/
structure AssetTerms where
  precision : Nat
  issuer : AccountId
  backing : Option AssetId
  isPredictionMarket : Bool

def AssetObject.terms (a : AssetObject) : AssetTerms :=
  ⟨a.precision, a.issuer, a.bitasset.map fun b => b.options.shortBackingAsset,
    a.bitasset.any BitassetData.isPredictionMarket⟩

theorem AssetObject.terms_backing {a : AssetObject} {b : BitassetData} (h : a.bitasset = some b) :
    a.terms.backing = some b.options.shortBackingAsset := by
  simp only [terms, h, Option.map_some]

theorem AssetObject.terms_isPredictionMarket {a : AssetObject} {b : BitassetData}
    (h : a.bitasset = some b) : a.terms.isPredictionMarket = b.isPredictionMarket := by
  simp only [terms, h, Option.any_some]

namespace Registry

def terms (R : Registry) (id : AssetId) : Option AssetTerms :=
  (R.assets.find id).map AssetObject.terms

/-- The asset `id` is market issued and backed by `backing`. -/
def Backed (R : Registry) (id backing : AssetId) : Prop :=
  ∃ t, R.terms id = some t ∧ t.backing = some backing

def MarketIssued (R : Registry) (id : AssetId) : Prop := ∃ backing, R.Backed id backing

/-- The core asset is not market issued, and the assets behind others exist. -/
structure Consistent (R : Registry) : Prop where
  core : ∃ t, R.terms coreAsset = some t ∧ t.backing = none
  known : ∀ i j, R.Backed i j → ∃ t, R.terms j = some t

/-- The structure of the market issued assets. -/
structure Structured (R : Registry) : Prop where
  acyclic : ∀ id, ¬Relation.TransGen R.Backed id id
  shallow : ∀ i j k, R.Backed i j → R.Backed j k → ¬R.MarketIssued k
  committee : ∀ id t j, R.terms id = some t → t.backing = some j → t.issuer = committeeAccount →
    j = coreAsset ∨ R.Backed j coreAsset
  precision : ∀ id t j u, R.terms id = some t → t.backing = some j → t.isPredictionMarket = true →
    R.terms j = some u → t.precision = u.precision

variable {R R' : Registry}

theorem terms_of_find {id : AssetId} {a : AssetObject} (h : R.assets.find id = some a) :
    R.terms id = some a.terms := by
  rw [terms, h, Option.map_some]

theorem find_of_terms {id : AssetId} {t : AssetTerms} (h : R.terms id = some t) :
    ∃ a, R.assets.find id = some a ∧ a.terms = t := Option.map_eq_some_iff.mp h

theorem backed_of_find {id : AssetId} {a : AssetObject} {b : BitassetData}
    (h : R.assets.find id = some a) (hb : a.bitasset = some b) :
    R.Backed id b.options.shortBackingAsset :=
  ⟨a.terms, terms_of_find h, AssetObject.terms_backing hb⟩

theorem Backed.eq {id j : AssetId} {a : AssetObject} {b : BitassetData}
    (h : R.Backed id j) (ha : R.assets.find id = some a) (hb : a.bitasset = some b) :
    j = b.options.shortBackingAsset := by
  obtain ⟨t, ht, hj⟩ := h
  obtain rfl := Option.some.inj ((terms_of_find ha).symm.trans ht)
  rw [AssetObject.terms_backing hb] at hj
  exact (Option.some.inj hj).symm

theorem isMarketIssued_iff {id : AssetId} {a : AssetObject} (ha : R.assets.find id = some a) :
    a.isMarketIssued = true ↔ R.MarketIssued id := by
  constructor
  · intro h
    obtain ⟨b, hb⟩ := Option.isSome_iff_exists.mp h
    exact ⟨_, backed_of_find ha hb⟩
  · rintro ⟨j, t, ht, hj⟩
    obtain rfl := Option.some.inj ((terms_of_find ha).symm.trans ht)
    rw [AssetObject.terms, Option.map_eq_some_iff] at hj
    obtain ⟨b, hb, -⟩ := hj
    exact Option.isSome_iff_exists.mpr ⟨b, hb⟩

theorem Consistent.core_not_marketIssued (h : R.Consistent) : ¬R.MarketIssued coreAsset := by
  rintro ⟨j, t, ht, hj⟩
  obtain ⟨t', ht', hnone⟩ := h.core
  obtain rfl := Option.some.inj (ht'.symm.trans ht)
  rw [hnone] at hj
  cases hj

theorem Structured.of_shallow
    (shallow : ∀ i j k, R.Backed i j → R.Backed j k → ¬R.MarketIssued k)
    (committee : ∀ id t j, R.terms id = some t → t.backing = some j →
      t.issuer = committeeAccount → j = coreAsset ∨ R.Backed j coreAsset)
    (precision : ∀ id t j u, R.terms id = some t → t.backing = some j →
      t.isPredictionMarket = true → R.terms j = some u → t.precision = u.precision) :
    R.Structured :=
  ⟨not_transGen_self fun i j k l hij hjk hkl => shallow i j k hij hjk ⟨l, hkl⟩, shallow, committee,
    precision⟩

theorem structured_congr (hterms : ∀ id, R'.terms id = R.terms id)
    (h : R.Consistent ∧ R.Structured) : R'.Consistent ∧ R'.Structured := by
  have he : R'.terms = R.terms := funext hterms
  have hbacked : R'.Backed = R.Backed := by
    funext i j
    rw [Backed, he, Backed]
  obtain ⟨⟨hcore, hknown⟩, hacyclic, hshallow, hcommittee, hprecision⟩ := h
  constructor
  · constructor
    · rwa [he]
    · rwa [hbacked, he]
  · constructor
    · rwa [hbacked]
    · simp only [MarketIssued, hbacked]
      exact hshallow
    · rwa [hbacked, he]
    · rwa [he]

/-! ### One asset that changes -/

theorem setAsset_terms {id : AssetId} {a a' : AssetObject} (ha : R.assets.find id = some a)
    (j : AssetId) :
    (R.setAsset id a').terms j = if j = id then some a'.terms else R.terms j := by
  unfold terms setAsset
  by_cases hj : j = id
  · subst hj
    rw [if_pos rfl, Table.find_set_self ha, Option.map_some]
  · rw [if_neg hj, Table.find_set_ne hj]

theorem setAsset_keeps_terms {id : AssetId} {a a' : AssetObject} (ha : R.assets.find id = some a)
    (hterms : a'.terms = a.terms) (j : AssetId) : (R.setAsset id a').terms j = R.terms j := by
  rw [setAsset_terms ha]
  split
  · rename_i hj
    rw [hj, hterms, terms_of_find ha]
  · rfl

/-- The asset `id` has new terms, and the others are as they were. -/
structure Moves (R R' : Registry) (id : AssetId) (t : AssetTerms) : Prop where
  self : R'.terms id = some t
  others : ∀ j, j ≠ id → R'.terms j = R.terms j

theorem Moves.backed {id i j : AssetId} {t : AssetTerms} (h : Moves R R' id t) :
    R'.Backed i j ↔ i = id ∧ t.backing = some j ∨ i ≠ id ∧ R.Backed i j := by
  by_cases hi : i = id
  · subst hi
    simp only [Backed, h.self, Option.some.injEq, exists_eq_left', true_and, ne_eq,
      not_true_eq_false,
      false_and, or_false]
  · simp only [Backed, h.others i hi, hi, false_and, false_or, ne_eq, not_false_eq_true, true_and]

theorem structured_of_new {id : AssetId} {t : AssetTerms} (hR : R.Consistent ∧ R.Structured)
    (h : Moves R R' id t) (hnew : R.terms id = none)
    (hbacking : ∀ j, t.backing = some j → ∃ u, R.terms j = some u ∧
      (∀ k, u.backing = some k → ¬R.MarketIssued k) ∧
      (t.issuer = committeeAccount → j = coreAsset ∨ u.backing = some coreAsset) ∧
      (t.isPredictionMarket = true → t.precision = u.precision)) :
    R'.Consistent ∧ R'.Structured := by
  obtain ⟨hconsistent, hstructured⟩ := hR
  have hknown : ∀ {i j}, R.Backed i j → j ≠ id := by
    rintro i j hij rfl
    obtain ⟨u, hu⟩ := hconsistent.known i j hij
    rw [hnew] at hu
    cases hu
  have hid : ∀ {i j}, R.Backed i j → i ≠ id := by
    rintro i j ⟨u, hu, -⟩ rfl
    rw [hnew] at hu
    cases hu
  have hold : ∀ {i j}, R.Backed i j → R'.Backed i j := fun hij =>
    h.backed.mpr (Or.inr ⟨hid hij, hij⟩)
  have hback : ∀ {j}, t.backing = some j → j ≠ id := by
    rintro j hj rfl
    obtain ⟨u, hu, -⟩ := hbacking j hj
    rw [hnew] at hu
    cases hu
  have hissued : ∀ {k}, k ≠ id → R'.MarketIssued k → R.MarketIssued k := by
    rintro k hk ⟨l, hkl⟩
    rcases h.backed.mp hkl with ⟨he, -⟩ | ⟨-, hkl⟩
    · exact absurd he hk
    · exact ⟨l, hkl⟩
  constructor
  · constructor
    · obtain ⟨u, hu, hnone⟩ := hconsistent.core
      refine ⟨u, (h.others _ ?_).trans hu, hnone⟩
      rintro rfl
      rw [hnew] at hu
      cases hu
    · intro i j hij
      rcases h.backed.mp hij with ⟨-, hj⟩ | ⟨-, hij⟩
      · obtain ⟨u, hu, -⟩ := hbacking j hj
        exact ⟨u, (h.others j (hback hj)).trans hu⟩
      · obtain ⟨u, hu⟩ := hconsistent.known i j hij
        exact ⟨u, (h.others j (hknown hij)).trans hu⟩
  · refine Structured.of_shallow (fun i j k hij hjk hk => ?_) (fun i u j hu hj hissuer => ?_)
      fun i u j v hu hj hpm hv => ?_
    · rcases h.backed.mp hij with ⟨-, hj⟩ | ⟨-, hij⟩
      · obtain ⟨u, hu, hplain, -⟩ := hbacking j hj
        rcases h.backed.mp hjk with ⟨he, -⟩ | ⟨-, hjk⟩
        · exact hback hj he
        · have hk' := hissued (hknown hjk) hk
          obtain ⟨u', hu', hk⟩ := hjk
          obtain rfl := Option.some.inj (hu.symm.trans hu')
          exact hplain k hk hk'
      · rcases h.backed.mp hjk with ⟨he, -⟩ | ⟨-, hjk⟩
        · exact hknown hij he
        · exact hstructured.shallow i j k hij hjk (hissued (hknown hjk) hk)
    · by_cases hi : i = id
      · subst hi
        obtain rfl := Option.some.inj (h.self.symm.trans hu)
        obtain ⟨v, hv, -, hcommittee, -⟩ := hbacking j hj
        exact (hcommittee hissuer).imp_right fun hcore => hold ⟨v, hv, hcore⟩
      · rw [h.others i hi] at hu
        exact (hstructured.committee i u j hu hj hissuer).imp_right hold
    · by_cases hi : i = id
      · subst hi
        obtain rfl := Option.some.inj (h.self.symm.trans hu)
        obtain ⟨v', hv', -, -, hprecision⟩ := hbacking j hj
        rw [h.others j (hback hj), hv'] at hv
        obtain rfl := Option.some.inj hv
        exact hprecision hpm
      · rw [h.others i hi] at hu
        rw [h.others j (hknown ⟨u, hu, hj⟩)] at hv
        exact hstructured.precision i u j v hu hj hpm hv

theorem structured_of_backing {id n : AssetId} {t t' u : AssetTerms}
    (hR : R.Consistent ∧ R.Structured) (h : Moves R R' id t') (ht : R.terms id = some t)
    (hissued : R.MarketIssued id) (hprec : t'.precision = t.precision)
    (hn : t'.backing = some n) (hu : R.terms n = some u) (hne : n ≠ id)
    (hpm : t'.isPredictionMarket = true → t'.precision = u.precision)
    (hcommittee : t'.issuer = committeeAccount → n = coreAsset ∨ R.Backed n coreAsset)
    (hbehind : ∀ k, R.Backed n k → ¬R.MarketIssued k)
    (hchildren : n ≠ coreAsset → ∀ c v, R.terms c = some v → v.backing = some id →
      v.issuer ≠ committeeAccount ∧ ¬R.MarketIssued n) : R'.Consistent ∧ R'.Structured := by
  obtain ⟨hconsistent, hstructured⟩ := hR
  have hcoreNe : coreAsset ≠ id := by
    rintro rfl
    exact hconsistent.core_not_marketIssued hissued
  have hissuedOf : ∀ {k}, R'.MarketIssued k → R.MarketIssued k := by
    rintro k ⟨l, hkl⟩
    rcases h.backed.mp hkl with ⟨rfl, -⟩ | ⟨-, hkl⟩
    · exact hissued
    · exact ⟨l, hkl⟩
  constructor
  · constructor
    · obtain ⟨v, hv, hnone⟩ := hconsistent.core
      exact ⟨v, (h.others _ hcoreNe).trans hv, hnone⟩
    · intro i j hij
      have hj : ∃ v, R.terms j = some v := by
        rcases h.backed.mp hij with ⟨-, hj⟩ | ⟨-, hij⟩
        · obtain rfl := Option.some.inj (hn.symm.trans hj)
          exact ⟨u, hu⟩
        · exact hconsistent.known i j hij
      by_cases he : j = id
      · exact ⟨t', he ▸ h.self⟩
      · rwa [h.others j he]
  · refine Structured.of_shallow (fun i j k hij hjk hk => ?_) (fun i v j hv hj hissuer => ?_)
      fun i v j w hv hj hpm' hw => ?_
    · rcases h.backed.mp hij with ⟨-, hj⟩ | ⟨-, hij⟩
      · -- the chain starts at the asset
        obtain rfl := Option.some.inj (hn.symm.trans hj)
        rcases h.backed.mp hjk with ⟨he, -⟩ | ⟨-, hjk⟩
        · exact hne he
        · exact hbehind k hjk (hissuedOf hk)
      · rcases h.backed.mp hjk with ⟨rfl, hk'⟩ | ⟨-, hjk⟩
        · -- the asset is in the middle, so it has a child
          obtain rfl := Option.some.inj (hn.symm.trans hk')
          obtain ⟨v, hv, hvj⟩ := hij
          have hk := hissuedOf hk
          by_cases hcore : n = coreAsset
          · exact hconsistent.core_not_marketIssued (hcore ▸ hk)
          · exact (hchildren hcore i v hv hvj).2 hk
        · exact hstructured.shallow i j k hij hjk (hissuedOf hk)
    · by_cases hi : i = id
      · subst hi
        obtain rfl := Option.some.inj (h.self.symm.trans hv)
        obtain rfl := Option.some.inj (hn.symm.trans hj)
        exact (hcommittee hissuer).imp_right fun hcore => h.backed.mpr (Or.inr ⟨hne, hcore⟩)
      · rw [h.others i hi] at hv
        refine (hstructured.committee i v j hv hj hissuer).imp_right fun hcore => ?_
        by_cases he : j = id
        · -- a child of the committee only allows the core asset
          subst he
          refine h.backed.mpr (Or.inl ⟨rfl, ?_⟩)
          by_cases hcore' : n = coreAsset
          · rw [hn, hcore']
          · exact absurd hissuer (hchildren hcore' i v hv hj).1
        · exact h.backed.mpr (Or.inr ⟨he, hcore⟩)
    · have hw' : ∃ x, R.terms j = some x ∧ w.precision = x.precision := by
        by_cases he : j = id
        · subst he
          obtain rfl := Option.some.inj (h.self.symm.trans hw)
          exact ⟨t, ht, hprec⟩
        · rw [h.others j he] at hw
          exact ⟨w, hw, rfl⟩
      obtain ⟨x, hx, hwx⟩ := hw'
      rw [hwx]
      by_cases hi : i = id
      · subst hi
        obtain rfl := Option.some.inj (h.self.symm.trans hv)
        obtain rfl := Option.some.inj (hn.symm.trans hj)
        obtain rfl := Option.some.inj (hu.symm.trans hx)
        exact hpm hpm'
      · rw [h.others i hi] at hv
        exact hstructured.precision i v j x hv hj hpm' hx

theorem structured_of_issuer {id : AssetId} {t t' : AssetTerms} (hR : R.Consistent ∧ R.Structured)
    (h : Moves R R' id t') (ht : R.terms id = some t) (hprec : t'.precision = t.precision)
    (hbacking : t'.backing = t.backing) (hpm : t'.isPredictionMarket = t.isPredictionMarket)
    (hcommittee : t'.issuer = committeeAccount → ∀ j, t.backing = some j →
      j = coreAsset ∨ R.Backed j coreAsset) : R'.Consistent ∧ R'.Structured := by
  obtain ⟨hconsistent, hstructured⟩ := hR
  have hbacked : ∀ i j, R'.Backed i j ↔ R.Backed i j := by
    intro i j
    rw [h.backed]
    by_cases hi : i = id
    · subst hi
      simp only [hbacking, Backed, ht, Option.some.injEq, exists_eq_left', true_and, ne_eq,
        not_true_eq_false, false_and, or_false]
    · simp only [hi, false_and, false_or, ne_eq, not_false_eq_true, true_and]
  -- every asset has the precision, the backing and the kind that it had
  have hterms : ∀ {i v}, R'.terms i = some v → ∃ x, R.terms i = some x ∧ v.precision = x.precision ∧
      v.backing = x.backing ∧ v.isPredictionMarket = x.isPredictionMarket ∧
      (i = id ∧ v = t' ∨ v = x) := by
    intro i v hv
    by_cases hi : i = id
    · subst hi
      obtain rfl := Option.some.inj (h.self.symm.trans hv)
      exact ⟨t, ht, hprec, hbacking, hpm, Or.inl ⟨rfl, rfl⟩⟩
    · exact ⟨v, (h.others i hi).symm.trans hv, rfl, rfl, rfl, Or.inr rfl⟩
  have hback : ∀ {i v}, R.terms i = some v → ∃ x, R'.terms i = some x ∧ x.backing = v.backing := by
    intro i v hv
    by_cases hi : i = id
    · subst hi
      obtain rfl := Option.some.inj (ht.symm.trans hv)
      exact ⟨t', h.self, hbacking⟩
    · exact ⟨v, (h.others i hi).trans hv, rfl⟩
  constructor
  · constructor
    · obtain ⟨v, hv, hnone⟩ := hconsistent.core
      obtain ⟨x, hx, he⟩ := hback hv
      exact ⟨x, hx, he.trans hnone⟩
    · intro i j hij
      obtain ⟨v, hv⟩ := hconsistent.known i j ((hbacked i j).mp hij)
      obtain ⟨x, hx, -⟩ := hback hv
      exact ⟨x, hx⟩
  · refine Structured.of_shallow (fun i j k hij hjk => ?_) (fun i v j hv hj hissuer => ?_)
      fun i v j w hv hj hpm' hw => ?_
    · rintro ⟨l, hkl⟩
      exact hstructured.shallow i j k ((hbacked i j).mp hij) ((hbacked j k).mp hjk)
        ⟨l, (hbacked k l).mp hkl⟩
    · obtain ⟨x, hx, -, hxb, -, hcase⟩ := hterms hv
      rw [hxb] at hj
      rw [hbacked]
      rcases hcase with ⟨rfl, rfl⟩ | rfl
      · obtain rfl := Option.some.inj (ht.symm.trans hx)
        exact hcommittee hissuer j hj
      · exact hstructured.committee i v j hx hj hissuer
    · obtain ⟨x, hx, hxp, hxb, hxm, -⟩ := hterms hv
      obtain ⟨y, hy, hyp, -⟩ := hterms hw
      rw [hxp, hyp]
      exact hstructured.precision i x j y hx (hxb ▸ hj) (hxm ▸ hpm') hy

end Registry

/-! ### The operations -/

open Registry

variable {R R' : Registry}

theorem Registry.asset_eq_ok {id : AssetId} {a : AssetObject} :
    R.asset id = .ok a ↔ R.assets.find id = some a := demand_eq_ok

theorem AssetCreate.checkBacking_spec {op : AssetCreate} {options : Market.BitassetOptions}
    {u : Unit}
    (h : op.checkBacking R options = .ok u) :
    ∃ t, R.terms options.shortBackingAsset = some t ∧
      (∀ k, t.backing = some k → ¬R.MarketIssued k) ∧
      (op.issuer = committeeAccount →
        options.shortBackingAsset = coreAsset ∨ t.backing = some coreAsset) := by
  simp only [checkBacking, bind_eq_ok, asset_eq_ok] at h
  obtain ⟨backing, hbacking, _, h, -⟩ := h
  refine ⟨backing.terms, terms_of_find hbacking, ?_⟩
  split at h
  · rename_i b hb
    simp only [bind_eq_ok, asset_eq_ok, require_eq_ok, exists_const] at h
    obtain ⟨behind, hbehind, hplain, hissuer⟩ := h
    rw [AssetObject.terms_backing hb]
    refine ⟨?_, fun hcommittee => Or.inr ?_⟩
    · rintro k hk
      obtain rfl := Option.some.inj hk
      rw [← isMarketIssued_iff hbehind, hplain]
      exact Bool.false_ne_true
    · rw [hissuer.resolve_left (not_not.mpr hcommittee)]
  · rename_i hnone
    simp only [require_eq_ok] at h
    refine ⟨fun k hk => ?_, fun hcommittee => Or.inl (h.resolve_left (not_not.mpr hcommittee))⟩
    simp [AssetObject.terms, hnone] at hk

theorem AssetCreate.apply_structured {op : AssetCreate} (hR : R.Consistent ∧ R.Structured)
    (h : op.apply R = .ok R') : R'.Consistent ∧ R'.Structured := by
  simp only [apply, doEvaluate, bind_eq_ok, require_eq_ok, exists_const, pure_eq_ok] at h
  obtain ⟨-, _, ⟨_, -, _, -, _, hbacking, hpm⟩, rfl⟩ := h
  have hfresh : R.assets.find R.assets.next = none := by
    cases hfind : R.assets.find R.assets.next with
    | none => rfl
    | some a => exact absurd (Table.find_lt hfind) (Nat.lt_irrefl _)
  have hmoves : Moves R { R with assets := R.assets.create (op.newAsset R.assets.next) }
      R.assets.next (op.newAsset R.assets.next).terms := by
    refine ⟨terms_of_find (Table.find_create_self _ _), fun j hj => ?_⟩
    simp only [Registry.terms, Table.find_create_ne hj]
  refine structured_of_new hR hmoves (by rw [Registry.terms, hfresh]; rfl) fun j hj => ?_
  simp only [newAsset, AssetObject.terms, Option.map_map] at hj ⊢
  cases hopts : op.bitassetOpts with
  | none =>
    rw [hopts] at hj
    cases hj
  | some options =>
    rw [hopts] at hj hbacking hpm
    obtain rfl : options.shortBackingAsset = j := Option.some.inj hj
    obtain ⟨t, ht, hplain, hcommittee⟩ := checkBacking_spec hbacking
    refine ⟨t, ht, hplain, hcommittee, fun hmarket => ?_⟩
    have hmarket' : op.isPredictionMarket = true := hmarket
    rw [if_pos hmarket'] at hpm
    simp only [bind_eq_ok, demand_eq_ok, asset_eq_ok, require_eq_ok, Option.some.injEq] at hpm
    obtain ⟨options', rfl, backing, hfind, hprecision⟩ := hpm
    obtain rfl := Option.some.inj ((terms_of_find hfind).symm.trans ht)
    exact hprecision

theorem AssetUpdateIssuer.apply_structured {op : AssetUpdateIssuer}
    (hR : R.Consistent ∧ R.Structured) (h : op.apply R = .ok R') :
    R'.Consistent ∧ R'.Structured := by
  simp only [apply, validateNewIssuer, bind_eq_ok, require_eq_ok, exists_const, asset_eq_ok,
    pure_eq_ok] at h
  obtain ⟨-, a, ha, _, ⟨-, hnew⟩, -, rfl⟩ := h
  have hmoves : Moves R (R.setAsset op.assetToUpdate { a with issuer := op.newIssuer })
      op.assetToUpdate { a.terms with issuer := op.newIssuer } :=
    ⟨by rw [setAsset_terms ha, if_pos rfl]; rfl, fun j hj => by rw [setAsset_terms ha, if_neg hj]⟩
  refine structured_of_issuer hR hmoves (terms_of_find ha) rfl rfl rfl fun hcommittee j hj => ?_
  have hnewIssuer : op.newIssuer = committeeAccount := hcommittee
  split at hnew
  · rename_i b hb
    rw [AssetObject.terms_backing hb] at hj
    obtain rfl := Option.some.inj hj
    rw [if_pos hnewIssuer] at hnew
    simp only [bind_eq_ok, asset_eq_ok] at hnew
    obtain ⟨backing, hbacking, hnew⟩ := hnew
    split at hnew
    · rename_i c hc
      simp only [bind_eq_ok, require_eq_ok] at hnew
      obtain ⟨-, -, hcore⟩ := hnew
      exact Or.inr (hcore ▸ backed_of_find hbacking hc)
    · exact Or.inl (require_eq_ok.mp hnew)
  · rename_i hnone
    simp [AssetObject.terms, hnone] at hj

/-- What the checks of a new backing asset say about its neighbours. -/
structure AssetUpdateBitasset.Checked (op : AssetUpdateBitasset) (R : Registry) (a : AssetObject)
    (b : BitassetData) : Prop where
  found : ∃ u, R.terms op.newOptions.shortBackingAsset = some u ∧
    (b.isPredictionMarket = true → a.precision = u.precision)
  ne : op.newOptions.shortBackingAsset ≠ op.assetToUpdate
  committee : a.issuer = committeeAccount → op.newOptions.shortBackingAsset = coreAsset ∨
    R.Backed op.newOptions.shortBackingAsset coreAsset
  behind : ∀ k, R.Backed op.newOptions.shortBackingAsset k → k = coreAsset ∨ ¬R.MarketIssued k
  children : op.newOptions.shortBackingAsset ≠ coreAsset → ∀ c v, R.terms c = some v →
    v.backing = some op.assetToUpdate →
    v.issuer ≠ committeeAccount ∧ ¬R.MarketIssued op.newOptions.shortBackingAsset

theorem AssetUpdateBitasset.checkChildrenOfBitasset_spec {op : AssetUpdateBitasset}
    {newBacking : AssetObject} {u : Unit}
    (hfind : R.assets.find op.newOptions.shortBackingAsset = some newBacking)
    (h : op.checkChildrenOfBitasset R newBacking = .ok u)
    (hcore : op.newOptions.shortBackingAsset ≠ coreAsset) {c : AssetId} {v : AssetTerms}
    (hv : R.terms c = some v) (hchild : v.backing = some op.assetToUpdate) :
    v.issuer ≠ committeeAccount ∧ ¬R.MarketIssued op.newOptions.shortBackingAsset := by
  rw [checkChildrenOfBitasset, if_neg hcore, require_eq_ok] at h
  obtain ⟨child, hfindChild, rfl⟩ := find_of_terms hv
  obtain ⟨d, hd, hback⟩ := Option.map_eq_some_iff.mp hchild
  obtain ⟨-, hissuer, hplain⟩ := h (c, child) (Table.find_iff_mem.mp hfindChild) d hd hback
  refine ⟨hissuer, ?_⟩
  rw [← isMarketIssued_iff hfind, hplain]
  exact Bool.false_ne_true

theorem AssetUpdateBitasset.checkBacking_spec {op : AssetUpdateBitasset} {a : AssetObject}
    {b : BitassetData} {u : Unit} (h : op.checkBacking R a b = .ok u) : op.Checked R a b := by
  simp only [checkBacking, bind_eq_ok, require_eq_ok, exists_const, asset_eq_ok] at h
  obtain ⟨-, newBacking, hfind, hne, hprecision, _, hneighbours, hbehind⟩ := h
  refine ⟨⟨_, terms_of_find hfind, hprecision⟩, hne, fun hcommittee => ?_, fun k hk => ?_,
    fun hcore c v hv hchild => ?_⟩
  · rw [if_pos hcommittee] at hneighbours
    split at hneighbours
    · rename_i c hc
      simp only [bind_eq_ok, require_eq_ok, exists_const] at hneighbours
      exact Or.inr (hneighbours.1 ▸ backed_of_find hfind hc)
    · exact Or.inl (require_eq_ok.mp hneighbours)
  · split at hbehind
    · rename_i c hc
      obtain rfl := hk.eq hfind hc
      split at hbehind
      · rename_i hcore
        exact Or.inl hcore
      · simp only [bind_eq_ok, asset_eq_ok, require_eq_ok] at hbehind
        obtain ⟨behind, hfindBehind, hplain⟩ := hbehind
        right
        rw [← isMarketIssued_iff hfindBehind, hplain]
        exact Bool.false_ne_true
    · rename_i hnone
      have hissued := (isMarketIssued_iff hfind).mpr ⟨k, hk⟩
      rw [AssetObject.isMarketIssued, hnone] at hissued
      cases hissued
  · split at hneighbours
    · split at hneighbours
      · simp only [bind_eq_ok, require_eq_ok, exists_const] at hneighbours
        exact checkChildrenOfBitasset_spec hfind hneighbours.2 hcore hv hchild
      · exact absurd (require_eq_ok.mp hneighbours) hcore
    · exact checkChildrenOfBitasset_spec hfind hneighbours hcore hv hchild

theorem BitassetData.updateMedianFeeds_options (b : BitassetData) (now : Nat) :
    (b.updateMedianFeeds now).options = b.options := by
  simp only [updateMedianFeeds]
  split <;> rfl

theorem BitassetData.updateMedianFeeds_isPredictionMarket (b : BitassetData) (now : Nat) :
    (b.updateMedianFeeds now).isPredictionMarket = b.isPredictionMarket := by
  simp only [updateMedianFeeds]
  split <;> rfl

theorem AssetUpdateBitasset.updated_options (op : AssetUpdateBitasset) (now : Nat)
    (flags : BitVec 16) (b : BitassetData) : (op.updated now flags b).options = op.newOptions := by
  simp only [updated]
  split
  · rw [BitassetData.updateMedianFeeds_options, BitassetData.resetFeeds]
  · split
    · rw [BitassetData.updateMedianFeeds_options]
    · rfl

theorem AssetUpdateBitasset.updated_isPredictionMarket (op : AssetUpdateBitasset) (now : Nat)
    (flags : BitVec 16) (b : BitassetData) :
    (op.updated now flags b).isPredictionMarket = b.isPredictionMarket := by
  simp only [updated]
  split
  · rw [BitassetData.updateMedianFeeds_isPredictionMarket, BitassetData.resetFeeds]
  · split
    · rw [BitassetData.updateMedianFeeds_isPredictionMarket]
    · rfl

theorem AssetObject.terms_setBitasset {a : AssetObject} {b b' : BitassetData}
    (hb : a.bitasset = some b) (hpm : b'.isPredictionMarket = b.isPredictionMarket) :
    AssetObject.terms { a with bitasset := some b' } =
      { a.terms with backing := some b'.options.shortBackingAsset } := by
  simp only [terms, hb, Option.map_some, Option.any_some, hpm]

theorem AssetUpdateBitasset.apply_structured {op : AssetUpdateBitasset}
    (hR : R.Consistent ∧ R.Structured) (h : op.apply R = .ok R') :
    R'.Consistent ∧ R'.Structured := by
  simp only [apply, bitassetOf, doEvaluate, bind_eq_ok, require_eq_ok, exists_const, asset_eq_ok,
    demand_eq_ok, pure_eq_ok] at h
  obtain ⟨-, a, ha, b, hb, ⟨-, -, _, hchecks, -⟩, rfl⟩ := h
  have hterms := AssetObject.terms_setBitasset hb
    (op.updated_isPredictionMarket R.headBlockTime a.options.flags b)
  rw [updated_options] at hterms
  by_cases hsame : op.newOptions.shortBackingAsset = b.options.shortBackingAsset
  · refine structured_congr (setAsset_keeps_terms ha ?_) hR
    rw [hterms, hsame, ← AssetObject.terms_backing hb]
  · rw [if_neg hsame] at hchecks
    have hchecked := checkBacking_spec hchecks
    obtain ⟨u, hu, hprecision⟩ := hchecked.found
    have hmoves : Moves R (R.setAsset op.assetToUpdate { a with
        bitasset := some (op.updated R.headBlockTime a.options.flags b) }) op.assetToUpdate
        { a.terms with backing := some op.newOptions.shortBackingAsset } := by
      refine ⟨?_, fun j hj => ?_⟩
      · rw [setAsset_terms ha, if_pos rfl, hterms]
      · rw [setAsset_terms ha, if_neg hj]
    refine structured_of_backing hR hmoves (terms_of_find ha) ⟨_, backed_of_find ha hb⟩ rfl rfl hu
      hchecked.ne (fun hpm => ?_) hchecked.committee (fun k hk hissued => ?_) hchecked.children
    · exact hprecision ((AssetObject.terms_isPredictionMarket hb).symm.trans hpm)
    · rcases hchecked.behind k hk with rfl | hplain
      · exact hR.1.core_not_marketIssued hissued
      · exact hplain hissued

theorem Operation.apply_structured {op : Operation} (hR : R.Consistent ∧ R.Structured)
    (h : op.apply R = .ok R') : R'.Consistent ∧ R'.Structured := by
  cases op with
  | assetCreate op => exact op.apply_structured hR h
  | assetUpdateIssuer op => exact op.apply_structured hR h
  | assetUpdateBitasset op => exact op.apply_structured hR h
  | assetUpdate op =>
    simp only [Operation.apply, AssetUpdate.apply, bind_eq_ok, require_eq_ok, exists_const,
      asset_eq_ok,
      pure_eq_ok] at h
    obtain ⟨-, a, ha, -, -, rfl⟩ := h
    refine structured_congr (setAsset_keeps_terms ha ?_) hR
    cases hb : a.bitasset with
    | none => simp only [AssetUpdate.updated, AssetObject.terms, hb, Option.map_none]
    | some b =>
      simp only [AssetUpdate.updated, AssetObject.terms, hb, Option.map_some, Option.any_some]
      split <;> rfl
  | assetUpdateFeedProducers op =>
    simp only [Operation.apply, AssetUpdateFeedProducers.apply, bitassetOf, bind_eq_ok,
      require_eq_ok,
      exists_const, asset_eq_ok, demand_eq_ok, pure_eq_ok] at h
    obtain ⟨-, -, -, a, ha, b, hb, -, -, -, rfl⟩ := h
    refine structured_congr (setAsset_keeps_terms ha ?_) hR
    have hpm := (b.setFeedProducers op.newFeedProducers).updateMedianFeeds_isPredictionMarket
      R.headBlockTime
    rw [AssetObject.terms_setBitasset hb hpm, BitassetData.updateMedianFeeds_options,
      BitassetData.setFeedProducers, ← AssetObject.terms_backing hb]
  | assetPublishFeed op =>
    simp only [Operation.apply, AssetPublishFeed.apply, bitassetOf, bind_eq_ok, require_eq_ok,
      exists_const, asset_eq_ok, demand_eq_ok, pure_eq_ok] at h
    obtain ⟨-, a, ha, b, hb, -, -, rfl⟩ := h
    refine structured_congr (setAsset_keeps_terms ha ?_) hR
    have hpm := (b.setFeed ⟨op.publisher, R.headBlockTime, op.feed⟩)
      |>.updateMedianFeeds_isPredictionMarket R.headBlockTime
    rw [AssetObject.terms_setBitasset hb hpm, BitassetData.updateMedianFeeds_options,
      BitassetData.setFeed, ← AssetObject.terms_backing hb]

/-! ### Runs -/

/-- A step: an operation, or a change that leaves the terms of the assets. -/
inductive BackingStep (R : Registry) : Registry → Prop
  | operation (op : Operation) {R' : Registry} : op.apply R = .ok R' → BackingStep R R'
  | elsewhere {R' : Registry} : (∀ id, R'.terms id = R.terms id) → BackingStep R R'

/-- Every sequence of operations keeps the structure of the market issued assets. -/
theorem backing_structure_kept (hconsistent : R.Consistent) (hstructured : R.Structured)
    (h : Relation.ReflTransGen BackingStep R R') : R'.Consistent ∧ R'.Structured := by
  induction h with
  | refl => exact ⟨hconsistent, hstructured⟩
  | tail _ hstep ih =>
    cases hstep with
    | operation op happly => exact op.apply_structured ih happly
    | elsewhere hterms => exact structured_congr hterms ih

theorem Registry.perform_run {ops : List Operation} (h : R.perform ops = .ok R') :
    Relation.ReflTransGen BackingStep R R' :=
  foldlM_invariant (P := Relation.ReflTransGen BackingStep R)
    (fun _ op _ hM happly => hM.tail (.operation op happly)) ops R R' Relation.ReflTransGen.refl h

/-- Options of an asset that is created, with a core exchange rate of one. -/
def plainOptions : AssetOptions :=
  ⟨Market.maxShareSupply, 0, 0, 0x1ff, 0, ⟨⟨1, 0⟩, ⟨1, 1⟩⟩, [], [], [], []⟩

def backedBy (id : AssetId) : Market.BitassetOptions :=
  ⟨86400, 1, 86400, 0, 2000, id, Nat.one_pos, Nat.zero_le Market.fullPercent, Market.volume_le_2000⟩

/-- A registry with the core asset and three accounts. -/
def coreRegistry : Registry :=
  ⟨{0, 1, 2}, Table.ofList [⟨['N', 'E', 'S', 'T'], 5, 1, plainOptions, 0, none⟩], ⟨5, 10, 10⟩,
    1600000000,
    ∅, ∅⟩

theorem coreRegistry_plain {id : AssetId} {t : AssetTerms} (h : coreRegistry.terms id = some t) :
    id = 0 ∧ t.backing = none := by
  obtain ⟨a, ha, rfl⟩ := find_of_terms h
  have hall : ∀ r ∈ coreRegistry.assets.rows, r.1 = 0 ∧ r.2.terms.backing = none := by decide
  exact hall (id, a) (Table.find_iff_mem.mp ha)

theorem coreRegistry_structured : coreRegistry.Consistent ∧ coreRegistry.Structured := by
  have hnone : ∀ i j, ¬coreRegistry.Backed i j := by
    rintro i j ⟨t, ht, hj⟩
    rw [(coreRegistry_plain ht).2] at hj
    cases hj
  refine ⟨⟨⟨_, rfl, rfl⟩, fun i j hij => absurd hij (hnone i j)⟩, Structured.of_shallow
    (fun i j k hij => absurd hij (hnone i j)) (fun i t j ht hj => absurd ⟨t, ht, hj⟩ (hnone i j))
    fun i t j u ht hj => absurd ⟨t, ht, hj⟩ (hnone i j)⟩

/-- The committee creates an asset that is backed by the core asset, and an account another one that
it then puts behind the first and hands over to the committee. -/
def handover : List Operation :=
  [.assetCreate ⟨⟨0, 0⟩, 0, ['U', 'S', 'D'], 4, plainOptions, some (backedBy 0), false⟩,
    .assetCreate ⟨⟨0, 0⟩, 1, ['E', 'U', 'R'], 4, plainOptions, some (backedBy 0), false⟩,
    .assetUpdateBitasset ⟨⟨0, 0⟩, 1, 2, backedBy 1⟩, .assetUpdateIssuer ⟨⟨0, 0⟩, 1, 2, 0⟩]

theorem backing_structure_kept_handover :
    ∃ R, coreRegistry.perform handover = .ok R ∧ R.Backed 2 1 ∧ R.Structured := by
  have hrun : (coreRegistry.perform handover).toOption.any (fun R =>
      (R.terms 2).any fun t => t.backing = some 1) = true := by decide +kernel
  obtain ⟨R, hR, hstate⟩ := exists_ok_of_any hrun
  obtain ⟨t, ht, hbacking⟩ := (Option.any_eq_true _ _).mp hstate
  refine ⟨R, hR, ⟨t, ht, of_decide_eq_true hbacking⟩, ?_⟩
  exact (backing_structure_kept coreRegistry_structured.1 coreRegistry_structured.2
    (perform_run hR)).2

end Nestchain.Assets
