import Nestchain.Plugins.GroupedOrders

/-! The groups of limit orders whose prices are between `price::min` and `price::max`: the groups of
one percentage are disjoint intervals of prices, and each counts what its orders have for sale. -/

namespace Nestchain.Plugins

open Nestchain.Lib Nestchain.Market

theorem ok_bind {α β : Type} (a : α) (f : α → Attempt β) : (Except.ok a >>= f) = f a := rfl

/-! ### Prices -/

theorem groupRatio_pos (g : Nat) : 0 < groupRatio g := by
  unfold groupRatio
  rw [Rat.mkRat_eq_div]
  exact div_pos (by exact_mod_cast Nat.add_pos_left (by decide) g) (by norm_num [fullPercent])

theorem groupRatio_one_le (g : Nat) : 1 ≤ groupRatio g := by
  unfold groupRatio
  rw [Rat.mkRat_eq_div, le_div_iff₀ (by norm_num [fullPercent])]
  push_cast
  linarith [Nat.cast_nonneg (α := ℚ) g]

theorem le_scale {p q : Price} {r : ℚ} (hr : 1 ≤ r) (h : p.scale r = .ok q) : p ≤ q := by
  have hirrefl : p ≤ p := by
    rintro (hlt | ⟨-, hlt | ⟨-, hlt⟩⟩)
    · exact Nat.lt_irrefl _ hlt
    · exact Nat.lt_irrefl _ hlt
    · rw [mul_comm] at hlt
      exact lt_irrefl _ hlt
  have hnum : (r.den : Int) ≤ r.num := by
    have := Rat.num_div_den r ▸ hr
    rw [le_div_iff₀ (by exact_mod_cast r.den_pos), one_mul] at this
    exact_mod_cast this
  simp only [Price.scale, bind_eq_ok, require_eq_ok, exists_const] at h
  obtain ⟨-, -, h⟩ := h
  split at h
  · rw [pure_eq_ok] at h
    rw [h]
    exact hirrefl
  · rename_i hne
    simp only [bind_eq_ok, require_eq_ok, exists_const, pure_eq_ok] at h
    obtain ⟨np, -, -, rfl⟩ := h
    split
    · exact hirrefl
    · rename_i hnot
      exact fun hlt => hnot (Or.inl ⟨by omega, hlt⟩)

theorem key_lt_of_market_ne {low high p : Price} (hbase : high.base.assetId = low.base.assetId)
    (hquote : high.quote.assetId = low.quote.assetId) (hle : low.key ≤ p.key)
    (hne : low.base.assetId ≠ p.base.assetId ∨ low.quote.assetId ≠ p.quote.assetId) :
    high.key < p.key := by
  unfold Price.key at hle ⊢
  rw [Prod.Lex.toLex_le_toLex, Prod.Lex.toLex_le_toLex] at hle
  rw [Prod.Lex.toLex_lt_toLex, Prod.Lex.toLex_lt_toLex, hbase, hquote]
  rcases hle with hlt | ⟨heq, hlt | ⟨heq', -⟩⟩
  · exact Or.inl hlt
  · exact Or.inr ⟨heq, Or.inl hlt⟩
  · exact absurd heq' (hne.resolve_left fun h => h heq)

theorem market_of_between {low high p : Price} (hbase : high.base.assetId = low.base.assetId)
    (hquote : high.quote.assetId = low.quote.assetId) (hlow : low.key ≤ p.key)
    (hhigh : p.key ≤ high.key) :
    low.base.assetId = p.base.assetId ∧ low.quote.assetId = p.quote.assetId := by
  by_contra hne
  exact absurd (key_lt_of_market_ne hbase hquote hlow (not_and_or.mp hne)) (not_lt.mpr hhigh)

/-! ### The groups -/

/-- The price is in the interval of the group. -/
def Covers (e : GroupKey × GroupData) (p : Price) : Prop := e.1.minPrice ≤ p ∧ p ≤ e.2.maxPrice

instance (e : GroupKey × GroupData) (p : Price) : Decidable (Covers e p) :=
  inferInstanceAs (Decidable (_ ∧ _))

/-- The highest price is at most the lowest one times the ratio, or the lowest is at least the
highest one divided by it: the two differ by the rounding of the code. -/
def Close (e : GroupKey × GroupData) : Prop :=
  (∃ q, e.1.minPrice.scale (groupRatio e.1.group) = .ok q ∧ e.2.maxPrice ≤ q) ∨
    ∃ q, e.2.maxPrice.unscale (groupRatio e.1.group) = .ok q ∧ q ≤ e.1.minPrice

/-- A group is an interval of close prices of one market. -/
structure Proper (e : GroupKey × GroupData) : Prop where
  min_valid : e.1.minPrice.Valid
  max_valid : e.2.maxPrice.Valid
  base : e.2.maxPrice.base.assetId = e.1.minPrice.base.assetId
  quote : e.2.maxPrice.quote.assetId = e.1.minPrice.quote.assetId
  ordered : e.1.minPrice.key ≤ e.2.maxPrice.key
  close : Close e

/-- The order of the groups; those of one percentage descend. -/
def Follows (e e' : GroupKey × GroupData) : Prop :=
  e.1.group < e'.1.group ∨ e.1.group = e'.1.group ∧ e'.2.maxPrice.key < e.1.minPrice.key

structure Shape (idx : OrderGroups) : Prop where
  follows : idx.Pairwise Follows
  proper : ∀ e ∈ idx, Proper e

section Groups

variable {e e' n : GroupKey × GroupData} {p : Price} {g : Nat} {idx before rest : OrderGroups}

theorem Proper.covers_iff (h : Proper e) (hp : p.Valid) :
    Covers e p ↔ e.1.minPrice.key ≤ p.key ∧ p.key ≤ e.2.maxPrice.key := by
  unfold Covers
  rw [Price.le_iff_key h.min_valid.2.1 hp.2.1, Price.le_iff_key hp.2.1 h.max_valid.2.1]

theorem Follows.disjoint (h : Follows e e') (hg : e.1.group = e'.1.group) (he : Proper e)
    (he' : Proper e') (hp : p.Valid) (hc : Covers e p) : ¬Covers e' p := by
  intro hc'
  rcases h with h | ⟨-, h⟩
  · omega
  · exact absurd (((he'.covers_iff hp).mp hc').2.trans_lt h)
      (not_lt.mpr ((he.covers_iff hp).mp hc).1)

def Ahead (g : Nat) (p : Price) (e : GroupKey × GroupData) : Prop :=
  e.1.group < g ∨ e.1.group = g ∧ p.key < e.1.minPrice.key

/-- After the place of a price, and not with it. -/
def Behind (g : Nat) (p : Price) (e : GroupKey × GroupData) : Prop :=
  g < e.1.group ∨ e.1.group = g ∧ e.2.maxPrice.key < p.key

theorem Proper.less_iff (h : Proper e) (hp : p.Valid) : e.1.Less ⟨g, p⟩ ↔ Ahead g p e := by
  unfold GroupKey.Less Ahead
  rw [Price.lt_iff_key hp.2.1 h.min_valid.2.1]

theorem Ahead.less (h : Ahead g p e) (he : Proper e) (hp : p.Valid) :
    e.1.Less ⟨g, p⟩ ∧ ¬GroupKey.Less ⟨g, p⟩ e.1 := by
  refine ⟨(he.less_iff hp).mpr h, fun hless => ?_⟩
  have hless : g < e.1.group ∨ g = e.1.group ∧ e.1.minPrice < p := hless
  rw [Price.lt_iff_key he.min_valid.2.1 hp.2.1] at hless
  rcases h with hlt | ⟨heq, hlt⟩
  · omega
  · rcases hless with hless | ⟨-, hless⟩
    · omega
    · exact lt_asymm hlt hless

theorem Behind.less (h : Behind g p e) (he : Proper e) (hp : p.Valid) :
    GroupKey.Less ⟨g, p⟩ e.1 := by
  rcases h with h | ⟨rfl, h⟩
  · exact Or.inl h
  · exact Or.inr ⟨rfl, (Price.lt_iff_key he.min_valid.2.1 hp.2.1).mpr (he.ordered.trans_lt h)⟩

theorem Shape.cut (h : Shape idx) (g : Nat) (hp : p.Valid) :
    idx = idx.below ⟨g, p⟩ ++ idx.lowerBound ⟨g, p⟩ ∧
      (∀ e ∈ idx.below ⟨g, p⟩, Ahead g p e) ∧
      ∀ e ∈ idx.lowerBound ⟨g, p⟩, g < e.1.group ∨ e.1.group = g ∧ e.1.minPrice.key ≤ p.key := by
  have hpairs : idx.Pairwise fun e e' => Follows e e' ∧ Proper e ∧ Proper e' :=
    h.follows.imp_of_mem fun he he' hf => ⟨hf, h.proper _ he, h.proper _ he'⟩
  have hmono : ∀ e e' : GroupKey × GroupData, Follows e e' ∧ Proper e ∧ Proper e' →
      decide (e'.1.Less ⟨g, p⟩) = true → decide (e.1.Less ⟨g, p⟩) = true := by
    rintro e e' ⟨hf, he, he'⟩ hless
    rw [decide_eq_true_eq, he'.less_iff hp] at hless
    rw [decide_eq_true_eq, he.less_iff hp]
    rcases hf with hf | ⟨hg, hf⟩
    · rcases hless with hless | ⟨hless, -⟩
      · exact Or.inl (by omega)
      · exact Or.inl (by omega)
    · rcases hless with hless | ⟨hless, hlt⟩
      · exact Or.inl (by omega)
      · exact Or.inr ⟨by omega, hlt.trans (he'.ordered.trans_lt hf)⟩
  obtain ⟨htake, hdrop⟩ := takeWhile_dropWhile_eq_filter hpairs hmono
  refine ⟨(List.takeWhile_append_dropWhile).symm, fun e he => ?_, fun e he => ?_⟩
  · rw [OrderGroups.below, htake, List.mem_filter, decide_eq_true_eq] at he
    exact ((h.proper e he.1).less_iff hp).mp he.2
  · rw [OrderGroups.lowerBound, hdrop, List.mem_filter, Bool.not_eq_true',
      decide_eq_false_iff_not] at he
    have hnot := mt ((h.proper e he.1).less_iff hp).mpr he.2
    unfold Ahead at hnot
    push Not at hnot
    rcases Nat.lt_or_eq_of_le hnot.1 with hlt | heq
    · exact Or.inl hlt
    · exact Or.inr ⟨heq.symm, hnot.2 heq.symm⟩

theorem put_between {k : GroupKey} {d : GroupData}
    (hbefore : ∀ e ∈ before, e.1.Less k ∧ ¬k.Less e.1) (hrest : ∀ e ∈ rest, k.Less e.1) :
    OrderGroups.put k d (before ++ rest) = before ++ (k, d) :: rest := by
  induction before with
  | nil =>
    cases rest with
    | nil => rfl
    | cons e rest =>
      show (if k.Less e.1 then (k, d) :: e :: rest else _) = _
      rw [if_pos (hrest e List.mem_cons_self)]
      rfl
  | cons e before ih =>
    obtain ⟨hless, hnot⟩ := hbefore e List.mem_cons_self
    show (if k.Less e.1 then _ else if e.1.Less k then e :: OrderGroups.put k d
      (before ++ rest) else _) = _
    rw [if_neg hnot, if_pos hless, ih fun x hx => hbefore x (List.mem_cons_of_mem _ hx)]
    rfl

/-! ### Insertion -/

/-- What the insertion of an order does: a new group takes it, or a group that reaches to its
price. -/
structure Placed (g : Nat) (p : Price) (forSale : Int) (idx idx' : OrderGroups) : Prop where
  exists_split : ∃ before mid rest n, idx = before ++ mid ++ rest ∧ idx' = before ++ n :: rest ∧
    n.1.group = g ∧ Proper n ∧ n.1.minPrice.key ≤ p.key ∧ p.key ≤ n.2.maxPrice.key ∧
    (∀ x ∈ before, Follows x n) ∧ (∀ y ∈ rest, Follows n y) ∧
    (mid = [] ∧ n.2.totalForSale = forSale ∨
      ∃ e, mid = [e] ∧ e.1.group = g ∧ n.2.totalForSale = e.2.totalForSale + forSale ∧
        n.1.minPrice.key ≤ e.1.minPrice.key ∧ e.2.maxPrice.key ≤ n.2.maxPrice.key)

theorem single_proper (hp : p.Valid) (g : Nat) (forSale : Int) : Proper (⟨g, p⟩, ⟨p, forSale⟩) := by
  obtain ⟨q, hq, -⟩ := Price.scale_ok hp (groupRatio_pos g)
  exact ⟨hp, hp, rfl, rfl, le_refl _, Or.inl ⟨q, hq, le_scale (groupRatio_one_le g) hq⟩⟩

theorem create_placed (h : Shape (before ++ rest)) (hp : p.Valid)
    (hbefore : ∀ e ∈ before, Ahead g p e)
    (hrest : ∀ e ∈ rest, Behind g p e) (forSale : Int) :
    Placed g p forSale (before ++ rest)
      (OrderGroups.put ⟨g, p⟩ ⟨p, forSale⟩ (before ++ rest)) := by
  have hput : OrderGroups.put ⟨g, p⟩ ⟨p, forSale⟩ (before ++ rest) =
      before ++ (⟨g, p⟩, ⟨p, forSale⟩) :: rest := by
    refine put_between (fun e he => ?_) fun e he => ?_
    · exact (hbefore e he).less (h.proper e (List.mem_append_left _ he)) hp
    · exact (hrest e he).less (h.proper e (List.mem_append_right _ he)) hp
  refine ⟨before, [], rest, (⟨g, p⟩, ⟨p, forSale⟩), by simp, hput, rfl, single_proper hp g forSale,
    le_refl _, le_refl _, fun x hx => ?_, fun y hy => ?_, Or.inl ⟨rfl, rfl⟩⟩
  · exact hbefore x hx
  · rcases hrest y hy with hlt | ⟨heq, hlt⟩
    · exact Or.inl hlt
    · exact Or.inr ⟨heq.symm, hlt⟩

theorem checkPrevious_placed {o : LimitOrder} (h : Shape (before ++ rest)) (hp : o.sellPrice.Valid)
    (hbefore : ∀ e ∈ before, Ahead g o.sellPrice e) (hrest : ∀ e ∈ rest, Behind g o.sellPrice e) :
    ∃ idx', checkPrevious g o o.sellPrice false before rest = .ok idx' ∧
      Placed g o.sellPrice o.forSale (before ++ rest) idx' := by
  have hcreate := create_placed h hp hbefore hrest o.forSale
  unfold checkPrevious
  cases hlast : before.getLast? with
  | none => exact ⟨_, rfl, hcreate⟩
  | some e =>
    obtain ⟨k, d⟩ := e
    obtain ⟨front, rfl⟩ := List.getLast?_eq_some_iff.mp hlast
    by_cases hforeign : k.Foreign g o.sellPrice
    · simp only [if_pos hforeign]
      exact ⟨_, rfl, hcreate⟩
    · have hlastMem : (k, d) ∈ front ++ [(k, d)] ++ rest := by simp
      have hproper := h.proper _ hlastMem
      obtain ⟨hgroup, hbase, hquote⟩ : k.group = g ∧
          k.minPrice.base.assetId = o.sellPrice.base.assetId ∧
          k.minPrice.quote.assetId = o.sellPrice.quote.assetId := by
        unfold GroupKey.Foreign at hforeign
        push Not at hforeign
        exact hforeign
      obtain ⟨minPrice, hmin, -⟩ := Price.unscale_ok hproper.max_valid (groupRatio_pos g)
      simp only [if_neg hforeign, hmin, Bool.false_eq_true, false_and, if_false]
      by_cases hout : o.sellPrice < minPrice
      · exact ⟨_, if_pos hout, hcreate⟩
      · have hfront : ∀ e ∈ front, Ahead g o.sellPrice e := fun e he =>
          hbefore e (List.mem_append_left _ he)
        have hlow : o.sellPrice.key < k.minPrice.key := by
          rcases hbefore (k, d) (by simp) with hlt | ⟨-, hlt⟩
          · exact absurd hgroup (Nat.ne_of_lt hlt)
          · exact hlt
        have hput : OrderGroups.put ⟨g, o.sellPrice⟩ ⟨d.maxPrice, o.forSale + d.totalForSale⟩
            (front ++ rest) =
              front ++ (⟨g, o.sellPrice⟩, ⟨d.maxPrice, o.forSale + d.totalForSale⟩) :: rest := by
          refine put_between (fun e he => ?_) fun e he => ?_
          · exact (hfront e he).less (h.proper e (by simp [he])) hp
          · exact (hrest e he).less (h.proper e (by simp [he])) hp
        refine ⟨_, if_neg hout, front, [(k, d)], rest,
          (⟨g, o.sellPrice⟩, ⟨d.maxPrice, o.forSale + d.totalForSale⟩), rfl, ?_, rfl, ?_, le_refl _,
          hlow.le.trans hproper.ordered, fun x hx => ?_, fun y hy => ?_,
          Or.inr ⟨(k, d), rfl, hgroup, add_comm _ _, hlow.le, le_refl _⟩⟩
        · rw [List.dropLast_concat]
          exact hput
        · exact ⟨hp, hproper.max_valid, hproper.base.trans hbase, hproper.quote.trans hquote,
            hlow.le.trans hproper.ordered, Or.inr ⟨minPrice, hmin, hout⟩⟩
        · have hpairs := h.follows
          rw [List.append_assoc, List.pairwise_append] at hpairs
          have hf : Follows x (k, d) := hpairs.2.2 x hx (k, d) (by simp)
          rw [← hgroup]
          exact hf
        · rcases hrest y hy with hlt | ⟨heq, hlt⟩
          · exact Or.inl hlt
          · exact Or.inr ⟨heq.symm, hlt⟩

/-- The price is between `price::min` and `price::max` of its assets. -/
def Representable (p : Price) : Prop :=
  ∃ low high, Price.smallest p.base.assetId p.quote.assetId = .ok low ∧
    Price.greatest p.base.assetId p.quote.assetId = .ok high ∧ low ≤ p ∧ p ≤ high

theorem Shape.behind {k : GroupKey} {d : GroupData} (h : Shape (before ++ (k, d) :: rest))
    (hfirst : Behind g p (k, d)) : ∀ e ∈ (k, d) :: rest, Behind g p e := by
  have hpairs := (List.pairwise_append.mp h.follows).2.1
  have hproper := h.proper (k, d) (by simp)
  intro e he
  rcases List.mem_cons.mp he with rfl | he
  · exact hfirst
  · rcases (List.pairwise_cons.mp hpairs).1 e he with hlt | ⟨heq, hlt⟩
    · rcases hfirst with hfirst | ⟨hfirst, -⟩
      · exact Or.inl (hfirst.trans hlt)
      · exact Or.inl (hfirst ▸ hlt)
    · rcases hfirst with hfirst | ⟨hfirst, hmax⟩
      · exact Or.inl (heq ▸ hfirst)
      · exact Or.inr ⟨heq ▸ hfirst, hlt.trans_le (hproper.ordered.trans hmax.le)⟩

theorem extend_placed {k : GroupKey} {d : GroupData} (h : Shape (before ++ (k, d) :: rest))
    (hp : p.Valid) (hbefore : ∀ e ∈ before, Ahead g p e) (hgroup : k.group = g)
    (hbase : k.minPrice.base.assetId = p.base.assetId)
    (hquote : k.minPrice.quote.assetId = p.quote.assetId) (hlow : k.minPrice.key ≤ p.key)
    (hclose : d.maxPrice < p → ∃ q, k.minPrice.scale (groupRatio g) = .ok q ∧ p ≤ q)
    (forSale : Int) :
    Placed g p forSale (before ++ (k, d) :: rest) (before ++
      (k, ⟨if d.maxPrice < p then p else d.maxPrice, d.totalForSale + forSale⟩) :: rest) := by
  have hproper := h.proper (k, d) (by simp)
  obtain ⟨-, hpairs, hcross⟩ := List.pairwise_append.mp h.follows
  have hkey := Price.lt_iff_key hproper.max_valid.2.1 hp.2.1
  have hmax : d.maxPrice.key ≤ (if d.maxPrice < p then p else d.maxPrice).key ∧
      p.key ≤ (if d.maxPrice < p then p else d.maxPrice).key := by
    split
    · rename_i hlt
      exact ⟨(hkey.mp hlt).le, le_refl _⟩
    · rename_i hge
      exact ⟨le_refl _, not_lt.mp (mt hkey.mpr hge)⟩
  refine ⟨before, [(k, d)], rest, _, by simp, rfl, hgroup, ?_, hlow, hmax.2, fun x hx => ?_,
    fun y hy => ?_, Or.inr ⟨(k, d), rfl, hgroup, rfl, le_refl _, hmax.1⟩⟩
  · by_cases hlt : d.maxPrice < p
    · simp only [if_pos hlt]
      obtain ⟨q, hq, hle⟩ := hclose hlt
      exact ⟨hproper.min_valid, hp, hbase.symm, hquote.symm, hlow, Or.inl ⟨q, hgroup ▸ hq, hle⟩⟩
    · simp only [if_neg hlt]
      exact ⟨hproper.min_valid, hproper.max_valid, hproper.base, hproper.quote, hproper.ordered,
        hproper.close⟩
  · rcases hcross x hx (k, d) List.mem_cons_self with hlt | ⟨heq, hlt⟩
    · exact Or.inl hlt
    · refine Or.inr ⟨heq, ?_⟩
      show (if d.maxPrice < p then p else d.maxPrice).key < x.1.minPrice.key
      split
      · rcases hbefore x hx with hx' | ⟨-, hx'⟩
        · exact absurd (heq.trans hgroup) (Nat.ne_of_lt hx')
        · exact hx'
      · exact hlt
  · exact (List.pairwise_cons.mp hpairs).1 y hy

theorem insertOrder_representable {o : LimitOrder} (hr : Representable o.sellPrice)
    (hempty : idx ≠ []) :
    insertOrder o idx g =
      match idx.lowerBound ⟨g, o.sellPrice⟩ with
      | [] => checkPrevious g o o.sellPrice false (idx.below ⟨g, o.sellPrice⟩) []
      | (k, d) :: rest =>
        if k.Foreign g o.sellPrice then
          checkPrevious g o o.sellPrice false (idx.below ⟨g, o.sellPrice⟩) ((k, d) :: rest)
        else (do
          let outOfRange ←
            if d.maxPrice < o.sellPrice then do
              let maxPrice ← k.minPrice.scale (groupRatio g)
              pure (decide (maxPrice < o.sellPrice))
            else pure false
          if outOfRange then
            checkPrevious g o o.sellPrice false (idx.below ⟨g, o.sellPrice⟩) ((k, d) :: rest)
          else
            pure (idx.below ⟨g, o.sellPrice⟩ ++
              (k, ⟨if d.maxPrice < o.sellPrice then o.sellPrice else d.maxPrice,
                d.totalForSale + o.forSale⟩) :: rest)) := by
  obtain ⟨low, high, hlow, hhigh, hle, hge⟩ := hr
  have hnotMax : ¬high < o.sellPrice := hge
  have hnotMin : ¬o.sellPrice < low := hle
  unfold insertOrder
  rw [if_neg hempty, hlow, hhigh]
  simp only [ok_bind, hnotMax, hnotMin, if_false]
  cases idx.lowerBound ⟨g, o.sellPrice⟩ with
  | nil => simp only [decide_false]
  | cons e rest =>
    simp only [decide_false, decide_eq_true_eq, Bool.false_eq_true, false_and, and_false, or_false,
      if_false]

theorem insertOrder_placed {o : LimitOrder} (h : Shape idx) (hp : o.sellPrice.Valid)
    (hr : Representable o.sellPrice) (g : Nat) :
    ∃ idx', insertOrder o idx g = .ok idx' ∧ Placed g o.sellPrice o.forSale idx idx' := by
  by_cases hempty : idx = []
  · subst hempty
    have hcreate : Placed g o.sellPrice o.forSale ([] ++ [])
        (OrderGroups.put ⟨g, o.sellPrice⟩ ⟨o.sellPrice, o.forSale⟩ ([] ++ [])) :=
      create_placed h hp (fun _ he => (List.not_mem_nil he).elim)
        (fun _ he => (List.not_mem_nil he).elim) o.forSale
    exact ⟨_, rfl, hcreate⟩
  obtain ⟨hcut, hbefore, hrest⟩ := h.cut g hp
  rw [insertOrder_representable hr hempty]
  rw [hcut] at h
  generalize idx.below ⟨g, o.sellPrice⟩ = before at *
  cases hlb : idx.lowerBound ⟨g, o.sellPrice⟩ with
  | nil =>
    rw [hlb] at h hcut
    rw [hcut]
    exact checkPrevious_placed h hp hbefore fun _ he => (List.not_mem_nil he).elim
  | cons e rest =>
    obtain ⟨k, d⟩ := e
    rw [hlb] at h hcut hrest
    have hproper := h.proper (k, d) (by simp)
    have hfirst := hrest (k, d) List.mem_cons_self
    rw [hcut]
    by_cases hforeign : k.Foreign g o.sellPrice
    · simp only [if_pos hforeign]
      refine checkPrevious_placed h hp hbefore (h.behind ?_)
      rcases hfirst with hlt | ⟨heq, hle⟩
      · exact Or.inl hlt
      · exact Or.inr ⟨heq, key_lt_of_market_ne hproper.base hproper.quote hle
          (hforeign.resolve_left fun hne => hne heq)⟩
    · obtain ⟨hgroup, hbase, hquote⟩ : k.group = g ∧
          k.minPrice.base.assetId = o.sellPrice.base.assetId ∧
          k.minPrice.quote.assetId = o.sellPrice.quote.assetId := by
        unfold GroupKey.Foreign at hforeign
        push Not at hforeign
        exact hforeign
      have hlow : k.minPrice.key ≤ o.sellPrice.key := by
        rcases hfirst with hlt | ⟨-, hle⟩
        · exact absurd hgroup (Nat.ne_of_gt hlt)
        · exact hle
      simp only [if_neg hforeign]
      by_cases hmax : d.maxPrice < o.sellPrice
      · obtain ⟨q, hq, -⟩ := Price.scale_ok hproper.min_valid (groupRatio_pos g)
        simp only [if_pos hmax, hq, ok_bind]
        by_cases hout : q < o.sellPrice
        · have hbehind : Behind g o.sellPrice (k, d) :=
            Or.inr ⟨hgroup, (Price.lt_iff_key hproper.max_valid.2.1 hp.2.1).mp hmax⟩
          simp only [hout, decide_true, pure_bind, if_true]
          exact checkPrevious_placed h hp hbefore (h.behind hbehind)
        · simp only [hout, decide_false, pure_bind, Bool.false_eq_true, if_false]
          have hplaced := extend_placed h hp hbefore hgroup hbase hquote hlow
            (fun _ => ⟨q, hq, hout⟩) o.forSale
          rw [if_pos hmax] at hplaced
          exact ⟨_, rfl, hplaced⟩
      · simp only [if_neg hmax, pure_bind, Bool.false_eq_true, if_false]
        have hplaced := extend_placed h hp hbefore hgroup hbase hquote hlow
          (fun hlt => absurd hlt hmax) o.forSale
        rw [if_neg hmax] at hplaced
        exact ⟨_, rfl, hplaced⟩

/-! ### Removal -/

theorem removeFromGroup_found {o : LimitOrder} (h : Shape idx) (hp : o.sellPrice.Valid)
    (he : e ∈ idx)
    (hg : e.1.group = g) (hc : Covers e o.sellPrice) (hle : o.forSale ≤ e.2.totalForSale)
    (removeEmpty : Bool) (warnings : List Mismatch) : ∃ before rest, idx = before ++ e :: rest ∧
      removeFromGroup o removeEmpty (idx, warnings) g =
        (if removeEmpty = false ∨ o.forSale < e.2.totalForSale then
          before ++ (e.1, { e.2 with totalForSale := e.2.totalForSale - o.forSale }) :: rest
        else before ++ rest, warnings) := by
  obtain ⟨hcut, hbefore, hrest⟩ := h.cut g hp
  have hproper := h.proper e he
  obtain ⟨hlow, hhigh⟩ := (hproper.covers_iff hp).mp hc
  have hmem : e ∈ idx.lowerBound ⟨g, o.sellPrice⟩ := by
    rw [hcut, List.mem_append] at he
    refine he.resolve_left fun hmem => ?_
    rcases hbefore e hmem with hlt | ⟨-, hlt⟩
    · omega
    · exact absurd hlow (not_le.mpr hlt)
  have hpairs := h.follows
  rw [hcut] at hpairs
  cases hlb : idx.lowerBound ⟨g, o.sellPrice⟩ with
  | nil =>
    rw [hlb] at hmem
    exact (List.not_mem_nil hmem).elim
  | cons x rest =>
    rw [hlb] at hmem hrest hcut hpairs
    obtain rfl : e = x := by
      rcases List.mem_cons.mp hmem with heq | hmem
      · exact heq
      · exfalso
        have hx := hrest x List.mem_cons_self
        rcases (List.pairwise_cons.mp (List.pairwise_append.mp hpairs).2.1).1 e hmem with
          hlt | ⟨heq, hlt⟩
        · omega
        · rcases hx with hx | ⟨-, hx⟩
          · omega
          · exact absurd (hhigh.trans_lt hlt) (not_lt.mpr hx)
    obtain ⟨hbase, hquote⟩ := market_of_between hproper.base hproper.quote hlow hhigh
    have hfound : ¬(e.1.Foreign g o.sellPrice ∨ e.2.maxPrice < o.sellPrice) := by
      rintro ((hne | hne | hne) | hlt)
      · exact hne hg
      · exact hne hbase
      · exact hne hquote
      · exact hc.2 hlt
    refine ⟨idx.below ⟨g, o.sellPrice⟩, rest, hcut, ?_⟩
    unfold removeFromGroup
    simp only [hlb, if_neg hfound, if_neg (not_lt.mpr hle)]
    split <;> rfl

end Groups

/-! ### The orders -/

/-- What the groups of a percentage keep of the orders. -/
structure Keeps (g : Nat) (idx : OrderGroups) (orders : Table LimitOrder) : Prop where
  covered : ∀ id o, orders.find id = some o → ∃ e ∈ idx, e.1.group = g ∧ Covers e o.sellPrice
  total : ∀ e ∈ idx, e.1.group = g → e.2.totalForSale =
    orders.sum fun _ o => if Covers e o.sellPrice then o.forSale else 0

/-- The orders `orders'` are those of `orders` and `o`. -/
structure Adds (orders : Table LimitOrder) (o : LimitOrder)
    (orders' : Table LimitOrder) : Prop where
  new : ∃ id, orders'.find id = some o
  find : ∀ id x, orders'.find id = some x → x = o ∨ ∃ j, orders.find j = some x
  kept : ∀ id x, orders.find id = some x → ∃ j, orders'.find j = some x
  sum : ∀ f : LimitOrder → Int,
    (orders'.sum fun _ x => f x) = (orders.sum fun _ x => f x) + f o

/-- The orders that the plugin deals with here. -/
structure Regular (o : LimitOrder) : Prop where
  price : o.sellPrice.Valid
  forSale : 0 < o.forSale
  representable : Representable o.sellPrice

section Orders

variable {g : Nat} {idx idx' : OrderGroups} {orders orders' : Table LimitOrder} {o : LimitOrder}

theorem Adds.create (orders : Table LimitOrder) (o : LimitOrder) :
    Adds orders o (orders.create o) where
  new := ⟨orders.next, Table.find_create_self orders o⟩
  find id x hx := by
    rcases Table.find_create_iff.mp hx with hx | ⟨-, rfl⟩
    · exact Or.inr ⟨id, hx⟩
    · exact Or.inl rfl
  kept id x hx := ⟨id, Table.find_create_iff.mpr (Or.inl hx)⟩
  sum f := Table.sum_create orders o fun _ x => f x

theorem Adds.remove {id : Nat} (h : orders.find id = some o) :
    Adds (orders.remove id) o orders where
  new := ⟨id, h⟩
  find j x hx := by
    by_cases hj : j = id
    · subst hj
      rw [h] at hx
      exact Or.inl (Option.some.inj hx).symm
    · exact Or.inr ⟨j, by rw [Table.find_remove_ne hj]; exact hx⟩
  kept j x hx := ⟨j, (Table.find_remove_iff.mp hx).2⟩
  sum f := by
    rw [Table.sum_remove h]
    exact (sub_add_cancel _ _).symm

theorem Adds.set {id : Nat} {x : LimitOrder} (h : orders.find id = some x) (o : LimitOrder) :
    Adds (orders.remove id) o (orders.set id o) := by
  have hset : (orders.set id o).find id = some o := Table.find_set_self h
  have hremove := Adds.remove hset
  rw [Table.remove_set] at hremove
  exact hremove

theorem Placed.shape {p : Price} {forSale : Int} (h : Shape idx)
    (hp : Placed g p forSale idx idx') :
    Shape idx' ∧ ∀ e, e.1.group ≠ g → (e ∈ idx' ↔ e ∈ idx) := by
  obtain ⟨before, mid, rest, n, rfl, rfl, hg, hn, -, -, hbefore, hrest, hmid⟩ := hp.exists_split
  have hmidGroup : ∀ e ∈ mid, e.1.group = g := by
    intro e he
    rcases hmid with ⟨rfl, -⟩ | ⟨e0, rfl, he0, -⟩
    · exact (List.not_mem_nil he).elim
    · rw [List.mem_singleton.mp he]
      exact he0
  obtain ⟨hfront, hback, hcross⟩ := List.pairwise_append.mp h.follows
  refine ⟨⟨?_, fun e he => ?_⟩, fun e he => ?_⟩
  · refine List.pairwise_append.mpr ⟨(List.pairwise_append.mp hfront).1,
      List.pairwise_cons.mpr ⟨hrest, hback⟩, fun x hx y hy => ?_⟩
    rcases List.mem_cons.mp hy with rfl | hy
    · exact hbefore x hx
    · exact hcross x (List.mem_append_left _ hx) y hy
  · rcases List.mem_append.mp he with he | he
    · exact h.proper e (by simp [he])
    · rcases List.mem_cons.mp he with rfl | he
      · exact hn
      · exact h.proper e (by simp [he])
  · simp only [List.mem_append, List.mem_cons]
    constructor
    · rintro (he' | rfl | he')
      · exact Or.inl (Or.inl he')
      · exact absurd hg he
      · exact Or.inr he'
    · rintro ((he' | he') | he')
      · exact Or.inl he'
      · exact absurd (hmidGroup e he') he
      · exact Or.inr (Or.inr he')

theorem Placed.keeps (h : Shape idx) (hk : Keeps g idx orders) (hadds : Adds orders o orders')
    (hvalid : ∀ id x, orders.find id = some x → x.sellPrice.Valid) (ho : o.sellPrice.Valid)
    (hp : Placed g o.sellPrice o.forSale idx idx') : Keeps g idx' orders' := by
  obtain ⟨before, mid, rest, n, rfl, rfl, hg, hn, hlow, hhigh, hbefore, hrest, hmid⟩ :=
    hp.exists_split
  have hcovers : Covers n o.sellPrice := (hn.covers_iff ho).mpr ⟨hlow, hhigh⟩
  have hother : ∀ e, e ∈ before ∨ e ∈ rest → e.1.group = g → ∀ q : Price, q.Valid → Covers n q →
      ¬Covers e q := by
    intro e he heg q hq hc
    have hproper : Proper e := h.proper e (by rcases he with he | he <;> simp [he])
    rcases he with he | he
    · exact fun hc' => (hbefore e he).disjoint (heg.trans hg.symm) hproper hn hq hc' hc
    · exact (hrest e he).disjoint (hg.trans heg.symm) hn hproper hq hc
  refine ⟨fun id x hx => ?_, fun e he heg => ?_⟩
  · rcases hadds.find id x hx with rfl | ⟨j, hj⟩
    · exact ⟨n, by simp, hg, hcovers⟩
    · obtain ⟨e, he, heg, hc⟩ := hk.covered j x hj
      rcases List.mem_append.mp he with he | he
      · rcases List.mem_append.mp he with he | he
        · exact ⟨e, by simp [he], heg, hc⟩
        · rcases hmid with ⟨rfl, -⟩ | ⟨e0, rfl, he0, -, hmin, hmax⟩
          · exact (List.not_mem_nil he).elim
          · obtain rfl := List.mem_singleton.mp he
            have hq := hvalid j x hj
            obtain ⟨h1, h2⟩ := ((h.proper e (by simp)).covers_iff hq).mp hc
            exact ⟨n, by simp, hg, (hn.covers_iff hq).mpr ⟨hmin.trans h1, h2.trans hmax⟩⟩
      · exact ⟨e, by simp [he], heg, hc⟩
  · rw [hadds.sum fun x => if Covers e x.sellPrice then x.forSale else 0]
    have hcases : e = n ∨ e ∈ before ∨ e ∈ rest := by
      rcases List.mem_append.mp he with he | he
      · exact Or.inr (Or.inl he)
      · exact (List.mem_cons.mp he).imp id Or.inr
    rcases hcases with rfl | hcases
    · rw [if_pos hcovers]
      rcases hmid with ⟨rfl, htotal⟩ | ⟨e0, rfl, he0, htotal, hmin, hmax⟩
      · rw [htotal, Table.sum_eq_zero, zero_add]
        intro id x hx
        refine if_neg fun hc => ?_
        obtain ⟨e', he', heg', hc'⟩ := hk.covered id x hx
        exact hother e' (by simpa using he') heg' _ (hvalid id x hx) hc hc'
      · rw [htotal, hk.total e0 (by simp) he0]
        refine congrArg (· + o.forSale) (Table.sum_congr fun id x hx => ?_)
        have hq := hvalid id x hx
        have hiff : Covers e0 x.sellPrice ↔ Covers e x.sellPrice := by
          constructor
          · intro hc
            obtain ⟨h1, h2⟩ := ((h.proper e0 (by simp)).covers_iff hq).mp hc
            exact (hn.covers_iff hq).mpr ⟨hmin.trans h1, h2.trans hmax⟩
          · intro hc
            obtain ⟨e', he', heg', hc'⟩ := hk.covered id x hx
            by_cases heq : e' = e0
            · exact heq ▸ hc'
            · refine absurd hc' (hother e' ?_ heg' _ hq hc)
              simp only [List.mem_append, List.mem_singleton, heq, or_false] at he'
              exact he'
        simp only [hiff]
    · rw [if_neg fun hc => hother e hcases heg _ ho hcovers hc, add_zero]
      exact hk.total e (by rcases hcases with he | he <;> simp [he]) heg

theorem Shape.withTotal {before rest : OrderGroups} {e : GroupKey × GroupData}
    (h : Shape (before ++ e :: rest)) (total : Int) :
    Shape (before ++ (e.1, { e.2 with totalForSale := total }) :: rest) := by
  obtain ⟨hfront, hback, hcross⟩ := List.pairwise_append.mp h.follows
  obtain ⟨hfirst, hback⟩ := List.pairwise_cons.mp hback
  refine ⟨List.pairwise_append.mpr ⟨hfront, List.pairwise_cons.mpr ⟨hfirst, hback⟩, fun x hx y hy =>
    ?_⟩,
    fun x hx => ?_⟩
  · rcases List.mem_cons.mp hy with rfl | hy
    · exact hcross x hx e List.mem_cons_self
    · exact hcross x hx y (List.mem_cons_of_mem _ hy)
  · rcases List.mem_append.mp hx with hx | hx
    · exact h.proper x (by simp [hx])
    · rcases List.mem_cons.mp hx with rfl | hx
      · obtain ⟨h1, h2, h3, h4, h5, h6⟩ := h.proper e (by simp)
        exact ⟨h1, h2, h3, h4, h5, h6⟩
      · exact h.proper x (by simp [hx])

theorem Shape.erase {before rest : OrderGroups} {e : GroupKey × GroupData}
    (h : Shape (before ++ e :: rest)) : Shape (before ++ rest) := by
  have hsub : (before ++ rest).Sublist (before ++ e :: rest) :=
    (List.Sublist.refl before).append (List.sublist_cons_self e rest)
  exact ⟨h.follows.sublist hsub, fun x hx => h.proper x (hsub.subset hx)⟩

theorem Shape.not_covers {before rest : OrderGroups} {e x : GroupKey × GroupData} {p : Price}
    (h : Shape (before ++ e :: rest)) (hp : p.Valid) (he : Covers e p) (hx : x ∈ before ∨ x ∈ rest)
    (hg : x.1.group = e.1.group) : ¬Covers x p := by
  obtain ⟨-, hback, hcross⟩ := List.pairwise_append.mp h.follows
  have hproper := h.proper e (by simp)
  rcases hx with hx | hx
  · intro hc
    exact (hcross x hx e List.mem_cons_self).disjoint hg
      (h.proper x (by simp [hx])) hproper hp hc he
  · exact ((List.pairwise_cons.mp hback).1 x hx).disjoint hg.symm hproper
      (h.proper x (by simp [hx]))
      hp he

theorem removeFromGroup_keeps (h : Shape idx) (hk : Keeps g idx orders')
    (hadds : Adds orders o orders')
    (hreg : ∀ id x, orders'.find id = some x → Regular x) (removeEmpty : Bool)
    (warnings : List Mismatch) :
    ∃ idx', removeFromGroup o removeEmpty (idx, warnings) g = (idx', warnings) ∧ Shape idx' ∧
      Keeps g idx' orders ∧ ∀ e, e.1.group ≠ g → (e ∈ idx' ↔ e ∈ idx) := by
  obtain ⟨id, hid⟩ := hadds.new
  have ho := hreg id o hid
  obtain ⟨e, he, hg, hc⟩ := hk.covered id o hid
  have hold : ∀ j x, orders.find j = some x → Regular x := by
    intro j x hx
    obtain ⟨i, hi⟩ := hadds.kept j x hx
    exact hreg i x hi
  have hnonneg : ∀ (e' : GroupKey × GroupData) j x, orders.find j = some x →
      0 ≤ if Covers e' x.sellPrice then x.forSale else 0 := by
    intro e' j x hx
    split
    · exact (hold j x hx).forSale.le
    · exact le_refl _
  have htotal := hk.total e he hg
  rw [hadds.sum fun x => if Covers e x.sellPrice then x.forSale else 0, if_pos hc] at htotal
  have hsum := Table.sum_nonneg (hnonneg e)
  obtain ⟨before, rest, rfl, hremove⟩ := removeFromGroup_found h ho.price he hg hc (by omega)
    removeEmpty warnings
  refine ⟨_, hremove, ?_⟩
  have hsame : ∀ x, x ∈ before ∨ x ∈ rest → x.1.group = g → x.2.totalForSale =
      orders.sum fun _ y => if Covers x y.sellPrice then y.forSale else 0 := by
    intro x hx hxg
    have hxtotal := hk.total x (by rcases hx with hx | hx <;> simp [hx]) hxg
    rw [hadds.sum fun y => if Covers x y.sellPrice then y.forSale else 0,
      if_neg (h.not_covers ho.price hc hx (hxg.trans hg.symm)), add_zero] at hxtotal
    exact hxtotal
  by_cases hkeep : removeEmpty = false ∨ o.forSale < e.2.totalForSale
  · rw [if_pos hkeep]
    refine ⟨h.withTotal _, ⟨fun j x hx => ?_, fun x hx hxg => ?_⟩, fun x hx => ?_⟩
    · obtain ⟨i, hi⟩ := hadds.kept j x hx
      obtain ⟨e', he', hg', hc'⟩ := hk.covered i x hi
      rcases List.mem_append.mp he' with he' | he'
      · exact ⟨e', by simp [he'], hg', hc'⟩
      · rcases List.mem_cons.mp he' with rfl | he'
        · exact ⟨_, List.mem_append_right _ List.mem_cons_self, hg', hc'⟩
        · exact ⟨e', by simp [he'], hg', hc'⟩
    · rcases List.mem_append.mp hx with hx | hx
      · exact hsame x (Or.inl hx) hxg
      · rcases List.mem_cons.mp hx with rfl | hx
        · show e.2.totalForSale - o.forSale = orders.sum fun _ y =>
            if Covers e y.sellPrice then y.forSale else 0
          omega
        · exact hsame x (Or.inr hx) hxg
    · have hne : x ≠ e ∧ x ≠ (e.1, { e.2 with totalForSale := e.2.totalForSale - o.forSale }) := by
        constructor <;> · rintro rfl; exact hx hg
      simp [hne.1, hne.2]
  · -- the order was the only one of the group
    rw [if_neg hkeep]
    have hzero : (orders.sum fun _ y => if Covers e y.sellPrice then y.forSale else 0) = 0 := by
      have := fun hlt => hkeep (Or.inr hlt)
      omega
    have hnone : ∀ j x, orders.find j = some x → ¬Covers e x.sellPrice := by
      intro j x hx hcx
      have hle := Table.le_sum hx (hnonneg e)
      rw [if_pos hcx, hzero] at hle
      exact absurd (hold j x hx).forSale (not_lt.mpr hle)
    refine ⟨h.erase, ⟨fun j x hx => ?_, fun x hx hxg => ?_⟩, fun x hx => ?_⟩
    · obtain ⟨i, hi⟩ := hadds.kept j x hx
      obtain ⟨e', he', hg', hc'⟩ := hk.covered i x hi
      have hne : e' ≠ e := fun heq => hnone j x hx (heq ▸ hc')
      exact ⟨e', by simpa [hne] using he', hg', hc'⟩
    · exact hsame x (List.mem_append.mp hx) hxg
    · have hne : x ≠ e := by
        rintro rfl
        exact hx hg
      simp [hne]

/-! ### All percentages -/

theorem Keeps.congr (hk : Keeps g idx orders) (h : ∀ e, e.1.group = g → (e ∈ idx' ↔ e ∈ idx)) :
    Keeps g idx' orders := by
  refine ⟨fun id x hx => ?_, fun e he hg => hk.total e ((h e hg).mp he) hg⟩
  obtain ⟨e, he, hg, hc⟩ := hk.covered id x hx
  exact ⟨e, (h e hg).mpr he, hg, hc⟩

theorem each_group {R : List Nat → OrderGroups → OrderGroups → Prop} (hnil : ∀ idx, R [] idx idx)
    (hcons : ∀ g groups idx, Shape idx → Keeps g idx orders → ∃ idx1, Shape idx1 ∧
      Keeps g idx1 orders' ∧ (∀ e, e.1.group ≠ g → (e ∈ idx1 ↔ e ∈ idx)) ∧
      ∀ idx2, R groups idx1 idx2 → R (g :: groups) idx idx2)
    {groups : List Nat} (hgroups : groups.Nodup) (h : Shape idx)
    (hk : ∀ g ∈ groups, Keeps g idx orders) :
    ∃ idx', R groups idx idx' ∧ Shape idx' ∧ (∀ g ∈ groups, Keeps g idx' orders') ∧
      ∀ e, e.1.group ∉ groups → (e ∈ idx' ↔ e ∈ idx) := by
  induction groups generalizing idx with
  | nil => exact ⟨idx, hnil idx, h, fun _ hg => (List.not_mem_nil hg).elim, fun _ _ => Iff.rfl⟩
  | cons g groups ih =>
    obtain ⟨hg, hgroups⟩ := List.nodup_cons.mp hgroups
    obtain ⟨idx1, h1, hfirst, hframe, hstep⟩ := hcons g groups idx h (hk g List.mem_cons_self)
    have hother : ∀ g' ∈ groups, Keeps g' idx1 orders := by
      intro g' hg'
      refine (hk g' (List.mem_cons_of_mem _ hg')).congr fun e he => hframe e ?_
      rintro rfl
      exact hg (he ▸ hg')
    obtain ⟨idx2, hrun, h2, hk2, hframe2⟩ := ih hgroups h1 hother
    refine ⟨idx2, hstep idx2 hrun, h2, fun g' hg' => ?_, fun e he => ?_⟩
    · rcases List.mem_cons.mp hg' with rfl | hg'
      · exact hfirst.congr fun e he => hframe2 e (he ▸ hg)
      · exact hk2 g' hg'
    · obtain ⟨hne, hnot⟩ := not_or.mp (mt List.mem_cons.mpr he)
      exact (hframe2 e hnot).trans (hframe e hne)

theorem objectInserted_keeps {groups : List Nat} (hgroups : groups.Nodup) (h : Shape idx)
    (hadds : Adds orders o orders') (hvalid : ∀ id x, orders.find id = some x → x.sellPrice.Valid)
    (ho : Regular o) (hk : ∀ g ∈ groups, Keeps g idx orders) :
    ∃ idx', objectInserted groups o idx = .ok idx' ∧ Shape idx' ∧
      (∀ g ∈ groups, Keeps g idx' orders') ∧
      ∀ e, e.1.group ∉ groups → (e ∈ idx' ↔ e ∈ idx) := by
  refine each_group (R := fun groups idx idx' => objectInserted groups o idx = .ok idx')
    (fun _ => rfl) (fun g groups idx h hk => ?_) hgroups h hk
  obtain ⟨idx1, hinsert, hplaced⟩ := insertOrder_placed h ho.price ho.representable g
  obtain ⟨h1, hframe⟩ := hplaced.shape h
  refine ⟨idx1, h1, hplaced.keeps h hk hadds hvalid ho.price, hframe, fun idx2 hrun => ?_⟩
  show (insertOrder o idx g >>= fun idx => objectInserted groups o idx) = _
  rw [hinsert]
  exact hrun

theorem removeOrder_keeps {groups : List Nat} (hgroups : groups.Nodup) (h : Shape idx)
    (hadds : Adds orders o orders') (hreg : ∀ id x, orders'.find id = some x → Regular x)
    (hk : ∀ g ∈ groups, Keeps g idx orders') (removeEmpty : Bool) (warnings : List Mismatch) :
    ∃ idx', removeOrder groups o removeEmpty (idx, warnings) = (idx', warnings) ∧ Shape idx' ∧
      (∀ g ∈ groups, Keeps g idx' orders) ∧
      ∀ e, e.1.group ∉ groups → (e ∈ idx' ↔ e ∈ idx) := by
  refine each_group (R := fun groups idx idx' =>
    removeOrder groups o removeEmpty (idx, warnings) = (idx', warnings))
    (fun _ => rfl) (fun g groups idx h hk => ?_) hgroups h hk
  obtain ⟨idx1, hremove, h1, hfirst, hframe⟩ :=
    removeFromGroup_keeps h hk hadds hreg removeEmpty warnings
  refine ⟨idx1, h1, hfirst, hframe, fun idx2 hrun => ?_⟩
  show removeOrder groups o removeEmpty (removeFromGroup o removeEmpty (idx, warnings) g) = _
  rw [hremove]
  exact hrun

end Orders

/-! ### Whole runs -/

namespace OrderEvent

def Positive : OrderEvent → Prop
  | .insert o => o.sellPrice.Valid ∧ 0 < o.forSale
  | .modify _ forSale => 0 < forSale
  | .remove _ => True

/-- The price of an inserted order is between `price::min` and `price::max`. -/
def InRange : OrderEvent → Prop
  | .insert o => Representable o.sellPrice
  | _ => True

/-- What the event adds to the amounts for sale, at most. -/
def amount : OrderEvent → Int
  | .insert o => o.forSale
  | .modify _ forSale => forSale
  | .remove _ => 0

def Live (t : Tracker) : OrderEvent → Prop
  | .insert _ => True
  | .modify id _ => (t.orders.find id).isSome
  | .remove id => (t.orders.find id).isSome

end OrderEvent

/-- What every event keeps. -/
structure Tracker.Sound (groups : List Nat) (t : Tracker) : Prop where
  shape : Shape t.groups
  tracked : ∀ e ∈ t.groups, e.1.group ∈ groups
  keeps : ∀ g ∈ groups, Keeps g t.groups t.orders
  regular : ∀ id o, t.orders.find id = some o → Regular o
  warnings : t.warnings = []

section Runs

variable {groups : List Nat} {t t' : Tracker} {ev : OrderEvent}

theorem Tracker.Sound.empty (groups : List Nat) : Tracker.empty.Sound groups where
  shape := ⟨List.Pairwise.nil, fun _ h => (List.not_mem_nil h).elim⟩
  tracked _ h := (List.not_mem_nil h).elim
  keeps _ _ := ⟨fun _ _ h => (Option.some_ne_none _ h.symm).elim, fun _ h =>
    (List.not_mem_nil h).elim⟩
  regular _ _ h := (Option.some_ne_none _ h.symm).elim
  warnings := rfl

theorem Tracker.Sound.handle (hgroups : groups.Nodup) (h : t.Sound groups) (hpos : ev.Positive)
    (hrange : ev.InRange) (hlive : ev.Live t) : ∃ t', t.handle groups ev = .ok t' ∧
      t'.Sound groups := by
  have htracked : ∀ {idx : OrderGroups}, (∀ e, e.1.group ∉ groups → (e ∈ idx ↔ e ∈ t.groups)) →
      ∀ e ∈ idx, e.1.group ∈ groups := by
    intro idx hframe e he
    by_contra hnot
    exact hnot (h.tracked e ((hframe e hnot).mp he))
  cases ev with
  | insert o =>
    have ho : Regular o := ⟨hpos.1, hpos.2, hrange⟩
    have hadds := Adds.create t.orders o
    obtain ⟨idx, hinsert, hshape, hkeeps, hframe⟩ := objectInserted_keeps hgroups h.shape hadds
      (fun id x hx => (h.regular id x hx).price) ho h.keeps
    refine ⟨{ t with orders := t.orders.create o, groups := idx }, ?_, hshape, htracked hframe,
      hkeeps,
      fun id x hx => ?_, h.warnings⟩
    · simp only [Tracker.handle, hinsert]
      rfl
    · rcases hadds.find id x hx with rfl | ⟨j, hj⟩
      · exact ho
      · exact h.regular j x hj
  | modify id forSale =>
    obtain ⟨o, ho⟩ := Option.isSome_iff_exists.mp hlive
    have hreg := h.regular id o ho
    have hnew : Regular { o with forSale := forSale } := ⟨hreg.price, hpos, hreg.representable⟩
    have hremoved := Adds.remove ho
    have hadds := Adds.set ho { o with forSale := forSale }
    obtain ⟨idx1, hremove, hshape1, hkeeps1, hframe1⟩ := removeOrder_keeps hgroups h.shape hremoved
      h.regular h.keeps false t.warnings
    obtain ⟨idx2, hinsert, hshape2, hkeeps2, hframe2⟩ := objectInserted_keeps hgroups hshape1 hadds
      (fun j x hx => (h.regular j x (Table.find_remove_iff.mp hx).2).price) hnew hkeeps1
    refine ⟨⟨t.orders.set id { o with forSale := forSale }, idx2, t.warnings⟩, ?_, hshape2,
      htracked fun e he => (hframe2 e he).trans (hframe1 e he), hkeeps2, fun j x hx =>
        ?_, h.warnings⟩
    · simp only [Tracker.handle, ho, demand, hremove, ok_bind, hinsert]
      rfl
    · rcases hadds.find j x hx with rfl | ⟨i, hi⟩
      · exact hnew
      · exact h.regular i x (Table.find_remove_iff.mp hi).2
  | remove id =>
    obtain ⟨o, ho⟩ := Option.isSome_iff_exists.mp hlive
    obtain ⟨idx, hremove, hshape, hkeeps, hframe⟩ :=
      removeOrder_keeps hgroups h.shape (Adds.remove ho)
      h.regular h.keeps true t.warnings
    refine ⟨⟨t.orders.remove id, idx, t.warnings⟩, ?_, hshape, htracked hframe, hkeeps,
      fun j x hx => h.regular j x (Table.find_remove_iff.mp hx).2, h.warnings⟩
    simp only [Tracker.handle, ho, demand, hremove, ok_bind]
    rfl

theorem Tracker.handle_live (h : t.handle groups ev = .ok t') : ev.Live t := by
  cases ev with
  | insert o => trivial
  | modify id forSale =>
    simp only [Tracker.handle, bind_eq_ok, demand_eq_ok] at h
    obtain ⟨o, ho, -⟩ := h
    exact Option.isSome_iff_exists.mpr ⟨o, ho⟩
  | remove id =>
    simp only [Tracker.handle, bind_eq_ok, demand_eq_ok] at h
    obtain ⟨o, ho, -⟩ := h
    exact Option.isSome_iff_exists.mpr ⟨o, ho⟩

def Tracker.forSale (t : Tracker) : Int := t.orders.sum fun _ o => o.forSale

theorem Tracker.Sound.forSale_le (h : t.Sound groups) (hev : t.handle groups ev = .ok t') :
    t'.forSale ≤ t.forSale + ev.amount := by
  unfold Tracker.forSale
  cases ev with
  | insert o =>
    simp only [Tracker.handle, bind_eq_ok, pure_eq_ok] at hev
    obtain ⟨idx, -, rfl⟩ := hev
    exact ((Adds.create t.orders o).sum LimitOrder.forSale).le
  | modify id forSale =>
    simp only [Tracker.handle, bind_eq_ok, demand_eq_ok, pure_eq_ok] at hev
    obtain ⟨o, ho, idx, -, rfl⟩ := hev
    have hold := (Adds.remove ho).sum LimitOrder.forSale
    have hnew := (Adds.set ho { o with forSale := forSale }).sum LimitOrder.forSale
    have hpos := (h.regular id o ho).forSale
    simp only [OrderEvent.amount]
    linarith
  | remove id =>
    simp only [Tracker.handle, bind_eq_ok, demand_eq_ok, pure_eq_ok] at hev
    obtain ⟨o, ho, rfl⟩ := hev
    have hold := (Adds.remove ho).sum LimitOrder.forSale
    have hpos := (h.regular id o ho).forSale
    simp only [OrderEvent.amount]
    linarith

theorem Tracker.Sound.total_le (h : t.Sound groups) {e : GroupKey × GroupData}
    (he : e ∈ t.groups) : e.2.totalForSale ≤ t.forSale := by
  rw [(h.keeps _ (h.tracked e he)).total e he rfl]
  have hrest : 0 ≤ t.orders.sum fun _ o =>
      o.forSale - if Covers e o.sellPrice then o.forSale else 0 := by
    refine Table.sum_nonneg fun id o ho => ?_
    split
    · exact (sub_self _).ge
    · exact (sub_zero o.forSale).symm ▸ (h.regular id o ho).forSale.le
  rw [Table.sum_sub] at hrest
  exact sub_nonneg.mp hrest

theorem Tracker.Sound.run (hgroups : groups.Nodup) (h : t.Sound groups) {events : List OrderEvent}
    (hpos : ∀ ev ∈ events, ev.Positive) (hrange : ∀ ev ∈ events, ev.InRange)
    (hrun : events.foldlM (Tracker.handle groups) t = .ok t') : t'.Sound groups := by
  induction events generalizing t with
  | nil =>
    obtain rfl := pure_eq_ok.mp hrun
    exact h
  | cons ev events ih =>
    rw [List.foldlM_cons, bind_eq_ok] at hrun
    obtain ⟨t1, hev, hrun⟩ := hrun
    obtain ⟨t2, hev', h2⟩ := h.handle hgroups (hpos ev List.mem_cons_self)
      (hrange ev List.mem_cons_self) (Tracker.handle_live hev)
    obtain rfl : t1 = t2 := Except.ok.inj (hev.symm.trans hev')
    exact ih h2 (fun x hx => hpos x (List.mem_cons_of_mem _ hx))
      (fun x hx => hrange x (List.mem_cons_of_mem _ hx)) hrun

end Runs

/-- The grouped order book after any events of orders with representable prices.  Every group is an
interval of close prices that counts its orders; groups of one percentage are disjoint; every order
is in exactly one group of each percentage; nothing was warned of, and the next event does not
throw, with totals of 64 bits where all that is for sale has 64 bits. -/
theorem order_groups_partition {groups : List Nat} (hgroups : groups.Pairwise (· < ·))
    {events : List OrderEvent} (hpos : ∀ ev ∈ events, ev.Positive)
    (hrange : ∀ ev ∈ events, ev.InRange) {t : Tracker}
    (hrun : events.foldlM (Tracker.handle groups) .empty = .ok t) :
    (∀ e ∈ t.groups, e.1.group ∈ groups ∧
      e.2.maxPrice.base.assetId = e.1.minPrice.base.assetId ∧
      e.2.maxPrice.quote.assetId = e.1.minPrice.quote.assetId ∧
      e.1.minPrice ≤ e.2.maxPrice ∧ Close e ∧
      e.2.totalForSale = t.orders.sum fun _ o => if Covers e o.sellPrice then o.forSale else 0) ∧
    (∀ e ∈ t.groups, ∀ e' ∈ t.groups, e.1.group = e'.1.group → e = e' ∨
      e.2.maxPrice < e'.1.minPrice ∨ e'.2.maxPrice < e.1.minPrice) ∧
    (∀ id o, t.orders.find id = some o → ∀ g ∈ groups,
      ∃! e, e ∈ t.groups ∧ e.1.group = g ∧ Covers e o.sellPrice) ∧
    t.warnings = [] ∧
    ∀ ev : OrderEvent, ev.Positive → ev.InRange → ev.Live t → t.forSale + ev.amount < 2 ^ 63 →
      ∃ t', t.handle groups ev = .ok t' ∧ ∀ e ∈ t'.groups, e.2.totalForSale < 2 ^ 63 := by
  have hnodup : groups.Nodup := hgroups.imp Nat.ne_of_lt
  have h := (Tracker.Sound.empty groups).run hnodup hpos hrange hrun
  have hdisjoint : ∀ e ∈ t.groups, ∀ e' ∈ t.groups, e.1.group = e'.1.group → e = e' ∨
      e.2.maxPrice < e'.1.minPrice ∨ e'.2.maxPrice < e.1.minPrice := by
    intro e he e' he' hg
    have hp := h.shape.proper e he
    have hp' := h.shape.proper e' he'
    rw [Price.lt_iff_key hp.max_valid.2.1 hp'.min_valid.2.1,
      Price.lt_iff_key hp'.max_valid.2.1 hp.min_valid.2.1]
    rcases eq_or_rel_of_pairwise h.shape.follows he he' with heq | hf | hf
    · exact Or.inl heq
    · rcases hf with hf | ⟨-, hf⟩
      · omega
      · exact Or.inr (Or.inr hf)
    · rcases hf with hf | ⟨-, hf⟩
      · omega
      · exact Or.inr (Or.inl hf)
  refine ⟨fun e he => ?_, hdisjoint, fun id o ho g hg => ?_, h.warnings,
    fun ev hp hr hl hfits => ?_⟩
  · have hp := h.shape.proper e he
    have hg := h.tracked e he
    exact ⟨hg, hp.base, hp.quote, (Price.le_iff_key hp.min_valid.2.1 hp.max_valid.2.1).mpr hp.ordered,
      hp.close, (h.keeps _ hg).total e he rfl⟩
  · obtain ⟨e, he, heg, hc⟩ := (h.keeps g hg).covered id o ho
    refine ⟨e, ⟨he, heg, hc⟩, fun e' ⟨he', heg', hc'⟩ => ?_⟩
    have hp := h.shape.proper e he
    have hp' := h.shape.proper e' he'
    have hvalid := (h.regular id o ho).price
    rcases eq_or_rel_of_pairwise h.shape.follows he' he with heq | hf | hf
    · exact heq
    · exact absurd hc (hf.disjoint (heg'.trans heg.symm) hp' hp hvalid hc')
    · exact absurd hc' (hf.disjoint (heg.trans heg'.symm) hp hp' hvalid hc)
  · obtain ⟨t', ht', h'⟩ := h.handle hnodup hp hr hl
    exact ⟨t', ht', fun e he => (h'.total_le he).trans_lt ((h.forSale_le ht').trans_lt hfits)⟩

/-- An order that sells one of asset 1 for an amount of asset 0. -/
def sampleOrder (amount : Int) : LimitOrder := ⟨0, 0, 1, ⟨⟨1, 1⟩, ⟨amount, 0⟩⟩, 0, ⟨0, 0⟩⟩

/-- Three orders in groups of one percent; the second and the third are within one percent. -/
theorem order_groups_partition_three : ∃ t,
    [.insert (sampleOrder 500), .insert (sampleOrder 1000), .insert (sampleOrder 1001),
      .modify 1 7, .remove 0].foldlM (Tracker.handle [100]) .empty = .ok t ∧
    t.groups.length = 1 ∧ t.warnings = [] ∧
    (∃! e, e ∈ t.groups ∧ e.1.group = 100 ∧ Covers e (sampleOrder 1001).sellPrice) ∧
    ∃ t', t.handle [100] (.modify 2 9) = .ok t' ∧ ∀ e ∈ t'.groups, e.2.totalForSale < 2 ^ 63 := by
  obtain ⟨t, ht, hlen⟩ := exists_ok_of_any (x := [.insert (sampleOrder 500),
    .insert (sampleOrder 1000), .insert (sampleOrder 1001), .modify 1 7, .remove 0].foldlM
      (Tracker.handle [100]) .empty)
    (p := fun t => decide (t.groups.length = 1 ∧ t.orders.find 2 = some (sampleOrder 1001) ∧
      t.forSale = 8)) (by decide +kernel)
  obtain ⟨hlen, hfind, hforSale⟩ := of_decide_eq_true hlen
  have hpos : ∀ ev ∈ [OrderEvent.insert (sampleOrder 500), .insert (sampleOrder 1000),
      .insert (sampleOrder 1001), .modify 1 7, .remove 0], ev.Positive := by
    simp [OrderEvent.Positive, Price.Valid, sampleOrder]
  have hrange : ∀ ev ∈ [OrderEvent.insert (sampleOrder 500), .insert (sampleOrder 1000),
      .insert (sampleOrder 1001), .modify 1 7, .remove 0], ev.InRange := by
    simp only [List.mem_cons, List.not_mem_nil, or_false, forall_eq_or_imp, forall_eq,
      OrderEvent.InRange, and_self, and_true]
    exact ⟨⟨_, _, rfl, rfl, by decide, by decide⟩, ⟨_, _, rfl, rfl, by decide, by decide⟩,
      ⟨_, _, rfl, rfl, by decide, by decide⟩⟩
  have h := order_groups_partition (by simp : [100].Pairwise (· < ·)) hpos hrange ht
  refine ⟨t, ht, hlen, h.2.2.2.1, h.2.2.1 2 _ hfind 100 (by simp), ?_⟩
  refine h.2.2.2.2 (.modify 2 9) (by decide : (0 : Int) < 9) trivial ?_ ?_
  · simp [OrderEvent.Live, hfind]
  · rw [hforSale]
    decide

/-- Three orders below `price::min`: the third one lowers the highest price of the group, and the
second one is not found when it is removed. -/
theorem capped_group_loses_order :
    (∀ ev ∈ [OrderEvent.insert (sampleOrder (2 ^ 62)), .insert (sampleOrder (2 ^ 60)),
      .insert (sampleOrder (2 ^ 61)), .remove 1], ev.Positive) ∧
    ∃ t, [.insert (sampleOrder (2 ^ 62)), .insert (sampleOrder (2 ^ 60)),
      .insert (sampleOrder (2 ^ 61)), .remove 1].foldlM (Tracker.handle [10]) .empty = .ok t ∧
      t.warnings = [.price] := by
  refine ⟨by simp [OrderEvent.Positive, Price.Valid, sampleOrder], ?_⟩
  obtain ⟨t, ht, hw⟩ := exists_ok_of_any (x := [.insert (sampleOrder (2 ^ 62)),
    .insert (sampleOrder (2 ^ 60)), .insert (sampleOrder (2 ^ 61)), .remove 1].foldlM
      (Tracker.handle [10]) .empty) (p := fun t => decide (t.warnings = [.price]))
        (by decide +kernel)
  exact ⟨t, ht, of_decide_eq_true hw⟩

end Nestchain.Plugins
