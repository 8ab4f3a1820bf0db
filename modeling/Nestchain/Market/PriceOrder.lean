import Nestchain.Market.Closing
import Mathlib.Data.Prod.Lex
import Mathlib.Data.Rat.Cast.Order
import Mathlib.Tactic.FieldSimp

/-! The order of prices.  Prices with positive amounts are ordered by their assets and then by the
ratio of their amounts, and the indexes by price are sorted by that key. -/

namespace Nestchain.Market

open Lib

namespace Price

/-- The assets of a price and the ratio of its amounts. -/
def key (p : Price) : ℕ ×ₗ ℕ ×ₗ ℚ :=
  toLex (p.base.assetId, toLex (p.quote.assetId, (p.base.amount : ℚ) / p.quote.amount))

variable {a b c : Price}

theorem lt_iff_key (ha : 0 < a.quote.amount) (hb : 0 < b.quote.amount) :
    a < b ↔ a.key < b.key := by
  have hratio : b.quote.amount * a.base.amount < a.quote.amount * b.base.amount ↔
      (a.base.amount : ℚ) / a.quote.amount < (b.base.amount : ℚ) / b.quote.amount := by
    rw [div_lt_div_iff₀ (by exact_mod_cast ha) (by exact_mod_cast hb), ← Int.cast_mul,
      ← Int.cast_mul, Int.cast_lt, mul_comm b.quote.amount, mul_comm a.quote.amount]
  simp only [key, Prod.Lex.toLex_lt_toLex]
  rw [← hratio]
  exact Iff.rfl

theorem le_iff_key (ha : 0 < a.quote.amount) (hb : 0 < b.quote.amount) :
    a ≤ b ↔ a.key ≤ b.key := by
  rw [← not_lt, ← lt_iff_key hb ha]
  exact Iff.rfl

theorem lt_iff_mul (hbase : a.base.assetId = b.base.assetId)
    (hquote : a.quote.assetId = b.quote.assetId) :
    a < b ↔ b.quote.amount * a.base.amount < a.quote.amount * b.base.amount := by
  constructor
  · rintro (h | ⟨-, h | ⟨-, h⟩⟩)
    · exact absurd (hbase ▸ h) (Nat.lt_irrefl _)
    · exact absurd (hquote ▸ h) (Nat.lt_irrefl _)
    · exact h
  · exact fun h => Or.inr ⟨hbase, Or.inr ⟨hquote, h⟩⟩

theorem le_iff_mul (hbase : a.base.assetId = b.base.assetId)
    (hquote : a.quote.assetId = b.quote.assetId) :
    a ≤ b ↔ b.quote.amount * a.base.amount ≤ a.quote.amount * b.base.amount := by
  have h : a ≤ b ↔ ¬b < a := Iff.rfl
  rw [h, lt_iff_mul hbase.symm hquote.symm, not_lt, mul_comm a.quote.amount,
    mul_comm b.quote.amount, mul_comm b.base.amount]

theorem lt_inverse_comm (hbase : a.base.assetId = b.quote.assetId)
    (hquote : a.quote.assetId = b.base.assetId) : a < b.inverse ↔ b < a.inverse := by
  rw [lt_iff_mul (b := b.inverse) hbase hquote,
    lt_iff_mul (b := a.inverse) hquote.symm hbase.symm]
  simp only [inverse]
  rw [mul_comm b.base.amount, mul_comm a.quote.amount]

end Price

namespace Ledger

variable {L : Ledger}

theorem sortRows_pairwise {α κ : Type} [LinearOrder κ] {before : α → α → Prop}
    [DecidableRel before] {t : Table α} (key : α → κ)
    (hkey : ∀ i j a b, t.find i = some a → t.find j = some b → (before a b ↔ key a < key b)) :
    (sortRows before t).Pairwise fun r s => key r.2 ≤ key s.2 := by
  have hrel : ∀ r ∈ t.rows, ∀ s ∈ t.rows,
      (before r.2 s.2 ∨ (¬before s.2 r.2 ∧ r.1 ≤ s.1)) ↔
        toLex (key r.2, r.1) ≤ toLex (key s.2, s.1) := by
    intro r hr s hs
    have hr' : t.find r.1 = some r.2 := Table.find_iff_mem.mpr hr
    have hs' : t.find s.1 = some s.2 := Table.find_iff_mem.mpr hs
    rw [hkey _ _ _ _ hr' hs', hkey _ _ _ _ hs' hr', Prod.Lex.toLex_le_toLex]
    constructor
    · rintro (h | ⟨h, hid⟩)
      · exact Or.inl h
      · rcases lt_or_eq_of_le (not_lt.mp h) with h | h
        · exact Or.inl h
        · exact Or.inr ⟨h, hid⟩
    · rintro (h | ⟨h, hid⟩)
      · exact Or.inl h
      · exact Or.inr ⟨not_lt.mpr (le_of_eq h), hid⟩
  have hsorted := List.pairwise_insertionSort (· ≤ ·)
    (t.rows.map fun r => toLex (key r.2, r.1))
  rw [← List.map_insertionSort _ _ _ _ hrel, List.pairwise_map] at hsorted
  refine hsorted.imp fun h => ?_
  rcases Prod.Lex.toLex_le_toLex.mp h with h | ⟨h, -⟩
  · exact le_of_lt h
  · exact le_of_eq h

theorem limitOrdersByPrice_sorted
    (hpos : ∀ id o, L.limitOrders.find id = some o → 0 < o.sellPrice.quote.amount) :
    L.limitOrdersByPrice.Pairwise fun r s => s.2.sellPrice.key ≤ r.2.sellPrice.key := by
  refine sortRows_pairwise (t := L.limitOrders)
    (fun o : LimitOrder => OrderDual.toDual o.sellPrice.key) fun i j a b ha hb => ?_
  rw [OrderDual.toDual_lt_toDual]
  exact Price.lt_iff_key (hpos j b hb) (hpos i a ha)

theorem callOrdersBetween_sorted {low high : Price} (hs : Shape L) :
    (L.callOrdersBetween low high).Pairwise fun r s => r.2.callPrice.key ≤ s.2.callPrice.key := by
  have hsorted : L.callOrdersByPrice.Pairwise fun r s => r.2.callPrice.key ≤ s.2.callPrice.key := by
    refine sortRows_pairwise (fun c : CallOrder => c.callPrice.key) fun i j a b ha hb => ?_
    exact Price.lt_iff_key (hs.callOrders i a ha).inRange.quote_pos
      (hs.callOrders j b hb).inRange.quote_pos
  exact (hsorted.filter _).filter _

theorem callPrice_head_le {mia : AssetId} {b : BitassetData} {low high : Price} (hs : Shape L)
    (hb : L.bitasset mia = .ok b)
    (hlow : Price.smallest b.options.shortBackingAsset mia = .ok low)
    (hhigh : Price.greatest b.options.shortBackingAsset mia = .ok high)
    {call : Nat × CallOrder} {rest : List (Nat × CallOrder)}
    (hcalls : L.callOrdersBetween low high = call :: rest) {id : Nat} {c : CallOrder}
    (hc : L.callOrders.find id = some c) (hmia : c.debtType = mia) :
    call.2.callPrice ≤ c.callPrice := by
  have hhead := (mem_callOrdersBetween.mp (hcalls ▸ List.mem_cons_self ..)).1
  rw [Price.le_iff_key (hs.callOrders _ _ hhead).inRange.quote_pos
    (hs.callOrders id c hc).inRange.quote_pos]
  have hmem := (closes_start hs hb hlow hhigh).open_rows id c hc hmia
  have hsorted : (L.callOrdersBetween low high).Pairwise fun r s =>
      r.2.callPrice.key ≤ s.2.callPrice.key := callOrdersBetween_sorted hs
  rw [hcalls] at hmem hsorted
  rcases List.mem_cons.mp hmem with rfl | hmem
  · exact le_refl _
  · exact List.rel_of_pairwise_cons hsorted hmem

end Ledger

end Nestchain.Market
