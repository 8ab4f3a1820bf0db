import Nestchain.Chain.Apply
import Nestchain.Lib.Merkle

/-! The merkle root of a block.  `calculate_merkle_root` hashes the digests of the transactions
level by level, each level into the front of the vector that holds the one below it. -/

namespace Nestchain.Chain

open Lib

/-- The hash functions that the root is computed with. -/
structure MerkleHashes (τ δ κ : Type) where
  /-- `merkle_digest` of a transaction. -/
  merkleDigest : τ → δ
  /-- `digest_type::hash` of a pair. -/
  hashPair : δ → δ → δ
  /-- `checksum_type::hash` of a digest. -/
  checksum : δ → κ
  /-- `checksum_type()` -/
  noChecksum : κ

/-- The transactions of a block, whose number is packed with 32 bits. -/
structure BlockTransactions (τ : Type) where
  transactions : List τ
  few : transactions.length < 2 ^ 32

def writeAt {δ : Type} (ids : List δ) (k : Nat) (d : δ) : Option (List δ) :=
  if k < ids.length then some (ids.set k d) else none

namespace MerkleHashes

variable {τ δ κ : Type} (h : MerkleHashes τ δ κ)

/-- The loop over the pairs of a level, with indexes of 32 bits. -/
def hashPairs (iMax : Nat) : Nat → List δ → Nat → Nat → Option (List δ × Nat)
  | 0, _, _, _ => none
  | rounds + 1, ids, i, k =>
    if i < iMax then do
      let a ← ids[i]?
      let b ← ids[(i + 1) % 2 ^ 32]?
      let ids ← writeAt ids k (h.hashPair a b)
      hashPairs iMax rounds ids ((i + 2) % 2 ^ 32) ((k + 1) % 2 ^ 32)
    else some (ids, k)

def hashLevels : Nat → List δ → Nat → Option (List δ)
  | 0, _, _ => none
  | rounds + 1, ids, currentNumberOfHashes =>
    if currentNumberOfHashes > 1 then do
      let iMax := (currentNumberOfHashes - currentNumberOfHashes % 2) % 2 ^ 32
      let (ids, k) ← h.hashPairs iMax rounds ids 0 0
      if currentNumberOfHashes % 2 = 1 then do
        let last ← ids[iMax]?
        let ids ← writeAt ids k last
        hashLevels rounds ids ((k + 1) % 2 ^ 32)
      else hashLevels rounds ids k
    else some ids

def calculateMerkleRoot (rounds : Nat) (b : BlockTransactions τ) : Option κ :=
  if b.transactions.length = 0 then some h.noChecksum
  else do
    let ids := b.transactions.map h.merkleDigest
    let ids ← h.hashLevels rounds ids ids.length
    let top ← ids[0]?
    some (h.checksum top)

/-- The root of the tree over the digests of the transactions. -/
def treeRoot (b : BlockTransactions τ) : κ :=
  match MerkleTree.ofList (b.transactions.map h.merkleDigest) with
  | none => h.noChecksum
  | some t => h.checksum (t.root h.hashPair)

/-! ### The loops -/

theorem writeAt_eq {ids : List δ} {k : Nat} (hk : k < ids.length) (d : δ) :
    writeAt ids k d = some (ids.set k d) := if_pos hk

/-- From an even position on, the hashes of the pairs are written behind what is there already; a
last element without a partner is left where it is, and so is everything after it. -/
theorem hashPairs_spec (level : List δ) {ids rest : List δ} {i k rounds : Nat}
    (hids : ids.drop i = level ++ rest) (hk : k ≤ i) (hi : i + level.length < 2 ^ 32)
    (hrounds : level.length / 2 < rounds) :
    ∃ ids', h.hashPairs (i + (level.length - level.length % 2)) rounds ids i k =
        some (ids', k + level.length / 2) ∧
      ids'.take (k + level.length / 2) ++ level.drop (level.length - level.length % 2) =
        ids.take k ++ pairUp h.hashPair level ∧
      ids'.drop (i + (level.length - level.length % 2)) =
        ids.drop (i + (level.length - level.length % 2)) := by
  induction level using pairUp.induct generalizing ids i k rounds with
  | case1 =>
    obtain ⟨n, rfl⟩ := Nat.exists_eq_succ_of_ne_zero (Nat.ne_of_gt (Nat.zero_lt_of_lt hrounds))
    exact ⟨ids, by simp [hashPairs], by simp [pairUp], rfl⟩
  | case2 a =>
    obtain ⟨n, rfl⟩ := Nat.exists_eq_succ_of_ne_zero (Nat.ne_of_gt (Nat.zero_lt_of_lt hrounds))
    exact ⟨ids, by simp [hashPairs], by simp [pairUp], rfl⟩
  | case3 a b level ih =>
    rw [List.length_cons, List.length_cons] at hi hrounds
    obtain ⟨n, rfl⟩ := Nat.exists_eq_succ_of_ne_zero (Nat.ne_of_gt (Nat.zero_lt_of_lt hrounds))
    have hlength := congrArg List.length hids
    simp only [List.length_drop, List.length_append, List.length_cons] at hlength
    have ha : ids[i]? = some a := by
      have := congrArg (·[0]?) hids
      simpa using this
    have hb : ids[i + 1]? = some b := by
      have := congrArg (·[1]?) hids
      simpa using this
    have hk' : k < ids.length := by omega
    have hwrite := writeAt_eq hk' (h.hashPair a b)
    have hdrop : ∀ j, i < j → (ids.set k (h.hashPair a b)).drop j = ids.drop j := fun j hj =>
      List.drop_set_of_lt (by omega)
    have hnext : (ids.set k (h.hashPair a b)).drop (i + 2) = level ++ rest := by
      rw [hdrop _ (by omega), ← List.drop_drop, hids]
      rfl
    have hrounds' : level.length / 2 < n := by omega
    obtain ⟨ids', hloop, htake, hrest⟩ := ih hnext (show k + 1 ≤ i + 2 by omega) (by omega) hrounds'
    have hend : i + ((a :: b :: level).length - (a :: b :: level).length % 2) =
        i + 2 + (level.length - level.length % 2) := by
      simp only [List.length_cons]
      omega
    have hcount : k + (a :: b :: level).length / 2 = k + 1 + level.length / 2 := by
      simp only [List.length_cons]
      omega
    refine ⟨ids', ?_, ?_, ?_⟩
    · have hodd : (i + 1) % 2 ^ 32 = i + 1 := Nat.mod_eq_of_lt (by omega)
      have hi' : (i + 2) % 2 ^ 32 = i + 2 := Nat.mod_eq_of_lt (by omega)
      have hk' : (k + 1) % 2 ^ 32 = k + 1 := Nat.mod_eq_of_lt (by omega)
      rw [hend, hcount, hashPairs, if_pos (by omega), ha, hodd, hb, hi', hk']
      simp only [Option.bind_eq_bind, Option.bind_some, hwrite]
      exact hloop
    · have hkeep : (ids.set k (h.hashPair a b)).take (k + 1) = ids.take k ++ [h.hashPair a b] := by
        rw [List.take_add_one, List.take_set_of_le (le_refl k), List.getElem?_set_self (by omega)]
        rfl
      have hleft : (a :: b :: level).drop
          ((a :: b :: level).length - (a :: b :: level).length % 2) =
          level.drop (level.length - level.length % 2) := by
        have hshift : (a :: b :: level).length - (a :: b :: level).length % 2 =
            level.length - level.length % 2 + 2 := by
          simp only [List.length_cons]
          omega
        rw [hshift]
        rfl
      rw [hcount, hleft, htake, hkeep, pairUp, List.append_assoc, List.singleton_append]
    · rw [hend, hrest, hdrop _ (by omega)]

theorem hashLevels_spec (rounds : Nat) (level rest : List δ) (hne : level ≠ [])
    (hfew : level.length < 2 ^ 32) (hrounds : level.length < rounds) :
    ∃ ids top, h.hashLevels rounds (level ++ rest) level.length = some ids ∧
      ids[0]? = some top ∧ combine h.hashPair level = some top := by
  induction rounds generalizing level rest with
  | zero => omega
  | succ rounds ih =>
    rw [hashLevels]
    by_cases hone : level.length > 1
    · have hids : (level ++ rest).drop 0 = level ++ rest := rfl
      have hpairs : level.length / 2 < rounds := by omega
      obtain ⟨ids, hloop, htake, hrest⟩ :=
        h.hashPairs_spec level hids (le_refl 0) (by omega) hpairs
      simp only [Nat.zero_add, List.take_zero, List.nil_append] at hloop htake hrest
      have hiMax : (level.length - level.length % 2) % 2 ^ 32 =
          level.length - level.length % 2 := Nat.mod_eq_of_lt (by omega)
      simp only [if_pos hone, hiMax, hloop, Option.bind_eq_bind, Option.bind_some]
      have hlength := length_pairUp h.hashPair level
      have hnext : ∀ ids' : List δ, ids'.take (pairUp h.hashPair level).length =
          pairUp h.hashPair level → ∃ ids₁ top,
          h.hashLevels rounds ids' (pairUp h.hashPair level).length = some ids₁ ∧
            ids₁[0]? = some top ∧ combine h.hashPair level = some top := by
        intro ids' hids
        have hsplit := List.take_append_drop (pairUp h.hashPair level).length ids'
        rw [hids] at hsplit
        rw [← hsplit, ← combine_pairUp]
        exact ih _ _ (List.length_pos_iff.mp (by omega)) (by omega) (by omega)
      by_cases hodd : level.length % 2 = 1
      · rw [hodd] at htake hrest
        rw [if_pos hodd, hodd]
        obtain ⟨front, last, rfl⟩ := (List.eq_nil_or_concat' level).resolve_left hne
        rw [List.length_append, List.length_singleton, Nat.add_sub_cancel] at htake hrest ⊢
        rw [List.length_append, List.length_singleton] at hlength hfew hone hodd
        rw [List.drop_left] at htake
        rw [List.append_assoc, List.drop_left] at hrest
        have hlast : ids[front.length]? = some last := by
          have := congrArg (·[0]?) hrest
          simpa using this
        obtain ⟨hin, -⟩ := List.getElem?_eq_some_iff.mp hlast
        have hcount : (front.length + 1) / 2 + 1 =
            (pairUp h.hashPair (front ++ [last])).length := by omega
        have hmod : ((front.length + 1) / 2 + 1) % 2 ^ 32 = (front.length + 1) / 2 + 1 :=
          Nat.mod_eq_of_lt (by omega)
        have hwrite := writeAt_eq (show (front.length + 1) / 2 < ids.length by omega) last
        rw [hlast, Option.bind_some, hwrite, Option.bind_some, hmod, hcount]
        refine hnext _ ?_
        rw [← hcount, List.take_add_one, List.take_set_of_le (le_refl _),
          List.getElem?_set_self (by omega)]
        exact htake
      · have heven : level.length % 2 = 0 := by omega
        rw [heven, Nat.sub_zero, List.drop_length, List.append_nil] at htake
        rw [if_neg hodd]
        have hhalf : level.length / 2 = (pairUp h.hashPair level).length := by omega
        rw [hhalf] at htake ⊢
        exact hnext ids htake
    · have hlength : level.length = 1 := by
        have := List.length_pos_iff.mpr hne
        omega
      obtain ⟨a, rfl⟩ := List.length_eq_one_iff.mp hlength
      rw [if_neg hone]
      exact ⟨[a] ++ rest, a, rfl, rfl, by rw [combine]⟩

theorem calculateMerkleRoot_eq (b : BlockTransactions τ) {rounds : Nat}
    (hrounds : b.transactions.length < rounds) :
    h.calculateMerkleRoot rounds b = some (h.treeRoot b) := by
  rw [calculateMerkleRoot, treeRoot]
  by_cases hempty : b.transactions = []
  · rw [hempty, List.map_nil, MerkleTree.ofList, List.map_nil, combine]
    rfl
  · have hne : b.transactions.map h.merkleDigest ≠ [] := by simpa using hempty
    obtain ⟨ids, top, hlevels, htop, hcombine⟩ := h.hashLevels_spec rounds
      (b.transactions.map h.merkleDigest) [] hne (by rw [List.length_map]; exact b.few)
      (by rwa [List.length_map])
    rw [List.append_nil] at hlevels
    rw [← MerkleTree.ofList_root] at hcombine
    obtain ⟨t, ht, rfl⟩ := Option.map_eq_some_iff.mp hcombine
    rw [if_neg (by simpa using hempty)]
    simp only [hlevels, Option.bind_eq_bind, Option.bind_some, htop, ht]

/-- Digests of pairs can be taken apart and are not digests of transactions, checksums belong to one
digest each, and no digest has the checksum zero. -/
structure CollisionFree : Prop where
  hashPair : ∀ a b c d, h.hashPair a b = h.hashPair c d → a = c ∧ b = d
  hashPair_ne : ∀ a b t, h.hashPair a b ≠ h.merkleDigest t
  checksum : ∀ a b, h.checksum a = h.checksum b → a = b
  checksum_ne : ∀ d, h.checksum d ≠ h.noChecksum

variable {h} in
theorem treeRoot_injective (hfree : h.CollisionFree) {b b' : BlockTransactions τ}
    (hroot : h.treeRoot b = h.treeRoot b') :
    b.transactions.map h.merkleDigest = b'.transactions.map h.merkleDigest := by
  have hleaf : ∀ b : BlockTransactions τ, ∀ d ∈ b.transactions.map h.merkleDigest,
      ∀ x y, h.hashPair x y ≠ d := by
    intro b d hd x y
    obtain ⟨t, -, rfl⟩ := List.mem_map.mp hd
    exact hfree.hashPair_ne x y t
  rw [treeRoot, treeRoot] at hroot
  cases ht : MerkleTree.ofList (b.transactions.map h.merkleDigest) with
  | none =>
    cases ht' : MerkleTree.ofList (b'.transactions.map h.merkleDigest) with
    | none => rw [MerkleTree.ofList_eq_none ht, MerkleTree.ofList_eq_none ht']
    | some t' =>
      rw [ht, ht'] at hroot
      exact absurd hroot.symm (hfree.checksum_ne _)
  | some t =>
    cases ht' : MerkleTree.ofList (b'.transactions.map h.merkleDigest) with
    | none =>
      rw [ht, ht'] at hroot
      exact absurd hroot (hfree.checksum_ne _)
    | some t' =>
      rw [ht, ht'] at hroot
      exact MerkleTree.ofList_injective hfree.hashPair (hleaf b) (hleaf b') ht ht'
        (hfree.checksum _ _ hroot)

/-- The loops compute the root of the tree, and blocks with the same root have the same transaction
digests, if digests do not collide. -/
theorem merkleRoot_commits :
    (∀ b : BlockTransactions τ, ∀ rounds, b.transactions.length < rounds →
      h.calculateMerkleRoot rounds b = some (h.treeRoot b)) ∧
    (h.CollisionFree → ∀ b b' : BlockTransactions τ, h.treeRoot b = h.treeRoot b' →
      b.transactions.length = b'.transactions.length ∧
        b.transactions.map h.merkleDigest = b'.transactions.map h.merkleDigest) := by
  refine ⟨fun b rounds => h.calculateMerkleRoot_eq b, fun hfree b b' hroot => ?_⟩
  have hdigests := treeRoot_injective hfree hroot
  have hlength := congrArg List.length hdigests
  rw [List.length_map, List.length_map] at hlength
  exact ⟨hlength, hdigests⟩

end MerkleHashes

/-- Digests that are never lost: trees of transactions. -/
def treeHashes : MerkleHashes Nat (MerkleTree Nat) (Option (MerkleTree Nat)) where
  merkleDigest := .leaf
  hashPair := .node
  checksum := some
  noChecksum := none

theorem treeHashes_collisionFree : treeHashes.CollisionFree where
  hashPair _ _ _ _ h := MerkleTree.node.inj h
  hashPair_ne _ _ _ h := nomatch h
  checksum _ _ h := Option.some.inj h
  checksum_ne _ h := nomatch h

theorem merkleRoot_commits_three :
    treeHashes.treeRoot ⟨[4, 5, 6], by decide⟩ ≠ treeHashes.treeRoot ⟨[4, 6, 5], by decide⟩ := by
  intro hroot
  have hdigests := ((treeHashes.merkleRoot_commits).2 treeHashes_collisionFree _ _ hroot).2
  exact absurd hdigests (by simp [treeHashes])

theorem transactions_eq_of_applied {ω ρ δ : Type} {r : Rules ω ρ}
    {h : MerkleHashes (SignedTransaction ω) δ Nat} (hfree : h.CollisionFree)
    (hrules : ∀ b, r.merkleRoot b.transactions = h.treeRoot b) {skip : SkipFlags}
    (hskip : skip.merkleCheck = false) {s s' t t' : Objects ρ} {b b' : SignedBlock ω}
    (hfew : b.transactions.length < 2 ^ 32) (hfew' : b'.transactions.length < 2 ^ 32)
    (hb : (r.applyBlockBody skip s b).result = some s')
    (hb' : (r.applyBlockBody skip t b').result = some t')
    (hroot : b.transactionMerkleRoot = b'.transactionMerkleRoot) :
    b.transactions.map h.merkleDigest = b'.transactions.map h.merkleDigest := by
  have hcheck : ∀ {s s' : Objects ρ} {b : SignedBlock ω},
      (r.applyBlockBody skip s b).result = some s' →
      b.transactionMerkleRoot = r.merkleRoot b.transactions := by
    intro s s' b hb
    simp only [Rules.applyBlockBody, Outcome.result_bind, Outcome.result_assert, hskip,
      Bool.false_or, beq_iff_eq] at hb
    exact hb.choose_spec.1
  rw [hcheck hb, hcheck hb', hrules ⟨b.transactions, hfew⟩,
    hrules ⟨b'.transactions, hfew'⟩] at hroot
  exact MerkleHashes.treeRoot_injective hfree hroot

end Nestchain.Chain
