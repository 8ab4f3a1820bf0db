import Nestchain.Chain.Block
import Mathlib.Data.List.TakeWhile

/-! `block_database`: the file of packed blocks, to which blocks are only appended, and the index
file, which has one entry for each block number. -/

namespace Nestchain.Chain

structure IndexEntry where
  blockPos : Nat
  blockSize : Nat
  blockId : BlockId
deriving DecidableEq

/-- `index_entry()`, and what the index file holds where nothing was written. -/
def IndexEntry.zero : IndexEntry := ⟨0, 0, .zero⟩

/-- The index file as its entries, and the file of blocks. -/
structure BlockDatabase where
  index : List IndexEntry
  blocks : List UInt8

/-- `fc::raw` for `signed_block`.  Nothing unpacks from no bytes.  (Blocks are far below the
`uint32_t` of `block_size`, which is unbounded here.) -/
structure BlockCodec (ω : Type) where
  pack : SignedBlock ω → List UInt8
  unpack : List UInt8 → Option (SignedBlock ω)
  unpack_pack : ∀ b, unpack (pack b) = some b
  unpack_nil : unpack [] = none

/-- Write an entry at its place in the index file, which is filled with zeros up to there. -/
def writeEntry (index : List IndexEntry) (n : Nat) (e : IndexEntry) : List IndexEntry :=
  if n < index.length then index.set n e
  else index ++ List.replicate (n - index.length) .zero ++ [e]

namespace BlockDatabase

variable {ω ρ : Type} (r : Rules ω ρ) (c : BlockCodec ω)

def empty : BlockDatabase := ⟨[], []⟩

/-- `store`. -/
def store (d : BlockDatabase) (id : BlockId) (b : SignedBlock ω) : BlockDatabase :=
  let id := if id = .zero then r.blockId b.toBlockHeader else id
  let e := ⟨d.blocks.length, (c.pack b).length, id⟩
  ⟨writeEntry d.index id.num e, d.blocks ++ c.pack b⟩

/-- `remove`, or `none` when it throws. -/
def remove (d : BlockDatabase) (id : BlockId) : Option BlockDatabase :=
  match d.index[id.num]? with
  | none => none
  | some e =>
    if e.blockId = id then
      some { d with index := writeEntry d.index id.num { e with blockSize := 0 } }
    else some d

/-- `contains`. -/
def contains (d : BlockDatabase) (id : BlockId) : Bool :=
  if id = .zero then false
  else
    match d.index[id.num]? with
    | none => false
    | some e => e.blockId = id ∧ 0 < e.blockSize

/-- `fetch_block_id`, or `none` when it throws. -/
def fetchBlockId (d : BlockDatabase) (n : Nat) : Option BlockId :=
  match d.index[n]? with
  | none => none
  | some e => if e.blockId = .zero then none else some e.blockId

/-- The block that an entry points to.  What is thrown here is caught by the callers. -/
def readBlock (d : BlockDatabase) (e : IndexEntry) : Option (SignedBlock ω) :=
  (c.unpack ((d.blocks.drop e.blockPos).take e.blockSize)).filter fun b =>
    r.blockId b.toBlockHeader = e.blockId

/-- `fetch_optional`. -/
def fetchOptional (d : BlockDatabase) (id : BlockId) : Option (SignedBlock ω) :=
  match d.index[id.num]? with
  | none => none
  | some e => if e.blockId = id then d.readBlock r c e else none

/-- `fetch_by_number`. -/
def fetchByNumber (d : BlockDatabase) (n : Nat) : Option (SignedBlock ω) :=
  match d.index[n]? with
  | none => none
  | some e => d.readBlock r c e

/-- The test of an entry in `last_index_entry`. -/
def intact (d : BlockDatabase) (e : IndexEntry) : Bool :=
  0 < e.blockSize ∧ e.blockPos + e.blockSize ≤ d.blocks.length ∧ (d.readBlock r c e).isSome

/-- `last_index_entry`: the last entry that is intact.  The index file is cut off after it. -/
def lastIndexEntry (d : BlockDatabase) : Option IndexEntry × BlockDatabase :=
  let kept := d.index.reverse.dropWhile fun e => !d.intact r c e
  (kept.head?, { d with index := kept.reverse })

/-- `last_id`. -/
def lastId (d : BlockDatabase) : Option BlockId :=
  (d.lastIndexEntry r c).1.map IndexEntry.blockId

/-- A call of `store`, with the block's id, or of `remove`. -/
inductive StoreCall (ω : Type) where
  | store (b : SignedBlock ω)
  | remove (id : BlockId)

/-- The files after a call; a `remove` that throws leaves them. -/
def perform (d : BlockDatabase) : StoreCall ω → BlockDatabase
  | .store b => d.store r c (r.blockId b.toBlockHeader) b
  | .remove id => (d.remove id).getD d

end BlockDatabase

/-! ### Entries -/

theorem getElem?_writeEntry_self (index : List IndexEntry) (n : Nat) (e : IndexEntry) :
    (writeEntry index n e)[n]? = some e := by
  unfold writeEntry
  split
  · rename_i h
    exact List.getElem?_set_self h
  · rename_i h
    rw [List.getElem?_append_right (by simp; omega)]
    simp only [List.length_append, List.length_replicate]
    rw [Nat.sub_eq_zero_of_le (by omega)]
    rfl

theorem getElem?_writeEntry_of_ne (index : List IndexEntry) {n k : Nat} (e : IndexEntry)
    (h : k ≠ n) :
    (writeEntry index n e)[k]? = index[k]? ∨
      index[k]? = none ∧ (writeEntry index n e)[k]? = some .zero := by
  unfold writeEntry
  split
  · exact Or.inl (List.getElem?_set_ne h.symm)
  · rename_i hlen
    by_cases hk : k < index.length
    · left
      rw [List.append_assoc, List.getElem?_append_left hk]
    · have hnone : index[k]? = none := List.getElem?_eq_none (Nat.le_of_not_lt hk)
      by_cases hkn : k < n
      · right
        refine ⟨hnone, ?_⟩
        rw [List.append_assoc, List.getElem?_append_right (Nat.le_of_not_lt hk),
          List.getElem?_append_left (by simp; omega), List.getElem?_replicate]
        exact if_pos (by omega)
      · left
        rw [hnone]
        exact List.getElem?_eq_none (by simp; omega)

section

variable {ω ρ : Type} {r : Rules ω ρ} {c : BlockCodec ω} {d : BlockDatabase} {b : SignedBlock ω}
  {e : IndexEntry}

theorem Rules.blockId_ne_zero (r : Rules ω ρ) (b : SignedBlock ω) :
    r.blockId b.toBlockHeader ≠ .zero := by
  intro h
  have hnum := congrArg BlockId.num h
  exact absurd hnum (Nat.succ_ne_zero _)

theorem BlockCodec.pack_pos (c : BlockCodec ω) (b : SignedBlock ω) : 0 < (c.pack b).length := by
  refine List.length_pos_of_ne_nil fun h => ?_
  have := c.unpack_pack b
  rw [h, c.unpack_nil] at this
  cases this

namespace BlockDatabase

/-- An entry points to a block with its id. -/
structure PointsTo (r : Rules ω ρ) (c : BlockCodec ω) (d : BlockDatabase) (e : IndexEntry)
    (b : SignedBlock ω) : Prop where
  id : r.blockId b.toBlockHeader = e.blockId
  size : e.blockSize = (c.pack b).length
  bound : e.blockPos + e.blockSize ≤ d.blocks.length
  data : (d.blocks.drop e.blockPos).take e.blockSize = c.pack b

theorem PointsTo.readBlock (h : d.PointsTo r c e b) : d.readBlock r c e = some b := by
  unfold BlockDatabase.readBlock
  rw [h.data, c.unpack_pack]
  simp [Option.filter, h.id]

theorem PointsTo.append (h : d.PointsTo r c e b) (index : List IndexEntry) (data : List UInt8) :
    PointsTo r c ⟨index, d.blocks ++ data⟩ e b := by
  have hbound := h.bound
  refine ⟨h.id, h.size, ?_, ?_⟩
  · show e.blockPos + e.blockSize ≤ (d.blocks ++ data).length
    rw [List.length_append]
    omega
  · show ((d.blocks ++ data).drop e.blockPos).take e.blockSize = _
    rw [List.drop_append_of_le_length (by omega), List.take_append_of_le_length, h.data]
    rw [List.length_drop]
    omega

theorem pointsTo_stored (d : BlockDatabase) (r : Rules ω ρ) (c : BlockCodec ω)
    (b : SignedBlock ω) (index : List IndexEntry) :
    PointsTo r c ⟨index, d.blocks ++ c.pack b⟩
      ⟨d.blocks.length, (c.pack b).length, r.blockId b.toBlockHeader⟩ b := by
  refine ⟨rfl, rfl, ?_, ?_⟩
  · show d.blocks.length + (c.pack b).length ≤ (d.blocks ++ c.pack b).length
    rw [List.length_append]
  · show ((d.blocks ++ c.pack b).drop d.blocks.length).take (c.pack b).length = _
    rw [List.drop_left, List.take_length]

theorem readBlock_empty (d : BlockDatabase) (r : Rules ω ρ) (c : BlockCodec ω)
    (he : e.blockSize = 0) : d.readBlock r c e = none := by
  unfold BlockDatabase.readBlock
  rw [he, List.take_zero, c.unpack_nil]
  rfl

/-! ### Any calls -/

/-- What every entry is: never written, removed, or pointing to a block. -/
def Valid (r : Rules ω ρ) (c : BlockCodec ω) (d : BlockDatabase) : Prop :=
  ∀ (n : Nat) (e : IndexEntry), d.index[n]? = some e → e = .zero ∨
    e.blockId ≠ .zero ∧ (e.blockSize = 0 ∨ ∃ b, d.PointsTo r c e b)

theorem Valid.empty : Valid r c .empty := by
  intro n e he
  cases he

theorem Valid.store (h : Valid r c d) (b : SignedBlock ω) :
    Valid r c (d.store r c (r.blockId b.toBlockHeader) b) := by
  have hid := r.blockId_ne_zero b
  intro n e he
  simp only [BlockDatabase.store, if_neg hid] at he ⊢
  by_cases hn : n = (r.blockId b.toBlockHeader).num
  · subst hn
    rw [getElem?_writeEntry_self] at he
    obtain rfl := Option.some.inj he
    exact Or.inr ⟨hid, Or.inr ⟨b, pointsTo_stored d r c b _⟩⟩
  · rcases getElem?_writeEntry_of_ne d.index
      ⟨d.blocks.length, (c.pack b).length, r.blockId b.toBlockHeader⟩ hn with hsame | hzero
    · rw [hsame] at he
      rcases h n e he with hz | ⟨hne, hsize | ⟨b', hb'⟩⟩
      · exact Or.inl hz
      · exact Or.inr ⟨hne, Or.inl hsize⟩
      · exact Or.inr ⟨hne, Or.inr ⟨b', hb'.append _ _⟩⟩
    · rw [hzero.2] at he
      exact Or.inl (Option.some.inj he).symm

theorem Valid.remove (h : Valid r c d) (id : BlockId) : Valid r c ((d.remove id).getD d) := by
  unfold BlockDatabase.remove
  split
  · exact h
  · rename_i e0 he0
    split
    · intro n e he
      by_cases hn : n = id.num
      · subst hn
        simp only [Option.getD_some, getElem?_writeEntry_self] at he
        obtain rfl := Option.some.inj he
        rcases h _ e0 he0 with rfl | ⟨hne, -⟩
        · exact Or.inl rfl
        · exact Or.inr ⟨hne, Or.inl rfl⟩
      · rcases getElem?_writeEntry_of_ne d.index { e0 with blockSize := 0 } hn with hsame | hzero
        · simp only [Option.getD_some, hsame] at he
          rcases h n e he with hz | ⟨hne, hsize | ⟨b', hb'⟩⟩
          · exact Or.inl hz
          · exact Or.inr ⟨hne, Or.inl hsize⟩
          · exact Or.inr ⟨hne, Or.inr ⟨b', hb'.id, hb'.size, hb'.bound, hb'.data⟩⟩
        · simp only [Option.getD_some, hzero.2] at he
          exact Or.inl (Option.some.inj he).symm
    · exact h

theorem Valid.performs (h : Valid r c d) (calls : List (StoreCall ω)) :
    Valid r c (calls.foldl (perform r c) d) := by
  induction calls generalizing d with
  | nil => exact h
  | cons call calls ih =>
    cases call with
    | store b => exact ih (h.store b)
    | remove id => exact ih (h.remove id)

theorem fetchOptional_id {id : BlockId} (h : d.fetchOptional r c id = some b) :
    r.blockId b.toBlockHeader = id := by
  unfold BlockDatabase.fetchOptional at h
  split at h
  · cases h
  · rename_i e he
    split at h
    · rename_i hid
      have hfilter := (Option.filter_eq_some_iff.mp h).2
      rw [← hid]
      exact of_decide_eq_true hfilter
    · cases h

theorem Valid.contains_iff (h : Valid r c d) (id : BlockId) :
    d.contains id = true ↔ ∃ b, d.fetchOptional r c id = some b := by
  unfold BlockDatabase.contains BlockDatabase.fetchOptional
  cases he : d.index[id.num]? with
  | none => simp
  | some e =>
    simp only
    by_cases hid : e.blockId = id
    · rw [if_pos hid]
      rcases h _ e he with rfl | ⟨hne, hsize | ⟨b, hb⟩⟩
      · rw [d.readBlock_empty r c rfl]
        simp [IndexEntry.zero]
      · rw [d.readBlock_empty r c hsize]
        simp [hsize]
      · have hpos := c.pack_pos b
        rw [hb.readBlock, if_neg (hid ▸ hne)]
        refine iff_of_true ?_ ⟨b, rfl⟩
        exact decide_eq_true ⟨hid, hb.size ▸ hpos⟩
    · rw [if_neg hid]
      simp [hid]

/-! ### Blocks that are only stored -/

/-- The blocks by number that the files hold, when none was removed. -/
structure Holds (r : Rules ω ρ) (c : BlockCodec ω) (d : BlockDatabase)
    (slots : Nat → Option (BlockId × SignedBlock ω)) : Prop where
  stored : ∀ (n : Nat) id b, slots n = some (id, b) →
    id.num = n ∧ ∃ e, d.index[n]? = some e ∧ e.blockId = id ∧ d.PointsTo r c e b
  unwritten : ∀ n : Nat, slots n = none → d.index[n]? = none ∨ d.index[n]? = some .zero

variable {slots : Nat → Option (BlockId × SignedBlock ω)} {n : Nat} {id : BlockId}

theorem Holds.empty : Holds r c .empty fun _ => none :=
  ⟨fun _ _ _ h => (Option.some_ne_none _ h.symm).elim, fun _ _ => Or.inl rfl⟩

theorem Holds.store (h : d.Holds r c slots) (b : SignedBlock ω) :
    (d.store r c (r.blockId b.toBlockHeader) b).Holds r c
      (Function.update slots b.blockNum (some (r.blockId b.toBlockHeader, b))) := by
  have hid := r.blockId_ne_zero b
  have hnum : (r.blockId b.toBlockHeader).num = b.blockNum := rfl
  unfold BlockDatabase.store
  simp only [if_neg hid, hnum]
  refine ⟨fun n id b' hslot => ?_, fun n hslot => ?_⟩
  · by_cases hn : n = b.blockNum
    · subst hn
      rw [Function.update_self] at hslot
      obtain ⟨rfl, rfl⟩ := Prod.mk.inj (Option.some.inj hslot)
      exact ⟨rfl, _, getElem?_writeEntry_self .., rfl, pointsTo_stored d r c b _⟩
    · rw [Function.update_of_ne hn] at hslot
      obtain ⟨hidn, e, he, heid, hpoints⟩ := h.stored n id b' hslot
      refine ⟨hidn, e, ?_, heid, hpoints.append _ _⟩
      rcases getElem?_writeEntry_of_ne d.index
        ⟨d.blocks.length, (c.pack b).length, r.blockId b.toBlockHeader⟩ hn
        with hsame | hzero
      · exact hsame.trans he
      · rw [hzero.1] at he
        cases he
  · have hn : n ≠ b.blockNum := by
      rintro rfl
      rw [Function.update_self] at hslot
      cases hslot
    rw [Function.update_of_ne hn] at hslot
    rcases getElem?_writeEntry_of_ne d.index
      ⟨d.blocks.length, (c.pack b).length, r.blockId b.toBlockHeader⟩ hn with hsame | hzero
    · rw [hsame]
      exact h.unwritten n hslot
    · exact Or.inr hzero.2

theorem Holds.fetchBlockId (h : d.Holds r c slots) (hn : 0 < n) (hslot : slots n = some (id, b)) :
    d.fetchBlockId n = some id := by
  obtain ⟨hidn, e, he, rfl, -⟩ := h.stored n id b hslot
  unfold BlockDatabase.fetchBlockId
  rw [he]
  refine if_neg fun hzero => ?_
  rw [hzero] at hidn
  exact absurd hidn (Nat.ne_of_lt hn)

theorem Holds.fetchByNumber (h : d.Holds r c slots) (hslot : slots n = some (id, b)) :
    d.fetchByNumber r c n = some b := by
  obtain ⟨-, e, he, -, hpoints⟩ := h.stored n id b hslot
  unfold BlockDatabase.fetchByNumber
  rw [he]
  exact hpoints.readBlock

theorem PointsTo.intact (h : d.PointsTo r c e b) : d.intact r c e = true := by
  have hpos := c.pack_pos b
  unfold BlockDatabase.intact
  rw [h.readBlock]
  exact decide_eq_true ⟨h.size ▸ hpos, h.bound, rfl⟩

theorem Holds.lastId (h : d.Holds r c slots) (hslot : slots n = some (id, b))
    (htop : ∀ k, n < k → slots k = none) : d.lastId r c = some id := by
  obtain ⟨-, e, he, heid, hpoints⟩ := h.stored n id b hslot
  obtain ⟨hlt, hget⟩ := List.getElem?_eq_some_iff.mp he
  have hsplit : d.index = d.index.take n ++ e :: d.index.drop (n + 1) := by
    rw [← hget, ← List.drop_eq_getElem_cons hlt, List.take_append_drop]
  -- what follows the entry was never written
  have hzero : ∀ x ∈ (d.index.drop (n + 1)).reverse, (!d.intact r c x) = true := by
    intro x hx
    obtain ⟨k, hk⟩ := List.getElem?_of_mem (List.mem_reverse.mp hx)
    rw [List.getElem?_drop] at hk
    rcases h.unwritten (n + 1 + k) (htop _ (by omega)) with hnone | hz
    · rw [hnone] at hk
      cases hk
    · obtain rfl := Option.some.inj (hz.symm.trans hk)
      simp [BlockDatabase.intact, IndexEntry.zero]
  unfold BlockDatabase.lastId BlockDatabase.lastIndexEntry
  have hkept : d.index.reverse.dropWhile (fun x => !d.intact r c x) =
      e :: (d.index.take n).reverse := by
    rw [hsplit, List.reverse_append, List.reverse_cons, List.append_assoc,
      List.dropWhile_append_of_pos hzero]
    rw [List.singleton_append, List.dropWhile_cons_of_neg]
    · rw [← hsplit]
    · rw [hpoints.intact]
      simp
  simp only [hkept, List.head?_cons, Option.map_some, heid]

theorem Holds.lastId_none (h : d.Holds r c slots) (hnone : ∀ n, slots n = none) :
    d.lastId r c = none := by
  have hzero : ∀ x ∈ d.index.reverse, (!d.intact r c x) = true := by
    intro x hx
    obtain ⟨k, hk⟩ := List.getElem?_of_mem (List.mem_reverse.mp hx)
    rcases h.unwritten k (hnone k) with hno | hz
    · rw [hno] at hk
      cases hk
    · obtain rfl := Option.some.inj (hz.symm.trans hk)
      simp [BlockDatabase.intact, IndexEntry.zero]
  unfold BlockDatabase.lastId BlockDatabase.lastIndexEntry
  have hkept : d.index.reverse.dropWhile (fun x => !d.intact r c x) = [] :=
    List.dropWhile_eq_nil_iff.mpr hzero
  rw [hkept]
  rfl

end BlockDatabase

end

end Nestchain.Chain
