import Nestchain.Net.Node
import Mathlib.Algebra.Ring.Nat

/-! The cache of the messages that were broadcast, from which the node answers the requests of its
peers.  A message leaves it some blocks after it came. -/

namespace Nestchain.Net

variable {μ δ : Type}

/-- `message_info` -/
structure MessageInfo (μ δ : Type) where
  messageHash : Nat
  messageBody : μ
  blockClockWhenReceived : UInt32
  propagationData : δ
  messageContentsHash : Nat

/-- `blockchain_tied_message_cache`, with the messages in the order in which they came. -/
structure MessageCache (μ δ : Type) where
  messageCache : List (MessageInfo μ δ)
  blockClock : UInt32

namespace MessageCache

def empty : MessageCache μ δ := ⟨[], 0⟩

def blockAccepted (c : MessageCache μ δ) : MessageCache μ δ where
  blockClock := c.blockClock + 1
  messageCache :=
    if UInt32.ofNat messageCacheDuration < c.blockClock + 1 then
      c.messageCache.filter fun e =>
        decide (c.blockClock + 1 - UInt32.ofNat messageCacheDuration ≤ e.blockClockWhenReceived)
    else c.messageCache

/-- The insertion does nothing when the hash is there. -/
def cacheMessage (c : MessageCache μ δ) (messageToCache : μ) (hash : Nat) (propagationData : δ)
    (contentsHash : Nat) : MessageCache μ δ :=
  if c.messageCache.any (·.messageHash == hash) then c
  else { c with
    messageCache := c.messageCache ++
      [⟨hash, messageToCache, c.blockClock, propagationData, contentsHash⟩] }

def find (c : MessageCache μ δ) (hash : Nat) : Option (MessageInfo μ δ) :=
  c.messageCache.find? (·.messageHash == hash)

/-- `none` for `key_not_found_exception`. -/
def getMessage (c : MessageCache μ δ) (hash : Nat) : Option μ :=
  (c.find hash).map MessageInfo.messageBody

end MessageCache

/-- What is done to the cache. -/
inductive CacheOp (μ δ : Type) where
  | cacheMessage (message : μ) (hash : Nat) (propagationData : δ) (contentsHash : Nat)
  | blockAccepted

namespace CacheOp

def apply (c : MessageCache μ δ) : CacheOp μ δ → MessageCache μ δ
  | .cacheMessage m hash data contentsHash => c.cacheMessage m hash data contentsHash
  | .blockAccepted => c.blockAccepted

def isBlock : CacheOp μ δ → Bool
  | .blockAccepted => true
  | .cacheMessage .. => false

end CacheOp

def runCache (ops : List (CacheOp μ δ)) : MessageCache μ δ := ops.foldl CacheOp.apply .empty

def blocks (ops : List (CacheOp μ δ)) : Nat := ops.countP CacheOp.isBlock

/-! ### The entries -/

variable {ops : List (CacheOp μ δ)}

theorem runCache_snoc (ops : List (CacheOp μ δ)) (op : CacheOp μ δ) :
    runCache (ops ++ [op]) = op.apply (runCache ops) := by
  simp [runCache]

theorem runCache_blockClock (ops : List (CacheOp μ δ)) :
    (runCache ops).blockClock = UInt32.ofNat (blocks ops) := by
  induction ops using List.reverseRecOn with
  | nil => rfl
  | append_singleton ops op ih =>
    rw [runCache_snoc]
    unfold blocks at ih ⊢
    rw [List.countP_append, UInt32.ofNat_add, ← ih]
    cases op with
    | blockAccepted => simp [CacheOp.apply, MessageCache.blockAccepted, CacheOp.isBlock]
    | cacheMessage m hash data contents =>
      simp only [CacheOp.apply, MessageCache.cacheMessage]
      split <;> simp [CacheOp.isBlock]

theorem blocks_snoc_le (ops : List (CacheOp μ δ)) (op : CacheOp μ δ) :
    blocks ops ≤ blocks (ops ++ [op]) := by
  rw [blocks, blocks, List.countP_append]
  exact Nat.le_add_right ..

theorem runCache_nodup (ops : List (CacheOp μ δ)) :
    ((runCache ops).messageCache.map MessageInfo.messageHash).Nodup := by
  induction ops using List.reverseRecOn with
  | nil => exact List.nodup_nil
  | append_singleton ops op ih =>
    rw [runCache_snoc]
    cases op with
    | blockAccepted =>
      simp only [CacheOp.apply, MessageCache.blockAccepted]
      split
      · exact ih.sublist (List.filter_sublist.map _)
      · exact ih
    | cacheMessage m hash data contents =>
      simp only [CacheOp.apply, MessageCache.cacheMessage]
      split
      · exact ih
      · rename_i hnew
        rw [List.map_append, List.nodup_append]
        refine ⟨ih, List.nodup_singleton _, ?_⟩
        rintro a ha b hb rfl
        obtain rfl : a = hash := by simpa using hb
        obtain ⟨e, he, heq⟩ := List.mem_map.mp ha
        exact hnew (List.any_eq_true.mpr ⟨e, he, by simpa using heq⟩)

namespace MessageCache

theorem find_eq_some_iff {c : MessageCache μ δ}
    (hc : (c.messageCache.map MessageInfo.messageHash).Nodup) {hash : Nat} {e : MessageInfo μ δ} :
    c.find hash = some e ↔ e ∈ c.messageCache ∧ e.messageHash = hash := by
  unfold find
  constructor
  · intro h
    exact ⟨List.mem_of_find?_eq_some h, by simpa using List.find?_some h⟩
  · rintro ⟨he, rfl⟩
    cases hfind : c.messageCache.find? (·.messageHash == e.messageHash) with
    | none => simpa using List.find?_eq_none.mp hfind e he
    | some e' =>
      have hkey : e'.messageHash = e.messageHash := by simpa using List.find?_some hfind
      rw [List.inj_on_of_nodup_map hc (List.mem_of_find?_eq_some hfind) he hkey]

theorem mem_blockAccepted {c : MessageCache μ δ} (hc : c.blockClock.toNat + 1 < 2 ^ 32)
    {e : MessageInfo μ δ} : e ∈ c.blockAccepted.messageCache ↔ e ∈ c.messageCache ∧
      c.blockClock.toNat + 1 ≤ e.blockClockWhenReceived.toNat + messageCacheDuration := by
  have hclock : (c.blockClock + 1).toNat = c.blockClock.toNat + 1 := by
    rw [UInt32.toNat_add]
    exact Nat.mod_eq_of_lt hc
  have hduration : (UInt32.ofNat messageCacheDuration).toNat = messageCacheDuration := rfl
  unfold blockAccepted
  dsimp only
  split
  · rename_i hlate
    have hsub := UInt32.toNat_sub_of_le _ _ (UInt32.le_of_lt hlate)
    rw [List.mem_filter, decide_eq_true_eq, UInt32.le_iff_toNat_le, hsub, hclock, hduration]
    exact and_congr_right fun _ => by omega
  · rename_i hearly
    rw [UInt32.lt_iff_toNat_lt, hclock, hduration] at hearly
    exact ⟨fun h => ⟨h, by omega⟩, And.left⟩

theorem find_cacheMessage (c : MessageCache μ δ) (m : μ) (hash : Nat) (data : δ) (contents : Nat)
    (other : Nat) : (c.cacheMessage m hash data contents).find other =
      if other = hash ∧ c.find hash = none then some ⟨hash, m, c.blockClock, data, contents⟩
      else c.find other := by
  unfold cacheMessage find
  split
  · rename_i hany
    obtain ⟨e, he, heq⟩ := List.any_eq_true.mp hany
    rw [if_neg]
    rintro ⟨-, hnone⟩
    exact List.find?_eq_none.mp hnone e he heq
  · rename_i hany
    have hnone : c.messageCache.find? (·.messageHash == hash) = none :=
      List.find?_eq_none.mpr fun e he heq => hany (List.any_eq_true.mpr ⟨e, he, heq⟩)
    rw [List.find?_append]
    by_cases hother : other = hash
    · subst hother
      simp [hnone]
    · rw [if_neg fun h => hother h.1]
      simp [Ne.symm hother]

end MessageCache

/-! ### What is in the cache -/

/-- The message was cached where no message of its hash was, and at most five blocks came after. -/
structure CachedBy (ops : List (CacheOp μ δ)) (e : MessageInfo μ δ)
    (before after : List (CacheOp μ δ)) : Prop where
  split : ops = before ++
    .cacheMessage e.messageBody e.messageHash e.propagationData e.messageContentsHash :: after
  new : (runCache before).find e.messageHash = none
  clock : e.blockClockWhenReceived = UInt32.ofNat (blocks before)
  recent : blocks after ≤ messageCacheDuration

theorem CachedBy.snoc {op : CacheOp μ δ} {e : MessageInfo μ δ} {before after : List (CacheOp μ δ)}
    (h : CachedBy (ops ++ [op]) e before after) :
    (after = [] ∧ ops = before ∧ op =
      .cacheMessage e.messageBody e.messageHash e.propagationData e.messageContentsHash) ∨
    ∃ earlier, after = earlier ++ [op] ∧ CachedBy ops e before earlier := by
  have hsplit := h.split
  rcases List.eq_nil_or_concat after with rfl | ⟨earlier, last, rfl⟩
  · obtain ⟨hops, hop⟩ := List.append_inj' hsplit rfl
    exact Or.inl ⟨rfl, hops, List.singleton_inj.mp hop⟩
  · rw [List.concat_eq_append, ← List.cons_append, ← List.append_assoc] at hsplit
    obtain ⟨hops, hop⟩ := List.append_inj' hsplit rfl
    obtain rfl := List.singleton_inj.mp hop
    refine Or.inr ⟨earlier, List.concat_eq_append, hops, h.new, h.clock, ?_⟩
    have hrecent := h.recent
    rw [List.concat_eq_append, blocks, List.countP_append] at hrecent
    exact (Nat.le_add_right _ _).trans hrecent

theorem CachedBy.blocks_eq {e : MessageInfo μ δ} {before after : List (CacheOp μ δ)}
    (h : CachedBy ops e before after) (hops : blocks ops < 2 ^ 32) :
    blocks ops = e.blockClockWhenReceived.toNat + blocks after := by
  have hsum : blocks ops = blocks before + blocks after := by
    rw [h.split]
    simp [blocks, CacheOp.isBlock]
  rw [h.clock, UInt32.toNat_ofNat_of_lt' (by omega : blocks before < 2 ^ 32), hsum]

theorem runCache_find (ops : List (CacheOp μ δ)) (hops : blocks ops < 2 ^ 32)
    (e : MessageInfo μ δ) :
    (runCache ops).find e.messageHash = some e ↔ ∃ before after, CachedBy ops e before after := by
  induction ops using List.reverseRecOn with
  | nil =>
    constructor
    · intro h
      simp [runCache, MessageCache.find, MessageCache.empty] at h
    · rintro ⟨before, after, h⟩
      simpa using h.split
  | append_singleton ops op ih =>
    have hless : blocks ops < 2 ^ 32 := (blocks_snoc_le ops op).trans_lt hops
    specialize ih hless
    cases op with
    | blockAccepted =>
      have hmore : blocks (ops ++ [.blockAccepted]) = blocks ops + 1 := by
        simp [blocks, CacheOp.isBlock]
      have hclock : (runCache ops).blockClock.toNat = blocks ops := by
        rw [runCache_blockClock, UInt32.toNat_ofNat_of_lt' hless]
      have hfind : (runCache (ops ++ [.blockAccepted])).find e.messageHash = some e ↔
          (runCache ops).find e.messageHash = some e ∧
            blocks ops + 1 ≤ e.blockClockWhenReceived.toNat + messageCacheDuration := by
        rw [MessageCache.find_eq_some_iff (runCache_nodup _), runCache_snoc,
          MessageCache.find_eq_some_iff (runCache_nodup _), CacheOp.apply,
          MessageCache.mem_blockAccepted (by omega), hclock]
        exact and_right_comm
      rw [hfind, ih]
      constructor
      · rintro ⟨⟨before, after, h⟩, hrecent⟩
        refine ⟨before, after ++ [.blockAccepted], ⟨by rw [h.split]; simp, h.new, h.clock, ?_⟩⟩
        have hblocks := h.blocks_eq hless
        have hmore : blocks (after ++ [.blockAccepted]) = blocks after + 1 := by
          simp [blocks, CacheOp.isBlock]
        omega
      · rintro ⟨before, after, h⟩
        have hblocks := h.blocks_eq hops
        have hrecent := h.recent
        rcases h.snoc with ⟨-, -, hop⟩ | ⟨earlier, rfl, hold⟩
        · cases hop
        · exact ⟨⟨before, earlier, hold⟩, by omega⟩
    | cacheMessage m hash data contents =>
      rw [runCache_snoc]
      simp only [CacheOp.apply, MessageCache.find_cacheMessage]
      constructor
      · intro h
        split at h
        · rename_i hnew
          obtain rfl := Option.some.inj h
          refine ⟨ops, [], ⟨rfl, hnew.2, runCache_blockClock ops, Nat.zero_le _⟩⟩
        · obtain ⟨before, after, hold⟩ := ih.mp h
          refine ⟨before, after ++ [.cacheMessage m hash data contents],
            ⟨by rw [hold.split]; simp, hold.new, hold.clock, ?_⟩⟩
          have hsame : blocks (after ++ [.cacheMessage m hash data contents]) = blocks after := by
            simp [blocks, CacheOp.isBlock]
          exact hsame ▸ hold.recent
      · rintro ⟨before, after, h⟩
        rcases h.snoc with ⟨-, rfl, hop⟩ | ⟨earlier, rfl, hold⟩
        · cases hop
          rw [if_pos ⟨rfl, h.new⟩, runCache_blockClock, ← h.clock]
        · have hthere := ih.mpr ⟨before, earlier, hold⟩
          rw [if_neg, hthere]
          rintro ⟨rfl, hnone⟩
          rw [hthere] at hnone
          cases hnone

/-- A message can be got from the cache exactly when it was put there where none of its hash was,
and not more than five blocks were accepted since. -/
theorem message_cached_iff (ops : List (CacheOp μ δ)) (hops : blocks ops < 2 ^ 32) (hash : Nat)
    (m : μ) :
    (runCache ops).getMessage hash = some m ↔
      ∃ before after data contents, ops = before ++ .cacheMessage m hash data contents :: after ∧
        (runCache before).getMessage hash = none ∧ blocks after ≤ messageCacheDuration := by
  unfold MessageCache.getMessage
  constructor
  · intro h
    obtain ⟨e, he, rfl⟩ := Option.map_eq_some_iff.mp h
    obtain ⟨-, rfl⟩ := (MessageCache.find_eq_some_iff (runCache_nodup ops)).mp he
    obtain ⟨before, after, hc⟩ := (runCache_find ops hops e).mp he
    exact ⟨before, after, _, _, hc.split, by rw [hc.new]; rfl, hc.recent⟩
  · rintro ⟨before, after, data, contents, hsplit, hnew, hrecent⟩
    have he := (runCache_find ops hops
      ⟨hash, m, UInt32.ofNat (blocks before), data, contents⟩).mpr
      ⟨before, after, ⟨hsplit, Option.map_eq_none_iff.mp hnew, rfl, hrecent⟩⟩
    exact Option.map_eq_some_iff.mpr ⟨_, he, rfl⟩

/-- After five blocks the first message is still there. -/
theorem message_cached_iff_five :
    (runCache [.cacheMessage "a" 1 () 11, .blockAccepted, .cacheMessage "b" 2 () 12, .blockAccepted,
      .blockAccepted, .blockAccepted, .blockAccepted]).getMessage 1 = some "a" :=
  (message_cached_iff _ (by decide) 1 "a").mpr
    ⟨[], [.blockAccepted, .cacheMessage "b" 2 () 12, .blockAccepted, .blockAccepted,
      .blockAccepted, .blockAccepted], (), 11, rfl, rfl, by decide⟩

end Nestchain.Net
