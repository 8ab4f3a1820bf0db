import Nestchain.Net.Node
import Mathlib.Algebra.BigOperators.Group.List.Basic
import Mathlib.Algebra.GroupWithZero.Nat

/-! Requests for items in normal operation, for any interleaving of the handlers and any messages of
the peers. -/

namespace Nestchain.Net

open Nestchain.Lib

variable {n n' : Node} {now : Nat} {p : PeerId} {i : ItemId}

/-! ### What the handlers leave -/

/-- `n'` has the connections and requests of `n`. -/
structure SameRequests (n n' : Node) : Prop where
  connected : n'.connected = n.connected
  active : n'.active = n.active
  items : ∀ q, (n'.peers q).itemsRequestedFromPeer = (n.peers q).itemsRequestedFromPeer
  syncItems : ∀ q, (n'.peers q).syncItemsRequestedFromPeer = (n.peers q).syncItemsRequestedFromPeer
  sync : ∀ q, (n'.peers q).sync = (n.peers q).sync
  activeSyncRequests : n'.activeSyncRequests = n.activeSyncRequests
  receivedSyncItems : n'.receivedSyncItems = n.receivedSyncItems

theorem SameRequests.refl (n : Node) : SameRequests n n :=
  ⟨rfl, rfl, fun _ => rfl, fun _ => rfl, fun _ => rfl, rfl, rfl⟩

theorem SameRequests.trans {n'' : Node} (h : SameRequests n n') (h' : SameRequests n' n'') :
    SameRequests n n'' :=
  ⟨h'.connected.trans h.connected, h'.active.trans h.active,
    fun q => (h'.items q).trans (h.items q), fun q => (h'.syncItems q).trans (h.syncItems q),
    fun q => (h'.sync q).trans (h.sync q), h'.activeSyncRequests.trans h.activeSyncRequests,
    h'.receivedSyncItems.trans h.receivedSyncItems⟩

theorem SameRequests.modifyPeer {f : Peer → Peer}
    (hf : ∀ peer, (f peer).itemsRequestedFromPeer = peer.itemsRequestedFromPeer ∧
      (f peer).syncItemsRequestedFromPeer = peer.syncItemsRequestedFromPeer ∧
      (f peer).sync = peer.sync) (n : Node) (p : PeerId) : SameRequests n (n.modifyPeer p f) := by
  have hall : ∀ q, ((n.modifyPeer p f).peers q).itemsRequestedFromPeer =
        (n.peers q).itemsRequestedFromPeer ∧
      ((n.modifyPeer p f).peers q).syncItemsRequestedFromPeer =
        (n.peers q).syncItemsRequestedFromPeer ∧
      ((n.modifyPeer p f).peers q).sync = (n.peers q).sync := by
    intro q
    unfold Node.modifyPeer
    by_cases hq : q = p
    · subst hq
      simpa using hf (n.peers q)
    · simp [Function.update_of_ne hq]
  exact ⟨rfl, rfl, fun q => (hall q).1, fun q => (hall q).2.1, fun q => (hall q).2.2, rfl, rfl⟩

theorem SameRequests.insertItemToFetch (n : Node) (now : Nat) (i : ItemId) :
    SameRequests n (n.insertItemToFetch now i) :=
  ⟨rfl, rfl, fun _ => rfl, fun _ => rfl, fun _ => rfl, rfl, rfl⟩

theorem SameRequests.noteInventory (now : Nat) (p : PeerId) (itemType : Nat) (hashes : List Nat)
    (n : Node) : SameRequests n (Node.noteInventory now p itemType hashes n) := by
  induction hashes generalizing n with
  | nil => exact .refl n
  | cons hash hashes ih =>
    rw [Node.noteInventory]
    split
    · exact ih n
    split
    · exact .refl n
    · have hnoted := SameRequests.modifyPeer (f := fun peer => { peer with
        inventoryPeerAdvertisedToUs := insertItem peer.inventoryPeerAdvertisedToUs
          ⟨itemType, hash⟩ (now / second) }) (fun _ => ⟨rfl, rfl, rfl⟩) n p
      refine SameRequests.trans ?_ (ih _)
      split
      · exact hnoted
      split
      · exact hnoted.trans ⟨rfl, rfl, fun _ => rfl, fun _ => rfl, fun _ => rfl, rfl, rfl⟩
      · exact hnoted.trans (.insertItemToFetch _ now _)

theorem SameRequests.onItemIdsInventoryMessage (n : Node) (now : Nat) (p : PeerId)
    (itemType : Nat) (hashes : List Nat) :
    SameRequests n (n.onItemIdsInventoryMessage now p itemType hashes) :=
  (SameRequests.modifyPeer (f := Peer.clearOldInventory now) (fun _ => ⟨rfl, rfl, rfl⟩) n p).trans
    (.noteInventory now p itemType hashes _)

theorem SameRequests.clearOldInventories (n : Node) (now : Nat) :
    SameRequests n (n.clearOldInventories now) := by
  refine ⟨rfl, rfl, fun q => ?_, fun q => ?_, fun q => ?_, rfl, rfl⟩ <;>
    (unfold Node.clearOldInventories; dsimp only; split <;> rfl)

theorem SameRequests.broadcast (n : Node) (i : ItemId) (blockId : Option Nat) :
    SameRequests n (n.broadcast i blockId).1 :=
  ⟨rfl, rfl, fun _ => rfl, fun _ => rfl, fun _ => rfl, rfl, rfl⟩

theorem SameRequests.advertiseInventory (n : Node) (now : Nat) :
    SameRequests n (n.advertiseInventory now).1 := by
  refine ⟨rfl, rfl, fun q => ?_, fun q => ?_, fun q => ?_, rfl, rfl⟩ <;>
    (unfold Node.advertiseInventory; dsimp only; split <;> rfl)

/-! ### The loop of `fetch_items_loop` -/

theorem Node.giveItem_perm {l : Node.ItemsByPeer} (hl : (l.map Prod.fst).Nodup) :
    (Node.giveItem p i l).Perm (l.map fun e => if e.1 = p then (e.1, e.2 ++ [i]) else e) := by
  induction l with
  | nil => exact .nil
  | cons e rest ih =>
    obtain ⟨q, items⟩ := e
    rw [List.map_cons, List.nodup_cons] at hl
    rw [Node.giveItem, List.map_cons]
    split
    · rename_i hq
      subst hq
      have hrest : (rest.map fun e => if e.1 = q then (e.1, e.2 ++ [i]) else e) = rest := by
        refine (List.map_congr_left fun e he => if_neg fun heq => ?_).trans (List.map_id' rest)
        exact hl.1 (List.mem_map.mpr ⟨e, he, heq⟩)
      rw [hrest]
      cases rest with
      | nil => exact .refl _
      | cons next rest =>
        simp only
        split
        · exact .refl _
        · refine List.perm_middle.trans (List.Perm.cons _ ?_)
          rw [List.takeWhile_append_dropWhile]
    · exact (ih hl.2).cons _

/-- The loop over the items, after the items `done`. -/
structure FetchingOf (n : Node) (done : List ItemId) (s : Node.Fetching) : Prop where
  keys : (s.itemsByPeer.map Prod.fst).Perm (n.active.filter fun p => (n.peers p).idle)
  load : ∀ e ∈ s.itemsByPeer, (s.peers e.1).itemsRequestedFromPeer = e.2 ∧ e.2.length ≤ 1 ∧
    ∀ i ∈ e.2, hasItem (n.peers e.1).inventoryPeerAdvertisedToUs i = true
  same : ∀ p, s.peers p =
    { n.peers p with itemsRequestedFromPeer := (s.peers p).itemsRequestedFromPeer }
  others : ∀ p, p ∉ s.itemsByPeer.map Prod.fst →
    (s.peers p).itemsRequestedFromPeer = (n.peers p).itemsRequestedFromPeer
  /-- No item is given twice, or given and kept. -/
  split : (s.itemsByPeer.flatMap Prod.snd ++ s.kept.map PrioritizedItem.item).Subperm done

theorem Peer.idle_items {peer : Peer} (h : peer.idle = true) :
    peer.itemsRequestedFromPeer = [] ∧ peer.syncItemsRequestedFromPeer = [] := by
  simp only [Peer.idle, Bool.and_eq_true, List.isEmpty_iff] at h
  exact h.1

theorem FetchingOf.start (n : Node) :
    FetchingOf n [] ⟨n.peers, (n.active.filter fun p => (n.peers p).idle).map fun p => (p, []),
      []⟩ := by
  refine ⟨?_, ?_, fun _ => rfl, fun _ _ => rfl, ?_⟩
  · rw [List.map_map]
    exact List.Perm.of_eq (List.map_id _)
  · rintro e he
    obtain ⟨p, hp, rfl⟩ := List.mem_map.mp he
    exact ⟨(Peer.idle_items (List.mem_filter.mp hp).2).1, by simp, by simp⟩
  · simp

theorem FetchingOf.next {done : List ItemId} {s : Node.Fetching} (h : FetchingOf n done s)
    (hnodup : n.active.Nodup) (oldest : Nat) (j : PrioritizedItem) :
    FetchingOf n (done ++ [j.item]) (Node.fetchItem oldest s j) := by
  have hmore : done.Subperm (done ++ [j.item]) := (List.sublist_append_left _ _).subperm
  have hkeys : (s.itemsByPeer.map Prod.fst).Nodup := h.keys.nodup_iff.mpr (hnodup.filter _)
  unfold Node.fetchItem
  split
  · exact ⟨h.keys, h.load, h.same, h.others, h.split.trans hmore⟩
  cases hp : s.provider j.item with
  | none =>
    refine ⟨h.keys, h.load, h.same, h.others, ?_⟩
    simp only [List.map_append, List.map_cons, List.map_nil]
    rw [← List.append_assoc]
    exact (List.subperm_append_right [j.item]).mpr h.split
  | some p =>
    obtain ⟨⟨q, items⟩, hfound, rfl⟩ := Option.map_eq_some_iff.mp hp
    have hmem := List.mem_of_find?_eq_some hfound
    have hcond := List.find?_some hfound
    simp only [Bool.and_eq_true, decide_eq_true_eq] at hcond
    obtain ⟨hless, hadvertised⟩ := hcond
    obtain ⟨hreq, -, -⟩ := h.load _ hmem
    obtain rfl : items = [] := List.length_eq_zero_iff.mp (Nat.lt_one_iff.mp hless)
    have hperm := Node.giveItem_perm (p := q) (i := j.item) hkeys
    have hfst : ((Node.giveItem q j.item s.itemsByPeer).map Prod.fst).Perm
        (s.itemsByPeer.map Prod.fst) := by
      refine (hperm.map Prod.fst).trans ?_
      rw [List.map_map]
      refine List.Perm.of_eq (List.map_congr_left fun e _ => ?_)
      simp only [Function.comp]
      split <;> rfl
    -- The entry of the peer is the only one that changes.
    have honly : ∀ e ∈ s.itemsByPeer, e.1 = q → e = (q, []) := by
      intro e he heq
      exact List.inj_on_of_nodup_map hkeys he hmem heq
    refine ⟨hfst.trans h.keys, fun e he => ?_, fun p => ?_, fun p hpn => ?_, ?_⟩
    · obtain ⟨e', he', rfl⟩ := List.mem_map.mp (hperm.subset he)
      by_cases heq : e'.1 = q
      · obtain rfl := honly e' he' heq
        simp only [if_true, List.nil_append, Function.update_self]
        refine ⟨congrArg _ hreq, by simp, fun i hi => ?_⟩
        obtain rfl : i = j.item := by simpa using hi
        rw [h.same q] at hadvertised
        exact hadvertised
      · rw [if_neg heq]
        simp only [Function.update_of_ne heq]
        exact h.load e' he'
    · by_cases heq : p = q
      · subst heq
        simp only [Function.update_self]
        rw [h.same p]
      · simp only [Function.update_of_ne heq]
        exact h.same p
    · have hout : p ∉ s.itemsByPeer.map Prod.fst := fun hin => hpn (hfst.symm.subset hin)
      have heq : p ≠ q := by
        rintro rfl
        exact hout (List.mem_map_of_mem hmem)
      simp only [Function.update_of_ne heq]
      exact h.others p hout
    · have hgiven : ((Node.giveItem q j.item s.itemsByPeer).flatMap Prod.snd).Perm
          (j.item :: s.itemsByPeer.flatMap Prod.snd) := by
        refine (hperm.flatMap_right Prod.snd).trans ?_
        obtain ⟨before, after, hsplit⟩ := List.append_of_mem hmem
        have hout : ∀ l : Node.ItemsByPeer, (∀ e ∈ l, e.1 ≠ q) →
            (l.map fun e => if e.1 = q then (e.1, e.2 ++ [j.item]) else e) = l := by
          intro l hl
          exact (List.map_congr_left fun e he => if_neg (hl e he)).trans (List.map_id' l)
        rw [hsplit, List.map_append, List.map_cons, List.nodup_append, List.nodup_cons] at hkeys
        obtain ⟨-, ⟨hafter, -⟩, hbefore⟩ := hkeys
        rw [hsplit, List.map_append, List.map_cons, hout before ?_, hout after ?_]
        · simp only [List.flatMap_append, List.flatMap_cons, if_true, List.nil_append]
          exact List.perm_middle
        · intro e he heq
          exact hafter (List.mem_map.mpr ⟨e, he, heq⟩)
        · intro e he heq
          exact hbefore _ (List.mem_map_of_mem he) _ List.mem_cons_self heq
      refine ((hgiven.append_right _).subperm).trans ?_
      refine (List.Perm.subperm ?_).trans ((List.subperm_append_right [j.item]).mpr h.split)
      rw [List.cons_append]
      exact (List.perm_append_singleton _ _).symm

theorem FetchingOf.loop (hnodup : n.active.Nodup) (oldest : Nat) (l : List PrioritizedItem)
    {done : List ItemId} {s : Node.Fetching} (h : FetchingOf n done s) :
    FetchingOf n (done ++ l.map PrioritizedItem.item) (l.foldl (Node.fetchItem oldest) s) := by
  induction l generalizing done s with
  | nil => simpa using h
  | cons j l ih =>
    have := ih (h.next hnodup oldest j)
    rwa [List.append_assoc, List.singleton_append] at this

/-! ### Counting requests -/

/-- How often an output asks a peer for an item in normal operation. -/
def Output.asks (p : PeerId) (i : ItemId) : Output → Nat
  | .fetchItems q itemType hashes =>
    if q = p ∧ itemType = i.itemType then hashes.count i.itemHash else 0
  | _ => 0

/-- How often an output gives the delegate an item that a peer sent in normal operation. -/
def Output.gives (p : PeerId) (i : ItemId) : Output → Nat
  | .handle h => if h.peer = p ∧ h.item = i then 1 else 0
  | _ => 0

def asked (p : PeerId) (i : ItemId) (os : List Output) : Nat := (os.map (Output.asks p i)).sum

/-- How often the delegate got an item that a peer sent. -/
def given (p : PeerId) (i : ItemId) (os : List Output) : Nat := (os.map (Output.gives p i)).sum

@[simp]
theorem asked_append (os os' : List Output) : asked p i (os ++ os') = asked p i os + asked p i os' := by
  simp [asked]

@[simp]
theorem given_append (os os' : List Output) : given p i (os ++ os') = given p i os + given p i os' := by
  simp [given]

theorem groupByType_of_length_le {items : List ItemId} (h : items.length ≤ 1) :
    groupByType items = items.map fun i => (i.itemType, [i.itemHash]) := by
  cases items with
  | nil => rfl
  | cons j rest =>
    obtain rfl : rest = [] := List.length_eq_zero_iff.mp (by simpa using h)
    simp [groupByType, List.Nodup.dedup (List.nodup_singleton j.itemType)]

theorem asked_itemsByPeer {l : Node.ItemsByPeer} (hl : (l.map Prod.fst).Nodup)
    (hload : ∀ e ∈ l, e.2.length ≤ 1) (p : PeerId) (i : ItemId) :
    asked p i (l.flatMap fun e => (groupByType e.2).map fun g => .fetchItems e.1 g.1 g.2) =
      (l.map fun e => if e.1 = p then e.2.count i else 0).sum := by
  induction l with
  | nil => rfl
  | cons e l ih =>
    rw [List.map_cons, List.nodup_cons] at hl
    rw [List.flatMap_cons, asked_append, List.map_cons, List.sum_cons,
      ih hl.2 fun e' he' => hload e' (List.mem_cons_of_mem _ he')]
    congr 1
    obtain ⟨q, items⟩ := e
    have hshort : items.length ≤ 1 := hload _ List.mem_cons_self
    rw [groupByType_of_length_le hshort]
    cases items with
    | nil => simp [asked]
    | cons j rest =>
      obtain rfl : rest = [] := List.length_eq_zero_iff.mp (by simpa using hshort)
      obtain ⟨jt, jh⟩ := j
      obtain ⟨it, ih⟩ := i
      simp only [asked, List.map_cons, List.map_nil, Output.asks, List.sum_cons, List.sum_nil,
        List.count_cons, List.count_nil, beq_iff_eq, ItemId.mk.injEq]
      split_ifs <;> simp_all

theorem sum_entries {l : Node.ItemsByPeer} (hl : (l.map Prod.fst).Nodup) {e : PeerId × List ItemId}
    (he : e ∈ l) (i : ItemId) :
    (l.map fun e' => if e'.1 = e.1 then e'.2.count i else 0).sum = e.2.count i := by
  induction l with
  | nil => cases he
  | cons e' l ih =>
    rw [List.map_cons, List.nodup_cons] at hl
    rw [List.map_cons, List.sum_cons]
    rcases List.mem_cons.mp he with rfl | he
    · have hzero : (l.map fun e' : PeerId × List ItemId =>
          if e'.1 = e.1 then e'.2.count i else 0).sum = 0 := by
        rw [List.sum_eq_zero]
        intro x hx
        obtain ⟨e', he', rfl⟩ := List.mem_map.mp hx
        exact if_neg fun heq => hl.1 (List.mem_map.mpr ⟨e', he', heq⟩)
      rw [if_pos rfl, hzero, Nat.add_zero]
    · have hne : e'.1 ≠ e.1 := fun heq => hl.1 (List.mem_map.mpr ⟨e, he, heq.symm⟩)
      rw [if_neg hne, ih hl.2 he, Nat.zero_add]

/-! ### One step -/

/-- A peer has at most one request of normal operation that is not answered, or some of the
synchronization, and the active peers are distinct. -/
structure Tidy (n : Node) : Prop where
  active : n.active.Nodup
  items : ∀ p, (n.peers p).itemsRequestedFromPeer.length ≤ 1
  exclusive : ∀ p, (n.peers p).itemsRequestedFromPeer = [] ∨
    (n.peers p).syncItemsRequestedFromPeer = []

theorem Node.fetchItems_peer (hnodup : n.active.Nodup) (now recentBlockInterval : Nat) (p : PeerId) :
    ((n.fetchItems now recentBlockInterval).1.peers p).itemsRequestedFromPeer =
        (n.peers p).itemsRequestedFromPeer ∧
      (∀ i, asked p i (n.fetchItems now recentBlockInterval).2 = 0) ∨
    p ∈ n.active ∧ (n.peers p).idle = true ∧
      ∃ items : List ItemId, items.length ≤ 1 ∧
        ((n.fetchItems now recentBlockInterval).1.peers p).itemsRequestedFromPeer = items ∧
        (∀ i, asked p i (n.fetchItems now recentBlockInterval).2 = items.count i) ∧
        ∀ i ∈ items, hasItem (n.peers p).inventoryPeerAdvertisedToUs i = true := by
  have h := (FetchingOf.start n).loop hnodup
    (now - recentBlockInterval * messageCacheDuration * second) n.itemsToFetch
  have hkeys := h.keys.nodup_iff.mpr (hnodup.filter _)
  have hasked := fun i => asked_itemsByPeer hkeys (fun e he => (h.load e he).2.1) p i
  by_cases hp : ∃ e ∈ (n.itemsToFetch.foldl (Node.fetchItem
      (now - recentBlockInterval * messageCacheDuration * second))
      ⟨n.peers, (n.active.filter fun p => (n.peers p).idle).map fun p => (p, []), []⟩).itemsByPeer,
      e.1 = p
  · obtain ⟨e, he, rfl⟩ := hp
    obtain ⟨hpa, hidle⟩ := List.mem_filter.mp (h.keys.subset (List.mem_map_of_mem he))
    obtain ⟨hreq, hlen, hadv⟩ := h.load e he
    exact Or.inr ⟨hpa, hidle, e.2, hlen, hreq,
      fun i => (hasked i).trans (sum_entries hkeys he i), hadv⟩
  · refine Or.inl ⟨h.others p fun hin => hp ?_, fun i => (hasked i).trans (List.sum_eq_zero ?_)⟩
    · obtain ⟨e, he, heq⟩ := List.mem_map.mp hin
      exact ⟨e, he, heq⟩
    · intro x hx
      obtain ⟨e, he, rfl⟩ := List.mem_map.mp hx
      exact if_neg fun heq => hp ⟨e, he, heq⟩

/-! ### Requests of the synchronization -/

theorem Node.pickSyncItems_spec (n : Node) (chosen ids picked : List Nat) :
    (∃ more, n.pickSyncItems chosen ids picked = picked ++ more ∧
      ∀ id ∈ more, id ∈ ids ∧ id ∉ n.receivedSyncItems ∧ id ∉ chosen ∧
        id ∉ n.activeSyncRequests) ∧
      (picked.Nodup → (n.pickSyncItems chosen ids picked).Nodup) ∧
      (picked.length < max 1 n.maximumBlocksPerPeer →
        (n.pickSyncItems chosen ids picked).length ≤ max 1 n.maximumBlocksPerPeer) := by
  induction ids generalizing picked with
  | nil => exact ⟨⟨[], by simp [Node.pickSyncItems]⟩, fun h => h, fun h => Nat.le_of_lt h⟩
  | cons id ids ih =>
    rw [Node.pickSyncItems]
    split
    · rename_i hnew
      obtain ⟨hreceived, hchosen, hactive⟩ := hnew
      rw [List.mem_append, not_or] at hchosen
      have hone : picked.Nodup → (picked ++ [id]).Nodup := by
        intro h
        exact List.nodup_append.mpr ⟨h, List.nodup_singleton id, by
          rintro a ha b hb rfl
          obtain rfl : a = id := by simpa using hb
          exact hchosen.2 ha⟩
      split
      · refine ⟨⟨[id], rfl, fun id' hid => ?_⟩, hone, fun hlen => ?_⟩
        · obtain rfl : id' = id := by simpa using hid
          exact ⟨List.mem_cons_self, hreceived, hchosen.1, hactive⟩
        · rw [List.length_append, List.length_singleton]
          omega
      · rename_i hshort
        obtain ⟨⟨more, hmore, hall⟩, hnodup, hlen⟩ := ih (picked ++ [id])
        refine ⟨⟨id :: more, by rw [hmore]; simp, fun id' hid => ?_⟩, fun h => hnodup (hone h),
          fun _ => hlen (by omega)⟩
        rcases List.mem_cons.mp hid with rfl | hid
        · exact ⟨List.mem_cons_self, hreceived, hchosen.1, hactive⟩
        · obtain ⟨h1, h2⟩ := hall id' hid
          exact ⟨List.mem_cons_of_mem _ h1, h2⟩
    · obtain ⟨⟨more, hmore, hall⟩, hrest⟩ := ih picked
      refine ⟨⟨more, hmore, fun id' hid => ?_⟩, hrest⟩
      obtain ⟨h1, h2⟩ := hall id' hid
      exact ⟨List.mem_cons_of_mem _ h1, h2⟩

/-- The requests that an iteration of `fetch_sync_items_loop` makes. -/
structure SyncRequests (n : Node) (ps : List PeerId) (chosen : List Nat)
    (requests : List (PeerId × List Nat)) : Prop where
  keys : (requests.map Prod.fst).Sublist ps
  entry : ∀ e ∈ requests, e.2.length ≤ max 1 n.maximumBlocksPerPeer ∧ (n.peers e.1).idle = true ∧
    ∀ id ∈ e.2, id ∈ (n.peers e.1).sync.idsOfItemsToGet ∧ id ∉ n.receivedSyncItems ∧
      id ∉ chosen ∧ id ∉ n.activeSyncRequests
  nodup : (requests.flatMap Prod.snd).Nodup

theorem Node.syncItemRequests_spec (n : Node) (ps : List PeerId) (chosen : List Nat) :
    SyncRequests n ps chosen (n.syncItemRequests ps chosen) := by
  induction ps generalizing chosen with
  | nil => exact ⟨.slnil, by simp [Node.syncItemRequests], by simp [Node.syncItemRequests]⟩
  | cons p ps ih =>
    have hskip : SyncRequests n (p :: ps) chosen (n.syncItemRequests ps chosen) :=
      ⟨(ih chosen).keys.cons p, (ih chosen).entry, (ih chosen).nodup⟩
    rw [Node.syncItemRequests]
    split
    · rename_i hcond
      simp only
      split
      · exact hskip
      · obtain ⟨⟨more, hmore, hall⟩, hnodup, hlen⟩ :=
          n.pickSyncItems_spec chosen (n.peers p).sync.idsOfItemsToGet []
        rw [List.nil_append] at hmore
        have hrest := ih (chosen ++ n.pickSyncItems chosen (n.peers p).sync.idsOfItemsToGet [])
        refine ⟨?_, fun e he => ?_, ?_⟩
        · exact hrest.keys.cons_cons p
        · rcases List.mem_cons.mp he with rfl | he
          · exact ⟨hlen (by simp), hcond.2.1, fun id hid => hall id (hmore ▸ hid)⟩
          · obtain ⟨h1, h2, h3⟩ := hrest.entry e he
            refine ⟨h1, h2, fun id hid => ?_⟩
            obtain ⟨h4, h5, h6, h7⟩ := h3 id hid
            exact ⟨h4, h5, fun hin => h6 (List.mem_append_left _ hin), h7⟩
        · rw [List.flatMap_cons, List.nodup_append]
          refine ⟨hnodup List.nodup_nil, hrest.nodup, ?_⟩
          rintro a ha b hb rfl
          obtain ⟨e, he, hae⟩ := List.mem_flatMap.mp hb
          exact ((hrest.entry e he).2.2 a hae).2.2.1 (List.mem_append_right _ ha)
    · exact hskip

/-- What the requests leave. -/
structure SyncRequested (n : Node) (requests : List (PeerId × List Nat)) (n' : Node) : Prop where
  maximumBlocksPerPeer : n'.maximumBlocksPerPeer = n.maximumBlocksPerPeer
  connected : n'.connected = n.connected
  active : n'.active = n.active
  rest : ∀ p, n'.peers p =
    { n.peers p with syncItemsRequestedFromPeer := (n'.peers p).syncItemsRequestedFromPeer }
  syncItems : ∀ p, (n'.peers p).syncItemsRequestedFromPeer =
    (n.peers p).syncItemsRequestedFromPeer ++
      (requests.filter fun e => e.1 == p).flatMap Prod.snd
  activeSyncRequests : n'.activeSyncRequests = n.activeSyncRequests ++ requests.flatMap Prod.snd
  itemsToFetch : n'.itemsToFetch = n.itemsToFetch
  newInventory : n'.newInventory = n.newInventory
  handling : n'.handling = n.handling
  mostRecentBlocksAccepted : n'.mostRecentBlocksAccepted = n.mostRecentBlocksAccepted

theorem Node.requestSyncItems_spec (n : Node) (requests : List (PeerId × List Nat)) :
    SyncRequested n requests (requests.foldl Node.requestSyncItems n) := by
  induction requests generalizing n with
  | nil => exact ⟨rfl, rfl, rfl, fun _ => rfl, by simp, by simp, rfl, rfl, rfl, rfl⟩
  | cons e requests ih =>
    rw [List.foldl_cons]
    have h := ih (n.requestSyncItems e)
    refine ⟨h.maximumBlocksPerPeer, h.connected, h.active, fun p => ?_, fun p => ?_, ?_,
      h.itemsToFetch, h.newInventory, h.handling, h.mostRecentBlocksAccepted⟩
    · rw [h.rest p]
      by_cases hp : p = e.1
      · subst hp
        simp [Node.requestSyncItems, Node.modifyPeer]
      · simp [Node.requestSyncItems, Node.modifyPeer, Function.update_of_ne hp]
    · rw [h.syncItems p]
      by_cases hp : p = e.1
      · subst hp
        simp [Node.requestSyncItems, Node.modifyPeer]
      · rw [List.filter_cons_of_neg (by simpa using Ne.symm hp)]
        simp [Node.requestSyncItems, Node.modifyPeer, Function.update_of_ne hp]
    · rw [h.activeSyncRequests, List.flatMap_cons]
      exact List.append_assoc ..

theorem SyncRequests.toPeer {ps : List PeerId} {chosen : List Nat}
    {requests : List (PeerId × List Nat)} (h : SyncRequests n ps chosen requests) (hps : ps.Nodup)
    (p : PeerId) : (requests.filter fun e => e.1 == p) = [] ∨
      ∃ e ∈ requests, e.1 = p ∧ (requests.filter fun e => e.1 == p) = [e] := by
  have hkeys := hps.sublist h.keys
  have hentries : requests.Nodup := hkeys.of_map Prod.fst
  rcases hf : requests.filter fun e => e.1 == p with _ | ⟨e, rest⟩
  · exact Or.inl hf
  · have hmem : ∀ e' ∈ e :: rest, e' ∈ requests ∧ e'.1 = p := by
      intro e' he'
      obtain ⟨h1, h2⟩ := List.mem_filter.mp (hf ▸ he')
      exact ⟨h1, by simpa using h2⟩
    obtain ⟨he, hep⟩ := hmem e List.mem_cons_self
    have hnodup : (e :: rest).Nodup := hf ▸ hentries.filter _
    refine Or.inr ⟨e, he, hep, hf.trans (congrArg (e :: ·) ?_)⟩
    refine List.eq_nil_iff_forall_not_mem.mpr fun e' he' => ?_
    obtain ⟨h1, h2⟩ := hmem e' (List.mem_cons_of_mem _ he')
    obtain rfl : e' = e := List.inj_on_of_nodup_map hkeys h1 he (h2.trans hep.symm)
    exact (List.nodup_cons.mp hnodup).1 he'

/-! ### Answers -/

/-- A step that makes no request: the open requests of a peer are some of those before, and each
item that the delegate gets was one of them. -/
structure Answered (n n' : Node) (os : List Output) : Prop where
  active : n.active.Nodup → n'.active.Nodup
  items : ∀ p, (n'.peers p).itemsRequestedFromPeer.Sublist (n.peers p).itemsRequestedFromPeer
  syncItems : ∀ p, (n'.peers p).syncItemsRequestedFromPeer.Sublist
    (n.peers p).syncItemsRequestedFromPeer
  asked : ∀ p i, asked p i os = 0
  given : ∀ p i, given p i os + (n'.peers p).itemsRequestedFromPeer.count i ≤
    (n.peers p).itemsRequestedFromPeer.count i

theorem Answered.silent {os : List Output} (hactive : n.active.Nodup → n'.active.Nodup)
    (hitems : ∀ p, (n'.peers p).itemsRequestedFromPeer.Sublist (n.peers p).itemsRequestedFromPeer)
    (hsync : ∀ p, (n'.peers p).syncItemsRequestedFromPeer.Sublist
      (n.peers p).syncItemsRequestedFromPeer)
    (hasked : ∀ p i, Nestchain.Net.asked p i os = 0)
    (hgiven : ∀ p i, Nestchain.Net.given p i os = 0) : Answered n n' os := by
  refine ⟨hactive, hitems, hsync, hasked, fun p i => ?_⟩
  rw [hgiven, Nat.zero_add]
  exact (hitems p).count_le i

theorem SameRequests.answered {os : List Output} (h : SameRequests n n')
    (hasked : ∀ p i, asked p i os = 0) (hgiven : ∀ p i, given p i os = 0) : Answered n n' os :=
  .silent (fun hn => h.active ▸ hn) (fun p => h.items p ▸ List.Sublist.refl _)
    (fun p => h.syncItems p ▸ List.Sublist.refl _) hasked hgiven

theorem Answered.then {n'' : Node} {os : List Output} (h : Answered n n' os)
    (h' : SameRequests n' n'') : Answered n n'' os := by
  refine ⟨fun hn => h'.active ▸ h.active hn, fun p => ?_, fun p => ?_, h.asked, fun p i => ?_⟩
  · rw [h'.items]
    exact h.items p
  · rw [h'.syncItems]
    exact h.syncItems p
  · rw [h'.items]
    exact h.given p i

theorem Answered.modifyPeer {f : Peer → Peer} (n : Node) (p : PeerId)
    (hitems : (f (n.peers p)).itemsRequestedFromPeer.Sublist (n.peers p).itemsRequestedFromPeer)
    (hsync : (f (n.peers p)).syncItemsRequestedFromPeer.Sublist
      (n.peers p).syncItemsRequestedFromPeer) : Answered n (n.modifyPeer p f) [] := by
  refine .silent (fun h => h) (fun q => ?_) (fun q => ?_) (fun _ _ => rfl) fun _ _ => rfl
  all_goals
    unfold Node.modifyPeer
    by_cases hq : q = p
    · subst hq
      simp only [Function.update_self]
      assumption
    · simp only [Function.update_of_ne hq]
      exact List.Sublist.refl _

theorem Answered.startHandling {blockId : Option Nat} (hi : i ∈ (n.peers p).itemsRequestedFromPeer) :
    Answered n
      ((n.modifyPeer p fun peer =>
        { peer with itemsRequestedFromPeer := peer.itemsRequestedFromPeer.erase i }).startHandling
          ⟨p, i, blockId⟩).1 [.handle ⟨p, i, blockId⟩] := by
  have h := Answered.modifyPeer (f := fun peer =>
    { peer with itemsRequestedFromPeer := peer.itemsRequestedFromPeer.erase i }) n p
    (List.erase_sublist ..) (List.Sublist.refl _)
  refine ⟨h.active, h.items, h.syncItems, fun _ _ => rfl, fun q j => ?_⟩
  unfold Node.startHandling Node.modifyPeer
  dsimp only
  by_cases hq : q = p
  · subst hq
    have hpos : 0 < (n.peers q).itemsRequestedFromPeer.count i := List.count_pos_iff.mpr hi
    simp only [Function.update_self, List.count_erase, Nestchain.Net.given, Output.gives,
      List.map_cons, List.map_nil, List.sum_cons, List.sum_nil, true_and, beq_iff_eq]
    split_ifs <;> simp_all
  · have hne : ¬(p = q ∧ i = j) := fun h => hq h.1.symm
    simp [Function.update_of_ne hq, Nestchain.Net.given, Output.gives, hne]

theorem SameRequests.requeue (now : Nat) (items : List ItemId) (n : Node) :
    SameRequests n (items.foldl (fun n i =>
      if n.isItemInAnyPeersInventory i then n.insertItemToFetch now i else n) n) := by
  induction items generalizing n with
  | nil => exact .refl n
  | cons i items ih =>
    rw [List.foldl_cons]
    refine SameRequests.trans ?_ (ih _)
    split
    · exact .insertItemToFetch n now i
    · exact .refl n

theorem Answered.disconnectFromPeer (n : Node) (p : PeerId) :
    Answered n (n.disconnectFromPeer p) [] :=
  .silent (fun h => h.erase p) (fun _ => List.Sublist.refl _) (fun _ => List.Sublist.refl _)
    (fun _ _ => rfl) fun _ _ => rfl

theorem Answered.onItemNotAvailableMessage (n : Node) (now : Nat) (p : PeerId) (i : ItemId) :
    Answered n (n.onItemNotAvailableMessage now p i) [] := by
  unfold Node.onItemNotAvailableMessage
  split
  · have h := Answered.modifyPeer (f := fun peer => { peer with
      itemsRequestedFromPeer := peer.itemsRequestedFromPeer.erase i
      inventoryPeerAdvertisedToUs := eraseItem peer.inventoryPeerAdvertisedToUs i }) n p
      (List.erase_sublist ..) (List.Sublist.refl _)
    simp only
    split
    · exact h.then (.insertItemToFetch _ now i)
    · exact h
  split
  · have h := Answered.modifyPeer (f := fun peer => { peer with
      syncItemsRequestedFromPeer := peer.syncItemsRequestedFromPeer.erase i.itemHash }) n p
      (List.Sublist.refl _) (List.erase_sublist ..)
    simp only
    split
    · refine Answered.silent h.active (fun q => ?_) (fun q => ?_) (fun _ _ => rfl) fun _ _ => rfl
      · refine List.Sublist.trans ?_ (h.items q)
        exact (Answered.modifyPeer (f := fun peer => { peer with
          sync := { peer.sync with inhibitFetchingSyncBlocks := true } }) _ p
          (List.Sublist.refl _) (List.Sublist.refl _)).items q
      · refine List.Sublist.trans ?_ (h.syncItems q)
        exact (Answered.modifyPeer (f := fun peer => { peer with
          sync := { peer.sync with inhibitFetchingSyncBlocks := true } }) _ p
          (List.Sublist.refl _) (List.Sublist.refl _)).syncItems q
    · exact ⟨fun hn => (h.active hn).erase p, h.items, h.syncItems, h.asked, h.given⟩
  · exact (SameRequests.refl n).answered (fun _ _ => rfl) fun _ _ => rfl

theorem Answered.processOrdinaryMessage (n : Node) (p : PeerId) (i : ItemId) :
    Answered n (n.processOrdinaryMessage p i).1 (n.processOrdinaryMessage p i).2 := by
  unfold Node.processOrdinaryMessage
  split
  · rename_i hi
    exact .startHandling hi
  · exact .disconnectFromPeer n p

theorem Answered.processBlockMessage (n : Node) (now : Nat) (p : PeerId)
    (messageHash blockId : Nat) :
    Answered n (n.processBlockMessage now p messageHash blockId).1
      (n.processBlockMessage now p messageHash blockId).2 := by
  unfold Node.processBlockMessage
  simp only
  split
  · rename_i hi
    split
    · have h := (Answered.modifyPeer (f := fun peer => { peer with
        itemsRequestedFromPeer := peer.itemsRequestedFromPeer.erase
          ⟨blockMessageType, messageHash⟩ }) n p (List.erase_sublist ..) (List.Sublist.refl _)).then
        ((SameRequests.clearOldInventories _ now).trans
          (.broadcast _ ⟨blockMessageType, messageHash⟩ (some blockId)))
      exact .silent h.active h.items h.syncItems (fun _ _ => rfl) fun _ _ => rfl
    · exact .startHandling hi
  split
  · have h := Answered.modifyPeer (f := fun peer => { peer with
      syncItemsRequestedFromPeer := peer.syncItemsRequestedFromPeer.erase blockId }) n p
      (List.Sublist.refl _) (List.erase_sublist ..)
    exact .silent h.active h.items h.syncItems (fun _ _ => rfl) fun _ _ => rfl
  · exact .disconnectFromPeer n p

theorem Answered.delegateReturns (n : Node) (now : Nat) (h : Handling) (verdict : Verdict) :
    Answered n (n.delegateReturns now h verdict).1 (n.delegateReturns now h verdict).2 := by
  have hsame : ∀ n' : Node, n'.active = n.active → n'.peers = n.peers → n'.connected = n.connected →
      n'.activeSyncRequests = n.activeSyncRequests → n'.receivedSyncItems = n.receivedSyncItems →
      SameRequests n n' := by
    intro n' h1 h2 h3 h4 h5
    exact ⟨h3, h1, fun _ => by rw [h2], fun _ => by rw [h2], fun _ => by rw [h2], h4, h5⟩
  unfold Node.delegateReturns
  simp only
  split
  · exact SameRequests.answered (hsame _ rfl rfl rfl rfl rfl) (fun _ _ => rfl) fun _ _ => rfl
  · exact SameRequests.answered (hsame _ rfl rfl rfl rfl rfl) (fun _ _ => rfl) fun _ _ => rfl
  · refine SameRequests.answered ?_ (fun _ _ => rfl) fun _ _ => rfl
    refine SameRequests.trans ?_ ((SameRequests.clearOldInventories _ now).trans (.broadcast _ _ _))
    exact hsame _ rfl rfl rfl rfl rfl
  · exact SameRequests.answered (hsame _ rfl rfl rfl rfl rfl) (fun _ _ => rfl) fun _ _ => rfl
  · exact .silent (fun hn => (hn.erase h.peer).filter _) (fun _ => List.Sublist.refl _)
      (fun _ => List.Sublist.refl _) (fun _ _ => rfl) fun _ _ => rfl

theorem Answered.onConnectionClosed (n : Node) (now : Nat) (p : PeerId) :
    Answered n (n.onConnectionClosed now p) [] := by
  unfold Node.onConnectionClosed
  refine Answered.then ?_ (.requeue now _ _)
  exact .silent (fun hn => hn.erase p) (fun _ => List.Sublist.refl _) (fun _ => List.Sublist.refl _)
    (fun _ _ => rfl) fun _ _ => rfl

/-! ### Every step -/

theorem asked_inventory (ps : List PeerId) (f : PeerId → List (Nat × List Nat)) (p : PeerId)
    (i : ItemId) : asked p i (ps.flatMap fun q => (f q).map fun g => .inventory q g.1 g.2) = 0 ∧
      given p i (ps.flatMap fun q => (f q).map fun g => .inventory q g.1 g.2) = 0 := by
  refine ⟨List.sum_eq_zero fun x hx => ?_, List.sum_eq_zero fun x hx => ?_⟩ <;>
  · obtain ⟨o, ho, rfl⟩ := List.mem_map.mp hx
    obtain ⟨q, -, ho⟩ := List.mem_flatMap.mp ho
    obtain ⟨g, -, rfl⟩ := List.mem_map.mp ho
    rfl

theorem Node.step_answered (n : Node) (now : Nat) (e : Event)
    (hitems : ∀ b, e ≠ .fetchItems b) (hsync : e ≠ .fetchSyncItems) :
    Answered n (n.step now e).1 (n.step now e).2 := by
  have hsame : Answered n n [] :=
    (SameRequests.refl n).answered (fun _ _ => rfl) fun _ _ => rfl
  cases e with
  | connect p =>
    simp only [Node.step]
    split
    · exact hsame
    · refine .silent (fun h => h) (fun q => ?_) (fun q => ?_) (fun _ _ => rfl) fun _ _ => rfl
      all_goals
        by_cases hq : q = p
        · subst hq
          simp [Peer.fresh]
        · simp [Function.update_of_ne hq]
  | activate p order =>
    simp only [Node.step]
    split
    · rename_i hp
      obtain ⟨-, hnew, hperm⟩ := hp
      exact .silent (fun h => hperm.nodup_iff.mpr (List.nodup_cons.mpr ⟨hnew, h⟩))
        (fun _ => List.Sublist.refl _) (fun _ => List.Sublist.refl _) (fun _ _ => rfl) fun _ _ => rfl
    · exact hsame
  | setAdvancedNodeParameters k =>
    exact .silent (fun h => h) (fun _ => List.Sublist.refl _) (fun _ => List.Sublist.refl _)
      (fun _ _ => rfl) fun _ _ => rfl
  | itemIdsInventory p itemType hashes =>
    simp only [Node.step]
    split
    · exact (SameRequests.onItemIdsInventoryMessage n now p itemType hashes).answered
        (fun _ _ => rfl) fun _ _ => rfl
    · exact hsame
  | itemNotAvailable p i =>
    simp only [Node.step]
    split
    · exact .onItemNotAvailableMessage n now p i
    · exact hsame
  | ordinaryMessage p i =>
    simp only [Node.step]
    split
    · exact .processOrdinaryMessage n p i
    · exact hsame
  | blockMessage p messageHash blockId =>
    simp only [Node.step]
    split
    · exact .processBlockMessage n now p messageHash blockId
    · exact hsame
  | delegateReturns h verdict =>
    simp only [Node.step]
    split
    · exact .delegateReturns n now h verdict
    · exact hsame
  | fetchItems b => exact absurd rfl (hitems b)
  | fetchSyncItems => exact absurd rfl hsync
  | advertiseInventory =>
    exact (SameRequests.advertiseInventory n now).answered (fun p i => (asked_inventory _ _ p i).1)
      fun p i => (asked_inventory _ _ p i).2
  | broadcast i blockId =>
    exact (SameRequests.broadcast n i blockId).answered (fun _ _ => rfl) fun _ _ => rfl
  | forgetFailedItems =>
    exact .silent (fun h => h) (fun _ => List.Sublist.refl _) (fun _ => List.Sublist.refl _)
      (fun _ _ => rfl) fun _ _ => rfl
  | sync p s =>
    exact .modifyPeer (f := fun peer => { peer with sync := s }) n p (List.Sublist.refl _)
      (List.Sublist.refl _)
  | backlog received mostRecent suspend =>
    exact .silent (fun h => h) (fun _ => List.Sublist.refl _) (fun _ => List.Sublist.refl _)
      (fun _ _ => rfl) fun _ _ => rfl
  | disconnect p => exact .disconnectFromPeer n p
  | closed p =>
    simp only [Node.step]
    split
    · exact .onConnectionClosed n now p
    · exact hsame

theorem Tidy.answered {os : List Output} (h : Tidy n) (ha : Answered n n' os) : Tidy n' where
  active := ha.active h.active
  items p := (ha.items p).length_le.trans (h.items p)
  exclusive p := by
    rcases h.exclusive p with hp | hp
    · exact Or.inl (List.sublist_nil.mp (hp ▸ ha.items p))
    · exact Or.inr (List.sublist_nil.mp (hp ▸ ha.syncItems p))

theorem Node.fetchItems_same (h : n.active.Nodup) (now b : Nat) :
    (n.fetchItems now b).1.active = n.active ∧
      ∀ p, ((n.fetchItems now b).1.peers p).syncItemsRequestedFromPeer =
        (n.peers p).syncItemsRequestedFromPeer := by
  have hloop := (FetchingOf.start n).loop h (now - b * messageCacheDuration * second) n.itemsToFetch
  refine ⟨rfl, fun p => ?_⟩
  exact (congrArg Peer.syncItemsRequestedFromPeer (hloop.same p)).trans rfl

theorem Tidy.fetchItems (h : Tidy n) (now b : Nat) : Tidy (n.fetchItems now b).1 := by
  obtain ⟨hactive, hsync⟩ := Node.fetchItems_same h.active now b
  refine ⟨hactive ▸ h.active, fun p => ?_, fun p => ?_⟩
  all_goals rcases Node.fetchItems_peer h.active now b p with ⟨hp, -⟩ | ⟨-, hidle, items, hlen, hp, -⟩
  · exact hp ▸ h.items p
  · exact hp ▸ hlen
  · rw [hp, hsync]
    exact h.exclusive p
  · rw [hsync]
    exact Or.inr (Peer.idle_items hidle).2

theorem Tidy.fetchSyncItems (h : Tidy n) : Tidy n.fetchSyncItems.1 := by
  unfold Node.fetchSyncItems
  split
  · exact h
  have hspec := n.syncItemRequests_spec n.active []
  have hdone := n.requestSyncItems_spec (n.syncItemRequests n.active [])
  simp only
  refine ⟨by rw [hdone.active]; exact h.active, fun p => ?_, fun p => ?_⟩
  · rw [hdone.rest p]
    exact h.items p
  · rw [hdone.rest p, hdone.syncItems p]
    rcases hspec.toPeer h.active p with hnone | ⟨e, he, rfl, hone⟩
    · rw [hnone]
      simpa using h.exclusive p
    · exact Or.inl (Peer.idle_items (hspec.entry e he).2.1).1

theorem Tidy.step (h : Tidy n) (now : Nat) (e : Event) : Tidy (n.step now e).1 := by
  by_cases hitems : ∃ b, e = .fetchItems b
  · obtain ⟨b, rfl⟩ := hitems
    exact h.fetchItems now b
  by_cases hsync : e = .fetchSyncItems
  · subst hsync
    exact h.fetchSyncItems
  · exact h.answered (n.step_answered now e (fun b heq => hitems ⟨b, heq⟩) hsync)

theorem Tidy.empty : Tidy Node.empty :=
  ⟨List.nodup_nil, fun _ => Nat.zero_le _, fun _ => Or.inl rfl⟩

/-! ### The limit of the synchronization -/

/-- The limit after the event, which was `m` before it. -/
def Event.blocksPerPeer (m : Nat) : Event → Nat
  | .setAdvancedNodeParameters maximum => maximum
  | _ => m

/-- The greatest limit that the node has had. -/
def blocksLimit (es : List (Nat × Event)) : Nat :=
  es.foldl (fun m e => max m (e.2.blocksPerPeer m)) maxBlocksPerPeer

theorem Node.noteInventory_maximum (now : Nat) (p : PeerId) (itemType : Nat) (hashes : List Nat)
    (n : Node) : (Node.noteInventory now p itemType hashes n).maximumBlocksPerPeer =
      n.maximumBlocksPerPeer := by
  induction hashes generalizing n with
  | nil => rfl
  | cons hash hashes ih =>
    rw [Node.noteInventory]
    dsimp only
    split
    · exact ih n
    split
    · rfl
    · rw [ih]
      split_ifs <;> rfl

theorem Node.requeue_maximum (now : Nat) (items : List ItemId) (n : Node) :
    (items.foldl (fun n i =>
      if n.isItemInAnyPeersInventory i then n.insertItemToFetch now i
      else n) n).maximumBlocksPerPeer = n.maximumBlocksPerPeer := by
  induction items generalizing n with
  | nil => rfl
  | cons i items ih =>
    rw [List.foldl_cons, ih]
    split <;> rfl

theorem Node.step_maximum (n : Node) (now : Nat) (e : Event) :
    (n.step now e).1.maximumBlocksPerPeer = e.blocksPerPeer n.maximumBlocksPerPeer := by
  cases e with
  | setAdvancedNodeParameters k => rfl
  | connect p | activate p order =>
    simp only [Node.step]
    split <;> rfl
  | itemIdsInventory p itemType hashes =>
    simp only [Node.step]
    split
    · exact Node.noteInventory_maximum now p itemType hashes _
    · rfl
  | itemNotAvailable p i =>
    simp only [Node.step, Node.onItemNotAvailableMessage]
    split_ifs <;> rfl
  | ordinaryMessage p i =>
    simp only [Node.step, Node.processOrdinaryMessage]
    split_ifs <;> rfl
  | blockMessage p messageHash blockId =>
    simp only [Node.step, Node.processBlockMessage]
    split_ifs <;> rfl
  | delegateReturns h verdict =>
    simp only [Node.step, Node.delegateReturns]
    split
    · split <;> rfl
    · rfl
  | fetchSyncItems =>
    simp only [Node.step, Node.fetchSyncItems]
    split
    · rfl
    · exact (n.requestSyncItems_spec _).maximumBlocksPerPeer
  | closed p =>
    simp only [Node.step]
    split
    · exact Node.requeue_maximum now _ _
    · rfl
  | fetchItems _ | advertiseInventory | broadcast _ _ | forgetFailedItems | sync _ _
  | backlog _ _ _ | disconnect _ => rfl

/-- No peer has more open requests of the synchronization than `m`. -/
structure Within (m : Nat) (n : Node) : Prop where
  pos : 1 ≤ m
  limit : n.maximumBlocksPerPeer ≤ m
  syncItems : ∀ p, (n.peers p).syncItemsRequestedFromPeer.length ≤ m

theorem Within.fetchSyncItems {m : Nat} (h : Within m n) (hactive : n.active.Nodup) (p : PeerId) :
    (n.fetchSyncItems.1.peers p).syncItemsRequestedFromPeer.length ≤ m := by
  unfold Node.fetchSyncItems
  split
  · exact h.syncItems p
  have hspec := n.syncItemRequests_spec n.active []
  have hdone := n.requestSyncItems_spec (n.syncItemRequests n.active [])
  simp only
  rw [hdone.syncItems p]
  rcases hspec.toPeer hactive p with hnone | ⟨e, he, rfl, hone⟩
  · rw [hnone]
    simpa using h.syncItems p
  · obtain ⟨hlen, hidle, -⟩ := hspec.entry e he
    rw [hone, (Peer.idle_items hidle).2]
    simpa using hlen.trans (max_le h.pos h.limit)

theorem Within.step {m : Nat} (h : Within m n) (ht : Tidy n) (now : Nat) (e : Event) :
    Within (max m (e.blocksPerPeer m)) (n.step now e).1 := by
  have hmore : m ≤ max m (e.blocksPerPeer m) := Nat.le_max_left ..
  refine ⟨h.pos.trans hmore, ?_, fun p => ?_⟩
  · rw [n.step_maximum now e]
    cases e with
    | setAdvancedNodeParameters k => exact Nat.le_max_right ..
    | _ => exact h.limit.trans hmore
  by_cases hitems : ∃ b, e = .fetchItems b
  · obtain ⟨b, rfl⟩ := hitems
    have heq := (Node.fetchItems_same ht.active now b).2 p
    exact (congrArg List.length heq).le.trans ((h.syncItems p).trans hmore)
  by_cases hsync : e = .fetchSyncItems
  · subst hsync
    exact (h.fetchSyncItems ht.active p).trans hmore
  · have ha := n.step_answered now e (fun b heq => hitems ⟨b, heq⟩) hsync
    exact (ha.syncItems p).length_le.trans ((h.syncItems p).trans hmore)

/-! ### What is sent -/

/-- The loop that sends a message, if the output is one that a loop sends. -/
def Output.SentBy : Output → Event → Prop
  | .fetchItems .., e => ∃ b, e = .fetchItems b
  | .fetchSyncItems .., e => e = .fetchSyncItems
  | .inventory .., e => e = .advertiseInventory
  | .handle _, _ | .syncBlock .., _ | .broadcast _, _ => True

theorem Node.step_sentBy (n : Node) (now : Nat) (e : Event) {o : Output}
    (ho : o ∈ (n.step now e).2) : o.SentBy e := by
  have hone : ∀ o' : Output, o ∈ [o'] → (∀ e, o'.SentBy e) → o.SentBy e := by
    intro o' ho hall
    obtain rfl := List.mem_singleton.mp ho
    exact hall e
  cases e with
  | ordinaryMessage p i =>
    simp only [Node.step] at ho
    split at ho
    · unfold Node.processOrdinaryMessage at ho
      split at ho
      · exact hone _ ho fun _ => trivial
      · cases ho
    · cases ho
  | blockMessage p m b =>
    simp only [Node.step] at ho
    split at ho
    · unfold Node.processBlockMessage at ho
      dsimp only at ho
      split at ho
      · split at ho
        · exact hone _ ho fun _ => trivial
        · exact hone _ ho fun _ => trivial
      split at ho
      · exact hone _ ho fun _ => trivial
      · cases ho
    · cases ho
  | delegateReturns h verdict =>
    simp only [Node.step] at ho
    split at ho
    · unfold Node.delegateReturns at ho
      dsimp only at ho
      split at ho
      · exact hone _ ho fun _ => trivial
      · cases ho
      · exact hone _ ho fun _ => trivial
      · cases ho
      · cases ho
    · cases ho
  | fetchItems b =>
    simp only [Node.step, Node.fetchItems, List.mem_flatMap, List.mem_map] at ho
    obtain ⟨e, -, g, -, rfl⟩ := ho
    exact ⟨b, rfl⟩
  | fetchSyncItems =>
    simp only [Node.step, Node.fetchSyncItems] at ho
    split at ho
    · cases ho
    · obtain ⟨e, -, rfl⟩ := List.mem_map.mp ho
      rfl
  | advertiseInventory =>
    simp only [Node.step, Node.advertiseInventory, List.mem_flatMap, List.mem_map] at ho
    obtain ⟨r, -, g, -, rfl⟩ := ho
    rfl
  | broadcast i blockId => exact hone _ ho fun _ => trivial
  | connect p | activate p order | itemIdsInventory p itemType hashes | itemNotAvailable p i
  | closed p =>
    simp only [Node.step] at ho
    split at ho <;> cases ho
  | setAdvancedNodeParameters k | forgetFailedItems | sync p s
  | backlog received mostRecent suspend | disconnect p => cases ho

/-! ### What the peers advertised -/

theorem hasItem_iff {l : TimestampedItems} {i : ItemId} :
    hasItem l i = true ↔ ∃ time, (i, time) ∈ l := by
  simp only [hasItem, List.any_eq_true, beq_iff_eq]
  constructor
  · rintro ⟨⟨j, time⟩, hmem, rfl⟩
    exact ⟨time, hmem⟩
  · rintro ⟨time, hmem⟩
    exact ⟨_, hmem, rfl⟩

theorem hasItem_filter {l : TimestampedItems} {f : ItemId × Nat → Bool}
    (h : hasItem (l.filter f) i = true) : hasItem l i = true := by
  obtain ⟨time, hmem⟩ := hasItem_iff.mp h
  exact hasItem_iff.mpr ⟨time, List.mem_of_mem_filter hmem⟩

theorem hasItem_insertItem {l : TimestampedItems} {j : ItemId} {time : Nat}
    (h : hasItem (insertItem l j time) i = true) : hasItem l i = true ∨ i = j := by
  unfold insertItem at h
  split at h
  · exact Or.inl h
  · obtain ⟨t, hmem⟩ := hasItem_iff.mp h
    rcases List.mem_append.mp hmem with hmem | hmem
    · exact Or.inl (hasItem_iff.mpr ⟨t, hmem⟩)
    · exact Or.inr (congrArg Prod.fst (List.mem_singleton.mp hmem))

/-- A peer has advertised to us in `n'` no item that it has not in `n`. -/
def FewerAdvertised (n n' : Node) : Prop :=
  ∀ p i, hasItem (n'.peers p).inventoryPeerAdvertisedToUs i = true →
    hasItem (n.peers p).inventoryPeerAdvertisedToUs i = true

theorem FewerAdvertised.modifyPeer {f : Peer → Peer} (n : Node) (p : PeerId)
    (hf : ∀ i, hasItem (f (n.peers p)).inventoryPeerAdvertisedToUs i = true →
      hasItem (n.peers p).inventoryPeerAdvertisedToUs i = true) :
    FewerAdvertised n (n.modifyPeer p f) := by
  intro q i h
  unfold Node.modifyPeer at h
  by_cases hq : q = p
  · subst hq
    exact hf i (by simpa using h)
  · simpa [Function.update_of_ne hq] using h

theorem FewerAdvertised.clearOldInventories (n : Node) (now : Nat) :
    FewerAdvertised n (n.clearOldInventories now) := by
  intro q i h
  unfold Node.clearOldInventories at h
  dsimp only at h
  split at h
  · exact hasItem_filter h
  · exact h

theorem FewerAdvertised.requeue (now : Nat) (items : List ItemId) (n : Node) :
    FewerAdvertised n (items.foldl (fun n i =>
      if n.isItemInAnyPeersInventory i then n.insertItemToFetch now i else n) n) := by
  induction items generalizing n with
  | nil => exact fun _ _ h => h
  | cons j items ih =>
    intro p i h
    have := ih _ p i h
    dsimp only at this
    split at this
    · exact this
    · exact this

theorem Node.noteInventory_advertised (now : Nat) (p : PeerId) (itemType : Nat)
    (hashes : List Nat) (n : Node) (q : PeerId) (i : ItemId)
    (h : hasItem ((Node.noteInventory now p itemType hashes n).peers q).inventoryPeerAdvertisedToUs
      i = true) :
    hasItem (n.peers q).inventoryPeerAdvertisedToUs i = true ∨
      q = p ∧ i.itemType = itemType ∧ i.itemHash ∈ hashes := by
  induction hashes generalizing n with
  | nil => exact Or.inl h
  | cons hash hashes ih =>
    rw [Node.noteInventory] at h
    split at h
    · exact (ih n h).imp_right fun ⟨h1, h2, h3⟩ => ⟨h1, h2, List.mem_cons_of_mem _ h3⟩
    split at h
    · exact Or.inl h
    · rcases ih _ h with hin | ⟨h1, h2, h3⟩
      · have hnoted : hasItem ((n.modifyPeer p fun peer => { peer with
            inventoryPeerAdvertisedToUs := insertItem peer.inventoryPeerAdvertisedToUs
              ⟨itemType, hash⟩ (now / second) }).peers q).inventoryPeerAdvertisedToUs i = true := by
          split at hin
          · exact hin
          split at hin
          · exact hin
          · exact hin
        unfold Node.modifyPeer at hnoted
        by_cases hq : q = p
        · subst hq
          simp only [Function.update_self] at hnoted
          rcases hasItem_insertItem hnoted with hin | rfl
          · exact Or.inl hin
          · exact Or.inr ⟨rfl, rfl, List.mem_cons_self⟩
        · exact Or.inl (by simpa [Function.update_of_ne hq] using hnoted)
      · exact Or.inr ⟨h1, h2, List.mem_cons_of_mem _ h3⟩

theorem Node.step_advertised (h : n.active.Nodup) (now : Nat) (e : Event) (p : PeerId) (i : ItemId)
    (hadv : hasItem ((n.step now e).1.peers p).inventoryPeerAdvertisedToUs i = true) :
    hasItem (n.peers p).inventoryPeerAdvertisedToUs i = true ∨
      ∃ hashes, e = .itemIdsInventory p i.itemType hashes ∧ i.itemHash ∈ hashes := by
  -- The steps that only forget.
  have hless : FewerAdvertised n (n.step now e).1 →
      hasItem (n.peers p).inventoryPeerAdvertisedToUs i = true ∨
        ∃ hashes, e = .itemIdsInventory p i.itemType hashes ∧ i.itemHash ∈ hashes :=
    fun hless => Or.inl (hless p i hadv)
  have hsame : FewerAdvertised n n := fun _ _ h => h
  cases e with
  | itemIdsInventory q itemType hashes =>
    simp only [Node.step] at hadv
    split at hadv
    · rcases Node.noteInventory_advertised now q itemType hashes _ p i hadv with hin | ⟨rfl, rfl, h3⟩
      · refine Or.inl (FewerAdvertised.modifyPeer (f := Peer.clearOldInventory now) n q ?_ p i hin)
        exact fun j hj => hasItem_filter hj
      · exact Or.inr ⟨hashes, rfl, h3⟩
    · exact Or.inl hadv
  | connect q =>
    refine hless fun r j hj => ?_
    simp only [Node.step] at hj
    split at hj
    · exact hj
    · by_cases hr : r = q
      · subst hr
        simp [Peer.fresh, hasItem] at hj
      · simpa [Function.update_of_ne hr] using hj
  | activate q order =>
    refine hless ?_
    simp only [Node.step]
    split <;> exact fun _ _ h => h
  | setAdvancedNodeParameters k => exact Or.inl hadv
  | itemNotAvailable q j =>
    refine hless ?_
    simp only [Node.step]
    split
    · unfold Node.onItemNotAvailableMessage
      split
      · have hless := FewerAdvertised.modifyPeer (f := fun peer => { peer with
          itemsRequestedFromPeer := peer.itemsRequestedFromPeer.erase j
          inventoryPeerAdvertisedToUs := eraseItem peer.inventoryPeerAdvertisedToUs j }) n q
          fun _ h => hasItem_filter h
        simp only
        split <;> exact hless
      split
      · have hless := FewerAdvertised.modifyPeer (f := fun peer => { peer with
          syncItemsRequestedFromPeer := peer.syncItemsRequestedFromPeer.erase j.itemHash }) n q
          fun _ h => h
        simp only
        split
        · refine fun r k hk => hless r k ?_
          exact FewerAdvertised.modifyPeer (f := fun peer => { peer with
            sync := { peer.sync with inhibitFetchingSyncBlocks := true } }) _ q
            (fun _ h => h) r k hk
        · exact hless
      · exact hsame
    · exact hsame
  | ordinaryMessage q j =>
    refine hless ?_
    simp only [Node.step]
    split
    · unfold Node.processOrdinaryMessage
      split
      · exact FewerAdvertised.modifyPeer (f := fun peer =>
          { peer with itemsRequestedFromPeer := peer.itemsRequestedFromPeer.erase j }) n q
          fun _ h => h
      · exact hsame
    · exact hsame
  | blockMessage q messageHash blockId =>
    refine hless ?_
    simp only [Node.step]
    split
    · unfold Node.processBlockMessage
      simp only
      have herased := FewerAdvertised.modifyPeer (f := fun peer => { peer with
        itemsRequestedFromPeer := peer.itemsRequestedFromPeer.erase
          ⟨blockMessageType, messageHash⟩ }) n q fun _ h => h
      split
      · split
        · exact fun r k hk => herased r k (FewerAdvertised.clearOldInventories _ now r k hk)
        · exact herased
      split
      · exact FewerAdvertised.modifyPeer (f := fun peer => { peer with
          syncItemsRequestedFromPeer := peer.syncItemsRequestedFromPeer.erase blockId }) n q
          fun _ h => h
      · exact hsame
    · exact hsame
  | delegateReturns hd verdict =>
    refine hless ?_
    simp only [Node.step]
    split
    · unfold Node.delegateReturns
      simp only
      split
      · exact hsame
      · exact hsame
      · exact fun r k hk => FewerAdvertised.clearOldInventories _ now r k hk
      · exact hsame
      · exact hsame
    · exact hsame
  | fetchItems b =>
    have hloop := (FetchingOf.start n).loop h (now - b * messageCacheDuration * second)
      n.itemsToFetch
    refine hless fun r j hj => ?_
    have heq := congrArg Peer.inventoryPeerAdvertisedToUs (hloop.same r)
    exact heq ▸ hj
  | fetchSyncItems =>
    refine hless fun r j hj => ?_
    simp only [Node.step, Node.fetchSyncItems] at hj
    split at hj
    · exact hj
    · have hdone := n.requestSyncItems_spec (n.syncItemRequests n.active [])
      simp only at hj
      rw [hdone.rest r] at hj
      exact hj
  | advertiseInventory =>
    refine hless fun r j hj => ?_
    simp only [Node.step, Node.advertiseInventory] at hj
    split at hj
    · exact hasItem_filter hj
    · exact hj
  | broadcast j blockId => exact Or.inl hadv
  | forgetFailedItems => exact Or.inl hadv
  | sync q s =>
    exact hless (FewerAdvertised.modifyPeer (f := fun peer => { peer with sync := s }) n q
      fun _ h => h)
  | backlog received mostRecent suspend => exact Or.inl hadv
  | disconnect q => exact Or.inl hadv
  | closed q =>
    refine hless ?_
    simp only [Node.step]
    split
    · intro r k hk
      unfold Node.onConnectionClosed at hk
      dsimp only at hk
      have := FewerAdvertised.requeue now (n.peers q).itemsRequestedFromPeer _ r k hk
      exact this
    · exact hsame

/-! ### Runs -/

/-- The peer has sent an inventory message with the item. -/
def Advertised (es : List (Nat × Event)) (p : PeerId) (i : ItemId) : Prop :=
  ∃ now hashes, (now, .itemIdsInventory p i.itemType hashes) ∈ es ∧ i.itemHash ∈ hashes

/-- What the requests of a run have in common. -/
structure Requesting (es : List (Nat × Event)) (n : Node) (os : List Output) : Prop where
  tidy : Tidy n
  within : Within (blocksLimit es) n
  advertised : ∀ p i, hasItem (n.peers p).inventoryPeerAdvertisedToUs i = true → Advertised es p i
  asked : ∀ p i, 0 < asked p i os → Advertised es p i
  given : ∀ p i, given p i os + (n.peers p).itemsRequestedFromPeer.count i ≤ Nestchain.Net.asked p i os

theorem Node.step_given (h : Tidy n) (now : Nat) (e : Event) (p : PeerId) (i : ItemId) :
    given p i (n.step now e).2 + ((n.step now e).1.peers p).itemsRequestedFromPeer.count i ≤
      (n.peers p).itemsRequestedFromPeer.count i + asked p i (n.step now e).2 ∧
    (0 < asked p i (n.step now e).2 →
      hasItem (n.peers p).inventoryPeerAdvertisedToUs i = true) := by
  by_cases hitems : ∃ b, e = .fetchItems b
  · obtain ⟨b, rfl⟩ := hitems
    have hgiven : given p i (n.fetchItems now b).2 = 0 := by
      refine List.sum_eq_zero fun x hx => ?_
      obtain ⟨o, ho, rfl⟩ := List.mem_map.mp hx
      obtain ⟨q, -, ho⟩ := List.mem_flatMap.mp ho
      obtain ⟨g, -, rfl⟩ := List.mem_map.mp ho
      rfl
    show given p i (n.fetchItems now b).2 + _ ≤ _ ∧ _
    rw [hgiven, Nat.zero_add]
    rcases Node.fetchItems_peer h.active now b p with
      ⟨hp, hasked⟩ | ⟨-, hidle, items, -, hp, hasked, hadv⟩
    · refine ⟨?_, fun hpos => absurd (hasked i) hpos.ne'⟩
      exact hp ▸ Nat.le_add_right _ _
    · refine ⟨?_, fun hpos => hadv i (List.count_pos_iff.mp (hasked i ▸ hpos))⟩
      show List.count i ((n.fetchItems now b).1.peers p).itemsRequestedFromPeer ≤
        _ + asked p i (n.fetchItems now b).2
      rw [hp, hasked i]
      omega
  by_cases hsync : e = .fetchSyncItems
  · subst hsync
    have hzero : asked p i n.fetchSyncItems.2 = 0 ∧ given p i n.fetchSyncItems.2 = 0 := by
      unfold Node.fetchSyncItems
      split
      · exact ⟨rfl, rfl⟩
      · refine ⟨List.sum_eq_zero fun x hx => ?_, List.sum_eq_zero fun x hx => ?_⟩ <;>
        · obtain ⟨o, ho, rfl⟩ := List.mem_map.mp hx
          obtain ⟨q, -, rfl⟩ := List.mem_map.mp ho
          rfl
    have hpeers : (n.fetchSyncItems.1.peers p).itemsRequestedFromPeer =
        (n.peers p).itemsRequestedFromPeer := by
      unfold Node.fetchSyncItems
      split
      · rfl
      · simp only
        rw [(n.requestSyncItems_spec _).rest p]
    show given p i n.fetchSyncItems.2 + List.count i (n.fetchSyncItems.1.peers p).itemsRequestedFromPeer
      ≤ _ + asked p i n.fetchSyncItems.2 ∧ (0 < asked p i n.fetchSyncItems.2 → _)
    rw [hzero.1, hzero.2, hpeers]
    exact ⟨by omega, fun hpos => absurd hpos (Nat.lt_irrefl 0)⟩
  · have ha := n.step_answered now e (fun b heq => hitems ⟨b, heq⟩) hsync
    refine ⟨?_, fun hpos => absurd (ha.asked p i) hpos.ne'⟩
    rw [ha.asked, Nat.add_zero]
    exact ha.given p i

theorem Requesting.step {es : List (Nat × Event)} {os : List Output} (h : Requesting es n os)
    (e : Nat × Event) :
    Requesting (es ++ [e]) (n.step e.1 e.2).1 (os ++ (n.step e.1 e.2).2) := by
  have hmore : ∀ p i, Advertised es p i → Advertised (es ++ [e]) p i := by
    rintro p i ⟨now, hashes, hmem, hhash⟩
    exact ⟨now, hashes, List.mem_append_left _ hmem, hhash⟩
  refine ⟨h.tidy.step e.1 e.2, ?_, fun p i hadv => ?_, fun p i hpos => ?_, fun p i => ?_⟩
  · rw [blocksLimit, List.foldl_append]
    exact h.within.step h.tidy e.1 e.2
  · rcases Node.step_advertised h.tidy.active e.1 e.2 p i hadv with hin | ⟨hashes, heq, hhash⟩
    · exact hmore p i (h.advertised p i hin)
    · refine ⟨e.1, hashes, List.mem_append_right _ ?_, hhash⟩
      rw [← heq]
      exact List.mem_singleton_self e
  · rw [asked_append] at hpos
    by_cases hold : 0 < Nestchain.Net.asked p i os
    · exact hmore p i (h.asked p i hold)
    · exact hmore p i (h.advertised p i
        ((Node.step_given h.tidy e.1 e.2 p i).2 (by omega)))
  · have hold := h.given p i
    have hstep := (Node.step_given h.tidy e.1 e.2 p i).1
    rw [given_append, asked_append]
    omega

theorem Requesting.run (es : List (Nat × Event)) :
    Requesting es (Node.empty.run es).1 (Node.empty.run es).2 := by
  refine runMachine_induction (P := Requesting) Node.empty ?_ ?_ es
  · refine ⟨.empty, ⟨?_, Nat.le_refl _, fun p => Nat.zero_le _⟩, fun p i h => ?_,
      fun p i h => ?_, fun p i => Nat.le_refl _⟩
    · decide
    · simp [Node.empty, Peer.fresh, hasItem] at h
    · exact absurd h (Nat.lt_irrefl 0)
  · intro es e n os h
    exact h.step e

/-- In every run the delegate gets an item from a peer in normal operation no more often than the
peer was asked for it, less the request that may be open, and a peer is asked only for what it
advertised.  A peer never has two open requests of normal operation, more of the synchronization
than the greatest limit that was set, or requests of both kinds. -/
theorem delegate_gets_only_requested (es : List (Nat × Event)) (p : PeerId) (i : ItemId) :
    given p i (Node.empty.run es).2 +
        ((Node.empty.run es).1.peers p).itemsRequestedFromPeer.count i ≤
      asked p i (Node.empty.run es).2 ∧
    (0 < asked p i (Node.empty.run es).2 → Advertised es p i) ∧
    ((Node.empty.run es).1.peers p).itemsRequestedFromPeer.length ≤ 1 ∧
    ((Node.empty.run es).1.peers p).syncItemsRequestedFromPeer.length ≤ blocksLimit es ∧
    (((Node.empty.run es).1.peers p).itemsRequestedFromPeer = [] ∨
      ((Node.empty.run es).1.peers p).syncItemsRequestedFromPeer = []) := by
  have h := Requesting.run es
  exact ⟨h.given p i, h.asked p i, h.tidy.items p, h.within.syncItems p, h.tidy.exclusive p⟩

end Nestchain.Net
