import Nestchain.Net.Requests

/-! What the node tells its peers about the items it has: each item was broadcast, each broadcast
item is told, and a peer is not told again what it knows. -/

namespace Nestchain.Net

open Nestchain.Lib

variable {n n' : Node} {now : Nat} {p : PeerId} {i : ItemId}

/-! ### What is told -/

/-- An inventory message to the peer has the item. -/
def Told (os : List Output) (p : PeerId) (i : ItemId) : Prop :=
  ∃ hashes, .inventory p i.itemType hashes ∈ os ∧ i.itemHash ∈ hashes

theorem mem_groupByType {items : List ItemId} {type hash : Nat} :
    (∃ hashes, (type, hashes) ∈ groupByType items ∧ hash ∈ hashes) ↔
      (⟨type, hash⟩ : ItemId) ∈ items := by
  unfold groupByType
  constructor
  · rintro ⟨hashes, hgroup, hhash⟩
    obtain ⟨t, -, heq⟩ := List.mem_map.mp hgroup
    obtain ⟨rfl, rfl⟩ := (Prod.mk.injEq ..).mp heq
    obtain ⟨j, hj, rfl⟩ := List.mem_map.mp hhash
    obtain ⟨hmem, htype⟩ := List.mem_filter.mp hj
    obtain rfl : j.itemType = t := by simpa using htype
    exact hmem
  · intro hmem
    refine ⟨_, List.mem_map.mpr ⟨type, ?_, rfl⟩, List.mem_map.mpr ⟨_, List.mem_filter.mpr
      ⟨hmem, by simp⟩, rfl⟩⟩
    rw [List.mem_insertionSort, List.mem_dedup]
    exact List.mem_map.mpr ⟨_, hmem, rfl⟩

theorem told_advertiseInventory (n : Node) (now : Nat) (p : PeerId) (i : ItemId) :
    Told (n.advertiseInventory now).2 p i ↔ p ∈ n.active ∧ i ∈ n.itemsToAdvertise p := by
  unfold Told Node.advertiseInventory
  simp only [List.mem_flatMap, List.mem_map]
  constructor
  · rintro ⟨hashes, ⟨q, hq, g, hg, heq⟩, hhash⟩
    obtain ⟨rfl, htype, rfl⟩ := (Output.inventory.injEq ..).mp heq
    exact ⟨hq, mem_groupByType.mp ⟨g.2, htype ▸ hg, hhash⟩⟩
  · rintro ⟨hp, hi⟩
    obtain ⟨hashes, hg, hhash⟩ := mem_groupByType.mpr hi
    exact ⟨hashes, ⟨p, hp, _, hg, rfl⟩, hhash⟩

/-! ### What a peer knows -/

/-- The item is in the list with a time from `since` on. -/
def Knows (l : TimestampedItems) (i : ItemId) (since : Nat) : Prop := ∃ time, since ≤ time ∧ (i, time) ∈ l

variable {l : TimestampedItems} {since : Nat}

theorem Knows.hasItem (h : Knows l i since) : hasItem l i = true := by
  obtain ⟨time, -, hmem⟩ := h
  exact hasItem_iff.mpr ⟨time, hmem⟩

theorem Knows.insertItem (h : Knows l i since) (j : ItemId) (time : Nat) :
    Knows (insertItem l j time) i since := by
  obtain ⟨t, ht, hmem⟩ := h
  refine ⟨t, ht, ?_⟩
  unfold Net.insertItem
  split
  · exact hmem
  · exact List.mem_append_left _ hmem

theorem Knows.eraseBefore (h : Knows l i since) {oldest : Nat} (hold : oldest ≤ since) :
    Knows (eraseBefore l oldest) i since := by
  obtain ⟨t, ht, hmem⟩ := h
  exact ⟨t, ht, List.mem_filter.mpr ⟨hmem, decide_eq_true (hold.trans ht)⟩⟩

theorem Peer.oldestInventoryToKeep_le {since now : Nat}
    (h : now ≤ since + maxInventorySizeInMinutes * 60 * second) :
    Peer.oldestInventoryToKeep now ≤ since / second :=
  Nat.div_le_div_right (Nat.sub_le_iff_le_add.mpr h)

/-- What the peer was told and what it advertised stays known in `n'`. -/
structure Keeps (p : PeerId) (i : ItemId) (since : Nat) (n n' : Node) : Prop where
  told : Knows (n.peers p).inventoryAdvertisedToPeer i since →
    Knows (n'.peers p).inventoryAdvertisedToPeer i since
  noted : Knows (n.peers p).inventoryPeerAdvertisedToUs i since →
    Knows (n'.peers p).inventoryPeerAdvertisedToUs i since

theorem Keeps.of_peers (h : n'.peers = n.peers) : Keeps p i since n n' :=
  ⟨fun hk => h ▸ hk, fun hk => h ▸ hk⟩

theorem Keeps.trans {n'' : Node} (h : Keeps p i since n n') (h' : Keeps p i since n' n'') :
    Keeps p i since n n'' :=
  ⟨fun hk => h'.told (h.told hk), fun hk => h'.noted (h.noted hk)⟩

theorem Keeps.modifyPeer {f : Peer → Peer} (n : Node) (q : PeerId)
    (htold : p = q → Knows (n.peers p).inventoryAdvertisedToPeer i since →
      Knows (f (n.peers p)).inventoryAdvertisedToPeer i since)
    (hnoted : p = q → Knows (n.peers p).inventoryPeerAdvertisedToUs i since →
      Knows (f (n.peers p)).inventoryPeerAdvertisedToUs i since) :
    Keeps p i since n (n.modifyPeer q f) := by
  unfold Node.modifyPeer
  by_cases hp : p = q
  · subst hp
    exact ⟨by simpa using htold rfl, by simpa using hnoted rfl⟩
  · constructor <;> simp [Function.update_of_ne hp]

theorem Keeps.clearOldInventories (n : Node) {now : Nat}
    (hnow : Peer.oldestInventoryToKeep now ≤ since) :
    Keeps p i since n (n.clearOldInventories now) := by
  unfold Node.clearOldInventories
  constructor
  all_goals
    intro hk
    dsimp only
    split
    · exact hk.eraseBefore hnow
    · exact hk

theorem Keeps.noteInventory (now : Nat) (q : PeerId) (itemType : Nat) (hashes : List Nat)
    (n : Node) : Keeps p i since n (Node.noteInventory now q itemType hashes n) := by
  induction hashes generalizing n with
  | nil => exact .of_peers rfl
  | cons hash hashes ih =>
    rw [Node.noteInventory]
    dsimp only
    split
    · exact ih n
    split
    · exact .of_peers rfl
    · have hnoted : Keeps p i since n _ := .modifyPeer (f := fun peer => { peer with
        inventoryPeerAdvertisedToUs := insertItem peer.inventoryPeerAdvertisedToUs
          ⟨itemType, hash⟩ (now / second) }) n q (fun _ h => h) fun _ h => h.insertItem _ _
      refine Keeps.trans ?_ (ih _)
      split
      · exact hnoted
      split
      · exact hnoted.trans (.of_peers rfl)
      · exact hnoted.trans (.of_peers rfl)

theorem Node.requeue_peers (now : Nat) (items : List ItemId) (n : Node) :
    (items.foldl (fun n i =>
      if n.isItemInAnyPeersInventory i then n.insertItemToFetch now i else n) n).peers = n.peers := by
  induction items generalizing n with
  | nil => rfl
  | cons i items ih =>
    rw [List.foldl_cons, ih]
    split <;> rfl

theorem Knows.eraseItem (h : Knows l i since) {j : ItemId} (hj : j ≠ i) :
    Knows (eraseItem l j) i since := by
  obtain ⟨t, ht, hmem⟩ := h
  exact ⟨t, ht, List.mem_filter.mpr ⟨hmem, by simpa using hj.symm⟩⟩

theorem Keeps.itemNotAvailable (n : Node) (now : Nat) {q : PeerId} {j : ItemId}
    (hmissing : p = q → j ≠ i) : Keeps p i since n (n.onItemNotAvailableMessage now q j) := by
  have herased : Keeps p i since n _ := .modifyPeer (f := fun peer => { peer with
    itemsRequestedFromPeer := peer.itemsRequestedFromPeer.erase j
    inventoryPeerAdvertisedToUs := eraseItem peer.inventoryPeerAdvertisedToUs j }) n q
    (fun _ h => h) fun hp h => h.eraseItem (hmissing hp)
  have hsync : Keeps p i since n _ := .modifyPeer (f := fun peer => { peer with
    syncItemsRequestedFromPeer := peer.syncItemsRequestedFromPeer.erase j.itemHash }) n q
    (fun _ h => h) fun _ h => h
  unfold Node.onItemNotAvailableMessage
  dsimp only
  split
  · split
    · exact herased.trans (.of_peers rfl)
    · exact herased
  split
  · split
    · exact hsync.trans (.modifyPeer (f := fun peer => { peer with
        sync := { peer.sync with inhibitFetchingSyncBlocks := true } }) _ q (fun _ h => h)
        fun _ h => h)
    · exact hsync.trans (.of_peers rfl)
  · exact .of_peers rfl

theorem Node.itemNotAvailable_told (n : Node) (now : Nat) (q : PeerId) (j : ItemId) :
    ((n.onItemNotAvailableMessage now q j).peers p).inventoryAdvertisedToPeer =
      (n.peers p).inventoryAdvertisedToPeer := by
  unfold Node.onItemNotAvailableMessage Node.insertItemToFetch Node.disconnectFromPeer
    Node.modifyPeer
  dsimp only
  by_cases hp : p = q
  · subst hp
    split_ifs <;> simp
  · split_ifs <;> simp [Function.update_of_ne hp]

theorem Keeps.step (ht : Tidy n) (now : Nat) (e : Event) (hconnect : e ≠ .connect p)
    (hmissing : e ≠ .itemNotAvailable p i) (hnow : Peer.oldestInventoryToKeep now ≤ since) :
    Keeps p i since n (n.step now e).1 := by
  have hsame : Keeps p i since n n := .of_peers rfl
  cases e with
  | connect q =>
    simp only [Node.step]
    split
    · exact hsame
    · have hp : p ≠ q := fun hp => hconnect (congrArg Event.connect hp.symm)
      constructor <;> simp [Function.update_of_ne hp]
  | activate q order =>
    simp only [Node.step]
    split
    · exact .of_peers rfl
    · exact hsame
  | setAdvancedNodeParameters k => exact .of_peers rfl
  | itemIdsInventory q itemType hashes =>
    simp only [Node.step]
    split
    · refine Keeps.trans ?_ (.noteInventory now q itemType hashes _)
      exact .modifyPeer (f := Peer.clearOldInventory now) n q (fun _ h => h.eraseBefore hnow)
        fun _ h => h.eraseBefore hnow
    · exact hsame
  | itemNotAvailable q j =>
    simp only [Node.step]
    split
    · refine .itemNotAvailable n now fun hp hj => hmissing ?_
      rw [hp, hj]
    · exact hsame
  | ordinaryMessage q j =>
    simp only [Node.step]
    split
    · unfold Node.processOrdinaryMessage
      split
      · exact Keeps.trans (.modifyPeer (f := fun peer =>
          { peer with itemsRequestedFromPeer := peer.itemsRequestedFromPeer.erase j }) n q
          (fun _ h => h) fun _ h => h) (.of_peers rfl)
      · exact .of_peers rfl
    · exact hsame
  | blockMessage q messageHash blockId =>
    simp only [Node.step]
    split
    · unfold Node.processBlockMessage
      dsimp only
      have herased : Keeps p i since n _ := .modifyPeer (f := fun peer => { peer with
        itemsRequestedFromPeer := peer.itemsRequestedFromPeer.erase
          ⟨blockMessageType, messageHash⟩ }) n q (fun _ h => h) fun _ h => h
      split
      · split
        · exact (herased.trans (.clearOldInventories _ hnow)).trans (.of_peers rfl)
        · exact herased.trans (.of_peers rfl)
      split
      · exact Keeps.trans (.modifyPeer (f := fun peer => { peer with
          syncItemsRequestedFromPeer := peer.syncItemsRequestedFromPeer.erase blockId }) n q
          (fun _ h => h) fun _ h => h) (.of_peers rfl)
      · exact .of_peers rfl
    · exact hsame
  | delegateReturns h verdict =>
    simp only [Node.step]
    split
    · unfold Node.delegateReturns
      dsimp only
      split
      · exact .of_peers rfl
      · exact .of_peers rfl
      · refine Keeps.trans (.of_peers rfl) ((Keeps.clearOldInventories _ hnow).trans (.of_peers rfl))
      · exact .of_peers rfl
      · exact .of_peers rfl
    · exact hsame
  | fetchItems b =>
    have hloop := (FetchingOf.start n).loop ht.active (now - b * messageCacheDuration * second)
      n.itemsToFetch
    have hp := hloop.same p
    exact ⟨fun hk => (congrArg Peer.inventoryAdvertisedToPeer hp).symm ▸ hk,
      fun hk => (congrArg Peer.inventoryPeerAdvertisedToUs hp).symm ▸ hk⟩
  | fetchSyncItems =>
    simp only [Node.step, Node.fetchSyncItems]
    split
    · exact hsame
    · have hp := (n.requestSyncItems_spec (n.syncItemRequests n.active [])).rest p
      exact ⟨fun hk => (congrArg Peer.inventoryAdvertisedToPeer hp).symm ▸ hk,
        fun hk => (congrArg Peer.inventoryPeerAdvertisedToUs hp).symm ▸ hk⟩
  | advertiseInventory =>
    simp only [Node.step, Node.advertiseInventory]
    constructor
    all_goals
      intro hk
      dsimp only
      split
    · refine Knows.eraseBefore ?_ hnow
      obtain ⟨t, htime, hmem⟩ := hk
      exact ⟨t, htime, List.mem_append_left _ hmem⟩
    · exact hk
    · exact hk.eraseBefore hnow
    · exact hk
  | broadcast j blockId => exact .of_peers rfl
  | forgetFailedItems => exact .of_peers rfl
  | sync q s =>
    exact .modifyPeer (f := fun peer => { peer with sync := s }) n q (fun _ h => h) fun _ h => h
  | backlog received mostRecent suspend => exact .of_peers rfl
  | disconnect q => exact .of_peers rfl
  | closed q =>
    simp only [Node.step]
    split
    · exact .of_peers (Node.requeue_peers now _ _)
    · exact hsame

theorem Told.of_step {e : Event} (h : Told (n.step now e).2 p i) :
    e = .advertiseInventory ∧ p ∈ n.active ∧ i ∈ n.itemsToAdvertise p := by
  obtain ⟨hashes, ho, hhash⟩ := h
  have he : e = .advertiseInventory := n.step_sentBy now e ho
  subst he
  exact ⟨rfl, (told_advertiseInventory n now p i).mp ⟨hashes, ho, hhash⟩⟩

theorem Told.knows {e : Event} (h : Told (n.step now e).2 p i) :
    Knows ((n.step now e).1.peers p).inventoryAdvertisedToPeer i (now / second) := by
  obtain ⟨rfl, hp, hi⟩ := h.of_step
  simp only [Node.step, Node.advertiseInventory, if_pos hp]
  refine Knows.eraseBefore ⟨now / second, Nat.le_refl _, ?_⟩
    (Peer.oldestInventoryToKeep_le (Nat.le_add_right _ _))
  exact List.mem_append_right _ (List.mem_map.mpr ⟨i, hi, rfl⟩)

theorem Node.noteInventory_time (now : Nat) (q : PeerId) (itemType : Nat) (hashes : List Nat)
    (n : Node) (e : ItemId × Nat)
    (he : e ∈ ((Node.noteInventory now q itemType hashes n).peers p).inventoryPeerAdvertisedToUs) :
    e ∈ (n.peers p).inventoryPeerAdvertisedToUs ∨ e.2 = now / second := by
  induction hashes generalizing n with
  | nil => exact Or.inl he
  | cons hash hashes ih =>
    rw [Node.noteInventory] at he
    dsimp only at he
    split at he
    · exact ih n he
    split at he
    · exact Or.inl he
    · refine (ih _ he).elim (fun hin => ?_) Or.inr
      have hnoted : e ∈ ((n.modifyPeer q fun peer => { peer with
          inventoryPeerAdvertisedToUs := insertItem peer.inventoryPeerAdvertisedToUs
            ⟨itemType, hash⟩ (now / second) }).peers p).inventoryPeerAdvertisedToUs := by
        split at hin
        · exact hin
        split at hin
        · exact hin
        · exact hin
      unfold Node.modifyPeer at hnoted
      by_cases hp : p = q
      · subst hp
        simp only [Function.update_self, insertItem] at hnoted
        split at hnoted
        · exact Or.inl hnoted
        · rcases List.mem_append.mp hnoted with hold | hnew
          · exact Or.inl hold
          · exact Or.inr (congrArg Prod.snd (List.mem_singleton.mp hnew))
      · exact Or.inl (by simpa [Function.update_of_ne hp] using hnoted)

theorem Noted.knows (ht : Tidy n) {e : Event}
    (hbefore : hasItem (n.peers p).inventoryPeerAdvertisedToUs i = false)
    (hafter : hasItem ((n.step now e).1.peers p).inventoryPeerAdvertisedToUs i = true) :
    Knows ((n.step now e).1.peers p).inventoryPeerAdvertisedToUs i (now / second) := by
  obtain ⟨time, hmem⟩ := hasItem_iff.mp hafter
  refine ⟨time, ?_, hmem⟩
  have hnew : ∀ t, (i, t) ∉ (n.peers p).inventoryPeerAdvertisedToUs := by
    intro t hin
    exact Bool.false_ne_true (hbefore.symm.trans (hasItem_iff.mpr ⟨t, hin⟩))
  rcases Node.step_advertised ht.active now e p i hafter with hold | ⟨hashes, rfl, -⟩
  · obtain ⟨t, hin⟩ := hasItem_iff.mp hold
    exact absurd hin (hnew t)
  · simp only [Node.step] at hmem
    split at hmem
    · rcases Node.noteInventory_time now p _ hashes _ _ hmem with hin | heq
      · unfold Node.modifyPeer at hin
        simp only [Function.update_self] at hin
        exact absurd (List.mem_of_mem_filter hin) (hnew time)
      · exact heq.ge
    · exact absurd hmem (hnew time)

theorem Told.unknown {e : Event} (h : Told (n.step now e).2 p i) :
    ¬Knows (n.peers p).inventoryAdvertisedToPeer i since ∧
      ¬Knows (n.peers p).inventoryPeerAdvertisedToUs i since := by
  obtain ⟨-, -, hi⟩ := h.of_step
  unfold Node.itemsToAdvertise at hi
  split at hi
  · cases hi
  · obtain ⟨-, hnew⟩ := List.mem_filter.mp hi
    rw [Bool.and_eq_true, Bool.not_eq_true', Bool.not_eq_true'] at hnew
    exact ⟨fun hk => Bool.false_ne_true (hnew.1.symm.trans hk.hasItem),
      fun hk => Bool.false_ne_true (hnew.2.symm.trans hk.hasItem)⟩

/-! ### Runs -/

theorem Keeps.run (es : List (Nat × Event)) (n : Node) (ht : Tidy n)
    (hes : ∀ e ∈ es, e.2 ≠ .connect p ∧ e.2 ≠ .itemNotAvailable p i ∧
      Peer.oldestInventoryToKeep e.1 ≤ since) : Keeps p i since n (n.run es).1 := by
  induction es generalizing n with
  | nil => exact .of_peers rfl
  | cons e es ih =>
    obtain ⟨h1, h2, h3⟩ := hes e List.mem_cons_self
    exact (Keeps.step ht e.1 e.2 h1 h2 h3).trans
      (ih _ (ht.step e.1 e.2) fun e' he' => hes e' (List.mem_cons_of_mem _ he'))

theorem Knows.run_told (es : List (Nat × Event)) (n : Node) (ht : Tidy n)
    (hes : ∀ e ∈ es, e.2 ≠ .connect p ∧ Peer.oldestInventoryToKeep e.1 ≤ since)
    (h : Knows (n.peers p).inventoryAdvertisedToPeer i since) :
    Knows ((n.run es).1.peers p).inventoryAdvertisedToPeer i since := by
  induction es generalizing n with
  | nil => exact h
  | cons e es ih =>
    refine ih _ (ht.step e.1 e.2) (fun e' he' => hes e' (List.mem_cons_of_mem _ he')) ?_
    obtain ⟨h1, h2⟩ := hes e List.mem_cons_self
    by_cases hmissing : e.2 = .itemNotAvailable p i
    · rw [hmissing]
      dsimp only
      split
      · rwa [Node.itemNotAvailable_told]
      · exact h
    · exact (Keeps.step ht e.1 e.2 h1 hmissing h2).told h

theorem Tidy.run (es : List (Nat × Event)) (n : Node) (h : Tidy n) : Tidy (n.run es).1 := by
  induction es generalizing n with
  | nil => exact h
  | cons e es ih => exact ih _ (h.step e.1 e.2)

/-- A peer that was told an item, or that advertised it and has not said since that it does not have
it, is not told the item in the next two minutes of the connection. -/
theorem not_told_what_it_knows (before mid : List (Nat × Event)) (now now' : Nat) (e e' : Event)
    (p : PeerId) (i : ItemId)
    (hmid : ∀ e ∈ mid, e.2 ≠ .connect p ∧ e.1 ≤ now + maxInventorySizeInMinutes * 60 * second)
    (hlearnt : Told ((Node.empty.run before).1.step now e).2 p i ∨
      hasItem ((Node.empty.run before).1.peers p).inventoryPeerAdvertisedToUs i = false ∧
      hasItem (((Node.empty.run before).1.step now e).1.peers p).inventoryPeerAdvertisedToUs i = true ∧
      ∀ e ∈ mid, e.2 ≠ .itemNotAvailable p i) :
    ¬Told ((((Node.empty.run before).1.step now e).1.run mid).1.step now' e').2 p i := by
  have ht := Tidy.run before _ .empty
  have hold : ∀ e ∈ mid, Peer.oldestInventoryToKeep e.1 ≤ now / second :=
    fun e he => Peer.oldestInventoryToKeep_le (hmid e he).2
  intro htold
  rcases hlearnt with hlearnt | ⟨hbefore, hafter, hmissing⟩
  · exact htold.unknown.1 (Knows.run_told mid _ (ht.step now e)
      (fun e he => ⟨(hmid e he).1, hold e he⟩) hlearnt.knows)
  · have hkept := Keeps.run (p := p) (i := i) mid _ (ht.step now e)
      fun e he => ⟨(hmid e he).1, hmissing e he, hold e he⟩
    exact htold.unknown.2 (hkept.noted (Noted.knows ht hbefore hafter))

/-- A transaction that the peer was told in the first second is not told again in the hundredth. -/
theorem not_told_what_it_knows_seven :
    ¬Told ((((Node.empty.run [(0, .connect 1), (0, .activate 1 [1]),
      (0, .sync 1 ⟨[], false, false, false, false⟩), (0, .broadcast ⟨1000, 7⟩ none)]).1.step second
        .advertiseInventory).1.run [(50 * second, .broadcast ⟨1000, 7⟩ none)]).1.step
          (100 * second) .advertiseInventory).2 1 ⟨1000, 7⟩ :=
  not_told_what_it_knows [(0, .connect 1), (0, .activate 1 [1]),
    (0, .sync 1 ⟨[], false, false, false, false⟩), (0, .broadcast ⟨1000, 7⟩ none)]
    [(50 * second, .broadcast ⟨1000, 7⟩ none)] second (100 * second) .advertiseInventory
    .advertiseInventory 1 ⟨1000, 7⟩ (by simp [second, maxInventorySizeInMinutes])
    (Or.inl ⟨[7], by decide, List.mem_cons_self⟩)

/-! ### What is broadcast -/

/-- The event makes the block one of those accepted. -/
def Event.Accepts (id : Nat) : Event → Prop
  | .delegateReturns h (.accepted _) => h.blockId = some id
  | .broadcast _ blockId => blockId = some id
  | .backlog _ mostRecent _ => id ∈ mostRecent
  | _ => False

def Event.Broadcasts (n : Node) (i : ItemId) : Event → Prop
  | .delegateReturns h (.accepted _) => h ∈ n.handling ∧ h.item = i
  | .broadcast j _ => j = i
  | .blockMessage _ messageHash blockId =>
    i = ⟨blockMessageType, messageHash⟩ ∧ blockId ∈ n.mostRecentBlocksAccepted
  | _ => False

/-- What a step does with the calls of the delegate, the blocks accepted and the new inventory. -/
structure Broadcast (n : Node) (e : Event) (n' : Node) (os : List Output) : Prop where
  handling : ∀ h ∈ n'.handling, h ∈ n.handling ∨ .handle h ∈ os
  recent : ∀ id ∈ n'.mostRecentBlocksAccepted, id ∈ n.mostRecentBlocksAccepted ∨ e.Accepts id
  new : ∀ i ∈ n'.newInventory, i ∈ n.newInventory ∨ e.Broadcasts n i
  kept : e ≠ .advertiseInventory → n.newInventory ⊆ n'.newInventory
  sent : ∀ i, .broadcast i ∈ os → i ∈ n'.newInventory

theorem Broadcast.of_eq {e : Event} {os : List Output} (h1 : n'.handling = n.handling)
    (h2 : n'.mostRecentBlocksAccepted = n.mostRecentBlocksAccepted)
    (h3 : n'.newInventory = n.newInventory) (h4 : ∀ i, .broadcast i ∉ os) : Broadcast n e n' os :=
  ⟨fun _ hh => Or.inl (h1 ▸ hh), fun _ hid => Or.inl (h2 ▸ hid), fun _ hi => Or.inl (h3 ▸ hi),
    fun _ => h3 ▸ List.Subset.refl _, fun i hi => absurd hi (h4 i)⟩

theorem Broadcast.silent {e : Event} (h1 : n'.handling = n.handling)
    (h2 : n'.mostRecentBlocksAccepted = n.mostRecentBlocksAccepted)
    (h3 : n'.newInventory = n.newInventory) : Broadcast n e n' [] :=
  .of_eq h1 h2 h3 fun _ => List.not_mem_nil

theorem Node.noteInventory_broadcast (now : Nat) (p : PeerId) (itemType : Nat) (hashes : List Nat)
    (n : Node) : (Node.noteInventory now p itemType hashes n).handling = n.handling ∧
      (Node.noteInventory now p itemType hashes n).mostRecentBlocksAccepted =
        n.mostRecentBlocksAccepted ∧
      (Node.noteInventory now p itemType hashes n).newInventory = n.newInventory := by
  induction hashes generalizing n with
  | nil => exact ⟨rfl, rfl, rfl⟩
  | cons hash hashes ih =>
    rw [Node.noteInventory]
    dsimp only
    split
    · exact ih n
    split
    · exact ⟨rfl, rfl, rfl⟩
    · obtain ⟨h1, h2, h3⟩ := ih (if ((n.active.any fun q =>
          decide (⟨itemType, hash⟩ ∈ (n.peers q).itemsRequestedFromPeer)) ||
          hasItem n.recentlyFailedItems ⟨itemType, hash⟩) = true then _ else _)
      rw [h1, h2, h3]
      split_ifs <;> exact ⟨rfl, rfl, rfl⟩

theorem Node.requeue_broadcast (now : Nat) (items : List ItemId) (n : Node) :
    (items.foldl (fun n i =>
      if n.isItemInAnyPeersInventory i then n.insertItemToFetch now i else n) n).handling =
        n.handling ∧
    (items.foldl (fun n i =>
      if n.isItemInAnyPeersInventory i then n.insertItemToFetch now i
      else n) n).mostRecentBlocksAccepted = n.mostRecentBlocksAccepted ∧
    (items.foldl (fun n i =>
      if n.isItemInAnyPeersInventory i then n.insertItemToFetch now i else n) n).newInventory =
        n.newInventory := by
  induction items generalizing n with
  | nil => exact ⟨rfl, rfl, rfl⟩
  | cons i items ih =>
    rw [List.foldl_cons]
    obtain ⟨h1, h2, h3⟩ := ih (if n.isItemInAnyPeersInventory i then n.insertItemToFetch now i else n)
    rw [h1, h2, h3]
    split <;> exact ⟨rfl, rfl, rfl⟩

theorem Node.mem_broadcast (n : Node) (i : ItemId) (blockId : Option Nat) :
    (∀ j, j ∈ (n.broadcast i blockId).1.newInventory ↔ j ∈ n.newInventory ∨ j = i) ∧
    ∀ id ∈ (n.broadcast i blockId).1.mostRecentBlocksAccepted,
      id ∈ n.mostRecentBlocksAccepted ∨ blockId = some id := by
  unfold Node.broadcast
  dsimp only
  refine ⟨fun j => ?_, fun id hid => ?_⟩
  · split
    · rename_i hi
      refine ⟨Or.inl, fun h => h.elim (fun h => h) ?_⟩
      rintro rfl
      exact hi
    · rw [List.mem_append, List.mem_singleton]
  · cases blockId with
    | none => exact Or.inl hid
    | some b =>
      rcases List.mem_append.mp (List.mem_of_mem_drop hid) with hold | hnew
      · exact Or.inl hold
      · exact Or.inr (congrArg some (List.mem_singleton.mp hnew).symm)

theorem Broadcast.broadcast {e : Event} {m : Node} {blockId : Option Nat}
    (h : Broadcast n e m []) (hi : e.Broadcasts n i)
    (hid : ∀ id, blockId = some id → id ∈ n.mostRecentBlocksAccepted ∨ e.Accepts id) :
    Broadcast n e (m.broadcast i blockId).1 (m.broadcast i blockId).2 := by
  obtain ⟨hnew, hrecent⟩ := m.mem_broadcast i blockId
  refine ⟨fun k hk => ?_, fun id hmem => ?_, fun j hmem => ?_, fun he j hj => ?_, fun j hj => ?_⟩
  · exact (h.handling k hk).imp_right fun hin => absurd hin List.not_mem_nil
  · exact (hrecent id hmem).elim (h.recent id) (hid id)
  · rcases (hnew j).mp hmem with hold | rfl
    · exact h.new j hold
    · exact Or.inr hi
  · exact (hnew j).mpr (Or.inl (h.kept he hj))
  · exact (hnew j).mpr (Or.inr (Output.broadcast.inj (List.mem_singleton.mp hj)))

theorem Broadcast.accept {h : Handling} {contained : List Nat} {m : Node}
    {id k : Nat} (hid : h.blockId = some id) (hhandling : ∀ h ∈ m.handling, h ∈ n.handling)
    (hrecent : m.mostRecentBlocksAccepted = (n.mostRecentBlocksAccepted ++ [id]).drop k)
    (hnew : m.newInventory = n.newInventory) :
    Broadcast n (.delegateReturns h (.accepted contained)) m [] := by
  refine ⟨fun j hj => Or.inl (hhandling j hj), fun j hj => ?_, fun j hj => Or.inl (hnew ▸ hj),
    fun _ j hj => hnew ▸ hj, fun j hj => absurd hj List.not_mem_nil⟩
  rw [hrecent] at hj
  rcases List.mem_append.mp (List.mem_of_mem_drop hj) with hold | hlast
  · exact Or.inl hold
  · exact Or.inr (hid.trans (congrArg some (List.mem_singleton.mp hlast).symm))

theorem Broadcast.step (n : Node) (now : Nat) (e : Event) :
    Broadcast n e (n.step now e).1 (n.step now e).2 := by
  have hstart : ∀ (m : Node) (h : Handling), m.handling = n.handling →
      m.mostRecentBlocksAccepted = n.mostRecentBlocksAccepted → m.newInventory = n.newInventory →
      Broadcast n e (m.startHandling h).1 (m.startHandling h).2 := by
    intro m h h1 h2 h3
    refine ⟨fun k hk => ?_, fun _ hid => Or.inl (h2 ▸ hid), fun _ hi => Or.inl (h3 ▸ hi),
      fun _ j hj => h3 ▸ hj, fun j hj => ?_⟩
    · rcases List.mem_append.mp hk with hold | hnew
      · exact Or.inl (h1 ▸ hold)
      · exact Or.inr (List.mem_singleton.mpr (congrArg Output.handle (List.mem_singleton.mp hnew)))
    · cases List.mem_singleton.mp hj
  cases e with
  | connect p | activate p order =>
    simp only [Node.step]
    split <;> exact .silent rfl rfl rfl
  | itemIdsInventory p itemType hashes =>
    simp only [Node.step]
    split
    · obtain ⟨h1, h2, h3⟩ := Node.noteInventory_broadcast now p itemType hashes
        (n.modifyPeer p (Peer.clearOldInventory now))
      exact .silent h1 h2 h3
    · exact .silent rfl rfl rfl
  | itemNotAvailable p i =>
    simp only [Node.step]
    split
    · unfold Node.onItemNotAvailableMessage
      dsimp only
      split_ifs <;> exact .silent rfl rfl rfl
    · exact .silent rfl rfl rfl
  | ordinaryMessage p i =>
    simp only [Node.step]
    split
    · unfold Node.processOrdinaryMessage
      split
      · exact hstart _ _ rfl rfl rfl
      · exact .silent rfl rfl rfl
    · exact .silent rfl rfl rfl
  | blockMessage p messageHash blockId =>
    simp only [Node.step]
    split
    · unfold Node.processBlockMessage
      dsimp only
      split
      · split
        · rename_i hrecent
          refine Broadcast.broadcast (.silent rfl rfl rfl) ⟨rfl, hrecent⟩ fun id hid => Or.inl ?_
          exact Option.some.inj hid ▸ hrecent
        · exact hstart _ _ rfl rfl rfl
      split
      · exact .of_eq rfl rfl rfl fun i hi => by cases List.mem_singleton.mp hi
      · exact .silent rfl rfl rfl
    · exact .silent rfl rfl rfl
  | delegateReturns h verdict =>
    simp only [Node.step]
    split
    · rename_i hh
      have herase : ∀ k ∈ n.handling.erase h, k ∈ n.handling := fun _ => List.mem_of_mem_erase
      have hless : ∀ m : Node, m.handling = n.handling.erase h →
          m.mostRecentBlocksAccepted = n.mostRecentBlocksAccepted →
          m.newInventory = n.newInventory →
          Broadcast n (.delegateReturns h verdict) m [] := by
        intro m h1 h2 h3
        exact ⟨fun k hk => Or.inl (herase k (h1 ▸ hk)), fun _ hid => Or.inl (h2 ▸ hid),
          fun _ hi => Or.inl (h3 ▸ hi), fun _ j hj => h3 ▸ hj,
          fun j hj => absurd hj List.not_mem_nil⟩
      unfold Node.delegateReturns
      dsimp only
      generalize n.mostRecentBlocksAccepted.length + 1 - mostRecentBlocks = k
      split
      · refine Broadcast.broadcast (hless _ rfl rfl rfl) ⟨hh, rfl⟩ fun id hid => ?_
        cases hid
      · exact hless _ rfl rfl rfl
      · rename_i id contained hid
        refine Broadcast.broadcast ?_ ⟨hh, rfl⟩ fun j hj => Or.inr (hid.trans hj)
        exact .accept hid herase rfl rfl
      · exact hless _ rfl rfl rfl
      · exact hless _ rfl rfl rfl
    · exact .silent rfl rfl rfl
  | fetchItems b =>
    refine .of_eq rfl rfl rfl fun i hi => ?_
    simp only [Node.step, Node.fetchItems, List.mem_flatMap, List.mem_map] at hi
    obtain ⟨q, -, g, -, heq⟩ := hi
    cases heq
  | fetchSyncItems =>
    simp only [Node.step, Node.fetchSyncItems]
    split
    · exact .silent rfl rfl rfl
    · have hdone := n.requestSyncItems_spec (n.syncItemRequests n.active [])
      refine .of_eq hdone.handling hdone.mostRecentBlocksAccepted hdone.newInventory fun i hi => ?_
      obtain ⟨q, -, heq⟩ := List.mem_map.mp hi
      cases heq
  | advertiseInventory =>
    refine ⟨fun _ => Or.inl, fun _ => Or.inl, fun _ hi => absurd hi List.not_mem_nil,
      fun he => absurd rfl he, fun i hi => ?_⟩
    simp only [Node.step, Node.advertiseInventory, List.mem_flatMap, List.mem_map] at hi
    obtain ⟨q, -, g, -, heq⟩ := hi
    cases heq
  | broadcast i blockId => exact Broadcast.broadcast (.silent rfl rfl rfl) rfl fun _ => Or.inr
  | setAdvancedNodeParameters k | forgetFailedItems | sync p s | disconnect p =>
    exact .silent rfl rfl rfl
  | backlog received mostRecent suspend =>
    exact ⟨fun _ => Or.inl, fun _ => Or.inr, fun _ => Or.inl, fun _ => List.Subset.refl _,
      fun i hi => absurd hi List.not_mem_nil⟩
  | closed p =>
    simp only [Node.step]
    split
    · obtain ⟨h1, h2, h3⟩ := Node.requeue_broadcast now (n.peers p).itemsRequestedFromPeer { n with
        connected := n.connected.erase p
        active := n.active.erase p
        activeSyncRequests := n.activeSyncRequests.filter fun id =>
          !decide (id ∈ (n.peers p).syncItemsRequestedFromPeer) }
      exact .silent h1 h2 h3
    · exact .silent rfl rfl rfl

/-- A block with the id was accepted in the run. -/
def Accepted (es : List (Nat × Event)) (id : Nat) : Prop := ∃ e ∈ es, e.2.Accepts id

/-- Why the node may tell its peers of an item. -/
inductive Vouched (es : List (Nat × Event)) (os : List Output) (i : ItemId) : Prop where
  /-- The client broadcast the item. -/
  | client (now : Nat) (blockId : Option Nat) (h : (now, .broadcast i blockId) ∈ es)
  /-- The delegate got the item and accepted it. -/
  | delegate (now : Nat) (h : Handling) (contained : List Nat) (hitem : h.item = i)
    (hgiven : .handle h ∈ os) (haccepted : (now, .delegateReturns h (.accepted contained)) ∈ es)
  /-- The item is a block message, and a block with its id was accepted. -/
  | block (now : Nat) (p : PeerId) (messageHash id : Nat)
    (hitem : i = ⟨blockMessageType, messageHash⟩) (hmessage : (now, .blockMessage p messageHash id) ∈ es)
    (haccepted : Accepted es id)

theorem Accepted.more {es es' : List (Nat × Event)} {id : Nat} (h : Accepted es id) :
    Accepted (es ++ es') id := by
  obtain ⟨e, he, hid⟩ := h
  exact ⟨e, List.mem_append_left _ he, hid⟩

theorem Vouched.more {es es' : List (Nat × Event)} {os os' : List Output} (h : Vouched es os i) :
    Vouched (es ++ es') (os ++ os') i := by
  cases h with
  | client now blockId h => exact .client now blockId (List.mem_append_left _ h)
  | delegate now h contained hitem hgiven haccepted =>
    exact .delegate now h contained hitem (List.mem_append_left _ hgiven)
      (List.mem_append_left _ haccepted)
  | block now p messageHash id hitem hmessage haccepted =>
    exact .block now p messageHash id hitem (List.mem_append_left _ hmessage) haccepted.more

/-- What the node has to tell after a run. -/
structure Vouching (es : List (Nat × Event)) (n : Node) (os : List Output) : Prop where
  handling : ∀ h ∈ n.handling, .handle h ∈ os
  recent : ∀ id ∈ n.mostRecentBlocksAccepted, Accepted es id
  new : ∀ i ∈ n.newInventory, Vouched es os i
  told : ∀ p i, Told os p i → Vouched es os i

theorem Vouching.step {es : List (Nat × Event)} {os : List Output} (h : Vouching es n os)
    (e : Nat × Event) :
    Vouching (es ++ [e]) (n.step e.1 e.2).1 (os ++ (n.step e.1 e.2).2) := by
  have hb := Broadcast.step n e.1 e.2
  have hlast : (e.1, e.2) ∈ es ++ [e] := List.mem_append_right _ (List.mem_singleton_self _)
  refine ⟨fun k hk => ?_, fun id hid => ?_, fun i hi => ?_, fun p i htold => ?_⟩
  · rcases hb.handling k hk with hold | hnew
    · exact List.mem_append_left _ (h.handling k hold)
    · exact List.mem_append_right _ hnew
  · rcases hb.recent id hid with hold | hnew
    · exact (h.recent id hold).more
    · exact ⟨e, hlast, hnew⟩
  · rcases hb.new i hi with hold | hnew
    · exact (h.new i hold).more
    · obtain ⟨now, e⟩ := e
      cases e with
      | broadcast j blockId =>
        obtain rfl : j = i := hnew
        exact .client now blockId hlast
      | delegateReturns k verdict =>
        cases verdict with
        | accepted contained =>
          exact .delegate now k contained hnew.2
            (List.mem_append_left _ (h.handling k hnew.1)) hlast
        | unlinkable => exact absurd hnew id
        | rejected => exact absurd hnew id
      | blockMessage p messageHash id =>
        exact .block now p messageHash id hnew.1 hlast (h.recent id hnew.2).more
      | _ => exact absurd hnew id
  · obtain ⟨hashes, ho, hhash⟩ := htold
    rcases List.mem_append.mp ho with ho | ho
    · exact (h.told p i ⟨hashes, ho, hhash⟩).more
    · obtain ⟨-, -, hi⟩ := Told.of_step ⟨hashes, ho, hhash⟩
      unfold Node.itemsToAdvertise at hi
      split at hi
      · cases hi
      · exact (h.new i (List.mem_of_mem_filter hi)).more

/-- In every run a peer is told only of items that the client broadcast, that the delegate got and
accepted, or that are messages of a block whose id was accepted. -/
theorem told_only_what_was_accepted (es : List (Nat × Event)) (p : PeerId) (i : ItemId)
    (h : Told (Node.empty.run es).2 p i) : Vouched es (Node.empty.run es).2 i := by
  have hrun : Vouching es (Node.empty.run es).1 (Node.empty.run es).2 := by
    refine runMachine_induction (P := Vouching) Node.empty ?_ ?_ es
    · refine ⟨?_, ?_, ?_, ?_⟩
      · intro k hk
        cases hk
      · intro id hid
        cases hid
      · intro i hi
        cases hi
      · rintro p i ⟨hashes, ho, -⟩
        cases ho
    · intro es e n os h
      exact h.step e
  exact hrun.told p i h

/-- The transaction of the client. -/
theorem told_only_what_was_accepted_seven :
    Vouched [(0, .connect 1), (0, .activate 1 [1]), (0, .sync 1 ⟨[], false, false, false, false⟩),
        (0, .broadcast ⟨1000, 7⟩ none), (second, .advertiseInventory)]
      (Node.empty.run [(0, .connect 1), (0, .activate 1 [1]),
        (0, .sync 1 ⟨[], false, false, false, false⟩), (0, .broadcast ⟨1000, 7⟩ none),
        (second, .advertiseInventory)]).2 ⟨1000, 7⟩ :=
  told_only_what_was_accepted _ 1 ⟨1000, 7⟩ ⟨[7], by decide, List.mem_cons_self⟩

/-! ### What is broadcast is told -/

theorem Node.run_newInventory (es : List (Nat × Event)) (n : Node)
    (hes : ∀ e ∈ es, e.2 ≠ .advertiseInventory) : n.newInventory ⊆ (n.run es).1.newInventory := by
  induction es generalizing n with
  | nil => exact List.Subset.refl _
  | cons e es ih =>
    exact List.Subset.trans ((Broadcast.step n e.1 e.2).kept (hes e List.mem_cons_self))
      (ih _ fun e' he' => hes e' (List.mem_cons_of_mem _ he'))

/-- An item that the node broadcast is told, in the next iteration of `advertise_inventory_loop`, to
each active peer that is in sync and neither was told it nor advertised it. -/
theorem broadcast_is_told (n : Node) (now now' : Nat) (e : Event) (mid : List (Nat × Event))
    (p : PeerId) (i : ItemId) (hsent : .broadcast i ∈ (n.step now e).2)
    (hmid : ∀ e ∈ mid, e.2 ≠ .advertiseInventory)
    (hp : p ∈ ((n.step now e).1.run mid).1.active)
    (hsync : (((n.step now e).1.run mid).1.peers p).sync.peerNeedsSyncItemsFromUs = false)
    (htold : hasItem (((n.step now e).1.run mid).1.peers p).inventoryAdvertisedToPeer i = false)
    (hnoted : hasItem (((n.step now e).1.run mid).1.peers p).inventoryPeerAdvertisedToUs i = false) :
    Told (((n.step now e).1.run mid).1.step now' .advertiseInventory).2 p i := by
  have hi := Node.run_newInventory mid _ hmid ((Broadcast.step n now e).sent i hsent)
  refine (told_advertiseInventory _ now' p i).mpr ⟨hp, ?_⟩
  unfold Node.itemsToAdvertise
  rw [if_neg (by simp [hsync]), List.mem_filter]
  exact ⟨hi, by simp [htold, hnoted]⟩

/-- A transaction of the client is told to the peer that is connected. -/
theorem broadcast_is_told_seven :
    Told ((((Node.empty.run [(0, .connect 1), (0, .activate 1 [1]),
      (0, .sync 1 ⟨[], false, false, false, false⟩)]).1.step 0 (.broadcast ⟨1000, 7⟩ none)).1.run
        [(0, .fetchSyncItems)]).1.step second .advertiseInventory).2 1 ⟨1000, 7⟩ :=
  broadcast_is_told _ 0 second (.broadcast ⟨1000, 7⟩ none) [(0, .fetchSyncItems)] 1 ⟨1000, 7⟩
    List.mem_cons_self (by simp) (by decide) (by decide) (by decide) (by decide)

end Nestchain.Net
