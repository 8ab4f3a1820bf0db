import Nestchain.Lib.Machine
import Mathlib.Data.List.Dedup
import Mathlib.Data.List.Sort
import Mathlib.Logic.Function.Basic

/-! The exchange of items between a node and its peers.  A handler runs up to its end or to a call
of the delegate, which may let other handlers run before it returns, so a message that the delegate
handles is a task of its own.  The fields that only the exchange of block ids writes are kept apart
as `SyncState`. -/

namespace Nestchain.Net

open Nestchain.Lib

abbrev PeerId := Nat

/-- `item_id`, whose type is the type of the message that holds the item. -/
structure ItemId where
  itemType : Nat
  itemHash : Nat
deriving DecidableEq

/-- `trx_message_type` -/
def trxMessageType : Nat := 1000

/-- `block_message_type` -/
def blockMessageType : Nat := 1001

/-- `core_message_type_first` -/
def coreMessageTypeFirst : Nat := 5000

/-- `core_message_type_last` -/
def coreMessageTypeLast : Nat := 5099

/-- `GRAPHENE_NET_MAX_INVENTORY_SIZE_IN_MINUTES` -/
def maxInventorySizeInMinutes : Nat := 2

/-- `GRAPHENE_NET_MAX_TRX_PER_SECOND` -/
def maxTrxPerSecond : Nat := 1000

/-- `GRAPHENE_NET_MAX_ITEMS_PER_PEER_DURING_NORMAL_OPERATION` -/
def maxItemsPerPeer : Nat := 1

/-- `GRAPHENE_NET_MAX_BLOCKS_PER_PEER_DURING_SYNCING` -/
def maxBlocksPerPeer : Nat := 200

/-- `GRAPHENE_NET_MESSAGE_CACHE_DURATION_IN_BLOCKS` -/
def messageCacheDuration : Nat := 5

/-- The capacity of `_most_recent_blocks_accepted`, `GRAPHENE_NET_DEFAULT_MAX_CONNECTIONS`. -/
def mostRecentBlocks : Nat := 200

def second : Nat := 1000000

/-! ### Timestamped items -/

/-- `timestamped_items_set_type`, with one entry for an item and its time in seconds. -/
abbrev TimestampedItems := List (ItemId × Nat)

def hasItem (l : TimestampedItems) (i : ItemId) : Bool := l.any (·.1 == i)

def insertItem (l : TimestampedItems) (i : ItemId) (time : Nat) : TimestampedItems :=
  if hasItem l i then l else l ++ [(i, time)]

def eraseBefore (l : TimestampedItems) (oldest : Nat) : TimestampedItems :=
  l.filter fun e => decide (oldest ≤ e.2)

def eraseItem (l : TimestampedItems) (i : ItemId) : TimestampedItems := l.filter (·.1 != i)

/-! ### Peers -/

/-- The fields of a peer that only the exchange of block ids writes. -/
structure SyncState where
  idsOfItemsToGet : List Nat
  /-- `item_ids_requested_from_peer.valid()` -/
  itemIdsRequestedFromPeer : Bool
  weNeedSyncItemsFromPeer : Bool
  peerNeedsSyncItemsFromUs : Bool
  inhibitFetchingSyncBlocks : Bool

/-- `peer_connection` -/
structure Peer where
  inventoryPeerAdvertisedToUs : TimestampedItems
  inventoryAdvertisedToPeer : TimestampedItems
  itemsRequestedFromPeer : List ItemId
  syncItemsRequestedFromPeer : List Nat
  sync : SyncState

namespace Peer

/-- The constructor of `peer_connection`. -/
def fresh : Peer where
  inventoryPeerAdvertisedToUs := []
  inventoryAdvertisedToPeer := []
  itemsRequestedFromPeer := []
  syncItemsRequestedFromPeer := []
  sync := ⟨[], false, true, true, false⟩

def idle (p : Peer) : Bool :=
  p.itemsRequestedFromPeer.isEmpty && p.syncItemsRequestedFromPeer.isEmpty &&
    !p.sync.itemIdsRequestedFromPeer

def oldestInventoryToKeep (now : Nat) : Nat := (now - maxInventorySizeInMinutes * 60 * second) / second

def clearOldInventory (now : Nat) (p : Peer) : Peer :=
  { p with
    inventoryAdvertisedToPeer := eraseBefore p.inventoryAdvertisedToPeer (oldestInventoryToKeep now)
    inventoryPeerAdvertisedToUs :=
      eraseBefore p.inventoryPeerAdvertisedToUs (oldestInventoryToKeep now) }

def isInventoryAdvertisedToUsListFullForTransactions (p : Peer) : Bool :=
  decide (maxInventorySizeInMinutes * maxTrxPerSecond * 60 < p.inventoryPeerAdvertisedToUs.length)

/-- `GRAPHENE_MIN_BLOCK_INTERVAL` is 1. -/
def isInventoryAdvertisedToUsListFull (p : Peer) : Bool :=
  decide (maxInventorySizeInMinutes * maxTrxPerSecond * 60 + (maxInventorySizeInMinutes + 1) * 60 / 1
    < p.inventoryPeerAdvertisedToUs.length)

end Peer

/-! ### The node -/

/-- `prioritized_item_id`; the time is in microseconds. -/
structure PrioritizedItem where
  item : ItemId
  sequenceNumber : Nat
  timestamp : Nat

/-- `operator<` of `prioritized_item_id`, or equality. -/
def PrioritizedItem.Before (a b : PrioritizedItem) : Prop :=
  b.item.itemType < a.item.itemType ∨
    a.item.itemType = b.item.itemType ∧ a.sequenceNumber ≤ b.sequenceNumber

instance : DecidableRel PrioritizedItem.Before := fun a b =>
  inferInstanceAs (Decidable (b.item.itemType < a.item.itemType ∨
    a.item.itemType = b.item.itemType ∧ a.sequenceNumber ≤ b.sequenceNumber))

/-- A message that the delegate handles; for a block its id. -/
structure Handling where
  peer : PeerId
  item : ItemId
  blockId : Option Nat
deriving DecidableEq

/-- How the delegate returns: with the hashes of the transaction messages of a block, or with one of
two kinds of exception. -/
inductive Verdict where
  | accepted (contained : List Nat)
  | unlinkable
  | rejected

/-- `node_impl`.  The peers of `active` are those of `_active_connections` in the order of its
iteration, and `connected` has all whose connection is not closed. -/
structure Node where
  /-- `_maximum_blocks_per_peer_during_syncing` -/
  maximumBlocksPerPeer : Nat
  connected : List PeerId
  active : List PeerId
  peers : PeerId → Peer
  itemsToFetch : List PrioritizedItem
  itemsToFetchSequenceCounter : Nat
  recentlyFailedItems : TimestampedItems
  newInventory : List ItemId
  mostRecentBlocksAccepted : List Nat
  activeSyncRequests : List Nat
  /-- The ids of `_received_sync_items` and `_new_received_sync_items`. -/
  receivedSyncItems : List Nat
  suspendFetchingSyncBlocks : Bool
  /-- The calls of the delegate that have not returned. -/
  handling : List Handling

/-- What the node sends to a peer or gives to the delegate. -/
inductive Output where
  /-- `fetch_items_message` of normal operation. -/
  | fetchItems (peer : PeerId) (itemType : Nat) (itemHashes : List Nat)
  /-- `fetch_items_message` of the synchronization. -/
  | fetchSyncItems (peer : PeerId) (blockIds : List Nat)
  /-- `item_ids_inventory_message` -/
  | inventory (peer : PeerId) (itemType : Nat) (itemHashes : List Nat)
  /-- `handle_transaction`, `handle_message` or `handle_block` with a message of the peer. -/
  | handle (h : Handling)
  /-- A block of the peer that waits for the backlog. -/
  | syncBlock (peer : PeerId) (blockId : Nat)
  /-- `broadcast`, by the node or by the client. -/
  | broadcast (item : ItemId)
deriving DecidableEq

def groupByType (items : List ItemId) : List (Nat × List Nat) :=
  ((items.map ItemId.itemType).dedup.insertionSort (· ≤ ·)).map fun type =>
    (type, (items.filter (·.itemType == type)).map ItemId.itemHash)

namespace Node

/-- The constructor of `node_impl`. -/
def empty : Node where
  maximumBlocksPerPeer := maxBlocksPerPeer
  connected := []
  active := []
  peers _ := .fresh
  itemsToFetch := []
  itemsToFetchSequenceCounter := 0
  recentlyFailedItems := []
  newInventory := []
  mostRecentBlocksAccepted := []
  activeSyncRequests := []
  receivedSyncItems := []
  suspendFetchingSyncBlocks := false
  handling := []

def modifyPeer (n : Node) (p : PeerId) (f : Peer → Peer) : Node :=
  { n with peers := Function.update n.peers p (f (n.peers p)) }

/-- `clear_old_inventory` of the active peers. -/
def clearOldInventories (n : Node) (now : Nat) : Node :=
  { n with peers := fun p => if p ∈ n.active then (n.peers p).clearOldInventory now else n.peers p }

def isItemInAnyPeersInventory (n : Node) (i : ItemId) : Bool :=
  n.active.any fun p => hasItem (n.peers p).inventoryPeerAdvertisedToUs i

/-- `_items_to_fetch.insert`, which does nothing when the item is there already. -/
def insertItemToFetch (n : Node) (now : Nat) (i : ItemId) : Node :=
  { n with
    itemsToFetch :=
      if n.itemsToFetch.any (·.item == i) then n.itemsToFetch
      else n.itemsToFetch.orderedInsert PrioritizedItem.Before
        ⟨i, n.itemsToFetchSequenceCounter, now⟩
    itemsToFetchSequenceCounter := n.itemsToFetchSequenceCounter + 1 }

/-! ### Fetching items -/

/-- `fetch_messages_to_send_set`, by `number_of_items`. -/
abbrev ItemsByPeer := List (PeerId × List ItemId)

/-- `modify` of the entry of `p`, which keeps its place if the next one has not less items. -/
def giveItem (p : PeerId) (i : ItemId) : ItemsByPeer → ItemsByPeer
  | [] => []
  | (q, items) :: rest =>
    if q = p then
      let items := items ++ [i]
      match rest with
      | [] => [(q, items)]
      | next :: _ =>
        if items.length ≤ next.2.length then (q, items) :: rest
        else rest.takeWhile (fun e => decide (e.2.length ≤ items.length)) ++ (q, items) ::
          rest.dropWhile fun e => decide (e.2.length ≤ items.length)
    else (q, items) :: giveItem p i rest

/-- The loop over the items to fetch: the peers, `items_by_peer` and the items that stay. -/
structure Fetching where
  peers : PeerId → Peer
  itemsByPeer : ItemsByPeer
  kept : List PrioritizedItem

/-- The peer that an item is requested from, with the least requests of those that have it. -/
def Fetching.provider (s : Fetching) (i : ItemId) : Option PeerId :=
  (s.itemsByPeer.find? fun e => decide (e.2.length < maxItemsPerPeer) &&
    hasItem (s.peers e.1).inventoryPeerAdvertisedToUs i).map Prod.fst

/-- A round of the loop; an item that is too old is dropped. -/
def fetchItem (oldest : Nat) (s : Fetching) (i : PrioritizedItem) : Fetching :=
  if i.timestamp < oldest then s
  else
    match s.provider i.item with
    | some p =>
      { s with
        peers := Function.update s.peers p { s.peers p with
          itemsRequestedFromPeer := i.item :: (s.peers p).itemsRequestedFromPeer }
        itemsByPeer := giveItem p i.item s.itemsByPeer }
    | none => { s with kept := s.kept ++ [i] }

/-- An iteration of `fetch_items_loop`. -/
def fetchItems (n : Node) (now recentBlockInterval : Nat) : Node × List Output :=
  let idlePeers := n.active.filter fun p => (n.peers p).idle
  let s := n.itemsToFetch.foldl
    (fetchItem (now - recentBlockInterval * messageCacheDuration * second))
    ⟨n.peers, idlePeers.map fun p => (p, []), []⟩
  ({ n with peers := s.peers, itemsToFetch := s.kept },
    s.itemsByPeer.flatMap fun e =>
      (groupByType e.2).map fun g => .fetchItems e.1 g.1 g.2)

/-! ### Fetching blocks while syncing -/

/-- The loop over `ids_of_items_to_get` of a peer: the ids that are requested, after `picked`. -/
def pickSyncItems (n : Node) (chosen : List Nat) : List Nat → List Nat → List Nat
  | [], picked => picked
  | id :: ids, picked =>
    if id ∉ n.receivedSyncItems ∧ id ∉ chosen ++ picked ∧ id ∉ n.activeSyncRequests then
      if n.maximumBlocksPerPeer ≤ (picked ++ [id]).length then picked ++ [id]
      else pickSyncItems n chosen ids (picked ++ [id])
    else pickSyncItems n chosen ids picked

/-- The loop over the active peers: `sync_item_requests_to_send`. -/
def syncItemRequests (n : Node) : List PeerId → List Nat → List (PeerId × List Nat)
  | [], _ => []
  | p :: ps, chosen =>
    if (n.peers p).sync.weNeedSyncItemsFromPeer ∧ (n.peers p).idle ∧
        ¬(n.peers p).sync.inhibitFetchingSyncBlocks then
      let picked := n.pickSyncItems chosen (n.peers p).sync.idsOfItemsToGet []
      if picked = [] then syncItemRequests n ps chosen
      else (p, picked) :: syncItemRequests n ps (chosen ++ picked)
    else syncItemRequests n ps chosen

/-- `request_sync_items_from_peer` -/
def requestSyncItems (n : Node) (request : PeerId × List Nat) : Node :=
  { n.modifyPeer request.1 fun p =>
      { p with syncItemsRequestedFromPeer := p.syncItemsRequestedFromPeer ++ request.2 } with
    activeSyncRequests := n.activeSyncRequests ++ request.2 }

/-- An iteration of `fetch_sync_items_loop`. -/
def fetchSyncItems (n : Node) : Node × List Output :=
  if n.suspendFetchingSyncBlocks then (n, [])
  else
    let requests := n.syncItemRequests n.active []
    (requests.foldl requestSyncItems n, requests.map fun e => .fetchSyncItems e.1 e.2)

/-! ### Advertising -/

def itemsToAdvertise (n : Node) (p : PeerId) : List ItemId :=
  if (n.peers p).sync.peerNeedsSyncItemsFromUs then []
  else n.newInventory.filter fun i => !hasItem (n.peers p).inventoryAdvertisedToPeer i &&
    !hasItem (n.peers p).inventoryPeerAdvertisedToUs i

/-- An iteration of `advertise_inventory_loop`. -/
def advertiseInventory (n : Node) (now : Nat) : Node × List Output :=
  ({ n with
    peers := fun p =>
      if p ∈ n.active then
        { n.peers p with
          inventoryAdvertisedToPeer := (n.peers p).inventoryAdvertisedToPeer ++
            (n.itemsToAdvertise p).map fun i => (i, now / second) : Peer }.clearOldInventory now
      else n.peers p
    newInventory := [] },
    n.active.flatMap fun p =>
      (groupByType (n.itemsToAdvertise p)).map fun g => .inventory p g.1 g.2)

/-! ### Handlers -/

/-- `broadcast`; the id is that of a block. -/
def broadcast (n : Node) (i : ItemId) (blockId : Option Nat) : Node × List Output :=
  ({ n with
    mostRecentBlocksAccepted :=
      match blockId with
      | some id =>
        (n.mostRecentBlocksAccepted ++ [id]).drop
          (n.mostRecentBlocksAccepted.length + 1 - mostRecentBlocks)
      | none => n.mostRecentBlocksAccepted
    newInventory := if i ∈ n.newInventory then n.newInventory else n.newInventory ++ [i] },
    [.broadcast i])

/-- The loop of `on_item_ids_inventory_message`, which stops when the inventory of the peer is
full. -/
def noteInventory (now : Nat) (p : PeerId) (itemType : Nat) : List Nat → Node → Node
  | [], n => n
  | hash :: hashes, n =>
    let i : ItemId := ⟨itemType, hash⟩
    if n.active.any fun q => hasItem (n.peers q).inventoryAdvertisedToPeer i then
      noteInventory now p itemType hashes n
    else if itemType = trxMessageType ∧
          (n.peers p).isInventoryAdvertisedToUsListFullForTransactions ∨
        (n.peers p).isInventoryAdvertisedToUsListFull then n
    else
      let noted := n.modifyPeer p fun peer => { peer with
        inventoryPeerAdvertisedToUs := insertItem peer.inventoryPeerAdvertisedToUs i (now / second) }
      noteInventory now p itemType hashes
        (if (n.active.any fun q => decide (i ∈ (n.peers q).itemsRequestedFromPeer)) ||
            hasItem n.recentlyFailedItems i then noted
        else if n.itemsToFetch.any (·.item == i) then
          { noted with itemsToFetch := n.itemsToFetch.map fun e =>
              if e.item = i then { e with timestamp := now } else e }
        else noted.insertItemToFetch now i)

def onItemIdsInventoryMessage (n : Node) (now : Nat) (p : PeerId) (itemType : Nat)
    (hashes : List Nat) : Node :=
  noteInventory now p itemType hashes (n.modifyPeer p (Peer.clearOldInventory now))

/-- `disconnect_from_peer` and `move_peer_to_terminating_list`, which leave the connection open. -/
def disconnectFromPeer (n : Node) (p : PeerId) : Node := { n with active := n.active.erase p }

def onItemNotAvailableMessage (n : Node) (now : Nat) (p : PeerId) (i : ItemId) : Node :=
  if i ∈ (n.peers p).itemsRequestedFromPeer then
    let erased := n.modifyPeer p fun peer => { peer with
      itemsRequestedFromPeer := peer.itemsRequestedFromPeer.erase i
      inventoryPeerAdvertisedToUs := eraseItem peer.inventoryPeerAdvertisedToUs i }
    if erased.isItemInAnyPeersInventory i then erased.insertItemToFetch now i else erased
  else if i.itemHash ∈ (n.peers p).syncItemsRequestedFromPeer then
    let erased := n.modifyPeer p fun peer =>
      { peer with syncItemsRequestedFromPeer := peer.syncItemsRequestedFromPeer.erase i.itemHash }
    if (n.peers p).sync.peerNeedsSyncItemsFromUs then
      erased.modifyPeer p fun peer =>
        { peer with sync := { peer.sync with inhibitFetchingSyncBlocks := true } }
    else erased.disconnectFromPeer p
  else n

def startHandling (n : Node) (h : Handling) : Node × List Output :=
  ({ n with handling := n.handling ++ [h] }, [.handle h])

/-- `process_ordinary_message`, up to the call of the delegate. -/
def processOrdinaryMessage (n : Node) (p : PeerId) (i : ItemId) : Node × List Output :=
  if i ∈ (n.peers p).itemsRequestedFromPeer then
    (n.modifyPeer p fun peer =>
      { peer with itemsRequestedFromPeer := peer.itemsRequestedFromPeer.erase i }).startHandling
        ⟨p, i, none⟩
  else (n.disconnectFromPeer p, [])

/-- What follows in `process_block_during_normal_operation` when the block is accepted. -/
def blockAccepted (n : Node) (now : Nat) (i : ItemId) (blockId : Nat) : Node × List Output :=
  (n.clearOldInventories now).broadcast i (some blockId)

/-- `process_block_message`, up to the call of the delegate; the message of a block that was
accepted before is treated as accepted. -/
def processBlockMessage (n : Node) (now : Nat) (p : PeerId) (messageHash blockId : Nat) :
    Node × List Output :=
  let i : ItemId := ⟨blockMessageType, messageHash⟩
  if i ∈ (n.peers p).itemsRequestedFromPeer then
    let erased := n.modifyPeer p fun peer =>
      { peer with itemsRequestedFromPeer := peer.itemsRequestedFromPeer.erase i }
    if blockId ∈ n.mostRecentBlocksAccepted then erased.blockAccepted now i blockId
    else erased.startHandling ⟨p, i, some blockId⟩
  else if blockId ∈ (n.peers p).syncItemsRequestedFromPeer then
    ({ n.modifyPeer p fun peer =>
        { peer with syncItemsRequestedFromPeer := peer.syncItemsRequestedFromPeer.erase blockId }
      with
      activeSyncRequests := n.activeSyncRequests.erase blockId
      receivedSyncItems := blockId :: n.receivedSyncItems }, [.syncBlock p blockId])
  else (n.disconnectFromPeer p, [])

/-- The rest of a handler after the delegate has returned. -/
def delegateReturns (n : Node) (now : Nat) (h : Handling) (verdict : Verdict) :
    Node × List Output :=
  let n := { n with handling := n.handling.erase h }
  match h.blockId, verdict with
  | none, .accepted _ => n.broadcast h.item none
  | none, _ =>
    ({ n with recentlyFailedItems := insertItem n.recentlyFailedItems h.item (now / second) }, [])
  | some id, .accepted contained =>
    { n with
      mostRecentBlocksAccepted :=
        (n.mostRecentBlocksAccepted ++ [id]).drop
          (n.mostRecentBlocksAccepted.length + 1 - mostRecentBlocks)
      itemsToFetch := n.itemsToFetch.filter fun e =>
        !decide (e.item.itemType = trxMessageType ∧ e.item.itemHash ∈ contained) }.blockAccepted
      now h.item id
  -- The synchronization with the peer starts again.
  | some _, .unlinkable => (n, [])
  | some id, .rejected =>
    ({ n with active := (n.active.erase h.peer).filter fun q =>
        !decide ((n.peers q).sync.idsOfItemsToGet.head? = some id) }, [])

/-- `on_connection_closed` -/
def onConnectionClosed (n : Node) (now : Nat) (p : PeerId) : Node :=
  let closed := { n with
    connected := n.connected.erase p
    active := n.active.erase p
    activeSyncRequests :=
      n.activeSyncRequests.filter fun id => !decide (id ∈ (n.peers p).syncItemsRequestedFromPeer) }
  (n.peers p).itemsRequestedFromPeer.foldl (fun n i =>
    if n.isItemInAnyPeersInventory i then n.insertItemToFetch now i else n) closed

end Node

/-! ### Runs -/

/-- What happens to the node.  A peer that was never connected or is closed sends nothing. -/
inductive Event where
  | connect (p : PeerId)
  /-- `move_peer_to_active_list`, after which the set has any order of iteration. -/
  | activate (p : PeerId) (order : List PeerId)
  | setAdvancedNodeParameters (maximumBlocksPerPeer : Nat)
  | itemIdsInventory (p : PeerId) (itemType : Nat) (hashes : List Nat)
  | itemNotAvailable (p : PeerId) (i : ItemId)
  | ordinaryMessage (p : PeerId) (i : ItemId)
  | blockMessage (p : PeerId) (messageHash blockId : Nat)
  | delegateReturns (h : Handling) (verdict : Verdict)
  | fetchItems (recentBlockInterval : Nat)
  | fetchSyncItems
  | advertiseInventory
  /-- `broadcast` by the client. -/
  | broadcast (i : ItemId) (blockId : Option Nat)
  /-- `fetch_updated_peer_lists_loop` -/
  | forgetFailedItems
  /-- The exchange of block ids with a peer. -/
  | sync (p : PeerId) (s : SyncState)
  /-- `process_backlog_of_sync_blocks` and `send_sync_block_to_node_delegate`. -/
  | backlog (received mostRecent : List Nat) (suspend : Bool)
  | disconnect (p : PeerId)
  | closed (p : PeerId)

def Node.step (n : Node) (now : Nat) : Event → Node × List Output
  | .connect p =>
    if p ∈ n.connected then (n, [])
    else ({ n with
      connected := n.connected ++ [p], peers := Function.update n.peers p .fresh }, [])
  | .activate p order =>
    if p ∈ n.connected ∧ p ∉ n.active ∧ order.Perm (p :: n.active) then
      ({ n with active := order }, [])
    else (n, [])
  | .setAdvancedNodeParameters maximum => ({ n with maximumBlocksPerPeer := maximum }, [])
  | .itemIdsInventory p itemType hashes =>
    if p ∈ n.connected then (n.onItemIdsInventoryMessage now p itemType hashes, []) else (n, [])
  | .itemNotAvailable p i =>
    if p ∈ n.connected then (n.onItemNotAvailableMessage now p i, []) else (n, [])
  | .ordinaryMessage p i =>
    if p ∈ n.connected ∧ i.itemType ≠ blockMessageType ∧
        (i.itemType < coreMessageTypeFirst ∨ coreMessageTypeLast < i.itemType) then
      n.processOrdinaryMessage p i
    else (n, [])
  | .blockMessage p messageHash blockId =>
    if p ∈ n.connected then n.processBlockMessage now p messageHash blockId else (n, [])
  | .delegateReturns h verdict =>
    if h ∈ n.handling then n.delegateReturns now h verdict else (n, [])
  | .fetchItems recentBlockInterval => n.fetchItems now recentBlockInterval
  | .fetchSyncItems => n.fetchSyncItems
  | .advertiseInventory => n.advertiseInventory now
  | .broadcast i blockId => n.broadcast i blockId
  | .forgetFailedItems =>
    ({ n with recentlyFailedItems :=
        eraseBefore n.recentlyFailedItems ((now - 15 * 60 * second) / second) }, [])
  | .sync p s => (n.modifyPeer p fun peer => { peer with sync := s }, [])
  | .backlog received mostRecent suspend =>
    ({ n with
      receivedSyncItems := received
      mostRecentBlocksAccepted := mostRecent
      suspendFetchingSyncBlocks := suspend }, [])
  | .disconnect p => (n.disconnectFromPeer p, [])
  | .closed p => if p ∈ n.connected then (n.onConnectionClosed now p, []) else (n, [])

/-- The node after events at the given times, and all that it sent, the first first. -/
def Node.run (n : Node) (es : List (Nat × Event)) : Node × List Output :=
  runMachine (fun n e => n.step e.1 e.2) n es

end Nestchain.Net
