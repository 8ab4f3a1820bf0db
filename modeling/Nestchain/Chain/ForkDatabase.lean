import Nestchain.Chain.Apply
import Mathlib.Logic.Relation
import Mathlib.Data.List.Chain

/-! `fork_database`.  An item is known by the address at which it was allocated, and its weak parent
link by the address of the parent; the link can be locked as long as the parent is in the index, is
the head, or is held by a caller.  No block enters the unlinked index, which is left out. -/

namespace Nestchain.Chain

variable {ω ρ : Type}

/-- `fork_item`, with the address of the item and the address in `prev`. -/
structure ForkItem (ω : Type) where
  ptr : Nat
  prev : Option Nat
  num : Nat
  id : BlockId
  data : SignedBlock ω
deriving DecidableEq

/-- `fork_database`, with the next address. -/
structure ForkDatabase (ω : Type) where
  maxSize : Nat
  index : List (ForkItem ω)
  head : Option (ForkItem ω)
  nextPtr : Nat

/-- The item that `make_shared<fork_item>(b)` allocates, linked to `prev`. -/
def Rules.forkItem (r : Rules ω ρ) (ptr : Nat) (prev : Option Nat) (b : SignedBlock ω) :
    ForkItem ω where
  ptr := ptr
  prev := prev
  num := b.blockNum
  id := r.blockId b.toBlockHeader
  data := b

namespace ForkDatabase

def fetchBlock (f : ForkDatabase ω) (id : BlockId) : Option (ForkItem ω) :=
  f.index.find? (·.id = id)

/-- `_index.insert`, which refuses an id that is there. -/
def insert (f : ForkDatabase ω) (item : ForkItem ω) : ForkDatabase ω :=
  if (f.fetchBlock item.id).isSome then f else { f with index := f.index ++ [item] }

def prune (f : ForkDatabase ω) (minNum : Nat) : ForkDatabase ω :=
  { f with index := f.index.filter fun i => decide (minNum ≤ i.num) }

/-- `start_block`. -/
def startBlock (r : Rules ω ρ) (f : ForkDatabase ω) (b : SignedBlock ω) : ForkDatabase ω :=
  let item := r.forkItem f.nextPtr none b
  { f.insert item with head := some item, nextPtr := f.nextPtr + 1 }

/-- The parent link of a block, or `none` when it does not link to a known block. -/
def link (f : ForkDatabase ω) (b : SignedBlock ω) : Option (Option Nat) :=
  if f.head.isSome ∧ b.previous ≠ BlockId.zero then
    (f.fetchBlock b.previous).map fun p => some p.ptr
  else some none

/-- The block is within the range that is cached. -/
def inRange (f : ForkDatabase ω) (b : SignedBlock ω) : Bool :=
  match f.head with
  | some h => decide (b.blockNum > h.num - f.maxSize)
  | none => true

/-- The end of `_push_block`: the item is inserted, and becomes the head when it is higher. -/
def pushItem (f : ForkDatabase ω) (item : ForkItem ω) : ForkDatabase ω :=
  let inserted := { f.insert item with nextPtr := f.nextPtr + 1 }
  match f.head with
  | none => { inserted with head := some item }
  | some h =>
    if item.num > h.num then
      ({ inserted with head := some item } : ForkDatabase ω).prune
        (item.num - min f.maxSize item.num)
    else inserted

/-- `push_block`, or `none` when it throws. -/
def pushBlock (r : Rules ω ρ) (f : ForkDatabase ω) (b : SignedBlock ω) :
    Option (ForkDatabase ω) :=
  if f.inRange b then (f.link b).map fun prev => f.pushItem (r.forkItem f.nextPtr prev b)
  else none

/-- `set_max_size`. -/
def setMaxSize (f : ForkDatabase ω) (n : Nat) : ForkDatabase ω :=
  match f.head with
  | none => { f with maxSize := n }
  | some h => ({ f with maxSize := n } : ForkDatabase ω).prune (h.num - n)

/-- `weak_ptr::lock`, while the caller holds the items `held`. -/
def lock (f : ForkDatabase ω) (held : List (ForkItem ω)) (prev : Option Nat) :
    Option (ForkItem ω) :=
  prev.bind fun p => (f.index ++ f.head.toList ++ held).find? (·.ptr = p)

/-- `pop_block`, or `none` when it throws. -/
def popBlock (f : ForkDatabase ω) (held : List (ForkItem ω)) : Option (ForkDatabase ω) := do
  let h ← f.head
  let prev ← f.lock held h.prev
  return { f with head := some prev }

/-- `set_head`. -/
def setHead (f : ForkDatabase ω) (h : Option (ForkItem ω)) : ForkDatabase ω := { f with head := h }

/-- `remove`. -/
def remove (f : ForkDatabase ω) (id : BlockId) : ForkDatabase ω :=
  { f with index := f.index.filter fun i => decide (i.id ≠ id) }

/-- The loop of `remove` over the blocks of an invalid branch. -/
def removeAll (f : ForkDatabase ω) (bad : List (ForkItem ω)) : ForkDatabase ω :=
  bad.foldl (fun f i => ForkDatabase.remove f i.id) f

/-- The first two loops of `fetch_branch_from`: the items above block number `num`, and the item
that follows them. -/
def climb (f : ForkDatabase ω) : Nat → ForkItem ω → Nat → Option (List (ForkItem ω) × ForkItem ω)
  | 0, _, _ => none
  | fuel + 1, item, num =>
    if item.num > num then do
      let p ← f.lock [] item.prev
      let (branch, last) ← f.climb fuel p num
      return (item :: branch, last)
    else some ([], item)

/-- The last loop of `fetch_branch_from`, down to two items with the same previous block. -/
def meet (f : ForkDatabase ω) :
    Nat → ForkItem ω → ForkItem ω → Option (List (ForkItem ω) × List (ForkItem ω))
  | 0, _, _ => none
  | fuel + 1, first, second =>
    if first.data.previous ≠ second.data.previous then do
      let p ← f.lock [] first.prev
      let q ← f.lock [] second.prev
      let (l, l') ← f.meet fuel p q
      return (first :: l, second :: l')
    else some ([first], [second])

/-- `fetch_branch_from`, or `none` when it throws.  A parent is one block lower, so the loops take
at most as many steps as the higher block's number. -/
def fetchBranchFrom (f : ForkDatabase ω) (first second : BlockId) :
    Option (List (ForkItem ω) × List (ForkItem ω)) := do
  let a ← f.fetchBlock first
  let b ← f.fetchBlock second
  let (l1, a') ← f.climb (a.num + 1) a b.num
  let (l2, b') ← f.climb (b.num + 1) b a'.num
  let (l1', l2') ← f.meet (a'.num + 1) a' b'
  return (l1 ++ l1', l2 ++ l2')

end ForkDatabase

/-! ### What every fork database keeps -/

/-- `f` uses the items in `heap`, all that were ever allocated: an address belongs to one item, and
a parent link to the block of the item's previous id. -/
structure ForkHeap (r : Rules ω ρ) (heap : List (ForkItem ω)) (f : ForkDatabase ω) : Prop where
  index : ∀ i ∈ f.index, i ∈ heap
  head : ∀ h, f.head = some h → h ∈ heap
  fresh : ∀ i ∈ heap, i.ptr < f.nextPtr
  unique : ∀ i ∈ heap, ∀ j ∈ heap, i.ptr = j.ptr → i = j
  linked : ∀ i ∈ heap, ∀ p, i.prev = some p → ∃ j ∈ heap, j.ptr = p ∧ j.id = i.data.previous
  item : ∀ i ∈ heap, i.num = i.data.blockNum ∧ i.id = r.blockId i.data.toBlockHeader
  ids : ∀ i ∈ f.index, ∀ j ∈ f.index, i.id = j.id → i = j

namespace ForkHeap

variable {r : Rules ω ρ} {f f' : ForkDatabase ω} {heap : List (ForkItem ω)}

theorem num (h : ForkHeap r heap f) {i : ForkItem ω} (hi : i ∈ heap) :
    i.num = i.data.blockNum ∧ i.id.num = i.num := by
  obtain ⟨hnum, hid⟩ := h.item i hi
  exact ⟨hnum, by rw [hid, hnum]; rfl⟩

theorem shrink (h : ForkHeap r heap f) (hindex : ∀ i ∈ f'.index, i ∈ f.index)
    (hhead : ∀ i, f'.head = some i → i ∈ heap) (hptr : f'.nextPtr = f.nextPtr) :
    ForkHeap r heap f' where
  index i hi := h.index i (hindex i hi)
  head := hhead
  fresh := hptr ▸ h.fresh
  unique := h.unique
  linked := h.linked
  item := h.item
  ids i hi j hj := h.ids i (hindex i hi) j (hindex j hj)

theorem prune (h : ForkHeap r heap f) (n : Nat) : ForkHeap r heap (f.prune n) :=
  h.shrink (fun _ hi => (List.mem_filter.mp hi).1) h.head rfl

theorem setMaxSize (h : ForkHeap r heap f) (n : Nat) : ForkHeap r heap (f.setMaxSize n) := by
  have h' : ForkHeap r heap { f with maxSize := n } := h.shrink (fun _ hi => hi) h.head rfl
  unfold ForkDatabase.setMaxSize
  split
  · exact h'
  · exact h'.prune _

theorem remove (h : ForkHeap r heap f) (id : BlockId) : ForkHeap r heap (f.remove id) :=
  h.shrink (fun _ hi => (List.mem_filter.mp hi).1) h.head rfl

theorem setHead (h : ForkHeap r heap f) {i : Option (ForkItem ω)}
    (hi : ∀ x, i = some x → x ∈ heap) :
    ForkHeap r heap (f.setHead i) :=
  h.shrink (fun _ hi => hi) hi rfl

theorem fetchBlock_mem {id : BlockId} {i : ForkItem ω} (hi : f.fetchBlock id = some i) :
    i ∈ f.index ∧ i.id = id :=
  ⟨List.mem_of_find?_eq_some hi, by simpa using List.find?_some hi⟩

theorem fetchBlock_eq (h : ForkHeap r heap f) {i : ForkItem ω} (hi : i ∈ f.index) :
    f.fetchBlock i.id = some i := by
  cases hf : f.fetchBlock i.id with
  | none => simpa using List.find?_eq_none.mp hf i hi
  | some j =>
    obtain ⟨hj, hid⟩ := fetchBlock_mem hf
    rw [h.ids j hj i hi hid]

theorem lock (h : ForkHeap r heap f) {held : List (ForkItem ω)} (hheld : ∀ i ∈ held, i ∈ heap)
    {i p : ForkItem ω} (hi : i ∈ heap) (hp : f.lock held i.prev = some p) :
    p ∈ heap ∧ i.prev = some p.ptr ∧ p.id = i.data.previous ∧ i.num = p.num + 1 := by
  obtain ⟨q, hq, hfind⟩ := Option.bind_eq_some_iff.mp hp
  have hmem := List.mem_of_find?_eq_some hfind
  have hptr : p.ptr = q := by simpa using List.find?_some hfind
  have hheap : p ∈ heap := by
    simp only [List.mem_append, Option.mem_toList] at hmem
    rcases hmem with (hm | hm) | hm
    · exact h.index p hm
    · exact h.head p hm
    · exact hheld p hm
  obtain ⟨j, hj, hjptr, hjid⟩ := h.linked i hi q hq
  obtain rfl : j = p := h.unique j hj p hheap (hjptr.trans hptr.symm)
  refine ⟨hheap, hptr ▸ hq, hjid, ?_⟩
  rw [(h.num hi).1, ← (h.num hheap).2, hjid]
  rfl

theorem lock_eq (h : ForkHeap r heap f) {held : List (ForkItem ω)} (hheld : ∀ i ∈ held, i ∈ heap)
    {p : ForkItem ω} (hp : p ∈ f.index ∨ f.head = some p ∨ p ∈ held) {i : ForkItem ω}
    (hi : i.prev = some p.ptr) : f.lock held i.prev = some p := by
  have hheap : ∀ j ∈ f.index ++ f.head.toList ++ held, j ∈ heap := by
    simp only [List.mem_append, Option.mem_toList]
    rintro j ((hj | hj) | hj)
    · exact h.index j hj
    · exact h.head j hj
    · exact hheld j hj
  have hmem : p ∈ f.index ++ f.head.toList ++ held := by
    simp only [List.mem_append, Option.mem_toList]
    tauto
  rw [hi]
  show (f.index ++ f.head.toList ++ held).find? (·.ptr = p.ptr) = some p
  cases hf : (f.index ++ f.head.toList ++ held).find? (·.ptr = p.ptr) with
  | none => simpa using List.find?_eq_none.mp hf p hmem
  | some j =>
    have hj := List.mem_of_find?_eq_some hf
    rw [h.unique j (hheap j hj) p (hheap p hmem) (by simpa using List.find?_some hf)]

theorem popBlock (h : ForkHeap r heap f) {held : List (ForkItem ω)} (hheld : ∀ i ∈ held, i ∈ heap)
    (hf : f.popBlock held = some f') : ForkHeap r heap f' := by
  simp only [ForkDatabase.popBlock, Option.bind_eq_bind, Option.bind_eq_some_iff] at hf
  obtain ⟨i, hi, p, hp, hf'⟩ := hf
  cases hf'
  exact h.setHead fun x hx => by
    cases hx
    exact (h.lock hheld (h.head i hi) hp).1

theorem insert (h : ForkHeap r heap f) {item : ForkItem ω} (hptr : item.ptr = f.nextPtr)
    (hlink : ∀ p, item.prev = some p → ∃ j ∈ heap, j.ptr = p ∧ j.id = item.data.previous)
    (hnum : item.num = item.data.blockNum ∧ item.id = r.blockId item.data.toBlockHeader) :
    ForkHeap r (item :: heap) { f.insert item with nextPtr := f.nextPtr + 1 } := by
  have hindex : ∀ i ∈ (f.insert item).index,
      i ∈ f.index ∨ i = item ∧ ∀ j ∈ f.index, j.id ≠ item.id := by
    intro i hi
    unfold ForkDatabase.insert at hi
    split at hi
    · exact Or.inl hi
    · rename_i hnone
      rcases List.mem_append.mp hi with hi | hi
      · exact Or.inl hi
      · refine Or.inr ⟨by simpa using hi, fun j hj hid => hnone ?_⟩
        rw [← hid, h.fetchBlock_eq hj]
        rfl
  have hhead : (f.insert item).head = f.head := by
    unfold ForkDatabase.insert
    split <;> rfl
  refine ⟨fun i hi => ?_, fun i hi => ?_, fun i hi => ?_, fun i hi j hj hij => ?_,
    fun i hi p hp => ?_, fun i hi => ?_, fun i hi j hj hij => ?_⟩
  · rcases hindex i hi with hi | ⟨rfl, -⟩
    · exact List.mem_cons_of_mem _ (h.index i hi)
    · exact List.mem_cons_self
  · exact List.mem_cons_of_mem _ (h.head i (hhead ▸ hi))
  · rcases List.mem_cons.mp hi with rfl | hi
    · exact Nat.lt_succ_of_le hptr.le
    · exact Nat.lt_succ_of_lt (h.fresh i hi)
  · rcases List.mem_cons.mp hi with rfl | hi' <;> rcases List.mem_cons.mp hj with rfl | hj'
    · rfl
    · exact absurd (h.fresh j hj') (by omega)
    · exact absurd (h.fresh i hi') (by omega)
    · exact h.unique i hi' j hj' hij
  · rcases List.mem_cons.mp hi with rfl | hi
    · obtain ⟨j, hj, hj'⟩ := hlink p hp
      exact ⟨j, List.mem_cons_of_mem _ hj, hj'⟩
    · obtain ⟨j, hj, hj'⟩ := h.linked i hi p hp
      exact ⟨j, List.mem_cons_of_mem _ hj, hj'⟩
  · rcases List.mem_cons.mp hi with rfl | hi
    · exact hnum
    · exact h.item i hi
  · rcases hindex i hi with hi' | ⟨rfl, hi'⟩ <;> rcases hindex j hj with hj' | ⟨rfl, hj'⟩
    · exact h.ids i hi' j hj' hij
    · exact absurd hij (hj' i hi')
    · exact absurd hij.symm (hi' j hj')
    · rfl

theorem pushBlock (h : ForkHeap r heap f) {b : SignedBlock ω} (hf : f.pushBlock r b = some f') :
    ∃ item, item.data = b ∧ item.id = r.blockId b.toBlockHeader ∧ ForkHeap r (item :: heap) f' := by
  unfold ForkDatabase.pushBlock at hf
  split at hf
  · obtain ⟨prev, hprev, rfl⟩ := Option.map_eq_some_iff.mp hf
    refine ⟨r.forkItem f.nextPtr prev b, rfl, rfl, ?_⟩
    have hlink : ∀ p, (r.forkItem f.nextPtr prev b).prev = some p →
        ∃ j ∈ heap, j.ptr = p ∧ j.id = b.previous := by
      intro p hp
      unfold ForkDatabase.link at hprev
      split at hprev
      · obtain ⟨q, hq, rfl⟩ := Option.map_eq_some_iff.mp hprev
        obtain ⟨hqmem, hqid⟩ := fetchBlock_mem hq
        exact ⟨q, h.index q hqmem, Option.some.inj hp, hqid⟩
      · cases hprev
        cases hp
    have hins : ForkHeap r (r.forkItem f.nextPtr prev b :: heap)
        { f.insert (r.forkItem f.nextPtr prev b) with nextPtr := f.nextPtr + 1 } :=
      h.insert rfl hlink ⟨rfl, rfl⟩
    unfold ForkDatabase.pushItem
    split
    · exact hins.setHead fun x hx => by cases hx; exact List.mem_cons_self
    · split
      · exact (hins.setHead (i := some (r.forkItem f.nextPtr prev b)) fun x hx => by
          cases hx; exact List.mem_cons_self).prune _
      · exact hins
  · cases hf

end ForkHeap

/-! ### Branches -/

/-- Following the parent links from `a` visits the items `l` and arrives at `last`. -/
inductive Walk (f : ForkDatabase ω) : ForkItem ω → List (ForkItem ω) → ForkItem ω → Prop
  | here (a : ForkItem ω) : Walk f a [] a
  | up {a p last : ForkItem ω} {l : List (ForkItem ω)} (hp : f.lock [] a.prev = some p)
      (h : Walk f p l last) : Walk f a (a :: l) last

/-- A branch, tip first: each block's previous block is the next one. -/
def Branch (l : List (ForkItem ω)) : Prop :=
  l.IsChain fun i p => p.id = i.data.previous ∧ i.num = p.num + 1

/-- `p` is the parent of `i` inside the index. -/
def Parent (f : ForkDatabase ω) (i p : ForkItem ω) : Prop :=
  p ∈ f.index ∧ i.prev = some p.ptr

/-- `p` is `i` or an ancestor of it inside the index. -/
def Ancestor (f : ForkDatabase ω) : ForkItem ω → ForkItem ω → Prop :=
  Relation.ReflTransGen (Parent f)

section Branches

variable {r : Rules ω ρ} {f : ForkDatabase ω} {heap : List (ForkItem ω)}

theorem climb_walk (hheap : ForkHeap r heap f) {fuel num : Nat} {a last : ForkItem ω}
    {l : List (ForkItem ω)} (ha : a ∈ heap) (h : f.climb fuel a num = some (l, last)) :
    Walk f a l last ∧ last.num = min a.num num ∧ (a.num ≤ num → l = []) := by
  induction fuel generalizing a l with
  | zero => cases h
  | succ fuel ih =>
    rw [ForkDatabase.climb] at h
    split at h
    · rename_i hlt
      simp only [Option.bind_eq_bind, Option.bind_eq_some_iff] at h
      obtain ⟨p, hp, ⟨l', last'⟩, hrec, heq⟩ := h
      cases heq
      obtain ⟨hpmem, -, -, hnum⟩ := hheap.lock (by simp) ha hp
      obtain ⟨hwalk, hmin, -⟩ := ih hpmem hrec
      exact ⟨.up hp hwalk, by omega, fun hge => by omega⟩
    · rename_i hge
      cases h
      exact ⟨.here _, by omega, fun _ => rfl⟩

theorem meet_walk {fuel : Nat} {a b : ForkItem ω} {l l' : List (ForkItem ω)}
    (h : f.meet fuel a b = some (l, l')) :
    ∃ m m' x y, Walk f a m x ∧ Walk f b m' y ∧ l = m ++ [x] ∧ l' = m' ++ [y] ∧
      x.data.previous = y.data.previous ∧
      (m = [] ∧ m' = [] ∨ ∃ u v, f.lock [] u.prev = some x ∧ f.lock [] v.prev = some y ∧
        u ∈ m ∧ v ∈ m' ∧ u.data.previous ≠ v.data.previous) := by
  induction fuel generalizing a b l l' with
  | zero => cases h
  | succ fuel ih =>
    rw [ForkDatabase.meet] at h
    split at h
    · rename_i hne
      simp only [Option.bind_eq_bind, Option.bind_eq_some_iff] at h
      obtain ⟨p, hp, q, hq, ⟨k, k'⟩, hrec, heq⟩ := h
      cases heq
      obtain ⟨m, m', x, y, hm, hm', rfl, rfl, hprev, hlast⟩ := ih hrec
      refine ⟨a :: m, b :: m', x, y, .up hp hm, .up hq hm', rfl, rfl, hprev, Or.inr ?_⟩
      rcases hlast with ⟨rfl, rfl⟩ | ⟨u, v, hu, hv, hum, hvm, huv⟩
      · cases hm
        cases hm'
        exact ⟨a, b, hp, hq, by simp, by simp, hne⟩
      · exact ⟨u, v, hu, hv, List.mem_cons_of_mem _ hum, List.mem_cons_of_mem _ hvm, huv⟩
    · rename_i heq
      cases h
      exact ⟨[], [], _, _, .here _, .here _, rfl, rfl, not_not.mp heq, Or.inl ⟨rfl, rfl⟩⟩

theorem Walk.branch (h : ForkHeap r heap f) {a last : ForkItem ω} {l : List (ForkItem ω)}
    (hw : Walk f a l last) (ha : a ∈ heap) :
    Branch (l ++ [last]) ∧ (∀ i ∈ l ++ [last], i ∈ heap) ∧ (l ++ [last]).head? = some a := by
  induction hw with
  | here a => exact ⟨List.isChain_singleton a, by simpa using ha, rfl⟩
  | @up a p last l hp hw ih =>
    obtain ⟨hpmem, -, hpid, hnum⟩ := h.lock (by simp) ha hp
    obtain ⟨hb, hmem, hhead⟩ := ih hpmem
    refine ⟨?_, fun i hi => ?_, rfl⟩
    · refine List.isChain_cons.mpr ⟨fun y hy => ?_, hb⟩
      obtain rfl : p = y := Option.some.inj (hhead.symm.trans hy)
      exact ⟨hpid, hnum⟩
    · rcases List.mem_cons.mp hi with rfl | hi
      · exact ha
      · exact hmem i hi

theorem Walk.append {a b c : ForkItem ω} {l m : List (ForkItem ω)} (h : Walk f a l b)
    (h' : Walk f b m c) : Walk f a (l ++ m) c := by
  induction h with
  | here => exact h'
  | up hp _ ih => exact .up hp (ih h')

/-- What `fetch_branch_from` returns: two branches from the given blocks down to blocks with the
same previous block. -/
theorem fetchBranchFrom_branches (h : ForkHeap r heap f) {first second : BlockId}
    {l l' : List (ForkItem ω)} (hf : f.fetchBranchFrom first second = some (l, l')) :
    ∃ a b x y m m', f.fetchBlock first = some a ∧ f.fetchBlock second = some b ∧
      Walk f a m x ∧ Walk f b m' y ∧ l = m ++ [x] ∧ l' = m' ++ [y] ∧
      x.data.previous = y.data.previous ∧
      (x.id = y.id → m = [] ∨ m' = []) := by
  simp only [ForkDatabase.fetchBranchFrom, Option.bind_eq_bind, Option.bind_eq_some_iff] at hf
  obtain ⟨a, ha, b, hb, ⟨l1, a'⟩, h1, ⟨l2, b'⟩, h2, ⟨l3, l4⟩, h3, heq⟩ := hf
  cases heq
  simp only at h2 h3
  have hah := h.index a (ForkHeap.fetchBlock_mem ha).1
  have hbh := h.index b (ForkHeap.fetchBlock_mem hb).1
  obtain ⟨w1, hmin1, hnil1⟩ := climb_walk h hah h1
  obtain ⟨w2, -, hnil2⟩ := climb_walk h hbh h2
  obtain ⟨m, m', x, y, w3, w4, rfl, rfl, hprev, hlast⟩ := meet_walk h3
  refine ⟨a, b, x, y, l1 ++ m, l2 ++ m', ha, hb, w1.append w3, w2.append w4,
    by simp, by simp, hprev, fun hid => ?_⟩
  rcases hlast with ⟨rfl, rfl⟩ | ⟨u, v, hu, hv, hum, hvm, huv⟩
  · -- One of the first two loops did nothing, for the branches are level after them.
    by_cases hle : a.num ≤ b.num
    · exact Or.inl (by simp [hnil1 hle])
    · exact Or.inr (by simp [hnil2 (by omega)])
  · -- The last loop went on from different previous blocks, so it ended at different blocks.
    have hu' := (w1.append w3).branch h hah
    have hv' := (w2.append w4).branch h hbh
    have huh : u ∈ heap := hu'.2.1 u (by simp [hum])
    have hvh : v ∈ heap := hv'.2.1 v (by simp [hvm])
    refine absurd ?_ huv
    rw [← (h.lock (by simp) huh hu).2.2.1, hid, (h.lock (by simp) hvh hv).2.2.1]

theorem Parent.num (h : ForkHeap r heap f) {i p : ForkItem ω} (hi : i ∈ heap) (hp : Parent f i p) :
    f.lock [] i.prev = some p ∧ p ∈ heap ∧ i.num = p.num + 1 := by
  have hl : f.lock [] i.prev = some p := h.lock_eq (by simp) (Or.inl hp.1) hp.2
  exact ⟨hl, h.index p hp.1, (h.lock (by simp) hi hl).2.2.2⟩

theorem Ancestor.eq_or_parent (h : ForkHeap r heap f) {a p : ForkItem ω} (ha : a ∈ heap)
    (hp : Ancestor f a p) : a = p ∨ p.num < a.num ∧ ∃ q, Parent f a q ∧ Ancestor f q p := by
  induction hp using Relation.ReflTransGen.head_induction_on with
  | refl => exact Or.inl rfl
  | @head a q hq hqp ih =>
    obtain ⟨-, hqh, hnum⟩ := hq.num h ha
    refine Or.inr ⟨?_, q, hq, hqp⟩
    rcases ih hqh with rfl | ⟨hlt, -⟩
    · omega
    · omega

theorem climb_ancestor (h : ForkHeap r heap f) {a p : ForkItem ω} {fuel num : Nat} (ha : a ∈ heap)
    (hp : Ancestor f a p) (hfuel : a.num < fuel) (hnum : p.num ≤ num) :
    ∃ l last, f.climb fuel a num = some (l, last) ∧ Ancestor f a last ∧ Ancestor f last p := by
  induction fuel generalizing a with
  | zero => omega
  | succ fuel ih =>
    rw [ForkDatabase.climb]
    split
    · rename_i hlt
      rcases hp.eq_or_parent h ha with rfl | ⟨-, q, hq, hqp⟩
      · omega
      · obtain ⟨hlock, hqh, hqnum⟩ := hq.num h ha
        obtain ⟨l, last, hl, h1, h2⟩ := ih hqh hqp (by omega)
        exact ⟨a :: l, last, by simp [hlock, hl], .head hq h1, h2⟩
    · exact ⟨[], a, rfl, .refl, hp⟩

theorem meet_ancestor (h : ForkHeap r heap f) {a b p q : ForkItem ω} {fuel : Nat} (ha : a ∈ heap)
    (hb : b ∈ heap) (hap : Ancestor f a p) (hbq : Ancestor f b q)
    (hpq : p.data.previous = q.data.previous) (hph : p ∈ heap) (hqh : q ∈ heap)
    (hnum : a.num = b.num) (hfuel : a.num < fuel) :
    ∃ m m' x y, f.meet fuel a b = some (m ++ [x], m' ++ [y]) ∧ Ancestor f a x ∧
      Ancestor f b y := by
  induction fuel generalizing a b with
  | zero => omega
  | succ fuel ih =>
    rw [ForkDatabase.meet]
    split
    · rename_i hne
      have hlevel : p.num = q.num := by
        rw [(h.num hph).1, (h.num hqh).1, BlockHeader.blockNum, BlockHeader.blockNum, hpq]
      rcases hap.eq_or_parent h ha with rfl | ⟨hlt, a1, ha1, ha1p⟩ <;>
        rcases hbq.eq_or_parent h hb with rfl | ⟨hlt', b1, hb1, hb1q⟩
      · exact absurd hpq hne
      · omega
      · omega
      · obtain ⟨hl, hah, han⟩ := ha1.num h ha
        obtain ⟨hl', hbh, hbn⟩ := hb1.num h hb
        obtain ⟨m, m', x, y, hm, hx, hy⟩ := ih hah hbh ha1p hb1q (by omega) (by omega)
        exact ⟨a :: m, b :: m', x, y, by simp [hl, hl', hm], .head ha1 hx, .head hb1 hy⟩
    · exact ⟨[], [], a, b, rfl, .refl, .refl⟩

theorem Ancestor.mem_index {a p : ForkItem ω} (ha : a ∈ f.index) (hp : Ancestor f a p) :
    p ∈ f.index := by
  induction hp with
  | refl => exact ha
  | tail _ hp _ => exact hp.1

/-- For two blocks of the index whose ancestries inside it meet, `fetch_branch_from` returns a
branch from each of them, ending at blocks with the same previous block; these are different blocks
when neither of the two is an ancestor of the other. -/
theorem fetchBranchFrom_meets (h : ForkHeap r heap f) {a b p q : ForkItem ω} (ha : a ∈ f.index)
    (hb : b ∈ f.index) (hap : Ancestor f a p) (hbq : Ancestor f b q)
    (hpq : p.data.previous = q.data.previous) :
    ∃ l l' x y, f.fetchBranchFrom a.id b.id = some (l ++ [x], l' ++ [y]) ∧
      (l ++ [x]).head? = some a ∧ (l' ++ [y]).head? = some b ∧ Branch (l ++ [x]) ∧
      Branch (l' ++ [y]) ∧ x.data.previous = y.data.previous ∧
      (¬Ancestor f a b → ¬Ancestor f b a → x.id ≠ y.id) := by
  have hah := h.index a ha
  have hbh := h.index b hb
  have hpi := hap.mem_index ha
  have hqi := hbq.mem_index hb
  have hlevel : p.num = q.num := by
    rw [(h.num (h.index p hpi)).1, (h.num (h.index q hqi)).1, BlockHeader.blockNum,
      BlockHeader.blockNum, hpq]
  have hqb : q.num ≤ b.num := by
    rcases hbq.eq_or_parent h hbh with rfl | ⟨hlt, -⟩
    · exact le_rfl
    · omega
  obtain ⟨l1, a', h1, haa', ha'p⟩ :=
    climb_ancestor h hah hap (Nat.lt_succ_self _) (hlevel ▸ hqb : p.num ≤ b.num)
  have ha'h := h.index a' (haa'.mem_index ha)
  have hpa' : p.num ≤ a'.num := by
    rcases ha'p.eq_or_parent h ha'h with rfl | ⟨hlt, -⟩
    · exact le_rfl
    · omega
  obtain ⟨l2, b', h2, hbb', hb'q⟩ :=
    climb_ancestor h hbh hbq (Nat.lt_succ_self _) (hlevel ▸ hpa' : q.num ≤ a'.num)
  have hb'h := h.index b' (hbb'.mem_index hb)
  obtain ⟨-, hmin1, -⟩ := climb_walk h hah h1
  obtain ⟨-, hmin2, -⟩ := climb_walk h hbh h2
  obtain ⟨m, m', x, y, h3, hx, hy⟩ := meet_ancestor h ha'h hb'h ha'p hb'q hpq
    (h.index p hpi) (h.index q hqi) (by omega) (Nat.lt_succ_self _)
  have hfetch : f.fetchBranchFrom a.id b.id = some ((l1 ++ m) ++ [x], (l2 ++ m') ++ [y]) := by
    simp [ForkDatabase.fetchBranchFrom, h.fetchBlock_eq ha, h.fetchBlock_eq hb, h1, h2, h3]
  obtain ⟨a0, b0, x0, y0, k, k', ha0, hb0, hw, hw', hk, hk', hprev, hdist⟩ :=
    fetchBranchFrom_branches h hfetch
  obtain rfl : a = a0 := Option.some.inj ((h.fetchBlock_eq ha).symm.trans ha0)
  obtain rfl : b = b0 := Option.some.inj ((h.fetchBlock_eq hb).symm.trans hb0)
  obtain ⟨rfl, hxx⟩ := List.append_inj' hk rfl
  obtain ⟨rfl, hyy⟩ := List.append_inj' hk' rfl
  obtain rfl : x = x0 := by simpa using hxx
  obtain rfl : y = y0 := by simpa using hyy
  have hbr := hw.branch h hah
  have hbr' := hw'.branch h hbh
  refine ⟨_, _, x, y, hfetch, hbr.2.2, hbr'.2.2, hbr.1, hbr'.1, hprev, fun hab hba hid => ?_⟩
  have hax : Ancestor f a x := haa'.trans hx
  have hby : Ancestor f b y := hbb'.trans hy
  obtain rfl : x = y := h.ids x (hax.mem_index ha) y (hby.mem_index hb) hid
  rcases hdist hid with hnil | hnil
  · rw [hnil] at hw
    cases hw
    exact hba hby
  · rw [hnil] at hw'
    cases hw'
    exact hab hax

end Branches

end Nestchain.Chain
