import Nestchain.Chain.Dedupe
import Nestchain.Chain.Reachable

/-! Pending transactions.  `push_block` takes the pending transactions away and the restorer retries
the popped and then the formerly pending ones on the new head block, each unless it is known. -/

namespace Nestchain.Chain

variable {ω ρ : Type} {r : Rules ω ρ} {cps : Checkpoints} {skip : SkipFlags}

/-! ### Applying transactions -/

theorem Rules.applyTransactions_append {s s' : Objects ρ} {ts : List (SignedTransaction ω)}
    {t : SignedTransaction ω} :
    (r.applyTransactions skip s (ts ++ [t])).result = some s' ↔
      ∃ s1, (r.applyTransactions skip s ts).result = some s1 ∧
        (r.applyTransaction skip s1 t).result = some s' := by
  induction ts generalizing s with
  | nil =>
    rw [List.nil_append, Rules.applyTransactions_cons]
    constructor
    · rintro ⟨s1, h1, h2⟩
      obtain rfl := Outcome.result_pure.mp h2
      exact ⟨s, rfl, h1⟩
    · rintro ⟨s1, h1, h2⟩
      obtain rfl := Outcome.result_pure.mp h1
      exact ⟨s', h2, rfl⟩
  | cons t' ts ih =>
    simp only [List.cons_append, Rules.applyTransactions_cons, ih]
    constructor
    · rintro ⟨s1, h1, s2, h2, h3⟩
      exact ⟨s2, ⟨s1, h1, h2⟩, h3⟩
    · rintro ⟨s2, ⟨s1, h1, h2⟩, h3⟩
      exact ⟨s1, h1, s2, h2, h3⟩

theorem Rules.isKnown_applyTransactions {s s' : Objects ρ} {ts : List (SignedTransaction ω)}
    (hdupe : skip.transactionDupeCheck = false)
    (h : (r.applyTransactions skip s ts).result = some s') (id : Nat) :
    s'.isKnownTransaction id = true ↔
      s.isKnownTransaction id = true ∨ id ∈ ts.map r.trxId := by
  simp only [Objects.isKnownTransaction, List.contains_iff_mem,
    Rules.applyTransactions_index hdupe h, List.map_append, List.mem_append, List.map_map,
    Function.comp_def]

/-! ### Retrying transactions -/

/-- A transaction that was retried on the objects `s` and is not lost: it is known through a block,
or pending, or it was rejected on top of the first of the pending transactions. -/
def Accounted (r : Rules ω ρ) (skip : SkipFlags) (s : Objects ρ)
    (pending : List (SignedTransaction ω)) (t : SignedTransaction ω) : Prop :=
  s.isKnownTransaction (r.trxId t) = true ∨ r.trxId t ∈ pending.map r.trxId ∨
    ∃ before after s', pending = before ++ after ∧
      (r.applyTransactions skip s before).result = some s' ∧
      (r.applyTransaction skip s' t).result = none

theorem Accounted.append {s : Objects ρ} {pending : List (SignedTransaction ω)}
    {t : SignedTransaction ω} (h : Accounted r skip s pending t)
    (more : List (SignedTransaction ω)) : Accounted r skip s (pending ++ more) t := by
  rcases h with h | h | ⟨before, after, s', rfl, h1, h2⟩
  · exact Or.inl h
  · refine Or.inr (Or.inl ?_)
    rw [List.map_append]
    exact List.mem_append_left _ h
  · exact Or.inr (Or.inr ⟨before, after ++ more, s', List.append_assoc .., h1, h2⟩)

/-- The transactions `ts` were retried on the objects `s`. -/
structure Retried (r : Rules ω ρ) (skip : SkipFlags) (s : Objects ρ)
    (ts : List (SignedTransaction ω)) (db : Database ω ρ) : Prop where
  applied : (r.applyTransactions skip s db.pendingTx).result = some db.objects
  order : db.pendingTx.Sublist ts
  nodup : (db.pendingTx.map r.trxId).Nodup
  accounted : ∀ t ∈ ts, Accounted r skip s db.pendingTx t

theorem Retried.retry {s : Objects ρ} {ts : List (SignedTransaction ω)} {db : Database ω ρ}
    (hdupe : skip.transactionDupeCheck = false) (hc : Consistent r cps db)
    (h : Retried r skip s ts db) (t : SignedTransaction ω) :
    Retried r skip s (ts ++ [t]) (db.retryTransaction r skip t) := by
  have hknown := Rules.isKnown_applyTransactions hdupe h.applied (r.trxId t)
  -- The cases in which nothing joins the pending transactions.
  have hsame : ∀ db' : Database ω ρ, db'.objects = db.objects → db'.pendingTx = db.pendingTx →
      Accounted r skip s db.pendingTx t → Retried r skip s (ts ++ [t]) db' := by
    intro db' hobj hpend hacc
    refine ⟨by rw [hpend, hobj]; exact h.applied, ?_, by rw [hpend]; exact h.nodup, ?_⟩
    · rw [hpend]
      exact h.order.trans (List.sublist_append_left ts [t])
    · rw [hpend]
      intro t' ht'
      rcases List.mem_append.mp ht' with ht' | ht'
      · exact h.accounted t' ht'
      · obtain rfl : t' = t := by simpa using ht'
        exact hacc
  unfold Database.retryTransaction
  split
  · rename_i hk
    exact hsame db rfl rfl ((hknown.mp hk).imp_right Or.inl)
  · rename_i hk
    obtain ⟨-, ⟨-, happ, hpend⟩ | ⟨-, hthrow, hobj, hpend⟩⟩ :=
      Database.pushTransaction_spec hc skip t
    · rw [hknown, not_or] at hk
      refine ⟨?_, ?_, ?_, fun t' ht' => ?_⟩
      · rw [hpend]
        exact Rules.applyTransactions_append.mpr ⟨_, h.applied, happ⟩
      · rw [hpend]
        exact h.order.append (List.Sublist.refl [t])
      · rw [hpend, List.map_append, List.nodup_append]
        refine ⟨h.nodup, by simp, ?_⟩
        rintro a ha b hb rfl
        obtain rfl : a = r.trxId t := by simpa using hb
        exact hk.2 ha
      · rw [hpend]
        rcases List.mem_append.mp ht' with ht' | ht'
        · exact (h.accounted t' ht').append [t]
        · obtain rfl : t' = t := by simpa using ht'
          exact Or.inr (Or.inl (by simp))
    · exact hsame _ hobj hpend
        (Or.inr (Or.inr ⟨db.pendingTx, [], _, by simp, h.applied, hthrow⟩))

theorem Retried.retries {s : Objects ρ} {ts : List (SignedTransaction ω)} {db : Database ω ρ}
    (hdupe : skip.transactionDupeCheck = false) (hc : Consistent r cps db)
    (h : Retried r skip s ts db) (ts' : List (SignedTransaction ω)) :
    Retried r skip s (ts ++ ts') (ts'.foldl (Database.retryTransaction r skip) db) := by
  induction ts' generalizing ts db with
  | nil => simpa using h
  | cons t ts' ih =>
    have := ih (Database.retryTransaction_kept hc skip t).1 (h.retry hdupe hc t)
    rwa [List.append_assoc, List.singleton_append] at this

theorem Database.restorePending_retried {db : Database ω ρ} (h : Idle r cps db)
    (hdupe : skip.transactionDupeCheck = false) (pending : List (SignedTransaction ω)) :
    Retried r skip db.objects (db.poppedTx ++ pending) (db.restorePending r skip pending) := by
  have hstart : Retried r skip db.objects [] db := by
    refine ⟨by rw [h.pendingTx]; rfl, by rw [h.pendingTx], by rw [h.pendingTx]; simp, by simp⟩
  have h1 := hstart.retries hdupe h.consistent db.poppedTx
  obtain ⟨hc, -, -⟩ := Database.retryTransactions_kept h.consistent skip db.poppedTx
  have hc' : Consistent r cps
      { db.poppedTx.foldl (Database.retryTransaction r skip) db with poppedTx := [] } :=
    ⟨hc.active, hc.saved, hc.pendingTx, hc.limit, hc.spine⟩
  have h2 : Retried r skip db.objects db.poppedTx
      { db.poppedTx.foldl (Database.retryTransaction r skip) db with poppedTx := [] } :=
    ⟨h1.applied, h1.order, h1.nodup, h1.accounted⟩
  exact h2.retries hdupe hc' pending

/-! ### The popped blocks -/

/-- The blocks that `popUntil` pops, the lowest first. -/
def Database.untilPopped (held : List (ForkItem ω)) (target : BlockId) :
    Nat → Database ω ρ → List (SignedBlock ω)
  | 0, _ => []
  | fuel + 1, db =>
    if db.headBlockId = target then []
    else
      match db.popBlock held with
      | (db', true) =>
        untilPopped held target fuel db' ++ (db.fetchBlockById db.headBlockId).toList
      | (_, false) => []

/-- The blocks that `switchForks` pops: first those of the old branch, and then, when a block of the
new one throws, the blocks before it, which stand in front. -/
def Database.switchPopped (r : Rules ω ρ) (cps : Checkpoints) (skip : SkipFlags)
    (db : Database ω ρ) (first second : List (ForkItem ω)) : List (SignedBlock ω) :=
  match second.getLast? with
  | none => []
  | some fork =>
    let fuel := db.undoDb.saved.length + 1
    let old := db.untilPopped (first ++ second) fork.data.previous fuel
    match db.popUntil (first ++ second) fork.data.previous fuel with
    | (_, false) => old
    | (db, true) =>
      match pushBranch r cps skip first.reverse db with
      | (_, []) => old
      | (db, bad) =>
        untilPopped (first ++ second) fork.data.previous (db.undoDb.saved.length + 1)
          { db with forkDb := (db.forkDb.removeAll bad).setHead second.head? } ++ old

/-- The blocks that `_push_block` pops. -/
def Database.blocksPopped (r : Rules ω ρ) (cps : Checkpoints) (skip : SkipFlags)
    (db : Database ω ρ) (b : SignedBlock ω) : List (SignedBlock ω) :=
  if skip.forkDb then []
  else
    match db.forkDb.pushBlock r b with
    | none => []
    | some f =>
      match f.head with
      | none => []
      | some newHead =>
        if newHead.data.previous ≠ db.headBlockId then
          if newHead.data.blockNum > db.headBlockNum then
            match f.fetchBranchFrom newHead.id db.headBlockId with
            | none => []
            | some (first, second) =>
              ({ db with forkDb := f } : Database ω ρ).switchPopped r cps skip first second
          else []
        else []

theorem Database.popUntil_poppedTx (held : List (ForkItem ω)) (target : BlockId) (fuel : Nat)
    {db : Database ω ρ} (h : Idle r cps db) :
    (db.popUntil held target fuel).1.poppedTx =
      (db.untilPopped held target fuel).flatMap (fun b => b.transactions) ++ db.poppedTx := by
  induction fuel generalizing db with
  | zero => rfl
  | succ fuel ih =>
    rw [popUntil, untilPopped]
    by_cases htarget : db.headBlockId = target
    · rw [if_pos htarget, if_pos htarget]
      rfl
    · rw [if_neg htarget, if_neg htarget]
      generalize hpop : db.popBlock held = res
      obtain ⟨db', ok⟩ := res
      cases ok with
      | true =>
        have hpopped := popBlock_true h hpop
        obtain ⟨b, hb, htx⟩ := hpopped.poppedTx
        show (popUntil held target fuel db').1.poppedTx = _
        rw [ih (h.unwound hpopped.unwound), htx, hb]
        simp
      | false =>
        rcases popBlock_false h hpop with rfl | ⟨f, -, rfl⟩
        · rfl
        · rfl

theorem Database.switchForks_poppedTx {db : Database ω ρ} {first second : List (ForkItem ω)}
    (h : Idle r cps db) :
    (db.switchForks r cps skip first second).1.poppedTx =
      (db.switchPopped r cps skip first second).flatMap (fun b => b.transactions) ++
        db.poppedTx := by
  unfold Database.switchPopped
  cases hlast : second.getLast? with
  | none =>
    unfold Database.switchForks
    rw [hlast]
    rfl
  | some fork =>
    have hold := popUntil_poppedTx (first ++ second) fork.data.previous
      (db.undoDb.saved.length + 1) h
    generalize hres : db.switchForks r cps skip first second = res
    have hcases : ForkSwitch r cps skip db first second fork.data.previous res :=
      hres ▸ switchForks_cases db first hlast
    cases hcases with
    | stuck hpop =>
      rw [hpop] at hold
      simpa only [hpop] using hold
    | switched hpop hpush =>
      obtain ⟨hu, -, -⟩ := popUntil_spec h hpop
      obtain ⟨-, haside, -⟩ := pushBranch_spec (h.unwound hu) hpush
      rw [hpop] at hold
      simpa only [hpop, hpush] using haside.poppedTx.trans hold
    | @stuckBack db1 db2 db3 i bad hpop hpush hback =>
      obtain ⟨hu, -, -⟩ := popUntil_spec h hpop
      obtain ⟨h2, haside, -⟩ := pushBranch_spec (h.unwound hu) hpush
      have hnew := popUntil_poppedTx (first ++ second) fork.data.previous
        (db2.undoDb.saved.length + 1)
        (h2.withForkDb ((db2.forkDb.removeAll (i :: bad)).setHead second.head?))
      rw [hback] at hnew
      rw [hpop] at hold
      simp only [hpop, hpush, List.flatMap_append, List.append_assoc]
      exact hnew.trans (congrArg _ (haside.poppedTx.trans hold))
    | @back db1 db2 db3 i bad hpop hpush hback =>
      obtain ⟨hu, -, -⟩ := popUntil_spec h hpop
      obtain ⟨h2, haside, -⟩ := pushBranch_spec (h.unwound hu) hpush
      have h2' := h2.withForkDb ((db2.forkDb.removeAll (i :: bad)).setHead second.head?)
      have hnew := popUntil_poppedTx (first ++ second) fork.data.previous
        (db2.undoDb.saved.length + 1) h2'
      rw [hback] at hnew
      rw [hpop] at hold
      obtain ⟨hu', -, -⟩ := popUntil_spec h2' hback
      generalize hagain : pushBranch r cps skip second.reverse db3 = again
      obtain ⟨db4, rest⟩ := again
      obtain ⟨-, haside', -⟩ := pushBranch_spec (h2'.unwound hu') hagain
      simp only [hpop, hpush, List.flatMap_append, List.append_assoc]
      exact haside'.poppedTx.trans (hnew.trans (congrArg _ (haside.poppedTx.trans hold)))

theorem Database.pushDirect_poppedTx (db : Database ω ρ) (b : SignedBlock ω) :
    (db.pushDirect r cps skip b).1.poppedTx = db.poppedTx := by
  unfold Database.pushDirect
  rcases db.applyAndCommit_spec r cps skip b with ⟨hok, hb⟩ | ⟨hok, hb⟩ <;>
    generalize db.applyAndCommit r cps skip b = res at hok hb <;> obtain ⟨db', ok⟩ := res <;>
    subst hok
  · exact hb.poppedTx
  · exact hb.poppedTx

theorem Database.pushBlockBody_diverged {d : Database ω ρ} {b : SignedBlock ω}
    {f : ForkDatabase ω} {newHead : ForkItem ω} (hskip : skip.forkDb = false)
    (hfork : d.forkDb.pushBlock r b = some f)
    (hhead : f.head = some newHead) (hprev : newHead.data.previous ≠ d.headBlockId)
    (hnum : d.headBlockNum < newHead.data.blockNum) :
    d.pushBlockBody r cps skip b =
      match f.fetchBranchFrom newHead.id d.headBlockId with
      | none => ({ d with forkDb := f }, none)
      | some (first, second) =>
        ({ d with forkDb := f } : Database ω ρ).switchForks r cps skip first second := by
  unfold Database.pushBlockBody
  simp only [hskip, Bool.false_eq_true, if_false, hfork, hhead]
  exact (if_pos hprev).trans (if_pos hnum)

theorem Database.pushBlockBody_poppedTx {db : Database ω ρ} {heap : List (ForkItem ω)}
    (h : Idle r cps db) (hh : ForkHeap r heap db.forkDb) (skip : SkipFlags) (b : SignedBlock ω) :
    (db.pushBlockBody r cps skip b).1.poppedTx =
      (db.blocksPopped r cps skip b).flatMap (fun b => b.transactions) ++ db.poppedTx := by
  unfold Database.blocksPopped
  generalize hres : db.pushBlockBody r cps skip b = res
  have hcases := pushBlockBody_cases hh cps skip b
  rw [hres] at hcases
  cases hcases with
  | noForkDb hskip =>
    rw [if_pos hskip]
    exact pushDirect_poppedTx db b
  | unlinked hskip hfork => simp [hskip, hfork]
  | direct hskip hfork hhead hprev =>
    simp only [hskip, hfork, hhead, hprev, Bool.false_eq_true, ne_eq, not_true, if_false]
    exact pushDirect_poppedTx _ b
  | kept hskip hfork hhead hprev hnum =>
    simp [hskip, hfork, hhead, hprev, Nat.not_lt.mpr hnum]
  | noBranches hskip hfork hhead hprev hnum hfetch =>
    simp [hskip, hfork, hhead, hprev, hnum, hfetch]
  | @fork f newHead first second last _ hskip hfork hhead hprev hnum hfetch hlast hswitch =>
    rw [← hres, pushBlockBody_diverged hskip hfork hhead hprev hnum, hfetch]
    simp only [hskip, hfork, hhead, hfetch, Bool.false_eq_true, if_false, ne_eq, hprev,
      not_false_eq_true, if_true, gt_iff_lt, hnum]
    exact switchForks_poppedTx (h.withForkDb f)

/-- After `push_block` with the duplicate check, whether it returns or throws, the pending
transactions are those of the popped blocks and then formerly pending ones, in order and without
repetition; each of those is known through a block of the chain, or pending, or was rejected when it
was retried; and the objects are those of the head block with exactly the pending transactions
applied. -/
theorem pending_transactions_kept {db : Database ω ρ} (h : Reachable r cps db)
    (hdupe : skip.transactionDupeCheck = false) (b : SignedBlock ω) :
    (db.clearPending.pushBlockBody r cps skip b).1.poppedTx =
      (db.clearPending.blocksPopped r cps skip b).flatMap (fun b => b.transactions) ∧
    (db.pushBlock r cps skip b).1.pendingTx.Sublist
      ((db.clearPending.pushBlockBody r cps skip b).1.poppedTx ++ db.pendingTx) ∧
    ((db.pushBlock r cps skip b).1.pendingTx.map r.trxId).Nodup ∧
    (∀ t ∈ (db.clearPending.pushBlockBody r cps skip b).1.poppedTx ++ db.pendingTx,
      Accounted r skip (db.pushBlock r cps skip b).1.headObjects
        (db.pushBlock r cps skip b).1.pendingTx t) ∧
    (db.pushBlock r cps skip b).1.headObjects =
      (db.clearPending.pushBlockBody r cps skip b).1.objects ∧
    (r.applyTransactions skip (db.pushBlock r cps skip b).1.headObjects
      (db.pushBlock r cps skip b).1.pendingTx).result =
        some (db.pushBlock r cps skip b).1.objects := by
  have hreg := h.regular
  obtain ⟨hidle, -, -, -, hfork, -, hpopped⟩ := hreg.toConsistent.clearPending
  obtain ⟨heap, hheap⟩ := hreg.heap
  obtain ⟨hmid, -⟩ := Database.pushBlockBody_idle hidle (hfork ▸ hheap) skip b
  have hret := Database.restorePending_retried hmid hdupe db.pendingTx
  obtain ⟨-, hkept, -⟩ := Database.restorePending_kept hmid skip db.pendingTx
  have hhead : (db.pushBlock r cps skip b).1.headObjects =
      (db.clearPending.pushBlockBody r cps skip b).1.objects :=
    hkept.headObjects.trans hmid.headObjects
  have hnone : db.clearPending.poppedTx = [] := hpopped.trans hreg.poppedTx
  have hblocks := Database.pushBlockBody_poppedTx hidle (hfork ▸ hheap) skip b
  rw [hnone, List.append_nil] at hblocks
  rw [hhead]
  exact ⟨hblocks, hret.order, hret.nodup, hret.accounted, rfl, hret.applied⟩

/-- A first block of the small chain with a transaction. -/
def payingBlock : SignedBlock Nat := counterBlock .zero 10 0 [counterTrx 20 [1]]

/-- The small chain with a block that carries a transaction, another block of the same number, and a
pending transaction. -/
def forkedDatabase : Database Nat Nat :=
  (counterDatabase 0).calls counterRules []
    [.pushBlock payingBlock .nothing,
      .pushBlock (counterBlock .zero 11 0 []) .nothing,
      .pushTransaction (counterTrx 20 [2]) .nothing]

def forkedChild : SignedBlock Nat :=
  counterBlock (counterRules.blockId (counterBlock .zero 11 0 []).toBlockHeader) 12 0 []

/-- When the chain switches to the other block, the transaction of the popped block is pending
again, before the one that was pending. -/
theorem pending_transactions_kept_switch :
    (forkedDatabase.pushBlock counterRules [] .nothing forkedChild).2 = some true ∧
    (forkedDatabase.pushBlock counterRules [] .nothing forkedChild).1.pendingTx =
      [counterTrx 20 [1], counterTrx 20 [2]] ∧
    (forkedDatabase.clearPending.pushBlockBody counterRules [] .nothing forkedChild).1.poppedTx =
      (forkedDatabase.clearPending.blocksPopped counterRules [] .nothing forkedChild).flatMap
        (fun b => b.transactions) ∧
    ((forkedDatabase.pushBlock counterRules [] .nothing forkedChild).1.pendingTx.map
      counterRules.trxId).Nodup := by
  have hreach : Reachable counterRules [] forkedDatabase :=
    (Reachable.opened (counterDatabase_opened 0)).calls _
  have hdupe : SkipFlags.nothing.transactionDupeCheck = false := rfl
  have hkept := pending_transactions_kept hreach hdupe forkedChild
  exact ⟨by decide +kernel, by decide +kernel, hkept.1, hkept.2.2.1⟩

/-- The flags `skip_transaction_dupe_check` alone. -/
def skipDupeCheck : SkipFlags := { SkipFlags.nothing with transactionDupeCheck := true }

/-- Without the duplicate check a transaction that was pushed twice is pending twice, also after the
next block. -/
theorem pending_transactions_repeated :
    ∃ db : Database Nat Nat, Reachable counterRules [] db ∧
      ¬((db.pushBlock counterRules [] skipDupeCheck (counterBlock .zero 10 0 [])).1.pendingTx.map
        counterRules.trxId).Nodup := by
  refine ⟨(counterDatabase 0).calls counterRules []
    [.pushTransaction (counterTrx 20 [1]) skipDupeCheck,
      .pushTransaction (counterTrx 20 [1]) skipDupeCheck],
    (Reachable.opened (counterDatabase_opened 0)).calls _, ?_⟩
  decide +kernel

end Nestchain.Chain
