import Mathlib.Algebra.GroupWithZero.Nat
import Mathlib.Data.Finset.Basic
import Mathlib.Data.List.Sort
import Mathlib.Data.List.Dedup

/-! Authorities and their verification.  `verify_authority` walks from the authorities that the
operations require through the active authorities of accounts, down to a depth, and remembers the
accounts that it found approved.  An account in that memory counts at every depth, so the verdict
may reach further than the depth does; here it is put between what is satisfied within the depth and
what is when the remembered accounts are approved too. -/

namespace Nestchain.Protocol

abbrev AccountId := Nat

abbrev PublicKey := Nat

/-- `GRAPHENE_COMMITTEE_ACCOUNT` -/
def committeeAccount : AccountId := 0

/-- `GRAPHENE_TEMP_ACCOUNT` -/
def tempAccount : AccountId := 4

/-- The weights of the members that satisfy `p`. -/
def weightOf {α : Type} (p : α → Bool) (l : List (α × Nat)) : Nat :=
  (l.map fun r => if p r.1 then r.2 else 0).sum

section

variable {α : Type} {p q : α → Bool}

@[simp] theorem weightOf_nil (p : α → Bool) : weightOf p [] = 0 := rfl

@[simp] theorem weightOf_cons (p : α → Bool) (r : α × Nat) (l : List (α × Nat)) :
    weightOf p (r :: l) = (if p r.1 then r.2 else 0) + weightOf p l := by
  simp only [weightOf, List.map_cons, List.sum_cons]

theorem weightOf_mono {l : List (α × Nat)}
    (h : ∀ a ∈ l.map Prod.fst, p a = true → q a = true) : weightOf p l ≤ weightOf q l := by
  induction l with
  | nil => exact le_refl _
  | cons r l ih =>
    rw [weightOf_cons, weightOf_cons]
    refine Nat.add_le_add ?_ (ih fun a ha => h a (List.mem_cons_of_mem _ ha))
    by_cases hp : p r.1 = true
    · rw [if_pos hp, if_pos (h r.1 List.mem_cons_self hp)]
    · rw [if_neg hp]
      exact Nat.zero_le _

end

/-- `authority` without `address_auths`.  The code adds up weights of 16 bits in 32 bits, which at
most 65535 members fit in. -/
structure Authority where
  weightThreshold : Nat
  accountAuths : List (AccountId × Nat)
  keyAuths : List (PublicKey × Nat)
  fits : (accountAuths.map Prod.snd).sum + (keyAuths.map Prod.snd).sum < 2 ^ 32
deriving DecidableEq

/-! ### The definition -/

section

variable (getActive : AccountId → Option Authority) (sigs : Finset PublicKey)
  (approved : Finset AccountId)

/-- The keys that signed and the accounts that count reach the threshold. -/
def Authority.reaches (auth : Authority) (counts : AccountId → Bool) : Bool :=
  decide (auth.weightThreshold ≤
    weightOf (fun k => decide (k ∈ sigs)) auth.keyAuths + weightOf counts auth.accountAuths)

/-- An account counts when it is approved or, with levels left, when its active authority is
satisfied with one level less. -/
def counts : Nat → AccountId → Bool
  | 0, id => decide (id ∈ approved)
  | n + 1, id => decide (id ∈ approved) ||
      (getActive id).any fun auth => auth.reaches sigs (counts n)

/-- The authority is satisfied with `n` levels left, that is at depth `d - n` when the depth is
bounded by `d`. -/
def Authority.satisfied (auth : Authority) (n : Nat) : Bool :=
  auth.reaches sigs (counts getActive sigs approved n)

end

/-! ### The code -/

/-- `sign_state`: the signatures that were used and the accounts that are known to be approved. -/
structure SignState where
  used : Finset PublicKey
  approvedBy : Finset AccountId

section

variable (getActive : AccountId → Option Authority) (sigs : Finset PublicKey)

/-- The loop over `key_auths`, which stops at the threshold. -/
def keyLoop (threshold : Nat) : List (PublicKey × Nat) → Nat → SignState → Bool × Nat × SignState
  | [], total, s => (false, total, s)
  | (k, w) :: keys, total, s =>
    if k ∈ sigs then
      let s := { s with used := insert k s.used }
      if threshold ≤ total + w then (true, total + w, s) else keyLoop threshold keys (total + w) s
    else keyLoop threshold keys total s

/-- The loop over `account_auths`, with the check of an account that is not known to be approved. -/
def accountLoop (check : AccountId → SignState → Bool × SignState) (threshold : Nat) :
    List (AccountId × Nat) → Nat → SignState → Bool × SignState
  | [], total, s => (decide (threshold ≤ total), s)
  | (a, w) :: accounts, total, s =>
    if a ∈ s.approvedBy then
      if threshold ≤ total + w then (true, s) else accountLoop check threshold accounts
        (total + w) s
    else
      let r := check a s
      if r.1 then
        let s := { r.2 with approvedBy := insert a r.2.approvedBy }
        if threshold ≤ total + w then (true, s) else accountLoop check threshold accounts
          (total + w) s
      else accountLoop check threshold accounts total r.2

/-- The two loops of `check_authority` one after the other. -/
def checkMembers (check : AccountId → SignState → Bool × SignState) (auth : Authority)
    (s : SignState) : Bool × SignState :=
  let r := keyLoop sigs auth.weightThreshold auth.keyAuths 0 s
  if r.1 then (true, r.2.2)
  else accountLoop check auth.weightThreshold auth.accountAuths r.2.1 r.2.2

/-- `check_authority` with the levels that are left, at the last of which accounts are not
followed. -/
def checkAuthority : Nat → Authority → SignState → Bool × SignState
  | 0 => checkMembers sigs fun _ s => (false, s)
  | n + 1 => checkMembers sigs fun a s =>
      match getActive a with
      | some auth => checkAuthority n auth s
      | none => (false, s)

/-- `check_authority` of an authority that may be null. -/
def checkPointer (depth : Nat) : Option Authority → SignState → Bool × SignState
  | some auth, s => checkAuthority getActive sigs depth auth s
  | none, s => (false, s)

/-- `check_authority` of an account. -/
def checkAccount (depth : Nat) (id : AccountId) (s : SignState) : Bool × SignState :=
  if id ∈ s.approvedBy then (true, s) else checkPointer getActive sigs depth (getActive id) s

end

/-- What an operation requires. -/
structure RequiredAuthorities where
  feePayer : AccountId
  active : List AccountId
  owner : List AccountId
  other : List Authority

inductive AuthorityError where
  | invalidCommitteeApproval
  | missingOtherAuth (auth : Authority)
  | missingActiveAuth (id : AccountId)
  | missingOwnerAuth (id : AccountId)
  | irrelevantSig
deriving DecidableEq

def AuthorityError.isMissing : AuthorityError → Bool
  | .missingOtherAuth _ => true
  | .missingActiveAuth _ => true
  | .missingOwnerAuth _ => true
  | _ => false

/-- Every check succeeds, or the error of the first that does not. -/
def requireAll {α : Type} (check : α → SignState → Bool × SignState) (error : α → AuthorityError) :
    List α → SignState → Except AuthorityError SignState
  | [], s => .ok s
  | a :: l, s => if (check a s).1 then requireAll check error l (check a s).2 else .error (error a)

/-- The accounts in a `flat_set`, in order. -/
def flatSet (ids : List AccountId) : List AccountId := ids.dedup.insertionSort (· ≤ ·)

theorem mem_flatSet {ids : List AccountId} {id : AccountId} : id ∈ flatSet ids ↔ id ∈ ids := by
  rw [flatSet, (List.perm_insertionSort _ _).mem_iff, List.mem_dedup]

def requiredActive (ops : List RequiredAuthorities) : List AccountId :=
  flatSet (ops.flatMap fun op => op.feePayer :: op.active)

def requiredOwner (ops : List RequiredAuthorities) : List AccountId :=
  flatSet (ops.flatMap RequiredAuthorities.owner)

/-- The accounts that are approved from the start. -/
def initiallyApproved (activeApprovals ownerApprovals : Finset AccountId) : Finset AccountId :=
  insert tempAccount (activeApprovals ∪ ownerApprovals)

def verifyAuthority (ops : List RequiredAuthorities) (sigs : Finset PublicKey)
    (getActive getOwner : AccountId → Option Authority) (maxRecursionDepth : Nat)
    (allowCommittee : Bool) (activeApprovals ownerApprovals : Finset AccountId) :
    Except AuthorityError Unit := do
  if allowCommittee = false ∧ committeeAccount ∈ requiredActive ops then
    .error .invalidCommitteeApproval
  else do
    let s : SignState := ⟨∅, initiallyApproved activeApprovals ownerApprovals⟩
    let s ← requireAll (checkAuthority getActive sigs maxRecursionDepth) .missingOtherAuth
      (ops.flatMap RequiredAuthorities.other) s
    let s ← requireAll (fun id s =>
      let r := checkAccount getActive sigs maxRecursionDepth id s
      if r.1 then r else checkPointer getActive sigs maxRecursionDepth (getOwner id) r.2)
      .missingActiveAuth (requiredActive ops) s
    let s ← requireAll (fun id s => if id ∈ ownerApprovals then (true, s)
      else checkPointer getActive sigs maxRecursionDepth (getOwner id) s)
      .missingOwnerAuth (requiredOwner ops) s
    if sigs ⊆ s.used then pure () else .error .irrelevantSig

/-! ### Levels -/

section

variable {getActive : AccountId → Option Authority} {sigs sigs' : Finset PublicKey}
  {approved approved' : Finset AccountId}

theorem Authority.reaches_mono {auth : Authority} {p q : AccountId → Bool} (hsigs : sigs ⊆ sigs')
    (h : ∀ a ∈ auth.accountAuths.map Prod.fst, p a = true → q a = true)
    (hp : auth.reaches sigs p = true) : auth.reaches sigs' q = true := by
  simp only [reaches, decide_eq_true_eq] at hp ⊢
  refine hp.trans (Nat.add_le_add (weightOf_mono fun k _ hk => ?_) (weightOf_mono h))
  exact decide_eq_true (hsigs (of_decide_eq_true hk))

theorem counts_of_mem {id : AccountId} (h : id ∈ approved) (n : Nat) :
    counts getActive sigs approved n id = true := by
  cases n <;> simp [counts, h]

theorem counts_succ_iff {n : Nat} {id : AccountId} :
    counts getActive sigs approved (n + 1) id = true ↔ id ∈ approved ∨
      ∃ auth, getActive id = some auth ∧ auth.satisfied getActive sigs approved n = true := by
  rw [counts, Bool.or_eq_true, decide_eq_true_eq, Option.any_eq_true]
  rfl

theorem counts_succ (n : Nat) : ∀ id, counts getActive sigs approved n id = true →
    counts getActive sigs approved (n + 1) id = true := by
  induction n with
  | zero =>
    intro id h
    exact counts_of_mem (of_decide_eq_true h) 1
  | succ n ih =>
    intro id h
    rw [counts_succ_iff] at h ⊢
    refine h.imp_right ?_
    rintro ⟨auth, hauth, hsat⟩
    exact ⟨auth, hauth, Authority.reaches_mono (Finset.Subset.refl _) (fun a _ => ih a) hsat⟩

theorem counts_mono {m n : Nat} (hle : m ≤ n) (id : AccountId)
    (h : counts getActive sigs approved m id = true) :
    counts getActive sigs approved n id = true := by
  induction hle with
  | refl => exact h
  | step _ ih => exact counts_succ _ id ih

theorem Authority.satisfied_mono {auth : Authority} {m n : Nat} (hle : m ≤ n)
    (h : auth.satisfied getActive sigs approved m = true) :
    auth.satisfied getActive sigs approved n = true :=
  Authority.reaches_mono (Finset.Subset.refl _) (fun id _ hid => counts_mono hle id hid) h

theorem counts_mono_sets (hsigs : sigs ⊆ sigs') (happroved : approved ⊆ approved') (n : Nat) :
    ∀ id, counts getActive sigs approved n id = true →
      counts getActive sigs' approved' n id = true := by
  induction n with
  | zero =>
    intro id h
    exact decide_eq_true (happroved (of_decide_eq_true h))
  | succ n ih =>
    intro id h
    rw [counts_succ_iff] at h ⊢
    refine h.imp (fun h => happroved h) ?_
    rintro ⟨auth, hauth, hsat⟩
    exact ⟨auth, hauth, Authority.reaches_mono hsigs (fun a _ => ih a) hsat⟩

theorem Authority.satisfied_mono_sets {auth : Authority} {n : Nat} (hsigs : sigs ⊆ sigs')
    (happroved : approved ⊆ approved') (h : auth.satisfied getActive sigs approved n = true) :
    auth.satisfied getActive sigs' approved' n = true :=
  Authority.reaches_mono hsigs (fun id _ => counts_mono_sets hsigs happroved n id) h

end

/-! ### The memory -/

section

variable (getActive : AccountId → Option Authority) (sigs : Finset PublicKey)
  (approved : Finset AccountId) (looks : Nat → AccountId → Prop)

/-- What the checks may remember: the accounts that are approved from the start, and each one that
they look at and that then counts within the levels left, with what was remembered before. -/
inductive Remembered : Finset AccountId → Prop
  | start : Remembered approved
  | remember {known : Finset AccountId} {n : Nat} {id : AccountId} (hknown : Remembered known)
      (hlooks : looks n id) (hcounts : counts getActive sigs known n id = true) :
      Remembered (insert id known)

/-- The checks look at the accounts of an authority with one level less than at the authority. -/
def LooksBelow : Prop :=
  ∀ n id auth, looks (n + 1) id → getActive id = some auth →
    ∀ a ∈ auth.accountAuths.map Prod.fst, looks n a

/-- The result of a check: it keeps the memory, it succeeds when `within` holds, and when it
succeeds then `given` holds with the accounts that are remembered after it. -/
structure Checks (within : Prop) (given : Finset AccountId → Prop) (s : SignState)
    (r : Bool × SignState) : Prop where
  remembers : Remembered getActive sigs approved looks r.2.approvedBy
  grows : s.approvedBy ⊆ r.2.approvedBy
  complete : within → r.1 = true
  sound : r.1 = true → given r.2.approvedBy

end

section

variable {getActive : AccountId → Option Authority} {sigs : Finset PublicKey}
  {approved : Finset AccountId} {looks : Nat → AccountId → Prop}

theorem Remembered.approved_subset {known : Finset AccountId}
    (h : Remembered getActive sigs approved looks known) : approved ⊆ known := by
  induction h with
  | start => exact Finset.Subset.refl _
  | remember _ _ _ ih => exact ih.trans (Finset.subset_insert _ _)

theorem Remembered.counts (hbelow : LooksBelow getActive looks)
    (halike : ∀ m n id, looks m id → looks n id → counts getActive sigs approved m id = true →
      Protocol.counts getActive sigs approved n id = true) {known : Finset AccountId}
    (h : Remembered getActive sigs approved looks known) :
    ∀ n id, looks n id → Protocol.counts getActive sigs known n id = true →
      Protocol.counts getActive sigs approved n id = true := by
  induction h with
  | start => exact fun _ _ _ hcounts => hcounts
  | @remember known m j _ hj hcounts ih =>
    have hmem : ∀ n id, looks n id → id ∈ insert j known →
        Protocol.counts getActive sigs approved n id = true := by
      intro n id hid hin
      rcases Finset.mem_insert.mp hin with rfl | hin
      · exact halike m n id hj hid (ih m id hj hcounts)
      · exact ih n id hid (counts_of_mem hin n)
    intro n
    induction n with
    | zero => exact fun id hid h => hmem 0 id hid (of_decide_eq_true h)
    | succ n ihn =>
      intro id hid h
      rcases counts_succ_iff.mp h with hin | ⟨auth, hauth, hsat⟩
      · exact hmem (n + 1) id hid hin
      · exact counts_succ_iff.mpr (Or.inr ⟨auth, hauth, Authority.reaches_mono
          (Finset.Subset.refl _) (fun a ha => ihn a (hbelow n id auth hid hauth a ha)) hsat⟩)

/-! ### The checks -/

variable (sigs) in
theorem keyLoop_spec (threshold : Nat) (keys : List (PublicKey × Nat)) (total : Nat)
    (s : SignState) :
    (keyLoop sigs threshold keys total s).2.2.approvedBy = s.approvedBy ∧
      ((keyLoop sigs threshold keys total s).1 = true →
        threshold ≤ total + weightOf (fun k => decide (k ∈ sigs)) keys) ∧
      ((keyLoop sigs threshold keys total s).1 = false → (keyLoop sigs threshold keys total s).2.1 =
        total + weightOf (fun k => decide (k ∈ sigs)) keys) := by
  induction keys generalizing total s with
  | nil => exact ⟨rfl, fun h => (nomatch h), fun _ => rfl⟩
  | cons r keys ih =>
    obtain ⟨k, w⟩ := r
    rw [weightOf_cons]
    by_cases hk : k ∈ sigs
    · by_cases hdone : threshold ≤ total + w
      · simp only [keyLoop, if_pos hk, if_pos hdone, decide_eq_true hk, if_true]
        refine ⟨trivial, fun _ => ?_, fun h => (nomatch h)⟩
        omega
      · simp only [keyLoop, if_pos hk, if_neg hdone, decide_eq_true hk, if_true]
        obtain ⟨happroved, hearly, htotal⟩ := ih (total + w) { s with used := insert k s.used }
        rw [← Nat.add_assoc]
        exact ⟨happroved, hearly, htotal⟩
    · simp only [keyLoop, if_neg hk, decide_eq_false hk, Bool.false_eq_true, if_false, Nat.zero_add]
      exact ih total s

theorem accountLoop_spec {check : AccountId → SignState → Bool × SignState} {n : Nat}
    (hcheck : ∀ id s, looks n id → Remembered getActive sigs approved looks s.approvedBy →
      id ∉ s.approvedBy → Checks getActive sigs approved looks
        (counts getActive sigs approved n id = true)
        (fun known => counts getActive sigs known n id = true) s (check id s))
    (threshold : Nat) (accounts : List (AccountId × Nat)) (total : Nat) {s : SignState}
    (hlooks : ∀ a ∈ accounts.map Prod.fst, looks n a)
    (hs : Remembered getActive sigs approved looks s.approvedBy) :
    Checks getActive sigs approved looks
      (threshold ≤ total + weightOf (counts getActive sigs approved n) accounts)
      (fun known => threshold ≤ total + weightOf (counts getActive sigs known n) accounts)
      s (accountLoop check threshold accounts total s) := by
  induction accounts generalizing total s with
  | nil => exact ⟨hs, Finset.Subset.refl _, decide_eq_true, of_decide_eq_true⟩
  | cons r accounts ih =>
    obtain ⟨id, w⟩ := r
    have hid : looks n id := hlooks id List.mem_cons_self
    have hrest := fun total {s : SignState}
        (hs : Remembered getActive sigs approved looks s.approvedBy) =>
      ih total (fun a ha => hlooks a (List.mem_cons_of_mem _ ha)) hs
    -- an account in the memory adds its weight to the total
    have hadd : ∀ {s' : SignState}, s.approvedBy ⊆ s'.approvedBy → id ∈ s'.approvedBy →
        Remembered getActive sigs approved looks s'.approvedBy →
        Checks getActive sigs approved looks
          (threshold ≤ total + weightOf (counts getActive sigs approved n) ((id, w) :: accounts))
          (fun known => threshold ≤ total + weightOf (counts getActive sigs known n)
            ((id, w) :: accounts))
          s (if threshold ≤ total + w then (true, s')
            else accountLoop check threshold accounts (total + w) s') := by
      intro s' hsub hmem hs'
      split
      · rename_i hdone
        refine ⟨hs', hsub, fun _ => rfl, fun _ => ?_⟩
        rw [weightOf_cons, if_pos (counts_of_mem hmem n)]
        omega
      · obtain ⟨hremembers, hgrows, hcomplete, hsound⟩ := hrest (total + w) hs'
        refine ⟨hremembers, hsub.trans hgrows, fun hwithin => hcomplete ?_, fun htrue => ?_⟩
        · rw [weightOf_cons] at hwithin
          have hle : (if counts getActive sigs approved n (id, w).1 = true then (id, w).2 else 0) ≤
            w := by
            split
            · exact le_refl w
            · exact Nat.zero_le w
          omega
        · rw [weightOf_cons, if_pos (counts_of_mem (hgrows hmem) n), ← Nat.add_assoc]
          exact hsound htrue
    by_cases hmem : id ∈ s.approvedBy
    · simp only [accountLoop, if_pos hmem]
      exact hadd (Finset.Subset.refl _) hmem hs
    · obtain ⟨hremembers, hgrows, hcomplete, hsound⟩ := hcheck id s hid hs hmem
      simp only [accountLoop, if_neg hmem]
      by_cases htrue : (check id s).1 = true
      · rw [if_pos htrue]
        exact hadd (hgrows.trans (Finset.subset_insert _ _)) (Finset.mem_insert_self _ _)
          (hremembers.remember hid (hsound htrue))
      · rw [if_neg htrue]
        have hnot : ¬counts getActive sigs approved n id = true := fun h => htrue (hcomplete h)
        obtain ⟨hremembers', hgrows', hcomplete', hsound'⟩ := hrest total hremembers
        refine ⟨hremembers', hgrows.trans hgrows', fun hwithin => hcomplete' ?_, fun hdone => ?_⟩
        · rwa [weightOf_cons, if_neg hnot, Nat.zero_add] at hwithin
        · rw [weightOf_cons]
          exact (hsound' hdone).trans (Nat.add_le_add_left (Nat.le_add_left _ _) _)

theorem checkMembers_spec {check : AccountId → SignState → Bool × SignState} {n : Nat}
    (hcheck : ∀ id s, looks n id → Remembered getActive sigs approved looks s.approvedBy →
      id ∉ s.approvedBy → Checks getActive sigs approved looks
        (counts getActive sigs approved n id = true)
        (fun known => counts getActive sigs known n id = true) s (check id s))
    (auth : Authority) {s : SignState} (hlooks : ∀ a ∈ auth.accountAuths.map Prod.fst, looks n a)
    (hs : Remembered getActive sigs approved looks s.approvedBy) :
    Checks getActive sigs approved looks (auth.satisfied getActive sigs approved n = true)
      (fun known => auth.satisfied getActive sigs known n = true)
      s (checkMembers sigs check auth s) := by
  obtain ⟨happroved, hearly, htotal⟩ := keyLoop_spec sigs auth.weightThreshold auth.keyAuths 0 s
  have hkeys : Remembered getActive sigs approved looks
      (keyLoop sigs auth.weightThreshold auth.keyAuths 0 s).2.2.approvedBy := happroved ▸ hs
  simp only [Authority.satisfied, Authority.reaches, decide_eq_true_eq]
  cases hdone : (keyLoop sigs auth.weightThreshold auth.keyAuths 0 s).1 with
  | true =>
    simp only [checkMembers, hdone, if_true]
    refine ⟨hkeys, (Eq.symm happroved).subset, fun _ => rfl, fun _ => ?_⟩
    have := hearly hdone
    omega
  | false =>
    simp only [checkMembers, hdone, Bool.false_eq_true, if_false]
    obtain ⟨hremembers, hgrows, hcomplete, hsound⟩ := accountLoop_spec hcheck auth.weightThreshold
      auth.accountAuths (keyLoop sigs auth.weightThreshold auth.keyAuths 0 s).2.1 hlooks hkeys
    rw [htotal hdone, Nat.zero_add] at hremembers hgrows hcomplete hsound
    rw [htotal hdone, Nat.zero_add]
    exact ⟨hremembers, happroved ▸ hgrows, hcomplete, hsound⟩

/-- `check_authority` succeeds when the authority is satisfied within the levels that are left, and
only when it is so with the remembered accounts approved. -/
theorem checkAuthority_spec (hbelow : LooksBelow getActive looks) (n : Nat) :
    ∀ (auth : Authority) {s : SignState}, (∀ a ∈ auth.accountAuths.map Prod.fst, looks n a) →
    Remembered getActive sigs approved looks s.approvedBy →
    Checks getActive sigs approved looks (auth.satisfied getActive sigs approved n = true)
      (fun known => auth.satisfied getActive sigs known n = true)
      s (checkAuthority getActive sigs n auth s) := by
  induction n with
  | zero =>
    intro auth s hlooks hs
    refine checkMembers_spec (fun id s _ hs hmem => ?_) auth hlooks hs
    refine ⟨hs, Finset.Subset.refl _, fun hcounts => ?_, fun h => absurd h Bool.false_ne_true⟩
    exact absurd (hs.approved_subset (of_decide_eq_true hcounts)) hmem
  | succ n ih =>
    intro auth s hlooks hs
    refine checkMembers_spec (fun id s hid hs hmem => ?_) auth hlooks hs
    have hnew : id ∉ approved := fun h => hmem (hs.approved_subset h)
    cases hactive : getActive id with
    | none =>
      refine ⟨hs, Finset.Subset.refl _, fun hcounts => ?_, fun h => absurd h Bool.false_ne_true⟩
      rcases counts_succ_iff.mp hcounts with h | ⟨auth', hauth', -⟩
      · exact absurd h hnew
      · exact absurd (hactive.symm.trans hauth') (Option.some_ne_none _).symm
    | some auth' =>
      obtain ⟨hremembers, hgrows, hcomplete, hsound⟩ :=
        ih auth' (hbelow n id auth' hid hactive) hs
      refine ⟨hremembers, hgrows, fun hcounts => hcomplete ?_, fun htrue => ?_⟩
      · obtain ⟨auth'', hauth'', hsat⟩ := (counts_succ_iff.mp hcounts).resolve_left hnew
        obtain rfl : auth' = auth'' := Option.some.inj (hactive.symm.trans hauth'')
        exact hsat
      · exact counts_succ_iff.mpr (Or.inr ⟨auth', hactive, hsound htrue⟩)

theorem checkPointer_spec (hbelow : LooksBelow getActive looks) (n : Nat)
    (pointer : Option Authority) {s : SignState}
    (hlooks : ∀ auth, pointer = some auth → ∀ a ∈ auth.accountAuths.map Prod.fst, looks n a)
    (hs : Remembered getActive sigs approved looks s.approvedBy) :
    Checks getActive sigs approved looks
      (∃ auth, pointer = some auth ∧ auth.satisfied getActive sigs approved n = true)
      (fun known => ∃ auth, pointer = some auth ∧ auth.satisfied getActive sigs known n = true)
      s (checkPointer getActive sigs n pointer s) := by
  cases pointer with
  | none =>
    exact ⟨hs, Finset.Subset.refl _, fun ⟨_, h, _⟩ => (nomatch h),
      fun h => absurd h Bool.false_ne_true⟩
  | some auth =>
    obtain ⟨hremembers, hgrows, hcomplete, hsound⟩ :=
      checkAuthority_spec hbelow n auth (hlooks auth rfl) hs
    exact ⟨hremembers, hgrows, fun ⟨_, h, hsat⟩ => hcomplete (Option.some.inj h ▸ hsat),
      fun htrue => ⟨auth, rfl, hsound htrue⟩⟩

theorem requireAll_spec {α : Type} {check : α → SignState → Bool × SignState}
    {within : α → Prop} {given : α → Finset AccountId → Prop} (error : α → AuthorityError)
    (hmono : ∀ a known known', known ⊆ known' → given a known → given a known') (l : List α)
    (hcheck : ∀ a ∈ l, ∀ s, Remembered getActive sigs approved looks s.approvedBy →
      Checks getActive sigs approved looks (within a) (given a) s (check a s))
    {s : SignState} (hs : Remembered getActive sigs approved looks s.approvedBy) :
    (∃ s', requireAll check error l s = .ok s' ∧
      Remembered getActive sigs approved looks s'.approvedBy ∧ s.approvedBy ⊆ s'.approvedBy ∧
      ∀ a ∈ l, given a s'.approvedBy) ∨
    ∃ a ∈ l, requireAll check error l s = .error (error a) ∧ ¬within a := by
  induction l generalizing s with
  | nil => exact Or.inl ⟨s, rfl, hs, Finset.Subset.refl _, fun a ha => nomatch ha⟩
  | cons a l ih =>
    obtain ⟨hremembers, hgrows, hcomplete, hsound⟩ := hcheck a List.mem_cons_self s hs
    by_cases htrue : (check a s).1 = true
    · simp only [requireAll, if_pos htrue]
      rcases ih (fun b hb => hcheck b (List.mem_cons_of_mem a hb)) hremembers with
        ⟨s', hs', hremembers', hgrows', hall⟩ | ⟨b, hb, herror, hnot⟩
      · refine Or.inl ⟨s', hs', hremembers', hgrows.trans hgrows', fun b hb => ?_⟩
        rcases List.mem_cons.mp hb with rfl | hb
        · exact hmono b _ _ hgrows' (hsound htrue)
        · exact hall b hb
      · exact Or.inr ⟨b, List.mem_cons_of_mem a hb, herror, hnot⟩
    · simp only [requireAll, if_neg htrue]
      exact Or.inr ⟨a, List.mem_cons_self .., rfl, fun h => htrue (hcomplete h)⟩

end

/-! ### The verdict -/

section

variable (ops : List RequiredAuthorities) (sigs : Finset PublicKey)
  (getActive getOwner : AccountId → Option Authority)
  (activeApprovals ownerApprovals : Finset AccountId)

/-- Every required authority is satisfied with `n` levels. -/
structure Satisfied (n : Nat) : Prop where
  other : ∀ auth ∈ ops.flatMap RequiredAuthorities.other,
    auth.satisfied getActive sigs (initiallyApproved activeApprovals ownerApprovals) n = true
  active : ∀ id ∈ requiredActive ops, id ∈ initiallyApproved activeApprovals ownerApprovals ∨
    (∃ auth, getActive id = some auth ∧
      auth.satisfied getActive sigs (initiallyApproved activeApprovals ownerApprovals) n = true) ∨
    ∃ auth, getOwner id = some auth ∧
      auth.satisfied getActive sigs (initiallyApproved activeApprovals ownerApprovals) n = true
  owner : ∀ id ∈ requiredOwner ops, id ∈ ownerApprovals ∨ ∃ auth, getOwner id = some auth ∧
    auth.satisfied getActive sigs (initiallyApproved activeApprovals ownerApprovals) n = true

/-- The accounts that the checks of a transaction may look at, with the levels that are left. -/
inductive LooksAt (depth : Nat) : Nat → AccountId → Prop
  | other {auth : Authority} (hauth : auth ∈ ops.flatMap RequiredAuthorities.other) {a : AccountId}
      (ha : a ∈ auth.accountAuths.map Prod.fst) : LooksAt depth depth a
  | active {id : AccountId} (hid : id ∈ requiredActive ops) : LooksAt depth (depth + 1) id
  | owner {id : AccountId} (hid : id ∈ requiredActive ops ∨ id ∈ requiredOwner ops)
      {auth : Authority} (hauth : getOwner id = some auth) {a : AccountId}
      (ha : a ∈ auth.accountAuths.map Prod.fst) : LooksAt depth depth a
  | inner {n : Nat} {id : AccountId} (hid : LooksAt depth (n + 1) id) {auth : Authority}
      (hauth : getActive id = some auth) {a : AccountId} (ha : a ∈ auth.accountAuths.map Prod.fst) :
      LooksAt depth n a

end

theorem exists_level {α : Type} {P : α → Nat → Prop} (hmono : ∀ a m n, m ≤ n → P a m → P a n)
    {l : List α} (h : ∀ a ∈ l, ∃ n, P a n) : ∃ n, ∀ a ∈ l, P a n := by
  induction l with
  | nil => exact ⟨0, fun a ha => nomatch ha⟩
  | cons a l ih =>
    obtain ⟨m, hm⟩ := h a (List.mem_cons_self ..)
    obtain ⟨n, hn⟩ := ih fun b hb => h b (List.mem_cons_of_mem a hb)
    refine ⟨max m n, fun b hb => ?_⟩
    rcases List.mem_cons.mp hb with rfl | hb
    · exact hmono b m _ (le_max_left m n) hm
    · exact hmono b n _ (le_max_right m n) (hn b hb)

section

variable {ops : List RequiredAuthorities} {sigs : Finset PublicKey}
  {getActive getOwner : AccountId → Option Authority}
  {activeApprovals ownerApprovals : Finset AccountId}

theorem exists_satisfied
    (hother : ∀ auth ∈ ops.flatMap RequiredAuthorities.other, ∃ n, auth.satisfied getActive sigs
      (initiallyApproved activeApprovals ownerApprovals) n = true)
    (hactive : ∀ id ∈ requiredActive ops, ∃ n,
      id ∈ initiallyApproved activeApprovals ownerApprovals ∨
      (∃ auth, getActive id = some auth ∧ auth.satisfied getActive sigs
        (initiallyApproved activeApprovals ownerApprovals) n = true) ∨
      ∃ auth, getOwner id = some auth ∧ auth.satisfied getActive sigs
        (initiallyApproved activeApprovals ownerApprovals) n = true)
    (howner : ∀ id ∈ requiredOwner ops, ∃ n, id ∈ ownerApprovals ∨ ∃ auth, getOwner id = some auth ∧
      auth.satisfied getActive sigs (initiallyApproved activeApprovals ownerApprovals) n = true) :
    ∃ n, Satisfied ops sigs getActive getOwner activeApprovals ownerApprovals n := by
  -- with more levels each of them stays satisfied
  have hpointer : ∀ {pointer : Option Authority} {m n : Nat}, m ≤ n →
      (∃ auth, pointer = some auth ∧ auth.satisfied getActive sigs
        (initiallyApproved activeApprovals ownerApprovals) m = true) →
      ∃ auth, pointer = some auth ∧ auth.satisfied getActive sigs
        (initiallyApproved activeApprovals ownerApprovals) n = true :=
    fun hle ⟨auth, ha, hsat⟩ => ⟨auth, ha, Authority.satisfied_mono hle hsat⟩
  obtain ⟨n₁, hn₁⟩ := exists_level (P := fun auth n => Authority.satisfied getActive sigs
    (initiallyApproved activeApprovals ownerApprovals) auth n = true)
    (fun _ _ _ hle => Authority.satisfied_mono hle) hother
  obtain ⟨n₂, hn₂⟩ := exists_level
    (fun _ _ _ hle h => h.imp_right fun h => h.imp (hpointer hle) (hpointer hle)) hactive
  obtain ⟨n₃, hn₃⟩ := exists_level (fun _ _ _ hle h => h.imp_right (hpointer hle)) howner
  refine ⟨max n₁ (max n₂ n₃), fun auth ha => ?_, fun id hid => ?_, fun id hid => ?_⟩
  · exact Authority.satisfied_mono (le_max_left _ _) (hn₁ auth ha)
  · have hle : n₂ ≤ max n₁ (max n₂ n₃) := (le_max_left _ _).trans (le_max_right _ _)
    exact (hn₂ id hid).imp_right fun h => h.imp (hpointer hle) (hpointer hle)
  · have hle : n₃ ≤ max n₁ (max n₂ n₃) := (le_max_right _ _).trans (le_max_right _ _)
    exact (hn₃ id hid).imp_right (hpointer hle)

variable (getActive) in
theorem pointer_mono {pointer : Option Authority} {n : Nat} {approved approved' : Finset AccountId}
    (hsub : approved ⊆ approved')
    (h : ∃ auth, pointer = some auth ∧ auth.satisfied getActive sigs approved n = true) :
    ∃ auth, pointer = some auth ∧ auth.satisfied getActive sigs approved' n = true := by
  obtain ⟨auth, hauth, hsat⟩ := h
  exact ⟨auth, hauth, Authority.satisfied_mono_sets (Finset.Subset.refl _) hsub hsat⟩

section

variable {approved : Finset AccountId} {looks : Nat → AccountId → Prop}

variable (getOwner) in
theorem checkActive_spec (hbelow : LooksBelow getActive looks) (n : Nat) (id : AccountId)
    (hid : looks (n + 1) id) (howner : ∀ auth, getOwner id = some auth →
      ∀ a ∈ auth.accountAuths.map Prod.fst, looks n a) {s : SignState}
    (hs : Remembered getActive sigs approved looks s.approvedBy) :
    Checks getActive sigs approved looks
      (id ∈ approved ∨
        (∃ auth, getActive id = some auth ∧ auth.satisfied getActive sigs approved n = true) ∨
        ∃ auth, getOwner id = some auth ∧ auth.satisfied getActive sigs approved n = true)
      (fun known => id ∈ known ∨
        (∃ auth, getActive id = some auth ∧ auth.satisfied getActive sigs known n = true) ∨
        ∃ auth, getOwner id = some auth ∧ auth.satisfied getActive sigs known n = true)
      s (if (checkAccount getActive sigs n id s).1 then checkAccount getActive sigs n id s
        else checkPointer getActive sigs n (getOwner id)
          (checkAccount getActive sigs n id s).2) := by
  by_cases hmem : id ∈ s.approvedBy
  · simp only [checkAccount, if_pos hmem, if_true]
    exact ⟨hs, Finset.Subset.refl _, fun _ => rfl, fun _ => Or.inl hmem⟩
  · simp only [checkAccount, if_neg hmem]
    obtain ⟨hactive, hgrows, hcomplete, hsound⟩ := checkPointer_spec hbelow n (getActive id)
      (fun auth hauth => hbelow n id auth hid hauth) hs
    obtain ⟨howner, hgrows', hcomplete', hsound'⟩ :=
      checkPointer_spec hbelow n (getOwner id) howner hactive
    by_cases htrue : (checkPointer getActive sigs n (getActive id) s).1 = true
    · rw [if_pos htrue]
      exact ⟨hactive, hgrows, fun _ => htrue, fun _ => Or.inr (Or.inl (hsound htrue))⟩
    · rw [if_neg htrue]
      refine ⟨howner, hgrows.trans hgrows', ?_, fun h => Or.inr (Or.inr (hsound' h))⟩
      rintro (h | h | h)
      · exact absurd (hs.approved_subset h) hmem
      · exact absurd (hcomplete h) htrue
      · exact hcomplete' h

variable (getOwner ownerApprovals) in
theorem checkOwner_spec (hbelow : LooksBelow getActive looks) (n : Nat) (id : AccountId)
    (howner : ∀ auth, getOwner id = some auth → ∀ a ∈ auth.accountAuths.map Prod.fst, looks n a)
    {s : SignState} (hs : Remembered getActive sigs approved looks s.approvedBy) :
    Checks getActive sigs approved looks
      (id ∈ ownerApprovals ∨
        ∃ auth, getOwner id = some auth ∧ auth.satisfied getActive sigs approved n = true)
      (fun known => id ∈ ownerApprovals ∨
        ∃ auth, getOwner id = some auth ∧ auth.satisfied getActive sigs known n = true)
      s (if id ∈ ownerApprovals then (true, s) else checkPointer getActive sigs n
        (getOwner id) s) := by
  by_cases hmem : id ∈ ownerApprovals
  · rw [if_pos hmem]
    exact ⟨hs, Finset.Subset.refl _, fun _ => rfl, fun _ => Or.inl hmem⟩
  · rw [if_neg hmem]
    obtain ⟨hremembers, hgrows, hcomplete, hsound⟩ := checkPointer_spec hbelow n (getOwner id)
      howner hs
    exact ⟨hremembers, hgrows, fun h => hcomplete (h.resolve_left hmem),
      fun h => Or.inr (hsound h)⟩

end

section

variable {depth : Nat}

theorem looksBelow : LooksBelow getActive (LooksAt ops getActive getOwner depth) :=
  fun _ _ _ hid hauth _ ha => .inner hid hauth ha

variable (ops sigs getActive getOwner activeApprovals ownerApprovals depth) in
/-- The three runs of checks: each of them succeeds, and everything required is satisfied with the
accounts that are remembered in the end, or something is not satisfied within the depth. -/
theorem checks_cases :
    (∃ s₁ s₂ s₃, requireAll (checkAuthority getActive sigs depth) .missingOtherAuth
        (ops.flatMap RequiredAuthorities.other)
        ⟨∅, initiallyApproved activeApprovals ownerApprovals⟩ = .ok s₁ ∧
      requireAll (fun id s =>
        let r := checkAccount getActive sigs depth id s
        if r.1 then r else checkPointer getActive sigs depth (getOwner id) r.2)
        .missingActiveAuth (requiredActive ops) s₁ = .ok s₂ ∧
      requireAll (fun id s => if id ∈ ownerApprovals then (true, s)
        else checkPointer getActive sigs depth (getOwner id) s)
        .missingOwnerAuth (requiredOwner ops) s₂ = .ok s₃ ∧
      Remembered getActive sigs (initiallyApproved activeApprovals ownerApprovals)
        (LooksAt ops getActive getOwner depth) s₃.approvedBy ∧
      Satisfied ops sigs getActive getOwner s₃.approvedBy ownerApprovals depth) ∨
    ¬Satisfied ops sigs getActive getOwner activeApprovals ownerApprovals depth ∧
      ∃ e, e.isMissing = true ∧ ∀ allowCommittee,
        ¬(allowCommittee = false ∧ committeeAccount ∈ requiredActive ops) →
        verifyAuthority ops sigs getActive getOwner depth allowCommittee activeApprovals
          ownerApprovals = .error e := by
  have hpointer := @pointer_mono sigs getActive
  have hknown : ∀ known : Finset AccountId, known ⊆ initiallyApproved known ownerApprovals :=
    fun known => Finset.subset_union_left.trans (Finset.subset_insert _ _)
  rcases requireAll_spec .missingOtherAuth
      (fun auth _ _ hsub (h : auth.satisfied getActive sigs _ depth = true) =>
        Authority.satisfied_mono_sets (Finset.Subset.refl _) hsub h)
      (ops.flatMap RequiredAuthorities.other)
      (fun auth hauth _ hs => checkAuthority_spec looksBelow depth auth
        (fun _ ha => .other hauth ha) hs)
      (s := ⟨∅, initiallyApproved activeApprovals ownerApprovals⟩) .start with
    ⟨s₁, h₁, hs₁, -, hother⟩ | ⟨auth, hauth, h₁, hnot⟩
  · rcases requireAll_spec .missingActiveAuth
        (fun _ _ _ hsub h => h.imp (fun h => hsub h) fun h => h.imp (hpointer hsub) (hpointer hsub))
        (requiredActive ops)
        (fun id hid _ hs => checkActive_spec getOwner looksBelow depth id (.active hid)
          (fun _ hauth _ ha => .owner (Or.inl hid) hauth ha) hs) hs₁ with
      ⟨s₂, h₂, hs₂, hgrows₂, hactive⟩ | ⟨id, hid, h₂, hnot⟩
    · rcases requireAll_spec .missingOwnerAuth
          (fun _ _ _ hsub h => h.imp_right (hpointer hsub)) (requiredOwner ops)
          (fun id hid _ hs => checkOwner_spec getOwner ownerApprovals looksBelow depth id
            (fun _ hauth _ ha => .owner (Or.inr hid) hauth ha) hs) hs₂ with
        ⟨s₃, h₃, hs₃, hgrows₃, howner⟩ | ⟨id, hid, h₃, hnot⟩
      · have hsub := hgrows₃.trans (hknown s₃.approvedBy)
        refine Or.inl ⟨s₁, s₂, s₃, h₁, h₂, h₃, hs₃, fun auth hauth => ?_, fun id hid => ?_,
          fun id hid => ?_⟩
        · exact Authority.satisfied_mono_sets (Finset.Subset.refl _) (hgrows₂.trans hsub)
            (hother auth hauth)
        · exact (hactive id hid).imp (fun h => hsub h) fun h => h.imp (hpointer hsub) (hpointer hsub)
        · exact (howner id hid).imp_right (hpointer (hknown _))
      · refine Or.inr ⟨fun hsat => hnot (hsat.owner id hid), .missingOwnerAuth id, rfl,
          fun _ hcommittee => ?_⟩
        simp only [verifyAuthority, if_neg hcommittee, h₁, h₂, h₃, bind, Except.bind]
    · refine Or.inr ⟨fun hsat => hnot (hsat.active id hid), .missingActiveAuth id, rfl,
        fun _ hcommittee => ?_⟩
      simp only [verifyAuthority, if_neg hcommittee, h₁, h₂, bind, Except.bind]
  · refine Or.inr ⟨fun hsat => hnot (hsat.other auth hauth), .missingOtherAuth auth, rfl,
      fun _ hcommittee => ?_⟩
    simp only [verifyAuthority, if_neg hcommittee, h₁, bind, Except.bind]

/-- What is satisfied with the remembered accounts is so without them, where an account counts at
each depth at which it is looked at or at none. -/
theorem Remembered.satisfied {known : Finset AccountId}
    (h : Remembered getActive sigs (initiallyApproved activeApprovals ownerApprovals)
      (LooksAt ops getActive getOwner depth) known)
    (halike : ∀ m n id, LooksAt ops getActive getOwner depth m id →
      LooksAt ops getActive getOwner depth n id →
      Protocol.counts getActive sigs (initiallyApproved activeApprovals ownerApprovals) m id =
        true →
      Protocol.counts getActive sigs (initiallyApproved activeApprovals ownerApprovals) n id = true)
    (hsat : Satisfied ops sigs getActive getOwner known ownerApprovals depth) :
    Satisfied ops sigs getActive getOwner activeApprovals ownerApprovals depth := by
  have happroved : initiallyApproved known ownerApprovals = known := by
    have hstart := h.approved_subset
    have htemp : tempAccount ∈ known := hstart (Finset.mem_insert_self _ _)
    have howner : ownerApprovals ⊆ known :=
      (Finset.subset_union_right.trans (Finset.subset_insert _ _)).trans hstart
    rw [initiallyApproved, Finset.union_eq_left.mpr howner, Finset.insert_eq_self.mpr htemp]
  have hcounts := h.counts looksBelow halike
  have hauth : ∀ auth : Authority,
      (∀ a ∈ auth.accountAuths.map Prod.fst, LooksAt ops getActive getOwner depth depth a) →
      auth.satisfied getActive sigs known depth = true → auth.satisfied getActive sigs
        (initiallyApproved activeApprovals ownerApprovals) depth = true := fun auth hlooks hsat =>
    Authority.reaches_mono (Finset.Subset.refl _)
      (fun a ha => hcounts depth a (hlooks a ha)) hsat
  obtain ⟨hother, hactive, howner⟩ := hsat
  rw [happroved] at hother hactive howner
  refine ⟨fun auth ha => hauth auth (fun _ => .other ha) (hother auth ha), fun id hid => ?_,
    fun id hid => ?_⟩
  · have hlooks : LooksAt ops getActive getOwner depth (depth + 1) id := .active hid
    rcases hactive id hid with hin | hsat | ⟨auth, howner, hsat⟩
    · exact (counts_succ_iff.mp (hcounts _ id hlooks (counts_of_mem hin _))).imp_right Or.inl
    · exact (counts_succ_iff.mp (hcounts _ id hlooks (counts_succ_iff.mpr
        (Or.inr hsat)))).imp_right Or.inl
    · exact Or.inr (Or.inr ⟨auth, howner,
        hauth auth (fun _ => .owner (Or.inl hid) howner) hsat⟩)
  · refine (howner id hid).imp_right ?_
    rintro ⟨auth, howner, hsat⟩
    exact ⟨auth, howner, hauth auth (fun _ => .owner (Or.inr hid) howner) hsat⟩

end

end

/-! ### The order of the checks

At depth 1 the account 11 is out of reach of the key: it needs 21, which needs 20, which needs the
key. The check of 10 puts 20 into the memory, from where the check of 11 takes it one level too
deep. -/

/-- An authority that one other account satisfies. -/
def accountAuthority (id : AccountId) : Authority := ⟨1, [(id, 1)], [], Nat.lt_of_sub_eq_succ rfl⟩

def keyAuthority (key : PublicKey) : Authority := ⟨1, [], [(key, 1)], Nat.lt_of_sub_eq_succ rfl⟩

/-- The account 20 holds the key 100, 10 and 21 stand on 20, and 9 and 11 on 21. -/
def chainedActive : AccountId → Option Authority
  | 20 => some (keyAuthority 100)
  | 10 => some (accountAuthority 20)
  | 21 => some (accountAuthority 20)
  | 9 => some (accountAuthority 21)
  | 11 => some (accountAuthority 21)
  | _ => none

theorem chained_levels (n : Nat) (id : AccountId)
    (h : LooksAt [⟨11, [], [], []⟩] chainedActive (fun _ => none) 1 n id) :
    n = 2 ∧ id = 11 ∨ n = 1 ∧ id = 21 ∨ n = 0 ∧ id = 20 := by
  induction h with
  | other hauth _ => cases hauth
  | active hid => exact Or.inl ⟨rfl, by simpa [requiredActive, flatSet] using hid⟩
  | owner _ hauth _ => cases hauth
  | inner _ hauth ha ih =>
    rcases ih with ⟨hn, rfl⟩ | ⟨hn, rfl⟩ | ⟨hn, rfl⟩
    · obtain rfl := Option.some.inj hauth
      exact Or.inr (Or.inl ⟨by omega, by simpa [accountAuthority] using ha⟩)
    · obtain rfl := Option.some.inj hauth
      exact Or.inr (Or.inr ⟨by omega, by simpa [accountAuthority] using ha⟩)
    · omega

end Nestchain.Protocol
