import Nestchain.Protocol.KeyUse
import Mathlib.Data.Finset.Sort

/-! The signatures that a transaction without signatures needs.  `get_required_signatures` proposes
the keys that its checks come to, and `minimize_required_signatures` takes away one after the other
as long as the verification succeeds.  The checks remember the accounts that they approved, but not
at which depth.  The walk without that memory is defined here over the sets of keys alone: more keys
satisfy more, and let the walk come to fewer of the keys that were there before. -/

namespace Nestchain.Protocol

/-! ### The code -/

/-- A run of checks whose results are not looked at. -/
def checkEach {α : Type} (check : α → SignState → Bool × SignState) : List α → SignState → SignState
  | [], s => s
  | a :: l, s => checkEach check l (check a s).2

/-- `transaction::get_required_authorities` leaves out the active authority of an account whose
owner authority is required. -/
def requiredActiveOnly (ops : List RequiredAuthorities) : List AccountId :=
  (requiredActive ops).filter fun id => id ∉ requiredOwner ops

/-- `get_required_signatures` of a transaction without signatures. -/
def getRequiredSignatures (ops : List RequiredAuthorities) (availableKeys : Finset PublicKey)
    (getActive getOwner : AccountId → Option Authority) (maxRecursionDepth : Nat) :
      Finset PublicKey :=
  let s : SignState := ⟨∅, initiallyApproved ∅ ∅⟩
  let s := checkEach (checkAuthority getActive availableKeys maxRecursionDepth)
    (ops.flatMap RequiredAuthorities.other) s
  let s := checkEach (fun id => checkPointer getActive availableKeys maxRecursionDepth
    (getOwner id))
    (requiredOwner ops) s
  let s := checkEach (checkActive availableKeys getActive getOwner maxRecursionDepth)
    (requiredActiveOnly ops) s
  s.used.filter fun k => k ∈ availableKeys

/-- The loop of `minimize_required_signatures`, which passes on an error that is not about a missing
authority. -/
def minimizeLoop (verify : Finset PublicKey → Except AuthorityError Unit) :
    List PublicKey → Finset PublicKey → Except AuthorityError (Finset PublicKey)
  | [], result => .ok result
  | k :: keys, result =>
    match verify (result.erase k) with
    | .ok _ => minimizeLoop verify keys (result.erase k)
    | .error e => if e.isMissing then minimizeLoop verify keys
      (insert k (result.erase k)) else .error e

/-- `minimize_required_signatures` of a transaction without signatures. -/
def minimizeRequiredSignatures (ops : List RequiredAuthorities) (availableKeys : Finset PublicKey)
    (getActive getOwner : AccountId → Option Authority) (maxRecursion : Nat) :
    Except AuthorityError (Finset PublicKey) :=
  let s := getRequiredSignatures ops availableKeys getActive getOwner maxRecursion
  minimizeLoop (fun result => verifyAuthority ops result getActive getOwner maxRecursion false ∅ ∅)
    (s.sort (· ≤ ·)) s

/-! ### Taking keys away -/

section

variable {sat : Finset PublicKey → Prop}

/-- Where the verification accepts a set that is full exactly if it satisfies, taking away keys from
a set leaves a full one that satisfies, and none of the keys that were tried can be spared. -/
theorem minimizeLoop_spec (verify : Finset PublicKey → Except AuthorityError Unit)
    (full : Finset PublicKey → Prop) (hmono : ∀ S S', S ⊆ S' → sat S → sat S')
    (hfull : ∀ S k, full S → full (S.erase k))
    (keys : List PublicKey) (hnodup : keys.Nodup) {result : Finset PublicKey}
    (hverify : ∀ S ⊆ result, full S → (verify S = .ok () ∧ sat S) ∨
      ∃ e, verify S = .error e ∧ e.isMissing = true ∧ ¬sat S)
    (hkeys : ∀ k ∈ keys, k ∈ result) (hsat : sat result) (hresult : full result) :
    ∃ R, minimizeLoop verify keys result = .ok R ∧ R ⊆ result ∧ sat R ∧ full R ∧
      ∀ k ∈ keys, k ∈ R → ¬sat (R.erase k) := by
  induction keys generalizing result with
  | nil => exact ⟨result, rfl, Finset.Subset.refl _, hsat, hresult, by simp⟩
  | cons k keys ih =>
    obtain ⟨hk, hnodup⟩ := List.nodup_cons.mp hnodup
    rcases hverify _ (Finset.erase_subset k result) (hfull result k hresult) with
      ⟨hok, herased⟩ | ⟨e, herror, hmissing, hneeded⟩
    · have hrest : ∀ j ∈ keys, j ∈ result.erase k := fun j hj =>
        Finset.mem_erase.mpr ⟨fun heq => hk (heq ▸ hj), hkeys j (List.mem_cons_of_mem k hj)⟩
      obtain ⟨R, hR, hsub, hsatR, hfullR, hmin⟩ := ih hnodup
        (fun S hS => hverify S (hS.trans (Finset.erase_subset k result))) hrest herased
        (hfull result k hresult)
      refine ⟨R, ?_, hsub.trans (Finset.erase_subset k result), hsatR, hfullR, fun j hj hjR => ?_⟩
      · rw [minimizeLoop, hok]
        exact hR
      · rcases List.mem_cons.mp hj with rfl | hj
        · exact absurd (hsub hjR) (Finset.notMem_erase j result)
        · exact hmin j hj hjR
    · have hback : insert k (result.erase k) = result :=
        Finset.insert_erase (hkeys k List.mem_cons_self)
      obtain ⟨R, hR, hsub, hsatR, hfullR, hmin⟩ := ih hnodup hverify
        (fun j hj => hkeys j (List.mem_cons_of_mem k hj)) hsat hresult
      refine ⟨R, ?_, hsub, hsatR, hfullR, fun j hj hjR hspared => ?_⟩
      · simp only [minimizeLoop, herror, hmissing, if_true, hback]
        exact hR
      · rcases List.mem_cons.mp hj with rfl | hj
        · exact hneeded (hmono _ _ (Finset.erase_subset_erase j hsub) hspared)
        · exact hmin j hj hjR hspared

end

/-! ### The walk without memory -/

section

variable (getActive : AccountId → Option Authority) (sigs : Finset PublicKey)
  (approved : Finset AccountId)

def metKeys (threshold : Nat) : List (PublicKey × Nat) → Nat → List PublicKey
  | [], _ => []
  | (k, w) :: keys, total =>
    if k ∈ sigs then k :: if threshold ≤ total + w then [] else metKeys threshold keys (total + w)
    else metKeys threshold keys total

/-- The keys that the accounts up to the threshold come to. -/
def metAccounts (counts : AccountId → Bool) (met : AccountId → List PublicKey) (threshold : Nat) :
    List (AccountId × Nat) → Nat → List PublicKey
  | [], _ => []
  | (a, w) :: accounts, total =>
    met a ++
      if counts a then
        if threshold ≤ total + w then [] else metAccounts counts met threshold accounts (total + w)
      else metAccounts counts met threshold accounts total

/-- The keys of an authority reach its threshold. -/
def Authority.keysSuffice (auth : Authority) : Prop :=
  metKeys sigs auth.weightThreshold auth.keyAuths 0 ≠ [] ∧
    auth.weightThreshold ≤ weightOf (fun k => decide (k ∈ sigs)) auth.keyAuths

instance (auth : Authority) : Decidable (auth.keysSuffice sigs) :=
  inferInstanceAs (Decidable (_ ∧ _))

def Authority.metWith (auth : Authority) (counts : AccountId → Bool)
    (met : AccountId → List PublicKey) : List PublicKey :=
  metKeys sigs auth.weightThreshold auth.keyAuths 0 ++
    if auth.keysSuffice sigs then []
    else metAccounts counts met auth.weightThreshold auth.accountAuths
      (weightOf (fun k => decide (k ∈ sigs)) auth.keyAuths)

/-- The keys that the check of an account comes to, with so many levels left. -/
def metBelow : Nat → AccountId → List PublicKey
  | 0, _ => []
  | n + 1, id =>
    if id ∈ approved then []
    else ((getActive id).map fun auth =>
      auth.metWith sigs (counts getActive sigs approved n) (metBelow n)).getD []

/-- The keys that the check of an authority comes to. -/
def Authority.met (n : Nat) (auth : Authority) : List PublicKey :=
  auth.metWith sigs (counts getActive sigs approved n) (metBelow getActive sigs approved n)

def pointerMet (n : Nat) (pointer : Option Authority) : List PublicKey :=
  (pointer.map (Authority.met getActive sigs approved n)).getD []

/-- The check of a required active authority goes on to the owner authority where that is needed. -/
def activeMet (getOwner : AccountId → Option Authority) (n : Nat) (id : AccountId) :
    List PublicKey :=
  if id ∈ approved then []
  else pointerMet getActive sigs approved n (getActive id) ++
    if (getActive id).any fun auth => auth.satisfied getActive sigs approved n then []
    else pointerMet getActive sigs approved n (getOwner id)

end

section

variable (ops : List RequiredAuthorities) (getActive getOwner : AccountId → Option Authority)
  (depth : Nat) (sigs : Finset PublicKey)

/-- The keys that the checks come to when these active authorities are required. -/
def keysMetWith (active : List AccountId) : List PublicKey :=
  (ops.flatMap RequiredAuthorities.other).flatMap
      (Authority.met getActive sigs (initiallyApproved ∅ ∅) depth) ++
    active.flatMap (activeMet getActive sigs (initiallyApproved ∅ ∅) getOwner depth) ++
    (requiredOwner ops).flatMap fun id =>
      pointerMet getActive sigs (initiallyApproved ∅ ∅) depth (getOwner id)

def keysMet : List PublicKey := keysMetWith ops getActive getOwner depth sigs (requiredActive ops)

/-- The keys that the walk of a proposal comes to. -/
def keysProposed : List PublicKey :=
  keysMetWith ops getActive getOwner depth sigs (requiredActiveOnly ops)

end

/-! ### Fewer keys -/

section

variable {sigs sigs' : Finset PublicKey}

theorem mem_of_metKeys {threshold : Nat} {keys : List (PublicKey × Nat)} {total : Nat}
    {k : PublicKey}
    (h : k ∈ metKeys sigs threshold keys total) : k ∈ sigs := by
  induction keys generalizing total with
  | nil => exact nomatch h
  | cons r keys ih =>
    obtain ⟨j, w⟩ := r
    rw [metKeys] at h
    split at h
    · rename_i hj
      rcases List.mem_cons.mp h with rfl | h
      · exact hj
      · split at h
        · exact nomatch h
        · exact ih h
    · exact ih h

theorem metKeys_ne_nil {threshold : Nat} {keys : List (PublicKey × Nat)} {total : Nat} :
    metKeys sigs threshold keys total ≠ [] ↔ ∃ r ∈ keys, r.1 ∈ sigs := by
  induction keys generalizing total with
  | nil => simp [metKeys]
  | cons r keys ih =>
    obtain ⟨j, w⟩ := r
    by_cases hj : j ∈ sigs
    · simp [metKeys, hj]
    · simp [metKeys, hj, ih]

theorem metKeys_anti (hsigs : sigs' ⊆ sigs) {threshold : Nat} {keys : List (PublicKey × Nat)}
    {total total' : Nat} (htotal : total' ≤ total) {k : PublicKey}
    (h : k ∈ metKeys sigs threshold keys total) (hk : k ∈ sigs') :
    k ∈ metKeys sigs' threshold keys total' := by
  induction keys generalizing total total' with
  | nil => exact nomatch h
  | cons r keys ih =>
    obtain ⟨j, w⟩ := r
    rw [metKeys] at h ⊢
    by_cases hj : j ∈ sigs
    · rw [if_pos hj] at h
      by_cases hj' : j ∈ sigs'
      · rw [if_pos hj']
        rcases List.mem_cons.mp h with rfl | h
        · exact List.mem_cons_self
        · refine List.mem_cons_of_mem j ?_
          split at h
          · exact nomatch h
          · rw [if_neg (by omega)]
            exact ih (by omega) h
      · rw [if_neg hj']
        rcases List.mem_cons.mp h with rfl | h
        · exact absurd hk hj'
        · split at h
          · exact nomatch h
          · exact ih (by omega) h
    · rw [if_neg hj] at h
      rw [if_neg fun hj' => hj (hsigs hj')]
      exact ih htotal h

theorem metKeys_enough {threshold : Nat} {keys : List (PublicKey × Nat)} (total : Nat)
    (h : ∀ k ∈ metKeys sigs threshold keys total, k ∈ sigs') :
    threshold ≤ total + weightOf (fun k => decide (k ∈ sigs')) keys ∨
      weightOf (fun k => decide (k ∈ sigs)) keys ≤ weightOf (fun k => decide (k ∈ sigs')) keys := by
  induction keys generalizing total with
  | nil => exact .inr (le_refl _)
  | cons r keys ih =>
    obtain ⟨j, w⟩ := r
    rw [metKeys] at h
    rw [weightOf_cons, weightOf_cons]
    by_cases hj : j ∈ sigs
    · rw [if_pos hj] at h
      have hj' : j ∈ sigs' := h j List.mem_cons_self
      simp only [hj, hj', decide_true, if_true]
      by_cases hdone : threshold ≤ total + w
      · exact .inl (by omega)
      · rw [if_neg hdone] at h
        rcases ih (total + w) fun k hk => h k (List.mem_cons_of_mem j hk) with henough | hle
        · exact .inl (by omega)
        · exact .inr (by omega)
    · rw [if_neg hj] at h
      simp only [hj, decide_false, Bool.false_eq_true, if_false, Nat.zero_add]
      rcases ih total h with henough | hle
      · exact .inl (by omega)
      · exact .inr (by omega)

theorem metAccounts_anti {counts counts' : AccountId → Bool} {met met' : AccountId → List PublicKey}
    (hcounts : ∀ a, counts' a = true → counts a = true)
    (hmet : ∀ a k, k ∈ met a → k ∈ sigs' → k ∈ met' a) {threshold : Nat}
    {accounts : List (AccountId × Nat)} {total total' : Nat} (htotal : total' ≤ total)
    {k : PublicKey}
    (h : k ∈ metAccounts counts met threshold accounts total) (hk : k ∈ sigs') :
    k ∈ metAccounts counts' met' threshold accounts total' := by
  induction accounts generalizing total total' with
  | nil => exact nomatch h
  | cons r accounts ih =>
    obtain ⟨a, w⟩ := r
    rw [metAccounts] at h ⊢
    refine List.mem_append.mpr ((List.mem_append.mp h).imp (fun h => hmet a k h hk) fun h => ?_)
    by_cases ha : counts a = true
    · rw [if_pos ha] at h
      split at h
      · exact nomatch h
      · split
        · rw [if_neg (by omega)]
          exact ih (by omega) h
        · exact ih (by omega) h
    · rw [if_neg ha] at h
      rw [if_neg fun ha' => ha (hcounts a ha')]
      exact ih htotal h

theorem metAccounts_enough {counts counts' : AccountId → Bool} {met : AccountId → List PublicKey}
    (hcounts : ∀ a, (∀ k ∈ met a, k ∈ sigs') → counts a = true → counts' a = true)
    (threshold : Nat) (accounts : List (AccountId × Nat)) (total : Nat)
    (h : ∀ k ∈ metAccounts counts met threshold accounts total, k ∈ sigs') :
    threshold ≤ total + weightOf counts' accounts ∨
      weightOf counts accounts ≤ weightOf counts' accounts := by
  induction accounts generalizing total with
  | nil => exact .inr (le_refl _)
  | cons r accounts ih =>
    obtain ⟨a, w⟩ := r
    rw [metAccounts] at h
    rw [weightOf_cons, weightOf_cons]
    by_cases ha : counts a = true
    · have ha' : counts' a = true := hcounts a (fun k hk => h k (List.mem_append_left _ hk)) ha
      simp only [ha, ha', if_true] at h ⊢
      by_cases hdone : threshold ≤ total + w
      · exact .inl (by omega)
      · rw [if_neg hdone] at h
        rcases ih (total + w) fun k hk => h k (List.mem_append_right _ hk) with henough | hle
        · exact .inl (by omega)
        · exact .inr (by omega)
    · simp only [ha, Bool.false_eq_true, if_false, Nat.zero_add] at h ⊢
      rcases ih total fun k hk => h k (List.mem_append_right _ hk) with henough | hle
      · exact .inl (by omega)
      · exact .inr (by omega)

theorem Authority.keysSuffice_mono {auth : Authority} (hsigs : sigs' ⊆ sigs)
    (h : auth.keysSuffice sigs') : auth.keysSuffice sigs := by
  obtain ⟨r, hr, hsigned⟩ := metKeys_ne_nil.mp h.1
  refine ⟨metKeys_ne_nil.mpr ⟨r, hr, hsigs hsigned⟩, h.2.trans (weightOf_mono fun k _ hk => ?_)⟩
  exact decide_eq_true (hsigs (of_decide_eq_true hk))

theorem Authority.metWith_anti {auth : Authority} {counts counts' : AccountId → Bool}
    {met met' : AccountId → List PublicKey} (hsigs : sigs' ⊆ sigs)
    (hcounts : ∀ a, counts' a = true → counts a = true)
    (hmet : ∀ a k, k ∈ met a → k ∈ sigs' → k ∈ met' a) {k : PublicKey}
    (h : k ∈ auth.metWith sigs counts met) (hk : k ∈ sigs') :
      k ∈ auth.metWith sigs' counts' met' := by
  refine List.mem_append.mpr ((List.mem_append.mp h).imp
    (fun h => metKeys_anti hsigs (le_refl 0) h hk) fun h => ?_)
  split at h
  · exact nomatch h
  · rename_i hsuffice
    rw [if_neg fun h' => hsuffice (Authority.keysSuffice_mono hsigs h')]
    refine metAccounts_anti hcounts hmet (weightOf_mono fun j _ hj => ?_) h hk
    exact decide_eq_true (hsigs (of_decide_eq_true hj))

theorem Authority.reaches_of_met {auth : Authority} {counts counts' : AccountId → Bool}
    {met : AccountId → List PublicKey}
    (hcounts : ∀ a, (∀ k ∈ met a, k ∈ sigs') → counts a = true → counts' a = true)
    (hmet : ∀ k ∈ auth.metWith sigs counts met, k ∈ sigs')
    (h : auth.reaches sigs counts = true) : auth.reaches sigs' counts' = true := by
  simp only [reaches, decide_eq_true_eq] at h ⊢
  have hkeys := metKeys_enough 0 fun k hk => hmet k (List.mem_append_left _ hk)
  rw [Nat.zero_add] at hkeys
  by_cases hsuffice : auth.keysSuffice sigs
  · have hweight := hsuffice.2
    omega
  · have haccounts := metAccounts_enough hcounts auth.weightThreshold auth.accountAuths
      (weightOf (fun k => decide (k ∈ sigs)) auth.keyAuths) fun k hk =>
        hmet k (List.mem_append_right _ (by rwa [if_neg hsuffice]))
    omega

end

section

variable {getActive : AccountId → Option Authority} {sigs sigs' : Finset PublicKey}
  {approved : Finset AccountId}

theorem metBelow_anti (hsigs : sigs' ⊆ sigs) (n : Nat) : ∀ (id : AccountId) (k : PublicKey),
    k ∈ metBelow getActive sigs approved n id → k ∈ sigs' →
      k ∈ metBelow getActive sigs' approved n id := by
  induction n with
  | zero => exact fun _ _ h => nomatch h
  | succ n ih =>
    intro id k h hk
    rw [metBelow] at h ⊢
    split at h
    · exact nomatch h
    · rename_i hid
      rw [if_neg hid]
      cases hactive : getActive id with
      | none =>
        rw [hactive] at h
        exact nomatch h
      | some auth =>
        rw [hactive] at h
        exact Authority.metWith_anti hsigs
          (fun a => counts_mono_sets hsigs (Finset.Subset.refl _) n a) ih h hk

theorem Authority.met_anti {auth : Authority} {n : Nat} (hsigs : sigs' ⊆ sigs) {k : PublicKey}
    (h : k ∈ auth.met getActive sigs approved n) (hk : k ∈ sigs') :
    k ∈ auth.met getActive sigs' approved n :=
  Authority.metWith_anti hsigs (fun a => counts_mono_sets hsigs (Finset.Subset.refl _) n a)
    (metBelow_anti hsigs n) h hk

theorem counts_of_met (n : Nat) : ∀ id : AccountId,
    (∀ k ∈ metBelow getActive sigs approved n id, k ∈ sigs') →
      counts getActive sigs approved n id = true → counts getActive sigs' approved n id = true := by
  induction n with
  | zero => exact fun _ _ h => h
  | succ n ih =>
    intro id hmet h
    by_cases hid : id ∈ approved
    · exact counts_of_mem hid (n + 1)
    · rw [metBelow, if_neg hid] at hmet
      rw [counts, Bool.or_eq_true] at h ⊢
      refine h.imp (fun h => h) fun h => ?_
      obtain ⟨auth, hauth, hreaches⟩ := (Option.any_eq_true _ _).mp h
      rw [hauth] at hmet
      exact (Option.any_eq_true _ _).mpr ⟨auth, hauth, Authority.reaches_of_met ih hmet hreaches⟩

theorem Authority.satisfied_of_met {auth : Authority} {n : Nat}
    (hmet : ∀ k ∈ auth.met getActive sigs approved n, k ∈ sigs')
    (h : auth.satisfied getActive sigs approved n = true) :
    auth.satisfied getActive sigs' approved n = true :=
  Authority.reaches_of_met (counts_of_met n) hmet h

theorem pointerMet_anti {pointer : Option Authority} {n : Nat} (hsigs : sigs' ⊆ sigs)
    {k : PublicKey}
    (h : k ∈ pointerMet getActive sigs approved n pointer) (hk : k ∈ sigs') :
    k ∈ pointerMet getActive sigs' approved n pointer := by
  cases pointer with
  | none => exact nomatch h
  | some auth => exact Authority.met_anti hsigs h hk

theorem activeMet_anti {getOwner : AccountId → Option Authority} {n : Nat} {id : AccountId}
    (hsigs : sigs' ⊆ sigs) {k : PublicKey}
    (h : k ∈ activeMet getActive sigs approved getOwner n id) (hk : k ∈ sigs') :
    k ∈ activeMet getActive sigs' approved getOwner n id := by
  rw [activeMet] at h ⊢
  split at h
  · exact nomatch h
  · rename_i hid
    rw [if_neg hid]
    refine List.mem_append.mpr ((List.mem_append.mp h).imp (fun h => pointerMet_anti hsigs h hk)
      fun h => ?_)
    split at h
    · exact nomatch h
    · rename_i hactive
      rw [if_neg fun hactive' => hactive ?_]
      · exact pointerMet_anti hsigs h hk
      · obtain ⟨auth, hauth, hsat⟩ := (Option.any_eq_true _ _).mp hactive'
        exact (Option.any_eq_true _ _).mpr
          ⟨auth, hauth, Authority.satisfied_mono_sets hsigs (Finset.Subset.refl _) hsat⟩

end

section

variable {ops : List RequiredAuthorities} {getActive getOwner : AccountId → Option Authority}
  {depth : Nat} {sigs sigs' : Finset PublicKey}

theorem keysMetWith_anti {active : List AccountId} (hsigs : sigs' ⊆ sigs) {k : PublicKey}
    (h : k ∈ keysMetWith ops getActive getOwner depth sigs active) (hk : k ∈ sigs') :
    k ∈ keysMetWith ops getActive getOwner depth sigs' active := by
  simp only [keysMetWith, List.mem_append, List.mem_flatMap] at h ⊢
  rcases h with (⟨auth, hauth, h⟩ | ⟨id, hid, h⟩) | ⟨id, hid, h⟩
  · exact .inl (.inl ⟨auth, hauth, Authority.met_anti hsigs h hk⟩)
  · exact .inl (.inr ⟨id, hid, activeMet_anti hsigs h hk⟩)
  · exact .inr ⟨id, hid, pointerMet_anti hsigs h hk⟩

theorem keysMet_of_proposed {k : PublicKey} (h :
    k ∈ keysProposed ops getActive getOwner depth sigs) :
    k ∈ keysMet ops getActive getOwner depth sigs := by
  simp only [keysProposed, keysMet, keysMetWith, List.mem_append, List.mem_flatMap] at h ⊢
  refine h.imp (fun h => h.imp_right ?_) fun h => h
  rintro ⟨id, hid, h⟩
  exact ⟨id, (List.mem_filter.mp hid).1, h⟩

theorem Satisfied.of_proposed
    (hmet : ∀ k ∈ keysProposed ops getActive getOwner depth sigs, k ∈ sigs')
    (h : Satisfied ops sigs getActive getOwner ∅ ∅ depth) :
    Satisfied ops sigs' getActive getOwner ∅ ∅ depth := by
  simp only [keysProposed, keysMetWith, List.mem_append, List.mem_flatMap] at hmet
  have howner : ∀ id ∈ requiredOwner ops, ∃ auth, getOwner id = some auth ∧
      auth.satisfied getActive sigs' (initiallyApproved ∅ ∅) depth = true := by
    intro id hid
    obtain ⟨auth, hauth, hsat⟩ := (h.owner id hid).resolve_left (Finset.notMem_empty id)
    refine ⟨auth, hauth, Authority.satisfied_of_met (fun k hk => ?_) hsat⟩
    exact hmet k (.inr ⟨id, hid, by rwa [hauth]⟩)
  refine ⟨fun auth hauth => ?_, fun id hid => ?_, fun id hid => .inr (howner id hid)⟩
  · refine Authority.satisfied_of_met (fun k hk => ?_) (h.other auth hauth)
    exact hmet k (.inl (.inl ⟨auth, List.mem_flatMap.mp hauth, hk⟩))
  · by_cases hboth : id ∈ requiredOwner ops
    -- the proposal leaves this one out, and the owner authority satisfies it
    · exact .inr (.inr (howner id hboth))
    · by_cases happroved : id ∈ initiallyApproved ∅ ∅
      · exact .inl happroved
      · have hid' : id ∈ requiredActiveOnly ops :=
          List.mem_filter.mpr ⟨hid, decide_eq_true hboth⟩
        have hkeys : ∀ k ∈ activeMet getActive sigs (initiallyApproved ∅ ∅) getOwner depth id,
            k ∈ sigs' := fun k hk => hmet k (.inl (.inr ⟨id, hid', hk⟩))
        rw [activeMet, if_neg happroved] at hkeys
        refine .inr ?_
        by_cases hactive : ((getActive id).any fun auth =>
            auth.satisfied getActive sigs (initiallyApproved ∅ ∅) depth) = true
        · obtain ⟨auth, hauth, hsat⟩ := (Option.any_eq_true _ _).mp hactive
          refine .inl ⟨auth, hauth, Authority.satisfied_of_met (fun k hk => ?_) hsat⟩
          exact hkeys k (List.mem_append_left _ (by rwa [hauth]))
        · have hnot : ¬∃ auth, getActive id = some auth ∧
              auth.satisfied getActive sigs (initiallyApproved ∅ ∅) depth = true :=
            fun ⟨auth, hauth, hsat⟩ => hactive ((Option.any_eq_true _ _).mpr ⟨auth, hauth, hsat⟩)
          obtain ⟨auth, hauth, hsat⟩ :=
            ((h.active id hid).resolve_left happroved).resolve_left hnot
          refine .inr ⟨auth, hauth, Authority.satisfied_of_met (fun k hk => ?_) hsat⟩
          exact hkeys k (List.mem_append_right _ (by rwa [if_neg hactive, hauth]))

end

/-! ### The checks walk as without memory

The memory makes no difference when an account that counts at one depth where the checks may look at
it counts at each of them, through the same keys. -/

section

variable (getActive : AccountId → Option Authority) (sigs : Finset PublicKey)
  (approved : Finset AccountId) (looks : Nat → AccountId → Prop)

/-- The accounts in the memory count where the checks looked at them, and their keys are marked. -/
structure Recalls (s : SignState) : Prop where
  start : approved ⊆ s.approvedBy
  sound : ∀ id ∈ s.approvedBy, id ∈ approved ∨ ∃ m, looks m id ∧
    counts getActive sigs approved m id = true ∧ ∀ k ∈ metBelow getActive sigs approved m id,
      k ∈ s.used

/-- The result of a check is what holds without the memory, and the keys of the walk without it were
marked. -/
structure Walks (sat : Prop) (met : List PublicKey) (s : SignState)
    (r : Bool × SignState) : Prop where
  verdict : r.1 = true ↔ sat
  used : ∀ k, k ∈ r.2.used ↔ k ∈ s.used ∨ k ∈ met
  recalls : Recalls getActive sigs approved looks r.2

/-- The accounts that are looked at count at each depth alike. -/
structure Steady : Prop where
  below : ∀ n id auth, looks (n + 1) id → getActive id = some auth →
    ∀ a ∈ auth.accountAuths.map Prod.fst, looks n a
  alike : ∀ m n id, looks m id → looks n id → counts getActive sigs approved m id = true →
    counts getActive sigs approved n id = true ∧
      ∀ k, k ∈ metBelow getActive sigs approved n id ↔ k ∈ metBelow getActive sigs approved m id

end

section

variable {getActive : AccountId → Option Authority} {sigs : Finset PublicKey}
  {approved : Finset AccountId} {looks : Nat → AccountId → Prop}

theorem metBelow_of_mem {id : AccountId} (h : id ∈ approved) (n : Nat) :
    metBelow getActive sigs approved n id = [] := by
  cases n with
  | zero => rfl
  | succ n => rw [metBelow, if_pos h]

theorem Recalls.counts {s : SignState} (hs : Recalls getActive sigs approved looks s)
    (hsteady : Steady getActive sigs approved looks) {n : Nat} {id : AccountId}
    (hlooks : looks n id)
    (h : id ∈ s.approvedBy) : Protocol.counts getActive sigs approved n id = true ∧
      ∀ k ∈ metBelow getActive sigs approved n id, k ∈ s.used := by
  rcases hs.sound id h with hid | ⟨m, hm, hcounts, hmet⟩
  · exact ⟨counts_of_mem hid n, by simp [metBelow_of_mem hid]⟩
  · obtain ⟨hcounts', hsame⟩ := hsteady.alike m n id hm hlooks hcounts
    exact ⟨hcounts', fun k hk => hmet k ((hsame k).mp hk)⟩

theorem Recalls.remember {s : SignState} (hs : Recalls getActive sigs approved looks s) {n : Nat}
    {id : AccountId} (hlooks : looks n id) (hcounts :
      Protocol.counts getActive sigs approved n id = true)
    (hmet : ∀ k ∈ metBelow getActive sigs approved n id, k ∈ s.used) :
    Recalls getActive sigs approved looks { s with approvedBy := insert id s.approvedBy } := by
  refine ⟨hs.start.trans (Finset.subset_insert _ _), fun j hj => ?_⟩
  rcases Finset.mem_insert.mp hj with rfl | hj
  · exact .inr ⟨n, hlooks, hcounts, hmet⟩
  · exact hs.sound j hj

theorem Recalls.grow {s : SignState} (hs : Recalls getActive sigs approved looks s)
    (used : Finset PublicKey) (hused : s.used ⊆ used) :
    Recalls getActive sigs approved looks { s with used := used } := by
  refine ⟨hs.start, fun id hid => (hs.sound id hid).imp_right ?_⟩
  rintro ⟨m, hm, hcounts, hmet⟩
  exact ⟨m, hm, hcounts, fun k hk => hused (hmet k hk)⟩

variable (sigs) in
theorem keyLoop_walks (threshold : Nat) (keys : List (PublicKey × Nat)) (total : Nat)
    (s : SignState) :
    ((keyLoop sigs threshold keys total s).1 = true ↔ metKeys sigs threshold keys total ≠ [] ∧
      threshold ≤ total + weightOf (fun k => decide (k ∈ sigs)) keys) ∧
    ∀ k, k ∈ (keyLoop sigs threshold keys total s).2.2.used ↔
      k ∈ s.used ∨ k ∈ metKeys sigs threshold keys total := by
  induction keys generalizing total s with
  | nil => simp [keyLoop, metKeys]
  | cons r keys ih =>
    obtain ⟨j, w⟩ := r
    rw [weightOf_cons]
    by_cases hj : j ∈ sigs
    · by_cases hdone : threshold ≤ total + w
      · simp only [keyLoop, metKeys, if_pos hj, if_pos hdone, decide_eq_true hj, if_true]
        refine ⟨⟨fun _ => ⟨by simp, by omega⟩, fun _ => trivial⟩, fun k => ?_⟩
        rw [Finset.mem_insert, List.mem_singleton, or_comm]
      · simp only [keyLoop, metKeys, if_pos hj, if_neg hdone, decide_eq_true hj, if_true]
        obtain ⟨hstop, hused⟩ := ih (total + w) { s with used := insert j s.used }
        rw [← Nat.add_assoc]
        refine ⟨hstop.trans (and_congr_left fun henough => ?_), fun k => ?_⟩
        · refine ⟨fun _ => by simp, fun _ hnil => ?_⟩
          -- without another signed key the weight would not reach the threshold
          have hzero : ∀ l : List (PublicKey × Nat), (∀ r ∈ l, r.1 ∉ sigs) →
              weightOf (fun k => decide (k ∈ sigs)) l = 0 := by
            intro l hl
            induction l with
            | nil => rfl
            | cons r l ih =>
              rw [weightOf_cons, ih fun r hr => hl r (List.mem_cons_of_mem _ hr)]
              simp [hl r List.mem_cons_self]
          have hnone := hzero keys fun r hr hsigned => metKeys_ne_nil.mpr ⟨r, hr, hsigned⟩ hnil
          omega
        · rw [hused, Finset.mem_insert, List.mem_cons]
          tauto
    · simp only [keyLoop, metKeys, if_neg hj, decide_eq_false hj, Bool.false_eq_true, if_false,
        Nat.zero_add]
      exact ih total s

theorem accountLoop_walks (hsteady : Steady getActive sigs approved looks) {n : Nat}
    {check : AccountId → SignState → Bool × SignState}
    (hcheck : ∀ id s, looks n id → Recalls getActive sigs approved looks s → id ∉ s.approvedBy →
      Walks getActive sigs approved looks (counts getActive sigs approved n id = true)
        (metBelow getActive sigs approved n id) s (check id s))
    (threshold : Nat) (accounts : List (AccountId × Nat)) (total : Nat) {s : SignState}
    (hlooks : ∀ r ∈ accounts, looks n r.1) (hs : Recalls getActive sigs approved looks s) :
    Walks getActive sigs approved looks
      (threshold ≤ total + weightOf (counts getActive sigs approved n) accounts)
      (metAccounts (counts getActive sigs approved n) (metBelow getActive sigs approved n) threshold
        accounts total) s (accountLoop check threshold accounts total s) := by
  induction accounts generalizing total s with
  | nil => exact ⟨decide_eq_true_iff, by simp [accountLoop, metAccounts], hs⟩
  | cons r accounts ih =>
    obtain ⟨id, w⟩ := r
    have hid : looks n id := hlooks (id, w) List.mem_cons_self
    have hrest := fun total {s : SignState} (hs : Recalls getActive sigs approved looks s) =>
      ih total (fun r hr => hlooks r (List.mem_cons_of_mem _ hr)) hs
    -- an account that counts, whose keys are marked, adds its weight to the total
    have hadd : ∀ {s' : SignState}, counts getActive sigs approved n id = true →
        (∀ k, k ∈ s'.used ↔ k ∈ s.used ∨ k ∈ metBelow getActive sigs approved n id) →
        Recalls getActive sigs approved looks s' →
        Walks getActive sigs approved looks
          (threshold ≤ total + weightOf (counts getActive sigs approved n) ((id, w) :: accounts))
          (metAccounts (counts getActive sigs approved n)
            (metBelow getActive sigs approved n) threshold
            ((id, w) :: accounts) total) s
          (if threshold ≤ total + w then (true, s')
            else accountLoop check threshold accounts (total + w) s') := by
      intro s' hcounts hused hs'
      rw [metAccounts, if_pos hcounts, weightOf_cons, if_pos hcounts]
      split
      · refine ⟨⟨fun _ => by omega, fun _ => rfl⟩, fun k => ?_, hs'⟩
        rw [List.append_nil]
        exact hused k
      · obtain ⟨hverdict, hused', hrecalls⟩ := hrest (total + w) hs'
        rw [← Nat.add_assoc]
        refine ⟨hverdict, fun k => ?_, hrecalls⟩
        rw [hused', hused, List.mem_append, or_assoc]
    by_cases hmem : id ∈ s.approvedBy
    · simp only [accountLoop, if_pos hmem]
      obtain ⟨hcounts, hmet⟩ := hs.counts hsteady hid hmem
      refine hadd hcounts (fun k => ?_) hs
      exact ⟨.inl, fun h => h.elim (fun h => h) (hmet k)⟩
    · obtain ⟨hverdict, hused, hrecalls⟩ := hcheck id s hid hs hmem
      simp only [accountLoop, if_neg hmem]
      by_cases htrue : (check id s).1 = true
      · rw [if_pos htrue]
        have hcounts := hverdict.mp htrue
        exact hadd hcounts hused
          (hrecalls.remember hid hcounts fun k hk => (hused k).mpr (.inr hk))
      · rw [if_neg htrue]
        have hnot : ¬counts getActive sigs approved n id = true := fun h => htrue (hverdict.mpr h)
        obtain ⟨hverdict', hused', hrecalls'⟩ := hrest total hrecalls
        rw [metAccounts, if_neg hnot, weightOf_cons, if_neg hnot, Nat.zero_add]
        refine ⟨hverdict', fun k => ?_, hrecalls'⟩
        rw [hused', hused, List.mem_append, or_assoc]

theorem checkMembers_walks (hsteady : Steady getActive sigs approved looks) {n : Nat}
    {check : AccountId → SignState → Bool × SignState}
    (hcheck : ∀ id s, looks n id → Recalls getActive sigs approved looks s → id ∉ s.approvedBy →
      Walks getActive sigs approved looks (counts getActive sigs approved n id = true)
        (metBelow getActive sigs approved n id) s (check id s))
    (auth : Authority) {s : SignState} (hlooks : ∀ a ∈ auth.accountAuths.map Prod.fst, looks n a)
    (hs : Recalls getActive sigs approved looks s) :
    Walks getActive sigs approved looks (auth.satisfied getActive sigs approved n = true)
      (auth.met getActive sigs approved n) s (checkMembers sigs check auth s) := by
  obtain ⟨hstop, hused⟩ := keyLoop_walks sigs auth.weightThreshold auth.keyAuths 0 s
  obtain ⟨happroved, hearly, htotal⟩ := keyLoop_spec sigs auth.weightThreshold auth.keyAuths 0 s
  have hkeys : Recalls getActive sigs approved looks
      (keyLoop sigs auth.weightThreshold auth.keyAuths 0 s).2.2 := by
    have hgrown := hs.grow (keyLoop sigs auth.weightThreshold auth.keyAuths 0 s).2.2.used
      fun k hk => (hused k).mpr (.inl hk)
    rw [← happroved] at hgrown
    exact hgrown
  rw [Nat.zero_add] at hstop hearly htotal
  simp only [Authority.met, Authority.metWith, Authority.satisfied, Authority.reaches,
    decide_eq_true_eq]
  cases hdone : (keyLoop sigs auth.weightThreshold auth.keyAuths 0 s).1 with
  | true =>
    have hweight := hearly hdone
    simp only [checkMembers, hdone, if_true]
    rw [if_pos (show auth.keysSuffice sigs from hstop.mp hdone), List.append_nil]
    exact ⟨⟨fun _ => by omega, fun _ => rfl⟩, hused, hkeys⟩
  | false =>
    have hnot : ¬auth.keysSuffice sigs := fun h => by
      rw [hstop.mpr h] at hdone
      exact Bool.noConfusion hdone
    simp only [checkMembers, hdone, Bool.false_eq_true, if_false]
    rw [if_neg hnot, htotal hdone]
    obtain ⟨hverdict, hused', hrecalls⟩ := accountLoop_walks hsteady hcheck auth.weightThreshold
      auth.accountAuths (weightOf (fun k => decide (k ∈ sigs)) auth.keyAuths)
      (fun r hr => hlooks r.1 (List.mem_map_of_mem hr)) hkeys
    refine ⟨hverdict, fun k => ?_, hrecalls⟩
    rw [hused', hused, List.mem_append, or_assoc]

theorem checkAuthority_walks (hsteady : Steady getActive sigs approved looks) (n : Nat) :
    ∀ (auth : Authority) {s : SignState}, (∀ a ∈ auth.accountAuths.map Prod.fst, looks n a) →
      Recalls getActive sigs approved looks s →
      Walks getActive sigs approved looks (auth.satisfied getActive sigs approved n = true)
        (auth.met getActive sigs approved n) s (checkAuthority getActive sigs n auth s) := by
  induction n with
  | zero =>
    intro auth s hlooks hs
    refine checkMembers_walks hsteady (n := 0) (fun id s _ hs hmem => ?_) auth hlooks hs
    refine ⟨⟨fun h => absurd h Bool.false_ne_true, fun hcounts => ?_⟩, by simp [metBelow], hs⟩
    exact absurd (hs.start (of_decide_eq_true hcounts)) hmem
  | succ n ih =>
    intro auth s hlooks hs
    refine checkMembers_walks hsteady (n := n + 1) (fun id s hid hs hmem => ?_) auth hlooks hs
    have hnot : id ∉ approved := fun h => hmem (hs.start h)
    rw [counts, metBelow, if_neg hnot, decide_eq_false hnot, Bool.false_or]
    cases hactive : getActive id with
    | none => exact ⟨by simp, by simp, hs⟩
    | some auth' => exact ih auth' (hsteady.below n id auth' hid hactive) hs

theorem checkPointer_walks (hsteady : Steady getActive sigs approved looks) (n : Nat)
    (pointer : Option Authority) {s : SignState}
    (hlooks : ∀ auth, pointer = some auth → ∀ a ∈ auth.accountAuths.map Prod.fst, looks n a)
    (hs : Recalls getActive sigs approved looks s) :
    Walks getActive sigs approved looks
      (∃ auth, pointer = some auth ∧ auth.satisfied getActive sigs approved n = true)
      (pointerMet getActive sigs approved n pointer) s
        (checkPointer getActive sigs n pointer s) := by
  cases pointer with
  | none => exact ⟨by simp [checkPointer], by simp [checkPointer, pointerMet], hs⟩
  | some auth =>
    obtain ⟨hverdict, hused, hrecalls⟩ := checkAuthority_walks hsteady n auth (hlooks auth rfl) hs
    exact ⟨hverdict.trans (by simp), hused, hrecalls⟩

theorem checkActive_walks (hsteady : Steady getActive sigs approved looks)
    (getOwner : AccountId → Option Authority) (n : Nat) (id : AccountId) {s : SignState}
    (hid : looks (n + 1) id)
    (howner : ∀ auth, getOwner id = some auth → ∀ a ∈ auth.accountAuths.map Prod.fst, looks n a)
    (hs : Recalls getActive sigs approved looks s) :
    Walks getActive sigs approved looks
      (id ∈ approved ∨
        (∃ auth, getActive id = some auth ∧ auth.satisfied getActive sigs approved n = true) ∨
        ∃ auth, getOwner id = some auth ∧ auth.satisfied getActive sigs approved n = true)
      (activeMet getActive sigs approved getOwner n id) s
      (checkActive sigs getActive getOwner n id s) := by
  have hany : ((getActive id).any fun auth => auth.satisfied getActive sigs approved n) = true ↔
      ∃ auth, getActive id = some auth ∧ auth.satisfied getActive sigs approved n = true :=
    Option.any_eq_true _ _
  by_cases hmem : id ∈ s.approvedBy
  · obtain ⟨hcounts, hmet⟩ := hs.counts hsteady hid hmem
    simp only [checkActive, checkAccount, if_pos hmem, if_true]
    rw [counts, Bool.or_eq_true, decide_eq_true_eq] at hcounts
    refine ⟨⟨fun _ => hcounts.imp_right fun h => .inl (hany.mp h), fun _ => rfl⟩, fun k => ?_, hs⟩
    refine ⟨.inl, fun h => h.elim (fun h => h) fun hk => hmet k ?_⟩
    rw [activeMet] at hk
    rw [metBelow]
    split at hk
    · cases hk
    · rename_i hnot
      have hsat : ((getActive id).any fun auth => auth.satisfied getActive sigs approved n) =
        true :=
        hcounts.resolve_left hnot
      rw [if_pos hsat, List.append_nil] at hk
      rw [if_neg hnot]
      exact hk
  · have hnot : id ∉ approved := fun h => hmem (hs.start h)
    simp only [checkActive, checkAccount, if_neg hmem, activeMet, if_neg hnot]
    obtain ⟨hverdict, hused, hrecalls⟩ := checkPointer_walks hsteady n (getActive id)
      (fun auth hauth => hsteady.below n id auth hid hauth) hs
    by_cases htrue : (checkPointer getActive sigs n (getActive id) s).1 = true
    · rw [if_pos htrue, if_pos (hany.mpr (hverdict.mp htrue)), List.append_nil]
      exact ⟨⟨fun _ => .inr (.inl (hverdict.mp htrue)), fun _ => htrue⟩, hused, hrecalls⟩
    · have hactive := fun h => htrue (hverdict.mpr h)
      rw [if_neg htrue, if_neg fun h => hactive (hany.mp h)]
      obtain ⟨hverdict', hused', hrecalls'⟩ := checkPointer_walks hsteady n
        (getOwner id) howner hrecalls
      refine ⟨hverdict'.trans ⟨fun h => .inr (.inr h), fun h =>
        (h.resolve_left hnot).resolve_left hactive⟩, fun k => ?_, hrecalls'⟩
      rw [hused', hused, List.mem_append, or_assoc]

theorem requireAll_walks {α : Type} {check : α → SignState → Bool × SignState}
    (error : α → AuthorityError) {sat : α → Prop} {met : α → List PublicKey} (l : List α)
    (hcheck : ∀ a ∈ l, ∀ s, Recalls getActive sigs approved looks s →
      Walks getActive sigs approved looks (sat a) (met a) s (check a s)) {s : SignState}
    (hs : Recalls getActive sigs approved looks s) :
    (∃ s', requireAll check error l s = .ok s' ∧ (∀ a ∈ l, sat a) ∧
      Recalls getActive sigs approved looks s' ∧
      ∀ k, k ∈ s'.used ↔ k ∈ s.used ∨ k ∈ l.flatMap met) ∨
    ∃ a ∈ l, requireAll check error l s = .error (error a) ∧ ¬sat a := by
  induction l generalizing s with
  | nil => exact .inl ⟨s, rfl, by simp, hs, by simp⟩
  | cons a l ih =>
    obtain ⟨hverdict, hused, hrecalls⟩ := hcheck a List.mem_cons_self s hs
    by_cases htrue : (check a s).1 = true
    · simp only [requireAll, if_pos htrue]
      rcases ih (fun b hb => hcheck b (List.mem_cons_of_mem a hb)) hrecalls with
        ⟨s', hs', hall, hrecalls', hused'⟩ | ⟨b, hb, herror, hnot⟩
      · refine .inl ⟨s', hs', ?_, hrecalls', fun k => ?_⟩
        · simpa using ⟨hverdict.mp htrue, hall⟩
        · rw [hused', hused, List.flatMap_cons, List.mem_append, or_assoc]
      · exact .inr ⟨b, List.mem_cons_of_mem a hb, herror, hnot⟩
    · simp only [requireAll, if_neg htrue]
      exact .inr ⟨a, List.mem_cons_self, rfl, fun h => htrue (hverdict.mpr h)⟩

theorem checkEach_walks {α : Type} {check : α → SignState → Bool × SignState} {sat : α → Prop}
    {met : α → List PublicKey} (l : List α)
    (hcheck : ∀ a ∈ l, ∀ s, Recalls getActive sigs approved looks s →
      Walks getActive sigs approved looks (sat a) (met a) s (check a s)) {s : SignState}
    (hs : Recalls getActive sigs approved looks s) :
    Recalls getActive sigs approved looks (checkEach check l s) ∧
      ∀ k, k ∈ (checkEach check l s).used ↔ k ∈ s.used ∨ k ∈ l.flatMap met := by
  induction l generalizing s with
  | nil => exact ⟨hs, by simp [checkEach]⟩
  | cons a l ih =>
    obtain ⟨-, hused, hrecalls⟩ := hcheck a List.mem_cons_self s hs
    obtain ⟨hrecalls', hused'⟩ := ih (fun b hb => hcheck b (List.mem_cons_of_mem a hb)) hrecalls
    refine ⟨hrecalls', fun k => ?_⟩
    rw [checkEach, hused', hused, List.flatMap_cons, List.mem_append, or_assoc]

end

/-! ### The minimal set -/

section

variable (ops : List RequiredAuthorities) (getActive getOwner : AccountId → Option Authority)
  (depth : Nat)

/-- The memory of the checks makes no difference to the verification with these keys: it fails for
want of an authority only if one is not satisfied within the depth, and finds a key that it does not
use only if the walk without memory does not come to it. -/
structure MemoryFree (sigs : Finset PublicKey) : Prop where
  satisfied : (∀ e, verifyAuthority ops sigs getActive getOwner depth false ∅ ∅ = .error e →
    e.isMissing = false) → Satisfied ops sigs getActive getOwner ∅ ∅ depth
  used : Satisfied ops sigs getActive getOwner ∅ ∅ depth →
    (verifyAuthority ops sigs getActive getOwner depth false ∅ ∅ = .ok () ↔
      ∀ k ∈ sigs, k ∈ keysMet ops getActive getOwner depth sigs)

end

section

variable {ops : List RequiredAuthorities} {getActive getOwner : AccountId → Option Authority}
  {depth : Nat}

theorem MemoryFree.verdict {sigs : Finset PublicKey}
    (h : MemoryFree ops getActive getOwner depth sigs)
    (hfull : ∀ k ∈ sigs, k ∈ keysMet ops getActive getOwner depth sigs) :
    (verifyAuthority ops sigs getActive getOwner depth false ∅ ∅ = .ok () ∧
      Satisfied ops sigs getActive getOwner ∅ ∅ depth) ∨
    ∃ e, verifyAuthority ops sigs getActive getOwner depth false ∅ ∅ = .error e ∧
      e.isMissing = true ∧ ¬Satisfied ops sigs getActive getOwner ∅ ∅ depth := by
  by_cases hsat : Satisfied ops sigs getActive getOwner ∅ ∅ depth
  · exact .inl ⟨(h.used hsat).mpr hfull, hsat⟩
  · have hmissing : ¬∀ e, verifyAuthority ops sigs getActive getOwner depth false ∅ ∅ = .error e →
        e.isMissing = false := fun hnone => hsat (h.satisfied hnone)
    push Not at hmissing
    obtain ⟨e, he, hne⟩ := hmissing
    exact .inr ⟨e, he, by simpa using hne, hsat⟩

end

/-! ### Accounts that count alike at each depth -/

section

variable (ops : List RequiredAuthorities) (getActive getOwner : AccountId → Option Authority)
  (depth : Nat)

/-- The accounts count alike at each depth with these keys. -/
def CountsAlike (sigs : Finset PublicKey) : Prop :=
  Steady getActive sigs (initiallyApproved ∅ ∅) (LooksAt ops getActive getOwner depth)

end

section

variable {getActive : AccountId → Option Authority} {sigs : Finset PublicKey}
  {approved : Finset AccountId}

theorem mem_of_metAccounts {counts : AccountId → Bool} {met : AccountId → List PublicKey}
    (hmet : ∀ a, ∀ k ∈ met a, k ∈ sigs) {threshold : Nat} {accounts : List (AccountId × Nat)}
    {total : Nat} {k : PublicKey} (h : k ∈ metAccounts counts met threshold accounts total) :
    k ∈ sigs := by
  induction accounts generalizing total with
  | nil => exact nomatch h
  | cons r accounts ih =>
    obtain ⟨a, w⟩ := r
    rw [metAccounts] at h
    rcases List.mem_append.mp h with h | h
    · exact hmet a k h
    · split at h
      · split at h
        · exact nomatch h
        · exact ih h
      · exact ih h

theorem Authority.mem_of_metWith {auth : Authority} {counts : AccountId → Bool}
    {met : AccountId → List PublicKey} (hmet : ∀ a, ∀ k ∈ met a, k ∈ sigs) {k : PublicKey}
    (h : k ∈ auth.metWith sigs counts met) : k ∈ sigs := by
  rcases List.mem_append.mp h with h | h
  · exact mem_of_metKeys h
  · split at h
    · exact nomatch h
    · exact mem_of_metAccounts hmet h

theorem mem_of_metBelow (n : Nat) : ∀ id : AccountId, ∀ k ∈ metBelow getActive sigs approved n id,
    k ∈ sigs := by
  induction n with
  | zero => exact fun _ _ h => nomatch h
  | succ n ih =>
    intro id k h
    rw [metBelow] at h
    split at h
    · exact nomatch h
    · cases hactive : getActive id with
      | none =>
        rw [hactive] at h
        exact nomatch h
      | some auth =>
        rw [hactive] at h
        exact Authority.mem_of_metWith ih h

theorem mem_of_pointerMet {n : Nat} {pointer : Option Authority} {k : PublicKey}
    (h : k ∈ pointerMet getActive sigs approved n pointer) : k ∈ sigs := by
  cases pointer with
  | none => exact nomatch h
  | some auth => exact Authority.mem_of_metWith (mem_of_metBelow n) h

theorem mem_of_activeMet {getOwner : AccountId → Option Authority} {n : Nat} {id : AccountId}
    {k : PublicKey} (h : k ∈ activeMet getActive sigs approved getOwner n id) : k ∈ sigs := by
  rw [activeMet] at h
  split at h
  · exact nomatch h
  · rcases List.mem_append.mp h with h | h
    · exact mem_of_pointerMet h
    · split at h
      · exact nomatch h
      · exact mem_of_pointerMet h

end

section

variable {ops : List RequiredAuthorities} {getActive getOwner : AccountId → Option Authority}
  {depth : Nat} {sigs : Finset PublicKey}

theorem mem_of_keysProposed {k : PublicKey} (h :
    k ∈ keysProposed ops getActive getOwner depth sigs) :
    k ∈ sigs := by
  simp only [keysProposed, keysMetWith, List.mem_append, List.mem_flatMap] at h
  rcases h with (⟨auth, -, h⟩ | ⟨id, -, h⟩) | ⟨id, -, h⟩
  · exact Authority.mem_of_metWith (mem_of_metBelow depth) h
  · exact mem_of_activeMet h
  · exact mem_of_pointerMet h

theorem recalls_start {looks : Nat → AccountId → Prop} :
    Recalls getActive sigs (initiallyApproved ∅ ∅) looks ⟨∅, initiallyApproved ∅ ∅⟩ :=
  ⟨Finset.Subset.refl _, fun _ hid => .inl hid⟩

theorem verifyAuthority_eq (hcommittee : committeeAccount ∉ requiredActive ops) :
    verifyAuthority ops sigs getActive getOwner depth false ∅ ∅ = (do
      let s ← requireAll (checkAuthority getActive sigs depth) .missingOtherAuth
        (ops.flatMap RequiredAuthorities.other) ⟨∅, initiallyApproved ∅ ∅⟩
      let s ← requireAll (checkActive sigs getActive getOwner depth) .missingActiveAuth
        (requiredActive ops) s
      let s ← requireAll (checkOwner sigs getActive getOwner depth ∅) .missingOwnerAuth
        (requiredOwner ops) s
      if sigs ⊆ s.used then pure () else .error .irrelevantSig) := by
  rw [verifyAuthority, if_neg fun h => hcommittee h.2]
  rfl

theorem CountsAlike.memoryFree (h : CountsAlike ops getActive getOwner depth sigs)
    (hcommittee : committeeAccount ∉ requiredActive ops) :
    MemoryFree ops getActive getOwner depth sigs := by
  have hcheckActive : ∀ id ∈ requiredActive ops, ∀ s, Recalls getActive sigs (initiallyApproved ∅ ∅)
      (LooksAt ops getActive getOwner depth) s → Walks getActive sigs (initiallyApproved ∅ ∅)
        (LooksAt ops getActive getOwner depth) _ _ s _ := fun id hid s hs =>
    checkActive_walks h getOwner depth id (.active hid)
      (fun _ hauth _ ha => .owner (.inl hid) hauth ha) hs
  have hcheckOwner : ∀ id ∈ requiredOwner ops, ∀ s, Recalls getActive sigs (initiallyApproved ∅ ∅)
      (LooksAt ops getActive getOwner depth) s → Walks getActive sigs (initiallyApproved ∅ ∅)
        (LooksAt ops getActive getOwner depth)
        (∃ auth, getOwner id = some auth ∧
          auth.satisfied getActive sigs (initiallyApproved ∅ ∅) depth = true)
        (pointerMet getActive sigs (initiallyApproved ∅ ∅) depth (getOwner id)) s
        (checkOwner sigs getActive getOwner depth ∅ id s) := by
    intro id hid s hs
    rw [checkOwner, if_neg (Finset.notMem_empty id)]
    exact checkPointer_walks h depth (getOwner id) (fun _ hauth _ ha =>
      .owner (.inr hid) hauth ha) hs
  -- the errors of the three loops are about an authority that is not satisfied
  have hmissing : ∀ {e : AuthorityError}, e.isMissing = true →
      (Satisfied ops sigs getActive getOwner ∅ ∅ depth → False) →
      verifyAuthority ops sigs getActive getOwner depth false ∅ ∅ = .error e →
      MemoryFree ops getActive getOwner depth sigs := fun {e} he hnot herror =>
    ⟨fun hnone => absurd (hnone e herror) (by simp [he]), fun hsat => (hnot hsat).elim⟩
  rcases requireAll_walks .missingOtherAuth (ops.flatMap RequiredAuthorities.other)
      (fun auth hauth s hs => checkAuthority_walks h depth auth (fun _ ha => .other hauth ha) hs)
      recalls_start with ⟨s₁, h₁, hother, hs₁, hused₁⟩ | ⟨auth, hauth, h₁, hnot⟩
  · rcases requireAll_walks .missingActiveAuth (requiredActive ops) hcheckActive hs₁ with
      ⟨s₂, h₂, hactive, hs₂, hused₂⟩ | ⟨id, hid, h₂, hnot⟩
    · rcases requireAll_walks .missingOwnerAuth (requiredOwner ops) hcheckOwner hs₂ with
        ⟨s₃, h₃, howner, -, hused₃⟩ | ⟨id, hid, h₃, hnot⟩
      · have hverify : verifyAuthority ops sigs getActive getOwner depth false ∅ ∅ =
            if sigs ⊆ s₃.used then pure () else .error .irrelevantSig := by
          simp only [verifyAuthority_eq hcommittee, h₁, h₂, h₃, bind, Except.bind]
        refine ⟨fun _ => ⟨hother, hactive, fun id hid => .inr (howner id hid)⟩, fun _ => ?_⟩
        have hused : ∀ k, k ∈ s₃.used ↔ k ∈ keysMet ops getActive getOwner depth sigs := by
          intro k
          rw [hused₃, hused₂, hused₁, keysMet, keysMetWith, List.mem_append, List.mem_append]
          simp
        rw [hverify]
        constructor
        · intro hok k hk
          split at hok
          · rename_i hsub
            exact (hused k).mp (hsub hk)
          · exact nomatch hok
        · intro hall
          have hsub : sigs ⊆ s₃.used := fun k hk => (hused k).mpr (hall k hk)
          rw [if_pos hsub]
          rfl
      · refine hmissing (e := .missingOwnerAuth id) rfl (fun hsat => hnot ?_) ?_
        · exact (hsat.owner id hid).resolve_left (Finset.notMem_empty id)
        · simp only [verifyAuthority_eq hcommittee, h₁, h₂, h₃, bind, Except.bind]
    · refine hmissing (e := .missingActiveAuth id) rfl (fun hsat => hnot (hsat.active id hid)) ?_
      simp only [verifyAuthority_eq hcommittee, h₁, h₂, bind, Except.bind]
  · refine hmissing (e := .missingOtherAuth auth) rfl (fun hsat => hnot (hsat.other auth hauth)) ?_
    simp only [verifyAuthority_eq hcommittee, h₁, bind, Except.bind]

theorem CountsAlike.proposed (h : CountsAlike ops getActive getOwner depth sigs) :
    getRequiredSignatures ops sigs getActive getOwner depth =
      (keysProposed ops getActive getOwner depth sigs).toFinset := by
  obtain ⟨hs₁, hused₁⟩ := checkEach_walks (ops.flatMap RequiredAuthorities.other)
    (fun auth hauth s hs => checkAuthority_walks h depth auth (fun _ ha => .other hauth ha) hs)
    recalls_start
  obtain ⟨hs₂, hused₂⟩ := checkEach_walks (requiredOwner ops)
    (fun id hid s hs => checkPointer_walks h depth (getOwner id)
      (fun _ hauth _ ha => .owner (.inr hid) hauth ha) hs) hs₁
  obtain ⟨-, hused₃⟩ := checkEach_walks (requiredActiveOnly ops)
    (fun id hid s hs => checkActive_walks h getOwner depth id
      (.active (List.mem_filter.mp hid).1)
      (fun _ hauth _ ha => .owner (.inl (List.mem_filter.mp hid).1) hauth ha) hs) hs₂
  ext k
  simp only [getRequiredSignatures, Finset.mem_filter, hused₃, hused₂, hused₁, List.mem_toFinset]
  constructor
  · rintro ⟨hk, -⟩
    simp only [keysProposed, keysMetWith, List.mem_append]
    rcases hk with ((hk | hk) | hk) | hk
    · exact absurd hk (Finset.notMem_empty k)
    · exact .inl (.inl hk)
    · exact .inr hk
    · exact .inl (.inr hk)
  · intro hk
    refine ⟨?_, mem_of_keysProposed hk⟩
    simp only [keysProposed, keysMetWith, List.mem_append] at hk
    rcases hk with (hk | hk) | hk
    · exact .inl (.inl (.inr hk))
    · exact .inr hk
    · exact .inl (.inr hk)

end

theorem countsAlike_of_level {ops : List RequiredAuthorities}
    {getActive getOwner : AccountId → Option Authority} {depth : Nat} (level : AccountId → Nat)
    (h : ∀ n id, LooksAt ops getActive getOwner depth n id → n = level id)
    (sigs : Finset PublicKey) :
    CountsAlike ops getActive getOwner depth sigs := by
  refine ⟨fun n id auth hid hauth a ha => .inner hid hauth ha, fun m n id hm hn hcounts => ?_⟩
  obtain rfl : m = n := (h m id hm).trans (h n id hn).symm
  exact ⟨hcounts, fun _ => Iff.rfl⟩

/-! ### Accounts that hold for others

The account 30 needs a weight of 2 and gets 1 from 20 and 2 from 21, which the accounts 10 and 11
and the account 10 hold for; these have the keys 100 and 101. -/

def weighedActive : AccountId → Option Authority
  | 30 => some ⟨2, [(20, 1), (21, 2)], [], Nat.lt_of_sub_eq_succ rfl⟩
  | 20 => some ⟨2, [(10, 1), (11, 1)], [], Nat.lt_of_sub_eq_succ rfl⟩
  | 21 => some ⟨1, [(10, 1)], [], Nat.lt_of_sub_eq_succ rfl⟩
  | 10 => some (keyAuthority 100)
  | 11 => some (keyAuthority 101)
  | _ => none

def weighedLevel : AccountId → Nat
  | 30 => 3
  | 20 => 2
  | 21 => 2
  | _ => 1

theorem weighed_levels (n : Nat) (id : AccountId)
    (h : LooksAt [⟨30, [], [], []⟩] weighedActive (fun _ => none) 2 n id) :
    (n, id) ∈ [(3, 30), (2, 20), (2, 21), (1, 10), (1, 11)] := by
  induction h with
  | other hauth => cases hauth
  | active hid =>
    obtain rfl := List.mem_singleton.mp (mem_flatSet.mp hid)
    decide
  | owner _ hauth => cases hauth
  | inner _ hauth ha ih =>
    simp only [List.mem_cons, Prod.mk.injEq, List.not_mem_nil, or_false] at ih
    rcases ih with ⟨hn, rfl⟩ | ⟨hn, rfl⟩ | ⟨hn, rfl⟩ | ⟨hn, rfl⟩ | ⟨hn, rfl⟩ <;>
      obtain rfl := Option.some.inj hauth <;> simp_all [keyAuthority]

/-- The owner authority of 11 puts 20 into the memory, where the check of 10 finds it. -/
def ownerFirstActive : AccountId → Option Authority
  | 10 => some ⟨1, [(22, 1), (23, 1)], [], Nat.lt_of_sub_eq_succ rfl⟩
  | 22 => some (accountAuthority 20)
  | 20 => some (keyAuthority 100)
  | 23 => some (keyAuthority 101)
  | _ => none

def ownerFirstOwner : AccountId → Option Authority
  | 11 => some (accountAuthority 20)
  | _ => none

/-- Without the key 100 the check of 10 puts 21 into the memory, where the check of 12 finds it. -/
def spareActive : AccountId → Option Authority
  | 10 => some ⟨1, [(20, 1), (21, 1)], [], Nat.lt_of_sub_eq_succ rfl⟩
  | 11 => some (keyAuthority 101)
  | 12 => some ⟨1, [(22, 1), (23, 1)], [], Nat.lt_of_sub_eq_succ rfl⟩
  | 20 => some (keyAuthority 100)
  | 21 => some (keyAuthority 101)
  | 22 => some (accountAuthority 21)
  | 23 => some (keyAuthority 102)
  | _ => none

end Nestchain.Protocol
