import Nestchain.Lib.Attempt
import Mathlib.Data.List.Induction
import Mathlib.Logic.Function.Basic
import Mathlib.Algebra.Order.Group.Nat

/-! `signed_by` of `sign_state` for keys and for addresses.  A key has five addresses; the maps from
addresses to keys are built when the first address is asked for, while keys go on being marked as
used.  The hashes that make an address of a key are parameters. -/

namespace Nestchain.Protocol.AddressSignatures

open Lib

variable {Key Address : Type}

/-- The addresses of keys: `address(pts_address(key, compressed, version))` and `address(key)`. -/
structure AddressForms (Key Address : Type) where
  ptsAddress : Key → Bool → UInt8 → Address
  address : Key → Address

/-- The five forms, in the order in which they are entered. -/
def AddressForms.all (F : AddressForms Key Address) (k : Key) : List Address :=
  [F.ptsAddress k false 56, F.ptsAddress k true 56, F.ptsAddress k false 0, F.ptsAddress k true 0,
    F.address k]

/-- `sign_state`, as far as `signed_by` reads and writes it.  The maps by address are built
together. -/
structure SignState (Key Address : Type) where
  availableKeys : List Key
  providedSignatures : List (Key × Bool)
  availableAddressSigs : Option (Address → Option Key)
  providedAddressSigs : Option (Address → Option Key)

/-- The state for the keys that signed and the keys that may. -/
def SignState.new (sigs keys : List Key) : SignState Key Address :=
  ⟨keys, sigs.map fun k => (k, false), none, none⟩

section

variable [LinearOrder Key]

/-- `provided_signatures[k] = true` -/
def markUsed (k : Key) : List (Key × Bool) → List (Key × Bool)
  | [] => [(k, true)]
  | (j, used) :: l =>
    if k < j then (k, true) :: (j, used) :: l
    else if k = j then (k, true) :: l
    else (j, used) :: markUsed k l

namespace SignState

/-- Whether a key signed, and whether it is marked as used. -/
def used (s : SignState Key Address) (k : Key) : Option Bool := s.providedSignatures.lookup k

def mark (s : SignState Key Address) (k : Key) : SignState Key Address :=
  { s with providedSignatures := markUsed k s.providedSignatures }

/-- `signed_by` of a key. -/
def signedByKey (s : SignState Key Address) (k : Key) : Bool × SignState Key Address :=
  match s.used k with
  | none => if k ∈ s.availableKeys then (true, s.mark k) else (false, s)
  | some _ => (true, s.mark k)

end SignState

end

section

variable [DecidableEq Address]

/-- The map from the addresses of keys; of two keys with an address the later one is entered. -/
def addressSigs (F : AddressForms Key Address) (keys : List Key) : Address → Option Key :=
  keys.foldl (fun sigs item =>
    (F.all item).foldl (fun sigs a => Function.update sigs a (some item)) sigs) fun _ => none

/-- The maps by address are built at the first call. -/
def SignState.withAddressSigs (F : AddressForms Key Address) (s : SignState Key Address) :
    SignState Key Address :=
  match s.availableAddressSigs with
  | none => { s with
      availableAddressSigs := some (addressSigs F s.availableKeys)
      providedAddressSigs := some (addressSigs F (s.providedSignatures.map Prod.fst)) }
  | some _ => s

end

/-- A call of `signed_by`. -/
inductive Call (Key Address : Type) where
  | key (k : Key)
  | address (a : Address)

section

variable [LinearOrder Key] [DecidableEq Address]

/-- `signed_by` of an address; an address in neither map is looked up at the end of a map, which is
not defined. -/
def SignState.signedByAddress (F : AddressForms Key Address) (s : SignState Key Address) (a : Address) :
    Attempt (Bool × SignState Key Address) := do
  let s := s.withAddressSigs F
  let itr := s.providedAddressSigs.bind fun sigs => sigs a
  match itr with
  | some k => pure (true, s.mark k)
  | none =>
    match s.availableAddressSigs.bind fun sigs => sigs a with
    | some k => if k ∈ s.availableKeys then pure (true, s.mark k) else pure (false, s)
    | none => do
      let k ← demand itr
      pure (true, s.mark k)

def call (F : AddressForms Key Address) (s : SignState Key Address) :
    Call Key Address → Attempt (SignState Key Address)
  | .key k => pure (s.signedByKey k).2
  | .address a => do
    let r ← s.signedByAddress F a
    pure r.2

def run (F : AddressForms Key Address) (calls : List (Call Key Address))
    (s : SignState Key Address) : Attempt (SignState Key Address) :=
  calls.foldlM (call F) s

end

/-! ### What is promised -/

/-- A key that signed, or may, has the address. -/
def Known (F : AddressForms Key Address) (sigs keys : List Key) (a : Address) : Prop :=
  ∃ k, (k ∈ sigs ∨ k ∈ keys) ∧ a ∈ F.all k

/-- `signed_by` of an address returns whether a key has the address, and marks one that has. -/
def Answers [LinearOrder Key] [DecidableEq Address] (F : AddressForms Key Address)
    (sigs keys : List Key) (s : SignState Key Address) (a : Address) : Prop :=
  ∃ r s', s.signedByAddress F a = .ok (r, s') ∧ s'.availableKeys = s.availableKeys ∧
    ((r = true ∧ ∃ k, (k ∈ sigs ∨ k ∈ keys) ∧ a ∈ F.all k ∧
        ∀ j, s'.used j = if j = k then some true else s.used j) ∨
      (r = false ∧ ¬Known F sigs keys a ∧ s'.providedSignatures = s.providedSignatures))

/-! ### Maps -/

section

variable [LinearOrder Key]

theorem lookup_markUsed (k j : Key) (l : List (Key × Bool)) :
    (markUsed k l).lookup j = if j = k then some true else l.lookup j := by
  induction l with
  | nil =>
    rw [markUsed, List.lookup_cons, List.lookup_nil]
    by_cases h : j = k
    · rw [beq_iff_eq.mpr h, if_pos h]
    · rw [beq_eq_false_iff_ne.mpr h, if_neg h]
  | cons r l ih =>
    obtain ⟨i, used⟩ := r
    rw [markUsed]
    by_cases hj : j = k
    · subst hj
      rw [if_pos rfl]
      split
      · rw [List.lookup_cons_self]
      · split
        · rw [List.lookup_cons_self]
        · rename_i hne
          rw [List.lookup_cons, beq_eq_false_iff_ne.mpr hne, ih, if_pos rfl]
    · rw [if_neg hj] at ih ⊢
      split
      · rw [List.lookup_cons, beq_eq_false_iff_ne.mpr hj]
      · split
        · rename_i heq
          subst heq
          rw [List.lookup_cons, List.lookup_cons, beq_eq_false_iff_ne.mpr hj]
        · rw [List.lookup_cons, List.lookup_cons, ih]

theorem SignState.used_mark (s : SignState Key Address) (k j : Key) :
    (s.mark k).used j = if j = k then some true else s.used j := lookup_markUsed k j _

theorem used_isSome_iff {s : SignState Key Address} {k : Key} :
    (s.used k).isSome = true ↔ k ∈ s.providedSignatures.map Prod.fst := by
  rw [SignState.used, List.lookup_isSome_iff, List.mem_map]
  exact exists_congr fun r => and_congr_right fun _ => by rw [beq_iff_eq, eq_comm]

end

/-- An address is mapped to a key that has it, and to one if there is one. -/
structure Maps (F : AddressForms Key Address) (m : Address → Option Key) (keys : List Key) :
    Prop where
  sound : ∀ a k, m a = some k → k ∈ keys ∧ a ∈ F.all k
  complete : ∀ a, ∀ k ∈ keys, a ∈ F.all k → ∃ j, m a = some j

section

variable [DecidableEq Address]

theorem foldl_update (m : Address → Option Key) (k : Key) (addresses : List Address) (a : Address) :
    addresses.foldl (fun sigs a => Function.update sigs a (some k)) m a =
      if a ∈ addresses then some k else m a := by
  induction addresses generalizing m with
  | nil => rfl
  | cons b addresses ih =>
    rw [List.foldl_cons, ih]
    by_cases ha : a ∈ addresses
    · rw [if_pos ha, if_pos (List.mem_cons_of_mem _ ha)]
    · rw [if_neg ha]
      by_cases hb : a = b
      · subst hb
        rw [Function.update_self, if_pos List.mem_cons_self]
      · rw [Function.update_of_ne hb, if_neg (by simp [ha, hb])]

theorem addressSigs_maps (F : AddressForms Key Address) (keys : List Key) :
    Maps F (addressSigs F keys) keys := by
  unfold addressSigs
  induction keys using List.reverseRecOn with
  | nil => exact ⟨fun a k h => (nomatch h), fun a k hk => absurd hk List.not_mem_nil⟩
  | append_singleton keys item ih =>
    rw [List.foldl_append, List.foldl_cons, List.foldl_nil]
    refine ⟨fun a k h => ?_, fun a k hk ha => ?_⟩
    · rw [foldl_update] at h
      split at h
      · rename_i hitem
        obtain rfl := Option.some.inj h
        exact ⟨List.mem_append_right _ (List.mem_singleton_self _), hitem⟩
      · obtain ⟨hk, ha⟩ := ih.sound a k h
        exact ⟨List.mem_append_left _ hk, ha⟩
    · rw [foldl_update]
      split
      · exact ⟨item, rfl⟩
      · rename_i hitem
        rcases List.mem_append.mp hk with hk | hk
        · exact ih.complete a k hk ha
        · obtain rfl := List.mem_singleton.mp hk
          exact absurd ha hitem

end

/-! ### The states of a run -/

section

variable [LinearOrder Key]

/-- What holds in every state that calls lead to. -/
structure Inv (F : AddressForms Key Address) (sigs keys : List Key) (s : SignState Key Address) :
    Prop where
  availableKeys : s.availableKeys = keys
  provided : ∀ k, (s.used k).isSome = true → k ∈ sigs ∨ k ∈ keys
  signed : ∀ k ∈ sigs, (s.used k).isSome = true
  addresses : (s.availableAddressSigs = none ∧ s.providedAddressSigs = none) ∨
    ∃ available provided signers, s.availableAddressSigs = some available ∧
      s.providedAddressSigs = some provided ∧ Maps F available keys ∧ Maps F provided signers ∧
      (∀ k ∈ signers, k ∈ sigs ∨ k ∈ keys) ∧ ∀ k ∈ sigs, k ∈ signers

variable {F : AddressForms Key Address} {sigs keys : List Key} {s : SignState Key Address}

theorem Inv.new (F : AddressForms Key Address) (sigs keys : List Key) :
    Inv F sigs keys (SignState.new sigs keys) := by
  have hused : ∀ k, ((SignState.new sigs keys : SignState Key Address).used k).isSome = true ↔
      k ∈ sigs := fun k => by
    rw [used_isSome_iff, SignState.new, List.map_map]
    exact iff_of_eq (congrArg (k ∈ ·) (List.map_id' sigs))
  exact ⟨rfl, fun k hk => Or.inl ((hused k).mp hk), fun k hk => (hused k).mpr hk,
    Or.inl ⟨rfl, rfl⟩⟩

theorem Inv.mark (h : Inv F sigs keys s) {k : Key} (hk : k ∈ sigs ∨ k ∈ keys) :
    Inv F sigs keys (s.mark k) := by
  refine ⟨h.availableKeys, fun j hj => ?_, fun j hj => ?_, h.addresses⟩
  · rw [SignState.used_mark] at hj
    by_cases hjk : j = k
    · exact hjk ▸ hk
    · rw [if_neg hjk] at hj
      exact h.provided j hj
  · rw [SignState.used_mark]
    split
    · rfl
    · exact h.signed j hj

theorem Inv.signedByKey (h : Inv F sigs keys s) (k : Key) : Inv F sigs keys (s.signedByKey k).2 := by
  unfold SignState.signedByKey
  split
  · split
    · rename_i hk
      exact h.mark (Or.inr (h.availableKeys ▸ hk))
    · exact h
  · rename_i used hused
    exact h.mark (h.provided k (by rw [hused]; rfl))

variable [DecidableEq Address]

theorem Inv.withAddressSigs (h : Inv F sigs keys s) :
    Inv F sigs keys (s.withAddressSigs F) ∧
      (s.withAddressSigs F).providedSignatures = s.providedSignatures ∧
      ∃ available provided signers, (s.withAddressSigs F).availableAddressSigs = some available ∧
        (s.withAddressSigs F).providedAddressSigs = some provided ∧ Maps F available keys ∧
        Maps F provided signers ∧ (∀ k ∈ signers, k ∈ sigs ∨ k ∈ keys) ∧
        ∀ k ∈ sigs, k ∈ signers := by
  rcases h.addresses with ⟨havailable, hprovided⟩ | ⟨available, provided, signers, hmaps⟩
  · have hsame : s.withAddressSigs F = { s with
        availableAddressSigs := some (addressSigs F s.availableKeys)
        providedAddressSigs := some (addressSigs F (s.providedSignatures.map Prod.fst)) } := by
      rw [SignState.withAddressSigs, havailable]
    have hnow : ∃ available provided signers,
        (s.withAddressSigs F).availableAddressSigs = some available ∧
        (s.withAddressSigs F).providedAddressSigs = some provided ∧ Maps F available keys ∧
        Maps F provided signers ∧ (∀ k ∈ signers, k ∈ sigs ∨ k ∈ keys) ∧
        ∀ k ∈ sigs, k ∈ signers := by
      rw [hsame]
      exact ⟨_, _, s.providedSignatures.map Prod.fst, rfl, rfl,
        h.availableKeys ▸ addressSigs_maps F s.availableKeys, addressSigs_maps F _,
        fun k hk => h.provided k (used_isSome_iff.mpr hk),
        fun k hk => used_isSome_iff.mp (h.signed k hk)⟩
    refine ⟨⟨?_, ?_, ?_, Or.inr hnow⟩, by rw [hsame], hnow⟩
    · rw [hsame]
      exact h.availableKeys
    · rw [hsame]
      exact h.provided
    · rw [hsame]
      exact h.signed
  · have hsame : s.withAddressSigs F = s := by
      rw [SignState.withAddressSigs, hmaps.1]
    rw [hsame]
    exact ⟨h, rfl, available, provided, signers, hmaps⟩

theorem Inv.signedByAddress_cases (h : Inv F sigs keys s) (a : Address) :
    (¬Known F sigs keys a ∧ s.signedByAddress F a = .error .thrown) ∨
    ∃ k, (k ∈ sigs ∨ k ∈ keys) ∧ a ∈ F.all k ∧
      s.signedByAddress F a = .ok (true, (s.withAddressSigs F).mark k) := by
  obtain ⟨hinv, -, available, provided, signers, havailable, hprovided, hmaps, hmaps', hsigners,
    hsigned⟩ := h.withAddressSigs
  unfold SignState.signedByAddress
  simp only [hprovided, havailable, Option.bind_some]
  cases hp : provided a with
  | some k =>
    obtain ⟨hk, ha⟩ := hmaps'.sound a k hp
    exact Or.inr ⟨k, hsigners k hk, ha, rfl⟩
  | none =>
    cases hv : available a with
    | some k =>
      obtain ⟨hk, ha⟩ := hmaps.sound a k hv
      refine Or.inr ⟨k, Or.inr hk, ha, ?_⟩
      simp only [hinv.availableKeys, if_pos hk]
      rfl
    | none =>
      refine Or.inl ⟨?_, rfl⟩
      rintro ⟨k, hk | hk, ha⟩
      · obtain ⟨j, hj⟩ := hmaps'.complete a k (hsigned k hk) ha
        rw [hp] at hj
        cases hj
      · obtain ⟨j, hj⟩ := hmaps.complete a k hk ha
        rw [hv] at hj
        cases hj

theorem Inv.call (h : Inv F sigs keys s) {c : Call Key Address} {s' : SignState Key Address}
    (hc : call F s c = .ok s') : Inv F sigs keys s' := by
  cases c with
  | key k =>
    rw [pure_eq_ok.mp hc]
    exact h.signedByKey k
  | address a =>
    simp only [AddressSignatures.call, bind_eq_ok, pure_eq_ok] at hc
    obtain ⟨r, hr, rfl⟩ := hc
    rcases h.signedByAddress_cases a with ⟨-, herror⟩ | ⟨k, hk, -, hok⟩
    · rw [herror] at hr
      cases hr
    · rw [hok] at hr
      obtain rfl := Except.ok.inj hr
      exact h.withAddressSigs.1.mark hk

theorem Inv.answers_iff (h : Inv F sigs keys s) (a : Address) :
    Answers F sigs keys s a ↔ Known F sigs keys a := by
  rcases h.signedByAddress_cases a with ⟨hunknown, herror⟩ | ⟨k, hk, ha, hok⟩
  · refine ⟨fun ⟨r, s', hs', _⟩ => ?_, fun hknown => absurd hknown hunknown⟩
    rw [herror] at hs'
    cases hs'
  · refine ⟨fun _ => ⟨k, hk, ha⟩, fun _ => ⟨true, _, hok, ?_, Or.inl ⟨rfl, k, hk, ha, fun j => ?_⟩⟩⟩
    · exact h.withAddressSigs.1.availableKeys.trans h.availableKeys.symm
    · rw [SignState.used_mark, SignState.used, h.withAddressSigs.2.1]
      rfl

/-- After any calls, `signed_by` of an address answers as promised if and only if a key that signed
or may has the address; with such addresses no call is undefined. -/
theorem signed_by_address_iff (F : AddressForms Key Address) (sigs keys : List Key) :
    (∀ (calls : List (Call Key Address)) (s : SignState Key Address),
      run F calls (SignState.new sigs keys) = .ok s →
        ∀ a, Answers F sigs keys s a ↔ Known F sigs keys a) ∧
    ∀ calls : List (Call Key Address), (∀ a, Call.address a ∈ calls → Known F sigs keys a) →
      ∃ s, run F calls (SignState.new sigs keys) = .ok s := by
  refine ⟨fun calls s hrun a => ?_, fun calls hcalls => ?_⟩
  · exact (foldlM_invariant (P := Inv F sigs keys) (fun _ _ _ h hc => h.call hc) calls _ s
      (Inv.new F sigs keys) hrun).answers_iff a
  · have hstep : ∀ c rest (s : SignState Key Address), (Inv F sigs keys s ∧
          ∀ a, Call.address a ∈ c :: rest → Known F sigs keys a) →
        ∃ s', call F s c = .ok s' ∧ Inv F sigs keys s' ∧
          ∀ a, Call.address a ∈ rest → Known F sigs keys a := by
      rintro c rest s ⟨h, hrest⟩
      have hreturns : ∃ s', call F s c = .ok s' := by
        cases c with
        | key k => exact ⟨_, rfl⟩
        | address a =>
          obtain ⟨r, s', hs', -⟩ := (h.answers_iff a).mpr (hrest a List.mem_cons_self)
          exact ⟨s', by rw [AddressSignatures.call, hs']; rfl⟩
      obtain ⟨s', hs'⟩ := hreturns
      exact ⟨s', hs', h.call hs', fun a ha => hrest a (List.mem_cons_of_mem _ ha)⟩
    obtain ⟨s, hs, -⟩ := foldlM_total (f := call F)
      (P := fun rest s => Inv F sigs keys s ∧ ∀ a, Call.address a ∈ rest → Known F sigs keys a)
      hstep calls (SignState.new sigs keys) ⟨Inv.new F sigs keys, hcalls⟩
    exact ⟨s, hs⟩

end

/-! ### Addresses that no key has -/

/-- Numbers as keys, and the five forms of a number. -/
def numberedForms : AddressForms Nat Nat where
  ptsAddress k compressed version := 1000 * k + 2 * version.toNat + compressed.toNat
  address k := 1000 * k + 999

/-- After a key was used that may sign, and the maps were built. -/
theorem signed_by_address_after_calls : ∃ s, run numberedForms [.address 1999, .key 2]
      (SignState.new [1] [2]) = .ok s ∧ Answers numberedForms [1] [2] s 2112 ∧
      ¬Answers numberedForms [1] [2] s 5 := by
  obtain ⟨hanswers, hreturns⟩ := signed_by_address_iff numberedForms [1] [2]
  have hknown : ∀ a, Known numberedForms [1] [2] a ↔ a ∈ numberedForms.all 1 ∨
      a ∈ numberedForms.all 2 := by
    intro a
    simp only [Known, List.mem_singleton]
    constructor
    · rintro ⟨k, rfl | rfl, ha⟩
      · exact Or.inl ha
      · exact Or.inr ha
    · rintro (ha | ha)
      · exact ⟨1, Or.inl rfl, ha⟩
      · exact ⟨2, Or.inr rfl, ha⟩
  obtain ⟨s, hs⟩ := hreturns [.address 1999, .key 2] (fun a ha => by
    obtain rfl : a = 1999 := by simpa using ha
    exact (hknown 1999).mpr (by decide))
  refine ⟨s, hs, (hanswers _ s hs 2112).mpr ((hknown _).mpr (by decide)), fun h => ?_⟩
  exact absurd ((hknown _).mp ((hanswers _ s hs 5).mp h)) (by decide)

/-- Without any keys, the end of a map is dereferenced. -/
theorem unknown_address_not_answered : ∃ s, run numberedForms [] (SignState.new [] []) = .ok s ∧
    ¬Known numberedForms [] [] 7 ∧ ¬Answers numberedForms [] [] s 7 := by
  refine ⟨_, rfl, ?_, ?_⟩
  · rintro ⟨k, hk | hk, -⟩
    · exact List.not_mem_nil hk
    · exact List.not_mem_nil hk
  · rintro ⟨r, s', hs', -⟩
    cases hs'

end Nestchain.Protocol.AddressSignatures
