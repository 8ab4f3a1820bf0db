import Nestchain.Lib.Attempt
import Mathlib.Algebra.BigOperators.Group.List.Basic
import Mathlib.Algebra.GroupWithZero.Nat
import Mathlib.Algebra.Order.BigOperators.Group.List
import Mathlib.Algebra.Order.Group.Nat
import Mathlib.Algebra.Order.Monoid.NatCast
import Mathlib.Data.Nat.Log
import Mathlib.Data.UInt

/-! `vote_counter`, which turns votes into the weights of an authority.  The votes come in
descending order, and the first ones decide by how many bits all of them are scaled down. -/

namespace Nestchain.Maintenance

open Lib

/-! ### Authorities -/

/-- `authority`: the entries of its maps are in the order of the keys. -/
structure WeightedAuthority where
  weightThreshold : Nat
  accountAuths : List (Nat × Nat)
  keyAuths : List (Nat × Nat)
  addressAuths : List (Nat × Nat)
deriving DecidableEq

/-- `account_auths[k] = w` -/
def setWeight (k w : Nat) : List (Nat × Nat) → List (Nat × Nat)
  | [] => [(k, w)]
  | (j, v) :: l =>
    if k < j then (k, w) :: (j, v) :: l
    else if k = j then (k, w) :: l
    else (j, v) :: setWeight k w l

namespace WeightedAuthority

def addAuthority (a : WeightedAuthority) (k w : Nat) : WeightedAuthority :=
  { a with accountAuths := setWeight k w a.accountAuths }

def isImpossible (a : WeightedAuthority) : Bool :=
  decide ((a.accountAuths.map Prod.snd).sum + (a.keyAuths.map Prod.snd).sum +
    (a.addressAuths.map Prod.snd).sum < a.weightThreshold)

def weightOf (a : WeightedAuthority) (group : Nat → Bool) : Nat :=
  ((a.accountAuths.filter fun r => group r.1).map Prod.snd).sum

end WeightedAuthority

/-! ### The counter -/

/-- `vote_counter`, with no bit shift before the first votes. -/
structure VoteCounter where
  lastVotes : Nat
  totalVotes : Nat
  bitshift : Option Nat
  auth : WeightedAuthority
deriving DecidableEq

namespace VoteCounter

def empty : VoteCounter := ⟨2 ^ 64 - 1, 0, none, ⟨0, [], [], []⟩⟩

/-- The shift that leaves 16 bits of the first votes. -/
def shiftFor (votes : UInt64) : Nat := max (Nat.log2 votes.toNat - 15) 0

def scaledVotes (shift : Nat) (votes : UInt64) : Nat := max (votes.toNat >>> shift) 1

def add (vc : VoteCounter) (who : Nat) (votes : UInt64) : Attempt VoteCounter :=
  if votes = 0 then pure vc
  else do
    require (votes.toNat ≤ vc.lastVotes)
    let shift := vc.bitshift.getD (shiftFor votes)
    let scaled := scaledVotes shift votes
    require (scaled ≤ 2 ^ 16 - 1)
    let total := vc.totalVotes + scaled
    require (total ≤ 2 ^ 32 - 1)
    pure ⟨votes.toNat, total, some shift, vc.auth.addAuthority who scaled⟩

/-- The authority is written only if there is a member. -/
def finish (vc : VoteCounter) (out : WeightedAuthority) : Attempt WeightedAuthority :=
  if vc.totalVotes = 0 then pure out
  else do
    require (vc.totalVotes ≤ 2 ^ 32 - 1)
    pure { vc.auth with weightThreshold := (vc.totalVotes >>> 1) + 1 }

def isEmpty (vc : VoteCounter) : Bool := decide (vc.totalVotes = 0)

/-- The calls of `add` for a list of members. -/
def addAll (members : List (Nat × UInt64)) : Attempt VoteCounter :=
  members.foldlM (fun vc r => vc.add r.1 r.2) empty

end VoteCounter

/-! ### Weights -/

theorem setWeight_perm {k w : Nat} {l : List (Nat × Nat)} (h : ∀ r ∈ l, r.1 ≠ k) :
    (setWeight k w l).Perm ((k, w) :: l) := by
  induction l with
  | nil => exact List.Perm.refl _
  | cons r l ih =>
    obtain ⟨j, v⟩ := r
    rw [setWeight]
    split
    · exact List.Perm.refl _
    · rw [if_neg (fun hk => h (j, v) List.mem_cons_self hk.symm)]
      exact ((ih fun r hr => h r (List.mem_cons_of_mem _ hr)).cons _).trans (List.Perm.swap _ _ _)

theorem scaledVotes_mono (shift : Nat) {v w : UInt64} (h : v.toNat ≤ w.toNat) :
    VoteCounter.scaledVotes shift v ≤ VoteCounter.scaledVotes shift w := by
  simp only [VoteCounter.scaledVotes, Nat.shiftRight_eq_div_pow]
  exact max_le_max (Nat.div_le_div_right h) le_rfl

theorem scaledVotes_le {first v : UInt64} (h : v.toNat ≤ first.toNat) :
    VoteCounter.scaledVotes (VoteCounter.shiftFor first) v ≤ 2 ^ 16 - 1 := by
  refine (scaledVotes_mono _ h).trans (max_le ?_ (by decide))
  rw [Nat.shiftRight_eq_div_pow, VoteCounter.shiftFor, max_eq_left (Nat.zero_le _)]
  have hlt : first.toNat < 2 ^ (Nat.log2 first.toNat + 1) := Nat.lt_log2_self
  have hpow : 2 ^ (Nat.log2 first.toNat + 1) ≤ 2 ^ 16 * 2 ^ (Nat.log2 first.toNat - 15) := by
    rw [← pow_add]
    exact Nat.pow_le_pow_right (by decide) (by omega)
  have hdiv : first.toNat / 2 ^ (Nat.log2 first.toNat - 15) < 2 ^ 16 :=
    Nat.div_lt_of_lt_mul (by rw [Nat.mul_comm]; exact lt_of_lt_of_le hlt hpow)
  omega

/-! ### Counting -/

def voted (members : List (Nat × UInt64)) : List (Nat × UInt64) :=
  members.filter fun r => r.2 ≠ 0

/-- The entries of the authority for the members. -/
def weighted (shift : Nat) (members : List (Nat × UInt64)) : List (Nat × Nat) :=
  (voted members).map fun r => (r.1, VoteCounter.scaledVotes shift r.2)

/-- The members as the code supplies them. -/
structure Ranked (members : List (Nat × UInt64)) : Prop where
  length : members.length ≤ 65536
  nodup : (members.map Prod.fst).Nodup
  descending : members.Pairwise fun r q => q.2.toNat ≤ r.2.toNat

/-- The shift of the first votes that are not zero. -/
def commonShift (members : List (Nat × UInt64)) : Nat :=
  ((voted members).head?.map fun r => VoteCounter.shiftFor r.2).getD 0

/-- The counter after the members of a list. -/
structure Counted (vc : VoteCounter) (members : List (Nat × UInt64)) : Prop where
  bitshift : voted members ≠ [] → vc.bitshift = some (commonShift members)
  start : voted members = [] → vc = VoteCounter.empty
  auths : vc.auth.accountAuths.Perm (weighted (commonShift members) members)
  keys : vc.auth.keyAuths = []
  addresses : vc.auth.addressAuths = []
  total : vc.totalVotes = ((weighted (commonShift members) members).map Prod.snd).sum
  lastVotes : ∀ r, (voted members).getLast? = some r → vc.lastVotes = r.2.toNat

theorem voted_append (l l' : List (Nat × UInt64)) : voted (l ++ l') = voted l ++ voted l' :=
  List.filter_append _ _

theorem commonShift_append {l l' : List (Nat × UInt64)} (h : voted l ≠ []) :
    commonShift (l ++ l') = commonShift l := by
  rw [commonShift, voted_append, List.head?_append_of_ne_nil _ h, commonShift]

theorem sum_map_le {α : Type} {l : List α} {f : α → Nat} {b : Nat} (h : ∀ a ∈ l, f a ≤ b) :
    (l.map f).sum ≤ l.length * b := by
  have hsum := List.sum_le_card_nsmul (l.map f) b (fun x hx => by
    obtain ⟨a, ha, rfl⟩ := List.mem_map.mp hx
    exact h a ha)
  rwa [List.length_map, Nat.nsmul_eq_mul] at hsum

theorem scaled_le_of_ranked {members : List (Nat × UInt64)} (h : Ranked members) :
    ∀ r ∈ voted members, VoteCounter.scaledVotes (commonShift members) r.2 ≤ 2 ^ 16 - 1 := by
  have hdesc : (voted members).Pairwise fun r q => q.2.toNat ≤ r.2.toNat :=
    h.descending.sublist List.filter_sublist
  rw [commonShift]
  cases hv : voted members with
  | nil => exact fun r hr => nomatch hr
  | cons first rest =>
    rw [hv] at hdesc
    intro r hr
    refine scaledVotes_le ?_
    rcases List.mem_cons.mp hr with rfl | hr
    · exact le_rfl
    · exact (List.pairwise_cons.mp hdesc).1 r hr

theorem Ranked.sublist {l l' : List (Nat × UInt64)} (h : Ranked l') (hl : l.Sublist l') :
    Ranked l where
  length := hl.length_le.trans h.length
  nodup := h.nodup.sublist (hl.map Prod.fst)
  descending := h.descending.sublist hl

theorem total_le_of_ranked {members : List (Nat × UInt64)} (h : Ranked members) :
    ((weighted (commonShift members) members).map Prod.snd).sum ≤ 2 ^ 32 - 1 := by
  rw [weighted, List.map_map]
  have hsum := sum_map_le (scaled_le_of_ranked h)
  have hlength : (voted members).length ≤ 65536 :=
    (List.length_filter_le _ _).trans h.length
  have hbound := Nat.mul_le_mul_right (2 ^ 16 - 1) hlength
  exact (hsum.trans hbound).trans (by decide)

theorem Counted.add_zero {vc : VoteCounter} {done : List (Nat × UInt64)} {r : Nat × UInt64}
    (h : Counted vc done) (hzero : r.2 = 0) : Counted vc (done ++ [r]) := by
  have hvoted : voted (done ++ [r]) = voted done := by
    rw [voted_append, voted, voted, List.filter_cons_of_neg (by simp [hzero]), List.filter_nil,
      List.append_nil]
  have hshift : commonShift (done ++ [r]) = commonShift done := by
    rw [commonShift, hvoted, commonShift]
  have hweighted : ∀ s, weighted s (done ++ [r]) = weighted s done := fun s => by
    rw [weighted, hvoted, weighted]
  refine ⟨?_, ?_, ?_, h.keys, h.addresses, ?_, ?_⟩
  · rw [hvoted, hshift]
    exact h.bitshift
  · rw [hvoted]
    exact h.start
  · rw [hweighted, hshift]
    exact h.auths
  · rw [hweighted, hshift]
    exact h.total
  · rw [hvoted]
    exact h.lastVotes

theorem Counted.add {vc : VoteCounter} {done rest : List (Nat × UInt64)} {r : Nat × UInt64}
    (h : Counted vc done) (hranked : Ranked (done ++ r :: rest)) :
    ∃ vc', vc.add r.1 r.2 = .ok vc' ∧ Counted vc' (done ++ [r]) := by
  by_cases hzero : r.2 = 0
  · exact ⟨vc, if_pos hzero, h.add_zero hzero⟩
  have hnow : Ranked (done ++ [r]) := hranked.sublist
    ((List.Sublist.refl done).append (List.singleton_sublist.mpr List.mem_cons_self))
  have hvoted : voted (done ++ [r]) = voted done ++ [r] := by
    rw [voted_append, voted, voted, List.filter_cons_of_pos (by simpa using hzero), List.filter_nil]
  have hmem : r ∈ voted (done ++ [r]) := by
    rw [hvoted]
    exact List.mem_append_right _ (List.mem_singleton_self r)
  -- the shift and the entries of the members before
  have hshift : vc.bitshift.getD (VoteCounter.shiftFor r.2) = commonShift (done ++ [r]) := by
    by_cases hnone : voted done = []
    · rw [h.start hnone, commonShift, hvoted, hnone]
      rfl
    · rw [h.bitshift hnone, commonShift_append hnone, Option.getD_some]
  have hbefore : weighted (commonShift (done ++ [r])) done = weighted (commonShift done) done := by
    by_cases hnone : voted done = []
    · rw [weighted, weighted, hnone]
      rfl
    · rw [commonShift_append hnone]
  generalize hs : commonShift (done ++ [r]) = s at hshift hbefore
  have hweighted : weighted s (done ++ [r]) =
      weighted s done ++ [(r.1, VoteCounter.scaledVotes s r.2)] := by
    rw [weighted, hvoted, List.map_append, weighted]
    rfl
  have htotal : vc.totalVotes + VoteCounter.scaledVotes s r.2 =
      ((weighted s (done ++ [r])).map Prod.snd).sum := by
    rw [hweighted, List.map_append, List.sum_append, h.total, hbefore]
    rfl
  -- the assertions
  have hlast : r.2.toNat ≤ vc.lastVotes := by
    by_cases hnone : voted done = []
    · rw [h.start hnone]
      exact Nat.le_sub_one_of_lt r.2.toNat_lt
    · obtain ⟨q, hq⟩ := List.getLast?_isSome.mpr hnone |> Option.isSome_iff_exists.mp
      rw [h.lastVotes q hq]
      have hqdone : q ∈ done := List.mem_of_mem_filter (List.mem_of_getLast? hq)
      exact (List.pairwise_append.mp hnow.descending).2.2 q hqdone r (List.mem_singleton_self r)
  have hscaled : VoteCounter.scaledVotes s r.2 ≤ 2 ^ 16 - 1 := hs ▸ scaled_le_of_ranked hnow r hmem
  have hfits : vc.totalVotes + VoteCounter.scaledVotes s r.2 ≤ 2 ^ 32 - 1 := by
    rw [htotal, ← hs]
    exact total_le_of_ranked hnow
  refine ⟨⟨r.2.toNat, vc.totalVotes + VoteCounter.scaledVotes s r.2, some s,
    vc.auth.addAuthority r.1 (VoteCounter.scaledVotes s r.2)⟩, ?_, ?_⟩
  · simp only [VoteCounter.add, if_neg hzero, hshift, bind_eq_ok, require_eq_ok, exists_const,
      pure_eq_ok]
    exact ⟨hlast, hscaled, hfits, trivial⟩
  · refine ⟨fun _ => by rw [hs], fun hnone => ?_, ?_, h.keys, h.addresses, ?_,
      fun q hq => ?_⟩
    · rw [hnone] at hmem
      exact absurd hmem List.not_mem_nil
    · have hnew : ∀ q ∈ vc.auth.accountAuths, q.1 ≠ r.1 := by
        intro q hq heq
        obtain ⟨p, hp, rfl⟩ := List.mem_map.mp (h.auths.mem_iff.mp hq)
        have hdone : p.1 ∈ done.map Prod.fst := List.mem_map_of_mem (List.mem_of_mem_filter hp)
        have hnodup := hnow.nodup
        rw [List.map_append, List.nodup_append] at hnodup
        exact hnodup.2.2 _ hdone _ (List.mem_singleton_self r.1) heq
      rw [hs, hweighted, hbefore]
      exact (setWeight_perm hnew).trans ((h.auths.cons _).trans (List.perm_append_singleton _ _).symm)
    · rw [hs]
      exact htotal
    · rw [hvoted, List.getLast?_concat] at hq
      rw [← Option.some.inj hq]

theorem Counted.empty : Counted VoteCounter.empty [] :=
  ⟨fun h => absurd rfl h, fun _ => rfl, List.Perm.refl _, rfl, rfl, rfl, fun _ h => nomatch h⟩

theorem addAll_counted {members : List (Nat × UInt64)} (h : Ranked members) :
    ∃ vc, VoteCounter.addAll members = .ok vc ∧ Counted vc members := by
  obtain ⟨vc, hvc, done, hdone, hcounted⟩ := foldlM_total
    (P := fun rest vc => ∃ done, members = done ++ rest ∧ Counted vc done)
    (f := fun (vc : VoteCounter) (r : Nat × UInt64) => vc.add r.1 r.2)
    (fun r rest vc ⟨done, hdone, hcounted⟩ => by
      obtain ⟨vc', hadd, hcounted'⟩ := hcounted.add (hdone ▸ h)
      exact ⟨vc', hadd, done ++ [r], by rw [hdone, List.append_assoc]; rfl, hcounted'⟩)
    members VoteCounter.empty ⟨[], rfl, Counted.empty⟩
  rw [List.append_nil] at hdone
  exact ⟨vc, hvc, hdone ▸ hcounted⟩

/-! ### Groups -/

theorem weightOf_add_le (a : WeightedAuthority) {g g' : Nat → Bool}
    (hdisjoint : ∀ k, g k = true → g' k = false) :
    a.weightOf g + a.weightOf g' ≤ (a.accountAuths.map Prod.snd).sum := by
  unfold WeightedAuthority.weightOf
  induction a.accountAuths with
  | nil => exact Nat.le_refl 0
  | cons r l ih =>
    rw [List.map_cons, List.sum_cons]
    cases hg : g r.1 with
    | true =>
      rw [List.filter_cons_of_pos (a := r) hg,
        List.filter_cons_of_neg (a := r) (by simp [hdisjoint r.1 hg]), List.map_cons, List.sum_cons]
      omega
    | false =>
      rw [List.filter_cons_of_neg (a := r) (by simp [hg])]
      cases hg' : g' r.1 with
      | true =>
        rw [List.filter_cons_of_pos (a := r) hg', List.map_cons, List.sum_cons]
        omega
      | false =>
        rw [List.filter_cons_of_neg (a := r) (by simp [hg'])]
        omega

/-! ### The authority -/

/-- The authority that the votes of the members give: `shift` is common to all of them. -/
structure Weighs (a : WeightedAuthority) (total shift : Nat) (members : List (Nat × UInt64)) :
    Prop where
  entries : a.accountAuths.Perm
    ((voted members).map fun r => (r.1, max (r.2.toNat / 2 ^ shift) 1))
  others : a.keyAuths = [] ∧ a.addressAuths = []
  bounds : ∀ r ∈ a.accountAuths, 1 ≤ r.2 ∧ r.2 ≤ 65535
  ranked : ((voted members).map fun r => max (r.2.toNat / 2 ^ shift) 1).Pairwise fun w w' => w' ≤ w
  sum : total = (a.accountAuths.map Prod.snd).sum
  reachable : a.isImpossible = false
  majority : total < 2 * a.weightThreshold
  onlyOne : ∀ g g' : Nat → Bool, (∀ k, g k = true → g' k = false) →
    a.weightOf g < a.weightThreshold ∨ a.weightOf g' < a.weightThreshold

theorem scaledVotes_eq (shift : Nat) (v : UInt64) :
    VoteCounter.scaledVotes shift v = max (v.toNat / 2 ^ shift) 1 := by
  rw [VoteCounter.scaledVotes, Nat.shiftRight_eq_div_pow]

theorem weighted_eq (shift : Nat) (members : List (Nat × UInt64)) : weighted shift members =
    (voted members).map fun r => (r.1, max (r.2.toNat / 2 ^ shift) 1) := by
  simp only [weighted, scaledVotes_eq]

theorem Counted.pos {vc : VoteCounter} {members : List (Nat × UInt64)} (h : Counted vc members)
    (hvoted : voted members ≠ []) : 1 ≤ vc.totalVotes := by
  obtain ⟨p, hp⟩ := List.exists_mem_of_ne_nil _ hvoted
  have hmem : VoteCounter.scaledVotes (commonShift members) p.2 ∈
      (weighted (commonShift members) members).map Prod.snd :=
    List.mem_map_of_mem (List.mem_map_of_mem hp)
  rw [h.total]
  exact (le_max_right _ _).trans (List.le_sum_of_mem hmem)

theorem Counted.weighs {vc : VoteCounter} {members : List (Nat × UInt64)} {a : WeightedAuthority}
    (h : Counted vc members) (hranked : Ranked members) (hvoted : voted members ≠ [])
    (ha : a = { vc.auth with weightThreshold := (vc.totalVotes >>> 1) + 1 }) :
    Weighs a vc.totalVotes (commonShift members) members := by
  have hthreshold : a.weightThreshold = vc.totalVotes / 2 + 1 := by
    rw [ha, Nat.shiftRight_eq_div_pow]
  have hauths : a.accountAuths = vc.auth.accountAuths := by rw [ha]
  have hkeys : a.keyAuths = [] := ha ▸ h.keys
  have haddresses : a.addressAuths = [] := ha ▸ h.addresses
  have htotal : vc.totalVotes = (a.accountAuths.map Prod.snd).sum := by
    rw [h.total, hauths]
    exact ((h.auths.map Prod.snd).sum_eq).symm
  have hpositive := h.pos hvoted
  have hdesc : (voted members).Pairwise fun r q => q.2.toNat ≤ r.2.toNat :=
    hranked.descending.sublist List.filter_sublist
  refine ⟨?_, ⟨hkeys, haddresses⟩, ?_, ?_, htotal, ?_, ?_, ?_⟩
  · rw [hauths, ← weighted_eq]
    exact h.auths
  · intro r hr
    rw [hauths] at hr
    obtain ⟨p, hp, rfl⟩ := List.mem_map.mp (h.auths.mem_iff.mp hr)
    exact ⟨le_max_right _ _, scaled_le_of_ranked hranked p hp⟩
  · refine List.pairwise_map.mpr (hdesc.imp fun hle => ?_)
    exact max_le_max (Nat.div_le_div_right hle) le_rfl
  · rw [WeightedAuthority.isImpossible, hkeys, haddresses, ← htotal, hthreshold]
    refine decide_eq_false (not_lt.mpr ?_)
    rw [List.map_nil, List.sum_nil]
    omega
  · omega
  · intro g g' hdisjoint
    have hle := weightOf_add_le a hdisjoint
    rw [← htotal] at hle
    omega

/-- `vote_counter` on members in the order of their votes: no assertion fails.  Members with votes
get the weights of the authority, and without any the old authority stays. -/
theorem vote_weights_sound {members : List (Nat × UInt64)} (h : Ranked members)
    (old : WeightedAuthority) :
    ∃ vc out, VoteCounter.addAll members = .ok vc ∧ vc.finish old = .ok out ∧
      (voted members = [] → out = old ∧ vc.isEmpty = true) ∧
      (voted members ≠ [] → vc.isEmpty = false ∧
        ∃ shift, Weighs out vc.totalVotes shift members) := by
  obtain ⟨vc, hadd, hcounted⟩ := addAll_counted h
  by_cases hvoted : voted members = []
  · obtain rfl := hcounted.start hvoted
    exact ⟨_, old, hadd, rfl, fun _ => ⟨rfl, rfl⟩, fun hne => absurd hvoted hne⟩
  · have hpositive : vc.totalVotes ≠ 0 := Nat.one_le_iff_ne_zero.mp (hcounted.pos hvoted)
    refine ⟨vc, _, hadd, ?_, fun hnone => absurd hnone hvoted,
      fun _ => ⟨decide_eq_false hpositive, _, hcounted.weighs h hvoted rfl⟩⟩
    rw [VoteCounter.finish, if_neg hpositive]
    simp only [bind_eq_ok, require_eq_ok, exists_const, pure_eq_ok, and_true]
    rw [hcounted.total]
    exact total_le_of_ranked h

/-- A large holder, one with dust and one with nothing. -/
theorem vote_weights_sound_three :
    Ranked [(4, 2 ^ 40), (2, 1), (9, 0)] ∧
    ∃ vc out, VoteCounter.addAll [(4, 2 ^ 40), (2, 1), (9, 0)] = .ok vc ∧
      vc.finish ⟨1, [(7, 1)], [], []⟩ = .ok out ∧ out = ⟨16385, [(2, 1), (4, 32768)], [], []⟩ := by
  have hranked : Ranked [(4, 2 ^ 40), (2, 1), (9, 0)] := ⟨by decide, by decide, by decide⟩
  obtain ⟨vc, out, hadd, hfinish, -, -⟩ := vote_weights_sound hranked ⟨1, [(7, 1)], [], []⟩
  refine ⟨hranked, vc, out, hadd, hfinish, ?_⟩
  have hvc : VoteCounter.addAll [(4, 2 ^ 40), (2, 1), (9, 0)] =
      .ok ⟨1, 32769, some 25, ⟨0, [(2, 1), (4, 32768)], [], []⟩⟩ := by decide +kernel
  rw [hvc] at hadd
  obtain rfl := Except.ok.inj hadd
  exact (Except.ok.inj hfinish).symm

end Nestchain.Maintenance
