import Mathlib.Algebra.Group.Nat.Defs
import Mathlib.Data.List.Nodup
import Nestchain.Lib.Attempt

/-! Extensions: structs of optional fields.  The binary form is a count and then, for each field
that is present, its position and its value; it is read back in one pass over the fields, with the
position of the next value read ahead.  The JSON form is an object with one entry for each field
that is present.

`fc::raw` and `fc::variant` are parameters: what they do with a field type is given with the
field. -/

open Nestchain.Lib

namespace Nestchain.Protocol.Extension

abbrev Bytes := List UInt8

/-- `fc::variant`, as far as it is looked into here. -/
inductive Variant where
  | null
  | scalar (text : String)
  | array (items : List Variant)
  | object (entries : List (String × Variant))

/-- `fc::raw` for one type.  The first argument is the depth that is left. -/
structure Codec (α : Type) where
  pack : Nat → α → Attempt Bytes
  unpack : Nat → Bytes → Attempt (α × Bytes)

/-- What is used of `fc` besides the field types: `unsigned_int`, which does not look at the depth,
and `limited_mutable_variant_object( max_depth )`, given by the depth at which it converts its
entries. -/
structure Fc where
  packUnsignedInt : Nat → Bytes
  unpackUnsignedInt : Bytes → Attempt (Nat × Bytes)
  limited : Nat → Attempt Nat

/-- A member `optional<Value>` of a reflected struct. -/
structure Field where
  name : String
  Value : Type
  raw : Codec Value
  toVariant : Nat → Option Value → Attempt Variant
  fromVariant : Nat → Variant → Attempt (Option Value)

/-- The reflected members of a struct.  `which` and `count` have 32 bits. -/
structure Reflected where
  fields : List Field
  distinct : (fields.map Field.name).Nodup
  few : fields.length < 2 ^ 32

def Members : List Field → Type
  | [] => Unit
  | f :: fs => Option f.Value × Members fs

abbrev Reflected.Struct (T : Reflected) : Type := Members T.fields

/-! ### Packing -/

/-- `graphene_extension_pack_count_visitor` -/
def packCount : (fs : List Field) → Members fs → Nat
  | [], _ => 0
  | _ :: fs, (member, members) => (if member.isSome then 1 else 0) + packCount fs members

section

variable (fc : Fc)

/-- `graphene_extension_pack_read_visitor` -/
def packMembers (maxDepth : Nat) : (fs : List Field) → (which : Nat) → Members fs → Attempt Bytes
  | [], _, _ => pure []
  | _ :: fs, which, (none, members) => packMembers maxDepth fs (which + 1) members
  | f :: fs, which, (some value, members) => do
    let field ← f.raw.pack maxDepth value
    let others ← packMembers maxDepth fs (which + 1) members
    return fc.packUnsignedInt which ++ (field ++ others)

/-- `fc::raw::pack` of an extension -/
def pack (T : Reflected) (maxDepth : Nat) (value : T.Struct) : Attempt Bytes := do
  require (0 < maxDepth)
  let maxDepth := maxDepth - 1
  let count := fc.packUnsignedInt (packCount T.fields value)
  require (0 < maxDepth)
  let fields ← packMembers fc (maxDepth - 1) T.fields 0 value
  return count ++ fields

/-! ### Unpacking -/

/-- `graphene_extension_unpack_visitor` and its stream -/
structure UnpackVisitor where
  which : Nat := 0
  nextWhich : Nat := 0
  countLeft : Nat := 0
  stream : Bytes

def UnpackVisitor.maybeReadNextWhich (visitor : UnpackVisitor) : Attempt UnpackVisitor :=
  if 0 < visitor.countLeft then do
    let (w, stream) ← fc.unpackUnsignedInt visitor.stream
    return { visitor with nextWhich := w, stream := stream }
  else
    return visitor

/-- `fc::reflector<T>::visit` with the unpack visitor -/
def unpackMembers (maxDepth : Nat) :
    (fs : List Field) → UnpackVisitor → Attempt (Members fs × UnpackVisitor)
  | [], visitor => pure ((), visitor)
  | f :: fs, visitor =>
    if 0 < visitor.countLeft ∧ visitor.which = visitor.nextWhich then do
      let (temp, stream) ← f.raw.unpack maxDepth visitor.stream
      let visitor ← UnpackVisitor.maybeReadNextWhich fc
        { visitor with countLeft := visitor.countLeft - 1, stream := stream }
      let (members, visitor) ← unpackMembers maxDepth fs { visitor with which := visitor.which + 1 }
      return ((some temp, members), visitor)
    else do
      let (members, visitor) ← unpackMembers maxDepth fs { visitor with which := visitor.which + 1 }
      return ((none, members), visitor)

/-- `fc::raw::unpack` of an extension: the value, and the stream behind it -/
def unpack (T : Reflected) (maxDepth : Nat) (stream : Bytes) : Attempt (T.Struct × Bytes) := do
  require (0 < maxDepth)
  let maxDepth := maxDepth - 1
  require (0 < maxDepth)
  let (c, stream) ← fc.unpackUnsignedInt stream
  let visitor ← UnpackVisitor.maybeReadNextWhich fc { countLeft := c, stream := stream }
  let (value, visitor) ← unpackMembers fc (maxDepth - 1) T.fields visitor
  -- an extension that is not recognized is still counted here
  require (visitor.countLeft = 0)
  return (value, visitor.stream)

end

/-! ### Variants -/

/-- `variant_object::find` -/
def findEntry (name : String) (entries : List (String × Variant)) : Option Variant :=
  (entries.find? fun e => e.1 == name).map Prod.snd

/-- `mutable_variant_object::set` -/
def setEntry (entries : List (String × Variant)) (name : String) (var : Variant) :
    List (String × Variant) :=
  if (findEntry name entries).isSome then
    entries.map fun e => if e.1 = name then (name, var) else e
  else
    entries ++ [(name, var)]

/-- `graphene_extension_to_variant_visitor` -/
def toVariantMembers (depth : Nat) :
    (fs : List Field) → Members fs → List (String × Variant) → Attempt (List (String × Variant))
  | [], _, mvo => pure mvo
  | _ :: fs, (none, members), mvo => toVariantMembers depth fs members mvo
  | f :: fs, (some value, members), mvo => do
    let var ← f.toVariant depth (some value)
    toVariantMembers depth fs members (setEntry mvo f.name var)

def toVariant (fc : Fc) (T : Reflected) (maxDepth : Nat) (value : T.Struct) : Attempt Variant := do
  let depth ← fc.limited maxDepth
  let mvo ← toVariantMembers depth T.fields value []
  return .object mvo

/-- `graphene_extension_from_variant_visitor`.  Its `assert( count_left > 0 )` is left out: it is
not there in a release build. -/
def fromVariantMembers (maxDepth : Nat) (vo : List (String × Variant)) :
    (fs : List Field) → UInt32 → Attempt (Members fs × UInt32)
  | [], countLeft => pure ((), countLeft)
  | f :: fs, countLeft =>
    match findEntry f.name vo with
    | some var => do
      let member ← f.fromVariant maxDepth var
      let (members, countLeft) ← fromVariantMembers maxDepth vo fs (countLeft - 1)
      return ((member, members), countLeft)
    | none => do
      let (members, countLeft) ← fromVariantMembers maxDepth vo fs countLeft
      return ((none, members), countLeft)

def Members.default : (fs : List Field) → Members fs
  | [] => ()
  | _ :: fs => (none, Members.default fs)

def fromVariant (T : Reflected) (maxDepth : Nat) (var : Variant) : Attempt T.Struct :=
  match var with
  | .null => pure (Members.default T.fields)
  | .array items => do
    require (items.length = 0)
    return Members.default T.fields
  | .scalar _ => .error .thrown
  | .object vo => do
    require (0 < maxDepth)
    let (value, countLeft) ←
      fromVariantMembers (maxDepth - 1) vo T.fields (UInt32.ofNat vo.length)
    require (countLeft = 0)
    return value

/-! ### What a packed extension looks like -/

/-- Every member that is present satisfies `P`. -/
def Members.Each (P : (f : Field) → f.Value → Prop) : (fs : List Field) → Members fs → Prop
  | [], _ => True
  | _ :: fs, (none, members) => Members.Each P fs members
  | f :: fs, (some value, members) => P f value ∧ Members.Each P fs members

/-- The positions of the members that are present, counted from `which`. -/
def Members.tags : (fs : List Field) → (which : Nat) → Members fs → List Nat
  | [], _, _ => []
  | _ :: fs, which, (none, members) => Members.tags fs (which + 1) members
  | _ :: fs, which, (some _, members) => which :: Members.tags fs (which + 1) members

/-- At `stream` stands a value of the field with position `tag`, and `next` behind it.  With
`strict` the value is written as it would be packed. -/
def Payload (strict : Prop) (depth : Nat) (field : Nat → Option Field) (tag : Nat)
    (stream next : Bytes) : Prop :=
  ∃ f value, field tag = some f ∧ f.raw.unpack depth stream = .ok (value, next) ∧
    (strict → ∃ enc, f.raw.pack depth value = .ok enc ∧ stream = enc ++ next)

/-- Tags, each with a value of its field, and `rest` behind them. -/
def Items (fc : Fc) (strict : Prop) (depth : Nat) (field : Nat → Option Field) :
    List Nat → Bytes → Bytes → Prop
  | [], stream, rest => stream = rest
  | tag :: tags, stream, rest => ∃ body next,
    fc.unpackUnsignedInt stream = .ok (tag, body) ∧
    (strict → stream = fc.packUnsignedInt tag ++ body) ∧
    Payload strict depth field tag body next ∧ Items fc strict depth field tags next rest

/-- A count and as many tagged values, and `rest` behind them. -/
def Encoding (fc : Fc) (strict : Prop) (T : Reflected) (depth : Nat) (tags : List Nat)
    (stream rest : Bytes) : Prop :=
  ∃ body, fc.unpackUnsignedInt stream = .ok (tags.length, body) ∧
    (strict → stream = fc.packUnsignedInt tags.length ++ body) ∧
    Items fc strict depth (fun i => T.fields[i]?) tags body rest

/-- All integers and values of the encoding at the start of the stream are written as they would be
packed. -/
def Canonical (fc : Fc) (T : Reflected) (depth : Nat) (stream : Bytes) : Prop :=
  ∃ tags rest, Encoding fc True T depth tags stream rest

/-! ### What is assumed of `fc` -/

structure Fc.Lawful (fc : Fc) : Prop where
  unsignedInt : ∀ n rest, n < 2 ^ 32 →
    fc.unpackUnsignedInt (fc.packUnsignedInt n ++ rest) = .ok (n, rest)
  limited : ∀ maxDepth depth, fc.limited maxDepth = .ok depth → 0 < maxDepth

structure Field.Lawful (fc : Fc) (f : Field) : Prop where
  raw : ∀ depth value enc rest, f.raw.pack depth value = .ok enc →
    f.raw.unpack depth (enc ++ rest) = .ok (value, rest)
  variant : ∀ maxDepth depth value var, fc.limited maxDepth = .ok depth →
    f.toVariant depth (some value) = .ok var → f.fromVariant (maxDepth - 1) var = .ok (some value)

/-! ### Reading back what was packed -/

section

variable {fc : Fc} {depth : Nat}

theorem maybeReadNextWhich_zero (which next : Nat) (stream : Bytes) :
    UnpackVisitor.maybeReadNextWhich fc ⟨which, next, 0, stream⟩ = .ok ⟨which, next, 0, stream⟩ :=
      rfl

theorem maybeReadNextWhich_pos {which next left tag : Nat} {stream body : Bytes} (hleft : 0 < left)
    (h : fc.unpackUnsignedInt stream = .ok (tag, body)) :
    UnpackVisitor.maybeReadNextWhich fc ⟨which, next, left, stream⟩ = .ok
      ⟨which, tag, left, body⟩ := by
  simp only [UnpackVisitor.maybeReadNextWhich, if_pos hleft, h]
  rfl

/-- The visitor stands at `visitor`, and the rest of its way gives `members` and leaves `rest`. -/
def Reads (fc : Fc) (depth : Nat) (fs : List Field) (visitor : UnpackVisitor) (members : Members fs)
    (rest : Bytes) : Prop :=
  ∃ which next, unpackMembers fc depth fs visitor = .ok (members, ⟨which, next, 0, rest⟩)

theorem Reads.skip {f : Field} {fs : List Field} {which next left : Nat} {stream rest : Bytes}
    {members : Members fs} (hskip : left = 0 ∨ which ≠ next)
    (h : Reads fc depth fs ⟨which + 1, next, left, stream⟩ members rest) :
    Reads fc depth (f :: fs) ⟨which, next, left, stream⟩ (none, members) rest := by
  obtain ⟨which', next', h⟩ := h
  refine ⟨which', next', ?_⟩
  have hnot : ¬ (0 < left ∧ which = next) := by
    intro ⟨hpos, heq⟩
    rcases hskip with hzero | hne
    · omega
    · exact hne heq
  simp only [unpackMembers, if_neg hnot, h]
  rfl

theorem Reads.take {f : Field} {fs : List Field} {which left : Nat} {stream body rest : Bytes}
    {value : f.Value} {members : Members fs} {next : UnpackVisitor}
    (hvalue : f.raw.unpack depth stream = .ok (value, body))
    (hnext : UnpackVisitor.maybeReadNextWhich fc ⟨which, which, left, body⟩ = .ok next)
    (h : Reads fc depth fs { next with which := next.which + 1 } members rest) :
    Reads fc depth (f :: fs) ⟨which, which, left + 1, stream⟩ (some value, members) rest := by
  obtain ⟨which', next', h⟩ := h
  refine ⟨which', next', ?_⟩
  have hleft : 0 < left + 1 ∧ which = which := ⟨Nat.succ_pos left, rfl⟩
  unfold unpackMembers
  rw [if_pos hleft]
  simp only [bind_eq_ok]
  exact ⟨_, hvalue, _, hnext, _, h, rfl⟩

theorem packCount_cons_some {f : Field} {fs : List Field} (value : f.Value) (members : Members fs) :
    packCount (f :: fs) (some value, members) = packCount fs members + 1 :=
  Nat.add_comm _ _

theorem packCount_cons_none {f : Field} {fs : List Field} (members : Members fs) :
    packCount (f :: fs) (none, members) = packCount fs members :=
  Nat.zero_add _

/-- What is packed for the members is nothing, or starts with the tag of the first that is present;
the visitor that has read this tag reads the members back. -/
theorem packMembers_reads (hfc : fc.Lawful) (fs : List Field) :
    ∀ (which : Nat) (members : Members fs)
    (enc : Bytes), (∀ f ∈ fs, f.Lawful fc) → which + fs.length ≤ 2 ^ 32 →
    packMembers fc depth fs which members = .ok enc →
    (packCount fs members = 0 ∧ enc = [] ∧
      ∀ next rest, Reads fc depth fs ⟨which, next, 0, rest⟩ members rest) ∨
    (0 < packCount fs members ∧ ∃ tag body, which ≤ tag ∧ tag < 2 ^ 32 ∧
      enc = fc.packUnsignedInt tag ++ body ∧
      ∀ rest, Reads fc depth fs ⟨which, tag, packCount fs members, body ++ rest⟩ members rest) := by
  induction fs with
  | nil =>
    intro which members enc _ _ h
    obtain rfl := pure_eq_ok.mp h
    exact Or.inl ⟨rfl, rfl, fun next rest => ⟨which, next, rfl⟩⟩
  | cons f fs ih =>
    rintro which ⟨member, members⟩ enc hfs hfew h
    have hlater : ∀ g ∈ fs, g.Lawful fc := fun g hg => hfs g (List.mem_cons_of_mem f hg)
    rw [List.length_cons] at hfew
    cases member with
    | none =>
      rw [packCount_cons_none]
      rcases ih (which + 1) members enc hlater (by omega) h with
        ⟨hzero, henc, hreads⟩ | ⟨hpos, tag, body, htag, hfit, henc, hreads⟩
      · exact Or.inl ⟨hzero, henc, fun next rest => (hreads next rest).skip (Or.inl rfl)⟩
      · refine Or.inr ⟨hpos, tag, body, by omega, hfit, henc, fun rest => ?_⟩
        exact (hreads rest).skip (Or.inr (by omega))
    | some value =>
      simp only [packMembers, bind_eq_ok, pure_eq_ok] at h
      obtain ⟨field, hfield, others, hothers, rfl⟩ := h
      rw [packCount_cons_some]
      refine Or.inr ⟨Nat.succ_pos _, which, field ++ others, Nat.le_refl _, by omega, rfl,
        fun rest => ?_⟩
      have hvalue : f.raw.unpack depth (field ++ others ++ rest) = .ok (value, others ++ rest) := by
        rw [List.append_assoc]
        exact (hfs f List.mem_cons_self).raw depth value field _ hfield
      -- the tag of the next member is read before it is looked at
      rcases ih (which + 1) members others hlater (by omega) hothers with
        ⟨hzero, rfl, hreads⟩ | ⟨hpos, tag, body, -, hfit, rfl, hreads⟩
      · rw [hzero]
        exact Reads.take hvalue (maybeReadNextWhich_zero _ _ _) (hreads _ _)
      · refine Reads.take hvalue (maybeReadNextWhich_pos hpos ?_) (hreads rest)
        rw [List.append_assoc]
        exact hfc.unsignedInt tag _ hfit

theorem packCount_le (fs : List Field) (members : Members fs) :
    packCount fs members ≤ fs.length := by
  induction fs with
  | nil => exact Nat.le_refl _
  | cons f fs ih =>
    obtain ⟨member, members⟩ := members
    have := ih members
    cases member with
    | none =>
      rw [packCount_cons_none, List.length_cons]
      omega
    | some value =>
      rw [packCount_cons_some, List.length_cons]
      omega

theorem pack_eq_ok {T : Reflected} {maxDepth : Nat} {value : T.Struct} {enc : Bytes} :
    pack fc T maxDepth value = .ok enc ↔ 2 ≤ maxDepth ∧
      ∃ fields, packMembers fc (maxDepth - 2) T.fields 0 value = .ok fields ∧
        enc = fc.packUnsignedInt (packCount T.fields value) ++ fields := by
  simp only [pack, bind_eq_ok, require_eq_ok, pure_eq_ok, exists_const, Nat.sub_sub]
  constructor
  · rintro ⟨hfirst, hsecond, fields, hfields, rfl⟩
    exact ⟨by omega, fields, hfields, rfl⟩
  · rintro ⟨hdepth, fields, hfields, rfl⟩
    exact ⟨by omega, by omega, fields, hfields, rfl⟩

theorem unpack_of_reads {T : Reflected} {maxDepth count : Nat} {stream body rest : Bytes}
    {value : T.Struct} {visitor : UnpackVisitor} (hdepth : 2 ≤ maxDepth)
    (hcount : fc.unpackUnsignedInt stream = .ok (count, body))
    (hstart : UnpackVisitor.maybeReadNextWhich fc ⟨0, 0, count, body⟩ = .ok visitor)
    (h : Reads fc (maxDepth - 2) T.fields visitor value rest) :
    unpack fc T maxDepth stream = .ok (value, rest) := by
  obtain ⟨which, next, h⟩ := h
  simp only [unpack, bind_eq_ok, require_eq_ok, pure_eq_ok, exists_const, Nat.sub_sub]
  exact ⟨by omega, by omega, _, hcount, _, hstart, _, h, rfl, rfl⟩

theorem unpack_pack (hfc : fc.Lawful) {T : Reflected} (hT : ∀ f ∈ T.fields, f.Lawful fc)
    {maxDepth : Nat} {value : T.Struct} {enc : Bytes} (h : pack fc T maxDepth value = .ok enc)
    (rest : Bytes) : unpack fc T maxDepth (enc ++ rest) = .ok (value, rest) := by
  obtain ⟨hdepth, fields, hfields, rfl⟩ := pack_eq_ok.mp h
  have hcount : fc.unpackUnsignedInt
      (fc.packUnsignedInt (packCount T.fields value) ++ fields ++ rest) =
      .ok (packCount T.fields value, fields ++ rest) := by
    rw [List.append_assoc]
    exact hfc.unsignedInt _ _ (Nat.lt_of_le_of_lt (packCount_le T.fields value) T.few)
  have hfew : 0 + T.fields.length ≤ 2 ^ 32 := by
    rw [Nat.zero_add]
    exact Nat.le_of_lt T.few
  rcases packMembers_reads hfc T.fields 0 value fields hT hfew hfields with
    ⟨hzero, rfl, hreads⟩ | ⟨hpos, tag, body, -, hfit, rfl, hreads⟩
  · refine unpack_of_reads hdepth hcount ?_ (hreads 0 _)
    rw [hzero]
    exact maybeReadNextWhich_zero 0 0 _
  · refine unpack_of_reads hdepth hcount (maybeReadNextWhich_pos hpos ?_) (hreads rest)
    rw [List.append_assoc]
    exact hfc.unsignedInt tag _ hfit

end

/-! ### What is accepted -/

section

variable {fc : Fc} {depth : Nat}

theorem Members.tags_ge (fs : List Field) : ∀ (which : Nat) (members : Members fs),
    ∀ tag ∈ Members.tags fs which members, which ≤ tag ∧ tag < which + fs.length := by
  induction fs with
  | nil =>
    intro which members tag htag
    cases htag
  | cons f fs ih =>
    rintro which ⟨member, members⟩ tag htag
    rw [List.length_cons]
    cases member with
    | none =>
      have := ih (which + 1) members tag htag
      omega
    | some value =>
      rcases List.mem_cons.mp htag with rfl | htag
      · omega
      · have := ih (which + 1) members tag htag
        omega

theorem Members.tags_increasing (fs : List Field) : ∀ (which : Nat) (members : Members fs),
    (Members.tags fs which members).Pairwise (· < ·) := by
  induction fs with
  | nil =>
    intro which members
    exact List.Pairwise.nil
  | cons f fs ih =>
    rintro which ⟨member, members⟩
    cases member with
    | none => exact ih (which + 1) members
    | some value =>
      refine List.pairwise_cons.mpr ⟨fun tag htag => ?_, ih (which + 1) members⟩
      have := Members.tags_ge fs (which + 1) members tag htag
      omega

theorem packCount_eq_length (fs : List Field) : ∀ (which : Nat) (members : Members fs),
    packCount fs members = (Members.tags fs which members).length := by
  induction fs with
  | nil =>
    intro which members
    rfl
  | cons f fs ih =>
    rintro which ⟨member, members⟩
    cases member with
    | none =>
      rw [packCount_cons_none]
      exact ih (which + 1) members
    | some value =>
      rw [packCount_cons_some]
      exact congrArg (· + 1) (ih (which + 1) members)

theorem maybeReadNextWhich_eq_ok {visitor visitor' : UnpackVisitor}
    (h : visitor.maybeReadNextWhich fc = .ok visitor') :
    (visitor.countLeft = 0 ∧ visitor' = visitor) ∨
    (0 < visitor.countLeft ∧ ∃ tag body, fc.unpackUnsignedInt visitor.stream = .ok (tag, body) ∧
      visitor' = { visitor with nextWhich := tag, stream := body }) := by
  unfold UnpackVisitor.maybeReadNextWhich at h
  split at h
  · rename_i hpos
    simp only [bind_eq_ok, pure_eq_ok] at h
    obtain ⟨⟨tag, body⟩, hread, rfl⟩ := h
    exact Or.inr ⟨hpos, tag, body, hread, rfl⟩
  · obtain rfl := pure_eq_ok.mp h
    exact Or.inl ⟨by omega, rfl⟩

theorem unpackMembers_cons {f : Field} {fs : List Field} {visitor visitor' : UnpackVisitor}
    {members : Members (f :: fs)} (h : unpackMembers fc depth (f :: fs) visitor = .ok
      (members, visitor')) :
    (0 < visitor.countLeft ∧ visitor.which = visitor.nextWhich ∧ ∃ value body next others,
      f.raw.unpack depth visitor.stream = .ok (value, body) ∧
      UnpackVisitor.maybeReadNextWhich fc
        { visitor with countLeft := visitor.countLeft - 1, stream := body } = .ok next ∧
      unpackMembers fc depth fs { next with which := next.which + 1 } = .ok (others, visitor') ∧
      members = (some value, others)) ∨
    (¬ (0 < visitor.countLeft ∧ visitor.which = visitor.nextWhich) ∧ ∃ others,
      unpackMembers fc depth fs { visitor with which := visitor.which + 1 } = .ok
        (others, visitor') ∧
      members = (none, others)) := by
  unfold unpackMembers at h
  split at h
  · rename_i htake
    simp only [bind_eq_ok, pure_eq_ok] at h
    obtain ⟨⟨value, body⟩, hvalue, next, hnext, ⟨others, after⟩, hothers, heq⟩ := h
    obtain ⟨rfl, rfl⟩ := Prod.mk.inj heq
    exact Or.inl ⟨htake.1, htake.2, value, body, next, others, hvalue, hnext, hothers, rfl⟩
  · rename_i hskip
    simp only [bind_eq_ok, pure_eq_ok] at h
    obtain ⟨⟨others, after⟩, hothers, heq⟩ := h
    obtain ⟨rfl, rfl⟩ := Prod.mk.inj heq
    exact Or.inr ⟨hskip, others, hothers, rfl⟩

/-- The fields from position `which` on. -/
def FieldsFrom (field : Nat → Option Field) (which : Nat) (fs : List Field) : Prop :=
  ∀ i, field (which + i) = fs[i]?

theorem FieldsFrom.head {field : Nat → Option Field} {which : Nat} {f : Field} {fs : List Field}
    (h : FieldsFrom field which (f :: fs)) : field which = some f := h 0

theorem FieldsFrom.tail {field : Nat → Option Field} {which : Nat} {f : Field} {fs : List Field}
    (h : FieldsFrom field which (f :: fs)) : FieldsFrom field (which + 1) fs := by
  intro i
  have := h (i + 1)
  rwa [List.getElem?_cons_succ, show which + (i + 1) = which + 1 + i by omega] at this

/-- What the visitor read until nothing was left of the count: the tag that it started with and the
tags behind it are those of the members it gave. -/
theorem unpackMembers_items {field : Nat → Option Field} (fs : List Field) :
    ∀ (visitor visitor' : UnpackVisitor) (members : Members fs), FieldsFrom field visitor.which fs →
    unpackMembers fc depth fs visitor = .ok (members, visitor') → visitor'.countLeft = 0 →
    (visitor.countLeft = 0 ∧ Members.tags fs visitor.which members = [] ∧
      visitor.stream = visitor'.stream) ∨
    (∃ tags next, visitor.countLeft = tags.length + 1 ∧
      Members.tags fs visitor.which members = visitor.nextWhich :: tags ∧
      Payload False depth field visitor.nextWhich visitor.stream next ∧
      Items fc False depth field tags next visitor'.stream) := by
  induction fs with
  | nil =>
    intro visitor visitor' members _ h hdone
    obtain ⟨-, rfl⟩ := Prod.mk.inj (pure_eq_ok.mp h)
    exact Or.inl ⟨hdone, rfl, rfl⟩
  | cons f fs ih =>
    intro visitor visitor' members hfield h hdone
    rcases unpackMembers_cons h with
      ⟨hpos, hwhich, value, body, next, others, hvalue, hnext, hothers, rfl⟩ |
        ⟨-, others, hothers, rfl⟩
    · right
      have hpayload : Payload False depth field visitor.nextWhich visitor.stream body :=
        ⟨f, value, hwhich ▸ hfield.head, hvalue, False.elim⟩
      have htags : Members.tags (f :: fs) visitor.which (some value, others) =
          visitor.nextWhich :: Members.tags fs (visitor.which + 1) others := by
        rw [← hwhich]
        rfl
      rcases maybeReadNextWhich_eq_ok hnext with ⟨hzero, rfl⟩ | ⟨hleft, tag, body', hread, rfl⟩
      · rcases ih _ visitor' others hfield.tail hothers hdone with
          ⟨-, hnone, hstream⟩ | ⟨tags, next, hcount, -⟩
        · refine ⟨[], body, ?_, htags.trans (congrArg _ hnone), hpayload, hstream⟩
          show visitor.countLeft = 1
          have : visitor.countLeft - 1 = 0 := hzero
          omega
        · have : visitor.countLeft - 1 = tags.length + 1 := hcount
          have : visitor.countLeft - 1 = 0 := hzero
          omega
      · rcases ih _ visitor' others hfield.tail hothers hdone with
          ⟨hzero, -⟩ | ⟨tags, next, hcount, hrest, hvalues, hitems⟩
        · have : visitor.countLeft - 1 = 0 := hzero
          have : 0 < visitor.countLeft - 1 := hleft
          omega
        · refine ⟨tag :: tags, body, ?_, htags.trans (congrArg _ hrest), hpayload, body', next,
            hread,
            False.elim, hvalues, hitems⟩
          have : visitor.countLeft - 1 = tags.length + 1 := hcount
          rw [List.length_cons]
          omega
    · exact ih _ visitor' others hfield.tail hothers hdone

theorem reads_none (fs : List Field) : ∀ (which next : Nat) (stream : Bytes),
    Reads fc depth fs ⟨which, next, 0, stream⟩ (Members.default fs) stream := by
  induction fs with
  | nil =>
    intro which next stream
    exact ⟨which, next, rfl⟩
  | cons f fs ih =>
    intro which next stream
    exact (ih (which + 1) next stream).skip (Or.inl rfl)

theorem items_reads {field : Nat → Option Field} (fs : List Field) :
    ∀ (which tag : Nat) (tags : List Nat)
    (stream next rest : Bytes), FieldsFrom field which fs → which ≤ tag →
    (tag :: tags).Pairwise (· < ·) → (∀ t ∈ tag :: tags, t < which + fs.length) →
    Payload False depth field tag stream next → Items fc False depth field tags next rest →
    ∃ members, Reads fc depth fs ⟨which, tag, tags.length + 1, stream⟩ members rest := by
  induction fs with
  | nil =>
    intro which tag tags stream next rest _ hge _ hknown
    have : tag < which + 0 := hknown tag List.mem_cons_self
    omega
  | cons f fs ih =>
    intro which tag tags stream next rest hfield hge hsorted hknown hpayload hitems
    have hknown' : ∀ t ∈ tag :: tags, t < which + 1 + fs.length := by
      intro t ht
      have := hknown t ht
      rw [List.length_cons] at this
      omega
    by_cases hwhich : which = tag
    · subst hwhich
      obtain ⟨g, value, hg, hvalue, -⟩ := hpayload
      obtain rfl : f = g := Option.some.inj (hfield.head.symm.trans hg)
      cases tags with
      | nil =>
        obtain rfl : next = rest := hitems
        exact ⟨_, Reads.take hvalue (maybeReadNextWhich_zero _ _ _) (reads_none fs _ _ _)⟩
      | cons tag tags =>
        obtain ⟨body, next', hread, -, hnext, hitems⟩ := hitems
        have hsorted' := List.pairwise_cons.mp hsorted
        obtain ⟨members, hreads⟩ := ih (which + 1) tag tags body next' rest hfield.tail
          (hsorted'.1 tag List.mem_cons_self) hsorted'.2
          (fun t ht => hknown' t (List.mem_cons_of_mem _ ht)) hnext hitems
        exact ⟨_, Reads.take hvalue (maybeReadNextWhich_pos (Nat.succ_pos _) hread) hreads⟩
    · obtain ⟨members, hreads⟩ := ih (which + 1) tag tags stream next rest hfield.tail (by omega)
        hsorted hknown' hpayload hitems
      exact ⟨_, hreads.skip (Or.inr hwhich)⟩

theorem unpackMembers_canonical {field : Nat → Option Field} (fs : List Field) :
    ∀ (visitor visitor' : UnpackVisitor) (members : Members fs) (tags : List Nat)
      (next rest : Bytes),
    FieldsFrom field visitor.which fs →
    unpackMembers fc depth fs visitor = .ok (members, visitor') → visitor'.countLeft = 0 →
    (visitor.countLeft = 0 → packMembers fc depth fs visitor.which members = .ok [] ∧
      visitor.stream = visitor'.stream) ∧
    (visitor.countLeft = tags.length + 1 →
      Payload True depth field visitor.nextWhich visitor.stream next →
      Items fc True depth field tags next rest → ∃ body,
      packMembers fc depth fs visitor.which members =
        .ok (fc.packUnsignedInt visitor.nextWhich ++ body) ∧
      visitor.stream = body ++ visitor'.stream) := by
  induction fs with
  | nil =>
    intro visitor visitor' members tags next rest _ h hdone
    obtain ⟨-, rfl⟩ := Prod.mk.inj (pure_eq_ok.mp h)
    exact ⟨fun _ => ⟨rfl, rfl⟩, fun hcount => by omega⟩
  | cons f fs ih =>
    intro visitor visitor' members tags next rest hfield h hdone
    rcases unpackMembers_cons h with
      ⟨hpos, hwhich, value, body, after, others, hvalue, hnext, hothers, rfl⟩ |
        ⟨-, others, hothers, rfl⟩
    · refine ⟨fun hzero => by omega, fun hcount hpayload hitems => ?_⟩
      obtain ⟨g, value', hg, hvalue', hstrict⟩ := hpayload
      rw [← hwhich] at hg
      obtain rfl : f = g := Option.some.inj (hfield.head.symm.trans hg)
      obtain ⟨rfl, rfl⟩ := Prod.mk.inj (Except.ok.inj (hvalue.symm.trans hvalue'))
      obtain ⟨enc, henc, hstream⟩ := hstrict trivial
      -- the members behind this one are packed into what was read behind its value
      have hlater : ∃ later, packMembers fc depth fs (visitor.which + 1) others = .ok later ∧
          body = later ++ visitor'.stream := by
        rcases maybeReadNextWhich_eq_ok hnext with ⟨hzero, rfl⟩ | ⟨hleft, tag, body', hread, rfl⟩
        · obtain ⟨hnone, hstream⟩ :=
            (ih _ visitor' others [] [] [] hfield.tail hothers hdone).1 hzero
          exact ⟨[], hnone, hstream⟩
        · cases tags with
          | nil =>
            have : 0 < visitor.countLeft - 1 := hleft
            rw [List.length_nil] at hcount
            omega
          | cons tag' tags =>
            obtain ⟨body₁, next₁, hread₁, hwritten, hpayload₁, hitems₁⟩ := hitems
            obtain ⟨rfl, rfl⟩ := Prod.mk.inj (Except.ok.inj (hread.symm.trans hread₁))
            have hcount' : visitor.countLeft - 1 = tags.length + 1 := by
              rw [List.length_cons] at hcount
              omega
            obtain ⟨later, hpacked, hstream₁⟩ :=
              (ih _ visitor' others tags next₁ rest hfield.tail hothers hdone).2 hcount' hpayload₁ hitems₁
            refine ⟨_, hpacked, (hwritten trivial).trans ?_⟩
            rw [List.append_assoc]
            exact congrArg _ hstream₁
      obtain ⟨later, hpacked, hbody⟩ := hlater
      refine ⟨enc ++ later, ?_, ?_⟩
      · simp only [packMembers, bind_eq_ok, pure_eq_ok]
        exact ⟨enc, henc, later, hpacked, by rw [hwhich]⟩
      · rw [hstream, hbody, List.append_assoc]
    · exact ih _ visitor' others tags next rest hfield.tail hothers hdone

theorem unpack_eq_ok {T : Reflected} {maxDepth : Nat} {stream rest : Bytes} {value : T.Struct}
    (h : unpack fc T maxDepth stream = .ok (value, rest)) : 2 ≤ maxDepth ∧
      ∃ count body visitor visitor', fc.unpackUnsignedInt stream = .ok (count, body) ∧
        UnpackVisitor.maybeReadNextWhich fc ⟨0, 0, count, body⟩ = .ok visitor ∧
        unpackMembers fc (maxDepth - 2) T.fields visitor = .ok (value, visitor') ∧
        visitor'.countLeft = 0 ∧ rest = visitor'.stream := by
  simp only [unpack, bind_eq_ok, require_eq_ok, pure_eq_ok, exists_const, Nat.sub_sub] at h
  obtain ⟨hfirst, hsecond, ⟨count, body⟩, hcount, visitor, hstart, ⟨value', visitor'⟩, hvisit,
    hdone, heq⟩ := h
  obtain ⟨rfl, rfl⟩ := Prod.mk.inj heq
  exact ⟨by omega, count, body, visitor, visitor', hcount, hstart, hvisit, hdone, rfl⟩

theorem fieldsFrom_zero (T : Reflected) : FieldsFrom (fun i => T.fields[i]?) 0 T.fields := by
  intro i
  rw [Nat.zero_add]

theorem unpack_encoding {T : Reflected} {maxDepth : Nat} {stream rest : Bytes} {value : T.Struct}
    (h : unpack fc T maxDepth stream = .ok (value, rest)) :
    Encoding fc False T (maxDepth - 2) (Members.tags T.fields 0 value) stream rest := by
  obtain ⟨-, count, body, visitor, visitor', hcount, hstart, hvisit, hdone, rfl⟩ := unpack_eq_ok h
  rcases maybeReadNextWhich_eq_ok hstart with ⟨hzero, rfl⟩ | ⟨hleft, tag, body', hread, rfl⟩
  · obtain rfl : count = 0 := hzero
    rcases unpackMembers_items T.fields _ visitor' value (fieldsFrom_zero T) hvisit hdone with
      ⟨-, hnone, hstream⟩ | ⟨tags, next, hcount', -⟩
    · have htags : Members.tags T.fields 0 value = [] := hnone
      rw [htags]
      exact ⟨body, hcount, False.elim, hstream⟩
    · cases hcount'
  · rcases unpackMembers_items T.fields _ visitor' value (fieldsFrom_zero T) hvisit hdone with
      ⟨hzero, -⟩ | ⟨tags, next, hcount', htags, hpayload, hitems⟩
    · have : count = 0 := hzero
      have : 0 < count := hleft
      omega
    · have htags' : Members.tags T.fields 0 value = tag :: tags := htags
      obtain rfl : count = tags.length + 1 := hcount'
      rw [htags']
      exact ⟨body, hcount, False.elim, body', next, hread, False.elim, hpayload, hitems⟩

theorem encoding_unpack {T : Reflected} {maxDepth : Nat} {tags : List Nat} {stream rest : Bytes}
    (hdepth : 2 ≤ maxDepth) (hsorted : tags.Pairwise (· < ·))
    (hknown : ∀ t ∈ tags, t < T.fields.length)
    (h : Encoding fc False T (maxDepth - 2) tags stream rest) :
    ∃ value, unpack fc T maxDepth stream = .ok (value, rest) := by
  obtain ⟨body, hcount, -, hitems⟩ := h
  cases tags with
  | nil =>
    obtain rfl : body = rest := hitems
    exact ⟨_, unpack_of_reads hdepth hcount (maybeReadNextWhich_zero 0 0 _)
      (reads_none T.fields _ _ _)⟩
  | cons tag tags =>
    obtain ⟨body', next, hread, -, hpayload, hitems⟩ := hitems
    have hknown' : ∀ t ∈ tag :: tags, t < 0 + T.fields.length := by
      intro t ht
      have := hknown t ht
      omega
    obtain ⟨value, hreads⟩ := items_reads T.fields 0 tag tags body' next rest (fieldsFrom_zero T)
      (Nat.zero_le tag) hsorted hknown' hpayload hitems
    exact ⟨value, unpack_of_reads hdepth hcount (maybeReadNextWhich_pos
      (Nat.succ_pos _) hread) hreads⟩

theorem unpack_canonical {T : Reflected} {maxDepth : Nat} {stream rest : Bytes} {value : T.Struct}
    (hcanonical : Canonical fc T (maxDepth - 2) stream)
    (h : unpack fc T maxDepth stream = .ok (value, rest)) :
    ∃ enc, pack fc T maxDepth value = .ok enc ∧ stream = enc ++ rest := by
  obtain ⟨body, hcount, -⟩ := unpack_encoding h
  obtain ⟨hdepth, count, body', visitor, visitor', hcount', hstart, hvisit, hdone, rfl⟩ :=
    unpack_eq_ok h
  obtain ⟨tags, rest', body₁, hcount₁, hwritten, hitems⟩ := hcanonical
  obtain ⟨rfl, rfl⟩ := Prod.mk.inj (Except.ok.inj (hcount'.symm.trans hcount₁))
  obtain ⟨hlength, -⟩ := Prod.mk.inj (Except.ok.inj (hcount.symm.trans hcount₁))
  rw [← packCount_eq_length] at hlength
  have hfields : ∃ fields, packMembers fc (maxDepth - 2) T.fields 0 value = .ok fields ∧
      body' = fields ++ visitor'.stream := by
    rcases maybeReadNextWhich_eq_ok hstart with ⟨hzero, rfl⟩ | ⟨hleft, tag, body₂, hread, rfl⟩
    · obtain ⟨hnone, hstream⟩ := (unpackMembers_canonical T.fields _ visitor' value [] [] []
        (fieldsFrom_zero T) hvisit hdone).1 hzero
      exact ⟨[], hnone, hstream⟩
    · cases tags with
      | nil => exact absurd hleft (Nat.lt_irrefl 0)
      | cons tag' tags =>
        obtain ⟨body₃, next, hread', hwritten', hpayload, hitems⟩ := hitems
        obtain ⟨rfl, rfl⟩ := Prod.mk.inj (Except.ok.inj (hread.symm.trans hread'))
        obtain ⟨later, hpacked, hstream⟩ := (unpackMembers_canonical T.fields _ visitor' value tags
          next rest' (fieldsFrom_zero T) hvisit hdone).2 rfl hpayload hitems
        refine ⟨_, hpacked, (hwritten' trivial).trans ?_⟩
        rw [List.append_assoc]
        exact congrArg _ hstream
  obtain ⟨fields, hpacked, hbody⟩ := hfields
  refine ⟨_, pack_eq_ok.mpr ⟨hdepth, fields, hpacked, rfl⟩, (hwritten trivial).trans ?_⟩
  rw [hlength, hbody, List.append_assoc]

theorem packMembers_ok_iff (fs : List Field) : ∀ (which : Nat) (members : Members fs),
    (∃ enc, packMembers fc depth fs which members = .ok enc) ↔
      Members.Each (fun f value => ∃ enc, f.raw.pack depth value = .ok enc) fs members := by
  induction fs with
  | nil =>
    intro which members
    exact ⟨fun _ => trivial, fun _ => ⟨[], rfl⟩⟩
  | cons f fs ih =>
    rintro which ⟨member, members⟩
    cases member with
    | none => exact ih (which + 1) members
    | some value =>
      simp only [packMembers, bind_eq_ok, pure_eq_ok, Members.Each, ← ih (which + 1) members]
      constructor
      · rintro ⟨enc, field, hfield, others, hothers, rfl⟩
        exact ⟨⟨field, hfield⟩, others, hothers⟩
      · rintro ⟨⟨field, hfield⟩, others, hothers⟩
        exact ⟨_, field, hfield, others, hothers, rfl⟩

end

/-! ### Reading back a variant -/

section

variable {depth : Nat}

theorem findEntry_eq_none {name : String} {entries : List (String × Variant)} :
    findEntry name entries = none ↔ name ∉ entries.map Prod.fst := by
  simp only [findEntry, Option.map_eq_none_iff, List.find?_eq_none, beq_iff_eq, List.mem_map,
    not_exists, not_and]

theorem setEntry_of_not_mem {name : String} {entries : List (String × Variant)}
    (h : name ∉ entries.map Prod.fst) (var : Variant) :
    setEntry entries name var = entries ++ [(name, var)] := by
  unfold setEntry
  rw [findEntry_eq_none.mpr h]
  rfl

theorem fresh_append {f : Field} {fs : List Field} {entries : List (String × Variant)}
    {var : Variant}
    (hname : f.name ∉ fs.map Field.name) (h : ∀ g ∈ fs, g.name ∉ entries.map Prod.fst) :
    ∀ g ∈ fs, g.name ∉ (entries ++ [(f.name, var)]).map Prod.fst := by
  intro g hg hmem
  rw [List.map_append] at hmem
  rcases List.mem_append.mp hmem with hmem | hmem
  · exact h g hg hmem
  · have heq : g.name = f.name := List.mem_singleton.mp hmem
    exact hname (heq ▸ List.mem_map_of_mem hg)

/-- The entries for the members that are present, in their order. -/
def Members.Entries (depth : Nat) : (fs : List Field) → Members fs → List (String × Variant) → Prop
  | [], _, entries => entries = []
  | _ :: fs, (none, members), entries => Members.Entries depth fs members entries
  | f :: fs, (some value, members), entries => ∃ var later,
    f.toVariant depth (some value) = .ok var ∧
    entries = (f.name, var) :: later ∧ Members.Entries depth fs members later

theorem toVariantMembers_entries (fs : List Field) : ∀ (members : Members fs)
    (mvo mvo' : List (String × Variant)), (fs.map Field.name).Nodup →
    (∀ f ∈ fs, f.name ∉ mvo.map Prod.fst) → toVariantMembers depth fs members mvo = .ok mvo' →
    ∃ entries, Members.Entries depth fs members entries ∧ mvo' = mvo ++ entries := by
  induction fs with
  | nil =>
    intro members mvo mvo' _ _ h
    obtain rfl := pure_eq_ok.mp h
    exact ⟨[], rfl, (List.append_nil _).symm⟩
  | cons f fs ih =>
    rintro ⟨member, members⟩ mvo mvo' hnodup hnew h
    obtain ⟨hname, hnodup⟩ := List.nodup_cons.mp hnodup
    have hlater : ∀ g ∈ fs, g.name ∉ mvo.map Prod.fst := fun g hg =>
      hnew g (List.mem_cons_of_mem f hg)
    cases member with
    | none => exact ih members mvo mvo' hnodup hlater h
    | some value =>
      simp only [toVariantMembers, bind_eq_ok] at h
      obtain ⟨var, hvar, h⟩ := h
      rw [setEntry_of_not_mem (hnew f List.mem_cons_self)] at h
      obtain ⟨later, hentries, rfl⟩ := ih members _ mvo' hnodup (fresh_append hname hlater) h
      exact ⟨(f.name, var) :: later, ⟨var, later, hvar, rfl, hentries⟩, List.append_assoc _ _ _⟩

theorem Members.Entries.names (fs : List Field) : ∀ (members : Members fs)
    (entries : List (String × Variant)), Members.Entries depth fs members entries →
    (∀ name ∈ entries.map Prod.fst, name ∈ fs.map Field.name) ∧ entries.length ≤ fs.length := by
  induction fs with
  | nil =>
    rintro members entries rfl
    exact ⟨fun name hname => (List.not_mem_nil hname).elim, Nat.le_refl _⟩
  | cons f fs ih =>
    rintro ⟨member, members⟩ entries h
    cases member with
    | none =>
      obtain ⟨hnames, hlength⟩ := ih members entries h
      exact ⟨fun name hname => List.mem_cons_of_mem _ (hnames name hname),
        Nat.le_succ_of_le hlength⟩
    | some value =>
      obtain ⟨var, later, -, rfl, hlater⟩ := h
      obtain ⟨hnames, hlength⟩ := ih members later hlater
      refine ⟨fun name hname => ?_, Nat.succ_le_succ hlength⟩
      rcases List.mem_cons.mp hname with rfl | hname
      · exact List.mem_cons_self
      · exact List.mem_cons_of_mem _ (hnames name hname)

theorem countLeft_pred (n : Nat) : UInt32.ofNat (n + 1) - 1 = UInt32.ofNat n := by
  rw [UInt32.ofNat_add]
  exact UInt32.add_sub_cancel _ _

theorem findEntry_append {name : String} {earlier entries : List (String × Variant)}
    (h : name ∉ earlier.map Prod.fst) : findEntry name (earlier ++ entries) =
      findEntry name entries := by
  have hnone := findEntry_eq_none.mpr h
  simp only [findEntry, Option.map_eq_none_iff] at hnone
  simp only [findEntry, List.find?_append, hnone, Option.none_or]

theorem fromVariantMembers_entries {fc : Fc} {maxDepth : Nat}
    (hdepth : fc.limited maxDepth = .ok depth)
    (fs : List Field) : ∀ (members : Members fs) (earlier entries : List (String × Variant)),
    (∀ f ∈ fs, f.Lawful fc) → (fs.map Field.name).Nodup →
      (∀ f ∈ fs, f.name ∉ earlier.map Prod.fst) →
    Members.Entries depth fs members entries →
    fromVariantMembers (maxDepth - 1) (earlier ++ entries) fs (UInt32.ofNat entries.length) =
      .ok (members, 0) := by
  induction fs with
  | nil =>
    rintro members earlier entries _ _ _ rfl
    rfl
  | cons f fs ih =>
    rintro ⟨member, members⟩ earlier entries hfs hnodup hnew h
    obtain ⟨hname, hnodup⟩ := List.nodup_cons.mp hnodup
    have hfs' : ∀ g ∈ fs, g.Lawful fc := fun g hg => hfs g (List.mem_cons_of_mem f hg)
    have hlater : ∀ g ∈ fs, g.name ∉ earlier.map Prod.fst :=
      fun g hg => hnew g (List.mem_cons_of_mem f hg)
    unfold fromVariantMembers
    rw [findEntry_append (hnew f List.mem_cons_self)]
    cases member with
    | none =>
      have hnone : findEntry f.name entries = none :=
        findEntry_eq_none.mpr fun hmem => hname
          ((Members.Entries.names fs members entries h).1 _ hmem)
      rw [hnone]
      simp only [bind_eq_ok]
      exact ⟨_, ih members earlier entries hfs' hnodup hlater h, rfl⟩
    | some value =>
      obtain ⟨var, later, hvar, rfl, hentries⟩ := h
      have hfound : findEntry f.name ((f.name, var) :: later) = some var := by
        simp only [findEntry, List.find?_cons, beq_self_eq_true, Option.map_some]
      rw [hfound]
      simp only [bind_eq_ok]
      refine ⟨_, (hfs f List.mem_cons_self).variant maxDepth depth value var hdepth hvar,
        (members, 0), ?_, rfl⟩
      rw [List.length_cons, countLeft_pred, List.append_cons]
      exact ih members _ later hfs' hnodup (fresh_append hname hlater) hentries

theorem fromVariant_toVariant {fc : Fc} (hfc : fc.Lawful) {T : Reflected}
    (hT : ∀ f ∈ T.fields, f.Lawful fc) {maxDepth : Nat} {value : T.Struct} {var : Variant}
    (h : toVariant fc T maxDepth value = .ok var) : fromVariant T maxDepth var = .ok value := by
  simp only [toVariant, bind_eq_ok, pure_eq_ok] at h
  obtain ⟨depth, hdepth, mvo, hmvo, rfl⟩ := h
  obtain ⟨entries, hentries, heq⟩ :=
    toVariantMembers_entries T.fields value [] mvo T.distinct (fun _ _ => List.not_mem_nil) hmvo
  obtain rfl : mvo = entries := heq
  have hread := fromVariantMembers_entries hdepth T.fields value [] mvo hT T.distinct
    (fun _ _ => List.not_mem_nil) hentries
  simp only [fromVariant, bind_eq_ok, require_eq_ok, exists_const, pure_eq_ok]
  exact ⟨hfc.limited maxDepth depth hdepth, (value, 0), hread, rfl, rfl⟩

theorem toVariantMembers_ok_iff (fs : List Field) : ∀ (members : Members fs)
    (mvo : List (String × Variant)), (∃ mvo', toVariantMembers depth fs members mvo = .ok mvo') ↔
      Members.Each (fun f value => ∃ var, f.toVariant depth (some value) = .ok var) fs members := by
  induction fs with
  | nil =>
    intro members mvo
    exact ⟨fun _ => trivial, fun _ => ⟨mvo, rfl⟩⟩
  | cons f fs ih =>
    rintro ⟨member, members⟩ mvo
    cases member with
    | none => exact ih members mvo
    | some value =>
      simp only [toVariantMembers, bind_eq_ok, Members.Each]
      constructor
      · rintro ⟨mvo', var, hvar, h⟩
        exact ⟨⟨var, hvar⟩, (ih members _).mp ⟨mvo', h⟩⟩
      · rintro ⟨⟨var, hvar⟩, h⟩
        obtain ⟨mvo', h⟩ := (ih members (setEntry mvo f.name var)).mpr h
        exact ⟨mvo', var, hvar, h⟩

end

/-! ### The codec -/

/-- Extensions are read back as they were written, from bytes and from variants; they are written
when their fields are.  What is accepted is a count and as many values, tagged in increasing order
with positions of fields, and of the encodings of one value only one is canonical. -/
theorem extension_codec (fc : Fc) (hfc : fc.Lawful) (T : Reflected)
    (hT : ∀ f ∈ T.fields, f.Lawful fc)
    (maxDepth : Nat) :
    (∀ value, ((∃ enc, pack fc T maxDepth value = .ok enc) ↔ 2 ≤ maxDepth ∧ Members.Each
        (fun f v => ∃ enc, f.raw.pack (maxDepth - 2) v = .ok enc) T.fields value) ∧
      ∀ enc, pack fc T maxDepth value = .ok enc →
        ∀ rest, unpack fc T maxDepth (enc ++ rest) = .ok (value, rest)) ∧
    (∀ value, ((∃ var, toVariant fc T maxDepth value = .ok var) ↔ ∃ depth,
        fc.limited maxDepth = .ok depth ∧ Members.Each
        (fun f v => ∃ var, f.toVariant depth (some v) = .ok var) T.fields value) ∧
      ∀ var, toVariant fc T maxDepth value = .ok var → fromVariant T maxDepth var = .ok value) ∧
    (∀ bytes rest, (∃ value, unpack fc T maxDepth bytes = .ok (value, rest)) ↔ 2 ≤ maxDepth ∧
      ∃ tags, tags.Pairwise (· < ·) ∧ (∀ t ∈ tags, t < T.fields.length) ∧
        Encoding fc False T (maxDepth - 2) tags bytes rest) ∧
    (∀ bytes₁ bytes₂ value, Canonical fc T (maxDepth - 2) bytes₁ →
      Canonical fc T (maxDepth - 2) bytes₂ →
      unpack fc T maxDepth bytes₁ = .ok (value, []) →
        unpack fc T maxDepth bytes₂ = .ok (value, []) →
      bytes₁ = bytes₂) := by
  refine ⟨fun value => ⟨?_, fun enc h rest => unpack_pack hfc hT h rest⟩, fun value =>
    ⟨?_, fun var h =>
    fromVariant_toVariant hfc hT h⟩, fun bytes rest => ?_, fun bytes₁ bytes₂ value hc₁ hc₂ h₁ h₂ =>
      ?_⟩
  · simp only [pack_eq_ok]
    constructor
    · rintro ⟨enc, hdepth, fields, hfields, -⟩
      exact ⟨hdepth, (packMembers_ok_iff T.fields 0 value).mp ⟨fields, hfields⟩⟩
    · rintro ⟨hdepth, hpackable⟩
      obtain ⟨fields, hfields⟩ := (packMembers_ok_iff T.fields 0 value).mpr hpackable
      exact ⟨_, hdepth, fields, hfields, rfl⟩
  · simp only [toVariant, bind_eq_ok, pure_eq_ok, ← toVariantMembers_ok_iff T.fields value []]
    constructor
    · rintro ⟨var, depth, hdepth, mvo, hmvo, -⟩
      exact ⟨depth, hdepth, mvo, hmvo⟩
    · rintro ⟨depth, hdepth, mvo, hmvo⟩
      exact ⟨_, depth, hdepth, mvo, hmvo, rfl⟩
  · constructor
    · rintro ⟨value, h⟩
      refine ⟨(unpack_eq_ok h).1, _, Members.tags_increasing T.fields 0 value, fun t ht => ?_,
        unpack_encoding h⟩
      have := Members.tags_ge T.fields 0 value t ht
      omega
    · rintro ⟨hdepth, tags, hsorted, hknown, h⟩
      exact encoding_unpack hdepth hsorted hknown h
  · obtain ⟨enc₁, hpack₁, rfl⟩ := unpack_canonical hc₁ h₁
    obtain ⟨enc₂, hpack₂, rfl⟩ := unpack_canonical hc₂ h₂
    rw [Except.ok.inj (hpack₁.symm.trans hpack₂)]

/-! ### Flags -/

def packVarint : Nat → Nat → Bytes
  | 0, _ => []
  | bytes + 1, n =>
    if n < 128 then [UInt8.ofNat n] else UInt8.ofNat (n % 128 + 128) :: packVarint bytes (n / 128)

def unpackVarint : Nat → Bytes → Attempt (Nat × Bytes)
  | 0, stream => pure (0, stream)
  | _ + 1, [] => .error .thrown
  | bytes + 1, b :: stream =>
    if b.toNat < 128 then pure (b.toNat, stream)
    else do
      let (n, stream) ← unpackVarint bytes stream
      return (b.toNat % 128 + 128 * n, stream)

theorem unpackVarint_pack (bytes : Nat) : ∀ (n : Nat) (rest : Bytes), n < 128 ^ bytes →
    0 < bytes → unpackVarint bytes (packVarint bytes n ++ rest) = .ok (n, rest) := by
  induction bytes with
  | zero =>
    intro n rest _ hpos
    omega
  | succ bytes ih =>
    intro n rest hn _
    unfold packVarint
    split
    · rename_i hsmall
      have hbyte : (UInt8.ofNat n).toNat = n := UInt8.toNat_ofNat_of_lt' (show _ < 256 by omega)
      simp only [List.singleton_append, unpackVarint, hbyte, if_pos hsmall]
      rfl
    · rename_i hlarge
      have hbyte : (UInt8.ofNat (n % 128 + 128)).toNat = n % 128 + 128 :=
        UInt8.toNat_ofNat_of_lt' (show _ < 256 by omega)
      have hhigh : n / 128 < 128 ^ bytes := by
        rw [Nat.pow_succ] at hn
        omega
      have hbytes : 0 < bytes := by
        rcases Nat.eq_zero_or_pos bytes with rfl | hpos
        · rw [Nat.zero_add, Nat.pow_one] at hn
          omega
        · exact hpos
      have hnot : ¬ n % 128 + 128 < 128 := by omega
      simp only [List.cons_append, unpackVarint, hbyte, if_neg hnot, bind_eq_ok]
      refine ⟨_, ih (n / 128) rest hhigh hbytes, congrArg Except.ok (Prod.ext ?_ rfl)⟩
      show (n % 128 + 128) % 128 + 128 * (n / 128) = n
      omega

def flagCodec : Codec Bool where
  pack _ flag := pure [if flag then 1 else 0]
  unpack _ stream :=
    match stream with
    | [] => .error .thrown
    | b :: stream => do
      require (b ≤ 1)
      return (b = 1, stream)

def flagField (name : String) : Field where
  name := name
  Value := Bool
  raw := flagCodec
  toVariant _ flag := pure (flag.elim .null fun flag => .scalar (if flag then "true" else "false"))
  fromVariant _ var :=
    match var with
    | .null => pure none
    | .scalar "true" => pure (some true)
    | .scalar "false" => pure (some false)
    | _ => .error .thrown

def wire : Fc where
  packUnsignedInt := packVarint 5
  unpackUnsignedInt stream := do
    let (n, stream) ← unpackVarint 5 stream
    return (n % 2 ^ 32, stream)
  limited maxDepth := do
    require (0 < maxDepth)
    return maxDepth - 1

theorem wire_lawful : wire.Lawful where
  unsignedInt n rest hn := by
    have hread := unpackVarint_pack 5 n rest (by omega) (by omega)
    simp only [wire, bind_eq_ok]
    exact ⟨_, hread, congrArg Except.ok (Prod.ext (Nat.mod_eq_of_lt hn) rfl)⟩
  limited maxDepth depth h := by
    simp only [wire, bind_eq_ok, require_eq_ok, exists_const] at h
    exact h.1

theorem flagField_lawful (name : String) : (flagField name).Lawful wire where
  raw depth value enc rest h := by
    obtain rfl := pure_eq_ok.mp h
    cases value <;> rfl
  variant maxDepth depth value var _ h := by
    obtain rfl := pure_eq_ok.mp h
    cases value <;> rfl

/-- A struct with two optional flags. -/
def flags : Reflected where
  fields := [flagField "first", flagField "second"]
  distinct := by simp [flagField]
  few := by decide

theorem extension_codec_flags :
    unpack wire flags 3 ([1, 1, 1] ++ [7]) = .ok ((none, some true, ()), [7]) ∧
      fromVariant flags 3 (.object [("second", .scalar "true")]) = .ok (none, some true, ()) := by
  have hlawful : ∀ f ∈ flags.fields, f.Lawful wire := by
    intro f hf
    rcases List.mem_cons.mp hf with rfl | hf
    · exact flagField_lawful "first"
    · obtain rfl := List.mem_singleton.mp hf
      exact flagField_lawful "second"
  have hcodec := extension_codec wire wire_lawful flags hlawful 3
  constructor
  · exact (hcodec.1 (none, some true, ())).2 [1, 1, 1] rfl [7]
  · exact (hcodec.2.1 (none, some true, ())).2 (.object [("second", .scalar "true")]) rfl

end Nestchain.Protocol.Extension
