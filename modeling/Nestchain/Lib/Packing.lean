import Mathlib.Data.List.Basic

/-! Packings: encodings of values as bytes that can be read back from the front of a byte
sequence. -/

namespace Nestchain.Lib

structure Packing (α : Type) where
  pack : α → List UInt8
  unpack : List UInt8 → Option (α × List UInt8)
  unpack_pack : ∀ a rest, unpack (pack a ++ rest) = some (a, rest)

namespace Packing

variable {α β : Type}

theorem unpack_pack_nil (p : Packing α) (a : α) : p.unpack (p.pack a) = some (a, []) := by
  have h := p.unpack_pack a []
  rwa [List.append_nil] at h

/-- The packing of values that another type describes. -/
def ofLeftInverse (p : Packing α) (f : β → α) (g : α → β) (h : ∀ b, g (f b) = b) : Packing β where
  pack b := p.pack (f b)
  unpack bytes := (p.unpack bytes).map fun x => (g x.1, x.2)
  unpack_pack b rest := by
    rw [p.unpack_pack]
    simp [h]

/-- One after the other. -/
def prod (p : Packing α) (q : Packing β) : Packing (α × β) where
  pack x := p.pack x.1 ++ q.pack x.2
  unpack bytes := (p.unpack bytes).bind fun x => (q.unpack x.2).map fun y => ((x.1, y.1), y.2)
  unpack_pack x rest := by
    rw [List.append_assoc, p.unpack_pack, Option.bind_some, q.unpack_pack]
    rfl

/-- A number in groups of seven bits, the lowest first; all but the last have the high bit. -/
def packNat (n : Nat) : List UInt8 :=
  if n < 128 then [UInt8.ofNat n] else UInt8.ofNat (n % 128 + 128) :: packNat (n / 128)

def unpackNat : List UInt8 → Option (Nat × List UInt8)
  | [] => none
  | b :: bytes =>
    if b.toNat < 128 then some (b.toNat, bytes)
    else (unpackNat bytes).map fun x => (x.1 * 128 + (b.toNat - 128), x.2)

theorem unpackNat_packNat (n : Nat) (rest : List UInt8) :
    unpackNat (packNat n ++ rest) = some (n, rest) := by
  fun_induction packNat n with
  | case1 n h =>
    have hbyte : (UInt8.ofNat n).toNat = n := by
      rw [UInt8.toNat_ofNat']
      omega
    simp [unpackNat, hbyte, h]
  | case2 n h ih =>
    have hbyte : (UInt8.ofNat (n % 128 + 128)).toNat = n % 128 + 128 := by
      rw [UInt8.toNat_ofNat']
      omega
    rw [List.cons_append, unpackNat, hbyte, if_neg (by omega), ih]
    simp only [Option.map_some, Option.some.injEq, Prod.mk.injEq, and_true]
    omega

def nat : Packing Nat := ⟨packNat, unpackNat, unpackNat_packNat⟩

/-- `n` values. -/
def unpackMany (p : Packing α) : Nat → List UInt8 → Option (List α × List UInt8)
  | 0, bytes => some ([], bytes)
  | n + 1, bytes => (p.unpack bytes).bind fun x =>
      (unpackMany p n x.2).map fun y => (x.1 :: y.1, y.2)

theorem unpackMany_pack (p : Packing α) (l : List α) (rest : List UInt8) :
    unpackMany p l.length (l.flatMap p.pack ++ rest) = some (l, rest) := by
  induction l with
  | nil => rfl
  | cons a l ih =>
    rw [List.length_cons, List.flatMap_cons, List.append_assoc, unpackMany, p.unpack_pack,
      Option.bind_some, ih]
    rfl

/-- A list after its length. -/
def list (p : Packing α) : Packing (List α) where
  pack l := packNat l.length ++ l.flatMap p.pack
  unpack bytes := (unpackNat bytes).bind fun x => unpackMany p x.1 x.2
  unpack_pack l rest := by
    rw [List.append_assoc, unpackNat_packNat, Option.bind_some, unpackMany_pack]

end Packing

end Nestchain.Lib
