import Mathlib.Data.List.Basic
import Mathlib.Data.Nat.ModEq

/-! Streams that arrive in pieces, and ciphers that work on them block by block.  A source hands out
some of what it still holds, a whole number of blocks at a time; reading in full asks again until
the length is done, and then holds what the stream begins with, whatever the pieces were. -/

namespace Nestchain.Lib

/-! ### Reading in full -/

section

variable {σ ε α : Type} {readsome : Nat → σ → Except ε (List α × σ)} {block : Nat}
  {content : σ → List α} {Inv : σ → Prop}

/-- Asks for what is missing until `len` are there.  An answer brings at least one, so `len` rounds
are enough. -/
def readFully (stuck : ε) (readsome : Nat → σ → Except ε (List α × σ)) :
    Nat → Nat → σ → Except ε (List α × σ)
  | _, 0, s => .ok ([], s)
  | 0, _ + 1, _ => .error stuck
  | rounds + 1, len + 1, s =>
    match readsome (len + 1) s with
    | .error e => .error e
    | .ok (a, s) =>
      match readFully stuck readsome rounds (len + 1 - a.length) s with
      | .error e => .error e
      | .ok (b, s) => .ok (a ++ b, s)

/-- A source that holds `content`, and hands out the front of it in blocks. -/
def Serves (readsome : Nat → σ → Except ε (List α × σ)) (block : Nat) (content : σ → List α)
    (Inv : σ → Prop) : Prop :=
  ∀ s len, Inv s → 0 < len → block ∣ len → len ≤ (content s).length →
    ∃ a s', readsome len s = .ok (a, s') ∧ Inv s' ∧ content s = a ++ content s' ∧
      0 < a.length ∧ a.length ≤ len ∧ block ∣ a.length

/-- The pieces do not matter to what is read in full. -/
theorem Serves.readFully (h : Serves readsome block content Inv) (stuck : ε) {rounds len : Nat}
    (hlen : len ≤ rounds) {s : σ} (hs : Inv s) (hblock : block ∣ len)
    (hcontent : len ≤ (content s).length) :
    ∃ a s', readFully stuck readsome rounds len s = .ok (a, s') ∧ Inv s' ∧
      content s = a ++ content s' ∧ a.length = len := by
  induction rounds generalizing len s with
  | zero =>
    obtain rfl : len = 0 := by omega
    exact ⟨[], s, by unfold Lib.readFully; rfl, hs, rfl, rfl⟩
  | succ rounds ih =>
    cases len with
    | zero => exact ⟨[], s, by unfold Lib.readFully; rfl, hs, rfl, rfl⟩
    | succ len =>
      obtain ⟨a, s₁, hread, hs₁, happend, hpos, hle, hdvd⟩ :=
        h s (len + 1) hs (by omega) hblock hcontent
      have hrest : len + 1 - a.length ≤ (content s₁).length := by
        rw [happend, List.length_append] at hcontent
        omega
      obtain ⟨b, s₂, hreads, hs₂, happend', hlength⟩ :=
        ih (show len + 1 - a.length ≤ rounds by omega) hs₁ (Nat.dvd_sub hblock hdvd) hrest
      refine ⟨a ++ b, s₂, ?_, hs₂, ?_, ?_⟩
      · unfold Lib.readFully
        rw [hread]
        simp only
        rw [hreads]
      · rw [happend, happend', List.append_assoc]
      · rw [List.length_append]
        omega

end

/-! ### Ciphers -/

/-- A cipher that goes on from where it is.  What it does to whole blocks does not depend on how
they are cut into pieces, and decoding from the start undoes encoding from the start. -/
structure StreamCipher (block : Nat) (K E D : Type) where
  encoder : K → E
  decoder : K → D
  encode : E → List UInt8 → List UInt8 × E
  decode : D → List UInt8 → List UInt8 × D
  length_encode : ∀ e l, block ∣ l.length → (encode e l).1.length = l.length
  length_decode : ∀ d l, block ∣ l.length → (decode d l).1.length = l.length
  encode_append : ∀ e a b, block ∣ a.length → block ∣ b.length →
    encode e (a ++ b) =
      ((encode e a).1 ++ (encode (encode e a).2 b).1, (encode (encode e a).2 b).2)
  decode_append : ∀ d a b, block ∣ a.length → block ∣ b.length →
    decode d (a ++ b) =
      ((decode d a).1 ++ (decode (decode d a).2 b).1, (decode (decode d a).2 b).2)
  decode_encode : ∀ k l, block ∣ l.length → (decode (decoder k) (encode (encoder k) l).1).1 = l

/-- A cipher that adds its key to each byte. -/
def shifting (block : Nat) : StreamCipher block UInt8 UInt8 UInt8 where
  encoder k := k
  decoder k := k
  encode k l := (l.map (· + k), k)
  decode k l := (l.map (· - k), k)
  length_encode _ _ _ := List.length_map _
  length_decode _ _ _ := List.length_map _
  encode_append _ _ _ _ _ := by rw [List.map_append]
  decode_append _ _ _ _ _ := by rw [List.map_append]
  decode_encode k l _ := by
    rw [List.map_map]
    exact List.map_id'' (fun x => UInt8.add_sub_cancel x k) l

end Nestchain.Lib
