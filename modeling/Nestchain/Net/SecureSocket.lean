import Nestchain.Lib.ByteStream

/-! The encrypted socket over TCP.  TCP keeps the order of the bytes and cuts them as it likes: a
schedule says how many of them each read of the TCP socket finds.  The lengths that the AES layer is
given are kept beside the states, in order to speak about them. -/

namespace Nestchain.Net

open Nestchain.Lib

/-- Why a call does not return: no byte is there to read, an assertion on a length fails, a message
is larger than allowed, or the rounds of a loop are over. -/
inductive Stop where
  | waiting
  | assertion
  | tooLarge
  | rounds
deriving DecidableEq

/-- The bytes on their way, and how often the socket was read. -/
structure Tcp where
  pending : List UInt8
  reads : Nat

/-- `tcp_socket::readsome` returns at least one byte, and waits where there is none. -/
def Tcp.readsome (sched : Nat → Nat) (len : Nat) (t : Tcp) : Except Stop (List UInt8 × Tcp) :=
  if t.pending = [] then .error .waiting
  else
    let n := min (min len t.pending.length) (max 1 (sched t.reads))
    .ok (t.pending.take n, ⟨t.pending.drop n, t.reads + 1⟩)

/-- `istream::read` of the TCP socket. -/
def Tcp.read (sched : Nat → Nat) (len : Nat) (t : Tcp) : Except Stop (List UInt8 × Tcp) :=
  readFully .rounds (Tcp.readsome sched) len len t

/-- `_read_buffer` and `_write_buffer` -/
def bufferLength : Nat := 4096

variable {K E D : Type} (c : StreamCipher 16 K E D)

/-- The receiving end of `stcp_socket`. -/
structure Receiver (D : Type) where
  tcp : Tcp
  recvAes : D
  aesLengths : List Nat

/-- The sending end of `stcp_socket`, with what it has put on the wire. -/
structure Sender (E : Type) where
  wire : List UInt8
  sendAes : E
  aesLengths : List Nat

/-- `do_key_exchange` -/
def Sender.init (key : K) : Sender E := ⟨[], c.encoder key, []⟩

def Receiver.init (key : K) (wire : List UInt8) : Receiver D := ⟨⟨wire, 0⟩, c.decoder key, []⟩

/-- `stcp_socket::readsome` -/
def Receiver.readsome (sched : Nat → Nat) (len : Nat) (r : Receiver D) :
    Except Stop (List UInt8 × Receiver D) :=
  if 0 < len ∧ len % 16 = 0 then
    match r.tcp.readsome sched (min bufferLength len) with
    | .error e => .error e
    | .ok (a, tcp) =>
      -- a block that was cut is completed before it is decoded
      let full := if a.length % 16 = 0 then .ok ([], tcp) else tcp.read sched (16 - a.length % 16)
      match full with
      | .error e => .error e
      | .ok (b, tcp) =>
        let plain := c.decode r.recvAes (a ++ b)
        .ok (plain.1, ⟨tcp, plain.2, r.aesLengths ++ [(a ++ b).length]⟩)
  else .error .assertion

/-- `istream::read` of the encrypted socket. -/
def Receiver.read (sched : Nat → Nat) (len : Nat) (r : Receiver D) :
    Except Stop (List UInt8 × Receiver D) :=
  readFully .rounds (Receiver.readsome c sched) len len r

/-- `stcp_socket::writesome`, with the number of bytes written. -/
def Sender.writesome (buffer : List UInt8) (s : Sender E) : Except Stop (Nat × Sender E) :=
  if 0 < buffer.length ∧ buffer.length % 16 = 0 then
    let part := buffer.take bufferLength
    let cipher := c.encode s.sendAes part
    .ok (cipher.1.length, ⟨s.wire ++ cipher.1, cipher.2, s.aesLengths ++ [part.length]⟩)
  else .error .assertion

/-- `ostream::write`: as long as bytes are left. -/
def Sender.writeRounds : Nat → List UInt8 → Sender E → Except Stop (Sender E)
  | _, [], s => .ok s
  | 0, _ :: _, _ => .error .rounds
  | rounds + 1, b :: l, s =>
    match s.writesome c (b :: l) with
    | .error e => .error e
    | .ok (n, s) => writeRounds rounds ((b :: l).drop n) s

def Sender.write (buffer : List UInt8) (s : Sender E) : Except Stop (Sender E) :=
  s.writeRounds c buffer.length buffer

/-! ### What the ends hold -/

/-- Every length that the AES layer was given is a positive multiple of its block. -/
def BlockLengths (lengths : List Nat) : Prop := ∀ n ∈ lengths, 0 < n ∧ 16 ∣ n

theorem BlockLengths.snoc {lengths : List Nat} (h : BlockLengths lengths) {n : Nat} (hn : 0 < n)
    (hdvd : 16 ∣ n) : BlockLengths (lengths ++ [n]) := by
  intro k hk
  rcases List.mem_append.mp hk with hk | hk
  · exact h k hk
  · rw [List.mem_singleton.mp hk]
    exact ⟨hn, hdvd⟩

/-- Whole blocks are on their way. -/
structure Receiver.Aligned (r : Receiver D) : Prop where
  pending : 16 ∣ r.tcp.pending.length
  lengths : BlockLengths r.aesLengths

def Receiver.content (r : Receiver D) : List UInt8 := (c.decode r.recvAes r.tcp.pending).1

/-- What is on the wire once `l` has been written too. -/
def Sender.wireWith (l : List UInt8) (s : Sender E) : List UInt8 :=
  s.wire ++ (c.encode s.sendAes l).1

theorem Receiver.Aligned.length_content {r : Receiver D} (h : r.Aligned) :
    (r.content c).length = r.tcp.pending.length :=
  c.length_decode _ _ h.pending

/-! ### Reading -/

theorem Tcp.serves (sched : Nat → Nat) :
    Serves (Tcp.readsome sched) 1 Tcp.pending fun _ => True := by
  intro t len _ hpos _ hlen
  have hne : t.pending ≠ [] := by
    intro hnil
    rw [hnil, List.length_nil] at hlen
    omega
  obtain ⟨n, hn⟩ : ∃ n, n = min (min len t.pending.length) (max 1 (sched t.reads)) := ⟨_, rfl⟩
  refine ⟨t.pending.take n, ⟨t.pending.drop n, t.reads + 1⟩, ?_, trivial,
    (List.take_append_drop _ _).symm, ?_, ?_, one_dvd _⟩
  · rw [Tcp.readsome, if_neg hne, hn]
  · rw [List.length_take]
    omega
  · rw [List.length_take]
    omega

theorem Receiver.serves (sched : Nat → Nat) :
    Serves (Receiver.readsome c sched) 16 (Receiver.content c) Receiver.Aligned := by
  intro r len hr hpos hdvd hlen
  rw [hr.length_content] at hlen
  have hmin : 0 < min bufferLength len ∧ min bufferLength len ≤ len ∧
    16 ∣ min bufferLength len := by
    unfold bufferLength
    omega
  obtain ⟨a, tcp₁, hread, -, happend, hapos, hale, -⟩ :=
    Tcp.serves sched r.tcp (min bufferLength len) trivial hmin.1 (one_dvd _) (by omega)
  -- the bytes that complete the last block are on their way too
  have hfull : ∃ b tcp₂, (if a.length % 16 = 0 then .ok ([], tcp₁)
      else tcp₁.read sched (16 - a.length % 16)) = Except.ok (b, tcp₂) ∧
      tcp₁.pending = b ++ tcp₂.pending ∧ 16 ∣ (a ++ b).length ∧ (a ++ b).length ≤ len := by
    have hpending := hr.pending
    rw [happend, List.length_append] at hpending hlen
    by_cases hmod : a.length % 16 = 0
    · refine ⟨[], tcp₁, if_pos hmod, rfl, ?_, ?_⟩
      · rw [List.append_nil]
        omega
      · rw [List.append_nil]
        omega
    · obtain ⟨b, tcp₂, hb, -, happend', hlength⟩ := (Tcp.serves sched).readFully Stop.rounds
        (le_refl (16 - a.length % 16)) (s := tcp₁) trivial (one_dvd _) (by omega)
      refine ⟨b, tcp₂, (if_neg hmod).trans hb, happend', ?_, ?_⟩
      · rw [List.length_append]
        omega
      · rw [List.length_append]
        omega
  obtain ⟨b, tcp₂, hb, happend', hblocks, hle⟩ := hfull
  have hsplit : r.tcp.pending = (a ++ b) ++ tcp₂.pending := by
    rw [happend, happend', List.append_assoc]
  have hrest : 16 ∣ tcp₂.pending.length := by
    have hpending := hr.pending
    rw [hsplit, List.length_append] at hpending
    omega
  have habpos : 0 < (a ++ b).length := by
    rw [List.length_append]
    omega
  refine ⟨(c.decode r.recvAes (a ++ b)).1,
    ⟨tcp₂, (c.decode r.recvAes (a ++ b)).2, r.aesLengths ++ [(a ++ b).length]⟩, ?_,
    ⟨hrest, hr.lengths.snoc habpos hblocks⟩, ?_, ?_, ?_, ?_⟩
  · rw [Receiver.readsome, if_pos ⟨hpos, by omega⟩, hread]
    simp only
    rw [hb]
  · unfold Receiver.content
    rw [hsplit, c.decode_append _ _ _ hblocks hrest]
  all_goals rw [c.length_decode _ _ hblocks]
  · exact habpos
  · exact hle
  · exact hblocks

theorem Receiver.Aligned.read {r : Receiver D} (hr : r.Aligned) (sched : Nat → Nat)
    {front rest : List UInt8}
    (hcontent : r.content c = front ++ rest) (hfront : 16 ∣ front.length) :
    ∃ r', r.read c sched front.length = .ok (front, r') ∧ r'.Aligned ∧ r'.content c = rest := by
  obtain ⟨a, r', hread, hr', happend, hlength⟩ := (Receiver.serves c sched).readFully
    Stop.rounds (le_refl front.length) hr hfront
    (by rw [hcontent, List.length_append]; omega)
  rw [hcontent] at happend
  obtain ⟨rfl, hrest⟩ := List.append_inj happend hlength.symm
  exact ⟨r', hread, hr', hrest.symm⟩

/-! ### Writing -/

theorem Sender.writeRounds_blocks (rounds : Nat) {l : List UInt8} (hrounds : l.length ≤ rounds)
    (hdvd : 16 ∣ l.length) {s : Sender E} (hs : BlockLengths s.aesLengths) :
    ∃ s', s.writeRounds c rounds l = .ok s' ∧ BlockLengths s'.aesLengths ∧
      ∀ tail : List UInt8, 16 ∣ tail.length → s'.wireWith c tail = s.wireWith c (l ++ tail) := by
  induction rounds generalizing l s with
  | zero =>
    obtain rfl := List.length_eq_zero_iff.mp (Nat.le_zero.mp hrounds)
    exact ⟨s, by unfold writeRounds; rfl, hs, fun _ _ => rfl⟩
  | succ rounds ih =>
    cases l with
    | nil => exact ⟨s, by unfold writeRounds; rfl, hs, fun _ _ => rfl⟩
    | cons b l =>
      obtain ⟨part, hpart⟩ : ∃ part, part = (b :: l).take bufferLength := ⟨_, rfl⟩
      have hlength : part.length = min bufferLength (b :: l).length := by rw [hpart,
        List.length_take]
      have hpos : 0 < (b :: l).length := Nat.succ_pos _
      have hblocks : 16 ∣ part.length ∧ 0 < part.length := by
        unfold bufferLength at hlength
        omega
      have hcipher : (c.encode s.sendAes part).1.length = part.length :=
        c.length_encode _ _ hblocks.1
      obtain ⟨rest, hrest⟩ : ∃ rest, rest = (b :: l).drop part.length := ⟨_, rfl⟩
      have hsplit : b :: l = part ++ rest := by
        rw [hrest, hlength, hpart]
        by_cases hle : bufferLength ≤ (b :: l).length
        · rw [Nat.min_eq_left hle, List.take_append_drop]
        · rw [Nat.min_eq_right (by omega), List.drop_length, List.append_nil,
            List.take_of_length_le (by omega)]
      have hlengths : (b :: l).length = part.length + rest.length := by
        rw [hsplit, List.length_append]
      obtain ⟨s', hwrite, hs', hwire⟩ := ih (l := rest) (by omega) (by omega)
        (s := ⟨s.wire ++ (c.encode s.sendAes part).1, (c.encode s.sendAes part).2,
          s.aesLengths ++ [part.length]⟩) (hs.snoc hblocks.2 hblocks.1)
      refine ⟨s', ?_, hs', fun tail htail => ?_⟩
      · rw [writeRounds, writesome, if_pos ⟨hpos, by omega⟩, ← hpart]
        simp only
        rw [hcipher, ← hrest]
        exact hwrite
      · rw [hwire tail htail, hsplit, List.append_assoc]
        unfold wireWith
        rw [c.encode_append _ part _ hblocks.1 (by rw [List.length_append]; omega),
          List.append_assoc]

theorem Sender.write_blocks {l : List UInt8} (hdvd : 16 ∣ l.length) {s : Sender E}
    (hs : BlockLengths s.aesLengths) :
    ∃ s', s.write c l = .ok s' ∧ BlockLengths s'.aesLengths ∧
      ∀ tail : List UInt8, 16 ∣ tail.length → s'.wireWith c tail = s.wireWith c (l ++ tail) :=
  Sender.writeRounds_blocks c l.length (le_refl _) hdvd hs

end Nestchain.Net
