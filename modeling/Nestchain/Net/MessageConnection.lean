import Nestchain.Net.SecureSocket

/-! Messages over the encrypted socket.  A message is a header of eight bytes and its data, padded
to whole blocks; sender and receiver compute the padding each in their own way. -/

namespace Nestchain.Net

open Nestchain.Lib

/-- `MAX_MESSAGE_SIZE` -/
def maxMessageSize : Nat := 1024 * 1024 * 2

/-- `message_header` -/
structure MessageHeader where
  size : UInt32
  msgType : UInt32
deriving DecidableEq

/-- `message`, with as many bytes as its header says and no more than are allowed. -/
structure Message extends MessageHeader where
  data : List UInt8
  sized : data.length = size.toNat
  allowed : size.toNat ≤ maxMessageSize
deriving DecidableEq

/-- The bytes of a word in memory, the lowest first. -/
def bytesOf (w : UInt32) : List UInt8 :=
  [UInt8.ofNat w.toNat, UInt8.ofNat (w.toNat / 2 ^ 8), UInt8.ofNat (w.toNat / 2 ^ 16),
    UInt8.ofNat (w.toNat / 2 ^ 24)]

def wordOf : List UInt8 → UInt32
  | b₀ :: b₁ :: b₂ :: b₃ :: _ =>
    UInt32.ofNat (b₀.toNat + b₁.toNat * 2 ^ 8 + b₂.toNat * 2 ^ 16 + b₃.toNat * 2 ^ 24)
  | _ => 0

def MessageHeader.bytes (h : MessageHeader) : List UInt8 := bytesOf h.size ++ bytesOf h.msgType

def headerOf (buffer : List UInt8) : MessageHeader := ⟨wordOf buffer, wordOf (buffer.drop 4)⟩

/-- `size_with_padding`, in `size_t` -/
def sizeWithPadding (size : UInt32) : UInt64 := 16 * ((8 + size.toUInt64 + 15) / 16)

/-- `remaining_bytes_with_padding`, in `uint32_t`: the subtraction of `LEFTOVER` may go below
zero. -/
def remainingBytesWithPadding (size : UInt32) : UInt32 := 16 * ((size - 8 + 15) / 16)

/-- `padded_message`; what `new char[]` holds stays in the padding. -/
def Message.padded (fresh : Nat → UInt8) (m : Message) : List UInt8 :=
  m.bytes ++ m.data ++
    (List.range ((sizeWithPadding m.size).toNat - (8 + m.size.toNat))).map fresh

variable {K E D : Type} (c : StreamCipher 16 K E D)

/-- `send_message` -/
def sendMessage (fresh : Nat → UInt8) (m : Message) (s : Sender E) : Except Stop (Sender E) :=
  s.write c (m.padded fresh)

/-- One message after the other, each with what its buffer held before. -/
def sendMessages : List (Message × (Nat → UInt8)) → Sender E → Except Stop (Sender E)
  | [], s => .ok s
  | (m, fresh) :: rest, s =>
    match sendMessage c fresh m s with
    | .error e => .error e
    | .ok s => sendMessages rest s

/-- `vector::resize` -/
def resize (n : Nat) (l : List UInt8) : List UInt8 := l.take n ++ List.replicate (n - l.length) 0

theorem length_resize (n : Nat) (l : List UInt8) : (resize n l).length = n := by
  rw [resize, List.length_append, List.length_take, List.length_replicate]
  omega

/-- One round of `read_loop`. -/
def readMessage (sched : Nat → Nat) (r : Receiver D) : Except Stop (Message × Receiver D) :=
  match r.read c sched 16 with
  | .error e => .error e
  | .ok (buffer, r) =>
    let header := headerOf buffer
    if h : header.size.toNat ≤ maxMessageSize then
      let remaining := (remainingBytesWithPadding header.size).toNat
      let rest := if remaining = 0 then .ok ([], r) else r.read c sched remaining
      match rest with
      | .error e => .error e
      | .ok (rest, r) =>
        .ok (⟨header, resize header.size.toNat (buffer.drop 8 ++ rest), length_resize _ _, h⟩, r)
    else .error .tooLarge

/-- `read_loop`: the messages that are delivered, and what ends it. -/
def readLoop (sched : Nat → Nat) : Nat → Receiver D → List Message × Stop × Receiver D
  | 0, r => ([], .rounds, r)
  | rounds + 1, r =>
    match readMessage c sched r with
    | .error e => ([], e, r)
    | .ok (m, r) =>
      let later := readLoop sched rounds r
      (m :: later.1, later.2)

/-! ### Sizes -/

theorem toNat_sizeWithPadding (size : UInt32) :
    (sizeWithPadding size).toNat = 16 * ((8 + size.toNat + 15) / 16) := by
  have hlt := size.toNat_lt
  unfold sizeWithPadding
  simp only [UInt64.toNat_mul, UInt64.toNat_div, UInt64.toNat_add, UInt32.toNat_toUInt64,
    UInt64.toNat_ofNat, Nat.reducePow, Nat.reduceMod]
  omega

theorem toNat_remainingBytesWithPadding {size : UInt32} (h : size.toNat ≤ maxMessageSize) :
    (remainingBytesWithPadding size).toNat = 16 * ((size.toNat + 7) / 16) := by
  unfold maxMessageSize at h
  unfold remainingBytesWithPadding
  simp only [UInt32.toNat_mul, UInt32.toNat_div, UInt32.toNat_add, UInt32.toNat_sub,
    UInt32.toNat_ofNat, Nat.reducePow, Nat.reduceMod, Nat.reduceSub]
  omega

theorem sizes_agree {size : UInt32} (h : size.toNat ≤ maxMessageSize) :
    (sizeWithPadding size).toNat = 16 + (remainingBytesWithPadding size).toNat ∧
      8 + size.toNat ≤ (sizeWithPadding size).toNat ∧
      (sizeWithPadding size).toNat < 8 + size.toNat + 16 := by
  rw [toNat_sizeWithPadding, toNat_remainingBytesWithPadding h]
  omega

/-! ### Headers -/

theorem wordOf_bytesOf (w : UInt32) (rest : List UInt8) : wordOf (bytesOf w ++ rest) = w := by
  have hlt := w.toNat_lt
  apply UInt32.toNat_inj.mp
  simp only [bytesOf, wordOf, List.cons_append, UInt32.toNat_ofNat', UInt8.toNat_ofNat']
  omega

theorem length_bytes (h : MessageHeader) : h.bytes.length = 8 := rfl

theorem headerOf_bytes (h : MessageHeader) (rest : List UInt8) :
    headerOf (h.bytes ++ rest) = h := by
  have hdrop : (h.bytes ++ rest).drop 4 = bytesOf h.msgType ++ rest := rfl
  rw [headerOf, hdrop, wordOf_bytesOf, MessageHeader.bytes, List.append_assoc, wordOf_bytesOf]

/-! ### Messages -/

theorem length_padded (m : Message) (fresh : Nat → UInt8) :
    (m.padded fresh).length = (sizeWithPadding m.size).toNat := by
  have hsizes := sizes_agree m.allowed
  unfold Message.padded
  rw [List.length_append, List.length_append, length_bytes, m.sized, List.length_map,
    List.length_range]
  omega

theorem dvd_length_padded (m : Message) (fresh : Nat → UInt8) : 16 ∣ (m.padded fresh).length := by
  rw [length_padded, toNat_sizeWithPadding]
  exact Nat.dvd_mul_right _ _

theorem resize_data (m : Message) (padding : List UInt8) :
    resize m.size.toNat (m.data ++ padding) = m.data := by
  have hlength : m.size.toNat - (m.data ++ padding).length = 0 := by
    rw [List.length_append, m.sized]
    omega
  rw [resize, hlength, List.take_left' m.sized, List.replicate_zero, List.append_nil]

theorem readMessage_padded {r : Receiver D} (hr : r.Aligned) (sched : Nat → Nat) (m : Message)
    (fresh : Nat → UInt8) {rest : List UInt8} (hcontent : r.content c = m.padded fresh ++ rest) :
    ∃ r', readMessage c sched r = .ok (m, r') ∧ r'.Aligned ∧ r'.content c = rest := by
  have hsizes := sizes_agree m.allowed
  have hlength := length_padded m fresh
  -- the first block, which holds the header and the first eight bytes after it, and the others
  obtain ⟨padding, hpadding⟩ : ∃ padding, m.padded fresh = m.bytes ++ (m.data ++ padding) :=
    ⟨_, by rw [Message.padded, List.append_assoc]⟩
  obtain ⟨first, hfirst⟩ : ∃ first, first = (m.padded fresh).take 16 := ⟨_, rfl⟩
  obtain ⟨others, hothers⟩ : ∃ others, others = (m.padded fresh).drop 16 := ⟨_, rfl⟩
  have hsplit : m.padded fresh = first ++ others := by rw [hfirst, hothers, List.take_append_drop]
  have hfirstLength : first.length = 16 := by
    rw [hfirst, List.length_take]
    omega
  have hothersLength : others.length = (remainingBytesWithPadding m.size).toNat := by
    rw [hothers, List.length_drop]
    omega
  have hheader : headerOf first = m.toMessageHeader := by
    have htake : first = m.bytes ++ (m.data ++ padding).take 8 := by
      rw [hfirst, hpadding, List.take_append, length_bytes,
        List.take_of_length_le (by rw [length_bytes]; omega)]
    rw [htake, headerOf_bytes]
  have hdata : first.drop 8 ++ others = m.data ++ padding := by
    rw [← List.drop_append_of_le_length (by omega), ← hsplit, hpadding,
      List.drop_left' (length_bytes _)]
  obtain ⟨r₁, hread₁, hr₁, hcontent₁⟩ := hr.read c sched
    (show r.content c = first ++ (others ++ rest) by rw [hcontent, hsplit, List.append_assoc])
      (by omega)
  have hreads : ∃ r₂, (if (remainingBytesWithPadding m.size).toNat = 0 then .ok ([], r₁)
      else r₁.read c sched (remainingBytesWithPadding m.size).toNat) = Except.ok (others, r₂) ∧
      r₂.Aligned ∧ r₂.content c = rest := by
    by_cases hzero : (remainingBytesWithPadding m.size).toNat = 0
    · obtain rfl := List.length_eq_zero_iff.mp (hothersLength.trans hzero)
      exact ⟨r₁, if_pos hzero, hr₁, hcontent₁⟩
    · have hdvd : 16 ∣ others.length := by
        have := dvd_length_padded m fresh
        omega
      obtain ⟨r₂, hread₂, hr₂, hcontent₂⟩ := hr₁.read c sched hcontent₁ hdvd
      rw [hothersLength] at hread₂
      exact ⟨r₂, (if_neg hzero).trans hread₂, hr₂, hcontent₂⟩
  obtain ⟨r₂, hread₂, hr₂, hcontent₂⟩ := hreads
  refine ⟨r₂, ?_, hr₂, hcontent₂⟩
  rw [hfirstLength] at hread₁
  rw [readMessage, hread₁]
  simp only [hheader]
  rw [dif_pos m.allowed, hread₂]
  simp only [hdata, resize_data]

/-! ### Connections -/

theorem dvd_length_frames (sent : List (Message × (Nat → UInt8))) :
    16 ∣ (sent.flatMap fun x => x.1.padded x.2).length := by
  induction sent with
  | nil => exact Nat.dvd_zero _
  | cons x rest ih =>
    rw [List.flatMap_cons, List.length_append]
    exact Nat.dvd_add (dvd_length_padded x.1 x.2) ih

theorem sendMessages_wire (sent : List (Message × (Nat → UInt8))) {s : Sender E}
    (hs : BlockLengths s.aesLengths) :
    ∃ s', sendMessages c sent s = .ok s' ∧ BlockLengths s'.aesLengths ∧
      s'.wireWith c [] = s.wireWith c (sent.flatMap fun x => x.1.padded x.2) := by
  induction sent generalizing s with
  | nil => exact ⟨s, rfl, hs, rfl⟩
  | cons x rest ih =>
    obtain ⟨m, fresh⟩ := x
    have hrest := dvd_length_frames rest
    obtain ⟨s₁, hwrite, hs₁, hwire₁⟩ := Sender.write_blocks c (dvd_length_padded m fresh) hs
    obtain ⟨s₂, hsend, hs₂, hwire₂⟩ := ih hs₁
    refine ⟨s₂, ?_, hs₂, ?_⟩
    · rw [sendMessages, sendMessage, hwrite]
      exact hsend
    · rw [hwire₂, hwire₁ _ hrest]
      rfl

theorem readLoop_messages (sched : Nat → Nat) (sent : List (Message × (Nat → UInt8)))
    {r : Receiver D}
    (hr : r.Aligned) (hcontent : r.content c = sent.flatMap fun x => x.1.padded x.2) {rounds : Nat}
    (hrounds : sent.length < rounds) :
    ∃ r', readLoop c sched rounds r = (sent.map Prod.fst, .waiting, r') ∧ r'.Aligned ∧
      r'.tcp.pending = [] := by
  induction sent generalizing r rounds with
  | nil =>
    obtain ⟨rounds, rfl⟩ : ∃ n, rounds = n + 1 := ⟨rounds - 1, by simp at hrounds; omega⟩
    have hempty : r.tcp.pending = [] := by
      rw [← List.length_eq_zero_iff, ← hr.length_content c, hcontent]
      rfl
    refine ⟨r, ?_, hr, hempty⟩
    have hwaits : r.read c sched 16 = .error .waiting := by
      unfold Receiver.read readFully Receiver.readsome Tcp.readsome
      simp [hempty]
    rw [readLoop, readMessage, hwaits]
    rfl
  | cons x rest ih =>
    obtain ⟨m, fresh⟩ := x
    obtain ⟨rounds, rfl⟩ : ∃ n, rounds = n + 1 := ⟨rounds - 1, by simp at hrounds; omega⟩
    obtain ⟨r₁, hread, hr₁, hcontent₁⟩ := readMessage_padded c hr sched m fresh hcontent
    obtain ⟨r₂, hloop, hr₂, hempty⟩ := ih hr₁ hcontent₁
      (show rest.length < rounds by simpa using hrounds)
    refine ⟨r₂, ?_, hr₂, hempty⟩
    rw [readLoop, hread]
    simp only [hloop]
    rfl

/-- However TCP cuts the bytes, the messages sent are delivered, in order and with nothing left
over, and the loop then waits for the first byte of the next header.  The AES layer works on
positive multiples of its block throughout, and the sizes computed at the two ends are those of the
messages. -/
theorem messages_survive_fragmentation (key : K) (sched : Nat → Nat)
    (sent : List (Message × (Nat → UInt8))) (further : Nat) :
    ∃ s r, sendMessages c sent (Sender.init c key) = .ok s ∧
      readLoop c sched (sent.length + 1 + further) (Receiver.init c key s.wire) =
        (sent.map Prod.fst, .waiting, r) ∧
      r.tcp.pending = [] ∧ BlockLengths s.aesLengths ∧ BlockLengths r.aesLengths ∧
      ∀ x ∈ sent, (x.1.padded x.2).length = (sizeWithPadding x.1.size).toNat ∧
        (sizeWithPadding x.1.size).toNat = 16 + (remainingBytesWithPadding x.1.size).toNat ∧
        (sizeWithPadding x.1.size).toNat = 16 * ((8 + x.1.size.toNat + 15) / 16) := by
  have hnone : BlockLengths [] := fun _ hn => nomatch hn
  have hframes := dvd_length_frames sent
  obtain ⟨s, hsend, hs, hwire⟩ := sendMessages_wire c sent (s := Sender.init c key) hnone
  -- the wire holds the encoding of all frames from the start
  have hwire' : s.wire = (c.encode (c.encoder key) (sent.flatMap fun x => x.1.padded x.2)).1 := by
    have hnil : (c.encode s.sendAes []).1 = [] :=
      List.length_eq_zero_iff.mp (c.length_encode _ _ (Nat.dvd_zero _))
    unfold Sender.wireWith at hwire
    rwa [hnil, List.append_nil, Sender.init, List.nil_append] at hwire
  have hr : (Receiver.init c key s.wire).Aligned := by
    refine ⟨?_, hnone⟩
    rw [Receiver.init, hwire', c.length_encode _ _ hframes]
    exact hframes
  have hcontent : (Receiver.init c key s.wire).content c = sent.flatMap fun x =>
    x.1.padded x.2 := by
    rw [Receiver.content, Receiver.init, hwire', c.decode_encode _ _ hframes]
  obtain ⟨r, hloop, hr', hempty⟩ := readLoop_messages c sched sent hr hcontent
    (show sent.length < sent.length + 1 + further by omega)
  refine ⟨s, r, hsend, hloop, hempty, hs, hr'.lengths, fun x _ => ⟨length_padded x.1 x.2, ?_, ?_⟩⟩
  · exact (sizes_agree x.1.allowed).1
  · exact toNat_sizeWithPadding x.1.size

def emptyMessage : Message := ⟨⟨0, 5007⟩, [], rfl, by decide⟩

def nineBytes : Message := ⟨⟨9, 1000⟩, [1, 2, 3, 4, 5, 6, 7, 8, 9], rfl, by decide⟩

/-- Byte by byte. -/
example :
    let c := shifting 16
    let key := 7
    ((sendMessages c [(nineBytes, fun _ => 255), (emptyMessage, fun _ => 0)]
      (Sender.init c key)).map
      fun s => ((readLoop c (fun _ => 1) 3 (Receiver.init c key s.wire)).1,
        s.aesLengths)).toOption = some ([nineBytes, emptyMessage], [32, 16]) := by
  decide +kernel

end Nestchain.Net
