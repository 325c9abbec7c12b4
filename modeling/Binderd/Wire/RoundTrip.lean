import Binderd.Wire.Transactions

/-! # Round trips of the codec

`unpack` in closed form: from a position with a whole message behind it (`WholeAt`) it returns the
low byte of each field and a view of the data, and from any other position it throws. So a packed
message comes back exactly when one byte holds each of its fields, and the parser, which adds what
`unpack` returns to its own offset, gets through a buffer of packed messages exactly when the buffer
holds one message or none: `unpack` counts from the beginning of the buffer, so the offset before a
message enters the offset after it twice (`next_some`). -/

namespace Binderd.Wire.RoundTrip

open Binderd.Lib.Bytes Binderd.Wire.Streams Binderd.Wire.Messages Binderd.Wire.Transactions

/-! ### Unpacking in closed form -/

/-- The size of the data of the message at a position, as `unpack` reads it. -/
def sizeAt (buffer : List UInt8) (offset : ℕ) : ℕ := byteOf buffer (offset + 20)

/-- The position after the message at a position. -/
def endOf (buffer : List UInt8) (offset : ℕ) : ℕ := offset + 24 + (sizeAt buffer offset + 3) / 4 * 4

/-- The buffer has all the bytes that `unpack` reads from the position on. -/
def WholeAt (buffer : List UInt8) (offset : ℕ) : Prop := endOf buffer offset ≤ buffer.length

instance (buffer : List UInt8) (offset : ℕ) : Decidable (WholeAt buffer offset) := Nat.decLe _ _

/-- The message at a position. -/
def messageAt (buffer : List UInt8) (offset : ℕ) : Received :=
  ⟨.ofNat (byteOf buffer offset), byteOf buffer (offset + 4), byteOf buffer (offset + 12),
    ⟨offset + 24, sizeAt buffer offset⟩⟩

variable {buffer : List UInt8} {offset : ℕ}

theorem unpack_of_wholeAt (h : WholeAt buffer offset) :
    unpack buffer offset = .ok (messageAt buffer offset, endOf buffer offset) := by
  have hs : sizeAt buffer offset < 256 := byteOf_lt _ _
  have hend : offset + 24 + (sizeAt buffer offset + 3) / 4 * 4 ≤ buffer.length := h
  have h1 := BinaryReader.readValue_of_le (r := ⟨buffer, offset, true⟩) (w := 4)
    (show offset + 4 ≤ buffer.length by omega)
  have h2 := BinaryReader.readValue_of_le (r := ⟨buffer, offset + 4, true⟩) (w := 8)
    (show offset + 4 + 8 ≤ buffer.length by omega)
  have h3 := BinaryReader.readValue_of_le (r := ⟨buffer, offset + 12, true⟩) (w := 8)
    (show offset + 12 + 8 ≤ buffer.length by omega)
  have h4 := BinaryReader.readValue_of_le (r := ⟨buffer, offset + 20, true⟩) (w := 4)
    (show offset + 20 + 4 ≤ buffer.length by omega)
  have h5 := BinaryReader.readData_of_padding ⟨buffer, offset + 24, true⟩
    (sizeAt buffer offset) rfl (by omega) hend
  simp only [sizeAt, byteOf] at h5
  simp only [unpack, BinaryReader.readUint32, BinaryReader.readUint64, BinaryReader.readSizedData,
    BinaryReader.readInt32, bind, Except.bind, pure, Except.pure, BinaryReader.getBytesRead,
    Nat.add_assoc, Nat.reduceAdd] at h1 h2 h3 h4 h5 ⊢
  simp only [h1, h2, h3, h4, h5, messageAt, endOf, sizeAt, byteOf, Nat.add_assoc]

theorem unpack_of_not_wholeAt (h : ¬ WholeAt buffer offset) :
    unpack buffer offset = .error .outOfRange := by
  have hs : sizeAt buffer offset < 256 := byteOf_lt _ _
  have hend : buffer.length < offset + 24 + (sizeAt buffer offset + 3) / 4 * 4 := not_le.mp h
  simp only [unpack, BinaryReader.readUint32, BinaryReader.readUint64, BinaryReader.readSizedData,
    BinaryReader.readInt32, bind, Except.bind]
  -- as in `fromMessage_of_not_complete`, the first read that is cut short throws
  rcases Nat.lt_or_ge buffer.length (offset + 4) with h1 | h1
  · rw [BinaryReader.readValue_of_lt h1]
  rw [BinaryReader.readValue_of_le h1]
  simp only
  rcases Nat.lt_or_ge buffer.length (offset + 4 + 8) with h2 | h2
  · rw [BinaryReader.readValue_of_lt h2]
  rw [BinaryReader.readValue_of_le h2]
  simp only
  rcases Nat.lt_or_ge buffer.length (offset + 4 + 8 + 8) with h3 | h3
  · rw [BinaryReader.readValue_of_lt h3]
  rw [BinaryReader.readValue_of_le h3]
  simp only
  rcases Nat.lt_or_ge buffer.length (offset + 4 + 8 + 8 + 4) with h4 | h4
  · rw [BinaryReader.readValue_of_lt h4]
  rw [BinaryReader.readValue_of_le h4]
  simp only [Nat.add_assoc, Nat.reduceAdd]
  have h0 : sizeAt buffer offset ≠ 0 := by omega
  have h5 := BinaryReader.readData_of_lt ⟨buffer, offset + 24, true⟩ (sizeAt buffer offset) rfl h0
    (by omega) hend
  simp only [sizeAt, byteOf] at h5
  rw [h5]

theorem next_eq (p : MessageParser) :
    p.next =
      if p.buffer.length ≤ p.consumed then .ok (none, p)
      else if WholeAt p.buffer p.consumed then
        .ok (some (messageAt p.buffer p.consumed),
          { p with consumed := p.consumed + endOf p.buffer p.consumed })
      else .error .outOfRange := by
  unfold MessageParser.next
  by_cases hlt : p.buffer.length ≤ p.consumed
  · rw [if_pos hlt, if_pos hlt]
  · rw [if_neg hlt, if_neg hlt]
    by_cases hw : WholeAt p.buffer p.consumed
    · have h0 : endOf p.buffer p.consumed ≠ 0 := by
        unfold endOf
        omega
      rw [if_pos hw, unpack_of_wholeAt hw]
      simp only [bind, Except.bind, if_neg h0]
      rfl
    · rw [if_neg hw, unpack_of_not_wholeAt hw]
      rfl

/-! ### One message -/

/-- `unpack` of the packed form of `m` yields `m` and returns the length of the packed form. -/
def RoundTrips (m : Message) : Prop :=
  ∃ r, unpack (pack m) 0 = .ok (r, (pack m).length) ∧ r.toMessage (pack m) = m

/-- A message that `unpack` returns has fields that one byte holds. -/
theorem representable_of_unpack {r : Received} {n : ℕ} (h : unpack buffer offset = .ok (r, n)) :
    Representable (r.toMessage buffer) := by
  by_cases hw : WholeAt buffer offset
  · rw [unpack_of_wholeAt hw] at h
    cases h
    refine ⟨?_, byteOf_lt _ _, byteOf_lt _ _, ?_⟩
    · simp only [Received.toMessage, messageAt, MessageType.toNat_ofNat]
      exact byteOf_lt _ _
    · have hs : sizeAt buffer offset < 256 := byteOf_lt _ _
      simp only [Received.toMessage, messageAt, View.bytes, List.length_take]
      omega
  · rw [unpack_of_not_wholeAt hw] at h
    cases h

/-- **A message survives packing and unpacking exactly when one byte holds its type, its
destination, its cookie and the length of its data.** -/
theorem roundTrips_iff (m : Message) : RoundTrips m ↔ Representable m := by
  constructor
  · rintro ⟨r, hu, hm⟩
    have h := representable_of_unpack hu
    rwa [hm] at h
  · intro h
    have hu := unpack_pack h [] []
    simp only [List.nil_append, List.append_nil, List.length_nil, Nat.zero_add] at hu
    refine ⟨_, hu, ?_⟩
    simp only [Received.toMessage, data_bytes_pack]

/-- A Transaction with the cookie `256` comes back with the cookie `0`. -/
theorem not_roundTrips_cookie : ¬ RoundTrips { type := .transaction, cookie := 256 } := by
  rintro ⟨r, hu, hm⟩
  have h := (representable_of_unpack hu).cookie
  rw [hm] at h
  exact absurd h (by decide)

/-! ### Many messages -/

/-- The packed forms of the messages, one after the other. -/
def packAll (ms : List Message) : List UInt8 := ms.flatMap pack

/-- Calls of `next` return the messages one after the other, then none, and leave the parser as
`p'`. -/
def Returns (p : MessageParser) : List Message → MessageParser → Prop
  | [], p' => p.next = .ok (none, p')
  | m :: ms, p' =>
    ∃ r q, p.next = .ok (some r, q) ∧ r.toMessage p.buffer = m ∧ Returns q ms p'

/-- The parser returns the messages and has then consumed all their bytes. -/
def ParsesAll (ms : List Message) : Prop :=
  ∃ p', Returns { buffer := packAll ms } ms p' ∧ p'.consumed = (packAll ms).length

/-- What `next` does when it returns a message: the offset is doubled, then moved past the
message. -/
theorem next_some {p q : MessageParser} {r : Received} (h : p.next = .ok (some r, q)) :
    q.buffer = p.buffer ∧
      q.consumed = 2 * p.consumed + (pack (r.toMessage p.buffer)).length := by
  rw [next_eq] at h
  split_ifs at h with hlt hw
  · cases h
  have hend : p.consumed + 24 + (sizeAt p.buffer p.consumed + 3) / 4 * 4 ≤ p.buffer.length := hw
  cases h
  refine ⟨rfl, ?_⟩
  rw [length_pack]
  simp only [Received.toMessage, messageAt, View.bytes, List.length_take, List.length_drop, endOf]
  rw [min_eq_left (by omega)]
  omega

theorem next_none {p q : MessageParser} (h : p.next = .ok (none, q)) : q = p := by
  rw [next_eq] at h
  split_ifs at h with hlt hw
  · cases h
    rfl
  · cases h

theorem Returns.length_le : ∀ {ms : List Message} {p p' : MessageParser}, Returns p ms p' →
    p.consumed + (packAll ms).length ≤ p'.consumed
  | [], p, p', h => by
    rw [next_none h]
    simp [packAll]
  | m :: ms, p, p', ⟨r, q, hn, hm, h⟩ => by
    have ih := h.length_le
    have hq := (next_some hn).2
    rw [hm] at hq
    simp only [packAll, List.flatMap_cons, List.length_append] at ih ⊢
    omega

theorem Returns.length_lt {m₁ m₂ : Message} {ms : List Message} {p p' : MessageParser}
    (h : Returns p (m₁ :: m₂ :: ms) p') : (packAll (m₁ :: m₂ :: ms)).length < p'.consumed := by
  obtain ⟨r₁, q₁, hn₁, hm₁, r₂, q₂, hn₂, hm₂, h⟩ := h
  have h₁ := (next_some hn₁).2
  have h₂ := (next_some hn₂).2
  have hle := h.length_le
  have hpos := length_pack m₁
  rw [hm₁] at h₁
  rw [hm₂] at h₂
  simp only [packAll, List.flatMap_cons, List.length_append] at hle ⊢
  omega

theorem parsesAll_nil : ParsesAll [] := ⟨⟨[], 0⟩, rfl, rfl⟩

theorem parsesAll_singleton {m : Message} (h : Representable m) : ParsesAll [m] := by
  have hu := unpack_pack h [] []
  simp only [List.nil_append, List.append_nil, List.length_nil, Nat.zero_add] at hu
  have hl := length_pack m
  have hb : packAll [m] = pack m := by simp [packAll]
  refine ⟨⟨pack m, (pack m).length⟩, ?_, by rw [hb]⟩
  rw [hb]
  refine ⟨⟨m.type, m.destination, m.cookie, ⟨24, m.data.length⟩⟩, ⟨pack m, (pack m).length⟩,
    ?_, ?_, ?_⟩
  · simp only [MessageParser.next, hu, bind, Except.bind, pure, Except.pure]
    rw [if_neg (by omega), if_neg (by omega), Nat.zero_add]
  · simp only [Received.toMessage, data_bytes_pack]
  · simp [Returns, MessageParser.next]

theorem not_parsesAll_of_two (m₁ m₂ : Message) (ms : List Message) :
    ¬ ParsesAll (m₁ :: m₂ :: ms) := by
  rintro ⟨p', hr, hc⟩
  have hlt := hr.length_lt
  omega

/-- **The parser gets through the packed forms of a list of messages, and has then consumed exactly
their bytes, if and only if the list has at most one message.** -/
theorem parsesAll_iff (ms : List Message) (h : ∀ m ∈ ms, Representable m) :
    ParsesAll ms ↔ ms.length ≤ 1 := by
  rcases ms with _ | ⟨m₁, _ | ⟨m₂, ms⟩⟩
  · simp [parsesAll_nil]
  · simp [parsesAll_singleton (h m₁ (by simp))]
  · have hnot : ¬ ParsesAll (m₁ :: m₂ :: ms) := not_parsesAll_of_two m₁ m₂ ms
    simp [hnot]

theorem parsesAll_iff_status :
    (∀ m ∈ [({ type := .status } : Message)], Representable m) ∧
      (ParsesAll [{ type := .status }] ↔ [({ type := .status } : Message)].length ≤ 1) :=
  ⟨by decide, parsesAll_iff _ (by decide)⟩

/-- Of two empty messages both are returned, but the parser is then one message too far. -/
theorem not_parsesAll_pair : (∀ m ∈ [({ type := .status } : Message), { type := .status }],
    Representable m) ∧ ¬ ParsesAll [{ type := .status }, { type := .status }] :=
  ⟨by decide, not_parsesAll_of_two _ _ _⟩

end Binderd.Wire.RoundTrip
