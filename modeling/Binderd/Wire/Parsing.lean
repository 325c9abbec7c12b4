import Binderd.Wire.RoundTrip

/-! # The loop of a read handler

The read handlers of the server and of the client call `MessageParser::Next` until it returns
nothing, and handle each message before they ask for the next one. A handler may write to the frame
that it is working on, since the data of a message are a view into it, but cannot change its size.

* `next_progress`: `Next` moves at least 24 bytes on if it returns a message, and has decoded that
  message from bytes of the frame;
* `readLoop_terminates`: so that for a frame of `n` bytes the loop ends after at most `n / 24 + 1`
  calls, whatever the bytes are and whatever the handler does;
* `parse_eq_readLoop`: the fuel of `parse` suffices. -/

namespace Binderd.Wire.Parsing

open Binderd.Wire.Streams Binderd.Wire.Messages Binderd.Wire.Transactions Binderd.Wire.RoundTrip

/-- What is done with each message; it may throw. -/
structure Handler (σ : Type) where
  process : σ → Received → List UInt8 → Except Exn (σ × List UInt8)
  length_eq : ∀ {s msg body s' body'}, process s msg body = .ok (s', body') →
    body'.length = body.length

/-- How a loop ended. -/
structure Ended (σ : Type) where
  state : σ
  parser : MessageParser
  /-- The messages that were returned, each with the parser that returned it. -/
  returned : List (MessageParser × Received)
  exn : Option Exn

/-- The loop, with the number of calls of `Next` that it may make. -/
def readLoop {σ : Type} (hd : Handler σ) : ℕ → σ → MessageParser → Option (Ended σ)
  | 0, _, _ => none
  | calls + 1, s, p =>
    match p.next with
    | .error e => some ⟨s, p, [], some e⟩
    | .ok (none, q) => some ⟨s, q, [], none⟩
    | .ok (some msg, q) =>
      match hd.process s msg q.buffer with
      | .error e => some ⟨s, q, [(p, msg)], some e⟩
      | .ok (s, body) =>
        (readLoop hd calls s { q with buffer := body }).map fun l =>
          { l with returned := (p, msg) :: l.returned }

/-- The message was decoded from bytes between the parser's offset and the end of the frame: its
data lie there, and with the same bytes there any other frame yields the same message. -/
def DecodedInside (p : MessageParser) (msg : Received) : Prop :=
  ∃ stop, p.consumed + 24 ≤ stop ∧ stop ≤ p.buffer.length ∧ p.consumed ≤ msg.data.start ∧
    msg.data.start + msg.data.size ≤ stop ∧
    ∀ buffer : List UInt8, stop ≤ buffer.length →
      (∀ i, p.consumed ≤ i → i < stop → buffer.getD i 0 = p.buffer.getD i 0) →
      ∃ q, (MessageParser.mk buffer p.consumed).next = .ok (some msg, q)

/-- The number of calls of `Next` that a parser has left. -/
def callsLeft (p : MessageParser) : ℕ := (p.buffer.length - p.consumed) / 24 + 1

/-! ### One call -/

variable {p q : MessageParser} {msg : Received}

theorem next_some_iff : p.next = .ok (some msg, q) ↔
    p.consumed < p.buffer.length ∧ WholeAt p.buffer p.consumed ∧
      msg = messageAt p.buffer p.consumed ∧
      q = { p with consumed := p.consumed + endOf p.buffer p.consumed } := by
  rw [next_eq]
  by_cases hend : p.buffer.length ≤ p.consumed
  · rw [if_pos hend]
    simp only [Except.ok.injEq, Prod.mk.injEq, reduceCtorEq, false_and, false_iff]
    rintro ⟨hlt, -⟩
    omega
  · rw [if_neg hend]
    by_cases hw : WholeAt p.buffer p.consumed
    · rw [if_pos hw]
      simp only [Except.ok.injEq, Prod.mk.injEq, Option.some.injEq, not_le.mp hend, hw, true_and,
        eq_comm]
    · rw [if_neg hw]
      simp [hw]

theorem next_of_le (h : p.buffer.length ≤ p.consumed) : p.next = .ok (none, p) := by
  rw [next_eq, if_pos h]

theorem messageAt_congr {buffer buffer' : List UInt8} {offset : ℕ}
    (h : ∀ i, offset ≤ i → i < endOf buffer offset → buffer'.getD i 0 = buffer.getD i 0) :
    messageAt buffer' offset = messageAt buffer offset ∧
      endOf buffer' offset = endOf buffer offset := by
  have hend : offset + 24 ≤ endOf buffer offset := by
    unfold endOf
    omega
  have hbyte : ∀ k < 24, byteOf buffer' (offset + k) = byteOf buffer (offset + k) := by
    intro k hk
    rw [byteOf, byteOf, h (offset + k) (by omega) (by omega)]
  have htype := hbyte 0 (by omega)
  have hsize : sizeAt buffer' offset = sizeAt buffer offset := hbyte 20 (by omega)
  rw [Nat.add_zero] at htype
  constructor
  · rw [messageAt, messageAt, htype, hbyte 4 (by omega), hbyte 12 (by omega), hsize]
  · rw [endOf, endOf, hsize]

/-- **A call that returns a message makes progress**, and has read bytes of the frame only. -/
theorem next_progress (h : p.next = .ok (some msg, q)) :
    p.consumed + 24 ≤ q.consumed ∧ q.buffer = p.buffer ∧ DecodedInside p msg := by
  obtain ⟨hlt, hw, rfl, rfl⟩ := next_some_iff.mp h
  have hend : p.consumed + 24 + (sizeAt p.buffer p.consumed + 3) / 4 * 4 =
      endOf p.buffer p.consumed := rfl
  have hle : endOf p.buffer p.consumed ≤ p.buffer.length := hw
  refine ⟨by simp only; omega, rfl, endOf p.buffer p.consumed, by omega, hle, ?_, ?_, ?_⟩
  · simp only [messageAt]
    omega
  · simp only [messageAt]
    omega
  · intro buffer hlen hsame
    obtain ⟨hmsg, hstop⟩ := messageAt_congr hsame
    refine ⟨_, next_some_iff.mpr ⟨?_, ?_, hmsg.symm, rfl⟩⟩
    · simp only
      omega
    · rw [WholeAt, hstop]
      exact hlen

theorem callsLeft_lt (h : p.next = .ok (some msg, q)) {body : List UInt8}
    (hlen : body.length = q.buffer.length) :
    callsLeft { q with buffer := body } < callsLeft p := by
  obtain ⟨hlt, -⟩ := next_some_iff.mp h
  obtain ⟨hmore, hbuf, stop, hstop, hle, -⟩ := next_progress h
  rw [hbuf] at hlen
  unfold callsLeft
  simp only [hlen]
  omega

/-! ### The loop -/

section Loop

variable {σ : Type} (hd : Handler σ)

/-- The loop ends with the calls that are left, and further ones make no difference. -/
theorem exists_readLoop : ∀ (calls : ℕ) (s : σ) (p : MessageParser), callsLeft p ≤ calls →
    ∃ l, (∀ more, readLoop hd (calls + more) s p = some l) ∧ l.returned.length < callsLeft p ∧
      ∀ x ∈ l.returned, x.1.buffer.length = p.buffer.length ∧ DecodedInside x.1 x.2
  | 0, _, p, h => by
    unfold callsLeft at h
    omega
  | calls + 1, s, p, h => by
    have hpos : 0 < callsLeft p := Nat.succ_pos _
    have hunfold : ∀ more, calls + 1 + more = calls + more + 1 := fun more => by omega
    cases hnext : p.next with
    | error e => exact ⟨⟨s, p, [], some e⟩, fun more => by rw [hunfold, readLoop, hnext], hpos,
        by simp⟩
    | ok r =>
      obtain ⟨_ | msg, q⟩ := r
      · exact ⟨⟨s, q, [], none⟩, fun more => by rw [hunfold, readLoop, hnext], hpos, by simp⟩
      · have hinside := (next_progress hnext).2.2
        have hbuf := (next_progress hnext).2.1
        cases hproc : hd.process s msg q.buffer with
        | error e =>
          have hlt : callsLeft q < callsLeft p := callsLeft_lt hnext rfl
          have hone : 0 < callsLeft q := Nat.succ_pos _
          refine ⟨⟨s, q, [(p, msg)], some e⟩, fun more => ?_, ?_, ?_⟩
          · rw [hunfold, readLoop, hnext]
            simp only [hproc]
          · rw [List.length_singleton]
            omega
          · intro x hx
            rw [List.mem_singleton] at hx
            subst hx
            exact ⟨rfl, hinside⟩
        | ok r =>
          obtain ⟨s', body⟩ := r
          have hlen := hd.length_eq hproc
          have hlt := callsLeft_lt hnext hlen
          obtain ⟨l, hl, hcount, hall⟩ :=
            exists_readLoop calls s' { q with buffer := body } (by omega)
          refine ⟨{ l with returned := (p, msg) :: l.returned }, fun more => ?_, ?_, ?_⟩
          · rw [hunfold, readLoop, hnext]
            simp only [hproc, hl, Option.map_some]
          · rw [List.length_cons]
            omega
          · intro x hx
            rcases List.mem_cons.mp hx with rfl | hx
            · exact ⟨rfl, hinside⟩
            · have hx := hall x hx
              rwa [show ({ q with buffer := body } : MessageParser).buffer.length =
                p.buffer.length by rw [← hbuf]; exact hlen] at hx

end Loop

/-- **Parsing terminates on any bytes.** For a frame of `n` bytes the loop ends after at most
`n / 24 + 1` calls of `Next`, whatever is done with the messages; each message makes at least 24
bytes of progress and was decoded from bytes of the frame; and past the end of the frame no message
is returned. -/
theorem readLoop_terminates {σ : Type} (hd : Handler σ) (s : σ) (body : List UInt8) :
    (∃ l, (∀ more, readLoop hd (body.length / 24 + 1 + more) s { buffer := body } = some l) ∧
      l.returned.length ≤ body.length / 24 ∧
      ∀ x ∈ l.returned, x.1.buffer.length = body.length ∧ DecodedInside x.1 x.2) ∧
    (∀ (p q : MessageParser) (msg : Received), p.next = .ok (some msg, q) →
      p.consumed + 24 ≤ q.consumed ∧ DecodedInside p msg) ∧
    ∀ p : MessageParser, p.buffer.length ≤ p.consumed → p.next = .ok (none, p) := by
  refine ⟨?_, fun p q msg h => ?_, fun p h => next_of_le h⟩
  · have hcalls : callsLeft { buffer := body } = body.length / 24 + 1 := rfl
    obtain ⟨l, hl, hcount, hall⟩ :=
      exists_readLoop hd (body.length / 24 + 1) s { buffer := body } hcalls.le
    exact ⟨l, hl, by omega, hall⟩
  · obtain ⟨hmore, -, hinside⟩ := next_progress h
    exact ⟨hmore, hinside⟩

/-! ### The parser without a handler -/

/-- The handler that does nothing. -/
def ignore : Handler Unit where
  process _ _ body := .ok ((), body)
  length_eq h := by
    cases h
    rfl

theorem drain_of_readLoop : ∀ {calls : ℕ} {p : MessageParser} {l : Ended Unit},
    readLoop ignore calls () p = some l → p.drain calls = (l.returned.map (·.2), l.exn)
  | 0, _, _, h => by cases h
  | calls + 1, p, l, h => by
    rw [readLoop] at h
    rw [MessageParser.drain]
    cases hnext : p.next with
    | error e =>
      rw [hnext] at h
      cases h
      rfl
    | ok r =>
      obtain ⟨_ | msg, q⟩ := r
      · rw [hnext] at h
        cases h
        rfl
      · rw [hnext] at h
        simp only [ignore, Option.map_eq_some_iff] at h
        obtain ⟨l', hl', rfl⟩ := h
        simp only [drain_of_readLoop hl', List.map_cons]

/-- **The fuel of `parse` suffices**: it returns what the loop does. -/
theorem parse_eq_readLoop (body : List UInt8) : ∃ l,
    readLoop ignore (body.length / 24 + 1) () { buffer := body } = some l ∧
      parse body = (l.returned.map (·.2), l.exn) := by
  obtain ⟨l, hl, -⟩ := exists_readLoop ignore (body.length / 24 + 1) () { buffer := body } le_rfl
  have hfuel := hl (body.length - body.length / 24)
  rw [show body.length / 24 + 1 + (body.length - body.length / 24) = body.length + 1 by omega]
    at hfuel
  exact ⟨l, hl 0, drain_of_readLoop hfuel⟩

end Binderd.Wire.Parsing
