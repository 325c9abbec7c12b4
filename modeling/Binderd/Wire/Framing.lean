import Binderd.Lib.Codes
import Binderd.Lib.Runs
import Binderd.Wire.Messages

/-! # Channels

The two ends of an open connection. `WriteData` queues a buffer; the buffer at the front of the
queue is written behind a header of two bytes, its size modulo `2 ^ 16`, most significant byte
first. The other end reads a header, then as many bytes as it announces, at once if they have all
arrived and otherwise as they do, and calls its handler, which reads on.

The machine leaves open how many bytes the socket takes or yields at a time, how the stream is cut
into the pieces that arrive, and in which order the two ends make their steps.

* `Framed`: at every time, what was written is what was delivered, what the reader holds of the next
  frame, and what is on the way;
* `channel_delivers_iff`: a channel comes to rest, and has then delivered what was written if and
  only if all the buffers were shorter than `2 ^ 16` bytes. -/

namespace Binderd.Wire.Framing

open Binderd.Lib.Codes Binderd.Lib.Runs Binderd.Wire.Streams Binderd.Wire.Messages

/-! ### The header -/

/-- The length of a frame is sent before it, in two bytes. -/
def headerSize : ℕ := 2

/-- The two bytes `WriteNext` puts before an item. -/
def header (size : ℕ) : List UInt8 :=
  [UInt8.ofNat ((size >>> 8) &&& 0xff), UInt8.ofNat ((size >>> 0) &&& 0xff)]

/-- The item with its header. -/
def wholeMessage (item : List UInt8) : List UInt8 := header item.length ++ item

/-- The size `ReadMessageAsync` computes from the header. -/
def bodySize (header : List UInt8) : ℕ :=
  (header.getD 0 0).toNat <<< 8 + (header.getD 1 0).toNat

/-! ### The two ends -/

/-- The pending `async_read`, with the bytes it has so far. -/
inductive Reading where
  | header (got : List UInt8)
  | body (size : ℕ) (got : List UInt8)
  /-- An exception left the completion handler: nothing is read any more. -/
  | failed
deriving DecidableEq

/-- One direction of a connection, from the write queue to the reader. -/
structure Channel where
  /-- `write_queue_`. -/
  writeQueue : List (List UInt8) := []
  /-- What the pending `async_write` has not written yet. -/
  sending : List UInt8 := []
  inFlight : List UInt8 := []
  /-- What has arrived: `GetAvailableBytes` is its length. -/
  available : List UInt8 := []
  reading : Reading := .header []
  /-- `body_` has a block of memory. -/
  bodyAllocated : Bool := false
deriving DecidableEq

/-- `SocketMessenger::WriteNext`: the first item of the queue is written. -/
def writeNext (c : Channel) : Channel :=
  match c.writeQueue with
  | [] => c
  | item :: _ => { c with sending := wholeMessage item }

/-- `SocketMessenger::WriteData`: the item is queued, and written if it is the only one. -/
def writeData (c : Channel) (data : List UInt8) : Channel :=
  let c := { c with writeQueue := c.writeQueue ++ [data] }
  if 1 < c.writeQueue.length then c else writeNext c

/-- `SocketMessenger::OnMessageSent`: the item is dropped, and the next one is written. -/
def onMessageSent (c : Channel) : Channel :=
  let c := { c with writeQueue := c.writeQueue.tail }
  if 0 < c.writeQueue.length then writeNext c else c

/-- `Buffer::Resize` of `body_`. A `realloc` of a block to no bytes frees the block and returns
null, which is taken for a failed allocation. -/
def resizeBody (c : Channel) (size : ℕ) : Except Exn Channel :=
  if size = 0 ∧ c.bodyAllocated then .error .other else .ok { c with bodyAllocated := true }

/-- The handler is called with the body, and calls `ReadMessageAsync` again. -/
def deliver (c : Channel) (body : List UInt8) : Channel × List (List UInt8) :=
  ({ c with reading := .header [] }, [body])

/-- The header is complete: the body is read at once (`ReadBuffer`) or by an `async_read`. -/
def onHeader (c : Channel) (header : List UInt8) : Channel × List (List UInt8) :=
  match resizeBody c (bodySize header) with
  | .error _ => ({ c with reading := .failed, bodyAllocated := false }, [])
  | .ok c =>
    if bodySize header ≤ c.available.length then
      deliver { c with available := c.available.drop (bodySize header) }
        (c.available.take (bodySize header))
    else ({ c with reading := .body (bodySize header) [] }, [])

/-- `n` bytes are taken from those that have arrived. -/
def take (c : Channel) (n : ℕ) : Channel := { c with available := c.available.drop n }

/-- The pending `async_read` gets `n` bytes; it completes with the last one it asked for. -/
def transfer (c : Channel) (n : ℕ) : Option (Channel × List (List UInt8)) :=
  match c.reading with
  | .header got =>
    if n ≤ c.available.length ∧ got.length + n < headerSize then
      some ({ take c n with reading := .header (got ++ c.available.take n) }, [])
    else if n ≤ c.available.length ∧ got.length + n = headerSize then
      some (onHeader (take c n) (got ++ c.available.take n))
    else none
  | .body size got =>
    if n ≤ c.available.length ∧ got.length + n < size then
      some ({ take c n with reading := .body size (got ++ c.available.take n) }, [])
    else if n ≤ c.available.length ∧ got.length + n = size then
      some (deliver (take c n) (got ++ c.available.take n))
    else none
  | .failed => none

/-- What can happen on the connection. -/
inductive ChannelAction where
  | writeData (data : List UInt8)
  /-- The socket takes `n` bytes of the pending `async_write`. -/
  | send (n : ℕ)
  /-- The pending `async_write` completes. -/
  | messageSent
  /-- The next `n` bytes of the stream arrive. -/
  | arrive (n : ℕ)
  /-- The socket yields `n` bytes to the pending `async_read`. -/
  | read (n : ℕ)
deriving DecidableEq

/-- One step of the connection. -/
def channelStep (c : Channel) : ChannelAction → Option (Channel × List (List UInt8))
  | .writeData data => some (writeData c data, [])
  | .send n =>
    if 0 < n ∧ n ≤ c.sending.length then
      some ({ c with
        sending := c.sending.drop n
        inFlight := c.inFlight ++ c.sending.take n }, [])
    else none
  | .messageSent =>
    if c.sending = [] ∧ c.writeQueue ≠ [] then some (onMessageSent c, []) else none
  | .arrive n =>
    if 0 < n ∧ n ≤ c.inFlight.length then
      some ({ c with
        inFlight := c.inFlight.drop n
        available := c.available ++ c.inFlight.take n }, [])
    else none
  | .read n => if 0 < n then transfer c n else none

/-- **The channel.** It emits the buffers that are delivered. -/
def channel : Machine Channel ChannelAction (List UInt8) := ⟨{}, channelStep⟩

/-- The steps of the connection, as its histories record them. -/
abbrev ChannelTransition := Transition Channel ChannelAction (List UInt8)

/-- The buffer an action passes to `WriteData`. -/
def ChannelAction.data : ChannelAction → List (List UInt8)
  | .writeData data => [data]
  | _ => []

/-- The buffers passed to `WriteData`, in order. -/
def written (h : List ChannelTransition) : List (List UInt8) := h.flatMap (·.action.data)

theorem written_append (h h' : List ChannelTransition) :
    written (h ++ h') = written h ++ written h' := List.flatMap_append

/-- Nothing can happen but another `WriteData`. -/
def AtRest (c : Channel) : Prop := ∀ a, a.data = [] → channelStep c a = none

/-! ### Frames are self-delimiting -/

theorem bodySize_lt {hd : List UInt8} : bodySize hd < 2 ^ 16 := by
  have h0 := (hd.getD 0 0).toNat_lt
  have h1 := (hd.getD 1 0).toNat_lt
  simp only [bodySize, Nat.shiftLeft_eq]
  omega

theorem bodySize_header {size : ℕ} (h : size < 2 ^ 16) (l : List UInt8) :
    bodySize (header size ++ l) = size := by
  have h255 : ∀ n : ℕ, n &&& 255 = n % 256 := fun n => Nat.and_two_pow_sub_one_eq_mod n 8
  simp [bodySize, header, Nat.shiftLeft_eq, Nat.shiftRight_eq_div_pow, h255]
  omega

theorem header_bodySize {hd : List UInt8} (h : hd.length = headerSize) :
    header (bodySize hd) = hd := by
  obtain ⟨a, b, rfl⟩ := List.length_eq_two.mp h
  have ha := a.toNat_lt
  have hb := b.toNat_lt
  have h255 : ∀ n : ℕ, n &&& 255 = n % 256 := fun n => Nat.and_two_pow_sub_one_eq_mod n 8
  have h1 : (a.toNat * 256 + b.toNat) / 256 % 256 = a.toNat := by omega
  have h2 : (a.toNat * 256 + b.toNat) % 256 = b.toNat := by omega
  simp [bodySize, header, Nat.shiftLeft_eq, Nat.shiftRight_eq_div_pow, h255, h1, h2]

@[simp] theorem length_header (size : ℕ) : (header size).length = 2 := rfl

theorem wholeMessage_prefixFree : PrefixFreeOn wholeMessage fun d => d.length < 2 ^ 16 := by
  refine ⟨fun d _ => by simp [wholeMessage, header], fun a b x y ha hb h => ?_⟩
  simp only [wholeMessage, List.append_assoc] at h
  have hlen : a.length = b.length := by
    rw [← bodySize_header ha (a ++ x), h, bodySize_header hb]
  rw [hlen] at h
  exact (List.append_inj (List.append_cancel_left h) hlen).1

/-! ### What a step does to the stream -/

/-- What the reader holds of the next frame. -/
def held : Reading → List UInt8
  | .header got => got
  | .body size got => header size ++ got
  | .failed => header 0

/-- What is on the way to the reader. -/
def onTheWay (c : Channel) : List UInt8 :=
  c.inFlight ++ (c.sending ++ c.writeQueue.tail.flatMap wholeMessage)

/-- The pending read asked for more than it has. -/
def Incomplete : Reading → Prop
  | .header got => got.length < headerSize
  | .body size got => got.length < size ∧ size < 2 ^ 16
  | .failed => True

/-- What every run keeps. -/
structure WellFormed (c : Channel) : Prop where
  reading : Incomplete c.reading
  idle : c.writeQueue = [] → c.sending = []

/-- The step keeps the channel well formed, delivers buffers that a header can announce, and moves
bytes from one place of the stream to the next. -/
structure Conserves (c : Channel) (a : ChannelAction) (c' : Channel) (out : List (List UInt8)) :
    Prop where
  wellFormed : WellFormed c'
  small : ∀ d ∈ out, d.length < 2 ^ 16
  stream : out.flatMap wholeMessage ++ (held c'.reading ++ (c'.available ++ onTheWay c')) =
    held c.reading ++ (c.available ++ onTheWay c) ++ a.data.flatMap wholeMessage

theorem writeData_conserves {c : Channel} (hw : WellFormed c) (data : List UInt8) :
    Conserves c (.writeData data) (writeData c data) [] := by
  rcases hq : c.writeQueue with _ | ⟨item, rest⟩
  · have hs := hw.idle hq
    have hc : writeData c data = { c with
        writeQueue := [data]
        sending := wholeMessage data } := by
      simp [writeData, writeNext, hq]
    rw [hc]
    exact ⟨⟨hw.reading, by simp⟩, by simp, by simp [onTheWay, hq, hs, ChannelAction.data]⟩
  · have hc : writeData c data = { c with writeQueue := item :: rest ++ [data] } := by
      simp [writeData, hq]
    rw [hc]
    exact ⟨⟨hw.reading, by simp⟩, by simp, by simp [onTheWay, hq, ChannelAction.data]⟩

theorem onMessageSent_conserves {c : Channel} (hw : WellFormed c) (hs : c.sending = []) :
    Conserves c .messageSent (onMessageSent c) [] := by
  rcases hq : c.writeQueue.tail with _ | ⟨item, rest⟩
  · have hc : onMessageSent c = { c with writeQueue := [] } := by
      simp [onMessageSent, hq]
    rw [hc]
    exact ⟨⟨hw.reading, fun _ => hs⟩, by simp, by simp [onTheWay, hq, ChannelAction.data]⟩
  · have hc : onMessageSent c = { c with
        writeQueue := item :: rest
        sending := wholeMessage item } := by
      simp [onMessageSent, writeNext, hq]
    rw [hc]
    exact ⟨⟨hw.reading, by simp⟩, by simp, by simp [onTheWay, hq, hs, ChannelAction.data]⟩

/-- The stream as the reader of `c` sees it. -/
theorem onHeader_conserves {c : Channel} (hi : c.writeQueue = [] → c.sending = [])
    {hd : List UInt8} (hl : hd.length = headerSize) :
    WellFormed (onHeader c hd).1 ∧ (∀ d ∈ (onHeader c hd).2, d.length < 2 ^ 16) ∧
      (onHeader c hd).2.flatMap wholeMessage ++ (held (onHeader c hd).1.reading ++
        ((onHeader c hd).1.available ++ onTheWay (onHeader c hd).1)) =
      hd ++ (c.available ++ onTheWay c) := by
  have hhd := header_bodySize hl
  have hlt : bodySize hd < 2 ^ 16 := bodySize_lt
  unfold onHeader resizeBody
  split_ifs with h0
  · rw [h0.1] at hhd
    exact ⟨⟨trivial, hi⟩, by simp, by simp [held, hhd, onTheWay]⟩
  · simp only
    split_ifs with hle
    · refine ⟨⟨by simp [deliver, Incomplete, headerSize], hi⟩, ?_, ?_⟩
      · simp only [deliver, List.mem_singleton, forall_eq, List.length_take]
        omega
      · have htake : (c.available.take (bodySize hd)).length = bodySize hd := by simpa using hle
        simp [deliver, held, wholeMessage, onTheWay, htake, hhd]
    · exact ⟨⟨⟨by simp at hle ⊢; omega, hlt⟩, hi⟩, by simp, by simp [held, hhd, onTheWay]⟩

theorem transfer_conserves {c : Channel} (hw : WellFormed c) {n : ℕ}
    {r : Channel × List (List UInt8)} (h : transfer c n = some r) :
    Conserves c (.read n) r.1 r.2 := by
  have hr := hw.reading
  unfold transfer at h
  split at h
  · next got hg =>
    rw [hg] at hr
    split_ifs at h with h1 h2
    · cases h
      refine ⟨⟨?_, hw.idle⟩, by simp, ?_⟩
      · simp only [Incomplete, List.length_append, List.length_take]
        omega
      · simp [held, hg, take, onTheWay, ChannelAction.data]
    · cases h
      have hl : (got ++ c.available.take n).length = headerSize := by
        rw [List.length_append, List.length_take]
        omega
      obtain ⟨h3, h4, h5⟩ := onHeader_conserves (c := take c n) hw.idle hl
      refine ⟨h3, h4, ?_⟩
      rw [h5]
      simp [held, hg, take, onTheWay, ChannelAction.data]
  · next size got hg =>
    rw [hg] at hr
    split_ifs at h with h1 h2
    · cases h
      refine ⟨⟨⟨?_, hr.2⟩, hw.idle⟩, by simp, ?_⟩
      · rw [List.length_append, List.length_take]
        omega
      · simp [held, hg, take, onTheWay, ChannelAction.data]
    · cases h
      have hl : (got ++ c.available.take n).length = size := by
        rw [List.length_append, List.length_take]
        omega
      refine ⟨⟨by simp [deliver, Incomplete, headerSize], hw.idle⟩, ?_, ?_⟩
      · simp only [deliver, List.mem_singleton, forall_eq, hl]
        exact hr.2
      · simp only [deliver, List.flatMap_singleton, wholeMessage, hl]
        simp [held, hg, take, onTheWay, ChannelAction.data]
  · cases h

/-- **What a step does to the stream.** -/
theorem channelStep_conserves {c : Channel} {a : ChannelAction} {r : Channel × List (List UInt8)}
    (hw : WellFormed c) (h : channelStep c a = some r) : Conserves c a r.1 r.2 := by
  cases a with
  | writeData data =>
    cases h
    exact writeData_conserves hw data
  | send n =>
    simp only [channelStep] at h
    split_ifs at h with hn
    cases h
    refine ⟨⟨hw.reading, fun hq => ?_⟩, by simp, by simp [onTheWay, ChannelAction.data]⟩
    simp [hw.idle hq]
  | messageSent =>
    simp only [channelStep] at h
    split_ifs at h with hs
    cases h
    exact onMessageSent_conserves hw hs.1
  | arrive n =>
    simp only [channelStep] at h
    split_ifs at h with hn
    cases h
    exact ⟨⟨hw.reading, hw.idle⟩, by simp, by simp [onTheWay, ChannelAction.data]⟩
  | read n =>
    simp only [channelStep] at h
    split_ifs at h with hn
    exact transfer_conserves hw h

/-! ### Runs -/

/-- What was written is what was delivered, what the reader holds and what is on the way. -/
structure Framed (h : List ChannelTransition) (c : Channel) : Prop where
  wellFormed : WellFormed c
  small : ∀ d ∈ outputs h, d.length < 2 ^ 16
  stream : (outputs h).flatMap wholeMessage ++ (held c.reading ++ (c.available ++ onTheWay c)) =
    (written h).flatMap wholeMessage

theorem Framed.step {h : List ChannelTransition} {e : ChannelTransition} (hf : Framed h e.before)
    (he : e.Valid channel) : Framed (h ++ [e]) e.after := by
  have hc := channelStep_conserves hf.wellFormed he
  refine ⟨hc.wellFormed, ?_, ?_⟩
  · intro d hd
    rw [outputs_snoc, List.mem_append] at hd
    exact hd.elim (hf.small d) (hc.small d)
  · have h1 := hc.stream
    have h2 := hf.stream
    simp only [outputs_snoc, written, List.flatMap_append, List.flatMap_singleton,
      List.append_assoc] at h1 h2 ⊢
    rw [h1, ← h2]
    simp [List.append_assoc]

theorem framed_of_run {h : List ChannelTransition} {c : Channel} (hr : Run channel h c) :
    Framed h c :=
  Run.invariant (C := fun _ => True)
    ⟨⟨by simp [channel, Incomplete, headerSize], fun _ => rfl⟩, by simp [outputs], rfl⟩
    (fun _ _ _ hf he _ => hf.step he) hr fun _ _ => trivial

/-! ### Coming to rest -/

/-- The steps that are left, but for further writes. -/
def work (c : Channel) : ℕ :=
  c.writeQueue.length + 3 * (c.writeQueue.tail.flatMap wholeMessage).length +
    3 * c.sending.length + 2 * c.inFlight.length + c.available.length

theorem work_onHeader_le (c : Channel) (hd : List UInt8) : work (onHeader c hd).1 ≤ work c := by
  unfold onHeader resizeBody
  split_ifs with h0
  · exact le_rfl
  · simp only
    split_ifs with hle
    · simp only [work, deliver, List.length_drop]
      omega
    · exact le_rfl

theorem work_take_lt {c : Channel} {n : ℕ} (h0 : 0 < n) (hn : n ≤ c.available.length) :
    work (take c n) < work c := by
  simp only [work, take, List.length_drop]
  omega

theorem work_transfer_lt {c : Channel} {n : ℕ} {r : Channel × List (List UInt8)} (h0 : 0 < n)
    (h : transfer c n = some r) : work r.1 < work c := by
  unfold transfer at h
  split at h
  · split_ifs at h with h1 h2
    · cases h
      exact work_take_lt h0 h1.1
    · cases h
      exact lt_of_le_of_lt (work_onHeader_le _ _) (work_take_lt h0 h2.1)
  · split_ifs at h with h1 h2
    · cases h
      exact work_take_lt h0 h1.1
    · cases h
      exact work_take_lt h0 h2.1
  · cases h

theorem work_onMessageSent_lt {c : Channel} (hs : c.sending = []) (hq : c.writeQueue ≠ []) :
    work (onMessageSent c) < work c := by
  obtain ⟨item, rest, hq⟩ := List.exists_cons_of_ne_nil hq
  rcases rest with _ | ⟨next, rest⟩
  · simp [work, onMessageSent, hq]
  · simp only [work, onMessageSent, writeNext, hq, hs, List.tail_cons, List.length_cons,
      List.flatMap_cons, List.length_append, Nat.zero_lt_succ, if_true, List.length_nil]
    omega

theorem channelStep_work_lt {c : Channel} {a : ChannelAction} {r : Channel × List (List UInt8)}
    (ha : a.data = []) (h : channelStep c a = some r) : work r.1 < work c := by
  cases a with
  | writeData data => cases ha
  | send n =>
    simp only [channelStep] at h
    split_ifs at h with hn
    cases h
    simp only [work, List.length_drop, List.length_append, List.length_take]
    omega
  | messageSent =>
    simp only [channelStep] at h
    split_ifs at h with hs
    cases h
    exact work_onMessageSent_lt hs.1 hs.2
  | arrive n =>
    simp only [channelStep] at h
    split_ifs at h with hn
    cases h
    simp only [work, List.length_drop, List.length_append, List.length_take]
    omega
  | read n =>
    simp only [channelStep] at h
    split_ifs at h with hn
    exact work_transfer_lt hn h

/-- Without further writes the channel can be brought to rest. -/
theorem exists_atRest (c : Channel) :
    ∃ h c', Path channel c h c' ∧ written h = [] ∧ AtRest c' := by
  -- by induction on the work that is left
  generalize hn : work c = n
  induction n using Nat.strong_induction_on generalizing c with
  | _ n ih =>
    by_cases hrest : AtRest c
    · exact ⟨[], c, .nil, rfl, hrest⟩
    · simp only [AtRest, not_forall] at hrest
      obtain ⟨a, ha, hstep⟩ := hrest
      obtain ⟨⟨c₁, out⟩, hstep⟩ := Option.ne_none_iff_exists'.mp hstep
      have hlt := channelStep_work_lt ha hstep
      obtain ⟨h, c', hp, hw, hrest⟩ := ih _ (hn ▸ hlt) c₁ rfl
      have he : Path channel c [⟨c, a, out, c₁⟩] c₁ :=
        Path.single (M := channel) (e := ⟨c, a, out, c₁⟩) hstep
      refine ⟨⟨c, a, out, c₁⟩ :: h, c', he.append hp, ?_, hrest⟩
      simp only [written, List.flatMap_cons, ha, List.nil_append]
      exact hw

/-- A channel at rest has nothing on the way, and a reader that can read has read everything. -/
theorem AtRest.empty {c : Channel} (hrest : AtRest c) (hw : WellFormed c) :
    onTheWay c = [] ∧ (c.reading = .failed ∨ c.available = []) := by
  have hs : c.sending = [] := by
    by_contra hne
    have h1 := hrest (.send 1) rfl
    rw [channelStep, if_pos ⟨Nat.one_pos, List.length_pos_iff.mpr hne⟩] at h1
    cases h1
  have hq : c.writeQueue = [] := by
    by_contra hne
    have h1 := hrest .messageSent rfl
    simp [channelStep, hs, hne] at h1
  have hf : c.inFlight = [] := by
    by_contra hne
    have h1 := hrest (.arrive 1) rfl
    rw [channelStep, if_pos ⟨Nat.one_pos, List.length_pos_iff.mpr hne⟩] at h1
    cases h1
  refine ⟨by simp [onTheWay, hs, hq, hf], ?_⟩
  by_contra hne
  rw [not_or] at hne
  have h1 := hrest (.read 1) rfl
  have hpos := List.length_pos_iff.mpr hne.2
  have hi := hw.reading
  simp only [channelStep, Nat.one_pos, if_true, transfer] at h1
  split at h1
  · next got hg =>
    rw [hg] at hi
    simp only [Incomplete] at hi
    split_ifs at h1
    omega
  · next size got hg =>
    rw [hg] at hi
    simp only [Incomplete] at hi
    split_ifs at h1
    omega
  · next hg => exact hne.1 hg

/-- What a reader at rest holds is not the beginning of frames of buffers that are not empty. -/
theorem held_append_ne {r : Reading} (hi : Incomplete r) {x : List UInt8}
    (hx : r = .failed ∨ x = []) {d : List UInt8} (hd : d ≠ []) (hlt : d.length < 2 ^ 16)
    (l : List UInt8) : held r ++ x ≠ wholeMessage d ++ l := by
  intro h
  cases r with
  | header got =>
    have hx : x = [] := by simpa using hx
    have hl := congrArg List.length h
    simp only [Incomplete, headerSize] at hi
    simp [held, wholeMessage, hx] at hl
    omega
  | body size got =>
    have hx : x = [] := by simpa using hx
    obtain ⟨hg, hs⟩ := hi
    simp only [held, wholeMessage, List.append_assoc] at h
    have hsize : size = d.length := by
      rw [← bodySize_header hs (got ++ x), h, bodySize_header hlt]
    have hl := congrArg List.length h
    simp [hx] at hl
    omega
  | failed =>
    simp only [held, wholeMessage, List.append_assoc] at h
    have hsize : 0 = d.length := by
      rw [← bodySize_header (show 0 < 2 ^ 16 by norm_num) x, h, bodySize_header hlt]
    exact hd (List.eq_nil_of_length_eq_zero hsize.symm)

theorem Framed.delivered {h : List ChannelTransition} {c : Channel} (hf : Framed h c)
    (hrest : AtRest c) (hne : ∀ d ∈ written h, d ≠ [])
    (hlt : ∀ d ∈ written h, d.length < 2 ^ 16) : outputs h = written h := by
  obtain ⟨hway, havail⟩ := hrest.empty hf.wellFormed
  obtain ⟨ws, hws, hrem⟩ := wholeMessage_prefixFree.split hf.small hlt hf.stream
  rw [hway, List.append_nil] at hrem
  rcases ws with _ | ⟨d, ws⟩
  · rw [hws, List.append_nil]
  · -- the frame of `d` would have to be with the reader
    have hd : d ∈ written h := by simp [hws]
    exact absurd hrem (held_append_ne hf.wellFormed.reading havail (hne d hd) (hlt d hd) _)

/-- **A channel comes to rest, and has then delivered exactly the buffers that were written, in
order, if and only if each of them is shorter than `2 ^ 16` bytes.** No buffer is empty: a packed
message has a header. -/
theorem channel_delivers_iff {h : List ChannelTransition} {c : Channel} (hr : Run channel h c)
    (hne : ∀ d ∈ written h, d ≠ []) :
    (∀ h' c', Path channel c h' c' → written h' = [] → h'.length ≤ work c) ∧
      (AtRest c → (outputs h = written h ↔ ∀ d ∈ written h, d.length < 2 ^ 16)) := by
  have hf := framed_of_run hr
  constructor
  · intro h' c' hp hw
    have hdec : ∀ e ∈ h', e.Valid channel → work e.after < work e.before := by
      intro e he hv
      have hdata : e.action.data = [] := List.flatMap_eq_nil_iff.mp hw e he
      exact channelStep_work_lt (r := (e.after, e.emitted)) hdata hv
    have hle := hp.length_le_of_decreasing work hdec
    omega
  · intro hrest
    constructor
    · intro heq
      rw [← heq]
      exact hf.small
    · exact hf.delivered hrest hne

/-- A frame that arrives in two pieces, cut inside its body. -/
def cutFrame : List ChannelAction :=
  [.writeData [7, 8, 9], .send 5, .messageSent, .arrive 3, .read 2, .read 1, .arrive 2, .read 2]

theorem channel_delivers_cutFrame :
    (∀ d ∈ written (history channel {} cutFrame), d ≠ []) ∧
      (∀ h' c', Path channel (final channel {} cutFrame) h' c' → written h' = [] →
        h'.length ≤ work (final channel {} cutFrame)) ∧
      (AtRest (final channel {} cutFrame) → (outputs (history channel {} cutFrame) =
        written (history channel {} cutFrame) ↔
          ∀ d ∈ written (history channel {} cutFrame), d.length < 2 ^ 16)) ∧
      outputs (history channel {} cutFrame) = [[7, 8, 9]] :=
  have hne : ∀ d ∈ written (history channel {} cutFrame), d ≠ [] := by decide
  have h := channel_delivers_iff (path_history channel cutFrame {}) hne
  ⟨hne, h.1, h.2, by decide⟩

/-- A Transaction whose packed form takes `2 ^ 16` bytes. -/
def longMessage : Message := { type := .transaction, data := List.replicate 65512 0 }

theorem length_pack_longMessage : (pack longMessage).length = 2 ^ 16 := by
  have hl : longMessage.data.length = 65512 := List.length_replicate
  rw [length_pack, hl]
  norm_num

/-- The header of that message announces no bytes: whatever is delivered, it is not the message. -/
theorem channel_loses_longMessage :
    ¬ ∀ h c, Run channel h c → (∀ d ∈ written h, ∃ m, d = pack m) → AtRest c →
      outputs h = written h := by
  intro hall
  let e : ChannelTransition :=
    ⟨{}, .writeData (pack longMessage), [], writeData {} (pack longMessage)⟩
  have he : Run channel [e] e.after := Path.single (M := channel) (e := e) rfl
  obtain ⟨h, c, hp, hw, hrest⟩ := exists_atRest e.after
  have hrun : Run channel ([e] ++ h) c := he.append hp
  have hwritten : written ([e] ++ h) = [pack longMessage] := by
    simp only [written, List.flatMap_append] at hw ⊢
    rw [hw]
    rfl
  have heq := hall _ _ hrun (by rw [hwritten]; simp) hrest
  have hsmall := (framed_of_run hrun).small
  rw [heq, hwritten] at hsmall
  have hlen := hsmall (pack longMessage) (by simp)
  rw [length_pack_longMessage] at hlen
  exact absurd hlen (lt_irrefl _)

end Binderd.Wire.Framing
