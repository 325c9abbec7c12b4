import Binderd.Clients.Calls

/-! # The payloads of received messages

The payload of a message is a view into the buffer that the next frame overwrites. A user who reads
it sees what the last frame that arrived has at that place: the payload, if no frame has arrived
since the one the message was parsed from (`payloads_intact`), but else possibly other bytes
(`payload_overwritten`). -/

namespace Binderd.Clients.Payloads

open Binderd.Lib.Bytes Binderd.Lib.Tables Binderd.Lib.Runs
open Binderd.Wire.Streams Binderd.Wire.Messages
open Binderd.Clients.Calls

/-- The message was parsed from the frame that `arrived` has under its number. -/
def ParsedFrom (arrived : List (List UInt8)) (msg : Incoming) (frame : List UInt8) : Prop :=
  arrived[msg.frame]? = some frame ∧ msg.message ∈ (parse frame).1

/-- **Intact.** What is observed of a message is its payload in the frame it was parsed from. -/
def Intact (e : ClientStep) : Prop :=
  ∀ msg bytes, .observed msg bytes ∈ e.emitted →
    ∃ frame, ParsedFrom e.before.arrived msg frame ∧ bytes = msg.message.data.bytes frame

/-- If a payload is read, it is empty, or it is that of the last frame that arrived. -/
def ReadInTime (e : ClientStep) : Prop :=
  match e.action with
  | .readPayload i => e.before.held[i]?.all fun msg =>
      msg.message.data.size = 0 ∨ msg.frame + 1 = e.before.arrived.length
  | _ => True

instance : DecidablePred ReadInTime := fun e => by
  unfold ReadInTime
  split <;> infer_instance

/-! ### Where messages come from -/

/-- The client, or a user of it, has the message. -/
inductive Has (st : ClientState) (msg : Incoming) : Prop
  | queued : msg ∈ st.inMessages → Has st msg
  | posted : .handleContextObjectMessage msg ∈ st.tasks → Has st msg
  | promised (p : ℕ) : st.promises p = some msg → Has st msg
  | held : msg ∈ st.held → Has st msg

theorem handleMessage_has {st : ClientState} {incoming msg : Incoming}
    (h : Has (handleMessage st incoming).1 msg) : Has st msg ∨ msg = incoming := by
  rcases handleMessage_cases st incoming with ⟨he, -⟩ | ⟨call, -, -, he⟩ | he | he
  · rw [he] at h
    exact .inl h
  · rw [he] at h
    rcases h with h | h | ⟨p, h⟩ | h
    · exact .inl (.queued h)
    · simp only [List.mem_append, List.mem_singleton, reduceCtorEq, or_false] at h
      exact .inl (.posted h)
    · by_cases hp : p = call.promise
      · simp only [hp, Function.update_self, Option.some.injEq] at h
        exact .inr h.symm
      · simp only [Function.update_of_ne hp] at h
        exact .inl (.promised p h)
    · exact .inl (.held h)
  · rw [he] at h
    rcases h with h | h | ⟨p, h⟩ | h
    · exact .inl (.queued h)
    · simp only [List.mem_append, List.mem_singleton, Task.handleContextObjectMessage.injEq] at h
      exact h.imp .posted id
    · exact .inl (.promised p h)
    · exact .inl (.held h)
  · rw [he] at h
    rcases h with h | h | ⟨p, h⟩ | h
    · simp only [List.mem_append, List.mem_singleton] at h
      exact h.imp .queued id
    · exact .inl (.posted h)
    · exact .inl (.promised p h)
    · exact .inl (.held h)

theorem handleMessages_has {msg : Incoming} (msgs : List Incoming) (st : ClientState)
    (h : Has (handleMessages st msgs).1 msg) : Has st msg ∨ msg ∈ msgs := by
  induction msgs generalizing st with
  | nil => exact .inl h
  | cons incoming rest ih =>
    have h1 : Has (handleMessage st incoming).1 msg → Has st msg ∨ msg ∈ incoming :: rest := by
      intro hh
      rcases handleMessage_has hh with hh | rfl
      · exact .inl hh
      · exact .inr List.mem_cons_self
    rw [handleMessages] at h
    generalize handleMessage st incoming = r at h h1
    obtain ⟨st', _ | e⟩ := r
    · rcases ih st' h with hh | hh
      · exact h1 hh
      · exact .inr (List.mem_cons_of_mem _ hh)
    · exact h1 h

theorem Has.congr {st st' : ClientState} {msg : Incoming} (h : Has st' msg)
    (hq : ∀ m ∈ st'.inMessages, m ∈ st.inMessages) (ht : ∀ t ∈ st'.tasks, t ∈ st.tasks)
    (hp : st'.promises = st.promises) (hh : ∀ m ∈ st'.held, Has st m) : Has st msg := by
  rcases h with h | h | ⟨p, h⟩ | h
  · exact .queued (hq msg h)
  · exact .posted (ht _ h)
  · exact .promised p (hp ▸ h)
  · exact hh msg h

theorem onNewMessage_has {st : ClientState} {frame : List UInt8} {msg : Incoming}
    (h : Has (onNewMessage st frame) msg) :
    Has st msg ∨ msg ∈ messagesOf frame st.arrived.length := by
  obtain ⟨reading, he⟩ := onNewMessage_eq st frame
  rw [he] at h
  have h1 : Has (handleMessages (fillBody st frame) (messagesOf frame st.arrived.length)).1 msg :=
    h.congr (fun _ h => h) (fun _ h => h) rfl fun _ hm => .held hm
  exact (handleMessages_has _ _ h1).imp
    (fun h => h.congr (fun _ h => h) (fun _ h => h) rfl fun _ hm => .held hm) id

/-! ### The invariant -/

/-- The buffer holds the last frame, and every message was parsed from its frame. -/
structure Sourced (st : ClientState) : Prop where
  body : ∀ frame, st.arrived.getLast? = some frame → st.body = frame
  parsed : ∀ msg, Has st msg → ∃ frame, ParsedFrom st.arrived msg frame

theorem sourced_onNewMessage {st : ClientState} (h : Sourced st) (frame : List UInt8) :
    Sourced (onNewMessage st frame) := by
  obtain ⟨reading, he⟩ := onNewMessage_eq st frame
  have hf := handleMessages_frame (messagesOf frame st.arrived.length) (fillBody st frame)
  have harrived : (onNewMessage st frame).arrived = st.arrived ++ [frame] := by
    rw [he]
    exact hf.arrived
  have hbody : (onNewMessage st frame).body = frame := by
    rw [he]
    exact hf.body
  refine ⟨fun f hl => ?_, fun msg hm => ?_⟩
  · rw [harrived, List.getLast?_concat] at hl
    rw [hbody]
    exact Option.some.inj hl
  · rw [harrived]
    rcases onNewMessage_has hm with hm | hm
    · obtain ⟨f, hget, hmem⟩ := h.parsed msg hm
      exact ⟨f, getElem?_snoc_of_some hget frame, hmem⟩
    · obtain ⟨r, hr, rfl⟩ := List.mem_map.mp hm
      exact ⟨frame, by simp, hr⟩

/-- A change that keeps what arrived, and brings no new message, keeps the invariant. -/
theorem Sourced.mono {st st' : ClientState} (h : Sourced st) (hb : st'.body = st.body)
    (ha : st'.arrived = st.arrived) (hm : ∀ msg, Has st' msg → Has st msg) : Sourced st' := by
  refine ⟨?_, fun msg hh => ?_⟩
  · rw [ha, hb]
    exact h.body
  · rw [ha]
    exact h.parsed msg (hm msg hh)

theorem has_held {st : ClientState} {msg : Incoming} (h : Has st msg) :
    ∀ m ∈ st.held ++ [msg], Has st m := by
  intro m hm
  rcases List.mem_append.mp hm with hm | hm
  · exact .held hm
  · rw [List.mem_singleton.mp hm]
    exact h

theorem sourced_step {st st' : ClientState} {a : ClientAction} {es : List ClientEvent}
    (h : Sourced st) (he : ClientEffect st a st' es) : Sourced st' := by
  have hkept : ∀ l : List Incoming, ∀ m ∈ l, m ∈ l := fun _ _ hm => hm
  have htasks : ∀ t ∈ st.tasks, t ∈ st.tasks := fun _ ht => ht
  cases he with
  | received => exact sourced_onNewMessage h _
  | @handled msg rest ht =>
    have hmem : .handleContextObjectMessage msg ∈ st.tasks := ht ▸ List.mem_cons_self
    exact h.mono rfl rfl fun m hm => hm.congr (hkept _)
      (fun t hr => ht ▸ List.mem_cons_of_mem _ hr) rfl (has_held (.posted hmem))
  | @dequeued msg rest ht =>
    have hmem : msg ∈ st.inMessages := ht ▸ List.mem_cons_self
    exact h.mono rfl rfl fun m hm => hm.congr
      (fun m hr => ht ▸ List.mem_cons_of_mem _ hr) htasks rfl (has_held (.queued hmem))
  | @fetched promise msg hp =>
    exact h.mono rfl rfl fun m hm => hm.congr (hkept _) htasks rfl (has_held (.promised promise hp))
  | @finished cookie rest ht =>
    exact h.mono rfl rfl fun m hm => hm.congr (hkept _)
      (fun t hr => ht ▸ List.mem_cons_of_mem _ hr) rfl fun _ hm => .held hm
  | replied hm hr =>
    exact h.mono rfl rfl fun m hm => hm.congr (hkept _) htasks rfl
      fun _ hm => .held (List.mem_of_mem_eraseIdx hm)
  | _ => exact h.mono rfl rfl fun m hm => hm.congr (hkept _) htasks rfl fun _ hm => .held hm

theorem sourced_of_run {h : List ClientStep} {st : ClientState} (hr : Run client h st) :
    Sourced st := by
  refine Path.preserves hr ⟨(fun _ hl => by cases hl), fun msg hm => ?_⟩
    fun e _ hv hs => sourced_step hs (clientStep_effect hv)
  rcases hm with hm | hm | ⟨p, hm⟩ | hm <;> cases hm

/-! ### Reading -/

theorem intact_step {e : ClientStep} (hs : Sourced e.before) (hv : e.Valid client)
    (ht : ReadInTime e) : Intact e := by
  intro msg bytes hobs
  have heff := clientStep_effect hv
  generalize e.after = st' at heff
  generalize e.emitted = es at heff hobs
  unfold ReadInTime at ht
  generalize e.action = a at heff ht
  cases heff with
  | @observed i m hi =>
    simp only [List.mem_singleton, ClientEvent.observed.injEq] at hobs
    obtain ⟨rfl, rfl⟩ := hobs
    obtain ⟨frame, hget, hmem⟩ := hs.parsed msg (.held (List.mem_of_getElem? hi))
    refine ⟨frame, ⟨hget, hmem⟩, ?_⟩
    simp only [hi, Option.all_some, decide_eq_true_eq] at ht
    rcases ht with hzero | hlast
    · simp [View.bytes, hzero]
    · -- the buffer still holds the frame of the message
      rw [hs.body frame ?_]
      rw [List.getLast?_eq_getElem?, ← hlast]
      exact hget
  | replied _ _ => simp at hobs
  | started _ _ => simp at hobs
  | _ => cases hobs

/-- **Payloads are intact** in every run in which a payload that is not empty is read before the
next frame arrives. -/
theorem payloads_intact {h : List ClientStep} {st : ClientState} (hr : Run client h st)
    (ht : ∀ e ∈ h, ReadInTime e) : ∀ e ∈ h, Intact e := by
  intro e he
  obtain ⟨h1, h2, -, hp, hv, -⟩ := hr.prefix_of_mem he
  exact intact_step (sourced_of_run hp) hv (ht e he)

/-- A Transaction with this payload, as a frame. -/
def transactionFrame (payload : List UInt8) : List UInt8 :=
  pack { type := .transaction, data := payload }

/-- A worker takes a message and reads it, and then another frame arrives. -/
def promptReader : List ClientAction :=
  [.frame (transactionFrame [1, 2, 3, 4]), .dequeueMessage, .readPayload 0,
    .frame (transactionFrame [5, 6, 7, 8])]

theorem payloads_intact_promptReader :
    (∃ e ∈ history client {} promptReader, ∃ msg, msg.frame = 0 ∧
      .observed msg [1, 2, 3, 4] ∈ e.emitted) ∧
    ∀ e ∈ history client {} promptReader, Intact e := by
  have hread : ∃ e ∈ history client {} promptReader, ∃ msg ∈ e.before.held, msg.frame = 0 ∧
      .observed msg [1, 2, 3, 4] ∈ e.emitted := by decide +kernel
  obtain ⟨e, he, msg, -, hframe, hobs⟩ := hread
  exact ⟨⟨e, he, msg, hframe, hobs⟩,
    payloads_intact (path_history client promptReader {}) (by decide +kernel)⟩

/-- Another frame arrives before the worker reads the message. -/
def lateReader : List ClientAction :=
  [.frame (transactionFrame [1, 2, 3, 4]), .dequeueMessage,
    .frame (transactionFrame [5, 6, 7, 8]), .readPayload 0]

/-- The worker sees the payload of the second frame. -/
theorem payload_overwritten :
    Run client (history client {} lateReader) (final client {} lateReader) ∧
    (∃ e ∈ history client {} lateReader, ∃ msg ∈ e.before.held,
      .observed msg [5, 6, 7, 8] ∈ e.emitted ∧
      e.before.arrived[msg.frame]? = some (transactionFrame [1, 2, 3, 4]) ∧
      msg.message.data.bytes (transactionFrame [1, 2, 3, 4]) = [1, 2, 3, 4]) ∧
    ¬ ∀ e ∈ history client {} lateReader, Intact e := by
  have hread : ∃ e ∈ history client {} lateReader, ∃ msg ∈ e.before.held,
      .observed msg [5, 6, 7, 8] ∈ e.emitted ∧
      e.before.arrived[msg.frame]? = some (transactionFrame [1, 2, 3, 4]) ∧
      msg.message.data.bytes (transactionFrame [1, 2, 3, 4]) = [1, 2, 3, 4] := by decide +kernel
  refine ⟨path_history client lateReader {}, hread, fun hintact => ?_⟩
  obtain ⟨e, he, msg, -, hobs, harrived, hpayload⟩ := hread
  obtain ⟨frame, hparsed, hbytes⟩ := hintact e he msg [5, 6, 7, 8] hobs
  have hframe : frame = transactionFrame [1, 2, 3, 4] :=
    Option.some.inj (hparsed.1.symm.trans harrived)
  rw [hframe, hpayload] at hbytes
  exact absurd hbytes (by decide)

end Binderd.Clients.Payloads
