import Binderd.Broker.Delivery
import Binderd.Broker.Reading

/-! # One answer for each request

A client that has sent a request waits for a Status with the cookie of the request. `ProcessMessage`
writes one to it, and no other Status, whichever handler the request goes to and whatever else the
handler writes, to whomever (`answered_once`). A reply is no request: the only Status that may be
written then is the reply itself, on its way to the caller. A Transaction that lists an object and
has no data is never answered (`Crashes`). -/

namespace Binderd.Broker.Answers

open Binderd.Lib.Runs Binderd.Wire.Streams Binderd.Wire.Messages Binderd.Wire.Transactions
open Binderd.Broker.State Binderd.Broker.Handles Binderd.Broker.Sessions Binderd.Broker.Effects
open Binderd.Broker.Translation Binderd.Broker.Delivery Binderd.Broker.Reading

/-- The Status messages that are written to the session. -/
def statusesTo (s : SessionId) (ws : List Write) : List Write :=
  ws.filter fun w => decide (w.session = s ∧ w.message.type = .status)

/-- The writes answer the message of the session `s`: there is one Status for it, with its
cookie. -/
def Answered (s : SessionId) (msg : Message) (ws : List Write) : Prop :=
  ∃ status, statusesTo s ws = [⟨s, statusMessage msg status, .sendStatus msg status⟩]

/-- A type that `ProcessMessage` takes for a reply. -/
def IsReply (t : MessageType) : Prop := t = .status ∨ t = .transactionReply

instance : DecidablePred IsReply := fun _ => inferInstanceAs (Decidable (_ ∨ _))

/-! ### What the handlers write -/

theorem statusesTo_append (s : SessionId) (ws ws' : List Write) :
    statusesTo s (ws ++ ws') = statusesTo s ws ++ statusesTo s ws' := List.filter_append ..

theorem statusesTo_forwardToMonitor (s : SessionId) (st : ServerState) (msg : Message) :
    statusesTo s (forwardToMonitor st msg) = [] := by
  refine List.filter_eq_nil_iff.mpr fun w hw => ?_
  rw [(mem_forwardToMonitor hw).2]
  simp

theorem statusesTo_writeMessage {s t : SessionId} {st : ServerState} {msg : Message}
    {source : Source} (h : msg.type ≠ .status) :
    statusesTo s (writeMessage st t msg source) = [] := by
  have hlog := statusesTo_forwardToMonitor s st msg
  unfold statusesTo at hlog ⊢
  rw [writeMessage, List.filter_cons_of_neg (by simp [h]), hlog]

theorem answers_sendStatus (s : SessionId) (st : ServerState) (msg : Message) (status : Status) :
    Answered s msg (sendStatus st s msg status) := by
  refine ⟨status, ?_⟩
  have hlog := statusesTo_forwardToMonitor s st (statusMessage msg status)
  unfold statusesTo at hlog ⊢
  rw [sendStatus, writeMessage, List.filter_cons_of_pos (by simp)]
  exact congrArg _ hlog

theorem Answered.append {s : SessionId} {msg : Message} {ws ws' : List Write}
    (h : Answered s msg ws') (hn : statusesTo s ws = []) : Answered s msg (ws ++ ws') := by
  obtain ⟨status, hs⟩ := h
  exact ⟨status, by rw [statusesTo_append, hn, hs, List.nil_append]⟩

theorem answers_onTransaction {st : ServerState} {s : SessionId} {msg : Message}
    {beyond : List UInt8} {r : ServerState × List Write} (hs : st.Live s)
    (ht : msg.type = .transaction) (h : onTransaction st s msg beyond = some r) :
    Answered s msg r.2 := by
  rcases (onTransaction_effect hs ht h).transaction ht with ⟨d, -, hws⟩ | ⟨status, -, hws, -⟩
  · rw [hws, Delivery.writes]
    exact (answers_sendStatus ..).append
      (statusesTo_writeMessage (by simp [Delivery.message, newMessage]))
  · rw [hws]
    exact answers_sendStatus ..

theorem answers_onSetContextManager (st : ServerState) (s : SessionId) (msg : Message) :
    Answered s msg (onSetContextManager st s msg).2 := by
  unfold onSetContextManager
  cases st.registry.contextMgr with
  | none => exact (answers_sendStatus ..).append (statusesTo_forwardToMonitor ..)
  | some t => exact (answers_sendStatus ..).append (statusesTo_forwardToMonitor ..)

theorem answers_onSetMonitor (st : ServerState) (s : SessionId) (msg : Message) :
    Answered s msg (onSetMonitor st s msg).2 := by
  unfold onSetMonitor
  cases st.registry.monitor with
  | none => exact answers_sendStatus ..
  | some t => exact answers_sendStatus ..

theorem answers_onReference {st : ServerState} {s : SessionId} {msg : Message}
    {r : ServerState × List Write} (h : onReference st s msg = .ok r) : Answered s msg r.2 := by
  simp only [onReference, BinaryReader.readUint64, bind, Except.bind] at h
  cases hv : (BinaryReader.mk msg.data 0 true).readValue 8 with
  | error e =>
    rw [hv] at h
    cases h
  | ok v =>
    rw [hv] at h
    cases h
    exact answers_sendStatus ..

theorem answers_onDeathNotification {st : ServerState} {s : SessionId} {msg : Message}
    {r : ServerState × List Write} (h : onDeathNotification st s msg = .ok r) :
    Answered s msg r.2 := by
  simp only [onDeathNotification, BinaryReader.readUint64, bind, Except.bind] at h
  cases hv : (BinaryReader.mk msg.data 0 true).readValue 8 with
  | error e =>
    rw [hv] at h
    cases h
  | ok v =>
    simp only [hv] at h
    cases hv' : v.2.readValue 8 with
    | error e =>
      rw [hv'] at h
      cases h
    | ok v' =>
      rw [hv'] at h
      cases h
      exact answers_sendStatus ..

/-- A reply is forwarded, or nothing is written. -/
theorem status_of_onReply {st : ServerState} {s : SessionId} {msg : Message} {w : Write}
    (hw : w ∈ (onReply st s msg).2) (ht : w.message.type = .status) :
    ∃ record, w = ⟨record.caller, { msg with cookie := record.replyCookie }, .onReply record⟩ := by
  unfold onReply at hw
  cases h : (st.sessions s).pendingTransactions.lookup msg.cookie with
  | none =>
    rw [h] at hw
    cases hw
  | some record =>
    rw [h] at hw
    rcases mem_writeMessage.mp hw with rfl | hw
    · exact ⟨record, rfl⟩
    · rw [(mem_forwardToMonitor hw).2] at ht
      cases ht

/-! ### The answer -/

theorem answers_processMessage {st : ServerState} {s : SessionId} {msg : Message}
    {beyond : List UInt8} {r : ServerState × List Write} (hs : st.Live s)
    (h : processMessage st s msg beyond = .ok r) (hn : ¬ IsReply msg.type) :
    Answered s msg r.2 := by
  unfold processMessage at h
  split at h
  · cases h; exact answers_onSetContextManager ..
  · cases h; exact answers_onSetMonitor ..
  · next ht =>
    split at h
    · cases h
    · next hr =>
      cases h
      exact answers_onTransaction hs ht hr
  · next ht => exact absurd (.inl ht) hn
  · next ht => exact absurd (.inr ht) hn
  · exact answers_onReference (ok_of_mapError h)
  · exact answers_onReference (ok_of_mapError h)
  · exact answers_onDeathNotification (ok_of_mapError h)
  · exact answers_onDeathNotification (ok_of_mapError h)
  · cases h; exact answers_sendStatus ..

/-- **One answer.** `ProcessMessage` of a message whose data hold what its handler reads, with no
object listed for no data, returns. If the message is no reply, it writes one Status to the sender,
with the cookie of the message. If it is one, the only Status it may write is the message itself,
for the caller. -/
theorem answered_once {st : ServerState} {s : SessionId} (hs : st.Live s) (msg : Message)
    (beyond : List UInt8) (hdata : dataNeeded msg.type ≤ msg.data.length)
    (hnull : ¬ Crashes msg) :
    ∃ r, processMessage st s msg beyond = .ok r ∧
      (¬ IsReply msg.type → Answered s msg r.2) ∧
      (IsReply msg.type → ∀ w ∈ r.2, w.message.type = .status → ∃ record,
        w = ⟨record.caller, { msg with cookie := record.replyCookie }, .onReply record⟩) := by
  obtain ⟨r, hp⟩ := (processMessage_ok_iff st s msg beyond).mpr ⟨hdata, hnull⟩
  refine ⟨r, hp, answers_processMessage hs hp, fun hr w hw ht => ?_⟩
  have hreply : processMessage st s msg beyond = .ok (onReply st s msg) := by
    rcases hr with hr | hr <;> simp only [processMessage, hr]
  rw [hreply] at hp
  cases hp
  exact status_of_onReply hw ht

/-- Session `0` is the context manager and the monitor, and sends a transaction to itself. -/
def selfScenario : List Action :=
  [.accept, .process 0 { type := .setContextMgr } [], .process 0 { type := .setMonitor } []]

theorem answered_once_selfScenario :
    (final server {} selfScenario).Live 0 ∧
      ∃ r, processMessage (final server {} selfScenario) 0 (transactMessage 0 5 1 [1, 2, 3] []) [] =
        .ok r ∧ r.2.length = 4 ∧ Answered 0 (transactMessage 0 5 1 [1, 2, 3] []) r.2 := by
  have hlive : (final server {} selfScenario).Live 0 := by decide +kernel
  obtain ⟨r, hr, hanswer, -⟩ :=
    answered_once hlive (transactMessage 0 5 1 [1, 2, 3] []) [] (by decide +kernel)
      (by decide +kernel)
  refine ⟨hlive, r, hr, ?_, hanswer (by decide +kernel)⟩
  have hlen : (processMessage (final server {} selfScenario) 0
      (transactMessage 0 5 1 [1, 2, 3] []) []).map (·.2.length) = .ok 4 := by decide +kernel
  rw [hr] at hlen
  exact Except.ok.inj hlen

end Binderd.Broker.Answers
