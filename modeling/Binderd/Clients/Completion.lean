import Binderd.Clients.Calls
import Binderd.Wire.Transactions

/-! # Calls are completed once

The client against a server that answers each request with one Status, and a transaction it has
accepted with at most one reply more. `set_value` is called for a message under whose cookie a call
is pending, unless the message only acknowledges the call, and the call stays in `pending_calls_`
until the strand runs `FinishCall`.

A two-way call is completed by its reply, the acknowledgement before it being skipped. A one-way
call is completed by the acknowledgement, so its reply (which comes all the same: the callee does
not look at the flag) must not find the call any more; and an answer must be read with the cookie it
was sent with. `completed_once` has the two as its conditions, `OneWayReplyLate` and `AnswerFits`.

The machine `exchange` emits the numbers of the promises on which `set_value` is called. Frames that
answer no request may arrive as well. They can bear any cookie, and `completed_once` has as its
third condition, `DeliveredAside`, that no call is pending under it. -/

namespace Binderd.Clients.Completion

open Binderd.Lib.Bytes Binderd.Lib.Tables Binderd.Lib.Runs
open Binderd.Wire.Streams Binderd.Wire.Messages Binderd.Wire.Transactions
open Binderd.Clients.Calls

/-! ### Calls of `set_value` -/

/-- The promise on which `set_value` is called for a message. -/
def setValueOf (st : ClientState) (incoming : Incoming) : Option ℕ :=
  if incoming.message.type = .logEntry then none
  else
    match st.pendingCalls.lookup incoming.message.cookie with
    | none => none
    | some call =>
      match acknowledges incoming.message call st.body with
      | .ok false => some call.promise
      | _ => none

/-- The promises on which the loop of `OnNewMessage` calls `set_value`. -/
def setValues (st : ClientState) : List Incoming → List ℕ
  | [] => []
  | incoming :: rest =>
    (setValueOf st incoming).toList ++
      match handleMessage st incoming with
      | (_, some _) => []
      | (st, none) => setValues st rest

/-- The promises on which `OnNewMessage` calls `set_value`. -/
def completed (st : ClientState) (frame : List UInt8) : List ℕ :=
  setValues (fillBody st frame) (messagesOf frame st.arrived.length)

/-! ### The machine -/

/-- What the server has sent for a request. -/
inductive Phase where
  | unanswered
  /-- The Status of a transaction that was accepted: a reply may follow. -/
  | accepted
  | answered
deriving DecidableEq

/-- A request, as the server received it. -/
structure Request where
  message : Message
  oneWay : Bool
  phase : Phase := .unanswered
deriving DecidableEq

/-- The phase after the server has sent `msg` for the request; `none` if it does not. A Status is a
number of four bytes, and a reply that is forwarded is of either type, whichever the callee sent. -/
def Request.after (r : Request) (msg : Message) : Option Phase :=
  if msg.cookie = r.message.cookie then
    match r.phase with
    | .unanswered =>
      if msg.type = .status ∧ 4 ≤ msg.data.length then
        some (if r.message.type = .transaction ∧ load (ofList msg.data) 0 4 = 0 then .accepted
          else .answered)
      else none
    | .accepted =>
      if msg.type = .transactionReply ∨ msg.type = .status ∧ 4 ≤ msg.data.length then
        some .answered
      else none
    | .answered => none
  else none

/-- The client and its requests. A request has the number of its promise. -/
structure Exchange where
  client : ClientState := {}
  requests : List Request := []

/-- What can happen between the client and the server. -/
inductive ExchangeAction where
  /-- The client or one of its users acts. -/
  | act (a : ClientAction)
  /-- The server sends a message for a request. -/
  | answer (i : ℕ) (msg : Message)
  /-- A frame arrives that answers no request. -/
  | deliver (frame : List UInt8)
deriving DecidableEq

/-- The request that an action sends. -/
def sent (a : ClientAction) (events : List ClientEvent) : List Request :=
  match a, events with
  | .startCall _ oneWay, [.send msg] => [{ message := msg, oneWay := oneWay }]
  | _, _ => []

/-- One step of the exchange. The client gets its frames from the server alone. -/
def exchangeStep (x : Exchange) : ExchangeAction → Option (Exchange × List ℕ)
  | .act (.frame _) => none
  | .act a =>
    (clientStep x.client a).map fun r => (⟨r.1, x.requests ++ sent a r.2⟩, [])
  | .answer i msg =>
    x.requests[i]?.bind fun r =>
    (r.after msg).bind fun phase =>
    (clientStep x.client (.frame (pack msg))).map fun c =>
      (⟨c.1, x.requests.set i { r with phase := phase }⟩, completed x.client (pack msg))
  | .deliver frame =>
    (clientStep x.client (.frame frame)).map fun c =>
      (⟨c.1, x.requests⟩, completed x.client frame)

/-- **The client and the server that answers it.** -/
def exchange : Machine Exchange ExchangeAction ℕ := ⟨{}, exchangeStep⟩

/-- The steps of the exchange, as its histories record them. -/
abbrev ExchangeStep := Transition Exchange ExchangeAction ℕ

/-- If the step brings the reply to a one-way call, no call is pending under its cookie any more. -/
def OneWayReplyLate (e : ExchangeStep) : Prop :=
  ∀ i ∈ (match e.action with | .answer i _ => [i] | _ => []),
    ∀ r ∈ e.before.requests[i]?, r.phase = .accepted → r.oneWay = true →
      r.message.cookie ∉ e.before.client.pendingCalls

instance (e : ExchangeStep) : Decidable (OneWayReplyLate e) := by
  unfold OneWayReplyLate; infer_instance

/-- If the step brings an answer, the client reads it as it was sent. -/
def AnswerFits (e : ExchangeStep) : Prop :=
  match e.action with
  | .answer _ msg => Representable msg
  | _ => True

instance : DecidablePred AnswerFits
  | ⟨_, .answer _ msg, _, _⟩ => inferInstanceAs (Decidable (Representable msg))
  | ⟨_, .act _, _, _⟩ => isTrue trivial
  | ⟨_, .deliver _, _, _⟩ => isTrue trivial

/-- If the step brings a frame that answers no request, no call is pending under the cookies of its
messages, which a LogEntry may bear all the same. -/
def DeliveredAside (e : ExchangeStep) : Prop :=
  match e.action with
  | .deliver frame => ∀ msg ∈ (parse frame).1,
      msg.type = .logEntry ∨ msg.cookie ∉ e.before.client.pendingCalls
  | _ => True

instance : DecidablePred DeliveredAside
  | ⟨x, .deliver frame, _, _⟩ => inferInstanceAs (Decidable (∀ msg ∈ (parse frame).1,
      msg.type = .logEntry ∨ msg.cookie ∉ x.client.pendingCalls))
  | ⟨_, .act _, _, _⟩ => isTrue trivial
  | ⟨_, .answer .., _, _⟩ => isTrue trivial

/-! ### The handling of one message -/

/-- The message is an acknowledgement, and `OnNewMessage` waits on. -/
def Skipped (call : PendingCall) (msg : Received) (payload : List UInt8) : Prop :=
  msg.type = .status ∧ call.msgType = .transaction ∧ call.oneWay = false ∧ byteOf payload 0 = 0

theorem acknowledges_of_length {msg : Received} (call : PendingCall) {body : List UInt8}
    (hs : msg.type = .status → 4 ≤ (msg.data.bytes body).length) :
    (Skipped call msg (msg.data.bytes body) ∧ acknowledges msg call body = .ok true) ∨
      (¬ Skipped call msg (msg.data.bytes body) ∧ acknowledges msg call body = .ok false) := by
  unfold acknowledges Skipped
  split_ifs with h
  · obtain ⟨ht, hc, ho⟩ := h
    have hr := BinaryReader.readValue_of_le (r := ⟨msg.data.bytes body, 0, true⟩) (w := 4)
      (by simpa using hs ht)
    simp only [BinaryReader.readInt32, hr, bind, Except.bind, pure, Except.pure]
    by_cases h0 : byteOf (msg.data.bytes body) 0 = 0
    · refine .inl ⟨⟨ht, hc, by simpa using ho, h0⟩, ?_⟩
      simpa [byteOf] using h0
    · refine .inr ⟨fun hsk => h0 hsk.2.2.2, ?_⟩
      simpa [byteOf] using h0
  · refine .inr ⟨?_, rfl⟩
    rintro ⟨ht, hc, ho, -⟩
    exact h ⟨ht, hc, by simpa using ho⟩

/-- A message for a call whose promise is empty: it is skipped, or fulfils the promise. -/
theorem handleMessage_pending (st : ClientState) (incoming : Incoming) {call : PendingCall}
    (hlog : incoming.message.type ≠ .logEntry)
    (hl : st.pendingCalls.lookup incoming.message.cookie = some call)
    (hs : incoming.message.type = .status → 4 ≤ (incoming.message.data.bytes st.body).length)
    (hempty : st.promises call.promise = none) :
    (Skipped call incoming.message (incoming.message.data.bytes st.body) ∧
      setValueOf st incoming = none ∧ handleMessage st incoming = (st, none)) ∨
    (¬ Skipped call incoming.message (incoming.message.data.bytes st.body) ∧
      setValueOf st incoming = some call.promise ∧ handleMessage st incoming = ({ st with
        promises := Function.update st.promises call.promise (some incoming)
        tasks := st.tasks ++ [.finishCall incoming.message.cookie] }, none)) := by
  rcases acknowledges_of_length call hs with ⟨hsk, ha⟩ | ⟨hsk, ha⟩
  · exact .inl ⟨hsk, by simp [setValueOf, hlog, hl, ha], by simp [handleMessage, hlog, hl, ha]⟩
  · exact .inr ⟨hsk, by simp [setValueOf, hlog, hl, ha],
      by simp [handleMessage, hlog, hl, ha, hempty]⟩

/-- The cookies of the calls that the strand will finish. -/
def finishes (tasks : List Task) : List ℕ :=
  tasks.filterMap fun
    | .finishCall cookie => some cookie
    | .handleContextObjectMessage _ => none

/-- What the bookkeeping of the calls depends on. -/
structure SameCalls (c c' : ClientState) : Prop where
  pendingCalls : c'.pendingCalls = c.pendingCalls
  promises : c'.promises = c.promises
  finishes : finishes c'.tasks = finishes c.tasks
  started : c'.started = c.started

theorem SameCalls.trans {c c' c'' : ClientState} (h : SameCalls c c') (h' : SameCalls c' c'') :
    SameCalls c c'' :=
  ⟨h'.pendingCalls.trans h.pendingCalls, h'.promises.trans h.promises,
    h'.finishes.trans h.finishes, h'.started.trans h.started⟩

/-- A message under whose cookie no call is pending leaves the calls alone. -/
theorem handleMessage_aside {st : ClientState} {incoming : Incoming}
    (h : incoming.message.type = .logEntry ∨ incoming.message.cookie ∉ st.pendingCalls) :
    setValueOf st incoming = none ∧ SameCalls st (handleMessage st incoming).1 := by
  by_cases hlog : incoming.message.type = .logEntry
  · refine ⟨by simp [setValueOf, hlog], ?_⟩
    have hst : (handleMessage st incoming).1 = st := by
      simp only [handleMessage, hlog, if_true]
      split_ifs
      · cases loggedMessage incoming.message st.body <;> rfl
      · rfl
    rw [hst]
    exact ⟨rfl, rfl, rfl, rfl⟩
  · have hnone := AList.lookup_eq_none.mpr (h.resolve_left hlog)
    refine ⟨by simp [setValueOf, hlog, hnone], ?_⟩
    simp only [handleMessage, hlog, if_false, hnone]
    split_ifs
    · exact ⟨rfl, rfl, by simp [finishes], rfl⟩
    · exact ⟨rfl, rfl, rfl, rfl⟩

theorem handleMessages_aside (msgs : List Incoming) (st : ClientState)
    (h : ∀ m ∈ msgs, m.message.type = .logEntry ∨ m.message.cookie ∉ st.pendingCalls) :
    setValues st msgs = [] ∧ SameCalls st (handleMessages st msgs).1 := by
  induction msgs generalizing st with
  | nil => exact ⟨rfl, rfl, rfl, rfl, rfl⟩
  | cons incoming rest ih =>
    obtain ⟨hset, hsame⟩ := handleMessage_aside (h incoming (by simp))
    rw [setValues, handleMessages, hset]
    generalize handleMessage st incoming = r at hsame ⊢
    obtain ⟨st', _ | e⟩ := r
    · have hrest : ∀ m ∈ rest, m.message.type = .logEntry ∨
          m.message.cookie ∉ st'.pendingCalls := by
        intro m hm
        have hp : st'.pendingCalls = st.pendingCalls := hsame.pendingCalls
        rw [hp]
        exact h m (by simp [hm])
      obtain ⟨hset', hsame'⟩ := ih st' hrest
      exact ⟨by simp [hset'], hsame.trans hsame'⟩
    · exact ⟨rfl, hsame⟩

/-- A frame under whose cookies no call is pending leaves the calls alone. -/
theorem onNewMessage_aside {st : ClientState} {frame : List UInt8}
    (h : ∀ msg ∈ (parse frame).1, msg.type = .logEntry ∨ msg.cookie ∉ st.pendingCalls) :
    completed st frame = [] ∧ SameCalls st (onNewMessage st frame) := by
  obtain ⟨hset, hsame⟩ := handleMessages_aside (messagesOf frame st.arrived.length)
    (fillBody st frame) (by
      intro m hm
      obtain ⟨msg, hmsg, rfl⟩ := List.mem_map.mp hm
      exact h msg hmsg)
  obtain ⟨reading, hn⟩ := onNewMessage_eq st frame
  refine ⟨hset, ?_⟩
  rw [hn]
  exact ⟨hsame.pendingCalls, hsame.promises, hsame.finishes, hsame.started⟩

/-- The message as the parser finds it in its packed form. -/
def received (msg : Message) : Received :=
  ⟨msg.type, msg.destination, msg.cookie, ⟨24, msg.data.length⟩⟩

/-- A message that is read as it was sent, and handled without an exception. -/
theorem onNewMessage_single {st st' : ClientState} {msg : Message} (hfit : Representable msg)
    (hh : handleMessage (fillBody st (pack msg)) ⟨received msg, st.arrived.length⟩ =
      (st', none)) :
    onNewMessage st (pack msg) = { st' with reading := true } ∧
      completed st (pack msg) =
        (setValueOf (fillBody st (pack msg)) ⟨received msg, st.arrived.length⟩).toList := by
  have hparse : parse (pack msg) = ([received msg], none) := parse_pack hfit
  constructor
  · simp [onNewMessage, hparse, handleMessages, hh]
  · simp [completed, messagesOf, hparse, setValues, hh]

/-! ### The invariant -/

/-- The client waits for a message for the request. -/
def Request.Waiting (r : Request) : Prop :=
  r.phase = .unanswered ∨ r.phase = .accepted ∧ r.oneWay = false

/-- `done` lists the promises on which `set_value` was called. A request the client waits for has
its call in the table, and its promise is empty; a call that will be finished has a promise with a
value. -/
structure Consistent (x : Exchange) (done : List ℕ) : Prop where
  nodup : done.Nodup
  lt : ∀ p ∈ done, p < x.requests.length
  promises : ∀ p, p ∉ done → x.client.promises p = none
  numbered : x.requests.length = x.client.started.length
  waiting : ∀ i r, x.requests[i]? = some r → r.Waiting → i ∉ done ∧
    x.client.pendingCalls.lookup r.message.cookie = some ⟨i, r.message.type, r.oneWay⟩
  finishing : ∀ k ∈ finishes x.client.tasks, ∃ call,
    x.client.pendingCalls.lookup k = some call ∧ call.promise ∈ done
  finishOnce : (finishes x.client.tasks).Nodup

namespace Consistent

variable {x : Exchange} {done : List ℕ} {c : ClientState}

theorem congr (h : Consistent x done) (hs : SameCalls x.client c) :
    Consistent ⟨c, x.requests⟩ done where
  nodup := h.nodup
  lt := h.lt
  promises := by simpa only [hs.promises] using h.promises
  numbered := by simpa only [hs.started] using h.numbered
  waiting := by simpa only [hs.pendingCalls] using h.waiting
  finishing := by simpa only [hs.pendingCalls, hs.finishes] using h.finishing
  finishOnce := by simpa only [hs.finishes] using h.finishOnce

/-- A call is started under a cookie that is not in use. -/
theorem start (h : Consistent x done) {k : ℕ} (hk : k ∉ x.client.pendingCalls) {n : ℕ}
    {msg : Message} (hmsg : msg.cookie = k) (oneWay : Bool) :
    Consistent ⟨{ x.client with
      nextCookie := n
      pendingCalls :=
        insertNew x.client.pendingCalls k ⟨x.client.started.length, msg.type, oneWay⟩
      started := x.client.started ++ [msg] },
      x.requests ++ [{ message := msg, oneWay := oneWay }]⟩ done := by
  have hnew : x.requests.length ∉ done := fun hd => lt_irrefl _ (h.lt _ hd)
  refine ⟨h.nodup, fun p hp => ?_, h.promises, by simp [h.numbered], ?_, ?_, h.finishOnce⟩
  · have := h.lt p hp
    rw [List.length_append]
    omega
  · intro i r hi hw
    rcases getElem?_snoc_iff.mp hi with hi | ⟨rfl, rfl⟩
    · obtain ⟨hd, hl⟩ := h.waiting i r hi hw
      exact ⟨hd, lookup_insertNew_of_some hl⟩
    · refine ⟨hnew, ?_⟩
      simp only
      rw [hmsg, lookup_insertNew_self hk, h.numbered]
  · intro k' hk'
    obtain ⟨call, hl, hd⟩ := h.finishing k' hk'
    exact ⟨call, lookup_insertNew_of_some hl, hd⟩

theorem finish (h : Consistent x done) {k : ℕ} {rest : List Task}
    (ht : x.client.tasks = .finishCall k :: rest) :
    Consistent ⟨{ x.client with
      tasks := rest
      pendingCalls := x.client.pendingCalls.erase k }, x.requests⟩ done := by
  have hf : finishes x.client.tasks = k :: finishes rest := by rw [ht]; rfl
  have honce := h.finishOnce
  rw [hf, List.nodup_cons] at honce
  obtain ⟨call, hcall, hdone⟩ := h.finishing k (by simp [hf])
  refine ⟨h.nodup, h.lt, h.promises, h.numbered, ?_, ?_, honce.2⟩
  · intro i r hi hw
    obtain ⟨hd, hl⟩ := h.waiting i r hi hw
    refine ⟨hd, lookup_erase_eq_some.mpr ⟨?_, hl⟩⟩
    -- the call under `k` has its value, the one of a request that is waited for has not
    intro hk
    rw [hk, hcall] at hl
    rw [Option.some.inj hl] at hdone
    exact hd hdone
  · intro k' hk'
    obtain ⟨call', hl, hd⟩ := h.finishing k' (by simp [hf, show k' ∈ finishes rest from hk'])
    refine ⟨call', lookup_erase_eq_some.mpr ⟨?_, hl⟩, hd⟩
    intro hkk
    rw [hkk] at hk'
    exact honce.1 hk'

/-- The server gets on with a request, and the calls of the client stay as they are. -/
theorem advance (h : Consistent x done) (hs : SameCalls x.client c) {i : ℕ} {r : Request}
    (hi : x.requests[i]? = some r) (phase : Phase)
    (hw : Request.Waiting { r with phase := phase } → r.Waiting) :
    Consistent ⟨c, x.requests.set i { r with phase := phase }⟩ done := by
  have hc := h.congr hs
  refine ⟨hc.nodup, fun p hp => ?_, hc.promises, ?_, ?_, hc.finishing, hc.finishOnce⟩
  · rw [List.length_set]
    exact hc.lt p hp
  · rw [List.length_set]
    exact hc.numbered
  · intro j r' hj hw'
    rw [List.getElem?_set] at hj
    split_ifs at hj with hij hlt
    · subst hij
      cases hj
      exact hc.waiting i r hi (hw hw')
    · exact hc.waiting j r' hj hw'

/-- The server gets on with a request, and the client calls `set_value` on its promise. -/
theorem complete (h : Consistent x done) {i : ℕ} {r : Request} (hi : x.requests[i]? = some r)
    (hwait : r.Waiting) {phase : Phase} (hw : ¬ Request.Waiting { r with phase := phase })
    (incoming : Incoming) {st : ClientState} (hs : SameCalls x.client st) :
    Consistent ⟨{ st with
      promises := Function.update st.promises i (some incoming)
      tasks := st.tasks ++ [.finishCall r.message.cookie] },
      x.requests.set i { r with phase := phase }⟩ (done ++ [i]) := by
  obtain ⟨hnot, hl⟩ := h.waiting i r hi hwait
  have hfin : finishes (st.tasks ++ [.finishCall r.message.cookie]) =
      finishes x.client.tasks ++ [r.message.cookie] := by
    rw [← hs.finishes]
    simp [finishes]
  have ha := h.advance hs hi phase fun hw' => absurd hw' hw
  refine ⟨?_, fun p hp => ?_, fun p hp => ?_, ha.numbered, ?_, ?_, ?_⟩
  · rw [← List.concat_eq_append]
    exact h.nodup.concat hnot
  · rw [List.length_set]
    rcases List.mem_append.mp hp with hp | hp
    · exact h.lt p hp
    · rw [List.mem_singleton.mp hp]
      exact lt_length_of_getElem? hi
  · rw [List.mem_append, List.mem_singleton, not_or] at hp
    simp only
    rw [Function.update_of_ne hp.2]
    exact ha.promises p hp.1
  · intro j r' hj hw'
    obtain ⟨hd, hl'⟩ := ha.waiting j r' hj hw'
    refine ⟨?_, hl'⟩
    rw [List.mem_append, List.mem_singleton, not_or]
    refine ⟨hd, ?_⟩
    rintro rfl
    -- the request that was completed is not waited for any more
    rw [List.getElem?_set_self (lt_length_of_getElem? hi)] at hj
    cases hj
    exact hw hw'
  · intro k hk
    rw [hfin, List.mem_append, List.mem_singleton] at hk
    rw [hs.pendingCalls]
    rcases hk with hk | rfl
    · obtain ⟨call, hc, hd⟩ := h.finishing k hk
      exact ⟨call, hc, List.mem_append_left _ hd⟩
    · exact ⟨_, hl, by simp⟩
  · rw [hfin, ← List.concat_eq_append]
    refine h.finishOnce.concat fun hk => ?_
    -- a call that will be finished has its value already
    obtain ⟨call, hc, hd⟩ := h.finishing _ hk
    rw [hl] at hc
    rw [← Option.some.inj hc] at hd
    exact hnot hd

theorem act (h : Consistent x done) {a : ClientAction} {es : List ClientEvent}
    (he : ClientEffect x.client a c es) (hf : ∀ bytes, a ≠ .frame bytes) :
    Consistent ⟨c, x.requests ++ sent a es⟩ done := by
  have hquiet : SameCalls x.client c → sent a es = [] →
      Consistent ⟨c, x.requests ++ sent a es⟩ done := by
    intro hs hnone
    rw [hnone, List.append_nil]
    exact h.congr hs
  cases he with
  | received => exact absurd rfl (hf _)
  | started hk hn => exact h.start hn rfl _
  | finished ht =>
    have hfin := h.finish ht
    rwa [← List.append_nil x.requests] at hfin
  | @handled msg rest ht =>
    have hfin : finishes rest = finishes x.client.tasks := by rw [ht]; rfl
    exact hquiet ⟨rfl, rfl, hfin, rfl⟩ rfl
  | _ => exact hquiet ⟨rfl, rfl, rfl, rfl⟩ rfl

end Consistent

/-! ### The answers of the server -/

/-- What the server can send for a request. -/
theorem Request.after_some {r : Request} {msg : Message} {phase : Phase}
    (h : r.after msg = some phase) :
    msg.cookie = r.message.cookie ∧ (msg.type = .status ∨ msg.type = .transactionReply) ∧
      (msg.type = .status → 4 ≤ msg.data.length) ∧
      (r.phase = .unanswered ∧ msg.type = .status ∧
          phase = (if r.message.type = .transaction ∧ load (ofList msg.data) 0 4 = 0
            then .accepted else .answered) ∨
        r.phase = .accepted ∧ phase = .answered) := by
  unfold Request.after at h
  by_cases hc : msg.cookie = r.message.cookie
  · rw [if_pos hc] at h
    cases hp : r.phase with
    | unanswered =>
      simp only [hp] at h
      split_ifs at h with ht hacc
      · cases h
        exact ⟨hc, .inl ht.1, fun _ => ht.2, .inl ⟨rfl, ht.1, (if_pos hacc).symm⟩⟩
      · cases h
        exact ⟨hc, .inl ht.1, fun _ => ht.2, .inl ⟨rfl, ht.1, (if_neg hacc).symm⟩⟩
    | accepted =>
      simp only [hp] at h
      split_ifs at h with ht
      cases h
      refine ⟨hc, ht.symm.imp And.left id, fun hs => ?_, .inr ⟨rfl, rfl⟩⟩
      rcases ht with ht | ht
      · rw [ht] at hs
        cases hs
      · exact ht.2
    | answered =>
      simp only [hp] at h
      cases h
  · rw [if_neg hc] at h
    cases h

/-- A request that is waited for and whose answer is not skipped is not waited for any more. -/
theorem not_waiting_after {r : Request} {msg : Message} {phase : Phase}
    (h : r.after msg = some phase) {i : ℕ}
    (hs : ¬ Skipped ⟨i, r.message.type, r.oneWay⟩ (received msg) msg.data) :
    ¬ Request.Waiting { r with phase := phase } := by
  obtain ⟨-, -, -, ⟨-, ht, rfl⟩ | ⟨-, rfl⟩⟩ := Request.after_some h
  · split_ifs with hacc
    · have hbyte : byteOf msg.data 0 = 0 := by
        have h := toNat_of_load_lt (m := ofList msg.data) (p := 0) (w := 3)
          (by rw [hacc.2]; norm_num)
        exact h.trans hacc.2
      rintro (hw | ⟨-, hw⟩)
      · cases hw
      · exact hs ⟨ht, hacc.1, hw, hbyte⟩
    · rintro (hw | ⟨hw, -⟩) <;> cases hw
  · rintro (hw | ⟨hw, -⟩) <;> cases hw

section Answer

variable {x : Exchange} {done : List ℕ} {i : ℕ} {r : Request} {msg : Message} {phase : Phase}

/-- The answer to a request that is waited for. -/
theorem Consistent.answerWaiting (h : Consistent x done) (hi : x.requests[i]? = some r)
    (hfit : Representable msg) (hp : r.after msg = some phase) (hw : r.Waiting) :
    Consistent ⟨onNewMessage x.client (pack msg), x.requests.set i { r with phase := phase }⟩
      (done ++ completed x.client (pack msg)) ∧
        (onNewMessage x.client (pack msg)).reading = true := by
  obtain ⟨hcookie, htype, hstatus, -⟩ := Request.after_some hp
  obtain ⟨hnot, hl⟩ := h.waiting i r hi hw
  have hlog : msg.type ≠ .logEntry := by
    rcases htype with ht | ht <;> rw [ht] <;> decide
  have hfill : SameCalls x.client (fillBody x.client (pack msg)) := ⟨rfl, rfl, rfl, rfl⟩
  have hl' : (fillBody x.client (pack msg)).pendingCalls.lookup (received msg).cookie =
      some ⟨i, r.message.type, r.oneWay⟩ := by
    rw [← hcookie] at hl
    exact hl
  have hbytes : (received msg).data.bytes (fillBody x.client (pack msg)).body = msg.data :=
    data_bytes_pack msg
  have hpending := handleMessage_pending (fillBody x.client (pack msg))
    ⟨received msg, x.client.arrived.length⟩ hlog hl' (by rw [hbytes]; exact hstatus)
    (h.promises i hnot)
  rw [hbytes] at hpending
  rcases hpending with ⟨-, hset, hh⟩ | ⟨hsk, hset, hh⟩
  · obtain ⟨hn, hc⟩ := onNewMessage_single hfit hh
    rw [hn, hc, hset]
    refine ⟨?_, rfl⟩
    have ha := h.advance hfill hi phase fun _ => hw
    simpa using ha.congr (c := { fillBody x.client (pack msg) with reading := true })
      ⟨rfl, rfl, rfl, rfl⟩
  · obtain ⟨hn, hc⟩ := onNewMessage_single hfit hh
    rw [hn, hc, hset]
    refine ⟨?_, rfl⟩
    have ha := h.complete hi hw (not_waiting_after hp hsk)
      ⟨received msg, x.client.arrived.length⟩ hfill
    rw [← hcookie] at ha
    exact ha.congr ⟨rfl, rfl, rfl, rfl⟩

/-- The reply to a one-way call that is not in the table any more. -/
theorem Consistent.answerLate (h : Consistent x done) (hi : x.requests[i]? = some r)
    (hfit : Representable msg) (hp : r.after msg = some phase) (hacc : r.phase = .accepted)
    (hlate : r.message.cookie ∉ x.client.pendingCalls) :
    Consistent ⟨onNewMessage x.client (pack msg), x.requests.set i { r with phase := phase }⟩
      (done ++ completed x.client (pack msg)) ∧
        (onNewMessage x.client (pack msg)).reading = true := by
  obtain ⟨hcookie, htype, -, hphase⟩ := Request.after_some hp
  have hlog : msg.type ≠ .logEntry ∧ msg.type ≠ .transaction := by
    rcases htype with ht | ht <;> rw [ht] <;> decide
  have hnone : x.client.pendingCalls.lookup msg.cookie = none := by
    rw [hcookie]
    exact AList.lookup_eq_none.mpr hlate
  have hset : setValueOf (fillBody x.client (pack msg))
      ⟨received msg, x.client.arrived.length⟩ = none := by
    simp [setValueOf, received, hlog.1, fillBody, hnone]
  have hh : handleMessage (fillBody x.client (pack msg))
      ⟨received msg, x.client.arrived.length⟩ = ({ fillBody x.client (pack msg) with
        inMessages := x.client.inMessages ++ [⟨received msg, x.client.arrived.length⟩] },
        none) := by
    simp [handleMessage, received, hlog.1, hlog.2, fillBody, hnone]
  have hanswered : phase = .answered := by
    rcases hphase with ⟨hun, -⟩ | ⟨-, ha⟩
    · rw [hacc] at hun
      cases hun
    · exact ha
  obtain ⟨hn, hc⟩ := onNewMessage_single hfit hh
  rw [hn, hc, hset]
  refine ⟨?_, rfl⟩
  have hw : Request.Waiting { r with phase := phase } → r.Waiting := by
    rw [hanswered]
    rintro (hw | ⟨hw, -⟩) <;> cases hw
  simpa using h.advance (c := { fillBody x.client (pack msg) with
    inMessages := x.client.inMessages ++ [⟨received msg, x.client.arrived.length⟩]
    reading := true }) ⟨rfl, rfl, rfl, rfl⟩ hi phase hw

theorem Consistent.answer (h : Consistent x done) (hi : x.requests[i]? = some r)
    (hfit : Representable msg) (hp : r.after msg = some phase)
    (hlate : r.phase = .accepted → r.oneWay = true →
      r.message.cookie ∉ x.client.pendingCalls) :
    Consistent ⟨onNewMessage x.client (pack msg), x.requests.set i { r with phase := phase }⟩
      (done ++ completed x.client (pack msg)) ∧
        (onNewMessage x.client (pack msg)).reading = true := by
  by_cases hw : r.Waiting
  · exact h.answerWaiting hi hfit hp hw
  · -- an answer that is not waited for is the reply to a one-way call
    have hacc : r.phase = .accepted := by
      obtain ⟨-, -, -, ⟨hun, -⟩ | ⟨ha, -⟩⟩ := Request.after_some hp
      · exact absurd (.inl hun) hw
      · exact ha
    have hone : r.oneWay = true := by
      by_contra hone
      exact hw (.inr ⟨hacc, by simpa using hone⟩)
    exact h.answerLate hi hfit hp hacc (hlate hacc hone)

end Answer

/-! ### Runs -/

/-- **What a step does**: `set_value` is called on empty promises only, and an answer leaves the
client reading. -/
theorem Consistent.step {done : List ℕ} {e : ExchangeStep} (h : Consistent e.before done)
    (hv : e.Valid exchange) (hfit : AnswerFits e) (hlate : OneWayReplyLate e)
    (haside : DeliveredAside e) : Consistent e.after (done ++ e.emitted) ∧
      ∀ i msg, e.action = .answer i msg → e.after.client.reading = true := by
  obtain ⟨x, a, out, x'⟩ := e
  cases a with
  | act a =>
    have hf : ∀ bytes, a ≠ .frame bytes := by
      rintro bytes rfl
      cases hv
    have hstep : (clientStep x.client a).map
        (fun r => ((⟨r.1, x.requests ++ sent a r.2⟩ : Exchange), ([] : List ℕ))) =
        some (x', out) := by
      cases a with
      | frame bytes => exact absurd rfl (hf bytes)
      | _ => exact hv
    obtain ⟨⟨c, es⟩, hc, hx⟩ := Option.map_eq_some_iff.mp hstep
    cases hx
    refine ⟨?_, fun i msg ha => by cases ha⟩
    simpa using h.act (clientStep_effect hc) hf
  | answer i msg =>
    change exchangeStep x (.answer i msg) = some (x', out) at hv
    obtain ⟨r, hi, hv⟩ := Option.bind_eq_some_iff.mp hv
    obtain ⟨phase, hp, hv⟩ := Option.bind_eq_some_iff.mp hv
    obtain ⟨c, hc, hx⟩ := Option.map_eq_some_iff.mp hv
    rw [clientStep_frame hc] at hx
    have hmsg : Representable msg := hfit
    have hanswer := h.answer hi hmsg hp fun hacc hone => hlate i (by simp) r hi hacc hone
    obtain ⟨rfl, rfl⟩ := Prod.mk.inj hx
    simp only
    exact ⟨hanswer.1, fun _ _ _ => hanswer.2⟩
  | deliver frame =>
    change exchangeStep x (.deliver frame) = some (x', out) at hv
    obtain ⟨c, hc, hx⟩ := Option.map_eq_some_iff.mp hv
    rw [clientStep_frame hc] at hx
    obtain ⟨hnone, hsame⟩ := onNewMessage_aside haside
    obtain ⟨rfl, rfl⟩ := Prod.mk.inj hx
    simp only
    rw [hnone, List.append_nil]
    exact ⟨h.congr hsame, fun i msg ha => by cases ha⟩

theorem consistent_of_run {h : List ExchangeStep} {x : Exchange} (hr : Run exchange h x)
    (hfit : ∀ e ∈ h, AnswerFits e) (hlate : ∀ e ∈ h, OneWayReplyLate e)
    (haside : ∀ e ∈ h, DeliveredAside e) : Consistent x (outputs h) := by
  refine Run.invariant (C := fun e => AnswerFits e ∧ OneWayReplyLate e ∧ DeliveredAside e)
    (P := fun h x => Consistent x (outputs h)) ?_ ?_ hr
    fun e he => ⟨hfit e he, hlate e he, haside e he⟩
  · exact ⟨by simp [outputs], by simp [outputs], fun _ _ => rfl, rfl, by simp [exchange],
      by simp [exchange, finishes], by simp [exchange, finishes]⟩
  · intro h e _ hc hv ⟨hf, hl, ha⟩
    have hstep := (hc.step hv hf hl ha).1
    rwa [outputs_snoc]

/-- **A call is completed at most once**, and every answer leaves the client reading, in every run
in which the client reads the answers as they were sent, the reply to a one-way call arrives when
`FinishCall` has run for it, and what answers no request bears no pending cookie. -/
theorem completed_once {h : List ExchangeStep} {x : Exchange} (hr : Run exchange h x)
    (hfit : ∀ e ∈ h, AnswerFits e) (hlate : ∀ e ∈ h, OneWayReplyLate e)
    (haside : ∀ e ∈ h, DeliveredAside e) :
    (outputs h).Nodup ∧ ∀ e ∈ h, ∀ i msg, e.action = .answer i msg →
      e.after.client.reading = true := by
  refine ⟨(consistent_of_run hr hfit hlate haside).nodup, fun e he => ?_⟩
  obtain ⟨h1, h2, rfl, hp, hv, -⟩ := hr.prefix_of_mem he
  have hc := consistent_of_run hp (fun e' he' => hfit e' (by simp [he']))
    (fun e' he' => hlate e' (by simp [he'])) fun e' he' => haside e' (by simp [he'])
  exact (hc.step hv (hfit e he) (hlate e he) (haside e he)).2

/-- The Status `OK` for the request with the cookie. -/
def statusOk (cookie : ℕ) : Message :=
  { type := .status, cookie := cookie, data := [0, 0, 0, 0] }

/-- A reply without data to the request with the cookie. -/
def emptyReply (cookie : ℕ) : Message := { type := .transactionReply, cookie := cookie }

/-- A one-way call whose reply comes after `FinishCall`, and a two-way call; in between, a frame of
no request. -/
def patientServer : List ExchangeAction :=
  [.act (.startCall { type := .transaction } true), .answer 0 (statusOk 0), .act .runTask,
    .answer 0 (emptyReply 0), .act (.startCall { type := .transaction } false),
    .answer 1 (statusOk 1), .deliver (pack (emptyReply 9)), .answer 1 (emptyReply 1)]

theorem completed_once_patientServer :
    outputs (history exchange {} patientServer) = [0, 1] ∧
      ((outputs (history exchange {} patientServer)).Nodup ∧
        ∀ e ∈ history exchange {} patientServer, ∀ i msg, e.action = .answer i msg →
          e.after.client.reading = true) :=
  ⟨by decide +kernel, completed_once (path_history exchange patientServer {}) (by decide +kernel)
    (by decide +kernel) (by decide +kernel)⟩

/-- A one-way call whose reply comes before `FinishCall`. -/
def promptServer : List ExchangeAction :=
  [.act (.startCall { type := .transaction } true), .answer 0 (statusOk 0),
    .answer 0 (emptyReply 0)]

/-- `set_value` is called twice on the promise of the one-way call, and the client stops reading. -/
theorem completed_twice :
    Run exchange (history exchange {} promptServer) (final exchange {} promptServer) ∧
      ¬ (outputs (history exchange {} promptServer)).Nodup ∧
      (final exchange {} promptServer).client.reading = false :=
  ⟨path_history exchange promptServer {}, by decide +kernel, by decide +kernel⟩

end Binderd.Clients.Completion
