import Binderd.Lib.Tables
import Binderd.Lib.Runs
import Binderd.Wire.Messages
import Mathlib.Logic.Function.Basic

/-! # `ClientImpl`

The client numbers its requests with `next_cookie_` and keeps a promise for each in
`pending_calls_`. It has one receive buffer, the `body_` of its messenger, which every frame
overwrites; the messages of a frame are views into it. `OnNewMessage` looks each of them up by its
cookie, whatever its type: if a call is pending under the cookie it fulfils the promise, else the
message goes to the context object or to `in_messages_`. The call itself is removed later, by a
handler on the strand.

The machine `client` is the client with its users, who start calls, take messages out and read
them. A promise is named by the number of its call (`started` lists the requests). What arrived is
kept in `arrived`, and a message with the number of the frame it was parsed from; the code has
neither, and no function looks at them.

An exception in a handler leaves `io_service::run` of a worker, which logs it and runs on; the read
that `OnNewMessage` did not get to start is not started any more (`reading`). -/

namespace Binderd.Clients.Calls

open Binderd.Lib.Tables Binderd.Lib.Runs
open Binderd.Wire.Streams Binderd.Wire.Messages

/-! ### The state -/

/-- `ClientImpl::PendingCall`, with the number of the promise. -/
structure PendingCall where
  promise : ℕ
  msgType : MessageType
  oneWay : Bool := false
deriving DecidableEq

/-- A message that was received, and the number of its frame. -/
structure Incoming where
  message : Received
  frame : ℕ
deriving DecidableEq

/-- A handler that was posted to the strand. -/
inductive Task where
  | finishCall (cookie : ℕ)
  | handleContextObjectMessage (msg : Incoming)
deriving DecidableEq

/-- What `ClientImpl` keeps of its calls, with the tasks that are posted to the strand. -/
structure ClientState where
  body : List UInt8 := []
  arrived : List (List UInt8) := []
  reading : Bool := true
  shouldExit : Bool := false
  nextCookie : ℕ := 0
  started : List Message := []
  pendingCalls : Table ℕ PendingCall := ∅
  promises : ℕ → Option Incoming := fun _ => none
  inMessages : List Incoming := []
  tasks : List Task := []
  /-- The messages that users of the client, or the context object, have taken. -/
  held : List Incoming := []
  contextObj : Bool := false
  logMessageHandler : Bool := false

/-! ### Calls -/

/-- `ClientImpl::NewCookie`. -/
def newCookie (st : ClientState) : ℕ × ClientState :=
  (st.nextCookie % 2 ^ 64, { st with nextCookie := st.nextCookie + 1 })

/-- `ClientImpl::StartCall`: the message with its cookie, or the exception for a cookie in use. -/
def startCall (st : ClientState) (msg : Message) (oneWay : Bool) :
    Except Exn Message × ClientState :=
  let (cookie, st) := newCookie st
  let msg := { msg with cookie := cookie }
  if cookie ∈ st.pendingCalls then (.error .other, st)
  else (.ok msg, { st with
    pendingCalls := insertNew st.pendingCalls cookie ⟨st.started.length, msg.type, oneWay⟩
    started := st.started ++ [msg] })

theorem startCall_of_mem {st : ClientState} {msg : Message} {oneWay : Bool}
    (h : st.nextCookie % 2 ^ 64 ∈ st.pendingCalls) :
    startCall st msg oneWay = (.error .other, { st with nextCookie := st.nextCookie + 1 }) :=
  if_pos h

theorem startCall_of_notMem {st : ClientState} {msg : Message} {oneWay : Bool}
    (h : st.nextCookie % 2 ^ 64 ∉ st.pendingCalls) :
    startCall st msg oneWay = (.ok { msg with cookie := st.nextCookie % 2 ^ 64 }, { st with
      nextCookie := st.nextCookie + 1
      pendingCalls :=
        insertNew st.pendingCalls (st.nextCookie % 2 ^ 64) ⟨st.started.length, msg.type, oneWay⟩
      started := st.started ++ [{ msg with cookie := st.nextCookie % 2 ^ 64 }] }) :=
  if_neg h

/-- `ClientImpl::FinishCall`. -/
def finishCall (st : ClientState) (cookie : ℕ) : ClientState :=
  { st with pendingCalls := st.pendingCalls.erase cookie }

/-! ### Receiving -/

/-- The message in a LogEntry. -/
def loggedMessage (msg : Received) (body : List UInt8) : Except Exn Received := do
  let reader : BinaryReader := { buffer := msg.data.bytes body, current := 0 }
  let (data, _) ← reader.readSizedData
  let (msg, _) ← unpack (data.bytes (msg.data.bytes body)) 0
  return msg

/-- The message is the status `OK` for a transaction that waits for its reply. -/
def acknowledges (msg : Received) (call : PendingCall) (body : List UInt8) : Except Exn Bool :=
  if msg.type = .status ∧ call.msgType = .transaction ∧ !call.oneWay then do
    let reader : BinaryReader := { buffer := msg.data.bytes body, current := 0 }
    let (status, _) ← reader.readInt32
    return status = 0
  else .ok false

/-- One turn of the loop of `OnNewMessage`, with the exception that leaves it. `set_value` throws
if the promise has a value. -/
def handleMessage (st : ClientState) (incoming : Incoming) : ClientState × Option Exn :=
  let msg := incoming.message
  if msg.type = .logEntry then
    if st.logMessageHandler then
      match loggedMessage msg st.body with
      | .ok _ => (st, none)
      | .error e => (st, some e)
    else (st, none)
  else
    match st.pendingCalls.lookup msg.cookie with
    | some call =>
      match acknowledges msg call st.body with
      | .error e => (st, some e)
      | .ok true => (st, none)
      | .ok false =>
        match st.promises call.promise with
        | some _ => (st, some .other)
        | none => ({ st with
            promises := Function.update st.promises call.promise (some incoming)
            tasks := st.tasks ++ [.finishCall msg.cookie] }, none)
    | none =>
      if msg.type = .transaction ∧ st.contextObj then
        ({ st with tasks := st.tasks ++ [.handleContextObjectMessage incoming] }, none)
      else ({ st with inMessages := st.inMessages ++ [incoming] }, none)

/-- The loop of `OnNewMessage`. -/
def handleMessages (st : ClientState) : List Incoming → ClientState × Option Exn
  | [] => (st, none)
  | incoming :: rest =>
    match handleMessage st incoming with
    | (st, some e) => (st, some e)
    | (st, none) => handleMessages st rest

/-- `ReadMessageAsync` fills the buffer. -/
def fillBody (st : ClientState) (frame : List UInt8) : ClientState :=
  { st with body := frame, arrived := st.arrived ++ [frame], reading := false }

/-- `ClientImpl::OnNewMessage`, for the frame that has just filled the buffer. -/
def onNewMessage (st : ClientState) (frame : List UInt8) : ClientState :=
  let (msgs, e) := parse frame
  match handleMessages (fillBody st frame) (msgs.map fun msg => ⟨msg, st.arrived.length⟩), e with
  | (st, none), none => { st with reading := true }
  | (st, _), _ => st

/-! ### What the handling of a message can do -/

/-- **What happens to a message**: it fulfils a promise, or goes to the context object or to
`in_messages_`, or nothing happens, and then it is a LogEntry or a call is pending under its
cookie. -/
theorem handleMessage_cases (st : ClientState) (incoming : Incoming) :
    ((handleMessage st incoming).1 = st ∧
      (incoming.message.type = .logEntry ∨ incoming.message.cookie ∈ st.pendingCalls)) ∨
    (∃ call, incoming.message.type ≠ .logEntry ∧
      st.pendingCalls.lookup incoming.message.cookie = some call ∧
      (handleMessage st incoming).1 = { st with
        promises := Function.update st.promises call.promise (some incoming)
        tasks := st.tasks ++ [.finishCall incoming.message.cookie] }) ∨
    (handleMessage st incoming).1 =
      { st with tasks := st.tasks ++ [.handleContextObjectMessage incoming] } ∨
    (handleMessage st incoming).1 = { st with inMessages := st.inMessages ++ [incoming] } := by
  unfold handleMessage
  by_cases hlog : incoming.message.type = .logEntry
  · left
    refine ⟨?_, .inl hlog⟩
    rw [if_pos hlog]
    split_ifs
    · cases loggedMessage incoming.message st.body <;> rfl
    · rfl
  rw [if_neg hlog]
  cases hp : st.pendingCalls.lookup incoming.message.cookie with
  | none =>
    right; right
    simp only
    split_ifs
    · exact .inl rfl
    · exact .inr rfl
  | some call =>
    have hkept : ∀ e : Option Exn, (st, e).1 = st ∧
        (incoming.message.type = .logEntry ∨ incoming.message.cookie ∈ st.pendingCalls) :=
      fun _ => ⟨rfl, .inr (mem_of_lookup hp)⟩
    simp only
    rcases acknowledges incoming.message call st.body with e | b
    · exact .inl (hkept _)
    · cases b
      · cases hv : st.promises call.promise with
        | some m => exact .inl (hkept _)
        | none => exact .inr (.inl ⟨call, hlog, rfl, rfl⟩)
      · exact .inl (hkept _)

/-- What the handling of messages leaves alone. -/
structure ReceiveFrame (st st' : ClientState) : Prop where
  body : st'.body = st.body
  arrived : st'.arrived = st.arrived
  nextCookie : st'.nextCookie = st.nextCookie
  started : st'.started = st.started
  pendingCalls : st'.pendingCalls = st.pendingCalls
  held : st'.held = st.held

theorem handleMessage_frame (st : ClientState) (incoming : Incoming) :
    ReceiveFrame st (handleMessage st incoming).1 := by
  rcases handleMessage_cases st incoming with ⟨h, -⟩ | ⟨call, -, -, h⟩ | h | h <;> rw [h] <;>
    exact ⟨rfl, rfl, rfl, rfl, rfl, rfl⟩

theorem handleMessages_frame (msgs : List Incoming) (st : ClientState) :
    ReceiveFrame st (handleMessages st msgs).1 := by
  induction msgs generalizing st with
  | nil => exact ⟨rfl, rfl, rfl, rfl, rfl, rfl⟩
  | cons incoming rest ih =>
    have h1 := handleMessage_frame st incoming
    rw [handleMessages]
    generalize handleMessage st incoming = r at h1
    obtain ⟨st', _ | e⟩ := r
    · have h2 := ih st'
      exact ⟨h2.body.trans h1.body, h2.arrived.trans h1.arrived, h2.nextCookie.trans h1.nextCookie,
        h2.started.trans h1.started, h2.pendingCalls.trans h1.pendingCalls, h2.held.trans h1.held⟩
    · exact h1

theorem handleMessages_singleton (st : ClientState) (incoming : Incoming) :
    (handleMessages st [incoming]).1 = (handleMessage st incoming).1 := by
  rw [handleMessages]
  rcases handleMessage st incoming with ⟨st', _ | e⟩ <;> rfl

/-- The messages of the frame with the number `n`. -/
def messagesOf (frame : List UInt8) (n : ℕ) : List Incoming :=
  (parse frame).1.map fun msg => ⟨msg, n⟩

/-- `OnNewMessage` handles the messages of the frame, and then may read on. -/
theorem onNewMessage_eq (st : ClientState) (frame : List UInt8) :
    ∃ reading, onNewMessage st frame = { (handleMessages (fillBody st frame)
      (messagesOf frame st.arrived.length)).1 with reading := reading } := by
  unfold onNewMessage messagesOf
  rcases parse frame with ⟨msgs, e⟩
  simp only
  rcases handleMessages (fillBody st frame) (msgs.map fun msg => ⟨msg, st.arrived.length⟩) with
    ⟨st', _ | e'⟩
  · rcases e with _ | e
    · exact ⟨true, rfl⟩
    · exact ⟨st'.reading, rfl⟩
  · exact ⟨st'.reading, rfl⟩

/-! ### The machine -/

/-- What a client sends in answer to a message it was handed. -/
def repliesTo (msg : Received) (reply : Message) : Bool :=
  reply.cookie = msg.cookie ∧
    (msg.type = .transaction ∧ (reply.type = .transactionReply ∨ reply.type = .status) ∨
      msg.type = .deadBinder ∧ reply.type = .status)

/-- What can happen to the client. -/
inductive ClientAction where
  /-- A frame arrives. -/
  | frame (bytes : List UInt8)
  /-- The read fails, and the client terminates. -/
  | error
  | newCookie
  | startCall (msg : Message) (oneWay : Bool)
  /-- The strand runs its next handler. -/
  | runTask
  | dequeueMessage
  /-- A caller takes the value of its promise. -/
  | getReply (promise : ℕ)
  /-- The payload of a message that was taken is read. -/
  | readPayload (i : ℕ)
  /-- A message that was taken is answered. -/
  | reply (i : ℕ) (msg : Message)
  | setContextObject
  | setLogMessageHandler
deriving DecidableEq

/-- What is to be seen of a step of the client. -/
inductive ClientEvent where
  /-- The message is ready to be queued for the server. -/
  | send (msg : Message)
  | observed (msg : Incoming) (bytes : List UInt8)
deriving DecidableEq

/-- One step of the client. -/
def clientStep (st : ClientState) : ClientAction → Option (ClientState × List ClientEvent)
  | .frame bytes =>
    if st.reading ∧ !st.shouldExit then some (onNewMessage st bytes, []) else none
  | .error =>
    if st.reading then some ({ st with reading := false, shouldExit := true }, []) else none
  | .newCookie => some ((newCookie st).2, [])
  | .startCall msg oneWay =>
    match startCall st msg oneWay with
    | (.ok msg, st) => some (st, [.send msg])
    | (.error _, st) => some (st, [])
  | .runTask =>
    if st.shouldExit then none
    else match st.tasks with
      | [] => none
      | .finishCall cookie :: rest => some (finishCall { st with tasks := rest } cookie, [])
      | .handleContextObjectMessage msg :: rest =>
        some ({ st with tasks := rest, held := st.held ++ [msg] }, [])
  | .dequeueMessage =>
    if st.shouldExit then none
    else match st.inMessages with
      | [] => none
      | msg :: rest => some ({ st with inMessages := rest, held := st.held ++ [msg] }, [])
  | .getReply promise =>
    (st.promises promise).map fun msg => ({ st with held := st.held ++ [msg] }, [])
  | .readPayload i =>
    st.held[i]?.map fun msg => (st, [.observed msg (msg.message.data.bytes st.body)])
  | .reply i reply =>
    st.held[i]?.bind fun msg =>
      if repliesTo msg.message reply then
        some ({ st with held := st.held.eraseIdx i }, [.send reply])
      else none
  | .setContextObject => some ({ st with contextObj := true }, [])
  | .setLogMessageHandler => some ({ st with logMessageHandler := true }, [])

/-- **The client.** -/
def client : Machine ClientState ClientAction ClientEvent := ⟨{}, clientStep⟩

/-- The steps of the client, as its histories record them. -/
abbrev ClientStep := Transition ClientState ClientAction ClientEvent

theorem clientStep_frame {st : ClientState} {bytes : List UInt8}
    {r : ClientState × List ClientEvent} (h : clientStep st (.frame bytes) = some r) :
    r = (onNewMessage st bytes, []) := by
  simp only [clientStep] at h
  split_ifs at h
  exact (Option.some.inj h).symm

/-- **What an action can do to the client, and the events.** -/
inductive ClientEffect (st : ClientState) :
    ClientAction → ClientState → List ClientEvent → Prop
  | received {bytes} : ClientEffect st (.frame bytes) (onNewMessage st bytes) []
  | closed : ClientEffect st .error { st with reading := false, shouldExit := true } []
  | drawn : ClientEffect st .newCookie { st with nextCookie := st.nextCookie + 1 } []
  | started {msg oneWay cookie} : cookie = st.nextCookie % 2 ^ 64 → cookie ∉ st.pendingCalls →
      ClientEffect st (.startCall msg oneWay)
        { st with
          nextCookie := st.nextCookie + 1
          pendingCalls := insertNew st.pendingCalls cookie ⟨st.started.length, msg.type, oneWay⟩
          started := st.started ++ [{ msg with cookie := cookie }] }
        [.send { msg with cookie := cookie }]
  /-- The cookie is in use. -/
  | notStarted {msg oneWay} : ClientEffect st (.startCall msg oneWay)
      { st with nextCookie := st.nextCookie + 1 } []
  | finished {cookie rest} : st.tasks = .finishCall cookie :: rest → ClientEffect st .runTask
      { st with tasks := rest, pendingCalls := st.pendingCalls.erase cookie } []
  | handled {msg rest} : st.tasks = .handleContextObjectMessage msg :: rest →
      ClientEffect st .runTask { st with tasks := rest, held := st.held ++ [msg] } []
  | dequeued {msg rest} : st.inMessages = msg :: rest → ClientEffect st .dequeueMessage
      { st with inMessages := rest, held := st.held ++ [msg] } []
  | fetched {promise msg} : st.promises promise = some msg →
      ClientEffect st (.getReply promise) { st with held := st.held ++ [msg] } []
  | observed {i msg} : st.held[i]? = some msg → ClientEffect st (.readPayload i) st
      [.observed msg (msg.message.data.bytes st.body)]
  | replied {i msg reply} : st.held[i]? = some msg → repliesTo msg.message reply →
      ClientEffect st (.reply i reply) { st with held := st.held.eraseIdx i } [.send reply]
  | contextObjSet : ClientEffect st .setContextObject { st with contextObj := true } []
  | logMessageHandlerSet :
      ClientEffect st .setLogMessageHandler { st with logMessageHandler := true } []

theorem clientStep_effect {st st' : ClientState} {a : ClientAction} {es : List ClientEvent}
    (h : clientStep st a = some (st', es)) : ClientEffect st a st' es := by
  cases a with
  | frame bytes =>
    cases clientStep_frame h
    exact .received
  | error =>
    simp only [clientStep] at h
    split_ifs at h
    cases h
    exact .closed
  | newCookie =>
    cases h
    exact .drawn
  | startCall msg oneWay =>
    simp only [clientStep] at h
    by_cases hc : st.nextCookie % 2 ^ 64 ∈ st.pendingCalls
    · rw [startCall_of_mem hc] at h
      cases h
      exact .notStarted
    · rw [startCall_of_notMem hc] at h
      cases h
      exact .started rfl hc
  | runTask =>
    simp only [clientStep] at h
    split_ifs at h
    split at h
    · cases h
    · next cookie rest ht =>
      cases h
      exact .finished ht
    · next msg rest ht =>
      cases h
      exact .handled ht
  | dequeueMessage =>
    simp only [clientStep] at h
    split_ifs at h
    split at h
    · cases h
    · next msg rest hm =>
      cases h
      exact .dequeued hm
  | getReply promise =>
    obtain ⟨msg, hm, he⟩ := Option.map_eq_some_iff.mp h
    cases he
    exact .fetched hm
  | readPayload i =>
    obtain ⟨msg, hm, he⟩ := Option.map_eq_some_iff.mp h
    cases he
    exact .observed hm
  | reply i reply =>
    obtain ⟨msg, hm, he⟩ := Option.bind_eq_some_iff.mp h
    split_ifs at he with hr
    cases he
    exact .replied hm hr
  | setContextObject =>
    cases h
    exact .contextObjSet
  | setLogMessageHandler =>
    cases h
    exact .logMessageHandlerSet

end Binderd.Clients.Calls
