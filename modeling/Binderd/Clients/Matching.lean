import Binderd.Broker.Replies
import Binderd.Clients.Calls

/-! # Calls and the messages that complete them

The server, one client, and the link between the client and its session `me`; the other sessions
send what they like. What the server writes to the session arrives at the client frame by frame, in
order, and what the client queues reaches the server as the messages that the server's parser finds
in the frame.

The client completes a call with any message that has the cookie of the call. The cookies of its
calls, those of the Transactions posted to it and the `0` of a DeadBinder are numbered
independently, all from `0` on, so a Transaction can complete a call
(`call_completed_by_transaction`). If none arrives while a call is pending under its cookie, and
the numbers in the messages fit into the one byte that is read of them, then calls are completed by
the answers to their requests, and the Transactions and DeadBinders are handed over
(`calls_matched`). -/

namespace Binderd.Clients.Matching

open Binderd.Lib.Bytes Binderd.Lib.Tables Binderd.Lib.Runs
open Binderd.Wire.Streams Binderd.Wire.Messages Binderd.Wire.Transactions
open Binderd.Broker.State Binderd.Broker.Handles Binderd.Broker.Sessions Binderd.Broker.Effects
open Binderd.Broker.Replies Binderd.Clients.Calls

/-! ### The link -/

/-- The server, one of its clients, and what is between them. -/
structure LinkState where
  server : ServerState := {}
  client : ClientState := {}
  /-- What the server wrote to the session, in order: the frame `n` of the client is the entry `n`.
  -/
  written : List Write := []
  /-- What the threads of the client are about to hand to `QueueMessage`. -/
  unsent : List Message := []
  /-- What the client queued, as the server will parse it. -/
  up : List Message := []

/-- What can happen to them. -/
inductive LinkAction where
  /-- An action of the server that is not for a message of the client. -/
  | serve (a : Action)
  /-- The server processes the next message of the client. -/
  | process (beyond : List UInt8)
  | queueMessage (i : ℕ)
  /-- The next frame arrives at the client. -/
  | receive
  /-- Any other action of the client or its users. -/
  | act (a : ClientAction)
deriving DecidableEq

/-- The messages the parser finds in a frame. -/
def decode (frame : List UInt8) : List Message := (parse frame).1.map fun r => r.toMessage frame

/-- The action processes a message of the session. -/
def isFrom (me : SessionId) : Action → Bool
  | .process s _ _ => s = me
  | _ => false

/-- The action is the arrival of a frame. -/
def isFrame : ClientAction → Bool
  | .frame _ => true
  | _ => false

/-- The message of an event that is one to be sent. -/
def sentMessage : ClientEvent → Option Message
  | .send msg => some msg
  | .observed _ _ => none

variable (me : SessionId)

/-- The state after a step of the server. -/
def served (st : LinkState) (server : ServerState) (writes : List Write) : LinkState :=
  { st with
    server := server
    written := st.written ++ writes.filter fun w => w.session = me }

/-- One step of the server, of the client or of what is between them. -/
def linkStep (st : LinkState) : LinkAction → Option (LinkState × List Write)
  | .serve a =>
    if isFrom me a then none else (step st.server a).map fun r => (served me st r.1 r.2, r.2)
  | .process beyond =>
    match st.up with
    | [] => none
    | msg :: rest => (step st.server (.process me msg beyond)).map fun r =>
        (served me { st with up := rest } r.1 r.2, r.2)
  | .queueMessage i =>
    if st.client.shouldExit then none
    else st.unsent[i]?.map fun msg =>
      ({ st with unsent := st.unsent.eraseIdx i, up := st.up ++ decode (pack msg) }, [])
  | .receive =>
    st.written[st.client.arrived.length]?.bind fun w =>
      (clientStep st.client (.frame (pack w.message))).map fun r => ({ st with client := r.1 }, [])
  | .act a =>
    if isFrame a then none
    else (clientStep st.client a).map fun r =>
      ({ st with client := r.1, unsent := st.unsent ++ r.2.filterMap sentMessage }, [])

/-- **The server and a client.** -/
def link : Machine LinkState LinkAction Write := ⟨{}, linkStep me⟩

/-- The steps, as the histories record them. -/
abbrev LinkStep := Transition LinkState LinkAction Write

/-- The step, as a step of the server that takes `a`. -/
def serverStepOf (e : LinkStep) (a : Action) : ServerStep :=
  ⟨e.before.server, a, e.emitted, e.after.server⟩

/-- The action the server takes in a step. -/
def serverAction (e : LinkStep) : Option Action :=
  match e.action with
  | .serve a => some a
  | .process beyond => e.before.up.head?.map fun msg => .process me msg beyond
  | _ => none

variable {me}

variable (me) in
/-- **What a step can be.** -/
inductive LinkEffect (e : LinkStep) : Prop
  /-- The server takes a step; `up` is what is left of the client's messages. -/
  | served (a : Action) (up : List Message) : serverAction me e = some a →
      (serverStepOf e a).Valid server → (∀ msg ∈ up, msg ∈ e.before.up) →
      (∀ msg beyond, a = .process me msg beyond → msg ∈ e.before.up) →
      e.after = served me { e.before with up := up } e.after.server e.emitted → LinkEffect e
  | queued (i : ℕ) (msg : Message) : e.action = .queueMessage i → e.before.unsent[i]? = some msg →
      e.after = { e.before with
        unsent := e.before.unsent.eraseIdx i
        up := e.before.up ++ decode (pack msg) } → LinkEffect e
  | received (w : Write) : e.action = .receive →
      e.before.written[e.before.client.arrived.length]? = some w →
      e.after = { e.before with client := onNewMessage e.before.client (pack w.message) } →
      LinkEffect e
  | acted (a : ClientAction) (client : ClientState) (events : List ClientEvent) :
      e.action = .act a → (∀ bytes, a ≠ .frame bytes) →
      ClientEffect e.before.client a client events →
      e.after = { e.before with
        client := client, unsent := e.before.unsent ++ events.filterMap sentMessage } → LinkEffect e

theorem link_effect {e : LinkStep} (hv : e.Valid (link me)) : LinkEffect me e := by
  obtain ⟨before, action, emitted, after⟩ := e
  have hstep : linkStep me before action = some (after, emitted) := hv
  rcases action with a | beyond | i | _ | a
  · simp only [linkStep] at hstep
    split_ifs at hstep with hfrom
    obtain ⟨r, hr, he⟩ := Option.map_eq_some_iff.mp hstep
    cases he
    refine .served a before.up rfl hr (fun _ h => h) ?_ rfl
    rintro msg beyond rfl
    simp [isFrom] at hfrom
  · simp only [linkStep] at hstep
    split at hstep
    · cases hstep
    · next msg rest hup =>
      obtain ⟨r, hr, he⟩ := Option.map_eq_some_iff.mp hstep
      cases he
      refine .served (.process me msg beyond) rest (by simp [serverAction, hup]) hr
        (fun m hm => hup ▸ List.mem_cons_of_mem _ hm) ?_ rfl
      rintro m b hm
      cases hm
      simp [hup]
  · simp only [linkStep] at hstep
    split_ifs at hstep
    obtain ⟨msg, hm, he⟩ := Option.map_eq_some_iff.mp hstep
    cases he
    exact .queued i msg rfl hm rfl
  · obtain ⟨w, hw, he⟩ := Option.bind_eq_some_iff.mp hstep
    obtain ⟨r, hr, he⟩ := Option.map_eq_some_iff.mp he
    have hclient : r.1 = onNewMessage before.client (pack w.message) := by rw [clientStep_frame hr]
    cases he
    exact .received w rfl hw (congrArg (fun c => { before with client := c }) hclient)
  · simp only [linkStep] at hstep
    split_ifs at hstep with hframe
    obtain ⟨r, hr, he⟩ := Option.map_eq_some_iff.mp hstep
    cases he
    refine .acted a r.1 r.2 rfl ?_ (clientStep_effect hr) rfl
    rintro bytes rfl
    exact hframe rfl

variable (me) in
/-- The server, as a part of the link. -/
def serverPart : Part (link me) server where
  state := LinkState.server
  step e := (serverAction me e).map (serverStepOf e)
  init := rfl
  kept e hv hnone := by
    rcases link_effect hv with ⟨a, up, ha, -⟩ | ⟨i, msg, -, -, he⟩ | ⟨w, -, -, he⟩ |
      ⟨a, c, es, -, -, -, he⟩
    · simp [ha] at hnone
    all_goals
      rw [he]
  moved e x hv hx := by
    obtain ⟨a, ha, rfl⟩ := Option.map_eq_some_iff.mp hx
    rcases link_effect hv with ⟨a', up, ha', hvalid, -⟩ | ⟨i, msg, hq, -⟩ | ⟨w, hq, -⟩ |
      ⟨b, c, es, hq, -⟩
    · rw [ha] at ha'
      cases ha'
      exact ⟨hvalid, rfl, rfl⟩
    all_goals
      simp [serverAction, hq] at ha

/-! ### Matching -/

variable (me) in
/-- The server made the record `r` when it processed the request `req` of the client. -/
def PostedFor (past : List ServerStep) (req : Message) (r : TransactionRecord) : Prop :=
  r.caller = me ∧ r.replyCookie = req.cookie ∧
    ∃ x ∈ past, (∃ beyond, x.action = .process me req beyond) ∧
      ∃ v ∈ x.emitted, v.source = .postTransaction r

variable (me) in
/-- The server wrote `w` in response to the request `req` of the client: as its status, or as the
reply to the transaction it asked for. -/
def InResponseTo (past : List ServerStep) (req : Message) (w : Write) : Prop :=
  (∃ status, w.source = .sendStatus req status ∧
      ∃ x ∈ past, (∃ beyond, x.action = .process me req beyond) ∧ w ∈ x.emitted) ∨
    ∃ r, w.source = .onReply r ∧ PostedFor me past req r

/-- The received message is what the client parsed from the frame of `w`. -/
structure ArrivedAs (written : List Write) (m : Incoming) (w : Write) : Prop where
  frame : written[m.frame]? = some w
  type : m.message.type = w.message.type
  cookie : m.message.cookie = w.message.cookie

variable (me) in
/-- **The promise `p` was fulfilled** by a Status or a TransactionReply that the server wrote in
response to the request of the call, which is the only request with its cookie. -/
def FulfilledBy (past : List ServerStep) (st : LinkState) (p : ℕ) (m : Incoming) : Prop :=
  ∃ req w, st.client.started[p]? = some req ∧ ArrivedAs st.written m w ∧
    (w.message.type = .status ∨ w.message.type = .transactionReply) ∧
    w.message.cookie = req.cookie ∧ InResponseTo me past req w ∧
    ∀ (p' : ℕ) req', st.client.started[p']? = some req' → req'.cookie = req.cookie → p' = p

/-- **A Transaction or a DeadBinder that arrives is handed over**: it completes no call, and goes
to the context object or to `in_messages_`. -/
def HandedOver (e : LinkStep) : Prop :=
  e.action = .receive → ∀ w, e.before.written[e.before.client.arrived.length]? = some w →
    w.message.type = .transaction ∨ w.message.type = .deadBinder →
    e.after.client.promises = e.before.client.promises ∧
    e.after.client.pendingCalls = e.before.client.pendingCalls ∧
    ∃ m, ArrivedAs e.before.written m w ∧
      (e.after.client.inMessages = e.before.client.inMessages ++ [m] ∨
        e.after.client.tasks = e.before.client.tasks ++ [.handleContextObjectMessage m])

/-- The numbers in the messages on the link fit into the byte that is read of them. -/
def Fits (e : LinkStep) : Prop :=
  match e.action with
  | .queueMessage i => ∀ msg ∈ e.before.unsent[i]?, Representable msg
  | .receive => ∀ w ∈ e.before.written[e.before.client.arrived.length]?, Representable w.message
  | .act (.startCall _ _) => e.before.client.nextCookie < 256
  | _ => True

/-- No Transaction or DeadBinder arrives while a call is pending under its cookie. -/
def NoCollision (e : LinkStep) : Prop :=
  match e.action with
  | .receive => ∀ w ∈ e.before.written[e.before.client.arrived.length]?,
      w.message.type = .transaction ∨ w.message.type = .deadBinder →
      w.message.cookie ∉ e.before.client.pendingCalls
  | _ => True

instance : DecidablePred Fits := fun e => by
  unfold Fits
  split <;> infer_instance

instance : DecidablePred NoCollision := fun e => by
  unfold NoCollision
  split <;> infer_instance

/-! ### The invariant -/

theorem PostedFor.snoc {past : List ServerStep} {req : Message} {r : TransactionRecord}
    (h : PostedFor me past req r) (x : ServerStep) : PostedFor me (past ++ [x]) req r := by
  obtain ⟨hc, hk, y, hy, h⟩ := h
  exact ⟨hc, hk, y, List.mem_append_left _ hy, h⟩

theorem InResponseTo.snoc {past : List ServerStep} {req : Message} {w : Write}
    (h : InResponseTo me past req w) (x : ServerStep) : InResponseTo me (past ++ [x]) req w := by
  rcases h with ⟨status, hs, y, hy, h⟩ | ⟨r, hs, h⟩
  · exact .inl ⟨status, hs, y, List.mem_append_left _ hy, h⟩
  · exact .inr ⟨r, hs, h.snoc x⟩

variable (me) in
/-- What the server writes, by its type. -/
def Accountable (started : List Message) (past : List ServerStep) (w : Write) : Prop :=
  w.message.type = .logEntry ∨ w.message.type = .transaction ∨ w.message.type = .deadBinder ∨
    (w.message.type = .status ∨ w.message.type = .transactionReply) ∧
      ∃ req ∈ started, w.message.cookie = req.cookie ∧ InResponseTo me past req w

theorem Accountable.imp {started started' : List Message} {past past' : List ServerStep} {w : Write}
    (h : Accountable me started past w) (hs : ∀ req ∈ started, req ∈ started')
    (hp : ∀ req, InResponseTo me past req w → InResponseTo me past' req w) :
    Accountable me started' past' w := by
  rcases h with h | h | h | ⟨ht, req, hreq, hc, h⟩
  · exact .inl h
  · exact .inr (.inl h)
  · exact .inr (.inr (.inl h))
  · exact .inr (.inr (.inr ⟨ht, req, hs req hreq, hc, hp req h⟩))

variable (me) in
/-- **Requests, records, writes and calls.** -/
structure Matched (past : List ServerStep) (st : LinkState) : Prop where
  drawn : ∀ req ∈ st.client.started, req.cookie < st.client.nextCookie
  distinct : ∀ (p p' : ℕ) req req', st.client.started[p]? = some req →
    st.client.started[p']? = some req' → req.cookie = req'.cookie → p = p'
  pending : ∀ c call, st.client.pendingCalls.lookup c = some call →
    ∃ req, st.client.started[call.promise]? = some req ∧ req.cookie = c
  unsent : ∀ msg ∈ st.unsent, msg ∈ st.client.started ∨ isAnswer msg.type
  up : ∀ msg ∈ st.up, msg ∈ st.client.started ∨ isAnswer msg.type
  records : ∀ t k r, (st.server.sessions t).pendingTransactions.lookup k = some r → r.caller = me →
    ∃ req ∈ st.client.started, PostedFor me past req r
  written : ∀ w ∈ st.written, Accountable me st.client.started past w
  promised : ∀ p m, st.client.promises p = some m → ∃ req w, st.client.started[p]? = some req ∧
    ArrivedAs st.written m w ∧ (w.message.type = .status ∨ w.message.type = .transactionReply) ∧
    w.message.cookie = req.cookie ∧ InResponseTo me past req w

/-! ### Steps of the server -/

section Serve

variable {past : List ServerStep} {st : LinkState} {x : ServerStep} (h : Matched me past st)
  (hv : x.Valid server) (hbefore : x.before = st.server)
  (hfrom : ∀ msg beyond, x.action = .process me msg beyond → msg ∈ st.up)

include h hv hbefore hfrom in
theorem accountable_write {w : Write} (hw : w ∈ x.emitted) (hme : w.session = me) :
    Accountable me st.client.started (past ++ [x]) w := by
  have hwr := (step_effect hv).written hw
  generalize hst : x.after = st' at hwr
  generalize hws : x.emitted = ws at hwr
  generalize ha : x.action = a at hwr
  cases hwr with
  | log _ hlog => exact .inl hlog
  | transaction d => exact .inr (.inl rfl)
  | deadBinder _ _ => exact .inr (.inr (.inl rfl))
  | @status s msg beyond _ _ status _ =>
    obtain ⟨b, hact, -, hnot⟩ := not_isAnswer_of_status hv hw rfl
    have hact : x.action = .process me msg b := by rw [hact, hme]
    refine .inr (.inr (.inr ⟨.inl rfl, msg, ?_, rfl, ?_⟩))
    · exact (h.up msg (hfrom msg b hact)).resolve_right hnot
    · exact .inl ⟨status, rfl, x, by simp, ⟨b, hact⟩, hw⟩
  | @reply s msg beyond _ r _ ht hp _ =>
    rw [hbefore] at hp
    obtain ⟨req, hreq, hposted⟩ := h.records s msg.cookie r hp hme
    refine .inr (.inr (.inr ⟨ht, req, hreq, hposted.2.1, ?_⟩))
    exact .inr ⟨r, rfl, hposted.snoc x⟩

include h hv hbefore hfrom in
theorem posted_record {t : SessionId} {k : ℕ} {r : TransactionRecord}
    (hk : (x.after.sessions t).pendingTransactions.lookup k = some r) (hme : r.caller = me) :
    ∃ req ∈ st.client.started, PostedFor me (past ++ [x]) req r := by
  rcases pending_of_effect (step_effect hv) hk with hk | ⟨s, msg, beyond, d, ha, hws, -, -, -, hr⟩
  · rw [hbefore] at hk
    obtain ⟨req, hreq, hposted⟩ := h.records t k r hk hme
    exact ⟨req, hreq, hposted.snoc x⟩
  · have hs : s = me := by rw [← hme, hr]; rfl
    subst hs
    have hnot : ¬ isAnswer msg.type := by simp [isAnswer, d.type]
    refine ⟨msg, (h.up msg (hfrom msg beyond ha)).resolve_right hnot, hme, by rw [hr]; rfl, x,
      by simp, ⟨beyond, ha⟩, ⟨d.target, d.message, .postTransaction d.record⟩, ?_, by rw [hr]⟩
    rw [hws]
    exact List.mem_append_left _ (mem_writeMessage.mpr (.inl rfl))

include h hv hbefore hfrom in
theorem Matched.serve {up : List Message} (hup : ∀ msg ∈ up, msg ∈ st.up) :
    Matched me (past ++ [x]) (served me { st with up := up } x.after x.emitted) := by
  refine ⟨h.drawn, h.distinct, h.pending, h.unsent, fun msg hm => h.up msg (hup msg hm),
    fun t k r hk hme => posted_record h hv hbefore hfrom hk hme, fun w hw => ?_, fun p m hm => ?_⟩
  · rcases List.mem_append.mp hw with hw | hw
    · exact (h.written w hw).imp (fun _ hreq => hreq) fun _ hresp => hresp.snoc x
    · obtain ⟨hw, hme⟩ := List.mem_filter.mp hw
      exact accountable_write h hv hbefore hfrom hw (of_decide_eq_true hme)
  · obtain ⟨req, w, hreq, harr, ht, hc, hresp⟩ := h.promised p m hm
    refine ⟨req, w, hreq, ⟨?_, harr.type, harr.cookie⟩, ht, hc, hresp.snoc x⟩
    exact (List.getElem?_append_left (List.getElem?_eq_some_iff.mp harr.frame).1).trans harr.frame

end Serve

/-! ### Steps of the client -/

theorem decode_pack {msg : Message} (h : Representable msg) : decode (pack msg) = [msg] := by
  rw [decode, parse_pack h]
  simp [Received.toMessage, data_bytes_pack]

theorem onNewMessage_pack {msg : Message} (h : Representable msg) (c : ClientState) :
    ∃ m : Incoming, m.frame = c.arrived.length ∧ m.message.type = msg.type ∧
      m.message.cookie = msg.cookie ∧
      ((msg.type = .logEntry ∨ msg.cookie ∈ c.pendingCalls) ∧
          (onNewMessage c (pack msg)).promises = c.promises ∨
        (∃ call, msg.type ≠ .logEntry ∧ c.pendingCalls.lookup msg.cookie = some call ∧
          (onNewMessage c (pack msg)).promises =
            Function.update c.promises call.promise (some m)) ∨
        (onNewMessage c (pack msg)).promises = c.promises ∧
          ((onNewMessage c (pack msg)).inMessages = c.inMessages ++ [m] ∨
            (onNewMessage c (pack msg)).tasks = c.tasks ++ [.handleContextObjectMessage m])) := by
  obtain ⟨reading, he⟩ := onNewMessage_eq c (pack msg)
  let m : Incoming :=
    ⟨⟨msg.type, msg.destination, msg.cookie, ⟨24, msg.data.length⟩⟩, c.arrived.length⟩
  have hmsgs : messagesOf (pack msg) c.arrived.length = [m] := by
    rw [messagesOf, parse_pack h]
    rfl
  rw [he, hmsgs, handleMessages_singleton]
  refine ⟨m, rfl, rfl, rfl, ?_⟩
  rcases handleMessage_cases (fillBody c (pack msg)) m with
    ⟨hk, hor⟩ | ⟨call, ht, hp, hk⟩ | hk | hk
  · rw [hk]
    exact .inl ⟨hor, rfl⟩
  · rw [hk]
    exact .inr (.inl ⟨call, ht, hp, rfl⟩)
  · rw [hk]
    exact .inr (.inr ⟨rfl, .inr rfl⟩)
  · rw [hk]
    exact .inr (.inr ⟨rfl, .inl rfl⟩)

theorem onNewMessage_calls (c : ClientState) (frame : List UInt8) :
    (onNewMessage c frame).nextCookie = c.nextCookie ∧
      (onNewMessage c frame).started = c.started ∧
      (onNewMessage c frame).pendingCalls = c.pendingCalls := by
  obtain ⟨reading, he⟩ := onNewMessage_eq c frame
  have hf := handleMessages_frame (messagesOf frame c.arrived.length) (fillBody c frame)
  rw [he]
  exact ⟨hf.nextCookie, hf.started, hf.pendingCalls⟩

section Client

variable {past : List ServerStep} {st : LinkState} (h : Matched me past st)

include h in
/-- A change of the client that starts no call and fulfils no promise. -/
theorem Matched.quiet {c : ClientState} {unsent : List Message} (hs : c.started = st.client.started)
    (hn : st.client.nextCookie ≤ c.nextCookie) (hpr : c.promises = st.client.promises)
    (hp : ∀ k call, c.pendingCalls.lookup k = some call →
      st.client.pendingCalls.lookup k = some call)
    (hu : ∀ msg ∈ unsent, msg ∈ st.client.started ∨ isAnswer msg.type) :
    Matched me past { st with client := c, unsent := unsent } := by
  constructor
  · intro req hreq
    exact (h.drawn req (hs ▸ hreq)).trans_le hn
  · simp only [hs]
    exact h.distinct
  · intro k call hk
    simp only [hs]
    exact h.pending k call (hp k call hk)
  · simp only [hs]
    exact hu
  · simp only [hs]
    exact h.up
  · simp only [hs]
    exact h.records
  · simp only [hs]
    exact h.written
  · simp only [hs, hpr]
    exact h.promised

include h in
theorem Matched.start {msg : Message} {oneWay : Bool} {cookie : ℕ} {c : ClientState}
    (hcookie : cookie = st.client.nextCookie) (hc : c = { st.client with
      nextCookie := st.client.nextCookie + 1
      pendingCalls := insertNew st.client.pendingCalls cookie
        ⟨st.client.started.length, msg.type, oneWay⟩
      started := st.client.started ++ [{ msg with cookie := cookie }] }) :
    Matched me past
      { st with client := c, unsent := st.unsent ++ [{ msg with cookie := cookie }] } := by
  have hcases : ∀ {p : ℕ} {req},
      (st.client.started ++ [{ msg with cookie := cookie }])[p]? = some req →
      st.client.started[p]? = some req ∧ req.cookie < st.client.nextCookie ∨
        p = st.client.started.length ∧ req.cookie = cookie := by
    intro p req hp
    rcases getElem?_snoc_iff.mp hp with hold | ⟨hlen, rfl⟩
    · exact .inl ⟨hold, h.drawn req (List.mem_of_getElem? hold)⟩
    · exact .inr ⟨hlen, rfl⟩
  subst hc
  constructor
  · intro req hreq
    obtain ⟨p, hp⟩ := List.getElem?_of_mem hreq
    rcases hcases hp with ⟨-, hlt⟩ | ⟨-, he⟩
    · exact hlt.trans (Nat.lt_succ_self _)
    · rw [he, hcookie]
      exact Nat.lt_succ_self _
  · intro p p' req req' hp hp' he
    rcases hcases hp with ⟨hp, hlt⟩ | ⟨hp, hc⟩ <;> rcases hcases hp' with ⟨hp', hlt'⟩ | ⟨hp', hc'⟩
    · exact h.distinct p p' req req' hp hp' he
    · omega
    · omega
    · omega
  · intro k call hk
    simp only [lookup_insertNew] at hk
    split_ifs at hk with hnew
    · cases hk
      exact ⟨{ msg with cookie := cookie }, by simp, hnew.1.symm⟩
    · obtain ⟨req, hreq, hck⟩ := h.pending k call hk
      exact ⟨req, getElem?_snoc_of_some hreq _, hck⟩
  · intro m hm
    rcases List.mem_append.mp hm with hm | hm
    · exact (h.unsent m hm).imp (List.mem_append_left _) id
    · exact .inl (List.mem_append_right _ hm)
  · intro m hm
    exact (h.up m hm).imp (List.mem_append_left _) id
  · intro t k r hk hme
    obtain ⟨req, hreq, hposted⟩ := h.records t k r hk hme
    exact ⟨req, List.mem_append_left _ hreq, hposted⟩
  · intro w hw
    exact (h.written w hw).imp (fun _ => List.mem_append_left _) fun _ hresp => hresp
  · intro p m hm
    obtain ⟨req, w, hreq, hrest⟩ := h.promised p m hm
    exact ⟨req, w, getElem?_snoc_of_some hreq _, hrest⟩

include h in
theorem Matched.receive {w : Write} (hw : st.written[st.client.arrived.length]? = some w)
    (hrep : Representable w.message)
    (hno : w.message.type = .transaction ∨ w.message.type = .deadBinder →
      w.message.cookie ∉ st.client.pendingCalls) :
    Matched me past { st with client := onNewMessage st.client (pack w.message) } := by
  obtain ⟨hn, hs, hp⟩ := onNewMessage_calls st.client (pack w.message)
  obtain ⟨m, hframe, htype, hcookie, hcase⟩ := onNewMessage_pack hrep st.client
  generalize onNewMessage st.client (pack w.message) = c at hn hs hp hcase ⊢
  have hsame : ∀ k call, c.pendingCalls.lookup k = some call →
      st.client.pendingCalls.lookup k = some call := fun k call hk => hp ▸ hk
  have hquiet : c.promises = st.client.promises →
      Matched me past { st with client := c } := fun hpr => h.quiet hs hn.ge hpr hsame h.unsent
  rcases hcase with ⟨-, hpr⟩ | ⟨call, hlog, hcall, hpr⟩ | ⟨hpr, -⟩
  · exact hquiet hpr
  · -- the call's request and the one the server answered have the same cookie
    obtain ⟨req, hreq, hck⟩ := h.pending w.message.cookie call hcall
    have hmem := mem_of_lookup hcall
    rcases h.written w (List.mem_of_getElem? hw) with ht | ht | ht | ⟨ht, req', hreq', hc', hresp⟩
    · exact absurd ht hlog
    · exact absurd hmem (hno (.inl ht))
    · exact absurd hmem (hno (.inr ht))
    · obtain ⟨p', hp'⟩ := List.getElem?_of_mem hreq'
      have hpp := h.distinct call.promise p' req req' hreq hp' (hck.trans hc')
      rw [← hpp, hreq] at hp'
      cases hp'
      have hbase : Matched me past
          { st with client := { c with promises := st.client.promises } } :=
        h.quiet hs hn.ge rfl hsame h.unsent
      refine ⟨hbase.drawn, hbase.distinct, hbase.pending, hbase.unsent, hbase.up, hbase.records,
        hbase.written, fun p m' hm' => ?_⟩
      simp only [hpr] at hm'
      by_cases hpc : p = call.promise
      · subst hpc
        rw [Function.update_self] at hm'
        cases hm'
        exact ⟨req, w, by rw [hs]; exact hreq, ⟨by rw [hframe]; exact hw, htype, hcookie⟩, ht, hc',
          hresp⟩
      · rw [Function.update_of_ne hpc] at hm'
        exact hbase.promised p m' hm'
  · exact hquiet hpr

include h in
theorem Matched.act {a : ClientAction} {c : ClientState} {events : List ClientEvent}
    (he : ClientEffect st.client a c events) (hframe : ∀ bytes, a ≠ .frame bytes)
    (hfit : ∀ msg oneWay, a = .startCall msg oneWay → st.client.nextCookie < 256) :
    Matched me past
      { st with client := c, unsent := st.unsent ++ events.filterMap sentMessage } := by
  have hunsent : ∀ msg ∈ st.unsent ++ [], msg ∈ st.client.started ∨ isAnswer msg.type := by
    simpa using h.unsent
  have hsame : ∀ k call, st.client.pendingCalls.lookup k = some call →
      st.client.pendingCalls.lookup k = some call := fun _ _ hk => hk
  cases he with
  | received => exact absurd rfl (hframe _)
  | drawn => exact h.quiet rfl (Nat.le_succ _) rfl hsame hunsent
  | notStarted => exact h.quiet rfl (Nat.le_succ _) rfl hsame hunsent
  | @started msg oneWay cookie hcookie hnot =>
    refine h.start ?_ rfl
    have hlt := hfit msg oneWay rfl
    rw [hcookie, Nat.mod_eq_of_lt (by omega)]
  | finished ht =>
    exact h.quiet rfl le_rfl rfl (fun k call hk => (lookup_erase_eq_some.mp hk).2) hunsent
  | @replied i m reply hm hr =>
    refine h.quiet rfl le_rfl rfl hsame fun msg hmsg => ?_
    rcases List.mem_append.mp hmsg with hmsg | hmsg
    · exact h.unsent msg hmsg
    · simp only [List.filterMap_cons, sentMessage, List.filterMap_nil, List.mem_singleton] at hmsg
      subst hmsg
      have hr := (of_decide_eq_true hr).2
      right
      rcases hr with ⟨-, hr | hr⟩ | ⟨-, hr⟩ <;> simp [isAnswer, hr]
  | _ => exact h.quiet rfl le_rfl rfl hsame hunsent

end Client

/-! ### Runs -/

theorem matched_step {past : List ServerStep} {e : LinkStep} (h : Matched me past e.before)
    (hv : e.Valid (link me)) (hfit : Fits e) (hno : NoCollision e) :
    Matched me (past ++ ((serverPart me).step e).toList) e.after := by
  rcases link_effect hv with ⟨a, up, ha, hvalid, hup, hfrom, he⟩ | ⟨i, msg, ha, hi, he⟩ |
    ⟨w, ha, hw, he⟩ | ⟨a, c, es, ha, hframe, heff, he⟩
  · have hstep : (serverPart me).step e = some (serverStepOf e a) := by simp [serverPart, ha]
    rw [hstep, Option.toList_some, he]
    exact h.serve (x := serverStepOf e a) hvalid rfl hfrom hup
  all_goals
    have hstep : (serverPart me).step e = none := by simp [serverPart, serverAction, ha]
    rw [hstep, Option.toList_none, List.append_nil, he]
  · unfold Fits at hfit
    rw [ha] at hfit
    rw [decode_pack (hfit msg hi)]
    refine ⟨h.drawn, h.distinct, h.pending,
      fun m hm => h.unsent m (List.mem_of_mem_eraseIdx hm), fun m hm => ?_, h.records, h.written,
      h.promised⟩
    rcases List.mem_append.mp hm with hm | hm
    · exact h.up m hm
    · rw [List.mem_singleton.mp hm]
      exact h.unsent msg (List.mem_of_getElem? hi)
  · unfold Fits at hfit
    unfold NoCollision at hno
    rw [ha] at hfit hno
    exact h.receive hw (hfit w hw) (hno w hw)
  · refine h.act heff hframe ?_
    rintro msg oneWay rfl
    unfold Fits at hfit
    rw [ha] at hfit
    exact hfit

theorem matched_of_run {h : List LinkStep} {st : LinkState} (hr : Run (link me) h st)
    (hc : ∀ e ∈ h, Fits e ∧ NoCollision e) : Matched me ((serverPart me).history h) st := by
  refine Run.invariant (C := fun e => Fits e ∧ NoCollision e)
    (P := fun h st => Matched me ((serverPart me).history h) st) ?_ ?_ hr hc
  · exact ⟨(fun _ hm => by cases hm), (fun p _ _ _ hp => by simp [link] at hp),
      (fun _ _ hk => by cases hk), (fun _ hm => by cases hm), (fun _ hm => by cases hm),
      (fun _ _ _ hk => by cases hk), (fun _ hw => by cases hw), fun _ _ hm => by cases hm⟩
  · intro h e _ ih hv hc
    rw [(serverPart me).history_snoc]
    exact matched_step ih hv hc.1 hc.2

theorem handedOver_step {e : LinkStep} (hv : e.Valid (link me)) (hfit : Fits e)
    (hno : NoCollision e) : HandedOver e := by
  intro ha w hw ht
  unfold Fits at hfit
  unfold NoCollision at hno
  rw [ha] at hfit hno
  have hnot := hno w hw ht
  have hafter : e.after.client = onNewMessage e.before.client (pack w.message) := by
    rcases link_effect hv with ⟨a, up, hs, -⟩ | ⟨i, msg, hq, -⟩ | ⟨w', -, hw', he⟩ |
      ⟨a, c, es, hq, -⟩
    · simp [serverAction, ha] at hs
    · rw [ha] at hq
      cases hq
    · rw [hw] at hw'
      cases hw'
      rw [he]
    · rw [ha] at hq
      cases hq
  rw [hafter]
  obtain ⟨m, hframe, htype, hcookie, hcase⟩ := onNewMessage_pack (hfit w hw) e.before.client
  have harr : ArrivedAs e.before.written m w := ⟨by rw [hframe, hw], htype, hcookie⟩
  rcases hcase with ⟨hor, -⟩ | ⟨call, -, hcall, -⟩ | ⟨hpr, hin⟩
  · rcases hor with hlog | hmem
    · rw [hlog] at ht
      rcases ht with ht | ht <;> cases ht
    · exact absurd hmem hnot
  · exact absurd (mem_of_lookup hcall) hnot
  · exact ⟨hpr, (onNewMessage_calls e.before.client (pack w.message)).2.2, m, harr, hin⟩

/-- **Calls are matched** with the answers to their requests, in every run in which the numbers on
the link fit into one byte and no Transaction or DeadBinder arrives while a call is pending under
its cookie; and every Transaction and DeadBinder that arrives is handed over. -/
theorem calls_matched {h : List LinkStep} {st : LinkState} (hr : Run (link me) h st)
    (hfit : ∀ e ∈ h, Fits e) (hno : ∀ e ∈ h, NoCollision e) :
    (∀ p m, st.client.promises p = some m →
      FulfilledBy me ((serverPart me).history h) st p m) ∧ ∀ e ∈ h, HandedOver e := by
  have hm := matched_of_run hr fun e he => ⟨hfit e he, hno e he⟩
  constructor
  · intro p m hp
    obtain ⟨req, w, hreq, harr, ht, hc, hresp⟩ := hm.promised p m hp
    exact ⟨req, w, hreq, harr, ht, hc, hresp,
      fun p' req' hreq' he => hm.distinct p' p req' req hreq' hreq he⟩
  · intro e he
    exact handedOver_step (hr.valid he) (hfit e he) (hno e he)

/-- The client of session `1` becomes the context manager, with its call `0`. -/
def becomeManager : List LinkAction :=
  [.serve .accept, .serve .accept, .act (.startCall { type := .setContextMgr } false),
    .queueMessage 0, .process [], .receive, .act .runTask]

/-- Then session `0` sends it a Transaction, which arrives while no call is pending. -/
def quietManager : List LinkAction :=
  becomeManager ++ [.serve (.process 0 (transactMessage 0 5 1 [] []) []), .receive]

theorem calls_matched_quietManager :
    (∃ m, (final (link 1) {} quietManager).client.promises 0 = some m ∧
      FulfilledBy 1 ((serverPart 1).history (history (link 1) {} quietManager))
        (final (link 1) {} quietManager) 0 m) ∧
    ∀ e ∈ history (link 1) {} quietManager, HandedOver e := by
  have hrun := path_history (link 1) quietManager {}
  obtain ⟨hful, hhanded⟩ := calls_matched hrun (by decide +kernel) (by decide +kernel)
  have hsome : ((final (link 1) {} quietManager).client.promises 0).isSome := by decide +kernel
  obtain ⟨m, hm⟩ := Option.isSome_iff_exists.mp hsome
  exact ⟨⟨m, hm, hful 0 m hm⟩, hhanded⟩

/-- Session `0` sends two Transactions. The second one has the cookie `1` and arrives after the
client has started its call `1`. -/
def busyManager : List LinkAction :=
  becomeManager ++ [.serve (.process 0 (transactMessage 0 5 1 [] []) []),
    .serve (.process 0 (transactMessage 0 6 1 [] []) []),
    .act (.startCall { type := .acquire, data := leBytes 8 1 } false), .queueMessage 0, .receive,
    .receive]

/-- The Transaction completes the call, and is not handed over. -/
theorem call_completed_by_transaction :
    Run (link 1) (history (link 1) {} busyManager) (final (link 1) {} busyManager) ∧
    (∀ e ∈ history (link 1) {} busyManager, Fits e) ∧
    ((final (link 1) {} busyManager).client.promises 1).any
      (fun m => m.message.type = .transaction) ∧
    ¬ ((∀ p m, (final (link 1) {} busyManager).client.promises p = some m →
        FulfilledBy 1 ((serverPart 1).history (history (link 1) {} busyManager))
          (final (link 1) {} busyManager) p m) ∧
      ∀ e ∈ history (link 1) {} busyManager, HandedOver e) := by
  have hany : ((final (link 1) {} busyManager).client.promises 1).any
      (fun m => m.message.type = .transaction) := by decide +kernel
  refine ⟨path_history (link 1) busyManager {}, by decide +kernel, hany, fun hclaim => ?_⟩
  obtain ⟨m, hm, ht⟩ := (Option.any_eq_true _ _).mp hany
  have ht := of_decide_eq_true ht
  obtain ⟨req, w, -, harr, hans, -⟩ := hclaim.1 1 m hm
  rw [← harr.type, ht] at hans
  rcases hans with hans | hans <;> cases hans

end Binderd.Clients.Matching
