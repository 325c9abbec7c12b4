import Binderd.Broker.Effects

/-! # What the monitor is sent

`WriteMessage` forwards each message it writes to the monitor, if there is one, and so does
`OnSetContextManager` the request. The forwarding goes past `WriteMessage`, so no LogEntry is
forwarded in turn, not even when the monitor is the receiver of the logged message.

`logs` are the LogEntry messages among what is written, `messages` those that `WriteMessage` wrote.
The handlers and `Terminate` write from many places, but always so that the logs are the LogEntry
messages for the messages (`Logged`), and this is kept when what is written is put together. -/

namespace Binderd.Broker.Monitoring

open Binderd.Lib.Bytes Binderd.Lib.Tables Binderd.Lib.Runs
open Binderd.Wire.Streams Binderd.Wire.Messages Binderd.Wire.Transactions
open Binderd.Broker.State Binderd.Broker.Handles Binderd.Broker.Sessions Binderd.Broker.Effects

/-- The LogEntry for a message: the packed message, after its length. -/
def logEntry (msg : Message) : Message :=
  { type := .logEntry, data := leBytes 4 (pack msg).length ++ pack msg }

/-- The LogEntry messages that are due for a list of messages. -/
def entries (monitor : Option SessionId) (msgs : List Message) : List (SessionId × Message) :=
  match monitor with
  | none => []
  | some m => msgs.map fun msg => (m, logEntry msg)

/-- The LogEntry messages among the writes, with the session each is written to. -/
def logs (ws : List Write) : List (SessionId × Message) :=
  (ws.filter fun w => decide (w.message.type = .logEntry)).map fun w => (w.session, w.message)

/-- The messages that `WriteMessage` wrote. -/
def messages (ws : List Write) : List Message :=
  (ws.filter fun w => decide (w.source ≠ .forwardToMonitor)).map (·.message)

/-- The monitor while a step writes. A session becomes the monitor before it is answered, and one
that terminates is the monitor until the last death notification is written. -/
def monitorDuring (e : ServerStep) : Option SessionId :=
  match e.action with
  | .terminate _ _ => e.before.registry.monitor
  | _ => e.after.registry.monitor

/-- The request for the role of the context manager that the step processes. -/
def requestIn (e : ServerStep) : List Message :=
  match e.action with
  | .process _ msg _ => if msg.type = .setContextMgr then [msg] else []
  | _ => []

/-- What the monitor has to be told of a step, in order. -/
def toBeLogged (e : ServerStep) : List Message := requestIn e ++ messages e.emitted

/-! ### Putting writes together -/

theorem entries_append (m : Option SessionId) (l l' : List Message) :
    entries m (l ++ l') = entries m l ++ entries m l' := by
  cases m <;> simp [entries]

theorem logs_append (ws ws' : List Write) : logs (ws ++ ws') = logs ws ++ logs ws' := by
  simp [logs]

theorem messages_append (ws ws' : List Write) :
    messages (ws ++ ws') = messages ws ++ messages ws' := by
  simp [messages]

theorem logs_forwardToMonitor (st : ServerState) (msg : Message) :
    logs (forwardToMonitor st msg) = entries st.registry.monitor [msg] := by
  unfold forwardToMonitor
  cases st.registry.monitor with
  | none => rfl
  | some m =>
    have hlen := length_pack msg
    have hpad : ((pack msg).length + 3) / 4 * 4 - (pack msg).length = 0 := by omega
    have hint : (((pack msg).length : ℤ) % 2 ^ 32).toNat = (pack msg).length % 256 ^ 4 := by
      norm_cast
    simp only [BinaryWriter.writeSizedData, BinaryWriter.writeInt32, BinaryWriter.writeValue,
      BinaryWriter.writeData, BinaryWriter.padding, hpad, hint, leBytes_mod, if_true,
      List.replicate_zero, List.append_nil, List.nil_append]
    rfl

theorem messages_forwardToMonitor (st : ServerState) (msg : Message) :
    messages (forwardToMonitor st msg) = [] := by
  unfold forwardToMonitor
  cases st.registry.monitor <;> simp [messages]

/-- **Everything is logged.** The LogEntry messages are those for the messages written. -/
def Logged (monitor : Option SessionId) (ws : List Write) : Prop :=
  logs ws = entries monitor (messages ws)

theorem logged_nil (m : Option SessionId) : Logged m [] := by
  cases m <;> rfl

theorem Logged.append {m : Option SessionId} {ws ws' : List Write} (h : Logged m ws)
    (h' : Logged m ws') : Logged m (ws ++ ws') := by
  unfold Logged at h h' ⊢
  rw [logs_append, messages_append, entries_append, h, h']

theorem logged_flatMap {α : Type} {m : Option SessionId} {f : α → List Write} :
    ∀ (l : List α), (∀ x ∈ l, Logged m (f x)) → Logged m (l.flatMap f)
  | [], _ => logged_nil m
  | x :: l, h => by
    rw [List.flatMap_cons]
    exact (h x (by simp)).append (logged_flatMap l fun y hy => h y (by simp [hy]))

theorem logged_writeMessage {st : ServerState} {s : SessionId} {msg : Message} {source : Source}
    {m : Option SessionId} (hm : st.registry.monitor = m) (ht : msg.type ≠ .logEntry)
    (hs : source ≠ .forwardToMonitor) : Logged m (writeMessage st s msg source) := by
  subst hm
  have hlogs : logs [⟨s, msg, source⟩] = [] := by simp [logs, ht]
  have hmsgs : messages [⟨s, msg, source⟩] = [msg] := by simp [messages, hs]
  unfold Logged writeMessage
  rw [← List.singleton_append, logs_append, messages_append, hlogs, hmsgs, logs_forwardToMonitor,
    messages_forwardToMonitor, List.append_nil, List.nil_append]

/-! ### What the handlers write -/

theorem logged_sendStatus {st : ServerState} {m : Option SessionId}
    (hm : st.registry.monitor = m) (s : SessionId) (msg : Message) (status : Status) :
    Logged m (sendStatus st s msg status) :=
  logged_writeMessage hm (by simp) (by simp)

theorem logged_sendDeathNotification (st : ServerState) (s : SessionId) (k : ℕ) :
    Logged st.registry.monitor (sendDeathNotification st s k) := by
  unfold sendDeathNotification
  cases (st.sessions s).deathNotifications.lookup k with
  | none => exact logged_nil _
  | some id => exact logged_writeMessage rfl (by simp) (by simp)

theorem logged_removeHandle (st : ServerState) (k : ℕ) :
    Logged st.registry.monitor (removeHandle st k).2 := by
  unfold removeHandle
  split_ifs
  · cases st.registry.references.lookup k with
    | none => exact logged_nil _
    | some refs => exact logged_flatMap _ fun s _ => logged_sendDeathNotification st s k
  · exact logged_nil _

theorem logged_removeHandles : ∀ (order : List ℕ) (st : ServerState),
    Logged st.registry.monitor (removeHandles st order).2
  | [], _ => logged_nil _
  | k :: order, st => by
    have h := logged_removeHandles order (removeHandle st k).1
    rw [(removeHandle_frame st k).monitor] at h
    exact (logged_removeHandle st k).append h

theorem logged_delivery {st : ServerState} {s : SessionId} {msg : Message} {beyond : List UInt8}
    (d : Delivery st s msg beyond) : Logged d.state.registry.monitor d.writes :=
  (logged_writeMessage rfl (by simp [Delivery.message, newMessage]) (by simp)).append
    (logged_sendStatus rfl ..)

/-- A request for the role of the context manager is logged before its answer. -/
theorem logs_request {st st' : ServerState} (hm : st'.registry.monitor = st.registry.monitor)
    (s : SessionId) (msg : Message) (status : Status) :
    logs (forwardToMonitor st msg ++ sendStatus st' s msg status) =
      entries st'.registry.monitor
        ([msg] ++ messages (forwardToMonitor st msg ++ sendStatus st' s msg status)) := by
  have hstatus : Logged st'.registry.monitor (sendStatus st' s msg status) :=
    logged_sendStatus rfl ..
  unfold Logged at hstatus
  rw [logs_append, logs_forwardToMonitor, hstatus, messages_append, messages_forwardToMonitor,
    List.nil_append, entries_append, hm]

/-! ### Whole runs -/

/-- A step that is no request for the role of the context manager logs what it writes. -/
theorem logged_of_effect {e : ServerStep} (h : Effect e.before e.action e.after e.emitted)
    (hreq : requestIn e = []) : Logged (monitorDuring e) e.emitted := by
  obtain ⟨st, a, ws, st'⟩ := e
  change Effect st a st' ws at h
  have hno : ∀ {s msg beyond}, a = .process s msg beyond → msg.type ≠ .setContextMgr := by
    rintro s msg beyond rfl ht
    simp [requestIn, ht] at hreq
  cases h with
  | connected => exact logged_nil _
  | ignored _ _ => exact logged_nil _
  | answered _ _ _ _ => exact logged_sendStatus rfl ..
  | rejected _ _ _ _ => exact logged_sendStatus rfl ..
  | refused _ _ _ _ _ _ => exact logged_sendStatus rfl ..
  | delivered d => exact logged_delivery d
  | forwarded _ ht _ =>
    refine logged_writeMessage rfl ?_ (by simp)
    rcases ht with ht | ht <;> simp [ht]
  | contextMgrTaken _ ht _ => exact absurd ht (hno rfl)
  | contextMgrSet _ ht _ _ => exact absurd ht (hno rfl)
  | monitorSet _ _ _ _ => exact logged_sendStatus rfl ..
  | reference _ _ _ _ => exact logged_sendStatus rfl ..
  | death _ _ _ _ _ => exact logged_sendStatus rfl ..
  | terminated _ _ hr =>
    subst hr
    exact logged_removeHandles _ _

/-- **The log of a step.** -/
theorem logs_step {e : ServerStep} (hv : e.Valid server) :
    logs e.emitted = entries (monitorDuring e) (toBeLogged e) := by
  unfold toBeLogged
  by_cases hreq : requestIn e = []
  · rw [hreq, List.nil_append]
    exact logged_of_effect (step_effect hv) hreq
  · obtain ⟨s, msg, beyond, ha, ht⟩ : ∃ s msg beyond, e.action = .process s msg beyond ∧
        msg.type = .setContextMgr := by
      cases ha : e.action with
      | process s msg beyond =>
        refine ⟨s, msg, beyond, rfl, ?_⟩
        by_contra ht
        simp [requestIn, ha, ht] at hreq
      | accept => simp [requestIn, ha] at hreq
      | terminate s order => simp [requestIn, ha] at hreq
    have hp : processMessage e.before s msg beyond = .ok (onSetContextManager e.before s msg) := by
      simp only [processMessage, ht]
    have hreq' : requestIn e = [msg] := by simp [requestIn, ha, ht]
    have hmon : monitorDuring e = e.after.registry.monitor := by simp [monitorDuring, ha]
    rw [hreq', hmon, (step_process hv ha hp).1, (step_process hv ha hp).2]
    unfold onSetContextManager
    cases e.before.registry.contextMgr with
    | none => exact logs_request rfl ..
    | some t => exact logs_request rfl ..

theorem no_logEntry_step {e : ServerStep} (hv : e.Valid server) :
    ∀ msg ∈ toBeLogged e, msg.type ≠ .logEntry := by
  intro msg hmsg ht
  rcases List.mem_append.mp hmsg with hmsg | hmsg
  · unfold requestIn at hmsg
    split at hmsg
    · split_ifs at hmsg with hreq
      · rw [List.mem_singleton] at hmsg
        rw [hmsg, hreq] at ht
        cases ht
      · cases hmsg
    · cases hmsg
  · obtain ⟨w, hw, rfl⟩ := List.mem_map.mp hmsg
    rw [List.mem_filter, decide_eq_true_eq] at hw
    have hwritten := (step_effect hv).written hw.1
    generalize e.action = a at hwritten
    generalize e.after = st' at hwritten
    generalize e.emitted = ws at hwritten
    cases hwritten with
    | log hlog _ => exact hw.2 hlog
    | status _ => cases ht
    | transaction d => cases ht
    | reply _ hr _ _ =>
      simp only at ht
      rw [ht] at hr
      rcases hr with hr | hr <;> cases hr
    | deadBinder _ _ => cases ht

/-- **The monitor is told everything.** In every run the LogEntry messages are, one for one and in
order, those for the messages that `WriteMessage` wrote and the requests for the role of the context
manager that came in while there was a monitor, each written to the monitor of the time; and none of
these messages is a LogEntry itself. -/
theorem monitor_complete {h : List ServerStep} {st : ServerState} (hr : Run server h st) :
    logs (outputs h) = h.flatMap (fun e => entries (monitorDuring e) (toBeLogged e)) ∧
      ∀ e ∈ h, ∀ msg ∈ toBeLogged e, msg.type ≠ .logEntry := by
  refine ⟨?_, fun e he => no_logEntry_step (hr.valid he)⟩
  have hv : ∀ e ∈ h, e.Valid server := fun e he => hr.valid he
  clear hr
  induction h with
  | nil => rfl
  | cons e h ih =>
    have hsplit : outputs (e :: h) = e.emitted ++ outputs h := rfl
    rw [hsplit, logs_append, logs_step (hv e (by simp)), ih fun x hx => hv x (by simp [hx])]
    rfl

/-- The monitor `1` watches session `0` become the context manager, sends it a transaction and is
answered; then it terminates, and what is written is not logged any more. -/
def watchScenario : List Action :=
  [.accept, .accept, .process 1 { type := .setMonitor } [],
    .process 0 { type := .setContextMgr } [], .process 1 (transactMessage 0 5 1 [1, 2, 3] []) [],
    .process 0 { type := .transactionReply } [], .terminate 1 [],
    .process 0 { type := .setContextMgr } []]

theorem monitor_complete_watchScenario :
    (logs (outputs (history server {} watchScenario))).length = 6 ∧
      logs (outputs (history server {} watchScenario)) =
        (history server {} watchScenario).flatMap
          fun e => entries (monitorDuring e) (toBeLogged e) :=
  ⟨by decide +kernel, (monitor_complete (path_history server watchScenario {})).1⟩

end Binderd.Broker.Monitoring
