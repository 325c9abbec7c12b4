import Binderd.Broker.References
import Binderd.Wire.Parsing

/-! # The read handlers

A session has one read outstanding, from `Start` on: the read handler of `ReadNextMessage` takes the
messages out of the frame it is called with, processes them one after the other and reads again; it
terminates the session if it is called with an error. An exception that leaves the handler reaches
`ServerImpl::Run`, which logs it and goes on: nothing is read from that session any more.

The machine `daemon` has the server inside it, and for each session what its handler is doing. Each
turn of the handler's loop is a step, so the handlers of the sessions interleave. The frame is the
receive buffer itself, and the objects of a Transaction are rewritten in it, possibly in the
messages that are still to be parsed.

There is no turn in which the daemon dies: nothing comes after it (`processMessage_crashed_iff`). A
turn ends the handler by an exception exactly when the message at the parser's offset is cut short
or has less data than its type needs (`Readable`), so the sessions are all heard in a run exactly
when every turn of it meets that (`sessions_heard_iff`). For a frame of `n` bytes it makes at most
`n / 24 + 1` turns (`turnsOf_le`). -/

namespace Binderd.Broker.Reading

open Binderd.Lib.Bytes Binderd.Lib.Runs
open Binderd.Wire.Streams Binderd.Wire.Messages Binderd.Wire.Transactions Binderd.Wire.RoundTrip
open Binderd.Wire.Parsing (callsLeft callsLeft_lt next_some_iff)
open Binderd.Broker.State Binderd.Broker.Handles Binderd.Broker.Sessions Binderd.Broker.Effects
open Binderd.Broker.Agreement Binderd.Broker.Translation Binderd.Broker.References

/-! ### The receive buffer -/

/-- The memory that `TranslateObjects` leaves. -/
def translatedMemory (self : SessionId) (tr : TransactionData) (st : ServerState) (m : Mem) : Mem :=
  match translateObjects self tr st m with
  | none => m
  | some (_, _, m) => m

/-- The memory of the message after `PostTransaction` of the session `target`. -/
def postMemory (st : ServerState) (target : SessionId) (record : TransactionRecord) (m : Mem) :
    Mem :=
  let st := drawCookie st target
  match objectForHandle (st.sessions target) record.message.destination with
  | none => m
  | some obj =>
    match fromMessage record.message.data with
    | .error _ => m
    | .ok oldTr => translatedMemory target (newTransaction obj oldTr) st m

/-- The memory of the message after `OnTransaction`. -/
def transactionMemory (st : ServerState) (s : SessionId) (msg : Message) (beyond : List UInt8) :
    Mem :=
  match fromMessage msg.data with
  | .error _ => memoryOf msg beyond
  | .ok tr =>
    match translateObjects s tr st (memoryOf msg beyond) with
    | none => memoryOf msg beyond
    | some (_, st, m) =>
      match findSessionByHandle st.registry msg.destination with
      | none => m
      | some target => postMemory st target ⟨s, msg.cookie, inMemory msg m⟩ m

/-- What follows the data of a message: the rest of the frame, and then the daemon's heap. -/
def following (msg : Received) (buffer heap : List UInt8) : List UInt8 :=
  buffer.drop (msg.data.start + (msg.data.bytes buffer).length) ++ heap

/-- The frame after `ProcessMessage`: only `OnTransaction` writes to it. -/
def processedBuffer (st : ServerState) (s : SessionId) (msg : Received) (buffer heap : List UInt8) :
    List UInt8 :=
  if msg.type = .transaction then
    let m := transactionMemory st s (msg.toMessage buffer) (following msg buffer heap)
    buffer.take msg.data.start ++ slice m 0 (buffer.length - msg.data.start)
  else buffer

theorem length_processedBuffer (st : ServerState) (s : SessionId) (msg : Received)
    (buffer heap : List UInt8) :
    (processedBuffer st s msg buffer heap).length = buffer.length := by
  unfold processedBuffer
  split_ifs
  · simp only [List.length_append, List.length_take, length_slice]
    omega
  · rfl

/-- A Transaction that is delivered is found in the frame as the record of it has it. -/
theorem transactionMemory_of_delivery {st : ServerState} {s : SessionId} {msg : Message}
    {beyond : List UInt8} (d : Delivery st s msg beyond) :
    transactionMemory st s msg beyond = d.m₂ := by
  obtain ⟨hobj, hcomplete, htranslate⟩ := d.delivers
  simp only [transactionMemory, fromMessage_of_complete d.complete, d.translate, d.find, postMemory,
    drawCookie_objectForHandle, hobj, fromMessage_of_complete hcomplete, translatedMemory,
    htranslate]

/-! ### The machine -/

/-- What the read handler of a session is doing. -/
inductive Handler where
  /-- It waits: a `ReadMessageAsync` is outstanding. -/
  | reading
  /-- It is in its loop. -/
  | parsing (parser : MessageParser)
  /-- It has finished, and no read is outstanding. -/
  | ended

/-- The server, with what the read handlers of its sessions are doing. -/
structure Daemon where
  server : ServerState := {}
  handlers : SessionId → Handler := fun _ => .ended

/-- The daemon with the handler of `s` doing something else. -/
def Daemon.set (d : Daemon) (s : SessionId) (x : Handler) : Daemon :=
  { d with handlers := Function.update d.handlers s x }

/-- What can happen to the daemon. -/
inductive DaemonAction where
  /-- A connection is accepted, and `Start` reads the first message. -/
  | accept
  /-- The read fails, and the handler is called with an error. -/
  | readError (s : SessionId) (order : List ℕ)
  /-- The handler is called with a frame. -/
  | frame (s : SessionId) (body : List UInt8)
  /-- The handler takes up the next message; `heap` is what follows the frame in memory. -/
  | turn (s : SessionId) (heap : List UInt8)
deriving DecidableEq

/-- One turn of the loop of the read handler: `Next`, then `ProcessMessage`; `none` if the daemon
dies. -/
def handlerTurn (d : Daemon) (s : SessionId) (p : MessageParser) (heap : List UInt8) :
    Option (Daemon × List Write) :=
  match p.next with
  | .error _ => some (d.set s .ended, [])
  | .ok (none, _) => some (d.set s .reading, [])
  | .ok (some msg, q) =>
    match processMessage d.server s (msg.toMessage p.buffer) (following msg p.buffer heap) with
    | .error .crashed => none
    | .error (.thrown _) => some (d.set s .ended, [])
    | .ok (st, writes) =>
      let buffer := processedBuffer d.server s msg p.buffer heap
      some (({ d with server := st }).set s (.parsing { q with buffer := buffer }), writes)

/-- One step of the daemon. A connection and a failed read are steps of the server too. -/
def daemonStep (d : Daemon) : DaemonAction → Option (Daemon × List Write)
  | .accept =>
    (step d.server .accept).map fun r =>
      (({ d with server := r.1 }).set d.server.numSessions .reading, r.2)
  | .readError s order =>
    match d.handlers s with
    | .reading =>
      (step d.server (.terminate s order)).map fun r =>
        (({ d with server := r.1 }).set s .ended, r.2)
    | _ => none
  | .frame s body =>
    match d.handlers s with
    | .reading => some (d.set s (.parsing { buffer := body }), [])
    | _ => none
  | .turn s heap =>
    match d.handlers s with
    | .parsing p => handlerTurn d s p heap
    | _ => none

/-- **The daemon.** -/
def daemon : Machine Daemon DaemonAction Write := ⟨{}, daemonStep⟩

/-- The steps of the daemon, as its histories record them. -/
abbrev DaemonStep := Transition Daemon DaemonAction Write

/-! ### What a turn needs -/

/-- The number of bytes that the handlers read of the data without catching exceptions. -/
def dataNeeded : MessageType → ℕ
  | .acquire | .release => 8
  | .requestDeathNotification | .clearDeathNotification => 16
  | _ => 0

/-- If bytes are left, there is a whole message at the parser's offset, with the data its type
needs. -/
def ReadableAt (p : MessageParser) : Prop :=
  p.consumed < p.buffer.length → WholeAt p.buffer p.consumed ∧
    dataNeeded (messageAt p.buffer p.consumed).type ≤ sizeAt p.buffer p.consumed

instance (p : MessageParser) : Decidable (ReadableAt p) :=
  inferInstanceAs (Decidable (_ → _))

theorem onReference_ok_iff (st : ServerState) (s : SessionId) (msg : Message) :
    (∃ r, onReference st s msg = .ok r) ↔ 8 ≤ msg.data.length := by
  simp only [onReference, BinaryReader.readUint64, bind, Except.bind]
  rcases Nat.lt_or_ge msg.data.length (0 + 8) with h | h
  · rw [BinaryReader.readValue_of_lt h]
    simp
    omega
  · rw [BinaryReader.readValue_of_le h]
    simp only [pure, Except.pure, Except.ok.injEq, exists_eq', true_iff]
    omega

theorem onDeathNotification_ok_iff (st : ServerState) (s : SessionId) (msg : Message) :
    (∃ r, onDeathNotification st s msg = .ok r) ↔ 16 ≤ msg.data.length := by
  simp only [onDeathNotification, BinaryReader.readUint64, bind, Except.bind]
  rcases Nat.lt_or_ge msg.data.length (0 + 8) with h | h
  · rw [BinaryReader.readValue_of_lt h]
    simp
    omega
  · rw [BinaryReader.readValue_of_le h]
    simp only
    rcases Nat.lt_or_ge msg.data.length (0 + 8 + 8) with h' | h'
    · rw [BinaryReader.readValue_of_lt h']
      simp
      omega
    · rw [BinaryReader.readValue_of_le h']
      simp only [pure, Except.pure, Except.ok.injEq, exists_eq', true_iff]
      omega

theorem exists_mapError_ok_iff {α ε ε' : Type} {x : Except ε α} {f : ε → ε'} :
    (∃ a, x.mapError f = .ok a) ↔ ∃ a, x = .ok a :=
  exists_congr fun _ => ⟨ok_of_mapError, fun h => mapError_of_ok h f⟩

/-- `ProcessMessage` returns exactly when the data are long enough and the daemon survives. -/
theorem processMessage_ok_iff (st : ServerState) (s : SessionId) (msg : Message)
    (beyond : List UInt8) :
    (∃ r, processMessage st s msg beyond = .ok r) ↔
      dataNeeded msg.type ≤ msg.data.length ∧ ¬ Crashes msg := by
  by_cases ht : msg.type = .transaction
  · have hcrash : onTransaction st s msg beyond = none ↔ _ := onTransaction_eq_none
    simp only [processMessage, dataNeeded, Crashes, ht, ← hcrash, zero_le, true_and]
    cases onTransaction st s msg beyond <;> simp
  · have hcrash : ¬ Crashes msg := fun h => ht h.1
    simp only [hcrash, not_false_iff, and_true]
    unfold processMessage dataNeeded
    cases hm : msg.type with
    | transaction => exact absurd hm ht
    | acquire => exact exists_mapError_ok_iff.trans (onReference_ok_iff st s msg)
    | release => exact exists_mapError_ok_iff.trans (onReference_ok_iff st s msg)
    | requestDeathNotification =>
      exact exists_mapError_ok_iff.trans (onDeathNotification_ok_iff st s msg)
    | clearDeathNotification =>
      exact exists_mapError_ok_iff.trans (onDeathNotification_ok_iff st s msg)
    | _ => simp

/-- An exception leaves `ProcessMessage` only if the data are too short. -/
theorem short_of_thrown {st : ServerState} {s : SessionId} {msg : Message} {beyond : List UInt8}
    {e : Exn} (h : processMessage st s msg beyond = .error (.thrown e)) :
    msg.data.length < dataNeeded msg.type := by
  by_contra hlen
  have hcrash : ¬ Crashes msg := by
    intro hc
    rw [processMessage_crashed_iff.mpr hc] at h
    cases h
  obtain ⟨r, hr⟩ := (processMessage_ok_iff st s msg beyond).mpr ⟨not_lt.mp hlen, hcrash⟩
  rw [h] at hr
  cases hr

/-- The data of a whole message. -/
theorem length_data_messageAt {buffer : List UInt8} {offset : ℕ} (h : WholeAt buffer offset) :
    ((messageAt buffer offset).toMessage buffer).data.length = sizeAt buffer offset := by
  have hend : offset + 24 + (sizeAt buffer offset + 3) / 4 * 4 ≤ buffer.length := h
  simp only [Received.toMessage, messageAt, View.bytes, List.length_take, List.length_drop]
  omega

/-- **What a turn does.** -/
inductive Turn (d : Daemon) (s : SessionId) (p : MessageParser) (heap : List UInt8) :
    Daemon × List Write → Prop
  /-- An exception leaves the handler. -/
  | threw : ¬ ReadableAt p → Turn d s p heap (d.set s .ended, [])
  /-- The frame is used up. -/
  | finished : p.buffer.length ≤ p.consumed → Turn d s p heap (d.set s .reading, [])
  /-- A message is processed. -/
  | processed {msg beyond st writes buffer} : p.consumed < p.buffer.length → ReadableAt p →
      processMessage d.server s msg beyond = .ok (st, writes) →
      buffer.length = p.buffer.length →
      Turn d s p heap (({ d with server := st }).set s
        (.parsing ⟨buffer, p.consumed + endOf p.buffer p.consumed⟩), writes)

theorem handlerTurn_turn {d : Daemon} {s : SessionId} {p : MessageParser} {heap : List UInt8}
    {r : Daemon × List Write} (h : handlerTurn d s p heap = some r) : Turn d s p heap r := by
  unfold handlerTurn at h
  rw [next_eq] at h
  rcases Nat.lt_or_ge p.consumed p.buffer.length with hlt | hge
  · rw [if_neg (by omega)] at h
    by_cases hw : WholeAt p.buffer p.consumed
    · rw [if_pos hw] at h
      simp only at h
      cases hp : processMessage d.server s ((messageAt p.buffer p.consumed).toMessage p.buffer)
        (following (messageAt p.buffer p.consumed) p.buffer heap) with
      | error f =>
        rw [hp] at h
        cases f with
        | crashed => cases h
        | thrown e =>
          cases h
          refine .threw fun hr => ?_
          have hshort := short_of_thrown hp
          rw [length_data_messageAt hw] at hshort
          exact absurd (hr hlt).2 (not_le.mpr hshort)
      | ok r =>
        have hlen := ((processMessage_ok_iff d.server s _ _).mp ⟨r, hp⟩).1
        rw [length_data_messageAt hw] at hlen
        rw [hp] at h
        cases h
        exact .processed hlt (fun _ => ⟨hw, hlen⟩) hp (length_processedBuffer ..)
    · rw [if_neg hw] at h
      cases h
      exact .threw fun hr => hw (hr hlt).1
  · rw [if_pos hge] at h
    cases h
    exact .finished hge

/-- The daemon dies in a turn exactly when the message that is taken up makes it. -/
theorem handlerTurn_eq_none {d : Daemon} {s : SessionId} {p : MessageParser} {heap : List UInt8} :
    handlerTurn d s p heap = none ↔
      ∃ msg q, p.next = .ok (some msg, q) ∧ Crashes (msg.toMessage p.buffer) := by
  unfold handlerTurn
  cases hn : p.next with
  | error e => simp
  | ok r =>
    obtain ⟨msg, q⟩ := r
    cases msg with
    | none => simp
    | some msg =>
      simp only [Except.ok.injEq, Prod.mk.injEq, Option.some.injEq]
      have hcrash : processMessage d.server s (msg.toMessage p.buffer)
          (following msg p.buffer heap) = .error .crashed ↔ _ := processMessage_crashed_iff
      constructor
      · intro h
        split at h
        · exact ⟨msg, q, ⟨rfl, rfl⟩, hcrash.mp ‹_›⟩
        · cases h
        · cases h
      · rintro ⟨_, _, ⟨rfl, rfl⟩, hc⟩
        rw [hcrash.mpr hc]

/-! ### The handlers and the server -/

/-- **What an action can do to the daemon.** -/
inductive DaemonEffect (d : Daemon) : DaemonAction → Daemon → Prop
  | accepted {st writes} : step d.server .accept = some (st, writes) →
      DaemonEffect d .accept (({ d with server := st }).set d.server.numSessions .reading)
  | failed {s order st writes} : d.handlers s = .reading →
      step d.server (.terminate s order) = some (st, writes) →
      DaemonEffect d (.readError s order) (({ d with server := st }).set s .ended)
  | called {s body} : d.handlers s = .reading →
      DaemonEffect d (.frame s body) (d.set s (.parsing { buffer := body }))
  | turned {s heap p r} : d.handlers s = .parsing p → Turn d s p heap r →
      DaemonEffect d (.turn s heap) r.1

theorem daemonStep_effect {d : Daemon} {a : DaemonAction} {r : Daemon × List Write}
    (h : daemonStep d a = some r) : DaemonEffect d a r.1 := by
  cases a with
  | accept =>
    simp only [daemonStep, Option.map_eq_some_iff] at h
    obtain ⟨⟨st, ws⟩, hs, rfl⟩ := h
    exact .accepted hs
  | readError s order =>
    simp only [daemonStep] at h
    split at h
    · next hr =>
      obtain ⟨⟨st, ws⟩, hs, rfl⟩ := Option.map_eq_some_iff.mp h
      exact .failed hr hs
    · cases h
  | frame s body =>
    simp only [daemonStep] at h
    split at h
    · next hr =>
      cases h
      exact .called hr
    · cases h
  | turn s heap =>
    simp only [daemonStep] at h
    split at h
    · next p hp => exact .turned hp (handlerTurn_turn h)
    · cases h

/-- A session whose handler is at work is live. -/
def HandlersLive (d : Daemon) : Prop := ∀ s, d.handlers s ≠ .ended → d.server.Live s

/-- A session whose handler has finished is not live. -/
def EndedDead (d : Daemon) : Prop := ∀ s, d.handlers s = .ended → ¬ d.server.Live s

/-- The state of the server is one that the server reaches by itself. -/
def ServerReachable (d : Daemon) : Prop := ∃ h, Run server h d.server

theorem set_handlers_self (d : Daemon) (s : SessionId) (x : Handler) :
    (d.set s x).handlers s = x := by
  simp [Daemon.set]

theorem set_handlers_of_ne (d : Daemon) {s t : SessionId} (x : Handler) (h : t ≠ s) :
    (d.set s x).handlers t = d.handlers t := by
  simp [Daemon.set, Function.update_of_ne h]

theorem HandlersLive.set {d : Daemon} (hd : HandlersLive d) {st : ServerState} {s : SessionId}
    {x : Handler} (hst : ∀ t, t ≠ s → d.server.Live t → st.Live t) (hx : x ≠ .ended → st.Live s) :
    HandlersLive (({ d with server := st }).set s x) := by
  intro t ht
  by_cases hts : t = s
  · subst hts
    rw [set_handlers_self] at ht
    exact hx ht
  · rw [set_handlers_of_ne _ _ hts] at ht
    exact hst t hts (hd t ht)

/-- A message that is processed is a step of the server. -/
theorem step_of_processMessage {st : ServerState} {s : SessionId} {msg : Message}
    {beyond : List UInt8} {r : ServerState × List Write} (hs : st.Live s)
    (h : processMessage st s msg beyond = .ok r) : step st (.process s msg beyond) = some r := by
  simp only [step, if_pos hs, h]

theorem ServerReachable.step {d : Daemon} {a : Action} {st : ServerState} {writes : List Write}
    (hd : ServerReachable d) (hs : step d.server a = some (st, writes)) :
    ∃ h, Run server h st := by
  obtain ⟨h, hr⟩ := hd
  exact ⟨h ++ [⟨d.server, a, writes, st⟩], .snoc (e := ⟨d.server, a, writes, st⟩) hr hs⟩

/-- The server's part of a step, and what becomes of the live sessions. -/
theorem HandlersLive.effect {d d' : Daemon} {a : DaemonAction} (hd : HandlersLive d)
    (hreach : ServerReachable d) (heff : DaemonEffect d a d') :
    HandlersLive d' ∧ ServerReachable d' := by
  cases heff with
  | accepted hs =>
    refine ⟨hd.set (fun t _ ht => stays_live_of_effect (step_effect hs) ht (by simp)) fun _ => ?_,
      hreach.step hs⟩
    cases hs
    exact ⟨Nat.lt_succ_self _, by simp⟩
  | failed _ hs =>
    refine ⟨hd.set (fun t hts ht => stays_live_of_effect (step_effect hs) ht ?_)
      (fun hx => absurd rfl hx), hreach.step hs⟩
    rintro order' ha
    cases ha
    exact hts rfl
  | called hs => exact ⟨hd.set (fun t _ ht => ht) fun _ => hd _ (by simp [hs]), hreach⟩
  | @turned s heap p r hp hturn =>
    have hlive : d.server.Live s := hd s (by simp [hp])
    cases hturn with
    | threw _ => exact ⟨hd.set (fun t _ ht => ht) fun hx => absurd rfl hx, hreach⟩
    | finished _ => exact ⟨hd.set (fun t _ ht => ht) fun _ => hlive, hreach⟩
    | processed _ _ hm _ =>
      have hs := step_of_processMessage hlive hm
      refine ⟨hd.set (fun t _ ht => stays_live_of_effect (step_effect hs) ht (by simp)) fun _ =>
        stays_live_of_effect (step_effect hs) hlive (by simp), hreach.step hs⟩

/-- **In every run the sessions whose handler is at work are live, and the server is in a state it
reaches.** -/
theorem handlersLive_of_run {h : List DaemonStep} {d : Daemon} (hr : Run daemon h d) :
    HandlersLive d ∧ ServerReachable d := by
  refine hr.preserves (P := fun d => HandlersLive d ∧ ServerReachable d)
    ⟨fun s hs => absurd rfl hs, [], .nil⟩ ?_
  intro e _ hv ⟨hd, hreach⟩
  exact hd.effect hreach (daemonStep_effect hv)

/-! ### Every session is heard -/

/-- **No session is deaf**: one whose handler has finished has terminated, and has neither handles
nor a role. -/
structure Heard (d : Daemon) : Prop where
  attended : ∀ s < d.server.numSessions, d.handlers s = .ended →
    (d.server.sessions s).terminated = true
  released : ∀ s, d.handlers s = .ended → (∀ k, d.server.registry.handles.lookup k ≠ some s) ∧
    d.server.registry.contextMgr ≠ some s ∧ d.server.registry.monitor ≠ some s

/-- The handler can read what it takes up next. -/
def Handler.CanRead : Handler → Prop
  | .parsing p => ReadableAt p
  | _ => True

instance : DecidablePred Handler.CanRead
  | .parsing p => inferInstanceAs (Decidable (ReadableAt p))
  | .reading => isTrue trivial
  | .ended => isTrue trivial

/-- If the step is a turn of a handler, the handler can read what it takes up. -/
def Readable (e : DaemonStep) : Prop :=
  match e.action with
  | .turn s _ => (e.before.handlers s).CanRead
  | _ => True

instance : DecidablePred Readable
  | ⟨d, .turn s _, _, _⟩ => inferInstanceAs (Decidable (d.handlers s).CanRead)
  | ⟨_, .accept, _, _⟩ => isTrue trivial
  | ⟨_, .readError .., _, _⟩ => isTrue trivial
  | ⟨_, .frame .., _, _⟩ => isTrue trivial

/-- What is left to do for a handler: one turn for each byte, at most, and one to find the end. -/
def Handler.toDo : Handler → ℕ
  | .parsing p => p.buffer.length - p.consumed + 1
  | _ => 0

theorem EndedDead.set {d : Daemon} (hd : EndedDead d) {st : ServerState} {s : SessionId}
    {x : Handler} (hst : ∀ t, t ≠ s → st.Live t → d.server.Live t)
    (hx : x = .ended → ¬ st.Live s) : EndedDead (({ d with server := st }).set s x) := by
  intro t ht
  by_cases hts : t = s
  · subst hts
    rw [set_handlers_self] at ht
    exact hx ht
  · rw [set_handlers_of_ne _ _ hts] at ht
    exact fun hl => hd t ht (hst t hts hl)

theorem live_before {st st' : ServerState} {a : Action} {ws : List Write} {t : SessionId}
    (h : Effect st a st' ws) (ha : a = .accept → t ≠ st.numSessions) (hl : st'.Live t) :
    st.Live t := by
  refine h.live_of_live ?_ hl
  have hlt := hl.1
  rw [h.numSessions] at hlt
  split_ifs at hlt with hacc
  · exact lt_of_le_of_ne (Nat.le_of_lt_succ hlt) (ha hacc)
  · exact hlt

/-- A step whose turn is readable leaves no session behind. -/
theorem EndedDead.effect {d d' : Daemon} {a : DaemonAction} (hd : EndedDead d)
    (hlive : HandlersLive d) (heff : DaemonEffect d a d')
    (hread : ∀ s heap p, a = .turn s heap → d.handlers s = .parsing p → ReadableAt p) :
    EndedDead d' := by
  cases heff with
  | accepted hs =>
    exact hd.set (fun t hts ht => live_before (step_effect hs) (fun _ => hts) ht) (by simp)
  | failed _ hs =>
    refine hd.set (fun t hts ht => live_before (step_effect hs) (by simp) ht) fun _ hl => ?_
    simp only [step] at hs
    split_ifs at hs
    cases hs
    exact ((terminate_live d.server _ _ _).mp hl).2 rfl
  | called _ => exact hd.set (fun t _ ht => ht) (by simp)
  | @turned s heap p r hp hturn =>
    have hs : d.server.Live s := hlive s (by simp [hp])
    cases hturn with
    | threw hnot => exact absurd (hread s heap p rfl hp) hnot
    | finished _ => exact hd.set (fun t _ ht => ht) (by simp)
    | processed _ _ hm _ =>
      have hstep := step_of_processMessage hs hm
      exact hd.set (fun t _ ht => live_before (step_effect hstep) (by simp) ht) (by simp)

theorem heard_of_endedDead {d : Daemon} (hd : EndedDead d) (hreach : ServerReachable d) :
    Heard d := by
  obtain ⟨h, hr⟩ := hreach
  have howners := owners_of_run hr
  have hmonitor := monitorLive_of_run hr
  refine ⟨fun s hs he => ?_, fun s he => ⟨fun k hk => ?_, fun hk => ?_, fun hk => ?_⟩⟩
  · by_contra hne
    exact hd s he ⟨hs, by simpa using hne⟩
  · exact hd s he (howners.handles k s hk).1
  · exact hd s he (howners.contextMgr s hk)
  · exact hd s he (hmonitor s hk)

theorem endedDead_of_run {h : List DaemonStep} {d : Daemon} (hr : Run daemon h d)
    (hread : ∀ e ∈ h, Readable e) : EndedDead d := by
  refine Run.invariant (C := Readable) (P := fun _ d => EndedDead d) ?_ ?_ hr hread
  · exact fun s _ hl => absurd hl.1 (Nat.not_lt_zero s)
  · intro h e hp hd hv hc
    refine hd.effect (handlersLive_of_run hp).1 (daemonStep_effect hv) fun s heap p ha hs => ?_
    simpa only [Readable, ha, hs, Handler.CanRead] using hc

/-- A turn that is not readable leaves its session behind. -/
theorem readable_of_heard {e : DaemonStep} (hlive : HandlersLive e.before) (hv : e.Valid daemon)
    (hheard : Heard e.after) : Readable e := by
  have heff := daemonStep_effect hv
  simp only at heff
  unfold Readable
  generalize e.after = d' at heff hheard
  generalize e.before = d at heff hlive ⊢
  generalize e.action = a at heff ⊢
  cases heff with
  | @turned s heap p r hp hturn =>
    simp only [hp, Handler.CanRead]
    have hs : d.server.Live s := hlive s (by simp [hp])
    cases hturn with
    | threw _ =>
      have hterm := hheard.attended s hs.1 (set_handlers_self d s .ended)
      rw [show (d.set s .ended).server = d.server from rfl, hs.2] at hterm
      cases hterm
    | finished hge => exact fun hlt => absurd hge (Nat.not_le.mpr hlt)
    | processed _ hread _ _ => exact hread
  | _ => trivial

theorem toDo_turn {e : DaemonStep} (hv : e.Valid daemon) {s : SessionId} {heap : List UInt8}
    (ha : e.action = .turn s heap) :
    (e.after.handlers s).toDo < (e.before.handlers s).toDo := by
  have heff := daemonStep_effect hv
  simp only [ha] at heff
  generalize e.after = d' at heff ⊢
  cases heff with
  | @turned s heap p r hp hturn =>
    rw [hp]
    cases hturn with
    | threw _ =>
      rw [set_handlers_self]
      exact Nat.succ_pos _
    | finished _ =>
      rw [set_handlers_self]
      exact Nat.succ_pos _
    | processed hlt _ _ hlen =>
      rw [set_handlers_self]
      simp only [Handler.toDo, hlen, endOf]
      omega

/-- **The sessions are all heard, in every state of a run, exactly when every turn of a handler
finds the message it takes up whole and with the data its type needs**; and a handler does not go on
forever, as every turn leaves less to do. -/
theorem sessions_heard_iff {h : List DaemonStep} {d : Daemon} (hr : Run daemon h d) :
    ((∀ e ∈ h, Heard e.after) ↔ ∀ e ∈ h, Readable e) ∧
      ∀ e ∈ h, ∀ s heap, e.action = .turn s heap →
        (e.after.handlers s).toDo < (e.before.handlers s).toDo := by
  refine ⟨⟨fun hheard e he => ?_, fun hread e he => ?_⟩, fun e he s heap ha => ?_⟩
  · obtain ⟨h1, h2, -, hp, hv, -⟩ := hr.prefix_of_mem he
    exact readable_of_heard (handlersLive_of_run hp).1 hv (hheard e he)
  · obtain ⟨h1, h2, rfl, hp, hv, -⟩ := hr.prefix_of_mem he
    have hafter : Run daemon (h1 ++ [e]) e.after := .snoc hp hv
    refine heard_of_endedDead (endedDead_of_run hafter fun e' he' => hread e' ?_)
      (handlersLive_of_run hafter).2
    rw [List.mem_append, List.mem_singleton] at he'
    rw [List.mem_append, List.mem_cons]
    exact he'.imp id .inl
  · exact toDo_turn (hr.valid he) ha

/-- Session `0` becomes the context manager. -/
def managed : List DaemonAction :=
  [.accept, .frame 0 (pack { type := .setContextMgr }), .turn 0 [], .turn 0 []]

/-- The context manager acquires a handle, and then its connection breaks. -/
def hangUpScenario : List DaemonAction :=
  managed ++ [.frame 0 (pack { type := .acquire, data := leBytes 8 1 }), .turn 0 [], .turn 0 [],
    .readError 0 []]

theorem sessions_heard_hangUpScenario :
    ((history daemon {} hangUpScenario).length = 8 ∧
      ∀ e ∈ history daemon {} hangUpScenario, Readable e) ∧
    ((∀ e ∈ history daemon {} hangUpScenario, Heard e.after) ↔
      ∀ e ∈ history daemon {} hangUpScenario, Readable e) ∧
    ∀ e ∈ history daemon {} hangUpScenario, ∀ s heap, e.action = .turn s heap →
      (e.after.handlers s).toDo < (e.before.handlers s).toDo :=
  ⟨by decide +kernel, sessions_heard_iff (path_history daemon hangUpScenario {})⟩

/-- The context manager sends an `Acquire` without data. -/
def deafScenario : List DaemonAction :=
  managed ++ [.frame 0 (pack { type := .acquire }), .turn 0 []]

/-- The handler of session `0` has finished, the session has not terminated, and it still is the
context manager. -/
theorem session_goes_deaf :
    Run daemon (history daemon {} deafScenario) (final daemon {} deafScenario) ∧
      (final daemon {} deafScenario).handlers 0 = .ended ∧
      ((final daemon {} deafScenario).server.Live 0 ∧
        (final daemon {} deafScenario).server.registry.contextMgr = some 0) ∧
      ¬ Heard (final daemon {} deafScenario) := by
  have hended : (final daemon {} deafScenario).handlers 0 = .ended := by rfl
  refine ⟨path_history daemon deafScenario {}, hended, by decide +kernel, fun hheard => ?_⟩
  exact (hheard.released 0 hended).2.1 (by decide +kernel)

/-! ### The turns for a frame -/

/-- The action is a turn of the handler of `s`. -/
def DaemonAction.isTurnOf (s : SessionId) : DaemonAction → Bool
  | .turn t _ => t = s
  | _ => false

/-- The number of turns that the handler of `s` makes. -/
def turnsOf (s : SessionId) (h : List DaemonStep) : ℕ := h.countP fun e => e.action.isTurnOf s

/-- The number of turns that a handler has left. -/
def Handler.turnsLeft : Handler → ℕ
  | .parsing p => callsLeft p
  | _ => 0

/-- A turn uses up one of the turns that are left, and only a frame makes new ones. -/
theorem turnsLeft_effect {d d' : Daemon} {a : DaemonAction} (heff : DaemonEffect d a d')
    {s : SessionId} (hframe : ∀ body, a ≠ .frame s body) :
    (if a.isTurnOf s then 1 else 0) + (d'.handlers s).turnsLeft ≤
      (d.handlers s).turnsLeft := by
  cases heff with
  | @accepted st writes _ =>
    rw [if_neg (by simp [DaemonAction.isTurnOf]), Nat.zero_add]
    by_cases hs : s = d.server.numSessions
    · rw [hs, set_handlers_self]
      exact Nat.zero_le _
    · rw [set_handlers_of_ne _ _ hs]
  | @failed t _ st writes _ _ =>
    rw [if_neg (by simp [DaemonAction.isTurnOf]), Nat.zero_add]
    by_cases hs : s = t
    · rw [hs, set_handlers_self]
      exact Nat.zero_le _
    · rw [set_handlers_of_ne _ _ hs]
  | @called t body _ =>
    have hs : s ≠ t := fun h => hframe body (by rw [h])
    rw [if_neg (by simp [DaemonAction.isTurnOf]), Nat.zero_add, set_handlers_of_ne _ _ hs]
  | @turned t heap p r hp hturn =>
    by_cases hs : s = t
    · subst hs
      rw [if_pos (by simp [DaemonAction.isTurnOf]), hp]
      have hpos : 0 < callsLeft p := Nat.succ_pos _
      cases hturn with
      | threw _ | finished _ =>
        rw [set_handlers_self]
        exact hpos
      | processed hlt hread _ hlen =>
        have hnext := next_some_iff.mpr ⟨hlt, (hread hlt).1, rfl, rfl⟩
        have hless := callsLeft_lt hnext hlen
        rw [set_handlers_self, Nat.add_comm]
        exact hless
    · rw [if_neg (by simpa [DaemonAction.isTurnOf] using Ne.symm hs), Nat.zero_add]
      cases hturn with
      | threw _ | finished _ | processed _ _ _ _ => rw [set_handlers_of_ne _ _ hs]

/-- **The turns between two frames are bounded by the size of the first.** -/
theorem turnsOf_le {d d' : Daemon} {h : List DaemonStep} (hp : Path daemon d h d') {s : SessionId}
    (hframe : ∀ e ∈ h, ∀ body, e.action ≠ .frame s body) :
    turnsOf s h + (d'.handlers s).turnsLeft ≤ (d.handlers s).turnsLeft := by
  induction hp with
  | nil => simp [turnsOf]
  | @snoc h e _ hv ih =>
    have hbefore := ih fun e he => hframe e (by simp [he])
    have hstep := turnsLeft_effect (daemonStep_effect hv) (hframe e (by simp))
    simp only at hstep
    have hcount : turnsOf s (h ++ [e]) =
        turnsOf s h + if e.action.isTurnOf s then 1 else 0 := by
      unfold turnsOf
      rw [List.countP_append, List.countP_singleton]
    rw [hcount]
    omega

end Binderd.Broker.Reading
