import Binderd.Broker.Refines
import Binderd.Wire.Links
import Binderd.Wire.WriteQueue

/-! # The daemon and its connections

The daemon with both directions of each of its connections, from the write queue of the one side to
the read handler of the other. The clients send what they like, and the steps of the sockets, of the
read handlers and of the clients come in any order.

The read handler of a session starts to read when the session starts, and again at the end of its
loop, so a frame is only taken off a connection while the handler waits for one. A session that
terminates has closed its messenger: what is written to it from then on does not leave the queue.

* `messages_in_order`: a session's messages are processed once each and in order;
* `system_refines_broker`: what the clients sent went into a broker, and what they received came out
  of it. -/

namespace Binderd.Broker.Network

open Binderd.Lib.Bytes Binderd.Lib.Runs Binderd.Lib.Refinement
open Binderd.Wire.Streams Binderd.Wire.Messages Binderd.Wire.RoundTrip Binderd.Wire.Framing
open Binderd.Wire.Links
open Binderd.Wire.WriteQueue (transfer_writeQueue)
open Binderd.Broker.State Binderd.Broker.Handles Binderd.Broker.Sessions Binderd.Broker.Effects
open Binderd.Broker.Reading Binderd.Broker.Abstract Binderd.Broker.Refines

/-! ### The messages of a session -/

/-- The frames that the handler of `s` was called with. -/
def framesOf (s : SessionId) (h : List DaemonStep) : List (List UInt8) :=
  h.flatMap fun e =>
    match e.action with
    | .frame t body => if t = s then [body] else []
    | _ => []

/-- The message of `s`, if this is one. -/
def messageOf (s : SessionId) : Input → Option Message
  | .message t msg => if t = s then some msg else none
  | _ => none

/-- The messages that the handler of `s` has taken out of its frames. -/
def heardFrom (s : SessionId) (h : List DaemonStep) : List Message :=
  (h.filterMap received).filterMap (messageOf s)

/-- The handler, when `heard` of the messages `got` have been processed. -/
def Attends (heard got : List Message) : Handler → Prop
  | .reading => heard = got
  | .parsing p => p.buffer.length ≤ p.consumed ∧ heard = got ∨
      ∃ m, Representable m ∧ p = { buffer := pack m } ∧ got = heard ++ [m]
  | .ended => heard <+: got

theorem Attends.beginning {heard got : List Message} {x : Handler} (h : Attends heard got x) :
    heard <+: got := by
  cases x with
  | reading => exact h ▸ List.prefix_rfl
  | parsing p =>
    rcases h with ⟨-, rfl⟩ | ⟨m, -, -, rfl⟩
    · exact List.prefix_rfl
    · exact List.prefix_append heard [m]
  | ended => exact h

theorem framesOf_snoc (s : SessionId) (h : List DaemonStep) (e : DaemonStep) :
    framesOf s (h ++ [e]) = framesOf s h ++ framesOf s [e] := by
  simp [framesOf]

theorem heardFrom_snoc (s : SessionId) (h : List DaemonStep) (e : DaemonStep) :
    heardFrom s (h ++ [e]) = heardFrom s h ++ heardFrom s [e] := by
  simp [heardFrom]

/-- A packed message is the only one in its frame. -/
theorem next_pack {m : Message} (h : Representable m) :
    ∃ r : Received, r.toMessage (pack m) = m ∧ (MessageParser.mk (pack m) 0).next =
      .ok (some r, ⟨pack m, (pack m).length⟩) := by
  have hu := unpack_pack h [] []
  simp only [List.nil_append, List.append_nil, List.length_nil, Nat.zero_add] at hu
  have hl := length_pack m
  refine ⟨⟨m.type, m.destination, m.cookie, ⟨24, m.data.length⟩⟩,
    by rw [Received.toMessage, data_bytes_pack], ?_⟩
  simp only [MessageParser.next, hu, bind, Except.bind, pure, Except.pure]
  rw [if_neg (by omega), if_neg (by omega), Nat.zero_add]

theorem Attends.turn {d : Daemon} {s : SessionId} {p : MessageParser} {heap : List UInt8}
    {heard got : List Message} (h : Attends heard got (.parsing p)) {d' : Daemon}
    {ws : List Write} {e : DaemonStep} (he : e = ⟨d, .turn s heap, ws, d'⟩)
    (hp : d.handlers s = .parsing p) (hturn : handlerTurn d s p heap = some (d', ws)) :
    Attends (heard ++ heardFrom s [e]) got (d'.handlers s) := by
  subst he
  rcases h with ⟨hend, rfl⟩ | ⟨m, hm, rfl, rfl⟩
  · -- the frame is used up
    have hnext : p.next = .ok (none, p) := by rw [MessageParser.next, if_pos hend]
    simp only [handlerTurn, hnext] at hturn
    cases hturn
    rw [set_handlers_self]
    simp [Attends, heardFrom, received, hp, hnext]
  · obtain ⟨r, hr, hnext⟩ := next_pack hm
    have hheard : heardFrom s [⟨d, .turn s heap, ws, d'⟩] = [m] := by
      simp [heardFrom, received, hp, hnext, hr, messageOf]
    rw [hheard]
    simp only [handlerTurn, hnext] at hturn
    split at hturn
    · cases hturn
    · cases hturn
      rw [set_handlers_self]
      exact List.prefix_rfl
    · cases hturn
      rw [set_handlers_self]
      exact .inl ⟨by simp [length_processedBuffer], rfl⟩

theorem handlerTurn_handlers_of_ne {d : Daemon} {s t : SessionId} {p : MessageParser}
    {heap : List UInt8} {r : Daemon × List Write} (hts : s ≠ t)
    (h : handlerTurn d t p heap = some r) : r.1.handlers s = d.handlers s := by
  cases handlerTurn_turn h with
  | threw _ => exact set_handlers_of_ne _ _ hts
  | finished _ => exact set_handlers_of_ne _ _ hts
  | processed _ _ _ _ => exact set_handlers_of_ne _ _ hts

/-- The action is about the session `s`. -/
def Concerns (s : SessionId) (d : Daemon) : DaemonAction → Prop
  | .accept => s = d.server.numSessions
  | .readError t _ | .frame t _ | .turn t _ => s = t

theorem quiet_of_not_concerns {s : SessionId} {e : DaemonStep} (hv : e.Valid daemon)
    (hn : ¬ Concerns s e.before e.action) :
    framesOf s [e] = [] ∧ heardFrom s [e] = [] ∧ e.after.handlers s = e.before.handlers s := by
  obtain ⟨d, action, ws, d'⟩ := e
  simp only [Transition.Valid, daemon] at hv hn ⊢
  cases action with
  | accept =>
    simp only [daemonStep, Option.map_eq_some_iff, Prod.mk.injEq] at hv
    obtain ⟨r, -, rfl, -⟩ := hv
    exact ⟨rfl, rfl, set_handlers_of_ne _ _ hn⟩
  | readError t order =>
    simp only [daemonStep] at hv
    split at hv
    · simp only [Option.map_eq_some_iff, Prod.mk.injEq] at hv
      obtain ⟨r, -, rfl, -⟩ := hv
      exact ⟨rfl, rfl, set_handlers_of_ne _ _ hn⟩
    · cases hv
  | frame t body =>
    simp only [daemonStep] at hv
    split at hv
    · cases hv
      exact ⟨by simp [framesOf, Ne.symm hn], rfl, set_handlers_of_ne _ _ hn⟩
    · cases hv
  | turn t heap =>
    simp only [daemonStep] at hv
    split at hv
    · next p hp =>
      refine ⟨rfl, ?_, ?_⟩
      · simp only [heardFrom, received, hp, List.filterMap_cons, List.filterMap_nil]
        cases hnext : p.next with
        | error e => rfl
        | ok r =>
          obtain ⟨msg, q⟩ := r
          cases msg with
          | none => rfl
          | some msg => simp [messageOf, Ne.symm hn]
      · exact handlerTurn_handlers_of_ne hn hv
    · cases hv

theorem heardFrom_quiet {s : SessionId} {e : DaemonStep} {i : Option Input}
    (he : received e = i) (hi : i.bind (messageOf s) = none) : heardFrom s [e] = [] := by
  subst he
  cases hr : received e with
  | none => simp [heardFrom, hr]
  | some i =>
    rw [hr] at hi
    simpa [heardFrom, hr] using hi

theorem reading_of_framesOf {s : SessionId} {e : DaemonStep} (hv : e.Valid daemon)
    (hne : framesOf s [e] ≠ []) : e.before.handlers s = .reading := by
  obtain ⟨d, action, ws, d'⟩ := e
  simp only [Transition.Valid, daemon] at hv ⊢
  cases action with
  | frame t body =>
    by_cases hts : t = s
    · subst hts
      simp only [daemonStep] at hv
      split at hv
      · assumption
      · cases hv
    · exact absurd (by simp [framesOf, hts]) hne
  | _ => exact absurd rfl hne

/-- What the handler of `s` has heard, and the frames that it was called with. -/
structure InTurn (s : SessionId) (h : List DaemonStep) (d : Daemon) : Prop where
  attends : Attends (heardFrom s h) ((framesOf s h).flatMap receivedIn) (d.handlers s)
  fresh : d.server.numSessions ≤ s → framesOf s h = []

/-- The frames of `s` in this step are packed messages. -/
def SendsMessages (s : SessionId) (e : DaemonStep) : Prop :=
  ∀ body ∈ framesOf s [e], ∃ m, Representable m ∧ body = pack m

theorem attends_step {s : SessionId} {h : List DaemonStep} {e : DaemonStep}
    (hi : InTurn s h e.before) (hv : e.Valid daemon) (hm : SendsMessages s e)
    (hc : Concerns s e.before e.action) :
    Attends (heardFrom s h ++ heardFrom s [e])
      ((framesOf s h).flatMap receivedIn ++ (framesOf s [e]).flatMap receivedIn)
      (e.after.handlers s) := by
  have hattends := hi.attends
  obtain ⟨d, action, ws, d'⟩ := e
  simp only [Transition.Valid, daemon] at hv hi hattends hm hc ⊢
  cases action with
  | accept =>
    simp only [daemonStep, Option.map_eq_some_iff, Prod.mk.injEq] at hv
    obtain ⟨r, -, rfl, -⟩ := hv
    simp only [Concerns] at hc
    subst hc
    rw [set_handlers_self]
    -- nobody was connected there before
    have hframes := hi.fresh le_rfl
    have hheard := hattends.beginning
    rw [hframes] at hheard ⊢
    simpa [Attends, framesOf, heardFrom, received, messageOf] using hheard
  | readError t order =>
    simp only [daemonStep] at hv
    split at hv
    · simp only [Option.map_eq_some_iff, Prod.mk.injEq] at hv
      obtain ⟨r, -, rfl, -⟩ := hv
      simp only [Concerns] at hc
      subst hc
      rw [heardFrom_quiet rfl rfl, set_handlers_self, List.append_nil]
      exact hattends.beginning.trans (List.prefix_append _ _)
    · cases hv
  | frame t body =>
    simp only [daemonStep] at hv
    split at hv
    · next hread =>
      cases hv
      simp only [Concerns] at hc
      subst hc
      obtain ⟨m, hrep, rfl⟩ := hm body (by simp [framesOf])
      rw [hread] at hattends
      have hframes : framesOf s [⟨d, .frame s (pack m), [], d.set s (.parsing ⟨pack m, 0⟩)⟩] =
          [pack m] := by simp [framesOf]
      rw [heardFrom_quiet rfl rfl, set_handlers_self, hframes, List.append_nil]
      refine .inr ⟨m, hrep, rfl, ?_⟩
      rw [show heardFrom s h = _ from hattends, List.flatMap_singleton, receivedIn_pack hrep]
    · cases hv
  | turn t heap =>
    simp only [daemonStep] at hv
    split at hv
    · next p hp =>
      simp only [Concerns] at hc
      subst hc
      rw [hp] at hattends
      have hnone : framesOf s [⟨d, .turn s heap, ws, d'⟩] = [] := rfl
      rw [hnone, List.flatMap_nil, List.append_nil]
      exact hattends.turn rfl hp hv
    · cases hv

theorem InTurn.step {s : SessionId} {h : List DaemonStep} {e : DaemonStep}
    (hi : InTurn s h e.before) (hv : e.Valid daemon) (hlive : HandlersLive e.before)
    (hm : SendsMessages s e) : InTurn s (h ++ [e]) e.after := by
  have hmono : e.before.server.numSessions ≤ e.after.server.numSessions := by
    rcases server_of_daemonStep hv hlive with ⟨-, hst, -⟩ | ⟨a, -, ha⟩
    · rw [hst]
    · exact (step_effect ha).numSessions_le
  constructor
  · rw [framesOf_snoc, heardFrom_snoc, List.flatMap_append]
    by_cases hc : Concerns s e.before e.action
    · exact attends_step hi hv hm hc
    · obtain ⟨hf, hh, hx⟩ := quiet_of_not_concerns hv hc
      rw [hf, hh, hx]
      simpa using hi.attends
  · intro hle
    rw [framesOf_snoc, hi.fresh (hmono.trans hle), List.nil_append]
    by_contra hne
    -- a handler that is called belongs to a session
    have hs := hlive s (by simp [reading_of_framesOf hv hne])
    exact absurd (hs.1.trans_le hmono) (not_lt.mpr hle)

theorem framesOf_eq_flatMap (s : SessionId) (h : List DaemonStep) :
    framesOf s h = h.flatMap fun e => framesOf s [e] := by
  simp [framesOf]

theorem inTurn_of_run {s : SessionId} {h : List DaemonStep} {d : Daemon} (hr : Run daemon h d)
    (hm : ∀ body ∈ framesOf s h, ∃ m, Representable m ∧ body = pack m) : InTurn s h d := by
  refine Run.invariant (M := daemon) (C := SendsMessages s) (P := InTurn s)
    ⟨List.prefix_rfl, fun _ => rfl⟩ ?_ hr ?_
  · intro h e hp hi hv hC
    exact hi.step hv (handlersLive_of_run hp).1 hC
  · intro e he body hbody
    rw [framesOf_eq_flatMap] at hm
    exact hm body (List.mem_flatMap.mpr ⟨e, he, hbody⟩)

/-- **A session's messages are processed once each and in order**, however the handlers of the
sessions take turns, as long as each frame of the session holds one message: the messages that were
processed are the first of those in the frames, and all of them when the handler waits. -/
theorem messages_in_order {h : List DaemonStep} {d : Daemon} (hr : Run daemon h d) {s : SessionId}
    (hm : ∀ body ∈ framesOf s h, ∃ m, Representable m ∧ body = pack m) :
    heardFrom s h <+: (framesOf s h).flatMap receivedIn ∧
      (d.handlers s = .reading → heardFrom s h = (framesOf s h).flatMap receivedIn) := by
  have hi := inTurn_of_run hr hm
  refine ⟨hi.attends.beginning, fun hread => ?_⟩
  have hattends := hi.attends
  rwa [hread] at hattends

theorem messages_in_order_managed :
    heardFrom 0 (history daemon {} managed) = [{ type := .setContextMgr }] ∧
      heardFrom 0 (history daemon {} managed) <+:
        (framesOf 0 (history daemon {} managed)).flatMap receivedIn := by
  have hframes : framesOf 0 (history daemon {} managed) = [pack { type := .setContextMgr }] := by
    decide +kernel
  have h := messages_in_order (path_history daemon managed {}) (s := 0) (by
    rw [hframes]
    intro body hbody
    exact ⟨_, by decide, List.mem_singleton.mp hbody⟩)
  exact ⟨by decide +kernel, h.1⟩

/-! ### The system -/

/-- The daemon, and the connections of its sessions. -/
structure System where
  daemon : Daemon := {}
  /-- The two directions of the connection of each session. -/
  up : SessionId → Channel := fun _ => {}
  down : SessionId → Channel := fun _ => {}

/-- What can happen to the system. -/
inductive SystemAction where
  | connect
  /-- The client of `s` queues a message. -/
  | send (s : SessionId) (m : Message)
  /-- The connection makes a step by itself, from the client or to it. -/
  | up (s : SessionId) (a : ChannelAction)
  | down (s : SessionId) (a : ChannelAction)
  /-- The read handler of `s` takes up the next message. -/
  | turn (s : SessionId) (heap : List UInt8)
  /-- The read handler of `s` is called with an error. -/
  | hangUp (s : SessionId) (order : List ℕ)
deriving DecidableEq

/-- What is to be seen of a step: what the daemon writes, and the frames that reach the clients. -/
inductive Event where
  | wrote (w : Write)
  | arrived (s : SessionId) (frame : List UInt8)

/-- `Close` was called for the messenger of `s`. -/
def Closed (st : ServerState) (s : SessionId) : Prop := s < st.numSessions ∧ ¬ st.Live s

instance (st : ServerState) (s : SessionId) : Decidable (Closed st s) :=
  inferInstanceAs (Decidable (_ ∧ _))

/-- `WriteData` of the session's messenger. A messenger that was closed starts no write any more. -/
def post (st : ServerState) (down : SessionId → Channel) (w : Write) : SessionId → Channel :=
  if Closed st w.session ∧ (down w.session).writeQueue = [] then down
  else Function.update down w.session (writeData (down w.session) (pack w.message))

/-- The daemon makes a step. -/
def act (σ : System) (a : DaemonAction) : Option (System × List Event) :=
  (daemonStep σ.daemon a).map fun r =>
    ({ σ with daemon := r.1, down := r.2.foldl (post σ.daemon.server) σ.down }, r.2.map .wrote)

/-- The daemon's socket is read while the read handler waits. -/
def mayRead (d : Daemon) (s : SessionId) : ChannelAction → Bool
  | .read _ =>
    match d.handlers s with
    | .reading => true
    | _ => false
  | _ => true

/-- One step of the system. A socket step that completes a frame is a step of the daemon too. -/
def systemStep (σ : System) : SystemAction → Option (System × List Event)
  | .connect => act σ .accept
  | .send s m =>
    if s < σ.daemon.server.numSessions then
      some ({ σ with up := Function.update σ.up s (writeData (σ.up s) (pack m)) }, [])
    else none
  | .up s a =>
    if a.data = [] ∧ mayRead σ.daemon s a then
      match channelStep (σ.up s) a with
      | none => none
      | some (c, []) => some ({ σ with up := Function.update σ.up s c }, [])
      | some (c, frame :: _) => act { σ with up := Function.update σ.up s c } (.frame s frame)
    else none
  | .down s a =>
    if a.data = [] ∧ ¬ (Closed σ.daemon.server s ∧ a = .messageSent) then
      (channelStep (σ.down s) a).map fun r =>
        ({ σ with down := Function.update σ.down s r.1 }, r.2.map (.arrived s))
    else none
  | .turn s heap => act σ (.turn s heap)
  | .hangUp s order => act σ (.readError s order)

/-- **The daemon and its connections.** -/
def system : Machine System SystemAction Event := ⟨{}, systemStep⟩

/-- The steps of the system, as its histories record them. -/
abbrev SystemStep := Transition System SystemAction Event

/-! ### What goes in and what comes out -/

/-- The message that a client queues. -/
def SystemAction.message : SystemAction → List Message
  | .send _ m => [m]
  | _ => []

/-- The messages that the client of `s` sent. -/
def sentBy (s : SessionId) (h : List SystemStep) : List Message :=
  h.flatMap fun e =>
    match e.action with
    | .send t m => if t = s then [m] else []
    | _ => []

theorem sentBy_subset (s : SessionId) (h : List SystemStep) :
    sentBy s h ⊆ h.flatMap (·.action.message) := by
  intro m hm
  obtain ⟨e, he, hm⟩ := List.mem_flatMap.mp hm
  refine List.mem_flatMap.mpr ⟨e, he, ?_⟩
  split at hm
  · next t m' ha =>
    rw [ha]
    split_ifs at hm with hts
    · exact hm
    · cases hm
  · cases hm

/-- The write, if the event is one. -/
def Event.write : Event → Option Write
  | .wrote w => some w
  | .arrived .. => none

/-- The frame, if the event is one that reaches the client of `t`. -/
def Event.frameFor (t : SessionId) : Event → Option (List UInt8)
  | .wrote _ => none
  | .arrived s frame => if s = t then some frame else none

/-- What the daemon wrote. -/
def writesOf (h : List SystemStep) : List Write := (outputs h).filterMap Event.write

/-- The frames that arrived at the client of `t`. -/
def arrivedAt (t : SessionId) (h : List SystemStep) : List (List UInt8) :=
  (outputs h).filterMap (Event.frameFor t)

/-- The messages for the client of `t`. -/
def messagesTo (t : SessionId) (ws : List Write) : List Message :=
  (ws.filter fun w => decide (w.session = t)).map (·.message)

/-! ### What a step of the system does -/

theorem length_channelStep_le {c : Channel} {a : ChannelAction} {r : Channel × List (List UInt8)}
    (h : channelStep c a = some r) : r.2.length ≤ 1 := by
  have hheader : ∀ c hd, (onHeader c hd).2.length ≤ 1 := by
    intro c hd
    unfold onHeader
    split
    · exact Nat.zero_le 1
    · split_ifs
      · exact le_rfl
      · exact Nat.zero_le 1
  cases a with
  | read n =>
    simp only [channelStep, Option.ite_none_right_eq_some] at h
    obtain ⟨-, h⟩ := h
    unfold transfer at h
    split at h
    · split_ifs at h
      · cases h
        exact Nat.zero_le 1
      · cases h
        exact hheader _ _
    · split_ifs at h
      · cases h
        exact Nat.zero_le 1
      · cases h
        exact le_rfl
    · cases h
  | writeData data =>
    cases h
    exact Nat.zero_le 1
  | _ =>
    simp only [channelStep, Option.ite_none_right_eq_some, Option.some.injEq] at h
    obtain ⟨-, rfl⟩ := h
    exact Nat.zero_le 1

/-- **What a step of the system can be.** -/
inductive SystemEffect (σ : System) : SystemAction → System → List Event → Prop
  /-- The daemon acts, and is not called with a frame. -/
  | acted {x a d ws} : (∀ s m, x ≠ .send s m) → (∀ s body, a ≠ .frame s body) →
      daemonStep σ.daemon a = some (d, ws) →
      SystemEffect σ x { σ with daemon := d, down := ws.foldl (post σ.daemon.server) σ.down }
        (ws.map .wrote)
  | sent {s m} : SystemEffect σ (.send s m)
      { σ with up := Function.update σ.up s (writeData (σ.up s) (pack m)) } []
  | moved {s a c} : a.data = [] → channelStep (σ.up s) a = some (c, []) →
      SystemEffect σ (.up s a) { σ with up := Function.update σ.up s c } []
  /-- A frame is complete, and the read handler is called with it. -/
  | called {s a c frame d} : a.data = [] → channelStep (σ.up s) a = some (c, [frame]) →
      daemonStep σ.daemon (.frame s frame) = some (d, []) →
      SystemEffect σ (.up s a) { σ with daemon := d, up := Function.update σ.up s c } []
  | arrived {s a c frames} : a.data = [] → ¬ (Closed σ.daemon.server s ∧ a = .messageSent) →
      channelStep (σ.down s) a = some (c, frames) →
      SystemEffect σ (.down s a) { σ with down := Function.update σ.down s c }
        (frames.map (.arrived s))

theorem act_effect {σ σ' : System} {x : SystemAction} {a : DaemonAction} {es : List Event}
    (hx : ∀ s m, x ≠ .send s m) (ha : ∀ s body, a ≠ .frame s body) (h : act σ a = some (σ', es)) :
    SystemEffect σ x σ' es := by
  simp only [act, Option.map_eq_some_iff, Prod.mk.injEq] at h
  obtain ⟨⟨d, ws⟩, hd, rfl, rfl⟩ := h
  exact .acted hx ha hd

theorem systemStep_effect {σ σ' : System} {x : SystemAction} {es : List Event}
    (h : systemStep σ x = some (σ', es)) : SystemEffect σ x σ' es := by
  cases x with
  | connect => exact act_effect (by simp) (by simp) h
  | turn s heap => exact act_effect (by simp) (by simp) h
  | hangUp s order => exact act_effect (by simp) (by simp) h
  | send s m =>
    simp only [systemStep, Option.ite_none_right_eq_some, Option.some.injEq, Prod.mk.injEq] at h
    obtain ⟨-, rfl, rfl⟩ := h
    exact .sent
  | down s a =>
    simp only [systemStep, Option.ite_none_right_eq_some, Option.map_eq_some_iff,
      Prod.mk.injEq] at h
    obtain ⟨⟨hdata, hopen⟩, ⟨c, frames⟩, hc, rfl, rfl⟩ := h
    exact .arrived hdata hopen hc
  | up s a =>
    simp only [systemStep, Option.ite_none_right_eq_some] at h
    obtain ⟨⟨hdata, -⟩, h⟩ := h
    split at h
    · cases h
    · next c hc =>
      cases h
      exact .moved hdata hc
    · next c frame rest hc =>
      have hone := length_channelStep_le hc
      have hrest : rest = [] := by
        rw [List.length_cons] at hone
        exact List.eq_nil_of_length_eq_zero (by omega)
      subst hrest
      simp only [act, daemonStep, Option.map_eq_some_iff, Prod.mk.injEq] at h
      obtain ⟨⟨d, ws⟩, hd, rfl, rfl⟩ := h
      have hws : ws = [] := by
        split at hd
        · cases hd
          rfl
        · cases hd
      subst hws
      exact .called hdata hc hd

/-! ### The parts of a run -/

theorem writesOf_snoc (h : List SystemStep) (e : SystemStep) :
    writesOf (h ++ [e]) = writesOf h ++ e.emitted.filterMap Event.write := by
  rw [writesOf, outputs_snoc, List.filterMap_append, writesOf]

theorem arrivedAt_snoc (t : SessionId) (h : List SystemStep) (e : SystemStep) :
    arrivedAt t (h ++ [e]) = arrivedAt t h ++ e.emitted.filterMap (Event.frameFor t) := by
  rw [arrivedAt, outputs_snoc, List.filterMap_append, arrivedAt]

theorem sentBy_snoc (s : SessionId) (h : List SystemStep) (e : SystemStep) :
    sentBy s (h ++ [e]) = sentBy s h ++ sentBy s [e] := by
  simp [sentBy]

theorem messagesTo_append (t : SessionId) (ws ws' : List Write) :
    messagesTo t (ws ++ ws') = messagesTo t ws ++ messagesTo t ws' := by
  simp [messagesTo]

theorem filterMap_wrote (ws : List Write) : (ws.map Event.wrote).filterMap Event.write = ws := by
  simp [List.filterMap_map, Event.write, Function.comp_def]

theorem filterMap_wrote_frameFor (t : SessionId) (ws : List Write) :
    (ws.map Event.wrote).filterMap (Event.frameFor t) = [] := by
  simp [List.filterMap_map, Event.frameFor, Function.comp_def]

theorem filterMap_arrived_frameFor (s t : SessionId) (frames : List (List UInt8)) :
    (frames.map (Event.arrived s)).filterMap (Event.frameFor t) = if s = t then frames else [] := by
  split_ifs with hst
  · simp [List.filterMap_map, Event.frameFor, Function.comp_def, hst]
  · simp [List.filterMap_map, Event.frameFor, Function.comp_def, hst]

theorem filterMap_arrived_write (s : SessionId) (frames : List (List UInt8)) :
    (frames.map (Event.arrived s)).filterMap Event.write = [] := by
  simp [List.filterMap_map, Event.write, Function.comp_def]

/-- The messenger of `t` was closed and has nothing to write. -/
def Idle (σ : System) (t : SessionId) : Prop :=
  Closed σ.daemon.server t ∧ (σ.down t).writeQueue = []

theorem writeData_writeQueue (c : Channel) (data : List UInt8) :
    (writeData c data).writeQueue = c.writeQueue ++ [data] := by
  have hnext : ∀ c : Channel, (writeNext c).writeQueue = c.writeQueue := by
    intro c
    unfold writeNext
    split
    · rfl
    · rfl
  unfold writeData
  simp only
  split_ifs
  · rfl
  · exact hnext _

theorem channelStep_writeQueue {c : Channel} {a : ChannelAction}
    {r : Channel × List (List UInt8)} (ha : a.data = []) (hsent : a ≠ .messageSent)
    (h : channelStep c a = some r) : r.1.writeQueue = c.writeQueue := by
  cases a with
  | writeData data => cases ha
  | messageSent => exact absurd rfl hsent
  | read n =>
    simp only [channelStep, Option.ite_none_right_eq_some] at h
    exact transfer_writeQueue h.2
  | _ =>
    simp only [channelStep, Option.ite_none_right_eq_some, Option.some.injEq] at h
    obtain ⟨-, rfl⟩ := h
    rfl

theorem post_of_idle {st : ServerState} {t : SessionId} {down : SessionId → Channel}
    (hc : Closed st t) (hq : (down t).writeQueue = []) (ws : List Write) :
    (ws.foldl (post st) down) t = down t := by
  induction ws generalizing down with
  | nil => rfl
  | cons w ws ih =>
    have hw : post st down w t = down t := by
      unfold post
      split_ifs with hclosed
      · rfl
      · refine Function.update_of_ne (fun ht => hclosed ?_) _ _
        exact ⟨ht ▸ hc, ht ▸ hq⟩
    rw [List.foldl_cons, ih (hw ▸ hq), hw]

/-- What is written to a messenger that is open, or has not finished, is queued. -/
theorem post_path {st : ServerState} {t : SessionId} {down : SessionId → Channel}
    (hopen : ¬ (Closed st t ∧ (down t).writeQueue = [])) (ws : List Write) :
    ∃ k, Path channel (down t) k ((ws.foldl (post st) down) t) ∧
      written k = (messagesTo t ws).map pack ∧ outputs k = [] := by
  induction ws generalizing down with
  | nil => exact ⟨[], .nil, rfl, rfl⟩
  | cons w ws ih =>
    rw [List.foldl_cons]
    by_cases hw : w.session = t
    · have hpost : post st down w t = writeData (down t) (pack w.message) := by
        subst hw
        unfold post
        rw [if_neg hopen, Function.update_self]
      have hqueue : ¬ (Closed st t ∧ (post st down w t).writeQueue = []) := by
        rw [hpost, writeData_writeQueue]
        simp
      obtain ⟨k, hk, hwritten, hout⟩ := ih hqueue
      let e : ChannelTransition :=
        ⟨down t, .writeData (pack w.message), [], writeData (down t) (pack w.message)⟩
      have he : e.Valid channel := rfl
      rw [hpost] at hk
      refine ⟨[e] ++ k, (Path.single he).append hk, ?_, ?_⟩
      · rw [written_append, hwritten]
        simp [written, ChannelAction.data, messagesTo, hw, e]
      · rw [outputs_append, hout]
        rfl
    · have hpost : post st down w t = down t := by
        unfold post
        split_ifs
        · rfl
        · exact Function.update_of_ne (Ne.symm hw) _ _
      have hqueue : ¬ (Closed st t ∧ (post st down w t).writeQueue = []) := by rwa [hpost]
      obtain ⟨k, hk, hwritten, hout⟩ := ih hqueue
      rw [hpost] at hk
      refine ⟨k, hk, ?_, hout⟩
      rw [hwritten]
      simp [messagesTo, hw]

/-- The link from the client of `s` to its read handler. -/
def UpLink (h : List SystemStep) (σ : System) (g : List DaemonStep) (s : SessionId) : Prop :=
  ∃ k, Run channel k (σ.up s) ∧ written k = (sentBy s h).map pack ∧ outputs k = framesOf s g

/-- The link from the messenger of `t` to its client. What is written to a messenger that was closed
and has nothing left to write is lost. -/
def DownLink (h : List SystemStep) (σ : System) (t : SessionId) : Prop :=
  ∃ k ms, Run channel k (σ.down t) ∧ written k = ms.map pack ∧ outputs k = arrivedAt t h ∧
    (ms = messagesTo t (writesOf h) ∨ Idle σ t ∧ ms <+: messagesTo t (writesOf h))

/-- What the run of the system is for the daemon and for the connections. -/
structure Split (h : List SystemStep) (σ : System) (g : List DaemonStep) : Prop where
  run : Run daemon g σ.daemon
  writes : outputs g = writesOf h
  up : ∀ s, UpLink h σ g s
  down : ∀ t, DownLink h σ t

theorem link_snoc {k : List ChannelTransition} {c : Channel} {a : ChannelAction}
    {r : Channel × List (List UInt8)} (hk : Run channel k c) (hr : channelStep c a = some r) :
    ∃ k', Run channel k' r.1 ∧ written k' = written k ++ a.data ∧ outputs k' = outputs k ++ r.2 :=
  ⟨k ++ [⟨c, a, r.2, r.1⟩], .snoc (e := ⟨c, a, r.2, r.1⟩) hk hr, by simp [written],
    by simp [outputs]⟩

section Links

variable {h : List SystemStep} {e : SystemStep} {g g' : List DaemonStep} {s t : SessionId}
  {a : ChannelAction} {c : Channel} {frames : List (List UInt8)}

theorem UpLink.kept (hl : UpLink h e.before g s) (hup : e.after.up s = e.before.up s)
    (hsent : sentBy s [e] = []) (hframes : framesOf s g' = framesOf s g) :
    UpLink (h ++ [e]) e.after g' s := by
  obtain ⟨k, hk, hw, ho⟩ := hl
  refine ⟨k, hup ▸ hk, ?_, ho.trans hframes.symm⟩
  rw [hw, sentBy_snoc, hsent, List.append_nil]

theorem UpLink.snoc (hl : UpLink h e.before g s)
    (hc : channelStep (e.before.up s) a = some (c, frames))
    (hup : e.after.up s = c) (hsent : (sentBy s [e]).map pack = a.data)
    (hframes : framesOf s g' = framesOf s g ++ frames) : UpLink (h ++ [e]) e.after g' s := by
  obtain ⟨k, hk, hw, ho⟩ := hl
  obtain ⟨k', hk', hw', ho'⟩ := link_snoc hk hc
  refine ⟨k', hup ▸ hk', ?_, ?_⟩
  · rw [hw', hw, sentBy_snoc, List.map_append, hsent]
  · rw [ho', ho, hframes]

theorem DownLink.kept (hl : DownLink h e.before t) (hdown : e.after.down t = e.before.down t)
    (hserver : e.after.daemon.server = e.before.daemon.server)
    (hwrites : e.emitted.filterMap Event.write = [])
    (hframes : e.emitted.filterMap (Event.frameFor t) = []) : DownLink (h ++ [e]) e.after t := by
  obtain ⟨k, ms, hk, hw, ho, hms⟩ := hl
  refine ⟨k, ms, hdown ▸ hk, hw, ?_, ?_⟩
  · rw [ho, arrivedAt_snoc, hframes, List.append_nil]
  · rw [writesOf_snoc, hwrites, List.append_nil]
    unfold Idle at hms ⊢
    rwa [hdown, hserver]

/-- A frame that arrives is not written anew. A messenger that is idle stays so. -/
theorem DownLink.snoc (hl : DownLink h e.before t) (hdata : a.data = [])
    (hopen : ¬ (Closed e.before.daemon.server t ∧ a = .messageSent))
    (hc : channelStep (e.before.down t) a = some (c, frames)) (hdown : e.after.down t = c)
    (hserver : e.after.daemon.server = e.before.daemon.server)
    (hemitted : e.emitted = frames.map (.arrived t)) : DownLink (h ++ [e]) e.after t := by
  obtain ⟨k, ms, hk, hw, ho, hms⟩ := hl
  obtain ⟨k', hk', hw', ho'⟩ := link_snoc hk hc
  refine ⟨k', ms, hdown ▸ hk', ?_, ?_, ?_⟩
  · rw [hw', hdata, List.append_nil, hw]
  · rw [ho', ho, arrivedAt_snoc, hemitted, filterMap_arrived_frameFor, if_pos rfl]
  · rw [writesOf_snoc, hemitted, filterMap_arrived_write, List.append_nil]
    refine hms.imp_right fun ⟨⟨hclosed, hqueue⟩, hpre⟩ => ⟨⟨hserver ▸ hclosed, ?_⟩, hpre⟩
    rw [hdown]
    exact (channelStep_writeQueue hdata (fun ha => hopen ⟨hclosed, ha⟩) hc).trans hqueue

end Links

theorem closed_mono {d d' : Daemon} {a : DaemonAction} {ws : List Write}
    (hd : daemonStep d a = some (d', ws)) (hlive : HandlersLive d) {t : SessionId}
    (hc : Closed d.server t) : Closed d'.server t := by
  rcases server_of_daemonStep (e := ⟨d, a, ws, d'⟩) hd hlive with ⟨-, hst, -⟩ | ⟨b, -, hb⟩
  · simp only at hst
    rwa [hst]
  · exact ⟨hc.1.trans_le (step_effect hb).numSessions_le,
      fun hl => hc.2 ((step_effect hb).live_of_live hc.1 hl)⟩

theorem server_of_frame {d d' : Daemon} {s : SessionId} {body : List UInt8} {ws : List Write}
    (h : daemonStep d (.frame s body) = some (d', ws)) : d'.server = d.server ∧ ws = [] := by
  simp only [daemonStep] at h
  split at h
  · cases h
    exact ⟨rfl, rfl⟩
  · cases h

/-! ### One step, by what it is -/

section Split

variable {h : List SystemStep} {σ : System} {g : List DaemonStep} {s : SessionId}
  {a : ChannelAction} {c : Channel}

/-- What the daemon writes is queued, unless its messenger is idle. -/
theorem DownLink.posted {t : SessionId} (hl : DownLink h σ t) (hlive : HandlersLive σ.daemon)
    {x : SystemAction} {b : DaemonAction} {d : Daemon} {ws : List Write}
    (hd : daemonStep σ.daemon b = some (d, ws)) {σ' : System}
    (hσ : σ' = { σ with daemon := d, down := ws.foldl (post σ.daemon.server) σ.down }) :
    DownLink (h ++ [⟨σ, x, ws.map .wrote, σ'⟩]) σ' t := by
  subst hσ
  unfold DownLink
  rw [writesOf_snoc, arrivedAt_snoc, filterMap_wrote, filterMap_wrote_frameFor, List.append_nil,
    messagesTo_append]
  obtain ⟨k, ms, hk, hw, ho, hms⟩ := hl
  by_cases hidle : Idle σ t
  · have hpost := post_of_idle hidle.1 hidle.2 ws
    refine ⟨k, ms, ?_, hw, ho, .inr ⟨⟨closed_mono hd hlive hidle.1, ?_⟩, ?_⟩⟩
    · simpa only [hpost] using hk
    · simpa only [hpost] using hidle.2
    · rcases hms with rfl | ⟨-, hpre⟩
      · exact List.prefix_append _ _
      · exact hpre.trans (List.prefix_append _ _)
  · obtain rfl : ms = messagesTo t (writesOf h) := hms.resolve_right fun hc => hidle hc.1
    obtain ⟨k', hk', hw', ho'⟩ := post_path hidle ws
    refine ⟨k ++ k', _, hk.append hk', ?_, ?_, .inl rfl⟩
    · rw [written_append, hw, hw', List.map_append]
    · rw [outputs_append, ho, ho', List.append_nil]

theorem Split.acted (hs : Split h σ g) {x : SystemAction} {b : DaemonAction} {d : Daemon}
    {ws : List Write} (hx : ∀ s m, x ≠ .send s m) (hb : ∀ s body, b ≠ .frame s body)
    (hd : daemonStep σ.daemon b = some (d, ws)) {σ' : System}
    (hσ : σ' = { σ with daemon := d, down := ws.foldl (post σ.daemon.server) σ.down }) :
    Split (h ++ [⟨σ, x, ws.map .wrote, σ'⟩]) σ' (g ++ [⟨σ.daemon, b, ws, d⟩]) where
  run := by
    subst hσ
    exact .snoc (e := ⟨σ.daemon, b, ws, d⟩) hs.run hd
  writes := by
    rw [outputs_append, hs.writes, writesOf_snoc, filterMap_wrote]
    simp [outputs]
  up s := by
    refine (hs.up s).kept (e := ⟨σ, x, ws.map .wrote, σ'⟩) (by rw [hσ]) ?_ ?_
    · cases x with
      | send s m => exact absurd rfl (hx s m)
      | _ => simp [sentBy]
    · rw [framesOf_snoc]
      cases b with
      | frame s body => exact absurd rfl (hb s body)
      | _ => simp [framesOf]
  down t := (hs.down t).posted (handlersLive_of_run hs.run).1 hd hσ

theorem Split.sent (hs : Split h σ g) {m : Message} {σ' : System}
    (hσ : σ' = { σ with up := Function.update σ.up s (writeData (σ.up s) (pack m)) }) :
    Split (h ++ [⟨σ, .send s m, [], σ'⟩]) σ' g where
  run := by
    subst hσ
    exact hs.run
  writes := by
    rw [hs.writes, writesOf_snoc]
    simp
  up u := by
    by_cases hu : u = s
    · subst hu
      exact (hs.up u).snoc (e := ⟨σ, .send u m, [], σ'⟩) (a := .writeData (pack m)) rfl
        (by rw [hσ]; simp) (by simp [sentBy, ChannelAction.data]) (by simp)
    · exact (hs.up u).kept (e := ⟨σ, .send s m, [], σ'⟩) (by rw [hσ]; simp [hu])
        (by simp [sentBy, Ne.symm hu]) rfl
  down t := (hs.down t).kept (e := ⟨σ, .send s m, [], σ'⟩) (by rw [hσ]) (by rw [hσ]) rfl rfl

theorem Split.moved (hs : Split h σ g) (hdata : a.data = [])
    (hc : channelStep (σ.up s) a = some (c, [])) {σ' : System}
    (hσ : σ' = { σ with up := Function.update σ.up s c }) :
    Split (h ++ [⟨σ, .up s a, [], σ'⟩]) σ' g where
  run := by
    subst hσ
    exact hs.run
  writes := by
    rw [hs.writes, writesOf_snoc]
    simp
  up u := by
    by_cases hu : u = s
    · subst hu
      exact (hs.up u).snoc (e := ⟨σ, .up u a, [], σ'⟩) hc (by rw [hσ]; simp)
        (by simp [sentBy, hdata]) (by simp)
    · exact (hs.up u).kept (e := ⟨σ, .up s a, [], σ'⟩) (by rw [hσ]; simp [hu]) (by simp [sentBy])
        rfl
  down t := (hs.down t).kept (e := ⟨σ, .up s a, [], σ'⟩) (by rw [hσ]) (by rw [hσ]) rfl rfl

theorem Split.called (hs : Split h σ g) {frame : List UInt8} {d : Daemon} (hdata : a.data = [])
    (hc : channelStep (σ.up s) a = some (c, [frame]))
    (hd : daemonStep σ.daemon (.frame s frame) = some (d, [])) {σ' : System}
    (hσ : σ' = { σ with daemon := d, up := Function.update σ.up s c }) :
    Split (h ++ [⟨σ, .up s a, [], σ'⟩]) σ' (g ++ [⟨σ.daemon, .frame s frame, [], d⟩]) where
  run := by
    subst hσ
    exact .snoc (e := ⟨σ.daemon, DaemonAction.frame s frame, [], d⟩) hs.run hd
  writes := by
    rw [outputs_append, hs.writes, writesOf_snoc]
    simp [outputs]
  up u := by
    by_cases hu : u = s
    · subst hu
      exact (hs.up u).snoc (e := ⟨σ, .up u a, [], σ'⟩) hc (by rw [hσ]; simp)
        (by simp [sentBy, hdata]) (by simp [framesOf])
    · exact (hs.up u).kept (e := ⟨σ, .up s a, [], σ'⟩) (by rw [hσ]; simp [hu]) (by simp [sentBy])
        (by simp [framesOf, Ne.symm hu])
  down t := (hs.down t).kept (e := ⟨σ, .up s a, [], σ'⟩) (by rw [hσ])
    (by rw [hσ]; exact (server_of_frame hd).1) rfl rfl

theorem Split.delivered (hs : Split h σ g) {frames : List (List UInt8)} (hdata : a.data = [])
    (hopen : ¬ (Closed σ.daemon.server s ∧ a = .messageSent))
    (hc : channelStep (σ.down s) a = some (c, frames)) {σ' : System}
    (hσ : σ' = { σ with down := Function.update σ.down s c }) :
    Split (h ++ [⟨σ, .down s a, frames.map (.arrived s), σ'⟩]) σ' g where
  run := by
    subst hσ
    exact hs.run
  writes := by rw [hs.writes, writesOf_snoc, filterMap_arrived_write, List.append_nil]
  up u := (hs.up u).kept (e := ⟨σ, .down s a, frames.map (.arrived s), σ'⟩) (by rw [hσ])
    (by simp [sentBy]) rfl
  down t := by
    by_cases hts : t = s
    · subst hts
      exact (hs.down t).snoc (e := ⟨σ, .down t a, frames.map (.arrived t), σ'⟩) hdata hopen hc
        (by rw [hσ]; simp) (by rw [hσ]) rfl
    · exact (hs.down t).kept (e := ⟨σ, .down s a, frames.map (.arrived s), σ'⟩)
        (by rw [hσ]; simp [hts]) (by rw [hσ]) (filterMap_arrived_write ..)
        (by rw [filterMap_arrived_frameFor, if_neg (Ne.symm hts)])

end Split

theorem split_step {h : List SystemStep} {e : SystemStep} {g : List DaemonStep}
    (hs : Split h e.before g) (hv : e.Valid system) : ∃ g', Split (h ++ [e]) e.after g' := by
  have heff := systemStep_effect hv
  obtain ⟨σ, x, es, σ'⟩ := e
  simp only at hs heff ⊢
  cases heff with
  | acted hx ha hd => exact ⟨_, hs.acted hx ha hd rfl⟩
  | sent => exact ⟨_, hs.sent rfl⟩
  | moved hdata hc => exact ⟨_, hs.moved hdata hc rfl⟩
  | called hdata hc hd => exact ⟨_, hs.called hdata hc hd rfl⟩
  | arrived hdata hopen hc => exact ⟨_, hs.delivered hdata hopen hc rfl⟩

theorem split_of_run {h : List SystemStep} {σ : System} (hr : Run system h σ) :
    ∃ g, Split h σ g := by
  induction hr with
  | nil =>
    exact ⟨[], .nil, rfl, fun _ => ⟨[], .nil, rfl, rfl⟩,
      fun _ => ⟨[], [], .nil, rfl, rfl, .inl rfl⟩⟩
  | snoc _ hv ih =>
    obtain ⟨g, hs⟩ := ih
    exact split_step hs hv

theorem representable_of_messagesTo {t : SessionId} {ws : List Write}
    (hwritten : ∀ w ∈ ws, Representable w.message) : ∀ m ∈ messagesTo t ws, Representable m := by
  intro m hm
  obtain ⟨w, hw, rfl⟩ := List.mem_map.mp hm
  exact hwritten w (List.mem_of_mem_filter hw)

/-- What arrived at `t` are the first of the messages that were written for it. -/
theorem Split.arrived {h : List SystemStep} {σ : System} {g : List DaemonStep} (hs : Split h σ g)
    (hwritten : ∀ w ∈ writesOf h, Representable w.message) (t : SessionId) :
    ∃ got, got <+: messagesTo t (writesOf h) ∧ arrivedAt t h = got.map pack ∧
      (AtRest (σ.down t) → ¬ Closed σ.daemon.server t → got = messagesTo t (writesOf h)) := by
  obtain ⟨k, ms, hk, hw, ho, hms⟩ := hs.down t
  have hpre : ms <+: messagesTo t (writesOf h) := by
    rcases hms with rfl | ⟨-, hpre⟩
    · exact List.prefix_rfl
    · exact hpre
  obtain ⟨got, waiting, hsplit, hgot, -, hrest, -⟩ := link_split hk hw fun m hm =>
    representable_of_messagesTo hwritten m (hpre.subset hm)
  refine ⟨got, (hsplit ▸ List.prefix_append got waiting).trans hpre, ho.symm.trans hgot,
    fun hat hopen => ?_⟩
  have hmsAll : ms = messagesTo t (writesOf h) := hms.resolve_right fun hc => hopen hc.1.1
  rw [← hmsAll, hsplit, hrest hat, List.append_nil]

/-! ### The broker in between -/

/-- What the broker was given from `s`. -/
def inputsOf (s : SessionId) (ls : List (Input × List Sent)) : List Message :=
  (ls.map (·.1)).filterMap (messageOf s)

/-- What the broker had for `t`. -/
def outputsTo (t : SessionId) (ls : List (Input × List Sent)) : List Message :=
  ((ls.flatMap (·.2)).filter fun x => decide (x.1 = t)).map (·.2)

/-- The messages that the client of `t` received, the log apart. -/
def receivedAt (t : SessionId) (h : List SystemStep) : List Message :=
  ((arrivedAt t h).flatMap receivedIn).filter fun m => decide (m.type ≠ .logEntry)

/-- The log is the LogEntry messages. -/
theorem forwardToMonitor_iff {h : List ServerStep} {st : ServerState} (hr : Run server h st)
    {w : Write} (hw : w ∈ outputs h) :
    w.source = .forwardToMonitor ↔ w.message.type = .logEntry := by
  obtain ⟨e, he, hw⟩ := List.mem_flatMap.mp hw
  have hwritten := (step_effect (hr.valid he)).written hw
  generalize e.action = a at hwritten
  generalize e.after = st' at hwritten
  generalize e.emitted = ws at hwritten
  cases hwritten with
  | log hs ht => simp [hs, ht]
  | status _ => simp [statusMessage]
  | transaction d => simp [Delivery.message, newMessage]
  | reply _ ht _ _ => rcases ht with ht | ht <;> simp [ht]
  | deadBinder _ _ => simp

theorem messagesTo_visible (t : SessionId) {ws : List Write}
    (hlog : ∀ w ∈ ws, w.source = .forwardToMonitor ↔ w.message.type = .logEntry) :
    (messagesTo t ws).filter (fun m => decide (m.type ≠ .logEntry)) =
      ((visible ws).filter fun x => decide (x.1 = t)).map (·.2) := by
  unfold messagesTo visible
  simp only [List.filter_map, List.map_map, List.filter_filter]
  refine congrArg _ (List.filter_congr fun w hw => ?_)
  simp only [Function.comp_apply, hlog w hw, ne_eq, decide_not, Bool.and_comm]

/-- What the handler of `s` has heard and what it is at, of the messages that its client sent. -/
theorem Split.attends {h : List SystemStep} {σ : System} {g : List DaemonStep} (hs : Split h σ g)
    (hsent : ∀ m ∈ h.flatMap (·.action.message), Representable m) (s : SessionId) :
    ∃ got waiting, sentBy s h = got ++ waiting ∧ (AtRest (σ.up s) → waiting = []) ∧
      Attends (heardFrom s g) got (σ.daemon.handlers s) := by
  have hsent := fun m hm => hsent m (sentBy_subset s h hm)
  obtain ⟨k, hk, hw, ho⟩ := hs.up s
  obtain ⟨got, waiting, hsplit, hgot, -, hrest, -⟩ := link_split hk hw hsent
  have hgotRep : ∀ m ∈ got, Representable m := fun m hm => hsent m (by simp [hsplit, hm])
  have hframes : framesOf s g = got.map pack := by rw [← ho, hgot]
  have hattends := (inTurn_of_run hs.run (s := s) (by
    rw [hframes]
    intro body hbody
    obtain ⟨m, hm, rfl⟩ := List.mem_map.mp hbody
    exact ⟨m, hgotRep m hm, rfl⟩)).attends
  rw [hframes, flatMap_receivedIn_pack hgotRep] at hattends
  exact ⟨got, waiting, hsplit, hrest, hattends⟩

/-- What the broker was given from `s` are the first of the messages that its client sent. -/
theorem Split.inputs_prefix {h : List SystemStep} {σ : System} {g : List DaemonStep}
    (hs : Split h σ g) (hsent : ∀ m ∈ h.flatMap (·.action.message), Representable m)
    {ls : List (Input × List Sent)}
    (hin : ls.map (·.1) = g.filterMap received) (s : SessionId) :
    inputsOf s ls <+: sentBy s h ∧ (AtRest (σ.up s) → σ.daemon.handlers s = .reading →
      inputsOf s ls = sentBy s h) := by
  obtain ⟨got, waiting, hsplit, hrest, hattends⟩ := hs.attends hsent s
  have hinputs : inputsOf s ls = heardFrom s g := by rw [inputsOf, hin, heardFrom]
  rw [hinputs, hsplit]
  refine ⟨hattends.beginning.trans (List.prefix_append _ _), fun hat hread => ?_⟩
  rw [hread] at hattends
  rw [hrest hat, List.append_nil]
  exact hattends

/-- What the client of `t` received are the first of the messages that the broker had for it. -/
theorem Split.outputs_prefix {h : List SystemStep} {σ : System} {g : List DaemonStep}
    (hs : Split h σ g) (hwritten : ∀ w ∈ writesOf h, Representable w.message)
    {ls : List (Input × List Sent)}
    (hout : ls.flatMap (·.2) = visible (outputs g)) (t : SessionId) :
    receivedAt t h <+: outputsTo t ls ∧ (AtRest (σ.down t) → ¬ Closed σ.daemon.server t →
      receivedAt t h = outputsTo t ls) := by
  obtain ⟨got, hpre, harrived, hall⟩ := hs.arrived hwritten t
  have hgotRep : ∀ m ∈ got, Representable m := fun m hm =>
    representable_of_messagesTo hwritten m (hpre.subset hm)
  have hreceived : receivedAt t h = got.filter fun m => decide (m.type ≠ .logEntry) := by
    rw [receivedAt, harrived, flatMap_receivedIn_pack hgotRep]
  have houtputs : outputsTo t ls =
      (messagesTo t (writesOf h)).filter fun m => decide (m.type ≠ .logEntry) := by
    obtain ⟨g', hg', -, hout'⟩ := server_of_daemon hs.run
    rw [messagesTo_visible t fun w hw => forwardToMonitor_iff hg' (by rwa [hout', hs.writes]),
      outputsTo, hout, hs.writes]
  rw [hreceived, houtputs]
  exact ⟨hpre.filter _, fun hat hopen => by rw [hall hat hopen]⟩

/-- A client asks for the role of the context manager, and gets its answer. -/
def rolePlay : List SystemAction :=
  [.connect, .send 0 { type := .setContextMgr, cookie := 3 }, .up 0 (.send 26), .up 0 .messageSent,
    .up 0 (.arrive 20), .up 0 (.read 2), .up 0 (.arrive 6), .up 0 (.read 24), .turn 0 [],
    .turn 0 [], .down 0 (.send 30), .down 0 .messageSent, .down 0 (.arrive 30), .down 0 (.read 2)]

end Binderd.Broker.Network
