import Binderd.Broker.Agreement
import Binderd.Broker.Delivery

/-! # The roles of the context manager and of the monitor

The registry has a slot for the context manager and one for the monitor. The two are alike: a
session asks for the role, gets it if the slot is empty and keeps it until it terminates. So a slot
holds the session that was granted the role last, if it has not terminated since
(`holder_iff_lastGranted`). A Transaction to the handle `0` goes to the holder of the first slot. If
there is none it is turned away with `NameNotFound`, but only after its objects were translated, and
an object that is listed for no data is looked for at a null pointer: the daemon dies, and nobody is
answered (`roles_exclusive`). -/

namespace Binderd.Broker.Roles

open Binderd.Lib.Runs Binderd.Wire.Streams Binderd.Wire.Messages Binderd.Wire.Transactions
open Binderd.Broker.State Binderd.Broker.Handles Binderd.Broker.Sessions Binderd.Broker.Effects
open Binderd.Broker.Agreement Binderd.Broker.Translation Binderd.Broker.Delivery

/-- The two roles that a session can ask for. -/
inductive Role where
  | contextManager | monitor
deriving DecidableEq, Repr

namespace Role

/-- The session in the slot. -/
def holder : Role → Registry → Option SessionId
  | contextManager, r => r.contextMgr
  | monitor, r => r.monitor

/-- The type of the message that asks for the role. -/
def request : Role → MessageType
  | contextManager => .setContextMgr
  | monitor => .setMonitor

end Role

/-- The session asks for the role, and the answer is `OK`. -/
def Grants (role : Role) (e : ServerStep) (s : SessionId) : Prop :=
  ∃ msg beyond, e.action = .process s msg beyond ∧ msg.type = role.request ∧
    AnsweredWith e s msg .ok

/-- The session is the one that was granted the role last, and it has not terminated since. -/
def LastGranted (role : Role) (h : List ServerStep) (s : SessionId) : Prop :=
  Since (fun e => Grants role e s)
    (fun e => (∀ t, ¬ Grants role e t) ∧ ∀ order, e.action ≠ .terminate s order) h

/-! ### What a step does to a slot -/

/-- **What an action can do to the slot of a role.** -/
inductive SlotStep (role : Role) (st : ServerState) : Action → ServerState → Prop
  | granted {s msg beyond st'} : st.Live s → msg.type = role.request →
      role.holder st.registry = none → role.holder st'.registry = some s →
      SlotStep role st (.process s msg beyond) st'
  /-- The holder terminates. -/
  | vacated {s order st'} : role.holder st.registry = some s → role.holder st'.registry = none →
      SlotStep role st (.terminate s order) st'
  | kept {a st'} : role.holder st'.registry = role.holder st.registry →
      (∀ s order, a = .terminate s order → role.holder st.registry ≠ some s) →
      SlotStep role st a st'

theorem SlotStep.of_eq {role : Role} {st st' : ServerState} {s : SessionId} {msg : Message}
    {beyond : List UInt8} (h : role.holder st'.registry = role.holder st.registry) :
    SlotStep role st (.process s msg beyond) st' :=
  .kept h fun _ _ ha => by cases ha

theorem holder_exports {s : SessionId} {st st' : ServerState} (h : Exports s st st')
    (role : Role) : role.holder st'.registry = role.holder st.registry := by
  cases role with
  | contextManager => exact (Exports.frame h).contextMgr
  | monitor => exact (Exports.frame h).monitor

theorem holder_terminate (role : Role) (st : ServerState) (s : SessionId) (order : List ℕ) :
    role.holder (terminate st s order).1.registry =
      if role.holder st.registry = some s then none else role.holder st.registry := by
  obtain ⟨-, -, -, hc, hm⟩ := terminate_registry st s order
  cases role with
  | contextManager => exact hc
  | monitor => exact hm

theorem slot_of_effect {st st' : ServerState} {a : Action} {ws : List Write}
    (h : Effect st a st' ws) (role : Role) : SlotStep role st a st' := by
  cases h with
  | connected => exact .kept rfl fun _ _ ha => by cases ha
  | rejected _ _ he _ => exact .of_eq (holder_exports he role)
  | refused _ _ he _ he' _ =>
    exact .of_eq ((holder_exports he' role).trans (holder_exports he role))
  | delivered d =>
    exact .of_eq ((holder_exports d.target_exports role).trans
      (holder_exports d.caller_exports role))
  | contextMgrSet hl ht hn h' =>
    subst h'
    cases role with
    | contextManager => exact .granted hl ht hn rfl
    | monitor => exact .of_eq rfl
  | monitorSet hl ht hn h' =>
    subst h'
    cases role with
    | contextManager => exact .of_eq rfl
    | monitor => exact .granted hl ht hn rfl
  | reference _ _ hr h' =>
    obtain ⟨refs, hrefs⟩ := reference_registry (hr.imp And.right And.right)
    subst h' hrefs
    exact .of_eq (by cases role <;> rfl)
  | death _ _ _ _ h' =>
    subst h'
    exact .of_eq rfl
  | @terminated s order _ _ _ hr =>
    subst hr
    have hslot := holder_terminate role st s order
    by_cases hs : role.holder st.registry = some s
    · rw [if_pos hs] at hslot
      exact .vacated hs hslot
    · rw [if_neg hs] at hslot
      refine .kept hslot fun t order' ha => ?_
      cases ha
      exact hs
  | _ => exact .of_eq rfl

/-! ### The answer to a request -/

/-- No status is sent while a message is forwarded to the monitor. -/
theorem answered_append_iff {st st' : ServerState} {s : SessionId} {msg : Message}
    {status status' : Status} :
    ⟨s, statusMessage msg status, .sendStatus msg status⟩ ∈
      forwardToMonitor st msg ++ sendStatus st' s msg status' ↔ status = status' := by
  rw [List.mem_append, mem_sendStatus_iff]
  refine or_iff_right fun h => ?_
  have := (mem_forwardToMonitor h).1
  cases this

/-- **A request** is answered with `OK` if the slot is empty, which it then fills, and with
`AlreadyExists` if not. -/
theorem request_answered {role : Role} {e : ServerStep} {s : SessionId} {msg : Message}
    {beyond : List UInt8} (hv : e.Valid server) (ha : e.action = .process s msg beyond)
    (ht : msg.type = role.request) :
    (∀ status, AnsweredWith e s msg status ↔
      status = if role.holder e.before.registry = none then .ok else .alreadyExists) ∧
    (role.holder e.before.registry = none → role.holder e.after.registry = some s) := by
  unfold AnsweredWith
  cases role with
  | contextManager =>
    change msg.type = .setContextMgr at ht
    have hp : processMessage e.before s msg beyond = .ok (onSetContextManager e.before s msg) := by
      simp only [processMessage, ht]
    rw [(step_process hv ha hp).1, (step_process hv ha hp).2]
    unfold onSetContextManager
    cases h : e.before.registry.contextMgr with
    | none =>
      simp only [Role.holder, h, if_true]
      exact ⟨fun _ => answered_append_iff, fun _ => trivial⟩
    | some t =>
      simp only [Role.holder, h, reduceCtorEq, if_false]
      exact ⟨fun _ => answered_append_iff, fun hn => hn.elim⟩
  | monitor =>
    change msg.type = .setMonitor at ht
    have hp : processMessage e.before s msg beyond = .ok (onSetMonitor e.before s msg) := by
      simp only [processMessage, ht]
    rw [(step_process hv ha hp).1, (step_process hv ha hp).2]
    unfold onSetMonitor
    cases h : e.before.registry.monitor with
    | none =>
      simp only [Role.holder, h, if_true]
      exact ⟨fun _ => mem_sendStatus_iff, fun _ => trivial⟩
    | some t =>
      simp only [Role.holder, h, reduceCtorEq, if_false]
      exact ⟨fun _ => mem_sendStatus_iff, fun hn => hn.elim⟩

theorem grants_iff {role : Role} {e : ServerStep} {s : SessionId} (hv : e.Valid server) :
    Grants role e s ↔
      role.holder e.before.registry = none ∧ role.holder e.after.registry = some s := by
  constructor
  · rintro ⟨msg, beyond, ha, ht, hok⟩
    obtain ⟨hanswer, hfill⟩ := request_answered hv ha ht
    rw [hanswer] at hok
    have hn : role.holder e.before.registry = none := by
      by_contra hn
      rw [if_neg hn] at hok
      cases hok
    exact ⟨hn, hfill hn⟩
  · rintro ⟨hn, hs⟩
    have hslot := slot_of_effect (step_effect hv) role
    generalize hact : e.action = a at hslot
    generalize hst : e.after = st' at hslot hs
    cases hslot with
    | @granted t msg beyond _ _ ht _ hset =>
      rw [hset] at hs
      cases hs
      refine ⟨msg, beyond, hact, ht, ?_⟩
      rw [(request_answered hv hact ht).1, if_pos hn]
    | vacated hb _ =>
      rw [hn] at hb
      cases hb
    | kept hk _ =>
      rw [hk, hn] at hs
      cases hs

/-! ### Whole runs -/

/-- The slot after a step: the role was granted in it, or before it and not lost in it. -/
theorem holder_step {role : Role} {e : ServerStep} (hv : e.Valid server) (s : SessionId) :
    role.holder e.after.registry = some s ↔ Grants role e s ∨
      role.holder e.before.registry = some s ∧
        (∀ t, ¬ Grants role e t) ∧ ∀ order, e.action ≠ .terminate s order := by
  simp only [grants_iff hv]
  have hslot := slot_of_effect (step_effect hv) role
  generalize e.action = a at hslot
  generalize e.after = st' at hslot
  cases hslot with
  | granted _ _ hn hset => simp [hn, hset]
  | vacated hb hn =>
    rw [hb, hn]
    refine iff_of_false (by simp) ?_
    rintro (⟨hn', -⟩ | ⟨hs, -, hlast⟩)
    · cases hn'
    · cases hs
      exact hlast _ rfl
  | kept hk hlast =>
    rw [hk]
    constructor
    · intro hs
      refine .inr ⟨hs, fun t ht => ?_, fun order ha => hlast s order ha hs⟩
      rw [hs] at ht
      cases ht.1
    · rintro (⟨hn, hs⟩ | ⟨hs, -⟩)
      · exact hs
      · exact hs

/-- **The slot of a role** holds the session that was granted it last and has not terminated. -/
theorem holder_iff_lastGranted {h : List ServerStep} {st : ServerState} (hr : Run server h st)
    (role : Role) (s : SessionId) :
    role.holder st.registry = some s ↔ LastGranted role h s := by
  refine Run.invariant (M := server) (C := fun _ => True)
    (P := fun h st => role.holder st.registry = some s ↔ LastGranted role h s)
    ?_ ?_ hr fun _ _ => trivial
  · refine iff_of_false ?_ not_since_nil
    cases role <;> simp [Role.holder, server]
  · intro h e _ ih hv _
    rw [holder_step hv, ih]
    unfold LastGranted
    rw [since_snoc]

/-! ### Transactions to the context manager -/

theorem findSessionByHandle_zero (r : Registry) : findSessionByHandle r 0 = r.contextMgr :=
  if_pos rfl

/-- A Transaction that is delivered to the handle `0` goes to the context manager. -/
theorem contextMgr_of_delivery {st : ServerState} {s : SessionId} {msg : Message}
    {beyond : List UInt8} (d : Delivery st s msg beyond) (hd : msg.destination = 0) :
    st.registry.contextMgr = some d.target := by
  have hf := d.find
  rw [hd, findSessionByHandle_zero, (Exports.frame d.caller_exports).contextMgr] at hf
  exact hf

/-- The step answers the message with `NameNotFound` and delivers no transaction. -/
def TurnsAway (e : ServerStep) (s : SessionId) (msg : Message) : Prop :=
  (∀ status, AnsweredWith e s msg status ↔ status = .nameNotFound) ∧ transactionsOf e.emitted = []

/-- Without a context manager the answer is `NameNotFound`, if there is one. -/
theorem nameNotFound_of_empty {st : ServerState} {s : SessionId} {msg : Message}
    {beyond : List UInt8} {r : ServerState × List Write} (hd : msg.destination = 0)
    (hc : Complete msg.data) (hn : st.registry.contextMgr = none)
    (h : onTransaction st s msg beyond = some r) : r.2 = sendStatus r.1 s msg .nameNotFound := by
  rcases onTransaction_cases h with ⟨hc', -⟩ | ⟨-, status₁, st₁, m₁, htr, hrest⟩
  · exact absurd hc hc'
  rcases hrest with ⟨-, rfl⟩ | ⟨t, posted, hf, -, -⟩
  · rfl
  · rw [hd, findSessionByHandle_zero, (Exports.frame (exports_of_translate htr)).contextMgr,
      hn] at hf
    cases hf

theorem turnsAway_of_empty {e : ServerStep} {s : SessionId} {msg : Message} {beyond : List UInt8}
    (hv : e.Valid server) (ha : e.action = .process s msg beyond) (ht : msg.type = .transaction)
    (hd : msg.destination = 0) (hc : Complete msg.data)
    (hn : e.before.registry.contextMgr = none) : TurnsAway e s msg := by
  have hws := nameNotFound_of_empty hd hc hn (onTransaction_of_step hv ha ht).2
  simp only at hws
  unfold TurnsAway AnsweredWith
  rw [hws]
  exact ⟨fun _ => mem_sendStatus_iff, transactionsOf_sendStatus ..⟩

/-- **Without a context manager** a Transaction to the handle `0` is turned away if and only if it
does not list an object for no data; the daemon does not survive one that does. -/
theorem turnsAway_iff {st : ServerState} {s : SessionId} {msg : Message} {beyond : List UInt8}
    (hs : st.Live s) (ht : msg.type = .transaction) (hd : msg.destination = 0)
    (hc : Complete msg.data) (hn : st.registry.contextMgr = none) :
    (∃ e : ServerStep, e.Valid server ∧ e.before = st ∧ e.action = .process s msg beyond ∧
      TurnsAway e s msg) ↔ ¬ (decoded msg.data).ListsNull := by
  constructor
  · rintro ⟨e, hv, rfl, ha, -⟩ hnull
    have hnone : onTransaction e.before s msg beyond = none :=
      onTransaction_eq_none.mpr ⟨hc, hnull⟩
    rw [(onTransaction_of_step hv ha ht).2] at hnone
    cases hnone
  · intro hnull
    have hsome : onTransaction st s msg beyond ≠ none := fun hnone =>
      hnull (onTransaction_eq_none.mp hnone).2
    obtain ⟨r, hr⟩ := Option.ne_none_iff_exists'.mp hsome
    have hv : (⟨st, .process s msg beyond, r.2, r.1⟩ : ServerStep).Valid server := by
      show step st (.process s msg beyond) = some (r.1, r.2)
      simp only [step, if_pos hs, processMessage, ht, hr]
    exact ⟨_, hv, rfl, rfl, turnsAway_of_empty hv rfl ht hd hc hn⟩

/-- **The roles are exclusive.** In every run and for each of the two roles: the slot holds the
session, if there is one, that was granted the role last and has not terminated since; a request is
answered with `OK` if the slot is empty and with `AlreadyExists` if not, whoever sends it; the slot
gets empty by the termination of its holder only. A Transaction to the handle `0` that is answered
with `OK` is delivered to the context manager. Without one it is answered with `NameNotFound` and
delivered to nobody by every step that processes it, and there is such a step if and only if it does
not list an object for no data. -/
theorem roles_exclusive {h : List ServerStep} {st : ServerState} (hr : Run server h st) :
    (∀ role : Role,
      (∀ s, role.holder st.registry = some s ↔ LastGranted role h s) ∧
      (∀ e ∈ h, ∀ s msg beyond, e.action = .process s msg beyond → msg.type = role.request →
        ∀ status, AnsweredWith e s msg status ↔
          status = if role.holder e.before.registry = none then .ok else .alreadyExists) ∧
      ∀ e ∈ h, ∀ s, role.holder e.before.registry = some s → role.holder e.after.registry ≠ some s →
        role.holder e.after.registry = none ∧ ∃ order, e.action = .terminate s order) ∧
    (∀ e ∈ h, ∀ s msg beyond, e.action = .process s msg beyond → msg.type = .transaction →
      msg.destination = 0 →
      (AnsweredWith e s msg .ok → ∃ w, transactionsOf e.emitted = [w] ∧
        e.before.registry.contextMgr = some w.session) ∧
      (e.before.registry.contextMgr = none → Complete msg.data → TurnsAway e s msg)) ∧
    ∀ s msg beyond, st.Live s → msg.type = .transaction → msg.destination = 0 →
      Complete msg.data → st.registry.contextMgr = none →
      ((∃ e : ServerStep, e.Valid server ∧ e.before = st ∧ e.action = .process s msg beyond ∧
        TurnsAway e s msg) ↔ ¬ (decoded msg.data).ListsNull) := by
  refine ⟨fun role => ⟨holder_iff_lastGranted hr role, ?_, ?_⟩, ?_,
    fun s msg beyond => turnsAway_iff⟩
  · intro e he s msg beyond ha ht
    exact (request_answered (hr.valid he) ha ht).1
  · intro e he s hs hne
    have hslot := slot_of_effect (step_effect (hr.valid he)) role
    generalize e.action = a at hslot ⊢
    generalize e.after = st' at hslot hne ⊢
    cases hslot with
    | granted _ _ hn _ =>
      rw [hs] at hn
      cases hn
    | vacated hb hn =>
      rw [hs] at hb
      cases hb
      exact ⟨hn, _, rfl⟩
    | kept hk _ =>
      rw [hk] at hne
      exact absurd hs hne
  · intro e he s msg beyond ha ht hd
    have hv := hr.valid he
    refine ⟨fun hok => ?_, fun hn hc => turnsAway_of_empty hv ha ht hd hc hn⟩
    obtain ⟨d, -, hws⟩ := delivery_of_answered hv ha ht hok
    rw [hws, transactionsOf_delivery d]
    exact ⟨_, rfl, contextMgr_of_delivery d hd⟩

/-- Session `1` becomes the context manager, asks again and terminates, and then session `0` gets
the role and is sent a transaction by session `2`. -/
def electionScenario : List Action :=
  [.accept, .accept, .accept, .process 1 { type := .setContextMgr } [],
    .process 0 { type := .setContextMgr } [], .process 1 { type := .setContextMgr } [],
    .terminate 1 [], .process 0 { type := .setContextMgr } [],
    .process 2 (transactMessage 0 5 1 [1, 2, 3] []) []]

theorem roles_exclusive_electionScenario :
    Role.contextManager.holder (final server {} electionScenario).registry = some 0 ∧
      LastGranted .contextManager (history server {} electionScenario) 0 := by
  have hholder : Role.contextManager.holder (final server {} electionScenario).registry = some 0 :=
    by decide +kernel
  have hroles := roles_exclusive (path_history server electionScenario {})
  exact ⟨hholder, ((hroles.1 .contextManager).1 0).mp hholder⟩

/-- Session `0` sends a transaction that has no data and lists an object at the offset `0`. There is
no context manager to send it to, but the daemon looks for the object first, and dies. -/
theorem transaction_unanswered :
    Run server (history server {} [.accept]) (final server {} [.accept]) ∧
      (final server {} [.accept]).Live 0 ∧
      (final server {} [.accept]).registry.contextMgr = none ∧
      Complete (transactMessage 0 5 1 [] [0]).data ∧
      processMessage (final server {} [.accept]) 0 (transactMessage 0 5 1 [] [0]) [] =
        .error .crashed ∧
      ¬ ∃ e : ServerStep, e.Valid server ∧ e.before = final server {} [.accept] ∧
        e.action = .process 0 (transactMessage 0 5 1 [] [0]) [] ∧
        TurnsAway e 0 (transactMessage 0 5 1 [] [0]) := by
  have hl : (final server {} [.accept]).Live 0 := by decide +kernel
  have hn : (final server {} [.accept]).registry.contextMgr = none := by decide +kernel
  have hc : Complete (transactMessage 0 5 1 [] [0]).data := by decide +kernel
  have hnull : (decoded (transactMessage 0 5 1 [] [0]).data).ListsNull := by decide +kernel
  refine ⟨path_history server [.accept] {}, hl, hn, hc,
    processMessage_crashed_iff.mpr ⟨rfl, hc, hnull⟩, fun h => ?_⟩
  exact (turnsAway_iff hl rfl rfl hc hn).mp h hnull

end Binderd.Broker.Roles
