import Binderd.Clients.Calls

/-! # Calls and the end of the connection

`Terminate` runs when a read fails and in the destructor. It sets `should_exit_`, closes the
messenger, wakes the threads that wait for messages and stops the handlers; it does not look at
`pending_calls_`, and `state_` stays `Connected`. So a call that was waiting waits on, and a later
`Transact` still gets past its check of `state_`: it enters its call into the table before
`QueueMessage` throws.

`disconnect_resolves_iff` says which runs leave no caller behind: those in which no call waits when
`Terminate` runs and no call is entered after it. -/

namespace Binderd.Clients.Disconnect

open Binderd.Lib.Tables Binderd.Lib.Runs
open Binderd.Wire.Streams Binderd.Wire.Messages
open Binderd.Clients.Calls

/-! ### The life of a client -/

/-- `Client::State`. -/
inductive ConnectionState where
  | disconnected
  | connected
deriving DecidableEq

/-- A client after its constructor has connected it. -/
structure Connection where
  client : ClientState := {}
  /-- `state_`. -/
  state : ConnectionState := .connected
  /-- `running_`. -/
  running : Bool := true

/-- `ClientImpl::Terminate`. -/
def terminate (x : Connection) : Connection :=
  { x with client := { x.client with shouldExit := true } }

/-- `ClientImpl::QueueMessage`: the message that is written. -/
def queueMessage (x : Connection) (msg : Message) : Except Exn Message :=
  if x.client.shouldExit ∨ !x.running then .error .other else .ok msg

/-- How `Transact` goes on. -/
inductive Outcome where
  /-- It returns a null pointer. -/
  | null
  | threw (e : Exn)
  /-- The message is written, and the caller waits for the promise. -/
  | waits (promise : ℕ) (msg : Message)
deriving DecidableEq

/-- `ClientImpl::Transact`, up to the wait. -/
def transact (x : Connection) (msg : Message) (oneWay : Bool) : Outcome × Connection :=
  if x.state ≠ .connected then (.null, x)
  else
    match startCall x.client msg oneWay with
    | (.error e, c) => (.threw e, { x with client := c })
    | (.ok msg, c) =>
      match queueMessage { x with client := c } msg with
      | .error e => (.threw e, { x with client := c })
      | .ok msg => (.waits x.client.started.length msg, { x with client := c })

/-- What can happen in the life of a client. -/
inductive LifeAction where
  /-- The client or one of its users acts; a read that fails is among the actions. -/
  | act (a : ClientAction)
  | transact (msg : Message) (oneWay : Bool)
  /-- `ClientImpl::~ClientImpl`. -/
  | destroy
deriving DecidableEq

/-- One step of it. Calls are started by `Transact` alone. -/
def lifeStep (x : Connection) : LifeAction → Option (Connection × List Outcome)
  | .act (.startCall _ _) => none
  | .act a => (clientStep x.client a).map fun r => ({ x with client := r.1 }, [])
  | .transact msg oneWay => some ((transact x msg oneWay).2, [(transact x msg oneWay).1])
  | .destroy => if x.running then some (terminate x, []) else none

/-- **The client from its connection to its end.** It emits what becomes of the calls of
`Transact`. -/
def life : Machine Connection LifeAction Outcome := ⟨{}, lifeStep⟩

/-- The steps, as the histories record them. -/
abbrev LifeStep := Transition Connection LifeAction Outcome

/-! ### Statements -/

/-- No call in the table waits for its promise. -/
def Resolved (c : ClientState) : Prop :=
  ∀ k call, c.pendingCalls.lookup k = some call → c.promises call.promise ≠ none

instance (c : ClientState) : Decidable (Resolved c) := decidableForallLookup _ _

/-- After the step no caller is left behind: once `Terminate` has run no call waits, and no call is
entered into the table. -/
structure LeavesNone (e : LifeStep) : Prop where
  resolved : e.after.client.shouldExit = true → Resolved e.after.client
  entered : e.before.client.shouldExit = true →
    ∀ k ∈ e.after.client.pendingCalls, k ∈ e.before.client.pendingCalls

/-- The action runs `Terminate`. -/
def LifeAction.terminates : LifeAction → Bool
  | .act .error | .destroy => true
  | _ => false

/-- If the step runs `Terminate` no call waits, and if it is a `Transact` after that its cookie is
in use. -/
def CleanExit (e : LifeStep) : Prop :=
  (e.action.terminates = true → Resolved e.before.client) ∧
    (e.before.client.shouldExit = true → ∀ msg oneWay, e.action = .transact msg oneWay →
      e.before.client.nextCookie % 2 ^ 64 ∈ e.before.client.pendingCalls)

/-! ### What a step can do -/

/-- What the end of the connection has to do with. -/
structure SameEnd (c c' : ClientState) : Prop where
  shouldExit : c'.shouldExit = c.shouldExit
  pendingCalls : c'.pendingCalls = c.pendingCalls
  promises : c'.promises = c.promises

theorem transact_client {x : Connection} (hx : x.state = .connected) (msg : Message)
    (oneWay : Bool) : (transact x msg oneWay).2 =
      { x with client := (startCall x.client msg oneWay).2 } := by
  unfold transact
  rw [if_neg (by simp [hx])]
  rcases startCall x.client msg oneWay with ⟨e | m, c⟩
  · rfl
  · simp only
    rcases queueMessage { x with client := c } m with e | m' <;> rfl

theorem onNewMessage_shouldExit (st : ClientState) (frame : List UInt8) :
    (onNewMessage st frame).shouldExit = st.shouldExit := by
  have hone : ∀ (st : ClientState) (m : Incoming),
      (handleMessage st m).1.shouldExit = st.shouldExit := by
    intro st m
    rcases handleMessage_cases st m with ⟨h, -⟩ | ⟨call, -, -, h⟩ | h | h <;> rw [h]
  have hall : ∀ (msgs : List Incoming) (st : ClientState),
      (handleMessages st msgs).1.shouldExit = st.shouldExit := by
    intro msgs
    induction msgs with
    | nil => exact fun _ => rfl
    | cons m rest ih =>
      intro st
      have hm := hone st m
      rw [handleMessages]
      generalize handleMessage st m = r at hm
      obtain ⟨st', _ | e⟩ := r
      · exact (ih st').trans hm
      · exact hm
  obtain ⟨reading, h⟩ := onNewMessage_eq st frame
  rw [h]
  exact hall _ _

/-- **What a step can do to the end of the connection.** -/
inductive EndEffect (c : ClientState) : LifeAction → ClientState → Prop
  /-- `Terminate` runs. -/
  | terminated {a reading} : a.terminates = true →
      EndEffect c a { c with reading := reading, shouldExit := true }
  /-- A call is entered into the table. -/
  | entered {msg oneWay c' call} : c.nextCookie % 2 ^ 64 ∉ c.pendingCalls →
      c'.shouldExit = c.shouldExit →
      c'.pendingCalls = insertNew c.pendingCalls (c.nextCookie % 2 ^ 64) call →
      EndEffect c (.transact msg oneWay) c'
  /-- The cookie is in use. -/
  | refused {msg oneWay c'} : c.nextCookie % 2 ^ 64 ∈ c.pendingCalls → SameEnd c c' →
      EndEffect c (.transact msg oneWay) c'
  /-- Handlers run while the connection is open. -/
  | handled {a c'} : a ≠ .error → c.shouldExit = false → c'.shouldExit = false →
      EndEffect c (.act a) c'
  | aside {a c'} : a ≠ .error → SameEnd c c' → EndEffect c (.act a) c'

theorem clientStep_end {c : ClientState} {a : ClientAction} {r : ClientState × List ClientEvent}
    (ha : ∀ msg oneWay, a ≠ .startCall msg oneWay) (h : clientStep c a = some r) :
    EndEffect c (.act a) r.1 := by
  obtain ⟨c', es⟩ := r
  cases a with
  | startCall msg oneWay => exact absurd rfl (ha msg oneWay)
  | frame bytes =>
    have hexit : c.shouldExit = false := by
      simp only [clientStep] at h
      split_ifs at h with hg
      simpa using hg.2
    refine .handled (by simp) hexit ?_
    rw [clientStep_frame h, onNewMessage_shouldExit, hexit]
  | runTask =>
    have hexit : c.shouldExit = false := by
      by_contra hne
      simp [clientStep, hne] at h
    refine .handled (by simp) hexit ?_
    have heff := clientStep_effect h
    cases heff <;> exact hexit
  | error =>
    have heff := clientStep_effect h
    cases heff
    exact .terminated rfl
  | _ =>
    have heff := clientStep_effect h
    cases heff
    exact .aside (by simp) ⟨rfl, rfl, rfl⟩

theorem lifeStep_end {x : Connection} {a : LifeAction} {r : Connection × List Outcome}
    (hx : x.state = .connected) (h : lifeStep x a = some r) :
    EndEffect x.client a r.1.client ∧ r.1.state = .connected := by
  cases a with
  | act a =>
    have ha : ∀ msg oneWay, a ≠ .startCall msg oneWay := by
      rintro msg oneWay rfl
      cases h
    have hstep : (clientStep x.client a).map
        (fun r => ({ x with client := r.1 }, ([] : List Outcome))) = some r := by
      cases a with
      | startCall msg oneWay => exact absurd rfl (ha msg oneWay)
      | _ => exact h
    obtain ⟨r', hr, rfl⟩ := Option.map_eq_some_iff.mp hstep
    exact ⟨clientStep_end ha hr, hx⟩
  | transact msg oneWay =>
    cases h
    simp only [transact_client hx]
    refine ⟨?_, hx⟩
    by_cases hc : x.client.nextCookie % 2 ^ 64 ∈ x.client.pendingCalls
    · rw [startCall_of_mem hc]
      exact .refused hc ⟨rfl, rfl, rfl⟩
    · rw [startCall_of_notMem hc]
      exact .entered hc rfl rfl
  | destroy =>
    simp only [lifeStep] at h
    split_ifs at h
    cases h
    have hend : EndEffect x.client .destroy
        { x.client with reading := x.client.reading, shouldExit := true } := .terminated rfl
    exact ⟨hend, hx⟩

/-! ### Runs -/

theorem connected_of_run {h : List LifeStep} {x : Connection} (hr : Run life h x) :
    x.state = .connected :=
  Path.preserves (P := fun x => x.state = .connected) hr rfl
    fun _ _ hv hx => (lifeStep_end hx hv).2

theorem step_end {h : List LifeStep} {x : Connection} (hr : Run life h x) {e : LifeStep}
    (he : e ∈ h) : EndEffect e.before.client e.action e.after.client := by
  obtain ⟨h1, h2, -, hp, hv, -⟩ := hr.prefix_of_mem he
  exact (lifeStep_end (connected_of_run hp) hv).1

/-- A step after which no caller is left behind is a clean one. -/
theorem cleanExit_of_leavesNone {e : LifeStep}
    (heff : EndEffect e.before.client e.action e.after.client) (h : LeavesNone e) :
    CleanExit e := by
  have hres := h.resolved
  have hent := h.entered
  unfold CleanExit
  generalize e.before.client = c at heff hres hent ⊢
  generalize e.after.client = c' at heff hres hent
  generalize e.action = a at heff ⊢
  cases heff with
  | terminated ha =>
    refine ⟨fun _ => hres rfl, ?_⟩
    rintro - msg oneWay rfl
    cases ha
  | @entered msg oneWay _ call hc hexit hp =>
    refine ⟨fun ht => (by cases ht), fun hx _ _ _ => ?_⟩
    refine hent hx _ ?_
    rw [hp, mem_insertNew]
    exact .inl rfl
  | refused hc hs => exact ⟨fun ht => (by cases ht), fun _ _ _ _ => hc⟩
  | @handled a _ ha hexit hexit' =>
    refine ⟨fun ht => ?_, fun _ _ _ hact => by cases hact⟩
    cases a <;> first | exact absurd rfl ha | cases ht
  | @aside a _ ha hs =>
    refine ⟨fun ht => ?_, fun _ _ _ hact => by cases hact⟩
    cases a <;> first | exact absurd rfl ha | cases ht

theorem Resolved.congr {c c' : ClientState} (h : Resolved c) (hs : SameEnd c c') : Resolved c' := by
  intro k call hk
  rw [hs.promises]
  exact h k call (hs.pendingCalls ▸ hk)

/-- What a clean step keeps: once `Terminate` has run, no call waits. -/
theorem leavesNone_of_cleanExit {e : LifeStep}
    (heff : EndEffect e.before.client e.action e.after.client) (hc : CleanExit e)
    (hbefore : e.before.client.shouldExit = true → Resolved e.before.client) : LeavesNone e := by
  suffices h : (e.after.client.shouldExit = true → Resolved e.after.client) ∧
      (e.before.client.shouldExit = true →
        ∀ k ∈ e.after.client.pendingCalls, k ∈ e.before.client.pendingCalls) from ⟨h.1, h.2⟩
  unfold CleanExit at hc
  generalize e.before.client = c at heff hc hbefore ⊢
  generalize e.after.client = c' at heff ⊢
  generalize e.action = a at heff hc
  cases heff with
  | terminated ha => exact ⟨fun _ => hc.1 ha, fun _ k hk => hk⟩
  | @entered msg oneWay _ call hnot hexit hp =>
    -- a call that is entered is entered before `Terminate`
    have hopen : c.shouldExit ≠ true := fun hx => hnot (hc.2 hx msg oneWay rfl)
    exact ⟨fun hx => absurd (hexit ▸ hx) hopen, fun hx => absurd hx hopen⟩
  | refused _ hs =>
    exact ⟨fun hx => (hbefore (hs.shouldExit ▸ hx)).congr hs, fun _ k hk => hs.pendingCalls ▸ hk⟩
  | handled ha hexit hexit' =>
    exact ⟨fun hx => by simp [hexit'] at hx, fun hx => by simp [hexit] at hx⟩
  | aside ha hs =>
    exact ⟨fun hx => (hbefore (hs.shouldExit ▸ hx)).congr hs, fun _ k hk => hs.pendingCalls ▸ hk⟩

/-- In a run of clean steps no call waits once `Terminate` has run. -/
theorem resolved_of_run {h : List LifeStep} {x : Connection} (hr : Run life h x)
    (hc : ∀ e ∈ h, CleanExit e) : x.client.shouldExit = true → Resolved x.client := by
  refine Run.invariant (P := fun _ x => x.client.shouldExit = true → Resolved x.client) ?_ ?_
    hr hc
  · intro hx
    cases hx
  · intro h e hrun hbefore hv hclean
    have heff := (lifeStep_end (connected_of_run hrun) hv).1
    exact (leavesNone_of_cleanExit heff hclean hbefore).resolved

/-- **The end of the connection leaves no caller behind, over a whole run, if and only if no call
waits when `Terminate` runs and no `Transact` enters its call after that.** -/
theorem disconnect_resolves_iff {h : List LifeStep} {x : Connection} (hr : Run life h x) :
    (∀ e ∈ h, LeavesNone e) ↔ ∀ e ∈ h, CleanExit e := by
  constructor
  · intro hall e he
    exact cleanExit_of_leavesNone (step_end hr he) (hall e he)
  · intro hall e he
    obtain ⟨h1, h2, rfl, hp, -, -⟩ := hr.prefix_of_mem he
    exact leavesNone_of_cleanExit (step_end hr he) (hall e he)
      (resolved_of_run hp fun e' he' => hall e' (by simp [he']))

/-- A call that is answered before the connection ends. -/
def tidyCaller : List LifeAction :=
  [.transact { type := .setContextMgr } false,
    .act (.frame (pack { type := .status, data := [0, 0, 0, 0] })), .act .error]

theorem disconnect_resolves_tidyCaller :
    (final life {} tidyCaller).client.shouldExit = true ∧
      (0 ∈ (final life {} tidyCaller).client.pendingCalls) ∧
      ((∀ e ∈ history life {} tidyCaller, LeavesNone e) ↔
        ∀ e ∈ history life {} tidyCaller, CleanExit e) :=
  ⟨by decide +kernel, by decide +kernel, disconnect_resolves_iff (path_history life tidyCaller {})⟩

/-- The connection ends while a call waits. -/
def strandedCaller : List LifeAction := [.transact { type := .transaction } false, .act .error]

/-- The connection ends, and a call is made after it. -/
def lateCaller : List LifeAction := [.act .error, .transact { type := .transaction } false]

/-- The call that waited is still in the table without a value, and the late one, whose `Transact`
throws, is entered. -/
theorem callers_left_behind :
    (¬ ∀ e ∈ history life {} strandedCaller, LeavesNone e) ∧
      ¬ ∀ e ∈ history life {} lateCaller, LeavesNone e := by
  constructor
  · intro hall
    have hstranded : ∃ e ∈ history life {} strandedCaller,
        e.after.client.shouldExit = true ∧ ¬ Resolved e.after.client := by decide +kernel
    obtain ⟨e, he, hx, hnot⟩ := hstranded
    exact hnot ((hall e he).resolved hx)
  · intro hall
    have hlate : ∃ e ∈ history life {} lateCaller, e.before.client.shouldExit = true ∧
        0 ∈ e.after.client.pendingCalls ∧ 0 ∉ e.before.client.pendingCalls := by decide +kernel
    obtain ⟨e, he, hx, hin, hnot⟩ := hlate
    exact hnot ((hall e he).entered hx 0 hin)

end Binderd.Clients.Disconnect
