import Binderd.Broker.Delivery
import Binderd.Broker.Agreement

/-! # Death notifications

A session registers for the death of a handle in its own `death_notifications_`; who is told, when
the owner of the handle terminates, is decided by the list of references in the registry. A session
is sent one DeadBinder for each time it occurs there (`deadBinders_eq`), so none if it has not
acquired the handle, and several if it has acquired it more than once. Besides, a registration is
decoded with reads of one byte. `deaths_notified_once` says that a registered session is told once
if it occurs once among the references and the numbers that were sent fit into one byte;
`deaths_not_notified` is a run in which it is not told. -/

namespace Binderd.Broker.Deaths

open Binderd.Lib.Bytes Binderd.Lib.Tables Binderd.Lib.Runs
open Binderd.Wire.Streams Binderd.Wire.Messages Binderd.Wire.Transactions
open Binderd.Broker.State Binderd.Broker.Handles Binderd.Broker.Sessions Binderd.Broker.Effects
open Binderd.Broker.Agreement Binderd.Broker.Delivery

/-! ### What was registered -/

/-- The handle a Request- or ClearDeathNotification names. -/
def handleField (msg : Message) : ℕ := load (ofList msg.data) 0 8

/-- The object id it names. -/
def objectIdField (msg : Message) : ℕ := load (ofList msg.data) 8 8

/-- What the step does to the registration of the session `u` for the handle `k`: a request that is
answered with `OK` makes one, and a clear that is answered with `OK` takes it back. -/
def registrationStep (u : SessionId) (k : ℕ) (old : Option ℕ) (e : ServerStep) : Option ℕ :=
  match e.action with
  | .process s msg _ =>
    if s = u ∧ handleField msg = k ∧
        ⟨s, statusMessage msg .ok, .sendStatus msg .ok⟩ ∈ e.emitted then
      if msg.type = .requestDeathNotification then some (objectIdField msg)
      else if msg.type = .clearDeathNotification then none else old
    else old
  | _ => old

/-- The registration of `u` for `k` after a history, with the object id. -/
def registration (u : SessionId) (k : ℕ) (h : List ServerStep) : Option ℕ :=
  h.foldl (registrationStep u k) none

theorem registration_snoc (u : SessionId) (k : ℕ) (h : List ServerStep) (e : ServerStep) :
    registration u k (h ++ [e]) = registrationStep u k (registration u k h) e := by
  simp [registration]

/-- The write is a DeadBinder for the handle `k`, to the session `u`. -/
def forHandle (u : SessionId) (k : ℕ) (w : Write) : Bool :=
  decide (w.session = u ∧ w.message.type = .deadBinder ∧ load (ofList w.message.data) 0 8 = k)

/-- The DeadBinder messages for the handle `k` that the step writes to `u`. -/
def deadBinders (e : ServerStep) (u : SessionId) (k : ℕ) : List Write :=
  e.emitted.filter (forHandle u k)

/-- The DeadBinder message with this object id. -/
def deadBinderMessage (k id : ℕ) : Message := { type := .deadBinder, data := deadBinderData k id }

/-- **Notified once.** If the step, which comes after the history `h`, is the termination of the
owner of `k`, every other live session registered for `k` is sent one DeadBinder for `k` with the
object id it registered, and no session that is not registered is sent one. -/
def NotifiedOnce (h : List ServerStep) (e : ServerStep) : Prop :=
  ∀ s order, e.action = .terminate s order → ∀ k, e.before.registry.handles.lookup k = some s →
    (∀ u id, u ≠ s → e.before.Live u → registration u k h = some id →
      ∃ w, deadBinders e u k = [w] ∧ w.message = deadBinderMessage k id) ∧
    ∀ u, registration u k h = none → deadBinders e u k = []

/-- The numbers in a request or a clear fit into one byte. -/
def FieldsFit (e : ServerStep) : Prop :=
  match e.action with
  | .process _ msg _ =>
    msg.type = .requestDeathNotification ∨ msg.type = .clearDeathNotification →
      handleField msg < 256 ∧ objectIdField msg < 256
  | _ => True

instance : DecidablePred FieldsFit
  | ⟨_, .process _ msg _, _, _⟩ => inferInstanceAs (Decidable
      (msg.type = .requestDeathNotification ∨ msg.type = .clearDeathNotification →
        handleField msg < 256 ∧ objectIdField msg < 256))
  | ⟨_, .accept, _, _⟩ => isTrue trivial
  | ⟨_, .terminate .., _, _⟩ => isTrue trivial

/-- The references to the handle `k`. -/
def referencesOf (st : ServerState) (k : ℕ) : List SessionId :=
  (st.registry.references.lookup k).getD []

/-- When a session terminates, every other live session that is registered for a handle of it occurs
once among the references to the handle. -/
def ReferencedOnce (e : ServerStep) : Prop :=
  match e.action with
  | .terminate s _ => ∀ k owner, e.before.registry.handles.lookup k = some owner → owner = s →
      ∀ u < e.before.numSessions, u ≠ s → e.before.Live u →
        k ∈ (e.before.sessions u).deathNotifications → (referencesOf e.before k).count u = 1
  | _ => True

instance : DecidablePred ReferencedOnce
  | ⟨before, .terminate s _, _, _⟩ => inferInstanceAs (Decidable
      (∀ k owner, before.registry.handles.lookup k = some owner → owner = s →
        ∀ u < before.numSessions, u ≠ s → before.Live u →
          k ∈ (before.sessions u).deathNotifications → (referencesOf before k).count u = 1))
  | ⟨_, .accept, _, _⟩ => isTrue trivial
  | ⟨_, .process .., _, _⟩ => isTrue trivial

/-! ### Registrations and the tables -/

theorem death_cases {st st' : ServerState} {u : SessionId} {msg : Message} {beyond : List UInt8}
    {ws : List Write} (h : Effect st (.process u msg beyond) st' ws)
    (ht : msg.type = .requestDeathNotification ∨ msg.type = .clearDeathNotification) :
    st' = st ∧ ws = [] ∨ ∃ status notifications,
      deathNotification msg.type (st.sessions u).deathNotifications (byteOf msg.data 0)
        (byteOf msg.data 8) = (status, notifications) ∧
      st' = st.update u (fun x => { x with deathNotifications := notifications }) ∧
      ws = sendStatus st' u msg status := by
  have hne : ∀ {t : MessageType}, msg.type = t → t = .requestDeathNotification ∨
      t = .clearDeathNotification := fun he => he ▸ ht
  cases h with
  | ignored _ _ => exact .inl ⟨rfl, rfl⟩
  | answered _ _ h1 h2 => exact absurd ht (not_or.mpr ⟨h1, h2⟩)
  | rejected _ hm _ _ => rcases hne hm with h | h <;> cases h
  | refused _ hm _ _ _ _ => rcases hne hm with h | h <;> cases h
  | delivered d => rcases hne d.type with h | h <;> cases h
  | forwarded _ hm _ => rcases hm with hm | hm <;> rcases hne hm with h | h <;> cases h
  | contextMgrTaken _ hm _ => rcases hne hm with h | h <;> cases h
  | contextMgrSet _ hm _ _ => rcases hne hm with h | h <;> cases h
  | monitorSet _ hm _ _ => rcases hne hm with h | h <;> cases h
  | reference _ _ hm _ =>
    rcases hm with ⟨hm, -⟩ | ⟨hm, -⟩ <;> rcases hne hm with h | h <;> cases h
  | @death _ _ _ status notifications _ _ _ _ hd h' =>
    exact .inr ⟨status, notifications, hd, h', rfl⟩

/-- The table after a request or a clear: it changes if the status is `OK`. -/
theorem deathNotification_lookup {msg : Message} {table table' : Table ℕ ℕ} {status : Status}
    {handle objectId : ℕ}
    (ht : msg.type = .requestDeathNotification ∨ msg.type = .clearDeathNotification)
    (h : deathNotification msg.type table handle objectId = (status, table')) (k : ℕ) :
    table'.lookup k = if handle = k ∧ status = .ok then
      (if msg.type = .requestDeathNotification then some objectId else none)
      else table.lookup k := by
  rcases ht with ht | ht
  · simp only [deathNotification, ht] at h
    split_ifs at h with hmem
    · cases h
      simp
    · cases h
      simp only [and_true, ht, if_true]
      split_ifs with hk
      · rw [← hk, lookup_insertNew_self hmem]
      · rw [lookup_insertNew_of_ne (Ne.symm hk)]
  · simp only [deathNotification, ht] at h
    split_ifs at h with hmem
    · cases h
      simp only [and_true, ht, reduceCtorEq, if_false]
      split_ifs with hk
      · rw [← hk, AList.lookup_erase]
      · rw [AList.lookup_erase_ne (Ne.symm hk)]
    · cases h
      simp

/-- One step changes the table of a session as it changes its registrations. -/
theorem notifications_step {e : ServerStep} (hv : e.Valid server) (hfit : FieldsFit e)
    {u : SessionId} {k : ℕ} (hnew : e.before.numSessions ≤ u →
      (e.before.sessions u).deathNotifications.lookup k = none) :
    (e.after.sessions u).deathNotifications.lookup k =
      registrationStep u k ((e.before.sessions u).deathNotifications.lookup k) e := by
  have heff := step_effect hv
  by_cases hd : ∃ msg beyond, e.action = .process u msg beyond ∧
      (msg.type = .requestDeathNotification ∨ msg.type = .clearDeathNotification)
  · obtain ⟨msg, beyond, ha, ht⟩ := hd
    unfold FieldsFit at hfit
    rw [ha] at hfit heff
    obtain ⟨hh, hi⟩ := hfit ht
    have hhandle : byteOf msg.data 0 = handleField msg := toNat_of_load_lt (m := ofList msg.data) hh
    have hid : byteOf msg.data 8 = objectIdField msg := toNat_of_load_lt (m := ofList msg.data) hi
    unfold registrationStep
    rw [ha]
    simp only [true_and]
    rcases death_cases heff ht with ⟨hst, hws⟩ | ⟨status, notifications, hdn, hst, hws⟩
    · rw [hst, hws]
      simp
    · rw [hhandle, hid] at hdn
      have hlookup := deathNotification_lookup ht hdn k
      have hok : ⟨u, statusMessage msg .ok, .sendStatus msg .ok⟩ ∈ e.emitted ↔ status = .ok := by
        rw [hws, mem_sendStatus_iff, eq_comm]
      rw [hst, ServerState.update_sessions_self]
      simp only [hlookup, hok]
      rcases ht with ht | ht
      · simp [ht]
      · simp [ht]
  · have hs := heff.session u
    have hreg : ∀ old, registrationStep u k old e = old := by
      intro old
      unfold registrationStep
      split
      · next s msg beyond ha =>
        split_ifs with hc h1 h2
        · exact absurd ⟨msg, beyond, hc.1 ▸ ha, .inl h1⟩ hd
        · exact absurd ⟨msg, beyond, hc.1 ▸ ha, .inr h2⟩ hd
        · rfl
        · rfl
      · rfl
    rw [hreg]
    generalize e.after.sessions u = x at hs
    generalize e.emitted = ws at hs
    generalize hact : e.action = a at hs
    cases hs with
    | fresh he =>
      rw [hnew he.ge]
      rfl
    | notified _ hm _ => exact absurd ⟨_, _, hact, hm⟩ hd
    | _ => rfl

theorem registrationStep_new {e : ServerStep} (hv : e.Valid server) {u : SessionId}
    (hu : e.before.numSessions ≤ u) (k : ℕ) : registrationStep u k none e = none := by
  unfold registrationStep
  split
  · next s msg beyond ha =>
    rw [if_neg]
    rintro ⟨rfl, -, -⟩
    have hstep : step e.before (.process s msg beyond) = some (e.after, e.emitted) := ha ▸ hv
    simp only [step] at hstep
    split_ifs at hstep with hl
    exact absurd hl.1 (not_lt_of_ge hu)
  · rfl

/-- **The tables hold the registrations**, in every run in which the numbers sent fit into one
byte. -/
theorem notifications_of_run {h : List ServerStep} {st : ServerState} (hr : Run server h st)
    (hfit : ∀ e ∈ h, FieldsFit e) (u : SessionId) (k : ℕ) :
    (st.sessions u).deathNotifications.lookup k = registration u k h ∧
      (st.numSessions ≤ u → (st.sessions u).deathNotifications.lookup k = none) := by
  refine Run.invariant (C := FieldsFit) (P := fun h st =>
    (st.sessions u).deathNotifications.lookup k = registration u k h ∧
      (st.numSessions ≤ u → (st.sessions u).deathNotifications.lookup k = none))
    ⟨rfl, fun _ => rfl⟩ ?_ hr hfit
  intro h e hp ih hv hfit
  have hstep := notifications_step hv hfit ih.2
  refine ⟨?_, fun hle => ?_⟩
  · rw [registration_snoc, hstep, ih.1]
  · have hle := (step_effect hv).numSessions_le.trans hle
    rw [hstep, ih.2 hle, registrationStep_new hv hle]

/-! ### The messages that are written -/

theorem load_deadBinderData {k : ℕ} (hk : k < 2 ^ 64) (id : ℕ) :
    load (ofList (deadBinderData k id)) 0 8 = k := by
  have h := load_ofList_append [] (leBytes 8 id) 8 k
  rw [Nat.mod_eq_of_lt (show k < 256 ^ 8 by norm_num at hk ⊢; exact hk)] at h
  exact h

theorem filter_forwardToMonitor (u : SessionId) (k : ℕ) (st : ServerState) (msg : Message) :
    (forwardToMonitor st msg).filter (forHandle u k) = [] := by
  refine List.filter_eq_nil_iff.mpr fun w hw => ?_
  simp [forHandle, (mem_forwardToMonitor hw).2]

theorem filter_sendDeathNotification (st : ServerState) {u v : SessionId} {j k : ℕ}
    (hj : j < 2 ^ 64) :
    (sendDeathNotification st v j).filter (forHandle u k) = if v = u ∧ j = k then
      ((st.sessions u).deathNotifications.lookup k).toList.map (fun id =>
        ⟨u, deadBinderMessage k id, .sendDeathNotification k⟩) else [] := by
  unfold sendDeathNotification
  split
  · next hn =>
    split_ifs with h
    · rw [← h.1, ← h.2, hn]
      rfl
    · rfl
  · next id hid =>
    have hload : forHandle u k ⟨v, deadBinderMessage j id, .sendDeathNotification j⟩ =
        decide (v = u ∧ j = k) := by
      simp [forHandle, deadBinderMessage, load_deadBinderData hj]
    unfold deadBinderMessage at hload
    rw [writeMessage, List.filter_cons, filter_forwardToMonitor, hload]
    split_ifs with h1 h2 h2
    · rw [← h2.1, ← h2.2, hid]
      rfl
    · exact absurd (of_decide_eq_true h1) h2
    · exact absurd (decide_eq_true h2) h1
    · rfl

theorem flatMap_ite_eq {α β : Type} [DecidableEq α] (u : α) (ws : List β) : ∀ l : List α,
    (l.flatMap fun v => if v = u then ws else []) = (List.replicate (l.count u) ws).flatten
  | [] => rfl
  | v :: l => by
    rw [List.flatMap_cons, flatMap_ite_eq u ws l, List.count_cons]
    by_cases hv : v = u
    · simp [hv, List.replicate_succ]
    · simp [hv]

theorem filter_removeHandle (st : ServerState) {u : SessionId} {j k : ℕ} (hj : j < 2 ^ 64) :
    (removeHandle st j).2.filter (forHandle u k) = if j = k then
      if k ∈ st.registry.handles then
        (List.replicate ((referencesOf st k).count u)
          (((st.sessions u).deathNotifications.lookup k).toList.map fun id =>
            ⟨u, deadBinderMessage k id, .sendDeathNotification k⟩)).flatten
      else []
      else [] := by
  by_cases hjk : j = k
  · subst hjk
    rw [if_pos rfl]
    unfold removeHandle referencesOf
    by_cases hmem : j ∈ st.registry.handles
    · rw [if_neg (not_not.mpr hmem), if_pos hmem]
      cases hrefs : st.registry.references.lookup j with
      | none => rfl
      | some refs =>
        simp only [List.filter_flatMap, filter_sendDeathNotification st hj, and_true]
        exact flatMap_ite_eq u _ refs
    · rw [if_pos hmem, if_neg hmem]
      rfl
  · rw [if_neg hjk]
    refine List.filter_eq_nil_iff.mpr fun w hw => ?_
    rcases mem_removeHandle hw with ⟨s, id, rfl⟩ | ⟨-, hlog⟩
    · simp [forHandle, load_deadBinderData hj, hjk]
    · simp [forHandle, hlog]

theorem removeHandle_congr {st st' : ServerState} {k : ℕ} (hf : RemovalFrame st st')
    (hh : st'.registry.handles.lookup k = st.registry.handles.lookup k)
    (hr : st'.registry.references.lookup k = st.registry.references.lookup k) :
    (removeHandle st' k).2 = (removeHandle st k).2 := by
  have hmem : k ∈ st'.registry.handles ↔ k ∈ st.registry.handles := by
    rw [← AList.lookup_isSome, hh, AList.lookup_isSome]
  have hsend : ∀ v, sendDeathNotification st' v k = sendDeathNotification st v k := by
    intro v
    simp only [sendDeathNotification, writeMessage, forwardToMonitor, hf.sessions, hf.monitor]
  unfold removeHandle
  rw [hr]
  simp only [hmem, hsend]
  split_ifs
  · cases st.registry.references.lookup k <;> rfl
  · rfl

theorem removeHandle_references (st : ServerState) {j k : ℕ} (hjk : k ≠ j) :
    (removeHandle st j).1.registry.references.lookup k = st.registry.references.lookup k := by
  unfold removeHandle
  split_ifs
  · split
    · rfl
    · exact AList.lookup_erase_ne hjk
  · rfl

/-- The loop of `Terminate` writes what each handle gives. -/
theorem removeHandles_writes : ∀ (order : List ℕ) (st : ServerState), order.Nodup →
    (removeHandles st order).2 = order.flatMap fun k => (removeHandle st k).2
  | [], _, _ => rfl
  | j :: order, st, hnd => by
    obtain ⟨hj, hnd⟩ := List.nodup_cons.mp hnd
    rw [removeHandles, List.flatMap_cons]
    simp only [removeHandles_writes order _ hnd]
    congr 1
    refine List.flatMap_congr fun k hk => ?_
    have hne : k ≠ j := fun he => hj (he ▸ hk)
    refine removeHandle_congr (removeHandle_frame st j) ?_ (removeHandle_references st hne)
    rw [removeHandle_lookup, if_neg hne]

/-- **A session is sent one DeadBinder for each time it occurs among the references**, if it has a
notification. -/
theorem deadBinders_eq {e : ServerStep} {s : SessionId} {order : List ℕ} {k : ℕ}
    (hv : e.Valid server) (ha : e.action = .terminate s order) (hb : KeysBounded e.before)
    (ho : OwnersLive e.before) (hk : e.before.registry.handles.lookup k = some s) (u : SessionId) :
    deadBinders e u k = (List.replicate ((referencesOf e.before k).count u)
      (((e.before.sessions u).deathNotifications.lookup k).toList.map fun id =>
        ⟨u, deadBinderMessage k id, .sendDeathNotification k⟩)).flatten := by
  have hstep : step e.before (.terminate s order) = some (e.after, e.emitted) := ha ▸ hv
  simp only [step] at hstep
  split_ifs at hstep with hl
  have hperm := hl.2
  have hemit : e.emitted = (removeHandles e.before order).2 :=
    (congrArg Prod.snd (Option.some.inj hstep)).symm
  have hnd : order.Nodup := hperm.nodup_iff.mpr (AList.keys_nodup _)
  have hlt : ∀ j ∈ order, j < 2 ^ 64 := fun j hj => hb s j (hperm.mem_iff.mp hj)
  have hkmem : k ∈ order := hperm.mem_iff.mpr (ho.handles k s hk).2
  have hcount : order.count k = 1 := List.count_eq_one_of_mem hnd hkmem
  rw [deadBinders, hemit, removeHandles_writes order _ hnd, List.filter_flatMap,
    List.flatMap_congr fun j hj => filter_removeHandle e.before (hlt j hj), flatMap_ite_eq, hcount,
    if_pos (mem_of_lookup hk)]
  simp

/-! ### Runs -/

theorem notifiedOnce_step {h : List ServerStep} {e : ServerStep} (hp : Run server h e.before)
    (hv : e.Valid server) (hfit : ∀ e ∈ h, FieldsFit e) (href : ReferencedOnce e) :
    NotifiedOnce h e := by
  intro s order ha k hk
  have ho := owners_of_run hp
  have heq := deadBinders_eq hv ha (keysBounded_of_run hp) ho hk
  have htable := fun u => (notifications_of_run hp hfit u k).1
  refine ⟨fun u id hus hl hreg => ?_, fun u hreg => ?_⟩
  · have hlookup : (e.before.sessions u).deathNotifications.lookup k = some id := by
      rw [htable u, hreg]
    unfold ReferencedOnce at href
    rw [ha] at href
    have hone := href k s hk rfl u hl.1 hus hl (mem_of_lookup hlookup)
    refine ⟨⟨u, deadBinderMessage k id, .sendDeathNotification k⟩, ?_, rfl⟩
    rw [heq u, hone, hlookup]
    rfl
  · rw [heq u, htable u, hreg]
    simp

/-- **A death is notified once**: in every run in which the numbers sent in requests and clears fit
into one byte, and in which, at each termination, the registered sessions occur once among the
references, every termination sends each registered session one DeadBinder. -/
theorem deaths_notified_once {h : List ServerStep} {st : ServerState} (hr : Run server h st)
    (hfit : ∀ e ∈ h, FieldsFit e) (href : ∀ e ∈ h, ReferencedOnce e) (i : ℕ) (e : ServerStep)
    (he : h[i]? = some e) : NotifiedOnce (h.take i) e := by
  obtain ⟨hp, hv, -⟩ := hr.split_getElem? he
  exact notifiedOnce_step hp hv (fun e he => hfit e (List.mem_of_mem_take he))
    (href e (List.mem_of_getElem? he))

/-- Session `0` has exported an object, and session `1` asks to be told of the object's death, as
the object `42`. -/
def registered : List Action :=
  [.accept, .accept, .process 0 (transactMessage 99 5 1 (flatBinderObject .binder 0 7 9) [0]) [],
    .process 1 (watchMessage 1) []]

/-- Session `1` acquires the handle `1`. -/
def acquired : Action := .process 1 { type := .acquire, cookie := 2, data := leBytes 8 1 } []

/-- Session `1` acquires the handle once, and then session `0` terminates. -/
def deathScenario : List Action := registered ++ [acquired, .terminate 0 [1]]

theorem deaths_notified_once_deathScenario :
    ∃ e, (history server {} deathScenario)[5]? = some e ∧ e.action = .terminate 0 [1] ∧
      registration 1 1 ((history server {} deathScenario).take 5) = some 42 ∧
      NotifiedOnce ((history server {} deathScenario).take 5) e := by
  have hany : ((history server {} deathScenario)[5]?).any
      (fun e => decide (e.action = .terminate 0 [1])) := by decide +kernel
  obtain ⟨e, he, ha⟩ := (Option.any_eq_true _ _).mp hany
  exact ⟨e, he, of_decide_eq_true ha, by decide +kernel,
    deaths_notified_once (path_history server deathScenario {}) (by decide +kernel)
      (by decide +kernel) 5 e he⟩

/-- Session `0` terminates, and session `1` has not acquired the handle. -/
def unreferencedScenario : List Action := registered ++ [.terminate 0 [1]]

/-- Session `0` terminates, and session `1` has acquired the handle twice. -/
def twiceScenario : List Action := registered ++ [acquired, acquired, .terminate 0 [1]]

/-- In the step `i`, session `0` terminates, and session `1`, which is registered for its handle, is
sent `n` DeadBinder messages. -/
def NotifiedTimes (h : List ServerStep) (i n : ℕ) : Prop :=
  (h[i]?).any fun e => decide (e.action = .terminate 0 [1] ∧
    e.before.registry.handles.lookup 1 = some 0 ∧ e.before.Live 1 ∧
    registration 1 1 (h.take i) = some 42 ∧ (deadBinders e 1 1).length = n)

instance (h : List ServerStep) (i n : ℕ) : Decidable (NotifiedTimes h i n) :=
  inferInstanceAs (Decidable (_ = true))

theorem not_notifiedOnce {h : List ServerStep} {i n : ℕ} (hn : NotifiedTimes h i n) (hne : n ≠ 1) :
    ¬ ∀ i e, h[i]? = some e → NotifiedOnce (h.take i) e := by
  intro hall
  obtain ⟨e, he, hd⟩ := (Option.any_eq_true _ _).mp hn
  obtain ⟨ha, hk, hl, hreg, hlen⟩ := of_decide_eq_true hd
  obtain ⟨w, hw, -⟩ := (hall i e he 0 [1] ha 1 hk).1 1 42 (by decide) hl hreg
  rw [hw] at hlen
  exact hne hlen.symm

/-- The registered session is sent no DeadBinder in one run, and two in another. -/
theorem deaths_not_notified :
    (Run server (history server {} unreferencedScenario) (final server {} unreferencedScenario) ∧
      (∀ e ∈ history server {} unreferencedScenario, FieldsFit e) ∧
      NotifiedTimes (history server {} unreferencedScenario) 4 0 ∧
      ¬ ∀ i e, (history server {} unreferencedScenario)[i]? = some e →
        NotifiedOnce ((history server {} unreferencedScenario).take i) e) ∧
    (Run server (history server {} twiceScenario) (final server {} twiceScenario) ∧
      (∀ e ∈ history server {} twiceScenario, FieldsFit e) ∧
      NotifiedTimes (history server {} twiceScenario) 6 2 ∧
      ¬ ∀ i e, (history server {} twiceScenario)[i]? = some e →
        NotifiedOnce ((history server {} twiceScenario).take i) e) := by
  have hnone : NotifiedTimes (history server {} unreferencedScenario) 4 0 := by decide +kernel
  have htwo : NotifiedTimes (history server {} twiceScenario) 6 2 := by decide +kernel
  exact ⟨⟨path_history server unreferencedScenario {}, by decide +kernel, hnone,
      not_notifiedOnce hnone (by decide)⟩,
    ⟨path_history server twiceScenario {}, by decide +kernel, htwo,
      not_notifiedOnce htwo (by decide)⟩⟩

end Binderd.Broker.Deaths
