import Binderd.Broker.Sessions
import Mathlib.Logic.Relation

/-! # What a step of the server can do

`Exports s st st'` says that `st'` arises from `st` by exports of objects of the session `s`, the
only thing `TranslateObjects` does to the state (`exports_of_translate`). `Effect` lists what
an action of the server can do, one constructor for each way through the code that the daemon
survives, with the state it leaves and what it writes; `step_effect` says that there is no other.
The invariants of the server are proved from `Effect`, never from the code. -/

namespace Binderd.Broker.Effects

open Binderd.Lib.Bytes Binderd.Lib.Tables Binderd.Lib.Runs
open Binderd.Wire.Streams Binderd.Wire.Messages Binderd.Wire.Transactions
open Binderd.Broker.State Binderd.Broker.Handles Binderd.Broker.Sessions

/-! ### Exports -/

/-- One object of `s` was exported. -/
def Export (s : SessionId) (st st' : ServerState) : Prop :=
  ∃ obj, st' = (exportObject st s obj).2

/-- Any number of objects of `s` were exported. -/
def Exports (s : SessionId) : ServerState → ServerState → Prop :=
  Relation.ReflTransGen (Export s)

theorem translateObject_exports {s : SessionId} {st st' : ServerState} {m m' : Mem} {p : ℕ}
    (h : translateObject s st m p = some (st', m')) : Exports s st st' := by
  unfold translateObject at h
  split at h
  · cases h
    exact .single ⟨_, rfl⟩
  · split at h <;> cases h <;> exact .refl
  · cases h; exact .refl
  · cases h; exact .refl
  · cases h; exact .refl
  · cases h

theorem translateLoop_exports (s : SessionId) (data : ℕ) :
    ∀ (n current : ℕ) (st : ServerState) (m : Mem),
      Exports s st (translateLoop s data n current st m).2.1
  | 0, _, _, _ => .refl
  | n + 1, current, st, m => by
    rw [translateLoop]
    split
    · exact .refl
    · next st' m' h =>
      exact (translateObject_exports h).trans (translateLoop_exports s data n _ st' m')

theorem translateObjects_eq_some {s : SessionId} {tr : TransactionData} {st : ServerState} {m : Mem}
    {r : Status × ServerState × Mem} : translateObjects s tr st m = some r ↔ ¬ tr.ListsNull ∧
      translateLoop s tr.data.start tr.numObjectOffsets tr.objects.start st m = r := by
  unfold translateObjects
  split_ifs with h <;> simp [h]

theorem translateObjects_eq_none {s : SessionId} {tr : TransactionData} {st : ServerState}
    {m : Mem} : translateObjects s tr st m = none ↔ tr.ListsNull := by
  unfold translateObjects
  split_ifs with h <;> simp [h]

theorem exports_of_translate {s : SessionId} {tr : TransactionData} {st st' : ServerState}
    {m m' : Mem} {status : Status} (h : translateObjects s tr st m = some (status, st', m')) :
    Exports s st st' := by
  have hexp := translateLoop_exports s tr.data.start tr.numObjectOffsets tr.objects.start st m
  rwa [(translateObjects_eq_some.mp h).2] at hexp

/-- What an export leaves alone. -/
structure ExportFrame (s : SessionId) (st st' : ServerState) : Prop where
  contextMgr : st'.registry.contextMgr = st.registry.contextMgr
  monitor : st'.registry.monitor = st.registry.monitor
  references : st'.registry.references = st.registry.references
  numSessions : st'.numSessions = st.numSessions
  other : ∀ t, t ≠ s → st'.sessions t = st.sessions t
  nextTransactionCookie : ∀ t,
    (st'.sessions t).nextTransactionCookie = (st.sessions t).nextTransactionCookie
  pendingTransactions : ∀ t,
    (st'.sessions t).pendingTransactions = (st.sessions t).pendingTransactions
  deathNotifications : ∀ t, (st'.sessions t).deathNotifications = (st.sessions t).deathNotifications
  terminated : ∀ t, (st'.sessions t).terminated = (st.sessions t).terminated

theorem exportObject_snd (st : ServerState) (s : SessionId) (obj : BinderObject) :
    (exportObject st s obj).2 =
      ({ st with registry := (newObjectHandle st.registry s).2 }).update s fun x =>
        { x with objects := insertNew x.objects (newObjectHandle st.registry s).1 obj } := rfl

theorem Exports.frame {s : SessionId} {st st' : ServerState} (h : Exports s st st') :
    ExportFrame s st st' := by
  induction h with
  | refl => constructor <;> intros <;> rfl
  | tail _ he ih =>
    obtain ⟨obj, rfl⟩ := he
    rw [exportObject_snd]
    refine ⟨ih.contextMgr, ih.monitor, ih.references, ih.numSessions, fun t ht => ?_, fun t => ?_,
      fun t => ?_, fun t => ?_, fun t => ?_⟩
    · rw [ServerState.update_sessions_of_ne _ _ ht]
      exact ih.other t ht
    · rw [ServerState.update_field _ _ _ _ (·.nextTransactionCookie) rfl]
      exact ih.nextTransactionCookie t
    · rw [ServerState.update_field _ _ _ _ (·.pendingTransactions) rfl]
      exact ih.pendingTransactions t
    · rw [ServerState.update_field _ _ _ _ (·.deathNotifications) rfl]
      exact ih.deathNotifications t
    · rw [ServerState.update_field _ _ _ _ (·.terminated) rfl]
      exact ih.terminated t

theorem ExportFrame.live {s : SessionId} {st st' : ServerState} (h : ExportFrame s st st')
    (t : SessionId) : st'.Live t ↔ st.Live t := by
  unfold ServerState.Live
  rw [h.numSessions, h.terminated]

/-! ### Posting -/

/-- `PostTransaction` delivers: the object is found, the message decodes, and the target's own
`TranslateObjects` succeeds. -/
structure Delivers (st : ServerState) (t : SessionId) (record : TransactionRecord) (m : Mem)
    (obj : BinderObject) (st' : ServerState) (m' : Mem) : Prop where
  object : objectForHandle (st.sessions t) record.message.destination = some obj
  complete : Complete record.message.data
  translate : translateObjects t (newTransaction obj (decoded record.message.data))
    (drawCookie st t) m = some (.ok, st', m')

theorem objectForHandle_congr {s s' : ServerSession} (h : s.objects = s'.objects) (handle : ℕ) :
    objectForHandle s handle = objectForHandle s' handle := by
  unfold objectForHandle
  rw [h]

theorem drawCookie_objects (st : ServerState) (t u : SessionId) :
    ((drawCookie st t).sessions u).objects = (st.sessions u).objects :=
  ServerState.update_field _ _ _ _ (·.objects) rfl

theorem drawCookie_objectForHandle (st : ServerState) (t : SessionId) (handle : ℕ) :
    objectForHandle ((drawCookie st t).sessions t) handle =
      objectForHandle (st.sessions t) handle :=
  objectForHandle_congr (drawCookie_objects st t t) _

theorem postTransaction_of_delivers {st : ServerState} {t : SessionId} {record : TransactionRecord}
    {m : Mem} {obj : BinderObject} {st' : ServerState} {m' : Mem}
    (h : Delivers st t record m obj st' m') :
    postTransaction st t record m =
      some ⟨.ok .ok, addPending st' t (postCookie st t) (storedRecord record m'),
        writeMessage (addPending st' t (postCookie st t) (storedRecord record m')) t
          (newMessage record.message.destination (postCookie st t)
            (newTransaction obj (decoded record.message.data)) m')
          (.postTransaction (storedRecord record m'))⟩ := by
  unfold postTransaction
  simp only [drawCookie_objectForHandle, h.object, fromMessage_of_complete h.complete, h.translate]

/-- Without a delivery there is no write, and the status is not `OK`. -/
theorem postTransaction_of_not_delivers {st : ServerState} {t : SessionId}
    {record : TransactionRecord} {m : Mem} {posted : Posted}
    (h : ∀ obj st' m', ¬ Delivers st t record m obj st' m')
    (hp : postTransaction st t record m = some posted) :
    Exports t (drawCookie st t) posted.state ∧ posted.writes = [] ∧ posted.status ≠ .ok := by
  unfold postTransaction at hp
  simp only [drawCookie_objectForHandle] at hp
  cases ho : objectForHandle (st.sessions t) record.message.destination with
  | none =>
    rw [ho] at hp
    cases hp
    exact ⟨.refl, rfl, by simp [Posted.status]⟩
  | some obj =>
    simp only [ho] at hp
    by_cases hc : Complete record.message.data
    · simp only [fromMessage_of_complete hc] at hp
      cases htr : translateObjects t (newTransaction obj (decoded record.message.data))
        (drawCookie st t) m with
      | none =>
        rw [htr] at hp
        cases hp
      | some r =>
        obtain ⟨status, st', m'⟩ := r
        have hexp := exports_of_translate htr
        have hne : status ≠ .ok := by
          rintro rfl
          exact h obj st' m' ⟨ho, hc, htr⟩
        rw [htr] at hp
        cases status <;> first | exact absurd rfl hne | (cases hp; exact ⟨hexp, rfl, hne⟩)
    · simp only [fromMessage_of_not_complete hc] at hp
      cases hp
      exact ⟨.refl, rfl, by simp [Posted.status, caught]⟩

/-! ### Termination -/

/-- What `RemoveHandle` leaves alone. -/
structure RemovalFrame (st st' : ServerState) : Prop where
  sessions : st'.sessions = st.sessions
  numSessions : st'.numSessions = st.numSessions
  contextMgr : st'.registry.contextMgr = st.registry.contextMgr
  monitor : st'.registry.monitor = st.registry.monitor
  next : st'.registry.nextObjectHandle = st.registry.nextObjectHandle

theorem removeHandle_unknown {st : ServerState} {k : ℕ} (h : k ∉ st.registry.handles) :
    removeHandle st k = (st, []) := by
  unfold removeHandle
  rw [if_pos h]

theorem removeHandle_known {st : ServerState} {k : ℕ} (h : k ∈ st.registry.handles) :
    ∃ refs, (removeHandle st k).1 = { st with registry := { st.registry with
      references := refs, handles := st.registry.handles.erase k } } := by
  unfold removeHandle
  rw [if_neg (not_not.mpr h)]
  split
  · exact ⟨st.registry.references, rfl⟩
  · exact ⟨st.registry.references.erase k, rfl⟩

theorem removeHandle_frame (st : ServerState) (k : ℕ) : RemovalFrame st (removeHandle st k).1 := by
  by_cases h : k ∈ st.registry.handles
  · obtain ⟨refs, hr⟩ := removeHandle_known h
    rw [hr]
    exact ⟨rfl, rfl, rfl, rfl, rfl⟩
  · rw [removeHandle_unknown h]
    exact ⟨rfl, rfl, rfl, rfl, rfl⟩

theorem removeHandles_frame : ∀ (order : List ℕ) (st : ServerState),
    RemovalFrame st (removeHandles st order).1
  | [], _ => ⟨rfl, rfl, rfl, rfl, rfl⟩
  | k :: order, st => by
    have h1 := removeHandle_frame st k
    have h2 := removeHandles_frame order (removeHandle st k).1
    exact ⟨h2.sessions.trans h1.sessions, h2.numSessions.trans h1.numSessions,
      h2.contextMgr.trans h1.contextMgr, h2.monitor.trans h1.monitor, h2.next.trans h1.next⟩

theorem removeHandle_lookup (st : ServerState) (k k' : ℕ) :
    (removeHandle st k).1.registry.handles.lookup k' =
      if k' = k then none else st.registry.handles.lookup k' := by
  by_cases h : k ∈ st.registry.handles
  · obtain ⟨refs, hr⟩ := removeHandle_known h
    rw [hr]
    split_ifs with hk
    · rw [hk]
      exact AList.lookup_erase k _
    · exact AList.lookup_erase_ne hk
  · rw [removeHandle_unknown h]
    split_ifs with hk
    · rw [hk, AList.lookup_eq_none]
      exact h
    · rfl

theorem removeHandles_lookup : ∀ (order : List ℕ) (st : ServerState) (k : ℕ),
    (removeHandles st order).1.registry.handles.lookup k =
      if k ∈ order then none else st.registry.handles.lookup k
  | [], _, _ => by simp [removeHandles]
  | h :: order, st, k => by
    have ih := removeHandles_lookup order (removeHandle st h).1 k
    rw [removeHandle_lookup] at ih
    rw [removeHandles]
    simp only [ih, List.mem_cons]
    split_ifs <;> simp_all

theorem terminate_sessions (st : ServerState) (s : SessionId) (order : List ℕ) :
    (terminate st s order).1.sessions =
      Function.update st.sessions s { st.sessions s with terminated := true } := by
  have h := (removeHandles_frame order st).sessions
  simp only [terminate, ServerState.update, h]

theorem terminate_live (st : ServerState) (s t : SessionId) (order : List ℕ) :
    (terminate st s order).1.Live t ↔ st.Live t ∧ t ≠ s := by
  have hn : (terminate st s order).1.numSessions = st.numSessions :=
    (removeHandles_frame order st).numSessions
  unfold ServerState.Live
  rw [hn, terminate_sessions]
  by_cases h : t = s
  · subst h
    simp
  · simp [h]

theorem terminate_registry (st : ServerState) (s : SessionId) (order : List ℕ) :
    (terminate st s order).1.registry.handles = (removeHandles st order).1.registry.handles ∧
    (terminate st s order).1.registry.references = (removeHandles st order).1.registry.references ∧
    (terminate st s order).1.registry.nextObjectHandle = st.registry.nextObjectHandle ∧
    (terminate st s order).1.registry.contextMgr =
      (if st.registry.contextMgr = some s then none else st.registry.contextMgr) ∧
    (terminate st s order).1.registry.monitor =
      (if st.registry.monitor = some s then none else st.registry.monitor) := by
  obtain ⟨-, -, hc, hm, hn⟩ := removeHandles_frame order st
  simp only [terminate, ServerState.update_registry]
  rw [← hc, ← hm, ← hn]
  split_ifs <;> simp_all

/-! ### The effects -/

/-- A delivery: the session `s` processes the Transaction `msg`, and `PostTransaction` of the target
delivers it. `st₁` and `m₁` are what the caller's `TranslateObjects` leaves, `st₂` and `m₂` what the
target's does. -/
structure Delivery (st : ServerState) (s : SessionId) (msg : Message) (beyond : List UInt8) where
  status₁ : Status
  st₁ : ServerState
  m₁ : Mem
  target : SessionId
  obj : BinderObject
  st₂ : ServerState
  m₂ : Mem
  live : st.Live s
  type : msg.type = .transaction
  complete : Complete msg.data
  translate :
    translateObjects s (decoded msg.data) st (memoryOf msg beyond) = some (status₁, st₁, m₁)
  find : findSessionByHandle st₁.registry msg.destination = some target
  delivers : Delivers st₁ target ⟨s, msg.cookie, inMemory msg m₁⟩ m₁ obj st₂ m₂

namespace Delivery

variable {st : ServerState} {s : SessionId} {msg : Message} {beyond : List UInt8}

/-- The record that is kept of the transaction. -/
def record (d : Delivery st s msg beyond) : TransactionRecord :=
  storedRecord ⟨s, msg.cookie, inMemory msg d.m₁⟩ d.m₂

/-- The cookie the transaction is delivered under. -/
def cookie (d : Delivery st s msg beyond) : ℕ := postCookie d.st₁ d.target

/-- The state after the delivery. -/
def state (d : Delivery st s msg beyond) : ServerState :=
  addPending d.st₂ d.target d.cookie d.record

/-- The transaction that is delivered. -/
def transaction (d : Delivery st s msg beyond) : TransactionData :=
  newTransaction d.obj (decoded (inMemory msg d.m₁).data)

/-- The message that is delivered. -/
def message (d : Delivery st s msg beyond) : Message :=
  newMessage msg.destination d.cookie d.transaction d.m₂

/-- What is written: the Transaction to the target and then the Status to the caller. -/
def writes (d : Delivery st s msg beyond) : List Write :=
  writeMessage d.state d.target d.message (.postTransaction d.record) ++
    sendStatus d.state s msg .ok

theorem caller_exports (d : Delivery st s msg beyond) : Exports s st d.st₁ :=
  exports_of_translate d.translate

theorem target_exports (d : Delivery st s msg beyond) :
    Exports d.target (drawCookie d.st₁ d.target) d.st₂ :=
  exports_of_translate d.delivers.translate

end Delivery

/-- **What an action can do to the state, and what it writes.** -/
inductive Effect (st : ServerState) : Action → ServerState → List Write → Prop
  /-- A connection is accepted. -/
  | connected : Effect st .accept { st with
      sessions := Function.update st.sessions st.numSessions {}
      numSessions := st.numSessions + 1 } []
  /-- A handler throws, or `OnReply` finds no record. -/
  | ignored {s msg beyond} : st.Live s → msg.type ≠ .transaction →
      Effect st (.process s msg beyond) st []
  /-- The answer is a status and nothing else happens. -/
  | answered {s msg beyond status} : st.Live s → msg.type ≠ .transaction →
      msg.type ≠ .requestDeathNotification → msg.type ≠ .clearDeathNotification →
      Effect st (.process s msg beyond) st (sendStatus st s msg status)
  /-- A transaction is answered without a look at a target. -/
  | rejected {s msg beyond st' status} : st.Live s → msg.type = .transaction → Exports s st st' →
      status ≠ .ok → Effect st (.process s msg beyond) st' (sendStatus st' s msg status)
  /-- `PostTransaction` of the target does not deliver. -/
  | refused {s msg beyond st₁ t st₂ status} : st.Live s → msg.type = .transaction →
      Exports s st st₁ → findSessionByHandle st₁.registry msg.destination = some t →
      Exports t (drawCookie st₁ t) st₂ → status ≠ .ok →
      Effect st (.process s msg beyond) st₂ (sendStatus st₂ s msg status)
  /-- `PostTransaction` of the target delivers. -/
  | delivered {s msg beyond} (d : Delivery st s msg beyond) :
      Effect st (.process s msg beyond) d.state d.writes
  /-- `OnReply` forwards the message. -/
  | forwarded {s msg beyond record} : st.Live s →
      msg.type = .status ∨ msg.type = .transactionReply →
      (st.sessions s).pendingTransactions.lookup msg.cookie = some record →
      Effect st (.process s msg beyond) (removePending st s msg.cookie)
        (writeMessage (removePending st s msg.cookie) record.caller
          { msg with cookie := record.replyCookie } (.onReply record))
  /-- The role of the context manager is taken. -/
  | contextMgrTaken {s msg beyond} : st.Live s → msg.type = .setContextMgr →
      st.registry.contextMgr ≠ none → Effect st (.process s msg beyond) st
        (forwardToMonitor st msg ++ sendStatus st s msg .alreadyExists)
  /-- The session becomes the context manager. -/
  | contextMgrSet {s msg beyond st'} : st.Live s → msg.type = .setContextMgr →
      st.registry.contextMgr = none →
      st' = { st with registry := { st.registry with contextMgr := some s } } →
      Effect st (.process s msg beyond) st' (forwardToMonitor st msg ++ sendStatus st' s msg .ok)
  /-- The session becomes the monitor. -/
  | monitorSet {s msg beyond st'} : st.Live s → msg.type = .setMonitor →
      st.registry.monitor = none →
      st' = { st with registry := { st.registry with monitor := some s } } →
      Effect st (.process s msg beyond) st' (sendStatus st' s msg .ok)
  /-- A reference is taken or given back, or the attempt fails. -/
  | reference {s msg beyond status r st'} : st.Live s → 8 ≤ msg.data.length →
      (msg.type = .acquire ∧
          addReferenceForHandle st.registry s (byteOf msg.data 0) = (status, r) ∨
        msg.type = .release ∧
          removeReferenceForHandle st.registry s (byteOf msg.data 0) = (status, r)) →
      st' = { st with registry := r } →
      Effect st (.process s msg beyond) st' (sendStatus st' s msg status)
  /-- A death notification is requested or cleared, or the attempt fails. -/
  | death {s msg beyond status notifications st'} : st.Live s → 16 ≤ msg.data.length →
      msg.type = .requestDeathNotification ∨ msg.type = .clearDeathNotification →
      deathNotification msg.type (st.sessions s).deathNotifications (byteOf msg.data 0)
        (byteOf msg.data 8) = (status, notifications) →
      st' = st.update s (fun x => { x with deathNotifications := notifications }) →
      Effect st (.process s msg beyond) st' (sendStatus st' s msg status)
  /-- A session terminates. -/
  | terminated {s order r} : st.Live s → order.Perm (st.sessions s).objects.keys →
      r = Sessions.terminate st s order → Effect st (.terminate s order) r.1 r.2

/-- **How `OnTransaction` can return**: the message cannot be decoded, no session has the handle, or
the transaction is posted. -/
theorem onTransaction_cases {st : ServerState} {s : SessionId} {msg : Message}
    {beyond : List UInt8} {r : ServerState × List Write}
    (h : onTransaction st s msg beyond = some r) :
    ¬ Complete msg.data ∧ r = (st, sendStatus st s msg .badValue) ∨
    Complete msg.data ∧ ∃ status₁ st₁ m₁,
      translateObjects s (decoded msg.data) st (memoryOf msg beyond) = some (status₁, st₁, m₁) ∧
      (findSessionByHandle st₁.registry msg.destination = none ∧
          r = (st₁, sendStatus st₁ s msg .nameNotFound) ∨
        ∃ t posted, findSessionByHandle st₁.registry msg.destination = some t ∧
          postTransaction st₁ t ⟨s, msg.cookie, inMemory msg m₁⟩ m₁ = some posted ∧
          r = (posted.state, posted.writes ++ sendStatus posted.state s msg posted.status)) := by
  unfold onTransaction at h
  by_cases hc : Complete msg.data
  · simp only [fromMessage_of_complete hc] at h
    cases htr : translateObjects s (decoded msg.data) st (memoryOf msg beyond) with
    | none =>
      rw [htr] at h
      cases h
    | some r₁ =>
      obtain ⟨status₁, st₁, m₁⟩ := r₁
      simp only [htr] at h
      refine .inr ⟨hc, status₁, st₁, m₁, rfl, ?_⟩
      cases hf : findSessionByHandle st₁.registry msg.destination with
      | none =>
        rw [hf] at h
        exact .inl ⟨rfl, (Option.some.inj h).symm⟩
      | some t =>
        simp only [hf] at h
        obtain ⟨posted, hp, rfl⟩ := Option.map_eq_some_iff.mp h
        exact .inr ⟨t, posted, rfl, hp, rfl⟩
  · simp only [fromMessage_of_not_complete hc] at h
    exact .inl ⟨hc, (Option.some.inj h).symm⟩

theorem onTransaction_effect {st : ServerState} {s : SessionId} {msg : Message}
    {beyond : List UInt8} {r : ServerState × List Write} (hs : st.Live s)
    (ht : msg.type = .transaction) (h : onTransaction st s msg beyond = some r) :
    Effect st (.process s msg beyond) r.1 r.2 := by
  rcases onTransaction_cases h with ⟨-, rfl⟩ | ⟨hc, status₁, st₁, m₁, htr, hrest⟩
  · exact .rejected hs ht .refl (by simp)
  have hexp := exports_of_translate htr
  rcases hrest with ⟨-, rfl⟩ | ⟨t, posted, hf, hp, rfl⟩
  · exact .rejected hs ht hexp (by simp)
  by_cases hd : ∃ obj st₂ m₂, Delivers st₁ t ⟨s, msg.cookie, inMemory msg m₁⟩ m₁ obj st₂ m₂
  · obtain ⟨obj, st₂, m₂, hd⟩ := hd
    rw [postTransaction_of_delivers hd] at hp
    cases hp
    exact .delivered ⟨status₁, st₁, m₁, t, obj, st₂, m₂, hs, ht, hc, htr, hf, hd⟩
  · push Not at hd
    obtain ⟨h1, h2, h3⟩ := postTransaction_of_not_delivers hd hp
    rw [h2, List.nil_append]
    exact .refused hs ht hexp hf h1 h3

theorem onReply_effect {st : ServerState} {s : SessionId} {msg : Message} (hs : st.Live s)
    (ht : msg.type = .status ∨ msg.type = .transactionReply) (beyond : List UInt8) :
    Effect st (.process s msg beyond) (onReply st s msg).1 (onReply st s msg).2 := by
  unfold onReply
  cases h : (st.sessions s).pendingTransactions.lookup msg.cookie with
  | none => exact .ignored hs (by rcases ht with ht | ht <;> simp [ht])
  | some record => exact .forwarded hs ht h

theorem onSetContextManager_effect {st : ServerState} {s : SessionId} {msg : Message}
    (hs : st.Live s) (ht : msg.type = .setContextMgr) (beyond : List UInt8) :
    Effect st (.process s msg beyond) (onSetContextManager st s msg).1
      (onSetContextManager st s msg).2 := by
  unfold onSetContextManager
  cases h : st.registry.contextMgr with
  | some x => exact .contextMgrTaken hs ht (by simp [h])
  | none => exact .contextMgrSet hs ht h rfl

theorem onSetMonitor_effect {st : ServerState} {s : SessionId} {msg : Message}
    (hs : st.Live s) (ht : msg.type = .setMonitor) (beyond : List UInt8) :
    Effect st (.process s msg beyond) (onSetMonitor st s msg).1 (onSetMonitor st s msg).2 := by
  unfold onSetMonitor
  cases h : st.registry.monitor with
  | some x => exact .answered hs (by simp [ht]) (by simp [ht]) (by simp [ht])
  | none => exact .monitorSet hs ht h rfl

theorem readValue_byteOf {l : List UInt8} {p w n : ℕ} {r : BinaryReader}
    (h : (BinaryReader.mk l p true).readValue w = .ok (n, r)) :
    p + w ≤ l.length ∧ n = byteOf l p ∧ r = ⟨l, p + w, true⟩ :=
  BinaryReader.readValue_ok h

theorem onReference_effect {st : ServerState} {s : SessionId} {msg : Message}
    {r : ServerState × List Write} (hs : st.Live s) (ht : msg.type = .acquire ∨ msg.type = .release)
    (h : onReference st s msg = .ok r) (beyond : List UInt8) :
    Effect st (.process s msg beyond) r.1 r.2 := by
  simp only [onReference, BinaryReader.readUint64, bind, Except.bind] at h
  cases hv : (BinaryReader.mk msg.data 0 true).readValue 8 with
  | error e =>
    rw [hv] at h
    cases h
  | ok v =>
    obtain ⟨n, r'⟩ := v
    obtain ⟨hlen, rfl, -⟩ := readValue_byteOf hv
    simp only [hv] at h
    rcases ht with ht | ht
    · simp only [ht] at h
      cases h
      exact .reference hs (by omega) (.inl ⟨ht, rfl⟩) rfl
    · simp only [ht] at h
      cases h
      exact .reference hs (by omega) (.inr ⟨ht, rfl⟩) rfl

theorem onDeathNotification_effect {st : ServerState} {s : SessionId} {msg : Message}
    {r : ServerState × List Write} (hs : st.Live s)
    (ht : msg.type = .requestDeathNotification ∨ msg.type = .clearDeathNotification)
    (h : onDeathNotification st s msg = .ok r) (beyond : List UInt8) :
    Effect st (.process s msg beyond) r.1 r.2 := by
  simp only [onDeathNotification, BinaryReader.readUint64, bind, Except.bind] at h
  cases hv : (BinaryReader.mk msg.data 0 true).readValue 8 with
  | error e =>
    rw [hv] at h
    cases h
  | ok v =>
    obtain ⟨n, r'⟩ := v
    obtain ⟨-, rfl, rfl⟩ := readValue_byteOf hv
    simp only [hv] at h
    cases hv' : (BinaryReader.mk msg.data (0 + 8) true).readValue 8 with
    | error e =>
      rw [hv'] at h
      cases h
    | ok v =>
      obtain ⟨n', r''⟩ := v
      obtain ⟨hlen, rfl, -⟩ := readValue_byteOf hv'
      simp only [hv'] at h
      cases h
      exact .death hs (by omega) ht rfl rfl

theorem mapError_of_ok {α ε ε' : Type} {x : Except ε α} {a : α} (h : x = .ok a) (f : ε → ε') :
    x.mapError f = .ok a := by
  rw [h]
  rfl

theorem ok_of_mapError {α ε ε' : Type} {x : Except ε α} {f : ε → ε'} {a : α}
    (h : x.mapError f = .ok a) : x = .ok a := by
  cases x with
  | error e => cases h
  | ok b =>
    cases h
    rfl

/-- **There is no other effect.** -/
theorem step_effect {st st' : ServerState} {a : Action} {ws : List Write}
    (h : step st a = some (st', ws)) : Effect st a st' ws := by
  cases a with
  | accept =>
    cases h
    exact .connected
  | terminate s order =>
    simp only [step] at h
    split_ifs at h with hl
    exact .terminated (r := (st', ws)) hl.1 hl.2 (Option.some.inj h).symm
  | process s msg beyond =>
    simp only [step] at h
    split_ifs at h with hl
    have hp : ∀ r, processMessage st s msg beyond = .ok r →
        Effect st (.process s msg beyond) r.1 r.2 := by
      intro r hr
      unfold processMessage at hr
      split at hr
      · next ht => cases hr; exact onSetContextManager_effect hl ht beyond
      · next ht => cases hr; exact onSetMonitor_effect hl ht beyond
      · next ht =>
        split at hr
        · cases hr
        · next hr' =>
          cases hr
          exact onTransaction_effect hl ht hr'
      · next ht => cases hr; exact onReply_effect hl (.inl ht) beyond
      · next ht => cases hr; exact onReply_effect hl (.inr ht) beyond
      · next ht => exact onReference_effect hl (.inl ht) (ok_of_mapError hr) beyond
      · next ht => exact onReference_effect hl (.inr ht) (ok_of_mapError hr) beyond
      · next ht => exact onDeathNotification_effect hl (.inl ht) (ok_of_mapError hr) beyond
      · next ht => exact onDeathNotification_effect hl (.inr ht) (ok_of_mapError hr) beyond
      · cases hr; exact .answered hl (by assumption) (by assumption) (by assumption)
    cases hr : processMessage st s msg beyond with
    | ok r =>
      rw [hr] at h
      obtain rfl := Option.some.inj h
      exact hp _ hr
    | error f =>
      rw [hr] at h
      cases f with
      | crashed => cases h
      | thrown e =>
        cases h
        refine .ignored hl fun ht => ?_
        -- no exception leaves `OnTransaction`
        simp only [processMessage, ht] at hr
        split at hr <;> cases hr

theorem step_process {e : ServerStep} {s : SessionId} {msg : Message} {beyond : List UInt8}
    {r : ServerState × List Write} (hv : e.Valid server) (ha : e.action = .process s msg beyond)
    (hp : processMessage e.before s msg beyond = .ok r) : e.after = r.1 ∧ e.emitted = r.2 := by
  have h : step e.before e.action = some (e.after, e.emitted) := hv
  rw [ha] at h
  simp only [step, hp] at h
  split_ifs at h
  cases h
  exact ⟨rfl, rfl⟩

/-- A step that processes a Transaction does what `OnTransaction` does. -/
theorem onTransaction_of_step {e : ServerStep} {s : SessionId} {msg : Message}
    {beyond : List UInt8} (hv : e.Valid server) (ha : e.action = .process s msg beyond)
    (ht : msg.type = .transaction) :
    e.before.Live s ∧ onTransaction e.before s msg beyond = some (e.after, e.emitted) := by
  have h : step e.before e.action = some (e.after, e.emitted) := hv
  rw [ha] at h
  simp only [step, processMessage, ht] at h
  split_ifs at h with hl
  cases hr : onTransaction e.before s msg beyond with
  | none =>
    rw [hr] at h
    cases h
  | some r =>
    rw [hr] at h
    exact ⟨hl, h⟩

/-- **What a Transaction can do**: it is delivered, or answered with an error after the exports of
the caller and those of a target that refuses it. -/
theorem Effect.transaction {st st' : ServerState} {s : SessionId} {msg : Message}
    {beyond : List UInt8} {ws : List Write} (h : Effect st (.process s msg beyond) st' ws)
    (ht : msg.type = .transaction) :
    (∃ d : Delivery st s msg beyond, st' = d.state ∧ ws = d.writes) ∨
      ∃ status ≠ Status.ok, ws = sendStatus st' s msg status ∧
        (Exports s st st' ∨ ∃ st₁ t, Exports s st st₁ ∧ Exports t (drawCookie st₁ t) st') := by
  cases h with
  | ignored _ hn => exact absurd ht hn
  | answered _ hn _ _ => exact absurd ht hn
  | rejected _ _ he hs => exact .inr ⟨_, hs, rfl, .inl he⟩
  | refused _ _ he _ he' hs => exact .inr ⟨_, hs, rfl, .inr ⟨_, _, he, he'⟩⟩
  | delivered d => exact .inl ⟨d, rfl, rfl⟩
  | forwarded _ hm _ => rw [ht] at hm; rcases hm with hm | hm <;> cases hm
  | contextMgrTaken _ hm _ => rw [ht] at hm; cases hm
  | contextMgrSet _ hm _ _ => rw [ht] at hm; cases hm
  | monitorSet _ hm _ _ => rw [ht] at hm; cases hm
  | reference _ _ hm _ => rcases hm with ⟨hm, -⟩ | ⟨hm, -⟩ <;> rw [ht] at hm <;> cases hm
  | death _ _ hm _ _ => rw [ht] at hm; rcases hm with hm | hm <;> cases hm

/-! ### What an action does to one session -/

theorem ExportFrame.session {s : SessionId} {st st' : ServerState} (h : ExportFrame s st st')
    (t : SessionId) :
    st'.sessions t = { st.sessions t with objects := (st'.sessions t).objects } :=
  ServerSession.ext (h.nextTransactionCookie t) (h.pendingTransactions t) rfl
    (h.deathNotifications t) (h.terminated t)

/-- **What an action can do to the session `t`**, the exports apart. -/
inductive SessionStep (st : ServerState) (t : SessionId) :
    Action → List Write → ServerSession → Prop
  /-- The session is new. -/
  | fresh {ws} : t = st.numSessions → SessionStep st t .accept ws {}
  | kept {a ws} (objects : Table ℕ BinderObject) :
      SessionStep st t a ws { st.sessions t with objects := objects }
  /-- A transaction is posted to it and not delivered. -/
  | posted {a ws} (objects : Table ℕ BinderObject) : SessionStep st t a ws
      { st.sessions t with
        objects := objects
        nextTransactionCookie := (st.sessions t).nextTransactionCookie + 1 }
  | delivered {s msg beyond} (objects : Table ℕ BinderObject) (d : Delivery st s msg beyond) :
      t = d.target → SessionStep st t (.process s msg beyond) d.writes
        { st.sessions t with
          objects := objects
          nextTransactionCookie := (st.sessions t).nextTransactionCookie + 1
          pendingTransactions := insertNew (st.sessions t).pendingTransactions d.cookie d.record }
  /-- It answers a transaction. -/
  | answered {msg beyond ws record} :
      (st.sessions t).pendingTransactions.lookup msg.cookie = some record →
      ws = writeMessage (removePending st t msg.cookie) record.caller
        { msg with cookie := record.replyCookie } (.onReply record) →
      SessionStep st t (.process t msg beyond) ws
        { st.sessions t with
          pendingTransactions := (st.sessions t).pendingTransactions.erase msg.cookie }
  /-- It requests or clears a death notification, or attempts to. -/
  | notified {msg beyond ws status notifications} : 16 ≤ msg.data.length →
      msg.type = .requestDeathNotification ∨ msg.type = .clearDeathNotification →
      deathNotification msg.type (st.sessions t).deathNotifications (byteOf msg.data 0)
        (byteOf msg.data 8) = (status, notifications) →
      SessionStep st t (.process t msg beyond) ws
        { st.sessions t with deathNotifications := notifications }
  | terminated {order ws} :
      SessionStep st t (.terminate t order) ws { st.sessions t with terminated := true }

theorem SessionStep.of_eq {st : ServerState} {t : SessionId} {a : Action} {ws : List Write}
    {x : ServerSession} (h : x = st.sessions t) : SessionStep st t a ws x := by
  subst h
  exact .kept (st.sessions t).objects

theorem post_session {st st₁ st₂ : ServerState} {s t : SessionId} (h1 : Exports s st st₁)
    (h2 : Exports t (drawCookie st₁ t) st₂) (u : SessionId) :
    st₂.sessions u = { st.sessions u with
      objects := (st₂.sessions u).objects
      nextTransactionCookie :=
        (st.sessions u).nextTransactionCookie + if u = t then 1 else 0 } := by
  have hf := (Exports.frame h1).session u
  rw [(Exports.frame h2).session u]
  by_cases hu : u = t
  · subst hu
    rw [drawCookie, ServerState.update_sessions_self, hf, if_pos rfl]
  · rw [drawCookie, ServerState.update_sessions_of_ne _ _ hu, hf, if_neg hu, Nat.add_zero]

theorem Delivery.target_session {st : ServerState} {s : SessionId} {msg : Message}
    {beyond : List UInt8} (d : Delivery st s msg beyond) :
    d.state.sessions d.target = { st.sessions d.target with
      objects := (d.state.sessions d.target).objects
      nextTransactionCookie := (st.sessions d.target).nextTransactionCookie + 1
      pendingTransactions :=
        insertNew (st.sessions d.target).pendingTransactions d.cookie d.record } := by
  have h := post_session d.caller_exports d.target_exports d.target
  rw [if_pos rfl] at h
  unfold Delivery.state addPending
  rw [ServerState.update_sessions_self, h]

theorem Delivery.other_session {st : ServerState} {s : SessionId} {msg : Message}
    {beyond : List UInt8} (d : Delivery st s msg beyond) {u : SessionId} (hu : u ≠ d.target) :
    d.state.sessions u = { st.sessions u with objects := (d.state.sessions u).objects } := by
  have h := post_session d.caller_exports d.target_exports u
  rw [if_neg hu, Nat.add_zero] at h
  unfold Delivery.state addPending
  rw [ServerState.update_sessions_of_ne _ _ hu]
  exact h

theorem Effect.session {st st' : ServerState} {a : Action} {ws : List Write}
    (h : Effect st a st' ws) (t : SessionId) : SessionStep st t a ws (st'.sessions t) := by
  cases h with
  | connected =>
    by_cases ht : t = st.numSessions
    · subst ht
      simp only [Function.update_self]
      exact .fresh rfl
    · exact .of_eq (by simp only [Function.update_of_ne ht])
  | ignored _ _ => exact .of_eq rfl
  | answered _ _ _ _ => exact .of_eq rfl
  | rejected _ _ he _ =>
    rw [(Exports.frame he).session t]
    exact .kept _
  | @refused s msg beyond st₁ u _ _ _ _ he _ he' _ =>
    rw [post_session he he' t]
    by_cases ht : t = u
    · rw [if_pos ht]
      exact .posted _
    · rw [if_neg ht]
      exact .kept _
  | delivered d =>
    by_cases ht : t = d.target
    · rw [ht, d.target_session, ← ht]
      exact .delivered _ d ht
    · rw [d.other_session ht]
      exact .kept _
  | @forwarded s msg _ _ _ _ hp =>
    by_cases ht : t = s
    · subst ht
      rw [removePending, ServerState.update_sessions_self]
      exact .answered hp rfl
    · exact .of_eq (ServerState.update_sessions_of_ne _ _ ht)
  | contextMgrTaken _ _ _ => exact .of_eq rfl
  | contextMgrSet _ _ _ h' => exact .of_eq (by rw [h'])
  | monitorSet _ _ _ h' => exact .of_eq (by rw [h'])
  | reference _ _ _ h' => exact .of_eq (by rw [h'])
  | @death s _ _ _ _ _ _ hlen hm hd h' =>
    subst h'
    by_cases ht : t = s
    · subst ht
      rw [ServerState.update_sessions_self]
      exact .notified hlen hm hd
    · exact .of_eq (ServerState.update_sessions_of_ne _ _ ht)
  | @terminated s _ _ _ _ hr =>
    subst hr
    rw [terminate_sessions]
    by_cases ht : t = s
    · subst ht
      rw [Function.update_self]
      exact .terminated
    · exact .of_eq (Function.update_of_ne ht _ _)

theorem Effect.numSessions {st st' : ServerState} {a : Action} {ws : List Write}
    (h : Effect st a st' ws) :
    st'.numSessions = st.numSessions + if a = .accept then 1 else 0 := by
  cases h with
  | connected => rfl
  | rejected _ _ he _ => exact (Exports.frame he).numSessions
  | refused _ _ he _ he' _ =>
    exact (Exports.frame he').numSessions.trans (Exports.frame he).numSessions
  | delivered d =>
    exact (Exports.frame d.target_exports).numSessions.trans
      (Exports.frame d.caller_exports).numSessions
  | contextMgrSet _ _ _ h' => rw [h']; rfl
  | monitorSet _ _ _ h' => rw [h']; rfl
  | reference _ _ _ h' => rw [h']; rfl
  | death _ _ _ _ h' => rw [h']; rfl
  | terminated _ _ hr => rw [hr]; exact (removeHandles_frame _ _).numSessions
  | _ => rfl

theorem Effect.numSessions_le {st st' : ServerState} {a : Action} {ws : List Write}
    (h : Effect st a st' ws) : st.numSessions ≤ st'.numSessions := by
  rw [h.numSessions]
  exact Nat.le_add_right _ _

theorem Effect.live_of_live {st st' : ServerState} {a : Action} {ws : List Write}
    (h : Effect st a st' ws) {t : SessionId} (ht : t < st.numSessions) (hl : st'.Live t) :
    st.Live t := by
  refine ⟨ht, ?_⟩
  have hs := h.session t
  generalize hx : st'.sessions t = x at hs
  have hterm := hl.2
  rw [hx] at hterm
  cases hs with
  | fresh he => exact absurd he ht.ne
  | terminated => cases hterm
  | _ => exact hterm

theorem Effect.terminated_cases {st st' : ServerState} {a : Action} {ws : List Write}
    (h : Effect st a st' ws) {t : SessionId} (ht : t < st'.numSessions)
    (hd : (st'.sessions t).terminated = true) :
    t < st.numSessions ∧ ((st.sessions t).terminated = true ∨ ∃ order, a = .terminate t order) := by
  have hs := h.session t
  by_cases hne : t = st.numSessions
  · -- the session is new, and a new session has not terminated
    exfalso
    subst hne
    have ha : a = .accept := by
      by_contra ha
      rw [h.numSessions, if_neg ha, Nat.add_zero] at ht
      exact lt_irrefl _ ht
    subst ha
    cases h
    simp at hd
  · have hle : t ≤ st.numSessions := Nat.le_of_lt_succ (ht.trans_le (by
      rw [h.numSessions]
      split_ifs <;> simp))
    refine ⟨lt_of_le_of_ne hle hne, ?_⟩
    generalize st'.sessions t = x at hs hd
    cases hs with
    | fresh he => exact absurd he hne
    | terminated => exact .inr ⟨_, rfl⟩
    | _ => exact .inl hd

/-! ### What is written, by the function that writes it -/

theorem mem_writeMessage {st : ServerState} {s : SessionId} {msg : Message} {source : Source}
    {w : Write} : w ∈ writeMessage st s msg source ↔
      w = ⟨s, msg, source⟩ ∨ w ∈ forwardToMonitor st msg :=
  List.mem_cons

theorem mem_forwardToMonitor {st : ServerState} {msg : Message} {w : Write}
    (h : w ∈ forwardToMonitor st msg) :
    w.source = .forwardToMonitor ∧ w.message.type = .logEntry := by
  unfold forwardToMonitor at h
  split at h
  · cases h
  · rw [List.mem_singleton] at h
    subst h
    exact ⟨rfl, rfl⟩

/-- The message `SendStatus` writes. -/
def statusMessage (msg : Message) (status : Status) : Message :=
  { type := .status, cookie := msg.cookie, data := (BinaryWriter.writeInt32 {} status.toInt).bytes }

theorem statusMessage_mem (st : ServerState) (s : SessionId) (msg : Message) (status : Status) :
    ⟨s, statusMessage msg status, .sendStatus msg status⟩ ∈ sendStatus st s msg status :=
  mem_writeMessage.mpr (.inl rfl)

theorem mem_sendDeathNotification {st : ServerState} {s : SessionId} {k : ℕ} {w : Write}
    (h : w ∈ sendDeathNotification st s k) :
    (∃ id, (st.sessions s).deathNotifications.lookup k = some id ∧
      w = ⟨s, { type := .deadBinder, data := deadBinderData k id }, .sendDeathNotification k⟩) ∨
    (w.source = .forwardToMonitor ∧ w.message.type = .logEntry) := by
  unfold sendDeathNotification at h
  split at h
  · cases h
  · next id hid => exact (mem_writeMessage.mp h).imp (fun hw => ⟨id, hid, hw⟩) mem_forwardToMonitor

theorem mem_removeHandle {st : ServerState} {k : ℕ} {w : Write} (h : w ∈ (removeHandle st k).2) :
    (∃ s id, w = ⟨s, { type := .deadBinder, data := deadBinderData k id },
      .sendDeathNotification k⟩) ∨ (w.source = .forwardToMonitor ∧ w.message.type = .logEntry) := by
  unfold removeHandle at h
  split_ifs at h
  · split at h
    · cases h
    · obtain ⟨s, -, hw⟩ := List.mem_flatMap.mp h
      exact (mem_sendDeathNotification hw).imp (fun ⟨id, _, hw⟩ => ⟨s, id, hw⟩) id
  · cases h

theorem mem_removeHandles {w : Write} : ∀ {order : List ℕ} {st : ServerState},
    w ∈ (removeHandles st order).2 →
      (∃ k ∈ order, ∃ s id, w = ⟨s, { type := .deadBinder, data := deadBinderData k id },
        .sendDeathNotification k⟩) ∨ (w.source = .forwardToMonitor ∧ w.message.type = .logEntry)
  | [], _, h => by cases h
  | k :: order, st, h => by
    rcases List.mem_append.mp h with h | h
    · exact (mem_removeHandle h).imp (fun hw => ⟨k, List.mem_cons_self, hw⟩) id
    · exact (mem_removeHandles h).imp
        (fun ⟨k', hk, hw⟩ => ⟨k', List.mem_cons_of_mem _ hk, hw⟩) id

/-- **What an action can write**, with what it then does to the state. -/
inductive Written (st : ServerState) : Action → ServerState → List Write → Write → Prop
  | log {a st' ws w} : w.source = .forwardToMonitor → w.message.type = .logEntry →
      Written st a st' ws w
  | status {s msg beyond st' ws status} : st.Live s →
      Written st (.process s msg beyond) st' ws
        ⟨s, statusMessage msg status, .sendStatus msg status⟩
  | transaction {s msg beyond} (d : Delivery st s msg beyond) :
      Written st (.process s msg beyond) d.state d.writes
        ⟨d.target, d.message, .postTransaction d.record⟩
  | reply {s msg beyond ws record} : st.Live s →
      msg.type = .status ∨ msg.type = .transactionReply →
      (st.sessions s).pendingTransactions.lookup msg.cookie = some record →
      ws = writeMessage (removePending st s msg.cookie) record.caller
        { msg with cookie := record.replyCookie } (.onReply record) →
      Written st (.process s msg beyond) (removePending st s msg.cookie) ws
        ⟨record.caller, { msg with cookie := record.replyCookie }, .onReply record⟩
  | deadBinder {s order st' ws k t id} : st.Live s → k ∈ order →
      Written st (.terminate s order) st' ws
        ⟨t, { type := .deadBinder, data := deadBinderData k id }, .sendDeathNotification k⟩

theorem Effect.written {st st' : ServerState} {a : Action} {ws : List Write} {w : Write}
    (h : Effect st a st' ws) (hw : w ∈ ws) : Written st a st' ws w := by
  have hlog : ∀ {u msg}, w ∈ forwardToMonitor u msg → Written st a st' ws w := fun hm =>
    .log (mem_forwardToMonitor hm).1 (mem_forwardToMonitor hm).2
  have hstatus : ∀ {s msg beyond u status}, st.Live s → w ∈ sendStatus u s msg status →
      a = .process s msg beyond → Written st a st' ws w := by
    rintro s msg beyond u status hl hm rfl
    rcases mem_writeMessage.mp hm with rfl | hm
    · exact .status hl
    · exact hlog hm
  cases h with
  | connected => cases hw
  | ignored _ _ => cases hw
  | answered hl _ _ _ => exact hstatus hl hw rfl
  | rejected hl _ _ _ => exact hstatus hl hw rfl
  | refused hl _ _ _ _ _ => exact hstatus hl hw rfl
  | delivered d =>
    rcases List.mem_append.mp hw with hw | hw
    · rcases mem_writeMessage.mp hw with rfl | hw
      · exact .transaction d
      · exact hlog hw
    · exact hstatus d.live hw rfl
  | forwarded hl ht hp =>
    rcases mem_writeMessage.mp hw with rfl | hw
    · exact .reply hl ht hp rfl
    · exact hlog hw
  | contextMgrTaken hl _ _ =>
    exact (List.mem_append.mp hw).elim hlog fun hw => hstatus hl hw rfl
  | contextMgrSet hl _ _ _ =>
    exact (List.mem_append.mp hw).elim hlog fun hw => hstatus hl hw rfl
  | monitorSet hl _ _ _ => exact hstatus hl hw rfl
  | reference hl _ _ _ => exact hstatus hl hw rfl
  | death hl _ _ _ _ => exact hstatus hl hw rfl
  | terminated hl _ hr =>
    subst hr
    rcases mem_removeHandles hw with ⟨k, hk, t, id, rfl⟩ | ⟨h1, h2⟩
    · exact .deadBinder hl hk
    · exact .log h1 h2

end Binderd.Broker.Effects
