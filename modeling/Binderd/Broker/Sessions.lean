import Binderd.Broker.Handles
import Binderd.Lib.Runs

/-! # The sessions, and the server as a machine

`ProcessMessage` and its handlers, and `Terminate`. The data of a received message is a view into
the receive buffer, and the objects in it are rewritten there: a handler works on a memory that
starts with the message's data and goes on with whatever follows it in the daemon's memory
(`memoryOf`), so an object that lies outside the data reads and overwrites what is there. An object
that is listed although there are no data is looked for at a null pointer, and the daemon dies.

The machine `server` has three actions: a connection is accepted, a live session processes one
decoded message, a live session terminates. There is no step in which the daemon dies: nothing comes
after it. The iteration over an `unordered_map` in `Terminate`
may take its keys in any order, which the action chooses. -/

namespace Binderd.Broker.Sessions

open Binderd.Lib.Bytes Binderd.Lib.Tables Binderd.Lib.Runs
open Binderd.Wire.Streams Binderd.Wire.Messages Binderd.Wire.Transactions
open Binderd.Broker.State Binderd.Broker.Handles

/-- The memory a received message's data lies in; `beyond` is what follows the data. -/
def memoryOf (msg : Message) (beyond : List UInt8) : Mem := ofList (msg.data ++ beyond)

/-- The message, with its data as the memory now holds it. -/
def inMemory (msg : Message) (m : Mem) : Message := { msg with data := slice m 0 msg.data.length }

/-! ### Translating objects -/

/-- A fresh handle for an object of the session `self`: `NewObjectHandle`, and the insertion into
`objects_`. -/
def exportObject (st : ServerState) (self : SessionId) (obj : BinderObject) : ℕ × ServerState :=
  let (handle, registry) := newObjectHandle st.registry self
  (handle, ({ st with registry := registry }).update self fun s =>
    { s with objects := insertNew s.objects handle obj })

/-- The object at `p` becomes a handle. -/
def toHandle (m : Mem) (p handle : ℕ) : Mem :=
  let m := setType m p .handle
  let m := setBinder m p 0
  let m := setCookie m p 0
  setHandle m p handle

/-- The object at `p` becomes a binder again. The last assignment clears half of the binder. -/
def toWeakBinder (m : Mem) (p : ℕ) (b : BinderObject) : Mem :=
  let m := setType m p .weakBinder
  let m := setBinder m p b.binder
  let m := setCookie m p b.cookie
  setHandle m p 0

/-- One turn of the loop of `TranslateObjects`, on the object at `p`; `none` for an invalid type. -/
def translateObject (self : SessionId) (st : ServerState) (m : Mem) (p : ℕ) :
    Option (ServerState × Mem) :=
  match objType m p with
  | some .binder =>
    let (handle, st) := exportObject st self ⟨objBinder m p, objCookie m p⟩
    some (st, toHandle m p handle)
  | some .handle =>
    match (st.sessions self).objects.lookup (objHandle m p) with
    | none => some (st, m)
    | some b => some (st, toWeakBinder m p b)
  | some .weakBinder | some .weakHandle | some .fd => some (st, m)
  | none => none

/-- The loop of `TranslateObjects`: `n` offsets from `current` on are left. An offset is read as one
byte (`static_cast<binder_size_t>(*current)`). -/
def translateLoop (self : SessionId) (data : ℕ) :
    ℕ → ℕ → ServerState → Mem → Status × ServerState × Mem
  | 0, _, st, m => (.ok, st, m)
  | n + 1, current, st, m =>
    match translateObject self st m (data + (m current).toNat) with
    | none => (.invalidOperation, st, m)
    | some (st, m) => translateLoop self data n (current + 8) st m

/-- `ServerSession::TranslateObjects`; `none` if it dereferences a null pointer. -/
def translateObjects (self : SessionId) (tr : TransactionData) (st : ServerState) (m : Mem) :
    Option (Status × ServerState × Mem) :=
  if tr.ListsNull then none
  else some (translateLoop self tr.data.start tr.numObjectOffsets tr.objects.start st m)

/-! ### Posting a transaction -/

/-- `ServerSession::SendStatus`. -/
def sendStatus (st : ServerState) (s : SessionId) (msg : Message) (status : Status) : List Write :=
  let writer : BinaryWriter := {}
  let writer := writer.writeInt32 status.toInt
  writeMessage st s { type := .status, cookie := msg.cookie, data := writer.bytes }
    (.sendStatus msg status)

/-- The object a transaction to `handle` is for. The context manager's has neither binder nor
cookie; `none` is the branch that warns "Cannot find object for handle". -/
def objectForHandle (session : ServerSession) (handle : ℕ) : Option BinderObject :=
  match session.objects.lookup handle with
  | some obj => some obj
  | none => if handle = 0 then some ⟨0, 0⟩ else none

/-- The cookie `PostTransaction` of the session `t` draws from `next_transaction_cookie_`. -/
def postCookie (st : ServerState) (t : SessionId) : ℕ :=
  (st.sessions t).nextTransactionCookie % 2 ^ 64

/-- `next_transaction_cookie_++` of the session `t`. -/
def drawCookie (st : ServerState) (t : SessionId) : ServerState :=
  st.update t fun s => { s with nextTransactionCookie := s.nextTransactionCookie + 1 }

/-- The insertion into `pending_transactions_` of the session `t`. -/
def addPending (st : ServerState) (t : SessionId) (cookie : ℕ) (record : TransactionRecord) :
    ServerState :=
  st.update t fun s =>
    { s with pendingTransactions := insertNew s.pendingTransactions cookie record }

/-- The erasure from `pending_transactions_` of the session `t`. -/
def removePending (st : ServerState) (t : SessionId) (cookie : ℕ) : ServerState :=
  st.update t fun s => { s with pendingTransactions := s.pendingTransactions.erase cookie }

/-- What a call of `PostTransaction` returns or throws, and what it leaves behind. -/
structure Posted where
  result : Except Exn Status
  state : ServerState
  writes : List Write

/-- The transaction `PostTransaction` builds from the old one. -/
def newTransaction (obj : BinderObject) (oldTr : TransactionData) : TransactionData :=
  { binder := obj.binder
    cookie := obj.cookie
    code := oldTr.code
    data := oldTr.data
    objects := ⟨oldTr.objects.start, oldTr.numObjectOffsets * 8⟩ }

/-- The message `PostTransaction` writes. -/
def newMessage (destination cookie : ℕ) (tr : TransactionData) (m : Mem) : Message :=
  let writer : BinaryWriter := {}
  let writer := writer.writeData (packTransaction tr m)
  { type := .transaction, destination := destination, cookie := cookie, data := writer.bytes }

/-- The record as `PostTransaction` stores it: the data of its message have been rewritten in
place. -/
def storedRecord (record : TransactionRecord) (m : Mem) : TransactionRecord :=
  { record with message := inMemory record.message m }

/-- `ServerSession::PostTransaction` of the session `target`, with `m` the memory the record's
message lies in; `none` if the daemon dies. -/
def postTransaction (st : ServerState) (target : SessionId) (record : TransactionRecord) (m : Mem) :
    Option Posted :=
  let cookie := postCookie st target
  let st := drawCookie st target
  match objectForHandle (st.sessions target) record.message.destination with
  | none => some ⟨.ok .invalidOperation, st, []⟩
  | some obj =>
    match fromMessage record.message.data with
    | .error e => some ⟨.error e, st, []⟩
    | .ok oldTr =>
      let newTr := newTransaction obj oldTr
      match translateObjects target newTr st m with
      | none => none
      | some (.ok, st, m) =>
        let st := addPending st target cookie (storedRecord record m)
        some ⟨.ok .ok, st,
          writeMessage st target (newMessage record.message.destination cookie newTr m)
            (.postTransaction (storedRecord record m))⟩
      | some (status, st, _) => some ⟨.ok status, st, []⟩

/-! ### The handlers -/

/-- The status `OnTransaction` sends for an exception. -/
def caught : Exn → Status
  | .outOfRange => .badValue
  | .other => .unknownError

/-- The status `OnTransaction` sends after `PostTransaction`. -/
def Posted.status (p : Posted) : Status :=
  match p.result with
  | .ok status => status
  | .error e => caught e

/-- `ServerSession::OnTransaction`; `none` if the daemon dies. The result of the caller's own
`TranslateObjects` is not looked at. -/
def onTransaction (st : ServerState) (s : SessionId) (msg : Message) (beyond : List UInt8) :
    Option (ServerState × List Write) :=
  match fromMessage msg.data with
  | .error e => some (st, sendStatus st s msg (caught e))
  | .ok tr =>
    match translateObjects s tr st (memoryOf msg beyond) with
    | none => none
    | some (_, st, m) =>
      match findSessionByHandle st.registry msg.destination with
      | none => some (st, sendStatus st s msg .nameNotFound)
      | some target =>
        (postTransaction st target ⟨s, msg.cookie, inMemory msg m⟩ m).map fun posted =>
          (posted.state, posted.writes ++ sendStatus posted.state s msg posted.status)

/-- `ServerSession::OnReply`. -/
def onReply (st : ServerState) (s : SessionId) (msg : Message) : ServerState × List Write :=
  match (st.sessions s).pendingTransactions.lookup msg.cookie with
  | none => (st, [])
  | some record =>
    let st := removePending st s msg.cookie
    (st, writeMessage st record.caller { msg with cookie := record.replyCookie } (.onReply record))

/-- `ServerSession::OnSetContextManager`. -/
def onSetContextManager (st : ServerState) (s : SessionId) (msg : Message) :
    ServerState × List Write :=
  match st.registry.contextMgr with
  | some _ => (st, forwardToMonitor st msg ++ sendStatus st s msg .alreadyExists)
  | none =>
    let st' := { st with registry := { st.registry with contextMgr := some s } }
    (st', forwardToMonitor st msg ++ sendStatus st' s msg .ok)

/-- `ServerSession::OnSetMonitor`. -/
def onSetMonitor (st : ServerState) (s : SessionId) (msg : Message) : ServerState × List Write :=
  match st.registry.monitor with
  | some _ => (st, sendStatus st s msg .alreadyExists)
  | none =>
    let st := { st with registry := { st.registry with monitor := some s } }
    (st, sendStatus st s msg .ok)

/-- `ServerSession::OnReference`, for `Acquire` and `Release`. -/
def onReference (st : ServerState) (s : SessionId) (msg : Message) :
    Except Exn (ServerState × List Write) := do
  let reader : BinaryReader := { buffer := msg.data, current := 0 }
  let (handle, _) ← reader.readUint64
  let (status, registry) :=
    match msg.type with
    | .acquire => addReferenceForHandle st.registry s handle
    | .release => removeReferenceForHandle st.registry s handle
    | _ => (.deadObject, st.registry)
  let st := { st with registry := registry }
  return (st, sendStatus st s msg status)

/-- The switch of `OnDeathNotification`. -/
def deathNotification (t : MessageType) (notifications : Table ℕ ℕ) (handle objectId : ℕ) :
    Status × Table ℕ ℕ :=
  match t with
  | .requestDeathNotification =>
    if handle ∈ notifications then (.alreadyExists, notifications)
    else (.ok, insertNew notifications handle objectId)
  | .clearDeathNotification =>
    if handle ∉ notifications then (.badValue, notifications)
    else (.ok, notifications.erase handle)
  | _ => (.invalidOperation, notifications)

/-- `ServerSession::OnDeathNotification`. -/
def onDeathNotification (st : ServerState) (s : SessionId) (msg : Message) :
    Except Exn (ServerState × List Write) := do
  let reader : BinaryReader := { buffer := msg.data, current := 0 }
  let (handle, reader) ← reader.readUint64
  let (objectId, _) ← reader.readUint64
  let (status, notifications) :=
    deathNotification msg.type (st.sessions s).deathNotifications handle objectId
  let st := st.update s fun s => { s with deathNotifications := notifications }
  return (st, sendStatus st s msg status)

/-- `ServerSession::ProcessMessage`. A handler that throws has changed and written nothing. -/
def processMessage (st : ServerState) (s : SessionId) (msg : Message) (beyond : List UInt8) :
    Except Failure (ServerState × List Write) :=
  match msg.type with
  | .setContextMgr => .ok (onSetContextManager st s msg)
  | .setMonitor => .ok (onSetMonitor st s msg)
  | .transaction =>
    match onTransaction st s msg beyond with
    | none => .error .crashed
    | some r => .ok r
  | .status | .transactionReply => .ok (onReply st s msg)
  | .acquire | .release => (onReference st s msg).mapError .thrown
  | .requestDeathNotification | .clearDeathNotification =>
    (onDeathNotification st s msg).mapError .thrown
  | _ => .ok (st, sendStatus st s msg .invalidOperation)

/-! ### Termination -/

/-- The loop of `Terminate` over the handles of the session. -/
def removeHandles (st : ServerState) : List ℕ → ServerState × List Write
  | [] => (st, [])
  | handle :: rest =>
    let (st, writes) := removeHandle st handle
    let (st, writes') := removeHandles st rest
    (st, writes ++ writes')

/-- `ServerSession::Terminate`; `order` lists the keys of `objects_` as the loop meets them. -/
def terminate (st : ServerState) (s : SessionId) (order : List ℕ) : ServerState × List Write :=
  let (st, writes) := removeHandles st order
  let registry := st.registry
  let registry :=
    if registry.contextMgr = some s then { registry with contextMgr := none } else registry
  let registry := if registry.monitor = some s then { registry with monitor := none } else registry
  (({ st with registry := registry }).update s fun s => { s with terminated := true }, writes)

/-! ### The machine -/

/-- What can happen to the server. -/
inductive Action where
  | accept
  | process (s : SessionId) (msg : Message) (beyond : List UInt8)
  | terminate (s : SessionId) (order : List ℕ)
deriving DecidableEq

/-- One step of the server. An exception that a handler lets through leaves the state as it was, and
no state is left of a daemon that has died. -/
def step (st : ServerState) : Action → Option (ServerState × List Write)
  | .accept => some ({ st with
      sessions := Function.update st.sessions st.numSessions {}
      numSessions := st.numSessions + 1 }, [])
  | .process s msg beyond =>
    if st.Live s then
      match processMessage st s msg beyond with
      | .ok r => some r
      | .error (.thrown _) => some (st, [])
      | .error .crashed => none
    else none
  | .terminate s order =>
    if st.Live s ∧ order.Perm (st.sessions s).objects.keys then some (terminate st s order)
    else none

/-- **The server.** -/
def server : Machine ServerState Action Write := ⟨{}, step⟩

/-- The steps of the server, as its histories record them. -/
abbrev ServerStep := Transition ServerState Action Write

end Binderd.Broker.Sessions
