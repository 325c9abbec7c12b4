import Binderd.Clients.Translator

/-! # The objects of a client and the transactions for them

A Transaction that arrives is for one of the client's objects. There are two handlers:
`HandleContextObjectMessage` calls the context object, and `ProcessAndExecuteCommand` translates the
objects in the message, looks up the object the message is for, and translates the objects in the
reply. `Transact` translates the objects in the reply that it has waited for. None of them looks at
the status that `ProcessTransaction` returns, and none of them gets beyond a transaction that lists
objects without data.

What an object does in `Transact` is its own affair: the handlers are given a function from what it
is handed to what it returns (`Outcome`). -/

namespace Binderd.Clients.Handlers

open Binderd.Lib.Bytes Binderd.Lib.Tables Binderd.Lib.Walks
open Binderd.Wire.Streams Binderd.Wire.Messages Binderd.Wire.Transactions
open Binderd.Clients.Translator

/-! ### Objects -/

/-- `ObjectPool::Reference`; an object is named by its address. -/
structure Reference where
  count : ℕ
  obj : ℕ
deriving DecidableEq

/-- What `ObjectPool` keeps: the references by the cookies of their objects. -/
structure ObjectPool where
  references : Table ℕ Reference := ∅

namespace ObjectPool

/-- `ObjectPool::GetObject`. -/
def getObject (pool : ObjectPool) (cookie : ℕ) : Option ℕ :=
  (pool.references.lookup cookie).map (·.obj)

/-- The pool has an object with the cookie. -/
def contains (pool : ObjectPool) (cookie : ℕ) : Bool := (pool.references.lookup cookie).isSome

/-- `AdoptObject`; an object that is tracked already is refused. -/
def adoptObject (pool : ObjectPool) (obj : ℕ) : Except Exn ObjectPool :=
  if pool.contains obj then .error .other
  else .ok { references := insertNew pool.references obj ⟨0, obj⟩ }

/-- `New`, of an object that was allocated at the address `obj`. -/
def new (pool : ObjectPool) (obj : ℕ) : ObjectPool :=
  { references := insertNew pool.references obj ⟨0, obj⟩ }

/-- `AddRef`. The count is a `uint32_t`. -/
def addRef (pool : ObjectPool) (cookie : ℕ) : Except Exn ObjectPool :=
  match pool.references.lookup cookie with
  | none => .error .other
  | some ref =>
    let ref := { ref with count := (ref.count + 1) % 2 ^ 32 }
    .ok { references := pool.references.insert cookie ref }

/-- `Release`. It ends with a call of `OnReferenceReleased`, through the entry that may have been
erased; that function and `OnReferenceAcquired` do nothing, and no class overrides them. -/
def release (pool : ObjectPool) (cookie : ℕ) : Except Exn ObjectPool :=
  match pool.references.lookup cookie with
  | none => .error .other
  | some ref =>
    let ref := { ref with count := (ref.count + (2 ^ 32 - 1)) % 2 ^ 32 }
    if ref.count = 0 then .ok { references := pool.references.erase cookie }
    else .ok { references := pool.references.insert cookie ref }

end ObjectPool

/-- A transaction, with the memory its views are into. -/
structure Transaction where
  tr : TransactionData
  mem : Mem

/-- What can be read of a transaction. -/
structure Contents where
  binder : ℕ
  cookie : ℕ
  code : ℕ
  isOneWay : Bool
  hasStatus : Bool
  data : List UInt8
  objects : List UInt8
deriving DecidableEq

/-- What a transaction holds, with its views read. -/
def contents (tr : TransactionData) (m : Mem) : Contents :=
  { binder := tr.binder
    cookie := tr.cookie
    code := tr.code
    isOneWay := tr.isOneWay
    hasStatus := tr.hasStatus
    data := slice m tr.data.start tr.data.size
    objects := slice m tr.objects.start (tr.numObjectOffsets * 8) }

/-- What a call of `Object::Transact` returns, and the client after it: the object may have used
it. A `Status` is any `int32_t`, and `OK` is `0`. -/
structure Outcome where
  status : ℤ
  reply : Option Transaction
  translator : ObjectTranslator
  shouldExit : Bool

/-- The behaviour of the objects. -/
abbrev Behaviour := ℕ → Contents → Outcome

/-- The part of `ClientImpl` that the handlers read. -/
structure ClientObjects where
  translator : ObjectTranslator := .initial
  pool : ObjectPool := {}
  contextObj : Option ℕ := none

/-! ### The handlers -/

/-- What a handler sends. -/
inductive Answer where
  | nothing
  | sent (msg : Message)
  | thrown (e : Exn)
  /-- A null pointer is dereferenced. -/
  | crashed
deriving DecidableEq

/-- The object that a handler calls, with what it is handed, and the answer. -/
structure Handled where
  invoked : Option (ℕ × Contents)
  answer : Answer
deriving DecidableEq

/-- The memory a message's data lies in; `beyond` is what follows the data. -/
def receivedMemory (msg : Message) (beyond : List UInt8) : Mem := ofList (msg.data ++ beyond)

/-- `TransactionStatus`. -/
def transactionStatus (status : ℤ) : Transaction :=
  { tr := { hasStatus := true, data := ⟨0, 4⟩, objects := ⟨0, 0⟩ }
    mem := ofList (leBytes 4 (status % 2 ^ 32).toNat) }

/-- The reply to `msg`. -/
def replyMessage (msg : Message) (reply : Transaction) : Message :=
  let writer : BinaryWriter := {}
  let writer := writer.writeData (packTransaction reply.tr reply.mem)
  { type := .transactionReply, cookie := msg.cookie, data := writer.bytes }

/-- The message of `ClientImpl::SendStatus`. -/
def statusReply (msg : Message) (status : Status) : Message :=
  let writer : BinaryWriter := {}
  let writer := writer.writeInt32 status.toInt
  { type := .status, cookie := msg.cookie, data := writer.bytes }

/-- `ClientImpl::QueueMessage`; `running_` is set by the constructor. -/
def queueMessage (shouldExit : Bool) (msg : Message) : Answer :=
  if shouldExit then .thrown .other else .sent msg

/-- What `HandleContextObjectMessage` sends when its object has returned. -/
def contextAnswer (msg : Message) (r : Outcome) : Answer :=
  if r.status ≠ 0 then .sent (replyMessage msg (transactionStatus r.status))
  else
    match r.reply with
    | some reply => .sent (replyMessage msg reply)
    | none => .crashed

/-- `ClientImpl::HandleContextObjectMessage`. -/
def handleContextObjectMessage (c : ClientObjects) (transact : Behaviour) (msg : Message)
    (beyond : List UInt8) : Handled :=
  if msg.type ≠ .transaction then ⟨none, .nothing⟩
  else
    match fromMessage msg.data with
    | .error e => ⟨none, .thrown e⟩
    | .ok request =>
      match c.contextObj with
      | none => ⟨none, .crashed⟩
      | some obj =>
        let handed := contents request (receivedMemory msg beyond)
        ⟨some (obj, handed), contextAnswer msg (transact obj handed)⟩

/-- The object a transaction is for. -/
def findObject (c : ClientObjects) (t : ObjectTranslator) (request : TransactionData) : Option ℕ :=
  let cookie := t.translateCookie request.cookie
  if cookie ≠ 0 then c.pool.getObject cookie else c.contextObj

/-- What `ProcessAndExecuteCommand` replies when its object has returned, if the translation of the
reply returns. -/
def commandReply (r : Outcome) : Option Transaction :=
  if r.status ≠ 0 then some (transactionStatus r.status)
  else
    match r.reply with
    | some reply => do
      let (_, _, m) ← processTransaction .Out reply.tr r.translator reply.mem
      return { reply with mem := m }
    | none => some (transactionStatus 0)

/-- What `ProcessAndExecuteCommand` sends. -/
def commandAnswer (msg : Message) (r : Outcome) : Answer :=
  match commandReply r with
  | none => .crashed
  | some reply => queueMessage r.shouldExit (replyMessage msg reply)

/-- `ClientImpl::ProcessAndExecuteCommand`, for a Transaction. -/
def executeTransaction (c : ClientObjects) (transact : Behaviour) (msg : Message)
    (beyond : List UInt8) : Handled :=
  match fromMessage msg.data with
  | .error e => ⟨none, .thrown e⟩
  | .ok request =>
    match processTransaction .In request c.translator (receivedMemory msg beyond) with
    | none => ⟨none, .crashed⟩
    | some (_, translator, m) =>
      match findObject c translator request with
      | none => ⟨none, .sent (statusReply msg .unknownTransaction)⟩
      | some obj =>
        let handed := contents request m
        ⟨some (obj, handed), commandAnswer msg (transact obj handed)⟩

/-- `TransactionData::GetStatus`: the `int32_t` at the beginning of the data, of any length but
`0`. -/
def getStatus (tr : TransactionData) (m : Mem) : Option ℤ :=
  let value := load m tr.data.start 4
  if tr.data.IsNull then none
  else some (if value < 2 ^ 31 then value else value - 2 ^ 32)

/-- The end of `ClientImpl::Transact`, when its call has returned `rmsg`: the status, and what
`*reply` is set to. -/
def receiveReply (t : ObjectTranslator) (oneWay : Bool) (rmsg : Message) (beyond : List UInt8) :
    Except Failure (ℤ × Option Contents) :=
  if oneWay ∧ rmsg.type = .status then
    let reader : BinaryReader := { buffer := rmsg.data, current := 0 }
    match reader.readInt32 with
    | .error e => .error (.thrown e)
    | .ok (status, _) => .ok (status, none)
  else if rmsg.type ≠ .transactionReply then .ok (Status.badValue.toInt, none)
  else
    match fromMessage rmsg.data with
    | .error e => .error (.thrown e)
    | .ok replyData =>
      if replyData.hasStatus then
        match getStatus replyData (receivedMemory rmsg beyond) with
        | none => .error .crashed
        | some status => .ok (status, none)
      else
        match processTransaction .In replyData t (receivedMemory rmsg beyond) with
        | none => .error .crashed
        | some (_, _, m) => .ok (0, some (contents replyData m))

/-! ### What the handlers do with a message that can be decoded -/

section Complete

variable {c : ClientObjects} {transact : Behaviour} {msg : Message} {beyond : List UInt8}
  (hc : Complete msg.data)

include hc

theorem handleContextObjectMessage_of_complete (ht : msg.type = .transaction) {obj : ℕ}
    (hobj : c.contextObj = some obj) :
    handleContextObjectMessage c transact msg beyond =
      ⟨some (obj, contents (decoded msg.data) (receivedMemory msg beyond)), contextAnswer msg
        (transact obj (contents (decoded msg.data) (receivedMemory msg beyond)))⟩ := by
  unfold handleContextObjectMessage
  simp only [fromMessage_of_complete hc, ht, hobj, ne_eq, not_true_eq_false, if_false]

theorem executeTransaction_of_listsNull (hn : (decoded msg.data).ListsNull) :
    executeTransaction c transact msg beyond = ⟨none, .crashed⟩ := by
  unfold executeTransaction processTransaction
  simp only [fromMessage_of_complete hc, if_pos hn]

/-- The contents that the object is handed, or the caller of `Transact` is given. -/
theorem executeTransaction_of_complete (hn : ¬ (decoded msg.data).ListsNull) {obj : ℕ}
    (hobj : findObject c c.translator (decoded msg.data) = some obj) :
    executeTransaction c transact msg beyond =
      let handed := contents (decoded msg.data) (processObjects .In (decoded msg.data)
        c.translator (receivedMemory msg beyond)).2.2
      ⟨some (obj, handed), commandAnswer msg (transact obj handed)⟩ := by
  unfold executeTransaction
  simp only [fromMessage_of_complete hc, processTransaction_eq_some hn, state_processObjects_in,
    hobj]

theorem invoked_of_not_found (hobj : findObject c c.translator (decoded msg.data) = none) :
    (executeTransaction c transact msg beyond).invoked = none := by
  by_cases hn : (decoded msg.data).ListsNull
  · rw [executeTransaction_of_listsNull hc hn]
  · unfold executeTransaction
    simp only [fromMessage_of_complete hc, processTransaction_eq_some hn, state_processObjects_in,
      hobj]

end Complete

end Binderd.Clients.Handlers
