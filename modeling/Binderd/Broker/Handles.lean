import Binderd.Broker.State

/-! # The registry

The operations of `Registry`. `removeHandle` also sends the death notifications, so it works on the
whole state and returns what is written; `SendDeathNotification`, `WriteMessage` and
`ForwardToMonitor` of the session are here for its sake. -/

namespace Binderd.Broker.Handles

open Binderd.Lib.Bytes Binderd.Lib.Tables Binderd.Wire.Streams Binderd.Wire.Messages
open Binderd.Broker.State

/-- `kContextManagerHandle`. -/
def contextManagerHandle : ℕ := 0

/-- `Registry::FindSessionByHandle`. -/
def findSessionByHandle (r : Registry) (handle : ℕ) : Option SessionId :=
  if handle = contextManagerHandle then r.contextMgr else r.handles.lookup handle

/-- `Registry::NewObjectHandle`: the handle, and the registry that knows it. -/
def newObjectHandle (r : Registry) (session : SessionId) : ℕ × Registry :=
  let handle := r.nextObjectHandle % 2 ^ 64
  (handle, { r with
    nextObjectHandle := r.nextObjectHandle + 1
    handles := insertNew r.handles handle session })

/-- `Registry::AddReferenceForHandle`. -/
def addReferenceForHandle (r : Registry) (session : SessionId) (handle : ℕ) :
    Status × Registry :=
  if handle ∉ r.handles then (.deadObject, r)
  else
    match r.references.lookup handle with
    | none => (.ok, { r with references := r.references.insert handle [session] })
    | some refs => (.ok, { r with references := r.references.insert handle (refs ++ [session]) })

/-- `Registry::RemoveReferenceForHandle`. -/
def removeReferenceForHandle (r : Registry) (session : SessionId) (handle : ℕ) :
    Status × Registry :=
  if handle ∉ r.handles then (.deadObject, r)
  else
    match r.references.lookup handle with
    | none => (.badValue, r)
    | some refs =>
      if session ∉ refs then (.badValue, r)
      else (.ok, { r with references := r.references.insert handle (refs.erase session) })

/-! ### Writing to sessions -/

/-- `ServerSession::ForwardToMonitor`. -/
def forwardToMonitor (st : ServerState) (msg : Message) : List Write :=
  match st.registry.monitor with
  | none => []
  | some monitor =>
    let writer : BinaryWriter := {}
    let writer := writer.writeSizedData (pack msg)
    [⟨monitor, { type := .logEntry, data := writer.bytes }, .forwardToMonitor⟩]

/-- `ServerSession::WriteMessage`. -/
def writeMessage (st : ServerState) (s : SessionId) (msg : Message) (source : Source) :
    List Write :=
  ⟨s, msg, source⟩ :: forwardToMonitor st msg

/-- The data of a DeadBinder message. -/
def deadBinderData (handle objectId : ℕ) : List UInt8 :=
  let writer : BinaryWriter := {}
  let writer := writer.writeUint64 handle
  let writer := writer.writeUint64 objectId
  writer.bytes

/-- `ServerSession::SendDeathNotification`. The cookie of the message is never set. -/
def sendDeathNotification (st : ServerState) (s : SessionId) (handle : ℕ) : List Write :=
  match (st.sessions s).deathNotifications.lookup handle with
  | none => []
  | some objectId =>
    writeMessage st s { type := .deadBinder, data := deadBinderData handle objectId }
      (.sendDeathNotification handle)

/-- `Registry::RemoveHandle`. -/
def removeHandle (st : ServerState) (handle : ℕ) : ServerState × List Write :=
  if handle ∉ st.registry.handles then (st, [])
  else
    match st.registry.references.lookup handle with
    | none =>
      ({ st with registry := { st.registry with handles := st.registry.handles.erase handle } }, [])
    | some refs =>
      ({ st with registry := { st.registry with
          references := st.registry.references.erase handle
          handles := st.registry.handles.erase handle } },
        refs.flatMap fun session => sendDeathNotification st session handle)

end Binderd.Broker.Handles
