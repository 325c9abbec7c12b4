import Binderd.Lib.Tables
import Binderd.Wire.Transactions
import Mathlib.Logic.Function.Basic

/-! # The state of the server

The server keeps one `Registry` and a `ServerSession` per connection. A session is named by the
number it was created with; all sessions ever created stay in the state, as the code's shared
pointers keep them alive, and `terminated` says that `Terminate` has run. The counters
`next_object_handle_` and `next_transaction_cookie_` are kept without wrapping around; the 64-bit
value the code draws from them is taken at the draw.

A step of the server writes messages to sessions. Each is recorded as a `Write`, together with the
function of the code that wrote it. -/

namespace Binderd.Broker.State

open Binderd.Lib.Tables Binderd.Wire.Messages

/-- Sessions are numbered in the order in which they are accepted. -/
abbrev SessionId := ℕ

/-- `ServerSession::BinderObject`. -/
structure BinderObject where
  binder : ℕ
  cookie : ℕ
deriving DecidableEq, Repr

/-- `ServerSession::TransactionRecord`. -/
structure TransactionRecord where
  caller : SessionId
  replyCookie : ℕ
  message : Message
deriving DecidableEq

/-- What `ServerSession` keeps. -/
@[ext]
structure ServerSession where
  nextTransactionCookie : ℕ := 0
  pendingTransactions : Table ℕ TransactionRecord := ∅
  objects : Table ℕ BinderObject := ∅
  deathNotifications : Table ℕ ℕ := ∅
  terminated : Bool := false

/-- What `Registry` keeps. -/
structure Registry where
  contextMgr : Option SessionId := none
  monitor : Option SessionId := none
  nextObjectHandle : ℕ := 1
  handles : Table ℕ SessionId := ∅
  references : Table ℕ (List SessionId) := ∅

/-- The registry and the sessions, of which `numSessions` have been accepted. -/
structure ServerState where
  registry : Registry := {}
  sessions : SessionId → ServerSession := fun _ => {}
  numSessions : ℕ := 0

/-- The session exists and has not terminated. -/
def ServerState.Live (st : ServerState) (s : SessionId) : Prop :=
  s < st.numSessions ∧ (st.sessions s).terminated = false

instance (st : ServerState) (s : SessionId) : Decidable (st.Live s) := by
  unfold ServerState.Live; infer_instance

/-- The state after a session was changed. -/
def ServerState.update (st : ServerState) (s : SessionId) (f : ServerSession → ServerSession) :
    ServerState :=
  { st with sessions := Function.update st.sessions s (f (st.sessions s)) }

/-- The function that wrote a message, with what it was called for. -/
inductive Source where
  | sendStatus (request : Message) (status : Status)
  | postTransaction (record : TransactionRecord)
  | onReply (record : TransactionRecord)
  | sendDeathNotification (handle : ℕ)
  | forwardToMonitor
deriving DecidableEq

/-- The message was forwarded by `OnReply`. -/
def Source.isOnReply : Source → Bool
  | .onReply _ => true
  | _ => false

/-- A message written to a session. -/
structure Write where
  session : SessionId
  message : Message
  source : Source
deriving DecidableEq

/-! ### Changing one session -/

namespace ServerState

variable (st : ServerState) (s t : SessionId) (f : ServerSession → ServerSession)

@[simp] theorem update_registry : (st.update s f).registry = st.registry := rfl

@[simp] theorem update_numSessions : (st.update s f).numSessions = st.numSessions := rfl

@[simp] theorem update_sessions_self : (st.update s f).sessions s = f (st.sessions s) := by
  simp [update]

@[simp] theorem update_sessions_of_ne {s t : SessionId} (h : t ≠ s) :
    (st.update s f).sessions t = st.sessions t := by
  simp [update, Function.update_of_ne h]

/-- A field that `f` leaves alone in `s` is left alone in every session. -/
theorem update_field {γ : Type} (g : ServerSession → γ)
    (h : g (f (st.sessions s)) = g (st.sessions s)) :
    g ((st.update s f).sessions t) = g (st.sessions t) := by
  by_cases hts : t = s
  · subst hts
    rw [update_sessions_self, h]
  · rw [update_sessions_of_ne st f hts]

end ServerState

end Binderd.Broker.State
