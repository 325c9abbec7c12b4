import Binderd.Broker.Effects
import Binderd.Clients.Completion
import Binderd.Clients.Handlers
import Binderd.Clients.Matching

/-! # The status of a transaction that failed

A two-way transaction waits for a TransactionReply. If it fails the server sends a Status instead:
`OnTransaction`, when it could not deliver the transaction, or `OnReply`, when the callee has sent
one. `OnNewMessage` skips a Status that it reads as `OK`, an acknowledgement, and it reads the first
byte only. Any other Status completes the call, and `Transact` returns `BadValue` for it, since it
is no TransactionReply.

So the caller gets the status that was sent if this is `BadValue` (`status_returned_iff`). -/

namespace Binderd.Clients.Statuses

open Binderd.Lib.Bytes Binderd.Lib.Tables Binderd.Lib.Runs
open Binderd.Wire.Streams Binderd.Wire.Messages Binderd.Wire.Transactions
open Binderd.Broker.Effects
open Binderd.Clients.Translator Binderd.Clients.Handlers Binderd.Clients.Calls
open Binderd.Clients.Completion Binderd.Clients.Matching

/-! ### The Status -/

/-- The bytes of a status. -/
def statusBytes (status : Status) : List UInt8 := leBytes 4 (status.toInt % 2 ^ 32).toNat

/-- A Status that the server sends for the transaction with this cookie. It has read the cookie as
one byte. -/
structure StatusFor (cookie : ℕ) (status : Status) (msg : Message) : Prop where
  type : msg.type = .status
  destination : msg.destination < 256
  cookie : msg.cookie = cookie % 256
  data : msg.data = statusBytes status

theorem statusFor_statusMessage {cookie : ℕ} {request : Message}
    (h : request.cookie = cookie % 256) (status : Status) :
    StatusFor cookie status (statusMessage request status) :=
  ⟨rfl, Nat.zero_lt_succ 255, h, rfl⟩

theorem StatusFor.forwarded {cookie cookie' : ℕ} {status : Status} {msg : Message}
    (h : StatusFor cookie' status msg) :
    StatusFor cookie status { msg with cookie := cookie % 256 } :=
  ⟨h.type, h.destination, rfl, h.data⟩

theorem StatusFor.representable {cookie : ℕ} {status : Status} {msg : Message}
    (h : StatusFor cookie status msg) : Representable msg where
  type := by rw [h.type]; decide
  destination := h.destination
  cookie := by rw [h.cookie]; exact Nat.mod_lt _ (by omega)
  data := by rw [h.data, statusBytes, length_leBytes]; omega

/-! ### The call -/

/-- A two-way transaction waits under the cookie. -/
structure Waiting (st : ClientState) (cookie promise : ℕ) : Prop where
  pending : st.pendingCalls.lookup cookie = some ⟨promise, .transaction, false⟩
  empty : st.promises promise = none

/-- `Transact` returns the status and no reply, whatever the buffer holds by now. -/
def Returns (st : ClientState) (promise : ℕ) (status : ℤ) : Prop :=
  ∃ incoming, st.promises promise = some incoming ∧ ∀ t body beyond,
    receiveReply t false (incoming.message.toMessage body) beyond = .ok (status, none)

theorem receiveReply_of_status {msg : Message} (h : msg.type = .status) (t : ObjectTranslator)
    (beyond : List UInt8) :
    receiveReply t false msg beyond = .ok (Status.badValue.toInt, none) := by
  simp [receiveReply, h]

theorem started_of_pending {h : List ClientStep} {st : ClientState} (hr : Run client h st) :
    ∀ k call, st.pendingCalls.lookup k = some call →
      ∃ req, st.started[call.promise]? = some req ∧ req.cookie = k := by
  induction hr with
  | nil => exact fun k _ hk => by cases (AList.lookup_empty k).symm.trans hk
  | @snoc h e _ hv ih =>
    have hstep : clientStep e.before e.action = some (e.after, e.emitted) := hv
    have heffect := clientStep_effect hstep
    intro k call hk
    generalize e.after = after at heffect hk ⊢
    generalize e.action = action at heffect
    generalize e.emitted = emitted at heffect
    cases heffect with
    | received =>
      obtain ⟨-, hstarted, hpending⟩ := onNewMessage_calls e.before ‹_›
      rw [hpending] at hk
      rw [hstarted]
      exact ih k call hk
    | started hcookie hnot =>
      simp only [lookup_insertNew] at hk
      split_ifs at hk with hnew
      · cases hk
        exact ⟨_, List.getElem?_concat_length, hnew.1.symm⟩
      · obtain ⟨req, hreq, hc⟩ := ih k call hk
        exact ⟨req, getElem?_snoc_of_some hreq _, hc⟩
    | finished _ => exact ih k call (lookup_erase_eq_some.mp hk).2
    | _ => exact ih k call hk

theorem cookie_of_promise {h : List ClientStep} {st : ClientState} (hr : Run client h st)
    {k k' : ℕ} {call call' : PendingCall} (hl : st.pendingCalls.lookup k = some call)
    (hl' : st.pendingCalls.lookup k' = some call') (hp : call.promise = call'.promise) :
    k = k' := by
  obtain ⟨req, hreq, rfl⟩ := started_of_pending hr k call hl
  obtain ⟨req', hreq', rfl⟩ := started_of_pending hr k' call' hl'
  rw [hp, hreq'] at hreq
  rw [Option.some.inj hreq]

theorem Status.toInt_injective {s s' : Status} (h : s.toInt = s'.toInt) : s = s' := by
  cases s <;> cases s' <;> first | rfl | exact absurd h (by decide)

section Call

variable {st : ClientState} {cookie promise : ℕ} {status : Status} {msg : Message}

/-- If a Status fulfils the promise, it came under the cookie of the call, and the caller gets
`BadValue`. -/
theorem of_fulfilled {h : List ClientStep} (hr : Run client h st) (hw : Waiting st cookie promise)
    (hm : StatusFor cookie status msg) {incoming : Incoming}
    (hset : (onNewMessage st (pack msg)).promises promise = some incoming) :
    cookie < 256 ∧ incoming.message.type = .status := by
  obtain ⟨m, -, htype, -, hcases⟩ := onNewMessage_pack hm.representable st
  rcases hcases with ⟨-, hsame⟩ | ⟨call, -, hl, hupdate⟩ | ⟨hsame, -⟩
  · rw [hsame, hw.empty] at hset
    cases hset
  · rw [hupdate] at hset
    by_cases hp : promise = call.promise
    · have hcookie := cookie_of_promise hr hl hw.pending hp.symm
      rw [hp, Function.update_self] at hset
      obtain rfl := Option.some.inj hset
      rw [hm.cookie] at hcookie
      exact ⟨by omega, htype.trans hm.type⟩
    · rw [Function.update_of_ne hp, hw.empty] at hset
      cases hset
  · rw [hsame, hw.empty] at hset
    cases hset

/-- A Status that does not begin like `OK` fulfils the promise. -/
theorem fulfilled_of_byte (hw : Waiting st cookie promise) (hm : StatusFor cookie status msg)
    (hlt : cookie < 256) (hbyte : byteOf (statusBytes status) 0 ≠ 0) :
    (onNewMessage st (pack msg)).promises promise =
      some ⟨received msg, st.arrived.length⟩ := by
  have hdata : (received msg).data.bytes (pack msg) = statusBytes status :=
    (data_bytes_pack msg).trans hm.data
  have hcookie : (received msg).cookie = cookie := hm.cookie.trans (Nat.mod_eq_of_lt hlt)
  have hpending : (fillBody st (pack msg)).pendingCalls.lookup (received msg).cookie =
      some ⟨promise, .transaction, false⟩ := hcookie ▸ hw.pending
  rcases handleMessage_pending (fillBody st (pack msg)) ⟨received msg, st.arrived.length⟩
    (by rw [show (received msg).type = .status from hm.type]; decide) hpending
    (fun _ => by
      rw [show (fillBody st (pack msg)).body = pack msg from rfl, hdata, statusBytes,
        length_leBytes])
    hw.empty with ⟨hskipped, -, -⟩ | ⟨-, -, hh⟩
  · exact absurd (hdata ▸ hskipped.2.2.2) hbyte
  · rw [(onNewMessage_single hm.representable hh).1]
    exact Function.update_self ..

/-- **A status reaches the caller** if it is `BadValue`, and if the cookie of the call fits into one
byte. -/
theorem status_returned_iff {h : List ClientStep} (hr : Run client h st)
    (hw : Waiting st cookie promise) (hm : StatusFor cookie status msg) :
    Returns (onNewMessage st (pack msg)) promise status.toInt ↔
      status = .badValue ∧ cookie < 256 := by
  constructor
  · rintro ⟨incoming, hset, hreturned⟩
    obtain ⟨hlt, htype⟩ := of_fulfilled hr hw hm hset
    refine ⟨Status.toInt_injective ?_, hlt⟩
    have hreply := hreturned .initial [] []
    rw [receiveReply_of_status htype] at hreply
    exact (congrArg Prod.fst (Except.ok.inj hreply)).symm
  · rintro ⟨rfl, hlt⟩
    refine ⟨_, fulfilled_of_byte hw hm hlt (by decide), fun t body beyond => ?_⟩
    have htype : ((received msg).toMessage body).type = .status := hm.type
    exact receiveReply_of_status htype t beyond

end Call

/-- A client that waits for the reply to a transaction. `Transact` draws two cookies. -/
def waitingClient : List ClientAction :=
  [.newCookie, .startCall (transactMessage 1 0 7 [] []) false]

/-- The Status for the call of `waitingClient`. -/
def statusForCall (status : Status) : Message :=
  statusMessage { type := .transaction, cookie := 1 } status

theorem waiting_waitingClient : Waiting (final client {} waitingClient) 1 0 :=
  ⟨by decide +kernel, rfl⟩

theorem status_returned_iff_waitingClient :
    Returns (onNewMessage (final client {} waitingClient) (pack (statusForCall .badValue))) 0
      Status.badValue.toInt :=
  (status_returned_iff (path_history client waitingClient {}) waiting_waitingClient
    (statusFor_statusMessage rfl .badValue)).mpr ⟨rfl, by decide⟩

/-- `NameNotFound` is returned as `BadValue`, and `UnknownError` does not complete the call. -/
theorem status_lost :
    Returns (onNewMessage (final client {} waitingClient) (pack (statusForCall .nameNotFound))) 0
        Status.badValue.toInt ∧
      ¬ Returns (onNewMessage (final client {} waitingClient) (pack (statusForCall .nameNotFound)))
        0 Status.nameNotFound.toInt ∧
      (onNewMessage (final client {} waitingClient)
        (pack (statusForCall .unknownError))).promises 0 = none := by
  have hset : ((onNewMessage (final client {} waitingClient)
      (pack (statusForCall .nameNotFound))).promises 0).map (·.message.type) = some .status := by
    decide +kernel
  obtain ⟨incoming, hset, htype⟩ := Option.map_eq_some_iff.mp hset
  have hreply : ∀ t body beyond, receiveReply t false (incoming.message.toMessage body) beyond =
      .ok (Status.badValue.toInt, none) := fun t body beyond =>
    receiveReply_of_status htype t beyond
  refine ⟨⟨incoming, hset, hreply⟩, ?_, by decide +kernel⟩
  rintro ⟨incoming', hset', hreturned⟩
  rw [hset] at hset'
  cases hset'
  have := hreturned .initial [] []
  rw [hreply] at this
  revert this
  decide

end Binderd.Clients.Statuses
