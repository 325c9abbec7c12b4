import Binderd.Clients.Translator
import Mathlib.Logic.Function.Basic

/-! # Death notifications, on the side of the client

`LinkToDeath` asks the server for a death notification through `RequestDeathNotification`, and
`UnlinkToDeath` calls it off through `ClearDeathNotification`. `dead_recipients_` lists the proxies
that a DeadBinder message is for, under the ids of the translator, each with the handles it waits
for. The two requests edit the list and then ask the server.

The server may refuse. Then the list is to be what it was, so that the proxies that are told of a
death are the same as before the call (`AtomicOnFailure`). Neither request takes its edit back:
`atomic_iff` says which calls are atomic all the same. -/

namespace Binderd.Clients.Recipients

open Binderd.Lib.Bytes
open Binderd.Wire.Streams Binderd.Wire.Messages
open Binderd.Clients.Translator

/-! ### The state -/

/-- The fields of a `RemoteObject`. A `DeathRecipient` is named by its address. -/
structure RemoteObject where
  handle : ℕ
  obituaries : List ℕ := []
  obituariesSent : Bool := false
deriving DecidableEq

/-- `ClientImpl::DeadRecipient`. The proxy is named by its address, and the id is an `int`. -/
structure DeadRecipient where
  id : ℤ
  proxy : ℕ
  handles : List ℕ
deriving DecidableEq

/-- The comparison of the id with a `uint64_t`. -/
def DeadRecipient.HasId (r : DeadRecipient) (id : ℕ) : Prop := (r.id % 2 ^ 64).toNat = id

instance (r : DeadRecipient) (id : ℕ) : Decidable (r.HasId id) := Nat.decEq _ _

/-- The conversion of a `uint64_t` to `int`. -/
def toInt (n : ℕ) : ℤ := if n % 2 ^ 32 < 2 ^ 31 then n % 2 ^ 32 else (n % 2 ^ 32 : ℤ) - 2 ^ 32

/-- The client and its remote objects, which are named by their addresses. What is at any other
address is not a `RemoteObject`. -/
structure ClientState where
  translator : ObjectTranslator := .initial
  deadRecipients : List DeadRecipient := []
  remotes : ℕ → Option RemoteObject := fun _ => none

/-! ### The server's answer -/

/-- What `Transact` makes of a request: the data of the reply, no reply, or an exception. -/
abbrev Answer := Except Exn (Option (List UInt8))

/-- The server, seen from the client. -/
abbrev Server := Message → Answer

/-- The status of a request that has been answered. -/
def statusOf : Answer → Except Exn ℤ
  | .error e => .error e
  | .ok none => .ok Status.unknownError.toInt
  | .ok (some data) => do
    let reader : BinaryReader := { buffer := data, current := 0 }
    let (status, _) ← reader.readInt32
    return status

/-- The request for a handle and the id of a proxy. -/
def deathMessage (type : MessageType) (handle id : ℕ) : Message :=
  let writer : BinaryWriter := {}
  let writer := writer.writeUint64 handle
  let writer := writer.writeUint64 id
  { type := type, data := writer.bytes }

/-! ### The calls -/

/-- The handle is added to the recipient with the id, or to a new one. -/
def addHandle (id handle proxy : ℕ) : List DeadRecipient → List DeadRecipient
  | [] => [⟨toInt id, proxy, [handle]⟩]
  | r :: rs =>
    if r.HasId id then { r with handles := r.handles ++ [handle] } :: rs
    else r :: addHandle id handle proxy rs

/-- The handle is dropped from the recipient with the id, and then the recipient, if it has no
handle. -/
def dropHandle (id handle : ℕ) : List DeadRecipient → List DeadRecipient
  | [] => []
  | r :: rs =>
    if r.HasId id then
      let handles := r.handles.erase handle
      if handles.length = 0 then rs else { r with handles := handles } :: rs
    else r :: dropHandle id handle rs

/-- `ClientImpl::RequestDeathNotification`. -/
def requestDeathNotification (server : Server) (st : ClientState) (handle proxy : ℕ) :
    Except Exn ℤ × ClientState :=
  let (id, translator) := st.translator.translateOrAddObject proxy
  let deadRecipients := addHandle id handle proxy st.deadRecipients
  (statusOf (server (deathMessage .requestDeathNotification handle id)),
    { st with translator := translator, deadRecipients := deadRecipients })

/-- `ClientImpl::ClearDeathNotification`. -/
def clearDeathNotification (server : Server) (st : ClientState) (handle proxy : ℕ) :
    Except Exn ℤ × ClientState :=
  let id := st.translator.translateObject proxy
  if id = ObjectTranslator.invalid then (.ok Status.deadObject.toInt, st)
  else
    match st.deadRecipients.find? fun r => r.HasId id with
    | none => (.ok Status.deadObject.toInt, st)
    | some _ =>
      (statusOf (server (deathMessage .clearDeathNotification handle id)),
        { st with deadRecipients := dropHandle id handle st.deadRecipients })

/-- The client with the proxy at `obj` changed. -/
def setRemote (st : ClientState) (obj : ℕ) (r : RemoteObject) : ClientState :=
  { st with remotes := Function.update st.remotes obj (some r) }

/-- What comes after `if (status != Status::OK) return status`. -/
def onOk (f : ClientState → ClientState) : Except Exn ℤ × ClientState → Except Exn ℤ × ClientState
  | (.ok 0, st) => (.ok 0, f st)
  | (status, st) => (status, st)

/-- `LinkToDeath`, of a `RemoteObject` and of a `LocalObject`. -/
def linkToDeath (server : Server) (st : ClientState) (obj recipient : ℕ) :
    Except Exn ℤ × ClientState :=
  match st.remotes obj with
  | none => (.ok Status.invalidOperation.toInt, st)
  | some r =>
    if r.obituariesSent then (.ok Status.deadObject.toInt, st)
    else
      onOk (fun st => setRemote st obj { r with obituaries := r.obituaries ++ [recipient] })
        (requestDeathNotification server st r.handle obj)

/-- `UnlinkToDeath`. -/
def unlinkToDeath (server : Server) (st : ClientState) (obj recipient : ℕ) :
    Except Exn ℤ × ClientState :=
  match st.remotes obj with
  | none => (.ok Status.invalidOperation.toInt, st)
  | some r =>
    if r.obituariesSent then (.ok Status.deadObject.toInt, st)
    else if recipient ∉ r.obituaries then (.ok Status.nameNotFound.toInt, st)
    else
      onOk (fun st => setRemote st obj { r with obituaries := r.obituaries.erase recipient })
        (clearDeathNotification server st r.handle obj)

/-- `RemoteObject::SendObituary`: the recipients that are called. -/
def sendObituary (r : RemoteObject) : List ℕ × RemoteObject :=
  if r.obituariesSent then ([], r) else (r.obituaries, { r with obituariesSent := true })

/-- What `ProcessAndExecuteCommand` does for a DeadBinder with the id: the object whose
`SendObituary` is called with the recipients that it calls, the status that is sent, and the client
after it. -/
def notifyRecipient (st : ClientState) (id : ℕ) : Option (ℕ × List ℕ) × Status × ClientState :=
  match st.deadRecipients.find? fun r => r.HasId id with
  | none => (none, .deadObject, st)
  | some recipient =>
    match st.remotes recipient.proxy with
    | none => (none, .deadObject, st)
    | some r =>
      let (called, r) := sendObituary r
      (some (recipient.proxy, called), .ok,
        { setRemote st recipient.proxy r with
          deadRecipients := st.deadRecipients.eraseP fun r => r.HasId id })

/-- `ClientImpl::ProcessAndExecuteCommand`, for a DeadBinder with this payload. -/
def processDeadBinder (st : ClientState) (payload : List UInt8) :
    Except Exn (Option (ℕ × List ℕ) × Status × ClientState) := do
  let reader : BinaryReader := { buffer := payload, current := 0 }
  let (_, reader) ← reader.readUint64
  let (id, _) ← reader.readUint64
  return notifyRecipient st id

/-- The calls that register an object or a recipient, or call it off. -/
inductive Call where
  | requestDeathNotification (handle proxy : ℕ)
  | clearDeathNotification (handle proxy : ℕ)
  | linkToDeath (obj recipient : ℕ)
  | unlinkToDeath (obj recipient : ℕ)
deriving DecidableEq

/-- The call by its name. -/
def call (server : Server) (st : ClientState) : Call → Except Exn ℤ × ClientState
  | .requestDeathNotification handle proxy => requestDeathNotification server st handle proxy
  | .clearDeathNotification handle proxy => clearDeathNotification server st handle proxy
  | .linkToDeath obj recipient => linkToDeath server st obj recipient
  | .unlinkToDeath obj recipient => unlinkToDeath server st obj recipient

/-- The object that is told of a death, with the recipients it tells. -/
def notified (st : ClientState) (payload : List UInt8) : Except Exn (Option (ℕ × List ℕ)) :=
  (processDeadBinder st payload).map (·.1)

/-- **Atomicity.** If the call returns a status other than `OK`, the recipients are what they were,
and the same objects are told of a death as before the call. -/
def AtomicOnFailure (server : Server) (st : ClientState) (c : Call) : Prop :=
  ∀ status, (call server st c).1 = .ok status → status ≠ 0 →
    (call server st c).2.deadRecipients = st.deadRecipients ∧
      ∀ payload, notified (call server st c).2 payload = notified st payload

/-! ### The calls that are atomic -/

/-- The status in the server's answer is not `OK`. -/
def Refused (server : Server) (msg : Message) : Prop :=
  ∃ status, statusOf (server msg) = .ok status ∧ status ≠ 0

/-- The server does not refuse a death notification. -/
def RequestHarmless (server : Server) (st : ClientState) (handle proxy : ℕ) : Prop :=
  ¬ Refused server (deathMessage .requestDeathNotification handle
    (st.translator.translateOrAddObject proxy).1)

/-- If the proxy is a recipient, it waits for other handles only, or the server does not refuse. -/
def ClearHarmless (server : Server) (st : ClientState) (handle proxy : ℕ) : Prop :=
  st.translator.translateObject proxy ≠ ObjectTranslator.invalid →
    ∀ r, (st.deadRecipients.find? fun r => r.HasId (st.translator.translateObject proxy)) = some r →
      (handle ∉ r.handles ∧ r.handles ≠ []) ∨
        ¬ Refused server (deathMessage .clearDeathNotification handle
          (st.translator.translateObject proxy))

/-- The condition on the call: `LinkToDeath` and `UnlinkToDeath` are harmless also if they return
before they ask. -/
def Harmless (server : Server) (st : ClientState) : Call → Prop
  | .requestDeathNotification handle proxy => RequestHarmless server st handle proxy
  | .clearDeathNotification handle proxy => ClearHarmless server st handle proxy
  | .linkToDeath obj _ => ∀ r, st.remotes obj = some r → r.obituariesSent = false →
    RequestHarmless server st r.handle obj
  | .unlinkToDeath obj recipient => ∀ r, st.remotes obj = some r → r.obituariesSent = false →
    recipient ∈ r.obituaries → ClearHarmless server st r.handle obj

/-! ### What happens to the list -/

theorem addHandle_ne (id handle proxy : ℕ) (rs : List DeadRecipient) :
    addHandle id handle proxy rs ≠ rs := by
  induction rs with
  | nil => exact List.cons_ne_nil _ _
  | cons r rs ih =>
    rw [addHandle]
    split_ifs
    · intro h
      have hhandles := congrArg (·.handles.length) (List.cons.inj h).1
      simp at hhandles
    · exact fun h => ih (List.cons.inj h).2

theorem dropHandle_eq_iff {id handle : ℕ} {rs : List DeadRecipient} {r : DeadRecipient}
    (hr : (rs.find? fun r => r.HasId id) = some r) :
    dropHandle id handle rs = rs ↔ handle ∉ r.handles ∧ r.handles ≠ [] := by
  induction rs with
  | nil => cases hr
  | cons r' rs ih =>
    rw [List.find?_cons] at hr
    rw [dropHandle]
    by_cases hid : r'.HasId id
    · simp only [hid, decide_true, Option.some.injEq] at hr
      subst hr
      rw [if_pos hid]
      by_cases hmem : handle ∈ r'.handles
      · -- one handle less, or one recipient less
        have hlen := List.length_erase_of_mem hmem
        have hpos := List.length_pos_of_mem hmem
        refine ⟨fun h => ?_, fun h => absurd hmem h.1⟩
        simp only at h
        split_ifs at h with h0
        · have := congrArg List.length h
          simp at this
        · have := congrArg (·.handles.length) (List.cons.inj h).1
          simp only at this
          omega
      · rw [List.erase_of_not_mem hmem]
        by_cases h0 : r'.handles = []
        · simp [h0]
        · simp [h0, hmem]
    · simp only [hid, decide_false] at hr
      rw [if_neg hid, List.cons.injEq, ih hr]
      simp

/-! ### Calls that fail -/

/-- The list is kept if the call fails. -/
def ListKept (st : ClientState) (r : Except Exn ℤ × ClientState) : Prop :=
  ∀ status, r.1 = .ok status → status ≠ 0 → r.2.deadRecipients = st.deadRecipients

theorem ListKept.refl (st : ClientState) (status : Except Exn ℤ) : ListKept st (status, st) :=
  fun _ _ _ => rfl

theorem onOk_of_ne {f : ClientState → ClientState} {r : Except Exn ℤ × ClientState}
    (h : r.1 ≠ .ok 0) : onOk f r = r := by
  obtain ⟨status, st⟩ := r
  unfold onOk
  split
  · next hr => exact absurd (congrArg Prod.fst hr) h
  · next hr => exact hr.symm

theorem onOk_fst (f : ClientState → ClientState) (r : Except Exn ℤ × ClientState) :
    (onOk f r).1 = r.1 := by
  unfold onOk
  split <;> rfl

theorem listKept_onOk_iff {f : ClientState → ClientState} {st : ClientState}
    {r : Except Exn ℤ × ClientState} : ListKept st (onOk f r) ↔ ListKept st r := by
  unfold ListKept
  rw [onOk_fst]
  refine forall_congr' fun status => forall_congr' fun hs => forall_congr' fun hne => ?_
  rw [onOk_of_ne]
  rw [hs]
  exact fun h => hne (Except.ok.inj h)

section Calls

variable {server : Server} {st : ClientState}

theorem listKept_request_iff {handle proxy : ℕ} :
    ListKept st (requestDeathNotification server st handle proxy) ↔
      RequestHarmless server st handle proxy := by
  constructor
  · rintro h ⟨status, hs, hne⟩
    exact addHandle_ne _ _ _ _ (h status hs hne)
  · intro h status hs hne
    exact absurd ⟨status, hs, hne⟩ h

theorem listKept_clear_iff {handle proxy : ℕ} :
    ListKept st (clearDeathNotification server st handle proxy) ↔
      ClearHarmless server st handle proxy := by
  unfold clearDeathNotification ClearHarmless
  by_cases hid : st.translator.translateObject proxy = ObjectTranslator.invalid
  · rw [if_pos hid]
    exact ⟨fun _ hne => absurd hid hne, fun _ => .refl _ _⟩
  rw [if_neg hid]
  cases hr : st.deadRecipients.find? fun r =>
      r.HasId (st.translator.translateObject proxy) with
  | none =>
    refine ⟨fun _ _ r hr => ?_, fun _ => .refl _ _⟩
    cases hr
  | some r =>
    constructor
    · intro h _ r' hr'
      cases hr'
      by_cases hrefused : Refused server (deathMessage .clearDeathNotification handle
          (st.translator.translateObject proxy))
      · obtain ⟨status, hs, hne⟩ := hrefused
        exact .inl ((dropHandle_eq_iff hr).mp (h status hs hne))
      · exact .inr hrefused
    · intro h status hs hne
      rcases h hid r rfl with h | h
      · exact (dropHandle_eq_iff hr).mpr h
      · exact absurd ⟨status, hs, hne⟩ h

theorem listKept_linkToDeath_iff {obj recipient : ℕ} :
    ListKept st (linkToDeath server st obj recipient) ↔
      ∀ r, st.remotes obj = some r → r.obituariesSent = false →
        RequestHarmless server st r.handle obj := by
  unfold linkToDeath
  cases st.remotes obj with
  | none => simp [ListKept.refl]
  | some r =>
    cases hsent : r.obituariesSent with
    | true => simp [hsent, ListKept.refl]
    | false => simp [hsent, listKept_onOk_iff, listKept_request_iff]

theorem listKept_unlinkToDeath_iff {obj recipient : ℕ} :
    ListKept st (unlinkToDeath server st obj recipient) ↔
      ∀ r, st.remotes obj = some r → r.obituariesSent = false → recipient ∈ r.obituaries →
        ClearHarmless server st r.handle obj := by
  unfold unlinkToDeath
  cases st.remotes obj with
  | none => simp [ListKept.refl]
  | some r =>
    cases hsent : r.obituariesSent with
    | true => simp [hsent, ListKept.refl]
    | false =>
      by_cases hmem : recipient ∈ r.obituaries
      · simp [hsent, hmem, listKept_onOk_iff, listKept_clear_iff]
      · simp [hsent, hmem, ListKept.refl]

theorem listKept_iff (server : Server) (st : ClientState) (c : Call) :
    ListKept st (call server st c) ↔ Harmless server st c := by
  cases c with
  | requestDeathNotification handle proxy => exact listKept_request_iff
  | clearDeathNotification handle proxy => exact listKept_clear_iff
  | linkToDeath obj recipient => exact listKept_linkToDeath_iff
  | unlinkToDeath obj recipient => exact listKept_unlinkToDeath_iff

theorem remotes_clearDeathNotification (handle proxy : ℕ) :
    (clearDeathNotification server st handle proxy).2.remotes = st.remotes := by
  simp only [clearDeathNotification]
  split_ifs
  · rfl
  · split <;> rfl

theorem remotes_of_failed {c : Call} {status : ℤ} (hs : (call server st c).1 = .ok status)
    (hne : status ≠ 0) : (call server st c).2.remotes = st.remotes := by
  have hfailed : ∀ {f r}, (onOk f r).1 = .ok status → onOk f r = r := fun {f r} h => by
    rw [onOk_fst] at h
    refine onOk_of_ne ?_
    rw [h]
    exact fun h0 => hne (Except.ok.inj h0)
  cases c with
  | requestDeathNotification handle proxy => rfl
  | clearDeathNotification handle proxy => exact remotes_clearDeathNotification handle proxy
  | linkToDeath obj recipient =>
    simp only [call, linkToDeath] at hs ⊢
    split at hs
    · rfl
    · split_ifs at hs ⊢
      · rfl
      · rw [hfailed hs]
        rfl
  | unlinkToDeath obj recipient =>
    simp only [call, unlinkToDeath] at hs ⊢
    split at hs
    · rfl
    · split_ifs at hs ⊢
      · rfl
      · rw [hfailed hs]
        exact remotes_clearDeathNotification _ _
      · rfl

end Calls

theorem notified_congr {st st' : ClientState} (hd : st'.deadRecipients = st.deadRecipients)
    (hr : st'.remotes = st.remotes) (payload : List UInt8) :
    notified st' payload = notified st payload := by
  have hid : ∀ id, (notifyRecipient st' id).1 = (notifyRecipient st id).1 := by
    intro id
    unfold notifyRecipient
    rw [hd, hr]
    split
    · rfl
    · split <;> rfl
  simp only [notified, processDeadBinder, bind, Except.bind]
  split
  · rfl
  · split
    · rfl
    · simp only [pure, Except.pure, Except.map, hid]

/-- **When a call is atomic**: it gives up before it edits the list, or its edit changes nothing, or
the server does not refuse. -/
theorem atomic_iff (server : Server) (st : ClientState) (c : Call) :
    AtomicOnFailure server st c ↔ Harmless server st c := by
  rw [← listKept_iff]
  constructor
  · exact fun h status hs hne => (h status hs hne).1
  · intro h status hs hne
    exact ⟨h status hs hne, notified_congr (h status hs hne) (remotes_of_failed hs hne)⟩

/-- A server that answers every request with the status. -/
def answering (status : Status) : Server := fun _ =>
  .ok (some (leBytes 4 (status.toInt % 2 ^ 32).toNat))

/-- The object at `0x100` has the recipient `0xa`, and has been registered. -/
def linked : ClientState :=
  (linkToDeath (answering .ok)
    { remotes := fun obj => if obj = 0x100 then some { handle := 7 } else none } 0x100 0xa).2

/-- The payload of a DeadBinder. -/
def deadBinder (handle id : ℕ) : List UInt8 := leBytes 8 handle ++ leBytes 8 id

/-- A second recipient is refused, and the object waits for its handle twice. The server refuses to
call the notification off, and the first recipient will not be told of the death. -/
theorem edits_are_kept :
    linked.deadRecipients = [⟨1, 0x100, [7]⟩] ∧
      notified linked (deadBinder 7 1) = .ok (some (0x100, [0xa])) ∧
      (linkToDeath (answering .alreadyExists) linked 0x100 0xb).1 = .ok 239 ∧
      (linkToDeath (answering .alreadyExists) linked 0x100 0xb).2.deadRecipients =
        [⟨1, 0x100, [7, 7]⟩] ∧
      (unlinkToDeath (answering .badValue) linked 0x100 0xa).1 = .ok 234 ∧
      (unlinkToDeath (answering .badValue) linked 0x100 0xa).2.deadRecipients = [] ∧
      notified (unlinkToDeath (answering .badValue) linked 0x100 0xa).2 (deadBinder 7 1) =
        .ok none ∧
      ¬ AtomicOnFailure (answering .alreadyExists) linked (.linkToDeath 0x100 0xb) ∧
      ¬ AtomicOnFailure (answering .badValue) linked (.unlinkToDeath 0x100 0xa) := by
  refine ⟨by decide +kernel, rfl, rfl, by decide +kernel, rfl, by decide +kernel, rfl,
    fun h => ?_, fun h => ?_⟩
  · have := (h 239 rfl (by decide)).1
    revert this
    decide +kernel
  · have := (h 234 rfl (by decide)).1
    revert this
    decide +kernel

end Binderd.Clients.Recipients
