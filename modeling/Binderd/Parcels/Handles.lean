import Binderd.Broker.Translation
import Binderd.Clients.Packing
import Binderd.Clients.Recipients
import Binderd.Parcels.Reader

/-! # The way of a handle

A handle is drawn from a counter of 64 bits. `TranslateObjects` writes it into the 32 bits that a
`flat_binder_object` has for it, `ReadObject` makes a `RemoteObject` with 64 bits of it again, and
`ClientImpl::Transact` takes it as an `int32_t`, so that the destination of the message, of 64 bits,
is its sign extension.

The destination is the handle that was drawn if this is below `2 ^ 31`, or so large that the sign
extension gives the lost half back (`destination_iff`). -/

namespace Binderd.Parcels.Handles

open Binderd.Lib.Bytes Binderd.Lib.Tables
open Binderd.Wire.Streams Binderd.Wire.Messages Binderd.Wire.Transactions
open Binderd.Broker.State Binderd.Broker.Handles Binderd.Broker.Sessions
open Binderd.Broker.Translation
open Binderd.Clients.Translator Binderd.Clients.Handlers Binderd.Clients.Packing
open Binderd.Clients.Recipients Binderd.Parcels.Reader

/-! ### The calls -/

/-- The message that `ClientImpl::Transact` sends, for an `int32_t` handle, if the translation of
the request returns. -/
def requestMessage (t : ObjectTranslator) (handle : BitVec 32) (cookie : ℕ)
    (request : Transaction) : Option Message := do
  let (_, _, m) ← processTransaction .Out request.tr t request.mem
  return {
    type := .transaction
    destination := (handle.signExtend 64).toNat
    cookie := cookie
    data := payloadOf { request with mem := m } }

/-- `RemoteObject::Transact`, up to the message. -/
def remoteObjectTransact (t : ObjectTranslator) (o : RemoteObject) (cookie : ℕ)
    (request : Transaction) : Option Message :=
  requestMessage t (BitVec.ofNat 32 o.handle) cookie request

/-- A reader stands before the object that is at `p` in `m`. -/
structure Delivered (m : Mem) (p : ℕ) (r : BinaryReader) : Prop where
  bytes : slice (ofList r.buffer) r.current 24 = slice m p 24
  inside : r.current + 24 ≤ r.buffer.length
  padding : r.usePadding = true

/-- The registry after these sessions have drawn a handle each. -/
def registryAfter (sessions : List SessionId) : Registry :=
  sessions.foldl (fun r s => (newObjectHandle r s).2) {}

theorem newObjectHandle_registryAfter (sessions : List SessionId) (s : SessionId) :
    (newObjectHandle (registryAfter sessions) s).1 = (sessions.length + 1) % 2 ^ 64 := by
  have hnext : ∀ (sessions : List SessionId) (r : Registry),
      (sessions.foldl (fun r s => (newObjectHandle r s).2) r).nextObjectHandle =
        r.nextObjectHandle + sessions.length := by
    intro sessions
    induction sessions with
    | nil => exact fun _ => rfl
    | cons s sessions ih =>
      intro r
      rw [List.foldl_cons, ih, List.length_cons]
      simp only [newObjectHandle]
      omega
  rw [newObjectHandle, registryAfter, hnext, Nat.add_comm]

/-! ### What is lost -/

/-- Sign extension gives back what the conversion to `int32_t` took. -/
def Recovers (handle : ℕ) : Prop := handle < 2 ^ 31 ∨ 2 ^ 64 - 2 ^ 31 ≤ handle

instance (handle : ℕ) : Decidable (Recovers handle) := by
  unfold Recovers
  infer_instance

theorem toNat_signExtend_ofNat (n : ℕ) : ((BitVec.ofNat 32 n).signExtend 64).toNat =
    n % 2 ^ 32 + if n % 2 ^ 32 < 2 ^ 31 then 0 else 2 ^ 64 - 2 ^ 32 := by
  rw [BitVec.toNat_signExtend, BitVec.toNat_setWidth, BitVec.toNat_ofNat,
    Nat.mod_eq_of_lt (show n % 2 ^ 32 < 2 ^ 64 by omega), BitVec.msb_eq_decide,
    BitVec.toNat_ofNat]
  by_cases h : n % 2 ^ 32 < 2 ^ 31
  · rw [if_pos h, decide_eq_false (by omega), if_neg Bool.false_ne_true]
  · rw [if_neg h, decide_eq_true (by omega), if_pos rfl]

/-- The destination of a request, if the client survives its translation. -/
theorem destination_requestMessage {request : Transaction} {t : ObjectTranslator}
    {handle : BitVec 32} {cookie : ℕ} {msg : Message}
    (h : requestMessage t handle cookie request = some msg) :
    msg.destination = (handle.signExtend 64).toNat := by
  obtain ⟨r, -, hr⟩ := Option.bind_eq_some_iff.mp h
  cases hr
  rfl

theorem requestMessage_eq_none {request : Transaction} {t : ObjectTranslator}
    {handle : BitVec 32} {cookie : ℕ} :
    requestMessage t handle cookie request = none ↔ request.tr.ListsNull := by
  unfold requestMessage processTransaction
  split_ifs with h <;> simp [h]

theorem signExtend_eq_iff {handle : ℕ} (h : handle < 2 ^ 64) :
    ((BitVec.ofNat 32 handle).signExtend 64).toNat = handle ↔ Recovers handle := by
  rw [toNat_signExtend_ofNat, Recovers]
  split_ifs <;> omega

/-- An exported object is read as a proxy, with the low half of the handle. -/
theorem readObject_exported {self : SessionId} {st st' : ServerState} {m m' : Mem} {p : ℕ}
    (htranslate : translateObject self st m p = some (st', m'))
    (hbinder : objType m p = some .binder) {r : BinaryReader}
    (hr : Delivered m' p r) (pool : Option ObjectPool) :
    ∃ r', readObject r pool =
      .ok (.remoteObject ((newObjectHandle st.registry self).1 % 2 ^ 32), r') := by
  have hm' : m' = toHandle m p (newObjectHandle st.registry self).1 := by
    simp only [translateObject, hbinder, Option.some.injEq, Prod.mk.injEq] at htranslate
    exact htranslate.2.symm
  have htype : objType (ofList r.buffer) r.current = some .handle := by
    have hload := load_of_slice_eq hr.bytes (show 0 + 4 ≤ 24 by omega)
    rw [← objType_toHandle m p (newObjectHandle st.registry self).1, ← hm', objType, objType]
    exact congrArg _ hload
  have hhandle : objHandle (ofList r.buffer) r.current =
      (newObjectHandle st.registry self).1 % 2 ^ 32 := by
    rw [← objHandle_toHandle m p, ← hm']
    exact load_of_slice_eq hr.bytes (show 8 + 4 ≤ 24 by omega)
  have hread := BinaryReader.readData_of_padding r 24 hr.padding (by omega) hr.inside
  refine ⟨{ r with current := r.current + 24 }, ?_⟩
  simp only [readObject, hread, bind, Except.bind, htype, hhandle]
  rfl

/-- **The destination is the handle that was drawn exactly if the sign extension recovers it.** A
request is sent unless it lists an object for no data. -/
theorem destination_iff {self : SessionId} {st st' : ServerState} {m m' : Mem} {p : ℕ}
    (htranslate : translateObject self st m p = some (st', m'))
    (hbinder : objType m p = some .binder) {r : BinaryReader}
    (hr : Delivered m' p r) (pool : Option ObjectPool) (t : ObjectTranslator) (cookie : ℕ)
    (request : Transaction) :
    ∃ handle r', readObject r pool = .ok (.remoteObject handle, r') ∧
      (remoteObjectTransact t { handle := handle } cookie request = none ↔
        request.tr.ListsNull) ∧
      ∀ msg, remoteObjectTransact t { handle := handle } cookie request = some msg →
        (msg.destination = (newObjectHandle st.registry self).1 ↔
          Recovers (newObjectHandle st.registry self).1) := by
  obtain ⟨r', hread⟩ := readObject_exported htranslate hbinder hr pool
  refine ⟨_, r', hread, requestMessage_eq_none, fun msg hmsg => ?_⟩
  have hlt : (newObjectHandle st.registry self).1 < 2 ^ 64 := Nat.mod_lt _ (by omega)
  rw [← signExtend_eq_iff hlt, destination_requestMessage hmsg]
  simp only [toNat_signExtend_ofNat, Nat.mod_mod]

/-! ### Two handles -/

/-- An object that is exported. -/
def localMemory : Mem := ofList (flatBinderObject .binder 0 7 9)

theorem translateObject_localMemory (self : SessionId) (st : ServerState) :
    translateObject self st localMemory 0 = some ((exportObject st self ⟨7, 9⟩).2,
      toHandle localMemory 0 (newObjectHandle st.registry self).1) := by
  have htype : objType localMemory 0 = some .binder := rfl
  have hbinder : objBinder localMemory 0 = 7 := rfl
  have hcookie : objCookie localMemory 0 = 9 := rfl
  simp only [translateObject, htype, hbinder, hcookie]
  rfl

theorem delivered_slice (m : Mem) : Delivered m 0 ⟨slice m 0 24, 0, true⟩ where
  bytes := by
    have h := slice_ofList_append [] (slice m 0 24) []
    rwa [length_slice, List.append_nil] at h
  inside := (length_slice m 0 24).ge
  padding := rfl

/-- The first handle, `1`. -/
theorem destination_iff_first :
    ∃ handle r' msg, readObject ⟨slice (toHandle localMemory 0 1) 0 24, 0, true⟩ none =
        .ok (.remoteObject handle, r') ∧
      remoteObjectTransact .initial { handle := handle } 0 ⟨parcel [] [], parcelMemory [] []⟩ =
        some msg ∧ (msg.destination = 1 ↔ Recovers 1) := by
  obtain ⟨handle, r', hread, hnone, hdest⟩ := destination_iff (translateObject_localMemory 0 {})
    rfl (delivered_slice _) none .initial 0 ⟨parcel [] [], parcelMemory [] []⟩
  have hn : ¬ (parcel [] []).ListsNull := by decide
  obtain ⟨msg, hmsg⟩ := Option.ne_none_iff_exists'.mp fun h => hn (hnone.mp h)
  exact ⟨handle, r', msg, hread, hmsg, hdest msg hmsg⟩

/-- The registry after `2 ^ 31 - 1` objects. -/
def usedRegistry : Registry := registryAfter (List.replicate (2 ^ 31 - 1) 0)

/-- The next object gets a handle that `int32_t` takes for a negative number. -/
theorem handle_turns_negative :
    (newObjectHandle usedRegistry 0).1 = 2 ^ 31 ∧
      ∃ handle r' msg, readObject ⟨slice (toHandle localMemory 0
          (newObjectHandle usedRegistry 0).1) 0 24, 0, true⟩ none =
            .ok (.remoteObject handle, r') ∧
        remoteObjectTransact .initial { handle := handle } 0 ⟨parcel [] [], parcelMemory [] []⟩ =
          some msg ∧ msg.destination = 2 ^ 64 - 2 ^ 31 := by
  have hread : ∀ registry : Registry, ∃ r', readObject
      ⟨slice (toHandle localMemory 0 (newObjectHandle registry 0).1) 0 24, 0, true⟩ none =
        .ok (.remoteObject ((newObjectHandle registry 0).1 % 2 ^ 32), r') := fun registry =>
    readObject_exported (translateObject_localMemory 0 { registry := registry }) rfl
      (delivered_slice _) none
  have hhandle : (newObjectHandle usedRegistry 0).1 = 2 ^ 31 := by
    rw [usedRegistry, newObjectHandle_registryAfter, List.length_replicate]
    norm_num
  obtain ⟨r', hr'⟩ := hread usedRegistry
  rw [hhandle] at hr' ⊢
  have hne : requestMessage .initial (BitVec.ofNat 32 (2 ^ 31 % 2 ^ 32)) 0
      ⟨parcel [] [], parcelMemory [] []⟩ ≠ none := fun h =>
    absurd (requestMessage_eq_none.mp h) (by decide)
  obtain ⟨msg, hmsg⟩ := Option.ne_none_iff_exists'.mp hne
  refine ⟨rfl, _, r', msg, hr', hmsg, ?_⟩
  rw [destination_requestMessage hmsg, toNat_signExtend_ofNat]
  norm_num

end Binderd.Parcels.Handles
