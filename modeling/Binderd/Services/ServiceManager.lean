import Binderd.Parcels.Reader

/-! # `ServiceManagerService`

The service manager maps names to objects. `AddService` refuses a name that is taken, but not an
object that has a name; it links its death handler to the object and does not look at what
`LinkToDeath` returns. `OnTransact` makes the calls for a client.

When an object dies `OnObjectDied` walks the map, erases the first entry with the object and
stops. The order of the walk is the one of the entries of the table, whichever this is. If the
object had one name the names are as if it had never been there (`forgets_iff`); of two names one
stays. -/

namespace Binderd.Services.ServiceManager

open Binderd.Lib.Bytes Binderd.Lib.Tables
open Binderd.Wire.Streams Binderd.Wire.Messages Binderd.Wire.Transactions Binderd.Wire.Strings
open Binderd.Clients.Handlers Binderd.Parcels.Writer Binderd.Parcels.Reader

/-! ### The service -/

/-- A `std::string`. -/
abbrev Name := List UInt8

/-- The map, and the objects that the death handler has been linked to. -/
structure ServiceManagerService where
  services : Table Name Object := ∅
  linked : List Object := []

/-- `AddService`. The object may be a null pointer. -/
def addService (s : ServiceManagerService) (name : Name) (object : Option Object) :
    Status × ServiceManagerService :=
  match object with
  | none => (.badValue, s)
  | some object =>
    if name ∈ s.services then (.badValue, s)
    else (.ok, { services := insertNew s.services name object, linked := s.linked ++ [object] })

/-- `GetService`. -/
def getService (s : ServiceManagerService) (name : Name) : Status × Option Object :=
  match s.services.lookup name with
  | none => (.badValue, none)
  | some object => (.ok, some object)

/-- `ListServices`: the names, in the order of the map. -/
def listServices (s : ServiceManagerService) : Status × List Name := (.ok, s.services.keys)

/-- `OnObjectDied`. -/
def onObjectDied (s : ServiceManagerService) (who : Object) : ServiceManagerService :=
  match keyOf s.services who with
  | some name => { s with services := s.services.erase name }
  | none => s

/-! ### Transactions -/

/-- `kInterfaceName`. -/
def interfaceName : Name :=
  ['a', 'n', 'd', 'r', 'o', 'i', 'd', '.', 'o', 's', '.', 'I', 'S', 'e', 'r', 'v', 'i', 'c', 'e',
    'M', 'a', 'n', 'a', 'g', 'e', 'r'].flatMap String.utf8EncodeChar

/-- The codes of the requests, from `kFirstTransactionCode` on. -/
def getServiceTransaction : ℕ := 1
def checkServiceTransaction : ℕ := 2
def addServiceTransaction : ℕ := 3
def listServicesTransaction : ℕ := 4

/-- The object that `ReadObject` returns; one that it creates is at `address`. -/
def objectOfRead (address : UInt64) : ReadResult → Option Object
  | .remoteObject handle => some (.remoteObject address (UInt64.ofNat handle))
  | .pooled obj => some (.localObject (UInt64.ofNat obj))
  | .localObject => some (.localObject address)
  | .nullptr => none

/-- What `OnTransact` leaves: its status, the reply, and the state of the service and of the pools
of the clients. -/
structure Transacted where
  status : Status
  reply : Option Transaction
  service : ServiceManagerService
  pools : ℕ → ObjectPool

/-- `OnTransact`, for a client with a pool. -/
def onTransact (s : ServiceManagerService) (client : ℕ) (pools : ℕ → ObjectPool)
    (address : UInt64) (request : Transaction) : Except Exn Transacted := do
  let reader := readerOf request
  if request.tr.code = addServiceTransaction then
    let (_, reader) ← enforceInterface reader interfaceName
    let (str, reader) ← reader.readString16
    let name ← toString8 str
    let (obj, reader) ← readObject reader (some (pools client))
    let (_allowIsolated, _) ← reader.readInt32
    match addService s name (objectOfRead address obj) with
    | (.ok, s) =>
      let st := writeInt32 { pools := pools } Status.ok.toInt
      return ⟨.ok, some (finalize st.writer), s, pools⟩
    | (status, s) => return ⟨status, none, s, pools⟩
  else if request.tr.code = checkServiceTransaction ∨ request.tr.code = getServiceTransaction then
    let (_, reader) ← enforceInterface reader interfaceName
    let (str, _) ← reader.readString16
    let name ← toString8 str
    match getService s name with
    | (.ok, none) => return ⟨.deadObject, none, s, pools⟩
    | (.ok, some obj) =>
      match writeObject { pools := pools } client obj with
      | (_, some e) => .error e
      | (st, none) => return ⟨.ok, some (finalize st.writer), s, st.pools⟩
    | (status, _) => return ⟨status, none, s, pools⟩
  else if request.tr.code = listServicesTransaction then
    match listServices s with
    | (.ok, services) =>
      let (_, reader) ← enforceInterface reader interfaceName
      let (n, _) ← reader.readInt32
      match services[n]? with
      | none => return ⟨.badValue, none, s, pools⟩
      | some name =>
        match writeString { pools := pools } name with
        | (_, some e) => .error e
        | (st, none) => return ⟨.ok, some (finalize st.writer), s, pools⟩
    | (status, _) => return ⟨status, none, s, pools⟩
  else return ⟨.unknownTransaction, none, s, pools⟩

/-! ### Sequences of calls -/

/-- The service after calls of `AddService`. -/
def addServices (s : ServiceManagerService) (calls : List (Name × Option Object)) :
    ServiceManagerService :=
  calls.foldl (fun s call => (addService s call.1 call.2).2) s

/-- The maps differ by the order of their entries. -/
def SameEntries (s s' : ServiceManagerService) : Prop :=
  s'.services.entries.Perm s.services.entries

/-- The object has left the map, and its names are free. -/
structure Forgets (s s' : ServiceManagerService) (who : Object) : Prop where
  gone : ∀ name, s'.services.lookup name ≠ some who
  kept : ∀ name obj, obj ≠ who → s.services.lookup name = some obj →
    getService s' name = (.ok, some obj)
  free : ∀ name, s.services.lookup name = some who → ∀ obj,
    (addService s' name (some obj)).1 = .ok ∧
      getService (addService s' name (some obj)).2 name = (.ok, some obj)

theorem getService_of_lookup {s : ServiceManagerService} {name : Name} {obj : Object}
    (h : s.services.lookup name = some obj) : getService s name = (.ok, some obj) := by
  rw [getService, h]

theorem addService_of_not_mem {s : ServiceManagerService} {name : Name}
    (h : name ∉ s.services) (obj : Object) :
    (addService s name (some obj)).1 = .ok ∧
      getService (addService s name (some obj)).2 name = (.ok, some obj) := by
  simp only [addService, if_neg h, true_and]
  exact getService_of_lookup (lookup_insertNew_self h)

theorem Forgets.congr {s t s' : ServiceManagerService} {who : Object}
    (hl : ∀ name, t.services.lookup name = s.services.lookup name) (h : Forgets s s' who) :
    Forgets t s' who :=
  ⟨h.gone, fun name obj ho hn => h.kept name obj ho (hl name ▸ hn),
    fun name hn => h.free name (hl name ▸ hn)⟩

/-- What `OnObjectDied` does: nothing, or one of the names of the object is erased. -/
theorem onObjectDied_cases (s : ServiceManagerService) (who : Object) :
    (∀ name, s.services.lookup name ≠ some who) ∧ onObjectDied s who = s ∨
      ∃ name, s.services.lookup name = some who ∧
        onObjectDied s who = { s with services := s.services.erase name } := by
  unfold onObjectDied
  cases hkey : keyOf s.services who with
  | none => exact .inl ⟨keyOf_eq_none_iff.mp hkey, rfl⟩
  | some name => exact .inr ⟨name, lookup_keyOf hkey, rfl⟩

/-- The object has one name at most. -/
def OneName (s : ServiceManagerService) (who : Object) : Prop :=
  ∀ name name', s.services.lookup name = some who → s.services.lookup name' = some who →
    name = name'

theorem forgets_onObjectDied_iff (s : ServiceManagerService) (who : Object) :
    Forgets s (onObjectDied s who) who ↔ OneName s who := by
  rcases onObjectDied_cases s who with ⟨hnone, heq⟩ | ⟨name, hname, heq⟩
  · rw [heq]
    refine iff_of_true ⟨hnone, fun _ _ _ h => getService_of_lookup h, fun name h => ?_⟩
      fun name _ h => ?_
    · exact absurd h (hnone name)
    · exact absurd h (hnone name)
  · rw [heq]
    constructor
    · intro h n n' hn hn'
      have hone : ∀ n, s.services.lookup n = some who → n = name := fun n hn => by
        by_contra hne
        exact h.gone n (lookup_erase_eq_some.mpr ⟨hne, hn⟩)
      rw [hone n hn, hone n' hn']
    · intro h
      refine ⟨fun n hn => ?_, fun n obj hobj hn => ?_, fun n hn obj => ?_⟩
      · obtain ⟨hne, hn⟩ := lookup_erase_eq_some.mp hn
        exact hne (h n name hn hname)
      · refine getService_of_lookup (lookup_erase_eq_some.mpr ⟨fun hne => ?_, hn⟩)
        rw [hne, hname] at hn
        exact hobj (Option.some.inj hn).symm
      · rw [h n name hn hname]
        exact addService_of_not_mem (fun hmem => (AList.mem_erase.mp hmem).1 rfl) obj

/-- **The names of an object that has died disappear exactly if it had one name at most**, after any
calls of `AddService`, and in whichever order the map is walked. -/
theorem forgets_iff {calls : List (Name × Option Object)} {s : ServiceManagerService}
    (hs : SameEntries (addServices {} calls) s) (who : Object) :
    Forgets (addServices {} calls) (onObjectDied s who) who ↔
      OneName (addServices {} calls) who := by
  have hl : ∀ name, s.services.lookup name = (addServices {} calls).services.lookup name :=
    fun name => AList.perm_lookup hs
  have h := forgets_onObjectDied_iff s who
  simp only [OneName, hl] at h
  rw [OneName, ← h]
  exact ⟨.congr hl, .congr fun name => (hl name).symm⟩

/-- Two objects, each with a name, and a call that is refused. -/
def twoObjects : List (Name × Option Object) :=
  [([0x61], some (.remoteObject 0x100 1)), ([0x62], some (.remoteObject 0x200 2)),
    ([0x61], some (.remoteObject 0x200 2)), ([0x63], none)]

theorem forgets_iff_twoObjects :
    Forgets (addServices {} twoObjects)
        (onObjectDied (addServices {} twoObjects) (.remoteObject 0x200 2)) (.remoteObject 0x200 2) ↔
      OneName (addServices {} twoObjects) (.remoteObject 0x200 2) :=
  forgets_iff (List.Perm.refl _) _

/-- One object with two names. -/
def twoNames : List (Name × Option Object) :=
  [([0x61], some (.remoteObject 0x100 1)), ([0x62], some (.remoteObject 0x100 1))]

/-- One of them is still there when it has died, and cannot be registered again. -/
theorem name_of_dead_object :
    getService (onObjectDied (addServices {} twoNames) (.remoteObject 0x100 1)) [0x61] =
        (.ok, some (.remoteObject 0x100 1)) ∧
      (addService (onObjectDied (addServices {} twoNames) (.remoteObject 0x100 1)) [0x61]
        (some (.remoteObject 0x300 3))).1 = .badValue ∧
      ¬ Forgets (addServices {} twoNames)
        (onObjectDied (addServices {} twoNames) (.remoteObject 0x100 1))
        (.remoteObject 0x100 1) := by
  refine ⟨by decide, by decide, fun h => h.gone [0x61] (by decide)⟩

end Binderd.Services.ServiceManager
