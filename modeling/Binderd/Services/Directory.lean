import Binderd.Lib.Refinement
import Binderd.Services.Listing

/-! # The service manager as a directory

A directory is a partial map from names to objects. A name is entered if it is free, a name that has
been entered is found, and the names of an object that dies are free again. So a name stands for the
object that was entered last, if this has not died since (`lookup_iff_entered`).

The service manager serves the parcels of `ServiceManagerProxy`, as the broker delivers them: the
object of an `AddService` has become a handle. In every run, of calls of any clients and of deaths
of objects, what it answers is what the directory answers (`manager_refines_directory`), if no
object has two names when it dies, and if the names can be written into a parcel. No other request
enters a name or frees one. -/

namespace Binderd.Services.Directory

open Binderd.Lib.Bytes Binderd.Lib.Tables Binderd.Lib.Runs Binderd.Lib.Refinement
open Binderd.Wire.Streams Binderd.Wire.Messages Binderd.Wire.Transactions Binderd.Wire.Strings
open Binderd.Clients.Handlers Binderd.Parcels.Writer Binderd.Parcels.Reader
open Binderd.Services.ServiceManager Binderd.Services.Listing

/-! ### The directory -/

/-- Calls of `ServiceManagerProxy`. The service that is added is known by its handle. -/
inductive ProxyCall where
  | addService (name : Name) (handle : UInt64) (isolated : Bool)
  | getService (name : Name)
deriving DecidableEq

/-- What is to be seen of the service manager. -/
inductive DirectoryEvent where
  /-- A call, with the status and the data of the reply. A `RemoteObject` that is made for it is at
  `address`. -/
  | served (call : ProxyCall) (address : UInt64) (status : Status) (reply : Option (List UInt8))
  | died (who : Object)
deriving DecidableEq

/-- A directory of services: which object has which name. -/
abbrev AbstractDirectory := Name → Option Object

/-- The object has died. -/
def AbstractDirectory.forget (d : AbstractDirectory) (who : Object) : AbstractDirectory :=
  fun name => if d name = some who then none else d name

/-- What a directory may do. -/
inductive Step (d : AbstractDirectory) : List DirectoryEvent → AbstractDirectory → Prop
  | added {name handle isolated address} : d name = none →
      Step d [.served (.addService name handle isolated) address .ok (some (leBytes 4 0))]
        (Function.update d name (some (.remoteObject address handle)))
  | taken {name handle isolated address} : d name ≠ none →
      Step d [.served (.addService name handle isolated) address .badValue none] d
  | found {name o address} : d name = some o →
      Step d [.served (.getService name) address .ok (some (flatObject o))] d
  | missing {name address} : d name = none →
      Step d [.served (.getService name) address .badValue none] d
  | died {who} : Step d [.died who] (d.forget who)
  /-- A request for something else. -/
  | other : Step d [] d

/-- **The directory**: it is empty at first. -/
def directory : Spec AbstractDirectory (List DirectoryEvent) := ⟨fun _ => none, Step⟩

/-- A call that enters the object. -/
def Enters (name : Name) (o : Object) (e : DirectoryEvent) : Prop :=
  ∃ address handle isolated, o = .remoteObject address handle ∧
    e = .served (.addService name handle isolated) address .ok (some (leBytes 4 0))

/-- The object was entered, and has not died since. -/
def Entered (es : List DirectoryEvent) (name : Name) (o : Object) : Prop :=
  Since (Enters name o) (· ≠ .died o) es

/-- **What stands in the directory.** -/
theorem lookup_iff_entered {ls : List (List DirectoryEvent)} {d : AbstractDirectory}
    (ht : Trace directory directory.init ls d) (name : Name) (o : Object) :
    d name = some o ↔ Entered ls.flatten name o := by
  induction ht with
  | nil => exact iff_of_false nofun not_since_nil
  | snoc ht hstep ih =>
    rw [List.flatten_append, List.flatten_singleton]
    cases hstep with
    | @added name' handle isolated address hd =>
      rw [Entered, since_snoc, ← Entered, ← propext ih]
      by_cases hn : name = name'
      · subst hn
        simp only [Function.update_self, hd]
        constructor
        · rintro ⟨⟩
          exact .inl ⟨address, handle, isolated, rfl, rfl⟩
        · rintro (⟨a, h, i, rfl, ⟨⟩⟩ | ⟨⟨⟩, -⟩)
          rfl
      · rw [Function.update_of_ne hn]
        refine ⟨fun h => .inr ⟨h, nofun⟩, ?_⟩
        rintro (⟨a, h, i, -, ⟨⟩⟩ | ⟨h, -⟩)
        · exact absurd rfl hn
        · exact h
    | taken => simpa [Entered, since_snoc, Enters] using ih
    | found => simpa [Entered, since_snoc, Enters] using ih
    | missing => simpa [Entered, since_snoc, Enters] using ih
    | @died who =>
      rw [Entered, since_snoc, ← Entered, ← propext ih, AbstractDirectory.forget]
      split_ifs with hwho
      · refine iff_of_false nofun ?_
        rintro (⟨_, _, _, -, ⟨⟩⟩ | ⟨h, hne⟩)
        rw [hwho] at h
        cases h
        exact hne rfl
      · refine ⟨fun h => .inr ⟨h, ?_⟩, ?_⟩
        · rintro ⟨⟩
          exact hwho h
        · rintro (⟨_, _, _, -, ⟨⟩⟩ | ⟨h, -⟩)
          exact h
    | other => rwa [List.append_nil]

/-! ### The service manager -/

/-- The code of the request that the proxy sends. -/
def ProxyCall.code : ProxyCall → ℕ
  | .addService .. => addServiceTransaction
  | .getService _ => getServiceTransaction

/-- What the proxy writes. -/
def ProxyCall.writes : ProxyCall → List Write
  | .addService name handle isolated =>
    [.interfaceToken interfaceName 0, .string name, .object 0 (.remoteObject 0 handle),
      .int32 (if isolated then 1 else 0)]
  | .getService name => [.interfaceToken interfaceName 0, .string name]

/-- The request is the one of the call. -/
def Carries (c : ProxyCall) (request : Transaction) : Prop :=
  request.tr.code = c.code ∧
    slice request.mem request.tr.data.start request.tr.data.size = c.writes.flatMap chunk

instance (c : ProxyCall) (request : Transaction) : Decidable (Carries c request) :=
  inferInstanceAs (Decidable (_ ∧ _))

theorem code_write (st : ParcelState) (w : Write) :
    (write st w).1.writer.code = st.writer.code := by
  have hstring : ∀ (st : ParcelState) str, (writeString st str).1.writer.code = st.writer.code := by
    intro st str
    unfold writeString
    split <;> rfl
  cases w with
  | int32 value => rfl
  | interfaceToken name policy => exact hstring _ name
  | string16 str => rfl
  | string str => exact hstring st str
  | object client o =>
    cases o with
    | remoteObject address handle => rfl
    | localObject address =>
      simp only [write, writeObject]
      split_ifs
      · rfl
      · split <;> rfl

theorem carries_parcelOf (c : ProxyCall) (pools : ℕ → ObjectPool) :
    Carries c (finalize (parcelOf c.code pools c.writes).writer) := by
  have hcode : ∀ (ws : List Write) (st : ParcelState),
      (writeAll st ws).writer.code = st.writer.code := by
    intro ws
    induction ws with
    | nil => exact fun _ => rfl
    | cons w ws ih => exact fun st => (ih _).trans (code_write st w)
  have hreader := readerOf_finalize (parcelOf c.code pools c.writes).writer
  refine ⟨hcode c.writes _, ?_⟩
  rw [← parcelOf_data c.code pools c.writes]
  exact congrArg BinaryReader.buffer hreader

/-- The service, and the object pools of its clients. -/
structure Manager where
  service : ServiceManagerService := {}
  pools : ℕ → ObjectPool := fun _ => {}

/-- What can happen to the service manager. -/
inductive ManagerAction where
  /-- `OnTransact`, with the request of a call. A `RemoteObject` that is made is at `address`. -/
  | call (c : ProxyCall) (request : Transaction) (address : UInt64)
  /-- `OnTransact`, with a request that does not add a service. -/
  | other (request : Transaction) (address : UInt64)
  | died (who : Object)

/-- One step of the service manager. -/
def managerStep (m : Manager) : ManagerAction → Option (Manager × List DirectoryEvent)
  | .call c request address =>
    if Carries c request then
      match onTransact m.service 0 m.pools address request with
      | .error _ => some (m, [])
      | .ok r =>
        some (⟨r.service, r.pools⟩, [.served c address r.status (r.reply.map fun t =>
          slice t.mem t.tr.data.start t.tr.data.size)])
    else none
  | .other request address =>
    if request.tr.code ≠ addServiceTransaction then
      match onTransact m.service 0 m.pools address request with
      | .error _ => some (m, [])
      | .ok r => some (⟨r.service, r.pools⟩, [])
    else none
  | .died who => some ({ m with service := onObjectDied m.service who }, [.died who])

/-- **The service manager and its clients.** -/
def manager : Machine Manager ManagerAction DirectoryEvent := ⟨{}, managerStep⟩

/-- The steps of the service manager, as its histories record them. -/
abbrev ManagerStep := Transition Manager ManagerAction DirectoryEvent

/-- The name can be written into a parcel, and the handle into an object; an object that dies has
one name at most. -/
def Proper (e : ManagerStep) : Prop :=
  match e.action with
  | .call (.addService name handle _) _ _ => Listable name ∧ handle.toNat < 2 ^ 32
  | .call (.getService name) _ _ => Listable name
  | .other _ _ => True
  | .died who => OneName e.before.service who

/-! ### One request -/

section Requests

variable {s : ServiceManagerService} {pools : ℕ → ObjectPool} {address : UInt64}
  {request : Transaction} {name : Name}

theorem readerOf_carries {c : ProxyCall} (h : Carries c request) :
    readerOf request = { buffer := c.writes.flatMap chunk, current := 0 } :=
  congrArg (BinaryReader.mk · 0 true) h.2

/-- What every request begins with, before the cursor moves on. -/
theorem chunk_interfaceToken {units : List UInt16} (hunits : toString16 interfaceName = .ok units) :
    ∃ policy, chunk (.interfaceToken interfaceName 0) = leBytes 4 policy ++ stringBytes units := by
  refine ⟨(strictMode 0 % 2 ^ 32).toNat, ?_⟩
  rw [chunk, string8Bytes, hunits]

theorem enforceInterface_request {post : List UInt8} {r : BinaryReader} (hp : r.usePadding = true)
    (hc : r.current = 0) (hb : r.buffer = chunk (.interfaceToken interfaceName 0) ++ post) :
    enforceInterface r interfaceName =
      .ok (true, { r with current := (chunk (.interfaceToken interfaceName 0)).length }) := by
  obtain ⟨units, hunits, h0, hlt⟩ := listable_interfaceName.units
  obtain ⟨policy, hchunk⟩ := chunk_interfaceToken hunits
  rw [hchunk, List.append_assoc] at hb
  have hstart : r.current = ([] : List UInt8).length := hc
  have h := enforceInterface_ok hp hstart hunits h0 hlt (by rw [hb, List.nil_append])
  rw [h, hchunk, List.length_append, length_leBytes, hc, Nat.zero_add]

theorem readName {pre post : List UInt8} {r : BinaryReader} (hname : Listable name)
    (hp : r.usePadding = true) (hc : r.current = pre.length)
    (hb : r.buffer = pre ++ (chunk (.string name) ++ post)) :
    ∃ units, r.readString16 =
      .ok (units, { r with current := r.current + (chunk (.string name)).length }) ∧
      toString8 units = .ok name := by
  obtain ⟨units, hunits, h0, hlt⟩ := hname.units
  have hchunk : chunk (.string name) = stringBytes units := by
    simp only [chunk, string8Bytes, hunits]
  rw [hchunk] at hb ⊢
  exact ⟨units, readString16_writeString hp hb hc h0 hlt, toString8_toString16 hunits⟩

theorem readObject_handle {pre post : List UInt8} {r : BinaryReader} {a handle : UInt64}
    (hh : handle.toNat < 2 ^ 32) (pool : Option ObjectPool) (hp : r.usePadding = true)
    (hc : r.current = pre.length)
    (hb : r.buffer = pre ++ (flatObject (.remoteObject a handle) ++ post)) :
    readObject r pool =
      .ok (.remoteObject handle.toNat, { r with current := r.current + 24 }) := by
  have hread := BinaryReader.readData_of_padding r 24 hp (by omega)
    (by rw [hb, hc]; simp [length_flatObject])
  have hslice : slice (ofList r.buffer) r.current 24 = flatObject (.remoteObject a handle) := by
    rw [hb, hc, ← length_flatObject (.remoteObject a handle)]
    exact slice_ofList_append pre _ post
  obtain ⟨htype, hhandle, -⟩ := (holds_iff hslice).mpr hh
  simp only [readObject, hread, bind, Except.bind, htype, hhandle]
  rfl

/-- **The beginning of a request**: the token is accepted, and the name that is read is the one that
was written. What is before the rest of the request are `pre`. -/
theorem readHead {c : ProxyCall} {post : List UInt8} (h : Carries c request)
    (hname : Listable name) (hc : c.writes.flatMap chunk =
      chunk (.interfaceToken interfaceName 0) ++ (chunk (.string name) ++ post)) :
    ∃ pre units r, enforceInterface (readerOf request) interfaceName = .ok (true, r) ∧
      r.readString16 = .ok (units, { buffer := pre ++ post, current := pre.length }) ∧
        toString8 units = .ok name := by
  have hreader := readerOf_carries h
  rw [hc] at hreader
  have henforce := enforceInterface_request (r := readerOf request) (by rw [hreader])
    (by rw [hreader]) (congrArg BinaryReader.buffer hreader)
  rw [hreader] at henforce ⊢
  generalize chunk (.interfaceToken interfaceName 0) = token at henforce ⊢
  obtain ⟨units, hunits, hstr⟩ := readName
    (r := { buffer := token ++ (chunk (.string name) ++ post), current := token.length })
    hname rfl rfl rfl
  refine ⟨token ++ chunk (.string name), units, _, henforce, ?_, hstr⟩
  rw [List.length_append, List.append_assoc]
  exact hunits

theorem onTransact_addService {handle : UInt64} {isolated : Bool}
    (h : Carries (.addService name handle isolated) request) (hname : Listable name)
    (hh : handle.toNat < 2 ^ 32) : onTransact s 0 pools address request =
      match addService s name (some (.remoteObject address handle)) with
      | (.ok, s) => .ok ⟨.ok, some (finalize (writeInt32 { pools := pools } 0).writer), s, pools⟩
      | (status, s) => .ok ⟨status, none, s, pools⟩ := by
  obtain ⟨pre, units, r, henforce, hunits, hstr⟩ := readHead h hname rfl
  have hobject := readObject_handle (a := 0)
    (r := { buffer := pre ++ (chunk (.object 0 (.remoteObject 0 handle)) ++
      (chunk (.int32 (if isolated then 1 else 0)) ++ [])), current := pre.length })
    hh (some (pools 0)) rfl rfl rfl
  obtain ⟨flag, hflag⟩ := readInt32_ok
    (r := { buffer := pre ++ (chunk (.object 0 (.remoteObject 0 handle)) ++
      (chunk (.int32 (if isolated then 1 else 0)) ++ [])), current := pre.length + 24 })
    (List.length_append.trans
      (congrArg (pre.length + ·) (length_flatObject (.remoteObject 0 handle)))).symm
    (List.append_assoc ..).symm
  have hcode : request.tr.code = addServiceTransaction := h.1
  simp only [List.map_cons, List.map_nil, List.flatten_cons, List.flatten_nil] at hunits
  rw [onTransact, if_pos hcode]
  simp only [henforce, hunits, hstr, hobject, hflag, bind, Except.bind, objectOfRead,
    UInt64.ofNat_toNat]
  rfl

theorem writeObject_error (st : ParcelState) (client : ℕ) (o : Object) :
    (writeObject st client o).2 = none := by
  cases o with
  | remoteObject address handle => rfl
  | localObject address =>
    simp only [writeObject, ObjectPool.adoptObject]
    cases (st.pools client).contains address.toNat <;> rfl

theorem onTransact_getService (h : Carries (.getService name) request) (hname : Listable name) :
    onTransact s 0 pools address request =
      match s.services.lookup name with
      | none => .ok ⟨.badValue, none, s, pools⟩
      | some o => .ok ⟨.ok, some (finalize (writeObject { pools := pools } 0 o).1.writer), s,
          (writeObject { pools := pools } 0 o).1.pools⟩ := by
  obtain ⟨pre, units, r, henforce, hunits, hstr⟩ := readHead h hname rfl
  have hcode : request.tr.code = getServiceTransaction := h.1
  rw [onTransact, if_neg (by rw [hcode]; decide), if_pos (.inr hcode)]
  simp only [henforce, hunits, hstr, bind, Except.bind, getService]
  cases hl : s.services.lookup name with
  | none => rfl
  | some o =>
    have hwrite := writeObject_error { pools := pools } 0 o
    simp only
    generalize writeObject { pools := pools } 0 o = written at hwrite ⊢
    obtain ⟨st, e⟩ := written
    cases hwrite
    rfl

theorem service_onTransact {r : Transacted} (hcode : request.tr.code ≠ addServiceTransaction)
    (h : onTransact s 0 pools address request = .ok r) : r.service = s := by
  have hbind : ∀ {α : Type} {x : Except Exn α} {f : α → Except Exn Transacted},
      (x >>= f) = .ok r → ∃ a, f a = .ok r := by
    rintro α (e | a) f h
    · cases h
    · exact ⟨a, h⟩
  rw [onTransact, if_neg hcode] at h
  split_ifs at h with hget hlist
  · obtain ⟨_, h⟩ := hbind h
    obtain ⟨_, h⟩ := hbind h
    obtain ⟨name, h⟩ := hbind h
    cases hl : s.services.lookup name with
    | none =>
      simp only [getService, hl] at h
      cases h
      rfl
    | some o =>
      have hwrite := writeObject_error { pools := pools } 0 o
      simp only [getService, hl] at h
      generalize writeObject { pools := pools } 0 o = written at hwrite h
      obtain ⟨st, e⟩ := written
      cases hwrite
      cases h
      rfl
  · obtain ⟨_, h⟩ := hbind h
    obtain ⟨n, h⟩ := hbind h
    cases hn : s.services.keys[n.1]? with
    | none =>
      simp only [hn] at h
      cases h
      rfl
    | some name =>
      simp only [hn] at h
      generalize writeString { pools := pools } name = written at h
      obtain ⟨st, e | e⟩ := written
      · cases h
        rfl
      · cases h
  · cases h
    rfl

end Requests

/-! ### The refinement -/

theorem data_finalize (w : ParcelTransactionDataWriter) :
    slice (finalize w).mem (finalize w).tr.data.start (finalize w).tr.data.size = w.data.bytes :=
  congrArg BinaryReader.buffer (readerOf_finalize w)

/-- The map, as the directory sees it. -/
abbrev Manager.names (m : Manager) : AbstractDirectory := fun name => m.service.services.lookup name

section Steps

variable {m m' : Manager} {c : ProxyCall} {name : Name} {handle : UInt64} {isolated : Bool}
  {request : Transaction} {address : UInt64} {emitted : List DirectoryEvent}

theorem managerStep_addService (hcarries : Carries (.addService name handle isolated) request)
    (hname : Listable name) (hh : handle.toNat < 2 ^ 32) :
    managerStep m (.call (.addService name handle isolated) request address) =
      if name ∈ m.service.services then
        some (m, [.served (.addService name handle isolated) address .badValue none])
      else some (⟨(addService m.service name (some (.remoteObject address handle))).2, m.pools⟩,
        [.served (.addService name handle isolated) address .ok (some (leBytes 4 0))]) := by
  simp only [managerStep]
  rw [if_pos hcarries, onTransact_addService hcarries hname hh, addService]
  by_cases hmem : name ∈ m.service.services
  · simp only [if_pos hmem]
    rfl
  · simp only [if_neg hmem, Option.map_some, data_finalize]
    rfl

theorem step_addService (hname : Listable name) (hh : handle.toNat < 2 ^ 32)
    (h : managerStep m (.call (.addService name handle isolated) request address) =
      some (m', emitted)) : Step m.names emitted m'.names := by
  have hcarries : Carries (.addService name handle isolated) request := by
    by_contra hnot
    simp only [managerStep, if_neg hnot] at h
    cases h
  rw [managerStep_addService hcarries hname hh] at h
  split_ifs at h with hmem
  · cases h
    exact .taken (mt AList.lookup_eq_none.mp (not_not.mpr hmem))
  · cases h
    have hnames : (fun n => (insertNew m.service.services name
        (.remoteObject address handle)).lookup n) =
        Function.update m.names name (some (.remoteObject address handle)) := by
      funext n
      rw [lookup_insertNew, Function.update_apply]
      simp only [hmem, not_false_eq_true, and_true]
    have hstep : Step m.names
        [.served (.addService name handle isolated) address .ok (some (leBytes 4 0))] _ :=
      .added (AList.lookup_eq_none.mpr hmem)
    rw [← hnames] at hstep
    simp only [addService, if_neg hmem]
    exact hstep

theorem managerStep_getService (hcarries : Carries (.getService name) request)
    (hname : Listable name) : managerStep m (.call (.getService name) request address) =
      match m.names name with
      | none => some (m, [.served (.getService name) address .badValue none])
      | some o => some (⟨m.service, (writeObject { pools := m.pools } 0 o).1.pools⟩,
          [.served (.getService name) address .ok (some (flatObject o))]) := by
  have hnames : m.service.services.lookup name = m.names name := rfl
  simp only [managerStep]
  rw [if_pos hcarries, onTransact_getService hcarries hname, hnames]
  cases m.names name with
  | none => rfl
  | some o =>
    have hwriter := @writeObject_writer { pools := m.pools } rfl 0 o
    simp only [Option.map_some, data_finalize, hwriter]
    rfl

theorem served_getService (hname : Listable name)
    (h : managerStep m (.call (.getService name) request address) = some (m', emitted)) :
    m'.names = m.names ∧ emitted =
      match m.names name with
      | none => [.served (.getService name) address .badValue none]
      | some o => [.served (.getService name) address .ok (some (flatObject o))] := by
  have hcarries : Carries (.getService name) request := by
    by_contra hnot
    simp only [managerStep, if_neg hnot] at h
    cases h
  rw [managerStep_getService hcarries hname] at h
  cases hl : m.names name with
  | none =>
    simp only [hl] at h
    cases h
    exact ⟨rfl, rfl⟩
  | some o =>
    simp only [hl] at h
    cases h
    exact ⟨rfl, rfl⟩

theorem step_getService (hname : Listable name)
    (h : managerStep m (.call (.getService name) request address) = some (m', emitted)) :
    Step m.names emitted m'.names := by
  obtain ⟨hnames, rfl⟩ := served_getService hname h
  rw [hnames]
  cases hl : m.names name with
  | none => exact .missing hl
  | some o => exact .found hl

theorem step_other (h : managerStep m (.other request address) = some (m', emitted)) :
    Step m.names emitted m'.names := by
  simp only [managerStep] at h
  split_ifs at h with hcode
  cases hres : onTransact m.service 0 m.pools address request with
  | error e =>
    simp only [hres] at h
    cases h
    exact .other
  | ok r =>
    simp only [hres] at h
    cases h
    have hservice := service_onTransact hcode hres
    simp only [hservice]
    exact .other

theorem step_died {who : Object} (hone : OneName m.service who) :
    Step m.names [.died who] fun name => (onObjectDied m.service who).services.lookup name := by
  have hnames : (fun name => (onObjectDied m.service who).services.lookup name) =
      m.names.forget who := by
    funext name
    rw [AbstractDirectory.forget]
    rcases onObjectDied_cases m.service who with ⟨hnone, heq⟩ | ⟨name', hname', heq⟩
    · rw [heq, if_neg (hnone name)]
    · rw [heq]
      split_ifs with hwho
      · rw [hone name name' hwho hname', AList.lookup_erase]
      · refine AList.lookup_erase_ne ?_
        rintro rfl
        exact hwho hname'
  rw [hnames]
  exact .died

end Steps

/-- The map and the answers are those of a directory. -/
def manager_implements : Implements manager directory Proper where
  abs := Manager.names
  label := Transition.emitted
  init := rfl
  step h e hr hv hC := by
    obtain ⟨m, action, emitted, m'⟩ := e
    have hstep : managerStep m action = some (m', emitted) := hv
    cases action with
    | call c request address =>
      cases c with
      | addService name handle isolated => exact step_addService hC.1 hC.2 hstep
      | getService name => exact step_getService hC hstep
    | other request address => exact step_other hstep
    | died who =>
      cases hstep
      exact step_died hC

/-- **In every run the service manager answers as a directory does.** -/
theorem manager_refines_directory {h : List ManagerStep} {m : Manager} (hr : Run manager h m)
    (hC : ∀ e ∈ h, Proper e) :
    Trace directory directory.init (h.map Transition.emitted) m.names :=
  manager_implements.run hr hC

/-- **A service is found if it has been added and has not died since**, and only then: in every run
`GetService` returns the handle that was registered last. -/
theorem services_found {h : List ManagerStep} {e : ManagerStep} (hr : Run manager h e.before)
    (hC : ∀ e ∈ h, Proper e) (hv : e.Valid manager) {name : Name} {request : Transaction}
    {address : UInt64} (ha : e.action = .call (.getService name) request address)
    (hname : Listable name) :
    (∀ o, Entered (outputs h) name o →
      e.emitted = [.served (.getService name) address .ok (some (flatObject o))]) ∧
    ((∀ o, ¬ Entered (outputs h) name o) →
      e.emitted = [.served (.getService name) address .badValue none]) := by
  rw [Transition.Valid, ha] at hv
  obtain ⟨-, hemitted⟩ := served_getService hname hv
  have hlookup : ∀ o, e.before.names name = some o ↔ Entered (outputs h) name o :=
    lookup_iff_entered (manager_implements.run hr hC) name
  rw [hemitted]
  refine ⟨fun o ho => ?_, fun hnone => ?_⟩
  · rw [(hlookup o).mpr ho]
  · rw [Option.eq_none_iff_forall_ne_some.mpr fun o ho => hnone o ((hlookup o).mp ho)]

/-! ### A service that dies and is registered again -/

/-- The parcel of a call. -/
def requestOf (c : ProxyCall) : Transaction :=
  finalize (parcelOf c.code (fun _ => {}) c.writes).writer

theorem carries_requestOf (c : ProxyCall) : Carries c (requestOf c) := carries_parcelOf c _

/-- The name of a service. -/
def serviceName : Name := ['a', 'b'].flatMap String.utf8EncodeChar

theorem listable_serviceName : Listable serviceName :=
  ⟨by decide, _, toString16_flatMap _, by decide⟩

/-- The service is registered with a handle. -/
def registered (m : Manager) (handle address : UInt64) : ManagerStep where
  before := m
  action := .call (.addService serviceName handle false)
    (requestOf (.addService serviceName handle false)) address
  emitted := [.served (.addService serviceName handle false) address .ok (some (leBytes 4 0))]
  after := ⟨(addService m.service serviceName (some (.remoteObject address handle))).2, m.pools⟩

theorem valid_registered {m : Manager} {handle : UInt64} (address : UInt64)
    (hm : serviceName ∉ m.service.services) (hh : handle.toNat < 2 ^ 32) :
    (registered m handle address).Valid manager := by
  have hcarries := carries_requestOf (.addService serviceName handle false)
  simp only [Transition.Valid, manager, registered]
  generalize requestOf (.addService serviceName handle false) = request at hcarries ⊢
  rw [managerStep_addService hcarries listable_serviceName hh, if_neg hm]

/-- The manager with the first service. -/
def firstService : Manager := (registered {} 1 0x100).after

/-- The first service dies, and is replaced. -/
def serviceDied : ManagerStep where
  before := firstService
  action := .died (.remoteObject 0x100 1)
  emitted := [.died (.remoteObject 0x100 1)]
  after := ⟨onObjectDied firstService.service (.remoteObject 0x100 1), fun _ => {}⟩

/-- A service is added and dies, and another one is added under its name. -/
def replaced : List ManagerStep :=
  [registered {} 1 0x100, serviceDied, registered serviceDied.after 3 0x300]

/-- The service manager after that. -/
def lastService : Manager := (registered serviceDied.after 3 0x300).after

theorem run_replaced : Run manager replaced lastService := by
  have h1 : Run manager [registered {} 1 0x100] firstService :=
    .single (valid_registered 0x100 (by decide) (by decide))
  have h2 : Run manager [registered {} 1 0x100, serviceDied] serviceDied.after :=
    .snoc (e := serviceDied) h1 rfl
  exact .snoc (e := registered serviceDied.after 3 0x300) h2
    (valid_registered 0x300 (by decide) (by decide))

theorem proper_replaced : ∀ e ∈ replaced, Proper e := by
  have hone : OneName firstService.service (.remoteObject 0x100 1) := by
    have hinjective := injective_insertNew (t := (∅ : Table Name Object))
      (v := .remoteObject 0x100 1) (fun _ _ _ h => by cases h) (fun _ h => by cases h) serviceName
    exact fun n n' h h' => hinjective n n' _ h h'
  simp only [replaced, List.forall_mem_cons]
  refine ⟨⟨listable_serviceName, by decide⟩, hone, ⟨listable_serviceName, by decide⟩, by simp⟩

theorem manager_refines_directory_replaced :
    Trace directory directory.init (replaced.map Transition.emitted) lastService.names :=
  manager_refines_directory run_replaced proper_replaced

/-- The service that is found. -/
def lookedUp : ManagerStep where
  before := lastService
  action := .call (.getService serviceName) (requestOf (.getService serviceName)) 0x400
  emitted :=
    [.served (.getService serviceName) 0x400 .ok (some (flatObject (.remoteObject 0x300 3)))]
  after := lastService

theorem valid_lookedUp : lookedUp.Valid manager := by
  have hcarries := carries_requestOf (.getService serviceName)
  simp only [Transition.Valid, manager, lookedUp]
  generalize requestOf (.getService serviceName) = request at hcarries ⊢
  rw [managerStep_getService hcarries listable_serviceName]
  rfl

theorem services_found_replaced :
    (∀ o, Entered (outputs replaced) serviceName o → lookedUp.emitted =
      [.served (.getService serviceName) 0x400 .ok (some (flatObject o))]) ∧
    ((∀ o, ¬ Entered (outputs replaced) serviceName o) → lookedUp.emitted =
      [.served (.getService serviceName) 0x400 .badValue none]) :=
  services_found (e := lookedUp) run_replaced proper_replaced valid_lookedUp rfl
    listable_serviceName

end Binderd.Services.Directory
