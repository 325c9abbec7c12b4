import Binderd.Services.ServiceManager

/-! # Listing the services

`ServiceManagerProxy::ListServices` asks for the `n`-th name, for `n` from `0` on, until the
service answers `BadValue`. The loop has no other end. The number goes over as an `int32_t` of four
bytes, and the service reads the first of them: asked for number `256`, it answers with the first
name again. So the list is exact if there are less than `256` names (`listsExactly_iff`), and the
loop does not end if there are more (`listServicesLoop_of_le`).

One unit of fuel is one transaction. -/

namespace Binderd.Services.Listing

open Binderd.Lib.Bytes Binderd.Lib.Tables Binderd.Lib.Utf16
open Binderd.Wire.Streams Binderd.Wire.Messages Binderd.Wire.Transactions Binderd.Wire.Strings
open Binderd.Clients.Handlers Binderd.Parcels.Writer Binderd.Parcels.Reader
open Binderd.Services.ServiceManager

/-! ### The proxy -/

/-- A client of the service manager: what `OnTransact` is called with, and a transport that brings
the bytes of a parcel over as they are. -/
structure Channel where
  service : ServiceManagerService
  client : ℕ := 0
  pools : ℕ → ObjectPool := fun _ => {}
  address : UInt64 := 0
  deliver : Transaction → Transaction
  code_deliver : ∀ t, (deliver t).tr.code = t.tr.code
  readerOf_deliver : ∀ t, readerOf (deliver t) = readerOf t

/-- `ClientImpl::Transact` with the service manager: the status, and the reply. -/
def transact (c : Channel) (request : Transaction) : Except Exn (Status × Option Transaction) := do
  let res ← onTransact c.service c.client c.pools c.address (c.deliver request)
  return (res.status, res.reply.map c.deliver)

/-- The request for the `n`-th name. -/
def listRequest (n : ℕ) : Except Exn Transaction :=
  match writeInterfaceToken { writer := { code := listServicesTransaction } } interfaceName 0 with
  | (_, some e) => .error e
  | (st, none) => .ok (finalize (writeInt32 st n).writer)

/-- The loop of `ListServices`, for the `n`-th name and all that follow. -/
def listServicesLoop (c : Channel) :
    ℕ → ℕ → List Name → Except Exn (Option (Status × List Name))
  | 0, _, _ => .ok none
  | fuel + 1, n, services => do
    let request ← listRequest n
    let (status, reply) ← transact c request
    let services ← match reply with
      | none => pure services
      | some reply => do
        let (str, _) ← (readerOf reply).readString16
        let name ← toString8 str
        pure (services ++ [name])
    if status = .ok then listServicesLoop c fuel (n + 1) services
    else return some (status, services)

/-- `ServiceManagerProxy::ListServices`: the status, and what `services` holds afterwards. -/
def listServices (c : Option Channel) (fuel : ℕ) (services : List Name) :
    Except Exn (Option (Status × List Name)) :=
  match c with
  | none => .ok (some (.badValue, services))
  | some c => do
    match ← listServicesLoop c fuel 0 [] with
    | none => return none
    | some (status, services) =>
      if status ≠ .badValue then return some (status, services)
      return some (.ok, services)

/-! ### One transaction -/

/-- A name that can be listed: it is not empty, and has fewer than `256` code units. -/
def Listable (name : Name) : Prop :=
  name ≠ [] ∧ ∃ units, toString16 name = .ok units ∧ units.length < 256

theorem Listable.units {name : Name} (h : Listable name) :
    ∃ units, toString16 name = .ok units ∧ units ≠ [] ∧ units.length < 256 := by
  obtain ⟨hne, units, hunits, hlt⟩ := h
  refine ⟨units, hunits, ?_, hlt⟩
  rintro rfl
  have hback := toString8_toString16 hunits
  exact hne (Except.ok.inj hback).symm

theorem listable_interfaceName : Listable interfaceName :=
  ⟨by decide, _, toString16_flatMap _, by decide⟩

theorem listRequest_ok (n : ℕ) : ∃ request units policy, listRequest n = .ok request ∧
    request.tr.code = listServicesTransaction ∧ toString16 interfaceName = .ok units ∧
      units ≠ [] ∧ units.length < 256 ∧ (readerOf request).usePadding = true ∧
        (readerOf request).current = 0 ∧ (readerOf request).buffer =
          leBytes 4 policy ++ (stringBytes units ++ leBytes 4 (n % 2 ^ 32)) := by
  obtain ⟨units, hunits, h0, hlt⟩ := listable_interfaceName.units
  have hint : ((n : ℤ) % 2 ^ 32).toNat = n % 2 ^ 32 := by norm_cast
  have hrequest : listRequest n = .ok (finalize (writeInt32 (writeParcelData
      (writeInt32 { writer := { code := listServicesTransaction } } (strictMode 0))
        { bytes := leBytes 4 (strictMode 0 % 2 ^ 32).toNat ++ stringBytes units }) n).writer) := by
    rw [listRequest, writeInterfaceToken, writeString_of_lt rfl hunits hlt]
    rfl
  refine ⟨_, units, (strictMode 0 % 2 ^ 32).toNat, hrequest, rfl, hunits, h0, hlt, ?_, ?_, ?_⟩
  · rw [readerOf_finalize]
  · rw [readerOf_finalize]
  · rw [readerOf_finalize, ← hint, ← List.append_assoc]
    rfl

theorem onTransact_list {s : ServiceManagerService} {client : ℕ} {pools : ℕ → ObjectPool}
    {address : UInt64} {request : Transaction} {b : Bool} {n : ℕ} {r r' : BinaryReader}
    (hcode : request.tr.code = listServicesTransaction)
    (henforce : enforceInterface (readerOf request) interfaceName = .ok (b, r))
    (hread : r.readInt32 = .ok (n, r')) :
    onTransact s client pools address request =
      match s.services.keys[n]? with
      | none => .ok ⟨.badValue, none, s, pools⟩
      | some name =>
        match writeString { pools := pools } name with
        | (_, some e) => .error e
        | (st, none) => .ok ⟨.ok, some (finalize st.writer), s, pools⟩ := by
  have hadd : request.tr.code ≠ addServiceTransaction := by rw [hcode]; decide
  have hget : ¬ (request.tr.code = checkServiceTransaction ∨
      request.tr.code = getServiceTransaction) := by rw [hcode]; decide
  rw [onTransact, if_neg hadd, if_neg hget, if_pos hcode]
  simp only [ServiceManager.listServices, henforce, hread, bind, Except.bind]
  rfl

/-- **One transaction**: the service takes the number modulo `256`. -/
theorem transact_listRequest (c : Channel) (hc : ∀ name ∈ c.service.services, Listable name)
    (n : ℕ) : ∃ request, listRequest n = .ok request ∧
      match c.service.services.keys[n % 256]? with
      | none => transact c request = .ok (.badValue, none)
      | some name => ∃ reply units, transact c request = .ok (.ok, some reply) ∧
          toString16 name = .ok units ∧ units ≠ [] ∧ units.length < 256 ∧
            readerOf reply = { buffer := stringBytes units, current := 0 } := by
  obtain ⟨request, units, policy, hrequest, hcode, hunits, h0, hlt, hp, hcur, hbuf⟩ :=
    listRequest_ok n
  refine ⟨request, hrequest, ?_⟩
  have hnumber := hbuf
  rw [← List.append_assoc, ← List.append_nil (leBytes 4 (n % 2 ^ 32))] at hnumber
  have hstart : (readerOf request).current = ([] : List UInt8).length := hcur
  have henforce := enforceInterface_ok hp hstart hunits h0 hlt hbuf
  have hread := readValue_leBytes_mod { readerOf request with
    current := (readerOf request).current + 4 + (stringBytes units).length } 4 (n % 2 ^ 32) _ _
    hnumber (by simp [hcur]) (by omega)
  rw [Nat.mod_mod_of_dvd n (by norm_num)] at hread
  rw [← c.readerOf_deliver] at henforce hread
  have honTransact : onTransact c.service c.client c.pools c.address (c.deliver request) = _ :=
    onTransact_list ((c.code_deliver request).trans hcode) henforce hread
  cases hname : c.service.services.keys[n % 256]? with
  | none =>
    rw [hname] at honTransact
    rw [transact, honTransact]
    rfl
  | some name =>
    have hmem : name ∈ c.service.services := List.mem_of_getElem? hname
    obtain ⟨units, hunits, h0, hlt⟩ := (hc name hmem).units
    have hwritten : writeString { pools := c.pools } name =
        (writeParcelData { pools := c.pools } { bytes := stringBytes units }, none) :=
      writeString_of_lt rfl hunits hlt
    rw [hname] at honTransact
    simp only [hwritten] at honTransact
    refine ⟨_, units, by rw [transact, honTransact]; rfl, hunits, h0, hlt, ?_⟩
    rw [c.readerOf_deliver, readerOf_finalize]
    rfl

/-! ### The loop -/

section Loop

variable {c : Channel} (hc : ∀ name ∈ c.service.services, Listable name)

include hc

/-- One turn: the loop ends, or goes on with a name more. -/
theorem listServicesLoop_succ (fuel n : ℕ) (services : List Name) :
    listServicesLoop c (fuel + 1) n services =
      match c.service.services.keys[n % 256]? with
      | none => .ok (some (.badValue, services))
      | some name => listServicesLoop c fuel (n + 1) (services ++ [name]) := by
  obtain ⟨request, hrequest, htransact⟩ := transact_listRequest c hc n
  cases hname : c.service.services.keys[n % 256]? with
  | none =>
    rw [hname] at htransact
    simp only [listServicesLoop, hrequest, htransact, bind, Except.bind]
    rfl
  | some name =>
    rw [hname] at htransact
    obtain ⟨reply, units, htransact, hunits, h0, hlt, hreader⟩ := htransact
    have hbuf : (readerOf reply).buffer = [] ++ (stringBytes units ++ []) := by
      rw [hreader, List.append_nil]
      rfl
    have hread := readString16_writeString (by rw [hreader]) hbuf (by rw [hreader]; rfl) h0 hlt
    simp only [listServicesLoop, hrequest, htransact, hread, toString8_toString16 hunits, bind,
      Except.bind, pure, Except.pure, if_true]

/-- The loop that ends: the number stays below `256`. -/
theorem listServicesLoop_of_lt (h : c.service.services.keys.length < 256) :
    ∀ (fuel n : ℕ) (services : List Name), n + fuel = c.service.services.keys.length →
      listServicesLoop c fuel n services = .ok none ∧
        listServicesLoop c (fuel + 1) n services =
          .ok (some (.badValue, services ++ c.service.services.keys.drop n)) := by
  intro fuel
  induction fuel with
  | zero =>
    intro n services hn
    have hnone : c.service.services.keys[n % 256]? = none := by
      rw [Nat.mod_eq_of_lt (by omega)]
      exact List.getElem?_eq_none (by omega)
    refine ⟨rfl, ?_⟩
    rw [listServicesLoop_succ hc, hnone, List.drop_eq_nil_of_le (by omega), List.append_nil]
  | succ fuel ih =>
    intro n services hn
    have hlt : n < c.service.services.keys.length := by omega
    have hname : c.service.services.keys[n % 256]? = some c.service.services.keys[n] := by
      rw [Nat.mod_eq_of_lt (by omega)]
      exact List.getElem?_eq_getElem hlt
    obtain ⟨h1, h2⟩ := ih (n + 1) (services ++ [c.service.services.keys[n]]) (by omega)
    rw [listServicesLoop_succ hc fuel, listServicesLoop_succ hc (fuel + 1), hname]
    refine ⟨h1, ?_⟩
    simp only [h2]
    rw [List.append_assoc, List.singleton_append, List.getElem_cons_drop]

/-- The loop that does not end: there is a name under each number below `256`. -/
theorem listServicesLoop_of_le (h : 256 ≤ c.service.services.keys.length) :
    ∀ (fuel n : ℕ) (services : List Name), listServicesLoop c fuel n services = .ok none := by
  intro fuel
  induction fuel with
  | zero => exact fun _ _ => rfl
  | succ fuel ih =>
    intro n services
    have hlt : n % 256 < c.service.services.keys.length := by omega
    rw [listServicesLoop_succ hc, List.getElem?_eq_getElem hlt]
    exact ih _ _

end Loop

/-- The list is exact: `ListServices` returns `OK` after one transaction more than there are
services, and not before, with each name once. -/
structure ListsExactly (c : Channel) (services : List Name) : Prop where
  running : listServices (some c) c.service.services.keys.length services = .ok none
  result : ∃ names, listServices (some c) (c.service.services.keys.length + 1) services =
    .ok (some (.ok, names)) ∧ names.Nodup ∧ ∀ name, name ∈ names ↔ name ∈ c.service.services

/-- **Listing is exact exactly if there are less than `256` services.** -/
theorem listsExactly_iff {c : Channel} (hc : ∀ name ∈ c.service.services, Listable name)
    (services : List Name) :
    ListsExactly c services ↔ c.service.services.keys.length < 256 := by
  constructor
  · rintro ⟨-, names, hresult, -, -⟩
    by_contra hle
    have hloop := listServicesLoop_of_le hc (by omega) (c.service.services.keys.length + 1) 0 []
    simp only [listServices, hloop, bind, Except.bind, pure, Except.pure] at hresult
    cases hresult
  · intro h
    obtain ⟨h1, h2⟩ := listServicesLoop_of_lt hc h c.service.services.keys.length 0 []
      (Nat.zero_add _)
    refine ⟨?_, c.service.services.keys, ?_, c.service.services.keys_nodup,
      fun name => AList.mem_keys.symm⟩
    · simp only [listServices, h1, bind, Except.bind]
      rfl
    · simp only [listServices, h2, bind, Except.bind]
      rfl

/-! ### Services with generated names -/

/-- A name of two letters for each number below `256`. -/
def letters (i : ℕ) : List Char := [Char.ofNat (0x41 + i / 16), Char.ofNat (0x41 + i % 16)]

/-- The name with the number `i`. -/
def nameOf (i : ℕ) : Name := (letters i).flatMap String.utf8EncodeChar

/-- The number of a name. -/
def numberOf (name : Name) : ℕ :=
  ((name.getD 0 0).toNat - 0x41) * 16 + ((name.getD 1 0).toNat - 0x41)

theorem numberOf_nameOf : ∀ i < 256, numberOf (nameOf i) = i := by decide +kernel

theorem nodup_map_nameOf {k : ℕ} (hk : k ≤ 256) : ((List.range k).map nameOf).Nodup := by
  refine List.Nodup.map_on (fun i hi j hj hij => ?_) List.nodup_range
  rw [List.mem_range] at hi hj
  rw [← numberOf_nameOf i (by omega), hij, numberOf_nameOf j (by omega)]

theorem listable_nameOf (i : ℕ) (hi : i < 256) : Listable (nameOf i) := by
  have hunits : ∀ i < 256, nameOf i ≠ [] ∧ (encode (letters i)).length < 256 := by decide +kernel
  exact ⟨(hunits i hi).1, _, toString16_flatMap _, (hunits i hi).2⟩

/-- A service manager with `k` services. -/
def managerOf (k : ℕ) : ServiceManagerService :=
  addServices {} ((List.range k).map fun i => (nameOf i, some (.remoteObject 0x100 1)))

theorem keys_addServices (obj : Object) : ∀ (names : List Name) (s : ServiceManagerService),
    names.Nodup → (∀ name ∈ names, name ∉ s.services) →
      (addServices s (names.map fun name => (name, some obj))).services.keys =
        names.reverse ++ s.services.keys := by
  intro names
  induction names with
  | nil => exact fun _ _ _ => rfl
  | cons name names ih =>
    intro s hnodup hfresh
    obtain ⟨hname, hnodup⟩ := List.nodup_cons.mp hnodup
    have hnot : name ∉ s.services := hfresh name (.head _)
    have hadd : (addService s name (some obj)).2.services = s.services.insert name obj := by
      simp only [addService, if_neg hnot, insertNew]
    have hrest := ih (addService s name (some obj)).2 hnodup fun n hn => by
      rw [hadd, AList.mem_insert]
      rintro (rfl | hmem)
      · exact hname hn
      · exact hfresh n (.tail _ hn) hmem
    have hkeys : (s.services.insert name obj).keys = name :: s.services.keys := by
      rw [AList.keys, AList.entries_insert_of_notMem hnot]
      rfl
    rw [List.map_cons, addServices, List.foldl_cons, ← addServices, hrest, hadd, hkeys,
      List.reverse_cons, List.append_assoc, List.singleton_append]

theorem keys_managerOf {k : ℕ} (hk : k ≤ 256) :
    (managerOf k).services.keys = ((List.range k).map nameOf).reverse := by
  have h := keys_addServices (.remoteObject 0x100 1) ((List.range k).map nameOf) {}
    (nodup_map_nameOf hk) fun name _ => AList.notMem_empty name
  rw [List.map_map] at h
  exact h.trans (List.append_nil _)

theorem listable_managerOf {k : ℕ} (hk : k ≤ 256) :
    ∀ name ∈ (managerOf k).services, Listable name := by
  intro name hname
  rw [AList.mem_keys, keys_managerOf hk, List.mem_reverse, List.mem_map] at hname
  obtain ⟨i, hi, rfl⟩ := hname
  rw [List.mem_range] at hi
  exact listable_nameOf i (by omega)

/-- A transport that does nothing. -/
def channelTo (service : ServiceManagerService) : Channel where
  service := service
  deliver := id
  code_deliver _ := rfl
  readerOf_deliver _ := rfl

theorem listsExactly_iff_three :
    ListsExactly (channelTo (managerOf 3)) [] ↔ (managerOf 3).services.keys.length < 256 :=
  listsExactly_iff (listable_managerOf (by omega)) []

/-- With `256` services, listing does not end. -/
theorem listing_does_not_end :
    (managerOf 256).services.keys.length = 256 ∧
      (∀ name ∈ (managerOf 256).services, Listable name) ∧
      (∀ fuel, listServices (some (channelTo (managerOf 256))) fuel [] = .ok none) ∧
      ¬ ListsExactly (channelTo (managerOf 256)) [] := by
  have hlength : (managerOf 256).services.keys.length = 256 := by
    rw [keys_managerOf le_rfl, List.length_reverse, List.length_map, List.length_range]
  have hloop : ∀ fuel, listServices (some (channelTo (managerOf 256))) fuel [] = .ok none := by
    intro fuel
    have h := listServicesLoop_of_le (c := channelTo (managerOf 256)) (listable_managerOf le_rfl)
      hlength.ge fuel 0 []
    simp only [listServices, h, bind, Except.bind]
    rfl
  refine ⟨hlength, listable_managerOf le_rfl, hloop, ?_⟩
  rintro ⟨-, names, hresult, -, -⟩
  rw [hloop] at hresult
  cases hresult

end Binderd.Services.Listing
