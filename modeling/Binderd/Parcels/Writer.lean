import Binderd.Clients.Handlers
import Binderd.Wire.Strings

/-! # `ParcelTransactionDataWriter`

A parcel is written by two writers: one for the data, and one for the offsets of the objects in it,
which are what `GetBytesWritten` of the first returns when the object's turn comes. A local object
is written with its address and is adopted by the pool of the client it is written for; of a remote
object the handle is written, into the 32 bits that a `flat_binder_object` has for it.

Every write takes a multiple of four bytes, also one that throws half-way, so the offsets are
multiples of four, and the objects do not overlap (`offsetsFrom_spec`). `sound_iff`: the objects in
the parcel are the ones that were written, if 32 bits hold the handles of the remote ones. -/

namespace Binderd.Parcels.Writer

open Binderd.Lib.Bytes Binderd.Lib.Tables
open Binderd.Wire.Streams Binderd.Wire.Messages Binderd.Wire.Transactions Binderd.Wire.Strings
open Binderd.Clients.Handlers

/-! ### Objects -/

/-- An object, with its address. -/
inductive Object where
  | localObject (address : UInt64)
  | remoteObject (address handle : UInt64)
deriving DecidableEq

/-- `0x7f | FLAT_BINDER_FLAG_ACCEPTS_FDS`. -/
def flatFlags : ℕ := 0x7f ||| 0x100

/-- The `flat_binder_object` that `WriteObject` writes. `flat.handle` takes the low half of the
binder. -/
def flatObject : Object → List UInt8
  | .localObject address => flatBinderObject .binder flatFlags 0 address.toNat
  | .remoteObject _ handle => flatBinderObject .handle flatFlags (handle.toNat % 2 ^ 32) 0

theorem length_flatObject (o : Object) : (flatObject o).length = 24 := by
  cases o <;> simp [flatObject, flatBinderObject]

/-! ### The writer -/

/-- What `ParcelTransactionDataWriter` keeps of a parcel. -/
structure ParcelTransactionDataWriter where
  code : ℕ := 0
  data : BinaryWriter := {}
  objects : BinaryWriter := {}

/-- A writer, and the pools of the clients that it writes objects for. -/
structure ParcelState where
  writer : ParcelTransactionDataWriter := {}
  pools : ℕ → ObjectPool := fun _ => {}

/-- What is written to the data. -/
def writeParcelData (st : ParcelState) (data : BinaryWriter) : ParcelState :=
  { st with writer := { st.writer with data := data } }

/-- `WriteInt32`. -/
def writeInt32 (st : ParcelState) (value : ℤ) : ParcelState :=
  writeParcelData st (st.writer.data.writeInt32 value)

/-- `WriteString16`, of a `u16string`. -/
def writeString16 (st : ParcelState) (str : List UInt16) : ParcelState × Option Exn :=
  let (data, e) := st.writer.data.writeString str
  (writeParcelData st data, e)

/-- `WriteString16`, of a `string`. -/
def writeString (st : ParcelState) (str : List UInt8) : ParcelState × Option Exn :=
  match toString16 str with
  | .ok units => writeString16 st units
  | .error e => (st, some e)

/-- `kStrictModePenaltyGather | strict_mode_policy`. -/
def strictMode (policy : ℤ) : ℤ := ((0x40 <<< 16 ||| (policy % 2 ^ 32).toNat : ℕ) : ℤ)

/-- `WriteInterfaceToken`: the strict mode policy and then the name. -/
def writeInterfaceToken (st : ParcelState) (name : List UInt8) (strictModePolicy : ℤ) :
    ParcelState × Option Exn :=
  writeString (writeInt32 st (strictMode strictModePolicy)) name

/-- `WriteObject`: the offset is noted, and the object is written at it. -/
def writeObject (st : ParcelState) (client : ℕ) (o : Object) : ParcelState × Option Exn :=
  let place := fun st : ParcelState =>
    let writer := st.writer
    let writer := { writer with objects := writer.objects.writeUint64 writer.data.getBytesWritten }
    let writer := { writer with data := writer.data.writeData (flatObject o) }
    { st with writer := writer }
  match o with
  | .localObject address =>
    let pool := st.pools client
    if pool.contains address.toNat then (place st, none)
    else
      match pool.adoptObject address.toNat with
      | .ok pool => (place { st with pools := Function.update st.pools client pool }, none)
      | .error e => (st, some e)
  | .remoteObject _ _ => (place st, none)

/-- The transaction of `Finalize`; its data and its offsets are two buffers. -/
def finalize (w : ParcelTransactionDataWriter) : Transaction :=
  { tr := { code := w.code
            data := ⟨0, w.data.bytes.length⟩
            objects := ⟨w.data.bytes.length, w.objects.bytes.length⟩ }
    mem := ofList (w.data.bytes ++ w.objects.bytes) }

/-! ### Sequences of calls -/

/-- The calls. -/
inductive Write where
  | int32 (value : ℤ)
  | interfaceToken (name : List UInt8) (strictModePolicy : ℤ)
  | string16 (str : List UInt16)
  | string (str : List UInt8)
  | object (client : ℕ) (o : Object)
deriving DecidableEq

/-- The call by its name. -/
def write (st : ParcelState) : Write → ParcelState × Option Exn
  | .int32 value => (writeInt32 st value, none)
  | .interfaceToken name strictModePolicy => writeInterfaceToken st name strictModePolicy
  | .string16 str => writeString16 st str
  | .string str => writeString st str
  | .object client o => writeObject st client o

/-- The parcel after the calls. One that throws leaves what it has written, and the next may come
after it all the same. -/
def writeAll (st : ParcelState) (ws : List Write) : ParcelState :=
  ws.foldl (fun st w => (write st w).1) st

/-- The objects that are written, and the clients they are written for. -/
def objectOf : Write → Option (ℕ × Object)
  | .object client o => some (client, o)
  | _ => none

/-- The objects that the calls write, in order. -/
def objectsOf (ws : List Write) : List (ℕ × Object) := ws.filterMap objectOf

/-! ### What a call writes -/

/-- The bytes of a `string` on the wire. -/
def string8Bytes (str : List UInt8) : List UInt8 :=
  match toString16 str with
  | .ok units => stringBytes units
  | .error _ => []

/-- The bytes that a call adds to the data. -/
def chunk : Write → List UInt8
  | .int32 value => leBytes 4 (value % 2 ^ 32).toNat
  | .interfaceToken name strictModePolicy =>
    leBytes 4 (strictMode strictModePolicy % 2 ^ 32).toNat ++ string8Bytes name
  | .string16 str => stringBytes str
  | .string str => string8Bytes str
  | .object _ o => flatObject o

theorem four_dvd_length_string8Bytes (str : List UInt8) : 4 ∣ (string8Bytes str).length := by
  unfold string8Bytes
  split
  · exact four_dvd_length_stringBytes _
  · exact Nat.dvd_zero 4

theorem four_dvd_length_chunk (w : Write) : 4 ∣ (chunk w).length := by
  cases w with
  | int32 value => simp [chunk]
  | interfaceToken name strictModePolicy =>
    rw [chunk, List.length_append, length_leBytes]
    exact (Nat.dvd_add_right (by omega)).mpr (four_dvd_length_string8Bytes name)
  | string16 str => exact four_dvd_length_stringBytes str
  | string str => exact four_dvd_length_string8Bytes str
  | object client o =>
    rw [chunk, length_flatObject]
    omega

theorem writeString_frame (st : ParcelState) (str : List UInt8) :
    (writeString st str).1.writer.objects = st.writer.objects ∧
      (writeString st str).1.pools = st.pools := by
  unfold writeString
  split <;> exact ⟨rfl, rfl⟩

section Call

variable {st : ParcelState} (hp : st.writer.data.usePadding = true)

include hp

theorem writeString_data (str : List UInt8) : (writeString st str).1.writer.data =
    { st.writer.data with bytes := st.writer.data.bytes ++ string8Bytes str } := by
  unfold writeString string8Bytes
  cases toString16 str with
  | error e => simp
  | ok units => exact writeString_fst hp units

theorem writeString_of_lt {str : List UInt8} {units : List UInt16}
    (hunits : toString16 str = .ok units) (hlt : units.length < 256) : writeString st str =
      (writeParcelData st
        { st.writer.data with bytes := st.writer.data.bytes ++ stringBytes units }, none) := by
  rw [writeString, hunits]
  simp only [writeString16]
  rw [writeString_fst hp, writeString_snd_of_lt hlt]

/-- An object takes 24 bytes, and needs no padding. -/
theorem writeObject_writer (client : ℕ) (o : Object) : (writeObject st client o).1.writer =
    { st.writer with
      data := { st.writer.data with bytes := st.writer.data.bytes ++ flatObject o }
      objects := { st.writer.objects with
        bytes := st.writer.objects.bytes ++ leBytes 8 st.writer.data.bytes.length } } := by
  have hdata : st.writer.data.writeData (flatObject o) =
      { st.writer.data with bytes := st.writer.data.bytes ++ flatObject o } := by
    simp [BinaryWriter.writeData, BinaryWriter.padding, length_flatObject, hp]
  unfold writeObject
  cases o with
  | remoteObject address handle => simp only [hdata]; rfl
  | localObject address =>
    cases hc : (st.pools client).contains address.toNat with
    | true => simp only [hc, if_true, hdata]; rfl
    | false => simp [hc, ObjectPool.adoptObject, hdata]; rfl

/-- **What a call adds** to the data. -/
theorem write_data (w : Write) : (write st w).1.writer.data =
    { st.writer.data with bytes := st.writer.data.bytes ++ chunk w } := by
  cases w with
  | int32 value => rfl
  | interfaceToken name strictModePolicy =>
    have hp' : (writeInt32 st (strictMode strictModePolicy)).writer.data.usePadding = true := hp
    rw [write, writeInterfaceToken, writeString_data hp', chunk, ← List.append_assoc]
    rfl
  | string16 str => exact writeString_fst hp str
  | string str => exact writeString_data hp str
  | object client o => rw [write, writeObject_writer hp, chunk]

theorem write_objects (w : Write) : (write st w).1.writer.objects.bytes =
    st.writer.objects.bytes ++ if (objectOf w).isSome then leBytes 8 st.writer.data.bytes.length
      else [] := by
  cases w with
  | object client o => rw [write, writeObject_writer hp]; rfl
  | interfaceToken name strictModePolicy =>
    rw [write, writeInterfaceToken, (writeString_frame _ name).1]
    simp [objectOf, writeInt32, writeParcelData]
  | string str => simp [write, writeString_frame, objectOf]
  | _ => simp [write, objectOf, writeInt32, writeString16, writeParcelData]

end Call

/-! ### What the calls write -/

/-- The positions of the objects, if `n` bytes of data have been written before. -/
def offsetsFrom (n : ℕ) : List Write → List ℕ
  | [] => []
  | w :: ws =>
    (if (objectOf w).isSome then [n] else []) ++ offsetsFrom (n + (chunk w).length) ws

/-- **What the calls add**: the data, one after the other, and the positions of the objects. -/
theorem writeAll_writer {st : ParcelState} (hp : st.writer.data.usePadding = true)
    (ws : List Write) :
    (writeAll st ws).writer.data.bytes = st.writer.data.bytes ++ ws.flatMap chunk ∧
      (writeAll st ws).writer.objects.bytes = st.writer.objects.bytes ++
        (offsetsFrom st.writer.data.bytes.length ws).flatMap (leBytes 8) := by
  induction ws generalizing st with
  | nil => simp [writeAll, offsetsFrom]
  | cons w ws ih =>
    have hdata := write_data hp w
    have hp' : (write st w).1.writer.data.usePadding = true := by rw [hdata]; exact hp
    obtain ⟨h1, h2⟩ := ih hp'
    rw [hdata, write_objects hp] at h2
    rw [hdata] at h1
    rw [writeAll, List.foldl_cons, ← writeAll, h1, h2]
    refine ⟨by simp, ?_⟩
    rw [offsetsFrom, List.flatMap_append, List.append_assoc, List.length_append]
    split <;> simp

/-- The positions of objects that follow each other: where they lie, and that they do not
overlap. -/
theorem offsetsFrom_spec (ws : List Write) (n : ℕ) :
    (∀ off ∈ offsetsFrom n ws, n ≤ off ∧ off + 24 ≤ n + (ws.flatMap chunk).length) ∧
      (4 ∣ n → ∀ off ∈ offsetsFrom n ws, 4 ∣ off) ∧
      (offsetsFrom n ws).Pairwise fun a b => a + 24 ≤ b := by
  induction ws generalizing n with
  | nil => simp [offsetsFrom]
  | cons w ws ih =>
    obtain ⟨hin, hdvd, hapart⟩ := ih (n + (chunk w).length)
    have hdvd' : 4 ∣ n → 4 ∣ n + (chunk w).length := fun h =>
      (Nat.dvd_add_right h).mpr (four_dvd_length_chunk w)
    have hlength : ((w :: ws).flatMap chunk).length =
        (chunk w).length + (ws.flatMap chunk).length := by
      rw [List.flatMap_cons, List.length_append]
    rw [offsetsFrom, hlength]
    cases hw : objectOf w with
    | none =>
      simp only [Option.isSome_none, Bool.false_eq_true, if_false, List.nil_append]
      refine ⟨fun off hoff => ?_, fun h => hdvd (hdvd' h), hapart⟩
      have := hin off hoff
      omega
    | some o =>
      have h24 : (chunk w).length = 24 := by
        cases w with
        | object client o => exact length_flatObject o
        | _ => cases hw
      simp only [Option.isSome_some, if_true, List.singleton_append, List.forall_mem_cons,
        List.pairwise_cons]
      refine ⟨⟨by omega, fun off hoff => ?_⟩, fun h => ⟨h, hdvd (hdvd' h)⟩,
        fun off hoff => ?_, hapart⟩
      · have := hin off hoff
        omega
      · have := hin off hoff
        omega

/-- Each object stands at its position. -/
theorem forall₂_offsetsFrom (ws : List Write) : ∀ pre : List UInt8,
    List.Forall₂ (fun off o => ∃ l r, pre ++ ws.flatMap chunk = l ++ (flatObject o.2 ++ r) ∧
      l.length = off) (offsetsFrom pre.length ws) (objectsOf ws) := by
  induction ws with
  | nil => exact fun _ => .nil
  | cons w ws ih =>
    intro pre
    have hrest := ih (pre ++ chunk w)
    rw [List.length_append, List.append_assoc] at hrest
    rw [offsetsFrom, List.flatMap_cons, objectsOf, List.filterMap_cons]
    cases hw : objectOf w with
    | none => exact hrest
    | some o =>
      refine .cons ⟨pre, ws.flatMap chunk, ?_, rfl⟩ hrest
      cases w with
      | object client o' =>
        cases hw
        rfl
      | _ => cases hw

/-! ### The pools -/

theorem contains_adoptObject {pool pool' : ObjectPool} {obj : ℕ}
    (h : pool.adoptObject obj = .ok pool') (k : ℕ) :
    pool'.contains k = true ↔ k = obj ∨ pool.contains k = true := by
  unfold ObjectPool.adoptObject at h
  split_ifs at h with hc
  cases h
  have hnone : pool.references.lookup obj = none := by
    simpa [ObjectPool.contains] using hc
  simp only [ObjectPool.contains, lookup_insertNew, ← AList.lookup_eq_none, hnone, and_true]
  split_ifs with hk <;> simp [hk]

theorem contains_writeObject (st : ParcelState) (client : ℕ) (o : Object) :
    (∀ c k, (st.pools c).contains k → ((writeObject st client o).1.pools c).contains k) ∧
      ∀ address, o = .localObject address →
        ((writeObject st client o).1.pools client).contains address.toNat := by
  cases o with
  | remoteObject address handle => exact ⟨fun _ _ h => h, fun _ h => by cases h⟩
  | localObject address =>
    simp only [writeObject]
    cases hc : (st.pools client).contains address.toNat with
    | true =>
      refine ⟨fun _ _ h => h, fun a ha => ?_⟩
      cases ha
      exact hc
    | false =>
      cases hadopt : (st.pools client).adoptObject address.toNat with
      | error e => simp [ObjectPool.adoptObject, hc] at hadopt
      | ok pool =>
        have hpool := contains_adoptObject hadopt
        simp only [Bool.false_eq_true, if_false]
        refine ⟨fun c k h => ?_, fun a ha => ?_⟩
        · by_cases hcl : c = client
          · subst hcl
            rw [Function.update_self]
            exact (hpool k).mpr (.inr h)
          · rwa [Function.update_of_ne hcl]
        · cases ha
          rw [Function.update_self]
          exact (hpool _).mpr (.inl rfl)

theorem contains_write {st : ParcelState} (w : Write) {c k : ℕ} (h : (st.pools c).contains k) :
    ((write st w).1.pools c).contains k := by
  cases w with
  | object client o => exact (contains_writeObject st client o).1 c k h
  | interfaceToken name strictModePolicy =>
    rw [write, writeInterfaceToken, (writeString_frame _ name).2]
    exact h
  | string str =>
    rw [write, (writeString_frame st str).2]
    exact h
  | _ => exact h

theorem contains_writeAll {st : ParcelState} (ws : List Write) {c k : ℕ}
    (h : (st.pools c).contains k) : ((writeAll st ws).pools c).contains k := by
  induction ws generalizing st with
  | nil => exact h
  | cons w ws ih => exact ih (contains_write w h)

theorem contains_of_written {st : ParcelState} {ws : List Write} {client : ℕ} {address : UInt64}
    (h : (client, .localObject address) ∈ objectsOf ws) :
    ((writeAll st ws).pools client).contains address.toNat := by
  induction ws generalizing st with
  | nil => cases h
  | cons w ws ih =>
    obtain ⟨w', hw', ho⟩ := List.mem_filterMap.mp h
    rcases List.mem_cons.mp hw' with rfl | hw'
    · cases w' with
      | object client' o =>
        cases ho
        exact contains_writeAll ws ((contains_writeObject st client _).2 address rfl)
      | _ => cases ho
    · exact ih (List.mem_filterMap.mpr ⟨w', hw', ho⟩)

/-! ### The parcel -/

/-- The object at `p` is this one: a binder with its address, or a handle. -/
def Holds (m : Mem) (p : ℕ) : Object → Prop
  | .localObject address =>
    objType m p = some .binder ∧ objBinder m p = 0 ∧ objCookie m p = address.toNat
  | .remoteObject _ handle =>
    objType m p = some .handle ∧ objHandle m p = handle.toNat ∧ objCookie m p = 0

instance (m : Mem) (p : ℕ) (o : Object) : Decidable (Holds m p o) := by
  cases o <;> unfold Holds <;> infer_instance

/-- The offsets that a parcel lists are those of these objects. -/
structure Sound (t : Transaction) (pools : ℕ → ObjectPool) (objects : List (ℕ × Object)) :
    Prop where
  aligned : ∀ off ∈ t.tr.listedOffsets t.mem, 4 ∣ off
  apart : (t.tr.listedOffsets t.mem).Pairwise fun a b => a + 24 ≤ b
  inside : ∀ off ∈ t.tr.listedOffsets t.mem, off + 24 ≤ t.tr.data.size
  bytes : List.Forall₂ (fun off o => slice t.mem (t.tr.data.start + off) 24 = flatObject o.2)
    (t.tr.listedOffsets t.mem) objects
  held : List.Forall₂ (fun off o => Holds t.mem (t.tr.data.start + off) o.2)
    (t.tr.listedOffsets t.mem) objects
  pooled : ∀ client address, (client, Object.localObject address) ∈ objects →
    (pools client).contains address.toNat

/-- The handle of a remote object fits into a `flat_binder_object`. -/
def Fits : Object → Prop
  | .localObject _ => True
  | .remoteObject _ handle => handle.toNat < 2 ^ 32

instance (o : Object) : Decidable (Fits o) := by
  cases o <;> unfold Fits <;> infer_instance

theorem holds_iff {m : Mem} {p : ℕ} {o : Object} (h : slice m p 24 = flatObject o) :
    Holds m p o ↔ Fits o := by
  cases o with
  | localObject address =>
    have haddress := address.toNat_lt
    simp only [Holds, Fits, iff_true]
    refine ⟨objType_flatBinderObject h, objBinder_flatBinderObject h, ?_⟩
    rw [objCookie_flatBinderObject h]
    exact Nat.mod_eq_of_lt (by omega)
  | remoteObject address handle =>
    simp only [Holds, Fits, objType_flatBinderObject h, objHandle_flatBinderObject h,
      objCookie_flatBinderObject h, true_and]
    constructor
    · rintro ⟨hhandle, -⟩
      omega
    · intro hhandle
      exact ⟨by omega, Nat.zero_mod _⟩

theorem forall₂_holds_iff {m : Mem} {start : ℕ} {offsets : List ℕ} {objects : List (ℕ × Object)}
    (h : List.Forall₂ (fun off o => slice m (start + off) 24 = flatObject o.2) offsets objects) :
    List.Forall₂ (fun off o => Holds m (start + off) o.2) offsets objects ↔
      ∀ o ∈ objects, Fits o.2 := by
  induction h with
  | nil => simp
  | cons hslice _ ih => rw [List.forall₂_cons, List.forall_mem_cons, holds_iff hslice, ih]

theorem listedOffsets_finalize {w : ParcelTransactionDataWriter} {offsets : List ℕ}
    (hw : w.objects.bytes = offsets.flatMap (leBytes 8)) (h64 : ∀ off ∈ offsets, off < 2 ^ 64) :
    (finalize w).tr.listedOffsets (finalize w).mem = offsets := by
  have hlength : (offsets.flatMap (leBytes 8)).length / 8 = offsets.length := by
    simp
  have hload := map_load_flatMap (w := 8) [] offsets w.data.bytes h64
  rw [List.append_nil] at hload
  unfold TransactionData.listedOffsets TransactionData.numObjectOffsets finalize
  simp only [hw, hlength]
  exact hload

section Parcel

variable (code : ℕ) (pools : ℕ → ObjectPool) (ws : List Write)

/-- The parcel after the calls, with a new writer. -/
def parcelOf : ParcelState := writeAll { writer := { code := code }, pools := pools } ws

theorem parcelOf_data : (parcelOf code pools ws).writer.data.bytes = ws.flatMap chunk :=
  (writeAll_writer rfl ws).1

theorem parcelOf_objects : (parcelOf code pools ws).writer.objects.bytes =
    (offsetsFrom 0 ws).flatMap (leBytes 8) :=
  (writeAll_writer rfl ws).2

theorem listedOffsets_parcelOf
    (h64 : (parcelOf code pools ws).writer.data.bytes.length < 2 ^ 64) :
    (finalize (parcelOf code pools ws).writer).tr.listedOffsets
      (finalize (parcelOf code pools ws).writer).mem = offsetsFrom 0 ws := by
  obtain ⟨hin, -, -⟩ := offsetsFrom_spec ws 0
  rw [parcelOf_data] at h64
  refine listedOffsets_finalize (parcelOf_objects code pools ws) fun off hoff => ?_
  have := hin off hoff
  omega

/-- The bytes of each object stand at its position. -/
theorem bytes_parcelOf : List.Forall₂ (fun off o =>
    slice (finalize (parcelOf code pools ws).writer).mem
      ((finalize (parcelOf code pools ws).writer).tr.data.start + off) 24 = flatObject o.2)
    (offsetsFrom 0 ws) (objectsOf ws) := by
  refine (forall₂_offsetsFrom ws []).imp fun off o ⟨l, r, hlr, hl⟩ => ?_
  have h := slice_ofList_append l (flatObject o.2)
    (r ++ (parcelOf code pools ws).writer.objects.bytes)
  rw [length_flatObject, hl] at h
  rw [List.nil_append] at hlr
  simp only [finalize, parcelOf_data, Nat.zero_add, hlr, List.append_assoc]
  exact h

/-- **A parcel is sound exactly if 32 bits hold the handles of the remote objects** in it. -/
theorem sound_iff (h64 : (parcelOf code pools ws).writer.data.bytes.length < 2 ^ 64) :
    Sound (finalize (parcelOf code pools ws).writer) (parcelOf code pools ws).pools
      (objectsOf ws) ↔ ∀ o ∈ objectsOf ws, Fits o.2 := by
  obtain ⟨hin, hdvd, hapart⟩ := offsetsFrom_spec ws 0
  have hoffsets := listedOffsets_parcelOf code pools ws h64
  have hbytes := bytes_parcelOf code pools ws
  have hsize : (finalize (parcelOf code pools ws).writer).tr.data.size =
      (ws.flatMap chunk).length := congrArg List.length (parcelOf_data code pools ws)
  rw [← forall₂_holds_iff hbytes]
  constructor
  · intro hsound
    have hheld := hsound.held
    rwa [hoffsets] at hheld
  · intro hheld
    refine ⟨?_, ?_, ?_, ?_, ?_, fun client address h => contains_of_written h⟩
    · rw [hoffsets]
      exact hdvd (by omega)
    · rw [hoffsets]
      exact hapart
    · rw [hoffsets, hsize]
      intro off hoff
      have := hin off hoff
      omega
    · rw [hoffsets]
      exact hbytes
    · rw [hoffsets]
      exact hheld

end Parcel

/-- An integer, a local object, a string and a remote object, for client `3`. -/
def mixedWrites : List Write :=
  [.int32 10, .object 3 (.localObject 0x7f40), .string16 [104, 105], .object 3 (.remoteObject 8 7)]

theorem sound_iff_mixedWrites :
    Sound (finalize (parcelOf 1 (fun _ => {}) mixedWrites).writer)
        (parcelOf 1 (fun _ => {}) mixedWrites).pools (objectsOf mixedWrites) ↔
      ∀ o ∈ objectsOf mixedWrites, Fits o.2 :=
  sound_iff 1 (fun _ => {}) mixedWrites (by decide)

/-- A remote object whose handle takes 33 bits. -/
def wideWrites : List Write := [.object 3 (.remoteObject 8 0x100000000)]

/-- Its handle in the parcel is the one of the context object. -/
theorem handle_truncated :
    objHandle (finalize (parcelOf 1 (fun _ => {}) wideWrites).writer).mem 0 = 0 ∧
      ¬ Sound (finalize (parcelOf 1 (fun _ => {}) wideWrites).writer)
        (parcelOf 1 (fun _ => {}) wideWrites).pools (objectsOf wideWrites) := by
  refine ⟨by decide, fun hsound => ?_⟩
  have hlisted : (finalize (parcelOf 1 (fun _ => {}) wideWrites).writer).tr.listedOffsets
      (finalize (parcelOf 1 (fun _ => {}) wideWrites).writer).mem = [0] := by decide
  have hheld := hsound.held
  rw [hlisted] at hheld
  have hnot : ¬ Holds (finalize (parcelOf 1 (fun _ => {}) wideWrites).writer).mem 0
      (.remoteObject 8 0x100000000) := by decide
  exact hnot (List.forall₂_cons.mp hheld).1

end Binderd.Parcels.Writer
