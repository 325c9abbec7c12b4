import Binderd.Parcels.Writer

/-! # `ParcelTransactionDataReader`

The reader walks the data of a parcel with a cursor, as the calls of the writer went. Each call of
the writer has a call that matches it: `EnforceInterface` for `WriteInterfaceToken`, `ReadInt32` for
`WriteInt32`, and so on (`read`).

A string has its terminator on the wire unless it is empty, and the reader reads a terminator in
any case. So it stays in step with the writer up to the first empty string, where it takes four
bytes too many or throws (`inStep_iff`). -/

namespace Binderd.Parcels.Reader

open Binderd.Lib.Bytes Binderd.Lib.Tables
open Binderd.Wire.Streams Binderd.Wire.Messages Binderd.Wire.Transactions Binderd.Wire.Strings
open Binderd.Clients.Handlers Binderd.Parcels.Writer

/-! ### The reader -/

/-- The reader on the data of a transaction. -/
def readerOf (t : Transaction) : BinaryReader :=
  { buffer := slice t.mem t.tr.data.start t.tr.data.size, current := 0 }

theorem readerOf_finalize (w : ParcelTransactionDataWriter) :
    readerOf (finalize w) = { buffer := w.data.bytes, current := 0 } := by
  have hslice := slice_ofList_append [] w.data.bytes w.objects.bytes
  simp only [readerOf, finalize]
  exact congrArg (BinaryReader.mk · 0 true) hslice

/-- `EnforceInterface`; the strict mode policy is read and left aside. -/
def enforceInterface (r : BinaryReader) (name : List UInt8) : Except Exn (Bool × BinaryReader) := do
  let (_, r) ← r.readInt32
  let (str, r) ← r.readString16
  let providedName ← toString8 str
  return (providedName == name, r)

/-- What `ReadObject` returns: a proxy for a handle, an object of the pool by its address, or a
local object without a handler. -/
inductive ReadResult where
  | remoteObject (handle : ℕ)
  | pooled (obj : ℕ)
  | localObject
  | nullptr
deriving DecidableEq

/-- `ReadObject`, with the pool of the client, if there is one. -/
def readObject (r : BinaryReader) (pool : Option ObjectPool) :
    Except Exn (ReadResult × BinaryReader) := do
  let (flat, r) ← r.readData 24
  let m := ofList r.buffer
  match objType m flat.start with
  | some .handle => return (.remoteObject (objHandle m flat.start), r)
  | some .binder =>
    match pool with
    | none => return (.localObject, r)
    | some pool =>
      match pool.getObject (objCookie m flat.start) with
      | some obj => return (.pooled obj, r)
      | none => return (.nullptr, r)
  | _ => return (.nullptr, r)

/-! ### Reading what was written -/

/-- What a read returns. -/
inductive Value where
  | enforced (b : Bool)
  | int32 (n : ℕ)
  | string16 (str : List UInt16)
  | object (o : ReadResult)
deriving DecidableEq

/-- The read that matches a write. An object is read for the client of `pool`. -/
def read (pool : Option ObjectPool) (r : BinaryReader) : Write → Except Exn (Value × BinaryReader)
  | .int32 _ => do
    let (n, r) ← r.readInt32
    return (.int32 n, r)
  | .interfaceToken name _ => do
    let (b, r) ← enforceInterface r name
    return (.enforced b, r)
  | .string16 _ | .string _ => do
    let (str, r) ← r.readString16
    return (.string16 str, r)
  | .object _ _ => do
    let (o, r) ← readObject r pool
    return (.object o, r)

/-- The string that a call writes. -/
def stringOf : Write → Option (Except Exn (List UInt16))
  | .interfaceToken name _ => some (toString16 name)
  | .string16 str => some (.ok str)
  | .string str => some (toString16 str)
  | _ => none

/-- The value is the one that was written, if it is that of a `ReadString16`. -/
def Returns : Value → Write → Prop
  | .string16 str, w => stringOf w = some (.ok str)
  | _, _ => True

/-- The reads that match `ws` do not throw, return the strings, and end where the writes did.
`clients` is what each read is given, by its position. -/
def InStep (clients : ℕ → Option ObjectPool) : ParcelState → BinaryReader → List Write → Prop
  | _, _, [] => True
  | st, r, w :: ws =>
    ∃ value r', read (clients r.current) r w = .ok (value, r') ∧ Returns value w ∧
      r'.getBytesRead = (write st w).1.writer.data.getBytesWritten ∧
      InStep clients (write st w).1 r' ws

/-- The strings have fewer than `256` code units. -/
def Short (w : Write) : Prop :=
  ∀ s, stringOf w = some s → ∃ units, s = .ok units ∧ units.length < 256

/-- The call writes an empty string. -/
def WritesEmpty (w : Write) : Prop := stringOf w = some (.ok [])

section Reads

variable {r : BinaryReader} {pre post : List UInt8} (hp : r.usePadding = true)
  (hc : r.current = pre.length)

include hc

theorem readInt32_ok {n : ℕ} (hb : r.buffer = pre ++ (leBytes 4 n ++ post)) :
    ∃ value, r.readInt32 = .ok (value, { r with current := r.current + 4 }) := by
  refine ⟨_, BinaryReader.readValue_of_le ?_⟩
  rw [hb, hc]
  simp

include hp

theorem readObject_ok (pool : Option ObjectPool) {o : Object}
    (hb : r.buffer = pre ++ (flatObject o ++ post)) :
    ∃ value, readObject r pool = .ok (value, { r with current := r.current + 24 }) := by
  have hread := BinaryReader.readData_of_padding r 24 hp (by omega)
    (by rw [hb, hc]; simp [length_flatObject])
  simp only [readObject, hread, bind, Except.bind]
  split
  · exact ⟨_, rfl⟩
  · split
    · exact ⟨_, rfl⟩
    · split <;> exact ⟨_, rfl⟩
  · exact ⟨_, rfl⟩

theorem enforceInterface_ok {name : List UInt8} {units : List UInt16} {n : ℕ}
    (hname : toString16 name = .ok units) (h0 : units ≠ []) (hs : units.length < 256)
    (hb : r.buffer = pre ++ (leBytes 4 n ++ (stringBytes units ++ post))) :
    enforceInterface r name =
      .ok (true, { r with current := r.current + 4 + (stringBytes units).length }) := by
  obtain ⟨policy, hpolicy⟩ := readInt32_ok hc hb
  rw [← List.append_assoc] at hb
  have hstring := readString16_writeString (r := { r with current := r.current + 4 }) hp hb
    (by simp [hc]) h0 hs
  simp only [enforceInterface, hpolicy, hstring, toString8_toString16 hname, bind, Except.bind,
    pure, Except.pure, beq_self_eq_true]

theorem enforceInterface_empty {name : List UInt8} {n : ℕ}
    (hb : r.buffer = pre ++ (leBytes 4 n ++ (stringBytes [] ++ post))) {b : Bool}
    {r' : BinaryReader} (h : enforceInterface r name = .ok (b, r')) :
    r'.current = r.current + 4 + (stringBytes []).length + 4 := by
  obtain ⟨policy, hpolicy⟩ := readInt32_ok hc hb
  simp only [enforceInterface, hpolicy, bind, Except.bind] at h
  cases hstring : BinaryReader.readString16 { r with current := r.current + 4 } with
  | error e =>
    rw [hstring] at h
    cases h
  | ok res =>
    rw [← List.append_assoc] at hb
    have hres := readString16_empty (r := { r with current := r.current + 4 }) hp hb
      (by simp [hc]) hstring
    rw [hstring] at h
    cases hstr : toString8 res.1 with
    | error e => simp [hstr] at h
    | ok providedName =>
      simp only [hstr, pure, Except.pure] at h
      cases h
      exact hres

variable {w : Write} (hb : r.buffer = pre ++ (chunk w ++ post))

include hb

/-- **A read that is in step**: the string is not empty, if there is one. -/
theorem read_ok (pool : Option ObjectPool) (hs : Short w) (hne : ¬ WritesEmpty w) : ∃ value,
    read pool r w = .ok (value, { r with current := r.current + (chunk w).length }) ∧
      Returns value w := by
  cases w with
  | int32 value =>
    obtain ⟨n, hn⟩ := readInt32_ok hc hb
    refine ⟨.int32 n, ?_, trivial⟩
    simp only [read, hn, bind, Except.bind, chunk, length_leBytes]
    rfl
  | interfaceToken name strictModePolicy =>
    obtain ⟨units, hunits, hlt⟩ := hs _ rfl
    have h0 : units ≠ [] := fun h => hne (by rw [WritesEmpty, stringOf, hunits, h])
    simp only [chunk, string8Bytes, hunits, List.append_assoc] at hb
    refine ⟨.enforced true, ?_, trivial⟩
    simp only [read, enforceInterface_ok hp hc hunits h0 hlt hb, bind, Except.bind, chunk,
      string8Bytes, hunits, List.length_append, length_leBytes, Nat.add_assoc]
    rfl
  | string16 str =>
    obtain ⟨units, hunits, hlt⟩ := hs _ rfl
    cases hunits
    have h0 : str ≠ [] := fun h => hne (by rw [WritesEmpty, stringOf, h])
    refine ⟨.string16 str, ?_, rfl⟩
    simp only [read, readString16_writeString hp hb hc h0 hlt, bind, Except.bind, chunk]
    rfl
  | string str =>
    obtain ⟨units, hunits, hlt⟩ := hs _ rfl
    have h0 : units ≠ [] := fun h => hne (by rw [WritesEmpty, stringOf, hunits, h])
    simp only [chunk, string8Bytes, hunits] at hb
    refine ⟨.string16 units, ?_, by rw [Returns, stringOf, hunits]⟩
    simp only [read, readString16_writeString hp hb hc h0 hlt, bind, Except.bind, chunk,
      string8Bytes, hunits]
    rfl
  | object client o =>
    obtain ⟨value, hvalue⟩ := readObject_ok hp hc pool hb
    refine ⟨.object value, ?_, trivial⟩
    simp only [read, hvalue, bind, Except.bind, chunk, length_flatObject]
    rfl

/-- An empty string puts the reader out of step, if it does not throw. -/
theorem read_empty {pool : Option ObjectPool} (he : WritesEmpty w) {value : Value}
    {r' : BinaryReader} (h : read pool r w = .ok (value, r')) :
    r'.current = r.current + (chunk w).length + 4 := by
  have hstring16 : ∀ {res : Except Exn (List UInt16 × BinaryReader)},
      (do let (str, r) ← res; return (Value.string16 str, r)) = Except.ok (value, r') →
        ∃ str, res = .ok (str, r') := by
    rintro (e | ⟨str, r''⟩) h
    · cases h
    · cases h
      exact ⟨str, rfl⟩
  cases w with
  | int32 value => cases he
  | object client o => cases he
  | string16 str =>
    obtain rfl : str = [] := by simpa [WritesEmpty, stringOf] using he
    obtain ⟨str, hstr⟩ := hstring16 h
    exact readString16_empty hp hb hc hstr
  | string str =>
    have hunits : toString16 str = .ok [] := by simpa [WritesEmpty, stringOf] using he
    simp only [chunk, string8Bytes, hunits] at hb ⊢
    obtain ⟨str, hstr⟩ := hstring16 h
    exact readString16_empty hp hb hc hstr
  | interfaceToken name strictModePolicy =>
    have hunits : toString16 name = .ok [] := by simpa [WritesEmpty, stringOf] using he
    simp only [chunk, string8Bytes, hunits, List.append_assoc] at hb
    cases henforce : enforceInterface r name with
    | error e => simp [read, henforce, bind, Except.bind] at h
    | ok res =>
      have hcurrent := enforceInterface_empty hp hc hb henforce
      simp only [read, henforce, bind, Except.bind, pure, Except.pure] at h
      cases h
      simp only [chunk, string8Bytes, hunits, List.length_append, length_leBytes]
      omega

end Reads

/-! ### All the reads -/

/-- **In step from here on**, exactly if no empty string is written any more. -/
theorem inStep_iff_of_buffer (clients : ℕ → Option ObjectPool) (ws : List Write) :
    ∀ {st : ParcelState} {r : BinaryReader}, st.writer.data.usePadding = true →
      r.usePadding = true → r.buffer = st.writer.data.bytes ++ ws.flatMap chunk →
      r.current = st.writer.data.bytes.length → (∀ w ∈ ws, Short w) →
      (InStep clients st r ws ↔ ∀ w ∈ ws, ¬ WritesEmpty w) := by
  induction ws with
  | nil => simp [InStep]
  | cons w ws ih =>
    intro st r hst hp hb hc hs
    rw [List.forall_mem_cons] at hs ⊢
    rw [List.flatMap_cons] at hb
    have hdata := write_data hst w
    have hwritten : (write st w).1.writer.data.getBytesWritten =
        r.current + (chunk w).length := by
      rw [hdata, hc, BinaryWriter.getBytesWritten, List.length_append]
    rw [InStep, hwritten]
    by_cases he : WritesEmpty w
    · refine iff_of_false ?_ fun h => h.1 he
      rintro ⟨value, r', hread, -, hcurrent, -⟩
      have := read_empty hp hc hb he hread
      rw [BinaryReader.getBytesRead] at hcurrent
      omega
    · obtain ⟨value, hread, hreturns⟩ := read_ok hp hc hb (clients r.current) hs.1 he
      have hst' : (write st w).1.writer.data.usePadding = true := by rw [hdata]; exact hst
      have hrest := ih (r := { r with current := r.current + (chunk w).length }) hst' hp
        (by rw [hdata, hb, List.append_assoc]) (by rw [hdata, hc, List.length_append]) hs.2
      rw [← hrest]
      constructor
      · rintro ⟨value', r', hread', -, -, hstep⟩
        rw [hread] at hread'
        cases hread'
        exact ⟨he, hstep⟩
      · rintro ⟨-, hstep⟩
        exact ⟨value, _, hread, hreturns, rfl, hstep⟩

/-- **The reader is in step with the writer exactly if no string is empty**, of strings whose length
one byte holds. -/
theorem inStep_iff (clients : ℕ → Option ObjectPool) (code : ℕ) (pools : ℕ → ObjectPool)
    (ws : List Write) (hs : ∀ w ∈ ws, Short w) :
    InStep clients { writer := { code := code }, pools := pools }
      (readerOf (finalize (parcelOf code pools ws).writer)) ws ↔ ∀ w ∈ ws, ¬ WritesEmpty w := by
  rw [readerOf_finalize]
  exact inStep_iff_of_buffer clients ws rfl rfl (parcelOf_data code pools ws) rfl hs

/-- A request: a token, a string, a local object and an integer. -/
def addRequest : List Write :=
  [.interfaceToken (['a', 'b'].flatMap String.utf8EncodeChar) 0, .string16 [0x68, 0x69],
    .object 3 (.localObject 0x7f40), .int32 (-1)]

theorem short_addRequest : ∀ w ∈ addRequest, Short w := by
  simp only [addRequest, List.forall_mem_cons]
  refine ⟨?_, ?_, ?_, ?_, by simp⟩
  · rintro s ⟨⟩
    exact ⟨_, toString16_flatMap _, by decide⟩
  · rintro s ⟨⟩
    exact ⟨_, rfl, by decide⟩
  · rintro s ⟨⟩
  · rintro s ⟨⟩

theorem inStep_iff_addRequest :
    InStep (fun _ => none) { writer := { code := 3 }, pools := fun _ => {} }
        (readerOf (finalize (parcelOf 3 (fun _ => {}) addRequest).writer)) addRequest ↔
      ∀ w ∈ addRequest, ¬ WritesEmpty w :=
  inStep_iff (fun _ => none) 3 (fun _ => {}) addRequest short_addRequest

/-- An empty string, and an integer after it. -/
def emptyThenInt : List Write := [.string16 [], .int32 7]

/-- The string is read together with the integer, and there is nothing left to read. -/
theorem integer_swallowed :
    (∃ r', (readerOf (finalize (parcelOf 0 (fun _ => {}) emptyThenInt).writer)).readString16 =
        .ok ([], r') ∧ r'.getBytesRead = 8 ∧ r'.readInt32 = .error .outOfRange) ∧
      ¬ InStep (fun _ => none) {}
        (readerOf (finalize (parcelOf 0 (fun _ => {}) emptyThenInt).writer)) emptyThenInt := by
  have hread : (readerOf (finalize (parcelOf 0 (fun _ => {}) emptyThenInt).writer)).readString16 =
      .ok ([], ⟨[0, 0, 0, 0, 7, 0, 0, 0], 8, true⟩) := rfl
  refine ⟨⟨_, hread, rfl, rfl⟩, ?_⟩
  rintro ⟨value, r', hr', -, hcurrent, -⟩
  simp only [read, hread, bind, Except.bind, pure, Except.pure] at hr'
  cases hr'
  exact absurd hcurrent (by decide)

end Binderd.Parcels.Reader
