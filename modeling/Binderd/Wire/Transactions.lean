import Binderd.Lib.Walks
import Binderd.Wire.Messages

/-! # Transactions and the objects in them

The data of a Transaction message holds a binder, a cookie, a code, flags, the transaction's own
data and the array of object offsets. `fromMessage` decodes it the way `TransactionDataFromMessage`
does: without padding, the two variable parts as views; `decoded` is what it returns for data that
is `Complete`. It reads nothing of the transaction's own data, so rewriting objects there does not
change what it returns (`decoded_congr`). `packTransaction` is `TransactionData::Pack`.

An object is a `flat_binder_object` of 24 bytes at an offset into the transaction's data. `binder`
and `handle` share their place: `handle` is the low half of the eight bytes of `binder`. A
transaction without data has a null pointer for them, so an object that it lists all the same
cannot be looked at (`ListsNull`). -/

namespace Binderd.Wire.Transactions

open Binderd.Lib.Bytes Binderd.Lib.Walks Binderd.Wire.Streams Binderd.Wire.Messages

/-- The fields the two subclasses of `TransactionData` provide. The views are into the message the
transaction came with. -/
structure TransactionData where
  binder : ℕ := 0
  cookie : ℕ := 0
  code : ℕ := 0
  isOneWay : Bool := false
  hasStatus : Bool := false
  data : View
  objects : View
deriving DecidableEq

namespace TransactionData

/-- `GetNumObjectOffsets`. -/
def numObjectOffsets (tr : TransactionData) : ℕ := tr.objects.size / 8

/-- The offsets as the sender listed them, eight bytes each. -/
def listedOffsets (tr : TransactionData) (m : Mem) : List ℕ :=
  (List.range tr.numObjectOffsets).map fun i => load m (tr.objects.start + 8 * i) 8

/-- The positions that the offsets name. Only the low byte of an offset is read. -/
def namedPositions (tr : TransactionData) (m : Mem) : List ℕ :=
  positions m tr.data.start tr.numObjectOffsets tr.objects.start

/-- An object is listed although there are no data: `GetMutableData` returns a null pointer, and
whoever goes to the object dereferences it. -/
def ListsNull (tr : TransactionData) : Prop := tr.data.IsNull ∧ 0 < tr.numObjectOffsets

instance (tr : TransactionData) : Decidable tr.ListsNull := inferInstanceAs (Decidable (_ ∧ _))

theorem not_listsNull_of_none {tr : TransactionData} (h : tr.numObjectOffsets = 0) :
    ¬ tr.ListsNull := fun hn => hn.2.ne' h

/-- Objects inside the data are not looked for at a null pointer. -/
theorem not_listsNull_of_inside {tr : TransactionData} {m : Mem}
    (h : ∀ o ∈ tr.listedOffsets m, o + 24 ≤ tr.data.size) : ¬ tr.ListsNull := by
  rintro ⟨hnull, hpos⟩
  have hin := h _ (List.mem_map_of_mem (List.mem_range.mpr hpos))
  unfold View.IsNull at hnull
  omega

end TransactionData

/-- `TransactionDataFromMessage`, on the data of the message. -/
def fromMessage (payload : List UInt8) : Except Exn TransactionData := do
  let reader : BinaryReader := { buffer := payload, current := 0, usePadding := false }
  let (binder, reader) ← reader.readUint64
  let (cookie, reader) ← reader.readUint64
  let (code, reader) ← reader.readUint32
  let (flags, reader) ← reader.readUint32
  let (data, reader) ← reader.readSizedData
  let (objects, _) ← reader.readSizedData
  return { binder, cookie, code, isOneWay := flags.testBit 0, hasStatus := flags.testBit 3,
           data, objects }

/-- `TransactionData::Pack`, with `m` the memory the views are into. -/
def packTransaction (tr : TransactionData) (m : Mem) : List UInt8 :=
  let writer : BinaryWriter := { usePadding := false }
  let writer := writer.writeUint64 tr.binder
  let writer := writer.writeUint64 tr.cookie
  let writer := writer.writeUint32 tr.code
  let flags := 0x10 + (if tr.isOneWay then 0x1 else 0) + (if tr.hasStatus then 0x8 else 0)
  let writer := writer.writeUint32 flags
  let writer := writer.writeSizedData (slice m tr.data.start tr.data.size)
  let writer := writer.writeSizedData (slice m tr.objects.start (tr.numObjectOffsets * 8))
  writer.bytes

/-! ### Decoding -/

/-- The byte at a position, as a read returns it. -/
def byteOf (l : List UInt8) (i : ℕ) : ℕ := (l.getD i 0).toNat

theorem byteOf_lt (l : List UInt8) (i : ℕ) : byteOf l i < 256 := UInt8.toNat_lt _

theorem readValue_unpadded {l : List UInt8} {p w : ℕ} (h : p + w ≤ l.length) :
    (BinaryReader.mk l p false).readValue w = .ok (byteOf l p, ⟨l, p + w, false⟩) :=
  BinaryReader.readValue_of_le (r := ⟨l, p, false⟩) h

theorem readValue_short {l : List UInt8} {p w : ℕ} (h : l.length < p + w) :
    (BinaryReader.mk l p false).readValue w = .error .outOfRange :=
  BinaryReader.readValue_of_lt (r := ⟨l, p, false⟩) h

/-- An unpadded `readSizedData`: the size is one byte, and the data follow the four bytes of it. -/
theorem readSizedData_unpadded {l : List UInt8} {p : ℕ} (h : p + 4 + byteOf l p ≤ l.length) :
    (BinaryReader.mk l p false).readSizedData =
      .ok (⟨p + 4, byteOf l p⟩, ⟨l, p + 4 + byteOf l p, false⟩) := by
  unfold BinaryReader.readSizedData BinaryReader.readInt32
  rw [readValue_unpadded (by omega)]
  simp only [bind, Except.bind, BinaryReader.readData]
  by_cases h0 : byteOf l p = 0
  · simp [h0]
  · simp [h0, pure, Except.pure, h]

theorem readSizedData_short {l : List UInt8} {p : ℕ} (h : l.length < p + 4 + byteOf l p) :
    (BinaryReader.mk l p false).readSizedData = .error .outOfRange := by
  unfold BinaryReader.readSizedData BinaryReader.readInt32
  by_cases h4 : l.length < p + 4
  · rw [readValue_short h4]
    rfl
  · rw [readValue_unpadded (by omega)]
    have h0 : byteOf l p ≠ 0 := by omega
    simp [bind, Except.bind, BinaryReader.readData, h0, pure, Except.pure, h]

/-- What `fromMessage` returns. -/
def decoded (payload : List UInt8) : TransactionData :=
  { binder := byteOf payload 0
    cookie := byteOf payload 8
    code := byteOf payload 16
    isOneWay := (byteOf payload 20).testBit 0
    hasStatus := (byteOf payload 20).testBit 3
    data := ⟨28, byteOf payload 24⟩
    objects := ⟨32 + byteOf payload 24, byteOf payload (28 + byteOf payload 24)⟩ }

/-- The payload is long enough for what it announces. -/
def Complete (payload : List UInt8) : Prop :=
  32 + byteOf payload 24 + byteOf payload (28 + byteOf payload 24) ≤ payload.length

instance (payload : List UInt8) : Decidable (Complete payload) := Nat.decLe _ _

/-- **Decoding in closed form**, of a payload that is complete. -/
theorem fromMessage_of_complete {payload : List UInt8} (h : Complete payload) :
    fromMessage payload = .ok (decoded payload) := by
  unfold Complete at h
  simp only [fromMessage, BinaryReader.readUint64, BinaryReader.readUint32, bind, Except.bind]
  rw [readValue_unpadded (by omega)]
  simp only
  rw [readValue_unpadded (by omega)]
  simp only
  rw [readValue_unpadded (by omega)]
  simp only
  rw [readValue_unpadded (by omega)]
  simp only [Nat.zero_add, Nat.reduceAdd]
  rw [readSizedData_unpadded (by omega)]
  simp only [Nat.reduceAdd]
  rw [readSizedData_unpadded (by omega)]
  simp only [decoded, pure, Except.pure, show 28 + byteOf payload 24 + 4 =
    32 + byteOf payload 24 by omega]

theorem fromMessage_of_not_complete {payload : List UInt8} (h : ¬ Complete payload) :
    fromMessage payload = .error .outOfRange := by
  unfold Complete at h
  simp only [fromMessage, BinaryReader.readUint64, BinaryReader.readUint32, bind, Except.bind]
  -- the first read that is cut short throws, whatever the reads before it returned
  rcases Nat.lt_or_ge payload.length (0 + 8) with h1 | h1
  · rw [readValue_short h1]
  rw [readValue_unpadded h1]
  simp only
  rcases Nat.lt_or_ge payload.length (0 + 8 + 8) with h2 | h2
  · rw [readValue_short h2]
  rw [readValue_unpadded h2]
  simp only
  rcases Nat.lt_or_ge payload.length (0 + 8 + 8 + 4) with h3 | h3
  · rw [readValue_short h3]
  rw [readValue_unpadded h3]
  simp only
  rcases Nat.lt_or_ge payload.length (0 + 8 + 8 + 4 + 4) with h4 | h4
  · rw [readValue_short h4]
  rw [readValue_unpadded h4]
  simp only [Nat.zero_add, Nat.reduceAdd]
  rcases Nat.lt_or_ge payload.length (24 + 4 + byteOf payload 24) with h5 | h5
  · rw [readSizedData_short h5]
  rw [readSizedData_unpadded h5]
  simp only [Nat.reduceAdd]
  rw [readSizedData_short (by omega)]

/-- The bytes of the transaction's own data play no part in decoding. -/
theorem decoded_congr {l l' : List UInt8}
    (h : ∀ i, i < 28 ∨ 28 + byteOf l 24 ≤ i → l.getD i 0 = l'.getD i 0) :
    decoded l = decoded l' := by
  have hb : ∀ i, i < 28 ∨ 28 + byteOf l 24 ≤ i → byteOf l i = byteOf l' i := fun i hi => by
    unfold byteOf
    rw [h i hi]
  have h24 := hb 24 (by omega)
  have hobj : byteOf l (28 + byteOf l 24) = byteOf l' (28 + byteOf l' 24) := by
    rw [hb _ (Or.inr le_rfl), h24]
  unfold decoded
  rw [hb 0 (by omega), hb 8 (by omega), hb 16 (by omega), hb 20 (by omega), hobj, h24]

theorem complete_iff {l : List UInt8} :
    Complete l ↔ (decoded l).objects.start + (decoded l).objects.size ≤ l.length := Iff.rfl

/-! ### Decoding what was packed -/

theorem packTransaction_eq (tr : TransactionData) (m : Mem) :
    packTransaction tr m = leBytes 8 tr.binder ++ (leBytes 8 tr.cookie ++ (leBytes 4 tr.code ++
      (leBytes 4 (0x10 + (if tr.isOneWay then 0x1 else 0) + if tr.hasStatus then 0x8 else 0) ++
      (leBytes 4 (tr.data.size % 2 ^ 32) ++ (slice m tr.data.start tr.data.size ++
      (leBytes 4 (tr.numObjectOffsets * 8 % 2 ^ 32) ++
        slice m tr.objects.start (tr.numObjectOffsets * 8))))))) := by
  simp [packTransaction, BinaryWriter.writeUint32, BinaryWriter.writeUint64,
    BinaryWriter.writeSizedData, BinaryWriter.writeInt32, BinaryWriter.writeValue,
    BinaryWriter.writeData, BinaryWriter.padding]
  norm_cast

theorem data_of_packTransaction {tr : TransactionData} {m m' : Mem}
    (h : packTransaction tr m = packTransaction tr m') :
    slice m tr.data.start tr.data.size = slice m' tr.data.start tr.data.size := by
  simp only [packTransaction_eq, List.append_cancel_left_eq] at h
  exact (List.append_inj h (by simp)).1

theorem byteOf_append (l r : List UInt8) {w : ℕ} (hw : 0 < w) (n : ℕ) :
    byteOf (l ++ (leBytes w n ++ r)) l.length = n % 256 := by
  obtain ⟨w, rfl⟩ : ∃ w', w = w' + 1 := ⟨w - 1, by omega⟩
  have h := load_ofList_append l r (w + 1) n
  rw [load, pow_succ', Nat.mod_mul] at h
  have h1 : byteOf (l ++ (leBytes (w + 1) n ++ r)) l.length =
      (ofList (l ++ (leBytes (w + 1) n ++ r)) l.length).toNat := rfl
  have h2 := (ofList (l ++ (leBytes (w + 1) n ++ r)) l.length).toNat_lt
  have h3 := Nat.mod_lt n (show 0 < 256 by omega)
  omega

/-- What the bytes `l` of a packed transaction hold: its binder and its cookie, the views under
which it is decoded, and the bytes of its data and of its offsets. -/
structure Packed (tr : TransactionData) (m : Mem) (l : List UInt8) : Prop where
  binder : load (ofList l) 0 8 = tr.binder % 256 ^ 8
  cookie : load (ofList l) 8 8 = tr.cookie % 256 ^ 8
  code : (decoded l).code = tr.code % 256
  data : (decoded l).data = ⟨28, tr.data.size⟩
  objects : (decoded l).objects = ⟨32 + tr.data.size, tr.numObjectOffsets * 8⟩
  dataBytes : slice (ofList l) 28 tr.data.size = slice m tr.data.start tr.data.size
  offsetBytes : slice (ofList l) (32 + tr.data.size) (tr.numObjectOffsets * 8) =
    slice m tr.objects.start (tr.numObjectOffsets * 8)
  complete : Complete l

/-- **Packing and decoding a transaction** whose parts are shorter than `256` bytes; `pad` is the
padding of the message. -/
theorem packed_packTransaction (tr : TransactionData) (m : Mem) (pad : List UInt8)
    (hd : tr.data.size < 256) (ho : tr.numObjectOffsets * 8 < 256) :
    Packed tr m (packTransaction tr m ++ pad) := by
  have hL := congrArg (· ++ pad) (packTransaction_eq tr m)
  simp only [Nat.mod_eq_of_lt (show tr.data.size < 2 ^ 32 by omega),
    Nat.mod_eq_of_lt (show tr.numObjectOffsets * 8 < 2 ^ 32 by omega), List.append_assoc] at hL
  generalize packTransaction tr m ++ pad = L at hL ⊢
  have hdl : (slice m tr.data.start tr.data.size).length = tr.data.size := length_slice ..
  have hol : (slice m tr.objects.start (tr.numObjectOffsets * 8)).length =
    tr.numObjectOffsets * 8 := length_slice ..
  generalize hdata : slice m tr.data.start tr.data.size = data at hL hdl
  generalize hoffs : slice m tr.objects.start (tr.numObjectOffsets * 8) = offs at hL hol
  generalize hflags : leBytes 4 (0x10 + (if tr.isOneWay then 0x1 else 0) +
    if tr.hasStatus then 0x8 else 0) = flags at hL
  have hfl : flags.length = 4 := by rw [← hflags, length_leBytes]
  -- the bytes before each field
  set p16 := leBytes 8 tr.binder ++ leBytes 8 tr.cookie with hp16
  set p24 := p16 ++ leBytes 4 tr.code ++ flags with hp24
  set p28 := p24 ++ leBytes 4 tr.data.size with hp28
  set p32 := p28 ++ data ++ leBytes 4 (tr.numObjectOffsets * 8) with hp32
  have l16 : p16.length = 16 := by simp [hp16]
  have l24 : p24.length = 24 := by simp [hp24, l16, hfl]
  have l28 : p28.length = 28 := by simp [hp28, l24]
  have lsize : (p28 ++ data).length = 28 + tr.data.size := by simp [l28, hdl]
  have l32 : p32.length = 32 + tr.data.size := by simp [hp32, l28, hdl]; omega
  -- the message, cut before each field
  have e16 : L = p16 ++ (leBytes 4 tr.code ++ (flags ++ (leBytes 4 tr.data.size ++ (data ++
      (leBytes 4 (tr.numObjectOffsets * 8) ++ (offs ++ pad)))))) := by
    simp only [hL, hp16, List.append_assoc]
  have e24 : L = p24 ++ (leBytes 4 tr.data.size ++ (data ++
      (leBytes 4 (tr.numObjectOffsets * 8) ++ (offs ++ pad)))) := by
    simp only [hL, hp24, hp16, List.append_assoc]
  have e28 : L = p28 ++ (data ++ (leBytes 4 (tr.numObjectOffsets * 8) ++ (offs ++ pad))) := by
    simp only [hL, hp28, hp24, hp16, List.append_assoc]
  have esize : L = (p28 ++ data) ++ (leBytes 4 (tr.numObjectOffsets * 8) ++ (offs ++ pad)) := by
    simp only [hL, hp28, hp24, hp16, List.append_assoc]
  have e32 : L = p32 ++ (offs ++ pad) := by
    simp only [hL, hp32, hp28, hp24, hp16, List.append_assoc]
  have hcode : byteOf L 16 = tr.code % 256 := by
    rw [e16, ← l16]
    exact byteOf_append p16 _ (by omega) _
  have hsize : byteOf L 24 = tr.data.size := by
    have h := byteOf_append p24 (data ++ (leBytes 4 (tr.numObjectOffsets * 8) ++ (offs ++ pad)))
      (show 0 < 4 by omega) tr.data.size
    rwa [← e24, l24, Nat.mod_eq_of_lt hd] at h
  have hnum : byteOf L (28 + tr.data.size) = tr.numObjectOffsets * 8 := by
    have h := byteOf_append (p28 ++ data) (offs ++ pad) (show 0 < 4 by omega)
      (tr.numObjectOffsets * 8)
    rwa [← esize, lsize, Nat.mod_eq_of_lt ho] at h
  refine ⟨?_, ?_, hcode, ?_, ?_, ?_, ?_, ?_⟩
  · rw [hL]
    exact load_ofList_append [] _ 8 tr.binder
  · have h := load_ofList_append (leBytes 8 tr.binder) (leBytes 4 tr.code ++ (flags ++
      (leBytes 4 tr.data.size ++ (data ++ (leBytes 4 (tr.numObjectOffsets * 8) ++
        (offs ++ pad)))))) 8 tr.cookie
    rw [length_leBytes] at h
    rw [hL, h]
  · unfold decoded
    rw [hsize]
  · unfold decoded
    simp only [hsize, hnum]
  · have h := slice_ofList_append p28 data (leBytes 4 (tr.numObjectOffsets * 8) ++ (offs ++ pad))
    rwa [← e28, l28, hdl, ← hdata] at h
  · have h := slice_ofList_append p32 offs pad
    rwa [← e32, l32, hol, ← hoffs] at h
  · unfold Complete
    have hlen : L.length = 32 + tr.data.size + tr.numObjectOffsets * 8 + pad.length := by
      rw [hL]
      simp [hfl, hdl, hol]
      omega
    rw [hsize, hnum]
    omega

/-- The flags of a packed transaction are decoded as they were packed. -/
theorem decoded_flags_packTransaction (tr : TransactionData) (m : Mem) (pad : List UInt8) :
    (decoded (packTransaction tr m ++ pad)).isOneWay = tr.isOneWay ∧
      (decoded (packTransaction tr m ++ pad)).hasStatus = tr.hasStatus := by
  set pre := leBytes 8 tr.binder ++ leBytes 8 tr.cookie ++ leBytes 4 tr.code with hpre
  have hlen : pre.length = 20 := by simp [hpre]
  have hflags : byteOf (packTransaction tr m ++ pad) 20 =
      (0x10 + (if tr.isOneWay then 0x1 else 0) + if tr.hasStatus then 0x8 else 0) % 256 := by
    rw [packTransaction_eq, ← hlen, List.append_assoc, List.append_assoc, List.append_assoc,
      List.append_assoc, ← List.append_assoc (leBytes 8 tr.binder), ← List.append_assoc, ← hpre]
    exact byteOf_append pre _ (by omega) _
  simp only [decoded, hflags]
  cases tr.isOneWay <;> cases tr.hasStatus <;> decide

/-! ### Objects -/

/-- The values of the `type` of a `flat_binder_object`. -/
inductive ObjectType where
  | binder | weakBinder | handle | weakHandle | fd
deriving DecidableEq, Repr

namespace ObjectType

/-- `B_PACK_CHARS` of the name of the type. -/
def code : ObjectType → ℕ
  | binder => 0x73622a85
  | weakBinder => 0x77622a85
  | handle => 0x73682a85
  | weakHandle => 0x77682a85
  | fd => 0x66642a85

/-- The type with the code, if there is one. -/
def ofCode (n : ℕ) : Option ObjectType :=
  if n = 0x73622a85 then some binder
  else if n = 0x77622a85 then some weakBinder
  else if n = 0x73682a85 then some handle
  else if n = 0x77682a85 then some weakHandle
  else if n = 0x66642a85 then some fd
  else none

@[simp] theorem ofCode_code (t : ObjectType) : ofCode t.code = some t := by
  cases t <;> rfl

theorem code_lt (t : ObjectType) : t.code < 256 ^ 4 := by
  cases t <;> decide

end ObjectType

/-- The fields of the object at `p`. -/
def objType (m : Mem) (p : ℕ) : Option ObjectType := ObjectType.ofCode (load m p 4)
/-- The fields of the object at `p`; the handle is the lower half of the binder. -/
def objBinder (m : Mem) (p : ℕ) : ℕ := load m (p + 8) 8
def objHandle (m : Mem) (p : ℕ) : ℕ := load m (p + 8) 4
def objCookie (m : Mem) (p : ℕ) : ℕ := load m (p + 16) 8

/-- The object at `p` with one field overwritten. -/
def setType (m : Mem) (p : ℕ) (t : ObjectType) : Mem := store m p 4 t.code
def setBinder (m : Mem) (p n : ℕ) : Mem := store m (p + 8) 8 n
def setHandle (m : Mem) (p n : ℕ) : Mem := store m (p + 8) 4 n
def setCookie (m : Mem) (p n : ℕ) : Mem := store m (p + 16) 8 n

/-! An object is read from its own bytes only. -/

theorem objType_congr {m m' : Mem} {p : ℕ} (h : ∀ i, p ≤ i → i < p + 24 → m' i = m i) :
    objType m' p = objType m p := by
  unfold objType
  rw [load_congr fun i h1 h2 => h i (by omega) (by omega)]

theorem objCookie_congr {m m' : Mem} {p : ℕ} (h : ∀ i, p ≤ i → i < p + 24 → m' i = m i) :
    objCookie m' p = objCookie m p :=
  load_congr fun i h1 h2 => h i (by omega) (by omega)

theorem objCookie_lt (m : Mem) (p : ℕ) : objCookie m p < 2 ^ 64 := load_lt m 8 (p + 16)

theorem objType_setCookie (m : Mem) (p n : ℕ) : objType (setCookie m p n) p = objType m p := by
  unfold objType setCookie
  rw [load_store_of_disjoint (by omega)]

theorem objCookie_setCookie {n : ℕ} (h : n < 2 ^ 64) (m : Mem) (p : ℕ) :
    objCookie (setCookie m p n) p = n := by
  unfold objCookie setCookie
  rw [load_store]
  exact Nat.mod_eq_of_lt h

theorem setCookie_outside (m : Mem) (p n : ℕ) : SameOutside p 24 m (setCookie m p n) :=
  .store m n (by omega) (by omega)

theorem setCookie_eq_self {m : Mem} {p n : ℕ}
    (h : objCookie (setCookie m p n) p = objCookie m p) : setCookie m p n = m := by
  funext i
  by_cases hi : p + 16 ≤ i ∧ i < p + 16 + 8
  · exact eq_of_load_eq h i hi.1 hi.2
  · exact store_of_not_mem (by omega)

/-- The bytes of an object. -/
def flatBinderObject (t : ObjectType) (flags binder cookie : ℕ) : List UInt8 :=
  leBytes 4 t.code ++ leBytes 4 flags ++ leBytes 8 binder ++ leBytes 8 cookie

section FlatBinderObject

variable {m : Mem} {p flags binder cookie : ℕ} {t : ObjectType}
  (h : slice m p 24 = flatBinderObject t flags binder cookie)

include h

theorem load_flatBinderObject {l r : List UInt8} {w n : ℕ}
    (heq : flatBinderObject t flags binder cookie = l ++ (leBytes w n ++ r))
    (hw : l.length + w ≤ 24) : load m (p + l.length) w = n % 256 ^ w := by
  rw [← load_slice hw, h, heq, load_ofList_append]

theorem objType_flatBinderObject : objType m p = some t := by
  have hload := load_flatBinderObject h (l := []) (w := 4) (n := t.code)
    (by simp only [flatBinderObject, List.append_assoc, List.nil_append]; rfl) (by simp)
  rw [Nat.mod_eq_of_lt t.code_lt] at hload
  rw [objType, ← ObjectType.ofCode_code t, ← hload]
  rfl

theorem objBinder_flatBinderObject : objBinder m p = binder % 256 ^ 8 :=
  load_flatBinderObject h (l := leBytes 4 t.code ++ leBytes 4 flags) (r := leBytes 8 cookie)
    (List.append_assoc ..) (by simp)

theorem objHandle_flatBinderObject : objHandle m p = binder % 256 ^ 4 := by
  refine load_flatBinderObject h (l := leBytes 4 t.code ++ leBytes 4 flags)
    (r := leBytes 4 (binder / 256 ^ 4) ++ leBytes 8 cookie) ?_ (by simp)
  rw [← List.append_assoc (leBytes 4 binder), ← leBytes_add]
  exact List.append_assoc ..

theorem objCookie_flatBinderObject : objCookie m p = cookie % 256 ^ 8 :=
  load_flatBinderObject h (l := leBytes 4 t.code ++ leBytes 4 flags ++ leBytes 8 binder) (r := [])
    (by rw [List.append_nil]; rfl) (by simp)

end FlatBinderObject

/-- A transaction with these data and offsets, at the beginning of a memory. -/
def parcel (data : List UInt8) (offsets : List ℕ) : TransactionData :=
  { data := ⟨0, data.length⟩, objects := ⟨data.length, 8 * offsets.length⟩ }

/-- The memory of such a transaction. -/
def parcelMemory (data : List UInt8) (offsets : List ℕ) : Mem :=
  ofList (data ++ offsets.flatMap (leBytes 8))

/-- The request `ClientImpl::Transact` sends for a transaction with these data and offsets. -/
def transactMessage (destination cookie code : ℕ) (data : List UInt8) (offsets : List ℕ) :
    Message :=
  let objects := offsets.flatMap (leBytes 8)
  let tr : TransactionData :=
    { code := code, data := ⟨0, data.length⟩, objects := ⟨data.length, objects.length⟩ }
  let writer : BinaryWriter := {}
  let writer := writer.writeData (packTransaction tr (ofList (data ++ objects)))
  { type := .transaction, destination := destination, cookie := cookie, data := writer.bytes }

/-- A request to be told, as the object `42`, of the death of the handle `1`. -/
def watchMessage (cookie : ℕ) : Message :=
  { type := .requestDeathNotification, cookie := cookie, data := leBytes 8 1 ++ leBytes 8 42 }

end Binderd.Wire.Transactions
