import Binderd.Lib.Bytes

/-! # `BinaryReader` and `BinaryWriter`

The reader walks a buffer with a cursor. A fixed-width read checks that all its bytes are there,
returns *one* byte (`static_cast<T>(*current)` of a byte pointer) and moves on by the width.
Variable length data is returned as a view, the position and the size of the bytes in the buffer
that was read from: `ReadData` builds its result with `Buffer::Create(current, size)`, which does
not copy. For no data it is `Buffer::Create(0)`, which allocates nothing: the empty view has a null
pointer, and whoever dereferences it crashes.

The writer is the one every message is built with: it starts on an empty buffer, so its cursor is
always at the end and a write appends. Sizes above `INT32_MAX`, which `WriteData` rejects, do not
arise in a message: a frame holds less than `2 ^ 16` bytes. A string may be that long, and then
`WriteString` throws when it has written the length.

A `u16string` is the list of its code units. -/

namespace Binderd.Wire.Streams

open Binderd.Lib.Bytes

/-- The exceptions the code throws, by the clause that catches them. -/
inductive Exn where
  | outOfRange
  | other
deriving DecidableEq, Repr

/-- How a call fails to return. -/
inductive Failure where
  /-- An exception leaves it. -/
  | thrown (e : Exn)
  /-- It dereferences a null pointer, and the process dies. -/
  | crashed
deriving DecidableEq, Repr

/-- A view into a buffer. The position of an empty one means nothing. -/
structure View where
  start : ℕ
  size : ℕ
deriving DecidableEq, Repr

/-- `GetData` returns a null pointer: nothing was allocated for an empty buffer. -/
def View.IsNull (v : View) : Prop := v.size = 0

instance (v : View) : Decidable v.IsNull := inferInstanceAs (Decidable (_ = _))

/-- The bytes a view shows of the buffer `l`. -/
def View.bytes (v : View) (l : List UInt8) : List UInt8 := (l.drop v.start).take v.size

/-- The size with padding. Sizes above `UINT32_MAX - 3` are refused. -/
def padSize (s : ℕ) : Except Exn ℕ :=
  if 2 ^ 32 - 1 - 3 < s then .error .other else .ok ((s + 3) / 4 * 4)

/-! ### Reading -/

/-- A buffer, and the cursor in it. -/
structure BinaryReader where
  buffer : List UInt8
  current : ℕ
  usePadding : Bool := true

namespace BinaryReader

/-- `ReadValue<T>`, `w` the size of `T`. The value is the first byte, for the signed types too. -/
def readValue (r : BinaryReader) (w : ℕ) : Except Exn (ℕ × BinaryReader) :=
  if r.buffer.length < r.current + w then .error .outOfRange
  else .ok ((r.buffer.getD r.current 0).toNat, { r with current := r.current + w })

/-- The readers of fixed width. -/
def readUint16 (r : BinaryReader) : Except Exn (ℕ × BinaryReader) := r.readValue 2

def readUint32 (r : BinaryReader) : Except Exn (ℕ × BinaryReader) := r.readValue 4

def readUint64 (r : BinaryReader) : Except Exn (ℕ × BinaryReader) := r.readValue 8

def readInt16 (r : BinaryReader) : Except Exn (ℕ × BinaryReader) := r.readValue 2

def readInt32 (r : BinaryReader) : Except Exn (ℕ × BinaryReader) := r.readValue 4

def readInt64 (r : BinaryReader) : Except Exn (ℕ × BinaryReader) := r.readValue 8

/-- `ReadData`. The result is a view into the buffer; that of `Buffer::Create(0)` is null. -/
def readData (r : BinaryReader) (size : ℕ) : Except Exn (View × BinaryReader) :=
  if size = 0 then .ok (⟨r.current, 0⟩, r)
  else do
    let padded ← if r.usePadding then padSize size else pure size
    if r.buffer.length < r.current + padded then .error .outOfRange
    else .ok (⟨r.current, size⟩, { r with current := r.current + padded })

/-- `BinaryReader::ReadSizedData`. -/
def readSizedData (r : BinaryReader) : Except Exn (View × BinaryReader) := do
  let (size, r) ← r.readInt32
  r.readData size

/-- `ReadString`: the bytes and one more, which is not looked at. -/
def readString (r : BinaryReader) : Except Exn (List UInt8 × BinaryReader) := do
  let (size, r) ← r.readInt32
  let dataSize := size + 1
  let padded ← if r.usePadding then padSize dataSize else pure dataSize
  if r.buffer.length < r.current + padded then .error .outOfRange
  else .ok ((View.mk r.current size).bytes r.buffer, { r with current := r.current + padded })

/-- The `n` code units from position `p` on. -/
def unitsAt (l : List UInt8) (p n : ℕ) : List UInt16 :=
  (List.range n).map fun i => UInt16.ofNat (load (ofList l) (p + 2 * i) 2)

/-- `ReadString16`: the code units and a terminator, which is not looked at. -/
def readString16 (r : BinaryReader) : Except Exn (List UInt16 × BinaryReader) := do
  let (size, r) ← r.readInt32
  let dataSize := (size + 1) * 2
  let padded ← if r.usePadding then padSize dataSize else pure dataSize
  if r.buffer.length < r.current + padded then .error .outOfRange
  else .ok (unitsAt r.buffer r.current size, { r with current := r.current + padded })

/-- `Skip<T>`, `w` the size of `T`. -/
def skip (r : BinaryReader) (w : ℕ) : Except Exn BinaryReader :=
  if r.buffer.length < r.current + w then .error .outOfRange
  else .ok { r with current := r.current + w }

/-- `BinaryReader::SetPadding`. -/
def setPadding (r : BinaryReader) (enable : Bool) : BinaryReader := { r with usePadding := enable }

/-- `GetBytesRead` counts from the beginning of the buffer, not from the start offset. -/
def getBytesRead (r : BinaryReader) : ℕ := r.current

end BinaryReader

/-! ### Writing -/

/-- What has been written. -/
structure BinaryWriter where
  bytes : List UInt8 := []
  usePadding : Bool := true

namespace BinaryWriter

/-- `BinaryWriter::WriteValue` for a value of `w` bytes. -/
def writeValue (b : BinaryWriter) (w value : ℕ) : BinaryWriter :=
  { b with bytes := b.bytes ++ leBytes w value }

/-- The writers of fixed width. -/
def writeUint16 (b : BinaryWriter) (value : ℕ) : BinaryWriter := b.writeValue 2 value

def writeUint32 (b : BinaryWriter) (value : ℕ) : BinaryWriter := b.writeValue 4 value

def writeUint64 (b : BinaryWriter) (value : ℕ) : BinaryWriter := b.writeValue 8 value

def writeInt16 (b : BinaryWriter) (value : ℤ) : BinaryWriter :=
  b.writeValue 2 (value % 2 ^ 16).toNat

/-- A signed value is stored in two's complement. -/
def writeInt32 (b : BinaryWriter) (value : ℤ) : BinaryWriter :=
  b.writeValue 4 (value % 2 ^ 32).toNat

def writeInt64 (b : BinaryWriter) (value : ℤ) : BinaryWriter :=
  b.writeValue 8 (value % 2 ^ 64).toNat

/-- The zero bytes after `size` bytes of data. -/
def padding (b : BinaryWriter) (size : ℕ) : List UInt8 :=
  if b.usePadding then List.replicate ((size + 3) / 4 * 4 - size) 0 else []

/-- `BinaryWriter::WriteData`. -/
def writeData (b : BinaryWriter) (data : List UInt8) : BinaryWriter :=
  { b with bytes := b.bytes ++ data ++ b.padding data.length }

/-- `BinaryWriter::WriteSizedData`. -/
def writeSizedData (b : BinaryWriter) (data : List UInt8) : BinaryWriter :=
  (b.writeInt32 data.length).writeData data

/-- The bytes of the code units. -/
def unitBytes (str : List UInt16) : List UInt8 := str.flatMap fun u => leBytes 2 u.toNat

/-- `WriteString`, of a `u16string`, with the exception that leaves it. -/
def writeString (b : BinaryWriter) (str : List UInt16) : BinaryWriter × Option Exn :=
  let b := b.writeInt32 str.length
  if str.length = 0 then (b, none)
  else if 2 ^ 31 - 1 < (str.length + 1) * 2 then (b, some .outOfRange)
  else (b.writeData (unitBytes (str ++ [0])), none)

/-- `WriteString`, of a pointer and a size: the bytes there and the one after them. -/
def writeChars (b : BinaryWriter) (s : List UInt8) (last : UInt8) : BinaryWriter :=
  b.writeSizedData (s ++ [last])

/-- `WriteString`, of a `std::string`. -/
def writeStdString (b : BinaryWriter) (str : List UInt8) : BinaryWriter := b.writeChars str 0

/-- `BinaryWriter::SetPadding`. -/
def setPadding (b : BinaryWriter) (enable : Bool) : BinaryWriter := { b with usePadding := enable }

/-- `BinaryWriter::GetBytesWritten`. -/
def getBytesWritten (b : BinaryWriter) : ℕ := b.bytes.length

end BinaryWriter

/-! ### What a read can do -/

namespace BinaryReader

variable {r r' : BinaryReader}

theorem readValue_ok {w n : ℕ} (h : r.readValue w = .ok (n, r')) :
    r.current + w ≤ r.buffer.length ∧ n = (r.buffer.getD r.current 0).toNat ∧
      r' = { r with current := r.current + w } := by
  unfold readValue at h
  split_ifs at h with hlt
  cases h
  exact ⟨by omega, rfl, rfl⟩

theorem readValue_of_le {w : ℕ} (h : r.current + w ≤ r.buffer.length) :
    r.readValue w =
      .ok ((r.buffer.getD r.current 0).toNat, { r with current := r.current + w }) := by
  unfold readValue
  rw [if_neg (by omega)]

theorem readValue_of_lt {w : ℕ} (h : r.buffer.length < r.current + w) :
    r.readValue w = .error .outOfRange := by
  unfold readValue
  rw [if_pos h]

theorem padSize_of_lt {size : ℕ} (hs : size < 2 ^ 32 - 3) :
    padSize size = .ok ((size + 3) / 4 * 4) := by
  unfold padSize
  rw [if_neg (by omega)]

theorem readData_of_padding (r : BinaryReader) (size : ℕ) (hp : r.usePadding = true)
    (hs : size < 2 ^ 32 - 3) (h : r.current + (size + 3) / 4 * 4 ≤ r.buffer.length) :
    r.readData size =
      .ok (⟨r.current, size⟩, { r with current := r.current + (size + 3) / 4 * 4 }) := by
  unfold readData
  by_cases h0 : size = 0
  · subst h0
    rfl
  · rw [if_neg h0, if_pos hp, padSize_of_lt hs]
    simp only [bind, Except.bind]
    rw [if_neg (by omega)]

theorem readData_of_lt (r : BinaryReader) (size : ℕ) (hp : r.usePadding = true)
    (h0 : size ≠ 0) (hs : size < 2 ^ 32 - 3)
    (h : r.buffer.length < r.current + (size + 3) / 4 * 4) :
    r.readData size = .error .outOfRange := by
  unfold readData
  rw [if_neg h0, if_pos hp, padSize_of_lt hs]
  simp only [bind, Except.bind]
  rw [if_pos h]

end BinaryReader

end Binderd.Wire.Streams
