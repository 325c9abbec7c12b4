import Binderd.Wire.Strings

/-! # The pointers of a `BinaryReader`

`BinaryReader` as it works on memory: three pointers, into the block of the buffer that it was made
for. A read adds what it needs to `current` and compares the sum with the end. That is safe as long
as the sum does not pass the end of the address space, and so depends on how large a number can get
on its way there: a length prefix is an `int32_t`, is increased, multiplied and rounded up, and
converted to a `size_t` in between. It is safe because a prefix is one byte, whatever its type.

The memory is the whole one, of which nothing is known but that the buffer lies in it. Each reader
notes the spans that it has inspected.

* `Inside`: the cursor and all that was inspected lie between the start offset and the end;
* `call_safe`: a call keeps that, returns bytes from there only, and throws exactly if there are
  fewer bytes left than it needs;
* `call_agrees`: on the bytes of the buffer, the calls are those of `Streams.BinaryReader`. -/

namespace Binderd.Wire.Pointers

open Binderd.Lib.Bytes Binderd.Wire.Streams

/-! ### Machine arithmetic -/

/-- A pointer moved by a number of bytes. -/
def advance (p n : ℕ) : ℕ := (p + n) % 2 ^ 64

/-- The conversion to `size_t`. -/
def sizeT (n : ℤ) : ℕ := (n % 2 ^ 64).toNat

/-! ### The reader -/

/-- Some bytes of the memory. -/
structure Span where
  start : ℕ
  size : ℕ
deriving DecidableEq

/-- A block of memory. The memory of a process lies in the lower half of the address space. -/
structure Buffer where
  data : ℕ
  size : ℕ
  lower_half : data + size ≤ 2 ^ 63

/-- `BinaryReader::Implementation`. -/
structure Implementation where
  bufferBegin : ℕ
  current : ℕ
  bufferEnd : ℕ
  usePadding : Bool := true
  inspected : List Span := []

/-- The reader of a buffer. -/
def Implementation.create (buffer : Buffer) (offset : ℕ) : Implementation :=
  { bufferBegin := buffer.data
    current := advance buffer.data offset
    bufferEnd := advance buffer.data buffer.size }

namespace Implementation

/-- `BinaryReader::SetPadding`. -/
def setPadding (r : Implementation) (enable : Bool) : Implementation :=
  { r with usePadding := enable }

/-- The reader after it has looked at the bytes of a span. -/
def inspect (r : Implementation) (s : Span) : Implementation :=
  { r with inspected := s :: r.inspected }

/-- `Skip<T>`, `size` the size of `T`. -/
def skip (r : Implementation) (size : ℕ) : Except Exn Unit × Implementation :=
  if r.bufferEnd < advance r.current size then (.error .outOfRange, r)
  else (.ok (), { r with current := advance r.current size })

/-- The size with padding, if padding is on. -/
def paddedSize (r : Implementation) (size : ℕ) : Except Exn ℕ :=
  if r.usePadding then padSize size else .ok size

/-- What `ReadData`, `ReadString` and `ReadString16` end with: `size` bytes are copied. -/
def copyData (r : Implementation) (size : ℕ) : Except Exn Span × Implementation :=
  match r.paddedSize size with
  | .error e => (.error e, r)
  | .ok padded =>
    if r.bufferEnd < advance r.current padded then (.error .outOfRange, r)
    else
      (.ok ⟨r.current, size⟩,
        { r.inspect ⟨r.current, size⟩ with current := advance r.current padded })

/-- `ReadData`. Without bytes the result is a buffer of its own, which is taken for the empty one at
the cursor. -/
def readData (r : Implementation) (size : ℕ) : Except Exn Span × Implementation :=
  if size ≤ 0 then (.ok ⟨r.current, 0⟩, r) else r.copyData size

section Memory

variable (mem : Mem)

/-- `ReadValue<T>`, `size` the size of `T` and `cast` the `static_cast` of a byte to it. -/
def readValue {T : Type} (cast : UInt8 → T) (size : ℕ) (r : Implementation) :
    Except Exn T × Implementation :=
  if r.bufferEnd < advance r.current size then (.error .outOfRange, r)
  else
    (.ok (cast (mem r.current)),
      { r.inspect ⟨r.current, 1⟩ with current := advance r.current size })

/-- The readers of fixed width. -/
def readUint16 (r : Implementation) : Except Exn UInt16 × Implementation :=
  r.readValue mem UInt8.toUInt16 2

def readUint32 (r : Implementation) : Except Exn UInt32 × Implementation :=
  r.readValue mem UInt8.toUInt32 4

def readUint64 (r : Implementation) : Except Exn UInt64 × Implementation :=
  r.readValue mem UInt8.toUInt64 8

def readInt16 (r : Implementation) : Except Exn Int16 × Implementation :=
  r.readValue mem (fun b => b.toUInt16.toInt16) 2

def readInt32 (r : Implementation) : Except Exn Int32 × Implementation :=
  r.readValue mem (fun b => b.toUInt32.toInt32) 4

def readInt64 (r : Implementation) : Except Exn Int64 × Implementation :=
  r.readValue mem (fun b => b.toUInt64.toInt64) 8

/-- `BinaryReader::ReadSizedData`. -/
def readSizedData (r : Implementation) : Except Exn Span × Implementation :=
  match r.readInt32 mem with
  | (.error e, r) => (.error e, r)
  | (.ok size, r) => r.readData (sizeT size.toInt)

/-- `ReadString`; `dataSize` is an `int`. -/
def readString (r : Implementation) : Except Exn (List UInt8) × Implementation :=
  match r.readInt32 mem with
  | (.error e, r) => (.error e, r)
  | (.ok size, r) =>
    let dataSize := size.toInt + 1
    match r.copyData (sizeT dataSize) with
    | (.error e, r) => (.error e, r)
    | (.ok data, r) => (.ok ((slice mem data.start data.size).take (sizeT size.toInt)), r)

/-- `ReadString16`; `dataSize` is a `size_t`. -/
def readString16 (r : Implementation) : Except Exn (List UInt16) × Implementation :=
  match r.readInt32 mem with
  | (.error e, r) => (.error e, r)
  | (.ok size, r) =>
    let dataSize := sizeT (size.toInt + 1) * 2 % 2 ^ 64
    match r.copyData dataSize with
    | (.error e, r) => (.error e, r)
    | (.ok data, r) =>
      (.ok (BinaryReader.unitsAt (slice mem data.start data.size) 0 (sizeT size.toInt)), r)

end Memory

end Implementation

/-! ### Calls -/

/-- The calls of the reader. -/
inductive Call where
  | readUint16
  | readUint32
  | readUint64
  | readInt16
  | readInt32
  | readInt64
  | readSizedData
  | readString
  | readString16
  /-- `Skip<T>`, by the size of `T`, which is that of an object. -/
  | skip (size : {n : ℕ // n < 2 ^ 63})
  | setPadding (enable : Bool)

/-- What a call returns. -/
inductive Value where
  | number (n : ℤ)
  | data (s : Span)
  | string (bytes : List UInt8)
  | string16 (units : List UInt16)
  | nothing

/-- The result of a call as a value. -/
def as {α : Type} (f : α → Value) (x : Except Exn α × Implementation) :
    Except Exn Value × Implementation := (x.1.map f, x.2)

/-- A call, with what it returns or throws. -/
def call (mem : Mem) (r : Implementation) : Call → Except Exn Value × Implementation
  | .readUint16 => as (fun v => .number v.toNat) (r.readUint16 mem)
  | .readUint32 => as (fun v => .number v.toNat) (r.readUint32 mem)
  | .readUint64 => as (fun v => .number v.toNat) (r.readUint64 mem)
  | .readInt16 => as (fun v => .number v.toInt) (r.readInt16 mem)
  | .readInt32 => as (fun v => .number v.toInt) (r.readInt32 mem)
  | .readInt64 => as (fun v => .number v.toInt) (r.readInt64 mem)
  | .readSizedData => as .data (r.readSizedData mem)
  | .readString => as .string (r.readString mem)
  | .readString16 => as .string16 (r.readString16 mem)
  | .skip size => as (fun _ => .nothing) (r.skip size)
  | .setPadding enable => (.ok .nothing, r.setPadding enable)

/-- The reader after the calls; who called catches the exceptions. -/
def run (mem : Mem) (r : Implementation) (calls : List Call) : Implementation :=
  calls.foldl (fun r c => (call mem r c).2) r

/-! ### What a call needs -/

/-- The size rounded up, if padding is on. -/
def roundUp (r : Implementation) (size : ℕ) : ℕ :=
  if r.usePadding then (size + 3) / 4 * 4 else size

/-- The number of bytes that a call needs at the cursor; the prefix is the byte there. -/
def needed (mem : Mem) (r : Implementation) : Call → ℕ
  | .readUint16 | .readInt16 => 2
  | .readUint32 | .readInt32 => 4
  | .readUint64 | .readInt64 => 8
  | .readSizedData => 4 + roundUp r (mem r.current).toNat
  | .readString => 4 + roundUp r ((mem r.current).toNat + 1)
  | .readString16 => 4 + roundUp r (((mem r.current).toNat + 1) * 2)
  | .skip size => size
  | .setPadding _ => 0

/-- The value was made of bytes of the memory from `lo` to `hi`. -/
def Value.Within (mem : Mem) (lo hi : ℕ) : Value → Prop
  | .number n => ∃ a, lo ≤ a ∧ a < hi ∧ n = (mem a).toNat
  | .data s => lo ≤ s.start ∧ s.start + s.size ≤ hi
  | .string bytes => ∃ a, lo ≤ a ∧ a + bytes.length ≤ hi ∧ bytes = slice mem a bytes.length
  | .string16 units => ∃ a, lo ≤ a ∧ a + 2 * units.length ≤ hi ∧
      units = (List.range units.length).map fun i => UInt16.ofNat (load mem (a + 2 * i) 2)
  | .nothing => True

/-- The cursor and all that was inspected lie between `lo` and the end of the buffer, `hi`. -/
structure Inside (lo hi : ℕ) (r : Implementation) : Prop where
  lower : lo ≤ r.current
  upper : r.current ≤ hi
  bufferEnd : r.bufferEnd = hi
  inspected : ∀ s ∈ r.inspected, lo ≤ s.start ∧ s.start + s.size ≤ hi

/-- The reader `n` bytes further, after it has looked at a span. -/
def Implementation.moved (r : Implementation) (n : ℕ) (s : Span) : Implementation :=
  { r.inspect s with current := r.current + n }

/-! ### What a read does -/

theorem advance_of_lt {p n : ℕ} (h : p + n < 2 ^ 64) : advance p n = p + n := Nat.mod_eq_of_lt h

theorem sizeT_natCast {n : ℕ} (h : n < 2 ^ 64) : sizeT n = n := by
  unfold sizeT
  omega

/-- The number that `static_cast` makes of a byte, for a signed type. -/
theorem toInt_of_toNat {w : ℕ} {x : BitVec w} {b : UInt8} (hx : x.toNat = b.toNat) (hw : 8 < w) :
    x.toInt = b.toNat := by
  have hlt := b.toNat_lt
  have hpow : 2 ^ 9 ≤ 2 ^ w := Nat.pow_le_pow_right (by norm_num) hw
  rw [BitVec.toInt_eq_toNat_of_lt (by omega), hx]

theorem toInt_int16 (b : UInt8) : b.toUInt16.toInt16.toInt = b.toNat :=
  toInt_of_toNat (x := b.toUInt16.toBitVec) (UInt8.toNat_toUInt16 b) (by omega)

theorem toInt_int32 (b : UInt8) : b.toUInt32.toInt32.toInt = b.toNat :=
  toInt_of_toNat (x := b.toUInt32.toBitVec) (UInt8.toNat_toUInt32 b) (by omega)

theorem toInt_int64 (b : UInt8) : b.toUInt64.toInt64.toInt = b.toNat :=
  toInt_of_toNat (x := b.toUInt64.toBitVec) (UInt8.toNat_toUInt64 b) (by omega)

theorem le_roundUp (r : Implementation) (size : ℕ) : size ≤ roundUp r size := by
  unfold roundUp
  split_ifs
  · omega
  · exact le_rfl

section Reads

variable {mem : Mem} {lo hi : ℕ} {r : Implementation}

theorem Inside.moved (hin : Inside lo hi r) {n : ℕ} {s : Span} (hn : r.current + n ≤ hi)
    (hstart : s.start = r.current) (hsize : s.size ≤ n) : Inside lo hi (r.moved n s) where
  lower := by
    have hlo := hin.lower
    simp only [Implementation.moved]
    omega
  upper := hn
  bufferEnd := hin.bufferEnd
  inspected t ht := by
    have hlo := hin.lower
    rcases List.mem_cons.mp ht with rfl | ht
    · omega
    · exact hin.inspected t ht

/-- The sum that a read compares with the end is what it looks like. -/
theorem Inside.advance_eq (hin : Inside lo hi r) (hhi : hi ≤ 2 ^ 63) {n : ℕ} (hn : n < 2 ^ 63) :
    advance r.current n = r.current + n := by
  have hle := hin.upper
  exact advance_of_lt (by omega)

theorem readValue_eq (hin : Inside lo hi r) (hhi : hi ≤ 2 ^ 63) {T : Type} (cast : UInt8 → T)
    {size : ℕ} (hsize : size < 2 ^ 63) :
    r.readValue mem cast size =
      if hi < r.current + size then (.error .outOfRange, r)
      else (.ok (cast (mem r.current)), r.moved size ⟨r.current, 1⟩) := by
  unfold Implementation.readValue
  rw [hin.advance_eq hhi hsize, hin.bufferEnd]
  rfl

theorem skip_eq (hin : Inside lo hi r) (hhi : hi ≤ 2 ^ 63) {size : ℕ} (hsize : size < 2 ^ 63) :
    r.skip size =
      if hi < r.current + size then (.error .outOfRange, r)
      else (.ok (), { r with current := r.current + size }) := by
  unfold Implementation.skip
  rw [hin.advance_eq hhi hsize, hin.bufferEnd]

theorem copyData_eq (hin : Inside lo hi r) (hhi : hi ≤ 2 ^ 63) {size : ℕ} (hsize : size < 2 ^ 31) :
    r.copyData size =
      if hi < r.current + roundUp r size then (.error .outOfRange, r)
      else (.ok ⟨r.current, size⟩, r.moved (roundUp r size) ⟨r.current, size⟩) := by
  have hpadded : r.paddedSize size = .ok (roundUp r size) := by
    unfold Implementation.paddedSize roundUp
    split_ifs
    · exact BinaryReader.padSize_of_lt (by omega)
    · rfl
  have hlt : roundUp r size < 2 ^ 63 := by
    unfold roundUp
    split_ifs
    · omega
    · omega
  unfold Implementation.copyData
  simp only [hpadded]
  rw [hin.advance_eq hhi hlt, hin.bufferEnd]
  rfl

theorem readInt32_eq (hin : Inside lo hi r) (hhi : hi ≤ 2 ^ 63) :
    r.readInt32 mem =
      if hi < r.current + 4 then (.error .outOfRange, r)
      else (.ok (mem r.current).toUInt32.toInt32, r.moved 4 ⟨r.current, 1⟩) :=
  readValue_eq hin hhi _ (by omega)

/-- Sized data and strings, with the prefix read. -/
theorem readSizedData_of_read {r' : Implementation}
    (hread : r.readInt32 mem = (.ok (mem r.current).toUInt32.toInt32, r')) :
    r.readSizedData mem = r'.readData (mem r.current).toNat := by
  have hlt : (mem r.current).toNat < 256 := UInt8.toNat_lt _
  simp only [Implementation.readSizedData, hread, toInt_int32,
    sizeT_natCast (show (mem r.current).toNat < 2 ^ 64 by omega)]

theorem readString_of_read {r' : Implementation}
    (hread : r.readInt32 mem = (.ok (mem r.current).toUInt32.toInt32, r')) :
    r.readString mem =
      ((r'.copyData ((mem r.current).toNat + 1)).1.map
        fun s => (slice mem s.start s.size).take (mem r.current).toNat,
      (r'.copyData ((mem r.current).toNat + 1)).2) := by
  have hlt : (mem r.current).toNat < 256 := UInt8.toNat_lt _
  have hsucc : sizeT ((mem r.current).toNat + 1) = (mem r.current).toNat + 1 := by
    exact_mod_cast sizeT_natCast (show (mem r.current).toNat + 1 < 2 ^ 64 by omega)
  simp only [Implementation.readString, hread, toInt_int32, hsucc,
    sizeT_natCast (show (mem r.current).toNat < 2 ^ 64 by omega)]
  rcases r'.copyData ((mem r.current).toNat + 1) with ⟨e | s, r''⟩
  · rfl
  · rfl

theorem readString16_of_read {r' : Implementation}
    (hread : r.readInt32 mem = (.ok (mem r.current).toUInt32.toInt32, r')) :
    r.readString16 mem =
      ((r'.copyData (((mem r.current).toNat + 1) * 2)).1.map
        fun s => BinaryReader.unitsAt (slice mem s.start s.size) 0 (mem r.current).toNat,
      (r'.copyData (((mem r.current).toNat + 1) * 2)).2) := by
  have hlt : (mem r.current).toNat < 256 := UInt8.toNat_lt _
  have hsucc : sizeT ((mem r.current).toNat + 1) = (mem r.current).toNat + 1 := by
    exact_mod_cast sizeT_natCast (show (mem r.current).toNat + 1 < 2 ^ 64 by omega)
  have hdouble : sizeT ((mem r.current).toNat + 1) * 2 % 2 ^ 64 =
      ((mem r.current).toNat + 1) * 2 := by omega
  simp only [Implementation.readString16, hread, toInt_int32, hdouble,
    sizeT_natCast (show (mem r.current).toNat < 2 ^ 64 by omega)]
  rcases r'.copyData (((mem r.current).toNat + 1) * 2) with ⟨e | s, r''⟩
  · rfl
  · rfl

theorem unitsAt_slice {p size k n : ℕ} (h : k + 2 * n ≤ size) :
    BinaryReader.unitsAt (slice mem p size) k n =
      (List.range n).map fun i => UInt16.ofNat (load mem (p + k + 2 * i) 2) := by
  refine List.map_congr_left fun i hi => ?_
  rw [List.mem_range] at hi
  rw [load_slice (by omega), Nat.add_assoc]

/-- What is to be said of a read that needs `n` bytes: it keeps what was inspected inside, and
either returns bytes from inside and moves on by `n`, or throws, as many bytes as there are. -/
structure Safe (mem : Mem) (lo hi : ℕ) (r : Implementation) (n : ℕ)
    (o : Except Exn Value × Implementation) : Prop where
  inside : Inside lo hi o.2
  ok : r.current + n ≤ hi →
    ∃ v, o.1 = .ok v ∧ v.Within mem lo hi ∧ o.2.current = r.current + n
  error : hi < r.current + n → o.1 = .error .outOfRange

theorem readValue_safe (hin : Inside lo hi r) (hhi : hi ≤ 2 ^ 63) {T : Type} {cast : UInt8 → T}
    {f : T → ℤ} (hf : ∀ b, f (cast b) = b.toNat) (size : ℕ) (h0 : 0 < size)
    (hsize : size < 2 ^ 63) :
    Safe mem lo hi r size (as (fun v => .number (f v)) (r.readValue mem cast size)) := by
  rw [readValue_eq hin hhi cast hsize]
  have hlo := hin.lower
  by_cases hroom : hi < r.current + size
  · rw [if_pos hroom]
    exact ⟨hin, fun h => absurd hroom (by omega), fun _ => rfl⟩
  · rw [if_neg hroom]
    have hmoved := hin.moved (n := size) (s := ⟨r.current, 1⟩) (by omega) rfl h0
    refine ⟨hmoved, fun _ => ⟨_, rfl, ⟨r.current, hlo, by omega, hf _⟩, rfl⟩, fun h => ?_⟩
    exact absurd h hroom

/-- A read that starts with a prefix: if there is one, the rest is safe if what follows is. -/
theorem prefix_safe (hin : Inside lo hi r) (hhi : hi ≤ 2 ^ 63) {n : ℕ}
    {o : Except Exn Value × Implementation}
    (hshort : r.readInt32 mem = (.error .outOfRange, r) → o = (.error .outOfRange, r))
    (hfound : Inside lo hi (r.moved 4 ⟨r.current, 1⟩) →
      r.readInt32 mem = (.ok (mem r.current).toUInt32.toInt32, r.moved 4 ⟨r.current, 1⟩) →
      Safe mem lo hi (r.moved 4 ⟨r.current, 1⟩) n o) :
    Safe mem lo hi r (4 + n) o := by
  have hread : r.readInt32 mem = _ := readInt32_eq hin hhi
  by_cases hroom : hi < r.current + 4
  · rw [if_pos hroom] at hread
    rw [hshort hread]
    exact ⟨hin, fun h => absurd hroom (by omega), fun _ => rfl⟩
  · rw [if_neg hroom] at hread
    have hmoved := hin.moved (n := 4) (s := ⟨r.current, 1⟩) (by omega) rfl (by simp)
    obtain ⟨hinside, hok, herror⟩ := hfound hmoved hread
    have hcur : (r.moved 4 ⟨r.current, 1⟩).current = r.current + 4 := rfl
    rw [hcur] at hok herror
    refine ⟨hinside, fun h => ?_, fun h => herror (by omega)⟩
    obtain ⟨v, hv, hwithin, hafter⟩ := hok (by omega)
    exact ⟨v, hv, hwithin, by omega⟩

theorem copyData_safe (hin : Inside lo hi r) (hhi : hi ≤ 2 ^ 63) (size : ℕ) (hsize : size < 2 ^ 31)
    {α : Type} (g : Span → α) {f : α → Value} {o : Except Exn α × Implementation}
    (ho : o = ((r.copyData size).1.map g, (r.copyData size).2))
    (hf : lo ≤ r.current → r.current + size ≤ hi →
      (f (g ⟨r.current, size⟩)).Within mem lo hi) :
    Safe mem lo hi r (roundUp r size) (as f o) := by
  have hlo := hin.lower
  have hle := le_roundUp r size
  rw [copyData_eq hin hhi hsize] at ho
  by_cases hroom : hi < r.current + roundUp r size
  · rw [if_pos hroom] at ho
    subst ho
    exact ⟨hin, fun h => absurd hroom (by omega), fun _ => rfl⟩
  · rw [if_neg hroom] at ho
    subst ho
    have hmoved := hin.moved (n := roundUp r size) (s := ⟨r.current, size⟩) (by omega) rfl hle
    exact ⟨hmoved, fun _ => ⟨_, rfl, hf hlo (by omega), rfl⟩, fun h => absurd h hroom⟩

theorem readData_safe (hin : Inside lo hi r) (hhi : hi ≤ 2 ^ 63) {size : ℕ}
    (hsize : size < 2 ^ 31) : Safe mem lo hi r (roundUp r size) (as .data (r.readData size)) := by
  unfold Implementation.readData
  by_cases h0 : size = 0
  · subst h0
    have hzero : roundUp r 0 = 0 := by simp [roundUp]
    have hle := hin.upper
    rw [if_pos le_rfl, hzero]
    exact ⟨hin, fun _ => ⟨_, rfl, ⟨hin.lower, hle⟩, rfl⟩, fun h => absurd h (by omega)⟩
  · rw [if_neg (by omega)]
    have hcopy : r.copyData size = ((r.copyData size).1.map id, (r.copyData size).2) := by
      cases hc : r.copyData size with
      | mk x r' => cases x <;> rfl
    exact copyData_safe hin hhi size hsize id hcopy fun hlo hle => ⟨hlo, hle⟩

/-- **A call keeps the cursor and what it inspects inside, returns bytes from there, and throws
exactly if there are fewer bytes left than it needs.** -/
theorem call_safe (hin : Inside lo hi r) (hhi : hi ≤ 2 ^ 63) (c : Call) :
    Safe mem lo hi r (needed mem r c) (call mem r c) := by
  have hbyte : (mem r.current).toNat < 256 := UInt8.toNat_lt _
  cases c with
  | readUint16 =>
    exact readValue_safe hin hhi (f := fun v : UInt16 => (v.toNat : ℤ)) (fun b => by simp) 2
      (by omega) (by omega)
  | readUint32 =>
    exact readValue_safe hin hhi (f := fun v : UInt32 => (v.toNat : ℤ)) (fun b => by simp) 4
      (by omega) (by omega)
  | readUint64 =>
    exact readValue_safe hin hhi (f := fun v : UInt64 => (v.toNat : ℤ)) (fun b => by simp) 8
      (by omega) (by omega)
  | readInt16 => exact readValue_safe hin hhi toInt_int16 2 (by omega) (by omega)
  | readInt32 => exact readValue_safe hin hhi toInt_int32 4 (by omega) (by omega)
  | readInt64 => exact readValue_safe hin hhi toInt_int64 8 (by omega) (by omega)
  | readSizedData =>
    refine prefix_safe hin hhi (fun hread => ?_) fun hmoved hread => ?_
    · simp only [call, Implementation.readSizedData, hread]
      rfl
    · rw [call, readSizedData_of_read hread]
      exact readData_safe hmoved hhi (by omega)
  | readString =>
    refine prefix_safe hin hhi (fun hread => ?_) fun hmoved hread => ?_
    · simp only [call, Implementation.readString, hread]
      rfl
    · refine copyData_safe hmoved hhi ((mem r.current).toNat + 1) (by omega) _
        (readString_of_read hread) fun hlo hle => ?_
      rw [take_slice (Nat.le_succ _)]
      exact ⟨_, hlo, by rw [length_slice]; omega, by rw [length_slice]⟩
  | readString16 =>
    refine prefix_safe hin hhi (fun hread => ?_) fun hmoved hread => ?_
    · simp only [call, Implementation.readString16, hread]
      rfl
    · refine copyData_safe hmoved hhi (((mem r.current).toNat + 1) * 2) (by omega) _
        (readString16_of_read hread) fun hlo hle => ?_
      rw [unitsAt_slice (show 0 + 2 * (mem r.current).toNat ≤ _ by simp only; omega)]
      refine ⟨_, hlo, ?_, ?_⟩
      · rw [List.length_map, List.length_range]
        omega
      · rw [List.length_map, List.length_range]
        rfl
  | skip size =>
    obtain ⟨size, hlt⟩ := size
    have hlo := hin.lower
    simp only [call, needed, skip_eq hin hhi hlt]
    by_cases hroom : hi < r.current + size
    · rw [if_pos hroom]
      exact ⟨hin, fun h => absurd hroom (by omega), fun _ => rfl⟩
    · rw [if_neg hroom]
      refine ⟨⟨?_, not_lt.mp hroom, hin.bufferEnd, hin.inspected⟩, fun _ => ⟨_, rfl, trivial, rfl⟩,
        fun h => absurd h hroom⟩
      simp only [as]
      omega
  | setPadding enable =>
    have hle := hin.upper
    refine ⟨⟨hin.lower, hin.upper, hin.bufferEnd, hin.inspected⟩,
      fun _ => ⟨_, rfl, trivial, rfl⟩, fun h => ?_⟩
    simp only [needed] at h
    omega

end Reads

/-! ### Sequences of calls -/

variable {mem : Mem}

theorem create_inside (buffer : Buffer) {offset : ℕ} (ho : offset ≤ buffer.size) :
    Inside (buffer.data + offset) (buffer.data + buffer.size)
      (Implementation.create buffer offset) := by
  have hhi := buffer.lower_half
  have hcur : advance buffer.data offset = buffer.data + offset := advance_of_lt (by omega)
  have hend : advance buffer.data buffer.size = buffer.data + buffer.size :=
    advance_of_lt (by omega)
  refine ⟨hcur.ge, ?_, hend, by simp [Implementation.create]⟩
  simp only [Implementation.create, hcur]
  omega

theorem run_inside {lo hi : ℕ} (hhi : hi ≤ 2 ^ 63) (calls : List Call) :
    ∀ {r : Implementation}, Inside lo hi r → Inside lo hi (run mem r calls) := by
  induction calls with
  | nil => exact fun hin => hin
  | cons c calls ih => exact fun hin => ih (call_safe hin hhi c).inside

/-- **The reader never leaves its buffer.** Whatever the memory holds, wherever the buffer lies and
whatever has been called before: the cursor is between the start offset and the end, and so is
every byte that was inspected; and the next call returns bytes from there if there are as many as it
needs, and throws if there are not. -/
theorem reader_inside (mem : Mem) (buffer : Buffer) {offset : ℕ} (ho : offset ≤ buffer.size)
    (calls : List Call) (c : Call) :
    let lo := buffer.data + offset
    let hi := buffer.data + buffer.size
    let r := run mem (Implementation.create buffer offset) calls
    Inside lo hi r ∧ Inside lo hi (call mem r c).2 ∧
      (r.current + needed mem r c ≤ hi → ∃ v, (call mem r c).1 = .ok v ∧ v.Within mem lo hi ∧
        (call mem r c).2.current = r.current + needed mem r c) ∧
      (hi < r.current + needed mem r c → (call mem r c).1 = .error .outOfRange) := by
  intro lo hi r
  have hin : Inside lo hi r := run_inside buffer.lower_half calls (create_inside buffer ho)
  have hsafe : Safe mem lo hi r (needed mem r c) (call mem r c) :=
    call_safe hin buffer.lower_half c
  exact ⟨hin, hsafe.inside, hsafe.ok, hsafe.error⟩

/-- A string of two bytes in the middle of a buffer. -/
def someMemory : Mem := ofList [0xff, 0xff, 2, 0, 0, 0, 0x6f, 0x6b, 0, 0xff]

/-- A buffer of eight bytes. -/
def someBuffer : Buffer := ⟨1, 8, by omega⟩

theorem reader_inside_someBuffer :
    let r := run someMemory (Implementation.create someBuffer 1) [.setPadding false]
    Inside 2 9 r ∧ Inside 2 9 (call someMemory r .readString).2 ∧
      (r.current + needed someMemory r .readString ≤ 9 →
        ∃ v, (call someMemory r .readString).1 = .ok v ∧ v.Within someMemory 2 9 ∧
          (call someMemory r .readString).2.current =
            r.current + needed someMemory r .readString) ∧
      (9 < r.current + needed someMemory r .readString →
        (call someMemory r .readString).1 = .error .outOfRange) :=
  reader_inside someMemory someBuffer (show 1 ≤ someBuffer.size by decide) [.setPadding false]
    .readString

/-! ### The reader of the messages -/

/-- A call of the reader on lists. -/
def listCall (b : BinaryReader) : Call → Except Exn (Value × BinaryReader)
  | .readUint16 => b.readUint16.map fun x => (.number x.1, x.2)
  | .readUint32 => b.readUint32.map fun x => (.number x.1, x.2)
  | .readUint64 => b.readUint64.map fun x => (.number x.1, x.2)
  | .readInt16 => b.readInt16.map fun x => (.number x.1, x.2)
  | .readInt32 => b.readInt32.map fun x => (.number x.1, x.2)
  | .readInt64 => b.readInt64.map fun x => (.number x.1, x.2)
  | .readSizedData => b.readSizedData.map fun x => (.data ⟨x.1.start, x.1.size⟩, x.2)
  | .readString => b.readString.map fun x => (.string x.1, x.2)
  | .readString16 => b.readString16.map fun x => (.string16 x.1, x.2)
  | .skip size => (b.skip size).map fun x => (.nothing, x)
  | .setPadding enable => .ok (.nothing, b.setPadding enable)

/-- The value with its data counted from the beginning of the buffer. -/
def Value.relative (base : ℕ) : Value → Value
  | .data s => .data ⟨s.start - base, s.size⟩
  | v => v

/-- The reader on lists has the bytes of the buffer, and is at the same byte of them. -/
structure Represents (mem : Mem) (r : Implementation) (b : BinaryReader) : Prop where
  inside : Inside r.bufferBegin r.bufferEnd r
  buffer : b.buffer = slice mem r.bufferBegin (r.bufferEnd - r.bufferBegin)
  current : r.current = r.bufferBegin + b.current
  usePadding : b.usePadding = r.usePadding

/-- The results are the same, and the readers still represent the same. -/
def Agrees (mem : Mem) (base : ℕ) (o : Except Exn Value × Implementation) :
    Except Exn (Value × BinaryReader) → Prop
  | .error e => o.1 = .error e
  | .ok (v, b) => (∃ v', o.1 = .ok v' ∧ v'.relative base = v) ∧ Represents mem o.2 b

theorem create_represents (buffer : Buffer) {offset : ℕ} (ho : offset ≤ buffer.size) :
    Represents mem (Implementation.create buffer offset)
      { buffer := slice mem buffer.data buffer.size, current := offset } := by
  have hin := create_inside buffer ho
  have hlo := hin.lower
  have hhi := buffer.lower_half
  have hcur : (Implementation.create buffer offset).current = buffer.data + offset :=
    advance_of_lt (by omega)
  have hend : (Implementation.create buffer offset).bufferEnd = buffer.data + buffer.size :=
    hin.bufferEnd
  have hbegin : (Implementation.create buffer offset).bufferBegin = buffer.data := rfl
  refine ⟨⟨by omega, hend ▸ hin.upper, rfl, by simp [Implementation.create]⟩, ?_, hcur, rfl⟩
  rw [hbegin, hend, Nat.add_sub_cancel_left]

section Lists

variable {r : Implementation} {b : BinaryReader}

theorem Represents.room (h : Represents mem r b) (n : ℕ) :
    b.buffer.length < b.current + n ↔ r.bufferEnd < r.current + n := by
  have hcur := h.current
  have hupper := h.inside.upper
  rw [h.buffer, length_slice]
  omega

theorem Represents.byte (h : Represents mem r b) (hlt : r.current < r.bufferEnd) :
    b.buffer.getD b.current 0 = mem r.current := by
  have hcur := h.current
  rw [h.buffer, slice_getD (by omega), hcur]

theorem Represents.moved (h : Represents mem r b) {n : ℕ} {s : Span}
    (hn : r.current + n ≤ r.bufferEnd) (hstart : s.start = r.current) (hsize : s.size ≤ n) :
    Represents mem (r.moved n s) { b with current := b.current + n } where
  inside := h.inside.moved hn hstart hsize
  buffer := h.buffer
  current := by
    have hcur := h.current
    simp only [Implementation.moved, Implementation.inspect]
    omega
  usePadding := h.usePadding

theorem list_readValue (h : Represents mem r b) {size : ℕ} (h0 : 0 < size) :
    b.readValue size =
      if r.bufferEnd < r.current + size then .error .outOfRange
      else .ok ((mem r.current).toNat, { b with current := b.current + size }) := by
  by_cases hroom : r.bufferEnd < r.current + size
  · rw [if_pos hroom, BinaryReader.readValue_of_lt ((h.room size).mpr hroom)]
  · have hle := mt (h.room size).mp hroom
    rw [if_neg hroom, BinaryReader.readValue_of_le (not_lt.mp hle), h.byte (by omega)]

theorem readValue_agrees (h : Represents mem r b) (hhi : r.bufferEnd ≤ 2 ^ 63) {T : Type}
    {cast : UInt8 → T} {f : T → ℤ} (hf : ∀ b, f (cast b) = b.toNat) (size : ℕ) (h0 : 0 < size)
    (hsize : size < 2 ^ 63) :
    Agrees mem r.bufferBegin (as (fun v => .number (f v)) (r.readValue mem cast size))
      ((b.readValue size).map fun x => (.number x.1, x.2)) := by
  rw [readValue_eq h.inside hhi cast hsize, list_readValue h h0]
  by_cases hroom : r.bufferEnd < r.current + size
  · rw [if_pos hroom, if_pos hroom]
    rfl
  · rw [if_neg hroom, if_neg hroom]
    refine ⟨⟨_, rfl, ?_⟩, h.moved (not_lt.mp hroom) rfl h0⟩
    simp only [Value.relative, hf]

/-- After the prefix of a string or of sized data, both readers go on in the same way. -/
theorem prefix_agrees (h : Represents mem r b) (hhi : r.bufferEnd ≤ 2 ^ 63)
    {o : Except Exn Value × Implementation} {x : Except Exn (Value × BinaryReader)}
    (hshort : r.readInt32 mem = (.error .outOfRange, r) → b.readInt32 = .error .outOfRange →
      o.1 = .error .outOfRange ∧ x = .error .outOfRange)
    (hfound : Represents mem (r.moved 4 ⟨r.current, 1⟩) { b with current := b.current + 4 } →
      r.readInt32 mem = (.ok (mem r.current).toUInt32.toInt32, r.moved 4 ⟨r.current, 1⟩) →
      b.readInt32 = .ok ((mem r.current).toNat, { b with current := b.current + 4 }) →
      Agrees mem r.bufferBegin o x) : Agrees mem r.bufferBegin o x := by
  have hread : r.readInt32 mem = _ := readInt32_eq h.inside hhi
  have hlist : b.readInt32 = _ := list_readValue h (show 0 < 4 by omega)
  by_cases hroom : r.bufferEnd < r.current + 4
  · rw [if_pos hroom] at hread hlist
    obtain ⟨ho, rfl⟩ := hshort hread hlist
    exact ho
  · rw [if_neg hroom] at hread hlist
    exact hfound (h.moved (not_lt.mp hroom) rfl (by simp)) hread hlist

theorem copyData_agrees (h : Represents mem r b) (hhi : r.bufferEnd ≤ 2 ^ 63) (size : ℕ)
    (hsize : size < 2 ^ 31) {α : Type} (g : Span → α) {f : α → Value}
    {o : Except Exn α × Implementation} {v : Value}
    (ho : o = ((r.copyData size).1.map g, (r.copyData size).2))
    (hv : r.current + size ≤ r.bufferEnd → (f (g ⟨r.current, size⟩)).relative r.bufferBegin = v) :
    Agrees mem r.bufferBegin (as f o)
      (if b.buffer.length < b.current + roundUp r size then .error .outOfRange
      else .ok (v, { b with current := b.current + roundUp r size })) := by
  have hle := le_roundUp r size
  rw [copyData_eq h.inside hhi hsize] at ho
  by_cases hroom : r.bufferEnd < r.current + roundUp r size
  · rw [if_pos hroom] at ho
    rw [if_pos ((h.room _).mpr hroom)]
    subst ho
    rfl
  · rw [if_neg hroom] at ho
    rw [if_neg (mt (h.room _).mp hroom)]
    subst ho
    exact ⟨⟨_, rfl, hv (by omega)⟩, h.moved (not_lt.mp hroom) rfl hle⟩

/-- The size with padding, as the reader on lists computes it. -/
theorem Represents.padded_bind (h : Represents mem r b) {size : ℕ} (hsize : size < 2 ^ 31)
    {α : Type} (k : ℕ → Except Exn α) :
    (if b.usePadding = true then padSize size >>= k else pure size >>= k) =
      k (roundUp r size) := by
  unfold roundUp
  rw [← h.usePadding]
  split_ifs
  · rw [BinaryReader.padSize_of_lt (by omega)]
    rfl
  · rfl

theorem list_readData (h : Represents mem r b) {size : ℕ} (h0 : size ≠ 0) (hsize : size < 2 ^ 31) :
    b.readData size =
      if b.buffer.length < b.current + roundUp r size then .error .outOfRange
      else .ok (⟨b.current, size⟩, { b with current := b.current + roundUp r size }) := by
  rw [BinaryReader.readData, if_neg h0]
  exact h.padded_bind hsize _

theorem list_readString {n : ℕ} {b' : BinaryReader} (hread : b.readInt32 = .ok (n, b'))
    (h : Represents mem r b') (hn : n < 256) :
    b.readString =
      if b'.buffer.length < b'.current + roundUp r (n + 1) then .error .outOfRange
      else .ok ((View.mk b'.current n).bytes b'.buffer,
        { b' with current := b'.current + roundUp r (n + 1) }) := by
  rw [BinaryReader.readString, hread]
  exact h.padded_bind (by omega) _

theorem list_readString16 {n : ℕ} {b' : BinaryReader} (hread : b.readInt32 = .ok (n, b'))
    (h : Represents mem r b') (hn : n < 256) :
    b.readString16 =
      if b'.buffer.length < b'.current + roundUp r ((n + 1) * 2) then .error .outOfRange
      else .ok (BinaryReader.unitsAt b'.buffer b'.current n,
        { b' with current := b'.current + roundUp r ((n + 1) * 2) }) := by
  rw [BinaryReader.readString16, hread]
  exact h.padded_bind (by omega) _

/-- The bytes that a view shows of the buffer are those of the memory. -/
theorem Represents.view_bytes (h : Represents mem r b) {n : ℕ} (hle : r.current + n ≤ r.bufferEnd) :
    (View.mk b.current n).bytes b.buffer = slice mem r.current n := by
  have hcur := h.current
  have hroom : n ≤ r.bufferEnd - r.bufferBegin - b.current := by omega
  rw [View.bytes, h.buffer, drop_slice, take_slice hroom, hcur]

theorem readData_agrees (h : Represents mem r b) (hhi : r.bufferEnd ≤ 2 ^ 63) {size : ℕ}
    (hsize : size < 2 ^ 31) :
    Agrees mem r.bufferBegin (as .data (r.readData size))
      ((b.readData size).map fun x => (.data ⟨x.1.start, x.1.size⟩, x.2)) := by
  have hcur := h.current
  have hstart : r.current - r.bufferBegin = b.current := by omega
  by_cases h0 : size = 0
  · subst h0
    refine ⟨⟨_, rfl, ?_⟩, h⟩
    simp only [Value.relative, hstart]
  · have hcopy : r.readData size = ((r.copyData size).1.map id, (r.copyData size).2) := by
      rw [Implementation.readData, if_neg (by omega)]
      rcases r.copyData size with ⟨e | s, r'⟩
      · rfl
      · rfl
    have hagree := copyData_agrees h hhi size hsize id (f := .data)
      (v := .data ⟨b.current, size⟩) hcopy fun _ => by simp only [id, Value.relative, hstart]
    rw [list_readData h h0 hsize]
    split_ifs at hagree ⊢ with hroom
    · exact hagree
    · exact hagree

/-- **The reader of the messages reads what the reader on memory does.** -/
theorem call_agrees (h : Represents mem r b) (hhi : r.bufferEnd ≤ 2 ^ 63) (c : Call) :
    Agrees mem r.bufferBegin (call mem r c) (listCall b c) := by
  have hbyte : (mem r.current).toNat < 256 := UInt8.toNat_lt _
  cases c with
  | readUint16 =>
    exact readValue_agrees h hhi (f := fun v : UInt16 => (v.toNat : ℤ)) (fun b => by simp) 2
      (by omega) (by omega)
  | readUint32 =>
    exact readValue_agrees h hhi (f := fun v : UInt32 => (v.toNat : ℤ)) (fun b => by simp) 4
      (by omega) (by omega)
  | readUint64 =>
    exact readValue_agrees h hhi (f := fun v : UInt64 => (v.toNat : ℤ)) (fun b => by simp) 8
      (by omega) (by omega)
  | readInt16 => exact readValue_agrees h hhi toInt_int16 2 (by omega) (by omega)
  | readInt32 => exact readValue_agrees h hhi toInt_int32 4 (by omega) (by omega)
  | readInt64 => exact readValue_agrees h hhi toInt_int64 8 (by omega) (by omega)
  | readSizedData =>
    refine prefix_agrees h hhi (fun hread hlist => ⟨?_, ?_⟩) fun hmoved hread hlist => ?_
    · simp only [call, Implementation.readSizedData, hread]
      rfl
    · simp only [listCall, BinaryReader.readSizedData, hlist]
      rfl
    · simp only [call, readSizedData_of_read hread, listCall, BinaryReader.readSizedData, hlist,
        bind, Except.bind]
      exact readData_agrees hmoved hhi (by omega)
  | readString =>
    refine prefix_agrees h hhi (fun hread hlist => ⟨?_, ?_⟩) fun hmoved hread hlist => ?_
    · simp only [call, Implementation.readString, hread]
      rfl
    · simp only [listCall, BinaryReader.readString, hlist]
      rfl
    · have hagree := copyData_agrees hmoved hhi ((mem r.current).toNat + 1) (by omega) _
        (f := .string)
        (v := .string ((View.mk (b.current + 4) (mem r.current).toNat).bytes b.buffer))
        (readString_of_read hread) fun hle => ?_
      · rw [listCall, list_readString hlist hmoved hbyte]
        split_ifs at hagree ⊢ with hroom
        · exact hagree
        · exact hagree
      · have hview := hmoved.view_bytes (n := (mem r.current).toNat)
          (le_trans (Nat.add_le_add_left (Nat.le_succ _) _) hle)
        simp only at hview
        rw [hview, take_slice (Nat.le_succ _)]
        rfl
  | readString16 =>
    refine prefix_agrees h hhi (fun hread hlist => ⟨?_, ?_⟩) fun hmoved hread hlist => ?_
    · simp only [call, Implementation.readString16, hread]
      rfl
    · simp only [listCall, BinaryReader.readString16, hlist]
      rfl
    · have hagree := copyData_agrees hmoved hhi (((mem r.current).toNat + 1) * 2) (by omega) _
        (f := .string16)
        (v := .string16 (BinaryReader.unitsAt b.buffer (b.current + 4) (mem r.current).toNat))
        (readString16_of_read hread) fun hle => ?_
      · rw [listCall, list_readString16 hlist hmoved hbyte]
        split_ifs at hagree ⊢ with hroom
        · exact hagree
        · exact hagree
      · have hcur := hmoved.current
        simp only [Implementation.moved, Implementation.inspect] at hcur hle
        rw [unitsAt_slice (show 0 + 2 * (mem r.current).toNat ≤ _ by simp only; omega), h.buffer,
          unitsAt_slice (by omega), ← hcur]
        rfl
  | skip size =>
    obtain ⟨size, hlt⟩ := size
    have hcur := h.current
    simp only [call, listCall, skip_eq h.inside hhi hlt, BinaryReader.skip, h.room]
    by_cases hroom : r.bufferEnd < r.current + size
    · rw [if_pos hroom, if_pos hroom]
      rfl
    · rw [if_neg hroom, if_neg hroom]
      have hlower := h.inside.lower
      refine ⟨⟨_, rfl, rfl⟩, ⟨?_, not_lt.mp hroom, rfl, h.inside.inspected⟩, h.buffer, ?_,
        h.usePadding⟩
      · simp only [as]
        omega
      · simp only [as]
        omega
  | setPadding enable =>
    exact ⟨⟨_, rfl, rfl⟩, ⟨h.inside.lower, h.inside.upper, rfl, h.inside.inspected⟩, h.buffer,
      h.current, rfl⟩

end Lists

end Binderd.Wire.Pointers
