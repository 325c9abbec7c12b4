import Binderd.Wire.Strings

/-! # The memory of a `BinaryWriter`

`BinaryWriter` as it works on memory: it grows its buffer by `realloc`, which keeps the bytes that
are there and leaves the others as they come, moves its cursor to the same place of the new block,
copies the data, and clears the padding by masking the last word, which it finds four bytes before
the end of the padding and so, in part, among the bytes that were just copied.

Nothing is assumed of the blocks of memory it is given (`fresh`), neither where they are nor what
they come with.

* `Appends`: a call appends bytes to the buffer and leaves the cursor at its end;
* `call_appends`: which bytes these are;
* `bytes_run_eq`: the writer that the messages are built with (`Streams.BinaryWriter`) writes the
  same. -/

namespace Binderd.Wire.Growing

open Binderd.Lib.Bytes Binderd.Wire.Streams Binderd.Wire.Messages

/-! ### The buffer -/

/-- A block of memory: its address, and the bytes from there on. -/
structure Block where
  address : ℕ
  mem : Mem

/-- `Buffer::Implementation`, when it is not immutable. -/
structure Buffer where
  data : Block
  size : ℕ

namespace Buffer

/-- Where the data of the buffer begin. -/
def getBegin (b : Buffer) : ℕ := b.data.address

/-- The bytes of the buffer. -/
def bytes (b : Buffer) : List UInt8 := slice b.data.mem 0 b.size

/-- `Resize`, with the block that `realloc` moves the buffer to. -/
def resize (b : Buffer) (block : Block) (size : ℕ) : Buffer :=
  { data := { block with mem := fun i => if i < b.size then b.data.mem i else block.mem i }
    size := size }

/-- The buffer with its bytes changed. -/
def modify (b : Buffer) (f : Mem → Mem) : Buffer :=
  { b with data := { b.data with mem := f b.data.mem } }

end Buffer

/-! ### The writer -/

/-- The little-endian `pad_mask`. -/
def padMask : ℕ → ℕ
  | 1 => 0x00ffffff
  | 2 => 0x0000ffff
  | 3 => 0x000000ff
  | _ => 0x00000000

/-- `BinaryWriter::Implementation`, on an empty buffer, which has no memory. -/
structure Implementation where
  buffer : Buffer := ⟨⟨0, fun _ => 0⟩, 0⟩
  /-- The address of the next byte. -/
  current : ℕ := 0
  usePadding : Bool := true
  /-- The number of calls of `Resize`. -/
  resizes : ℕ := 0

namespace Implementation

/-- `BinaryWriter::GetBytesWritten`. -/
def getBytesWritten (w : Implementation) : ℕ := w.current - w.buffer.getBegin

/-- `BinaryWriter::SetPadding`. -/
def setPadding (w : Implementation) (enable : Bool) : Implementation :=
  { w with usePadding := enable }

section Fresh

-- the block that each call of `Resize` is given
variable (fresh : ℕ → Block)

/-- `ensure_size`, with an allocation that succeeds. -/
def ensureSize (w : Implementation) (size : ℕ) : Implementation :=
  let pos := w.current - w.buffer.getBegin
  if size ≤ w.buffer.size - pos then w
  else
    let buffer := w.buffer.resize (fresh w.resizes) (w.buffer.size + size)
    { w with buffer := buffer, current := buffer.getBegin + pos, resizes := w.resizes + 1 }

/-- `WriteValue<T>`, `size` the size of `T`. -/
def writeValue (w : Implementation) (size value : ℕ) : Implementation :=
  let w := w.ensureSize fresh size
  let pos := w.current - w.buffer.getBegin
  { w with
    buffer := w.buffer.modify fun m => store m pos size value
    current := w.current + size }

/-- The writers of fixed width. -/
def writeUint16 (w : Implementation) (value : UInt16) : Implementation :=
  w.writeValue fresh 2 value.toNat

def writeUint32 (w : Implementation) (value : UInt32) : Implementation :=
  w.writeValue fresh 4 value.toNat

def writeUint64 (w : Implementation) (value : UInt64) : Implementation :=
  w.writeValue fresh 8 value.toNat

def writeInt16 (w : Implementation) (value : Int16) : Implementation :=
  w.writeValue fresh 2 value.toUInt16.toNat

def writeInt32 (w : Implementation) (value : Int32) : Implementation :=
  w.writeValue fresh 4 value.toUInt32.toNat

def writeInt64 (w : Implementation) (value : Int64) : Implementation :=
  w.writeValue fresh 8 value.toUInt64.toNat

/-- `WriteData`, with the exception that leaves it. -/
def writeData (w : Implementation) (data : List UInt8) : Implementation × Option Exn :=
  let size := data.length
  if 2 ^ 31 - 1 < size then (w, some .outOfRange)
  else
    match if w.usePadding then padSize size else .ok size with
    | .error e => (w, some e)
    | .ok padded =>
      let w := w.ensureSize fresh padded
      let pos := w.current - w.buffer.getBegin
      let w := { w with
        buffer := w.buffer.modify fun m => copy m pos data
        current := w.current + size }
      if padded = size then (w, none)
      else
        -- the word ends with the padding, and begins before it
        let address := (w.current : ℤ) + ((padded : ℤ) - size - 4)
        let word := (address - w.buffer.getBegin).toNat
        ({ w with
          buffer := w.buffer.modify fun m =>
            store m word 4 (load m word 4 &&& padMask (padded - size))
          current := w.current + (padded - size) }, none)

/-- `WriteSizedData`. The size is converted to an `int32_t`. -/
def writeSizedData (w : Implementation) (data : List UInt8) : Implementation × Option Exn :=
  (w.writeInt32 fresh (Int32.ofNat data.length)).writeData fresh data

/-- `WriteString`, of a pointer and a size: the bytes there and the one after them. -/
def writeChars (w : Implementation) (s : List UInt8) (last : UInt8) :
    Implementation × Option Exn :=
  w.writeSizedData fresh (s ++ [last])

/-- `WriteString`, of a `std::string`. -/
def writeStdString (w : Implementation) (str : List UInt8) : Implementation × Option Exn :=
  w.writeChars fresh str 0

/-- `WriteString`, of a `u16string`. -/
def writeString (w : Implementation) (str : List UInt16) : Implementation × Option Exn :=
  let w := w.writeInt32 fresh (Int32.ofNat str.length)
  if str.length = 0 then (w, none)
  else w.writeData fresh (BinaryWriter.unitBytes (str ++ [0]))

end Fresh

end Implementation

/-! ### Calls -/

/-- The calls of the writer. -/
inductive Call where
  | writeUint16 (value : UInt16)
  | writeUint32 (value : UInt32)
  | writeUint64 (value : UInt64)
  | writeInt16 (value : Int16)
  | writeInt32 (value : Int32)
  | writeInt64 (value : Int64)
  | writeData (data : List UInt8)
  | writeSizedData (data : List UInt8)
  | writeChars (s : List UInt8) (last : UInt8)
  | writeStdString (str : List UInt8)
  | writeString (str : List UInt16)
  | setPadding (enable : Bool)

/-- No size of data is above `INT32_MAX`, terminators included. -/
def Call.Fits : Call → Prop
  | .writeData data | .writeSizedData data => data.length ≤ 2 ^ 31 - 1
  | .writeChars s _ | .writeStdString s => s.length + 1 ≤ 2 ^ 31 - 1
  | .writeString str => str = [] ∨ (str.length + 1) * 2 ≤ 2 ^ 31 - 1
  | _ => True

/-- The padding flag after a call. -/
def Call.paddingAfter (padding : Bool) : Call → Bool
  | .setPadding enable => enable
  | _ => padding

/-- Data, followed by zero bytes if padding is on. -/
def withPadding (padding : Bool) (data : List UInt8) : List UInt8 :=
  if padding then padded data else data

/-- The encoding of a call. -/
def encoding (padding : Bool) : Call → List UInt8
  | .writeUint16 value => leBytes 2 value.toNat
  | .writeUint32 value => leBytes 4 value.toNat
  | .writeUint64 value => leBytes 8 value.toNat
  | .writeInt16 value => leBytes 2 value.toUInt16.toNat
  | .writeInt32 value => leBytes 4 value.toUInt32.toNat
  | .writeInt64 value => leBytes 8 value.toUInt64.toNat
  | .writeData data => withPadding padding data
  | .writeSizedData data => leBytes 4 data.length ++ withPadding padding data
  | .writeChars s last => leBytes 4 (s.length + 1) ++ withPadding padding (s ++ [last])
  | .writeStdString str => leBytes 4 (str.length + 1) ++ withPadding padding (str ++ [0])
  | .writeString str => leBytes 4 str.length ++
      if str = [] then [] else withPadding padding (BinaryWriter.unitBytes (str ++ [0]))
  | .setPadding _ => []

/-- The encodings of the calls, one after the other. -/
def encodings : Bool → List Call → List UInt8
  | _, [] => []
  | padding, c :: calls => encoding padding c ++ encodings (c.paddingAfter padding) calls

/-- A call, with the exception that leaves it. -/
def call (fresh : ℕ → Block) (w : Implementation) : Call → Implementation × Option Exn
  | .writeUint16 value => (w.writeUint16 fresh value, none)
  | .writeUint32 value => (w.writeUint32 fresh value, none)
  | .writeUint64 value => (w.writeUint64 fresh value, none)
  | .writeInt16 value => (w.writeInt16 fresh value, none)
  | .writeInt32 value => (w.writeInt32 fresh value, none)
  | .writeInt64 value => (w.writeInt64 fresh value, none)
  | .writeData data => w.writeData fresh data
  | .writeSizedData data => w.writeSizedData fresh data
  | .writeChars s last => w.writeChars fresh s last
  | .writeStdString str => w.writeStdString fresh str
  | .writeString str => w.writeString fresh str
  | .setPadding enable => (w.setPadding enable, none)

/-- The writer after the calls, and the exceptions that were thrown. -/
def run (fresh : ℕ → Block) : Implementation → List Call → Implementation × List Exn
  | w, [] => (w, [])
  | w, c :: calls =>
    let (w, e) := call fresh w c
    let (w, es) := run fresh w calls
    (w, e.toList ++ es)

/-! ### What a call appends -/

/-- The cursor is at the end of the buffer. -/
def Full (w : Implementation) : Prop := w.current = w.buffer.getBegin + w.buffer.size

/-- `w'` is `w` with `l` appended. -/
structure Appends (w w' : Implementation) (l : List UInt8) : Prop where
  full : Full w'
  bytes : w'.buffer.bytes = w.buffer.bytes ++ l
  usePadding : w'.usePadding = w.usePadding

theorem Appends.trans {w w' w'' : Implementation} {l l' : List UInt8} (h : Appends w w' l)
    (h' : Appends w' w'' l') : Appends w w'' (l ++ l') where
  full := h'.full
  bytes := by rw [h'.bytes, h.bytes, List.append_assoc]
  usePadding := h'.usePadding.trans h.usePadding

section Appending

variable (fresh : ℕ → Block) {w : Implementation}

/-- There is room for exactly what was asked for, behind the bytes that were there. -/
structure Room (w w' : Implementation) (size : ℕ) : Prop where
  pos : w'.current - w'.buffer.getBegin = w.buffer.size
  size : w'.buffer.size = w.buffer.size + size
  bytes : slice w'.buffer.data.mem 0 w.buffer.size = w.buffer.bytes
  le : w'.buffer.getBegin ≤ w'.current
  usePadding : w'.usePadding = w.usePadding

theorem ensureSize_room (hf : Full w) (size : ℕ) : Room w (w.ensureSize fresh size) size := by
  have hcur : w.current = w.buffer.getBegin + w.buffer.size := hf
  have hpos : w.current - w.buffer.getBegin = w.buffer.size := by omega
  unfold Implementation.ensureSize
  simp only [hpos]
  split_ifs with hroom
  · exact ⟨hpos, by omega, rfl, by omega, rfl⟩
  · refine ⟨Nat.add_sub_cancel_left _ _, rfl, ?_, Nat.le_add_right _ _, rfl⟩
    refine slice_congr fun i _ hi => ?_
    simp only [Buffer.resize]
    rw [if_pos (by omega)]

theorem Room.appends {w w₁ w' : Implementation} {n : ℕ} {l : List UInt8} (hr : Room w w₁ n)
    (hl : l.length = n) (hbuf : w'.buffer = w₁.buffer.modify fun m => copy m w.buffer.size l)
    (hcur : w'.current = w₁.current + n) (hpad : w'.usePadding = w₁.usePadding) :
    Appends w w' l where
  full := by
    have hpos := hr.pos
    have hsize := hr.size
    have hle := hr.le
    have hbegin : w'.buffer.getBegin = w₁.buffer.getBegin := by rw [hbuf]; rfl
    have hsize' : w'.buffer.size = w₁.buffer.size := by rw [hbuf]; rfl
    rw [Full, hcur, hbegin, hsize']
    omega
  bytes := by
    rw [hbuf]
    simp only [Buffer.bytes, Buffer.modify]
    rw [hr.size, ← hl, slice_copy, hr.bytes, Buffer.bytes]
  usePadding := hpad.trans hr.usePadding

theorem writeValue_appends (hf : Full w) (size value : ℕ) :
    Appends w (w.writeValue fresh size value) (leBytes size value) := by
  have hroom := ensureSize_room fresh hf size
  refine hroom.appends (length_leBytes _ _) ?_ rfl rfl
  simp only [Implementation.writeValue, hroom.pos, store_eq_copy]

/-- The mask keeps the low bytes of the word, as many as the padding leaves. -/
theorem and_padMask (n : ℕ) {k : ℕ} (h0 : 0 < k) (h4 : k < 4) :
    n &&& padMask k = n % 256 ^ (4 - k) := by
  have h24 : n &&& 0x00ffffff = n % 2 ^ 24 := Nat.and_two_pow_sub_one_eq_mod n 24
  have h16 : n &&& 0x0000ffff = n % 2 ^ 16 := Nat.and_two_pow_sub_one_eq_mod n 16
  have h8 : n &&& 0x000000ff = n % 2 ^ 8 := Nat.and_two_pow_sub_one_eq_mod n 8
  rcases (by omega : k = 1 ∨ k = 2 ∨ k = 3) with rfl | rfl | rfl
  · rw [show 256 ^ (4 - 1) = 2 ^ 24 by norm_num]
    exact h24
  · rw [show 256 ^ (4 - 2) = 2 ^ 16 by norm_num]
    exact h16
  · rw [show 256 ^ (4 - 3) = 2 ^ 8 by norm_num]
    exact h8

/-- To mask the last word is to write the zero bytes of the padding behind the data. -/
theorem store_masked {m : Mem} {p k word : ℕ} (h0 : 0 < k) (h4 : k < 4) (hword : word + 4 = p + k) :
    store m word 4 (load m word 4 &&& padMask k) = copy m p (List.replicate k 0) := by
  rw [and_padMask _ h0 h4, store_load_mod (by omega), show word + (4 - k) = p by omega,
    show 4 - (4 - k) = k by omega]

theorem writeData_of_lt {data : List UInt8} (h : 2 ^ 31 - 1 < data.length) :
    w.writeData fresh data = (w, some .outOfRange) := by
  unfold Implementation.writeData
  rw [if_pos h]

theorem exists_padded (padding : Bool) {data : List UInt8} (h : data.length ≤ 2 ^ 31 - 1) :
    ∃ n, (if padding then padSize data.length else .ok data.length) = .ok n ∧
      data.length ≤ n ∧ n - data.length < 4 ∧ (n = data.length ∨ 4 ≤ n) ∧
      withPadding padding data = data ++ List.replicate (n - data.length) 0 := by
  by_cases hp : padding = true
  · refine ⟨(data.length + 3) / 4 * 4, ?_, by omega, by omega, by omega, ?_⟩
    · rw [if_pos hp, BinaryReader.padSize_of_lt (by omega)]
    · rw [withPadding, if_pos hp, padded]
  · refine ⟨data.length, if_neg hp, le_rfl, by omega, .inl rfl, ?_⟩
    rw [withPadding, if_neg hp, Nat.sub_self, List.replicate_zero, List.append_nil]

theorem writeData_appends (hf : Full w) {data : List UInt8} (h : data.length ≤ 2 ^ 31 - 1) :
    (w.writeData fresh data).2 = none ∧
      Appends w (w.writeData fresh data).1 (withPadding w.usePadding data) := by
  obtain ⟨n, hn, hle, hlt, hfour, hbytes⟩ := exists_padded w.usePadding h
  have hroom := ensureSize_room fresh hf n
  have hpos := hroom.pos
  have hbegin := hroom.le
  unfold Implementation.writeData
  simp only [hn]
  rw [if_neg (by omega), hbytes]
  generalize w.ensureSize fresh n = w₁ at *
  by_cases heq : n = data.length
  · rw [if_pos heq]
    have hnil : List.replicate (n - data.length) (0 : UInt8) = [] := by
      rw [heq, Nat.sub_self, List.replicate_zero]
    rw [hnil, List.append_nil]
    exact ⟨rfl, hroom.appends heq.symm (by rw [hpos]) (by rw [heq]) rfl⟩
  · rw [if_neg heq]
    have hlen : (data ++ List.replicate (n - data.length) (0 : UInt8)).length = n := by
      rw [List.length_append, List.length_replicate]
      omega
    -- the word ends where the padding does
    have hword : ((↑(w₁.current + data.length) : ℤ) + ((n : ℤ) - data.length - 4) -
        (w₁.buffer.getBegin : ℕ)).toNat + 4 = w.buffer.size + data.length + (n - data.length) := by
      omega
    refine ⟨rfl, hroom.appends hlen ?_ ?_ rfl⟩
    · have hbuf : ∀ f : Mem → Mem, (w₁.buffer.modify f).getBegin = w₁.buffer.getBegin :=
        fun _ => rfl
      simp only [hbuf, hpos, ← copy_copy]
      simp only [Buffer.modify, store_masked (by omega : 0 < n - data.length) hlt hword]
    · simp only
      omega

/-- The size is written, even if the data is then found to be too long. -/
theorem writeSize_appends (hf : Full w) (n : ℕ) :
    Appends w (w.writeInt32 fresh (Int32.ofNat n)) (leBytes 4 n) := by
  have h := writeValue_appends fresh hf 4 (n % 256 ^ 4)
  rwa [leBytes_mod] at h

theorem writeSizedData_appends (hf : Full w) {data : List UInt8}
    (h : data.length ≤ 2 ^ 31 - 1) :
    (w.writeSizedData fresh data).2 = none ∧
      Appends w (w.writeSizedData fresh data).1
        (leBytes 4 data.length ++ withPadding w.usePadding data) := by
  have hsize := writeSize_appends fresh hf data.length
  have hdata := writeData_appends fresh hsize.full h
  rw [hsize.usePadding] at hdata
  exact ⟨hdata.1, hsize.trans hdata.2⟩

/-- **What a call appends.** -/
theorem call_appends (hf : Full w) {c : Call} (hc : c.Fits) :
    (call fresh w c).2 = none ∧ Full (call fresh w c).1 ∧
      (call fresh w c).1.buffer.bytes = w.buffer.bytes ++ encoding w.usePadding c ∧
      (call fresh w c).1.usePadding = c.paddingAfter w.usePadding := by
  suffices happ : (∀ enable, c ≠ .setPadding enable) → (call fresh w c).2 = none ∧
      Appends w (call fresh w c).1 (encoding w.usePadding c) by
    cases c with
    | setPadding enable => exact ⟨rfl, hf, (List.append_nil _).symm, rfl⟩
    | _ =>
      obtain ⟨hnone, hfull, hbytes, hpad⟩ := happ fun _ h => by cases h
      exact ⟨hnone, hfull, hbytes, hpad⟩
  intro hset
  cases c with
  | writeUint16 value | writeUint32 value | writeUint64 value | writeInt16 value
  | writeInt32 value | writeInt64 value => exact ⟨rfl, writeValue_appends fresh hf _ _⟩
  | writeData data => exact writeData_appends fresh hf hc
  | writeSizedData data => exact writeSizedData_appends fresh hf hc
  | writeChars s last =>
    have hle : (s ++ [last]).length ≤ 2 ^ 31 - 1 := by
      rw [List.length_append]
      exact hc
    have h := writeSizedData_appends fresh hf hle
    rwa [List.length_append, List.length_singleton] at h
  | writeStdString str =>
    have hle : (str ++ [0]).length ≤ 2 ^ 31 - 1 := by
      rw [List.length_append]
      exact hc
    have h := writeSizedData_appends fresh hf hle
    rwa [List.length_append, List.length_singleton] at h
  | writeString str =>
    have hsize := writeSize_appends fresh hf str.length
    by_cases h0 : str = []
    · subst h0
      refine ⟨rfl, ?_⟩
      rw [encoding, if_pos rfl, List.append_nil]
      exact hsize
    · have hne : str.length ≠ 0 := fun h => h0 (List.length_eq_zero_iff.mp h)
      have hlen : (BinaryWriter.unitBytes (str ++ [0])).length ≤ 2 ^ 31 - 1 := by
        rw [Strings.length_unitBytes, List.length_append, List.length_singleton]
        have hle := hc.resolve_left h0
        omega
      have hdata := writeData_appends fresh hsize.full hlen
      rw [hsize.usePadding] at hdata
      simp only [call, Implementation.writeString, encoding, if_neg hne, if_neg h0]
      exact ⟨hdata.1, hsize.trans hdata.2⟩
  | setPadding enable => exact absurd rfl (hset enable)

/-- Data that is too long is refused, but its size may have been written. -/
theorem call_extends (hf : Full w) (c : Call) : Full (call fresh w c).1 ∧
    ∃ l, (call fresh w c).1.buffer.bytes = w.buffer.bytes ++ l := by
  have hsized : ∀ data : List UInt8, ¬ data.length ≤ 2 ^ 31 - 1 →
      Full (w.writeSizedData fresh data).1 ∧
        ∃ l, (w.writeSizedData fresh data).1.buffer.bytes = w.buffer.bytes ++ l := by
    intro data hlong
    have hsize := writeSize_appends fresh hf data.length
    rw [Implementation.writeSizedData, writeData_of_lt fresh (by omega)]
    exact ⟨hsize.full, _, hsize.bytes⟩
  by_cases hc : c.Fits
  · obtain ⟨-, hfull, hbytes, -⟩ := call_appends fresh hf hc
    exact ⟨hfull, _, hbytes⟩
  · cases c with
    | writeData data =>
      have hlong : ¬ data.length ≤ 2 ^ 31 - 1 := hc
      rw [call, writeData_of_lt fresh (by omega)]
      exact ⟨hf, [], (List.append_nil _).symm⟩
    | writeSizedData data => exact hsized data hc
    | writeChars s last => exact hsized (s ++ [last]) (by rw [List.length_append]; exact hc)
    | writeStdString str => exact hsized (str ++ [0]) (by rw [List.length_append]; exact hc)
    | writeString str =>
      have hsize := writeSize_appends fresh hf str.length
      obtain ⟨h0, hlong⟩ := not_or.mp hc
      have hne : str.length ≠ 0 := fun h => h0 (List.length_eq_zero_iff.mp h)
      have hlt : 2 ^ 31 - 1 < (BinaryWriter.unitBytes (str ++ [0])).length := by
        rw [Strings.length_unitBytes, List.length_append, List.length_singleton]
        omega
      rw [call, Implementation.writeString, if_neg hne, writeData_of_lt fresh hlt]
      exact ⟨hsize.full, _, hsize.bytes⟩
    | _ => exact absurd trivial hc

/-! ### Sequences of calls -/

theorem run_cons (w : Implementation) (c : Call) (calls : List Call) :
    run fresh w (c :: calls) =
      ((run fresh (call fresh w c).1 calls).1,
        (call fresh w c).2.toList ++ (run fresh (call fresh w c).1 calls).2) := rfl

theorem run_append (w : Implementation) (calls calls' : List Call) :
    run fresh w (calls ++ calls') =
      ((run fresh (run fresh w calls).1 calls').1,
        (run fresh w calls).2 ++ (run fresh (run fresh w calls).1 calls').2) := by
  induction calls generalizing w with
  | nil => rfl
  | cons c calls ih => rw [List.cons_append, run_cons, ih, run_cons, List.append_assoc]

theorem run_extends (calls : List Call) : ∀ {w : Implementation}, Full w →
    Full (run fresh w calls).1 ∧
      ∃ l, (run fresh w calls).1.buffer.bytes = w.buffer.bytes ++ l := by
  induction calls with
  | nil => exact fun hf => ⟨hf, [], (List.append_nil _).symm⟩
  | cons c calls ih =>
    intro w hf
    obtain ⟨hfull, l, hl⟩ := call_extends fresh hf c
    obtain ⟨hfull', l', hl'⟩ := ih hfull
    rw [run_cons]
    exact ⟨hfull', l ++ l', by rw [hl', hl, List.append_assoc]⟩

/-- The calls append their encodings, whatever was in the buffer before. -/
theorem run_appends (calls : List Call) : ∀ {w : Implementation}, Full w →
    (∀ c ∈ calls, c.Fits) → (run fresh w calls).2 = [] ∧ Full (run fresh w calls).1 ∧
      (run fresh w calls).1.buffer.bytes = w.buffer.bytes ++ encodings w.usePadding calls := by
  induction calls with
  | nil => exact fun hf _ => ⟨rfl, hf, (List.append_nil _).symm⟩
  | cons c calls ih =>
    intro w hf hfits
    obtain ⟨hnone, hfull, hbytes, hpad⟩ := call_appends fresh hf (hfits c (.head _))
    obtain ⟨hnone', hfull', hbytes'⟩ := ih hfull fun c hc => hfits c (.tail _ hc)
    rw [run_cons]
    refine ⟨?_, hfull', ?_⟩
    · rw [hnone, hnone']
      rfl
    · rw [hbytes', hbytes, hpad, List.append_assoc]
      rfl

end Appending

/-- **The buffer is the concatenation of the encodings.** Whatever the blocks of memory come with,
no call throws, `GetBytesWritten` is the size of the buffer after every call, and the calls that
come later leave the bytes alone that are there. -/
theorem run_eq_encodings (fresh : ℕ → Block) (calls : List Call) (hc : ∀ c ∈ calls, c.Fits) :
    (run fresh {} calls).2 = [] ∧
      (run fresh {} calls).1.buffer.bytes = encodings true calls ∧
      ∀ before after, calls = before ++ after →
        (run fresh {} before).1.getBytesWritten = (run fresh {} before).1.buffer.size ∧
        (run fresh {} before).1.buffer.size ≤ (run fresh {} calls).1.buffer.size ∧
        ∀ i < (run fresh {} before).1.buffer.size, (run fresh {} calls).1.buffer.data.mem i =
          (run fresh {} before).1.buffer.data.mem i := by
  have hempty : Full ({} : Implementation) := rfl
  obtain ⟨hnone, -, hbytes⟩ := run_appends fresh calls hempty hc
  refine ⟨hnone, hbytes, ?_⟩
  rintro before after rfl
  obtain ⟨-, hfull, -⟩ := run_appends fresh before hempty fun c h => hc c (by simp [h])
  obtain ⟨-, -, hafter⟩ := run_appends fresh after hfull fun c h => hc c (by simp [h])
  rw [run_append]
  set w := (run fresh {} before).1
  set w' := (run fresh w after).1
  have hsize := congrArg List.length hafter
  simp only [Buffer.bytes, List.length_append, length_slice] at hsize
  refine ⟨?_, by omega, fun i hi => ?_⟩
  · rw [Implementation.getBytesWritten, show w.current = _ from hfull, Nat.add_sub_cancel_left]
  have hget := congrArg (fun l => l.getD i 0) hafter
  simp only [Buffer.bytes] at hget
  rw [slice_getD (by omega), List.getD_append _ _ _ _ (by simpa using hi), slice_getD hi] at hget
  simpa using hget

/-- Data of three bytes with padding off, so that what comes after it is not aligned. -/
def someCalls : List Call :=
  [.writeUint16 10, .setPadding false, .writeData [1, 2, 3], .setPadding true,
    .writeSizedData [7], .writeStdString [0x75, 0x70], .writeString [0x41], .writeInt32 (-2)]

/-- A block of this many bytes more, none of them zero. -/
def filled (n : ℕ) : Block := ⟨4096 * (n + 1), fun _ => 0xff⟩

theorem run_eq_encodings_someCalls :
    (run filled {} someCalls).2 = [] ∧
      (run filled {} someCalls).1.buffer.bytes = [10, 0, 1, 2, 3, 1, 0, 0, 0, 7, 0, 0, 0,
        3, 0, 0, 0, 0x75, 0x70, 0, 0, 1, 0, 0, 0, 0x41, 0, 0, 0, 0xfe, 0xff, 0xff, 0xff] :=
  have h := run_eq_encodings filled someCalls (by simp [someCalls, Call.Fits])
  ⟨h.1, h.2.1.trans (by decide)⟩

/-! ### The writer of the messages -/

/-- A call of the writer on lists. -/
def listCall (b : BinaryWriter) : Call → BinaryWriter
  | .writeUint16 value => b.writeUint16 value.toNat
  | .writeUint32 value => b.writeUint32 value.toNat
  | .writeUint64 value => b.writeUint64 value.toNat
  | .writeInt16 value => b.writeInt16 value.toInt
  | .writeInt32 value => b.writeInt32 value.toInt
  | .writeInt64 value => b.writeInt64 value.toInt
  | .writeData data => b.writeData data
  | .writeSizedData data => b.writeSizedData data
  | .writeChars s last => b.writeChars s last
  | .writeStdString str => b.writeStdString str
  | .writeString str => (b.writeString str).1
  | .setPadding enable => b.setPadding enable

theorem toNat_toInt_emod {n : ℕ} (x : BitVec n) : (x.toInt % 2 ^ n).toNat = x.toNat := by
  rw [BitVec.toInt_eq_toNat_bmod]
  have h : ((x.toNat : ℤ).bmod (2 ^ n) % ((2 ^ n : ℕ) : ℤ)) = x.toNat % ((2 ^ n : ℕ) : ℤ) :=
    Int.bmod_emod
  push_cast at h
  rw [h]
  have hlt := x.isLt
  rw [Int.emod_eq_of_lt (by omega) (by exact_mod_cast hlt)]
  rfl

theorem listWriteData_eq (b : BinaryWriter) (data : List UInt8) :
    b.writeData data = ⟨b.bytes ++ withPadding b.usePadding data, b.usePadding⟩ := by
  unfold BinaryWriter.writeData BinaryWriter.padding withPadding padded
  rw [List.append_assoc]
  split_ifs
  · rfl
  · rw [List.append_nil]

theorem listWriteSize_eq (b : BinaryWriter) (n : ℕ) :
    b.writeInt32 n = ⟨b.bytes ++ leBytes 4 n, b.usePadding⟩ := by
  have hn : ((n : ℤ) % 2 ^ 32).toNat = n % 2 ^ 32 := by omega
  have hbytes : leBytes 4 (n % 2 ^ 32) = leBytes 4 n := leBytes_mod 4 n
  rw [BinaryWriter.writeInt32, BinaryWriter.writeValue, hn, hbytes]

theorem listWriteSizedData_eq (b : BinaryWriter) (data : List UInt8) :
    b.writeSizedData data =
      ⟨b.bytes ++ (leBytes 4 data.length ++ withPadding b.usePadding data), b.usePadding⟩ := by
  rw [BinaryWriter.writeSizedData, listWriteSize_eq, listWriteData_eq, List.append_assoc]

theorem listCall_eq (b : BinaryWriter) {c : Call} (hc : c.Fits) :
    listCall b c = ⟨b.bytes ++ encoding b.usePadding c, c.paddingAfter b.usePadding⟩ := by
  cases c with
  | writeUint16 value | writeUint32 value | writeUint64 value => rfl
  | writeInt16 value =>
    have h : (value.toInt % 2 ^ 16).toNat = value.toUInt16.toNat := toNat_toInt_emod value.toBitVec
    rw [listCall, BinaryWriter.writeInt16, h]
    rfl
  | writeInt32 value =>
    have h : (value.toInt % 2 ^ 32).toNat = value.toUInt32.toNat := toNat_toInt_emod value.toBitVec
    rw [listCall, BinaryWriter.writeInt32, h]
    rfl
  | writeInt64 value =>
    have h : (value.toInt % 2 ^ 64).toNat = value.toUInt64.toNat := toNat_toInt_emod value.toBitVec
    rw [listCall, BinaryWriter.writeInt64, h]
    rfl
  | writeData data => exact listWriteData_eq b data
  | writeSizedData data => exact listWriteSizedData_eq b data
  | writeChars s last =>
    rw [listCall, BinaryWriter.writeChars, listWriteSizedData_eq, List.length_append]
    rfl
  | writeStdString str =>
    rw [listCall, BinaryWriter.writeStdString, BinaryWriter.writeChars, listWriteSizedData_eq,
      List.length_append]
    rfl
  | writeString str =>
    rw [listCall, BinaryWriter.writeString, listWriteSize_eq]
    by_cases h0 : str = []
    · subst h0
      simp only [List.length_nil, if_true, encoding, List.append_nil]
      rfl
    · have hne : str.length ≠ 0 := fun h => h0 (List.length_eq_zero_iff.mp h)
      have hle : ¬ 2 ^ 31 - 1 < (str.length + 1) * 2 := not_lt.mpr (hc.resolve_left h0)
      simp only [if_neg hne, if_neg hle, listWriteData_eq, encoding, if_neg h0, List.append_assoc]
      rfl
  | setPadding enable => rw [encoding, List.append_nil]; rfl

/-- **The writer of the messages writes what the writer on memory does.** -/
theorem bytes_run_eq (fresh : ℕ → Block) (calls : List Call) (hc : ∀ c ∈ calls, c.Fits) :
    (run fresh {} calls).1.buffer.bytes = (calls.foldl listCall {}).bytes := by
  have hlist : ∀ b : BinaryWriter, (calls.foldl listCall b).bytes =
      b.bytes ++ encodings b.usePadding calls := by
    induction calls with
    | nil => exact fun b => (List.append_nil _).symm
    | cons c calls ih =>
      intro b
      have htail := ih fun c h => hc c (.tail _ h)
      rw [List.foldl_cons, listCall_eq b (hc c (.head _)), htail, encodings, List.append_assoc]
  obtain ⟨-, -, hbytes⟩ := run_appends fresh calls (w := {}) rfl hc
  rw [hbytes, hlist]
  rfl

end Binderd.Wire.Growing
