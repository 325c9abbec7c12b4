import Binderd.Wire.Streams

/-! # Messages, their packed form and the parser

A message has a type, a destination, a cookie and data. `pack` writes the four in this order, the
data with its size and padded to four bytes; `unpack` reads them back from a position of a buffer,
with the data as a view into it; `MessageParser` calls `unpack` until the buffer is consumed.

Since a read returns one byte, `unpack` recovers a packed message exactly when its type,
destination, cookie and the length of its data are below `256` (`Representable`, `unpack_pack`),
and then the packed form parses to that one message (`parse_pack`). -/

namespace Binderd.Wire.Messages

open Binderd.Lib.Bytes Binderd.Wire.Streams

/-! ### Status -/

/-- The values of `Status`, with the error numbers of Linux. -/
inductive Status where
  | ok | unknownError | noMemory | invalidOperation | badValue | badType | nameNotFound
  | permissionDenied | noInit | alreadyExists | deadObject | failedTransaction | badIndex
  | notEnoughData | wouldBlock | timedOut | unknownTransaction | fdsNotAllowed | unexpectedNull
deriving DecidableEq, Repr

/-- The number of the status, as `Status` in the source has it. -/
def Status.toInt : Status → ℤ
  | .ok => 0
  | .unknownError => -2 ^ 31
  | .noMemory => -12
  | .invalidOperation => -38
  | .badValue => -22
  | .badType => -2 ^ 31 + 1
  | .nameNotFound => -2
  | .permissionDenied => -1
  | .noInit => -19
  | .alreadyExists => -17
  | .deadObject => -32
  | .failedTransaction => -2 ^ 31 + 2
  | .badIndex => -75
  | .notEnoughData => -61
  | .wouldBlock => -11
  | .timedOut => -110
  | .unknownTransaction => -74
  | .fdsNotAllowed => -2 ^ 31 + 7
  | .unexpectedNull => -2 ^ 31 + 8

/-! ### Messages -/

/-- The values of `Message::Type`; the type is any `uint32_t`, so there are unnamed ones. -/
inductive MessageType where
  | unknown | transaction | transactionReply | acquire | release | requestDeathNotification
  | clearDeathNotification | deadBinder | setContextMgr | setMonitor | version | logEntry | status
  | unnamed (value : {n : ℕ // 12 < n})
deriving DecidableEq

namespace MessageType

/-- The number of the type, as it is sent. -/
def toNat : MessageType → ℕ
  | unknown => 0
  | transaction => 1
  | transactionReply => 2
  | acquire => 3
  | release => 4
  | requestDeathNotification => 5
  | clearDeathNotification => 6
  | deadBinder => 7
  | setContextMgr => 8
  | setMonitor => 9
  | version => 10
  | logEntry => 11
  | status => 12
  | unnamed value => value.1

/-- The type with the number; every other number is `unknown`. -/
def ofNat : ℕ → MessageType
  | 0 => unknown
  | 1 => transaction
  | 2 => transactionReply
  | 3 => acquire
  | 4 => release
  | 5 => requestDeathNotification
  | 6 => clearDeathNotification
  | 7 => deadBinder
  | 8 => setContextMgr
  | 9 => setMonitor
  | 10 => version
  | 11 => logEntry
  | 12 => status
  | n + 13 => unnamed ⟨n + 13, by omega⟩

@[simp] theorem toNat_ofNat : ∀ n : ℕ, (ofNat n).toNat = n
  | 0 | 1 | 2 | 3 | 4 | 5 | 6 | 7 | 8 | 9 | 10 | 11 | 12 => rfl
  | _ + 13 => rfl

@[simp] theorem ofNat_toNat (t : MessageType) : ofNat t.toNat = t := by
  cases t with
  | unnamed value =>
    obtain ⟨n, hn⟩ := value
    obtain ⟨k, rfl⟩ : ∃ k, n = k + 13 := ⟨n - 13, by omega⟩
    rfl
  | _ => rfl

end MessageType

/-- A message. -/
structure Message where
  type : MessageType
  destination : ℕ := 0
  cookie : ℕ := 0
  data : List UInt8 := []
deriving DecidableEq

/-- A message as the parser returns it: its data is a view into the buffer it was parsed from. -/
structure Received where
  type : MessageType
  destination : ℕ
  cookie : ℕ
  data : View
deriving DecidableEq

/-- The message with the bytes its view shows of the buffer. -/
def Received.toMessage (m : Received) (buffer : List UInt8) : Message :=
  ⟨m.type, m.destination, m.cookie, m.data.bytes buffer⟩

/-- `Message::Pack`. -/
def pack (m : Message) : List UInt8 :=
  let writer : BinaryWriter := {}
  let writer := writer.writeUint32 m.type.toNat
  let writer := writer.writeUint64 m.destination
  let writer := writer.writeUint64 m.cookie
  let writer := writer.writeSizedData m.data
  writer.bytes

/-- `Message::Unpack`: the message, and the value the function returns. -/
def unpack (buffer : List UInt8) (offset : ℕ) : Except Exn (Received × ℕ) := do
  let reader : BinaryReader := { buffer := buffer, current := offset }
  let (type, reader) ← reader.readUint32
  let (destination, reader) ← reader.readUint64
  let (cookie, reader) ← reader.readUint64
  let (data, reader) ← reader.readSizedData
  return (⟨.ofNat type, destination, cookie, data⟩, reader.getBytesRead)

/-! ### The parser -/

/-- What `MessageParser` keeps: the frame, and how much of it has been parsed. -/
structure MessageParser where
  buffer : List UInt8
  consumed : ℕ := 0

/-- `MessageParser::Next`, with `bytes_available` the size of the buffer. -/
def MessageParser.next (p : MessageParser) : Except Exn (Option Received × MessageParser) :=
  if p.buffer.length ≤ p.consumed then .ok (none, p)
  else do
    let (msg, used) ← unpack p.buffer p.consumed
    if used = 0 then return (none, p)
    return (some msg, { p with consumed := p.consumed + used })

/-- The messages `next` returns until it returns none or throws, and the exception. -/
def MessageParser.drain : ℕ → MessageParser → List Received × Option Exn
  | 0, _ => ([], none)
  | fuel + 1, p =>
    match p.next with
    | .error e => ([], some e)
    | .ok (none, _) => ([], none)
    | .ok (some msg, p) => ((msg :: (p.drain fuel).1), (p.drain fuel).2)

/-- The messages of a frame. A message takes 24 bytes or more, so the fuel suffices. -/
def parse (buffer : List UInt8) : List Received × Option Exn :=
  MessageParser.drain (buffer.length + 1) { buffer := buffer }

/-! ### Packing and unpacking -/

/-- The fields that one byte holds. -/
structure Representable (m : Message) : Prop where
  type : m.type.toNat < 256
  destination : m.destination < 256
  cookie : m.cookie < 256
  data : m.data.length < 256

instance (m : Message) : Decidable (Representable m) :=
  decidable_of_iff
    (m.type.toNat < 256 ∧ m.destination < 256 ∧ m.cookie < 256 ∧ m.data.length < 256)
    ⟨fun h => ⟨h.1, h.2.1, h.2.2.1, h.2.2.2⟩, fun h => ⟨h.type, h.destination, h.cookie, h.data⟩⟩

/-- The data with the zero bytes after it. -/
def padded (data : List UInt8) : List UInt8 :=
  data ++ List.replicate ((data.length + 3) / 4 * 4 - data.length) 0

theorem length_padded (data : List UInt8) : (padded data).length = (data.length + 3) / 4 * 4 := by
  simp [padded]
  omega

theorem pack_eq (m : Message) :
    pack m = leBytes 4 m.type.toNat ++ (leBytes 8 m.destination ++ (leBytes 8 m.cookie ++
      (leBytes 4 (m.data.length % 2 ^ 32) ++ padded m.data))) := by
  simp [pack, BinaryWriter.writeUint32, BinaryWriter.writeUint64, BinaryWriter.writeSizedData,
    BinaryWriter.writeInt32, BinaryWriter.writeValue, BinaryWriter.writeData, BinaryWriter.padding,
    padded]
  norm_cast

theorem length_pack (m : Message) : (pack m).length = 24 + (m.data.length + 3) / 4 * 4 := by
  rw [pack_eq]
  simp [length_padded]
  omega

theorem readValue_leBytes_mod (r : BinaryReader) (w n : ℕ) (pre post : List UInt8)
    (hb : r.buffer = pre ++ (leBytes w n ++ post)) (hc : r.current = pre.length) (hw : 0 < w) :
    r.readValue w = .ok (n % 256, { r with current := r.current + w }) := by
  have hbyte : (r.buffer.getD r.current 0).toNat = n % 256 := by
    obtain ⟨w, rfl⟩ : ∃ w', w = w' + 1 := ⟨w - 1, by omega⟩
    rw [hb, hc, List.getD_eq_getElem?_getD, List.getElem?_append_right le_rfl, Nat.sub_self,
      List.getElem?_append_left (by simp)]
    simp [leBytes, byteAt]
  rw [BinaryReader.readValue_of_le (by rw [hb, hc]; simp), hbyte]

theorem readValue_leBytes (r : BinaryReader) (w n : ℕ) (pre post : List UInt8)
    (hb : r.buffer = pre ++ (leBytes w n ++ post)) (hc : r.current = pre.length) (hw : 0 < w)
    (hn : n < 256) : r.readValue w = .ok (n, { r with current := r.current + w }) := by
  rw [readValue_leBytes_mod r w n pre post hb hc hw, Nat.mod_eq_of_lt hn]

theorem unpack_pack {m : Message} (h : Representable m) (pre post : List UInt8) :
    unpack (pre ++ (pack m ++ post)) pre.length =
      .ok (⟨m.type, m.destination, m.cookie, ⟨pre.length + 24, m.data.length⟩⟩,
        pre.length + (pack m).length) := by
  obtain ⟨ht, hd, hc, hl⟩ := h
  have hbuf := pack_eq m
  have hlen : m.data.length % 2 ^ 32 = m.data.length := Nat.mod_eq_of_lt (by omega)
  rw [hlen] at hbuf
  set buffer := pre ++ (pack m ++ post) with hbuffer
  have h1 := readValue_leBytes ⟨buffer, pre.length, true⟩ 4 m.type.toNat pre _
    (by simp only [hbuffer, hbuf, List.append_assoc]; rfl) rfl (by omega) ht
  have h2 := readValue_leBytes ⟨buffer, pre.length + 4, true⟩ 8 m.destination
    (pre ++ leBytes 4 m.type.toNat) _
    (by simp only [hbuffer, hbuf, List.append_assoc]; rfl) (by simp) (by omega) hd
  have h3 := readValue_leBytes ⟨buffer, pre.length + 4 + 8, true⟩ 8 m.cookie
    (pre ++ (leBytes 4 m.type.toNat ++ leBytes 8 m.destination)) _
    (by simp only [hbuffer, hbuf, List.append_assoc]; rfl) (by simp) (by omega) hc
  have h4 := readValue_leBytes ⟨buffer, pre.length + 4 + 8 + 8, true⟩ 4 m.data.length
    (pre ++ (leBytes 4 m.type.toNat ++ (leBytes 8 m.destination ++ leBytes 8 m.cookie))) _
    (by simp only [hbuffer, hbuf, List.append_assoc]; rfl) (by simp) (by omega) hl
  have h5 := BinaryReader.readData_of_padding ⟨buffer, pre.length + 4 + 8 + 8 + 4, true⟩
    m.data.length rfl (by omega) (by
      simp only [hbuffer, List.length_append, length_pack]
      omega)
  simp only [unpack, BinaryReader.readUint32, BinaryReader.readUint64, BinaryReader.readSizedData,
    BinaryReader.readInt32, bind, Except.bind, h1, h2, h3, h4, h5, MessageType.ofNat_toNat, pure,
    Except.pure, BinaryReader.getBytesRead, length_pack]
  rw [show pre.length + 4 + 8 + 8 + 4 = pre.length + 24 by omega, Nat.add_assoc]

theorem data_bytes_pack (m : Message) : (View.mk 24 m.data.length).bytes (pack m) = m.data := by
  rw [pack_eq, ← List.append_assoc, ← List.append_assoc, ← List.append_assoc, View.bytes,
    List.drop_left' (by simp), padded]
  simp

/-- **The packed form of a representable message parses to that message.** -/
theorem parse_pack {m : Message} (h : Representable m) :
    parse (pack m) = ([⟨m.type, m.destination, m.cookie, ⟨24, m.data.length⟩⟩], none) := by
  have hu := unpack_pack h [] []
  simp only [List.nil_append, List.append_nil, List.length_nil, Nat.zero_add] at hu
  have hl := length_pack m
  obtain ⟨k, hk⟩ : ∃ k, (pack m).length = k + 1 := ⟨(pack m).length - 1, by omega⟩
  have h1 : (MessageParser.mk (pack m) 0).next = .ok
      (some ⟨m.type, m.destination, m.cookie, ⟨24, m.data.length⟩⟩,
        ⟨pack m, (pack m).length⟩) := by
    simp only [MessageParser.next, hu, bind, Except.bind, pure, Except.pure]
    rw [if_neg (by omega), if_neg (by omega), Nat.zero_add]
  have h2 : (MessageParser.mk (pack m) (pack m).length).next = .ok
      (none, ⟨pack m, (pack m).length⟩) := by
    simp [MessageParser.next]
  rw [parse, hk, MessageParser.drain, h1]
  simp only [MessageParser.drain, h2]

end Binderd.Wire.Messages
