import Binderd.Lib.Utf16
import Binderd.Wire.Messages

/-! # Strings

A `std::string` is the list of its bytes, and is to hold UTF-8; `to_string16` and `to_string8` go
between it and a `u16string`, and throw at what is not well formed. `toString8_toString16`: what was
converted is converted back.

On the wire a string of `n` code units takes its length and, unless it is empty, the units with a
terminator, padded to four bytes. `ReadString16` reads the terminator of an empty string, too, so
that it reads what `WriteString` wrote if the string is not empty (`readString16_writeString`). -/

namespace Binderd.Wire.Strings

open Binderd.Lib.Bytes Binderd.Lib.Utf16 Binderd.Wire.Streams Binderd.Wire.Messages

/-! ### Conversions -/

/-- `utils::to_string16`. -/
def toString16 (str : List UInt8) : Except Exn (List UInt16) :=
  match str.toByteArray.utf8Decode? with
  | some cs => .ok (encode cs.toList)
  | none => .error .other

/-- `utils::to_string8`. -/
def toString8 (str : List UInt16) : Except Exn (List UInt8) :=
  match decode str with
  | some cs => .ok (cs.flatMap String.utf8EncodeChar)
  | none => .error .other

theorem toString8_toString16 {str : List UInt8} {units : List UInt16}
    (h : toString16 str = .ok units) : toString8 units = .ok str := by
  unfold toString16 at h
  cases hcs : str.toByteArray.utf8Decode? with
  | none =>
    rw [hcs] at h
    cases h
  | some cs =>
    rw [hcs] at h
    cases h
    have hback : (cs.toList.flatMap String.utf8EncodeChar).toByteArray = str.toByteArray := by
      have hget := ByteArray.utf8Encode_get_utf8Decode? (b := str.toByteArray)
        (h := by rw [hcs]; rfl)
      rwa [Option.get_of_eq_some _ hcs] at hget
    have hbytes := congrArg (·.data.toList) hback
    simp only [List.toList_data_toByteArray] at hbytes
    simp only [toString8, decode_encode, hbytes]

theorem toString16_flatMap (cs : List Char) :
    toString16 (cs.flatMap String.utf8EncodeChar) = .ok (encode cs) := by
  have h : (cs.flatMap String.utf8EncodeChar).toByteArray.utf8Decode? = some cs.toArray :=
    List.utf8Decode?_utf8Encode
  rw [toString16, h]

/-! ### Strings on the wire -/

theorem length_unitBytes (str : List UInt16) :
    (BinaryWriter.unitBytes str).length = 2 * str.length := by
  induction str with
  | nil => rfl
  | cons u str ih =>
    rw [BinaryWriter.unitBytes, List.flatMap_cons, List.length_append, length_leBytes,
      ← BinaryWriter.unitBytes, ih, List.length_cons]
    omega

/-- The bytes that `WriteString` writes. -/
def stringBytes (str : List UInt16) : List UInt8 :=
  leBytes 4 (str.length % 2 ^ 32) ++
    if str.length = 0 ∨ 2 ^ 31 - 1 < (str.length + 1) * 2 then []
    else padded (BinaryWriter.unitBytes (str ++ [0]))

theorem writeString_fst {b : BinaryWriter} (hp : b.usePadding = true) (str : List UInt16) :
    (b.writeString str).1 = { b with bytes := b.bytes ++ stringBytes str } := by
  have hint : (b.writeInt32 str.length).bytes =
      b.bytes ++ leBytes 4 (str.length % 2 ^ 32) := by
    unfold BinaryWriter.writeInt32 BinaryWriter.writeValue
    norm_cast
  unfold BinaryWriter.writeString stringBytes
  by_cases h0 : str.length = 0
  · simp only [h0, if_true, true_or, List.append_nil]
    rw [h0] at hint
    rw [← hint]
    rfl
  · by_cases hlong : 2 ^ 31 - 1 < (str.length + 1) * 2
    · simp only [h0, if_false, hlong, if_true, or_true, List.append_nil]
      rw [← hint]
      rfl
    · simp only [h0, if_false, hlong, or_self]
      have hpad : (b.writeInt32 str.length).usePadding = true := hp
      simp only [BinaryWriter.writeData, BinaryWriter.padding, hpad, if_true, hint, padded,
        List.append_assoc]
      rw [hp]

theorem writeString_snd_of_lt {str : List UInt16} (hs : str.length < 256) (b : BinaryWriter) :
    (b.writeString str).2 = none := by
  unfold BinaryWriter.writeString
  by_cases h0 : str.length = 0
  · simp only [h0, if_true]
  · simp only [h0, if_false, show ¬ 2 ^ 31 - 1 < (str.length + 1) * 2 by omega]

theorem four_dvd_length_stringBytes (str : List UInt16) : 4 ∣ (stringBytes str).length := by
  unfold stringBytes
  split_ifs
  · simp
  · rw [List.length_append, length_leBytes, length_padded]
    omega

/-- Code units are read as they were written, wherever they stand. -/
theorem unitsAt_unitBytes (str : List UInt16) (pre post : List UInt8) :
    BinaryReader.unitsAt (pre ++ (BinaryWriter.unitBytes str ++ post)) pre.length str.length =
      str := by
  have hunits : BinaryWriter.unitBytes str = (str.map UInt16.toNat).flatMap (leBytes 2) := by
    rw [List.flatMap_map]
    rfl
  have hlt : ∀ n ∈ str.map UInt16.toNat, n < 256 ^ 2 := by
    intro n hn
    obtain ⟨u, -, rfl⟩ := List.mem_map.mp hn
    exact u.toNat_lt
  have h := congrArg (List.map UInt16.ofNat) (map_load_flatMap post _ pre hlt)
  rw [List.map_map, List.length_map, ← hunits, List.map_map] at h
  refine h.trans ?_
  conv_rhs => rw [← List.map_id str]
  exact List.map_congr_left fun u _ => UInt16.ofNat_toNat

theorem stringBytes_of_lt {str : List UInt16} (h0 : str ≠ []) (hs : str.length < 256) :
    stringBytes str =
      leBytes 4 str.length ++ padded (BinaryWriter.unitBytes (str ++ [0])) := by
  have hne : str.length ≠ 0 := fun h => h0 (List.length_eq_zero_iff.mp h)
  rw [stringBytes, if_neg (by omega), Nat.mod_eq_of_lt (by omega)]

/-- **A string that is not empty is read as it was written**, if one byte holds its length. -/
theorem readString16_writeString {r : BinaryReader} {str : List UInt16} {pre post : List UInt8}
    (hp : r.usePadding = true) (hb : r.buffer = pre ++ (stringBytes str ++ post))
    (hc : r.current = pre.length) (h0 : str ≠ []) (hs : str.length < 256) :
    r.readString16 =
      .ok (str, { r with current := r.current + (stringBytes str).length }) := by
  have hlen : (padded (BinaryWriter.unitBytes (str ++ [0]))).length =
      ((str.length + 1) * 2 + 3) / 4 * 4 := by
    rw [length_padded, length_unitBytes, List.length_append, List.length_singleton]
    omega
  rw [stringBytes_of_lt h0 hs, List.append_assoc] at hb
  have hsize := readValue_leBytes r 4 str.length pre _ hb hc (by omega) hs
  have hbound : r.current + 4 + ((str.length + 1) * 2 + 3) / 4 * 4 ≤ r.buffer.length := by
    rw [hb, hc]
    simp only [List.length_append, length_leBytes, hlen]
    omega
  have hunits : BinaryReader.unitsAt r.buffer (r.current + 4) str.length = str := by
    have h := unitsAt_unitBytes str (pre ++ leBytes 4 str.length) (BinaryWriter.unitBytes [0] ++
      (List.replicate (((BinaryWriter.unitBytes (str ++ [0])).length + 3) / 4 * 4 -
        (BinaryWriter.unitBytes (str ++ [0])).length) 0 ++ post))
    rw [List.length_append, length_leBytes, ← hc] at h
    rw [hb]
    refine Eq.trans ?_ h
    simp only [padded, BinaryWriter.unitBytes, List.flatMap_append, List.append_assoc]
  simp only [BinaryReader.readString16, BinaryReader.readInt32, hsize, bind, Except.bind, hp,
    if_true, BinaryReader.padSize_of_lt (show (str.length + 1) * 2 < 2 ^ 32 - 3 by omega)]
  rw [if_neg (by omega), hunits, stringBytes_of_lt h0 hs, List.length_append, length_leBytes, hlen,
    Nat.add_assoc]

/-- Of an empty string, the reader takes four bytes more than were written, if they are there. -/
theorem readString16_empty {r : BinaryReader} {pre post : List UInt8} (hp : r.usePadding = true)
    (hb : r.buffer = pre ++ (stringBytes [] ++ post)) (hc : r.current = pre.length)
    {str : List UInt16} {r' : BinaryReader} (h : r.readString16 = .ok (str, r')) :
    r'.current = r.current + (stringBytes []).length + 4 := by
  have hsize := readValue_leBytes r 4 0 pre post
    (by rw [hb]; simp [stringBytes]) hc (by omega) (by omega)
  simp only [BinaryReader.readString16, BinaryReader.readInt32, hsize, bind, Except.bind, hp,
    if_true, BinaryReader.padSize_of_lt (show (0 + 1) * 2 < 2 ^ 32 - 3 by omega)] at h
  split_ifs at h
  cases h
  simp [stringBytes]

end Binderd.Wire.Strings
