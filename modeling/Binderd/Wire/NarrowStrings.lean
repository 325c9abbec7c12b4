import Binderd.Wire.Growing

/-! # Narrow strings

`WriteString` of a `std::string` passes `size + 1` bytes to `WriteSizedData`, so that the length on
the wire counts the terminator. `ReadString` takes that length for the length of the string, and
expects a terminator behind it. So what was written with a terminator is read as a string that ends
with one, and a terminator is looked for behind it (`readString_encoding`): the string never comes
back (`not_readsBack`), and where its length is `3` modulo `4` the reader is four bytes too far, or
runs out of bytes. -/

namespace Binderd.Wire.NarrowStrings

open Binderd.Lib.Bytes Binderd.Wire.Streams Binderd.Wire.Messages Binderd.Wire.Growing

/-- The bytes that the reader of a string of `n` bytes asks for behind the length it finds. -/
def bytesAsked (n : ℕ) : ℕ := (n + 2 + 3) / 4 * 4

/-- **What `ReadString` makes of a string that `WriteString` wrote.** -/
theorem readString_encoding {r : BinaryReader} {str pre post : List UInt8}
    (hp : r.usePadding = true) (hc : r.current = pre.length) (hs : str.length < 255)
    (hb : r.buffer = pre ++ (encoding true (.writeStdString str) ++ post)) :
    r.readString =
      if r.buffer.length < r.current + 4 + bytesAsked str.length then .error .outOfRange
      else .ok (str ++ [0], { r with current := r.current + 4 + bytesAsked str.length }) := by
  rw [encoding, withPadding, if_pos rfl, List.append_assoc] at hb
  have hsize := readValue_leBytes r 4 (str.length + 1) pre _ hb hc (by omega) (by omega)
  have hpadded := BinaryReader.padSize_of_lt (show str.length + 1 + 1 < 2 ^ 32 - 3 by omega)
  have hview : (View.mk (r.current + 4) (str.length + 1)).bytes r.buffer = str ++ [0] := by
    have hlen : (pre ++ leBytes 4 (str.length + 1)).length = r.current + 4 := by
      rw [List.length_append, length_leBytes, hc]
    rw [View.bytes, hb, ← List.append_assoc, List.drop_left' hlen, padded, List.append_assoc,
      List.take_left' (by simp)]
  simp only [BinaryReader.readString, BinaryReader.readInt32, hsize, bind, Except.bind, hp, if_true,
    hpadded, hview]
  rfl

/-- The string that is written after the calls `before`, with the calls `after` following, is read
back, and the reader is then where the writer was. -/
def ReadsBack (fresh : ℕ → Block) (before : List Call) (str : List UInt8) (after : List Call) :
    Prop :=
  let start := (run fresh {} before).1.getBytesWritten
  let stop := (run fresh {} (before ++ [.writeStdString str])).1.getBytesWritten
  let buffer := (run fresh {} (before ++ .writeStdString str :: after)).1.buffer.bytes
  ({ buffer := buffer, current := start } : BinaryReader).readString =
    .ok (str, { buffer := buffer, current := stop })

/-- **No string is read back**, wherever it was written. -/
theorem not_readsBack (fresh : ℕ → Block) (before after : List Call) {str : List UInt8}
    (hp : (run fresh {} before).1.usePadding = true) (hs : str.length < 255) :
    ¬ ReadsBack fresh before str after := by
  intro hback
  obtain ⟨hfull, -⟩ := run_extends fresh before (w := {}) rfl
  have hfits : (Call.writeStdString str).Fits := by
    change str.length + 1 ≤ 2 ^ 31 - 1
    omega
  obtain ⟨-, hfull', hbytes, -⟩ := call_appends fresh hfull hfits
  obtain ⟨-, post, hpost⟩ := run_extends fresh after hfull'
  rw [hp] at hbytes
  have hstart : (run fresh {} before).1.getBytesWritten =
      (run fresh {} before).1.buffer.bytes.length := by
    rw [Implementation.getBytesWritten, show (run fresh {} before).1.current = _ from hfull,
      Nat.add_sub_cancel_left, Buffer.bytes, length_slice]
  have hbuffer : (run fresh {} (before ++ .writeStdString str :: after)).1.buffer.bytes =
      (run fresh {} before).1.buffer.bytes ++ (encoding true (.writeStdString str) ++ post) := by
    rw [run_append, run_cons, hpost, hbytes, List.append_assoc]
  unfold ReadsBack at hback
  simp only at hback
  rw [readString_encoding rfl hstart hs hbuffer] at hback
  split_ifs at hback with hroom
  simp only [Except.ok.injEq, Prod.mk.injEq] at hback
  exact absurd hback.1 (by simp)

/-- The string of the tests, among other values. -/
theorem not_readsBack_uuupps :
    ¬ ReadsBack filled [.writeUint16 10, .writeUint32 0x22334455]
      [0x75, 0x75, 0x75, 0x70, 0x70, 0x73] [.writeInt16 4455] :=
  not_readsBack filled _ _ (by decide) (by decide)

/-- It comes back with a terminator: seven bytes, where six were written. -/
theorem exists_not_readsBack : ¬ ∀ fresh before str after,
    (run fresh {} before).1.usePadding = true → str.length < 255 →
      ReadsBack fresh before str after := by
  intro hall
  let calls : List Call := [.writeStdString [0x75, 0x75, 0x75, 0x70, 0x70, 0x73]]
  let buffer := (run filled {} calls).1.buffer.bytes
  have hread : (({ buffer := buffer, current := 0 } : BinaryReader).readString.toOption.map (·.1)) =
      some [0x75, 0x75, 0x75, 0x70, 0x70, 0x73, 0] := by decide
  have hback := hall filled [] [0x75, 0x75, 0x75, 0x70, 0x70, 0x73] [] rfl (by decide)
  rw [show ({ buffer := buffer, current := 0 } : BinaryReader).readString = _ from hback] at hread
  exact absurd hread (by decide)

end Binderd.Wire.NarrowStrings
