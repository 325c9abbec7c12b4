import Mathlib.Data.List.Basic

/-! # UTF-16

A character takes one code unit, or, from `U+10000` on, two: a high surrogate and a low one after
it. `decode` refuses a surrogate that stands alone. `decode_encode`: what was encoded is decoded to
what it was. -/

namespace Binderd.Lib.Utf16

/-- The code units of a character. -/
def encodeChar (c : Char) : List UInt16 :=
  if c.toNat < 0x10000 then [UInt16.ofNat c.toNat]
  else [UInt16.ofNat (0xD800 + (c.toNat - 0x10000) / 0x400),
    UInt16.ofNat (0xDC00 + (c.toNat - 0x10000) % 0x400)]

/-- The UTF-16 units of a string. -/
def encode (cs : List Char) : List UInt16 := cs.flatMap encodeChar

/-- The first unit of a surrogate pair. -/
def IsHigh (u : UInt16) : Prop := 0xD800 ≤ u.toNat ∧ u.toNat < 0xDC00

/-- The second unit of a surrogate pair. -/
def IsLow (u : UInt16) : Prop := 0xDC00 ≤ u.toNat ∧ u.toNat < 0xE000

instance (u : UInt16) : Decidable (IsHigh u) := by unfold IsHigh; infer_instance

instance (u : UInt16) : Decidable (IsLow u) := by unfold IsLow; infer_instance

/-- The character of a pair of surrogates. -/
def pairChar (u v : UInt16) : Char :=
  Char.ofNat (0x10000 + (u.toNat - 0xD800) * 0x400 + (v.toNat - 0xDC00))

/-- The characters that the code units stand for. -/
def decode : List UInt16 → Option (List Char)
  | [] => some []
  | [u] => if IsHigh u ∨ IsLow u then none else some [Char.ofNat u.toNat]
  | u :: v :: us =>
    if IsHigh u then
      if IsLow v then (decode us).map (pairChar u v :: ·) else none
    else if IsLow u then none
    else (decode (v :: us)).map (Char.ofNat u.toNat :: ·)

theorem decode_cons {u : UInt16} (hh : ¬ IsHigh u) (hl : ¬ IsLow u) (us : List UInt16) :
    decode (u :: us) = (decode us).map (Char.ofNat u.toNat :: ·) := by
  cases us with
  | nil => simp [decode, hh, hl]
  | cons v us => rw [decode, if_neg hh, if_neg hl]

theorem decode_pair {u v : UInt16} (hh : IsHigh u) (hl : IsLow v) (us : List UInt16) :
    decode (u :: v :: us) = (decode us).map (pairChar u v :: ·) := by
  rw [decode, if_pos hh, if_pos hl]

theorem toNat_ofNat {n : ℕ} (h : n < 0x10000) : (UInt16.ofNat n).toNat = n :=
  UInt16.toNat_ofNat_of_lt' h

/-- One character, whatever comes after it. -/
theorem decode_encodeChar (c : Char) (us : List UInt16) :
    decode (encodeChar c ++ us) = (decode us).map (c :: ·) := by
  have hvalid : c.toNat < 0xD800 ∨ 0xDFFF < c.toNat ∧ c.toNat < 0x110000 := c.valid
  unfold encodeChar
  split_ifs with h
  · have hu := toNat_ofNat h
    rw [List.singleton_append, decode_cons, hu, Char.ofNat_toNat]
    · unfold IsHigh
      omega
    · unfold IsLow
      omega
  · have hu : (UInt16.ofNat (0xD800 + (c.toNat - 0x10000) / 0x400)).toNat =
        0xD800 + (c.toNat - 0x10000) / 0x400 := toNat_ofNat (by omega)
    have hv : (UInt16.ofNat (0xDC00 + (c.toNat - 0x10000) % 0x400)).toNat =
        0xDC00 + (c.toNat - 0x10000) % 0x400 := toNat_ofNat (by omega)
    have hpair : pairChar (UInt16.ofNat (0xD800 + (c.toNat - 0x10000) / 0x400))
        (UInt16.ofNat (0xDC00 + (c.toNat - 0x10000) % 0x400)) = c := by
      rw [pairChar, hu, hv, show 0x10000 + (0xD800 + (c.toNat - 0x10000) / 0x400 - 0xD800) * 0x400 +
        (0xDC00 + (c.toNat - 0x10000) % 0x400 - 0xDC00) = c.toNat by omega, Char.ofNat_toNat]
    rw [List.cons_append, List.singleton_append, decode_pair, hpair]
    · unfold IsHigh
      omega
    · unfold IsLow
      omega

theorem decode_encode (cs : List Char) : decode (encode cs) = some cs := by
  induction cs with
  | nil => rfl
  | cons c cs ih =>
    rw [encode, List.flatMap_cons, decode_encodeChar, ← encode, ih]
    rfl

end Binderd.Lib.Utf16
