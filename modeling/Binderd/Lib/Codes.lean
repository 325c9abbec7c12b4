import Mathlib.Data.List.Basic
import Mathlib.Data.List.Infix

/-! # Self-delimiting codes

A code maps words to strings. On a set of words on which no string is the beginning of another
(`PrefixFreeOn`), a concatenation of strings splits in one way only: if the strings of a list of
words are the beginning of the strings of another, then the words are (`PrefixFreeOn.split`). -/

namespace Binderd.Lib.Codes

variable {α β : Type} {code : β → List α} {P : β → Prop}

/-- A string that was cut in two, in front of another. -/
@[simp] theorem take_append_drop_append (n : ℕ) (l r : List α) :
    l.take n ++ (l.drop n ++ r) = l ++ r := by
  rw [← List.append_assoc, List.take_append_drop]

/-- The string of a word with `P` can be split off the front in one way. -/
structure PrefixFreeOn (code : β → List α) (P : β → Prop) : Prop where
  nonempty : ∀ b, P b → code b ≠ []
  inj : ∀ a b x y, P a → P b → code a ++ x = code b ++ y → a = b

theorem PrefixFreeOn.split (hc : PrefixFreeOn code P) : ∀ {as bs : List β} {rest : List α},
    (∀ a ∈ as, P a) → (∀ b ∈ bs, P b) → as.flatMap code ++ rest = bs.flatMap code →
    ∃ bs', bs = as ++ bs' ∧ rest = bs'.flatMap code
  | [], bs, rest, _, _, h => ⟨bs, rfl, by simpa using h⟩
  | a :: as, [], rest, ha, _, h => by
    simp only [List.flatMap_cons, List.flatMap_nil, List.append_eq_nil_iff] at h
    exact absurd h.1.1 (hc.nonempty a (ha a (by simp)))
  | a :: as, b :: bs, rest, ha, hb, h => by
    simp only [List.flatMap_cons, List.append_assoc] at h
    have hab := hc.inj a b _ _ (ha a (by simp)) (hb b (by simp)) h
    subst hab
    obtain ⟨bs', rfl, hrest⟩ := hc.split (fun x hx => ha x (by simp [hx]))
      (fun x hx => hb x (by simp [hx])) (List.append_cancel_left h)
    exact ⟨bs', rfl, hrest⟩

end Binderd.Lib.Codes
