import Mathlib.Data.List.AList

/-! # Hash tables whose insertion never overwrites

A table is an association list without repeated keys (Mathlib's `AList`). Insertion follows the
convention of an associative container whose `insert` keeps the entry that is already there
(`insertNew`): an entry, once made, is changed by an erasure only (`lookup_insertNew_of_some`).

`keyOf` searches a table for a value, in the order of its entries. In a table that is `Injective`
the result does not depend on that order (`keyOf_perm`). -/

namespace Binderd.Lib.Tables

variable {α β : Type} [DecidableEq α]

/-- A finite table from `α` to `β`. -/
abbrev Table (α β : Type) := AList fun _ : α => β

/-- Insertion of an entry, which leaves a present one alone. -/
def insertNew (t : Table α β) (k : α) (v : β) : Table α β := if k ∈ t then t else t.insert k v

theorem lookup_insertNew (t : Table α β) (k k' : α) (v : β) :
    (insertNew t k v).lookup k' = if k' = k ∧ k ∉ t then some v else t.lookup k' := by
  unfold insertNew
  by_cases hk : k ∈ t
  · simp [hk]
  · rw [if_neg hk]
    by_cases he : k' = k
    · subst he
      simp [hk]
    · rw [if_neg fun h => he h.1, AList.lookup_insert_ne he]

theorem mem_insertNew (t : Table α β) (k k' : α) (v : β) :
    k' ∈ insertNew t k v ↔ k' = k ∨ k' ∈ t := by
  unfold insertNew
  split_ifs with hk
  · exact ⟨Or.inr, fun h => h.elim (fun he => he ▸ hk) id⟩
  · exact AList.mem_insert t

theorem lookup_insertNew_of_some {t : Table α β} {k k' : α} {v w : β}
    (h : t.lookup k' = some w) : (insertNew t k v).lookup k' = some w := by
  rw [lookup_insertNew, if_neg, h]
  rintro ⟨rfl, hk⟩
  rw [AList.lookup_eq_none.mpr hk] at h
  cases h

theorem lookup_insertNew_self {t : Table α β} {k : α} {v : β} (h : k ∉ t) :
    (insertNew t k v).lookup k = some v := by
  rw [lookup_insertNew, if_pos ⟨rfl, h⟩]

theorem lookup_insertNew_of_ne {t : Table α β} {k k' : α} {v : β} (h : k' ≠ k) :
    (insertNew t k v).lookup k' = t.lookup k' := by
  rw [lookup_insertNew, if_neg fun he => h he.1]

theorem mem_of_lookup {t : Table α β} {k : α} {v : β} (h : t.lookup k = some v) : k ∈ t := by
  rw [← AList.lookup_isSome, h]
  rfl

theorem exists_lookup_of_mem {t : Table α β} {k : α} (h : k ∈ t) : ∃ v, t.lookup k = some v :=
  Option.isSome_iff_exists.mp (AList.lookup_isSome.mpr h)

theorem erase_of_notMem {t : Table α β} {k : α} (h : k ∉ t) : t.erase k = t :=
  AList.ext (List.kerase_of_notMem_keys (mt AList.mem_keys.mpr h))

omit [DecidableEq α] in
theorem eq_empty_of_notMem {t : Table α β} (h : ∀ k, k ∉ t) : t = ∅ := by
  apply AList.ext
  refine List.eq_nil_iff_forall_not_mem.mpr fun x hx => ?_
  exact h x.1 (AList.mem_keys.mpr (List.mem_map_of_mem hx))

theorem lookup_erase_eq_some {t : Table α β} {k k' : α} {v : β} :
    (t.erase k).lookup k' = some v ↔ k' ≠ k ∧ t.lookup k' = some v := by
  by_cases h : k' = k
  · subst h
    simp
  · simp [AList.lookup_erase_ne h, h]

/-- A property of all entries of a table can be checked. -/
instance decidableForallLookup (t : Table α β) (P : α → β → Prop) [∀ k v, Decidable (P k v)] :
    Decidable (∀ k v, t.lookup k = some v → P k v) :=
  decidable_of_iff (∀ x ∈ t.entries, P x.1 x.2)
    ⟨fun h k v hk => h ⟨k, v⟩ (AList.mem_lookup_iff.mp hk),
      fun h x hx => h x.1 x.2 (AList.mem_lookup_iff.mpr hx)⟩

/-! ### Searching for a value -/

/-- No value stands under two keys. -/
def Injective (t : Table α β) : Prop :=
  ∀ k k' v, t.lookup k = some v → t.lookup k' = some v → k = k'

theorem injective_insertNew {t : Table α β} {v : β} (ht : Injective t)
    (hv : ∀ k, t.lookup k ≠ some v) (k : α) : Injective (insertNew t k v) := by
  intro k₁ k₂ w h1 h2
  rw [lookup_insertNew] at h1 h2
  split_ifs at h1 h2 with c1 c2 c2
  · exact c1.1.trans c2.1.symm
  · cases h1
    exact absurd h2 (hv k₂)
  · cases h2
    exact absurd h1 (hv k₁)
  · exact ht k₁ k₂ w h1 h2

section KeyOf

variable [DecidableEq β]

/-- The first key under which the value stands. -/
def keyOf (t : Table α β) (v : β) : Option α := (t.entries.find? fun e => e.2 = v).map (·.1)

variable {t t' : Table α β} {k : α} {v : β}

theorem lookup_keyOf (h : keyOf t v = some k) : t.lookup k = some v := by
  obtain ⟨e, he, rfl⟩ := Option.map_eq_some_iff.mp h
  have hv : e.2 = v := by simpa using List.find?_some he
  rw [← hv]
  exact AList.mem_lookup_iff.mpr (List.mem_of_find?_eq_some he)

theorem keyOf_eq_none_iff : keyOf t v = none ↔ ∀ k, t.lookup k ≠ some v := by
  rw [keyOf, Option.map_eq_none_iff, List.find?_eq_none]
  constructor
  · intro h k hk
    exact h ⟨k, v⟩ (AList.mem_lookup_iff.mp hk) (by simp)
  · intro h e he hv
    have hv : e.2 = v := by simpa using hv
    exact h e.1 (hv ▸ AList.mem_lookup_iff.mpr he)

theorem keyOf_eq_some_iff (ht : Injective t) : keyOf t v = some k ↔ t.lookup k = some v := by
  refine ⟨lookup_keyOf, fun h => ?_⟩
  cases hk : keyOf t v with
  | none => exact absurd h (keyOf_eq_none_iff.mp hk k)
  | some k' => rw [ht k' k v (lookup_keyOf hk) h]

/-- **The order of the entries plays no part**, if the table is injective. -/
theorem keyOf_perm (ht : Injective t) (hp : t'.entries.Perm t.entries) (v : β) :
    keyOf t' v = keyOf t v := by
  have hl : ∀ k, t'.lookup k = t.lookup k := fun k => AList.perm_lookup hp
  have ht' : Injective t' := fun k k' w h h' => ht k k' w (hl k ▸ h) (hl k' ▸ h')
  ext k
  rw [keyOf_eq_some_iff ht', keyOf_eq_some_iff ht, hl]

end KeyOf

end Binderd.Lib.Tables
