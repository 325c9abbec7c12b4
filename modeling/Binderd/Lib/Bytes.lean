import Mathlib.Data.List.Range
import Mathlib.Data.List.GetD
import Mathlib.Tactic.Ring

/-! # Bytes in memory

A memory is a total function from positions to bytes. `load m p w` is the number that the `w` bytes
from `p` on stand for, least significant byte first, `store m p w n` the memory after the `w` low
bytes of `n` have been written there, `copy m p l` the memory after the bytes of `l` have been, and
`slice m p n` the list of the `n` bytes from `p` on.

* `load_store`: a load from where a store went returns what was stored, up to the width;
* `load_store_of_disjoint`, `store_of_not_mem`: a store leaves every other byte alone;
* `SameOutside`: two memories that differ inside a range only;
* `load_congr`, `slice_congr`: a load and a slice depend on their own bytes only;
* `slice_copy`, `copy_copy`, `store_eq_copy`, `store_load_mod`: to write at the end is to append,
  and to mask the high bytes of a number in memory is to write zeros there. -/

namespace Binderd.Lib.Bytes

/-- A memory. -/
abbrev Mem := ℕ → UInt8

/-- The byte of weight `256 ^ k` of `n`. -/
def byteAt (n k : ℕ) : UInt8 := UInt8.ofNat (n / 256 ^ k)

/-- The `w` low bytes of `n`, least significant first. -/
def leBytes (w n : ℕ) : List UInt8 := (List.range w).map (byteAt n)

/-- The memory that holds `l` from position `0` on, and zero bytes after it. -/
def ofList (l : List UInt8) : Mem := fun i => l.getD i 0

/-- The `n` bytes from position `p` on. -/
def slice (m : Mem) (p n : ℕ) : List UInt8 := (List.range n).map fun i => m (p + i)

/-- The number the `w` bytes from `p` on stand for. -/
def load (m : Mem) (p : ℕ) : ℕ → ℕ
  | 0 => 0
  | w + 1 => (m p).toNat + 256 * load m (p + 1) w

/-- The memory after the `w` low bytes of `n` were written from `p` on. -/
def store (m : Mem) (p w n : ℕ) : Mem :=
  fun i => if p ≤ i ∧ i < p + w then byteAt n (i - p) else m i

/-- The memory after the bytes of `l` were written from `p` on. -/
def copy (m : Mem) (p : ℕ) (l : List UInt8) : Mem :=
  fun i => if p ≤ i ∧ i < p + l.length then l.getD (i - p) 0 else m i

theorem byteAt_toNat (n k : ℕ) : (byteAt n k).toNat = n / 256 ^ k % 256 := by
  simp [byteAt]

theorem byteAt_succ (n k : ℕ) : byteAt n (k + 1) = byteAt (n / 256) k := by
  unfold byteAt
  rw [pow_succ', Nat.div_div_eq_div_mul]

@[simp] theorem length_leBytes (w n : ℕ) : (leBytes w n).length = w := by simp [leBytes]

theorem byteAt_mod (n w k : ℕ) : byteAt (n % 256 ^ w) k = if k < w then byteAt n k else 0 := by
  refine UInt8.toNat_inj.mp ?_
  split_ifs with hk
  · rw [byteAt_toNat, byteAt_toNat, show w = k + (w - k - 1 + 1) by omega, pow_add,
      Nat.mod_mul_right_div_self, pow_succ, Nat.mod_mod_of_dvd _ (Dvd.intro_left _ rfl)]
  · have hlt : n % 256 ^ w < 256 ^ w := Nat.mod_lt _ (Nat.pow_pos (by norm_num))
    have hle : 256 ^ w ≤ 256 ^ k := Nat.pow_le_pow_right (by norm_num) (not_lt.mp hk)
    rw [byteAt_toNat, Nat.div_eq_of_lt (lt_of_lt_of_le hlt hle)]
    rfl

theorem leBytes_mod (w n : ℕ) : leBytes w (n % 256 ^ w) = leBytes w n := by
  unfold leBytes
  refine List.map_congr_left fun k hk => ?_
  rw [byteAt_mod, if_pos (List.mem_range.mp hk)]

theorem leBytes_add (w v n : ℕ) : leBytes (w + v) n = leBytes w n ++ leBytes v (n / 256 ^ w) := by
  unfold leBytes byteAt
  rw [List.range_add, List.map_append, List.map_map]
  congr 1
  refine List.map_congr_left fun k _ => ?_
  rw [Function.comp_apply, pow_add, Nat.div_div_eq_div_mul]

@[simp] theorem length_slice (m : Mem) (p n : ℕ) : (slice m p n).length = n := by simp [slice]

/-! ### Loads -/

theorem load_congr {m m' : Mem} : ∀ {w p : ℕ}, (∀ i, p ≤ i → i < p + w → m i = m' i) →
    load m p w = load m' p w
  | 0, _, _ => rfl
  | w + 1, p, h => by
    rw [load, load, h p le_rfl (by omega),
      load_congr (w := w) (p := p + 1) fun i h1 h2 => h i (by omega) (by omega)]

theorem load_lt (m : Mem) : ∀ (w p : ℕ), load m p w < 256 ^ w
  | 0, _ => by simp [load]
  | w + 1, p => by
    have h1 := load_lt m w (p + 1)
    have h2 := (m p).toNat_lt
    rw [load, pow_succ]
    omega

/-- A load tells the bytes. -/
theorem eq_of_load_eq {m m' : Mem} : ∀ {w p : ℕ}, load m p w = load m' p w →
    ∀ i, p ≤ i → i < p + w → m i = m' i
  | 0, _, _, _, _, _ => by omega
  | w + 1, p, h, i, h1, h2 => by
    have hb := (m p).toNat_lt
    have hb' := (m' p).toNat_lt
    rw [load, load] at h
    rcases Nat.eq_or_lt_of_le h1 with rfl | h1
    · exact UInt8.toNat_inj.mp (by omega)
    · exact eq_of_load_eq (w := w) (p := p + 1) (by omega) i (by omega) (by omega)

theorem toNat_of_load_lt {m : Mem} {p w : ℕ} (h : load m p (w + 1) < 256) :
    (m p).toNat = load m p (w + 1) := by
  rw [load] at h ⊢
  omega

theorem load_of_bytes {m : Mem} : ∀ {w p n : ℕ}, (∀ i < w, m (p + i) = byteAt n i) →
    load m p w = n % 256 ^ w
  | 0, _, n, _ => by simp [load, Nat.mod_one]
  | w + 1, p, n, h => by
    have h0 := h 0 (by omega)
    have ih : load m (p + 1) w = n / 256 % 256 ^ w := load_of_bytes fun i hi => by
      rw [show p + 1 + i = p + (i + 1) by omega, h (i + 1) (by omega), byteAt_succ]
    rw [load, ih, show p = p + 0 by omega, h0, byteAt_toNat, pow_zero, Nat.div_one, pow_succ',
      Nat.mod_mul]

/-! ### Stores -/

theorem store_of_not_mem {m : Mem} {p w n i : ℕ} (h : i < p ∨ p + w ≤ i) :
    store m p w n i = m i := by
  unfold store
  rw [if_neg (by omega)]

theorem store_of_mem {m : Mem} {p w n i : ℕ} (h1 : p ≤ i) (h2 : i < p + w) :
    store m p w n i = byteAt n (i - p) := by
  unfold store
  rw [if_pos ⟨h1, h2⟩]

theorem load_store (m : Mem) (p w n : ℕ) : load (store m p w n) p w = n % 256 ^ w :=
  load_of_bytes fun i hi => by
    rw [store_of_mem (by omega) (by omega), Nat.add_sub_cancel_left]

theorem load_store_of_disjoint {m : Mem} {p w n q v : ℕ} (h : q + v ≤ p ∨ p + w ≤ q) :
    load (store m p w n) q v = load m q v :=
  load_congr fun i h1 h2 => store_of_not_mem (by omega)

/-! ### Changes inside a range -/

/-- Outside the `w` bytes from `p` on, `m'` holds what `m` holds. -/
def SameOutside (p w : ℕ) (m m' : Mem) : Prop := ∀ i, i < p ∨ p + w ≤ i → m' i = m i

namespace SameOutside

variable {p w q v : ℕ} {m m' m'' : Mem}

theorem refl (p w : ℕ) (m : Mem) : SameOutside p w m m := fun _ _ => rfl

theorem trans (h : SameOutside p w m m') (h' : SameOutside p w m' m'') : SameOutside p w m m'' :=
  fun i hi => (h' i hi).trans (h i hi)

theorem store (m : Mem) (n : ℕ) (h1 : p ≤ q) (h2 : q + v ≤ p + w) :
    SameOutside p w m (store m q v n) := fun i hi => store_of_not_mem (by omega)

end SameOutside

/-! ### Slices -/

theorem slice_congr {m m' : Mem} {p n : ℕ} (h : ∀ i, p ≤ i → i < p + n → m i = m' i) :
    slice m p n = slice m' p n := by
  unfold slice
  refine List.map_congr_left fun i hi => ?_
  rw [List.mem_range] at hi
  exact h _ (by omega) (by omega)

theorem take_slice {m : Mem} {p n k : ℕ} (h : k ≤ n) : (slice m p n).take k = slice m p k := by
  unfold slice
  rw [← List.map_take, List.take_range, min_eq_left h]

theorem drop_slice (m : Mem) (p n k : ℕ) : (slice m p n).drop k = slice m (p + k) (n - k) :=
  List.ext_getElem (by simp) fun i _ _ => by simp [slice, Nat.add_assoc]

theorem slice_getD {m : Mem} {p n i : ℕ} (h : i < n) : (slice m p n).getD i 0 = m (p + i) := by
  unfold slice
  rw [List.getD_eq_getElem _ _ (by simpa using h)]
  simp

/-- A list is the slice of the memory that holds it, wherever it stands. -/
theorem slice_ofList_append (l b r : List UInt8) :
    slice (ofList (l ++ (b ++ r))) l.length b.length = b := by
  refine List.ext_getElem (by simp) fun i h1 h2 => ?_
  rw [← List.getD_eq_getElem _ 0 h1, slice_getD h2, ← List.getD_eq_getElem _ 0 h2]
  simp [ofList, List.getD_eq_getElem?_getD, List.getElem?_append_right,
    List.getElem?_append_left h2]

/-- A number is what its bytes load to, wherever they stand. -/
theorem load_ofList_append (l r : List UInt8) (w n : ℕ) :
    load (ofList (l ++ (leBytes w n ++ r))) l.length w = n % 256 ^ w :=
  load_of_bytes fun i hi => by
    have hi' : i < (leBytes w n).length := by simpa using hi
    have h := slice_getD (m := ofList (l ++ (leBytes w n ++ r))) (p := l.length) hi'
    rw [slice_ofList_append] at h
    rw [← h, List.getD_eq_getElem _ _ hi']
    simp [leBytes]

theorem load_shift {m m' : Mem} : ∀ {w p q : ℕ}, (∀ i < w, m (p + i) = m' (q + i)) →
    load m p w = load m' q w
  | 0, _, _, _ => rfl
  | w + 1, p, q, h => by
    have ih : load m (p + 1) w = load m' (q + 1) w := load_shift fun i hi => by
      rw [show p + 1 + i = p + (i + 1) by omega, show q + 1 + i = q + (i + 1) by omega,
        h (i + 1) (by omega)]
    rw [load, load, ih, show m p = m' q from h 0 (by omega)]

theorem load_slice {m : Mem} {p n i w : ℕ} (h : i + w ≤ n) :
    load (ofList (slice m p n)) i w = load m (p + i) w :=
  load_shift fun j hj => by
    rw [ofList, slice_getD (by omega), Nat.add_assoc]

/-- Numbers that stand one after the other are what their bytes load to. -/
theorem map_load_flatMap {w : ℕ} (post : List UInt8) (ns : List ℕ) : ∀ pre : List UInt8,
    (∀ n ∈ ns, n < 256 ^ w) → (List.range ns.length).map (fun i =>
      load (ofList (pre ++ (ns.flatMap (leBytes w) ++ post))) (pre.length + w * i) w) = ns := by
  induction ns with
  | nil => exact fun _ _ => rfl
  | cons n ns ih =>
    intro pre h
    have hrest := ih (pre ++ leBytes w n) fun n hn => h n (.tail _ hn)
    rw [List.length_append, length_leBytes, List.append_assoc] at hrest
    rw [List.length_cons, List.range_succ_eq_map, List.map_cons, List.map_map, List.flatMap_cons,
      List.append_assoc]
    refine List.cons_eq_cons.mpr ⟨?_, ?_⟩
    · rw [Nat.mul_zero, Nat.add_zero, load_ofList_append]
      exact Nat.mod_eq_of_lt (h n (.head _))
    · conv_rhs => rw [← hrest]
      refine List.map_congr_left fun i _ => ?_
      rw [Function.comp_apply, Nat.mul_succ, Nat.add_comm (w * i), ← Nat.add_assoc]

/-- The same bytes load the same, wherever they stand. -/
theorem load_of_slice_eq {m m' : Mem} {p q n i w : ℕ} (h : slice m p n = slice m' q n)
    (hi : i + w ≤ n) : load m (p + i) w = load m' (q + i) w := by
  rw [← load_slice hi, h, load_slice hi]

theorem slice_eq_iff {m m' : Mem} {p n : ℕ} :
    slice m p n = slice m' p n ↔ ∀ i < n, m (p + i) = m' (p + i) := by
  constructor
  · intro h i hi
    rw [← slice_getD (m := m) hi, h, slice_getD hi]
  · intro h
    refine slice_congr fun i h1 h2 => ?_
    have := h (i - p) (by omega)
    rwa [Nat.add_sub_cancel' h1] at this

/-! ### Copies -/

/-- A store is a copy of the bytes of the number. -/
theorem store_eq_copy (m : Mem) (p w n : ℕ) : store m p w n = copy m p (leBytes w n) := by
  funext i
  unfold store copy
  rw [length_leBytes]
  split_ifs with hi
  · have hlt : i - p < (leBytes w n).length := by
      rw [length_leBytes]
      omega
    rw [List.getD_eq_getElem _ _ hlt]
    simp [leBytes]
  · rfl

/-- What is copied behind the first `p` bytes is appended to them. -/
theorem slice_copy (m : Mem) (p : ℕ) (l : List UInt8) :
    slice (copy m p l) 0 (p + l.length) = slice m 0 p ++ l := by
  refine List.ext_getElem (by simp) fun i h1 h2 => ?_
  rw [length_slice] at h1
  rw [← List.getD_eq_getElem _ 0, slice_getD h1, Nat.zero_add]
  unfold copy
  by_cases hi : i < p
  · rw [if_neg (by omega), List.getElem_append_left (by simpa using hi),
      ← List.getD_eq_getElem _ 0, slice_getD hi, Nat.zero_add]
  · rw [if_pos (by omega), List.getElem_append_right (by simpa using hi),
      List.getD_eq_getElem _ _ (by omega)]
    simp

/-- Two copies, the second behind the first. -/
theorem copy_copy (m : Mem) (p : ℕ) (l l' : List UInt8) :
    copy (copy m p l) (p + l.length) l' = copy m p (l ++ l') := by
  funext i
  unfold copy
  rw [List.length_append]
  by_cases hi : i < p + l.length
  · rw [if_neg (by omega)]
    by_cases hp : p ≤ i
    · rw [if_pos ⟨hp, hi⟩, if_pos (by omega), List.getD_append _ _ _ _ (by omega)]
    · rw [if_neg (by omega), if_neg (by omega)]
  · rw [if_neg fun h : p ≤ i ∧ i < p + l.length => hi h.2]
    by_cases hl : i < p + l.length + l'.length
    · rw [if_pos (by omega), if_pos (by omega), List.getD_append_right _ _ _ _ (by omega),
        show i - p - l.length = i - (p + l.length) by omega]
    · rw [if_neg (by omega), if_neg (by omega)]

theorem byteAt_load {m : Mem} : ∀ {w p i : ℕ}, i < w → byteAt (load m p w) i = m (p + i)
  | 0, _, _, h => by omega
  | w + 1, p, 0, _ => by
    have hlt := (m p).toNat_lt
    refine UInt8.toNat_inj.mp ?_
    rw [byteAt_toNat, load, pow_zero, Nat.div_one, show p + 0 = p from rfl]
    omega
  | w + 1, p, i + 1, h => by
    have hlt := (m p).toNat_lt
    have hdiv : load m p (w + 1) / 256 = load m (p + 1) w := by
      rw [load]
      omega
    rw [byteAt_succ, hdiv, byteAt_load (by omega), Nat.add_assoc, Nat.add_comm 1 i]

/-- To clear the high bytes of a number in memory is to write zeros there. -/
theorem store_load_mod {m : Mem} {p w k : ℕ} (hk : k ≤ w) :
    store m p w (load m p w % 256 ^ k) = copy m (p + k) (List.replicate (w - k) 0) := by
  funext i
  unfold store copy
  rw [List.length_replicate]
  by_cases hi : p ≤ i ∧ i < p + w
  · rw [if_pos hi, byteAt_mod]
    by_cases hlow : i - p < k
    · rw [if_pos hlow, if_neg (by omega), byteAt_load (by omega), Nat.add_sub_cancel' hi.1]
    · rw [if_neg hlow, if_pos (by omega), List.getD_replicate (h := by omega)]
  · rw [if_neg hi, if_neg (by omega)]

end Binderd.Lib.Bytes
