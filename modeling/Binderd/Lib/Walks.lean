import Binderd.Lib.Bytes

/-! # Walks over records in memory

A walk goes through a list of positions and does a step at each. A step works on a state and on the
memory, and may fail, which ends the walk. `walkArray` takes the positions from an array in the same
memory: every eighth byte of it is an offset, and is read when its turn comes.

A step is *local* if it changes the memory inside the record at its position only.

* `visits_split`: a walk arrives at a position when it got past all before it;
* `walk_frame`: bytes outside the records are left alone, and so is a record that overlaps none of
  the others until its turn comes (`visit_sameAt`);
* `walkArray_eq`: if the records the walk comes to do not touch the array, it is the walk over the
  positions that the array holds to begin with. -/

namespace Binderd.Lib.Walks

open Binderd.Lib.Bytes

variable {σ ε : Type}

/-- What is done at a position. -/
abbrev Step (σ ε : Type) := ℕ → σ → Mem → Except ε (σ × Mem)

/-- The walk over a list of positions: the failure that ended it, if there was one, and the state
and the memory it leaves. -/
def walk (step : Step σ ε) : List ℕ → σ → Mem → Option ε × σ × Mem
  | [], s, m => (none, s, m)
  | p :: ps, s, m =>
    match step p s m with
    | .error e => (some e, s, m)
    | .ok (s, m) => walk step ps s m

/-- The walk over the `n` offsets from `current` on. -/
def walkArray (step : Step σ ε) (base : ℕ) : ℕ → ℕ → σ → Mem → Option ε × σ × Mem
  | 0, _, s, m => (none, s, m)
  | n + 1, current, s, m =>
    match step (base + (m current).toNat) s m with
    | .error e => (some e, s, m)
    | .ok (s, m) => walkArray step base n (current + 8) s m

/-- A position a walk comes to, with the state and the memory it finds there. -/
structure Visit (σ : Type) where
  position : ℕ
  state : σ
  mem : Mem

/-- The positions that the walk over a list comes to. -/
def visits (step : Step σ ε) : List ℕ → σ → Mem → List (Visit σ)
  | [], _, _ => []
  | p :: ps, s, m => ⟨p, s, m⟩ ::
    match step p s m with
    | .error _ => []
    | .ok (s, m) => visits step ps s m

/-- The positions that the walk over an array comes to. -/
def visitsArray (step : Step σ ε) (base : ℕ) : ℕ → ℕ → σ → Mem → List (Visit σ)
  | 0, _, _, _ => []
  | n + 1, current, s, m => ⟨base + (m current).toNat, s, m⟩ ::
    match step (base + (m current).toNat) s m with
    | .error _ => []
    | .ok (s, m) => visitsArray step base n (current + 8) s m

/-- The positions that the array holds. -/
def positions (m : Mem) (base n current : ℕ) : List ℕ :=
  (List.range n).map fun i => base + (m (current + 8 * i)).toNat

/-- The step changes nothing outside the `w` bytes of its record. -/
def Local (step : Step σ ε) (w : ℕ) : Prop :=
  ∀ p s m s' m', step p s m = .ok (s', m') → SameOutside p w m m'

/-- Records of `w` bytes at these positions do not overlap. -/
def Separate (w : ℕ) (ps : List ℕ) : Prop := ps.Pairwise fun p q => p + w ≤ q ∨ q + w ≤ p

instance (w : ℕ) (ps : List ℕ) : Decidable (Separate w ps) := by unfold Separate; infer_instance

theorem Separate.head {w p : ℕ} {ps : List ℕ} (h : Separate w (p :: ps)) :
    ∀ q ∈ ps, q + w ≤ p ∨ p + w ≤ q := fun q hq => ((List.pairwise_cons.mp h).1 q hq).symm

theorem Separate.tail {w p : ℕ} {ps : List ℕ} (h : Separate w (p :: ps)) : Separate w ps :=
  (List.pairwise_cons.mp h).2

/-! ### Walks over a list -/

section List

variable {step : Step σ ε} {w : ℕ}

theorem visits_split {ps : List ℕ} {s : σ} {m : Mem} {v : Visit σ} (hv : v ∈ visits step ps s m) :
    ∃ ps₁ ps₂, ps = ps₁ ++ v.position :: ps₂ ∧ walk step ps₁ s m = (none, v.state, v.mem) := by
  induction ps generalizing s m with
  | nil => cases hv
  | cons p ps ih =>
    rw [visits] at hv
    rcases List.mem_cons.mp hv with rfl | hv
    · exact ⟨[], ps, rfl, rfl⟩
    · cases hs : step p s m with
      | error e =>
        rw [hs] at hv
        cases hv
      | ok r =>
        rw [hs] at hv
        obtain ⟨ps₁, ps₂, rfl, hw⟩ := ih hv
        refine ⟨p :: ps₁, ps₂, rfl, ?_⟩
        rw [walk, hs]
        exact hw

theorem mem_of_visits {ps : List ℕ} {s : σ} {m : Mem} {v : Visit σ}
    (hv : v ∈ visits step ps s m) : v.position ∈ ps := by
  obtain ⟨ps₁, ps₂, rfl, -⟩ := visits_split hv
  simp

/-- A walk that does not fail comes to every position. -/
theorem map_position_visits {ps : List ℕ} {s : σ} {m : Mem} (h : (walk step ps s m).1 = none) :
    (visits step ps s m).map (·.position) = ps := by
  induction ps generalizing s m with
  | nil => rfl
  | cons p ps ih =>
    rw [walk] at h
    rw [visits]
    cases hs : step p s m with
    | error e =>
      rw [hs] at h
      cases h
    | ok r =>
      rw [hs] at h
      rw [List.map_cons, ih h]

/-- Bytes outside the records that the walk comes to are left alone. -/
theorem walk_frame_visits (hl : Local step w) {ps : List ℕ} {i : ℕ} {s : σ} {m : Mem}
    (h : ∀ v ∈ visits step ps s m, i < v.position ∨ v.position + w ≤ i) :
    (walk step ps s m).2.2 i = m i := by
  induction ps generalizing s m with
  | nil => rfl
  | cons p ps ih =>
    rw [visits] at h
    rw [walk]
    cases hs : step p s m with
    | error e => rfl
    | ok r =>
      obtain ⟨s', m'⟩ := r
      rw [hs] at h
      simp only
      rw [ih fun v hv => h v (List.mem_cons_of_mem _ hv)]
      exact hl _ _ _ _ _ hs i (h ⟨p, s, m⟩ List.mem_cons_self)

theorem walk_frame (hl : Local step w) {ps : List ℕ} {i : ℕ} (h : ∀ p ∈ ps, i < p ∨ p + w ≤ i)
    (s : σ) (m : Mem) : (walk step ps s m).2.2 i = m i :=
  walk_frame_visits hl fun _ hv => h _ (mem_of_visits hv)

/-- A record that overlaps none of those that the walk comes to is left alone. -/
theorem walk_sameAt (hl : Local step w) {ps : List ℕ} {q : ℕ}
    (hq : ∀ p ∈ ps, q + w ≤ p ∨ p + w ≤ q) (s : σ) (m : Mem) :
    ∀ i, q ≤ i → i < q + w → (walk step ps s m).2.2 i = m i := by
  intro i h1 h2
  refine walk_frame hl (fun p hp => ?_) s m
  have := hq p hp
  omega

theorem visit_sameAt (hl : Local step w) {ps : List ℕ} (hap : Separate w ps) {s : σ} {m : Mem}
    {v : Visit σ} (hv : v ∈ visits step ps s m) :
    ∀ i, v.position ≤ i → i < v.position + w → v.mem i = m i := by
  intro i h1 h2
  obtain ⟨ps₁, ps₂, rfl, hw⟩ := visits_split hv
  have hframe : (walk step ps₁ s m).2.2 i = m i := walk_frame hl (fun q hq => by
    have := (List.pairwise_append.mp hap).2.2 q hq v.position (by simp)
    omega) s m
  rwa [hw] at hframe

theorem exists_failed {ps : List ℕ} {s : σ} {m : Mem} {e : ε}
    (h : (walk step ps s m).1 = some e) :
    ∃ v ∈ visits step ps s m, step v.position v.state v.mem = .error e := by
  induction ps generalizing s m with
  | nil => cases h
  | cons p ps ih =>
    rw [walk] at h
    rw [visits]
    cases hs : step p s m with
    | error e' =>
      rw [hs] at h
      cases h
      exact ⟨_, List.mem_cons_self, hs⟩
    | ok r =>
      rw [hs] at h
      obtain ⟨v, hv, he⟩ := ih h
      exact ⟨v, List.mem_cons_of_mem _ hv, he⟩

end List

/-! ### Walks over an array -/

theorem positions_succ {m m' : Mem} {base n current : ℕ}
    (h : ∀ i < n, m' (current + 8 + 8 * i) = m (current + 8 * (i + 1))) :
    positions m base (n + 1) current =
      (base + (m current).toNat) :: positions m' base n (current + 8) := by
  unfold positions
  rw [List.range_succ_eq_map, List.map_cons, List.map_map]
  congr 1
  refine List.map_congr_left fun i hi => ?_
  rw [h i (List.mem_range.mp hi)]
  rfl

theorem positions_cons (m : Mem) (base n current : ℕ) : positions m base (n + 1) current =
    (base + (m current).toNat) :: positions m base n (current + 8) :=
  positions_succ fun i _ => by rw [show current + 8 + 8 * i = current + 8 * (i + 1) by omega]

theorem mem_positions {m : Mem} {base n current p : ℕ} (h : p ∈ positions m base n current) :
    base ≤ p := by
  obtain ⟨i, -, rfl⟩ := List.mem_map.mp h
  exact Nat.le_add_right _ _

/-- A walk over an array comes to positions that one byte names. -/
theorem position_of_visitsArray {step : Step σ ε} {base : ℕ} {v : Visit σ} :
    ∀ {n current : ℕ} {s : σ} {m : Mem}, v ∈ visitsArray step base n current s m →
      ∃ b : UInt8, v.position = base + b.toNat
  | 0, _, _, _, h => by cases h
  | n + 1, current, s, m, h => by
    rw [visitsArray] at h
    rcases List.mem_cons.mp h with rfl | h
    · exact ⟨m current, rfl⟩
    · cases hs : step (base + (m current).toNat) s m with
      | error e =>
        rw [hs] at h
        cases h
      | ok r =>
        rw [hs] at h
        exact position_of_visitsArray h

/-- All records of an array lie at the base or behind it, and what is before is left alone. -/
theorem walkArray_below {step : Step σ ε} {w base i : ℕ} (hl : Local step w) (hi : i < base) :
    ∀ {n current : ℕ} {s : σ} {m : Mem}, (walkArray step base n current s m).2.2 i = m i
  | 0, _, _, _ => rfl
  | n + 1, current, s, m => by
    rw [walkArray]
    cases hs : step (base + (m current).toNat) s m with
    | error e => rfl
    | ok r =>
      exact (walkArray_below hl hi).trans (hl _ _ _ _ _ hs i (.inl (by omega)))

/-- The record of the visit lies inside the `size` bytes from `a` on. -/
def Visit.Inside (v : Visit σ) (w a size : ℕ) : Prop := a ≤ v.position ∧ v.position + w ≤ a + size

/-- **A walk over an array outside the records it comes to** is the walk over the positions that the
array holds to begin with. It does not matter of which of the two walks one knows that the records
lie inside a range that the array is outside of. -/
theorem walkArray_eq {step : Step σ ε} {w a size base : ℕ} (hl : Local step w) :
    ∀ {n current : ℕ} {s : σ} {m : Mem},
    (∀ i < n, current + 8 * i < a ∨ a + size ≤ current + 8 * i) →
    ((∀ v ∈ visits step (positions m base n current) s m, v.Inside w a size) ∨
      ∀ v ∈ visitsArray step base n current s m, v.Inside w a size) →
    visitsArray step base n current s m = visits step (positions m base n current) s m ∧
      walkArray step base n current s m = walk step (positions m base n current) s m
  | 0, _, _, _, _, _ => ⟨rfl, rfl⟩
  | n + 1, current, s, m, hcur, hin => by
    have hhead : Visit.Inside ⟨base + (m current).toNat, s, m⟩ w a size := by
      rcases hin with hin | hin
      · exact hin _ (by rw [positions_cons, visits]; exact List.mem_cons_self)
      · exact hin _ (by rw [visitsArray]; exact List.mem_cons_self)
    rw [visitsArray, walkArray]
    cases hs : step (base + (m current).toNat) s m with
    | error e =>
      rw [positions_cons, visits, walk]
      simp only [hs, and_self]
    | ok r =>
      obtain ⟨s', m'⟩ := r
      -- the array is still what it was
      have hpos' : positions m base (n + 1) current =
          (base + (m current).toNat) :: positions m' base n (current + 8) := by
        refine positions_succ fun i hi => ?_
        rw [show current + 8 + 8 * i = current + 8 * (i + 1) by omega]
        have h1 := hcur (i + 1) (by omega)
        have h2 : a ≤ base + (m current).toNat := hhead.1
        have h3 : base + (m current).toNat + w ≤ a + size := hhead.2
        exact hl _ _ _ _ _ hs _ (by omega)
      have hcur' : ∀ i < n, current + 8 + 8 * i < a ∨ a + size ≤ current + 8 + 8 * i := by
        intro i hi
        have := hcur (i + 1) (by omega)
        omega
      have hin' : (∀ v ∈ visits step (positions m' base n (current + 8)) s' m',
          v.Inside w a size) ∨
          ∀ v ∈ visitsArray step base n (current + 8) s' m', v.Inside w a size := by
        refine hin.imp (fun hin v hv => hin v ?_) (fun hin v hv => hin v ?_)
        · rw [hpos', visits, hs]
          exact List.mem_cons_of_mem _ hv
        · rw [visitsArray, hs]
          exact List.mem_cons_of_mem _ hv
      have hrest := walkArray_eq hl hcur' hin'
      rw [hpos', visits, walk]
      simp only [hs]
      exact ⟨by rw [hrest.1], hrest.2⟩

end Binderd.Lib.Walks
