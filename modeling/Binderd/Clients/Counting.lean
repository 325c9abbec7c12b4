import Binderd.Clients.Handlers
import Binderd.Lib.Runs

/-! # The counts of an object pool

Objects enter an `ObjectPool` with a count of zero, by `New` or `AdoptObject`; `AddRef` adds one,
`Release` takes one away and removes the object when nothing is left. The count is unsigned and
`Release` subtracts before it looks, so that from zero it goes to `2 ^ 32 - 1`.

* `countOf_step`: an operation does to the count of an object what `nextCount` says, whatever else
  is in the pool;
* `countsLawfully_iff`: the counts are the numbers of `AddRef` less the numbers of `Release`, and
  the objects go when they should, in exactly the runs whose operations stay in the range. -/

namespace Binderd.Clients.Counting

open Binderd.Lib.Runs Binderd.Lib.Tables Binderd.Wire.Streams Binderd.Clients.Handlers

/-- The calls of the pool. -/
inductive Operation where
  /-- `New`; the object is allocated at the address `obj`. -/
  | new (obj : ℕ)
  | adoptObject (obj : ℕ)
  | addRef (cookie : ℕ)
  | release (cookie : ℕ)
deriving DecidableEq

/-- A call that throws is over, with the pool as it was. -/
def attempt (pool : ObjectPool) : Except Exn ObjectPool → ObjectPool × List Exn
  | .ok pool' => (pool', [])
  | .error e => (pool, [e])

/-- The pool keeps the objects that it tracks alive, so that no other object is allocated at the
address of one of them. -/
def step (pool : ObjectPool) : Operation → Option (ObjectPool × List Exn)
  | .new obj => if pool.contains obj then none else some (pool.new obj, [])
  | .adoptObject obj => some (attempt pool (pool.adoptObject obj))
  | .addRef cookie => some (attempt pool (pool.addRef cookie))
  | .release cookie => some (attempt pool (pool.release cookie))

/-- **The pool**, which emits the exceptions. -/
def objectPool : Machine ObjectPool Operation Exn := ⟨{}, step⟩

/-- The calls of the pool, as its histories record them. -/
abbrev PoolTransition := Transition ObjectPool Operation Exn

/-- The count that is stored for an object, none if it is not tracked. -/
def countOf (pool : ObjectPool) (cookie : ℕ) : Option ℕ :=
  (pool.references.lookup cookie).map (·.count)

/-! ### What has been done to an object -/

/-- The numbers of `AddRef` and `Release` operations on an object. -/
structure Tally where
  addRefs : ℕ := 0
  releases : ℕ := 0
deriving DecidableEq

/-- It begins anew when the object is added. -/
def Tally.next (cookie : ℕ) (t : Tally) (e : PoolTransition) : Tally :=
  match e.action with
  | .new obj | .adoptObject obj =>
    if obj = cookie ∧ countOf e.before cookie = none then {} else t
  | .addRef obj => if obj = cookie then { t with addRefs := t.addRefs + 1 } else t
  | .release obj => if obj = cookie then { t with releases := t.releases + 1 } else t

/-- The operations on an object since it was added. -/
def tally (cookie : ℕ) (h : List PoolTransition) : Tally := h.foldl (Tally.next cookie) {}

/-- The stored counts are what the operations say. -/
def Counted (h : List PoolTransition) (pool : ObjectPool) : Prop :=
  ∀ cookie n, countOf pool cookie = some n →
    n + (tally cookie h).releases = (tally cookie h).addRefs

/-- Objects are removed by the `Release` that takes the count from one to zero, and by nothing else;
and a `Release` at zero does not leave a positive count. -/
structure Lawful (e : PoolTransition) : Prop where
  removed : ∀ cookie, countOf e.before cookie ≠ none ∧ countOf e.after cookie = none ↔
    e.action = .release cookie ∧ countOf e.before cookie = some 1
  zero : ∀ cookie, e.action = .release cookie → countOf e.before cookie = some 0 →
    ∀ n, countOf e.after cookie = some n → n = 0

/-- No `Release` at zero and no `AddRef` at the largest `uint32_t`. -/
structure InRange (e : PoolTransition) : Prop where
  addRef : ∀ cookie, e.action = .addRef cookie → countOf e.before cookie ≠ some (2 ^ 32 - 1)
  release : ∀ cookie, e.action = .release cookie → countOf e.before cookie ≠ some 0

/-! ### What an operation does to a count -/

/-- What an operation does to the count of an object. -/
def nextCount (cookie : ℕ) : Operation → Option ℕ → Option ℕ
  | .new obj, none | .adoptObject obj, none => if obj = cookie then some 0 else none
  | .addRef obj, some n => some (if obj = cookie then (n + 1) % 2 ^ 32 else n)
  | .release obj, some n =>
    if obj = cookie then
      if (n + (2 ^ 32 - 1)) % 2 ^ 32 = 0 then none else some ((n + (2 ^ 32 - 1)) % 2 ^ 32)
    else some n
  | _, count => count

section Calls

variable {pool : ObjectPool} {obj cookie : ℕ}

theorem contains_eq_false_iff : pool.contains obj = false ↔ countOf pool obj = none := by
  unfold ObjectPool.contains countOf
  rw [Option.isSome_eq_false_iff, Option.isNone_iff_eq_none, Option.map_eq_none_iff]

theorem countOf_new (hobj : countOf pool obj = none) :
    countOf (pool.new obj) cookie = if obj = cookie then some 0 else countOf pool cookie := by
  have hnot : obj ∉ pool.references :=
    AList.lookup_eq_none.mp (Option.map_eq_none_iff.mp hobj)
  simp only [countOf, ObjectPool.new, lookup_insertNew]
  by_cases hc : obj = cookie
  · rw [if_pos ⟨hc.symm, hnot⟩, if_pos hc]
    rfl
  · rw [if_neg fun h => hc h.1.symm, if_neg hc]

theorem adoptObject_eq (pool : ObjectPool) (obj : ℕ) :
    attempt pool (pool.adoptObject obj) =
      if countOf pool obj = none then (pool.new obj, []) else (pool, [.other]) := by
  unfold ObjectPool.adoptObject
  by_cases hobj : countOf pool obj = none
  · rw [if_pos hobj, if_neg (by rw [contains_eq_false_iff.mpr hobj]; decide)]
    rfl
  · rw [if_neg hobj, if_pos (by simpa using mt contains_eq_false_iff.mp hobj)]
    rfl

theorem attempt_of_none (h : countOf pool obj = none) :
    attempt pool (pool.addRef obj) = (pool, [.other]) ∧
      attempt pool (pool.release obj) = (pool, [.other]) := by
  have hl : pool.references.lookup obj = none := Option.map_eq_none_iff.mp h
  constructor
  · simp only [ObjectPool.addRef, hl, attempt]
  · simp only [ObjectPool.release, hl, attempt]

theorem countOf_addRef {n : ℕ} (h : countOf pool obj = some n) :
    countOf (attempt pool (pool.addRef obj)).1 cookie =
      if obj = cookie then some ((n + 1) % 2 ^ 32) else countOf pool cookie := by
  obtain ⟨ref, hl, rfl⟩ := Option.map_eq_some_iff.mp h
  simp only [ObjectPool.addRef, hl, attempt, countOf]
  by_cases hc : obj = cookie
  · rw [if_pos hc, ← hc, AList.lookup_insert]
    rfl
  · rw [if_neg hc, AList.lookup_insert_ne fun h => hc h.symm]

theorem countOf_release {n : ℕ} (h : countOf pool obj = some n) :
    countOf (attempt pool (pool.release obj)).1 cookie =
      if obj = cookie then
        if (n + (2 ^ 32 - 1)) % 2 ^ 32 = 0 then none else some ((n + (2 ^ 32 - 1)) % 2 ^ 32)
      else countOf pool cookie := by
  obtain ⟨ref, hl, rfl⟩ := Option.map_eq_some_iff.mp h
  simp only [ObjectPool.release, hl]
  split_ifs with h0 hc hc
  · rw [← hc]
    simp [attempt, countOf]
  · simp only [attempt, countOf]
    rw [AList.lookup_erase_ne fun h => hc h.symm]
  · rw [← hc]
    simp [attempt, countOf]
  · simp only [attempt, countOf]
    rw [AList.lookup_insert_ne fun h => hc h.symm]

theorem nextCount_of_none (h : countOf pool obj = none) :
    nextCount cookie (.addRef obj) (countOf pool cookie) = countOf pool cookie ∧
      nextCount cookie (.release obj) (countOf pool cookie) = countOf pool cookie := by
  rcases hc : countOf pool cookie with _ | n
  · exact ⟨rfl, rfl⟩
  · have hne : obj ≠ cookie := fun he => by simp [← he, h] at hc
    simp only [nextCount, if_neg hne, and_self]

theorem nextCount_new (h : countOf pool obj = none) :
    nextCount cookie (.new obj) (countOf pool cookie) =
      if obj = cookie then some 0 else countOf pool cookie := by
  rcases hc : countOf pool cookie with _ | n
  · rfl
  · have hne : obj ≠ cookie := fun he => by simp [← he, h] at hc
    simp only [nextCount, if_neg hne]

theorem nextCount_adoptObject (h : countOf pool obj ≠ none) :
    nextCount cookie (.adoptObject obj) (countOf pool cookie) = countOf pool cookie := by
  rcases hc : countOf pool cookie with _ | n
  · have hne : obj ≠ cookie := fun he => h (he ▸ hc)
    simp only [nextCount, if_neg hne]
  · rfl

end Calls

/-- **What an operation does.** -/
theorem countOf_step {e : PoolTransition} (hv : e.Valid objectPool) (cookie : ℕ) :
    countOf e.after cookie = nextCount cookie e.action (countOf e.before cookie) := by
  obtain ⟨pool, op, out, pool'⟩ := e
  have hstep : step pool op = some (pool', out) := hv
  cases op with
  | new obj =>
    simp only [step] at hstep
    split_ifs at hstep with hin
    cases hstep
    have hobj : countOf pool obj = none := contains_eq_false_iff.mp (by simpa using hin)
    rw [countOf_new hobj, nextCount_new hobj]
  | adoptObject obj =>
    simp only [step, adoptObject_eq] at hstep
    split_ifs at hstep with hobj
    · cases hstep
      have hnew : nextCount cookie (.adoptObject obj) (countOf pool cookie) =
          nextCount cookie (.new obj) (countOf pool cookie) := by
        rcases countOf pool cookie with _ | n
        · rfl
        · rfl
      rw [countOf_new hobj, hnew, nextCount_new hobj]
    · cases hstep
      exact (nextCount_adoptObject hobj).symm
  | addRef obj =>
    simp only [step, Option.some.injEq] at hstep
    have hpool : pool' = (attempt pool (pool.addRef obj)).1 := by rw [hstep]
    rw [hpool]
    rcases hobj : countOf pool obj with _ | n
    · rw [(attempt_of_none hobj).1]
      exact (nextCount_of_none hobj).1.symm
    · rw [countOf_addRef hobj]
      by_cases hc : obj = cookie
      · rw [if_pos hc, ← hc, hobj]
        simp only [nextCount, if_true]
      · rw [if_neg hc]
        rcases countOf pool cookie with _ | m
        · rfl
        · simp only [nextCount, if_neg hc]
  | release obj =>
    simp only [step, Option.some.injEq] at hstep
    have hpool : pool' = (attempt pool (pool.release obj)).1 := by rw [hstep]
    rw [hpool]
    rcases hobj : countOf pool obj with _ | n
    · rw [(attempt_of_none hobj).2]
      exact (nextCount_of_none hobj).2.symm
    · rw [countOf_release hobj]
      by_cases hc : obj = cookie
      · rw [if_pos hc, ← hc, hobj]
        simp only [nextCount, if_true]
      · rw [if_neg hc]
        rcases countOf pool cookie with _ | m
        · rfl
        · simp only [nextCount, if_neg hc]

/-! ### Runs -/

theorem tally_snoc (cookie : ℕ) (h : List PoolTransition) (e : PoolTransition) :
    tally cookie (h ++ [e]) = (tally cookie h).next cookie e := by
  simp [tally]

/-- Every count is a `uint32_t`. -/
def Bounded (pool : ObjectPool) : Prop := ∀ cookie n, countOf pool cookie = some n → n < 2 ^ 32

theorem Bounded.step {e : PoolTransition} (hb : Bounded e.before) (hv : e.Valid objectPool) :
    Bounded e.after := by
  intro cookie n hn
  rw [countOf_step hv] at hn
  have hlt := hb cookie
  rcases hc : countOf e.before cookie with _ | m
  · rw [hc] at hn
    cases hop : e.action with
    | new obj | adoptObject obj =>
      simp only [hop, nextCount, Option.ite_none_right_eq_some, Option.some.injEq] at hn
      omega
    | addRef obj | release obj => simp [hop, nextCount] at hn
  · have hm := hlt m hc
    rw [hc] at hn
    cases hop : e.action with
    | new obj | adoptObject obj =>
      simp only [hop, nextCount, Option.some.injEq] at hn
      omega
    | addRef obj =>
      simp only [hop, nextCount, Option.some.injEq] at hn
      split_ifs at hn with ho
      · omega
      · omega
    | release obj =>
      simp only [hop, nextCount] at hn
      split_ifs at hn with ho h0
      · rw [Option.some.injEq] at hn
        omega
      · rw [Option.some.injEq] at hn
        omega

theorem bounded_of_run {h : List PoolTransition} {pool : ObjectPool}
    (hr : Run objectPool h pool) : Bounded pool :=
  Path.preserves hr (fun _ _ hn => by cases hn) fun _ _ hv hb => hb.step hv

theorem Counted.step {h : List PoolTransition} {e : PoolTransition} (hc : Counted h e.before)
    (hb : Bounded e.before) (hv : e.Valid objectPool) (hin : InRange e) :
    Counted (h ++ [e]) e.after := by
  intro cookie n hn
  rw [countOf_step hv] at hn
  rw [tally_snoc]
  have hadd := hin.addRef cookie
  have hrel := hin.release cookie
  unfold Tally.next
  rcases hcount : countOf e.before cookie with _ | m
  · -- the object is added here
    rw [hcount] at hn
    cases hop : e.action with
    | new obj | adoptObject obj =>
      simp only [hop, nextCount, Option.ite_none_right_eq_some, Option.some.injEq] at hn
      simp only [hn.1, and_self, if_true]
      omega
    | addRef obj | release obj => simp [hop, nextCount] at hn
  · have hm := hb cookie m hcount
    have hbefore := hc cookie m hcount
    rw [hcount] at hn hadd hrel
    cases hop : e.action with
    | new obj | adoptObject obj =>
      simp only [hop, nextCount, Option.some.injEq] at hn
      simp only [reduceCtorEq, and_false, if_false]
      omega
    | addRef obj =>
      simp only [hop, nextCount, Option.some.injEq] at hn
      by_cases ho : obj = cookie
      · have hne : m ≠ 2 ^ 32 - 1 := fun he => hadd (by rw [hop, ho]) (by rw [he])
        simp only [if_pos ho] at hn ⊢
        omega
      · simp only [if_neg ho] at hn ⊢
        omega
    | release obj =>
      simp only [hop, nextCount] at hn
      by_cases ho : obj = cookie
      · have hne : m ≠ 0 := fun he => hrel (by rw [hop, ho]) (by rw [he])
        simp only [if_pos ho, Option.ite_none_left_eq_some, Option.some.injEq] at hn ⊢
        omega
      · simp only [if_neg ho, Option.some.injEq] at hn ⊢
        omega

/-- Objects are never removed in another way, and in the range nothing else can go wrong. -/
theorem InRange.lawful {e : PoolTransition} (hin : InRange e) (hb : Bounded e.before)
    (hv : e.Valid objectPool) : Lawful e := by
  refine ⟨fun cookie => ?_, fun cookie ha h0 => absurd h0 (hin.release cookie ha)⟩
  rw [countOf_step hv]
  rcases hcount : countOf e.before cookie with _ | m
  · simp
  · have hm := hb cookie m hcount
    cases hop : e.action with
    | new obj | adoptObject obj | addRef obj => simp [nextCount]
    | release obj =>
      by_cases ho : obj = cookie
      · have hone : (m + (2 ^ 32 - 1)) % 2 ^ 32 = 0 ↔ m = 1 := by omega
        simp only [nextCount, if_pos ho, hone]
        simp [ho]
      · simp [nextCount, ho]

/-- Out of the range the law is broken at once. -/
theorem inRange_of_lawful {h : List PoolTransition} {e : PoolTransition}
    (hv : e.Valid objectPool) (hbefore : Counted h e.before)
    (hafter : Counted (h ++ [e]) e.after) (hl : Lawful e) : InRange e := by
  constructor
  · intro cookie ha hcount
    have hzero : countOf e.after cookie = some 0 := by
      rw [countOf_step hv, ha, hcount]
      simp [nextCount]
    have h1 := hbefore cookie _ hcount
    have h2 := hafter cookie _ hzero
    rw [tally_snoc, Tally.next, ha] at h2
    simp only [if_true] at h2
    omega
  · intro cookie ha hcount
    have hmax : countOf e.after cookie = some (2 ^ 32 - 1) := by
      rw [countOf_step hv, ha, hcount]
      simp [nextCount]
    exact absurd (hl.zero cookie ha hcount _ hmax) (by norm_num)

theorem counted_of_run {h : List PoolTransition} {pool : ObjectPool}
    (hr : Run objectPool h pool) (hin : ∀ e ∈ h, InRange e) : Counted h pool :=
  Run.invariant (C := InRange) (fun _ _ hn => by cases hn)
    (fun _ _ hr hc hv hin => hc.step (bounded_of_run hr) hv hin) hr hin

/-- The law, in every state that the run reaches and for every operation of it. -/
def CountsLawfully (h : List PoolTransition) : Prop :=
  (∀ h₁ h₂ pool, h = h₁ ++ h₂ → Run objectPool h₁ pool → Counted h₁ pool) ∧ ∀ e ∈ h, Lawful e

/-- **The pool counts lawfully exactly in the runs that have no `Release` at zero and no `AddRef`
at the largest `uint32_t`.** -/
theorem countsLawfully_iff {h : List PoolTransition} {pool : ObjectPool}
    (hr : Run objectPool h pool) : CountsLawfully h ↔ ∀ e ∈ h, InRange e := by
  constructor
  · rintro ⟨hcounted, hlawful⟩ e he
    obtain ⟨h₁, h₂, rfl, hp, hv, -⟩ := hr.prefix_of_mem he
    have hbefore : Counted h₁ e.before := hcounted h₁ (e :: h₂) e.before rfl hp
    have hafter : Counted (h₁ ++ [e]) e.after :=
      hcounted (h₁ ++ [e]) h₂ e.after (by simp) (.snoc hp hv)
    exact inRange_of_lawful hv hbefore hafter (hlawful e he)
  · intro hin
    constructor
    · rintro h₁ h₂ pool₁ rfl hr₁
      exact counted_of_run hr₁ fun e he => hin e (by simp [he])
    · intro e he
      obtain ⟨h₁, h₂, rfl, hp, hv, -⟩ := hr.prefix_of_mem he
      exact (hin e he).lawful (bounded_of_run hp) hv

/-- An object that is used as it should be, with an attempt to adopt it twice. -/
def oneObject : List Operation := [.new 1, .addRef 1, .adoptObject 1, .release 1]

theorem countsLawfully_iff_oneObject :
    CountsLawfully (history objectPool {} oneObject) ↔
      ∀ e ∈ history objectPool {} oneObject, InRange e :=
  countsLawfully_iff (path_history objectPool oneObject {})

/-- An object that is released before anybody has acquired it stays, with the largest count. -/
theorem not_countsLawfully_release : ¬ ∀ h pool, Run objectPool h pool → CountsLawfully h := by
  intro hall
  have hlawful := (hall _ _ (path_history objectPool [.new 1, .release 1] {})).2
  have hzero := (hlawful ⟨({} : ObjectPool).new 1, .release 1, [], _⟩ (.tail _ (.head _))).zero 1
    rfl rfl (2 ^ 32 - 1) rfl
  exact absurd hzero (by norm_num)

end Binderd.Clients.Counting
