import Binderd.Clients.Translator
import Binderd.Lib.Runs

/-! # The table of a translator

The machine `translator` is an `ObjectTranslator` under its four operations: `TranslateCookie` and
`TranslateObject` look into the table, `TranslateOrAddObject` and `ProcessTransaction` may add to
it. It emits the calls of `TranslateOrAddObject`, those that `ProcessBinderObject` makes included.
Requests, replies and death notifications all come down to these operations, in any order.

As long as the counter has not wrapped around, the table is a bijection between the ids it has given
out and the addresses it was asked for (`Bijection`), and so the loop in `TranslateObject` finds the
same id whatever the order of the iteration.

* `bijection_call`: one call keeps the bijection;
* `calls_walkArray`: a pass over a transaction is a sequence of calls;
* `stableBijection_of_run`: the bijection after every run. -/

namespace Binderd.Clients.Interning

open Binderd.Lib.Bytes Binderd.Lib.Tables Binderd.Lib.Walks Binderd.Lib.Runs
open Binderd.Wire.Messages Binderd.Wire.Transactions Binderd.Clients.Translator
open Binderd.Clients.Translator.ObjectTranslator

/-! ### The machine -/

/-- A call of `TranslateOrAddObject`: the address, the id it returned, and whether it added an
entry. -/
structure Call where
  object : ℕ
  id : ℕ
  added : Bool
deriving DecidableEq

/-- The call of `TranslateOrAddObject` on this table. -/
def Call.of (t : ObjectTranslator) (object : ℕ) : Call :=
  ⟨object, (t.translateOrAddObject object).1, t.translateObject object = invalid⟩

/-- The operations. An address is a `uintptr_t`. -/
inductive Operation where
  | translateCookie (cookie : UInt64)
  | translateObject (object : UInt64)
  | translateOrAddObject (object : UInt64)
  | processTransaction (d : Direction) (tr : TransactionData) (m : Mem)

/-- The call that `ProcessBinderObject` makes for the object at a position. -/
def callAt (d : Direction) (v : Visit ObjectTranslator) : Option Call :=
  if d = .Out ∧ objType v.mem v.position = some .binder then
    some (.of v.state (objCookie v.mem v.position))
  else none

/-- The calls of `ProcessTransaction`. -/
def passCalls (d : Direction) (tr : TransactionData) (t : ObjectTranslator) (m : Mem) : List Call :=
  (visitsArray (processObject d) tr.data.start tr.numObjectOffsets tr.objects.start t m).filterMap
    (callAt d)

/-- An operation, and the calls it makes. After one that crashes the translator is gone. -/
def translatorStep (t : ObjectTranslator) : Operation → Option (ObjectTranslator × List Call)
  | .translateCookie _ => some (t, [])
  | .translateObject _ => some (t, [])
  | .translateOrAddObject object =>
    some ((t.translateOrAddObject object.toNat).2, [.of t object.toNat])
  | .processTransaction d tr m =>
    (processTransaction d tr t m).map fun r => (r.2.1, passCalls d tr t m)

/-- **The translator.** -/
def translator : Machine ObjectTranslator Operation Call := ⟨.initial, translatorStep⟩

/-- The calls on the table, as its histories record them. -/
abbrev TranslatorStep := Transition ObjectTranslator Operation Call

/-- The number of entries that a history has added. -/
def additions (h : List TranslatorStep) : ℕ := (outputs h).countP (·.added)

/-! ### Sequences of calls -/

/-- The calls `cs`, one after the other, take the table `t` to `t'`. -/
inductive Calls : ObjectTranslator → List Call → ObjectTranslator → Prop
  | nil {t} : Calls t [] t
  | cons {t t' object cs} : object < 2 ^ 64 → Calls (t.translateOrAddObject object).2 cs t' →
      Calls t (.of t object :: cs) t'

theorem calls_visit {d : Direction} {v : Visit ObjectTranslator} {t' : ObjectTranslator} {m' : Mem}
    (h : processObject d v.position v.state v.mem = .ok (t', m')) {cs : List Call}
    {t'' : ObjectTranslator} (hc : Calls t' cs t'') :
    Calls v.state ((callAt d v).toList ++ cs) t'' := by
  unfold callAt
  cases processObject_ok h with
  | returned _ _ => simpa using hc
  | skipped hne _ => simpa [hne] using hc
  | sent hb =>
    simp only [hb, and_self, if_true, Option.toList_some, List.singleton_append]
    exact .cons (objCookie_lt _ _) hc

/-- An object that ends the pass makes no call. -/
theorem callAt_of_error {d : Direction} {v : Visit ObjectTranslator} {e : Status}
    (h : processObject d v.position v.state v.mem = .error e) : callAt d v = none := by
  unfold callAt
  rw [if_neg]
  rintro ⟨rfl, hb⟩
  simp only [processObject, hb, processBinderObject] at h
  cases h

/-- **A pass is a sequence of calls.** -/
theorem calls_walkArray (d : Direction) (base : ℕ) : ∀ (n current : ℕ) (t : ObjectTranslator)
    (m : Mem), Calls t ((visitsArray (processObject d) base n current t m).filterMap (callAt d))
      (walkArray (processObject d) base n current t m).2.1
  | 0, _, _, _ => .nil
  | n + 1, current, t, m => by
    rw [visitsArray, walkArray]
    cases hs : processObject d (base + (m current).toNat) t m with
    | error e =>
      have hnone := callAt_of_error (v := ⟨base + (m current).toNat, t, m⟩) hs
      simp only [List.filterMap_cons, hnone, List.filterMap_nil]
      exact .nil
    | ok r =>
      obtain ⟨t', m'⟩ := r
      have h := calls_visit (v := ⟨base + (m current).toNat, t, m⟩) hs
        (calls_walkArray d base n (current + 8) t' m')
      cases hcall : callAt d ⟨base + (m current).toNat, t, m⟩ <;>
        simpa only [List.filterMap_cons, hcall, Option.toList_none, Option.toList_some,
          List.nil_append, List.singleton_append] using h

theorem calls_valid {e : TranslatorStep} (h : e.Valid translator) :
    Calls e.before e.emitted e.after := by
  obtain ⟨t, a, cs, t'⟩ := e
  have hstep : translatorStep t a = some (t', cs) := h
  cases a with
  | translateCookie cookie | translateObject object =>
    cases hstep
    exact .nil
  | translateOrAddObject object =>
    simp only [translatorStep, Option.some.injEq, Prod.mk.injEq] at hstep
    obtain ⟨rfl, rfl⟩ := hstep
    exact .cons object.toNat_lt .nil
  | processTransaction d tr m =>
    obtain ⟨r, hr, hcalls⟩ := Option.map_eq_some_iff.mp hstep
    obtain ⟨-, rfl⟩ := of_processTransaction hr
    cases hcalls
    exact calls_walkArray d _ _ _ t m

theorem nextObjectId_call (t : ObjectTranslator) (object : ℕ) :
    (t.translateOrAddObject object).2.nextObjectId =
      t.nextObjectId + if (Call.of t object).added then 1 else 0 := by
  rcases t.translateOrAddObject_cases object with ⟨hne, he⟩ | ⟨heq, -, -, hnext⟩
  · simp [he, Call.of, hne]
  · simp [hnext, Call.of, heq]

theorem Calls.nextObjectId {t t' : ObjectTranslator} {cs : List Call} (h : Calls t cs t') :
    t'.nextObjectId = t.nextObjectId + cs.countP (·.added) := by
  induction h with
  | nil => simp
  | cons _ _ ih =>
    rw [ih, nextObjectId_call, List.countP_cons]
    omega

theorem nextObjectId_of_run {h : List TranslatorStep} {t : ObjectTranslator}
    (hr : Run translator h t) : t.nextObjectId = additions h + 1 := by
  induction hr with
  | nil => rfl
  | snoc _ hv ih =>
    rw [(calls_valid hv).nextObjectId, ih]
    simp only [additions, outputs_snoc, List.countP_append]
    omega

theorem numbered_call {t : ObjectTranslator} {object : ℕ} (hn : t.Numbered)
    (hb : (t.translateOrAddObject object).2.nextObjectId ≤ 2 ^ 64) :
    (t.translateOrAddObject object).2.Numbered := by
  rcases t.translateOrAddObject_cases object with ⟨-, he⟩ | ⟨-, -, -, hnext⟩
  · rwa [he]
  · exact hn.translateOrAddObject (by omega) object

/-! ### The bijection -/

/-- The table is a bijection between ids that were given out and the addresses that were asked for
in the calls `cs`. -/
structure Bijection (cs : List Call) (t : ObjectTranslator) : Prop where
  numbered : t.Numbered
  injective : Injective t.objects
  called : ∀ c ∈ cs, t.objects.lookup c.id = some c.object
  asked : ∀ id object, t.objects.lookup id = some object → ∃ c ∈ cs, c.object = object

theorem bijection_initial : Bijection [] .initial where
  numbered := numbered_initial
  injective := fun k _ _ h _ => by cases (AList.lookup_empty k).symm.trans h
  called := fun _ hc => absurd hc List.not_mem_nil
  asked := fun id _ h => by cases (AList.lookup_empty id).symm.trans h

theorem translateObject_eq (t : ObjectTranslator) (object : ℕ) :
    t.translateObject object = (keyOf t.objects object).getD invalid := by
  unfold translateObject keyOf
  cases t.objects.entries.find? fun e => e.2 = object <;> rfl

/-- An address is `Invalid` if it is not in the table: no id is. -/
theorem translateObject_eq_invalid_iff {t : ObjectTranslator} (hn : t.Numbered) {object : ℕ} :
    t.translateObject object = invalid ↔ ∀ id, t.objects.lookup id ≠ some object := by
  rw [translateObject_eq, ← keyOf_eq_none_iff]
  cases hk : keyOf t.objects object with
  | none => simp
  | some id =>
    have hid := (hn.ids id (mem_of_lookup (lookup_keyOf hk))).1
    simp [invalid, Nat.ne_of_gt hid]

theorem translateObject_of_lookup {t : ObjectTranslator} (ht : Injective t.objects)
    {id object : ℕ} (h : t.objects.lookup id = some object) : t.translateObject object = id := by
  rw [translateObject_eq, (keyOf_eq_some_iff ht).mpr h, Option.getD_some]

/-- **One call keeps the bijection**, before the counter wraps around. -/
theorem bijection_call {cs : List Call} {t : ObjectTranslator} {object : ℕ} (h : Bijection cs t)
    (ho : object < 2 ^ 64) (hb : (t.translateOrAddObject object).2.nextObjectId ≤ 2 ^ 64) :
    Bijection (cs ++ [.of t object]) (t.translateOrAddObject object).2 := by
  have hkept : ∀ c ∈ cs, (t.translateOrAddObject object).2.objects.lookup c.id = some c.object :=
    fun c hc => lookup_kept (h.called c hc) object
  rcases t.translateOrAddObject_cases object with ⟨hne, he⟩ | ⟨heq, hid, hobjects, hnext⟩
  · -- the address is known, and the table is as it was
    have hcall : t.objects.lookup (Call.of t object).id = some object := by
      rw [Call.of, he]
      exact lookup_translateObject hne
    rw [he] at hkept ⊢
    refine ⟨h.numbered, h.injective, fun c hc => ?_, fun id o hl => ?_⟩
    · rcases List.mem_append.mp hc with hc | hc
      · exact hkept c hc
      · rw [List.mem_singleton.mp hc]
        exact hcall
    · obtain ⟨c, hc, hco⟩ := h.asked id o hl
      exact ⟨c, List.mem_append_left _ hc, hco⟩
  · have hlt : t.nextObjectId < 2 ^ 64 := by omega
    have hnew := (translateObject_eq_invalid_iff h.numbered).mp heq
    refine ⟨numbered_call h.numbered hb, ?_, fun c hc => ?_, fun id o hl => ?_⟩
    · rw [hobjects, Nat.mod_eq_of_lt ho]
      exact injective_insertNew h.injective hnew _
    · rcases List.mem_append.mp hc with hc | hc
      · exact hkept c hc
      · rw [List.mem_singleton.mp hc]
        exact lookup_translateOrAddObject h.numbered hlt ho
    · rw [hobjects, lookup_insertNew, Nat.mod_eq_of_lt ho] at hl
      split_ifs at hl
      · cases hl
        exact ⟨.of t object, by simp, rfl⟩
      · obtain ⟨c, hc, hco⟩ := h.asked id o hl
        exact ⟨c, List.mem_append_left _ hc, hco⟩

theorem Calls.bijection {t t' : ObjectTranslator} {cs : List Call} (h : Calls t cs t')
    {cs₀ : List Call} (hbij : Bijection cs₀ t) (hb : t'.nextObjectId ≤ 2 ^ 64) :
    Bijection (cs₀ ++ cs) t' := by
  induction h generalizing cs₀ with
  | nil => simpa using hbij
  | cons ho hrest ih =>
    have hnext := hrest.nextObjectId
    have hcall := ih (bijection_call hbij ho (by omega)) hb
    rwa [List.append_assoc, List.singleton_append] at hcall

theorem bijection_of_run {h : List TranslatorStep} {t : ObjectTranslator}
    (hr : Run translator h t) (hb : t.nextObjectId ≤ 2 ^ 64) : Bijection (outputs h) t := by
  induction hr with
  | nil => exact bijection_initial
  | snoc _ hv ih =>
    have hcalls := calls_valid hv
    have hnext := hcalls.nextObjectId
    have := hcalls.bijection (ih (by omega)) hb
    rwa [outputs_snoc]

/-! ### After every run -/

/-- The table after the history `h`: its ids, the two functions on it, and what becomes of the
results of `TranslateOrAddObject`. -/
structure StableBijection (h : List TranslatorStep) (t : ObjectTranslator) : Prop where
  ids : ∀ id ∈ t.objects, id ≠ 0 ∧ id < t.nextObjectId
  injective : ∀ id id' object, t.objects.lookup id = some object →
    t.objects.lookup id' = some object → id = id'
  /-- Whatever was asked for, and however long ago, has the id it was given. -/
  called : ∀ c ∈ outputs h, t.translateCookie c.id = c.object ∧ t.translateObject c.object = c.id
  translated : ∀ id ∈ t.objects, t.translateObject (t.translateCookie id) = id
  invalid_iff : ∀ object, t.translateObject object = invalid ↔
    ∀ c ∈ outputs h, c.object ≠ object
  /-- The order in which the loop of `TranslateObject` meets the entries plays no part. -/
  anyOrder : ∀ t' : ObjectTranslator, t'.objects.entries.Perm t.objects.entries →
    ∀ object, t'.translateObject object = t.translateObject object

/-- **The table of a translator is a stable bijection.** -/
theorem stableBijection_of_run {h : List TranslatorStep} {t : ObjectTranslator}
    (hr : Run translator h t) (hb : additions h < 2 ^ 64) : StableBijection h t := by
  have hnext := nextObjectId_of_run hr
  have hbij := bijection_of_run hr (by omega)
  refine ⟨fun id hid => ?_, hbij.injective, fun c hc => ⟨?_, ?_⟩, fun id hid => ?_,
    fun object => ?_, fun t' hp object => ?_⟩
  · obtain ⟨h1, h2⟩ := hbij.numbered.ids id hid
    exact ⟨by omega, h2⟩
  · rw [translateCookie, hbij.called c hc, Option.getD_some]
  · exact translateObject_of_lookup hbij.injective (hbij.called c hc)
  · obtain ⟨object, hl⟩ := exists_lookup_of_mem hid
    rw [translateCookie, hl, Option.getD_some]
    exact translateObject_of_lookup hbij.injective hl
  · rw [translateObject_eq_invalid_iff hbij.numbered]
    constructor
    · rintro hno c hc rfl
      exact hno _ (hbij.called c hc)
    · intro hno id hl
      obtain ⟨c, hc, hco⟩ := hbij.asked id object hl
      exact hno c hc hco
  · rw [translateObject_eq, translateObject_eq, keyOf_perm hbij.injective hp]

/-- A death notification is requested for one object, and another is listed twice. -/
def internScenario : List Operation :=
  [.translateOrAddObject 0x7f00,
    .processTransaction .Out (parcel (flatBinderObject .binder 0 0 0x7f80) [0, 0])
      (parcelMemory (flatBinderObject .binder 0 0 0x7f80) [0, 0]),
    .translateObject 0x7f00]

theorem stableBijection_internScenario :
    additions (history translator .initial internScenario) < 2 ^ 64 ∧
      StableBijection (history translator .initial internScenario)
        (final translator .initial internScenario) := by
  have hb : additions (history translator .initial internScenario) < 2 ^ 64 := by decide +kernel
  exact ⟨hb, stableBijection_of_run (path_history translator internScenario .initial) hb⟩

end Binderd.Clients.Interning
