import Binderd.Lib.Tables
import Binderd.Lib.Walks
import Binderd.Wire.Transactions

/-! # `ObjectTranslator`

The server must not learn the addresses of a client's objects. `ObjectTranslator` keeps a table of
them, and `ProcessTransaction` replaces the cookies of the binders in a transaction: an address by
its id in the table on the way out, an id by its address on the way in. It walks over the array of
offsets, of which it reads the low bytes only, and rewrites the objects in place. It does not ask
whether there are data that the objects could be in.

* `walk_out`, `walk_in`: what a pass over objects that do not overlap does to each of them;
* `processObjects_eq`: when the pass is over the objects that the transaction lists;
* `Unmoved`: when the pass changes nothing. -/

namespace Binderd.Clients.Translator

open Binderd.Lib.Bytes Binderd.Lib.Tables Binderd.Lib.Walks
open Binderd.Wire.Streams Binderd.Wire.Messages Binderd.Wire.Transactions

/-- `ObjectTranslator::Direction`. -/
inductive Direction where
  | In | Out
deriving DecidableEq

/-- The table from ids to addresses. An address is a `uintptr_t`. -/
structure ObjectTranslator where
  objects : Table ℕ ℕ
  nextObjectId : ℕ
  width : ∀ id object, objects.lookup id = some object → object < 2 ^ 64

theorem width_insertNew {t : Table ℕ ℕ}
    (h : ∀ id object, t.lookup id = some object → object < 2 ^ 64) (id object : ℕ) :
    ∀ id' object', (insertNew t id (object % 2 ^ 64)).lookup id' = some object' →
      object' < 2 ^ 64 := by
  intro id' object' h'
  rw [lookup_insertNew] at h'
  split_ifs at h'
  · cases h'
    exact Nat.mod_lt _ (by omega)
  · exact h _ _ h'

namespace ObjectTranslator

/-- The table of a new translator. -/
def initial : ObjectTranslator :=
  { objects := ∅
    nextObjectId := 1
    width := fun id _ h => by cases (AList.lookup_empty id).symm.trans h }

/-- `ObjectTranslator::Invalid`. -/
def invalid : ℕ := 0

/-- `ObjectTranslator::TranslateCookie`. -/
def translateCookie (t : ObjectTranslator) (cookie : ℕ) : ℕ := (t.objects.lookup cookie).getD 0

/-- The first id, in the order of the iteration, under which the object stands. -/
def translateObject (t : ObjectTranslator) (object : ℕ) : ℕ :=
  match t.objects.entries.find? fun e => e.2 = object with
  | some e => e.1
  | none => invalid

/-- `ObjectTranslator::TranslateOrAddObject`: the id, and the table with it. -/
def translateOrAddObject (t : ObjectTranslator) (object : ℕ) : ℕ × ObjectTranslator :=
  let id := t.translateObject object
  if id ≠ invalid then (id, t)
  else
    let id := t.nextObjectId % 2 ^ 64
    (id, { objects := insertNew t.objects id (object % 2 ^ 64)
           nextObjectId := t.nextObjectId + 1
           width := width_insertNew t.width id object })

end ObjectTranslator

/-- `ObjectTranslator::ProcessBinderObject`, on the object at `p`. -/
def processBinderObject (d : Direction) (t : ObjectTranslator) (m : Mem) (p : ℕ) :
    Except Status (ObjectTranslator × Mem) :=
  match d with
  | .In =>
    match t.objects.lookup (objCookie m p) with
    | none => .error .badValue
    | some object => .ok (t, setCookie m p object)
  | .Out =>
    let (id, t) := t.translateOrAddObject (objCookie m p)
    .ok (t, setCookie m p id)

/-- One turn of the loop of `ProcessTransaction`. -/
def processObject (d : Direction) : Step ObjectTranslator Status := fun p t m =>
  match objType m p with
  | some .binder => processBinderObject d t m p
  | some .handle | some .weakBinder | some .weakHandle | some .fd => .ok (t, m)
  | none => .error .invalidOperation

/-- The loop of `ProcessTransaction`. An offset is read as one byte
(`static_cast<binder_size_t>(*current)`). -/
def processObjects (d : Direction) (tr : TransactionData) (t : ObjectTranslator) (m : Mem) :
    Status × ObjectTranslator × Mem :=
  let (e, r) :=
    walkArray (processObject d) tr.data.start tr.numObjectOffsets tr.objects.start t m
  (e.getD .ok, r)

/-- `ObjectTranslator::ProcessTransaction`; `none` if it dereferences a null pointer. -/
def processTransaction (d : Direction) (tr : TransactionData) (t : ObjectTranslator) (m : Mem) :
    Option (Status × ObjectTranslator × Mem) :=
  if tr.ListsNull then none else some (processObjects d tr t m)

/-! ### The table -/

namespace ObjectTranslator

variable {t : ObjectTranslator} {object id : ℕ}

/-- The ids in the table have been drawn from `next_object_id_`. -/
structure Numbered (t : ObjectTranslator) : Prop where
  next_pos : 0 < t.nextObjectId
  ids : ∀ id ∈ t.objects, 0 < id ∧ id < t.nextObjectId

theorem numbered_initial : Numbered initial :=
  ⟨Nat.one_pos, fun _ h => absurd h (AList.notMem_empty _)⟩

theorem lookup_translateObject (h : t.translateObject object ≠ invalid) :
    t.objects.lookup (t.translateObject object) = some object := by
  unfold translateObject at h ⊢
  cases hf : t.objects.entries.find? fun e => e.2 = object with
  | none =>
    rw [hf] at h
    exact absurd rfl h
  | some e =>
    have hobject : e.2 = object := by simpa using List.find?_some hf
    rw [← hobject]
    exact AList.mem_lookup_iff.mpr (List.mem_of_find?_eq_some hf)

/-- An object is known, or it gets the next id. -/
theorem translateOrAddObject_cases (t : ObjectTranslator) (object : ℕ) :
    (t.translateObject object ≠ invalid ∧
      t.translateOrAddObject object = (t.translateObject object, t)) ∨
    (t.translateObject object = invalid ∧
      (t.translateOrAddObject object).1 = t.nextObjectId % 2 ^ 64 ∧
      (t.translateOrAddObject object).2.objects =
        insertNew t.objects (t.nextObjectId % 2 ^ 64) (object % 2 ^ 64) ∧
      (t.translateOrAddObject object).2.nextObjectId = t.nextObjectId + 1) := by
  unfold translateOrAddObject
  by_cases h : t.translateObject object = invalid
  · simp [h]
  · simp [h]

theorem lookup_kept (h : t.objects.lookup id = some object) (object' : ℕ) :
    (t.translateOrAddObject object').2.objects.lookup id = some object := by
  rcases t.translateOrAddObject_cases object' with ⟨-, he⟩ | ⟨-, -, he, -⟩
  · rwa [he]
  · rw [he]
    exact lookup_insertNew_of_some h

/-- Before the counter wraps around, an object stands in the table under the id it is given. -/
theorem lookup_translateOrAddObject (hn : t.Numbered) (hb : t.nextObjectId < 2 ^ 64)
    (ho : object < 2 ^ 64) :
    (t.translateOrAddObject object).2.objects.lookup (t.translateOrAddObject object).1 =
      some object := by
  rcases t.translateOrAddObject_cases object with ⟨hne, he⟩ | ⟨-, hid, he, -⟩
  · rw [he]
    exact lookup_translateObject hne
  · rw [hid, he, Nat.mod_eq_of_lt hb, Nat.mod_eq_of_lt ho]
    exact lookup_insertNew_self fun hmem => lt_irrefl _ (hn.ids _ hmem).2

theorem Numbered.translateOrAddObject (hn : t.Numbered) (hb : t.nextObjectId < 2 ^ 64)
    (object : ℕ) : (t.translateOrAddObject object).2.Numbered := by
  rcases t.translateOrAddObject_cases object with ⟨-, he⟩ | ⟨-, -, he, hnext⟩
  · rwa [he]
  · refine ⟨by omega, fun id hid => ?_⟩
    rw [he, Nat.mod_eq_of_lt hb, mem_insertNew] at hid
    rw [hnext]
    rcases hid with rfl | hid
    · exact ⟨hn.next_pos, Nat.lt_succ_self _⟩
    · exact ⟨(hn.ids id hid).1, (hn.ids id hid).2.trans (Nat.lt_succ_self _)⟩

theorem nextObjectId_translateOrAddObject (t : ObjectTranslator) (object : ℕ) :
    (t.translateOrAddObject object).2.nextObjectId ≤ t.nextObjectId + 1 := by
  rcases t.translateOrAddObject_cases object with ⟨-, he⟩ | ⟨-, -, -, hnext⟩
  · rw [he]
    exact Nat.le_succ _
  · exact hnext.le

/-- The states a table gets into, up to `2 ^ 64 - 1` additions. -/
inductive Reachable : ObjectTranslator → Prop
  | initial : Reachable initial
  | added {t : ObjectTranslator} (object : ℕ) : Reachable t → t.nextObjectId < 2 ^ 64 →
      Reachable (t.translateOrAddObject object).2

theorem Reachable.numbered (h : t.Reachable) : t.Numbered := by
  induction h with
  | initial => exact numbered_initial
  | added object _ hb ih => exact ih.translateOrAddObject hb object

end ObjectTranslator

/-! ### One object -/

/-- **What becomes of an object.** -/
inductive Processed (t : ObjectTranslator) (m : Mem) (p : ℕ) :
    Direction → ObjectTranslator → Mem → Prop
  | returned {object} : objType m p = some .binder →
      t.objects.lookup (objCookie m p) = some object →
      Processed t m p .In t (setCookie m p object)
  | sent : objType m p = some .binder →
      Processed t m p .Out (t.translateOrAddObject (objCookie m p)).2
        (setCookie m p (t.translateOrAddObject (objCookie m p)).1)
  | skipped {d} : objType m p ≠ some .binder → objType m p ≠ none → Processed t m p d t m

section Object

variable {d : Direction} {t t' : ObjectTranslator} {m m' : Mem} {p : ℕ}

theorem processObject_ok (h : processObject d p t m = .ok (t', m')) : Processed t m p d t' m' := by
  unfold processObject at h
  cases ht : objType m p with
  | none =>
    rw [ht] at h
    cases h
  | some ty =>
    rw [ht] at h
    cases ty with
    | binder =>
      cases d with
      | In =>
        simp only [processBinderObject] at h
        cases hl : t.objects.lookup (objCookie m p) with
        | none =>
          rw [hl] at h
          cases h
        | some object =>
          rw [hl] at h
          cases h
          exact .returned ht hl
      | Out =>
        cases h
        exact .sent ht
    | _ =>
      cases h
      exact .skipped (by simp [ht]) (by simp [ht])

theorem processObject_error {e : Status} (h : processObject d p t m = .error e) : e ≠ .ok := by
  unfold processObject processBinderObject at h
  rintro rfl
  split at h
  · split at h
    · split at h <;> cases h
    · cases h
  all_goals cases h

/-- The loop gets past the object, on the way in. -/
def Passable (t : ObjectTranslator) (m : Mem) (p : ℕ) : Prop :=
  objType m p ≠ none ∧ (objType m p = some .binder → objCookie m p ∈ t.objects)

instance (t : ObjectTranslator) (m : Mem) (p : ℕ) : Decidable (Passable t m p) := by
  unfold Passable; infer_instance

theorem Processed.typed (h : Processed t m p d t' m') : objType m p ≠ none := by
  cases h with
  | returned hb _ => simp [hb]
  | sent hb => simp [hb]
  | skipped _ hn => exact hn

theorem Processed.passable (h : Processed t m p .In t' m') : Passable t m p := by
  refine ⟨h.typed, fun hb => ?_⟩
  cases h with
  | returned _ hl => exact mem_of_lookup hl
  | skipped hne _ => exact absurd hb hne

theorem processObject_of_passable (h : Passable t m p) :
    ∃ m', processObject .In p t m = .ok (t, m') := by
  obtain ⟨ty, ht⟩ := Option.ne_none_iff_exists'.mp h.1
  unfold processObject
  rw [ht]
  cases ty with
  | binder =>
    obtain ⟨object, hl⟩ := exists_lookup_of_mem (h.2 ht)
    simp only [processBinderObject, hl]
    exact ⟨_, rfl⟩
  | _ => exact ⟨m, rfl⟩

theorem Processed.outside (h : Processed t m p d t' m') : SameOutside p 24 m m' := by
  cases h with
  | skipped _ _ => exact .refl _ _ _
  | _ => exact setCookie_outside _ _ _

theorem processObject_local (d : Direction) : Local (processObject d) 24 :=
  fun _ _ _ _ _ h => (processObject_ok h).outside

theorem Processed.type (h : Processed t m p d t' m') : objType m' p = objType m p := by
  cases h with
  | skipped _ _ => rfl
  | _ => exact objType_setCookie _ _ _

theorem Processed.eq_of_cookie (h : Processed t m p d t' m')
    (hc : objCookie m' p = objCookie m p) : m' = m := by
  cases h with
  | skipped _ _ => rfl
  | _ => exact setCookie_eq_self hc

theorem Processed.state_in (h : Processed t m p .In t' m') : t' = t := by
  cases h <;> rfl

theorem Processed.sameAt (h : Processed t m p d t' m') {q : ℕ} (hd : p + 24 ≤ q ∨ q + 24 ≤ p) :
    ∀ i, q ≤ i → i < q + 24 → m' i = m i := fun i h1 h2 => h.outside i (by omega)

theorem Processed.kept (h : Processed t m p d t' m') {id object : ℕ}
    (hl : t.objects.lookup id = some object) : t'.objects.lookup id = some object := by
  cases h with
  | sent _ => exact ObjectTranslator.lookup_kept hl _
  | _ => exact hl

theorem Processed.next_le (h : Processed t m p d t' m') : t'.nextObjectId ≤ t.nextObjectId + 1 := by
  cases h with
  | sent _ => exact t.nextObjectId_translateOrAddObject _
  | _ => exact Nat.le_succ _

theorem Processed.numbered (h : Processed t m p d t' m') (hn : t.Numbered)
    (hb : t.nextObjectId < 2 ^ 64) : t'.Numbered := by
  cases h with
  | sent _ => exact hn.translateOrAddObject hb _
  | _ => exact hn

/-- A binder that was sent stands in the table under its new cookie. -/
theorem Processed.lookup_sent (h : Processed t m p .Out t' m') (hn : t.Numbered)
    (hb : t.nextObjectId < 2 ^ 64) (hbinder : objType m p = some .binder) :
    t'.objects.lookup (objCookie m' p) = some (objCookie m p) := by
  have hnext := h.next_le
  have hn' := h.numbered hn hb
  cases h with
  | sent _ =>
    have hlookup := ObjectTranslator.lookup_translateOrAddObject hn hb (objCookie_lt m p)
    have hid := (hn'.ids _ (mem_of_lookup hlookup)).2
    rwa [objCookie_setCookie (by omega)]
  | skipped hne _ => exact absurd hbinder hne

end Object

/-! ### A pass over objects that do not overlap -/

/-- The objects that the loop gets past, on the way in. -/
def passed (t : ObjectTranslator) (m : Mem) (ps : List ℕ) : List ℕ :=
  ps.takeWhile fun p => Passable t m p

section Pass

variable {d : Direction} {t : ObjectTranslator} {m m' : Mem} {ps : List ℕ}

theorem passable_congr {p : ℕ} (h : ∀ i, p ≤ i → i < p + 24 → m' i = m i) :
    Passable t m' p ↔ Passable t m p := by
  unfold Passable
  rw [objType_congr h, objCookie_congr h]

theorem passed_congr (h : ∀ p ∈ ps, ∀ i, p ≤ i → i < p + 24 → m' i = m i) :
    passed t m' ps = passed t m ps := by
  unfold passed
  induction ps with
  | nil => rfl
  | cons p ps ih =>
    obtain ⟨hp, hrest⟩ := List.forall_mem_cons.mp h
    simp only [List.takeWhile_cons, passable_congr hp, ih hrest]

theorem passed_cons {p : ℕ} (h : Passable t m p) :
    passed t m (p :: ps) = p :: passed t m ps :=
  List.takeWhile_cons_of_pos (by simpa using h)

theorem passed_cons_of_not {p : ℕ} (h : ¬ Passable t m p) : passed t m (p :: ps) = [] :=
  List.takeWhile_cons_of_neg (by simpa using h)

theorem walk_kept (ps : List ℕ) {id object : ℕ} (h : t.objects.lookup id = some object) :
    (walk (processObject d) ps t m).2.1.objects.lookup id = some object := by
  induction ps generalizing t m with
  | nil => exact h
  | cons p ps ih =>
    rw [walk]
    cases hs : processObject d p t m with
    | error e => exact h
    | ok r => exact ih ((processObject_ok hs).kept h)

theorem walk_other {q : ℕ} (hq : ∀ p ∈ ps, q + 24 ≤ p ∨ p + 24 ≤ q) :
    ∀ i, q ≤ i → i < q + 24 → (walk (processObject d) ps t m).2.2 i = m i := fun i h1 h2 =>
  walk_frame (processObject_local d) (fun p hp => by have := hq p hp; omega) t m

theorem walk_type (hap : Separate 24 ps) {p : ℕ} (hp : p ∈ ps) :
    objType (walk (processObject d) ps t m).2.2 p = objType m p := by
  induction ps generalizing t m with
  | nil => cases hp
  | cons q ps ih =>
    obtain ⟨hq, hrest⟩ := List.pairwise_cons.mp hap
    rw [walk]
    cases hs : processObject d q t m with
    | error e => rfl
    | ok r =>
      have hproc := processObject_ok hs
      rcases List.mem_cons.mp hp with rfl | hp
      · exact (objType_congr (walk_other hq)).trans hproc.type
      · exact (ih hrest hp).trans (objType_congr (hproc.sameAt (hq p hp)))

/-- **What a pass does on the way in**: the binders that the loop gets past have their addresses,
and the others are as they were. -/
theorem walk_in (hap : Separate 24 ps) {p : ℕ} (hp : p ∈ ps) :
    (p ∈ passed t m ps → objType m p = some .binder → t.objects.lookup (objCookie m p) =
      some (objCookie (walk (processObject .In) ps t m).2.2 p)) ∧
    (p ∉ passed t m ps → objCookie (walk (processObject .In) ps t m).2.2 p = objCookie m p) := by
  induction ps generalizing m with
  | nil => cases hp
  | cons q ps ih =>
    obtain ⟨hq, hrest⟩ := List.pairwise_cons.mp hap
    rw [walk]
    by_cases hpass : Passable t m q
    · obtain ⟨m₁, hs⟩ := processObject_of_passable hpass
      have hproc := processObject_ok hs
      rw [hs, passed_cons hpass, ← passed_congr fun p hp => hproc.sameAt (hq p hp)]
      simp only
      rcases List.mem_cons.mp hp with rfl | hp
      · -- the objects that come after it leave it alone
        rw [objCookie_congr (walk_other hq)]
        refine ⟨fun _ hb => ?_, fun hn => absurd List.mem_cons_self hn⟩
        cases hproc with
        | returned _ hl => rw [hl, objCookie_setCookie (t.width _ _ hl)]
        | skipped hne _ => exact absurd hb hne
      · have hsame := hproc.sameAt (hq p hp)
        obtain ⟨hin, hout⟩ := ih hrest hp (m := m₁)
        rw [objType_congr hsame] at hin
        rw [objCookie_congr hsame] at hin hout
        have hne : p ≠ q := by
          have := hq p hp
          omega
        exact ⟨fun hmem => hin ((List.mem_cons.mp hmem).resolve_left hne),
          fun hn => hout fun hmem => hn (List.mem_cons_of_mem _ hmem)⟩
    · cases hs : processObject .In q t m with
      | error e =>
        rw [passed_cons_of_not hpass]
        exact ⟨fun hmem => absurd hmem List.not_mem_nil, fun _ => rfl⟩
      | ok r => exact absurd (processObject_ok hs).passable hpass

theorem walk_status : (walk (processObject d) ps t m).1.getD .ok = .ok ↔
    (walk (processObject d) ps t m).1 = none := by
  cases hw : (walk (processObject d) ps t m).1 with
  | none => simp
  | some e =>
    obtain ⟨v, -, he⟩ := exists_failed hw
    simp [processObject_error he]

/-- **What a pass does on the way out**: every binder has an id, under which its address stands in
the table. -/
theorem walk_out (hap : Separate 24 ps) (hn : t.Numbered)
    (hb : t.nextObjectId + ps.length ≤ 2 ^ 64)
    (hok : (walk (processObject .Out) ps t m).1 = none) {p : ℕ} (hp : p ∈ ps)
    (hbinder : objType m p = some .binder) :
    (walk (processObject .Out) ps t m).2.1.objects.lookup
      (objCookie (walk (processObject .Out) ps t m).2.2 p) = some (objCookie m p) := by
  induction ps generalizing t m with
  | nil => cases hp
  | cons q ps ih =>
    obtain ⟨hq, hrest⟩ := List.pairwise_cons.mp hap
    rw [walk] at hok ⊢
    cases hs : processObject .Out q t m with
    | error e =>
      rw [hs] at hok
      cases hok
    | ok r =>
      obtain ⟨t₁, m₁⟩ := r
      rw [hs] at hok
      simp only at hok ⊢
      have hproc := processObject_ok hs
      rw [List.length_cons] at hb
      rcases List.mem_cons.mp hp with rfl | hp
      · -- what is added to the table later does not touch its entry
        rw [objCookie_congr (walk_other hq)]
        exact walk_kept ps (hproc.lookup_sent hn (by omega) hbinder)
      · rw [← objCookie_congr (hproc.sameAt (hq p hp))]
        rw [← objType_congr (hproc.sameAt (hq p hp))] at hbinder
        have hnext := hproc.next_le
        exact ih hrest (hproc.numbered hn (by omega)) (by omega) hok hp hbinder

end Pass

/-! ### The objects of a transaction -/

/-- The positions of the listed objects. -/
def listedPositions (tr : TransactionData) (m : Mem) : List ℕ :=
  (tr.listedOffsets m).map (tr.data.start + ·)

/-- The data and the array of offsets are two buffers. -/
def TwoBuffers (tr : TransactionData) : Prop :=
  tr.objects.start + tr.objects.size ≤ tr.data.start ∨
    tr.data.start + tr.data.size ≤ tr.objects.start

/-- The listed objects lie inside the data and do not overlap. -/
structure WellPlaced (tr : TransactionData) (m : Mem) : Prop where
  inside : ∀ o ∈ tr.listedOffsets m, o + 24 ≤ tr.data.size
  separate : Separate 24 (tr.listedOffsets m)

section Transaction

variable {tr : TransactionData} {m : Mem}

theorem processTransaction_eq_some {d : Direction} {t : ObjectTranslator} (h : ¬ tr.ListsNull) :
    processTransaction d tr t m = some (processObjects d tr t m) := if_neg h

theorem of_processTransaction {d : Direction} {t : ObjectTranslator}
    {r : Status × ObjectTranslator × Mem} (h : processTransaction d tr t m = some r) :
    ¬ tr.ListsNull ∧ r = processObjects d tr t m := by
  unfold processTransaction at h
  split_ifs at h with hn
  exact ⟨hn, (Option.some.inj h).symm⟩

theorem WellPlaced.not_listsNull (h : WellPlaced tr m) : ¬ tr.ListsNull :=
  TransactionData.not_listsNull_of_inside h.inside

theorem WellPlaced.separate_positions (h : WellPlaced tr m) : Separate 24 (listedPositions tr m) :=
  List.pairwise_map.mpr (List.Pairwise.imp (fun hpq => by omega) h.separate)

theorem twoBuffers_decoded (payload : List UInt8) : TwoBuffers (decoded payload) := by
  have h : (decoded payload).objects.start = 32 + (decoded payload).data.size := rfl
  have h' : (decoded payload).data.start = 28 := rfl
  exact .inr (by omega)

theorem WellPlaced.lt {payload : List UInt8} (h : WellPlaced (decoded payload) m) :
    ∀ o ∈ (decoded payload).listedOffsets m, o < 256 := by
  intro o ho
  have hsize : (decoded payload).data.size < 256 := byteOf_lt ..
  have := h.inside o ho
  omega

theorem cookie_of_data {m' : Mem} (h : WellPlaced tr m)
    (hd : slice m' tr.data.start tr.data.size = slice m tr.data.start tr.data.size) {p : ℕ}
    (hp : p ∈ listedPositions tr m) : objCookie m' p = objCookie m p := by
  obtain ⟨o, ho, rfl⟩ := List.mem_map.mp hp
  have hin := h.inside o ho
  refine objCookie_congr fun i h1 h2 => ?_
  have hbyte := slice_eq_iff.mp hd (i - tr.data.start) (by omega)
  rwa [Nat.add_sub_cancel' (by omega)] at hbyte

theorem length_listedPositions (tr : TransactionData) (m : Mem) :
    (listedPositions tr m).length = tr.numObjectOffsets := by
  simp [listedPositions, TransactionData.listedOffsets]

theorem state_processObjects_in (tr : TransactionData) (t : ObjectTranslator) (m : Mem) :
    (processObjects .In tr t m).2.1 = t := by
  unfold processObjects
  generalize tr.numObjectOffsets = n, tr.objects.start = current
  induction n generalizing m current with
  | zero => rfl
  | succ n ih =>
    rw [walkArray]
    cases hs : processObject .In (tr.data.start + (m current).toNat) t m with
    | error e => rfl
    | ok r =>
      obtain ⟨t', m'⟩ := r
      obtain rfl := (processObject_ok hs).state_in
      exact ih m' (current + 8)

theorem positions_eq_listed (h : ∀ o ∈ tr.listedOffsets m, o < 256) :
    tr.namedPositions m = listedPositions tr m := by
  unfold TransactionData.namedPositions positions listedPositions TransactionData.listedOffsets
  rw [List.map_map]
  refine List.map_congr_left fun i hi => ?_
  have hlt := h _ (List.mem_map_of_mem hi)
  rw [toNat_of_load_lt hlt]
  rfl

theorem mem_namedPositions {o : ℕ} (ho : o ∈ tr.listedOffsets m) (hlt : o < 256) :
    tr.data.start + o ∈ tr.namedPositions m := by
  obtain ⟨i, hi, rfl⟩ := List.mem_map.mp ho
  refine List.mem_map.mpr ⟨i, hi, ?_⟩
  rw [toNat_of_load_lt hlt]

/-- **The pass is over the listed objects** if these lie inside the data, below `256`. -/
theorem processObjects_eq (ht : TwoBuffers tr) (hw : WellPlaced tr m)
    (hlt : ∀ o ∈ tr.listedOffsets m, o < 256) (d : Direction) (t : ObjectTranslator) :
    visitsArray (processObject d) tr.data.start tr.numObjectOffsets tr.objects.start t m =
        visits (processObject d) (listedPositions tr m) t m ∧
      processObjects d tr t m = ((walk (processObject d) (listedPositions tr m) t m).1.getD .ok,
        (walk (processObject d) (listedPositions tr m) t m).2) := by
  have harray : ∀ i < tr.numObjectOffsets, tr.objects.start + 8 * i < tr.data.start ∨
      tr.data.start + tr.data.size ≤ tr.objects.start + 8 * i := by
    intro i hi
    unfold TwoBuffers at ht
    unfold TransactionData.numObjectOffsets at hi
    omega
  have hinside : ∀ v ∈ visits (processObject d) (tr.namedPositions m) t m,
      v.Inside 24 tr.data.start tr.data.size := by
    intro v hv
    rw [positions_eq_listed hlt] at hv
    obtain ⟨o, ho, hpos⟩ := List.mem_map.mp (mem_of_visits hv)
    have := hw.inside o ho
    exact ⟨by omega, by omega⟩
  have hwalk := walkArray_eq (processObject_local d) harray (.inl hinside)
  rw [← TransactionData.namedPositions, positions_eq_listed hlt] at hwalk
  refine ⟨hwalk.1, ?_⟩
  unfold processObjects
  rw [hwalk.2]

theorem listedOffsets_processObjects (ht : TwoBuffers tr) (hw : WellPlaced tr m)
    (hlt : ∀ o ∈ tr.listedOffsets m, o < 256) (d : Direction) (t : ObjectTranslator) :
    tr.listedOffsets (processObjects d tr t m).2.2 = tr.listedOffsets m := by
  rw [(processObjects_eq ht hw hlt d t).2]
  refine List.map_congr_left fun i hi => load_congr fun j h1 h2 => ?_
  refine walk_frame (processObject_local d) (fun p hp => ?_) t m
  obtain ⟨o, ho, rfl⟩ := List.mem_map.mp hp
  have hin := hw.inside o ho
  unfold TwoBuffers at ht
  unfold TransactionData.numObjectOffsets at hi
  rw [List.mem_range] at hi
  omega

end Transaction

/-! ### Objects that the translation leaves as they are -/

/-- No object that the loop gets past has its cookie changed. -/
def Unmoved (d : Direction) (m : Mem) : ObjectTranslator → List ℕ → Prop
  | _, [] => True
  | t, p :: ps =>
    match processObject d p t m with
    | .error _ => True
    | .ok (t', m') => objCookie m' p = objCookie m p ∧ Unmoved d m t' ps

instance decidableUnmoved (d : Direction) (m : Mem) : ∀ t ps, Decidable (Unmoved d m t ps)
  | _, [] => isTrue trivial
  | t, p :: ps =>
    match h : processObject d p t m with
    | .error _ => isTrue (by rw [Unmoved, h]; trivial)
    | .ok (t', m') =>
      have := decidableUnmoved d m t' ps
      decidable_of_iff (objCookie m' p = objCookie m p ∧ Unmoved d m t' ps) (by rw [Unmoved, h])

section Unmoved

variable {d : Direction} {t : ObjectTranslator} {m : Mem}

/-- Then the memory is left as it is. -/
theorem walkArray_of_unmoved (base : ℕ) : ∀ {n current : ℕ} {t : ObjectTranslator},
    Unmoved d m t (positions m base n current) →
    (walkArray (processObject d) base n current t m).2.2 = m
  | 0, _, _, _ => rfl
  | n + 1, current, t, h => by
    rw [positions_cons, Unmoved] at h
    rw [walkArray]
    cases hs : processObject d (base + (m current).toNat) t m with
    | error e => rfl
    | ok r =>
      obtain ⟨t', m'⟩ := r
      rw [hs] at h
      -- the memory is the same, and so the rest of the array is still the one in `h`
      obtain rfl := ((processObject_ok hs).eq_of_cookie h.1).symm
      exact walkArray_of_unmoved base h.2

theorem processObjects_of_unmoved {tr : TransactionData}
    (h : Unmoved d m t (tr.namedPositions m)) : (processObjects d tr t m).2.2 = m :=
  walkArray_of_unmoved tr.data.start h

theorem unmoved_of_no_binder {ps : List ℕ} (h : ∀ p ∈ ps, objType m p ≠ some .binder) :
    Unmoved d m t ps := by
  induction ps with
  | nil => trivial
  | cons p ps ih =>
    obtain ⟨hp, hrest⟩ := List.forall_mem_cons.mp h
    rw [Unmoved]
    cases hs : processObject d p t m with
    | error e => trivial
    | ok r =>
      obtain ⟨t', m'⟩ := r
      cases processObject_ok hs with
      | skipped _ _ => exact ⟨rfl, ih hrest⟩
      | returned hb _ => exact absurd hb hp
      | sent hb => exact absurd hb hp

/-- If the objects do not overlap, this is the only way for their cookies to be left as they are. -/
theorem unmoved_of_walk {ps : List ℕ} (hap : Separate 24 ps)
    (h : ∀ p ∈ ps, objCookie (walk (processObject d) ps t m).2.2 p = objCookie m p) :
    Unmoved d m t ps := by
  induction ps generalizing t with
  | nil => trivial
  | cons q ps ih =>
    obtain ⟨hq, hrest⟩ := List.pairwise_cons.mp hap
    rw [walk] at h
    rw [Unmoved]
    cases hs : processObject d q t m with
    | error e => trivial
    | ok r =>
      obtain ⟨t', m'⟩ := r
      rw [hs] at h
      simp only at h ⊢
      have hcookie : objCookie m' q = objCookie m q := by
        rw [← h q List.mem_cons_self, objCookie_congr (walk_other hq)]
      obtain rfl := (processObject_ok hs).eq_of_cookie hcookie
      exact ⟨rfl, ih hrest fun p hp => h p (List.mem_cons_of_mem _ hp)⟩

/-- The data of a transaction is left as it is only if no object in it is changed. -/
theorem unmoved_of_data {tr : TransactionData} (ht : TwoBuffers tr) (hw : WellPlaced tr m)
    (hlt : ∀ o ∈ tr.listedOffsets m, o < 256)
    (hd : slice (processObjects d tr t m).2.2 tr.data.start tr.data.size =
      slice m tr.data.start tr.data.size) : Unmoved d m t (tr.namedPositions m) := by
  rw [(processObjects_eq ht hw hlt d t).2] at hd
  rw [positions_eq_listed hlt]
  exact unmoved_of_walk hw.separate_positions fun p hp => cookie_of_data hw hd hp

end Unmoved

end Binderd.Clients.Translator
