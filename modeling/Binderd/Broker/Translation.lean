import Binderd.Broker.Effects
import Binderd.Lib.Walks

/-! # What `TranslateObjects` does to the data

An object takes 24 bytes. Its translation changes those bytes and no others
(`translateObject_outside`). If the objects of a transaction lie inside its data (`InsideData`),
neither the fixed part of the message nor the array of offsets is changed, so both passes translate
the objects the sender listed, in the order in which they are listed: the loop over the array is
`translateAt`, a walk over a list of positions (`translateObjects_eq`). -/

namespace Binderd.Broker.Translation

open Binderd.Lib.Bytes Binderd.Lib.Tables Binderd.Lib.Runs Binderd.Lib.Walks
open Binderd.Wire.Streams Binderd.Wire.Messages Binderd.Wire.Transactions
open Binderd.Broker.State Binderd.Broker.Handles Binderd.Broker.Sessions Binderd.Broker.Effects

/-! ### One object -/

theorem toHandle_outside (m : Mem) (p handle : ℕ) : SameOutside p 24 m (toHandle m p handle) := by
  have h1 : SameOutside p 24 m (setType m p .handle) := .store m _ (by omega) (by omega)
  have h2 := h1.trans (.store (q := p + 8) (v := 8) _ 0 (by omega) (by omega))
  have h3 := h2.trans (.store (q := p + 16) (v := 8) _ 0 (by omega) (by omega))
  exact h3.trans (.store (q := p + 8) (v := 4) _ handle (by omega) (by omega))

theorem toWeakBinder_outside (m : Mem) (p : ℕ) (b : BinderObject) :
    SameOutside p 24 m (toWeakBinder m p b) := by
  have h1 : SameOutside p 24 m (setType m p .weakBinder) := .store m _ (by omega) (by omega)
  have h2 := h1.trans (.store (q := p + 8) (v := 8) _ b.binder (by omega) (by omega))
  have h3 := h2.trans (.store (q := p + 16) (v := 8) _ b.cookie (by omega) (by omega))
  exact h3.trans (.store (q := p + 8) (v := 4) _ 0 (by omega) (by omega))

theorem load_type_store (m : Mem) (p : ℕ) (t : ObjectType) :
    ObjectType.ofCode (load (store m p 4 t.code) p 4) = some t := by
  rw [load_store, Nat.mod_eq_of_lt t.code_lt, ObjectType.ofCode_code]

theorem objType_toHandle (m : Mem) (p handle : ℕ) :
    objType (toHandle m p handle) p = some .handle := by
  unfold objType toHandle setHandle setCookie setBinder setType
  rw [load_store_of_disjoint (by omega), load_store_of_disjoint (by omega),
    load_store_of_disjoint (by omega), load_type_store]

theorem objHandle_toHandle (m : Mem) (p handle : ℕ) :
    objHandle (toHandle m p handle) p = handle % 2 ^ 32 := by
  unfold objHandle toHandle setHandle
  rw [load_store, show 256 ^ 4 = 2 ^ 32 by norm_num]

theorem objType_toWeakBinder (m : Mem) (p : ℕ) (b : BinderObject) :
    objType (toWeakBinder m p b) p = some .weakBinder := by
  unfold objType toWeakBinder setHandle setCookie setBinder setType
  rw [load_store_of_disjoint (by omega), load_store_of_disjoint (by omega),
    load_store_of_disjoint (by omega), load_type_store]

/-- **What the translation of one object can do.** -/
inductive ObjectStep (s : SessionId) (st : ServerState) (m : Mem) (p : ℕ) : ServerState → Mem → Prop
  | exported : objType m p = some .binder →
      ObjectStep s st m p (exportObject st s ⟨objBinder m p, objCookie m p⟩).2
        (toHandle m p (exportObject st s ⟨objBinder m p, objCookie m p⟩).1)
  | returned {b} : objType m p = some .handle →
      (st.sessions s).objects.lookup (objHandle m p) = some b →
      ObjectStep s st m p st (toWeakBinder m p b)
  | passed : objType m p = some .handle → objHandle m p ∉ (st.sessions s).objects →
      ObjectStep s st m p st m
  | ignored {t} : objType m p = some t → t ≠ .binder → t ≠ .handle → ObjectStep s st m p st m

theorem ObjectStep.typed {s : SessionId} {st st' : ServerState} {m m' : Mem} {p : ℕ}
    (h : ObjectStep s st m p st' m') : objType m p ≠ none := by
  cases h with
  | exported ht => simp [ht]
  | returned ht _ => simp [ht]
  | passed ht _ => simp [ht]
  | ignored ht _ _ => simp [ht]

theorem translateObject_step {s : SessionId} {st st' : ServerState} {m m' : Mem} {p : ℕ}
    (h : translateObject s st m p = some (st', m')) : ObjectStep s st m p st' m' := by
  unfold translateObject at h
  split at h
  · next ht =>
    cases h
    exact .exported ht
  · next ht =>
    split at h
    · next hn =>
      cases h
      exact .passed ht (AList.lookup_eq_none.mp hn)
    · next b hb =>
      cases h
      exact .returned ht hb
  · next ht => cases h; exact .ignored ht (by simp) (by simp)
  · next ht => cases h; exact .ignored ht (by simp) (by simp)
  · next ht => cases h; exact .ignored ht (by simp) (by simp)
  · cases h

theorem translateObject_eq_none {s : SessionId} {st : ServerState} {m : Mem} {p : ℕ} :
    translateObject s st m p = none ↔ objType m p = none := by
  unfold translateObject
  cases ht : objType m p with
  | none => simp
  | some t =>
    cases t with
    | handle => cases (st.sessions s).objects.lookup (objHandle m p) <;> simp
    | _ => simp

theorem ObjectStep.exports {s : SessionId} {st st' : ServerState} {m m' : Mem} {p : ℕ}
    (h : ObjectStep s st m p st' m') : Exports s st st' := by
  cases h with
  | exported _ => exact .single ⟨_, rfl⟩
  | _ => exact .refl

theorem ObjectStep.outside {s : SessionId} {st st' : ServerState} {m m' : Mem} {p : ℕ}
    (h : ObjectStep s st m p st' m') : SameOutside p 24 m m' := by
  cases h with
  | exported _ => exact toHandle_outside _ _ _
  | returned _ _ => exact toWeakBinder_outside _ _ _
  | passed _ _ => exact .refl _ _ _
  | ignored _ _ _ => exact .refl _ _ _

theorem ObjectStep.not_binder {s : SessionId} {st st' : ServerState} {m m' : Mem} {p : ℕ}
    (h : ObjectStep s st m p st' m') : ∃ t, objType m' p = some t ∧ t ≠ .binder := by
  cases h with
  | exported _ => exact ⟨_, objType_toHandle .., by simp⟩
  | returned _ _ => exact ⟨_, objType_toWeakBinder .., by simp⟩
  | passed ht _ => exact ⟨_, ht, by simp⟩
  | ignored ht hb _ => exact ⟨_, ht, hb⟩

theorem translateObject_outside {s : SessionId} {st st' : ServerState} {m m' : Mem} {p : ℕ}
    (h : translateObject s st m p = some (st', m')) : SameOutside p 24 m m' :=
  (translateObject_step h).outside

/-! ### The loop is a walk -/

/-- The translation of one object as a step of a walk. -/
def objectStep (self : SessionId) : Step ServerState Status := fun p st m =>
  match translateObject self st m p with
  | none => .error .invalidOperation
  | some r => .ok r

theorem translateLoop_eq_walkArray (self : SessionId) (data : ℕ) :
    ∀ (n current : ℕ) (st : ServerState) (m : Mem), translateLoop self data n current st m =
      ((walkArray (objectStep self) data n current st m).1.getD .ok,
        (walkArray (objectStep self) data n current st m).2)
  | 0, _, _, _ => rfl
  | n + 1, current, st, m => by
    rw [translateLoop, walkArray, objectStep]
    cases translateObject self st m (data + (m current).toNat) with
    | none => rfl
    | some r => exact translateLoop_eq_walkArray self data n (current + 8) r.1 r.2

theorem objectStep_local (self : SessionId) : Local (objectStep self) 24 := by
  intro p st m st' m' h
  unfold objectStep at h
  cases ht : translateObject self st m p with
  | none =>
    rw [ht] at h
    cases h
  | some r =>
    rw [ht] at h
    cases h
    exact translateObject_outside ht

theorem objectStep_ok {self : SessionId} {p : ℕ} {st st' : ServerState} {m m' : Mem}
    (h : objectStep self p st m = .ok (st', m')) : ObjectStep self st m p st' m' := by
  unfold objectStep at h
  cases ht : translateObject self st m p with
  | none =>
    rw [ht] at h
    cases h
  | some r =>
    rw [ht] at h
    cases h
    exact translateObject_step ht

theorem objectStep_error {self : SessionId} {p : ℕ} {st : ServerState} {m : Mem} {e : Status}
    (h : objectStep self p st m = .error e) : objType m p = none := by
  unfold objectStep at h
  cases ht : translateObject self st m p with
  | none => exact translateObject_eq_none.mp ht
  | some r =>
    rw [ht] at h
    cases h

/-- The loop of `TranslateObjects` over the objects at given positions. -/
def translateAt (s : SessionId) (ps : List ℕ) (st : ServerState) (m : Mem) :
    Status × ServerState × Mem :=
  let (failed, st, m) := walk (objectStep s) ps st m
  (failed.getD .ok, st, m)

theorem translateAt_nil (s : SessionId) (st : ServerState) (m : Mem) :
    translateAt s [] st m = (.ok, st, m) := rfl

/-- The loop, unrolled once; the first object is treated alike whatever follows it. -/
theorem translateAt_unroll (s : SessionId) (p : ℕ) (st : ServerState) (m : Mem) :
    (objType m p = none ∧ ∀ ps, translateAt s (p :: ps) st m = (.invalidOperation, st, m)) ∨
      ∃ st' m', ObjectStep s st m p st' m' ∧
        ∀ ps, translateAt s (p :: ps) st m = translateAt s ps st' m' := by
  unfold translateAt
  simp only [walk, objectStep]
  cases h : translateObject s st m p with
  | none => exact .inl ⟨translateObject_eq_none.mp h, fun _ => rfl⟩
  | some r => exact .inr ⟨r.1, r.2, translateObject_step h, fun _ => rfl⟩

theorem translateAt_cons (s : SessionId) (p : ℕ) (ps : List ℕ) (st : ServerState) (m : Mem) :
    (objType m p = none ∧ translateAt s (p :: ps) st m = (.invalidOperation, st, m)) ∨
      ∃ st' m', ObjectStep s st m p st' m' ∧
        translateAt s (p :: ps) st m = translateAt s ps st' m' :=
  (translateAt_unroll s p st m).imp (fun h => ⟨h.1, h.2 ps⟩)
    fun ⟨st', m', hstep, h⟩ => ⟨st', m', hstep, h ps⟩

theorem translateAt_exports (s : SessionId) : ∀ (ps : List ℕ) (st : ServerState) (m : Mem),
    Exports s st (translateAt s ps st m).2.1
  | [], _, _ => .refl
  | p :: ps, st, m => by
    rcases translateAt_cons s p ps st m with ⟨-, he⟩ | ⟨st', m', hstep, he⟩
    · rw [he]
      exact .refl
    · rw [he]
      exact hstep.exports.trans (translateAt_exports s ps st' m')

/-- The loop over the array of offsets is the loop over the positions it holds, as long as the
objects lie in a range that the array is outside of. -/
theorem translateLoop_eq (s : SessionId) (data a w n current : ℕ) (st : ServerState) (m : Mem)
    (hcur : ∀ i < n, current + 8 * i < a ∨ a + w ≤ current + 8 * i)
    (hpos : ∀ i < n, a ≤ data + (m (current + 8 * i)).toNat ∧
      data + (m (current + 8 * i)).toNat + 24 ≤ a + w) :
    translateLoop s data n current st m = translateAt s (positions m data n current) st m := by
  have hin : ∀ v ∈ visits (objectStep s) (positions m data n current) st m,
      v.Inside 24 a w := by
    intro v hv
    obtain ⟨i, hi, hv⟩ := List.mem_map.mp (mem_of_visits hv)
    rw [Visit.Inside, ← hv]
    exact hpos i (List.mem_range.mp hi)
  rw [translateLoop_eq_walkArray, (walkArray_eq (objectStep_local s) hcur (.inl hin)).2]
  rfl

theorem translateAt_frame (s : SessionId) {i : ℕ} (ps : List ℕ) (st : ServerState) (m : Mem)
    (h : ∀ p ∈ ps, i < p ∨ p + 24 ≤ i) : (translateAt s ps st m).2.2 i = m i :=
  walk_frame (objectStep_local s) h st m

theorem translateAt_outside (s : SessionId) {a w : ℕ} (ps : List ℕ) (st : ServerState) (m : Mem)
    (h : ∀ p ∈ ps, a ≤ p ∧ p + 24 ≤ a + w) : SameOutside a w m (translateAt s ps st m).2.2 := by
  intro i hi
  refine translateAt_frame s ps st m fun p hp => ?_
  have := h p hp
  omega

/-! ### Objects inside the data -/

/-- The offsets a Transaction message lists, as 64-bit numbers. -/
def objectOffsets (payload : List UInt8) : List ℕ :=
  (decoded payload).listedOffsets (ofList payload)

/-- The positions of the objects in the message. The data of a transaction start at `28`. -/
def objectPositions (payload : List UInt8) : List ℕ := (objectOffsets payload).map (28 + ·)

/-- The objects lie inside the data of the transaction. -/
def InsideData (payload : List UInt8) : Prop :=
  ∀ o ∈ objectOffsets payload, o + 24 ≤ (decoded payload).data.size

instance (payload : List UInt8) : Decidable (InsideData payload) := by
  unfold InsideData; infer_instance

/-- The payload of the Transaction that the step processes satisfies `P`, if it can be decoded. -/
def ListsObjects (P : List UInt8 → Prop) (e : ServerStep) : Prop :=
  match e.action with
  | .process _ msg _ => msg.type = .transaction → Complete msg.data → P msg.data
  | _ => True

instance (P : List UInt8 → Prop) [DecidablePred P] : DecidablePred (ListsObjects P)
  | ⟨_, .process _ msg _, _, _⟩ => inferInstanceAs
      (Decidable (msg.type = .transaction → Complete msg.data → P msg.data))
  | ⟨_, .accept, _, _⟩ => isTrue trivial
  | ⟨_, .terminate .., _, _⟩ => isTrue trivial

/-- The objects of the Transaction that the step processes lie inside its data. -/
abbrev ListsInside : ServerStep → Prop := ListsObjects InsideData

theorem dataSize_lt (payload : List UInt8) : (decoded payload).data.size < 256 := byteOf_lt ..

theorem InsideData.positions {payload : List UInt8} (h : InsideData payload) :
    ∀ p ∈ objectPositions payload, 28 ≤ p ∧ p + 24 ≤ 28 + (decoded payload).data.size := by
  intro p hp
  obtain ⟨o, ho, rfl⟩ := List.mem_map.mp hp
  have := h o ho
  constructor <;> omega

/-- The memory holds the message, apart from the transaction's own data. -/
def Holds (payload : List UInt8) (m : Mem) : Prop :=
  ∀ i < payload.length, i < 28 ∨ 28 + (decoded payload).data.size ≤ i → m i = payload.getD i 0

theorem memoryOf_of_lt {msg : Message} {i : ℕ} (hi : i < msg.data.length) (beyond : List UInt8) :
    memoryOf msg beyond i = msg.data.getD i 0 := by
  simp [memoryOf, ofList, List.getD_eq_getElem?_getD, List.getElem?_append_left hi]

theorem holds_memoryOf (msg : Message) (beyond : List UInt8) :
    Holds msg.data (memoryOf msg beyond) :=
  fun _ hi _ => memoryOf_of_lt hi beyond

theorem Holds.outside {payload : List UInt8} {m m' : Mem} (h : Holds payload m)
    (hs : SameOutside 28 (decoded payload).data.size m m') : Holds payload m' := by
  intro i hi hi'
  rw [hs i hi', h i hi hi']

/-- **The loop translates the objects the sender listed.** -/
theorem translateObjects_eq {payload : List UInt8} (hc : Complete payload)
    (hin : InsideData payload) {m : Mem} (hm : Holds payload m) (s : SessionId) (st : ServerState) :
    translateObjects s (decoded payload) st m =
      some (translateAt s (objectPositions payload) st m) := by
  have hsize := dataSize_lt payload
  have hcomplete := complete_iff.mp hc
  have hstart : (decoded payload).objects.start = 32 + (decoded payload).data.size := rfl
  have hnum : (decoded payload).numObjectOffsets = (decoded payload).objects.size / 8 := rfl
  -- an offset inside the data is below `256`, so the byte that is read is the whole of it
  have hbyte : ∀ i < (decoded payload).numObjectOffsets,
      (m (32 + (decoded payload).data.size + 8 * i)).toNat =
        load (ofList payload) (32 + (decoded payload).data.size + 8 * i) 8 ∧
      load (ofList payload) (32 + (decoded payload).data.size + 8 * i) 8 + 24 ≤
        (decoded payload).data.size := by
    intro i hi
    have hmem : load (ofList payload) (32 + (decoded payload).data.size + 8 * i) 8 ∈
        objectOffsets payload := List.mem_map.mpr ⟨i, List.mem_range.mpr hi, rfl⟩
    have hle := hin _ hmem
    refine ⟨?_, hle⟩
    have hlt : load (ofList payload) (32 + (decoded payload).data.size + 8 * i) (7 + 1) < 256 :=
      lt_of_le_of_lt (Nat.le_of_add_right_le hle) hsize
    rw [hm _ (by omega) (by omega)]
    exact toNat_of_load_lt hlt
  refine translateObjects_eq_some.mpr ⟨TransactionData.not_listsNull_of_inside hin, ?_⟩
  rw [hstart, show (decoded payload).data.start = 28 from rfl,
    translateLoop_eq s 28 28 (decoded payload).data.size _ _ st m (fun i _ => by omega)
      (fun i hi => by rw [(hbyte i hi).1]; have := (hbyte i hi).2; omega)]
  congr 1
  unfold positions objectPositions objectOffsets TransactionData.listedOffsets
  rw [List.map_map]
  refine List.map_congr_left fun i hi => ?_
  rw [(hbyte i (List.mem_range.mp hi)).1]
  rfl

theorem listsNull_newTransaction (obj : BinderObject) (tr : TransactionData) :
    (newTransaction obj tr).ListsNull ↔ tr.ListsNull := by
  have hnum : (newTransaction obj tr).numObjectOffsets = tr.numObjectOffsets :=
    Nat.mul_div_cancel _ (show 0 < 8 by omega)
  unfold TransactionData.ListsNull
  rw [hnum]
  rfl

/-- The target's pass goes over the same objects as the caller's. -/
theorem translateObjects_newTransaction (t : SessionId) (obj : BinderObject) (tr : TransactionData)
    (st : ServerState) (m : Mem) :
    translateObjects t (newTransaction obj tr) st m = translateObjects t tr st m := by
  have hnum : (newTransaction obj tr).numObjectOffsets = tr.numObjectOffsets :=
    Nat.mul_div_cancel _ (show 0 < 8 by omega)
  unfold translateObjects
  simp only [listsNull_newTransaction, hnum]
  rfl

/-- Decoding the message after the caller's pass gives what it gave before. -/
theorem decoded_inMemory {msg : Message} {m : Mem}
    (hm : Holds msg.data m) : decoded (inMemory msg m).data = decoded msg.data := by
  symm
  refine decoded_congr fun i hi => ?_
  by_cases hlen : i < msg.data.length
  · rw [inMemory, slice_getD hlen, Nat.zero_add, hm i hlen hi]
  · rw [List.getD_eq_default _ _ (by omega),
      List.getD_eq_default _ _ (by simp [inMemory]; omega)]

/-! ### An object at a null pointer -/

/-- The daemon dies of the message: a Transaction that lists an object and has no data. -/
def Crashes (msg : Message) : Prop :=
  msg.type = .transaction ∧ Complete msg.data ∧ (decoded msg.data).ListsNull

instance (msg : Message) : Decidable (Crashes msg) := inferInstanceAs (Decidable (_ ∧ _))

/-- If the caller's call returns, the message that it leaves does not list an object for no data
either: the size of the data lies before all objects. -/
theorem not_listsNull_after {s : SessionId} {st st₁ : ServerState} {msg : Message}
    {beyond : List UInt8} {status : Status} {m₁ : Mem} (hc : Complete msg.data)
    (h : translateObjects s (decoded msg.data) st (memoryOf msg beyond) = some (status, st₁, m₁)) :
    ¬ (decoded (inMemory msg m₁).data).ListsNull := by
  obtain ⟨hnull, hloop⟩ := translateObjects_eq_some.mp h
  have hlen := complete_iff.mp hc
  have hstart : (decoded msg.data).objects.start = 32 + (decoded msg.data).data.size := rfl
  have hsize : (decoded (inMemory msg m₁).data).data.size = (decoded msg.data).data.size := by
    have hkept : m₁ 24 = memoryOf msg beyond 24 := by
      have hbelow : (walkArray (objectStep s) (decoded msg.data).data.start
          (decoded msg.data).numObjectOffsets (decoded msg.data).objects.start st
            (memoryOf msg beyond)).2.2 24 = memoryOf msg beyond 24 :=
        walkArray_below (objectStep_local s) (show 24 < 28 by omega)
      rw [translateLoop_eq_walkArray] at hloop
      rwa [(Prod.mk.inj hloop).2] at hbelow
    have hbyte : (inMemory msg m₁).data.getD 24 0 = msg.data.getD 24 0 := by
      rw [inMemory, slice_getD (by omega), Nat.zero_add, hkept, memoryOf_of_lt (by omega)]
    exact congrArg UInt8.toNat hbyte
  rintro ⟨hzero, hpos⟩
  unfold View.IsNull at hzero
  rw [hsize] at hzero
  -- no object is listed, so the loop has changed nothing
  have hnone : (decoded msg.data).numObjectOffsets = 0 := by
    by_contra hne
    exact hnull ⟨hzero, Nat.pos_of_ne_zero hne⟩
  rw [hnone, translateLoop] at hloop
  cases hloop
  rw [decoded_inMemory (holds_memoryOf msg beyond), hnone] at hpos
  exact lt_irrefl _ hpos

theorem postTransaction_ne_none {st : ServerState} {t : SessionId} {record : TransactionRecord}
    {m : Mem} (hn : ¬ (decoded record.message.data).ListsNull) :
    postTransaction st t record m ≠ none := by
  simp only [postTransaction, drawCookie_objectForHandle]
  cases objectForHandle (st.sessions t) record.message.destination with
  | none => simp
  | some obj =>
    by_cases hc : Complete record.message.data
    · simp only [fromMessage_of_complete hc]
      cases htr : translateObjects t (newTransaction obj (decoded record.message.data))
        (drawCookie st t) m with
      | none =>
        rw [translateObjects_eq_none, listsNull_newTransaction] at htr
        exact absurd htr hn
      | some r =>
        obtain ⟨status, st', m'⟩ := r
        cases status <;> simp
    · simp [fromMessage_of_not_complete hc]

/-- **The daemon dies in `OnTransaction`** if and only if an object is listed for no data: the
caller's call is the one that goes to it. -/
theorem onTransaction_eq_none {st : ServerState} {s : SessionId} {msg : Message}
    {beyond : List UInt8} : onTransaction st s msg beyond = none ↔
      Complete msg.data ∧ (decoded msg.data).ListsNull := by
  by_cases hc : Complete msg.data
  · simp only [onTransaction, fromMessage_of_complete hc, hc, true_and]
    cases htr : translateObjects s (decoded msg.data) st (memoryOf msg beyond) with
    | none => exact iff_of_true rfl (translateObjects_eq_none.mp htr)
    | some r =>
      obtain ⟨status₁, st₁, m₁⟩ := r
      refine iff_of_false ?_ (translateObjects_eq_some.mp htr).1
      simp only
      cases findSessionByHandle st₁.registry msg.destination with
      | none => simp
      | some t =>
        have hpost : postTransaction st₁ t ⟨s, msg.cookie, inMemory msg m₁⟩ m₁ ≠ none :=
          postTransaction_ne_none (not_listsNull_after hc htr)
        simpa using hpost
  · simp [onTransaction, fromMessage_of_not_complete hc, hc]

theorem processMessage_crashed_iff {st : ServerState} {s : SessionId} {msg : Message}
    {beyond : List UInt8} :
    processMessage st s msg beyond = .error .crashed ↔ Crashes msg := by
  have hmap : ∀ {α : Type} (x : Except Exn α), x.mapError Failure.thrown ≠ .error .crashed := by
    intro α x hx
    cases x <;> cases hx
  unfold Crashes
  by_cases ht : msg.type = .transaction
  · have hnone : onTransaction st s msg beyond = none ↔ _ := onTransaction_eq_none
    rw [← hnone]
    simp only [processMessage, ht, true_and]
    cases onTransaction st s msg beyond <;> simp
  · refine iff_of_false (fun h => ?_) fun h => ht h.1
    unfold processMessage at h
    split at h <;> first | exact absurd ‹_› ht | cases h | exact hmap _ h

/-! ### Both passes of a delivery -/

section Passes

variable {st : ServerState} {s : SessionId} {msg : Message} {beyond : List UInt8}
  (d : Delivery st s msg beyond) (hin : InsideData msg.data)

include hin in
theorem callerPass : translateAt s (objectPositions msg.data) st (memoryOf msg beyond) =
    (d.status₁, d.st₁, d.m₁) := by
  have htr := d.translate
  rw [translateObjects_eq d.complete hin (holds_memoryOf msg beyond)] at htr
  exact Option.some.inj htr

include hin in
theorem callerPass_outside :
    SameOutside 28 (decoded msg.data).data.size (memoryOf msg beyond) d.m₁ := by
  have h := translateAt_outside s (objectPositions msg.data) st (memoryOf msg beyond) hin.positions
  rwa [callerPass d hin] at h

include hin in
theorem transaction_eq : d.transaction = newTransaction d.obj (decoded msg.data) := by
  have hm := (holds_memoryOf msg beyond).outside (callerPass_outside d hin)
  rw [Delivery.transaction, decoded_inMemory hm]

include hin in
theorem targetPass : translateAt d.target (objectPositions msg.data)
    (drawCookie d.st₁ d.target) d.m₁ = (.ok, d.st₂, d.m₂) := by
  have hm := (holds_memoryOf msg beyond).outside (callerPass_outside d hin)
  have htr := d.delivers.translate
  simp only [decoded_inMemory hm] at htr
  rw [translateObjects_newTransaction, translateObjects_eq d.complete hin hm] at htr
  exact Option.some.inj htr

include hin in
theorem passes_frame {i : ℕ} (hi : i < msg.data.length)
    (h : ∀ p ∈ objectPositions msg.data, i < p ∨ p + 24 ≤ i) : d.m₂ i = msg.data.getD i 0 := by
  have h1 := translateAt_frame s (objectPositions msg.data) st (memoryOf msg beyond) h
  have h2 := translateAt_frame d.target (objectPositions msg.data) (drawCookie d.st₁ d.target)
    d.m₁ h
  rw [callerPass d hin] at h1
  rw [targetPass d hin] at h2
  exact h2.trans (h1.trans (memoryOf_of_lt hi beyond))

theorem packed_message : Packed d.transaction d.m₂ d.message.data := by
  have hdata : d.transaction.data.size < 256 := dataSize_lt _
  have hnum : d.transaction.numObjectOffsets * 8 < 256 := by
    have hlt : (decoded (inMemory msg d.m₁).data).objects.size < 256 := byteOf_lt ..
    have hle := Nat.div_mul_le_self (decoded (inMemory msg d.m₁).data).objects.size 8
    simp only [Delivery.transaction, newTransaction, TransactionData.numObjectOffsets,
      Nat.mul_div_cancel _ (show 0 < 8 by omega)]
    omega
  exact packed_packTransaction d.transaction d.m₂ _ hdata hnum

end Passes

end Binderd.Broker.Translation
