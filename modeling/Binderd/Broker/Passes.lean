import Binderd.Broker.Objects

/-! # The objects that `TranslateObjects` comes to

While `OnTransaction` processes a message it calls `TranslateObjects` up to twice (`passes`): for
the caller, and in `PostTransaction` for the target. Each call is a walk over the array of offsets,
and `Pass.met` are the objects it comes to; the first one of an invalid type is the last. A call
that is to go to an object at a null pointer gets no further.

If the objects do not overlap, what a pass comes to can be read off the message: the objects that
are listed up to the first one of an invalid type (`met_iff_untilInvalid`). Nothing checks that an
object lies inside the data of the transaction, so the passes stay inside it if and only if the
listed objects do, up to that one (`passes_inside_iff`). -/

namespace Binderd.Broker.Passes

open Binderd.Lib.Bytes Binderd.Lib.Tables Binderd.Lib.Runs Binderd.Lib.Walks
open Binderd.Wire.Streams Binderd.Wire.Messages Binderd.Wire.Transactions
open Binderd.Broker.State Binderd.Broker.Handles Binderd.Broker.Sessions Binderd.Broker.Effects
open Binderd.Broker.Translation Binderd.Broker.Objects

/-- A call of `TranslateObjects`. -/
structure Pass where
  self : SessionId
  tr : TransactionData
  st : ServerState
  m : Mem

namespace Pass

/-- What the loop of the call returns and leaves. -/
def result (p : Pass) : Status × ServerState × Mem :=
  translateLoop p.self p.tr.data.start p.tr.numObjectOffsets p.tr.objects.start p.st p.m

/-- The objects that the call comes to, with the state and the memory it finds. Where there are no
data, no object lies inside them. -/
def met (p : Pass) : List (Visit ServerState) :=
  visitsArray (objectStep p.self) p.tr.data.start p.tr.numObjectOffsets p.tr.objects.start p.st p.m

/-- The objects lie inside the data of the transaction. -/
def StaysInside (p : Pass) : Prop :=
  ∀ v ∈ p.met, v.position + 24 ≤ p.tr.data.start + p.tr.data.size

end Pass

/-- The call in `OnTransaction`. -/
def callerCall (st : ServerState) (s : SessionId) (msg : Message) (beyond : List UInt8)
    (tr : TransactionData) : Pass := ⟨s, tr, st, memoryOf msg beyond⟩

/-- The call in `PostTransaction`, if it is made, after the one in `OnTransaction`. -/
def targetCall (msg : Message) (st₁ : ServerState) (m₁ : Mem) : Option Pass :=
  match findSessionByHandle st₁.registry msg.destination with
  | none => none
  | some target =>
    match objectForHandle (st₁.sessions target) msg.destination, fromMessage (inMemory msg m₁).data
    with
    | some obj, .ok oldTr => some ⟨target, newTransaction obj oldTr, drawCookie st₁ target, m₁⟩
    | _, _ => none

/-- The calls of `TranslateObjects` while `OnTransaction` processes the message. After one that goes
to an object at a null pointer there is no other. -/
def passes (st : ServerState) (s : SessionId) (msg : Message) (beyond : List UInt8) : List Pass :=
  match fromMessage msg.data with
  | .error _ => []
  | .ok tr =>
    let call := callerCall st s msg beyond tr
    if tr.ListsNull then [call]
    else call :: (targetCall msg call.result.2.1 call.result.2.2).toList

/-! ### Up to the first object of an invalid type -/

/-- `P` holds of the objects at these positions, up to the first one of an invalid type. -/
def UntilInvalid (P : ℕ → Option ObjectType → Prop) (m : Mem) : List ℕ → Prop
  | [] => True
  | p :: ps => P p (objType m p) ∧ (objType m p = none ∨ UntilInvalid P m ps)

instance decidableUntilInvalid (P : ℕ → Option ObjectType → Prop) [∀ p t, Decidable (P p t)]
    (m : Mem) : ∀ ps, Decidable (UntilInvalid P m ps)
  | [] => isTrue trivial
  | p :: ps =>
    have := decidableUntilInvalid P m ps
    inferInstanceAs (Decidable (P p (objType m p) ∧ (objType m p = none ∨ UntilInvalid P m ps)))

section UntilInvalid

variable {P : ℕ → Option ObjectType → Prop} {m m' : Mem} {ps : List ℕ}

theorem untilInvalid_congr (hs : ∀ p ∈ ps, SameAt p m m') :
    UntilInvalid P m' ps ↔ UntilInvalid P m ps := by
  induction ps with
  | nil => exact Iff.rfl
  | cons p ps ih =>
    unfold UntilInvalid
    rw [(hs p (by simp)).type, ih fun q hq => hs q (by simp [hq])]

/-- **What a walk comes to** if the objects do not overlap. -/
theorem met_iff_untilInvalid (self : SessionId) (st : ServerState) (hap : Separate 24 ps) :
    (∀ v ∈ visits (objectStep self) ps st m, P v.position (objType v.mem v.position)) ↔
      UntilInvalid P m ps := by
  induction ps generalizing st m with
  | nil => simp [visits, UntilInvalid]
  | cons p ps ih =>
    obtain ⟨hp, hrest⟩ := List.pairwise_cons.mp hap
    rw [visits, List.forall_mem_cons, UntilInvalid]
    refine and_congr_right fun _ => ?_
    cases hs : objectStep self p st m with
    | error e => simp [objectStep_error hs]
    | ok r =>
      obtain ⟨st', m'⟩ := r
      have hstep := objectStep_ok hs
      simp only [hstep.typed, false_or]
      rw [ih st' hrest]
      exact untilInvalid_congr fun q hq => sameAt_of_step hstep (hp q hq).symm

/-- After a walk the same objects come before the first one of an invalid type. -/
theorem untilInvalid_walk (hP : ∀ p t t', P p (some t) → t' ≠ .binder → P p (some t'))
    (self : SessionId) (st : ServerState) (hap : Separate 24 ps) (h : UntilInvalid P m ps) :
    UntilInvalid P (walk (objectStep self) ps st m).2.2 ps := by
  induction ps generalizing st m with
  | nil => trivial
  | cons p ps ih =>
    obtain ⟨hp, hrest⟩ := List.pairwise_cons.mp hap
    rw [walk]
    cases hs : objectStep self p st m with
    | error e => exact h
    | ok r =>
      obtain ⟨st', m'⟩ := r
      have hstep := objectStep_ok hs
      obtain ⟨hhead, hn | htail⟩ := h
      · exact absurd hn hstep.typed
      · -- the object is translated, and the rest of the walk leaves it alone
        obtain ⟨t', ht', hne⟩ := hstep.not_binder
        obtain ⟨t, ht⟩ := Option.ne_none_iff_exists'.mp hstep.typed
        have hsame : SameAt p m' (walk (objectStep self) ps st' m').2.2 := fun i h1 h2 =>
          walk_frame (objectStep_local self) (fun q hq => by have := hp q hq; omega) st' m'
        rw [ht] at hhead
        simp only
        refine ⟨?_, .inr (ih st' hrest ?_)⟩
        · rw [hsame.type, ht']
          exact hP p t t' hhead hne
        · exact (untilInvalid_congr fun q hq => sameAt_of_step hstep (hp q hq).symm).mpr htail

end UntilInvalid

/-! ### Passes over the objects of a message -/

/-- The positions that the offsets of a message name. -/
def namedPositions (payload : List UInt8) : List ℕ :=
  (decoded payload).namedPositions (ofList payload)

/-- The end of the data of the transaction. -/
def dataEnd (payload : List UInt8) : ℕ := 28 + (decoded payload).data.size

/-- The pass is over the objects of the message, which is as it was sent outside its data. -/
structure Pass.Over (p : Pass) (payload : List UInt8) : Prop where
  data : p.tr.data = (decoded payload).data
  offsets : p.tr.objects.start = (decoded payload).objects.start
  num : p.tr.numObjectOffsets = (decoded payload).numObjectOffsets
  holds : Holds payload p.m

theorem offset_outside {payload : List UInt8} (hc : Complete payload) {i : ℕ}
    (hi : i < (decoded payload).numObjectOffsets) :
    dataEnd payload ≤ (decoded payload).objects.start + 8 * i ∧
      (decoded payload).objects.start + 8 * i < payload.length := by
  have hcomplete := complete_iff.mp hc
  have hstart : (decoded payload).objects.start = 32 + (decoded payload).data.size := rfl
  have hnum : (decoded payload).numObjectOffsets = (decoded payload).objects.size / 8 := rfl
  unfold dataEnd
  omega

theorem positions_of_holds {payload : List UInt8} (hc : Complete payload) {m : Mem}
    (hm : Holds payload m) :
    positions m 28 (decoded payload).numObjectOffsets (decoded payload).objects.start =
      namedPositions payload := by
  unfold namedPositions TransactionData.namedPositions positions
  refine List.map_congr_left fun i hi => ?_
  obtain ⟨h1, h2⟩ := offset_outside hc (List.mem_range.mp hi)
  rw [hm _ h2 (.inr h1)]
  rfl

/-- The walk over the positions that the message names stays inside its data. -/
def WalkInside (payload : List UInt8) (self : SessionId) (st : ServerState) (m : Mem) : Prop :=
  ∀ v ∈ visits (objectStep self) (namedPositions payload) st m, v.position + 24 ≤ dataEnd payload

section Over

variable {payload : List UInt8} {p : Pass} (hc : Complete payload) (ho : p.Over payload)

include hc ho

/-- **A pass that stays inside the data is the walk over the positions that the message names.** -/
theorem Pass.Over.eq_walk (h : WalkInside payload p.self p.st p.m ∨ p.StaysInside) :
    p.met = visits (objectStep p.self) (namedPositions payload) p.st p.m ∧
      p.result.2 = (walk (objectStep p.self) (namedPositions payload) p.st p.m).2 := by
  have hstart : p.tr.data.start = 28 := by rw [ho.data]; rfl
  have hend : p.tr.data.start + p.tr.data.size = dataEnd payload := by rw [ho.data]; rfl
  have hin : (∀ v ∈ visits (objectStep p.self) (namedPositions payload) p.st p.m,
      v.Inside 24 28 (decoded payload).data.size) ∨
      ∀ v ∈ visitsArray (objectStep p.self) 28 (decoded payload).numObjectOffsets
        (decoded payload).objects.start p.st p.m, v.Inside 24 28 (decoded payload).data.size := by
    refine h.imp (fun h v hv => ⟨mem_positions (mem_of_visits hv), h v hv⟩) fun h v hv => ?_
    have hv' := h v (by rwa [Pass.met, hstart, ho.num, ho.offsets])
    rw [hend] at hv'
    obtain ⟨b, hb⟩ := position_of_visitsArray hv
    exact ⟨hb ▸ Nat.le_add_right _ _, hv'⟩
  rw [← positions_of_holds hc ho.holds] at hin ⊢
  obtain ⟨h1, h2⟩ := walkArray_eq (objectStep_local p.self)
    (fun i hi => .inr (offset_outside hc hi).1) hin
  refine ⟨?_, ?_⟩
  · rw [Pass.met, hstart, ho.num, ho.offsets, h1]
  · rw [Pass.result, translateLoop_eq_walkArray, hstart, ho.num, ho.offsets, h2]

theorem Pass.Over.staysInside_iff : p.StaysInside ↔ WalkInside payload p.self p.st p.m := by
  have hend : p.tr.data.start + p.tr.data.size = dataEnd payload := by rw [ho.data]; rfl
  constructor
  · intro h v hv
    rw [← (ho.eq_walk hc (.inr h)).1] at hv
    have := h v hv
    rwa [hend] at this
  · intro h v hv
    rw [(ho.eq_walk hc (.inl h)).1] at hv
    rw [hend]
    exact h v hv

/-- A pass that stays inside the data leaves the message as it was outside. -/
theorem Pass.Over.holds_after (h : p.StaysInside) : Holds payload p.result.2.2 := by
  have hw := (ho.staysInside_iff hc).mp h
  rw [(ho.eq_walk hc (.inr h)).2]
  refine ho.holds.outside fun i hi => walk_frame_visits (objectStep_local p.self) fun v hv => ?_
  have h1 : 28 ≤ v.position := mem_positions (mem_of_visits hv)
  have h2 : v.position + 24 ≤ 28 + (decoded payload).data.size := hw v hv
  omega

end Over

/-! ### Both passes -/

section Both

variable {st : ServerState} {s : SessionId} {msg : Message} {beyond : List UInt8}

theorem over_callerCall : (callerCall st s msg beyond (decoded msg.data)).Over msg.data :=
  ⟨rfl, rfl, rfl, holds_memoryOf msg beyond⟩

theorem passes_of_complete (st : ServerState) (s : SessionId) (beyond : List UInt8)
    (hc : Complete msg.data) :
    passes st s msg beyond = if (decoded msg.data).ListsNull then
        [callerCall st s msg beyond (decoded msg.data)]
      else callerCall st s msg beyond (decoded msg.data) ::
        (targetCall msg (callerCall st s msg beyond (decoded msg.data)).result.2.1
          (callerCall st s msg beyond (decoded msg.data)).result.2.2).toList := by
  unfold passes
  rw [fromMessage_of_complete hc]

theorem targetCall_some {st₁ : ServerState} {m₁ : Mem} {p : Pass}
    (h : targetCall msg st₁ m₁ = some p) : Complete (inMemory msg m₁).data ∧
      ∃ target obj, p = ⟨target, newTransaction obj (decoded (inMemory msg m₁).data),
        drawCookie st₁ target, m₁⟩ := by
  unfold targetCall at h
  split at h
  · cases h
  next target _ =>
    split at h
    · next _ _ obj oldTr _ htr =>
      by_cases hc : Complete (inMemory msg m₁).data
      · rw [fromMessage_of_complete hc] at htr
        cases htr
        cases h
        exact ⟨hc, target, obj, rfl⟩
      · rw [fromMessage_of_not_complete hc] at htr
        cases htr
    · cases h

/-- If the caller's pass stays inside the data, the target's is over the same objects. -/
theorem over_targetCall {st₁ : ServerState} {m₁ : Mem} (hm : Holds msg.data m₁) {p : Pass}
    (h : targetCall msg st₁ m₁ = some p) : p.Over msg.data ∧ p.m = m₁ := by
  obtain ⟨-, target, obj, rfl⟩ := targetCall_some h
  rw [decoded_inMemory hm]
  exact ⟨⟨rfl, rfl, Nat.mul_div_cancel _ (by omega), hm⟩, rfl⟩

/-- Both passes have a property if the caller's has it, and the target's then has it too. -/
theorem forall_passes_iff (hc : Complete msg.data) {Q : Pass → Prop} {R : Prop}
    (hcaller : Q (callerCall st s msg beyond (decoded msg.data)) ↔ R)
    (htarget : R → ∀ p, targetCall msg (callerCall st s msg beyond (decoded msg.data)).result.2.1
      (callerCall st s msg beyond (decoded msg.data)).result.2.2 = some p → Q p) :
    (∀ p ∈ passes st s msg beyond, Q p) ↔ R := by
  rw [passes_of_complete st s beyond hc]
  split_ifs
  · rw [List.forall_mem_singleton, hcaller]
  rw [List.forall_mem_cons, hcaller]
  refine and_iff_left_of_imp fun hR p hp => htarget hR p ?_
  rwa [Option.mem_toList] at hp

/-- The objects that a message names lie inside its data. -/
def NamesInside (payload : List UInt8) : Prop :=
  ∀ p ∈ namedPositions payload, p + 24 ≤ dataEnd payload

instance (payload : List UInt8) : Decidable (NamesInside payload) := by
  unfold NamesInside; infer_instance

/-- The objects that a message names lie inside its data, up to the first one of an invalid type. -/
def NamesInsideUntilInvalid (payload : List UInt8) : Prop :=
  UntilInvalid (fun p _ => p + 24 ≤ dataEnd payload) (ofList payload) (namedPositions payload)

instance (payload : List UInt8) : Decidable (NamesInsideUntilInvalid payload) := by
  unfold NamesInsideUntilInvalid; infer_instance

theorem NamesInside.walkInside {payload : List UInt8} (h : NamesInside payload)
    (self : SessionId) (st : ServerState) (m : Mem) : WalkInside payload self st m := by
  intro v hv
  exact h _ (mem_of_visits hv)

/-- An object inside the data is in memory as it was sent. -/
theorem untilInvalid_memoryOf (hc : Complete msg.data) (ps : List ℕ) :
    UntilInvalid (fun p _ => p + 24 ≤ dataEnd msg.data) (memoryOf msg beyond) ps ↔
      UntilInvalid (fun p _ => p + 24 ≤ dataEnd msg.data) (ofList msg.data) ps := by
  induction ps with
  | nil => exact Iff.rfl
  | cons p ps ih =>
    unfold UntilInvalid
    refine and_congr_right fun hp => ?_
    have hsame : SameAt p (ofList msg.data) (memoryOf msg beyond) := by
      intro i h1 h2
      have hlen := complete_iff.mp hc
      have hstart : (decoded msg.data).objects.start = 32 + (decoded msg.data).data.size := rfl
      unfold dataEnd at hp
      exact memoryOf_of_lt (show i < msg.data.length by omega) beyond
    rw [hsame.type, ih]

/-- The caller's pass stays inside the data if what the message names does. -/
theorem callerCall_inside_iff (st : ServerState) (s : SessionId) (beyond : List UInt8)
    (hc : Complete msg.data) (hap : Separate 24 (namedPositions msg.data)) :
    (callerCall st s msg beyond (decoded msg.data)).StaysInside ↔
      NamesInsideUntilInvalid msg.data := by
  rw [over_callerCall.staysInside_iff hc]
  exact (met_iff_untilInvalid s st hap (P := fun p _ => p + 24 ≤ dataEnd msg.data)).trans
    (untilInvalid_memoryOf hc _)

/-- If the objects that the message names lie inside its data, both passes are over them and stay
inside, and the target's finds the memory as the caller's has left it. -/
theorem passes_of_namesInside (st : ServerState) (s : SessionId) (beyond : List UInt8)
    (hc : Complete msg.data) (hin : NamesInside msg.data) :
    (callerCall st s msg beyond (decoded msg.data)).StaysInside ∧
      ∀ p, targetCall msg (callerCall st s msg beyond (decoded msg.data)).result.2.1
        (callerCall st s msg beyond (decoded msg.data)).result.2.2 = some p →
        p.Over msg.data ∧ p.StaysInside ∧
          p.m = (walk (objectStep s) (namedPositions msg.data) st (memoryOf msg beyond)).2.2 := by
  have hcaller : (callerCall st s msg beyond (decoded msg.data)).StaysInside :=
    (over_callerCall.staysInside_iff hc).mpr (hin.walkInside _ _ _)
  refine ⟨hcaller, fun p hp => ?_⟩
  obtain ⟨hover, hm⟩ := over_targetCall (over_callerCall.holds_after hc hcaller) hp
  refine ⟨hover, (hover.staysInside_iff hc).mpr (hin.walkInside _ _ _), ?_⟩
  rw [hm, (over_callerCall.eq_walk hc (.inr hcaller)).2]
  rfl

/-- **What both passes come to**, if the objects that the message names lie inside its data and do
not overlap. -/
theorem forall_met_iff {P : ℕ → Option ObjectType → Prop}
    (hP : ∀ p t t', P p (some t) → t' ≠ .binder → P p (some t')) (hc : Complete msg.data)
    (hin : NamesInside msg.data) (hap : Separate 24 (namedPositions msg.data)) :
    (∀ p ∈ passes st s msg beyond, ∀ v ∈ p.met, P v.position (objType v.mem v.position)) ↔
      UntilInvalid P (ofList msg.data) (namedPositions msg.data) := by
  obtain ⟨hcaller, htarget⟩ := passes_of_namesInside st s beyond hc hin
  have hsent : UntilInvalid P (memoryOf msg beyond) (namedPositions msg.data) ↔
      UntilInvalid P (ofList msg.data) (namedPositions msg.data) := by
    refine untilInvalid_congr fun p hp i h1 h2 => ?_
    have hpos := hin p hp
    have hlen := complete_iff.mp hc
    have hstart : (decoded msg.data).objects.start = 32 + (decoded msg.data).data.size := rfl
    unfold dataEnd at hpos
    exact memoryOf_of_lt (show i < msg.data.length by omega) beyond
  refine forall_passes_iff hc ?_ fun hR p hp => ?_
  · rw [(over_callerCall.eq_walk hc (.inr hcaller)).1]
    exact (met_iff_untilInvalid s st hap).trans hsent
  · obtain ⟨hover, hstays, hm⟩ := htarget p hp
    rw [(hover.eq_walk hc (.inr hstays)).1, hm]
    exact (met_iff_untilInvalid p.self p.st hap).mpr
      (untilInvalid_walk hP s st hap (hsent.mpr hR))

/-- **Translation inside the data.** Both passes stay inside the data of the transaction if the
objects that the message names lie inside it. If these do not overlap, the passes stay inside if and
only if the objects do up to the first one of an invalid type. -/
theorem passes_inside_iff (st : ServerState) (s : SessionId) (msg : Message) (beyond : List UInt8)
    (hc : Complete msg.data) :
    (NamesInside msg.data → ∀ p ∈ passes st s msg beyond, p.StaysInside) ∧
    (Separate 24 (namedPositions msg.data) →
      ((∀ p ∈ passes st s msg beyond, p.StaysInside) ↔ NamesInsideUntilInvalid msg.data)) := by
  refine ⟨fun hin => ?_, fun hap => ?_⟩
  · obtain ⟨hcaller, htarget⟩ := passes_of_namesInside st s beyond hc hin
    refine (forall_passes_iff hc (iff_of_true hcaller trivial) fun _ p hp => ?_).mpr trivial
    exact (htarget p hp).2.1
  · refine forall_passes_iff hc (callerCall_inside_iff st s beyond hc hap) fun hR p hp => ?_
    have hcaller := (callerCall_inside_iff st s beyond hc hap).mpr hR
    obtain ⟨hover, hm⟩ := over_targetCall (over_callerCall.holds_after hc hcaller) hp
    rw [hover.staysInside_iff hc, hm, (over_callerCall.eq_walk hc (.inr hcaller)).2]
    refine (met_iff_untilInvalid p.self p.st hap (P := fun q _ => q + 24 ≤ dataEnd msg.data)).mpr ?_
    exact untilInvalid_walk (fun _ _ _ h _ => h) s st hap ((untilInvalid_memoryOf hc _).mpr hR)

end Both

/-- A transaction with an object at the offset `o` of its data. -/
def objectAt (o : ℕ) : Message := transactMessage 0 5 1 (flatBinderObject .binder 0 7 9) [o]

theorem passes_inside_iff_objectAt :
    Complete (objectAt 0).data ∧ NamesInside (objectAt 0).data ∧
      ∀ p ∈ passes (final server {} [.accept]) 0 (objectAt 0) [], p.StaysInside :=
  ⟨by decide +kernel, by decide +kernel,
    (passes_inside_iff _ 0 (objectAt 0) [] (by decide +kernel)).1 (by decide +kernel)⟩

/-- Session `0` lists an object at the offset `8` of 24 bytes of data, and the object that is
translated ends eight bytes after them. -/
theorem translation_leaves_data :
    Complete (objectAt 8).data ∧
      ∃ p ∈ passes (final server {} [.accept]) 0 (objectAt 8) [], ¬ p.StaysInside := by
  have hc : Complete (objectAt 8).data := by decide +kernel
  refine ⟨hc, callerCall (final server {} [.accept]) 0 (objectAt 8) []
    (decoded (objectAt 8).data), ?_, ?_⟩
  · rw [passes_of_complete _ _ _ hc, if_neg (by decide +kernel)]
    exact List.mem_cons_self
  · rw [callerCall_inside_iff _ _ _ hc (by decide +kernel)]
    decide +kernel

end Binderd.Broker.Passes
