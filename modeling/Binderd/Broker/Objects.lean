import Binderd.Broker.Agreement
import Binderd.Broker.Translation
import Mathlib.Data.Set.Function

/-! # Objects that do not overlap

If the objects of a transaction do not overlap (`Separate 24`), the translation of one leaves the
others alone, so each is translated from the bytes that were there before the loop:

* the caller's pass exports the binders that stand in the message, and nothing else
  (`objects_of_pass`), each under a handle of its own that the message then holds (`pass_handles`);
* it leaves no binder before the first object of an invalid type (`inert_of_pass`), so that the
  target's pass, which meets the same objects, exports nothing (`pass_of_inert`). -/

namespace Binderd.Broker.Objects

open Binderd.Lib.Bytes Binderd.Lib.Tables Binderd.Lib.Runs Binderd.Lib.Walks
open Binderd.Wire.Streams Binderd.Wire.Messages Binderd.Wire.Transactions
open Binderd.Broker.State Binderd.Broker.Handles Binderd.Broker.Sessions Binderd.Broker.Effects
open Binderd.Broker.Agreement Binderd.Broker.Translation

/-- The objects of the transaction do not overlap. -/
def DisjointObjects (payload : List UInt8) : Prop := Separate 24 (objectOffsets payload)

instance (payload : List UInt8) : Decidable (DisjointObjects payload) := by
  unfold DisjointObjects; infer_instance

theorem DisjointObjects.positions {payload : List UInt8} (h : DisjointObjects payload) :
    Separate 24 (objectPositions payload) :=
  List.pairwise_map.mpr (List.Pairwise.imp (fun hpq => by omega) h)

/-! ### An object that is left alone -/

/-- The object at `p` is the same in both memories. -/
def SameAt (p : ℕ) (m m' : Mem) : Prop := ∀ i, p ≤ i → i < p + 24 → m' i = m i

namespace SameAt

variable {p : ℕ} {m m' m'' : Mem}

theorem refl (p : ℕ) (m : Mem) : SameAt p m m := fun _ _ _ => rfl

theorem trans (h : SameAt p m m') (h' : SameAt p m' m'') : SameAt p m m'' :=
  fun i h1 h2 => (h' i h1 h2).trans (h i h1 h2)

theorem type (h : SameAt p m m') : objType m' p = objType m p := objType_congr h

theorem binder (h : SameAt p m m') : objBinder m' p = objBinder m p :=
  load_congr fun i h1 h2 => h i (by omega) (by omega)

theorem handle (h : SameAt p m m') : objHandle m' p = objHandle m p :=
  load_congr fun i h1 h2 => h i (by omega) (by omega)

theorem cookie (h : SameAt p m m') : objCookie m' p = objCookie m p := objCookie_congr h

end SameAt

theorem sameAt_sent {msg : Message} (hc : Complete msg.data) (hin : InsideData msg.data)
    (beyond : List UInt8) {p : ℕ} (hp : p ∈ objectPositions msg.data) :
    SameAt p (ofList msg.data) (memoryOf msg beyond) := by
  intro i h1 h2
  have hrange := hin.positions p hp
  have hlen := complete_iff.mp hc
  have hstart : (decoded msg.data).objects.start = 32 + (decoded msg.data).data.size := rfl
  exact memoryOf_of_lt (show i < msg.data.length by omega) beyond

theorem sameAt_of_step {s : SessionId} {st st' : ServerState} {m m' : Mem} {p q : ℕ}
    (h : ObjectStep s st m p st' m') (hd : q + 24 ≤ p ∨ p + 24 ≤ q) : SameAt q m m' :=
  fun i h1 h2 => h.outside i (by omega)

theorem translateAt_sameAt (s : SessionId) {q : ℕ} (ps : List ℕ) (st : ServerState) (m : Mem)
    (h : ∀ p ∈ ps, p + 24 ≤ q ∨ q + 24 ≤ p) : SameAt q m (translateAt s ps st m).2.2 := by
  intro i h1 h2
  refine translateAt_frame s ps st m fun p hp => ?_
  have := h p hp
  omega

/-! ### What a pass exports -/

/-- The entries of `objects_` after a pass: those that were there, and the binders of the message.
-/
theorem objects_of_pass (s : SessionId) : ∀ (ps : List ℕ) (st : ServerState) (m : Mem),
    Separate 24 ps →
    ∀ k obj, ((translateAt s ps st m).2.1.sessions s).objects.lookup k = some obj →
      (st.sessions s).objects.lookup k = some obj ∨
        ∃ p ∈ ps, objType m p = some .binder ∧ obj = ⟨objBinder m p, objCookie m p⟩
  | [], _, _, _, _, _, hk => .inl hk
  | p :: ps, st, m, hap, k, obj, hk => by
    rcases translateAt_cons s p ps st m with ⟨-, he⟩ | ⟨st', m', hstep, he⟩
    · rw [he] at hk
      exact .inl hk
    · rw [he] at hk
      rcases objects_of_pass s ps st' m' hap.tail k obj hk with hk' | ⟨q, hq, hb, rfl⟩
      · clear hk he
        cases hstep with
        | exported hb =>
          rw [exportObject_lookup, if_pos rfl, lookup_insertNew] at hk'
          split_ifs at hk'
          · exact .inr ⟨p, by simp, hb, (Option.some.inj hk').symm⟩
          · exact .inl hk'
        | _ => exact .inl hk'
      · have hsame : SameAt q m m' := sameAt_of_step hstep (hap.head q hq)
        rw [hsame.type] at hb
        rw [hsame.binder, hsame.cookie]
        exact .inr ⟨q, by simp [hq], hb, rfl⟩

theorem objects_kept {s t : SessionId} {st st' : ServerState} {k : ℕ} {obj : BinderObject}
    (h : Exports s st st') (hk : (st.sessions t).objects.lookup k = some obj) :
    (st'.sessions t).objects.lookup k = some obj := by
  induction h with
  | refl => exact hk
  | tail _ he ih =>
    obtain ⟨obj', rfl⟩ := he
    rw [exportObject_lookup]
    split_ifs with ht
    · rw [← ht]
      exact lookup_insertNew_of_some ih
    · exact ih

theorem handles_kept {s t : SessionId} {st st' : ServerState} {k : ℕ} (h : Exports s st st')
    (hk : st.registry.handles.lookup k = some t) : st'.registry.handles.lookup k = some t := by
  induction h with
  | refl => exact hk
  | tail _ he ih =>
    obtain ⟨obj, rfl⟩ := he
    rw [exportObject_handles]
    exact lookup_insertNew_of_some ih

theorem handles_of_exports {s t : SessionId} {st st' : ServerState} {k : ℕ} (h : Exports s st st')
    (hts : t ≠ s) (hk : st'.registry.handles.lookup k = some t) :
    st.registry.handles.lookup k = some t := by
  induction h with
  | refl => exact hk
  | tail _ he ih =>
    obtain ⟨obj, rfl⟩ := he
    rw [exportObject_handles, lookup_insertNew] at hk
    split_ifs at hk
    · cases hk
      exact absurd rfl hts
    · exact ih hk

/-! ### What a pass leaves -/

/-- No object before the first one of an invalid type is a binder. -/
def Inert (m : Mem) : List ℕ → Prop
  | [] => True
  | p :: ps => objType m p = none ∨ (∃ t, objType m p = some t ∧ t ≠ .binder) ∧ Inert m ps

theorem Inert.congr {m m' : Mem} : ∀ {ps : List ℕ}, Inert m ps → (∀ p ∈ ps, SameAt p m m') →
    Inert m' ps
  | [], _, _ => trivial
  | p :: ps, h, hs => by
    unfold Inert at h ⊢
    rw [(hs p (by simp)).type]
    exact h.imp id fun h => ⟨h.1, h.2.congr fun q hq => hs q (by simp [hq])⟩

theorem inert_of_pass (s : SessionId) : ∀ (ps : List ℕ) (st : ServerState) (m : Mem),
    Separate 24 ps →
    Inert (translateAt s ps st m).2.2 ps
  | [], _, _, _ => trivial
  | p :: ps, st, m, hap => by
    rcases translateAt_cons s p ps st m with ⟨hn, he⟩ | ⟨st', m', hstep, he⟩
    · rw [he]
      exact .inl hn
    · rw [he]
      have hsame : SameAt p m' (translateAt s ps st' m').2.2 :=
        translateAt_sameAt s ps st' m' hap.head
      refine .inr ⟨?_, inert_of_pass s ps st' m' hap.tail⟩
      rw [hsame.type]
      exact hstep.not_binder

/-- **A pass over inert objects exports nothing.** -/
theorem pass_of_inert (t : SessionId) : ∀ (ps : List ℕ) (st : ServerState) (m : Mem),
    Separate 24 ps →
    Inert m ps → (translateAt t ps st m).2.1 = st
  | [], _, _, _, _ => rfl
  | p :: ps, st, m, hap, hin => by
    rcases translateAt_cons t p ps st m with ⟨-, he⟩ | ⟨st', m', hstep, he⟩
    · rw [he]
    · rw [he]
      have hrest : Inert m' ps := by
        rcases hin with hn | ⟨-, hin⟩
        · exact absurd hn hstep.typed
        · exact hin.congr fun q hq => sameAt_of_step hstep (hap.head q hq)
      have hst : st' = st := by
        cases hstep with
        | exported hb =>
          rcases hin with hn | ⟨⟨u, hu, hne⟩, -⟩
          · rw [hb] at hn
            cases hn
          · rw [hb] at hu
            cases hu
            exact absurd rfl hne
        | _ => rfl
      rw [pass_of_inert t ps st' m' hap.tail hrest, hst]

/-- A pass that succeeds meets no object of an invalid type. -/
theorem types_of_pass (t : SessionId) : ∀ (ps : List ℕ) (st : ServerState) (m : Mem),
    Separate 24 ps →
    (translateAt t ps st m).1 = .ok → ∀ p ∈ ps, objType m p ≠ none
  | [], _, _, _, _, _, hp => by cases hp
  | p :: ps, st, m, hap, hok, q, hq => by
    rcases translateAt_cons t p ps st m with ⟨-, he⟩ | ⟨st', m', hstep, he⟩
    · rw [he] at hok
      cases hok
    · rw [he] at hok
      rcases List.mem_cons.mp hq with rfl | hq
      · exact hstep.typed
      · rw [← (sameAt_of_step hstep (hap.head q hq)).type]
        exact types_of_pass t ps st' m' hap.tail hok q hq

/-- A pass that fails leaves an object of an invalid type. -/
theorem invalid_of_pass (s : SessionId) : ∀ (ps : List ℕ) (st : ServerState) (m : Mem),
    Separate 24 ps →
    (translateAt s ps st m).1 ≠ .ok → ∃ p ∈ ps, objType (translateAt s ps st m).2.2 p = none
  | [], _, _, _, hne => absurd rfl hne
  | p :: ps, st, m, hap, hne => by
    rcases translateAt_cons s p ps st m with ⟨hn, he⟩ | ⟨st', m', -, he⟩
    · rw [he]
      exact ⟨p, by simp, hn⟩
    · rw [he] at hne ⊢
      obtain ⟨q, hq, hn⟩ := invalid_of_pass s ps st' m' hap.tail hne
      exact ⟨q, by simp [hq], hn⟩

/-! ### How a pass changes an object -/

/-- An object that a pass changes is a binder, or a handle of the session's own. -/
theorem pass_changes (s : SessionId) : ∀ (ps : List ℕ) (st : ServerState) (m : Mem),
    Separate 24 ps →
    ∀ p ∈ ps, SameAt p m (translateAt s ps st m).2.2 ∨ objType m p = some .binder ∨
      objType m p = some .handle ∧
        objHandle m p ∈ ((translateAt s ps st m).2.1.sessions s).objects ∧
        objType (translateAt s ps st m).2.2 p = some .weakBinder
  | [], _, _, _, _, hp => by cases hp
  | q :: ps, st, m, hap, p, hp => by
    rcases translateAt_cons s q ps st m with ⟨-, he⟩ | ⟨st', m', hstep, he⟩
    · rw [he]
      exact .inl (.refl p m)
    · rw [he]
      rcases List.mem_cons.mp hp with rfl | hp
      · have hsame : SameAt p m' (translateAt s ps st' m').2.2 :=
          translateAt_sameAt s ps st' m' hap.head
        clear he
        cases hstep with
        | exported hb => exact .inr (.inl hb)
        | @returned b hh hb =>
          refine .inr (.inr ⟨hh, ?_, ?_⟩)
          · exact mem_of_lookup (objects_kept (translateAt_exports s ps st _) hb)
          · rw [hsame.type, objType_toWeakBinder]
        | passed _ _ => exact .inl hsame
        | ignored _ _ _ => exact .inl hsame
      · have hsame : SameAt p m m' := sameAt_of_step hstep (hap.head p hp)
        have ih := pass_changes s ps st' m' hap.tail p hp
        rw [hsame.type, hsame.handle] at ih
        exact ih.imp hsame.trans id

/-- The handles that a pass gives to the binders of the message. -/
structure Handled (s : SessionId) (ps : List ℕ) (st : ServerState) (m : Mem) (st' : ServerState)
    (m' : Mem) (f : ℕ → ℕ) : Prop where
  injective : Set.InjOn f {p | p ∈ ps ∧ objType m p = some .binder}
  fresh : ∀ p ∈ ps, objType m p = some .binder →
    st.registry.nextObjectHandle ≤ f p ∧ f p < st'.registry.nextObjectHandle
  written : ∀ p ∈ ps, objType m p = some .binder →
    objType m' p = some .handle ∧ objHandle m' p = f p
  kept : ∀ p ∈ ps, objType m p = some .binder →
    (st'.sessions s).objects.lookup (f p) = some ⟨objBinder m p, objCookie m p⟩ ∧
      st'.registry.handles.lookup (f p) = some s

theorem Handled.cons_of_ne {s : SessionId} {p : ℕ} {ps : List ℕ} {st st' : ServerState}
    {m m₁ m' : Mem} {f : ℕ → ℕ} (hsame : ∀ q ∈ ps, SameAt q m m₁)
    (hne : objType m p ≠ some .binder) (h : Handled s ps st m₁ st' m' f) :
    Handled s (p :: ps) st m st' m' f := by
  have hmem : ∀ {q}, q ∈ p :: ps → objType m q = some .binder →
      q ∈ ps ∧ objType m₁ q = some .binder := by
    intro q hq hb
    rcases List.mem_cons.mp hq with rfl | hq
    · exact absurd hb hne
    · exact ⟨hq, by rw [(hsame q hq).type, hb]⟩
  refine ⟨fun q hq q' hq' he => ?_, fun q hq hb => ?_, fun q hq hb => ?_, fun q hq hb => ?_⟩
  · exact h.injective (hmem hq.1 hq.2) (hmem hq'.1 hq'.2) he
  · exact h.fresh q (hmem hq hb).1 (hmem hq hb).2
  · exact h.written q (hmem hq hb).1 (hmem hq hb).2
  · rw [← (hsame q (hmem hq hb).1).binder, ← (hsame q (hmem hq hb).1).cookie]
    exact h.kept q (hmem hq hb).1 (hmem hq hb).2

theorem Handled.cons_binder {s : SessionId} {p n : ℕ} {ps : List ℕ} {st st₁ st' : ServerState}
    {m m₁ m' : Mem} {f : ℕ → ℕ} (hap : Separate 24 (p :: ps)) (hsame : ∀ q ∈ ps, SameAt q m m₁)
    (hn : n = st.registry.nextObjectHandle) (hn₁ : st₁.registry.nextObjectHandle = n + 1)
    (hlt : n < st'.registry.nextObjectHandle)
    (hw : objType m' p = some .handle ∧ objHandle m' p = n)
    (hk : (st'.sessions s).objects.lookup n = some ⟨objBinder m p, objCookie m p⟩ ∧
      st'.registry.handles.lookup n = some s)
    (h : Handled s ps st₁ m₁ st' m' f) :
    Handled s (p :: ps) st m st' m' (Function.update f p n) := by
  have hne : ∀ q ∈ ps, q ≠ p := fun q hq he => by
    have := hap.head q hq
    omega
  have hb : ∀ {q}, q ∈ ps → objType m q = some .binder → objType m₁ q = some .binder :=
    fun hq hb => by rw [(hsame _ hq).type, hb]
  refine ⟨?_, ?_, ?_, ?_⟩
  · rintro q ⟨hq, hqb⟩ q' ⟨hq', hqb'⟩ he
    rcases List.mem_cons.mp hq with hqp | hq₁ <;> rcases List.mem_cons.mp hq' with hqp' | hq₁'
    · rw [hqp, hqp']
    · rw [hqp, Function.update_self, Function.update_of_ne (hne q' hq₁')] at he
      have := (h.fresh q' hq₁' (hb hq₁' hqb')).1
      omega
    · rw [hqp', Function.update_self, Function.update_of_ne (hne q hq₁)] at he
      have := (h.fresh q hq₁ (hb hq₁ hqb)).1
      omega
    · rw [Function.update_of_ne (hne q hq₁), Function.update_of_ne (hne q' hq₁')] at he
      exact h.injective ⟨hq₁, hb hq₁ hqb⟩ ⟨hq₁', hb hq₁' hqb'⟩ he
  · intro q hq hqb
    rcases List.mem_cons.mp hq with rfl | hq
    · rw [Function.update_self]
      exact ⟨hn.ge, hlt⟩
    · rw [Function.update_of_ne (hne q hq)]
      have := h.fresh q hq (hb hq hqb)
      exact ⟨by omega, this.2⟩
  · intro q hq hqb
    rcases List.mem_cons.mp hq with rfl | hq
    · rw [Function.update_self]
      exact hw
    · rw [Function.update_of_ne (hne q hq)]
      exact h.written q hq (hb hq hqb)
  · intro q hq hqb
    rcases List.mem_cons.mp hq with rfl | hq
    · rw [Function.update_self]
      exact hk
    · rw [Function.update_of_ne (hne q hq), ← (hsame q hq).binder, ← (hsame q hq).cookie]
      exact h.kept q hq (hb hq hqb)

/-- **The binders of a message get handles of their own**, in a pass that succeeds. -/
theorem pass_handles (s : SessionId) : ∀ (ps : List ℕ) (st : ServerState) (m : Mem),
    Separate 24 ps →
    Agrees st → st.Live s → (translateAt s ps st m).1 = .ok →
    (translateAt s ps st m).2.1.registry.nextObjectHandle ≤ 2 ^ 32 →
    ∃ f, Handled s ps st m (translateAt s ps st m).2.1 (translateAt s ps st m).2.2 f
  | [], _, _, _, _, _, _, _ =>
    ⟨id, (by rintro p ⟨hp, -⟩; cases hp), (by simp), (by simp), by simp⟩
  | p :: ps, st, m, hap, ha, hs, hok, hb => by
    rcases translateAt_cons s p ps st m with ⟨-, he⟩ | ⟨st₁, m₁, hstep, he⟩
    · rw [he] at hok
      cases hok
    · rw [he] at hok hb ⊢
      have hsame : ∀ q ∈ ps, SameAt q m m₁ := fun q hq => sameAt_of_step hstep (hap.head q hq)
      have hrest : SameAt p m₁ (translateAt s ps st₁ m₁).2.2 :=
        translateAt_sameAt s ps st₁ m₁ hap.head
      have hexp := translateAt_exports s ps st₁ m₁
      have hle := exports_next_le hexp
      clear he
      cases hstep with
      | exported ht =>
        have hnext := exportObject_next st s ⟨objBinder m p, objCookie m p⟩
        have hlt : st.registry.nextObjectHandle < 2 ^ 32 := by omega
        have hfst : (exportObject st s ⟨objBinder m p, objCookie m p⟩).1 =
            st.registry.nextObjectHandle := Nat.mod_eq_of_lt (by omega)
        have hmod : st.registry.nextObjectHandle % 2 ^ 64 = st.registry.nextObjectHandle :=
          Nat.mod_eq_of_lt (by omega)
        have ha₁ := agrees_export ha hs ⟨objBinder m p, objCookie m p⟩ (by omega)
        have hs₁ := (exportObject_live st s s ⟨objBinder m p, objCookie m p⟩).mpr hs
        obtain ⟨f, hf⟩ := pass_handles s ps _ _ hap.tail ha₁ hs₁ hok hb
        -- the handle is new to the registry, and so to the session
        have hfresh : st.registry.nextObjectHandle ∉ st.registry.handles := fun hm => by
          have := (ha.range _ hm).2
          omega
        have hfresh' : st.registry.nextObjectHandle ∉ (st.sessions s).objects := fun hm =>
          hfresh (mem_of_lookup (ha.known _ s hs hm))
        refine ⟨_, hf.cons_binder hap hsame rfl hnext (by omega) ⟨?_, ?_⟩ ⟨?_, ?_⟩⟩
        · rw [hrest.type, objType_toHandle]
        · rw [hrest.handle, objHandle_toHandle, hfst, Nat.mod_eq_of_lt hlt]
        · refine objects_kept hexp ?_
          rw [exportObject_lookup, if_pos rfl, hmod, lookup_insertNew_self hfresh']
        · refine handles_kept hexp ?_
          rw [exportObject_handles, hmod, lookup_insertNew_self hfresh]
      | returned ht _ =>
        obtain ⟨f, hf⟩ := pass_handles s ps _ _ hap.tail ha hs hok hb
        exact ⟨f, hf.cons_of_ne hsame (by simp [ht])⟩
      | passed ht _ =>
        obtain ⟨f, hf⟩ := pass_handles s ps _ _ hap.tail ha hs hok hb
        exact ⟨f, hf.cons_of_ne hsame (by simp [ht])⟩
      | ignored ht hne _ =>
        obtain ⟨f, hf⟩ := pass_handles s ps _ _ hap.tail ha hs hok hb
        exact ⟨f, hf.cons_of_ne hsame (by simp [ht, hne])⟩

end Binderd.Broker.Objects
