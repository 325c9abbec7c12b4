import Binderd.Broker.Objects

/-! # Who puts an object into a table

A session's `objects_` say which of its objects others may reach. `TranslateObjects` of the target
runs over bytes that another session has sent, so an object that it takes for a binder would become
an object of the target. If objects may overlap, the caller can make the first pass write such a
binder (`capability_forged`). If the objects of every Transaction are apart, every entry comes from
a binder that the session itself has sent (`capability_integrity`). -/

namespace Binderd.Broker.Capabilities

open Binderd.Lib.Bytes Binderd.Lib.Tables Binderd.Lib.Runs
open Binderd.Wire.Streams Binderd.Wire.Messages Binderd.Wire.Transactions
open Binderd.Broker.State Binderd.Broker.Handles Binderd.Broker.Sessions Binderd.Broker.Effects
open Binderd.Broker.Agreement Binderd.Broker.Translation Binderd.Broker.Objects

/-- The sender of the message put this binder into it, at one of the offsets it lists. -/
def StatesBinder (msg : Message) (obj : BinderObject) : Prop :=
  ∃ o ∈ objectOffsets msg.data, objType (ofList msg.data) (28 + o) = some .binder ∧
    objBinder (ofList msg.data) (28 + o) = obj.binder ∧
    objCookie (ofList msg.data) (28 + o) = obj.cookie

/-- **Capability integrity**: every entry of `objects_` was created while processing a Transaction
of the session itself, from a binder it put there; and no message of another session adds an entry
or allocates a handle for it. -/
def CapabilityIntegrity (h : List ServerStep) (st : ServerState) : Prop :=
  (∀ s k obj, (st.sessions s).objects.lookup k = some obj →
    ∃ e ∈ h, ∃ msg beyond, e.action = .process s msg beyond ∧ msg.type = .transaction ∧
      (e.before.sessions s).objects.lookup k = none ∧
      (e.after.sessions s).objects.lookup k = some obj ∧ StatesBinder msg obj) ∧
  ∀ e ∈ h, ∀ s msg beyond, e.action = .process s msg beyond → ∀ t, t ≠ s →
    (∀ k, k ∈ (e.after.sessions t).objects → k ∈ (e.before.sessions t).objects) ∧
    ∀ k, e.after.registry.handles.lookup k = some t → e.before.registry.handles.lookup k = some t

/-- The objects of the Transaction that the step processes do not overlap. -/
abbrev ListsDisjoint : ServerStep → Prop := ListsObjects DisjointObjects

/-! ### The two passes of a transaction -/

theorem postTransaction_pass {st : ServerState} {t : SessionId} {record : TransactionRecord}
    {m : Mem} {posted : Posted} (h : postTransaction st t record m = some posted) :
    SameObjects st posted.state ∨ ∃ obj status₂ st₂ m₂,
      translateObjects t (newTransaction obj (decoded record.message.data)) (drawCookie st t) m =
        some (status₂, st₂, m₂) ∧ SameObjects st₂ posted.state := by
  unfold postTransaction at h
  simp only [drawCookie_objectForHandle] at h
  cases ho : objectForHandle (st.sessions t) record.message.destination with
  | none =>
    rw [ho] at h
    cases h
    exact .inl (sameObjects_drawCookie st t)
  | some obj =>
    simp only [ho] at h
    by_cases hc : Complete record.message.data
    · simp only [fromMessage_of_complete hc] at h
      cases htr : translateObjects t (newTransaction obj (decoded record.message.data))
        (drawCookie st t) m with
      | none =>
        rw [htr] at h
        cases h
      | some r =>
        obtain ⟨status₂, st₂, m₂⟩ := r
        rw [htr] at h
        refine .inr ⟨obj, status₂, st₂, m₂, htr, ?_⟩
        cases status₂ with
        | ok =>
          cases h
          exact sameObjects_addPending ..
        | _ =>
          cases h
          exact .refl st₂
    · simp only [fromMessage_of_not_complete hc] at h
      cases h
      exact .inl (sameObjects_drawCookie st t)

theorem onTransaction_passes {st : ServerState} {s : SessionId} {msg : Message}
    {beyond : List UInt8} {r : ServerState × List Write}
    (h : onTransaction st s msg beyond = some r) :
    r.1 = st ∨
      Complete msg.data ∧ ∃ status₁ st₁ m₁,
        translateObjects s (decoded msg.data) st (memoryOf msg beyond) = some (status₁, st₁, m₁) ∧
        (SameObjects st₁ r.1 ∨ ∃ t obj status₂ st₂ m₂,
          translateObjects t (newTransaction obj (decoded (inMemory msg m₁).data))
            (drawCookie st₁ t) m₁ = some (status₂, st₂, m₂) ∧ SameObjects st₂ r.1) := by
  rcases onTransaction_cases h with ⟨-, rfl⟩ | ⟨hc, status₁, st₁, m₁, htr, hrest⟩
  · exact .inl rfl
  refine .inr ⟨hc, status₁, st₁, m₁, htr, ?_⟩
  rcases hrest with ⟨-, rfl⟩ | ⟨t, posted, -, hp, rfl⟩
  · exact .inl (.refl st₁)
  · exact (postTransaction_pass hp).imp id fun hpass => ⟨t, hpass⟩

/-- **Only the caller's pass exports**, if the objects lie inside the data and are apart. -/
theorem callerPass_exports {st : ServerState} {s : SessionId} {msg : Message} {beyond : List UInt8}
    {r : ServerState × List Write} (h : onTransaction st s msg beyond = some r)
    (hin : Complete msg.data → InsideData msg.data)
    (hap : Complete msg.data → DisjointObjects msg.data) :
    r.1 = st ∨ Complete msg.data ∧ SameObjects
      (translateAt s (objectPositions msg.data) st (memoryOf msg beyond)).2.1 r.1 := by
  rcases onTransaction_passes h with h | ⟨hc, status₁, st₁, m₁, h1, h2⟩
  · exact .inl h
  · have hin := hin hc
    have hap := (hap hc).positions
    rw [translateObjects_eq hc hin (holds_memoryOf msg beyond), Option.some.injEq] at h1
    refine .inr ⟨hc, ?_⟩
    rw [h1]
    rcases h2 with h2 | ⟨t, obj, status₂, st₂, m₂, h2, hsame⟩
    · exact h2
    · -- the caller's pass has left nothing for the target's to export
      have hout := translateAt_outside s (objectPositions msg.data) st (memoryOf msg beyond)
        hin.positions
      have hinert := inert_of_pass s (objectPositions msg.data) st (memoryOf msg beyond) hap
      rw [h1] at hout hinert
      have hm := (holds_memoryOf msg beyond).outside hout
      rw [decoded_inMemory hm, translateObjects_newTransaction,
        translateObjects_eq hc hin hm, Option.some.injEq] at h2
      have hst := pass_of_inert t (objectPositions msg.data) (drawCookie st₁ t) m₁ hap hinert
      rw [h2] at hst
      simp only at hst
      subst hst
      exact (sameObjects_drawCookie st₁ t).trans hsame

/-! ### One step -/

/-- The objects the caller's pass meets are those of the message. -/
theorem statesBinder_of_pass {msg : Message} {beyond : List UInt8} (hc : Complete msg.data)
    (hin : InsideData msg.data) {p : ℕ} (hp : p ∈ objectPositions msg.data)
    (ht : objType (memoryOf msg beyond) p = some .binder) :
    StatesBinder msg ⟨objBinder (memoryOf msg beyond) p, objCookie (memoryOf msg beyond) p⟩ := by
  have hsame := sameAt_sent hc hin beyond hp
  obtain ⟨o, ho, rfl⟩ := List.mem_map.mp hp
  exact ⟨o, ho, by rw [← hsame.type, ht], hsame.binder.symm, hsame.cookie.symm⟩

theorem objects_of_step {e : ServerStep} (hv : e.Valid server) (hin : ListsInside e)
    (hdis : ListsDisjoint e) :
    (∀ t k obj, (e.after.sessions t).objects.lookup k = some obj →
      (e.before.sessions t).objects.lookup k = some obj ∨
        ∃ msg beyond, e.action = .process t msg beyond ∧ msg.type = .transaction ∧
          (e.before.sessions t).objects.lookup k = none ∧ StatesBinder msg obj) ∧
    ∀ s msg beyond, e.action = .process s msg beyond → ∀ t k, t ≠ s →
      e.after.registry.handles.lookup k = some t → e.before.registry.handles.lookup k = some t := by
  by_cases htr : ∃ s msg beyond, e.action = .process s msg beyond ∧ msg.type = .transaction
  · obtain ⟨s, msg, beyond, ha, ht⟩ := htr
    unfold ListsInside ListsObjects at hin
    unfold ListsDisjoint ListsObjects at hdis
    rw [ha] at hin hdis
    rcases callerPass_exports (onTransaction_of_step hv ha ht).2 (hin ht) (hdis ht) with
      he | ⟨hc, hsame⟩
    · have he : e.after = e.before := he
      rw [he]
      exact ⟨fun _ _ _ hk => .inl hk, fun _ _ _ _ _ _ _ hk => hk⟩
    · have hexp := translateAt_exports s (objectPositions msg.data) e.before (memoryOf msg beyond)
      simp only at hsame
      refine ⟨fun t k obj hk => ?_, fun s' msg' beyond' ha' t k hts hk => ?_⟩
      · rw [hsame.objects] at hk
        by_cases hts : t = s
        · subst hts
          cases hold : (e.before.sessions t).objects.lookup k with
          | some obj' =>
            rw [objects_kept hexp hold] at hk
            exact .inl hk
          | none =>
            rcases objects_of_pass t (objectPositions msg.data) e.before (memoryOf msg beyond)
              (hdis ht hc).positions k obj hk with hk | ⟨p, hp, hb, rfl⟩
            · rw [hold] at hk
              cases hk
            · exact .inr ⟨msg, beyond, ha, ht, rfl, statesBinder_of_pass hc (hin ht hc) hp hb⟩
        · rw [(Exports.frame hexp).other t hts] at hk
          exact .inl hk
      · rw [ha] at ha'
        cases ha'
        rw [hsame.handles] at hk
        exact handles_of_exports hexp hts hk
  · push Not at htr
    obtain ⟨ho, hh⟩ := objects_of_effect (step_effect hv) htr
    refine ⟨fun t k obj hk => ?_, fun s msg beyond _ t k _ hk => hh k t hk⟩
    rcases ho t with ho | ho
    · rw [ho] at hk
      exact .inl hk
    · rw [ho] at hk
      cases hk

/-! ### Runs -/

/-- **Capability integrity** holds in every run in which the objects of each Transaction lie inside
its data and do not overlap. -/
theorem capability_integrity {h : List ServerStep} {st : ServerState} (hr : Run server h st)
    (hin : ∀ e ∈ h, ListsInside e) (hdis : ∀ e ∈ h, ListsDisjoint e) :
    CapabilityIntegrity h st := by
  constructor
  · refine Run.invariant (C := fun e => ListsInside e ∧ ListsDisjoint e)
      (P := fun h u => ∀ s k obj, (u.sessions s).objects.lookup k = some obj →
        ∃ e ∈ h, ∃ msg beyond, e.action = .process s msg beyond ∧ msg.type = .transaction ∧
          (e.before.sessions s).objects.lookup k = none ∧
          (e.after.sessions s).objects.lookup k = some obj ∧ StatesBinder msg obj)
      (fun s k obj hk => by cases hk) ?_ hr fun e he => ⟨hin e he, hdis e he⟩
    intro h e _ ih hv hC s k obj hk
    rcases (objects_of_step hv hC.1 hC.2).1 s k obj hk with hold | ⟨msg, beyond, ha, ht, hn, hb⟩
    · obtain ⟨e', he', hrest⟩ := ih s k obj hold
      exact ⟨e', by simp [he'], hrest⟩
    · exact ⟨e, by simp, msg, beyond, ha, ht, hn, hk, hb⟩
  · intro e he s msg beyond ha t hts
    have hv := hr.valid he
    obtain ⟨h1, h2⟩ := objects_of_step hv (hin e he) (hdis e he)
    refine ⟨fun k hk => ?_, fun k => h2 s msg beyond ha t k hts⟩
    obtain ⟨obj, hobj⟩ := exists_lookup_of_mem hk
    rcases h1 t k obj hobj with hold | ⟨msg', beyond', ha', -⟩
    · exact mem_of_lookup hold
    · rw [ha] at ha'
      cases ha'
      exact absurd rfl hts

theorem capability_integrity_exportScenario :
    ((final server {} exportScenario).sessions 0).objects.lookup 1 = some ⟨7, 9⟩ ∧
      CapabilityIntegrity (history server {} exportScenario) (final server {} exportScenario) :=
  ⟨by decide +kernel, capability_integrity (path_history server exportScenario {})
    (by decide +kernel) (by decide +kernel)⟩

/-! ### Overlapping objects -/

/-- A binder whose cookie is the type of a binder, sent to no one. -/
def bait : Message :=
  transactMessage 99 1 1 (flatBinderObject .binder 0 0 ObjectType.binder.code) [0]

/-- The handle of `bait`, and an object that starts in its last field. -/
def overlapping : Message :=
  transactMessage 0 2 1
    (flatBinderObject .handle 0 1 ObjectType.fd.code ++ leBytes 8 7 ++ leBytes 8 9) [16, 0]

/-- Session `0` sends `bait`, and then `overlapping` to the context manager `1`. -/
def forgeScenario : List Action :=
  [.accept, .accept, .process 1 { type := .setContextMgr } [], .process 0 bait [],
    .process 0 overlapping []]

/-- The second message of session `0` puts an object into the table of session `1`. -/
theorem capability_forged :
    Run server (history server {} forgeScenario) (final server {} forgeScenario) ∧
    (∀ e ∈ history server {} forgeScenario, ListsInside e) ∧
    ((final server {} forgeScenario).sessions 1).objects.lookup 2 = some ⟨7, 9⟩ ∧
    ¬ CapabilityIntegrity (history server {} forgeScenario) (final server {} forgeScenario) := by
  refine ⟨path_history server forgeScenario {}, by decide +kernel, by decide +kernel, fun h => ?_⟩
  have hadd : ∃ e ∈ history server {} forgeScenario, e.action = .process 0 overlapping [] ∧
      2 ∈ (e.after.sessions 1).objects ∧ 2 ∉ (e.before.sessions 1).objects := by decide +kernel
  obtain ⟨e, he, ha, hafter, hbefore⟩ := hadd
  exact hbefore ((h.2 e he 0 overlapping [] ha 1 (by decide)).1 2 hafter)

end Binderd.Broker.Capabilities
