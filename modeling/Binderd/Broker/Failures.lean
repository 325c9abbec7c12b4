import Binderd.Broker.Delivery
import Binderd.Broker.Passes

/-! # What a failed transaction leaves behind

`OnTransaction` exports the objects of the caller before it looks for the target, and
`PostTransaction` may fail after it has exported objects of the target's. Nothing takes the exports
back. So a transaction that is answered with an error leaves the tables of the server as they were
if and only if neither pass of `TranslateObjects` comes to a binder (`failed_traceless_iff`). -/

namespace Binderd.Broker.Failures

open Binderd.Lib.Bytes Binderd.Lib.Tables Binderd.Lib.Runs Binderd.Lib.Walks
open Binderd.Wire.Streams Binderd.Wire.Messages Binderd.Wire.Transactions
open Binderd.Broker.State Binderd.Broker.Handles Binderd.Broker.Sessions Binderd.Broker.Effects
open Binderd.Broker.Agreement Binderd.Broker.Translation Binderd.Broker.Objects
open Binderd.Broker.Delivery Binderd.Broker.Passes

/-- Both states have the same tables and the same roles; the counters may differ. -/
structure SameTables (st st' : ServerState) : Prop where
  handles : st'.registry.handles = st.registry.handles
  references : st'.registry.references = st.registry.references
  contextMgr : st'.registry.contextMgr = st.registry.contextMgr
  monitor : st'.registry.monitor = st.registry.monitor
  objects : ∀ t, (st'.sessions t).objects = (st.sessions t).objects
  pendingTransactions : ∀ t,
    (st'.sessions t).pendingTransactions = (st.sessions t).pendingTransactions
  deathNotifications : ∀ t, (st'.sessions t).deathNotifications = (st.sessions t).deathNotifications

/-- The branch for `BINDER_TYPE_BINDER` is not taken in the pass. -/
def Pass.MeetsNoBinder (p : Pass) : Prop := ∀ v ∈ p.met, objType v.mem v.position ≠ some .binder

/-- No pass over the message comes to a binder. -/
def MeetsNoBinder (st : ServerState) (s : SessionId) (msg : Message) (beyond : List UInt8) : Prop :=
  ∀ p ∈ passes st s msg beyond, Pass.MeetsNoBinder p

theorem SameTables.refl (st : ServerState) : SameTables st st :=
  ⟨rfl, rfl, rfl, rfl, fun _ => rfl, fun _ => rfl, fun _ => rfl⟩

theorem sameTables_drawCookie (st : ServerState) (t : SessionId) :
    SameTables st (drawCookie st t) :=
  ⟨rfl, rfl, rfl, rfl, fun _ => ServerState.update_field _ _ _ _ (·.objects) rfl,
    fun _ => ServerState.update_field _ _ _ _ (·.pendingTransactions) rfl,
    fun _ => ServerState.update_field _ _ _ _ (·.deathNotifications) rfl⟩

/-! ### Passes and exports -/

/-- An object that is a binder is exported, and any other leaves the state as it is. -/
theorem state_of_objectStep {self : SessionId} {p : ℕ} {st st' : ServerState} {m m' : Mem}
    (h : objectStep self p st m = .ok (st', m')) :
    objType m p = some .binder ∧ (∃ obj, st' = (exportObject st self obj).2) ∨
      objType m p ≠ some .binder ∧ st' = st := by
  cases objectStep_ok h with
  | exported hb => exact .inl ⟨hb, _, rfl⟩
  | returned hh _ => exact .inr ⟨by simp [hh], rfl⟩
  | passed hh _ => exact .inr ⟨by simp [hh], rfl⟩
  | ignored hh hne _ => exact .inr ⟨by simp [hh, hne], rfl⟩

theorem walkArray_of_no_binder (self : SessionId) (data : ℕ) :
    ∀ {n current : ℕ} {st : ServerState} {m : Mem},
      (∀ v ∈ visitsArray (objectStep self) data n current st m,
        objType v.mem v.position ≠ some .binder) →
      (walkArray (objectStep self) data n current st m).2.1 = st
  | 0, _, _, _, _ => rfl
  | n + 1, current, st, m, h => by
    rw [visitsArray, List.forall_mem_cons] at h
    rw [walkArray]
    cases hs : objectStep self (data + (m current).toNat) st m with
    | error e => rfl
    | ok r =>
      obtain ⟨st', m'⟩ := r
      rw [hs] at h
      rcases state_of_objectStep hs with ⟨hb, -⟩ | ⟨-, rfl⟩
      · exact absurd hb h.1
      · exact walkArray_of_no_binder self data h.2

theorem walkArray_of_binder (self : SessionId) (data : ℕ) :
    ∀ {n current : ℕ} {st : ServerState} {m : Mem} {v : Visit ServerState},
      v ∈ visitsArray (objectStep self) data n current st m →
      objType v.mem v.position = some .binder →
      ∃ obj, Exports self (exportObject st self obj).2
        (walkArray (objectStep self) data n current st m).2.1
  | 0, _, _, _, _, hv, _ => by cases hv
  | n + 1, current, st, m, v, hv, hb => by
    rw [visitsArray] at hv
    rw [walkArray]
    cases hs : objectStep self (data + (m current).toNat) st m with
    | error e =>
      rw [hs, List.mem_singleton] at hv
      subst hv
      rw [objectStep_error hs] at hb
      cases hb
    | ok r =>
      obtain ⟨st', m'⟩ := r
      rw [hs] at hv
      simp only
      rcases state_of_objectStep hs with ⟨-, obj, rfl⟩ | ⟨hne, rfl⟩
      · have h := translateLoop_exports self data n (current + 8) (exportObject st self obj).2 m'
        rw [translateLoop_eq_walkArray] at h
        exact ⟨obj, h⟩
      · rcases List.mem_cons.mp hv with rfl | hv
        · exact absurd hb hne
        · exact walkArray_of_binder self data hv hb

theorem state_of_no_binder {p : Pass} (h : Pass.MeetsNoBinder p) : p.result.2.1 = p.st := by
  rw [Pass.result, translateLoop_eq_walkArray]
  exact walkArray_of_no_binder _ _ h

theorem handles_of_binder {p : Pass} (h : ¬ Pass.MeetsNoBinder p)
    (hb : p.st.registry.nextObjectHandle < 2 ^ 64) :
    p.st.registry.nextObjectHandle ∈ p.result.2.1.registry.handles := by
  unfold Pass.MeetsNoBinder at h
  push Not at h
  obtain ⟨v, hv, hbinder⟩ := h
  obtain ⟨obj, hexp⟩ := walkArray_of_binder _ _ hv hbinder
  have hmem : p.st.registry.nextObjectHandle ∈
      (exportObject p.st p.self obj).2.registry.handles := by
    rw [exportObject_handles, mem_insertNew, Nat.mod_eq_of_lt hb]
    exact .inl rfl
  obtain ⟨t, ht⟩ := exists_lookup_of_mem hmem
  rw [Pass.result, translateLoop_eq_walkArray]
  exact mem_of_lookup (handles_kept hexp ht)

/-! ### How a transaction fails -/

/-- **The state that a failed transaction leaves.** -/
inductive FailedWith (st : ServerState) (s : SessionId) (msg : Message) (beyond : List UInt8) :
    ServerState → Prop
  /-- The message cannot be decoded. -/
  | undecoded : passes st s msg beyond = [] → FailedWith st s msg beyond st
  /-- There is no target, or it does not get to translate the objects. -/
  | undelivered {p st'} : passes st s msg beyond = [p] → p.st = st →
      SameTables p.result.2.1 st' → FailedWith st s msg beyond st'
  /-- The target fails to translate the objects. -/
  | untranslated {p q} : passes st s msg beyond = [p, q] → p.st = st →
      SameTables p.result.2.1 q.st →
      q.st.registry.nextObjectHandle = p.result.2.1.registry.nextObjectHandle →
      FailedWith st s msg beyond q.result.2.1

/-- The state that `PostTransaction` leaves if it does not deliver, by what becomes of its call of
`TranslateObjects`. -/
theorem state_of_postTransaction {st : ServerState} {s t : SessionId} {msg : Message} {m : Mem}
    {posted : Posted} (hf : findSessionByHandle st.registry msg.destination = some t)
    (hno : ∀ obj st' m', ¬ Delivers st t ⟨s, msg.cookie, inMemory msg m⟩ m obj st' m')
    (hp : postTransaction st t ⟨s, msg.cookie, inMemory msg m⟩ m = some posted) :
    targetCall msg st m = none ∧ posted.state = drawCookie st t ∨
      ∃ q, targetCall msg st m = some q ∧ q.st = drawCookie st t ∧
        posted.state = q.result.2.1 := by
  have hdest : (inMemory msg m).destination = msg.destination := rfl
  unfold postTransaction at hp
  unfold targetCall
  simp only [drawCookie_objectForHandle, hf, hdest] at hp ⊢
  cases ho : objectForHandle (st.sessions t) msg.destination with
  | none =>
    rw [ho] at hp
    cases hp
    exact .inl ⟨rfl, rfl⟩
  | some obj =>
    simp only [ho] at hp
    by_cases hc : Complete (inMemory msg m).data
    · simp only [fromMessage_of_complete hc] at hp ⊢
      refine .inr ⟨_, rfl, rfl, ?_⟩
      cases htr : translateObjects t (newTransaction obj (decoded (inMemory msg m).data))
        (drawCookie st t) m with
      | none =>
        rw [htr] at hp
        cases hp
      | some r =>
        obtain ⟨status, st', m'⟩ := r
        rw [htr] at hp
        rw [Pass.result, (translateObjects_eq_some.mp htr).2]
        cases status with
        | ok => exact absurd ⟨ho, hc, htr⟩ (hno obj st' m')
        | _ =>
          cases hp
          rfl
    · simp only [fromMessage_of_not_complete hc] at hp ⊢
      cases hp
      exact .inl ⟨trivial, rfl⟩

/-- A transaction whose target is found, but does not deliver it. -/
theorem failedWith_postTransaction {st st₁ : ServerState} {s t : SessionId} {msg : Message}
    {beyond : List UInt8} {status₁ : Status} {m₁ : Mem} {p : Pass} {posted : Posted}
    (hst : p.st = st)
    (hpasses : passes st s msg beyond = p :: (targetCall msg st₁ m₁).toList)
    (hresult : p.result = (status₁, st₁, m₁))
    (hf : findSessionByHandle st₁.registry msg.destination = some t)
    (hno : ∀ obj st' m', ¬ Delivers st₁ t ⟨s, msg.cookie, inMemory msg m₁⟩ m₁ obj st' m')
    (hp : postTransaction st₁ t ⟨s, msg.cookie, inMemory msg m₁⟩ m₁ = some posted) :
    FailedWith st s msg beyond posted.state := by
  have hsame : SameTables p.result.2.1 (drawCookie st₁ t) := by
    rw [hresult]
    exact sameTables_drawCookie st₁ t
  rcases state_of_postTransaction hf hno hp with ⟨hcall, hstate⟩ | ⟨q, hcall, hq, hstate⟩
  · rw [hcall] at hpasses
    rw [hstate]
    exact .undelivered hpasses hst hsame
  · rw [hcall] at hpasses
    rw [← hq] at hsame
    rw [hstate]
    refine .untranslated hpasses hst hsame ?_
    rw [hresult, hq]
    rfl

theorem failedWith_onTransaction {st : ServerState} {s : SessionId} {msg : Message}
    {beyond : List UInt8} {r : ServerState × List Write} (hs : st.Live s)
    (ht : msg.type = .transaction) (hr : onTransaction st s msg beyond = some r)
    (hno : ∀ d : Delivery st s msg beyond, r.2 ≠ d.writes) :
    FailedWith st s msg beyond r.1 := by
  rcases onTransaction_cases hr with ⟨hc, rfl⟩ | ⟨hc, status₁, st₁, m₁, htr, hrest⟩
  · have hpasses : passes st s msg beyond = [] := by
      unfold passes
      rw [fromMessage_of_not_complete hc]
    exact .undecoded hpasses
  obtain ⟨hnull, hloop⟩ := translateObjects_eq_some.mp htr
  have hresult : (callerCall st s msg beyond (decoded msg.data)).result = (status₁, st₁, m₁) :=
    hloop
  have hpasses := passes_of_complete st s beyond hc
  rw [if_neg hnull, hresult] at hpasses
  rcases hrest with ⟨hf, rfl⟩ | ⟨t, posted, hf, hp, rfl⟩
  · have hnone : targetCall msg st₁ m₁ = none := by simp only [targetCall, hf]
    rw [hnone] at hpasses
    refine .undelivered hpasses rfl ?_
    rw [hresult]
    exact .refl _
  · refine failedWith_postTransaction rfl hpasses hresult hf (fun obj st₂ m₂ hd => ?_) hp
    refine hno ⟨status₁, st₁, m₁, t, obj, st₂, m₂, hs, ht, hc, htr, hf, hd⟩ ?_
    rw [postTransaction_of_delivers hd] at hp
    cases hp
    rfl

theorem failedWith_step {e : ServerStep} {s : SessionId} {msg : Message} {beyond : List UInt8}
    {status : Status} (hv : e.Valid server) (ha : e.action = .process s msg beyond)
    (ht : msg.type = .transaction) (hans : AnsweredWith e s msg status) (hne : status ≠ .ok) :
    FailedWith e.before s msg beyond e.after := by
  obtain ⟨hlive, hon⟩ := onTransaction_of_step hv ha ht
  refine failedWith_onTransaction hlive ht hon fun d hd => hne ?_
  have hemitted : e.emitted = d.writes := hd
  unfold AnsweredWith at hans
  rw [hemitted] at hans
  exact (delivery_status d).mp hans

/-! ### The trace of a failure -/

theorem sameTables_of_no_binder {st st' : ServerState} {s : SessionId} {msg : Message}
    {beyond : List UInt8} (h : FailedWith st s msg beyond st')
    (hno : MeetsNoBinder st s msg beyond) : SameTables st st' := by
  unfold MeetsNoBinder at hno
  cases h with
  | undecoded _ => exact .refl st
  | @undelivered p _ hpasses hst hsame =>
    rw [hpasses] at hno
    rw [state_of_no_binder (hno p (by simp)), hst] at hsame
    exact hsame
  | @untranslated p q hpasses hst hsame _ =>
    rw [hpasses] at hno
    rw [state_of_no_binder (hno p (by simp)), hst] at hsame
    rw [state_of_no_binder (hno q (by simp))]
    exact hsame

theorem handle_of_failed {st st' : ServerState} {s : SessionId} {msg : Message}
    {beyond : List UInt8} (h : FailedWith st s msg beyond st')
    (hb : st.registry.nextObjectHandle < 2 ^ 64) (hmeets : ¬ MeetsNoBinder st s msg beyond) :
    st.registry.nextObjectHandle ∈ st'.registry.handles := by
  unfold MeetsNoBinder at hmeets
  cases h with
  | undecoded hpasses =>
    rw [hpasses] at hmeets
    exact absurd (by simp) hmeets
  | @undelivered p _ hpasses hst hsame =>
    rw [hpasses, List.forall_mem_singleton] at hmeets
    rw [hsame.handles, ← hst]
    exact handles_of_binder hmeets (by rwa [hst])
  | @untranslated p q hpasses hst hsame hnext =>
    rw [hpasses, List.forall_mem_cons, List.forall_mem_singleton] at hmeets
    by_cases hp : Pass.MeetsNoBinder p
    · rw [state_of_no_binder hp, hst] at hnext
      rw [← hnext]
      exact handles_of_binder (fun hq => hmeets ⟨hp, hq⟩) (by rwa [hnext])
    · have hmem := handles_of_binder hp (by rwa [hst])
      rw [← hsame.handles, hst] at hmem
      obtain ⟨t, hlookup⟩ := exists_lookup_of_mem hmem
      exact mem_of_lookup (handles_kept (translateLoop_exports ..) hlookup)

/-- **A failed transaction leaves no trace if and only if no pass over it comes to a binder**, in
every run, as long as the counter of handles has not wrapped around. If the objects that the message
names lie inside its data and do not overlap, this means that it lists no binder before the first
object of an invalid type. -/
theorem failed_traceless_iff {h : List ServerStep} {st : ServerState} (hr : Run server h st)
    {e : ServerStep} (he : e ∈ h) {s : SessionId} {msg : Message} {beyond : List UInt8}
    (ha : e.action = .process s msg beyond) (ht : msg.type = .transaction) {status : Status}
    (hans : AnsweredWith e s msg status) (hne : status ≠ .ok) :
    (MeetsNoBinder e.before s msg beyond → SameTables e.before e.after) ∧
    (e.before.registry.nextObjectHandle < 2 ^ 64 → SameTables e.before e.after →
      MeetsNoBinder e.before s msg beyond) ∧
    (Complete msg.data → NamesInside msg.data → Separate 24 (namedPositions msg.data) →
      (MeetsNoBinder e.before s msg beyond ↔
        UntilInvalid (fun _ t => t ≠ some .binder) (ofList msg.data)
          (namedPositions msg.data))) := by
  obtain ⟨h₁, -, -, hr₁, hv, -⟩ := hr.prefix_of_mem he
  have hfailed := failedWith_step hv ha ht hans hne
  refine ⟨sameTables_of_no_binder hfailed, fun hb hsame => ?_, fun hc hin hap => ?_⟩
  · by_contra hmeets
    have hmem := handle_of_failed hfailed hb hmeets
    rw [hsame.handles] at hmem
    exact lt_irrefl _ ((agrees_of_run hr₁ hb.le).range _ hmem).2
  · exact forall_met_iff (P := fun _ t => t ≠ some .binder)
      (fun _ _ _ _ hne => by simpa using hne) hc hin hap

/-- Session `0` sends a transaction to a handle that does not exist. -/
def failedScenario (object : List UInt8) : List Action :=
  [.accept, .process 0 (transactMessage 3 5 1 object [0]) []]

theorem failed_traceless_iff_handle :
    ∃ e, (history server {} (failedScenario (flatBinderObject .handle 0 3 0)))[1]? = some e ∧
      SameTables e.before e.after := by
  set msg := transactMessage 3 5 1 (flatBinderObject .handle 0 3 0) [0] with hmsg
  have h1 : ((history server {} (failedScenario (flatBinderObject .handle 0 3 0)))[1]?.any fun e =>
      decide (e.action = .process 0 msg [] ∧ ⟨0, statusMessage msg .nameNotFound,
        .sendStatus msg .nameNotFound⟩ ∈ e.emitted)) = true := by
    rw [hmsg]
    decide +kernel
  obtain ⟨e, he, hcond⟩ := (Option.any_eq_true _ _).mp h1
  obtain ⟨ha, hans⟩ := of_decide_eq_true hcond
  obtain ⟨hsame, -, hiff⟩ := failed_traceless_iff
    (path_history server (failedScenario (flatBinderObject .handle 0 3 0)) {})
    (List.mem_of_getElem? he) ha rfl hans (by simp)
  refine ⟨e, he, hsame ((hiff ?_ ?_ ?_).mpr ?_)⟩ <;> rw [hmsg] <;> decide +kernel

/-- The object of session `0` is known to the registry although its transaction was answered with
`NameNotFound`. -/
theorem failure_leaves_handle :
    ∃ e, (history server {} (failedScenario (flatBinderObject .binder 0 7 9)))[1]? = some e ∧
      AnsweredWith e 0 (transactMessage 3 5 1 (flatBinderObject .binder 0 7 9) [0])
        .nameNotFound ∧
      ¬ SameTables e.before e.after := by
  have h1 : ((history server {} (failedScenario (flatBinderObject .binder 0 7 9)))[1]?.any fun e =>
      decide (⟨0, statusMessage (transactMessage 3 5 1 (flatBinderObject .binder 0 7 9) [0])
        .nameNotFound, .sendStatus (transactMessage 3 5 1 (flatBinderObject .binder 0 7 9) [0])
        .nameNotFound⟩ ∈ e.emitted ∧ 1 ∉ e.before.registry.handles ∧
        1 ∈ e.after.registry.handles)) = true := by
    decide +kernel
  obtain ⟨e, he, hcond⟩ := (Option.any_eq_true _ _).mp h1
  obtain ⟨hans, hbefore, hafter⟩ := of_decide_eq_true hcond
  refine ⟨e, he, hans, fun hsame => hbefore ?_⟩
  rwa [hsame.handles] at hafter

end Binderd.Broker.Failures
