import Binderd.Broker.Deaths
import Binderd.Broker.Roles

/-! # References

The registry keeps, for each handle, the list of the sessions that hold references to it, one entry
for each reference. `Acquire` appends an entry, `Release` erases one, and the list goes with its
handle; nothing else touches it (`ReferencesStep`).

* `registryLive_iff`: `Terminate` does not look for the session among the references to other
  sessions' handles, so the registry names live sessions only exactly as long as no session
  terminates that holds such a reference;
* `references_accounted`: the entries are the references that were acquired and not released, if the
  handles named in the messages fit into one byte. -/

namespace Binderd.Broker.References

open Binderd.Lib.Bytes Binderd.Lib.Tables Binderd.Lib.Runs
open Binderd.Wire.Streams Binderd.Wire.Messages Binderd.Wire.Transactions
open Binderd.Broker.State Binderd.Broker.Handles Binderd.Broker.Sessions Binderd.Broker.Effects
open Binderd.Broker.Agreement Binderd.Broker.Delivery Binderd.Broker.Deaths Binderd.Broker.Roles

/-! ### The two operations of the registry -/

/-- The number of references of a session to a handle. -/
def referenceCount (r : Registry) (k : ℕ) (s : SessionId) : ℕ :=
  ((r.references.lookup k).getD []).count s

theorem referenceCount_pos {st : ServerState} {k : ℕ} {s : SessionId} :
    0 < referenceCount st.registry k s ↔ s ∈ referencesOf st k :=
  List.count_pos_iff

theorem addReferenceForHandle_status (r : Registry) (s : SessionId) (k : ℕ) :
    (addReferenceForHandle r s k).1 = if k ∈ r.handles then .ok else .deadObject := by
  unfold addReferenceForHandle
  by_cases hk : k ∈ r.handles
  · rw [if_neg (not_not.mpr hk), if_pos hk]
    split <;> rfl
  · rw [if_pos hk, if_neg hk]

theorem addReferenceForHandle_lookup (r : Registry) (s : SessionId) {k : ℕ} (hk : k ∈ r.handles)
    (j : ℕ) : (addReferenceForHandle r s k).2.references.lookup j =
      if j = k then some ((r.references.lookup k).getD [] ++ [s]) else r.references.lookup j := by
  unfold addReferenceForHandle
  rw [if_neg (not_not.mpr hk)]
  cases hrefs : r.references.lookup k with
  | none =>
    split_ifs with hj
    · rw [hj]
      exact AList.lookup_insert _
    · exact AList.lookup_insert_ne hj
  | some refs =>
    split_ifs with hj
    · rw [hj]
      exact AList.lookup_insert _
    · exact AList.lookup_insert_ne hj

theorem addReferenceForHandle_unknown (r : Registry) (s : SessionId) {k : ℕ}
    (hk : k ∉ r.handles) : addReferenceForHandle r s k = (.deadObject, r) := if_pos hk

theorem referenceCount_add (r : Registry) (s u : SessionId) (j k : ℕ) :
    referenceCount (addReferenceForHandle r s k).2 j u =
      referenceCount r j u + if k ∈ r.handles ∧ j = k ∧ s = u then 1 else 0 := by
  by_cases hk : k ∈ r.handles
  · unfold referenceCount
    rw [addReferenceForHandle_lookup r s hk]
    by_cases hj : j = k
    · subst hj
      simp [hk, List.count_singleton]
    · simp [hj]
  · rw [addReferenceForHandle_unknown r s hk]
    simp [hk]

theorem addReferenceForHandle_mem {r : Registry} {s : SessionId} {j k : ℕ}
    (h : k ∈ (addReferenceForHandle r s j).2.references) :
    k ∈ r.references ∨ k = j ∧ j ∈ r.handles := by
  by_cases hj : j ∈ r.handles
  · rw [← AList.lookup_isSome, addReferenceForHandle_lookup r s hj] at h
    split_ifs at h with hkj
    · exact .inr ⟨hkj, hj⟩
    · exact .inl (AList.lookup_isSome.mp h)
  · rw [addReferenceForHandle_unknown r s hj] at h
    exact .inl h

theorem removeReferenceForHandle_unknown (r : Registry) (s : SessionId) {k : ℕ}
    (hk : k ∉ r.handles) : removeReferenceForHandle r s k = (.deadObject, r) := if_pos hk

theorem removeReferenceForHandle_none {r : Registry} {s : SessionId} {k : ℕ}
    (hk : k ∈ r.handles) (h0 : referenceCount r k s = 0) :
    removeReferenceForHandle r s k = (.badValue, r) := by
  unfold removeReferenceForHandle
  unfold referenceCount at h0
  rw [if_neg (not_not.mpr hk)]
  cases hrefs : r.references.lookup k with
  | none => rfl
  | some refs =>
    rw [hrefs] at h0
    exact if_pos (List.count_eq_zero.mp h0)

theorem removeReferenceForHandle_some {r : Registry} {s : SessionId} {k : ℕ}
    (hk : k ∈ r.handles) (h0 : 0 < referenceCount r k s) :
    removeReferenceForHandle r s k = (.ok, { r with
      references := r.references.insert k (((r.references.lookup k).getD []).erase s) }) := by
  unfold removeReferenceForHandle
  unfold referenceCount at h0
  rw [if_neg (not_not.mpr hk)]
  cases hrefs : r.references.lookup k with
  | none =>
    rw [hrefs] at h0
    simp at h0
  | some refs =>
    rw [hrefs] at h0
    exact if_neg (not_not.mpr (List.count_pos_iff.mp h0))

theorem removeReferenceForHandle_mem {r : Registry} {s : SessionId} {j k : ℕ}
    (h : k ∈ (removeReferenceForHandle r s j).2.references) :
    k ∈ r.references ∨ k = j ∧ j ∈ r.handles := by
  by_cases hj : j ∈ r.handles
  · rcases Nat.eq_zero_or_pos (referenceCount r j s) with h0 | h0
    · rw [removeReferenceForHandle_none hj h0] at h
      exact .inl h
    · rw [removeReferenceForHandle_some hj h0, AList.mem_insert] at h
      exact h.symm.imp id fun hkj => ⟨hkj, hj⟩
  · rw [removeReferenceForHandle_unknown r s hj] at h
    exact .inl h

theorem removeReferenceForHandle_status (r : Registry) (s : SessionId) (k : ℕ) :
    (removeReferenceForHandle r s k).1 =
      if k ∈ r.handles then if 0 < referenceCount r k s then .ok else .badValue
      else .deadObject := by
  by_cases hk : k ∈ r.handles
  · rcases Nat.eq_zero_or_pos (referenceCount r k s) with h0 | h0
    · rw [removeReferenceForHandle_none hk h0]
      simp [hk, h0]
    · rw [removeReferenceForHandle_some hk h0]
      simp [hk, h0]
  · rw [removeReferenceForHandle_unknown r s hk, if_neg hk]

theorem referenceCount_remove (r : Registry) (s u : SessionId) (j k : ℕ) :
    referenceCount (removeReferenceForHandle r s k).2 j u +
        (if k ∈ r.handles ∧ 0 < referenceCount r k s ∧ j = k ∧ s = u then 1 else 0) =
      referenceCount r j u := by
  by_cases hk : k ∈ r.handles
  · rcases Nat.eq_zero_or_pos (referenceCount r k s) with h0 | h0
    · rw [removeReferenceForHandle_none hk h0]
      simp [h0]
    · rw [removeReferenceForHandle_some hk h0]
      by_cases hj : j = k
      · subst hj
        unfold referenceCount at h0 ⊢
        simp only [AList.lookup_insert, Option.getD_some, List.count_erase]
        by_cases hu : s = u
        · subst hu
          simp [hk, h0]
          omega
        · simp [hu]
      · unfold referenceCount
        simp [hj, AList.lookup_insert_ne hj]
  · rw [removeReferenceForHandle_unknown r s hk]
    simp [hk]

/-! ### Removing handles -/

theorem removeHandle_references_self {st : ServerState} {k : ℕ} (hk : k ∈ st.registry.handles) :
    (removeHandle st k).1.registry.references.lookup k = none := by
  unfold removeHandle
  rw [if_neg (not_not.mpr hk)]
  cases hrefs : st.registry.references.lookup k with
  | none => exact hrefs
  | some refs => exact AList.lookup_erase k _

theorem removeHandles_references : ∀ (order : List ℕ) (st : ServerState) (k : ℕ),
    (removeHandles st order).1.registry.references.lookup k =
      if k ∈ order ∧ k ∈ st.registry.handles then none else st.registry.references.lookup k
  | [], _, _ => by simp [removeHandles]
  | j :: order, st, k => by
    have ih := removeHandles_references order (removeHandle st j).1 k
    have hmem : k ∈ (removeHandle st j).1.registry.handles ↔ k ≠ j ∧ k ∈ st.registry.handles := by
      rw [← AList.lookup_isSome, removeHandle_lookup, ← AList.lookup_isSome]
      by_cases hkj : k = j <;> simp [hkj]
    rw [removeHandles]
    simp only [ih, hmem, List.mem_cons]
    by_cases hkj : k = j
    · subst hkj
      by_cases hk : k ∈ st.registry.handles
      · simp [hk, removeHandle_references_self hk]
      · simp [hk, removeHandle_unknown hk]
    · simp [hkj, removeHandle_references st hkj]

theorem terminate_references (st : ServerState) (s : SessionId) (order : List ℕ) (k : ℕ) :
    (terminate st s order).1.registry.references.lookup k =
      if k ∈ order ∧ k ∈ st.registry.handles then none else st.registry.references.lookup k := by
  rw [(terminate_registry st s order).2.1, removeHandles_references]

/-! ### What a step does to the references -/

/-- **What an action can do to the references.** -/
inductive ReferencesStep (st : ServerState) : Action → ServerState → Prop
  | kept {a st'} : (∀ s order, a ≠ .terminate s order) →
      st'.registry.references = st.registry.references → ReferencesStep st a st'
  | acquired {s msg beyond} : st.Live s → msg.type = .acquire →
      ReferencesStep st (.process s msg beyond) { st with
        registry := (addReferenceForHandle st.registry s (byteOf msg.data 0)).2 }
  | released {s msg beyond} : st.Live s → msg.type = .release →
      ReferencesStep st (.process s msg beyond) { st with
        registry := (removeReferenceForHandle st.registry s (byteOf msg.data 0)).2 }
  | terminated {s order} : st.Live s → order.Perm (st.sessions s).objects.keys →
      ReferencesStep st (.terminate s order) (terminate st s order).1

theorem referencesStep_of_effect {st st' : ServerState} {a : Action} {ws : List Write}
    (h : Effect st a st' ws) : ReferencesStep st a st' := by
  cases h with
  | connected => exact .kept (fun _ _ h => by cases h) rfl
  | rejected _ _ he _ => exact .kept (fun _ _ h => by cases h) (Exports.frame he).references
  | refused _ _ he _ he' _ =>
    exact .kept (fun _ _ h => by cases h)
      ((Exports.frame he').references.trans (Exports.frame he).references)
  | delivered d =>
    exact .kept (fun _ _ h => by cases h)
      ((Exports.frame d.target_exports).references.trans
        (Exports.frame d.caller_exports).references)
  | contextMgrSet _ _ _ h' => exact .kept (fun _ _ h => by cases h) (by rw [h'])
  | monitorSet _ _ _ h' => exact .kept (fun _ _ h => by cases h) (by rw [h'])
  | @reference s msg beyond status r _ hl _ hr h' =>
    subst h'
    rcases hr with ⟨ht, hr⟩ | ⟨ht, hr⟩
    · have hstep : ReferencesStep st (.process s msg beyond) _ := .acquired hl ht
      rwa [hr] at hstep
    · have hstep : ReferencesStep st (.process s msg beyond) _ := .released hl ht
      rwa [hr] at hstep
  | death _ _ _ _ h' => exact .kept (fun _ _ h => by cases h) (by rw [h']; rfl)
  | terminated hl hp hr =>
    rw [hr]
    exact .terminated hl hp
  | _ => exact .kept (fun _ _ h => by cases h) rfl

theorem stays_live_of_effect {st st' : ServerState} {a : Action} {ws : List Write}
    (h : Effect st a st' ws) {t : SessionId} (hl : st.Live t)
    (ha : ∀ order, a ≠ .terminate t order) : st'.Live t := by
  refine ⟨lt_of_lt_of_le hl.1 h.numSessions_le, ?_⟩
  by_contra hd
  rw [Bool.not_eq_false] at hd
  rcases (h.terminated_cases (lt_of_lt_of_le hl.1 h.numSessions_le) hd).2 with hterm | ⟨order, ho⟩
  · rw [hl.2] at hterm
    cases hterm
  · exact ha order ho

/-! ### The registry names live sessions -/

/-- References are kept for known handles only. -/
def ReferencesKnown (st : ServerState) : Prop :=
  ∀ k ∈ st.registry.references, k ∈ st.registry.handles

/-- The monitor, if there is one, is a live session. -/
def MonitorLive (st : ServerState) : Prop := ∀ s, st.registry.monitor = some s → st.Live s

/-- Handles are added, and those that are new were not allocated before. -/
structure HandlesGrow (st st' : ServerState) : Prop where
  kept : ∀ k ∈ st.registry.handles, k ∈ st'.registry.handles
  fresh : st'.registry.nextObjectHandle ≤ 2 ^ 64 → ∀ k ∈ st'.registry.handles,
    k ∈ st.registry.handles ∨ st.registry.nextObjectHandle ≤ k
  next : st.registry.nextObjectHandle ≤ st'.registry.nextObjectHandle

namespace HandlesGrow

variable {st st' st'' : ServerState}

theorem of_eq (hh : st'.registry.handles = st.registry.handles)
    (hn : st'.registry.nextObjectHandle = st.registry.nextObjectHandle) : HandlesGrow st st' := by
  refine ⟨fun k hk => ?_, fun _ k hk => ?_, hn.ge⟩
  · rwa [hh]
  · rw [hh] at hk
    exact .inl hk

theorem trans (h : HandlesGrow st st') (h' : HandlesGrow st' st'') : HandlesGrow st st'' := by
  refine ⟨fun k hk => h'.kept k (h.kept k hk), fun hb k hk => ?_, h.next.trans h'.next⟩
  rcases h'.fresh hb k hk with hk | hk
  · exact h.fresh (h'.next.trans hb) k hk
  · exact .inr (h.next.trans hk)

theorem exports {s : SessionId} (h : Exports s st st') : HandlesGrow st st' := by
  induction h with
  | refl => exact of_eq rfl rfl
  | @tail st₁ _ _ he ih =>
    obtain ⟨obj, rfl⟩ := he
    refine ih.trans ⟨fun k hk => ?_, fun hb k hk => ?_, ?_⟩
    · rw [exportObject_handles, mem_insertNew]
      exact .inr hk
    · rw [exportObject_next] at hb
      rw [exportObject_handles, mem_insertNew, Nat.mod_eq_of_lt (by omega)] at hk
      exact hk.symm.imp id fun he => he.ge
    · rw [exportObject_next]
      omega

end HandlesGrow

theorem handlesGrow_of_effect {st st' : ServerState} {a : Action} {ws : List Write}
    (h : Effect st a st' ws) (ha : ∀ s order, a ≠ .terminate s order) : HandlesGrow st st' := by
  cases h with
  | rejected _ _ he _ => exact .exports he
  | refused _ _ he _ he' _ =>
    have hpost : HandlesGrow _ _ := .exports he'
    exact HandlesGrow.trans (.exports he) ⟨hpost.kept, hpost.fresh, hpost.next⟩
  | delivered d =>
    have hpost : HandlesGrow _ _ := .exports d.target_exports
    exact HandlesGrow.trans (.exports d.caller_exports) ⟨hpost.kept, hpost.fresh, hpost.next⟩
  | contextMgrSet _ _ _ h' => exact .of_eq (by rw [h']) (by rw [h'])
  | monitorSet _ _ _ h' => exact .of_eq (by rw [h']) (by rw [h'])
  | reference _ _ hr h' =>
    obtain ⟨refs, hrefs⟩ := reference_registry (hr.imp And.right And.right)
    subst h'
    rw [hrefs]
    exact .of_eq rfl rfl
  | death _ _ _ _ h' => exact .of_eq (by rw [h']; rfl) (by rw [h']; rfl)
  | terminated _ _ _ => exact absurd rfl (ha _ _)
  | _ => exact .of_eq rfl rfl

theorem referencesKnown_step {st st' : ServerState} {a : Action} {ws : List Write}
    (h : ReferencesKnown st) (he : Effect st a st' ws) : ReferencesKnown st' := by
  intro k hk
  have hrefs := referencesStep_of_effect he
  have hgrow := handlesGrow_of_effect he
  cases hrefs with
  | kept ha hr =>
    rw [hr] at hk
    exact (hgrow ha).kept k (h k hk)
  | acquired hl ht =>
    refine (hgrow fun _ _ h => by cases h).kept k ?_
    rcases addReferenceForHandle_mem hk with hk | ⟨rfl, hm⟩
    · exact h k hk
    · exact hm
  | released hl ht =>
    refine (hgrow fun _ _ h => by cases h).kept k ?_
    rcases removeReferenceForHandle_mem hk with hk | ⟨rfl, hm⟩
    · exact h k hk
    · exact hm
  | terminated hl hp =>
    rename_i s order
    rw [← AList.lookup_isSome, terminate_references] at hk
    split_ifs at hk with hkm
    · cases hk
    · have hknown := h k (AList.lookup_isSome.mp hk)
      rw [← AList.lookup_isSome, (terminate_registry st s order).1, removeHandles_lookup,
        if_neg fun ho => hkm ⟨ho, hknown⟩, AList.lookup_isSome]
      exact hknown

theorem referencesKnown_of_run {h : List ServerStep} {st : ServerState} (hr : Run server h st) :
    ReferencesKnown st :=
  hr.preserves (P := ReferencesKnown) (fun k hk => absurd hk (AList.notMem_empty k))
    fun _ _ hv hk => referencesKnown_step hk (step_effect hv)

/-- **The monitor is live**, in every reachable state. -/
theorem monitorLive_of_run {h : List ServerStep} {st : ServerState} (hr : Run server h st) :
    MonitorLive st := by
  refine hr.preserves (P := MonitorLive) (fun s hs => by cases hs) ?_
  intro e _ hv hm s hs
  have heff := step_effect hv
  generalize e.action = a at heff
  cases slot_of_effect heff .monitor with
  | granted hl _ _ hset =>
    obtain rfl := Option.some.inj (hset.symm.trans hs)
    exact stays_live_of_effect heff hl fun order ha => by cases ha
  | vacated _ hnone => cases hnone.symm.trans hs
  | kept hkept hnot =>
    have hs' := hkept.symm.trans hs
    exact stays_live_of_effect heff (hm s hs') fun order ha => hnot s order ha hs'

/-- **Every session the registry names is live.** -/
structure RegistryLive (st : ServerState) : Prop where
  handles : ∀ k s, st.registry.handles.lookup k = some s → st.Live s
  references : ∀ k, ∀ s ∈ referencesOf st k, st.Live s
  contextMgr : ∀ s, st.registry.contextMgr = some s → st.Live s
  monitor : MonitorLive st

/-- After the step the registry names live sessions only, and the step has sent DeadBinder messages
to live sessions only. -/
structure DropsDead (e : ServerStep) : Prop where
  registry : RegistryLive e.after
  notified : ∀ w ∈ e.emitted, ∀ k, w.source = .sendDeathNotification k → e.before.Live w.session

/-- If the step is the termination of a session, the session holds references to its own handles
only. -/
def ReferencesOwnOnly (e : ServerStep) : Prop :=
  match e.action with
  | .terminate s _ => ∀ k refs, e.before.registry.references.lookup k = some refs → s ∈ refs →
      k ∈ (e.before.sessions s).objects
  | _ => True

instance : DecidablePred ReferencesOwnOnly
  | ⟨before, .terminate s _, _, _⟩ => inferInstanceAs (Decidable
      (∀ k refs, before.registry.references.lookup k = some refs → s ∈ refs →
        k ∈ (before.sessions s).objects))
  | ⟨_, .accept, _, _⟩ => isTrue trivial
  | ⟨_, .process .., _, _⟩ => isTrue trivial

theorem mem_referencesOf {st : ServerState} {k : ℕ} {s : SessionId} :
    s ∈ referencesOf st k ↔ ∃ refs, st.registry.references.lookup k = some refs ∧ s ∈ refs := by
  unfold referencesOf
  cases st.registry.references.lookup k <;> simp

theorem referencesLive_step {e : ServerStep} (hv : e.Valid server)
    (hknown : ReferencesKnown e.before) (hown : ReferencesOwnOnly e)
    (h : ∀ k, ∀ s ∈ referencesOf e.before k, e.before.Live s) :
    ∀ k, ∀ s ∈ referencesOf e.after k, e.after.Live s := by
  intro k u hu
  have heff := step_effect hv
  have hrefs := referencesStep_of_effect heff
  unfold ReferencesOwnOnly at hown
  generalize e.after = st' at hrefs heff hu ⊢
  generalize e.action = a at hrefs heff hown
  cases hrefs with
  | kept ha hr =>
    refine stays_live_of_effect heff (h k u ?_) fun order => ha u order
    rwa [mem_referencesOf, ← hr, ← mem_referencesOf]
  | @acquired s msg beyond hl ht =>
    rw [← referenceCount_pos, referenceCount_add] at hu
    split_ifs at hu with hnew
    · rw [← hnew.2.2]
      exact hl
    · exact h k u (referenceCount_pos.mp hu)
  | @released s msg beyond hl ht =>
    refine h k u (referenceCount_pos.mp ?_)
    have hle := referenceCount_remove e.before.registry s u k (byteOf msg.data 0)
    rw [← referenceCount_pos] at hu
    simp only at hu
    omega
  | @terminated s order hl hp =>
    obtain ⟨refs, hlookup, hmem⟩ := mem_referencesOf.mp hu
    rw [terminate_references] at hlookup
    split_ifs at hlookup with hkm
    rw [terminate_live]
    refine ⟨h k u (mem_referencesOf.mpr ⟨refs, hlookup, hmem⟩), ?_⟩
    rintro rfl
    exact hkm ⟨hp.mem_iff.mpr (hown k refs hlookup hmem), hknown k (mem_of_lookup hlookup)⟩

theorem registryLive_of_run {h : List ServerStep} {st : ServerState} (hr : Run server h st)
    (hown : ∀ e ∈ h, ReferencesOwnOnly e) : RegistryLive st := by
  have ho := owners_of_run hr
  refine ⟨fun k s hk => (ho.handles k s hk).1, ?_, ho.contextMgr, monitorLive_of_run hr⟩
  refine Run.invariant (C := ReferencesOwnOnly)
    (P := fun _ st => ∀ k, ∀ s ∈ referencesOf st k, st.Live s) ?_ ?_ hr hown
  · intro k s hs
    obtain ⟨refs, hlookup, -⟩ := mem_referencesOf.mp hs
    simp [server] at hlookup
  · intro h e hp ih hv hown
    exact referencesLive_step hv (referencesKnown_of_run hp) hown ih

theorem mem_removeHandle_session {st : ServerState} {j k : ℕ} {w : Write}
    (hw : w ∈ (removeHandle st j).2) (hs : w.source = .sendDeathNotification k) :
    j = k ∧ w.session ∈ referencesOf st j := by
  by_cases hj : j ∈ st.registry.handles
  · unfold removeHandle at hw
    rw [if_neg (not_not.mpr hj)] at hw
    cases hrefs : st.registry.references.lookup j with
    | none =>
      rw [hrefs] at hw
      cases hw
    | some refs =>
      rw [hrefs] at hw
      obtain ⟨t, ht, hw⟩ := List.mem_flatMap.mp hw
      rcases mem_sendDeathNotification hw with ⟨id, -, rfl⟩ | ⟨hlog, -⟩
      · cases hs
        exact ⟨rfl, mem_referencesOf.mpr ⟨refs, hrefs, ht⟩⟩
      · rw [hlog] at hs
        cases hs
  · rw [removeHandle_unknown hj] at hw
    cases hw

/-- A DeadBinder goes to a session that occurs among the references. -/
theorem notified_mem_references {e : ServerStep} (hv : e.Valid server) {w : Write}
    (hw : w ∈ e.emitted) {k : ℕ} (hs : w.source = .sendDeathNotification k) :
    w.session ∈ referencesOf e.before k := by
  have hwritten := (step_effect hv).written hw
  cases ha : e.action with
  | terminate s order =>
    have hstep : step e.before (.terminate s order) = some (e.after, e.emitted) := ha ▸ hv
    simp only [step] at hstep
    split_ifs at hstep with hl
    have hemit : e.emitted = (removeHandles e.before order).2 :=
      (congrArg Prod.snd (Option.some.inj hstep)).symm
    have hnd : order.Nodup := hl.2.nodup_iff.mpr (AList.keys_nodup _)
    rw [hemit, removeHandles_writes order _ hnd] at hw
    obtain ⟨j, -, hw⟩ := List.mem_flatMap.mp hw
    obtain ⟨rfl, hmem⟩ := mem_removeHandle_session hw hs
    exact hmem
  | _ =>
    rw [ha] at hwritten
    generalize e.after = st' at hwritten
    generalize e.emitted = ws at hwritten
    cases hwritten with
    | log hlog _ =>
      rw [hlog] at hs
      cases hs
    | _ => cases hs

/-- A session that dies with references to handles of others stays in the registry. -/
theorem referencesOwnOnly_of_registryLive {e : ServerStep} (hv : e.Valid server)
    (h : RegistryLive e.after) : ReferencesOwnOnly e := by
  unfold ReferencesOwnOnly
  split
  · next s order ha =>
    intro k refs hlookup hmem
    have hstep : step e.before (.terminate s order) = some (e.after, e.emitted) := ha ▸ hv
    simp only [step] at hstep
    split_ifs at hstep with hl
    have hafter : e.after = (terminate e.before s order).1 :=
      (congrArg Prod.fst (Option.some.inj hstep)).symm
    by_contra hk
    have hkept : e.after.registry.references.lookup k = some refs := by
      rw [hafter, terminate_references, if_neg, hlookup]
      exact fun hko => hk (hl.2.mem_iff.mp hko.1)
    have hlive := h.references k s (mem_referencesOf.mpr ⟨refs, hkept, hmem⟩)
    rw [hafter, terminate_live] at hlive
    exact hlive.2 rfl
  · trivial

/-- **References of the dead are dropped, over a whole run, if and only if every session that
terminates holds references to its own handles only.** -/
theorem registryLive_iff {h : List ServerStep} {st : ServerState} (hr : Run server h st) :
    (∀ e ∈ h, DropsDead e) ↔ ∀ e ∈ h, ReferencesOwnOnly e := by
  constructor
  · intro hall e he
    exact referencesOwnOnly_of_registryLive (hr.valid he) (hall e he).registry
  · intro hall e he
    obtain ⟨h1, h2, rfl, hp, hv, -⟩ := hr.prefix_of_mem he
    have hbefore := registryLive_of_run hp fun e' he' => hall e' (by simp [he'])
    have hafter : RegistryLive e.after := registryLive_of_run (.snoc hp hv) fun e' he' => by
      rcases List.mem_append.mp he' with he' | he'
      · exact hall e' (by simp [he'])
      · rw [List.mem_singleton.mp he']
        exact hall e he
    refine ⟨hafter, fun w hw k hs => ?_⟩
    exact hbefore.references k _ (notified_mem_references hv hw hs)

/-- Session `1` acquires a handle of session `0`, which then terminates. -/
theorem registryLive_deathScenario :
    (final server {} deathScenario).Live 1 ∧
      ((∀ e ∈ history server {} deathScenario, DropsDead e) ↔
        ∀ e ∈ history server {} deathScenario, ReferencesOwnOnly e) :=
  ⟨by decide +kernel, registryLive_iff (path_history server deathScenario {})⟩

/-- Session `1` acquires the handle `1`, which belongs to session `0`, and terminates. -/
def danglingScenario : List Action := registered ++ [acquired, .terminate 1 []]

/-- Session `1` has terminated and still occurs among the references to the handle `1`. -/
theorem reference_of_the_dead :
    Run server (history server {} danglingScenario) (final server {} danglingScenario) ∧
      (1 ∈ referencesOf (final server {} danglingScenario) 1 ∧
        ¬ (final server {} danglingScenario).Live 1) ∧
      ¬ ∀ e ∈ history server {} danglingScenario, DropsDead e := by
  refine ⟨path_history server danglingScenario {}, by decide +kernel, fun hall => ?_⟩
  have hdead : ∃ e ∈ history server {} danglingScenario,
      1 ∈ referencesOf e.after 1 ∧ ¬ e.after.Live 1 := by decide +kernel
  obtain ⟨e, he, hmem, hnot⟩ := hdead
  exact hnot ((hall e he).registry.references 1 1 hmem)

/-! ### The accounts -/

/-- The step is a message of type `t`, of the session `s` for the handle `k`, that is answered with
`OK`. -/
def Counted (t : MessageType) (s : SessionId) (k : ℕ) (e : ServerStep) : Prop :=
  match e.action with
  | .process u msg _ => u = s ∧ msg.type = t ∧ handleField msg = k ∧ AnsweredWith e u msg .ok
  | _ => False

instance (t : MessageType) (s : SessionId) (k : ℕ) : DecidablePred (Counted t s k)
  | ⟨_, .process u msg _, ws, _⟩ => inferInstanceAs (Decidable (u = s ∧ msg.type = t ∧
      handleField msg = k ∧ ⟨u, statusMessage msg .ok, .sendStatus msg .ok⟩ ∈ ws))
  | ⟨_, .accept, _, _⟩ => isFalse id
  | ⟨_, .terminate .., _, _⟩ => isFalse id

/-- The `Acquire` messages of `s` for `k` that were answered with `OK`. -/
def acquires (h : List ServerStep) (s : SessionId) (k : ℕ) : ℕ :=
  h.countP fun e => decide (Counted .acquire s k e)

/-- The `Release` messages of `s` for `k` that were answered with `OK`. -/
def releases (h : List ServerStep) (s : SessionId) (k : ℕ) : ℕ :=
  h.countP fun e => decide (Counted .release s k e)

/-- A `Release` is answered with `OK`, `BadValue` or `DeadObject` as the count demands. -/
def ReleaseExact (e : ServerStep) : Prop :=
  ∀ s msg beyond, e.action = .process s msg beyond → msg.type = .release →
    (AnsweredWith e s msg .ok ↔ 0 < (referencesOf e.before (handleField msg)).count s) ∧
    (AnsweredWith e s msg .badValue ↔ handleField msg ∈ e.before.registry.handles ∧
      (referencesOf e.before (handleField msg)).count s = 0) ∧
    (AnsweredWith e s msg .deadObject ↔ handleField msg ∉ e.before.registry.handles)

/-- A message changes the count of its own session and handle only, if it is an `Acquire` or a
`Release`, and else no count. -/
def ChangesOwnCount (e : ServerStep) : Prop :=
  ∀ s msg beyond, e.action = .process s msg beyond → ∀ u k,
    (referencesOf e.after k).count u ≠ (referencesOf e.before k).count u →
      u = s ∧ k = handleField msg ∧ (msg.type = .acquire ∨ msg.type = .release)

/-- The handle that an `Acquire` or a `Release` carries fits into one byte. -/
def HandleFits (e : ServerStep) : Prop :=
  match e.action with
  | .process _ msg _ => msg.type = .acquire ∨ msg.type = .release →
      8 ≤ msg.data.length ∧ handleField msg < 256
  | _ => True

instance : DecidablePred HandleFits
  | ⟨_, .process _ msg _, _, _⟩ => inferInstanceAs (Decidable
      (msg.type = .acquire ∨ msg.type = .release → 8 ≤ msg.data.length ∧ handleField msg < 256))
  | ⟨_, .accept, _, _⟩ => isTrue trivial
  | ⟨_, .terminate .., _, _⟩ => isTrue trivial

theorem acquires_snoc (h : List ServerStep) (e : ServerStep) (s : SessionId) (k : ℕ) :
    acquires (h ++ [e]) s k = acquires h s k + if Counted .acquire s k e then 1 else 0 := by
  simp [acquires, List.countP_append, List.countP_singleton]

theorem releases_snoc (h : List ServerStep) (e : ServerStep) (s : SessionId) (k : ℕ) :
    releases (h ++ [e]) s k = releases h s k + if Counted .release s k e then 1 else 0 := by
  simp [releases, List.countP_append, List.countP_singleton]

/-- The switch of `OnReference`. -/
def referenceOp (t : MessageType) (r : Registry) (s : SessionId) (k : ℕ) : Status × Registry :=
  match t with
  | .acquire => addReferenceForHandle r s k
  | .release => removeReferenceForHandle r s k
  | _ => (.deadObject, r)

theorem onReference_eq {st : ServerState} {s : SessionId} {msg : Message}
    (h : 8 ≤ msg.data.length) (ht : msg.type = .acquire ∨ msg.type = .release) :
    onReference st s msg =
      let r := referenceOp msg.type st.registry s (byteOf msg.data 0)
      .ok ({ st with registry := r.2 }, sendStatus { st with registry := r.2 } s msg r.1) := by
  have hread := BinaryReader.readValue_of_le (r := ⟨msg.data, 0, true⟩) (w := 8) (by simpa using h)
  simp only [onReference, BinaryReader.readUint64, bind, Except.bind, hread]
  rcases ht with ht | ht
  · simp only [ht, referenceOp]
    rfl
  · simp only [ht, referenceOp]
    rfl

theorem processMessage_reference {st : ServerState} {s : SessionId} {msg : Message}
    (h : 8 ≤ msg.data.length) (ht : msg.type = .acquire ∨ msg.type = .release)
    (beyond : List UInt8) :
    processMessage st s msg beyond =
      let r := referenceOp msg.type st.registry s (byteOf msg.data 0)
      .ok ({ st with registry := r.2 }, sendStatus { st with registry := r.2 } s msg r.1) := by
  have hp : processMessage st s msg beyond = (onReference st s msg).mapError .thrown := by
    unfold processMessage
    rcases ht with ht | ht
    · simp only [ht]
    · simp only [ht]
  rw [hp]
  exact mapError_of_ok (onReference_eq h ht) _

theorem reference_step {e : ServerStep} {s : SessionId} {msg : Message} {beyond : List UInt8}
    (hv : e.Valid server) (ha : e.action = .process s msg beyond)
    (ht : msg.type = .acquire ∨ msg.type = .release) (hfit : HandleFits e) :
    e.after.registry = (referenceOp msg.type e.before.registry s (handleField msg)).2 ∧
      ∀ status, AnsweredWith e s msg status ↔
        status = (referenceOp msg.type e.before.registry s (handleField msg)).1 := by
  unfold HandleFits at hfit
  rw [ha] at hfit
  obtain ⟨hlen, hlt⟩ := hfit ht
  have hhandle : (msg.data.getD 0 0).toNat = handleField msg :=
    toNat_of_load_lt (m := ofList msg.data) hlt
  obtain ⟨h1, h2⟩ := step_process hv ha (processMessage_reference hlen ht beyond)
  rw [byteOf, hhandle] at h1 h2
  refine ⟨by rw [h1], fun status => ?_⟩
  unfold AnsweredWith
  rw [h2, mem_sendStatus_iff]

/-- What the other steps do to the counts, and which handles they make known. -/
theorem other_step {e : ServerStep} (hv : e.Valid server)
    (hother : ∀ s msg beyond, e.action = .process s msg beyond →
      msg.type ≠ .acquire ∧ msg.type ≠ .release) :
    (∃ s order, e.action = .terminate s order ∧ e.after = (terminate e.before s order).1) ∨
      (∀ s order, e.action ≠ .terminate s order) ∧
        e.after.registry.references = e.before.registry.references ∧
        HandlesGrow e.before e.after := by
  have heff := step_effect hv
  have hrefs := referencesStep_of_effect heff
  have hgrow := handlesGrow_of_effect heff
  generalize e.after = st' at hrefs hgrow ⊢
  generalize e.action = a at hrefs hgrow hother ⊢
  cases hrefs with
  | kept ha hr => exact .inr ⟨ha, hr, hgrow ha⟩
  | acquired _ ht => exact absurd ht (hother _ _ _ rfl).1
  | released _ ht => exact absurd ht (hother _ _ _ rfl).2
  | terminated _ _ => exact .inl ⟨_, _, rfl, rfl⟩

/-! ### Runs -/

/-- **The accounts**: for a known handle the count is what was acquired and not released, and for a
handle that was never allocated nothing was. -/
structure Accounted (h : List ServerStep) (st : ServerState) : Prop where
  counts : ∀ k ∈ st.registry.handles, ∀ s,
    referenceCount st.registry k s + releases h s k = acquires h s k
  fresh : ∀ k, st.registry.nextObjectHandle ≤ k → ∀ s,
    acquires h s k = 0 ∧ releases h s k = 0

theorem not_counted_of_other {e : ServerStep} (hother : ∀ s msg beyond,
    e.action = .process s msg beyond → msg.type ≠ .acquire ∧ msg.type ≠ .release)
    (s : SessionId) (k : ℕ) : ¬ Counted .acquire s k e ∧ ¬ Counted .release s k e := by
  unfold Counted
  cases ha : e.action with
  | process u msg beyond =>
    obtain ⟨h1, h2⟩ := hother u msg beyond ha
    exact ⟨fun hc => h1 hc.2.1, fun hc => h2 hc.2.1⟩
  | _ => exact ⟨id, id⟩

theorem Accounted.other {h : List ServerStep} {e : ServerStep} (hacc : Accounted h e.before)
    (hv : e.Valid server) (hagree : Agrees e.before) (hknown : ReferencesKnown e.before)
    (hb : e.after.registry.nextObjectHandle ≤ 2 ^ 64)
    (hother : ∀ s msg beyond, e.action = .process s msg beyond →
      msg.type ≠ .acquire ∧ msg.type ≠ .release) : Accounted (h ++ [e]) e.after := by
  have hnot := not_counted_of_other hother
  have hsame : ∀ s k, acquires (h ++ [e]) s k = acquires h s k ∧
      releases (h ++ [e]) s k = releases h s k := by
    intro s k
    rw [acquires_snoc, releases_snoc, if_neg (hnot s k).1, if_neg (hnot s k).2]
    exact ⟨rfl, rfl⟩
  rcases other_step hv hother with ⟨s, order, ha, hafter⟩ | ⟨-, hrefs, hgrow⟩
  · obtain ⟨hhandles, -, hnext, -, -⟩ := terminate_registry e.before s order
    refine ⟨fun k hk u => ?_, fun k hk u => ?_⟩
    · rw [hafter, ← AList.lookup_isSome, hhandles, removeHandles_lookup] at hk
      split_ifs at hk with hko
      · cases hk
      · rw [(hsame u k).1, (hsame u k).2, hafter, referenceCount, terminate_references,
          if_neg fun h => hko h.1]
        exact hacc.counts k (AList.lookup_isSome.mp hk) u
    · rw [(hsame u k).1, (hsame u k).2]
      rw [hafter, hnext] at hk
      exact hacc.fresh k hk u
  · refine ⟨fun k hk u => ?_, fun k hk u => ?_⟩
    · rw [(hsame u k).1, (hsame u k).2, referenceCount, hrefs]
      rcases hgrow.fresh hb k hk with hk | hk
      · exact hacc.counts k hk u
      · -- a handle that is new has no references, and nothing was done with it
        have hnone : e.before.registry.references.lookup k = none := by
          refine AList.lookup_eq_none.mpr fun hr => ?_
          have := (hagree.range k (hknown k hr)).2
          omega
        obtain ⟨h1, h2⟩ := hacc.fresh k hk u
        rw [hnone, h1, h2]
        rfl
    · rw [(hsame u k).1, (hsame u k).2]
      exact hacc.fresh k (hgrow.next.trans hk) u

theorem counted_iff {e : ServerStep} {s u : SessionId} {msg : Message} {beyond : List UInt8}
    (ha : e.action = .process s msg beyond) (t : MessageType) (k : ℕ) :
    Counted t u k e ↔ s = u ∧ msg.type = t ∧ handleField msg = k ∧ AnsweredWith e s msg .ok := by
  unfold Counted
  rw [ha]

theorem referenceOp_registry (t : MessageType) (r : Registry) (s : SessionId) (k : ℕ) :
    ∃ refs, (referenceOp t r s k).2 = { r with references := refs } := by
  unfold referenceOp
  split
  · exact reference_registry (.inl (Prod.eta (addReferenceForHandle r s k)).symm)
  · exact reference_registry (.inr (Prod.eta (removeReferenceForHandle r s k)).symm)
  · exact ⟨r.references, rfl⟩

/-- An `Acquire` that is answered with `OK` adds one to the count of its session and handle, and
nothing else changes. -/
theorem acquire_counts {e : ServerStep} {s : SessionId} {msg : Message} {beyond : List UInt8}
    (hv : e.Valid server) (ha : e.action = .process s msg beyond) (ht : msg.type = .acquire)
    (hfit : HandleFits e) (u : SessionId) (k : ℕ) :
    referenceCount e.after.registry k u =
      referenceCount e.before.registry k u + if Counted .acquire u k e then 1 else 0 := by
  obtain ⟨hreg, hans⟩ := reference_step hv ha (.inl ht) hfit
  have hcounted : Counted .acquire u k e ↔
      handleField msg ∈ e.before.registry.handles ∧ k = handleField msg ∧ s = u := by
    rw [counted_iff ha, hans, ht, referenceOp, addReferenceForHandle_status]
    by_cases hk : handleField msg ∈ e.before.registry.handles
    · simp [hk, eq_comm, and_comm]
    · simp [hk]
  rw [hreg, ht, referenceOp, referenceCount_add]
  simp only [hcounted]

/-- A `Release` that is answered with `OK` takes one from the count of its session and handle, and
nothing else changes. -/
theorem release_counts {e : ServerStep} {s : SessionId} {msg : Message} {beyond : List UInt8}
    (hv : e.Valid server) (ha : e.action = .process s msg beyond) (ht : msg.type = .release)
    (hfit : HandleFits e) (u : SessionId) (k : ℕ) :
    referenceCount e.after.registry k u + (if Counted .release u k e then 1 else 0) =
      referenceCount e.before.registry k u := by
  obtain ⟨hreg, hans⟩ := reference_step hv ha (.inr ht) hfit
  have hcounted : Counted .release u k e ↔ handleField msg ∈ e.before.registry.handles ∧
      0 < referenceCount e.before.registry (handleField msg) s ∧ k = handleField msg ∧ s = u := by
    rw [counted_iff ha, hans, ht, referenceOp, removeReferenceForHandle_status]
    by_cases hk : handleField msg ∈ e.before.registry.handles
    · by_cases hpos : 0 < referenceCount e.before.registry (handleField msg) s
      · simp [hk, hpos, eq_comm, and_comm]
      · simp [hk, hpos]
    · simp [hk]
  have hcount := referenceCount_remove e.before.registry s u k (handleField msg)
  rw [hreg, ht, referenceOp]
  simp only [hcounted]
  exact hcount

/-- An `Acquire` or a `Release` moves the count and the account of its session and handle
together. -/
theorem reference_counts {h : List ServerStep} {e : ServerStep} {s : SessionId} {msg : Message}
    {beyond : List UInt8} (hv : e.Valid server) (ha : e.action = .process s msg beyond)
    (ht : msg.type = .acquire ∨ msg.type = .release) (hfit : HandleFits e) (u : SessionId)
    (k : ℕ) :
    referenceCount e.after.registry k u + releases (h ++ [e]) u k + acquires h u k =
      referenceCount e.before.registry k u + releases h u k + acquires (h ++ [e]) u k := by
  rw [acquires_snoc, releases_snoc]
  rcases ht with ht | ht
  · have hother : ¬ Counted .release u k e := by
      rw [counted_iff ha, ht]
      simp
    have hcounts := acquire_counts hv ha ht hfit u k
    rw [if_neg hother]
    omega
  · have hother : ¬ Counted .acquire u k e := by
      rw [counted_iff ha, ht]
      simp
    have hcounts := release_counts hv ha ht hfit u k
    rw [if_neg hother]
    omega

theorem Accounted.reference {h : List ServerStep} {e : ServerStep} {s : SessionId} {msg : Message}
    {beyond : List UInt8} (hacc : Accounted h e.before) (hv : e.Valid server)
    (hagree : Agrees e.before)
    (ha : e.action = .process s msg beyond) (ht : msg.type = .acquire ∨ msg.type = .release)
    (hfit : HandleFits e) : Accounted (h ++ [e]) e.after := by
  obtain ⟨hreg, hans⟩ := reference_step hv ha ht hfit
  obtain ⟨refs, hrefs⟩ := referenceOp_registry msg.type e.before.registry s (handleField msg)
  have hcounts := reference_counts (h := h) hv ha ht hfit
  refine ⟨fun k hk u => ?_, fun k hk u => ?_⟩
  · rw [hreg, hrefs] at hk
    have h1 := hacc.counts k hk u
    have h2 := hcounts u k
    omega
  · rw [hreg, hrefs] at hk
    obtain ⟨h1, h2⟩ := hacc.fresh k hk u
    -- a message for a handle that was never allocated is not answered with `OK`
    have hnot : ∀ t, ¬ Counted t u k e := by
      intro t hc
      obtain ⟨-, -, hfield, hok⟩ := (counted_iff ha t k).mp hc
      have hmem : k ∈ e.before.registry.handles := by
        by_contra hk'
        rw [hans] at hok
        rw [← hfield] at hk'
        rcases ht with ht | ht
        · simp [ht, referenceOp, addReferenceForHandle_status, hk'] at hok
        · simp [ht, referenceOp, removeReferenceForHandle_status, hk'] at hok
      have := (hagree.range k hmem).2
      simp only at hk
      omega
    rw [acquires_snoc, releases_snoc, if_neg (hnot _), if_neg (hnot _), h1, h2]
    exact ⟨rfl, rfl⟩

theorem accounted_of_run {h : List ServerStep} {st : ServerState} (hr : Run server h st)
    (hfit : ∀ e ∈ h, HandleFits e) (hb : st.registry.nextObjectHandle ≤ 2 ^ 64) :
    Accounted h st := by
  revert hb
  refine Run.invariant (C := HandleFits)
    (P := fun h st => st.registry.nextObjectHandle ≤ 2 ^ 64 → Accounted h st) ?_ ?_ hr hfit
  · exact fun _ => ⟨fun k hk => absurd hk (AList.notMem_empty k), fun _ _ _ => ⟨rfl, rfl⟩⟩
  · intro h e hp ih hv hfit hb
    have hbefore := (next_le_of_effect (step_effect hv)).trans hb
    have hagree := agrees_of_run hp hbefore
    have hknown := referencesKnown_of_run hp
    by_cases href : ∃ s msg beyond, e.action = .process s msg beyond ∧
        (msg.type = .acquire ∨ msg.type = .release)
    · obtain ⟨s, msg, beyond, ha, ht⟩ := href
      exact (ih hbefore).reference hv hagree ha ht hfit
    · refine (ih hbefore).other hv hagree hknown hb fun s msg beyond ha => ?_
      refine ⟨fun ht => href ⟨s, msg, beyond, ha, .inl ht⟩,
        fun ht => href ⟨s, msg, beyond, ha, .inr ht⟩⟩

theorem releaseExact_step {e : ServerStep} (hv : e.Valid server) (hfit : HandleFits e)
    (hknown : ReferencesKnown e.before) : ReleaseExact e := by
  intro s msg beyond ha ht
  obtain ⟨-, hans⟩ := reference_step hv ha (.inr ht) hfit
  have hstatus := removeReferenceForHandle_status e.before.registry s (handleField msg)
  simp only [hans, ht, referenceOp, hstatus]
  change (_ ↔ 0 < referenceCount e.before.registry (handleField msg) s) ∧
    (_ ↔ _ ∧ referenceCount e.before.registry (handleField msg) s = 0) ∧ _
  by_cases hk : handleField msg ∈ e.before.registry.handles
  · rcases Nat.eq_zero_or_pos (referenceCount e.before.registry (handleField msg) s) with h0 | h0
    · simp [hk, h0]
    · simp [hk, h0, Nat.ne_of_gt h0]
  · have h0 : referenceCount e.before.registry (handleField msg) s = 0 := by
      have hnone : e.before.registry.references.lookup (handleField msg) = none :=
        AList.lookup_eq_none.mpr fun hr => hk (hknown _ hr)
      simp [referenceCount, hnone]
    simp [hk, h0]

theorem changesOwnCount_step {e : ServerStep} (hv : e.Valid server) (hfit : HandleFits e) :
    ChangesOwnCount e := by
  intro s msg beyond ha u k hne
  change referenceCount e.after.registry k u ≠ referenceCount e.before.registry k u at hne
  by_cases ht : msg.type = .acquire ∨ msg.type = .release
  · -- the count changes with the account, which is that of the message
    have hcounted : ∃ t, Counted t u k e := by
      by_contra hno
      rw [not_exists] at hno
      rcases ht with ht | ht
      · have hcounts := acquire_counts hv ha ht hfit u k
        rw [if_neg (hno .acquire)] at hcounts
        exact hne hcounts
      · have hcounts := release_counts hv ha ht hfit u k
        rw [if_neg (hno .release)] at hcounts
        exact hne hcounts
    obtain ⟨t, hc⟩ := hcounted
    obtain ⟨hs, -, hk, -⟩ := (counted_iff ha t k).mp hc
    exact ⟨hs.symm, hk.symm, ht⟩
  · rw [not_or] at ht
    have hother : ∀ s' msg' beyond', e.action = .process s' msg' beyond' →
        msg'.type ≠ .acquire ∧ msg'.type ≠ .release := by
      intro s' msg' beyond' ha'
      rw [ha] at ha'
      cases ha'
      exact ht
    rcases other_step hv hother with ⟨s', order, ha', -⟩ | ⟨-, hrefs, -⟩
    · rw [ha] at ha'
      cases ha'
    · rw [referenceCount, hrefs] at hne
      exact absurd rfl hne

/-- **References are accounted for**: in every run in which the handles in `Acquire` and `Release`
messages fit into one byte and the counter of handles has not wrapped around, the references of a
session to a known handle are those it has acquired and not released, every `Release` is answered
accordingly, and a message changes the count of its own session and handle only. -/
theorem references_accounted {h : List ServerStep} {st : ServerState} (hr : Run server h st)
    (hfit : ∀ e ∈ h, HandleFits e) (hb : allocatedHandles st < 2 ^ 64) :
    (∀ k ∈ st.registry.handles, ∀ s,
      (referencesOf st k).count s + releases h s k = acquires h s k) ∧
    ∀ e ∈ h, ReleaseExact e ∧ ChangesOwnCount e := by
  unfold allocatedHandles at hb
  refine ⟨(accounted_of_run hr hfit (by omega)).counts, fun e he => ?_⟩
  obtain ⟨h1, h2, -, hp, hv, -⟩ := hr.prefix_of_mem he
  exact ⟨releaseExact_step hv (hfit e he) (referencesKnown_of_run hp),
    changesOwnCount_step hv (hfit e he)⟩

/-- Session `1` releases the handle `1`. -/
def releasedAction : Action :=
  .process 1 { type := .release, cookie := 3, data := leBytes 8 1 } []

/-- Session `1` acquires the handle twice and releases it once. -/
def countingScenario : List Action := registered ++ [acquired, acquired, releasedAction]

theorem references_accounted_countingScenario :
    (1 ∈ (final server {} countingScenario).registry.handles ∧
      acquires (history server {} countingScenario) 1 1 = 2 ∧
      releases (history server {} countingScenario) 1 1 = 1) ∧
    (∀ k ∈ (final server {} countingScenario).registry.handles, ∀ s,
      (referencesOf (final server {} countingScenario) k).count s +
        releases (history server {} countingScenario) s k =
          acquires (history server {} countingScenario) s k) ∧
    ∀ e ∈ history server {} countingScenario, ReleaseExact e ∧ ChangesOwnCount e :=
  ⟨by decide +kernel, references_accounted (path_history server countingScenario {})
    (by decide +kernel) (by decide +kernel)⟩

/-- Session `1` acquires the handle `257`, which nobody has exported. -/
def misreadScenario : List Action :=
  registered ++ [.process 1 { type := .acquire, cookie := 2, data := leBytes 8 257 } []]

/-- The `Acquire` for the handle `257` is answered with `OK` and counted for the handle `1`. -/
theorem reference_misread :
    Run server (history server {} misreadScenario) (final server {} misreadScenario) ∧
      acquires (history server {} misreadScenario) 1 257 = 1 ∧
      ¬ ∀ k ∈ (final server {} misreadScenario).registry.handles, ∀ s,
        (referencesOf (final server {} misreadScenario) k).count s +
          releases (history server {} misreadScenario) s k =
            acquires (history server {} misreadScenario) s k := by
  refine ⟨path_history server misreadScenario {}, by decide +kernel, fun hall => ?_⟩
  have hone := hall 1 (by decide +kernel) 1
  exact absurd hone (by decide +kernel)

end Binderd.Broker.References
