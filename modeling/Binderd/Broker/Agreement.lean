import Binderd.Broker.Effects

/-! # The registry and the object tables agree

`handles_` of the registry and `objects_` of the sessions are changed at different places: a handle
is allocated in `TranslateObjects`, in the caller's and in the target's role, and removed in
`Terminate`. `OwnersLive` is the half of their agreement that always holds: a session that is found
is live and has the object (`owners_of_run`). `Agrees` ties the two tables together, and is kept by
every effect as long as the 64-bit counter of handles has not wrapped around (`agrees_of_run`). -/

namespace Binderd.Broker.Agreement

open Binderd.Lib.Bytes Binderd.Lib.Tables Binderd.Lib.Runs
open Binderd.Wire.Streams Binderd.Wire.Messages Binderd.Wire.Transactions
open Binderd.Broker.State Binderd.Broker.Handles Binderd.Broker.Sessions Binderd.Broker.Effects

/-- The number of handles allocated so far. -/
def allocatedHandles (st : ServerState) : ℕ := st.registry.nextObjectHandle - 1

/-- Sessions that can be found are live, and have the object they are found for. -/
structure OwnersLive (st : ServerState) : Prop where
  handles : ∀ h s, st.registry.handles.lookup h = some s → st.Live s ∧ h ∈ (st.sessions s).objects
  contextMgr : ∀ s, st.registry.contextMgr = some s → st.Live s

/-- **The invariant.** -/
structure Agrees (st : ServerState) : Prop where
  owners : OwnersLive st
  known : ∀ h s, st.Live s → h ∈ (st.sessions s).objects → st.registry.handles.lookup h = some s
  range : ∀ h ∈ st.registry.handles, 1 ≤ h ∧ h < st.registry.nextObjectHandle
  pos : 1 ≤ st.registry.nextObjectHandle

theorem Agrees.owner {st : ServerState} (ha : Agrees st) (h : ℕ) (s : SessionId) :
    st.registry.handles.lookup h = some s ↔ st.Live s ∧ h ∈ (st.sessions s).objects :=
  ⟨ha.owners.handles h s, fun hl => ha.known h s hl.1 hl.2⟩

/-- The parts of the state the invariant is about are the same. -/
structure SameObjects (st st' : ServerState) : Prop where
  handles : st'.registry.handles = st.registry.handles
  next : st'.registry.nextObjectHandle = st.registry.nextObjectHandle
  objects : ∀ s, (st'.sessions s).objects = (st.sessions s).objects
  live : ∀ s, st'.Live s ↔ st.Live s

theorem SameObjects.refl (st : ServerState) : SameObjects st st :=
  ⟨rfl, rfl, fun _ => rfl, fun _ => Iff.rfl⟩

theorem SameObjects.trans {st st' st'' : ServerState} (h : SameObjects st st')
    (h' : SameObjects st' st'') : SameObjects st st'' :=
  ⟨h'.handles.trans h.handles, h'.next.trans h.next, fun s => (h'.objects s).trans (h.objects s),
    fun s => (h'.live s).trans (h.live s)⟩

theorem OwnersLive.congr {st st' : ServerState} (ho : OwnersLive st) (h : SameObjects st st')
    (hc : ∀ s, st'.registry.contextMgr = some s → st.Live s) : OwnersLive st' := by
  refine ⟨fun k s hk => ?_, fun s hs => (h.live s).mpr (hc s hs)⟩
  rw [h.handles] at hk
  rw [h.live, h.objects]
  exact ho.handles k s hk

theorem Agrees.congr {st st' : ServerState} (ha : Agrees st) (h : SameObjects st st')
    (ho : OwnersLive st') : Agrees st' := by
  refine ⟨ho, fun k s hs hk => ?_, fun k hk => ?_, ?_⟩
  · rw [h.handles]
    exact ha.known k s ((h.live s).mp hs) (h.objects s ▸ hk)
  · rw [h.handles] at hk
    rw [h.next]
    exact ha.range k hk
  · rw [h.next]
    exact ha.pos

theorem sameObjects_update (st : ServerState) (t : SessionId) (f : ServerSession → ServerSession)
    (ho : (f (st.sessions t)).objects = (st.sessions t).objects)
    (ht : (f (st.sessions t)).terminated = (st.sessions t).terminated) :
    SameObjects st (st.update t f) := by
  refine ⟨rfl, rfl, fun s => ServerState.update_field _ _ _ _ (·.objects) ho, fun s => ?_⟩
  unfold ServerState.Live
  rw [ServerState.update_field _ _ _ _ (·.terminated) ht]
  exact Iff.rfl

theorem sameObjects_registry (st : ServerState) (r : Registry)
    (hh : r.handles = st.registry.handles)
    (hn : r.nextObjectHandle = st.registry.nextObjectHandle) :
    SameObjects st { st with registry := r } :=
  ⟨hh, hn, fun _ => rfl, fun _ => Iff.rfl⟩

/-! ### Exports -/

theorem exportObject_next (st : ServerState) (s : SessionId) (obj : BinderObject) :
    (exportObject st s obj).2.registry.nextObjectHandle = st.registry.nextObjectHandle + 1 := rfl

theorem exportObject_handles (st : ServerState) (s : SessionId) (obj : BinderObject) :
    (exportObject st s obj).2.registry.handles =
      insertNew st.registry.handles (st.registry.nextObjectHandle % 2 ^ 64) s := rfl

theorem exportObject_live (st : ServerState) (s t : SessionId) (obj : BinderObject) :
    (exportObject st s obj).2.Live t ↔ st.Live t := by
  rw [exportObject_snd]
  unfold ServerState.Live
  rw [ServerState.update_field _ _ _ _ (·.terminated) rfl]
  exact Iff.rfl

/-- The objects after an export: those of the exporting session have the new handle. -/
theorem exportObject_lookup (st : ServerState) (s t : SessionId) (obj : BinderObject) (k : ℕ) :
    ((exportObject st s obj).2.sessions t).objects.lookup k = if t = s then
      (insertNew (st.sessions s).objects (st.registry.nextObjectHandle % 2 ^ 64) obj).lookup k
      else (st.sessions t).objects.lookup k := by
  rw [exportObject_snd]
  split_ifs with ht
  · rw [ht, ServerState.update_sessions_self]
    rfl
  · rw [ServerState.update_sessions_of_ne _ _ ht]

theorem exportObject_mem (st : ServerState) (s t : SessionId) (obj : BinderObject) (k : ℕ) :
    k ∈ ((exportObject st s obj).2.sessions t).objects ↔
      t = s ∧ k = st.registry.nextObjectHandle % 2 ^ 64 ∨ k ∈ (st.sessions t).objects := by
  rw [← AList.lookup_isSome, exportObject_lookup]
  split_ifs with ht
  · rw [AList.lookup_isSome, mem_insertNew, ht]
    simp
  · rw [AList.lookup_isSome]
    simp [ht]

theorem owners_export {st : ServerState} {s : SessionId} (ho : OwnersLive st) (hs : st.Live s)
    (obj : BinderObject) : OwnersLive (exportObject st s obj).2 := by
  refine ⟨fun k x hk => ?_, fun x hx => (exportObject_live ..).mpr (ho.contextMgr x hx)⟩
  rw [exportObject_live, exportObject_mem]
  rw [exportObject_handles, lookup_insertNew] at hk
  split_ifs at hk with hnew
  · cases hk
    exact ⟨hs, .inl ⟨rfl, hnew.1⟩⟩
  · obtain ⟨hl, hm⟩ := ho.handles k x hk
    exact ⟨hl, .inr hm⟩

theorem agrees_export {st : ServerState} {s : SessionId} (ha : Agrees st) (hs : st.Live s)
    (obj : BinderObject) (hb : st.registry.nextObjectHandle < 2 ^ 64) :
    Agrees (exportObject st s obj).2 := by
  have hfresh : st.registry.nextObjectHandle ∉ st.registry.handles := fun hm => by
    have := (ha.range _ hm).2
    omega
  have hpos := ha.pos
  have hmod : st.registry.nextObjectHandle % 2 ^ 64 = st.registry.nextObjectHandle :=
    Nat.mod_eq_of_lt hb
  refine ⟨owners_export ha.owners hs obj, fun k x hx hk => ?_, fun k hk => ?_, ?_⟩
  · rw [exportObject_live] at hx
    rw [exportObject_mem, hmod] at hk
    rw [exportObject_handles, hmod, lookup_insertNew]
    rcases hk with ⟨rfl, rfl⟩ | hk
    · rw [if_pos ⟨rfl, hfresh⟩]
    · have hold := ha.known k x hx hk
      rw [if_neg, hold]
      rintro ⟨rfl, -⟩
      exact hfresh (mem_of_lookup hold)
  · rw [exportObject_handles, hmod, mem_insertNew] at hk
    rw [exportObject_next]
    rcases hk with rfl | hk
    · exact ⟨hpos, by omega⟩
    · have := ha.range k hk
      exact ⟨this.1, by omega⟩
  · rw [exportObject_next]
    omega

theorem exports_next_le {s : SessionId} {st st' : ServerState} (h : Exports s st st') :
    st.registry.nextObjectHandle ≤ st'.registry.nextObjectHandle := by
  induction h with
  | refl => exact le_rfl
  | tail _ he ih =>
    obtain ⟨obj, rfl⟩ := he
    rw [exportObject_next]
    omega

theorem post_next_le {t : SessionId} {st st' : ServerState} (h : Exports t (drawCookie st t) st') :
    st.registry.nextObjectHandle ≤ st'.registry.nextObjectHandle := by
  have hle := exports_next_le h
  exact hle

theorem owners_exports {s : SessionId} {st st' : ServerState} (ho : OwnersLive st)
    (hs : st.Live s) (h : Exports s st st') : OwnersLive st' := by
  induction h with
  | refl => exact ho
  | tail h' he ih =>
    obtain ⟨obj, rfl⟩ := he
    exact owners_export ih ((Exports.frame h').live s |>.mpr hs) obj

theorem agrees_exports {s : SessionId} {st st' : ServerState} (ha : Agrees st) (hs : st.Live s)
    (h : Exports s st st') (hb : st'.registry.nextObjectHandle ≤ 2 ^ 64) : Agrees st' := by
  induction h with
  | refl => exact ha
  | tail h' he ih =>
    obtain ⟨obj, rfl⟩ := he
    rw [exportObject_next] at hb
    exact agrees_export (ih (by omega)) ((Exports.frame h').live s |>.mpr hs) obj (by omega)

/-! ### Finding a session -/

theorem OwnersLive.find_live {st : ServerState} (ho : OwnersLive st) {k : ℕ} {s : SessionId}
    (h : findSessionByHandle st.registry k = some s) : st.Live s := by
  unfold findSessionByHandle at h
  split_ifs at h with hk
  · exact ho.contextMgr s h
  · exact (ho.handles k s h).1

/-- A session that is found has the object: `PostTransaction` never misses it. -/
theorem OwnersLive.find_object {st : ServerState} (ho : OwnersLive st) {k : ℕ} {s : SessionId}
    (h : findSessionByHandle st.registry k = some s) :
    ∃ obj, objectForHandle (st.sessions s) k = some obj := by
  unfold findSessionByHandle at h
  unfold objectForHandle
  split_ifs at h with hk
  · cases (st.sessions s).objects.lookup k with
    | some obj => exact ⟨obj, rfl⟩
    | none => exact ⟨_, if_pos hk⟩
  · obtain ⟨obj, ho⟩ := exists_lookup_of_mem (ho.handles k s h).2
    rw [ho]
    exact ⟨obj, rfl⟩

/-! ### The invariant of the server -/

theorem terminate_objects (st : ServerState) (s t : SessionId) (order : List ℕ) :
    ((terminate st s order).1.sessions t).objects = (st.sessions t).objects := by
  rw [terminate_sessions]
  by_cases h : t = s
  · subst h
    simp
  · rw [Function.update_of_ne h]

theorem owners_terminate {st : ServerState} (ho : OwnersLive st) {s : SessionId} {order : List ℕ}
    (hp : order.Perm (st.sessions s).objects.keys) : OwnersLive (terminate st s order).1 := by
  obtain ⟨hh, -, -, hc, -⟩ := terminate_registry st s order
  refine ⟨fun k t hk => ?_, fun t ht => ?_⟩
  · rw [hh, removeHandles_lookup] at hk
    split_ifs at hk with hmem
    obtain ⟨ht, hkt⟩ := ho.handles k t hk
    rw [terminate_live, terminate_objects]
    refine ⟨⟨ht, ?_⟩, hkt⟩
    rintro rfl
    exact hmem (hp.mem_iff.mpr hkt)
  · rw [hc] at ht
    split_ifs at ht with h
    exact (terminate_live ..).mpr ⟨ho.contextMgr t ht, fun he => h (he ▸ ht)⟩

theorem agrees_terminate {st : ServerState} (ha : Agrees st) {s : SessionId} {order : List ℕ}
    (hs : st.Live s) (hp : order.Perm (st.sessions s).objects.keys) :
    Agrees (terminate st s order).1 := by
  obtain ⟨hh, -, hn, -, -⟩ := terminate_registry st s order
  refine ⟨owners_terminate ha.owners hp, fun k t ht hkt => ?_, fun k hk => ?_,
    by rw [hn]; exact ha.pos⟩
  · rw [terminate_live] at ht
    rw [terminate_objects] at hkt
    have h1 := ha.known k t ht.1 hkt
    rw [hh, removeHandles_lookup, if_neg, h1]
    -- a key of `s` is owned by `s`, which `t` is not
    intro hk
    rw [ha.known k s hs (hp.mem_iff.mp hk)] at h1
    exact ht.2 (Option.some.inj h1).symm
  · obtain ⟨t, ht⟩ := exists_lookup_of_mem hk
    rw [hh, removeHandles_lookup] at ht
    split_ifs at ht
    rw [hn]
    exact ha.range k (mem_of_lookup ht)

theorem connected_live {st : ServerState} {t : SessionId} (ht : t ≠ st.numSessions) :
    ({ st with
      sessions := Function.update st.sessions st.numSessions {}
      numSessions := st.numSessions + 1 } : ServerState).Live t ↔ st.Live t := by
  unfold ServerState.Live
  have hlt : t < st.numSessions + 1 ↔ t < st.numSessions :=
    ⟨fun h => lt_of_le_of_ne (Nat.le_of_lt_succ h) ht, Nat.lt_succ_of_lt⟩
  simp only [Function.update_of_ne ht, hlt]

theorem not_live_numSessions (st : ServerState) : ¬ st.Live st.numSessions :=
  fun h => absurd h.1 (lt_irrefl _)

theorem owners_connected {st : ServerState} (ho : OwnersLive st) :
    OwnersLive { st with
      sessions := Function.update st.sessions st.numSessions {}
      numSessions := st.numSessions + 1 } := by
  refine ⟨fun k t hk => ?_, fun t ht => ?_⟩
  · obtain ⟨hl, hm⟩ := ho.handles k t hk
    have hne : t ≠ st.numSessions := fun he => not_live_numSessions st (he ▸ hl)
    rw [connected_live hne]
    simp only [Function.update_of_ne hne]
    exact ⟨hl, hm⟩
  · have hl := ho.contextMgr t ht
    rwa [connected_live fun he => not_live_numSessions st (he ▸ hl)]

theorem agrees_connected {st : ServerState} (ha : Agrees st) :
    Agrees { st with
      sessions := Function.update st.sessions st.numSessions {}
      numSessions := st.numSessions + 1 } := by
  refine ⟨owners_connected ha.owners, fun k t ht hk => ?_, ha.range, ha.pos⟩
  by_cases hne : t = st.numSessions
  · subst hne
    simp only [Function.update_self] at hk
    exact absurd hk (AList.notMem_empty k)
  · rw [connected_live hne] at ht
    simp only [Function.update_of_ne hne] at hk
    exact ha.known k t ht hk

theorem sameObjects_drawCookie (st : ServerState) (t : SessionId) :
    SameObjects st (drawCookie st t) :=
  sameObjects_update st t _ rfl rfl

theorem sameObjects_addPending (st : ServerState) (t : SessionId) (c : ℕ)
    (record : TransactionRecord) : SameObjects st (addPending st t c record) :=
  sameObjects_update st t _ rfl rfl

theorem sameObjects_removePending (st : ServerState) (t : SessionId) (c : ℕ) :
    SameObjects st (removePending st t c) :=
  sameObjects_update st t _ rfl rfl

/-- The two passes of a posted transaction: the caller exports, then the target does. -/
theorem owners_post {st st₁ st₂ : ServerState} {s t : SessionId} {k : ℕ} (ho : OwnersLive st)
    (hs : st.Live s) (h1 : Exports s st st₁) (hf : findSessionByHandle st₁.registry k = some t)
    (h2 : Exports t (drawCookie st₁ t) st₂) : OwnersLive st₂ := by
  have hsame := sameObjects_drawCookie st₁ t
  have ho1 := owners_exports ho hs h1
  exact owners_exports (ho1.congr hsame ho1.contextMgr)
    ((hsame.live t).mpr (ho1.find_live hf)) h2

theorem agrees_post {st st₁ st₂ : ServerState} {s t : SessionId} {k : ℕ} (ha : Agrees st)
    (hs : st.Live s) (h1 : Exports s st st₁) (hf : findSessionByHandle st₁.registry k = some t)
    (h2 : Exports t (drawCookie st₁ t) st₂) (hb : st₂.registry.nextObjectHandle ≤ 2 ^ 64) :
    Agrees st₂ := by
  have hle := post_next_le h2
  have hsame := sameObjects_drawCookie st₁ t
  have ha1 := agrees_exports ha hs h1 (by omega)
  have ht := ha1.owners.find_live hf
  exact agrees_exports (ha1.congr hsame (ha1.owners.congr hsame ha1.owners.contextMgr))
    ((hsame.live t).mpr ht) h2 hb

theorem reference_registry {r r' : Registry} {s : SessionId} {k : ℕ} {status : Status}
    (h : addReferenceForHandle r s k = (status, r') ∨
      removeReferenceForHandle r s k = (status, r')) :
    ∃ refs, r' = { r with references := refs } := by
  rcases h with h | h
  · unfold addReferenceForHandle at h
    split_ifs at h
    · split at h <;> cases h <;> exact ⟨_, rfl⟩
    · cases h
      exact ⟨_, rfl⟩
  · unfold removeReferenceForHandle at h
    split_ifs at h
    · split at h
      · cases h
        exact ⟨_, rfl⟩
      · split_ifs at h <;> cases h <;> exact ⟨_, rfl⟩
    · cases h
      exact ⟨_, rfl⟩

theorem owners_effect {st st' : ServerState} {a : Action} {ws : List Write} (ho : OwnersLive st)
    (h : Effect st a st' ws) : OwnersLive st' := by
  cases h with
  | connected => exact owners_connected ho
  | ignored _ _ => exact ho
  | answered _ _ _ _ => exact ho
  | rejected hs _ he _ => exact owners_exports ho hs he
  | refused hs _ he hf he' _ => exact owners_post ho hs he hf he'
  | delivered d =>
    have ho2 := owners_post ho d.live d.caller_exports d.find d.target_exports
    exact ho2.congr (sameObjects_addPending ..) ho2.contextMgr
  | forwarded hs _ _ => exact ho.congr (sameObjects_removePending _ _ _) ho.contextMgr
  | contextMgrTaken _ _ _ => exact ho
  | contextMgrSet hs _ _ h' =>
    subst h'
    refine ho.congr (sameObjects_registry _ _ rfl rfl) fun x hx => ?_
    cases hx
    exact hs
  | monitorSet hs _ _ h' =>
    subst h'
    exact ho.congr (sameObjects_registry _ _ rfl rfl) ho.contextMgr
  | reference hs _ hr h' =>
    subst h'
    obtain ⟨refs, rfl⟩ := reference_registry (hr.imp And.right And.right)
    exact ho.congr (sameObjects_registry _ _ rfl rfl) ho.contextMgr
  | death hs _ _ _ h' =>
    subst h'
    exact ho.congr (sameObjects_update _ _ _ rfl rfl) ho.contextMgr
  | terminated _ hp hr =>
    subst hr
    exact owners_terminate ho hp

/-- **Every effect keeps the invariant**, as long as the counter has not wrapped around. -/
theorem agrees_effect {st st' : ServerState} {a : Action} {ws : List Write} (ha : Agrees st)
    (h : Effect st a st' ws) (hb : st'.registry.nextObjectHandle ≤ 2 ^ 64) : Agrees st' := by
  have ho := owners_effect ha.owners h
  cases h with
  | connected => exact agrees_connected ha
  | ignored _ _ => exact ha
  | answered _ _ _ _ => exact ha
  | rejected hs _ he _ => exact agrees_exports ha hs he hb
  | refused hs _ he hf he' _ => exact agrees_post ha hs he hf he' hb
  | delivered d =>
    have ha2 := agrees_post ha d.live d.caller_exports d.find d.target_exports hb
    exact ha2.congr (sameObjects_addPending ..) ho
  | forwarded hs _ _ => exact ha.congr (sameObjects_removePending _ _ _) ho
  | contextMgrTaken _ _ _ => exact ha
  | contextMgrSet hs _ _ h' =>
    subst h'
    exact ha.congr (sameObjects_registry _ _ rfl rfl) ho
  | monitorSet hs _ _ h' =>
    subst h'
    exact ha.congr (sameObjects_registry _ _ rfl rfl) ho
  | reference hs _ hr h' =>
    subst h'
    obtain ⟨refs, rfl⟩ := reference_registry (hr.imp And.right And.right)
    exact ha.congr (sameObjects_registry _ _ rfl rfl) ho
  | death hs _ _ _ h' =>
    subst h'
    exact ha.congr (sameObjects_update _ _ _ rfl rfl) ho
  | terminated hs hp hr =>
    subst hr
    exact agrees_terminate ha hs hp

/-! ### Where objects come from -/

theorem objects_of_effect {st st' : ServerState} {a : Action} {ws : List Write}
    (h : Effect st a st' ws)
    (hn : ∀ s msg beyond, a = .process s msg beyond → msg.type ≠ .transaction) :
    (∀ t, (st'.sessions t).objects = (st.sessions t).objects ∨ (st'.sessions t).objects = ∅) ∧
      ∀ k t, st'.registry.handles.lookup k = some t → st.registry.handles.lookup k = some t := by
  cases h with
  | connected =>
    refine ⟨fun t => ?_, fun _ _ hk => hk⟩
    by_cases ht : t = st.numSessions
    · subst ht
      simp
    · simp only [Function.update_of_ne ht]
      exact .inl trivial
  | ignored _ _ => exact ⟨fun _ => .inl rfl, fun _ _ hk => hk⟩
  | answered _ _ _ _ => exact ⟨fun _ => .inl rfl, fun _ _ hk => hk⟩
  | rejected _ ht _ _ => exact absurd ht (hn _ _ _ rfl)
  | refused _ ht _ _ _ _ => exact absurd ht (hn _ _ _ rfl)
  | delivered d => exact absurd d.type (hn _ _ _ rfl)
  | forwarded _ _ _ =>
    exact ⟨fun t => .inl ((sameObjects_removePending ..).objects t), fun _ _ hk => hk⟩
  | contextMgrTaken _ _ _ => exact ⟨fun _ => .inl rfl, fun _ _ hk => hk⟩
  | contextMgrSet _ _ _ h' =>
    subst h'
    exact ⟨fun _ => .inl rfl, fun _ _ hk => hk⟩
  | monitorSet _ _ _ h' =>
    subst h'
    exact ⟨fun _ => .inl rfl, fun _ _ hk => hk⟩
  | reference _ _ hr h' =>
    subst h'
    obtain ⟨refs, rfl⟩ := reference_registry (hr.imp And.right And.right)
    exact ⟨fun _ => .inl rfl, fun _ _ hk => hk⟩
  | death _ _ _ _ h' =>
    subst h'
    exact ⟨fun t => .inl (ServerState.update_field _ _ _ _ (·.objects) rfl), fun _ _ hk => hk⟩
  | @terminated s order _ _ _ hr =>
    subst hr
    refine ⟨fun t => .inl (terminate_objects ..), fun k t hk => ?_⟩
    rw [(terminate_registry st s order).1, removeHandles_lookup] at hk
    split_ifs at hk
    exact hk

/-- A Transaction adds what the caller exports and what the target does. -/
theorem exports_of_transaction {st st' : ServerState} {s : SessionId} {msg : Message}
    {beyond : List UInt8} {ws : List Write} (h : Effect st (.process s msg beyond) st' ws)
    (ht : msg.type = .transaction) :
    Exports s st st' ∨ ∃ st₁ t st₂, Exports s st st₁ ∧ Exports t (drawCookie st₁ t) st₂ ∧
      SameObjects st₂ st' := by
  rcases h.transaction ht with ⟨d, rfl, -⟩ | ⟨-, -, -, he | ⟨st₁, t, he, he'⟩⟩
  · exact .inr ⟨d.st₁, d.target, d.st₂, d.caller_exports, d.target_exports,
      sameObjects_addPending ..⟩
  · exact .inl he
  · exact .inr ⟨st₁, t, st', he, he', .refl st'⟩

/-- Handles are 64-bit numbers. -/
def KeysBounded (st : ServerState) : Prop := ∀ s k, k ∈ (st.sessions s).objects → k < 2 ^ 64

theorem KeysBounded.exports {s : SessionId} {st st' : ServerState} (hk : KeysBounded st)
    (h : Exports s st st') : KeysBounded st' := by
  induction h with
  | refl => exact hk
  | tail _ he ih =>
    obtain ⟨obj, rfl⟩ := he
    intro t k hmem
    rcases (exportObject_mem ..).mp hmem with ⟨-, rfl⟩ | hmem
    · exact Nat.mod_lt _ (by norm_num)
    · exact ih t k hmem

theorem KeysBounded.congr {st st' : ServerState} (hk : KeysBounded st) (h : SameObjects st st') :
    KeysBounded st' := by
  intro s k hmem
  rw [h.objects] at hmem
  exact hk s k hmem

theorem keysBounded_effect {st st' : ServerState} {a : Action} {ws : List Write}
    (h : Effect st a st' ws) (hk : KeysBounded st) : KeysBounded st' := by
  by_cases htr : ∃ s msg beyond, a = .process s msg beyond ∧ msg.type = .transaction
  · obtain ⟨s, msg, beyond, rfl, ht⟩ := htr
    rcases exports_of_transaction h ht with he | ⟨st₁, t, st₂, he, he', hsame⟩
    · exact hk.exports he
    · exact (((hk.exports he).congr (sameObjects_drawCookie st₁ t)).exports he').congr hsame
  · push Not at htr
    intro t k hmem
    rcases (objects_of_effect h htr).1 t with ho | ho
    · rw [ho] at hmem
      exact hk t k hmem
    · rw [ho] at hmem
      exact absurd hmem (AList.notMem_empty k)

/-! ### Runs -/

theorem next_le_of_effect {st st' : ServerState} {a : Action} {ws : List Write}
    (h : Effect st a st' ws) :
    st.registry.nextObjectHandle ≤ st'.registry.nextObjectHandle := by
  cases h with
  | rejected _ _ he _ => exact exports_next_le he
  | refused _ _ he _ he' _ => exact (exports_next_le he).trans (post_next_le he')
  | delivered d =>
    have hle := post_next_le d.target_exports
    exact (exports_next_le d.caller_exports).trans hle
  | contextMgrSet _ _ _ h' => rw [h']
  | monitorSet _ _ _ h' => rw [h']
  | reference _ _ hr h' =>
    obtain ⟨refs, rfl⟩ := reference_registry (hr.imp And.right And.right)
    rw [h']
  | death _ _ _ _ h' => rw [h']; exact le_rfl
  | terminated _ _ hr =>
    subst hr
    rw [(terminate_registry _ _ _).2.2.1]
  | _ => exact le_rfl

theorem next_le_of_path {st st' : ServerState} {h : List ServerStep} (hp : Path server st h st') :
    st.registry.nextObjectHandle ≤ st'.registry.nextObjectHandle :=
  hp.preserves (P := fun u => st.registry.nextObjectHandle ≤ u.registry.nextObjectHandle) le_rfl
    fun _ _ hv hle => hle.trans (next_le_of_effect (step_effect hv))

theorem keysBounded_of_run {h : List ServerStep} {st : ServerState} (hr : Run server h st) :
    KeysBounded st :=
  hr.preserves (fun _ k hk => absurd hk (AList.notMem_empty k))
    fun _ _ hv hk => keysBounded_effect (step_effect hv) hk

/-- **Sessions that can be found are live**, in every reachable state. -/
theorem owners_of_run {h : List ServerStep} {st : ServerState} (hr : Run server h st) :
    OwnersLive st := by
  refine hr.preserves ?_ fun e _ hv ho => owners_effect ho (step_effect hv)
  refine ⟨fun k s hk => ?_, fun s hs => by cases hs⟩
  simp only [server, AList.lookup_empty, reduceCtorEq] at hk

/-- **The registry and the object tables agree** in every reachable state, as long as the counter of
handles has not wrapped around. -/
theorem agrees_of_run {h : List ServerStep} {st : ServerState} (hr : Run server h st)
    (hb : st.registry.nextObjectHandle ≤ 2 ^ 64) : Agrees st := by
  revert hb
  refine hr.preserves (P := fun u => u.registry.nextObjectHandle ≤ 2 ^ 64 → Agrees u) ?_ ?_
  · intro _
    exact ⟨owners_of_run .nil, fun k s hl => absurd hl.1 (Nat.not_lt_zero s),
      fun k hk => absurd hk (AList.notMem_empty k), le_rfl⟩
  · intro e _ hv ih hb
    have heff := step_effect hv
    exact agrees_effect (ih ((next_le_of_effect heff).trans hb)) heff hb

/-! ### The missing object -/

/-- In this step, `PostTransaction` takes the branch that warns "Cannot find object for handle". -/
def MissesObject (e : ServerStep) : Prop :=
  ∃ s msg beyond tr status st₁ m₁ t, e.action = .process s msg beyond ∧ msg.type = .transaction ∧
    fromMessage msg.data = .ok tr ∧
    translateObjects s tr e.before (memoryOf msg beyond) = some (status, st₁, m₁) ∧
    findSessionByHandle st₁.registry msg.destination = some t ∧
    objectForHandle ((drawCookie st₁ t).sessions t) msg.destination = none

theorem next_le_onTransaction {st st₁ : ServerState} {s : SessionId} {msg : Message}
    {beyond : List UInt8} {tr : TransactionData} {status : Status} {m₁ : Mem}
    {r : ServerState × List Write} (hm : fromMessage msg.data = .ok tr)
    (htr : translateObjects s tr st (memoryOf msg beyond) = some (status, st₁, m₁))
    (h : onTransaction st s msg beyond = some r) :
    st₁.registry.nextObjectHandle ≤ r.1.registry.nextObjectHandle := by
  rcases onTransaction_cases h with ⟨hc, -⟩ | ⟨hc, status', st', m', htr', hrest⟩
  · rw [fromMessage_of_not_complete hc] at hm
    cases hm
  rw [fromMessage_of_complete hc] at hm
  cases hm
  rw [htr] at htr'
  cases htr'
  rcases hrest with ⟨-, rfl⟩ | ⟨t, posted, -, hp, rfl⟩
  · exact le_rfl
  · by_cases hd : ∃ obj st₂ m₂, Delivers st₁ t ⟨s, msg.cookie, inMemory msg m₁⟩ m₁ obj st₂ m₂
    · obtain ⟨obj, st₂, m₂, hd⟩ := hd
      have hle := post_next_le (exports_of_translate hd.translate)
      rw [postTransaction_of_delivers hd] at hp
      cases hp
      exact hle
    · push Not at hd
      exact post_next_le (postTransaction_of_not_delivers hd hp).1

theorem not_missesObject {h : List ServerStep} {st : ServerState} (hr : Run server h st)
    (hb : st.registry.nextObjectHandle ≤ 2 ^ 64) {e : ServerStep} (he : e ∈ h) :
    ¬ MissesObject e := by
  rintro ⟨s, msg, beyond, tr, status, st₁, m₁, t, ha, ht, hm, h1, hf, hnone⟩
  obtain ⟨h1', h2', -, hp, hv, hp'⟩ := hr.prefix_of_mem he
  obtain ⟨hl, hon⟩ := onTransaction_of_step hv ha ht
  have hle1 : st₁.registry.nextObjectHandle ≤ e.after.registry.nextObjectHandle :=
    next_le_onTransaction hm h1 hon
  have hle2 := next_le_of_path hp'
  have hexp : Exports s e.before st₁ := exports_of_translate h1
  have ha1 : Agrees st₁ :=
    agrees_exports (agrees_of_run hp (by have := exports_next_le hexp; omega)) hl hexp (by omega)
  obtain ⟨obj, ho⟩ := ha1.owners.find_object hf
  rw [drawCookie_objectForHandle, ho] at hnone
  cases hnone

/-- **Registry and object maps.** After every run that allocated fewer than `2 ^ 64` handles, the
registry maps `k` to `s` exactly when `s` is live and has the object `k`; known handles are in
range; a session that is found is live; a handle has one owner; and no step of the run missed an
object. -/
theorem registry_object_agreement {h : List ServerStep} {st : ServerState} (hr : Run server h st)
    (hb : allocatedHandles st < 2 ^ 64) :
    (∀ k s, st.registry.handles.lookup k = some s ↔ st.Live s ∧ k ∈ (st.sessions s).objects) ∧
    (∀ k ∈ st.registry.handles, 1 ≤ k ∧ k < st.registry.nextObjectHandle) ∧
    (∀ k s, findSessionByHandle st.registry k = some s → st.Live s) ∧
    (∀ k s s', st.Live s → st.Live s' → k ∈ (st.sessions s).objects →
      k ∈ (st.sessions s').objects → s = s') ∧
    ∀ e ∈ h, ¬ MissesObject e := by
  have hb' : st.registry.nextObjectHandle ≤ 2 ^ 64 := by unfold allocatedHandles at hb; omega
  have ha := agrees_of_run hr hb'
  refine ⟨ha.owner, ha.range, fun _ _ => ha.owners.find_live, fun k s s' hs hs' hk hk' => ?_,
    fun e he => not_missesObject hr hb' he⟩
  have h1 := (ha.owner k s).mpr ⟨hs, hk⟩
  rw [(ha.owner k s').mpr ⟨hs', hk'⟩] at h1
  exact (Option.some.inj h1).symm

/-- Session `0` sends an object to the context manager `1`, which then terminates. -/
def exportScenario : List Action :=
  [.accept, .accept, .process 1 { type := .setContextMgr } [],
    .process 0 (transactMessage 0 5 1 (flatBinderObject .binder 0 7 9) [0]) [], .terminate 1 []]

theorem registry_object_agreement_exportScenario :
    allocatedHandles (final server {} exportScenario) = 1 ∧
    (final server {} exportScenario).registry.handles.lookup 1 = some 0 ∧
    (final server {} exportScenario).Live 0 ∧
    1 ∈ ((final server {} exportScenario).sessions 0).objects := by
  have h1 : allocatedHandles (final server {} exportScenario) = 1 := by decide +kernel
  have h2 : (final server {} exportScenario).registry.handles.lookup 1 = some 0 := by
    decide +kernel
  obtain ⟨howner, -⟩ :=
    registry_object_agreement (path_history server exportScenario {}) (by rw [h1]; decide)
  exact ⟨h1, h2, (howner 1 0).mp h2⟩

end Binderd.Broker.Agreement
