import Binderd.Broker.References

/-! # What `Terminate` leaves

`Terminate` walks the `unordered_map` of the session's objects. In which order it meets them is up
to the library and does not matter: the state it leaves is the same, and so are the messages, but
for the order of the deaths (`terminate_perm`). When the last session has terminated the registry is
as it was at the start, but for the handles it has used up (`registry_cleared`). -/

namespace Binderd.Broker.Terminations

open Binderd.Lib.Bytes Binderd.Lib.Tables Binderd.Lib.Runs
open Binderd.Wire.Streams Binderd.Wire.Messages Binderd.Wire.Transactions
open Binderd.Broker.State Binderd.Broker.Handles Binderd.Broker.Sessions Binderd.Broker.Effects
open Binderd.Broker.Agreement Binderd.Broker.Deaths Binderd.Broker.References

/-! ### The order of the walk -/

theorem removeHandle_state (st : ServerState) (k : ℕ) :
    (removeHandle st k).1 = { st with registry := { st.registry with
      references := if k ∈ st.registry.handles then st.registry.references.erase k
        else st.registry.references
      handles := st.registry.handles.erase k } } := by
  unfold removeHandle
  by_cases hk : k ∈ st.registry.handles
  · rw [if_neg (not_not.mpr hk), if_pos hk]
    cases hr : st.registry.references.lookup k with
    | none => rw [erase_of_notMem (AList.lookup_eq_none.mp hr)]
    | some refs => rfl
  · rw [if_pos hk, if_neg hk, erase_of_notMem hk]

/-- Two handles can be removed in either order. -/
theorem removeHandle_comm (st : ServerState) (j k : ℕ) :
    (removeHandle (removeHandle st j).1 k).1 = (removeHandle (removeHandle st k).1 j).1 := by
  by_cases hjk : j = k
  · rw [hjk]
  simp only [removeHandle_state, AList.mem_erase, AList.erase_erase j k]
  by_cases hj : j ∈ st.registry.handles
  · by_cases hk : k ∈ st.registry.handles
    · simp [hj, hk, hjk, Ne.symm hjk, AList.erase_erase j k]
    · simp [hj, hk, hjk]
  · simp [hj, Ne.symm hjk]

theorem removeHandles_perm {order order' : List ℕ} (hp : order.Perm order') :
    ∀ st, (removeHandles st order).1 = (removeHandles st order').1 := by
  induction hp with
  | nil => exact fun _ => rfl
  | cons k _ ih => exact fun st => ih (removeHandle st k).1
  | swap j k l =>
    intro st
    simp only [removeHandles, removeHandle_comm]
  | trans _ _ ih ih' => exact fun st => (ih st).trans (ih' st)

/-- **The order of the walk does not matter**: two orders lead to the same state, and to the same
messages in another order. -/
theorem terminate_perm {st : ServerState} {s : SessionId} {order order' : List ℕ}
    {r r' : ServerState × List Write} (h : step st (.terminate s order) = some r)
    (h' : step st (.terminate s order') = some r') : r.1 = r'.1 ∧ r.2.Perm r'.2 := by
  simp only [step, Option.ite_none_right_eq_some, Option.some.injEq] at h h'
  obtain ⟨⟨-, hkeys⟩, rfl⟩ := h
  obtain ⟨⟨-, hkeys'⟩, rfl⟩ := h'
  have hp : order.Perm order' := hkeys.trans hkeys'.symm
  have hnd : order.Nodup := hkeys.nodup_iff.mpr (AList.keys_nodup _)
  constructor
  · simp only [terminate, removeHandles_perm hp]
  · simp only [terminate, removeHandles_writes order st hnd,
      removeHandles_writes order' st (hp.nodup_iff.mp hnd)]
    exact hp.flatMap_right _

/-- Session `0` has exported two objects, and session `1` is to be told of the death of one. -/
def twoObjects : List Action :=
  registered ++ [acquired,
    .process 0 (transactMessage 99 6 1 (flatBinderObject .binder 0 8 9) [0]) []]

theorem terminate_perm_twoObjects :
    ∃ r r', step (final server {} twoObjects) (.terminate 0 [1, 2]) = some r ∧
      step (final server {} twoObjects) (.terminate 0 [2, 1]) = some r' ∧
      r.1 = r'.1 ∧ r.2.Perm r'.2 := by
  have h1 : (step (final server {} twoObjects) (.terminate 0 [1, 2])).isSome := by decide +kernel
  have h2 : (step (final server {} twoObjects) (.terminate 0 [2, 1])).isSome := by decide +kernel
  obtain ⟨r, hr⟩ := Option.isSome_iff_exists.mp h1
  obtain ⟨r', hr'⟩ := Option.isSome_iff_exists.mp h2
  exact ⟨r, r', hr, hr', terminate_perm hr hr'⟩

/-! ### The last session -/

/-- **When nobody is left, the registry is empty**, but for the handles it will not give out
again. -/
theorem registry_cleared {h : List ServerStep} {st : ServerState} (hr : Run server h st)
    (hnone : ∀ s, ¬ st.Live s) :
    st.registry = { nextObjectHandle := st.registry.nextObjectHandle } := by
  have ho := owners_of_run hr
  have hhandles : st.registry.handles = ∅ := eq_empty_of_notMem fun k hk => by
    obtain ⟨s, hs⟩ := exists_lookup_of_mem hk
    exact hnone s (ho.handles k s hs).1
  have hreferences : st.registry.references = ∅ := eq_empty_of_notMem fun k hk => by
    have hknown := referencesKnown_of_run hr k hk
    rw [hhandles] at hknown
    exact AList.notMem_empty k hknown
  have hmanager : st.registry.contextMgr = none :=
    Option.eq_none_iff_forall_ne_some.mpr fun s hs => hnone s (ho.contextMgr s hs)
  have hmonitor : st.registry.monitor = none :=
    Option.eq_none_iff_forall_ne_some.mpr fun s hs => hnone s (monitorLive_of_run hr s hs)
  calc st.registry = ⟨st.registry.contextMgr, st.registry.monitor, st.registry.nextObjectHandle,
        st.registry.handles, st.registry.references⟩ := rfl
    _ = _ := by rw [hmanager, hmonitor, hhandles, hreferences]

/-- Both sessions have terminated. -/
def deserted : List Action := twoObjects ++ [.terminate 0 [2, 1], .terminate 1 []]

theorem registry_cleared_deserted :
    (final server {} deserted).registry = { nextObjectHandle := 3 } := by
  have hnum : (final server {} deserted).numSessions = 2 := by decide +kernel
  have hnext : (final server {} deserted).registry.nextObjectHandle = 3 := by decide +kernel
  have hnone : ∀ s < 2, ¬ (final server {} deserted).Live s := by decide +kernel
  have h := registry_cleared (path_history server deserted {}) fun s hl => hnone s (hnum ▸ hl.1) hl
  rwa [hnext] at h

end Binderd.Broker.Terminations
