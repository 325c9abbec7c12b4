import Binderd.Broker.Replies

/-! # Callers of sessions that terminate

`Terminate` says that the objects of a session are dead, but leaves `pending_transactions_` alone:
the records that are there are never answered, since no message of the session is processed any
more. A caller that waits for a reply is left waiting (`callers_are_orphaned`), unless no live
caller waits when the session terminates (`callers_answered`). -/

namespace Binderd.Broker.Orphans

open Binderd.Lib.Bytes Binderd.Lib.Tables Binderd.Lib.Runs
open Binderd.Wire.Streams Binderd.Wire.Messages Binderd.Wire.Transactions
open Binderd.Broker.State Binderd.Broker.Handles Binderd.Broker.Sessions Binderd.Broker.Effects
open Binderd.Broker.Agreement Binderd.Broker.Replies

/-- The message ends a call: a TransactionReply, or a Status that is not `OK`. -/
def EndsCall (m : Message) : Prop :=
  m.type = .transactionReply ∨
    m.type = .status ∧ m.data ≠ (BinaryWriter.writeInt32 {} Status.ok.toInt).bytes

/-- The session `t` answered the transaction it was delivered under `cookie`. -/
def Answered (h : List ServerStep) (t : SessionId) (cookie : ℕ) : Prop :=
  ∃ e ∈ h, ∃ msg w, Forwards e t msg w ∧ msg.cookie = cookie

/-- **No caller is orphaned**: a caller whose transaction was accepted for a session that terminated
without answering it has been sent a message that ends its call, if it is live; and a terminated
session has no record of a live caller left. -/
def NoOrphanedCaller (h : List ServerStep) (st : ServerState) : Prop :=
  ∀ t < st.numSessions, (st.sessions t).terminated = true →
    (∀ (j : ℕ) e c req k, h[j]? = some e → Accepts e c req t k → ¬ Answered h t k → st.Live c →
      ∃ (i : ℕ) (e' : ServerStep), j < i ∧ h[i]? = some e' ∧ ∃ w ∈ e'.emitted, w.session = c ∧
        w.message.cookie = req.cookie ∧ EndsCall w.message) ∧
    ∀ k r, (st.sessions t).pendingTransactions.lookup k = some r → ¬ st.Live r.caller

/-- When a session terminates, its records are of its own calls or of callers that have terminated.
-/
def Settled (e : ServerStep) : Prop :=
  match e.action with
  | .terminate t _ => ∀ k r, (e.before.sessions t).pendingTransactions.lookup k = some r →
      r.caller = t ∨ ¬ e.before.Live r.caller
  | _ => True

instance : DecidablePred Settled
  | ⟨before, .terminate t _, _, _⟩ =>
    decidableForallLookup (before.sessions t).pendingTransactions fun _ r =>
      r.caller = t ∨ ¬ before.Live r.caller
  | ⟨_, .accept, _, _⟩ => isTrue trivial
  | ⟨_, .process .., _, _⟩ => isTrue trivial

/-! ### Records of terminated sessions -/

/-- The callers of the records of terminated sessions have terminated. -/
def CallersGone (st : ServerState) : Prop :=
  ∀ t < st.numSessions, (st.sessions t).terminated = true →
    ∀ k r, (st.sessions t).pendingTransactions.lookup k = some r → ¬ st.Live r.caller

theorem caller_lt {h : List ServerStep} {st : ServerState} (hi : Tracked h st) {t : SessionId}
    {k : ℕ} {r : TransactionRecord}
    (hk : (st.sessions t).pendingTransactions.lookup k = some r) : r.caller < st.numSessions := by
  obtain ⟨-, -, j, e, req, hj, hacc, -⟩ := hi.pending t k r hk
  exact (hi.accepted j e _ req t k hj hacc).1

theorem callersGone_step {h : List ServerStep} {e : ServerStep} (hi : Tracked h e.before)
    (ho : OwnersLive e.before) (hv : e.Valid server) (hs : Settled e) (hg : CallersGone e.before) :
    CallersGone e.after := by
  intro t ht hd k r hk hl
  have heff := step_effect hv
  obtain ⟨ht', hcase⟩ := heff.terminated_cases ht hd
  rcases pending_of_effect heff hk with hk | ⟨s, msg, beyond, d, ha, -, -, rfl, -, -⟩
  · have hl' := heff.live_of_live (caller_lt hi hk) hl
    rcases hcase with hd | ⟨order, ha⟩
    · exact hg t ht' hd k r hk hl'
    · unfold Settled at hs
      rw [ha] at hs
      rcases hs k r hk with rfl | hn
      · rw [hl.2] at hd
        cases hd
      · exact hn hl'
  · -- a session that a transaction is delivered to is live
    have hlive : e.before.Live d.target := delivery_target_live ho d
    rcases hcase with hd | ⟨order, ha'⟩
    · rw [hlive.2] at hd
      cases hd
    · rw [ha] at ha'
      cases ha'

theorem callersGone_of_run {h : List ServerStep} {st : ServerState} (hr : Run server h st)
    (hb : ∀ t < st.numSessions, postedTransactions st t < 2 ^ 64) (hs : ∀ e ∈ h, Settled e) :
    CallersGone st := by
  revert hb
  refine Run.invariant (C := Settled)
    (P := fun _ u => (∀ t < u.numSessions, postedTransactions u t < 2 ^ 64) → CallersGone u)
    ?_ ?_ hr hs
  · intro _ t ht
    exact absurd ht (Nat.not_lt_zero t)
  · intro h e hp ih hv hse hb
    have hb' := posted_bound_before hv hb
    exact callersGone_step (tracked_of_run hp hb') (owners_of_run hp) hv hse (ih hb')

/-- **Callers are answered** in every run in which a session that terminates has no record of
another live session left. -/
theorem callers_answered {h : List ServerStep} {st : ServerState} (hr : Run server h st)
    (hb : ∀ t < st.numSessions, postedTransactions st t < 2 ^ 64) (hs : ∀ e ∈ h, Settled e) :
    NoOrphanedCaller h st := by
  have hi := tracked_of_run hr hb
  have hg := callersGone_of_run hr hb hs
  refine fun t ht hd => ⟨fun j e c req k hj hacc hna hl => ?_, hg t ht hd⟩
  rcases (hi.accepted j e c req t k hj hacc).2.2.2 with
    ⟨r, hk, rfl⟩ | ⟨i, e', msg, w, -, hi', hf, hk⟩
  · exact absurd hl (hg t ht hd k r hk)
  · exact absurd ⟨e', List.mem_of_getElem? hi', msg, w, hf, hk⟩ hna

/-- Session `0` calls the context manager `1`, which replies and terminates. -/
def settledScenario : List Action := replyScenario ++ [.terminate 1 []]

theorem callers_answered_settledScenario :
    ((final server {} settledScenario).sessions 1).terminated = true ∧
      NoOrphanedCaller (history server {} settledScenario) (final server {} settledScenario) := by
  exact ⟨by decide +kernel, callers_answered (path_history server settledScenario {})
    (by decide +kernel) (by decide +kernel)⟩

/-- Session `0` calls the context manager `1`, which terminates. -/
def orphanScenario : List Action :=
  [.accept, .accept, .process 1 { type := .setContextMgr } [],
    .process 0 (transactMessage 0 5 1 [] []) [], .terminate 1 []]

/-- The caller is left without a reply. -/
theorem callers_are_orphaned :
    Run server (history server {} orphanScenario) (final server {} orphanScenario) ∧
      ¬ NoOrphanedCaller (history server {} orphanScenario) (final server {} orphanScenario) := by
  refine ⟨path_history server orphanScenario {}, fun h1 => ?_⟩
  have h2 := (h1 1 (by decide +kernel) (by decide +kernel)).2
  have h3 : ((final server {} orphanScenario).sessions 1).pendingTransactions.lookup 0 |>.any
      fun r => decide ((final server {} orphanScenario).Live r.caller) := by decide +kernel
  obtain ⟨r, hr, hl⟩ := (Option.any_eq_true _ _).mp h3
  exact h2 0 r hr (of_decide_eq_true hl)

end Binderd.Broker.Orphans
