import Binderd.Broker.Agreement
import Mathlib.Data.Set.Function

/-! # Transactions and their replies

`PostTransaction` keeps a record under the cookie it delivers the transaction with; `OnReply`
removes the record and forwards the reply to the caller. `Tracked` relates the records, the
counters they are numbered by and the history of the run: a record is that of an accepted
transaction, an accepted transaction has its record or a reply, and a forwarded reply has an
accepted transaction before it and no other reply beside it. It is kept by every step as long as no
counter has wrapped around. -/

namespace Binderd.Broker.Replies

open Binderd.Lib.Bytes Binderd.Lib.Tables Binderd.Lib.Runs
open Binderd.Wire.Streams Binderd.Wire.Messages Binderd.Wire.Transactions
open Binderd.Broker.State Binderd.Broker.Handles Binderd.Broker.Sessions Binderd.Broker.Effects
open Binderd.Broker.Agreement

/-- The number of calls of `PostTransaction` of the session. -/
def postedTransactions (st : ServerState) (s : SessionId) : ℕ :=
  (st.sessions s).nextTransactionCookie

/-- The step accepts the Transaction `msg` of `caller`: it delivers it to `target` under `cookie`
and acknowledges it with `Status::OK`. -/
structure Accepts (e : ServerStep) (caller : SessionId) (msg : Message) (target : SessionId)
    (cookie : ℕ) : Prop where
  processed : ∃ beyond, e.action = .process caller msg beyond
  type : msg.type = .transaction
  delivered : ∃ w ∈ e.emitted,
    w.session = target ∧ w.message.type = .transaction ∧ w.message.cookie = cookie
  acknowledged : ⟨caller, statusMessage msg .ok, .sendStatus msg .ok⟩ ∈ e.emitted

/-- `OnReply` of the session `s` forwards `msg`, and writes `w`. -/
structure Forwards (e : ServerStep) (s : SessionId) (msg : Message) (w : Write) : Prop where
  processed : ∃ beyond, e.action = .process s msg beyond
  emitted : w ∈ e.emitted
  source : w.source.isOnReply

/-- The messages `ProcessMessage` hands to `OnReply`. -/
def isAnswer (t : MessageType) : Bool := t = .status ∨ t = .transactionReply

theorem step_answer {st st' : ServerState} {s : SessionId} {msg : Message} {beyond : List UInt8}
    {ws : List Write} (h : step st (.process s msg beyond) = some (st', ws))
    (ht : isAnswer msg.type) : onReply st s msg = (st', ws) := by
  simp only [step] at h
  split_ifs at h
  rcases of_decide_eq_true ht with ht | ht
  · simp only [processMessage, ht] at h
    exact Option.some.inj h
  · simp only [processMessage, ht] at h
    exact Option.some.inj h

/-! ### Posting -/

section Delivery

variable {st : ServerState} {s : SessionId} {msg : Message} {beyond : List UInt8}
  (d : Delivery st s msg beyond)

theorem delivery_cookie : d.cookie = postedTransactions st d.target % 2 ^ 64 := by
  unfold Delivery.cookie postCookie postedTransactions
  rw [(Exports.frame d.caller_exports).nextTransactionCookie]

theorem delivery_accepts (e : ServerStep) (ha : e.action = .process s msg beyond)
    (hw : e.emitted = d.writes) : Accepts e s msg d.target d.cookie := by
  refine ⟨⟨beyond, ha⟩, d.type,
    ⟨⟨d.target, d.message, .postTransaction d.record⟩, ?_, rfl, rfl, rfl⟩, ?_⟩
  · rw [hw]
    exact List.mem_append.mpr (.inl (mem_writeMessage.mpr (.inl rfl)))
  · rw [hw]
    exact List.mem_append.mpr (.inr (statusMessage_mem ..))

end Delivery

theorem delivery_target_live {st : ServerState} {s : SessionId} {msg : Message}
    {beyond : List UInt8} (ho : OwnersLive st) (d : Delivery st s msg beyond) :
    st.Live d.target :=
  ((Exports.frame d.caller_exports).live _).mp
    ((owners_exports ho d.live d.caller_exports).find_live d.find)

/-! ### The steps that accept and those that forward -/

/-- A Transaction was written by `PostTransaction`, for its record. -/
theorem transaction_delivery {e : ServerStep} (hv : e.Valid server) {w : Write}
    (hw : w ∈ e.emitted) (ht : w.message.type = .transaction) :
    ∃ caller req beyond, ∃ d : Delivery e.before caller req beyond,
      e.action = .process caller req beyond ∧ e.after = d.state ∧ e.emitted = d.writes ∧
      w = ⟨d.target, d.message, .postTransaction d.record⟩ := by
  have hwr := (step_effect hv).written hw
  generalize e.after = st' at hwr
  generalize e.emitted = ws at hwr
  generalize e.action = a at hwr
  cases hwr with
  | log _ hlog =>
    rw [ht] at hlog
    cases hlog
  | status _ => cases ht
  | @transaction caller req beyond d => exact ⟨caller, req, beyond, d, rfl, rfl, rfl, rfl⟩
  | reply _ hr _ _ =>
    simp only at ht
    rw [ht] at hr
    rcases hr with hr | hr <;> cases hr
  | deadBinder _ _ => cases ht

theorem Accepts.delivery {e : ServerStep} {caller target : SessionId} {msg : Message} {cookie : ℕ}
    (h : Accepts e caller msg target cookie) (hv : e.Valid server) :
    ∃ beyond, ∃ d : Delivery e.before caller msg beyond, e.action = .process caller msg beyond ∧
      e.after = d.state ∧ e.emitted = d.writes ∧ target = d.target ∧ cookie = d.cookie := by
  obtain ⟨⟨beyond, ha⟩, -, ⟨w, hw, rfl, ht, rfl⟩, -⟩ := h
  obtain ⟨c, req, b, d, hact, hst, hws, rfl⟩ := transaction_delivery hv hw ht
  rw [ha] at hact
  cases hact
  exact ⟨beyond, d, ha, hst, hws, rfl, rfl⟩

theorem Accepts.unique {e : ServerStep} {c c' t t' : SessionId} {msg msg' : Message} {k k' : ℕ}
    (h : Accepts e c msg t k) (h' : Accepts e c' msg' t' k') (hv : e.Valid server) :
    t = t' ∧ k = k' := by
  obtain ⟨b, d, ha, hst, hws, rfl, rfl⟩ := h.delivery hv
  obtain ⟨-, -, ⟨w, hw, rfl, ht, rfl⟩, -⟩ := h'
  rw [hws] at hw
  rcases List.mem_append.mp hw with hw | hw
  · rcases mem_writeMessage.mp hw with rfl | hw
    · exact ⟨rfl, rfl⟩
    · rw [(mem_forwardToMonitor hw).2] at ht
      cases ht
  · rcases mem_writeMessage.mp hw with rfl | hw
    · cases ht
    · rw [(mem_forwardToMonitor hw).2] at ht
      cases ht

/-- A step that forwards a message removes the record of a transaction, and forwards once. -/
theorem forwards_of_mem {e : ServerStep} {w : Write} (hv : e.Valid server) (hw : w ∈ e.emitted)
    (hs : w.source.isOnReply) :
    ∃ s msg record, (∃ beyond, e.action = .process s msg beyond) ∧ isAnswer msg.type ∧
      e.before.Live s ∧ (e.before.sessions s).pendingTransactions.lookup msg.cookie = some record ∧
      e.after = removePending e.before s msg.cookie ∧
      e.emitted = writeMessage e.after record.caller { msg with cookie := record.replyCookie }
        (.onReply record) ∧
      w = ⟨record.caller, { msg with cookie := record.replyCookie }, .onReply record⟩ := by
  have hwr := (step_effect hv).written hw
  generalize hst : e.after = st' at hwr
  generalize hws : e.emitted = ws at hwr
  generalize ha : e.action = a at hwr
  cases hwr with
  | log hlog _ => rw [hlog] at hs; cases hs
  | status _ => cases hs
  | transaction d => cases hs
  | @reply s msg beyond _ record hl hm hp he =>
    exact ⟨s, msg, record, ⟨beyond, rfl⟩, decide_eq_true hm, hl, hp, rfl, he, rfl⟩
  | deadBinder _ _ => cases hs

theorem Forwards.pending {e : ServerStep} {s : SessionId} {msg : Message} {w : Write}
    (h : Forwards e s msg w) (hv : e.Valid server) :
    ∃ record, e.before.Live s ∧
      (e.before.sessions s).pendingTransactions.lookup msg.cookie = some record ∧
      e.after = removePending e.before s msg.cookie ∧
      w = ⟨record.caller, { msg with cookie := record.replyCookie }, .onReply record⟩ := by
  obtain ⟨s', msg', record, ⟨b, ha⟩, -, hl, hp, hst, -, hw⟩ := forwards_of_mem hv h.emitted h.source
  obtain ⟨b', ha'⟩ := h.processed
  rw [ha] at ha'
  cases ha'
  exact ⟨record, hl, hp, hst, hw⟩

theorem not_isAnswer_of_status {e : ServerStep} (hv : e.Valid server) {w : Write}
    (hw : w ∈ e.emitted) {req : Message} {status : Status}
    (hs : w.source = .sendStatus req status) :
    ∃ beyond, e.action = .process w.session req beyond ∧ w.message = statusMessage req status ∧
      ¬ isAnswer req.type := by
  have hwr := (step_effect hv).written hw
  generalize e.after = st' at hwr
  generalize e.emitted = ws at hwr
  generalize ha : e.action = a at hwr
  cases hwr with
  | log hlog _ =>
    rw [hs] at hlog
    cases hlog
  | transaction d => cases hs
  | reply _ _ _ _ => cases hs
  | deadBinder _ _ => cases hs
  | @status s msg beyond _ _ _ _ =>
    cases hs
    refine ⟨beyond, rfl, rfl, fun ht => ?_⟩
    have hstep : step e.before (.process s req beyond) = some (e.after, e.emitted) := ha ▸ hv
    have hreply : (onReply e.before s req).2 = e.emitted :=
      congrArg Prod.snd (step_answer hstep ht)
    rw [← hreply, onReply] at hw
    cases hp : (e.before.sessions s).pendingTransactions.lookup req.cookie with
    | none =>
      rw [hp] at hw
      cases hw
    | some r =>
      rw [hp] at hw
      rcases mem_writeMessage.mp hw with hw | hw
      · cases congrArg Write.source hw
      · cases (mem_forwardToMonitor hw).1

theorem countP_onReply_le {e : ServerStep} (hv : e.Valid server) :
    e.emitted.countP (fun w => w.source.isOnReply) ≤ 1 := by
  by_cases h : ∃ w ∈ e.emitted, w.source.isOnReply
  · obtain ⟨w, hw, hs⟩ := h
    obtain ⟨s, msg, record, -, -, -, -, -, he, -⟩ := forwards_of_mem hv hw hs
    rw [he, writeMessage, List.countP_cons, List.countP_eq_zero.mpr]
    · simp [Source.isOnReply]
    · intro w' hw'
      rw [(mem_forwardToMonitor hw').1]
      simp [Source.isOnReply]
  · push Not at h
    rw [List.countP_eq_zero.mpr h]
    exact Nat.zero_le 1

/-! ### Records and counters, step by step -/

/-- A record that is there after an effect was there before, or is that of a delivery. -/
theorem pending_of_effect {st st' : ServerState} {a : Action} {ws : List Write}
    (h : Effect st a st' ws) {t : SessionId} {k : ℕ} {r : TransactionRecord}
    (hk : (st'.sessions t).pendingTransactions.lookup k = some r) :
    (st.sessions t).pendingTransactions.lookup k = some r ∨
      ∃ s msg beyond, ∃ d : Delivery st s msg beyond, a = .process s msg beyond ∧
        ws = d.writes ∧ postedTransactions st' t = postedTransactions st t + 1 ∧
        t = d.target ∧ k = d.cookie ∧ r = d.record := by
  have hs := h.session t
  unfold postedTransactions
  generalize st'.sessions t = x at hs hk
  cases hs with
  | fresh _ => cases hk
  | @delivered s msg beyond _ d ht =>
    simp only [lookup_insertNew] at hk
    split_ifs at hk with hnew
    · cases hk
      exact .inr ⟨s, msg, beyond, d, rfl, rfl, rfl, ht, hnew.1, rfl⟩
    · exact .inl hk
  | answered _ _ => exact .inl (lookup_erase_eq_some.mp hk).2
  | _ => exact .inl hk

/-- A record that is there before an effect is there after it, unless it was answered. -/
theorem pending_kept {st st' : ServerState} {a : Action} {ws : List Write}
    (h : Effect st a st' ws) {t : SessionId} {k : ℕ} {r : TransactionRecord}
    (ht : t < st.numSessions) (hk : (st.sessions t).pendingTransactions.lookup k = some r) :
    (st'.sessions t).pendingTransactions.lookup k = some r ∨
      ∃ msg beyond w, a = .process t msg beyond ∧ msg.cookie = k ∧ w ∈ ws ∧ w.source.isOnReply := by
  have hs := h.session t
  generalize st'.sessions t = x at hs
  cases hs with
  | fresh he => exact absurd he ht.ne
  | delivered _ _ _ => exact .inl (lookup_insertNew_of_some hk)
  | @answered msg beyond _ record _ hw =>
    by_cases he : k = msg.cookie
    · refine .inr ⟨msg, beyond,
        ⟨record.caller, { msg with cookie := record.replyCookie }, .onReply record⟩, rfl, he.symm,
        ?_, rfl⟩
      rw [hw]
      exact List.mem_cons_self
    · exact .inl (lookup_erase_eq_some.mpr ⟨he, hk⟩)
  | _ => exact .inl hk

theorem posted_mono {st st' : ServerState} {a : Action} {ws : List Write} (h : Effect st a st' ws)
    {t : SessionId} (ht : t < st.numSessions) :
    postedTransactions st t ≤ postedTransactions st' t := by
  have hs := h.session t
  unfold postedTransactions
  generalize st'.sessions t = x at hs
  cases hs with
  | fresh he => exact absurd he ht.ne
  | posted _ => exact Nat.le_succ _
  | delivered _ _ _ => exact Nat.le_succ _
  | _ => exact le_rfl

/-! ### The invariant -/

/-- **Records and the history.** -/
structure Tracked (h : List ServerStep) (st : ServerState) : Prop where
  pending : ∀ t k r, (st.sessions t).pendingTransactions.lookup k = some r →
    t < st.numSessions ∧ k < postedTransactions st t ∧
      ∃ (j : ℕ) (e : ServerStep) (req : Message), h[j]? = some e ∧ Accepts e r.caller req t k ∧
        req.cookie = r.replyCookie ∧ (e.after.sessions t).pendingTransactions.lookup k = some r
  accepted : ∀ (j : ℕ) e c req t k, h[j]? = some e → Accepts e c req t k →
    c < st.numSessions ∧ t < st.numSessions ∧ k < postedTransactions st t ∧
      ((∃ r, (st.sessions t).pendingTransactions.lookup k = some r ∧ r.caller = c) ∨
        ∃ (i : ℕ) (e' : ServerStep) (msg : Message) (w : Write), j < i ∧ h[i]? = some e' ∧
          Forwards e' t msg w ∧ msg.cookie = k)
  forwarded : ∀ (i : ℕ) e s msg w, h[i]? = some e → Forwards e s msg w →
    s < st.numSessions ∧ msg.cookie < postedTransactions st s ∧
      (st.sessions s).pendingTransactions.lookup msg.cookie = none ∧
      ∃ (j : ℕ) (e' : ServerStep) (req : Message), j < i ∧ h[j]? = some e' ∧
        Accepts e' w.session req s msg.cookie ∧ w.message = { msg with cookie := req.cookie }
  once : ∀ (i i' : ℕ) e e' s msg msg' w w', h[i]? = some e → h[i']? = some e' → Forwards e s msg w →
    Forwards e' s msg' w' → msg.cookie = msg'.cookie → i = i'

theorem posted_bound_before {e : ServerStep} (hv : e.Valid server)
    (hb : ∀ t < e.after.numSessions, postedTransactions e.after t < 2 ^ 64) :
    ∀ t < e.before.numSessions, postedTransactions e.before t < 2 ^ 64 := fun t ht =>
  have heff := step_effect hv
  (posted_mono heff ht).trans_lt (hb t (ht.trans_le heff.numSessions_le))

section Step

variable {h : List ServerStep} {e : ServerStep} (hi : Tracked h e.before) (hv : e.Valid server)
  (ho : OwnersLive e.before)
  (hb : ∀ t < e.before.numSessions, postedTransactions e.before t < 2 ^ 64)

include ho hb in
/-- The cookie of a delivery is the number of transactions posted before it. -/
theorem delivery_cookie_eq {s : SessionId} {msg : Message} {beyond : List UInt8}
    (d : Delivery e.before s msg beyond) :
    d.target < e.before.numSessions ∧ d.cookie = postedTransactions e.before d.target := by
  have hl := delivery_target_live ho d
  rw [delivery_cookie, Nat.mod_eq_of_lt (hb _ hl.1)]
  exact ⟨hl.1, rfl⟩

include hi ho hb in
theorem delivery_lookup {s : SessionId} {msg : Message} {beyond : List UInt8}
    (d : Delivery e.before s msg beyond) :
    (e.before.sessions d.target).pendingTransactions.lookup d.cookie = none ∧
      (d.state.sessions d.target).pendingTransactions.lookup d.cookie = some d.record := by
  have hnone : (e.before.sessions d.target).pendingTransactions.lookup d.cookie = none := by
    rw [Option.eq_none_iff_forall_ne_some]
    intro r hr
    have hlt := (hi.pending _ _ r hr).2.1
    rw [(delivery_cookie_eq ho hb d).2] at hlt
    exact lt_irrefl _ hlt
  refine ⟨hnone, ?_⟩
  rw [d.target_session]
  exact lookup_insertNew_self (AList.lookup_eq_none.mp hnone)

include hi hv ho hb in
theorem tracked_pending {t : SessionId} {k : ℕ} {r : TransactionRecord}
    (hk : (e.after.sessions t).pendingTransactions.lookup k = some r) :
    t < e.after.numSessions ∧ k < postedTransactions e.after t ∧
      ∃ (j : ℕ) (e' : ServerStep) (req : Message), (h ++ [e])[j]? = some e' ∧
        Accepts e' r.caller req t k ∧ req.cookie = r.replyCookie ∧
        (e'.after.sessions t).pendingTransactions.lookup k = some r := by
  have heff := step_effect hv
  have hn := heff.numSessions_le
  have hafter := hk
  rcases pending_of_effect heff hk with hk | ⟨s, msg, beyond, d, ha, hws, hpost, rfl, rfl, rfl⟩
  · obtain ⟨ht, hlt, j, e', req, hj, hacc, hc⟩ := hi.pending t k r hk
    exact ⟨ht.trans_le hn, hlt.trans_le (posted_mono heff ht), j, e', req,
      getElem?_snoc_of_some hj e, hacc, hc⟩
  · obtain ⟨ht, hc⟩ := delivery_cookie_eq ho hb d
    refine ⟨ht.trans_le hn, ?_, h.length, e, msg, getElem?_snoc_iff.mpr (.inr ⟨rfl, rfl⟩),
      delivery_accepts d e ha hws, rfl, hafter⟩
    rw [hpost, hc]
    exact Nat.lt_succ_self _

include hi hv ho hb in
theorem tracked_accepted {j : ℕ} {x : ServerStep} {c t : SessionId} {req : Message} {k : ℕ}
    (hx : (h ++ [e])[j]? = some x) (hacc : Accepts x c req t k) :
    c < e.after.numSessions ∧ t < e.after.numSessions ∧ k < postedTransactions e.after t ∧
      ((∃ r, (e.after.sessions t).pendingTransactions.lookup k = some r ∧ r.caller = c) ∨
        ∃ (i : ℕ) (e' : ServerStep) (msg : Message) (w : Write), j < i ∧
          (h ++ [e])[i]? = some e' ∧ Forwards e' t msg w ∧ msg.cookie = k) := by
  have heff := step_effect hv
  have hn := heff.numSessions_le
  rcases getElem?_snoc_iff.mp hx with hx | ⟨rfl, rfl⟩
  · obtain ⟨hc, ht, hlt, hr⟩ := hi.accepted j x c req t k hx hacc
    refine ⟨hc.trans_le hn, ht.trans_le hn, hlt.trans_le (posted_mono heff ht), ?_⟩
    rcases hr with ⟨r, hr, hrc⟩ | ⟨i, e', msg, w, hji, hi', hf, hk⟩
    · -- the record stays, unless this step answers the transaction
      rcases pending_kept heff ht hr with hr' | ⟨msg, beyond, w, ha, hk, hw, hs⟩
      · exact .inl ⟨r, hr', hrc⟩
      · exact .inr ⟨h.length, e, msg, w, lt_length_of_getElem? hx,
          getElem?_snoc_iff.mpr (.inr ⟨rfl, rfl⟩), ⟨⟨beyond, ha⟩, hw, hs⟩, hk⟩
    · exact .inr ⟨i, e', msg, w, hji, getElem?_snoc_of_some hi' e, hf, hk⟩
  · obtain ⟨beyond, d, ha, hst, hws, rfl, rfl⟩ := hacc.delivery hv
    obtain ⟨ht, hc⟩ := delivery_cookie_eq ho hb d
    refine ⟨d.live.1.trans_le hn, ht.trans_le hn, ?_, .inl ⟨d.record, ?_, rfl⟩⟩
    · rw [postedTransactions, hst, d.target_session, hc]
      exact Nat.lt_succ_self _
    · rw [hst]
      exact (delivery_lookup hi ho hb d).2

include hi hv ho hb in
theorem tracked_forwarded {i : ℕ} {x : ServerStep} {s : SessionId} {msg : Message} {w : Write}
    (hx : (h ++ [e])[i]? = some x) (hf : Forwards x s msg w) :
    s < e.after.numSessions ∧ msg.cookie < postedTransactions e.after s ∧
      (e.after.sessions s).pendingTransactions.lookup msg.cookie = none ∧
      ∃ (j : ℕ) (e' : ServerStep) (req : Message), j < i ∧ (h ++ [e])[j]? = some e' ∧
        Accepts e' w.session req s msg.cookie ∧
        w.message = { msg with cookie := req.cookie } := by
  have heff := step_effect hv
  have hn := heff.numSessions_le
  rcases getElem?_snoc_iff.mp hx with hx | ⟨rfl, rfl⟩
  · obtain ⟨hs, hlt, hnone, j, e', req, hji, hj, hacc, hw⟩ := hi.forwarded i x s msg w hx hf
    refine ⟨hs.trans_le hn, hlt.trans_le (posted_mono heff hs), ?_, j, e', req, hji,
      getElem?_snoc_of_some hj e, hacc, hw⟩
    -- the record cannot come back: a new one has a cookie that was not drawn before
    rw [Option.eq_none_iff_forall_ne_some]
    intro r hr
    rcases pending_of_effect heff hr with hr | ⟨s', msg', beyond, d, -, -, -, hsd, hkd, -⟩
    · rw [hnone] at hr
      cases hr
    · subst hsd
      have := (delivery_cookie_eq ho hb d).2
      omega
  · obtain ⟨record, hl, hp, hst, rfl⟩ := hf.pending hv
    obtain ⟨ht, hlt, j, e', req, hj, hacc, hc, -⟩ := hi.pending s msg.cookie record hp
    refine ⟨ht.trans_le hn, hlt.trans_le (posted_mono heff ht), ?_, j, e', req,
      lt_length_of_getElem? hj, getElem?_snoc_of_some hj x, hacc, by rw [hc]⟩
    rw [hst, removePending, ServerState.update_sessions_self]
    exact AList.lookup_erase _ _

include hi hv in
theorem tracked_once {i i' : ℕ} {x x' : ServerStep} {s : SessionId} {msg msg' : Message}
    {w w' : Write} (hx : (h ++ [e])[i]? = some x) (hx' : (h ++ [e])[i']? = some x')
    (hf : Forwards x s msg w) (hf' : Forwards x' s msg' w') (hc : msg.cookie = msg'.cookie) :
    i = i' := by
  -- the message of an earlier step has no record left for the last step to find
  have hlast : ∀ {j : ℕ} {y m m' u u'}, h[j]? = some y → Forwards y s m u → Forwards e s m' u' →
      m.cookie ≠ m'.cookie := by
    intro j y m m' u u' hy hfy hfe he
    obtain ⟨record, -, hp, -⟩ := hfe.pending hv
    rw [← he, (hi.forwarded j y s m u hy hfy).2.2.1] at hp
    cases hp
  rcases getElem?_snoc_iff.mp hx with hx | ⟨hlen, hxe⟩ <;>
    rcases getElem?_snoc_iff.mp hx' with hx' | ⟨hlen', hxe'⟩
  · exact hi.once i i' x x' s msg msg' w w' hx hx' hf hf' hc
  · exact absurd hc (hlast hx hf (hxe' ▸ hf'))
  · exact absurd hc.symm (hlast hx' hf' (hxe ▸ hf))
  · rw [hlen, hlen']

end Step

/-- **The records are tracked in every run** that posts fewer than `2 ^ 64` transactions to each
session. -/
theorem tracked_of_run {h : List ServerStep} {st : ServerState} (hr : Run server h st)
    (hb : ∀ t < st.numSessions, postedTransactions st t < 2 ^ 64) : Tracked h st := by
  revert hb
  refine Run.invariant (C := fun _ => True)
    (P := fun h u => (∀ t < u.numSessions, postedTransactions u t < 2 ^ 64) → Tracked h u)
    ?_ ?_ hr (fun _ _ => trivial)
  · intro _
    exact ⟨(fun t k r hk => by cases hk), (fun j e c req t k hj => by cases hj),
      (fun i e s msg w hi => by cases hi), fun i i' e e' s msg msg' w w' hi => by cases hi⟩
  · intro h e hp ih hv _ hb
    have hb' := posted_bound_before hv hb
    have hi := ih hb'
    have ho := owners_of_run hp
    exact ⟨fun _ _ _ => tracked_pending hi hv ho hb',
      fun _ _ _ _ _ _ => tracked_accepted hi hv ho hb',
      fun _ _ _ _ _ => tracked_forwarded hi hv ho hb',
      fun _ _ _ _ _ _ _ _ _ => tracked_once hi hv⟩

theorem posted_bound_path {st st' : ServerState} {h : List ServerStep} (hp : Path server st h st')
    (hb : ∀ t < st'.numSessions, postedTransactions st' t < 2 ^ 64) :
    ∀ t < st.numSessions, postedTransactions st t < 2 ^ 64 := by
  induction hp with
  | nil => exact hb
  | snoc _ hv ih => exact ih (posted_bound_before hv hb)

/-- **A cookie is drawn once**: two steps that deliver a transaction to `t` under one cookie are
one. -/
theorem accepts_index_unique {h : List ServerStep} {st : ServerState} (hr : Run server h st)
    (hb : ∀ t < st.numSessions, postedTransactions st t < 2 ^ 64) {j j' : ℕ} {e e' : ServerStep}
    {c c' t : SessionId} {req req' : Message} {k : ℕ} (hj : h[j]? = some e) (hj' : h[j']? = some e')
    (hacc : Accepts e c req t k) (hacc' : Accepts e' c' req' t k) : j = j' := by
  -- the cookie of the later one is a number that the counter had passed
  have hlt : ∀ {i i' : ℕ} {x x' c c' req req'}, h[i]? = some x → h[i']? = some x' →
      Accepts x c req t k → Accepts x' c' req' t k → ¬ i < i' := by
    intro i i' x x' c c' req req' hi hi' hx hx' hii
    obtain ⟨hp, hv, hp'⟩ := hr.split_getElem? hi'
    have hb' := posted_bound_before hv (posted_bound_path hp' hb)
    have hi : (h.take i')[i]? = some x := by rw [List.getElem?_take_of_lt hii, hi]
    have hk := ((tracked_of_run hp hb').accepted i x c req t k hi hx).2.2.1
    obtain ⟨beyond, d, -, -, -, rfl, rfl⟩ := hx'.delivery hv
    rw [(delivery_cookie_eq (owners_of_run hp) hb' d).2] at hk
    exact lt_irrefl _ hk
  rcases Nat.lt_trichotomy j j' with hjj | hjj | hjj
  · exact absurd hjj (hlt hj hj' hacc hacc')
  · exact hjj
  · exact absurd hjj (hlt hj' hj hacc' hacc)

/-! ### Routing of replies -/

/-- The step that accepted the transaction which the message `w`, forwarded in step `i`, answers. -/
theorem exists_accepted {h : List ServerStep} {st : ServerState} (hr : Run server h st)
    (ht : Tracked h st) {i : ℕ} {e : ServerStep} {w : Write} (hi : h[i]? = some e)
    (hw : w ∈ e.emitted) (hs : w.source.isOnReply) :
    ∃ s msg, Forwards e s msg w ∧ ∃ (j : ℕ) (e' : ServerStep) (req : Message), j < i ∧
      h[j]? = some e' ∧ Accepts e' w.session req s msg.cookie ∧
      w.message = { msg with cookie := req.cookie } := by
  have hv := hr.valid (List.mem_of_getElem? hi)
  obtain ⟨s, msg, record, ha, -⟩ := forwards_of_mem hv hw hs
  have hf : Forwards e s msg w := ⟨ha, hw, hs⟩
  exact ⟨s, msg, hf, (ht.forwarded i e s msg w hi hf).2.2.2⟩

theorem forwarded_unique {h : List ServerStep} {st : ServerState} (hr : Run server h st) {i : ℕ}
    {e : ServerStep} {w w' : Write} (hi : h[i]? = some e) (hw : w ∈ e.emitted)
    (hs : w.source.isOnReply) (hw' : w' ∈ e.emitted) (hs' : w'.source.isOnReply) : w = w' := by
  have hv := hr.valid (List.mem_of_getElem? hi)
  obtain ⟨s, msg, record, ⟨b, ha⟩, -, -, hp, -, -, rfl⟩ := forwards_of_mem hv hw hs
  obtain ⟨s', msg', record', ⟨b', ha'⟩, -, -, hp', -, -, rfl⟩ := forwards_of_mem hv hw' hs'
  rw [ha] at ha'
  cases ha'
  rw [hp] at hp'
  cases hp'
  rfl

/-- **Replies reach their callers.** In a run that posts fewer than `2 ^ 64` transactions to each
session, a step forwards one message at most, and the steps that forward a message map injectively
to earlier steps that accept a transaction: the message comes from the session the transaction was
delivered to, carries the cookie it was delivered with, and is written to the session that sent the
transaction, with the cookie of its request. -/
theorem replies_reach_their_callers {h : List ServerStep} {st : ServerState} (hr : Run server h st)
    (hb : ∀ t < st.numSessions, postedTransactions st t < 2 ^ 64) :
    (∀ e ∈ h, e.emitted.countP (fun w => w.source.isOnReply) ≤ 1) ∧
    ∃ f : ℕ → ℕ,
      Set.InjOn f {i | ∃ e w, h[i]? = some e ∧ w ∈ e.emitted ∧ w.source.isOnReply} ∧
      ∀ (i : ℕ) e w, h[i]? = some e → w ∈ e.emitted → w.source.isOnReply →
        f i < i ∧ ∃ s msg, (∃ beyond, e.action = .process s msg beyond) ∧
          ∃ e' caller req, h[f i]? = some e' ∧ Accepts e' caller req s msg.cookie ∧
            w.session = caller ∧ w.message = { msg with cookie := req.cookie } := by
  have ht := tracked_of_run hr hb
  have hvalid : ∀ {i : ℕ} {e}, h[i]? = some e → e.Valid server := fun hi =>
    hr.valid (List.mem_of_getElem? hi)
  refine ⟨fun e he => ?_, ?_⟩
  · obtain ⟨i, hi⟩ := List.getElem?_of_mem he
    exact countP_onReply_le (hvalid hi)
  have hex : ∀ i : ℕ, ∃ j : ℕ, ∀ e w, h[i]? = some e → w ∈ e.emitted → w.source.isOnReply →
      ∃ s msg e' req, Forwards e s msg w ∧ j < i ∧ h[j]? = some e' ∧
        Accepts e' w.session req s msg.cookie ∧ w.message = { msg with cookie := req.cookie } := by
    intro i
    by_cases hi : ∃ e w, h[i]? = some e ∧ w ∈ e.emitted ∧ w.source.isOnReply
    · obtain ⟨e, w, hi, hw, hs⟩ := hi
      obtain ⟨s, msg, hf, j, e', req, hji, hj, hacc, hm⟩ := exists_accepted hr ht hi hw hs
      refine ⟨j, fun e₁ w₁ hi₁ hw₁ hs₁ => ?_⟩
      obtain rfl : e = e₁ := Option.some.inj (hi.symm.trans hi₁)
      obtain rfl := forwarded_unique hr hi hw hs hw₁ hs₁
      exact ⟨s, msg, e', req, hf, hji, hj, hacc, hm⟩
    · exact ⟨0, fun e w he hw hs => absurd ⟨e, w, he, hw, hs⟩ hi⟩
  choose f hf using hex
  refine ⟨f, ?_, fun i e w hi hw hs => ?_⟩
  · rintro i ⟨e, w, hi, hw, hs⟩ i' ⟨e', w', hi', hw', hs'⟩ hff
    obtain ⟨s, msg, a, req, hfw, -, hj, hacc, -⟩ := hf i e w hi hw hs
    obtain ⟨s', msg', a', req', hfw', -, hj', hacc', -⟩ := hf i' e' w' hi' hw' hs'
    rw [hff, hj'] at hj
    cases hj
    -- one accepted transaction, so one target and one cookie
    obtain ⟨rfl, hc⟩ := hacc.unique hacc' (hvalid hj')
    exact ht.once i i' e e' s msg msg' w w' hi hi' hfw hfw' hc
  · obtain ⟨s, msg, e', req, hfw, hji, hj, hacc, hm⟩ := hf i e w hi hw hs
    exact ⟨hji, s, msg, hfw.processed, e', w.session, req, hj, hacc, rfl, hm⟩

/-- Session `0` calls the context manager `1`, which replies. -/
def replyScenario : List Action :=
  [.accept, .accept, .process 1 { type := .setContextMgr } [],
    .process 0 (transactMessage 0 5 1 [] []) [], .process 1 { type := .transactionReply } []]

theorem replies_reach_their_callers_replyScenario :
    ∃ e w, (history server {} replyScenario)[4]? = some e ∧ w ∈ e.emitted ∧ w.source.isOnReply ∧
      ∃ f : ℕ → ℕ, f 4 < 4 ∧ ∃ e' req, (history server {} replyScenario)[f 4]? = some e' ∧
        Accepts e' w.session req 1 0 := by
  have h4 : ((history server {} replyScenario)[4]?.any fun e =>
      decide (e.action = .process 1 { type := .transactionReply } []) &&
        e.emitted.any fun w => w.source.isOnReply) = true := by decide +kernel
  obtain ⟨e, he, hany⟩ := (Option.any_eq_true _ _).mp h4
  rw [Bool.and_eq_true, decide_eq_true_eq, List.any_eq_true] at hany
  obtain ⟨ha, w, hw, hs⟩ := hany
  obtain ⟨-, f, -, hf⟩ :=
    replies_reach_their_callers (path_history server replyScenario {}) (by decide +kernel)
  obtain ⟨hlt, s, msg, ⟨b, ha'⟩, e', caller, req, hj, hacc, rfl, -⟩ := hf 4 e w he hw hs
  rw [ha] at ha'
  cases ha'
  exact ⟨e, w, he, hw, hs, f, hlt, e', req, hj, hacc⟩

end Binderd.Broker.Replies
