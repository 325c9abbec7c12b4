import Binderd.Broker.Replies

/-! # Answers and the transactions they answer

The server with clients that answer. A message that the server writes goes to the queue of its
session, in an `Envelope` that notes the step of the server it was written in. A client takes a
message from its queue, in any order; to a Transaction or a DeadBinder it sends one answer, with
the cookie of the message, as `ClientImpl::ProcessAndExecuteCommand` does. The server processes the
answers in any order, and in between it accepts and terminates sessions and processes messages that
are not answers.

The cookies of transactions are drawn from a counter of the session that starts at `0`, and a
DeadBinder always has the cookie `0`. So its acknowledgement is taken for the answer to the first
transaction of the session, if that is pending (`acknowledgement_forwarded`), and this is the only
way an answer can be taken for that to another message (`answers_correlated_iff`). -/

namespace Binderd.Clients.Correlation

open Binderd.Lib.Bytes Binderd.Lib.Tables Binderd.Lib.Runs
open Binderd.Wire.Streams Binderd.Wire.Messages Binderd.Wire.Transactions
open Binderd.Broker.State Binderd.Broker.Handles Binderd.Broker.Sessions Binderd.Broker.Effects
open Binderd.Broker.Agreement Binderd.Broker.Replies

/-! ### The network -/

/-- A message for a client, and the step of the server that wrote it. -/
structure Envelope where
  sent : ℕ
  message : Message
deriving DecidableEq

/-- What a client sends in answer to the message `origin`. -/
structure Answer where
  origin : Envelope
  message : Message
deriving DecidableEq

/-- The server, and what is on its way to the clients and from them. -/
structure NetworkState where
  server : ServerState := {}
  /-- The number of steps of the server. -/
  clock : ℕ := 0
  inbox : SessionId → List Envelope := fun _ => []
  answers : SessionId → List Answer := fun _ => []

/-- An action of the server that is not for an answer of a client. -/
def isRequest : Action → Bool
  | .process _ msg _ => !isAnswer msg.type
  | _ => true

/-- What a client may send when it has taken `msg` from its queue. -/
def answersTo (msg : Message) (reply : Option Message) : Bool :=
  match msg.type with
  | .transaction => reply.any fun r => isAnswer r.type ∧ r.cookie = msg.cookie
  | .deadBinder => reply.any fun r => r.type = .status ∧ r.cookie = msg.cookie
  | _ => reply.isNone

/-- What can happen in the network. -/
inductive NetworkAction where
  | serve (a : Action)
  | dequeue (s : SessionId) (i : ℕ) (reply : Option Message)
  | answer (s : SessionId) (i : ℕ) (beyond : List UInt8)
deriving DecidableEq

/-- The state after a step of the server. -/
def deliver (st : NetworkState) (server : ServerState) (writes : List Write) : NetworkState :=
  { st with
    server := server
    clock := st.clock + 1
    inbox := fun s =>
      st.inbox s ++ (writes.filter fun w => w.session = s).map fun w => ⟨st.clock, w.message⟩ }

/-- The client of `s` takes the message at `i` and may send an answer. -/
def dequeued (st : NetworkState) (s : SessionId) (i : ℕ) (m : Envelope) (reply : Option Message) :
    NetworkState :=
  { st with
    inbox := Function.update st.inbox s ((st.inbox s).eraseIdx i)
    answers := Function.update st.answers s
      (st.answers s ++ reply.toList.map fun r => ⟨m, r⟩) }

/-- The answer at `i` of the client of `s` is taken from the link. -/
def received (st : NetworkState) (s : SessionId) (i : ℕ) : NetworkState :=
  { st with answers := Function.update st.answers s ((st.answers s).eraseIdx i) }

/-- One step of the network. -/
def networkStep (st : NetworkState) : NetworkAction → Option (NetworkState × List Write)
  | .serve a =>
    if isRequest a then (step st.server a).map fun r => (deliver st r.1 r.2, r.2) else none
  | .dequeue s i reply =>
    (st.inbox s)[i]?.bind fun m =>
      if answersTo m.message reply then some (dequeued st s i m reply, []) else none
  | .answer s i beyond =>
    (st.answers s)[i]?.bind fun a =>
      (step st.server (.process s a.message beyond)).map fun r =>
        (deliver (received st s i) r.1 r.2, r.2)

/-- **The server and its clients.** -/
def network : Machine NetworkState NetworkAction Write := ⟨{}, networkStep⟩

/-- The steps of the network, as its histories record them. -/
abbrev NetworkStep := Transition NetworkState NetworkAction Write

/-- The step of the network, as a step of the server that takes `a`. -/
def serverStepOf (e : NetworkStep) (a : Action) : ServerStep :=
  ⟨e.before.server, a, e.emitted, e.after.server⟩

/-- The action the server takes in a step. -/
def serverAction (e : NetworkStep) : Option Action :=
  match e.action with
  | .serve a => some a
  | .dequeue _ _ _ => none
  | .answer s i beyond => (e.before.answers s)[i]?.map fun a => .process s a.message beyond

theorem network_cases {e : NetworkStep} (hv : e.Valid network) :
    (∃ s i reply m, e.action = .dequeue s i reply ∧ (e.before.inbox s)[i]? = some m ∧
      answersTo m.message reply ∧ e.emitted = [] ∧ e.after = dequeued e.before s i m reply) ∨
    ∃ a, serverAction e = some a ∧ (serverStepOf e a).Valid server ∧
      ((e.action = .serve a ∧ isRequest a ∧
          e.after = deliver e.before e.after.server e.emitted) ∨
        ∃ s i beyond x, e.action = .answer s i beyond ∧ (e.before.answers s)[i]? = some x ∧
          a = .process s x.message beyond ∧
          e.after = deliver (received e.before s i) e.after.server e.emitted) := by
  obtain ⟨before, action, emitted, after⟩ := e
  have hstep : networkStep before action = some (after, emitted) := hv
  rcases action with a | ⟨s, i, reply⟩ | ⟨s, i, beyond⟩
  · right
    simp only [networkStep] at hstep
    split_ifs at hstep with hreq
    obtain ⟨r, hr, he⟩ := Option.map_eq_some_iff.mp hstep
    cases he
    exact ⟨a, rfl, hr, .inl ⟨rfl, hreq, rfl⟩⟩
  · left
    obtain ⟨m, hm, he⟩ := Option.bind_eq_some_iff.mp hstep
    split_ifs at he with hans
    cases he
    exact ⟨s, i, reply, m, rfl, hm, hans, rfl, rfl⟩
  · right
    obtain ⟨x, hx, he⟩ := Option.bind_eq_some_iff.mp hstep
    obtain ⟨r, hr, he⟩ := Option.map_eq_some_iff.mp he
    cases he
    exact ⟨.process s x.message beyond, by simp [serverAction, hx], hr,
      .inr ⟨s, i, beyond, x, rfl, hx, rfl, rfl⟩⟩

/-- The server, as a part of the network. -/
def serverPart : Part network server where
  state := NetworkState.server
  step e := (serverAction e).map (serverStepOf e)
  init := rfl
  kept e hv hnone := by
    rcases network_cases hv with ⟨s, i, reply, m, -, -, -, -, he⟩ | ⟨a, ha, -⟩
    · rw [he]
      rfl
    · simp [ha] at hnone
  moved e x hv hx := by
    obtain ⟨a, ha, rfl⟩ := Option.map_eq_some_iff.mp hx
    rcases network_cases hv with ⟨s, i, reply, m, hd, -⟩ | ⟨a', ha', hvalid, -⟩
    · simp [serverAction, hd] at ha
    · rw [ha] at ha'
      cases ha'
      exact ⟨hvalid, rfl, rfl⟩

/-! ### Correlation -/

/-- The client of `s` sent `a` in answer to the very Transaction whose record `r` is kept under the
cookie `k`: the message it answers is the one `PostTransaction` wrote when it put the record there.
-/
structure AnswersRecord (past : List ServerStep) (s : SessionId) (k : ℕ) (r : TransactionRecord)
    (a : Answer) : Prop where
  cookie : a.message.cookie = k
  type : a.origin.message.type = .transaction
  posted : ∃ x, past[a.origin.sent]? = some x ∧
    ⟨s, a.origin.message, .postTransaction r⟩ ∈ x.emitted ∧
    (x.before.sessions s).pendingTransactions.lookup k = none ∧
    (x.after.sessions s).pendingTransactions.lookup k = some r

/-- **Correlation** of a step, where `past` is what the server did before it. A record is removed,
and a message forwarded to the caller of a record, only on receipt of the answer to the record's
Transaction; an acknowledgement of a DeadBinder changes nothing and reaches no one. -/
structure Correlated (past : List ServerStep) (e : NetworkStep) : Prop where
  removed : ∀ s k r, (e.before.server.sessions s).pendingTransactions.lookup k = some r →
    (e.after.server.sessions s).pendingTransactions.lookup k ≠ some r →
    ∃ i beyond a, e.action = .answer s i beyond ∧ (e.before.answers s)[i]? = some a ∧
      AnswersRecord past s k r a
  forwarded : ∀ w ∈ e.emitted, w.source.isOnReply → ∃ s k r i beyond a, w.session = r.caller ∧
    (e.before.server.sessions s).pendingTransactions.lookup k = some r ∧
    e.action = .answer s i beyond ∧ (e.before.answers s)[i]? = some a ∧ AnswersRecord past s k r a
  acknowledged : ∀ s i beyond a, e.action = .answer s i beyond → (e.before.answers s)[i]? = some a →
    a.origin.message.type = .deadBinder → e.after.server = e.before.server ∧ e.emitted = []

/-- If the step is for the acknowledgement of a DeadBinder, no transaction is pending under the
cookie `0`. -/
def AckSafe (e : NetworkStep) : Prop :=
  match e.action with
  | .answer s i _ => ((e.before.answers s)[i]?.any fun a => a.origin.message.type = .deadBinder) →
      0 ∉ (e.before.server.sessions s).pendingTransactions
  | _ => True

instance : DecidablePred AckSafe
  | ⟨before, .answer s i _, _, _⟩ => inferInstanceAs (Decidable
      (((before.answers s)[i]?.any fun a => a.origin.message.type = .deadBinder) →
        0 ∉ (before.server.sessions s).pendingTransactions))
  | ⟨_, .serve _, _, _⟩ => isTrue trivial
  | ⟨_, .dequeue .., _, _⟩ => isTrue trivial

/-! ### Every message was written -/

/-- The server wrote the message to `s`, in the step it notes. -/
def SentTo (past : List ServerStep) (s : SessionId) (m : Envelope) : Prop :=
  ∃ x source, past[m.sent]? = some x ∧ ⟨s, m.message, source⟩ ∈ x.emitted

theorem SentTo.snoc {past : List ServerStep} {s : SessionId} {m : Envelope} (h : SentTo past s m)
    (x : ServerStep) : SentTo (past ++ [x]) s m := by
  obtain ⟨y, source, hy, hw⟩ := h
  exact ⟨y, source, getElem?_snoc_of_some hy x, hw⟩

/-- **Every message is accounted for**: it was written to its session, and an answer is one to it.
-/
structure Accounted (past : List ServerStep) (st : NetworkState) : Prop where
  clock : st.clock = past.length
  inbox : ∀ s, ∀ m ∈ st.inbox s, SentTo past s m
  answers : ∀ s, ∀ a ∈ st.answers s,
    SentTo past s a.origin ∧ answersTo a.origin.message (some a.message)

theorem mem_of_mem_update {α : Type} {f : SessionId → List α} {s t : SessionId} {i : ℕ} {a : α}
    (h : a ∈ Function.update f s ((f s).eraseIdx i) t) : a ∈ f t := by
  by_cases hts : t = s
  · subst hts
    rw [Function.update_self] at h
    exact List.mem_of_mem_eraseIdx h
  · rwa [Function.update_of_ne hts] at h

theorem Accounted.received {past : List ServerStep} {st : NetworkState} (h : Accounted past st)
    (s : SessionId) (i : ℕ) : Accounted past (received st s i) :=
  ⟨h.clock, h.inbox, fun t a ha => h.answers t a (mem_of_mem_update ha)⟩

theorem Accounted.deliver {past : List ServerStep} {st : NetworkState} (h : Accounted past st)
    (x : ServerStep) : Accounted (past ++ [x]) (deliver st x.after x.emitted) := by
  refine ⟨by simp [Correlation.deliver, h.clock], fun s m hm => ?_, fun s a ha => ?_⟩
  · rcases List.mem_append.mp hm with hm | hm
    · exact (h.inbox s m hm).snoc x
    · simp only [List.mem_map, List.mem_filter, decide_eq_true_eq] at hm
      obtain ⟨w, ⟨hw, rfl⟩, rfl⟩ := hm
      exact ⟨x, w.source, getElem?_snoc_iff.mpr (.inr ⟨h.clock, rfl⟩), hw⟩
  · obtain ⟨hsent, hans⟩ := h.answers s a ha
    exact ⟨hsent.snoc x, hans⟩

theorem Accounted.dequeued {past : List ServerStep} {st : NetworkState} (h : Accounted past st)
    {s : SessionId} {i : ℕ} {m : Envelope} {reply : Option Message} (hm : (st.inbox s)[i]? = some m)
    (hans : answersTo m.message reply) : Accounted past (dequeued st s i m reply) := by
  refine ⟨h.clock, fun t m' hm' => h.inbox t m' (mem_of_mem_update hm'), fun t a ha => ?_⟩
  by_cases hts : t = s
  · subst hts
    simp only [Correlation.dequeued, Function.update_self] at ha
    rcases List.mem_append.mp ha with ha | ha
    · exact h.answers t a ha
    · simp only [List.mem_map, Option.mem_toList] at ha
      obtain ⟨r, rfl, rfl⟩ := ha
      exact ⟨h.inbox t m (List.mem_of_getElem? hm), hans⟩
  · simp only [Correlation.dequeued, Function.update_of_ne hts] at ha
    exact h.answers t a ha

theorem accounted_of_run {h : List NetworkStep} {st : NetworkState} (hr : Run network h st) :
    Accounted (serverPart.history h) st := by
  refine Run.invariant (C := fun _ => True) (P := fun h st => Accounted (serverPart.history h) st)
    ⟨rfl, (fun _ _ hm => by cases hm), fun _ _ ha => by cases ha⟩ ?_ hr (fun _ _ => trivial)
  intro h e _ ih hv _
  rw [serverPart.history_snoc]
  rcases network_cases hv with ⟨s, i, reply, m, ha, hm, hans, -, he⟩ | ⟨a, ha, -, hcase⟩
  · have hnone : serverPart.step e = none := by simp [serverPart, serverAction, ha]
    rw [hnone, he, Option.toList_none, List.append_nil]
    exact ih.dequeued hm hans
  · have hsome : serverPart.step e = some (serverStepOf e a) := by simp [serverPart, ha]
    rw [hsome, Option.toList_some]
    rcases hcase with ⟨-, -, he⟩ | ⟨s, i, beyond, x, -, -, -, he⟩
    · rw [he]
      exact ih.deliver (serverStepOf e a)
    · rw [he]
      exact (ih.received s i).deliver (serverStepOf e a)

/-! ### What a message was written for -/

theorem deadBinder_cookie {x : ServerStep} (hv : x.Valid server) {s : SessionId} {msg : Message}
    {source : Source} (hw : ⟨s, msg, source⟩ ∈ x.emitted) (ht : msg.type = .deadBinder) :
    msg.cookie = 0 := by
  have hwr := (step_effect hv).written hw
  generalize x.after = st' at hwr
  generalize x.emitted = ws at hwr
  generalize x.action = a at hwr
  cases hwr with
  | log _ hlog =>
    rw [ht] at hlog
    cases hlog
  | status _ => cases ht
  | transaction d => cases ht
  | reply _ hr _ _ =>
    simp only at ht
    rw [ht] at hr
    rcases hr with hr | hr <;> cases hr
  | deadBinder _ _ => rfl

theorem answersTo_some {msg r : Message} (h : answersTo msg (some r)) :
    (msg.type = .transaction ∨ msg.type = .deadBinder ∧ r.type = .status) ∧
      r.cookie = msg.cookie := by
  unfold answersTo at h
  split at h
  · next ht => exact ⟨.inl ht, (of_decide_eq_true h).2⟩
  · next ht => exact ⟨.inr ⟨ht, (of_decide_eq_true h).1⟩, (of_decide_eq_true h).2⟩
  · cases h

/-! ### Steps -/

section Step

variable {past : List ServerStep} {e : NetworkStep} (hacc : Accounted past e.before)
  (hrun : Run server past e.before.server)
  (hb : ∀ t < e.before.server.numSessions, postedTransactions e.before.server t < 2 ^ 64)
  (hv : e.Valid network)

include hrun hb in
/-- The answer to a Transaction finds the record of this Transaction. -/
theorem answersRecord {s : SessionId} {a : Answer} {r : TransactionRecord}
    (hsent : SentTo past s a.origin) (hc : a.message.cookie = a.origin.message.cookie)
    (ht : a.origin.message.type = .transaction)
    (hp : (e.before.server.sessions s).pendingTransactions.lookup a.message.cookie = some r) :
    AnswersRecord past s a.message.cookie r a := by
  obtain ⟨x, source, hx, hw⟩ := hsent
  obtain ⟨hp1, hvx, hp2⟩ := hrun.split_getElem? hx
  obtain ⟨caller, req, beyond, d, hact, hst, hws, heq⟩ := transaction_delivery hvx hw ht
  obtain ⟨rfl, hmsg, rfl⟩ := Write.mk.inj heq
  have hcookie : a.message.cookie = d.cookie := by rw [hc, hmsg]; rfl
  have hbx := posted_bound_before hvx (posted_bound_path hp2 hb)
  obtain ⟨hbefore, hafter⟩ := delivery_lookup (tracked_of_run hp1 hbx) (owners_of_run hp1) hbx d
  -- the record was put there in the step that wrote the message
  obtain ⟨-, -, j, x', req', hj, hacc', -, hr⟩ := (tracked_of_run hrun hb).pending _ _ r hp
  have hdel := delivery_accepts d x hact hws
  rw [← hcookie] at hdel
  obtain rfl := accepts_index_unique hrun hb hx hj hdel hacc'
  obtain rfl : x = x' := Option.some.inj (hx.symm.trans hj)
  rw [hst, hcookie, hafter] at hr
  cases hr
  exact ⟨rfl, ht, x, hx, hw, hcookie ▸ hbefore, by rw [hst, hcookie, hafter]⟩

include hacc hrun in
theorem acknowledgement_cookie {s : SessionId} {i : ℕ} {a : Answer}
    (ha : (e.before.answers s)[i]? = some a) (ht : a.origin.message.type = .deadBinder) :
    a.message.type = .status ∧ a.message.cookie = 0 := by
  obtain ⟨⟨x, source, hx, hw⟩, hans⟩ := hacc.answers s a (List.mem_of_getElem? ha)
  obtain ⟨hor, hc⟩ := answersTo_some hans
  obtain ⟨-, hvx, -⟩ := hrun.split_getElem? hx
  rcases hor with htr | ⟨-, hstatus⟩
  · rw [ht] at htr
    cases htr
  · exact ⟨hstatus, hc.trans (deadBinder_cookie hvx hw ht)⟩

include hacc hrun hb hv in
/-- A message that is forwarded is the answer to the Transaction of the record. -/
theorem answer_of_forwarded (hsafe : AckSafe e) {w : Write} (hw : w ∈ e.emitted)
    (hs : w.source.isOnReply) : ∃ s k r i beyond a, w.session = r.caller ∧
      (e.before.server.sessions s).pendingTransactions.lookup k = some r ∧
      serverAction e = some (.process s a.message beyond) ∧
      e.action = .answer s i beyond ∧ (e.before.answers s)[i]? = some a ∧
      AnswersRecord past s k r a := by
  rcases network_cases hv with ⟨-, -, -, -, -, -, -, he, -⟩ | ⟨act, hact, hvalid, hcase⟩
  · rw [he] at hw
    cases hw
  obtain ⟨s, msg, r, ⟨beyond, ha⟩, hans, -, hp, -, -, rfl⟩ := forwards_of_mem hvalid hw hs
  have ha : act = .process s msg beyond := ha
  subst ha
  rcases hcase with ⟨-, hreq, -⟩ | ⟨s', i, beyond', a, ha, hi, heq, -⟩
  · simp [isRequest, hans] at hreq
  · cases heq
    refine ⟨s, a.message.cookie, r, i, beyond, a, rfl, hp, hact, ha, hi, ?_⟩
    obtain ⟨hsent, hto⟩ := hacc.answers s a (List.mem_of_getElem? hi)
    obtain ⟨hor, hc⟩ := answersTo_some hto
    rcases hor with ht | ⟨ht, -⟩
    · exact answersRecord hrun hb hsent hc ht hp
    · -- an acknowledgement would have found a record under the cookie 0
      unfold AckSafe at hsafe
      rw [ha] at hsafe
      have hnot := hsafe (by simp [hi, ht])
      have hp : (e.before.server.sessions s).pendingTransactions.lookup a.message.cookie =
        some r := hp
      rw [(acknowledgement_cookie hacc hrun hi ht).2] at hp
      exact absurd (mem_of_lookup hp) hnot

include hv in
theorem answer_onReply {s : SessionId} {i : ℕ} {beyond : List UInt8} {a : Answer}
    (ha : e.action = .answer s i beyond) (hi : (e.before.answers s)[i]? = some a)
    (hstatus : a.message.type = .status) :
    onReply e.before.server s a.message = (e.after.server, e.emitted) := by
  rcases network_cases hv with ⟨s', i', reply, m, ha', -⟩ | ⟨act, hact, hvalid, -⟩
  · rw [ha] at ha'
    cases ha'
  · simp only [serverAction, ha, hi, Option.map_some, Option.some.injEq] at hact
    subst hact
    exact step_answer (show step _ _ = some (e.after.server, e.emitted) from hvalid)
      (by simp [isAnswer, hstatus])

include hacc hrun hb hv in
theorem correlated_of_ackSafe (hsafe : AckSafe e) : Correlated past e := by
  refine ⟨fun s k r hk hne => ?_, fun w hw hs => ?_, fun s i beyond a ha hi ht => ?_⟩
  · rcases network_cases hv with ⟨s', i, reply, m, -, -, -, -, he⟩ | ⟨act, hact, hvalid, -⟩
    · rw [he] at hne
      exact absurd hk hne
    · -- a record that is removed is answered, and the answer forwarded
      have hlt := ((tracked_of_run hrun hb).pending s k r hk).1
      rcases pending_kept (step_effect hvalid) hlt hk with hk' | ⟨msg, b, w, ha, hc, hw, hs⟩
      · exact absurd hk' hne
      · obtain ⟨s', k', r', i, beyond, a, -, hp, hsa, haction, hi, hrec⟩ :=
          answer_of_forwarded hacc hrun hb hv hsafe hw hs
        rw [hact] at hsa
        cases hsa.symm.trans (congrArg some ha)
        have hkk : k' = k := hrec.cookie.symm.trans hc
        subst hkk
        rw [hk] at hp
        cases hp
        exact ⟨i, b, a, haction, hi, hrec⟩
  · obtain ⟨s, k, r, i, beyond, a, hc, hp, -, haction, hi, hrec⟩ :=
      answer_of_forwarded hacc hrun hb hv hsafe hw hs
    exact ⟨s, k, r, i, beyond, a, hc, hp, haction, hi, hrec⟩
  · obtain ⟨hstatus, hzero⟩ := acknowledgement_cookie hacc hrun hi ht
    have hnot : 0 ∉ (e.before.server.sessions s).pendingTransactions := by
      unfold AckSafe at hsafe
      rw [ha] at hsafe
      exact hsafe (by simp [hi, ht])
    have hreply := answer_onReply hv ha hi hstatus
    have hnone : (e.before.server.sessions s).pendingTransactions.lookup a.message.cookie =
        none := by
      rw [hzero, AList.lookup_eq_none]
      exact hnot
    rw [onReply, hnone] at hreply
    exact ⟨(congrArg Prod.fst hreply).symm, (congrArg Prod.snd hreply).symm⟩

include hacc hrun hv in
theorem ackSafe_of_correlated (hcor : Correlated past e) : AckSafe e := by
  unfold AckSafe
  split
  · next s i beyond ha =>
    intro hany hmem
    obtain ⟨a, hi, ht⟩ := (Option.any_eq_true _ _).mp hany
    have ht := of_decide_eq_true ht
    obtain ⟨hstatus, hzero⟩ := acknowledgement_cookie hacc hrun hi ht
    rw [← hzero] at hmem
    obtain ⟨r, hr⟩ := exists_lookup_of_mem hmem
    obtain ⟨hserver, -⟩ := hcor.acknowledged s i beyond a ha hi ht
    have hreply := answer_onReply hv ha hi hstatus
    rw [onReply, hr] at hreply
    -- the record is gone, so the state has changed
    have hafter : removePending e.before.server s a.message.cookie = e.before.server :=
      (congrArg Prod.fst hreply).trans hserver
    rw [← hafter, removePending, ServerState.update_sessions_self, AList.lookup_erase] at hr
    cases hr
  · trivial

end Step

/-! ### Runs -/

/-- **When answers are correlated.** In a run that posts fewer than `2 ^ 64` transactions to each
session, every answer is taken for that to its own transaction if and only if no acknowledgement of
a DeadBinder is processed while a transaction is pending under the cookie `0`. -/
theorem answers_correlated_iff {h : List NetworkStep} {st : NetworkState} (hr : Run network h st)
    (hb : ∀ t < st.server.numSessions, postedTransactions st.server t < 2 ^ 64) :
    (∀ i e, h[i]? = some e → Correlated (serverPart.history (h.take i)) e) ↔
      ∀ e ∈ h, AckSafe e := by
  have hstep : ∀ {i e}, h[i]? = some e →
      (Correlated (serverPart.history (h.take i)) e ↔ AckSafe e) := by
    intro i e hi
    obtain ⟨hp, hv, hp'⟩ := hr.split_getElem? hi
    have hb' := posted_bound_path (serverPart.path ((Path.single hv).append hp')) hb
    have hacc := accounted_of_run hp
    have hrun := serverPart.run hp
    exact ⟨ackSafe_of_correlated hacc hrun hv, correlated_of_ackSafe hacc hrun hb' hv⟩
  constructor
  · intro hcor e he
    obtain ⟨i, hi⟩ := List.getElem?_of_mem he
    exact (hstep hi).mp (hcor i e hi)
  · intro hsafe i e hi
    exact (hstep hi).mpr (hsafe e (List.mem_of_getElem? hi))

/-- The context manager `1` is registered for the death of the object of session `2`. Session `0`
calls it, and session `2` terminates; the client of `1` takes the Transaction and the DeadBinder
from its queue and answers both. -/
def busyManager : List NetworkAction :=
  [.serve .accept, .serve .accept, .serve .accept,
    .serve (.process 1 { type := .setContextMgr } []),
    .serve (.process 2 (transactMessage 99 5 1 (flatBinderObject .binder 0 7 9) [0]) []),
    .serve (.process 1 { type := .acquire, cookie := 1, data := leBytes 8 1 } []),
    .serve (.process 1 (watchMessage 2) []),
    .serve (.process 0 (transactMessage 0 5 1 [] []) []),
    .serve (.terminate 2 [1]),
    .dequeue 1 3 (some { type := .transactionReply }),
    .dequeue 1 3 (some (statusMessage { type := .deadBinder } .ok))]

/-- The server processes the reply and then the acknowledgement. -/
def inOrder : List NetworkAction := busyManager ++ [.answer 1 0 [], .answer 1 0 []]

theorem answers_correlated_iff_inOrder :
    (∃ w ∈ outputs (history network {} inOrder), w.session = 0 ∧ w.source.isOnReply) ∧
    ∀ i e, (history network {} inOrder)[i]? = some e →
      Correlated (serverPart.history ((history network {} inOrder).take i)) e := by
  exact ⟨by decide +kernel, (answers_correlated_iff (path_history network inOrder {})
    (by decide +kernel)).mpr (by decide +kernel)⟩

/-- The server processes the acknowledgement while the transaction is pending. -/
def outOfOrder : List NetworkAction := busyManager ++ [.answer 1 1 []]

/-- The acknowledgement is forwarded to session `0`, which waits for the reply. -/
theorem acknowledgement_forwarded :
    Run network (history network {} outOfOrder) (final network {} outOfOrder) ∧
    (∃ e ∈ history network {} outOfOrder, e.action = .answer 1 1 [] ∧
      ((e.before.answers 1)[1]?.any fun a => a.origin.message.type = .deadBinder) ∧
      0 ∈ (e.before.server.sessions 1).pendingTransactions ∧
      0 ∉ (e.after.server.sessions 1).pendingTransactions ∧
      ∃ w ∈ e.emitted, w.session = 0 ∧ w.source.isOnReply) ∧
    ¬ ∀ i e, (history network {} outOfOrder)[i]? = some e →
      Correlated (serverPart.history ((history network {} outOfOrder).take i)) e := by
  have hack : ∃ e ∈ history network {} outOfOrder, e.action = .answer 1 1 [] ∧
      ((e.before.answers 1)[1]?.any fun a => a.origin.message.type = .deadBinder) ∧
      0 ∈ (e.before.server.sessions 1).pendingTransactions ∧
      0 ∉ (e.after.server.sessions 1).pendingTransactions ∧
      ∃ w ∈ e.emitted, w.session = 0 ∧ w.source.isOnReply := by decide +kernel
  refine ⟨path_history network outOfOrder {}, hack, fun hcor => ?_⟩
  obtain ⟨e, he, ha, hany, -, -, w, hw, -⟩ := hack
  obtain ⟨i, hi⟩ := List.getElem?_of_mem he
  obtain ⟨a, hget, ht⟩ := (Option.any_eq_true _ _).mp hany
  have hnil := ((hcor i e hi).acknowledged 1 1 [] a ha hget (of_decide_eq_true ht)).2
  rw [hnil] at hw
  cases hw

end Binderd.Clients.Correlation
