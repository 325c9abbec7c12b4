import Binderd.Broker.Translation
import Mathlib.Data.List.Forall2

/-! # Delivery of transactions

There are many ways out of `OnTransaction`. On each of them the status that is sent and the message
that is written agree: `Status::OK` goes with one Transaction, written to the owner of the handle,
any other status with none (`delivery_of_step`). The transactions of one session that reach another
one do so in the order in which they were sent (`delivery_in_order`). -/

namespace Binderd.Broker.Delivery

open Binderd.Lib.Bytes Binderd.Lib.Tables Binderd.Lib.Runs
open Binderd.Wire.Streams Binderd.Wire.Messages Binderd.Wire.Transactions
open Binderd.Broker.State Binderd.Broker.Handles Binderd.Broker.Sessions Binderd.Broker.Effects
open Binderd.Broker.Translation

/-- `m` is the Transaction `msg` as it is delivered: for the same handle, with the same code and the
same offsets, and with data of the same size that are the same outside the objects. -/
structure Corresponds (msg m : Message) : Prop where
  type : m.type = .transaction
  destination : m.destination = msg.destination
  code : (decoded m.data).code = (decoded msg.data).code
  size : (decoded m.data).data.size = (decoded msg.data).data.size
  offsets : objectOffsets m.data = objectOffsets msg.data
  bytes : ∀ i < (decoded msg.data).data.size,
    (∀ o ∈ objectOffsets msg.data, i < o ∨ o + 24 ≤ i) →
      m.data.getD (28 + i) 0 = msg.data.getD (28 + i) 0

theorem Corresponds.object_of_changed {msg m : Message} (h : Corresponds msg m) {b : ℕ}
    (hb : b < (decoded msg.data).data.size)
    (hchanged : m.data.getD (28 + b) 0 ≠ msg.data.getD (28 + b) 0) :
    ∃ o ∈ objectOffsets msg.data, o ≤ b ∧ b < o + 24 := by
  by_contra hno
  push Not at hno
  refine hchanged (h.bytes b hb fun o ho => ?_)
  have := hno o ho
  omega

/-- The Transaction messages among the writes. -/
def transactionsOf (ws : List Write) : List Write :=
  ws.filter fun w => decide (w.message.type = .transaction)

/-- The step answers the message of the session `s` with the status. -/
def AnsweredWith (e : ServerStep) (s : SessionId) (msg : Message) (status : Status) : Prop :=
  ⟨s, statusMessage msg status, .sendStatus msg status⟩ ∈ e.emitted

/-! ### The delivered message -/

section Delivered

variable {st : ServerState} {s : SessionId} {msg : Message} {beyond : List UInt8}
  (d : Delivery st s msg beyond) (hin : InsideData msg.data)

include hin in
/-- The offsets are outside the data, and are delivered as they were sent. -/
theorem delivered_offsets : objectOffsets d.message.data = objectOffsets msg.data := by
  have hp := packed_message d
  rw [transaction_eq d hin] at hp
  have hc := complete_iff.mp d.complete
  have hnum : (newTransaction d.obj (decoded msg.data)).numObjectOffsets =
      (decoded msg.data).numObjectOffsets :=
    Nat.mul_div_cancel _ (show 0 < 8 by omega)
  have hnum' : (decoded d.message.data).numObjectOffsets = (decoded msg.data).numObjectOffsets := by
    rw [TransactionData.numObjectOffsets, hp.objects, hnum]
    exact Nat.mul_div_cancel _ (show 0 < 8 by omega)
  have hstart : (decoded msg.data).objects.start = 32 + (decoded msg.data).data.size := rfl
  have hsize : (newTransaction d.obj (decoded msg.data)).data.size =
    (decoded msg.data).data.size := rfl
  have hdiv : (decoded msg.data).numObjectOffsets * 8 ≤ (decoded msg.data).objects.size :=
    Nat.div_mul_le_self _ 8
  -- the bytes of the array, in the message that is sent and in the one that is delivered
  have hbytes := slice_eq_iff.mp hp.offsetBytes
  rw [hnum, hsize] at hbytes
  unfold objectOffsets TransactionData.listedOffsets
  rw [hnum', hp.objects, hsize]
  refine List.map_congr_left fun i hi => ?_
  rw [List.mem_range] at hi
  rw [hstart]
  refine load_congr fun j h1 h2 => ?_
  obtain ⟨k, rfl⟩ : ∃ k, j = 32 + (decoded msg.data).data.size + k :=
    ⟨j - (32 + (decoded msg.data).data.size), by simp only at h1; omega⟩
  have hk : k < (decoded msg.data).numObjectOffsets * 8 := by simp only at h2; omega
  rw [hbytes k hk]
  refine passes_frame d hin (by omega) fun p hpos => ?_
  have := hin.positions p hpos
  omega

include hin in
theorem delivered_corresponds : Corresponds msg d.message := by
  have hp := packed_message d
  rw [transaction_eq d hin] at hp
  have hc := complete_iff.mp d.complete
  have hstart : (decoded msg.data).objects.start = 32 + (decoded msg.data).data.size := rfl
  refine ⟨rfl, rfl, ?_, by rw [hp.data]; rfl, delivered_offsets d hin, fun i hi ho => ?_⟩
  · have hcode : (decoded msg.data).code < 256 := byteOf_lt ..
    rw [hp.code]
    exact Nat.mod_eq_of_lt hcode
  · have hbyte := slice_eq_iff.mp hp.dataBytes i hi
    have hframe := passes_frame d hin (i := 28 + i) (by omega) fun p hpos => by
      obtain ⟨o, hmem, rfl⟩ := List.mem_map.mp hpos
      have := ho o hmem
      omega
    exact hbyte.trans hframe

end Delivered

/-! ### The owner of a handle -/

theorem exports_find {s t : SessionId} {st st' : ServerState} {k : ℕ} (h : Exports s st st')
    (hf : findSessionByHandle st.registry k = some t) :
    findSessionByHandle st'.registry k = some t := by
  induction h with
  | refl => exact hf
  | tail _ he ih =>
    obtain ⟨obj, rfl⟩ := he
    unfold findSessionByHandle at ih ⊢
    split_ifs at ih ⊢ with hk
    · exact ih
    · exact lookup_insertNew_of_some ih

theorem delivered_find {st : ServerState} {s : SessionId} {msg : Message} {beyond : List UInt8}
    (d : Delivery st s msg beyond) :
    findSessionByHandle d.state.registry msg.destination = some d.target := by
  have h := exports_find d.target_exports (k := msg.destination) d.find
  exact h

/-- A delivery goes to the session that had the handle before. -/
theorem delivered_target {st : ServerState} {s t : SessionId} {msg : Message} {beyond : List UInt8}
    (d : Delivery st s msg beyond)
    (hfind : findSessionByHandle st.registry msg.destination = some t) : d.target = t := by
  have hf := exports_find d.caller_exports hfind
  rw [d.find] at hf
  exact Option.some.inj hf

/-! ### The writes of a step -/

theorem transactionsOf_sendStatus (st : ServerState) (s : SessionId) (msg : Message)
    (status : Status) : transactionsOf (sendStatus st s msg status) = [] := by
  refine List.filter_eq_nil_iff.mpr fun w hw => ?_
  rcases mem_writeMessage.mp hw with rfl | hw
  · simp
  · simp [(mem_forwardToMonitor hw).2]

theorem transactionsOf_delivery {st : ServerState} {s : SessionId} {msg : Message}
    {beyond : List UInt8} (d : Delivery st s msg beyond) :
    transactionsOf d.writes = [⟨d.target, d.message, .postTransaction d.record⟩] := by
  have hlog : transactionsOf (forwardToMonitor d.state d.message) = [] :=
    List.filter_eq_nil_iff.mpr fun w hw => by simp [(mem_forwardToMonitor hw).2]
  have hst := transactionsOf_sendStatus d.state s msg .ok
  unfold transactionsOf at hlog hst ⊢
  rw [Delivery.writes, List.filter_append, hst, List.append_nil, writeMessage,
    List.filter_cons_of_pos (by simp [Delivery.message, newMessage]), hlog]

/-- A step that processes a Transaction answers it with one status, `OK` if it is delivered. -/
theorem transaction_cases {e : ServerStep} {s : SessionId} {msg : Message} {beyond : List UInt8}
    (hv : e.Valid server) (ha : e.action = .process s msg beyond) (ht : msg.type = .transaction) :
    (∃ d : Delivery e.before s msg beyond, e.after = d.state ∧ e.emitted = d.writes) ∨
      ∃ status ≠ Status.ok, e.emitted = sendStatus e.after s msg status := by
  have heff := step_effect hv
  rw [ha] at heff
  rcases heff.transaction ht with hd | ⟨status, hne, hws, -⟩
  · exact .inl hd
  · exact .inr ⟨status, hne, hws⟩

theorem mem_sendStatus_iff {st : ServerState} {s : SessionId} {msg : Message}
    {status status' : Status} :
    ⟨s, statusMessage msg status, .sendStatus msg status⟩ ∈ sendStatus st s msg status' ↔
      status = status' := by
  constructor
  · intro h
    rcases mem_writeMessage.mp h with h | h
    · simpa using congrArg Write.source h
    · have := (mem_forwardToMonitor h).1
      cases this
  · rintro rfl
    exact statusMessage_mem ..

theorem delivery_status {st : ServerState} {s : SessionId} {msg : Message} {beyond : List UInt8}
    (d : Delivery st s msg beyond) {status : Status} :
    ⟨s, statusMessage msg status, .sendStatus msg status⟩ ∈ d.writes ↔ status = .ok := by
  rw [Delivery.writes, List.mem_append, mem_sendStatus_iff]
  refine or_iff_right fun h => ?_
  rcases mem_writeMessage.mp h with h | h
  · have := congrArg Write.source h
    cases this
  · have := (mem_forwardToMonitor h).1
    cases this

theorem delivery_of_answered {e : ServerStep} {s : SessionId} {msg : Message}
    {beyond : List UInt8} (hv : e.Valid server) (ha : e.action = .process s msg beyond)
    (ht : msg.type = .transaction) (hok : AnsweredWith e s msg .ok) :
    ∃ d : Delivery e.before s msg beyond, e.after = d.state ∧ e.emitted = d.writes := by
  rcases transaction_cases hv ha ht with hd | ⟨status, hne, hws⟩
  · exact hd
  · unfold AnsweredWith at hok
    rw [hws, mem_sendStatus_iff] at hok
    exact absurd hok.symm hne

theorem delivery_of_step {e : ServerStep} {s : SessionId} {msg : Message} {beyond : List UInt8}
    (hv : e.Valid server) (ha : e.action = .process s msg beyond) (ht : msg.type = .transaction)
    (hin : ListsInside e) :
    (AnsweredWith e s msg .ok ↔
      ∃ w, transactionsOf e.emitted = [w] ∧ Corresponds msg w.message ∧
        findSessionByHandle e.after.registry msg.destination = some w.session) ∧
    ∀ status, status ≠ .ok → AnsweredWith e s msg status → transactionsOf e.emitted = [] := by
  unfold ListsInside ListsObjects at hin
  rw [ha] at hin
  unfold AnsweredWith
  rcases transaction_cases hv ha ht with ⟨d, hst, hws⟩ | ⟨status', hne, hws⟩
  · have hcorr := delivered_corresponds d (hin ht d.complete)
    rw [hst, hws, transactionsOf_delivery d]
    refine ⟨iff_of_true ((delivery_status d).mpr rfl) ⟨_, rfl, hcorr, delivered_find d⟩,
      fun status hs hmem => ?_⟩
    exact absurd ((delivery_status d).mp hmem) hs
  · rw [hws, transactionsOf_sendStatus]
    refine ⟨iff_of_false (fun hmem => hne (mem_sendStatus_iff.mp hmem).symm) ?_, fun _ _ _ => rfl⟩
    rintro ⟨w, hw, -⟩
    cases hw

/-! ### The order of delivery -/

/-- The Transaction of the session `s` that the step processes. -/
def sentIn (s : SessionId) (e : ServerStep) : List Message :=
  match e.action with
  | .process s' msg _ => if s' = s ∧ msg.type = .transaction then [msg] else []
  | _ => []

/-- The Transactions written to `t` while the step processes a message of `s`. -/
def writtenIn (s t : SessionId) (e : ServerStep) : List Write :=
  match e.action with
  | .process s' _ _ =>
    if s' = s then (transactionsOf e.emitted).filter fun w => decide (w.session = t) else []
  | _ => []

/-- The Transactions `s` sent, in order. -/
def sentTransactions (s : SessionId) (h : List ServerStep) : List Message := h.flatMap (sentIn s)

/-- The Transactions of `s` that were written to `t`, in order. -/
def writtenTransactions (s t : SessionId) (h : List ServerStep) : List Write :=
  h.flatMap (writtenIn s t)

theorem delivery_in_order_step (s t : SessionId) {e : ServerStep} (hv : e.Valid server)
    (hin : ListsInside e) :
    ∃ l, l.Sublist (sentIn s e) ∧
      List.Forall₂ (fun msg w => Corresponds msg w.message) l (writtenIn s t e) := by
  unfold sentIn writtenIn
  cases ha : e.action with
  | accept => exact ⟨[], .slnil, .nil⟩
  | terminate u order => exact ⟨[], .slnil, .nil⟩
  | process u msg beyond =>
    simp only
    by_cases hu : u = s
    · by_cases ht : msg.type = .transaction
      · rw [if_pos ⟨hu, ht⟩, if_pos hu]
        rcases transaction_cases hv ha ht with ⟨d, hst, hws⟩ | ⟨status, hne, hws⟩
        · unfold ListsInside ListsObjects at hin
          rw [ha] at hin
          rw [hws, transactionsOf_delivery d]
          by_cases hd : d.target = t
          · rw [List.filter_cons_of_pos (by simpa using hd), List.filter_nil]
            exact ⟨[msg], .refl _,
              .cons (delivered_corresponds d (hin ht d.complete)) .nil⟩
          · rw [List.filter_cons_of_neg (by simpa using hd), List.filter_nil]
            exact ⟨[], List.nil_sublist _, .nil⟩
        · rw [hws, transactionsOf_sendStatus]
          exact ⟨[], List.nil_sublist _, .nil⟩
      · -- only a Transaction is written as one
        have hnone : transactionsOf e.emitted = [] := by
          refine List.filter_eq_nil_iff.mpr fun w hw hw' => ht ?_
          have hwr := (step_effect hv).written hw
          rw [ha] at hwr
          generalize e.after = st' at hwr
          generalize e.emitted = ws at hwr
          rw [decide_eq_true_eq] at hw'
          cases hwr with
          | log _ hlog => rw [hlog] at hw'; cases hw'
          | status _ => cases hw'
          | transaction d => exact d.type
          | reply _ hr _ _ =>
            simp only at hw'
            exact hw'
        rw [if_neg fun hc => ht hc.2, if_pos hu, hnone]
        exact ⟨[], .slnil, .nil⟩
    · rw [if_neg fun hc => hu hc.1, if_neg hu]
      exact ⟨[], .slnil, .nil⟩

theorem delivery_in_order (s t : SessionId) : ∀ (h : List ServerStep),
    (∀ e ∈ h, e.Valid server) → (∀ e ∈ h, ListsInside e) →
    ∃ l, l.Sublist (sentTransactions s h) ∧
      List.Forall₂ (fun msg w => Corresponds msg w.message) l (writtenTransactions s t h)
  | [], _, _ => ⟨[], .slnil, .nil⟩
  | e :: h, hv, hin => by
    obtain ⟨l, hsub, hrel⟩ := delivery_in_order_step s t (hv e (by simp)) (hin e (by simp))
    obtain ⟨l', hsub', hrel'⟩ := delivery_in_order s t h (fun x hx => hv x (by simp [hx]))
      (fun x hx => hin x (by simp [hx]))
    exact ⟨l ++ l', hsub.append hsub', List.rel_append hrel hrel'⟩

/-- **Delivery of transactions.** In every run in which the objects of each Transaction lie inside
its data: a Transaction is answered with `OK` if and only if one Transaction was written in the
same step, which corresponds to it and goes to the owner of its handle; none is written if it is
answered with another status; and the Transactions of one session that were written to another one
correspond, in order, to ones that it sent. -/
theorem transactions_delivered {h : List ServerStep} {st : ServerState} (hr : Run server h st)
    (hin : ∀ e ∈ h, ListsInside e) :
    (∀ e ∈ h, ∀ s msg beyond, e.action = .process s msg beyond → msg.type = .transaction →
      (AnsweredWith e s msg .ok ↔
        ∃ w, transactionsOf e.emitted = [w] ∧ Corresponds msg w.message ∧
          findSessionByHandle e.after.registry msg.destination = some w.session) ∧
      ∀ status, status ≠ .ok → AnsweredWith e s msg status → transactionsOf e.emitted = []) ∧
    ∀ s t, ∃ l, l.Sublist (sentTransactions s h) ∧
      List.Forall₂ (fun msg w => Corresponds msg w.message) l (writtenTransactions s t h) := by
  have hv : ∀ e ∈ h, e.Valid server := fun e he => hr.valid he
  exact ⟨fun e he s msg beyond ha ht => delivery_of_step (hv e he) ha ht (hin e he),
    fun s t => delivery_in_order s t h hv hin⟩

/-- Session `0` sends two transactions to the context manager `1`, one of them with an object. -/
def deliveryScenario : List Action :=
  [.accept, .accept, .process 1 { type := .setContextMgr } [],
    .process 0 (transactMessage 0 5 1 (flatBinderObject .binder 0 7 9) [0]) [],
    .process 0 (transactMessage 0 6 2 [1, 2, 3] []) []]

theorem transactions_delivered_deliveryScenario :
    (∀ e ∈ history server {} deliveryScenario, ListsInside e) ∧
      (writtenTransactions 0 1 (history server {} deliveryScenario)).length = 2 ∧
      ∃ l, l.Sublist (sentTransactions 0 (history server {} deliveryScenario)) ∧
        List.Forall₂ (fun msg w => Corresponds msg w.message) l
          (writtenTransactions 0 1 (history server {} deliveryScenario)) := by
  have hin : ∀ e ∈ history server {} deliveryScenario, ListsInside e := by decide +kernel
  exact ⟨hin, by decide +kernel,
    (transactions_delivered (path_history server deliveryScenario {}) hin).2 0 1⟩

end Binderd.Broker.Delivery
