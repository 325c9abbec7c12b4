import Binderd.Broker.Delivery

/-! # What arrives of a call

`PostTransaction` does not forward the message it was given: it decodes it, sets the fields of a new
transaction one by one and packs that. Without objects the code, the data and the destination
arrive as they were sent, but `SetIsOneWay` is not called, and so no call that arrives is one-way
(`call_of_delivery`). -/

namespace Binderd.Broker.Forwarding

open Binderd.Lib.Bytes Binderd.Lib.Runs
open Binderd.Wire.Streams Binderd.Wire.Messages Binderd.Wire.Transactions
open Binderd.Broker.State Binderd.Broker.Sessions Binderd.Broker.Effects
open Binderd.Broker.Translation Binderd.Broker.Delivery

/-- What a Transaction message asks for. -/
structure Call where
  destination : ℕ
  code : ℕ
  data : List UInt8
  isOneWay : Bool
deriving DecidableEq

/-- The call as `TransactionDataFromMessage` decodes it. -/
def callOf (msg : Message) : Except Exn Call := do
  let tr ← fromMessage msg.data
  return ⟨msg.destination, tr.code, tr.data.bytes msg.data, tr.isOneWay⟩

/-- The transaction lists no objects. -/
def ListsNone (msg : Message) : Prop := (decoded msg.data).numObjectOffsets = 0

instance (msg : Message) : Decidable (ListsNone msg) := Nat.decEq _ _

theorem callOf_of_complete {msg : Message} (h : Complete msg.data) :
    callOf msg = .ok ⟨msg.destination, (decoded msg.data).code,
      (decoded msg.data).data.bytes msg.data, (decoded msg.data).isOneWay⟩ := by
  simp only [callOf, fromMessage_of_complete h, bind, Except.bind, pure, Except.pure]

theorem bytes_eq_of_getD {v : View} {l l' : List UInt8} (h : v.start + v.size ≤ l.length)
    (h' : v.start + v.size ≤ l'.length)
    (hb : ∀ i < v.size, l.getD (v.start + i) 0 = l'.getD (v.start + i) 0) :
    v.bytes l = v.bytes l' := by
  unfold View.bytes
  refine List.ext_getElem (by simp; omega) fun i hi hi' => ?_
  rw [List.length_take] at hi
  have hbi := hb i (by omega)
  rw [List.getD_eq_getElem _ _ (by omega), List.getD_eq_getElem _ _ (by omega)] at hbi
  simpa using hbi

/-- **The call that is delivered**: that of the caller, but never one-way. -/
theorem call_of_delivery {st : ServerState} {s : SessionId} {msg : Message} {beyond : List UInt8}
    (d : Delivery st s msg beyond) (hnone : ListsNone msg) :
    callOf d.message = .ok ⟨msg.destination, (decoded msg.data).code,
      (decoded msg.data).data.bytes msg.data, false⟩ := by
  have hoffsets : objectOffsets msg.data = [] := by
    unfold ListsNone at hnone
    unfold objectOffsets TransactionData.listedOffsets
    rw [hnone]
    rfl
  have hin : InsideData msg.data := by
    intro o ho
    rw [hoffsets] at ho
    cases ho
  have hp := packed_message d
  have hcorr := delivered_corresponds d hin
  have hdata : d.message.data = packTransaction d.transaction d.m₂ ++
      BinaryWriter.padding {} (packTransaction d.transaction d.m₂).length := rfl
  have hflag : (decoded d.message.data).isOneWay = false := by
    rw [hdata, (decoded_flags_packTransaction ..).1]
    rfl
  have hview : (decoded d.message.data).data = (decoded msg.data).data := by
    rw [hp.data, transaction_eq d hin]
    rfl
  have hstart : ∀ l, (decoded l).objects.start = 32 + (decoded l).data.size := fun _ => rfl
  have hbytes : (decoded msg.data).data.bytes d.message.data =
      (decoded msg.data).data.bytes msg.data := by
    have hc := complete_iff.mp d.complete
    have hc' := complete_iff.mp hp.complete
    rw [hstart] at hc hc'
    rw [hview] at hc'
    have hle : 28 + (decoded msg.data).data.size ≤ msg.data.length := by omega
    have hle' : 28 + (decoded msg.data).data.size ≤ d.message.data.length := by omega
    have hbyte : ∀ i < (decoded msg.data).data.size,
        d.message.data.getD (28 + i) 0 = msg.data.getD (28 + i) 0 := by
      intro i hi
      refine hcorr.bytes i hi fun o ho => ?_
      rw [hoffsets] at ho
      cases ho
    exact bytes_eq_of_getD hle' hle hbyte
  rw [callOf_of_complete hp.complete, hcorr.destination, hcorr.code, hview, hbytes, hflag]

/-- **A call without objects is forwarded as it was sent if and only if it is not one-way**, in
every run. -/
theorem call_preserved_iff {h : List ServerStep} {st : ServerState} (hr : Run server h st)
    {e : ServerStep} (he : e ∈ h) {s : SessionId} {msg : Message} {beyond : List UInt8}
    (ha : e.action = .process s msg beyond) (ht : msg.type = .transaction)
    (hok : AnsweredWith e s msg .ok) (hnone : ListsNone msg) :
    ∃ w, transactionsOf e.emitted = [w] ∧
      (callOf w.message = callOf msg ↔ (decoded msg.data).isOneWay = false) := by
  obtain ⟨d, -, hws⟩ := delivery_of_answered (hr.valid he) ha ht hok
  refine ⟨⟨d.target, d.message, .postTransaction d.record⟩, ?_, ?_⟩
  · rw [hws, transactionsOf_delivery d]
  rw [call_of_delivery d hnone, callOf_of_complete d.complete]
  simp only [Except.ok.injEq, Call.mk.injEq, true_and]
  exact eq_comm

/-- The request for a transaction without objects. -/
def callMessage (destination cookie code : ℕ) (data : List UInt8) (isOneWay : Bool) : Message :=
  let tr : TransactionData :=
    { code := code, isOneWay := isOneWay, data := ⟨0, data.length⟩, objects := ⟨0, 0⟩ }
  let writer : BinaryWriter := {}
  let writer := writer.writeData (packTransaction tr (ofList data))
  { type := .transaction, destination := destination, cookie := cookie, data := writer.bytes }

/-- Session `0` calls the context manager `1`. -/
def callScenario (isOneWay : Bool) : List Action :=
  [.accept, .accept, .process 1 { type := .setContextMgr } [],
    .process 0 (callMessage 0 5 3 [1, 2, 3] isOneWay) []]

theorem call_preserved_iff_twoWay :
    ∃ e w, (history server {} (callScenario false))[3]? = some e ∧
      transactionsOf e.emitted = [w] ∧
      callOf w.message = callOf (callMessage 0 5 3 [1, 2, 3] false) := by
  set msg := callMessage 0 5 3 [1, 2, 3] false with hmsg
  have h3 : ((history server {} (callScenario false))[3]?.any fun e =>
      decide (e.action = .process 0 msg [] ∧
        ⟨0, statusMessage msg .ok, .sendStatus msg .ok⟩ ∈ e.emitted)) = true := by
    rw [hmsg]
    decide +kernel
  obtain ⟨e, he, hcond⟩ := (Option.any_eq_true _ _).mp h3
  obtain ⟨ha, hok⟩ := of_decide_eq_true hcond
  obtain ⟨w, hw, hiff⟩ := call_preserved_iff (path_history server (callScenario false) {})
    (List.mem_of_getElem? he) ha rfl hok (by rw [hmsg]; decide +kernel)
  exact ⟨e, w, he, hw, hiff.mpr (by rw [hmsg]; decide +kernel)⟩

/-- A one-way call to the context manager is answered with `OK`, and arrives as a call that is not
one-way. -/
theorem oneWay_call_changed :
    Run server (history server {} (callScenario true)) (final server {} (callScenario true)) ∧
      ∃ e w, (history server {} (callScenario true))[3]? = some e ∧
        e.action = .process 0 (callMessage 0 5 3 [1, 2, 3] true) [] ∧
        AnsweredWith e 0 (callMessage 0 5 3 [1, 2, 3] true) .ok ∧
        ListsNone (callMessage 0 5 3 [1, 2, 3] true) ∧
        transactionsOf e.emitted = [w] ∧
        callOf (callMessage 0 5 3 [1, 2, 3] true) = .ok ⟨0, 3, [1, 2, 3], true⟩ ∧
        callOf w.message = .ok ⟨0, 3, [1, 2, 3], false⟩ := by
  refine ⟨path_history server (callScenario true) {}, ?_⟩
  have h3 : ((history server {} (callScenario true))[3]?.any fun e =>
      decide (e.action = .process 0 (callMessage 0 5 3 [1, 2, 3] true) [] ∧
        ⟨0, statusMessage (callMessage 0 5 3 [1, 2, 3] true) .ok,
          .sendStatus (callMessage 0 5 3 [1, 2, 3] true) .ok⟩ ∈ e.emitted) &&
      decide ((transactionsOf e.emitted).length = 1) &&
      (transactionsOf e.emitted).all fun w =>
        decide (callOf w.message = .ok ⟨0, 3, [1, 2, 3], false⟩)) = true := by
    decide +kernel
  obtain ⟨e, he, hcond⟩ := (Option.any_eq_true _ _).mp h3
  simp only [Bool.and_eq_true, decide_eq_true_eq] at hcond
  obtain ⟨⟨⟨ha, hok⟩, hlen⟩, hcall⟩ := hcond
  obtain ⟨w, hw⟩ := List.length_eq_one_iff.mp hlen
  rw [hw] at hcall
  exact ⟨e, w, he, ha, hok, by decide +kernel, hw, by decide +kernel,
    by simpa using hcall⟩

end Binderd.Broker.Forwarding
