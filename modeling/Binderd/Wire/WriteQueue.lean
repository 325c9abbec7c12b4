import Binderd.Wire.Framing

/-! # The write queue of a messenger

`SocketMessenger` queues the buffers given to `WriteData` and hands the frame of the buffer at the
front to `async_write`. The buffer stays in the queue until `OnMessageSent` is called, which hands
over the next one. So the next write is started in one of two places: by `WriteData` if the queue
was empty, by `OnMessageSent` if it has not become empty.

Here an `async_write` is an entry of a list, of which nothing is assumed: there may be several, and
they complete in any order.

* `InOrder`: while no write fails and nobody calls `Close`, there is one outstanding `async_write`
  for a queue that is not empty and none for an empty one, and the frames are handed over in the
  order of the calls;
* `messenger_stops`: the first failure or `Close` ends this for good;
* `socket_closed_iff`: the socket is shut down by a write that completes after `Close`, if there is
  one;
* `writePart`: the writing end of a channel is such a messenger. -/

namespace Binderd.Wire.WriteQueue

open Binderd.Lib.Runs Binderd.Wire.Framing

/-- What `SocketMessenger` keeps. -/
structure SocketMessenger where
  writeQueue : List (List UInt8) := []
  exit : Bool := false
  socketOpen : Bool := true
  /-- The frames handed to `async_write` whose handler has not been called yet. -/
  outstanding : List (List UInt8) := []
deriving DecidableEq

namespace SocketMessenger

/-- `SocketMessenger::Close`. -/
def close (m : SocketMessenger) : SocketMessenger := { m with exit := true }

/-- `WriteNext`, with what it hands to `async_write`. It is not called with an empty queue. -/
def writeNext (m : SocketMessenger) : SocketMessenger × List (List UInt8) :=
  if m.exit then (m, [])
  else
    match m.writeQueue with
    | [] => (m, [])
    | item :: _ =>
      ({ m with outstanding := m.outstanding ++ [wholeMessage item] }, [wholeMessage item])

/-- `SocketMessenger::WriteData`. -/
def writeData (m : SocketMessenger) (data : List UInt8) : SocketMessenger × List (List UInt8) :=
  let m := { m with writeQueue := m.writeQueue ++ [data] }
  if 1 < m.writeQueue.length then (m, []) else m.writeNext

/-- `OnMessageSent`; the errors differ in what is logged. -/
def onMessageSent (m : SocketMessenger) (err : Bool) : SocketMessenger × List (List UInt8) :=
  if err then (m, [])
  else
    let m := { m with writeQueue := m.writeQueue.tail }
    let (m, frames) := if 0 < m.writeQueue.length then m.writeNext else (m, [])
    if m.exit then ({ m with socketOpen := false }, frames) else (m, frames)

end SocketMessenger

/-- What can happen to the messenger. -/
inductive Action where
  | writeData (data : List UInt8)
  /-- The `i`-th of the outstanding writes completes, with an error or without. -/
  | messageSent (i : ℕ) (err : Bool)
  | close
deriving DecidableEq

/-- One step of the messenger. -/
def step (m : SocketMessenger) : Action → Option (SocketMessenger × List (List UInt8))
  | .writeData data => some (m.writeData data)
  | .messageSent i err =>
    if i < m.outstanding.length then
      some ({ m with outstanding := m.outstanding.eraseIdx i }.onMessageSent err)
    else none
  | .close => some (m.close, [])

/-- **The messenger.** It emits the frames that are handed to `async_write`. -/
def messenger : Machine SocketMessenger Action (List UInt8) := ⟨{}, step⟩

/-- The steps of the messenger, as its histories record them. -/
abbrev MessengerTransition := Transition SocketMessenger Action (List UInt8)

/-- The buffer an action passes to `WriteData`. -/
def Action.data : Action → List (List UInt8)
  | .writeData data => [data]
  | _ => []

/-- The buffers passed to `WriteData`, in order. -/
def given (h : List MessengerTransition) : List (List UInt8) := h.flatMap (·.action.data)

/-- A call of `WriteData`, or a write that completes without an error. -/
def Action.isWriting : Action → Bool
  | .writeData _ => true
  | .messageSent _ err => !err
  | .close => false

/-! ### What a step does -/

variable {m : SocketMessenger}

theorem writeData_of_nil (he : m.exit = false) (hq : m.writeQueue = []) (data : List UInt8) :
    m.writeData data =
      ({ m with
        writeQueue := [data]
        outstanding := m.outstanding ++ [wholeMessage data] }, [wholeMessage data]) := by
  simp [SocketMessenger.writeData, SocketMessenger.writeNext, he, hq]

theorem writeData_of_ne_nil (hq : m.writeQueue ≠ []) (data : List UInt8) :
    m.writeData data = ({ m with writeQueue := m.writeQueue ++ [data] }, []) := by
  have hpos : 0 < m.writeQueue.length := List.length_pos_iff.mpr hq
  unfold SocketMessenger.writeData
  simp only [List.length_append, List.length_singleton]
  rw [if_pos (by omega)]

theorem onMessageSent_of_singleton (he : m.exit = false) {item : List UInt8}
    (hq : m.writeQueue = [item]) :
    m.onMessageSent false = ({ m with writeQueue := [] }, []) := by
  simp [SocketMessenger.onMessageSent, he, hq]

theorem onMessageSent_of_cons_cons (he : m.exit = false) {item next : List UInt8}
    {rest : List (List UInt8)} (hq : m.writeQueue = item :: next :: rest) :
    m.onMessageSent false =
      ({ m with
        writeQueue := next :: rest
        outstanding := m.outstanding ++ [wholeMessage next] }, [wholeMessage next]) := by
  simp [SocketMessenger.onMessageSent, SocketMessenger.writeNext, he, hq]

/-! ### Runs -/

/-- One write is outstanding for a queue that is not empty, none for an empty one; and what was
handed over are the frames of the buffers that have left the queue and of the one at its front. -/
structure InOrder (h : List MessengerTransition) (m : SocketMessenger) : Prop where
  exit : m.exit = false
  outstanding : m.outstanding = (m.writeQueue.take 1).map wholeMessage
  order : ∃ sent, given h = sent ++ m.writeQueue ∧
    outputs h = (sent ++ m.writeQueue.take 1).map wholeMessage

theorem given_snoc (h : List MessengerTransition) (e : MessengerTransition) :
    given (h ++ [e]) = given h ++ e.action.data := by
  simp [given]

theorem InOrder.writeData {h : List MessengerTransition} (hi : InOrder h m) (data : List UInt8) :
    InOrder (h ++ [⟨m, .writeData data, (m.writeData data).2, (m.writeData data).1⟩])
      (m.writeData data).1 := by
  obtain ⟨he, ho, sent, hgiven, hout⟩ := hi
  rcases hq : m.writeQueue with _ | ⟨item, rest⟩
  · -- the queue was empty, and the write is started here
    rw [hq] at ho hgiven hout
    rw [writeData_of_nil he hq]
    refine ⟨he, ?_, sent, ?_, ?_⟩
    · simp [ho]
    · simp [given_snoc, hgiven, Action.data]
    · simp [outputs_snoc, hout]
  · -- it is left to `OnMessageSent`
    have hne : m.writeQueue ≠ [] := by simp [hq]
    rw [hq] at ho hgiven hout
    rw [writeData_of_ne_nil hne]
    refine ⟨he, ?_, sent, ?_, ?_⟩
    · simp [ho, hq]
    · simp [given_snoc, hgiven, hq, Action.data]
    · simp [outputs_snoc, hout, hq]

theorem InOrder.messageSent {h : List MessengerTransition} (hi : InOrder h m) {i : ℕ}
    (hlt : i < m.outstanding.length) {r : SocketMessenger × List (List UInt8)}
    (hr : r = { m with outstanding := m.outstanding.eraseIdx i }.onMessageSent false) :
    InOrder (h ++ [⟨m, .messageSent i false, r.2, r.1⟩]) r.1 := by
  obtain ⟨he, ho, sent, hgiven, hout⟩ := hi
  rcases hq : m.writeQueue with _ | ⟨item, rest⟩
  · -- nothing is outstanding
    rw [ho, hq] at hlt
    exact absurd hlt (Nat.not_lt_zero i)
  rw [hq] at ho hgiven hout
  -- the write that completes is the only one
  have hnone : m.outstanding.eraseIdx i = [] := by
    have hi0 : i = 0 := by
      rw [ho] at hlt
      simpa using hlt
    rw [ho, hi0]
    rfl
  rw [hnone] at hr
  rcases rest with _ | ⟨next, rest⟩
  · have hstep := onMessageSent_of_singleton (m := { m with outstanding := [] }) he hq
    rw [hstep] at hr
    subst hr
    refine ⟨he, rfl, sent ++ [item], ?_, ?_⟩
    · simp [given_snoc, hgiven, Action.data]
    · simp [outputs_snoc, hout]
  · have hstep := onMessageSent_of_cons_cons (m := { m with outstanding := [] }) he hq
    rw [hstep] at hr
    subst hr
    refine ⟨he, rfl, sent ++ [item], ?_, ?_⟩
    · simp [given_snoc, hgiven, Action.data]
    · simp [outputs_snoc, hout]

theorem InOrder.step {h : List MessengerTransition} {e : MessengerTransition}
    (hi : InOrder h e.before) (hv : e.Valid messenger) (hw : e.action.isWriting = true) :
    InOrder (h ++ [e]) e.after := by
  obtain ⟨m, a, out, m'⟩ := e
  simp only [Transition.Valid, messenger] at hv hi hw ⊢
  cases a with
  | writeData data =>
    simp only [WriteQueue.step, Option.some.injEq] at hv
    have hkeep := hi.writeData data
    rwa [hv] at hkeep
  | messageSent i err =>
    have herr : err = false := by simpa [Action.isWriting] using hw
    subst herr
    simp only [WriteQueue.step] at hv
    split_ifs at hv with hlt
    exact hi.messageSent (r := (m', out)) hlt (Option.some.inj hv).symm
  | close => cases hw

theorem inOrder_of_run {h : List MessengerTransition} (hr : Run messenger h m)
    (hw : ∀ e ∈ h, e.action.isWriting = true) : InOrder h m :=
  Run.invariant (C := fun e => e.action.isWriting = true) ⟨rfl, rfl, [], rfl, rfl⟩
    (fun _ _ _ hi hv hC => hi.step hv hC) hr hw

/-- **Nothing is lost, duplicated or reordered.** As long as no write fails and nobody calls
`Close`, in whichever order buffers are given and writes complete: either the queue is empty, no
write is outstanding and the frames of all buffers have been handed over, or the frame of the buffer
at its front is the only one that is outstanding. -/
theorem writeQueue_inOrder {h : List MessengerTransition} (hr : Run messenger h m)
    (hw : ∀ e ∈ h, e.action.isWriting = true) :
    (m.writeQueue ≠ [] ↔ ∃ item rest, m.writeQueue = item :: rest ∧
      m.outstanding = [wholeMessage item]) ∧
    (m.writeQueue = [] ↔ m.outstanding = []) ∧ m.outstanding.length ≤ 1 ∧
    outputs h <+: (given h).map wholeMessage ∧
    (m.writeQueue = [] → outputs h = (given h).map wholeMessage) := by
  obtain ⟨-, ho, sent, hgiven, hout⟩ := inOrder_of_run hr hw
  rcases hq : m.writeQueue with _ | ⟨item, rest⟩
  · rw [hq] at ho hgiven hout
    have hall : outputs h = (given h).map wholeMessage := by
      rw [hout, hgiven]
      rfl
    refine ⟨by simp, by simp [ho], by simp [ho], ?_, fun _ => hall⟩
    rw [hall]
  · rw [hq] at ho hgiven hout
    have hfront : m.outstanding = [wholeMessage item] := ho
    refine ⟨⟨fun _ => ⟨item, rest, rfl, hfront⟩, by simp⟩, by simp [hfront], by simp [hfront],
      ?_, by simp⟩
    refine ⟨rest.map wholeMessage, ?_⟩
    rw [hout, hgiven]
    simp

/-- Two buffers, the second given while the first is being written, and a third after them. -/
def threeWrites : List Action :=
  [.writeData [1], .writeData [2], .messageSent 0 false, .messageSent 0 false, .writeData [3]]

theorem writeQueue_inOrder_threeWrites :
    let h := history messenger {} threeWrites
    let m := final messenger {} threeWrites
    (m.writeQueue ≠ [] ↔ ∃ item rest, m.writeQueue = item :: rest ∧
      m.outstanding = [wholeMessage item]) ∧
    (m.writeQueue = [] ↔ m.outstanding = []) ∧ m.outstanding.length ≤ 1 ∧
    outputs h <+: (given h).map wholeMessage ∧
    (m.writeQueue = [] → outputs h = (given h).map wholeMessage) :=
  writeQueue_inOrder (path_history messenger threeWrites {}) (by decide)

/-! ### After `Close`, and after a write that failed -/

/-- Nothing is handed over any more: `exit_` is set, or the write of the buffer at the front has
failed, which leaves the buffer there. -/
def Stopped (m : SocketMessenger) : Prop :=
  m.exit = true ∨ m.outstanding = [] ∧ m.writeQueue ≠ []

theorem Stopped.step {m m' : SocketMessenger} (hs : Stopped m) {a : Action}
    {out : List (List UInt8)} (h : step m a = some (m', out)) : Stopped m' ∧ out = [] := by
  cases a with
  | close =>
    cases h
    exact ⟨.inl rfl, rfl⟩
  | writeData data =>
    simp only [WriteQueue.step, Option.some.injEq, SocketMessenger.writeData] at h
    rcases hs with he | ⟨ho, hq⟩
    · simp only [SocketMessenger.writeNext, if_pos he, ite_self] at h
      cases h
      exact ⟨.inl he, rfl⟩
    · -- the buffer that was not written stays in front of the new one
      have hlen := List.length_pos_iff.mpr hq
      simp only [List.length_append, List.length_singleton] at h
      rw [if_pos (by omega)] at h
      cases h
      exact ⟨.inr ⟨ho, by simp⟩, rfl⟩
  | messageSent i err =>
    simp only [WriteQueue.step, Option.ite_none_right_eq_some, Option.some.injEq] at h
    obtain ⟨hi, h⟩ := h
    rcases hs with he | ⟨ho, -⟩
    · unfold SocketMessenger.onMessageSent SocketMessenger.writeNext at h
      cases err with
      | true =>
        cases h
        exact ⟨.inl he, rfl⟩
      | false =>
        simp only [he, if_true, Bool.false_eq_true, if_false, ite_self] at h
        cases h
        exact ⟨.inl rfl, rfl⟩
    · rw [ho] at hi
      exact absurd hi (Nat.not_lt_zero i)

/-- `Close`, or a write that fails, stops a messenger that is at work. -/
theorem InOrder.stopped {h : List MessengerTransition} {e : MessengerTransition}
    (hi : InOrder h e.before) (hv : e.Valid messenger) (hw : e.action.isWriting = false) :
    Stopped e.after ∧ e.emitted = [] := by
  obtain ⟨m, a, out, m'⟩ := e
  simp only [Transition.Valid, messenger] at hv hi hw ⊢
  cases a with
  | writeData data => cases hw
  | close =>
    cases hv
    exact ⟨.inl rfl, rfl⟩
  | messageSent i err =>
    obtain rfl : err = true := by simpa [Action.isWriting] using hw
    simp only [WriteQueue.step, Option.ite_none_right_eq_some, Option.some.injEq] at hv
    obtain ⟨hlt, hv⟩ := hv
    cases hv
    have ho := hi.outstanding
    rcases hq : m.writeQueue with _ | ⟨item, rest⟩
    · rw [ho, hq] at hlt
      exact absurd hlt (Nat.not_lt_zero i)
    · rw [hq] at ho
      rw [ho] at hlt
      have hi0 : i = 0 := by simpa using hlt
      exact ⟨.inr ⟨by simp [ho, hi0], by simp⟩, rfl⟩

/-- The messenger after any run: at work, or stopped. -/
structure Handed (h : List MessengerTransition) (m : SocketMessenger) : Prop where
  order : outputs h <+: (given h).map wholeMessage
  working : (∀ e ∈ h, e.action.isWriting = true) → InOrder h m
  stopped : (∃ e ∈ h, e.action.isWriting = false) → Stopped m

theorem InOrder.beginning {h : List MessengerTransition} (hi : InOrder h m) :
    outputs h <+: (given h).map wholeMessage := by
  obtain ⟨-, -, sent, hgiven, hout⟩ := hi
  rw [hgiven, hout, List.map_append, List.map_append]
  exact List.prefix_append_right_inj _ |>.mpr ((List.take_prefix 1 _).map _)

theorem Handed.step {h : List MessengerTransition} {e : MessengerTransition}
    (hh : Handed h e.before) (hv : e.Valid messenger) : Handed (h ++ [e]) e.after := by
  by_cases hall : ∀ x ∈ h, x.action.isWriting = true
  · have hi := hh.working hall
    cases hw : e.action.isWriting with
    | true =>
      have hi' := hi.step hv hw
      refine ⟨hi'.beginning, fun _ => hi', fun ⟨x, hx, hfalse⟩ => ?_⟩
      rcases List.mem_append.mp hx with hx | hx
      · rw [hall x hx] at hfalse
        cases hfalse
      · rw [List.mem_singleton.mp hx, hw] at hfalse
        cases hfalse
    | false =>
      obtain ⟨hstop, hout⟩ := hi.stopped hv hw
      refine ⟨?_, fun hall' => ?_, fun _ => hstop⟩
      · rw [outputs_snoc, hout, List.append_nil, given_snoc, List.map_append]
        exact hh.order.trans (List.prefix_append _ _)
      · rw [hall' e (by simp)] at hw
        cases hw
  · push Not at hall
    obtain ⟨x, hx, hw⟩ := hall
    obtain ⟨hstop, hout⟩ := (hh.stopped ⟨x, hx, by simpa using hw⟩).step hv
    refine ⟨?_, fun hall' => absurd (hall' x (by simp [hx])) hw, fun _ => hstop⟩
    rw [outputs_snoc, hout, List.append_nil, given_snoc, List.map_append]
    exact hh.order.trans (List.prefix_append _ _)

theorem handed_of_run {h : List MessengerTransition} (hr : Run messenger h m) : Handed h m := by
  induction hr with
  | nil =>
    exact ⟨List.prefix_rfl, fun _ => ⟨rfl, rfl, [], rfl, rfl⟩, fun ⟨e, he, _⟩ => by cases he⟩
  | snoc _ hv ih => exact ih.step hv

/-- **Whatever happens, frames are handed over in the order of the calls, each once**, and the first
call of `Close` or write that fails is the end of it: the buffers that have not been handed over
then never are, nor are any that are given later. -/
theorem messenger_stops {h h' : List MessengerTransition} {m' : SocketMessenger}
    (hr : Run messenger h m) (hp : Path messenger m h' m') :
    outputs (h ++ h') <+: (given (h ++ h')).map wholeMessage ∧
      ((∃ e ∈ h, e.action.isWriting = false) → outputs h' = []) := by
  refine ⟨(handed_of_run (hr.append hp)).order, fun hstop => ?_⟩
  have hs := (handed_of_run hr).stopped hstop
  have hkeep : Stopped m' ∧ outputs h' = [] := by
    clear hr hstop
    induction hp with
    | nil => exact ⟨hs, rfl⟩
    | @snoc g e _ hv ih =>
      obtain ⟨hbefore, hout⟩ := ih
      obtain ⟨hafter, hemit⟩ := hbefore.step hv
      exact ⟨hafter, by rw [outputs_snoc, hout, hemit]; rfl⟩
  exact hkeep.2

/-- Three buffers, and the write of the first fails. -/
def failedWrite : List Action :=
  [.writeData [1], .writeData [2], .messageSent 0 true]

theorem messenger_stops_failedWrite :
    outputs (history messenger {} failedWrite) = [wholeMessage [1]] ∧
      outputs (history messenger (final messenger {} failedWrite) [.writeData [3]]) = [] :=
  ⟨by decide, (messenger_stops (path_history messenger failedWrite {})
    (path_history messenger [.writeData [3]] (final messenger {} failedWrite))).2 (by decide)⟩

/-- `OnMessageSent` shuts the socket down. -/
def ClosesSocket (e : MessengerTransition) : Prop :=
  e.before.exit = true ∧ ∃ i, e.action = .messageSent i false

theorem writeNext_frame (m : SocketMessenger) :
    m.writeNext.1.exit = m.exit ∧ m.writeNext.1.socketOpen = m.socketOpen := by
  unfold SocketMessenger.writeNext
  split_ifs
  · exact ⟨rfl, rfl⟩
  · split
    · exact ⟨rfl, rfl⟩
    · exact ⟨rfl, rfl⟩

theorem onMessageSent_socketOpen (m : SocketMessenger) :
    (m.onMessageSent false).1.socketOpen = (m.socketOpen && !m.exit) := by
  obtain ⟨queue, exit, socketOpen, outstanding⟩ := m
  cases exit with
  | true => simp [SocketMessenger.onMessageSent, SocketMessenger.writeNext]
  | false =>
    obtain ⟨hexit, hopen⟩ := writeNext_frame ⟨queue.tail, false, socketOpen, outstanding⟩
    simp only [SocketMessenger.onMessageSent, Bool.false_eq_true, if_false]
    by_cases hlen : 0 < queue.tail.length
    · simp only [if_pos hlen, hexit, Bool.false_eq_true, if_false, Bool.not_false, Bool.and_true]
      exact hopen
    · simp only [if_neg hlen, Bool.false_eq_true, if_false, Bool.not_false, Bool.and_true]

theorem socketOpen_step {e : MessengerTransition} (hv : e.Valid messenger) :
    e.after.socketOpen = false ↔ e.before.socketOpen = false ∨ ClosesSocket e := by
  obtain ⟨m, a, out, m'⟩ := e
  simp only [Transition.Valid, messenger] at hv
  unfold ClosesSocket
  cases a with
  | close =>
    cases hv
    simp [SocketMessenger.close]
  | writeData data =>
    simp only [WriteQueue.step, Option.some.injEq, SocketMessenger.writeData] at hv
    have hnext := (writeNext_frame { m with writeQueue := m.writeQueue ++ [data] }).2
    split_ifs at hv
    · cases hv
      simp
    · rw [hv] at hnext
      simp only at hnext
      simp [hnext]
  | messageSent i err =>
    simp only [WriteQueue.step, Option.ite_none_right_eq_some, Option.some.injEq] at hv
    obtain ⟨-, hv⟩ := hv
    cases err with
    | true =>
      cases hv
      simp
    | false =>
      have hopen := onMessageSent_socketOpen { m with outstanding := m.outstanding.eraseIdx i }
      rw [hv] at hopen
      simp only at hopen
      cases he : m.exit with
      | true => simp [hopen, he]
      | false => simp [hopen, he]

/-- `Close` is called while a buffer is being written, with another one waiting. -/
def closeWhileWriting : List Action :=
  [.writeData [1], .writeData [2], .close, .messageSent 0 false]

/-- The messenger at the writing end: one write is outstanding while the queue is not empty. -/
def writingEnd (c : Channel) : SocketMessenger :=
  { writeQueue := c.writeQueue, outstanding := (c.writeQueue.take 1).map wholeMessage }

/-- The step of the messenger in a step of the channel. -/
def writingStep (e : ChannelTransition) : Option MessengerTransition :=
  match e.action with
  | .writeData data => some ⟨writingEnd e.before, .writeData data,
      ((writingEnd e.before).writeData data).2, writingEnd e.after⟩
  | .messageSent => some ⟨writingEnd e.before, .messageSent 0 false,
      ({ writingEnd e.before with outstanding := [] }.onMessageSent false).2, writingEnd e.after⟩
  | _ => none

theorem writingEnd_writeData (c : Channel) (data : List UInt8) :
    writingEnd (writeData c data) = ((writingEnd c).writeData data).1 := by
  rcases hq : c.writeQueue with _ | ⟨item, rest⟩
  · have hnil : (writingEnd c).writeQueue = [] := hq
    rw [writeData_of_nil rfl hnil]
    simp [writingEnd, writeData, writeNext, hq]
  · have hne : (writingEnd c).writeQueue ≠ [] := by simp [writingEnd, hq]
    rw [writeData_of_ne_nil hne]
    simp [writingEnd, writeData, hq]

theorem writingEnd_onMessageSent {c : Channel} (hq : c.writeQueue ≠ []) :
    writingEnd (onMessageSent c) =
      ({ writingEnd c with outstanding := [] }.onMessageSent false).1 := by
  obtain ⟨item, rest, hq⟩ := List.exists_cons_of_ne_nil hq
  rcases rest with _ | ⟨next, rest⟩
  · rw [onMessageSent_of_singleton (m := { writingEnd c with outstanding := [] }) rfl hq]
    simp [writingEnd, onMessageSent, hq]
  · rw [onMessageSent_of_cons_cons (m := { writingEnd c with outstanding := [] }) rfl hq]
    simp [writingEnd, onMessageSent, writeNext, hq]

theorem onHeader_writeQueue (c : Channel) (hd : List UInt8) :
    (onHeader c hd).1.writeQueue = c.writeQueue := by
  unfold onHeader resizeBody
  split_ifs with h0
  · rfl
  · simp only
    split_ifs with hle
    · rfl
    · rfl

theorem transfer_writeQueue {c : Channel} {n : ℕ} {r : Channel × List (List UInt8)}
    (h : transfer c n = some r) : r.1.writeQueue = c.writeQueue := by
  unfold transfer at h
  split at h
  · split_ifs at h with h1 h2
    · cases h
      rfl
    · cases h
      rw [onHeader_writeQueue]
      rfl
  · split_ifs at h with h1 h2
    · cases h
      rfl
    · cases h
      rfl
  · cases h

theorem writingEnd_kept {e : ChannelTransition} (hv : e.Valid channel)
    (hn : writingStep e = none) : writingEnd e.after = writingEnd e.before := by
  obtain ⟨c, a, out, c'⟩ := e
  have hstep : channelStep c a = some (c', out) := hv
  suffices hqueue : c'.writeQueue = c.writeQueue by simp [writingEnd, hqueue]
  cases a with
  | writeData data => cases hn
  | messageSent => cases hn
  | send n =>
    simp only [channelStep] at hstep
    split_ifs at hstep with hle
    cases hstep
    rfl
  | arrive n =>
    simp only [channelStep] at hstep
    split_ifs at hstep with hle
    cases hstep
    rfl
  | read n =>
    simp only [channelStep] at hstep
    split_ifs at hstep with hpos
    exact transfer_writeQueue hstep

theorem writingStep_moved {e : ChannelTransition} {x : MessengerTransition}
    (hv : e.Valid channel) (hx : writingStep e = some x) :
    x.Valid messenger ∧ x.before = writingEnd e.before ∧ x.after = writingEnd e.after := by
  obtain ⟨c, a, out, c'⟩ := e
  have hstep : channelStep c a = some (c', out) := hv
  cases a with
  | writeData data =>
    cases hx
    cases hstep
    refine ⟨?_, rfl, rfl⟩
    simp only [Transition.Valid, messenger, step, writingEnd_writeData]
  | messageSent =>
    cases hx
    simp only [channelStep] at hstep
    split_ifs at hstep with hsent
    cases hstep
    refine ⟨?_, rfl, rfl⟩
    obtain ⟨item, rest, hq⟩ := List.exists_cons_of_ne_nil hsent.2
    have hone : (writingEnd c).outstanding = [wholeMessage item] := by simp [writingEnd, hq]
    simp only [Transition.Valid, messenger, step, hone, writingEnd_onMessageSent hsent.2]
    rfl
  | send n => cases hx
  | arrive n => cases hx
  | read n => cases hx

/-- **The writing end of a channel is a messenger.** -/
def writePart : Part channel messenger where
  state := writingEnd
  step := writingStep
  init := rfl
  kept _ hv hn := writingEnd_kept hv hn
  moved _ _ hv hx := writingStep_moved hv hx

theorem writePart_inOrder {h : List ChannelTransition} {c : Channel} (hr : Run channel h c) :
    InOrder (writePart.history h) (writingEnd c) := by
  refine inOrder_of_run (writePart.run hr) fun x hx => ?_
  obtain ⟨e, -, he⟩ := List.mem_filterMap.mp hx
  change writingStep e = some x at he
  unfold writingStep at he
  split at he
  · cases he
    rfl
  · cases he
    rfl
  · cases he

end Binderd.Wire.WriteQueue
