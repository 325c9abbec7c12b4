import Binderd.Broker.Delivery
import Binderd.Broker.References

/-! # The references of remote objects

A `RemoteObject` takes a reference to its handle when it is made, through `AddReference`, and gives
it back when it is destroyed, through the closure of `GetReleaseReferenceClosure`, unless the client
is gone by then. The statuses of both requests are not looked at. The requests of a client travel
over one connection, so the server gets them in the order in which they were sent; in between it
does whatever else it does.

The server reads the low byte of a handle. So it counts the references by low bytes, and the count
for a handle that is known is the number of remote objects with its low byte, once the requests have
arrived (`references_of_proxies`): none is lost, none is left over, and none is refused. -/

namespace Binderd.Clients.Proxies

open Binderd.Lib.Bytes Binderd.Lib.Tables Binderd.Lib.Runs
open Binderd.Wire.Streams Binderd.Wire.Messages Binderd.Wire.Transactions
open Binderd.Broker.State Binderd.Broker.Handles Binderd.Broker.Sessions Binderd.Broker.Effects
open Binderd.Broker.Agreement Binderd.Broker.Deaths Binderd.Broker.Delivery
open Binderd.Broker.References

/-- The request of `AddReference` and of `ReleaseReference`. -/
def referenceMessage (type : MessageType) (handle cookie : ℕ) : Message :=
  let writer : BinaryWriter := {}
  let writer := writer.writeUint64 handle
  { type := type, cookie := cookie, data := writer.bytes }

/-- One client, its requests on the way, and the server. -/
structure Holder where
  server : ServerState := {}
  /-- The requests for references that the server has not processed. -/
  queue : List Message := []
  /-- The handles of the remote objects, each of which holds a release closure. -/
  proxies : List ℕ := []
  /-- The `ClientImpl` exists: the closures have a weak pointer to it. -/
  client : Bool := true

/-- What can happen to the holder and to the server. -/
inductive HolderAction where
  /-- The constructor of a `RemoteObject`, which is given the client. -/
  | create (handle cookie : ℕ)
  /-- The destructor of a `RemoteObject`. -/
  | destroy (handle cookie : ℕ)
  | dropClient
  /-- The server processes the first of the requests. -/
  | deliver (beyond : List UInt8)
  /-- The server does anything else. -/
  | other (a : Action)
deriving DecidableEq

/-- The action is no request for a reference of `me`. -/
def IsOther (me : SessionId) : Action → Prop
  | .process s msg _ => s = me → msg.type ≠ .acquire ∧ msg.type ≠ .release
  | _ => True

instance (me : SessionId) : DecidablePred (IsOther me)
  | .process s msg _ => inferInstanceAs (Decidable
      (s = me → msg.type ≠ .acquire ∧ msg.type ≠ .release))
  | .accept => isTrue trivial
  | .terminate .. => isTrue trivial

/-- One step of the holder or of the server. -/
def holderStep (me : SessionId) (x : Holder) : HolderAction → Option (Holder × List Write)
  | .create handle cookie =>
    if x.client then
      some ({ x with
        proxies := x.proxies ++ [handle]
        queue := x.queue ++ [referenceMessage .acquire handle cookie] }, [])
    else none
  | .destroy handle cookie =>
    if handle ∈ x.proxies then
      let proxies := x.proxies.erase handle
      if x.client then
        some ({ x with
          proxies := proxies
          queue := x.queue ++ [referenceMessage .release handle cookie] }, [])
      else some ({ x with proxies := proxies }, [])
    else none
  | .dropClient => some ({ x with client := false }, [])
  | .deliver beyond =>
    match x.queue with
    | [] => none
    | msg :: rest =>
      (step x.server (.process me msg beyond)).map fun r =>
        ({ x with server := r.1, queue := rest }, r.2)
  | .other a =>
    if IsOther me a then (step x.server a).map fun r => ({ x with server := r.1 }, r.2) else none

/-- **The client `me` with its remote objects.** -/
def holder (me : SessionId) : Machine Holder HolderAction Write := ⟨{}, holderStep me⟩

/-- The steps, as the histories record them. -/
abbrev HolderStep := Transition Holder HolderAction Write

/-! ### Counting -/

/-- The number of requests of a type for a low byte. -/
def requests (t : MessageType) (b : ℕ) (queue : List Message) : ℕ :=
  queue.countP fun m => decide (m.type = t ∧ byteOf m.data 0 = b)

/-- The number of remote objects with a low byte. -/
def holding (b : ℕ) (proxies : List ℕ) : ℕ := proxies.countP fun k => decide (k % 256 = b)

theorem data_referenceMessage (t : MessageType) (handle cookie : ℕ) :
    (referenceMessage t handle cookie).data = leBytes 8 handle := rfl

theorem byteOf_referenceMessage (t : MessageType) (handle cookie : ℕ) :
    byteOf (referenceMessage t handle cookie).data 0 = handle % 256 := by
  have h := byteOf_append [] [] (w := 8) (by omega) handle
  simpa [data_referenceMessage] using h

/-- A request for a reference, as `AddReference` and `ReleaseReference` make it. -/
def IsRequest (m : Message) : Prop :=
  (m.type = .acquire ∨ m.type = .release) ∧ 8 ≤ m.data.length

theorem isRequest_referenceMessage {t : MessageType} (ht : t = .acquire ∨ t = .release)
    (handle cookie : ℕ) : IsRequest (referenceMessage t handle cookie) :=
  ⟨ht, by simp [data_referenceMessage]⟩

theorem requests_snoc (t : MessageType) (b : ℕ) (queue : List Message) (m : Message) :
    requests t b (queue ++ [m]) =
      requests t b queue + if m.type = t ∧ byteOf m.data 0 = b then 1 else 0 := by
  by_cases h : m.type = t ∧ byteOf m.data 0 = b
  · simp [requests, h]
  · rw [if_neg h]
    simp [requests, List.countP_append, h]

theorem requests_cons (t : MessageType) (b : ℕ) (queue : List Message) (m : Message) :
    requests t b (m :: queue) =
      requests t b queue + if m.type = t ∧ byteOf m.data 0 = b then 1 else 0 := by
  simp [requests, List.countP_cons]

theorem holding_append (b : ℕ) (proxies : List ℕ) (k : ℕ) :
    holding b (proxies ++ [k]) = holding b proxies + if k % 256 = b then 1 else 0 := by
  simp [holding, List.countP_append, List.countP_cons]

theorem holding_erase {b : ℕ} {proxies : List ℕ} {k : ℕ} (hk : k ∈ proxies) :
    holding b (proxies.erase k) + (if k % 256 = b then 1 else 0) = holding b proxies := by
  have hperm := (List.perm_cons_erase hk).countP_eq fun j => decide (j % 256 = b)
  unfold holding
  rw [hperm, List.countP_cons]
  simp

/-! ### What the server does in between -/

theorem referenceCount_other {me : SessionId} {st st' : ServerState} {a : Action}
    {ws : List Write} (h : Effect st a st' ws) (ho : IsOther me a) {b : ℕ}
    (hb : b ∈ st'.registry.handles) :
    referenceCount st'.registry b me = referenceCount st.registry b me := by
  cases referencesStep_of_effect h with
  | kept _ hrefs =>
    unfold referenceCount
    rw [hrefs]
  | @acquired s msg _ _ ht =>
    have hs : s ≠ me := fun hs => (ho hs).1 ht
    simp [referenceCount_add, hs]
  | @released s msg _ _ ht =>
    have hs : s ≠ me := fun hs => (ho hs).2 ht
    have hcount := referenceCount_remove st.registry s me b (byteOf msg.data 0)
    simpa [hs] using hcount
  | @terminated s order _ hp =>
    have hkept : b ∉ order := fun hmem => by
      rw [← AList.lookup_isSome, (terminate_registry st s order).1, removeHandles_lookup,
        if_pos hmem] at hb
      cases hb
    unfold referenceCount
    rw [terminate_references, if_neg fun hmem => hkept hmem.1]

theorem known_before {st st' : ServerState} {a : Action} {ws : List Write} (h : Effect st a st' ws)
    (hnext : st'.registry.nextObjectHandle ≤ 2 ^ 64) {b : ℕ} (hb : b ∈ st'.registry.handles) :
    b ∈ st.registry.handles ∨ st.registry.nextObjectHandle ≤ b := by
  by_cases ha : ∃ s order, a = .terminate s order
  · obtain ⟨s, order, rfl⟩ := ha
    cases h with
    | terminated _ _ hr =>
      subst hr
      rw [← AList.lookup_isSome, (terminate_registry st s order).1, removeHandles_lookup] at hb
      split_ifs at hb
      · cases hb
      · exact .inl (AList.lookup_isSome.mp hb)
  · push Not at ha
    exact (handlesGrow_of_effect h ha).fresh hnext b hb

/-! ### The balance -/

/-- The references of `me` for a handle that is known, with the requests that are on the way, are
those of its remote objects; and no request on the way asks for more than there is. -/
structure Balanced (me : SessionId) (x : Holder) : Prop where
  queue : ∀ m ∈ x.queue, IsRequest m
  counts : ∀ b ∈ x.server.registry.handles,
    referenceCount x.server.registry b me + requests .acquire b x.queue =
      holding b x.proxies + requests .release b x.queue
  covered : ∀ b ∈ x.server.registry.handles, ∀ q, q <+: x.queue →
    requests .release b q ≤ referenceCount x.server.registry b me + requests .acquire b q
  fresh : ∀ b, x.server.registry.nextObjectHandle ≤ b → holding b x.proxies = 0 ∧
    requests .acquire b x.queue = 0 ∧ requests .release b x.queue = 0

/-- A handle that a remote object is made for was given out. -/
def GivenOut (e : HolderStep) : Prop :=
  match e.action with
  | .create handle _ => handle % 256 < e.before.server.registry.nextObjectHandle
  | _ => True

instance : DecidablePred GivenOut
  | ⟨before, .create handle _, _, _⟩ =>
    inferInstanceAs (Decidable (handle % 256 < before.server.registry.nextObjectHandle))
  | ⟨_, .destroy .., _, _⟩ => isTrue trivial
  | ⟨_, .dropClient, _, _⟩ => isTrue trivial
  | ⟨_, .deliver _, _, _⟩ => isTrue trivial
  | ⟨_, .other _, _, _⟩ => isTrue trivial

variable {me : SessionId} {x : Holder}

theorem Balanced.create (hx : Balanced me x) {handle : ℕ} (cookie : ℕ)
    (hg : handle % 256 < x.server.registry.nextObjectHandle) :
    Balanced me { x with
      proxies := x.proxies ++ [handle]
      queue := x.queue ++ [referenceMessage .acquire handle cookie] } := by
  have hbyte := byteOf_referenceMessage .acquire handle cookie
  have htype : (referenceMessage .acquire handle cookie).type = .acquire := rfl
  constructor
  · intro m hm
    rcases List.mem_append.mp hm with hm | hm
    · exact hx.queue m hm
    · rw [List.mem_singleton.mp hm]
      exact isRequest_referenceMessage (.inl rfl) handle cookie
  · intro b hb
    have hcount := hx.counts b hb
    simp only [requests_snoc, holding_append, hbyte, htype, reduceCtorEq, false_and, if_false,
      true_and]
    omega
  · intro b hb q hq
    rcases List.prefix_concat_iff.mp hq with rfl | hq
    · have hall := hx.covered b hb x.queue List.prefix_rfl
      simp only [requests_snoc, htype, reduceCtorEq, false_and, if_false]
      omega
    · exact hx.covered b hb q hq
  · intro b hb
    obtain ⟨h1, h2, h3⟩ := hx.fresh b hb
    have hne : handle % 256 ≠ b := by
      simp only at hb
      omega
    simp [requests_snoc, holding_append, hbyte, htype, hne, h1, h2, h3]

theorem Balanced.destroy (hx : Balanced me x) {handle : ℕ} (cookie : ℕ)
    (hk : handle ∈ x.proxies) :
    Balanced me { x with
      proxies := x.proxies.erase handle
      queue := x.queue ++ [referenceMessage .release handle cookie] } := by
  have hbyte := byteOf_referenceMessage .release handle cookie
  have htype : (referenceMessage .release handle cookie).type = .release := rfl
  have herase : ∀ b, holding b (x.proxies.erase handle) + (if handle % 256 = b then 1 else 0) =
      holding b x.proxies := fun b => holding_erase hk
  constructor
  · intro m hm
    rcases List.mem_append.mp hm with hm | hm
    · exact hx.queue m hm
    · rw [List.mem_singleton.mp hm]
      exact isRequest_referenceMessage (.inr rfl) handle cookie
  · intro b hb
    have hcount := hx.counts b hb
    have hb' := herase b
    simp only [requests_snoc, hbyte, htype, reduceCtorEq, false_and, if_false, true_and]
    omega
  · intro b hb q hq
    rcases List.prefix_concat_iff.mp hq with rfl | hq
    · -- there is a remote object for the request
      have hcount := hx.counts b hb
      have hb' := herase b
      simp only [requests_snoc, hbyte, htype, reduceCtorEq, false_and, if_false, true_and]
      omega
    · exact hx.covered b hb q hq
  · intro b hb
    obtain ⟨h1, h2, h3⟩ := hx.fresh b hb
    have hb' := herase b
    simp only [requests_snoc, hbyte, htype, reduceCtorEq, false_and, if_false, true_and]
    omega

theorem Balanced.other (hx : Balanced me x) {st : ServerState} {a : Action} {ws : List Write}
    (h : Effect x.server a st ws) (ho : IsOther me a) (hknown : ReferencesKnown x.server)
    (hagree : Agrees x.server) (hnext : st.registry.nextObjectHandle ≤ 2 ^ 64) :
    Balanced me { x with server := st } := by
  have hmono := next_le_of_effect h
  -- nothing is known of a handle that has only now been given out
  have hzero : ∀ b, x.server.registry.nextObjectHandle ≤ b →
      referenceCount x.server.registry b me = 0 := by
    intro b hb
    have hnot : b ∉ x.server.registry.references := fun hm =>
      absurd (hagree.range b (hknown b hm)).2 (not_lt.mpr hb)
    simp [referenceCount, AList.lookup_eq_none.mpr hnot]
  refine ⟨hx.queue, fun b hb => ?_, fun b hb q hq => ?_, fun b hb => hx.fresh b (hmono.trans hb)⟩
  · rw [referenceCount_other h ho hb]
    rcases known_before h hnext hb with hb | hb
    · exact hx.counts b hb
    · obtain ⟨h1, h2, h3⟩ := hx.fresh b hb
      rw [hzero b hb, h1, h2, h3]
  · rw [referenceCount_other h ho hb]
    rcases known_before h hnext hb with hb | hb
    · exact hx.covered b hb q hq
    · have h3 := (hx.fresh b hb).2.2
      have hle : requests .release b q ≤ requests .release b x.queue := hq.sublist.countP_le
      omega

theorem step_of_request {st st' : ServerState} {msg : Message} {beyond : List UInt8}
    {ws : List Write} (hm : IsRequest msg)
    (h : step st (.process me msg beyond) = some (st', ws)) :
    st' = { st with registry := (referenceOp msg.type st.registry me (byteOf msg.data 0)).2 } ∧
      ws = sendStatus st' me msg (referenceOp msg.type st.registry me (byteOf msg.data 0)).1 := by
  obtain ⟨ht, hlen⟩ := hm
  simp only [step, processMessage_reference hlen ht, Option.ite_none_right_eq_some,
    Option.some.injEq, Prod.mk.injEq] at h
  obtain ⟨-, rfl, rfl⟩ := h
  exact ⟨rfl, rfl⟩

/-- A Release on the way has something to release. -/
theorem Balanced.releasable (hx : Balanced me x) {msg : Message} {rest : List Message}
    (hq : x.queue = msg :: rest) (ht : msg.type = .release)
    (hb : byteOf msg.data 0 ∈ x.server.registry.handles) :
    0 < referenceCount x.server.registry (byteOf msg.data 0) me := by
  have hone := hx.covered _ hb [msg] (hq ▸ List.prefix_append [msg] rest)
  simp only [requests, List.countP_singleton, ht, true_and, reduceCtorEq, false_and, decide_false,
    decide_true, Bool.false_eq_true, if_true, if_false] at hone
  omega

theorem Balanced.deliver (hx : Balanced me x) {msg : Message} {rest : List Message}
    (hq : x.queue = msg :: rest) {st : ServerState}
    (hst : st = { x.server with
      registry := (referenceOp msg.type x.server.registry me (byteOf msg.data 0)).2 }) :
    Balanced me { x with server := st, queue := rest } := by
  have hm : IsRequest msg := hx.queue msg (by simp [hq])
  obtain ⟨refs, hrefs⟩ := referenceOp_registry msg.type x.server.registry me (byteOf msg.data 0)
  have hhandles : st.registry.handles = x.server.registry.handles := by rw [hst, hrefs]
  have hnext : st.registry.nextObjectHandle = x.server.registry.nextObjectHandle := by
    rw [hst, hrefs]
  -- what is taken off the queue is put on the count
  have hmove : ∀ b ∈ x.server.registry.handles,
      referenceCount st.registry b me +
          (if msg.type = .release ∧ byteOf msg.data 0 = b then 1 else 0) =
        referenceCount x.server.registry b me +
          if msg.type = .acquire ∧ byteOf msg.data 0 = b then 1 else 0 := by
    intro b hb
    rw [hst]
    rcases hm.1 with ht | ht
    · simp only [ht, referenceOp, referenceCount_add, reduceCtorEq, false_and, if_false, true_and]
      by_cases hbb : b = byteOf msg.data 0
      · subst hbb
        simp [hb]
      · simp [hbb, Ne.symm hbb]
    · have hcount := referenceCount_remove x.server.registry me me b (byteOf msg.data 0)
      simp only [ht, referenceOp, reduceCtorEq, false_and, if_false, true_and]
      by_cases hbb : b = byteOf msg.data 0
      · subst hbb
        simpa [hb, hx.releasable hq ht hb] using hcount
      · simpa [hbb, Ne.symm hbb] using hcount
  constructor
  · exact fun m hmem => hx.queue m (by simp [hq, show m ∈ rest from hmem])
  · intro b hb
    have hb := hhandles ▸ hb
    have hcount := hx.counts b hb
    have hmoved := hmove b hb
    simp only [hq, requests_cons] at hcount ⊢
    omega
  · intro b hb q hpre
    have hb := hhandles ▸ hb
    have hcovered := hx.covered b hb (msg :: q) (by
      rw [hq]
      exact List.cons_prefix_cons.mpr ⟨rfl, hpre⟩)
    have hmoved := hmove b hb
    simp only [requests_cons] at hcovered ⊢
    omega
  · intro b hb
    obtain ⟨h1, h2, h3⟩ := hx.fresh b (hnext ▸ hb)
    simp only [hq, requests_cons] at h2 h3 ⊢
    exact ⟨h1, by omega, by omega⟩

/-! ### Runs -/

/-- No request of this step is answered with `BadValue`. -/
def NotRefused (me : SessionId) (e : HolderStep) : Prop :=
  ∀ beyond msg rest, e.action = .deliver beyond → e.before.queue = msg :: rest →
    ⟨me, statusMessage msg .badValue, .sendStatus msg .badValue⟩ ∉ e.emitted

/-- What every run keeps. -/
structure Kept (me : SessionId) (h : List HolderStep) (x : Holder) : Prop where
  reachable : ∃ g, Run server g x.server
  balanced : x.client = true → Balanced me x
  answered : ∀ e ∈ h, e.before.client = true → NotRefused me e

theorem Balanced.notRefused {e : HolderStep} (hx : Balanced me e.before)
    (hv : e.Valid (holder me)) : NotRefused me e := by
  intro beyond msg rest ha hq hmem
  obtain ⟨x, a, ws, x'⟩ := e
  simp only at ha hq hx hmem
  subst ha
  simp only [Transition.Valid, holder, holderStep, hq, Option.map_eq_some_iff, Prod.mk.injEq] at hv
  obtain ⟨⟨st, ws'⟩, hstep, rfl, rfl⟩ := hv
  have hm : IsRequest msg := hx.queue msg (by simp [hq])
  obtain ⟨-, hws⟩ := step_of_request hm hstep
  rw [hws, mem_sendStatus_iff] at hmem
  rcases hm.1 with ht | ht
  · rw [ht, referenceOp, addReferenceForHandle_status] at hmem
    split_ifs at hmem
  · rw [ht, referenceOp, removeReferenceForHandle_status] at hmem
    split_ifs at hmem with hb hpos
    exact hpos (hx.releasable hq ht hb)

theorem server_of_holderStep {e : HolderStep} (hv : e.Valid (holder me)) :
    e.after.server = e.before.server ∨
      ∃ a ws, step e.before.server a = some (e.after.server, ws) := by
  obtain ⟨x, a, ws, x'⟩ := e
  simp only [Transition.Valid, holder] at hv ⊢
  cases a with
  | create handle cookie =>
    simp only [holderStep, Option.ite_none_right_eq_some, Option.some.injEq, Prod.mk.injEq] at hv
    obtain ⟨-, rfl, -⟩ := hv
    exact .inl rfl
  | destroy handle cookie =>
    simp only [holderStep, Option.ite_none_right_eq_some] at hv
    obtain ⟨-, hv⟩ := hv
    split_ifs at hv <;> cases hv <;> exact .inl rfl
  | dropClient =>
    cases hv
    exact .inl rfl
  | deliver beyond =>
    simp only [holderStep] at hv
    split at hv
    · cases hv
    · simp only [Option.map_eq_some_iff, Prod.mk.injEq] at hv
      obtain ⟨⟨st, ws'⟩, hstep, rfl, -⟩ := hv
      exact .inr ⟨_, ws', hstep⟩
  | other a =>
    simp only [holderStep, Option.ite_none_right_eq_some, Option.map_eq_some_iff,
      Prod.mk.injEq] at hv
    obtain ⟨-, ⟨st, ws'⟩, hstep, rfl, -⟩ := hv
    exact .inr ⟨a, ws', hstep⟩

theorem next_le_of_holderStep {e : HolderStep} (hv : e.Valid (holder me)) :
    e.before.server.registry.nextObjectHandle ≤ e.after.server.registry.nextObjectHandle := by
  rcases server_of_holderStep hv with hst | ⟨a, ws, hstep⟩
  · rw [hst]
  · exact next_le_of_effect (step_effect hstep)

/-- While the client is there, every step keeps the balance. -/
theorem Balanced.step {e : HolderStep} (hbalanced : e.before.client = true → Balanced me e.before)
    (hv : e.Valid (holder me)) (hg : GivenOut e) (hknown : ReferencesKnown e.before.server)
    (hagree : Agrees e.before.server)
    (hnext : e.after.server.registry.nextObjectHandle ≤ 2 ^ 64) (hc : e.after.client = true) :
    Balanced me e.after := by
  obtain ⟨x, a, ws, x'⟩ := e
  simp only [Transition.Valid, holder] at hv hknown hagree hbalanced hnext hc ⊢
  cases a with
  | create handle cookie =>
    simp only [holderStep, Option.ite_none_right_eq_some, Option.some.injEq, Prod.mk.injEq] at hv
    obtain ⟨hc, rfl, rfl⟩ := hv
    exact (hbalanced hc).create cookie hg
  | destroy handle cookie =>
    simp only [holderStep, Option.ite_none_right_eq_some] at hv
    obtain ⟨hmem, hv⟩ := hv
    split_ifs at hv with hc'
    · cases hv
      exact (hbalanced hc).destroy cookie hmem
    · cases hv
      exact absurd hc hc'
  | dropClient =>
    cases hv
    cases hc
  | deliver beyond =>
    simp only [holderStep] at hv
    split at hv
    · cases hv
    · next msg rest hq =>
      simp only [Option.map_eq_some_iff, Prod.mk.injEq] at hv
      obtain ⟨⟨st, ws'⟩, hstep, rfl, rfl⟩ := hv
      have hx := hbalanced hc
      exact hx.deliver hq (step_of_request (hx.queue msg (by simp [hq])) hstep).1
  | other a =>
    simp only [holderStep, Option.ite_none_right_eq_some, Option.map_eq_some_iff,
      Prod.mk.injEq] at hv
    obtain ⟨ho, ⟨st, ws'⟩, hstep, rfl, rfl⟩ := hv
    exact (hbalanced hc).other (step_effect hstep) ho hknown hagree hnext

theorem Kept.step {h : List HolderStep} {e : HolderStep} (hk : Kept me h e.before)
    (hv : e.Valid (holder me)) (hg : GivenOut e)
    (hnext : e.after.server.registry.nextObjectHandle ≤ 2 ^ 64) : Kept me (h ++ [e]) e.after := by
  obtain ⟨g, hr⟩ := hk.reachable
  have hagree := agrees_of_run hr ((next_le_of_holderStep hv).trans hnext)
  refine ⟨?_, Balanced.step hk.balanced hv hg (referencesKnown_of_run hr) hagree hnext,
    fun y hy hc => ?_⟩
  · rcases server_of_holderStep hv with hst | ⟨a, ws, hstep⟩
    · exact ⟨g, hst ▸ hr⟩
    · exact ⟨_, hr.append (Path.single (e := ⟨_, a, ws, _⟩) hstep)⟩
  · rcases List.mem_append.mp hy with hy | hy
    · exact hk.answered y hy hc
    · rw [List.mem_singleton.mp hy] at hc ⊢
      exact (hk.balanced hc).notRefused hv

theorem kept_of_run {h : List HolderStep} (hr : Run (holder me) h x)
    (hgiven : ∀ e ∈ h, GivenOut e) (hnext : x.server.registry.nextObjectHandle ≤ 2 ^ 64) :
    Kept me h x := by
  induction hr with
  | nil =>
    refine ⟨⟨[], .nil⟩, fun _ => ⟨fun m hm => ?_, fun b hb => ?_, fun b hb => ?_, fun _ _ => ?_⟩,
      fun e he => ?_⟩
    · cases hm
    · exact absurd hb (AList.notMem_empty b)
    · exact absurd hb (AList.notMem_empty b)
    · exact ⟨rfl, rfl, rfl⟩
    · cases he
  | snoc _ hv ih =>
    exact (ih (fun e he => hgiven e (by simp [he])) ((next_le_of_holderStep hv).trans hnext)).step
      hv (hgiven _ (by simp)) hnext

/-- **References are kept and given back.** While the client is there, the count of a handle that is
known is the number of its remote objects, but for the requests that are on the way; and no request
is ever answered with `BadValue`. -/
theorem references_of_proxies {h : List HolderStep} (hr : Run (holder me) h x)
    (hgiven : ∀ e ∈ h, GivenOut e) (hnext : x.server.registry.nextObjectHandle ≤ 2 ^ 64)
    (hclient : x.client = true) :
    (∀ b ∈ x.server.registry.handles,
      referenceCount x.server.registry b me + requests .acquire b x.queue =
        holding b x.proxies + requests .release b x.queue) ∧
    (x.queue = [] → ∀ b ∈ x.server.registry.handles,
      referenceCount x.server.registry b me = holding b x.proxies) ∧
    ∀ e ∈ h, e.before.client = true → NotRefused me e := by
  have hk := kept_of_run hr hgiven hnext
  have hcounts := (hk.balanced hclient).counts
  refine ⟨hcounts, fun hq b hb => ?_, hk.answered⟩
  have hcount := hcounts b hb
  rw [hq] at hcount
  simpa [requests] using hcount

/-- The session `1` makes two remote objects for the handle `1`, of which one is destroyed. -/
def twoProxies : List HolderAction :=
  registered.map .other ++
    [.create 1 5, .create 1 6, .deliver [], .destroy 1 7, .deliver [], .deliver []]

theorem references_of_proxies_twoProxies :
    (final (holder 1) {} twoProxies).server.registry.handles.keys = [1] ∧
      (final (holder 1) {} twoProxies).proxies = [1] ∧
      ∀ b ∈ (final (holder 1) {} twoProxies).server.registry.handles,
        referenceCount (final (holder 1) {} twoProxies).server.registry b 1 =
          holding b (final (holder 1) {} twoProxies).proxies :=
  ⟨by decide +kernel, by decide +kernel,
    (references_of_proxies (path_history (holder 1) twoProxies {}) (by decide +kernel)
      (by decide +kernel) (by decide +kernel)).2.1 (by decide +kernel)⟩

end Binderd.Clients.Proxies
