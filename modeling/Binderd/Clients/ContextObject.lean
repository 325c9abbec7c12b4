import Binderd.Clients.Calls
import Binderd.Clients.Handlers

/-! # The context object

`OnNewMessage` gives every Transaction that completes no call to the context object if there is one,
and leaves it to `ProcessAndExecuteCommand` if there is none. So

* a transaction is dispatched by its cookie if and only if the cookie translates to nothing, or
  there is no context object and the translation of the objects does not crash before it comes to
  an object of the pool (`by_cookie_iff`);
* the objects of a transaction for the context object are not translated on this way, neither in
  the request nor in the reply. It leads to the same call and the same answer as
  `ProcessAndExecuteCommand` where this does not matter (`paths_agree_iff`). -/

namespace Binderd.Clients.ContextObject

open Binderd.Lib.Bytes Binderd.Lib.Tables Binderd.Lib.Walks
open Binderd.Wire.Streams Binderd.Wire.Messages Binderd.Wire.Transactions
open Binderd.Clients.Calls Binderd.Clients.Translator Binderd.Clients.Handlers

/-! ### Two ways to the context object -/

/-- The translation has nothing to do: it finds no null pointer, and changes no object. -/
def Idle (d : Direction) (tr : TransactionData) (t : ObjectTranslator) (m : Mem) : Prop :=
  ¬ tr.ListsNull ∧ Unmoved d m t (tr.namedPositions m)

instance (d : Direction) (tr : TransactionData) (t : ObjectTranslator) (m : Mem) :
    Decidable (Idle d tr t m) := inferInstanceAs (Decidable (_ ∧ _))

/-- **The translation does not matter**: there is nothing to do in the request and in the reply, and
the context object returns an error or a reply, and does not end the client. -/
def TranslationIdle (c : ClientObjects) (transact : Behaviour) (msg : Message)
    (beyond : List UInt8) (obj : ℕ) : Prop :=
  let m := receivedMemory msg beyond
  let r := transact obj (contents (decoded msg.data) m)
  Idle .In (decoded msg.data) c.translator m ∧ r.shouldExit = false ∧
    (r.status = 0 → ∃ reply, r.reply = some reply ∧ Idle .Out reply.tr r.translator reply.mem)

/-- The objects of a reply lie inside its data, below `256`, and do not overlap. -/
structure PlacedReply (reply : Transaction) : Prop where
  twoBuffers : TwoBuffers reply.tr
  wellPlaced : WellPlaced reply.tr reply.mem
  lt : ∀ o ∈ reply.tr.listedOffsets reply.mem, o < 256

theorem replyMessage_inj {msg : Message} {tr : TransactionData} {m m' : Mem}
    (h : replyMessage msg ⟨tr, m⟩ = replyMessage msg ⟨tr, m'⟩) :
    packTransaction tr m = packTransaction tr m' := by
  have hdata : (replyMessage msg ⟨tr, m⟩).data = (replyMessage msg ⟨tr, m'⟩).data := by rw [h]
  simp only [replyMessage, BinaryWriter.writeData, List.nil_append] at hdata
  exact (List.append_inj hdata (by simp [packTransaction_eq])).1

/-- What `ProcessAndExecuteCommand` does with a reply. -/
theorem commandAnswer_of_reply {msg : Message} {r : Outcome} (hs : r.status = 0)
    {reply : Transaction} (hr : r.reply = some reply) :
    commandAnswer msg r =
      if reply.tr.ListsNull then .crashed
      else queueMessage r.shouldExit (replyMessage msg
        { reply with mem := (processObjects .Out reply.tr r.translator reply.mem).2.2 }) := by
  by_cases hn : reply.tr.ListsNull <;>
    simp [commandAnswer, commandReply, processTransaction, hs, hr, hn]

theorem answers_agree {msg : Message} {r : Outcome} (he : r.shouldExit = false)
    (hr : r.status = 0 → ∃ reply, r.reply = some reply ∧
      Idle .Out reply.tr r.translator reply.mem) :
    contextAnswer msg r = commandAnswer msg r := by
  by_cases hs : r.status = 0
  · obtain ⟨reply, hreply, hnull, hun⟩ := hr hs
    rw [commandAnswer_of_reply hs hreply, if_neg hnull, processObjects_of_unmoved hun]
    simp [contextAnswer, queueMessage, hs, hreply, he]
  · simp [contextAnswer, commandAnswer, commandReply, queueMessage, hs, he]

theorem idle_of_answers {msg : Message} {r : Outcome}
    (hp : ∀ reply, r.reply = some reply → ¬ reply.tr.ListsNull → PlacedReply reply)
    (h : contextAnswer msg r = commandAnswer msg r) :
    r.shouldExit = false ∧ (r.status = 0 → ∃ reply, r.reply = some reply ∧
      Idle .Out reply.tr r.translator reply.mem) := by
  by_cases hs : r.status = 0
  · cases hreply : r.reply with
    | none =>
      -- one of the two dereferences the null reply
      cases he : r.shouldExit <;>
        simp [contextAnswer, commandAnswer, commandReply, queueMessage, hs, hreply, he] at h
    | some reply =>
      rw [commandAnswer_of_reply hs hreply] at h
      by_cases hnull : reply.tr.ListsNull
      · simp [contextAnswer, hs, hreply, hnull] at h
      cases he : r.shouldExit with
      | true => simp [contextAnswer, queueMessage, hs, hreply, he, hnull] at h
      | false =>
        simp only [contextAnswer, queueMessage, hs, hreply, he, hnull, ne_eq, not_true_eq_false,
          if_false, Bool.false_eq_true, Answer.sent.injEq] at h
        have hplaced := hp reply hreply hnull
        refine ⟨rfl, fun _ => ⟨reply, rfl, hnull, ?_⟩⟩
        refine unmoved_of_data hplaced.twoBuffers hplaced.wellPlaced hplaced.lt ?_
        exact (data_of_packTransaction (replyMessage_inj h)).symm
  · cases he : r.shouldExit with
    | true => simp [contextAnswer, commandAnswer, commandReply, queueMessage, hs, he] at h
    | false => exact ⟨rfl, fun h0 => absurd h0 hs⟩

theorem findObject_of_zero {c : ClientObjects} (hr : c.translator.Reachable) {tr : TransactionData}
    (h0 : tr.cookie = 0) : findObject c c.translator tr = c.contextObj := by
  have hnone : c.translator.objects.lookup 0 = none :=
    AList.lookup_eq_none.mpr fun hmem => lt_irrefl 0 (hr.numbered.ids 0 hmem).1
  have hzero : c.translator.translateCookie tr.cookie = 0 := by
    rw [h0, ObjectTranslator.translateCookie, hnone, Option.getD_none]
  unfold findObject
  rw [hzero]
  rfl

/-- **Both ways to the context object** lead to the same call and the same answer if the translation
does not matter. If the objects of the request and of the reply lie inside their data and do not
overlap, or there are objects but no data, this is the only case. -/
theorem paths_agree_iff (c : ClientObjects) (transact : Behaviour) (msg : Message)
    (beyond : List UInt8) {obj : ℕ} (hobj : c.contextObj = some obj)
    (hr : c.translator.Reachable) (ht : msg.type = .transaction) (hc : Complete msg.data)
    (h0 : (decoded msg.data).cookie = 0) :
    (TranslationIdle c transact msg beyond obj →
      handleContextObjectMessage c transact msg beyond =
        executeTransaction c transact msg beyond) ∧
    ((¬ (decoded msg.data).ListsNull →
        WellPlaced (decoded msg.data) (receivedMemory msg beyond)) →
      (∀ reply, (transact obj (contents (decoded msg.data) (receivedMemory msg beyond))).reply =
        some reply → ¬ reply.tr.ListsNull → PlacedReply reply) →
      handleContextObjectMessage c transact msg beyond =
        executeTransaction c transact msg beyond →
      TranslationIdle c transact msg beyond obj) := by
  have hfound := (findObject_of_zero hr h0).trans hobj
  rw [handleContextObjectMessage_of_complete hc ht hobj]
  refine ⟨fun ⟨⟨hnull, hin⟩, he, hreply⟩ => ?_, fun hplaced hp h => ?_⟩
  · rw [executeTransaction_of_complete hc hnull hfound, processObjects_of_unmoved hin,
      answers_agree he hreply]
  · by_cases hnull : (decoded msg.data).ListsNull
    · -- one way leads to the call, the other one crashes before
      rw [executeTransaction_of_listsNull hc hnull] at h
      cases congrArg Handled.invoked h
    rw [executeTransaction_of_complete hc hnull hfound] at h
    have hw := hplaced hnull
    simp only [Handled.mk.injEq, Option.some.injEq, Prod.mk.injEq, true_and] at h
    obtain ⟨hcontents, hanswer⟩ := h
    -- the same contents lead to the same outcome
    rw [← hcontents] at hanswer
    refine ⟨⟨hnull, ?_⟩, idle_of_answers hp hanswer⟩
    have hdata := congrArg Contents.data hcontents
    exact unmoved_of_data (twoBuffers_decoded _) hw hw.lt hdata.symm

/-- A client with the context object `0x5000`. -/
def manager : ClientObjects := { contextObj := some 0x5000 }

/-- Every call returns `OK` and this object. -/
def returning (object : List UInt8) : Behaviour := fun _ _ =>
  { status := 0
    reply := some ⟨parcel object [0], parcelMemory object [0]⟩
    translator := .initial
    shouldExit := false }

theorem paths_agree_iff_handle :
    handleContextObjectMessage manager (returning (flatBinderObject .handle 0 3 0))
        (transactMessage 0 5 1 [] []) [] =
      executeTransaction manager (returning (flatBinderObject .handle 0 3 0))
        (transactMessage 0 5 1 [] []) [] :=
  (paths_agree_iff manager _ (transactMessage 0 5 1 [] []) [] rfl .initial rfl (by decide +kernel)
    (by decide +kernel)).1 ⟨by decide +kernel, rfl, fun _ => ⟨_, rfl, by decide +kernel⟩⟩

/-- A binder that the context object returns leaves with its address, and not with its id. -/
theorem paths_differ :
    (decoded (transactMessage 0 5 1 [] []).data).cookie = 0 ∧
      handleContextObjectMessage manager (returning (flatBinderObject .binder 0 1 0x7f00))
          (transactMessage 0 5 1 [] []) [] ≠
        executeTransaction manager (returning (flatBinderObject .binder 0 1 0x7f00))
          (transactMessage 0 5 1 [] []) [] := by
  decide +kernel

/-! ### The object that is called -/

/-- The object `o` is called for the message: by the handler that `OnNewMessage` posts to the
strand, or by a worker that takes the message from `in_messages_`. The handler finds `body` in the
receive buffer. -/
def Invokes (st : ClientState) (c : ClientObjects) (transact : Behaviour) (incoming : Incoming)
    (body beyond : List UInt8) (o : ℕ) : Prop :=
  let msg := incoming.message.toMessage body
  (Task.handleContextObjectMessage incoming ∈
      (handleMessage st incoming).1.tasks.drop st.tasks.length ∧
    ∃ k, (handleContextObjectMessage c transact msg beyond).invoked = some (o, k)) ∨
  (incoming ∈ (handleMessage st incoming).1.inMessages.drop st.inMessages.length ∧
    ∃ k, (executeTransaction c transact msg beyond).invoked = some (o, k))

/-- The address of the object that the cookie of the transaction translates to. -/
def addressFor (c : ClientObjects) (incoming : Incoming) (body : List UInt8) : ℕ :=
  c.translator.translateCookie (decoded (incoming.message.data.bytes body)).cookie

/-- **Dispatch by cookie**: an object in the pool that the cookie translates to is called, and no
other; the context object is called only if the cookie translates to nothing. -/
def ByCookie (st : ClientState) (c : ClientObjects) (transact : Behaviour) (incoming : Incoming)
    (body beyond : List UInt8) : Prop :=
  (∀ o, addressFor c incoming body ≠ 0 → c.pool.getObject (addressFor c incoming body) = some o →
    ∀ o', Invokes st c transact incoming body beyond o' ↔ o' = o) ∧
  ∀ o, c.contextObj = some o → Invokes st c transact incoming body beyond o →
    addressFor c incoming body = 0

section Dispatch

variable {st : ClientState} {c : ClientObjects} {transact : Behaviour} {incoming : Incoming}
  {body beyond : List UInt8} (ht : incoming.message.type = .transaction)
  (hp : incoming.message.cookie ∉ st.pendingCalls)

include ht hp

/-- The route of a Transaction that completes no call. -/
theorem handleMessage_transaction : (handleMessage st incoming).1 =
    if st.contextObj then
      { st with tasks := st.tasks ++ [.handleContextObjectMessage incoming] }
    else { st with inMessages := st.inMessages ++ [incoming] } := by
  unfold handleMessage
  simp only [ht, reduceCtorEq, if_false, AList.lookup_eq_none.mpr hp, true_and]
  split_ifs <;> rfl

variable (hc : Complete (incoming.message.data.bytes body))

include hc

/-- A client with a context object calls it. -/
theorem invokes_of_contextObj (hset : st.contextObj = true) {obj : ℕ}
    (hobj : c.contextObj = some obj) {o : ℕ} :
    Invokes st c transact incoming body beyond o ↔ o = obj := by
  have hc' : Complete (incoming.message.toMessage body).data := hc
  have ht' : (incoming.message.toMessage body).type = .transaction := ht
  unfold Invokes
  rw [handleMessage_transaction ht hp, if_pos hset]
  simp [handleContextObjectMessage_of_complete hc' ht' hobj, eq_comm]

/-- A client without one calls the object that the cookie translates to, if it gets so far. -/
theorem invokes_of_no_contextObj (hset : st.contextObj = false) {o : ℕ} :
    Invokes st c transact incoming body beyond o ↔
      ¬ (decoded (incoming.message.data.bytes body)).ListsNull ∧
        findObject c c.translator (decoded (incoming.message.data.bytes body)) = some o := by
  have hc' : Complete (incoming.message.toMessage body).data := hc
  unfold Invokes
  rw [handleMessage_transaction ht hp, if_neg (by simp [hset])]
  by_cases hn : (decoded (incoming.message.data.bytes body)).ListsNull
  · simp [executeTransaction_of_listsNull hc' hn, hn]
  · cases hfound : findObject c c.translator (decoded (incoming.message.data.bytes body)) with
    | none => simp [invoked_of_not_found hc' hfound]
    | some obj => simp [executeTransaction_of_complete hc' hn hfound, hn]

end Dispatch

/-- **A transaction is dispatched by its cookie if and only if** the cookie translates to nothing,
or the client has no context object and comes to the object of the pool, if there is one, without a
crash. -/
theorem by_cookie_iff (st : ClientState) (c : ClientObjects) (transact : Behaviour)
    (incoming : Incoming) (body beyond : List UInt8) (hset : st.contextObj = c.contextObj.isSome)
    (ht : incoming.message.type = .transaction)
    (hp : incoming.message.cookie ∉ st.pendingCalls)
    (hc : Complete (incoming.message.data.bytes body)) :
    ByCookie st c transact incoming body beyond ↔
      addressFor c incoming body = 0 ∨ c.contextObj = none ∧
        (c.pool.getObject (addressFor c incoming body) = none ∨
          ¬ (decoded (incoming.message.data.bytes body)).ListsNull) := by
  by_cases hzero : addressFor c incoming body = 0
  · exact iff_of_true ⟨fun o ha => absurd hzero ha, fun _ _ _ => hzero⟩ (.inl hzero)
  rw [or_iff_right hzero]
  cases hobj : c.contextObj with
  | none =>
    rw [hobj] at hset
    have hinvokes : ∀ o, Invokes st c transact incoming body beyond o ↔
        ¬ (decoded (incoming.message.data.bytes body)).ListsNull ∧
          c.pool.getObject (addressFor c incoming body) = some o := by
      intro o
      rw [invokes_of_no_contextObj ht hp hc hset]
      unfold findObject addressFor
      unfold addressFor at hzero
      rw [if_pos hzero]
    rw [and_iff_right rfl]
    constructor
    · intro h
      cases ho : c.pool.getObject (addressFor c incoming body) with
      | none => exact .inl rfl
      | some o => exact .inr ((hinvokes o).mp ((h.1 o hzero ho o).mpr rfl)).1
    · refine fun h => ⟨fun o _ ho o' => ?_, fun o ho => by cases hobj.symm.trans ho⟩
      rw [ho] at h
      rw [hinvokes, ho, Option.some.injEq, eq_comm (a := o)]
      exact and_iff_right (h.resolve_left (Option.some_ne_none o))
  | some obj =>
    rw [hobj] at hset
    have hinvoked : Invokes st c transact incoming body beyond obj :=
      (invokes_of_contextObj ht hp hc hset hobj).mpr rfl
    exact iff_of_false (fun h => hzero (h.2 obj hobj hinvoked)) fun h => by cases h.1

/-- A transaction for the object with this id. -/
def payloadFor (id : ℕ) : List UInt8 :=
  packTransaction { cookie := id, data := ⟨0, 0⟩, objects := ⟨0, 0⟩ } (ofList [])

/-- The frame holds nothing but its payload. -/
def incomingFor (id : ℕ) : Incoming := ⟨⟨.transaction, 0, 5, ⟨0, (payloadFor id).length⟩⟩, 0⟩

/-- A client with an object at `0x7f00`, known as `1`. -/
def owner (contextObj : Option ℕ) : ClientObjects :=
  { translator := (ObjectTranslator.initial.translateOrAddObject 0x7f00).2
    pool := ⟨insertNew ∅ 0x7f00 ⟨0, 0x7f00⟩⟩
    contextObj := contextObj }

theorem by_cookie_iff_owner :
    addressFor (owner none) (incomingFor 1) (payloadFor 1) = 0x7f00 ∧
      ByCookie {} (owner none) (returning []) (incomingFor 1) (payloadFor 1) [] :=
  ⟨by decide +kernel, (by_cookie_iff {} (owner none) (returning []) (incomingFor 1) (payloadFor 1)
    [] rfl rfl (by decide +kernel) (by decide +kernel)).mpr (.inr ⟨rfl, .inr (by decide +kernel)⟩)⟩

/-- The context object at `0x5000` is called for the object at `0x7f00`. -/
theorem context_object_called :
    addressFor (owner (some 0x5000)) (incomingFor 1) (payloadFor 1) = 0x7f00 ∧
      (owner (some 0x5000)).pool.getObject 0x7f00 = some 0x7f00 ∧
      Invokes { contextObj := true } (owner (some 0x5000)) (returning []) (incomingFor 1)
        (payloadFor 1) [] 0x5000 ∧
      ¬ ByCookie { contextObj := true } (owner (some 0x5000)) (returning []) (incomingFor 1)
        (payloadFor 1) [] := by
  have haddress : addressFor (owner (some 0x5000)) (incomingFor 1) (payloadFor 1) = 0x7f00 := by
    decide +kernel
  have hinvokes : Invokes { contextObj := true } (owner (some 0x5000)) (returning [])
      (incomingFor 1) (payloadFor 1) [] 0x5000 :=
    (invokes_of_contextObj rfl (by decide +kernel) (by decide +kernel) rfl rfl).mpr rfl
  refine ⟨haddress, by decide +kernel, hinvokes, fun h => ?_⟩
  have hzero := h.2 0x5000 rfl hinvokes
  rw [haddress] at hzero
  cases hzero

end Binderd.Clients.ContextObject
