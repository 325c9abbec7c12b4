import Binderd.Broker.Delivery
import Binderd.Broker.Objects

/-! # The identity of an object across the broker

A binder that a session sends becomes a handle, and a transaction to that handle goes back to the
session with the binder and the cookie it had sent. `Bound` says that a handle leads to an object
of a session; it is kept until the session terminates (`bound_of_path`), whatever the other
messages are, and decides where a transaction to the handle is delivered and what it carries
(`delivery_of_bound`). `object_identity` puts this together with the two passes over a Transaction
whose objects do not overlap. -/

namespace Binderd.Broker.Identity

open Binderd.Lib.Bytes Binderd.Lib.Tables Binderd.Lib.Runs
open Binderd.Wire.Streams Binderd.Wire.Messages Binderd.Wire.Transactions
open Binderd.Broker.State Binderd.Broker.Handles Binderd.Broker.Sessions Binderd.Broker.Effects
open Binderd.Broker.Agreement Binderd.Broker.Translation Binderd.Broker.Delivery
open Binderd.Broker.Objects

/-- The handle `k` leads to the object `obj` of the session `s`. -/
structure Bound (st : ServerState) (s : SessionId) (k : ℕ) (obj : BinderObject) : Prop where
  owner : st.registry.handles.lookup k = some s
  object : (st.sessions s).objects.lookup k = some obj

variable {st st' : ServerState} {s t : SessionId} {k : ℕ} {obj : BinderObject}

/-! ### A handle keeps its object -/

theorem Bound.exports (hb : Bound st s k obj) (h : Exports t st st') : Bound st' s k obj :=
  ⟨handles_kept h hb.owner, objects_kept h hb.object⟩

theorem Bound.congr (hb : Bound st s k obj) (h : SameObjects st st') : Bound st' s k obj := by
  refine ⟨?_, ?_⟩
  · rw [h.handles]
    exact hb.owner
  · rw [h.objects]
    exact hb.object

theorem Bound.delivered {msg : Message} {beyond : List UInt8} (d : Delivery st t msg beyond)
    (hb : Bound d.st₁ s k obj) : Bound d.state s k obj := by
  have h1 := hb.congr (sameObjects_drawCookie d.st₁ d.target)
  exact (h1.exports d.target_exports).congr (sameObjects_addPending ..)

theorem Bound.terminate (ha : Agrees st) (hb : Bound st s k obj) (ht : st.Live t) (hts : s ≠ t)
    {order : List ℕ} (hp : order.Perm (st.sessions t).objects.keys) :
    Bound (terminate st t order).1 s k obj := by
  refine ⟨?_, ?_⟩
  · rw [(terminate_registry st t order).1, removeHandles_lookup, if_neg, hb.owner]
    intro hk
    have howner := ha.known k t ht (hp.mem_iff.mp hk)
    rw [hb.owner] at howner
    exact hts (Option.some.inj howner)
  · rw [terminate_objects]
    exact hb.object

theorem Bound.effect {a : Action} {ws : List Write} (ha : Agrees st) (hb : Bound st s k obj)
    (h : Effect st a st' ws) (hl : st'.Live s) : Bound st' s k obj := by
  have hs := (ha.owners.handles k s hb.owner).1
  cases h with
  | connected =>
    refine ⟨hb.owner, ?_⟩
    simp only [Function.update_of_ne hs.1.ne]
    exact hb.object
  | ignored _ _ => exact hb
  | answered _ _ _ _ => exact hb
  | rejected _ _ he _ => exact hb.exports he
  | refused _ _ he _ he' _ => exact ((hb.exports he).congr (sameObjects_drawCookie ..)).exports he'
  | delivered d => exact .delivered d (hb.exports d.caller_exports)
  | forwarded _ _ _ => exact hb.congr (sameObjects_removePending ..)
  | contextMgrTaken _ _ _ => exact hb
  | contextMgrSet _ _ _ h' =>
    subst h'
    exact hb.congr (sameObjects_registry _ _ rfl rfl)
  | monitorSet _ _ _ h' =>
    subst h'
    exact hb.congr (sameObjects_registry _ _ rfl rfl)
  | reference _ _ hr h' =>
    subst h'
    obtain ⟨refs, rfl⟩ := reference_registry (hr.imp And.right And.right)
    exact hb.congr (sameObjects_registry _ _ rfl rfl)
  | death _ _ _ _ h' =>
    subst h'
    exact hb.congr (sameObjects_update _ _ _ rfl rfl)
  | @terminated t order _ ht hp hr =>
    subst hr
    exact hb.terminate ha ht ((terminate_live ..).mp hl).2 hp

/-- **A handle keeps its object** until the session terminates. -/
theorem bound_of_path {h : List ServerStep} (hp : Path server st h st') (ha : Agrees st)
    (hb : Bound st s k obj) (hn : st'.registry.nextObjectHandle ≤ 2 ^ 64) (hl : st'.Live s) :
    Agrees st' ∧ Bound st' s k obj := by
  have hs := (ha.owners.handles k s hb.owner).1
  have hall := hp.preserves (P := fun u => s < u.numSessions ∧
    (u.registry.nextObjectHandle ≤ 2 ^ 64 → Agrees u ∧ (u.Live s → Bound u s k obj)))
    ⟨hs.1, fun _ => ⟨ha, fun _ => hb⟩⟩ ?_
  · exact ⟨(hall.2 hn).1, (hall.2 hn).2 hl⟩
  · rintro e - hv ⟨hlt, ih⟩
    have heff := step_effect hv
    refine ⟨hlt.trans_le heff.numSessions_le, fun hn => ?_⟩
    obtain ⟨ha', hb'⟩ := ih ((next_le_of_effect heff).trans hn)
    exact ⟨agrees_effect ha' heff hn, fun hl => (hb' (heff.live_of_live hlt hl)).effect ha' heff hl⟩

/-- **Where a transaction to a bound handle goes**, and what it carries. -/
theorem delivery_of_bound (ha : Agrees st) (hb : Bound st s k obj) {msg : Message}
    {beyond : List UInt8} (d : Delivery st t msg beyond) (hk : msg.destination = k) :
    d.target = s ∧ d.obj = obj := by
  have hpos := (ha.range k (mem_of_lookup hb.owner)).1
  have hb₁ := hb.exports d.caller_exports
  have htarget : d.target = s := by
    have hfind := d.find
    rw [findSessionByHandle, if_neg (by rw [hk, contextManagerHandle]; omega), hk,
      hb₁.owner] at hfind
    exact (Option.some.inj hfind).symm
  refine ⟨htarget, ?_⟩
  have hobj := d.delivers.object
  have hlookup : (d.st₁.sessions d.target).objects.lookup msg.destination = some obj := by
    rw [htarget, hk, hb₁.object]
  simp only [objectForHandle, inMemory, hlookup] at hobj
  exact (Option.some.inj hobj).symm

/-! ### A delivery whose objects do not overlap -/

section Disjoint

variable {msg : Message} {beyond : List UInt8} (d : Delivery st s msg beyond)
  (hin : InsideData msg.data) (hap : DisjointObjects msg.data)

include hin hap in
/-- The caller's pass of a delivery has succeeded: the target's would have met the object it stopped
at. -/
theorem callerPass_ok : d.status₁ = .ok := by
  by_contra hne
  have h1 := callerPass d hin
  have h2 := targetPass d hin
  have hinvalid := invalid_of_pass s (objectPositions msg.data) st (memoryOf msg beyond)
    hap.positions (by rw [h1]; exact hne)
  obtain ⟨p, hp, hnone⟩ := hinvalid
  rw [h1] at hnone
  exact types_of_pass d.target (objectPositions msg.data) (drawCookie d.st₁ d.target) d.m₁
    hap.positions (by rw [h2]) p hp hnone

include hin hap in
theorem targetPass_state : d.st₂ = drawCookie d.st₁ d.target := by
  have hinert := inert_of_pass s (objectPositions msg.data) st (memoryOf msg beyond) hap.positions
  rw [callerPass d hin] at hinert
  have h := pass_of_inert d.target (objectPositions msg.data) (drawCookie d.st₁ d.target) d.m₁
    hap.positions hinert
  rwa [targetPass d hin] at h

include hin in
theorem sameAt_delivered {p : ℕ} (hp : p ∈ objectPositions msg.data) :
    SameAt p d.m₂ (ofList d.message.data) := by
  intro i h1 h2
  have hrange := hin.positions p hp
  have hpacked := packed_message d
  rw [transaction_eq d hin] at hpacked
  have hbyte := slice_eq_iff.mp hpacked.dataBytes (i - 28) (by
    show i - 28 < (decoded msg.data).data.size
    omega)
  rw [show 28 + (i - 28) = i by omega] at hbyte
  exact hbyte

include hin hap in
/-- An object that a delivery changes is a binder, or a handle of the caller or of the target. -/
theorem delivery_changes {p : ℕ} (hp : p ∈ objectPositions msg.data) :
    SameAt p (ofList msg.data) (ofList d.message.data) ∨
      objType (ofList msg.data) p = some .binder ∨
      objType (ofList msg.data) p = some .handle ∧
        (objHandle (ofList msg.data) p ∈ (d.state.sessions s).objects ∨
          objHandle (ofList msg.data) p ∈ (d.state.sessions d.target).objects) := by
  have h0 := sameAt_sent d.complete hin beyond hp
  have h1 := pass_changes s (objectPositions msg.data) st (memoryOf msg beyond) hap.positions p hp
  have h2 := pass_changes d.target (objectPositions msg.data) (drawCookie d.st₁ d.target) d.m₁
    hap.positions p hp
  have h3 := sameAt_delivered d hin hp
  rw [callerPass d hin, h0.type, h0.handle] at h1
  rw [targetPass d hin] at h2
  have hobj : ∀ u, (d.state.sessions u).objects = (d.st₁.sessions u).objects := by
    intro u
    have hadd := (sameObjects_addPending d.st₂ d.target d.cookie d.record).objects u
    have hdraw := (sameObjects_drawCookie d.st₁ d.target).objects u
    rw [← hdraw, ← targetPass_state d hin hap]
    exact hadd
  rcases h1 with h1 | h1 | ⟨hh, hm, hw⟩
  · rcases h2 with h2 | h2 | ⟨hh, hm, -⟩
    · exact .inl (((h0.trans h1).trans h2).trans h3)
    · rw [h1.type, h0.type] at h2
      exact .inr (.inl h2)
    · rw [h1.type, h0.type] at hh
      rw [h1.handle, h0.handle] at hm
      refine .inr (.inr ⟨hh, .inr ?_⟩)
      rw [hobj, ← (sameObjects_drawCookie d.st₁ d.target).objects, ← targetPass_state d hin hap]
      exact hm
  · exact .inr (.inl h1)
  · refine .inr (.inr ⟨hh, .inl ?_⟩)
    rw [hobj]
    exact hm

end Disjoint

/-! ### The handle of a binder -/

/-- The object at the offset `o` of the message is one that is rewritten on its way from `s` to
`t`: a binder, or a handle of one of the two. -/
def Rewritten (e : ServerStep) (s t : SessionId) (msg : Message) (o : ℕ) : Prop :=
  objType (ofList msg.data) (28 + o) = some .binder ∨
    objType (ofList msg.data) (28 + o) = some .handle ∧
      (objHandle (ofList msg.data) (28 + o) ∈ (e.after.sessions s).objects ∨
        objHandle (ofList msg.data) (28 + o) ∈ (e.after.sessions t).objects)

/-- After step `i`, as long as `s` is live, every Transaction to the handle `k` that is accepted is
delivered to `s` with this binder and this cookie. -/
def LeadsTo (h : List ServerStep) (i : ℕ) (s : SessionId) (k binder cookie : ℕ) : Prop :=
  ∀ (j : ℕ) e, i < j → h[j]? = some e → e.before.Live s → ∀ s' msg beyond,
    e.action = .process s' msg beyond → msg.type = .transaction → msg.destination = k →
    AnsweredWith e s' msg .ok →
    ∃ w, transactionsOf e.emitted = [w] ∧ w.session = s ∧
      load (ofList w.message.data) 0 8 = binder ∧ load (ofList w.message.data) 8 8 = cookie

/-- A handle that is bound after a step leads to its object from then on. -/
theorem leadsTo_of_bound {h : List ServerStep} {st : ServerState} (hr : Run server h st)
    (hn : st.registry.nextObjectHandle ≤ 2 ^ 64) {i : ℕ} {e : ServerStep} (he : h[i]? = some e)
    (ha : Agrees e.after) {binder cookie : ℕ} (hb : Bound e.after s k ⟨binder, cookie⟩)
    (hbinder : binder < 256 ^ 8) (hcookie : cookie < 256 ^ 8) : LeadsTo h i s k binder cookie := by
  intro j e' hij he' hl s' msg beyond hact ht hk hok
  have hpath := (hr.split_getElem? he).2.2
  have hj : (h.drop (i + 1))[j - (i + 1)]? = some e' := by
    rw [List.getElem?_drop, show i + 1 + (j - (i + 1)) = j by omega, he']
  obtain ⟨hp, hv, hp'⟩ := hpath.split_getElem? hj
  have hle : e'.before.registry.nextObjectHandle ≤ 2 ^ 64 :=
    ((next_le_of_effect (step_effect hv)).trans (next_le_of_path hp')).trans hn
  obtain ⟨ha', hb'⟩ := bound_of_path hp ha hb hle hl
  obtain ⟨d, -, hws⟩ := delivery_of_answered hv hact ht hok
  obtain ⟨htarget, hobj⟩ := delivery_of_bound ha' hb' d hk
  have hpacked := packed_message d
  have hbin : d.transaction.binder = binder := congrArg BinderObject.binder hobj
  have hcook : d.transaction.cookie = cookie := congrArg BinderObject.cookie hobj
  refine ⟨_, by rw [hws, transactionsOf_delivery d], htarget, ?_, ?_⟩
  · rw [hpacked.binder, hbin, Nat.mod_eq_of_lt hbinder]
  · rw [hpacked.cookie, hcook, Nat.mod_eq_of_lt hcookie]

section Handles

variable {msg : Message} {beyond : List UInt8} (d : Delivery st s msg beyond)
  (hin : InsideData msg.data) (hap : DisjointObjects msg.data) (ha : Agrees st)
  (hn : d.state.registry.nextObjectHandle ≤ 2 ^ 32) (hne : d.target ≠ s)

include hn in
theorem next_le_callerPass : d.st₁.registry.nextObjectHandle ≤ 2 ^ 32 :=
  (post_next_le d.target_exports).trans hn

include hin hap ha hn in
theorem callerPass_handled :
    ∃ f, Handled s (objectPositions msg.data) st (memoryOf msg beyond) d.st₁ d.m₁ f := by
  have hnext := next_le_callerPass d hn
  have h1 := callerPass d hin
  have h := pass_handles s (objectPositions msg.data) st (memoryOf msg beyond) hap.positions ha
    d.live (by rw [h1]; exact callerPass_ok d hin hap) (by rw [h1]; exact hnext)
  rwa [h1] at h

include hin hap ha hn hne in
/-- The target does not own the handle, and so leaves it as it is. -/
theorem targetPass_handle {p n : ℕ} (hp : p ∈ objectPositions msg.data)
    (ht : objType d.m₁ p = some .handle) (hh : objHandle d.m₁ p = n)
    (howner : d.st₁.registry.handles.lookup n = some s) :
    objType (ofList d.message.data) p = some .handle ∧
      objHandle (ofList d.message.data) p = n := by
  have hnext := next_le_callerPass d hn
  have ha₁ : Agrees d.st₁ := agrees_exports ha d.live d.caller_exports (by omega)
  have htarget : d.st₁.Live d.target := ha₁.owners.find_live d.find
  have hsame : SameAt p d.m₁ d.m₂ := by
    have h := pass_changes d.target (objectPositions msg.data) (drawCookie d.st₁ d.target) d.m₁
      hap.positions p hp
    rw [targetPass d hin] at h
    rcases h with h | h | ⟨-, hmem, -⟩
    · exact h
    · rw [ht] at h
      cases h
    · exfalso
      rw [targetPass_state d hin hap, (sameObjects_drawCookie ..).objects, hh] at hmem
      have hown := ha₁.known n d.target htarget hmem
      rw [howner] at hown
      exact hne (Option.some.inj hown).symm
  have hall := hsame.trans (sameAt_delivered d hin hp)
  exact ⟨by rw [hall.type, ht], by rw [hall.handle, hh]⟩

end Handles

/-- **The identity of an object.** A run allocates fewer than `2 ^ 32` handles, and its step `i`
accepts a Transaction of the session `s` for a handle of another session `t`, with objects that lie
inside its data (so their offsets are below `256`) and do not overlap. Then `t` is sent the
corresponding Transaction, in which a byte that has changed belongs to an object that is rewritten;
every binder has become a handle of its own, which no one had before; and from then on, until `s`
terminates, every Transaction to that handle that is accepted goes to `s` with the binder and the
cookie `s` had sent. -/
theorem object_identity {h : List ServerStep} {st : ServerState} (hr : Run server h st)
    (hb : allocatedHandles st < 2 ^ 32) {i : ℕ} {e : ServerStep} (he : h[i]? = some e)
    {s t : SessionId} {msg : Message} {beyond : List UInt8} (ha : e.action = .process s msg beyond)
    (ht : msg.type = .transaction) (hok : AnsweredWith e s msg .ok)
    (hfind : findSessionByHandle e.before.registry msg.destination = some t) (hts : t ≠ s)
    (hin : InsideData msg.data) (hap : DisjointObjects msg.data) :
    ∃ w, transactionsOf e.emitted = [w] ∧ w.session = t ∧ Corresponds msg w.message ∧
      (∀ b < (decoded msg.data).data.size,
        w.message.data.getD (28 + b) 0 ≠ msg.data.getD (28 + b) 0 →
          ∃ o ∈ objectOffsets msg.data, o ≤ b ∧ b < o + 24 ∧ Rewritten e s t msg o) ∧
      ∃ f : ℕ → ℕ,
        Set.InjOn f {o | o ∈ objectOffsets msg.data ∧
          objType (ofList msg.data) (28 + o) = some .binder} ∧
        ∀ o ∈ objectOffsets msg.data, objType (ofList msg.data) (28 + o) = some .binder →
          f o ∉ e.before.registry.handles ∧
          objType (ofList w.message.data) (28 + o) = some .handle ∧
          objHandle (ofList w.message.data) (28 + o) = f o ∧
          LeadsTo h i s (f o) (objBinder (ofList msg.data) (28 + o))
            (objCookie (ofList msg.data) (28 + o)) := by
  have hnext : st.registry.nextObjectHandle ≤ 2 ^ 32 := by unfold allocatedHandles at hb; omega
  have hnext' : st.registry.nextObjectHandle ≤ 2 ^ 64 := by omega
  obtain ⟨hp, hv, hp'⟩ := hr.split_getElem? he
  have heff := step_effect hv
  have hafter := (next_le_of_path hp').trans hnext
  have hbefore := (next_le_of_effect heff).trans hafter
  have hag : Agrees e.before := agrees_of_run hp (by omega)
  have hag' : Agrees e.after := agrees_effect hag heff (by omega)
  obtain ⟨d, hst, hws⟩ := delivery_of_answered hv ha ht hok
  obtain rfl := delivered_target d hfind
  have hcorr := delivered_corresponds d hin
  have hn : d.state.registry.nextObjectHandle ≤ 2 ^ 32 := hst ▸ hafter
  obtain ⟨f, hf⟩ := callerPass_handled d hin hap hag hn
  -- the binders of the message are those the caller's pass meets
  have hpos : ∀ o ∈ objectOffsets msg.data, 28 + o ∈ objectPositions msg.data := fun o ho =>
    List.mem_map.mpr ⟨o, ho, rfl⟩
  have hbinder : ∀ o ∈ objectOffsets msg.data, objType (ofList msg.data) (28 + o) = some .binder →
      objType (memoryOf msg beyond) (28 + o) = some .binder := fun o ho hbo => by
    rw [(sameAt_sent d.complete hin beyond (hpos o ho)).type, hbo]
  refine ⟨⟨d.target, d.message, .postTransaction d.record⟩,
    by rw [hws, transactionsOf_delivery d], rfl, hcorr, fun b hb' hchanged => ?_,
    fun o => f (28 + o), fun o ho o' ho' heq => ?_, fun o ho hbo => ?_⟩
  · obtain ⟨o, ho, hob, hbo⟩ := hcorr.object_of_changed hb' hchanged
    refine ⟨o, ho, hob, hbo, ?_⟩
    rcases delivery_changes d hin hap (hpos o ho) with hsame | hre
    · exact absurd (hsame (28 + b) (by omega) (by omega)) hchanged
    · unfold Rewritten
      rw [hst]
      exact hre
  · have := hf.injective ⟨hpos o ho.1, hbinder o ho.1 ho.2⟩
      ⟨hpos o' ho'.1, hbinder o' ho'.1 ho'.2⟩ heq
    omega
  · have hsent := sameAt_sent d.complete hin beyond (hpos o ho)
    have hbm := hbinder o ho hbo
    obtain ⟨hty, hha⟩ := hf.written _ (hpos o ho) hbm
    obtain ⟨hobj, howner⟩ := hf.kept _ (hpos o ho) hbm
    obtain ⟨htype, hhandle⟩ :=
      targetPass_handle d hin hap hag hn hts (hpos o ho) hty hha howner
    refine ⟨fun hm => ?_, htype, hhandle, ?_⟩
    · exact absurd (hag.range _ hm).2 (not_lt_of_ge (hf.fresh _ (hpos o ho) hbm).1)
    · rw [hsent.binder, hsent.cookie] at hobj
      have hbound := Bound.delivered d ⟨howner, hobj⟩
      rw [← hst] at hbound
      have hbl : objBinder (ofList msg.data) (28 + o) < 256 ^ 8 := load_lt _ 8 _
      have hcl : objCookie (ofList msg.data) (28 + o) < 256 ^ 8 := load_lt _ 8 _
      exact leadsTo_of_bound hr hnext' he hag' hbound hbl hcl

/-- Session `0` sends a binder to the context manager `1`, which then calls it. -/
def callbackScenario : List Action :=
  [.accept, .accept, .process 1 { type := .setContextMgr } [],
    .process 0 (transactMessage 0 5 1 (flatBinderObject .binder 0 7 9) [0]) [],
    .process 1 (transactMessage 1 6 2 [1, 2, 3] []) []]

theorem object_identity_callbackScenario :
    ∃ e w k, (history server {} callbackScenario)[3]? = some e ∧
      transactionsOf e.emitted = [w] ∧ w.session = 1 ∧
      objType (ofList w.message.data) 28 = some .handle ∧
      objHandle (ofList w.message.data) 28 = k ∧
      LeadsTo (history server {} callbackScenario) 3 0 k 7 9 := by
  set msg := transactMessage 0 5 1 (flatBinderObject .binder 0 7 9) [0] with hmsg
  have h3 : ((history server {} callbackScenario)[3]?.any fun e =>
      decide (e.action = .process 0 msg [] ∧
        ⟨0, statusMessage msg .ok, .sendStatus msg .ok⟩ ∈ e.emitted ∧
        findSessionByHandle e.before.registry msg.destination = some 1)) = true := by
    rw [hmsg]
    decide +kernel
  obtain ⟨e, he, hcond⟩ := (Option.any_eq_true _ _).mp h3
  obtain ⟨ha, hok, hfind⟩ := of_decide_eq_true hcond
  obtain ⟨w, hw, hsession, -, -, f, -, hf⟩ :=
    object_identity (path_history server callbackScenario {}) (by decide +kernel) he ha rfl hok
      hfind (by decide) (by decide +kernel) (by decide +kernel)
  obtain ⟨-, htype, hhandle, hlead⟩ := hf 0 (by decide +kernel) (by decide +kernel)
  rw [show objBinder (ofList msg.data) (28 + 0) = 7 by decide +kernel,
    show objCookie (ofList msg.data) (28 + 0) = 9 by decide +kernel] at hlead
  exact ⟨e, w, f 0, he, hw, hsession, htype, hhandle, hlead⟩

end Binderd.Broker.Identity
