import Binderd.Broker.Identity
import Binderd.Broker.Replies

/-! # Objects that come home

A session that gets hold of a handle may send it on. If the handle is the receiver's own, the
receiver's `TranslateObjects` turns it into a binder again, but into one of type `WEAK_BINDER`,
which no client resolves, and with half of the binder cleared: `binder` and `handle` share their
bytes, and `handle` is set last. `sent_home_iff` says when a transaction is spared this; the handle
of a third session, which both passes leave alone, arrives as it was sent.

The objects of a reply are not translated at all: `OnReply` forwards the data as they are
(`reply_objects_iff`). -/

namespace Binderd.Broker.Homecoming

open Binderd.Lib.Bytes Binderd.Lib.Tables Binderd.Lib.Runs Binderd.Lib.Walks
open Binderd.Wire.Streams Binderd.Wire.Messages Binderd.Wire.Transactions
open Binderd.Broker.State Binderd.Broker.Handles Binderd.Broker.Sessions Binderd.Broker.Effects
open Binderd.Broker.Agreement Binderd.Broker.Translation Binderd.Broker.Delivery
open Binderd.Broker.Objects Binderd.Broker.Identity Binderd.Broker.Replies

/-! ### The passes, one object at a time -/

/-- The number of binders among the objects at these positions. -/
def binders (m : Mem) (ps : List ℕ) : ℕ :=
  ps.countP fun p => decide (objType m p = some .binder)

theorem binders_cons (m : Mem) (p : ℕ) (ps : List ℕ) :
    binders m (p :: ps) = binders m ps + if objType m p = some .binder then 1 else 0 := by
  simp [binders, List.countP_cons]

theorem binders_congr {m m' : Mem} {ps : List ℕ} (h : ∀ p ∈ ps, SameAt p m m') :
    binders m' ps = binders m ps :=
  List.countP_congr fun p hp => by simp [(h p hp).type]

/-- The session owns the handle `k` once its pass has met the objects at `ps`: it owned it before,
or one of the binders among them is given that handle. -/
def OwnsAfter (st : ServerState) (s : SessionId) (m : Mem) (ps : List ℕ) (k : ℕ) : Prop :=
  k ∈ (st.sessions s).objects ∨
    ∃ i < binders m ps, k = (st.registry.nextObjectHandle + i) % 2 ^ 64

theorem ownsAfter_of_pass (s : SessionId) (k : ℕ) : ∀ (ps : List ℕ) (st : ServerState) (m : Mem),
    Separate 24 ps → (translateAt s ps st m).1 = .ok →
    (k ∈ ((translateAt s ps st m).2.1.sessions s).objects ↔ OwnsAfter st s m ps k)
  | [], _, _, _, _ => by simp [translateAt_nil, OwnsAfter, binders]
  | p :: ps, st, m, hap, hok => by
    rcases translateAt_cons s p ps st m with ⟨-, he⟩ | ⟨st', m', hstep, he⟩
    · rw [he] at hok
      cases hok
    · rw [he] at hok ⊢
      have hsame : ∀ q ∈ ps, SameAt q m m' := fun q hq => sameAt_of_step hstep (hap.head q hq)
      rw [ownsAfter_of_pass s k ps st' m' hap.tail hok, OwnsAfter, OwnsAfter, binders_congr hsame,
        binders_cons]
      clear he hok
      cases hstep with
      | exported hb =>
        rw [exportObject_mem, exportObject_next, if_pos hb]
        constructor
        · rintro ((⟨-, rfl⟩ | hk) | ⟨i, hi, rfl⟩)
          · exact .inr ⟨0, by omega, rfl⟩
          · exact .inl hk
          · exact .inr ⟨i + 1, by omega, by rw [Nat.add_right_comm, Nat.add_assoc]⟩
        · rintro (hk | ⟨i, hi, rfl⟩)
          · exact .inl (.inr hk)
          · rcases Nat.eq_zero_or_pos i with rfl | hpos
            · exact .inl (.inl ⟨rfl, rfl⟩)
            · exact .inr ⟨i - 1, by omega, by congr 1; omega⟩
      | returned ht _ => simp [ht]
      | passed ht _ => simp [ht]
      | ignored ht hb _ => simp [ht, hb]

/-- A pass that succeeds, cut at one of its objects. -/
theorem translateAt_split (s : SessionId) : ∀ (ps : List ℕ) (p : ℕ) (qs : List ℕ)
    (st : ServerState) (m : Mem), (translateAt s (ps ++ p :: qs) st m).1 = .ok →
    ∃ st₁ m₁ st₂ m₂, translateAt s ps st m = (.ok, st₁, m₁) ∧ ObjectStep s st₁ m₁ p st₂ m₂ ∧
      translateAt s (ps ++ p :: qs) st m = translateAt s qs st₂ m₂
  | [], p, qs, st, m, hok => by
    rcases translateAt_cons s p qs st m with ⟨-, he⟩ | ⟨st', m', hstep, he⟩
    · rw [List.nil_append, he] at hok
      cases hok
    · exact ⟨st, m, st', m', rfl, hstep, he⟩
  | q :: ps, p, qs, st, m, hok => by
    rw [List.cons_append] at hok ⊢
    rcases translateAt_unroll s q st m with ⟨-, he⟩ | ⟨st', m', -, he⟩
    · rw [he] at hok
      cases hok
    · rw [he] at hok ⊢
      rw [he]
      exact translateAt_split s ps p qs st' m' hok

/-- What becomes of a handle in a pass: if it belongs to the session when its turn comes, the object
is made a weak binder, and else it is left alone. -/
theorem handle_of_pass {s : SessionId} {ps qs : List ℕ} {p : ℕ} {st : ServerState} {m : Mem}
    (hap : Separate 24 (ps ++ p :: qs)) (hok : (translateAt s (ps ++ p :: qs) st m).1 = .ok)
    (ht : objType m p = some .handle) :
    OwnsAfter st s m ps (objHandle m p) ∧
        objType (translateAt s (ps ++ p :: qs) st m).2.2 p = some .weakBinder ∨
      ¬ OwnsAfter st s m ps (objHandle m p) ∧
        SameAt p m (translateAt s (ps ++ p :: qs) st m).2.2 := by
  obtain ⟨st₁, m₁, st₂, m₂, hbefore, hstep, hafter⟩ := translateAt_split s ps p qs st m hok
  obtain ⟨hps, hpq, hcross⟩ := List.pairwise_append.mp hap
  have hsame₁ : SameAt p m m₁ := by
    have h := translateAt_sameAt s ps st m fun q hq => hcross q hq p (by simp)
    rwa [hbefore] at h
  have hsame₂ : SameAt p m₂ (translateAt s qs st₂ m₂).2.2 :=
    translateAt_sameAt s qs st₂ m₂ (Separate.head hpq)
  have hmem := ownsAfter_of_pass s (objHandle m p) ps st m hps (by rw [hbefore])
  rw [hbefore] at hmem
  rw [hafter, ← hmem]
  rw [← hsame₁.type] at ht
  clear hafter hok
  cases hstep with
  | exported hb =>
    rw [ht] at hb
    cases hb
  | returned _ hb =>
    rw [hsame₁.handle] at hb
    exact .inl ⟨mem_of_lookup hb, by rw [hsame₂.type, objType_toWeakBinder]⟩
  | passed _ hn =>
    rw [hsame₁.handle] at hn
    exact .inr ⟨hn, hsame₁.trans hsame₂⟩
  | ignored ht' _ hne =>
    rw [ht] at ht'
    cases ht'
    exact absurd rfl hne

/-! ### Handles sent home -/

/-- How the handles in the Transaction `msg` of `s` arrive at `t`, in `m`: those of `t` as the
binders that `t` has exported under them, those that neither of the two owns as they were sent. -/
structure ArrivesHome (st : ServerState) (s t : SessionId) (msg m : Message) : Prop where
  home : ∀ p ∈ objectPositions msg.data, objType (ofList msg.data) p = some .handle →
    ∀ b, (st.sessions t).objects.lookup (objHandle (ofList msg.data) p) = some b →
      objType (ofList m.data) p = some .binder ∧ objBinder (ofList m.data) p = b.binder ∧
        objCookie (ofList m.data) p = b.cookie
  foreign : ∀ p ∈ objectPositions msg.data, objType (ofList msg.data) p = some .handle →
    objHandle (ofList msg.data) p ∉ (st.sessions s).objects →
    objHandle (ofList msg.data) p ∉ (st.sessions t).objects →
      SameAt p (ofList msg.data) (ofList m.data)

/-- No handle in the message is one of `t`, and none is one that the message itself makes a handle
of `s`, by a binder listed before it. -/
def NoneHome (st : ServerState) (s t : SessionId) (msg : Message) : Prop :=
  ∀ ps p qs, objectPositions msg.data = ps ++ p :: qs →
    objType (ofList msg.data) p = some .handle →
      objHandle (ofList msg.data) p ∉ (st.sessions t).objects ∧
      (objHandle (ofList msg.data) p ∉ (st.sessions s).objects →
        ∀ i < binders (ofList msg.data) ps,
          objHandle (ofList msg.data) p ≠ (st.registry.nextObjectHandle + i) % 2 ^ 64)

section Sent

variable {st : ServerState} {s : SessionId} {msg : Message} {beyond : List UInt8}
  (d : Delivery st s msg beyond) (hin : InsideData msg.data) (hap : DisjointObjects msg.data)
  (hts : d.target ≠ s)

include hts in
theorem target_objects :
    ((drawCookie d.st₁ d.target).sessions d.target).objects = (st.sessions d.target).objects := by
  rw [drawCookie_objects, (Exports.frame d.caller_exports).other _ hts]

include hin hap in
theorem callerPass_handle {ps qs : List ℕ} {p : ℕ}
    (hsplit : objectPositions msg.data = ps ++ p :: qs)
    (ht : objType (ofList msg.data) p = some .handle) :
    OwnsAfter st s (ofList msg.data) ps (objHandle (ofList msg.data) p) ∧
        objType d.m₁ p = some .weakBinder ∨
      ¬ OwnsAfter st s (ofList msg.data) ps (objHandle (ofList msg.data) p) ∧
        SameAt p (ofList msg.data) d.m₁ := by
  have hsent : ∀ q ∈ ps ++ p :: qs, SameAt q (ofList msg.data) (memoryOf msg beyond) :=
    fun q hq => sameAt_sent d.complete hin beyond (hsplit ▸ hq)
  have hp := hsent p (by simp)
  have hown : OwnsAfter st s (memoryOf msg beyond) ps (objHandle (memoryOf msg beyond) p) ↔
      OwnsAfter st s (ofList msg.data) ps (objHandle (ofList msg.data) p) := by
    unfold OwnsAfter
    rw [hp.handle, binders_congr fun q hq => hsent q (by simp [hq])]
  have hpass := callerPass d hin
  have happos := hap.positions
  rw [hsplit] at hpass happos
  have h := handle_of_pass happos (by rw [hpass]; exact callerPass_ok d hin hap)
    (hp.type.trans ht)
  rw [hpass, hown] at h
  exact h.imp id fun h => ⟨h.1, hp.trans h.2⟩

include hin hap hts in
/-- An object that is a handle after the caller's pass, when it is delivered. -/
theorem targetPass_owned {p : ℕ} (hp : p ∈ objectPositions msg.data)
    (ht : objType d.m₁ p = some .handle) :
    objHandle d.m₁ p ∈ (st.sessions d.target).objects ∧
        objType (ofList d.message.data) p = some .weakBinder ∨
      objHandle d.m₁ p ∉ (st.sessions d.target).objects ∧
        SameAt p d.m₁ (ofList d.message.data) := by
  have harrive := sameAt_delivered d hin hp
  have hobjects := target_objects d hts
  have hpass := targetPass d hin
  have hchanges := pass_changes d.target (objectPositions msg.data) (drawCookie d.st₁ d.target)
    d.m₁ hap.positions p hp
  rw [hpass, targetPass_state d hin hap, hobjects] at hchanges
  by_cases hmem : objHandle d.m₁ p ∈ (st.sessions d.target).objects
  · obtain ⟨ps, qs, hsplit⟩ := List.append_of_mem hp
    have happos := hap.positions
    rw [hsplit] at hpass happos
    have h := handle_of_pass happos (by rw [hpass]) ht
    rw [hpass] at h
    rcases h with ⟨-, hweak⟩ | ⟨hno, -⟩
    · exact .inl ⟨hmem, by rw [harrive.type, hweak]⟩
    · exact absurd (.inl (hobjects ▸ hmem)) hno
  · refine .inr ⟨hmem, ?_⟩
    rcases hchanges with hsame | hbinder | ⟨-, howned, -⟩
    · exact hsame.trans harrive
    · rw [ht] at hbinder
      cases hbinder
    · exact absurd howned hmem

include hin hap in
/-- The target's pass ignores weak binders. -/
theorem targetPass_weakBinder {p : ℕ} (hp : p ∈ objectPositions msg.data)
    (ht : objType d.m₁ p = some .weakBinder) :
    objType (ofList d.message.data) p = some .weakBinder := by
  have hchanges := pass_changes d.target (objectPositions msg.data) (drawCookie d.st₁ d.target)
    d.m₁ hap.positions p hp
  rw [targetPass d hin, ht] at hchanges
  rcases hchanges with hsame | hbinder | ⟨hhandle, -, -⟩
  · rw [(hsame.trans (sameAt_delivered d hin hp)).type, ht]
  · cases hbinder
  · cases hhandle

include hin hap hts in
/-- A handle of the message, when it is delivered: a weak binder if the caller owns it in its turn
or the target owns it, and else as it was sent. -/
theorem delivered_handle {ps qs : List ℕ} {p : ℕ}
    (hsplit : objectPositions msg.data = ps ++ p :: qs)
    (ht : objType (ofList msg.data) p = some .handle) :
    (OwnsAfter st s (ofList msg.data) ps (objHandle (ofList msg.data) p) ∨
        objHandle (ofList msg.data) p ∈ (st.sessions d.target).objects) ∧
        objType (ofList d.message.data) p = some .weakBinder ∨
      ¬ (OwnsAfter st s (ofList msg.data) ps (objHandle (ofList msg.data) p) ∨
        objHandle (ofList msg.data) p ∈ (st.sessions d.target).objects) ∧
        SameAt p (ofList msg.data) (ofList d.message.data) := by
  have hp : p ∈ objectPositions msg.data := by
    rw [hsplit]
    simp
  rcases callerPass_handle d hin hap hsplit ht with ⟨howns, hweak⟩ | ⟨hno, hsame⟩
  · exact .inl ⟨.inl howns, targetPass_weakBinder d hin hap hp hweak⟩
  · have htarget := targetPass_owned d hin hap hts hp (hsame.type.trans ht)
    rw [hsame.handle] at htarget
    rcases htarget with ⟨hmem, hweak⟩ | ⟨hnot, hsame'⟩
    · exact .inl ⟨.inr hmem, hweak⟩
    · exact .inr ⟨fun h => h.elim hno hnot, hsame.trans hsame'⟩

include hin hap hts in
theorem noneHome_of_arrivesHome (harr : ArrivesHome st s d.target msg d.message) :
    NoneHome st s d.target msg := by
  intro ps p qs hsplit ht
  have hp : p ∈ objectPositions msg.data := by
    rw [hsplit]
    simp
  -- a weak binder is not what a handle of the target should arrive as
  have htarget : objHandle (ofList msg.data) p ∉ (st.sessions d.target).objects := by
    intro hmem
    obtain ⟨b, hb⟩ := exists_lookup_of_mem hmem
    have hbinder := (harr.home p hp ht b hb).1
    rcases delivered_handle d hin hap hts hsplit ht with ⟨-, hweak⟩ | ⟨hno, -⟩
    · rw [hweak] at hbinder
      cases hbinder
    · exact hno (.inr hmem)
  refine ⟨htarget, fun hs i hi hfresh => ?_⟩
  rcases delivered_handle d hin hap hts hsplit ht with ⟨-, hweak⟩ | ⟨hno, -⟩
  · rw [(harr.foreign p hp ht hs htarget).type, ht] at hweak
    cases hweak
  · exact hno (.inl (.inr ⟨i, hi, hfresh⟩))

include hin hap hts in
theorem arrivesHome_of_noneHome (hnone : NoneHome st s d.target msg) :
    ArrivesHome st s d.target msg d.message := by
  constructor
  · intro p hp ht b hb
    obtain ⟨ps, qs, hsplit⟩ := List.append_of_mem hp
    exact absurd (mem_of_lookup hb) (hnone ps p qs hsplit ht).1
  · intro p hp ht hs htarget
    obtain ⟨ps, qs, hsplit⟩ := List.append_of_mem hp
    rcases delivered_handle d hin hap hts hsplit ht with ⟨howned, -⟩ | ⟨-, hsame⟩
    · rcases howned with (hs' | ⟨i, hi, hfresh⟩) | htarget'
      · exact absurd hs' hs
      · exact absurd hfresh ((hnone ps p qs hsplit ht).2 hs i hi)
      · exact absurd htarget' htarget
    · exact hsame

end Sent

/-- **Handles sent home.** In every run, a Transaction of `s` that is accepted for another session
`t`, with objects that lie inside its data (so their offsets are below `256`) and do not overlap, is
delivered with the handles of `t` turned back into the binders `t` has exported, and with those of
neither session as they were sent, exactly when it has no handle of `t` and none that the message
itself makes a handle of `s` by a binder listed before. -/
theorem sent_home_iff {h : List ServerStep} {st : ServerState} (hr : Run server h st)
    {e : ServerStep} (he : e ∈ h) {s t : SessionId} {msg : Message} {beyond : List UInt8}
    (ha : e.action = .process s msg beyond) (ht : msg.type = .transaction)
    (hok : AnsweredWith e s msg .ok)
    (hfind : findSessionByHandle e.before.registry msg.destination = some t) (hts : t ≠ s)
    (hin : InsideData msg.data) (hap : DisjointObjects msg.data) :
    (∃ w, transactionsOf e.emitted = [w] ∧ w.session = t ∧
      ArrivesHome e.before s t msg w.message) ↔ NoneHome e.before s t msg := by
  obtain ⟨d, -, hws⟩ := delivery_of_answered (hr.valid he) ha ht hok
  obtain rfl := delivered_target d hfind
  rw [hws, transactionsOf_delivery d]
  constructor
  · rintro ⟨w, hw, -, harr⟩
    cases hw
    exact noneHome_of_arrivesHome d hin hap hts harr
  · intro hnone
    exact ⟨_, rfl, rfl, arrivesHome_of_noneHome d hin hap hts hnone⟩

/-- Session `0` sends a binder to the context manager `1`, and session `2` sends its handle. -/
def foreignScenario : List Action :=
  [.accept, .accept, .accept, .process 1 { type := .setContextMgr } [],
    .process 0 (transactMessage 0 5 1 (flatBinderObject .binder 0 7 9) [0]) [],
    .process 2 (transactMessage 0 6 2 (flatBinderObject .handle 0 1 0) [0]) []]

theorem sent_home_foreignScenario :
    ∃ e w, (history server {} foreignScenario)[5]? = some e ∧ transactionsOf e.emitted = [w] ∧
      w.session = 1 ∧ ArrivesHome e.before 2 1
        (transactMessage 0 6 2 (flatBinderObject .handle 0 1 0) [0]) w.message := by
  set msg := transactMessage 0 6 2 (flatBinderObject .handle 0 1 0) [0] with hmsg
  have h5 : ((history server {} foreignScenario)[5]?.any fun e =>
      decide (e.action = .process 2 msg [] ∧
        ⟨2, statusMessage msg .ok, .sendStatus msg .ok⟩ ∈ e.emitted ∧
        findSessionByHandle e.before.registry msg.destination = some 1 ∧
        objHandle (ofList msg.data) 28 ∉ (e.before.sessions 1).objects)) = true := by
    rw [hmsg]
    decide +kernel
  obtain ⟨e, he, hcond⟩ := (Option.any_eq_true _ _).mp h5
  obtain ⟨ha, hok, hfind, hforeign⟩ := of_decide_eq_true hcond
  have hnone : NoneHome e.before 2 1 msg := by
    intro ps p qs hsplit _
    rw [show objectPositions msg.data = [28] by rw [hmsg]; decide +kernel] at hsplit
    obtain ⟨rfl, hp⟩ := List.append_eq_singleton_iff.mp hsplit.symm |>.resolve_right (by simp)
    cases hp
    exact ⟨hforeign, fun _ i hi => absurd hi (Nat.not_lt_zero i)⟩
  obtain ⟨w, hw, hsession, harr⟩ := (sent_home_iff (path_history server foreignScenario {})
    (List.mem_of_getElem? he) ha rfl hok hfind (by decide) (by rw [hmsg]; decide +kernel)
    (by rw [hmsg]; decide +kernel)).mpr hnone
  exact ⟨e, w, he, hw, hsession, harr⟩

/-- Session `0` sends a binder to the context manager `1`, which sends the handle back, in a
Transaction to that handle. -/
def homeScenario : List Action :=
  [.accept, .accept, .process 1 { type := .setContextMgr } [],
    .process 0 (transactMessage 0 5 1 (flatBinderObject .binder 0 7 9) [0]) [],
    .process 1 (transactMessage 1 6 2 (flatBinderObject .handle 0 1 0) [0]) []]

/-- The handle of the binder `7` arrives at session `0` as a weak binder, and the binder is `0`. -/
theorem binder_lost_on_the_way_home :
    ∃ e w, (history server {} homeScenario)[4]? = some e ∧ transactionsOf e.emitted = [w] ∧
      w.session = 0 ∧ (e.before.sessions 0).objects.lookup 1 = some ⟨7, 9⟩ ∧
      objType (ofList w.message.data) 28 = some .weakBinder ∧
      objBinder (ofList w.message.data) 28 = 0 ∧ ¬ ArrivesHome e.before 1 0
        (transactMessage 1 6 2 (flatBinderObject .handle 0 1 0) [0]) w.message := by
  have h4 : ((history server {} homeScenario)[4]?.any fun e =>
      (transactionsOf e.emitted).length = 1 ∧ (transactionsOf e.emitted).head?.any fun w =>
        decide (w.session = 0 ∧ (e.before.sessions 0).objects.lookup 1 = some ⟨7, 9⟩ ∧
          objType (ofList w.message.data) 28 = some .weakBinder ∧
          objBinder (ofList w.message.data) 28 = 0)) = true := by
    decide +kernel
  obtain ⟨e, he, hcond⟩ := (Option.any_eq_true _ _).mp h4
  obtain ⟨hlen, hhead⟩ := of_decide_eq_true hcond
  obtain ⟨w, hw⟩ := List.length_eq_one_iff.mp hlen
  rw [hw] at hhead
  obtain ⟨hsession, hlookup, htype, hbinder⟩ := of_decide_eq_true hhead
  refine ⟨e, w, he, hw, hsession, hlookup, htype, hbinder, fun harr => ?_⟩
  have hhome := (harr.home 28 (by decide +kernel) (by decide +kernel) ⟨7, 9⟩ ?_).1
  · rw [htype] at hhome
    cases hhome
  · rw [← hlookup]
    congr 1

/-! ### Objects in replies -/

/-- The objects of the reply `msg` of the session `s`, in the message that is written to the caller:
binders have become handles that lead to them, and another session gets none of them. -/
structure ReplyTranslated (e : ServerStep) (s : SessionId) (msg : Message) (w : Write) : Prop where
  handles : ∀ p ∈ objectPositions msg.data, objType (ofList msg.data) p = some .binder →
    objType (ofList w.message.data) p = some .handle ∧
      Bound e.after s (objHandle (ofList w.message.data) p)
        ⟨objBinder (ofList msg.data) p, objCookie (ofList msg.data) p⟩
  hidden : w.session ≠ s → ∀ p ∈ objectPositions msg.data,
    objType (ofList msg.data) p = some .binder →
      ¬ (objType (ofList w.message.data) p = some .binder ∧
        objBinder (ofList w.message.data) p = objBinder (ofList msg.data) p ∧
        objCookie (ofList w.message.data) p = objCookie (ofList msg.data) p)

/-- **Objects in replies.** In every run, a reply of the session `s` to a pending transaction is
written to the caller with its binders turned into handles of `s`, and without a binder that another
session could see, exactly when it lists no binder. -/
theorem reply_objects_iff {h : List ServerStep} {st : ServerState} (hr : Run server h st)
    {e : ServerStep} (he : e ∈ h) {s : SessionId} {msg : Message} {beyond : List UInt8}
    {record : TransactionRecord} (ha : e.action = .process s msg beyond)
    (ht : msg.type = .transactionReply)
    (hp : (e.before.sessions s).pendingTransactions.lookup msg.cookie = some record) :
    (∃ w ∈ e.emitted, w.source.isOnReply ∧ w.session = record.caller ∧
      ReplyTranslated e s msg w) ↔
      ∀ p ∈ objectPositions msg.data, objType (ofList msg.data) p ≠ some .binder := by
  have hv := hr.valid he
  constructor
  · rintro ⟨w, hw, hsource, -, htranslated⟩ p hpos hbinder
    obtain ⟨record', -, -, -, rfl⟩ := Forwards.pending ⟨⟨beyond, ha⟩, hw, hsource⟩ hv
    have hhandle := (htranslated.handles p hpos hbinder).1
    rw [hbinder] at hhandle
    cases hhandle
  · intro hnone
    have hstep : step e.before (.process s msg beyond) = some (e.after, e.emitted) := ha ▸ hv
    have hreply := step_answer hstep (by rw [ht]; rfl)
    simp only [onReply, hp] at hreply
    refine ⟨⟨record.caller, { msg with cookie := record.replyCookie }, .onReply record⟩, ?_, rfl,
      rfl, fun p hpos hbinder => absurd hbinder (hnone p hpos),
      fun _ p hpos hbinder => absurd hbinder (hnone p hpos)⟩
    rw [← (Prod.mk.inj hreply).2]
    exact mem_writeMessage.mpr (.inl rfl)

/-- Session `0` calls the context manager `1`, which replies with this object. -/
def answerScenario (object : List UInt8) : List Action :=
  [.accept, .accept, .process 1 { type := .setContextMgr } [],
    .process 0 (transactMessage 0 5 1 [] []) [],
    .process 1 { transactMessage 0 0 1 object [0] with type := .transactionReply } []]

/-- A reply with the handle `3`. -/
theorem reply_objects_handle :
    ∃ e, (history server {} (answerScenario (flatBinderObject .handle 0 3 0)))[4]? = some e ∧
      ∃ w ∈ e.emitted, w.source.isOnReply ∧ w.session = 0 ∧ ReplyTranslated e 1
        { transactMessage 0 0 1 (flatBinderObject .handle 0 3 0) [0] with
          type := .transactionReply } w := by
  set msg := { transactMessage 0 0 1 (flatBinderObject .handle 0 3 0) [0] with
    type := .transactionReply } with hmsg
  have h4 : ((history server {} (answerScenario (flatBinderObject .handle 0 3 0)))[4]?.any fun e =>
      decide (e.action = .process 1 msg [] ∧
        ((e.before.sessions 1).pendingTransactions.lookup msg.cookie).any fun record =>
          record.caller = 0)) = true := by
    rw [hmsg]
    decide +kernel
  obtain ⟨e, he, hcond⟩ := (Option.any_eq_true _ _).mp h4
  obtain ⟨ha, hpending⟩ := of_decide_eq_true hcond
  obtain ⟨record, hp, hcaller⟩ := (Option.any_eq_true _ _).mp hpending
  obtain ⟨w, hw, hsource, hsession, htranslated⟩ := (reply_objects_iff
    (path_history server (answerScenario (flatBinderObject .handle 0 3 0)) {})
    (List.mem_of_getElem? he) ha rfl hp).mpr (by rw [hmsg]; decide +kernel)
  exact ⟨e, he, w, hw, hsource, hsession.trans (of_decide_eq_true hcaller), htranslated⟩

/-- The binder `7` and the cookie `9` of session `1` are delivered to session `0`. -/
theorem binder_leaks_with_reply :
    ∃ e w, (history server {} (answerScenario (flatBinderObject .binder 0 7 9)))[4]? = some e ∧
      e.emitted = [w] ∧ w.session = 0 ∧ w.source.isOnReply ∧
      (objType (ofList w.message.data) 28 = some .binder ∧
        objBinder (ofList w.message.data) 28 = 7 ∧ objCookie (ofList w.message.data) 28 = 9) ∧
      ¬ ReplyTranslated e 1 { transactMessage 0 0 1 (flatBinderObject .binder 0 7 9) [0] with
          type := .transactionReply } w := by
  have h4 : ((history server {} (answerScenario (flatBinderObject .binder 0 7 9)))[4]?.any fun e =>
      decide (e.emitted.length = 1) && e.emitted.head?.any fun w =>
        decide (w.session = 0 ∧ w.source.isOnReply ∧
          objType (ofList w.message.data) 28 = some .binder ∧
          objBinder (ofList w.message.data) 28 = 7 ∧
          objCookie (ofList w.message.data) 28 = 9)) = true := by
    decide +kernel
  obtain ⟨e, he, hcond⟩ := (Option.any_eq_true _ _).mp h4
  obtain ⟨hlen, hhead⟩ := (Bool.and_eq_true _ _).mp hcond
  obtain ⟨w, hw⟩ := List.length_eq_one_iff.mp (of_decide_eq_true hlen)
  rw [hw] at hhead
  obtain ⟨hsession, hsource, htype, hrest⟩ := of_decide_eq_true hhead
  refine ⟨e, w, he, hw, hsession, hsource, ⟨htype, hrest⟩, fun htranslated => ?_⟩
  have hhandle := (htranslated.handles 28 (by decide +kernel) (by decide +kernel)).1
  rw [htype] at hhandle
  cases hhandle

end Binderd.Broker.Homecoming
