import Binderd.Clients.Interning
import Binderd.Clients.Recipients

/-! # Obituaries

A `RemoteObject` keeps the recipients that are linked to the death of what it stands for. A
DeadBinder message names a proxy by the id of the translator under which it was registered; the
proxy calls its recipients, and is not registered any more.

Over a whole run, with any answers of the server and with any other use of the translator, a proxy
calls its recipients at most once in its life, and then it calls those that were linked and not
unlinked since, in the order in which they were linked. If the server has refused nothing, the
proxy that the DeadBinder is for is told of it if and only if it has a recipient to call
(`obituaries_once`).

The recipients do not call the proxy back out of `OnObjectDied`. -/

namespace Binderd.Clients.Obituaries

open Binderd.Lib.Bytes Binderd.Lib.Tables Binderd.Lib.Runs
open Binderd.Wire.Streams Binderd.Wire.Messages Binderd.Wire.Transactions
open Binderd.Clients.Translator Binderd.Clients.Interning Binderd.Clients.Recipients

/-- What can happen to the proxies of a client. -/
inductive RemoteAction where
  /-- The constructor of a `RemoteObject`. It is at an address where no object is; an object that is
  among `dead_recipients_` is not destroyed, and any other one may have been. -/
  | create (obj handle : ℕ)
  | linkToDeath (obj recipient : ℕ) (answer : Recipients.Answer)
  | unlinkToDeath (obj recipient : ℕ) (answer : Recipients.Answer)
  | deadBinder (payload : List UInt8)
  /-- `TranslateOrAddObject`, for anything else. -/
  | translate (object : ℕ)

/-- What is to be seen of it. -/
inductive RemoteEvent where
  | created (obj : ℕ)
  /-- `LinkToDeath` returned `OK`. -/
  | linked (obj recipient : ℕ)
  /-- `UnlinkToDeath` returned `OK`. -/
  | unlinked (obj recipient : ℕ)
  /-- `SendObituary` called the recipients. -/
  | notified (obj : ℕ) (called : List ℕ)
deriving DecidableEq

/-- One step of the client and its proxies. -/
def remoteStep (st : ClientState) : RemoteAction → Option (ClientState × List RemoteEvent)
  | .create obj handle =>
    if obj < 2 ^ 64 ∧ ∀ r ∈ st.deadRecipients, r.proxy ≠ obj then
      some (setRemote st obj { handle := handle }, [.created obj])
    else none
  | .linkToDeath obj recipient answer =>
    let (status, st) := linkToDeath (fun _ => answer) st obj recipient
    some (st, if status = .ok 0 then [.linked obj recipient] else [])
  | .unlinkToDeath obj recipient answer =>
    let (status, st) := unlinkToDeath (fun _ => answer) st obj recipient
    some (st, if status = .ok 0 then [.unlinked obj recipient] else [])
  | .deadBinder payload =>
    match processDeadBinder st payload with
    | .error _ => some (st, [])
    | .ok (told, _, st) => some (st, told.toList.map fun x => .notified x.1 x.2)
  | .translate object =>
    some ({ st with translator := (st.translator.translateOrAddObject (object % 2 ^ 64)).2 }, [])

/-- **The remote objects of a client.** -/
def remoteObjects : Machine ClientState RemoteAction RemoteEvent := ⟨{}, remoteStep⟩

/-- The steps, as the histories record them. -/
abbrev RemoteStep := Transition ClientState RemoteAction RemoteEvent

/-! ### What has become of an object -/

/-- The recipients of `obj` after the event. -/
def subscribe (obj : ℕ) (recipients : List ℕ) : RemoteEvent → List ℕ
  | .created o => if o = obj then [] else recipients
  | .linked o recipient => if o = obj then recipients ++ [recipient] else recipients
  | .unlinked o recipient => if o = obj then recipients.erase recipient else recipients
  | .notified .. => recipients

/-- The recipients that were linked to the object, and not unlinked since. -/
def subscribers (obj : ℕ) (es : List RemoteEvent) : List ℕ := es.foldl (subscribe obj) []

/-- The lists of recipients that `SendObituary` of `obj` has called, after the event. -/
def announce (obj : ℕ) (told : List (List ℕ)) : RemoteEvent → List (List ℕ)
  | .created o => if o = obj then [] else told
  | .notified o called => if o = obj then told ++ [called] else told
  | _ => told

/-- The obituaries of the object, each with the recipients that were called. -/
def obituaries (obj : ℕ) (es : List RemoteEvent) : List (List ℕ) := es.foldl (announce obj) []

theorem subscribers_append (obj : ℕ) (es es' : List RemoteEvent) :
    subscribers obj (es ++ es') = es'.foldl (subscribe obj) (subscribers obj es) :=
  List.foldl_append

theorem obituaries_append (obj : ℕ) (es es' : List RemoteEvent) :
    obituaries obj (es ++ es') = es'.foldl (announce obj) (obituaries obj es) :=
  List.foldl_append

/-- The server does not refuse a request for this object. -/
def AnsweredOk (obj : ℕ) : RemoteAction → Prop
  | .linkToDeath o _ answer => o = obj → statusOf answer = .ok 0
  | .unlinkToDeath o _ answer => o = obj → statusOf answer = .ok 0
  | _ => True

instance (obj : ℕ) : DecidablePred (AnsweredOk obj)
  | .create .. => isTrue trivial
  | .linkToDeath o _ answer => inferInstanceAs (Decidable (o = obj → statusOf answer = .ok 0))
  | .unlinkToDeath o _ answer => inferInstanceAs (Decidable (o = obj → statusOf answer = .ok 0))
  | .deadBinder _ => isTrue trivial
  | .translate _ => isTrue trivial

/-! ### The list of the recipients -/

/-- The number of handles that the object waits for. -/
def waiting (obj : ℕ) (rs : List DeadRecipient) : ℕ :=
  (rs.map fun r => if r.proxy = obj then r.handles.length else 0).sum

/-- The entry with the id is the one of the proxy. -/
def Keyed (id proxy : ℕ) (rs : List DeadRecipient) : Prop :=
  ∀ r ∈ rs, r.HasId id ↔ r.proxy = proxy

theorem waiting_eq_zero_iff (obj : ℕ) {rs : List DeadRecipient}
    (hne : ∀ r ∈ rs, r.handles ≠ []) : waiting obj rs = 0 ↔ ∀ r ∈ rs, r.proxy ≠ obj := by
  induction rs with
  | nil => simp [waiting]
  | cons r rs ih =>
    have hr : r.handles.length ≠ 0 := fun h0 => hne r (by simp) (List.length_eq_zero_iff.mp h0)
    have ih := ih fun r hr => hne r (by simp [hr])
    simp only [waiting, List.map_cons, List.sum_cons, Nat.add_eq_zero_iff, List.forall_mem_cons]
    rw [← ih, waiting]
    by_cases hp : r.proxy = obj
    · simp [hp, hr]
    · simp [hp]

theorem Keyed.tail {id proxy : ℕ} {r : DeadRecipient} {rs : List DeadRecipient}
    (hk : Keyed id proxy (r :: rs)) : Keyed id proxy rs := fun r hr => hk r (by simp [hr])

section Lists

variable {id handle proxy : ℕ} {rs : List DeadRecipient}

theorem waiting_addHandle (hk : Keyed id proxy rs) (obj : ℕ) :
    waiting obj (addHandle id handle proxy rs) =
      waiting obj rs + if obj = proxy then 1 else 0 := by
  induction rs with
  | nil => simp [waiting, addHandle, eq_comm]
  | cons r rs ih =>
    have ih := ih hk.tail
    rw [addHandle]
    split_ifs at ih ⊢ with hid hobj hobj
    · have hp : r.proxy = obj := hobj ▸ (hk r (by simp)).mp hid
      simp [waiting, hp]
      omega
    · have hp : r.proxy ≠ obj := fun hp => hobj (hp ▸ (hk r (by simp)).mp hid)
      simp [waiting, hp]
    · simp only [waiting, List.map_cons, List.sum_cons] at ih ⊢
      omega
    · simp only [waiting, List.map_cons, List.sum_cons] at ih ⊢
      omega

theorem mem_addHandle (hk : Keyed id proxy rs) {r : DeadRecipient}
    (hr : r ∈ addHandle id handle proxy rs) :
    r ∈ rs ∨ (∃ r' ∈ rs, r'.proxy = proxy ∧ r = { r' with handles := r'.handles ++ [handle] }) ∨
      r = ⟨toInt id, proxy, [handle]⟩ := by
  induction rs with
  | nil => exact .inr (.inr (by simpa [addHandle] using hr))
  | cons r' rs ih =>
    rw [addHandle] at hr
    split_ifs at hr with hid
    · rcases List.mem_cons.mp hr with rfl | hr
      · exact .inr (.inl ⟨r', by simp, (hk r' (by simp)).mp hid, rfl⟩)
      · exact .inl (by simp [hr])
    · rcases List.mem_cons.mp hr with rfl | hr
      · exact .inl (by simp)
      · rcases ih hk.tail hr with h | ⟨r'', hmem, h⟩ | h
        · exact .inl (by simp [h])
        · exact .inr (.inl ⟨r'', by simp [hmem], h⟩)
        · exact .inr (.inr h)

theorem map_addHandle (handle : ℕ) (hk : Keyed id proxy rs) :
    (addHandle id handle proxy rs).map (·.proxy) = rs.map (·.proxy) ∨
      proxy ∉ rs.map (·.proxy) ∧
        (addHandle id handle proxy rs).map (·.proxy) = rs.map (·.proxy) ++ [proxy] := by
  induction rs with
  | nil => exact .inr (by simp [addHandle])
  | cons r rs ih =>
    rw [addHandle]
    split_ifs with hid
    · exact .inl rfl
    · have hp : proxy ≠ r.proxy := fun hp => hid ((hk r (by simp)).mpr hp.symm)
      rcases ih hk.tail with h | ⟨hnot, h⟩
      · exact .inl (by simp [h])
      · exact .inr ⟨by simpa [hp] using hnot, by simp [h]⟩

theorem nodup_addHandle (hk : Keyed id proxy rs) (hn : (rs.map (·.proxy)).Nodup) :
    ((addHandle id handle proxy rs).map (·.proxy)).Nodup := by
  rcases map_addHandle handle hk with h | ⟨hnot, h⟩
  · rwa [h]
  · rw [h, ← List.concat_eq_append]
    exact hn.concat hnot

theorem waiting_dropHandle_of_ne (hk : Keyed id proxy rs) {obj : ℕ} (hne : obj ≠ proxy) :
    waiting obj (dropHandle id handle rs) = waiting obj rs := by
  induction rs with
  | nil => rfl
  | cons r rs ih =>
    rw [dropHandle]
    split_ifs with hid
    · have hp : r.proxy ≠ obj := fun hp => hne (hp ▸ (hk r (by simp)).mp hid)
      simp only
      split_ifs
      · simp [waiting, hp]
      · simp [waiting, hp]
    · have ih := ih hk.tail
      simp only [waiting, List.map_cons, List.sum_cons] at ih ⊢
      omega

theorem waiting_dropHandle_self (hk : Keyed id proxy rs) (hmem : ∃ r ∈ rs, r.proxy = proxy)
    (hall : ∀ r ∈ rs, r.proxy = proxy → handle ∈ r.handles) :
    waiting proxy (dropHandle id handle rs) + 1 = waiting proxy rs := by
  induction rs with
  | nil => simp at hmem
  | cons r rs ih =>
    rw [dropHandle]
    split_ifs with hid
    · have hp := (hk r (by simp)).mp hid
      have hlen := List.length_erase_of_mem (hall r (by simp) hp)
      have hpos := List.length_pos_of_mem (hall r (by simp) hp)
      simp only
      split_ifs with h0
      · simp only [waiting, List.map_cons, List.sum_cons, if_pos hp]
        omega
      · simp only [waiting, List.map_cons, List.sum_cons, if_pos hp]
        omega
    · have hp : r.proxy ≠ proxy := fun hp => hid ((hk r (by simp)).mpr hp)
      have hmem : ∃ r ∈ rs, r.proxy = proxy := by simpa [hp] using hmem
      have ih := ih hk.tail hmem fun r hr => hall r (by simp [hr])
      simp only [waiting, List.map_cons, List.sum_cons] at ih ⊢
      omega

theorem mem_dropHandle (hk : Keyed id proxy rs) {r : DeadRecipient}
    (hr : r ∈ dropHandle id handle rs) :
    r ∈ rs ∨ ∃ r' ∈ rs, r'.proxy = proxy ∧ r.handles ≠ [] ∧
      r = { r' with handles := r'.handles.erase handle } := by
  induction rs with
  | nil => cases hr
  | cons r' rs ih =>
    rw [dropHandle] at hr
    split_ifs at hr with hid
    · simp only at hr
      split_ifs at hr with h0
      · exact .inl (by simp [hr])
      · rcases List.mem_cons.mp hr with rfl | hr
        · exact .inr ⟨r', by simp, (hk r' (by simp)).mp hid, by simpa using h0, rfl⟩
        · exact .inl (by simp [hr])
    · rcases List.mem_cons.mp hr with rfl | hr
      · exact .inl (by simp)
      · rcases ih hk.tail hr with h | ⟨r'', hmem, h⟩
        · exact .inl (by simp [h])
        · exact .inr ⟨r'', by simp [hmem], h⟩

theorem map_dropHandle_sublist (id handle : ℕ) (rs : List DeadRecipient) :
    ((dropHandle id handle rs).map (·.proxy)).Sublist (rs.map (·.proxy)) := by
  induction rs with
  | nil => exact .slnil
  | cons r rs ih =>
    rw [dropHandle]
    split_ifs with hid
    · simp only
      split_ifs
      · simp
      · simp
    · exact ih.cons_cons _

theorem waiting_eraseP (hk : Keyed id proxy rs) {obj : ℕ} (hne : obj ≠ proxy) :
    waiting obj (rs.eraseP fun r => r.HasId id) = waiting obj rs := by
  induction rs with
  | nil => rfl
  | cons r rs ih =>
    by_cases hid : r.HasId id
    · have hp : r.proxy ≠ obj := fun hp => hne (hp ▸ (hk r (by simp)).mp hid)
      simp [waiting, hid, hp]
    · have ih := ih hk.tail
      simp only [hid, decide_false, Bool.false_eq_true, not_false_eq_true,
        List.eraseP_cons_of_neg, waiting, List.map_cons, List.sum_cons] at ih ⊢
      omega

theorem proxy_ne_of_mem_eraseP (hk : Keyed id proxy rs) (hn : (rs.map (·.proxy)).Nodup)
    {r : DeadRecipient} (hr : r ∈ rs.eraseP fun r => r.HasId id) : r.proxy ≠ proxy := by
  induction rs with
  | nil => cases hr
  | cons r' rs ih =>
    rw [List.map_cons, List.nodup_cons] at hn
    by_cases hid : r'.HasId id
    · rw [List.eraseP_cons_of_pos (by simpa using hid)] at hr
      intro hp
      exact hn.1 (List.mem_map.mpr ⟨r, hr, hp.trans ((hk r' (by simp)).mp hid).symm⟩)
    · rw [List.eraseP_cons_of_neg (by simpa using hid)] at hr
      rcases List.mem_cons.mp hr with rfl | hr
      · exact fun hp => hid ((hk r (by simp)).mpr hp)
      · exact ih hk.tail hn.2 hr

end Lists

/-! ### What a step does -/

/-- The client when it has asked for a death notification, whatever the answer is. -/
def requested (st : ClientState) (handle proxy : ℕ) : ClientState :=
  { st with
    translator := (st.translator.translateOrAddObject proxy).2
    deadRecipients :=
      addHandle (st.translator.translateOrAddObject proxy).1 handle proxy st.deadRecipients }

/-- The client when it has called a death notification off. -/
def cleared (st : ClientState) (handle proxy : ℕ) : ClientState :=
  { st with
    deadRecipients := dropHandle (st.translator.translateObject proxy) handle st.deadRecipients }

/-- **What a step does.** -/
inductive RemoteEffect (st : ClientState) :
    RemoteAction → ClientState → List RemoteEvent → Prop
  | created {obj handle} : obj < 2 ^ 64 → (∀ r ∈ st.deadRecipients, r.proxy ≠ obj) →
      RemoteEffect st (.create obj handle) (setRemote st obj { handle := handle }) [.created obj]
  | idle {a} : RemoteEffect st a st []
  | requested {obj recipient answer r} : st.remotes obj = some r → r.obituariesSent = false →
      statusOf answer ≠ .ok 0 →
      RemoteEffect st (.linkToDeath obj recipient answer) (requested st r.handle obj) []
  | linked {obj recipient answer r} : st.remotes obj = some r → r.obituariesSent = false →
      RemoteEffect st (.linkToDeath obj recipient answer)
        (setRemote (requested st r.handle obj) obj
          { r with obituaries := r.obituaries ++ [recipient] })
        [.linked obj recipient]
  | cleared {obj recipient answer r d} : st.remotes obj = some r → r.obituariesSent = false →
      d ∈ st.deadRecipients → d.HasId (st.translator.translateObject obj) →
      statusOf answer ≠ .ok 0 →
      RemoteEffect st (.unlinkToDeath obj recipient answer) (cleared st r.handle obj) []
  | unlinked {obj recipient answer r d} : st.remotes obj = some r → r.obituariesSent = false →
      recipient ∈ r.obituaries → d ∈ st.deadRecipients →
      d.HasId (st.translator.translateObject obj) →
      RemoteEffect st (.unlinkToDeath obj recipient answer)
        (setRemote (cleared st r.handle obj) obj
          { r with obituaries := r.obituaries.erase recipient })
        [.unlinked obj recipient]
  | notified {payload id d r} : d ∈ st.deadRecipients → d.HasId id →
      st.remotes d.proxy = some r →
      RemoteEffect st (.deadBinder payload)
        { setRemote st d.proxy (sendObituary r).2 with
          deadRecipients := st.deadRecipients.eraseP fun r => r.HasId id }
        [.notified d.proxy (sendObituary r).1]
  | translated {object} : RemoteEffect st (.translate object)
      { st with translator := (st.translator.translateOrAddObject (object % 2 ^ 64)).2 } []

theorem onOk_eq (f : ClientState → ClientState) (status : Except Exn ℤ) (st : ClientState) :
    onOk f (status, st) = (status, if status = .ok 0 then f st else st) := by
  by_cases h : status = .ok 0
  · subst h
    rfl
  · rw [onOk_of_ne h, if_neg h]

theorem linkToDeath_effect {st st' : ClientState} {obj recipient : ℕ} {answer : Recipients.Answer}
    {es : List RemoteEvent}
    (h : remoteStep st (.linkToDeath obj recipient answer) = some (st', es)) :
    RemoteEffect st (.linkToDeath obj recipient answer) st' es := by
  simp only [remoteStep, linkToDeath] at h
  cases hr : st.remotes obj with
  | none =>
    simp only [hr] at h
    cases h
    exact .idle
  | some r =>
    simp only [hr] at h
    by_cases hsent : r.obituariesSent = true
    · rw [if_pos hsent] at h
      cases h
      exact .idle
    · rw [if_neg hsent, requestDeathNotification, onOk_eq] at h
      have hsent := Bool.eq_false_iff.mpr hsent
      by_cases hs : statusOf answer = .ok 0
      · simp only [if_pos hs] at h
        cases h
        exact .linked hr hsent
      · simp only [if_neg hs] at h
        cases h
        exact .requested hr hsent hs

theorem unlinkToDeath_effect {st st' : ClientState} {obj recipient : ℕ}
    {answer : Recipients.Answer} {es : List RemoteEvent}
    (h : remoteStep st (.unlinkToDeath obj recipient answer) = some (st', es)) :
    RemoteEffect st (.unlinkToDeath obj recipient answer) st' es := by
  simp only [remoteStep, unlinkToDeath] at h
  cases hr : st.remotes obj with
  | none =>
    simp only [hr] at h
    cases h
    exact .idle
  | some r =>
    simp only [hr] at h
    by_cases hsent : r.obituariesSent = true
    · rw [if_pos hsent] at h
      cases h
      exact .idle
    rw [if_neg hsent] at h
    have hsent := Bool.eq_false_iff.mpr hsent
    by_cases hmem : recipient ∈ r.obituaries
    · rw [if_neg (not_not_intro hmem), clearDeathNotification] at h
      by_cases hid : st.translator.translateObject obj = ObjectTranslator.invalid
      · simp only [if_pos hid] at h
        cases h
        exact .idle
      · simp only [if_neg hid] at h
        cases hd : st.deadRecipients.find? fun r =>
            r.HasId (st.translator.translateObject obj) with
        | none =>
          simp only [hd] at h
          cases h
          exact .idle
        | some d =>
          have hdmem := List.mem_of_find?_eq_some hd
          have hdid : d.HasId (st.translator.translateObject obj) := by
            simpa using List.find?_some hd
          simp only [hd, onOk_eq] at h
          by_cases hs : statusOf answer = .ok 0
          · simp only [if_pos hs] at h
            cases h
            exact .unlinked hr hsent hmem hdmem hdid
          · simp only [if_neg hs] at h
            cases h
            exact .cleared hr hsent hdmem hdid hs
    · rw [if_pos hmem] at h
      cases h
      exact .idle

theorem notifyRecipient_effect (st : ClientState) (payload : List UInt8) (id : ℕ) :
    RemoteEffect st (.deadBinder payload) (notifyRecipient st id).2.2
      ((notifyRecipient st id).1.toList.map fun x => .notified x.1 x.2) := by
  unfold notifyRecipient
  cases hd : st.deadRecipients.find? fun r => r.HasId id with
  | none => exact .idle
  | some d =>
    cases hr : st.remotes d.proxy with
    | none =>
      simp only [hr]
      exact .idle
    | some r =>
      simp only [hr]
      exact .notified (List.mem_of_find?_eq_some hd) (by simpa using List.find?_some hd) hr

theorem remoteStep_effect {st st' : ClientState} {a : RemoteAction} {es : List RemoteEvent}
    (h : remoteStep st a = some (st', es)) : RemoteEffect st a st' es := by
  cases a with
  | create obj handle =>
    simp only [remoteStep, Option.ite_none_right_eq_some] at h
    obtain ⟨⟨hobj, hfree⟩, h⟩ := h
    cases h
    exact .created hobj hfree
  | linkToDeath obj recipient answer => exact linkToDeath_effect h
  | unlinkToDeath obj recipient answer => exact unlinkToDeath_effect h
  | deadBinder payload =>
    simp only [remoteStep] at h
    cases hp : processDeadBinder st payload with
    | error e =>
      rw [hp] at h
      cases h
      exact .idle
    | ok x =>
      rw [hp] at h
      cases h
      simp only [processDeadBinder, bind, Except.bind, pure, Except.pure] at hp
      split at hp
      · cases hp
      · split at hp
        · cases hp
        · cases hp
          exact notifyRecipient_effect st payload _
  | translate object =>
    cases h
    exact .translated

/-! ### The invariant -/

/-- An entry of `dead_recipients_` is the one of a remote object that has sent no obituary. -/
structure Registered (st : ClientState) (d : DeadRecipient) : Prop where
  id : ∃ id : ℕ, d.id = id ∧ st.translator.objects.lookup id = some d.proxy
  handles : d.handles ≠ []
  object : ∃ r, st.remotes d.proxy = some r ∧ r.obituariesSent = false ∧
    ∀ k ∈ d.handles, k = r.handle

/-- What an object knows agrees with what has happened to it; `n` is the number of handles that it
waits for. -/
structure Faithful (es : List RemoteEvent) (ok : Prop) (n obj : ℕ) (r : RemoteObject) : Prop where
  width : obj < 2 ^ 64
  subscribed : r.obituaries = subscribers obj es
  told : obituaries obj es = if r.obituariesSent then [r.obituaries] else []
  waiting : ok → r.obituariesSent = false → n = r.obituaries.length

/-- `dead_recipients_` has one entry for each object that waits. -/
structure Listed (st : ClientState) : Prop where
  bijection : ∃ cs, Bijection cs st.translator
  registered : ∀ d ∈ st.deadRecipients, Registered st d
  apart : (st.deadRecipients.map (·.proxy)).Nodup

/-- What every run keeps. -/
structure Kept (es : List RemoteEvent) (ok : ℕ → Prop) (st : ClientState) : Prop where
  listed : Listed st
  faithful : ∀ obj r, st.remotes obj = some r →
    Faithful es (ok obj) (waiting obj st.deadRecipients) obj r

/-- The proxy that the event is about. -/
def RemoteEvent.obj : RemoteEvent → ℕ
  | .created obj => obj
  | .linked obj _ => obj
  | .unlinked obj _ => obj
  | .notified obj _ => obj

theorem subscribers_of_other {obj : ℕ} {es ws : List RemoteEvent} (h : ∀ e ∈ ws, e.obj ≠ obj) :
    subscribers obj (es ++ ws) = subscribers obj es := by
  rw [subscribers_append]
  induction ws with
  | nil => rfl
  | cons e ws ih =>
    have he : subscribe obj (subscribers obj es) e = subscribers obj es := by
      have hne := h e (by simp)
      cases e <;> simp_all [subscribe, RemoteEvent.obj]
    rw [List.foldl_cons, he]
    exact ih fun e he => h e (by simp [he])

theorem obituaries_of_other {obj : ℕ} {es ws : List RemoteEvent} (h : ∀ e ∈ ws, e.obj ≠ obj) :
    obituaries obj (es ++ ws) = obituaries obj es := by
  rw [obituaries_append]
  induction ws with
  | nil => rfl
  | cons e ws ih =>
    have he : announce obj (obituaries obj es) e = obituaries obj es := by
      have hne := h e (by simp)
      cases e <;> simp_all [announce, RemoteEvent.obj]
    rw [List.foldl_cons, he]
    exact ih fun e he => h e (by simp [he])

theorem Faithful.other {es ws : List RemoteEvent} {ok ok' : Prop} {n n' obj : ℕ}
    {r : RemoteObject} (h : Faithful es ok n obj r) (hws : ∀ e ∈ ws, e.obj ≠ obj)
    (hok : ok' → ok) (hn : n' = n) : Faithful (es ++ ws) ok' n' obj r where
  width := h.width
  subscribed := (subscribers_of_other hws).symm ▸ h.subscribed
  told := (obituaries_of_other hws).symm ▸ h.told
  waiting hok' hsent := hn.trans (h.waiting (hok hok') hsent)

section Listed

variable {st : ClientState}

theorem Registered.hasId_iff {d : DeadRecipient} (h : Registered st d) {cs : List Interning.Call}
    (hb : Bijection cs st.translator) (hlt : st.translator.nextObjectId ≤ 2 ^ 31) {id : ℕ} :
    d.HasId id ↔ st.translator.objects.lookup id = some d.proxy := by
  obtain ⟨id', hid, hl'⟩ := h.id
  have hid' := (hb.numbered.ids id' (mem_of_lookup hl')).2
  have hval : (d.id % 2 ^ 64).toNat = id' := by
    rw [hid]
    omega
  rw [DeadRecipient.HasId, hval]
  exact ⟨fun h => h ▸ hl', fun hl => hb.injective id' id _ hl' hl⟩

theorem Registered.congr {st' : ClientState} {d : DeadRecipient} (h : Registered st d)
    (ht : st'.translator = st.translator) (hr : st'.remotes = st.remotes) : Registered st' d := by
  obtain ⟨hid, hne, hobject⟩ := h
  exact ⟨ht ▸ hid, hne, hr ▸ hobject⟩

theorem Listed.hasId_iff (hs : Listed st) (hlt : st.translator.nextObjectId ≤ 2 ^ 31)
    {d : DeadRecipient} (hd : d ∈ st.deadRecipients) {id : ℕ} :
    d.HasId id ↔ st.translator.objects.lookup id = some d.proxy := by
  obtain ⟨cs, hb⟩ := hs.bijection
  exact (hs.registered d hd).hasId_iff hb hlt

theorem Listed.keyed (hs : Listed st) (hlt : st.translator.nextObjectId ≤ 2 ^ 31) {id proxy : ℕ}
    (hl : st.translator.objects.lookup id = some proxy) : Keyed id proxy st.deadRecipients := by
  intro d hd
  rw [hs.hasId_iff hlt hd, hl, Option.some.injEq, eq_comm]

theorem Listed.translate (hs : Listed st) {object : ℕ} (ho : object < 2 ^ 64)
    (hlt : (st.translator.translateOrAddObject object).2.nextObjectId ≤ 2 ^ 64) :
    Listed { st with translator := (st.translator.translateOrAddObject object).2 } where
  bijection := by
    obtain ⟨cs, hb⟩ := hs.bijection
    exact ⟨_, bijection_call hb ho hlt⟩
  registered d hd := by
    obtain ⟨⟨id, hid, hl⟩, hne, hobject⟩ := hs.registered d hd
    exact ⟨⟨id, hid, ObjectTranslator.lookup_kept hl object⟩, hne, hobject⟩
  apart := hs.apart

theorem remotes_setRemote (st : ClientState) (obj : ℕ) (r : RemoteObject) (obj' : ℕ) :
    (setRemote st obj r).remotes obj' = if obj' = obj then some r else st.remotes obj' :=
  Function.update_apply _ _ _ _

/-- An object may be changed if it waits for the same handle, or if it does not wait. -/
theorem Listed.setRemote (hs : Listed st) {obj : ℕ} {r : RemoteObject}
    (h : (∀ d ∈ st.deadRecipients, d.proxy ≠ obj) ∨
      ∃ r', st.remotes obj = some r' ∧ r.handle = r'.handle ∧ r.obituariesSent = false) :
    Listed (setRemote st obj r) where
  bijection := hs.bijection
  registered d hd := by
    obtain ⟨hid, hne, r₀, hr₀, hsent, hall⟩ := hs.registered d hd
    refine ⟨hid, hne, ?_⟩
    by_cases hp : d.proxy = obj
    · rcases h with h | ⟨r', hr', hhandle, hfalse⟩
      · exact absurd hp (h d hd)
      · rw [hp, hr', Option.some.injEq] at hr₀
        subst hr₀
        exact ⟨r, by rw [remotes_setRemote, if_pos hp], hfalse, hhandle ▸ hall⟩
    · exact ⟨r₀, by rw [remotes_setRemote, if_neg hp, hr₀], hsent, hall⟩
  apart := hs.apart

variable {obj : ℕ} {r : RemoteObject} (hr : st.remotes obj = some r)

include hr

theorem Listed.request (hs : Listed st) (hobj : obj < 2 ^ 64) (hsent : r.obituariesSent = false)
    (hlt : (requested st r.handle obj).translator.nextObjectId ≤ 2 ^ 31) :
    Listed (requested st r.handle obj) ∧ ∀ obj',
      waiting obj' (requested st r.handle obj).deadRecipients =
        waiting obj' st.deadRecipients + if obj' = obj then 1 else 0 := by
  have hs' := hs.translate hobj (hlt.trans (Nat.pow_le_pow_right (by omega) (by omega)))
  obtain ⟨cs, hb⟩ := hs.bijection
  obtain ⟨cs', hb'⟩ := hs'.bijection
  have hl : (requested st r.handle obj).translator.objects.lookup
      (st.translator.translateOrAddObject obj).1 = some obj := by
    by_cases hnext : st.translator.nextObjectId < 2 ^ 64
    · exact ObjectTranslator.lookup_translateOrAddObject hb.numbered hnext hobj
    · have hmono := nextObjectId_call st.translator obj
      change _ ≤ 2 ^ 31 at hlt
      simp only [requested] at hlt
      omega
  have hk := hs'.keyed hlt hl
  refine ⟨⟨hs'.bijection, fun d hd => ?_, nodup_addHandle hk hs.apart⟩, waiting_addHandle hk⟩
  rcases mem_addHandle hk hd with hd | ⟨d', hd', hp, rfl⟩ | rfl
  · exact (hs'.registered d hd).congr rfl rfl
  · obtain ⟨hid, hne, r₀, hr₀, hfalse, hall⟩ := hs'.registered d' hd'
    have hrr : r = r₀ := Option.some.inj (hr.symm.trans (hp ▸ hr₀))
    refine ⟨hid, by simp, r₀, hr₀, hfalse, fun k hk => ?_⟩
    rcases List.mem_append.mp hk with hk | hk
    · exact hall k hk
    · rw [List.mem_singleton.mp hk, hrr]
  · have hid := (hb'.numbered.ids _ (mem_of_lookup hl)).2
    refine ⟨⟨_, ?_, hl⟩, by simp, r, hr, hsent, by simp⟩
    have hid : (st.translator.translateOrAddObject obj).1 < 2 ^ 31 := hid.trans_le hlt
    simp only [toInt]
    split_ifs <;> omega

theorem Listed.clear (hs : Listed st) (hlt : st.translator.nextObjectId ≤ 2 ^ 31)
    {d : DeadRecipient} (hd : d ∈ st.deadRecipients)
    (hid : d.HasId (st.translator.translateObject obj)) :
    Listed (cleared st r.handle obj) ∧ ∀ obj',
      waiting obj' (cleared st r.handle obj).deadRecipients + (if obj' = obj then 1 else 0) =
        waiting obj' st.deadRecipients := by
  have hl : st.translator.objects.lookup (st.translator.translateObject obj) = some obj := by
    refine ObjectTranslator.lookup_translateObject fun h0 => ?_
    obtain ⟨cs, hb⟩ := hs.bijection
    rw [h0, hs.hasId_iff hlt hd] at hid
    exact absurd (hb.numbered.ids _ (mem_of_lookup hid)).1 (lt_irrefl 0)
  have hk := hs.keyed hlt hl
  have hall : ∀ d ∈ st.deadRecipients, d.proxy = obj → r.handle ∈ d.handles := by
    intro d hd hp
    obtain ⟨-, hne, r₀, hr₀, -, hall⟩ := hs.registered d hd
    obtain ⟨k, hmem⟩ := List.exists_mem_of_ne_nil _ hne
    rw [hp, hr, Option.some.injEq] at hr₀
    rw [hr₀, ← hall k hmem]
    exact hmem
  refine ⟨⟨hs.bijection, fun d' hd' => ?_, ?_⟩, fun obj' => ?_⟩
  · rcases mem_dropHandle hk hd' with hd' | ⟨d₀, hd₀, -, hne, rfl⟩
    · exact (hs.registered d' hd').congr rfl rfl
    · obtain ⟨hid, -, r₀, hr₀, hfalse, hall⟩ := hs.registered d₀ hd₀
      exact ⟨hid, hne, r₀, hr₀, hfalse, fun k hk => hall k (List.mem_of_mem_erase hk)⟩
  · exact hs.apart.sublist (map_dropHandle_sublist _ _ _)
  · split_ifs with hobj
    · subst hobj
      exact waiting_dropHandle_self hk ⟨d, hd, (hk d hd).mp hid⟩ hall
    · exact waiting_dropHandle_of_ne hk hobj

end Listed

/-- A DeadBinder strikes the entry with the id off the list. -/
theorem Listed.strike {st : ClientState} (hs : Listed st)
    (hlt : st.translator.nextObjectId ≤ 2 ^ 31) {d : DeadRecipient} (hd : d ∈ st.deadRecipients)
    {id : ℕ} (hid : d.HasId id) :
    Listed { st with deadRecipients := st.deadRecipients.eraseP fun r => r.HasId id } ∧
      (∀ d' ∈ st.deadRecipients.eraseP fun r => r.HasId id, d'.proxy ≠ d.proxy) ∧
      ∀ obj, obj ≠ d.proxy → waiting obj (st.deadRecipients.eraseP fun r => r.HasId id) =
        waiting obj st.deadRecipients := by
  have hk := hs.keyed hlt ((hs.hasId_iff hlt hd).mp hid)
  refine ⟨⟨hs.bijection, fun d' hd' => ?_, ?_⟩, ?_, fun obj => waiting_eraseP hk⟩
  · exact (hs.registered d' (List.mem_of_mem_eraseP hd')).congr rfl rfl
  · exact hs.apart.sublist (List.eraseP_sublist.map _)
  · exact fun d' hd' => proxy_ne_of_mem_eraseP hk hs.apart hd'

theorem next_le_of_remoteEffect {st st' : ClientState} {a : RemoteAction} {ws : List RemoteEvent}
    (h : RemoteEffect st a st' ws) : st.translator.nextObjectId ≤ st'.translator.nextObjectId := by
  have hmono : ∀ object, st.translator.nextObjectId ≤
      (st.translator.translateOrAddObject object).2.nextObjectId := by
    intro object
    rw [nextObjectId_call]
    exact Nat.le_add_right _ _
  cases h with
  | requested _ _ _ => exact hmono _
  | linked _ _ => exact hmono _
  | translated => exact hmono _
  | _ => exact le_rfl

/-! ### Steps -/

section Step

variable {es : List RemoteEvent} {ok : ℕ → Prop} {st : ClientState}

theorem Kept.create (hk : Kept es ok st) {obj handle : ℕ} (hobj : obj < 2 ^ 64)
    (hfree : ∀ d ∈ st.deadRecipients, d.proxy ≠ obj) {ok' : ℕ → Prop} (hok : ∀ o, ok' o → ok o) :
    Kept (es ++ [.created obj]) ok' (setRemote st obj { handle := handle }) where
  listed := hk.listed.setRemote (.inl hfree)
  faithful o r hr := by
    rw [remotes_setRemote] at hr
    split_ifs at hr with ho
    · cases hr
      subst ho
      refine ⟨hobj, ?_, ?_, fun _ _ => ?_⟩
      · simp [subscribers_append, subscribe]
      · simp [obituaries_append, announce]
      · exact (waiting_eq_zero_iff _ fun d hd => (hk.listed.registered d hd).handles).mpr hfree
    · exact (hk.faithful o r hr).other (by simpa [RemoteEvent.obj] using Ne.symm ho) (hok o) rfl

variable {obj recipient : ℕ} {r : RemoteObject} (hr : st.remotes obj = some r)
  (hsent : r.obituariesSent = false)

include hr hsent

theorem Kept.refused (hk : Kept es ok st)
    (hlt : (requested st r.handle obj).translator.nextObjectId ≤ 2 ^ 31) {ok' : ℕ → Prop}
    (hok : ∀ o, ok' o → ok o) (hnot : ¬ ok' obj) : Kept es ok' (requested st r.handle obj) := by
  have hf := hk.faithful obj r hr
  obtain ⟨hlisted, hwaiting⟩ := hk.listed.request hr hf.width hsent hlt
  refine ⟨hlisted, fun o r' hr' => ?_⟩
  have hf := hk.faithful o r' hr'
  by_cases ho : o = obj
  · exact ⟨hf.width, hf.subscribed, hf.told, fun h => absurd (ho ▸ h) hnot⟩
  · have hn := hwaiting o
    rw [if_neg ho, Nat.add_zero] at hn
    exact ⟨hf.width, hf.subscribed, hf.told, fun h hs => hn.trans (hf.waiting (hok o h) hs)⟩

theorem Kept.link (hk : Kept es ok st)
    (hlt : (requested st r.handle obj).translator.nextObjectId ≤ 2 ^ 31) {ok' : ℕ → Prop}
    (hok : ∀ o, ok' o → ok o) : Kept (es ++ [.linked obj recipient]) ok'
      (setRemote (requested st r.handle obj) obj
        { r with obituaries := r.obituaries ++ [recipient] }) := by
  have hf := hk.faithful obj r hr
  obtain ⟨hlisted, hwaiting⟩ := hk.listed.request hr hf.width hsent hlt
  refine ⟨hlisted.setRemote (.inr ⟨r, hr, rfl, hsent⟩), fun o r' hr' => ?_⟩
  have hn := hwaiting o
  rw [remotes_setRemote] at hr'
  split_ifs at hr' hn with ho
  · cases hr'
    subst ho
    refine ⟨hf.width, ?_, ?_, fun h hs => ?_⟩
    · simp [subscribers_append, subscribe, ← hf.subscribed]
    · simpa [obituaries_append, announce, hsent] using hf.told
    · have hlen := hf.waiting (hok o h) hsent
      simp only [List.length_append, List.length_singleton]
      exact hn.trans (congrArg (· + 1) hlen)
  · exact (hk.faithful o r' hr').other (by simpa [RemoteEvent.obj] using Ne.symm ho) (hok o) hn

variable (hlt : st.translator.nextObjectId ≤ 2 ^ 31) {d : DeadRecipient}
  (hd : d ∈ st.deadRecipients) (hid : d.HasId (st.translator.translateObject obj))

include hlt hd hid

omit hsent in
theorem Kept.notCleared (hk : Kept es ok st) {ok' : ℕ → Prop} (hok : ∀ o, ok' o → ok o)
    (hnot : ¬ ok' obj) : Kept es ok' (cleared st r.handle obj) := by
  obtain ⟨hlisted, hwaiting⟩ := hk.listed.clear hr hlt hd hid
  refine ⟨hlisted, fun o r' hr' => ?_⟩
  have hf := hk.faithful o r' hr'
  by_cases ho : o = obj
  · exact ⟨hf.width, hf.subscribed, hf.told, fun h => absurd (ho ▸ h) hnot⟩
  · have hn := hwaiting o
    rw [if_neg ho, Nat.add_zero] at hn
    exact ⟨hf.width, hf.subscribed, hf.told, fun h hs => hn.trans (hf.waiting (hok o h) hs)⟩

theorem Kept.unlink (hk : Kept es ok st) (hmem : recipient ∈ r.obituaries) {ok' : ℕ → Prop}
    (hok : ∀ o, ok' o → ok o) : Kept (es ++ [.unlinked obj recipient]) ok'
      (setRemote (cleared st r.handle obj) obj
        { r with obituaries := r.obituaries.erase recipient }) := by
  have hf := hk.faithful obj r hr
  obtain ⟨hlisted, hwaiting⟩ := hk.listed.clear hr hlt hd hid
  refine ⟨hlisted.setRemote (.inr ⟨r, hr, rfl, hsent⟩), fun o r' hr' => ?_⟩
  have hn := hwaiting o
  rw [remotes_setRemote] at hr'
  split_ifs at hr' hn with ho
  · cases hr'
    subst ho
    refine ⟨hf.width, ?_, ?_, fun h hs => ?_⟩
    · simp [subscribers_append, subscribe, ← hf.subscribed]
    · simpa [obituaries_append, announce, hsent] using hf.told
    · have hlen := hf.waiting (hok o h) hsent
      have herase := List.length_erase_of_mem hmem
      have hpos := List.length_pos_of_mem hmem
      change waiting o (cleared st r.handle o).deadRecipients =
        (r.obituaries.erase recipient).length
      omega
  · exact (hk.faithful o r' hr').other (by simpa [RemoteEvent.obj] using Ne.symm ho) (hok o) hn

end Step

/-- The object that a DeadBinder is for calls its recipients. -/
theorem Kept.notify {es : List RemoteEvent} {ok : ℕ → Prop} {st : ClientState} (hk : Kept es ok st)
    (hlt : st.translator.nextObjectId ≤ 2 ^ 31) {d : DeadRecipient} (hd : d ∈ st.deadRecipients)
    {id : ℕ} (hid : d.HasId id) {r : RemoteObject} (hr : st.remotes d.proxy = some r)
    {ok' : ℕ → Prop} (hok : ∀ o, ok' o → ok o) :
    Kept (es ++ [.notified d.proxy (sendObituary r).1]) ok'
      { setRemote st d.proxy (sendObituary r).2 with
        deadRecipients := st.deadRecipients.eraseP fun r => r.HasId id } := by
  obtain ⟨-, -, r₀, hr₀, hsent, -⟩ := hk.listed.registered d hd
  have hsent : r.obituariesSent = false := by
    rwa [Option.some.inj (hr.symm.trans hr₀)]
  have hsend : sendObituary r = (r.obituaries, { r with obituariesSent := true }) := by
    simp [sendObituary, hsent]
  have hf := hk.faithful d.proxy r hr
  obtain ⟨hlisted, hne, hwaiting⟩ := hk.listed.strike hlt hd hid
  rw [hsend]
  refine ⟨hlisted.setRemote (.inl hne), fun o r' hr' => ?_⟩
  rw [show ∀ x, ClientState.remotes { setRemote st d.proxy x with
    deadRecipients := st.deadRecipients.eraseP fun r => r.HasId id } o = _ from
      fun x => remotes_setRemote st d.proxy x o] at hr'
  split_ifs at hr' with ho
  · cases hr'
    subst ho
    refine ⟨hf.width, ?_, ?_, fun _ hs => by cases hs⟩
    · simpa [subscribers_append, subscribe] using hf.subscribed
    · have htold := hf.told
      simp only [hsent, Bool.false_eq_true, if_false] at htold
      simp [obituaries_append, announce, htold]
  · exact (hk.faithful o r' hr').other (by simpa [RemoteEvent.obj] using Ne.symm ho) (hok o)
      (hwaiting o ho)

/-- **One step.** -/
theorem Kept.step {es : List RemoteEvent} {ok : ℕ → Prop} {st : ClientState} (hk : Kept es ok st)
    {a : RemoteAction} {st' : ClientState} {ws : List RemoteEvent} (h : RemoteEffect st a st' ws)
    (hlt : st'.translator.nextObjectId ≤ 2 ^ 31) :
    Kept (es ++ ws) (fun obj => ok obj ∧ AnsweredOk obj a) st' := by
  have hlt₀ := (next_le_of_remoteEffect h).trans hlt
  have hok : ∀ o, (ok o ∧ AnsweredOk o a) → ok o := fun o h => h.1
  cases h with
  | created hobj hfree => exact hk.create hobj hfree hok
  | idle =>
    rw [List.append_nil]
    refine ⟨hk.listed, fun o r hr => ?_⟩
    have hother := (hk.faithful o r hr).other
      (List.forall_mem_nil fun e : RemoteEvent => e.obj ≠ o) (hok o) rfl
    rwa [List.append_nil] at hother
  | requested hr hsent hne =>
    rw [List.append_nil]
    exact hk.refused hr hsent hlt hok fun h => hne (h.2 rfl)
  | linked hr hsent => exact hk.link hr hsent hlt hok
  | cleared hr hsent hd hid hne =>
    rw [List.append_nil]
    exact hk.notCleared hr hlt₀ hd hid hok fun h => hne (h.2 rfl)
  | unlinked hr hsent hmem hd hid => exact hk.unlink hr hsent hlt₀ hd hid hmem hok
  | notified hd hid hr => exact hk.notify hlt₀ hd hid hr hok
  | translated =>
    rw [List.append_nil]
    have htr := hk.listed.translate (Nat.mod_lt _ (by omega))
      (hlt.trans (Nat.pow_le_pow_right (by omega) (by omega)))
    refine ⟨htr, fun o r hr => ?_⟩
    have hother := (hk.faithful o r hr).other
      (List.forall_mem_nil fun e : RemoteEvent => e.obj ≠ o) (hok o) rfl
    rwa [List.append_nil] at hother

/-! ### Runs -/

theorem kept_of_run {h : List RemoteStep} {st : ClientState} (hr : Run remoteObjects h st)
    (hlt : st.translator.nextObjectId ≤ 2 ^ 31) :
    Kept (outputs h) (fun obj => ∀ e ∈ h, AnsweredOk obj e.action) st := by
  induction hr with
  | nil =>
    refine ⟨⟨⟨[], bijection_initial⟩, fun d hd => ?_, .nil⟩, fun obj r hr => ?_⟩
    · cases hd
    · cases hr
  | @snoc h e _ hv ih =>
    have heffect := remoteStep_effect hv
    have hk := (ih ((next_le_of_remoteEffect heffect).trans hlt)).step heffect hlt
    simpa [outputs, or_imp, forall_and] using hk

/-- The low byte of the id is read. -/
theorem notified_of_ok {st : ClientState} {payload : List UInt8} {told : Option (ℕ × List ℕ)}
    (h : notified st payload = .ok told) : told = (notifyRecipient st (byteOf payload 8)).1 := by
  simp only [notified, processDeadBinder, BinaryReader.readUint64, bind, Except.bind] at h
  split at h
  · cases h
  · next x hx =>
    obtain ⟨n, r⟩ := x
    obtain ⟨-, -, rfl⟩ := BinaryReader.readValue_ok hx
    split at h
    · cases h
    · next y hy =>
      obtain ⟨id, r⟩ := y
      obtain ⟨-, rfl, -⟩ := BinaryReader.readValue_ok hy
      cases h
      rfl

theorem notified_deadBinder (st : ClientState) (handle id : ℕ) :
    notified st (deadBinder handle id) = .ok (notifyRecipient st (id % 256)).1 := by
  have h1 := readValue_leBytes_mod ⟨deadBinder handle id, 0, true⟩ 8 handle [] (leBytes 8 id) rfl
    rfl (by omega)
  have h2 := readValue_leBytes_mod ⟨deadBinder handle id, 0 + 8, true⟩ 8 id (leBytes 8 handle) []
    (by simp [deadBinder]) (by simp) (by omega)
  simp only [notified, processDeadBinder, BinaryReader.readUint64, bind, Except.bind, h1, h2]
  rfl

/-- Whom a DeadBinder reaches. -/
theorem Listed.notifyRecipient {st : ClientState} (hs : Listed st)
    (hlt : st.translator.nextObjectId ≤ 2 ^ 31) {obj : ℕ} {r : RemoteObject}
    (hr : st.remotes obj = some r) (called : List ℕ) (id : ℕ) :
    (notifyRecipient st id).1 = some (obj, called) ↔
      st.translator.objects.lookup id = some obj ∧ (∃ d ∈ st.deadRecipients, d.proxy = obj) ∧
        r.obituariesSent = false ∧ called = r.obituaries := by
  have hsend : r.obituariesSent = false → (sendObituary r).1 = r.obituaries := fun hsent => by
    simp [sendObituary, hsent]
  unfold Recipients.notifyRecipient
  cases hd : st.deadRecipients.find? fun r => r.HasId id with
  | none =>
    have hnone := List.find?_eq_none.mp hd
    refine ⟨fun h => (by cases h), ?_⟩
    rintro ⟨hl, ⟨d, hmem, hp⟩, -⟩
    have hid : d.HasId id := (hs.hasId_iff hlt hmem).mpr (hp ▸ hl)
    exact absurd hid (by simpa using hnone d hmem)
  | some d =>
    have hmem := List.mem_of_find?_eq_some hd
    have hid : d.HasId id := by simpa using List.find?_some hd
    have hl := (hs.hasId_iff hlt hmem).mp hid
    obtain ⟨-, -, r₀, hr₀, hsent, -⟩ := hs.registered d hmem
    simp only [hr₀, Option.some.injEq, Prod.mk.injEq]
    refine ⟨?_, ?_⟩
    · rintro ⟨rfl, rfl⟩
      have hrr : r₀ = r := Option.some.inj (hr₀.symm.trans hr)
      subst hrr
      exact ⟨hl, ⟨d, hmem, rfl⟩, hsent, hsend hsent⟩
    · rintro ⟨hl', -, hfalse, rfl⟩
      have hp : d.proxy = obj := Option.some.inj (hl.symm.trans hl')
      have hrr : r₀ = r := Option.some.inj (hr₀.symm.trans (hp ▸ hr))
      subst hrr
      exact ⟨hp, hsend hfalse⟩

theorem mem_of_notifyRecipient {st : ClientState} {id : ℕ} {told : ℕ × List ℕ}
    (h : (notifyRecipient st id).1 = some told) :
    ∃ d ∈ st.deadRecipients, d.HasId id ∧ d.proxy = told.1 := by
  unfold Recipients.notifyRecipient at h
  cases hd : st.deadRecipients.find? fun r => r.HasId id with
  | none =>
    rw [hd] at h
    cases h
  | some d =>
    rw [hd] at h
    refine ⟨d, List.mem_of_find?_eq_some hd, by simpa using List.find?_some hd, ?_⟩
    cases hr : st.remotes d.proxy with
    | none =>
      simp only [hr] at h
      cases h
    | some r =>
      simp only [hr] at h
      cases h
      rfl

/-- The answer `OK` of the server. -/
def accepted : Recipients.Answer := .ok (some (leBytes 4 0))

/-- An object has two recipients, one is unlinked, and the DeadBinder arrives twice. -/
def oneUnlinked : List RemoteAction :=
  [.translate 0x5000, .create 0x100 7, .linkToDeath 0x100 0xa accepted,
    .linkToDeath 0x100 0xb accepted, .unlinkToDeath 0x100 0xa accepted,
    .deadBinder (deadBinder 7 2), .deadBinder (deadBinder 7 2)]

end Binderd.Clients.Obituaries
