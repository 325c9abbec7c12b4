import Binderd.Broker.References
import Binderd.Lib.Refinement

/-! # What the server is for

A broker lets sessions publish objects under handles and call the objects of each other. This is
the broker without the tables of the server: a handle stands for an object of one session, or for
nothing; a session holds references and watches handles; a call that was delivered waits for an
answer. What is seen of a step is a message that comes in and the messages that go out, the log of
the monitor apart.

Which handle an object is published under is left open, as long as the handle was never used; so is
the cookie of a call that is delivered, as long as no other call waits under it; and so is the order
in which a death is told.

* `WellFormed.step`: objects belong to sessions that are present, and references are to objects;
* `Gone.step`: a handle whose object is gone never stands for an object again;
* `calls_of_gone`: a call to it is answered with an error and reaches nobody. -/

namespace Binderd.Broker.Abstract

open Binderd.Lib.Bytes Binderd.Lib.Refinement Binderd.Wire.Streams Binderd.Wire.Messages
open Binderd.Wire.Transactions Binderd.Broker.State Binderd.Broker.Effects Binderd.Broker.Deaths

/-- What a broker knows, in its own terms. -/
@[ext]
structure AbstractBroker where
  /-- The sessions that have connected, and those of them that have not left. -/
  seen : Set SessionId := ∅
  present : Set SessionId := ∅
  /-- What a handle stands for. -/
  object : ℕ → Option (SessionId × BinderObject) := fun _ => none
  /-- The handles that were given out. -/
  used : Set ℕ := ∅
  manager : Option SessionId := none
  monitor : Option SessionId := none
  /-- The number of references that a session holds to a handle. -/
  holds : SessionId → ℕ → ℕ := fun _ _ => 0
  /-- The id under which a session is to be told of the death of a handle. -/
  watches : SessionId → ℕ → Option ℕ := fun _ _ => none
  /-- The caller that waits for the answer of a session, and the cookie that it waits for. -/
  waiting : SessionId → ℕ → Option (SessionId × ℕ) := fun _ _ => none

/-- A message and the session that it goes to. -/
abbrev Sent := SessionId × Message

/-- What happens to a broker. -/
inductive Input where
  | connect
  | message (s : SessionId) (msg : Message)
  | leave (s : SessionId)

namespace AbstractBroker

variable (b : AbstractBroker)

/-- The handle stands for an object of `s`. -/
def Owns (s : SessionId) (k : ℕ) : Prop := (b.object k).map (·.1) = some s

instance (s : SessionId) (k : ℕ) : Decidable (b.Owns s k) :=
  inferInstanceAs (Decidable (_ = _))

/-- The object that a call to `k` is for. The manager is called without one. -/
def target (k : ℕ) : Option (SessionId × BinderObject) :=
  if k = 0 then b.manager.map fun s => (s, ⟨0, 0⟩) else b.object k

/-- The handle stands for an object from now on. -/
def publish (s : SessionId) (k : ℕ) (obj : BinderObject) : AbstractBroker :=
  { b with
    object := Function.update b.object k (some (s, obj))
    used := insert k b.used }

/-- `s` holds the handle `n` times. -/
def setHolds (s : SessionId) (k n : ℕ) : AbstractBroker :=
  { b with holds := Function.update b.holds s (Function.update (b.holds s) k n) }

/-- `s` is told of the death of what the handle stands for, if an id is given. -/
def setWatches (s : SessionId) (k : ℕ) (id : Option ℕ) : AbstractBroker :=
  { b with watches := Function.update b.watches s (Function.update (b.watches s) k id) }

/-- The transaction of `t` with the cookie is waited for by the caller, if there is one. -/
def setWaiting (t : SessionId) (cookie : ℕ) (caller : Option (SessionId × ℕ)) : AbstractBroker :=
  { b with waiting := Function.update b.waiting t (Function.update (b.waiting t) cookie caller) }

/-- A new session watches nothing and is waited for by nobody. -/
def connect (s : SessionId) : AbstractBroker :=
  { b with
    seen := insert s b.seen
    present := insert s b.present
    watches := Function.update b.watches s fun _ => none
    waiting := Function.update b.waiting s fun _ => none }

/-- The objects of a session go with it, and the references to them. -/
def leave (s : SessionId) : AbstractBroker :=
  { b with
    present := b.present \ {s}
    object := fun k => if b.Owns s k then none else b.object k
    manager := if b.manager = some s then none else b.manager
    monitor := if b.monitor = some s then none else b.monitor
    holds := fun t k => if b.Owns s k then 0 else b.holds t k }

/-- How `t` is told of the death of `k`. -/
def deathOf (k : ℕ) (t : SessionId) : List Sent :=
  (b.watches t k).toList.map fun id => (t, deadBinderMessage k id)

/-- All who hold references to the objects of `s` are told, once for each reference. -/
def Told (s : SessionId) (ws : List Sent) : Prop :=
  ∃ (ks : List ℕ) (holders : ℕ → List SessionId), ks.Nodup ∧ (∀ k, k ∈ ks ↔ b.Owns s k) ∧
    (∀ k t, (holders k).count t = b.holds t k) ∧
    ws = ks.flatMap fun k => (holders k).flatMap (b.deathOf k)

end AbstractBroker

/-- `s` publishes objects, each under a handle of its own. -/
def Publishes (s : SessionId) : AbstractBroker → AbstractBroker → Prop :=
  Relation.ReflTransGen fun b b' => ∃ k obj, k ≠ 0 ∧ k ∉ b.used ∧ b' = b.publish s k obj

/-- The call as it arrives: it names the object by the numbers it was published with. -/
structure IsCall (m : Message) (destination cookie : ℕ) (obj : BinderObject) : Prop where
  type : m.type = .transaction
  destination : m.destination = destination
  cookie : m.cookie = cookie
  object : ∃ rest, m.data = leBytes 8 obj.binder ++ leBytes 8 obj.cookie ++ rest

/-- The requests that take a number. -/
def sizeNeeded : MessageType → ℕ
  | .acquire | .release => 8
  | .requestDeathNotification | .clearDeathNotification => 16
  | _ => 0

/-- **The steps of the broker.** -/
inductive Step (b : AbstractBroker) : Input → List Sent → AbstractBroker → Prop
  | connected {s} : s ∉ b.seen → Step b .connect [] (b.connect s)
  | left {s ws} : s ∈ b.present → b.Told s ws → Step b (.leave s) ws (b.leave s)
  /-- A call is delivered. The caller publishes objects with it, and the target may. -/
  | called {s msg b₁ b₂ t obj cookie m} : s ∈ b.present → msg.type = .transaction →
      Publishes s b b₁ → b₁.target msg.destination = some (t, obj) → t ∈ b.present →
      Publishes t b₁ b₂ → b.waiting t cookie = none → IsCall m msg.destination cookie obj →
      Step b (.message s msg) [(t, m), (s, statusMessage msg .ok)]
        (b₂.setWaiting t cookie (some (s, msg.cookie)))
  | failed {s msg b₁ b' status} : s ∈ b.present → msg.type = .transaction → Publishes s b b₁ →
      (b' = b₁ ∨ ∃ t obj, b₁.target msg.destination = some (t, obj) ∧ t ∈ b.present ∧
        Publishes t b₁ b') →
      status ≠ .ok → Step b (.message s msg) [(s, statusMessage msg status)] b'
  | answered {s msg caller cookie} : s ∈ b.present →
      msg.type = .status ∨ msg.type = .transactionReply →
      b.waiting s msg.cookie = some (caller, cookie) →
      Step b (.message s msg) [(caller, { msg with cookie := cookie })]
        (b.setWaiting s msg.cookie none)
  | stray {s msg} : s ∈ b.present → msg.type = .status ∨ msg.type = .transactionReply →
      b.waiting s msg.cookie = none → Step b (.message s msg) [] b
  | becameManager {s msg} : s ∈ b.present → msg.type = .setContextMgr → b.manager = none →
      Step b (.message s msg) [(s, statusMessage msg .ok)] { b with manager := some s }
  | managerTaken {s msg} : s ∈ b.present → msg.type = .setContextMgr → b.manager ≠ none →
      Step b (.message s msg) [(s, statusMessage msg .alreadyExists)] b
  | becameMonitor {s msg} : s ∈ b.present → msg.type = .setMonitor → b.monitor = none →
      Step b (.message s msg) [(s, statusMessage msg .ok)] { b with monitor := some s }
  | monitorTaken {s msg} : s ∈ b.present → msg.type = .setMonitor → b.monitor ≠ none →
      Step b (.message s msg) [(s, statusMessage msg .alreadyExists)] b
  | acquired {s msg} : s ∈ b.present → msg.type = .acquire → 8 ≤ msg.data.length →
      b.object (byteOf msg.data 0) ≠ none →
      Step b (.message s msg) [(s, statusMessage msg .ok)]
        (b.setHolds s (byteOf msg.data 0) (b.holds s (byteOf msg.data 0) + 1))
  | released {s msg n} : s ∈ b.present → msg.type = .release → 8 ≤ msg.data.length →
      b.object (byteOf msg.data 0) ≠ none → b.holds s (byteOf msg.data 0) = n + 1 →
      Step b (.message s msg) [(s, statusMessage msg .ok)] (b.setHolds s (byteOf msg.data 0) n)
  | notHeld {s msg} : s ∈ b.present → msg.type = .release → 8 ≤ msg.data.length →
      b.object (byteOf msg.data 0) ≠ none → b.holds s (byteOf msg.data 0) = 0 →
      Step b (.message s msg) [(s, statusMessage msg .badValue)] b
  | noObject {s msg} : s ∈ b.present → msg.type = .acquire ∨ msg.type = .release →
      8 ≤ msg.data.length → b.object (byteOf msg.data 0) = none →
      Step b (.message s msg) [(s, statusMessage msg .deadObject)] b
  | watched {s msg} : s ∈ b.present → msg.type = .requestDeathNotification →
      16 ≤ msg.data.length → b.watches s (byteOf msg.data 0) = none →
      Step b (.message s msg) [(s, statusMessage msg .ok)]
        (b.setWatches s (byteOf msg.data 0) (some (byteOf msg.data 8)))
  | watchedAlready {s msg} : s ∈ b.present → msg.type = .requestDeathNotification →
      16 ≤ msg.data.length → b.watches s (byteOf msg.data 0) ≠ none →
      Step b (.message s msg) [(s, statusMessage msg .alreadyExists)] b
  | unwatched {s msg} : s ∈ b.present → msg.type = .clearDeathNotification →
      16 ≤ msg.data.length → b.watches s (byteOf msg.data 0) ≠ none →
      Step b (.message s msg) [(s, statusMessage msg .ok)]
        (b.setWatches s (byteOf msg.data 0) none)
  | notWatched {s msg} : s ∈ b.present → msg.type = .clearDeathNotification →
      16 ≤ msg.data.length → b.watches s (byteOf msg.data 0) = none →
      Step b (.message s msg) [(s, statusMessage msg .badValue)] b
  /-- A request without the numbers that it takes is not answered. -/
  | malformed {s msg} : s ∈ b.present → msg.data.length < sizeNeeded msg.type →
      Step b (.message s msg) [] b
  | unsupported {s msg} : s ∈ b.present →
      msg.type ∉ [MessageType.transaction, .transactionReply, .status, .acquire, .release,
        .requestDeathNotification, .clearDeathNotification, .setContextMgr, .setMonitor] →
      Step b (.message s msg) [(s, statusMessage msg .invalidOperation)] b

/-- **The broker.** -/
def broker : Spec AbstractBroker (Input × List Sent) := ⟨{}, fun b l b' => Step b l.1 l.2 b'⟩

/-! ### What a broker keeps -/

/-- Objects and roles belong to sessions that are present, and references are to objects. -/
structure WellFormed (b : AbstractBroker) : Prop where
  seen : b.present ⊆ b.seen
  object : ∀ k s obj, b.object k = some (s, obj) → s ∈ b.present ∧ k ∈ b.used
  manager : ∀ s, b.manager = some s → s ∈ b.present
  monitor : ∀ s, b.monitor = some s → s ∈ b.present
  holds : ∀ s k, b.holds s k ≠ 0 → b.object k ≠ none

theorem wellFormed_init : WellFormed broker.init := by
  refine ⟨fun _ h => h, fun _ _ _ h => ?_, fun _ h => ?_, fun _ h => ?_, fun _ _ h => absurd rfl h⟩
  · cases h
  · cases h
  · cases h

/-- What publishing leaves alone. -/
structure PublishFrame (b b' : AbstractBroker) : Prop where
  seen : b'.seen = b.seen
  present : b'.present = b.present
  manager : b'.manager = b.manager
  monitor : b'.monitor = b.monitor
  holds : b'.holds = b.holds
  watches : b'.watches = b.watches
  waiting : b'.waiting = b.waiting

theorem Publishes.frame {s : SessionId} {b b' : AbstractBroker} (h : Publishes s b b') :
    PublishFrame b b' := by
  induction h with
  | refl => exact ⟨rfl, rfl, rfl, rfl, rfl, rfl, rfl⟩
  | tail _ he ih =>
    obtain ⟨k, obj, -, -, rfl⟩ := he
    exact ⟨ih.seen, ih.present, ih.manager, ih.monitor, ih.holds, ih.watches, ih.waiting⟩

theorem WellFormed.publishes {s : SessionId} {b b' : AbstractBroker} (hw : WellFormed b)
    (hs : s ∈ b.present) (h : Publishes s b b') : WellFormed b' := by
  induction h with
  | refl => exact hw
  | @tail b₁ _ hp he ih =>
    obtain ⟨k, obj, -, hk, rfl⟩ := he
    refine ⟨ih.seen, fun j t o hj => ?_, ih.manager, ih.monitor, fun t j hj => ?_⟩
    · simp only [AbstractBroker.publish, Function.update_apply] at hj ⊢
      split_ifs at hj with hjk
      · cases hj
        exact ⟨(Publishes.frame hp).present ▸ hs, hjk ▸ Set.mem_insert _ _⟩
      · exact ⟨(ih.object j t o hj).1, Set.mem_insert_of_mem _ (ih.object j t o hj).2⟩
    · simp only [AbstractBroker.publish, Function.update_apply]
      split_ifs
      · simp
      · exact ih.holds t j hj

theorem WellFormed.leave {b : AbstractBroker} (hw : WellFormed b) (s : SessionId) :
    WellFormed (b.leave s) := by
  refine ⟨fun t ht => hw.seen ht.1, fun k t obj hk => ?_, fun t ht => ?_, fun t ht => ?_,
    fun t k hk => ?_⟩
  · simp only [AbstractBroker.leave, Option.ite_none_left_eq_some] at hk
    obtain ⟨hn, hk⟩ := hk
    have hne : t ≠ s := fun hts => hn (by rw [AbstractBroker.Owns, hk, hts]; rfl)
    exact ⟨⟨(hw.object k t obj hk).1, hne⟩, (hw.object k t obj hk).2⟩
  · simp only [AbstractBroker.leave, Option.ite_none_left_eq_some] at ht
    exact ⟨hw.manager t ht.2, fun hts => ht.1 (by rw [ht.2, hts])⟩
  · simp only [AbstractBroker.leave, Option.ite_none_left_eq_some] at ht
    exact ⟨hw.monitor t ht.2, fun hts => ht.1 (by rw [ht.2, hts])⟩
  · simp only [AbstractBroker.leave] at hk ⊢
    split_ifs at hk ⊢ with ho
    · exact absurd rfl hk
    · exact hw.holds t k hk

/-- **A step keeps the broker well-formed.** -/
theorem WellFormed.step {b b' : AbstractBroker} {i : Input} {ws : List Sent} (hw : WellFormed b)
    (h : Step b i ws b') : WellFormed b' := by
  have hset : ∀ s k n, b.object k ≠ none → WellFormed (b.setHolds s k n) := by
    intro s k n hk
    refine ⟨hw.seen, hw.object, hw.manager, hw.monitor, fun t j hj => ?_⟩
    by_cases hjk : j = k
    · rwa [hjk]
    · refine hw.holds t j fun h0 => hj ?_
      simp only [AbstractBroker.setHolds, Function.update_apply]
      split_ifs with ht
      · rw [Function.update_of_ne hjk, ← ht, h0]
      · exact h0
  cases h with
  | @connected s hs =>
    exact ⟨Set.insert_subset_insert hw.seen,
      fun k t obj hk =>
        ⟨Set.mem_insert_of_mem _ (hw.object k t obj hk).1, (hw.object k t obj hk).2⟩,
      fun t ht => Set.mem_insert_of_mem _ (hw.manager t ht),
      fun t ht => Set.mem_insert_of_mem _ (hw.monitor t ht), hw.holds⟩
  | left hs _ => exact hw.leave _
  | called hs _ hp _ ht hp' _ _ =>
    have h2 := (hw.publishes hs hp).publishes ((Publishes.frame hp).present ▸ ht) hp'
    exact ⟨h2.seen, h2.object, h2.manager, h2.monitor, h2.holds⟩
  | failed hs _ hp hp' _ =>
    have h1 := hw.publishes hs hp
    rcases hp' with rfl | ⟨t, obj, -, ht, hp'⟩
    · exact h1
    · exact h1.publishes ((Publishes.frame hp).present ▸ ht) hp'
  | becameManager hs _ _ =>
    exact ⟨hw.seen, hw.object, fun t ht => by cases ht; exact hs, hw.monitor, hw.holds⟩
  | becameMonitor hs _ _ =>
    exact ⟨hw.seen, hw.object, hw.manager, fun t ht => by cases ht; exact hs, hw.holds⟩
  | acquired _ _ _ hk => exact hset _ _ _ hk
  | released _ _ _ hk _ => exact hset _ _ _ hk
  | answered _ _ _ => exact ⟨hw.seen, hw.object, hw.manager, hw.monitor, hw.holds⟩
  | watched _ _ _ _ => exact ⟨hw.seen, hw.object, hw.manager, hw.monitor, hw.holds⟩
  | unwatched _ _ _ _ => exact ⟨hw.seen, hw.object, hw.manager, hw.monitor, hw.holds⟩
  | _ => exact hw

/-! ### Handles whose objects are gone -/

/-- The handle was given out, and stands for nothing any more. -/
def Gone (b : AbstractBroker) (k : ℕ) : Prop := k ∈ b.used ∧ b.object k = none

theorem Gone.publishes {s : SessionId} {b b' : AbstractBroker} {k : ℕ} (hg : Gone b k)
    (h : Publishes s b b') : Gone b' k := by
  induction h with
  | refl => exact hg
  | tail _ he ih =>
    obtain ⟨j, obj, -, hj, rfl⟩ := he
    have hne : k ≠ j := fun hkj => hj (hkj ▸ ih.1)
    exact ⟨Set.mem_insert_of_mem _ ih.1, (Function.update_of_ne hne _ _).trans ih.2⟩

/-- **A handle that is gone stays gone.** -/
theorem Gone.step {b b' : AbstractBroker} {i : Input} {ws : List Sent} {k : ℕ} (hg : Gone b k)
    (h : Step b i ws b') : Gone b' k := by
  cases h with
  | connected _ => exact ⟨hg.1, hg.2⟩
  | left _ _ =>
    refine ⟨hg.1, ?_⟩
    simp only [AbstractBroker.leave]
    rw [hg.2, ite_self]
  | called _ _ hp _ _ hp' _ _ =>
    have h2 := (hg.publishes hp).publishes hp'
    exact ⟨h2.1, h2.2⟩
  | failed _ _ hp hp' _ =>
    rcases hp' with rfl | ⟨t, obj, -, -, hp'⟩
    · exact hg.publishes hp
    · exact (hg.publishes hp).publishes hp'
  | _ => exact ⟨hg.1, hg.2⟩

/-- **A call to a handle that is gone reaches nobody**, and is answered with an error. -/
theorem calls_of_gone {b b' : AbstractBroker} {s : SessionId} {msg : Message} {ws : List Sent}
    (hg : Gone b msg.destination) (h0 : msg.destination ≠ 0) (ht : msg.type = .transaction)
    (h : Step b (.message s msg) ws b') :
    ∃ status ≠ Status.ok, ws = [(s, statusMessage msg status)] := by
  cases h with
  | called _ _ hp htarget _ _ _ _ =>
    rw [AbstractBroker.target, if_neg h0, (hg.publishes hp).2] at htarget
    cases htarget
  | failed _ _ _ _ hs => exact ⟨_, hs, rfl⟩
  | malformed _ hlen => simp [ht, sizeNeeded] at hlen
  | unsupported _ hn => exact absurd ht (by simp at hn; exact hn.1)
  | answered _ hm _ | stray _ hm _ | noObject _ hm _ _ => simp [ht] at hm
  | becameManager _ hm _ | managerTaken _ hm _ | becameMonitor _ hm _ | monitorTaken _ hm _ =>
    simp [ht] at hm
  | acquired _ hm _ _ | released _ hm _ _ _ | notHeld _ hm _ _ _ => simp [ht] at hm
  | watched _ hm _ _ | watchedAlready _ hm _ _ | unwatched _ hm _ _ | notWatched _ hm _ _ =>
    simp [ht] at hm

/-- When everybody has left, nothing is left. -/
theorem WellFormed.empty {b : AbstractBroker} (hw : WellFormed b) (h : b.present = ∅) :
    (∀ k, b.object k = none) ∧ b.manager = none ∧ b.monitor = none ∧ ∀ s k, b.holds s k = 0 := by
  have hobject : ∀ k, b.object k = none := by
    intro k
    by_contra hk
    obtain ⟨⟨s, obj⟩, hs⟩ := Option.ne_none_iff_exists'.mp hk
    have hp := (hw.object k s obj hs).1
    rw [h] at hp
    exact hp
  refine ⟨hobject, ?_, ?_, fun s k => by_contra fun hk => hw.holds s k hk (hobject k)⟩
  · by_contra hm
    obtain ⟨s, hs⟩ := Option.ne_none_iff_exists'.mp hm
    exact absurd (h ▸ hw.manager s hs) (Set.notMem_empty s)
  · by_contra hm
    obtain ⟨s, hs⟩ := Option.ne_none_iff_exists'.mp hm
    exact absurd (h ▸ hw.monitor s hs) (Set.notMem_empty s)

end Binderd.Broker.Abstract
