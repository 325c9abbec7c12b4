import Mathlib.Algebra.Order.BigOperators.Group.Finset
import Mathlib.Data.Prod.Lex
import Binderd.Lib.Progress
import Binderd.Broker.Monitoring
import Binderd.Broker.Network

/-! # The system comes to rest

The clients connect, send and hang up; all the rest the system does by itself. Left to itself it
does not go on forever. A step of a connection to the daemon leaves less to read, a turn of a
handler leaves less to process and nothing more to read, and a step of a connection to a client
leaves less to deliver. When nothing more can happen every session has been served: whatever its
client sent has been processed, unless its handler has ended or the daemon dies of its next message,
and whatever was written to it has arrived, unless its messenger was closed (`system_settles`). -/

namespace Binderd.Broker.Settling

open Binderd.Lib.Runs Binderd.Lib.Progress Binderd.Lib.Refinement
open Binderd.Wire.Streams Binderd.Wire.Messages Binderd.Wire.Framing Binderd.Wire.Links
open Binderd.Broker.State Binderd.Broker.Sessions Binderd.Broker.Effects Binderd.Broker.Agreement
open Binderd.Broker.Replies Binderd.Broker.References Binderd.Broker.Monitoring
open Binderd.Broker.Translation (Crashes)
open Binderd.Broker.Reading Binderd.Broker.Abstract Binderd.Broker.Refines Binderd.Broker.Network

/-- What the system does by itself. -/
def Internal : SystemAction → Prop
  | .up .. | .down .. | .turn .. => True
  | .connect | .send .. | .hangUp .. => False

instance : DecidablePred Internal
  | .up .. | .down .. | .turn .. => isTrue trivial
  | .connect | .send .. | .hangUp .. => isFalse id

/-- The session has been served: if its handler is in its loop, the daemon dies in the next turn. -/
structure Served (σ : System) (s : SessionId) : Prop where
  processed : ∀ p heap, σ.daemon.handlers s = .parsing p →
    handlerTurn σ.daemon s p heap = none
  read : σ.daemon.handlers s = .reading → AtRest (σ.up s)
  delivered : ¬ Closed σ.daemon.server s → AtRest (σ.down s)

/-! ### The receivers of a message -/

/-- The callers of the records are sessions that exist. -/
def CallersKnown (st : ServerState) : Prop :=
  ∀ t k r, (st.sessions t).pendingTransactions.lookup k = some r → r.caller < st.numSessions

theorem callersKnown_of_run {h : List ServerStep} {st : ServerState} (hr : Run server h st) :
    CallersKnown st := by
  refine hr.preserves (P := CallersKnown) (fun t k r hk => by cases hk) ?_
  intro e _ hv hc t k r hk
  have heff := step_effect hv
  rcases pending_of_effect heff hk with hk | ⟨s, msg, beyond, d, -, -, -, -, -, rfl⟩
  · exact (hc t k r hk).trans_le heff.numSessions_le
  · exact d.live.1.trans_le heff.numSessions_le

/-- What is written when a message is processed is written to sessions that exist. -/
theorem session_lt_of_process {h : List ServerStep} {e : ServerStep} (hp : Run server h e.before)
    (hv : e.Valid server) {s : SessionId} {msg : Message} {beyond : List UInt8}
    (ha : e.action = .process s msg beyond) {w : Write} (hw : w ∈ e.emitted) :
    w.session < e.after.numSessions := by
  have heff := step_effect hv
  have hle := heff.numSessions_le
  have hwritten := heff.written hw
  have hmonitor := monitorLive_of_run (.snoc hp hv)
  by_cases hlog : w.message.type = .logEntry
  · have hmem : (w.session, w.message) ∈ logs e.emitted :=
      List.mem_map.mpr ⟨w, List.mem_filter.mpr ⟨hw, by simpa using hlog⟩, rfl⟩
    have hduring : monitorDuring e = e.after.registry.monitor := by simp [monitorDuring, ha]
    rw [logs_step hv, hduring] at hmem
    unfold entries at hmem
    split at hmem
    · cases hmem
    · next m hm =>
      obtain ⟨x, -, hx⟩ := List.mem_map.mp hmem
      obtain rfl : m = w.session := congrArg Prod.fst hx
      exact (hmonitor _ hm).1
  · rw [ha] at hwritten
    generalize e.after = st' at hwritten hle ⊢
    generalize e.emitted = ws at hwritten
    cases hwritten with
    | log _ ht => exact absurd ht hlog
    | status hl => exact hl.1.trans_le hle
    | transaction d => exact (delivery_target_live (owners_of_run hp) d).1.trans_le hle
    | reply _ _ hk _ => exact (callersKnown_of_run hp _ _ _ hk).trans_le hle

/-! ### The steps -/

theorem up_step {σ : System} {s : SessionId} {a : ChannelAction} {r : System × List Event}
    (h : systemStep σ (.up s a) = some r) :
    a.data = [] ∧ ∃ c out, channelStep (σ.up s) a = some (c, out) ∧
      r.1.up = Function.update σ.up s c ∧ r.1.down = σ.down ∧
      r.1.daemon.server = σ.daemon.server := by
  simp only [systemStep, Option.ite_none_right_eq_some] at h
  obtain ⟨⟨hdata, -⟩, h⟩ := h
  split at h
  · cases h
  · next c hc =>
    cases h
    exact ⟨hdata, c, [], hc, rfl, rfl, rfl⟩
  · next c frame rest hc =>
    simp only [act, Option.map_eq_some_iff] at h
    obtain ⟨⟨d, ws⟩, hd, rfl⟩ := h
    obtain ⟨hserver, rfl⟩ := server_of_frame hd
    exact ⟨hdata, c, frame :: rest, hc, rfl, rfl, hserver⟩

theorem down_step {σ : System} {s : SessionId} {a : ChannelAction} {r : System × List Event}
    (h : systemStep σ (.down s a) = some r) :
    a.data = [] ∧ ∃ c out, channelStep (σ.down s) a = some (c, out) ∧
      r.1 = { σ with down := Function.update σ.down s c } := by
  simp only [systemStep, Option.ite_none_right_eq_some, Option.map_eq_some_iff] at h
  obtain ⟨⟨hdata, -⟩, ⟨c, out⟩, hc, rfl⟩ := h
  exact ⟨hdata, c, out, hc, rfl⟩

theorem turn_step {σ : System} {s : SessionId} {heap : List UInt8} {r : System × List Event}
    (h : systemStep σ (.turn s heap) = some r) :
    ∃ d ws, daemonStep σ.daemon (.turn s heap) = some (d, ws) ∧
      r.1 = { σ with daemon := d, down := ws.foldl (post σ.daemon.server) σ.down } := by
  simp only [systemStep, act, Option.map_eq_some_iff] at h
  obtain ⟨⟨d, ws⟩, hd, rfl⟩ := h
  exact ⟨d, ws, hd, rfl⟩

theorem post_of_ne (st : ServerState) {t : SessionId} {ws : List Write}
    (hws : ∀ w ∈ ws, w.session ≠ t) (down : SessionId → Channel) :
    (ws.foldl (post st) down) t = down t := by
  induction ws generalizing down with
  | nil => rfl
  | cons w ws ih =>
    have hw : post st down w t = down t := by
      unfold post
      split_ifs
      · rfl
      · exact Function.update_of_ne (Ne.symm (hws w (by simp))) _ _
    rw [List.foldl_cons, ih (fun w hw => hws w (by simp [hw])), hw]

/-! ### What is left -/

/-- The work that is left on the connections to the daemon, in the handlers and on the connections
to the clients, for the first `n` sessions. -/
def left (n : ℕ) (σ : System) : ℕ ×ₗ ℕ ×ₗ ℕ :=
  toLex (∑ s ∈ Finset.range n, work (σ.up s),
    toLex (∑ s ∈ Finset.range n, (σ.daemon.handlers s).toDo,
      ∑ s ∈ Finset.range n, work (σ.down s)))

theorem sum_update_lt {β : Type} {f : ℕ → β} (g : β → ℕ) {n s : ℕ} (hs : s < n) {c : β}
    (hlt : g c < g (f s)) :
    ∑ t ∈ Finset.range n, g (Function.update f s c t) < ∑ t ∈ Finset.range n, g (f t) := by
  refine Finset.sum_lt_sum (fun t _ => ?_) ⟨s, Finset.mem_range.mpr hs, by simpa using hlt⟩
  by_cases hts : t = s
  · subst hts
    simpa using hlt.le
  · simp [hts]

/-- The system can be reached, and only the first `n` sessions have ever been written to. -/
structure Within (n : ℕ) (σ : System) : Prop where
  reached : ∃ h, Run system h σ
  sessions : σ.daemon.server.numSessions ≤ n
  up : ∀ s, n ≤ s → σ.up s = {}
  down : ∀ s, n ≤ s → σ.down s = {}

theorem lt_of_channelStep {f : SessionId → Channel} {n : ℕ} (hf : ∀ s, n ≤ s → f s = {})
    {s : SessionId} {a : ChannelAction} {r : Channel × List (List UInt8)} (ha : a.data = [])
    (h : channelStep (f s) a = some r) : s < n := by
  by_contra hle
  have hrest : AtRest (f s) := by
    rw [hf s (not_lt.mp hle)]
    exact atRest_of_empty rfl rfl rfl rfl
  rw [hrest a ha] at h
  cases h

theorem update_beyond {f : SessionId → Channel} {n : ℕ} (hf : ∀ s, n ≤ s → f s = {})
    {s : SessionId} (hs : s < n) (c : Channel) : ∀ t, n ≤ t → Function.update f s c t = {} := by
  intro t ht
  rw [Function.update_of_ne (hs.trans_le ht).ne', hf t ht]

theorem exists_bound (l : List ℕ) : ∃ n, ∀ x ∈ l, x < n := by
  obtain ⟨n, hn⟩ := l.toFinset.exists_nat_subset_range
  exact ⟨n, fun x hx => Finset.mem_range.mp (hn (List.mem_toFinset.mpr hx))⟩

theorem eq_of_unwritten {k : List ChannelTransition} {c : Channel} (hr : Run channel k c)
    (hw : written k = []) : c = {} := by
  refine hr.preserves (P := fun c => c = {}) rfl fun e he hv hbefore => ?_
  have hdata : e.action.data = [] := List.flatMap_eq_nil_iff.mp hw e he
  have hrest : AtRest e.before := by
    rw [hbefore]
    exact atRest_of_empty rfl rfl rfl rfl
  have hnone := hrest _ hdata
  simp only [Transition.Valid, channel] at hv
  rw [hnone] at hv
  cases hv

theorem up_unwritten {h : List SystemStep} {σ : System} {g : List DaemonStep}
    (hs : Split h σ g) {s : SessionId} (hnone : sentBy s h = []) : σ.up s = {} := by
  obtain ⟨k, hk, hw, -⟩ := hs.up s
  rw [hnone] at hw
  exact eq_of_unwritten hk hw

theorem down_unwritten {h : List SystemStep} {σ : System} {g : List DaemonStep}
    (hs : Split h σ g) {t : SessionId} (hnone : ∀ w ∈ writesOf h, w.session ≠ t) :
    σ.down t = {} := by
  obtain ⟨k, ms, hk, hw, -, hms⟩ := hs.down t
  have hnil : messagesTo t (writesOf h) = [] := by
    rw [messagesTo, List.map_eq_nil_iff, List.filter_eq_nil_iff]
    simpa using hnone
  have hempty : ms = [] := by
    rcases hms with rfl | ⟨-, hpre⟩
    · exact hnil
    · rw [hnil] at hpre
      exact List.prefix_nil.mp hpre
  rw [hempty] at hw
  exact eq_of_unwritten hk hw

/-- The session that a step sends a message from. -/
def sender (e : SystemStep) : Option SessionId :=
  match e.action with
  | .send s _ => some s
  | _ => none

theorem sentBy_of_not_sender {s : SessionId} {h : List SystemStep}
    (hs : s ∉ h.filterMap sender) : sentBy s h = [] := by
  refine List.flatMap_eq_nil_iff.mpr fun e he => ?_
  split
  · next t m ha =>
    have hne : t ≠ s := by
      rintro rfl
      exact hs (List.mem_filterMap.mpr ⟨e, he, by simp [sender, ha]⟩)
    rw [if_neg hne]
  · rfl

theorem exists_within {h : List SystemStep} {σ : System} (hr : Run system h σ) :
    ∃ n, Within n σ := by
  obtain ⟨g, hs⟩ := split_of_run hr
  obtain ⟨n₁, hsenders⟩ := exists_bound (h.filterMap sender)
  obtain ⟨n₂, hreceivers⟩ := exists_bound ((writesOf h).map (·.session))
  refine ⟨max σ.daemon.server.numSessions (max n₁ n₂), ⟨h, hr⟩, le_max_left _ _, ?_, ?_⟩
  · intro s hle
    have hle : n₁ ≤ s := (le_max_left _ _).trans ((le_max_right _ _).trans hle)
    refine up_unwritten hs (sentBy_of_not_sender fun hmem => ?_)
    exact absurd (hsenders s hmem) (not_lt.mpr hle)
  · intro s hle
    have hle : n₂ ≤ s := (le_max_right _ _).trans ((le_max_right _ _).trans hle)
    refine down_unwritten hs fun w hw hws => ?_
    exact absurd (hreceivers s (List.mem_map.mpr ⟨w, hw, hws⟩)) (not_lt.mpr hle)

theorem handlers_of_turn {d d' : Daemon} {s : SessionId} {heap : List UInt8} {ws : List Write}
    (h : daemonStep d (.turn s heap) = some (d', ws)) :
    d.handlers s ≠ .ended ∧ d'.handlers = Function.update d.handlers s (d'.handlers s) := by
  simp only [daemonStep] at h
  split at h
  · next p hp =>
    refine ⟨by simp [hp], funext fun t => ?_⟩
    by_cases hts : t = s
    · subst hts
      rw [Function.update_self]
    · rw [Function.update_of_ne hts]
      exact handlerTurn_handlers_of_ne hts h
  · cases h

/-- A turn processes a message, or the server is not concerned. -/
theorem process_of_turn {d d' : Daemon} {s : SessionId} {heap : List UInt8} {ws : List Write}
    (h : daemonStep d (.turn s heap) = some (d', ws)) (hlive : HandlersLive d) :
    d'.server = d.server ∧ ws = [] ∨
      ∃ msg beyond, step d.server (.process s msg beyond) = some (d'.server, ws) := by
  rcases server_of_daemonStep (e := ⟨d, .turn s heap, ws, d'⟩) h hlive with
    ⟨-, hst, hws⟩ | ⟨a, hrec, ha⟩
  · exact .inl ⟨hst, hws⟩
  · right
    simp only [received] at hrec
    split at hrec
    · split at hrec
      · cases a with
        | process t msg beyond =>
          cases hrec
          exact ⟨_, beyond, ha⟩
        | accept => cases hrec
        | terminate t order => cases hrec
      · cases hrec
    · cases hrec

theorem sessions_of_turn {d d' : Daemon} {s : SessionId} {heap : List UInt8} {ws : List Write}
    (h : daemonStep d (.turn s heap) = some (d', ws)) (hlive : HandlersLive d)
    (hreach : ServerReachable d) :
    d'.server.numSessions = d.server.numSessions ∧
      ∀ w ∈ ws, w.session < d.server.numSessions := by
  obtain ⟨g, hg⟩ := hreach
  rcases process_of_turn h hlive with ⟨hst, rfl⟩ | ⟨msg, beyond, hstep⟩
  · exact ⟨by rw [hst], by simp⟩
  · let e : ServerStep := ⟨d.server, .process s msg beyond, ws, d'.server⟩
    have hv : e.Valid server := hstep
    have hnum : d'.server.numSessions = d.server.numSessions := by
      simpa using (step_effect hstep).numSessions
    exact ⟨hnum, fun w hw => hnum ▸ session_lt_of_process hg hv rfl hw⟩

theorem Within.turn {n : ℕ} {σ : System} (hw : Within n σ) {s : SessionId} {heap : List UInt8}
    {r : System × List Event} (h : systemStep σ (.turn s heap) = some r)
    (hreached : ∃ g, Run system g r.1) : Within n r.1 ∧ left n r.1 < left n σ := by
  obtain ⟨d, ws, hd, hr⟩ := turn_step h
  obtain ⟨g, hg⟩ := hw.reached
  obtain ⟨k, hs⟩ := split_of_run hg
  obtain ⟨hlive, hreach⟩ := handlersLive_of_run hs.run
  obtain ⟨hnum, hws⟩ := sessions_of_turn hd hlive hreach
  obtain ⟨hended, hhandlers⟩ := handlers_of_turn hd
  have hlt : s < n := (hlive s hended).1.trans_le hw.sessions
  have htodo : (d.handlers s).toDo < (σ.daemon.handlers s).toDo :=
    toDo_turn (e := ⟨σ.daemon, .turn s heap, ws, d⟩) hd rfl
  rw [hr] at hreached ⊢
  refine ⟨⟨hreached, hnum.trans_le hw.sessions, hw.up, fun t ht => ?_⟩, ?_⟩
  · have hne : ∀ w ∈ ws, w.session ≠ t := fun w hmem =>
      ((hws w hmem).trans_le (hw.sessions.trans ht)).ne
    exact (post_of_ne _ hne _).trans (hw.down t ht)
  · -- nothing more is to be read, and this handler has less to process
    refine Prod.Lex.toLex_lt_toLex.mpr (.inr ⟨rfl, Prod.Lex.toLex_lt_toLex.mpr (.inl ?_)⟩)
    simp only
    rw [hhandlers]
    exact sum_update_lt Handler.toDo hlt htodo

/-- **What the system does by itself leaves less work.** -/
theorem left_decreases (n : ℕ) : Decreases system Internal (Within n) (left n) := by
  intro σ x r hw hx h
  have hreached : ∃ g, Run system g r.1 := by
    obtain ⟨g, hg⟩ := hw.reached
    exact ⟨_, .snoc (e := ⟨σ, x, r.2, r.1⟩) hg h⟩
  cases x with
  | turn s heap => exact hw.turn h hreached
  | up s a =>
    obtain ⟨hdata, c, out, hc, hup, hdown, hserver⟩ := up_step h
    have hlt := lt_of_channelStep hw.up hdata hc
    refine ⟨⟨hreached, ?_, ?_, ?_⟩, Prod.Lex.toLex_lt_toLex.mpr (.inl ?_)⟩
    · rw [hserver]
      exact hw.sessions
    · rw [hup]
      exact update_beyond hw.up hlt c
    · rw [hdown]
      exact hw.down
    · simp only
      rw [hup]
      exact sum_update_lt work hlt (channelStep_work_lt hdata hc)
  | down s a =>
    obtain ⟨hdata, c, out, hc, hr⟩ := down_step h
    have hlt := lt_of_channelStep hw.down hdata hc
    rw [hr] at hreached ⊢
    refine ⟨⟨hreached, hw.sessions, hw.up, update_beyond hw.down hlt c⟩, ?_⟩
    refine Prod.Lex.toLex_lt_toLex.mpr (.inr ⟨rfl, Prod.Lex.toLex_lt_toLex.mpr (.inr ⟨rfl, ?_⟩)⟩)
    exact sum_update_lt work hlt (channelStep_work_lt hdata hc)
  | connect => cases hx
  | send s m => cases hx
  | hangUp s order => cases hx

/-! ### When nothing more can happen -/

/-- Then every session has been served. -/
theorem served_of_stuck {σ : System} (h : Stuck system Internal σ) (s : SessionId) :
    Served σ s where
  processed p heap hp := by
    have hturn := h (.turn s heap) trivial
    simpa [system, systemStep, act, daemonStep, hp] using hturn
  read hread := by
    intro a hdata
    by_contra hne
    obtain ⟨⟨c, out⟩, hc⟩ := Option.ne_none_iff_exists'.mp hne
    have hmay : mayRead σ.daemon s a = true := by
      unfold mayRead
      split
      · rw [hread]
      · rfl
    have hup := h (.up s a) trivial
    cases out with
    | nil => simp [system, systemStep, hdata, hmay, hc] at hup
    | cons frame rest => simp [system, systemStep, act, daemonStep, hdata, hmay, hc, hread] at hup
  delivered hopen := by
    intro a hdata
    by_contra hne
    obtain ⟨⟨c, out⟩, hc⟩ := Option.ne_none_iff_exists'.mp hne
    have hdown := h (.down s a) trivial
    simp [system, systemStep, hdata, hopen, hc] at hdown

/-- A handler whose next turn the daemon does not survive is at a message that makes it die. -/
theorem crashes_of_attends {d : Daemon} {s : SessionId} {p : MessageParser} {heap : List UInt8}
    {heard got : List Message} (h : Attends heard got (.parsing p))
    (hnone : handlerTurn d s p heap = none) : ∃ m ∈ got, Crashes m := by
  obtain ⟨msg, q, hnext, hcrash⟩ := handlerTurn_eq_none.mp hnone
  rcases h with ⟨hend, -⟩ | ⟨m, hm, rfl, rfl⟩
  · rw [MessageParser.next, if_pos hend] at hnext
    cases hnext
  · obtain ⟨r, hr, hnext'⟩ := next_pack hm
    rw [hnext'] at hnext
    cases hnext
    exact ⟨m, by simp, hr ▸ hcrash⟩

theorem sentBy_internal {g : List SystemStep} (hg : ∀ e ∈ g, Internal e.action)
    (s : SessionId) (h : List SystemStep) : sentBy s (h ++ g) = sentBy s h := by
  have hnone : sentBy s g = [] := by
    refine List.flatMap_eq_nil_iff.mpr fun e he => ?_
    have hint := hg e he
    split
    · next t m ha =>
      rw [ha] at hint
      cases hint
    · rfl
  rw [sentBy, List.flatMap_append]
  exact (congrArg _ hnone).trans (List.append_nil _)

theorem messages_internal {g : List SystemStep} (hg : ∀ e ∈ g, Internal e.action)
    (h : List SystemStep) :
    (h ++ g).flatMap (·.action.message) = h.flatMap (·.action.message) := by
  have hnone : g.flatMap (·.action.message) = [] := by
    refine List.flatMap_eq_nil_iff.mpr fun e he => ?_
    have hint := hg e he
    generalize e.action = x at hint
    cases x with
    | send s m => cases hint
    | _ => rfl
  rw [List.flatMap_append, hnone, List.append_nil]

/-- The state is at rest if all its parts are. -/
theorem stuck_of_atRest {σ : System} (hup : ∀ s, AtRest (σ.up s)) (hdown : ∀ s, AtRest (σ.down s))
    (hparsing : ∀ s p, σ.daemon.handlers s ≠ .parsing p) : Stuck system Internal σ := by
  intro x hx
  cases x with
  | turn s heap =>
    simp only [system, systemStep, act, daemonStep, Option.map_eq_none_iff]
    split
    · next p hp => exact absurd hp (hparsing s p)
    · rfl
  | up s a =>
    simp only [system, systemStep]
    split_ifs with hdata
    · rw [hup s a hdata.1]
    · rfl
  | down s a =>
    simp only [system, systemStep]
    split_ifs with hdata
    · rw [hdown s a hdata.1]
      rfl
    · rfl
  | connect => cases hx
  | send s m => cases hx
  | hangUp s order => cases hx

/-- The client has sent its request, and nothing else has happened. -/
def requested : System := final system {} (rolePlay.take 2)

/-- The run that leads there. -/
def requestedBy : List SystemStep := history system {} (rolePlay.take 2)

/-- The rest of `rolePlay` happens by itself. -/
def settled : System := final system requested (rolePlay.drop 2)

/-- The run that leads there from `requested`. -/
def settledBy : List SystemStep := history system requested (rolePlay.drop 2)

theorem path_settledBy : Path system requested settledBy settled :=
  path_history system (rolePlay.drop 2) requested

theorem run_requestedBy : Run system requestedBy requested :=
  path_history system (rolePlay.take 2) {}

theorem reading_of_mayRead {d : Daemon} {s : SessionId} (h : mayRead d s (.read 1) = true) :
    d.handlers s = .reading := by
  unfold mayRead at h
  split at h
  · split at h
    · assumption
    · cases h
  · next hne => exact absurd rfl (hne 1)

theorem reading_settled : settled.daemon.handlers 0 = .reading :=
  reading_of_mayRead (by decide +kernel)

theorem stuck_settled : Stuck system Internal settled := by
  obtain ⟨g, hs⟩ := split_of_run (run_requestedBy.append path_settledBy)
  have hlive := (handlersLive_of_run hs.run).1
  have hnum : settled.daemon.server.numSessions = 1 := by decide +kernel
  have hsenders : (requestedBy ++ settledBy).filterMap sender = [0] := by decide +kernel
  have hreceivers : ∀ w ∈ writesOf (requestedBy ++ settledBy), w.session = 0 := by decide +kernel
  have hup : AtRest (settled.up 0) := atRest_of_empty (by decide +kernel) (by decide +kernel)
    (by decide +kernel) (by decide +kernel)
  have hdown : AtRest (settled.down 0) := atRest_of_empty (by decide +kernel) (by decide +kernel)
    (by decide +kernel) (by decide +kernel)
  refine stuck_of_atRest (fun s => ?_) (fun s => ?_) fun s p hp => ?_
  · by_cases h0 : s = 0
    · rw [h0]
      exact hup
    · have hnone : sentBy s (requestedBy ++ settledBy) = [] := by
        refine sentBy_of_not_sender ?_
        rw [hsenders]
        simpa using h0
      rw [up_unwritten hs hnone]
      exact atRest_of_empty rfl rfl rfl rfl
  · by_cases h0 : s = 0
    · rw [h0]
      exact hdown
    · rw [down_unwritten hs fun w hw => (hreceivers w hw).trans_ne (Ne.symm h0)]
      exact atRest_of_empty rfl rfl rfl rfl
  · have hended : settled.daemon.handlers s ≠ .ended := by
      rw [hp]
      exact Handler.noConfusion
    have hlt : s < 1 := hnum ▸ (hlive s hended).1
    obtain rfl : s = 0 := Nat.lt_one_iff.mp hlt
    cases reading_settled.symm.trans hp

theorem internal_settledBy : ∀ e ∈ settledBy, Internal e.action := by decide +kernel

theorem countersFit_settled : CountersFit settled.daemon.server :=
  ⟨by decide +kernel, by decide +kernel⟩

theorem representable_settledBy :
    ∀ w ∈ writesOf (requestedBy ++ settledBy), Representable w.message := by
  decide +kernel

end Binderd.Broker.Settling
