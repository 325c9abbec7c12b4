import Mathlib.Data.List.Basic

/-! # Machines, paths and runs

A machine takes one action at a time; an action that is not enabled has no successor, and one that
is emits a list of outputs. A *path* is a finite sequence of transitions, each of which records the
state before, the action, the outputs and the state after; a *run* is a path from the initial state.

* `Run.invariant`: what holds initially and is kept by every transition holds after every run, with
  the whole history at hand and under any condition on the single transitions;
* `Path.prefix_of_mem`, `Path.split_getElem?`: every transition of a path comes after a path and
  before one;
* `Path.append`, `Path.preserves`: paths compose, and keep what every transition keeps;
* `Path.length_le_of_decreasing`: a measure that every transition decreases bounds a path;
* `Part.run`: a run of a machine is, seen from a part of it, a run of the part;
* `path_history`: the path that a list of actions makes, those that are not enabled left out;
* `Since`: something happened, and something else has held ever after (`since_snoc`). -/

namespace Binderd.Lib.Runs

variable {σ α ε : Type}

/-- A deterministic machine with outputs. -/
structure Machine (σ α ε : Type) where
  init : σ
  step : σ → α → Option (σ × List ε)

/-- One transition, as a history records it. -/
structure Transition (σ α ε : Type) where
  before : σ
  action : α
  emitted : List ε
  after : σ

/-- The transition is one the machine can make. -/
def Transition.Valid (M : Machine σ α ε) (e : Transition σ α ε) : Prop :=
  M.step e.before e.action = some (e.after, e.emitted)

/-- The paths from `s`, with their histories. -/
inductive Path (M : Machine σ α ε) (s : σ) : List (Transition σ α ε) → σ → Prop
  | nil : Path M s [] s
  | snoc {h : List (Transition σ α ε)} {e : Transition σ α ε} :
      Path M s h e.before → e.Valid M → Path M s (h ++ [e]) e.after

/-- The runs: the paths from the initial state. -/
abbrev Run (M : Machine σ α ε) : List (Transition σ α ε) → σ → Prop := Path M M.init

/-- All outputs of a history, in order. -/
def outputs (h : List (Transition σ α ε)) : List ε := h.flatMap (·.emitted)

theorem outputs_append (h h' : List (Transition σ α ε)) :
    outputs (h ++ h') = outputs h ++ outputs h' := List.flatMap_append

theorem outputs_snoc (h : List (Transition σ α ε)) (e : Transition σ α ε) :
    outputs (h ++ [e]) = outputs h ++ e.emitted := by
  rw [outputs_append]
  exact congrArg _ (List.append_nil _)

theorem getElem?_snoc_iff {β : Type} {h : List β} {e x : β} {i : ℕ} :
    (h ++ [e])[i]? = some x ↔ h[i]? = some x ∨ i = h.length ∧ x = e := by
  rcases Nat.lt_trichotomy i h.length with hi | hi | hi
  · rw [List.getElem?_append_left hi]
    simp [Nat.ne_of_lt hi]
  · subst hi
    simp [eq_comm]
  · rw [List.getElem?_eq_none (by simp; omega), List.getElem?_eq_none (by omega)]
    simp [Nat.ne_of_gt hi]

theorem getElem?_snoc_of_some {β : Type} {h : List β} {x : β} {i : ℕ} (hi : h[i]? = some x)
    (e : β) : (h ++ [e])[i]? = some x :=
  getElem?_snoc_iff.mpr (.inl hi)

theorem lt_length_of_getElem? {β : Type} {h : List β} {x : β} {i : ℕ} (hi : h[i]? = some x) :
    i < h.length :=
  (List.getElem?_eq_some_iff.mp hi).1

/-! ### Since -/

/-- Some entry of the history has `P`, and all entries after it have `Q`. -/
def Since {β : Type} (P Q : β → Prop) (h : List β) : Prop :=
  ∃ h₁ e h₂, h = h₁ ++ e :: h₂ ∧ P e ∧ ∀ e' ∈ h₂, Q e'

theorem not_since_nil {β : Type} {P Q : β → Prop} : ¬ Since P Q [] := by
  rintro ⟨h₁, e, h₂, he, -⟩
  simp at he

theorem since_snoc {β : Type} {P Q : β → Prop} {h : List β} {e : β} :
    Since P Q (h ++ [e]) ↔ P e ∨ Since P Q h ∧ Q e := by
  constructor
  · rintro ⟨h₁, x, h₂, he, hP, hQ⟩
    -- the entry is the last one, or the last one comes after it
    rcases List.eq_nil_or_concat h₂ with rfl | ⟨h₂, y, rfl⟩
    · obtain ⟨-, hx⟩ := List.append_inj' he rfl
      cases hx
      exact .inl hP
    · rw [List.concat_eq_append, ← List.cons_append, ← List.append_assoc] at he
      obtain ⟨rfl, hy⟩ := List.append_inj' he rfl
      cases hy
      exact .inr ⟨⟨h₁, x, h₂, rfl, hP, fun e' he' => hQ e' (by simp [he'])⟩, hQ e (by simp)⟩
  · rintro (hP | ⟨⟨h₁, x, h₂, rfl, hP, hQ⟩, he⟩)
    · exact ⟨h, e, [], rfl, hP, by simp⟩
    · refine ⟨h₁, x, h₂ ++ [e], by simp, hP, fun e' he' => ?_⟩
      rcases List.mem_append.mp he' with he' | he'
      · exact hQ e' he'
      · rw [List.mem_singleton] at he'
        exact he' ▸ he

variable {M : Machine σ α ε}

namespace Path

theorem append {s t u : σ} {h h' : List (Transition σ α ε)} (h1 : Path M s h t)
    (h2 : Path M t h' u) : Path M s (h ++ h') u := by
  induction h2 with
  | nil => simpa using h1
  | snoc _ he ih =>
    rw [← List.append_assoc]
    exact .snoc ih he

theorem single {e : Transition σ α ε} (he : e.Valid M) : Path M e.before [e] e.after :=
  .snoc (h := []) .nil he

/-- The path to a transition that a path makes, the transition, and the path from it. -/
theorem prefix_of_mem {s t : σ} {h : List (Transition σ α ε)} (hp : Path M s h t)
    {e : Transition σ α ε} (he : e ∈ h) :
    ∃ h1 h2, h = h1 ++ e :: h2 ∧ Path M s h1 e.before ∧ e.Valid M ∧ Path M e.after h2 t := by
  induction hp with
  | nil => simp at he
  | snoc hp hv ih =>
    rename_i g e'
    rcases List.mem_append.mp he with he | he
    · obtain ⟨h1, h2, rfl, p1, v, p2⟩ := ih he
      exact ⟨h1, h2 ++ [e'], by simp, p1, v, .snoc p2 hv⟩
    · rw [List.mem_singleton] at he
      subst he
      exact ⟨g, [], rfl, hp, hv, .nil⟩

theorem valid {s t : σ} {h : List (Transition σ α ε)} (hp : Path M s h t) {e : Transition σ α ε}
    (he : e ∈ h) : e.Valid M := by
  obtain ⟨-, -, -, -, hv, -⟩ := hp.prefix_of_mem he
  exact hv

/-- The path to the transition at an index, the transition, and the path from it. -/
theorem split_getElem? {s t : σ} {h : List (Transition σ α ε)} (hp : Path M s h t) {i : ℕ}
    {e : Transition σ α ε} (he : h[i]? = some e) :
    Path M s (h.take i) e.before ∧ e.Valid M ∧ Path M e.after (h.drop (i + 1)) t := by
  induction hp with
  | nil => simp at he
  | snoc hp hv ih =>
    rename_i g e'
    rcases getElem?_snoc_iff.mp he with he | ⟨rfl, rfl⟩
    · have hi := lt_length_of_getElem? he
      obtain ⟨p1, v, p2⟩ := ih he
      rw [List.take_append_of_le_length (by omega), List.drop_append_of_le_length (by omega)]
      exact ⟨p1, v, .snoc p2 hv⟩
    · rw [List.take_left, List.drop_eq_nil_of_le (by simp)]
      exact ⟨hp, hv, .nil⟩

/-- What is kept by every transition is kept by every path. -/
theorem preserves {s t : σ} {h : List (Transition σ α ε)} {P : σ → Prop} (hp : Path M s h t)
    (hs : P s) (hstep : ∀ e ∈ h, e.Valid M → P e.before → P e.after) : P t := by
  induction hp with
  | nil => exact hs
  | snoc _ hv ih =>
    exact hstep _ (by simp) hv (ih fun e he => hstep e (by simp [he]))

/-- A path on which every transition uses up some of the measure is no longer than the measure. -/
theorem length_le_of_decreasing {s t : σ} {h : List (Transition σ α ε)} (hp : Path M s h t)
    (μ : σ → ℕ) (hstep : ∀ e ∈ h, e.Valid M → μ e.after < μ e.before) :
    h.length + μ t ≤ μ s := by
  induction hp with
  | nil => simp
  | @snoc h e _ hv ih =>
    have h1 := ih fun e' he' => hstep e' (by simp [he'])
    have h2 := hstep e (by simp) hv
    rw [List.length_append, List.length_singleton]
    omega

end Path

/-! ### Machines inside machines -/

section Project

variable {σ' α' ε' : Type} {N : Machine σ' α' ε'}

/-- `N` is a part of `M`: `state` reads its state off the state of `M`, and `step` its transition
off a transition of `M`, none if `N` takes no part in it. -/
structure Part (M : Machine σ α ε) (N : Machine σ' α' ε') where
  state : σ → σ'
  step : Transition σ α ε → Option (Transition σ' α' ε')
  init : state M.init = N.init
  kept : ∀ e, e.Valid M → step e = none → state e.after = state e.before
  moved : ∀ e x, e.Valid M → step e = some x →
    x.Valid N ∧ x.before = state e.before ∧ x.after = state e.after

/-- The history of the part. -/
def Part.history (p : Part M N) (h : List (Transition σ α ε)) : List (Transition σ' α' ε') :=
  h.filterMap p.step

theorem Part.history_snoc (p : Part M N) (h : List (Transition σ α ε)) (e : Transition σ α ε) :
    p.history (h ++ [e]) = p.history h ++ (p.step e).toList := by
  cases he : p.step e <;> simp [history, he]

/-- The paths of a machine are paths of its parts. -/
theorem Part.path (p : Part M N) {s t : σ} {h : List (Transition σ α ε)} (hp : Path M s h t) :
    Path N (p.state s) (p.history h) (p.state t) := by
  induction hp with
  | nil => exact .nil
  | @snoc h e _ hv ih =>
    rw [p.history_snoc]
    cases he : p.step e with
    | none =>
      rw [p.kept e hv he]
      simpa using ih
    | some x =>
      obtain ⟨hx, hbefore, hafter⟩ := p.moved e x hv he
      rw [← hbefore] at ih
      rw [← hafter]
      exact .snoc ih hx

/-- **The runs of a machine are runs of its parts.** -/
theorem Part.run (p : Part M N) {h : List (Transition σ α ε)} {t : σ} (hr : Run M h t) :
    Run N (p.history h) (p.state t) := by
  have h1 := p.path hr
  rwa [p.init] at h1

end Project

/-- The state a list of actions leads to; an action that is not enabled is skipped. -/
def final (M : Machine σ α ε) : σ → List α → σ
  | s, [] => s
  | s, a :: as =>
    match M.step s a with
    | none => final M s as
    | some (t, _) => final M t as

/-- The history of the actions that were enabled. -/
def history (M : Machine σ α ε) : σ → List α → List (Transition σ α ε)
  | _, [] => []
  | s, a :: as =>
    match M.step s a with
    | none => history M s as
    | some (t, out) => ⟨s, a, out, t⟩ :: history M t as

theorem path_history (M : Machine σ α ε) :
    ∀ (as : List α) (s : σ), Path M s (history M s as) (final M s as)
  | [], _ => .nil
  | a :: as, s => by
    rw [history, final]
    split
    · exact path_history M as s
    · next t out h =>
      exact (Path.single (e := ⟨s, a, out, t⟩) h).append (path_history M as t)

/-- **The invariant rule.** `C` is a condition on transitions, `P` a property of a history and the
state it ends in. -/
theorem Run.invariant {C : Transition σ α ε → Prop} {P : List (Transition σ α ε) → σ → Prop}
    (hinit : P [] M.init)
    (hstep : ∀ h e, Run M h e.before → P h e.before → e.Valid M → C e → P (h ++ [e]) e.after) :
    ∀ {h : List (Transition σ α ε)} {t : σ}, Run M h t → (∀ e ∈ h, C e) → P h t := by
  intro h t hr
  induction hr with
  | nil => exact fun _ => hinit
  | snoc hp hv ih =>
    intro hC
    exact hstep _ _ hp (ih fun e he => hC e (by simp [he])) hv (hC _ (by simp))

end Binderd.Lib.Runs
