import Binderd.Lib.Runs

/-! # Specifications

A specification is a transition system whose steps have labels: the label is what is to be seen of
a step, and which of the steps with a label is made is left open. A *trace* is the list of the
labels on a way through it.

A machine *implements* a specification if each of its transitions is a step of the specification,
seen through an abstraction of its states. The transition may be assumed to come after a run, so
that the invariants of the machine are at hand, and to meet a condition.

* `Trace.preserves`: what is kept by every step is kept by every trace;
* `Implements.path`, `Implements.run`: the paths of the machine are traces of the specification;
* `Implements.invariant`: an invariant of the specification holds of all states that the machine
  reaches. -/

namespace Binderd.Lib.Refinement

open Binderd.Lib.Runs

variable {σ α ε τ ℓ : Type}

/-- An abstract machine: where it starts, and which steps with which labels it may make. -/
structure Spec (τ ℓ : Type) where
  init : τ
  Step : τ → ℓ → τ → Prop

/-- The traces from `s`. -/
inductive Trace (S : Spec τ ℓ) (s : τ) : List ℓ → τ → Prop
  | nil : Trace S s [] s
  | snoc {as : List ℓ} {a : ℓ} {t u : τ} : Trace S s as t → S.Step t a u → Trace S s (as ++ [a]) u

/-- What is kept by every step is kept by every trace. -/
theorem Trace.preserves {S : Spec τ ℓ} {s t : τ} {as : List ℓ} {P : τ → Prop}
    (ht : Trace S s as t) (hs : P s) (hstep : ∀ s a t, P s → S.Step s a t → P t) : P t := by
  induction ht with
  | nil => exact hs
  | snoc _ h ih => exact hstep _ _ _ ih h

/-- `C` is a condition on the transitions of `M`. -/
structure Implements (M : Machine σ α ε) (S : Spec τ ℓ) (C : Transition σ α ε → Prop) where
  abs : σ → τ
  label : Transition σ α ε → ℓ
  init : abs M.init = S.init
  step : ∀ h e, Run M h e.before → e.Valid M → C e → S.Step (abs e.before) (label e) (abs e.after)

namespace Implements

variable {M : Machine σ α ε} {S : Spec τ ℓ} {C : Transition σ α ε → Prop} (i : Implements M S C)

/-- **The paths that go on from a run are traces.** -/
theorem path {h₀ h : List (Transition σ α ε)} {s t : σ} (hr : Run M h₀ s) (hp : Path M s h t)
    (hC : ∀ e ∈ h, C e) : Trace S (i.abs s) (h.map i.label) (i.abs t) := by
  induction hp with
  | nil => exact .nil
  | snoc hp hv ih =>
    rw [List.map_append]
    exact .snoc (ih fun e he => hC e (by simp [he]))
      (i.step _ _ (hr.append hp) hv (hC _ (by simp)))

theorem run {h : List (Transition σ α ε)} {t : σ} (hr : Run M h t) (hC : ∀ e ∈ h, C e) :
    Trace S S.init (h.map i.label) (i.abs t) := by
  have ht := i.path .nil hr hC
  rwa [i.init] at ht

/-- **Invariants are inherited.** -/
theorem invariant {P : τ → Prop} (hinit : P S.init) (hstep : ∀ s a t, P s → S.Step s a t → P t)
    {h : List (Transition σ α ε)} {t : σ} (hr : Run M h t) (hC : ∀ e ∈ h, C e) : P (i.abs t) :=
  (i.run hr hC).preserves hinit hstep

end Implements

end Binderd.Lib.Refinement
