import Mathlib.Order.WellFounded
import Binderd.Lib.Runs

/-! # Coming to rest

Some of the actions of a machine are its own, and the others come from outside. A machine comes to
rest when there is a measure that each of its own actions decreases, in the states of an invariant
that they keep: left to itself it does not go on forever, and it can go on to a state in which it
can do nothing more of its own. -/

namespace Binderd.Lib.Progress

open Binderd.Lib.Runs

variable {σ α ε β : Type} {M : Machine σ α ε} {C : α → Prop} {I : σ → Prop} {μ : σ → β}

/-- No action of the kind `C` is possible. -/
def Stuck (M : Machine σ α ε) (C : α → Prop) (s : σ) : Prop := ∀ a, C a → M.step s a = none

/-- The actions of the kind `C` keep the invariant and decrease the measure. -/
def Decreases [LT β] (M : Machine σ α ε) (C : α → Prop) (I : σ → Prop) (μ : σ → β) : Prop :=
  ∀ s a r, I s → C a → M.step s a = some r → I r.1 ∧ μ r.1 < μ s

/-- The machine can go on to a state where it is stuck. -/
theorem Decreases.exists_stuck [Preorder β] [WellFoundedLT β] (h : Decreases M C I μ) {s : σ}
    (hs : I s) : ∃ g t, Path M s g t ∧ (∀ e ∈ g, C e.action) ∧ Stuck M C t := by
  -- by induction on the measure
  generalize hn : μ s = n
  induction n using WellFoundedLT.induction generalizing s with
  | ind n ih =>
    by_cases hstuck : Stuck M C s
    · exact ⟨[], s, .nil, by simp, hstuck⟩
    · simp only [Stuck, not_forall] at hstuck
      obtain ⟨a, ha, hne⟩ := hstuck
      obtain ⟨r, hr⟩ := Option.ne_none_iff_exists'.mp hne
      obtain ⟨hI, hlt⟩ := h s a r hs ha hr
      obtain ⟨g, t, hp, hC, hstuck⟩ := ih _ (hn ▸ hlt) hI rfl
      let e : Transition σ α ε := ⟨s, a, r.2, r.1⟩
      have he : Path M s [e] r.1 := .single (e := e) hr
      refine ⟨[e] ++ g, t, he.append hp, ?_, hstuck⟩
      intro x hx
      rcases List.mem_append.mp hx with hx | hx
      · rw [List.mem_singleton.mp hx]
        exact ha
      · exact hC x hx

/-- The machine does not go on forever. -/
theorem Decreases.not_forever [Preorder β] [WellFoundedLT β] (h : Decreases M C I μ) {f : ℕ → σ}
    (h0 : I (f 0)) : ¬ ∀ n, ∃ a es, C a ∧ M.step (f n) a = some (f (n + 1), es) := by
  intro hf
  have hI : ∀ n, I (f n) := by
    intro n
    induction n with
    | zero => exact h0
    | succ n ih =>
      obtain ⟨a, es, ha, hstep⟩ := hf n
      exact (h (f n) a _ ih ha hstep).1
  obtain ⟨n, hn⟩ := WellFounded.not_rel_apply_succ (r := (· < ·)) fun n => μ (f n)
  obtain ⟨a, es, ha, hstep⟩ := hf n
  exact hn (h (f n) a _ (hI n) ha hstep).2

end Binderd.Lib.Progress
