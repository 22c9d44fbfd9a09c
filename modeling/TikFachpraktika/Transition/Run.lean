import Mathlib.Tactic.SplitIfs

/-!
# Runs of labelled transition systems

A system is given by its labelled steps `step s a s'`: in state `s` the action `a` leads to `s'`.
A run takes any finite number of steps, one after the other, and may be restricted to steps that
meet a condition on the state before the step and the action. Without a condition the runs are all
interleavings of the actions.

## Main definitions

* `Run`: the states that runs under a condition reach.
* `ofFunction`, `schedule`: systems given by a step function, and the state after given actions.

## Main results

* `Run.invariant`: the invariant rule.
* `Run.of_schedule`: the state after given actions is reached by a run.
-/

namespace TikFachpraktika.Transition

variable {σ α : Type*}

/-- The states that are reached from `s₀` by steps that meet the condition `cond`. -/
inductive Run (step : σ → α → σ → Prop) (cond : σ → α → Prop) (s₀ : σ) : σ → Prop
  | refl : Run step cond s₀ s₀
  | step {s s' : σ} {a : α} (hrun : Run step cond s₀ s) (hcond : cond s a)
      (hstep : step s a s') : Run step cond s₀ s'

/-- No condition on the steps of a run. -/
def free (_ : σ) (_ : α) : Prop := True

instance (s : σ) (a : α) : Decidable (free s a) :=
  .isTrue trivial

namespace Run

variable {step : σ → α → σ → Prop} {cond cond' : σ → α → Prop} {s₀ s s' : σ}

/-- **Invariant rule.** What holds at the start and is kept by every step that meets the condition
holds in every state of a run. -/
theorem invariant (h : Run step cond s₀ s) {p : σ → Prop} (h₀ : p s₀)
    (hstep : ∀ {s a s'}, p s → cond s a → step s a s' → p s') : p s := by
  induction h with
  | refl => exact h₀
  | step _ hcond hlast ih => exact hstep ih hcond hlast

/-- A run from a state that a run reaches. -/
theorem trans {s₁ : σ} (h : Run step cond s₀ s₁) (h' : Run step cond s₁ s) :
    Run step cond s₀ s := by
  induction h' with
  | refl => exact h
  | step _ hcond hlast ih => exact ih.step hcond hlast

/-- A run under a condition is one under a weaker condition. -/
theorem mono (h : Run step cond s₀ s) (hcond : ∀ {s a}, cond s a → cond' s a) :
    Run step cond' s₀ s := by
  induction h with
  | refl => exact .refl
  | step _ hc hlast ih => exact ih.step (hcond hc) hlast

end Run

/-! ### Systems with a step function -/

/-- The steps of a system in which an action has at most one outcome. -/
def ofFunction (next : σ → α → Option σ) (s : σ) (a : α) (s' : σ) : Prop :=
  next s a = some s'

/-- The state after some actions, each of which meets the condition. -/
def schedule (next : σ → α → Option σ) (cond : σ → α → Prop) [∀ s a, Decidable (cond s a)] :
    σ → List α → Option σ
  | s, [] => some s
  | s, a :: as => if cond s a then (next s a).bind fun s' => schedule next cond s' as else none

/-- The state after some actions is reached by a run. -/
theorem Run.of_schedule {next : σ → α → Option σ} {cond : σ → α → Prop}
    [∀ s a, Decidable (cond s a)] {s₀ s' : σ} : {as : List α} → {s : σ} →
    Run (ofFunction next) cond s₀ s → schedule next cond s as = some s' →
    Run (ofFunction next) cond s₀ s'
  | [], s, hrun, h => by
      cases h
      exact hrun
  | a :: as, s, hrun, h => by
      rw [schedule] at h
      split_ifs at h with hcond
      obtain ⟨s₁, hstep, hrest⟩ := Option.bind_eq_some_iff.mp h
      exact (hrun.step hcond hstep).of_schedule hrest

end TikFachpraktika.Transition
