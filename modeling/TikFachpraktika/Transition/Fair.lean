import Mathlib.Data.Nat.Init
import TikFachpraktika.Transition.Run

/-!
# Fair schedules

A schedule names the action that is tried at each time, and an action that cannot be taken changes
nothing. A schedule is fair if each action comes again and again. Processes that wait by repeating a
load take steps that change nothing, so that a run may be infinite without getting anywhere; under a
fair schedule it gets somewhere as long as some action would.

## Main definitions

* `stateAt`: the states of the run of a schedule.
* `Fair`: the fair schedules.

## Main results

* `run_stateAt`: these states are reached by runs.
* `Fair.exists_done`: the progress rule.
-/

namespace TikFachpraktika.Transition

variable {σ α : Type*} {next : σ → α → Option σ} {s₀ : σ} {sched : ℕ → α}

/-- The state at a time of the run of a schedule. -/
def stateAt (next : σ → α → Option σ) (s₀ : σ) (sched : ℕ → α) : ℕ → σ
  | 0 => s₀
  | k + 1 => (next (stateAt next s₀ sched k) (sched k)).getD (stateAt next s₀ sched k)

/-- Each action comes again after every time. -/
def Fair (sched : ℕ → α) : Prop :=
  ∀ a k, ∃ j, k ≤ j ∧ sched j = a

/-- An action that is taken leads to the next state. -/
theorem stateAt_succ_of_eq_some {k : ℕ} {s' : σ}
    (h : next (stateAt next s₀ sched k) (sched k) = some s') :
    stateAt next s₀ sched (k + 1) = s' := by
  rw [stateAt, h, Option.getD_some]

/-- **Invariant rule** for one schedule. -/
theorem stateAt_invariant {p : σ → Prop} (h₀ : p s₀)
    (hstep : ∀ k s', p (stateAt next s₀ sched k) →
      next (stateAt next s₀ sched k) (sched k) = some s' → p s') :
    (k : ℕ) → p (stateAt next s₀ sched k)
  | 0 => h₀
  | k + 1 => by
      have hk := stateAt_invariant h₀ hstep k
      rw [stateAt]
      cases hnext : next (stateAt next s₀ sched k) (sched k) with
      | none => exact hk
      | some s' => exact hstep k s' hk hnext

/-- The states of a schedule are reached by runs. -/
theorem run_stateAt {cond : σ → α → Prop}
    (hcond : ∀ k, cond (stateAt next s₀ sched k) (sched k)) (k : ℕ) :
    Run (ofFunction next) cond s₀ (stateAt next s₀ sched k) :=
  stateAt_invariant .refl (fun k _ hrun hnext => hrun.step (hcond k) hnext) k

/-- A state that no action leaves is the last one. -/
theorem stateAt_of_le {s : σ} (hs : ∀ a s', next s a = some s' → s' = s) {k j : ℕ} (hkj : k ≤ j)
    (hk : stateAt next s₀ sched k = s) : stateAt next s₀ sched j = s := by
  induction j, hkj using Nat.le_induction with
  | base => exact hk
  | succ j _ ih =>
    rw [stateAt, ih]
    cases hnext : next s (sched j) with
    | none => rfl
    | some s' => exact hs _ _ hnext

/-- **Progress rule.** Each action changes nothing or makes the rank of the state smaller, and in
every state that is not done some action makes it smaller. Then under a fair schedule some state is
done. -/
theorem Fair.exists_done (hfair : Fair sched) {inv done : σ → Prop} (rank : σ → ℕ)
    (hinv : ∀ k, inv (stateAt next s₀ sched k))
    (hstep : ∀ s a s', inv s → next s a = some s' → s' = s ∨ rank s' < rank s)
    (hhelp : ∀ s, inv s → ¬done s → ∃ a s', next s a = some s' ∧ rank s' < rank s) (k : ℕ) :
    ∃ j, k ≤ j ∧ done (stateAt next s₀ sched j) := by
  -- as long as the rank is not smaller, the state is the same
  have hsame : ∀ d, stateAt next s₀ sched (k + d) = stateAt next s₀ sched k ∨
      ∃ j, k ≤ j ∧ rank (stateAt next s₀ sched j) < rank (stateAt next s₀ sched k) := by
    intro d
    induction d with
    | zero => exact .inl rfl
    | succ d ih =>
      rcases ih with heq | hless
      · have hdef : stateAt next s₀ sched (k + (d + 1)) = (next (stateAt next s₀ sched (k + d))
          (sched (k + d))).getD (stateAt next s₀ sched (k + d)) := rfl
        rw [heq] at hdef
        cases hnext : next (stateAt next s₀ sched k) (sched (k + d)) with
        | none => exact .inl (by rw [hdef, hnext, Option.getD_none])
        | some s' =>
          rw [hnext, Option.getD_some] at hdef
          rcases hstep _ _ _ (hinv k) hnext with hs' | hlt
          · exact .inl (hdef.trans hs')
          · exact .inr ⟨k + (d + 1), Nat.le_add_right _ _, by rwa [hdef]⟩
      · exact .inr hless
  by_cases hdone : done (stateAt next s₀ sched k)
  · exact ⟨k, Nat.le_refl k, hdone⟩
  · -- the action that helps comes at some time
    obtain ⟨a, s', hnext, hlt⟩ := hhelp _ (hinv k) hdone
    obtain ⟨i, hki, rfl⟩ := hfair a k
    have hless : ∃ j, k ≤ j ∧
        rank (stateAt next s₀ sched j) < rank (stateAt next s₀ sched k) := by
      rcases hsame (i - k) with heq | hless
      · rw [Nat.add_sub_cancel' hki] at heq
        rw [← heq] at hnext
        exact ⟨i + 1, by omega, by rwa [stateAt_succ_of_eq_some hnext]⟩
      · exact hless
    obtain ⟨j, hkj, hj⟩ := hless
    obtain ⟨m, hjm, hm⟩ := hfair.exists_done rank hinv hstep hhelp j
    exact ⟨m, Nat.le_trans hkj hjm, hm⟩
termination_by rank (stateAt next s₀ sched k)

end TikFachpraktika.Transition
