import Mathlib.Data.List.Infix

/-!
# Traces, simulations and journals

A trace is a run together with its actions in the order in which they were taken. A simulation
relates the states of a system to the states of a model that reacts to each action by a function;
it carries over from a step to a trace.

A system keeps a journal if some of its participants hold a log, and every action adds to these
logs what the participants are to see of the action. Then the logs are views of one common journal,
the actions of the trace: that of a participant begins with the action by which it has joined.

## Main definitions

* `Trace`: the states of runs, with the actions.
* `Journals`: what an action may do to the logs.

## Main results

* `Trace.invariant`, `Trace.simulates`: the rules for invariants and for simulations.
* `Trace.exists_done`: the progress rule.
* `exists_view_of_trace`: the logs are views of the journal.
-/

namespace TikFachpraktika.Transition

variable {σ τ α : Type*}

/-- The states that are reached from `s₀` by steps that meet the condition `cond`, with the actions
of these steps. -/
inductive Trace (step : σ → α → σ → Prop) (cond : σ → α → Prop) (s₀ : σ) : List α → σ → Prop
  | nil : Trace step cond s₀ [] s₀
  | snoc {as : List α} {s s' : σ} {a : α} (htrace : Trace step cond s₀ as s) (hcond : cond s a)
      (hstep : step s a s') : Trace step cond s₀ (as ++ [a]) s'

namespace Trace

variable {step : σ → α → σ → Prop} {cond : σ → α → Prop} {s₀ s : σ} {as : List α}

/-- **Invariant rule** for the actions and the state. -/
theorem invariant (h : Trace step cond s₀ as s) {p : List α → σ → Prop} (h₀ : p [] s₀)
    (hstep : ∀ {as s a s'}, p as s → cond s a → step s a s' → p (as ++ [a]) s') : p as s := by
  induction h with
  | nil => exact h₀
  | snoc _ hcond hlast ih => exact hstep ih hcond hlast

/-- **Simulation rule.** A relation with the model that every step keeps, in the states that
satisfy an invariant, holds after every trace. -/
theorem simulates (h : Trace step cond s₀ as s) {next : τ → α → τ} {p : σ → Prop}
    {R : σ → τ → Prop} {t₀ : τ} (hp₀ : p s₀) (hR₀ : R s₀ t₀)
    (hp : ∀ {s a s'}, p s → cond s a → step s a s' → p s')
    (hR : ∀ {s a s' t}, p s → R s t → cond s a → step s a s' → R s' (next t a)) :
    p s ∧ R s (as.foldl next t₀) := by
  refine h.invariant (p := fun as s => p s ∧ R s (as.foldl next t₀)) ⟨hp₀, hR₀⟩
    fun {as s a s'} hs hcond hlast => ?_
  rw [List.foldl_append, List.foldl_cons, List.foldl_nil]
  exact ⟨hp hs.1 hcond hlast, hR hs.1 hs.2 hcond hlast⟩

/-- **Progress rule.** Every step makes the rank larger, which is bounded, and in a state that is
not done some step is possible. Then the bound is one for the length of a trace, and every trace
goes on to a state that is done. -/
theorem exists_done {s : σ} {as : List α} (h : Trace step cond s₀ as s) {p done : σ → Prop}
    (rank : σ → ℕ) {n : ℕ} (hbound : ∀ {s}, p s → rank s ≤ n) (hp₀ : p s₀)
    (hp : ∀ {s a s'}, p s → cond s a → step s a s' → p s')
    (hrank : ∀ {s a s'}, p s → step s a s' → rank s < rank s')
    (hprogress : ∀ {s}, p s → ¬done s → ∃ a s', cond s a ∧ step s a s') :
    as.length ≤ n ∧ ∃ as' s', Trace step cond s₀ (as ++ as') s' ∧ done s' := by
  obtain ⟨hs, hlen⟩ := h.invariant (p := fun as s => p s ∧ as.length ≤ rank s)
    ⟨hp₀, Nat.zero_le _⟩ fun hs hcond hlast => by
      have hlt := hrank hs.1 hlast
      rw [List.length_append, List.length_singleton]
      exact ⟨hp hs.1 hcond hlast, by omega⟩
  refine ⟨hlen.trans (hbound hs), ?_⟩
  by_cases hdone : done s
  · exact ⟨[], s, by rwa [List.append_nil], hdone⟩
  · obtain ⟨a, s', hcond, hstep⟩ := hprogress hs hdone
    have hlt := hrank hs hstep
    have hle := hbound (hp hs hcond hstep)
    obtain ⟨-, as', s'', htrace, hdone'⟩ :=
      (h.snoc hcond hstep).exists_done rank hbound hp₀ hp hrank hprogress
    exact ⟨a :: as', s'', by rwa [List.append_assoc] at htrace, hdone'⟩
termination_by n - rank s

end Trace

/-! ### Journals -/

section Journal

variable {ι ε : Type*}

/-- An action `e` may make participants leave; for each one who is there afterwards it has added
what the participant is to see to its log, or it has made the participant join, with this as the
first text in its log. -/
def Journals (joins : ε → ι → Prop) (view : ε → ι → List τ) (logs : ι → Option (List τ)) (e : ε)
    (logs' : ι → Option (List τ)) : Prop :=
  ∀ i l', logs' i = some l' → joins e i ∧ l' = view e i ∨ ∃ l, logs i = some l ∧ l' = l ++ view e i

/-- **The logs are views of the journal**: each is what the participant is to see of the actions
from that on by which it has joined. -/
theorem exists_view_of_trace {joins : ε → ι → Prop} {view : ε → ι → List τ}
    {cond : (ι → Option (List τ)) → ε → Prop} {logs : ι → Option (List τ)} {es : List ε}
    (h : Trace (Journals joins view) cond (fun _ => none) es logs) {i : ι} {l : List τ}
    (hl : logs i = some l) :
    ∃ e since, joins e i ∧ e :: since <:+ es ∧ l = (e :: since).flatMap (view · i) := by
  induction h generalizing l with
  | nil => cases hl
  | @snoc es logs logs' e htrace _ hstep ih =>
    obtain ⟨hjoins, rfl⟩ | ⟨l₀, hl₀, rfl⟩ := hstep i l hl
    · exact ⟨e, [], hjoins, List.suffix_append es [e], by rw [List.flatMap_singleton]⟩
    · obtain ⟨e₀, since, hjoins, ⟨before, rfl⟩, rfl⟩ := ih hl₀
      refine ⟨e₀, since ++ [e], hjoins, ⟨before, ?_⟩, ?_⟩
      · rw [List.append_assoc, List.cons_append]
      · rw [← List.cons_append, List.flatMap_append, List.flatMap_singleton]

end Journal

end TikFachpraktika.Transition
