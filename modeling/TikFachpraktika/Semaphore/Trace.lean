import TikFachpraktika.Semaphore.System
import TikFachpraktika.Transition.Run

/-!
# Traces of semaphore programs

The operations that the threads have performed, the last one first, beside the configuration. What
a thread has performed is known from its program counter as far as its rounds cancel out, so a sum
over the trace is a sum over the prefixes of the programs (`sum_eq_of_traced`). With the value of a
semaphore, which is the difference of its posts and waits, this counts the posts of a run.

## Main definitions

* `traceStep`: the step of a thread that notes its operation.
* `Traced`: the traces of the runs.
* `posts`, `waits`: the posts and waits of a semaphore in a trace.

## Main results

* `Traced.reachable`: traces do not restrict the interleavings.
* `Traced.value_add_waits`: values, posts and waits.
* `Traced.waits_eq`, `Traced.posts_eq`: the waits and posts of a trace, from the program counters.
* `Traced.length_eq`: the length of a trace.
* `Traced.exists_blocked`: runs whose traces are bounded end.
-/

namespace TikFachpraktika.Semaphore

open Finset Transition

variable {ι σ : Type*} [DecidableEq ι] [DecidableEq σ]

instance (v : σ → ℕ) : (op : Op σ) → Decidable (op.Enabled v)
  | .post _ => .isTrue trivial
  | .wait s => inferInstanceAs (Decidable (0 < v s))
  | .tryWait s => inferInstanceAs (Decidable (0 < v s))

/-- Thread `i` performs its next operation and notes it, or fails in a `tryWait`. -/
def traceStep (code : ι → Code σ) (x : List (ι × Op σ) × Config ι σ) (i : ι) :
    Option (List (ι × Op σ) × Config ι σ) :=
  match (code i).body[x.2.pc i]? with
  | none => none
  | some op =>
    if op.Enabled x.2.value then
      some ((i, op) :: x.1,
        ⟨Function.update x.2.pc i ((code i).succ (x.2.pc i)), op.run x.2.value⟩)
    else
      match op with
      | .tryWait _ => some x
      | _ => none

/-- The trace `tr` leads from `c₀` to `c`. -/
def Traced (code : ι → Code σ) (c₀ : Config ι σ) (tr : List (ι × Op σ)) (c : Config ι σ) : Prop :=
  Run (ofFunction (traceStep code)) free ([], c₀) (tr, c)

/-- **What a step does**: an operation is performed and noted, or nothing changes. -/
theorem traceStep_cases {code : ι → Code σ} {x x' : List (ι × Op σ) × Config ι σ} {i : ι}
    (h : traceStep code x i = some x') :
    (∃ op, (code i).body[x.2.pc i]? = some op ∧ op.Enabled x.2.value ∧
      x' = ((i, op) :: x.1,
        ⟨Function.update x.2.pc i ((code i).succ (x.2.pc i)), op.run x.2.value⟩)) ∨
    (Retries code i x.2 x'.2 ∧ x' = x) := by
  rw [traceStep] at h
  cases hop : (code i).body[x.2.pc i]? with
  | none =>
    rw [hop] at h
    cases h
  | some op =>
    rw [hop] at h
    dsimp only at h
    split_ifs at h with hen
    · cases h
      exact .inl ⟨op, rfl, hen, rfl⟩
    · cases op with
      | post s => cases h
      | wait s => cases h
      | tryWait s =>
        cases h
        exact .inr ⟨⟨s, hop, Nat.eq_zero_of_not_pos hen, rfl⟩, rfl⟩

/-- An invariant rule for traces. -/
theorem Traced.invariant {code : ι → Code σ} {c₀ c : Config ι σ} {tr : List (ι × Op σ)}
    (h : Traced code c₀ tr c) {p : List (ι × Op σ) → Config ι σ → Prop} (h₀ : p [] c₀)
    (hstep : ∀ {tr c i op}, p tr c → (code i).body[c.pc i]? = some op → op.Enabled c.value →
      p ((i, op) :: tr) ⟨Function.update c.pc i ((code i).succ (c.pc i)), op.run c.value⟩) :
    p tr c := by
  refine Run.invariant h (p := fun x => p x.1 x.2) h₀ fun {x i x'} hx _ hlast => ?_
  obtain ⟨op, hop, hen, rfl⟩ | ⟨-, rfl⟩ := traceStep_cases hlast
  · exact hstep hx hop hen
  · exact hx

/-- The configurations of traces are reachable. -/
theorem Traced.reachable {code : ι → Code σ} {c₀ c : Config ι σ} {tr : List (ι × Op σ)}
    (h : Traced code c₀ tr c) : Reachable code c₀ c :=
  h.invariant (p := fun _ c => Reachable code c₀ c) .refl fun {_ _ i op} hc hop hen =>
    hc.tail ⟨i, .inl ⟨op, hop, hen, rfl⟩⟩

/-! ### Counting -/

/-- Whether an operation is a post of `s`. -/
def Op.isPost (s : σ) : Op σ → Bool
  | .post t => t = s
  | _ => false

/-- Whether an operation is a wait for `s`. -/
def Op.isWait (s : σ) : Op σ → Bool
  | .wait t | .tryWait t => t = s
  | _ => false

/-- The number of posts of `s` in a trace. -/
def posts (s : σ) (tr : List (ι × Op σ)) : ℕ :=
  tr.countP fun e => e.2.isPost s

/-- The number of waits for `s` in a trace. -/
def waits (s : σ) (tr : List (ι × Op σ)) : ℕ :=
  tr.countP fun e => e.2.isWait s

section Counting

variable {code : ι → Code σ} {c₀ c : Config ι σ} {tr : List (ι × Op σ)}

theorem Op.run_add_isWait (s : σ) {v : σ → ℕ} : {op : Op σ} → op.Enabled v →
    op.run v s + (if op.isWait s then 1 else 0) = v s + (if op.isPost s then 1 else 0)
  | .post t, _ => by
      by_cases hts : t = s
      · subst hts
        simp [Op.run, Op.isPost, Op.isWait]
      · simp [Op.run, Op.isPost, Op.isWait, hts, Function.update_of_ne (Ne.symm hts)]
  | .wait t, hen | .tryWait t, hen => by
      by_cases hts : t = s
      · subst hts
        have hpos : 0 < v t := hen
        simp only [Op.run, Op.isPost, Op.isWait, Function.update_self, decide_true, ↓reduceIte,
          Bool.false_eq_true]
        omega
      · simp [Op.run, Op.isPost, Op.isWait, hts, Function.update_of_ne (Ne.symm hts)]

/-- **The value of a semaphore** is what it was at first, and its posts less its waits. -/
theorem Traced.value_add_waits (h : Traced code c₀ tr c) (s : σ) :
    c.value s + waits s tr = c₀.value s + posts s tr := by
  refine h.invariant (p := fun tr c => c.value s + waits s tr = c₀.value s + posts s tr) rfl
    fun {tr c i op} ih hop hen => ?_
  have hrun := Op.run_add_isWait s hen
  rw [posts, waits, List.countP_cons, List.countP_cons] at *
  dsimp only at hrun ⊢
  omega

omit [DecidableEq ι] [DecidableEq σ] in
/-- A count as a sum. -/
private theorem natCast_countP (p : ι × Op σ → Bool) (tr : List (ι × Op σ)) :
    (tr.countP p : ℤ) = (tr.map fun e => if p e then 1 else 0).sum := by
  induction tr with
  | nil => rfl
  | cons e tr ih =>
    rw [List.countP_cons, List.map_cons, List.sum_cons, ← ih]
    push_cast
    ring

variable [Fintype ι]

/-- **A sum over a trace** is one over the prefixes of the programs, when each round of a looping
program has sum zero. -/
theorem sum_eq_of_traced {φ : ι → Op σ → ℤ}
    (hφ : ∀ i, (code i).loops → (code i).total (φ i) (code i).body.length = 0)
    (h₀ : ∀ i, c₀.pc i = 0) (h : Traced code c₀ tr c) :
    (tr.map fun e => φ e.1 e.2).sum = ∑ i, (code i).total (φ i) (c.pc i) := by
  refine h.invariant (p := fun tr c => (tr.map fun e => φ e.1 e.2).sum =
    ∑ i, (code i).total (φ i) (c.pc i)) (by simp [h₀]) fun {tr c i op} ih hop _ => ?_
  rw [sum_comp_update (fun j => (code j).total (φ j)), Code.total_succ (hφ i) hop, List.map_cons,
    List.sum_cons, ih]
  ring

/-- **The waits for a semaphore**, when no looping program waits for it. -/
theorem Traced.waits_eq (h : Traced code c₀ tr c) (h₀ : ∀ i, c₀.pc i = 0) {s : σ}
    (hloops : ∀ i, (code i).loops → ∀ op ∈ (code i).body, op.isWait s = false) :
    (waits s tr : ℤ) =
      ∑ i, (code i).total (fun op => if op.isWait s then 1 else 0) (c.pc i) := by
  have hsum := sum_eq_of_traced (fun i hi => Code.total_eq_zero (φ := fun op =>
    if op.isWait s then 1 else 0) (fun op hop => by simp [hloops i hi op hop]) _) h₀ h
  rw [← hsum, waits, natCast_countP]

/-- **The posts of a semaphore**, when no looping program posts it. -/
theorem Traced.posts_eq (h : Traced code c₀ tr c) (h₀ : ∀ i, c₀.pc i = 0) {s : σ}
    (hloops : ∀ i, (code i).loops → ∀ op ∈ (code i).body, op.isPost s = false) :
    (posts s tr : ℤ) =
      ∑ i, (code i).total (fun op => if op.isPost s then 1 else 0) (c.pc i) := by
  have hsum := sum_eq_of_traced (fun i hi => Code.total_eq_zero (φ := fun op =>
    if op.isPost s then 1 else 0) (fun op hop => by simp [hloops i hi op hop]) _) h₀ h
  rw [← hsum, posts, natCast_countP]

/-- **The length of a trace**, when each round of a looping program has `r` operations for each of
its waits for `s`. -/
theorem Traced.length_eq (h : Traced code c₀ tr c) (h₀ : ∀ i, c₀.pc i = 0) (s : σ) (r : ℤ)
    (hround : ∀ i, (code i).loops →
      (code i).total (fun op => 1 - r * if op.isWait s then 1 else 0) (code i).body.length = 0) :
    (tr.length : ℤ) = r * waits s tr +
      ∑ i, (code i).total (fun op => 1 - r * if op.isWait s then 1 else 0) (c.pc i) := by
  have hlen : (tr.map fun e => 1 - r * if e.2.isWait s then 1 else 0).sum =
      (tr.length : ℤ) - r * waits s tr := by
    rw [waits, natCast_countP]
    clear h
    induction tr with
    | nil => simp
    | cons e tr ih =>
      rw [List.map_cons, List.sum_cons, ih, List.length_cons, List.map_cons, List.sum_cons]
      push_cast
      ring
  rw [← sum_eq_of_traced hround h₀ h, hlen]
  ring

end Counting

/-! ### Runs that end -/

section Bounded

variable {code : ι → Code σ} {c₀ : Config ι σ}

/-- An operation that is performed is added to the trace. -/
theorem Traced.cons_of_enabled {tr : List (ι × Op σ)} {c : Config ι σ} (h : Traced code c₀ tr c)
    {i : ι} {op : Op σ} (hop : (code i).body[c.pc i]? = some op) (hen : op.Enabled c.value) :
    Traced code c₀ ((i, op) :: tr)
      ⟨Function.update c.pc i ((code i).succ (c.pc i)), op.run c.value⟩ := by
  refine Run.step (a := i) h trivial ?_
  rw [ofFunction, traceStep, hop]
  exact if_pos hen

/-- An advance adds an operation to the trace. -/
theorem Traced.cons {tr : List (ι × Op σ)} {c c' : Config ι σ} (h : Traced code c₀ tr c) {i : ι}
    (hadv : Advances code i c c') : ∃ op, Traced code c₀ ((i, op) :: tr) c' := by
  obtain ⟨op, hop, hen, rfl⟩ := hadv
  exact ⟨op, h.cons_of_enabled hop hen⟩

/-- **If the traces are bounded, every run ends**: it can be continued until no thread can
advance. -/
theorem Traced.exists_blocked {n : ℕ}
    (hbound : ∀ {tr c}, Traced code c₀ tr c → tr.length ≤ n) {tr : List (ι × Op σ)}
    {c : Config ι σ} (h : Traced code c₀ tr c) :
    ∃ tr' c', Traced code c₀ (tr' ++ tr) c' ∧ ∀ i c'', ¬Advances code i c' c'' := by
  by_cases hadv : ∃ i c', Advances code i c c'
  · obtain ⟨i, c₁, hadv⟩ := hadv
    obtain ⟨op, hcons⟩ := h.cons hadv
    have hlt : n - ((i, op) :: tr).length < n - tr.length := by
      have hle := hbound hcons
      rw [List.length_cons] at hle ⊢
      omega
    obtain ⟨tr', c', htrace, hblocked⟩ := exists_blocked hbound hcons
    exact ⟨tr' ++ [(i, op)], c', by rwa [List.append_assoc], hblocked⟩
  · exact ⟨[], c, h, fun i c' hi => hadv ⟨i, c', hi⟩⟩
termination_by n - tr.length

end Bounded

end TikFachpraktika.Semaphore
