import Mathlib.Algebra.BigOperators.Fin
import Mathlib.Algebra.Order.BigOperators.Group.Finset
import Mathlib.Data.Fintype.BigOperators
import Mathlib.Logic.Relation
import Mathlib.Tactic.Ring

/-!
# Threads over counting semaphores

A thread program is a list of operations on counting semaphores, run once or in an endless loop.
A configuration holds the program counter of every thread and the value of every semaphore, and
one step lets one thread perform its next operation.

Give every semaphore `s` a weight `w s`. A post of `s` adds `w s` to the weighted sum of the
semaphore values and a wait subtracts it, so the weighted sum is known from the program counters
alone as soon as every looping program has total gain zero (`Config.stateEquation`). Every
counting relation between the positions of the threads is an instance for one choice of `w`.

## Main definitions

* `Op`, `Code`, `Config`: operations, thread programs and configurations.
* `Advances`, `Retries`, `Step`, `Reachable`: the interleaving semantics.
* `Code.total`, `Op.gain`, `Code.gain`: sums over a prefix of a program, and its weighted gain.

## Main results

* `Config.stateEquation`: the weighted sum of the semaphore values in a reachable configuration.
* `Reachable.pc_lt_of_loops`, `Reachable.pc_le`: program counters stay inside their program.
* `sum_comp_eq_sum_count`: a sum over threads counted by program counter.
-/

namespace TikFachpraktika.Semaphore

open Finset

/-- An operation of a thread on a counting semaphore. A `tryWait` is a non-blocking wait whose
caller repeats it until it succeeds. -/
inductive Op (σ : Type*)
  | post (s : σ)
  | wait (s : σ)
  | tryWait (s : σ)
  deriving DecidableEq

/-- A straight-line thread program, started again at its end when `loops` is set. -/
structure Code (σ : Type*) where
  body : List (Op σ)
  loops : Bool

/-- The program counters of all threads and the values of all semaphores. -/
@[ext]
structure Config (ι σ : Type*) where
  pc : ι → ℕ
  value : σ → ℕ

variable {ι σ : Type*}

/-- Changing one coordinate of `g` changes a sum over the coordinates in one summand. -/
theorem sum_comp_update [DecidableEq ι] [Fintype ι] {α : Type*} (f : ι → α → ℤ) (g : ι → α)
    (i : ι) (a : α) :
    ∑ j, f j (Function.update g i a j) = ∑ j, f j (g j) + (f i a - f i (g i)) := by
  rw [← add_sum_erase _ _ (mem_univ i), ← add_sum_erase _ _ (mem_univ i)]
  have herase : ∑ j ∈ univ.erase i, f j (Function.update g i a j) =
      ∑ j ∈ univ.erase i, f j (g j) :=
    sum_congr rfl fun j hj => by rw [Function.update_of_ne (ne_of_mem_erase hj)]
  rw [herase, Function.update_self]
  ring

/-! ### Operations and programs -/

namespace Op

/-- A post is always possible, a wait needs a positive value. -/
def Enabled (v : σ → ℕ) : Op σ → Prop
  | post _ => True
  | wait s | tryWait s => 0 < v s

/-- The semaphore values after an operation. -/
def run [DecidableEq σ] (v : σ → ℕ) : Op σ → σ → ℕ
  | post s => Function.update v s (v s + 1)
  | wait s | tryWait s => Function.update v s (v s - 1)

/-- What an operation adds to the sum of the semaphore values weighted by `w`. -/
def gain (w : σ → ℤ) : Op σ → ℤ
  | post s => w s
  | wait s | tryWait s => -w s

/-- An enabled operation changes the weighted sum of the semaphore values by its gain. -/
theorem sum_run [DecidableEq σ] [Fintype σ] (w : σ → ℤ) {v : σ → ℕ} {op : Op σ}
    (h : op.Enabled v) :
    ∑ s, w s * (op.run v s : ℤ) = ∑ s, w s * (v s : ℤ) + op.gain w := by
  have hwait (s : σ) (hs : 0 < v s) :
      ∑ t, w t * (Function.update v s (v s - 1) t : ℤ) = ∑ t, w t * (v t : ℤ) + -w s := by
    rw [sum_comp_update (fun t (n : ℕ) => w t * (n : ℤ)), Nat.cast_pred hs]
    ring
  cases op with
  | post s =>
    rw [run, sum_comp_update (fun t (n : ℕ) => w t * (n : ℤ)), gain]
    push_cast
    ring
  | wait s => exact hwait s h
  | tryWait s => exact hwait s h

end Op

namespace Code

/-- The program counter after the operation at `pc`. -/
def succ (C : Code σ) (pc : ℕ) : ℕ :=
  if C.loops ∧ pc + 1 = C.body.length then 0 else pc + 1

/-- The sum of `φ` over the first `pc` operations. -/
def total (φ : Op σ → ℤ) (C : Code σ) (pc : ℕ) : ℤ :=
  ((C.body.take pc).map φ).sum

@[simp] theorem total_zero (φ : Op σ → ℤ) (C : Code σ) : C.total φ 0 = 0 := rfl

theorem total_add_one (φ : Op σ → ℤ) (C : Code σ) {pc : ℕ} {op : Op σ}
    (h : C.body[pc]? = some op) : C.total φ (pc + 1) = C.total φ pc + φ op := by
  simp [total, List.take_add_one, h]

/-- When a round of a looping program has total zero, the total moves with the program counter,
also when the program starts again. -/
theorem total_succ {φ : Op σ → ℤ} {C : Code σ} (hφ : C.loops → C.total φ C.body.length = 0)
    {pc : ℕ} {op : Op σ} (h : C.body[pc]? = some op) :
    C.total φ (C.succ pc) = C.total φ pc + φ op := by
  rw [← total_add_one φ C h, succ]
  split_ifs with hend
  · rw [total_zero, hend.2, hφ hend.1]
  · rfl

/-- A program has total zero if its operations have. -/
theorem total_eq_zero {φ : Op σ → ℤ} {C : Code σ} (hφ : ∀ op ∈ C.body, φ op = 0) (pc : ℕ) :
    C.total φ pc = 0 := by
  refine List.sum_eq_zero fun x hx => ?_
  obtain ⟨op, hop, rfl⟩ := List.mem_map.mp hx
  exact hφ op (List.mem_of_mem_take hop)

/-- The total gain of the first `pc` operations. -/
def gain (w : σ → ℤ) (C : Code σ) (pc : ℕ) : ℤ :=
  ((C.body.take pc).map (Op.gain w)).sum

/-- A looping program is balanced when one round has total gain zero. -/
def Balanced (w : σ → ℤ) (C : Code σ) : Prop :=
  C.loops → C.gain w C.body.length = 0

@[simp] theorem gain_zero (w : σ → ℤ) (C : Code σ) : C.gain w 0 = 0 := rfl

/-- In a balanced program the gain of a prefix moves with the program counter. -/
theorem gain_succ {w : σ → ℤ} {C : Code σ} (hw : C.Balanced w) {pc : ℕ} {op : Op σ}
    (h : C.body[pc]? = some op) : C.gain w (C.succ pc) = C.gain w pc + op.gain w :=
  total_succ hw h

end Code

/-! ### The interleaving semantics -/

variable [DecidableEq ι] [DecidableEq σ]

/-- Thread `i` performs its next operation. -/
def Advances (code : ι → Code σ) (i : ι) (c c' : Config ι σ) : Prop :=
  ∃ op, (code i).body[c.pc i]? = some op ∧ op.Enabled c.value ∧
    c' = ⟨Function.update c.pc i ((code i).succ (c.pc i)), op.run c.value⟩

omit [DecidableEq ι] [DecidableEq σ] in
/-- Thread `i` fails in a `tryWait` and stays in front of it. -/
def Retries (code : ι → Code σ) (i : ι) (c c' : Config ι σ) : Prop :=
  ∃ s, (code i).body[c.pc i]? = some (.tryWait s) ∧ c.value s = 0 ∧ c' = c

/-- One step of the system: some thread advances, or some `tryWait` fails. -/
def Step (code : ι → Code σ) (c c' : Config ι σ) : Prop :=
  ∃ i, Advances code i c c' ∨ Retries code i c c'

/-- Configurations reached by any interleaving of the threads. -/
def Reachable (code : ι → Code σ) (c₀ c : Config ι σ) : Prop :=
  Relation.ReflTransGen (Step code) c₀ c

/-- A property kept by every advance of a thread holds in every reachable configuration. -/
theorem Reachable.invariant {code : ι → Code σ} {c₀ c : Config ι σ} (h : Reachable code c₀ c)
    {p : Config ι σ → Prop} (h₀ : p c₀)
    (hstep : ∀ {i c c'}, Advances code i c c' → p c → p c') : p c := by
  induction h with
  | refl => exact h₀
  | tail _ hlast ih =>
    obtain ⟨i, hadv | ⟨s, -, -, rfl⟩⟩ := hlast
    · exact hstep hadv ih
    · exact ih

/-- A thread that can perform its next operation advances. -/
theorem advances_of_enabled {code : ι → Code σ} {c : Config ι σ} {i : ι} {op : Op σ}
    (hop : (code i).body[c.pc i]? = some op) (hen : op.Enabled c.value) :
    ∃ c', Advances code i c c' :=
  ⟨_, op, hop, hen, rfl⟩

/-! ### The state equation -/

namespace Config

variable [Fintype ι] [Fintype σ] {code : ι → Code σ}

/-- What a configuration has gained over its program counters; constant along steps. -/
def surplus (code : ι → Code σ) (w : σ → ℤ) (c : Config ι σ) : ℤ :=
  ∑ s, w s * (c.value s : ℤ) - ∑ i, (code i).gain w (c.pc i)

theorem surplus_of_advances {w : σ → ℤ} (hw : ∀ i, (code i).Balanced w) {i : ι}
    {c c' : Config ι σ} (h : Advances code i c c') : c'.surplus code w = c.surplus code w := by
  obtain ⟨op, hop, hen, rfl⟩ := h
  rw [surplus, surplus, op.sum_run w hen, sum_comp_update (fun j => (code j).gain w),
    Code.gain_succ (hw i) hop]
  ring

/-- **State equation.** When all looping programs are balanced for `w` and all threads start at
their first operation, the weighted sum of the semaphore values of a reachable configuration is
its initial value plus the gains of the prefixes that the threads have executed. -/
theorem stateEquation {w : σ → ℤ} (hw : ∀ i, (code i).Balanced w) {c₀ c : Config ι σ}
    (h₀ : ∀ i, c₀.pc i = 0) (h : Reachable code c₀ c) :
    ∑ s, w s * (c.value s : ℤ) =
      ∑ s, w s * (c₀.value s : ℤ) + ∑ i, (code i).gain w (c.pc i) := by
  have hconst : c.surplus code w = c₀.surplus code w :=
    h.invariant (p := fun c => c.surplus code w = c₀.surplus code w) rfl
      fun hadv ih => (surplus_of_advances hw hadv).trans ih
  have hinit : c₀.surplus code w = ∑ s, w s * (c₀.value s : ℤ) := by
    simp [surplus, h₀]
  rw [hinit, surplus] at hconst
  exact sub_eq_iff_eq_add.mp hconst

end Config

/-! ### Program counters -/

namespace Reachable

variable {code : ι → Code σ} {c₀ c : Config ι σ}

theorem pc_le (h : Reachable code c₀ c) (h₀ : ∀ i, c₀.pc i = 0) (i : ι) :
    c.pc i ≤ (code i).body.length := by
  refine h.invariant (p := fun c => c.pc i ≤ (code i).body.length) (by simp [h₀]) ?_
  rintro j c c' ⟨op, hop, -, rfl⟩ hc
  have hlt := (List.getElem?_eq_some_iff.mp hop).1
  by_cases hij : i = j
  · subst hij
    simp only [Function.update_self, Code.succ]
    split_ifs <;> omega
  · simpa only [Function.update_of_ne hij] using hc

theorem pc_lt_of_loops (h : Reachable code c₀ c) (h₀ : ∀ i, c₀.pc i = 0) {i : ι}
    (hi : (code i).loops) (hbody : 0 < (code i).body.length) :
    c.pc i < (code i).body.length := by
  refine h.invariant (p := fun c => c.pc i < (code i).body.length) (by simpa [h₀]) ?_
  rintro j c c' ⟨op, hop, -, rfl⟩ hc
  by_cases hij : i = j
  · subst hij
    simp only [Function.update_self, Code.succ, hi, true_and]
    split_ifs <;> omega
  · simpa only [Function.update_of_ne hij] using hc

end Reachable

/-! ### Counting threads by program counter -/

/-- The number of threads whose program counter is `k`. -/
def count {κ : Type*} [Fintype κ] (pc : κ → ℕ) (k : ℕ) : ℕ :=
  #{i | pc i = k}

omit [DecidableEq ι] [DecidableEq σ] in
theorem count_pos {κ : Type*} [Fintype κ] {pc : κ → ℕ} {k : ℕ} :
    0 < count pc k ↔ ∃ i, pc i = k := by
  simp [count, card_pos, Finset.Nonempty]

omit [DecidableEq ι] [DecidableEq σ] in
/-- A sum over threads of a function of the program counter, counted by program counter. -/
theorem sum_comp_eq_sum_count {κ : Type*} [Fintype κ] {pc : κ → ℕ} {n : ℕ}
    (hpc : ∀ i, pc i < n) (f : ℕ → ℤ) :
    ∑ i, f (pc i) = ∑ k ∈ range n, f k * count pc k := by
  rw [← sum_fiberwise_of_maps_to' (t := range n) (g := pc) (fun i _ => mem_range.mpr (hpc i)) f]
  exact sum_congr rfl fun k _ => by
    rw [sum_const, count, nsmul_eq_mul, mul_comm]

omit [DecidableEq ι] [DecidableEq σ] in
/-- Threads whose program counter lies in `s`, counted by program counter. -/
theorem card_filter_mem_eq_sum_count {κ : Type*} [Fintype κ] (pc : κ → ℕ) (s : Finset ℕ) :
    #{i | pc i ∈ s} = ∑ k ∈ s, count pc k := by
  rw [card_eq_sum_card_fiberwise (t := s) (f := pc) (by intro i hi; simpa using hi)]
  refine sum_congr rfl fun k hk => ?_
  rw [count, filter_filter]
  congr 1
  ext i
  simp only [mem_filter, mem_univ, true_and, and_iff_right_iff_imp]
  rintro rfl
  exact hk

end TikFachpraktika.Semaphore
