import Mathlib.Data.List.Nodup

/-!
# Chains and rings of cells

Cells refer to each other by a partial map to the next cell. A chain goes from a cell through some
cells to an end, which is no cell of the chain or, in a ring, its first one.

## Main definitions

* `Chain`: the cells from one address to another one.
* `IsRing`: distinct cells, the last of which leads back to the first one.

## Main results

* `Chain.congr`, `Chain.snoc`: other cells may change, and a chain is continued at its end.
* `Chain.eq_end_iff`: when a walk has come to the end.
-/

namespace TikFachpraktika

variable {α : Type*} {next next' : α → Option α}

/-- Starting at `a`, `next` leads through the cells of the list to `b`. -/
def Chain (next : α → Option α) : α → List α → α → Prop
  | a, [], b => a = b
  | a, c :: cs, b => a = c ∧ ∃ n, next c = some n ∧ Chain next n cs b

/-- The cells are distinct, and `next` leads from the first one through all of them back to it. -/
structure IsRing (next : α → Option α) (first : α) (cells : List α) : Prop where
  nodup : cells.Nodup
  ne_nil : cells ≠ []
  chain : Chain next first cells first

namespace Chain

/-- **Frame rule.** A chain depends on its own cells only. -/
theorem congr {b : α} : {cs : List α} → {a : α} → (∀ c ∈ cs, next c = next' c) →
    Chain next a cs b → Chain next' a cs b
  | [], _, _, h => h
  | c :: _, _, hnext, ⟨ha, n, hn, hrest⟩ =>
      ⟨ha, n, (hnext c List.mem_cons_self).symm.trans hn,
        congr (fun d hd => hnext d (List.mem_cons_of_mem c hd)) hrest⟩

/-- A chain is continued by the cell at its end. -/
theorem snoc {b n : α} (hn : next b = some n) : {cs : List α} → {a : α} →
    Chain next a cs b → Chain next a (cs ++ [b]) n
  | [], _, h => ⟨h, n, hn, rfl⟩
  | _ :: _, _, ⟨ha, m, hm, hrest⟩ => ⟨ha, m, hm, snoc hn hrest⟩

/-- **A walk has come to the end** as soon as it meets the end's address, when no cell that is left
has this address. -/
theorem eq_end_iff {a b : α} {cs : List α} (h : Chain next a cs b) (hb : b ∉ cs) :
    a = b ↔ cs = [] := by
  cases cs with
  | nil => exact iff_of_true h rfl
  | cons c cs =>
    refine iff_of_false (fun hab => hb ?_) (List.cons_ne_nil c cs)
    rw [← hab, h.1]
    exact List.mem_cons_self

end Chain

/-- A ring starts with its first cell. -/
theorem IsRing.exists_eq_cons {first : α} {cells : List α} (h : IsRing next first cells) :
    ∃ rest, cells = first :: rest := by
  obtain ⟨c, rest, rfl⟩ := List.exists_cons_of_ne_nil h.ne_nil
  exact ⟨rest, congrArg (· :: rest) h.chain.1.symm⟩

end TikFachpraktika
