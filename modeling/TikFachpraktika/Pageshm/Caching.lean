import Mathlib.Data.Multiset.Bind
import Mathlib.Logic.Function.Basic
import TikFachpraktika.Posix.Bytes

/-!
# Two orders of a traversal

`3_pageshm/caching.c` increases every byte of a table of rows by one, row by row in `f` and column
by column in `g`, to compare how long both take. The rows are blocks of `malloc`, and the pointers
to them are an array in the same memory, read anew for every byte; the counters of the loops have
type `int`, the numbers of rows and columns have type `size_t`.

## Main definitions

* `forInt`: a loop whose counter has type `int`.
* `rowAt`, `f`, `g`: the pointers to the rows and the traversals, on the bytes of the memory.
* `RowsApart`: no row lies over the array of pointers.

## Main results

* `forInt_of_lt`, `forInt_of_le`: a loop goes through its range, or its counter overflows.
* `f_eq_traverse`, `g_eq_traverse`: the pointers stay as they are.
* `byRows_perm_byColumns`: both orders have the same bytes.
* `traversals`: what both do.
-/

namespace TikFachpraktika.Pageshm.Caching

open Posix

/-- A counter of type `int` that is increased beyond its range. -/
inductive Fault
  | overflow
  deriving DecidableEq

section Loops

variable {σ : Type}

/-- The rounds of `for (i = 0; i < n; i++)` from `i` on, when `k` of them are left. -/
def forIntFrom (body : ℕ → σ → Except Fault σ) : ℕ → ℕ → σ → Except Fault σ
  | 0, _, s => .ok s
  | k + 1, i, s => do
    let s ← body i s
    if i + 1 < 2 ^ 31 then forIntFrom body k (i + 1) s else throw .overflow

/-- `for (i = 0; i < n; i++)`. -/
def forInt (n : ℕ) (body : ℕ → σ → Except Fault σ) (s : σ) : Except Fault σ :=
  forIntFrom body n 0 s

end Loops

/-- The bytes of the memory. -/
abbrev Memory := ℕ → Byte

/-- `(*p)++`. -/
def bump (m : Memory) (p : ℕ) : Memory :=
  Function.update m p (m p + 1)

/-- `addr[i]`: a pointer of eight bytes in the memory. -/
def rowAt (addr : ℕ) (m : Memory) (i : ℕ) : ℕ :=
  leNat ((List.range' (addr + 8 * i) 8).map m)

/-- `f`. -/
def f (addr x y : ℕ) (m : Memory) : Except Fault Memory :=
  forInt x (fun i m => forInt y (fun j m => .ok (bump m (rowAt addr m i + j))) m) m

/-- `g`. -/
def g (addr x y : ℕ) (m : Memory) : Except Fault Memory :=
  forInt y (fun j m => forInt x (fun i m => .ok (bump m (rowAt addr m i + j))) m) m

/-- No byte of a row is one of the pointers to the `x` rows. -/
def RowsApart (addr x y : ℕ) (m : Memory) : Prop :=
  ∀ i < x, ∀ j < y, ∀ k < 8 * x, rowAt addr m i + j ≠ addr + k

/-! ### Loops -/

section Loops

variable {σ : Type} {body : ℕ → σ → Except Fault σ}

/-- **A loop goes through its range** if its body has no fault and its counter does not overflow. -/
theorem forIntFrom_of_lt {step : σ → ℕ → σ} (hbody : ∀ i s, body i s = .ok (step s i)) :
    (k i : ℕ) → (s : σ) → i + k < 2 ^ 31 →
    forIntFrom body k i s = .ok ((List.range' i k).foldl step s)
  | 0, _, _, _ => rfl
  | k + 1, i, s, h => by
      have hnext := forIntFrom_of_lt hbody k (i + 1) (step s i) (by omega)
      rw [forIntFrom, hbody, List.range'_succ, List.foldl_cons, ← hnext]
      exact if_pos (by omega)

/-- A longer loop has a fault. -/
theorem forIntFrom_of_le (hbody : ∀ i s, body i s = .error .overflow ∨ ∃ s', body i s = .ok s') :
    (k i : ℕ) → (s : σ) → i < 2 ^ 31 → 2 ^ 31 ≤ i + k →
    forIntFrom body k i s = .error .overflow
  | 0, _, _, hi, h => absurd h (by omega)
  | k + 1, i, s, hi, h => by
      rw [forIntFrom]
      obtain hfault | ⟨s', hs'⟩ := hbody i s
      · rw [hfault]
        rfl
      · rw [hs']
        by_cases hnext : i + 1 < 2 ^ 31
        · exact (if_pos hnext).trans (forIntFrom_of_le hbody k (i + 1) s' hnext (by omega))
        · exact if_neg hnext

theorem forInt_of_lt {step : σ → ℕ → σ} (hbody : ∀ i s, body i s = .ok (step s i)) {n : ℕ}
    (h : n < 2 ^ 31) (s : σ) : forInt n body s = .ok ((List.range n).foldl step s) := by
  rw [forInt, forIntFrom_of_lt hbody n 0 s (by omega), List.range_eq_range']

/-- Two loops whose bodies do the same in the states that an invariant allows. -/
theorem forIntFrom_congr {body' : ℕ → σ → Except Fault σ} {P : σ → Prop} {n : ℕ}
    (hbody : ∀ i < n, ∀ s, P s → body i s = body' i s)
    (hP : ∀ i < n, ∀ s s', P s → body' i s = .ok s' → P s') :
    (k i : ℕ) → (s : σ) → i + k ≤ n → P s → forIntFrom body k i s = forIntFrom body' k i s
  | 0, _, _, _, _ => rfl
  | k + 1, i, s, h, hs => by
      rw [forIntFrom, forIntFrom, hbody i (by omega) s hs]
      cases hround : body' i s with
      | error e => rfl
      | ok s' =>
        rw [ok_bind, ok_bind, forIntFrom_congr hbody hP k (i + 1) s' (by omega)
          (hP i (by omega) s s' hs hround)]

/-- What a body keeps, its loop keeps. -/
theorem forIntFrom_invariant {P : σ → Prop} {n : ℕ}
    (hP : ∀ i < n, ∀ s s', P s → body i s = .ok s' → P s') :
    (k i : ℕ) → (s s' : σ) → i + k ≤ n → P s → forIntFrom body k i s = .ok s' → P s'
  | 0, _, _, _, _, hs, hloop => by
      cases hloop
      exact hs
  | k + 1, i, s, s', h, hs, hloop => by
      rw [forIntFrom] at hloop
      obtain ⟨s₁, hround, hrest⟩ := exists_of_bind_eq_ok hloop
      split_ifs at hrest with hnext
      · exact forIntFrom_invariant hP k (i + 1) s₁ s' (by omega) (hP i (by omega) s s₁ hs hround)
          hrest

theorem forInt_of_le (hbody : ∀ i s, body i s = .error .overflow ∨ ∃ s', body i s = .ok s') {n : ℕ}
    (h : 2 ^ 31 ≤ n) (s : σ) : forInt n body s = .error .overflow :=
  forIntFrom_of_le hbody n 0 s (by decide) (by omega)

end Loops

/-! ### Both orders -/

/-- The bytes of the table, row by row. -/
def byRows (row : ℕ → ℕ) (x y : ℕ) : List ℕ :=
  (List.range x).flatMap fun i => (List.range y).map fun j => row i + j

/-- The bytes of the table, column by column. -/
def byColumns (row : ℕ → ℕ) (x y : ℕ) : List ℕ :=
  (List.range y).flatMap fun j => (List.range x).map fun i => row i + j

section Traversals

variable {row : ℕ → ℕ} {addr x y : ℕ} {m : Memory}

/-- **Both orders have the same bytes**, each as often, also when rows overlap. -/
theorem byRows_perm_byColumns (row : ℕ → ℕ) (x y : ℕ) :
    (byRows row x y).Perm (byColumns row x y) := by
  have hcomm := Multiset.bind_map_comm (List.range x : Multiset ℕ) (List.range y : Multiset ℕ)
    (f := fun i j => row i + j)
  simp only [Multiset.map_coe, Multiset.coe_bind] at hcomm
  exact Multiset.coe_eq_coe.mp hcomm

instance : RightCommutative bump where
  right_comm m p q := by
    rcases eq_or_ne p q with rfl | hne
    · rfl
    · rw [bump, bump, bump, bump, Function.update_of_ne hne.symm, Function.update_of_ne hne,
        Function.update_comm hne]

/-- Two loops, one in the other, over the bytes at `loc`. -/
def traverse (loc : Memory → ℕ → ℕ → ℕ) (n k : ℕ) (m : Memory) : Except Fault Memory :=
  forInt n (fun i m => forInt k (fun j m => .ok (bump m (loc m i j))) m) m

variable {loc : ℕ → ℕ → ℕ} {n k : ℕ}

/-- **The places do not move** as long as the memory keeps what they depend on. -/
theorem traverse_congr {place : Memory → ℕ → ℕ → ℕ} {P : Memory → Prop}
    (hplace : ∀ m, P m → ∀ i < n, ∀ j < k, place m i j = loc i j ∧ P (bump m (loc i j)))
    (hm : P m) : traverse place n k m = traverse (fun _ => loc) n k m := by
  have hbump : ∀ i < n, ∀ j < k, ∀ m m', P m →
      .ok (bump m (loc i j)) = (.ok m' : Except Fault Memory) → P m' :=
    fun i hi j hj m m' h heq => by
      cases heq
      exact (hplace m h i hi j hj).2
  refine forIntFrom_congr (P := P) (fun i hi m h => ?_) (fun i hi m m' h hinner => ?_) n 0 m
    (Nat.zero_add n).le hm
  · refine forIntFrom_congr (P := P) (fun j hj m h => ?_) (hbump i hi) k 0 m (Nat.zero_add k).le h
    rw [(hplace m h i hi j hj).1]
  · exact forIntFrom_invariant (hbump i hi) k 0 m m' (Nat.zero_add k).le h hinner

theorem traverse_of_lt (hn : n < 2 ^ 31) (hk : k < 2 ^ 31) (m : Memory) :
    traverse (fun _ => loc) n k m =
      .ok (((List.range n).flatMap fun i => (List.range k).map (loc i)).foldl bump m) := by
  have hinner : ∀ i (m : Memory), forInt k (fun j m => .ok (bump m (loc i j))) m =
      .ok (((List.range k).map (loc i)).foldl bump m) := fun i m => by
    rw [forInt_of_lt (fun _ _ => rfl) hk, List.foldl_map]
  rw [traverse, forInt_of_lt hinner hn, List.foldl_flatMap]

/-- The counter of the outer loop overflows, if that of the inner one does not before. -/
theorem traverse_of_le (hn : 2 ^ 31 ≤ n) (m : Memory) :
    traverse (fun _ => loc) n k m = .error .overflow := by
  refine forInt_of_le (fun i m => ?_) hn m
  by_cases hk : k < 2 ^ 31
  · exact .inr ⟨_, forInt_of_lt (fun _ _ => rfl) hk m⟩
  · exact .inl (forInt_of_le (fun _ _ => .inr ⟨_, rfl⟩) (not_lt.mp hk) m)

/-- The counter of the inner loop overflows in the first round of the outer one. -/
theorem traverse_of_pos (hn : 0 < n) (hk : 2 ^ 31 ≤ k) (m : Memory) :
    traverse (fun _ => loc) n k m = .error .overflow := by
  obtain ⟨n, rfl⟩ := Nat.exists_eq_add_one_of_ne_zero hn.ne'
  have hinner : forInt k (fun j m => .ok (bump m (loc 0 j))) m = .error .overflow :=
    forInt_of_le (fun _ _ => .inr ⟨_, rfl⟩) hk m
  rw [traverse, forInt, forIntFrom, hinner]
  rfl

/-- A byte that is increased is not one of the pointers. -/
theorem rowAt_bump {p i : ℕ} (hi : i < x) (hp : ∀ k < 8 * x, p ≠ addr + k) (m : Memory) :
    rowAt addr (bump m p) i = rowAt addr m i := by
  refine congrArg leNat (List.map_congr_left fun q hq => ?_)
  obtain ⟨hle, hlt⟩ := List.mem_range'_1.mp hq
  refine Function.update_of_ne (fun heq => hp (q - addr) (by omega) ?_) ..
  omega

/-- The memory has the pointers that `m` has. -/
def SameRows (addr x : ℕ) (m m' : Memory) : Prop :=
  ∀ i < x, rowAt addr m' i = rowAt addr m i

theorem RowsApart.sameRows_bump (h : RowsApart addr x y m) {i j : ℕ} (hi : i < x) (hj : j < y)
    {m' : Memory} (hsame : SameRows addr x m m') :
    SameRows addr x m (bump m' (rowAt addr m i + j)) := fun i' hi' => by
  rw [rowAt_bump hi' (h i hi j hj), hsame i' hi']

/-- `f` goes over the bytes of the rows as they are at first. -/
theorem f_eq_traverse (h : RowsApart addr x y m) :
    f addr x y m = traverse (fun _ i j => rowAt addr m i + j) x y m :=
  traverse_congr (P := SameRows addr x m) (fun _ hsame i hi _ hj =>
    ⟨by rw [hsame i hi], h.sameRows_bump hi hj hsame⟩) fun _ _ => rfl

/-- `g` goes over the bytes of the rows as they are at first. -/
theorem g_eq_traverse (h : RowsApart addr x y m) :
    g addr x y m = traverse (fun _ j i => rowAt addr m i + j) y x m :=
  traverse_congr (P := SameRows addr x m) (fun _ hsame _ hj i hi =>
    ⟨by rw [hsame i hi], h.sameRows_bump hi hj hsame⟩) fun _ _ => rfl

/-- Both orders do the same, but for tables without rows or without columns whose other number is
too large for an `int`. -/
theorem f_eq_g_iff (h : RowsApart addr x y m) :
    f addr x y m = g addr x y m ↔ ¬(x = 0 ∧ 2 ^ 31 ≤ y) ∧ ¬(y = 0 ∧ 2 ^ 31 ≤ x) := by
  rw [f_eq_traverse h, g_eq_traverse h]
  rcases lt_or_ge x (2 ^ 31) with hx | hx
  · rcases lt_or_ge y (2 ^ 31) with hy | hy
    · rw [traverse_of_lt hx hy, traverse_of_lt hy hx]
      refine iff_of_true (congrArg _ ?_) ⟨by omega, by omega⟩
      exact (byRows_perm_byColumns (rowAt addr m) x y).foldl_eq m
    · rw [traverse_of_le hy]
      rcases Nat.eq_zero_or_pos x with rfl | hpos
      · exact iff_of_false (fun h => by cases h) fun h => h.1 ⟨rfl, hy⟩
      · exact iff_of_true (traverse_of_pos hpos hy m) ⟨by omega, by omega⟩
  · rw [traverse_of_le hx]
    rcases Nat.eq_zero_or_pos y with rfl | hpos
    · exact iff_of_false (fun h => by cases h) fun h => h.2 ⟨rfl, hx⟩
    · exact iff_of_true (traverse_of_pos hpos hx m).symm ⟨by omega, by omega⟩

/-- Different bytes that are increased one after the other. -/
theorem foldl_bump_of_nodup : {l : List ℕ} → l.Nodup → (m : Memory) → (p : ℕ) →
    l.foldl bump m p = if p ∈ l then m p + 1 else m p
  | [], _, _, _ => rfl
  | q :: l, h, m, p => by
      obtain ⟨hq, hl⟩ := List.nodup_cons.mp h
      rw [List.foldl_cons, foldl_bump_of_nodup hl, bump]
      rcases eq_or_ne p q with rfl | hne
      · rw [if_neg hq, if_pos List.mem_cons_self, Function.update_self]
      · rw [Function.update_of_ne hne]
        exact if_congr (by rw [List.mem_cons, or_iff_right hne]) rfl rfl

/-- The bytes of rows that do not overlap are different. -/
theorem nodup_byRows
    (hrows : ∀ i < x, ∀ k < x, i ≠ k → row i + y ≤ row k ∨ row k + y ≤ row i) :
    (byRows row x y).Nodup := by
  refine List.nodup_flatMap.mpr ⟨fun i _ => ?_, ?_⟩
  · exact List.nodup_range.map fun j k hjk => Nat.add_left_cancel hjk
  · refine List.nodup_range.pairwise_of_forall_ne fun i hi k hk hne p hp hp' => ?_
    obtain ⟨j, hj, rfl⟩ := List.mem_map.mp hp
    obtain ⟨j', hj', heq⟩ := List.mem_map.mp hp'
    have hlt := List.mem_range.mp hj
    have hlt' := List.mem_range.mp hj'
    rcases hrows i (List.mem_range.mp hi) k (List.mem_range.mp hk) hne with hle | hle <;> omega

theorem mem_byRows_iff (p : ℕ) :
    p ∈ byRows row x y ↔ ∃ i < x, row i ≤ p ∧ p < row i + y := by
  simp only [byRows, List.mem_flatMap, List.mem_map, List.mem_range]
  refine exists_congr fun i => and_congr_right fun _ => ⟨?_, fun ⟨hle, hlt⟩ => ?_⟩
  · rintro ⟨j, hj, rfl⟩
    omega
  · exact ⟨p - row i, by omega, by omega⟩

/-- **What both orders do.** For a table whose rows do not lie over the pointers to them, they do
the same, but for those without rows or without columns whose other number is too large for an
`int`. If both numbers are small enough and the rows do not overlap, each byte of the table is
increased once, and no other byte is changed. -/
theorem traversals (h : RowsApart addr x y m) :
    (f addr x y m = g addr x y m ↔ ¬(x = 0 ∧ 2 ^ 31 ≤ y) ∧ ¬(y = 0 ∧ 2 ^ 31 ≤ x)) ∧
      (x < 2 ^ 31 → y < 2 ^ 31 →
        (∀ i < x, ∀ k < x, i ≠ k → rowAt addr m i + y ≤ rowAt addr m k ∨
          rowAt addr m k + y ≤ rowAt addr m i) →
        f addr x y m = .ok fun p =>
          if ∃ i < x, rowAt addr m i ≤ p ∧ p < rowAt addr m i + y then m p + 1 else m p) := by
  refine ⟨f_eq_g_iff h, fun hx hy hrows => ?_⟩
  rw [f_eq_traverse h, traverse_of_lt hx hy]
  refine congrArg Except.ok (funext fun p => ?_)
  exact (foldl_bump_of_nodup (nodup_byRows hrows) m p).trans (if_congr (mem_byRows_iff p) rfl rfl)

end Traversals

/-- A memory with the pointers 20 and 30 at 0, and 255 everywhere else. -/
def tableMemory (p : ℕ) : Byte :=
  if p < 16 then (leBytes 8 20 ++ leBytes 8 30).getD p 0 else 255

/-- A table with two rows of three bytes, all of them 255 at first. -/
theorem traversals_table :
    f 0 2 3 tableMemory = g 0 2 3 tableMemory ∧
      (f 0 2 3 tableMemory).map (fun m => (m 22, m 23)) = .ok (0, 255) := by
  have hrow : rowAt 0 tableMemory 0 = 20 ∧ rowAt 0 tableMemory 1 = 30 := by decide +kernel
  have hapart : RowsApart 0 2 3 tableMemory := by
    rw [RowsApart]
    decide +kernel
  obtain ⟨hagree, hbytes⟩ := traversals hapart
  refine ⟨hagree.mpr (by decide), ?_⟩
  rw [hbytes (by decide) (by decide) (by decide +kernel)]
  decide +kernel

end TikFachpraktika.Pageshm.Caching
