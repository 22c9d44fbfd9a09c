import Mathlib.Data.List.GetD
import TikFachpraktika.Logged.Run
import TikFachpraktika.Chat.Common

/-!
# Comparing strings without case

The loop of `strnicmp` of `6_network/chat-common.c`, with a log of the positions that it reads. It
leaves the loop at a NUL in either string, at a difference, or when the length is used up, and
returns the difference of the last two bytes, which are in lower case only if they differ.

## Main definitions

* `strnicmpLoop`, `strnicmpReads`: the loop, and the function.
* `compared`: the part of a string that is compared, in lower case.

## Main results

* `result_strnicmpReads`: the function is `strnicmp` on the two strings.
* `strnicmp_correct`: what it returns, and what it reads.
-/

namespace TikFachpraktika.Chat

open Posix

/-- The `do` loop of `strnicmp` from position `i` on; `left` is `len - 1`. Every entry of the log is
a position that is read in both strings. -/
def strnicmpLoop (s1 s2 : List Byte) : ℕ → ℕ → Logged ℕ Empty ℤ
  | left, i =>
    let c1 := s1.getD i 0
    let c2 := s2.getD i 0
    if c1 = 0 ∨ c2 = 0 then ⟨[i], .ok (c1.toNat - c2.toNat)⟩
    else
      let d1 := if c1 = c2 then c1 else tolower c1
      let d2 := if c1 = c2 then c2 else tolower c2
      if d1 ≠ d2 then ⟨[i], .ok (d1.toNat - d2.toNat)⟩
      else
        match left with
        | 0 => ⟨[i], .ok (d1.toNat - d2.toNat)⟩
        | left + 1 => do
          Logged.tell [i]
          strnicmpLoop s1 s2 left (i + 1)

/-- `strnicmp` on the memory that two pointers refer to. -/
def strnicmpReads (s1 s2 : List Byte) : ℕ → Logged ℕ Empty ℤ
  | 0 => pure 0
  | left + 1 => strnicmpLoop s1 s2 left 0

/-- The part of the string in `mem` that is compared: its first `len` bytes, in lower case. -/
def compared (mem : List Byte) (len : ℕ) : List Byte :=
  lower ((cstr mem).take len)

/-! ### The order of the strings -/

/-- The other way round the difference has the other sign. -/
theorem strnicmp_comm : (n : ℕ) → (s1 s2 : List Byte) → strnicmp s2 s1 n = -strnicmp s1 s2 n
  | 0, _, _ => rfl
  | n + 1, s1, s2 => by
      have ih := strnicmp_comm n s1.tail s2.tail
      rw [strnicmp, strnicmp]
      by_cases hnul : s1.headD 0 = 0 ∨ s2.headD 0 = 0
      · rw [if_pos hnul.symm, if_pos hnul, neg_sub]
      · rw [if_neg fun h => hnul h.symm, if_neg hnul, ih]
        by_cases heq : s1.headD 0 = s2.headD 0
        · rw [if_pos heq.symm, if_pos heq]
        · rw [if_neg (Ne.symm heq), if_neg heq]
          by_cases hlow : tolower (s1.headD 0) = tolower (s2.headD 0)
          · rw [if_neg (not_not.mpr hlow.symm), if_neg (not_not.mpr hlow)]
          · rw [if_pos (Ne.symm hlow), if_pos hlow, neg_sub]

/-- **The sign of the difference** is the order of the compared strings. -/
theorem strnicmp_neg_iff : (n : ℕ) → (s1 s2 : List Byte) → (0 : Byte) ∉ s1 → (0 : Byte) ∉ s2 →
    (strnicmp s1 s2 n < 0 ↔ lower (s1.take n) < lower (s2.take n))
  | 0, _, _, _, _ => by simp [strnicmp, lower]
  | n + 1, [], [], _, _ => by simp [strnicmp, lower]
  | n + 1, [], y :: s2, _, h2 => by
      have hy : 0 < y := UInt8.pos_iff_ne_zero.mpr fun h => h2 (h ▸ List.mem_cons_self)
      have hpos : 0 < y.toNat := hy
      refine iff_of_true ?_ ?_
      · simp [strnicmp, hpos]
      · simp [lower]
  | n + 1, x :: s1, [], h1, _ => by
      refine iff_of_false ?_ ?_
      · simp [strnicmp]
      · simp [lower]
  | n + 1, x :: s1, y :: s2, h1, h2 => by
      have hx : x ≠ 0 := fun h => h1 (h ▸ List.mem_cons_self)
      have hy : y ≠ 0 := fun h => h2 (h ▸ List.mem_cons_self)
      have ih := strnicmp_neg_iff n s1 s2 (fun h => h1 (List.mem_cons_of_mem _ h))
        fun h => h2 (List.mem_cons_of_mem _ h)
      have hsplit : lower ((x :: s1).take (n + 1)) < lower ((y :: s2).take (n + 1)) ↔
          tolower x < tolower y ∨ tolower x = tolower y ∧ lower (s1.take n) < lower (s2.take n) :=
        List.cons_lt_cons_iff
      rw [hsplit, strnicmp_cons hx hy]
      split_ifs with hxy hne
      · rw [ih, hxy]
        simp
      · have hlt : ((tolower x).toNat : ℤ) - (tolower y).toNat < 0 ↔ tolower x < tolower y := by
          rw [UInt8.lt_iff_toNat_lt]
          omega
        rw [hlt]
        simp [hne]
      · rw [ih, not_not.mp hne]
        simp

/-! ### The loop -/

/-- At the positions of the string and of its NUL the memory holds what the string holds. -/
theorem getD_cstr : (mem : List Byte) → (i : ℕ) → i ≤ (cstr mem).length →
    (cstr mem).getD i 0 = mem.getD i 0
  | [], _, _ => rfl
  | b :: mem, i, h => by
      by_cases hb : b = 0
      · subst hb
        obtain rfl : i = 0 := Nat.le_zero.mp h
        rfl
      · have hcons : cstr (b :: mem) = b :: cstr mem := List.takeWhile_cons_of_pos (by simpa)
        rw [hcons] at h ⊢
        cases i with
        | zero => rfl
        | succ i =>
          rw [List.getD_cons_succ, List.getD_cons_succ]
          exact getD_cstr mem i (Nat.le_of_succ_le_succ h)

section Loop

variable (s1 s2 : List Byte)

/-- A position that does not hold a NUL is one of the string. -/
theorem lt_length_cstr {mem : List Byte} {i : ℕ} (h : i ≤ (cstr mem).length)
    (hne : mem.getD i 0 ≠ 0) : i < (cstr mem).length := by
  refine lt_of_le_of_ne h fun heq => hne ?_
  rw [← getD_cstr mem i h, heq]
  exact List.getD_eq_default _ _ le_rfl

theorem headD_drop_cstr {mem : List Byte} {i : ℕ} (h : i ≤ (cstr mem).length) :
    ((cstr mem).drop i).headD 0 = mem.getD i 0 := by
  rw [List.headD_eq_head?_getD, List.head?_drop, ← List.getD_eq_getElem?_getD, getD_cstr mem i h]

/-- The comparison of two rests begins with the bytes at their position. -/
theorem strnicmp_drop_cstr {i : ℕ} (h1 : i ≤ (cstr s1).length) (h2 : i ≤ (cstr s2).length)
    (n : ℕ) : strnicmp ((cstr s1).drop i) ((cstr s2).drop i) (n + 1) =
      if s1.getD i 0 = 0 ∨ s2.getD i 0 = 0 then ((s1.getD i 0).toNat : ℤ) - (s2.getD i 0).toNat
      else if tolower (s1.getD i 0) ≠ tolower (s2.getD i 0) then
        ((tolower (s1.getD i 0)).toNat : ℤ) - (tolower (s2.getD i 0)).toNat
      else strnicmp ((cstr s1).drop (i + 1)) ((cstr s2).drop (i + 1)) n := by
  rw [strnicmp, headD_drop_cstr h1, headD_drop_cstr h2, List.tail_drop, List.tail_drop]
  refine if_congr Iff.rfl rfl ?_
  by_cases heq : s1.getD i 0 = s2.getD i 0
  · rw [if_pos heq, heq, if_neg (not_not.mpr rfl)]
  · rw [if_neg heq]

section Turn

variable {i : ℕ} (h : ¬(s1.getD i 0 = 0 ∨ s2.getD i 0 = 0))
include h

/-- The last turn of the loop, on bytes that are not NUL. -/
theorem strnicmpLoop_zero : strnicmpLoop s1 s2 0 i =
    ⟨[i], .ok ((tolower (s1.getD i 0)).toNat - (tolower (s2.getD i 0)).toNat)⟩ := by
  rw [strnicmpLoop, if_neg h]
  by_cases heq : s1.getD i 0 = s2.getD i 0
  · simp only [heq, if_true, ne_eq, not_true_eq_false, if_false, sub_self]
  · simp only [heq, if_false, ne_eq, ite_self]

/-- An earlier turn. -/
theorem strnicmpLoop_succ (left : ℕ) : strnicmpLoop s1 s2 (left + 1) i =
    if tolower (s1.getD i 0) ≠ tolower (s2.getD i 0) then
      ⟨[i], .ok ((tolower (s1.getD i 0)).toNat - (tolower (s2.getD i 0)).toNat)⟩
    else Logged.tell [i] >>= fun _ => strnicmpLoop s1 s2 left (i + 1) := by
  rw [strnicmpLoop, if_neg h]
  by_cases heq : s1.getD i 0 = s2.getD i 0
  · simp only [heq, if_true, ne_eq, not_true_eq_false, if_false]
  · simp only [heq, if_false, ne_eq]

end Turn

/-- **The loop** compares the rests of the strings, and stays in them. -/
theorem strnicmpLoop_spec (left : ℕ) : ∀ i ≤ (cstr s1).length, i ≤ (cstr s2).length →
    (strnicmpLoop s1 s2 left i).result =
        .ok (strnicmp ((cstr s1).drop i) ((cstr s2).drop i) (left + 1)) ∧
      (strnicmpLoop s1 s2 left i).All fun k => k ≤ (cstr s1).length ∧ k ≤ (cstr s2).length := by
  have hread : ∀ i ≤ (cstr s1).length, i ≤ (cstr s2).length →
      ∀ k ∈ [i], k ≤ (cstr s1).length ∧ k ≤ (cstr s2).length := fun i h1 h2 k hk =>
    List.mem_singleton.mp hk ▸ ⟨h1, h2⟩
  induction left with
  | zero =>
    intro i h1 h2
    rw [strnicmp_drop_cstr s1 s2 h1 h2]
    by_cases hnul : s1.getD i 0 = 0 ∨ s2.getD i 0 = 0
    · rw [strnicmpLoop, if_pos hnul, if_pos hnul]
      exact ⟨rfl, hread i h1 h2⟩
    · rw [strnicmpLoop_zero s1 s2 hnul, if_neg hnul]
      refine ⟨?_, hread i h1 h2⟩
      split_ifs with hlow
      · rfl
      · rw [not_not.mp hlow, sub_self]
        rfl
  | succ left ih =>
    intro i h1 h2
    rw [strnicmp_drop_cstr s1 s2 h1 h2]
    by_cases hnul : s1.getD i 0 = 0 ∨ s2.getD i 0 = 0
    · rw [strnicmpLoop, if_pos hnul, if_pos hnul]
      exact ⟨rfl, hread i h1 h2⟩
    · obtain ⟨hne1, hne2⟩ := not_or.mp hnul
      obtain ⟨hresult, hreads⟩ := ih (i + 1) (lt_length_cstr h1 hne1) (lt_length_cstr h2 hne2)
      rw [strnicmpLoop_succ s1 s2 hnul, if_neg hnul]
      split_ifs
      · exact ⟨rfl, hread i h1 h2⟩
      · rw [Logged.result_bind, Logged.result_tell, Logged.all_tell_bind]
        exact ⟨hresult, hread i h1 h2, hreads⟩

/-- **The function** compares the two strings. -/
theorem result_strnicmpReads (len : ℕ) :
    (strnicmpReads s1 s2 len).result = .ok (strnicmp (cstr s1) (cstr s2) len) := by
  cases len with
  | zero => rfl
  | succ left => exact (strnicmpLoop_spec s1 s2 left 0 (Nat.zero_le _) (Nat.zero_le _)).1

/-- **`strnicmp` is a bounded comparison without case.** What it returns is 0 if and only if the
first `len` bytes of the strings agree in lower case, it has the sign of their lexicographic order
otherwise, and neither string is read beyond its NUL. -/
theorem strnicmp_correct (len : ℕ) : ∃ r, (strnicmpReads s1 s2 len).result = .ok r ∧
    (r = 0 ↔ compared s1 len = compared s2 len) ∧
    (r < 0 ↔ compared s1 len < compared s2 len) ∧
    (0 < r ↔ compared s2 len < compared s1 len) ∧
    (strnicmpReads s1 s2 len).All fun k => k ≤ (cstr s1).length ∧ k ≤ (cstr s2).length := by
  have h1 := zero_notMem_cstr s1
  have h2 := zero_notMem_cstr s2
  refine ⟨_, result_strnicmpReads s1 s2 len, strnicmp_eq_zero_iff _ _ _ h1 h2,
    strnicmp_neg_iff _ _ _ h1 h2, ?_, ?_⟩
  · rw [compared, compared, ← strnicmp_neg_iff _ _ _ h2 h1, strnicmp_comm len (cstr s1) (cstr s2)]
    exact neg_lt_zero.symm
  · cases len with
    | zero => exact Logged.all_pure 0
    | succ left => exact (strnicmpLoop_spec s1 s2 left 0 (Nat.zero_le _) (Nat.zero_le _)).2

end Loop

end TikFachpraktika.Chat
