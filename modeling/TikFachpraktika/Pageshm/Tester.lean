import Mathlib.Data.List.OfFn
import TikFachpraktika.Pageshm.TestData

/-!
# The indices of the tester

The consumer prints the values between 0 and 99, and the tester of `3_pageshm/tester.c` has a table
of 27 words. The condition in its loop is about the number of the argument and not about the index.

## Main definitions

* `atoi`: the conversion of an argument.
* `testerIndices`: the indices at which the tester reads its table.
* `ReadsInside`: the tester run by the consumer does not read behind the table.

## Main results

* `tokens_testData`: the arguments that the shell makes of the command line.
* `readsInside_iff`: when the two programs agree.
-/

namespace TikFachpraktika.Pageshm

open Posix

/-- The digits at the begin of a string as a number. -/
def digitsValue (s : List Byte) : ℤ :=
  (s.takeWhile fun c => 48 ≤ c ∧ c ≤ 57).foldl (fun n c => 10 * n + (c.toNat - 48 : ℤ)) 0

/-- `atoi`: blanks, a sign and digits. -/
def atoi (s : List Byte) : ℤ :=
  match s.dropWhile (· ∈ ([32, 9, 10, 11, 12, 13] : List Byte)) with
  | [] => 0
  | c :: s =>
    if c = 45 then -digitsValue s
    else if c = 43 then digitsValue s
    else digitsValue (c :: s)

/-- The indices at which the tester reads its array `words`, or `none` if it stops with its usage
message. The condition is that of the source, on the number of the argument. -/
def testerIndices (argv : List (List Byte)) : Option (List ℤ) :=
  if argv.length ≠ 28 then none
  else some ((List.range' 1 27).flatMap fun i =>
    if 0 ≤ i ∧ i ≤ 27 then [atoi (argv.getD i [])] else [])

/-- For an array of the consumer the tester stops with its usage message, or it reads its table at
the indices from 0 to 26 only. -/
def ReadsInside (read : Fin 27 → ℤ) : Prop :=
  ∀ line argv, (testData (List.ofFn read)).result = .ok line →
    Shell.tokens line = some (argv.map .word) →
    ∀ indices, testerIndices argv = some indices → ∀ idx ∈ indices, 0 ≤ idx ∧ idx ≤ 26

/-! ### The arguments -/

/-- The conversion reads back what has been printed. -/
theorem atoi_decimal : ∀ n < 100, atoi (decimal (n : ℕ)) = n := by
  decide +kernel

theorem isOrdinary_of_digit {c : Byte} (h : 48 ≤ c ∧ c ≤ 57) : Shell.IsOrdinary c := by
  have hdigits : ∀ n < 58, 48 ≤ n → Shell.IsOrdinary (UInt8.ofNat n) := by decide +kernel
  have hc := hdigits c.toNat (Nat.lt_succ_of_le h.2) h.1
  rwa [UInt8.ofNat_toNat] at hc

theorem isOrdinary_tester : ∀ c ∈ str "./tester", Shell.IsOrdinary c := by decide +kernel

/-- The shell reads one printed number as one word. -/
theorem scan_sprintf2d (ts : List Shell.Token) {v : ℤ} (h0 : 0 ≤ v) (h100 : v < 100) :
    (⟨.plain, none, ts⟩ : Shell.Scanner).scan (sprintf2d v) =
      ⟨.plain, none, ts ++ [.word (decimal v)]⟩ := by
  obtain ⟨hpos, -, hdigits⟩ := decimal_spec_int h0 h100
  rw [sprintf2d_eq, List.append_assoc, Shell.Scanner.scan_append, Shell.Scanner.scan_blanks]
  exact Shell.Scanner.scan_word_blank ts (fun c hc => isOrdinary_of_digit (hdigits c hc))
    (List.ne_nil_of_length_pos hpos)

theorem scan_flatMap_sprintf2d (vs : List ℤ) (hvs : ∀ v ∈ vs, 0 ≤ v ∧ v < 100)
    (ts : List Shell.Token) :
    (⟨.plain, none, ts⟩ : Shell.Scanner).scan (vs.flatMap sprintf2d) =
      ⟨.plain, none, ts ++ (vs.map decimal).map .word⟩ := by
  induction vs generalizing ts with
  | nil => rw [List.flatMap_nil, List.map_nil, List.map_nil, List.append_nil]; rfl
  | cons v vs ih =>
    obtain ⟨h0, h100⟩ := hvs v List.mem_cons_self
    rw [List.flatMap_cons, Shell.Scanner.scan_append, scan_sprintf2d ts h0 h100,
      ih fun u hu => hvs u (List.mem_cons_of_mem v hu), List.append_assoc]
    rfl

/-- **The arguments of the tester** are the printed values. -/
theorem tokens_testData (data : List ℤ) : Shell.tokens (str "./tester " ++ printed data) =
    some ((str "./tester" :: (kept data).map decimal).map .word) := by
  have hname : str "./tester " ++ printed data = str "./tester" ++ [32] ++ printed data := rfl
  have hargs : Shell.tokens (printed data) = some (((kept data).map decimal).map .word) := by
    rw [Shell.tokens, printed, Shell.Scanner.start,
      scan_flatMap_sprintf2d _ fun v hv => (mem_kept.mp hv).2]
    simp [Shell.Scanner.finish, Shell.Scanner.close]
  rw [hname, Shell.tokens_word_append isOrdinary_tester (by decide), hargs]
  rfl

/-! ### The indices -/

theorem map_getD_range' {α : Type} (x d : α) (l : List α) :
    (List.range' 1 l.length).map (fun i => (x :: l).getD i d) = l := by
  refine List.ext_getElem (by simp) fun i hi hi' => ?_
  simp [List.getD_eq_getElem?_getD, List.getElem?_eq_getElem hi', Nat.add_comm 1 i]

/-- What the tester reads with arguments that the consumer has printed. -/
theorem testerIndices_decimal {vs : List ℤ} (hvs : ∀ v ∈ vs, 0 ≤ v ∧ v < 100) :
    testerIndices (str "./tester" :: vs.map decimal) =
      if vs.length = 27 then some vs else none := by
  rw [testerIndices, List.length_cons, List.length_map]
  by_cases hlen : vs.length = 27
  · rw [if_neg (by omega), if_pos hlen]
    have hall : (List.range' 1 27).flatMap (fun i =>
        if 0 ≤ i ∧ i ≤ 27 then [atoi ((str "./tester" :: vs.map decimal).getD i [])] else []) =
        ((List.range' 1 27).map fun i =>
          (str "./tester" :: vs.map decimal).getD i []).map atoi := by
      rw [List.map_map, List.map_eq_flatMap]
      refine List.flatMap_congr fun i hi => if_pos ?_
      rw [List.mem_range'_1] at hi
      omega
    have hargs := map_getD_range' (str "./tester") [] (vs.map decimal)
    rw [List.length_map, hlen] at hargs
    have hvalues : (vs.map decimal).map atoi = vs := calc
      (vs.map decimal).map atoi = vs.map (atoi ∘ decimal) := List.map_map
      _ = vs.map id := List.map_congr_left fun v hv => by
        obtain ⟨n, rfl⟩ := Int.eq_ofNat_of_zero_le (hvs v hv).1
        exact atoi_decimal n (by have hlt := (hvs _ hv).2; omega)
      _ = vs := List.map_id vs
    rw [hall, hargs, hvalues]
  · rw [if_pos (by omega), if_neg hlen]

theorem length_kept_eq_iff (data : List ℤ) :
    (kept data).length = data.length ↔ ∀ v ∈ data, 0 ≤ v ∧ v < 100 := by
  rw [kept, List.length_filter_eq_length_iff]
  simp only [decide_eq_true_iff]

/-- **When the two programs agree.** For every array of 27 integers, the tester that the consumer
runs stops with its usage message or reads its table at indices from 0 to 26 only, if and only if
some value is not printed or all of them are at most 26. -/
theorem readsInside_iff (read : Fin 27 → ℤ) :
    ReadsInside read ↔ ((∀ i, 0 ≤ read i ∧ read i < 100) → ∀ i, read i ≤ 26) := by
  set data := List.ofFn read
  have hlen : data.length = 27 := List.length_ofFn
  have hline : (testData data).result = .ok (str "./tester " ++ printed data) := by
    have hbound : maxStrLen / 3 - 1 = 1364 := by decide
    exact (testData_of_lt (by omega)).2
  have hindices : testerIndices (str "./tester" :: (kept data).map decimal) =
      if (kept data).length = 27 then some (kept data) else none :=
    testerIndices_decimal fun v hv => (mem_kept.mp hv).2
  have hrange_iff : (∀ v ∈ data, 0 ≤ v ∧ v < 100) ↔ ∀ i, 0 ≤ read i ∧ read i < 100 :=
    List.forall_mem_ofFn_iff
  have hmax_iff : (∀ v ∈ data, v ≤ 26) ↔ ∀ i, read i ≤ 26 := List.forall_mem_ofFn_iff
  have hall : (kept data).length = 27 ↔ ∀ i, 0 ≤ read i ∧ read i < 100 := by
    have hcount := length_kept_eq_iff data
    rwa [hlen, hrange_iff] at hcount
  constructor
  · intro hinside hrange i
    have hkept : kept data = data := List.filter_eq_self.mpr fun v hv =>
      decide_eq_true (hrange_iff.mpr hrange v hv)
    refine (hinside _ _ hline (tokens_testData data) (kept data) ?_ (read i) ?_).2
    · rw [hindices, if_pos (hall.mpr hrange)]
    · rw [hkept]
      exact List.mem_ofFn.mpr ⟨i, rfl⟩
  · intro hcond line argv hresult htokens indices hsome idx hidx
    obtain rfl : str "./tester " ++ printed data = line := Except.ok.inj (hline.symm.trans hresult)
    have hargv : (str "./tester" :: (kept data).map decimal).map Shell.Token.word =
        argv.map .word := Option.some.inj ((tokens_testData data).symm.trans htokens)
    obtain rfl := List.map_injective_iff.mpr (fun _ _ => Shell.Token.word.inj) hargv
    rw [hindices] at hsome
    split_ifs at hsome with hcount
    obtain rfl := Option.some.inj hsome
    obtain ⟨hmem, h0, -⟩ := mem_kept.mp hidx
    exact ⟨h0, hmax_iff.mpr (hcond (hall.mp hcount)) idx hmem⟩

/-- **The tester can read behind its table**: when all values are 27. -/
theorem not_forall_readsInside : ¬∀ read : Fin 27 → ℤ, ReadsInside read := by
  intro hall
  have hline : (testData (List.ofFn fun _ : Fin 27 => (27 : ℤ))).result =
      .ok (str "./tester " ++ printed (List.ofFn fun _ : Fin 27 => (27 : ℤ))) :=
    (testData_of_lt (by rw [List.length_ofFn]; decide)).2
  have hinside := hall (fun _ => 27) _ _ hline (tokens_testData _) (List.replicate 27 27)
    (by decide +kernel) 27 (by decide)
  exact absurd hinside.2 (by decide)

end TikFachpraktika.Pageshm
