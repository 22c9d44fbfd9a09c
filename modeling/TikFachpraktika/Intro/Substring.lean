import Mathlib.Data.List.GetD
import TikFachpraktika.Logged.Run
import TikFachpraktika.Posix.Bytes

/-!
# Cutting a string out of another one

`substring` of `1_intro/substr.c` checks its arguments with a sum that is computed modulo `2^64`,
allocates a block of `len` bytes and copies `len` characters into it. A NUL behind them would need
one byte more.

## Main definitions

* `substring`: the function, with a log of its accesses.
* `Bounded`: it refuses, or it gives the characters as a string in its block.

## Main results

* `substring_of_le`: what the block holds when the characters are there.
* `bounded_iff`: when the function does as `Bounded` says.
-/

namespace TikFachpraktika.Intro.Substring

open Posix

/-- Reading a byte of `str`, and storing into the block at a position; `none` is the block that
`malloc` has not given. -/
inductive Access
  | read (i : ℕ)
  | write (block : Option ℕ) (i : ℕ)

/-- An access inside `str`, which ends with its NUL, and inside the block. -/
def Access.Inside (str : List Byte) : Access → Prop
  | .read i => i ≤ str.length
  | .write block i => ∃ size, block = some size ∧ i < size

/-- A counter of type `int` that is increased beyond its range. -/
inductive Fault
  | overflow

/-- How a call ends: with the error message and `NULL`, or with the pointer to a block. -/
inductive Outcome
  | rejected
  | returned (block : Option (List Byte))

/-- The byte at a position of the memory behind a pointer to `str`. -/
def byteAt (str : List Byte) (beyond : ℕ → Byte) (i : ℕ) : Byte :=
  (str ++ [0]).getD i (beyond i)

/-- The loop of `substring` from `i` on, with `left` characters left. -/
def copyLoop (mem : ℕ → Byte) (pos : ℕ) (block : Option ℕ) :
    ℕ → ℕ → List Byte → Logged Access Fault (List Byte)
  | 0, _, bytes => pure bytes
  | left + 1, i, bytes => do
    Logged.tell [.read (pos + i), .write block i]
    if i + 1 < 2 ^ 31 then copyLoop mem pos block left (i + 1) (bytes ++ [mem (pos + i)])
    else Logged.lift (throw .overflow)

/-- The guard of `substring`; the sum of an `off_t` and a `size_t` is a `size_t`. -/
def Refused (str : List Byte) (pos : ℤ) (len : ℕ) : Prop :=
  ((pos + len) % 2 ^ 64).toNat > str.length ∨ pos < 0

instance (str : List Byte) (pos : ℤ) (len : ℕ) : Decidable (Refused str pos len) :=
  inferInstanceAs (Decidable (_ ∨ _))

/-- `substring`. The memory behind `str` is `beyond`, and `given` says whether `malloc` gives a
block. -/
def substring (str : List Byte) (beyond : ℕ → Byte) (given : Bool) (pos : ℤ) (len : ℕ) :
    Logged Access Fault Outcome :=
  if Refused str pos len then pure .rejected
  else do
    let bytes ← copyLoop (byteAt str beyond) pos.toNat (if given then some len else none) len 0 []
    pure (.returned (if given then some bytes else none))

/-- The call refuses, or the arguments are in the string and the block holds its characters and a
NUL, with all accesses inside `str` and the block. -/
def Bounded (str : List Byte) (pos : ℤ) (len : ℕ) (call : Logged Access Fault Outcome) : Prop :=
  call.result = .ok .rejected ∨
    (0 ≤ pos ∧ pos + len ≤ str.length ∧ call.All (Access.Inside str) ∧
      ∃ bytes rest, call.result = .ok (.returned (some bytes)) ∧
        bytes = (str.drop pos.toNat).take len ++ 0 :: rest)

/-! ### The loop -/

section Loop

variable (mem : ℕ → Byte) (pos : ℕ) (block : Option ℕ)

/-- The loop stores one byte for each character. -/
theorem length_of_copyLoop {out : List Byte} : {left i : ℕ} → {bytes : List Byte} →
    (copyLoop mem pos block left i bytes).result = .ok out → out.length = bytes.length + left
  | 0, _, _, h => by
      obtain rfl := Except.ok.inj h
      rfl
  | left + 1, i, bytes, h => by
      rw [copyLoop, Logged.result_bind, Logged.result_tell, ok_bind] at h
      split_ifs at h with hi
      · have hrest := length_of_copyLoop h
        rw [List.length_append, List.length_singleton] at hrest
        omega
      · cases h

/-- **The loop copies** the characters as long as its counter does not overflow. -/
theorem copyLoop_spec : (left i : ℕ) → (bytes : List Byte) → i + left < 2 ^ 31 →
    (copyLoop mem pos block left i bytes).result =
        .ok (bytes ++ (List.range' i left).map fun k => mem (pos + k)) ∧
      (copyLoop mem pos block left i bytes).All fun a =>
        ∃ k, i ≤ k ∧ k < i + left ∧ (a = .read (pos + k) ∨ a = .write block k)
  | 0, i, bytes, _ => ⟨by rw [List.range'_zero, List.map_nil, List.append_nil]; rfl,
      Logged.all_pure _⟩
  | left + 1, i, bytes, h => by
      obtain ⟨hresult, hall⟩ := copyLoop_spec left (i + 1) (bytes ++ [mem (pos + i)]) (by omega)
      rw [copyLoop, Logged.result_bind, Logged.result_tell, ok_bind, Logged.all_tell_bind,
        if_pos (by omega : i + 1 < 2 ^ 31)]
      refine ⟨?_, fun a ha => ?_, fun a ha => ?_⟩
      · rw [hresult, List.range'_succ, List.map_cons, List.append_assoc, List.singleton_append]
      · refine ⟨i, le_rfl, by omega, ?_⟩
        simpa using ha
      · obtain ⟨k, hle, hlt, hk⟩ := hall a ha
        exact ⟨k, by omega, by omega, hk⟩

end Loop

/-! ### The function -/

section Function

variable (str : List Byte) (beyond : ℕ → Byte) (pos : ℤ) (len : ℕ)

/-- The characters of the string, read one by one. -/
theorem map_byteAt (n : ℕ) (h : n + len ≤ str.length) :
    (List.range' 0 len).map (fun k => byteAt str beyond (n + k)) = (str.drop n).take len := by
  refine List.ext_getElem ?_ fun k hk hk' => ?_
  · rw [List.length_map, List.length_range', List.length_take, List.length_drop]
    omega
  · rw [List.length_map, List.length_range'] at hk
    have hlt : n + k < str.length := by omega
    rw [List.getElem_map, List.getElem_range', List.getElem_take, List.getElem_drop, byteAt,
      Nat.zero_add, Nat.one_mul, List.getD_append _ _ _ _ hlt, List.getD_eq_getElem _ _ hlt]

/-- **What the block holds**: when the arguments are in the string, fewer than `2^31` characters
are asked for and `malloc` gives a block, it is filled with the characters, and all accesses are
inside `str` and the block. -/
theorem substring_of_le (h0 : 0 ≤ pos) (hle : pos + len ≤ str.length) (hlen : len < 2 ^ 31)
    (hstr : str.length < 2 ^ 64) :
    (substring str beyond true pos len).result =
        .ok (.returned (some ((str.drop pos.toNat).take len))) ∧
      (substring str beyond true pos len).All (Access.Inside str) := by
  obtain ⟨n, rfl⟩ := Int.eq_ofNat_of_zero_le h0
  have haccepted : ¬Refused str n len := by
    rw [Refused, Int.emod_eq_of_lt (by omega) (by omega)]
    omega
  obtain ⟨hresult, hall⟩ := copyLoop_spec (byteAt str beyond) n (some len) len 0 [] (by omega)
  rw [substring, if_neg haccepted, Int.toNat_natCast, if_pos rfl, Logged.result_bind, hresult,
    Logged.all_bind, ok_bind, Logged.result_pure, List.nil_append,
    map_byteAt str beyond len n (by omega)]
  refine ⟨rfl, fun a ha => ?_, fun _ _ => Logged.all_pure _⟩
  obtain ⟨k, -, hlt, rfl | rfl⟩ := hall a ha
  · show n + k ≤ str.length
    omega
  · exact ⟨len, rfl, by omega⟩

/-- Where the arguments are accepted the block has no room for a NUL behind the characters. -/
theorem not_bounded_of_not_refused (haccepted : ¬Refused str pos len) (given : Bool) :
    ¬Bounded str pos len (substring str beyond given pos len) := by
  intro hbounded
  rw [substring, if_neg haccepted] at hbounded
  obtain hrejected | ⟨h0, hle, -, bytes, rest, hresult, hbytes⟩ := hbounded
  · obtain ⟨out, -, hout⟩ := exists_of_bind_eq_ok ((Logged.result_bind _ _).symm.trans hrejected)
    cases hout
  · obtain ⟨out, hcopy, hout⟩ :=
      exists_of_bind_eq_ok ((Logged.result_bind _ _).symm.trans hresult)
    have hlen := length_of_copyLoop _ _ _ hcopy
    cases given with
    | false => cases hout
    | true =>
      obtain rfl : out = bytes := Option.some.inj (Outcome.returned.inj (Except.ok.inj hout))
      -- the characters alone fill the block
      rw [hbytes, List.length_append, List.length_take, List.length_drop, List.length_cons,
        List.length_nil] at hlen
      omega

/-- **When `substring` is bounded and terminated.** For every string, all arguments and whatever
`malloc` gives, the function refuses, or gives the characters as a string in its block, if and only
if it refuses. -/
theorem bounded_iff (given : Bool) :
    Bounded str pos len (substring str beyond given pos len) ↔ Refused str pos len := by
  refine ⟨fun hbounded => ?_, fun hrefused => ?_⟩
  · by_contra haccepted
    exact not_bounded_of_not_refused str beyond pos len haccepted given hbounded
  · rw [substring, if_pos hrefused]
    exact .inl rfl

end Function

/-- **A string that is cut out is not terminated**: of `Nicht` and a newline, three characters from
position 2 on. -/
theorem not_forall_bounded :
    ¬∀ (str : List Byte) (beyond : ℕ → Byte) (given : Bool) (pos : ℤ) (len : ℕ),
      (0 : Byte) ∉ str → -2 ^ 63 ≤ pos → pos < 2 ^ 63 → len < 2 ^ 64 →
      Bounded str pos len (substring str beyond given pos len) := by
  intro hall
  have hbounded := hall [78, 105, 99, 104, 116, 10] (fun _ => 0) true 2 3 (by decide) (by decide)
    (by decide) (by decide)
  exact not_bounded_of_not_refused _ _ 2 3 (by decide) true hbounded

end TikFachpraktika.Intro.Substring
