import TikFachpraktika.Posix.Bytes

/-!
# Common functions of the chat programs

`strnicmp`, `strlcat` and `write_exact` of `6_network/chat-common.c`. Memory is a list of bytes
that reads as NUL beyond its end, so the zeroed buffer that `xzmalloc` and `memset` leave is the
empty list.

## Main definitions

* `strnicmp`, `strlcat`: the string functions.
* `poke`, `overwrite`: memory after bytes have been stored.
* `WriteAnswer`, `writeExact`: `write_exact` with the answers of `write`.

## Main results

* `strnicmp_length_eq_zero_iff`: the comparison with the length of the first string accepts every
  string that continues it.
* `cstr_strlcat`: a string that fits is appended.
-/

namespace TikFachpraktika.Chat

open Posix

/-- `INIT_QSIZ`. -/
def initQsiz : ℕ := 100 * 1024

/-- The bytes of a string constant. -/
def str (s : String) : List Byte :=
  s.toList.map fun c => UInt8.ofNat c.toNat

/-! ### Comparing without case -/

/-- `tolower` in the C locale. -/
def tolower (c : Byte) : Byte :=
  if 65 ≤ c ∧ c ≤ 90 then c + 32 else c

/-- A string in lower case. -/
def lower (s : List Byte) : List Byte :=
  s.map tolower

/-- `strnicmp`. -/
def strnicmp : List Byte → List Byte → ℕ → ℤ
  | _, _, 0 => 0
  | s1, s2, len + 1 =>
    let c1 := s1.headD 0
    let c2 := s2.headD 0
    if c1 = 0 ∨ c2 = 0 then c1.toNat - c2.toNat
    else if c1 = c2 then strnicmp s1.tail s2.tail len
    else if tolower c1 ≠ tolower c2 then (tolower c1).toNat - (tolower c2).toNat
    else strnicmp s1.tail s2.tail len

@[simp] theorem length_lower (s : List Byte) : (lower s).length = s.length :=
  List.length_map _

theorem lower_take (s : List Byte) (n : ℕ) : lower (s.take n) = (lower s).take n :=
  List.map_take

private theorem toNat_sub_toNat_ne_zero {x y : Byte} (h : x ≠ y) : (x.toNat : ℤ) - y.toNat ≠ 0 :=
  fun h0 => h (UInt8.toNat.inj (by omega))

theorem strnicmp_cons {x y : Byte} (hx : x ≠ 0) (hy : y ≠ 0) (s1 s2 : List Byte) (n : ℕ) :
    strnicmp (x :: s1) (y :: s2) (n + 1) =
      if x = y then strnicmp s1 s2 n
      else if tolower x ≠ tolower y then (tolower x).toNat - (tolower y).toNat
      else strnicmp s1 s2 n :=
  if_neg (not_or.mpr ⟨hx, hy⟩)

/-- Strings that begin with different characters differ. -/
theorem strnicmp_ne_zero_of_headD {s1 s2 : List Byte} {n : ℕ} (hn : 0 < n) (h1 : s1.headD 0 ≠ 0)
    (h2 : s2.headD 0 ≠ 0) (h : tolower (s1.headD 0) ≠ tolower (s2.headD 0)) :
    strnicmp s1 s2 n ≠ 0 := by
  cases n with
  | zero => exact absurd hn (lt_irrefl 0)
  | succ n =>
    rw [strnicmp, if_neg (not_or.mpr ⟨h1, h2⟩), if_neg (fun heq => h (congrArg tolower heq)),
      if_pos h]
    exact toNat_sub_toNat_ne_zero h

/-- `strnicmp` finds no difference exactly when the compared parts agree in lower case. -/
theorem strnicmp_eq_zero_iff : (n : ℕ) → (s1 s2 : List Byte) → (0 : Byte) ∉ s1 → (0 : Byte) ∉ s2 →
    (strnicmp s1 s2 n = 0 ↔ lower (s1.take n) = lower (s2.take n))
  | 0, _, _, _, _ => by simp [strnicmp]
  | n + 1, [], [], _, _ => by simp [strnicmp]
  | n + 1, [], y :: s2, _, h2 => by
      have hy : (0 : Byte) ≠ y := fun h => h2 (h ▸ List.mem_cons_self)
      simpa [strnicmp, lower] using toNat_sub_toNat_ne_zero hy
  | n + 1, x :: s1, [], h1, _ => by
      have hx : x ≠ 0 := fun h => h1 (h ▸ List.mem_cons_self)
      simpa [strnicmp, lower] using toNat_sub_toNat_ne_zero hx
  | n + 1, x :: s1, y :: s2, h1, h2 => by
      have hx : x ≠ 0 := fun h => h1 (h ▸ List.mem_cons_self)
      have hy : y ≠ 0 := fun h => h2 (h ▸ List.mem_cons_self)
      have ih := strnicmp_eq_zero_iff n s1 s2 (fun h => h1 (List.mem_cons_of_mem _ h))
        fun h => h2 (List.mem_cons_of_mem _ h)
      have hsplit : lower ((x :: s1).take (n + 1)) = lower ((y :: s2).take (n + 1)) ↔
          tolower x = tolower y ∧ lower (s1.take n) = lower (s2.take n) := by
        rw [List.take_succ_cons, List.take_succ_cons, lower, lower, List.map_cons, List.map_cons,
          List.cons.injEq]
        rfl
      rw [strnicmp_cons hx hy, hsplit]
      split_ifs with hxy hne
      · rw [ih, hxy, eq_self, true_and]
      · exact iff_of_false (toNat_sub_toNat_ne_zero hne) fun h => hne h.1
      · rw [ih, not_not.mp hne, eq_self, true_and]

/-- **Comparing with the length of the first string** accepts every string that continues it. -/
theorem strnicmp_length_eq_zero_iff {s1 s2 : List Byte} (h1 : (0 : Byte) ∉ s1)
    (h2 : (0 : Byte) ∉ s2) : strnicmp s1 s2 s1.length = 0 ↔ lower s1 <+: lower s2 := by
  rw [strnicmp_eq_zero_iff _ _ _ h1 h2, List.take_length, lower_take, List.prefix_iff_eq_take,
    length_lower]

/-! ### Changing memory -/

/-- The memory after `b` has been stored at `i`. -/
def poke (mem : List Byte) (i : ℕ) (b : Byte) : List Byte :=
  mem.take i ++ List.replicate (i - mem.length) 0 ++ b :: mem.drop (i + 1)

theorem poke_length (mem : List Byte) (b : Byte) : poke mem mem.length b = mem ++ [b] := by
  rw [poke, List.take_length, Nat.sub_self, List.replicate_zero, List.append_nil,
    List.drop_of_length_le (Nat.le_succ _)]

/-- The memory after `bytes` have been stored at its beginning. -/
def overwrite (mem bytes : List Byte) : List Byte :=
  bytes ++ mem.drop bytes.length

/-! ### Appending to a string -/

/-- `strlcat`: the returned length and the memory at `dest` afterwards. -/
def strlcat (dest src : List Byte) (count : ℕ) : ℕ × List Byte :=
  let dsize := (cstr dest).length
  let res := dsize + src.length
  if dsize ≥ count then (0, dest)
  else
    let len := min src.length (count - dsize - 1)
    (res, dest.take dsize ++ src.take len ++ 0 :: dest.drop (dsize + len + 1))

/-- A string that fits is appended. -/
theorem cstr_strlcat {dest src : List Byte} {count : ℕ} (hsrc : (0 : Byte) ∉ src)
    (hfit : (cstr dest).length + src.length < count) :
    cstr (strlcat dest src count).2 = cstr dest ++ src := by
  have htake : dest.take (cstr dest).length = cstr dest :=
    (List.prefix_iff_eq_take.mp (List.takeWhile_prefix _)).symm
  have hmem : (0 : Byte) ∉ cstr dest ++ src := by
    rw [List.mem_append, not_or]
    exact ⟨zero_notMem_cstr dest, hsrc⟩
  simp only [strlcat, if_neg (Nat.not_le.mpr (show (cstr dest).length < count by omega)),
    Nat.min_eq_left (show src.length ≤ count - (cstr dest).length - 1 by omega), htake,
    List.take_length]
  rw [cstr_append_of_notMem hmem, cstr_zero_cons, List.append_nil]

/-! ### Writing -/

/-- An answer of `write`: an error, at most `n` bytes, or all bytes. -/
inductive WriteAnswer
  | error
  | written (n : ℕ)
  | full
  deriving DecidableEq

/-- How many of `len` bytes an answer takes; `none` for an error. -/
def WriteAnswer.count (len : ℕ) : WriteAnswer → Option ℕ
  | .error => none
  | .written n => some (min n len)
  | .full => some len

/-- `write_exact` from the point where `num` bytes have been written: the returned value and the
bytes that go out from there on. An error is tried again, and without further answers the loop
does not end. -/
def writeExact : List WriteAnswer → List Byte → ℕ → Option (ℕ × List Byte)
  | _, [], num => some (num, [])
  | [], _ :: _, _ => none
  | answer :: answers, b :: buf, num =>
    match answer.count (b :: buf).length with
    | none => writeExact answers (b :: buf) num
    | some written =>
      if written = 0 then some (0, [])
      else
        (writeExact answers ((b :: buf).drop written) (num + written)).map fun (ret, out) =>
          (ret, (b :: buf).take written ++ out)

/-- Written in full, the bytes go out at once. -/
theorem writeExact_full (answers : List WriteAnswer) {buf : List Byte} (hbuf : buf ≠ []) :
    writeExact (.full :: answers) buf 0 = some (buf.length, buf) := by
  cases buf with
  | nil => exact absurd rfl hbuf
  | cons b buf =>
    rw [writeExact, WriteAnswer.count]
    dsimp only
    rw [if_neg (by simp), List.drop_length, List.take_length]
    cases answers <;> simp [writeExact]

/-- Unless it returns 0, `write_exact` has written the whole buffer. -/
theorem eq_of_writeExact : {answers : List WriteAnswer} → {buf : List Byte} → {num ret : ℕ} →
    {out : List Byte} → writeExact answers buf num = some (ret, out) → ret ≠ 0 → out = buf
  | answers, [], num, ret, out, h, _ => by
      rw [writeExact] at h
      cases h
      rfl
  | [], b :: buf, num, ret, out, h, _ => by cases h
  | answer :: answers, b :: buf, num, ret, out, h, hret => by
      rw [writeExact] at h
      cases hcount : answer.count (b :: buf).length with
      | none =>
        rw [hcount] at h
        exact eq_of_writeExact h hret
      | some written =>
        rw [hcount] at h
        dsimp only at h
        split_ifs at h with hzero
        · cases h
          exact absurd rfl hret
        · obtain ⟨⟨ret', out'⟩, hrest, hout⟩ := Option.map_eq_some_iff.mp h
          obtain ⟨rfl, rfl⟩ := Prod.mk.inj hout
          rw [eq_of_writeExact hrest hret, List.take_append_drop]

end TikFachpraktika.Chat
