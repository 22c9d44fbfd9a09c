import Mathlib.Data.List.Infix
import Mathlib.Data.List.TakeWhile
import Mathlib.Tactic.Ring

/-!
# Bytes, C strings and C integers

Byte lists as C programs use them: integers in little-endian order, character arrays of a fixed
size, the string that a character array holds up to its first NUL, and the comparisons of
`<string.h>`. A byte beyond the end of a list reads as NUL, so a list stands for a C string with
its terminator left out as well as for an array that is read inside its bounds.

## Main definitions

* `leBytes`, `leNat`: little-endian integers.
* `CharArray`, `CharArray.fill`: arrays of fixed size, filled as by `memset` and `memcpy`.
* `cstr`: the C string at the start of an array.
* `memcmp`, `strncmp`: the comparisons of `<string.h>`.
* `cInt`, `cSizeT`: conversions to `int` and to `size_t`.

## Main results

* `leNat_leBytes`, `leBytes_leNat`: the little-endian round trips.
* `memcmp_eq_zero_iff`, `strncmp_eq_zero_iff`: when the comparisons find no difference.
* `ok_bind`, `error_bind`, `exists_of_bind_eq_ok`, `of_foldlM_eq_ok`: rules for computations that
  may fail.
-/

namespace TikFachpraktika.Posix

/-- A byte. -/
abbrev Byte := UInt8

/-! ### Little-endian integers -/

/-- The `n` low bytes of `v`, the lowest first. -/
def leBytes : ℕ → ℕ → List Byte
  | 0, _ => []
  | n + 1, v => UInt8.ofNat v :: leBytes n (v / 256)

/-- The number whose little-endian bytes are given. -/
def leNat : List Byte → ℕ
  | [] => 0
  | b :: bs => b.toNat + 256 * leNat bs

@[simp] theorem length_leBytes : (n v : ℕ) → (leBytes n v).length = n
  | 0, _ => rfl
  | n + 1, v => by rw [leBytes, List.length_cons, length_leBytes n]

theorem leNat_leBytes : (n v : ℕ) → leNat (leBytes n v) = v % 256 ^ n
  | 0, v => by rw [pow_zero, Nat.mod_one]; rfl
  | n + 1, v => by
      have hbyte : (UInt8.ofNat v).toNat = v % 256 := UInt8.toNat_ofNat'
      rw [leBytes, leNat, leNat_leBytes n, hbyte, pow_succ', Nat.mod_mul]

theorem leBytes_leNat : (bs : List Byte) → leBytes bs.length (leNat bs) = bs
  | [] => rfl
  | b :: bs => by
      have hlow : UInt8.ofNat (b.toNat + 256 * leNat bs) = b := by
        apply UInt8.toNat.inj
        have := b.toNat_lt
        rw [UInt8.toNat_ofNat']
        omega
      have hhigh : (b.toNat + 256 * leNat bs) / 256 = leNat bs := by
        have := b.toNat_lt
        omega
      rw [leNat, List.length_cons, leBytes, hlow, hhigh, leBytes_leNat bs]

theorem leNat_lt : (bs : List Byte) → leNat bs < 256 ^ bs.length
  | [] => Nat.one_pos
  | b :: bs => by
      have hlow := b.toNat_lt
      have hhigh := leNat_lt bs
      rw [leNat, List.length_cons, pow_succ']
      omega

/-! ### Character arrays and C strings -/

/-- An array of `n` bytes. -/
abbrev CharArray (n : ℕ) := {bs : List Byte // bs.length = n}

/-- The array of `n` bytes that `memset` to zero and `memcpy` of (at most) its first `n` bytes
leave. -/
def CharArray.fill (n : ℕ) (bs : List Byte) : CharArray n :=
  ⟨bs.take n ++ List.replicate (n - bs.length) 0, by
    rw [List.length_append, List.length_take, List.length_replicate]
    omega⟩

theorem CharArray.fill_of_length {n : ℕ} {bs : List Byte} (h : bs.length = n) :
    CharArray.fill n bs = ⟨bs, h⟩ := by
  apply Subtype.ext
  simp [fill, h]

/-- The C string at the start of an array: the bytes before the first NUL. -/
def cstr (bs : List Byte) : List Byte :=
  bs.takeWhile (· ≠ 0)

theorem zero_notMem_cstr (bs : List Byte) : (0 : Byte) ∉ cstr bs := fun h => by
  simpa using List.mem_takeWhile_imp h

theorem cstr_of_notMem {bs : List Byte} (h : (0 : Byte) ∉ bs) : cstr bs = bs :=
  List.takeWhile_eq_self_iff.mpr fun b hb => by simpa using fun h0 : b = 0 => h (h0 ▸ hb)

theorem cstr_append_of_notMem {bs : List Byte} (h : (0 : Byte) ∉ bs) (cs : List Byte) :
    cstr (bs ++ cs) = bs ++ cstr cs :=
  List.takeWhile_append_of_pos fun b hb => by simpa using fun h0 : b = 0 => h (h0 ▸ hb)

@[simp] theorem cstr_nil : cstr [] = [] := rfl

@[simp] theorem cstr_zero_cons (bs : List Byte) : cstr (0 :: bs) = [] := rfl

theorem cstr_replicate_zero (n : ℕ) : cstr (List.replicate n 0) = [] := by
  cases n <;> rfl

/-- A string without NUL starts an array if and only if it starts the C string in it. -/
theorem prefix_cstr_iff {p bs : List Byte} (hp : (0 : Byte) ∉ p) : p <+: cstr bs ↔ p <+: bs := by
  constructor
  · exact fun h => h.trans (List.takeWhile_prefix _)
  · rintro ⟨t, rfl⟩
    rw [cstr_append_of_notMem hp]
    exact List.prefix_append p _

/-- The array filled with a shorter string holds this string. -/
theorem cstr_fill {n : ℕ} {s : List Byte} (hs : (0 : Byte) ∉ s) :
    cstr (CharArray.fill n s).1 = s.take n := by
  have htake : (0 : Byte) ∉ s.take n := fun h => hs (List.mem_of_mem_take h)
  rw [CharArray.fill, cstr_append_of_notMem htake, cstr_replicate_zero, List.append_nil]

/-! ### Comparisons of `<string.h>` -/

/-- `memcmp`: the difference of the first two bytes that differ among the first `n`, or zero. -/
def memcmp : ℕ → List Byte → List Byte → ℤ
  | 0, _, _ => 0
  | n + 1, a, b =>
    if a.headD 0 = b.headD 0 then memcmp n a.tail b.tail
    else (a.headD 0).toNat - (b.headD 0).toNat

/-- `strncmp`: as `memcmp`, but a common NUL ends the comparison. -/
def strncmp : ℕ → List Byte → List Byte → ℤ
  | 0, _, _ => 0
  | n + 1, a, b =>
    if a.headD 0 = b.headD 0 then
      if a.headD 0 = 0 then 0 else strncmp n a.tail b.tail
    else (a.headD 0).toNat - (b.headD 0).toNat

private theorem sub_toNat_ne_zero {x y : Byte} (h : x ≠ y) : (x.toNat : ℤ) - y.toNat ≠ 0 :=
  fun h0 => h (UInt8.toNat.inj (by omega))

theorem memcmp_eq_zero_iff : (n : ℕ) → (a b : List Byte) → n ≤ a.length → n ≤ b.length →
    (memcmp n a b = 0 ↔ a.take n = b.take n)
  | 0, _, _, _, _ => by simp [memcmp]
  | n + 1, x :: a, y :: b, ha, hb => by
      have ih := memcmp_eq_zero_iff n a b (Nat.le_of_succ_le_succ ha) (Nat.le_of_succ_le_succ hb)
      simp only [memcmp, List.headD_cons, List.tail_cons, List.take_succ_cons, List.cons.injEq]
      split_ifs with hxy
      · simpa [hxy] using ih
      · simp [hxy, sub_toNat_ne_zero hxy]

/-- Against a string `b` without NUL in the compared range, `strncmp` finds no difference if and
only if the compared part of `b` starts the string in `a`. -/
theorem strncmp_eq_zero_iff : (n : ℕ) → (a b : List Byte) → n ≤ b.length → (0 : Byte) ∉ b →
    (strncmp n a b = 0 ↔ b.take n <+: cstr a)
  | 0, _, _, _, _ => by simp [strncmp]
  | n + 1, [], y :: b, _, h0 => by
      have hy : (0 : Byte) ≠ y := fun h => h0 (h ▸ List.mem_cons_self)
      have hne := sub_toNat_ne_zero hy
      simpa [strncmp, hy] using hne
  | n + 1, x :: a, y :: b, hb, h0 => by
      have hy : y ≠ 0 := fun h => h0 (h ▸ List.mem_cons_self)
      have ih := strncmp_eq_zero_iff n a b (Nat.le_of_succ_le_succ hb)
        fun h => h0 (List.mem_cons_of_mem _ h)
      by_cases hxy : x = y
      · subst hxy
        have hkeep : cstr (x :: a) = x :: cstr a :=
          List.takeWhile_cons_of_pos (by simpa using hy)
        simpa [strncmp, hy, hkeep, List.prefix_cons_inj] using ih
      · have hhead : ¬ y :: b.take n <+: cstr (x :: a) := fun hpre =>
          hxy (List.cons_prefix_cons.mp (hpre.trans (List.takeWhile_prefix _))).1.symm
        simpa [strncmp, hxy, hhead] using sub_toNat_ne_zero hxy

/-! ### C integers -/

/-- Conversion of an integer to a 32-bit `int`. -/
def cInt (n : ℤ) : ℤ :=
  n.bmod (2 ^ 32)

/-- Conversion of an integer to a 64-bit `size_t`. -/
def cSizeT (n : ℤ) : ℕ :=
  (n % 2 ^ 64).toNat

/-- Conversion of an integer to a 64-bit `off_t`. -/
def cOffT (n : ℤ) : ℤ :=
  n.bmod (2 ^ 64)

theorem cOffT_natCast {n : ℕ} (h : n < 2 ^ 63) : cOffT n = n := by
  rw [cOffT, Int.bmod_def]
  push_cast
  split_ifs <;> omega

theorem cSizeT_natCast {n : ℕ} (h : n < 2 ^ 64) : cSizeT n = n := by
  rw [cSizeT]
  omega

theorem cInt_natCast {n : ℕ} (h : n < 2 ^ 31) : cInt n = n := by
  rw [cInt, Int.bmod_def]
  push_cast
  split_ifs <;> omega

/-- A count that went through an `int` compares equal to itself exactly below `2^31`. -/
theorem cSizeT_cInt_eq_iff {n : ℕ} (h : n < 2 ^ 63) : cSizeT (cInt n) = n ↔ n < 2 ^ 31 := by
  rw [cSizeT, cInt, Int.bmod_def]
  push_cast
  split_ifs <;> omega

/-- A count below `2^32` survives the conversion to `int` and back to `uint32_t`. -/
theorem cInt_emod {n : ℕ} (h : n < 2 ^ 32) : cInt n % 2 ^ 32 = n := by
  rw [cInt, Int.bmod_def]
  push_cast
  split_ifs <;> omega

/-! ### Computations that may fail -/

section Except

variable {ε α β : Type}

/-- A computation that goes on from a result. -/
theorem ok_bind (a : α) (f : α → Except ε β) : (.ok a >>= f) = f a := rfl

/-- A computation that has failed. -/
theorem error_bind (e : ε) (f : α → Except ε β) : (.error e >>= f) = .error e := rfl

theorem pure_ne_error (a : α) (e : ε) : (pure a : Except ε α) ≠ .error e := by
  intro h
  cases h

theorem throw_ne_error {e e' : ε} (h : e ≠ e') : (throw e : Except ε α) ≠ .error e' :=
  fun heq => h (Except.error.inj heq)

/-- A computation with a result has one in each of its parts. -/
theorem exists_of_bind_eq_ok {x : Except ε α} {f : α → Except ε β} {b : β}
    (h : x >>= f = .ok b) : ∃ a, x = .ok a ∧ f a = .ok b := by
  cases x with
  | error e => cases h
  | ok a => exact ⟨a, rfl, h⟩

theorem exists_of_map_eq_ok {x : Except ε α} {f : α → β} {b : β} (h : x.map f = .ok b) :
    ∃ a, x = .ok a ∧ f a = b := by
  cases x with
  | error e => cases h
  | ok a => exact ⟨a, rfl, Except.ok.inj h⟩

/-- A loop with a result has one in its first step. -/
theorem exists_of_foldlM_cons_eq_ok {f : β → α → Except ε β} {a : α} {l : List α} {b c : β}
    (h : (a :: l).foldlM f b = .ok c) : ∃ b', f b a = .ok b' ∧ l.foldlM f b' = .ok c := by
  rw [List.foldlM_cons] at h
  exact exists_of_bind_eq_ok h

/-- A property that is kept by each step is kept by a loop. -/
theorem of_foldlM_eq_ok {P : β → Prop} {f : β → α → Except ε β} : {l : List α} → {b c : β} →
    (∀ a ∈ l, ∀ {b b'}, P b → f b a = .ok b' → P b') → P b → l.foldlM f b = .ok c → P c
  | [], b, c, _, hb, h => by
      cases h
      exact hb
  | a :: l, b, c, hstep, hb, h => by
      obtain ⟨b', hfirst, hrest⟩ := exists_of_foldlM_cons_eq_ok h
      exact of_foldlM_eq_ok (fun a' ha' => hstep a' (List.mem_cons_of_mem _ ha'))
        (hstep a List.mem_cons_self hb hfirst) hrest

/-- A failure of a computation is one of its parts. -/
theorem bind_ne_error {x : Except ε α} {f : α → Except ε β} {e : ε} (hx : x ≠ .error e)
    (hf : ∀ a, x = .ok a → f a ≠ .error e) : x >>= f ≠ .error e := by
  cases x with
  | error e' => exact fun h => hx (congrArg _ (Except.error.inj h))
  | ok a => exact hf a rfl

theorem foldlM_ne_error {f : β → α → Except ε β} {e : ε} (hf : ∀ b a, f b a ≠ .error e)
    (l : List α) (b : β) : l.foldlM f b ≠ .error e := by
  induction l generalizing b with
  | nil => exact pure_ne_error b e
  | cons a l ih =>
    rw [List.foldlM_cons]
    exact bind_ne_error (hf b a) fun b' _ => ih b'

end Except

end TikFachpraktika.Posix
