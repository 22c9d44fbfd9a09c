import TikFachpraktika.Logged.Run
import TikFachpraktika.Shell.Tokens

/-!
# The command line of the tester

`test_data` of `3_pageshm/consumer.c` prints the values between 0 and 99 one after the other into
`argstr`, and runs `./tester` with them through the shell. The tester of `3_pageshm/tester.c` takes
each argument as an index of its table of words.

## Main definitions

* `Store`: a byte that is stored in one of the two buffers.
* `testData`: the function, with a log of what it stores.
* `kept`: the values that are printed.

## Main results

* `testData_fits`: nothing is stored behind the buffers, and what the command line is.
-/

namespace TikFachpraktika.Pageshm

open Posix

/-- `MAX_STR_LEN`. -/
def maxStrLen : ℕ := 4096

/-- The bytes of a string constant. -/
def str (s : String) : List Byte :=
  s.toList.map fun c => UInt8.ofNat c.toNat

/-- A number in decimal. -/
def decimal (v : ℤ) : List Byte :=
  if v < 0 then 45 :: (Nat.toDigits 10 v.natAbs).map fun c => UInt8.ofNat c.toNat
  else (Nat.toDigits 10 v.natAbs).map fun c => UInt8.ofNat c.toNat

/-- What `sprintf` prints for the format `%2d `. -/
def sprintf2d (v : ℤ) : List Byte :=
  (decimal v).leftpad 2 32 ++ [32]

/-- A byte stored at a position of `argstr` or of `finstr`. -/
inductive Store
  | argstr (pos : ℕ)
  | finstr (pos : ℕ)
  deriving DecidableEq

/-- The position is inside the buffer. -/
def Store.Inside : Store → Prop
  | .argstr pos => pos < maxStrLen
  | .finstr pos => pos < maxStrLen + 32

/-- The memory after a string and its NUL have been stored at a position. -/
def storeString (mem : List Byte) (pos : ℕ) (text : List Byte) : List Byte :=
  mem.take pos ++ text ++ [0] ++ mem.drop (pos + text.length + 1)

/-- The variables of the loop. -/
structure ArgState where
  offset : ℕ
  argstr : List Byte

/-- The body of the loop of `test_data` for the value `v`. -/
def argStep (st : ArgState) (v : ℤ) : Logged Store Unit ArgState :=
  if v < 0 ∨ v ≥ 100 then pure st
  else
    let text := sprintf2d v
    ⟨(List.range' st.offset (text.length + 1)).map .argstr,
      .ok ⟨st.offset + text.length, storeString st.argstr st.offset text⟩⟩

/-- `test_data`, with the command line that is handed to `system`. The result is an error if the
length check fails. -/
def testData (data : List ℤ) : Logged Store Unit (List Byte) :=
  if data.length ≥ maxStrLen / 3 - 1 then Logged.lift (throw ())
  else do
    let st ← data.foldlM argStep ⟨0, List.replicate maxStrLen 0⟩
    let argstr := cstr st.argstr
    let finstr := storeString (List.replicate (maxStrLen + 32) 0) 0 (str "./tester ")
    let len := (cstr finstr).length
    Logged.tell ((List.range' 0 ((str "./tester ").length + 1)).map .finstr)
    Logged.tell ((List.range' len (argstr.length + 1)).map .finstr)
    pure (cstr (storeString finstr len argstr))

/-- The values that are printed. -/
def kept (data : List ℤ) : List ℤ :=
  data.filter fun v => decide (0 ≤ v ∧ v < 100)

/-! ### One number -/

/-- The bytes of the numbers that are printed: at most two digits. -/
theorem decimal_spec : ∀ n < 100, 1 ≤ (decimal (n : ℕ)).length ∧ (decimal (n : ℕ)).length ≤ 2 ∧
    ∀ c ∈ decimal (n : ℕ), 48 ≤ c ∧ c ≤ 57 := by
  decide +kernel

/-- A number is printed with blanks before it, and one behind it. -/
theorem sprintf2d_eq (v : ℤ) : sprintf2d v =
    List.replicate (2 - (decimal v).length) 32 ++ decimal v ++ [32] := rfl

section Number

variable {v : ℤ} (h0 : 0 ≤ v) (h100 : v < 100)
include h0 h100

theorem decimal_spec_int : 1 ≤ (decimal v).length ∧ (decimal v).length ≤ 2 ∧
    ∀ c ∈ decimal v, 48 ≤ c ∧ c ≤ 57 := by
  obtain ⟨n, rfl⟩ := Int.eq_ofNat_of_zero_le h0
  exact decimal_spec n (by omega)

/-- **Each number takes three bytes.** -/
theorem length_sprintf2d : (sprintf2d v).length = 3 := by
  obtain ⟨-, hle, -⟩ := decimal_spec_int h0 h100
  rw [sprintf2d_eq, List.length_append, List.length_append, List.length_replicate,
    List.length_singleton]
  omega

theorem zero_notMem_sprintf2d : (0 : Byte) ∉ sprintf2d v := by
  intro hmem
  obtain ⟨-, -, hdigits⟩ := decimal_spec_int h0 h100
  rw [sprintf2d_eq] at hmem
  rcases List.mem_append.mp hmem with hfirst | hlast
  · rcases List.mem_append.mp hfirst with hpad | hdigit
    · exact absurd (List.eq_of_mem_replicate hpad) (by decide)
    · exact absurd (hdigits 0 hdigit).1 (by decide)
  · exact absurd (List.mem_singleton.mp hlast) (by decide)

end Number

theorem mem_kept {data : List ℤ} {v : ℤ} : v ∈ kept data ↔ v ∈ data ∧ 0 ≤ v ∧ v < 100 := by
  rw [kept, List.mem_filter, decide_eq_true_iff]

/-- What is printed for some values. -/
def printed (data : List ℤ) : List Byte :=
  (kept data).flatMap sprintf2d

theorem length_printed (data : List ℤ) : (printed data).length = 3 * (kept data).length := by
  have hthree : ∀ vs : List ℤ, (∀ v ∈ vs, 0 ≤ v ∧ v < 100) →
      (vs.flatMap sprintf2d).length = 3 * vs.length := by
    intro vs hvs
    induction vs with
    | nil => rfl
    | cons v vs ih =>
      obtain ⟨h0, h100⟩ := hvs v List.mem_cons_self
      rw [List.flatMap_cons, List.length_append, length_sprintf2d h0 h100,
        ih fun u hu => hvs u (List.mem_cons_of_mem v hu), List.length_cons]
      omega
  exact hthree _ fun v hv => (mem_kept.mp hv).2

theorem zero_notMem_printed (data : List ℤ) : (0 : Byte) ∉ printed data := by
  intro hmem
  obtain ⟨v, hv, hbyte⟩ := List.mem_flatMap.mp hmem
  obtain ⟨-, h0, h100⟩ := mem_kept.mp hv
  exact zero_notMem_sprintf2d h0 h100 hbyte

/-! ### The buffers -/

/-- A zeroed buffer of `n` bytes that holds a string. -/
def buffer (n : ℕ) (text : List Byte) : List Byte :=
  text ++ List.replicate (n - text.length) 0

theorem cstr_buffer (n : ℕ) {text : List Byte} (htext : (0 : Byte) ∉ text) :
    cstr (buffer n text) = text := by
  rw [buffer, cstr_append_of_notMem htext, cstr_replicate_zero, List.append_nil]

/-- **A string stored behind another one** that has room for it. -/
theorem storeString_buffer {n : ℕ} {text new : List Byte} (h : text.length + new.length < n) :
    storeString (buffer n text) text.length new = buffer n (text ++ new) := by
  have hrest : n - text.length = new.length + 1 + (n - (text ++ new).length - 1) := by
    rw [List.length_append]
    omega
  have hone : n - (text ++ new).length = 1 + (n - (text ++ new).length - 1) := by
    rw [List.length_append]
    omega
  rw [storeString, buffer, List.take_left, ← List.drop_drop, ← List.drop_drop, List.drop_left,
    List.drop_drop, List.drop_replicate, buffer, hone, List.replicate_add, hrest]
  simp

/-- The state of the loop that has printed a text. -/
def ArgState.printed (text : List Byte) : ArgState :=
  ⟨text.length, buffer maxStrLen text⟩

/-- **One turn of the loop** stores three bytes and a NUL, or nothing. -/
theorem argStep_printed {text : List Byte} (h : text.length + 3 < maxStrLen) (v : ℤ) :
    (argStep (.printed text) v).result = .ok (.printed (text ++ Pageshm.printed [v])) ∧
      (argStep (.printed text) v).All Store.Inside := by
  by_cases hskip : v < 0 ∨ v ≥ 100
  · have hnone : Pageshm.printed [v] = [] := by
      have hkept : kept [v] = [] := List.filter_cons_of_neg (by simpa using by omega)
      rw [Pageshm.printed, hkept, List.flatMap_nil]
    rw [argStep, if_pos hskip, hnone, List.append_nil]
    exact ⟨rfl, Logged.all_pure _⟩
  · have h0 : 0 ≤ v := by omega
    have h100 : v < 100 := by omega
    have hlen := length_sprintf2d h0 h100
    have hone : Pageshm.printed [v] = sprintf2d v := by
      have hkept : kept [v] = [v] := List.filter_cons_of_pos (by simpa using ⟨h0, h100⟩)
      rw [Pageshm.printed, hkept, List.flatMap_singleton]
    rw [argStep, if_neg hskip, hone]
    refine ⟨?_, fun w hw => ?_⟩
    · dsimp only [ArgState.printed]
      rw [storeString_buffer (by rw [hlen]; exact h), List.length_append]
    · obtain ⟨pos, hpos, rfl⟩ := List.mem_map.mp hw
      rw [List.mem_range'_1, hlen] at hpos
      exact lt_of_lt_of_le hpos.2 (by dsimp only [ArgState.printed]; omega)

/-- A longer array is printed value by value. -/
theorem printed_cons (v : ℤ) (data : List ℤ) :
    Pageshm.printed (v :: data) = Pageshm.printed [v] ++ Pageshm.printed data := by
  rw [Pageshm.printed, ← List.singleton_append, kept, List.filter_append, List.flatMap_append]
  rfl

/-- **The loop** prints the values that are kept, as long as three bytes are left for each. -/
theorem foldlM_argStep (data : List ℤ) {text : List Byte}
    (h : text.length + 3 * data.length < maxStrLen) :
    (data.foldlM argStep (.printed text)).result = .ok (.printed (text ++ Pageshm.printed data)) ∧
      (data.foldlM argStep (.printed text)).All Store.Inside := by
  induction data generalizing text with
  | nil =>
    refine ⟨?_, Logged.all_pure _⟩
    rw [Pageshm.printed, kept, List.filter_nil, List.flatMap_nil, List.append_nil]
    rfl
  | cons v data ih =>
    rw [List.length_cons] at h
    obtain ⟨hresult, hall⟩ := argStep_printed (by omega : text.length + 3 < maxStrLen) v
    have hlen : (Pageshm.printed [v]).length ≤ 3 := by
      have hkept : (kept [v]).length ≤ 1 := List.length_filter_le _ _
      rw [length_printed]
      omega
    obtain ⟨hrest, hallrest⟩ := @ih (text ++ Pageshm.printed [v])
      (by rw [List.length_append]; omega)
    rw [List.foldlM_cons, Logged.result_bind, Logged.all_bind, hresult]
    refine ⟨?_, hall, fun st hst => ?_⟩
    · rw [ok_bind, hrest, printed_cons v data, List.append_assoc]
    · obtain rfl := Except.ok.inj hst
      exact hallrest

/-! ### The function -/

theorem cstr_tester : (0 : Byte) ∉ str "./tester " ∧ (str "./tester ").length = 9 := by decide

/-- Stores into `finstr` that end inside it. -/
theorem inside_finstr {pos n : ℕ} (h : pos + n ≤ maxStrLen + 32) :
    ∀ w ∈ (List.range' pos n).map Store.finstr, w.Inside := by
  intro w hw
  obtain ⟨k, hk, rfl⟩ := List.mem_map.mp hw
  rw [List.mem_range'_1] at hk
  exact lt_of_lt_of_le hk.2 h

/-- An array that passes the length check is printed inside the buffers. -/
theorem testData_of_lt {data : List ℤ} (hshort : data.length < maxStrLen / 3 - 1) :
    (testData data).All Store.Inside ∧
      (testData data).result = .ok (str "./tester " ++ printed data) := by
  obtain ⟨hnul, hnine⟩ := cstr_tester
  have hmax : 3 * data.length < 4090 := by
    have hbound : maxStrLen / 3 - 1 = 1364 := by decide
    omega
  have hprinted : (printed data).length ≤ 3 * data.length := by
    have hkept : (kept data).length ≤ data.length := List.length_filter_le _ _
    rw [length_printed]
    omega
  have hstart : (⟨0, List.replicate maxStrLen 0⟩ : ArgState) = .printed [] := rfl
  have hmaxStrLen : maxStrLen = 4096 := rfl
  obtain ⟨hresult, hall⟩ := @foldlM_argStep data [] (by rw [List.length_nil]; omega)
  have hargstr : cstr (ArgState.printed ([] ++ printed data)).argstr = printed data :=
    cstr_buffer maxStrLen (zero_notMem_printed data)
  have hfirst : storeString (List.replicate (maxStrLen + 32) 0) 0 (str "./tester ") =
      buffer (maxStrLen + 32) (str "./tester ") :=
    @storeString_buffer (maxStrLen + 32) [] (str "./tester ") (by
      rw [hnine, List.length_nil]; omega)
  have hsecond := @storeString_buffer (maxStrLen + 32) (str "./tester ") (printed data)
    (by rw [hnine]; omega)
  have hcmd : (0 : Byte) ∉ str "./tester " ++ printed data := fun hmem =>
    (List.mem_append.mp hmem).elim hnul (zero_notMem_printed data)
  rw [testData, if_neg (Nat.not_le_of_lt hshort), hstart, Logged.result_bind, Logged.all_bind,
    hresult, ok_bind]
  refine ⟨⟨hall, fun st hst => ?_⟩, ?_⟩
  · obtain rfl := Except.ok.inj hst
    rw [hargstr, hfirst]
    dsimp only
    rw [cstr_buffer _ hnul, Logged.all_tell_bind, Logged.all_tell_bind, hnine]
    exact ⟨inside_finstr (by omega), inside_finstr (by omega), Logged.all_pure _⟩
  · rw [hargstr, hfirst]
    dsimp only
    rw [cstr_buffer _ hnul, Logged.result_bind, Logged.result_tell, ok_bind,
      Logged.result_bind, Logged.result_tell, ok_bind, hsecond, cstr_buffer _ hcmd]
    rfl

/-- **`test_data` does not store behind its buffers**, for arrays of any length and content, and
the command line has the kept values in their order, each with a blank behind it. -/
theorem testData_fits (data : List ℤ) :
    (testData data).All Store.Inside ∧
    (testData data).result =
      if data.length ≥ maxStrLen / 3 - 1 then .error ()
      else .ok (str "./tester " ++ printed data) := by
  by_cases hlong : data.length ≥ maxStrLen / 3 - 1
  · rw [testData, if_pos hlong, if_pos hlong]
    exact ⟨Logged.all_lift _, rfl⟩
  · rw [if_neg hlong]
    exact testData_of_lt (Nat.lt_of_not_le hlong)

end TikFachpraktika.Pageshm
