import Mathlib.Data.ENat.Basic
import Mathlib.Order.Bounds.Basic
import Mathlib.Data.Set.Finite.Lattice
import TikFachpraktika.Chat.Common

/-!
# Writing a whole buffer

The loop of `write_exact` of `6_network/chat-common.c` with its three counters: how far `buf` has
been moved, `len` and `num`. What it does is decided by the answers of `write`: it returns when
their counts add up to the length of the buffer, or when a count is 0 before that.

## Main definitions

* `WriteVars.loop`: the loop with its counters.
* `offered`: how many bytes some answers of `write` are ready to take.
* `Succeeds`, `Refused`: answers that add up to a length, and such that come to a 0 before.
* `Returns`: what `write_exact` returns and writes, for an infinite sequence of answers.

## Main results

* `WriteVars.loop_eq`: the counters advance together.
* `writeExact_of_succeeds`, `exists_writeExact_of_refused`, `writeExact_eq_none_iff`: the three
  outcomes of the loop.
* `returns_iff`: when it ends.
* `returns_whole_buffer`: what it has written then.
-/

namespace TikFachpraktika.Chat

open Posix

/-! ### The counters -/

/-- The variables of `write_exact`: how far `buf` has been moved, `len` and `num`. -/
structure WriteVars where
  pos : ℕ
  len : ℕ
  num : ℕ

/-- The variables before the loop. -/
def WriteVars.start (len : ℕ) : WriteVars where
  pos := 0
  len := len
  num := 0

/-- The loop of `write_exact` on a buffer in the memory `mem`: the returned value and the bytes
that the descriptor takes; `none` when it does not end with these answers of `write`. -/
def WriteVars.loop (mem : List Byte) : List WriteAnswer → WriteVars → Option (ℕ × List Byte)
  | [], v => if v.len > 0 then none else some (v.num, [])
  | answer :: answers, v =>
    if v.len > 0 then
      match answer.count v.len with
      | none => loop mem answers v
      | some written =>
        if written = 0 then some (0, [])
        else
          (loop mem answers ⟨v.pos + written, v.len - written, v.num + written⟩).map
            fun (ret, out) => (ret, (mem.drop v.pos).take written ++ out)
    else some (v.num, [])

theorem WriteAnswer.count_le {len written : ℕ} {answer : WriteAnswer}
    (h : answer.count len = some written) : written ≤ len := by
  cases answer with
  | error => cases h
  | written n =>
    cases h
    exact Nat.min_le_right n len
  | full =>
    cases h
    exact le_rfl

/-- **The counters advance together**: `len` bytes are left behind `buf`, and `num` counts those
before it. -/
theorem WriteVars.loop_eq (mem : List Byte) : (answers : List WriteAnswer) → (v : WriteVars) →
    v.len = (mem.drop v.pos).length →
    WriteVars.loop mem answers v = writeExact answers (mem.drop v.pos) v.num
  | answers, v, h => by
      cases hrest : mem.drop v.pos with
      | nil =>
        have hlen : ¬v.len > 0 := by
          rw [h, hrest]
          exact Nat.lt_irrefl 0
        cases answers <;> rw [WriteVars.loop, if_neg hlen, writeExact]
      | cons b rest =>
        rw [hrest] at h
        have hlen : v.len > 0 := by
          rw [h]
          exact Nat.succ_pos _
        cases answers with
        | nil => rw [WriteVars.loop, if_pos hlen, writeExact]
        | cons answer answers =>
          rw [WriteVars.loop, if_pos hlen, writeExact, h]
          cases hcount : answer.count (b :: rest).length with
          | none =>
            dsimp only
            rw [← hrest]
            exact WriteVars.loop_eq mem answers v (by rw [h, hrest])
          | some written =>
            dsimp only
            have hle := WriteAnswer.count_le hcount
            have hdrop : mem.drop (v.pos + written) = (b :: rest).drop written := by
              rw [← List.drop_drop, hrest]
            rw [WriteVars.loop_eq mem answers, hdrop, hrest]
            rw [hdrop, List.length_drop]

theorem WriteVars.loop_start (answers : List WriteAnswer) (buf : List Byte) :
    WriteVars.loop buf answers (.start buf.length) = writeExact answers buf 0 :=
  WriteVars.loop_eq buf answers (.start buf.length) rfl

/-! ### What the answers offer -/

/-- How many bytes an answer is ready to take. -/
def WriteAnswer.offer : WriteAnswer → ℕ∞
  | .error => 0
  | .written n => n
  | .full => ⊤

/-- How many bytes some answers are ready to take together. -/
def offered (answers : List WriteAnswer) : ℕ∞ :=
  (answers.map WriteAnswer.offer).sum

/-- Answers that take `len` bytes, with no 0 among them. -/
def Succeeds (answers : List WriteAnswer) (len : ℕ) : Prop :=
  ∃ pre, pre <+: answers ∧ .written 0 ∉ pre ∧ len ≤ offered pre

/-- Answers that come to a 0 before `len` bytes are taken. -/
def Refused (answers : List WriteAnswer) (len : ℕ) : Prop :=
  ∃ pre, pre ++ [.written 0] <+: answers ∧ offered pre < len

/-- Answers with which `write_exact` returns. -/
def Settles (answers : List WriteAnswer) (len : ℕ) : Prop :=
  Succeeds answers len ∨ Refused answers len

theorem offered_cons (answer : WriteAnswer) (answers : List WriteAnswer) :
    offered (answer :: answers) = answer.offer + offered answers := by
  rw [offered, List.map_cons, List.sum_cons, offered]

theorem offered_append (pre answers : List WriteAnswer) :
    offered (pre ++ answers) = offered pre + offered answers := by
  rw [offered, List.map_append, List.sum_append, offered, offered]

theorem succeeds_full (answers : List WriteAnswer) (len : ℕ) : Succeeds (.full :: answers) len := by
  refine ⟨[.full], ⟨answers, rfl⟩, by simp, ?_⟩
  rw [offered_cons, WriteAnswer.offer, top_add]
  exact le_top

theorem refused_written_zero (answers : List WriteAnswer) (len : ℕ) :
    Refused (.written 0 :: answers) (len + 1) := by
  refine ⟨[], ⟨answers, rfl⟩, ?_⟩
  show (0 : ℕ∞) < _
  exact_mod_cast Nat.succ_pos len

/-- Answers that take a number of bytes take fewer as well. -/
theorem Succeeds.mono {answers : List WriteAnswer} {m n : ℕ} (h : Succeeds answers n)
    (hle : m ≤ n) : Succeeds answers m := by
  obtain ⟨pre, hpre, hzero, hoffered⟩ := h
  exact ⟨pre, hpre, hzero, (Nat.cast_le.mpr hle).trans hoffered⟩

/-- What is left to take after a count. -/
theorem le_offered_written_iff (len n : ℕ) (answers : List WriteAnswer) :
    (len : ℕ∞) ≤ offered (.written n :: answers) ↔ ((len - n : ℕ) : ℕ∞) ≤ offered answers := by
  rw [offered_cons, ENat.natCast_sub, tsub_le_iff_left]
  rfl

/-! ### The outcomes of the loop -/

section Loop

variable {buf : List Byte} {num : ℕ} {answers : List WriteAnswer}

theorem writeExact_nil (answers : List WriteAnswer) (num : ℕ) :
    writeExact answers [] num = some (num, []) := by
  cases answers <;> rfl

/-- A positive count. -/
theorem writeExact_written {n : ℕ} (hn : n ≠ 0) (hbuf : buf ≠ []) :
    writeExact (.written n :: answers) buf num =
      (writeExact answers (buf.drop n) (num + min n buf.length)).map
        fun (ret, out) => (ret, buf.take n ++ out) := by
  cases buf with
  | nil => exact absurd rfl hbuf
  | cons b buf =>
    have hmin : min n (b :: buf).length ≠ 0 := by
      rw [List.length_cons]
      omega
    have hdrop : (b :: buf).drop (min n (b :: buf).length) = (b :: buf).drop n := by
      rcases le_total n (b :: buf).length with hle | hle
      · rw [Nat.min_eq_left hle]
      · rw [Nat.min_eq_right hle, List.drop_length, List.drop_of_length_le hle]
    have htake : (b :: buf).take (min n (b :: buf).length) = (b :: buf).take n :=
      List.take_eq_take_min.symm
    rw [writeExact, WriteAnswer.count]
    dsimp only
    rw [if_neg hmin, hdrop, htake]

theorem writeExact_full_cons (hbuf : buf ≠ []) :
    writeExact (.full :: answers) buf num = some (num + buf.length, buf) := by
  cases buf with
  | nil => exact absurd rfl hbuf
  | cons b buf =>
    rw [writeExact, WriteAnswer.count]
    dsimp only
    rw [if_neg (by simp), List.drop_length, List.take_length, writeExact_nil, Option.map_some,
      List.append_nil]

/-- **The counts add up**: the whole buffer is written. -/
theorem writeExact_append_of_le : (pre : List WriteAnswer) → (buf : List Byte) → (num : ℕ) →
    .written 0 ∉ pre → (buf.length : ℕ∞) ≤ offered pre →
    writeExact (pre ++ answers) buf num = some (num + buf.length, buf)
  | pre, [], num, _, _ => writeExact_nil _ _
  | [], b :: buf, num, _, h => by
      have hzero : ((b :: buf).length : ℕ∞) = 0 := nonpos_iff_eq_zero.mp h
      simp at hzero
  | .error :: pre, b :: buf, num, hpre, h => by
      rw [offered_cons, WriteAnswer.offer, zero_add] at h
      exact writeExact_append_of_le pre (b :: buf) num
        (fun hmem => hpre (List.mem_cons_of_mem _ hmem)) h
  | .full :: pre, b :: buf, num, _, _ => writeExact_full_cons (List.cons_ne_nil _ _)
  | .written n :: pre, b :: buf, num, hpre, h => by
      have hn : n ≠ 0 := by
        rintro rfl
        exact hpre List.mem_cons_self
      have hrest : (((b :: buf).drop n).length : ℕ∞) ≤ offered pre := by
        rw [List.length_drop]
        exact (le_offered_written_iff _ _ _).mp h
      rw [List.cons_append, writeExact_written hn (List.cons_ne_nil _ _),
        writeExact_append_of_le pre _ _ (fun hmem => hpre (List.mem_cons_of_mem _ hmem)) hrest,
        Option.map_some]
      dsimp only
      rw [List.length_drop, List.take_append_drop]
      exact congrArg some (Prod.ext (by dsimp only; omega) rfl)

/-- **A count of 0** before the end: a proper part of the buffer is written. -/
theorem exists_writeExact_append_of_lt : (pre : List WriteAnswer) → (buf : List Byte) →
    (num : ℕ) → offered pre < buf.length →
    ∃ out, writeExact (pre ++ .written 0 :: answers) buf num = some (0, out) ∧
      out <+: buf ∧ out ≠ buf
  | pre, [], num, h => absurd h (not_lt.mpr zero_le)
  | [], b :: buf, num, _ => by
      refine ⟨[], ?_, List.nil_prefix, (List.cons_ne_nil _ _).symm⟩
      rw [List.nil_append, writeExact, WriteAnswer.count, Nat.zero_min]
      rfl
  | .error :: pre, b :: buf, num, h => by
      rw [offered_cons, WriteAnswer.offer, zero_add] at h
      exact exists_writeExact_append_of_lt pre (b :: buf) num h
  | .full :: pre, b :: buf, num, h => by
      rw [offered_cons, WriteAnswer.offer, top_add] at h
      exact absurd h not_top_lt
  | .written 0 :: pre, b :: buf, num, _ => by
      refine ⟨[], ?_, List.nil_prefix, (List.cons_ne_nil _ _).symm⟩
      rw [List.cons_append, writeExact, WriteAnswer.count, Nat.zero_min]
      rfl
  | .written (n + 1) :: pre, b :: buf, num, h => by
      have hrest : offered pre < ((b :: buf).drop (n + 1)).length := by
        rw [List.length_drop, ← not_le]
        exact fun hle => not_le.mpr h ((le_offered_written_iff _ _ _).mpr hle)
      obtain ⟨out, hout, hpre, hne⟩ := exists_writeExact_append_of_lt pre
        ((b :: buf).drop (n + 1)) (num + min (n + 1) (b :: buf).length) hrest
      have hsplit := List.take_append_drop (n + 1) (b :: buf)
      refine ⟨(b :: buf).take (n + 1) ++ out, ?_, ?_, fun heq => hne ?_⟩
      · rw [List.cons_append, writeExact_written (Nat.succ_ne_zero n) (List.cons_ne_nil _ _), hout,
          Option.map_some]
      · conv_rhs => rw [← hsplit]
        exact (List.prefix_append_right_inj _).mpr hpre
      · exact List.append_cancel_left (heq.trans hsplit.symm)

/-- **The counts do not add up**: the loop goes on. -/
theorem writeExact_eq_none_of_lt : (answers : List WriteAnswer) → (buf : List Byte) → (num : ℕ) →
    .written 0 ∉ answers → offered answers < buf.length → writeExact answers buf num = none
  | answers, [], num, _, h => absurd h (not_lt.mpr zero_le)
  | [], b :: buf, num, _, _ => rfl
  | .error :: answers, b :: buf, num, hzero, h => by
      rw [offered_cons, WriteAnswer.offer, zero_add] at h
      exact writeExact_eq_none_of_lt answers (b :: buf) num
        (fun hmem => hzero (List.mem_cons_of_mem _ hmem)) h
  | .full :: answers, b :: buf, num, _, h => by
      rw [offered_cons, WriteAnswer.offer, top_add] at h
      exact absurd h not_top_lt
  | .written n :: answers, b :: buf, num, hzero, h => by
      have hn : n ≠ 0 := by
        rintro rfl
        exact hzero List.mem_cons_self
      have hrest : offered answers < ((b :: buf).drop n).length := by
        rw [List.length_drop, ← not_le]
        exact fun hle => not_le.mpr h ((le_offered_written_iff _ _ _).mpr hle)
      rw [writeExact_written hn (List.cons_ne_nil _ _), writeExact_eq_none_of_lt answers _ _
        (fun hmem => hzero (List.mem_cons_of_mem _ hmem)) hrest, Option.map_none]

/-- Answers that add up to the length write the whole buffer. -/
theorem writeExact_of_succeeds (h : Succeeds answers buf.length) :
    writeExact answers buf num = some (num + buf.length, buf) := by
  obtain ⟨pre, ⟨rest, rfl⟩, hzero, hle⟩ := h
  exact writeExact_append_of_le pre buf num hzero hle

/-- Answers that come to a 0 before write a proper part of it. -/
theorem exists_writeExact_of_refused (num : ℕ) (h : Refused answers buf.length) :
    ∃ out, writeExact answers buf num = some (0, out) ∧ out <+: buf ∧ out ≠ buf := by
  obtain ⟨pre, ⟨rest, rfl⟩, hlt⟩ := h
  rw [List.append_assoc, List.singleton_append]
  exact exists_writeExact_append_of_lt pre buf num hlt

/-- Every list of answers adds up to the length, comes to a 0 before, or leaves the loop going. -/
theorem writeExact_cases (answers : List WriteAnswer) (buf : List Byte) (num : ℕ) :
    Succeeds answers buf.length ∨ Refused answers buf.length ∨
      (.written 0 ∉ answers ∧ offered answers < buf.length ∧
        writeExact answers buf num = none) := by
  by_cases hzero : .written 0 ∈ answers
  · obtain ⟨pre, rest, rfl, hpre⟩ := List.eq_append_cons_of_mem hzero
    -- the counts before the first 0 either add up or do not
    rcases lt_or_ge (offered pre) buf.length with hlt | hle
    · exact .inr (.inl ⟨pre, ⟨rest, by simp⟩, hlt⟩)
    · exact .inl ⟨pre, List.prefix_append _ _, hpre, hle⟩
  · rcases lt_or_ge (offered answers) buf.length with hlt | hle
    · exact .inr (.inr ⟨hzero, hlt, writeExact_eq_none_of_lt answers buf num hzero hlt⟩)
    · exact .inl ⟨answers, List.prefix_rfl, hzero, hle⟩

/-- The answers do not settle a loop that goes on. -/
theorem not_settles_of_writeExact_eq_none (h : writeExact answers buf num = none) :
    ¬Settles answers buf.length := by
  rintro (hsucceeds | hrefused)
  · rw [writeExact_of_succeeds hsucceeds] at h
    cases h
  · obtain ⟨out, hout, -⟩ := exists_writeExact_of_refused num hrefused
    rw [hout] at h
    cases h

/-- **The loop does not end** with answers that have no 0 and do not add up to the length. -/
theorem writeExact_eq_none_iff :
    writeExact answers buf num = none ↔
      .written 0 ∉ answers ∧ offered answers < buf.length := by
  refine ⟨fun hnone => ?_, fun h => writeExact_eq_none_of_lt answers buf num h.1 h.2⟩
  have hnot := not_settles_of_writeExact_eq_none hnone
  obtain hsucceeds | hrefused | ⟨hzero, hlt, -⟩ := writeExact_cases answers buf num
  · exact absurd (.inl hsucceeds) hnot
  · exact absurd (.inr hrefused) hnot
  · exact ⟨hzero, hlt⟩

/-- A buffer is not both written as a whole and refused. -/
theorem Refused.not_succeeds {len : ℕ} (h : Refused answers len) (hlen : len ≠ 0) :
    ¬Succeeds answers len := by
  intro hsucceeds
  have hbuf : (List.replicate len (0 : Byte)).length = len := List.length_replicate
  obtain ⟨out, hout, -⟩ := exists_writeExact_of_refused 0 (hbuf.symm ▸ h)
  rw [writeExact_of_succeeds (hbuf.symm ▸ hsucceeds), hbuf, Nat.zero_add] at hout
  exact hlen (congrArg Prod.fst (Option.some.inj hout))

end Loop

/-! ### Infinite sequences of answers -/

/-- The first `n` answers of a sequence. -/
def firstAnswers (answers : ℕ → WriteAnswer) (n : ℕ) : List WriteAnswer :=
  (List.range n).map answers

/-- With these answers of `write`, `write_exact` returns `ret` after finitely many calls, and `out`
are the bytes that the descriptor has taken. -/
def Returns (answers : ℕ → WriteAnswer) (buf : List Byte) (ret : ℕ) (out : List Byte) : Prop :=
  ∃ n, WriteVars.loop buf (firstAnswers answers n) (.start buf.length) = some (ret, out)

section Returns

variable {answers : ℕ → WriteAnswer} {buf : List Byte}

theorem firstAnswers_succ (answers : ℕ → WriteAnswer) (n : ℕ) :
    firstAnswers answers (n + 1) = firstAnswers answers n ++ [answers n] := by
  rw [firstAnswers, List.range_succ, List.map_append, List.map_singleton, firstAnswers]

theorem written_zero_mem_firstAnswers {n : ℕ} :
    .written 0 ∈ firstAnswers answers n ↔ ∃ k < n, answers k = .written 0 := by
  simp [firstAnswers]

/-- **When `write_exact` ends**: one of the calls of `write` returns 0, or the counts add up to
the length of the buffer. -/
theorem returns_iff (answers : ℕ → WriteAnswer) (buf : List Byte) :
    (∃ ret out, Returns answers buf ret out) ↔
      (∃ k, answers k = .written 0) ∨
        ∃ n, (buf.length : ℕ∞) ≤ offered (firstAnswers answers n) := by
  have hends : ∀ n, (∃ ret out, WriteVars.loop buf (firstAnswers answers n) (.start buf.length) =
      some (ret, out)) ↔
        (∃ k < n, answers k = .written 0) ∨
          (buf.length : ℕ∞) ≤ offered (firstAnswers answers n) := by
    intro n
    rw [WriteVars.loop_start, ← Prod.exists', ← Option.ne_none_iff_exists', ne_eq,
      writeExact_eq_none_iff, written_zero_mem_firstAnswers, not_and_or, not_not, not_lt]
  constructor
  · rintro ⟨ret, out, n, hn⟩
    rcases (hends n).mp ⟨ret, out, hn⟩ with ⟨k, -, hk⟩ | hle
    · exact .inl ⟨k, hk⟩
    · exact .inr ⟨n, hle⟩
  · rintro (⟨k, hk⟩ | ⟨n, hle⟩)
    · obtain ⟨ret, out, hret⟩ := (hends (k + 1)).mpr (.inl ⟨k, Nat.lt_succ_self k, hk⟩)
      exact ⟨ret, out, k + 1, hret⟩
    · obtain ⟨ret, out, hret⟩ := (hends n).mpr (.inr hle)
      exact ⟨ret, out, n, hret⟩

/-- **`write_exact` need not end**: every call of `write` can fail. -/
theorem not_forall_returns :
    ¬∀ (answers : ℕ → WriteAnswer) (buf : List Byte), 1 ≤ buf.length →
      ∃ ret out, Returns answers buf ret out := by
  intro hall
  obtain ⟨ret, out, n, hn⟩ := hall (fun _ => .error) [0] le_rfl
  have hoffered : ∀ n, offered (firstAnswers (fun _ => .error) n) = 0 := by
    intro n
    induction n with
    | zero => rfl
    | succ n ih => rw [firstAnswers_succ, offered_append, ih]; rfl
  rw [WriteVars.loop_start, writeExact_eq_none_iff.mpr ⟨?_, ?_⟩] at hn
  · cases hn
  · rw [written_zero_mem_firstAnswers]
    rintro ⟨k, -, hk⟩
    cases hk
  · rw [hoffered]
    exact zero_lt_one

/-! ### The bytes that are written -/

/-- Later answers do not matter after the return. -/
theorem writeExact_append {ret : ℕ} {out : List Byte} (more : List WriteAnswer) :
    (answers : List WriteAnswer) → (buf : List Byte) → (num : ℕ) →
    writeExact answers buf num = some (ret, out) →
    writeExact (answers ++ more) buf num = some (ret, out)
  | answers, [], num, h => by
      rw [writeExact_nil] at h ⊢
      exact h
  | [], b :: buf, num, h => by cases h
  | answer :: answers, b :: buf, num, h => by
      rw [writeExact] at h
      rw [List.cons_append, writeExact]
      cases hcount : answer.count (b :: buf).length with
      | none =>
        rw [hcount] at h
        exact writeExact_append more answers _ _ h
      | some written =>
        rw [hcount] at h
        dsimp only at h ⊢
        split_ifs at h ⊢ with hzero
        · exact h
        · obtain ⟨⟨ret', out'⟩, hrest, hout⟩ := Option.map_eq_some_iff.mp h
          rw [writeExact_append more answers _ _ hrest, Option.map_some, hout]

theorem exists_firstAnswers_append (answers : ℕ → WriteAnswer) (n d : ℕ) :
    ∃ more, firstAnswers answers (n + d) = firstAnswers answers n ++ more := by
  induction d with
  | zero => exact ⟨[], (List.append_nil _).symm⟩
  | succ d ih =>
    obtain ⟨more, hmore⟩ := ih
    exact ⟨more ++ [answers (n + d)], by
      rw [← Nat.add_assoc, firstAnswers_succ, hmore, List.append_assoc]⟩

/-- `write_exact` returns one value and writes one string of bytes. -/
theorem Returns.unique {ret ret' : ℕ} {out out' : List Byte} (h : Returns answers buf ret out)
    (h' : Returns answers buf ret' out') : ret = ret' ∧ out = out' := by
  obtain ⟨n, hn⟩ := h
  obtain ⟨n', hn'⟩ := h'
  rw [WriteVars.loop_start] at hn hn'
  obtain ⟨more, hmore⟩ := exists_firstAnswers_append answers n n'
  obtain ⟨more', hmore'⟩ := exists_firstAnswers_append answers n' n
  have hlong := writeExact_append more _ _ _ hn
  have hlong' := writeExact_append more' _ _ _ hn'
  rw [← hmore] at hlong
  rw [← hmore', Nat.add_comm, hlong] at hlong'
  cases hlong'
  exact ⟨rfl, rfl⟩

/-- Counts that are positive but for finitely many errors add up to every length. -/
theorem exists_le_offered (hzero : ∀ k, answers k ≠ .written 0)
    (herror : {k | answers k = .error}.Finite) (len : ℕ) :
    ∃ n, (len : ℕ∞) ≤ offered (firstAnswers answers n) := by
  obtain ⟨last, hlast⟩ := herror.bddAbove
  have hoffer : ∀ k > last, 1 ≤ (answers k).offer := by
    intro k hk
    cases hanswer : answers k with
    | error => exact absurd (hlast hanswer) (Nat.not_le.mpr hk)
    | written n =>
      have hn : n ≠ 0 := by
        rintro rfl
        exact hzero k hanswer
      rw [WriteAnswer.offer]
      exact_mod_cast Nat.one_le_iff_ne_zero.mpr hn
    | full => exact le_top
  refine ⟨last + 1 + len, ?_⟩
  induction len with
  | zero => exact zero_le
  | succ len ih =>
    rw [← Nat.add_assoc, firstAnswers_succ, offered_append, Nat.cast_succ]
    refine add_le_add ih ?_
    rw [offered, List.map_singleton, List.sum_singleton]
    exact hoffer _ (by omega)

/-- **`write_exact` sends every byte once.** If no call of `write` returns 0 and finitely many
fail, it returns the length of the buffer, and the descriptor has taken exactly the buffer; if a
call returns 0 before the end, it returns 0, and the descriptor has taken a proper prefix of the
buffer. -/
theorem returns_whole_buffer (answers : ℕ → WriteAnswer) (buf : List Byte) :
    ((∀ k, answers k ≠ .written 0) → {k | answers k = .error}.Finite →
      ∀ ret out, Returns answers buf ret out ↔ ret = buf.length ∧ out = buf) ∧
    ∀ k, answers k = .written 0 → offered (firstAnswers answers k) < buf.length →
      ∃ taken, taken <+: buf ∧ taken ≠ buf ∧
        ∀ ret out, Returns answers buf ret out ↔ ret = 0 ∧ out = taken := by
  have hiff : ∀ {ret' out'}, Returns answers buf ret' out' →
      ∀ ret out, Returns answers buf ret out ↔ ret = ret' ∧ out = out' := by
    intro ret' out' h ret out
    constructor
    · exact fun h' => h'.unique h
    · rintro ⟨rfl, rfl⟩
      exact h
  constructor
  · intro hzero herror
    obtain ⟨n, hle⟩ := exists_le_offered hzero herror buf.length
    have hmem : .written 0 ∉ firstAnswers answers n := by
      rw [written_zero_mem_firstAnswers]
      rintro ⟨k, -, hk⟩
      exact hzero k hk
    refine hiff ⟨n, ?_⟩
    rw [WriteVars.loop_start, writeExact_of_succeeds ⟨_, List.prefix_rfl, hmem, hle⟩, Nat.zero_add]
  · intro k hk hlt
    have hrefused : Refused (firstAnswers answers (k + 1)) buf.length := by
      refine ⟨firstAnswers answers k, ?_, hlt⟩
      rw [firstAnswers_succ, hk]
    obtain ⟨taken, htaken, hpre, hne⟩ := exists_writeExact_of_refused 0 hrefused
    exact ⟨taken, hpre, hne, hiff ⟨k + 1, by rw [WriteVars.loop_start, htaken]⟩⟩

/-- Three bytes, written one at a time after an error. -/
theorem returns_whole_buffer_three :
    Returns (fun k => if k = 0 then .error else .written 1) [97, 98, 99] 3 [97, 98, 99] := by
  refine (((returns_whole_buffer _ [97, 98, 99]).1 (fun k => ?_) ?_) _ _).mpr ⟨rfl, rfl⟩
  · split_ifs <;> simp
  · refine (Set.finite_singleton 0).subset fun k hk => ?_
    by_contra hne
    have hk' : (if k = 0 then WriteAnswer.error else .written 1) = .error := hk
    split_ifs at hk' with h0
    exact hne h0

end Returns

end TikFachpraktika.Chat
