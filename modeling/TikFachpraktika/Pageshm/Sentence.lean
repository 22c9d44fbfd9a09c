import TikFachpraktika.Pageshm.Progress
import TikFachpraktika.Pageshm.Tester

/-!
# The sentence

The three programs together: the producer hands its values over, the consumer puts what it has read
on the command line of the tester, and the tester prints the words that these values stand for. The
producer and the consumer both remove the shared segment; the consumer gives up when the producer
has been first.

## Main definitions

* `words`, `testerMain`: the table of `3_pageshm/tester.c` and its `main`.
* `consumerTail`: what the consumer does behind its loop.
* `RunsTester`: what the tester does with the command line of the consumer.
* `sentence`: the words of some values.

## Main results

* `runsTester_of_run`: what comes out at the end of the hand-over.
-/

namespace TikFachpraktika.Pageshm

open Posix Transition

/-- `words`. -/
def words : List (List Byte) :=
  ["equals", "keep", "play.\n", "X", "=", "work.\n", "mouth", "shut.\n\n", "Y", "Z", "is",
    "formula", "is", "+", "+", "then", "A", "Y", "Z.\n", "success,", "\n\n If", "the", "A", "is",
    "X", "is", "your"].map str

/-- How the tester ends without printing all words: with its usage message, or with a load outside
of its table. -/
inductive TesterEnd
  | usage
  | outside (idx : ℤ)
  deriving DecidableEq

/-- `printf("%s ", words[idx])`. -/
def printWord (out : List Byte) (idx : ℤ) : Except TesterEnd (List Byte) :=
  if 0 ≤ idx ∧ idx < words.length then pure (out ++ words.getD idx.toNat [] ++ [32])
  else throw (.outside idx)

/-- `main` of the tester, with what it prints. -/
def testerMain (argv : List (List Byte)) : Except TesterEnd (List Byte) :=
  match testerIndices argv with
  | none => throw .usage
  | some indices => indices.foldlM printWord []

/-- The end of `main` of the consumer, for the answers of `shmdt` and `shmctl`: the command line
that `test_data` hands to `system`, or the text of `panic`. -/
def consumerTail (shmdt shmctl : ℤ) (read : List ℤ) : Except (List Byte) (List Byte) :=
  if shmdt < 0 then throw (str "Cannot detach from segment!")
  else if shmctl < 0 then throw (str "Cannot mark segement for removal!")
  else
    match (testData read).result with
    | .ok line => pure line
    | .error _ => throw (str "No mem left!\n")

/-- The consumer has read `read` and gets these answers of `shmdt` and `shmctl`, and the tester that
it then runs through the shell ends with `out`. -/
def RunsTester (shmdt shmctl : ℤ) (read : List ℤ) (out : Except TesterEnd (List Byte)) : Prop :=
  ∃ line argv, consumerTail shmdt shmctl read = .ok line ∧
    Shell.tokens line = some (argv.map .word) ∧ testerMain argv = out

/-- The words of some values, each with a blank behind it. -/
def sentence (data : List ℤ) : List Byte :=
  data.flatMap fun v => words.getD v.toNat [] ++ [32]

/-! ### The tester -/

theorem length_words : words.length = 27 := rfl

/-- The loop of the tester prints the words of its values. -/
theorem foldlM_printWord : (vs : List ℤ) → (∀ v ∈ vs, 0 ≤ v ∧ v ≤ 26) → (out : List Byte) →
    vs.foldlM printWord out = .ok (out ++ sentence vs)
  | [], _, out => by
      rw [sentence, List.flatMap_nil, List.append_nil]
      rfl
  | v :: vs, hvs, out => by
      obtain ⟨h0, h26⟩ := hvs v List.mem_cons_self
      have hin : 0 ≤ v ∧ v < (words.length : ℤ) := ⟨h0, by rw [length_words]; omega⟩
      rw [List.foldlM_cons, printWord, if_pos hin, pure_bind,
        foldlM_printWord vs (fun u hu => hvs u (List.mem_cons_of_mem v hu)), sentence, sentence,
        List.flatMap_cons, List.append_assoc, List.append_assoc, List.append_assoc]

/-- Without the segment there is no command line. -/
theorem consumerTail_of_neg {shmdt shmctl : ℤ} (hneg : shmdt < 0 ∨ shmctl < 0) (read : List ℤ)
    (line : List Byte) : consumerTail shmdt shmctl read ≠ .ok line := by
  intro h
  rw [consumerTail] at h
  split_ifs at h with hdetach hremove
  exact absurd hneg (not_or.mpr ⟨hdetach, hremove⟩)

/-- The tester on the command line of the consumer. -/
theorem runsTester_kept {shmdt shmctl : ℤ} (hdetach : 0 ≤ shmdt) (hremove : 0 ≤ shmctl)
    {read : List ℤ} (hshort : read.length < maxStrLen / 3 - 1) :
    RunsTester shmdt shmctl read (testerMain (str "./tester" :: (kept read).map decimal)) := by
  refine ⟨_, _, ?_, tokens_testData read, rfl⟩
  rw [consumerTail, if_neg (not_lt.mpr hdetach), if_neg (not_lt.mpr hremove),
    (testData_of_lt hshort).2]
  rfl

theorem testerMain_decimal {vs : List ℤ} (hvs : ∀ v ∈ vs, 0 ≤ v ∧ v < 100) :
    testerMain (str "./tester" :: vs.map decimal) =
      if vs.length = 27 then vs.foldlM printWord [] else .error .usage := by
  rw [testerMain, testerIndices_decimal hvs]
  split_ifs with hlen
  · rfl
  · rfl

/-! ### The three programs -/

/-- **What the three programs print.** In every run in which the consumer does not load before the
first store of the producer, once the consumer has left its loop for 27 values, it runs the tester
if and only if its `shmdt` and its `shmctl` succeed. The tester then prints the sentence of the
values of the producer if they are indices of the table, in their order and nothing else. If one of
them has no place on the command line, the tester prints its usage message. -/
theorem runsTester_of_run {data : List ℤ} {v : ℤ} {s : State} (hlen : data.length = 27)
    (hdata : signal ∉ data) (hrun : Run (ofFunction (next data)) Started (start data v) s)
    (hdone : s.consumer = .done) (shmdt shmctl : ℤ) :
    ((∃ out, RunsTester shmdt shmctl s.read out) ↔ 0 ≤ shmdt ∧ 0 ≤ shmctl) ∧
      (0 ≤ shmdt → 0 ≤ shmctl →
        ((∀ u ∈ data, 0 ≤ u ∧ u ≤ 26) →
          RunsTester shmdt shmctl s.read (.ok (sentence data))) ∧
        (¬(∀ u ∈ data, 0 ≤ u ∧ u < 100) → RunsTester shmdt shmctl s.read (.error .usage))) := by
  have hread : s.read = data := (sync_of_run hdata hrun).handedOver hdone
  have hbound : maxStrLen / 3 - 1 = 1364 := by decide
  have hruns : 0 ≤ shmdt → 0 ≤ shmctl → RunsTester shmdt shmctl data
      (testerMain (str "./tester" :: (kept data).map decimal)) := fun hdetach hremove =>
    runsTester_kept hdetach hremove (by omega)
  rw [testerMain_decimal fun u hu => (mem_kept.mp hu).2] at hruns
  rw [hread]
  refine ⟨⟨?_, fun h => ⟨_, hruns h.1 h.2⟩⟩,
    fun hdetach hremove => ⟨fun hall => ?_, fun hnot => ?_⟩⟩
  · rintro ⟨out, line, argv, hline, -, -⟩
    by_contra hneg
    exact consumerTail_of_neg (by omega) data line hline
  · replace hruns := hruns hdetach hremove
    have hkept : kept data = data := List.filter_eq_self.mpr fun u hu =>
      decide_eq_true ⟨(hall u hu).1, by have hle := (hall u hu).2; omega⟩
    rwa [hkept, if_pos hlen, foldlM_printWord data hall, List.nil_append] at hruns
  · replace hruns := hruns hdetach hremove
    have hcount : (kept data).length ≠ 27 := fun heq =>
      hnot ((length_kept_eq_iff data).mp (heq.trans hlen.symm))
    rwa [if_neg hcount] at hruns

/-- `data` of the producer. -/
def producerData : List ℤ :=
  [20, 16, 0, 19, 15, 21, 11, 10, 22, 4, 24, 13, 17, 14, 18, 3, 12, 5, 8, 23, 2, 9, 25, 1, 26, 6, 7]

/-- The producer and the consumer take turns. The tester runs if the consumer still finds the
segment, and not if the producer has removed it. -/
theorem runsTester_of_run_producerData : ∃ k,
    RunsTester 0 0 (stateAt (next producerData) (start producerData 0) turns k).read
      (.ok (sentence producerData)) ∧
    ∀ out, ¬RunsTester 0 (-1) (stateAt (next producerData) (start producerData 0) turns k).read
      out := by
  have hstarted := @started_of_first producerData 0 turns rfl
  obtain ⟨k, hdone⟩ := exists_stateAt_done (by decide) fair_turns hstarted
  have hruns := runsTester_of_run rfl (by decide) (run_stateAt hstarted k) hdone.2
  refine ⟨k, ((hruns 0 0).2 le_rfl le_rfl).1 (by decide), fun out hout => ?_⟩
  obtain ⟨-, hremove⟩ := (hruns 0 (-1)).1.mp ⟨out, hout⟩
  exact absurd hremove (by decide)

example : sentence producerData = str ("\n\n If A equals success, then the formula is A = X + Y " ++
    "+ Z.\n X is work.\n Y is play.\n Z is keep your mouth shut.\n\n ") := by decide +kernel

end TikFachpraktika.Pageshm
