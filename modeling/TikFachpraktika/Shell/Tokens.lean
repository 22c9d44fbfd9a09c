import TikFachpraktika.Posix.Bytes

/-!
# How a shell takes a command line apart

The token recognition of the POSIX shell. Unquoted blanks separate words, a backslash and quotes
take the meaning from the characters that they protect, and other characters are special: they are
operators or begin an expansion. In double quotes `$` and the backquote are special as well. What
comes after the begin of an expansion is not analysed as such.

## Main definitions

* `Token`, `Scanner`, `tokens`: the tokens of a command line.
* `IsTerminator`, `IsData`: the end of a command, and a command line of words up to it.
* `Interpreter`: what is assumed of the programs that a shell runs.

## Main results

* `tokens_word_append`: a word before a command line.
* `Interpreter.programs_of_isData`: a program with arguments.
-/

namespace TikFachpraktika.Shell

open Posix

/-- A word without its quotes, or a special character. -/
inductive Token
  | word (text : List Byte)
  | special (c : Byte)
  deriving DecidableEq

/-- What the next character is taken for: behind a backslash, in single or double quotes, behind a
backslash in double quotes, and in a comment. -/
inductive Mode
  | plain
  | escape
  | single
  | double
  | doubleEscape
  | comment
  deriving DecidableEq

/-- The scanner with the word that it is in, and the tokens before. -/
@[ext]
structure Scanner where
  mode : Mode
  word : Option (List Byte)
  tokens : List Token
  deriving DecidableEq

/-- The blank and the tabulator. -/
def blanks : List Byte := [32, 9]

/-- The operators `;`, `&`, `|`, newline, `<`, `>`, `(` and `)`, and `$` and the backquote. -/
def specials : List Byte := [59, 38, 124, 10, 60, 62, 40, 41, 36, 96]

namespace Scanner

/-- The begin of a command line. -/
def start : Scanner := ⟨.plain, none, []⟩

variable (s : Scanner)

/-- A character of the word. -/
def push (c : Byte) : Scanner :=
  { s with word := some (s.word.getD [] ++ [c]) }

/-- The end of the word, if there is one. -/
def close : Scanner :=
  { s with word := none, tokens := s.tokens ++ (s.word.map Token.word).toList }

/-- A special character, which ends the word. -/
def emit (c : Byte) : Scanner :=
  { s with word := none, tokens := s.tokens ++ (s.word.map Token.word).toList ++ [.special c] }

/-- One character. -/
def step (c : Byte) : Scanner :=
  match s.mode with
  | .plain =>
    if c = 92 then { s with mode := .escape }
    else if c = 39 then { s with mode := .single, word := some (s.word.getD []) }
    else if c = 34 then { s with mode := .double, word := some (s.word.getD []) }
    else if c = 35 then
      match s.word with
      | none => { s with mode := .comment }
      | some _ => s.push c
    else if c ∈ blanks then s.close
    else if c ∈ specials then s.emit c
    else s.push c
  | .escape =>
    -- a backslash and a newline are taken away
    if c = 10 then { s with mode := .plain } else { s.push c with mode := .plain }
  | .single => if c = 39 then { s with mode := .plain } else s.push c
  | .double =>
    if c = 34 then { s with mode := .plain }
    else if c = 92 then { s with mode := .doubleEscape }
    else if c = 36 ∨ c = 96 then { s.emit c with word := some [] }
    else s.push c
  | .doubleEscape =>
    if c = 10 then { s with mode := .double }
    else if c ∈ ([36, 96, 34, 92] : List Byte) then { s.push c with mode := .double }
    else { (s.push 92).push c with mode := .double }
  | .comment => if c = 10 then { s.emit c with mode := .plain } else s

/-- The tokens at the end of a command line, if all quotes are closed. A backslash at the end
stands for itself. -/
def finish : Option (List Token) :=
  match s.mode with
  | .plain => some s.close.tokens
  | .comment => some s.close.tokens
  | .escape => some (s.push 92).close.tokens
  | .single => none
  | .double => none
  | .doubleEscape => none

/-- The scanner after a text. -/
def scan (text : List Byte) : Scanner :=
  text.foldl step s

/-- The scanner with further tokens before. -/
def behind (ts : List Token) : Scanner :=
  { s with tokens := ts ++ s.tokens }

end Scanner

/-- The tokens of a command line, if all quotes are closed. -/
def tokens (line : List Byte) : Option (List Token) :=
  (Scanner.start.scan line).finish

/-- The operators that may end the last command of a line: newline, `;` and `&`. -/
def terminators : List Byte := [10, 59, 38]

/-- The operators behind which another command may follow, which is run next: newline and `;`. -/
def separators : List Byte := [10, 59]

/-- What may stand behind the last command of a line: nothing, or a newline, `;` or `&` and then
newlines. -/
inductive IsTerminator : List Token → Prop
  | none : IsTerminator []
  | some {c : Byte} (hc : c ∈ terminators) (n : ℕ) :
      IsTerminator (.special c :: List.replicate n (.special 10))

/-- A command line of words only, up to the end of the command: every special character in it is
protected, and all quotes are closed. -/
def IsData (line : List Byte) : Prop :=
  ∃ (ws : List (List Byte)) (ts : List Token), IsTerminator ts ∧
    tokens line = some (ws.map .word ++ ts)

/-- A character without any meaning to the shell. -/
def IsOrdinary (c : Byte) : Prop :=
  c ∉ blanks ∧ c ∉ specials ∧ c ≠ 92 ∧ c ≠ 39 ∧ c ≠ 34 ∧ c ≠ 35

instance (c : Byte) : Decidable (IsOrdinary c) :=
  inferInstanceAs (Decidable (_ ∧ _))

/-! ### The scanner -/

namespace Scanner

variable (s : Scanner)

/-- **The tokens before** are left alone. -/
theorem step_behind (ts : List Token) (c : Byte) :
    (s.behind ts).step c = (s.step c).behind ts := by
  obtain ⟨mode, word, toks⟩ := s
  cases mode with
  | plain =>
    simp only [step, behind, close, emit, push]
    cases word <;> split_ifs <;> simp only [List.append_assoc]
  | escape =>
    simp only [step, behind, push]
    split_ifs <;> rfl
  | single =>
    simp only [step, behind, push]
    split_ifs <;> rfl
  | double =>
    simp only [step, behind, emit, push]
    split_ifs <;> simp only [List.append_assoc]
  | doubleEscape =>
    simp only [step, behind, push]
    split_ifs <;> rfl
  | comment =>
    simp only [step, behind, emit]
    split_ifs <;> simp only [List.append_assoc]

theorem scan_behind (ts : List Token) (text : List Byte) :
    (s.behind ts).scan text = (s.scan text).behind ts := by
  induction text generalizing s with
  | nil => rfl
  | cons c text ih =>
    rw [scan, List.foldl_cons, step_behind]
    exact ih (s.step c)

theorem finish_behind (ts : List Token) :
    (s.behind ts).finish = s.finish.map (ts ++ ·) := by
  obtain ⟨mode, word, toks⟩ := s
  cases mode <;> simp [finish, behind, close, push]

theorem scan_append (text rest : List Byte) : s.scan (text ++ rest) = (s.scan text).scan rest :=
  List.foldl_append

/-- A character without meaning is one of the word. -/
theorem step_of_isOrdinary (hs : s.mode = .plain) {c : Byte} (hc : IsOrdinary c) :
    s.step c = s.push c := by
  obtain ⟨hblank, hspecial, h92, h39, h34, h35⟩ := hc
  rw [step, hs]
  simp [hblank, hspecial, h92, h39, h34, h35]

theorem scan_of_isOrdinary (hs : s.mode = .plain) {text : List Byte}
    (htext : ∀ c ∈ text, IsOrdinary c) (hne : text ≠ []) :
    s.scan text = { s with word := some (s.word.getD [] ++ text) } := by
  induction text generalizing s with
  | nil => exact absurd rfl hne
  | cons c text ih =>
    have hstep : s.scan (c :: text) = (s.push c).scan text :=
      congrArg (fun t : Scanner => t.scan text)
        (s.step_of_isOrdinary hs (htext c List.mem_cons_self))
    rw [hstep]
    cases text with
    | nil => rfl
    | cons d text =>
      rw [ih (s.push c) hs (fun e he => htext e (List.mem_cons_of_mem c he))
        (List.cons_ne_nil d text)]
      simp [push]

/-- **A word** and the blank behind it. -/
theorem scan_word_blank (ts : List Token) {w : List Byte} (hw : ∀ c ∈ w, IsOrdinary c)
    (hne : w ≠ []) : (⟨.plain, none, ts⟩ : Scanner).scan (w ++ [32]) =
      ⟨.plain, none, ts ++ [.word w]⟩ := by
  rw [scan_append, scan_of_isOrdinary _ rfl hw hne]
  rfl

/-- Blanks between words. -/
theorem scan_blanks (ts : List Token) (n : ℕ) :
    (⟨.plain, none, ts⟩ : Scanner).scan (List.replicate n 32) = ⟨.plain, none, ts⟩ := by
  induction n with
  | zero => rfl
  | succ n ih =>
    have hstep : (⟨.plain, none, ts⟩ : Scanner).step 32 = ⟨.plain, none, ts⟩ := by
      simp [step, blanks, close]
    rw [List.replicate_succ, scan, List.foldl_cons, hstep]
    exact ih

end Scanner

/-! ### Command lines -/

/-- **A word before a command line.** -/
theorem tokens_word_append {w : List Byte} (hw : ∀ c ∈ w, IsOrdinary c) (hne : w ≠ [])
    (line : List Byte) : tokens (w ++ [32] ++ line) = (tokens line).map (.word w :: ·) := by
  rw [tokens, Scanner.scan_append, Scanner.start, Scanner.scan_word_blank [] hw hne]
  exact (congrArg Scanner.finish (Scanner.scan_behind .start [.word w] line)).trans
    (Scanner.finish_behind _ _)

/-- **A command line behind another one.** -/
theorem tokens_append_separator {line : List Byte}
    (hplain : (Scanner.start.scan line).mode = .plain) {ts : List Token}
    (hline : tokens line = some ts) {c : Byte} (hc : c ∈ separators) (rest : List Byte) :
    tokens (line ++ [c] ++ rest) = (tokens rest).map (ts ++ .special c :: ·) := by
  have hclose : (Scanner.start.scan line).close.tokens = ts := by
    rw [tokens, Scanner.finish, hplain] at hline
    exact Option.some.inj hline
  have hsep : Scanner.start.scan (line ++ [c]) = Scanner.start.behind (ts ++ [.special c]) := by
    rw [Scanner.scan_append, ← hclose]
    generalize Scanner.start.scan line = s at hplain
    obtain ⟨mode, word, toks⟩ := s
    obtain rfl : mode = .plain := hplain
    obtain rfl | rfl : c = 10 ∨ c = 59 := by simpa [separators] using hc
    · simp [Scanner.scan, Scanner.step, Scanner.emit, Scanner.close, Scanner.behind, Scanner.start,
        blanks, specials]
    · simp [Scanner.scan, Scanner.step, Scanner.emit, Scanner.close, Scanner.behind, Scanner.start,
        blanks, specials]
  rw [tokens, Scanner.scan_append, hsep, Scanner.scan_behind, Scanner.finish_behind, tokens]
  simp

/-! ### Programs -/

/-- A shell, as far as it is documented here.
* `IsProgram`: the words that name a program, which are neither reserved nor built in;
* `run`: the programs that a command line runs, one after the other.

A simple command runs the program of its first word, also when a newline, `;` or `&` ends it. The
commands of a list that are separated by a newline or a semicolon are run one after the other. -/
structure Interpreter where
  IsProgram : List Byte → Prop
  run : List Token → List (List Byte)
  run_simple : ∀ (w : List Byte) (ws : List (List Byte)) (ts : List Token), IsProgram w →
    IsTerminator ts → run (.word w :: ws.map .word ++ ts) = [w]
  run_list : ∀ (w : List Byte) (ws : List (List Byte)) (c : Byte) (v : List Byte)
    (vs : List (List Byte)) (ts : List Token), IsProgram w → IsProgram v → c ∈ separators →
    IsTerminator ts →
    run (.word w :: ws.map .word ++ .special c :: (.word v :: vs.map .word ++ ts)) = [w, v]

namespace Interpreter

variable (sh : Interpreter)

/-- The programs that are run for a command line; a quote that is not closed is an error. -/
def programs (line : List Byte) : List (List Byte) :=
  match tokens line with
  | none => []
  | some ts => sh.run ts

/-- **A program with arguments** is run, and nothing else. -/
theorem programs_of_isData {w : List Byte} (hw : ∀ c ∈ w, IsOrdinary c) (hne : w ≠ [])
    (hprogram : sh.IsProgram w) {line : List Byte} (hline : IsData line) :
    sh.programs (w ++ [32] ++ line) = [w] := by
  obtain ⟨ws, ts, hts, htokens⟩ := hline
  rw [programs, tokens_word_append hw hne, htokens]
  exact sh.run_simple w ws ts hprogram hts

/-- **A second program behind a separator** is run as well. -/
theorem programs_append_separator {w : List Byte} (hw : ∀ c ∈ w, IsOrdinary c) (hne : w ≠ [])
    (hprogram : sh.IsProgram w) {line : List Byte} {ws : List (List Byte)}
    (hplain : (Scanner.start.scan line).mode = .plain) (hline : tokens line = some (ws.map .word))
    {c : Byte} (hc : c ∈ separators) {v rest : List Byte} {vs : List (List Byte)} {ts : List Token}
    (hsecond : sh.IsProgram v) (hts : IsTerminator ts)
    (hrest : tokens rest = some (.word v :: vs.map .word ++ ts)) :
    sh.programs (w ++ [32] ++ (line ++ [c] ++ rest)) = [w, v] := by
  rw [programs, tokens_word_append hw hne, tokens_append_separator hplain hline hc, hrest]
  exact sh.run_list w ws c v vs ts hprogram hsecond hc hts

end Interpreter

/-! ### The least interpreter -/

/-- The words of a command, if it has nothing else but its end. -/
def wordsOf : List Token → Option (List (List Byte))
  | [] => some []
  | .word w :: ts => (wordsOf ts).map (w :: ·)
  | .special c :: ts => if c ∈ terminators ∧ ∀ t ∈ ts, t = .special 10 then some [] else none

theorem wordsOf_of_isTerminator {ts : List Token} (h : IsTerminator ts) : wordsOf ts = some [] := by
  cases h with
  | none => rfl
  | some hc n => exact if_pos ⟨hc, fun t ht => List.eq_of_mem_replicate ht⟩

theorem wordsOf_map_append (ws : List (List Byte)) {ts : List Token} (h : IsTerminator ts) :
    wordsOf (ws.map .word ++ ts) = some ws := by
  induction ws with
  | nil => exact wordsOf_of_isTerminator h
  | cons w ws ih => rw [List.map_cons, List.cons_append, wordsOf, ih, Option.map_some]

theorem exists_of_wordsOf {ts : List Token} {ws : List (List Byte)} (h : wordsOf ts = some ws) :
    ∃ us, IsTerminator us ∧ ts = ws.map .word ++ us := by
  induction ts generalizing ws with
  | nil =>
    obtain rfl := Option.some.inj h
    exact ⟨[], .none, rfl⟩
  | cons t ts ih =>
    cases t with
    | special c =>
      rw [wordsOf] at h
      split_ifs at h with hend
      obtain rfl := Option.some.inj h
      refine ⟨_, .some hend.1 ts.length, ?_⟩
      rw [List.map_nil, List.nil_append, ← List.eq_replicate_length.mpr hend.2]
    | word w =>
      obtain ⟨vs, hvs, rfl⟩ := Option.map_eq_some_iff.mp h
      obtain ⟨us, hus, rfl⟩ := ih hvs
      exact ⟨us, hus, rfl⟩

/-- Behind the end of a command there is no word. -/
theorem wordsOf_append_word (ws : List (List Byte)) (c : Byte) (v : List Byte) (ts : List Token) :
    wordsOf (ws.map .word ++ .special c :: .word v :: ts) = none := by
  induction ws with
  | nil =>
    refine if_neg fun hend => ?_
    cases hend.2 _ List.mem_cons_self
  | cons w ws ih => rw [List.map_cons, List.cons_append, wordsOf, ih, Option.map_none]

/-- The first program of a command, if it is a simple one. -/
def commandOf (p : List Byte → Bool) (ts : List Token) : Option (List Byte) :=
  ((wordsOf ts).bind List.head?).filter p

theorem commandOf_words (p : List Byte → Bool) {w : List Byte} (hw : p w = true)
    (ws : List (List Byte)) {ts : List Token} (h : IsTerminator ts) :
    commandOf p (.word w :: ws.map .word ++ ts) = some w := by
  have hwords : wordsOf (.word w :: ws.map .word ++ ts) = some (w :: ws) :=
    wordsOf_map_append (w :: ws) h
  rw [commandOf, hwords]
  exact Option.filter_some_pos hw

/-- Whether a token is not a separator. -/
def inCommand : Token → Bool
  | .word _ => true
  | .special c => decide (c ∉ separators)

/-- What the least interpreter runs: the commands that are documented. -/
def leastRun (p : List Byte → Bool) (ts : List Token) : List (List Byte) :=
  if (wordsOf ts).isSome then (commandOf p ts).toList
  else
    match commandOf p (ts.takeWhile inCommand), commandOf p (ts.dropWhile inCommand).tail with
    | some w, some v => [w, v]
    | _, _ => []

theorem leastRun_simple (p : List Byte → Bool) {w : List Byte} (hw : p w = true)
    (ws : List (List Byte)) {ts : List Token} (h : IsTerminator ts) :
    leastRun p (.word w :: ws.map .word ++ ts) = [w] := by
  have hwords : wordsOf (.word w :: ws.map .word ++ ts) = some (w :: ws) :=
    wordsOf_map_append (w :: ws) h
  rw [leastRun, hwords, Option.isSome_some, if_pos rfl, commandOf_words p hw ws h,
    Option.toList_some]

theorem leastRun_list (p : List Byte → Bool) {w v : List Byte} (hw : p w = true) (hv : p v = true)
    (ws vs : List (List Byte)) {c : Byte} (hc : c ∈ separators) {ts : List Token}
    (h : IsTerminator ts) :
    leastRun p (.word w :: ws.map .word ++ .special c :: (.word v :: vs.map .word ++ ts)) =
      [w, v] := by
  have hin : ∀ t ∈ (w :: ws).map Token.word, inCommand t = true := fun t ht => by
    obtain ⟨u, -, rfl⟩ := List.mem_map.mp ht
    rfl
  have hout : ¬inCommand (.special c) = true := by simp [inCommand, hc]
  have hfirst : commandOf p ((w :: ws).map .word) = some w := by
    have hnone := commandOf_words p hw ws .none
    rwa [List.append_nil] at hnone
  have hline : Token.word w :: ws.map .word ++ .special c :: (.word v :: vs.map .word ++ ts) =
      (w :: ws).map Token.word ++ .special c :: .word v :: (vs.map .word ++ ts) := rfl
  rw [hline, leastRun, wordsOf_append_word, Option.isSome_none, if_neg Bool.false_ne_true,
    List.takeWhile_append_of_pos hin, List.dropWhile_append_of_pos hin,
    List.takeWhile_cons_of_neg hout, List.append_nil, List.dropWhile_cons_of_neg hout,
    List.tail_cons, hfirst]
  have hsecond : commandOf p (.word v :: (vs.map .word ++ ts)) = some v := commandOf_words p hv vs h
  rw [hsecond]

/-- The interpreter that runs the programs of `p` in the documented commands, and nothing else. -/
def Interpreter.least (p : List Byte → Bool) : Interpreter where
  IsProgram w := p w = true
  run := leastRun p
  run_simple _ ws _ hw h := leastRun_simple p hw ws h
  run_list _ ws _ _ vs _ hw hv hc h := leastRun_list p hw hv ws vs hc h

/-- **What every interpreter runs** as one program with arguments is data. -/
theorem isData_of_forall_programs {w : List Byte} (hw : ∀ c ∈ w, IsOrdinary c) (hne : w ≠ [])
    {line : List Byte}
    (h : ∀ sh : Interpreter, sh.IsProgram w → sh.programs (w ++ [32] ++ line) = [w]) :
    IsData line := by
  have hrun := h (.least fun _ => true) rfl
  rw [Interpreter.programs, tokens_word_append hw hne] at hrun
  cases htokens : tokens line with
  | none =>
    rw [htokens] at hrun
    cases hrun
  | some ts =>
    rw [htokens, Option.map_some] at hrun
    cases hwords : wordsOf ts with
    | some ws =>
      obtain ⟨us, hus, rfl⟩ := exists_of_wordsOf hwords
      exact ⟨ws, us, hus, htokens⟩
    | none =>
      -- with another operator there are two programs or none
      have hnone : wordsOf (.word w :: ts) = none := by
        rw [wordsOf, hwords, Option.map_none]
      have htwo : leastRun (fun _ => true) (.word w :: ts) = [w] := hrun
      rw [leastRun, hnone, Option.isSome_none, if_neg Bool.false_ne_true] at htwo
      split at htwo
      · cases htwo
      · cases htwo

end TikFachpraktika.Shell
