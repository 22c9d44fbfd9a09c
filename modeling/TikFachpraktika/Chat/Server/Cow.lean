import TikFachpraktika.Shell.Tokens
import TikFachpraktika.Chat.Server.Texts

/-!
# The command of a cowsay message

`server_process_cow` of `6_network/server.c` hands the message to `popen` behind the word `cowsay`,
without quotes. So the shell takes it apart, and the special characters in it are not protected.

## Main definitions

* `cowCommand`: the command line that is built.
* `RunsCowsay`: the shell runs the one program `cowsay` for it.

## Main results

* `runsCowsay_iff`: when this is so for two messages, whatever the shell.
* `programs_cowCommand_separator`: a message with a second program.
-/

namespace TikFachpraktika.Chat

open Posix Shell

/-- The name of the program. -/
def cowsay : List Byte := str "cowsay"

/-- The string that `server_process_cow` hands to `popen`: `cowsay ` and the message. -/
def cowCommand (inbuff : List Byte) : List Byte :=
  str "cowsay " ++ inbuff.drop magicStrCow.length

/-- The shell runs the program `cowsay` for a text, and no other one. -/
def RunsCowsay (sh : Interpreter) (text : List Byte) : Prop :=
  sh.programs (cowCommand text) = [cowsay]

theorem isOrdinary_cowsay : ∀ c ∈ cowsay, IsOrdinary c := by decide +kernel

theorem cowsay_ne_nil : cowsay ≠ [] := by decide

theorem cowCommand_eq (text : List Byte) :
    cowCommand text = cowsay ++ [32] ++ text.drop magicStrCow.length := rfl

/-- **When only `cowsay` is run.** For any two texts, every shell in which `cowsay` is a program
runs this program alone for both of them if and only if both messages are data: each special
character is protected, but for those that end the command, and all quotes are closed. -/
theorem runsCowsay_iff (text text' : List Byte) :
    (∀ sh : Interpreter, sh.IsProgram cowsay → RunsCowsay sh text ∧ RunsCowsay sh text') ↔
      IsData (text.drop magicStrCow.length) ∧ IsData (text'.drop magicStrCow.length) := by
  constructor
  · intro h
    exact ⟨isData_of_forall_programs isOrdinary_cowsay cowsay_ne_nil fun sh hsh => (h sh hsh).1,
      isData_of_forall_programs isOrdinary_cowsay cowsay_ne_nil fun sh hsh => (h sh hsh).2⟩
  · rintro ⟨hdata, hdata'⟩ sh hsh
    exact ⟨sh.programs_of_isData isOrdinary_cowsay cowsay_ne_nil hsh hdata,
      sh.programs_of_isData isOrdinary_cowsay cowsay_ne_nil hsh hdata'⟩

/-- **A message with a second program**: what stands behind a semicolon or a newline that is not
protected is run as well. -/
theorem programs_cowCommand_separator (sh : Interpreter) (hcowsay : sh.IsProgram cowsay)
    {word line rest v : List Byte} {ws vs : List (List Byte)} {ts : List Token} {c : Byte}
    (hword : word.length = magicStrCow.length)
    (hplain : (Scanner.start.scan line).mode = .plain) (hline : tokens line = some (ws.map .word))
    (hc : c ∈ separators) (hsecond : sh.IsProgram v) (hts : IsTerminator ts)
    (hrest : tokens rest = some (.word v :: vs.map .word ++ ts)) :
    sh.programs (cowCommand (word ++ (line ++ [c] ++ rest))) = [cowsay, v] := by
  rw [cowCommand_eq, ← hword, List.drop_left]
  exact sh.programs_append_separator isOrdinary_cowsay cowsay_ne_nil hcowsay hplain hline hc hsecond
    hts hrest

/-- **A message can be a command**: `\cow ;ls` runs `ls`. -/
theorem not_forall_runsCowsay :
    ¬∀ (sh : Interpreter) (text text' : List Byte), sh.IsProgram cowsay →
      commandOf text = .cow → commandOf text' = .cow →
      sh.programs (cowCommand text) = sh.programs (cowCommand text') ∧ RunsCowsay sh text := by
  intro hall
  have hruns := (hall (.least fun _ => true) (str "\\cow ;ls") (str "\\cow hi") rfl (by decide)
    (by decide)).2
  have hls : (Interpreter.least fun _ => true).programs
      (cowCommand (str "\\cow " ++ ([] ++ [59] ++ str "ls"))) = [cowsay, str "ls"] :=
    @programs_cowCommand_separator _ rfl _ [] (str "ls") (str "ls") [] [] [] 59 (by decide) rfl rfl
      (by decide) rfl .none (by decide)
  have htext : str "\\cow ;ls" = str "\\cow " ++ ([] ++ [59] ++ str "ls") := by decide
  rw [RunsCowsay, htext, hls] at hruns
  exact absurd hruns (by decide)

end TikFachpraktika.Chat
