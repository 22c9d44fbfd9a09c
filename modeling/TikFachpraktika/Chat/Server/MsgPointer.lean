import Mathlib.Data.List.GetD
import TikFachpraktika.Chat.Server.Requests

/-!
# The pointer to a private message

The loop of `server_process_private` of `6_network/server.c` moves the pointer `msg` with each
character of the name that it takes, so that `msg` stays `NULL` for an empty name. An empty name
begins every alias.

## Main definitions

* `pointerLoop`, `privateName`, `msgPointer`: the loop with the pointer as a position in `inbuff`.

## Main results

* `le_of_pointerLoop`: the pointer stays in the string.
* `Server.processPrivate_eq`: the pointer is that of the model.
-/

namespace TikFachpraktika.Chat

open Posix

/-- The loop of `server_process_private` from index `i` on, with the pointer `msg` as a position in
`inbuff`. -/
def pointerLoop (inbuff : List Byte) :
    ℕ → ℕ → List Byte → Option ℕ → List Byte × Option ℕ
  | 0, _, name, msg => (name, msg)
  | n + 1, i, name, msg =>
    let chr := inbuff.getD (i + magicStrPrivate.length) 0
    if chr = 32 ∨ chr = 0 then (name, msg)
    else pointerLoop inbuff n (i + 1) (name ++ [chr]) (some (i + 1 + magicStrPrivate.length))

/-- The name of the addressed client. -/
def privateName (inbuff : List Byte) : List Byte :=
  (pointerLoop inbuff aliasMaxlen 0 [] none).1

/-- The pointer `msg` behind the loop. -/
def msgPointer (inbuff : List Byte) : Option ℕ :=
  (pointerLoop inbuff aliasMaxlen 0 [] none).2

/-! ### The loop -/

/-- **The two loops agree**: the text behind the name is what the pointer points to. -/
theorem privateLoop_eq_pointerLoop (inbuff : List Byte) : (n i : ℕ) → (name : List Byte) →
    (msg : Option ℕ) →
    Server.privateLoop n (inbuff.drop (i + 1)) name (msg.map fun k => inbuff.drop k) =
      ((pointerLoop inbuff n i name msg).1,
        (pointerLoop inbuff n i name msg).2.map fun k => inbuff.drop k)
  | 0, i, name, msg => rfl
  | n + 1, i, name, msg => by
      have hone : magicStrPrivate.length = 1 := by decide
      have hchr : (inbuff.drop (i + 1)).headD 0 = inbuff.getD (i + magicStrPrivate.length) 0 := by
        rw [hone, List.headD_eq_head?_getD, List.head?_drop, List.getD_eq_getElem?_getD]
      rw [Server.privateLoop, pointerLoop, hchr]
      split_ifs with hstop
      · rfl
      · have ih := privateLoop_eq_pointerLoop inbuff n (i + 1)
          (name ++ [inbuff.getD (i + magicStrPrivate.length) 0])
          (some (i + 1 + magicStrPrivate.length))
        rw [List.tail_drop, ← ih, Option.map_some, hone]

/-- The pointer stays in the string. -/
theorem le_of_pointerLoop {inbuff : List Byte} : {n i : ℕ} → {name : List Byte} →
    {msg : Option ℕ} → (∀ k, msg = some k → k ≤ inbuff.length) →
    ∀ k, (pointerLoop inbuff n i name msg).2 = some k → k ≤ inbuff.length
  | 0, i, name, msg, hmsg, k, hk => hmsg k hk
  | n + 1, i, name, msg, hmsg, k, hk => by
      rw [pointerLoop] at hk
      split_ifs at hk with hstop
      · exact hmsg k hk
      · refine le_of_pointerLoop (fun j hj => ?_) k hk
        -- a character that is not NUL is one of the string
        have hlt : i + magicStrPrivate.length < inbuff.length := by
          by_contra hge
          exact hstop (.inr (List.getD_eq_default _ _ (Nat.not_lt.mp hge)))
        rw [← Option.some.inj hj]
        omega

/-- Once it is set the pointer is not `NULL`. -/
theorem pointerLoop_ne_none {inbuff : List Byte} : {n i : ℕ} → {name : List Byte} → {k : ℕ} →
    (pointerLoop inbuff n i name (some k)).2 ≠ none
  | 0, _, _, _ => Option.some_ne_none _
  | n + 1, i, name, k => by
      rw [pointerLoop]
      split_ifs
      · exact Option.some_ne_none _
      · exact pointerLoop_ne_none

/-- The first character behind `@`. -/
theorem pointerLoop_first (inbuff : List Byte) :
    pointerLoop inbuff aliasMaxlen 0 [] none =
      if inbuff.getD 1 0 = 32 ∨ inbuff.getD 1 0 = 0 then ([], none)
      else pointerLoop inbuff 14 1 [inbuff.getD 1 0] (some 2) := rfl

theorem privateName_zero_notMem (inbuff : List Byte) : (0 : Byte) ∉ privateName inbuff := by
  have hloop : ∀ (n i : ℕ) (name : List Byte) (msg : Option ℕ), (0 : Byte) ∉ name →
      (0 : Byte) ∉ (pointerLoop inbuff n i name msg).1 := by
    intro n
    induction n with
    | zero => exact fun i name msg hname => hname
    | succ n ih =>
      intro i name msg hname
      rw [pointerLoop]
      split_ifs with hstop
      · exact hname
      · refine ih _ _ _ fun hmem => ?_
        rcases List.mem_append.mp hmem with hold | hnew
        · exact hname hold
        · exact hstop (.inr (List.mem_singleton.mp hnew).symm)
  exact hloop _ _ _ _ List.not_mem_nil

/-! ### The function -/

/-- What `server_process_private` does, with the pointer. -/
theorem Server.processPrivate_eq (s : Server) (fd : ℕ) (inp : Input) (inbuff : List Byte) :
    s.processPrivate fd inp inbuff = (do
      match ← s.findClient (s.nameMatches fd (privateName inbuff)) with
      | none => s.writeAndFlush fd Server.aliasNotFound (inp.writes fd)
      | some j =>
        match msgPointer inbuff with
        | none => throw .badPointer
        | some i =>
          let msg := inbuff.drop i
          let s ← s.writeAndFlush fd (s.privateCopy fd j msg) (inp.writes fd)
          s.writeAndFlush j (s.privateText fd (s.textOf fd inp msg j)) (inp.writes j)) := by
  have hloop := privateLoop_eq_pointerLoop inbuff aliasMaxlen 0 [] none
  rw [Option.map_none] at hloop
  rw [Server.processPrivate, show inbuff.drop magicStrPrivate.length = inbuff.drop (0 + 1) from rfl,
    hloop, ← privateName, ← msgPointer]
  dsimp only
  cases s.findClient (s.nameMatches fd (privateName inbuff)) with
  | error e => rfl
  | ok found =>
    rw [ok_bind, ok_bind]
    cases found with
    | none => rfl
    | some j => cases msgPointer inbuff <;> rfl

end TikFachpraktika.Chat
