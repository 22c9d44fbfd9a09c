import TikFachpraktika.Chat.Server.Events

/-!
# Rules for the handlers of the chat server

Every handler changes the state by a few operations only: data is queued and flushed, the text of
a `read` is put into `inbuff`, a client is disconnected, an alias is set, a connection is entered.
A property that these operations keep is kept by every call of a handler.

## Main definitions

* `Closed`: a property of states that the operations keep.
* `Kept`: a property that those keep which enter no connection.

## Main results

* `Kept.callHandler`: such a property is kept by every call that enters no connection.
* `Closed.callHandler`: a closed one is kept by every call of a handler.
* `Closed.reachable`: it holds in every reachable state.
-/

namespace TikFachpraktika.Chat

namespace Server

/-- The state in which `fd` has the given text in its `inbuff`. -/
def putInbuff (s : Server) (fd : ℕ) (bytes : List Posix.Byte) : Server :=
  s.setClient fd { s.clients fd with inbuff := (s.clients fd).inbuff.map fun _ => bytes }

/-- The state in which `fd` has the given alias. -/
def putAlias (s : Server) (fd : ℕ) (name : List Posix.Byte) : Server :=
  s.setClient fd { s.clients fd with hasAlias := true, aliasStr := name }

/-- The state with a new connection. -/
def putConnection (s : Server) (nfd : ℕ) (caddr : InAddr) : Server :=
  { { s with
      opened := Function.update s.opened nfd true
      sent := Function.update s.sent nfd [] }.setClient nfd
      ⟨true, caddr, some [], initQsiz, 0, some [], initQsiz, false, []⟩ with
    read := registerFd s.read nfd .processClient }

/-- An alias that `server_process_alias` accepts. -/
structure Accepted (s : Server) (fd : ℕ) (name : List Posix.Byte) : Prop where
  hasAlias : (s.clients fd).hasAlias = false
  ne_nil : name ≠ []
  length_le : name.length ≤ aliasMaxlen
  allowed : ∀ c ∈ name, c ∈ aliasAllowedChars
  unused : s.findClient (s.nameMatches fd name) = .ok none

end Server

/-- A property of states that the operations of the handlers keep. -/
structure Closed (P : Server → Prop) : Prop where
  writeAndFlush : ∀ {s s' : Server} {fd : ℕ} {data : List (List Posix.Byte)}
    {answers : List WriteAnswer}, P s → s.writeAndFlush fd data answers = .ok s' → P s'
  putInbuff : ∀ {s : Server} {fd : ℕ} (bytes : List Posix.Byte), P s → P (s.putInbuff fd bytes)
  disconnectClient : ∀ {s : Server} {fd : ℕ}, P s → s.read.f fd = some .processClient →
    P (s.disconnectClient fd)
  putAlias : ∀ {s : Server} {fd : ℕ} {name : List Posix.Byte}, P s → s.Accepted fd name →
    P (s.putAlias fd name)
  putConnection : ∀ {s : Server} {nfd : ℕ} (caddr : InAddr), P s → s.opened nfd = false →
    P (s.putConnection nfd caddr)

/-- A property of states that the operations on the clients that are connected keep. -/
structure Kept (P : Server → Prop) : Prop where
  writeAndFlush : ∀ {s s' : Server} {fd : ℕ} {data : List (List Posix.Byte)}
    {answers : List WriteAnswer}, P s → s.writeAndFlush fd data answers = .ok s' → P s'
  putInbuff : ∀ {s : Server} {fd : ℕ} (bytes : List Posix.Byte), P s → P (s.putInbuff fd bytes)
  disconnectClient : ∀ {s : Server} {fd : ℕ}, P s → s.read.f fd = some .processClient →
    P (s.disconnectClient fd)
  putAlias : ∀ {s : Server} {fd : ℕ} {name : List Posix.Byte}, P s → s.Accepted fd name →
    P (s.putAlias fd name)

theorem Closed.kept {P : Server → Prop} (hP : Closed P) : Kept P :=
  ⟨hP.writeAndFlush, hP.putInbuff, hP.disconnectClient, hP.putAlias⟩

section Rules

open Posix Server

variable {P : Server → Prop} {s s' : Server} {fd : ℕ} {inp : Input} {text : List Byte}

namespace Kept

theorem forActive {body : Server → ℕ → Except Fault Server}
    (hbody : ∀ {s s' i}, P s → body s i = .ok s' → P s') (h : P s)
    (hfor : s.forActive body = .ok s') : P s' := by
  refine of_foldlM_eq_ok (fun i _ {s s'} hs hi => ?_) h hfor
  split_ifs at hi with hactive
  · exact hbody hs hi
  · cases hi
    exact hs

theorem processMessageFrom (hP : Kept P) (h : P s)
    (hcall : s.processMessageFrom fd inp text = .ok s') : P s' := by
  rw [Server.processMessageFrom] at hcall
  exact forActive (fun hs hi => hP.writeAndFlush hs hi) h hcall

theorem processHelp (hP : Kept P) (h : P s) (hcall : s.processHelp fd inp = .ok s') : P s' := by
  rw [Server.processHelp] at hcall
  exact hP.writeAndFlush h hcall

theorem processCow (hP : Kept P) (h : P s) (hcall : s.processCow fd inp = .ok s') : P s' := by
  rw [Server.processCow] at hcall
  split_ifs at hcall with hresult
  · exact forActive (fun hs hi => hP.writeAndFlush hs hi) h hcall
  · exact hP.writeAndFlush h hcall

theorem processWho (hP : Kept P) (h : P s) (hcall : s.processWho fd inp = .ok s') : P s' := by
  rw [Server.processWho] at hcall
  split_ifs at hcall with hzero
  · cases hcall
  · exact hP.writeAndFlush h hcall

theorem processAlias (hP : Kept P) (h : P s) (hlen : magicStrAlias.length < text.length)
    (hcall : s.processAlias fd inp text = .ok s') : P s' := by
  rw [Server.processAlias] at hcall
  split_ifs at hcall with hhas hlong hchars
  · exact hP.writeAndFlush h hcall
  · exact hP.writeAndFlush h hcall
  · exact hP.writeAndFlush h hcall
  · obtain ⟨found, hfind, hcall⟩ := exists_of_bind_eq_ok hcall
    cases found with
    | some i => exact hP.writeAndFlush h hcall
    | none =>
      refine hP.writeAndFlush (hP.putAlias h ⟨?_, ?_, ?_, ?_, hfind⟩) hcall
      · simpa using hhas
      · exact List.ne_nil_of_length_pos (by rw [List.length_drop]; omega)
      · exact Nat.not_lt.mp hlong
      · simpa using hchars

theorem processPrivate (hP : Kept P) (h : P s)
    (hcall : s.processPrivate fd inp text = .ok s') : P s' := by
  rw [Server.processPrivate] at hcall
  obtain ⟨found, -, hcall⟩ := exists_of_bind_eq_ok hcall
  cases found with
  | none => exact hP.writeAndFlush h hcall
  | some cToFd =>
    dsimp only at hcall
    split at hcall
    · cases hcall
    · obtain ⟨s₁, hfirst, hsecond⟩ := exists_of_bind_eq_ok hcall
      exact hP.writeAndFlush (hP.writeAndFlush h hfirst) hsecond

theorem processString (hP : Kept P) (h : P s)
    (hcall : s.processString fd inp text = .ok s') : P s' := by
  rw [Server.processString] at hcall
  split_ifs at hcall with hwho halias hhelp hcow hprivate
  · exact hP.processWho h hcall
  · exact hP.processAlias h halias.1 hcall
  · exact hP.processHelp h hcall
  · exact hP.processCow h hcall
  · exact hP.processPrivate h hcall
  · exact hP.processMessageFrom h hcall

theorem processClient (hP : Kept P) (h : P s) (hf : s.read.f fd = some .processClient)
    (hcall : s.processClient fd inp = .ok s') : P s' := by
  rw [Server.processClient] at hcall
  have hput : P (s.putInbuff fd ((inp.read.getD []).take (s.clients fd).inLen)) :=
    hP.putInbuff _ h
  split_ifs at hcall with hempty hagain
  · cases hcall
    exact hput
  · cases hcall
    exact hP.disconnectClient hput hf
  · exact hP.processString hput hcall

theorem acceptClient (hP : Kept P) (h : P s)
    (hconn : ∀ nfd caddr, inp.accept = some (nfd, caddr) → P (s.putConnection nfd caddr))
    (hcall : s.acceptClient inp = .ok s') : P s' := by
  rw [Server.acceptClient] at hcall
  cases haccept : inp.accept with
  | none =>
    rw [haccept] at hcall
    cases hcall
    exact h
  | some p =>
    obtain ⟨nfd, caddr⟩ := p
    rw [haccept] at hcall
    dsimp only at hcall
    split_ifs at hcall with hactive
    exact hP.writeAndFlush (hconn nfd caddr haccept) hcall

/-- **A call of a handler** keeps the property if the new connection of an `accept` does. -/
theorem callHandler (hP : Kept P) (h : P s)
    (hconn : ∀ nfd caddr, inp.accept = some (nfd, caddr) → P (s.putConnection nfd caddr)) {i : ℕ}
    (hcall : s.callHandler i inp = .ok s') : P s' := by
  rw [Server.callHandler] at hcall
  cases hf : s.read.f i with
  | none =>
    rw [hf] at hcall
    cases hcall
  | some f =>
    rw [hf] at hcall
    cases f with
    | acceptClient => exact hP.acceptClient h hconn hcall
    | processClient => exact hP.processClient h hf hcall

end Kept

namespace Closed

/-- **A call of a handler** keeps the property. -/
theorem callHandler (hP : Closed P) (h : P s) (hvalid : inp.Valid s) {i : ℕ}
    (hcall : s.callHandler i inp = .ok s') : P s' :=
  hP.kept.callHandler h (fun nfd caddr haccept => hP.putConnection caddr h
    (hvalid nfd caddr haccept).1) hcall

/-- **The property holds in every reachable state** if it holds at the start. -/
theorem reachable (hP : Closed P) {opened : ℕ → Bool} {lfd : ℕ} (hmain : P (serverMain opened lfd))
    (h : Reachable opened lfd s) : P s := by
  induction h with
  | main => exact hmain
  | call _ hvalid hcall ih => exact hP.callHandler ih hvalid hcall

end Closed

end Rules

end TikFachpraktika.Chat
