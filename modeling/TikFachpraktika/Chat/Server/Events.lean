import TikFachpraktika.Chat.Server.Commands

/-!
# The event loop of the chat server

`server_handle_events` and the setup of `server_main` of `6_network/server.c`. A round copies the
set of registered descriptors, lets `select` clear those that are not ready, and calls the
registered function of each descriptor that is left. What a handler gets from the system may
depend on the state in which it is called.

## Main definitions

* `Round`, `handleEvents`, `handleRounds`: calls of `server_handle_events`.
* `Round.Valid`: what is assumed of `accept`.
* `fullInput`, `fullRound`: one client sends a text or connects, and all writes succeed in full.
* `serverMain`, `LoopReachable`: the setup, and the states in which the event loop is reached
  again.
* `Reachable`: the states between two calls of handlers.

## Main results

* `LoopReachable.reachable`: the loop is only reached in states between two calls.
-/

namespace TikFachpraktika.Chat

open Posix

/-- One round of the event loop: whether `select` returns a positive count, the descriptors that
it leaves in the set, and what the handler of each descriptor gets. -/
structure Round where
  selected : Bool
  ready : ℕ → Bool
  input : ℕ → Server → Input

/-- `accept` returns a descriptor below `FD_SETSIZE` that is not open. -/
def Input.Valid (inp : Input) (s : Server) : Prop :=
  ∀ nfd caddr, inp.accept = some (nfd, caddr) → s.opened nfd = false ∧ nfd < fdSetSize

def Round.Valid (round : Round) : Prop :=
  ∀ i s, (round.input i s).Valid s

/-! ### Rounds without failures -/

/-- What a handler gets when a client sends `text`, or connects on descriptor `nfd`; all writes
succeed in full. -/
def fullInput (nfd : ℕ) (text : List Byte) (s : Server) : Input where
  accept := if s.opened nfd then none else some (nfd, ⟨127, 0, 0, 1⟩)
  read := some text
  errno := 0
  beyond := []
  freed := fun _ => []
  popen := []
  writes := fun _ => [.full]

theorem fullInput_valid {nfd : ℕ} (hnfd : nfd < fdSetSize) (text : List Byte) (s : Server) :
    (fullInput nfd text s).Valid s := by
  intro nfd' caddr haccept
  dsimp only [fullInput] at haccept
  split_ifs at haccept with hopen
  cases haccept
  exact ⟨by simpa using hopen, hnfd⟩

/-- A round in which only descriptor `i` is ready. -/
def fullRound (i nfd : ℕ) (text : List Byte) : Round where
  selected := true
  ready := fun j => j == i
  input := fun _ => fullInput nfd text

theorem fullRound_valid {i nfd : ℕ} (hnfd : nfd < fdSetSize) (text : List Byte) :
    (fullRound i nfd text).Valid :=
  fun _ s => fullInput_valid hnfd text s

/-! ### The loop -/

namespace Server

/-- A call of the function that is registered for `i`. -/
def callHandler (s : Server) (i : ℕ) (inp : Input) : Except Fault Server :=
  match s.read.f i with
  | none => throw .nullCall
  | some .acceptClient => s.acceptClient inp
  | some .processClient => s.processClient i inp

/-- The loop of `server_handle_events` from descriptor `i` on; `n` descriptors are left below
`FD_SETSIZE`. -/
def eventLoop (set : ℕ → Bool) (input : ℕ → Server → Input) : ℕ → ℕ → Server →
    Except Fault Server
  | 0, _, s => pure s
  | n + 1, i, s =>
    if i < s.read.max + 1 then
      if set i then do
        let s ← s.callHandler i (input i s)
        eventLoop set input n (i + 1) s
      else eventLoop set input n (i + 1) s
    else pure s

/-- `server_handle_events`. -/
def handleEvents (s : Server) (round : Round) : Except Fault Server :=
  if round.selected then
    s.eventLoop (fun i => s.read.fds i && round.ready i) round.input fdSetSize 0
  else pure s

/-- Calls of `server_handle_events` one after the other. -/
def handleRounds (s : Server) (rounds : List Round) : Except Fault Server :=
  rounds.foldlM handleEvents s

end Server

/-- The state in which `server_main` enters the event loop, with the listening socket `lfd` and
the descriptors `opened` open besides it. -/
def serverMain (opened : ℕ → Bool) (lfd : ℕ) : Server where
  read := registerFd initFdvec lfd .acceptClient
  clients := fun _ => .zero
  opened := Function.update opened lfd true
  sent := fun _ => []

/-- The states in which the event loop is reached. -/
inductive LoopReachable (opened : ℕ → Bool) (lfd : ℕ) : Server → Prop
  | main : LoopReachable opened lfd (serverMain opened lfd)
  | round {s s' : Server} {round : Round} (h : LoopReachable opened lfd s) (hvalid : round.Valid)
      (hround : s.handleEvents round = .ok s') : LoopReachable opened lfd s'

/-- The states between two calls of handlers. -/
inductive Reachable (opened : ℕ → Bool) (lfd : ℕ) : Server → Prop
  | main : Reachable opened lfd (serverMain opened lfd)
  | call {s s' : Server} {i : ℕ} {inp : Input} (h : Reachable opened lfd s) (hvalid : inp.Valid s)
      (hcall : s.callHandler i inp = .ok s') : Reachable opened lfd s'

section Reachable

variable {opened : ℕ → Bool} {lfd : ℕ}

/-- A loop that returns has only been through states between two calls. -/
theorem Reachable.eventLoop {set : ℕ → Bool} {input : ℕ → Server → Input}
    (hvalid : ∀ i s, (input i s).Valid s) : {n i : ℕ} → {s s' : Server} →
    Reachable opened lfd s → s.eventLoop set input n i = .ok s' → Reachable opened lfd s'
  | 0, i, s, s', h, hloop => by
      cases hloop
      exact h
  | n + 1, i, s, s', h, hloop => by
      rw [Server.eventLoop] at hloop
      split_ifs at hloop with hmax hset
      · obtain ⟨s₁, hcall, hrest⟩ := exists_of_bind_eq_ok hloop
        exact Reachable.eventLoop hvalid (h.call (hvalid i s) hcall) hrest
      · exact Reachable.eventLoop hvalid h hloop
      · cases hloop
        exact h

/-- A loop that fails does so in a call from such a state. -/
theorem Reachable.exists_of_eventLoop {set : ℕ → Bool} {input : ℕ → Server → Input}
    (hvalid : ∀ i s, (input i s).Valid s) {e : Fault} : {n i : ℕ} → {s : Server} →
    Reachable opened lfd s → s.eventLoop set input n i = .error e →
    ∃ s' i', Reachable opened lfd s' ∧ s'.callHandler i' (input i' s') = .error e
  | 0, i, s, h, hloop => by cases hloop
  | n + 1, i, s, h, hloop => by
      rw [Server.eventLoop] at hloop
      split_ifs at hloop with hmax hset
      · cases hcall : s.callHandler i (input i s) with
        | error e' =>
          rw [hcall] at hloop
          cases hloop
          exact ⟨s, i, h, hcall⟩
        | ok s₁ =>
          rw [hcall] at hloop
          exact Reachable.exists_of_eventLoop hvalid (h.call (hvalid i s) hcall) hloop
      · exact Reachable.exists_of_eventLoop hvalid h hloop
      · cases hloop

/-- **The event loop is only reached in states between two calls.** -/
theorem LoopReachable.reachable {s : Server} (h : LoopReachable opened lfd s) :
    Reachable opened lfd s := by
  induction h with
  | main => exact .main
  | @round s s' round h hvalid hround ih =>
    rw [Server.handleEvents] at hround
    split_ifs at hround with hselected
    · exact ih.eventLoop (fun i s => hvalid i s) hround
    · cases hround
      exact ih

theorem LoopReachable.handleRounds {rounds : List Round} {s s' : Server}
    (h : LoopReachable opened lfd s) (hvalid : ∀ round ∈ rounds, round.Valid)
    (hrounds : s.handleRounds rounds = .ok s') : LoopReachable opened lfd s' :=
  of_foldlM_eq_ok (fun r hr _ _ hs hround => hs.round (hvalid r hr) hround) h hrounds

end Reachable

end TikFachpraktika.Chat
