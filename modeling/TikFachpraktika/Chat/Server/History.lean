import TikFachpraktika.Chat.Server.Simulation

/-!
# The common history of the clients

The clients of the chat server see one conversation: what has been written to any of them are the
texts that it is to hear of one journal, from its greeting on. So two clients see what is said to
both in the same order, and none of them misses a text as long as it is connected.

## Main definitions

* `Room.journal`: what is said in some calls of handlers.

## Main results

* `common_history`: the clients have seen the journal.
-/

namespace TikFachpraktika.Chat

open Posix Transition

/-! ### The journal -/

/-- What is said in the room in some calls of handlers. -/
noncomputable def Room.journal (lfd : ℕ) : Room → List (ℕ × Input) → List (Option Said)
  | _, [] => []
  | r, a :: calls => r.said (a.2.event lfd a.1) :: (r.next lfd a).journal lfd calls

theorem Room.journal_append_singleton (lfd : ℕ) (a : ℕ × Input) : (calls : List (ℕ × Input)) →
    (r : Room) → r.journal lfd (calls ++ [a]) =
      r.journal lfd calls ++ [(calls.foldl (Room.next lfd) r).said (a.2.event lfd a.1)]
  | [], _ => rfl
  | b :: calls, r => congrArg _ ((r.next lfd b).journal_append_singleton lfd a calls)

/-- The logs are kept after the journal. -/
theorem Room.trace_journal (lfd : ℕ) (calls : List (ℕ × Input)) :
    Trace (Journals (fun said i => said = some (.reply i Room.greeting)) heardOf)
      (fun _ _ => True) (fun _ => none) (Room.empty.journal lfd calls)
      (calls.foldl (Room.next lfd) Room.empty).logs := by
  induction calls using List.reverseRecOn with
  | nil => exact .nil
  | append_singleton calls a ih =>
    rw [Room.journal_append_singleton, List.foldl_append, List.foldl_cons, List.foldl_nil]
    exact ih.snoc trivial (Room.journals_step _ a.2.takes (a.2.event lfd a.1))

section History

variable {opened : ℕ → Bool} {lfd : ℕ} {calls : List (ℕ × Input)} {s : Server}

/-- **The clients see one conversation.** After every trace of calls of handlers, in which no sender
is refused while its own text goes out, what has been written to a client are the frames of what it
is to hear of the journal, from its greeting on. The journal is the same for all clients: it has an
entry for each call, in the order of the calls. -/
theorem common_history
    (h : Trace handlerStep (fun _ a => a.2.Steady lfd a.1) (serverMain opened lfd) calls s) {i : ℕ}
    (hactive : (s.clients i).active = true) :
    ∃ since, some (.reply i Room.greeting) :: since <:+ Room.empty.journal lfd calls ∧
      s.sent i =
        ((some (.reply i Room.greeting) :: since).flatMap (heardOf · i)).flatMap frame := by
  obtain ⟨-, hsim⟩ := Simulates.of_trace h
  obtain ⟨m, hm⟩ := Option.isSome_iff_exists.mp ((hsim.isSome_members i).trans hactive)
  obtain ⟨said, since, rfl, hsuffix, hlog⟩ :=
    exists_view_of_trace (Room.trace_journal lfd calls) (i := i) (l := m.log)
      (by rw [Room.logs, hm, Option.map_some])
  exact ⟨since, hsuffix, by rw [hsim.sent_eq i m hm, hlog]⟩

end History

/-- The conditions of the theorem can be met. -/
theorem common_history_hi : ∃ (calls : List (ℕ × Input)) (s : Server) (since : List (Option Said)),
    some (.reply 4 Room.greeting) :: since <:+ Room.empty.journal 3 calls ∧
      s.sent 4 =
        ((some (.reply 4 Room.greeting) :: since).flatMap (heardOf · 4)).flatMap frame := by
  obtain ⟨calls, s, hactive, htrace⟩ := exists_trace_hi
  obtain ⟨since, hsince⟩ := common_history htrace hactive
  exact ⟨calls, s, since, hsince⟩

end TikFachpraktika.Chat
