import TikFachpraktika.Chat.Server.Who
import TikFachpraktika.Chat.Server.MsgPointer
import TikFachpraktika.Transition.Trace

/-!
# The chat room

What the chat server is for, without descriptors, buffers, queues and loops: people enter a room,
give themselves names, and say something, to all or to one of them. Each event has one effect on
the names, and at most one thing is said, of which every member hears what it is to hear. A member
that does not take what it is to hear has left.

## Main definitions

* `Room`: the members with their names, and what they have been sent since they have entered.
* `Event`: what happens in the room.
* `Said`, `Said.heard`: what is said, and the texts that the members hear of it.
* `Room.step`: the room after an event.

## Main results

* `Room.journals_step`: every event adds to the logs what the members hear of it.
-/

namespace TikFachpraktika.Chat

open Posix Transition

/-- A member: its name, and the texts that it has been sent. -/
structure Member where
  name : Option (List Byte)
  log : List (List Byte)

/-- What becomes of a member that hears a text: it takes the text, which is sent with a byte behind
it, or it leaves. -/
def Member.hear (m : Member) (takes : ℕ → Bool) (text : Option (List Byte)) : Option Member :=
  match text with
  | none => some m
  | some text =>
    if takes (text.length + 1) then some { m with log := m.log ++ [text] } else none

/-- The members by their numbers, and the address that each number has had last. -/
structure Room where
  addr : ℕ → InAddr
  members : ℕ → Option Member

/-- What happens: somebody connects, hangs up, or sends a text; with the text the output of the
program that is run for it, if any. -/
inductive Event
  | idle
  | connect (i : ℕ) (addr : InAddr)
  | hangUp (i : ℕ)
  | text (i : ℕ) (text output : List Byte)

/-- What is said: an answer to one member, something to all from one of them or from the program,
and something from one member to another. -/
inductive Said
  | reply (i : ℕ) (text : List Byte)
  | message (i : ℕ) (name text : List Byte)
  | cow (name output : List Byte)
  | whisper (i j : ℕ) (name name' text : List Byte)

/-- The text that the member `k` hears. A text for which there is no room behind the name is left
out. -/
def Said.heard : Said → ℕ → Option (List Byte)
  | .reply i text, k => if k = i then some text else none
  | .message i name text, k =>
    some (enqueue (name ++ (if k = i then str " (you) " else []) ++ str ": ") text)
  | .cow name output, _ =>
    some (str "<Server cowsay cmd>:\n" ++ cstr output ++
      str "<Server cowsay cmd>: this comes from user " ++ name ++ str ".\n")
  | .whisper i j name name' text, k =>
    if k = i then some (enqueue (name ++ str " (-> " ++ name' ++ str "): ") text)
    else if k = j then some (enqueue (name ++ str " [priv] :") text)
    else none

namespace Room

variable (r : Room)

/-- The empty room. -/
def empty : Room where
  addr := fun _ => ⟨0, 0, 0, 0⟩
  members := fun _ => none

/-- How a member is shown: by its name or its address. -/
def shown (i : ℕ) : List Byte :=
  ((r.members i).bind Member.name).getD (Server.inetNtoa (r.addr i))

/-- The members in the order of their numbers. -/
def present : List ℕ :=
  (List.range fdSetSize).filter fun i => (r.members i).isSome

/-- The first other member whose name begins with the given one, without regard to case. -/
def addressee (i : ℕ) (name : List Byte) : Option ℕ :=
  (List.range fdSetSize).find? fun j =>
    decide (j ≠ i) &&
      ((r.members j).bind Member.name).any fun a => (lower name).isPrefixOf (lower a)

/-! ### Answers -/

/-- The greeting. -/
def greeting : List Byte :=
  str "Hello from server!\n" ++ str "Enter '\\help' for a list of commands.\n"

/-- The list of the members. -/
def whoText (i : ℕ) : List Byte :=
  (r.present.flatMap fun j => str "<Server who cmd>: " ++ r.shown j ++
    (if i = j then str " (you)" else []) ++ str "\n") ++ Server.endOfList

/-- The list of the commands. -/
def helpText : List Byte :=
  (Server.helpLines.flatMap fun (command, desc) =>
    str "<Server help cmd>: " ++ command ++ str " -> " ++ desc ++ str "\n") ++
    str "<Server who cmd>: -- End of List --\n"

/-- Whether a member may take a name. -/
def mayTake (i : ℕ) (name : List Byte) : Bool :=
  ((r.members i).bind Member.name).isNone && decide (name.length ≤ aliasMaxlen) &&
    name.all (· ∈ aliasAllowedChars) && (r.addressee i name).isNone

/-- The answer to the wish for a name. -/
def nameAnswer (i : ℕ) (name : List Byte) : List Byte :=
  if ((r.members i).bind Member.name).isSome then
    str "<Server alias cmd>: You have already set an alias."
  else if name.length > aliasMaxlen then
    str "<Server alias cmd>: Sorry, this alias is too long (max 32 chars)."
  else if name.any (· ∉ aliasAllowedChars) then
    str "<Server alias cmd>: Sorry, this alias contains invalid chars (allowed: a-zA-Z0-9_-)."
  else if (r.addressee i name).isSome then
    str "<Server alias cmd>: Sorry, this alias is already in use."
  else str "<Server alias cmd>: OK, alias set to " ++ name ++ str "."

/-! ### Events -/

/-- What is said when `i` sends a private message: nothing if there is no name in front of it. -/
def saidPrivately (i : ℕ) (text : List Byte) : Option Said :=
  match r.addressee i (privateName text) with
  | none => some (.reply i (str "<Server @ cmd>: Alias not found."))
  | some j => (msgPointer text).map fun pos =>
      .whisper i j (r.shown i) (r.shown j) (text.drop pos)

/-- What is said when `i` sends a text. -/
def saidBy (i : ℕ) (text output : List Byte) : Option Said :=
  match commandOf text with
  | .who => some (.reply i (r.whoText i))
  | .setAlias => some (.reply i (r.nameAnswer i (text.drop magicStrAlias.length)))
  | .help => some (.reply i helpText)
  | .cow =>
    if output = [] then
      some (.reply i (str "<Server cowsay cmd>: 'cowsay' command not installed on server!\n"))
    else some (.cow (r.shown i) output)
  | .privateMsg => r.saidPrivately i text
  | .message => some (.message i (r.shown i) text)

/-- What is said. -/
def said : Event → Option Said
  | .idle | .hangUp _ => none
  | .connect i _ => some (.reply i greeting)
  | .text i text output => r.saidBy i text output

/-- The room with another member `i`. -/
def put (i : ℕ) (m : Option Member) : Room :=
  { r with members := Function.update r.members i m }

@[simp] theorem put_members_self (i : ℕ) (m : Option Member) : (r.put i m).members i = m :=
  Function.update_self ..

theorem put_members_of_ne {i j : ℕ} (h : j ≠ i) (m : Option Member) :
    (r.put i m).members j = r.members j :=
  Function.update_of_ne h ..

/-- The room in which the member `i` has a name. -/
def putName (i : ℕ) (name : List Byte) : Room :=
  r.put i ((r.members i).map fun m => { m with name := some name })

/-- The room with the change of members and names. -/
def enter : Event → Room
  | .idle => r
  | .connect i addr => { r.put i (some ⟨none, []⟩) with addr := Function.update r.addr i addr }
  | .hangUp i => r.put i none
  | .text i text _ =>
    if commandOf text = .setAlias ∧ r.mayTake i (text.drop magicStrAlias.length) = true then
      r.putName i (text.drop magicStrAlias.length)
    else r

/-- The room in which the members have heard what is said; `takes` says who takes how many bytes. -/
def say (takes : ℕ → ℕ → Bool) (said : Said) : Room :=
  { r with members := fun k => (r.members k).bind fun m => m.hear (takes k) (said.heard k) }

/-- The room after something may have been said. -/
def sayAny (takes : ℕ → ℕ → Bool) : Option Said → Room
  | none => r
  | some said => r.say takes said

/-- The room after an event. -/
def step (takes : ℕ → ℕ → Bool) (event : Event) : Room :=
  (r.enter event).sayAny takes (r.said event)

/-! ### The journal -/

/-- The logs of the members. -/
def logs (i : ℕ) : Option (List (List Byte)) :=
  (r.members i).map Member.log

end Room

/-- What a member hears of what is said, if anything is. -/
def heardOf (said : Option Said) (i : ℕ) : List (List Byte) :=
  (said.bind fun said => said.heard i).toList

theorem Member.hear_eq_some {m m' : Member} {takes : ℕ → Bool} {text : Option (List Byte)}
    (h : m.hear takes text = some m') :
    m'.name = m.name ∧ m'.log = m.log ++ text.toList := by
  cases text with
  | none =>
    cases h
    exact ⟨rfl, (List.append_nil _).symm⟩
  | some text =>
    rw [Member.hear] at h
    split_ifs at h
    cases h
    exact ⟨rfl, rfl⟩

namespace Room

variable (r : Room) (takes : ℕ → ℕ → Bool)

/-- What is said is added to the logs of those who stay. -/
theorem exists_of_logs_say {said : Said} {i : ℕ} {l' : List (List Byte)}
    (h : (r.say takes said).logs i = some l') :
    ∃ l, r.logs i = some l ∧ l' = l ++ heardOf (some said) i := by
  obtain ⟨m', hm', rfl⟩ := Option.map_eq_some_iff.mp h
  obtain ⟨m, hm, hhear⟩ := Option.bind_eq_some_iff.mp hm'
  exact ⟨m.log, by rw [logs, hm, Option.map_some], (Member.hear_eq_some hhear).2⟩

/-- Before anything is said an event only makes a member leave or join, with an empty log. -/
theorem logs_enter {event : Event} {i : ℕ} {l : List (List Byte)}
    (h : (r.enter event).logs i = some l) :
    r.logs i = some l ∨ l = [] ∧ ∃ addr, event = .connect i addr := by
  rw [logs] at h ⊢
  cases event with
  | idle => exact .inl h
  | connect j addr =>
    dsimp only [enter] at h
    rcases eq_or_ne i j with rfl | hne
    · rw [put_members_self] at h
      exact .inr ⟨(Option.some.inj h).symm, addr, rfl⟩
    · rw [put_members_of_ne _ hne] at h
      exact .inl h
  | hangUp j =>
    dsimp only [enter] at h
    rcases eq_or_ne i j with rfl | hne
    · rw [put_members_self] at h
      cases h
    · rw [put_members_of_ne _ hne] at h
      exact .inl h
  | text j text output =>
    rw [enter] at h
    split_ifs at h with hname
    · rcases eq_or_ne i j with rfl | hne
      · rw [putName, put_members_self, Option.map_map] at h
        exact .inl h
      · rw [putName, put_members_of_ne _ hne] at h
        exact .inl h
    · exact .inl h

/-- **Every event adds to the logs** what the members hear of it; those who join hear the greeting
first. -/
theorem journals_step (event : Event) : Journals (fun said i => said = some (.reply i greeting))
    heardOf r.logs (r.said event) (r.step takes event).logs := by
  rw [step]
  intro i l' hl'
  cases hsaid : r.said event with
  | none =>
    rw [hsaid] at hl'
    obtain hold | ⟨-, addr, rfl⟩ := r.logs_enter hl'
    · exact .inr ⟨l', hold, (List.append_nil l').symm⟩
    · cases hsaid
  | some said =>
    rw [hsaid] at hl'
    obtain ⟨l, hl, rfl⟩ := (r.enter event).exists_of_logs_say takes hl'
    obtain hold | ⟨rfl, addr, rfl⟩ := r.logs_enter hl
    · exact .inr ⟨l, hold, rfl⟩
    · exact .inl ⟨hsaid.symm, rfl⟩

end Room

end TikFachpraktika.Chat
