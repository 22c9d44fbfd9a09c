import Mathlib.Tactic.IntervalCases
import TikFachpraktika.Chat.Common
import TikFachpraktika.Transition.Run
import TikFachpraktika.Transition.Trace

/-!
# The dialogue of the simple chat

`6_network/chat-simple.c`: the server asks for a name and for a message, and the client answers with
lines of its user. Both sides write strings with their terminators and take what one `read` gives
them for the next string. The connection is a stream of bytes in each direction: a `read` takes any
part of what is there, as much as its buffer holds. Writes are taken whole. A call on a connection
that the other side has closed may fail.

## Main definitions

* `fgets`, `answer`: a line of the user.
* `Dialogue`: both programs with one connection.
* `serverStep`, `clientStep`, `next`: the steps, where the size of each `read` is open.

## Main results

* `dialogue_ends`: no dialogue gets stuck.
* `dialogue_right_iff`: when both sides get the texts of the other.
-/

namespace TikFachpraktika.Chat.Simple

open Posix Transition

/-! ### Texts -/

/-- `sizeof(buffer)`. -/
def bufferSize : ℕ := 256

/-- The first question. -/
def greeting : List Byte :=
  str "Hi! Here's a simple server. What's your name?"

/-- The second question, in a buffer of 512 bytes. -/
def welcome (name : List Byte) : List Byte :=
  (str "Hi " ++ name ++ str ". What's your message?").take 511

/-- The answer to the message. -/
def thanks : List Byte :=
  str "Thanks, bye!"

/-- A string with its terminator. -/
def packet (text : List Byte) : List Byte :=
  text ++ [0]

/-- The string that a `read` leaves in a zeroed buffer whose last byte is then set to NUL. -/
def received (bs : List Byte) : List Byte :=
  cstr (bs.take (bufferSize - 1))

/-- The first line, or as much of it as fits. -/
def lineOf : ℕ → List Byte → List Byte
  | 0, _ => []
  | _, [] => []
  | n + 1, c :: cs => if c = 10 then [c] else c :: lineOf n cs

/-- `fgets(buffer, size, stdin)`: the line and the rest of the input, or `none` at its end. -/
def fgets (size : ℕ) (stdin : List Byte) : Option (List Byte × List Byte) :=
  if stdin = [] then none
  else some (lineOf (size - 1) stdin, stdin.drop (lineOf (size - 1) stdin).length)

/-- The line that the client answers with, without its last character, and the rest of the input. At
the end of the input the buffer holds what it held before. The result is `none` if the string is
empty: the store of the NUL is then outside the buffer. -/
def answer (buffer stdin : List Byte) : Option (List Byte × List Byte) :=
  let (text, rest) :=
    match fgets bufferSize stdin with
    | some (line, rest) => (cstr line, rest)
    | none => (buffer, stdin)
  if text = [] then none else some (text.dropLast, rest)

/-! ### The two programs -/

/-- The places of the server in the body of its loop, before the system call that each is named
after. -/
inductive ServerPc
  | greet
  | readName
  | welcome
  | readMessage
  | thank
  | closed
  deriving DecidableEq

/-- The places of the client. -/
inductive ClientPc
  | readGreeting
  | sendName
  | readWelcome
  | sendMessage
  | readThanks
  | closed
  deriving DecidableEq

/-- The places of both programs, the bytes in both directions, the input of the user, the buffers,
and the texts that both programs have printed. -/
structure Dialogue where
  server : ServerPc
  client : ClientPc
  toClient : List Byte
  toServer : List Byte
  stdin : List Byte
  serverBuffer : List Byte
  clientBuffer : List Byte
  serverSays : List (List Byte)
  clientSays : List (List Byte)
  deriving DecidableEq

/-- Who takes a step. -/
inductive Party
  | server
  | client
  deriving DecidableEq

/-- A `read` of `k` bytes from a stream, and what it leaves. It gives no bytes at the end of a
closed stream or if the connection is broken, and it blocks if there are none yet. -/
def readStream (stream : List Byte) (closed : Bool) (k : ℕ) : Option (List Byte × List Byte) :=
  if closed ∧ (stream = [] ∨ k = 0) then some ([], stream)
  else if 0 < k ∧ k ≤ min bufferSize stream.length then some (stream.take k, stream.drop k)
  else none

/-- A `write` of the server, which then goes on at `pc`; it fails only if `k` is zero. -/
def serverWrite (s : Dialogue) (k : ℕ) (text : List Byte) (pc : ServerPc) : Option Dialogue :=
  some (if s.client = .closed ∧ k = 0 then { s with server := .closed }
    else { s with toClient := s.toClient ++ packet text, server := pc })

/-- A `read` of the server, which then goes on at `pc`. -/
def serverRead (s : Dialogue) (k : ℕ) (pc : ServerPc) : Option Dialogue :=
  (readStream s.toServer (decide (s.client = .closed)) k).map fun (bs, rest) =>
    if bs = [] then { s with server := .closed }
    else { s with
      toServer := rest
      serverBuffer := received bs
      serverSays := s.serverSays ++ [received bs]
      server := pc }

/-- A step of the server. -/
def serverStep (s : Dialogue) (k : ℕ) : Option Dialogue :=
  match s.server with
  | .greet => serverWrite s k greeting .readName
  | .readName => serverRead s k .welcome
  | .welcome => serverWrite s k (welcome s.serverBuffer) .readMessage
  | .readMessage => serverRead s k .thank
  | .thank => serverWrite s k thanks .closed
  | .closed => none

/-- A `read` of the client, which then goes on at `pc`. -/
def clientRead (s : Dialogue) (k : ℕ) (pc : ClientPc) : Option Dialogue :=
  (readStream s.toClient (decide (s.server = .closed)) k).map fun (bs, rest) =>
    if bs = [] then { s with client := .closed }
    else { s with
      toClient := rest
      clientBuffer := received bs
      clientSays := s.clientSays ++ [received bs]
      client := pc }

/-- An answer of the client, which then goes on at `pc`; the `write` fails only if `k` is zero. -/
def clientSend (s : Dialogue) (k : ℕ) (pc : ClientPc) : Option Dialogue :=
  (answer s.clientBuffer s.stdin).map fun (text, rest) =>
    if s.server = .closed ∧ k = 0 then
      { s with clientBuffer := text, stdin := rest, client := .closed }
    else { s with
      toServer := s.toServer ++ packet text
      clientBuffer := text
      stdin := rest
      client := pc }

/-- A step of the client. -/
def clientStep (s : Dialogue) (k : ℕ) : Option Dialogue :=
  match s.client with
  | .readGreeting => clientRead s k .sendName
  | .sendName => clientSend s k .readWelcome
  | .readWelcome => clientRead s k .sendMessage
  | .sendMessage => clientSend s k .readThanks
  | .readThanks => clientRead s k .closed
  | .closed => none

/-- A step of either program; a `read` takes `k` bytes. -/
def next (s : Dialogue) : Party × ℕ → Option Dialogue
  | (.server, k) => serverStep s k
  | (.client, k) => clientStep s k

/-- A new connection. -/
def start (stdin : List Byte) : Dialogue where
  server := .greet
  client := .readGreeting
  toClient := []
  toServer := []
  stdin := stdin
  serverBuffer := []
  clientBuffer := []
  serverSays := []
  clientSays := []

/-! ### What a step does -/

section Steps

variable {s s' : Dialogue} {k : ℕ}

/-- The result of a `read`. -/
theorem readStream_cases {stream bs rest : List Byte} {closed : Bool}
    (h : readStream stream closed k = some (bs, rest)) :
    (closed = true ∧ bs = []) ∨ (bs ≠ [] ∧ stream = bs ++ rest) := by
  rw [readStream] at h
  split_ifs at h with hclosed hk
  · cases h
    exact .inl ⟨hclosed.1, rfl⟩
  · cases h
    refine .inr ⟨fun hnil => ?_, (List.take_append_drop k stream).symm⟩
    have hlen := congrArg List.length hnil
    rw [List.length_take, List.length_nil] at hlen
    omega

/-- A step of the server in which it sends a text. -/
def ServerSends (s s' : Dialogue) : Prop :=
  ∃ text pc, (s.server, pc) ∈ [(ServerPc.greet, ServerPc.readName), (.welcome, .readMessage),
      (.thank, .closed)] ∧
    s' = { s with toClient := s.toClient ++ packet text, server := pc }

/-- A step of the server in which it gets some bytes. -/
def ServerGets (s s' : Dialogue) : Prop :=
  ∃ bs rest pc, (s.server, pc) ∈ [(ServerPc.readName, ServerPc.welcome), (.readMessage, .thank)] ∧
    bs ≠ [] ∧ s.toServer = bs ++ rest ∧
    s' = { s with
      toServer := rest
      serverBuffer := received bs
      serverSays := s.serverSays ++ [received bs]
      server := pc }

/-- A step of the server in which it finds that the client has closed the connection. -/
def ServerHangsUp (s s' : Dialogue) : Prop :=
  s.server ≠ .closed ∧ s.client = .closed ∧ s' = { s with server := .closed }

/-- The steps of the server. -/
theorem serverStep_cases (h : serverStep s k = some s') :
    ServerSends s s' ∨ ServerGets s s' ∨ ServerHangsUp s s' := by
  have hwrite : ∀ {text pc}, (s.server, pc) ∈ [(ServerPc.greet, ServerPc.readName),
      (.welcome, .readMessage), (.thank, .closed)] → serverWrite s k text pc = some s' →
      ServerSends s s' ∨ ServerGets s s' ∨ ServerHangsUp s s' := by
    intro text pc hpc hstep
    rw [serverWrite, Option.some_inj] at hstep
    split_ifs at hstep with hfail
    · refine .inr (.inr ⟨fun hclosed => ?_, hfail.1, hstep.symm⟩)
      simp [hclosed] at hpc
    · exact .inl ⟨text, pc, hpc, hstep.symm⟩
  have hread : ∀ {pc}, (s.server, pc) ∈ [(ServerPc.readName, ServerPc.welcome),
      (.readMessage, .thank)] → serverRead s k pc = some s' →
      ServerSends s s' ∨ ServerGets s s' ∨ ServerHangsUp s s' := by
    intro pc hpc hstep
    obtain ⟨⟨bs, rest⟩, hbs, rfl⟩ := Option.map_eq_some_iff.mp hstep
    obtain ⟨hclosed, rfl⟩ | ⟨hne, hstream⟩ := readStream_cases hbs
    · refine .inr (.inr ⟨fun hclosed => ?_, by simpa using hclosed, if_pos rfl⟩)
      simp [hclosed] at hpc
    · exact .inr (.inl ⟨bs, rest, pc, hpc, hne, hstream, if_neg hne⟩)
  unfold serverStep at h
  split at h
  case h_1 hpc => exact hwrite (by simp [hpc]) h
  case h_2 hpc => exact hread (by simp [hpc]) h
  case h_3 hpc => exact hwrite (by simp [hpc]) h
  case h_4 hpc => exact hread (by simp [hpc]) h
  case h_5 hpc => exact hwrite (by simp [hpc]) h
  case h_6 => cases h

/-- A step of the client in which it sends the answer of its user. -/
def ClientSends (s s' : Dialogue) : Prop :=
  ∃ text rest pc, (s.client, pc) ∈ [(ClientPc.sendName, ClientPc.readWelcome),
      (.sendMessage, .readThanks)] ∧
    answer s.clientBuffer s.stdin = some (text, rest) ∧
    s' = { s with
      toServer := s.toServer ++ packet text
      clientBuffer := text
      stdin := rest
      client := pc }

/-- A step of the client in which it gets some bytes. -/
def ClientGets (s s' : Dialogue) : Prop :=
  ∃ bs rest pc, (s.client, pc) ∈ [(ClientPc.readGreeting, ClientPc.sendName),
      (.readWelcome, .sendMessage), (.readThanks, .closed)] ∧
    bs ≠ [] ∧ s.toClient = bs ++ rest ∧
    s' = { s with
      toClient := rest
      clientBuffer := received bs
      clientSays := s.clientSays ++ [received bs]
      client := pc }

/-- A step of the client in which it finds that the server has closed the connection; it may have
read an answer for it. -/
def ClientHangsUp (s s' : Dialogue) : Prop :=
  s.client ≠ .closed ∧ s.server = .closed ∧ ∃ buffer stdin,
    s' = { s with clientBuffer := buffer, stdin := stdin, client := .closed }

/-- The steps of the client. -/
theorem clientStep_cases (h : clientStep s k = some s') :
    ClientSends s s' ∨ ClientGets s s' ∨ ClientHangsUp s s' := by
  have hsend : ∀ {pc}, (s.client, pc) ∈ [(ClientPc.sendName, ClientPc.readWelcome),
      (.sendMessage, .readThanks)] → clientSend s k pc = some s' →
      ClientSends s s' ∨ ClientGets s s' ∨ ClientHangsUp s s' := by
    intro pc hpc hstep
    obtain ⟨⟨text, rest⟩, htext, rfl⟩ := Option.map_eq_some_iff.mp hstep
    dsimp only
    split_ifs with hfail
    · refine .inr (.inr ⟨fun hclosed => ?_, hfail.1, _, _, rfl⟩)
      simp [hclosed] at hpc
    · exact .inl ⟨text, rest, pc, hpc, htext, rfl⟩
  have hread : ∀ {pc}, (s.client, pc) ∈ [(ClientPc.readGreeting, ClientPc.sendName),
      (.readWelcome, .sendMessage), (.readThanks, .closed)] → clientRead s k pc = some s' →
      ClientSends s s' ∨ ClientGets s s' ∨ ClientHangsUp s s' := by
    intro pc hpc hstep
    obtain ⟨⟨bs, rest⟩, hbs, rfl⟩ := Option.map_eq_some_iff.mp hstep
    obtain ⟨hclosed, rfl⟩ | ⟨hne, hstream⟩ := readStream_cases hbs
    · refine .inr (.inr ⟨fun hclosed => ?_, by simpa using hclosed, s.clientBuffer, s.stdin,
        if_pos rfl⟩)
      simp [hclosed] at hpc
    · exact .inr (.inl ⟨bs, rest, pc, hpc, hne, hstream, if_neg hne⟩)
  unfold clientStep at h
  split at h
  case h_1 hpc => exact hread (by simp [hpc]) h
  case h_2 hpc => exact hsend (by simp [hpc]) h
  case h_3 hpc => exact hread (by simp [hpc]) h
  case h_4 hpc => exact hsend (by simp [hpc]) h
  case h_5 hpc => exact hread (by simp [hpc]) h
  case h_6 => cases h

end Steps

/-! ### Progress -/

/-- How far the server is. -/
def ServerPc.rank : ServerPc → ℕ
  | .greet => 0
  | .readName => 1
  | .welcome => 2
  | .readMessage => 3
  | .thank => 4
  | .closed => 5

/-- How far the client is. -/
def ClientPc.rank : ClientPc → ℕ
  | .readGreeting => 0
  | .sendName => 1
  | .readWelcome => 2
  | .sendMessage => 3
  | .readThanks => 4
  | .closed => 5

/-- How far both programs are. -/
def rank (s : Dialogue) : ℕ :=
  s.server.rank + s.client.rank

/-- The answers that the client still asks its user for. -/
def ClientPc.answers : ClientPc → ℕ
  | .readGreeting => 2
  | .sendName => 2
  | .readWelcome => 1
  | .sendMessage => 1
  | _ => 0

/-- The invariant of a dialogue: where one of the programs waits for the other, a text is on its
way, and the user still has all lines that are asked for. -/
structure Alive (s : Dialogue) : Prop where
  greet : s.server = .greet → s.client = .readGreeting ∧ s.toClient = []
  unnamed : s.client.rank ≤ 1 → s.toServer = [] ∧ s.server.rank ≤ 1
  greeting : s.server = .readName → s.client = .readGreeting → s.toClient ≠ []
  name : s.server = .readName → 2 ≤ s.client.rank → s.toServer ≠ []
  welcome : s.server = .readMessage → s.client = .readWelcome → s.toClient ≠ []
  message : s.server = .readMessage → s.client = .readThanks → s.toClient ≠ [] ∨ s.toServer ≠ []
  nul : s.client ≠ .closed → 0 ∉ s.stdin
  lines : s.client.answers ≤ s.stdin.count 10

section Alive

variable {s s' : Dialogue} {a : Party × ℕ}

theorem rank_le (s : Dialogue) : rank s ≤ 10 := by
  have hserver : s.server.rank ≤ 5 := by cases s.server <;> decide
  have hclient : s.client.rank ≤ 5 := by cases s.client <;> decide
  rw [rank]
  omega

/-- Each step brings one of the programs further. -/
theorem rank_lt (h : next s a = some s') : rank s < rank s' := by
  have hserver : ∀ pc : ServerPc, pc ≠ .closed → pc.rank < 5 := by
    intro pc hpc
    cases pc <;> first | decide | exact absurd rfl hpc
  have hclient : ∀ pc : ClientPc, pc ≠ .closed → pc.rank < 5 := by
    intro pc hpc
    cases pc <;> first | decide | exact absurd rfl hpc
  obtain ⟨_ | _, k⟩ := a
  · obtain ⟨text, pc, hpc, rfl⟩ | ⟨bs, rest, pc, hpc, -, -, rfl⟩ | ⟨hpc, -, rfl⟩ :=
      serverStep_cases h
    · simp only [List.mem_cons, Prod.mk.injEq, List.not_mem_nil, or_false] at hpc
      rcases hpc with ⟨hpc, rfl⟩ | ⟨hpc, rfl⟩ | ⟨hpc, rfl⟩ <;> simp [rank, hpc, ServerPc.rank]
    · simp only [List.mem_cons, Prod.mk.injEq, List.not_mem_nil, or_false] at hpc
      rcases hpc with ⟨hpc, rfl⟩ | ⟨hpc, rfl⟩ <;> simp [rank, hpc, ServerPc.rank]
    · exact Nat.add_lt_add_right (hserver _ hpc) _
  · obtain ⟨text, rest, pc, hpc, -, rfl⟩ | ⟨bs, rest, pc, hpc, -, -, rfl⟩ |
      ⟨hpc, -, buffer, stdin, rfl⟩ := clientStep_cases h
    · simp only [List.mem_cons, Prod.mk.injEq, List.not_mem_nil, or_false] at hpc
      rcases hpc with ⟨hpc, rfl⟩ | ⟨hpc, rfl⟩ <;> simp [rank, hpc, ClientPc.rank]
    · simp only [List.mem_cons, Prod.mk.injEq, List.not_mem_nil, or_false] at hpc
      rcases hpc with ⟨hpc, rfl⟩ | ⟨hpc, rfl⟩ | ⟨hpc, rfl⟩ <;> simp [rank, hpc, ClientPc.rank]
    · exact Nat.add_lt_add_left (hclient _ hpc) _

theorem count_lineOf_le : (n : ℕ) → (cs : List Byte) → (lineOf n cs).count 10 ≤ 1
  | 0, _ => Nat.zero_le 1
  | _ + 1, [] => Nat.zero_le 1
  | n + 1, c :: cs => by
      have ih := count_lineOf_le n cs
      rw [lineOf]
      split_ifs with hc <;> simp [hc, ih]

theorem isPrefix_lineOf : (n : ℕ) → (cs : List Byte) → lineOf n cs <+: cs
  | 0, cs => List.nil_prefix
  | _ + 1, [] => List.nil_prefix
  | n + 1, c :: cs => by
      rw [lineOf]
      split_ifs
      · exact ⟨cs, rfl⟩
      · exact (List.prefix_cons_inj c).mpr (isPrefix_lineOf n cs)

/-- What `fgets` leaves of the input. -/
theorem fgets_spec {n : ℕ} {stdin line rest : List Byte}
    (h : fgets n stdin = some (line, rest)) :
    stdin = line ++ rest ∧ line.count 10 ≤ 1 := by
  rw [fgets] at h
  split_ifs at h
  obtain ⟨rfl, rfl⟩ := Prod.mk.inj (Option.some.inj h)
  refine ⟨?_, count_lineOf_le _ _⟩
  conv_lhs => rw [← List.take_append_drop (lineOf (n - 1) stdin).length stdin]
  rw [← List.prefix_iff_eq_take.mp (isPrefix_lineOf (n - 1) stdin)]

/-- An answer takes at most one line off the input. -/
theorem answer_spec {buffer stdin text rest : List Byte} (hnul : 0 ∉ stdin)
    (h : answer buffer stdin = some (text, rest)) :
    0 ∉ rest ∧ stdin.count 10 ≤ rest.count 10 + 1 := by
  cases hline : fgets bufferSize stdin with
  | none =>
    simp only [answer, hline, Option.ite_none_left_eq_some, Option.some_inj, Prod.mk.injEq] at h
    obtain ⟨-, -, rfl⟩ := h
    exact ⟨hnul, Nat.le_succ _⟩
  | some result =>
    obtain ⟨line, rest'⟩ := result
    simp only [answer, hline, Option.ite_none_left_eq_some, Option.some_inj, Prod.mk.injEq] at h
    obtain ⟨-, -, rfl⟩ := h
    obtain ⟨rfl, hcount⟩ := fgets_spec hline
    rw [List.count_append]
    exact ⟨fun hmem => hnul (List.mem_append_right _ hmem), by omega⟩

/-- The user of a program that still has lines can answer. -/
theorem exists_answer {buffer stdin : List Byte} (hnul : 0 ∉ stdin) (hlines : 1 ≤ stdin.count 10) :
    ∃ text rest, answer buffer stdin = some (text, rest) := by
  cases stdin with
  | nil => simp at hlines
  | cons c cs =>
    have hc : c ≠ 0 := fun h => hnul (h ▸ List.mem_cons_self)
    obtain ⟨line, hline⟩ : ∃ line, lineOf (bufferSize - 1) (c :: cs) = c :: line := by
      rw [bufferSize, lineOf]
      split_ifs
      · exact ⟨[], rfl⟩
      · exact ⟨_, rfl⟩
    have hne : cstr (c :: line) ≠ [] := by
      simp [cstr, hc]
    simp only [answer, fgets, hline, if_neg hne, reduceCtorEq, if_false]
    exact ⟨_, _, rfl⟩

/-- The step of a server keeps the invariant. -/
theorem Alive.serverStep {k : ℕ} (hs : Alive s) (h : serverStep s k = some s') : Alive s' := by
  obtain ⟨hgreet, hunnamed, hgreeting, hname, hwelcome, hmessage, hnul, hlines⟩ := hs
  obtain ⟨text, pc, hpc, rfl⟩ | ⟨bs, rest, pc, hpc, hbs, hstream, rfl⟩ | ⟨hpc, hclosed, rfl⟩ :=
    serverStep_cases h
  · simp only [List.mem_cons, Prod.mk.injEq, List.not_mem_nil, or_false] at hpc
    rcases hpc with ⟨hpc, rfl⟩ | ⟨hpc, rfl⟩ | ⟨hpc, rfl⟩
    all_goals constructor <;> simp_all [ServerPc.rank, ClientPc.rank, packet]
  · simp only [List.mem_cons, Prod.mk.injEq, List.not_mem_nil, or_false] at hpc
    rcases hpc with ⟨hpc, rfl⟩ | ⟨hpc, rfl⟩
    all_goals constructor <;> simp_all [ServerPc.rank, ClientPc.rank]
  · constructor <;> simp_all [ServerPc.rank, ClientPc.rank]

/-- The step of a client keeps the invariant. -/
theorem Alive.clientStep {k : ℕ} (hs : Alive s) (h : clientStep s k = some s') : Alive s' := by
  obtain ⟨hgreet, hunnamed, hgreeting, hname, hwelcome, hmessage, hnul, hlines⟩ := hs
  obtain ⟨text, rest, pc, hpc, htext, rfl⟩ | ⟨bs, rest, pc, hpc, hbs, hstream, rfl⟩ |
    ⟨hpc, hclosed, buffer, stdin, rfl⟩ := clientStep_cases h
  · have hrest := answer_spec (hnul fun hclosed => by simp [hclosed] at hpc) htext
    simp only [List.mem_cons, Prod.mk.injEq, List.not_mem_nil, or_false] at hpc
    rcases hpc with ⟨hpc, rfl⟩ | ⟨hpc, rfl⟩
    · constructor <;> simp_all [ServerPc.rank, ClientPc.rank, ClientPc.answers, packet]
      -- the server has not read the name yet
      · exact fun hmessage => absurd hunnamed.2 (by simp [hmessage])
      · exact List.count_pos_iff.mp (by omega)
    · constructor <;> simp_all [ServerPc.rank, ClientPc.rank, ClientPc.answers, packet]
  · simp only [List.mem_cons, Prod.mk.injEq, List.not_mem_nil, or_false] at hpc
    rcases hpc with ⟨hpc, rfl⟩ | ⟨hpc, rfl⟩ | ⟨hpc, rfl⟩
    all_goals constructor <;> simp_all [ServerPc.rank, ClientPc.rank, ClientPc.answers]
  · constructor <;> simp_all [ServerPc.rank, ClientPc.rank, ClientPc.answers]

theorem Alive.next (hs : Alive s) (h : next s a = some s') : Alive s' := by
  obtain ⟨_ | _, k⟩ := a
  · exact hs.serverStep h
  · exact hs.clientStep h

theorem alive_start {stdin : List Byte} (hnul : 0 ∉ stdin) (hlines : 2 ≤ stdin.count 10) :
    Alive (start stdin) := by
  constructor <;> simp [start, ServerPc.rank, ClientPc.answers, hnul, hlines]

/-- Each `read` takes as much as there is, up to the size of the buffer. -/
def whole (s : Dialogue) : Party × ℕ → Prop
  | (.server, k) =>
    s.server = .readName ∨ s.server = .readMessage → k = min bufferSize s.toServer.length
  | (.client, k) =>
    s.client = .readGreeting ∨ s.client = .readWelcome ∨ s.client = .readThanks →
      k = min bufferSize s.toClient.length

/-- A `read` of all that is there does not block if there is something. -/
theorem exists_readStream {stream : List Byte} {closed : Bool} (h : stream ≠ [] ∨ closed = true) :
    ∃ bs, readStream stream closed (min bufferSize stream.length) = some bs := by
  rw [readStream]
  split_ifs with hclosed hk
  · exact ⟨_, rfl⟩
  · exact ⟨_, rfl⟩
  · have hne : stream ≠ [] := h.resolve_right fun htrue => hclosed ⟨htrue, by
      by_contra hnot
      exact hk ⟨Nat.pos_of_ne_zero fun h0 => hnot (.inr h0), Nat.le_refl _⟩⟩
    have hpos := List.length_pos_iff.mpr hne
    exact absurd ⟨by rw [bufferSize]; omega, Nat.le_refl _⟩ hk

/-- The server goes on unless it waits for the client. -/
theorem exists_serverStep (hopen : s.server ≠ .closed)
    (hread : s.server = .readName ∨ s.server = .readMessage →
      s.toServer ≠ [] ∨ s.client = .closed) :
    ∃ s', Simple.serverStep s (min bufferSize s.toServer.length) = some s' := by
  unfold Simple.serverStep
  split
  case h_6 hpc => exact absurd hpc hopen
  case h_2 hpc | h_4 hpc =>
    obtain ⟨bs, hbs⟩ := @exists_readStream s.toServer (decide (s.client = .closed))
      (by simpa using hread (by simp [hpc]))
    exact ⟨_, Option.map_eq_some_iff.mpr ⟨bs, hbs, rfl⟩⟩
  all_goals exact ⟨_, rfl⟩

/-- The client goes on unless it waits for the server. -/
theorem Alive.exists_clientStep (hs : Alive s) (hopen : s.client ≠ .closed)
    (hread : s.client = .readGreeting ∨ s.client = .readWelcome ∨ s.client = .readThanks →
      s.toClient ≠ [] ∨ s.server = .closed) :
    ∃ s', Simple.clientStep s (min bufferSize s.toClient.length) = some s' := by
  have hlines := hs.lines
  unfold Simple.clientStep
  split
  case h_6 hpc => exact absurd hpc hopen
  case h_2 hpc | h_4 hpc =>
    obtain ⟨text, rest, htext⟩ := @exists_answer s.clientBuffer s.stdin (hs.nul hopen)
      (by simp only [hpc, ClientPc.answers] at hlines; omega)
    exact ⟨_, Option.map_eq_some_iff.mpr ⟨_, htext, rfl⟩⟩
  all_goals
    obtain ⟨bs, hbs⟩ := @exists_readStream s.toClient (decide (s.server = .closed))
      (by simpa using hread (by simp [*]))
    exact ⟨_, Option.map_eq_some_iff.mpr ⟨bs, hbs, rfl⟩⟩

/-- A dialogue goes on until both sides have closed the connection. -/
theorem Alive.exists_step (hs : Alive s) (hopen : ¬(s.server = .closed ∧ s.client = .closed)) :
    ∃ a s', whole s a ∧ ofFunction Simple.next s a s' := by
  by_cases hserver : s.server ≠ .closed ∧ (s.server = .readName ∨ s.server = .readMessage →
      s.toServer ≠ [] ∨ s.client = .closed)
  · obtain ⟨s', hstep⟩ := exists_serverStep hserver.1 hserver.2
    exact ⟨(.server, _), s', fun _ => rfl, hstep⟩
  · -- the server has ended, or it waits for the client
    have hclient : s.client ≠ .closed := fun hclosed =>
      hserver ⟨fun h => hopen ⟨h, hclosed⟩, fun _ => .inr hclosed⟩
    obtain ⟨s', hstep⟩ := hs.exists_clientStep hclient fun hread => by
      by_cases hclosed : s.server = .closed
      · exact .inr hclosed
      · simp only [ne_eq, hclosed, not_false_eq_true, true_and, hclient, or_false,
          Classical.not_imp, not_not] at hserver
        obtain ⟨hwaits, hempty⟩ := hserver
        obtain ⟨-, hunnamed, hgreeting, hname, hwelcome, hmessage, -, -⟩ := hs
        rcases hwaits with hwaits | hwaits <;> rcases hread with hread | hread | hread <;>
          simp_all [ServerPc.rank, ClientPc.rank]
    exact ⟨(.client, _), s', fun _ => rfl, hstep⟩

/-- **No dialogue gets stuck.** The user of the client has two lines without NUL. Whatever parts the
`read`s take of the texts, and whatever calls fail because the other side has closed the connection:
a dialogue has at most ten system calls, it is over exactly when both sides have closed the
connection, and until then it can be continued. -/
theorem dialogue_ends {stdin : List Byte} (hnul : 0 ∉ stdin) (hlines : 2 ≤ stdin.count 10)
    {acts : List (Party × ℕ)} (h : Trace (ofFunction Simple.next) free (start stdin) acts s) :
    acts.length ≤ 10 ∧
      ((∀ a, Simple.next s a = none) ↔ s.server = .closed ∧ s.client = .closed) ∧
      ∃ acts' s', Trace (ofFunction Simple.next) free (start stdin) (acts ++ acts') s' ∧
        s'.server = .closed ∧ s'.client = .closed := by
  have hs : Alive s := h.invariant (p := fun _ s => Alive s) (alive_start hnul hlines)
    fun hs _ hstep => hs.next hstep
  have hprogress : ∀ {s}, Alive s → ¬(s.server = .closed ∧ s.client = .closed) →
      ∃ a s', free s a ∧ ofFunction Simple.next s a s' := fun hs hopen => by
    obtain ⟨a, s', -, hstep⟩ := hs.exists_step hopen
    exact ⟨a, s', trivial, hstep⟩
  obtain ⟨hlen, hend⟩ := h.exists_done rank (fun _ => rank_le _) (alive_start hnul hlines)
    (fun hs _ hstep => hs.next hstep) (fun _ hstep => rank_lt hstep) hprogress
  refine ⟨hlen, ⟨fun hstuck => ?_, ?_⟩, hend⟩
  · by_contra hopen
    obtain ⟨a, s', -, hstep⟩ := hs.exists_step hopen
    exact absurd ((hstuck a).symm.trans hstep) (Option.some_ne_none s').symm
  · rintro ⟨hserver, hclient⟩ ⟨_ | _, k⟩
    · rw [Simple.next, Simple.serverStep, hserver]
    · rw [Simple.next, Simple.clientStep, hclient]

/-- A dialogue in which the client has got the first byte of the greeting. -/
theorem dialogue_ends_bob : ∃ acts' s', Trace (ofFunction Simple.next) free
    (start (str "bob\nhello\n")) ([(.server, 0), (.client, 1)] ++ acts') s' ∧
      s'.server = .closed ∧ s'.client = .closed :=
  (dialogue_ends (by decide) (by decide)
    (.snoc (.snoc .nil trivial
      (rfl : Simple.next (start (str "bob\nhello\n")) (.server, 0) = some _))
      trivial (rfl : Simple.next _ (.client, 1) = some _))).2.2

end Alive

/-! ### Dialogues in order -/

/-- The string that one `read` takes off the connection. -/
theorem received_take_packet {text : List Byte} (hnul : 0 ∉ text) :
    received ((packet text).take bufferSize) = text.take (bufferSize - 1) := by
  have htake : 0 ∉ text.take (bufferSize - 1) := fun h => hnul (List.mem_of_mem_take h)
  have hrest : cstr (([0] : List Byte).take (bufferSize - 1 - text.length)) = [] := by
    cases bufferSize - 1 - text.length <;> rfl
  rw [received, packet, List.take_take, Nat.min_eq_left (by decide), List.take_append,
    cstr_append_of_notMem htake, hrest, List.append_nil]

theorem lineOf_append (rest : List Byte) : {line : List Byte} → {n : ℕ} → 10 ∉ line →
    line.length < n → lineOf n (line ++ 10 :: rest) = line ++ [10]
  | [], n + 1, _, _ => by
      rw [List.nil_append, lineOf, if_pos rfl, List.nil_append]
  | c :: line, n + 1, hline, hlen => by
      have hc : c ≠ 10 := fun h => hline (h ▸ List.mem_cons_self)
      have ih := lineOf_append rest (fun h => hline (List.mem_cons_of_mem c h))
        (Nat.lt_of_succ_lt_succ hlen)
      rw [List.cons_append, lineOf, if_neg hc, ih, List.cons_append]

/-- The answer is the line of the user. -/
theorem answer_line {line : List Byte} (hnul : 0 ∉ line) (hline : 10 ∉ line)
    (hlen : line.length < bufferSize - 1) (buffer rest : List Byte) :
    answer buffer (line ++ 10 :: rest) = some (line, rest) := by
  have hcstr : cstr (line ++ [10]) = line ++ [10] := cstr_of_notMem (by simpa using hnul)
  have hne : line ++ 10 :: rest ≠ [] := by simp
  have hdrop : (line ++ 10 :: rest).drop (line ++ [10]).length = rest := by simp
  have hne' : line ++ [10] ≠ [] := by simp
  rw [answer, fgets, if_neg hne, lineOf_append rest hline hlen, hdrop]
  simp only [hcstr, if_neg hne', List.dropLast_concat]

theorem readStream_nil (k : ℕ) : readStream [] false k = none := by
  rw [readStream, if_neg (by simp), if_neg]
  rw [List.length_nil, Nat.min_zero]
  omega

/-- A `read` of all of a packet, or of the start of a long one. -/
theorem readStream_packet (text : List Byte) (closed : Bool) :
    readStream (packet text) closed (min bufferSize (packet text).length) =
      some ((packet text).take bufferSize, (packet text).drop bufferSize) := by
  have hlen : 0 < (packet text).length := by simp [packet]
  have hne : packet text ≠ [] := List.length_pos_iff.mp hlen
  have hk : 0 < min bufferSize (packet text).length := Nat.lt_min.mpr ⟨by decide, hlen⟩
  rw [readStream, if_neg (by simp [hne, hk.ne']), if_pos ⟨hk, Nat.le_refl _⟩]
  rcases Nat.le_total bufferSize (packet text).length with hle | hle
  · rw [Nat.min_eq_left hle]
  · rw [Nat.min_eq_right hle, List.take_of_length_le hle, List.take_length,
      List.drop_of_length_le hle, List.drop_length]

theorem take_packet_ne_nil (text : List Byte) : (packet text).take bufferSize ≠ [] := by
  simp [packet, bufferSize]

section Read

variable {s : Dialogue} {text : List Byte}

/-- The server takes a packet. -/
theorem serverRead_packet (hs : s.toServer = packet text) (hnul : 0 ∉ text) (pc : ServerPc) :
    serverRead s (min bufferSize s.toServer.length) pc = some { s with
      toServer := (packet text).drop bufferSize
      serverBuffer := text.take (bufferSize - 1)
      serverSays := s.serverSays ++ [text.take (bufferSize - 1)]
      server := pc } := by
  rw [serverRead, hs, readStream_packet, Option.map_some]
  simp only [if_neg (take_packet_ne_nil text), received_take_packet hnul]

/-- The client takes a packet. -/
theorem clientRead_packet (hs : s.toClient = packet text) (hnul : 0 ∉ text) (pc : ClientPc) :
    clientRead s (min bufferSize s.toClient.length) pc = some { s with
      toClient := (packet text).drop bufferSize
      clientBuffer := text.take (bufferSize - 1)
      clientSays := s.clientSays ++ [text.take (bufferSize - 1)]
      client := pc } := by
  rw [clientRead, hs, readStream_packet, Option.map_some]
  simp only [if_neg (take_packet_ne_nil text), received_take_packet hnul]

theorem take_of_lt (h : text.length < bufferSize) : text.take (bufferSize - 1) = text :=
  List.take_of_length_le (by omega)

theorem drop_packet_of_lt (h : text.length < bufferSize) : (packet text).drop bufferSize = [] :=
  List.drop_of_length_le (by rw [packet, List.length_append, List.length_singleton]; omega)

end Read

section Turn

variable (name message rest : List Byte)

/-- The states of a dialogue in which each side gets the texts of the other as they are. -/
def turn (i : ℕ) : Dialogue :=
  let s := start (name ++ 10 :: (message ++ 10 :: rest))
  match i with
  | 0 => s
  | 1 => { s with server := .readName, toClient := packet greeting }
  | 2 => { s with
      server := .readName
      client := .sendName
      clientBuffer := greeting
      clientSays := [greeting] }
  | 3 => { s with
      server := .readName
      client := .readWelcome
      toServer := packet name
      stdin := message ++ 10 :: rest
      clientBuffer := name
      clientSays := [greeting] }
  | 4 => { s with
      server := .welcome
      client := .readWelcome
      stdin := message ++ 10 :: rest
      serverBuffer := name
      clientBuffer := name
      serverSays := [name]
      clientSays := [greeting] }
  | 5 => { s with
      server := .readMessage
      client := .readWelcome
      toClient := packet (welcome name)
      stdin := message ++ 10 :: rest
      serverBuffer := name
      clientBuffer := name
      serverSays := [name]
      clientSays := [greeting] }
  | 6 => { s with
      server := .readMessage
      client := .sendMessage
      stdin := message ++ 10 :: rest
      serverBuffer := name
      clientBuffer := welcome name
      serverSays := [name]
      clientSays := [greeting, welcome name] }
  | 7 => { s with
      server := .readMessage
      client := .readThanks
      toServer := packet message
      stdin := rest
      serverBuffer := name
      clientBuffer := message
      serverSays := [name]
      clientSays := [greeting, welcome name] }
  | 8 => { s with
      server := .thank
      client := .readThanks
      stdin := rest
      serverBuffer := message
      clientBuffer := message
      serverSays := [name, message]
      clientSays := [greeting, welcome name] }
  | 9 => { s with
      server := .closed
      client := .readThanks
      toClient := packet thanks
      stdin := rest
      serverBuffer := message
      clientBuffer := message
      serverSays := [name, message]
      clientSays := [greeting, welcome name] }
  | _ => { s with
      server := .closed
      client := .closed
      stdin := rest
      serverBuffer := message
      clientBuffer := thanks
      serverSays := [name, message]
      clientSays := [greeting, welcome name, thanks] }

variable {name message rest}

/-- The lines of the user: a name and a message that fit into the buffer. -/
structure Lines (name message : List Byte) : Prop where
  nulName : 0 ∉ name
  lineName : 10 ∉ name
  lengthName : name.length < bufferSize - 1
  nulMessage : 0 ∉ message
  lineMessage : 10 ∉ message
  lengthMessage : message.length < bufferSize - 1

theorem zero_notMem_welcome (hname : 0 ∉ name) : 0 ∉ welcome name := by
  have hbefore : 0 ∉ str "Hi " := by decide +kernel
  have hafter : 0 ∉ str ". What's your message?" := by decide +kernel
  refine fun hmem => ?_
  rcases List.mem_append.mp (List.mem_of_mem_take hmem) with hmem | hmem
  · rcases List.mem_append.mp hmem with hmem | hmem
    · exact hbefore hmem
    · exact hname hmem
  · exact hafter hmem

theorem length_welcome (hname : name.length < bufferSize) :
    (welcome name).length = name.length + 25 := by
  have hbefore : (str "Hi ").length = 3 := by decide +kernel
  have hafter : (str ". What's your message?").length = 22 := by decide +kernel
  rw [welcome, List.length_take, List.length_append, List.length_append, hbefore, hafter]
  rw [bufferSize] at hname
  omega

/-- Until the client hears what the server has made of the name, only one program can take a
step. -/
theorem eq_turn_of_next {i : ℕ} {a : Party × ℕ} {s' : Dialogue} (hlines : Lines name message)
    (hi : i ≤ 4) (ha : whole (turn name message rest i) a)
    (h : next (turn name message rest i) a = some s') : s' = turn name message rest (i + 1) := by
  have hgreeting0 : 0 ∉ greeting := by decide +kernel
  have hgreeting : greeting.length < bufferSize := by decide +kernel
  have hname : name.length < bufferSize := Nat.lt_of_lt_pred hlines.lengthName
  have hanswer := answer_line hlines.nulName hlines.lineName hlines.lengthName
  interval_cases i <;> obtain ⟨_ | _, k⟩ := a
  · simpa [next, turn, serverStep, start, serverWrite, eq_comm] using h
  · simp [next, turn, clientStep, start, clientRead, readStream_nil] at h
  · simp [next, turn, serverStep, start, serverRead, readStream_nil] at h
  · obtain rfl := ha (by simp [turn, start])
    simp only [next, turn, clientStep, start] at h
    rw [clientRead_packet rfl hgreeting0] at h
    rw [← Option.some.inj h, take_of_lt hgreeting, drop_packet_of_lt hgreeting]
    rfl
  · simp [next, turn, serverStep, start, serverRead, readStream_nil] at h
  · simpa [next, turn, clientStep, start, clientSend, hanswer, eq_comm] using h
  · obtain rfl := ha (by simp [turn, start])
    simp only [next, turn, serverStep, start] at h
    rw [serverRead_packet rfl hlines.nulName] at h
    rw [← Option.some.inj h, take_of_lt hname, drop_packet_of_lt hname]
    rfl
  · simp [next, turn, clientStep, start, clientRead, readStream_nil] at h
  · simpa [next, turn, serverStep, start, serverWrite, eq_comm] using h
  · simp [next, turn, clientStep, start, clientRead, readStream_nil] at h

/-- The same holds up to the end if the second text of the server fits into the buffer. -/
theorem eq_turn_of_next_of_le {i : ℕ} {a : Party × ℕ} {s' : Dialogue} (hlines : Lines name message)
    (hlen : name.length ≤ 230) (hi : i ≤ 10) (ha : whole (turn name message rest i) a)
    (h : next (turn name message rest i) a = some s') :
    i ≤ 9 ∧ s' = turn name message rest (i + 1) := by
  rcases Nat.lt_or_ge 4 i with hi' | hi'
  · have hthanks0 : 0 ∉ thanks := by decide +kernel
    have hthanks : thanks.length < bufferSize := by decide +kernel
    have hwelcome0 := zero_notMem_welcome hlines.nulName
    have hwelcome : (welcome name).length < bufferSize := by
      rw [length_welcome (Nat.lt_of_lt_pred hlines.lengthName), bufferSize]
      omega
    have hmessage : message.length < bufferSize := Nat.lt_of_lt_pred hlines.lengthMessage
    have hanswer := answer_line hlines.nulMessage hlines.lineMessage hlines.lengthMessage
    interval_cases i <;> obtain ⟨_ | _, k⟩ := a
    · simp [next, turn, serverStep, start, serverRead, readStream_nil] at h
    · obtain rfl := ha (by simp [turn, start])
      simp only [next, turn, clientStep, start] at h
      rw [clientRead_packet rfl hwelcome0] at h
      rw [← Option.some.inj h, take_of_lt hwelcome, drop_packet_of_lt hwelcome]
      exact ⟨by decide, rfl⟩
    · simp [next, turn, serverStep, start, serverRead, readStream_nil] at h
    · simpa [next, turn, clientStep, start, clientSend, hanswer, eq_comm] using h
    · obtain rfl := ha (by simp [turn, start])
      simp only [next, turn, serverStep, start] at h
      rw [serverRead_packet rfl hlines.nulMessage] at h
      rw [← Option.some.inj h, take_of_lt hmessage, drop_packet_of_lt hmessage]
      exact ⟨by decide, rfl⟩
    · simp [next, turn, clientStep, start, clientRead, readStream_nil] at h
    · simpa [next, turn, serverStep, start, serverWrite, eq_comm] using h
    · simp [next, turn, clientStep, start, clientRead, readStream_nil] at h
    · simp [next, turn, serverStep, start] at h
    · obtain rfl := ha (by simp [turn, start])
      simp only [next, turn, clientStep, start] at h
      rw [clientRead_packet rfl hthanks0] at h
      rw [← Option.some.inj h, take_of_lt hthanks, drop_packet_of_lt hthanks]
      exact ⟨by decide, rfl⟩
    · simp [next, turn, serverStep, start] at h
    · simp [next, turn, clientStep, start] at h
  · exact ⟨by omega, eq_turn_of_next hlines hi' ha h⟩

/-- What the client has printed stays. -/
theorem clientSays_mono {s s' : Dialogue} {a : Party × ℕ} (h : next s a = some s') :
    s.clientSays <+: s'.clientSays := by
  obtain ⟨_ | _, k⟩ := a
  · obtain ⟨text, pc, -, rfl⟩ | ⟨bs, rest, pc, -, -, -, rfl⟩ | ⟨-, -, rfl⟩ := serverStep_cases h
    all_goals exact List.prefix_rfl
  · obtain ⟨text, rest, pc, -, -, rfl⟩ | ⟨bs, rest, pc, -, -, -, rfl⟩ |
      ⟨-, -, buffer, stdin, rfl⟩ := clientStep_cases h
    · exact List.prefix_rfl
    · exact List.prefix_append _ _
    · exact List.prefix_rfl

section Whole

variable {acts : List (Party × ℕ)} {s : Dialogue}

/-- A dialogue is in order until the client hears as much of the second text as fits into its
buffer. -/
theorem turn_or_cut (hlines : Lines name message)
    (h : Trace (ofFunction next) whole (turn name message rest 0) acts s) :
    (∃ i ≤ 5, s = turn name message rest i) ∨
      [greeting, (welcome name).take (bufferSize - 1)] <+: s.clientSays := by
  refine h.invariant (p := fun _ s => (∃ i ≤ 5, s = turn name message rest i) ∨
    [greeting, (welcome name).take (bufferSize - 1)] <+: s.clientSays)
    (.inl ⟨0, Nat.zero_le 5, rfl⟩) ?_
  rintro - s a s' (⟨i, hi, rfl⟩ | hsaid) ha hstep
  · rcases Nat.lt_or_ge i 5 with hlt | hge
    · exact .inl ⟨i + 1, hlt, eq_turn_of_next hlines (Nat.le_of_lt_succ hlt) ha hstep⟩
    · obtain rfl : i = 5 := Nat.le_antisymm hi hge
      obtain ⟨_ | _, k⟩ := a
      · simp [ofFunction, next, turn, serverStep, start, serverRead, readStream_nil] at hstep
      · obtain rfl := ha (by simp [turn, start])
        simp only [ofFunction, next, turn, clientStep, start] at hstep
        rw [clientRead_packet rfl (zero_notMem_welcome hlines.nulName)] at hstep
        rw [← Option.some.inj hstep]
        exact .inr List.prefix_rfl
  · exact .inr (hsaid.trans (clientSays_mono hstep))

/-- A dialogue in which the second text fits is in order. -/
theorem exists_turn (hlines : Lines name message) (hlen : name.length ≤ 230)
    (h : Trace (ofFunction next) whole (turn name message rest 0) acts s) :
    ∃ i ≤ 10, s = turn name message rest i := by
  refine h.invariant (p := fun _ s => ∃ i ≤ 10, s = turn name message rest i)
    ⟨0, Nat.zero_le 10, rfl⟩ ?_
  rintro - s a s' ⟨i, hi, rfl⟩ ha hstep
  obtain ⟨hi', rfl⟩ := eq_turn_of_next_of_le hlines hlen hi ha hstep
  exact ⟨i + 1, Nat.succ_le_succ hi', rfl⟩

/-- **When the texts come through.** The user of the client enters a name and a message, and each
`read` takes all that has been written. Both sides print the texts of the other as they are in every
dialogue that is over if and only if the name has at most 230 bytes. -/
theorem dialogue_right_iff (hlines : Lines name message) (hrest : 0 ∉ rest) :
    (∀ acts s, Trace (ofFunction next) whole
        (start (name ++ 10 :: (message ++ 10 :: rest))) acts s →
      s.server = .closed → s.client = .closed →
      s.serverSays = [name, message] ∧ s.clientSays = [greeting, welcome name, thanks]) ↔
    name.length ≤ 230 := by
  constructor
  · intro hright
    have halive : Alive (start (name ++ 10 :: (message ++ 10 :: rest))) :=
      alive_start (by simp [hlines.nulName, hlines.nulMessage, hrest])
        (by simp; omega)
    have hnil : Trace (ofFunction next) whole (start (name ++ 10 :: (message ++ 10 :: rest))) []
      (start (name ++ 10 :: (message ++ 10 :: rest))) := .nil
    obtain ⟨-, acts, s, htrace, hserver, hclient⟩ := hnil.exists_done rank
      (fun _ => rank_le _) halive (fun hs _ hstep => hs.next hstep) (fun _ hstep => rank_lt hstep)
      Alive.exists_step
    obtain ⟨-, hsaid⟩ := hright acts s htrace hserver hclient
    obtain ⟨i, hi, rfl⟩ | hpre := turn_or_cut hlines htrace
    · interval_cases i <;> simp [turn, start] at hclient
    · rw [hsaid, List.cons_prefix_cons, List.cons_prefix_cons] at hpre
      have hlen := congrArg List.length hpre.2.1
      rw [List.length_take, length_welcome (Nat.lt_of_lt_pred hlines.lengthName),
        bufferSize] at hlen
      omega
  · intro hlen acts s htrace hserver hclient
    obtain ⟨i, hi, rfl⟩ := exists_turn hlines hlen htrace
    interval_cases i <;> simp [turn, start] at hserver hclient ⊢

/-- A user who is called Bob. -/
theorem dialogue_right_iff_bob : (str "Bob").length ≤ 230 ∧
    ∀ acts s, Trace (ofFunction next) whole
        (start (str "Bob" ++ 10 :: (str "hello" ++ 10 :: []))) acts s →
      s.server = .closed → s.client = .closed →
      s.serverSays = [str "Bob", str "hello"] ∧
        s.clientSays = [greeting, welcome (str "Bob"), thanks] := by
  have hlen : (str "Bob").length ≤ 230 := by decide
  exact ⟨hlen, (dialogue_right_iff (by constructor <;> decide +kernel) (by decide)).mpr hlen⟩

end Whole

end Turn

end TikFachpraktika.Chat.Simple
