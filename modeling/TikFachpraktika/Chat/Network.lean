import TikFachpraktika.Chat.InStep
import TikFachpraktika.Chat.Server.Simulation

/-!
# The server with its clients

The chat server with a client program at the other end of each connection. What the programs write
is on its way to the server until it is read, and what the server has written is on its way to a
program. Each `read` is in step with the other side: the server takes what one `write` has sent, and
a program takes one text with the NULs behind it.

Then the room is what the users see: the lines that they enter are the texts that the room hears,
and their boards show what the room says to them.

## Main definitions

* `nextText`: what a `read` in step takes.
* `Network`, `NetStep`: the server and the programs, and their steps in any order.
* `IsText`: the texts of the server.

## Main results

* `Room.isText_of_heard`: what is said in the room are such texts.
* `board_of_trace`: the boards of the users, and the lines that they have entered.
-/

namespace TikFachpraktika.Chat

open Posix Transition

/-! ### The system -/

/-- The text at the start of a stream, with the NULs behind it. -/
def nextText (stream : List Byte) : List Byte :=
  stream.takeWhile (· ≠ 0) ++ (stream.dropWhile (· ≠ 0)).takeWhile (· = 0)

/-- The server, and for each connection the program at its other end, what this program has written
and the server has not read yet, write by write, and how many bytes it has read. -/
structure Network where
  server : Server
  programs : ℕ → ClientMain
  toServer : ℕ → List (List Byte)
  taken : ℕ → ℕ

/-- A step: a call of a handler of the server, or a pass of the loop of a program. -/
inductive NetAction
  | call (i : ℕ) (inp : Input)
  | pass (i : ℕ) (p : Pass)

namespace Network

variable (net : Network)

/-- The bytes that are on their way to a program. -/
def toClient (i : ℕ) : List Byte :=
  (net.server.sent i).drop (net.taken i)

/-- The system with a new program at connection `i`. -/
def connect (i : ℕ) : Network :=
  { net with
    programs := Function.update net.programs i .start
    toServer := Function.update net.toServer i []
    taken := Function.update net.taken i 0 }

/-- The system after a pass of the program at `i`, which is `c` then. -/
def afterPass (i : ℕ) (p : Pass) (c : ClientMain) : Network :=
  let chunk := c.written.drop (net.programs i).written.length
  { net with
    programs := Function.update net.programs i c
    toServer := Function.update net.toServer i
      (net.toServer i ++ if chunk = [] then [] else [chunk])
    taken := Function.update net.taken i
      (net.taken i + if p.isRead then (p.read.getD []).length else 0) }

/-- No connection besides the listening socket. -/
def start (opened : ℕ → Bool) (lfd : ℕ) : Network where
  server := serverMain opened lfd
  programs := fun _ => .start
  toServer := fun _ => []
  taken := fun _ => 0

end Network

/-- The steps of the system; the listening socket is `lfd`. A program connects, the server reads
what a program has written, it finds a connection without anything to read, or a program takes a
pass of its loop. -/
inductive NetStep (lfd : ℕ) (net : Network) : NetAction → Network → Prop
  | accept {inp : Input} {s : Server} (hcall : handlerStep net.server (lfd, inp) s) :
      NetStep lfd net (.call lfd inp)
        { inp.accept.elim net (fun conn => net.connect conn.1) with server := s }
  | receive {i : ℕ} {inp : Input} {s : Server} {chunk : List Byte} {rest : List (List Byte)}
      (hi : i ≠ lfd) (hchunk : net.toServer i = chunk :: rest) (hread : inp.read = some chunk)
      (hcall : handlerStep net.server (i, inp) s) :
      NetStep lfd net (.call i inp)
        { net with server := s, toServer := Function.update net.toServer i rest }
  | nothing {i : ℕ} {inp : Input} {s : Server} (hi : i ≠ lfd) (hread : inp.read.getD [] = [])
      (hcall : handlerStep net.server (i, inp) s) :
      NetStep lfd net (.call i inp) { net with server := s }
  | pass {i : ℕ} {p : Pass} {c : ClientMain}
      (hread : p.isRead = true → p.read = some (nextText (net.toClient i)) ∧
        (nextText (net.toClient i)).length ≤ initQsiz)
      (hpass : (net.programs i).step p = .ok c) :
      NetStep lfd net (.pass i p) (net.afterPass i p c)

/-- The calls among some steps. -/
def callsOf (acts : List NetAction) : List (ℕ × Input) :=
  acts.filterMap fun a =>
    match a with
    | .call i inp => some (i, inp)
    | .pass .. => none

/-- In a call no sender is refused while its own text goes out. -/
def NetAction.Steady (lfd : ℕ) : NetAction → Prop
  | .call i inp => inp.Steady lfd i
  | .pass .. => True

/-! ### Texts of the server -/

/-- A text that the server sends: it has no NUL and does not begin with a newline. -/
structure IsText (text : List Byte) : Prop where
  zero_notMem : (0 : Byte) ∉ text
  ne_nil : text ≠ []
  head_ne : text.head? ≠ some 10

/-- A text on the board, without a newline at its end. -/
def boardLine (text : List Byte) : List Byte :=
  if text.getLast? = some 10 then text.dropLast else text

section Texts

variable {text d : List Byte}

instance (text : List Byte) : Decidable (IsText text) :=
  decidable_of_iff ((0 : Byte) ∉ text ∧ text ≠ [] ∧ text.head? ≠ some 10)
    ⟨fun h => ⟨h.1, h.2.1, h.2.2⟩, fun h => ⟨h.1, h.2, h.3⟩⟩

theorem IsText.append (h : IsText text) (hd : (0 : Byte) ∉ d) : IsText (text ++ d) where
  zero_notMem := by simp [h.zero_notMem, hd]
  ne_nil := by simp [h.ne_nil]
  head_ne := by
    rw [List.head?_append_of_ne_nil _ h.ne_nil]
    exact h.head_ne

theorem IsText.enqueue (h : IsText text) (hd : (0 : Byte) ∉ d) : IsText (enqueue text d) := by
  rw [Chat.enqueue]
  split_ifs
  · exact h.append hd
  · exact h

/-- A frame is the line on the board and one or two NULs. -/
theorem exists_frame_eq (text : List Byte) :
    ∃ n, frame text = boardLine text ++ List.replicate (n + 1) 0 := by
  rw [frame, boardLine]
  split_ifs
  · exact ⟨1, by rw [List.append_assoc]; rfl⟩
  · exact ⟨0, rfl⟩

theorem IsText.zero_notMem_boardLine (h : IsText text) : (0 : Byte) ∉ boardLine text := by
  rw [boardLine]
  split_ifs
  · exact fun h0 => h.zero_notMem (List.mem_of_mem_dropLast h0)
  · exact h.zero_notMem

theorem IsText.exists_boardLine_eq (h : IsText text) :
    ∃ c line, boardLine text = c :: line ∧ c ≠ 0 := by
  obtain ⟨c, line, rfl⟩ := List.exists_cons_of_ne_nil h.ne_nil
  have hc : c ≠ 0 := fun h0 => h.zero_notMem (h0 ▸ List.mem_cons_self)
  rw [boardLine]
  split_ifs with hlast
  · cases line with
    | nil => exact absurd hlast h.head_ne
    | cons d line => exact ⟨c, (d :: line).dropLast, rfl, hc⟩
  · exact ⟨c, line, rfl, hc⟩

theorem IsText.head?_frame_ne (h : IsText text) (rest : List Byte) :
    (frame text ++ rest).head? ≠ some 0 := by
  obtain ⟨n, hframe⟩ := exists_frame_eq text
  obtain ⟨c, line, hline, hc⟩ := h.exists_boardLine_eq
  rw [hframe, hline]
  exact fun h0 => hc (Option.some.inj h0)

/-- **A `read` in step** takes the frame of the next text. -/
theorem IsText.nextText_frame (h : IsText text) {rest : List Byte} (hrest : rest.head? ≠ some 0) :
    nextText (frame text ++ rest) = frame text := by
  obtain ⟨n, hframe⟩ := exists_frame_eq text
  have hline : ∀ b ∈ boardLine text, decide (b ≠ 0) = true := fun b hb => by
    simpa using fun h0 : b = 0 => h.zero_notMem_boardLine (h0 ▸ hb)
  have hzeros : ∀ b ∈ List.replicate (n + 1) (0 : Byte), decide (b = 0) = true := fun b hb => by
    simpa using List.eq_of_mem_replicate hb
  have htail : rest.takeWhile (fun b => decide (b = 0)) = [] := by
    cases rest with
    | nil => rfl
    | cons b rest => exact List.takeWhile_cons_of_neg (by simpa using hrest)
  rw [nextText, hframe, List.append_assoc, List.takeWhile_append_of_pos hline,
    List.dropWhile_append_of_pos hline, List.replicate_succ, List.cons_append,
    List.takeWhile_cons_of_neg (by simp), List.dropWhile_cons_of_neg (by simp), ← List.cons_append,
    ← List.replicate_succ, List.takeWhile_append_of_pos hzeros, htail, List.append_nil,
    List.append_nil]

/-- The string that is posted for a frame is the line on the board. -/
theorem IsText.post_frame (h : IsText text) (hlen : (frame text).length ≤ initQsiz)
    (rbuff : List Byte) : cstr (readInto rbuff (frame text)) = boardLine text := by
  obtain ⟨n, hframe⟩ := exists_frame_eq text
  have hlt : (boardLine text).length < (frame text).length := by
    rw [hframe, List.length_append, List.length_replicate]
    exact Nat.lt_add_of_pos_right (Nat.succ_pos n)
  have hbegin : boardLine text <+: frame text := ⟨_, hframe.symm⟩
  refine (cstr_eq_iff_of_begins h.zero_notMem_boardLine
    (prefix_readInto rbuff hbegin (by omega))).mpr ?_
  rw [getD_readInto]
  split_ifs
  · rfl
  · rw [hframe, List.getD_append_right _ _ _ _ le_rfl, Nat.sub_self]
    rfl

end Texts

/-! ### What is said -/

theorem isText_decimal (b : Byte) : IsText (Server.decimal b) := by
  have hdigit : ∀ n, some (Server.digit n) ≠ some 10 := fun n h => by
    have hnat : (Server.digit n).toNat = (48 + n % 10) % 2 ^ 8 := UInt8.toNat_ofNat'
    have hten : (10 : Byte).toNat = 10 := rfl
    rw [Option.some.inj h, hten] at hnat
    omega
  refine ⟨Server.zero_notMem_decimal b, ?_, ?_⟩
  · rw [Server.decimal]
    split_ifs <;> exact List.cons_ne_nil _ _
  · rw [Server.decimal]
    split_ifs <;> exact hdigit _

theorem isText_inetNtoa (a : InAddr) : IsText (Server.inetNtoa a) := by
  refine (isText_decimal a.b0).append ?_
  simp [Server.zero_notMem_decimal]

theorem IsAlias.isText {name : List Byte} (h : IsAlias name) : IsText name where
  zero_notMem := h.zero_notMem
  ne_nil := h.ne_nil
  head_ne hhead := by
    have hten : (10 : Byte) ∉ aliasAllowedChars := by decide
    exact hten (h.allowed 10 (List.mem_of_head? hhead))

namespace Room

variable {r : Room} {i j k : ℕ} {text name output : List Byte}

/-- How a member is shown is the start of a text. -/
theorem isText_shown (hnames : ∀ i a, (r.members i).bind Member.name = some a → IsAlias a) (i : ℕ) :
    IsText (r.shown i) := by
  rw [shown]
  cases hname : (r.members i).bind Member.name with
  | none => exact isText_inetNtoa _
  | some a => exact (hnames i a hname).isText

theorem isText_whoText (hnames : ∀ i a, (r.members i).bind Member.name = some a → IsAlias a)
    (i : ℕ) : IsText (r.whoText i) := by
  have hhead : IsText (str "<Server who cmd>: ") := by decide +kernel
  have hend : IsText Server.endOfList := by decide +kernel
  have hyou : (0 : Byte) ∉ str " (you)" := by decide +kernel
  have hnewline : (0 : Byte) ∉ str "\n" := by decide +kernel
  have hline : ∀ j, IsText (str "<Server who cmd>: " ++ r.shown j ++
      (if i = j then str " (you)" else []) ++ str "\n") := fun j => by
    refine ((hhead.append (isText_shown hnames j).zero_notMem).append ?_).append hnewline
    split_ifs
    · exact hyou
    · exact List.not_mem_nil
  rw [whoText]
  cases r.present with
  | nil => exact hend
  | cons j js =>
    rw [List.flatMap_cons, List.append_assoc]
    refine (hline j).append ?_
    rw [List.mem_append, List.mem_flatMap]
    rintro (⟨j', -, hzero⟩ | hzero)
    · exact (hline j').zero_notMem hzero
    · exact hend.zero_notMem hzero

theorem isText_nameAnswer (hname : (0 : Byte) ∉ name) (i : ℕ) : IsText (r.nameAnswer i name) := by
  have hok : IsText (str "<Server alias cmd>: OK, alias set to ") := by decide +kernel
  have hdot : (0 : Byte) ∉ str "." := by decide +kernel
  unfold nameAnswer
  split_ifs
  · decide +kernel
  · decide +kernel
  · decide +kernel
  · decide +kernel
  · exact (hok.append hname).append hdot

theorem isText_of_reply (h : IsText text) {t : List Byte}
    (ht : (Said.reply i text).heard k = some t) : IsText t := by
  simp only [Said.heard] at ht
  split_ifs at ht
  rwa [← Option.some.inj ht]

theorem isText_of_message (h : IsText name) (htext : (0 : Byte) ∉ text) {t : List Byte}
    (ht : (Said.message i name text).heard k = some t) : IsText t := by
  have hyou : (0 : Byte) ∉ str " (you) " := by decide +kernel
  have hcolon : (0 : Byte) ∉ str ": " := by decide +kernel
  rw [← Option.some.inj ht]
  refine ((h.append ?_).append hcolon).enqueue htext
  split_ifs
  · exact hyou
  · exact List.not_mem_nil

theorem isText_of_cow (h : IsText name) {t : List Byte}
    (ht : (Said.cow name output).heard k = some t) : IsText t := by
  have hhead : IsText (str "<Server cowsay cmd>:\n") := by decide +kernel
  have hfrom : (0 : Byte) ∉ str "<Server cowsay cmd>: this comes from user " := by decide +kernel
  have hdot : (0 : Byte) ∉ str ".\n" := by decide +kernel
  rw [← Option.some.inj ht]
  exact (((hhead.append (zero_notMem_cstr output)).append hfrom).append h.zero_notMem).append hdot

theorem isText_of_whisper {name' : List Byte} (h : IsText name) (h' : IsText name')
    (htext : (0 : Byte) ∉ text) {t : List Byte}
    (ht : (Said.whisper i j name name' text).heard k = some t) : IsText t := by
  have harrow : (0 : Byte) ∉ str " (-> " := by decide +kernel
  have hclose : (0 : Byte) ∉ str "): " := by decide +kernel
  have hpriv : (0 : Byte) ∉ str " [priv] :" := by decide +kernel
  simp only [Said.heard] at ht
  split_ifs at ht
  · rw [← Option.some.inj ht]
    exact (((h.append harrow).append h'.zero_notMem).append hclose).enqueue htext
  · rw [← Option.some.inj ht]
    exact (h.append hpriv).enqueue htext

/-- What is said when a text comes. -/
theorem isText_of_saidBy (hnames : ∀ i a, (r.members i).bind Member.name = some a → IsAlias a)
    (htext : (0 : Byte) ∉ text) {said : Said} (hsaid : r.saidBy i text output = some said)
    {t : List Byte} (ht : said.heard k = some t) : IsText t := by
  have hdrop : ∀ n, (0 : Byte) ∉ text.drop n := fun n h => htext (List.mem_of_mem_drop h)
  unfold saidBy saidPrivately at hsaid
  cases hcommand : commandOf text with
  | who =>
    rw [hcommand] at hsaid
    rw [← Option.some.inj hsaid] at ht
    exact isText_of_reply (isText_whoText hnames i) ht
  | setAlias =>
    rw [hcommand] at hsaid
    rw [← Option.some.inj hsaid] at ht
    exact isText_of_reply (isText_nameAnswer (hdrop _) i) ht
  | help =>
    rw [hcommand] at hsaid
    rw [← Option.some.inj hsaid] at ht
    exact isText_of_reply (by decide +kernel) ht
  | cow =>
    rw [hcommand] at hsaid
    dsimp only at hsaid
    split_ifs at hsaid
    · rw [← Option.some.inj hsaid] at ht
      exact isText_of_reply (by decide +kernel) ht
    · rw [← Option.some.inj hsaid] at ht
      exact isText_of_cow (isText_shown hnames i) ht
  | privateMsg =>
    rw [hcommand] at hsaid
    dsimp only at hsaid
    cases haddressee : r.addressee i (privateName text) with
    | none =>
      rw [haddressee] at hsaid
      rw [← Option.some.inj hsaid] at ht
      exact isText_of_reply (by decide +kernel) ht
    | some j =>
      rw [haddressee] at hsaid
      obtain ⟨pos, -, rfl⟩ := Option.map_eq_some_iff.mp hsaid
      exact isText_of_whisper (isText_shown hnames i) (isText_shown hnames j) (hdrop pos) ht
  | message =>
    rw [hcommand] at hsaid
    rw [← Option.some.inj hsaid] at ht
    exact isText_of_message (isText_shown hnames i) htext ht

/-- **What is said** in a room are texts. -/
theorem isText_of_heard (hnames : ∀ i a, (r.members i).bind Member.name = some a → IsAlias a)
    {event : Event} (hevent : ∀ i text output, event = .text i text output → (0 : Byte) ∉ text)
    (h : text ∈ heardOf (r.said event) i) : IsText text := by
  obtain ⟨said, hsaid, ht⟩ := Option.bind_eq_some_iff.mp (Option.mem_toList.mp h)
  cases event with
  | idle => cases hsaid
  | hangUp j => cases hsaid
  | connect j addr =>
    rw [← Option.some.inj hsaid] at ht
    exact isText_of_reply (by decide +kernel) ht
  | text j t output => exact isText_of_saidBy hnames (hevent j t output rfl) hsaid ht

/-- The log of a member after an event. -/
theorem log_of_step {takes : ℕ → ℕ → Bool} {event : Event} {m' : Member}
    (h : (r.step takes event).members i = some m') :
    (∃ addr, event = .connect i addr) ∧ m'.log = heardOf (r.said event) i ∨
      (∀ addr, event ≠ .connect i addr) ∧
        ∃ m, r.members i = some m ∧ m'.log = m.log ++ heardOf (r.said event) i := by
  have hlog : ∃ l, (r.enter event).logs i = some l ∧ m'.log = l ++ heardOf (r.said event) i := by
    rw [step] at h
    have hlogs' : ((r.enter event).sayAny takes (r.said event)).logs i = some m'.log := by
      rw [logs, h, Option.map_some]
    cases hsaid : r.said event with
    | none =>
      rw [hsaid] at hlogs'
      exact ⟨m'.log, hlogs', (List.append_nil _).symm⟩
    | some said =>
      rw [hsaid] at hlogs'
      exact (r.enter event).exists_of_logs_say takes hlogs'
  obtain ⟨l, hl, hm'⟩ := hlog
  by_cases hconnect : ∃ addr, event = .connect i addr
  · obtain ⟨addr, rfl⟩ := hconnect
    have hnil : (r.enter (.connect i addr)).logs i = some [] := by
      rw [logs, enter]
      dsimp only
      rw [put_members_self, Option.map_some]
    rw [hl] at hnil
    rw [Option.some.inj hnil, List.nil_append] at hm'
    exact .inl ⟨⟨addr, rfl⟩, hm'⟩
  · obtain hold | ⟨-, hjoins⟩ := r.logs_enter hl
    · obtain ⟨m, hm, rfl⟩ := Option.map_eq_some_iff.mp hold
      exact .inr ⟨fun addr heq => hconnect ⟨addr, heq⟩, m, hm, hm'⟩
    · exact absurd hjoins hconnect

end Room

/-! ### What the users see -/

/-- The texts that have come from `i` since it has connected last. -/
def textsFrom (i : ℕ) (events : List Event) : List (List Byte) :=
  events.foldl (fun texts event =>
    match event with
    | .connect j _ => if j = i then [] else texts
    | .text j text _ => if j = i then texts ++ [text] else texts
    | _ => texts) []

/-- The events of some calls. -/
def eventsOf (lfd : ℕ) (calls : List (ℕ × Input)) : List Event :=
  calls.map fun a => a.2.event lfd a.1

/-- The user at connection `i`, who is a member of the room with the given log: the board shows the
first texts of the log, the others are on their way, and what the program has written are the texts
that have come from it and those that are on their way. -/
structure Sees (net : Network) (events : List Event) (i : ℕ) (log : List (List Byte)) : Prop where
  board : ∃ k ≤ log.length, (net.programs i).posted = (log.take k).map boardLine ∧
    net.taken i = ((log.take k).flatMap frame).length
  written_eq : (net.programs i).written = (textsFrom i events ++ net.toServer i).flatten

/-- The invariant of the system: the room, the texts in the logs, what the users see, and the writes
that are on their way. -/
structure Linked (net : Network) (events : List Event) (r : Room) : Prop where
  sim : Simulates net.server r
  texts : ∀ i m, r.members i = some m → ∀ t ∈ m.log, IsText t
  sees : ∀ i m, r.members i = some m → Sees net events i m.log
  chunks : ∀ i, ∀ c ∈ net.toServer i, c ≠ [] ∧ (0 : Byte) ∉ c ∧ c.length < initQsiz

section Pass

variable {c c' : ClientMain} {p : Pass}

/-- A `read` that returns nothing ends the program. -/
theorem ClientMain.ne_nil_of_step (h : c.step p = .ok c') (hread : p.isRead = true) :
    (p.read.getD []).take initQsiz ≠ [] := by
  obtain ⟨hch, hpolled⟩ := Bool.and_eq_true_iff.mp hread
  intro hnil
  rw [ClientMain.step, of_decide_eq_true hch, hpolled, if_neg (by decide), if_pos rfl,
    if_pos rfl] at h
  dsimp only at h
  rw [if_pos hnil] at h
  cases h

/-- The string in a buffer ends before its last byte, which is overwritten. -/
theorem length_cstr_set_le (bs : List Byte) (n : ℕ) : (cstr (bs.set n 0)).length ≤ n := by
  by_contra hlt
  have hn : n < (cstr (bs.set n 0)).length := not_le.mp hlt
  have hpre : cstr (bs.set n 0) <+: bs.set n 0 := List.takeWhile_prefix _
  have hmem := List.getElem_mem hn
  rw [hpre.getElem hn, List.getElem_set_self] at hmem
  exact zero_notMem_cstr _ hmem

/-- What a pass writes. -/
theorem ClientMain.exists_chunk_of_step (h : c.step p = .ok c') :
    ∃ chunk, c'.written = c.written ++ chunk ∧ (0 : Byte) ∉ chunk ∧ chunk.length < initQsiz := by
  have hnothing : c'.written = c.written →
      ∃ chunk, c'.written = c.written ++ chunk ∧ (0 : Byte) ∉ chunk ∧ chunk.length < initQsiz :=
    fun hwritten => ⟨[], by rw [hwritten, List.append_nil], List.not_mem_nil, by decide⟩
  rw [ClientMain.step] at h
  dsimp only at h
  split_ifs at h with hclosed herr hpoll hempty hnewline hfull
  · cases h
    exact hnothing rfl
  · cases h
    exact hnothing rfl
  · split at h
    · cases h
    · cases h
      rename_i len _
      refine ⟨_, rfl, fun h0 => zero_notMem_cstr _ (List.mem_of_mem_take h0), ?_⟩
      have hle := length_cstr_set_le c.wbuff (initQsiz - 1)
      have hpos : 0 < initQsiz := by decide
      rw [List.length_take]
      omega
  · cases h
    exact hnothing rfl
  · cases h
    exact hnothing rfl

end Pass

section Linked

variable {net net' : Network} {events : List Event} {r : Room} {lfd i : ℕ}

/-- More may be on its way to a user. -/
theorem Sees.append {log : List (List Byte)} (h : Sees net events i log)
    (texts : List (List Byte)) : Sees net events i (log ++ texts) := by
  obtain ⟨⟨k, hk, hposted, htaken⟩, hwritten⟩ := h
  refine ⟨⟨k, hk.trans (by rw [List.length_append]; omega), ?_, ?_⟩, hwritten⟩
  · rw [List.take_append_of_le_length hk, hposted]
  · rw [List.take_append_of_le_length hk, htaken]

theorem Linked.isAlias (h : Linked net events r) (hnamed : Named lfd net.server) (i : ℕ)
    (a : List Byte) (ha : (r.members i).bind Member.name = some a) : IsAlias a :=
  hnamed.isAlias i a (h.sim.bind_name_eq_some_iff.mp ha)

/-- **A call** of a handler, with the changes of the connections. -/
theorem Linked.call {inp : Input} (h : Linked net events r)
    (hnamed : Named lfd net.server) (hsim : Simulates net'.server (r.next lfd (i, inp)))
    (hevent : ∀ j text output, inp.event lfd i = .text j text output → (0 : Byte) ∉ text)
    (hsees : ∀ j log, (∀ addr, inp.event lfd i ≠ .connect j addr) → Sees net events j log →
      Sees net' (events ++ [inp.event lfd i]) j log)
    (hconnect : ∀ j addr, inp.event lfd i = .connect j addr →
      Sees net' (events ++ [inp.event lfd i]) j [])
    (hchunks : ∀ j, ∀ c ∈ net'.toServer j, c ≠ [] ∧ (0 : Byte) ∉ c ∧ c.length < initQsiz) :
    Linked net' (events ++ [inp.event lfd i]) (r.next lfd (i, inp)) := by
  have hheard : ∀ j, ∀ t ∈ heardOf (r.said (inp.event lfd i)) j, IsText t := fun j t ht =>
    Room.isText_of_heard (h.isAlias hnamed) hevent ht
  refine ⟨hsim, fun j m' hm' t ht => ?_, fun j m' hm' => ?_, hchunks⟩
  · obtain ⟨-, hlog⟩ | ⟨-, m, hm, hlog⟩ := Room.log_of_step hm'
    · exact hheard j t (hlog ▸ ht)
    · rw [hlog, List.mem_append] at ht
      exact ht.elim (h.texts j m hm t) (hheard j t)
  · obtain ⟨⟨addr, hjoins⟩, hlog⟩ | ⟨hstays, m, hm, hlog⟩ := Room.log_of_step hm'
    · rw [hlog]
      exact (hconnect j addr hjoins).append _
    · rw [hlog]
      exact (hsees j m.log hstays (h.sees j m hm)).append _

/-- What a program reads in step. -/
theorem Linked.nextText_eq (h : Linked net events r) {m : Member} (hm : r.members i = some m)
    {k : ℕ} (htaken : net.taken i = ((m.log.take k).flatMap frame).length)
    (hne : nextText (net.toClient i) ≠ []) :
    ∃ t, m.log[k]? = some t ∧ nextText (net.toClient i) = frame t := by
  have hstream : net.toClient i = (m.log.drop k).flatMap frame := by
    have hsplit : m.log.flatMap frame =
        (m.log.take k).flatMap frame ++ (m.log.drop k).flatMap frame := by
      rw [← List.flatMap_append, List.take_append_drop]
    rw [Network.toClient, h.sim.sent_eq i m hm, htaken, hsplit, List.drop_left]
  have htexts : ∀ t ∈ m.log.drop k, IsText t := fun t ht =>
    h.texts i m hm t (List.mem_of_mem_drop ht)
  rw [hstream] at hne ⊢
  cases hdrop : m.log.drop k with
  | nil =>
    rw [hdrop] at hne
    exact absurd rfl hne
  | cons t ts =>
    rw [hdrop] at htexts
    refine ⟨t, ?_, ?_⟩
    · rw [← List.head?_drop, hdrop, List.head?_cons]
    · rw [List.flatMap_cons]
      refine (htexts t List.mem_cons_self).nextText_frame ?_
      cases ts with
      | nil => exact Option.some_ne_none _ |>.symm
      | cons t' ts =>
        rw [List.flatMap_cons]
        exact (htexts t' (List.mem_cons_of_mem t List.mem_cons_self)).head?_frame_ne _

/-- Nothing has changed for a user. -/
theorem Sees.congr {log : List (List Byte)} (h : Sees net events i log)
    (hprograms : net'.programs i = net.programs i) (htoServer : net'.toServer i = net.toServer i)
    (htaken : net'.taken i = net.taken i) : Sees net' events i log := by
  obtain ⟨hboard, hwritten⟩ := h
  exact ⟨by rwa [hprograms, htaken], by rwa [hprograms, htoServer]⟩

/-- The board after a pass of its program: there is one text more on it if the pass reads. -/
theorem Linked.board_of_pass (h : Linked net events r) {p : Pass} {c : ClientMain}
    (hread : p.isRead = true → p.read = some (nextText (net.toClient i)) ∧
      (nextText (net.toClient i)).length ≤ initQsiz)
    (hpass : (net.programs i).step p = .ok c) {m : Member} (hm : r.members i = some m) :
    ∃ k ≤ m.log.length, c.posted = (m.log.take k).map boardLine ∧
      net.taken i + (if p.isRead then (p.read.getD []).length else 0) =
        ((m.log.take k).flatMap frame).length := by
  obtain ⟨⟨k, hk, hposted, htaken⟩, -⟩ := h.sees i m hm
  obtain ⟨hisRead, hbuff, hposts⟩ | ⟨hisRead, -, hposts⟩ := ClientMain.posted_of_step hpass
  · obtain ⟨hbytes, hlen⟩ := hread hisRead
    have hne := ClientMain.ne_nil_of_step hpass hisRead
    rw [hbytes, Option.getD_some, List.take_of_length_le hlen] at hbuff hne
    obtain ⟨t, ht, hnext⟩ := h.nextText_eq hm htaken hne
    have hk' : k < m.log.length := (List.getElem?_eq_some_iff.mp ht).1
    have htext := h.texts i m hm t (List.mem_of_getElem? ht)
    have htake : m.log.take (k + 1) = m.log.take k ++ [t] := by
      rw [List.take_add_one, ht, Option.toList_some]
    rw [hnext] at hbuff hlen
    refine ⟨k + 1, hk', ?_, ?_⟩
    · rw [hposts, hposted, hbuff, htext.post_frame hlen, htake, List.map_append,
        List.map_singleton]
    · rw [if_pos hisRead, hbytes, hnext, Option.getD_some, htaken, htake, List.flatMap_append,
        List.flatMap_singleton, List.length_append]
  · refine ⟨k, hk, hposts.trans hposted, ?_⟩
    rw [if_neg (by simp [hisRead]), Nat.add_zero, htaken]

/-- **A pass** of a program. -/
theorem Linked.pass (h : Linked net events r) {p : Pass} {c : ClientMain}
    (hread : p.isRead = true → p.read = some (nextText (net.toClient i)) ∧
      (nextText (net.toClient i)).length ≤ initQsiz)
    (hpass : (net.programs i).step p = .ok c) : Linked (net.afterPass i p c) events r := by
  obtain ⟨chunk, hwritten, hzero, hlt⟩ := ClientMain.exists_chunk_of_step hpass
  have hchunk : c.written.drop (net.programs i).written.length = chunk := by
    rw [hwritten, List.drop_left]
  have htoServer : (net.afterPass i p c).toServer = Function.update net.toServer i
      (net.toServer i ++ if chunk = [] then [] else [chunk]) := by
    rw [Network.afterPass, hchunk]
  refine ⟨h.sim, h.texts, fun j m hm => ?_, fun j chunk' hchunk' => ?_⟩
  · rcases eq_or_ne j i with rfl | hne
    · refine ⟨?_, ?_⟩
      · rw [Network.afterPass]
        dsimp only
        rw [Function.update_self, Function.update_self]
        exact h.board_of_pass hread hpass hm
      · rw [htoServer, Network.afterPass]
        dsimp only
        rw [Function.update_self, Function.update_self, hwritten, (h.sees j m hm).written_eq]
        split_ifs with hnil <;> simp [hnil]
    · exact (h.sees j m hm).congr (Function.update_of_ne hne ..)
        (Function.update_of_ne hne ..) (Function.update_of_ne hne ..)
  · rw [htoServer] at hchunk'
    rcases eq_or_ne j i with rfl | hne
    · rw [Function.update_self, List.mem_append] at hchunk'
      rcases hchunk' with hold | hnew
      · exact h.chunks j chunk' hold
      · split_ifs at hnew with hnil
        · cases hnew
        · rw [List.mem_singleton.mp hnew]
          exact ⟨hnil, hzero, hlt⟩
    · rw [Function.update_of_ne hne] at hchunk'
      exact h.chunks j chunk' hchunk'

/-- A user sees the same after an event that is neither its text nor its connection. -/
theorem Sees.other {log : List (List Byte)} {event : Event} (h : Sees net events i log)
    (htext : ∀ text output, event ≠ .text i text output)
    (hconnect : ∀ addr, event ≠ .connect i addr) (hprograms : net'.programs i = net.programs i)
    (htoServer : net'.toServer i = net.toServer i) (htaken : net'.taken i = net.taken i) :
    Sees net' (events ++ [event]) i log := by
  have htexts : textsFrom i (events ++ [event]) = textsFrom i events := by
    rw [textsFrom, List.foldl_append, List.foldl_cons, List.foldl_nil, textsFrom]
    cases event with
    | idle => rfl
    | hangUp j => rfl
    | connect j addr => exact if_neg fun heq => hconnect addr (by rw [heq])
    | text j text output => exact if_neg fun heq => htext text output (by rw [heq])
  obtain ⟨hboard, hwritten⟩ := h
  exact ⟨by rwa [hprograms, htaken], by rw [hprograms, htexts, htoServer, hwritten]⟩

/-- A user whose write has been read. -/
theorem Sees.received {log : List (List Byte)} {chunk output : List Byte}
    {rest : List (List Byte)} (h : Sees net events i log) (hchunk : net.toServer i = chunk :: rest)
    (hprograms : net'.programs i = net.programs i) (htoServer : net'.toServer i = rest)
    (htaken : net'.taken i = net.taken i) :
    Sees net' (events ++ [.text i chunk output]) i log := by
  have htexts : textsFrom i (events ++ [.text i chunk output]) = textsFrom i events ++ [chunk] := by
    rw [textsFrom, List.foldl_append, List.foldl_cons, List.foldl_nil, textsFrom]
    exact if_pos rfl
  obtain ⟨hboard, hwritten⟩ := h
  refine ⟨by rwa [hprograms, htaken], ?_⟩
  rw [hprograms, htexts, htoServer, hwritten, hchunk]
  simp

/-- A user whose program has just connected. -/
theorem sees_connected {addr : InAddr} (hprograms : net'.programs i = .start)
    (htoServer : net'.toServer i = []) (htaken : net'.taken i = 0) :
    Sees net' (events ++ [.connect i addr]) i [] := by
  have htexts : textsFrom i (events ++ [.connect i addr]) = [] := by
    rw [textsFrom, List.foldl_append, List.foldl_cons, List.foldl_nil]
    exact if_pos rfl
  exact ⟨⟨0, le_rfl, by rw [hprograms]; rfl, by rw [htaken]; rfl⟩,
    by rw [hprograms, htexts, htoServer]; rfl⟩

/-- The text of a call is one of a `read`, so that it has no NUL. -/
theorem Input.zero_notMem_of_event {inp : Input} {j : ℕ} {text output : List Byte}
    (h : inp.event lfd i = .text j text output) : (0 : Byte) ∉ text := by
  rw [Input.event] at h
  by_cases hlfd : i = lfd
  · rw [if_pos hlfd] at h
    cases haccept : inp.accept with
    | none =>
      rw [haccept] at h
      cases h
    | some conn =>
      rw [haccept] at h
      cases h
  · rw [if_neg hlfd] at h
    cases hreceived : inp.received with
    | none =>
      rw [hreceived] at h
      dsimp only at h
      split_ifs at h
    | some t =>
      rw [hreceived] at h
      cases h
      rw [Input.received] at hreceived
      split_ifs at hreceived
      cases hreceived
      exact zero_notMem_cstr _

/-- What the server gets when it reads a write of a program. -/
theorem Input.received_of_read {inp : Input} {chunk : List Byte} (hread : inp.read = some chunk)
    (hne : chunk ≠ []) (hzero : (0 : Byte) ∉ chunk) (hlt : chunk.length < initQsiz) :
    inp.received = some chunk := by
  have htake : chunk.take initQsiz = chunk := List.take_of_length_le hlt.le
  have hstring : Server.inString initQsiz chunk inp.beyond = chunk := by
    rw [Server.inString, if_pos hlt, cstr_of_notMem hzero]
  rw [Input.received, hread, Option.getD_some, htake, hstring, if_neg (by simp [hne])]

/-- A program connects. -/
theorem Linked.accept {inp : Input} {s : Server} (h : Linked net events r)
    (hnamed : Named lfd net.server) (hsim : Simulates s (r.next lfd (lfd, inp))) :
    Linked { inp.accept.elim net (fun conn => net.connect conn.1) with server := s }
      (events ++ [inp.event lfd lfd]) (r.next lfd (lfd, inp)) := by
  refine h.call hnamed hsim (fun _ _ _ => Input.zero_notMem_of_event) ?_ ?_ ?_
  · intro j log hstays hsees
    rw [Input.event, if_pos rfl] at hstays ⊢
    cases haccept : inp.accept with
    | none => exact hsees.other (fun _ _ => by simp) (fun _ => by simp) rfl rfl rfl
    | some conn =>
      rw [haccept] at hstays
      have hne : j ≠ conn.1 := fun heq => hstays conn.2 (by rw [heq])
      exact hsees.other (fun _ _ => by simp) hstays (Function.update_of_ne hne ..)
        (Function.update_of_ne hne ..) (Function.update_of_ne hne ..)
  · intro j addr hconnect
    rw [hconnect]
    rw [Input.event, if_pos rfl] at hconnect
    cases haccept : inp.accept with
    | none =>
      rw [haccept] at hconnect
      cases hconnect
    | some conn =>
      rw [haccept] at hconnect
      cases hconnect
      exact sees_connected (Function.update_self ..) (Function.update_self ..)
        (Function.update_self ..)
  · intro j c hc
    cases haccept : inp.accept with
    | none =>
      rw [haccept] at hc
      exact h.chunks j c hc
    | some conn =>
      rw [haccept] at hc
      dsimp only [Option.elim, Network.connect] at hc
      rcases eq_or_ne j conn.1 with rfl | hne
      · rw [Function.update_self] at hc
        cases hc
      · rw [Function.update_of_ne hne] at hc
        exact h.chunks j c hc

/-- The server reads a write of a program. -/
theorem Linked.receive {inp : Input} {s : Server} {chunk : List Byte} {rest : List (List Byte)}
    (h : Linked net events r) (hnamed : Named lfd net.server) (hi : i ≠ lfd)
    (hchunk : net.toServer i = chunk :: rest) (hread : inp.read = some chunk)
    (hsim : Simulates s (r.next lfd (i, inp))) :
    Linked { net with server := s, toServer := Function.update net.toServer i rest }
      (events ++ [inp.event lfd i]) (r.next lfd (i, inp)) := by
  obtain ⟨hne, hzero, hlt⟩ := h.chunks i chunk (hchunk ▸ List.mem_cons_self)
  have hevent : inp.event lfd i = .text i chunk (inp.popen.take (1024 * 8)) := by
    rw [Input.event, if_neg hi, Input.received_of_read hread hne hzero hlt]
  refine h.call hnamed hsim (fun _ _ _ => Input.zero_notMem_of_event) ?_ ?_ ?_
  · intro j log hstays hsees
    rw [hevent]
    rcases eq_or_ne j i with rfl | hji
    · exact hsees.received hchunk rfl (Function.update_self ..) rfl
    · exact hsees.other (fun _ _ heq => hji (Event.text.inj heq).1.symm) (fun _ => by simp) rfl
        (Function.update_of_ne hji ..) rfl
  · intro j addr hconnect
    rw [hevent] at hconnect
    cases hconnect
  · intro j c hc
    dsimp only at hc
    rcases eq_or_ne j i with rfl | hji
    · rw [Function.update_self] at hc
      exact h.chunks j c (hchunk ▸ List.mem_cons_of_mem chunk hc)
    · rw [Function.update_of_ne hji] at hc
      exact h.chunks j c hc

/-- The server finds a connection without anything to read. -/
theorem Linked.nothing {inp : Input} {s : Server} (h : Linked net events r)
    (hnamed : Named lfd net.server) (hi : i ≠ lfd) (hread : inp.read.getD [] = [])
    (hsim : Simulates s (r.next lfd (i, inp))) :
    Linked { net with server := s } (events ++ [inp.event lfd i]) (r.next lfd (i, inp)) := by
  have hreceived : inp.received = none := by
    rw [Input.received, hread, List.take_nil, if_pos (.inl rfl)]
  refine h.call hnamed hsim (fun _ _ _ => Input.zero_notMem_of_event) ?_ ?_ h.chunks
  · intro j log hstays hsees
    refine hsees.other (fun text output => ?_) hstays rfl rfl rfl
    rw [Input.event, if_neg hi, hreceived]
    dsimp only
    split_ifs <;> simp
  · intro j addr hconnect
    rw [Input.event, if_neg hi, hreceived] at hconnect
    dsimp only at hconnect
    split_ifs at hconnect

/-- **A step** of the system is an event of the room or none. -/
theorem Linked.step {opened : ℕ → Bool} {act : NetAction} (h : Linked net events r)
    (hreach : Reachable opened lfd net.server) (hsteady : act.Steady lfd)
    (hstep : NetStep lfd net act net') :
    Reachable opened lfd net'.server ∧
      Linked net' (events ++ eventsOf lfd (callsOf [act]))
        ((callsOf [act]).foldl (Room.next lfd) r) := by
  cases hstep with
  | @accept inp s hcall =>
    obtain ⟨hreach', hsim⟩ := h.sim.handlerStep (a := (lfd, inp)) hreach hsteady hcall
    exact ⟨hreach', h.accept hreach.named hsim⟩
  | @receive i inp s chunk rest hi hchunk hread hcall =>
    obtain ⟨hreach', hsim⟩ := h.sim.handlerStep (a := (i, inp)) hreach hsteady hcall
    exact ⟨hreach', h.receive hreach.named hi hchunk hread hsim⟩
  | @nothing i inp s hi hread hcall =>
    obtain ⟨hreach', hsim⟩ := h.sim.handlerStep (a := (i, inp)) hreach hsteady hcall
    exact ⟨hreach', h.nothing hreach.named hi hread hsim⟩
  | @pass i p c hread hpass =>
    have hnil : eventsOf lfd (callsOf [.pass i p]) = [] := rfl
    rw [hnil, List.append_nil]
    exact ⟨hreach, h.pass hread hpass⟩

theorem linked_start (opened : ℕ → Bool) (lfd : ℕ) :
    Linked (Network.start opened lfd) [] Room.empty where
  sim := simulates_serverMain opened lfd
  texts _ _ hm := by cases hm
  sees _ _ hm := by cases hm
  chunks _ _ hc := by cases hc

/-- **What the users see.** The server and its clients take their steps in any order, each `read` is
in step with the other side, and no sender is refused while its own text goes out. Then an active
client `i` is a member of the room: its board shows the first texts of its log, the frames of the
others are on their way to it, and what it has written are the texts that have come to the room from
it since it has connected, and behind them those that are on their way to the server. -/
theorem board_of_trace {opened : ℕ → Bool} {acts : List NetAction}
    (h : Trace (NetStep lfd) (fun _ act => act.Steady lfd) (Network.start opened lfd) acts net)
    (hactive : (net.server.clients i).active = true) :
    ∃ m, ((callsOf acts).foldl (Room.next lfd) Room.empty).members i = some m ∧
      (∃ k ≤ m.log.length, (net.programs i).posted = (m.log.take k).map boardLine ∧
        net.toClient i = (m.log.drop k).flatMap frame) ∧
      (net.programs i).written =
        (textsFrom i (eventsOf lfd (callsOf acts)) ++ net.toServer i).flatten := by
  obtain ⟨-, hlinked⟩ := h.invariant
    (p := fun acts net => Reachable opened lfd net.server ∧
      Linked net (eventsOf lfd (callsOf acts)) ((callsOf acts).foldl (Room.next lfd) Room.empty))
    ⟨.main, linked_start opened lfd⟩
    fun {acts net act net'} hs hsteady hstep => by
      have hnext := hs.2.step hs.1 hsteady hstep
      rw [callsOf, List.filterMap_append, eventsOf, List.map_append, List.foldl_append]
      exact hnext
  obtain ⟨m, hm⟩ := Option.isSome_iff_exists.mp ((hlinked.sim.isSome_members i).trans hactive)
  obtain ⟨⟨k, hk, hposted, htaken⟩, hwritten⟩ := hlinked.sees i m hm
  refine ⟨m, hm, ⟨k, hk, hposted, ?_⟩, hwritten⟩
  have hsplit : m.log.flatMap frame =
      (m.log.take k).flatMap frame ++ (m.log.drop k).flatMap frame := by
    rw [← List.flatMap_append, List.take_append_drop]
  rw [Network.toClient, hlinked.sim.sent_eq i m hm, htaken, hsplit, List.drop_left]

end Linked

/-- A step in which every `write` takes all bytes: a program connects, the server reads what a
program has written, a user presses a key, or a program reads the next text. -/
inductive FullStep
  | connect (nfd : ℕ)
  | serve (i : ℕ)
  | key (i : ℕ) (ch : ℤ)
  | post (i : ℕ)

/-- The system after such a step. -/
def Network.full (lfd : ℕ) (net : Network) : FullStep → Option Network
  | .connect nfd =>
    let inp := fullInput nfd [] net.server
    if nfd < fdSetSize then
      (net.server.callHandler lfd inp).toOption.map fun s =>
        { inp.accept.elim net (fun conn => net.connect conn.1) with server := s }
    else none
  | .serve i =>
    match net.toServer i with
    | [] => none
    | chunk :: rest =>
      if i = lfd then none
      else
        (net.server.callHandler i (fullInput 0 chunk net.server)).toOption.map fun s =>
          { net with server := s, toServer := Function.update net.toServer i rest }
  | .key i ch =>
    let p : Pass := ⟨ch, false, none, .full⟩
    ((net.programs i).step p).toOption.map (net.afterPass i p)
  | .post i =>
    let p : Pass := ⟨errKey, true, some (nextText (net.toClient i)), .full⟩
    if (nextText (net.toClient i)).length ≤ initQsiz then
      ((net.programs i).step p).toOption.map (net.afterPass i p)
    else none

theorem eq_ok_of_toOption {ε α : Type} {x : Except ε α} {a : α} (h : x.toOption = some a) :
    x = .ok a := by
  cases x with
  | error e => cases h
  | ok b =>
    cases h
    rfl

theorem Network.exists_netStep_of_full {net net' : Network} {step : FullStep}
    (h : net.full lfd step = some net') :
    ∃ act, NetStep lfd net act net' ∧ act.Steady lfd := by
  cases step with
  | connect nfd =>
    dsimp only [Network.full] at h
    split_ifs at h with hlt
    obtain ⟨s, hs, rfl⟩ := Option.map_eq_some_iff.mp h
    exact ⟨.call lfd (fullInput nfd [] net.server),
      .accept ⟨fullInput_valid hlt _ _, eq_ok_of_toOption hs⟩, fullInput_steady _ _ _ _ _⟩
  | serve i =>
    rw [Network.full] at h
    cases hchunk : net.toServer i with
    | nil =>
      rw [hchunk] at h
      cases h
    | cons chunk rest =>
      rw [hchunk] at h
      dsimp only at h
      split_ifs at h with hi
      obtain ⟨s, hs, rfl⟩ := Option.map_eq_some_iff.mp h
      exact ⟨.call i (fullInput 0 chunk net.server), .receive hi hchunk rfl
        ⟨fullInput_valid (by decide) _ _, eq_ok_of_toOption hs⟩, fullInput_steady _ _ _ _ _⟩
  | key i ch =>
    obtain ⟨c, hc, rfl⟩ := Option.map_eq_some_iff.mp h
    refine ⟨.pass i ⟨ch, false, none, .full⟩, .pass (fun hread => ?_) (eq_ok_of_toOption hc),
      trivial⟩
    rw [Pass.isRead, Bool.and_false] at hread
    cases hread
  | post i =>
    dsimp only [Network.full] at h
    split_ifs at h with hlen
    obtain ⟨c, hc, rfl⟩ := Option.map_eq_some_iff.mp h
    exact ⟨.pass i ⟨errKey, true, some (nextText (net.toClient i)), .full⟩,
      .pass (fun _ => ⟨rfl, hlen⟩) (eq_ok_of_toOption hc), trivial⟩

theorem Network.exists_trace_of_full {net₀ net net' : Network} {acts : List NetAction} :
    {steps : List FullStep} →
    Trace (NetStep lfd) (fun _ act => act.Steady lfd) net₀ acts net →
    steps.foldlM (Network.full lfd) net = some net' →
    ∃ acts, Trace (NetStep lfd) (fun _ act => act.Steady lfd) net₀ acts net'
  | [], h, hsteps => by
      cases hsteps
      exact ⟨acts, h⟩
  | step :: steps, h, hsteps => by
      rw [List.foldlM_cons] at hsteps
      obtain ⟨net₁, hfirst, hrest⟩ := Option.bind_eq_some_iff.mp hsteps
      obtain ⟨act, hstep, hsteady⟩ := Network.exists_netStep_of_full hfirst
      exact Network.exists_trace_of_full (h.snoc hsteady hstep) hrest

/-- Two users connect, and the first one enters `hi`, which the second one reads. -/
def hiSteps : List FullStep :=
  [.connect 4, .connect 5, .post 5, .key 4 104, .key 4 105, .key 4 10, .serve 4, .post 5]

/-- The boards and lines of both. -/
theorem board_of_trace_hi : ∃ (acts : List NetAction) (net : Network),
    (net.programs 4).written = str "hi" ∧
    (net.programs 5).posted.getLast? = some (str "127.0.0.1: hi") ∧
    ∀ i ∈ [4, 5], ∃ m,
      ((callsOf acts).foldl (Room.next 3) Room.empty).members i = some m ∧
        (∃ k ≤ m.log.length, (net.programs i).posted = (m.log.take k).map boardLine ∧
          net.toClient i = (m.log.drop k).flatMap frame) ∧
        (net.programs i).written =
          (textsFrom i (eventsOf 3 (callsOf acts)) ++ net.toServer i).flatten := by
  have hrun : (hiSteps.foldlM (Network.full 3) (Network.start (fun _ => false) 3)).map (fun net =>
      ((net.server.clients 4).active && (net.server.clients 5).active,
        (net.programs 4).written, (net.programs 5).posted.getLast?)) =
          some (true, str "hi", some (str "127.0.0.1: hi")) := by decide +kernel
  obtain ⟨net, hnet, hfacts⟩ := Option.map_eq_some_iff.mp hrun
  simp only [Prod.mk.injEq, Bool.and_eq_true] at hfacts
  obtain ⟨⟨h4, h5⟩, hwritten, hposted⟩ := hfacts
  obtain ⟨acts, htrace⟩ := Network.exists_trace_of_full .nil hnet
  refine ⟨acts, net, hwritten, hposted, fun i hi => board_of_trace htrace ?_⟩
  rcases List.mem_cons.mp hi with rfl | hi
  · exact h4
  · exact (List.mem_singleton.mp hi) ▸ h5

end TikFachpraktika.Chat
