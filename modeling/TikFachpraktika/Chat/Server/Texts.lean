import TikFachpraktika.Chat.Lines
import TikFachpraktika.Chat.Server.Private

/-!
# The texts of the clients

`server_process_client` of `6_network/server.c` takes a text for a command when it is the name of
the command or begins with it, without regard to case; what is left is a message to all clients.

## Main definitions

* `Command`, `commandOf`: the branches of `server_process_client`.
* `IsPlain`: a text that is not a command.
* `Server.activeClients`: the active clients in the order of their descriptors.

## Main results

* `Registered.callHandler_of_processed`: a call for a client runs the handler of its text.
* `commandOf_of_who`, `commandOf_of_alias`, `commandOf_eq_privateMsg_iff`,
  `commandOf_eq_message_iff`: which texts belong to a branch.
* `Reachable.lt_fdSetSize`: the descriptors of the clients are below `FD_SETSIZE`.
-/

namespace TikFachpraktika.Chat

open Posix

/-- The branches of `server_process_client`. -/
inductive Command
  | who
  | setAlias
  | help
  | cow
  | privateMsg
  | message
  deriving DecidableEq

/-- The branch that `server_process_client` takes for a text. -/
def commandOf (text : List Byte) : Command :=
  if text.length = magicStrWho.length ∧ strnicmp text magicStrWho magicStrWho.length = 0 then .who
  else if text.length > magicStrAlias.length ∧
      strnicmp text magicStrAlias magicStrAlias.length = 0 then .setAlias
  else if text.length = magicStrHelp.length ∧
      strnicmp text magicStrHelp magicStrHelp.length = 0 then .help
  else if text.length > magicStrCow.length ∧
      strnicmp text magicStrCow magicStrCow.length = 0 then .cow
  else if strncmp magicStrPrivate.length text magicStrPrivate = 0 then .privateMsg
  else .message

namespace Server

variable (s : Server) (fd : ℕ) (inp : Input) (text : List Byte)

/-- The handlers of the branches. -/
def runCommand : Command → Except Fault Server
  | .who => s.processWho fd inp
  | .setAlias => s.processAlias fd inp text
  | .help => s.processHelp fd inp
  | .cow => s.processCow fd inp
  | .privateMsg => s.processPrivate fd inp text
  | .message => s.processMessageFrom fd inp text

theorem processString_eq : s.processString fd inp text = s.runCommand fd inp text
    (commandOf text) := by
  rw [processString, commandOf]
  split_ifs <;> rfl

/-- The state after the `read` of a call. -/
def afterRead : Server :=
  s.putInbuff fd ((inp.read.getD []).take (s.clients fd).inLen)

end Server

/-! ### Which texts are commands -/

theorem length_of_setAlias {text : List Byte} (h : commandOf text = .setAlias) :
    magicStrAlias.length < text.length := by
  rw [commandOf] at h
  split_ifs at h with hwho halias
  exact halias.1

/-- A comparison with a word in lower case. -/
theorem strnicmp_word_iff {text word : List Byte} (htext : (0 : Byte) ∉ text)
    (hword : (0 : Byte) ∉ word) (hlower : lower word = word) :
    strnicmp text word word.length = 0 ↔ word <+: lower text := by
  rw [strnicmp_eq_zero_iff _ _ _ htext hword, List.take_length, hlower, lower_take,
    List.prefix_iff_eq_take, eq_comm]

/-- A text of the same length as the word. -/
theorem length_and_strnicmp_iff {text word : List Byte} (htext : (0 : Byte) ∉ text)
    (hword : (0 : Byte) ∉ word) (hlower : lower word = word) :
    text.length = word.length ∧ strnicmp text word word.length = 0 ↔ lower text = word := by
  rw [strnicmp_word_iff htext hword hlower]
  constructor
  · rintro ⟨hlen, hbegin⟩
    exact (hbegin.eq_of_length (by rw [length_lower, hlen])).symm
  · intro heq
    exact ⟨by rw [← heq, length_lower], heq ▸ List.prefix_rfl⟩

/-- A text that is not a command: it is not `\who` or `\help`, does not begin with `\alias ` or
`\cow ` and go on, and does not begin with `@`. -/
structure IsPlain (text : List Byte) : Prop where
  who : lower text ≠ magicStrWho
  help : lower text ≠ magicStrHelp
  setAlias : ¬(magicStrAlias.length < text.length ∧ magicStrAlias <+: lower text)
  cow : ¬(magicStrCow.length < text.length ∧ magicStrCow <+: lower text)
  privateMsg : ¬magicStrPrivate <+: text

section Kinds

variable {text : List Byte}

/-- The branches in terms of the text. -/
theorem commandOf_eq (htext : (0 : Byte) ∉ text) :
    commandOf text =
      if lower text = magicStrWho then .who
      else if magicStrAlias.length < text.length ∧ magicStrAlias <+: lower text then .setAlias
      else if lower text = magicStrHelp then .help
      else if magicStrCow.length < text.length ∧ magicStrCow <+: lower text then .cow
      else if magicStrPrivate <+: text then .privateMsg
      else .message := by
  obtain ⟨hwho, halias, hhelp, hcow⟩ :
      ((0 : Byte) ∉ magicStrWho ∧ lower magicStrWho = magicStrWho) ∧
      ((0 : Byte) ∉ magicStrAlias ∧ lower magicStrAlias = magicStrAlias) ∧
      ((0 : Byte) ∉ magicStrHelp ∧ lower magicStrHelp = magicStrHelp) ∧
      ((0 : Byte) ∉ magicStrCow ∧ lower magicStrCow = magicStrCow) := by decide
  have hprivate : strncmp magicStrPrivate.length text magicStrPrivate = 0 ↔
      magicStrPrivate <+: text := by
    rw [strncmp_eq_zero_iff _ _ _ le_rfl (by decide), List.take_length, cstr_of_notMem htext]
  simp only [commandOf, gt_iff_lt, length_and_strnicmp_iff htext hwho.1 hwho.2,
    strnicmp_word_iff htext halias.1 halias.2, length_and_strnicmp_iff htext hhelp.1 hhelp.2,
    strnicmp_word_iff htext hcow.1 hcow.2, hprivate]

theorem commandOf_of_who (htext : (0 : Byte) ∉ text) (h : lower text = magicStrWho) :
    commandOf text = .who := by
  rw [commandOf_eq htext, if_pos h]

theorem commandOf_of_alias {word name : List Byte} (htext : (0 : Byte) ∉ word ++ name)
    (hword : lower word = magicStrAlias) (hname : name ≠ []) :
    commandOf (word ++ name) = .setAlias := by
  have hlen : word.length = magicStrAlias.length := by rw [← hword, length_lower]
  have hpos := List.length_pos_iff.mpr hname
  have hlower : lower (word ++ name) = magicStrAlias ++ lower name := by
    rw [lower, List.map_append, ← lower, ← lower, hword]
  have hwho : lower (word ++ name) ≠ magicStrWho := fun heq => by
    have hcount := congrArg List.length heq
    have hmagic : magicStrAlias.length = 7 ∧ magicStrWho.length = 4 := by decide
    rw [length_lower, List.length_append] at hcount
    omega
  rw [commandOf_eq htext, if_neg hwho, if_pos]
  refine ⟨?_, hlower ▸ List.prefix_append _ _⟩
  rw [List.length_append]
  omega

/-- **The messages** are the texts that are not commands. -/
theorem commandOf_eq_message_iff (htext : (0 : Byte) ∉ text) :
    commandOf text = .message ↔ IsPlain text := by
  rw [commandOf_eq htext]
  split_ifs with hwho halias hhelp hcow hprivate
  · exact iff_of_false (by decide) fun h => h.who hwho
  · exact iff_of_false (by decide) fun h => h.setAlias halias
  · exact iff_of_false (by decide) fun h => h.help hhelp
  · exact iff_of_false (by decide) fun h => h.cow hcow
  · exact iff_of_false (by decide) fun h => h.privateMsg hprivate
  · exact iff_of_true rfl ⟨hwho, hhelp, halias, hcow, hprivate⟩

/-- **The private messages** are the texts that begin with `@`. -/
theorem commandOf_eq_privateMsg_iff (htext : (0 : Byte) ∉ text) :
    commandOf text = .privateMsg ↔ text.head? = some 64 := by
  have hprivate : magicStrPrivate <+: text ↔ text.head? = some 64 := by
    cases text with
    | nil => simp [magicStrPrivate, str]
    | cons b text => simp [magicStrPrivate, str, List.prefix_cons_iff, eq_comm]
  have hother : ∀ {word : List Byte}, word.head? = some 92 → word <+: lower text →
      text.head? ≠ some 64 := by
    rintro word hword ⟨tail, htail⟩ hhead
    have hheads : (lower text).head? = some 92 := by
      rw [← htail, List.head?_append, hword]
      rfl
    rw [lower, List.head?_map, hhead] at hheads
    exact absurd hheads (by decide)
  rw [commandOf_eq htext]
  split_ifs with hwho halias hhelp hcow hat
  · exact iff_of_false (by decide) (@hother magicStrWho (by decide) (by rw [hwho]))
  · exact iff_of_false (by decide) (hother (by decide) halias.2)
  · exact iff_of_false (by decide) (@hother magicStrHelp (by decide) (by rw [hhelp]))
  · exact iff_of_false (by decide) (hother (by decide) hcow.2)
  · exact iff_of_true rfl (hprivate.mp hat)
  · exact iff_of_false (by decide) fun hhead => hat (hprivate.mpr hhead)

end Kinds

/-! ### The call of the handler -/

section Call

variable {lfd : ℕ} {s : Server} {fd : ℕ} {inp : Input} {text : List Byte}

theorem zero_notMem_of_processed (h : s.processed fd inp = some text) : (0 : Byte) ∉ text := by
  rw [Server.processed] at h
  split_ifs at h
  rw [← Option.some.inj h, Server.inString]
  exact zero_notMem_cstr _

/-- A text without NUL that does not fill `inbuff` is processed as it is. -/
theorem Registered.processed_fullInput (h : Registered lfd s)
    (hactive : (s.clients fd).active = true) (nfd : ℕ) (hne : text ≠ []) (hnul : (0 : Byte) ∉ text)
    (hlt : text.length < initQsiz) : s.processed fd (fullInput nfd text s) = some text := by
  have hread : (fullInput nfd text s).read = some text := rfl
  obtain ⟨processed, hprocessed, -, heq⟩ := h.processed_eq hactive hread hne hnul hlt.le
  rw [hprocessed, heq hlt]

/-- **A call for a client** runs the handler of its text. -/
theorem Registered.callHandler_of_processed (h : Registered lfd s)
    (hactive : (s.clients fd).active = true) (htext : s.processed fd inp = some text) :
    s.callHandler fd inp = (s.afterRead fd inp).runCommand fd inp text (commandOf text) := by
  rw [Server.callHandler, h.f_eq_of_active hactive]
  dsimp only
  rw [Server.processClient_eq, htext]
  exact Server.processString_eq _ _ _ _

theorem Server.afterRead_clients (s : Server) (fd : ℕ) (inp : Input) (i : ℕ) : ∃ inbuff,
    (s.afterRead fd inp).clients i = { s.clients i with inbuff := inbuff } :=
  s.putInbuff_clients fd _ i

theorem Server.afterRead_active (s : Server) (fd : ℕ) (inp : Input) (i : ℕ) :
    ((s.afterRead fd inp).clients i).active = (s.clients i).active := by
  obtain ⟨inbuff, hclient⟩ := s.afterRead_clients fd inp i
  rw [hclient]

theorem Named.afterRead (h : Named lfd s) (fd : ℕ) (inp : Input) :
    Named lfd (s.afterRead fd inp) :=
  (closed_named lfd).putInbuff _ h

end Call

/-! ### The active clients -/

/-- The active clients, in the order of their descriptors. -/
def Server.activeClients (s : Server) : List ℕ :=
  (List.range fdSetSize).filter fun i => (s.clients i).active

section ActiveClients

variable {s : Server}

theorem mem_activeClients {i : ℕ} :
    i ∈ s.activeClients ↔ i < fdSetSize ∧ (s.clients i).active = true := by
  rw [Server.activeClients, List.mem_filter, List.mem_range]

theorem Server.activeClients_afterRead (fd : ℕ) (inp : Input) :
    (s.afterRead fd inp).activeClients = s.activeClients := by
  rw [Server.activeClients, Server.activeClients]
  exact List.filter_congr fun i _ => s.afterRead_active fd inp i

/-- **No operation on the connected clients makes one active.** -/
theorem kept_forall_active (p : ℕ → Prop) :
    Kept fun s => ∀ i, (s.clients i).active = true → p i where
  writeAndFlush {s s' fd data answers} h hcall i hactive := by
    obtain ⟨hother, -, hname⟩ := Server.writeAndFlush_clients hcall
    rcases eq_or_ne i fd with rfl | hne
    · exact h i (hname hactive).1
    · rw [hother i hne] at hactive
      exact h i hactive
  putInbuff {s fd} bytes h i hactive := by
    obtain ⟨inbuff, hclient⟩ := s.putInbuff_clients fd bytes i
    rw [hclient] at hactive
    exact h i hactive
  disconnectClient {s fd} h _ i hactive := by
    rcases eq_or_ne i fd with rfl | hne
    · rw [Server.disconnectClient_clients_self] at hactive
      cases hactive
    · rw [Server.disconnectClient_clients_of_ne _ _ hne] at hactive
      exact h i hactive
  putAlias {s fd name} h _ i hactive := by
    rw [Server.putAlias] at hactive
    rcases eq_or_ne i fd with rfl | hne
    · rw [Server.setClient_clients_self] at hactive
      exact h i hactive
    · rw [Server.setClient_clients_of_ne _ _ _ hne] at hactive
      exact h i hactive

/-- **The descriptors of the clients** are below `FD_SETSIZE`. -/
theorem Reachable.lt_fdSetSize {opened : ℕ → Bool} {lfd : ℕ} (h : Reachable opened lfd s) :
    ∀ i, (s.clients i).active = true → i < fdSetSize := by
  induction h with
  | main =>
    intro i hactive
    cases hactive
  | @call s s' fd inp h hvalid hcall ih =>
    refine (kept_forall_active (· < fdSetSize)).callHandler ih
      (fun nfd caddr haccept i hactive => ?_) hcall
    rcases eq_or_ne i nfd with rfl | hne
    · exact (hvalid i caddr haccept).2
    · have hclient : (s.putConnection nfd caddr).clients i = s.clients i :=
        Function.update_of_ne hne ..
      rw [hclient] at hactive
      exact ih i hactive

end ActiveClients

end TikFachpraktika.Chat
