import TikFachpraktika.Chat.Server.State

/-!
# The commands of the chat server

What `6_network/server.c` does with the bytes that one `read` from a client returns, and with a
new connection. The functions get the string in `inbuff`; when the sender is disconnected on the
way its `inbuff` is freed, and what a later access finds there is part of the `Input`.

The loops over the clients begin with a pointer that is `NULL` for descriptor 0, so that they
fail when this descriptor is registered.

## Main definitions

* `Input`: what one call of a handler gets from the system.
* `processAlias`, `processMessageFrom`, `processHelp`, `processCow`, `processWho`,
  `processPrivate`, `processClient`, `acceptClient`: the functions of the same names.
-/

namespace TikFachpraktika.Chat

open Posix

/-- `ALIAS_MAXLEN`. -/
def aliasMaxlen : ℕ := 15

/-- `ALIAS_ALLOWED_CHARS`. -/
def aliasAllowedChars : List Byte :=
  str "abcdefghijklmnopqrstuvwxyzABCDEFGHIJKLMNOPQRSTUVWXYZ01234567890_-"

/-- `MAGIC_STR_WHO`. -/
def magicStrWho : List Byte := str "\\who"

/-- `MAGIC_STR_ALIAS`. -/
def magicStrAlias : List Byte := str "\\alias "

/-- `MAGIC_STR_PRIVATE`. -/
def magicStrPrivate : List Byte := str "@"

/-- `MAGIC_STR_HELP`. -/
def magicStrHelp : List Byte := str "\\help"

/-- `MAGIC_STR_COW`. -/
def magicStrCow : List Byte := str "\\cow "

/-- `EAGAIN`. -/
def eagain : ℕ := 11

/-- What one call of a handler gets from the system.
* `accept`: the new descriptor and the peer of `accept`, `none` for an error;
* `read`: the bytes of `read`, `none` for an error;
* `errno`: the value of `errno` after the `read`;
* `beyond`: the memory behind an `inbuff` that is full;
* `freed`: what a freed `inbuff` holds when the text for a client is taken from it;
* `popen`: the bytes that `fread` gets from the process;
* `writes`: the answers of `write` for each descriptor. -/
structure Input where
  accept : Option (ℕ × InAddr)
  read : Option (List Byte)
  errno : ℕ
  beyond : List Byte
  freed : ℕ → List Byte
  popen : List Byte
  writes : ℕ → List WriteAnswer

namespace Server

variable (s : Server) (fd : ℕ) (inp : Input)

/-- The first registered client after descriptor 0 that satisfies `p`. -/
def findClient (p : ℕ → Bool) : Except Fault (Option ℕ) :=
  if s.read.fds 0 then throw .badPointer
  else pure ((List.range (s.read.max + 1)).find? fun i => s.read.fds i && p i)

/-- Another active client whose alias `name` accepts. -/
def nameMatches (name : List Byte) (i : ℕ) : Bool :=
  (s.clients i).active && (s.clients i).hasAlias && decide (fd ≠ i) &&
    decide (0 = strnicmp name (s.clients i).aliasStr name.length)

/-- `server_process_alias`. -/
def processAlias (inbuff : List Byte) : Except Fault Server :=
  let name := inbuff.drop magicStrAlias.length
  if (s.clients fd).hasAlias then
    s.writeAndFlush fd [str "<Server alias cmd>: You have already set an alias."] (inp.writes fd)
  else if name.length > aliasMaxlen then
    s.writeAndFlush fd [str "<Server alias cmd>: Sorry, this alias is too long (max 32 chars)."]
      (inp.writes fd)
  else if name.any (· ∉ aliasAllowedChars) then
    s.writeAndFlush fd
      [str "<Server alias cmd>: Sorry, this alias contains invalid chars (allowed: a-zA-Z0-9_-)."]
      (inp.writes fd)
  else do
    match ← s.findClient (s.nameMatches fd name) with
    | some _ =>
      s.writeAndFlush fd [str "<Server alias cmd>: Sorry, this alias is already in use."]
        (inp.writes fd)
    | none =>
      let s := s.setClient fd { s.clients fd with hasAlias := true, aliasStr := name }
      s.writeAndFlush fd [str "<Server alias cmd>: OK, alias set to ", name, str "."]
        (inp.writes fd)

/-- A loop over all active clients. -/
def forActive (body : Server → ℕ → Except Fault Server) : Except Fault Server :=
  (List.range fdSetSize).foldlM (fun s i => if (s.clients i).active then body s i else pure s) s

/-- The string that is found in the `inbuff` of `fd` for the client `i`. -/
def textOf (text : List Byte) (i : ℕ) : List Byte :=
  if (s.clients fd).inbuff.isSome then text else inp.freed i

/-- `server_process_message_from`. -/
def processMessageFrom (inbuff : List Byte) : Except Fault Server :=
  s.forActive fun s i =>
    s.writeAndFlush i
      ([s.getClientRepr fd] ++ (if i = fd then [str " (you) "] else []) ++
        [str ": ", s.textOf fd inp inbuff i])
      (inp.writes i)

/-- The commands and descriptions of `server_process_help`. -/
def helpLines : List (List Byte × List Byte) :=
  [(magicStrWho, str "Shows a list of all available users"),
    (magicStrAlias, str "Set your alias (\\alias <name>)"),
    (magicStrPrivate, str "Private messages (@<alias> <message>)"),
    (magicStrHelp, str "Shows this help"),
    (magicStrCow, str "Invoke Cowsay (\\cowsay <message>)")]

/-- `server_process_help`. -/
def processHelp : Except Fault Server :=
  s.writeAndFlush fd
    ((helpLines.flatMap fun (command, desc) =>
      [str "<Server help cmd>: ", command, str " -> ", desc, str "\n"]) ++
      [str "<Server who cmd>: -- End of List --\n"])
    (inp.writes fd)

/-- `server_process_cow`; at most `RESULT_BUFLEN` bytes are read from the process. -/
def processCow : Except Fault Server :=
  let result := inp.popen.take (1024 * 8)
  if result.length > 0 then
    s.forActive fun s i =>
      s.writeAndFlush i
        [str "<Server cowsay cmd>:\n", result, str "<Server cowsay cmd>: this comes from user ",
          s.getClientRepr fd, str ".\n"]
        (inp.writes i)
  else
    s.writeAndFlush fd
      [str "<Server cowsay cmd>: 'cowsay' command not installed on server!\n"] (inp.writes fd)

/-- `server_process_who`. -/
def processWho : Except Fault Server := do
  if s.read.fds 0 then throw .badPointer
  let active := (List.range (s.read.max + 1)).filter fun i => s.read.fds i && (s.clients i).active
  s.writeAndFlush fd
    ((active.flatMap fun i =>
      [str "<Server who cmd>: ", s.getClientRepr i] ++ (if fd = i then [str " (you)"] else []) ++
        [str "\n"]) ++
      [str "<Server who cmd>: -- End of List --\n"])
    (inp.writes fd)

/-- The loop of `server_process_private` that takes the name of the addressed client from the
message; `msg` is the text behind the last character taken. -/
def privateLoop : ℕ → List Byte → List Byte → Option (List Byte) → List Byte × Option (List Byte)
  | 0, _, name, msg => (name, msg)
  | n + 1, rest, name, msg =>
    let chr := rest.headD 0
    if chr = 32 ∨ chr = 0 then (name, msg)
    else privateLoop n rest.tail (name ++ [chr]) (some rest.tail)

/-- `server_process_private`. -/
def processPrivate (inbuff : List Byte) : Except Fault Server := do
  let (name, msg) :=
    privateLoop aliasMaxlen (inbuff.drop magicStrPrivate.length) [] none
  match ← s.findClient (s.nameMatches fd name) with
  | none => s.writeAndFlush fd [str "<Server @ cmd>: Alias not found."] (inp.writes fd)
  | some cToFd =>
    match msg with
    | none => throw .badPointer
    | some msg =>
      let s ← s.writeAndFlush fd
        [s.getClientRepr fd, str " (-> ", s.getClientRepr cToFd, str "): ", msg] (inp.writes fd)
      s.writeAndFlush cToFd [s.getClientRepr fd, str " [priv] :", s.textOf fd inp msg cToFd]
        (inp.writes cToFd)

/-- The string in `inbuff` after a `read` of `bytes`. -/
def inString (inLen : ℕ) (bytes beyond : List Byte) : List Byte :=
  cstr (if bytes.length < inLen then bytes else bytes ++ beyond)

/-- The branches of `server_process_client` on the string in `inbuff`. -/
def processString (inbuff : List Byte) : Except Fault Server :=
  if inbuff.length = magicStrWho.length ∧ strnicmp inbuff magicStrWho magicStrWho.length = 0 then
    s.processWho fd inp
  else if inbuff.length > magicStrAlias.length ∧
      strnicmp inbuff magicStrAlias magicStrAlias.length = 0 then
    s.processAlias fd inp inbuff
  else if inbuff.length = magicStrHelp.length ∧
      strnicmp inbuff magicStrHelp magicStrHelp.length = 0 then
    s.processHelp fd inp
  else if inbuff.length > magicStrCow.length ∧
      strnicmp inbuff magicStrCow magicStrCow.length = 0 then
    s.processCow fd inp
  else if strncmp magicStrPrivate.length inbuff magicStrPrivate = 0 then
    s.processPrivate fd inp inbuff
  else s.processMessageFrom fd inp inbuff

/-- `server_process_client`. -/
def processClient : Except Fault Server :=
  let c := s.clients fd
  let bytes := (inp.read.getD []).take c.inLen
  let s := s.setClient fd { c with inbuff := c.inbuff.map fun _ => bytes }
  let inbuff := inString c.inLen bytes inp.beyond
  if bytes = [] ∨ inbuff = [] then
    if inp.errno = eagain then pure s else pure (s.disconnectClient fd)
  else s.processString fd inp inbuff

/-- `server_accept_client`. -/
def acceptClient : Except Fault Server :=
  match inp.accept with
  | none => pure s
  | some (nfd, caddr) =>
    let s := { s with
      opened := Function.update s.opened nfd true, sent := Function.update s.sent nfd [] }
    if (s.clients nfd).active then throw .assertFailed
    else
      let s := s.setClient nfd ⟨true, caddr, some [], initQsiz, 0, some [], initQsiz, false, []⟩
      let s := { s with read := registerFd s.read nfd .processClient }
      s.writeAndFlush nfd
        [str "Hello from server!\n", str "Enter '\\help' for a list of commands.\n"]
        (inp.writes nfd)

end Server

end TikFachpraktika.Chat
