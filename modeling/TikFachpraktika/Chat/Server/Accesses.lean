import TikFachpraktika.Logged.Run
import TikFachpraktika.Chat.Server.Broadcast
import TikFachpraktika.Chat.Server.MsgPointer

/-!
# Accesses to the buffers of the clients

The functions of `6_network/server.c` again, with a log of their accesses to the buffers `inbuff`
and `outbuff`. A string for a queue is either somewhere else in the memory or read through a pointer
into an `inbuff`, and this pointer is used when the string is queued.

## Main definitions

* `Access`: an access to a buffer.
* `Piece`: a string for a queue, with the place it is read from.
* `Server.loggedProcessClient`: `server_process_client` and the functions that it calls.

## Main results

* `Server.result_loggedProcessClient`: without the log these are the functions of the model.
-/

namespace TikFachpraktika.Chat

open Posix

/-- An access to a buffer of a client. The memory `mem` is what the pointer refers to when it is
used, and `none` when it is freed.
* `string`: a string in `inbuff`, of which `inLen` bytes are allocated, is read from `pos` on;
* `block`: bytes whose number is given are read or written. -/
inductive Access
  | string (mem : Option (List Byte)) (inLen pos : ℕ)
  | block (mem : Option (List Byte))

/-- A string for a queue. The `source` is the client and the position in its `inbuff` from which the
string is read, if it is read from there. -/
structure Piece where
  data : List Byte
  source : Option (ℕ × ℕ)

/-- A string that is not in a buffer of a client. -/
def Piece.plain (data : List Byte) : Piece := ⟨data, none⟩

namespace Server

variable (s : Server) (fd : ℕ) (inp : Input)

/-! ### Output -/

/-- Reading the string at `pos` in the `inbuff` of `fd`. -/
def stringAccess (pos : ℕ) : Access :=
  .string (s.clients fd).inbuff (s.clients fd).inLen pos

/-- Reading the string of a piece. -/
def pieceAccess (p : Piece) : Option Access :=
  p.source.map fun (owner, pos) => s.stringAccess owner pos

/-- The accesses of `server_write_fd_queue`: `strlen` reads the string, and `strlcat` appends it to
`outbuff` if there is room. -/
def queueAccesses (p : Piece) : List Access :=
  let c := s.clients fd
  (s.pieceAccess p).toList ++
    if (c.outLen + 2 ^ 64 - c.outUsed) % 2 ^ 64 > (cstr p.data).length then [.block c.outbuff]
    else []

/-- The accesses of `server_flush_queued_data`. -/
def flushAccesses : List Access :=
  let c := s.clients fd
  if c.active = false then []
  else if c.outUsed = 0 then []
  else [.block c.outbuff]

/-- `server_write_fd_queue`. -/
def loggedWriteFdQueue (p : Piece) : Logged Access Fault Server :=
  ⟨s.queueAccesses fd p, .ok (s.writeFdQueue fd p.data)⟩

/-- `server_flush_queued_data`. -/
def loggedFlushQueuedData (answers : List WriteAnswer) : Logged Access Fault Server :=
  ⟨s.flushAccesses fd, s.flushQueuedData fd answers⟩

/-- The pieces queued one after the other. -/
def loggedWriteAll (pieces : List Piece) : Logged Access Fault Server :=
  pieces.foldlM (fun s p => s.loggedWriteFdQueue fd p) s

/-- A queue and `server_schedule_write`. -/
def loggedSend (pieces : List Piece) (answers : List WriteAnswer) : Logged Access Fault Server := do
  let s ← s.loggedWriteAll fd pieces
  s.loggedFlushQueuedData fd answers

/-- Strings that are not in a buffer of a client, and `server_schedule_write`. -/
def loggedReply (data : List (List Byte)) (answers : List WriteAnswer) :
    Logged Access Fault Server :=
  s.loggedSend fd (data.map .plain) answers

/-! ### Handlers -/

/-- `server_process_alias`. The pointer `alias` is used unless the client has an alias. -/
def loggedProcessAlias (inbuff : List Byte) : Logged Access Fault Server :=
  let name := inbuff.drop magicStrAlias.length
  if (s.clients fd).hasAlias then
    s.loggedReply fd [str "<Server alias cmd>: You have already set an alias."] (inp.writes fd)
  else do
    Logged.tell [s.stringAccess fd magicStrAlias.length]
    if name.length > aliasMaxlen then
      s.loggedReply fd [str "<Server alias cmd>: Sorry, this alias is too long (max 32 chars)."]
        (inp.writes fd)
    else if name.any (· ∉ aliasAllowedChars) then
      s.loggedReply fd
        [str "<Server alias cmd>: Sorry, this alias contains invalid chars (allowed: a-zA-Z0-9_-)."]
        (inp.writes fd)
    else
      match ← Logged.lift (s.findClient (s.nameMatches fd name)) with
      | some _ =>
        s.loggedReply fd [str "<Server alias cmd>: Sorry, this alias is already in use."]
          (inp.writes fd)
      | none =>
        (s.putAlias fd name).loggedSend fd
          [.plain (str "<Server alias cmd>: OK, alias set to "),
            ⟨name, some (fd, magicStrAlias.length)⟩, .plain (str ".")]
          (inp.writes fd)

/-- A loop over all active clients. -/
def loggedForActive (body : Server → ℕ → Logged Access Fault Server) : Logged Access Fault Server :=
  (List.range fdSetSize).foldlM (fun s i => if (s.clients i).active then body s i else pure s) s

/-- The body of the loop of `server_process_message_from`. -/
def loggedMessageBody (text : List Byte) (s : Server) (i : ℕ) : Logged Access Fault Server :=
  if (s.clients i).active then
    s.loggedSend i
      ((s.messageHead fd i).map .plain ++ [⟨s.textOf fd inp text i, some (fd, 0)⟩])
      (inp.writes i)
  else pure s

/-- `server_process_message_from`. -/
def loggedProcessMessageFrom (inbuff : List Byte) : Logged Access Fault Server :=
  (List.range fdSetSize).foldlM (loggedMessageBody fd inp inbuff) s

/-- `server_process_help`. -/
def loggedProcessHelp : Logged Access Fault Server :=
  s.loggedReply fd
    ((helpLines.flatMap fun (command, desc) =>
      [str "<Server help cmd>: ", command, str " -> ", desc, str "\n"]) ++
      [str "<Server who cmd>: -- End of List --\n"])
    (inp.writes fd)

/-- `server_process_cow`. The pointer `msg` is used for the command, before anything is sent. -/
def loggedProcessCow : Logged Access Fault Server := do
  Logged.tell [s.stringAccess fd magicStrCow.length]
  let result := inp.popen.take (1024 * 8)
  if result.length > 0 then
    s.loggedForActive fun s i =>
      s.loggedReply i
        [str "<Server cowsay cmd>:\n", result, str "<Server cowsay cmd>: this comes from user ",
          s.getClientRepr fd, str ".\n"]
        (inp.writes i)
  else
    s.loggedReply fd
      [str "<Server cowsay cmd>: 'cowsay' command not installed on server!\n"] (inp.writes fd)

/-- `server_process_who`. -/
def loggedProcessWho : Logged Access Fault Server := do
  if s.read.fds 0 then Logged.lift (throw .badPointer)
  else
    let active := (List.range (s.read.max + 1)).filter fun i => s.read.fds i && (s.clients i).active
    s.loggedReply fd
      ((active.flatMap fun i =>
        [str "<Server who cmd>: ", s.getClientRepr i] ++ (if fd = i then [str " (you)"] else []) ++
          [str "\n"]) ++
        [str "<Server who cmd>: -- End of List --\n"])
      (inp.writes fd)

/-- What is queued for the sender of a private message before the message. -/
def privateHead (j : ℕ) : List (List Byte) :=
  [s.getClientRepr fd, str " (-> ", s.getClientRepr j, str "): "]

/-- The end of `server_process_private` for the client `j`; `msg` is used for both queues. -/
def loggedPrivateTo (inbuff : List Byte) (j : ℕ) : Option ℕ → Logged Access Fault Server
  | none => do
    let _ ← s.loggedWriteAll fd ((s.privateHead fd j).map .plain)
    Logged.lift (throw .badPointer)
  | some pos => do
    let msg := inbuff.drop pos
    let s ← s.loggedSend fd ((s.privateHead fd j).map .plain ++ [⟨msg, some (fd, pos)⟩])
      (inp.writes fd)
    s.loggedSend j
      [.plain (s.getClientRepr fd), .plain (str " [priv] :"),
        ⟨s.textOf fd inp msg j, some (fd, pos)⟩]
      (inp.writes j)

/-- `server_process_private`. Its first loop reads the name. -/
def loggedProcessPrivate (inbuff : List Byte) : Logged Access Fault Server := do
  Logged.tell [s.stringAccess fd magicStrPrivate.length]
  match ← Logged.lift (s.findClient (s.nameMatches fd (privateName inbuff))) with
  | none => s.loggedReply fd aliasNotFound (inp.writes fd)
  | some j => s.loggedPrivateTo fd inp inbuff j (msgPointer inbuff)

/-- The handlers of the branches of `server_process_client`. -/
def loggedCommand (inbuff : List Byte) : Command → Logged Access Fault Server
  | .who => s.loggedProcessWho fd inp
  | .setAlias => s.loggedProcessAlias fd inp inbuff
  | .help => s.loggedProcessHelp fd inp
  | .cow => s.loggedProcessCow fd inp
  | .privateMsg => s.loggedProcessPrivate fd inp inbuff
  | .message => s.loggedProcessMessageFrom fd inp inbuff

/-- `server_process_client`. The `memset` and the `read` store into `inbuff`; the string in it is
read for the comparisons unless the `read` has returned nothing. -/
def loggedProcessClient : Logged Access Fault Server := do
  Logged.tell [.block (s.clients fd).inbuff]
  let bytes := (inp.read.getD []).take (s.clients fd).inLen
  let s' := s.putInbuff fd bytes
  Logged.tell (if bytes = [] then [] else [s'.stringAccess fd 0])
  match s.processed fd inp with
  | none => pure (if inp.errno = eagain then s' else s'.disconnectClient fd)
  | some text => s'.loggedCommand fd inp text (commandOf text)

/-! ### The functions without the log -/

theorem result_loggedWriteAll (pieces : List Piece) :
    (s.loggedWriteAll fd pieces).result = .ok (s.writeAll fd (pieces.map Piece.data)) := by
  rw [loggedWriteAll, Logged.result_foldlM]
  induction pieces generalizing s with
  | nil => rfl
  | cons p pieces ih =>
    rw [List.foldlM_cons, loggedWriteFdQueue, ok_bind, ih]
    rfl

theorem result_loggedSend (pieces : List Piece) (answers : List WriteAnswer) :
    (s.loggedSend fd pieces answers).result =
      s.writeAndFlush fd (pieces.map Piece.data) answers := by
  rw [loggedSend, Logged.result_bind, result_loggedWriteAll, ok_bind, loggedFlushQueuedData,
    writeAndFlush]

theorem map_data_plain (data : List (List Byte)) :
    (data.map Piece.plain).map Piece.data = data := by
  rw [List.map_map]
  exact List.map_id data

theorem result_loggedReply (data : List (List Byte)) (answers : List WriteAnswer) :
    (s.loggedReply fd data answers).result = s.writeAndFlush fd data answers := by
  rw [loggedReply, result_loggedSend, map_data_plain]

theorem result_loggedForActive {body : Server → ℕ → Logged Access Fault Server}
    {body' : Server → ℕ → Except Fault Server} (h : ∀ s i, (body s i).result = body' s i) :
    (s.loggedForActive body).result = s.forActive body' := by
  rw [loggedForActive, Logged.result_foldlM, forActive]
  refine congrArg (fun f => (List.range fdSetSize).foldlM f s) (funext fun s => funext fun i => ?_)
  rw [Logged.result_ite, h, Logged.result_pure]
  rfl

theorem result_loggedProcessAlias (inbuff : List Byte) :
    (s.loggedProcessAlias fd inp inbuff).result = s.processAlias fd inp inbuff := by
  rw [loggedProcessAlias, processAlias]
  split_ifs with hhas hlong hchars
  · rw [result_loggedReply]
  · rw [Logged.result_bind, Logged.result_tell, ok_bind, result_loggedReply]
  · rw [Logged.result_bind, Logged.result_tell, ok_bind, result_loggedReply]
  · rw [Logged.result_bind, Logged.result_tell, ok_bind, Logged.result_bind, Logged.result_lift]
    refine congrArg _ (funext fun found => ?_)
    cases found with
    | some i =>
      dsimp only
      rw [result_loggedReply]
    | none =>
      dsimp only
      rw [result_loggedSend, List.map_cons, List.map_cons, List.map_singleton, putAlias,
        Piece.plain, Piece.plain]

theorem result_loggedMessageBody (text : List Byte) (i : ℕ) :
    (loggedMessageBody fd inp text s i).result = messageBody fd text inp s i := by
  rw [loggedMessageBody, messageBody, Logged.result_ite, result_loggedSend, List.map_append,
    map_data_plain]
  rfl

theorem result_loggedProcessMessageFrom (inbuff : List Byte) :
    (s.loggedProcessMessageFrom fd inp inbuff).result = s.processMessageFrom fd inp inbuff := by
  rw [loggedProcessMessageFrom, Logged.result_foldlM, processMessageFrom_eq]
  refine congrArg (fun f => (List.range fdSetSize).foldlM f s) (funext fun s => funext fun i => ?_)
  exact s.result_loggedMessageBody fd inp inbuff i

theorem result_loggedProcessCow : (s.loggedProcessCow fd inp).result = s.processCow fd inp := by
  rw [loggedProcessCow, Logged.result_bind, Logged.result_tell, ok_bind, processCow]
  dsimp only
  rw [Logged.result_ite, result_loggedReply]
  refine if_congr Iff.rfl (s.result_loggedForActive fun s i => ?_) rfl
  rw [result_loggedReply]

theorem result_loggedProcessWho : (s.loggedProcessWho fd inp).result = s.processWho fd inp := by
  rw [loggedProcessWho, Logged.result_ite, processWho]
  split_ifs with hzero
  · rfl
  · rw [result_loggedReply]

theorem privateCopy_eq (j : ℕ) (msg : List Byte) :
    s.privateCopy fd j msg = s.privateHead fd j ++ [msg] := by
  rw [privateCopy, privateHead, List.cons_append, List.cons_append, List.cons_append,
    List.cons_append, List.nil_append]

theorem result_loggedPrivateTo_some (inbuff : List Byte) (j pos : ℕ) :
    (s.loggedPrivateTo fd inp inbuff j (some pos)).result =
      s.writeAndFlush fd (s.privateCopy fd j (inbuff.drop pos)) (inp.writes fd) >>= fun s =>
        s.writeAndFlush j (s.privateText fd (s.textOf fd inp (inbuff.drop pos) j))
          (inp.writes j) := by
  rw [loggedPrivateTo, Logged.result_bind, result_loggedSend, List.map_append, map_data_plain,
    List.map_singleton, privateCopy_eq]
  refine congrArg _ (funext fun s => ?_)
  rw [result_loggedSend, List.map_cons, List.map_cons, List.map_singleton, privateText,
    Piece.plain, Piece.plain]

theorem result_loggedProcessPrivate (inbuff : List Byte) :
    (s.loggedProcessPrivate fd inp inbuff).result = s.processPrivate fd inp inbuff := by
  rw [loggedProcessPrivate, Logged.result_bind, Logged.result_tell, ok_bind, Logged.result_bind,
    Logged.result_lift, processPrivate_eq]
  refine congrArg _ (funext fun found => ?_)
  cases found with
  | none =>
    dsimp only
    rw [result_loggedReply]
  | some j =>
    dsimp only
    cases msgPointer inbuff with
    | none =>
      rw [loggedPrivateTo, Logged.result_bind, result_loggedWriteAll, ok_bind, Logged.result_lift]
    | some pos => rw [result_loggedPrivateTo_some]

theorem result_loggedCommand (inbuff : List Byte) (command : Command) :
    (s.loggedCommand fd inp inbuff command).result = s.runCommand fd inp inbuff command := by
  cases command with
  | who => exact s.result_loggedProcessWho fd inp
  | setAlias => exact s.result_loggedProcessAlias fd inp inbuff
  | help => rw [loggedCommand, loggedProcessHelp, result_loggedReply, runCommand, processHelp]
  | cow => exact s.result_loggedProcessCow fd inp
  | privateMsg => exact s.result_loggedProcessPrivate fd inp inbuff
  | message => exact s.result_loggedProcessMessageFrom fd inp inbuff

/-- **Without the log** the functions are those of the model. -/
theorem result_loggedProcessClient :
    (s.loggedProcessClient fd inp).result = s.processClient fd inp := by
  rw [loggedProcessClient, Logged.result_bind, Logged.result_tell, ok_bind, processClient_eq]
  dsimp only
  rw [Logged.result_bind, Logged.result_tell, ok_bind]
  cases s.processed fd inp with
  | none =>
    dsimp only
    rw [Logged.result_pure]
    split_ifs <;> rfl
  | some text =>
    dsimp only
    rw [processString_eq]
    exact result_loggedCommand _ fd inp text _

end Server

end TikFachpraktika.Chat
