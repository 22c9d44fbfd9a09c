import Mathlib.Logic.Function.Basic
import TikFachpraktika.Chat.Common

/-!
# The state of the chat server

`struct eventset` of `6_network/server.c` together with what the kernel knows about the
descriptors, and the functions that registration, disconnection and output are made of. A pointer
to a buffer is `none` when it is `NULL` or freed.

## Main definitions

* `Fdvec`, `Client`, `Server`: the tables, and the state of the server process.
* `registerFd`, `unregisterFd`, `disconnectClient`: `server_event_register_fd`,
  `server_event_unregister_fd` and `server_disconnect_client`.
* `writeFdQueue`, `flushQueuedData`: `server_write_fd_queue` and `server_flush_queued_data`.
* `getClientRepr`: `server_get_client_repr`.
-/

namespace TikFachpraktika.Chat

open Posix

/-- `FD_SETSIZE`. -/
def fdSetSize : ℕ := 1024

/-- The functions that are registered for a descriptor. -/
inductive Handler
  | acceptClient
  | processClient
  deriving DecidableEq

/-- `struct fdvec`. -/
structure Fdvec where
  fds : ℕ → Bool
  f : ℕ → Option Handler
  max : ℕ

/-- `struct in_addr`: the four bytes in network order. -/
structure InAddr where
  b0 : Byte
  b1 : Byte
  b2 : Byte
  b3 : Byte
  deriving DecidableEq

/-- `struct client`. Of `sin` only the address is used; `aliasStr` is the string in
the array `alias`. -/
structure Client where
  active : Bool
  sin : InAddr
  outbuff : Option (List Byte)
  outLen : ℕ
  outUsed : ℕ
  inbuff : Option (List Byte)
  inLen : ℕ
  hasAlias : Bool
  aliasStr : List Byte
  deriving DecidableEq

/-- The static `eset`, and the kernel's side: which descriptors are open, and the bytes that have
been written to each connection. -/
structure Server where
  read : Fdvec
  clients : ℕ → Client
  opened : ℕ → Bool
  sent : ℕ → List Byte

/-- How a call ends that does not return: the `assert`, a call of a handler that is `NULL`, an
access through a pointer that is `NULL` or freed, and a `write` that never takes anything. -/
inductive Fault
  | assertFailed
  | nullCall
  | badPointer
  | hang
  deriving DecidableEq

/-- `server_init_fdvec`. -/
def initFdvec : Fdvec where
  fds := fun _ => false
  f := fun _ => none
  max := 0

/-- A zeroed `struct client`. -/
def Client.zero : Client where
  active := false
  sin := ⟨0, 0, 0, 0⟩
  outbuff := none
  outLen := 0
  outUsed := 0
  inbuff := none
  inLen := 0
  hasAlias := false
  aliasStr := []

/-! ### Registration -/

/-- `server_event_register_fd`. -/
def registerFd (v : Fdvec) (fd : ℕ) (f : Handler) : Fdvec where
  fds := Function.update v.fds fd true
  f := Function.update v.f fd (some f)
  max := if fd > v.max then fd else v.max

/-- The loop of `server_event_unregister_fd` over the descriptors below `fd`. -/
def maxLoop (fds : ℕ → Bool) (max fd : ℕ) : ℕ :=
  (List.range fd).foldl (fun max i => if fds i then i else max) max

/-- `server_event_unregister_fd`. -/
def unregisterFd (v : Fdvec) (fd : ℕ) : Fdvec :=
  let fds := Function.update v.fds fd false
  { fds := fds
    f := Function.update v.f fd none
    max := if fd = v.max then maxLoop fds v.max fd else v.max }

namespace Server

/-- The state with another client `fd`. -/
def setClient (s : Server) (fd : ℕ) (c : Client) : Server :=
  { s with clients := Function.update s.clients fd c }

/-- `server_disconnect_client`. -/
def disconnectClient (s : Server) (fd : ℕ) : Server :=
  { s.setClient fd { s.clients fd with
      active := false, hasAlias := false, outbuff := none, outLen := 0, outUsed := 0,
      inbuff := none, inLen := 0 } with
    read := unregisterFd s.read fd
    opened := Function.update s.opened fd false }

/-! ### Output -/

/-- `server_flush_queued_data`; `answers` are the answers of `write`. -/
def flushQueuedData (s : Server) (fd : ℕ) (answers : List WriteAnswer) : Except Fault Server :=
  let c := s.clients fd
  if c.active = false then pure s
  else if c.outUsed = 0 then pure s
  else
    match c.outbuff with
    | none => throw .badPointer
    | some outbuff =>
      let outUsed := if c.outUsed ≥ c.outLen then c.outLen - 1 else c.outUsed
      let outbuff := outbuff.set outUsed 0
      let outbuff :=
        if outbuff.getD (outUsed - 1) 0 = 10 then outbuff.set (outUsed - 1) 0 else outbuff
      match writeExact answers (CharArray.fill (outUsed + 1) outbuff).1 0 with
      | none => throw .hang
      | some (ret, out) =>
        let s := { s with sent := Function.update s.sent fd (s.sent fd ++ out) }
        if ret = 0 then pure (s.disconnectClient fd)
        else pure (s.setClient fd { c with outUsed := 0, outbuff := some [] })

/-- `server_write_fd_queue`. The difference is a `size_t` when it is compared. -/
def writeFdQueue (s : Server) (fd : ℕ) (data : List Byte) : Server :=
  let c := s.clients fd
  let data := cstr data
  if (c.outLen + 2 ^ 64 - c.outUsed) % 2 ^ 64 > data.length then
    s.setClient fd { c with
      outbuff := c.outbuff.map fun outbuff => (strlcat outbuff data c.outLen).2
      outUsed := c.outUsed + data.length }
  else s

/-- The data queued one after the other. -/
def writeAll (s : Server) (fd : ℕ) (data : List (List Byte)) : Server :=
  data.foldl (fun s d => s.writeFdQueue fd d) s

/-- A queue and `server_schedule_write`. -/
def writeAndFlush (s : Server) (fd : ℕ) (data : List (List Byte)) (answers : List WriteAnswer) :
    Except Fault Server :=
  (s.writeAll fd data).flushQueuedData fd answers

/-! ### Names of clients -/

/-- The digit of a number below ten. -/
def digit (n : ℕ) : Byte := UInt8.ofNat (48 + n % 10)

/-- A byte in decimal. -/
def decimal (b : Byte) : List Byte :=
  let n := b.toNat
  if n < 10 then [digit n]
  else if n < 100 then [digit (n / 10), digit n]
  else [digit (n / 100), digit (n / 10), digit n]

/-- `inet_ntoa`. -/
def inetNtoa (a : InAddr) : List Byte :=
  decimal a.b0 ++ 46 :: (decimal a.b1 ++ 46 :: (decimal a.b2 ++ 46 :: decimal a.b3))

/-- `server_get_client_repr`. -/
def getClientRepr (s : Server) (fd : ℕ) : List Byte :=
  if (s.clients fd).hasAlias then (s.clients fd).aliasStr else inetNtoa (s.clients fd).sin

/-! ### Field lemmas -/

section Fields

variable (s : Server) (fd : ℕ) (c : Client)

@[simp] theorem setClient_clients_self : (s.setClient fd c).clients fd = c :=
  Function.update_self ..

theorem setClient_clients_of_ne {i : ℕ} (h : i ≠ fd) :
    (s.setClient fd c).clients i = s.clients i :=
  Function.update_of_ne h ..

@[simp] theorem disconnectClient_clients_self : (s.disconnectClient fd).clients fd =
    { s.clients fd with
      active := false, hasAlias := false, outbuff := none, outLen := 0, outUsed := 0,
      inbuff := none, inLen := 0 } :=
  Function.update_self ..

theorem disconnectClient_clients_of_ne {i : ℕ} (h : i ≠ fd) :
    (s.disconnectClient fd).clients i = s.clients i :=
  Function.update_of_ne h ..

end Fields

end Server

end TikFachpraktika.Chat
