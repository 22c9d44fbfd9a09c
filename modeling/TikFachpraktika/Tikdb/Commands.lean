import TikFachpraktika.Tikdb.Format

/-!
# The tikdb commands

`5_filesys/tikdb.c`: the functions behind `tikdb create`, `tikdb add` and `tikdb get`, each as a
function of the bytes of the database file. A `panic` ends a command with its message; a read of
`db_pay` beyond its end ends it with `overread`. Writes are carried out in full, so of the checks
of their results only the conversion of the count to `int` remains.

## Main definitions

* `Failure`: how a command ends without `exit(0)`.
* `createDbFd`, `checkDbHdr`, `addKeyValPay`, `addKeyVal`, `getKeyVal`: the functions
  `__create_db`, `check_db_hdr`, `__add_key_val`, `add_key_val` and `get_key_val`, with their
  loops `addKeyValLoop` and `getKeyValLoop`.
* `Cmd`, `dbAfter`: command histories, the most recent command first.
-/

namespace TikFachpraktika.Tikdb

open Posix

/-- The end of a command that does not reach `exit(0)`. -/
inductive Failure
  | panic (serror : String)
  | overread
  deriving DecidableEq

/-- A NUL-terminated string in memory, without its terminator. -/
structure CStr where
  bytes : List Byte
  notMem : (0 : Byte) ∉ bytes
  length_lt : bytes.length < 2 ^ 63

/-- `__create_db`: the new file with its superblock. -/
def createDbFd : OpenFile :=
  OpenFile.write ⟨[], 0, false⟩ superblock.encode

/-- `check_db_hdr`. -/
def checkDbHdr (fd : OpenFile) : Except Failure OpenFile :=
  let (ret, buf, fd) := fd.read FileHdr.size .full
  let db := FileHdr.decode buf
  if ret ≠ FileHdr.size then throw (.panic "Could not read db\n")
  else if db.magic ≠ tikdbMagic then throw (.panic "Wrong magic number!\n")
  else if db.versionMajor ≠ tikdbVersionMaj then throw (.panic "Wrong version major number!\n")
  else if db.versionMinor ≠ tikdbVersionMin then throw (.panic "Wrong version minor number!\n")
  else pure fd

/-- `!memcmp(hdr->key, key, min(strlen(key), sizeof(hdr->key) - 1))`. -/
def keyMatches (key : List Byte) (hdr : DataHdr) : Bool :=
  memcmp (min key.length 31) hdr.key.1 key = 0

/-- The header of a new record: zeroed, with the key cut to 31 bytes and both times `now`. -/
def newHdr (key : List Byte) (vlen : ℕ) (now : Int64) : DataHdr where
  key := CharArray.fill 32 (key.take (min key.length 31))
  tsR := now
  tsW := now
  len := UInt32.ofNat vlen
  pad := 0

/-- The writes of a new record. `ret` is an `int` and is compared with the `size_t` `vlen`. -/
def writeNew (fd : OpenFile) (key val : List Byte) (now : Int64) : Except Failure OpenFile :=
  if cSizeT (cInt val.length) ≠ val.length then throw (.panic "Writing to db .. corrupted!\n")
  else pure ((fd.write (newHdr key val.length now).encode).write val)

/-- The `while` loop of `__add_key_val` from `off` on. -/
def addKeyValLoop (key val : List Byte) (now : Int64) (dbPay : List Byte) (off : ℕ)
    (written : Bool) (fd : OpenFile) : Except Failure (Bool × OpenFile) :=
  if _hoff : off < dbPay.length then
    let raw := (dbPay.drop off).take DataHdr.size
    let hdr := DataHdr.decode raw
    let next := off + DataHdr.size + hdr.len.toNat
    -- `memcmp` reads as much of the key field as it compares
    if !written && decide (dbPay.length < off + min key.length 31) then throw .overread
    else if !written && keyMatches key hdr then do
      let fd ← writeNew fd key val now
      -- of a record that is replaced only `hdr->len` is read
      if dbPay.length < off + DataHdr.offLen + 4 then throw .overread
      else addKeyValLoop key val now dbPay next true fd
    else if dbPay.length < next then throw .overread
    else
      -- the `int` result is compared with the `uint32_t` length, so they always agree
      addKeyValLoop key val now dbPay next written
        ((fd.write raw).write ((dbPay.drop (off + DataHdr.size)).take hdr.len.toNat))
  else pure (written, fd)
termination_by dbPay.length - off
decreasing_by all_goals simp only [DataHdr.size]; omega

/-- The end of `__add_key_val`: a record that the loop has not written is appended. -/
def addKeyValEnd (key val : List Byte) (now : Int64) : Bool × OpenFile → Except Failure OpenFile
  | (written, fd) => if !written then writeNew fd key val now else pure fd

/-- `__add_key_val`: the file is created again and written from `db_pay`. -/
def addKeyValPay (key val : List Byte) (now : Int64) (dbPay : List Byte) :
    Except Failure (List Byte) := do
  let end_ ← addKeyValLoop key val now dbPay 0 false createDbFd >>= addKeyValEnd key val now
  return end_.data

/-- `add_key_val` on the file `db`, if there is one. -/
def addKeyVal (db : Option (List Byte)) (key val : List Byte) (now : Int64) :
    Except Failure (List Byte) :=
  match db with
  | none => throw (.panic "Cannot open file!\n")
  | some data => do
    let fd ← checkDbHdr ⟨data, 0, false⟩
    let dbLen := data.length - FileHdr.size
    if dbLen > 0 then
      let (ret, dbPay, _) := fd.read dbLen .full
      if cSizeT (cInt ret) ≠ dbLen then throw (.panic "Cannot read out db!\n")
      else addKeyValPay key val now dbPay
    else
      let fd ← writeNew fd key val now
      return fd.data

/-- The `while` loop of `get_key_val`. `hdr` is the content of the header buffer before the
`read`; the result is the header and the buffer of the record that is printed. -/
def getKeyValLoop (key : List Byte) (hdr : List Byte) (fd : OpenFile) :
    Except Failure (Option (DataHdr × List Byte)) :=
  if _hread : 0 < (fd.read DataHdr.size .full).1 then
    let bs := (fd.read DataHdr.size .full).2.1
    let fd' := (fd.read DataHdr.size .full).2.2
    let h := DataHdr.decode (bs ++ hdr.drop bs.length)
    if keyMatches key h then
      let (ret, buff, _) := fd'.read h.len.toNat .full
      -- the `int` result is compared with the `uint32_t` length
      if (cInt ret) % 2 ^ 32 ≠ h.len.toNat then throw (.panic "Cannnot read value!\n")
      else pure (some (h, buff))
    else
      getKeyValLoop key (List.replicate DataHdr.size 0) (fd'.lseekCur h.len.toNat)
  else pure none
termination_by fd.data.length - fd.offset
decreasing_by
  have hlen := fd.length_available DataHdr.size
  simp only [OpenFile.read, OpenFile.lseekCur] at _hread ⊢
  omega

/-- `get_key_val` on the file `db`; `stack` is what the uninitialised header buffer holds. -/
def getKeyVal (db : Option (List Byte)) (stack : CharArray DataHdr.size) (key : List Byte) :
    Except Failure (Option (DataHdr × List Byte)) :=
  match db with
  | none => throw (.panic "Cannot open file!\n")
  | some data => do
    let fd ← checkDbHdr ⟨data, 0, false⟩
    getKeyValLoop key stack.1 fd

/-! ### Command histories -/

/-- A command on one database. -/
inductive Cmd
  | create
  | add (key val : CStr) (now : Int64)

/-- The file after a command that reaches `exit(0)`. -/
def execute (db : Option (List Byte)) : Cmd → Except Failure (List Byte)
  | .create => pure createDbFd.data
  | .add key val now => addKeyVal db key.bytes val.bytes now

/-- The file after a history of commands, each of which reaches `exit(0)`; at first there is no
file. -/
def dbAfter : List Cmd → Except Failure (Option (List Byte))
  | [] => pure none
  | cmd :: history => do
    let db ← dbAfter history
    let data ← execute db cmd
    return some data

end TikFachpraktika.Tikdb
