import TikFachpraktika.Tikfs.Mount

/-!
# Reading and writing a mounted file

`tikfs_file_type`, `tikfs_read` and `tikfs_write` of `5_filesys/tikfs.c`, one after the other and
not during a flush. A clean node is read from the database file; the first write copies the
content of its node into `cowbuff`, and later reads and writes use that buffer.

Offsets and sizes are the values of `off_t` and `size_t` as 64-bit patterns. The bytes of memory
that `xmalloc` and `xrealloc` return are not initialised; a call gets them as functions of the
position.

## Main definitions

* `FileType`, `fileType`: `tikfs_file_type`.
* `readNode`, `tikfsRead`: `tikfs_read` after and with the resolution of its path.
* `WriteEnv`, `writeNode`, `tikfsWrite`: `tikfs_write`.
* `Call`, `TikfsState.after`: calls and their sequences.
* `content`: the bytes of a node.

## Main results

* `readNode_eq_readSlice`: a read returns the requested part of the content of its node.
-/

namespace TikFachpraktika.Tikfs

open Posix Tikdb

/-! ### Paths -/

/-- `TIK_NONE`, `TIK_ROOT`, and `TIK_FILE` with its node. -/
inductive FileType
  | none
  | root
  | file (node : ℕ)
  deriving DecidableEq

/-- The comparison of a key with the path after its first character. -/
def pathMatches (ptr : List Byte) (n : Fnode) : Bool :=
  strncmp (min ptr.length 32) n.metaHdr.key.1 ptr = 0

/-- `tikfs_file_type`; the path is given without its terminator. -/
def fileType (table : List Fnode) (path : List Byte) : FileType :=
  if path = [47] then .root
  else
    match table.findIdx? (pathMatches path.tail) with
    | some i => .file i
    | Option.none => .none

/-- The resolution of a path looks at the keys only. -/
theorem fileType_congr {table table' : List Fnode}
    (h : table.map (fun n => n.metaHdr.key) = table'.map fun n => n.metaHdr.key)
    (path : List Byte) : fileType table path = fileType table' path := by
  have hscan (t : List Fnode) : t.findIdx? (pathMatches path.tail) =
      (t.map fun n => n.metaHdr.key).findIdx? fun key =>
        decide (strncmp (min path.tail.length 32) key.1 path.tail = 0) := by
    rw [List.findIdx?_map]
    rfl
  rw [fileType, fileType, hscan, hscan, h]

/-- A node may be replaced by one with the same key. -/
theorem fileType_set {table : List Fnode} {i : ℕ} {n n' : Fnode} (hn : table[i]? = some n)
    (hkey : n'.metaHdr.key = n.metaHdr.key) (path : List Byte) :
    fileType (table.set i n') path = fileType table path := by
  refine fileType_congr ?_ path
  obtain ⟨hlt, rfl⟩ := List.getElem?_eq_some_iff.mp hn
  refine List.ext_getElem? fun j => ?_
  rw [List.getElem?_map, List.getElem?_map]
  by_cases hj : i = j
  · subst hj
    rw [List.getElem?_set_self hlt, hn, Option.map_some, Option.map_some, hkey]
  · rw [List.getElem?_set_ne hj]

/-! ### Reading -/

/-- `EINVAL`. -/
def einval : ℤ := 22

/-- `EIO`. -/
def eio : ℤ := 5

/-- The length that the length checks of `tikfs_read` use. -/
def visibleLen (n : Fnode) : ℕ :=
  match n.dirty with
  | .clean => n.metaHdr.len.toNat
  | .dirty => n.cowlen

/-- The size after the cut at the end of the file; `offset + size` is a sum of 64-bit numbers. -/
def cutSize (len size offset : ℕ) : ℕ :=
  if (offset + size) % 2 ^ 64 > len then len - offset else size

/-- `tikfs_read` after the resolution of its path: the returned value, the bytes stored in the
buffer, the descriptor and the node. -/
def readNode (fd : OpenFile) (n : Fnode) (size offset : ℕ) (now : Int64) :
    ℤ × List Byte × OpenFile × Fnode :=
  if offset > visibleLen n then (-einval, [], fd, n)
  else
    let size := cutSize (visibleLen n) size offset
    let n' := { n with metaHdr := { n.metaHdr with tsR := now } }
    match n.dirty with
    | .clean =>
      let (ret, buff, fd) := (fd.lseekSet (n.data + offset)).read size .full
      (cInt ret, buff, fd, n')
    | .dirty =>
      (cInt size, ((n.cowbuff.getD []).drop offset).take size, fd, n')

/-- `tikfs_read`: the returned value, the bytes stored in the buffer and the state afterwards. -/
def tikfsRead (st : TikfsState) (path : List Byte) (size offset : ℕ) (now : Int64) :
    ℤ × List Byte × TikfsState :=
  match fileType st.table path with
  | .file i =>
    match st.table[i]? with
    | some n =>
      let (ret, buff, fd, n') := readNode st.fd n size offset now
      (ret, buff, ⟨fd, st.table.set i n'⟩)
    | Option.none => (-einval, [], st)
  | _ => (-einval, [], st)

/-! ### Writing -/

/-- What a `tikfs_write` gets from outside: the answer to its `read`, the bytes of the memory that
`xmalloc` and `xrealloc` return, and the time. -/
structure WriteEnv where
  answer : ReadAnswer
  malloced : ℕ → Byte
  realloced : ℕ → Byte
  now : Int64

/-- A block of `n` bytes that starts with `bs`, the rest taken from uninitialised memory. -/
def resize (bs : List Byte) (n : ℕ) (fresh : ℕ → Byte) : List Byte :=
  bs.take n ++ (List.range (n - bs.length)).map fun i => fresh (bs.length + i)

/-- The bytes `buff` stored at `offset` of a block by `memcpy`. -/
def memcpyAt (block : List Byte) (offset : ℕ) (buff : List Byte) : List Byte :=
  block.take offset ++ buff ++ block.drop (offset + buff.length)

/-- The copy that the first write makes of its node: the `read` into a new `cowbuff`, or nothing
when it was short. The result of `read` is compared with `cowlen` as a `size_t`. -/
def copyNode (fd : OpenFile) (n : Fnode) (env : WriteEnv) : OpenFile × Option (List Byte) :=
  let len := n.metaHdr.len.toNat
  let (ret, bs, fd) := (fd.lseekSet n.data).read len env.answer
  (fd, if cSizeT ret < len then none else some (resize bs len env.malloced))

/-- The end of `tikfs_write`: the block is resized when the write does not end at its end, and
`buff` is stored. A write of no bytes at offset 0 gets an empty block here; `realloc` may return
`NULL` for it, and `xrealloc` then ends the program. -/
def storeCow (n : Fnode) (cow : List Byte) (buff : List Byte) (offset : ℕ) (env : WriteEnv) :
    Fnode :=
  let newlen := (offset + buff.length) % 2 ^ 64
  let block := if newlen ≠ cow.length then resize cow newlen env.realloced else cow
  { n with
    metaHdr := { n.metaHdr with tsW := env.now }
    dirty := .dirty
    cowbuff := some (memcpyAt block offset buff)
    cowlen := newlen }

/-- `tikfs_write` after the resolution of its path. -/
def writeNode (fd : OpenFile) (n : Fnode) (buff : List Byte) (offset : ℕ) (env : WriteEnv) :
    ℤ × OpenFile × Fnode :=
  match n.dirty with
  | .clean =>
    match copyNode fd n env with
    | (fd, none) => (-eio, fd, { n with dirty := .clean, cowbuff := none, cowlen := 0 })
    | (fd, some cow) => (cInt buff.length, fd, storeCow n cow buff offset env)
  | .dirty => (cInt buff.length, fd, storeCow n (n.cowbuff.getD []) buff offset env)

/-- `tikfs_write` of the bytes `buff`: the returned value and the state afterwards. -/
def tikfsWrite (st : TikfsState) (path buff : List Byte) (offset : ℕ) (env : WriteEnv) :
    ℤ × TikfsState :=
  match fileType st.table path with
  | .file i =>
    match st.table[i]? with
    | some n =>
      let (ret, fd, n') := writeNode st.fd n buff offset env
      (ret, ⟨fd, st.table.set i n'⟩)
    | Option.none => (-einval, st)
  | _ => (-einval, st)

/-! ### Paths that resolve to a node -/

section Resolved

variable {st : TikfsState} {path : List Byte} {i : ℕ} {n : Fnode}

theorem tikfsRead_of_file (hfile : fileType st.table path = .file i) (hn : st.table[i]? = some n)
    (size offset : ℕ) (now : Int64) :
    tikfsRead st path size offset now =
      ((readNode st.fd n size offset now).1, (readNode st.fd n size offset now).2.1,
        ⟨(readNode st.fd n size offset now).2.2.1,
          st.table.set i (readNode st.fd n size offset now).2.2.2⟩) := by
  simp only [tikfsRead, hfile, hn]

/-- A path resolves to a node of the table. -/
theorem exists_of_file (hfile : fileType st.table path = .file i) :
    ∃ n, st.table[i]? = some n := by
  rw [fileType] at hfile
  split_ifs at hfile
  split at hfile
  · rename_i j hscan
    obtain rfl := FileType.file.inj hfile
    obtain ⟨hlt, -⟩ := List.findIdx?_eq_some_iff_getElem.mp hscan
    exact ⟨st.table[j], List.getElem?_eq_getElem hlt⟩
  · cases hfile

/-- A path resolves to a node of the table or to none. -/
theorem file_cases (st : TikfsState) (path : List Byte) :
    (∃ i n, fileType st.table path = .file i ∧ st.table[i]? = some n) ∨
      ∀ i, fileType st.table path ≠ .file i := by
  by_cases hfile : ∃ i, fileType st.table path = .file i
  · obtain ⟨i, hi⟩ := hfile
    obtain ⟨n, hn⟩ := exists_of_file hi
    exact .inl ⟨i, n, hi, hn⟩
  · exact .inr (not_exists.mp hfile)

theorem tikfsRead_of_not_file (hfile : ∀ i, fileType st.table path ≠ .file i) (size offset : ℕ)
    (now : Int64) : tikfsRead st path size offset now = (-einval, [], st) := by
  rw [tikfsRead]
  split
  · exact absurd ‹_› (hfile _)
  · rfl

theorem tikfsWrite_of_not_file (hfile : ∀ i, fileType st.table path ≠ .file i)
    (buff : List Byte) (offset : ℕ) (env : WriteEnv) :
    tikfsWrite st path buff offset env = (-einval, st) := by
  rw [tikfsWrite]
  split
  · exact absurd ‹_› (hfile _)
  · rfl

theorem tikfsWrite_of_file (hfile : fileType st.table path = .file i) (hn : st.table[i]? = some n)
    (buff : List Byte) (offset : ℕ) (env : WriteEnv) :
    tikfsWrite st path buff offset env =
      ((writeNode st.fd n buff offset env).1,
        ⟨(writeNode st.fd n buff offset env).2.1,
          st.table.set i (writeNode st.fd n buff offset env).2.2⟩) := by
  simp only [tikfsWrite, hfile, hn]

end Resolved

/-! ### Sequences of calls -/

/-- A call of `tikfs_read` or `tikfs_write`. -/
inductive Call
  | read (path : List Byte) (size offset : ℕ) (now : Int64)
  | write (path buff : List Byte) (offset : ℕ) (env : WriteEnv)

/-- The state after a call. -/
def TikfsState.call (st : TikfsState) : Call → TikfsState
  | .read path size offset now => (tikfsRead st path size offset now).2.2
  | .write path buff offset env => (tikfsWrite st path buff offset env).2

/-- The state after a sequence of calls, the first call first. -/
def TikfsState.after (st : TikfsState) (calls : List Call) : TikfsState :=
  calls.foldl TikfsState.call st

/-- Calls with sizes of at least one byte and file lengths below `2^32`, whose system calls
succeed in full. -/
def Call.Valid : Call → Prop
  | .read _ size _ _ => 1 ≤ size
  | .write _ buff offset env =>
    buff ≠ [] ∧ offset + buff.length < 2 ^ 32 ∧ env.answer = .full

/-! ### Contents -/

/-- The bytes of a node on disc. -/
def onDisc (data : List Byte) (n : Fnode) : List Byte :=
  (data.drop n.data).take n.metaHdr.len.toNat

/-- The bytes of a node: on disc when clean, in `cowbuff` when dirty. -/
def content (data : List Byte) (n : Fnode) : List Byte :=
  match n.dirty with
  | .clean => onDisc data n
  | .dirty => (n.cowbuff.getD []).take n.cowlen

/-- What a read of `size` bytes at `offset` of a file with the bytes `bs` returns and stores. -/
def readSlice (bs : List Byte) (size offset : ℕ) : ℤ × List Byte :=
  if offset > bs.length then (-einval, [])
  else (cInt ((bs.drop offset).take size).length, (bs.drop offset).take size)

/-- The cut of a read at the end of the file. -/
theorem cutSize_eq_min {len size offset : ℕ} (hoff : offset ≤ len)
    (hsize : offset + size < 2 ^ 64) : cutSize len size offset = min size (len - offset) := by
  rw [cutSize, Nat.mod_eq_of_lt hsize]
  split_ifs with hcut
  · exact (Nat.min_eq_right (by omega)).symm
  · exact (Nat.min_eq_left (by omega)).symm

/-- **A read returns the requested part of the content** of its node, clean or dirty. -/
theorem readNode_eq_readSlice {fd : OpenFile} {n : Fnode}
    (hlen : (content fd.data n).length = visibleLen n) {size offset : ℕ}
    (hsize : offset + size < 2 ^ 64) (now : Int64) :
    (readNode fd n size offset now).1 = (readSlice (content fd.data n) size offset).1 ∧
      (readNode fd n size offset now).2.1 = (readSlice (content fd.data n) size offset).2 := by
  rw [readNode, readSlice, hlen]
  split_ifs with hoff
  · exact ⟨rfl, rfl⟩
  · rw [cutSize_eq_min (by omega) hsize]
    cases hdirty : n.dirty with
    | clean =>
      simp only [visibleLen, hdirty] at hoff hlen ⊢
      have hslice : ((content fd.data n).drop offset).take size =
          (fd.data.drop (n.data + offset)).take (min size (n.metaHdr.len.toNat - offset)) := by
        simp only [content, hdirty, onDisc]
        rw [List.drop_take, List.drop_drop, List.take_take]
      simp only [OpenFile.read, OpenFile.available, OpenFile.lseekSet, hslice, and_self]
    | dirty =>
      simp only [visibleLen, hdirty] at hoff hlen ⊢
      have hslice : ((content fd.data n).drop offset).take size =
          ((n.cowbuff.getD []).drop offset).take (min size (n.cowlen - offset)) := by
        simp only [content, hdirty]
        rw [List.drop_take, List.take_take]
      have hcount : (((content fd.data n).drop offset).take size).length =
          min size (n.cowlen - offset) := by
        rw [List.length_take, List.length_drop, hlen]
      rw [← hslice, hcount]
      exact ⟨rfl, rfl⟩

/-- Reads tell contents of less than `2^32` bytes apart. -/
theorem eq_of_readSlice_eq {bs bs' : List Byte} (hbs : bs.length < 2 ^ 32)
    (hbs' : bs'.length < 2 ^ 32)
    (h : (readSlice bs (2 ^ 32) 0).2 = (readSlice bs' (2 ^ 32) 0).2) : bs = bs' := by
  rw [readSlice, readSlice, if_neg (by omega), if_neg (by omega), List.drop_zero, List.drop_zero,
    List.take_of_length_le hbs.le, List.take_of_length_le hbs'.le] at h
  exact h

end TikFachpraktika.Tikfs
