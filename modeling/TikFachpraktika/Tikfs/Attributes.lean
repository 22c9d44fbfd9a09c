import TikFachpraktika.Tikfs.Calls

/-!
# Attributes and lengths of a mounted file

`tikfs_getattr` and `tikfs_truncate` of `5_filesys/tikfs.c`. The first reports the length of a clean
node from its header and that of a dirty node from `cowlen`. The second resolves its path and
returns the wanted length as an `int`; it changes nothing.

## Main definitions

* `Stat`, `StatEnv`: `struct stat`, and what the system calls of `tikfs_getattr` return.
* `tikfsGetattr`, `tikfsTruncate`: the functions of the same names.

## Main results

* `tikfsGetattr_of_file`: the reported length is the one that reads and writes use.
-/

namespace TikFachpraktika.Tikfs

open Posix Tikdb

/-- `ENOENT`. -/
def enoent : ℤ := 2

/-- `S_IFDIR`. -/
def sIfdir : UInt32 := 0o040000

/-- `S_IFREG`. -/
def sIfreg : UInt32 := 0o100000

/-- The fields of `struct stat` that `tikfs_getattr` sets. -/
structure Stat where
  uid : UInt32
  gid : UInt32
  nlink : UInt64
  mode : UInt32
  size : ℤ
  atime : Int64
  mtime : Int64

/-- The answers of `getuid`, `getgid` and the two calls of `time`. -/
structure StatEnv where
  uid : UInt32
  gid : UInt32
  atime : Int64
  mtime : Int64

/-- `tikfs_getattr`: the returned value and the buffer, which held `stbuf`. -/
def tikfsGetattr (st : TikfsState) (path : List Byte) (env : StatEnv) (stbuf : Stat) : ℤ × Stat :=
  let stbuf := { stbuf with uid := env.uid, gid := env.gid }
  match fileType st.table path with
  | .root =>
    (0, { stbuf with
      nlink := 1
      mode := 0o755 ||| sIfdir
      atime := env.atime
      mtime := env.mtime })
  | .file i =>
    match st.table[i]? with
    | some n =>
      (0, { stbuf with
        size := match n.dirty with
          | .clean => cOffT n.metaHdr.len.toNat
          | .dirty => cOffT n.cowlen
        nlink := 2
        mode := 0o644 ||| sIfreg
        atime := n.metaHdr.tsR
        mtime := n.metaHdr.tsW })
    | none => (-enoent, stbuf)
  | .none => (-enoent, stbuf)

/-- `tikfs_truncate`: the returned value and the state afterwards. -/
def tikfsTruncate (st : TikfsState) (path : List Byte) (size : ℤ) : ℤ × TikfsState :=
  match fileType st.table path with
  | .file _ => (cInt size, st)
  | _ => (-einval, st)

/-- **The reported length** of a file is the one that reads and writes use. -/
theorem tikfsGetattr_of_file {st : TikfsState} {path : List Byte} {i : ℕ} {n : Fnode}
    (hfile : fileType st.table path = .file i) (hn : st.table[i]? = some n) (env : StatEnv)
    (stbuf : Stat) :
    (tikfsGetattr st path env stbuf).1 = 0 ∧
      (tikfsGetattr st path env stbuf).2.size = cOffT (visibleLen n) := by
  simp only [tikfsGetattr, hfile, hn, visibleLen, true_and]
  cases n.dirty <;> rfl

/-- `tikfs_truncate` leaves everything as it is. -/
theorem tikfsTruncate_snd (st : TikfsState) (path : List Byte) (size : ℤ) :
    (tikfsTruncate st path size).2 = st := by
  rw [tikfsTruncate]
  split <;> rfl

end TikFachpraktika.Tikfs
