import TikFachpraktika.Posix.OpenFile

/-!
# The tikdb file format

`struct tikdb_filehdr` and `struct tikdb_datahdr` of `5_filesys/tikfs.h` as they lie in memory
and on disc on a 64-bit little-endian machine, and the files made of them: a superblock followed
by records, each a header and as many payload bytes as the header says.

## Main definitions

* `FileHdr`, `DataHdr`: the two headers, with `encode` and `decode`.
* `Record`: a header together with a payload of the length it announces.
* `encodeRecords`, `encodeDb`: the bytes of records and of a database file.

## Main results

* `FileHdr.decode_encode`, `DataHdr.decode_encode`: the header round trips.
* `FileHdr.encode_decode`, `DataHdr.encode_decode`: every buffer of the right size is a header.
-/

namespace TikFachpraktika.Tikdb

open Posix

/-! ### Headers -/

/-- `struct tikdb_filehdr`. -/
structure FileHdr where
  magic : UInt32
  versionMajor : UInt16
  versionMinor : UInt16
  deriving DecidableEq

/-- `TIKDB_MAGIC`. -/
def tikdbMagic : UInt32 := 0xbeefee

/-- `TIKDB_VERSION_MAJ`. -/
def tikdbVersionMaj : UInt16 := 1

/-- `TIKDB_VERSION_MIN`. -/
def tikdbVersionMin : UInt16 := 0

/-- `struct tikdb_datahdr`; `pad` are the four bytes that align the struct to eight bytes. -/
structure DataHdr where
  key : CharArray 32
  tsR : Int64
  tsW : Int64
  len : UInt32
  pad : UInt32
  deriving DecidableEq

/-- A field of `n` bytes at `k` of a buffer, written anew. -/
theorem leBytes_leNat_take_drop {bs : List Byte} {k n : ℕ} (h : k + n ≤ bs.length) :
    leBytes n (leNat ((bs.drop k).take n)) = (bs.drop k).take n := by
  have hlen : ((bs.drop k).take n).length = n := by
    rw [List.length_take, List.length_drop]
    omega
  have hbytes := leBytes_leNat ((bs.drop k).take n)
  rwa [hlen] at hbytes

theorem leNat_take_lt (bs : List Byte) (n : ℕ) : leNat (bs.take n) < 256 ^ n :=
  (leNat_lt _).trans_le (Nat.pow_le_pow_right (by decide) (List.length_take_le n bs))

/-- Two neighbouring parts of a buffer. -/
theorem take_drop_append_drop {α : Type*} (bs : List α) (k n : ℕ) :
    (bs.drop k).take n ++ bs.drop (k + n) = bs.drop k := by
  rw [← List.drop_drop, List.take_append_drop]

namespace FileHdr

/-- `sizeof(struct tikdb_filehdr)`. -/
def size : ℕ := 8

/-- The bytes of the header. -/
def encode (h : FileHdr) : List Byte :=
  leBytes 4 h.magic.toNat ++ leBytes 2 h.versionMajor.toNat ++ leBytes 2 h.versionMinor.toNat

/-- The header in a buffer. -/
def decode (bs : List Byte) : FileHdr where
  magic := UInt32.ofNat (leNat (bs.take 4))
  versionMajor := UInt16.ofNat (leNat ((bs.drop 4).take 2))
  versionMinor := UInt16.ofNat (leNat ((bs.drop 6).take 2))

@[simp] theorem length_encode (h : FileHdr) : h.encode.length = size := by
  simp [encode, size]

theorem decode_encode (h : FileHdr) : decode h.encode = h := by
  obtain ⟨magic, major, minor⟩ := h
  simp [decode, encode, List.drop_append, leNat_leBytes, List.drop_eq_nil_of_le,
    List.take_of_length_le]

/-- A buffer of the right size is that of its header. -/
theorem encode_decode {bs : List Byte} (h : bs.length = size) : (decode bs).encode = bs := by
  have hmagic : leNat (bs.take 4) < 2 ^ 32 := leNat_take_lt bs 4
  have hmajor : leNat ((bs.drop 4).take 2) < 2 ^ 16 := leNat_take_lt (bs.drop 4) 2
  have hminor : leNat ((bs.drop 6).take 2) < 2 ^ 16 := leNat_take_lt (bs.drop 6) 2
  rw [size] at h
  have hfield {k n : ℕ} (hkn : k + n ≤ 8) := @leBytes_leNat_take_drop bs k n (hkn.trans h.ge)
  have hfirst := hfield (k := 0) (n := 4) (by decide)
  rw [List.drop_zero] at hfirst
  have hend : (bs.drop 6).take 2 = bs.drop 6 :=
    List.take_of_length_le (by rw [List.length_drop, h])
  rw [encode, decode]
  simp only [UInt32.toNat_ofNat', UInt16.toNat_ofNat', Nat.mod_eq_of_lt hmagic,
    Nat.mod_eq_of_lt hmajor, Nat.mod_eq_of_lt hminor]
  rw [hfirst, hfield (by decide), hfield (by decide), hend, List.append_assoc,
    take_drop_append_drop bs 4 2, List.take_append_drop]

end FileHdr

/-- The superblock that `__create_db` writes. -/
def superblock : FileHdr where
  magic := tikdbMagic
  versionMajor := tikdbVersionMaj
  versionMinor := tikdbVersionMin

namespace DataHdr

/-- `sizeof(struct tikdb_datahdr)`. -/
def size : ℕ := 56

/-- `offsetof(struct tikdb_datahdr, len)`. -/
def offLen : ℕ := 48

/-- The bytes of the header. -/
def encode (h : DataHdr) : List Byte :=
  h.key.1 ++ leBytes 8 h.tsR.toUInt64.toNat ++ leBytes 8 h.tsW.toUInt64.toNat ++
    leBytes 4 h.len.toNat ++ leBytes 4 h.pad.toNat

/-- The header in a buffer. -/
def decode (bs : List Byte) : DataHdr where
  key := CharArray.fill 32 (bs.take 32)
  tsR := (UInt64.ofNat (leNat ((bs.drop 32).take 8))).toInt64
  tsW := (UInt64.ofNat (leNat ((bs.drop 40).take 8))).toInt64
  len := UInt32.ofNat (leNat ((bs.drop 48).take 4))
  pad := UInt32.ofNat (leNat ((bs.drop 52).take 4))

@[simp] theorem length_encode (h : DataHdr) : h.encode.length = size := by
  simp [encode, size, h.key.2]

theorem decode_encode (h : DataHdr) : decode h.encode = h := by
  obtain ⟨⟨key, hkey⟩, tsR, tsW, len, pad⟩ := h
  have hfill : CharArray.fill 32 key = ⟨key, hkey⟩ := CharArray.fill_of_length hkey
  simp [decode, encode, List.drop_append, leNat_leBytes, hkey, hfill, List.drop_eq_nil_of_le,
    List.take_of_length_le]

/-- A buffer of the right size is that of its header. -/
theorem encode_decode {bs : List Byte} (h : bs.length = size) : (decode bs).encode = bs := by
  have htsR : leNat ((bs.drop 32).take 8) < 2 ^ 64 := leNat_take_lt (bs.drop 32) 8
  have htsW : leNat ((bs.drop 40).take 8) < 2 ^ 64 := leNat_take_lt (bs.drop 40) 8
  have hlen : leNat ((bs.drop 48).take 4) < 2 ^ 32 := leNat_take_lt (bs.drop 48) 4
  have hpad : leNat ((bs.drop 52).take 4) < 2 ^ 32 := leNat_take_lt (bs.drop 52) 4
  rw [size] at h
  have hfield {k n : ℕ} (hkn : k + n ≤ 56) := @leBytes_leNat_take_drop bs k n (hkn.trans h.ge)
  have hkey : (bs.take 32).length = 32 := by
    rw [List.length_take]
    omega
  have hend : (bs.drop 52).take 4 = bs.drop 52 :=
    List.take_of_length_le (by rw [List.length_drop, h])
  rw [encode, decode]
  simp only [UInt64.toUInt64_toInt64, UInt64.toNat_ofNat', UInt32.toNat_ofNat',
    Nat.mod_eq_of_lt htsR, Nat.mod_eq_of_lt htsW, Nat.mod_eq_of_lt hlen, Nat.mod_eq_of_lt hpad,
    CharArray.fill_of_length hkey]
  rw [hfield (by decide), hfield (by decide), hfield (by decide), hfield (by decide), hend]
  simp only [List.append_assoc]
  rw [take_drop_append_drop bs 48 4, take_drop_append_drop bs 40 8,
    take_drop_append_drop bs 32 8, List.take_append_drop]

/-- The string in the key field. -/
def keyStr (h : DataHdr) : List Byte :=
  cstr h.key.1

end DataHdr

/-! ### Records and files -/

/-- A header followed by as many payload bytes as it announces. -/
structure Record where
  hdr : DataHdr
  val : List Byte
  length_val : val.length = hdr.len.toNat
  deriving DecidableEq

namespace Record

/-- The bytes of the record. -/
def encode (r : Record) : List Byte :=
  r.hdr.encode ++ r.val

theorem length_encode (r : Record) : r.encode.length = DataHdr.size + r.hdr.len.toNat := by
  rw [encode, List.length_append, DataHdr.length_encode, r.length_val]

/-- The key of the record as a string. -/
def keyStr (r : Record) : List Byte :=
  r.hdr.keyStr

end Record

/-- The bytes of a list of records. -/
def encodeRecords (rs : List Record) : List Byte :=
  rs.flatMap Record.encode

/-- The file made of the superblock and a list of records. -/
def encodeDb (rs : List Record) : List Byte :=
  superblock.encode ++ encodeRecords rs

@[simp] theorem encodeRecords_nil : encodeRecords [] = [] := rfl

theorem encodeRecords_cons (r : Record) (rs : List Record) :
    encodeRecords (r :: rs) = r.encode ++ encodeRecords rs :=
  List.flatMap_cons

theorem encodeRecords_append (rs rs' : List Record) :
    encodeRecords (rs ++ rs') = encodeRecords rs ++ encodeRecords rs' :=
  List.flatMap_append

end TikFachpraktika.Tikdb
