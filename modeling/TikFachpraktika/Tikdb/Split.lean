import TikFachpraktika.Framing.Split
import TikFachpraktika.Tikdb.Format

/-!
# The records in arbitrary bytes

A complete record is a header with all payload bytes that it announces. Any bytes behind a
superblock are complete records, one after the other, and a rest that holds no complete one: too few
bytes for a header, or a header with too few payload bytes.

## Main definitions

* `parseRecord`, `recordFraming`: the records as frames.
* `splitRecords`: the complete records at the start of a buffer, and the rest.

## Main results

* `parseRecord_eq_none_iff`: the rests.
* `eq_of_encodeDb_append_eq`: there is only one such split of a file.
-/

namespace TikFachpraktika.Tikdb

open Posix

/-- The header at the start of a buffer. -/
def firstHdr (bs : List Byte) : DataHdr :=
  DataHdr.decode (bs.take DataHdr.size)

/-- The record at the start of a buffer, if it is complete, and the bytes after it. -/
def parseRecord (bs : List Byte) : Option (Record × List Byte) :=
  if h : DataHdr.size + (firstHdr bs).len.toNat ≤ bs.length then
    some (⟨firstHdr bs, (bs.drop DataHdr.size).take (firstHdr bs).len.toNat, by
      rw [List.length_take, List.length_drop]
      omega⟩, bs.drop (DataHdr.size + (firstHdr bs).len.toNat))
  else none

/-- A buffer of the size of a header or more starts with one. -/
theorem encode_firstHdr {bs : List Byte} (h : DataHdr.size ≤ bs.length) :
    (firstHdr bs).encode ++ bs.drop DataHdr.size = bs := by
  rw [firstHdr, DataHdr.encode_decode (List.length_take_of_le h), List.take_append_drop]

theorem firstHdr_append (hdr : DataHdr) (rest : List Byte) :
    firstHdr (hdr.encode ++ rest) = hdr := by
  rw [firstHdr, List.take_left' (DataHdr.length_encode hdr), DataHdr.decode_encode]

theorem parseRecord_eq_none_iff_lt {bs : List Byte} :
    parseRecord bs = none ↔ bs.length < DataHdr.size + (firstHdr bs).len.toNat := by
  rw [parseRecord]
  split_ifs with hlen
  · exact iff_of_false (by simp) (not_lt.mpr hlen)
  · exact iff_of_true rfl (not_le.mp hlen)

theorem eq_of_parseRecord {bs rest : List Byte} {r : Record}
    (h : parseRecord bs = some (r, rest)) : bs = r.encode ++ rest := by
  rw [parseRecord] at h
  split_ifs at h with hlen
  obtain ⟨rfl, rfl⟩ := Prod.mk.inj (Option.some.inj h)
  rw [Record.encode, List.append_assoc, ← List.drop_drop, List.take_append_drop,
    encode_firstHdr (by omega)]

theorem parseRecord_append (r : Record) (rest : List Byte) :
    parseRecord (r.encode ++ rest) = some (r, rest) := by
  have hhdr : firstHdr (r.encode ++ rest) = r.hdr := by
    rw [Record.encode, List.append_assoc, firstHdr_append]
  have hlen : DataHdr.size + r.hdr.len.toNat ≤ (r.encode ++ rest).length := by
    rw [List.length_append, r.length_encode]
    exact Nat.le_add_right _ _
  have hval : ((r.encode ++ rest).drop DataHdr.size).take r.hdr.len.toNat = r.val := by
    rw [Record.encode, List.append_assoc, List.drop_left' (DataHdr.length_encode r.hdr),
      List.take_left' r.length_val]
  have hrest : (r.encode ++ rest).drop (DataHdr.size + r.hdr.len.toNat) = rest :=
    List.drop_left' r.length_encode
  simp only [parseRecord, hhdr, hlen, hval, hrest, ↓reduceDIte]

theorem encode_ne_nil (r : Record) : r.encode ≠ [] := by
  refine List.ne_nil_of_length_pos ?_
  rw [r.length_encode, DataHdr.size]
  omega

/-- The records as frames. -/
def recordFraming : Framing Byte Record where
  encode := Record.encode
  parse := parseRecord
  encode_ne_nil := encode_ne_nil
  parse_append := parseRecord_append
  eq_of_parse := eq_of_parseRecord

/-- The complete records at the start of a buffer, and the rest. -/
def splitRecords (bs : List Byte) : List Record × List Byte :=
  recordFraming.split bs

theorem encodeRecords_splitRecords (bs : List Byte) :
    encodeRecords (splitRecords bs).1 ++ (splitRecords bs).2 = bs :=
  recordFraming.flatMap_split bs

theorem parseRecord_splitRecords (bs : List Byte) : parseRecord (splitRecords bs).2 = none :=
  recordFraming.parse_split bs

theorem splitRecords_append {rest : List Byte} (hrest : parseRecord rest = none)
    (rs : List Record) : splitRecords (encodeRecords rs ++ rest) = (rs, rest) :=
  Framing.split_append (F := recordFraming) hrest rs

/-- **The bytes without a complete record** at their start: too few for a header, or a header with
too few payload bytes. -/
theorem parseRecord_eq_none_iff {bs : List Byte} :
    parseRecord bs = none ↔ bs.length < DataHdr.size ∨
      ∃ hdr pay, bs = DataHdr.encode hdr ++ pay ∧ pay.length < hdr.len.toNat := by
  rw [parseRecord_eq_none_iff_lt]
  constructor
  · intro hlt
    by_cases hshort : bs.length < DataHdr.size
    · exact .inl hshort
    · refine .inr ⟨firstHdr bs, bs.drop DataHdr.size, (encode_firstHdr (by omega)).symm, ?_⟩
      rw [List.length_drop]
      omega
  · rintro (hshort | ⟨hdr, pay, rfl, hpay⟩)
    · exact Nat.lt_add_right _ hshort
    · rw [firstHdr_append, List.length_append, DataHdr.length_encode]
      omega

theorem parseRecord_nil : parseRecord [] = none :=
  parseRecord_eq_none_iff.mpr (.inl (by decide))

/-- **There is only one split** of a file. -/
theorem eq_of_encodeDb_append_eq {rs rs' : List Record} {rest rest' : List Byte}
    (h : encodeDb rs ++ rest = encodeDb rs' ++ rest') (hrest : parseRecord rest = none)
    (hrest' : parseRecord rest' = none) : rs = rs' ∧ rest = rest' := by
  rw [encodeDb, encodeDb, List.append_assoc, List.append_assoc] at h
  have hsplit := congrArg splitRecords (List.append_cancel_left h)
  rw [splitRecords_append hrest, splitRecords_append hrest'] at hsplit
  exact Prod.mk.inj hsplit

/-- A file with the fields of the superblock starts with the superblock. -/
theorem exists_superblock_append {data : List Byte}
    (hlen : ((data.take FileHdr.size).length : ℤ) = FileHdr.size)
    (hmagic : (FileHdr.decode (data.take FileHdr.size)).magic = tikdbMagic)
    (hmajor : (FileHdr.decode (data.take FileHdr.size)).versionMajor = tikdbVersionMaj)
    (hminor : (FileHdr.decode (data.take FileHdr.size)).versionMinor = tikdbVersionMin) :
    ∃ bs, data = superblock.encode ++ bs := by
  have hblock : data.take FileHdr.size = superblock.encode := by
    rw [← FileHdr.encode_decode (Nat.cast_injective hlen), superblock, ← hmagic, ← hmajor,
      ← hminor]
  refine ⟨data.drop FileHdr.size, ?_⟩
  rw [← hblock, List.take_append_drop]

end TikFachpraktika.Tikdb
