import TikFachpraktika.Tikdb.Map

/-!
# What `tikdb add` writes

A completed `add` writes the whole file anew from its records, stepping by the lengths of the old
ones. Each record comes out as it was, except that the first one whose key starts with the new key
gives its place to the new record; without such a record the new one stands at the end.

## Main definitions

* `DataHdr.KeyPadded`, `IsDatabase`: files of complete records with padded keys.
* `IsEntry`: the record that an `add` stores.
* `Replaces`: the records before and after it.

## Main results

* `addKeyVal_isDatabase`: what a completed `add` leaves.
-/

namespace TikFachpraktika.Tikdb

open Posix

/-- The key field holds a string and its NUL, and zeros behind it. -/
def DataHdr.KeyPadded (h : DataHdr) : Prop :=
  ∃ s : List Byte, 0 ∉ s ∧ s.length ≤ 31 ∧ h.key = CharArray.fill 32 s

/-- The file `data` is a superblock followed by the records `rs`, whose keys are padded. -/
structure IsDatabase (data : List Byte) (rs : List Record) : Prop where
  data_eq : data = encodeDb rs
  keyPadded : ∀ r ∈ rs, r.hdr.KeyPadded

/-- The record that `add key val` stores at the time `now`: of the key as much as fits. -/
structure IsEntry (new : Record) (key val : CStr) (now : Int64) : Prop where
  keyStr_eq : new.keyStr = key.bytes.take 31
  tsR_eq : new.hdr.tsR = now
  tsW_eq : new.hdr.tsW = now
  val_eq : new.val = val.bytes

/-- The record `new` takes the place of the first one whose key starts with `key`, or stands at
the end if there is none. All other records keep their order. -/
inductive Replaces (key : List Byte) (new : Record) : List Record → List Record → Prop
  | replaced {pre post : List Record} {r : Record} (hpre : ∀ r' ∈ pre, ¬key <+: r'.keyStr)
      (hr : key <+: r.keyStr) : Replaces key new (pre ++ r :: post) (pre ++ new :: post)
  | appended {rs : List Record} (hrs : ∀ r ∈ rs, ¬key <+: r.keyStr) :
      Replaces key new rs (rs ++ [new])

theorem keyPadded_newRecord (key : CStr) (val : List Byte) (now : Int64) :
    (newRecord key.bytes val now).hdr.KeyPadded := by
  refine ⟨key.bytes.take 31, fun h => key.notMem (List.mem_of_mem_take h),
    List.length_take_le _ _, ?_⟩
  show CharArray.fill 32 (key.bytes.take (min key.bytes.length 31)) = _
  rw [take_min_length]

theorem isEntry_newRecord {val : CStr} (hval : val.bytes.length < 2 ^ 31) (key : CStr)
    (now : Int64) : IsEntry (newRecord key.bytes val.bytes now) key val now where
  keyStr_eq := keyStr_newHdr key.notMem val.bytes.length now
  tsR_eq := rfl
  tsW_eq := rfl
  val_eq := newRecord_val (by omega) key.bytes now

theorem replaces_addRecord (key val : CStr) (now : Int64) (rs : List Record) :
    Replaces (key.bytes.take 31) (newRecord key.bytes val.bytes now) rs
      (addRecord key.bytes val.bytes now rs) := by
  have hmatch (r : Record) : keyMatches key.bytes r.hdr ↔ key.bytes.take 31 <+: r.keyStr :=
    keyMatches_iff key.notMem r.hdr
  rw [addRecord]
  obtain ⟨pre, r, post, rfl, hpre, hr, heq⟩ | ⟨hnone, heq⟩ := Keyed.replaceFirst_split
    (fun r => keyMatches key.bytes r.hdr) (newRecord key.bytes val.bytes now) rs
  · rw [heq]
    exact .replaced (fun r' hr' => (hmatch r').not.mp (hpre r' hr')) ((hmatch r).mp hr)
  · rw [heq]
    exact .appended fun r hr => (hmatch r).not.mp (hnone r hr)

/-- Padded keys stay padded. -/
theorem isDatabase_addRecord {rs : List Record} (hrs : ∀ r ∈ rs, r.hdr.KeyPadded)
    (key val : CStr) (now : Int64) :
    IsDatabase (encodeDb (addRecord key.bytes val.bytes now rs))
      (addRecord key.bytes val.bytes now rs) := by
  refine ⟨rfl, fun r hr => ?_⟩
  rcases Keyed.mem_of_mem_replaceFirst hr with rfl | hold
  · exact keyPadded_newRecord key val.bytes now
  · exact hrs r hold

/-- **What a completed `add` leaves.** The new file consists of the old records in their order,
with the new record in the place of the first one whose key starts with the new key, or at the
end if there is none, and its keys are padded again. The loop on the records of the file writes
the same, also where a database without records takes the other branch. -/
theorem addKeyVal_isDatabase {data data' : List Byte} {rs : List Record} {key val : CStr}
    {now : Int64} (hdb : IsDatabase data rs)
    (h : addKeyVal (some data) key.bytes val.bytes now = .ok data') :
    (∃ new rs', IsEntry new key val now ∧ Replaces (key.bytes.take 31) new rs rs' ∧
        IsDatabase data' rs') ∧
      addKeyValPay key.bytes val.bytes now (encodeRecords rs) = .ok data' := by
  obtain ⟨rfl, hkeys⟩ := hdb
  obtain ⟨hval, hloop, rfl⟩ := eq_encodeDb_of_addKeyVal val.length_lt h
  exact ⟨⟨newRecord key.bytes val.bytes now, addRecord key.bytes val.bytes now rs,
    isEntry_newRecord hval key now, replaces_addRecord key val now rs,
    isDatabase_addRecord hkeys key val now⟩, hloop⟩

/-- `add "a" "a"` on a file with the record `"ab"`, which gives its place to the record `"a"`. -/
theorem addKeyVal_isDatabase_strAB :
    (∃ new rs', IsEntry new strA strA 0 ∧
        Replaces (strA.bytes.take 31) new [newRecord strAB.bytes strAB.bytes 0] rs' ∧
        IsDatabase (encodeDb [newRecord strA.bytes strA.bytes 0]) rs') ∧
      addKeyValPay strA.bytes strA.bytes 0
          (encodeRecords [newRecord strAB.bytes strAB.bytes 0]) =
        .ok (encodeDb [newRecord strA.bytes strA.bytes 0]) :=
  addKeyVal_isDatabase ⟨rfl, List.forall_mem_singleton.mpr (keyPadded_newRecord strAB _ 0)⟩
    (by decide +kernel)

end TikFachpraktika.Tikdb
