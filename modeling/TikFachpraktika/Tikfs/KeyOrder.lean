import TikFachpraktika.Tikdb.Map
import TikFachpraktika.Tikfs.Mount
import TikFachpraktika.Tikfs.Calls

/-!
# The order of the keys

A scan of `get_key_val` or `tikfs_file_type` stops at the first record whose key starts with the
wanted one. In the files that `tikdb` produces no key is a prefix of an earlier one, so the scan
for a stored key stops at its own record.

## Main definitions

* `KeyOrdered`: no key is a prefix of an earlier one.

## Main results

* `fileType_cleanNodes`: the scan of a mounted file with ordered keys.
* `keyOrder_of_dbAfter`: the files of command histories, and their scans.
-/

namespace TikFachpraktika.Tikfs

open Posix Tikdb

/-- No stored key is a prefix of the key of an earlier record. -/
def KeyOrdered (rs : List Record) : Prop :=
  rs.Pairwise fun a b => ¬ b.keyStr <+: a.keyStr

/-- In the file `data` with the records `rs`, the scan of `get_key_val` for the key of a record
selects this record, and after mounting so does the scan of `tikfs_file_type` for the path of its
key, unless the key is empty. -/
def ScansStop (data : List Byte) (rs : List Record) : Prop :=
  (∀ r ∈ rs, ∀ stack, getKeyVal (some data) stack r.keyStr = .ok (some (r.hdr, r.val))) ∧
    ∀ st, tikfsInit data = .ok st → ∀ (i : ℕ) (hi : i < rs.length), rs[i].keyStr ≠ [] →
      fileType st.table (47 :: rs[i].keyStr) = .file i

theorem keyOrdered_recordsAfter (history : List Cmd) : KeyOrdered (recordsAfter history) :=
  Keyed.ordered_contents _

/-- A path matches the keys that it continues with. -/
theorem pathMatches_iff {ptr : List Byte} (hptr : (0 : Byte) ∉ ptr) (hlen : ptr.length ≤ 32)
    (n : Fnode) : pathMatches ptr n ↔ ptr <+: n.metaHdr.keyStr := by
  rw [pathMatches, Nat.min_eq_left hlen, decide_eq_true_iff,
    strncmp_eq_zero_iff _ _ _ le_rfl hptr, List.take_length]
  rfl

theorem cleanNodes_map_metaHdr : (off : ℕ) → (rs : List Record) →
    (cleanNodes off rs).map Fnode.metaHdr = rs.map Record.hdr
  | _, [] => rfl
  | off, r :: rs => by
      rw [cleanNodes, List.map_cons, List.map_cons, cleanNodes_map_metaHdr]
      rfl

theorem zero_notMem_keyStr (r : Record) : (0 : Byte) ∉ r.keyStr :=
  zero_notMem_cstr _

theorem length_keyStr_le_size (r : Record) : r.keyStr.length ≤ 32 :=
  (List.takeWhile_prefix _).length_le.trans r.hdr.key.2.le

/-- **The scan of a mounted file** with ordered keys stops at the record of a stored key. -/
theorem fileType_cleanNodes {rs : List Record} (h : KeyOrdered rs) (off : ℕ) {i : ℕ}
    (hi : i < rs.length) (hne : rs[i].keyStr ≠ []) :
    fileType (cleanNodes off rs) (47 :: rs[i].keyStr) = .file i := by
  have hscan : (cleanNodes off rs).findIdx? (pathMatches rs[i].keyStr) = some i := by
    have hord : Keyed.Ordered Record.keyStr (· <+: ·) rs := h
    have hmatch : pathMatches rs[i].keyStr =
        (fun hdr : DataHdr => decide (rs[i].keyStr <+: hdr.keyStr)) ∘ Fnode.metaHdr := by
      funext n
      rw [Bool.eq_iff_iff, pathMatches_iff (zero_notMem_keyStr _) (length_keyStr_le_size _)]
      exact decide_eq_true_iff.symm
    rw [hmatch, ← List.findIdx?_map, cleanNodes_map_metaHdr, List.findIdx?_map]
    exact hord.findIdx?_key hi
  rw [fileType, if_neg (by simpa using hne), List.tail_cons, hscan]

/-- **The key order of tikdb files.** In every file that a history of commands produces no key is
a prefix of an earlier one, so no two records have the same key, and the scans for the key of a
record stop at this record. -/
theorem keyOrder_of_dbAfter {history : List Cmd} {data : List Byte}
    (hrun : dbAfter history = .ok (some data)) :
    ∃ rs, data = encodeDb rs ∧ KeyOrdered rs ∧ (rs.map Record.keyStr).Nodup ∧
      ScansStop data rs := by
  obtain ⟨rfl, -⟩ := eq_encodeDb_of_dbAfter hrun
  have hord : Keyed.Ordered Record.keyStr (· <+: ·) (recordsAfter history) :=
    keyOrdered_recordsAfter history
  refine ⟨recordsAfter history, rfl, hord, hord.nodup_key, fun r hr stack => ?_,
    fun st hst i hi hne => ?_⟩
  · have hscan : (recordsAfter history).find? (fun r' => keyMatches r.keyStr r'.hdr) = some r := by
      rw [keyMatches_eq_decide (zero_notMem_keyStr r) (length_keyStr_le hr)]
      exact hord.lookup_key hr
    rw [getKeyVal_encodeDb, hscan]
    rfl
  · obtain ⟨-, -, rfl⟩ := eq_of_tikfsInit hst
    exact fileType_cleanNodes hord _ hi hne

/-- The file after adding `"ab"` and then `"a"`, which takes the place of `"ab"`. -/
theorem keyOrder_of_dbAfter_replaced :
    ∃ rs, encodeDb [newRecord strA.bytes strA.bytes 0] = encodeDb rs ∧ KeyOrdered rs ∧
      (rs.map Record.keyStr).Nodup ∧
      ScansStop (encodeDb [newRecord strA.bytes strA.bytes 0]) rs :=
  @keyOrder_of_dbAfter [.add strA strA 0, .add strAB strAB 0, .create] _ (by decide +kernel)

end TikFachpraktika.Tikfs
