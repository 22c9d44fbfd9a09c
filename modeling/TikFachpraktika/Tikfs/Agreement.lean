import TikFachpraktika.Tikfs.KeyOrder
import TikFachpraktika.Tikfs.Session

/-!
# The two readers of a tikdb file

`tikdb` writes the file that `tikfs` mounts, and both read it: `get_key_val` walks the records,
`tikfs_build_cache` enters them into a table. The two agree on every file without empty values.
`tikdb` also writes empty values, and a file with one of them is not mounted.

## Main definitions

* `PointsTo`: an entry of the table that is that of a record.
* `Mounts`: a file that mounts with the entries of given records.

## Main results

* `mounts_iff`: which of the files that `tikdb` writes are mounted with their records.
* `get_mount_agree`: `get_key_val` and a fresh mount find the same record and the same bytes.
-/

namespace TikFachpraktika.Tikfs

open Posix Tikdb

/-- The entry `n` is that of the record `r` in the file `data`: it has the header of `r`, key and
length included, and its bytes on disc are the value of `r`. -/
structure PointsTo (data : List Byte) (n : Fnode) (r : Record) : Prop where
  metaHdr_eq : n.metaHdr = r.hdr
  onDisc_eq : onDisc data n = r.val

/-- The file `data` passes the check of its superblock, the table is built up to the end of the
file, and it lists exactly the records `rs` in their order. -/
def Mounts (data : List Byte) (rs : List Record) : Prop :=
  ∃ st, tikfsInit data = .ok st ∧ List.Forall₂ (PointsTo data) st.table rs

/-! ### The table of a file -/

theorem cleanNode_pointsTo {data pre rest : List Byte} {r : Record}
    (hdata : data = pre ++ r.encode ++ rest) :
    PointsTo data (cleanNode r.hdr (pre.length + DataHdr.size)) r := by
  have hover : NodeOver pre.length r (cleanNode r.hdr (pre.length + DataHdr.size)) :=
    ⟨rfl, rfl, rfl, fun h => by cases h⟩
  refine ⟨rfl, hover.onDisc_eq (a := pre ++ r.hdr.encode) (c := rest) ?_ ?_⟩
  · rw [hdata, Record.encode]
    simp only [List.append_assoc]
  · rw [List.length_append, DataHdr.length_encode]
    rfl

/-- The clean nodes of records are their entries. -/
theorem forall₂_cleanNodes {data : List Byte} (rest : List Byte) : (rs : List Record) →
    (pre : List Byte) → data = pre ++ encodeRecords rs ++ rest →
    List.Forall₂ (PointsTo data) (cleanNodes pre.length rs) rs
  | [], _, _ => .nil
  | r :: rs, pre, hdata => by
      have hcons : data = pre ++ r.encode ++ (encodeRecords rs ++ rest) := by
        rw [hdata, encodeRecords_cons]
        simp only [List.append_assoc]
      have hnext := forall₂_cleanNodes rest rs (pre ++ r.encode)
        (hcons.trans (List.append_assoc _ _ _).symm)
      rw [List.length_append] at hnext
      exact .cons (cleanNode_pointsTo hcons) hnext

theorem forall₂_cleanNodes_encodeDb (rs : List Record) :
    List.Forall₂ (PointsTo (encodeDb rs)) (cleanNodes FileHdr.size rs) rs := by
  have h := forall₂_cleanNodes [] rs superblock.encode (List.append_nil (encodeDb rs)).symm
  rwa [FileHdr.length_encode] at h

theorem len_ne_zero_iff (r : Record) : r.hdr.len ≠ 0 ↔ r.val ≠ [] := by
  rw [ne_eq, ne_eq, ← List.length_eq_zero_iff, r.length_val, ← UInt32.toNat_inj]
  rfl

/-! ### What tikdb writes -/

/-- **Mounting what `tikdb` has written.** After a completed history of commands that leaves fewer
than `INIT_SLOTS` records, the file mounts with exactly these records if and only if none of them
has an empty value. -/
theorem mounts_iff {history : List Cmd} {data : List Byte}
    (hrun : dbAfter history = .ok (some data))
    (hcount : (recordsAfter history).length < initSlots) :
    Mounts data (recordsAfter history) ↔ ∀ r ∈ recordsAfter history, r.val ≠ [] := by
  obtain ⟨rfl, -⟩ := eq_encodeDb_of_dbAfter hrun
  constructor
  · rintro ⟨st, hst, -⟩ r hr
    exact (len_ne_zero_iff r).mp ((eq_of_tikfsInit hst).1 r hr)
  · intro hval
    have hlen : ∀ r ∈ recordsAfter history, r.hdr.len ≠ 0 := fun r hr =>
      (len_ne_zero_iff r).mpr (hval r hr)
    exact ⟨_, tikfsInit_encodeDb hlen hcount, forall₂_cleanNodes_encodeDb _⟩

/-- The file after adding `"a"` and `"ab"`. -/
theorem mounts_iff_prefixFirst : Mounts (encodeDb recordsAB) recordsAB :=
  (@mounts_iff prefixFirst _ (by decide +kernel) (by decide +kernel)).mpr (by decide)

/-- The empty string. -/
def strEmpty : CStr := ⟨[], by decide, by decide⟩

/-- **An empty value is written and not mounted.** -/
theorem not_forall_mounts :
    ¬∀ (history : List Cmd) (data : List Byte), dbAfter history = .ok (some data) →
      (recordsAfter history).length < initSlots → Mounts data (recordsAfter history) := by
  intro hall
  obtain ⟨st, hst, -⟩ := hall [.add strA strEmpty 0, .create]
    (encodeDb [newRecord strA.bytes strEmpty.bytes 0]) (by decide +kernel) (by decide)
  have hlen := (eq_of_tikfsInit hst).1 (newRecord strA.bytes strEmpty.bytes 0) List.mem_cons_self
  exact hlen rfl

/-! ### What both find -/

section Find

variable {rs : List Record} {key : List Byte}

/-- **The scans agree.** A mounted file has the path of a key at the record where the scan of
`get_key_val` stops. -/
theorem fileType_eq_file_iff (hkey : (0 : Byte) ∉ key) (hne : key ≠ []) (hle : key.length ≤ 31)
    (off i : ℕ) : fileType (cleanNodes off rs) (47 :: key) = .file i ↔
      (rs.findIdx? fun r => keyMatches key r.hdr) = some i := by
  have hmatch : pathMatches key =
      (fun hdr : DataHdr => decide (key <+: hdr.keyStr)) ∘ Fnode.metaHdr := by
    funext n
    rw [Bool.eq_iff_iff, pathMatches_iff hkey (by omega)]
    exact decide_eq_true_iff.symm
  have hscan : (cleanNodes off rs).findIdx? (pathMatches key) =
      rs.findIdx? fun r => keyMatches key r.hdr := by
    rw [hmatch, ← List.findIdx?_map, cleanNodes_map_metaHdr, List.findIdx?_map,
      keyMatches_eq_decide hkey hle]
    rfl
  have hroot : (47 : Byte) :: key ≠ [47] := fun h => hne (List.cons.inj h).2
  rw [fileType, if_neg hroot, List.tail_cons, hscan]
  cases rs.findIdx? fun r => keyMatches key r.hdr with
  | none => simp
  | some j => simp

/-- A read of a whole file. -/
theorem tikfsRead_all {st : TikfsState} {path : List Byte} {i : ℕ} {n : Fnode} {r : Record}
    (hfile : fileType st.table path = .file i) (hn : st.table[i]? = some n)
    (hclean : n.dirty = .clean) (hpoints : PointsTo st.fd.data n r) {size : ℕ}
    (hsize : r.hdr.len.toNat ≤ size) (hlt : size < 2 ^ 64) (now : Int64) :
    (tikfsRead st path size 0 now).1 = cInt r.val.length ∧
      (tikfsRead st path size 0 now).2.1 = r.val := by
  have hcontent : content st.fd.data n = r.val := by
    rw [content_of_clean hclean, hpoints.onDisc_eq]
  have hlen : (content st.fd.data n).length = visibleLen n := by
    rw [hcontent, r.length_val, visibleLen, hclean, hpoints.metaHdr_eq]
  have hread := readNode_eq_readSlice hlen (show 0 + size < 2 ^ 64 by omega) now
  have hslice : readSlice r.val size 0 = (cInt r.val.length, r.val) := by
    rw [readSlice, if_neg (Nat.not_lt_zero _), List.drop_zero,
      List.take_of_length_le (r.length_val.le.trans hsize)]
  rw [hcontent, hslice] at hread
  rw [tikfsRead_of_file hfile hn]
  dsimp only at hread ⊢
  exact hread

/-- **`tikdb get` and a fresh mount agree.** On a file of fewer than `INIT_SLOTS` records, none of
them empty, `get_key_val` selects a record for a key if and only if the mounted file has a file of
this name; it is the same record, and `tikfs_read` returns the value that `get_key_val` reads. -/
theorem get_mount_agree (hlen : ∀ r ∈ rs, r.hdr.len ≠ 0) (hcount : rs.length < initSlots)
    (hkey : (0 : Byte) ∉ key) (hne : key ≠ []) (hle : key.length ≤ 31)
    (stack : CharArray DataHdr.size) :
    ∃ st sel, tikfsInit (encodeDb rs) = .ok st ∧
      getKeyVal (some (encodeDb rs)) stack key = .ok sel ∧
      (sel.isSome ↔ ∃ i, fileType st.table (47 :: key) = .file i) ∧
      ∀ i, fileType st.table (47 :: key) = .file i →
        ∃ r n, rs[i]? = some r ∧ sel = some (r.hdr, r.val) ∧ st.table[i]? = some n ∧
          PointsTo (encodeDb rs) n r ∧
          ∀ size now, r.hdr.len.toNat ≤ size → size < 2 ^ 64 →
            (tikfsRead st (47 :: key) size 0 now).1 = cInt r.val.length ∧
              (tikfsRead st (47 :: key) size 0 now).2.1 = r.val ∧
              (r.val.length < 2 ^ 31 →
                (tikfsRead st (47 :: key) size 0 now).1 = r.val.length) := by
  have hfile := @fileType_eq_file_iff rs key hkey hne hle FileHdr.size
  refine ⟨_, _, tikfsInit_encodeDb hlen hcount, getKeyVal_encodeDb rs stack, ?_, fun i hi => ?_⟩
  · rw [Option.isSome_map, List.find?_eq_bind_findIdx?_getElem?]
    simp only [hfile, ← Option.isSome_iff_exists]
    cases hfind : rs.findIdx? fun r => keyMatches key r.hdr with
    | none => rfl
    | some i =>
      obtain ⟨hlt, -⟩ := List.findIdx?_eq_some_iff_getElem.mp hfind
      simp [hlt]
  · have hfind := (hfile i).mp hi
    obtain ⟨hlt, -⟩ := List.findIdx?_eq_some_iff_getElem.mp hfind
    obtain ⟨hlength, hpoints⟩ := List.forall₂_iff_get.mp (forall₂_cleanNodes_encodeDb rs)
    have hn := List.getElem?_eq_getElem (hlength ▸ hlt : i < (cleanNodes FileHdr.size rs).length)
    have hpoint := hpoints i (hlength ▸ hlt) hlt
    refine ⟨rs[i], _, List.getElem?_eq_getElem hlt, ?_, hn, hpoint,
      fun size now hsize hltsize => ?_⟩
    · rw [List.find?_eq_bind_findIdx?_getElem?, hfind, Option.bind_some,
        List.getElem?_eq_getElem hlt]
      rfl
    · obtain ⟨hret, hgot⟩ := tikfsRead_all hi hn (dirty_of_mem_cleanNodes (List.getElem_mem _))
        hpoint hsize hltsize now
      exact ⟨hret, hgot, fun hval => hret.trans (cInt_natCast hval)⟩

/-- The files `"a"` and `"ab"`, looked up under `"ab"`. -/
theorem get_mount_agree_recordsAB :
    ∃ st sel, tikfsInit (encodeDb recordsAB) = .ok st ∧
      getKeyVal (some (encodeDb recordsAB)) (CharArray.fill DataHdr.size []) strAB.bytes = .ok sel ∧
      sel.isSome ∧ fileType st.table (47 :: strAB.bytes) = .file 1 ∧
      (tikfsRead st (47 :: strAB.bytes) 9 0 7).1 = 1 ∧
      (tikfsRead st (47 :: strAB.bytes) 9 0 7).2.1 = strA.bytes := by
  obtain ⟨st, sel, hst, hsel, hiff, hread⟩ := @get_mount_agree recordsAB strAB.bytes (by decide)
    (by decide) (by decide) (by decide) (by decide) (CharArray.fill DataHdr.size [])
  have hfile : fileType st.table (47 :: strAB.bytes) = .file 1 := by
    have hinit : (tikfsInit (encodeDb recordsAB)).map
        (fun st => fileType st.table (47 :: strAB.bytes)) = .ok (.file 1) := by decide +kernel
    rw [hst] at hinit
    exact Except.ok.inj hinit
  obtain ⟨r, n, hr, -, -, -, hall⟩ := hread 1 hfile
  cases hr
  obtain ⟨hret, hgot, hcount⟩ := hall 9 7 (by decide) (by decide)
  exact ⟨st, sel, hst, hsel, hiff.mpr ⟨1, hfile⟩, hfile, hcount (by decide), hgot⟩

end Find

end TikFachpraktika.Tikfs
