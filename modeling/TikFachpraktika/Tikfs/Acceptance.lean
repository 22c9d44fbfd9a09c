import TikFachpraktika.Tikdb.Split
import TikFachpraktika.Tikfs.Agreement

/-!
# The files that are mounted

`tikfs_build_cache` reads the headers and jumps over the payloads. A `read` of a header must find it
whole or nothing at all, and an empty payload ends the mount, but an `lseek` beyond the end of the
file does not fail. So the files that are mounted are those of complete, non-empty records and
those whose last payload is cut off.

## Main definitions

* `WellFormed`: a file of complete, non-empty records.
* `CutOff`: a file that ends inside the payload of its last record.
* `headerCount`: the number of headers that a mount reads.
* `AcceptsExactly`: a mount accepts the file if and only if it is well-formed.
* `LooksSound`: the files that a mount accepts.

## Main results

* `exists_tikfsInit_iff`: the files that are mounted.
* `acceptsExactly_iff`: when the mounter accepts exactly the format.
* `not_forall_acceptsExactly`: it does not always.
-/

namespace TikFachpraktika.Tikfs

open Posix Tikdb

/-- The file `data` is the superblock followed by the records `rs`, none of them empty. -/
def WellFormed (data : List Byte) (rs : List Record) : Prop :=
  data = encodeDb rs ∧ ∀ r ∈ rs, r.hdr.len ≠ 0

/-- The file ends inside the payload of its last record. -/
def CutOff (data : List Byte) : Prop :=
  ∃ rs hdr pay, (∀ r ∈ rs, r.hdr.len ≠ 0) ∧ data = encodeDb rs ++ (DataHdr.encode hdr ++ pay) ∧
    pay.length < hdr.len.toNat

/-- The number of headers in the bytes behind a superblock: one for each complete record, and one
more when the rest holds a header. -/
def headerCount (bs : List Byte) : ℕ :=
  (splitRecords bs).1.length + if DataHdr.size ≤ (splitRecords bs).2.length then 1 else 0

/-- The file mounts if and only if it is well-formed, and then the table lists its records, with
their payloads inside the file. -/
structure AcceptsExactly (data : List Byte) : Prop where
  mounts_iff : (∃ st, tikfsInit data = .ok st) ↔ ∃ rs, WellFormed data rs
  table : ∀ st rs, tikfsInit data = .ok st → WellFormed data rs →
    List.Forall₂ (PointsTo data) st.table rs

/-! ### The end of the loop -/

section Loop

variable (pre : List Byte) {table : List Fnode}

/-- Too few bytes for a header end the mount. -/
theorem buildCacheLoop_short (htable : table.length < initSlots) {rest : List Byte}
    (hpos : 0 < rest.length) (hlt : rest.length < DataHdr.size) :
    buildCacheLoop ⟨pre ++ rest, pre.length, true⟩ table initSlots (sizeofFnode * initSlots) =
      .error .corrupted := by
  have hread : ((⟨pre ++ rest, pre.length, true⟩ : OpenFile).read DataHdr.size .full).1 =
      rest.length := by
    rw [OpenFile.read, OpenFile.length_available, List.length_append, Nat.add_sub_cancel_left,
      Nat.min_eq_right hlt.le]
  rw [buildCacheLoop, if_neg (by simp only [sizeofFnode, initSlots] at *; omega), hread,
    if_neg (by omega), dif_pos (by omega)]
  rfl

/-- A header with too few payload bytes is entered, and the loop ends behind the end of the
file. -/
theorem buildCacheLoop_cutOff (htable : table.length + 1 < initSlots) {hdr : DataHdr}
    {pay : List Byte} (hpay : pay.length < hdr.len.toNat) :
    ∃ fd, buildCacheLoop ⟨pre ++ (hdr.encode ++ pay), pre.length, true⟩ table initSlots
      (sizeofFnode * initSlots) =
        .ok (fd, table ++ [cleanNode hdr (pre.length + DataHdr.size)]) := by
  have hread := OpenFile.read_full_of_data
    (f := ⟨pre ++ (hdr.encode ++ pay), pre.length, true⟩) (a := pre) (b := hdr.encode) (c := pay)
    (List.append_assoc _ _ _).symm rfl (DataHdr.length_encode _).symm
  have hlen : hdr.len ≠ 0 := by
    rintro hzero
    rw [hzero] at hpay
    exact Nat.not_lt_zero _ hpay
  have hend (bs : List Byte) (k : ℕ) (hk : bs.length ≤ k) :
      (⟨bs, k, true⟩ : OpenFile).read DataHdr.size .full = (0, [], ⟨bs, k, true⟩) := by
    rw [OpenFile.read, OpenFile.available_of_length_le _ hk]
    rfl
  rw [buildCacheLoop, if_neg (by simp only [sizeofFnode, initSlots] at *; omega), hread]
  dsimp only
  rw [DataHdr.length_encode, DataHdr.decode_encode, if_neg (by decide), dif_neg (by decide),
    if_neg hlen, if_neg (by omega), if_neg (by omega), buildCacheLoop, if_neg, OpenFile.lseekCur,
    OpenFile.lseekSet]
  dsimp only
  rw [hend, if_pos rfl, List.length_append, DataHdr.length_encode]
  · exact ⟨_, rfl⟩
  · simp only [List.length_append, DataHdr.length_encode]
    omega
  · rw [List.length_append, List.length_singleton]
    simp only [sizeofFnode, initSlots] at *
    omega

/-- A header that fills the table takes its next entry out of the memory block. -/
theorem buildCacheLoop_full (htable : table.length + 1 = initSlots) {hdr : DataHdr}
    (hlen : hdr.len ≠ 0) (pay : List Byte) :
    buildCacheLoop ⟨pre ++ (hdr.encode ++ pay), pre.length, true⟩ table initSlots
      (sizeofFnode * initSlots) = .error .outOfBlock := by
  have hread := OpenFile.read_full_of_data
    (f := ⟨pre ++ (hdr.encode ++ pay), pre.length, true⟩) (a := pre) (b := hdr.encode) (c := pay)
    (List.append_assoc _ _ _).symm rfl (DataHdr.length_encode _).symm
  rw [buildCacheLoop, if_neg (by simp only [sizeofFnode, initSlots] at *; omega), hread]
  dsimp only
  rw [DataHdr.length_encode, DataHdr.decode_encode, if_neg (by decide), dif_neg (by decide),
    if_neg hlen, if_pos htable, if_pos htable, buildCacheLoop, if_pos]
  · rfl
  · rw [List.length_append, List.length_singleton, htable]
    decide

end Loop

/-! ### Files with a superblock -/

section File

variable {rs : List Record} {rest : List Byte}

/-- A file that passes the check starts with the superblock. -/
theorem exists_of_tikfsInit {data : List Byte} {st : TikfsState} (h : tikfsInit data = .ok st) :
    ∃ bs, data = superblock.encode ++ bs := by
  rw [tikfsInit] at h
  obtain ⟨fd, hcheck, -⟩ := exists_of_bind_eq_ok h
  rw [checkSuperblock] at hcheck
  dsimp only at hcheck
  split_ifs at hcheck with hret hmagic hmajor hminor
  exact exists_superblock_append (not_not.mp hret) (not_not.mp hmagic) (not_not.mp hmajor)
    (not_not.mp hminor)

/-- The records of a well-formed file are those of its split. -/
theorem wellFormed_append_iff (hrest : parseRecord rest = none) (rs' : List Record) :
    WellFormed (encodeDb rs ++ rest) rs' ↔
      rs' = rs ∧ rest = [] ∧ ∀ r ∈ rs, r.hdr.len ≠ 0 := by
  constructor
  · rintro ⟨hdata, hlen⟩
    rw [← List.append_nil (encodeDb rs')] at hdata
    obtain ⟨rfl, rfl⟩ := eq_of_encodeDb_append_eq hdata hrest parseRecord_nil
    exact ⟨rfl, rfl, hlen⟩
  · rintro ⟨rfl, rfl, hlen⟩
    exact ⟨List.append_nil _, hlen⟩

theorem cutOff_append_iff (hrest : parseRecord rest = none) :
    CutOff (encodeDb rs ++ rest) ↔
      (∀ r ∈ rs, r.hdr.len ≠ 0) ∧ DataHdr.size ≤ rest.length := by
  constructor
  · rintro ⟨rs', hdr, pay, hlen, hdata, hpay⟩
    have hnone : parseRecord (hdr.encode ++ pay) = none :=
      parseRecord_eq_none_iff.mpr (.inr ⟨hdr, pay, rfl, hpay⟩)
    obtain ⟨rfl, rfl⟩ := eq_of_encodeDb_append_eq hdata hrest hnone
    refine ⟨hlen, ?_⟩
    rw [List.length_append, DataHdr.length_encode]
    exact Nat.le_add_right _ _
  · rintro ⟨hlen, hsize⟩
    obtain hshort | ⟨hdr, pay, rfl, hpay⟩ := parseRecord_eq_none_iff.mp hrest
    · omega
    · exact ⟨rs, hdr, pay, hlen, rfl, hpay⟩

/-- A file that neither mounts nor is well-formed. -/
theorem acceptsExactly_of_not {data : List Byte} (hmount : ∀ st, tikfsInit data ≠ .ok st)
    (hformed : ∀ rs, ¬WellFormed data rs) : AcceptsExactly data :=
  ⟨iff_of_false (fun ⟨st, hst⟩ => hmount st hst) fun ⟨rs, hrs⟩ => hformed rs hrs,
    fun st _ hst => absurd hst (hmount st)⟩

/-- A well-formed file mounts with its records. -/
theorem acceptsExactly_encodeDb (hlen : ∀ r ∈ rs, r.hdr.len ≠ 0) (hrs : rs.length < initSlots) :
    AcceptsExactly (encodeDb rs) := by
  have hmount := tikfsInit_encodeDb hlen hrs
  refine ⟨iff_of_true ⟨_, hmount⟩ ⟨rs, rfl, hlen⟩, fun st rs' hst hformed => ?_⟩
  obtain rfl := Except.ok.inj (hmount.symm.trans hst)
  rw [← List.append_nil (encodeDb rs), wellFormed_append_iff parseRecord_nil] at hformed
  rw [hformed.1]
  exact forall₂_cleanNodes_encodeDb rs

/-- **When the mounter accepts exactly the format**, for a file with a superblock. -/
theorem acceptsExactly_append_iff (hrest : parseRecord rest = none)
    (hcount : rs.length + (if DataHdr.size ≤ rest.length then 1 else 0) < initSlots) :
    AcceptsExactly (encodeDb rs ++ rest) ↔ ¬CutOff (encodeDb rs ++ rest) := by
  have hrs : rs.length < initSlots := (Nat.le_add_right _ _).trans_lt hcount
  rw [cutOff_append_iff hrest]
  by_cases hlen : ∀ r ∈ rs, r.hdr.len ≠ 0
  · have htable : (cleanNodes FileHdr.size rs).length < initSlots := by rwa [length_cleanNodes]
    by_cases hsize : DataHdr.size ≤ rest.length
    · -- the cut-off payload is jumped over
      refine iff_of_false (fun hexact => ?_) (not_not.mpr ⟨hlen, hsize⟩)
      obtain hshort | ⟨hdr, pay, rfl, hpay⟩ := parseRecord_eq_none_iff.mp hrest
      · omega
      · rw [if_pos hsize] at hcount
        rw [← length_cleanNodes FileHdr.size rs] at hcount
        obtain ⟨fd, hloop⟩ := buildCacheLoop_cutOff (encodeDb rs) hcount hpay
        have hmount := tikfsInit_append (hdr.encode ++ pay) hlen hrs
        rw [hloop, ok_bind] at hmount
        obtain ⟨rs', hformed⟩ := hexact.mounts_iff.mp ⟨_, hmount⟩
        rw [((wellFormed_append_iff hrest rs').mp hformed).2.1] at hsize
        exact absurd hsize (by decide)
    · refine iff_of_true ?_ fun hcut => hsize hcut.2
      by_cases hnil : rest = []
      · rw [hnil, List.append_nil]
        exact acceptsExactly_encodeDb hlen hrs
      · have hloop := buildCacheLoop_short (encodeDb rs) htable
          (List.length_pos_iff.mpr hnil) (not_le.mp hsize)
        refine acceptsExactly_of_not (fun st hst => ?_) fun rs' hformed => ?_
        · rw [tikfsInit_append rest hlen hrs, hloop, error_bind] at hst
          cases hst
        · exact hnil ((wellFormed_append_iff hrest rs').mp hformed).2.1
  · refine iff_of_true (acceptsExactly_of_not (fun st => ?_) fun rs' hformed => ?_)
      fun hcut => hlen hcut.1
    · refine tikfsInit_append_ne_ok rest ?_ st
      by_contra hnone
      exact hlen fun r hr hzero => hnone ⟨r, hr, hzero⟩
    · exact hlen ((wellFormed_append_iff hrest rs').mp hformed).2.2

/-- The files that are mounted, behind a superblock. -/
theorem exists_tikfsInit_append_iff (hrest : parseRecord rest = none) :
    (∃ st, tikfsInit (encodeDb rs ++ rest) = .ok st) ↔
      rs.length + (if DataHdr.size ≤ rest.length then 1 else 0) < initSlots ∧
        (∀ r ∈ rs, r.hdr.len ≠ 0) ∧ (rest = [] ∨ DataHdr.size ≤ rest.length) := by
  by_cases hlen : ∀ r ∈ rs, r.hdr.len ≠ 0
  · rw [and_iff_right hlen]
    rcases Nat.lt_or_ge rs.length initSlots with hrs | hrs
    · have htable : (cleanNodes FileHdr.size rs).length = rs.length := length_cleanNodes _ _
      rw [tikfsInit_append rest hlen hrs]
      obtain hshort | ⟨hdr, pay, rfl, hpay⟩ := parseRecord_eq_none_iff.mp hrest
      · by_cases hnil : rest = []
        · rw [hnil, List.append_nil, buildCacheLoop_end (htable ▸ hrs)]
          exact iff_of_true ⟨_, rfl⟩ ⟨hrs, .inl rfl⟩
        · rw [buildCacheLoop_short (encodeDb rs) (htable ▸ hrs) (List.length_pos_iff.mpr hnil)
            hshort, error_bind]
          refine iff_of_false ?_ fun hall => hall.2.elim hnil (Nat.not_le.mpr hshort)
          rintro ⟨st, hst⟩
          cases hst
      · have hsize : DataHdr.size ≤ (hdr.encode ++ pay).length := by
          rw [List.length_append, DataHdr.length_encode]
          exact Nat.le_add_right _ _
        rw [if_pos hsize, and_iff_left (Or.inr hsize)]
        by_cases hfull : rs.length + 1 < initSlots
        · obtain ⟨fd, hloop⟩ := buildCacheLoop_cutOff (encodeDb rs)
            (show (cleanNodes FileHdr.size rs).length + 1 < initSlots by rwa [htable]) hpay
          rw [hloop, ok_bind]
          exact iff_of_true ⟨_, rfl⟩ hfull
        · have hzero : hdr.len ≠ 0 := by
            rintro hzero
            rw [hzero] at hpay
            exact Nat.not_lt_zero _ hpay
          rw [buildCacheLoop_full (encodeDb rs) (by rw [htable]; omega) hzero, error_bind]
          refine iff_of_false ?_ hfull
          rintro ⟨st, hst⟩
          cases hst
    · rw [tikfsInit_append_outOfBlock rest hlen hrs]
      refine iff_of_false ?_ fun hall => by omega
      rintro ⟨st, hst⟩
      cases hst
  · refine iff_of_false ?_ fun hall => hlen hall.2.1
    rintro ⟨st, hst⟩
    refine tikfsInit_append_ne_ok rest ?_ st hst
    by_contra hnone
    exact hlen fun r hr hzero => hnone ⟨r, hr, hzero⟩

end File

/-- A file that a mount takes for a database: complete, non-empty records behind the superblock, the
last of which may be cut off, and fewer than `INIT_SLOTS` headers. -/
def LooksSound (data : List Byte) : Prop :=
  headerCount (data.drop FileHdr.size) < initSlots ∧ ((∃ rs, WellFormed data rs) ∨ CutOff data)

/-- **The files that are mounted.** -/
theorem exists_tikfsInit_iff {data : List Byte} :
    (∃ st, tikfsInit data = .ok st) ↔ LooksSound data := by
  by_cases hblock : ∃ bs, data = superblock.encode ++ bs
  · obtain ⟨bs, rfl⟩ := hblock
    have hrest := parseRecord_splitRecords bs
    have hfile : superblock.encode ++ bs =
        encodeDb (splitRecords bs).1 ++ (splitRecords bs).2 := by
      rw [encodeDb, List.append_assoc, encodeRecords_splitRecords]
    rw [LooksSound, List.drop_left' (FileHdr.length_encode _), headerCount, hfile,
      exists_tikfsInit_append_iff hrest, cutOff_append_iff hrest]
    refine and_congr_right fun _ => ?_
    constructor
    · rintro ⟨hlen, hnil | hsize⟩
      · exact .inl ⟨_, (wellFormed_append_iff hrest _).mpr ⟨rfl, hnil, hlen⟩⟩
      · exact .inr ⟨hlen, hsize⟩
    · rintro (⟨rs, hformed⟩ | ⟨hlen, hsize⟩)
      · obtain ⟨-, hnil, hlen⟩ := (wellFormed_append_iff hrest rs).mp hformed
        exact ⟨hlen, .inl hnil⟩
      · exact ⟨hlen, .inr hsize⟩
  · refine iff_of_false ?_ ?_
    · rintro ⟨st, hst⟩
      exact hblock (exists_of_tikfsInit hst)
    · rintro ⟨-, hformed | hcut⟩
      · obtain ⟨rs, hdata, -⟩ := hformed
        exact hblock ⟨_, hdata⟩
      · obtain ⟨rs, hdr, pay, -, hdata, -⟩ := hcut
        exact hblock ⟨_, hdata.trans (List.append_assoc _ _ _)⟩

/-- **When the mounter accepts exactly the format.** For every file in which a mount reads fewer
than `INIT_SLOTS` headers, it mounts exactly when it is well-formed, and then lists the records of
the file, if and only if it does not end inside the payload of its last record. -/
theorem acceptsExactly_iff {data : List Byte}
    (hcount : headerCount (data.drop FileHdr.size) < initSlots) :
    AcceptsExactly data ↔ ¬CutOff data := by
  by_cases hblock : ∃ bs, data = superblock.encode ++ bs
  · obtain ⟨bs, rfl⟩ := hblock
    rw [List.drop_left' (FileHdr.length_encode _), headerCount] at hcount
    have hsplit := encodeRecords_splitRecords bs
    have hfile : superblock.encode ++ bs =
        encodeDb (splitRecords bs).1 ++ (splitRecords bs).2 := by
      rw [encodeDb, List.append_assoc, hsplit]
    rw [hfile]
    exact acceptsExactly_append_iff (parseRecord_splitRecords bs) hcount
  · refine iff_of_true (acceptsExactly_of_not (fun st hst => hblock (exists_of_tikfsInit hst))
      fun rs hformed => hblock ⟨encodeRecords rs, hformed.1⟩) ?_
    rintro ⟨rs, hdr, pay, -, hdata, -⟩
    exact hblock ⟨_, hdata.trans (List.append_assoc _ _ _)⟩

/-- The header of a record `"ab"` of two bytes, followed by one. -/
def cutRecord : List Byte :=
  (newHdr strAB.bytes 2 0).encode ++ [97]

theorem parseRecord_cutRecord : parseRecord cutRecord = none :=
  parseRecord_eq_none_iff.mpr (.inr ⟨newHdr strAB.bytes 2 0, [97], rfl, by decide⟩)

theorem headerCount_cutRecord : headerCount ((encodeDb [] ++ cutRecord).drop FileHdr.size) = 1 := by
  have hsplit := splitRecords_append parseRecord_cutRecord []
  rw [encodeRecords_nil, List.nil_append] at hsplit
  rw [encodeDb, encodeRecords_nil, List.append_nil, List.drop_left' (FileHdr.length_encode _),
    headerCount, hsplit]
  rfl

theorem cutOff_cutRecord : CutOff (encodeDb [] ++ cutRecord) :=
  ⟨[], newHdr strAB.bytes 2 0, [97], List.forall_mem_nil _, rfl, by decide⟩

/-- The file of this record is not treated right, and one without it is. -/
theorem acceptsExactly_iff_cutRecord :
    ¬AcceptsExactly (encodeDb [] ++ cutRecord) ∧ AcceptsExactly (encodeDb recordsAB ++ []) := by
  have hcut := @acceptsExactly_iff (encodeDb [] ++ cutRecord)
    (by rw [headerCount_cutRecord]; decide)
  refine ⟨fun hexact => hcut.mp hexact cutOff_cutRecord,
    (acceptsExactly_iff ?_).mpr fun hcutOff => ?_⟩
  · decide +kernel
  · exact absurd ((cutOff_append_iff parseRecord_nil).mp hcutOff).2 (by decide)

/-- **The mounter does not accept exactly the format**: a file whose last payload is cut off is
mounted. -/
theorem not_forall_acceptsExactly : ¬∀ data : List Byte,
    headerCount (data.drop FileHdr.size) < initSlots → AcceptsExactly data := by
  intro hall
  have hexact := hall (encodeDb [] ++ cutRecord) (by rw [headerCount_cutRecord]; decide)
  exact (acceptsExactly_append_iff parseRecord_cutRecord (by decide)).mp hexact cutOff_cutRecord

end TikFachpraktika.Tikfs
