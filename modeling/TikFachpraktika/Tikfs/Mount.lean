import TikFachpraktika.Tikdb.Format

/-!
# Mounting a tikdb file

The node table of `5_filesys/tikfs.c` and the functions that fill it from a database file. The
memory block of the table is a number of bytes: `tikfs_build_cache` asks for `INIT_SLOTS` entries
with `xmalloc` and later passes a number of *entries* to `xrealloc`, so the block shrinks when the
table is full. An entry outside the block ends the mount with `outOfBlock`.

## Main definitions

* `Fnode`, `TikfsState`: `struct tikfs_fnode` and the state of a mounted file system.
* `checkSuperblock`, `buildCache`, `tikfsInit`: the functions of the same names.

## Main results

* `tikfsInit_encodeDb`: mounting a well-formed file.
* `length_lt_of_tikfsInit_append`: a file with further bytes mounts with further nodes or not at
  all.
-/

namespace TikFachpraktika.Tikfs

open Posix Tikdb

/-- `TIK_CLEAN` and `TIK_DIRTY`. -/
inductive Dirty
  | clean
  | dirty
  deriving DecidableEq

/-- `struct tikfs_fnode`. The field `meta` is `metaHdr`; `cowbuff` is `none` when the pointer is
`NULL` or freed. -/
structure Fnode where
  metaHdr : DataHdr
  data : ℕ
  dirty : Dirty
  cowbuff : Option (List Byte)
  cowlen : ℕ
  deriving DecidableEq

/-- `sizeof(struct tikfs_fnode)`. -/
def sizeofFnode : ℕ := 88

/-- `INIT_SLOTS`. -/
def initSlots : ℕ := 1024

/-- A mounted file system: `tikfs_fd` with its file, and the used part of `table`. -/
structure TikfsState where
  fd : OpenFile
  table : List Fnode

/-- The end of a mount that does not succeed: the two `die` branches, and an entry of the table
outside its memory block. -/
inductive MountFailure
  | notTikdb
  | corrupted
  | outOfBlock
  deriving DecidableEq

/-- `tikfs_check_superblock`. -/
def checkSuperblock (fd : OpenFile) : Except MountFailure OpenFile :=
  let (ret, buf, fd) := fd.read FileHdr.size .full
  let hdr := FileHdr.decode buf
  if ret ≠ FileHdr.size then throw .notTikdb
  else if hdr.magic ≠ tikdbMagic then throw .notTikdb
  else if hdr.versionMajor ≠ tikdbVersionMaj then throw .notTikdb
  else if hdr.versionMinor ≠ tikdbVersionMin then throw .notTikdb
  else pure fd

/-- A node as `tikfs_build_cache` enters it. -/
def cleanNode (hdr : DataHdr) (data : ℕ) : Fnode :=
  ⟨hdr, data, .clean, none, 0⟩

/-- The loop of `tikfs_build_cache`: `tableLen` is `table_len` and `block` the size in bytes of the
memory block that `table` points to. A full table is given `tableLen * 3 / 2` *bytes*. -/
def buildCacheLoop (fd : OpenFile) (table : List Fnode) (tableLen block : ℕ) :
    Except MountFailure (OpenFile × List Fnode) :=
  if block < (table.length + 1) * sizeofFnode then throw .outOfBlock
  else if (fd.read DataHdr.size .full).1 = 0 then pure ((fd.read DataHdr.size .full).2.2, table)
  else if _hret : (fd.read DataHdr.size .full).1 ≠ DataHdr.size then throw .corrupted
  else
    let hdr := DataHdr.decode (fd.read DataHdr.size .full).2.1
    let fd' := (fd.read DataHdr.size .full).2.2
    if hdr.len = 0 then throw .corrupted
    else
      let full := table.length + 1 = tableLen
      buildCacheLoop (fd'.lseekCur hdr.len.toNat) (table ++ [cleanNode hdr fd'.offset])
        (if full then tableLen * 3 / 2 else tableLen) (if full then tableLen * 3 / 2 else block)
termination_by fd.data.length - fd.offset
decreasing_by
  have hlen := fd.length_available DataHdr.size
  simp only [OpenFile.read, OpenFile.lseekCur, DataHdr.size, not_not, ne_eq] at *
  omega

/-- `tikfs_build_cache`. -/
def buildCache (fd : OpenFile) : Except MountFailure TikfsState := do
  let (fd, table) ← buildCacheLoop fd [] initSlots (sizeofFnode * initSlots)
  return ⟨fd.lseekSet 0, table⟩

/-- `tikfs_init` on the database file: opened with `O_RDWR | O_APPEND`, checked and read. -/
def tikfsInit (disc : List Byte) : Except MountFailure TikfsState := do
  let fd ← checkSuperblock ⟨disc, 0, true⟩
  buildCache fd

/-! ### Mounting a well-formed file -/

/-- The nodes of records that start at offset `off` of the file. -/
def cleanNodes : ℕ → List Record → List Fnode
  | _, [] => []
  | off, r :: rs => cleanNode r.hdr (off + DataHdr.size) :: cleanNodes (off + r.encode.length) rs

@[simp] theorem length_cleanNodes : (off : ℕ) → (rs : List Record) →
    (cleanNodes off rs).length = rs.length
  | _, [] => rfl
  | off, r :: rs => by
      rw [cleanNodes, List.length_cons, List.length_cons, length_cleanNodes]

theorem checkSuperblock_append (rest : List Byte) :
    checkSuperblock ⟨superblock.encode ++ rest, 0, true⟩ =
      .ok ⟨superblock.encode ++ rest, FileHdr.size, true⟩ := by
  have hread := OpenFile.read_full_of_data (f := ⟨superblock.encode ++ rest, 0, true⟩) (a := [])
    (b := superblock.encode) (c := rest) rfl rfl (FileHdr.length_encode _).symm
  simp only [checkSuperblock, hread, FileHdr.decode_encode, FileHdr.length_encode]
  simp [superblock, OpenFile.lseekSet]
  rfl

section Loop

variable {pre rest : List Byte} {table : List Fnode}

/-- One round of the loop on a record, while the table is in its first block. -/
theorem buildCacheLoop_cons {r : Record} (hr : r.hdr.len ≠ 0) (htable : table.length < initSlots) :
    buildCacheLoop ⟨pre ++ (r.encode ++ rest), pre.length, true⟩ table initSlots
        (sizeofFnode * initSlots) =
      buildCacheLoop ⟨(pre ++ r.encode) ++ rest, (pre ++ r.encode).length, true⟩
        (table ++ [cleanNode r.hdr (pre.length + DataHdr.size)])
        (if table.length + 1 = initSlots then initSlots * 3 / 2 else initSlots)
        (if table.length + 1 = initSlots then initSlots * 3 / 2 else sizeofFnode * initSlots) := by
  have hread := OpenFile.read_full_of_data (f := ⟨pre ++ (r.encode ++ rest), pre.length, true⟩)
    (a := pre) (b := r.hdr.encode) (c := r.val ++ rest) (by simp [Record.encode]) rfl
    (DataHdr.length_encode _).symm
  have hoff : (pre ++ r.encode).length = pre.length + DataHdr.size + r.hdr.len.toNat := by
    rw [List.length_append, r.length_encode, Nat.add_assoc]
  have hdata : (pre ++ r.hdr.encode).length = pre.length + DataHdr.size := by simp
  rw [buildCacheLoop, if_neg (by simp only [sizeofFnode, initSlots] at *; omega), hread]
  simp only [DataHdr.length_encode, DataHdr.decode_encode, OpenFile.lseekSet, OpenFile.lseekCur,
    hoff, hdata, List.append_assoc]
  rw [if_neg (by simp [DataHdr.size]), dif_neg (by simp), if_neg hr]

/-- The loop on fewer than `INIT_SLOTS` records enters a clean node for each of them. -/
theorem buildCacheLoop_encodeRecords (rest : List Byte) : (rs : List Record) → (pre : List Byte) →
    (table : List Fnode) → (∀ r ∈ rs, r.hdr.len ≠ 0) → table.length + rs.length < initSlots →
    buildCacheLoop ⟨pre ++ (encodeRecords rs ++ rest), pre.length, true⟩ table initSlots
        (sizeofFnode * initSlots) =
      buildCacheLoop ⟨(pre ++ encodeRecords rs) ++ rest, (pre ++ encodeRecords rs).length, true⟩
        (table ++ cleanNodes pre.length rs) initSlots (sizeofFnode * initSlots)
  | [], pre, table, _, _ => by simp [cleanNodes]
  | r :: rs, pre, table, hlen, hlt => by
      rw [List.length_cons] at hlt
      rw [encodeRecords_cons, List.append_assoc,
        buildCacheLoop_cons (hlen r List.mem_cons_self) (by omega), if_neg (by omega),
        if_neg (by omega), buildCacheLoop_encodeRecords rest rs _ _
          (fun r' hr' => hlen r' (List.mem_cons_of_mem _ hr'))
          (by simp only [List.length_append, List.length_cons, List.length_nil]; omega),
        cleanNodes]
      simp only [List.append_assoc, List.cons_append, List.nil_append, List.length_append]

/-- With `INIT_SLOTS` records or more the loop reaches an entry outside its block. -/
theorem buildCacheLoop_outOfBlock (rest : List Byte) : (rs : List Record) → (pre : List Byte) →
    (table : List Fnode) → (∀ r ∈ rs, r.hdr.len ≠ 0) → table.length < initSlots →
    initSlots ≤ table.length + rs.length →
    buildCacheLoop ⟨pre ++ (encodeRecords rs ++ rest), pre.length, true⟩ table initSlots
      (sizeofFnode * initSlots) = .error .outOfBlock
  | [], _, _, _, htable, hge => by
      rw [List.length_nil] at hge
      omega
  | r :: rs, pre, table, hlen, htable, hge => by
      rw [List.length_cons] at hge
      rw [encodeRecords_cons, List.append_assoc,
        buildCacheLoop_cons (hlen r List.mem_cons_self) htable]
      by_cases hfull : table.length + 1 = initSlots
      · rw [buildCacheLoop, if_pos]
        · rfl
        · simp only [hfull, ↓reduceIte, List.length_append, List.length_cons, List.length_nil,
            initSlots, sizeofFnode]
          omega
      · rw [if_neg hfull, if_neg hfull]
        exact buildCacheLoop_outOfBlock rest rs _ _
          (fun r' hr' => hlen r' (List.mem_cons_of_mem _ hr'))
          (by simp only [List.length_append, List.length_cons, List.length_nil]; omega)
          (by simp only [List.length_append, List.length_cons, List.length_nil]; omega)

/-- An empty record ends the mount. -/
theorem buildCacheLoop_zero {r : Record} (hr : r.hdr.len = 0) (htable : table.length < initSlots) :
    buildCacheLoop ⟨pre ++ (r.encode ++ rest), pre.length, true⟩ table initSlots
      (sizeofFnode * initSlots) = .error .corrupted := by
  have hread := OpenFile.read_full_of_data (f := ⟨pre ++ (r.encode ++ rest), pre.length, true⟩)
    (a := pre) (b := r.hdr.encode) (c := r.val ++ rest) (by simp [Record.encode]) rfl
    (DataHdr.length_encode _).symm
  rw [buildCacheLoop, if_neg (by simp only [sizeofFnode, initSlots] at *; omega), hread]
  simp only [DataHdr.length_encode, DataHdr.decode_encode]
  rw [if_neg (by simp [DataHdr.size]), dif_neg (by simp), if_pos hr]
  rfl

/-- The loop does not get past an empty record. -/
theorem exists_buildCacheLoop_eq_error (rest : List Byte) : (rs : List Record) →
    (pre : List Byte) → (table : List Fnode) → (∃ r ∈ rs, r.hdr.len = 0) →
    table.length < initSlots →
    ∃ e, buildCacheLoop ⟨pre ++ (encodeRecords rs ++ rest), pre.length, true⟩ table initSlots
      (sizeofFnode * initSlots) = .error e
  | r :: rs, pre, table, hzero, htable => by
      rw [encodeRecords_cons, List.append_assoc]
      by_cases hr : r.hdr.len = 0
      · exact ⟨_, buildCacheLoop_zero hr htable⟩
      · have hzero' : ∃ r' ∈ rs, r'.hdr.len = 0 := by
          obtain ⟨r', hr', h0⟩ := hzero
          rcases List.mem_cons.mp hr' with rfl | hmem
          · exact absurd h0 hr
          · exact ⟨r', hmem, h0⟩
        rw [buildCacheLoop_cons hr htable]
        by_cases hfull : table.length + 1 = initSlots
        · refine ⟨.outOfBlock, ?_⟩
          rw [buildCacheLoop, if_pos]
          · rfl
          · simp only [hfull, ↓reduceIte, List.length_append, List.length_cons, List.length_nil,
              initSlots, sizeofFnode]
            omega
        · rw [if_neg hfull, if_neg hfull]
          exact exists_buildCacheLoop_eq_error rest rs _ _ hzero'
            (by simp only [List.length_append, List.length_cons, List.length_nil]; omega)

/-- At the end of the file the loop returns its table. -/
theorem buildCacheLoop_end (htable : table.length < initSlots) :
    buildCacheLoop ⟨pre, pre.length, true⟩ table initSlots (sizeofFnode * initSlots) =
      .ok (⟨pre, pre.length, true⟩, table) := by
  rw [buildCacheLoop, if_neg (by simp only [sizeofFnode, initSlots] at *; omega),
    if_pos (by simp [OpenFile.read, OpenFile.available])]
  simp [OpenFile.read, OpenFile.available]
  rfl

/-- The loop only adds nodes, and adds one unless it starts at the end of the file. -/
theorem prefix_of_buildCacheLoop {fd fd' : OpenFile} {table table' : List Fnode}
    {tableLen block : ℕ} (h : buildCacheLoop fd table tableLen block = .ok (fd', table')) :
    table <+: table' ∧ (fd.offset < fd.data.length → table.length < table'.length) := by
  induction fd, table, tableLen, block using buildCacheLoop.induct with
  | case1 fd table tableLen block hblock =>
    rw [buildCacheLoop, if_pos hblock] at h
    cases h
  | case2 fd table tableLen block hblock hret =>
    rw [buildCacheLoop, if_neg hblock, if_pos hret] at h
    cases h
    refine ⟨List.prefix_rfl, fun hlt => ?_⟩
    have hlen := fd.length_available DataHdr.size
    simp only [OpenFile.read, DataHdr.size] at hret hlen
    omega
  | case3 fd table tableLen block hblock hret hhdr =>
    rw [buildCacheLoop, if_neg hblock, if_neg hret, dif_pos hhdr] at h
    cases h
  | case4 fd table tableLen block hblock hret hhdr hdr hzero =>
    rw [buildCacheLoop, if_neg hblock, if_neg hret, dif_neg hhdr] at h
    replace h := (if_pos hzero).symm.trans h
    cases h
  | case5 fd table tableLen block hblock hret hhdr hdr fd' hzero full ih =>
    rw [buildCacheLoop, if_neg hblock, if_neg hret, dif_neg hhdr] at h
    have hgrow := (ih ((if_neg hzero).symm.trans h)).1
    refine ⟨(List.prefix_append _ _).trans hgrow, fun _ => ?_⟩
    have hle := hgrow.length_le
    rw [List.length_append, List.length_singleton] at hle
    exact hle

end Loop

/-! ### Mounting -/

section File

variable {rs : List Record}

/-- A mount of complete, non-empty records followed by a rest. -/
theorem tikfsInit_append (rest : List Byte) (hlen : ∀ r ∈ rs, r.hdr.len ≠ 0)
    (hrs : rs.length < initSlots) :
    tikfsInit (encodeDb rs ++ rest) =
      buildCacheLoop ⟨encodeDb rs ++ rest, (encodeDb rs).length, true⟩
        (cleanNodes FileHdr.size rs) initSlots (sizeofFnode * initSlots) >>= fun p =>
          .ok ⟨p.1.lseekSet 0, p.2⟩ := by
  have hloop := buildCacheLoop_encodeRecords rest rs superblock.encode [] hlen (by simpa using hrs)
  rw [List.nil_append, FileHdr.length_encode] at hloop
  rw [tikfsInit, encodeDb, List.append_assoc, checkSuperblock_append, ok_bind, buildCache, hloop]
  rfl

/-- An empty record ends the mount. -/
theorem tikfsInit_append_ne_ok (rest : List Byte) (hzero : ∃ r ∈ rs, r.hdr.len = 0)
    (st : TikfsState) : tikfsInit (encodeDb rs ++ rest) ≠ .ok st := by
  obtain ⟨e, hloop⟩ := exists_buildCacheLoop_eq_error rest rs superblock.encode [] hzero
    (by decide)
  rw [FileHdr.length_encode] at hloop
  rw [tikfsInit, encodeDb, List.append_assoc, checkSuperblock_append, ok_bind, buildCache, hloop,
    error_bind]
  exact fun h => by cases h

/-- **Mounting a well-formed file** with fewer than `INIT_SLOTS` records, none of them empty,
lists the records with clean nodes. -/
theorem tikfsInit_encodeDb (hlen : ∀ r ∈ rs, r.hdr.len ≠ 0) (hrs : rs.length < initSlots) :
    tikfsInit (encodeDb rs) = .ok ⟨⟨encodeDb rs, 0, true⟩, cleanNodes FileHdr.size rs⟩ := by
  have htable : (cleanNodes FileHdr.size rs).length < initSlots := by rwa [length_cleanNodes]
  have hmount := tikfsInit_append [] hlen hrs
  rw [List.append_nil, buildCacheLoop_end htable] at hmount
  exact hmount

/-- With `INIT_SLOTS` complete records or more a mount leaves the memory block of the table. -/
theorem tikfsInit_append_outOfBlock (rest : List Byte) (hlen : ∀ r ∈ rs, r.hdr.len ≠ 0)
    (hrs : initSlots ≤ rs.length) : tikfsInit (encodeDb rs ++ rest) = .error .outOfBlock := by
  have hloop := buildCacheLoop_outOfBlock rest rs superblock.encode [] hlen
    (by decide) (by simpa using hrs)
  rw [FileHdr.length_encode] at hloop
  rw [tikfsInit, encodeDb, List.append_assoc, checkSuperblock_append, ok_bind, buildCache, hloop,
    error_bind]

/-- A well-formed file with `INIT_SLOTS` records or more is not mounted. -/
theorem tikfsInit_outOfBlock (hlen : ∀ r ∈ rs, r.hdr.len ≠ 0) (hrs : initSlots ≤ rs.length) :
    tikfsInit (encodeDb rs) = .error .outOfBlock := by
  have hfail := tikfsInit_append_outOfBlock [] hlen hrs
  rwa [List.append_nil] at hfail

/-- A mount of a well-formed file succeeds only when no record is empty and there are fewer than
`INIT_SLOTS`. -/
theorem eq_of_tikfsInit {st : TikfsState} (h : tikfsInit (encodeDb rs) = .ok st) :
    (∀ r ∈ rs, r.hdr.len ≠ 0) ∧ rs.length < initSlots ∧
      st = ⟨⟨encodeDb rs, 0, true⟩, cleanNodes FileHdr.size rs⟩ := by
  have hlen : ∀ r ∈ rs, r.hdr.len ≠ 0 := by
    intro r hr hzero
    have hne := tikfsInit_append_ne_ok [] ⟨r, hr, hzero⟩ st
    rw [List.append_nil] at hne
    exact hne h
  rcases Nat.lt_or_ge rs.length initSlots with hlt | hge
  · rw [tikfsInit_encodeDb hlen hlt] at h
    cases h
    exact ⟨hlen, hlt, rfl⟩
  · rw [tikfsInit_outOfBlock hlen hge] at h
    cases h

/-- A well-formed file that is followed by further bytes mounts with further nodes, if at all. -/
theorem length_lt_of_tikfsInit_append (hlen : ∀ r ∈ rs, r.hdr.len ≠ 0)
    (hrs : rs.length < initSlots) {rest : List Byte} (hrest : rest ≠ []) {st : TikfsState}
    (h : tikfsInit (encodeDb rs ++ rest) = .ok st) : rs.length < st.table.length := by
  rw [tikfsInit_append rest hlen hrs] at h
  obtain ⟨p, hloop, hst⟩ := exists_of_bind_eq_ok h
  have hgrow := (prefix_of_buildCacheLoop hloop).2
    (by simpa using List.length_pos_iff.mpr hrest)
  rw [length_cleanNodes] at hgrow
  cases hst
  exact hgrow

/-- Complete records at the start of a file are none of them empty if it mounts, and they are the
first nodes. -/
theorem prefix_of_tikfsInit_append (hrs : rs.length < initSlots) {rest : List Byte}
    {st : TikfsState} (h : tikfsInit (encodeDb rs ++ rest) = .ok st) :
    (∀ r ∈ rs, r.hdr.len ≠ 0) ∧ cleanNodes FileHdr.size rs <+: st.table := by
  have hlen : ∀ r ∈ rs, r.hdr.len ≠ 0 := fun r hr hzero =>
    tikfsInit_append_ne_ok rest ⟨r, hr, hzero⟩ st h
  rw [tikfsInit_append rest hlen hrs] at h
  obtain ⟨p, hloop, hst⟩ := exists_of_bind_eq_ok h
  cases hst
  exact ⟨hlen, (prefix_of_buildCacheLoop hloop).1⟩

end File

end TikFachpraktika.Tikfs
