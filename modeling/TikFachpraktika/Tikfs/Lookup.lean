import TikFachpraktika.Tikfs.Attributes
import TikFachpraktika.Tikfs.KeyOrder

/-!
# Path lookup

`tikfs_file_type` compares as many bytes of a key as its path has, so that a path finds the first
key that it is a prefix of. `tikfs_open` and `tikfs_getattr` use it; `tikfs_readdir` lists the keys
themselves.

## Main definitions

* `tikfsOpen`, `tikfsReaddir`: the functions of the same names.
* `KeysSound`: a table with distinct, non-empty keys that end in a NUL.
* `LookupExact`: a path finds the file whose key it is.
* `Resolves`: a path leads to the file of a given node.

## Main results

* `lookup_iff`: when the lookup is exact and when a listed name leads to its file.
* `not_forall_lookupExact`: the lookup is not always exact.
-/

namespace TikFachpraktika.Tikfs

open Posix Tikdb

/-- `tikfs_open`. -/
def tikfsOpen (st : TikfsState) (path : List Byte) : ℤ :=
  if fileType st.table path ≠ .none then 0 else -enoent

/-- The memory of a node from its key on, up to and including `dirty`, in which there is a zero. -/
def Fnode.bytes (n : Fnode) : List Byte :=
  n.metaHdr.encode ++ leBytes 8 n.data ++ leBytes 4 (if n.dirty = .dirty then 1 else 0)

/-- The name of a node that `snprintf` leaves in the 256 bytes of `tmp`. -/
def listedName (n : Fnode) : List Byte :=
  (cstr n.bytes).take 255

/-- `tikfs_readdir`: the returned value and the names that are passed to `filler`. -/
def tikfsReaddir (st : TikfsState) (path : List Byte) : ℤ × List (List Byte) :=
  match fileType st.table path with
  | .root => (0, [46] :: [46, 46] :: st.table.map listedName)
  | _ => (-enoent, [])

/-- The keys of a table are distinct, not empty, and end in a NUL inside their fields. -/
structure KeysSound (table : List Fnode) : Prop where
  zero_mem : ∀ n ∈ table, (0 : Byte) ∈ n.metaHdr.key.1
  ne_nil : ∀ n ∈ table, n.metaHdr.keyStr ≠ []
  nodup : (table.map fun n => n.metaHdr.keyStr).Nodup

/-- The path that goes on with `ptr` after its `/` is the file `i` if and only if `ptr` is the key
of the node `i`, and is no file if `ptr` is no key. -/
def LookupExact (table : List Fnode) (ptr : List Byte) : Prop :=
  (∀ i, fileType table (47 :: ptr) = .file i ↔
    ∃ n, table[i]? = some n ∧ n.metaHdr.keyStr = ptr) ∧
    ((∀ n ∈ table, n.metaHdr.keyStr ≠ ptr) → fileType table (47 :: ptr) = .none)

/-- The path leads to the node `i`, which is `n`: it can be opened, and its attributes are those of
this node. -/
structure Resolves (st : TikfsState) (path : List Byte) (i : ℕ) (n : Fnode) : Prop where
  file : fileType st.table path = .file i
  open_eq : tikfsOpen st path = 0
  getattr_eq : ∀ env stbuf, (tikfsGetattr st path env stbuf).1 = 0 ∧
    (tikfsGetattr st path env stbuf).2.size = cOffT (visibleLen n) ∧
    (tikfsGetattr st path env stbuf).2.atime = n.metaHdr.tsR ∧
    (tikfsGetattr st path env stbuf).2.mtime = n.metaHdr.tsW

/-- A key that goes on from `ptr`, or is `ptr`, stands at or behind the key `ptr`. -/
def Unshadowed (table : List Fnode) (ptr : List Byte) : Prop :=
  Keyed.Unshadowed (fun n : Fnode => n.metaHdr.keyStr) (· <+: ·) ptr table

/-! ### Names -/

theorem cstr_append_of_mem {bs : List Byte} (h : (0 : Byte) ∈ bs) (cs : List Byte) :
    cstr (bs ++ cs) = cstr bs := by
  induction bs with
  | nil => cases h
  | cons b bs ih =>
    by_cases hb : b = 0
    · rw [hb]
      rfl
    · have hkeep (l : List Byte) : cstr (b :: l) = b :: cstr l :=
        List.takeWhile_cons_of_pos (by simpa using hb)
      rw [List.cons_append, hkeep, hkeep, ih ((List.mem_cons.mp h).resolve_left (Ne.symm hb))]

/-- A key that ends in a NUL is shorter than its field. -/
theorem length_keyStr_lt {hdr : DataHdr} (h : (0 : Byte) ∈ hdr.key.1) : hdr.keyStr.length < 32 := by
  have hpre : hdr.keyStr <+: hdr.key.1 := List.takeWhile_prefix _
  have hle := hpre.length_le
  rw [hdr.key.2] at hle
  refine lt_of_le_of_ne hle fun hlen => zero_notMem_cstr hdr.key.1 ?_
  have hall : cstr hdr.key.1 = hdr.key.1 := hpre.eq_of_length (hlen.trans hdr.key.2.symm)
  rwa [hall]

/-- A key that ends in a NUL is listed as it is. -/
theorem listedName_eq {n : Fnode} (h : (0 : Byte) ∈ n.metaHdr.key.1) :
    listedName n = n.metaHdr.keyStr := by
  have hbytes : cstr n.bytes = n.metaHdr.keyStr := by
    rw [Fnode.bytes, DataHdr.encode]
    simp only [List.append_assoc]
    exact cstr_append_of_mem h _
  have hlt := length_keyStr_lt h
  rw [listedName, hbytes, List.take_of_length_le (by omega)]

/-- A path matches the keys that it is a prefix of. -/
theorem pathMatches_iff_of_mem {ptr : List Byte} (hptr : (0 : Byte) ∉ ptr) {n : Fnode}
    (hn : (0 : Byte) ∈ n.metaHdr.key.1) : pathMatches ptr n ↔ ptr <+: n.metaHdr.keyStr := by
  have hlt := length_keyStr_lt hn
  rw [pathMatches, decide_eq_true_iff, strncmp_eq_zero_iff _ _ _ (Nat.min_le_left _ _) hptr,
    take_min_length]
  rcases Nat.le_total ptr.length 32 with hle | hge
  · rw [List.take_of_length_le hle]
    rfl
  · -- a path of 32 characters or more matches no key
    refine iff_of_false (fun hpre => ?_) fun hpre => ?_
    · have hlen : (ptr.take 32).length ≤ n.metaHdr.keyStr.length := hpre.length_le
      rw [List.length_take] at hlen
      omega
    · have hlen := hpre.length_le
      omega

/-! ### The scan -/

section Scan

variable {st : TikfsState} {ptr : List Byte}

theorem findIdx?_pathMatches (hkeys : KeysSound st.table) (hptr : (0 : Byte) ∉ ptr) :
    st.table.findIdx? (pathMatches ptr) =
      st.table.findIdx? fun n => decide (ptr <+: n.metaHdr.keyStr) :=
  Keyed.findIdx?_congr fun n hn => by
    rw [Bool.eq_iff_iff, pathMatches_iff_of_mem hptr (hkeys.zero_mem n hn), decide_eq_true_iff]

theorem fileType_eq_file_iff_findIdx? (hkeys : KeysSound st.table) (hptr : (0 : Byte) ∉ ptr)
    (hne : ptr ≠ []) (i : ℕ) :
    fileType st.table (47 :: ptr) = .file i ↔
      (st.table.findIdx? fun n => decide (ptr <+: n.metaHdr.keyStr)) = some i := by
  have hroot : (47 : Byte) :: ptr ≠ [47] := fun h => hne (List.cons.inj h).2
  rw [fileType, if_neg hroot, List.tail_cons, findIdx?_pathMatches hkeys hptr]
  cases st.table.findIdx? fun n => decide (ptr <+: n.metaHdr.keyStr) with
  | none => simp
  | some j => simp

/-- A path other than `"/"` leads to a file or to none. -/
theorem fileType_eq_none_of_forall (hne : ptr ≠ [])
    (h : ∀ i, fileType st.table (47 :: ptr) ≠ .file i) : fileType st.table (47 :: ptr) = .none := by
  have hroot : (47 : Byte) :: ptr ≠ [47] := fun h => hne (List.cons.inj h).2
  rw [fileType, if_neg hroot] at h ⊢
  cases hscan : st.table.findIdx? (pathMatches ((47 : Byte) :: ptr).tail) with
  | none => rfl
  | some i =>
    rw [hscan] at h
    exact absurd rfl (h i)

/-- **When the lookup of a path is exact.** -/
theorem lookupExact_iff (hkeys : KeysSound st.table) (hptr : (0 : Byte) ∉ ptr) (hne : ptr ≠ []) :
    LookupExact st.table ptr ↔ Unshadowed st.table ptr := by
  have hscan := Keyed.scan_exact_iff (r := (· <+: ·)) hkeys.nodup ptr
  rw [Unshadowed, ← hscan, LookupExact]
  simp only [fileType_eq_file_iff_findIdx? hkeys hptr hne]
  refine and_iff_left_of_imp fun hexact hnone => fileType_eq_none_of_forall hne fun i hfile => ?_
  obtain ⟨n, hn, hkey⟩ := (hexact i).mp
    ((fileType_eq_file_iff_findIdx? hkeys hptr hne i).mp hfile)
  exact hnone n (List.mem_of_getElem? hn) hkey

/-- A path of the node `i` leads to it. -/
theorem resolves_iff {path : List Byte} {i : ℕ} {n : Fnode} (hn : st.table[i]? = some n) :
    Resolves st path i n ↔ fileType st.table path = .file i := by
  constructor
  · exact Resolves.file
  · intro hfile
    refine ⟨hfile, ?_, fun env stbuf => ?_⟩
    · rw [tikfsOpen, hfile]
      rfl
    · obtain ⟨hret, hsize⟩ := tikfsGetattr_of_file hfile hn env stbuf
      refine ⟨hret, hsize, ?_, ?_⟩
      · simp only [tikfsGetattr, hfile, hn]
      · simp only [tikfsGetattr, hfile, hn]

/-- **When a listed name leads to its file.** -/
theorem resolves_listedName_iff (hkeys : KeysSound st.table) {i : ℕ} {n : Fnode}
    (hn : st.table[i]? = some n) :
    Resolves st (47 :: listedName n) i n ↔ Unshadowed st.table n.metaHdr.keyStr := by
  have hmem := List.mem_of_getElem? hn
  have hzero : (0 : Byte) ∉ n.metaHdr.keyStr := zero_notMem_cstr _
  rw [resolves_iff hn, listedName_eq (hkeys.zero_mem n hmem),
    fileType_eq_file_iff_findIdx? hkeys hzero (hkeys.ne_nil n hmem)]
  exact Keyed.scan_key_iff (r := (· <+: ·)) hkeys.nodup hn

end Scan

/-- **Path lookup.** In a table with distinct, non-empty keys that end in a NUL, the lookup of a
path is exact if and only if every key that goes on from the text after the `/` stands at or behind
a key that is equal to it. The names that `tikfs_readdir` lists are the keys, and a listed name
leads to its file if and only if the same holds for it. -/
theorem lookup_iff {st : TikfsState} (hkeys : KeysSound st.table) :
    (∀ ptr, (0 : Byte) ∉ ptr → ptr ≠ [] →
      (LookupExact st.table ptr ↔ Unshadowed st.table ptr)) ∧
      tikfsReaddir st [47] =
        (0, [46] :: [46, 46] :: st.table.map fun n => n.metaHdr.keyStr) ∧
      ∀ i n, st.table[i]? = some n →
        (Resolves st (47 :: listedName n) i n ↔ Unshadowed st.table n.metaHdr.keyStr) := by
  refine ⟨fun ptr => lookupExact_iff hkeys, ?_, fun i n => resolves_listedName_iff hkeys⟩
  have hnames : st.table.map listedName = st.table.map fun n => n.metaHdr.keyStr :=
    List.map_congr_left fun n hn => listedName_eq (hkeys.zero_mem n hn)
  rw [← hnames]
  rfl

/-- The file `"ab"` just after its mount. -/
def mountAB : TikfsState :=
  ⟨⟨encodeDb [newRecord strAB.bytes strAB.bytes 0], 0, true⟩,
    cleanNodes FileHdr.size [newRecord strAB.bytes strAB.bytes 0]⟩

theorem tikfsInit_mountAB :
    tikfsInit (encodeDb [newRecord strAB.bytes strAB.bytes 0]) = .ok mountAB :=
  tikfsInit_encodeDb (by decide) (by decide)

theorem keysSound_mountAB : KeysSound mountAB.table :=
  ⟨by decide +kernel, by decide +kernel, by decide +kernel⟩

/-- The only file is found under its name, and the path `"/a"` is not looked up right. -/
theorem lookup_iff_mountAB :
    LookupExact mountAB.table strAB.bytes ∧ ¬LookupExact mountAB.table strA.bytes := by
  have hnode : mountAB.table = [cleanNode (newHdr strAB.bytes 2 0) 64] := by decide +kernel
  have hkey : (newHdr strAB.bytes 2 0).keyStr = strAB.bytes := by decide +kernel
  obtain ⟨hlookup, -⟩ := lookup_iff keysSound_mountAB
  constructor
  · refine (hlookup strAB.bytes strAB.notMem (by decide)).mpr fun i n hn _ => ?_
    exact ⟨0, Nat.zero_le i, cleanNode (newHdr strAB.bytes 2 0) 64, by rw [hnode]; rfl, hkey⟩
  · intro hexact
    obtain ⟨j, -, m, hm, hmkey⟩ := (hlookup strA.bytes strA.notMem (by decide)).mp hexact 0 _
      (by rw [hnode]; rfl) (by decide +kernel)
    rw [hnode] at hm
    obtain rfl := List.mem_singleton.mp (List.mem_of_getElem? hm)
    exact absurd (hkey.symm.trans hmkey) (by decide)

/-- **The lookup is not always exact**: the path `"/a"` leads to the file `"ab"`. -/
theorem not_forall_lookupExact : ¬∀ (disc : List Byte) (st : TikfsState),
    tikfsInit disc = .ok st → KeysSound st.table → ∀ ptr, (0 : Byte) ∉ ptr → ptr ≠ [] →
      LookupExact st.table ptr := by
  intro hall
  obtain ⟨hexact, -⟩ := hall _ mountAB tikfsInit_mountAB keysSound_mountAB strA.bytes strA.notMem
    (by decide)
  obtain ⟨n, hn, hkey⟩ := (hexact 0).mp (by decide +kernel)
  have hn' : mountAB.table[0]? = some (cleanNode (newHdr strAB.bytes 2 0) 64) := by
    decide +kernel
  obtain rfl := Option.some.inj (hn'.symm.trans hn)
  exact absurd hkey (by decide +kernel)

end TikFachpraktika.Tikfs
