import TikFachpraktika.Tikfs.Contents

/-!
# Writes and truncations as updates of a byte array

A POSIX `write` puts its bytes at their offset, fills a gap before them with zeros and leaves the
rest of the file alone, and `truncate` sets the length. `tikfs_write` sets the length of its node
to the end of the write whenever the two differ, so that a write inside a file cuts it off; it does
not clear the memory of a gap, and it takes a `read` that fails with an error for one that
succeeds, because the comparison with the length is unsigned. `tikfs_truncate` does nothing.

## Main definitions

* `PosixWritten`, `Truncated`: the bytes after a `write` and after a `truncate`.
* `WriteFollows`, `TruncateFollows`: the calls of the mounted file system leave these bytes.
* `WriteExact`: the writes that do.

## Main results

* `updates_iff`: when a write or a truncation does what POSIX says.
* `not_forall_updates`: not every one does.
-/

namespace TikFachpraktika.Tikfs

open Posix Tikdb Transition

/-- The bytes `new` are those of `old` with `buff` stored at `offset`, and zeros in a gap. -/
structure PosixWritten (old buff : List Byte) (offset : ℕ) (new : List Byte) : Prop where
  length_eq : new.length = max old.length (offset + buff.length)
  buff_eq : ∀ j < buff.length, new[offset + j]? = buff[j]?
  gap_eq : ∀ j, old.length ≤ j → j < offset → new[j]? = some 0
  old_eq : ∀ j < old.length, j < offset ∨ offset + buff.length ≤ j → new[j]? = old[j]?

/-- The bytes `new` are those of `old` with the length `size`. -/
structure Truncated (old : List Byte) (size : ℤ) (new : List Byte) : Prop where
  length_eq : (new.length : ℤ) = size
  old_eq : ∀ j < min old.length new.length, new[j]? = old[j]?

/-- After a `tikfs_write` the node `i`, whose bytes were `old`, is as after a POSIX `write`. -/
def WriteFollows (st : TikfsState) (path : List Byte) (i : ℕ) (old buff : List Byte) (offset : ℕ)
    (env : WriteEnv) : Prop :=
  ∃ new, (tikfsWrite st path buff offset env).2.contentOf i = some new ∧
    PosixWritten old buff offset new

/-- After a `tikfs_truncate` the node `i`, whose bytes were `old`, is as after a POSIX
`truncate`. -/
def TruncateFollows (st : TikfsState) (path : List Byte) (i : ℕ) (old : List Byte) (size : ℤ) :
    Prop :=
  ∃ new, (tikfsTruncate st path size).2.contentOf i = some new ∧ Truncated old size new

/-- The write does not end inside the file, the memory of a gap is zero, and the memory of a copy
whose `read` failed has the old bytes before the write. -/
def WriteExact (n : Fnode) (old buff : List Byte) (offset : ℕ) (env : WriteEnv) : Prop :=
  old.length ≤ offset + buff.length ∧
    (∀ j, old.length ≤ j → j < offset → env.realloced j = 0) ∧
    (n.dirty = .clean → env.answer = .error →
      ∀ j < min offset old.length, old[j]? = some (env.malloced j))

/-! ### Bytes by position -/

theorem getElem?_resize {bs : List Byte} {n j : ℕ} (hj : j < n) (fresh : ℕ → Byte) :
    (resize bs n fresh)[j]? = if j < bs.length then bs[j]? else some (fresh j) := by
  rw [resize]
  split_ifs with hlt
  · rw [List.getElem?_append_left (by rw [List.length_take]; omega), List.getElem?_take_of_lt hj]
  · have hle : (bs.take n).length = bs.length := by
      rw [List.length_take]
      omega
    rw [List.getElem?_append_right (by omega), hle, List.getElem?_map,
      List.getElem?_range (by omega), Option.map_some]
    congr 2
    omega

/-- The bytes that a write leaves are those of a POSIX `write` when it does not end inside the file
and the block before it has the right bytes. -/
theorem posixWritten_resize_iff {old cow : List Byte} (hlen : cow.length = old.length)
    (buff : List Byte) (offset : ℕ) (fresh : ℕ → Byte) :
    PosixWritten old buff offset (resize cow offset fresh ++ buff) ↔
      old.length ≤ offset + buff.length ∧
        (∀ j, old.length ≤ j → j < offset → fresh j = 0) ∧
        ∀ j < min offset old.length, cow[j]? = old[j]? := by
  have hlength : (resize cow offset fresh ++ buff).length = offset + buff.length := by
    rw [List.length_append, length_resize]
  have hbefore : ∀ j < offset, (resize cow offset fresh ++ buff)[j]? =
      if j < old.length then cow[j]? else some (fresh j) := fun j hj => by
    rw [List.getElem?_append_left (by rw [length_resize]; exact hj), getElem?_resize hj, hlen]
  constructor
  · rintro ⟨hmax, -, hgap, hold⟩
    refine ⟨by omega, fun j hle hlt => ?_, fun j hj => ?_⟩
    · have hzero := hgap j hle hlt
      rw [hbefore j hlt, if_neg (by omega)] at hzero
      exact Option.some.inj hzero
    · have hsame := hold j (by omega) (.inl (by omega))
      rwa [hbefore j (by omega), if_pos (by omega)] at hsame
  · rintro ⟨hend, hgap, hold⟩
    refine ⟨by omega, fun j hj => ?_, fun j hle hlt => ?_, fun j hj hout => ?_⟩
    · rw [List.getElem?_append_right (by rw [length_resize]; omega), length_resize,
        Nat.add_sub_cancel_left]
    · rw [hbefore j hlt, if_neg (by omega), hgap j hle hlt]
    · have hlt : j < offset := by omega
      rw [hbefore j hlt, if_pos hj]
      exact hold j (by omega)

theorem truncated_self_iff (old : List Byte) (size : ℤ) :
    Truncated old size old ↔ size = old.length := by
  constructor
  · exact fun h => h.length_eq.symm
  · exact fun h => ⟨h.symm, fun _ _ => rfl⟩

/-! ### Writes -/

namespace Mounted

variable {st : TikfsState} {i : ℕ} {n : Fnode}

/-- The block of a write has the bytes of its node, unless its `read` failed with an error. -/
theorem eq_of_writeBlock (h : Mounted st) (hn : n ∈ st.table) {env : WriteEnv}
    (henv : n.dirty = .clean → env.answer ≠ .error) {cow : List Byte}
    (hblock : writeBlock st.fd n env = some cow) : cow = content st.fd.data n := by
  rw [writeBlock] at hblock
  cases hdirty : n.dirty with
  | clean =>
    obtain ⟨k, hk, hret, hbs⟩ := (st.fd.lseekSet n.data).exists_read_eq n.metaHdr.len.toNat
      (henv hdirty)
    have hlen := h.onDisc_length hn
    have hall : k = n.metaHdr.len.toNat → (st.fd.lseekSet n.data).available k =
        onDisc st.fd.data n := fun heq => by rw [heq]; rfl
    have hcount : ((st.fd.lseekSet n.data).available k).length ≤ k := by
      rw [OpenFile.length_available]
      exact Nat.min_le_left _ _
    have hsize := cSizeT_natCast (hcount.trans_lt (hk.trans_lt
      (n.metaHdr.len.toNat_lt.trans (by decide : 2 ^ 32 < 2 ^ 64))))
    simp only [hdirty, copyNode, hret, hbs, hsize] at hblock
    split_ifs at hblock with hshort
    have hfull := hall (by omega)
    rw [hfull, resize_of_length hlen] at hblock
    rw [content_of_clean hdirty]
    exact (Option.some.inj hblock).symm
  | dirty =>
    rw [hdirty, ((h.hasContent hn).dirty hdirty).1] at hblock
    exact (Option.some.inj hblock).symm

/-- After a `read` that failed with an error the block of a write is memory that is not
initialised. -/
theorem writeBlock_of_error (hclean : n.dirty = .clean) {env : WriteEnv}
    (henv : env.answer = .error) :
    writeBlock st.fd n env = some ((List.range n.metaHdr.len.toNat).map env.malloced) := by
  have hret : ¬cSizeT (-1) < n.metaHdr.len.toNat :=
    Nat.not_lt.mpr (n.metaHdr.len.toNat_lt.le.trans (by decide))
  simp only [writeBlock, hclean, copyNode, henv, OpenFile.read, hret, ↓reduceIte, resize,
    List.take_nil, List.nil_append, List.length_nil, Nat.sub_zero, Nat.zero_add]

/-- The block of a write agrees with the bytes of its node up to some position. -/
theorem writeBlock_agrees_iff (h : Mounted st) (hn : n ∈ st.table) {env : WriteEnv}
    {cow : List Byte} (hblock : writeBlock st.fd n env = some cow) {m : ℕ}
    (hm : m ≤ (content st.fd.data n).length) :
    (∀ j < m, cow[j]? = (content st.fd.data n)[j]?) ↔
      (n.dirty = .clean → env.answer = .error →
        ∀ j < m, (content st.fd.data n)[j]? = some (env.malloced j)) := by
  by_cases herror : n.dirty = .clean ∧ env.answer = .error
  · obtain ⟨hclean, henv⟩ := herror
    obtain rfl := Option.some.inj ((writeBlock_of_error hclean henv).symm.trans hblock)
    have hmalloced : ∀ j < m, ((List.range n.metaHdr.len.toNat).map env.malloced)[j]? =
        some (env.malloced j) := fun j hj => by
      have hlen := ((h.hasContent hn).clean hclean).2
      rw [List.getElem?_map, List.getElem?_range (by omega), Option.map_some]
    constructor
    · exact fun hsame _ _ j hj => (hsame j hj).symm.trans (hmalloced j hj)
    · exact fun hsame j hj => (hmalloced j hj).trans (hsame hclean henv j hj).symm
  · have hcow := h.eq_of_writeBlock hn (fun hclean henv => herror ⟨hclean, henv⟩) hblock
    constructor
    · exact fun _ hclean henv => absurd ⟨hclean, henv⟩ herror
    · exact fun _ j _ => by rw [hcow]

/-- **When a write does what POSIX says.** -/
theorem writeFollows_iff (h : Mounted st) {path buff : List Byte} {offset : ℕ} {env : WriteEnv}
    (hfile : fileType st.table path = .file i) (hn : st.table[i]? = some n)
    (hlt : offset + buff.length < 2 ^ 63)
    (hret : 0 ≤ (tikfsWrite st path buff offset env).1) :
    WriteFollows st path i (content st.fd.data n) buff offset env ↔
      WriteExact n (content st.fd.data n) buff offset env := by
  have hmem := List.mem_of_getElem? hn
  cases hblock : writeBlock st.fd n env with
  | none =>
    rw [tikfsWrite_of_file hfile hn, (writeNode_of_none hblock buff offset).1] at hret
    exact absurd hret (by decide)
  | some cow =>
    have hcontent := (replaces_write hfile hn buff offset env).contentOf i
    rw [if_pos rfl, (writeNode_of_some hblock buff offset).2, content_storeCow hlt] at hcontent
    have hlen : cow.length = (content st.fd.data n).length :=
      (length_writeBlock (h.cow n hmem) hblock).trans (h.content_length hmem).1.symm
    have hfollows : WriteFollows st path i (content st.fd.data n) buff offset env ↔
        PosixWritten (content st.fd.data n) buff offset
          (resize cow offset env.realloced ++ buff) := by
      constructor
      · rintro ⟨new, hnew, hposix⟩
        obtain rfl := Option.some.inj (hcontent.symm.trans hnew)
        exact hposix
      · exact fun hposix => ⟨_, hcontent, hposix⟩
    rw [hfollows, posixWritten_resize_iff hlen,
      h.writeBlock_agrees_iff hmem hblock (Nat.min_le_right _ _), WriteExact]

end Mounted

/-! ### Truncations -/

/-- **When a truncation does what POSIX says.** -/
theorem truncateFollows_iff {st : TikfsState} {i : ℕ} {old : List Byte}
    (hold : st.contentOf i = some old) (path : List Byte) (size : ℤ) :
    TruncateFollows st path i old size ↔ size = old.length := by
  rw [TruncateFollows, tikfsTruncate_snd, hold, ← truncated_self_iff]
  constructor
  · rintro ⟨new, hnew, htruncated⟩
    obtain rfl := Option.some.inj hnew
    exact htruncated
  · exact fun htruncated => ⟨old, rfl, htruncated⟩

/-! ### Reachable states -/

/-- **When updates do what POSIX says.** In every state that calls and flushes reach from a mounted
file, a successful write leaves what POSIX says if and only if it is `WriteExact`, and a truncation
that returns zero if and only if the length is the old one. -/
theorem updates_iff {rs : List Record} {st₀ st : TikfsState}
    (hinit : tikfsInit (encodeDb rs) = .ok st₀)
    (hrun : Run FileStep (fun _ c => c.Valid) st₀ st) {path : List Byte} {i : ℕ}
    (hfile : fileType st.table path = .file i) :
    ∃ n old, st.table[i]? = some n ∧ st.contentOf i = some old ∧
      (∀ buff offset env, buff ≠ [] → offset + buff.length < 2 ^ 63 →
        0 ≤ (tikfsWrite st path buff offset env).1 →
        (WriteFollows st path i old buff offset env ↔ WriteExact n old buff offset env)) ∧
      ∀ size, (tikfsTruncate st path size).1 = 0 →
        (TruncateFollows st path i old size ↔ size = old.length) := by
  have hmounted := mounted_of_run hinit hrun
  obtain ⟨n, hn⟩ := exists_of_file hfile
  have hold : st.contentOf i = some (content st.fd.data n) := by
    rw [TikfsState.contentOf, hn, Option.map_some]
  exact ⟨n, _, hn, hold, fun buff offset env _ hlt hret =>
    hmounted.writeFollows_iff hfile hn hlt hret,
    fun size _ => truncateFollows_iff hold path size⟩

/-- A write of `"c"` behind the bytes `"ab"`. -/
theorem updates_iff_append :
    WriteFollows mountF [47, 102] 0 [97, 98] [99] 2 ⟨.full, fun _ => 0, fun _ => 0, 0⟩ := by
  obtain ⟨n, old, hn, hold, hwrite, -⟩ := updates_iff tikfsInit_mountF .refl fileType_mountF
  obtain rfl := Option.some.inj (contentOf_mountF.symm.trans hold)
  refine (hwrite [99] 2 _ (by decide) (by decide) (by decide +kernel)).mpr
    ⟨by decide, fun j hle hlt => ?_, fun _ => nofun⟩
  exact absurd hlt (Nat.not_lt.mpr hle)

/-- **Not every update does what POSIX says**: after a write of `"x"` at the start of the bytes
`"ab"`, the second byte is gone. -/
theorem not_forall_updates : ¬∀ (rs : List Record) (st₀ st : TikfsState),
    tikfsInit (encodeDb rs) = .ok st₀ → Run FileStep (fun _ c => c.Valid) st₀ st →
    ∀ path i old, fileType st.table path = .file i → st.contentOf i = some old →
      (∀ buff offset env, buff ≠ [] → offset + buff.length < 2 ^ 63 →
        0 ≤ (tikfsWrite st path buff offset env).1 →
        WriteFollows st path i old buff offset env) ∧
      ∀ size, (tikfsTruncate st path size).1 = 0 → TruncateFollows st path i old size := by
  intro hall
  obtain ⟨hwrite, -⟩ := hall [recordF] mountF mountF tikfsInit_mountF .refl [47, 102] 0 [97, 98]
    fileType_mountF contentOf_mountF
  obtain ⟨new, hnew, hposix⟩ := hwrite [120] 0 ⟨.full, fun _ => 0, fun _ => 0, 0⟩ (by decide)
    (by decide) (by decide +kernel)
  have hcut : (tikfsWrite mountF [47, 102] [120] 0
      ⟨.full, fun _ => 0, fun _ => 0, 0⟩).2.contentOf 0 = some [120] := by decide +kernel
  obtain rfl := Option.some.inj (hcut.symm.trans hnew)
  exact absurd hposix.length_eq (by decide)

end TikFachpraktika.Tikfs
