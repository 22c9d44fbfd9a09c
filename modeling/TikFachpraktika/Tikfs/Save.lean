import TikFachpraktika.Tikfs.Contents

/-!
# Saving a whole file

A program that saves a file opens it with `O_TRUNC` and writes its new bytes one chunk after the
other. `tikfs_truncate` leaves the old bytes where they are, but the first `tikfs_write` ends the
file after its own chunk, and each later one ends it after the chunk that it appends. So the old
bytes are gone, whatever their number was.

## Main definitions

* `writeChunks`, `saveFile`: the calls of a save.
* `DirtyAt`: the path of a dirty node with given bytes.

## Main results

* `saveFile_content`: what a save leaves and returns.
* `not_forall_saveFile_ret`: a chunk of `2^31` bytes has no size as an `int`.
-/

namespace TikFachpraktika.Tikfs

open Posix Tikdb Transition

/-- `tikfs_write` of chunks one after the other, the first of them at `offset`: the returned values
and the state afterwards. -/
def writeChunks (path : List Byte) :
    TikfsState → ℕ → List (List Byte × WriteEnv) → List ℤ × TikfsState
  | st, _, [] => ([], st)
  | st, offset, (buff, env) :: chunks =>
    let (ret, st) := tikfsWrite st path buff offset env
    let (rets, st) := writeChunks path st (offset + buff.length) chunks
    (ret :: rets, st)

/-- `tikfs_truncate` to length zero and then `tikfs_write` of all chunks. -/
def saveFile (st : TikfsState) (path : List Byte) (chunks : List (List Byte × WriteEnv)) :
    List ℤ × TikfsState :=
  let (ret, st) := tikfsTruncate st path 0
  let (rets, st) := writeChunks path st 0 chunks
  (ret :: rets, st)

/-- The bytes of chunks. -/
def joined (chunks : List (List Byte × WriteEnv)) : List Byte :=
  chunks.flatMap Prod.fst

/-- The path is that of the dirty node `i`, whose bytes are `bs`. -/
structure DirtyAt (st : TikfsState) (path : List Byte) (i : ℕ) (bs : List Byte) : Prop where
  file : fileType st.table path = .file i
  node : ∃ n, st.table[i]? = some n ∧ n.dirty = .dirty ∧ n.cowbuff = some bs ∧
    n.cowlen = bs.length

/-! ### One write -/

section Write

variable {st : TikfsState} {path buff : List Byte} {i : ℕ} {n : Fnode} {env : WriteEnv}

/-- A write with a block leaves the start of the block and the chunk. -/
theorem dirtyAt_of_writeBlock (hfile : fileType st.table path = .file i)
    (hn : st.table[i]? = some n) {cow : List Byte} (hblock : writeBlock st.fd n env = some cow)
    (offset : ℕ) (hlt : offset + buff.length < 2 ^ 63) :
    (tikfsWrite st path buff offset env).1 = cInt buff.length ∧
      DirtyAt (tikfsWrite st path buff offset env).2 path i
        (resize cow offset env.realloced ++ buff) := by
  obtain ⟨hret, hnode⟩ := writeNode_of_some hblock buff offset
  obtain ⟨hi, -⟩ := List.getElem?_eq_some_iff.mp hn
  have hkey : (storeCow n cow buff offset env).metaHdr.key = n.metaHdr.key := rfl
  rw [tikfsWrite_of_file hfile hn, hnode]
  refine ⟨hret, (fileType_set hn hkey path).trans hfile,
    storeCow n cow buff offset env, List.getElem?_set_self hi, rfl,
    cowbuff_storeCow n cow (by omega) env, ?_⟩
  rw [cowlen_storeCow n cow (by omega), List.length_append, length_resize]

/-- The first chunk displaces all old bytes. -/
theorem Mounted.dirtyAt_write (h : Mounted st) (hfile : fileType st.table path = .file i)
    (henv : env.answer = .full) (hlt : buff.length < 2 ^ 63) :
    (tikfsWrite st path buff 0 env).1 = cInt buff.length ∧
      DirtyAt (tikfsWrite st path buff 0 env).2 path i buff := by
  obtain ⟨n, hn⟩ := exists_of_file hfile
  have hblock := h.writeBlock_of_full (List.mem_of_getElem? hn) henv
  have hwrite := dirtyAt_of_writeBlock hfile hn hblock 0 ((Nat.zero_add _).trans_lt hlt)
  rwa [resize_of_le (Nat.zero_le _), List.take_zero, List.nil_append] at hwrite

/-- A chunk at the end is appended. -/
theorem DirtyAt.write {bs : List Byte} (h : DirtyAt st path i bs) (env : WriteEnv)
    (hlt : bs.length + buff.length < 2 ^ 63) :
    (tikfsWrite st path buff bs.length env).1 = cInt buff.length ∧
      DirtyAt (tikfsWrite st path buff bs.length env).2 path i (bs ++ buff) := by
  obtain ⟨n, hn, hdirty, hbs, -⟩ := h.node
  have hblock : writeBlock st.fd n env = some bs := by
    rw [writeBlock, hdirty, hbs, Option.getD_some]
  have hwrite := dirtyAt_of_writeBlock h.file hn hblock bs.length hlt
  rwa [resize_of_length rfl] at hwrite

end Write

/-! ### All writes -/

theorem joined_cons (c : List Byte × WriteEnv) (chunks : List (List Byte × WriteEnv)) :
    joined (c :: chunks) = c.1 ++ joined chunks :=
  List.flatMap_cons

theorem writeChunks_cons (path : List Byte) (st : TikfsState) (offset : ℕ)
    (c : List Byte × WriteEnv) (chunks : List (List Byte × WriteEnv)) :
    writeChunks path st offset (c :: chunks) =
      ((tikfsWrite st path c.1 offset c.2).1 ::
        (writeChunks path (tikfsWrite st path c.1 offset c.2).2 (offset + c.1.length) chunks).1,
        (writeChunks path (tikfsWrite st path c.1 offset c.2).2 (offset + c.1.length) chunks).2) :=
  rfl

/-- **Chunks that are written at the end** are appended one after the other. -/
theorem DirtyAt.writeChunks {path : List Byte} {i : ℕ} :
    (chunks : List (List Byte × WriteEnv)) → {st : TikfsState} → {bs : List Byte} →
    DirtyAt st path i bs → bs.length + (joined chunks).length < 2 ^ 63 →
    (writeChunks path st bs.length chunks).1 = chunks.map (fun c => cInt c.1.length) ∧
      DirtyAt (writeChunks path st bs.length chunks).2 path i (bs ++ joined chunks)
  | [], st, bs, h, _ => ⟨rfl, by rw [joined, List.flatMap_nil, List.append_nil]; exact h⟩
  | c :: chunks, st, bs, h, hlt => by
      rw [joined_cons, List.length_append] at hlt
      obtain ⟨hret, hat⟩ := h.write c.2 (show bs.length + c.1.length < 2 ^ 63 by omega)
      obtain ⟨hrets, hend⟩ := hat.writeChunks chunks (by rw [List.length_append]; omega)
      rw [List.length_append] at hrets hend
      rw [writeChunks_cons, hret, hrets, joined_cons, ← List.append_assoc]
      exact ⟨rfl, hend⟩

section Save

variable {st : TikfsState} {path : List Byte} {i : ℕ}

theorem DirtyAt.contentOf {bs : List Byte} (h : DirtyAt st path i bs) :
    (∃ n, st.table[i]? = some n ∧ n.dirty = .dirty) ∧ st.contentOf i = some bs := by
  obtain ⟨n, hn, hdirty, hbs, hlen⟩ := h.node
  refine ⟨⟨n, hn, hdirty⟩, ?_⟩
  rw [TikfsState.contentOf, hn, Option.map_some, content_of_dirty hdirty hbs hlen.symm]

theorem DirtyAt.getattr {bs : List Byte} (h : DirtyAt st path i bs) (hlt : bs.length < 2 ^ 63)
    (env : StatEnv) (stbuf : Stat) : (tikfsGetattr st path env stbuf).1 = 0 ∧
      (tikfsGetattr st path env stbuf).2.size = bs.length := by
  obtain ⟨n, hn, hdirty, -, hlen⟩ := h.node
  obtain ⟨hret, hsize⟩ := tikfsGetattr_of_file h.file hn env stbuf
  rw [hsize, visibleLen, hdirty]
  dsimp only
  rw [hlen]
  exact ⟨hret, cOffT_natCast hlt⟩

/-- **A save** of a node of a mounted file system, clean or dirty, leaves the chunks in its
buffer. -/
theorem Mounted.saveFile (h : Mounted st) (hfile : fileType st.table path = .file i)
    {chunks : List (List Byte × WriteEnv)} (hne : joined chunks ≠ [])
    (hfull : ∀ c ∈ chunks, c.2.answer = .full) (hlt : (joined chunks).length < 2 ^ 63) :
    (saveFile st path chunks).1 = 0 :: chunks.map (fun c => cInt c.1.length) ∧
      DirtyAt (saveFile st path chunks).2 path i (joined chunks) := by
  have htruncate : tikfsTruncate st path 0 = (0, st) := by
    rw [tikfsTruncate, hfile]
    rfl
  obtain _ | ⟨c, chunks⟩ := chunks
  · exact absurd rfl hne
  · rw [joined_cons, List.length_append] at hlt
    obtain ⟨hret, hat⟩ := h.dirtyAt_write hfile (hfull c List.mem_cons_self)
      (show c.1.length < 2 ^ 63 by omega)
    obtain ⟨hrets, hend⟩ := hat.writeChunks chunks (by omega)
    rw [Tikfs.saveFile, htruncate]
    dsimp only
    rw [writeChunks_cons, Nat.zero_add, hret, hrets, joined_cons]
    exact ⟨rfl, hend⟩

end Save

/-- **Whole-file save.** In every state that calls and flushes reach from a mounted file, a save
of the bytes `b` in non-empty chunks leaves the node dirty with content `b`, and `tikfs_getattr`
reports the length of `b`. Every call returns its size as an `int`, and that is the size itself for
a chunk below `2^31` bytes. -/
theorem saveFile_content {rs : List Record} {st₀ st : TikfsState}
    (hinit : tikfsInit (encodeDb rs) = .ok st₀)
    (hrun : Run FileStep (fun _ c => c.Valid) st₀ st) {path : List Byte} {i : ℕ}
    (hfile : fileType st.table path = .file i) {b : List Byte} (hb : b ≠ [])
    (hlt : b.length < 2 ^ 63) {chunks : List (List Byte × WriteEnv)} (hdiv : joined chunks = b)
    (hfull : ∀ c ∈ chunks, c.1 ≠ [] ∧ c.2.answer = .full) :
    (∃ n, (saveFile st path chunks).2.table[i]? = some n ∧ n.dirty = .dirty) ∧
      (saveFile st path chunks).2.contentOf i = some b ∧
      (∀ env stbuf, (tikfsGetattr (saveFile st path chunks).2 path env stbuf).1 = 0 ∧
        (tikfsGetattr (saveFile st path chunks).2 path env stbuf).2.size = b.length) ∧
      (saveFile st path chunks).1 = 0 :: chunks.map (fun c => cInt c.1.length) ∧
      ∀ c ∈ chunks, c.1.length < 2 ^ 31 → cInt c.1.length = c.1.length := by
  subst hdiv
  obtain ⟨hrets, hat⟩ := (mounted_of_run hinit hrun).saveFile hfile hb
    (fun c hc => (hfull c hc).2) hlt
  obtain ⟨hdirty, hcontent⟩ := hat.contentOf
  exact ⟨hdirty, hcontent, fun env stbuf => hat.getattr hlt env stbuf, hrets,
    fun c _ hsmall => cInt_natCast hsmall⟩

/-- A chunk whose `read`, if any, is answered in full. -/
def fullChunk (buff : List Byte) : List Byte × WriteEnv :=
  (buff, ⟨.full, fun _ => 0, fun _ => 0, 0⟩)

/-- A save of `"xyz"` over `"ab"` in two chunks. -/
theorem saveFile_content_mountF :
    (saveFile mountF [47, 102] [fullChunk [120], fullChunk [121, 122]]).2.contentOf 0 =
      some [120, 121, 122] :=
  (saveFile_content tikfsInit_mountF .refl fileType_mountF (by decide) (by decide) rfl
    (List.forall_mem_cons.mpr ⟨⟨by decide, rfl⟩,
      List.forall_mem_singleton.mpr ⟨by decide, rfl⟩⟩)).2.1

/-- A chunk of `2^31` bytes. -/
def hugeChunk : List Byte × WriteEnv :=
  fullChunk (List.replicate (2 ^ 31) 0)

theorem length_hugeChunk : hugeChunk.1.length = 2 ^ 31 :=
  List.length_replicate

theorem joined_hugeChunk : joined [hugeChunk] = hugeChunk.1 :=
  List.flatMap_singleton ..

/-- **Not every call returns its size**: a chunk of `2^31` bytes returns `-2^31`. -/
theorem not_forall_saveFile_ret :
    ¬∀ (rs : List Record) (st₀ st : TikfsState), tikfsInit (encodeDb rs) = .ok st₀ →
      Run FileStep (fun _ c => c.Valid) st₀ st → ∀ path i, fileType st.table path = .file i →
      ∀ chunks : List (List Byte × WriteEnv), joined chunks ≠ [] →
        (joined chunks).length < 2 ^ 63 → (∀ c ∈ chunks, c.1 ≠ [] ∧ c.2.answer = .full) →
        (saveFile st path chunks).1 = 0 :: chunks.map (fun c => (c.1.length : ℤ)) := by
  intro hall
  have hne : hugeChunk.1 ≠ [] := List.ne_nil_of_length_pos (by rw [length_hugeChunk]; decide)
  have hjoined : joined [hugeChunk] ≠ [] := by rwa [joined_hugeChunk]
  have hlt : (joined [hugeChunk]).length < 2 ^ 63 := by
    rw [joined_hugeChunk, length_hugeChunk]
    decide
  have hsize := hall _ _ _ tikfsInit_mountF .refl _ _ fileType_mountF [hugeChunk] hjoined hlt
    (List.forall_mem_singleton.mpr ⟨hne, rfl⟩)
  have hint := ((mounted_of_tikfsInit tikfsInit_mountF).saveFile fileType_mountF hjoined
    (List.forall_mem_singleton.mpr rfl) hlt).1
  rw [hsize, List.map_singleton, List.map_singleton, length_hugeChunk] at hint
  exact absurd hint (by decide)

end TikFachpraktika.Tikfs
