import TikFachpraktika.Tikdb.Store
import TikFachpraktika.Tikfs.Mount
import TikFachpraktika.Transition.Run

/-!
# The memory block of the node table

`tikfs_build_cache` as a system that takes one iteration of its loop after the other, whatever
block the table stands in. `INIT_SLOTS` entries fit into the first block; when they are used up the
block is replaced by one of `INIT_SLOTS * 3 / 2` bytes, which holds no more than 17 of them.

## Main definitions

* `CacheState`, `cacheNext`: the state at the start of an iteration, and one iteration.
* `TableFits`: the block has room for the entry that the iteration writes.
* `StaysInBlock`: all iterations of a mount find such a block.

## Main results

* `forall_tableFits_iff`: the block is left exactly when `buildCacheLoop` says so.
* `staysInBlock_iff`: which files do not lead out of the block.
* `not_forall_staysInBlock`: a file with `INIT_SLOTS` records does.
-/

namespace TikFachpraktika.Tikfs

open Posix Tikdb Transition

/-- `tikfs_fd`, the used part of `table`, `table_len`, and the size in bytes of the memory block
that `xmalloc` or `xrealloc` last returned for `table`. -/
structure CacheState where
  fd : OpenFile
  table : List Fnode
  tableLen : ℕ
  block : ℕ

/-- The block has room for the entry with the number `table_next`. -/
def TableFits (s : CacheState) : Prop :=
  (s.table.length + 1) * sizeofFnode ≤ s.block

/-- One iteration of the loop of `tikfs_build_cache`; there is none after its `break` or a
`goto die`. -/
def cacheNext (s : CacheState) (_ : Unit) : Option CacheState :=
  let (ret, buf, fd) := s.fd.read DataHdr.size .full
  let hdr := DataHdr.decode buf
  if ret = 0 ∨ ret ≠ DataHdr.size ∨ hdr.len = 0 then none
  else
    let table := s.table ++ [cleanNode hdr fd.offset]
    let fd := fd.lseekCur hdr.len.toNat
    if table.length = s.tableLen then
      -- `xrealloc(table, table_len)`: the number of entries stands for the number of bytes
      some ⟨fd, table, s.tableLen * 3 / 2, s.tableLen * 3 / 2⟩
    else some ⟨fd, table, s.tableLen, s.block⟩

/-- The state before the first iteration: `xmalloc(sizeof(*table) * INIT_SLOTS)`. -/
def cacheStart (fd : OpenFile) : CacheState :=
  ⟨fd, [], initSlots, sizeofFnode * initSlots⟩

/-- At the start of every iteration of a mount of the file `disc` the table has room for one more
entry. -/
def StaysInBlock (disc : List Byte) : Prop :=
  ∀ fd s, checkSuperblock ⟨disc, 0, true⟩ = .ok fd →
    Run (ofFunction cacheNext) free (cacheStart fd) s → TableFits s

/-! ### Iterations and the loop -/

/-- The loop from the state `s` on. -/
def CacheState.loop (s : CacheState) : Except MountFailure (OpenFile × List Fnode) :=
  buildCacheLoop s.fd s.table s.tableLen s.block

section Loop

variable {s s' : CacheState}

theorem loop_of_not_tableFits (h : ¬TableFits s) : s.loop = .error .outOfBlock := by
  rw [CacheState.loop, buildCacheLoop, if_pos (not_le.mp h)]
  rfl

/-- The loop goes on with the state after the iteration. -/
theorem loop_of_cacheNext (h : TableFits s) (hnext : cacheNext s () = some s') :
    s.loop = s'.loop := by
  rw [cacheNext] at hnext
  dsimp only at hnext
  split_ifs at hnext with hend hfull
  all_goals
    obtain ⟨hret, hsize, hlen⟩ := not_or.mp hend |>.imp_right not_or.mp
    cases hnext
    rw [List.length_append, List.length_singleton] at hfull
    rw [CacheState.loop, buildCacheLoop, if_neg (not_lt.mpr h), if_neg hret, dif_neg hsize]
    refine (if_neg hlen).trans ?_
    simp only [hfull, ↓reduceIte]
    rfl

/-- A loop without a further iteration ends inside the block. -/
theorem loop_of_cacheNext_eq_none (h : TableFits s) (hnext : cacheNext s () = none) :
    s.loop ≠ .error .outOfBlock := by
  rw [cacheNext] at hnext
  dsimp only at hnext
  split_ifs at hnext with hend
  rw [CacheState.loop, buildCacheLoop, if_neg (not_lt.mpr h)]
  by_cases hret : (s.fd.read DataHdr.size .full).1 = 0
  · rw [if_pos hret]
    exact pure_ne_error _ _
  · rw [if_neg hret]
    by_cases hsize : (s.fd.read DataHdr.size .full).1 ≠ DataHdr.size
    · rw [dif_pos hsize]
      exact throw_ne_error (by decide)
    · rw [dif_neg hsize]
      refine ne_of_eq_of_ne (if_pos ((hend.resolve_left hret).resolve_left hsize)) ?_
      exact throw_ne_error (by decide)

/-- An iteration reads a header, so there are finitely many. -/
theorem remaining_lt_of_cacheNext (hnext : cacheNext s () = some s') :
    s'.fd.data.length - s'.fd.offset < s.fd.data.length - s.fd.offset := by
  have hread := s.fd.length_available DataHdr.size
  rw [cacheNext] at hnext
  dsimp only at hnext
  split_ifs at hnext with hend hfull
  all_goals
    obtain ⟨hret, -⟩ := not_or.mp hend
    cases hnext
    simp only [OpenFile.read, OpenFile.lseekCur] at hret ⊢
    omega

theorem loop_ne_of_forall_tableFits {s : CacheState}
    (hall : ∀ s', Run (ofFunction cacheNext) free s s' → TableFits s') :
    s.loop ≠ .error .outOfBlock := by
  have hfits : TableFits s := hall s .refl
  cases hnext : cacheNext s () with
  | none => exact loop_of_cacheNext_eq_none hfits hnext
  | some s' =>
    have hfirst : Run (ofFunction cacheNext) free s s' := .step .refl trivial hnext
    rw [loop_of_cacheNext hfits hnext]
    exact loop_ne_of_forall_tableFits fun s'' hrun => hall s'' (hfirst.trans hrun)
termination_by s.fd.data.length - s.fd.offset
decreasing_by exact remaining_lt_of_cacheNext hnext

/-- Every iteration finds room for its entry if and only if the loop never leaves the block. -/
theorem forall_tableFits_iff :
    (∀ s', Run (ofFunction cacheNext) free s s' → TableFits s') ↔
      s.loop ≠ .error .outOfBlock := by
  refine ⟨loop_ne_of_forall_tableFits, fun hloop s' hrun => ?_⟩
  have hinv : s'.loop ≠ .error .outOfBlock := by
    refine hrun.invariant (p := fun s₁ => s₁.loop ≠ .error .outOfBlock) hloop
      fun {s₁ _ s₂} hs₁ _ hstep => ?_
    have hfits : TableFits s₁ := by
      by_contra hout
      exact hs₁ (loop_of_not_tableFits hout)
    rwa [← loop_of_cacheNext hfits hstep]
  by_contra hout
  exact hinv (loop_of_not_tableFits hout)

end Loop

/-! ### Well-formed files -/

theorem loop_cacheStart (lead tail : List Record) :
    (cacheStart ⟨encodeDb (lead ++ tail), FileHdr.size, true⟩).loop =
      buildCacheLoop ⟨superblock.encode ++ (encodeRecords lead ++ encodeRecords tail),
        superblock.encode.length, true⟩ [] initSlots (sizeofFnode * initSlots) := by
  rw [encodeDb, encodeRecords_append, FileHdr.length_encode]
  rfl

/-- With fewer than `INIT_SLOTS` records before the first empty one the loop ends at this one or at
the end of the file. -/
theorem loop_cacheStart_of_lt {lead tail : List Record} (hlead : ∀ r ∈ lead, r.hdr.len ≠ 0)
    (hlt : lead.length < initSlots) (htail : ∀ r ∈ tail.head?, r.hdr.len = 0) :
    (cacheStart ⟨encodeDb (lead ++ tail), FileHdr.size, true⟩).loop ≠ .error .outOfBlock := by
  have htable : ([] ++ cleanNodes superblock.encode.length lead).length < initSlots := by
    rwa [List.nil_append, length_cleanNodes]
  rw [loop_cacheStart, buildCacheLoop_encodeRecords _ _ _ _ hlead (by simpa using hlt)]
  cases tail with
  | nil =>
    rw [encodeRecords_nil, List.append_nil, buildCacheLoop_end htable]
    exact pure_ne_error _ _
  | cons r tail =>
    rw [encodeRecords_cons, buildCacheLoop_zero (htail r rfl) htable]
    exact throw_ne_error (by decide)

/-- The loop on a well-formed file leaves the block at its record number `INIT_SLOTS`, unless it
ends before. -/
theorem loop_cacheStart_iff (rs : List Record) :
    (cacheStart ⟨encodeDb rs, FileHdr.size, true⟩).loop ≠ .error .outOfBlock ↔
      (rs.takeWhile fun r => r.hdr.len ≠ 0).length < initSlots := by
  have hlead : ∀ r ∈ rs.takeWhile fun r => r.hdr.len ≠ 0, r.hdr.len ≠ 0 := fun r hr => by
    simpa using List.mem_takeWhile_imp hr
  have htail : ∀ r ∈ (rs.dropWhile fun r => r.hdr.len ≠ 0).head?, r.hdr.len = 0 := fun r hr => by
    have hhead := List.head?_dropWhile_not (fun r : Record => decide (r.hdr.len ≠ 0)) rs
    rw [Option.mem_def.mp hr] at hhead
    simpa using hhead
  have hsplit := List.takeWhile_append_dropWhile (p := fun r : Record => decide (r.hdr.len ≠ 0))
    (l := rs)
  refine ⟨fun hloop => ?_, fun hlt => ?_⟩
  · by_contra hge
    rw [← hsplit, loop_cacheStart] at hloop
    exact hloop (buildCacheLoop_outOfBlock _ _ _ _ hlead (by decide)
      (by simpa using not_lt.mp hge))
  · rw [← hsplit]
    exact loop_cacheStart_of_lt hlead hlt htail

/-- The iterations of a mount are those of its loop. -/
theorem staysInBlock_iff_loop (rs : List Record) :
    StaysInBlock (encodeDb rs) ↔
      (cacheStart ⟨encodeDb rs, FileHdr.size, true⟩).loop ≠ .error .outOfBlock := by
  have hcheck : checkSuperblock ⟨encodeDb rs, 0, true⟩ =
      .ok ⟨encodeDb rs, FileHdr.size, true⟩ := checkSuperblock_append _
  rw [← forall_tableFits_iff]
  constructor
  · intro hstays s hrun
    exact hstays _ s hcheck hrun
  · intro hall fd s hfd hrun
    obtain rfl := Except.ok.inj (hcheck.symm.trans hfd)
    exact hall s hrun

/-- **When the node table stays in its block.** At the start of every iteration the block has room
for the entry if and only if fewer than `INIT_SLOTS` records stand before the first empty record,
or before the end of the file if none is empty. -/
theorem staysInBlock_iff (rs : List Record) :
    StaysInBlock (encodeDb rs) ↔
      (rs.takeWhile fun r => r.hdr.len ≠ 0).length < initSlots :=
  (staysInBlock_iff_loop rs).trans (loop_cacheStart_iff rs)

/-- **The node table does not always stay in its block**: `INIT_SLOTS` records with one byte each
lead out of it. -/
theorem not_forall_staysInBlock :
    ¬∀ rs : List Record, (∀ r ∈ rs, r.hdr.len ≠ 0) → StaysInBlock (encodeDb rs) := by
  intro hall
  have hlen : ∀ r ∈ List.replicate initSlots (newRecord [97] [98] 0), r.hdr.len ≠ 0 :=
    fun r hr => (List.eq_of_mem_replicate hr) ▸ by decide
  have hstays := (staysInBlock_iff_loop _).mp (hall _ hlen)
  rw [loop_cacheStart_iff, List.takeWhile_replicate, if_pos (by decide),
    List.length_replicate] at hstays
  exact lt_irrefl _ hstays

end TikFachpraktika.Tikfs
