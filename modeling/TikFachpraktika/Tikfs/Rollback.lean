import TikFachpraktika.Tikfs.Updates

/-!
# A first write whose read fails

The first `tikfs_write` to a clean node marks it dirty and reads its bytes into a new buffer. When
the `read` was short the write undoes this and fails, and only the file offset is another one than
before. All later calls set the offset themselves. The result of `read` is compared with the length
as an unsigned number, so an error, which is `-1`, counts as a complete read: the write stores into
a buffer that nothing has been read into.

## Main definitions

* `TikfsState.performAll`: a sequence of calls.
* `SameAnswers`: two states in which reads and attributes agree.
* `RollsBack`: a failed write leaves the file as it was.

## Main results

* `performAll_seek`: the calls do not depend on the file offset.
* `rollsBack_iff`: when a write whose read fails leaves the file as it was.
* `not_forall_rollsBack`: not every one does.
-/

namespace TikFachpraktika.Tikfs

open Posix Tikdb Transition

/-- The state after a sequence of calls, the first call first. -/
def TikfsState.performAll (st : TikfsState) (calls : List FileCall) : TikfsState :=
  calls.foldl TikfsState.perform st

/-- The same answers of `tikfs_read` and `tikfs_getattr` in two states. -/
structure SameAnswers (st st' : TikfsState) : Prop where
  read_eq : ∀ path size offset now,
    (tikfsRead st' path size offset now).1 = (tikfsRead st path size offset now).1 ∧
      (tikfsRead st' path size offset now).2.1 = (tikfsRead st path size offset now).2.1
  getattr_eq : ∀ path env stbuf, tikfsGetattr st' path env stbuf = tikfsGetattr st path env stbuf

/-- The result of the `read` with which a first write copies its node. -/
def copyResult (fd : OpenFile) (n : Fnode) (env : WriteEnv) : ℤ :=
  ((fd.lseekSet n.data).read n.metaHdr.len.toNat env.answer).1

/-- The write fails with `EIO`, the node `i`, which was `n`, is clean with the same header and place
and without a buffer length, and after any further calls reads and attributes are as without the
write. -/
structure RollsBack (st : TikfsState) (path : List Byte) (i : ℕ) (n : Fnode) (buff : List Byte)
    (offset : ℕ) (env : WriteEnv) : Prop where
  ret_eq : (tikfsWrite st path buff offset env).1 = -eio
  node : ∃ n', (tikfsWrite st path buff offset env).2.table[i]? = some n' ∧ n'.dirty = .clean ∧
    n'.cowlen = 0 ∧ n'.metaHdr = n.metaHdr ∧ n'.data = n.data
  later : ∀ calls : List FileCall, SameAnswers (st.performAll calls)
    ((tikfsWrite st path buff offset env).2.performAll calls)

/-! ### Calls and the file offset -/

/-- The state with another file offset. -/
def TikfsState.seek (st : TikfsState) (k : ℕ) : TikfsState :=
  ⟨st.fd.lseekSet k, st.table⟩

section Seek

variable (fd : OpenFile) (st : TikfsState) (k : ℕ)

theorem readNode_lseekSet (n : Fnode) (size offset : ℕ) (now : Int64) :
    (readNode (fd.lseekSet k) n size offset now).1 = (readNode fd n size offset now).1 ∧
      (readNode (fd.lseekSet k) n size offset now).2.1 = (readNode fd n size offset now).2.1 ∧
      (readNode (fd.lseekSet k) n size offset now).2.2.2 =
        (readNode fd n size offset now).2.2.2 ∧
      ∃ k', (readNode (fd.lseekSet k) n size offset now).2.2.1 =
        (readNode fd n size offset now).2.2.1.lseekSet k' := by
  rw [readNode, readNode]
  split_ifs
  · exact ⟨rfl, rfl, rfl, k, rfl⟩
  · dsimp only
    cases n.dirty with
    | clean => exact ⟨rfl, rfl, rfl, _, rfl⟩
    | dirty => exact ⟨rfl, rfl, rfl, k, rfl⟩

theorem writeNode_lseekSet (n : Fnode) (buff : List Byte) (offset : ℕ) (env : WriteEnv) :
    (writeNode (fd.lseekSet k) n buff offset env).2.2 = (writeNode fd n buff offset env).2.2 ∧
      ∃ k', (writeNode (fd.lseekSet k) n buff offset env).2.1 =
        (writeNode fd n buff offset env).2.1.lseekSet k' := by
  have hcopy : copyNode (fd.lseekSet k) n env = copyNode fd n env := rfl
  rw [writeNode, writeNode, hcopy]
  cases n.dirty with
  | clean => exact ⟨rfl, _, rfl⟩
  | dirty => exact ⟨rfl, k, rfl⟩

/-- The loop of a flush sets the offset before each of its writes. -/
theorem flushLoop_lseekSet (env : FlushEnv) : (ns : List Fnode) →
    (flushLoop env ns (fd.lseekSet k)).2 = (flushLoop env ns fd).2 ∧
      ∃ k', (flushLoop env ns (fd.lseekSet k)).1 = (flushLoop env ns fd).1.lseekSet k'
  | [] => ⟨rfl, k, rfl⟩
  | n :: ns => by
      rw [flushLoop, flushLoop]
      cases n.dirty with
      | clean =>
        obtain ⟨htable, hfd⟩ := flushLoop_lseekSet env ns
        exact ⟨congrArg (n :: ·) htable, hfd⟩
      | dirty => exact ⟨rfl, _, rfl⟩

/-- **A call does not depend on the file offset.** -/
theorem perform_seek (c : FileCall) : ∃ k', (st.seek k).perform c = (st.perform c).seek k' := by
  cases c with
  | read path size offset now =>
    rw [TikfsState.perform, TikfsState.perform]
    obtain ⟨i, n, hfile, hn⟩ | hnone := file_cases st path
    · obtain ⟨-, -, hnode, k', hfd⟩ := readNode_lseekSet st.fd k n size offset now
      refine ⟨k', ?_⟩
      rw [tikfsRead_of_file hfile hn, @tikfsRead_of_file (st.seek k) path i n hfile hn]
      dsimp only [TikfsState.seek]
      rw [hnode, hfd]
    · rw [tikfsRead_of_not_file hnone, @tikfsRead_of_not_file (st.seek k) path hnone]
      exact ⟨k, rfl⟩
  | getattr => exact ⟨k, rfl⟩
  | truncate path size =>
    rw [TikfsState.perform, TikfsState.perform, tikfsTruncate_snd, tikfsTruncate_snd]
    exact ⟨k, rfl⟩
  | write path buff offset env =>
    rw [TikfsState.perform, TikfsState.perform]
    obtain ⟨i, n, hfile, hn⟩ | hnone := file_cases st path
    · obtain ⟨hnode, k', hfd⟩ := writeNode_lseekSet st.fd k n buff offset env
      refine ⟨k', ?_⟩
      rw [tikfsWrite_of_file hfile hn, @tikfsWrite_of_file (st.seek k) path i n hfile hn]
      dsimp only [TikfsState.seek]
      rw [hnode, hfd]
    · rw [tikfsWrite_of_not_file hnone, @tikfsWrite_of_not_file (st.seek k) path hnone]
      exact ⟨k, rfl⟩
  | flush env =>
    obtain ⟨htable, k', hfd⟩ := flushLoop_lseekSet st.fd k env st.table
    exact ⟨k', congrArg₂ TikfsState.mk hfd htable⟩

/-- Calls do not depend on the file offset. -/
theorem performAll_seek (calls : List FileCall) :
    ∃ k', (st.seek k).performAll calls = (st.performAll calls).seek k' := by
  induction calls generalizing st k with
  | nil => exact ⟨k, rfl⟩
  | cons c calls ih =>
    obtain ⟨k', hcall⟩ := perform_seek st k c
    obtain ⟨k'', hcalls⟩ := ih (st.perform c) k'
    refine ⟨k'', Eq.trans ?_ hcalls⟩
    rw [← hcall]
    rfl

/-- Reads and attributes do not depend on the file offset. -/
theorem sameAnswers_seek : SameAnswers st (st.seek k) := by
  refine ⟨fun path size offset now => ?_, fun path env stbuf => rfl⟩
  obtain ⟨i, n, hfile, hn⟩ | hnone := file_cases st path
  · obtain ⟨hret, hbuff, -⟩ := readNode_lseekSet st.fd k n size offset now
    rw [tikfsRead_of_file hfile hn, @tikfsRead_of_file (st.seek k) path i n hfile hn]
    exact ⟨hret, hbuff⟩
  · rw [tikfsRead_of_not_file hnone, @tikfsRead_of_not_file (st.seek k) path hnone]
    exact ⟨rfl, rfl⟩

end Seek

/-! ### Clean nodes have no buffer -/

/-- A clean node has no buffer and no buffer length. -/
def Freed (n : Fnode) : Prop :=
  n.dirty = .clean → n.cowbuff = none ∧ n.cowlen = 0

theorem freed_writeNode {n : Fnode} (fd : OpenFile) (buff : List Byte) (offset : ℕ)
    (env : WriteEnv) : Freed (writeNode fd n buff offset env).2.2 := by
  intro hclean
  cases hblock : writeBlock fd n env with
  | none =>
    rw [(writeNode_of_none hblock buff offset).2]
    exact ⟨rfl, rfl⟩
  | some cow =>
    rw [(writeNode_of_some hblock buff offset).2] at hclean
    cases hclean

theorem freed_readNode {n : Fnode} (hn : Freed n) (fd : OpenFile) (size offset : ℕ)
    (now : Int64) : Freed (readNode fd n size offset now).2.2.2 := by
  rw [readNode_node]
  split_ifs
  · exact hn
  · exact hn

theorem freed_rewriteLoop (malloced : ℕ → Byte) (offshift : ℕ) : (ns : List Fnode) →
    (fd fd2 : OpenFile) → (∀ n ∈ ns, Freed n) →
    ∀ n ∈ (rewriteLoop malloced offshift ns fd fd2).2, Freed n
  | [], _, _, _ => List.forall_mem_nil _
  | n :: ns, fd, fd2, hns => by
      have htail : ∀ m ∈ ns, Freed m := fun m hm => hns m (List.mem_cons_of_mem _ hm)
      rw [rewriteLoop]
      cases hdirty : n.dirty with
      | dirty =>
        exact List.forall_mem_cons.mpr
          ⟨fun _ => ⟨rfl, rfl⟩, freed_rewriteLoop malloced offshift ns _ _ htail⟩
      | clean =>
        exact List.forall_mem_cons.mpr
          ⟨hns n List.mem_cons_self, freed_rewriteLoop malloced offshift ns _ _ htail⟩

theorem freed_flushLoop (env : FlushEnv) : (ns : List Fnode) → (fd : OpenFile) →
    (∀ n ∈ ns, Freed n) → ∀ n ∈ (flushLoop env ns fd).2, Freed n
  | [], _, _ => List.forall_mem_nil _
  | n :: ns, fd, hns => by
      have htail : ∀ m ∈ ns, Freed m := fun m hm => hns m (List.mem_cons_of_mem _ hm)
      rw [flushLoop]
      cases hdirty : n.dirty with
      | clean =>
        exact List.forall_mem_cons.mpr
          ⟨hns n List.mem_cons_self, freed_flushLoop env ns fd htail⟩
      | dirty =>
        dsimp only
        split_ifs
        · exact List.forall_mem_cons.mpr ⟨fun _ => ⟨rfl, rfl⟩, freed_flushLoop env ns _ htail⟩
        · obtain ⟨fd', fd2, hrewrite, -⟩ := rewriteFrom_eq env fd n ns
          rw [hrewrite]
          exact freed_rewriteLoop env.malloced n.data (n :: ns) fd' fd2 hns

/-- A node of the table is replaced by a freed one. -/
theorem freed_set {ns : List Fnode} (hns : ∀ n ∈ ns, Freed n) (i : ℕ) {n' : Fnode}
    (hn' : Freed n') : ∀ n ∈ ns.set i n', Freed n := by
  intro n hn
  rcases List.mem_or_eq_of_mem_set hn with hmem | rfl
  · exact hns n hmem
  · exact hn'

/-- A call keeps clean nodes without a buffer. -/
theorem freed_perform {st : TikfsState} (h : ∀ n ∈ st.table, Freed n) (c : FileCall) :
    ∀ n ∈ (st.perform c).table, Freed n := by
  cases c with
  | read path size offset now =>
    rw [TikfsState.perform]
    obtain ⟨i, n, hfile, hn⟩ | hnone := file_cases st path
    · rw [tikfsRead_of_file hfile hn]
      exact freed_set h i (freed_readNode (h n (List.mem_of_getElem? hn)) st.fd size offset now)
    · rw [tikfsRead_of_not_file hnone]
      exact h
  | getattr => exact h
  | truncate path size =>
    rw [TikfsState.perform, tikfsTruncate_snd]
    exact h
  | write path buff offset env =>
    rw [TikfsState.perform]
    obtain ⟨i, n, hfile, hn⟩ | hnone := file_cases st path
    · rw [tikfsWrite_of_file hfile hn]
      exact freed_set h i (freed_writeNode st.fd buff offset env)
    · rw [tikfsWrite_of_not_file hnone]
      exact h
  | flush env => exact freed_flushLoop env st.table st.fd h

theorem freed_cleanNodes : (off : ℕ) → (rs : List Record) → ∀ n ∈ cleanNodes off rs, Freed n
  | _, [] => List.forall_mem_nil _
  | off, r :: rs => List.forall_mem_cons.mpr
      ⟨fun _ => ⟨rfl, rfl⟩, freed_cleanNodes (off + r.encode.length) rs⟩

/-- **Clean nodes have no buffer** in every state that calls and flushes reach. -/
theorem freed_of_run {rs : List Record} {st₀ st : TikfsState}
    (hinit : tikfsInit (encodeDb rs) = .ok st₀)
    (hrun : Run FileStep (fun _ c => c.Valid) st₀ st) : ∀ n ∈ st.table, Freed n := by
  refine hrun.invariant (p := fun s => ∀ n ∈ s.table, Freed n) ?_ fun {s c s'} hs _ hstep => ?_
  · obtain ⟨-, -, rfl⟩ := eq_of_tikfsInit hinit
    exact freed_cleanNodes _ _
  · obtain rfl := hstep
    exact freed_perform hs c

/-! ### Failed writes -/

section Failed

variable {st : TikfsState} {path : List Byte} {i : ℕ} {n : Fnode} {env : WriteEnv}

/-- The copy of a first write fails if and only if its `read` was short. -/
theorem writeBlock_eq_none_iff (fd : OpenFile) (hclean : n.dirty = .clean) :
    writeBlock fd n env = none ↔ cSizeT (copyResult fd n env) < n.metaHdr.len.toNat := by
  simp only [writeBlock, hclean, copyNode, copyResult]
  split_ifs with hshort
  · simpa using hshort
  · simpa using hshort

/-- A write whose copy fails leaves the state at another file offset. -/
theorem tikfsWrite_of_none (hfile : fileType st.table path = .file i)
    (hn : st.table[i]? = some n) (hclean : n.dirty = .clean) (hfreed : Freed n)
    (hblock : writeBlock st.fd n env = none) (buff : List Byte) (offset : ℕ) :
    ∃ k, tikfsWrite st path buff offset env = (-eio, st.seek k) := by
  obtain ⟨hret, hnode⟩ := writeNode_of_none hblock buff offset
  obtain ⟨hdata, happend⟩ := writeNode_data st.fd n buff offset env
  obtain ⟨hcowbuff, hcowlen⟩ := hfreed hclean
  have hsame : (writeNode st.fd n buff offset env).2.2 = n := by
    rw [hnode, ← hclean, ← hcowbuff, ← hcowlen]
  have hfd : (writeNode st.fd n buff offset env).2.1 =
      st.fd.lseekSet (writeNode st.fd n buff offset env).2.1.offset :=
    OpenFile.ext hdata rfl happend
  refine ⟨(writeNode st.fd n buff offset env).2.1.offset, ?_⟩
  have htable : st.table.set i n = st.table := by
    obtain ⟨hlt, hget⟩ := List.getElem?_eq_some_iff.mp hn
    rw [← hget, List.set_getElem_self]
  rw [tikfsWrite_of_file hfile hn, hret, hsame, htable, TikfsState.seek, ← hfd]

theorem rollsBack_of_none (hfile : fileType st.table path = .file i)
    (hn : st.table[i]? = some n) (hclean : n.dirty = .clean) (hfreed : Freed n)
    (hblock : writeBlock st.fd n env = none) (buff : List Byte) (offset : ℕ) :
    RollsBack st path i n buff offset env := by
  obtain ⟨k, hwrite⟩ := tikfsWrite_of_none hfile hn hclean hfreed hblock buff offset
  refine ⟨by rw [hwrite], ⟨n, ?_, hclean, (hfreed hclean).2, rfl, rfl⟩, fun calls => ?_⟩
  · rw [hwrite]
    exact hn
  · obtain ⟨k', hcalls⟩ := performAll_seek st k calls
    rw [hwrite, hcalls]
    exact sameAnswers_seek _ k'

end Failed

/-- **When a failed first write leaves the file as it was.** In every state that calls and flushes
reach from a mounted file, a write to a clean node whose `read` returns anything but the full length
leaves the file as it was if and only if the `read` did not fail with an error. -/
theorem rollsBack_iff {rs : List Record} {st₀ st : TikfsState}
    (hinit : tikfsInit (encodeDb rs) = .ok st₀)
    (hrun : Run FileStep (fun _ c => c.Valid) st₀ st) {path : List Byte} {i : ℕ} {n : Fnode}
    (hfile : fileType st.table path = .file i) (hn : st.table[i]? = some n)
    (hclean : n.dirty = .clean) {env : WriteEnv}
    (hread : copyResult st.fd n env ≠ n.metaHdr.len.toNat) (buff : List Byte) (offset : ℕ) :
    RollsBack st path i n buff offset env ↔ env.answer ≠ .error := by
  constructor
  · rintro ⟨-, ⟨n', hn', hclean', -⟩, -⟩ henv
    -- the error counts as a complete read, and the node stays dirty
    have hblock : writeBlock st.fd n env = some _ := Mounted.writeBlock_of_error hclean henv
    have hlt := (List.getElem?_eq_some_iff.mp hn).1
    rw [tikfsWrite_of_file hfile hn, List.getElem?_set_self hlt,
      (writeNode_of_some hblock buff offset).2] at hn'
    obtain rfl := Option.some.inj hn'
    cases hclean'
  · intro henv
    obtain ⟨k, hk, hret, -⟩ := (st.fd.lseekSet n.data).exists_read_eq n.metaHdr.len.toNat henv
    have hlen := (st.fd.lseekSet n.data).length_available k
    have hlt := n.metaHdr.len.toNat_lt
    have hshort : cSizeT (copyResult st.fd n env) < n.metaHdr.len.toNat := by
      rw [copyResult, hret] at hread ⊢
      rw [cSizeT_natCast (by omega)]
      omega
    exact rollsBack_of_none hfile hn hclean (freed_of_run hinit hrun n (List.mem_of_getElem? hn))
      ((writeBlock_eq_none_iff st.fd hclean).mpr hshort) buff offset

/-- A write of `"x"` whose `read` is answered by one byte of two. -/
theorem rollsBack_iff_short :
    RollsBack mountF [47, 102] 0 (cleanNode recordF.hdr 64) [120] 0
        ⟨.short 1, fun _ => 0, fun _ => 0, 0⟩ :=
  (rollsBack_iff tikfsInit_mountF .refl fileType_mountF (by decide +kernel) rfl
    (by decide +kernel) [120] 0).mpr nofun

/-- **Not every failed first write leaves the file as it was**: one whose `read` fails with an error
stores into memory that is not initialised. -/
theorem not_forall_rollsBack : ¬∀ (rs : List Record) (st₀ st : TikfsState),
    tikfsInit (encodeDb rs) = .ok st₀ → Run FileStep (fun _ c => c.Valid) st₀ st →
    ∀ path i n, fileType st.table path = .file i → st.table[i]? = some n → n.dirty = .clean →
      ∀ env, copyResult st.fd n env ≠ n.metaHdr.len.toNat →
        ∀ buff offset, RollsBack st path i n buff offset env := by
  intro hall
  have hrolls := hall [recordF] mountF mountF tikfsInit_mountF .refl [47, 102] 0
    (cleanNode recordF.hdr 64) fileType_mountF (by decide +kernel) rfl
    ⟨.error, fun _ => 0, fun _ => 0, 0⟩ (by decide +kernel) [120] 0
  exact absurd hrolls.ret_eq (by decide +kernel)

end TikFachpraktika.Tikfs
