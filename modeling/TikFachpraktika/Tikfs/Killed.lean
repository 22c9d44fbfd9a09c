import TikFachpraktika.Tikdb.Interrupted
import TikFachpraktika.Tikfs.Lifetime

/-!
# An unmount that is killed

`tikfs_flush_dirty_nodes_to_disc` puts the contents of the nodes up to the first one of another
length behind the file; at this node it cuts the file off and writes the rest anew, and the bytes
that it cuts off are then in the temporary file only. A `tikfs` that is killed leaves the bytes that
are in the file at that moment.

## Main definitions

* `copyRest`, `rewriteWrites`: the temporary file, and what is written to the file that is cut off.
* `FlushKilled`: what the file may hold when the flush has been killed.

## Main results

* `flush_eq_writes`: the writes make up the flushed file.
* `killed_flush`: what a killed flush leaves.
-/

namespace TikFachpraktika.Tikfs

open Posix Tikdb

/-! ### The writes of a flush -/

/-- The temporary file of `tikfs_flush_dirty_nodes_to_disc`. -/
def copyRest (env : FlushEnv) (fd : OpenFile) (n : Fnode) : OpenFile :=
  let toCopy := fd.data.length - n.data
  let (fd2, fd) := OpenFile.sendfileTimes env.blksize (toCopy / env.blksize)
    (⟨[], 0, false⟩, fd.lseekSet n.data)
  (OpenFile.sendfile fd2 fd (toCopy % env.blksize)).1.lseekSet 0

/-- The bytes that the loop of `__tikfs_flush_dirty_nodes_to_disc` writes, write by write. -/
def rewriteWrites (malloced : ℕ → Byte) (offshift : ℕ) : List Fnode → OpenFile → List (List Byte)
  | [], _ => []
  | n :: ns, fd2 =>
    match n.dirty with
    | .dirty =>
      { n.metaHdr with len := UInt32.ofNat n.cowlen }.encode ::
        (n.cowbuff.getD []).take n.cowlen :: rewriteWrites malloced offshift ns fd2
    | .clean =>
      let len := n.metaHdr.len.toNat
      let (_, tmp, fd2) := (fd2.lseekSet (n.data - offshift)).read len .full
      n.metaHdr.encode :: resize tmp len malloced :: rewriteWrites malloced offshift ns fd2

/-- The nodes before the first one of another length. -/
def inPlaceNodes (st : TikfsState) : List Fnode :=
  st.table.takeWhile fun n => decide ¬LengthChanged n

/-- The descriptor after these nodes. -/
def inPlaceFd (env : FlushEnv) (st : TikfsState) : OpenFile :=
  (flushLoop env (inPlaceNodes st) st.fd).1

/-- What the file may hold when the flush has been killed: what it held before with a part of the
bytes that are to be written in place behind it, or the start of the file with a part of what is
written anew. -/
inductive FlushKilled (env : FlushEnv) (st : TikfsState) : List Byte → Prop
  | inPlace {part : List Byte} (hpart : part <+: (inPlaceNodes st).flatMap dirtyBytes) :
      FlushKilled env st (st.fd.data ++ part)
  | anew {n : Fnode} {ns : List Fnode} {part : List Byte}
      (htable : st.table = inPlaceNodes st ++ n :: ns)
      (hpart : part <+: (rewriteWrites env.malloced n.data (n :: ns)
        (copyRest env (inPlaceFd env st) n)).flatten) :
      FlushKilled env st
        (((inPlaceFd env st).ftruncate (n.data - DataHdr.size)).data ++ part)

section Writes

variable {env : FlushEnv} {st : TikfsState}

/-- **The loop** appends its writes. -/
theorem rewriteLoop_eq_writes (malloced : ℕ → Byte) (offshift : ℕ) : (ns : List Fnode) →
    (fd fd2 : OpenFile) → fd.append = true →
    (rewriteLoop malloced offshift ns fd fd2).1.data =
      fd.data ++ (rewriteWrites malloced offshift ns fd2).flatten
  | [], fd, _, _ => (List.append_nil _).symm
  | n :: ns, fd, fd2, happend => by
      rw [rewriteLoop, rewriteWrites]
      cases hdirty : n.dirty with
      | dirty =>
        obtain ⟨happend', hdata, -⟩ := write_write_of_append happend
          { n.metaHdr with len := UInt32.ofNat n.cowlen } ((n.cowbuff.getD []).take n.cowlen)
        exact (rewriteLoop_eq_writes malloced offshift ns _ fd2 happend').trans
          (by rw [hdata]; simp)
      | clean =>
        obtain ⟨happend', hdata, -⟩ := write_write_of_append happend n.metaHdr
          (resize ((fd2.lseekSet (n.data - offshift)).read n.metaHdr.len.toNat .full).2.1
            n.metaHdr.len.toNat malloced)
        refine (rewriteLoop_eq_writes malloced offshift ns _ _ happend').trans ?_
        rw [hdata, List.append_assoc, List.append_assoc]
        rfl

/-- The nodes from the first one of another length on. -/
theorem lengthChanged_of_table {n : Fnode} {ns : List Fnode}
    (htable : st.table = inPlaceNodes st ++ n :: ns) :
    (∀ m ∈ inPlaceNodes st, ¬LengthChanged m) ∧ LengthChanged n := by
  have hinPlace : ∀ m ∈ inPlaceNodes st, decide (¬LengthChanged m) = true := fun m hm =>
    List.mem_takeWhile_imp (p := fun n => decide ¬LengthChanged n) hm
  refine ⟨fun m hm => by simpa using hinPlace m hm, ?_⟩
  by_contra hn
  -- the nodes would go on
  have htake : inPlaceNodes st = (inPlaceNodes st ++ n :: ns).takeWhile
      fun n => decide ¬LengthChanged n := by
    rw [← htable]
    rfl
  rw [List.takeWhile_append_of_pos hinPlace,
    List.takeWhile_cons_of_pos (by simpa using hn)] at htake
  exact absurd (congrArg List.length htake) (by simp)

/-- The branch for a node of another length, with its temporary file. -/
theorem exists_rewriteFrom_eq (env : FlushEnv) (fd : OpenFile) (n : Fnode) (ns : List Fnode) :
    ∃ fd', fd'.data = (fd.ftruncate (n.data - DataHdr.size)).data ∧ fd'.append = fd.append ∧
      rewriteFrom env fd n ns =
        rewriteLoop env.malloced n.data (n :: ns) fd' (copyRest env fd n) := by
  have htmp : (⟨[], 0, false⟩ : OpenFile).offset = (⟨[], 0, false⟩ : OpenFile).data.length := rfl
  have hcopy := (OpenFile.sendfile_sendfileTimes htmp (fd.lseekSet n.data) env.blksize
    ((fd.data.length - n.data) / env.blksize) ((fd.data.length - n.data) % env.blksize)).trans
    (OpenFile.sendfile_eq htmp _)
  rw [rewriteFrom, copyRest]
  dsimp only
  rw [hcopy]
  refine ⟨_, ?_, ?_, Eq.refl _⟩
  · rfl
  · rfl

/-- **The writes make up the flushed file.** -/
theorem flush_eq_writes (happend : st.fd.append = true) {n : Fnode} {ns : List Fnode}
    (htable : st.table = inPlaceNodes st ++ n :: ns) :
    (flush env st).fd.data = ((inPlaceFd env st).ftruncate (n.data - DataHdr.size)).data ++
      (rewriteWrites env.malloced n.data (n :: ns)
        (copyRest env (inPlaceFd env st) n)).flatten := by
  obtain ⟨hns, hn⟩ := lengthChanged_of_table htable
  obtain ⟨happend', -, -⟩ := flushLoop_inPlace env (inPlaceNodes st) st.fd happend hns
  obtain ⟨fd, hdata, hfd, hrewrite⟩ := exists_rewriteFrom_eq env (inPlaceFd env st) n ns
  rw [inPlaceFd] at hrewrite
  rw [flush_of_split env htable hns hn, hrewrite, ← hdata]
  exact rewriteLoop_eq_writes env.malloced n.data (n :: ns) fd _ (hfd.trans happend')

end Writes

/-! ### What is found afterwards -/

section Killed

variable {rs new : List Record} {st : TikfsState} {env : FlushEnv} {crashed rest : List Byte}

/-- The file that is cut off at a node of a session. -/
theorem ftruncate_of_session (h : Session rs st) {ns₁ ns₂ : List Fnode} {n : Fnode}
    (htable : st.table = ns₁ ++ n :: ns₂) {fd : OpenFile} (hfd : fd.data = st.fd.data ++ rest) :
    (fd.ftruncate (n.data - DataHdr.size)).data = encodeDb (rs.take ns₁.length) := by
  have hnodes := h.nodes
  rw [htable] at hnodes
  obtain ⟨rs₁, rs₂, rfl, hover₁, hover₂⟩ := hnodes.exists_append
  have hoff : n.data - DataHdr.size = (encodeDb rs₁).length := by
    rw [(hover₂.data_le List.mem_cons_self).1, Nat.add_sub_cancel, encodeDb, List.length_append,
      FileHdr.length_encode]
  have hall : fd.data = encodeDb rs₁ ++ (encodeRecords rs₂ ++ rest) := by
    rw [hfd, h.data_eq, encodeDb, encodeDb, encodeRecords_append]
    simp only [List.append_assoc]
  rw [hover₁.length_eq, List.take_left, OpenFile.ftruncate_data_of_le, hoff, hall, List.take_left]
  rw [hoff, hall, List.length_append]
  exact Nat.le_add_right _ _

/-- **What a killed unmount leaves.** After a mount and valid calls, a `tikfs` that is killed while
it writes back the files leaves the old file, with a part of the bytes behind it that are written in
place; or the old file up to the first node of another length is left, and behind it the first of
all later files with their new bytes: `get` finds them and no wrong bytes, and the files after them
are lost. -/
theorem killed_flush {st₀ : TikfsState} {calls : List Call}
    (hinit : tikfsInit (encodeDb rs) = .ok st₀) (hcalls : ∀ c ∈ calls, c.Valid)
    (hst : st = st₀.after calls) (hkilled : FlushKilled env st crashed) :
    (∃ part, part <+: (inPlaceNodes st).flatMap dirtyBytes ∧ crashed = encodeDb rs ++ part) ∨
      ∃ new j rest, new.map recordFile = (rs.take (inPlaceNodes st).length).map recordFile ++
          st.files.drop (inPlaceNodes st).length ∧
        (inPlaceNodes st).length ≤ j ∧ j ≤ new.length ∧ Survives new j rest crashed := by
  have hsession : Session rs st := by
    rw [hst]
    exact (session_of_tikfsInit hinit).2.after hcalls
  cases hkilled with
  | inPlace hpart => exact .inl ⟨_, hpart, by rw [hsession.data_eq]⟩
  | @anew n ns part htable hpart =>
    obtain ⟨hns, hn⟩ := lengthChanged_of_table htable
    obtain ⟨-, hinPlace, -⟩ := flushLoop_inPlace env (inPlaceNodes st) st.fd hsession.append_eq hns
    have hcut := ftruncate_of_session hsession htable hinPlace
    have hwrites := @flush_eq_writes env st hsession.append_eq n ns htable
    rw [inPlaceFd, hcut] at hwrites ⊢
    obtain ⟨rs₁, rs₂, rs', hrs, hover, hdata, hfiles⟩ :=
      flush_of_lengthChanged env hsession htable hns hn
    have htake : rs.take (inPlaceNodes st).length = rs₁ := by
      rw [hrs, hover.length_eq, List.take_left]
    rw [htake] at hwrites ⊢
    have hpre : encodeDb rs₁ ++ part <+: encodeDb (rs₁ ++ rs') := by
      rw [← hdata, hwrites]
      exact (List.prefix_append_right_inj _).mpr hpart
    obtain ⟨j, rest, hj, hsurvives⟩ := exists_survives_of_cut hpre (by
      rw [encodeDb, List.length_append, List.length_append, FileHdr.length_encode]
      omega)
    have hlen := hover.length_eq
    refine .inr ⟨rs₁ ++ rs', j, rest, ?_, ?_, hj, hsurvives⟩
    · have hfiles' : st.files = (inPlaceNodes st).map (visibleFile st.fd.data) ++
          (n :: ns).map (visibleFile st.fd.data) := by
        rw [← List.map_append, ← htable]
        rfl
      rw [List.map_append, hfiles, hfiles', List.drop_left' (List.length_map _)]
    · refine le_of_survives ?_ ?_ hsurvives
      · rw [hlen, List.length_append]
        exact Nat.le_add_right _ _
      · rw [hlen, List.take_left]
        exact List.prefix_append _ _

end Killed

/-- The files `"a"` and `"ab"` after their mount. -/
def mountA : TikfsState :=
  ⟨⟨encodeDb [writtenA, newRecord strAB.bytes strA.bytes 5], 0, true⟩,
    cleanNodes FileHdr.size [writtenA, newRecord strAB.bytes strA.bytes 5]⟩

/-- The file that is left when the flush is killed in the middle of the new header of `"ab"`. -/
def crashedFlush : List Byte :=
  encodeDb [writtenA] ++ writtenAB.hdr.encode.take 5

/-- The file `"a"` survives. -/
theorem killed_flush_crashedFlush : ∃ new j rest, new.map recordFile = mixedFiles ∧
    1 ≤ j ∧ j ≤ new.length ∧ Survives new j rest crashedFlush := by
  have hinit : tikfsInit (encodeDb [writtenA, newRecord strAB.bytes strA.bytes 5]) = .ok mountA :=
    tikfsInit_encodeDb (by decide) (by decide)
  have htable : (mountA.after cycleAB.calls).table =
      inPlaceNodes (mountA.after cycleAB.calls) ++
        ⟨{ newHdr strAB.bytes 1 8 with tsR := 5 }, 123, .dirty, some [120, 121], 2⟩ :: [] := by
    decide +kernel
  have hcut : ((inPlaceFd flushEnv (mountA.after cycleAB.calls)).ftruncate
      (123 - DataHdr.size)).data = encodeDb [writtenA] := by
    decide +kernel
  have hkilled : FlushKilled flushEnv (mountA.after cycleAB.calls) crashedFlush := by
    rw [crashedFlush, ← hcut]
    exact .anew htable (by decide +kernel)
  obtain ⟨part, -, hpart⟩ | ⟨new, j, rest, hnew, hle, hj, hsurvives⟩ :=
    killed_flush hinit safe_cycleAB.1 rfl hkilled
  · exact absurd (congrArg List.length hpart) (by
      rw [List.length_append]
      have hlen : crashedFlush.length < (encodeDb [writtenA,
        newRecord strAB.bytes strA.bytes 5]).length := by decide +kernel
      omega)
  · have hone : (inPlaceNodes (mountA.after cycleAB.calls)).length = 1 := by decide +kernel
    have hfiles : ([writtenA, newRecord strAB.bytes strA.bytes 5].take 1).map recordFile ++
        (mountA.after cycleAB.calls).files.drop 1 = mixedFiles := by
      decide +kernel
    rw [hone] at hnew hle
    exact ⟨new, j, rest, hnew.trans hfiles, hle, hj, hsurvives⟩

end TikFachpraktika.Tikfs
