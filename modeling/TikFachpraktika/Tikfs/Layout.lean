import TikFachpraktika.Tikfs.Flush

/-!
# The layout of a mounted file

The nodes of a table lie in the file one after the other, each behind a place for its header. A
flush keeps this: it appends the bytes of dirty nodes whose lengths are unchanged, and from the
first other dirty node on it cuts the file off and writes all nodes anew. The order of the nodes and
the end of the file are all that matters to later reads, so files of any size are covered.

## Main definitions

* `LaidOut`: the layout.
* `CowSound`: the buffers of the dirty nodes.
* `Mounted`: a mounted file system between two calls.
* `AfterFlush`: what the loops of a flush leave.

## Main results

* `mounted_of_tikfsInit`: mounting a well-formed file.
* `Mounted.flush`: a flush keeps the layout.
-/

namespace TikFachpraktika.Tikfs

open Posix Tikdb

/-- The nodes lie one after the other between `lo` and `hi`, each with its header before it. -/
def LaidOut : ℕ → ℕ → List Fnode → Prop
  | lo, hi, [] => lo ≤ hi
  | lo, hi, n :: ns => lo + DataHdr.size ≤ n.data ∧ LaidOut (n.data + n.metaHdr.len.toNat) hi ns

/-- A dirty node has `cowlen` bytes in `cowbuff`. -/
def CowSound (n : Fnode) : Prop :=
  n.dirty = .dirty → ∃ b, n.cowbuff = some b ∧ b.length = n.cowlen ∧ n.cowlen < 2 ^ 63

/-- A mounted file system whose nodes lie in the file and have sound buffers. -/
structure Mounted (st : TikfsState) : Prop where
  append_eq : st.fd.append = true
  laidOut : LaidOut 0 st.fd.data.length st.table
  cow : ∀ n ∈ st.table, CowSound n

/-! ### Layouts -/

namespace LaidOut

variable {lo lo' hi hi' : ℕ} {ns : List Fnode} {n : Fnode}

theorem le : {lo : ℕ} → {ns : List Fnode} → LaidOut lo hi ns → lo ≤ hi
  | _, [], h => h
  | _, _ :: _, h => by
      have hle := le h.2
      have hlo := h.1
      omega

theorem mono (h : LaidOut lo hi ns) (hhi : hi ≤ hi') : LaidOut lo hi' ns := by
  induction ns generalizing lo with
  | nil => exact le_trans h hhi
  | cons n ns ih => exact ⟨h.1, ih h.2⟩

theorem of_le (h : LaidOut lo hi ns) (hlo : lo' ≤ lo) : LaidOut lo' hi ns := by
  cases ns with
  | nil => exact le_trans hlo h
  | cons n ns => exact ⟨le_trans (Nat.add_le_add_right hlo _) h.1, h.2⟩

/-- A node of a layout lies in the file. -/
theorem le_of_mem (h : LaidOut lo hi ns) (hn : n ∈ ns) : n.data + n.metaHdr.len.toNat ≤ hi := by
  induction ns generalizing lo with
  | nil => cases hn
  | cons m ns ih =>
    rcases List.mem_cons.mp hn with rfl | hmem
    · exact h.2.le
    · exact ih h.2 hmem

/-- A node may be replaced by one at the same place. -/
theorem set (h : LaidOut lo hi ns) {i : ℕ} {n' : Fnode} (hn : ns[i]? = some n)
    (hdata : n'.data = n.data) (hlen : n'.metaHdr.len = n.metaHdr.len) :
    LaidOut lo hi (ns.set i n') := by
  induction ns generalizing lo i with
  | nil => exact h
  | cons m ns ih =>
    cases i with
    | zero =>
      obtain rfl := Option.some.inj hn
      rw [List.set_cons_zero, LaidOut, hdata, hlen]
      exact h
    | succ i => exact ⟨h.1, ih h.2 hn⟩

end LaidOut

theorem laidOut_cleanNodes : (off : ℕ) → (rs : List Record) →
    LaidOut off (off + (encodeRecords rs).length) (cleanNodes off rs)
  | off, [] => by simp [cleanNodes, LaidOut]
  | off, r :: rs => by
      refine ⟨le_rfl, ?_⟩
      have hnext := laidOut_cleanNodes (off + r.encode.length) rs
      have hlen := r.length_encode
      have hall : (encodeRecords (r :: rs)).length =
          r.encode.length + (encodeRecords rs).length := by
        rw [encodeRecords_cons, List.length_append]
      rw [hall, ← Nat.add_assoc]
      exact hnext.of_le (by simp only [cleanNode]; omega)

/-- **Mounting a well-formed file.** -/
theorem mounted_of_tikfsInit {rs : List Record} {st : TikfsState}
    (h : tikfsInit (encodeDb rs) = .ok st) : Mounted st := by
  obtain ⟨-, -, rfl⟩ := eq_of_tikfsInit h
  refine ⟨rfl, ?_, fun n hn hdirty => ?_⟩
  · have hlaid := laidOut_cleanNodes FileHdr.size rs
    rw [encodeDb, List.length_append, FileHdr.length_encode]
    exact hlaid.of_le (Nat.zero_le _)
  · rw [dirty_of_mem_cleanNodes hn] at hdirty
    cases hdirty

/-- The bytes of a node on disc are all there. -/
theorem Mounted.onDisc_length {st : TikfsState} (h : Mounted st) {n : Fnode} (hn : n ∈ st.table) :
    (onDisc st.fd.data n).length = n.metaHdr.len.toNat := by
  have hle := h.laidOut.le_of_mem hn
  rw [onDisc, List.length_take, List.length_drop]
  omega

/-! ### Flushing -/

/-- The file and the nodes after a flush. -/
structure AfterFlush (lo : ℕ) (fd : OpenFile) (ns : List Fnode) : Prop where
  append_eq : fd.append = true
  laidOut : LaidOut lo fd.data.length ns
  clean : ∀ n ∈ ns, n.dirty = .clean

theorem AfterFlush.cons {lo : ℕ} {fd : OpenFile} {n : Fnode} {ns : List Fnode}
    (h : AfterFlush (n.data + n.metaHdr.len.toNat) fd ns) (hlo : lo + DataHdr.size ≤ n.data)
    (hclean : n.dirty = .clean) : AfterFlush lo fd (n :: ns) :=
  ⟨h.append_eq, ⟨hlo, h.laidOut⟩, List.forall_mem_cons.mpr ⟨hclean, h.clean⟩⟩

/-- The node `n` has been written to the end of the file: from `fd` to `fd'`, with its header. -/
structure Placed (fd fd' : OpenFile) (n : Fnode) : Prop where
  append_eq : fd'.append = true
  le_data : fd.data.length + DataHdr.size ≤ n.data
  data_add_len : n.data + n.metaHdr.len.toNat = fd'.data.length
  clean : n.dirty = .clean

theorem WrittenTo.placed {fd fd' : OpenFile} {n n' : Fnode} {bs : List Byte}
    (h : WrittenTo fd fd' n n' bs) : Placed fd fd' n' := by
  have hlen := congrArg List.length h.data_eq
  rw [List.length_append, List.length_append, DataHdr.length_encode, h.length_eq] at hlen
  have hle := currentHdr_len_le n
  have hplace := h.data_add_len
  rw [← h.hdr_eq] at hle
  exact ⟨h.append_eq, by omega, hplace, h.clean⟩

section Flush

variable {fd : OpenFile} {n : Fnode}

/-- A dirty node that is written anew; its length is cut to 32 bits. -/
theorem flushDirtyNode_placed (happend : fd.append = true) (hcow : CowSound n)
    (hdirty : n.dirty = .dirty) : Placed fd (flushDirtyNode fd n).1 (flushDirtyNode fd n).2 := by
  obtain ⟨b, hb, hlen, -⟩ := hcow hdirty
  have hpayload : ((n.cowbuff.getD []).take n.cowlen).length = n.cowlen := by
    rw [hb, List.length_take, Option.getD_some, hlen, Nat.min_self]
  exact (flushDirtyNode_written happend hpayload hdirty).placed

/-- **Nodes that are written anew** lie one after the other, and none of them is dirty. -/
theorem rewriteLoop_afterFlush (malloced : ℕ → Byte) (offshift : ℕ) : (ns : List Fnode) →
    (lo : ℕ) → (fd fd2 : OpenFile) → fd.append = true → lo ≤ fd.data.length →
    (∀ n ∈ ns, CowSound n) →
    AfterFlush lo (rewriteLoop malloced offshift ns fd fd2).1
      (rewriteLoop malloced offshift ns fd fd2).2
  | [], _, _, _, happend, hlo, _ => ⟨happend, hlo, List.forall_mem_nil _⟩
  | n :: ns, lo, fd, fd2, happend, hlo, hcow => by
      have htail : ∀ m ∈ ns, CowSound m := fun m hm => hcow m (List.mem_cons_of_mem _ hm)
      rw [rewriteLoop]
      cases hdirty : n.dirty with
      | dirty =>
        have hplaced := flushDirtyNode_placed happend (hcow n List.mem_cons_self) hdirty
        have hrest := rewriteLoop_afterFlush malloced offshift ns _ (flushDirtyNode fd n).1 fd2
          hplaced.append_eq hplaced.data_add_len.le htail
        exact hrest.cons (le_trans (Nat.add_le_add_right hlo _) hplaced.le_data) hplaced.clean
      | clean =>
        have hplaced := (flushCleanNode_written fd2 happend hdirty malloced offshift).placed
        have hrest := rewriteLoop_afterFlush malloced offshift ns _
          (flushCleanNode malloced offshift fd fd2 n).1
          (flushCleanNode malloced offshift fd fd2 n).2.1 hplaced.append_eq
          hplaced.data_add_len.le htail
        exact hrest.cons (le_trans (Nat.add_le_add_right hlo _) hplaced.le_data) hplaced.clean

/-- **The loop of a flush** keeps the layout, and afterwards no node is dirty. -/
theorem flushLoop_afterFlush (env : FlushEnv) : (ns : List Fnode) → (lo : ℕ) →
    (fd : OpenFile) → fd.append = true → LaidOut lo fd.data.length ns → (∀ n ∈ ns, CowSound n) →
    AfterFlush lo (flushLoop env ns fd).1 (flushLoop env ns fd).2
  | [], _, _, happend, hlaid, _ => ⟨happend, hlaid, List.forall_mem_nil _⟩
  | n :: ns, lo, fd, happend, hlaid, hcow => by
      have htail : ∀ m ∈ ns, CowSound m := fun m hm => hcow m (List.mem_cons_of_mem _ hm)
      rw [flushLoop]
      cases hdirty : n.dirty with
      | clean =>
        have hrest := flushLoop_afterFlush env ns _ fd happend hlaid.2 htail
        exact hrest.cons hlaid.1 hdirty
      | dirty =>
        dsimp only
        split_ifs with hlen
        · have hwrite := OpenFile.write_of_append (f := fd.lseekSet n.data) happend
            ((n.cowbuff.getD []).take n.cowlen)
          have hle : fd.data.length ≤
              ((fd.lseekSet n.data).write ((n.cowbuff.getD []).take n.cowlen)).data.length := by
            rw [hwrite, List.length_append]
            exact Nat.le_add_right _ _
          have hrest := flushLoop_afterFlush env ns _ _
            (by rw [OpenFile.write_append]; exact happend) (hlaid.2.mono hle) htail
          exact AfterFlush.cons (n := { n with dirty := .clean, cowbuff := none, cowlen := 0 })
            hrest hlaid.1 rfl
        · obtain ⟨fd', fd2, hrewrite, happend', hfd, -⟩ := rewriteFrom_eq env fd n ns
          have hle : n.data - DataHdr.size ≤ fd.data.length := by
            have := hlaid.le_of_mem List.mem_cons_self
            omega
          have htrunc := OpenFile.ftruncate_data_of_le (fd.lseekSet (n.data - DataHdr.size)) hle
          have hcut : fd'.data.length = n.data - DataHdr.size := by
            rw [hfd, htrunc, List.length_take]
            exact Nat.min_eq_left hle
          rw [hrewrite]
          exact rewriteLoop_afterFlush env.malloced n.data (n :: ns) lo fd' fd2
            (happend'.trans happend) (by have := hlaid.1; omega) hcow

end Flush

/-- **A flush keeps the layout.** -/
theorem Mounted.flush {st : TikfsState} (h : Mounted st) (env : FlushEnv) :
    Mounted (flush env st) := by
  have hafter := flushLoop_afterFlush env st.table 0 st.fd h.append_eq h.laidOut h.cow
  refine ⟨hafter.append_eq, hafter.laidOut, fun n hn hdirty => ?_⟩
  rw [hafter.clean n hn] at hdirty
  cases hdirty

end TikFachpraktika.Tikfs
