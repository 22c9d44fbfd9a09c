import TikFachpraktika.Tikfs.Session

/-!
# Flushing the dirty nodes

`tikfs_flush_dirty_nodes_to_disc` of `5_filesys/tikfs.c`. Its loop writes a dirty node whose
length is unchanged to the place of the node. At the first dirty node with another length it
copies the rest of the file to a temporary file, cuts the file off and writes this node and all
later ones anew. The descriptor was opened with `O_APPEND`, so that a write lands at the end of
the file also after an `lseek` to a node.

## Main definitions

* `flushDirtyNode`, `flushCleanNode`, `rewriteLoop`, `rewriteFrom`, `flushLoop`, `flush`: the
  functions of the flush, from the inside out.
* `LengthChanged`: a dirty node that the loop does not write in place.

## Main results

* `flush_of_not_lengthChanged`: without such a node the dirty contents are appended to the file.
* `flush_of_lengthChanged`: with such a node the first part of the file stays as it is on disc and
  the rest becomes what is visible.
-/

namespace TikFachpraktika.Tikfs

open Posix Tikdb

/-- What a flush gets from outside: `st_blksize` of the database file and the bytes of the memory
that `xmalloc` returns. -/
structure FlushEnv where
  blksize : ℕ+
  malloced : ℕ → Byte

/-- `____tikfs_flush_dirty_nodes_to_disc_dirty`. -/
def flushDirtyNode (fd : OpenFile) (n : Fnode) : OpenFile × Fnode :=
  let hdr := { n.metaHdr with len := UInt32.ofNat n.cowlen }
  let fd := fd.write hdr.encode
  let fd := fd.write ((n.cowbuff.getD []).take n.cowlen)
  (fd, ⟨hdr, fd.offset - hdr.len.toNat, .clean, none, 0⟩)

/-- `____tikfs_flush_dirty_nodes_to_disc_clean`; `fd2` is `tikfs_fd2`. -/
def flushCleanNode (malloced : ℕ → Byte) (offshift : ℕ) (fd fd2 : OpenFile) (n : Fnode) :
    OpenFile × OpenFile × Fnode :=
  let len := n.metaHdr.len.toNat
  let fd2 := fd2.lseekSet (n.data - offshift)
  let fd := fd.write n.metaHdr.encode
  let (_, tmp, fd2) := fd2.read len .full
  let fd := fd.write (resize tmp len malloced)
  (fd, fd2, { n with data := fd.offset - len })

/-- The loop of `__tikfs_flush_dirty_nodes_to_disc`. -/
def rewriteLoop (malloced : ℕ → Byte) (offshift : ℕ) :
    List Fnode → OpenFile → OpenFile → OpenFile × List Fnode
  | [], fd, _ => (fd, [])
  | n :: ns, fd, fd2 =>
    match n.dirty with
    | .dirty =>
      let (fd, n) := flushDirtyNode fd n
      let (fd, ns) := rewriteLoop malloced offshift ns fd fd2
      (fd, n :: ns)
    | .clean =>
      let (fd, fd2, n) := flushCleanNode malloced offshift fd fd2 n
      let (fd, ns) := rewriteLoop malloced offshift ns fd fd2
      (fd, n :: ns)

/-- The branch of a dirty node `n` with another length; `ns` are the nodes after it. -/
def rewriteFrom (env : FlushEnv) (fd : OpenFile) (n : Fnode) (ns : List Fnode) :
    OpenFile × List Fnode :=
  let offshift := n.data
  let toCopy := fd.data.length - n.data
  let chunkBlocks := toCopy / env.blksize
  let chunkRest := toCopy % env.blksize
  let fd := fd.lseekSet n.data
  let (fd2, fd) := OpenFile.sendfileTimes env.blksize chunkBlocks (⟨[], 0, false⟩, fd)
  let (fd2, fd) := OpenFile.sendfile fd2 fd chunkRest
  let fd2 := fd2.lseekSet 0
  let fd := (fd.lseekSet (n.data - DataHdr.size)).ftruncate (n.data - DataHdr.size)
  rewriteLoop env.malloced offshift (n :: ns) fd fd2

/-- The loop of `tikfs_flush_dirty_nodes_to_disc`. -/
def flushLoop (env : FlushEnv) : List Fnode → OpenFile → OpenFile × List Fnode
  | [], fd => (fd, [])
  | n :: ns, fd =>
    match n.dirty with
    | .clean =>
      let (fd, ns) := flushLoop env ns fd
      (fd, n :: ns)
    | .dirty =>
      if n.cowlen = n.metaHdr.len.toNat then
        let fd := fd.lseekSet n.data
        let fd := fd.write ((n.cowbuff.getD []).take n.cowlen)
        let (fd, ns) := flushLoop env ns fd
        (fd, { n with dirty := .clean, cowbuff := none, cowlen := 0 } :: ns)
      else rewriteFrom env fd n ns

/-- `tikfs_flush_dirty_nodes_to_disc`. -/
def flush (env : FlushEnv) (st : TikfsState) : TikfsState :=
  let (fd, table) := flushLoop env st.table st.fd
  ⟨fd, table⟩

theorem flush_fd (env : FlushEnv) (st : TikfsState) :
    (flush env st).fd = (flushLoop env st.table st.fd).1 := rfl

theorem flush_table (env : FlushEnv) (st : TikfsState) :
    (flush env st).table = (flushLoop env st.table st.fd).2 := rfl

/-- A dirty node whose length is no longer the one on disc. -/
def LengthChanged (n : Fnode) : Prop :=
  n.dirty = .dirty ∧ n.cowlen ≠ n.metaHdr.len.toNat

instance : DecidablePred LengthChanged := fun n =>
  inferInstanceAs (Decidable (n.dirty = .dirty ∧ n.cowlen ≠ n.metaHdr.len.toNat))

/-- The first node of another length, if there is one. -/
theorem exists_first_lengthChanged (ns : List Fnode) :
    (∀ n ∈ ns, ¬ LengthChanged n) ∨
      ∃ ns₁ c ns₂, ns = ns₁ ++ c :: ns₂ ∧ LengthChanged c ∧ ∀ m ∈ ns₁, ¬ LengthChanged m := by
  cases hfirst : ns.find? fun n => decide (LengthChanged n) with
  | none => exact .inl (by simpa using hfirst)
  | some c =>
    obtain ⟨hc, ns₁, ns₂, hsplit, hns₁⟩ := List.find?_eq_some_iff_append.mp hfirst
    exact .inr ⟨ns₁, c, ns₂, hsplit, by simpa using hc, by simpa using hns₁⟩

/-- A file as a user sees it: its name and its bytes. -/
def visibleFile (data : List Byte) (n : Fnode) : CharArray 32 × List Byte :=
  (n.metaHdr.key, content data n)

/-- The name and the bytes of a record. -/
def recordFile (r : Record) : CharArray 32 × List Byte :=
  (r.hdr.key, r.val)

/-! ### Nodes written in place -/

/-- The bytes that the loop writes for a node whose length is unchanged. -/
def dirtyBytes (n : Fnode) : List Byte :=
  match n.dirty with
  | .clean => []
  | .dirty => (n.cowbuff.getD []).take n.cowlen

/-- A node after the loop has written it in place. -/
def flushedInPlace (n : Fnode) : Fnode :=
  match n.dirty with
  | .clean => n
  | .dirty => { n with dirty := .clean, cowbuff := none, cowlen := 0 }

/-- The loop over nodes whose lengths are unchanged appends their dirty bytes. -/
theorem flushLoop_inPlace (env : FlushEnv) : (ns : List Fnode) → (fd : OpenFile) →
    fd.append = true → (∀ n ∈ ns, ¬ LengthChanged n) →
    (flushLoop env ns fd).1.append = true ∧
      (flushLoop env ns fd).1.data = fd.data ++ ns.flatMap dirtyBytes ∧
      (flushLoop env ns fd).2 = ns.map flushedInPlace
  | [], fd, happend, _ => ⟨happend, (List.append_nil _).symm, rfl⟩
  | n :: ns, fd, happend, hns => by
      have hn := hns n List.mem_cons_self
      have htail : ∀ m ∈ ns, ¬ LengthChanged m := fun m hm => hns m (List.mem_cons_of_mem _ hm)
      rw [flushLoop, List.flatMap_cons, List.map_cons, dirtyBytes, flushedInPlace]
      cases hdirty : n.dirty with
      | clean =>
        obtain ⟨happend', hdata, htable⟩ := flushLoop_inPlace env ns fd happend htail
        exact ⟨happend', hdata, congrArg _ htable⟩
      | dirty =>
        have hlen : n.cowlen = n.metaHdr.len.toNat := by
          by_contra hlen
          exact hn ⟨hdirty, hlen⟩
        dsimp only
        rw [if_pos hlen]
        -- the write goes to the end of the file although the offset is that of the node
        have hwrite := OpenFile.write_of_append (f := fd.lseekSet n.data) happend
          ((n.cowbuff.getD []).take n.cowlen)
        obtain ⟨happend', hdata, htable⟩ := flushLoop_inPlace env ns
          ((fd.lseekSet n.data).write ((n.cowbuff.getD []).take n.cowlen))
          (by rw [OpenFile.write_append]; exact happend) htail
        rw [hwrite, OpenFile.lseekSet_data, List.append_assoc] at hdata
        exact ⟨happend', hdata, congrArg _ htable⟩

/-- The loop goes on behind nodes whose lengths are unchanged. -/
theorem flushLoop_append (env : FlushEnv) : (ns ms : List Fnode) → (fd : OpenFile) →
    (∀ n ∈ ns, ¬ LengthChanged n) →
    flushLoop env (ns ++ ms) fd =
      ((flushLoop env ms (flushLoop env ns fd).1).1,
        (flushLoop env ns fd).2 ++ (flushLoop env ms (flushLoop env ns fd).1).2)
  | [], ms, fd, _ => rfl
  | n :: ns, ms, fd, hns => by
      have hn := hns n List.mem_cons_self
      have htail : ∀ m ∈ ns, ¬ LengthChanged m := fun m hm => hns m (List.mem_cons_of_mem _ hm)
      rw [List.cons_append, flushLoop, flushLoop]
      cases hdirty : n.dirty with
      | clean =>
        dsimp only
        rw [flushLoop_append env ns ms fd htail]
        rfl
      | dirty =>
        have hlen : n.cowlen = n.metaHdr.len.toNat := by
          by_contra hlen
          exact hn ⟨hdirty, hlen⟩
        dsimp only
        rw [if_pos hlen, if_pos hlen, flushLoop_append env ns ms _ htail]
        rfl

/-- At a node of another length the loop leaves for the branch that writes the rest anew. -/
theorem flushLoop_of_lengthChanged (env : FlushEnv) {n : Fnode} (hn : LengthChanged n)
    (ns : List Fnode) (fd : OpenFile) :
    flushLoop env (n :: ns) fd = rewriteFrom env fd n ns := by
  rw [flushLoop, hn.1]
  dsimp only
  rw [if_neg hn.2]

/-- A flush whose first node of another length is `n`. -/
theorem flush_of_split (env : FlushEnv) {st : TikfsState} {ns₁ ns₂ : List Fnode} {n : Fnode}
    (htable : st.table = ns₁ ++ n :: ns₂) (hns₁ : ∀ m ∈ ns₁, ¬ LengthChanged m)
    (hn : LengthChanged n) :
    flush env st = ⟨(rewriteFrom env (flushLoop env ns₁ st.fd).1 n ns₂).1,
      (flushLoop env ns₁ st.fd).2 ++ (rewriteFrom env (flushLoop env ns₁ st.fd).1 n ns₂).2⟩ := by
  rw [flush, htable, flushLoop_append env ns₁ (n :: ns₂) st.fd hns₁,
    flushLoop_of_lengthChanged env hn]

/-! ### Nodes written anew -/

/-- The header that a flush writes for a node: its own with its current length, as a
`uint32_t`. -/
def currentHdr (n : Fnode) : DataHdr :=
  { n.metaHdr with len := UInt32.ofNat (visibleLen n) }

theorem currentHdr_of_clean {n : Fnode} (hclean : n.dirty = .clean) :
    currentHdr n = n.metaHdr := by
  rw [currentHdr, visibleLen, hclean]
  dsimp only
  rw [UInt32.ofNat_toNat]

theorem currentHdr_of_dirty {n : Fnode} (hdirty : n.dirty = .dirty) :
    currentHdr n = { n.metaHdr with len := UInt32.ofNat n.cowlen } := by
  rw [currentHdr, visibleLen, hdirty]

theorem currentHdr_len_le (n : Fnode) : (currentHdr n).len.toNat ≤ visibleLen n := by
  rw [currentHdr, UInt32.toNat_ofNat']
  exact Nat.mod_le _ _

theorem currentHdr_len_eq_iff (n : Fnode) :
    (currentHdr n).len.toNat = visibleLen n ↔ visibleLen n < 2 ^ 32 := by
  rw [currentHdr, UInt32.toNat_ofNat', Nat.mod_eq_iff_lt (by decide)]

/-- The node `n` has been written to the end of the file, its header and then the bytes `bs`: from
`fd` to `fd'`, with the node `n'` afterwards. -/
structure WrittenTo (fd fd' : OpenFile) (n n' : Fnode) (bs : List Byte) : Prop where
  append_eq : fd'.append = true
  data_eq : fd'.data = fd.data ++ ((currentHdr n).encode ++ bs)
  length_eq : bs.length = visibleLen n
  hdr_eq : n'.metaHdr = currentHdr n
  data_add_len : n'.data + n'.metaHdr.len.toNat = fd'.data.length
  clean : n'.dirty = .clean

/-- A header and then a payload at the end of the file. -/
theorem write_write_of_append {fd : OpenFile} (happend : fd.append = true) (hdr : DataHdr)
    (bs : List Byte) :
    ((fd.write hdr.encode).write bs).append = true ∧
      ((fd.write hdr.encode).write bs).data = fd.data ++ (hdr.encode ++ bs) ∧
      ((fd.write hdr.encode).write bs).offset = ((fd.write hdr.encode).write bs).data.length := by
  have happend' : (fd.write hdr.encode).append = true := by
    rw [OpenFile.write_append]
    exact happend
  have hne : hdr.encode ≠ [] := List.ne_nil_of_length_pos (by simp [DataHdr.size])
  refine ⟨by rw [OpenFile.write_append]; exact happend', ?_, ?_⟩
  · rw [OpenFile.write_of_append happend', OpenFile.write_of_append happend, List.append_assoc]
  · exact OpenFile.write_offset_of_append happend'
      (.inr (OpenFile.write_offset_of_append happend (.inl hne)))

section Written

variable {fd : OpenFile} {n : Fnode}

/-- A dirty node that is written anew. -/
theorem flushDirtyNode_written (happend : fd.append = true)
    (hlen : ((n.cowbuff.getD []).take n.cowlen).length = n.cowlen) (hdirty : n.dirty = .dirty) :
    WrittenTo fd (flushDirtyNode fd n).1 n (flushDirtyNode fd n).2
      ((n.cowbuff.getD []).take n.cowlen) := by
  have hvisible : visibleLen n = n.cowlen := by rw [visibleLen, hdirty]
  have hle := currentHdr_len_le n
  rw [hvisible] at hle
  obtain ⟨happend', hdata, hoffset⟩ := write_write_of_append happend (currentHdr n)
    ((n.cowbuff.getD []).take n.cowlen)
  rw [flushDirtyNode, ← currentHdr_of_dirty hdirty]
  refine ⟨happend', hdata, hlen.trans hvisible.symm, rfl, ?_, rfl⟩
  dsimp only
  rw [hoffset, hdata, List.length_append, List.length_append, hlen]
  omega

/-- A clean node that is written anew, with the bytes that its `read` leaves in the buffer. -/
theorem flushCleanNode_written (fd2 : OpenFile) (happend : fd.append = true)
    (hclean : n.dirty = .clean) (malloced : ℕ → Byte) (offshift : ℕ) :
    WrittenTo fd (flushCleanNode malloced offshift fd fd2 n).1 n
      (flushCleanNode malloced offshift fd fd2 n).2.2
      (resize ((fd2.lseekSet (n.data - offshift)).available n.metaHdr.len.toNat)
        n.metaHdr.len.toNat malloced) := by
  have hhdr := currentHdr_of_clean hclean
  obtain ⟨happend', hdata, hoffset⟩ := write_write_of_append happend n.metaHdr
    (resize ((fd2.lseekSet (n.data - offshift)).available n.metaHdr.len.toNat)
      n.metaHdr.len.toNat malloced)
  refine ⟨happend', by rw [hhdr]; exact hdata, ?_, hhdr.symm, ?_, hclean⟩
  · rw [length_resize, visibleLen, hclean]
  · refine Nat.sub_add_cancel (le_trans ?_ hoffset.ge) |>.trans hoffset
    rw [hdata, List.length_append, List.length_append, length_resize]
    omega

end Written

/-- The bytes that the loop writes for nodes. -/
def emitted (data : List Byte) (ns : List Fnode) : List Byte :=
  ns.flatMap fun n => (currentHdr n).encode ++ content data n

theorem emitted_cons (data : List Byte) (n : Fnode) (ns : List Fnode) :
    emitted data (n :: ns) = (currentHdr n).encode ++ content data n ++ emitted data ns :=
  List.flatMap_cons

theorem emitted_append (data : List Byte) (ns ms : List Fnode) :
    emitted data (ns ++ ms) = emitted data ns ++ emitted data ms :=
  List.flatMap_append

section Rewrite

variable {data : List Byte} {offshift : ℕ}

/-- A node whose bytes the loop can get: all of them are there, and those of a clean node lie in
the copied part of the file. -/
structure Readable (data : List Byte) (offshift : ℕ) (n : Fnode) : Prop where
  le_data : n.dirty = .clean → offshift ≤ n.data
  length_eq : (content data n).length = visibleLen n

/-- The first node written anew, clean or dirty, and the loop on the others. -/
theorem Readable.exists_rewriteLoop_cons {n : Fnode} (hn : Readable data offshift n)
    (malloced : ℕ → Byte) {fd fd2 : OpenFile} (happend : fd.append = true)
    (hfd2 : fd2.data = data.drop offshift) (ns : List Fnode) :
    ∃ fd' fd2' n', rewriteLoop malloced offshift (n :: ns) fd fd2 =
        ((rewriteLoop malloced offshift ns fd' fd2').1,
          n' :: (rewriteLoop malloced offshift ns fd' fd2').2) ∧
      fd2'.data = data.drop offshift ∧ WrittenTo fd fd' n n' (content data n) := by
  have hlen := hn.length_eq
  rw [rewriteLoop]
  cases hdirty : n.dirty with
  | dirty =>
    have hcontent : content data n = (n.cowbuff.getD []).take n.cowlen := by
      rw [content, hdirty]
    rw [hcontent, visibleLen, hdirty] at hlen
    rw [hcontent]
    exact ⟨_, fd2, _, rfl, hfd2, flushDirtyNode_written happend hlen hdirty⟩
  | clean =>
    have hwritten := flushCleanNode_written fd2 happend hdirty malloced offshift
    have hread : (fd2.lseekSet (n.data - offshift)).available n.metaHdr.len.toNat =
        content data n := by
      rw [OpenFile.available, OpenFile.lseekSet_data, OpenFile.lseekSet_offset, hfd2,
        List.drop_drop, Nat.add_sub_cancel' (hn.le_data hdirty), content_of_clean hdirty]
      rfl
    rw [visibleLen, hdirty] at hlen
    rw [hread, resize_of_length hlen] at hwritten
    exact ⟨_, (flushCleanNode malloced offshift fd fd2 n).2.1, _, rfl, hfd2, hwritten⟩

/-- **The nodes written anew** follow each other with their headers and visible bytes, and each of
them is clean and knows its place. -/
theorem rewriteLoop_written (malloced : ℕ → Byte) : (ns : List Fnode) → (fd fd2 : OpenFile) →
    fd.append = true → fd2.data = data.drop offshift → (∀ n ∈ ns, Readable data offshift n) →
    (rewriteLoop malloced offshift ns fd fd2).1.data = fd.data ++ emitted data ns ∧
      ∀ ms₁ m ms₂, ns = ms₁ ++ m :: ms₂ →
        ∃ m', (rewriteLoop malloced offshift ns fd fd2).2[ms₁.length]? = some m' ∧
          m'.metaHdr = currentHdr m ∧ m'.dirty = .clean ∧
          m'.data + m'.metaHdr.len.toNat =
            (fd.data ++ emitted data ms₁ ++ ((currentHdr m).encode ++ content data m)).length
  | [], fd, fd2, _, _, _ => by
      refine ⟨(List.append_nil _).symm, fun ms₁ m ms₂ h => ?_⟩
      exact absurd h (List.append_ne_nil_of_right_ne_nil ms₁ (List.cons_ne_nil m ms₂)).symm
  | n :: ns, fd, fd2, happend, hfd2, hns => by
      have hn := hns n List.mem_cons_self
      have htail : ∀ m ∈ ns, Readable data offshift m :=
        fun m hm => hns m (List.mem_cons_of_mem _ hm)
      obtain ⟨fd', fd2', n', hloop, hfd2', hwritten⟩ :=
        hn.exists_rewriteLoop_cons malloced happend hfd2 ns
      obtain ⟨hdata, hsplit⟩ := rewriteLoop_written malloced ns fd' fd2' hwritten.append_eq
        hfd2' htail
      rw [hloop]
      rw [hwritten.data_eq] at hdata hsplit
      refine ⟨by rw [hdata, emitted_cons, List.append_assoc], fun ms₁ m ms₂ h => ?_⟩
      obtain _ | ⟨c, ms₁⟩ := ms₁
      · obtain ⟨rfl, -⟩ := List.cons.inj h
        refine ⟨n', rfl, hwritten.hdr_eq, hwritten.clean, ?_⟩
        rw [hwritten.data_add_len, hwritten.data_eq, emitted, List.flatMap_nil, List.append_nil]
      · obtain ⟨rfl, htl⟩ := List.cons.inj h
        obtain ⟨m', hm', hhdr, hclean, hplace⟩ := hsplit ms₁ m ms₂ htl
        refine ⟨m', hm', hhdr, hclean, hplace.trans ?_⟩
        rw [emitted_cons, List.append_assoc fd.data]

/-- A node whose bytes can be written anew: a clean one lies in the copied part of the file, a
dirty one has its bytes in `cowbuff`. -/
structure Rewritable (data : List Byte) (offshift : ℕ) (n : Fnode) : Prop where
  clean : n.dirty = .clean →
    offshift ≤ n.data ∧ (onDisc data n).length = n.metaHdr.len.toNat
  dirty : n.dirty = .dirty →
    ∃ b, n.cowbuff = some b ∧ b.length = n.cowlen ∧ n.cowlen < 2 ^ 32

theorem Rewritable.readable {n : Fnode} (h : Rewritable data offshift n) :
    Readable data offshift n ∧ visibleLen n < 2 ^ 32 := by
  rw [visibleLen]
  cases hdirty : n.dirty with
  | clean =>
    obtain ⟨hle, hlen⟩ := h.clean hdirty
    refine ⟨⟨fun _ => hle, ?_⟩, n.metaHdr.len.toNat_lt⟩
    rw [content_of_clean hdirty, visibleLen, hdirty]
    exact hlen
  | dirty =>
    obtain ⟨b, hb, hlen, hlt⟩ := h.dirty hdirty
    refine ⟨⟨fun hclean => ?_, ?_⟩, hlt⟩
    · rw [hdirty] at hclean
      cases hclean
    · rw [content_of_dirty hdirty hb hlen, visibleLen, hdirty]
      exact hlen

/-- Nodes of less than `2^32` bytes are written as records with their keys and visible bytes. -/
theorem exists_records : (ns : List Fnode) →
    (∀ n ∈ ns, (content data n).length = visibleLen n ∧ visibleLen n < 2 ^ 32) →
    ∃ rs, encodeRecords rs = emitted data ns ∧ rs.map recordFile = ns.map (visibleFile data)
  | [], _ => ⟨[], rfl, rfl⟩
  | n :: ns, hns => by
      obtain ⟨hlen, hlt⟩ := hns n List.mem_cons_self
      obtain ⟨rs, hencode, hfile⟩ := exists_records ns
        fun m hm => hns m (List.mem_cons_of_mem _ hm)
      refine ⟨⟨currentHdr n, content data n,
        hlen.trans ((currentHdr_len_eq_iff n).mpr hlt).symm⟩ :: rs, ?_, ?_⟩
      · rw [encodeRecords_cons, hencode, emitted_cons, Record.encode]
      · rw [List.map_cons, List.map_cons, hfile]
        rfl

/-- The nodes written anew are records with their keys and visible bytes. -/
theorem rewriteLoop_data (malloced : ℕ → Byte) (ns : List Fnode) (fd fd2 : OpenFile)
    (happend : fd.append = true) (hfd2 : fd2.data = data.drop offshift)
    (hns : ∀ n ∈ ns, Rewritable data offshift n) :
    ∃ rs, (rewriteLoop malloced offshift ns fd fd2).1.data = fd.data ++ encodeRecords rs ∧
      rs.map recordFile = ns.map (visibleFile data) := by
  obtain ⟨rs, hencode, hfile⟩ := exists_records ns fun n hn =>
    ⟨(hns n hn).readable.1.length_eq, (hns n hn).readable.2⟩
  have hwritten := (rewriteLoop_written malloced ns fd fd2 happend hfd2
    fun n hn => (hns n hn).readable.1).1
  exact ⟨rs, by rw [hwritten, hencode], hfile⟩

/-- The temporary file holds the file from the node on, whatever the block size. -/
theorem rewriteFrom_eq (env : FlushEnv) (fd : OpenFile) (n : Fnode) (ns : List Fnode) :
    ∃ fd' fd2, rewriteFrom env fd n ns = rewriteLoop env.malloced n.data (n :: ns) fd' fd2 ∧
      fd'.append = fd.append ∧
      fd' = (fd.lseekSet (n.data - DataHdr.size)).ftruncate (n.data - DataHdr.size) ∧
      fd2.data = fd.data.drop n.data := by
  have htmp : (⟨[], 0, false⟩ : OpenFile).offset = (⟨[], 0, false⟩ : OpenFile).data.length := rfl
  have hcopy := (OpenFile.sendfile_sendfileTimes htmp (fd.lseekSet n.data) env.blksize
    ((fd.data.length - n.data) / env.blksize) ((fd.data.length - n.data) % env.blksize)).trans
    (OpenFile.sendfile_eq htmp _)
  rw [Nat.div_add_mod] at hcopy
  rw [rewriteFrom]
  dsimp only
  rw [hcopy]
  refine ⟨_, _, rfl, rfl, rfl, ?_⟩
  rw [OpenFile.lseekSet_data, List.nil_append, OpenFile.available, OpenFile.lseekSet_data,
    OpenFile.lseekSet_offset]
  exact List.take_of_length_le (by rw [List.length_drop])

end Rewrite

/-! ### Flushing a session -/

/-- **Flushing without a node of another length** appends the contents of the dirty nodes to the
file and leaves the records as they are. -/
theorem flush_of_not_lengthChanged (env : FlushEnv) {st : TikfsState}
    (happend : st.fd.append = true) (h : ∀ n ∈ st.table, ¬ LengthChanged n) :
    (flush env st).fd.data = st.fd.data ++ st.table.flatMap dirtyBytes := by
  exact (flushLoop_inPlace env st.table st.fd happend h).2.1

/-- The first node of a table lies before all others. -/
theorem NodesOver.data_le {off : ℕ} {rs : List Record} {n m : Fnode} {ns : List Fnode}
    (h : NodesOver off rs (n :: ns)) (hm : m ∈ n :: ns) :
    n.data = off + DataHdr.size ∧ n.data ≤ m.data := by
  cases h with
  | cons hn hns =>
    refine ⟨hn.data_eq, ?_⟩
    rcases List.mem_cons.mp hm with rfl | hmem
    · exact le_rfl
    · have hle := hns.le_data hmem
      rw [hn.data_eq]
      omega

/-- The nodes of a session can be written anew from any of them on, also after a part of the flush
has put bytes behind the records. -/
theorem Session.rewritable {rs : List Record} {st : TikfsState} (h : Session rs st) {m : Fnode}
    (hm : m ∈ st.table) {offshift : ℕ} (hle : offshift ≤ m.data) (rest : List Byte) :
    Rewritable (st.fd.data ++ rest) offshift m := by
  obtain ⟨off, r, -, hover⟩ := h.exists_nodeOver hm
  refine ⟨fun hclean => ⟨hle, ?_⟩, fun hdirty => ?_⟩
  · rw [← content_of_clean hclean, h.content_append hm, content_of_clean hclean]
    exact h.onDisc_length hm
  · obtain ⟨b, hb, hlen, -, hlt⟩ := hover.cow hdirty
    exact ⟨b, hb, hlen, hlt⟩

/-- **Flushing with a node of another length**: the records before the first such node stay as
they are on disc, and from there on the file holds what is visible. -/
theorem flush_of_lengthChanged (env : FlushEnv) {rs : List Record} {st : TikfsState}
    (hst : Session rs st) {ns₁ ns₂ : List Fnode} {n : Fnode} (htable : st.table = ns₁ ++ n :: ns₂)
    (hns₁ : ∀ m ∈ ns₁, ¬ LengthChanged m) (hn : LengthChanged n) :
    ∃ rs₁ rs₂ rs', rs = rs₁ ++ rs₂ ∧ NodesOver FileHdr.size rs₁ ns₁ ∧
      (flush env st).fd.data = encodeDb (rs₁ ++ rs') ∧
      rs'.map recordFile = (n :: ns₂).map (visibleFile st.fd.data) := by
  have hmem : ∀ m ∈ n :: ns₂, m ∈ st.table := fun m hm => by
    rw [htable]
    exact List.mem_append_right ns₁ hm
  have hnodes := hst.nodes
  rw [htable] at hnodes
  obtain ⟨rs₁, rs₂, hrs, hover₁, hover₂⟩ := hnodes.exists_append
  obtain ⟨happend', hdata', -⟩ := flushLoop_inPlace env ns₁ st.fd hst.append_eq hns₁
  obtain ⟨fd, fd2, hrewrite, happend, hfd, hfd2⟩ :=
    rewriteFrom_eq env (flushLoop env ns₁ st.fd).1 n ns₂
  have hflush : (flush env st).fd = (rewriteLoop env.malloced n.data (n :: ns₂) fd fd2).1 := by
    rw [flush_of_split env htable hns₁ hn, hrewrite]
  -- the nodes from `n` on lie behind the place where the file is cut off
  have hrewritable : ∀ m ∈ n :: ns₂, Rewritable (flushLoop env ns₁ st.fd).1.data n.data m :=
      fun m hm => by
    rw [hdata']
    exact hst.rewritable (hmem m hm) (hover₂.data_le hm).2 _
  obtain ⟨rs', hrecords, hrs'⟩ := rewriteLoop_data env.malloced (n :: ns₂) fd fd2
    (happend.trans happend') hfd2 hrewritable
  have hcut : fd.data = encodeDb rs₁ := by
    have hoff : n.data - DataHdr.size = (encodeDb rs₁).length := by
      rw [(hover₂.data_le List.mem_cons_self).1, Nat.add_sub_cancel, encodeDb, List.length_append,
        FileHdr.length_encode]
    have hall : (flushLoop env ns₁ st.fd).1.data =
        encodeDb rs₁ ++ (encodeRecords rs₂ ++ ns₁.flatMap dirtyBytes) := by
      rw [hdata', hst.data_eq, hrs, encodeDb, encodeDb, encodeRecords_append]
      simp only [List.append_assoc]
    rw [hfd, OpenFile.ftruncate_data_of_le, OpenFile.lseekSet_data, hoff, hall, List.take_left]
    rw [OpenFile.lseekSet_data, hoff, hall, List.length_append]
    exact Nat.le_add_right _ _
  refine ⟨rs₁, rs₂, rs', hrs, hover₁, ?_, ?_⟩
  · rw [hflush, hrecords, hcut, encodeDb, encodeDb, encodeRecords_append, List.append_assoc]
  · rw [hrs', hdata']
    refine List.map_congr_left fun m hm => ?_
    rw [visibleFile, visibleFile, hst.content_append (hmem m hm)]

end TikFachpraktika.Tikfs
