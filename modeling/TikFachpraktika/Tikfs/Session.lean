import TikFachpraktika.Tikfs.Calls

/-!
# Sessions on a mounted file

What holds between mounting a well-formed file and flushing it: the calls leave the file alone,
and the nodes lie over the records of the file one by one, a dirty node with its bytes in
`cowbuff`.

## Main definitions

* `NodeOver`, `NodesOver`: a node over a record, and a table over the records of a file.
* `Session`: a mounted file system over a list of records.

## Main results

* `session_of_tikfsInit`: mounting starts a session.
* `Session.after`: calls keep it.
-/

namespace TikFachpraktika.Tikfs

open Posix Tikdb

/-- A node over the record `r` that starts at offset `off` of the file. -/
structure NodeOver (off : ℕ) (r : Record) (n : Fnode) : Prop where
  data_eq : n.data = off + DataHdr.size
  key_eq : n.metaHdr.key = r.hdr.key
  len_eq : n.metaHdr.len = r.hdr.len
  cow : n.dirty = .dirty →
    ∃ b, n.cowbuff = some b ∧ b.length = n.cowlen ∧ 0 < n.cowlen ∧ n.cowlen < 2 ^ 32

/-- The nodes of a table over the records that start at offset `off` of the file. -/
inductive NodesOver : ℕ → List Record → List Fnode → Prop
  | nil (off : ℕ) : NodesOver off [] []
  | cons {off : ℕ} {r : Record} {n : Fnode} {rs : List Record} {ns : List Fnode}
      (hn : NodeOver off r n) (hns : NodesOver (off + r.encode.length) rs ns) :
      NodesOver off (r :: rs) (n :: ns)

/-- A mounted file system over the records `rs`. -/
structure Session (rs : List Record) (st : TikfsState) : Prop where
  data_eq : st.fd.data = encodeDb rs
  append_eq : st.fd.append = true
  nodes : NodesOver FileHdr.size rs st.table

/-! ### Tables over records -/

theorem nodesOver_cleanNodes : (off : ℕ) → (rs : List Record) →
    NodesOver off rs (cleanNodes off rs)
  | off, [] => .nil off
  | off, r :: rs =>
      .cons ⟨rfl, rfl, rfl, fun h => by cases h⟩ (nodesOver_cleanNodes (off + r.encode.length) rs)

theorem dirty_of_mem_cleanNodes {n : Fnode} : {off : ℕ} → {rs : List Record} →
    n ∈ cleanNodes off rs → n.dirty = .clean
  | off, r :: rs, h => by
      rcases List.mem_cons.mp h with rfl | hmem
      · rfl
      · exact dirty_of_mem_cleanNodes hmem

theorem NodesOver.length_eq {off : ℕ} {rs : List Record} {ns : List Fnode}
    (h : NodesOver off rs ns) : ns.length = rs.length := by
  induction h with
  | nil off => rfl
  | cons hn hns ih => rw [List.length_cons, List.length_cons, ih]

/-- A node may be replaced by one over the same record. -/
theorem NodesOver.set {off : ℕ} {rs : List Record} {ns : List Fnode} (h : NodesOver off rs ns)
    {i : ℕ} {n n' : Fnode} (hi : ns[i]? = some n)
    (hn' : ∀ off r, NodeOver off r n → NodeOver off r n') : NodesOver off rs (ns.set i n') := by
  induction h generalizing i with
  | nil off => exact .nil off
  | cons hn hns ih =>
    cases i with
    | zero =>
      obtain rfl := Option.some.inj hi
      exact .cons (hn' _ _ hn) hns
    | succ i => exact .cons hn (ih hi)

theorem NodesOver.le_data {off : ℕ} {rs : List Record} {ns : List Fnode}
    (h : NodesOver off rs ns) {n : Fnode} (hn : n ∈ ns) : off + DataHdr.size ≤ n.data := by
  induction h with
  | nil off => cases hn
  | cons hm hns ih =>
    rcases List.mem_cons.mp hn with rfl | hmem
    · exact hm.data_eq.ge
    · exact (Nat.add_le_add_right (Nat.le_add_right _ _) _).trans (ih hmem)

/-- A table in two parts lies over two parts of the records. -/
theorem NodesOver.exists_append {ms : List Fnode} : {ns : List Fnode} → {off : ℕ} →
    {rs : List Record} → NodesOver off rs (ns ++ ms) →
    ∃ rs₁ rs₂, rs = rs₁ ++ rs₂ ∧ NodesOver off rs₁ ns ∧
      NodesOver (off + (encodeRecords rs₁).length) rs₂ ms
  | [], off, rs, h => ⟨[], rs, rfl, .nil off, h⟩
  | n :: ns, off, r :: rs, .cons hn hns => by
      obtain ⟨rs₁, rs₂, rfl, hfirst, hsecond⟩ := hns.exists_append
      refine ⟨r :: rs₁, rs₂, rfl, .cons hn hfirst, ?_⟩
      rw [encodeRecords_cons, List.length_append, ← Nat.add_assoc]
      exact hsecond

/-- A node of the table with its record and the bytes around it. -/
theorem NodesOver.exists_split {off : ℕ} {rs : List Record} {ns : List Fnode}
    (h : NodesOver off rs ns) {pre : List Byte} (hpre : pre.length = off) (rest : List Byte)
    {n : Fnode} (hn : n ∈ ns) :
    ∃ r ∈ rs, ∃ a c, pre ++ encodeRecords rs ++ rest = a ++ r.val ++ c ∧ a.length = n.data ∧
      NodeOver (a.length - DataHdr.size) r n := by
  induction h generalizing pre with
  | nil off => cases hn
  | @cons off r m rs ns hm hns ih =>
    rw [encodeRecords_cons]
    rcases List.mem_cons.mp hn with rfl | hmem
    · have hlen : (pre ++ r.hdr.encode).length = n.data := by
        rw [hm.data_eq, List.length_append, hpre, DataHdr.length_encode]
      refine ⟨r, List.mem_cons_self, pre ++ r.hdr.encode, encodeRecords rs ++ rest,
        by simp [Record.encode], hlen, ?_⟩
      rw [hlen, hm.data_eq, Nat.add_sub_cancel]
      exact hm
    · have hnext : (pre ++ r.encode).length = off + r.encode.length := by
        rw [List.length_append, hpre]
      obtain ⟨r', hr', a, c, hdata, hlen, hover⟩ := ih hnext hmem
      refine ⟨r', List.mem_cons_of_mem _ hr', a, c, ?_, hlen, hover⟩
      rw [← hdata]
      simp only [List.append_assoc]

/-- A node over a record reads the payload of the record from disc. -/
theorem NodeOver.onDisc_eq {off : ℕ} {r : Record} {n : Fnode} (hn : NodeOver off r n)
    {data a c : List Byte} (hdata : data = a ++ r.val ++ c) (ha : a.length = n.data) :
    onDisc data n = r.val := by
  rw [onDisc, hn.len_eq, hdata, List.append_assoc, ← ha, List.drop_left,
    List.take_left' r.length_val]

theorem content_of_clean {n : Fnode} (hclean : n.dirty = .clean) (data : List Byte) :
    content data n = onDisc data n := by
  rw [content, hclean]

theorem content_of_dirty {n : Fnode} (hdirty : n.dirty = .dirty) {b : List Byte}
    (hb : n.cowbuff = some b) (hlen : b.length = n.cowlen) (data : List Byte) :
    content data n = b := by
  rw [content, hdirty, hb]
  exact List.take_of_length_le hlen.le

theorem NodeOver.content_of_dirty {off : ℕ} {r : Record} {n : Fnode} (hn : NodeOver off r n)
    (hdirty : n.dirty = .dirty) (data : List Byte) :
    n.cowbuff = some (content data n) ∧ (content data n).length = n.cowlen := by
  obtain ⟨b, hb, hlen, -⟩ := hn.cow hdirty
  rw [Tikfs.content_of_dirty hdirty hb hlen]
  exact ⟨hb, hlen⟩

/-- Bytes after the end of the file do not show in the contents. -/
theorem content_append_of_length {data : List Byte} {n : Fnode}
    (hlen : (content data n).length = visibleLen n) (rest : List Byte) :
    content (data ++ rest) n = content data n := by
  cases hdirty : n.dirty with
  | clean =>
    rw [content_of_clean hdirty, visibleLen, hdirty, onDisc, List.length_take] at hlen
    dsimp only at hlen
    rw [content_of_clean hdirty, content_of_clean hdirty, onDisc, onDisc, List.drop_append,
      List.take_append_of_le_length]
    omega
  | dirty => rw [content, content, hdirty]

namespace Session

variable {rs : List Record} {st : TikfsState}

/-- The bytes of the nodes of a session are where the checks of `tikfs_read` expect them. -/
theorem onDisc_length (h : Session rs st) {n : Fnode} (hn : n ∈ st.table) :
    (onDisc st.fd.data n).length = n.metaHdr.len.toNat := by
  obtain ⟨r, -, a, c, hdata, ha, hover⟩ :=
    h.nodes.exists_split (FileHdr.length_encode superblock) [] hn
  rw [h.data_eq, hover.onDisc_eq (by rw [← hdata, List.append_nil]; rfl) ha, r.length_val,
    hover.len_eq]

theorem exists_nodeOver (h : Session rs st) {n : Fnode} (hn : n ∈ st.table) :
    ∃ off, ∃ r ∈ rs, NodeOver off r n := by
  obtain ⟨r, hr, a, -, -, -, hover⟩ :=
    h.nodes.exists_split (FileHdr.length_encode superblock) [] hn
  exact ⟨_, r, hr, hover⟩

theorem content_length (h : Session rs st) {n : Fnode} (hn : n ∈ st.table) :
    (content st.fd.data n).length = visibleLen n ∧ visibleLen n < 2 ^ 32 := by
  obtain ⟨off, r, -, hover⟩ := h.exists_nodeOver hn
  rw [visibleLen]
  cases hdirty : n.dirty with
  | clean =>
    rw [content_of_clean hdirty]
    exact ⟨h.onDisc_length hn, n.metaHdr.len.toNat_lt⟩
  | dirty =>
    obtain ⟨b, -, -, -, hlt⟩ := hover.cow hdirty
    exact ⟨(hover.content_of_dirty hdirty _).2, hlt⟩

/-- Bytes after the records do not show in the contents. -/
theorem content_append (h : Session rs st) {n : Fnode} (hn : n ∈ st.table) (rest : List Byte) :
    content (st.fd.data ++ rest) n = content st.fd.data n :=
  content_append_of_length (h.content_length hn).1 rest

end Session

/-! ### Calls -/

/-- A read changes the read time of its node and nothing else. -/
theorem readNode_node (fd : OpenFile) (n : Fnode) (size offset : ℕ) (now : Int64) :
    (readNode fd n size offset now).2.2.2 =
      if offset > visibleLen n then n
      else { n with metaHdr := { n.metaHdr with tsR := now } } := by
  rw [readNode]
  split_ifs with hoff
  · rfl
  · dsimp only
    split <;> rfl

theorem readNode_data (fd : OpenFile) (n : Fnode) (size offset : ℕ) (now : Int64) :
    (readNode fd n size offset now).2.2.1.data = fd.data ∧
      (readNode fd n size offset now).2.2.1.append = fd.append := by
  rw [readNode]
  split_ifs with hoff
  · exact ⟨rfl, rfl⟩
  · dsimp only
    split <;> exact ⟨rfl, rfl⟩

/-- A read keeps its node over its record. -/
theorem NodeOver.readNode {off : ℕ} {r : Record} {n : Fnode} (hn : NodeOver off r n)
    (fd : OpenFile) (size offset : ℕ) (now : Int64) :
    NodeOver off r (readNode fd n size offset now).2.2.2 := by
  rw [readNode_node]
  split_ifs with hoff
  · exact hn
  · exact ⟨hn.data_eq, hn.key_eq, hn.len_eq, hn.cow⟩

theorem length_resize (bs : List Byte) (n : ℕ) (fresh : ℕ → Byte) :
    (resize bs n fresh).length = n := by
  rw [resize, List.length_append, List.length_take, List.length_map, List.length_range]
  omega

theorem resize_of_length {bs : List Byte} {n : ℕ} (h : bs.length = n) (fresh : ℕ → Byte) :
    resize bs n fresh = bs := by
  rw [resize, ← h, List.take_length, Nat.sub_self]
  exact List.append_nil bs

theorem resize_of_le {bs : List Byte} {n : ℕ} (h : n ≤ bs.length) (fresh : ℕ → Byte) :
    resize bs n fresh = bs.take n := by
  rw [resize, Nat.sub_eq_zero_of_le h]
  exact List.append_nil _

/-- The start of a resized block. -/
theorem take_resize {bs : List Byte} {m n : ℕ} (h : m ≤ n) (fresh : ℕ → Byte) :
    (resize bs n fresh).take m = resize bs m fresh := by
  rw [resize, resize, List.take_append, List.take_take, Nat.min_eq_left h, List.length_take,
    ← List.map_take, List.take_range]
  congr 3
  omega

/-- **The bytes that a write leaves**: the block up to its offset, and its bytes. -/
theorem cowbuff_storeCow (n : Fnode) (cow : List Byte) {buff : List Byte} {offset : ℕ}
    (hlt : offset + buff.length < 2 ^ 64) (env : WriteEnv) :
    (storeCow n cow buff offset env).cowbuff =
      some (resize cow offset env.realloced ++ buff) := by
  have hblock : (if offset + buff.length ≠ cow.length then
      resize cow (offset + buff.length) env.realloced else cow) =
        resize cow (offset + buff.length) env.realloced := by
    split_ifs with hlen
    · rfl
    · exact (resize_of_length (not_not.mp hlen).symm _).symm
  have hnone : (resize cow (offset + buff.length) env.realloced).drop (offset + buff.length) = [] :=
    List.drop_eq_nil_of_le (length_resize _ _ _).le
  simp only [storeCow, Nat.mod_eq_of_lt hlt, hblock, memcpyAt, hnone, List.append_nil,
    take_resize (Nat.le_add_right offset buff.length)]

theorem cowlen_storeCow (n : Fnode) (cow : List Byte) {buff : List Byte} {offset : ℕ}
    (hlt : offset + buff.length < 2 ^ 64) (env : WriteEnv) :
    (storeCow n cow buff offset env).cowlen = offset + buff.length :=
  Nat.mod_eq_of_lt hlt

/-- The end of a write keeps the node over its record. -/
theorem NodeOver.storeCow {off : ℕ} {r : Record} {n : Fnode} (hn : NodeOver off r n)
    (cow : List Byte) {buff : List Byte} {offset : ℕ} (hbuff : buff ≠ [])
    (hlt : offset + buff.length < 2 ^ 32) (env : WriteEnv) :
    NodeOver off r (storeCow n cow buff offset env) := by
  have hpos : 0 < buff.length := List.length_pos_iff.mpr hbuff
  have hcowlen := cowlen_storeCow n cow (by omega : offset + buff.length < 2 ^ 64) env
  refine ⟨hn.data_eq, hn.key_eq, hn.len_eq, fun _ =>
    ⟨_, cowbuff_storeCow n cow (by omega) env, ?_, ?_, ?_⟩⟩
  · rw [List.length_append, length_resize, hcowlen]
  · omega
  · omega

/-- The copy of the first write, when the node is on disc and the `read` succeeds. -/
theorem copyNode_full {fd : OpenFile} {n : Fnode}
    (hlen : (onDisc fd.data n).length = n.metaHdr.len.toNat) {env : WriteEnv}
    (henv : env.answer = .full) :
    copyNode fd n env = (fd.lseekSet (n.data + n.metaHdr.len.toNat), some (onDisc fd.data n)) := by
  have havail : (fd.lseekSet n.data).available n.metaHdr.len.toNat = onDisc fd.data n := rfl
  have hsize : cSizeT (n.metaHdr.len.toNat : ℤ) = n.metaHdr.len.toNat :=
    cSizeT_natCast (by have := n.metaHdr.len.toNat_lt; omega)
  simp only [copyNode, henv, OpenFile.read, havail, hlen, hsize, Nat.lt_irrefl, ↓reduceIte,
    resize_of_length hlen]
  rfl

/-- A write to a node on disc keeps it over its record. -/
theorem NodeOver.writeNode {off : ℕ} {r : Record} {n : Fnode} (hn : NodeOver off r n)
    {fd : OpenFile} (hlen : (onDisc fd.data n).length = n.metaHdr.len.toNat) {buff : List Byte}
    {offset : ℕ} (hbuff : buff ≠ []) (hlt : offset + buff.length < 2 ^ 32) {env : WriteEnv}
    (henv : env.answer = .full) : NodeOver off r (writeNode fd n buff offset env).2.2 := by
  rw [Tikfs.writeNode]
  cases hdirty : n.dirty with
  | clean =>
    rw [copyNode_full hlen henv]
    exact hn.storeCow _ hbuff hlt env
  | dirty => exact hn.storeCow _ hbuff hlt env

theorem writeNode_data (fd : OpenFile) (n : Fnode) (buff : List Byte) (offset : ℕ)
    (env : WriteEnv) :
    (writeNode fd n buff offset env).2.1.data = fd.data ∧
      (writeNode fd n buff offset env).2.1.append = fd.append := by
  rw [writeNode]
  cases n.dirty with
  | clean =>
    rw [copyNode]
    dsimp only
    split_ifs with hshort <;>
      exact ⟨OpenFile.read_data _ _ _, OpenFile.read_append _ _ _⟩
  | dirty => exact ⟨rfl, rfl⟩

namespace Session

variable {rs : List Record} {st : TikfsState}

/-- **A call keeps the session.** -/
theorem call (h : Session rs st) {c : Call} (hc : c.Valid) : Session rs (st.call c) := by
  cases c with
  | read path size offset now =>
    rw [TikfsState.call]
    obtain ⟨i, n, hfile, hn⟩ | hnone := file_cases st path
    · rw [tikfsRead_of_file hfile hn]
      obtain ⟨hdata, happend⟩ := readNode_data st.fd n size offset now
      exact ⟨hdata.trans h.data_eq, happend.trans h.append_eq,
        h.nodes.set hn fun _ _ hover => hover.readNode st.fd size offset now⟩
    · rw [tikfsRead_of_not_file hnone]
      exact h
  | write path buff offset env =>
    obtain ⟨hbuff, hlt, henv⟩ := hc
    rw [TikfsState.call]
    obtain ⟨i, n, hfile, hn⟩ | hnone := file_cases st path
    · rw [tikfsWrite_of_file hfile hn]
      obtain ⟨hdata, happend⟩ := writeNode_data st.fd n buff offset env
      have hlen := h.onDisc_length (List.mem_of_getElem? hn)
      exact ⟨hdata.trans h.data_eq, happend.trans h.append_eq,
        h.nodes.set hn fun _ _ hover => hover.writeNode hlen hbuff hlt henv⟩
    · rw [tikfsWrite_of_not_file hnone]
      exact h

/-- **Calls keep the session.** -/
theorem after (h : Session rs st) {calls : List Call} (hcalls : ∀ c ∈ calls, c.Valid) :
    Session rs (st.after calls) := by
  induction calls generalizing st with
  | nil => exact h
  | cons c calls ih =>
    exact ih (h.call (hcalls c List.mem_cons_self))
      fun c' hc' => hcalls c' (List.mem_cons_of_mem _ hc')

end Session

/-- **Mounting starts a session.** -/
theorem session_of_tikfsInit {rs : List Record} {st : TikfsState}
    (h : tikfsInit (encodeDb rs) = .ok st) : rs.length < initSlots ∧ Session rs st := by
  obtain ⟨-, hlt, rfl⟩ := eq_of_tikfsInit h
  exact ⟨hlt, rfl, rfl, nodesOver_cleanNodes _ _⟩

end TikFachpraktika.Tikfs
