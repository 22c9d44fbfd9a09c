import TikFachpraktika.Tikfs.Rewrite

/-!
# The headers that a flush leaves

A flush writes a node of another length, and all nodes after it, with their headers. A node whose
length is unchanged is written without its header, so the header on disc keeps the times from before
the write. A length of `2^32` or more does not fit into a header either.

## Main definitions

* `storedHdr`, `MetaOnDisc`: the header on disc in front of a place, and that it carries the key,
  the length and the time of a node.
* `FlushesMeta`: a flush leaves such a header for every dirty node.
* `MetaSafe`: the states before such a flush.

## Main results

* `metaHdr_of_tikfsInit`: a mount has the headers that are on disc.
* `Mounted.flushesMeta_iff`: when a flush writes the metadata.
-/

namespace TikFachpraktika.Tikfs

open Posix Tikdb Transition

/-- The header on disc in front of the place `pos`. -/
def storedHdr (data : List Byte) (pos : ℕ) : DataHdr :=
  DataHdr.decode ((data.drop (pos - DataHdr.size)).take DataHdr.size)

/-- The header on disc in front of the place `pos` has the key, the current length and the
modification time of the node `n`. -/
structure MetaOnDisc (data : List Byte) (pos : ℕ) (n : Fnode) : Prop where
  key_eq : (storedHdr data pos).key = n.metaHdr.key
  len_eq : (storedHdr data pos).len.toNat = visibleLen n
  tsW_eq : (storedHdr data pos).tsW = n.metaHdr.tsW

/-- After the flush the header of every node that was dirty is on disc. -/
def FlushesMeta (env : FlushEnv) (st : TikfsState) : Prop :=
  ∀ (i : ℕ) (n n' : Fnode), st.table[i]? = some n → n.dirty = .dirty →
    (flush env st).table[i]? = some n' → MetaOnDisc (flush env st).fd.data n'.data n

/-- A flush writes the node `i` anew: this node or one before it has another length. -/
def WrittenAnew (st : TikfsState) (i : ℕ) : Prop :=
  ∃ n ∈ st.table.take (i + 1), LengthChanged n

/-- A dirty node that is written anew is shorter than `2^32` bytes, and the header of any other
dirty node is on disc before the flush. -/
def MetaSafe (st : TikfsState) : Prop :=
  ∀ (i : ℕ) (n : Fnode), st.table[i]? = some n → n.dirty = .dirty →
    (WrittenAnew st i → visibleLen n < 2 ^ 32) ∧
      (¬ WrittenAnew st i → MetaOnDisc st.fd.data n.data n)

/-! ### Headers on disc -/

/-- The header in front of a place depends on the file up to this place. -/
theorem storedHdr_congr {data data' : List Byte} {k pos : ℕ} (h : data'.take k = data.take k)
    (hsize : DataHdr.size ≤ pos) (hpos : pos ≤ k) : storedHdr data' pos = storedHdr data pos := by
  have hcut (bs : List Byte) : (bs.drop (pos - DataHdr.size)).take DataHdr.size =
      (((bs.take k).drop (pos - DataHdr.size)).take DataHdr.size) := by
    rw [List.drop_take, List.take_take, Nat.min_eq_left (by omega)]
  rw [storedHdr, storedHdr, hcut, h, ← hcut]

theorem storedHdr_append (pre : List Byte) (hdr : DataHdr) (rest : List Byte) :
    storedHdr (pre ++ hdr.encode ++ rest) (pre ++ hdr.encode).length = hdr := by
  rw [storedHdr, List.length_append, DataHdr.length_encode, Nat.add_sub_cancel,
    List.append_assoc, List.drop_left, List.take_left' (DataHdr.length_encode hdr),
    DataHdr.decode_encode]

/-- The loop of a mount enters the headers that are on disc. -/
theorem metaHdr_of_buildCacheLoop {fd fd' : OpenFile} {table table' : List Fnode}
    {tableLen block : ℕ} (h : buildCacheLoop fd table tableLen block = .ok (fd', table'))
    (htable : ∀ n ∈ table, n.metaHdr = storedHdr fd.data n.data) :
    ∀ n ∈ table', n.metaHdr = storedHdr fd.data n.data := by
  induction fd, table, tableLen, block using buildCacheLoop.induct with
  | case1 fd table tableLen block hblock =>
    rw [buildCacheLoop, if_pos hblock] at h
    cases h
  | case2 fd table tableLen block hblock hret =>
    rw [buildCacheLoop, if_neg hblock, if_pos hret] at h
    cases h
    exact htable
  | case3 fd table tableLen block hblock hret hhdr =>
    rw [buildCacheLoop, if_neg hblock, if_neg hret, dif_pos hhdr] at h
    cases h
  | case4 fd table tableLen block hblock hret hhdr hdr hzero =>
    rw [buildCacheLoop, if_neg hblock, if_neg hret, dif_neg hhdr] at h
    replace h := (if_pos hzero).symm.trans h
    cases h
  | case5 fd table tableLen block hblock hret hhdr hdr fd' hzero full ih =>
    rw [buildCacheLoop, if_neg hblock, if_neg hret, dif_neg hhdr] at h
    refine ih ((if_neg hzero).symm.trans h) fun n hn => ?_
    rcases List.mem_append.mp hn with hmem | hmem
    · exact htable n hmem
    · obtain rfl := List.mem_singleton.mp hmem
      have hlen : (fd.available DataHdr.size).length = DataHdr.size :=
        Nat.cast_injective (not_not.mp hhdr)
      have hoff : (cleanNode hdr fd'.offset).data = fd.offset + DataHdr.size := by
        rw [← hlen]
        rfl
      rw [storedHdr, hoff, Nat.add_sub_cancel]
      rfl

/-- A fresh mount has the headers that are on disc. -/
theorem metaHdr_of_tikfsInit {data : List Byte} {st : TikfsState} (h : tikfsInit data = .ok st)
    {n : Fnode} (hn : n ∈ st.table) : n.metaHdr = storedHdr data n.data := by
  rw [tikfsInit] at h
  obtain ⟨fd, hcheck, hbuild⟩ := exists_of_bind_eq_ok h
  rw [buildCache] at hbuild
  obtain ⟨⟨fd', table⟩, hloop, hst⟩ := exists_of_bind_eq_ok hbuild
  cases hst
  have hdata : fd.data = data := by
    rw [checkSuperblock] at hcheck
    dsimp only at hcheck
    split_ifs at hcheck
    cases hcheck
    rfl
  rw [← hdata]
  exact metaHdr_of_buildCacheLoop hloop (List.forall_mem_nil _) n hn

/-! ### Headers after a flush -/

/-- A node at a position of a table in two parts. -/
theorem exists_of_getElem?_append {ns ms : List Fnode} {i : ℕ} {n : Fnode}
    (hi : (ns ++ ms)[i]? = some n) (hle : ns.length ≤ i) :
    ∃ ms₁ ms₂, ms = ms₁ ++ n :: ms₂ ∧ i = ns.length + ms₁.length := by
  rw [List.getElem?_append_right hle] at hi
  obtain ⟨hlt, rfl⟩ := List.getElem?_eq_some_iff.mp hi
  refine ⟨ms.take (i - ns.length), ms.drop (i - ns.length + 1), ?_, ?_⟩
  · rw [List.cons_getElem_drop_succ, List.take_append_drop]
  · rw [List.length_take]
    omega

section Flushed

variable {st : TikfsState} {i : ℕ} {n : Fnode}

/-- The place of a node has room for its header before it, and lies in the file. -/
theorem Mounted.size_le_data (h : Mounted st) (hn : n ∈ st.table) :
    DataHdr.size ≤ n.data ∧ n.data + n.metaHdr.len.toNat ≤ st.fd.data.length := by
  obtain ⟨ns₁, ns₂, htable⟩ := List.append_of_mem hn
  have hlaid := h.laidOut
  rw [htable] at hlaid
  obtain ⟨mid, hfirst, hsecond⟩ := hlaid.exists_append
  have hlo := hsecond.1
  exact ⟨by omega, h.laidOut.le_of_mem hn⟩

/-- A flush writes the nodes anew from the first one of another length on. -/
theorem writtenAnew_iff_of_split {ns₁ ns₂ : List Fnode} {c : Fnode}
    (htable : st.table = ns₁ ++ c :: ns₂) (hns₁ : ∀ m ∈ ns₁, ¬ LengthChanged m)
    (hc : LengthChanged c) : WrittenAnew st i ↔ ns₁.length ≤ i := by
  rw [WrittenAnew, htable]
  constructor
  · rintro ⟨m, hm, hchanged⟩
    by_contra hlt
    rw [List.take_append_of_le_length (by omega)] at hm
    exact hns₁ m (List.mem_of_mem_take hm) hchanged
  · intro hle
    refine ⟨c, ?_, hc⟩
    obtain ⟨k, hk⟩ := Nat.exists_eq_add_of_le hle
    rw [List.take_append, hk, Nat.add_assoc, Nat.add_sub_cancel_left]
    exact List.mem_append_right _ List.mem_cons_self

/-- A node that is written anew has its header on disc if and only if its length fits into it. -/
theorem metaOnDisc_of_writtenAnew (h : Mounted st) (env : FlushEnv) {n' : Fnode}
    (hi : st.table[i]? = some n) (hn' : (flush env st).table[i]? = some n')
    (hanew : WrittenAnew st i) :
    MetaOnDisc (flush env st).fd.data n'.data n ↔ visibleLen n < 2 ^ 32 := by
  obtain hnone | ⟨ns₁, c, ns₂, htable, hc, hns₁⟩ := exists_first_lengthChanged st.table
  · obtain ⟨m, hm, hchanged⟩ := hanew
    exact absurd hchanged (hnone m (List.mem_of_mem_take hm))
  · rw [writtenAnew_iff_of_split htable hns₁ hc] at hanew
    rw [htable] at hi
    obtain ⟨ms₁, ms₂, hms, hidx⟩ := exists_of_getElem?_append hi hanew
    obtain ⟨happend, hdata, hinPlace⟩ := flushLoop_inPlace env ns₁ st.fd h.append_eq hns₁
    have hlen : (flushLoop env ns₁ st.fd).2.length = ns₁.length := by
      rw [hinPlace, List.length_map]
    rw [flush_of_split env htable hns₁ hc] at hn' ⊢
    dsimp only at hn' ⊢
    rw [List.getElem?_append_right (hlen.le.trans hanew), hlen, hidx,
      Nat.add_sub_cancel_left] at hn'
    constructor
    · intro hmeta
      rw [← hmeta.len_eq]
      exact UInt32.toNat_lt _
    · intro hlt
      obtain ⟨m', hm', hwritten⟩ := h.rewrittenAt htable env happend hdata hms hlt
      obtain rfl := Option.some.inj (hm'.symm.trans hn')
      obtain ⟨post, hafter⟩ := hwritten.file_eq
      have hstored : storedHdr (rewriteFrom env (flushLoop env ns₁ st.fd).1 c ns₂).1.data
          m'.data = currentHdr n := by
        rw [hwritten.data_eq, hafter, storedHdr_append]
      exact ⟨by rw [hstored]; rfl, by rw [hstored]; exact (currentHdr_len_eq_iff n).mpr hlt,
        by rw [hstored]; rfl⟩

/-- A node that is not written anew keeps its place and the file before it. -/
theorem flush_of_not_writtenAnew (h : Mounted st) (env : FlushEnv)
    (hi : st.table[i]? = some n) (hanew : ¬ WrittenAnew st i) :
    (flush env st).table[i]? = some (flushedInPlace n) ∧
      ∃ k, n.data ≤ k ∧ (flush env st).fd.data.take k = st.fd.data.take k := by
  have hle := (h.size_le_data (List.mem_of_getElem? hi)).2
  obtain hnone | ⟨ns₁, c, ns₂, htable, hc, hns₁⟩ := exists_first_lengthChanged st.table
  · obtain ⟨-, hdata, hinPlace⟩ := flushLoop_inPlace env st.table st.fd h.append_eq hnone
    refine ⟨?_, st.fd.data.length, by omega, ?_⟩
    · rw [flush_table, hinPlace, List.getElem?_map, hi, Option.map_some]
    · rw [flush_fd, hdata, List.take_left, List.take_length]
  · rw [writtenAnew_iff_of_split htable hns₁ hc, Nat.not_le] at hanew
    obtain ⟨happend, hdata, hinPlace⟩ := flushLoop_inPlace env ns₁ st.fd h.append_eq hns₁
    have hi₁ : ns₁[i]? = some n := by
      rw [← hi, htable, List.getElem?_append_left hanew]
    have hlaid := h.laidOut
    rw [htable] at hlaid
    obtain ⟨mid, hfirst, hsecond⟩ := hlaid.exists_append
    have hbefore := hfirst.le_of_mem (List.mem_of_getElem? hi₁)
    have hcut := hsecond.1
    refine ⟨?_, c.data - DataHdr.size, by omega, ?_⟩
    · rw [flush_of_split env htable hns₁ hc, hinPlace]
      dsimp only
      rw [List.getElem?_append_left (by rw [List.length_map]; exact hanew), List.getElem?_map,
        hi₁, Option.map_some]
    · have hend := h.laidOut.le_of_mem (htable ▸ List.mem_append_right ns₁ List.mem_cons_self)
      rw [flush_of_split env htable hns₁ hc, (h.rewriteFrom_written htable env happend hdata).1,
        List.take_left' (by rw [List.length_take]; omega)]

theorem data_flushedInPlace (n : Fnode) : (flushedInPlace n).data = n.data := by
  rw [flushedInPlace]
  cases n.dirty <;> rfl

/-- A node that is not written anew keeps its header on disc. -/
theorem metaOnDisc_of_not_writtenAnew (h : Mounted st) (env : FlushEnv) {n' : Fnode}
    (hi : st.table[i]? = some n) (hn' : (flush env st).table[i]? = some n')
    (hanew : ¬ WrittenAnew st i) :
    MetaOnDisc (flush env st).fd.data n'.data n ↔ MetaOnDisc st.fd.data n.data n := by
  obtain ⟨hnode, k, hk, htake⟩ := flush_of_not_writtenAnew h env hi hanew
  obtain rfl := Option.some.inj (hnode.symm.trans hn')
  have hstored := storedHdr_congr htake (h.size_le_data (List.mem_of_getElem? hi)).1 hk
  rw [data_flushedInPlace]
  constructor
  · exact fun hmeta => ⟨hstored ▸ hmeta.key_eq, hstored ▸ hmeta.len_eq, hstored ▸ hmeta.tsW_eq⟩
  · exact fun hmeta => ⟨hstored ▸ hmeta.key_eq, hstored ▸ hmeta.len_eq, hstored ▸ hmeta.tsW_eq⟩

/-- **When a flush writes the metadata**: the header of every dirty node is on disc afterwards if
and only if every dirty node that is written anew is shorter than `2^32` bytes and every other dirty
node has its header on disc already. -/
theorem Mounted.flushesMeta_iff (h : Mounted st) (env : FlushEnv) :
    FlushesMeta env st ↔ MetaSafe st := by
  constructor
  · intro hflushes i n hi hdirty
    obtain ⟨n', hn'⟩ : ∃ n', (Tikfs.flush env st).table[i]? = some n' := by
      obtain ⟨hlt, -⟩ := List.getElem?_eq_some_iff.mp hi
      rw [← length_flushLoop env st.table st.fd] at hlt
      exact ⟨_, List.getElem?_eq_getElem hlt⟩
    have hmeta := hflushes i n n' hi hdirty hn'
    exact ⟨fun hanew => (metaOnDisc_of_writtenAnew h env hi hn' hanew).mp hmeta,
      fun hanew => (metaOnDisc_of_not_writtenAnew h env hi hn' hanew).mp hmeta⟩
  · intro hsafe i n n' hi hdirty hn'
    by_cases hanew : WrittenAnew st i
    · exact (metaOnDisc_of_writtenAnew h env hi hn' hanew).mpr ((hsafe i n hi hdirty).1 hanew)
    · exact (metaOnDisc_of_not_writtenAnew h env hi hn' hanew).mpr ((hsafe i n hi hdirty).2 hanew)

end Flushed

end TikFachpraktika.Tikfs
