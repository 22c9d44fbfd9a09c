import TikFachpraktika.Tikfs.Acceptance
import TikFachpraktika.Tikfs.Headers
import TikFachpraktika.Tikfs.KeyOrder

/-!
# Mounting a flushed file

A mount reads the headers one after the other from the superblock on. As long as no flush has cut a
length to 32 bits, the file begins with one record for each node of the table, and a flush of a node
of another length leaves nothing else in it. Without such a node the flush puts the buffers of the
dirty nodes behind the last record, where a mount looks for further headers.

## Main definitions

* `KeepsMtime`: a later mount reports the modification times of the nodes that were dirty.
* `Intact`: the records at the start of the file are those of the nodes.
* `Fits`: a flush that cuts no length.
* `Remounts`: the states before a flush whose file is mounted again.

## Main results

* `Intact.perform`: calls keep the records.
* `keepsMeta_iff`: when a flush writes the metadata, so that a later mount reports the times.
* `not_forall_flushesMeta`: not every flush does.
-/

namespace TikFachpraktika.Tikfs

open Posix Tikdb Transition

/-- For every node that was dirty, the flushed file can be mounted, and `tikfs_getattr` then reports
the modification time of this node for all paths that have led to it. -/
def KeepsMtime (env : FlushEnv) (st : TikfsState) : Prop :=
  ∀ (i : ℕ) (n : Fnode), st.table[i]? = some n → n.dirty = .dirty →
    ∃ st', tikfsInit (flush env st).fd.data = .ok st' ∧
      ∀ path, fileType st.table path = .file i → ∀ senv stbuf,
        (tikfsGetattr st' path senv stbuf).1 = 0 ∧
          (tikfsGetattr st' path senv stbuf).2.mtime = n.metaHdr.tsW

/-- The place, the key and the length of a node. -/
def Fnode.entry (n : Fnode) : ℕ × CharArray 32 × UInt32 :=
  (n.data, n.metaHdr.key, n.metaHdr.len)

/-- The nodes have the places, keys and lengths of the records `rs` behind a superblock. -/
def Lists (ns : List Fnode) (rs : List Record) : Prop :=
  ns.map Fnode.entry = (cleanNodes FileHdr.size rs).map Fnode.entry

/-- The file begins with the records of the nodes, and there is room for them in the table. -/
def Intact (st : TikfsState) : Prop :=
  ∃ rs rest, st.fd.data = encodeDb rs ++ rest ∧ Lists st.table rs ∧ rs.length < initSlots

/-- A flush writes no node of `2^32` bytes or more anew, whose length a header cannot hold. -/
def Fits (st : TikfsState) : FileCall → Prop
  | .flush _ => ∀ (i : ℕ) (n : Fnode), st.table[i]? = some n → WrittenAnew st i →
      visibleLen n < 2 ^ 32
  | _ => True

/-- With a node of another length no file is empty; without one, what the flush leaves when it puts
the buffers of the dirty nodes behind the file passes for a database. Nothing is asked of a state
without dirty nodes. -/
def Remounts (st : TikfsState) : Prop :=
  (∃ n ∈ st.table, n.dirty = .dirty) →
    ((∃ n ∈ st.table, LengthChanged n) → ∀ n ∈ st.table, visibleLen n ≠ 0) ∧
      ((∀ n ∈ st.table, ¬LengthChanged n) →
        LooksSound (st.fd.data ++ st.table.flatMap dirtyBytes))

/-! ### Nodes and records -/

theorem cleanNodes_append : (off : ℕ) → (rs rs' : List Record) →
    cleanNodes off (rs ++ rs') =
      cleanNodes off rs ++ cleanNodes (off + (encodeRecords rs).length) rs'
  | off, [], rs' => rfl
  | off, r :: rs, rs' => by
      rw [List.cons_append, cleanNodes, cleanNodes_append, cleanNodes, List.cons_append,
        encodeRecords_cons, List.length_append, Nat.add_assoc]

/-- What depends on the headers of fresh nodes depends on those of the records. -/
theorem map_hdr_cleanNodes {α : Type} (f : DataHdr → α) (off : ℕ) (rs : List Record) :
    (cleanNodes off rs).map (fun n => f n.metaHdr) = rs.map fun r => f r.hdr := by
  have hmap := congrArg (List.map f) (cleanNodes_map_metaHdr off rs)
  rwa [List.map_map, List.map_map] at hmap

theorem Lists.length_eq {ns : List Fnode} {rs : List Record} (h : Lists ns rs) :
    ns.length = rs.length := by
  have hlen := congrArg List.length h
  rwa [List.length_map, List.length_map, length_cleanNodes] at hlen

/-- The keys and lengths of nodes are those of their records. -/
theorem Lists.map_eq {ns : List Fnode} {rs : List Record} (h : Lists ns rs) :
    ns.map (fun n => (n.metaHdr.key, n.metaHdr.len)) =
      rs.map fun r => (r.hdr.key, r.hdr.len) := by
  have hmap := congrArg (List.map Prod.snd) h
  rw [List.map_map, List.map_map] at hmap
  exact hmap.trans (map_hdr_cleanNodes (fun hdr => (hdr.key, hdr.len)) FileHdr.size rs)

theorem Lists.keys_eq {ns : List Fnode} {rs : List Record} (h : Lists ns rs) :
    ns.map (fun n => n.metaHdr.key) = rs.map fun r => r.hdr.key := by
  have hkeys := congrArg (List.map Prod.fst) h.map_eq
  rwa [List.map_map, List.map_map] at hkeys

theorem Lists.lens_eq {ns : List Fnode} {rs : List Record} (h : Lists ns rs) :
    ns.map (fun n => n.metaHdr.len.toNat) = rs.map fun r => r.hdr.len.toNat := by
  have hlens := congrArg (List.map fun p => p.2.toNat) h.map_eq
  rwa [List.map_map, List.map_map] at hlens

/-- Nodes in two parts list two parts of the records. -/
theorem Lists.exists_append {ns ms : List Fnode} {rs : List Record} (h : Lists (ns ++ ms) rs) :
    ∃ rs₁ rs₂, rs = rs₁ ++ rs₂ ∧ Lists ns rs₁ ∧
      ms.map Fnode.entry =
        (cleanNodes (FileHdr.size + (encodeRecords rs₁).length) rs₂).map Fnode.entry := by
  have hlen := h.length_eq
  rw [List.length_append] at hlen
  refine ⟨rs.take ns.length, rs.drop ns.length, (List.take_append_drop _ _).symm, ?_⟩
  rw [Lists, ← List.take_append_drop ns.length rs, cleanNodes_append, List.map_append,
    List.map_append] at h
  refine List.append_inj h ?_
  rw [List.length_map, List.length_map, length_cleanNodes, List.length_take]
  omega

/-- The file begins with the records before the one of a node, up to the header of this node. -/
theorem data_sub_eq_length {c : Fnode} {ns : List Fnode} {rs₁ rs₂ : List Record}
    (h : (c :: ns).map Fnode.entry =
      (cleanNodes (FileHdr.size + (encodeRecords rs₁).length) rs₂).map Fnode.entry) :
    c.data - DataHdr.size = (encodeDb rs₁).length := by
  obtain _ | ⟨r, rs₂⟩ := rs₂
  · cases h
  · have hc := congrArg Prod.fst (List.cons.inj h).1
    replace hc : c.data = FileHdr.size + (encodeRecords rs₁).length + DataHdr.size := hc
    rw [hc, Nat.add_sub_cancel, encodeDb, List.length_append, FileHdr.length_encode]

/-- A node of the list and the node of its record. -/
theorem Lists.getElem? {ns : List Fnode} {rs : List Record} (h : Lists ns rs) {i : ℕ} {n : Fnode}
    (hn : ns[i]? = some n) :
    ∃ m, (cleanNodes FileHdr.size rs)[i]? = some m ∧ m.entry = n.entry := by
  have hi := congrArg (·[i]?) h
  simp only [List.getElem?_map, hn, Option.map_some] at hi
  obtain ⟨m, hm, hentry⟩ := Option.map_eq_some_iff.mp hi.symm
  exact ⟨m, hm, hentry⟩

/-! ### Flushing -/

theorem entry_flushedInPlace (n : Fnode) : (flushedInPlace n).entry = n.entry := by
  rw [flushedInPlace]
  cases n.dirty <;> rfl

/-- **The nodes written anew** are those of records with their current headers. -/
theorem rewriteLoop_records {data : List Byte} {offshift : ℕ} (malloced : ℕ → Byte) :
    (ns : List Fnode) → (fd fd2 : OpenFile) → fd.append = true →
    fd2.data = data.drop offshift →
    (∀ n ∈ ns, Readable data offshift n ∧ visibleLen n < 2 ^ 32) →
    ∃ rs, (rewriteLoop malloced offshift ns fd fd2).1.data = fd.data ++ encodeRecords rs ∧
      (rewriteLoop malloced offshift ns fd fd2).2.map Fnode.entry =
        (cleanNodes fd.data.length rs).map Fnode.entry ∧
      rs.map (fun r => r.hdr.key) = ns.map (fun n => n.metaHdr.key) ∧
      rs.map (fun r => r.hdr.len.toNat) = ns.map visibleLen
  | [], fd, fd2, _, _, _ => ⟨[], (List.append_nil _).symm, rfl, rfl, rfl⟩
  | n :: ns, fd, fd2, happend, hfd2, hns => by
      obtain ⟨hreadable, hlt⟩ := hns n List.mem_cons_self
      obtain ⟨fd', fd2', n', hloop, hfd2', hwritten⟩ :=
        hreadable.exists_rewriteLoop_cons malloced happend hfd2 ns
      obtain ⟨rs, hdata, hentries, hkeys, hlens⟩ := rewriteLoop_records malloced ns fd' fd2'
        hwritten.append_eq hfd2' fun m hm => hns m (List.mem_cons_of_mem _ hm)
      have hlen : (currentHdr n).len.toNat = visibleLen n := (currentHdr_len_eq_iff n).mpr hlt
      let r : Record := ⟨currentHdr n, content data n, hreadable.length_eq.trans hlen.symm⟩
      have hfd' : fd'.data = fd.data ++ r.encode := hwritten.data_eq
      have hnext : fd'.data.length = fd.data.length + r.encode.length := by
        rw [hfd', List.length_append]
      -- the node begins behind its header
      have hplace : n'.data = fd.data.length + DataHdr.size := by
        have hend := hwritten.data_add_len
        have hrecord : r.encode.length = DataHdr.size + (currentHdr n).len.toNat := r.length_encode
        rw [hwritten.hdr_eq, hnext, hrecord] at hend
        omega
      refine ⟨r :: rs, ?_, ?_, ?_, ?_⟩
      · rw [hloop, hdata, hfd', encodeRecords_cons, List.append_assoc]
      · rw [hloop, cleanNodes, List.map_cons, List.map_cons, hentries, hnext]
        refine congrArg (· :: _) ?_
        rw [Fnode.entry, Fnode.entry, hplace, hwritten.hdr_eq]
        rfl
      · rw [List.map_cons, List.map_cons, hkeys]
        rfl
      · rw [List.map_cons, List.map_cons, hlens, hlen]

section Flush

variable {st : TikfsState} {rs : List Record} {rest : List Byte}

/-- A flush without a node of another length leaves the records. -/
theorem Lists.flush_of_not_lengthChanged (h : Lists st.table rs) (env : FlushEnv)
    (happend : st.fd.append = true) (hnone : ∀ n ∈ st.table, ¬LengthChanged n) :
    Lists (flush env st).table rs := by
  obtain ⟨-, -, hinPlace⟩ := flushLoop_inPlace env st.table st.fd happend hnone
  rw [Lists, flush_table, hinPlace, List.map_map, ← h]
  exact List.map_congr_left fun n _ => entry_flushedInPlace n

/-- A node that is not of another length has the length of its header. -/
theorem visibleLen_of_not_lengthChanged {n : Fnode} (h : ¬LengthChanged n) :
    visibleLen n = n.metaHdr.len.toNat := by
  rw [visibleLen]
  cases hdirty : n.dirty with
  | clean => rfl
  | dirty => exact not_not.mp fun hne => h ⟨hdirty, hne⟩

/-- The nodes that a flush writes anew can be read before, and their lengths fit into a header. -/
theorem Mounted.readable_of_fits (hm : Mounted st) {env : FlushEnv} (hfits : Fits st (.flush env))
    {ns₁ ns₂ : List Fnode} {c : Fnode} (htable : st.table = ns₁ ++ c :: ns₂) (hc : LengthChanged c)
    (hns₁ : ∀ n ∈ ns₁, ¬LengthChanged n) :
    ∀ m ∈ c :: ns₂, Readable (st.fd.data ++ ns₁.flatMap dirtyBytes) c.data m ∧
      visibleLen m < 2 ^ 32 := by
  intro m hmem
  refine ⟨hm.readable htable _ hmem, ?_⟩
  obtain ⟨ms₁, ms₂, hms⟩ := List.append_of_mem hmem
  refine hfits (ns₁.length + ms₁.length) m ?_
    ((writtenAnew_iff_of_split htable hns₁ hc).mpr (Nat.le_add_right _ _))
  rw [htable, hms, List.getElem?_append_right (Nat.le_add_right _ _), Nat.add_sub_cancel_left,
    List.getElem?_append_right le_rfl, Nat.sub_self, List.getElem?_cons_zero]

/-- **A flush with a node of another length** leaves a file of records with the current lengths of
the nodes, and nothing else. -/
theorem Mounted.flush_of_lengthChanged (hm : Mounted st) (hdata : st.fd.data = encodeDb rs ++ rest)
    (h : Lists st.table rs) (env : FlushEnv) (hchanged : ∃ n ∈ st.table, LengthChanged n)
    (hfits : Fits st (.flush env)) :
    ∃ rs', (Tikfs.flush env st).fd.data = encodeDb rs' ∧ Lists (Tikfs.flush env st).table rs' ∧
      rs'.map (fun r => r.hdr.key) = st.table.map (fun n => n.metaHdr.key) ∧
      rs'.map (fun r => r.hdr.len.toNat) = st.table.map visibleLen := by
  obtain hnone | ⟨ns₁, c, ns₂, htable, hc, hns₁⟩ := exists_first_lengthChanged st.table
  · obtain ⟨n, hn, hlen⟩ := hchanged
    exact absurd hlen (hnone n hn)
  · obtain ⟨happend, hdata₁, hinPlace⟩ := flushLoop_inPlace env ns₁ st.fd hm.append_eq hns₁
    obtain ⟨rs₁, rs₂, rfl, hlists₁, hlists₂⟩ := (htable ▸ h).exists_append
    obtain ⟨fd', fd2, hrewrite, happend', hfd', hfd2⟩ :=
      rewriteFrom_eq env (flushLoop env ns₁ st.fd).1 c ns₂
    -- the file is cut off behind the records of the nodes before `c`
    have hplace := data_sub_eq_length hlists₂
    have hfirst : (flushLoop env ns₁ st.fd).1.data =
        encodeDb rs₁ ++ (encodeRecords rs₂ ++ rest ++ ns₁.flatMap dirtyBytes) := by
      rw [hdata₁, hdata, encodeDb, encodeDb, encodeRecords_append]
      simp only [List.append_assoc]
    have hcut : fd'.data = encodeDb rs₁ := by
      rw [hfd', OpenFile.ftruncate_data_of_le, OpenFile.lseekSet_data, hplace, hfirst,
        List.take_left]
      rw [OpenFile.lseekSet_data, hplace, hfirst, List.length_append]
      exact Nat.le_add_right _ _
    have hreadable := hm.readable_of_fits hfits htable hc hns₁
    rw [← hdata₁] at hreadable
    obtain ⟨rs', hrecords, hentries, hkeys, hlens⟩ := rewriteLoop_records env.malloced (c :: ns₂)
      fd' fd2 (happend'.trans happend) hfd2 hreadable
    have hlen₁ : rs₁.map (fun r => r.hdr.len.toNat) = ns₁.map visibleLen :=
      hlists₁.lens_eq.symm.trans
        (List.map_congr_left fun m hmem => (visibleLen_of_not_lengthChanged (hns₁ m hmem)).symm)
    have hoff : fd'.data.length = FileHdr.size + (encodeRecords rs₁).length := by
      rw [hcut, encodeDb, List.length_append, FileHdr.length_encode]
    have hbefore : (ns₁.map flushedInPlace).map Fnode.entry = ns₁.map Fnode.entry := by
      rw [List.map_map]
      exact List.map_congr_left fun m _ => entry_flushedInPlace m
    rw [flush_of_split env htable hns₁ hc, hrewrite]
    refine ⟨rs₁ ++ rs', ?_, ?_, ?_, ?_⟩
    · rw [hrecords, hcut, encodeDb, encodeDb, encodeRecords_append, List.append_assoc]
    · rw [Lists, cleanNodes_append, List.map_append, List.map_append, hinPlace, hbefore, hentries,
        hoff, hlists₁]
    · rw [htable, List.map_append, List.map_append, hkeys, hlists₁.keys_eq]
    · rw [htable, List.map_append, List.map_append, hlens, hlen₁]

end Flush

/-! ### Runs -/

/-- A mount of a file of records lists them. -/
theorem intact_of_tikfsInit {rs : List Record} {st : TikfsState}
    (h : tikfsInit (encodeDb rs) = .ok st) : Intact st := by
  obtain ⟨-, hrs, rfl⟩ := eq_of_tikfsInit h
  exact ⟨rs, [], (List.append_nil _).symm, rfl, hrs⟩

section Intact

variable {st : TikfsState}

/-- **A flush that fits keeps the records**, with the keys of the nodes. -/
theorem Intact.flush (h : Intact st) (hm : Mounted st) (env : FlushEnv)
    (hfits : Fits st (.flush env)) :
    ∃ rs rest, (Tikfs.flush env st).fd.data = encodeDb rs ++ rest ∧
      Lists (Tikfs.flush env st).table rs ∧ rs.length < initSlots ∧
      rs.map (fun r => r.hdr.key) = st.table.map fun n => n.metaHdr.key := by
  obtain ⟨rs, rest, hdata, hlists, hrs⟩ := h
  by_cases hchanged : ∃ n ∈ st.table, LengthChanged n
  · obtain ⟨rs', hdata', hlists', hkeys, -⟩ :=
      hm.flush_of_lengthChanged hdata hlists env hchanged hfits
    refine ⟨rs', [], hdata'.trans (List.append_nil _).symm, hlists', ?_, hkeys⟩
    have hlen := congrArg List.length hkeys
    rw [List.length_map, List.length_map, hlists.length_eq] at hlen
    exact hlen.trans_lt hrs
  · have hnone : ∀ n ∈ st.table, ¬LengthChanged n := fun n hn hlen => hchanged ⟨n, hn, hlen⟩
    obtain ⟨-, hfile, -⟩ := flushLoop_inPlace env st.table st.fd hm.append_eq hnone
    refine ⟨rs, rest ++ st.table.flatMap dirtyBytes, ?_,
      hlists.flush_of_not_lengthChanged env hm.append_eq hnone, hrs, hlists.keys_eq.symm⟩
    rw [flush_fd, hfile, hdata, List.append_assoc]

/-- A call puts a node of the same place, key and length in the place of another. -/
theorem Replaces.intact {c : FileCall} {fd : OpenFile} {i : ℕ} {n n' : Fnode}
    (hr : Replaces st c fd i n n') (h : Intact st) : Intact (st.perform c) := by
  obtain ⟨rs, rest, hdata, hlists, hrs⟩ := h
  rw [hr.perform_eq]
  refine ⟨rs, rest, hr.fd_data.trans hdata, ?_, hrs⟩
  have hentry : n'.entry = n.entry := by
    rw [Fnode.entry, Fnode.entry, hr.data_eq, hr.key_eq, hr.len_eq]
  obtain ⟨hlt, hnode⟩ := List.getElem?_eq_some_iff.mp hr.node
  have hset : (st.table.map Fnode.entry).set i n.entry = st.table.map Fnode.entry := by
    rw [← List.map_set, ← hnode, List.set_getElem_self]
  rw [Lists, List.map_set, hentry, hset, hlists]

/-- **Calls keep the records.** -/
theorem Intact.perform {c : FileCall} (h : Intact st) (hm : Mounted st) (hfits : Fits st c) :
    Intact (st.perform c) := by
  by_cases hflush : ∃ env, c = .flush env
  · obtain ⟨env, rfl⟩ := hflush
    obtain ⟨rs, rest, hdata, hlists, hrs, -⟩ := h.flush hm env hfits
    exact ⟨rs, rest, hdata, hlists, hrs⟩
  · obtain hsame | ⟨fd, i, n, n', hr⟩ := perform_cases st fun env henv => hflush ⟨env, henv⟩
    · rwa [hsame]
    · exact hr.intact h

end Intact

/-- In a run whose flushes fit, the records are those of the nodes. -/
theorem intact_of_run {rs : List Record} {st₀ st : TikfsState}
    (hinit : tikfsInit (encodeDb rs) = .ok st₀)
    (hrun : Run FileStep (fun st c => c.Valid ∧ Fits st c) st₀ st) : Mounted st ∧ Intact st := by
  refine hrun.invariant (p := fun st => Mounted st ∧ Intact st)
    ⟨mounted_of_tikfsInit hinit, intact_of_tikfsInit hinit⟩ fun hs hc hstep => ?_
  obtain rfl := hstep
  exact ⟨hs.1.perform hc.1, hs.2.perform hs.1 hc.2⟩

/-! ### The next mount -/

/-- A scan that stops stops at the same node of a longer table. -/
theorem fileType_of_prefix {table table' : List Fnode} (h : table <+: table') {path : List Byte}
    {i : ℕ} (hfile : fileType table path = .file i) : fileType table' path = .file i := by
  obtain ⟨ms, rfl⟩ := h
  rw [fileType] at hfile ⊢
  split_ifs at hfile ⊢ with hroot
  · split at hfile
    · rename_i j hj
      rw [List.findIdx?_append, hj, Option.some_or]
      exact hfile
    · cases hfile

/-- **What a mount reports** for a path of a node: the time in the header on disc. -/
theorem mtime_of_tikfsInit {rs : List Record} {rest : List Byte} {ns : List Fnode}
    {st : TikfsState} (hmount : tikfsInit (encodeDb rs ++ rest) = .ok st)
    (hrs : rs.length < initSlots) (hlists : Lists ns rs) {i : ℕ} {n : Fnode}
    (hi : ns[i]? = some n) {path : List Byte} (hfile : fileType ns path = .file i) (env : StatEnv)
    (stbuf : Stat) :
    (tikfsGetattr st path env stbuf).1 = 0 ∧
      (tikfsGetattr st path env stbuf).2.mtime =
        (storedHdr (encodeDb rs ++ rest) n.data).tsW := by
  obtain ⟨-, hprefix⟩ := prefix_of_tikfsInit_append hrs hmount
  obtain ⟨m, hm, hentry⟩ := hlists.getElem? hi
  have hkeys : ns.map (fun n => n.metaHdr.key) =
      (cleanNodes FileHdr.size rs).map fun n => n.metaHdr.key :=
    hlists.keys_eq.trans (map_hdr_cleanNodes (fun hdr => hdr.key) FileHdr.size rs).symm
  have hscan : fileType st.table path = .file i :=
    fileType_of_prefix hprefix ((fileType_congr hkeys path).symm.trans hfile)
  have hnode : st.table[i]? = some m := by
    obtain ⟨ms, hms⟩ := hprefix
    rw [← hms, List.getElem?_append_left (List.getElem?_eq_some_iff.mp hm).1]
    exact hm
  have hhdr := metaHdr_of_tikfsInit hmount (List.mem_of_getElem? hnode)
  rw [show m.data = n.data from congrArg Prod.fst hentry] at hhdr
  simp only [tikfsGetattr, hscan, hnode, ← hhdr, and_self]

section Reports

variable {st : TikfsState}

/-- With every header on disc, the lengths that the flush writes fit. -/
theorem MetaSafe.fits (h : MetaSafe st) (env : FlushEnv) : Fits st (.flush env) := by
  intro i n hi hanew
  cases hdirty : n.dirty with
  | dirty => exact (h i n hi hdirty).1 hanew
  | clean =>
    rw [visibleLen, hdirty]
    exact UInt32.toNat_lt _

/-- **When the flushed file is mounted again**, without a node of another length. -/
theorem Mounted.mount_iff_of_not_lengthChanged (hm : Mounted st) (env : FlushEnv)
    (hnone : ∀ n ∈ st.table, ¬LengthChanged n) :
    (∃ st', tikfsInit (Tikfs.flush env st).fd.data = .ok st') ↔
      LooksSound (st.fd.data ++ st.table.flatMap dirtyBytes) := by
  obtain ⟨-, hfile, -⟩ := flushLoop_inPlace env st.table st.fd hm.append_eq hnone
  rw [flush_fd, hfile]
  exact exists_tikfsInit_iff

/-- **When the flushed file is mounted again**, with a node of another length. -/
theorem Intact.mount_iff_of_lengthChanged (h : Intact st) (hm : Mounted st) (env : FlushEnv)
    (hfits : Fits st (.flush env)) (hchanged : ∃ n ∈ st.table, LengthChanged n) :
    (∃ st', tikfsInit (Tikfs.flush env st).fd.data = .ok st') ↔
      ∀ n ∈ st.table, visibleLen n ≠ 0 := by
  obtain ⟨rs, rest, hdata, hlists, hrs⟩ := h
  obtain ⟨rs', hfile, -, hkeys, hlens⟩ :=
    hm.flush_of_lengthChanged hdata hlists env hchanged hfits
  have hlen := congrArg List.length hkeys
  rw [List.length_map, List.length_map, hlists.length_eq] at hlen
  have hzero (r : Record) : r.hdr.len ≠ 0 ↔ r.hdr.len.toNat ≠ 0 :=
    not_congr UInt32.toNat_inj.symm
  have hall : (∀ r ∈ rs', r.hdr.len ≠ 0) ↔ ∀ n ∈ st.table, visibleLen n ≠ 0 := by
    simp only [hzero]
    rw [← List.forall_mem_map (P := (· ≠ 0)), hlens, List.forall_mem_map]
  rw [hfile, ← hall]
  constructor
  · rintro ⟨st', hst'⟩
    exact (eq_of_tikfsInit hst').1
  · intro hne
    exact ⟨_, tikfsInit_encodeDb hne (hlen.trans_lt hrs)⟩

/-- A flush that writes the metadata, and whose file is mounted again, keeps the times. -/
theorem FlushesMeta.keepsMtime {env : FlushEnv} (h : FlushesMeta env st) (hm : Mounted st)
    (hintact : Intact st) (hfits : Fits st (.flush env))
    (hmount : (∃ n ∈ st.table, n.dirty = .dirty) →
      ∃ st', tikfsInit (flush env st).fd.data = .ok st') : KeepsMtime env st := by
  intro i n hi hdirty
  obtain ⟨st', hst'⟩ := hmount ⟨n, List.mem_of_getElem? hi, hdirty⟩
  obtain ⟨rs, rest, hdata, hlists, hrs, hkeys⟩ := hintact.flush hm env hfits
  refine ⟨st', hst', fun path hfile senv stbuf => ?_⟩
  obtain ⟨n', hn'⟩ : ∃ n', (Tikfs.flush env st).table[i]? = some n' := by
    obtain ⟨hlt, -⟩ := List.getElem?_eq_some_iff.mp hi
    rw [← length_flushLoop env st.table st.fd] at hlt
    exact ⟨_, List.getElem?_eq_getElem hlt⟩
  have htable : fileType (Tikfs.flush env st).table path = .file i := by
    rw [← hfile]
    exact fileType_congr (hlists.keys_eq.trans hkeys) path
  have htsW := (h i n n' hi hdirty hn').tsW_eq
  rw [hdata] at hst' htsW
  rw [← htsW]
  exact mtime_of_tikfsInit hst' hrs hlists hn' htable senv stbuf

end Reports

/-- **When a flush writes the metadata.** In every state that calls and flushes reach from a mounted
file, a flush leaves the header of every dirty node on disc if and only if every dirty node that it
writes anew is shorter than `2^32` bytes and every other dirty node has its header on disc already.
If the earlier flushes have cut no length, then the header of every dirty node is on disc and a
later mount reports the modification times of these nodes if and only if, moreover, the flush leaves
a file that is mounted again. -/
theorem keepsMeta_iff {rs : List Record} {st₀ st : TikfsState}
    (hinit : tikfsInit (encodeDb rs) = .ok st₀)
    (hrun : Run FileStep (fun _ c => c.Valid) st₀ st) (env : FlushEnv) :
    (FlushesMeta env st ↔ MetaSafe st) ∧
      (Run FileStep (fun st c => c.Valid ∧ Fits st c) st₀ st →
        (FlushesMeta env st ∧ KeepsMtime env st ↔ MetaSafe st ∧ Remounts st)) := by
  have hm := mounted_of_run hinit hrun
  refine ⟨hm.flushesMeta_iff env, fun hfitted => ?_⟩
  obtain ⟨-, hintact⟩ := intact_of_run hinit hfitted
  rw [hm.flushesMeta_iff env]
  refine and_congr_right fun hsafe => ?_
  have hfits := hsafe.fits env
  constructor
  · intro hkeeps hdirty
    have hmount : ∃ st', tikfsInit (flush env st).fd.data = .ok st' := by
      obtain ⟨n, hn, hd⟩ := hdirty
      obtain ⟨i, hi⟩ := List.mem_iff_getElem?.mp hn
      obtain ⟨st', hst', -⟩ := hkeeps i n hi hd
      exact ⟨st', hst'⟩
    exact ⟨fun hchanged => (hintact.mount_iff_of_lengthChanged hm env hfits hchanged).mp hmount,
      fun hnone => (hm.mount_iff_of_not_lengthChanged env hnone).mp hmount⟩
  · intro hremounts
    refine ((hm.flushesMeta_iff env).mpr hsafe).keepsMtime hm hintact hfits fun hdirty => ?_
    obtain ⟨hother, hsame⟩ := hremounts hdirty
    by_cases hchanged : ∃ n ∈ st.table, LengthChanged n
    · exact (hintact.mount_iff_of_lengthChanged hm env hfits hchanged).mpr (hother hchanged)
    · have hnone : ∀ n ∈ st.table, ¬LengthChanged n := fun n hn hlen => hchanged ⟨n, hn, hlen⟩
      exact (hm.mount_iff_of_not_lengthChanged env hnone).mpr (hsame hnone)

/-- A write of `"cd"` over `"ab"` at the time `now`. -/
def writeCd (now : Int64) : FileCall :=
  .write [47, 102] [99, 100] 0 ⟨.full, fun _ => 0, fun _ => 0, now⟩

/-- The node of the file `"f"` after this write. -/
def nodeCd (now : Int64) : Fnode :=
  ⟨{ recordF.hdr with tsW := now }, 64, .dirty, some [99, 100], 2⟩

theorem table_longerF : longerF.table = [longerNode] := by decide +kernel

theorem table_writeCd : (mountF.perform (writeCd 0)).table = [nodeCd 0] := by decide +kernel

theorem lengthChanged_longerNode : LengthChanged longerNode :=
  ⟨rfl, by decide⟩

theorem not_lengthChanged_nodeCd : ¬LengthChanged (nodeCd 0) :=
  fun h => h.2 rfl

/-- The only node of a table. -/
theorem eq_of_getElem?_singleton {n m : Fnode} {i : ℕ} (h : [n][i]? = some m) : i = 0 ∧ m = n := by
  obtain _ | i := i
  · exact ⟨rfl, (Option.some.inj h).symm⟩
  · cases h

theorem metaSafe_longerF : MetaSafe longerF := by
  intro i n hi _
  rw [table_longerF] at hi
  obtain ⟨rfl, rfl⟩ := eq_of_getElem?_singleton hi
  refine ⟨fun _ => by decide, fun hanew => absurd ?_ hanew⟩
  rw [WrittenAnew, table_longerF]
  exact ⟨longerNode, List.mem_singleton_self _, lengthChanged_longerNode⟩

theorem remounts_longerF : Remounts longerF := by
  rw [Remounts, table_longerF]
  refine fun _ => ⟨fun _ => List.forall_mem_singleton.mpr (by decide), fun hnone => ?_⟩
  exact absurd lengthChanged_longerNode (hnone _ (List.mem_singleton_self _))

/-- A write in the second of the last one changes nothing in the header. -/
theorem metaSafe_writeCd : MetaSafe (mountF.perform (writeCd 0)) := by
  intro i n hi _
  rw [table_writeCd] at hi
  obtain ⟨rfl, rfl⟩ := eq_of_getElem?_singleton hi
  refine ⟨fun hanew => ?_, fun _ => ⟨by decide +kernel, by decide +kernel, by decide +kernel⟩⟩
  rw [WrittenAnew, table_writeCd] at hanew
  obtain ⟨m, hm, hchanged⟩ := hanew
  obtain rfl := List.mem_singleton.mp hm
  exact absurd hchanged not_lengthChanged_nodeCd

/-- Two bytes behind the last record are no header. -/
theorem not_remounts_writeCd : ¬Remounts (mountF.perform (writeCd 0)) := by
  intro h
  have hbytes : (mountF.perform (writeCd 0)).fd.data ++
      (mountF.perform (writeCd 0)).table.flatMap dirtyBytes = encodeDb [recordF] ++ [99, 100] := by
    decide +kernel
  rw [Remounts, hbytes, table_writeCd] at h
  obtain ⟨-, hsound⟩ := h ⟨_, List.mem_singleton_self _, rfl⟩
  have hshort : parseRecord [99, 100] = none := parseRecord_eq_none_iff.mpr (.inl (by decide))
  obtain ⟨-, -, hnil | hsize⟩ := (exists_tikfsInit_append_iff hshort).mp
    (exists_tikfsInit_iff.mpr (hsound (List.forall_mem_singleton.mpr not_lengthChanged_nodeCd)))
  · cases hnil
  · exact absurd hsize (by decide)

/-- A file that has become longer keeps its time. A write of the same length in the second of the
last one leaves the header right, but then no mount accepts the file. -/
theorem keepsMeta_iff_longerF :
    (FlushesMeta flushEnv longerF ∧ KeepsMtime flushEnv longerF) ∧
      FlushesMeta flushEnv (mountF.perform (writeCd 0)) ∧
        ¬KeepsMtime flushEnv (mountF.perform (writeCd 0)) := by
  have hvalid : (writeCd 0).Valid := show 0 + [99, 100].length < 2 ^ 63 by decide
  have hvalidAbc : writeAbc.Valid := show 0 + [97, 98, 99].length < 2 ^ 63 by decide
  obtain ⟨-, hlonger⟩ := keepsMeta_iff tikfsInit_mountF run_longerF flushEnv
  obtain ⟨hmeta, hkeeps⟩ := keepsMeta_iff tikfsInit_mountF (Run.refl.step hvalid rfl) flushEnv
  refine ⟨(hlonger (Run.refl.step ⟨hvalidAbc, trivial⟩ rfl)).mpr
    ⟨metaSafe_longerF, remounts_longerF⟩, hmeta.mpr metaSafe_writeCd, fun hmtime => ?_⟩
  have hboth := (hkeeps (Run.refl.step ⟨hvalid, trivial⟩ rfl)).mp
    ⟨hmeta.mpr metaSafe_writeCd, hmtime⟩
  exact not_remounts_writeCd hboth.2

/-- **Not every flush writes the metadata**: after a write of `"cd"` over `"ab"` at time one, the
header on disc keeps the old time. -/
theorem not_forall_flushesMeta : ¬∀ (rs : List Record) (st₀ st : TikfsState),
    tikfsInit (encodeDb rs) = .ok st₀ → Run FileStep (fun _ c => c.Valid) st₀ st →
    ∀ env, FlushesMeta env st := by
  intro hall
  have hvalid : (writeCd 1).Valid := show 0 + [99, 100].length < 2 ^ 63 by decide
  have hmeta := hall [recordF] mountF (mountF.perform (writeCd 1)) tikfsInit_mountF
    (Run.refl.step hvalid rfl) flushEnv 0 (nodeCd 1)
    ⟨{ recordF.hdr with tsW := 1 }, 64, .clean, none, 0⟩ (by decide +kernel) rfl
    (by decide +kernel)
  have htsW : (storedHdr (flush flushEnv (mountF.perform (writeCd 1))).fd.data 64).tsW = 0 := by
    decide +kernel
  exact absurd (htsW.symm.trans hmeta.tsW_eq) (by decide)

end TikFachpraktika.Tikfs
