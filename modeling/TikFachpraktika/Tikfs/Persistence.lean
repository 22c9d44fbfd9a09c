import TikFachpraktika.Tikfs.Flush

/-!
# What a flush preserves

After a flush the file is mounted again. The names and contents are those from before the flush
exactly when nothing was dirty, or the flush met a node of another length and the contents that
it had written before that node were the old ones: every write of the loop to the place of a node
lands at the end of the file, where it is either cut off again or left behind the last record.

## Main definitions

* `SameFiles`: two mounted file systems with the same names and the same answers to reads.
* `Persistent`: a session that a flush and a new mount preserve.
* `FlushSafe`: the nodes before a flush that loses nothing.

## Main results

* `flush_sameFiles_iff`: what a flush loses.
* `persistent_iff`: when a session is preserved.
* `not_forall_persistent`: not every session is.
-/

namespace TikFachpraktika.Tikfs

open Posix Tikdb

/-- Two mounted file systems with the same keys in the same order, whose reads at every size and
offset agree node by node. -/
structure SameFiles (st st' : TikfsState) : Prop where
  key_eq : st.table.map (fun n => n.metaHdr.key) = st'.table.map fun n => n.metaHdr.key
  read_eq : ∀ (i : ℕ) (n n' : Fnode), st.table[i]? = some n → st'.table[i]? = some n' →
    ∀ (size offset : ℕ) (now now' : Int64), offset + size < 2 ^ 64 →
      (readNode st.fd n size offset now).1 = (readNode st'.fd n' size offset now').1 ∧
        (readNode st.fd n size offset now).2.1 = (readNode st'.fd n' size offset now').2.1

/-- Mounting the file `disc`, carrying out the calls, flushing and mounting again succeeds, and
the files are those from just before the flush. -/
def Persistent (env : FlushEnv) (disc : List Byte) (calls : List Call) : Prop :=
  ∃ st st', tikfsInit disc = .ok st ∧ tikfsInit (flush env (st.after calls)).fd.data = .ok st' ∧
    SameFiles (st.after calls) st'

/-- No node is dirty, or there is a dirty node of another length and every dirty node before it
has the bytes in `cowbuff` that it has on disc. -/
def FlushSafe (st : TikfsState) : Prop :=
  (∀ n ∈ st.table, n.dirty = .clean) ∨
    ∃ ns₁ n ns₂, st.table = ns₁ ++ n :: ns₂ ∧ LengthChanged n ∧
      ∀ m ∈ ns₁, m.dirty = .dirty → m.cowbuff = some (onDisc st.fd.data m)

/-! ### Reads and contents -/

/-- Reads agree exactly when the names and contents do. -/
theorem sameFiles_iff {rs rs' : List Record} {st st' : TikfsState} (h : Session rs st)
    (h' : Session rs' st') :
    SameFiles st st' ↔
      st.table.map (visibleFile st.fd.data) = st'.table.map (visibleFile st'.fd.data) := by
  constructor
  · rintro ⟨hkey, hread⟩
    have hlen : st.table.length = st'.table.length := by
      simpa using congrArg List.length hkey
    refine List.ext_getElem (by simpa using hlen) fun i hi hi' => ?_
    rw [List.length_map] at hi hi'
    have hkeyi := List.getElem_of_eq hkey (i := i) (by simpa using hi)
    rw [List.getElem_map, List.getElem_map] at hkeyi ⊢
    obtain ⟨hc, hlt⟩ := h.content_length (List.getElem_mem hi)
    obtain ⟨hc', hlt'⟩ := h'.content_length (List.getElem_mem hi')
    have hbuff := (hread i _ _ (List.getElem?_eq_getElem hi) (List.getElem?_eq_getElem hi')
      (2 ^ 32) 0 0 0 (by omega)).2
    rw [(readNode_eq_readSlice hc (by omega) 0).2,
      (readNode_eq_readSlice hc' (by omega) 0).2] at hbuff
    rw [visibleFile, visibleFile, hkeyi,
      eq_of_readSlice_eq (hc.trans_lt hlt) (hc'.trans_lt hlt') hbuff]
  · intro hfiles
    refine ⟨?_, fun i n n' hn hn' size offset now now' hsize => ?_⟩
    · have hkey := congrArg (List.map Prod.fst) hfiles
      rw [List.map_map, List.map_map] at hkey
      exact hkey
    · have hfile := congrArg (fun l => l[i]?) hfiles
      simp only [List.getElem?_map, hn, hn', Option.map_some, Option.some.injEq] at hfile
      have hcontent : content st.fd.data n = content st'.fd.data n' := congrArg Prod.snd hfile
      have hc := (h.content_length (List.mem_of_getElem? hn)).1
      have hc' := (h'.content_length (List.mem_of_getElem? hn')).1
      rw [(readNode_eq_readSlice hc hsize now).1, (readNode_eq_readSlice hc hsize now).2,
        (readNode_eq_readSlice hc' hsize now').1, (readNode_eq_readSlice hc' hsize now').2,
        hcontent]
      exact ⟨rfl, rfl⟩

/-- The files of a table are those of the records below it exactly when every dirty node has the
bytes in `cowbuff` that it has on disc. -/
theorem NodesOver.map_visibleFile_eq_iff {off : ℕ} {rs : List Record} {ns : List Fnode}
    (h : NodesOver off rs ns) {data pre rest : List Byte} (hpre : pre.length = off)
    (hdata : data = pre ++ encodeRecords rs ++ rest) :
    ns.map (visibleFile data) = rs.map recordFile ↔
      ∀ n ∈ ns, n.dirty = .dirty → n.cowbuff = some (onDisc data n) := by
  induction h generalizing pre with
  | nil off => exact ⟨fun _ => List.forall_mem_nil _, fun _ => rfl⟩
  | @cons off r n rs ns hn hns ih =>
    have hnext : (pre ++ r.encode).length = off + r.encode.length := by
      rw [List.length_append, hpre]
    have hdisc : onDisc data n = r.val := by
      refine hn.onDisc_eq (a := pre ++ r.hdr.encode) (c := encodeRecords rs ++ rest) ?_ ?_
      · simp only [hdata, encodeRecords_cons, Record.encode, List.append_assoc]
      · rw [hn.data_eq, List.length_append, hpre, DataHdr.length_encode]
    have hfile : visibleFile data n = recordFile r ↔
        (n.dirty = .dirty → n.cowbuff = some (onDisc data n)) := by
      rw [visibleFile, recordFile, hn.key_eq, hdisc, Prod.mk.injEq, eq_self, true_and]
      constructor
      · intro hval hdirty
        rw [(hn.content_of_dirty hdirty data).1, hval]
      · intro hcow
        cases hdirty : n.dirty with
        | clean => rw [content_of_clean hdirty, hdisc]
        | dirty =>
          have hsome := (hn.content_of_dirty hdirty data).1
          rw [hcow hdirty] at hsome
          exact (Option.some.inj hsome).symm
    have hrest := ih hnext (by
      rw [hdata, encodeRecords_cons]
      simp only [List.append_assoc])
    rw [List.map_cons, List.map_cons, List.cons.injEq, hfile, hrest, List.forall_mem_cons]

theorem Session.map_visibleFile_eq_iff {rs : List Record} {st : TikfsState}
    (h : Session rs st) :
    st.table.map (visibleFile st.fd.data) = rs.map recordFile ↔
      ∀ n ∈ st.table, n.dirty = .dirty → n.cowbuff = some (onDisc st.fd.data n) := by
  have hdata : st.fd.data = superblock.encode ++ encodeRecords rs ++ [] := by
    rw [h.data_eq, List.append_nil]
    rfl
  exact h.nodes.map_visibleFile_eq_iff (FileHdr.length_encode superblock) hdata

/-! ### Mounting again -/

/-- Mounting a well-formed file shows its records. -/
theorem exists_sameFiles_iff {rs rs' : List Record} {st : TikfsState} (h : Session rs st)
    (hlen : ∀ r ∈ rs', r.hdr.len ≠ 0) (hlt : rs'.length < initSlots) :
    (∃ st', tikfsInit (encodeDb rs') = .ok st' ∧ SameFiles st st') ↔
      st.table.map (visibleFile st.fd.data) = rs'.map recordFile := by
  have hinit := tikfsInit_encodeDb hlen hlt
  obtain ⟨-, h'⟩ := session_of_tikfsInit hinit
  have hclean := h'.map_visibleFile_eq_iff.mpr fun n hn hdirty => by
    rw [dirty_of_mem_cleanNodes hn] at hdirty
    cases hdirty
  rw [← hclean]
  constructor
  · rintro ⟨st', hst', hsame⟩
    rw [hinit] at hst'
    cases hst'
    exact (sameFiles_iff h h').mp hsame
  · intro hfiles
    exact ⟨_, hinit, (sameFiles_iff h h').mpr hfiles⟩

section Flushed

variable {rs : List Record} {st : TikfsState} (env : FlushEnv)

/-- Bytes behind the last record never mount as the same files. -/
theorem not_sameFiles_of_append (h : Session rs st) (hlen : ∀ r ∈ rs, r.hdr.len ≠ 0)
    (hlt : rs.length < initSlots) {rest : List Byte} (hrest : rest ≠ []) :
    ¬ ∃ st', tikfsInit (encodeDb rs ++ rest) = .ok st' ∧ SameFiles st st' := by
  rintro ⟨st', hst', hsame⟩
  have hmore := length_lt_of_tikfsInit_append hlen hlt hrest hst'
  have hsize : st.table.length = st'.table.length := by
    simpa using congrArg List.length hsame.key_eq
  rw [← hsize, h.nodes.length_eq] at hmore
  exact Nat.lt_irrefl _ hmore

/-- The contents of a session are not empty. -/
theorem Session.content_ne_nil (h : Session rs st) (hlen : ∀ r ∈ rs, r.hdr.len ≠ 0) {n : Fnode}
    (hn : n ∈ st.table) : content st.fd.data n ≠ [] := by
  obtain ⟨off, r, hr, hover⟩ := h.exists_nodeOver hn
  have hc := (h.content_length hn).1
  refine List.ne_nil_of_length_pos (hc ▸ ?_)
  rw [visibleLen]
  cases hdirty : n.dirty with
  | clean =>
    dsimp only
    rw [hover.len_eq, Nat.pos_iff_ne_zero, ne_eq, ← UInt32.toNat_zero, UInt32.toNat_inj]
    exact hlen r hr
  | dirty =>
    obtain ⟨b, -, -, hpos, -⟩ := hover.cow hdirty
    exact hpos

/-- A flush without a node of another length loses nothing only when nothing is dirty. -/
theorem flush_sameFiles_of_not_lengthChanged (h : Session rs st)
    (hlen : ∀ r ∈ rs, r.hdr.len ≠ 0) (hlt : rs.length < initSlots)
    (hchanged : ∀ n ∈ st.table, ¬ LengthChanged n) :
    (∃ st', tikfsInit (flush env st).fd.data = .ok st' ∧ SameFiles st st') ↔
      ∀ n ∈ st.table, n.dirty = .clean := by
  have hfile := flush_of_not_lengthChanged env h.append_eq hchanged
  constructor
  · intro hsame n hn
    by_contra hdirty
    -- the bytes of the dirty node stand behind the last record
    have hbytes : dirtyBytes n = content st.fd.data n := by
      cases hd : n.dirty with
      | clean => exact absurd hd hdirty
      | dirty => rw [dirtyBytes, content, hd]
    have hrest : st.table.flatMap dirtyBytes ≠ [] := fun hnil =>
      h.content_ne_nil hlen hn (hbytes ▸ List.flatMap_eq_nil_iff.mp hnil n hn)
    rw [hfile, h.data_eq] at hsame
    exact not_sameFiles_of_append h hlen hlt hrest hsame
  · intro hclean
    have hrest : st.table.flatMap dirtyBytes = [] :=
      List.flatMap_eq_nil_iff.mpr fun n hn => by rw [dirtyBytes, hclean n hn]
    rw [hfile, hrest, List.append_nil, h.data_eq, exists_sameFiles_iff h hlen hlt,
      h.map_visibleFile_eq_iff]
    intro n hn hdirty
    rw [hclean n hn] at hdirty
    cases hdirty

/-- A flush with a node of another length loses nothing exactly when the dirty nodes before it
have their old bytes. -/
theorem flush_sameFiles_of_lengthChanged (h : Session rs st) (hlen : ∀ r ∈ rs, r.hdr.len ≠ 0)
    (hlt : rs.length < initSlots) {ns₁ ns₂ : List Fnode} {n : Fnode}
    (htable : st.table = ns₁ ++ n :: ns₂) (hns₁ : ∀ m ∈ ns₁, ¬ LengthChanged m)
    (hn : LengthChanged n) :
    (∃ st', tikfsInit (flush env st).fd.data = .ok st' ∧ SameFiles st st') ↔
      ∀ m ∈ ns₁, m.dirty = .dirty → m.cowbuff = some (onDisc st.fd.data m) := by
  obtain ⟨rs₁, rs₂, rs', hrs, hover, hfile, hrs'⟩ :=
    flush_of_lengthChanged env h htable hns₁ hn
  have hlen' : ∀ r ∈ rs₁ ++ rs', r.hdr.len ≠ 0 := fun r hr => by
    rcases List.mem_append.mp hr with hr₁ | hr'
    · exact hlen r (hrs ▸ List.mem_append_left rs₂ hr₁)
    · -- a record that was written anew has the content of its node
      have hmem := List.mem_map_of_mem (f := recordFile) hr'
      rw [hrs'] at hmem
      obtain ⟨m, hm, hfile'⟩ := List.mem_map.mp hmem
      have hm' : m ∈ st.table := htable ▸ List.mem_append_right ns₁ hm
      have hval : content st.fd.data m = r.val := congrArg Prod.snd hfile'
      intro hzero
      refine h.content_ne_nil hlen hm' (hval ▸ List.eq_nil_of_length_eq_zero ?_)
      rw [r.length_val, hzero, UInt32.toNat_zero]
  have hsize : (rs₁ ++ rs').length = rs.length := by
    have hcount : rs'.length = (n :: ns₂).length := by
      simpa using congrArg List.length hrs'
    rw [List.length_append, ← hover.length_eq, hcount, ← List.length_append, ← htable,
      h.nodes.length_eq]
  have hdata : st.fd.data = superblock.encode ++ encodeRecords rs₁ ++ encodeRecords rs₂ := by
    rw [h.data_eq, hrs, encodeDb, encodeRecords_append, List.append_assoc]
  rw [hfile, exists_sameFiles_iff h hlen' (hsize ▸ hlt),
    ← hover.map_visibleFile_eq_iff (FileHdr.length_encode superblock) hdata, htable,
    List.map_append, List.map_append, hrs']
  exact List.append_left_inj _

/-- A node with its bytes on disc has not changed its length. -/
theorem Session.not_lengthChanged (h : Session rs st) {n : Fnode} (hn : n ∈ st.table)
    (hcow : n.dirty = .dirty → n.cowbuff = some (onDisc st.fd.data n)) : ¬ LengthChanged n := by
  rintro ⟨hdirty, hne⟩
  obtain ⟨off, r, -, hover⟩ := h.exists_nodeOver hn
  obtain ⟨b, hb, hlen, -⟩ := hover.cow hdirty
  rw [hcow hdirty] at hb
  cases hb
  exact hne (hlen ▸ h.onDisc_length hn)

/-- **What a flush loses.** A flush followed by a mount preserves the files of a session exactly
when the session is safe. -/
theorem flush_sameFiles_iff (h : Session rs st) (hlen : ∀ r ∈ rs, r.hdr.len ≠ 0)
    (hlt : rs.length < initSlots) :
    (∃ st', tikfsInit (flush env st).fd.data = .ok st' ∧ SameFiles st st') ↔ FlushSafe st := by
  constructor
  · intro hsame
    obtain hnone | ⟨ns₁, n, ns₂, htable, hn, hns₁⟩ := exists_first_lengthChanged st.table
    · exact .inl ((flush_sameFiles_of_not_lengthChanged env h hlen hlt hnone).mp hsame)
    · exact .inr ⟨ns₁, n, ns₂, htable, hn,
        (flush_sameFiles_of_lengthChanged env h hlen hlt htable hns₁ hn).mp hsame⟩
  · rintro (hclean | ⟨ns₁, n, ns₂, htable, hn, hcow⟩)
    · refine (flush_sameFiles_of_not_lengthChanged env h hlen hlt ?_).mpr hclean
      rintro n hn ⟨hdirty, -⟩
      rw [hclean n hn] at hdirty
      cases hdirty
    · refine (flush_sameFiles_of_lengthChanged env h hlen hlt htable ?_ hn).mpr hcow
      exact fun m hm => h.not_lengthChanged (htable ▸ List.mem_append_left _ hm) (hcow m hm)

end Flushed

/-! ### Sessions from mount to mount -/

/-- **When a session is preserved.** On a file of complete, non-empty records and for calls of
`tikfs_read` and `tikfs_write`, a flush and a new mount keep all files if and only if the file
has fewer than `INIT_SLOTS` records and the nodes are safe just before the flush. -/
theorem persistent_iff (env : FlushEnv) {rs : List Record} (hlen : ∀ r ∈ rs, r.hdr.len ≠ 0)
    {calls : List Call} (hcalls : ∀ c ∈ calls, c.Valid) :
    Persistent env (encodeDb rs) calls ↔
      rs.length < initSlots ∧
        ∀ st, tikfsInit (encodeDb rs) = .ok st → FlushSafe (st.after calls) := by
  constructor
  · rintro ⟨st, st', hst, hst', hsame⟩
    obtain ⟨hlt, hsession⟩ := session_of_tikfsInit hst
    refine ⟨hlt, fun st₀ hst₀ => ?_⟩
    rw [hst] at hst₀
    cases hst₀
    exact (flush_sameFiles_iff env (hsession.after hcalls) hlen hlt).mp ⟨st', hst', hsame⟩
  · rintro ⟨hlt, hsafe⟩
    have hst := tikfsInit_encodeDb hlen hlt
    obtain ⟨-, hsession⟩ := session_of_tikfsInit hst
    obtain ⟨st', hst', hsame⟩ :=
      (flush_sameFiles_iff env (hsession.after hcalls) hlen hlt).mpr (hsafe _ hst)
    exact ⟨_, st', hst, hst', hsame⟩

/-- The file `"f"` with the bytes `"ab"`. -/
def recordF : Record where
  hdr := ⟨CharArray.fill 32 [102], 0, 0, 2, 0⟩
  val := [97, 98]
  length_val := rfl

/-- The flush on a machine with blocks of 4096 bytes. -/
def flushEnv : FlushEnv where
  blksize := 4096
  malloced := fun _ => 0

/-- A write of `buff` at the start of the file `"f"`. -/
def writeF (buff : List Byte) : Call :=
  .write [47, 102] buff 0 ⟨.full, fun _ => 0, fun _ => 0, 0⟩

/-- A write of `"abc"` over the content `"ab"` is preserved. -/
theorem persistent_iff_longer :
    Persistent flushEnv (encodeDb [recordF]) [writeF [97, 98, 99]] := by
  have hvalid : ∀ c ∈ [writeF [97, 98, 99]], c.Valid := fun c hc => by
    rw [List.mem_singleton.mp hc]
    exact ⟨by decide, by decide, rfl⟩
  refine (persistent_iff flushEnv (by decide) hvalid).mpr ⟨by decide, fun st hst => ?_⟩
  rw [tikfsInit_encodeDb (by decide) (by decide)] at hst
  cases hst
  have htable : (TikfsState.after ⟨⟨encodeDb [recordF], 0, true⟩, cleanNodes FileHdr.size
      [recordF]⟩ [writeF [97, 98, 99]]).table =
        [⟨recordF.hdr, 64, .dirty, some [97, 98, 99], 3⟩] := by decide +kernel
  exact .inr ⟨[], _, [], htable, by decide, List.forall_mem_nil _⟩

/-- **Not every session is preserved.** After a write of `"cd"` over the content `"ab"`, the flush
leaves the two new bytes behind the last record, where the next mount finds no record. -/
theorem not_forall_persistent :
    ¬ ∀ (env : FlushEnv) (rs : List Record) (calls : List Call), (∀ r ∈ rs, r.hdr.len ≠ 0) →
      (rs.map Record.keyStr).Nodup → (∀ c ∈ calls, c.Valid) →
      Persistent env (encodeDb rs) calls := by
  intro h
  have hlen : ∀ r ∈ [recordF], r.hdr.len ≠ 0 := by decide
  have hvalid : ∀ c ∈ [writeF [99, 100]], c.Valid := fun c hc => by
    rw [List.mem_singleton.mp hc]
    exact ⟨by decide, by decide, rfl⟩
  obtain ⟨st, st', hst, hst', hsame⟩ := h flushEnv [recordF] [writeF [99, 100]] hlen
    (by decide) hvalid
  obtain ⟨hlt, hsession⟩ := session_of_tikfsInit hst
  have hsafe := (flush_sameFiles_iff flushEnv (hsession.after hvalid) hlen hlt).mp
    ⟨st', hst', hsame⟩
  rw [tikfsInit_encodeDb hlen hlt] at hst
  cases hst
  have htable : (TikfsState.after ⟨⟨encodeDb [recordF], 0, true⟩, cleanNodes FileHdr.size
      [recordF]⟩ [writeF [99, 100]]).table =
        [⟨recordF.hdr, 64, .dirty, some [99, 100], 2⟩] := by decide +kernel
  rw [FlushSafe, htable] at hsafe
  rcases hsafe with hclean | ⟨ns₁, n, ns₂, hsplit, hn, -⟩
  · exact absurd (hclean _ (List.mem_singleton_self _)) (by decide)
  · have hmem := List.mem_append_right ns₁ (List.mem_cons_self (a := n) (l := ns₂))
    rw [← hsplit, List.mem_singleton] at hmem
    rw [hmem] at hn
    exact hn.2 rfl

end TikFachpraktika.Tikfs
