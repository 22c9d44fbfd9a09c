import TikFachpraktika.Tikfs.Attributes
import TikFachpraktika.Tikfs.Layout
import TikFachpraktika.Tikfs.Persistence
import TikFachpraktika.Transition.Run

/-!
# The contents of the files of a session

A clean node has its bytes on disc, a dirty one in `cowbuff`, and the two have lengths of their own.
Between mounting a file and its first flush, `tikfs_getattr`, `tikfs_read` and `tikfs_write` agree
on the bytes of each node: a write ends the file of its node after the bytes it stores, and leaves
the file on disc and all other nodes alone.

## Main definitions

* `FileCall`, `TikfsState.perform`, `FileStep`: calls one after the other.
* `TikfsState.contentOf`: the bytes of a node of the table.
* `writeBlock`: the block that a write stores into.
* `InSession`: the calls of a session in which every write starts inside its file.

## Main results

* `Mounted.perform`, `mounted_of_run`: calls keep the layout.
* `content_storeCow`: the bytes that a write leaves.
* `in_session`: the file model of a session.
-/

namespace TikFachpraktika.Tikfs

open Posix Tikdb Transition

/-! ### Calls and flushes -/

/-- A call of a file operation, or a flush. -/
inductive FileCall
  | read (path : List Byte) (size offset : ℕ) (now : Int64)
  | getattr (path : List Byte) (env : StatEnv) (stbuf : Stat)
  | truncate (path : List Byte) (size : ℤ)
  | write (path buff : List Byte) (offset : ℕ) (env : WriteEnv)
  | flush (env : FlushEnv)

/-- The state after a call. -/
def TikfsState.perform (st : TikfsState) : FileCall → TikfsState
  | .read path size offset now => (tikfsRead st path size offset now).2.2
  | .getattr .. => st
  | .truncate path size => (tikfsTruncate st path size).2
  | .write path buff offset env => (tikfsWrite st path buff offset env).2
  | .flush env => Tikfs.flush env st

/-- The steps of a mounted file system. -/
def FileStep (st : TikfsState) (c : FileCall) (st' : TikfsState) : Prop :=
  st.perform c = st'

/-- The node that a call may write to. -/
def FileCall.target (table : List Fnode) : FileCall → Option ℕ
  | .write path .. =>
    match fileType table path with
    | .file i => some i
    | _ => none
  | _ => none

/-- A write ends below `2^63`: `realloc` gives no larger block, and `xrealloc` then ends the
program. -/
def FileCall.Valid : FileCall → Prop
  | .write _ buff offset _ => offset + buff.length < 2 ^ 63
  | _ => True

/-- The bytes of a node of the table. -/
def TikfsState.contentOf (st : TikfsState) (i : ℕ) : Option (List Byte) :=
  st.table[i]?.map (content st.fd.data)

/-! ### Blocks -/

/-- The block that `tikfs_write` stores into: `cowbuff`, or the copy of a clean node. -/
def writeBlock (fd : OpenFile) (n : Fnode) (env : WriteEnv) : Option (List Byte) :=
  match n.dirty with
  | .clean => (copyNode fd n env).2
  | .dirty => some (n.cowbuff.getD [])

section Block

variable {fd : OpenFile} {n : Fnode} {env : WriteEnv} {cow : List Byte}

theorem length_writeBlock (hcow : CowSound n) (h : writeBlock fd n env = some cow) :
    cow.length = visibleLen n := by
  rw [writeBlock] at h
  rw [visibleLen]
  cases hdirty : n.dirty with
  | clean =>
    simp only [hdirty, copyNode] at h
    split_ifs at h
    obtain rfl := Option.some.inj h
    exact length_resize _ _ _
  | dirty =>
    obtain ⟨b, hb, hlen, -⟩ := hcow hdirty
    simp only [hdirty, hb, Option.getD_some, Option.some.injEq] at h
    rw [← h]
    exact hlen

/-- A write whose copy was short fails and leaves its node clean. -/
theorem writeNode_of_none (h : writeBlock fd n env = none) (buff : List Byte) (offset : ℕ) :
    (writeNode fd n buff offset env).1 = -eio ∧
      (writeNode fd n buff offset env).2.2 =
        { n with dirty := .clean, cowbuff := none, cowlen := 0 } := by
  rw [writeBlock] at h
  rw [writeNode]
  cases hdirty : n.dirty with
  | clean =>
    simp only [hdirty] at h
    obtain ⟨fd', hcopy⟩ : ∃ fd', copyNode fd n env = (fd', none) := ⟨_, Prod.ext rfl h⟩
    rw [hcopy]
    exact ⟨rfl, rfl⟩
  | dirty =>
    simp only [hdirty] at h
    cases h

/-- A write with a block stores its bytes there. -/
theorem writeNode_of_some (h : writeBlock fd n env = some cow) (buff : List Byte) (offset : ℕ) :
    (writeNode fd n buff offset env).1 = cInt buff.length ∧
      (writeNode fd n buff offset env).2.2 = storeCow n cow buff offset env := by
  rw [writeBlock] at h
  rw [writeNode]
  cases hdirty : n.dirty with
  | clean =>
    simp only [hdirty] at h
    obtain ⟨fd', hcopy⟩ : ∃ fd', copyNode fd n env = (fd', some cow) := ⟨_, Prod.ext rfl h⟩
    rw [hcopy]
    dsimp only
    exact ⟨rfl, rfl⟩
  | dirty =>
    simp only [hdirty, Option.some.injEq] at h
    rw [← h]
    dsimp only
    exact ⟨rfl, rfl⟩

theorem cowSound_storeCow {buff : List Byte} {offset : ℕ} (hlt : offset + buff.length < 2 ^ 63) :
    CowSound (storeCow n cow buff offset env) := fun _ => by
  have hcowlen := cowlen_storeCow n cow (by omega : offset + buff.length < 2 ^ 64) env
  refine ⟨_, cowbuff_storeCow n cow (by omega) env, ?_, ?_⟩
  · rw [List.length_append, length_resize, hcowlen]
  · rw [hcowlen]
    exact hlt

/-- The bytes of a dirty node are those of its buffer. -/
theorem CowSound.content_eq (hcow : CowSound n) (hdirty : n.dirty = .dirty) (data : List Byte) :
    n.cowbuff = some (content data n) ∧ (content data n).length = n.cowlen := by
  obtain ⟨b, hb, hlen, -⟩ := hcow hdirty
  rw [content_of_dirty hdirty hb hlen]
  exact ⟨hb, hlen⟩

theorem content_storeCow {buff : List Byte} {offset : ℕ} (hlt : offset + buff.length < 2 ^ 63)
    (data : List Byte) :
    content data (storeCow n cow buff offset env) =
      resize cow offset env.realloced ++ buff := by
  have hcow : CowSound (storeCow n cow buff offset env) := cowSound_storeCow hlt
  have hbuff := (hcow.content_eq rfl data).1.symm.trans
    (cowbuff_storeCow n cow (by omega) env)
  exact Option.some.inj hbuff

end Block

/-! ### What a call does -/

/-- A call replaces the node `n` of the table by `n'`, which has the same place in the file. -/
structure Replaces (st : TikfsState) (c : FileCall) (fd : OpenFile) (i : ℕ) (n n' : Fnode) :
    Prop where
  node : st.table[i]? = some n
  perform_eq : st.perform c = ⟨fd, st.table.set i n'⟩
  fd_data : fd.data = st.fd.data
  fd_append : fd.append = st.fd.append
  data_eq : n'.data = n.data
  len_eq : n'.metaHdr.len = n.metaHdr.len
  key_eq : n'.metaHdr.key = n.metaHdr.key
  cow : c.Valid → CowSound n → CowSound n'
  content_eq : c.target st.table ≠ some i → content st.fd.data n' = content st.fd.data n

section Calls

variable {st : TikfsState} {c : FileCall} {fd : OpenFile} {i : ℕ} {n n' : Fnode}

theorem replaces_read {path : List Byte} (hfile : fileType st.table path = .file i)
    (hn : st.table[i]? = some n) (size offset : ℕ) (now : Int64) :
    Replaces st (.read path size offset now) (readNode st.fd n size offset now).2.2.1 i n
      (readNode st.fd n size offset now).2.2.2 := by
  obtain ⟨hdata, happend⟩ := readNode_data st.fd n size offset now
  have hperform := congrArg (fun r => r.2.2) (tikfsRead_of_file hfile hn size offset now)
  have hnode := readNode_node st.fd n size offset now
  by_cases hoff : offset > visibleLen n
  · rw [if_pos hoff] at hnode
    exact ⟨hn, hperform, hdata, happend, by rw [hnode], by rw [hnode], by rw [hnode],
      fun _ hcow => by rw [hnode]; exact hcow, fun _ => by rw [hnode]⟩
  · rw [if_neg hoff] at hnode
    exact ⟨hn, hperform, hdata, happend, by rw [hnode], by rw [hnode], by rw [hnode],
      fun _ hcow => by rw [hnode]; exact hcow, fun _ => by rw [hnode]; rfl⟩

theorem replaces_write {path : List Byte} (hfile : fileType st.table path = .file i)
    (hn : st.table[i]? = some n) (buff : List Byte) (offset : ℕ) (env : WriteEnv) :
    Replaces st (.write path buff offset env) (writeNode st.fd n buff offset env).2.1 i n
      (writeNode st.fd n buff offset env).2.2 := by
  obtain ⟨hdata, happend⟩ := writeNode_data st.fd n buff offset env
  have hperform := congrArg Prod.snd (tikfsWrite_of_file hfile hn buff offset env)
  have htarget : (FileCall.write path buff offset env).target st.table = some i := by
    rw [FileCall.target, hfile]
  cases hblock : writeBlock st.fd n env with
  | none =>
    have hnode := (writeNode_of_none hblock buff offset).2
    have hcow : CowSound (writeNode st.fd n buff offset env).2.2 := fun hdirty => by
      rw [hnode] at hdirty
      cases hdirty
    exact ⟨hn, hperform, hdata, happend, by rw [hnode], by rw [hnode], by rw [hnode],
      fun _ _ => hcow, fun hne => absurd htarget hne⟩
  | some cow =>
    have hnode := (writeNode_of_some hblock buff offset).2
    exact ⟨hn, hperform, hdata, happend, by rw [hnode]; rfl, by rw [hnode]; rfl,
      by rw [hnode]; rfl, fun hc _ => by rw [hnode]; exact cowSound_storeCow hc,
      fun hne => absurd htarget hne⟩

/-- **A call** that is not a flush changes nothing, or replaces one node. -/
theorem perform_cases (st : TikfsState) (hflush : ∀ env, c ≠ .flush env) :
    st.perform c = st ∨ ∃ fd i n n', Replaces st c fd i n n' := by
  cases c with
  | read path size offset now =>
    obtain ⟨i, n, hfile, hn⟩ | hnone := file_cases st path
    · exact .inr ⟨_, i, n, _, replaces_read hfile hn size offset now⟩
    · rw [TikfsState.perform, tikfsRead_of_not_file hnone]
      exact .inl rfl
  | getattr => exact .inl rfl
  | truncate path size => exact .inl (tikfsTruncate_snd st path size)
  | write path buff offset env =>
    obtain ⟨i, n, hfile, hn⟩ | hnone := file_cases st path
    · exact .inr ⟨_, i, n, _, replaces_write hfile hn buff offset env⟩
    · rw [TikfsState.perform, tikfsWrite_of_not_file hnone]
      exact .inl rfl
  | flush env => exact absurd rfl (hflush env)

theorem Replaces.mounted (hr : Replaces st c fd i n n') (h : Mounted st) (hc : c.Valid) :
    Mounted (st.perform c) := by
  rw [hr.perform_eq]
  refine ⟨hr.fd_append.trans h.append_eq, ?_, fun m hm => ?_⟩
  · have hlaid := h.laidOut.set hr.node hr.data_eq hr.len_eq
    rw [← hr.fd_data] at hlaid
    exact hlaid
  · rcases List.mem_or_eq_of_mem_set hm with hmem | rfl
    · exact h.cow m hmem
    · exact hr.cow hc (h.cow n (List.mem_of_getElem? hr.node))

theorem Replaces.contentOf (hr : Replaces st c fd i n n') (j : ℕ) :
    (st.perform c).contentOf j =
      if j = i then some (content st.fd.data n') else st.contentOf j := by
  obtain ⟨hlt, -⟩ := List.getElem?_eq_some_iff.mp hr.node
  rw [hr.perform_eq, TikfsState.contentOf, TikfsState.contentOf, hr.fd_data]
  split_ifs with hj
  · rw [hj, List.getElem?_set_self hlt]
    rfl
  · rw [List.getElem?_set_ne (Ne.symm hj)]

/-- **A call keeps the layout.** -/
theorem Mounted.perform (h : Mounted st) (hc : c.Valid) : Mounted (st.perform c) := by
  by_cases hflush : ∃ env, c = .flush env
  · obtain ⟨env, rfl⟩ := hflush
    exact h.flush env
  · obtain hsame | ⟨fd, i, n, n', hr⟩ := perform_cases st fun env henv => hflush ⟨env, henv⟩
    · rw [hsame]
      exact h
    · exact hr.mounted h hc

/-- Only a flush changes the file. -/
theorem perform_data (st : TikfsState) (hflush : ∀ env, c ≠ .flush env) :
    (st.perform c).fd.data = st.fd.data := by
  obtain hsame | ⟨fd, i, n, n', hr⟩ := perform_cases st hflush
  · rw [hsame]
  · rw [hr.perform_eq]
    exact hr.fd_data

/-- **Frame rule.** A call keeps the bytes of the nodes that it does not write to. -/
theorem contentOf_perform_of_ne (st : TikfsState) (hflush : ∀ env, c ≠ .flush env) {j : ℕ}
    (hj : c.target st.table ≠ some j) : (st.perform c).contentOf j = st.contentOf j := by
  obtain hsame | ⟨fd, i, n, n', hr⟩ := perform_cases st hflush
  · rw [hsame]
  · rw [hr.contentOf j]
    split_ifs with hij
    · rw [hij, TikfsState.contentOf, hr.node, hr.content_eq (hij ▸ hj)]
      rfl
    · rfl

/-- **Calls keep the layout**, in any order and with flushes between them. -/
theorem mounted_of_run {rs : List Record} {st₀ : TikfsState}
    (hinit : tikfsInit (encodeDb rs) = .ok st₀)
    (hrun : Run FileStep (fun _ c => c.Valid) st₀ st) : Mounted st := by
  refine hrun.invariant (mounted_of_tikfsInit hinit) fun hs hc hstep => ?_
  obtain rfl := hstep
  exact hs.perform hc

end Calls

/-! ### The file model of a session -/

/-- A call of a session in which every write starts inside its file and every `read` from disc
succeeds in full. -/
def InSession (st : TikfsState) : FileCall → Prop
  | .read _ size offset _ => size < 2 ^ 62 ∧ offset < 2 ^ 62
  | .getattr .. => True
  | .write path buff offset env =>
    buff ≠ [] ∧ buff.length < 2 ^ 62 ∧ offset < 2 ^ 62 ∧ env.answer = .full ∧
      ∀ i bs, fileType st.table path = .file i → st.contentOf i = some bs → offset ≤ bs.length
  | .truncate .. | .flush _ => False

/-- The bytes of a node: `len` bytes at `data` on disc, or `cowlen` bytes in `cowbuff`. -/
structure HasContent (data : List Byte) (n : Fnode) (bs : List Byte) : Prop where
  clean : n.dirty = .clean → bs = onDisc data n ∧ bs.length = n.metaHdr.len.toNat
  dirty : n.dirty = .dirty → n.cowbuff = some bs ∧ bs.length = n.cowlen

/-- What the calls of a session do with the path of the node `i`, whose bytes are `bs`. -/
structure FileAt (st : TikfsState) (path : List Byte) (i : ℕ) (bs : List Byte) : Prop where
  getattr : ∀ env stbuf, (tikfsGetattr st path env stbuf).1 = 0 ∧
    (tikfsGetattr st path env stbuf).2.size = bs.length
  read : ∀ size offset now, InSession st (.read path size offset now) → offset ≤ bs.length →
    (tikfsRead st path size offset now).1 = cInt (min size (bs.length - offset) : ℕ) ∧
      (tikfsRead st path size offset now).2.1 =
        (bs.drop offset).take (min size (bs.length - offset))
  read_count : ∀ size offset now, InSession st (.read path size offset now) →
    offset ≤ bs.length → min size (bs.length - offset) < 2 ^ 31 →
    (tikfsRead st path size offset now).1 = (min size (bs.length - offset) : ℕ)
  read_beyond : ∀ size offset now, InSession st (.read path size offset now) →
    bs.length < offset → (tikfsRead st path size offset now).1 = -einval ∧
      (tikfsRead st path size offset now).2.1 = []
  write : ∀ buff offset env, InSession st (.write path buff offset env) →
    (tikfsWrite st path buff offset env).1 = cInt buff.length ∧
      (tikfsWrite st path buff offset env).2.contentOf i = some (bs.take offset ++ buff)

theorem InSession.valid {st : TikfsState} {c : FileCall} (h : InSession st c) : c.Valid := by
  cases c with
  | write path buff offset env =>
    obtain ⟨-, hsize, hoff, -⟩ := h
    show offset + buff.length < 2 ^ 63
    omega
  | _ => trivial

theorem InSession.ne_flush {st : TikfsState} {c : FileCall} (h : InSession st c)
    (env : FlushEnv) : c ≠ .flush env := by
  rintro rfl
  exact h

namespace Mounted

variable {st : TikfsState} {i : ℕ} {n : Fnode}

/-- Every node of a mounted file system has its bytes. -/
theorem hasContent (h : Mounted st) (hn : n ∈ st.table) :
    HasContent st.fd.data n (content st.fd.data n) where
  clean hclean := by
    rw [content_of_clean hclean]
    exact ⟨rfl, h.onDisc_length hn⟩
  dirty hdirty := (h.cow n hn).content_eq hdirty _

theorem content_length (h : Mounted st) (hn : n ∈ st.table) :
    (content st.fd.data n).length = visibleLen n ∧ visibleLen n < 2 ^ 63 := by
  rw [visibleLen]
  cases hdirty : n.dirty with
  | clean =>
    exact ⟨((h.hasContent hn).clean hdirty).2, n.metaHdr.len.toNat_lt.trans (by decide)⟩
  | dirty =>
    obtain ⟨b, -, -, hlt⟩ := h.cow n hn hdirty
    exact ⟨((h.hasContent hn).dirty hdirty).2, hlt⟩

/-- A write whose `read` succeeds in full stores into the bytes of its node. -/
theorem writeBlock_of_full (h : Mounted st) (hn : n ∈ st.table) {env : WriteEnv}
    (henv : env.answer = .full) :
    writeBlock st.fd n env = some (content st.fd.data n) := by
  rw [writeBlock]
  cases hdirty : n.dirty with
  | clean =>
    rw [copyNode_full (h.onDisc_length hn) henv, content_of_clean hdirty]
  | dirty => rw [((h.hasContent hn).dirty hdirty).1, Option.getD_some]

/-- The path of a node with its bytes. -/
theorem fileAt (h : Mounted st) {path bs : List Byte} (hfile : fileType st.table path = .file i)
    (hbs : st.contentOf i = some bs) : FileAt st path i bs := by
  obtain ⟨n, hn, rfl⟩ := Option.map_eq_some_iff.mp hbs
  have hmem := List.mem_of_getElem? hn
  obtain ⟨hlen, hlt⟩ := h.content_length hmem
  have hinside : ∀ size offset now, InSession st (.read path size offset now) →
      offset ≤ (content st.fd.data n).length →
      (tikfsRead st path size offset now).1 =
        cInt (min size ((content st.fd.data n).length - offset) : ℕ) ∧
      (tikfsRead st path size offset now).2.1 = ((content st.fd.data n).drop offset).take
        (min size ((content st.fd.data n).length - offset)) := fun size offset now hc hoff => by
    have hread := readNode_eq_readSlice hlen (show offset + size < 2 ^ 64 by
      have := hc.1; have := hc.2; omega) now
    rw [readSlice, if_neg (Nat.not_lt.mpr hoff), List.length_take, List.length_drop,
      List.take_eq_take_min, List.length_drop] at hread
    rw [tikfsRead_of_file hfile hn]
    dsimp only at hread ⊢
    exact hread
  refine ⟨fun env stbuf => ?_, hinside, fun size offset now hc hoff hcount => ?_,
    fun size offset now hc hoff => ?_, fun buff offset env hc => ?_⟩
  · obtain ⟨hret, hsize⟩ := tikfsGetattr_of_file hfile hn env stbuf
    rw [hlen, hsize]
    exact ⟨hret, cOffT_natCast hlt⟩
  · exact (hinside size offset now hc hoff).1.trans (cInt_natCast hcount)
  · have hread := readNode_eq_readSlice hlen (show offset + size < 2 ^ 64 by
      have := hc.1; have := hc.2; omega) now
    rw [readSlice, if_pos hoff] at hread
    rw [tikfsRead_of_file hfile hn]
    exact hread
  · have hblock := h.writeBlock_of_full hmem hc.2.2.2.1
    have hret := (writeNode_of_some hblock buff offset).1
    have hcontent := (replaces_write hfile hn buff offset env).contentOf i
    rw [if_pos rfl, (writeNode_of_some hblock buff offset).2,
      content_storeCow (InSession.valid hc),
      resize_of_le (hc.2.2.2.2 i _ hfile hbs)] at hcontent
    refine ⟨?_, hcontent⟩
    rw [tikfsWrite_of_file hfile hn]
    exact hret

end Mounted

/-- **The file model of a session.** In every state that is reached from a mounted file by calls of
`tikfs_read`, `tikfs_getattr` and `tikfs_write`, where every write starts inside its file, the file
on disc is the mounted one and every node has its bytes, on disc or in `cowbuff`. The calls report
the number of these bytes, return the requested ones and put those of a write at their place; they
leave the bytes of every other node as they are. -/
theorem in_session {rs : List Record} {st₀ st : TikfsState}
    (hinit : tikfsInit (encodeDb rs) = .ok st₀) (hrun : Run FileStep InSession st₀ st) :
    st.fd.data = encodeDb rs ∧
      (∀ i n, st.table[i]? = some n →
        ∃ bs, st.contentOf i = some bs ∧ HasContent st.fd.data n bs) ∧
      (∀ path i bs, fileType st.table path = .file i → st.contentOf i = some bs →
        FileAt st path i bs) ∧
      ∀ c, InSession st c → ∀ j, c.target st.table ≠ some j →
        (st.perform c).contentOf j = st.contentOf j := by
  have hmounted := mounted_of_run hinit (hrun.mono fun hc => hc.valid)
  have hdata : st.fd.data = encodeDb rs := by
    refine hrun.invariant (p := fun s => s.fd.data = encodeDb rs) ?_ fun {s c s'} hs hc hstep => ?_
    · obtain ⟨-, -, rfl⟩ := eq_of_tikfsInit hinit
      rfl
    · obtain rfl := hstep
      exact (perform_data s hc.ne_flush).trans hs
  refine ⟨hdata, fun i n hn => ⟨content st.fd.data n, ?_, ?_⟩, fun path i bs => hmounted.fileAt,
    fun c hc j => contentOf_perform_of_ne st hc.ne_flush⟩
  · rw [TikfsState.contentOf, hn, Option.map_some]
  · exact hmounted.hasContent (List.mem_of_getElem? hn)

/-- The file `"f"` with the bytes `"ab"`, just after its mount. -/
def mountF : TikfsState :=
  ⟨⟨encodeDb [recordF], 0, true⟩, cleanNodes FileHdr.size [recordF]⟩

theorem tikfsInit_mountF : tikfsInit (encodeDb [recordF]) = .ok mountF :=
  tikfsInit_encodeDb (by decide) (by decide)

theorem fileType_mountF : fileType mountF.table [47, 102] = .file 0 := by decide +kernel

theorem contentOf_mountF : mountF.contentOf 0 = some [97, 98] := by decide +kernel

/-- A write of `"c"` behind the bytes `"ab"`. -/
theorem in_session_append : ∃ st : TikfsState, st.fd.data = encodeDb [recordF] ∧
    st.contentOf 0 = some [97, 98, 99] ∧ FileAt st [47, 102] 0 [97, 98, 99] := by
  have hcall : InSession mountF (.write [47, 102] [99] 2 ⟨.full, fun _ => 0, fun _ => 0, 0⟩) := by
    refine ⟨by decide, by decide, by decide, rfl, fun i bs hi hbs => ?_⟩
    obtain rfl := FileType.file.inj (fileType_mountF.symm.trans hi)
    obtain rfl := Option.some.inj (contentOf_mountF.symm.trans hbs)
    exact le_rfl
  obtain ⟨-, -, hmount, -⟩ := in_session tikfsInit_mountF .refl
  obtain ⟨hdata, -, hat, -⟩ := in_session tikfsInit_mountF (Run.refl.step hcall rfl)
  have hcontent := ((hmount _ _ _ fileType_mountF contentOf_mountF).write _ _ _ hcall).2
  exact ⟨_, hdata, hcontent, hat _ _ _ (by decide +kernel) hcontent⟩

end TikFachpraktika.Tikfs
