import TikFachpraktika.Tikfs.Contents

/-!
# Writing the rest of the file anew

At the first node of another length a flush copies the file from there on, cuts it off and writes
all nodes from this one on anew. Each of them gets its header with its current length and the bytes
that it had before: a dirty one from its buffer, a clean one from the copy, at its old place less
the place where the copy starts. The places of the nodes are overwritten one by one, each after the
last read that uses it.

## Main definitions

* `RewrittenAt`: a node that has been written anew, with the bytes before it.

## Main results

* `Mounted.rewriteFrom_written`: what the branch leaves.
* `rewrite_exact`: the same for a flush of a reachable state.
-/

namespace TikFachpraktika.Tikfs

open Posix Tikdb Transition

/-- The node `m'` is the node `m` of the file `before`, written anew behind `pre` in the file
`after`. -/
structure RewrittenAt (before after pre : List Byte) (m m' : Fnode) : Prop where
  hdr_eq : m'.metaHdr = currentHdr m
  clean : m'.dirty = .clean
  file_eq : ∃ post, after = pre ++ (currentHdr m).encode ++ (content before m ++ post)
  data_eq : m'.data = (pre ++ (currentHdr m).encode).length
  len_eq : m'.metaHdr.len.toNat = (content before m).length
  onDisc_eq : onDisc after m' = content before m

/-! ### The branch -/

theorem length_rewriteLoop (malloced : ℕ → Byte) (offshift : ℕ) : (ns : List Fnode) →
    (fd fd2 : OpenFile) → (rewriteLoop malloced offshift ns fd fd2).2.length = ns.length
  | [], _, _ => rfl
  | n :: ns, fd, fd2 => by
      rw [rewriteLoop]
      cases n.dirty with
      | dirty => exact congrArg (· + 1) (length_rewriteLoop malloced offshift ns _ fd2)
      | clean => exact congrArg (· + 1) (length_rewriteLoop malloced offshift ns _ _)

theorem length_flushLoop (env : FlushEnv) : (ns : List Fnode) → (fd : OpenFile) →
    (flushLoop env ns fd).2.length = ns.length
  | [], _ => rfl
  | n :: ns, fd => by
      rw [flushLoop]
      cases n.dirty with
      | clean => exact congrArg (· + 1) (length_flushLoop env ns fd)
      | dirty =>
        dsimp only
        split_ifs
        · exact congrArg (· + 1) (length_flushLoop env ns _)
        · obtain ⟨fd', fd2, hrewrite, -⟩ := rewriteFrom_eq env fd n ns
          rw [hrewrite, length_rewriteLoop]

/-- A node lies behind the header of every node before it. -/
theorem LaidOut.data_le {lo hi : ℕ} {ns : List Fnode} {n m : Fnode}
    (h : LaidOut lo hi (n :: ns)) (hm : m ∈ n :: ns) :
    lo + DataHdr.size ≤ n.data ∧ n.data ≤ m.data := by
  refine ⟨h.1, ?_⟩
  induction ns generalizing lo n with
  | nil =>
    obtain rfl := List.mem_singleton.mp hm
    exact le_rfl
  | cons k ns ih =>
    rcases List.mem_cons.mp hm with rfl | hmem
    · exact le_rfl
    · have hnext := h.2.1
      have hlast := ih h.2 hmem
      omega

/-- A layout in two parts. -/
theorem LaidOut.exists_append {hi : ℕ} {ms : List Fnode} : {ns : List Fnode} → {lo : ℕ} →
    LaidOut lo hi (ns ++ ms) → ∃ mid, LaidOut lo mid ns ∧ LaidOut mid hi ms
  | [], lo, h => ⟨lo, le_rfl, h⟩
  | n :: ns, lo, h => by
      obtain ⟨mid, hfirst, hsecond⟩ := h.2.exists_append
      exact ⟨mid, ⟨h.1, hfirst⟩, hsecond⟩

namespace Mounted

variable {st : TikfsState} {ns₁ ns₂ : List Fnode} {n : Fnode}

/-- The nodes from one node on can be read for writing them anew, also after a part of the flush
has put bytes behind the file. -/
theorem readable (h : Mounted st) (htable : st.table = ns₁ ++ n :: ns₂) (rest : List Byte)
    {m : Fnode} (hm : m ∈ n :: ns₂) : Readable (st.fd.data ++ rest) n.data m := by
  have hmem : m ∈ st.table := htable ▸ List.mem_append_right ns₁ hm
  have hlaid := h.laidOut
  rw [htable] at hlaid
  obtain ⟨mid, -, hlaid₂⟩ := hlaid.exists_append
  have hlen := (h.content_length hmem).1
  refine ⟨fun _ => (hlaid₂.data_le hm).2, ?_⟩
  rw [content_append_of_length hlen, hlen]

/-- **What the branch leaves** that writes the file anew from the node `n` on, when the nodes before
it have put the bytes `rest` behind the file. -/
theorem rewriteFrom_written (h : Mounted st) (htable : st.table = ns₁ ++ n :: ns₂)
    (env : FlushEnv) {fd : OpenFile} (happend : fd.append = true) {rest : List Byte}
    (hdata : fd.data = st.fd.data ++ rest) :
    (rewriteFrom env fd n ns₂).1.data =
        st.fd.data.take (n.data - DataHdr.size) ++ emitted st.fd.data (n :: ns₂) ∧
      (rewriteFrom env fd n ns₂).2.length = (n :: ns₂).length ∧
      ∀ ms₁ m ms₂, n :: ns₂ = ms₁ ++ m :: ms₂ →
        ∃ m', (rewriteFrom env fd n ns₂).2[ms₁.length]? = some m' ∧
          m'.metaHdr = currentHdr m ∧ m'.dirty = .clean ∧
          m'.data + m'.metaHdr.len.toNat =
            (st.fd.data.take (n.data - DataHdr.size) ++ emitted st.fd.data ms₁ ++
              ((currentHdr m).encode ++ content st.fd.data m)).length := by
  have hcontent : ∀ m ∈ n :: ns₂, content fd.data m = content st.fd.data m := fun m hm => by
    rw [hdata]
    exact content_append_of_length
      (h.content_length (htable ▸ List.mem_append_right ns₁ hm)).1 rest
  have hemitted : ∀ ms ⊆ n :: ns₂, emitted fd.data ms = emitted st.fd.data ms := fun ms hms =>
    List.flatMap_congr fun m hm => by rw [hcontent m (hms hm)]
  obtain ⟨fd', fd2, hrewrite, happend', hfd', hfd2⟩ := rewriteFrom_eq env fd n ns₂
  have hreadable : ∀ m ∈ n :: ns₂, Readable fd.data n.data m := fun m hm => by
    rw [hdata]
    exact h.readable htable rest hm
  obtain ⟨hloop, hsplit⟩ := rewriteLoop_written env.malloced (n :: ns₂) fd' fd2
    (happend'.trans happend) hfd2 hreadable
  have hle := h.laidOut.le_of_mem (htable ▸ List.mem_append_right ns₁ List.mem_cons_self)
  have hcut : fd'.data = st.fd.data.take (n.data - DataHdr.size) := by
    rw [hfd', OpenFile.ftruncate_data_of_le, OpenFile.lseekSet_data, hdata,
      List.take_append_of_le_length (by omega)]
    rw [OpenFile.lseekSet_data, hdata, List.length_append]
    omega
  rw [hrewrite, hloop, hcut, hemitted _ (List.Subset.refl _)]
  refine ⟨rfl, length_rewriteLoop _ _ _ _ _, fun ms₁ m ms₂ hms => ?_⟩
  have hm : m ∈ n :: ns₂ := hms ▸ List.mem_append_right ms₁ List.mem_cons_self
  have hms₁ : ms₁ ⊆ n :: ns₂ := hms ▸ List.subset_append_left ms₁ (m :: ms₂)
  obtain ⟨m', hm', hhdr, hclean, hplace⟩ := hsplit ms₁ m ms₂ hms
  rw [hcut, hemitted ms₁ hms₁, hcontent m hm] at hplace
  exact ⟨m', hm', hhdr, hclean, hplace⟩

/-- A node of less than `2^32` bytes that the branch writes anew. -/
theorem rewrittenAt (h : Mounted st) (htable : st.table = ns₁ ++ n :: ns₂) (env : FlushEnv)
    {fd : OpenFile} (happend : fd.append = true) {rest : List Byte}
    (hdata : fd.data = st.fd.data ++ rest) {ms₁ ms₂ : List Fnode} {m : Fnode}
    (hms : n :: ns₂ = ms₁ ++ m :: ms₂) (hlt : visibleLen m < 2 ^ 32) :
    ∃ m', (rewriteFrom env fd n ns₂).2[ms₁.length]? = some m' ∧
      RewrittenAt st.fd.data (rewriteFrom env fd n ns₂).1.data
        (st.fd.data.take (n.data - DataHdr.size) ++ emitted st.fd.data ms₁) m m' := by
  obtain ⟨hfile, -, hsplit⟩ := h.rewriteFrom_written htable env happend hdata
  obtain ⟨m', hm', hhdr, hclean, hplace⟩ := hsplit ms₁ m ms₂ hms
  have hm : m ∈ n :: ns₂ := hms ▸ List.mem_append_right ms₁ List.mem_cons_self
  have hlen : m'.metaHdr.len.toNat = (content st.fd.data m).length := by
    rw [hhdr, (h.content_length (htable ▸ List.mem_append_right ns₁ hm)).1]
    exact (currentHdr_len_eq_iff m).mpr hlt
  have hpos : m'.data = (st.fd.data.take (n.data - DataHdr.size) ++ emitted st.fd.data ms₁ ++
      (currentHdr m).encode).length := by
    refine Nat.add_right_cancel (m := (content st.fd.data m).length) ?_
    rw [← List.length_append, List.append_assoc _ (currentHdr m).encode, ← hplace, hlen]
  rw [hms, emitted_append, emitted_cons] at hfile
  have hafter : (rewriteFrom env fd n ns₂).1.data =
      st.fd.data.take (n.data - DataHdr.size) ++ emitted st.fd.data ms₁ ++
        (currentHdr m).encode ++ (content st.fd.data m ++ emitted st.fd.data ms₂) := by
    rw [hfile]
    simp only [List.append_assoc]
  refine ⟨m', hm', hhdr, hclean, ⟨_, hafter⟩, hpos, hlen, ?_⟩
  rw [onDisc, hafter, hlen, hpos, List.drop_left, List.take_left]

end Mounted

/-! ### A flush -/

/-- **The rest of the file is written anew exactly.** In every state that calls and flushes reach
from a mounted file, a flush enters the branch at its first node `n` of another length. There the
file is `fd`, and when it leaves the branch the file consists of the first part of `fd`, up to the
header of `n`, and of the headers and bytes of all nodes from `n` on. These nodes are clean and know
their places. -/
theorem rewrite_exact {rs : List Record} {st₀ st : TikfsState}
    (hinit : tikfsInit (encodeDb rs) = .ok st₀)
    (hrun : Run FileStep (fun _ c => c.Valid) st₀ st) (env : FlushEnv) {ns₁ ns₂ : List Fnode}
    {n : Fnode} (htable : st.table = ns₁ ++ n :: ns₂) (hns₁ : ∀ m ∈ ns₁, ¬ LengthChanged m)
    (hn : LengthChanged n) (hlt : ∀ m ∈ n :: ns₂, visibleLen m < 2 ^ 32) :
    ∃ fd ns₁' fd' ns', flushLoop env ns₁ st.fd = (fd, ns₁') ∧
      rewriteFrom env fd n ns₂ = (fd', ns') ∧ flush env st = ⟨fd', ns₁' ++ ns'⟩ ∧
      fd'.data = fd.data.take (n.data - DataHdr.size) ++ emitted st.fd.data (n :: ns₂) ∧
      ns'.length = (n :: ns₂).length ∧
      ∀ ms₁ m ms₂, n :: ns₂ = ms₁ ++ m :: ms₂ → ∃ m', ns'[ms₁.length]? = some m' ∧
        RewrittenAt st.fd.data fd'.data
          (fd.data.take (n.data - DataHdr.size) ++ emitted st.fd.data ms₁) m m' := by
  have hmounted := mounted_of_run hinit hrun
  obtain ⟨happend, hdata, -⟩ := flushLoop_inPlace env ns₁ st.fd hmounted.append_eq hns₁
  obtain ⟨hfile, hlength, -⟩ := hmounted.rewriteFrom_written htable env happend hdata
  have hle := hmounted.laidOut.le_of_mem (htable ▸ List.mem_append_right ns₁ List.mem_cons_self)
  have hcut : (flushLoop env ns₁ st.fd).1.data.take (n.data - DataHdr.size) =
      st.fd.data.take (n.data - DataHdr.size) := by
    rw [hdata, List.take_append_of_le_length (by omega)]
  refine ⟨(flushLoop env ns₁ st.fd).1, (flushLoop env ns₁ st.fd).2,
    (rewriteFrom env (flushLoop env ns₁ st.fd).1 n ns₂).1,
    (rewriteFrom env (flushLoop env ns₁ st.fd).1 n ns₂).2, rfl, rfl,
    flush_of_split env htable hns₁ hn, by rw [hfile, hcut], hlength, fun ms₁ m ms₂ hms => ?_⟩
  rw [hcut]
  exact hmounted.rewrittenAt htable env happend hdata hms
    (hlt m (hms ▸ List.mem_append_right ms₁ List.mem_cons_self))

/-- A write of `"abc"` to the file `"f"`. -/
def writeAbc : FileCall :=
  .write [47, 102] [97, 98, 99] 0 ⟨.full, fun _ => 0, fun _ => 0, 0⟩

/-- The file `"f"` with the bytes `"ab"` just after this write. -/
def longerF : TikfsState :=
  mountF.perform writeAbc

/-- The node of this file. -/
def longerNode : Fnode :=
  ⟨recordF.hdr, 64, .dirty, some [97, 98, 99], 3⟩

theorem run_longerF : Run FileStep (fun _ c => c.Valid) mountF longerF :=
  have hvalid : writeAbc.Valid := show 0 + [97, 98, 99].length < 2 ^ 63 by decide
  Run.refl.step hvalid rfl

/-- The flush of a file that has become longer. -/
theorem rewrite_exact_longerF :
    (flush flushEnv longerF).fd.data =
      superblock.encode ++ ((currentHdr longerNode).encode ++ [97, 98, 99]) := by
  have htable : longerF.table = [] ++ longerNode :: [] := by decide +kernel
  obtain ⟨fd, ns₁', fd', ns', hfd, -, hflush, hdata, -⟩ := rewrite_exact tikfsInit_mountF
    run_longerF flushEnv htable (List.forall_mem_nil _) (by decide)
    (List.forall_mem_singleton.mpr (by decide))
  obtain rfl : longerF.fd = fd := congrArg Prod.fst hfd
  rw [hflush, hdata]
  decide +kernel

end TikFachpraktika.Tikfs
