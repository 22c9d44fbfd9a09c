import TikFachpraktika.Tikfs.Session
import TikFachpraktika.Transition.Run
import Mathlib.Data.Fintype.Defs

/-!
# Concurrent calls

`fuse_main` runs the calls in several threads, and all of them use the one descriptor `tikfs_fd`
with its file offset. Here `tikfs_read` and `tikfs_write` of `5_filesys/tikfs.c` are programs
whose `lseek` and `read` are separate steps. The flags `flushing` and `rwing` keep a flush and the
calls apart; no call waits for another one.

## Main definitions

* `Job`, `Pc`, `Job.step`: a call, its local state and its steps.
* `World`, `World.step`, `World.Run`: interleavings of calls.
* `Job.Right`: a call that has read the bytes of its own file.
* `Alone`: a step that does not fall between the `lseek` and the `read` of another call.

## Main results

* `right_of_run_alone`: calls whose system calls are never interleaved read their own files.
* `not_forall_right`: other calls do not.
-/

namespace TikFachpraktika.Tikfs

open Posix Tikdb Transition

/-- A call after `tikfs_file_type` has found its node. -/
inductive Job
  | read (node size offset : ℕ) (now : Int64)
  | write (node : ℕ) (buff : List Byte) (offset : ℕ) (env : WriteEnv)

/-- The node of a call. -/
def Job.node : Job → ℕ
  | .read node _ _ _ => node
  | .write node _ _ _ => node

/-- Where a call stands: before its test of `flushing`, before its `lseek` and its `read` with the
number of bytes to read, before it clears `rwing`, and at its end. `got` are the bytes that the
`read` has stored. -/
inductive Pc
  | start
  | lseek (size : ℕ)
  | read (size : ℕ)
  | finish (ret : ℤ) (got : List Byte)
  | done (ret : ℤ) (got : List Byte)
  deriving DecidableEq

/-- What all calls share apart from the table: the descriptor and the two flags. -/
structure Shared where
  fd : OpenFile
  flushing : Bool
  rwing : Bool

/-- A step of `tikfs_read`. -/
def stepRead (size offset : ℕ) (now : Int64) (sh : Shared) (n : Fnode) :
    Pc → Option (Shared × Fnode × Pc)
  | .start =>
    if sh.flushing then none
    else if offset > visibleLen n then some (sh, n, .done (-einval) [])
    else
      let size := cutSize (visibleLen n) size offset
      let sh := { sh with rwing := true }
      match n.dirty with
      | .clean => some (sh, n, .lseek size)
      | .dirty => some (sh, n, .finish size (((n.cowbuff.getD []).drop offset).take size))
  | .lseek size => some ({ sh with fd := sh.fd.lseekSet (n.data + offset) }, n, .read size)
  | .read size =>
    let (ret, buff, fd) := sh.fd.read size .full
    some ({ sh with fd := fd }, n, .finish ret buff)
  | .finish ret buff =>
    some ({ sh with rwing := false }, { n with metaHdr := { n.metaHdr with tsR := now } },
      .done (cInt ret) buff)
  | .done _ _ => none

/-- A step of `tikfs_write`. -/
def stepWrite (buff : List Byte) (offset : ℕ) (env : WriteEnv) (sh : Shared) (n : Fnode) :
    Pc → Option (Shared × Fnode × Pc)
  | .start =>
    if sh.flushing then none
    else
      let sh := { sh with rwing := true }
      match n.dirty with
      | .clean =>
        let len := n.metaHdr.len.toNat
        some (sh, { n with dirty := .dirty, cowlen := len,
                           cowbuff := some (resize [] len env.malloced) }, .lseek len)
      | .dirty => some (sh, n, .finish 0 [])
  | .lseek len => some ({ sh with fd := sh.fd.lseekSet n.data }, n, .read len)
  | .read len =>
    let (ret, bs, fd) := sh.fd.read len env.answer
    if cSizeT ret < len then
      some ({ sh with fd := fd, rwing := false },
        { n with dirty := .clean, cowbuff := none, cowlen := 0 }, .done (-eio) bs)
    else
      some ({ sh with fd := fd }, { n with cowbuff := some (resize bs len env.malloced) },
        .finish ret bs)
  | .finish _ bs =>
    some ({ sh with rwing := false }, storeCow n (n.cowbuff.getD []) buff offset env,
      .done (cInt buff.length) bs)
  | .done _ _ => none

/-- A step of a call on its node. -/
def Job.step : Job → Shared → Fnode → Pc → Option (Shared × Fnode × Pc)
  | .read _ size offset now => stepRead size offset now
  | .write _ buff offset env => stepWrite buff offset env

/-- Calls `ι` on a mounted file system. -/
structure World (ι : Type*) where
  shared : Shared
  table : List Fnode
  pc : ι → Pc

/-- The calls before their first step. -/
def TikfsState.world (ι : Type*) (st : TikfsState) : World ι where
  shared := ⟨st.fd, false, false⟩
  table := st.table
  pc := fun _ => .start

section World

variable {ι : Type*} [DecidableEq ι]

/-- A step of the call `i`. -/
def World.step (job : ι → Job) (w : World ι) (i : ι) : Option (World ι) :=
  w.table[(job i).node]?.bind fun n =>
    ((job i).step w.shared n (w.pc i)).map fun (sh, n', pc) =>
      ⟨sh, w.table.set (job i).node n', Function.update w.pc i pc⟩

/-- The states that interleavings of the calls reach from `w₀` by steps that meet a condition. -/
def World.Run (job : ι → Job) (cond : World ι → ι → Prop) (w₀ w : World ι) : Prop :=
  Transition.Run (ofFunction (World.step job)) cond w₀ w

/-- The step of the call `i` is not an `lseek` or a `read` between the `lseek` and the `read` of
another call. -/
def Alone (w : World ι) (i : ι) : Prop :=
  (∃ size, w.pc i = .lseek size ∨ w.pc i = .read size) →
    ∀ j size, w.pc j = .read size → j = i

/-- Whether a call stands between its `lseek` and its `read`. -/
def Pc.isRead : Pc → Bool
  | .read _ => true
  | _ => false

/-- Whether the next step of a call is its `lseek` or its `read`. -/
def Pc.isSystemCall : Pc → Bool
  | .lseek _ | .read _ => true
  | _ => false

theorem Pc.isRead_iff {pc : Pc} : pc.isRead ↔ ∃ size, pc = .read size := by
  cases pc <;> simp [isRead]

theorem Pc.isSystemCall_iff {pc : Pc} :
    pc.isSystemCall ↔ ∃ size, pc = .lseek size ∨ pc = .read size := by
  cases pc <;> simp [isSystemCall]

instance [Fintype ι] (w : World ι) (i : ι) : Decidable (Alone w i) :=
  decidable_of_iff ((w.pc i).isSystemCall → ∀ j, (w.pc j).isRead → j = i) <| by
    simp only [Alone, Pc.isSystemCall_iff, Pc.isRead_iff, forall_exists_index]

end World

/-! ### What a call has to read -/

/-- A call whose sums do not exceed 64 bits and whose `read` is answered in full. -/
def Job.Valid : Job → Prop
  | .read _ size offset _ => offset + size < 2 ^ 64
  | .write _ _ _ env => env.answer = .full

/-- A call on a file that lies at `n₀` in the file `data`, with its node `n` in the table now: a
finished read returns the requested bytes of this file, and a write copies this file. -/
def Job.Right (data : List Byte) (n₀ n : Fnode) : Job → Pc → Prop
  | .read _ size offset _, .done ret got => (ret, got) = readSlice (onDisc data n₀) size offset
  | .write _ _ _ _, .finish _ _ => n.cowbuff = some (onDisc data n₀)
  | .write _ buff _ _, .done ret got => ret = cInt buff.length ∧ got = onDisc data n₀
  | _, _ => True

/-- What holds of a call at each of its places; `off` is the shared offset. -/
def Job.Inv (data : List Byte) (n₀ : Fnode) (off : ℕ) (n : Fnode) : Job → Pc → Prop
  | _, .start => n = n₀
  | .read _ size offset _, .lseek size' =>
    n = n₀ ∧ offset ≤ n₀.metaHdr.len.toNat ∧ size' = cutSize n₀.metaHdr.len.toNat size offset
  | .read _ size offset _, .read size' =>
    off = n₀.data + offset ∧
      offset ≤ n₀.metaHdr.len.toNat ∧ size' = cutSize n₀.metaHdr.len.toNat size offset
  | .read _ size offset _, .finish ret got =>
    (cInt ret, got) = readSlice (onDisc data n₀) size offset
  | .write _ _ _ _, .lseek len => n.data = n₀.data ∧ len = n₀.metaHdr.len.toNat
  | .write _ _ _ _, .read len => off = n₀.data ∧ len = n₀.metaHdr.len.toNat
  | .write _ _ _ _, .finish _ got =>
    n.cowbuff = some (onDisc data n₀) ∧ got = onDisc data n₀
  | .read _ size offset _, .done ret got => (ret, got) = readSlice (onDisc data n₀) size offset
  | .write _ buff _ _, .done ret got => ret = cInt buff.length ∧ got = onDisc data n₀

theorem Job.Inv.right {data : List Byte} {n₀ n : Fnode} {off : ℕ} : {job : Job} → {pc : Pc} →
    job.Inv data n₀ off n pc → job.Right data n₀ n pc
  | .read _ _ _ _, .start, _ => trivial
  | .read _ _ _ _, .lseek _, _ => trivial
  | .read _ _ _ _, .read _, _ => trivial
  | .read _ _ _ _, .finish _ _, _ => trivial
  | .read _ _ _ _, .done _ _, h => h
  | .write _ _ _ _, .start, _ => trivial
  | .write _ _ _ _, .lseek _, _ => trivial
  | .write _ _ _ _, .read _, _ => trivial
  | .write _ _ _ _, .finish _ _, h => h.1
  | .write _ _ _ _, .done _ _, h => h

/-- The shared offset matters to a call only between its `lseek` and its `read`. -/
theorem Job.Inv.congr_offset {data : List Byte} {n₀ n : Fnode} {off off' : ℕ} :
    {job : Job} → {pc : Pc} → job.Inv data n₀ off n pc → (∀ size, pc = .read size → off' = off) →
    job.Inv data n₀ off' n pc
  | .read _ _ _ _, .start, h, _ => h
  | .read _ _ _ _, .lseek _, h, _ => h
  | .read _ _ _ _, .read _, h, hoff => hoff _ rfl ▸ h
  | .read _ _ _ _, .finish _ _, h, _ => h
  | .read _ _ _ _, .done _ _, h, _ => h
  | .write _ _ _ _, .start, h, _ => h
  | .write _ _ _ _, .lseek _, h, _ => h
  | .write _ _ _ _, .read _, h, hoff => hoff _ rfl ▸ h
  | .write _ _ _ _, .finish _ _, h, _ => h
  | .write _ _ _ _, .done _ _, h, _ => h

/-! ### One step -/

section Step

variable {data : List Byte} {n₀ n n' : Fnode} {sh sh' : Shared} {pc pc' : Pc}

/-- A read that starts inside its file goes on to a slice of it. -/
theorem readSlice_of_le (hlen : (onDisc data n₀).length = n₀.metaHdr.len.toNat) {size offset : ℕ}
    (hoff : offset ≤ n₀.metaHdr.len.toNat) (hsize : offset + size < 2 ^ 64) :
    readSlice (onDisc data n₀) size offset =
      (cInt (((data.drop (n₀.data + offset)).take
          (cutSize n₀.metaHdr.len.toNat size offset)).length : ℤ),
        (data.drop (n₀.data + offset)).take (cutSize n₀.metaHdr.len.toNat size offset)) := by
  have hslice : ((onDisc data n₀).drop offset).take size =
      (data.drop (n₀.data + offset)).take (cutSize n₀.metaHdr.len.toNat size offset) := by
    rw [cutSize_eq_min hoff hsize, onDisc, List.drop_take, List.drop_drop, List.take_take]
  rw [readSlice, hlen, if_neg (by omega), hslice]

/-- **A step of a read** keeps what holds of it. -/
theorem inv_stepRead {node size offset : ℕ} {now : Int64} (hdata : sh.fd.data = data)
    (hlen : (onDisc data n₀).length = n₀.metaHdr.len.toNat) (hclean : n₀.dirty = .clean)
    (hsize : offset + size < 2 ^ 64)
    (h : (Job.read node size offset now).Inv data n₀ sh.fd.offset n pc)
    (hstep : stepRead size offset now sh n pc = some (sh', n', pc')) :
    (Job.read node size offset now).Inv data n₀ sh'.fd.offset n' pc' := by
  have hvisible : visibleLen n₀ = n₀.metaHdr.len.toNat := by rw [visibleLen, hclean]
  cases pc with
  | start =>
    obtain rfl : n = n₀ := h
    rw [stepRead, hvisible, hclean] at hstep
    split_ifs at hstep with hflush hoff
    · cases hstep
      exact (if_pos (by rw [hlen]; exact hoff)).symm
    · cases hstep
      exact ⟨rfl, by omega, rfl⟩
  | lseek size' =>
    obtain ⟨rfl, hoff, hcut⟩ := h
    cases hstep
    exact ⟨rfl, hoff, hcut⟩
  | read size' =>
    obtain ⟨hoffset, hoff, rfl⟩ := h
    cases hstep
    rw [Job.Inv, readSlice_of_le hlen hoff hsize, ← hdata, ← hoffset]
    rfl
  | finish ret got =>
    cases hstep
    exact h
  | done ret got => cases hstep

/-- **A step of a first write** keeps what holds of it. -/
theorem inv_stepWrite {node offset : ℕ} {buff : List Byte} {env : WriteEnv}
    (hdata : sh.fd.data = data) (hlen : (onDisc data n₀).length = n₀.metaHdr.len.toNat)
    (hclean : n₀.dirty = .clean) (henv : env.answer = .full)
    (h : (Job.write node buff offset env).Inv data n₀ sh.fd.offset n pc)
    (hstep : stepWrite buff offset env sh n pc = some (sh', n', pc')) :
    (Job.write node buff offset env).Inv data n₀ sh'.fd.offset n' pc' := by
  cases pc with
  | start =>
    obtain rfl : n = n₀ := h
    rw [stepWrite, hclean] at hstep
    split_ifs at hstep with hflush
    cases hstep
    exact ⟨rfl, rfl⟩
  | lseek len =>
    obtain ⟨hn, rfl⟩ := h
    cases hstep
    exact ⟨hn, rfl⟩
  | read len =>
    obtain ⟨hoffset, rfl⟩ := h
    have havail : sh.fd.available n₀.metaHdr.len.toNat = onDisc data n₀ := by
      rw [OpenFile.available, hdata, hoffset]
      rfl
    have hsize : cSizeT (n₀.metaHdr.len.toNat : ℤ) = n₀.metaHdr.len.toNat :=
      cSizeT_natCast (by have := n₀.metaHdr.len.toNat_lt; omega)
    simp only [stepWrite, henv, OpenFile.read, havail, hlen, hsize, Nat.lt_irrefl, ↓reduceIte,
      resize_of_length hlen] at hstep
    cases hstep
    exact ⟨rfl, rfl⟩
  | finish ret got =>
    obtain ⟨hcow, rfl⟩ := h
    cases hstep
    exact ⟨rfl, rfl⟩
  | done ret got => cases hstep

/-- A step keeps the bytes of the file, and the offset too unless it is an `lseek` or a `read`. -/
theorem stepRead_shared {size offset : ℕ} {now : Int64}
    (hstep : stepRead size offset now sh n pc = some (sh', n', pc')) :
    sh'.fd.data = sh.fd.data ∧
      (sh'.fd.offset = sh.fd.offset ∨ ∃ size, pc = .lseek size ∨ pc = .read size) := by
  cases pc with
  | start =>
    rw [stepRead] at hstep
    dsimp only at hstep
    split_ifs at hstep with hflush hoff
    · cases hstep
      exact ⟨rfl, .inl rfl⟩
    · split at hstep <;> (cases hstep; exact ⟨rfl, .inl rfl⟩)
  | lseek size' =>
    cases hstep
    exact ⟨rfl, .inr ⟨size', .inl rfl⟩⟩
  | read size' =>
    cases hstep
    exact ⟨rfl, .inr ⟨size', .inr rfl⟩⟩
  | finish ret got =>
    cases hstep
    exact ⟨rfl, .inl rfl⟩
  | done ret got => cases hstep

theorem stepWrite_shared {buff : List Byte} {offset : ℕ} {env : WriteEnv}
    (hstep : stepWrite buff offset env sh n pc = some (sh', n', pc')) :
    sh'.fd.data = sh.fd.data ∧
      (sh'.fd.offset = sh.fd.offset ∨ ∃ size, pc = .lseek size ∨ pc = .read size) := by
  cases pc with
  | start =>
    rw [stepWrite] at hstep
    dsimp only at hstep
    split_ifs at hstep with hflush
    split at hstep <;> (cases hstep; exact ⟨rfl, .inl rfl⟩)
  | lseek len =>
    cases hstep
    exact ⟨rfl, .inr ⟨len, .inl rfl⟩⟩
  | read len =>
    rw [stepWrite] at hstep
    dsimp only at hstep
    split_ifs at hstep with hshort <;>
      (cases hstep; exact ⟨OpenFile.read_data _ _ _, .inr ⟨len, .inr rfl⟩⟩)
  | finish ret got =>
    cases hstep
    exact ⟨rfl, .inl rfl⟩
  | done ret got => cases hstep

theorem Job.step_shared : {job : Job} → job.step sh n pc = some (sh', n', pc') →
    sh'.fd.data = sh.fd.data ∧
      (sh'.fd.offset = sh.fd.offset ∨ ∃ size, pc = .lseek size ∨ pc = .read size)
  | .read _ _ _ _, h => stepRead_shared h
  | .write _ _ _ _, h => stepWrite_shared h

/-- **A step of a call** keeps what holds of it. -/
theorem Job.Inv.step (hdata : sh.fd.data = data)
    (hlen : (onDisc data n₀).length = n₀.metaHdr.len.toNat) (hclean : n₀.dirty = .clean) :
    {job : Job} → job.Valid → job.Inv data n₀ sh.fd.offset n pc →
    job.step sh n pc = some (sh', n', pc') → job.Inv data n₀ sh'.fd.offset n' pc'
  | .read _ _ _ _, hvalid, h, hstep => inv_stepRead hdata hlen hclean hvalid h hstep
  | .write _ _ _ _, hvalid, h, hstep => inv_stepWrite hdata hlen hclean hvalid h hstep

end Step

/-! ### Runs -/

section Run

variable {ι : Type*} [DecidableEq ι] {job : ι → Job}

/-- What a step of the call `i` does to the world. -/
theorem World.step_cases {w w' : World ι} {i : ι} (h : w.step job i = some w') :
    ∃ n sh n' pc, w.table[(job i).node]? = some n ∧
      (job i).step w.shared n (w.pc i) = some (sh, n', pc) ∧
      w' = ⟨sh, w.table.set (job i).node n', Function.update w.pc i pc⟩ := by
  obtain ⟨n, hn, hmap⟩ := Option.bind_eq_some_iff.mp h
  obtain ⟨⟨sh, n', pc⟩, hstep, rfl⟩ := Option.map_eq_some_iff.mp hmap
  exact ⟨n, sh, n', pc, hn, hstep, rfl⟩

/-- The invariant of the interleavings in which no system call of one call falls between the two
of another one. -/
def World.Inv (job : ι → Job) (data : List Byte) (table : List Fnode) (w : World ι) : Prop :=
  w.shared.fd.data = data ∧
    ∀ i n₀ n, table[(job i).node]? = some n₀ → w.table[(job i).node]? = some n →
      (job i).Inv data n₀ w.shared.fd.offset n (w.pc i)

variable {rs : List Record} {st : TikfsState}

/-- **A step that is alone keeps the invariant.** -/
theorem World.Inv.step (hst : Session rs st) (hvalid : ∀ i, (job i).Valid)
    (hfiles : Function.Injective fun i => (job i).node)
    (hclean : ∀ i n, st.table[(job i).node]? = some n → n.dirty = .clean) {w w' : World ι} {i : ι}
    (h : w.Inv job st.fd.data st.table) (halone : Alone w i) (hstep : w.step job i = some w') :
    w'.Inv job st.fd.data st.table := by
  obtain ⟨hdata, hcalls⟩ := h
  obtain ⟨n, sh, n', pc, hn, hjob, rfl⟩ := World.step_cases hstep
  obtain ⟨hdata', hoffset⟩ := Job.step_shared hjob
  refine ⟨hdata'.trans hdata, fun j m₀ m hm₀ hm => ?_⟩
  by_cases hji : j = i
  · subst hji
    have hlt : (job j).node < w.table.length := (List.getElem?_eq_some_iff.mp hn).1
    dsimp only at hm ⊢
    rw [List.getElem?_set_self hlt] at hm
    cases hm
    rw [Function.update_self]
    have hclean₀ := hclean j m₀ hm₀
    have hlen : (onDisc st.fd.data m₀).length = m₀.metaHdr.len.toNat :=
      hst.onDisc_length (List.mem_of_getElem? hm₀)
    exact Job.Inv.step hdata hlen hclean₀ (hvalid j) (hcalls j m₀ n hm₀ hn) hjob
  · have hne : (job i).node ≠ (job j).node := fun heq => hji (hfiles heq).symm
    dsimp only at hm ⊢
    rw [List.getElem?_set_ne hne] at hm
    rw [Function.update_of_ne hji]
    -- another call that waits to read has not had its offset moved
    refine (hcalls j m₀ m hm₀ hm).congr_offset fun size hread => ?_
    rcases hoffset with hoff | htouch
    · exact hoff
    · exact absurd (halone htouch j size hread) hji

/-- **Runs keep the invariant** when each step is alone. -/
theorem World.Run.inv (hst : Session rs st) (hvalid : ∀ i, (job i).Valid)
    (hfiles : Function.Injective fun i => (job i).node)
    (hclean : ∀ i n, st.table[(job i).node]? = some n → n.dirty = .clean) {w : World ι}
    (hrun : World.Run job Alone (st.world ι) w) : w.Inv job st.fd.data st.table := by
  refine hrun.invariant ⟨rfl, fun j m₀ m hm₀ hm => ?_⟩ fun hinv hcond hstep =>
    hinv.step hst hvalid hfiles hclean hcond hstep
  rw [TikfsState.world] at hm ⊢
  rw [hm₀] at hm
  cases hm
  cases job j <;> rfl

/-- **Calls whose system calls are never interleaved** read their own files: in every run on
distinct clean files in which no `lseek` or `read` of one call falls between the `lseek` and the
`read` of another, every finished read has returned the requested bytes of its file and every
first write has copied its file. -/
theorem right_of_run_alone (hst : Session rs st) (hvalid : ∀ i, (job i).Valid)
    (hfiles : Function.Injective fun i => (job i).node)
    (hclean : ∀ i n, st.table[(job i).node]? = some n → n.dirty = .clean) {w : World ι}
    (hrun : World.Run job Alone (st.world ι) w) (i : ι) {n₀ n : Fnode}
    (hn₀ : st.table[(job i).node]? = some n₀) (hn : w.table[(job i).node]? = some n) :
    (job i).Right st.fd.data n₀ n (w.pc i) :=
  ((hrun.inv hst hvalid hfiles hclean).2 i n₀ n hn₀ hn).right

end Run

/-- A file of two bytes whose name is one character. -/
def twoBytes (key b b' : Byte) : Record where
  hdr := ⟨CharArray.fill 32 [key], 0, 0, 2, 0⟩
  val := [b, b']
  length_val := rfl

/-- The files `"f"` and `"g"` with the bytes `"ab"` and `"cd"`. -/
def recordsFG : List Record :=
  [twoBytes 102 97 98, twoBytes 103 99 100]

/-- The two files after mounting. -/
def mountedFG : TikfsState :=
  ⟨⟨encodeDb recordsFG, 0, true⟩, cleanNodes FileHdr.size recordsFG⟩

theorem session_mountedFG : Session recordsFG mountedFG :=
  ⟨rfl, rfl, nodesOver_cleanNodes _ _⟩

/-- The nodes of the two files after mounting. -/
def nodeF : Fnode :=
  cleanNode ⟨CharArray.fill 32 [102], 0, 0, 2, 0⟩ 64

@[inherit_doc nodeF]
def nodeG : Fnode :=
  cleanNode ⟨CharArray.fill 32 [103], 0, 0, 2, 0⟩ 122

/-- The first write of the file `"f"` and a read of the file `"g"`. -/
def writeReadFG : Bool → Job
  | false => .write 0 [120] 1 ⟨.full, fun _ => 0, fun _ => 0, 7⟩
  | true => .read 1 2 0 8

/-- The two calls take turns, but for their system calls: the write copies the file `"f"` and the
read returns the file `"g"`. -/
theorem right_of_run_alone_writeReadFG : ∃ w : World Bool, ∃ n n',
    (w.pc false = .done 1 [97, 98] ∧ w.pc true = .done 2 [99, 100]) ∧
      (writeReadFG false).Right mountedFG.fd.data nodeF n (w.pc false) ∧
      (writeReadFG true).Right mountedFG.fd.data nodeG n' (w.pc true) := by
  have hsched : (schedule (World.step writeReadFG) Alone (mountedFG.world Bool)
      [false, true, true, true, false, false, true, false]).map
        (fun w => (w.table.length, w.pc false, w.pc true)) =
      some (2, .done 1 [97, 98], .done 2 [99, 100]) := by
    decide +kernel
  obtain ⟨w, hw, hpc⟩ := Option.map_eq_some_iff.mp hsched
  obtain ⟨hlen, hfalse, htrue⟩ := by simpa only [Prod.mk.injEq] using hpc
  have hrun : World.Run writeReadFG Alone (mountedFG.world Bool) w := Run.refl.of_schedule hw
  have hvalid : ∀ i, (writeReadFG i).Valid
    | false => rfl
    | true => show 0 + 2 < 2 ^ 64 by decide
  have hfiles : Function.Injective fun i => (writeReadFG i).node := by decide
  have hclean : ∀ i n, mountedFG.table[(writeReadFG i).node]? = some n → n.dirty = .clean :=
    fun _ n hn => dirty_of_mem_cleanNodes (List.mem_of_getElem? hn)
  have hright := right_of_run_alone session_mountedFG hvalid hfiles hclean hrun
  have hlt₀ : 0 < w.table.length := by omega
  have hlt₁ : 1 < w.table.length := by omega
  exact ⟨w, w.table[0], w.table[1], ⟨hfalse, htrue⟩,
    hright false rfl (List.getElem?_eq_getElem hlt₀),
    hright true rfl (List.getElem?_eq_getElem hlt₁)⟩

/-- **Interleaved calls read each other's files.** When two reads carry out both `lseek`s before
their `read`s, the first one returns the bytes of the second file. -/
theorem not_forall_right :
    ¬ ∀ (rs : List Record) (st : TikfsState) (job : Bool → Job) (w : World Bool),
      tikfsInit (encodeDb rs) = .ok st → (∀ i, (job i).Valid) →
      (Function.Injective fun i => (job i).node) →
      (∀ i n, st.table[(job i).node]? = some n → n.dirty = .clean) →
      World.Run job free (st.world Bool) w →
      ∀ i n₀ n, st.table[(job i).node]? = some n₀ → w.table[(job i).node]? = some n →
        (job i).Right st.fd.data n₀ n (w.pc i) := by
  intro h
  let job : Bool → Job := fun i => .read i.toNat 2 0 0
  have hpc : (schedule (World.step job) free (mountedFG.world Bool)
      [false, true, false, true, false, true, false]).map
        (fun w => (w.table.length, w.pc false)) = some (2, .done 2 [99, 100]) := by
    decide +kernel
  obtain ⟨w, hw, hpc⟩ := Option.map_eq_some_iff.mp hpc
  rw [Prod.mk.injEq] at hpc
  have hinit : tikfsInit (encodeDb recordsFG) = .ok mountedFG :=
    tikfsInit_encodeDb (by decide) (by decide)
  have hfiles : ∀ i j : Bool, i.toNat = j.toNat → i = j := by decide
  have hlt : 0 < w.table.length := by omega
  have hright := h recordsFG mountedFG job w hinit
    (fun i => by rw [Job.Valid]; omega) (fun i j hij => hfiles i j hij)
    (fun i n hn => dirty_of_mem_cleanNodes (List.mem_of_getElem? hn))
    (Run.refl.of_schedule hw) false nodeF w.table[0] rfl
    (List.getElem?_eq_getElem _)
  have hslice : readSlice (onDisc mountedFG.fd.data nodeF) 2 0 = (2, [97, 98]) := by
    decide +kernel
  rw [hpc.2] at hright
  exact absurd (hright.trans hslice) (by decide)

end TikFachpraktika.Tikfs
