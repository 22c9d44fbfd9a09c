import TikFachpraktika.Tikfs.Agreement
import TikFachpraktika.Tikfs.Contents
import TikFachpraktika.Transition.Trace

/-!
# The life of a file system

A file is made by `tikdb`, mounted by `tikfs`, used and unmounted, extended by `tikdb` and mounted
again. As long as no unmount loses anything, it stands for a list of names with their bytes, on
which commands and calls act one after the other as if there were no mounts: a write cuts the bytes
of its name at its offset, fills them up to there and puts its own bytes behind, and an `add`
replaces the first name that starts with its key.

## Main definitions

* `Files`, `Files.call`: the list of names with their bytes, and a call on it.
* `Cycle`: a mount with its calls and its unmount.
* `Action`, `DiscStep`, `Files.act`: commands and cycles, on disc and on the list.
* `Safe`: an unmount that loses nothing.

## Main results

* `Session.files_call`, `Session.exists_of_flush`: calls and unmounts on the list.
* `files_of_trace`: what any number of commands and cycles leaves.
-/

namespace TikFachpraktika.Tikfs

open Posix Tikdb Transition

/-! ### Names with their bytes -/

/-- The names of a directory with their bytes. -/
abbrev Files := List (CharArray 32 × List Byte)

/-- The first file whose name starts with the path after its first character. -/
def Files.find (fs : Files) (path : List Byte) : Option ℕ :=
  if path = [47] then none
  else fs.findIdx? fun f => decide (strncmp (min path.tail.length 32) f.1.1 path.tail = 0)

/-- The files after a call. -/
def Files.call (fs : Files) : Call → Files
  | .read .. => fs
  | .write path buff offset env =>
    match fs.find path with
    | some i => fs.modify i fun f => (f.1, resize f.2 offset env.realloced ++ buff)
    | none => fs

/-- The bytes of the first file whose name starts with the key. -/
def Files.get (fs : Files) (key : List Byte) : Option (List Byte) :=
  (fs.find? fun f => decide (memcmp (min key.length 31) f.1.1 key = 0)).map Prod.snd

/-- The files of a mounted file system. -/
def TikfsState.files (st : TikfsState) : Files :=
  st.table.map (visibleFile st.fd.data)

/-! ### Calls -/

section Calls

variable {rs : List Record} {st : TikfsState}

theorem find_files (st : TikfsState) (path : List Byte) :
    st.files.find path = match fileType st.table path with
      | .file i => some i
      | _ => none := by
  rw [Files.find, fileType, TikfsState.files, List.findIdx?_map]
  by_cases hroot : path = [47]
  · rw [if_pos hroot, if_pos hroot]
  · rw [if_neg hroot, if_neg hroot]
    have hscan : (fun f : CharArray 32 × List Byte =>
        decide (strncmp (min path.tail.length 32) f.1.1 path.tail = 0)) ∘
          visibleFile st.fd.data = pathMatches path.tail := rfl
    rw [hscan]
    cases st.table.findIdx? (pathMatches path.tail) with
    | none => rfl
    | some i => rfl

/-- An entry of a list is replaced. -/
theorem map_set_eq_modify {α β : Type} {g : α → β} {f : β → β} {l : List α} {i : ℕ} {a a' : α}
    (ha : l[i]? = some a) (hg : g a' = f (g a)) : (l.set i a').map g = (l.map g).modify i f := by
  obtain ⟨hlt, -⟩ := List.getElem?_eq_some_iff.mp ha
  refine List.ext_getElem? fun j => ?_
  rw [List.getElem?_map, List.getElem?_modify, List.getElem?_map]
  by_cases hij : i = j
  · subst hij
    simp [List.getElem?_set_self hlt, ha, hg]
  · simp [List.getElem?_set_ne hij, hij]

/-- A node is replaced by one with the same bytes. -/
theorem map_set_of_eq {α β : Type} {g : α → β} {l : List α} {i : ℕ} {a a' : α}
    (ha : l[i]? = some a) (hg : g a' = g a) : (l.set i a').map g = l.map g := by
  rw [map_set_eq_modify (f := id) ha hg, List.modify_id]

/-- The block of a write in a session has the bytes of its node. -/
theorem Session.writeBlock_eq (h : Session rs st) {n : Fnode} (hn : n ∈ st.table) {env : WriteEnv}
    (henv : env.answer = .full) : writeBlock st.fd n env = some (content st.fd.data n) := by
  obtain ⟨off, r, -, hover⟩ := h.exists_nodeOver hn
  rw [writeBlock]
  cases hdirty : n.dirty with
  | clean => rw [copyNode_full (h.onDisc_length hn) henv, content_of_clean hdirty]
  | dirty => rw [(hover.content_of_dirty hdirty st.fd.data).1, Option.getD_some]

/-- **A call** acts on the list. -/
theorem Session.files_call (h : Session rs st) {c : Call} (hc : c.Valid) :
    (st.call c).files = st.files.call c := by
  cases c with
  | read path size offset now =>
    rw [TikfsState.call, Files.call]
    obtain ⟨i, n, hfile, hn⟩ | hnone := file_cases st path
    · rw [tikfsRead_of_file hfile hn]
      obtain ⟨hdata, -⟩ := readNode_data st.fd n size offset now
      rw [TikfsState.files, hdata]
      refine map_set_of_eq hn ?_
      rw [readNode_node]
      split_ifs with hoff
      · rfl
      · rfl
    · rw [tikfsRead_of_not_file hnone]
  | write path buff offset env =>
    obtain ⟨hbuff, hlt, henv⟩ := hc
    rw [TikfsState.call, Files.call, find_files]
    obtain ⟨i, n, hfile, hn⟩ | hnone := file_cases st path
    · rw [tikfsWrite_of_file hfile hn, hfile]
      obtain ⟨hdata, -⟩ := writeNode_data st.fd n buff offset env
      have hnode := (writeNode_of_some (h.writeBlock_eq (List.mem_of_getElem? hn) henv) buff
        offset).2
      rw [TikfsState.files, hdata, hnode]
      refine map_set_eq_modify hn ?_
      rw [visibleFile, content_storeCow (by omega)]
      rfl
    · rw [tikfsWrite_of_not_file hnone]
      cases hfile : fileType st.table path with
      | none => rfl
      | root => rfl
      | file i => exact absurd hfile (hnone i)

/-- Calls act on the list one after the other. -/
theorem Session.files_after (h : Session rs st) {calls : List Call}
    (hcalls : ∀ c ∈ calls, c.Valid) :
    (st.after calls).files = calls.foldl Files.call st.files := by
  induction calls generalizing st with
  | nil => rfl
  | cons c calls ih =>
    have hc := hcalls c List.mem_cons_self
    rw [List.foldl_cons, ← h.files_call hc]
    exact ih (h.call hc) fun c' hc' => hcalls c' (List.mem_cons_of_mem c hc')

end Calls

/-! ### Unmounts -/

section Flush

variable {rs : List Record} {st : TikfsState}

/-- The files of a file system that has just been mounted. -/
theorem files_mounted (hlen : ∀ r ∈ rs, r.hdr.len ≠ 0) (hlt : rs.length < initSlots) :
    ∃ st, tikfsInit (encodeDb rs) = .ok st ∧ Session rs st ∧ st.files = rs.map recordFile := by
  have hinit := tikfsInit_encodeDb hlen hlt
  obtain ⟨-, hsession⟩ := session_of_tikfsInit hinit
  refine ⟨_, hinit, hsession, hsession.map_visibleFile_eq_iff.mpr fun n hn hdirty => ?_⟩
  rw [dirty_of_mem_cleanNodes hn] at hdirty
  cases hdirty

/-- **An unmount** that loses nothing writes the list to disc. -/
theorem Session.exists_of_flush (h : Session rs st) (hsafe : FlushSafe st) (env : FlushEnv) :
    ∃ rs', (flush env st).fd.data = encodeDb rs' ∧ rs'.map recordFile = st.files := by
  rcases hsafe with hclean | ⟨ns₁, n, ns₂, htable, hn, hcow⟩
  · have hchanged : ∀ n ∈ st.table, ¬LengthChanged n := fun n hn hchanged => by
      cases (hclean n hn).symm.trans hchanged.1
    have hrest : st.table.flatMap dirtyBytes = [] :=
      List.flatMap_eq_nil_iff.mpr fun n hn => by rw [dirtyBytes, hclean n hn]
    refine ⟨rs, ?_, ?_⟩
    · rw [flush_of_not_lengthChanged env h.append_eq hchanged, hrest, List.append_nil, h.data_eq]
    · refine (h.map_visibleFile_eq_iff.mpr fun n hn hdirty => ?_).symm
      cases (hclean n hn).symm.trans hdirty
  · have hns₁ : ∀ m ∈ ns₁, ¬LengthChanged m := fun m hm =>
      h.not_lengthChanged (htable ▸ List.mem_append_left _ hm) (hcow m hm)
    obtain ⟨rs₁, rs₂, rs', rfl, hover, hdata, hfiles⟩ :=
      flush_of_lengthChanged env h htable hns₁ hn
    have hfile : st.fd.data = superblock.encode ++ encodeRecords rs₁ ++ encodeRecords rs₂ := by
      rw [h.data_eq, encodeDb, encodeRecords_append, List.append_assoc]
    refine ⟨rs₁ ++ rs', hdata, ?_⟩
    rw [List.map_append, hfiles, TikfsState.files, htable, List.map_append,
      (hover.map_visibleFile_eq_iff (FileHdr.length_encode superblock) hfile).mpr hcow]

end Flush

/-! ### Mounts and unmounts -/

/-- A mount with its calls and its unmount. -/
structure Cycle where
  calls : List Call
  env : FlushEnv

/-- The file on disc after a cycle: `tikfs_init`, the calls, and the flush of `tikfs_cleanup`. -/
def Cycle.run (disc : List Byte) (c : Cycle) : Except MountFailure (List Byte) := do
  let st ← tikfsInit disc
  return (flush c.env (st.after c.calls)).fd.data

/-! ### Both programs on one file -/

/-- A command of `tikdb`, or a cycle of `tikfs`. -/
inductive Action
  | tikdb (cmd : Cmd)
  | tikfs (c : Cycle)

/-- The steps of the file on disc: a command that reaches `exit(0)`, or a cycle. -/
def DiscStep (disc : List Byte) : Action → List Byte → Prop
  | .tikdb cmd, disc' => execute (some disc) cmd = .ok disc'
  | .tikfs c, disc' => c.run disc = .ok disc'

/-- The calls of a cycle have sizes of at least one byte, and its unmount loses nothing. -/
def Safe (disc : List Byte) : Action → Prop
  | .tikdb _ => True
  | .tikfs c =>
    (∀ call ∈ c.calls, call.Valid) ∧ ∀ st, tikfsInit disc = .ok st → FlushSafe (st.after c.calls)

/-- The files after an action. -/
def Files.act (fs : Files) : Action → Files
  | .tikdb .create => []
  | .tikdb (.add key val _) =>
    Keyed.replaceFirst (fun f => decide (memcmp (min key.bytes.length 31) f.1.1 key.bytes = 0))
      (CharArray.fill 32 (key.bytes.take (min key.bytes.length 31)), val.bytes) fs
  | .tikfs c => c.calls.foldl Files.call fs

/-- The file on disc stands for a list of names with their bytes. -/
def Stands (fs : Files) (disc : List Byte) : Prop :=
  ∃ rs, disc = encodeDb rs ∧ rs.map recordFile = fs

section Actions

variable {fs : Files} {disc disc' : List Byte}

/-- **A command** acts on the list. -/
theorem Stands.execute (h : Stands fs disc) {cmd : Cmd}
    (hstep : execute (some disc) cmd = .ok disc') : Stands (fs.act (.tikdb cmd)) disc' := by
  obtain ⟨rs, rfl, rfl⟩ := h
  cases cmd with
  | create =>
    refine ⟨[], ?_, rfl⟩
    rw [← Except.ok.inj hstep, createDbFd_eq, encodeDb, encodeRecords_nil, List.append_nil]
    rfl
  | add key val now =>
    obtain ⟨hval, -, rfl⟩ := eq_encodeDb_of_addKeyVal val.length_lt hstep
    refine ⟨_, rfl, ?_⟩
    have hnew : recordFile (newRecord key.bytes val.bytes now) =
        (CharArray.fill 32 (key.bytes.take (min key.bytes.length 31)), val.bytes) := by
      rw [recordFile, newRecord_val (by omega)]
      rfl
    rw [Files.act, ← hnew, ← Keyed.map_replaceFirst]
    rfl

/-- **A cycle** acts on the list. -/
theorem Stands.cycle (h : Stands fs disc) {c : Cycle} (hsafe : Safe disc (.tikfs c))
    (hstep : c.run disc = .ok disc') : Stands (fs.act (.tikfs c)) disc' := by
  obtain ⟨rs, rfl, rfl⟩ := h
  rw [Cycle.run] at hstep
  obtain ⟨st, hinit, hstep⟩ := exists_of_bind_eq_ok hstep
  obtain ⟨hlen, hlt, -⟩ := eq_of_tikfsInit hinit
  obtain ⟨st₀, hinit₀, hsession, hfiles⟩ := files_mounted hlen hlt
  obtain rfl := Except.ok.inj (hinit₀.symm.trans hinit)
  obtain ⟨rs', hdata, hfiles'⟩ :=
    (hsession.after hsafe.1).exists_of_flush (hsafe.2 _ hinit) c.env
  refine ⟨rs', ?_, ?_⟩
  · rw [← Except.ok.inj hstep, hdata]
  · rw [hfiles', hsession.files_after hsafe.1, hfiles, Files.act]

/-- A file that stands for a list mounts with it. -/
theorem Stands.mount (h : Stands fs disc) (hlt : fs.length < initSlots)
    (hne : ∀ f ∈ fs, f.2 ≠ []) : ∃ st, tikfsInit disc = .ok st ∧ st.files = fs := by
  obtain ⟨rs, rfl, rfl⟩ := h
  rw [List.length_map] at hlt
  have hlen : ∀ r ∈ rs, r.hdr.len ≠ 0 := fun r hr =>
    (len_ne_zero_iff r).mpr (hne _ (List.mem_map_of_mem hr))
  obtain ⟨st, hinit, -, hfiles⟩ := files_mounted hlen hlt
  exact ⟨st, hinit, hfiles⟩

/-- `tikdb get` on a file that stands for a list. -/
theorem Stands.get (h : Stands fs disc) (stack : CharArray DataHdr.size) (key : List Byte) :
    ∃ sel, getKeyVal (some disc) stack key = .ok sel ∧ sel.map Prod.snd = fs.get key := by
  obtain ⟨rs, rfl, rfl⟩ := h
  refine ⟨_, getKeyVal_encodeDb rs stack, ?_⟩
  rw [Files.get, List.find?_map, Option.map_map, Option.map_map]
  rfl

/-- **The life of a file.** After any number of commands of `tikdb` and of mounts of `tikfs`, in any
order, each mount with any calls and an unmount that loses nothing, the file on disc stands for the
list on which all commands and calls have acted one after the other: it mounts with these names and
bytes, if there is room for them and none is empty, and `tikdb get` finds the bytes of a key in this
list. -/
theorem files_of_trace {rs : List Record} {actions : List Action}
    (h : Trace DiscStep Safe (encodeDb rs) actions disc) :
    let fs : Files := actions.foldl Files.act (rs.map recordFile)
    (fs.length < initSlots → (∀ f ∈ fs, f.2 ≠ []) →
        ∃ st, tikfsInit disc = .ok st ∧ st.files = fs) ∧
      ∀ stack key, ∃ sel, getKeyVal (some disc) stack key = .ok sel ∧
        sel.map Prod.snd = fs.get key := by
  have hstands : Stands (actions.foldl Files.act (rs.map recordFile)) disc := by
    refine (h.simulates (p := fun _ => True) (R := fun disc fs => Stands fs disc) trivial
      ⟨rs, rfl, rfl⟩ (fun _ _ _ => trivial) fun {_ a _ _} _ hs hsafe hstep => ?_).2
    cases a with
    | tikdb cmd => exact hs.execute hstep
    | tikfs c => exact hs.cycle hsafe hstep
  exact ⟨hstands.mount, hstands.get⟩

end Actions

/-! ### A file made by both programs -/

/-- A cycle is safe if its unmount loses nothing. -/
theorem safe_of_flushSafe {rs : List Record} {c : Cycle} (hlen : ∀ r ∈ rs, r.hdr.len ≠ 0)
    (hlt : rs.length < initSlots) (hcalls : ∀ call ∈ c.calls, call.Valid)
    (hsafe : FlushSafe ((⟨⟨encodeDb rs, 0, true⟩, cleanNodes FileHdr.size rs⟩ :
      TikfsState).after c.calls)) : Safe (encodeDb rs) (.tikfs c) := by
  refine ⟨hcalls, fun st hst => ?_⟩
  obtain rfl := Except.ok.inj ((tikfsInit_encodeDb hlen hlt).symm.trans hst)
  exact hsafe

/-- A write at the time `now`. -/
def writeAt (path buff : List Byte) (offset : ℕ) (now : Int64) : Call :=
  .write path buff offset ⟨.full, fun _ => 0, fun _ => 0, now⟩

/-- `"c"` is written behind the bytes `"ab"` of the file `"a"`, which is then read. -/
def cycleA : Cycle := ⟨[writeAt [47, 97] [99] 2 9, .read [47, 97] 5 0 4], flushEnv⟩

/-- `"xy"` is written over the byte `"a"` of the file `"ab"`. -/
def cycleAB : Cycle := ⟨[writeAt [47, 97, 98] [120, 121] 0 8], flushEnv⟩

/-- The record of `"a"` after its cycle. -/
def writtenA : Record where
  hdr := { newHdr strA.bytes 3 9 with tsR := 4 }
  val := [97, 98, 99]
  length_val := rfl

/-- The record of `"ab"` after its cycle. -/
def writtenAB : Record where
  hdr := { newHdr strAB.bytes 2 8 with tsR := 5 }
  val := [120, 121]
  length_val := rfl

/-- Both files are added, and each is written in a cycle of its own. -/
def mixedActions : List Action :=
  [.tikdb (.add strA strAB 3), .tikfs cycleA, .tikdb (.add strAB strA 5), .tikfs cycleAB]

/-- The names and the bytes after all of this. -/
def mixedFiles : Files :=
  [(CharArray.fill 32 [97], [97, 98, 99]), (CharArray.fill 32 [97, 98], [120, 121])]

theorem safe_cycleA : Safe (encodeDb [newRecord strA.bytes strAB.bytes 3]) (.tikfs cycleA) := by
  refine safe_of_flushSafe (by decide) (by decide) ?_ (.inr ⟨[],
    ⟨{ newHdr strA.bytes 2 9 with tsR := 4 }, 64, .dirty, some [97, 98, 99], 3⟩, [],
    by decide +kernel, by decide, List.forall_mem_nil _⟩)
  simp only [cycleA, List.forall_mem_cons]
  exact ⟨⟨by decide, by decide, rfl⟩, Nat.succ_pos 4, List.forall_mem_nil _⟩

theorem safe_cycleAB :
    Safe (encodeDb [writtenA, newRecord strAB.bytes strA.bytes 5]) (.tikfs cycleAB) := by
  refine safe_of_flushSafe (by decide) (by decide) ?_ (.inr ⟨[cleanNode writtenA.hdr 64],
    ⟨{ newHdr strAB.bytes 1 8 with tsR := 5 }, 123, .dirty, some [120, 121], 2⟩, [],
    by decide +kernel, by decide, ?_⟩)
  · simp only [cycleAB, List.forall_mem_cons]
    exact ⟨⟨by decide, by decide, rfl⟩, List.forall_mem_nil _⟩
  · simp only [List.forall_mem_cons]
    exact ⟨fun h => (Dirty.noConfusion h), List.forall_mem_nil _⟩

theorem trace_mixedActions :
    Trace DiscStep Safe (encodeDb []) mixedActions (encodeDb [writtenA, writtenAB]) := by
  have haddA : DiscStep (encodeDb []) (.tikdb (.add strA strAB 3))
      (encodeDb [newRecord strA.bytes strAB.bytes 3]) := by
    rw [DiscStep]
    decide +kernel
  have hcycleA : DiscStep (encodeDb [newRecord strA.bytes strAB.bytes 3]) (.tikfs cycleA)
      (encodeDb [writtenA]) := by
    rw [DiscStep]
    decide +kernel
  have haddAB : DiscStep (encodeDb [writtenA]) (.tikdb (.add strAB strA 5))
      (encodeDb [writtenA, newRecord strAB.bytes strA.bytes 5]) := by
    rw [DiscStep]
    decide +kernel
  have hcycleAB : DiscStep (encodeDb [writtenA, newRecord strAB.bytes strA.bytes 5])
      (.tikfs cycleAB) (encodeDb [writtenA, writtenAB]) := by
    rw [DiscStep]
    decide +kernel
  have hsafe (disc : List Byte) (cmd : Cmd) : Safe disc (.tikdb cmd) := trivial
  exact (((Trace.nil.snoc (hsafe _ _) haddA).snoc safe_cycleA hcycleA).snoc (hsafe _ _)
    haddAB).snoc safe_cycleAB hcycleAB

/-- What a mount and a `get` then find. -/
theorem files_of_trace_mixedActions :
    (∃ st, tikfsInit (encodeDb [writtenA, writtenAB]) = .ok st ∧ st.files = mixedFiles) ∧
    ∃ sel, getKeyVal (some (encodeDb [writtenA, writtenAB])) (CharArray.fill DataHdr.size [])
      strAB.bytes = .ok sel ∧ sel.map Prod.snd = some [120, 121] := by
  have hfiles : mixedActions.foldl Files.act (([] : List Record).map recordFile) = mixedFiles := by
    decide +kernel
  obtain ⟨hmount, hget⟩ := files_of_trace trace_mixedActions
  rw [hfiles] at hmount hget
  exact ⟨hmount (by decide) (by decide), hget _ strAB.bytes⟩

end TikFachpraktika.Tikfs
