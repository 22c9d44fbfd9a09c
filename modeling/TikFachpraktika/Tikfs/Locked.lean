import TikFachpraktika.Tikfs.Killed
import TikFachpraktika.Transition.Locked

/-!
# Several mounts of one file

Any number of processes run `tikfs` on the same database file. Each of them opens the file, waits in
`flock` for its lock, checks it and builds its cache from it; the lock is released when the process
ends, by `tikfs_cleanup` or because it is killed. While it serves calls and flushes its nodes, other
processes may come and go. Every step works on the bytes that are in the file at that moment,
whoever has put them there; a flush is a step for each round of its loops.

Then each process finds the files that the processes before it have left, and its own writes on
them, as if the mounts came one after the other; and as long as none of them flushes its nodes, the
file on disc is not changed.

## Main definitions

* `TikfsPhase`, `TikfsPhase.next`: a process that has the lock, and its steps.
* `tikfsProgram`: what a process does with the lock.
* `TikfsOk`, `TikfsPhase.MayLeave`: unmounts lose nothing, and no process is killed in a flush.
* `Files.session`: what a process has done when it has gone.

## Main results

* `TikfsPhase.outcome_next`: the rounds make up the flush.
* `files_of_lockTrace`: what the processes find.
-/

namespace TikFachpraktika.Tikfs

open Posix Tikdb Transition

/-! ### The steps of a process -/

/-- A process that has the lock serves calls; then it is in the loop of
`tikfs_flush_dirty_nodes_to_disc` or in that of `__tikfs_flush_dirty_nodes_to_disc`, with the nodes
that are left, until it has come to the end of the flush. -/
inductive TikfsPhase
  | serving (st : TikfsState)
  | flushing (env : FlushEnv) (fd : OpenFile) (ns : List Fnode)
  | rewriting (malloced : ℕ → Byte) (offshift : ℕ) (fd fd2 : OpenFile) (ns : List Fnode)
  | flushed

/-- A call from outside, the start of `tikfs_cleanup`, and a round of a loop of the flush. -/
inductive TikfsAction
  | call (c : Call)
  | unmount (env : FlushEnv)
  | round

/-- A descriptor of the file that now holds the bytes `disc`. -/
def onFile (fd : OpenFile) (disc : List Byte) : OpenFile :=
  { fd with data := disc }

/-- A file system whose file now holds the bytes `disc`. -/
def TikfsState.on (st : TikfsState) (disc : List Byte) : TikfsState :=
  ⟨onFile st.fd disc, st.table⟩

/-- The file that is cut off at a node. -/
def cutAt (fd : OpenFile) (n : Fnode) : OpenFile :=
  (fd.lseekSet (n.data - DataHdr.size)).ftruncate (n.data - DataHdr.size)

/-- A step of a process, and the bytes of the file after it. -/
def TikfsPhase.next : TikfsPhase × List Byte → TikfsAction → Option (TikfsPhase × List Byte)
  | (.serving st, disc), .call c =>
    let st := (st.on disc).call c
    some (.serving st, st.fd.data)
  | (.serving st, disc), .unmount env => some (.flushing env st.fd st.table, disc)
  | (.flushing _ _ [], disc), .round => some (.flushed, disc)
  | (.flushing env fd (n :: ns), disc), .round =>
    match n.dirty with
    | .clean => some (.flushing env fd ns, disc)
    | .dirty =>
      if n.cowlen = n.metaHdr.len.toNat then
        let fd := (onFile fd disc).lseekSet n.data
        let fd := fd.write ((n.cowbuff.getD []).take n.cowlen)
        some (.flushing env fd ns, fd.data)
      else
        let fd2 := copyRest env (onFile fd disc) n
        let fd := cutAt (onFile fd disc) n
        some (.rewriting env.malloced n.data fd fd2 (n :: ns), fd.data)
  | (.rewriting _ _ _ _ [], disc), .round => some (.flushed, disc)
  | (.rewriting malloced offshift fd fd2 (n :: ns), disc), .round =>
    match n.dirty with
    | .dirty =>
      let (fd, _) := flushDirtyNode (onFile fd disc) n
      some (.rewriting malloced offshift fd fd2 ns, fd.data)
    | .clean =>
      let (fd, fd2, _) := flushCleanNode malloced offshift (onFile fd disc) fd2 n
      some (.rewriting malloced offshift fd fd2 ns, fd.data)
  | _, _ => none

/-- `tikfs_init` when the process has the lock, and what it does until it ends. -/
def tikfsProgram : LockProgram (List Byte) TikfsPhase TikfsAction where
  enter disc := (tikfsInit disc).toOption.map .serving
  next := TikfsPhase.next

/-- Calls have sizes of at least one byte, and a flush that begins loses nothing. -/
def TikfsOk : TikfsPhase × List Byte → TikfsAction → Prop
  | _, .call c => c.Valid
  | (.serving st, _), .unmount _ => FlushSafe st
  | _, _ => True

/-- A process ends when its flush has come to the end, or it is killed before. -/
def TikfsPhase.MayLeave : TikfsPhase → Prop
  | .serving _ => True
  | .flushing .. => False
  | .rewriting .. => False
  | .flushed => True

/-! ### The flush -/

/-- The file when the flush has come to the end. -/
def TikfsPhase.outcome : TikfsPhase → List Byte → List Byte
  | .serving _, disc => disc
  | .flushing env fd ns, disc => (flushLoop env ns (onFile fd disc)).1.data
  | .rewriting malloced offshift fd fd2 ns, disc =>
    (rewriteLoop malloced offshift ns (onFile fd disc) fd2).1.data
  | .flushed, disc => disc

section Flush

variable {m m' : TikfsPhase} {disc disc' : List Byte}

/-- The copy to the temporary file only reads. -/
theorem rewriteFrom_eq_cutAt (env : FlushEnv) (fd : OpenFile) (n : Fnode) (ns : List Fnode) :
    rewriteFrom env fd n ns =
      rewriteLoop env.malloced n.data (n :: ns) (cutAt fd n) (copyRest env fd n) := by
  have htmp : (⟨[], 0, false⟩ : OpenFile).offset = (⟨[], 0, false⟩ : OpenFile).data.length := rfl
  have hcopy := (OpenFile.sendfile_sendfileTimes htmp (fd.lseekSet n.data) env.blksize
    ((fd.data.length - n.data) / env.blksize) ((fd.data.length - n.data) % env.blksize)).trans
    (OpenFile.sendfile_eq htmp _)
  rw [rewriteFrom, copyRest]
  dsimp only
  rw [hcopy]
  rfl

/-- **The rounds make up the flush**: none of them changes what the file is to be at the end. -/
theorem TikfsPhase.outcome_next (h : TikfsPhase.next (m, disc) .round = some (m', disc')) :
    m'.outcome disc' = m.outcome disc ∧ ∀ st, m' ≠ .serving st := by
  cases m with
  | serving st => cases h
  | flushing env fd ns =>
    cases ns with
    | nil =>
      cases h
      exact ⟨rfl, fun st heq => by cases heq⟩
    | cons n ns =>
      rw [TikfsPhase.next] at h
      rw [TikfsPhase.outcome, flushLoop]
      cases hdirty : n.dirty with
      | clean =>
        rw [hdirty] at h
        cases h
        exact ⟨rfl, fun st heq => by cases heq⟩
      | dirty =>
        rw [hdirty] at h
        dsimp only at h ⊢
        split_ifs at h ⊢ with hlen
        · cases h
          exact ⟨rfl, fun st heq => by cases heq⟩
        · cases h
          rw [rewriteFrom_eq_cutAt]
          exact ⟨rfl, fun st heq => by cases heq⟩
  | rewriting malloced offshift fd fd2 ns =>
    cases ns with
    | nil =>
      cases h
      exact ⟨rfl, fun st heq => by cases heq⟩
    | cons n ns =>
      rw [TikfsPhase.next] at h
      rw [TikfsPhase.outcome, rewriteLoop]
      cases hdirty : n.dirty with
      | clean =>
        rw [hdirty] at h
        cases h
        exact ⟨rfl, fun st heq => by cases heq⟩
      | dirty =>
        rw [hdirty] at h
        cases h
        exact ⟨rfl, fun st heq => by cases heq⟩
  | flushed => cases h

end Flush

/-! ### One session -/

/-- The call of an action. -/
def TikfsAction.toCall : TikfsAction → Option Call
  | .call c => some c
  | _ => none

/-- The calls of a session. -/
def sessionCalls (as : List TikfsAction) : List Call :=
  as.filterMap TikfsAction.toCall

theorem sessionCalls_concat (as : List TikfsAction) (a : TikfsAction) :
    sessionCalls (as ++ [a]) = sessionCalls as ++ a.toCall.toList := by
  rw [sessionCalls, List.filterMap_append, sessionCalls]
  cases a <;> rfl

/-- The action is the start of the flush. -/
def TikfsAction.isUnmount : TikfsAction → Bool
  | .unmount _ => true
  | _ => false

/-- The files when a process has gone: its calls have acted on them, unless it has been killed
before its flush. -/
def Files.session (fs : Files) (as : List TikfsAction) : Files :=
  if as.any TikfsAction.isUnmount then (sessionCalls as).foldl Files.call fs else fs

/-- What holds in a session: while calls are served the file is as it was at the start, and then it
is on the way to the flushed file. -/
structure UnderLock (st₀ : TikfsState) (as : List TikfsAction) (m : TikfsPhase)
    (disc : List Byte) : Prop where
  valid : ∀ c ∈ sessionCalls as, c.Valid
  serving : ∀ st, m = .serving st → st = st₀.after (sessionCalls as) ∧
    disc = st₀.fd.data ∧ as.any TikfsAction.isUnmount = false
  flushing : (∀ st, m ≠ .serving st) → as.any TikfsAction.isUnmount = true ∧
    FlushSafe (st₀.after (sessionCalls as)) ∧
    ∃ env, m.outcome disc = (flush env (st₀.after (sessionCalls as))).fd.data

section UnderLock

variable {rs : List Record} {st₀ : TikfsState} {as : List TikfsAction} {m m' : TikfsPhase}
  {disc disc' : List Byte}

theorem TikfsState.on_of_eq {st : TikfsState} (h : st.fd.data = disc) : st.on disc = st := by
  subst h
  rfl

/-- After the start of the flush there are only its rounds. -/
theorem TikfsPhase.exists_serving {a : TikfsAction} {x : TikfsPhase × List Byte} (ha : a ≠ .round)
    (hnext : TikfsPhase.next (m, disc) a = some x) : ∃ st, m = .serving st := by
  cases a with
  | round => exact absurd rfl ha
  | call c | unmount env =>
    cases m with
    | serving st => exact ⟨st, rfl⟩
    | flushing env fd ns => cases ns <;> cases hnext
    | rewriting malloced offshift fd fd2 ns => cases ns <;> cases hnext
    | flushed => cases hnext

/-- **Step lemma.** -/
theorem UnderLock.step (hst : Session rs st₀) (h : UnderLock st₀ as m disc) {a : TikfsAction}
    (hok : TikfsOk (m, disc) a) (hnext : TikfsPhase.next (m, disc) a = some (m', disc')) :
    UnderLock st₀ (as ++ [a]) m' disc' := by
  cases a with
  | call c =>
    obtain ⟨st, rfl⟩ := TikfsPhase.exists_serving (fun heq => by cases heq) hnext
    obtain ⟨hserving, rfl, hunmount⟩ := h.serving st rfl
    have hsession : Session rs st := hserving ▸ hst.after h.valid
    have hc : c.Valid := hok
    rw [TikfsPhase.next, TikfsState.on_of_eq (hsession.data_eq.trans hst.data_eq.symm)] at hnext
    cases hnext
    have hcalls := sessionCalls_concat as (.call c)
    refine ⟨?_, fun st' heq => ⟨?_, ?_, ?_⟩, fun hne => absurd rfl (hne _)⟩
    · rw [hcalls]
      exact List.forall_mem_append.mpr ⟨h.valid, List.forall_mem_singleton.mpr hc⟩
    · rw [hcalls, TikfsState.after, List.foldl_append]
      exact (TikfsPhase.serving.inj heq).symm.trans (congrArg (TikfsState.call · c) hserving)
    · exact (hsession.call hc).data_eq.trans hst.data_eq.symm
    · rw [List.any_append, hunmount]
      rfl
  | unmount env =>
    obtain ⟨st, rfl⟩ := TikfsPhase.exists_serving (fun heq => by cases heq) hnext
    obtain ⟨hserving, rfl, -⟩ := h.serving st rfl
    have hsession : Session rs st := hserving ▸ hst.after h.valid
    have hsafe : FlushSafe st := hok
    cases hnext
    have hcalls := (sessionCalls_concat as (.unmount env)).trans (List.append_nil _)
    refine ⟨?_, fun st' heq => (by cases heq), fun _ => ⟨?_, ?_, env, ?_⟩⟩
    · rw [hcalls]
      exact h.valid
    · rw [List.any_append]
      exact Bool.or_true _
    · rwa [hcalls, ← hserving]
    · rw [hcalls, ← hserving, TikfsPhase.outcome, flush_fd, onFile,
        ← hsession.data_eq.trans hst.data_eq.symm]
  | round =>
    obtain ⟨houtcome, hne'⟩ := TikfsPhase.outcome_next hnext
    have hne : ∀ st, m ≠ .serving st := fun st heq => by
      rw [heq] at hnext
      cases hnext
    obtain ⟨hunmount, hsafe, env, henv⟩ := h.flushing hne
    have hcalls := (sessionCalls_concat as .round).trans (List.append_nil _)
    refine ⟨?_, fun st heq => absurd heq (hne' st), fun _ => ⟨?_, ?_, env, ?_⟩⟩
    · rw [hcalls]
      exact h.valid
    · rw [List.any_append, hunmount]
      rfl
    · rwa [hcalls]
    · rw [hcalls, houtcome, henv]

/-- **Run lemma.** -/
theorem underLock_of_trace (hst : Session rs st₀) {x : TikfsPhase × List Byte}
    (h : Trace (ofFunction TikfsPhase.next) TikfsOk (.serving st₀, st₀.fd.data) as x) :
    UnderLock st₀ as x.1 x.2 := by
  refine h.invariant (p := fun as x => UnderLock st₀ as x.1 x.2)
    ⟨List.forall_mem_nil _, fun st heq => ⟨(TikfsPhase.serving.inj heq).symm, rfl, rfl⟩,
      fun hne => absurd rfl (hne st₀)⟩ fun {as x a x'} hx hok hnext => ?_
  exact hx.step hst hok hnext

/-- A process starts on a file that stands for a list. -/
theorem exists_of_enter (h : tikfsProgram.enter (encodeDb rs) = some m) :
    ∃ st, m = .serving st ∧ tikfsInit (encodeDb rs) = .ok st ∧ Session rs st ∧
      st.files = rs.map recordFile := by
  obtain ⟨st, hst, rfl⟩ := Option.map_eq_some_iff.mp h
  cases hinit : tikfsInit (encodeDb rs) with
  | error failure =>
    rw [hinit] at hst
    cases hst
  | ok st' =>
    rw [hinit] at hst
    cases hst
    obtain ⟨hlen, hlt, -⟩ := eq_of_tikfsInit hinit
    obtain ⟨st₁, hinit₁, hsession, hfiles⟩ := files_mounted hlen hlt
    obtain rfl := Except.ok.inj (hinit₁.symm.trans hinit)
    exact ⟨st₁, rfl, rfl, hsession, hfiles⟩

/-- **A session** acts on the list. -/
theorem Stands.session {fs : Files} (h : Stands fs disc)
    (hsession : tikfsProgram.Session TikfsOk TikfsPhase.MayLeave disc as disc') :
    Stands (fs.session as) disc' := by
  obtain ⟨rs, rfl, rfl⟩ := h
  obtain ⟨m₀, m, henter, htrace, hleave⟩ := hsession
  obtain ⟨st₀, rfl, hinit, hst, -⟩ := exists_of_enter henter
  rw [← hst.data_eq] at htrace
  have hunder := underLock_of_trace hst htrace
  rw [Files.session]
  cases m with
  | serving st =>
    obtain ⟨-, hdisc, hunmount⟩ := hunder.serving st rfl
    rw [hunmount, if_neg Bool.false_ne_true]
    exact ⟨rs, hdisc.trans hst.data_eq, rfl⟩
  | flushing env fd ns => exact hleave.elim
  | rewriting malloced offshift fd fd2 ns => exact hleave.elim
  | flushed =>
    obtain ⟨hunmount, hsafe, env, henv⟩ := hunder.flushing fun st heq => by cases heq
    rw [if_pos hunmount]
    refine Stands.cycle ⟨rs, rfl, rfl⟩ (c := ⟨sessionCalls as, env⟩) ⟨hunder.valid, ?_⟩ ?_
    · intro st hst'
      rwa [← Except.ok.inj (hinit.symm.trans hst')]
    · rw [Cycle.run, hinit, show disc' = _ from henv]
      rfl

end UnderLock

/-! ### Reads -/

/-- What a read finds in a list of names with their bytes. -/
def Files.read (fs : Files) (path : List Byte) (size offset : ℕ) : ℤ × List Byte :=
  match fs.find path with
  | some i => readSlice ((fs.map Prod.snd).getD i []) size offset
  | none => (-einval, [])

theorem Session.read_files {rs : List Record} {st : TikfsState} (h : Session rs st)
    (path : List Byte) {size offset : ℕ} (hsize : offset + size < 2 ^ 64) (now : Int64) :
    ((tikfsRead st path size offset now).1, (tikfsRead st path size offset now).2.1) =
      st.files.read path size offset := by
  rw [Files.read, find_files]
  obtain ⟨i, n, hfile, hn⟩ | hnone := file_cases st path
  · obtain ⟨hret, hbuff⟩ := readNode_eq_readSlice (h.content_length (List.mem_of_getElem? hn)).1
      hsize now
    have hbytes : (st.files.map Prod.snd).getD i [] = content st.fd.data n := by
      rw [TikfsState.files, List.map_map, List.getD_eq_getElem?_getD, List.getElem?_map, hn]
      rfl
    rw [tikfsRead_of_file hfile hn, hfile, hret, hbuff]
    dsimp only
    rw [hbytes]
  · rw [tikfsRead_of_not_file hnone]
    cases hfile : fileType st.table path with
    | none => rfl
    | root => rfl
    | file i => exact absurd hfile (hnone i)

/-! ### All processes -/

/-- **The mounts come one after the other.** Any number of processes run `tikfs` on one file, and
their steps come in any order; the calls are valid, flushes lose nothing, and no process is killed
in its flush. Then at most one of them has mounted the file. While it serves calls, the files are
those on which the calls of the processes that have gone before it have acted, one process after the
other, and then its own calls; reads find their bytes. And as long as there is no flush, the file on
disc stands for what the processes that have gone have left. -/
theorem files_of_lockTrace {rs : List Record} {acts : List (LockAction TikfsAction)}
    {x : LockState (List Byte) TikfsPhase}
    (h : Trace (LockStep tikfsProgram) (LockOk TikfsOk TikfsPhase.MayLeave)
      (.start (encodeDb rs)) acts x) :
    let fs : Files := (historyOf acts).ended.foldl Files.session (rs.map recordFile)
    (∀ p q m m', x.phase p = .inside m → x.phase q = .inside m' → p = q) ∧
      (∀ p st, x.phase p = .inside (.serving st) → ∃ as, (historyOf acts).current = some (p, as) ∧
        (st.on x.resource).files = (sessionCalls as).foldl Files.call fs ∧
        ∀ path size offset now, offset + size < 2 ^ 64 →
          ((tikfsRead (st.on x.resource) path size offset now).1,
            (tikfsRead (st.on x.resource) path size offset now).2.1) =
          ((sessionCalls as).foldl Files.call fs).read path size offset) ∧
      ((∀ p m, x.phase p = .inside m → ∃ st, m = .serving st) → Stands fs x.resource) := by
  obtain ⟨disc, hended, hcurrent⟩ := LockProgram.serial_of_trace h
  have hstands : Stands ((historyOf acts).ended.foldl Files.session (rs.map recordFile)) disc :=
    (hended.simulates (p := fun _ => True) (R := fun disc fs => Stands fs disc) trivial
      ⟨rs, rfl, rfl⟩ (fun _ _ _ => trivial) fun _ hs _ hstep => hs.session hstep).2
  obtain ⟨rs', rfl, hfs⟩ := hstands
  have hserving : ∀ p st, x.phase p = .inside (.serving st) → ∃ as,
      (historyOf acts).current = some (p, as) ∧ Session rs' st ∧ x.resource = st.fd.data ∧
      st.files = (sessionCalls as).foldl Files.call (rs'.map recordFile) := by
    intro p st hphase
    obtain ⟨-, -, as, m₀, hc, henter, htrace⟩ := hcurrent.exists_of_inside hphase
    obtain ⟨st₀, rfl, -, hst, hfiles⟩ := exists_of_enter henter
    rw [← hst.data_eq] at htrace
    have hunder := underLock_of_trace hst htrace
    obtain ⟨rfl, hdisc, -⟩ := hunder.serving st rfl
    have hsession := hst.after hunder.valid
    refine ⟨as, hc, hsession, ?_, ?_⟩
    · exact hdisc.trans (hst.data_eq.trans hsession.data_eq.symm)
    · rw [hst.files_after hunder.valid, hfiles]
  dsimp only
  rw [← hfs]
  refine ⟨fun p q m m' hp hq => ?_, fun p st hphase => ?_, fun hall => ?_⟩
  · obtain ⟨-, honly, -⟩ := hcurrent.exists_of_inside hq
    exact honly p m hp
  · obtain ⟨as, hc, hsession, hdisc, hfiles⟩ := hserving p st hphase
    rw [hdisc, TikfsState.on_of_eq rfl]
    refine ⟨as, hc, hfiles, fun path size offset now hsize => ?_⟩
    rw [← hfiles, hsession.read_files path hsize]
  · refine ⟨rs', ?_, rfl⟩
    cases hc : (historyOf acts).current with
    | none =>
      rw [hc] at hcurrent
      exact hcurrent.2.1
    | some c =>
      have hcurrent' := hcurrent
      rw [hc] at hcurrent'
      obtain ⟨-, s₀, m, -, -, hinside⟩ := hcurrent'
      have hphase := (hinside c.1 m).mpr ⟨rfl, rfl⟩
      obtain ⟨st, rfl⟩ := hall c.1 m hphase
      obtain ⟨as, -, hsession, hdisc, -⟩ := hserving c.1 st hphase
      exact hdisc.trans hsession.data_eq

/-- One process has written `"abc"` to the file `"f"`, and another one waits for the lock. -/
theorem files_of_lockTrace_abc : ∃ (x : LockState (List Byte) TikfsPhase) (st : TikfsState),
    x.phase 1 = .inside (.serving st) ∧ x.phase 2 = .waiting ∧
      (st.on x.resource).files = [(recordF.hdr.key, [97, 98, 99])] := by
  have hvalid : (writeF [97, 98, 99]).Valid := ⟨by decide, by decide, rfl⟩
  have henter : tikfsProgram.enter (encodeDb [recordF]) = some (.serving mountF) := by
    show (tikfsInit (encodeDb [recordF])).toOption.map TikfsPhase.serving = _
    rw [tikfsInit_mountF]
    rfl
  have hstart : Trace (LockStep tikfsProgram) (LockOk TikfsOk TikfsPhase.MayLeave)
      (.start (encodeDb [recordF])) [] (.start (encodeDb [recordF])) := .nil
  have hwaits := (hstart.snoc (a := .request 1) (by trivial) (.request rfl)).snoc (a := .request 2)
    (by trivial) (.request rfl)
  have hrun := (hwaits.snoc (a := .acquire 1) (by trivial) (.acquire rfl rfl henter)).snoc
    (a := .act 1 (.call (writeF [97, 98, 99]))) (by exact fun _ _ => hvalid) (.act rfl rfl)
  obtain ⟨-, hserving, -⟩ := files_of_lockTrace hrun
  obtain ⟨as, has, hfiles, -⟩ := hserving 1 _ rfl
  cases has
  refine ⟨_, _, rfl, rfl, hfiles.trans ?_⟩
  decide +kernel

end TikFachpraktika.Tikfs
