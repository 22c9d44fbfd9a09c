import TikFachpraktika.Transition.Run
import Mathlib.Data.Fintype.Basic
import Mathlib.Logic.Function.Basic

/-!
# The flags `rwing` and `flushing`

Every `tikfs_read` and `tikfs_write` waits until `flushing` is 0 and then sets `rwing`, and
`tikfs_flush_dirty_nodes_to_disc` waits until `rwing` is 0 and then sets `flushing`. A test and the
store that follows it are two steps, and all calls share the one flag `rwing`, so a flush may begin
while a call that has passed its test is not over yet.

## Main definitions

* `FlagState`, `flagStep`: the flags, the places of the calls and of the flush, and their steps.
* `Excluded`: no call is inside during a flush.
* `Clear`: a step that begins no flush while a call is past its test.

## Main results

* `excluded_of_run_clear`: runs of such steps keep flush and calls apart.
* `exists_overlap_of_not_clear`: any other step leads to an overlap.
* `not_forall_excluded`: there are such runs.
-/

namespace TikFachpraktika.Tikfs

open Transition

/-- The two kinds of calls. -/
inductive CallKind
  | read
  | write

/-- Where a process stands: before the test of the flag of the others, before the store of its own
flag, before it clears this flag, and at its end. -/
inductive FlagPc
  | start
  | tested
  | inside
  | done
  deriving DecidableEq

/-- The two flags, and the places of the calls and of the flush. -/
structure FlagState (ι : Type*) where
  flushing : Bool
  rwing : Bool
  call : ι → FlagPc
  flush : FlagPc

/-- The next access of a call to the flags, the return of a `tikfs_read` behind the end of its file,
or the next access of the flush. -/
inductive FlagAct (ι : Type*)
  | call (i : ι)
  | giveUp (i : ι)
  | flush

section Steps

variable {ι : Type*} [DecidableEq ι]

/-- All processes before their first step. -/
def flagStart : FlagState ι where
  flushing := false
  rwing := false
  call := fun _ => .start
  flush := .start

/-- The state in which the call `i` stands at `pc`. -/
def FlagState.setCall (s : FlagState ι) (i : ι) (pc : FlagPc) : FlagState ι :=
  { s with call := Function.update s.call i pc }

@[simp] theorem FlagState.setCall_call_self (s : FlagState ι) (i : ι) (pc : FlagPc) :
    (s.setCall i pc).call i = pc :=
  Function.update_self ..

theorem FlagState.setCall_call_of_ne (s : FlagState ι) {i j : ι} (h : j ≠ i) (pc : FlagPc) :
    (s.setCall i pc).call j = s.call j :=
  Function.update_of_ne h ..

/-- A step of `tikfs_read` or `tikfs_write`. -/
def callStep (s : FlagState ι) (i : ι) : Option (FlagState ι) :=
  match s.call i with
  | .start => if s.flushing then some s else some (s.setCall i .tested)
  | .tested => some { s.setCall i .inside with rwing := true }
  | .inside => some { s.setCall i .done with rwing := false }
  | .done => none

/-- The return of `tikfs_read` between its test of `flushing` and its `rwing = 1`. -/
def giveUpStep (kind : ι → CallKind) (s : FlagState ι) (i : ι) : Option (FlagState ι) :=
  match kind i, s.call i with
  | .read, .tested => some (s.setCall i .done)
  | _, _ => none

/-- A step of `tikfs_flush_dirty_nodes_to_disc`. -/
def flushStep (s : FlagState ι) : Option (FlagState ι) :=
  match s.flush with
  | .start => if s.rwing then some s else some { s with flush := .tested }
  | .tested => some { s with flushing := true, flush := .inside }
  | .inside => some { s with flushing := false, flush := .done }
  | .done => none

/-- A step of one of the processes. -/
def flagStep (kind : ι → CallKind) (s : FlagState ι) : FlagAct ι → Option (FlagState ι)
  | .call i => callStep s i
  | .giveUp i => giveUpStep kind s i
  | .flush => flushStep s

/-- The flush is not between `flushing = 1` and `flushing = 0` while a call is between `rwing = 1`
and its `rwing = 0`. -/
def Excluded (s : FlagState ι) : Prop :=
  s.flush = .inside → ∀ i, s.call i ≠ .inside

/-- The step is not the store `flushing = 1` while a call stands between its last test of `flushing`
and its `rwing = 0`. -/
def Clear (s : FlagState ι) : FlagAct ι → Prop
  | .flush => s.flush = .tested → ∀ i, s.call i ≠ .tested ∧ s.call i ≠ .inside
  | _ => True

instance [Fintype ι] (s : FlagState ι) : (a : FlagAct ι) → Decidable (Clear s a)
  | .call _ => .isTrue trivial
  | .giveUp _ => .isTrue trivial
  | .flush => inferInstanceAs
      (Decidable (s.flush = .tested → ∀ i, s.call i ≠ .tested ∧ s.call i ≠ .inside))

/-! ### Steps that keep flush and calls apart -/

/-- During a flush the flag is set and no call is past its test. -/
def Apart (s : FlagState ι) : Prop :=
  s.flush = .inside → s.flushing = true ∧ ∀ i, s.call i ≠ .tested ∧ s.call i ≠ .inside

variable {kind : ι → CallKind} {s s' : FlagState ι} {i : ι}

theorem Apart.setCall (h : Apart s) {pc : FlagPc} (hpc : pc ≠ .tested ∧ pc ≠ .inside) :
    Apart (s.setCall i pc) := fun hflush => by
  obtain ⟨hflag, hcalls⟩ := h hflush
  refine ⟨hflag, fun j => ?_⟩
  by_cases hj : j = i
  · subst hj
    rw [FlagState.setCall_call_self]
    exact hpc
  · rw [FlagState.setCall_call_of_ne s hj]
    exact hcalls j

omit [DecidableEq ι] in
/-- Without a flush there is nothing to keep apart. -/
theorem Apart.of_flush_ne (h : s'.flush = s.flush) (hne : s.flush ≠ .inside) : Apart s' :=
  fun hflush => absurd (h.symm.trans hflush) hne

/-- **A step of a call** keeps the flush apart. -/
theorem Apart.callStep (h : Apart s) (hstep : callStep s i = some s') : Apart s' := by
  rw [Tikfs.callStep] at hstep
  cases hpc : s.call i with
  | start =>
    rw [hpc] at hstep
    dsimp only at hstep
    split_ifs at hstep with hflag
    · cases hstep
      exact h
    · cases hstep
      exact .of_flush_ne rfl fun hflush => hflag (h hflush).1
  | tested =>
    rw [hpc] at hstep
    cases hstep
    exact .of_flush_ne rfl fun hflush => ((h hflush).2 i).1 hpc
  | inside =>
    rw [hpc] at hstep
    cases hstep
    have hdone : Apart (s.setCall i .done) := h.setCall ⟨by decide, by decide⟩
    exact hdone
  | done =>
    rw [hpc] at hstep
    cases hstep

theorem Apart.giveUpStep (h : Apart s) (hstep : giveUpStep kind s i = some s') : Apart s' := by
  rw [Tikfs.giveUpStep] at hstep
  split at hstep
  · cases hstep
    exact h.setCall ⟨by decide, by decide⟩
  · cases hstep

omit [DecidableEq ι] in
/-- **A step of the flush** keeps it apart when no call is past its test as it begins. -/
theorem Apart.flushStep (h : Apart s) (hclear : Clear s .flush) (hstep : flushStep s = some s') :
    Apart s' := by
  rw [Tikfs.flushStep] at hstep
  cases hpc : s.flush with
  | start =>
    rw [hpc] at hstep
    dsimp only at hstep
    split_ifs at hstep with hflag
    · cases hstep
      exact h
    · cases hstep
      exact fun hflush => by cases hflush
  | tested =>
    rw [hpc] at hstep
    cases hstep
    exact fun _ => ⟨rfl, hclear hpc⟩
  | inside =>
    rw [hpc] at hstep
    cases hstep
    exact fun hflush => by cases hflush
  | done =>
    rw [hpc] at hstep
    cases hstep

/-- **Flush and calls are kept apart** in every run in which the flush sets its flag only when no
call stands between its test of `flushing` and its `rwing = 0`. -/
theorem excluded_of_run_clear (hrun : Run (ofFunction (flagStep kind)) Clear flagStart s) :
    Excluded s := by
  have hapart : Apart s := by
    refine hrun.invariant (p := Apart) (fun hflush => by cases hflush)
      fun {s a s'} h hclear hstep => ?_
    cases a with
    | call i => exact h.callStep hstep
    | giveUp i => exact h.giveUpStep hstep
    | flush => exact h.flushStep hclear hstep
  exact fun hflush i => ((hapart hflush).2 i).2

/-- **Any other begin of a flush** lets a call and the flush overlap: the call is inside already or
goes inside with its next step. -/
theorem exists_overlap_of_not_clear (hrun : Run (ofFunction (flagStep kind)) free flagStart s)
    {a : FlagAct ι} (hclear : ¬Clear s a) :
    ∃ s', Run (ofFunction (flagStep kind)) free flagStart s' ∧ ¬Excluded s' := by
  cases a with
  | call i => exact absurd trivial hclear
  | giveUp i => exact absurd trivial hclear
  | flush =>
    obtain ⟨hflush, hcalls⟩ := Classical.not_imp.mp hclear
    obtain ⟨i, hi⟩ := not_forall.mp hcalls
    have hbegin : Run (ofFunction (flagStep kind)) free flagStart
        { s with flushing := true, flush := .inside } :=
      hrun.step (a := .flush) trivial (by rw [ofFunction, flagStep, flushStep, hflush])
    by_cases htested : s.call i = .tested
    · refine ⟨_, hbegin.step (a := .call i) trivial
        (by rw [ofFunction, flagStep, callStep]; dsimp only; rw [htested]), fun hex => ?_⟩
      exact hex rfl i (Function.update_self ..)
    · have hinside : s.call i = .inside := by
        by_contra hne
        exact hi ⟨htested, hne⟩
      exact ⟨_, hbegin, fun hex => hex rfl i hinside⟩

end Steps

/-- A `tikfs_read` and then a flush. -/
theorem excluded_of_run_clear_single : ∃ s : FlagState Unit,
    s.flush = .inside ∧ s.call () = .done ∧ Excluded s := by
  have hsched : (schedule (flagStep fun _ : Unit => .read) Clear flagStart
      [.call (), .call (), .call (), .flush, .flush]).map (fun s => (s.flush, s.call ())) =
        some (.inside, .done) := by decide
  obtain ⟨s, hs, hpcs⟩ := Option.map_eq_some_iff.mp hsched
  obtain ⟨hflush, hcall⟩ := Prod.mk.inj hpcs
  exact ⟨s, hflush, hcall, excluded_of_run_clear (Run.refl.of_schedule hs)⟩

/-- **A flush can begin while a call is inside**: both have passed their tests before either of them
sets its flag. -/
theorem not_forall_excluded : ¬∀ (ι : Type) [DecidableEq ι] (kind : ι → CallKind) (s : FlagState ι),
    Run (ofFunction (flagStep kind)) free flagStart s → Excluded s := by
  intro hall
  have hsched : (schedule (flagStep fun _ : Unit => .write) free flagStart
      [.flush, .call (), .call (), .flush]).map (fun s => (s.flush, s.call ())) =
        some (.inside, .inside) := by decide
  obtain ⟨s, hs, hpcs⟩ := Option.map_eq_some_iff.mp hsched
  obtain ⟨hflush, hcall⟩ := Prod.mk.inj hpcs
  exact hall Unit _ s (Run.refl.of_schedule hs) hflush () hcall

end TikFachpraktika.Tikfs
