import Mathlib.Logic.Function.Basic
import TikFachpraktika.Transition.Run
import TikFachpraktika.Transition.Trace

/-!
# Sessions under a lock

Several processes work on one resource that has a lock. A process waits for the lock; when it gets
it, it looks at the resource and gives up or starts a session, in which it works on the resource
step by step until it leaves, and the lock is free again. The steps of the processes come in any
order, and a step of a session does not look at the lock. Then there is one session at a time, and
the resource is what the sessions leave when they run one after the other, in the order in which
they have ended.

## Main definitions

* `LockProgram`: how a session starts and goes on.
* `LockState`, `LockStep`: the processes and the lock.
* `History`: the sessions that have ended, and the one that goes on.

## Main results

* `LockProgram.serial_of_trace`: the sessions run one after the other.
-/

namespace TikFachpraktika.Transition

variable {ρ σ α : Type*}

/-- What a process has when it starts a session, and what a step of a session does. -/
structure LockProgram (ρ σ α : Type*) where
  enter : ρ → Option σ
  next : σ × ρ → α → Option (σ × ρ)

/-- Where a process is. -/
inductive Phase (σ : Type*)
  | outside
  | waiting
  | inside (s : σ)

/-- The resource, the process that has the lock, and all processes. -/
structure LockState (ρ σ : Type*) where
  resource : ρ
  holder : Option ℕ
  phase : ℕ → Phase σ

/-- At the start there are no processes. -/
def LockState.start (r : ρ) : LockState ρ σ :=
  ⟨r, none, fun _ => .outside⟩

/-- What a process may do. -/
inductive LockAction (α : Type*)
  | request (p : ℕ)
  | acquire (p : ℕ)
  | giveUp (p : ℕ)
  | act (p : ℕ) (a : α)
  | leave (p : ℕ)

/-- The steps of the processes. Only the start of a session looks at the lock. -/
inductive LockStep (prog : LockProgram ρ σ α) (x : LockState ρ σ) :
    LockAction α → LockState ρ σ → Prop
  | request {p : ℕ} (hphase : x.phase p = .outside) :
      LockStep prog x (.request p) ⟨x.resource, x.holder, Function.update x.phase p .waiting⟩
  | acquire {p : ℕ} {s : σ} (hphase : x.phase p = .waiting) (hfree : x.holder = none)
      (henter : prog.enter x.resource = some s) :
      LockStep prog x (.acquire p) ⟨x.resource, some p, Function.update x.phase p (.inside s)⟩
  | giveUp {p : ℕ} (hphase : x.phase p = .waiting) (hfree : x.holder = none)
      (henter : prog.enter x.resource = none) :
      LockStep prog x (.giveUp p) ⟨x.resource, x.holder, Function.update x.phase p .outside⟩
  | act {p : ℕ} {a : α} {s s' : σ} {r' : ρ} (hphase : x.phase p = .inside s)
      (hnext : prog.next (s, x.resource) a = some (s', r')) :
      LockStep prog x (.act p a) ⟨r', x.holder, Function.update x.phase p (.inside s')⟩
  | leave {p : ℕ} :
      LockStep prog x (.leave p)
        ⟨x.resource, if x.holder = some p then none else x.holder,
          Function.update x.phase p .outside⟩

/-- The steps of sessions meet the condition `ok`, and the states in which they end meet
`okLeave`. -/
def LockOk (ok : σ × ρ → α → Prop) (okLeave : σ → Prop) (x : LockState ρ σ) :
    LockAction α → Prop
  | .act p a => ∀ s, x.phase p = .inside s → ok (s, x.resource) a
  | .leave p => ∀ s, x.phase p = .inside s → okLeave s
  | _ => True

/-! ### Sessions -/

/-- The steps of the sessions that have ended, and of the one that goes on, with its process. -/
structure History (α : Type*) where
  ended : List (List α)
  current : Option (ℕ × List α)

/-- An action is entered into the history. -/
def History.record (h : History α) : LockAction α → History α
  | .request _ => h
  | .acquire p => ⟨h.ended, some (p, [])⟩
  | .giveUp _ => h
  | .act _ a => ⟨h.ended, h.current.map fun c => (c.1, c.2 ++ [a])⟩
  | .leave p =>
    match h.current with
    | some c => if c.1 = p then ⟨h.ended ++ [c.2], none⟩ else h
    | none => h

/-- The history of some actions. -/
def historyOf (acts : List (LockAction α)) : History α :=
  acts.foldl History.record ⟨[], none⟩

theorem historyOf_append_singleton (acts : List (LockAction α)) (a : LockAction α) :
    historyOf (acts ++ [a]) = (historyOf acts).record a := by
  rw [historyOf, List.foldl_append, List.foldl_cons, List.foldl_nil, historyOf]

namespace LockProgram

variable (prog : LockProgram ρ σ α) (ok : σ × ρ → α → Prop) (okLeave : σ → Prop)

/-- A session from its start to its end. -/
def Session (r : ρ) (as : List α) (r' : ρ) : Prop :=
  ∃ s₀ s, prog.enter r = some s₀ ∧ Trace (ofFunction prog.next) ok (s₀, r) as (s, r') ∧ okLeave s

/-- The session that goes on, if there is one, started with the resource `r`, and there is no other
one. -/
def Current (x : LockState ρ σ) (r : ρ) : Option (ℕ × List α) → Prop
  | none => x.holder = none ∧ x.resource = r ∧ ∀ p s, x.phase p ≠ .inside s
  | some c => x.holder = some c.1 ∧ ∃ s₀ s, prog.enter r = some s₀ ∧
      Trace (ofFunction prog.next) ok (s₀, r) c.2 (s, x.resource) ∧
      ∀ p s', x.phase p = .inside s' ↔ p = c.1 ∧ s' = s

end LockProgram

section Steps

variable {prog : LockProgram ρ σ α} {ok : σ × ρ → α → Prop} {okLeave : σ → Prop}
  {x x' : LockState ρ σ} {r r₀ : ρ}

/-- A process outside of a session changes its phase to one outside of a session. -/
theorem update_eq_inside_iff {phase : ℕ → Phase σ} {p : ℕ} {ph : Phase σ}
    (hphase : ∀ s, phase p ≠ .inside s) (hph : ∀ s, ph ≠ .inside s) (q : ℕ) (s : σ) :
    Function.update phase p ph q = .inside s ↔ phase q = .inside s := by
  rcases eq_or_ne q p with rfl | hne
  · rw [Function.update_self]
    exact iff_of_false (hph s) (hphase s)
  · rw [Function.update_of_ne hne]

/-- The only process in a session is in the state `s` of it. -/
theorem update_inside_eq_inside_iff {phase : ℕ → Phase σ} {p : ℕ}
    (honly : ∀ q t, phase q = .inside t → q = p) (s : σ) (q : ℕ) (t : σ) :
    Function.update phase p (.inside s) q = .inside t ↔ q = p ∧ t = s := by
  rcases eq_or_ne q p with rfl | hne
  · rw [Function.update_self, Phase.inside.injEq, eq_comm, and_iff_right rfl]
  · rw [Function.update_of_ne hne]
    exact iff_of_false (fun hq => hne (honly q t hq)) fun heq => hne heq.1

namespace LockProgram.Current

variable {c : Option (ℕ × List α)}

/-- The session goes on when another process changes its phase. -/
theorem update (h : prog.Current ok x r c) {p : ℕ} {ph : Phase σ}
    (hphase : ∀ s, x.phase p ≠ .inside s) (hph : ∀ s, ph ≠ .inside s) :
    prog.Current ok ⟨x.resource, x.holder, Function.update x.phase p ph⟩ r c := by
  cases c with
  | none =>
    obtain ⟨hholder, hresource, hnone⟩ := h
    exact ⟨hholder, hresource, fun q s => (update_eq_inside_iff hphase hph q s).not.mpr (hnone q s)⟩
  | some c =>
    obtain ⟨hholder, s₀, s, henter, htrace, hinside⟩ := h
    exact ⟨hholder, s₀, s, henter, htrace, fun q s' =>
      (update_eq_inside_iff hphase hph q s').trans (hinside q s')⟩

/-- While the lock is free there is no session. -/
theorem eq_none (h : prog.Current ok x r c) (hfree : x.holder = none) : c = none := by
  cases c with
  | none => rfl
  | some c => cases hfree.symm.trans h.1

/-- A process in a session has the lock, its session is the one that goes on, and no other process
is in a session. -/
theorem exists_of_inside (h : prog.Current ok x r c) {p : ℕ} {s : σ}
    (hphase : x.phase p = .inside s) :
    x.holder = some p ∧ (∀ q t, x.phase q = .inside t → q = p) ∧ ∃ as s₀, c = some (p, as) ∧
      prog.enter r = some s₀ ∧ Trace (ofFunction prog.next) ok (s₀, r) as (s, x.resource) := by
  cases c with
  | none => exact absurd hphase (h.2.2 p s)
  | some c =>
    obtain ⟨hholder, s₀, s', henter, htrace, hinside⟩ := h
    obtain ⟨rfl, rfl⟩ := (hinside p s).mp hphase
    exact ⟨hholder, fun q t hq => ((hinside q t).mp hq).1, c.2, s₀, rfl, henter, htrace⟩

/-- A process that is not in a session does not have the lock, and the one that goes on is not its
own. -/
theorem ne_of_not_inside (h : prog.Current ok x r c) {p : ℕ} (hphase : ∀ s, x.phase p ≠ .inside s) :
    x.holder ≠ some p ∧ ∀ d, c = some d → d.1 ≠ p := by
  cases c with
  | none =>
    refine ⟨fun heq => ?_, fun d hd => by cases hd⟩
    cases heq.symm.trans h.1
  | some c =>
    obtain ⟨hholder, s₀, s, -, -, hinside⟩ := h
    have hne : c.1 ≠ p := fun heq => hphase s ((hinside p s).mpr ⟨heq.symm, rfl⟩)
    refine ⟨fun heq => hne (Option.some.inj (hholder.symm.trans heq)), fun d hd => ?_⟩
    rwa [← Option.some.inj hd]

/-- **Step lemma.** The sessions that have ended have left `r`, and the current one has started
with it. -/
theorem step {h : History α} {a : LockAction α}
    (hended : Trace (prog.Session ok okLeave) (fun _ _ => True) r₀ h.ended r)
    (hcurrent : prog.Current ok x r h.current) (hok : LockOk ok okLeave x a)
    (hstep : LockStep prog x a x') :
    ∃ r', Trace (prog.Session ok okLeave) (fun _ _ => True) r₀ (h.record a).ended r' ∧
      prog.Current ok x' r' (h.record a).current := by
  cases hstep with
  | request hphase =>
    exact ⟨r, hended, hcurrent.update (fun s hs => by cases hphase.symm.trans hs)
      fun s hs => by cases hs⟩
  | @acquire p s hphase hfree henter =>
    rw [hcurrent.eq_none hfree] at hcurrent
    obtain ⟨-, rfl, hnone⟩ := hcurrent
    exact ⟨x.resource, hended, rfl, s, s, henter, .nil,
      update_inside_eq_inside_iff (fun q t hq => absurd hq (hnone q t)) s⟩
  | giveUp hphase =>
    exact ⟨r, hended, hcurrent.update (fun s hs => by cases hphase.symm.trans hs)
      fun s hs => by cases hs⟩
  | @act p a s s' r' hphase hnext =>
    obtain ⟨hholder, honly, as, s₀, hc, henter, htrace⟩ := hcurrent.exists_of_inside hphase
    refine ⟨r, hended, ?_⟩
    rw [History.record, hc]
    exact ⟨hholder, s₀, s', henter, htrace.snoc (hok s hphase) hnext,
      update_inside_eq_inside_iff honly s'⟩
  | @leave p =>
    rw [History.record]
    by_cases hinside : ∃ s, x.phase p = .inside s
    · obtain ⟨s, hphase⟩ := hinside
      obtain ⟨hholder, honly, as, s₀, hc, henter, htrace⟩ := hcurrent.exists_of_inside hphase
      rw [hc, if_pos hholder]
      dsimp only
      rw [if_pos rfl]
      refine ⟨x.resource, hended.snoc trivial ⟨s₀, s, henter, htrace, hok s hphase⟩, rfl, rfl,
        fun q t hq => ?_⟩
      dsimp only at hq
      rcases eq_or_ne q p with rfl | hne
      · rw [Function.update_self] at hq
        cases hq
      · rw [Function.update_of_ne hne] at hq
        exact hne (honly q t hq)
    · have hphase := not_exists.mp hinside
      obtain ⟨hholder, hother⟩ := hcurrent.ne_of_not_inside hphase
      rw [if_neg hholder]
      refine ⟨r, ?_⟩
      cases hc : h.current with
      | none =>
        rw [hc] at hcurrent
        dsimp only
        rw [hc]
        exact ⟨hended, hcurrent.update hphase fun s hs => by cases hs⟩
      | some d =>
        rw [hc] at hcurrent
        dsimp only
        rw [if_neg (hother d hc), hc]
        exact ⟨hended, hcurrent.update hphase fun s hs => by cases hs⟩

end LockProgram.Current

/-- **The sessions run one after the other**: after any trace, those that have ended have left what
the one that goes on has started with, or what is there. -/
theorem LockProgram.serial_of_trace {acts : List (LockAction α)}
    (h : Trace (LockStep prog) (LockOk ok okLeave) (.start r₀) acts x) :
    ∃ r, Trace (prog.Session ok okLeave) (fun _ _ => True) r₀ (historyOf acts).ended r ∧
      prog.Current ok x r (historyOf acts).current := by
  refine h.invariant (p := fun acts x => ∃ r,
    Trace (prog.Session ok okLeave) (fun _ _ => True) r₀ (historyOf acts).ended r ∧
      prog.Current ok x r (historyOf acts).current)
    ⟨r₀, .nil, rfl, rfl, fun p s hs => by cases hs⟩ fun {acts x a x'} hx hok hstep => ?_
  obtain ⟨r, hended, hcurrent⟩ := hx
  rw [historyOf_append_singleton]
  exact hcurrent.step hended hok hstep

end Steps

end TikFachpraktika.Transition
