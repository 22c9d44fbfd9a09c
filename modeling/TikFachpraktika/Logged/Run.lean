import Mathlib.Tactic.TypeStar

/-!
# Computations that log what they do

A computation writes entries to a log and ends with a result or with an error; an error leaves the
entries in the log that were written before it. A computation without its log is one of `Except`,
so that a program can be written a second time with a log and be compared with the first one.

## Main definitions

* `Logged`: computations with a log.
* `Logged.tell`: some entries.
* `Logged.All`: every entry has a property.

## Main results

* `Logged.result_bind`, `Logged.result_foldlM`: the results without the log.
* `Logged.all_bind`, `Logged.all_foldlM`: the rules for the entries of a sequence and of a loop.
-/

namespace TikFachpraktika

/-- The log of a computation, and its result or the error that it has ended with. -/
structure Logged (ω ε α : Type) where
  log : List ω
  result : Except ε α

namespace Logged

variable {ω ε α β : Type}

/-- A computation and one that depends on its result. -/
protected def bind (x : Logged ω ε α) (f : α → Logged ω ε β) : Logged ω ε β :=
  match x.result with
  | .ok a => ⟨x.log ++ (f a).log, (f a).result⟩
  | .error e => ⟨x.log, .error e⟩

instance : Monad (Logged ω ε) where
  pure a := ⟨[], .ok a⟩
  bind := Logged.bind

instance : LawfulMonad (Logged ω ε) := LawfulMonad.mk' (Logged ω ε)
  (by
    rintro α ⟨log, result⟩
    cases result <;> simp [Functor.map, Logged.bind])
  (by
    intro α β a f
    simp [pure, bind, Logged.bind])
  (by
    rintro α β γ ⟨log, result⟩ f g
    cases result with
    | error e => rfl
    | ok a =>
      simp only [bind, Logged.bind]
      cases (f a).result <;> simp)

/-- Entries for the log. -/
def tell (log : List ω) : Logged ω ε Unit :=
  ⟨log, .ok ()⟩

/-- A computation that logs nothing. -/
def lift (x : Except ε α) : Logged ω ε α :=
  ⟨[], x⟩

/-! ### Results -/

@[simp] theorem result_pure (a : α) : (pure a : Logged ω ε α).result = .ok a := rfl

@[simp] theorem result_tell (log : List ω) : (tell log : Logged ω ε Unit).result = .ok () := rfl

@[simp] theorem result_lift (x : Except ε α) : (lift x : Logged ω ε α).result = x := rfl

@[simp] theorem result_bind (x : Logged ω ε α) (f : α → Logged ω ε β) :
    (x >>= f).result = x.result >>= fun a => (f a).result := by
  obtain ⟨log, result⟩ := x
  cases result <;> rfl

theorem lift_ok_bind (a : α) (f : α → Logged ω ε β) : (lift (.ok a) >>= f) = f a := rfl

/-- A computation that has ended with a result goes on with the next one. -/
theorem mk_ok_bind (log : List ω) (a : α) (f : α → Logged ω ε β) :
    ((⟨log, .ok a⟩ : Logged ω ε α) >>= f) = ⟨log ++ (f a).log, (f a).result⟩ := rfl

theorem tell_bind (log : List ω) (x : Logged ω ε α) :
    (tell log >>= fun _ => x) = ⟨log ++ x.log, x.result⟩ := rfl

theorem result_ite (p : Prop) [Decidable p] (x y : Logged ω ε α) :
    (if p then x else y).result = if p then x.result else y.result :=
  apply_ite Logged.result p x y

/-- **A loop without its log** is the loop over the results. -/
theorem result_foldlM (f : β → α → Logged ω ε β) (l : List α) (b : β) :
    (l.foldlM f b).result = l.foldlM (fun b a => (f b a).result) b := by
  induction l generalizing b with
  | nil => rfl
  | cons a l ih =>
    rw [List.foldlM_cons, List.foldlM_cons, result_bind]
    exact congrArg _ (funext ih)

/-! ### Entries -/

/-- Every entry of the log has the property. -/
def All (P : ω → Prop) (x : Logged ω ε α) : Prop :=
  ∀ w ∈ x.log, P w

section All

variable {P : ω → Prop}

theorem all_pure (a : α) : (pure a : Logged ω ε α).All P := fun _ hw => absurd hw List.not_mem_nil

theorem all_lift (x : Except ε α) : (lift x : Logged ω ε α).All P :=
  fun _ hw => absurd hw List.not_mem_nil

theorem all_tell_iff (log : List ω) : (tell log : Logged ω ε Unit).All P ↔ ∀ w ∈ log, P w :=
  Iff.rfl

/-- **Rule for a sequence.** The second part adds entries if the first one has a result. -/
theorem all_bind (x : Logged ω ε α) (f : α → Logged ω ε β) :
    (x >>= f).All P ↔ x.All P ∧ ∀ a, x.result = .ok a → (f a).All P := by
  obtain ⟨log, result⟩ := x
  cases result with
  | error e => simp [All, bind, Logged.bind]
  | ok a => simp [All, bind, Logged.bind, or_imp, forall_and]

/-- Entries before a computation. -/
theorem all_tell_bind (log : List ω) (x : Logged ω ε α) :
    (tell log >>= fun _ => x).All P ↔ (∀ w ∈ log, P w) ∧ x.All P := by
  rw [all_bind, all_tell_iff]
  exact and_congr_right fun _ => ⟨fun h => h () rfl, fun h _ _ => h⟩

/-- **Rule for a loop.** The entries have the property if each step gives such entries in the
states that satisfy an invariant, and keeps the invariant. -/
theorem all_foldlM {Q : β → Prop} {f : β → α → Logged ω ε β} {l : List α} {b : β} (hb : Q b)
    (hstep : ∀ a ∈ l, ∀ b, Q b → (f b a).All P ∧ ∀ b', (f b a).result = .ok b' → Q b') :
    (l.foldlM f b).All P := by
  induction l generalizing b with
  | nil => exact all_pure b
  | cons a l ih =>
    obtain ⟨hall, hkeep⟩ := hstep a List.mem_cons_self b hb
    rw [List.foldlM_cons, all_bind]
    exact ⟨hall, fun b' hb' => ih (hkeep b' hb') fun a' ha' =>
      hstep a' (List.mem_cons_of_mem a ha')⟩

end All

end Logged

end TikFachpraktika
