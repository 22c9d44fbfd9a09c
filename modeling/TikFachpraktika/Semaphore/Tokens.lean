import TikFachpraktika.Semaphore.System
import TikFachpraktika.Transition.Run
import Mathlib.Data.Multiset.AddSub

/-!
# Semaphores with tokens

A counting semaphore as a bag of tokens, each of which carries the thread that posted it. A wait
takes any token, and the thread keeps the one that it took last. The number of tokens is the value
of the semaphore, so these systems show which of the indistinguishable units of a semaphore a
thread may get.

## Main definitions

* `TokenConfig`: the program counters, the tokens, and the tokens taken last.
* `TokenStep`, `tokenNext`, `TokenRun`: the steps, a step function and the runs.
* `Embeds`: a configuration with more threads and more tokens.

## Main results

* `TokenRun.reachable`: counting the tokens gives a run of the counting semaphores.
* `TokenRun.embeds`: a run of some of the threads, with fewer tokens, is a run of all of them.
-/

namespace TikFachpraktika.Semaphore

open Transition

/-- The program counters of all threads, the tokens in all semaphores, and the token that each
thread has taken last from each semaphore. A token that no thread has posted is `none`. -/
structure TokenConfig (ι σ : Type*) where
  pc : ι → ℕ
  tokens : σ → Multiset (Option ι)
  taken : ι → σ → Option ι

variable {ι σ : Type*} [DecidableEq ι] [DecidableEq σ] {code : ι → Code σ}

namespace TokenConfig

/-- The value of a semaphore is the number of its tokens. -/
def toConfig (c : TokenConfig ι σ) : Config ι σ where
  pc := c.pc
  value s := (c.tokens s).card

/-- Thread `i` posts `s`. -/
def post (code : ι → Code σ) (c : TokenConfig ι σ) (i : ι) (s : σ) : TokenConfig ι σ where
  pc := Function.update c.pc i ((code i).succ (c.pc i))
  tokens := Function.update c.tokens s (some i ::ₘ c.tokens s)
  taken := c.taken

/-- Thread `i` takes the token `t` from `s`. -/
def take (code : ι → Code σ) (c : TokenConfig ι σ) (i : ι) (s : σ) (t : Option ι) :
    TokenConfig ι σ where
  pc := Function.update c.pc i ((code i).succ (c.pc i))
  tokens := Function.update c.tokens s ((c.tokens s).erase t)
  taken := Function.update c.taken i (Function.update (c.taken i) s t)

/-! ### Field lemmas -/

section Fields

variable (c : TokenConfig ι σ) (i : ι) (s : σ) (t : Option ι)

@[simp] theorem post_pc :
    (c.post code i s).pc = Function.update c.pc i ((code i).succ (c.pc i)) := rfl
@[simp] theorem post_taken : (c.post code i s).taken = c.taken := rfl
@[simp] theorem take_pc :
    (c.take code i s t).pc = Function.update c.pc i ((code i).succ (c.pc i)) := rfl
@[simp] theorem take_taken_self : (c.take code i s t).taken i s = t := by simp [take]

theorem take_taken_of_ne {j : ι} (h : j ≠ i) : (c.take code i s t).taken j = c.taken j :=
  Function.update_of_ne h ..

theorem mem_tokens_post {s' : σ} {t : Option ι} :
    t ∈ (c.post code i s).tokens s' ↔ (s' = s ∧ t = some i) ∨ t ∈ c.tokens s' := by
  by_cases hs : s' = s
  · subst hs
    simp [post]
  · simp [post, hs]

theorem mem_tokens_of_take {s' : σ} {t' : Option ι} (h : t' ∈ (c.take code i s t).tokens s') :
    t' ∈ c.tokens s' := by
  by_cases hs : s' = s
  · subst hs
    simp only [take, Function.update_self] at h
    exact Multiset.mem_of_mem_erase h
  · simpa only [take, Function.update_of_ne hs] using h

end Fields

end TokenConfig

/-- Thread `i` performs its next operation. A `tryWait` that fails changes nothing. -/
inductive TokenStep (code : ι → Code σ) (c : TokenConfig ι σ) (i : ι) : TokenConfig ι σ → Prop
  | post {s : σ} (hop : (code i).body[c.pc i]? = some (.post s)) :
      TokenStep code c i (c.post code i s)
  | wait {s : σ} {t : Option ι} (hop : (code i).body[c.pc i]? = some (.wait s))
      (ht : t ∈ c.tokens s) : TokenStep code c i (c.take code i s t)
  | tryWait {s : σ} {t : Option ι} (hop : (code i).body[c.pc i]? = some (.tryWait s))
      (ht : t ∈ c.tokens s) : TokenStep code c i (c.take code i s t)
  | retry {s : σ} (hop : (code i).body[c.pc i]? = some (.tryWait s)) (hempty : c.tokens s = 0) :
      TokenStep code c i c

/-- Thread `a.1` performs its next operation, with the token `a.2` if it is a wait. -/
def tokenNext (code : ι → Code σ) (c : TokenConfig ι σ) (a : ι × Option ι) :
    Option (TokenConfig ι σ) :=
  match (code a.1).body[c.pc a.1]? with
  | none => none
  | some (.post s) => some (c.post code a.1 s)
  | some (.wait s) | some (.tryWait s) =>
    if a.2 ∈ c.tokens s then some (c.take code a.1 s a.2) else none

/-- The configurations that runs from `c₀` reach. -/
def TokenRun (code : ι → Code σ) (c₀ c : TokenConfig ι σ) : Prop :=
  Run (TokenStep code) free c₀ c

/-! ### Counting the tokens -/

namespace TokenConfig

theorem toConfig_post (c : TokenConfig ι σ) (i : ι) (s : σ) :
    (c.post code i s).toConfig = ⟨Function.update c.pc i ((code i).succ (c.pc i)),
      (Op.post s).run c.toConfig.value⟩ := by
  ext x
  · rfl
  · by_cases hx : x = s
    · subst hx
      simp [post, toConfig, Op.run]
    · simp [post, toConfig, Op.run, Function.update_of_ne hx]

theorem toConfig_take (c : TokenConfig ι σ) (i : ι) {s : σ} {t : Option ι} (ht : t ∈ c.tokens s) :
    (c.take code i s t).toConfig = ⟨Function.update c.pc i ((code i).succ (c.pc i)),
      (Op.wait s).run c.toConfig.value⟩ := by
  ext x
  · rfl
  · by_cases hx : x = s
    · subst hx
      simp [take, toConfig, Op.run, Multiset.card_erase_of_mem ht]
    · simp [take, toConfig, Op.run, Function.update_of_ne hx]

end TokenConfig

/-- **A step with tokens** is one of the same thread over the counting semaphores. -/
theorem TokenStep.toConfig {c c' : TokenConfig ι σ} {i : ι} (h : TokenStep code c i c') :
    Advances code i c.toConfig c'.toConfig ∨ Retries code i c.toConfig c'.toConfig := by
  cases h with
  | post hop => exact .inl ⟨_, hop, trivial, c.toConfig_post i _⟩
  | wait hop ht =>
    exact .inl ⟨_, hop, Multiset.card_pos_iff_exists_mem.mpr ⟨_, ht⟩, c.toConfig_take i ht⟩
  | tryWait hop ht =>
    exact .inl ⟨_, hop, Multiset.card_pos_iff_exists_mem.mpr ⟨_, ht⟩, c.toConfig_take i ht⟩
  | retry hop hempty => exact .inr ⟨_, hop, Multiset.card_eq_zero.mpr hempty, rfl⟩

theorem TokenStep.pc_of_ne {c c' : TokenConfig ι σ} {i j : ι} (h : TokenStep code c i c')
    (hj : j ≠ i) : c'.pc j = c.pc j := by
  cases h with
  | retry => rfl
  | post | wait | tryWait => exact Function.update_of_ne hj ..

theorem tokenStep_of_tokenNext {c c' : TokenConfig ι σ} {a : ι × Option ι}
    (h : tokenNext code c a = some c') : TokenStep code c a.1 c' := by
  rw [tokenNext] at h
  split at h
  case h_1 => cases h
  case h_2 s hop =>
    cases h
    exact .post hop
  case h_3 s hop =>
    split_ifs at h with ht
    cases h
    exact .wait hop ht
  case h_4 s hop =>
    split_ifs at h with ht
    cases h
    exact .tryWait hop ht

namespace TokenRun

variable {c₀ c c' : TokenConfig ι σ}

/-- **Counting the tokens** of a run gives a run of the counting semaphores. -/
theorem reachable (h : TokenRun code c₀ c) : Reachable code c₀.toConfig c.toConfig :=
  Run.invariant h (p := fun c => Reachable code c₀.toConfig c.toConfig) .refl
    fun hc _ hstep => hc.tail ⟨_, hstep.toConfig⟩

theorem of_schedule {as : List (ι × Option ι)}
    (h : schedule (tokenNext code) free c₀ as = some c) : TokenRun code c₀ c :=
  Run.invariant (Run.refl.of_schedule h) (p := TokenRun code c₀) Run.refl
    fun hc _ hstep => Run.step hc trivial (tokenStep_of_tokenNext hstep)

end TokenRun

/-! ### More threads and more tokens -/

section Embedding

variable {κ : Type*} [DecidableEq κ] {code' : κ → Code σ} {f : ι → κ} {c c' : TokenConfig ι σ}
  {d : TokenConfig κ σ}

/-- The configuration `d` has the threads of `c`, renamed by `f`, where they are in `c`, with all
the tokens that they can take in `c`. -/
structure Embeds (f : ι → κ) (c : TokenConfig ι σ) (d : TokenConfig κ σ) : Prop where
  pc : ∀ i, d.pc (f i) = c.pc i
  tokens : ∀ s, (c.tokens s).map (Option.map f) ≤ d.tokens s
  taken : ∀ i s, d.taken (f i) s = (c.taken i s).map f

namespace Embeds

omit [DecidableEq ι] [DecidableEq σ] [DecidableEq κ] in
theorem mem_tokens (h : Embeds f c d) {s : σ} {t : Option ι} (ht : t ∈ c.tokens s) :
    t.map f ∈ d.tokens s :=
  Multiset.mem_of_le (h.tokens s) (Multiset.mem_map_of_mem _ ht)

theorem post (h : Embeds f c d) (hf : Function.Injective f) (hcode : ∀ i, code' (f i) = code i)
    (i : ι) (s : σ) : Embeds f (c.post code i s) (d.post code' (f i) s) where
  pc j := by
    by_cases hj : j = i
    · subst hj
      simp [hcode, h.pc]
    · simp [Function.update_of_ne hj, Function.update_of_ne (hf.ne hj), h.pc]
  tokens s' := by
    by_cases hs : s' = s
    · subst hs
      simpa [TokenConfig.post] using h.tokens s'
    · simpa [TokenConfig.post, Function.update_of_ne hs] using h.tokens s'
  taken := h.taken

theorem take (h : Embeds f c d) (hf : Function.Injective f) (hcode : ∀ i, code' (f i) = code i)
    (i : ι) (s : σ) (t : Option ι) :
    Embeds f (c.take code i s t) (d.take code' (f i) s (t.map f)) where
  pc j := by
    by_cases hj : j = i
    · subst hj
      simp [hcode, h.pc]
    · simp [Function.update_of_ne hj, Function.update_of_ne (hf.ne hj), h.pc]
  tokens s' := by
    by_cases hs : s' = s
    · subst hs
      have hmap := Multiset.erase_le_erase (t.map f) (h.tokens s')
      rw [← Multiset.map_erase _ (Option.map_injective hf)] at hmap
      simpa [TokenConfig.take] using hmap
    · simpa [TokenConfig.take, Function.update_of_ne hs] using h.tokens s'
  taken j s' := by
    by_cases hj : j = i
    · subst hj
      by_cases hs : s' = s
      · subst hs
        simp
      · simp [TokenConfig.take, Function.update_of_ne hs, h.taken]
    · rw [TokenConfig.take_taken_of_ne _ _ _ _ hj, TokenConfig.take_taken_of_ne _ _ _ _ (hf.ne hj),
        h.taken]

end Embeds

/-- **More threads and more tokens** do not take a run away from some of the threads. -/
theorem TokenRun.embeds {c₀ : TokenConfig ι σ} {d₀ : TokenConfig κ σ} (h : TokenRun code c₀ c)
    (hf : Function.Injective f) (hcode : ∀ i, code' (f i) = code i) (h₀ : Embeds f c₀ d₀) :
    ∃ d, TokenRun code' d₀ d ∧ Embeds f c d := by
  refine Run.invariant h (p := fun c => ∃ d, TokenRun code' d₀ d ∧ Embeds f c d)
    ⟨d₀, .refl, h₀⟩ fun {c i c'} hc _ hstep => ?_
  obtain ⟨d, hrun, hd⟩ := hc
  have hbody (op : Op σ) (hop : (code i).body[c.pc i]? = some op) :
      (code' (f i)).body[d.pc (f i)]? = some op := by
    rw [hcode, hd.pc, hop]
  cases hstep with
  | post hop => exact ⟨_, Run.step hrun trivial (.post (hbody _ hop)), hd.post hf hcode i _⟩
  | wait hop ht =>
    exact ⟨_, Run.step hrun trivial (.wait (hbody _ hop) (hd.mem_tokens ht)),
      hd.take hf hcode i _ _⟩
  | tryWait hop ht =>
    exact ⟨_, Run.step hrun trivial (.tryWait (hbody _ hop) (hd.mem_tokens ht)),
      hd.take hf hcode i _ _⟩
  | retry hop hempty => exact ⟨d, hrun, hd⟩

end Embedding

end TikFachpraktika.Semaphore
