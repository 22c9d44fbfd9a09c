import TikFachpraktika.Pageshm.HandOver
import TikFachpraktika.Transition.Fair

/-!
# The end of the hand-over

Both programs wait by loading the shared cell again and again. A load that does not end a wait
changes nothing; every other step is one of the three that each program makes for each value, or the
last store of the producer. So if both programs run again and again, all values are handed over and
both leave their loops.

## Main definitions

* `State.rest`: the steps that are left, besides repeated loads.
* `State.Done`: both programs have left their loops.

## Main results

* `Sync.exists_move`: one of the two programs can go on.
* `handedOver_of_fair`: under a fair schedule all values are handed over.
-/

namespace TikFachpraktika.Pageshm

open Transition

/-! ### The steps that are left -/

/-- The steps that are left to a producer of `n` values. -/
def ProducerPc.rest (n : ℕ) : ProducerPc → ℕ
  | .store i => 3 * (n - i) + 1
  | .print i => 3 * (n - i)
  | .wait i => 3 * (n - i) - 1
  | .done => 0

/-- The steps that are left to a consumer of `n` values. -/
def ConsumerPc.rest (n : ℕ) : ConsumerPc → ℕ
  | .load i => 3 * (n - i)
  | .store i => 3 * (n - i) - 1
  | .wait i => 3 * (n - i) - 2
  | .done => 0

/-- The steps that are left to both programs, besides the loads that do not end a wait. -/
def State.rest (n : ℕ) (s : State) : ℕ :=
  s.producer.rest n + s.consumer.rest n

/-- Both programs have left their loops. -/
def State.Done (s : State) : Prop :=
  s.producer = .done ∧ s.consumer = .done

/-- A producer that has stored a value of its round has one. -/
def ProducerPc.InRange (n : ℕ) : ProducerPc → Prop
  | .print i | .wait i => i < n
  | .store _ | .done => True

/-- A consumer in a round has a value to read. -/
def ConsumerPc.InRange (n : ℕ) : ConsumerPc → Prop
  | .load i | .store i | .wait i => i < n
  | .done => True

section Step

variable {data : List ℤ} {s s' : State}

theorem Holding.inRange {n i : ℕ} {pc : ProducerPc} (h : Holding i pc) (hi : i < n) :
    pc.InRange n := by
  rcases h with rfl | rfl
  · exact hi
  · exact hi

theorem consumerHead_inRange (n i : ℕ) : (consumerHead n i).InRange n := by
  rw [consumerHead]
  split_ifs with hi
  · exact hi
  · trivial

theorem rest_consumerHead (n i : ℕ) : (consumerHead n i).rest n = 3 * (n - i) := by
  rw [consumerHead]
  split_ifs with hi
  · rfl
  · rw [ConsumerPc.rest]
    omega

/-- Programs in order are in their rounds. -/
theorem Sync.inRange (h : Sync data s) :
    s.producer.InRange data.length ∧ s.consumer.InRange data.length := by
  have hlt : ∀ {i v}, data[i]? = some v → i < data.length := fun hi =>
    (List.getElem?_eq_some_iff.mp hi).1
  cases h with
  | start hp hc hread =>
    rw [hp, hc]
    exact ⟨trivial, consumerHead_inRange _ _⟩
  | stored hi hp hc hread => exact ⟨hp.inRange (hlt hi), hc ▸ hlt hi⟩
  | loaded hi hp hc hread => exact ⟨hp.inRange (hlt hi), hc ▸ hlt hi⟩
  | signalled hi hcell hp hc hread => exact ⟨hp.inRange hi, hc ▸ hi⟩
  | seen hi hcell hp hc hread =>
    rw [hp, hc]
    exact ⟨trivial, hi⟩
  | @following i hi hp hc hread =>
    refine ⟨hp.inRange (hlt hi), hc ▸ ?_⟩
    exact Nat.lt_of_succ_lt (hlt hi)
  | @ended i hi hcell hp hc hread =>
    rw [hp, hc]
    exact ⟨trivial, Nat.lt_of_succ_le (Nat.le_of_eq hi)⟩
  | left hc hread hp =>
    rw [hp, hc]
    exact ⟨trivial, trivial⟩

/-- **A step** of the producer is a repeated load, or it is one of those that are left. -/
theorem rest_of_producerStep (hp : s.producer.InRange data.length)
    (h : producerStep data s = some s') :
    s' = s ∨ s'.rest data.length + 1 = s.rest data.length := by
  rw [producerStep] at h
  simp only [State.rest]
  cases hpc : s.producer with
  | store i =>
    rw [hpc] at h
    dsimp only at h
    cases hnext : data[i]? with
    | none =>
      have hle := List.getElem?_eq_none_iff.mp hnext
      rw [hnext] at h
      cases h
      refine .inr ?_
      simp only [ProducerPc.rest]
      omega
    | some v =>
      rw [hnext] at h
      cases h
      refine .inr ?_
      simp only [ProducerPc.rest]
      omega
  | print i =>
    rw [hpc] at h hp
    cases h
    have hi : i < data.length := hp
    refine .inr ?_
    simp only [ProducerPc.rest]
    omega
  | wait i =>
    rw [hpc] at h hp
    have hi : i < data.length := hp
    dsimp only at h
    split_ifs at h with hcell
    · cases h
      exact .inl rfl
    · cases h
      refine .inr ?_
      simp only [ProducerPc.rest]
      omega
  | done =>
    rw [hpc] at h
    cases h

/-- **A step** of the consumer is a repeated load, or it is one of those that are left. -/
theorem rest_of_consumerStep (hc : s.consumer.InRange data.length)
    (h : consumerStep data.length s = some s') :
    s' = s ∨ s'.rest data.length + 1 = s.rest data.length := by
  rw [consumerStep] at h
  simp only [State.rest]
  cases hpc : s.consumer with
  | load i =>
    rw [hpc] at h hc
    cases h
    have hi : i < data.length := hc
    refine .inr ?_
    simp only [ConsumerPc.rest]
    omega
  | store i =>
    rw [hpc] at h hc
    cases h
    have hi : i < data.length := hc
    refine .inr ?_
    simp only [ConsumerPc.rest]
    omega
  | wait i =>
    rw [hpc] at h hc
    have hi : i < data.length := hc
    dsimp only at h
    split_ifs at h with hcell
    · cases h
      exact .inl rfl
    · cases h
      refine .inr ?_
      rw [rest_consumerHead]
      simp only [ConsumerPc.rest]
      omega
  | done =>
    rw [hpc] at h
    cases h

theorem Sync.rest_of_next {p : Party} (h : Sync data s) (hnext : next data s p = some s') :
    s' = s ∨ s'.rest data.length + 1 = s.rest data.length := by
  obtain ⟨hp, hc⟩ := h.inRange
  cases p with
  | producer => exact rest_of_producerStep hp hnext
  | consumer => exact rest_of_consumerStep hc hnext

/-! ### Who goes on -/

/-- A producer that holds a value and can see the signal goes on. -/
theorem exists_producerStep_of_holding {i : ℕ} (hp : Holding i s.producer)
    (hcell : s.sharedData = signal) : ∃ s', producerStep data s = some s' ∧ s' ≠ s := by
  rw [producerStep]
  rcases hp with hp | hp
  · rw [hp]
    exact ⟨_, rfl, fun heq => by cases hp.symm.trans (congrArg State.producer heq).symm⟩
  · rw [hp]
    dsimp only
    rw [if_neg (not_not.mpr hcell)]
    exact ⟨_, rfl, fun heq => by cases hp.symm.trans (congrArg State.producer heq).symm⟩

/-- A producer at its store goes on. -/
theorem exists_producerStep_of_store {i : ℕ} (hp : s.producer = .store i) :
    ∃ s', producerStep data s = some s' ∧ s' ≠ s := by
  rw [producerStep, hp]
  dsimp only
  cases data[i]? with
  | none => exact ⟨_, rfl, fun heq => by cases hp.symm.trans (congrArg State.producer heq).symm⟩
  | some v => exact ⟨_, rfl, fun heq => by cases hp.symm.trans (congrArg State.producer heq).symm⟩

/-- A consumer that waits and sees something else than the signal goes on. -/
theorem exists_consumerStep_of_wait {n i : ℕ} (hc : s.consumer = .wait i)
    (hcell : s.sharedData ≠ signal) : ∃ s', consumerStep n s = some s' ∧ s' ≠ s := by
  rw [consumerStep, hc]
  dsimp only
  rw [if_neg hcell]
  refine ⟨_, rfl, fun heq => ?_⟩
  have hhead : consumerHead n (i + 1) = .wait i := (congrArg State.consumer heq).trans hc
  rw [consumerHead] at hhead
  split_ifs at hhead

/-- **One of the two programs goes on**, until both have left their loops. -/
theorem Sync.exists_move (hdata : signal ∉ data) (h : Sync data s) (hdone : ¬s.Done) :
    ∃ p s', next data s p = some s' ∧ s' ≠ s := by
  cases h with
  | start hp hc hread => exact ⟨.producer, exists_producerStep_of_store hp⟩
  | @stored i hi hp hc hread =>
    refine ⟨.consumer, { s with read := s.read ++ [s.sharedData], consumer := .store i }, ?_, ?_⟩
    · rw [next, Pageshm.consumerStep, hc]
    · exact fun heq => by cases hc.symm.trans (congrArg State.consumer heq).symm
  | @loaded i hi hp hc hread =>
    refine ⟨.consumer, { s with sharedData := signal, consumer := .wait i }, ?_, ?_⟩
    · rw [next, Pageshm.consumerStep, hc]
    · exact fun heq => by cases hc.symm.trans (congrArg State.consumer heq).symm
  | signalled hi hcell hp hc hread => exact ⟨.producer, exists_producerStep_of_holding hp hcell⟩
  | seen hi hcell hp hc hread => exact ⟨.producer, exists_producerStep_of_store hp⟩
  | following hi hp hc hread =>
    exact ⟨.consumer, exists_consumerStep_of_wait hc (ne_signal_of_getElem? hdata hi)⟩
  | ended hi hcell hp hc hread =>
    exact ⟨.consumer, exists_consumerStep_of_wait hc (hcell ▸ by decide)⟩
  | left hc hread hp => exact absurd ⟨hp, hc⟩ hdone

end Step

/-! ### Fair schedules -/

section Fair

variable {data : List ℤ} {v : ℤ} {sched : ℕ → Party}

theorem Sync.step {s s' : State} {p : Party} (hdata : signal ∉ data) (h : Sync data s)
    (hstarted : Started s p) (hnext : next data s p = some s') : Sync data s' := by
  cases p with
  | producer => exact h.producerStep hdata hnext
  | consumer => exact h.consumerStep hdata (hstarted rfl) hnext

/-- The programs stay in order in a run in which they start in order. -/
theorem sync_of_run {s : State} (hdata : signal ∉ data)
    (hrun : Run (ofFunction (next data)) Started (start data v) s) : Sync data s :=
  hrun.invariant (p := Sync data) (.start rfl rfl rfl) fun hs hstarted hnext =>
    hs.step hdata hstarted hnext

/-- Under a fair schedule both programs leave their loops. -/
theorem exists_stateAt_done (hdata : signal ∉ data) (hfair : Fair sched)
    (hstarted : ∀ k, Started (stateAt (next data) (start data v) sched k) (sched k)) :
    ∃ k, (stateAt (next data) (start data v) sched k).Done := by
  obtain ⟨k, -, hdone⟩ := hfair.exists_done (State.rest data.length)
    (fun k => sync_of_run hdata (run_stateAt hstarted k))
    (fun s p s' hs hnext => (hs.rest_of_next hnext).imp id Nat.le_of_eq)
    (fun s hs hdone => by
      obtain ⟨p, s', hnext, hne⟩ := hs.exists_move hdata hdone
      exact ⟨p, s', hnext, Nat.le_of_eq ((hs.rest_of_next hnext).resolve_left hne)⟩) 0
  exact ⟨k, hdone⟩

/-- Programs that have left their loops take no step. -/
theorem State.Done.next_eq_none {s : State} (h : s.Done) (p : Party) : next data s p = none := by
  obtain ⟨hp, hc⟩ := h
  cases p with
  | producer => rw [next, producerStep, hp]
  | consumer => rw [next, consumerStep, hc]

/-- **The hand-over ends.** Under every fair schedule in which the consumer does not load before the
first store of the producer, whatever the cell held at first, there is a time from which on both
programs have left their loops and the consumer has read all values. -/
theorem handedOver_of_fair (hdata : signal ∉ data) (hfair : Fair sched)
    (hstarted : ∀ k, Started (stateAt (next data) (start data v) sched k) (sched k)) :
    ∃ k, ∀ j, k ≤ j → (stateAt (next data) (start data v) sched j).Done ∧
      (stateAt (next data) (start data v) sched j).read = data := by
  obtain ⟨k, hdone⟩ := exists_stateAt_done hdata hfair hstarted
  refine ⟨k, fun j hkj => ?_⟩
  have hlast : stateAt (next data) (start data v) sched j =
      stateAt (next data) (start data v) sched k :=
    stateAt_of_le (fun p s' hnext => by cases (hdone.next_eq_none p).symm.trans hnext) hkj rfl
  rw [hlast]
  exact ⟨hdone, (sync_of_run hdata (run_stateAt hstarted k)).handedOver hdone.2⟩

/-- The producer is not a second time before its first store. -/
theorem producer_ne_of_next {s s' : State} {p : Party} (hs : s.producer ≠ .store 0)
    (hnext : next data s p = some s') : s'.producer ≠ .store 0 := by
  cases p with
  | producer =>
    rw [next, producerStep] at hnext
    split at hnext
    · split at hnext <;> cases hnext <;> simp
    · cases hnext
      simp
    · split_ifs at hnext with hcell
      · cases hnext
        exact hs
      · cases hnext
        simp
    · cases hnext
  | consumer =>
    rw [next, consumerStep] at hnext
    split at hnext
    · cases hnext
      exact hs
    · cases hnext
      exact hs
    · split_ifs at hnext with hcell
      · cases hnext
        exact hs
      · cases hnext
        exact hs
    · cases hnext

/-- The programs start in order when the producer takes the first step. -/
theorem started_of_first (hfirst : sched 0 = .producer) (k : ℕ) :
    Started (stateAt (next data) (start data v) sched k) (sched k) := by
  have hne : ∀ k, (stateAt (next data) (start data v) sched (k + 1)).producer ≠ .store 0 := by
    intro k
    induction k with
    | zero =>
      obtain ⟨s', hnext, -⟩ := @exists_producerStep_of_store data (start data v) 0 rfl
      rw [@stateAt_succ_of_eq_some _ _ (next data) (start data v) sched 0 s' (by rwa [hfirst])]
      obtain ⟨v', -, rfl⟩ | ⟨-, rfl⟩ := producerStep_store rfl hnext
      · exact fun h => by cases h
      · exact fun h => by cases h
    | succ k ih =>
      rw [stateAt]
      cases hnext : next data (stateAt (next data) (start data v) sched (k + 1))
          (sched (k + 1)) with
      | none => exact ih
      | some s' => exact producer_ne_of_next ih hnext
  intro hp hc
  cases k with
  | zero => cases hfirst.symm.trans hp
  | succ k => exact hne k

end Fair

/-- The two programs take turns. -/
def turns (k : ℕ) : Party :=
  if k % 2 = 0 then .producer else .consumer

theorem fair_turns : Fair turns := by
  intro p k
  cases p with
  | producer => exact ⟨2 * k, by omega, if_pos (by omega)⟩
  | consumer => exact ⟨2 * k + 1, by omega, if_neg (by omega)⟩

/-- The values 20 and 16 are handed over in turns, in a cell that holds 0 at first. -/
theorem handedOver_of_fair_turns : ∃ k, ∀ j, k ≤ j →
    (stateAt (next [20, 16]) (start [20, 16] 0) turns j).Done ∧
      (stateAt (next [20, 16]) (start [20, 16] 0) turns j).read = [20, 16] :=
  handedOver_of_fair (by decide) fair_turns (started_of_first rfl)

end TikFachpraktika.Pageshm
