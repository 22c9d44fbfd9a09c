import TikFachpraktika.Transition.Run
import Mathlib.Data.List.Basic
import Mathlib.Data.Int.Init

/-!
# Handing values over in a shared cell

The loops of `3_pageshm/producer.c` and `3_pageshm/consumer.c` over the one `int` that both map.
The producer stores a value and waits for `SIGNAL`; the consumer loads a value, stores `SIGNAL`
and waits until it is gone. Each load and each store of the cell is one step. Neither program
gives the cell a first value, and the consumer does not wait before its first load.

## Main definitions

* `ProducerPc`, `ConsumerPc`, `State`: the places in the two loops, and the state.
* `producerStep`, `consumerStep`, `next`: the steps.
* `HandedOver`: the consumer has left its loop with the values of the producer.
* `Started`: the first load comes after the first store.
* `Sync`: the invariant of such runs.

## Main results

* `handedOver_of_run_started`: if the producer stores first, all values are handed over.
* `not_forall_handedOver`: otherwise they need not be.
-/

namespace TikFachpraktika.Pageshm

open Transition

/-- `SIGNAL`. -/
def signal : ℤ := -4

/-- `ENDSIGNAL`. -/
def endsignal : ℤ := -5

/-- The places of the producer in round `i` of its loop: before its store, before the load of its
`printf`, and before the load of the `while`. The store after the loop is the one of the round
behind the last. -/
inductive ProducerPc
  | store (i : ℕ)
  | print (i : ℕ)
  | wait (i : ℕ)
  | done
  deriving DecidableEq

/-- The places of the consumer in round `i` of its loop: before its load of the value, before the
store of `SIGNAL`, and before the load of the `while`. -/
inductive ConsumerPc
  | load (i : ℕ)
  | store (i : ℕ)
  | wait (i : ℕ)
  | done
  deriving DecidableEq

/-- The shared cell, the places of both programs, and the part of the array `read` that has been
filled. -/
@[ext]
structure State where
  sharedData : ℤ
  producer : ProducerPc
  consumer : ConsumerPc
  read : List ℤ
  deriving DecidableEq

/-- Who takes a step. -/
inductive Party
  | producer
  | consumer
  deriving DecidableEq

/-- A step of the producer of `data`. -/
def producerStep (data : List ℤ) (s : State) : Option State :=
  match s.producer with
  | .store i =>
    match data[i]? with
    | some v => some { s with sharedData := v, producer := .print i }
    | none => some { s with sharedData := endsignal, producer := .done }
  | .print i => some { s with producer := .wait i }
  | .wait i =>
    if s.sharedData ≠ signal then some s
    else some { s with producer := .store (i + 1) }
  | .done => none

/-- The head of the loop of a consumer of `n` values. -/
def consumerHead (n i : ℕ) : ConsumerPc :=
  if i < n then .load i else .done

/-- A step of the consumer of `n` values. -/
def consumerStep (n : ℕ) (s : State) : Option State :=
  match s.consumer with
  | .load i => some { s with read := s.read ++ [s.sharedData], consumer := .store i }
  | .store i => some { s with sharedData := signal, consumer := .wait i }
  | .wait i =>
    if s.sharedData = signal then some s
    else some { s with consumer := consumerHead n (i + 1) }
  | .done => none

/-- A step of either program, where the consumer reads as many values as the producer writes. -/
def next (data : List ℤ) (s : State) : Party → Option State
  | .producer => producerStep data s
  | .consumer => consumerStep data.length s

/-- Both programs before their loops, with any value in the cell. -/
def start (data : List ℤ) (v : ℤ) : State where
  sharedData := v
  producer := .store 0
  consumer := consumerHead data.length 0
  read := []

/-- A consumer that has left its loop has read the values of the producer. -/
def HandedOver (data : List ℤ) (s : State) : Prop :=
  s.consumer = .done → s.read = data

/-- The consumer does not take its first load before the first store of the producer. -/
def Started (s : State) (p : Party) : Prop :=
  p = .consumer → s.consumer = .load 0 → s.producer ≠ .store 0

instance (s : State) (p : Party) : Decidable (Started s p) :=
  inferInstanceAs (Decidable (_ → _ → _))

/-! ### Programs that have started in order -/

/-- The producer has stored value `i` and has not yet seen the signal. -/
def Holding (i : ℕ) (pc : ProducerPc) : Prop :=
  pc = .print i ∨ pc = .wait i

/-- The states of runs in which the producer stores first, by what has happened last: nothing, the
store of value `i`, its load, the signal for it, the load of this signal, the store of the next
value, the store of `ENDSIGNAL`, and the end of the consumer's loop. -/
inductive Sync (data : List ℤ) (s : State) : Prop
  | start (hp : s.producer = .store 0) (hc : s.consumer = consumerHead data.length 0)
      (hread : s.read = [])
  | stored {i : ℕ} (hi : data[i]? = some s.sharedData) (hp : Holding i s.producer)
      (hc : s.consumer = .load i) (hread : s.read = data.take i)
  | loaded {i : ℕ} (hi : data[i]? = some s.sharedData) (hp : Holding i s.producer)
      (hc : s.consumer = .store i) (hread : s.read = data.take (i + 1))
  | signalled {i : ℕ} (hi : i < data.length) (hcell : s.sharedData = signal)
      (hp : Holding i s.producer) (hc : s.consumer = .wait i) (hread : s.read = data.take (i + 1))
  | seen {i : ℕ} (hi : i < data.length) (hcell : s.sharedData = signal)
      (hp : s.producer = .store (i + 1)) (hc : s.consumer = .wait i)
      (hread : s.read = data.take (i + 1))
  | following {i : ℕ} (hi : data[i + 1]? = some s.sharedData) (hp : Holding (i + 1) s.producer)
      (hc : s.consumer = .wait i) (hread : s.read = data.take (i + 1))
  | ended {i : ℕ} (hi : i + 1 = data.length) (hcell : s.sharedData = endsignal)
      (hp : s.producer = .done) (hc : s.consumer = .wait i) (hread : s.read = data)
  | left (hc : s.consumer = .done) (hread : s.read = data)
      (hp : s.producer = .done)

section Step

variable {data : List ℤ} {s s' : State}

theorem ne_signal_of_getElem? (hdata : signal ∉ data) {i : ℕ} {v : ℤ} (h : data[i]? = some v) :
    v ≠ signal := fun heq => hdata (heq ▸ List.mem_of_getElem? h)

/-- A producer that holds its value goes on to its next round when it sees the signal. -/
theorem producerStep_holding {i : ℕ} (hp : Holding i s.producer)
    (h : producerStep data s = some s') :
    (s' = { s with producer := s'.producer } ∧ Holding i s'.producer) ∨
      (s.sharedData = signal ∧ s' = { s with producer := .store (i + 1) }) := by
  rw [producerStep] at h
  rcases hp with hp | hp
  · rw [hp] at h
    cases h
    exact .inl ⟨rfl, .inr rfl⟩
  · rw [hp] at h
    dsimp only at h
    split_ifs at h with hcell
    · cases h
      exact .inl ⟨rfl, .inr hp⟩
    · cases h
      exact .inr ⟨not_not.mp hcell, rfl⟩

theorem producerStep_holding_of_ne {i : ℕ} (hcell : s.sharedData ≠ signal)
    (hp : Holding i s.producer) (h : producerStep data s = some s') :
    s' = { s with producer := s'.producer } ∧ Holding i s'.producer :=
  (producerStep_holding hp h).resolve_right fun hseen => hcell hseen.1

/-- A producer at its store writes the next value, or `ENDSIGNAL` after the last one. -/
theorem producerStep_store {i : ℕ} (hp : s.producer = .store i)
    (h : producerStep data s = some s') :
    (∃ v, data[i]? = some v ∧ s' = { s with sharedData := v, producer := .print i }) ∨
      (data.length ≤ i ∧ s' = { s with sharedData := endsignal, producer := .done }) := by
  rw [producerStep, hp] at h
  dsimp only at h
  cases hnext : data[i]? with
  | none =>
    rw [hnext] at h
    cases h
    exact .inr ⟨List.getElem?_eq_none_iff.mp hnext, rfl⟩
  | some v =>
    rw [hnext] at h
    cases h
    exact .inl ⟨v, rfl, rfl⟩

/-- A consumer that waits goes on to its next round when it no longer sees the signal. -/
theorem consumerStep_wait {n i : ℕ} (hc : s.consumer = .wait i)
    (h : consumerStep n s = some s') :
    (s.sharedData = signal ∧ s' = s) ∨
      (s.sharedData ≠ signal ∧ s' = { s with consumer := consumerHead n (i + 1) }) := by
  rw [consumerStep, hc] at h
  dsimp only at h
  split_ifs at h with hcell
  · cases h
    exact .inl ⟨hcell, rfl⟩
  · cases h
    exact .inr ⟨hcell, rfl⟩

/-- **A step of the producer** keeps the programs in order. -/
theorem Sync.producerStep (hdata : signal ∉ data) (h : Sync data s)
    (hstep : producerStep data s = some s') : Sync data s' := by
  cases h with
  | start hp hc hread =>
    obtain ⟨v, hfirst, rfl⟩ | ⟨hle, rfl⟩ := producerStep_store hp hstep
    · have hpos : 0 < data.length := (List.getElem?_eq_some_iff.mp hfirst).1
      exact .stored hfirst (.inl rfl) (hc.trans (if_pos hpos)) hread
    · obtain rfl := List.length_eq_zero_iff.mp (Nat.le_zero.mp hle)
      exact .left hc hread rfl
  | stored hi hp hc hread =>
    obtain ⟨heq, hp'⟩ := producerStep_holding_of_ne (ne_signal_of_getElem? hdata hi) hp hstep
    rw [heq]
    exact .stored hi hp' hc hread
  | loaded hi hp hc hread =>
    obtain ⟨heq, hp'⟩ := producerStep_holding_of_ne (ne_signal_of_getElem? hdata hi) hp hstep
    rw [heq]
    exact .loaded hi hp' hc hread
  | signalled hi hcell hp hc hread =>
    obtain ⟨heq, hp'⟩ | ⟨-, rfl⟩ := producerStep_holding hp hstep
    · rw [heq]
      exact .signalled hi hcell hp' hc hread
    · exact .seen hi hcell rfl hc hread
  | seen hi hcell hp hc hread =>
    obtain ⟨v, hnext, rfl⟩ | ⟨hle, rfl⟩ := producerStep_store hp hstep
    · exact .following hnext (.inl rfl) hc hread
    · have hlast := Nat.le_antisymm hi hle
      exact .ended hlast rfl rfl hc (hread.trans (List.take_of_length_le hle))
  | following hi hp hc hread =>
    obtain ⟨heq, hp'⟩ := producerStep_holding_of_ne (ne_signal_of_getElem? hdata hi) hp hstep
    rw [heq]
    exact .following hi hp' hc hread
  | ended hi hcell hp hc hread =>
    rw [Pageshm.producerStep, hp] at hstep
    cases hstep
  | left hc hread hp =>
    rw [Pageshm.producerStep, hp] at hstep
    cases hstep

/-- **A step of the consumer** keeps the programs in order, unless it is a load before the first
store. -/
theorem Sync.consumerStep (hdata : signal ∉ data) (h : Sync data s)
    (hstarted : s.consumer = .load 0 → s.producer ≠ .store 0)
    (hstep : consumerStep data.length s = some s') : Sync data s' := by
  cases h with
  | start hp hc hread =>
    rw [consumerHead] at hc
    split_ifs at hc with hpos
    · exact absurd hp (hstarted hc)
    · rw [Pageshm.consumerStep, hc] at hstep
      cases hstep
  | stored hi hp hc hread =>
    rw [Pageshm.consumerStep, hc] at hstep
    cases hstep
    refine .loaded hi hp rfl ?_
    rw [List.take_add_one, hi, ← hread]
    rfl
  | loaded hi hp hc hread =>
    rw [Pageshm.consumerStep, hc] at hstep
    cases hstep
    exact .signalled (List.getElem?_eq_some_iff.mp hi).1 rfl hp rfl hread
  | signalled hi hcell hp hc hread =>
    obtain ⟨-, rfl⟩ | ⟨hne, -⟩ := consumerStep_wait hc hstep
    · exact .signalled hi hcell hp hc hread
    · exact absurd hcell hne
  | seen hi hcell hp hc hread =>
    obtain ⟨-, rfl⟩ | ⟨hne, -⟩ := consumerStep_wait hc hstep
    · exact .seen hi hcell hp hc hread
    · exact absurd hcell hne
  | following hi hp hc hread =>
    obtain ⟨heq, -⟩ | ⟨-, rfl⟩ := consumerStep_wait hc hstep
    · exact absurd heq (ne_signal_of_getElem? hdata hi)
    · exact .stored hi hp (if_pos (List.getElem?_eq_some_iff.mp hi).1) hread
  | ended hi hcell hp hc hread =>
    obtain ⟨heq, -⟩ | ⟨-, rfl⟩ := consumerStep_wait hc hstep
    · exact absurd (hcell.symm.trans heq) (by decide)
    · exact .left (if_neg (by omega)) hread hp
  | left hc hread hp =>
    rw [Pageshm.consumerStep, hc] at hstep
    cases hstep

/-- In order, a consumer that has left its loop has read all values. -/
theorem Sync.handedOver (h : Sync data s) : HandedOver data s := by
  intro hdone
  cases h with
  | start hp hc hread =>
    rw [hdone, consumerHead] at hc
    split_ifs at hc with hpos
    have hnil : data = [] := List.length_eq_zero_iff.mp (by omega)
    rw [hread, hnil]
  | left hc hread hp => exact hread
  | ended hi hcell hp hc hread => exact hread
  | stored hi hp hc hread => exact absurd (hdone.symm.trans hc) (by simp)
  | loaded hi hp hc hread => exact absurd (hdone.symm.trans hc) (by simp)
  | signalled hi hcell hp hc hread => exact absurd (hdone.symm.trans hc) (by simp)
  | seen hi hcell hp hc hread => exact absurd (hdone.symm.trans hc) (by simp)
  | following hi hp hc hread => exact absurd (hdone.symm.trans hc) (by simp)

end Step

/-! ### Runs -/

/-- **Handing over in order.** In every run in which the consumer does not load before the first
store of the producer, a consumer that has left its loop has read the values of the producer,
whatever the cell held at first. -/
theorem handedOver_of_run_started {data : List ℤ} (hdata : signal ∉ data) {v : ℤ} {s : State}
    (hrun : Run (ofFunction (next data)) Started (start data v) s) : HandedOver data s := by
  have hsync : Sync data s := by
    refine hrun.invariant (p := Sync data) (.start rfl rfl rfl) fun {s p s'} h hcond hstep => ?_
    cases p with
    | producer => exact h.producerStep hdata hstep
    | consumer => exact h.consumerStep hdata (hcond rfl) hstep
  exact hsync.handedOver

/-- Three values, two of them equal, in a cell that holds 0 at first; the consumer also waits in
vain for the third signal to go. -/
theorem handedOver_of_run_started_three :
    HandedOver [20, 20, 7] ⟨endsignal, .done, .done, [20, 20, 7]⟩ := by
  have hsched : schedule (next [20, 20, 7]) Started (start [20, 20, 7] 0)
      [.producer, .producer, .consumer, .consumer, .producer, .producer, .consumer, .producer,
        .consumer, .consumer, .producer, .producer, .consumer, .consumer, .producer, .consumer,
        .consumer, .producer, .producer, .consumer] =
        some ⟨endsignal, .done, .done, [20, 20, 7]⟩ := by decide
  exact handedOver_of_run_started (by decide) (Run.refl.of_schedule hsched)

/-- **The consumer can miss a value.** When it loads first, it takes what the cell held for the
first value. -/
theorem not_forall_handedOver :
    ¬∀ (data : List ℤ) (v : ℤ) (s : State), signal ∉ data → endsignal ∉ data →
      Run (ofFunction (next data)) free (start data v) s → HandedOver data s := by
  intro hall
  have hsched : schedule (next [20]) free (start [20] 0)
      [.consumer, .consumer, .producer, .consumer] = some ⟨20, .print 0, .done, [0]⟩ := by decide
  have hrun := Run.refl.of_schedule hsched
  exact absurd (hall [20] 0 _ (by decide) (by decide) hrun rfl) (by decide)

end TikFachpraktika.Pageshm
