import TikFachpraktika.Barbershop.Program
import Mathlib.Algebra.BigOperators.Intervals

/-!
# Counting relations of the barbershop

The semaphore values of a reachable shop, in terms of the numbers of barbers and customers at each
position of their programs. Every relation is the state equation of the thread system for one
choice of weights, one where a round of `barber_main` has total gain zero.

## Main definitions

* `barbersAt`, `customersAt`: the number of barbers and customers in front of an operation.
* `Balanced`: the counting relations between semaphore values and positions.

## Main results

* `shop_stateEquation`: the state equation of the shop, counted by position.
* `ShopReachable.balanced`: every reachable shop satisfies the counting relations.
-/

namespace TikFachpraktika.Barbershop

open Semaphore Finset Sem

variable {barbersNum customersNum customersShopMax : ℕ}
  {c : Config (Thread barbersNum customersNum) Sem}

/-- The number of barbers in front of operation `k` of `barber_main`. -/
def barbersAt (c : Config (Thread barbersNum customersNum) Sem) (k : ℕ) : ℕ :=
  count (barberPc c) k

/-- The number of customers in front of operation `k` of `customer_main`; `k = 9` is its end. -/
def customersAt (c : Config (Thread barbersNum customersNum) Sem) (k : ℕ) : ℕ :=
  count (customerPc c) k

/-- The counting relations of a shop. -/
structure Balanced (customersShopMax : ℕ) (c : Config (Thread barbersNum customersNum) Sem) :
    Prop where
  inShop : c.value customersInShop + ∑ k ∈ Ico 1 9, customersAt c k = customersShopMax
  onSofa : c.value customersOnSofa + ∑ k ∈ Ico 2 5, customersAt c k = 4
  cashdesk : c.value cashdesk + ∑ k ∈ Ico 4 7, barbersAt c k = 1
  ready : c.value cutBarberReady + c.value cutCustomerReady = barbersAt c 1 + customersAt c 3
  cut : c.value cutCustomerReady + c.value cutDone + barbersAt c 2 =
    ∑ k ∈ Ico 3 6, customersAt c k
  pay : c.value payCustomerReady + c.value payBarberReady = barbersAt c 5 + customersAt c 7
  done : c.value cutDone + c.value payCustomerReady + customersAt c 6 =
    ∑ k ∈ Ico 3 6, barbersAt c k
  barbers : ∑ k ∈ range 7, barbersAt c k = barbersNum
  customers : ∑ k ∈ range 10, customersAt c k = customersNum

theorem ShopReachable.barberPc_lt (h : ShopReachable customersShopMax c) (b : Fin barbersNum) :
    barberPc c b < 7 :=
  Reachable.pc_lt_of_loops h (fun _ => rfl) (i := .inl b) rfl (by simp [program, barberMain])

theorem ShopReachable.customerPc_lt (h : ShopReachable customersShopMax c)
    (k : Fin customersNum) : customerPc c k < 10 :=
  Nat.lt_succ_of_le (Reachable.pc_le h (fun _ => rfl) (.inr k))

/-- **State equation of the shop.** For weights under which one round of `barber_main` gains
nothing, the weighted semaphore values are the initial ones plus the gains of all threads. -/
theorem shop_stateEquation (h : ShopReachable customersShopMax c) {w : Sem → ℤ}
    (hw : barberMain.gain w 7 = 0) :
    ∑ s, w s * (c.value s : ℤ) =
      ∑ s, w s * ((shopCreate barbersNum customersNum customersShopMax).value s : ℤ) +
        (∑ k ∈ range 7, barberMain.gain w k * barbersAt c k +
          ∑ k ∈ range 10, customerMain.gain w k * customersAt c k) := by
  have hbal : ∀ i : Thread barbersNum customersNum, (program i).Balanced w
    | .inl _ => fun _ => hw
    | .inr _ => fun hloops => by simp [program, customerMain] at hloops
  rw [Config.stateEquation hbal (fun _ => rfl) h, Fintype.sum_sum_type]
  congr 1
  exact congrArg₂ (· + ·) (sum_comp_eq_sum_count h.barberPc_lt (barberMain.gain w))
    (sum_comp_eq_sum_count h.customerPc_lt (customerMain.gain w))

private theorem sum_sem (f : Sem → ℤ) :
    ∑ s, f s = f customersInShop + f customersOnSofa + f cashdesk + f cutCustomerReady +
      f cutBarberReady + f cutDone + f payCustomerReady + f payBarberReady := by
  simp only [univ, Fintype.elems]
  repeat rw [sum_insert (by decide)]
  rw [sum_singleton]
  ring

/-- The number of threads is the sum of the numbers of threads at each position. -/
private theorem sum_count_eq_card {κ : Type*} [Fintype κ] {pc : κ → ℕ} {n : ℕ}
    (hpc : ∀ i, pc i < n) : ∑ k ∈ range n, count pc k = Fintype.card κ := by
  have h := card_filter_mem_eq_sum_count pc (range n)
  rw [← h, filter_true_of_mem fun i _ => mem_range.mpr (hpc i), card_univ]

/-- **Counting relations.** Every reachable shop satisfies them. -/
theorem ShopReachable.balanced (h : ShopReachable customersShopMax c) :
    Balanced customersShopMax c := by
  have heq := fun w hw => shop_stateEquation h (w := w) hw
  simp only [sum_sem, sum_range_succ, range_zero, sum_empty, shopCreate, Code.gain, barberMain,
    customerMain, List.take_succ_cons, List.take_zero, List.map_cons, List.map_nil,
    List.sum_cons, List.sum_nil, Op.gain] at heq
  -- one weight vector for each relation; a round of `barber_main` leaves each of them balanced
  have hshop := heq (Pi.single customersInShop 1) (by decide)
  have hsofa := heq (Pi.single customersOnSofa 1) (by decide)
  have hcash := heq (Pi.single Sem.cashdesk 1) (by decide)
  have hready := heq (Pi.single cutBarberReady 1 + Pi.single cutCustomerReady 1) (by decide)
  have hcut := heq (Pi.single cutCustomerReady 1 + Pi.single cutDone 1) (by decide)
  have hpay := heq (Pi.single payCustomerReady 1 + Pi.single payBarberReady 1) (by decide)
  have hdone := heq (Pi.single cutDone 1 + Pi.single payCustomerReady 1) (by decide)
  clear heq
  simp at hshop hsofa hcash hready hcut hpay hdone
  constructor
  case barbers => exact (sum_count_eq_card h.barberPc_lt).trans (Fintype.card_fin _)
  case customers => exact (sum_count_eq_card h.customerPc_lt).trans (Fintype.card_fin _)
  case ready | pay => omega
  all_goals
    simp only [sum_Ico_eq_sum_range, sum_range_succ, range_zero, sum_empty, Nat.reduceAdd]
    omega

end TikFachpraktika.Barbershop
