import TikFachpraktika.Barbershop.Balance
import TikFachpraktika.Semaphore.Trace

/-!
# The shop after its last customer

`shop_cleanup` waits for all customers and then kills the barbers. Customers and barbers never talk
to a particular partner, but when the last customer has left, the counting relations leave no
thread in front of an unfinished hand-over: each customer has been told that his cut is done, each
has been let pay, and at most one barber is still at the cash desk.

## Main results

* `ShopTraced.posts_eq`: the posts of `cut_done` and `pay_barber_ready` in a run.
* `shop_closing`: the balance of a shop all of whose customers have left.
-/

namespace TikFachpraktika.Barbershop

open Semaphore Finset Sem Transition

variable {barbersNum customersNum customersShopMax : ℕ}
  {c : Config (Thread barbersNum customersNum) Sem}
  {tr : List (Thread barbersNum customersNum × Op Sem)}

/-- The operations `tr` lead from the opening of the shop to `c`. -/
def ShopTraced (customersShopMax : ℕ) (tr : List (Thread barbersNum customersNum × Op Sem))
    (c : Config (Thread barbersNum customersNum) Sem) : Prop :=
  Traced program (shopCreate barbersNum customersNum customersShopMax) tr c

theorem ShopTraced.reachable (h : ShopTraced customersShopMax tr c) :
    ShopReachable customersShopMax c :=
  Traced.reachable h

/-- A semaphore for which only customers wait, once each, has been waited for as often as there are
customers past this wait. -/
theorem ShopTraced.waits_eq (h : ShopTraced customersShopMax tr c) {s : Sem}
    (hbarber : ∀ op ∈ barberMain.body, op.isWait s = false) :
    (waits s tr : ℤ) =
      ∑ k, customerMain.total (fun op => if op.isWait s then 1 else 0) (customerPc c k) := by
  have hloops : ∀ i : Thread barbersNum customersNum, (program i).loops →
      ∀ op ∈ (program i).body, op.isWait s = false
    | .inl _ => fun _ => hbarber
    | .inr _ => fun hi => by simp [program, customerMain] at hi
  have hbarbers : ∑ b : Fin barbersNum,
      barberMain.total (fun op => if op.isWait s then 1 else 0) (barberPc c b) = 0 :=
    sum_eq_zero fun b _ => Code.total_eq_zero (fun op hop => by simp [hbarber op hop]) _
  rw [Traced.waits_eq h (fun _ => rfl) hloops, Fintype.sum_sum_type]
  exact (congrArg (· + _) hbarbers).trans (zero_add _)

/-- When all customers have left, a semaphore for which each of them has waited once has been
posted as often as there are customers, and what is left in it. -/
theorem ShopTraced.posts_eq (h : ShopTraced customersShopMax tr c) (hleft : ∀ k, HasLeft c k)
    {s : Sem} (hbarber : ∀ op ∈ barberMain.body, op.isWait s = false)
    (hcustomer : customerMain.total (fun op => if op.isWait s then 1 else 0) 9 = 1)
    (hinit : (shopCreate barbersNum customersNum customersShopMax).value s = 0) :
    posts s tr = customersNum + c.value s := by
  have hwaits : (waits s tr : ℤ) = customersNum := by
    rw [h.waits_eq hbarber, sum_congr rfl fun k _ => by rw [hleft k, hcustomer]]
    simp
  have hvalue := Traced.value_add_waits h s
  rw [hinit] at hvalue
  omega

/-- Nobody is in front of an operation of `customer_main` once all customers have left. -/
theorem customersAt_eq_zero_of_hasLeft (hleft : ∀ k, HasLeft c k) {k : ℕ} (hk : k ≠ 9) :
    customersAt c k = 0 := by
  by_contra hne
  obtain ⟨j, hj⟩ := count_pos.mp (Nat.pos_of_ne_zero hne)
  exact hk (hj.symm.trans (hleft j))

/-- **Closing balance.** When all customers have left, `cut_done` and `pay_barber_ready` have been
posted once for each of them and are used up like `cut_customer_ready`, no barber is between taking
a customer and entering the cash desk, at most one is at the cash desk, and the shop and the sofa
have all of their places again. -/
theorem shop_closing (h : ShopTraced customersShopMax tr c) (hleft : ∀ k, HasLeft c k) :
    posts cutDone tr = customersNum ∧ posts payBarberReady tr = customersNum ∧
      c.value cutCustomerReady = 0 ∧ c.value cutDone = 0 ∧ c.value payBarberReady = 0 ∧
      (∀ b, barberPc c b ≠ 2 ∧ barberPc c b ≠ 3) ∧ #(atCashdesk c) ≤ 1 ∧
      c.value customersInShop = customersShopMax ∧ c.value customersOnSofa = 4 := by
  have hzero := fun k (hk : k ≠ 9) => customersAt_eq_zero_of_hasLeft hleft hk
  obtain ⟨hshop, hsofa, hcash, -, hcut, hpay, hdone, -, -⟩ := h.reachable.balanced
  rw [sum_eq_zero fun k hk => hzero k (by rw [mem_Ico] at hk; omega)] at hshop hsofa hcut
  have h6 := hzero 6 (by decide)
  have h7 := hzero 7 (by decide)
  simp only [sum_Ico_eq_sum_range, sum_range_succ, range_zero, sum_empty, Nat.reduceAdd]
    at hcash hdone
  -- the payments that are left are those of barbers in front of their last wait
  have hcutDone : c.value cutDone = 0 := by omega
  have hbarberReady : c.value payBarberReady = 0 := by omega
  have hbarbers : barbersAt c 2 = 0 ∧ barbersAt c 3 = 0 := by omega
  have hnone : ∀ b k, barbersAt c k = 0 → barberPc c b ≠ k := fun b k hk hb =>
    (count_pos.mpr ⟨b, hb⟩).ne' hk
  have hposts := fun (s : Sem) => h.posts_eq hleft (s := s)
  refine ⟨?_, ?_, by omega, hcutDone, hbarberReady,
    fun b => ⟨hnone b 2 hbarbers.1, hnone b 3 hbarbers.2⟩, ?_, hshop, hsofa⟩
  · rw [hposts cutDone (by decide) (by decide) rfl, hcutDone, Nat.add_zero]
  · rw [hposts payBarberReady (by decide) (by decide) rfl, hbarberReady, Nat.add_zero]
  · rw [atCashdesk, card_filter_mem_eq_sum_count]
    exact h.reachable.balanced.cashdesk ▸ Nat.le_add_left _ _

/-- A shop with one barber after its one customer. -/
theorem shop_closing_single : ∃ (c : Config (Thread 1 1) Sem) (tr : List (Thread 1 1 × Op Sem)),
    HasLeft c 0 ∧ posts cutDone tr = 1 ∧ posts payBarberReady tr = 1 := by
  let barber : Thread 1 1 := .inl 0
  let customer : Thread 1 1 := .inr 0
  have hsched : (schedule (traceStep program) free ([], shopCreate 1 1 1)
      [barber, customer, customer, customer, customer, customer, barber, barber, customer, customer,
        barber, barber, customer, customer]).map (fun x => x.2.pc (.inr 0)) = some 9 := by
    decide +kernel
  obtain ⟨⟨tr, c⟩, hx, hpc⟩ := Option.map_eq_some_iff.mp hsched
  have htraced : ShopTraced 1 tr c := Run.refl.of_schedule hx
  have hclosing := shop_closing htraced fun k => by
    rw [Subsingleton.elim k 0]
    exact hpc
  exact ⟨c, tr, hpc, hclosing.1, hclosing.2.1⟩

end TikFachpraktika.Barbershop
