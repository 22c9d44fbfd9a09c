import TikFachpraktika.Barbershop.Balance
import TikFachpraktika.Semaphore.Trace
import Mathlib.Tactic.IntervalCases

/-!
# Capacities and deadlock freedom of the barbershop

Two consequences of the counting relations. The capacities of the shop, the sofa and the cash desk
are guarded by a semaphore each; the chairs are not, and their bound `inChair_card_le` needs the
relations of `ready`, `cut` and `done` together. A shop in which no thread can advance has no
customer at a position between its first and its last operation, so all of its customers are
either gone or kept out by a full shop, and a full shop has customers inside.

## Main results

* `shop_capacities`: at most `customers_shop_max` customers in the shop, four on the sofa, one
  barber at the cash desk and one customer for each barber in a chair.
* `shop_deadlockFree`: a shop some of whose customers have not left can advance.
-/

namespace TikFachpraktika.Barbershop

open Semaphore Finset Sem Transition

variable {barbersNum customersNum customersShopMax : ℕ}
  {c : Config (Thread barbersNum customersNum) Sem}

/-! ### Capacities -/

theorem inShop_card (c : Config (Thread barbersNum customersNum) Sem) :
    #(inShop c) = ∑ k ∈ Ico 1 9, customersAt c k :=
  card_filter_mem_eq_sum_count _ _

theorem onSofa_card (c : Config (Thread barbersNum customersNum) Sem) :
    #(onSofa c) = ∑ k ∈ Ico 2 5, customersAt c k :=
  card_filter_mem_eq_sum_count _ _

theorem inChair_card (c : Config (Thread barbersNum customersNum) Sem) :
    #(inChair c) = ∑ k ∈ Ico 4 6, customersAt c k :=
  card_filter_mem_eq_sum_count _ _

theorem atCashdesk_card (c : Config (Thread barbersNum customersNum) Sem) :
    #(atCashdesk c) = ∑ k ∈ Ico 4 7, barbersAt c k :=
  card_filter_mem_eq_sum_count _ _

/-- A customer leaves `cut_barber_ready` only after a barber posted it, and that barber posts it
again only after some customer paid, which is after a `cut_done` was taken. -/
theorem inChair_card_le (h : Balanced customersShopMax c) : #(inChair c) ≤ barbersNum := by
  obtain ⟨-, -, -, hready, hcut, -, hdone, hbarbers, -⟩ := h
  rw [inChair_card]
  simp only [sum_Ico_eq_sum_range, sum_range_succ, range_zero, sum_empty, Nat.reduceAdd]
    at hcut hdone hbarbers ⊢
  omega

/-- **Capacities.** In every reachable shop at most `customers_shop_max` customers are inside, at
most four are on the sofa, at most one barber is at the cash desk and at most as many customers
as there are barbers are in a chair. -/
theorem shop_capacities (h : ShopReachable customersShopMax c) :
    #(inShop c) ≤ customersShopMax ∧ #(onSofa c) ≤ 4 ∧ #(atCashdesk c) ≤ 1 ∧
      #(inChair c) ≤ barbersNum := by
  have hbal := h.balanced
  refine ⟨?_, ?_, ?_, inChair_card_le hbal⟩
  · rw [inShop_card, ← hbal.inShop]
    exact Nat.le_add_left _ _
  · rw [onSofa_card, ← hbal.onSofa]
    exact Nat.le_add_left _ _
  · rw [atCashdesk_card, ← hbal.cashdesk]
    exact Nat.le_add_left _ _

/-- A full shop: one of its two barbers takes the payment of the first customer and the other cuts
the hair of the second, four customers wait on the sofa, and the last one does not get in. -/
theorem exists_full : ∃ c : Config (Thread 2 7) Sem, ShopReachable 6 c ∧
    #(inShop c) = 6 ∧ #(onSofa c) = 4 ∧ #(atCashdesk c) = 1 ∧ #(inChair c) = 1 := by
  let barber (b : Fin 2) (n : ℕ) : List (Thread 2 7) := List.replicate n (.inl b)
  let customer (k : Fin 7) (n : ℕ) : List (Thread 2 7) := List.replicate n (.inr k)
  have hsched : (schedule (traceStep program) free ([], shopCreate 2 7 6)
      (barber 0 1 ++ customer 0 5 ++ barber 0 3 ++ customer 0 2 ++ barber 1 1 ++ customer 1 5 ++
        barber 1 1 ++ customer 2 3 ++ customer 3 3 ++ customer 4 3 ++ customer 5 3 ++
        customer 6 1)).map
      (fun x => (#(inShop x.2), #(onSofa x.2), #(atCashdesk x.2), #(inChair x.2))) =
      some (6, 4, 1, 1) := by
    decide +kernel
  obtain ⟨⟨tr, c⟩, hx, hcounts⟩ := Option.map_eq_some_iff.mp hsched
  obtain ⟨hshop, hsofa, hcash, hchair⟩ := by simpa only [Prod.mk.injEq] using hcounts
  have htraced : Traced program (shopCreate 2 7 6) tr c := Run.refl.of_schedule hx
  exact ⟨c, htraced.reachable, hshop, hsofa, hcash, hchair⟩

/-- The bounds in a full shop. -/
theorem shop_capacities_full : ∃ c : Config (Thread 2 7) Sem,
    (#(inShop c) = 6 ∧ #(onSofa c) = 4 ∧ #(atCashdesk c) = 1 ∧ #(inChair c) = 1) ∧
      #(inShop c) ≤ 6 ∧ #(onSofa c) ≤ 4 ∧ #(atCashdesk c) ≤ 1 ∧ #(inChair c) ≤ 2 := by
  obtain ⟨c, hc, hcounts⟩ := exists_full
  exact ⟨c, hcounts, shop_capacities hc⟩

/-! ### Deadlock freedom -/

/-- No thread of the shop can perform its next operation. -/
def Blocked (c : Config (Thread barbersNum customersNum) Sem) : Prop :=
  ∀ i c', ¬ Advances program i c c'

theorem Blocked.barbersAt_eq_zero (h : Blocked c) (k : ℕ) (op : Op Sem)
    (hop : barberMain.body[k]? = some op) (hen : op.Enabled c.value) : barbersAt c k = 0 := by
  by_contra hne
  obtain ⟨b, hb⟩ := count_pos.mp (Nat.pos_of_ne_zero hne)
  have hb' :
      (program (.inl b : Thread barbersNum customersNum)).body[c.pc (.inl b)]? = some op := by
    rw [← hop, ← hb]
    rfl
  obtain ⟨c', hadv⟩ := advances_of_enabled hb' hen
  exact h _ c' hadv

theorem Blocked.customersAt_eq_zero (h : Blocked c) (k : ℕ) (op : Op Sem)
    (hop : customerMain.body[k]? = some op) (hen : op.Enabled c.value) : customersAt c k = 0 := by
  by_contra hne
  obtain ⟨j, hj⟩ := count_pos.mp (Nat.pos_of_ne_zero hne)
  have hj' :
      (program (.inr j : Thread barbersNum customersNum)).body[c.pc (.inr j)]? = some op := by
    rw [← hop, ← hj]
    rfl
  obtain ⟨c', hadv⟩ := advances_of_enabled hj' hen
  exact h _ c' hadv

/-- In a blocked shop with a barber, every customer is in front of the shop or has left. -/
theorem Blocked.customersAt_eq_zero_of_balanced (h : Blocked c)
    (hbal : Balanced customersShopMax c) (hbarbers : 1 ≤ barbersNum) {k : ℕ}
    (hk : k ∈ Ico 1 9) : customersAt c k = 0 := by
  -- a thread in front of a post is never blocked
  have hb0 := h.barbersAt_eq_zero 0 _ rfl trivial
  have hb2 := h.barbersAt_eq_zero 2 _ rfl trivial
  have hb4 := h.barbersAt_eq_zero 4 _ rfl trivial
  have hb6 := h.barbersAt_eq_zero 6 _ rfl trivial
  have hc2 := h.customersAt_eq_zero 2 _ rfl trivial
  have hc4 := h.customersAt_eq_zero 4 _ rfl trivial
  have hc6 := h.customersAt_eq_zero 6 _ rfl trivial
  have hc8 := h.customersAt_eq_zero 8 _ rfl trivial
  obtain ⟨-, hsofa, hcash, hready, hcut, hpay, hdone, hbarb, -⟩ := hbal
  simp only [sum_Ico_eq_sum_range, sum_range_succ, range_zero, sum_empty, Nat.reduceAdd]
    at hsofa hcash hcut hdone hbarb
  -- a thread in front of a wait is blocked only while the semaphore is zero; from the last
  -- position back to the first, a waiting customer would be owed its post
  have hb5 : 0 < c.value payCustomerReady → barbersAt c 5 = 0 :=
    h.barbersAt_eq_zero 5 (.wait payCustomerReady) rfl
  have h7 : customersAt c 7 = 0 := by
    have hb3 : 0 < c.value cashdesk → barbersAt c 3 = 0 :=
      h.barbersAt_eq_zero 3 (.wait cashdesk) rfl
    have hc7 : 0 < c.value payBarberReady → customersAt c 7 = 0 :=
      h.customersAt_eq_zero 7 (.wait payBarberReady) rfl
    omega
  have hb1 : 0 < c.value cutCustomerReady → barbersAt c 1 = 0 :=
    h.barbersAt_eq_zero 1 (.wait cutCustomerReady) rfl
  have h5 : customersAt c 5 = 0 := by
    have hc5 : 0 < c.value cutDone → customersAt c 5 = 0 :=
      h.customersAt_eq_zero 5 (.wait cutDone) rfl
    omega
  have h3 : customersAt c 3 = 0 := by
    have hc3 : 0 < c.value cutBarberReady → customersAt c 3 = 0 :=
      h.customersAt_eq_zero 3 (.wait cutBarberReady) rfl
    omega
  have h1 : customersAt c 1 = 0 := by
    have hc1 : 0 < c.value customersOnSofa → customersAt c 1 = 0 :=
      h.customersAt_eq_zero 1 (.wait customersOnSofa) rfl
    omega
  obtain ⟨hlo, hhi⟩ := mem_Ico.mp hk
  interval_cases k <;> assumption

/-- **Deadlock freedom.** With at least one barber and room for at least one customer, in every
reachable shop some of whose customers have not left, a barber or a customer has an enabled
step other than a failing `sem_trywait`. -/
theorem shop_deadlockFree (hbarbers : 1 ≤ barbersNum) (hmax : 1 ≤ customersShopMax)
    (h : ShopReachable customersShopMax c) (hleft : ∃ k, ¬ HasLeft c k) :
    ∃ i c', Advances program i c c' := by
  by_contra hnone
  have hblocked : Blocked c := fun i c' hadv => hnone ⟨i, c', hadv⟩
  have hzero : ∀ k ∈ Ico 1 9, customersAt c k = 0 := fun k hk =>
    hblocked.customersAt_eq_zero_of_balanced h.balanced hbarbers hk
  have hvalue : 0 < c.value customersInShop := by
    have hshop := h.balanced.inShop
    rw [sum_eq_zero hzero] at hshop
    omega
  have hfront : customersAt c 0 = 0 :=
    hblocked.customersAt_eq_zero 0 (.tryWait customersInShop) rfl hvalue
  obtain ⟨j, hj⟩ := hleft
  have hpos : 0 < customersAt c (customerPc c j) := count_pos.mpr ⟨j, rfl⟩
  have hlt := h.customerPc_lt j
  rcases Nat.eq_zero_or_pos (customerPc c j) with h0 | h0
  · rw [h0] at hpos
    omega
  · have hj9 : customerPc c j ≠ 9 := hj
    have := hzero (customerPc c j) (mem_Ico.mpr ⟨h0, by omega⟩)
    omega

/-- A full shop can advance. -/
theorem shop_deadlockFree_full : ∃ c : Config (Thread 2 7) Sem,
    #(inShop c) = 6 ∧ ∃ i c', Advances program i c c' := by
  obtain ⟨c, hc, hshop, -⟩ := exists_full
  obtain ⟨k, hk⟩ : (inShop c).Nonempty := card_pos.mp (by omega)
  have hpc := (mem_Ico.mp (mem_filter.mp hk).2).2
  exact ⟨c, hshop, shop_deadlockFree (by decide) (by decide) hc ⟨k, hpc.ne⟩⟩

end TikFachpraktika.Barbershop
