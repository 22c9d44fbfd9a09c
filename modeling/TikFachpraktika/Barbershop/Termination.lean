import TikFachpraktika.Barbershop.Closing
import TikFachpraktika.Barbershop.DeadlockFreedom

/-!
# The end of the day in the barbershop

The barbers loop for ever, but they take a customer in each round, and each customer asks to be
taken once. So a run of the shop is finite besides failing `sem_trywait`s, whatever the
interleaving: it has at most nine operations for each customer, seven for the round of the barber
who takes it, and the first post of each barber. A shop that can not go on has had all of them.

## Main results

* `ShopTraced.length_eq`: the length of a run, from the positions of the threads.
* `Blocked.closed`: a shop that can not go on is empty.
* `shop_terminates`: every run can be continued to the end, and all these runs are as long.
-/

namespace TikFachpraktika.Barbershop

open Semaphore Finset Sem Transition

variable {barbersNum customersNum customersShopMax : ℕ}
  {c : Config (Thread barbersNum customersNum) Sem}
  {tr : List (Thread barbersNum customersNum × Op Sem)}

/-- All customers have left, and all barbers wait for the next one. -/
def Closed (c : Config (Thread barbersNum customersNum) Sem) : Prop :=
  (∀ k, HasLeft c k) ∧ ∀ b, barberPc c b = 1

/-! ### The length of a run -/

/-- What a barber has performed besides the rounds in which it has taken a customer. -/
def barberRest (pc : ℕ) : ℤ :=
  barberMain.total (fun op => 1 - 7 * if op.isWait cutCustomerReady then 1 else 0) pc

/-- What a customer has performed, with a round of a barber when it has asked for one. -/
def customerWork (pc : ℕ) : ℤ :=
  customerMain.total (fun op => 1 - 7 * if op.isWait cutCustomerReady then 1 else 0) pc +
    7 * customerMain.total (fun op => if op.isPost cutCustomerReady then 1 else 0) pc

theorem barberRest_le : ∀ pc < 7, barberRest pc ≤ 1 ∧ (barberRest pc = 1 ↔ pc = 1) := by
  decide

theorem customerWork_le : ∀ pc < 10, customerWork pc ≤ 16 ∧ (customerWork pc = 16 ↔ pc = 9) := by
  decide

/-- The requests of the customers for a barber. -/
theorem ShopTraced.posts_cutCustomerReady (h : ShopTraced customersShopMax tr c) :
    (posts cutCustomerReady tr : ℤ) = ∑ k,
      customerMain.total (fun op => if op.isPost cutCustomerReady then 1 else 0)
        (customerPc c k) := by
  have hbarber : ∀ op ∈ barberMain.body, op.isPost cutCustomerReady = false := by decide
  have hloops : ∀ i : Thread barbersNum customersNum, (program i).loops →
      ∀ op ∈ (program i).body, op.isPost cutCustomerReady = false
    | .inl _ => fun _ => hbarber
    | .inr _ => fun hi => by simp [program, customerMain] at hi
  have hbarbers : ∑ b : Fin barbersNum, barberMain.total
      (fun op => if op.isPost cutCustomerReady then 1 else 0) (barberPc c b) = 0 :=
    sum_eq_zero fun b _ => Code.total_eq_zero (fun op hop => by simp [hbarber op hop]) _
  rw [Traced.posts_eq h (fun _ => rfl) hloops, Fintype.sum_sum_type]
  exact (congrArg (· + _) hbarbers).trans (zero_add _)

/-- **The length of a run**, from the positions of the threads and the requests that no barber has
taken yet. -/
theorem ShopTraced.length_eq (h : ShopTraced customersShopMax tr c) :
    (tr.length : ℤ) + 7 * c.value cutCustomerReady =
      ∑ k, customerWork (customerPc c k) + ∑ b, barberRest (barberPc c b) := by
  have hround : barberMain.total (fun op => 1 - 7 * if op.isWait cutCustomerReady then 1 else 0)
      barberMain.body.length = 0 := by decide
  have hloops : ∀ i : Thread barbersNum customersNum, (program i).loops →
      (program i).total (fun op => 1 - 7 * if op.isWait cutCustomerReady then 1 else 0)
        (program i).body.length = 0
    | .inl _ => fun _ => hround
    | .inr _ => fun hi => by simp [program, customerMain] at hi
  have hlen := Traced.length_eq h (fun _ => rfl) cutCustomerReady 7 hloops
  have hvalue := Traced.value_add_waits h cutCustomerReady
  have hinit : (shopCreate barbersNum customersNum customersShopMax).value cutCustomerReady = 0 :=
    rfl
  have hposts := h.posts_cutCustomerReady
  rw [Fintype.sum_sum_type] at hlen
  rw [hinit] at hvalue
  simp only [customerWork, sum_add_distrib, ← mul_sum, ← hposts]
  simp only [barberRest, program, barberPc, customerPc] at hlen ⊢
  omega

/-- **A run is finite**, and it has its full length when the shop is closed. -/
theorem ShopTraced.length_le (h : ShopTraced customersShopMax tr c) :
    tr.length ≤ 16 * customersNum + barbersNum ∧
      (tr.length = 16 * customersNum + barbersNum → Closed c) := by
  have hcustomer : ∀ k ∈ univ, customerWork (customerPc c k) ≤ 16 := fun k _ =>
    (customerWork_le _ (h.reachable.customerPc_lt k)).1
  have hbarber : ∀ b ∈ univ, barberRest (barberPc c b) ≤ 1 := fun b _ =>
    (barberRest_le _ (h.reachable.barberPc_lt b)).1
  have hcustomers := sum_le_sum hcustomer
  have hbarbers := sum_le_sum hbarber
  have hlen := h.length_eq
  simp only [sum_const, card_univ, Fintype.card_fin, nsmul_eq_mul, mul_one] at hcustomers hbarbers
  refine ⟨by omega, fun heq => ⟨fun k => ?_, fun b => ?_⟩⟩
  · have hall := (sum_eq_sum_iff_of_le hcustomer).mp (by
      simp only [sum_const, card_univ, Fintype.card_fin, nsmul_eq_mul]
      omega)
    exact (customerWork_le _ (h.reachable.customerPc_lt k)).2.mp (hall k (mem_univ k))
  · have hall := (sum_eq_sum_iff_of_le hbarber).mp (by
      simp only [sum_const, card_univ, Fintype.card_fin, nsmul_eq_mul, mul_one]
      omega)
    exact (barberRest_le _ (h.reachable.barberPc_lt b)).2.mp (hall b (mem_univ b))

/-- A closed shop has had all operations. -/
theorem ShopTraced.length_of_closed (h : ShopTraced customersShopMax tr c) (hclosed : Closed c) :
    tr.length = 16 * customersNum + barbersNum := by
  have hzero := fun k (hk : k ≠ 9) => customersAt_eq_zero_of_hasLeft hclosed.1 hk
  have hcut := h.reachable.balanced.cut
  rw [sum_eq_zero fun k hk => hzero k (by rw [mem_Ico] at hk; omega)] at hcut
  have hlen := h.length_eq
  have hcustomer : ∀ k, customerWork (customerPc c k) = 16 := fun k => by
    rw [hclosed.1 k]
    decide
  have hbarber : ∀ b, barberRest (barberPc c b) = 1 := fun b => by
    rw [hclosed.2 b]
    decide
  simp only [hcustomer, hbarber, sum_const, card_univ, Fintype.card_fin, nsmul_eq_mul,
    mul_one] at hlen
  omega

/-! ### Shops that can not go on -/

/-- In a blocked shop with a barber and a place all customers have left. -/
theorem Blocked.hasLeft (h : Blocked c) (hc : ShopReachable customersShopMax c)
    (hbarbers : 1 ≤ barbersNum) (hmax : 1 ≤ customersShopMax) (k : Fin customersNum) :
    HasLeft c k := by
  have hzero : ∀ j ∈ Ico 1 9, customersAt c j = 0 := fun j hj =>
    h.customersAt_eq_zero_of_balanced hc.balanced hbarbers hj
  have hvalue : 0 < c.value customersInShop := by
    have hshop := hc.balanced.inShop
    rw [sum_eq_zero hzero] at hshop
    omega
  have hfront : customersAt c 0 = 0 :=
    h.customersAt_eq_zero 0 (.tryWait customersInShop) rfl hvalue
  have hpos : 0 < customersAt c (customerPc c k) := count_pos.mpr ⟨k, rfl⟩
  have hlt := hc.customerPc_lt k
  by_contra hnot
  have hne : customerPc c k ≠ 9 := hnot
  rcases Nat.eq_zero_or_pos (customerPc c k) with h0 | h0
  · rw [h0] at hpos
    omega
  · have hinside := hzero (customerPc c k) (mem_Ico.mpr ⟨h0, by omega⟩)
    omega

/-- **A shop that can not go on** is closed. -/
theorem Blocked.closed (h : Blocked c) (hc : ShopReachable customersShopMax c)
    (hbarbers : 1 ≤ barbersNum) (hmax : 1 ≤ customersShopMax) : Closed c := by
  have hleft := h.hasLeft hc hbarbers hmax
  refine ⟨hleft, fun b => ?_⟩
  have hzero := fun k (hk : k ≠ 9) => customersAt_eq_zero_of_hasLeft hleft hk
  obtain ⟨-, -, -, -, hcut, hpay, hdone, -, -⟩ := hc.balanced
  rw [sum_eq_zero fun k hk => hzero k (by rw [mem_Ico] at hk; omega)] at hcut
  rw [hzero 7 (by decide)] at hpay
  rw [hzero 6 (by decide)] at hdone
  simp only [sum_Ico_eq_sum_range, sum_range_succ, range_zero, sum_empty, Nat.reduceAdd] at hdone
  have hb0 := h.barbersAt_eq_zero 0 _ rfl trivial
  have hb4 := h.barbersAt_eq_zero 4 _ rfl trivial
  have hb6 := h.barbersAt_eq_zero 6 _ rfl trivial
  have hb5 : 0 < c.value payCustomerReady → barbersAt c 5 = 0 :=
    h.barbersAt_eq_zero 5 (.wait payCustomerReady) rfl
  have hpos : 0 < barbersAt c (barberPc c b) := count_pos.mpr ⟨b, rfl⟩
  have hlt := hc.barberPc_lt b
  -- the payments that are there are those for the barbers at the cash desk, who wait for none
  generalize barberPc c b = pc at hpos hlt
  interval_cases pc <;> omega

/-- **The shop closes.** With at least one barber and room for at least one customer, a run of the
shop has at most 16 operations for each customer and one for each barber, failing `sem_trywait`s not
counted. No thread can go on if and only if all of these have been performed, and if and only if all
customers have left and all barbers wait for the next one; and every run can be continued until this
is so. -/
theorem shop_terminates (hbarbers : 1 ≤ barbersNum) (hmax : 1 ≤ customersShopMax)
    (h : ShopTraced customersShopMax tr c) :
    tr.length ≤ 16 * customersNum + barbersNum ∧
      (Blocked c ↔ tr.length = 16 * customersNum + barbersNum) ∧ (Blocked c ↔ Closed c) ∧
      ∃ tr' c', ShopTraced customersShopMax (tr' ++ tr) c' ∧ Closed c' := by
  have hfull : tr.length = 16 * customersNum + barbersNum → Blocked c := fun hlen i c' hadv => by
    obtain ⟨op, hcons⟩ := Traced.cons h hadv
    have hle := (ShopTraced.length_le hcons).1
    rw [List.length_cons] at hle
    omega
  have hclosed : Blocked c → Closed c := fun hblocked =>
    hblocked.closed h.reachable hbarbers hmax
  refine ⟨h.length_le.1, ⟨fun hblocked => h.length_of_closed (hclosed hblocked), hfull⟩,
    ⟨hclosed, fun hc => hfull (h.length_of_closed hc)⟩, ?_⟩
  obtain ⟨tr', c', htrace, hblocked⟩ :=
    Traced.exists_blocked (fun {tr c} h => (ShopTraced.length_le (c := c) h).1) h
  exact ⟨tr', c', htrace, Blocked.closed hblocked (ShopTraced.reachable htrace) hbarbers hmax⟩

/-- The shop that `main` creates. -/
theorem shop_terminates_main : ∃ tr', ∃ c' : Config (Thread 4 40) Sem,
    ShopTraced 20 (tr' ++ []) c' ∧ Closed c' :=
  (shop_terminates (by decide) (by decide) (Run.refl : ShopTraced 20 [] (shopCreate 4 40 20))).2.2.2

end TikFachpraktika.Barbershop
