import TikFachpraktika.Barbershop.Balance
import TikFachpraktika.Semaphore.Tokens

/-!
# Who cuts whose hair

The semaphores of the shop with tokens that carry the thread that posted them. A barber cuts the
hair of the customer whose `cut_customer_ready` token it has taken, but this customer need not be
the one that sits down, or that takes the `cut_done` of this barber.

## Main definitions

* `tokenShop`, `TokenShopReachable`: the shop with tokens, and its states.
* `Cutting`: the barber and the customer of a cut.
* `Paired`: no customer gets up while his barber is cutting.

## Main results

* `paired_iff`: in which shops this holds.
* `not_forall_paired`: a shop with one barber and two customers in which it fails.
-/

namespace TikFachpraktika.Barbershop

open Semaphore Transition Finset Sem

variable {barbersNum customersNum customersShopMax : ℕ}

/-- The shop after `shop_create`. Nobody has posted the tokens that it starts with. -/
def tokenShop (barbersNum customersNum customersShopMax : ℕ) :
    TokenConfig (Thread barbersNum customersNum) Sem where
  pc _ := 0
  tokens s := Multiset.replicate
    ((shopCreate barbersNum customersNum customersShopMax).value s) none
  taken _ _ := none

/-- The states that the shop with tokens reaches under any interleaving of its threads. -/
def TokenShopReachable (customersShopMax : ℕ)
    (c : TokenConfig (Thread barbersNum customersNum) Sem) : Prop :=
  TokenRun program (tokenShop barbersNum customersNum customersShopMax) c

/-- Barber `b` has taken the token of customer `k`, and has not yet posted `cut_done`. -/
def Cutting (c : TokenConfig (Thread barbersNum customersNum) Sem) (b : Fin barbersNum)
    (k : Fin customersNum) : Prop :=
  c.pc (.inl b) = 2 ∧ c.taken (.inl b) cutCustomerReady = some (.inr k)

/-- No customer is past `sem_wait(cut_done)` while the barber that has taken his token is still
cutting. -/
def Paired (c : TokenConfig (Thread barbersNum customersNum) Sem) : Prop :=
  ∀ b k, Cutting c b k → c.pc (.inr k) ≤ 5

/-! ### Shops with room for one customer -/

section Outstanding

variable {c c' : TokenConfig (Thread barbersNum customersNum) Sem}

/-- The token of customer `k` is waiting for a barber, or with one that is cutting. -/
def Outstanding (c : TokenConfig (Thread barbersNum customersNum) Sem) (k : Fin customersNum) :
    Prop :=
  some (.inr k) ∈ c.tokens cutCustomerReady ∨ ∃ b, Cutting c b k

theorem TokenShopReachable.shopReachable (h : TokenShopReachable customersShopMax c) :
    ShopReachable customersShopMax c.toConfig := by
  have hinit : (tokenShop barbersNum customersNum customersShopMax).toConfig =
      shopCreate barbersNum customersNum customersShopMax := by
    ext x
    · rfl
    · exact Multiset.card_replicate _ _
  rw [ShopReachable, ← hinit]
  exact TokenRun.reachable h

theorem barberMain_getElem? {pc : ℕ} (h : barberMain.succ pc = 2) :
    barberMain.body[pc]? = some (.wait cutCustomerReady) := by
  rw [Code.succ] at h
  split_ifs at h
  obtain rfl : pc = 1 := by omega
  rfl

theorem eq_of_post_cutCustomerReady {k : Fin customersNum}
    (hop : (program (.inr k : Thread barbersNum customersNum)).body[c.pc (.inr k)]? =
      some (.post cutCustomerReady)) : c.pc (.inr k) = 2 := by
  have hlt := (List.getElem?_eq_some_iff.mp hop).1
  have hbody : ∀ pc < 9, customerMain.body[pc]? = some (.post cutCustomerReady) → pc = 2 := by
    decide
  exact hbody _ hlt hop

/-- A barber that begins to cut takes a token that was waiting. -/
theorem outstanding_of_take {i : Thread barbersNum customersNum} {op : Op Sem} {s : Sem}
    {t : Option (Thread barbersNum customersNum)} {k : Fin customersNum}
    (hop : (program i).body[c.pc i]? = some op) (hs : op = .wait s ∨ op = .tryWait s)
    (ht : t ∈ c.tokens s) (h : Outstanding (c.take program i s t) k) : Outstanding c k := by
  obtain htoken | ⟨b, hpc, htaken⟩ := h
  · exact .inl (TokenConfig.mem_tokens_of_take _ _ _ _ htoken)
  by_cases hi : i = .inl b
  · subst hi
    rw [TokenConfig.take_pc, Function.update_self] at hpc
    cases hop.symm.trans (barberMain_getElem? hpc)
    obtain rfl : cutCustomerReady = s := by simpa using hs
    rw [TokenConfig.take_taken_self] at htaken
    exact .inl (htaken ▸ ht)
  · rw [TokenConfig.take_pc, Function.update_of_ne (Ne.symm hi)] at hpc
    rw [TokenConfig.take_taken_of_ne _ _ _ _ (Ne.symm hi)] at htaken
    exact .inr ⟨b, hpc, htaken⟩

/-- **Only its customer makes a token outstanding**, by posting it. -/
theorem outstanding_of_step {i : Thread barbersNum customersNum} {k : Fin customersNum}
    (hstep : TokenStep program c i c') (h : Outstanding c' k) :
    Outstanding c k ∨ (i = .inr k ∧ c.pc (.inr k) = 2 ∧ c'.pc (.inr k) = 3) := by
  cases hstep with
  | @post s hop =>
    obtain htoken | ⟨b, hpc, htaken⟩ := h
    · obtain ⟨rfl, hi⟩ | hold := (TokenConfig.mem_tokens_post ..).mp htoken
      · cases Option.some_inj.mp hi
        have htwo := eq_of_post_cutCustomerReady hop
        refine .inr ⟨rfl, htwo, ?_⟩
        rw [TokenConfig.post_pc, Function.update_self, htwo]
        rfl
      · exact .inl (.inl hold)
    · by_cases hi : i = .inl b
      · subst hi
        rw [TokenConfig.post_pc, Function.update_self] at hpc
        cases hop.symm.trans (barberMain_getElem? hpc)
      · rw [TokenConfig.post_pc, Function.update_of_ne (Ne.symm hi)] at hpc
        exact .inl (.inr ⟨b, hpc, htaken⟩)
  | wait hop ht => exact .inl (outstanding_of_take hop (.inl rfl) ht h)
  | tryWait hop ht => exact .inl (outstanding_of_take hop (.inr rfl) ht h)
  | retry hop hempty => exact .inl h

/-- An outstanding token is one of the tokens and the cuts that the counting relations count. -/
theorem Outstanding.pos {k : Fin customersNum} (h : Outstanding c k) :
    0 < c.toConfig.value cutCustomerReady + barbersAt c.toConfig 2 := by
  obtain htoken | ⟨b, hpc, -⟩ := h
  · exact Nat.add_pos_left (Multiset.card_pos_iff_exists_mem.mpr ⟨_, htoken⟩) _
  · exact Nat.add_pos_right _ (count_pos.mpr ⟨b, hpc⟩)

/-- A customer that waits for its cut to be done goes on waiting, or takes a `cut_done`. -/
theorem mem_or_pos_of_step {k : Fin customersNum} (hstep : TokenStep program c (.inr k) c')
    (h : c.pc (.inr k) ∈ Ico 3 6) :
    c'.pc (.inr k) ∈ Ico 3 6 ∨ 0 < c.toConfig.value cutDone := by
  obtain ⟨op, hop, hen, hc'⟩ | ⟨s, hop, -, hc'⟩ := hstep.toConfig
  · have hupdate : c'.pc = Function.update c.pc (.inr k) (customerMain.succ (c.pc (.inr k))) :=
      congrArg Config.pc hc'
    have hpc : c'.pc (.inr k) = c.pc (.inr k) + 1 := by
      rw [hupdate, Function.update_self, Code.succ, if_neg (by simp [customerMain])]
    rw [mem_Ico] at h
    by_cases hfive : c.pc (.inr k) = 5
    · have hdone : some (Op.wait cutDone) = some op := by
        rw [← hop]
        show _ = customerMain.body[c.pc (.inr k)]?
        rw [hfive]
        rfl
      cases hdone
      exact .inr hen
    · exact .inl (mem_Ico.mpr (by omega))
  · have hsame : c'.pc = c.pc := congrArg Config.pc hc'
    exact .inl (hsame ▸ h)

/-- With one customer in the shop at most one waits for its cut to be done. -/
theorem Balanced.sum_customersAt_le {c : Config (Thread barbersNum customersNum) Sem}
    (h : Balanced customersShopMax c) (hone : customersNum ≤ 1 ∨ customersShopMax ≤ 1) :
    ∑ k ∈ Ico 3 6, customersAt c k ≤ 1 := by
  have hall : ∑ k ∈ Ico 3 6, customersAt c k ≤ ∑ k ∈ range 10, customersAt c k :=
    sum_le_sum_of_subset (by decide)
  have hin : ∑ k ∈ Ico 3 6, customersAt c k ≤ ∑ k ∈ Ico 1 9, customersAt c k :=
    sum_le_sum_of_subset (by decide)
  have hshop := h.inShop
  have hcustomers := h.customers
  omega

/-- **The token of a customer is outstanding** only while the customer waits for its cut to be
done, when only one customer is in the shop. -/
theorem TokenShopReachable.mem_of_outstanding (h : TokenShopReachable customersShopMax c)
    (hone : customersNum ≤ 1 ∨ customersShopMax ≤ 1) {k : Fin customersNum}
    (hk : Outstanding c k) : c.pc (.inr k) ∈ Ico 3 6 := by
  refine (Run.invariant h (p := fun c => TokenShopReachable customersShopMax c ∧
    (Outstanding c k → c.pc (.inr k) ∈ Ico 3 6)) ⟨.refl, ?_⟩ ?_).2 hk
  · rintro (htoken | ⟨b, hpc, -⟩)
    · simp [tokenShop, shopCreate] at htoken
    · simp [tokenShop] at hpc
  · rintro c i c' ⟨hreach, hold⟩ - hstep
    refine ⟨Run.step hreach trivial hstep, fun hout => ?_⟩
    obtain hout | ⟨rfl, -, hpc⟩ := outstanding_of_step hstep hout
    · by_cases hi : i = .inr k
      · subst hi
        obtain hmem | hdone := mem_or_pos_of_step hstep (hold hout)
        · exact hmem
        · -- two tokens or cuts would belong to one customer
          have hbal := hreach.shopReachable.balanced
          have hle := hbal.sum_customersAt_le hone
          have hcut := hbal.cut
          have hpos := hout.pos
          omega
      · rw [hstep.pc_of_ne (Ne.symm hi)]
        exact hold hout
    · simp [hpc]

end Outstanding

/-! ### Shops in which a customer overtakes another -/

/-- The barber. -/
private abbrev barber : Thread 1 2 := .inl 0

/-- The customer whose hair is cut. -/
private abbrev first : Thread 1 2 := .inr 0

/-- The customer that sits down in front of it. -/
private abbrev second : Thread 1 2 := .inr 1

/-- The barber takes the token of the first customer and the second customer the `cut_done` for
it; the second customer is about to pay when the barber takes its token. -/
private theorem schedule_overtaken :
    (schedule (tokenNext program) free (tokenShop 1 2 2)
      [(barber, none), (first, none), (first, none), (first, none), (second, none), (second, none),
        (second, none), (second, some barber), (second, none), (barber, some first), (barber, none),
        (second, some barber), (second, none), (barber, none), (barber, none),
        (barber, some second), (barber, none), (barber, none), (barber, some second)]).map
      (fun c => (c.pc barber, c.taken barber cutCustomerReady, c.pc second)) =
    some (2, some second, 7) := by
  decide +kernel

/-- A customer of a shop with one barber is past its cut while the barber is cutting. -/
theorem exists_overtaken : ∃ c : TokenConfig (Thread 1 2) Sem,
    TokenShopReachable 2 c ∧ Cutting c 0 1 ∧ 5 < c.pc (.inr 1) := by
  obtain ⟨c, hsched, hc⟩ := Option.map_eq_some_iff.mp schedule_overtaken
  obtain ⟨hpc, htaken, hsecond⟩ : _ ∧ _ ∧ _ := by simpa only [Prod.mk.injEq] using hc
  exact ⟨c, TokenRun.of_schedule hsched, ⟨hpc, htaken⟩, hsecond ▸ by decide⟩

/-- A shop with more barbers, more customers and more room has the runs of a smaller one. -/
theorem exists_overtaken_of_le (hbarbers : 1 ≤ barbersNum) (hcustomers : 2 ≤ customersNum)
    (hshop : 2 ≤ customersShopMax) :
    ∃ c : TokenConfig (Thread barbersNum customersNum) Sem,
      TokenShopReachable customersShopMax c ∧ ¬Paired c := by
  obtain ⟨c, hrun, ⟨hpc, htaken⟩, hsecond⟩ := exists_overtaken
  let f : Thread 1 2 → Thread barbersNum customersNum :=
    Sum.map (Fin.castLE hbarbers) (Fin.castLE hcustomers)
  have hf : Function.Injective f :=
    (Fin.castLE_injective hbarbers).sumMap (Fin.castLE_injective hcustomers)
  have hcode : ∀ i, (program (f i) : Code Sem) = program i
    | .inl _ => rfl
    | .inr _ => rfl
  have hvalue : ∀ s, (shopCreate 1 2 2).value s ≤
      (shopCreate barbersNum customersNum customersShopMax).value s
    | customersInShop => hshop
    | customersOnSofa | Sem.cashdesk | cutCustomerReady | cutBarberReady | cutDone
    | payCustomerReady | payBarberReady => le_rfl
  have hinit : Embeds f (tokenShop 1 2 2)
      (tokenShop barbersNum customersNum customersShopMax) :=
    ⟨fun _ => rfl, fun s => by
      rw [tokenShop, tokenShop, Multiset.map_replicate]
      exact (Multiset.replicate_le_replicate none).mpr (hvalue s), fun _ _ => rfl⟩
  obtain ⟨d, hd, hembeds⟩ := TokenRun.embeds hrun hf hcode hinit
  refine ⟨d, hd, fun hpaired => ?_⟩
  have hcut : Cutting d (Fin.castLE hbarbers 0) (Fin.castLE hcustomers 1) :=
    ⟨(hembeds.pc (.inl 0)).trans hpc, (hembeds.taken (.inl 0) _).trans (htaken ▸ rfl)⟩
  have hle := hpaired _ _ hcut
  have hpc₁ : d.pc (.inr (Fin.castLE hcustomers 1)) = c.pc (.inr 1) := hembeds.pc (.inr 1)
  omega

/-- **Which shops keep the pairs together**: those without barbers and those in which there is
never a second customer. -/
theorem paired_iff : (∀ c : TokenConfig (Thread barbersNum customersNum) Sem,
    TokenShopReachable customersShopMax c → Paired c) ↔
      barbersNum = 0 ∨ customersNum ≤ 1 ∨ customersShopMax ≤ 1 := by
  constructor
  · intro hall
    by_contra hcon
    obtain ⟨hbarbers, hcustomers, hshop⟩ : barbersNum ≠ 0 ∧ 2 ≤ customersNum ∧
      2 ≤ customersShopMax := by omega
    obtain ⟨c, hc, hbad⟩ :=
      exists_overtaken_of_le (Nat.one_le_iff_ne_zero.mpr hbarbers) hcustomers hshop
    exact hbad (hall c hc)
  · rintro (rfl | hone) c hc b k hcut
    · exact b.elim0
    · have hmem := hc.mem_of_outstanding hone (.inr ⟨b, hcut⟩)
      rw [mem_Ico] at hmem
      omega

/-- **A customer can get up early**: with one barber and two customers, one of them is past its
cut while the barber is cutting its hair. -/
theorem not_forall_paired : ¬∀ (barbersNum customersNum customersShopMax : ℕ)
    (c : TokenConfig (Thread barbersNum customersNum) Sem),
      TokenShopReachable customersShopMax c → Paired c := by
  intro hall
  obtain ⟨c, hc, hcut, hsecond⟩ := exists_overtaken
  exact absurd (hall 1 2 2 c hc 0 1 hcut) (by omega)

end TikFachpraktika.Barbershop
