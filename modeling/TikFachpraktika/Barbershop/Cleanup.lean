import TikFachpraktika.Barbershop.Termination
import TikFachpraktika.Transition.Trace

/-!
# The whole program of the barbershop

`main` creates the threads one after the other, and they run as soon as they exist. `shop_cleanup`
waits for all customers, sends `SIGQUIT` to each barber, waits for them, and frees and destroys
everything. A barber installs the handler of this signal, which ends the thread it is delivered to,
when it starts. The handler is one for the whole process, and without it the signal would kill the
process. So `main` must not send it before a barber has started, and must not destroy the semaphores
before all barbers are gone. A `sem_trywait` that fails is no step.

## Main definitions

* `MainCall`, `shopRun`, `shopCleanup`: the calls of `main` for its threads.
* `Process`: the state of the program.
* `Process.next`: its steps.

## Main results

* `shopMain_returns`: `main` returns in every run, when all threads are gone.
-/

namespace TikFachpraktika.Barbershop

open Semaphore Finset Sem Transition

variable {barbersNum customersNum customersShopMax : ℕ}

/-! ### The program -/

/-- How far a thread is. -/
inductive Life
  | unborn
  | created
  | running
  | exited
  deriving DecidableEq

/-- The calls of `main` for its threads. The last one stands for the `xfree` and `sem_destroy` at
the end of `shop_cleanup`. -/
inductive MainCall (barbersNum customersNum : ℕ)
  | pthreadCreate (i : Thread barbersNum customersNum)
  | pthreadJoin (i : Thread barbersNum customersNum)
  | pthreadKill (b : Fin barbersNum)
  | destroy

open MainCall

/-- `shop_run`. -/
def shopRun (barbersNum customersNum : ℕ) : List (MainCall barbersNum customersNum) :=
  (List.finRange barbersNum).map (fun b => pthreadCreate (.inl b)) ++
    (List.finRange customersNum).map fun k => pthreadCreate (.inr k)

/-- `shop_cleanup`. -/
def shopCleanup (barbersNum customersNum : ℕ) : List (MainCall barbersNum customersNum) :=
  (List.finRange customersNum).map (fun k => pthreadJoin (.inr k)) ++
    (List.finRange barbersNum).map pthreadKill ++
    (List.finRange barbersNum).map (fun b => pthreadJoin (.inl b)) ++ [destroy]

/-- The state of the program: the calls that `main` has still to make, how far each thread is, to
which barbers `SIGQUIT` has been sent, whether its handler is installed, whether the process has
been killed, and the operations of the threads with the shop they have led to. -/
structure Process (barbersNum customersNum : ℕ) where
  calls : List (MainCall barbersNum customersNum)
  life : Thread barbersNum customersNum → Life
  signalled : Fin barbersNum → Bool
  handler : Bool
  killed : Bool
  ops : List (Thread barbersNum customersNum × Op Sem)
  shop : Config (Thread barbersNum customersNum) Sem

/-- `main` up to `shop_run`. The arrays of `shop_create` must not be empty, as `xmalloc` panics when
it is asked for no bytes. -/
def shopMain (barbersNum customersNum customersShopMax : ℕ) :
    Option (Process barbersNum customersNum) :=
  if barbersNum = 0 ∨ customersNum = 0 then none
  else some ⟨shopRun barbersNum customersNum ++ shopCleanup barbersNum customersNum,
    fun _ => .unborn, fun _ => false, false, false, [],
    shopCreate barbersNum customersNum customersShopMax⟩

/-- The steps of the program: a call of `main`, the first lines of a thread, an operation of a
thread, `pthread_exit` of a customer, and `SIGQUIT` reaching a barber. -/
inductive ShopAction (barbersNum customersNum : ℕ)
  | main
  | start (i : Thread barbersNum customersNum)
  | operate (i : Thread barbersNum customersNum)
  | exit (k : Fin customersNum)
  | deliver (b : Fin barbersNum)

instance (c : Config (Thread barbersNum customersNum) Sem) (k : Fin customersNum) :
    Decidable (HasLeft c k) :=
  inferInstanceAs (Decidable (_ = 9))

namespace Process

variable (s : Process barbersNum customersNum)

/-- The next call of `main`. A join waits until the thread is gone. -/
def call : Option (Process barbersNum customersNum) :=
  match s.calls with
  | [] => none
  | pthreadCreate i :: calls =>
    some { s with calls := calls, life := Function.update s.life i .created }
  | pthreadJoin i :: calls =>
    if s.life i = .exited then some { s with calls := calls } else none
  | pthreadKill b :: calls =>
    some { s with calls := calls, signalled := Function.update s.signalled b true }
  | destroy :: calls => some { s with calls := calls }

/-- What a thread does before its first operation: a barber installs the handler. -/
def start (i : Thread barbersNum customersNum) : Option (Process barbersNum customersNum) :=
  if s.life i = .created then
    some { s with
      life := Function.update s.life i .running
      handler := s.handler || i.isLeft }
  else none

/-- The next operation of a thread. -/
def operate (i : Thread barbersNum customersNum) : Option (Process barbersNum customersNum) :=
  if s.life i = .running then
    match (program i).body[s.shop.pc i]? with
    | none => none
    | some op =>
      if op.Enabled s.shop.value then
        some { s with
          ops := (i, op) :: s.ops
          shop := ⟨Function.update s.shop.pc i ((program i).succ (s.shop.pc i)),
            op.run s.shop.value⟩ }
      else none
  else none

/-- `pthread_exit` at the end of `customer_main`. -/
def exit (k : Fin customersNum) : Option (Process barbersNum customersNum) :=
  if s.life (.inr k) = .running ∧ HasLeft s.shop k then
    some { s with life := Function.update s.life (.inr k) .exited }
  else none

/-- `SIGQUIT` is delivered to a barber: `signal_quit` ends the thread, or the process is killed. -/
def deliver (b : Fin barbersNum) : Option (Process barbersNum customersNum) :=
  if s.signalled b = true ∧ (s.life (.inl b) = .created ∨ s.life (.inl b) = .running) then
    if s.handler then some { s with life := Function.update s.life (.inl b) .exited }
    else some { s with killed := true }
  else none

/-- A step of the program. -/
def next (a : ShopAction barbersNum customersNum) : Option (Process barbersNum customersNum) :=
  if s.killed then none
  else
    match a with
    | .main => s.call
    | .start i => s.start i
    | .operate i => s.operate i
    | .exit k => s.exit k
    | .deliver b => s.deliver b

end Process

/-- The steps, by what they do. -/
inductive Process.Step (s : Process barbersNum customersNum) :
    Process barbersNum customersNum → Prop
  | create {i : Thread barbersNum customersNum} {calls : List (MainCall barbersNum customersNum)}
      (hcalls : s.calls = pthreadCreate i :: calls) :
      Step s { s with calls := calls, life := Function.update s.life i .created }
  | join {i : Thread barbersNum customersNum} {calls : List (MainCall barbersNum customersNum)}
      (hcalls : s.calls = pthreadJoin i :: calls) (hi : s.life i = .exited) :
      Step s { s with calls := calls }
  | kill {b : Fin barbersNum} {calls : List (MainCall barbersNum customersNum)}
      (hcalls : s.calls = pthreadKill b :: calls) :
      Step s { s with calls := calls, signalled := Function.update s.signalled b true }
  | destroy {calls : List (MainCall barbersNum customersNum)}
      (hcalls : s.calls = destroy :: calls) :
      Step s { s with calls := calls }
  | start {i : Thread barbersNum customersNum} (hi : s.life i = .created) :
      Step s { s with
        life := Function.update s.life i .running
        handler := s.handler || i.isLeft }
  | operate {i : Thread barbersNum customersNum} {op : Op Sem} (hi : s.life i = .running)
      (hop : (program i).body[s.shop.pc i]? = some op) (hen : op.Enabled s.shop.value) :
      Step s { s with
        ops := (i, op) :: s.ops
        shop := ⟨Function.update s.shop.pc i ((program i).succ (s.shop.pc i)),
          op.run s.shop.value⟩ }
  | exit {k : Fin customersNum} (hk : s.life (.inr k) = .running) (hleft : HasLeft s.shop k) :
      Step s { s with life := Function.update s.life (.inr k) .exited }
  | quit {b : Fin barbersNum} (hb : s.signalled b = true)
      (hlife : s.life (.inl b) = .created ∨ s.life (.inl b) = .running)
      (hhandler : s.handler = true) :
      Step s { s with life := Function.update s.life (.inl b) .exited }
  | die {b : Fin barbersNum} (hb : s.signalled b = true)
      (hlife : s.life (.inl b) = .created ∨ s.life (.inl b) = .running)
      (hhandler : s.handler = false) :
      Step s { s with killed := true }

/-- **What a step does.** -/
theorem Process.step_of_next {s s' : Process barbersNum customersNum}
    {a : ShopAction barbersNum customersNum} (hnext : s.next a = some s') : s.Step s' := by
  unfold Process.next at hnext
  split_ifs at hnext
  cases a with
  | main =>
    simp only [call] at hnext
    split at hnext
    · cases hnext
    · next hcalls =>
      cases hnext
      exact .create hcalls
    · next hcalls =>
      split_ifs at hnext with hi
      cases hnext
      exact .join hcalls hi
    · next hcalls =>
      cases hnext
      exact .kill hcalls
    · next hcalls =>
      cases hnext
      exact .destroy hcalls
  | start i =>
    simp only [start] at hnext
    split_ifs at hnext with hi
    cases hnext
    exact .start hi
  | operate i =>
    simp only [operate] at hnext
    split_ifs at hnext with hi
    split at hnext
    · cases hnext
    · next op hop =>
      split_ifs at hnext with hen
      cases hnext
      exact .operate hi hop hen
  | exit k =>
    simp only [exit] at hnext
    split_ifs at hnext with hk
    cases hnext
    exact .exit hk.1 hk.2
  | deliver b =>
    simp only [deliver] at hnext
    split_ifs at hnext with hb hhandler
    · cases hnext
      exact .quit hb.1 hb.2 hhandler
    · cases hnext
      exact .die hb.1 hb.2 (Bool.eq_false_iff.mpr hhandler)

/-! ### The order of the calls -/

/-- The calls of `main` for its threads, in their order. -/
abbrev mainCalls (barbersNum customersNum : ℕ) : List (MainCall barbersNum customersNum) :=
  shopRun barbersNum customersNum ++ shopCleanup barbersNum customersNum

/-- The place of a call among those of `main`. -/
def MainCall.place : MainCall barbersNum customersNum → ℕ
  | pthreadCreate (.inl b) => b
  | pthreadCreate (.inr k) => barbersNum + k
  | pthreadJoin (.inr k) => barbersNum + customersNum + k
  | pthreadKill b => barbersNum + 2 * customersNum + b
  | pthreadJoin (.inl b) => 2 * barbersNum + 2 * customersNum + b
  | destroy => 3 * barbersNum + 2 * customersNum

/-- The places of a block of calls, one for each thread of a kind. -/
theorem map_place_block {n : ℕ} (start : ℕ) (f : Fin n → MainCall barbersNum customersNum)
    (hf : ∀ i, (f i).place = start + i) :
    ((List.finRange n).map f).map place = List.range' start n := by
  refine List.ext_getElem (by simp) fun i hi _ => ?_
  simp [hf]

/-- The calls are made in the order of their places. -/
theorem map_place_mainCalls : (mainCalls barbersNum customersNum).map place =
    List.range' 0 (3 * barbersNum + 2 * customersNum + 1) := by
  have hcreate := map_place_block 0
    (fun b => (pthreadCreate (.inl b) : MainCall barbersNum customersNum))
    fun b => (Nat.zero_add _).symm
  have hcreate' := map_place_block _
    (fun k => (pthreadCreate (.inr k) : MainCall barbersNum customersNum)) fun k => rfl
  have hjoin := map_place_block _
    (fun k => (pthreadJoin (.inr k) : MainCall barbersNum customersNum)) fun k => rfl
  have hkill := map_place_block _
    (fun b => (pthreadKill b : MainCall barbersNum customersNum)) fun b => rfl
  have hjoin' := map_place_block _
    (fun b => (pthreadJoin (.inl b) : MainCall barbersNum customersNum)) fun b => rfl
  have hdestroy : [(destroy : MainCall barbersNum customersNum)].map place =
      List.range' (3 * barbersNum + 2 * customersNum) 1 := rfl
  have happend : ∀ {s m t n : ℕ}, t = s + m →
      List.range' s m ++ List.range' t n = List.range' s (m + n) := fun ht => by
    rw [ht, List.range'_append_1]
  simp only [mainCalls, shopRun, shopCleanup, List.map_append, hcreate, hcreate', hjoin, hkill,
    hjoin', hdestroy]
  rw [happend (Nat.zero_add _).symm, happend (by omega), happend (by omega), happend (by omega),
    happend (by omega)]
  congr 1
  omega

theorem length_mainCalls :
    (mainCalls barbersNum customersNum).length = 3 * barbersNum + 2 * customersNum + 1 := by
  rw [← List.length_map (f := place), map_place_mainCalls, List.length_range']

theorem mem_mainCalls (x : MainCall barbersNum customersNum) :
    x ∈ mainCalls barbersNum customersNum := by
  obtain (b | k) | (b | k) | b | _ := x <;> simp [mainCalls, shopRun, shopCleanup]

section Order

variable {calls : List (MainCall barbersNum customersNum)} {x y : MainCall barbersNum customersNum}

/-- What has been made before `x`, and what comes after it. -/
theorem exists_made (h : x :: calls <:+ mainCalls barbersNum customersNum) :
    ∃ made, made ++ x :: calls = mainCalls barbersNum customersNum ∧
      (∀ y ∈ made, y.place < x.place) ∧ ∀ y ∈ calls, x.place < y.place := by
  obtain ⟨made, hmade⟩ := h
  have hsorted : (made ++ x :: calls).Pairwise fun x y => x.place < y.place := by
    rw [hmade, ← List.pairwise_map (f := place) (R := (· < ·)), map_place_mainCalls]
    exact List.pairwise_lt_range'
  obtain ⟨-, hrest, hacross⟩ := List.pairwise_append.mp hsorted
  exact ⟨made, hmade, fun y hy => hacross y hy x List.mem_cons_self,
    (List.pairwise_cons.mp hrest).1⟩

/-- Which calls are still to come when `x` is next. -/
theorem mem_iff_place_le (h : x :: calls <:+ mainCalls barbersNum customersNum) :
    y ∈ x :: calls ↔ x.place ≤ y.place := by
  obtain ⟨made, hmade, hbefore, hafter⟩ := exists_made h
  refine ⟨fun hy => ?_, fun hle => ?_⟩
  · obtain rfl | hy := List.mem_cons.mp hy
    · exact le_rfl
    · exact (hafter y hy).le
  · have hy : y ∈ made ++ x :: calls := hmade ▸ mem_mainCalls y
    exact (List.mem_append.mp hy).resolve_left fun hy => (hbefore y hy).not_ge hle

/-- Which calls are still to come after `x`. -/
theorem mem_iff_place_lt (h : x :: calls <:+ mainCalls barbersNum customersNum) :
    y ∈ calls ↔ x.place < y.place := by
  obtain ⟨-, -, -, hafter⟩ := exists_made h
  refine ⟨fun hy => hafter y hy, fun hlt => ?_⟩
  obtain rfl | hy := List.mem_cons.mp ((mem_iff_place_le h).mpr hlt.le)
  · exact absurd hlt (lt_irrefl _)
  · exact hy

theorem mem_iff_of_ne {calls' : List (MainCall barbersNum customersNum)}
    (hcalls : calls' = x :: calls) (hne : y ≠ x) : y ∈ calls' ↔ y ∈ calls := by
  rw [hcalls, List.mem_cons, or_iff_right hne]

/-- The calls up to one that has been made have been made. -/
theorem notMem_of_place_le (h : calls <:+ mainCalls barbersNum customersNum) (hx : x ∉ calls)
    (hle : y.place ≤ x.place) : y ∉ calls := by
  cases calls with
  | nil => exact List.not_mem_nil
  | cons z calls =>
    rw [mem_iff_place_le h] at hx ⊢
    omega

end Order

/-! ### What holds in every state of the program -/

/-- The state of the threads and of the signal handler, as far as `main` has come. -/
structure Process.Sound (customersShopMax : ℕ) (s : Process barbersNum customersNum) : Prop where
  calls : s.calls <:+ mainCalls barbersNum customersNum
  traced : ShopTraced customersShopMax s.ops s.shop
  killed : s.killed = false
  unborn : ∀ i, s.life i = .unborn ↔ pthreadCreate i ∈ s.calls
  joined : ∀ i, pthreadJoin i ∉ s.calls → s.life i = .exited
  signalled : ∀ b, s.signalled b = true ↔ pthreadKill b ∉ s.calls
  customer : ∀ k, s.life (.inr k) = .exited → HasLeft s.shop k
  barber : ∀ b, s.life (.inl b) = .exited → s.signalled b = true
  handler : ∀ b, s.life (.inl b) = .running → s.handler = true
  ready : 0 < posts cutBarberReady s.ops → s.handler = true

section Traces

variable {c : Config (Thread barbersNum customersNum) Sem}
  {tr : List (Thread barbersNum customersNum × Op Sem)}

/-- A customer that has left has met a barber. -/
theorem ShopTraced.posts_pos (h : ShopTraced customersShopMax tr c) {k : Fin customersNum}
    (hleft : HasLeft c k) : 0 < posts cutBarberReady tr := by
  have hnonneg : ∀ pc < 10,
      0 ≤ customerMain.total (fun op => if op.isWait cutBarberReady then 1 else 0) pc := by
    decide
  have hnine : customerMain.total (fun op => if op.isWait cutBarberReady then 1 else 0) 9 = 1 := by
    decide
  have hwaits := h.waits_eq (s := cutBarberReady) (by decide)
  have hle := single_le_sum (fun j _ => hnonneg _ (h.reachable.customerPc_lt j)) (mem_univ k)
  rw [← hwaits, hleft, hnine] at hle
  have hvalue := Traced.value_add_waits h cutBarberReady
  have hinit : (shopCreate barbersNum customersNum customersShopMax).value cutBarberReady = 0 := rfl
  omega

/-- Only barbers post `cut_barber_ready`. -/
theorem isPost_eq_false_of_customer {k : Fin customersNum} {op : Op Sem}
    (hop : (program (.inr k : Thread barbersNum customersNum)).body[c.pc (.inr k)]? = some op) :
    op.isPost cutBarberReady = false := by
  have hbody : ∀ op ∈ customerMain.body, op.isPost cutBarberReady = false := by decide
  exact hbody op (List.mem_of_getElem? hop)

end Traces

/-- How far a thread is when one thread gets further. -/
theorem eq_or_eq_of_update {life : Thread barbersNum customersNum → Life}
    {i j : Thread barbersNum customersNum} {l l' : Life} (h : Function.update life i l j = l') :
    (j = i ∧ l = l') ∨ life j = l' := by
  rcases eq_or_ne j i with rfl | hne
  · exact .inl ⟨rfl, (Function.update_self ..).symm.trans h⟩
  · exact .inr ((Function.update_of_ne hne ..).symm.trans h)

namespace Process.Sound

variable {s s' : Process barbersNum customersNum}

/-- **The handler is installed** once `SIGQUIT` is sent: a customer has been waited for, and it has
met a barber. -/
theorem handler_of_signalled (h : s.Sound customersShopMax) (hcustomers : 0 < customersNum)
    {b : Fin barbersNum} (hb : s.signalled b = true) : s.handler = true := by
  have hjoin : pthreadJoin (.inr ⟨0, hcustomers⟩) ∉ s.calls := by
    refine notMem_of_place_le h.calls ((h.signalled b).mp hb) ?_
    simp only [place]
    omega
  exact h.ready (h.traced.posts_pos (h.customer _ (h.joined _ hjoin)))

/-! #### The steps -/

theorem create (h : s.Sound customersShopMax) {i : Thread barbersNum customersNum}
    {calls : List (MainCall barbersNum customersNum)}
    (hcalls : s.calls = pthreadCreate i :: calls) :
    ({ s with calls := calls, life := Function.update s.life i .created } : Process _ _).Sound
      customersShopMax := by
  have hsuffix := hcalls ▸ h.calls
  have hi : s.life i = .unborn := (h.unborn i).mpr (hcalls ▸ List.mem_cons_self)
  have hmem := fun {y} => mem_iff_of_ne (y := y) hcalls
  have hlife : ∀ {j l}, Life.created ≠ l → Function.update s.life i .created j = l →
      s.life j = l := fun hl hj => (eq_or_eq_of_update hj).resolve_left fun hnew => hl hnew.2
  refine ⟨(List.suffix_cons _ _).trans hsuffix, h.traced, h.killed, fun j => ?_, fun j hj => ?_,
    fun b => (h.signalled b).trans (not_congr (hmem (by simp))), fun k hk => ?_, fun b hb => ?_,
    fun b hb => ?_, h.ready⟩
  · dsimp only
    rcases eq_or_ne j i with rfl | hne
    · rw [Function.update_self, mem_iff_place_lt hsuffix]
      simp
    · rw [Function.update_of_ne hne, h.unborn j, hmem fun heq => hne (by injection heq)]
  · have hexited := h.joined j fun hmem' => hj ((hmem (by simp)).mp hmem')
    dsimp only
    rw [Function.update_of_ne (fun heq => by rw [heq, hi] at hexited; cases hexited), hexited]
  · exact h.customer k (hlife (by decide) hk)
  · exact h.barber b (hlife (by decide) hb)
  · exact h.handler b (hlife (by decide) hb)

/-- A call that changes nothing but the calls still to come: a join of a thread that is gone, or
`destroy`. -/
theorem pop (h : s.Sound customersShopMax) {x : MainCall barbersNum customersNum}
    {calls : List (MainCall barbersNum customersNum)} (hcalls : s.calls = x :: calls)
    (hcreate : ∀ i, pthreadCreate i ≠ x) (hkill : ∀ b, pthreadKill b ≠ x)
    (hjoin : ∀ i, pthreadJoin i = x → s.life i = .exited) :
    ({ s with calls := calls } : Process _ _).Sound customersShopMax := by
  refine ⟨(List.suffix_cons _ _).trans (hcalls ▸ h.calls), h.traced, h.killed,
    fun i => (h.unborn i).trans (mem_iff_of_ne hcalls (hcreate i)), fun i hi => ?_,
    fun b => (h.signalled b).trans (not_congr (mem_iff_of_ne hcalls (hkill b))), h.customer,
    h.barber, h.handler, h.ready⟩
  by_cases hx : pthreadJoin i = x
  · exact hjoin i hx
  · exact h.joined i fun hmem => hi ((mem_iff_of_ne hcalls hx).mp hmem)

theorem kill (h : s.Sound customersShopMax) {b : Fin barbersNum}
    {calls : List (MainCall barbersNum customersNum)} (hcalls : s.calls = pthreadKill b :: calls) :
    ({ s with
      calls := calls
      signalled := Function.update s.signalled b true } : Process _ _).Sound
      customersShopMax := by
  have hsuffix := hcalls ▸ h.calls
  have hmem := fun {y} => mem_iff_of_ne (y := y) hcalls
  refine ⟨(List.suffix_cons _ _).trans hsuffix, h.traced, h.killed,
    fun i => (h.unborn i).trans (hmem (by simp)),
    fun i hi => h.joined i fun hmem' => hi ((hmem (by simp)).mp hmem'), fun a => ?_, h.customer,
    fun a ha => ?_, h.handler, h.ready⟩
  · dsimp only
    rcases eq_or_ne a b with rfl | hne
    · rw [Function.update_self, mem_iff_place_lt hsuffix]
      simp
    · rw [Function.update_of_ne hne, h.signalled a, hmem fun heq => hne (by injection heq)]
  · dsimp only
    rcases eq_or_ne a b with rfl | hne
    · rw [Function.update_self]
    · rw [Function.update_of_ne hne, h.barber a ha]

/-- A thread that is there starts or is gone. -/
theorem setLife (h : s.Sound customersShopMax) {i : Thread barbersNum customersNum} {l : Life}
    {handler : Bool} (hi : s.life i = .created ∨ s.life i = .running) (hl : l ≠ .unborn)
    (hcustomer : ∀ k, i = .inr k → l = .exited → HasLeft s.shop k)
    (hbarber : ∀ b, i = .inl b → l = .exited → s.signalled b = true)
    (hstarted : ∀ b, i = .inl b → l = .running → handler = true)
    (hhandler : s.handler = true → handler = true) :
    ({ s with life := Function.update s.life i l, handler := handler } : Process _ _).Sound
      customersShopMax := by
  refine ⟨h.calls, h.traced, h.killed, fun j => ?_, fun j hj => ?_, h.signalled, fun k hk => ?_,
    fun b hb => ?_, fun b hb => ?_, fun hpos => hhandler (h.ready hpos)⟩
  · dsimp only
    rcases eq_or_ne j i with rfl | hne
    · rw [Function.update_self, ← h.unborn j]
      rcases hi with hi | hi <;> simp [hl, hi]
    · rw [Function.update_of_ne hne, h.unborn j]
  · have hexited := h.joined j hj
    dsimp only
    rw [Function.update_of_ne (fun heq => by simp [← heq, hexited] at hi), hexited]
  · obtain ⟨hki, hexited⟩ | hold := eq_or_eq_of_update hk
    · exact hcustomer k hki.symm hexited
    · exact h.customer k hold
  · obtain ⟨hbi, hexited⟩ | hold := eq_or_eq_of_update hb
    · exact hbarber b hbi.symm hexited
    · exact h.barber b hold
  · obtain ⟨hbi, hrunning⟩ | hold := eq_or_eq_of_update hb
    · exact hstarted b hbi.symm hrunning
    · exact hhandler (h.handler b hold)

theorem operate (h : s.Sound customersShopMax) {i : Thread barbersNum customersNum} {op : Op Sem}
    (hi : s.life i = .running) (hop : (program i).body[s.shop.pc i]? = some op)
    (hen : op.Enabled s.shop.value) :
    ({ s with
      ops := (i, op) :: s.ops
      shop := ⟨Function.update s.shop.pc i ((program i).succ (s.shop.pc i)),
        op.run s.shop.value⟩ } : Process _ _).Sound customersShopMax := by
  refine ⟨h.calls, Traced.cons_of_enabled h.traced hop hen, h.killed, h.unborn, h.joined,
    h.signalled, fun k hk => ?_, h.barber, h.handler, fun hpos => ?_⟩
  · have hne : .inr k ≠ i := fun heq => by
      dsimp only at hk
      rw [heq, hi] at hk
      cases hk
    exact (Function.update_of_ne hne ..).trans (h.customer k hk)
  · cases i with
    | inl b => exact h.handler b hi
    | inr k =>
      rw [posts, List.countP_cons, if_neg (by rw [isPost_eq_false_of_customer hop]; decide)] at hpos
      exact h.ready hpos

/-- **A step** keeps what holds of the program. -/
theorem step (h : s.Sound customersShopMax) (hcustomers : 0 < customersNum) (hstep : s.Step s') :
    s'.Sound customersShopMax := by
  cases hstep with
  | create hcalls => exact h.create hcalls
  | @join i _ hcalls hi =>
    refine h.pop hcalls (fun _ hx => by cases hx) (fun _ hx => by cases hx) fun j hj => ?_
    cases hj
    exact hi
  | kill hcalls => exact h.kill hcalls
  | destroy hcalls =>
    exact h.pop hcalls (fun _ hx => by cases hx) (fun _ hx => by cases hx) fun _ hx => by cases hx
  | @start i hi =>
    refine h.setLife (.inl hi) (by decide) (fun _ _ hl => by cases hl) (fun _ _ hl => by cases hl)
      (fun b hb _ => ?_) fun hs => ?_
    · rw [hb, Sum.isLeft_inl, Bool.or_true]
    · rw [hs, Bool.true_or]
  | operate hi hop hen => exact h.operate hi hop hen
  | exit hk hleft =>
    exact h.setLife (.inr hk) (by decide) (fun j hj _ => by cases hj; exact hleft)
      (fun _ hb => by cases hb) (fun _ hb => by cases hb) id
  | quit hb hlife =>
    exact h.setLife hlife (by decide) (fun _ hk => by cases hk)
      (fun a ha _ => by cases ha; exact hb) (fun _ _ hl => by cases hl) id
  | die hb _ hhandler =>
    rw [h.handler_of_signalled hcustomers hb] at hhandler
    cases hhandler

end Process.Sound

/-- What holds when `main` begins. -/
theorem sound_shopMain {s₀ : Process barbersNum customersNum}
    (hmain : shopMain barbersNum customersNum customersShopMax = some s₀) :
    0 < barbersNum ∧ 0 < customersNum ∧ s₀.Sound customersShopMax := by
  rw [shopMain] at hmain
  split_ifs at hmain with hzero
  cases hmain
  refine ⟨by omega, by omega, List.suffix_rfl, .refl, rfl, fun i => ?_, fun i hi => ?_, fun b => ?_,
    fun k hk => ?_, fun b hb => ?_, fun b hb => ?_, fun hpos => ?_⟩
  · exact iff_of_true rfl (mem_mainCalls _)
  · exact absurd (mem_mainCalls _) hi
  · exact iff_of_false Bool.false_ne_true (not_not_intro (mem_mainCalls _))
  · cases hk
  · cases hb
  · cases hb
  · exact absurd hpos (lt_irrefl 0)

/-! ### The end of the program -/

/-- How far a thread is besides its operations. -/
def Life.rank : Life → ℕ
  | unborn | created => 0
  | running => 1
  | exited => 2

/-- The steps that the program has taken at least. -/
def Process.rank (s : Process barbersNum customersNum) : ℕ :=
  s.ops.length + ∑ i, (s.life i).rank + (3 * barbersNum + 2 * customersNum + 1 - s.calls.length)

theorem sum_rank_lt {life : Thread barbersNum customersNum → Life}
    {i : Thread barbersNum customersNum} {l : Life} (h : (life i).rank < l.rank) :
    ∑ j, (life j).rank < ∑ j, (Function.update life i l j).rank := by
  refine sum_lt_sum (fun j _ => ?_) ⟨i, mem_univ i, by rwa [Function.update_self]⟩
  rcases eq_or_ne j i with rfl | hne
  · rw [Function.update_self]
    exact h.le
  · rw [Function.update_of_ne hne]

namespace Process.Sound

variable {s s' : Process barbersNum customersNum}

theorem rank_le (h : s.Sound customersShopMax) :
    s.rank ≤ 20 * customersNum + 6 * barbersNum + 1 := by
  have hops := h.traced.length_le.1
  have hlife : ∑ i, (s.life i).rank ≤ #(univ : Finset (Thread barbersNum customersNum)) • 2 :=
    sum_le_card_nsmul _ _ 2 fun i _ => by cases s.life i <;> decide
  rw [card_univ, Fintype.card_sum, Fintype.card_fin, Fintype.card_fin, smul_eq_mul] at hlife
  rw [rank]
  omega

theorem length_calls_le (h : s.Sound customersShopMax) :
    s.calls.length ≤ 3 * barbersNum + 2 * customersNum + 1 :=
  length_mainCalls ▸ h.calls.length_le

theorem rank_lt (h : s.Sound customersShopMax) (hcustomers : 0 < customersNum)
    (hstep : s.Step s') : s.rank < s'.rank := by
  have hlen := h.length_calls_le
  have hcall : ∀ {x calls}, s.calls = x :: calls →
      3 * barbersNum + 2 * customersNum + 1 - s.calls.length <
        3 * barbersNum + 2 * customersNum + 1 - calls.length := fun hcalls => by
    rw [hcalls, List.length_cons] at hlen ⊢
    omega
  cases hstep with
  | @create i calls hcalls =>
    have hi : s.life i = .unborn := (h.unborn i).mpr (hcalls ▸ List.mem_cons_self)
    have hlife : ∀ j, (Function.update s.life i .created j).rank = (s.life j).rank := fun j => by
      rcases eq_or_ne j i with rfl | hne
      · rw [Function.update_self, hi]
        rfl
      · rw [Function.update_of_ne hne]
    simp only [rank, hlife]
    exact Nat.add_lt_add_left (hcall hcalls) _
  | join hcalls => exact Nat.add_lt_add_left (hcall hcalls) _
  | kill hcalls => exact Nat.add_lt_add_left (hcall hcalls) _
  | destroy hcalls => exact Nat.add_lt_add_left (hcall hcalls) _
  | @start i hi =>
    have hlt : (s.life i).rank < Life.running.rank := by rw [hi]; decide
    exact Nat.add_lt_add_right (Nat.add_lt_add_left (sum_rank_lt hlt) _) _
  | operate =>
    exact Nat.add_lt_add_right (Nat.add_lt_add_right (Nat.lt_succ_self _) _) _
  | exit hk =>
    exact Nat.add_lt_add_right (Nat.add_lt_add_left (sum_rank_lt (by rw [hk]; decide)) _) _
  | quit _ hlife =>
    refine Nat.add_lt_add_right (Nat.add_lt_add_left (sum_rank_lt ?_) _) _
    rcases hlife with hlife | hlife <;> rw [hlife] <;> decide
  | die hb _ hhandler =>
    rw [h.handler_of_signalled hcustomers hb] at hhandler
    cases hhandler

/-! #### The program goes on -/

/-- When all threads are running or gone, no barber is gone, and no operation is possible, all
customers have left. -/
theorem hasLeft_of_stuck (h : s.Sound customersShopMax) (hbarbers : 1 ≤ barbersNum)
    (hmax : 1 ≤ customersShopMax) (hlife : ∀ i, s.life i = .running ∨ s.life i = .exited)
    (hnone : ∀ b, s.life (.inl b) ≠ .exited) (hstuck : ∀ i, s.operate i = none)
    (k : Fin customersNum) : HasLeft s.shop k := by
  have hblocked : Blocked s.shop := fun i c' hadv => by
    obtain ⟨op, hop, hen, -⟩ := hadv
    obtain hi | hi := hlife i
    · have hi' := hstuck i
      rw [Process.operate, if_pos hi, hop] at hi'
      dsimp only at hi'
      rw [if_pos hen] at hi'
      cases hi'
    · cases i with
      | inl b => exact hnone b hi
      | inr j =>
        have hj : s.shop.pc (.inr j) = 9 := h.customer j hi
        rw [hj] at hop
        cases hop
  exact (hblocked.closed h.traced.reachable hbarbers hmax).1 k

/-- When a join is next, all threads have been created. -/
theorem ne_unborn_of_join (h : s.Sound customersShopMax) {i : Thread barbersNum customersNum}
    {calls : List (MainCall barbersNum customersNum)} (hcalls : s.calls = pthreadJoin i :: calls)
    (j : Thread barbersNum customersNum) : s.life j ≠ .unborn := fun hj => by
  have hmem := (h.unborn j).mp hj
  rw [hcalls, mem_iff_place_le (hcalls ▸ h.calls)] at hmem
  cases i <;> cases j <;> simp only [place] at hmem <;> omega

/-- `main` gets past a join. -/
theorem exists_step_of_join (h : s.Sound customersShopMax) (hbarbers : 1 ≤ barbersNum)
    (hmax : 1 ≤ customersShopMax) {i : Thread barbersNum customersNum}
    {calls : List (MainCall barbersNum customersNum)} (hcalls : s.calls = pthreadJoin i :: calls) :
    ∃ a s', s.next a = some s' := by
  by_contra hnone
  have hstuck : ∀ a, s.next a = none := fun a =>
    Option.eq_none_iff_forall_ne_some.mpr fun s' hs' => hnone ⟨a, s', hs'⟩
  simp only [Process.next, h.killed, Bool.false_eq_true, if_false] at hstuck
  have hjoin : s.life i ≠ .exited := fun hi => by
    have hcall := hstuck .main
    simp only [call, hcalls, if_pos hi] at hcall
    cases hcall
  have hlife : ∀ j, s.life j = .running ∨ s.life j = .exited := fun j => by
    have hstart := hstuck (.start j)
    have hborn := h.ne_unborn_of_join hcalls j
    cases hj : s.life j with
    | unborn => exact absurd hj hborn
    | created =>
      simp only [start, if_pos hj] at hstart
      cases hstart
    | running => exact .inl rfl
    | exited => exact .inr rfl
  have hrunning : s.life i = .running := (hlife i).resolve_right hjoin
  have hkill : ∀ b, pthreadKill b ∈ s.calls ↔ (pthreadJoin i).place ≤ (pthreadKill b).place :=
    fun b => by rw [hcalls, mem_iff_place_le (hcalls ▸ h.calls)]
  cases i with
  | inl b =>
    -- the signal has been sent, so it can be delivered
    have hb : s.signalled b = true := (h.signalled b).mpr fun hmem => by
      have hle := (hkill b).mp hmem
      simp only [place] at hle
      omega
    have hdeliver := hstuck (.deliver b)
    simp only [deliver, hb, hrunning, or_true, and_true, if_true] at hdeliver
    split_ifs at hdeliver
  | inr k =>
    -- no signal has been sent, so all barbers are there, and the customer gets to its end
    have hbarber : ∀ b, s.life (.inl b) ≠ .exited := fun b hb => by
      refine (h.signalled b).mp (h.barber b hb) ((hkill b).mpr ?_)
      simp only [place]
      omega
    have hleft := h.hasLeft_of_stuck hbarbers hmax hlife hbarber (fun j => hstuck (.operate j)) k
    have hexit := hstuck (.exit k)
    simp only [exit, hrunning, hleft, and_true, if_true] at hexit
    cases hexit

/-- **The program goes on** until `main` returns. -/
theorem exists_step (h : s.Sound customersShopMax) (hbarbers : 1 ≤ barbersNum)
    (hmax : 1 ≤ customersShopMax) (hcalls : s.calls ≠ []) : ∃ a s', s.next a = some s' := by
  have hmain : s.call ≠ none → ∃ a s', s.next a = some s' := fun hcall => by
    obtain ⟨s', hs'⟩ := Option.ne_none_iff_exists'.mp hcall
    refine ⟨.main, s', ?_⟩
    unfold Process.next
    rw [h.killed, if_neg Bool.false_ne_true, hs']
  cases hnext : s.calls with
  | nil => exact absurd hnext hcalls
  | cons x calls =>
    cases x with
    | pthreadCreate i => exact hmain (by simp [call, hnext])
    | pthreadJoin i => exact h.exists_step_of_join hbarbers hmax hnext
    | pthreadKill b => exact hmain (by simp [call, hnext])
    | destroy => exact hmain (by simp [call, hnext])

/-- From `destroy` on all threads are gone. -/
theorem exited (h : s.Sound customersShopMax) (hcalls : s.calls <:+ [.destroy])
    (i : Thread barbersNum customersNum) : s.life i = .exited := by
  refine h.joined i fun hi => ?_
  have hmem := hcalls.subset hi
  simp at hmem

/-- After `main` has returned nothing happens any more. -/
theorem next_eq_none (h : s.Sound customersShopMax) (hcalls : s.calls = [])
    (a : ShopAction barbersNum customersNum) : s.next a = none := by
  have hexited := h.exited (hcalls ▸ List.nil_suffix)
  refine Option.eq_none_iff_forall_ne_some.mpr fun s' hnext => ?_
  cases step_of_next hnext with
  | create hcreate => cases hcalls.symm.trans hcreate
  | join hjoin => cases hcalls.symm.trans hjoin
  | kill hkill => cases hcalls.symm.trans hkill
  | destroy hdestroy => cases hcalls.symm.trans hdestroy
  | start hi => cases (hexited _).symm.trans hi
  | operate hi => cases (hexited _).symm.trans hi
  | exit hk => cases (hexited _).symm.trans hk
  | quit _ hlife | die _ hlife =>
    rcases hlife with hlife | hlife <;> cases (hexited _).symm.trans hlife

end Process.Sound

/-- **`main` returns.** Let the shop have room for a customer, and let every `pthread_create` start
its thread. In every run of a program that gets past `shop_create`, the operations of the threads
are a run of the shop, `SIGQUIT` never kills the process, and when the semaphores are destroyed all
threads are gone. A run has at most 20 steps for each customer, 6 for each barber and one more,
failing `sem_trywait`s not counted; it cannot go on if and only if `main` has returned, and until
then it can be continued. -/
theorem shopMain_returns (hmax : 1 ≤ customersShopMax) {s₀ s : Process barbersNum customersNum}
    {acts : List (ShopAction barbersNum customersNum)}
    (hmain : shopMain barbersNum customersNum customersShopMax = some s₀)
    (h : Trace (ofFunction Process.next) free s₀ acts s) :
    ShopTraced customersShopMax s.ops s.shop ∧ s.killed = false ∧
      (s.calls <:+ [destroy] → ∀ i, s.life i = .exited) ∧
      acts.length ≤ 20 * customersNum + 6 * barbersNum + 1 ∧
      ((∀ a, s.next a = none) ↔ s.calls = []) ∧
      ∃ acts' s', Trace (ofFunction Process.next) free s₀ (acts ++ acts') s' ∧ s'.calls = [] := by
  obtain ⟨hbarbers, hcustomers, hsound₀⟩ := sound_shopMain hmain
  have hstep : ∀ {s s' : Process barbersNum customersNum} {a}, s.Sound customersShopMax →
      free s a → ofFunction Process.next s a s' → s'.Sound customersShopMax := fun hs _ hnext =>
    hs.step hcustomers (Process.step_of_next hnext)
  have hsound := h.invariant (p := fun _ s => s.Sound customersShopMax) hsound₀ hstep
  have hprogress : ∀ {s : Process barbersNum customersNum}, s.Sound customersShopMax →
      ¬s.calls = [] → ∃ a s', free s a ∧ ofFunction Process.next s a s' := fun hs hcalls => by
    obtain ⟨a, s', hnext⟩ := hs.exists_step hbarbers hmax hcalls
    exact ⟨a, s', trivial, hnext⟩
  obtain ⟨hlen, hend⟩ := h.exists_done Process.rank Process.Sound.rank_le hsound₀ hstep
    (fun hs hnext => hs.rank_lt hcustomers (Process.step_of_next hnext)) hprogress
  refine ⟨hsound.traced, hsound.killed, hsound.exited, hlen,
    ⟨fun hstuck => ?_, hsound.next_eq_none⟩, hend⟩
  by_contra hcalls
  obtain ⟨a, s', hnext⟩ := hsound.exists_step hbarbers hmax hcalls
  exact absurd ((hstuck a).symm.trans hnext) (Option.some_ne_none s').symm

/-- The program of the source. -/
theorem shopMain_returns_main : ∃ (s₀ : Process 4 40) (acts : List (ShopAction 4 40))
    (s : Process 4 40), shopMain 4 40 20 = some s₀ ∧
      Trace (ofFunction Process.next) free s₀ acts s ∧ s.calls = [] := by
  obtain ⟨s₀, hmain⟩ : ∃ s₀, shopMain 4 40 20 = some s₀ := ⟨_, rfl⟩
  obtain ⟨acts, s, htrace, hcalls⟩ :=
    (shopMain_returns (by decide) hmain (.nil : Trace _ _ s₀ [] s₀)).2.2.2.2.2
  exact ⟨s₀, _, s, hmain, htrace, hcalls⟩

end TikFachpraktika.Barbershop
