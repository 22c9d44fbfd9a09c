import TikFachpraktika.Semaphore.System

/-!
# The barbershop threads

`barber_main` and `customer_main` of `2_threads/barbershop.c` as thread programs over the eight
semaphores of `struct shop`, in the order of the source. A barber loops, a customer runs once;
the customer's `while (-1 == sem_trywait(..))` is one `tryWait`, whose failing rounds leave the
state as it is.

## Main definitions

* `Sem`: the semaphores of `struct shop`.
* `barberMain`, `customerMain`: the two thread programs.
* `shopCreate`: the counters as `shop_create` initialises them, all threads at their start.
* `ShopReachable`: the states of a shop under any interleaving of its threads.
-/

namespace TikFachpraktika.Barbershop

open Semaphore

/-- The semaphores of `struct shop`. -/
inductive Sem
  | customersInShop
  | customersOnSofa
  | cashdesk
  | cutCustomerReady
  | cutBarberReady
  | cutDone
  | payCustomerReady
  | payBarberReady
  deriving DecidableEq

open Sem Op

instance : Fintype Sem where
  elems := {customersInShop, customersOnSofa, cashdesk, cutCustomerReady, cutBarberReady, cutDone,
    payCustomerReady, payBarberReady}
  complete s := by cases s <;> decide

/-- `barber_main`. -/
def barberMain : Code Sem where
  body := [post cutBarberReady, wait cutCustomerReady, post cutDone, wait cashdesk,
    post payBarberReady, wait payCustomerReady, post cashdesk]
  loops := true

/-- `customer_main`. -/
def customerMain : Code Sem where
  body := [tryWait customersInShop, wait customersOnSofa, post cutCustomerReady,
    wait cutBarberReady, post customersOnSofa, wait cutDone, post payCustomerReady,
    wait payBarberReady, post customersInShop]
  loops := false

variable {barbersNum customersNum : ℕ}

/-- The threads of a shop: its barbers and its customers. -/
abbrev Thread (barbersNum customersNum : ℕ) := Fin barbersNum ⊕ Fin customersNum

/-- The program that `shop_run` starts for each thread. -/
def program : Thread barbersNum customersNum → Code Sem
  | .inl _ => barberMain
  | .inr _ => customerMain

/-- The shop after `shop_create`, all threads at their first operation. -/
def shopCreate (barbersNum customersNum customersShopMax : ℕ) :
    Config (Thread barbersNum customersNum) Sem where
  pc _ := 0
  value
    | customersInShop => customersShopMax
    | customersOnSofa => 4
    | cashdesk => 1
    | cutCustomerReady | cutBarberReady | cutDone | payCustomerReady | payBarberReady => 0

/-- The states that a shop reaches under any interleaving of its threads. -/
def ShopReachable (customersShopMax : ℕ) (c : Config (Thread barbersNum customersNum) Sem) :
    Prop :=
  Reachable program (shopCreate barbersNum customersNum customersShopMax) c

/-- The program counter of a barber. -/
def barberPc (c : Config (Thread barbersNum customersNum) Sem) (b : Fin barbersNum) : ℕ :=
  c.pc (.inl b)

/-- The program counter of a customer. -/
def customerPc (c : Config (Thread barbersNum customersNum) Sem) (k : Fin customersNum) : ℕ :=
  c.pc (.inr k)

/-- A customer has left the shop once it is past its final `sem_post` of `customers_in_shop`. -/
def HasLeft (c : Config (Thread barbersNum customersNum) Sem) (k : Fin customersNum) : Prop :=
  customerPc c k = 9

/-- The customers between their successful `sem_trywait` and their final `sem_post` of
`customers_in_shop`. -/
def inShop (c : Config (Thread barbersNum customersNum) Sem) : Finset (Fin customersNum) :=
  {k | customerPc c k ∈ Finset.Ico 1 9}

/-- The customers between `sem_wait` and `sem_post` of `customers_on_sofa`. -/
def onSofa (c : Config (Thread barbersNum customersNum) Sem) : Finset (Fin customersNum) :=
  {k | customerPc c k ∈ Finset.Ico 2 5}

/-- The customers past `sem_wait(cut_barber_ready)` and not yet past `sem_wait(cut_done)`. -/
def inChair (c : Config (Thread barbersNum customersNum) Sem) : Finset (Fin customersNum) :=
  {k | customerPc c k ∈ Finset.Ico 4 6}

/-- The barbers between `sem_wait` and `sem_post` of `cashdesk`. -/
def atCashdesk (c : Config (Thread barbersNum customersNum) Sem) : Finset (Fin barbersNum) :=
  {b | barberPc c b ∈ Finset.Ico 4 7}

end TikFachpraktika.Barbershop
