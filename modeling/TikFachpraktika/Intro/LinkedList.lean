import Mathlib.Data.Int.Notation
import Mathlib.Logic.Function.Basic
import Mathlib.Tactic.SplitIfs
import TikFachpraktika.Chain.Ring
import TikFachpraktika.Logged.Run
import TikFachpraktika.Posix.Bytes

/-!
# The circular list

`init_list` of `1_intro/linked_list.c` allocates the elements one by one, links each to the one
before it and the last one to the first. `traverse_list` and `clean_list` walk through the ring and
stop where the next pointer is the first one again, which `clean_list` has freed by then.

## Main definitions

* `Heap`, `Malloc`: the elements in memory, and the addresses that `malloc` gives.
* `initList`, `traverseList`, `cleanList`: the three functions.
* `Built`: the elements after some rounds of the loop of `initList`.

## Main results

* `built_of_first`, `built_of_later`: one round of the loop adds one element.
* `traverseRound_spec`, `cleanLoop_spec`: a walk through what is left of a ring.
* `life_cycle`: the ring that is made, traversed and freed.
-/

namespace TikFachpraktika.Intro.LinkedList

open Posix

/-- `struct elem`; `next` is an address, and `0` is the null pointer. -/
structure Elem where
  pos : ℤ
  next : ℕ

/-- The elements in allocated memory. -/
abbrev Heap := ℕ → Option Elem

/-- What ends the program, apart from a return: a call of `panic`, the use of an address where no
element is, freeing such an address, a counter of type `int` that is increased beyond its range.
A walk that has not come to its end after the given number of rounds is `hang`. -/
inductive Fault
  | panic (serror : String)
  | badPointer
  | badFree
  | overflow
  | hang

/-- The blocks that the calls of `malloc` give, one after the other, for a heap: their addresses
are neither null nor in use, and their contents are arbitrary. -/
structure Malloc (heap : Heap) where
  block : ℕ → Option ℕ
  contents : ℕ → Elem
  ne_null {i a : ℕ} : block i = some a → a ≠ 0
  unused {i a : ℕ} : block i = some a → heap a = none
  distinct {i j a : ℕ} : block i = some a → block j = some a → i = j

/-! ### Memory -/

/-- Reading the element behind a pointer. -/
def load (heap : Heap) (ptr : ℕ) : Except Fault Elem :=
  if ptr = 0 then throw .badPointer
  else match heap ptr with
    | some e => pure e
    | none => throw .badPointer

/-- Storing into the element behind a pointer. -/
def store (heap : Heap) (ptr : ℕ) (field : Elem → Elem) : Except Fault Heap := do
  let e ← load heap ptr
  pure (Function.update heap ptr (some (field e)))

/-- `sizeof(struct elem)`. -/
def sizeofElem : ℕ := 16

/-- `xmalloc`, for the call with the given number. -/
def xmalloc {heap₀ : Heap} (malloc : Malloc heap₀) (heap : Heap) (i size : ℕ) :
    Except Fault (ℕ × Heap) :=
  if size = 0 then throw (.panic "Size is 0!\n")
  else match malloc.block i with
    | none => throw (.panic "No mem left!\n")
    | some ptr => pure (ptr, Function.update heap ptr (some (malloc.contents i)))

/-- `xfree`. -/
def xfree (heap : Heap) (ptr : ℕ) : Except Fault Heap :=
  if ptr = 0 then throw (.panic "Got Null-Pointer!\n")
  else if (heap ptr).isNone then throw .badFree
  else pure (Function.update heap ptr none)

/-! ### The functions -/

/-- The variables of `init_list`, and the heap. -/
structure Init where
  first : ℕ
  prev : ℕ
  head : ℕ
  heap : Heap

/-- One round of the loop of `init_list`. -/
def initStep {heap₀ : Heap} (malloc : Malloc heap₀) (s : Init) (i : ℕ) : Except Fault Init := do
  let (head, heap) ← xmalloc malloc s.heap i sizeofElem
  let first := if s.first = 0 then head else s.first
  let heap ← if s.prev ≠ 0 then store heap s.prev fun e => { e with next := head } else pure heap
  if i + 1 < 2 ^ 31 then do
    let heap ← store heap head fun e => { e with pos := i + 1 }
    pure ⟨first, head, head, heap⟩
  else throw .overflow

/-- `init_list`: the pointer that it returns, and the heap. -/
def initList {heap : Heap} (malloc : Malloc heap) (len : ℕ) : Except Fault (ℕ × Heap) := do
  let s ← (List.range len).foldlM (initStep malloc) ⟨0, 0, 0, heap⟩
  let heap ← store s.heap s.head fun e => { e with next := s.first }
  pure (s.first, heap)

/-- The inner loop of `traverse_list`; the log has the address of each element and the position
that is printed. -/
def traverseRound (heap : Heap) (first : ℕ) : ℕ → ℕ → Logged (ℕ × ℤ) Fault Heap
  | 0, _ => Logged.lift (throw .hang)
  | fuel + 1, tip => do
    let e ← Logged.lift (load heap tip)
    Logged.tell [(tip, e.pos)]
    if first ≠ e.next then traverseRound heap first fuel e.next else pure heap

/-- `traverse_list`, with a bound on the rounds of its inner loop. -/
def traverseList (heap : Heap) (head : ℕ) (times : ℤ) (fuel : ℕ) : Logged (ℕ × ℤ) Fault Heap :=
  (List.range times.toNat).foldlM (fun heap _ => traverseRound heap head fuel head) heap

/-- Reading an element, and freeing it. -/
inductive Use
  | read (ptr : ℕ)
  | free (ptr : ℕ)
  deriving DecidableEq

/-- The loop of `clean_list`. -/
def cleanLoop (first : ℕ) : ℕ → Heap → ℕ → Logged Use Fault Heap
  | 0, _, _ => Logged.lift (throw .hang)
  | fuel + 1, heap, head => do
    Logged.tell [.read head]
    let e ← Logged.lift (load heap head)
    Logged.tell [.free head]
    let heap ← Logged.lift (xfree heap head)
    if e.next ≠ first then cleanLoop first fuel heap e.next else pure heap

/-- `clean_list`, with a bound on the rounds of its loop. -/
def cleanList (heap : Heap) (head fuel : ℕ) : Logged Use Fault Heap :=
  cleanLoop head fuel heap head

/-! ### Rules for memory -/

/-- The address behind an element. -/
def nextOf (heap : Heap) (a : ℕ) : Option ℕ :=
  (heap a).map Elem.next

/-- The position of an element. -/
def posOf (heap : Heap) (a : ℕ) : Option ℤ :=
  (heap a).map Elem.pos

section Memory

variable {heap : Heap} {a : ℕ} {e : Elem}

theorem load_of_some (h0 : a ≠ 0) (h : heap a = some e) : load heap a = .ok e := by
  rw [load, if_neg h0, h]
  rfl

theorem store_of_some (h0 : a ≠ 0) (h : heap a = some e) (field : Elem → Elem) :
    store heap a field = .ok (Function.update heap a (some (field e))) := by
  rw [store, load_of_some h0 h]
  rfl

theorem xfree_of_some (h0 : a ≠ 0) (h : heap a = some e) :
    xfree heap a = .ok (Function.update heap a none) := by
  rw [xfree, if_neg h0, h]
  rfl

end Memory

/-! ### The loop of `init_list` -/

section Init

variable {heap : Heap} (malloc : Malloc heap)

/-- After `i` rounds of the loop the elements are those that `malloc` has given: each leads to the
one behind it, their positions count from `1` on, and other addresses are as before. -/
structure Built (i : ℕ) (cells : List ℕ) (last : ℕ) (s : Init) : Prop where
  blocks : (cells ++ [last]).map some = (List.range i).map malloc.block
  prev_eq : s.prev = last
  head_eq : s.head = last
  first_ne : s.first ≠ 0
  chain : Chain (nextOf s.heap) s.first cells last
  allocated : ∃ e, s.heap last = some e
  pos : (cells ++ [last]).map (posOf s.heap) = (List.range i).map fun k : ℕ => some ((k : ℤ) + 1)
  frame : ∀ a ∉ cells ++ [last], s.heap a = heap a

variable {malloc} {i : ℕ} {cells : List ℕ} {a : ℕ}

/-- An element that has been allocated comes from one of the calls. -/
theorem exists_block (hblocks : cells.map some = (List.range i).map malloc.block)
    (ha : a ∈ cells) : ∃ k < i, malloc.block k = some a := by
  have hmem := List.mem_map_of_mem (f := some) ha
  rw [hblocks, List.mem_map] at hmem
  obtain ⟨k, hk, hblock⟩ := hmem
  exact ⟨k, List.mem_range.mp hk, hblock⟩

/-- The elements are distinct. -/
theorem nodup_of_blocks (hblocks : cells.map some = (List.range i).map malloc.block) :
    cells.Nodup := by
  refine List.Nodup.of_map some ?_
  rw [hblocks]
  refine List.Nodup.map_on (fun j hj k _ hjk => ?_) List.nodup_range
  have hmem := List.mem_map_of_mem (f := malloc.block) hj
  rw [← hblocks, List.mem_map] at hmem
  obtain ⟨b, -, hb⟩ := hmem
  exact malloc.distinct hb.symm (hjk.symm.trans hb.symm)

/-- The next block is none of the elements. -/
theorem notMem_of_block (hblocks : cells.map some = (List.range i).map malloc.block)
    (ha : malloc.block i = some a) : a ∉ cells := by
  intro hmem
  obtain ⟨k, hk, hblock⟩ := exists_block hblocks hmem
  exact Nat.ne_of_lt hk (malloc.distinct hblock ha)

/-- The last element is none of those before it, and its address is not null. -/
theorem Built.last_notMem {last : ℕ} {s : Init} (h : Built malloc i cells last s) :
    last ∉ cells := fun hmem =>
  (List.nodup_append.mp (nodup_of_blocks h.blocks)).2.2 last hmem last
    (List.mem_singleton_self last) rfl

theorem Built.last_ne_null {last : ℕ} {s : Init} (h : Built malloc i cells last s) : last ≠ 0 := by
  obtain ⟨k, -, hlast⟩ := exists_block h.blocks List.mem_concat_self
  exact malloc.ne_null hlast

/-- A call of `malloc` without a block ends the program. -/
theorem initStep_of_none {s : Init} (h : malloc.block i = none) :
    initStep malloc s i = .error (.panic "No mem left!\n") := by
  rw [initStep, xmalloc, if_neg (by decide), h]
  rfl

/-- **The first round** makes one element, which has no other one before it. -/
theorem built_of_first (ha : malloc.block 0 = some a) :
    ∃ s, initStep malloc ⟨0, 0, 0, heap⟩ 0 = .ok s ∧ Built malloc 1 [] a s := by
  have ha0 := malloc.ne_null ha
  refine ⟨⟨a, a, a, Function.update (Function.update heap a (some (malloc.contents 0))) a
    (some { malloc.contents 0 with pos := (0 : ℕ) + 1 })⟩, ?_, ?_⟩
  · rw [initStep, xmalloc, if_neg (by decide), ha]
    show (store (Function.update heap a (some (malloc.contents 0))) a
      fun e => { e with pos := (0 : ℕ) + 1 }) >>= _ = _
    rw [store_of_some ha0 (Function.update_self a _ heap)]
    rfl
  · refine ⟨by simpa using ha.symm, rfl, rfl, ha0, rfl, ⟨_, Function.update_self ..⟩, ?_,
      fun b hb => ?_⟩
    · simp [posOf]
    · have hba : b ≠ a := fun h => hb (List.mem_singleton.mpr h)
      show Function.update (Function.update heap a _) a _ b = heap b
      rw [Function.update_of_ne hba, Function.update_of_ne hba]

/-- What a later round does: the new element is linked to the one before it. -/
theorem initStep_of_some {s : Init} {e : Elem} (ha : malloc.block i = some a)
    (hprev0 : s.prev ≠ 0) (hfirst0 : s.first ≠ 0) (hprev : s.heap s.prev = some e)
    (hne : a ≠ s.prev) (hi : i + 1 < 2 ^ 31) :
    ∃ heap', initStep malloc s i = .ok ⟨s.first, a, a, heap'⟩ ∧
      heap' a = some { malloc.contents i with pos := i + 1 } ∧
      heap' s.prev = some { e with next := a } ∧
      ∀ b, b ≠ a → b ≠ s.prev → heap' b = s.heap b := by
  have hlast : Function.update s.heap a (some (malloc.contents i)) s.prev = some e := by
    rw [Function.update_of_ne hne.symm, hprev]
  have hnew : Function.update (Function.update s.heap a (some (malloc.contents i))) s.prev
      (some { e with next := a }) a = some (malloc.contents i) := by
    rw [Function.update_of_ne hne, Function.update_self]
  refine ⟨Function.update (Function.update (Function.update s.heap a (some (malloc.contents i)))
    s.prev (some { e with next := a })) a (some { malloc.contents i with pos := i + 1 }),
    ?_, ?_, ?_, ?_⟩
  · rw [initStep, xmalloc, if_neg (by decide), ha]
    show (do
      let heap ← if s.prev ≠ 0 then store _ s.prev _ else pure _
      _ : Except Fault Init) = _
    rw [if_pos hprev0, store_of_some hprev0 hlast]
    show (if i + 1 < 2 ^ 31 then _ else _ : Except Fault Init) = _
    rw [if_pos hi, store_of_some (malloc.ne_null ha) hnew, if_neg hfirst0]
    rfl
  · rw [Function.update_self]
  · rw [Function.update_of_ne hne.symm, Function.update_self]
  · intro b hba hbp
    rw [Function.update_of_ne hba, Function.update_of_ne hbp, Function.update_of_ne hba]

/-- **A later round** adds one element at the end. -/
theorem built_of_later {last : ℕ} {s : Init} (h : Built malloc i cells last s)
    (ha : malloc.block i = some a) (hi : i + 1 < 2 ^ 31) :
    ∃ s', initStep malloc s i = .ok s' ∧ Built malloc (i + 1) (cells ++ [last]) a s' := by
  obtain ⟨e, he⟩ := h.allocated
  have hnotMem := notMem_of_block h.blocks ha
  have hnotLast := h.last_notMem
  have hne : a ≠ last := (ne_of_mem_of_not_mem List.mem_concat_self hnotMem).symm
  rw [← h.prev_eq] at he
  obtain ⟨heap', hstep, hnew, hlinked, hsame⟩ := initStep_of_some ha
    (h.prev_eq ▸ h.last_ne_null) h.first_ne he (h.prev_eq ▸ hne) hi
  rw [h.prev_eq] at hlinked hsame
  refine ⟨_, hstep, ?_, rfl, rfl, h.first_ne, ?_, ⟨_, hnew⟩, ?_, fun b hb => ?_⟩
  · rw [List.map_append, h.blocks, List.range_succ, List.map_append, List.map_singleton,
      List.map_singleton, ha]
  · refine Chain.snoc ?_ (Chain.congr (fun c hc => ?_) h.chain)
    · show (heap' last).map Elem.next = some a
      rw [hlinked]
      rfl
    · exact congrArg (Option.map Elem.next) (hsame c
        (ne_of_mem_of_not_mem (List.mem_append_left _ hc) hnotMem)
        (ne_of_mem_of_not_mem hc hnotLast)).symm
  · rw [List.range_succ]
    refine (List.map_append ..).trans (Eq.trans ?_ (List.map_append ..).symm)
    rw [← h.pos]
    refine congrArg₂ _ (List.map_congr_left fun c hc => ?_) (congrArg ([·]) ?_)
    · show (heap' c).map Elem.pos = (s.heap c).map Elem.pos
      -- linking the last element leaves its position alone
      by_cases hcl : c = last
      · rw [hcl, hlinked, ← h.prev_eq, he]
        rfl
      · rw [hsame c (ne_of_mem_of_not_mem hc hnotMem) hcl]
    · show (heap' a).map Elem.pos = some ((i : ℤ) + 1)
      rw [hnew]
      rfl
  · have hbcells : b ∉ cells ++ [last] := fun hmem => hb (List.mem_append_left _ hmem)
    exact (hsame b (ne_of_mem_of_not_mem List.mem_concat_self hb).symm
      (ne_of_mem_of_not_mem List.mem_concat_self hbcells).symm).trans (h.frame b hbcells)

/-- **Run lemma.** After `n + 1` rounds the elements are there, unless one of the calls of `malloc`
has given no block; then the program has ended. -/
theorem built_of_foldlM : (n : ℕ) → n + 1 < 2 ^ 31 →
    ((∃ i < n + 1, malloc.block i = none) ∧
        (List.range (n + 1)).foldlM (initStep malloc) ⟨0, 0, 0, heap⟩ =
          .error (.panic "No mem left!\n")) ∨
      ∃ cells last s, (List.range (n + 1)).foldlM (initStep malloc) ⟨0, 0, 0, heap⟩ = .ok s ∧
        Built malloc (n + 1) cells last s
  | 0, _ => by
      rw [List.range_one, List.foldlM_cons]
      cases ha : malloc.block 0 with
      | none =>
        rw [initStep_of_none ha]
        exact .inl ⟨⟨0, Nat.zero_lt_one, ha⟩, rfl⟩
      | some a =>
        obtain ⟨s, hs, hbuilt⟩ := built_of_first ha
        rw [hs]
        exact .inr ⟨[], a, s, rfl, hbuilt⟩
  | n + 1, hn => by
      rw [List.range_succ, List.foldlM_append]
      obtain ⟨⟨i, hi, hnone⟩, herr⟩ | ⟨cells, last, s, hs, hbuilt⟩ :=
        built_of_foldlM n (Nat.lt_of_succ_lt hn)
      · rw [herr]
        exact .inl ⟨⟨i, Nat.lt_succ_of_lt hi, hnone⟩, rfl⟩
      · rw [hs]
        simp only [ok_bind, List.foldlM_cons, List.foldlM_nil]
        cases ha : malloc.block (n + 1) with
        | none =>
          rw [initStep_of_none ha]
          exact .inl ⟨⟨n + 1, Nat.lt_succ_self _, ha⟩, rfl⟩
        | some a =>
          obtain ⟨s', hs', hbuilt'⟩ := built_of_later hbuilt ha hn
          rw [hs']
          exact .inr ⟨_, a, s', rfl, hbuilt'⟩

end Init

/-! ### The ring -/

/-- The positions in a list of some length. -/
def positions (len : ℕ) : List ℤ :=
  (List.range len).map fun k : ℕ => (k : ℤ) + 1

/-- What `init_list` has made of a heap: a ring of new elements whose positions are `1` to `len` in
the order of their next pointers, and nothing else has changed. -/
structure IsCircular (heap heap' : Heap) (len first : ℕ) (cells : List ℕ) : Prop where
  ring : IsRing (nextOf heap') first cells
  pos : cells.map (posOf heap') = (positions len).map some
  new : ∀ a ∈ cells, a ≠ 0 ∧ heap a = none
  frame : ∀ a ∉ cells, heap' a = heap a

/-- The ring has as many elements as `init_list` is asked for. -/
theorem IsCircular.length_eq {heap heap' : Heap} {len first : ℕ} {cells : List ℕ}
    (h : IsCircular heap heap' len first cells) : cells.length = len := by
  have hlen := congrArg List.length h.pos
  rwa [List.length_map, List.length_map, positions, List.length_map, List.length_range] at hlen

/-- **The last element is linked to the first one.** -/
theorem isCircular_of_built {heap : Heap} {malloc : Malloc heap} {len last : ℕ} {cells : List ℕ}
    {s : Init} (h : Built malloc len cells last s) :
    ∃ heap', store s.heap s.head (fun e => { e with next := s.first }) = .ok heap' ∧
      IsCircular heap heap' len s.first (cells ++ [last]) := by
  obtain ⟨e, he⟩ := h.allocated
  have hnotLast := h.last_notMem
  rw [h.head_eq]
  refine ⟨_, store_of_some h.last_ne_null he _,
    ⟨nodup_of_blocks h.blocks, List.append_ne_nil_of_right_ne_nil _ (List.cons_ne_nil last []),
      ?_⟩, ?_, fun a ha => ?_, fun a ha => ?_⟩
  · refine Chain.snoc ?_ (Chain.congr (fun c hc => ?_) h.chain)
    · rw [nextOf, Function.update_self]
      rfl
    · rw [nextOf, nextOf, Function.update_of_ne (ne_of_mem_of_not_mem hc hnotLast)]
  · rw [positions, List.map_map]
    refine Eq.trans (List.map_congr_left fun c _ => ?_) h.pos
    by_cases hcl : c = last
    · rw [hcl, posOf, posOf, Function.update_self, he]
      rfl
    · rw [posOf, posOf, Function.update_of_ne hcl]
  · obtain ⟨j, -, hblock⟩ := exists_block h.blocks ha
    exact ⟨malloc.ne_null hblock, malloc.unused hblock⟩
  · rw [Function.update_of_ne (ne_of_mem_of_not_mem List.mem_concat_self ha).symm, h.frame a ha]

/-- **What `init_list` returns**, unless one of its calls of `malloc` gives no block. -/
theorem initList_spec {heap : Heap} (malloc : Malloc heap) {len : ℕ} (h1 : 1 ≤ len)
    (hlen : len < 2 ^ 31) :
    ((∃ i < len, malloc.block i = none) ∧
        initList malloc len = .error (.panic "No mem left!\n")) ∨
      ∃ first cells heap', initList malloc len = .ok (first, heap') ∧
        IsCircular heap heap' len first cells := by
  obtain ⟨n, rfl⟩ := Nat.exists_eq_add_of_le' h1
  obtain ⟨hnone, herr⟩ | ⟨cells, last, s, hs, hbuilt⟩ := @built_of_foldlM _ malloc n hlen
  · rw [initList, herr]
    exact .inl ⟨hnone, rfl⟩
  · obtain ⟨heap', hstore, hcircular⟩ := isCircular_of_built hbuilt
    rw [initList, hs, ok_bind, hstore]
    exact .inr ⟨s.first, _, heap', rfl, hcircular⟩

/-! ### Walking through the ring -/

/-- **One round of the traversal**, from some element of the ring on. -/
theorem traverseRound_spec {heap : Heap} {first : ℕ} : {cells : List ℕ} → {ps : List ℤ} →
    {tip fuel : ℕ} → cells ≠ [] → Chain (nextOf heap) tip cells first → first ∉ cells.tail →
    (∀ a ∈ cells, a ≠ 0) → cells.map (posOf heap) = ps.map some → cells.length ≤ fuel →
    traverseRound heap first fuel tip = ⟨cells.zip ps, .ok heap⟩
  | c :: cs, [], _, _, _, _, _, _, hpos, _ => absurd hpos (List.cons_ne_nil _ _)
  | c :: cs, p :: ps, tip, fuel + 1, _, ⟨htip, n, hn, hchain⟩, hfirst, h0, hpos, hfuel => by
      obtain ⟨e, he, rfl⟩ := Option.map_eq_some_iff.mp hn
      obtain ⟨hp, hps⟩ := List.cons.inj hpos
      obtain rfl : e.pos = p := by
        rw [posOf, he] at hp
        exact Option.some.inj hp
      rw [traverseRound, htip, load_of_some (h0 c List.mem_cons_self) he, Logged.lift_ok_bind,
        Logged.tell_bind]
      by_cases hend : cs = []
      · rw [if_neg (not_not.mpr ((hchain.eq_end_iff hfirst).mpr hend).symm), hend]
        rfl
      · rw [if_pos fun h => hend ((hchain.eq_end_iff hfirst).mp h.symm),
          traverseRound_spec hend hchain (fun h => hfirst (List.mem_of_mem_tail h))
            (fun a ha => h0 a (List.mem_cons_of_mem c ha)) hps (Nat.le_of_succ_le_succ hfuel)]
        rfl

/-- What `clean_list` does to one element. -/
def uses (a : ℕ) : List Use :=
  [.read a, .free a]

/-- **The loop of `clean_list`**, from some element of the ring on: the elements that are left are
freed, although the first one is gone. -/
theorem cleanLoop_spec {first : ℕ} : {cells : List ℕ} → {heap : Heap} → {head fuel : ℕ} →
    cells ≠ [] → Chain (nextOf heap) head cells first → cells.Nodup → first ∉ cells.tail →
    (∀ a ∈ cells, a ≠ 0) → cells.length ≤ fuel →
    cleanLoop first fuel heap head =
      ⟨cells.flatMap uses, .ok fun a => if a ∈ cells then none else heap a⟩
  | c :: cs, heap, head, fuel + 1, _, ⟨hhead, n, hn, hchain⟩, hnodup, hfirst, h0, hfuel => by
      obtain ⟨e, he, rfl⟩ := Option.map_eq_some_iff.mp hn
      obtain ⟨hc, hcs⟩ := List.nodup_cons.mp hnodup
      have hc0 := h0 c List.mem_cons_self
      rw [cleanLoop, hhead, Logged.tell_bind, load_of_some hc0 he, Logged.lift_ok_bind,
        Logged.tell_bind, xfree_of_some hc0 he, Logged.lift_ok_bind]
      by_cases hend : cs = []
      · rw [if_neg (not_not.mpr ((hchain.eq_end_iff hfirst).mpr hend)), hend]
        refine congrArg (Logged.mk _) (congrArg Except.ok (funext fun a => ?_))
        rw [Function.update_apply]
        exact if_congr List.mem_singleton.symm rfl rfl
      · have hrest : Chain (nextOf (Function.update heap c none)) e.next cs first :=
          Chain.congr (fun d hd => by
            rw [nextOf, nextOf, Function.update_of_ne (ne_of_mem_of_not_mem hd hc)]) hchain
        rw [if_pos fun h => hend ((hchain.eq_end_iff hfirst).mp h),
          cleanLoop_spec hend hrest hcs (fun h => hfirst (List.mem_of_mem_tail h))
            (fun a ha => h0 a (List.mem_cons_of_mem c ha)) (Nat.le_of_succ_le_succ hfuel)]
        refine congrArg (Logged.mk _) (congrArg Except.ok (funext fun a => ?_))
        by_cases hac : a = c
        · rw [hac, Function.update_self, if_pos List.mem_cons_self, ite_self]
        · rw [Function.update_of_ne hac]
          exact if_congr (List.mem_cons.trans (or_iff_right hac)).symm rfl rfl

/-! ### What becomes of the ring -/

/-- Each of the cells is freed once, and nothing else is freed. -/
def FreesOnce (cells : List ℕ) (log : List Use) : Prop :=
  (∀ a ∈ cells, log.count (.free a) = 1) ∧ ∀ a, .free a ∈ log → a ∈ cells

/-- No element is read after it has been freed. -/
def NoReadAfterFree (log : List Use) : Prop :=
  log.Pairwise fun u v => ∀ a, u = .free a → v ≠ .read a

/-- Each cell of the list is freed as often as it occurs. -/
theorem count_free (a : ℕ) (cells : List ℕ) :
    (cells.flatMap uses).count (.free a) = cells.count a := by
  induction cells with
  | nil => rfl
  | cons c cells ih =>
    rw [List.flatMap_cons, List.count_append, ih, uses, List.count_cons, List.count_cons]
    by_cases hca : c = a
    · simp [hca, Nat.add_comm]
    · simp [hca]

theorem freesOnce_of_nodup {cells : List ℕ} (h : cells.Nodup) :
    FreesOnce cells (cells.flatMap uses) := by
  refine ⟨fun a ha => (count_free a cells).trans (List.count_eq_one_of_mem h ha), fun a ha => ?_⟩
  rw [← List.count_pos_iff, count_free a cells] at ha
  exact List.count_pos_iff.mp ha

theorem noReadAfterFree_of_nodup {cells : List ℕ} (h : cells.Nodup) :
    NoReadAfterFree (cells.flatMap uses) := by
  refine List.pairwise_flatMap.mpr ⟨fun c _ => ?_, h.imp fun {c d} hcd u hu v hv a hua hva => ?_⟩
  · simp [uses]
  · subst hua hva
    simp only [uses, List.mem_cons, List.not_mem_nil, or_false, reduceCtorEq, false_or,
      Use.free.injEq, Use.read.injEq] at hu hv
    exact hcd (hu.symm.trans hv)

/-- What is known of the first cell of a ring and of the cells behind it. -/
theorem IsCircular.first_notMem {heap heap' : Heap} {len first : ℕ} {cells : List ℕ}
    (h : IsCircular heap heap' len first cells) : first ∉ cells.tail := by
  obtain ⟨rest, rfl⟩ := h.ring.exists_eq_cons
  exact (List.nodup_cons.mp h.ring.nodup).1

/-- **The traversal** prints the positions in order, as often as it is asked to, and changes
nothing. -/
theorem traverseList_spec {heap heap' : Heap} {len first : ℕ} {cells : List ℕ}
    (h : IsCircular heap heap' len first cells) (times : ℤ) {fuel : ℕ} (hfuel : len ≤ fuel) :
    traverseList heap' first times fuel =
      ⟨(List.replicate times.toNat (cells.zip (positions len))).flatten, .ok heap'⟩ := by
  have hround : traverseRound heap' first fuel first =
      ⟨cells.zip (positions len), .ok heap'⟩ :=
    traverseRound_spec h.ring.ne_nil h.ring.chain h.first_notMem (fun a ha => (h.new a ha).1)
      h.pos (h.length_eq.trans_le hfuel)
  rw [traverseList]
  induction times.toNat with
  | zero => rfl
  | succ n ih =>
    rw [List.range_succ, List.foldlM_append, ih, List.replicate_succ', List.flatten_append,
      List.flatten_singleton]
    simp only [List.foldlM_cons, List.foldlM_nil, bind_pure]
    show Logged.mk (_ ++ (traverseRound heap' first fuel first).log)
      (traverseRound heap' first fuel first).result = _
    rw [hround]

/-- **The end of the ring**: the heap is what it was before the ring was made. -/
theorem cleanList_spec {heap heap' : Heap} {len first : ℕ} {cells : List ℕ}
    (h : IsCircular heap heap' len first cells) {fuel : ℕ} (hfuel : len ≤ fuel) :
    cleanList heap' first fuel = ⟨cells.flatMap uses, .ok heap⟩ := by
  rw [cleanList, cleanLoop_spec h.ring.ne_nil h.ring.chain h.ring.nodup h.first_notMem
    (fun a ha => (h.new a ha).1) (h.length_eq.trans_le hfuel)]
  refine congrArg (Logged.mk _) (congrArg Except.ok (funext fun a => ?_))
  by_cases ha : a ∈ cells
  · rw [if_pos ha, (h.new a ha).2]
  · rw [if_neg ha, h.frame a ha]

/-- **The life of a circular list.** For every length of type `int` from `1` on, every heap and all
blocks that `malloc` may give, `init_list` makes a ring with that many elements, unless a call of
`malloc` gives no block and ends the program. A traversal of the ring visits its elements in order,
as often as it is asked to, and changes nothing. `clean_list` ends, frees every element once, reads
none that is freed, and leaves the heap as it was before. -/
theorem life_cycle {heap : Heap} (malloc : Malloc heap) (len : ℕ) (h1 : 1 ≤ len)
    (hlen : len < 2 ^ 31) :
    ((∃ i < len, malloc.block i = none) ∧
        initList malloc len = .error (.panic "No mem left!\n")) ∨
      ∃ first cells heap', initList malloc len = .ok (first, heap') ∧
        IsCircular heap heap' len first cells ∧
        (∀ times fuel, 0 ≤ times → len ≤ fuel → traverseList heap' first times fuel =
          ⟨(List.replicate times.toNat (cells.zip (positions len))).flatten, .ok heap'⟩) ∧
        ∀ fuel, len ≤ fuel → (cleanList heap' first fuel).result = .ok heap ∧
          FreesOnce cells (cleanList heap' first fuel).log ∧
          NoReadAfterFree (cleanList heap' first fuel).log := by
  obtain hpanic | ⟨first, cells, heap', hinit, h⟩ := initList_spec malloc h1 hlen
  · exact .inl hpanic
  · refine .inr ⟨first, cells, heap', hinit, h, fun times fuel _ hfuel =>
      traverseList_spec h times hfuel, fun fuel hfuel => ?_⟩
    rw [cleanList_spec h hfuel]
    exact ⟨rfl, freesOnce_of_nodup h.ring.nodup, noReadAfterFree_of_nodup h.ring.nodup⟩

/-- The blocks that a fresh heap gives: the addresses from `1` on. -/
def consecutive : Malloc fun _ => none where
  block i := some (i + 1)
  contents _ := ⟨0, 0⟩
  ne_null h := (Option.some.inj h).symm.trans_ne (Nat.succ_ne_zero _)
  unused _ := rfl
  distinct hi hj := Nat.succ.inj (Option.some.inj (hi.trans hj.symm))

/-- A list of three elements is made, traversed twice and freed. -/
theorem life_cycle_three :
    ∃ first cells heap', initList consecutive 3 = .ok (first, heap') ∧ cells.length = 3 ∧
      (traverseList heap' first 2 3).log = cells.zip [1, 2, 3] ++ cells.zip [1, 2, 3] ∧
      FreesOnce cells (cleanList heap' first 3).log := by
  obtain ⟨⟨i, -, hi⟩, -⟩ | ⟨first, cells, heap', hinit, h, htraverse, hclean⟩ :=
    life_cycle consecutive 3 (by decide) (by decide)
  · cases hi
  · refine ⟨first, cells, heap', hinit, h.length_eq, ?_, (hclean 3 le_rfl).2.1⟩
    rw [htraverse 2 3 (by decide) le_rfl]
    simp [positions, List.range_succ]

end TikFachpraktika.Intro.LinkedList
