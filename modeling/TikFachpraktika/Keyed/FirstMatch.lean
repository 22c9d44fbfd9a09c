import Mathlib.Data.List.Pairwise
import Mathlib.Data.List.Nodup
import Mathlib.Order.Defs.Unbundled

/-!
# First-match stores over a preorder of keys

A list of entries in which a key `k` *matches* every entry whose key is above `k` in a preorder
`r`. A lookup returns the first match; a put replaces the first match or appends a new entry.

Puts keep the list *ordered*: no key matches an earlier entry from a later one. So keys are
distinct and a lookup of the key of an entry finds that entry. The store is nevertheless not a
map from keys to entries, since a put may replace an entry with another key. After a history of
puts a lookup of `k` gives the last put of `k` exactly when no later put replaced it and, if `k`
was never put, nothing matches `k` (`lookup_eq_lastPut_iff`).

## Main definitions

* `lookup`, `replaceFirst`: the two scans.
* `Ordered`: the order invariant.
* `Op`, `contents`, `lastPut`, `Undisturbed`: histories, the most recent operation first.

## Main results

* `Ordered.replaceFirst`, `ordered_contents`: puts keep the order invariant.
* `Ordered.findIdx?_key`: a lookup of a stored key stops at its own entry.
* `lookup_eq_lastPut_iff`: when a first-match store is a map.
* `scan_exact_iff`: when a scan finds exactly the entry with its key.
-/

namespace TikFachpraktika.Keyed

variable {α κ : Type*} (key : α → κ) (r : κ → κ → Prop) [DecidableRel r]

/-- The first entry that `k` matches. -/
def lookup (k : κ) (l : List α) : Option α :=
  l.find? fun a => r k (key a)

/-- The list with the first entry that `p` accepts replaced by `new`, or with `new` appended. -/
def replaceFirst (p : α → Bool) (new : α) : List α → List α
  | [] => [new]
  | a :: l => if p a then new :: l else a :: replaceFirst p new l

/-- The list after a put of `new`. -/
def put (new : α) (l : List α) : List α :=
  replaceFirst (fun a => r (key new) (key a)) new l

/-- No key matches an earlier entry. -/
def Ordered (l : List α) : Prop :=
  l.Pairwise fun a b => ¬ r (key b) (key a)

/-! ### Replacing the first match -/

theorem mem_replaceFirst_self (p : α → Bool) (new : α) : (l : List α) →
    new ∈ replaceFirst p new l
  | [] => List.mem_singleton_self _
  | a :: l => by
      rw [replaceFirst]
      split_ifs
      · exact List.mem_cons_self
      · exact List.mem_cons_of_mem _ (mem_replaceFirst_self p new l)

theorem mem_of_mem_replaceFirst {p : α → Bool} {new b : α} : {l : List α} →
    b ∈ replaceFirst p new l → b = new ∨ b ∈ l
  | [], h => Or.inl (List.mem_singleton.mp h)
  | a :: l, h => by
      rw [replaceFirst] at h
      split_ifs at h
      · rcases List.mem_cons.mp h with rfl | hl
        · exact Or.inl rfl
        · exact Or.inr (List.mem_cons_of_mem _ hl)
      · rcases List.mem_cons.mp h with rfl | hl
        · exact Or.inr List.mem_cons_self
        · exact (mem_of_mem_replaceFirst hl).imp_right (List.mem_cons_of_mem _)

/-- The first match of the images. -/
theorem map_replaceFirst {β : Type*} (f : α → β) (p : β → Bool) (new : α) : (l : List α) →
    (replaceFirst (fun a => p (f a)) new l).map f = replaceFirst p (f new) (l.map f)
  | [] => rfl
  | a :: l => by
      rw [replaceFirst, List.map_cons, replaceFirst]
      split_ifs with ha
      · rw [List.map_cons]
      · rw [List.map_cons, map_replaceFirst f p new l]

/-- An old entry stays unless it is the one replaced. -/
theorem mem_replaceFirst_of_mem {p : α → Bool} {new b : α} : {l : List α} →
    b ∈ l → l.find? p ≠ some b → b ∈ replaceFirst p new l
  | a :: l, hb, hfind => by
      rw [replaceFirst]
      split_ifs with ha
      · rcases List.mem_cons.mp hb with rfl | hl
        · exact absurd (List.find?_cons_of_pos ha) hfind
        · exact List.mem_cons_of_mem _ hl
      · rcases List.mem_cons.mp hb with rfl | hl
        · exact List.mem_cons_self
        · rw [List.find?_cons_of_neg ha] at hfind
          exact List.mem_cons_of_mem _ (mem_replaceFirst_of_mem hl hfind)

/-- The replaced entry is gone when it occurred once. -/
theorem notMem_replaceFirst_of_find? {p : α → Bool} {new b : α} (hne : b ≠ new) : {l : List α} →
    l.Nodup → l.find? p = some b → b ∉ replaceFirst p new l
  | a :: l, hnodup, hfind => by
      obtain ⟨hal, hl⟩ := List.nodup_cons.mp hnodup
      rw [replaceFirst]
      split_ifs with ha
      · rw [List.find?_cons_of_pos ha] at hfind
        cases hfind
        exact fun h => (List.mem_cons.mp h).elim hne hal
      · rw [List.find?_cons_of_neg ha] at hfind
        have hba : b ≠ a := fun h => hal (h ▸ List.mem_of_find?_eq_some hfind)
        exact fun h => (List.mem_cons.mp h).elim hba (notMem_replaceFirst_of_find? hne hl hfind)

/-- Either the first entry that `p` accepts is replaced in its place, or `new` is appended. -/
theorem replaceFirst_split (p : α → Bool) (new : α) : (l : List α) →
    (∃ pre a post, l = pre ++ a :: post ∧ (∀ b ∈ pre, ¬p b) ∧ p a ∧
        replaceFirst p new l = pre ++ new :: post) ∨
      (∀ b ∈ l, ¬p b) ∧ replaceFirst p new l = l ++ [new]
  | [] => .inr ⟨List.forall_mem_nil _, rfl⟩
  | a :: l => by
      rw [replaceFirst]
      split_ifs with ha
      · exact .inl ⟨[], a, l, rfl, List.forall_mem_nil _, ha, rfl⟩
      · obtain ⟨pre, b, post, rfl, hpre, hb, heq⟩ | ⟨hnone, heq⟩ := replaceFirst_split p new l
        · refine .inl ⟨a :: pre, b, post, rfl, List.forall_mem_cons.mpr ⟨ha, hpre⟩, hb, ?_⟩
          rw [heq, List.cons_append]
        · refine .inr ⟨List.forall_mem_cons.mpr ⟨ha, hnone⟩, ?_⟩
          rw [heq, List.cons_append]

/-! ### The order invariant -/

variable {key r}

theorem Ordered.put [IsPreorder κ r] {new : α} : {l : List α} → Ordered key r l →
    Ordered key r (put key r new l)
  | [], _ => List.pairwise_singleton _ _
  | a :: l, h => by
      obtain ⟨ha, hl⟩ := List.pairwise_cons.mp h
      rw [Keyed.put, replaceFirst]
      split_ifs with hnew
      · refine List.pairwise_cons.mpr ⟨fun b hb hbnew => ha b hb ?_, hl⟩
        exact IsTrans.trans _ _ _ hbnew (of_decide_eq_true hnew)
      · refine List.pairwise_cons.mpr ⟨fun b hb => ?_, Ordered.put hl⟩
        rcases mem_of_mem_replaceFirst hb with rfl | hb
        · simpa using hnew
        · exact ha b hb

omit [DecidableRel r] in
/-- Keys are distinct. -/
theorem Ordered.nodup_key [IsPreorder κ r] {l : List α} (h : Ordered key r l) :
    (l.map key).Nodup := by
  refine List.pairwise_map.mpr (List.Pairwise.imp (fun {a b} hab heq => hab ?_) h)
  rw [heq]
  exact Std.Refl.refl _

omit [DecidableRel r] in
theorem Ordered.nodup [IsPreorder κ r] {l : List α} (h : Ordered key r l) : l.Nodup :=
  h.nodup_key.of_map

omit [DecidableRel r] in
/-- Entries with the same key are the same entry. -/
theorem Ordered.eq_of_key_eq [IsPreorder κ r] {l : List α} (h : Ordered key r l) {a b : α}
    (ha : a ∈ l) (hb : b ∈ l) (hab : key a = key b) : a = b :=
  List.inj_on_of_nodup_map h.nodup_key ha hb hab

/-- A lookup of a stored key stops at the entry with that key. -/
theorem Ordered.findIdx?_key [IsPreorder κ r] {l : List α} (h : Ordered key r l) {i : ℕ}
    (hi : i < l.length) : l.findIdx? (fun a => r (key l[i]) (key a)) = some i := by
  rw [List.findIdx?_eq_some_iff_getElem]
  refine ⟨hi, by simpa using Std.Refl.refl (key l[i]), fun j hj => ?_⟩
  have hbefore := List.pairwise_iff_getElem.mp h j i (Nat.lt_trans hj hi) hi hj
  simpa using hbefore

theorem Ordered.lookup_key [IsPreorder κ r] {l : List α} (h : Ordered key r l) {a : α}
    (ha : a ∈ l) :
    lookup key r (key a) l = some a := by
  obtain ⟨i, hi, rfl⟩ := List.getElem_of_mem ha
  have hidx := h.findIdx?_key hi
  rw [List.findIdx?_eq_some_iff_getElem] at hidx
  obtain ⟨_, hp, hbefore⟩ := hidx
  rw [lookup, List.find?_eq_some_iff_getElem]
  exact ⟨hp, i, hi, rfl, fun j hj => by simpa using hbefore j hj⟩

/-! ### Histories -/

/-- An operation on the store. -/
inductive Op (α : Type*)
  | clear
  | put (a : α)

variable (key r) [DecidableEq κ]

omit [DecidableEq κ] in
/-- The entries after a history. -/
def contents : List (Op α) → List α
  | [] => []
  | .clear :: _ => []
  | .put a :: h => put key r a (contents h)

omit [DecidableRel r] in
/-- The most recent put of `k` since the last clear. -/
def lastPut (k : κ) : List (Op α) → Option α
  | [] => none
  | .clear :: _ => none
  | .put a :: h => if key a = k then some a else lastPut k h

omit [DecidableEq κ] in
/-- No put since the last put of `k` replaced an entry with key `k`. -/
def Undisturbed (k : κ) : List (Op α) → Prop
  | [] => True
  | .clear :: _ => True
  | .put a :: h =>
    key a = k ∨ ((∀ b, lookup key r (key a) (contents key r h) = some b → key b ≠ k) ∧
      Undisturbed k h)

variable {key r}

omit [DecidableEq κ] in
theorem ordered_contents [IsPreorder κ r] : (h : List (Op α)) → Ordered key r (contents key r h)
  | [] => List.Pairwise.nil
  | .clear :: _ => List.Pairwise.nil
  | .put _ :: h => (ordered_contents h).put

theorem lastPut_key {k : κ} {a : α} : {h : List (Op α)} → lastPut key k h = some a → key a = k
  | .put b :: h, hlast => by
      rw [lastPut] at hlast
      split_ifs at hlast with hb
      · cases hlast
        exact hb
      · exact lastPut_key hlast

/-- A stored entry is the last put of its key. -/
theorem lastPut_of_mem [IsPreorder κ r] {a : α} : {h : List (Op α)} →
    a ∈ contents key r h → lastPut key (key a) h = some a
  | .put b :: h, ha => by
      have hord : Ordered key r (contents key r (.put b :: h)) := ordered_contents _
      rw [lastPut]
      split_ifs with hb
      · rw [hord.eq_of_key_eq ha (mem_replaceFirst_self _ _ _) hb.symm]
      · rcases mem_of_mem_replaceFirst ha with rfl | ha
        · exact absurd rfl hb
        · exact lastPut_of_mem ha

/-- The last put of `k` is still stored if and only if no later put replaced it. -/
theorem mem_contents_iff_undisturbed [IsPreorder κ r] {k : κ} {a : α} :
    {h : List (Op α)} → lastPut key k h = some a →
    (a ∈ contents key r h ↔ Undisturbed key r k h)
  | .put b :: h, hlast => by
      rw [lastPut] at hlast
      rw [Undisturbed, contents]
      split_ifs at hlast with hb
      · cases hlast
        exact iff_of_true (mem_replaceFirst_self _ _ _) (Or.inl hb)
      · have hka : key a = k := lastPut_key hlast
        have hab : a ≠ b := fun h => hb (h ▸ hka)
        have ih := mem_contents_iff_undisturbed hlast
        simp only [hb, false_or]
        constructor
        · intro ha
          have hold := (mem_of_mem_replaceFirst ha).resolve_left hab
          refine ⟨fun c hc hck => ?_, ih.mp hold⟩
          have hca : c = a := (ordered_contents h).eq_of_key_eq (List.mem_of_find?_eq_some hc)
            hold (hck.trans hka.symm)
          exact notMem_replaceFirst_of_find? hab (ordered_contents h).nodup (hca ▸ hc) ha
        · rintro ⟨hkeep, hund⟩
          exact mem_replaceFirst_of_mem (ih.mpr hund) fun hfind => hkeep a hfind hka

/-- An entry that was never put is not stored. -/
theorem key_ne_of_lastPut_eq_none [IsPreorder κ r] {k : κ} {h : List (Op α)}
    (hlast : lastPut key k h = none) {a : α} (ha : a ∈ contents key r h) : key a ≠ k := by
  rintro rfl
  rw [lastPut_of_mem ha] at hlast
  cases hlast

theorem undisturbed_of_lastPut_eq_none [IsPreorder κ r] {k : κ} :
    {h : List (Op α)} → lastPut key k h = none → Undisturbed key r k h
  | [], _ => trivial
  | .clear :: _, _ => trivial
  | .put b :: h, hlast => by
      rw [lastPut] at hlast
      split_ifs at hlast with hb
      exact Or.inr ⟨fun c hc => key_ne_of_lastPut_eq_none hlast (List.mem_of_find?_eq_some hc),
        undisturbed_of_lastPut_eq_none hlast⟩

/-- **When a first-match store is a map.** After a history, a lookup of `k` gives the most recent
put of `k` exactly when no later put replaced that entry and, if `k` was not put at all, no
stored key is matched by `k`. -/
theorem lookup_eq_lastPut_iff [IsPreorder κ r] (k : κ) (h : List (Op α)) :
    lookup key r k (contents key r h) = lastPut key k h ↔
      Undisturbed key r k h ∧
        (lastPut key k h = none → ∀ a ∈ contents key r h, ¬ r k (key a)) := by
  cases hlast : lastPut key k h with
  | none =>
    simp only [undisturbed_of_lastPut_eq_none hlast, true_and, forall_const]
    simp [lookup]
  | some a =>
    simp only [reduceCtorEq, false_imp_iff, and_true, ← mem_contents_iff_undisturbed hlast]
    constructor
    · exact List.mem_of_find?_eq_some
    · intro ha
      rw [← lastPut_key hlast]
      exact (ordered_contents h).lookup_key ha

/-! ### Exact scans -/

omit [DecidableRel r] [DecidableEq κ] in
variable (key r) in
/-- Every entry that `k` matches stands at or behind an entry with the key `k`. -/
def Unshadowed (k : κ) (l : List α) : Prop :=
  ∀ (i : ℕ) (a : α), l[i]? = some a → r k (key a) → ∃ j ≤ i, ∃ b, l[j]? = some b ∧ key b = k

/-- A scan looks at the entries of its list only. -/
theorem findIdx?_congr {p q : α → Bool} : {l : List α} → (∀ a ∈ l, p a = q a) →
    l.findIdx? p = l.findIdx? q
  | [], _ => rfl
  | a :: l, h => by
      rw [List.findIdx?_cons, List.findIdx?_cons, h a List.mem_cons_self,
        findIdx?_congr fun b hb => h b (List.mem_cons_of_mem _ hb)]

/-- A scan stops at a match or before it. -/
theorem exists_findIdx?_le {p : α → Bool} {l : List α} {i : ℕ} {a : α} (ha : l[i]? = some a)
    (hp : p a) : ∃ k ≤ i, ∃ b, l.findIdx? p = some k ∧ l[k]? = some b ∧ p b := by
  obtain ⟨hi, rfl⟩ := List.getElem?_eq_some_iff.mp ha
  cases hscan : l.findIdx? p with
  | none =>
    have hnone := List.findIdx?_eq_none_iff.mp hscan l[i] (List.getElem_mem hi)
    rw [hp] at hnone
    cases hnone
  | some k =>
    obtain ⟨hk, hpk, hbefore⟩ := List.findIdx?_eq_some_iff_getElem.mp hscan
    refine ⟨k, ?_, l[k], rfl, List.getElem?_eq_getElem hk, hpk⟩
    by_contra hlt
    exact hbefore i (by omega) hp

omit [DecidableEq κ] in
/-- A scan for the key of an entry stops there if and only if this key is not shadowed. -/
theorem scan_key_iff [IsPreorder κ r] {l : List α} (hnodup : (l.map key).Nodup) {i : ℕ} {a : α}
    (ha : l[i]? = some a) :
    (l.findIdx? fun b => r (key a) (key b)) = some i ↔ Unshadowed key r (key a) l := by
  have hself : decide (r (key a) (key a)) = true := decide_eq_true (Std.Refl.refl _)
  obtain ⟨k, hk, b, hscan, hb, hpb⟩ :=
    exists_findIdx?_le (p := fun b => decide (r (key a) (key b))) ha hself
  rw [hscan]
  constructor
  · rintro hki i' a' ha' hmatch
    obtain rfl := Option.some.inj hki
    obtain ⟨k', hk', b', hscan', -⟩ :=
      exists_findIdx?_le (p := fun b => decide (r (key a) (key b))) ha' (decide_eq_true hmatch)
    obtain rfl := Option.some.inj (hscan.symm.trans hscan')
    exact ⟨k, hk', a, ha, rfl⟩
  · intro hunshadowed
    obtain ⟨j, hj, c, hc, hkey⟩ := hunshadowed k b hb (of_decide_eq_true hpb)
    have hij : j = i := by
      obtain ⟨hlt, -⟩ := List.getElem?_eq_some_iff.mp hc
      refine (List.getElem?_inj (by simpa using hlt) hnodup).mp ?_
      rw [List.getElem?_map, List.getElem?_map, hc, ha, Option.map_some, Option.map_some, hkey]
    exact congrArg some (by omega)

omit [DecidableEq κ] in
/-- **When a scan is exact.** For distinct keys a scan for `k` finds the entry with the key `k`, and
nothing when there is none, if and only if `k` is not shadowed. -/
theorem scan_exact_iff [IsPreorder κ r] {l : List α} (hnodup : (l.map key).Nodup) (k : κ) :
    (∀ i, (l.findIdx? fun b => r k (key b)) = some i ↔ ∃ a, l[i]? = some a ∧ key a = k) ↔
      Unshadowed key r k l := by
  constructor
  · intro hexact i a ha hmatch
    obtain ⟨j, hj, b, hscan, -⟩ :=
      exists_findIdx?_le (p := fun b => decide (r k (key b))) ha (decide_eq_true hmatch)
    exact ⟨j, hj, (hexact j).mp hscan⟩
  · intro hunshadowed i
    constructor
    · intro hscan
      obtain ⟨hi, hmatch, hbefore⟩ := List.findIdx?_eq_some_iff_getElem.mp hscan
      obtain ⟨j, hj, b, hb, hkey⟩ := hunshadowed i l[i] (List.getElem?_eq_getElem hi)
        (of_decide_eq_true hmatch)
      obtain ⟨hlt, rfl⟩ := List.getElem?_eq_some_iff.mp hb
      have hij : j = i := by
        by_contra hne
        refine hbefore j (by omega) (decide_eq_true ?_)
        rw [hkey]
        exact Std.Refl.refl k
      subst hij
      exact ⟨_, hb, hkey⟩
    · rintro ⟨a, ha, rfl⟩
      exact (scan_key_iff hnodup ha).mpr hunshadowed

end TikFachpraktika.Keyed
