import Mathlib.Data.List.Basic

/-!
# Splitting a list into frames

A framing writes values as non-empty lists that can be told apart from what follows them: the start
of a list holds at most one frame. So every list consists of frames and a rest that starts with no
frame, in one way only.

## Main definitions

* `Framing`: frames and the parser for the first of them.
* `Framing.split`: the frames at the start of a list, and the rest.

## Main results

* `Framing.flatMap_split`, `Framing.parse_split`: what a split leaves.
* `Framing.split_append`, `Framing.split_eq_iff`: there is only one split.
* `Framing.exists_split_of_cut`: what a list that is cut off keeps.
-/

namespace TikFachpraktika

/-- Frames of values, and the parser for the frame at the start of a list. -/
structure Framing (α β : Type*) where
  encode : β → List α
  parse : List α → Option (β × List α)
  encode_ne_nil : ∀ b, encode b ≠ []
  parse_append : ∀ b rest, parse (encode b ++ rest) = some (b, rest)
  eq_of_parse : ∀ {l b rest}, parse l = some (b, rest) → l = encode b ++ rest

namespace Framing

variable {α β : Type*} (F : Framing α β)

theorem length_lt_of_parse {l : List α} {p : β × List α} (h : F.parse l = some p) :
    p.2.length < l.length := by
  obtain ⟨b, rest⟩ := p
  have hpos := List.length_pos_iff.mpr (F.encode_ne_nil b)
  rw [F.eq_of_parse h, List.length_append]
  exact Nat.lt_add_of_pos_left hpos

/-- The frames at the start of a list, and the rest, which starts with no frame. -/
def split (l : List α) : List β × List α :=
  match _h : F.parse l with
  | none => ([], l)
  | some p => (p.1 :: (split p.2).1, (split p.2).2)
termination_by l.length
decreasing_by all_goals exact F.length_lt_of_parse _h

variable {F}

theorem split_of_parse_eq_none {l : List α} (h : F.parse l = none) : F.split l = ([], l) := by
  rw [split]
  split
  · rfl
  · rename_i p hp
    cases h.symm.trans hp

theorem split_of_parse_eq_some {l rest : List α} {b : β} (h : F.parse l = some (b, rest)) :
    F.split l = (b :: (F.split rest).1, (F.split rest).2) := by
  rw [split]
  split
  · rename_i hnone
    cases h.symm.trans hnone
  · rename_i p hp
    obtain rfl := Option.some.inj (h.symm.trans hp)
    rfl

/-- The rest of a split starts with no frame. -/
theorem parse_split (l : List α) : F.parse (F.split l).2 = none := by
  induction l using Framing.split.induct F with
  | case1 l h => rwa [split_of_parse_eq_none h]
  | case2 l p h ih =>
    rw [split_of_parse_eq_some h]
    exact ih

/-- A list consists of the frames of its split and the rest. -/
theorem flatMap_split (l : List α) : (F.split l).1.flatMap F.encode ++ (F.split l).2 = l := by
  induction l using Framing.split.induct F with
  | case1 l h => rw [split_of_parse_eq_none h, List.flatMap_nil, List.nil_append]
  | case2 l p h ih =>
    rw [split_of_parse_eq_some h, List.flatMap_cons, List.append_assoc, ih]
    exact (F.eq_of_parse h).symm

/-- **There is only one split.** -/
theorem split_append {rest : List α} (hrest : F.parse rest = none) : (bs : List β) →
    F.split (bs.flatMap F.encode ++ rest) = (bs, rest)
  | [] => split_of_parse_eq_none hrest
  | b :: bs => by
      have hparse := F.parse_append b (bs.flatMap F.encode ++ rest)
      rw [List.flatMap_cons, List.append_assoc, split_of_parse_eq_some hparse,
        split_append hrest bs]

theorem split_eq_iff {l rest : List α} {bs : List β} :
    F.split l = (bs, rest) ↔ l = bs.flatMap F.encode ++ rest ∧ F.parse rest = none := by
  constructor
  · intro h
    have hflat := F.flatMap_split l
    have hparse := F.parse_split l
    rw [h] at hflat hparse
    exact ⟨hflat.symm, hparse⟩
  · rintro ⟨rfl, hparse⟩
    exact split_append hparse bs

/-! ### Prefixes -/

theorem parse_nil : F.parse [] = none := by
  cases h : F.parse [] with
  | none => rfl
  | some p =>
    obtain ⟨b, rest⟩ := p
    exact absurd (List.append_eq_nil_iff.mp (F.eq_of_parse h).symm).1 (F.encode_ne_nil b)

/-- A part of a frame starts with no frame. -/
theorem parse_of_part {l : List α} {b : β} (h : l <+: F.encode b)
    (hne : l ≠ F.encode b) : F.parse l = none := by
  cases hparse : F.parse l with
  | none => rfl
  | some p =>
    obtain ⟨b', rest⟩ := p
    obtain ⟨tail, htail⟩ := h
    have hl := F.eq_of_parse hparse
    -- the frame would be the one of which `l` is a part
    have hwhole := F.parse_append b []
    rw [List.append_nil, ← htail, hl, List.append_assoc, F.parse_append] at hwhole
    obtain ⟨hb, hrest⟩ := Prod.mk.inj (Option.some.inj hwhole)
    rw [(List.append_eq_nil_iff.mp hrest).1, List.append_nil, hb] at hl
    exact absurd hl hne

/-- **A list of frames that is cut off** consists of the first of its frames and a rest. -/
theorem exists_split_of_cut {l : List α} : {bs : List β} → l <+: bs.flatMap F.encode →
    ∃ j rest, j ≤ bs.length ∧ F.split l = (bs.take j, rest)
  | [], h => by
      obtain rfl := List.prefix_nil.mp h
      exact ⟨0, [], Nat.le_refl 0, split_of_parse_eq_none parse_nil⟩
  | b :: bs, h => by
      rw [List.flatMap_cons] at h
      rcases List.prefix_or_prefix_of_prefix h (List.prefix_append _ _) with hpart | ⟨l', rfl⟩
      · by_cases hwhole : l = F.encode b
        · have hparse := F.parse_append b []
          rw [List.append_nil] at hparse
          refine ⟨1, [], Nat.le_add_left _ _, ?_⟩
          rw [hwhole, split_of_parse_eq_some hparse, split_of_parse_eq_none parse_nil]
          rfl
        · exact ⟨0, l, Nat.zero_le _, split_of_parse_eq_none (parse_of_part hpart hwhole)⟩
      · obtain ⟨j, rest, hj, hsplit⟩ :=
          exists_split_of_cut ((List.prefix_append_right_inj _).mp h)
        refine ⟨j + 1, rest, Nat.succ_le_succ hj, ?_⟩
        rw [split_of_parse_eq_some (F.parse_append b l'), hsplit]
        rfl

end Framing

end TikFachpraktika
