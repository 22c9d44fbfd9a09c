import Mathlib.Data.List.GetD
import TikFachpraktika.Chat.Client

/-!
# Messages and reads in step

Messages come to the client with a NUL behind each. A `read` that returns a message with its NUL
posts the message. A `read` that returns it without the NUL posts it too, if no character of an
earlier message is left behind it in the buffer, which is not cleared; the NUL has to come in a
`read` of its own then. In all other ways of cutting the stream some message is not posted.

## Main definitions

* `stale`: the positions of the buffer where an earlier message is left.
* `InStep`: the messages and reads whose lengths fit together.
* `Shape`: a buffer after messages of known lengths.

## Main results

* `posts_of_inStep`: in step, the messages are posted.
* `inStep_of_posts`: marked messages are posted in step only.
-/

namespace TikFachpraktika.Chat

open Posix

/-- Whether a character of an earlier message is left at position `p` of the buffer, for the
lengths of these messages, the last one first. -/
def stale : List ℕ → ℕ → Bool
  | [], _ => false
  | l :: past, p => if p < l then true else if p = l then false else stale past p

/-- The lengths of messages and of reads fit together: a message is read with its NUL, or it is
read without it, the NUL is read alone, and nothing is left behind the message in the buffer. The
first argument is the lengths of the earlier messages, the last one first. -/
inductive InStep : List ℕ → List ℕ → List ℕ → Prop
  | nil {past : List ℕ} : InStep past [] []
  | whole {past lens sizes : List ℕ} {l : ℕ} (h : InStep (l :: past) lens sizes) :
      InStep past (l :: lens) ((l + 1) :: sizes)
  | split {past lens sizes : List ℕ} {l : ℕ} (hstale : stale past l = false)
      (h : InStep (l :: past) lens sizes) : InStep past (l :: lens) (l :: 1 :: sizes)

/-- A message of the server. -/
structure IsMessage (m : List Byte) : Prop where
  ne_nil : m ≠ []
  zero_notMem : (0 : Byte) ∉ m
  getLast?_ne : m.getLast? ≠ some 10
  length_lt : m.length < initQsiz - 1

/-- The bytes that are sent for some messages. -/
def stream (ms : List (List Byte)) : List Byte :=
  (ms.map (· ++ [0])).flatten

@[simp] theorem stream_nil : stream [] = [] := rfl

@[simp] theorem stream_cons (m : List Byte) (ms : List (List Byte)) :
    stream (m :: ms) = m ++ 0 :: stream ms := by
  rw [stream, List.map_cons, List.flatten_cons, List.append_assoc, List.singleton_append, stream]

/-! ### The buffer -/

theorem getD_readInto (rbuff bytes : List Byte) (p : ℕ) :
    (readInto rbuff bytes).getD p 0 =
      if p = initQsiz - 1 then 0
      else if p < bytes.length then bytes.getD p 0 else rbuff.getD p 0 := by
  rw [readInto, overwrite, List.getD_eq_getElem?_getD]
  rcases eq_or_ne p (initQsiz - 1) with rfl | hne
  · rw [if_pos rfl, List.getElem?_set_self']
    cases (bytes ++ rbuff.drop bytes.length)[initQsiz - 1]? <;> rfl
  · rw [if_neg hne, List.getElem?_set_ne hne.symm]
    split_ifs with hin
    · rw [List.getElem?_append_left hin, List.getD_eq_getElem?_getD]
    · rw [List.getElem?_append_right (Nat.le_of_not_lt hin), List.getElem?_drop,
        Nat.add_sub_of_le (Nat.le_of_not_lt hin), List.getD_eq_getElem?_getD]

/-- The string in a buffer that begins with `m` ends there if a NUL follows. -/
theorem cstr_eq_iff_of_begins {m b : List Byte} (hm : (0 : Byte) ∉ m) (hbegin : m <+: b) :
    cstr b = m ↔ b.getD m.length 0 = 0 := by
  obtain ⟨rest, rfl⟩ := hbegin
  rw [cstr_append_of_notMem hm, List.append_right_eq_self, List.getD_append_right _ _ _ _ le_rfl,
    Nat.sub_self]
  cases rest with
  | nil => simp
  | cons x rest => simp [cstr]

theorem prefix_readInto {m bytes : List Byte} (rbuff : List Byte) (hbegin : m <+: bytes)
    (hlt : m.length ≤ initQsiz - 1) : m <+: readInto rbuff bytes := by
  obtain ⟨rest, rfl⟩ := hbegin
  rw [readInto, overwrite, List.append_assoc, List.set_append_right _ _ hlt]
  exact List.prefix_append _ _

/-- A `read` that begins with a message posts the message and what is left behind it. -/
theorem prefix_post {m bytes : List Byte} (rbuff : List Byte) (hm : IsMessage m)
    (hbegin : m <+: bytes) : m <+: cstr (readInto rbuff bytes) :=
  (prefix_cstr_iff hm.zero_notMem).mpr (prefix_readInto rbuff hbegin hm.length_lt.le)

/-- A `read` of a message and its NUL posts the message. -/
theorem post_whole {m bytes : List Byte} (rbuff : List Byte) (hm : IsMessage m)
    (hbegin : m ++ [0] <+: bytes) : cstr (readInto rbuff bytes) = m := by
  refine (cstr_eq_iff_of_begins hm.zero_notMem
    (prefix_readInto rbuff ((List.prefix_append m [0]).trans hbegin) hm.length_lt.le)).mpr ?_
  obtain ⟨rest, rfl⟩ := hbegin
  rw [getD_readInto, if_neg hm.length_lt.ne, if_pos (by simp)]
  simp

/-- A `read` of a NUL posts nothing. -/
theorem post_zero (rbuff bytes : List Byte) : cstr (readInto rbuff (0 :: bytes)) = [] := by
  have hbegin : [0] <+: 0 :: bytes := ⟨bytes, rfl⟩
  obtain ⟨rest, hrest⟩ := prefix_readInto rbuff hbegin (by decide)
  rw [← hrest, List.singleton_append, cstr_zero_cons]

/-- The buffer after messages of the given lengths: it has a character at the positions that they
leave behind. -/
structure Shape (past : List ℕ) (rbuff : List Byte) : Prop where
  length_lt : ∀ l ∈ past, l < initQsiz - 1
  getD_eq_zero_iff : ∀ p, 0 < p → (rbuff.getD p 0 = 0 ↔ stale past p = false)

theorem shape_nil : Shape [] [] where
  length_lt := nofun
  getD_eq_zero_iff _ _ := iff_of_true (List.getD_nil ..) rfl

theorem exists_lt_of_stale : {past : List ℕ} → {p : ℕ} → stale past p = true → ∃ l ∈ past, p < l
  | l :: past, p, h => by
      rw [stale] at h
      split_ifs at h with hlt heq
      · exact ⟨l, List.mem_cons_self, hlt⟩
      · obtain ⟨l', hl', hlt'⟩ := exists_lt_of_stale h
        exact ⟨l', List.mem_cons_of_mem _ hl', hlt'⟩

namespace Shape

variable {past : List ℕ} {rbuff m : List Byte}

/-- The last byte of the buffer is never one of a message. -/
theorem stale_last (h : Shape past rbuff) : stale past (initQsiz - 1) = false := by
  by_contra hstale
  obtain ⟨l, hl, hlt⟩ := exists_lt_of_stale (by simpa using hstale)
  exact absurd (h.length_lt l hl) hlt.not_gt

/-- A buffer in which a message and a NUL follow on those before. -/
theorem cons (h : Shape past rbuff) (hm : IsMessage m) {rbuff' : List Byte}
    (hbuff : ∀ p, 0 < p → p ≠ initQsiz - 1 → rbuff'.getD p 0 =
      if p < m.length then m.getD p 0 else if p = m.length then 0 else rbuff.getD p 0)
    (hlast : rbuff'.getD (initQsiz - 1) 0 = 0) : Shape (m.length :: past) rbuff' where
  length_lt l hl := by
    rcases List.mem_cons.mp hl with rfl | hl
    · exact hm.length_lt
    · exact h.length_lt l hl
  getD_eq_zero_iff p hp := by
    rcases eq_or_ne p (initQsiz - 1) with rfl | hne
    · rw [hlast, stale, if_neg hm.length_lt.not_gt, if_neg hm.length_lt.ne', h.stale_last]
      exact iff_of_true rfl rfl
    · rw [hbuff p hp hne, stale]
      split_ifs with hlt heq
      · refine iff_of_false (fun h0 => hm.zero_notMem ?_) (by simp)
        rw [List.getD_eq_getElem _ _ hlt] at h0
        exact h0 ▸ List.getElem_mem hlt
      · exact iff_of_true rfl rfl
      · exact h.getD_eq_zero_iff p hp

theorem whole (h : Shape past rbuff) (hm : IsMessage m) :
    Shape (m.length :: past) (readInto rbuff (m ++ [0])) := by
  refine h.cons hm (fun p hp hne => ?_) (by rw [getD_readInto, if_pos rfl])
  rw [getD_readInto, if_neg hne, List.length_append, List.length_singleton]
  rcases lt_trichotomy p m.length with hlt | rfl | hgt
  · rw [if_pos (Nat.lt_succ_of_lt hlt), if_pos hlt, List.getD_append _ _ _ _ hlt]
  · rw [if_pos (Nat.lt_succ_self _), if_neg (lt_irrefl _), if_pos rfl]
    simp
  · rw [if_neg (by omega), if_neg (by omega), if_neg (by omega)]

theorem split (h : Shape past rbuff) (hm : IsMessage m) (hstale : stale past m.length = false) :
    Shape (m.length :: past) (readInto (readInto rbuff m) [0]) := by
  refine h.cons hm (fun p hp hne => ?_) (by rw [getD_readInto, if_pos rfl])
  rw [getD_readInto, if_neg hne, List.length_singleton, if_neg (by omega), getD_readInto,
    if_neg hne]
  split_ifs with hlt heq
  · rfl
  · rw [heq]
    exact (h.getD_eq_zero_iff _ (List.length_pos_iff.mpr hm.ne_nil)).mpr hstale
  · rfl

/-- A `read` of a message without its NUL posts the message exactly when nothing is left behind
it. -/
theorem post_eq_iff (h : Shape past rbuff) (hm : IsMessage m) :
    cstr (readInto rbuff m) = m ↔ stale past m.length = false := by
  have hpos := List.length_pos_iff.mpr hm.ne_nil
  have hend : (readInto rbuff m).getD m.length 0 = rbuff.getD m.length 0 := by
    rw [getD_readInto, if_neg hm.length_lt.ne, if_neg (lt_irrefl _)]
  rw [← h.getD_eq_zero_iff _ hpos, ← hend]
  exact cstr_eq_iff_of_begins hm.zero_notMem
    (prefix_readInto rbuff List.prefix_rfl hm.length_lt.le)

end Shape

/-! ### In step -/

/-- The strings posted that are not empty. -/
def postedStrings (rbuff : List Byte) (reads : List (List Byte)) : List (List Byte) :=
  (postAll rbuff reads).filter (· ≠ [])

theorem postedStrings_cons {rbuff bytes : List Byte} (reads : List (List Byte))
    (h : cstr (readInto rbuff bytes) ≠ []) : postedStrings rbuff (bytes :: reads) =
      cstr (readInto rbuff bytes) :: postedStrings (readInto rbuff bytes) reads := by
  rw [postedStrings, postAll, List.filter_cons_of_pos (by simpa using h), postedStrings]

theorem postedStrings_cons_zero (rbuff bytes : List Byte) (reads : List (List Byte)) :
    postedStrings rbuff ((0 :: bytes) :: reads) =
      postedStrings (readInto rbuff (0 :: bytes)) reads := by
  rw [postedStrings, postAll, post_zero, List.filter_cons_of_neg (by simp), postedStrings]

/-- **In step, the messages are posted**: each of them, once and in order. -/
theorem posts_of_inStep {past lens sizes : List ℕ} (h : InStep past lens sizes) :
    ∀ {ms reads : List (List Byte)} {rbuff : List Byte}, (∀ m ∈ ms, IsMessage m) →
      ms.map List.length = lens → reads.map List.length = sizes → reads.flatten = stream ms →
      Shape past rbuff → postedStrings rbuff reads = ms := by
  induction h with
  | nil =>
    intro ms reads rbuff _ hms hreads _ _
    rw [List.map_eq_nil_iff.mp hms, List.map_eq_nil_iff.mp hreads]
    rfl
  | @whole past lens sizes l h ih =>
    intro ms reads rbuff hmsg hms hsizes hstream hshape
    obtain ⟨m, ms, rfl, rfl, rfl⟩ := List.map_eq_cons_iff.mp hms
    obtain ⟨bytes, reads, rfl, hbytes, hreads⟩ := List.map_eq_cons_iff.mp hsizes
    rw [List.flatten_cons, stream_cons, ← List.singleton_append, ← List.append_assoc] at hstream
    obtain ⟨rfl, hrest⟩ := List.append_inj hstream (by simpa using hbytes)
    have hm := hmsg m List.mem_cons_self
    have hpost : cstr (readInto rbuff (m ++ [0])) = m := post_whole rbuff hm List.prefix_rfl
    rw [postedStrings_cons _ (by rw [hpost]; exact hm.ne_nil), hpost,
      ih (fun m' hm' => hmsg m' (List.mem_cons_of_mem _ hm')) rfl hreads hrest (hshape.whole hm)]
  | @split past lens sizes l hstale h ih =>
    intro ms reads rbuff hmsg hms hsizes hstream hshape
    obtain ⟨m, ms, rfl, rfl, rfl⟩ := List.map_eq_cons_iff.mp hms
    obtain ⟨bytes, reads, rfl, hbytes, hsizes⟩ := List.map_eq_cons_iff.mp hsizes
    obtain ⟨nul, reads, rfl, hnul, hreads⟩ := List.map_eq_cons_iff.mp hsizes
    rw [List.flatten_cons, List.flatten_cons, stream_cons] at hstream
    obtain ⟨rfl, htail⟩ := List.append_inj hstream hbytes
    rw [← List.singleton_append] at htail
    obtain ⟨rfl, hrest⟩ := List.append_inj htail hnul
    have hm := hmsg bytes List.mem_cons_self
    have hpost : cstr (readInto rbuff bytes) = bytes := (hshape.post_eq_iff hm).mpr hstale
    rw [postedStrings_cons _ (by rw [hpost]; exact hm.ne_nil), hpost, postedStrings_cons_zero,
      ih (fun m' hm' => hmsg m' (List.mem_cons_of_mem _ hm')) rfl hreads hrest
        (hshape.split hm hstale)]

/-! ### Out of step -/

/-- A message of length `l` that shows where it begins. -/
def marker (l : ℕ) : List Byte :=
  2 :: List.replicate (l - 1) 1

theorem length_marker {l : ℕ} (hl : 0 < l) : (marker l).length = l := by
  rw [marker, List.length_cons, List.length_replicate]
  omega

theorem eq_of_mem_marker {l : ℕ} {b : Byte} (h : b ∈ marker l) : b = 2 ∨ b = 1 :=
  (List.mem_cons.mp h).imp_right List.eq_of_mem_replicate

theorem isMessage_marker {l : ℕ} (hl : 0 < l) (hlt : l < initQsiz - 1) : IsMessage (marker l) where
  ne_nil := List.cons_ne_nil _ _
  zero_notMem h := absurd (eq_of_mem_marker h) (by decide)
  getLast?_ne h := absurd (eq_of_mem_marker (List.mem_of_getLast? h)) (by decide)
  length_lt := by rw [length_marker hl]; exact hlt

theorem count_stream_marker (lens : List ℕ) : (stream (lens.map marker)).count 2 = lens.length := by
  induction lens with
  | nil => rfl
  | cons l lens ih =>
    rw [List.map_cons, stream_cons, marker, List.cons_append, List.count_cons_self,
      List.count_append, List.count_replicate, List.count_cons_of_ne (by decide), ih]
    simp

/-- What a `read` posts begins with the first byte that it returns. -/
theorem post_cons {b : Byte} (hb : b ≠ 0) (rbuff bytes : List Byte) :
    ∃ rest, cstr (readInto rbuff (b :: bytes)) = b :: rest := by
  have hbegin : [b] <+: b :: bytes := ⟨bytes, rfl⟩
  have hnul : (0 : Byte) ∉ [b] := by simpa using hb.symm
  have hlast : 1 ≤ initQsiz - 1 := by decide
  obtain ⟨rest, hrest⟩ := (prefix_cstr_iff hnul).mpr (prefix_readInto rbuff hbegin hlast)
  exact ⟨rest, hrest.symm⟩

/-- When only marked messages are posted, every `read` begins with a message or a NUL. -/
theorem head_of_posts : {reads : List (List Byte)} → {rbuff : List Byte} → {lens : List ℕ} →
    postedStrings rbuff reads = lens.map marker → ∀ b bytes, b :: bytes ∈ reads → b = 0 ∨ b = 2
  | read :: reads, rbuff, lens, h, b, bytes, hmem => by
      rcases eq_or_ne (cstr (readInto rbuff read)) [] with hempty | hpost
      · rcases List.mem_cons.mp hmem with rfl | hmem
        · by_contra hb
          obtain ⟨rest, hrest⟩ := post_cons (not_or.mp hb).1 rbuff bytes
          rw [hrest] at hempty
          cases hempty
        · have htail : postedStrings (readInto rbuff read) reads = lens.map marker := by
            rw [← h, postedStrings, postedStrings, postAll,
              List.filter_cons_of_neg (by simpa using hempty)]
          exact head_of_posts htail b bytes hmem
      · rw [postedStrings_cons _ hpost] at h
        obtain ⟨l, lens, rfl, hl, hlens⟩ := List.map_eq_cons_iff.mp h.symm
        rcases List.mem_cons.mp hmem with rfl | hmem
        · by_contra hb
          obtain ⟨rest, hrest⟩ := post_cons (not_or.mp hb).1 rbuff bytes
          rw [hrest, marker, List.cons.injEq] at hl
          exact hb (.inr hl.1.symm)
        · exact head_of_posts hlens.symm b bytes hmem

/-- At most as many messages are posted as begin in what is read. -/
theorem length_le_count : {reads : List (List Byte)} → {rbuff : List Byte} → {lens : List ℕ} →
    (∀ bytes ∈ reads, bytes ≠ []) → postedStrings rbuff reads = lens.map marker →
    lens.length ≤ reads.flatten.count 2
  | [], rbuff, lens, _, h => by
      rw [List.map_eq_nil_iff.mp h.symm]
      exact le_rfl
  | [] :: reads, _, _, hne, _ => absurd rfl (hne [] List.mem_cons_self)
  | (b :: bytes) :: reads, rbuff, lens, hne, h => by
      have hne' : ∀ r ∈ reads, r ≠ [] := fun r hr => hne r (List.mem_cons_of_mem _ hr)
      rw [List.flatten_cons, List.count_append]
      rcases head_of_posts h b bytes List.mem_cons_self with rfl | rfl
      · rw [postedStrings_cons_zero] at h
        have hle := length_le_count hne' h
        omega
      · obtain ⟨rest, hrest⟩ := post_cons (show (2 : Byte) ≠ 0 by decide) rbuff bytes
        rw [postedStrings_cons _ (by rw [hrest]; exact List.cons_ne_nil _ _)] at h
        obtain ⟨l, lens, rfl, -, hlens⟩ := List.map_eq_cons_iff.mp h.symm
        have hle := length_le_count hne' hlens.symm
        rw [List.count_cons_self, List.length_cons]
        omega

/-- A `read` that begins with a NUL and goes on into a message loses this message. -/
theorem eq_nil_of_posts {reads : List (List Byte)} {rbuff bytes : List Byte} {lens : List ℕ}
    (hne : ∀ r ∈ reads, r ≠ []) (hposts : postedStrings rbuff reads = lens.map marker)
    (hstream : bytes ++ reads.flatten = stream (lens.map marker)) : bytes = [] := by
  have hle := length_le_count hne hposts
  have hcount := congrArg (List.count 2) hstream
  rw [count_stream_marker, List.count_append] at hcount
  cases bytes with
  | nil => rfl
  | cons b bytes =>
    cases lens with
    | nil => cases hstream
    | cons l lens =>
      rw [List.map_cons, stream_cons, marker, List.cons_append, List.cons_append,
        List.cons.injEq] at hstream
      rw [hstream.1, List.count_cons_self] at hcount
      omega

theorem exists_cons_of_flatten {reads : List (List Byte)} {b : Byte} {bytes : List Byte}
    (hne : ∀ r ∈ reads, r ≠ []) (h : reads.flatten = b :: bytes) :
    ∃ r reads', reads = (b :: r) :: reads' ∧ r ++ reads'.flatten = bytes := by
  match reads, hne, h with
  | [] :: reads, hne, _ => exact absurd rfl (hne [] List.mem_cons_self)
  | (c :: r) :: reads, _, h =>
    rw [List.flatten_cons, List.cons_append, List.cons.injEq] at h
    exact ⟨r, reads, by rw [h.1], h.2⟩

/-- After a `read` of the first message without its NUL, the next `read` gets the NUL alone. -/
theorem split_of_posts {l : ℕ} {lens : List ℕ} {reads : List (List Byte)} {rbuff : List Byte}
    (hm : IsMessage (marker l)) (hne : ∀ r ∈ reads, r ≠ [])
    (hstream : reads.flatten = 0 :: stream (lens.map marker))
    (hposts : postedStrings rbuff (marker l :: reads) = marker l :: lens.map marker) :
    ∃ reads', reads = [0] :: reads' ∧ reads'.flatten = stream (lens.map marker) ∧
      cstr (readInto rbuff (marker l)) = marker l ∧
      postedStrings (readInto (readInto rbuff (marker l)) [0]) reads' = lens.map marker := by
  have hnonempty : cstr (readInto rbuff (marker l)) ≠ [] := fun h0 =>
    hm.ne_nil (List.prefix_nil.mp (h0 ▸ prefix_post rbuff hm List.prefix_rfl))
  rw [postedStrings_cons _ hnonempty, List.cons.injEq] at hposts
  obtain ⟨nul, reads', rfl, hrest⟩ := exists_cons_of_flatten hne hstream
  rw [postedStrings_cons_zero] at hposts
  obtain rfl := eq_nil_of_posts (fun r hr => hne r (List.mem_cons_of_mem _ hr)) hposts.2 hrest
  exact ⟨reads', rfl, hrest, hposts.1, hposts.2⟩

/-- **How the first message is read** when marked messages are posted: together with its NUL, or
without it and followed by the NUL alone. -/
theorem cases_of_posts {l : ℕ} {lens : List ℕ} {reads : List (List Byte)} {rbuff : List Byte}
    (hm : IsMessage (marker l)) (hne : ∀ r ∈ reads, r ≠ [])
    (hstream : reads.flatten = marker l ++ 0 :: stream (lens.map marker))
    (hposts : postedStrings rbuff reads = marker l :: lens.map marker) :
    (∃ reads', reads = (marker l ++ [0]) :: reads' ∧
      reads'.flatten = stream (lens.map marker) ∧
      postedStrings (readInto rbuff (marker l ++ [0])) reads' = lens.map marker) ∨
    (∃ reads', reads = marker l :: [0] :: reads' ∧
      reads'.flatten = stream (lens.map marker) ∧ cstr (readInto rbuff (marker l)) = marker l ∧
      postedStrings (readInto (readInto rbuff (marker l)) [0]) reads' = lens.map marker) := by
  obtain ⟨r, reads, rfl, -⟩ := exists_cons_of_flatten hne hstream
  have hne' : ∀ r ∈ reads, r ≠ [] := fun r hr => hne r (List.mem_cons_of_mem _ hr)
  have hsplit : 2 :: r = marker l → reads.flatten = 0 :: stream (lens.map marker) →
      ∃ reads', (2 :: r) :: reads = marker l :: [0] :: reads' ∧
        reads'.flatten = stream (lens.map marker) ∧ cstr (readInto rbuff (marker l)) = marker l ∧
        postedStrings (readInto (readInto rbuff (marker l)) [0]) reads' = lens.map marker := by
    intro hr htail
    rw [hr] at hposts ⊢
    obtain ⟨reads', rfl, hrest⟩ := split_of_posts hm hne' htail hposts
    exact ⟨reads', rfl, hrest⟩
  rw [List.flatten_cons] at hstream
  obtain ⟨rest, hrest, htail⟩ | ⟨rest, hrest, htail⟩ := List.append_eq_append_iff.mp hstream
  · cases rest with
    | nil => exact .inr (hsplit (by rw [hrest, List.append_nil]) htail)
    | cons x rest =>
      -- the next `read` would begin inside the message
      rw [marker, List.cons_append, List.cons.injEq] at hrest
      have hx : x = 1 := by
        refine List.eq_of_mem_replicate (n := l - 1) ?_
        rw [hrest.2]
        exact List.mem_append_right _ List.mem_cons_self
      obtain ⟨r', reads', rfl, -⟩ := exists_cons_of_flatten hne' htail
      rw [← List.map_cons] at hposts
      have hhead := head_of_posts hposts x r' (List.mem_cons_of_mem _ List.mem_cons_self)
      rw [hx] at hhead
      exact absurd hhead (by decide)
  · cases rest with
    | nil => exact .inr (hsplit (by rw [hrest, List.append_nil]) htail.symm)
    | cons y rest =>
      rw [List.cons_append, List.cons.injEq] at htail
      obtain ⟨rfl, htail⟩ := htail
      have hbegin : marker l ++ [0] <+: 2 :: r := ⟨rest, by rw [hrest, List.append_assoc]; rfl⟩
      have hpost := post_whole rbuff hm hbegin
      rw [postedStrings_cons _ (by rw [hpost]; exact hm.ne_nil), List.cons.injEq] at hposts
      obtain rfl := eq_nil_of_posts hne' hposts.2 htail.symm
      exact .inl ⟨reads, by rw [hrest], htail.symm, by rw [← hrest]; exact hposts.2⟩

/-- **Marked messages are posted in step only.** -/
theorem inStep_of_posts : {lens past : List ℕ} → {reads : List (List Byte)} →
    {rbuff : List Byte} → (∀ l ∈ lens, 0 < l ∧ l < initQsiz - 1) → (∀ r ∈ reads, r ≠ []) →
    reads.flatten = stream (lens.map marker) → Shape past rbuff →
    postedStrings rbuff reads = lens.map marker → InStep past lens (reads.map List.length)
  | [], past, reads, rbuff, _, hne, hstream, _, _ => by
      cases reads with
      | nil => exact .nil
      | cons r reads =>
        exact absurd (List.append_eq_nil_iff.mp hstream).1 (hne r List.mem_cons_self)
  | l :: lens, past, reads, rbuff, hlens, hne, hstream, hshape, hposts => by
      obtain ⟨hpos, hlt⟩ := hlens l List.mem_cons_self
      have hm := isMessage_marker hpos hlt
      have hlen := length_marker hpos
      have hlens' := fun l' hl' => hlens l' (List.mem_cons_of_mem l hl')
      rw [List.map_cons, stream_cons] at hstream
      obtain ⟨reads, rfl, hrest, htail⟩ | ⟨reads, rfl, hrest, hpost, htail⟩ :=
        cases_of_posts hm hne hstream hposts
      · have hshape' := hshape.whole hm
        rw [hlen] at hshape'
        rw [List.map_cons, List.length_append, hlen]
        exact .whole (inStep_of_posts hlens'
          (fun r hr => hne r (List.mem_cons_of_mem _ hr)) hrest hshape' htail)
      · have hstale := (hshape.post_eq_iff hm).mp hpost
        have hshape' := hshape.split hm hstale
        rw [hlen] at hstale hshape'
        rw [List.map_cons, List.map_cons, hlen]
        exact .split hstale (inStep_of_posts hlens'
          (fun r hr => hne r (List.mem_cons_of_mem _ (List.mem_cons_of_mem _ hr))) hrest hshape'
          htail)

end TikFachpraktika.Chat
