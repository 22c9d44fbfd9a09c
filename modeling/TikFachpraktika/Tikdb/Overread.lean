import TikFachpraktika.Tikdb.Map

/-!
# Reads behind the end of the buffer

The loop of `__add_key_val` runs as long as a record starts inside the buffer; that the record also
ends there it does not check. It copies complete records, and then meets the rest of a file that
holds no complete one: too few bytes for a header, or a header with too few payload bytes. A rest
that is copied is read behind its end. Only one that gives its place to the new record is not, since
of this one the loop reads no more than the key and the length.

## Main definitions

* `EndsInside`: the rest, or the way to it, keeps the loop inside the buffer.

## Main results

* `addKeyVal_ne_overread_iff`: when an `add` reads only inside its buffer.
* `not_forall_addKeyVal_ne_overread`: a file of nine bytes leads it out.
-/

namespace TikFachpraktika.Tikdb

open Posix

/-- The rest matches, as far as `memcmp` compares it, and the length field that is read after the
new record is written lies inside. -/
def ReplacesRest (key val : CStr) (rest : List Byte) : Prop :=
  min key.bytes.length 31 ≤ rest.length ∧ keyMatches key.bytes (firstHdr rest) ∧
    (val.bytes.length < 2 ^ 31 → DataHdr.offLen + 4 ≤ rest.length)

/-- There is no rest, or the command ends before it with the message that a value of this length
cannot be written, or the rest is the first match. -/
def EndsInside (key val : CStr) (rs : List Record) (rest : List Byte) : Prop :=
  rest = [] ∨ ((∃ r ∈ rs, keyMatches key.bytes r.hdr) ∧ 2 ^ 31 ≤ val.bytes.length) ∨
    ((∀ r ∈ rs, ¬keyMatches key.bytes r.hdr) ∧ ReplacesRest key val rest)

/-! ### The loop on a rest -/

section Rest

variable {key val : List Byte} {now : Int64} {rest : List Byte}

/-- Once the new record is written a rest is copied, and read behind its end. -/
theorem addKeyValLoop_true_rest (hrest : parseRecord rest = none) (hne : rest ≠ [])
    (pre : List Byte) (fd : OpenFile) :
    addKeyValLoop key val now (pre ++ rest) pre.length true fd = .error .overread := by
  have hpos := List.length_pos_iff.mpr hne
  have hlt := parseRecord_eq_none_iff_lt.mp hrest
  rw [firstHdr] at hlt
  rw [addKeyValLoop, dif_pos (by rw [List.length_append]; omega)]
  simp only [List.drop_left, Bool.not_true, Bool.false_and, Bool.false_eq_true, ↓reduceIte]
  rw [if_pos (by rw [List.length_append]; omega)]
  rfl

/-- Before, the rest is copied unless it matches. -/
theorem addKeyValLoop_false_rest (hrest : parseRecord rest = none) (hne : rest ≠ [])
    (pre : List Byte) (fd : OpenFile) :
    addKeyValLoop key val now (pre ++ rest) pre.length false fd =
      if min key.length 31 ≤ rest.length ∧ keyMatches key (firstHdr rest) then do
        let fd ← writeNew fd key val now
        if rest.length < DataHdr.offLen + 4 then .error .overread else .ok (true, fd)
      else .error .overread := by
  have hpos := List.length_pos_iff.mpr hne
  have hlt := parseRecord_eq_none_iff_lt.mp hrest
  have hnext (fd : OpenFile) : addKeyValLoop key val now (pre ++ rest)
      (pre.length + DataHdr.size + (firstHdr rest).len.toNat) true fd = .ok (true, fd) := by
    rw [addKeyValLoop, dif_neg (by rw [List.length_append]; omega)]
    rfl
  rw [firstHdr] at hlt hnext ⊢
  have hkey : (pre ++ rest).length < pre.length + min key.length 31 ↔
      ¬min key.length 31 ≤ rest.length := by
    rw [List.length_append]
    omega
  have hlen : (pre ++ rest).length < pre.length + DataHdr.offLen + 4 ↔
      rest.length < DataHdr.offLen + 4 := by
    rw [List.length_append]
    omega
  rw [addKeyValLoop, dif_pos (by rw [List.length_append]; omega)]
  simp only [List.drop_left, Bool.not_false, Bool.true_and, hkey, hlen, hnext, decide_eq_true_eq]
  by_cases hread : min key.length 31 ≤ rest.length
  · rw [if_neg (not_not.mpr hread)]
    by_cases hmatch : keyMatches key (DataHdr.decode (rest.take DataHdr.size))
    · rw [if_pos hmatch, if_pos ⟨hread, hmatch⟩]
      rfl
    · rw [if_neg hmatch, if_pos (by rw [List.length_append]; omega), if_neg fun h => hmatch h.2]
      rfl
  · rw [if_pos hread, if_neg fun h => hread h.1]
    rfl

end Rest

/-! ### The loop on a file -/

section File

variable {key val : CStr} {now : Int64} {rest : List Byte}

theorem endsInside_nil (hne : rest ≠ []) :
    EndsInside key val [] rest ↔ ReplacesRest key val rest := by
  simp [EndsInside, hne]

/-- After a match nothing more is replaced. -/
theorem endsInside_cons_of_pos {r : Record} (h : keyMatches key.bytes r.hdr) (rs : List Record) :
    EndsInside key val (r :: rs) rest ↔ rest = [] ∨ 2 ^ 31 ≤ val.bytes.length := by
  simp [EndsInside, h]

theorem endsInside_cons_of_neg {r : Record} (h : ¬keyMatches key.bytes r.hdr) (rs : List Record) :
    EndsInside key val (r :: rs) rest ↔ EndsInside key val rs rest := by
  simp [EndsInside, h]

/-- Once the new record is written only a file without a rest is copied from inside. -/
theorem addKeyValLoop_true_ne_overread_iff (hrest : parseRecord rest = none) (rs : List Record)
    (pre data : List Byte) :
    addKeyValLoop key.bytes val.bytes now (pre ++ (encodeRecords rs ++ rest)) pre.length true
        (atEnd data) ≠ .error .overread ↔ rest = [] := by
  rw [addKeyValLoop_true]
  by_cases hnil : rest = []
  · rw [hnil, List.append_nil, addKeyValLoop_nil]
    exact iff_of_true (pure_ne_error _ _) rfl
  · rw [addKeyValLoop_true_rest hrest hnil]
    exact iff_of_false (not_not.mpr rfl) hnil

/-- Before, a rest must be the one that is replaced. -/
theorem addKeyValLoop_false_rest_ne_overread_iff (hrest : parseRecord rest = none)
    (hne : rest ≠ []) (pre data : List Byte) :
    addKeyValLoop key.bytes val.bytes now (pre ++ rest) pre.length false (atEnd data) ≠
      .error .overread ↔ ReplacesRest key val rest := by
  rw [addKeyValLoop_false_rest hrest hne, ReplacesRest, ← and_assoc]
  by_cases hfirst : min key.bytes.length 31 ≤ rest.length ∧ keyMatches key.bytes (firstHdr rest)
  · rw [if_pos hfirst, and_iff_right hfirst]
    rcases Nat.lt_or_ge val.bytes.length (2 ^ 31) with hval | hval
    · rw [writeNew_atEnd hval, ok_bind]
      split_ifs with hshort
      · exact iff_of_false (not_not.mpr rfl) fun h => absurd (h hval) (not_le.mpr hshort)
      · exact iff_of_true (pure_ne_error _ _) fun _ => not_lt.mp hshort
    · rw [writeNew_of_le val.length_lt hval, error_bind]
      exact iff_of_true (throw_ne_error (by decide)) fun hlt => absurd hlt (not_lt.mpr hval)
  · rw [if_neg hfirst]
    exact iff_of_false (not_not.mpr rfl) fun h => hfirst h.1

/-- The loop on the records of a file and its rest. -/
theorem addKeyValLoop_ne_overread_iff (hrest : parseRecord rest = none) : (rs : List Record) →
    (pre data : List Byte) →
    (addKeyValLoop key.bytes val.bytes now (pre ++ (encodeRecords rs ++ rest)) pre.length false
        (atEnd data) ≠ .error .overread ↔ EndsInside key val rs rest)
  | [], pre, data => by
      rw [encodeRecords_nil, List.nil_append]
      by_cases hnil : rest = []
      · rw [hnil, List.append_nil, addKeyValLoop_nil]
        exact iff_of_true (pure_ne_error _ _) (.inl rfl)
      · rw [endsInside_nil hnil]
        exact addKeyValLoop_false_rest_ne_overread_iff hrest hnil pre data
  | r :: rs, pre, data => by
      rw [encodeRecords_cons, List.append_assoc r.encode, addKeyValLoop_record, Bool.not_false,
        Bool.true_and]
      by_cases hmatch : keyMatches key.bytes r.hdr
      · rw [if_pos hmatch, endsInside_cons_of_pos hmatch]
        rcases Nat.lt_or_ge val.bytes.length (2 ^ 31) with hval | hval
        · rw [writeNew_atEnd hval, ok_bind, or_iff_left (not_le.mpr hval)]
          exact addKeyValLoop_true_ne_overread_iff hrest rs _ _
        · rw [writeNew_of_le val.length_lt hval, error_bind]
          exact iff_of_true (throw_ne_error (by decide)) (.inr hval)
      · rw [if_neg hmatch, endsInside_cons_of_neg hmatch]
        exact addKeyValLoop_ne_overread_iff hrest rs _ _

/-- The loop alone decides whether the buffer is left. -/
theorem addKeyValPay_ne_overread_iff (key val : List Byte) (now : Int64) (dbPay : List Byte) :
    addKeyValPay key val now dbPay ≠ .error .overread ↔
      addKeyValLoop key val now dbPay 0 false createDbFd ≠ .error .overread := by
  have hwrite (fd : OpenFile) : writeNew fd key val now ≠ .error .overread := by
    rw [writeNew]
    split_ifs
    · exact throw_ne_error (by decide)
    · exact pure_ne_error _ _
  have hend (p : Bool × OpenFile) : addKeyValEnd key val now p ≠ .error .overread := by
    obtain ⟨written, fd⟩ := p
    rw [addKeyValEnd]
    split_ifs
    · exact hwrite fd
    · exact pure_ne_error _ _
  rw [addKeyValPay]
  constructor
  · intro hpay hloop
    rw [hloop] at hpay
    exact hpay rfl
  · intro hloop
    exact bind_ne_error (bind_ne_error hloop fun p _ => hend p) fun fd _ => pure_ne_error _ _

end File

/-- **When `add` stays inside its buffer.** On a file that passes the check, with any bytes after
its superblock, `add` reads no byte of its buffer behind the end if and only if it ends before the
loop, with the message that the file is too long to be read, or the rest behind the complete records
keeps the loop inside. -/
theorem addKeyVal_ne_overread_iff {data : List Byte} {fd : OpenFile}
    (hcheck : checkDbHdr ⟨data, 0, false⟩ = .ok fd) (key val : CStr) (now : Int64) :
    addKeyVal (some data) key.bytes val.bytes now ≠ .error .overread ↔
      cSizeT (cInt (data.drop FileHdr.size).length) ≠ (data.drop FileHdr.size).length ∨
        EndsInside key val (splitRecords (data.drop FileHdr.size)).1
          (splitRecords (data.drop FileHdr.size)).2 := by
  obtain ⟨bs, rfl⟩ := exists_of_checkDbHdr hcheck
  rw [List.drop_left' (FileHdr.length_encode _), addKeyVal_append]
  split_ifs with hint
  · exact iff_of_true (throw_ne_error (by decide)) (.inl hint)
  · rw [addKeyValPay_ne_overread_iff, or_iff_right hint, createDbFd_eq]
    have hloop := @addKeyValLoop_ne_overread_iff key val now _ (parseRecord_splitRecords bs)
      (splitRecords bs).1 [] superblock.encode
    rwa [List.nil_append, List.length_nil, encodeRecords_splitRecords] at hloop

/-- One byte behind the superblock. -/
def byteDb : List Byte := superblock.encode ++ [97]

theorem checkDbHdr_byteDb : checkDbHdr ⟨byteDb, 0, false⟩ = .ok ⟨byteDb, FileHdr.size, false⟩ := by
  decide +kernel

/-- `add "ab" "ab"` on this file reads outside of it, and on a file of two records it does not. -/
theorem addKeyVal_ne_overread_iff_byteDb :
    ¬addKeyVal (some byteDb) strAB.bytes strAB.bytes 0 ≠ .error .overread ∧
      addKeyVal (some (encodeDb recordsAB)) strAB.bytes strAB.bytes 0 ≠ .error .overread := by
  have hint : cSizeT (cInt (byteDb.drop FileHdr.size).length) =
      (byteDb.drop FileHdr.size).length := by
    decide +kernel
  have hsplit : splitRecords (byteDb.drop FileHdr.size) = ([], [97]) := by decide +kernel
  have hrecords : (splitRecords ((encodeDb recordsAB).drop FileHdr.size)).2 = [] := by
    decide +kernel
  constructor
  · rw [addKeyVal_ne_overread_iff checkDbHdr_byteDb strAB strAB 0, hsplit,
      endsInside_nil (List.cons_ne_nil _ _)]
    rintro (hne | ⟨hlen, -⟩)
    · exact hne hint
    · exact absurd hlen (by decide)
  · exact (addKeyVal_ne_overread_iff (checkDbHdr_append _) strAB strAB 0).mpr (.inr (.inl hrecords))

/-- **`add` does not always stay inside its buffer**: it takes a single byte behind the superblock
for a header. -/
theorem not_forall_addKeyVal_ne_overread :
    ¬∀ (data : List Byte) (fd : OpenFile) (key val : CStr) (now : Int64),
      checkDbHdr ⟨data, 0, false⟩ = .ok fd →
      addKeyVal (some data) key.bytes val.bytes now ≠ .error .overread := by
  intro hall
  have hread : addKeyVal (some byteDb) strAB.bytes strAB.bytes 0 = .error .overread := by
    decide +kernel
  exact hall byteDb _ strAB strAB 0 checkDbHdr_byteDb hread

end TikFachpraktika.Tikdb
