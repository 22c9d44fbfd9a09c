import TikFachpraktika.Tikdb.Map

/-!
# What `tikdb get` prints

`get_key_val` reads the payload of the first match into a block of its length and hands this block
to `printf("%s", ..)`, which looks for a NUL. What is printed then depends on the payload: it ends
at a NUL inside, and without one the memory behind the block is read and printed as well. A file may
also end in a part of a header. The bytes that are missing are then those that the header buffer
held before.

## Main definitions

* `printfStr`, `PrintfInside`, `printedValue`: the output of a value.
* `GetsExactly`: `get` prints the payload of the first match and nothing else.
* `EndsInHeader`: the file ends in a part of a header that is taken for an empty record.

## Main results

* `getsExactly_iff`: when `get` prints exactly what is stored.
* `not_forall_getsExactly`: it does not where it finds something.
-/

namespace TikFachpraktika.Tikdb

open Posix

/-- What `printf("%s", buff)` prints when the memory behind the block of `buff` holds `beyond`. -/
def printfStr (buff beyond : List Byte) : List Byte :=
  cstr (buff ++ beyond)

/-- `printf("%s", buff)` finds its NUL inside the block. -/
def PrintfInside (buff : List Byte) : Prop :=
  0 ∈ buff

/-- The value that `get_key_val` prints. The text of a `panic` is none. -/
def printedValue (beyond : List Byte) :
    Except Failure (Option (DataHdr × List Byte)) → List Byte
  | .ok (some (_, buff)) => printfStr buff beyond
  | .ok none => []
  | .error _ => []

/-- The first complete record of the file `data` that the key matches. -/
def firstMatch (data key : List Byte) : Option Record :=
  (splitRecords (data.drop FileHdr.size)).1.find? fun r => keyMatches key r.hdr

/-- Whatever the memory behind the block holds, `get` prints the payload of the first match, with
reads inside the block only, and no value if there is no match. -/
structure GetsExactly (data : List Byte) (stack : CharArray DataHdr.size) (key : List Byte) :
    Prop where
  value : ∀ r, firstMatch data key = some r → ∃ hdr buff,
    getKeyVal (some data) stack key = .ok (some (hdr, buff)) ∧
      (∀ beyond, printfStr buff beyond = r.val) ∧ PrintfInside buff
  noValue : firstMatch data key = none →
    ∀ beyond, printedValue beyond (getKeyVal (some data) stack key) = []

/-- The header that the buffer holds when a read has filled its first bytes. -/
def partialHdr (buffer rest : List Byte) : DataHdr :=
  DataHdr.decode (rest.take DataHdr.size ++ buffer.drop rest.length)

/-- The rest is a part of a header. Together with what the buffer held before it is the header of an
empty record that the key matches. -/
def EndsInHeaderOf (buffer key rest : List Byte) : Prop :=
  0 < rest.length ∧ rest.length < DataHdr.size ∧ keyMatches key (partialHdr buffer rest) ∧
    (partialHdr buffer rest).len = 0

/-- The file ends in such a part of a header. The buffer holds `stack` at the first read and zeros
later. -/
def EndsInHeader (data : List Byte) (stack : CharArray DataHdr.size) (key : List Byte) : Prop :=
  EndsInHeaderOf (bufferAfter stack.1 (splitRecords (data.drop FileHdr.size)).1) key
    (splitRecords (data.drop FileHdr.size)).2

/-! ### The loop on a rest -/

section Rest

variable {key rest : List Byte}

/-- A header and the bytes behind it are no complete record. -/
theorem length_lt_partialHdr (hrest : parseRecord rest = none) {hdr : List Byte}
    (hhdr : hdr.length = DataHdr.size) :
    rest.length < DataHdr.size + (partialHdr hdr rest).len.toNat := by
  rcases Nat.lt_or_ge rest.length DataHdr.size with hlt | hge
  · exact Nat.lt_add_right _ hlt
  · have hfull : partialHdr hdr rest = firstHdr rest := by
      rw [partialHdr, List.drop_eq_nil_of_le (hhdr.le.trans hge), List.append_nil, firstHdr]
    rw [hfull]
    exact parseRecord_eq_none_iff_lt.mp hrest

/-- The read of the payload finds fewer bytes than announced, unless none are announced. -/
theorem count_payload_ne_iff (hrest : parseRecord rest = none) {hdr : List Byte}
    (hhdr : hdr.length = DataHdr.size) :
    cInt (((rest.drop DataHdr.size).take (partialHdr hdr rest).len.toNat).length : ℤ) % 2 ^ 32 ≠
      ((partialHdr hdr rest).len.toNat : ℤ) ↔ (partialHdr hdr rest).len ≠ 0 := by
  have hlen := length_lt_partialHdr hrest hhdr
  have hlt := (partialHdr hdr rest).len.toNat_lt
  have hzero : (partialHdr hdr rest).len = 0 ↔ (partialHdr hdr rest).len.toNat = 0 :=
    UInt32.toNat_inj.symm
  rw [List.length_take, List.length_drop, cInt_emod (by omega), ne_eq, ne_eq, hzero]
  omega

/-- The part of the buffer that a read of its size does not overwrite. -/
theorem drop_length_take {α : Type*} {n : ℕ} {buffer : List α} (h : buffer.length = n)
    (bs : List α) : buffer.drop (bs.take n).length = buffer.drop bs.length := by
  rw [List.length_take]
  rcases Nat.le_total bs.length n with hle | hle
  · rw [Nat.min_eq_right hle]
  · rw [Nat.min_eq_left hle, List.drop_eq_nil_of_le h.le, List.drop_eq_nil_of_le (h.le.trans hle)]

/-- A rest that matches is printed only if it is taken for an empty record. -/
theorem getKeyValLoop_rest (hrest : parseRecord rest = none) (hne : rest ≠ [])
    (pre : List Byte) {hdr : List Byte} (hhdr : hdr.length = DataHdr.size) :
    getKeyValLoop key hdr ⟨pre ++ rest, pre.length, false⟩ =
      if keyMatches key (partialHdr hdr rest) then
        if (partialHdr hdr rest).len = 0 then .ok (some (partialHdr hdr rest, []))
        else .error (.panic "Cannnot read value!\n")
      else .ok none := by
  have hhead : (rest.take DataHdr.size).length = min DataHdr.size rest.length := List.length_take
  have hfirst : 0 < (rest.take DataHdr.size).length := by
    rw [hhead, DataHdr.size]
    exact lt_min (by decide) (List.length_pos_iff.mpr hne)
  have hsplit : pre ++ rest = (pre ++ rest.take DataHdr.size) ++ rest.drop DataHdr.size := by
    rw [List.append_assoc, List.take_append_drop]
  have hlen := length_lt_partialHdr hrest hhdr
  rw [getKeyValLoop, OpenFile.read_full_append, dif_pos (Int.natCast_pos.mpr hfirst)]
  dsimp only
  rw [drop_length_take hhdr, ← partialHdr, hsplit]
  simp only [OpenFile.read_full_append, OpenFile.lseekCur, count_payload_ne_iff hrest hhdr]
  by_cases hmatch : keyMatches key (partialHdr hdr rest)
  · rw [if_pos hmatch, if_pos hmatch]
    by_cases hzero : (partialHdr hdr rest).len = 0
    · rw [if_neg (not_not.mpr hzero), if_pos hzero, hzero]
      rfl
    · rw [if_pos hzero, if_neg hzero]
      rfl
  · rw [if_neg hmatch, if_neg hmatch]
    refine getKeyValLoop_of_length_le ?_ _
    dsimp only
    rw [← hsplit, List.length_append, List.length_append, hhead]
    omega

/-- Whatever the memory behind an empty block holds, nothing is printed after the last record, if
and only if the file does not end in such a part of a header. -/
theorem printedValue_rest_iff (hrest : parseRecord rest = none) (pre : List Byte)
    {buffer : List Byte} (hbuffer : buffer.length = DataHdr.size) :
    (∀ beyond, printedValue beyond
        (getKeyValLoop key buffer ⟨pre ++ rest, pre.length, false⟩) = []) ↔
      ¬EndsInHeaderOf buffer key rest := by
  by_cases hnil : rest = []
  · have hend : getKeyValLoop key buffer ⟨pre ++ rest, pre.length, false⟩ = .ok none :=
      getKeyValLoop_of_length_le (by simp [hnil]) buffer
    rw [hend]
    refine iff_of_true (fun beyond => rfl) fun h => ?_
    exact absurd h.1 (by simp [hnil])
  · have hlen := length_lt_partialHdr hrest hbuffer
    rw [getKeyValLoop_rest hrest hnil pre hbuffer]
    by_cases htaken : keyMatches key (partialHdr buffer rest) ∧ (partialHdr buffer rest).len = 0
    · rw [if_pos htaken.1, if_pos htaken.2]
      refine iff_of_false (fun hnone => ?_) (not_not.mpr ?_)
      · -- behind the empty block may stand any text
        have htext : printfStr [] [97] = [] := hnone [97]
        exact absurd htext (by decide)
      · rw [htaken.2] at hlen
        exact ⟨List.length_pos_iff.mpr hnil, hlen, htaken⟩
    · refine iff_of_true (fun beyond => ?_) fun h => htaken h.2.2
      split_ifs with hmatch hzero
      · exact absurd ⟨hmatch, hzero⟩ htaken
      · rfl
      · rfl

end Rest

/-! ### Files -/

/-- A value that is printed as it is has no NUL, so that the search for one leaves its block. -/
theorem not_printfInside {buff : List Byte} (h : ∀ beyond, printfStr buff beyond = buff) :
    ¬PrintfInside buff := by
  rw [PrintfInside, ← h []]
  exact zero_notMem_cstr _

/-- `get` on a file with a superblock: the first match, or the end of the loop. -/
theorem getKeyVal_eq (bs : List Byte) (stack : CharArray DataHdr.size) (key : List Byte) :
    getKeyVal (some (superblock.encode ++ bs)) stack key =
      (firstMatch (superblock.encode ++ bs) key).elim
        (getKeyValLoop key (bufferAfter stack.1 (splitRecords bs).1)
          ⟨(superblock.encode ++ encodeRecords (splitRecords bs).1) ++ (splitRecords bs).2,
            (superblock.encode ++ encodeRecords (splitRecords bs).1).length, false⟩)
        fun r => .ok (some r.found) := by
  have hloop := @getKeyValLoop_records key (splitRecords bs).2 (splitRecords bs).1
    superblock.encode stack.1 stack.2
  rw [encodeRecords_splitRecords] at hloop
  rw [getKeyVal_append, hloop, firstMatch, List.drop_left' (FileHdr.length_encode _)]

/-- A value that is found is never printed exactly and from its block alone. -/
theorem not_getsExactly_of_firstMatch {bs key : List Byte} {r : Record}
    (hfirst : firstMatch (superblock.encode ++ bs) key = some r) (stack : CharArray DataHdr.size) :
    ¬GetsExactly (superblock.encode ++ bs) stack key := by
  intro hexact
  have hget := getKeyVal_eq bs stack key
  rw [hfirst] at hget
  obtain ⟨hdr, buff, hsel, hprint, hinside⟩ := hexact.value r hfirst
  have hbuff : buff = r.val := congrArg Prod.snd
    (Option.some.inj (Except.ok.inj (hsel.symm.trans hget)))
  subst hbuff
  exact not_printfInside hprint hinside

/-- **When `get` prints exactly what is stored.** On a file that passes the check, with any bytes
after its superblock, `get` prints the payload of the first match, reads only its block and prints
no value without a match, if and only if no complete record matches and the file does not end in a
part of a header that is taken for an empty record. -/
theorem getsExactly_iff {data : List Byte} {fd : OpenFile}
    (hcheck : checkDbHdr ⟨data, 0, false⟩ = .ok fd) (stack : CharArray DataHdr.size)
    (key : List Byte) :
    GetsExactly data stack key ↔ firstMatch data key = none ∧ ¬EndsInHeader data stack key := by
  obtain ⟨bs, rfl⟩ := exists_of_checkDbHdr hcheck
  cases hfirst : firstMatch (superblock.encode ++ bs) key with
  | some r =>
    exact iff_of_false (not_getsExactly_of_firstMatch hfirst stack)
      fun h => Option.some_ne_none r h.1
  | none =>
    have hget := getKeyVal_eq bs stack key
    have hend := @printedValue_rest_iff key _ (parseRecord_splitRecords bs)
      (superblock.encode ++ encodeRecords (splitRecords bs).1) _
      (length_bufferAfter stack.2 (splitRecords bs).1)
    rw [hfirst] at hget
    rw [EndsInHeader, List.drop_left' (FileHdr.length_encode _), ← hend, and_iff_right rfl]
    constructor
    · intro hexact beyond
      rw [← hexact.noValue hfirst beyond, hget]
      rfl
    · intro hnone
      refine ⟨fun r hr => ?_, fun _ beyond => ?_⟩
      · rw [hfirst] at hr
        cases hr
      · rw [hget]
        exact hnone beyond

/-- A file with the one record `"ab"`: `get "ab"` does not print its value exactly, and `get "b"`
prints nothing. -/
theorem getsExactly_iff_strAB :
    ¬GetsExactly (encodeDb [newRecord strAB.bytes strAB.bytes 0]) (CharArray.fill DataHdr.size [])
        strAB.bytes ∧
      GetsExactly (encodeDb [newRecord strAB.bytes strAB.bytes 0]) (CharArray.fill DataHdr.size [])
        [98] := by
  have hrest : (splitRecords ((encodeDb [newRecord strAB.bytes strAB.bytes 0]).drop
      FileHdr.size)).2 = [] := by decide +kernel
  constructor
  · intro hexact
    have hnone := ((getsExactly_iff (checkDbHdr_append _) _ strAB.bytes).mp hexact).1
    have hsome : (firstMatch (encodeDb [newRecord strAB.bytes strAB.bytes 0])
        strAB.bytes).isSome := by
      decide +kernel
    rw [encodeDb, hnone] at hsome
    cases hsome
  · refine (getsExactly_iff (checkDbHdr_append _) _ [98]).mpr ⟨?_, fun hends => ?_⟩
    · exact Option.isNone_iff_eq_none.mp (by decide +kernel)
    · have hempty := hends.1
      rw [← encodeDb, hrest] at hempty
      exact absurd hempty (lt_irrefl 0)

/-- **`get` does not print exactly what is stored**: for `get "ab"` on this file the search for a
NUL goes on behind the block of the value. -/
theorem not_forall_getsExactly :
    ¬∀ (data : List Byte) (fd : OpenFile) (stack : CharArray DataHdr.size) (key : List Byte),
      checkDbHdr ⟨data, 0, false⟩ = .ok fd → key ≠ [] → key.length ≤ 31 →
      GetsExactly data stack key := by
  intro hall
  have hsplit := splitRecords_append parseRecord_nil [newRecord strAB.bytes strAB.bytes 0]
  rw [List.append_nil] at hsplit
  have hfirst : firstMatch (encodeDb [newRecord strAB.bytes strAB.bytes 0]) strAB.bytes =
      some (newRecord strAB.bytes strAB.bytes 0) := by
    rw [firstMatch, encodeDb, List.drop_left' (FileHdr.length_encode _), hsplit]
    decide +kernel
  exact not_getsExactly_of_firstMatch hfirst (CharArray.fill DataHdr.size [])
    (hall _ _ _ strAB.bytes (checkDbHdr_append _) (by decide) (by decide))

end TikFachpraktika.Tikdb
