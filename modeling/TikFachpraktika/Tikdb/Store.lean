import TikFachpraktika.Tikdb.Commands
import TikFachpraktika.Tikdb.Split
import TikFachpraktika.Keyed.FirstMatch

/-!
# The database file as a first-match store

On a well-formed file the scans of `add_key_val` and `get_key_val` are the scans of a first-match
store (`TikFachpraktika.Keyed.FirstMatch`) whose entries are the records, whose keys are the
strings in the key fields and where a key matches the keys that it is a prefix of.

## Main definitions

* `newRecord`: the record that `add` writes.
* `opOf`, `recordsAfter`: a command history as a history of the store, and its entries.

## Main results

* `eq_encodeDb_of_addKeyVal`, `getKeyVal_encodeDb`: the commands on a well-formed file.
* `eq_encodeDb_of_dbAfter`: the file after a history of commands.
-/

namespace TikFachpraktika.Tikdb

open Posix

/-! ### Matching keys -/

theorem take_min_length {α : Type*} (n : ℕ) (l : List α) :
    l.take (min l.length n) = l.take n := by
  rcases Nat.le_total l.length n with h | h
  · rw [Nat.min_eq_left h, List.take_length, List.take_of_length_le h]
  · rw [Nat.min_eq_right h]

/-- The key cut to the 31 bytes that fit into the key field is a prefix of the key found there. -/
theorem keyMatches_iff {key : List Byte} (hkey : (0 : Byte) ∉ key) (hdr : DataHdr) :
    keyMatches key hdr ↔ key.take 31 <+: hdr.keyStr := by
  have hcut : (0 : Byte) ∉ key.take 31 := fun h => hkey (List.mem_of_mem_take h)
  have hlen : min key.length 31 ≤ hdr.key.1.length := by
    rw [hdr.key.2]
    omega
  rw [keyMatches, decide_eq_true_iff, memcmp_eq_zero_iff _ _ _ hlen (Nat.min_le_left _ _),
    take_min_length, DataHdr.keyStr, prefix_cstr_iff hcut, List.prefix_iff_eq_take,
    List.length_take, Nat.min_comm, eq_comm]

/-- A key that fits into the key field matches the keys that it is a prefix of. -/
theorem keyMatches_eq_decide {key : List Byte} (hkey : (0 : Byte) ∉ key) (hlen : key.length ≤ 31) :
    (fun r : Record => keyMatches key r.hdr) = fun r => decide (key <+: r.keyStr) := by
  funext r
  rw [Bool.eq_iff_iff, keyMatches_iff hkey, decide_eq_true_iff, List.take_of_length_le hlen]
  rfl

theorem keyStr_newHdr {key : List Byte} (hkey : (0 : Byte) ∉ key) (vlen : ℕ) (now : Int64) :
    (newHdr key vlen now).keyStr = key.take 31 := by
  have hcut : (0 : Byte) ∉ key.take 31 := fun h => hkey (List.mem_of_mem_take h)
  rw [DataHdr.keyStr, newHdr, take_min_length, cstr_fill hcut, List.take_take]
  rfl

/-- The record that `add` writes. A command completes only for values of less than `2^31` bytes,
which are stored whole. -/
def newRecord (key val : List Byte) (now : Int64) : Record where
  hdr := newHdr key val.length now
  val := val.take (UInt32.ofNat val.length).toNat
  length_val := by
    rw [List.length_take, newHdr, UInt32.toNat_ofNat']
    exact Nat.min_eq_left (Nat.mod_le _ _)

theorem newRecord_val {val : List Byte} (h : val.length < 2 ^ 32) (key : List Byte) (now : Int64) :
    (newRecord key val now).val = val := by
  refine List.take_of_length_le ?_
  rw [UInt32.toNat_ofNat', Nat.mod_eq_of_lt h]

theorem encode_newRecord {val : List Byte} (h : val.length < 2 ^ 32) (key : List Byte)
    (now : Int64) :
    (newRecord key val now).encode = (newHdr key val.length now).encode ++ val := by
  rw [Record.encode, newRecord_val h]
  rfl

/-! ### The scan of `add` -/

/-- A file whose description stands at its end. -/
def atEnd (data : List Byte) : OpenFile := ⟨data, data.length, false⟩

@[simp] theorem atEnd_data (data : List Byte) : (atEnd data).data = data := rfl

@[simp] theorem atEnd_write (data bs : List Byte) : (atEnd data).write bs = atEnd (data ++ bs) := by
  rw [OpenFile.write_of_offset_eq rfl, atEnd, atEnd, List.length_append]

theorem createDbFd_eq : createDbFd = atEnd superblock.encode :=
  atEnd_write [] superblock.encode

theorem writeNew_atEnd {val : List Byte} (hval : val.length < 2 ^ 31) (data key : List Byte)
    (now : Int64) :
    writeNew (atEnd data) key val now = .ok (atEnd (data ++ (newRecord key val now).encode)) := by
  have hint : cSizeT (cInt val.length) = val.length :=
    (cSizeT_cInt_eq_iff (by omega)).mpr hval
  rw [writeNew, if_neg (not_not.mpr hint), encode_newRecord (by omega), atEnd_write, atEnd_write,
    List.append_assoc]
  rfl

theorem writeNew_of_le {val : List Byte} (hlt : val.length < 2 ^ 63) (hval : 2 ^ 31 ≤ val.length)
    (fd : OpenFile) (key : List Byte) (now : Int64) :
    writeNew fd key val now = .error (.panic "Writing to db .. corrupted!\n") := by
  have hint : cSizeT (cInt val.length) ≠ val.length := fun h => by
    have := (cSizeT_cInt_eq_iff hlt).mp h
    omega
  rw [writeNew, if_pos hint]
  rfl

section Loop

variable {key val : List Byte} {now : Int64}

/-- One round of the loop on a record, whatever follows it. -/
theorem addKeyValLoop_record (pre : List Byte) (r : Record) (rest : List Byte) (written : Bool)
    (data : List Byte) :
    addKeyValLoop key val now (pre ++ (r.encode ++ rest)) pre.length written (atEnd data) =
      if !written && keyMatches key r.hdr then do
        let fd ← writeNew (atEnd data) key val now
        addKeyValLoop key val now ((pre ++ r.encode) ++ rest) (pre ++ r.encode).length true fd
      else
        addKeyValLoop key val now ((pre ++ r.encode) ++ rest) (pre ++ r.encode).length written
          (atEnd (data ++ r.encode)) := by
  have hpay : pre ++ (r.encode ++ rest) = (pre ++ r.encode) ++ rest := (List.append_assoc ..).symm
  have hraw : ((pre ++ (r.encode ++ rest)).drop pre.length).take DataHdr.size = r.hdr.encode := by
    rw [List.drop_left, Record.encode, List.append_assoc, List.take_left' (by simp)]
  have hval : ((pre ++ (r.encode ++ rest)).drop (pre.length + DataHdr.size)).take
      r.hdr.len.toNat = r.val := by
    rw [← List.drop_drop, List.drop_left, Record.encode, List.append_assoc,
      List.drop_left' (by simp), List.take_left' r.length_val]
  have hnext : pre.length + DataHdr.size + r.hdr.len.toNat = (pre ++ r.encode).length := by
    rw [List.length_append, r.length_encode, Nat.add_assoc]
  have hcopy : ¬(pre ++ (r.encode ++ rest)).length < (pre ++ r.encode).length := by
    rw [hpay, @List.length_append _ (pre ++ r.encode)]
    omega
  have hsize : pre.length + 56 ≤ (pre ++ (r.encode ++ rest)).length := by
    rw [← hnext, DataHdr.size] at hcopy
    omega
  have hkey : ¬(pre ++ (r.encode ++ rest)).length < pre.length + min key.length 31 := by omega
  have hlen : ¬(pre ++ (r.encode ++ rest)).length < pre.length + DataHdr.offLen + 4 := by
    rw [DataHdr.offLen]
    omega
  rw [addKeyValLoop, dif_pos (by omega)]
  simp only [hraw, DataHdr.decode_encode, hnext, hval, hkey, hlen, hcopy, decide_false,
    Bool.and_false, Bool.false_eq_true, ↓reduceIte]
  rw [hpay, atEnd_write, atEnd_write, List.append_assoc data]
  rfl

theorem addKeyValLoop_nil (pre : List Byte) (written : Bool) (fd : OpenFile) :
    addKeyValLoop key val now pre pre.length written fd = .ok (written, fd) := by
  rw [addKeyValLoop, dif_neg (Nat.lt_irrefl _)]
  rfl

/-- Once the new record is written the records are copied. -/
theorem addKeyValLoop_true (rest : List Byte) : (rs : List Record) → (pre data : List Byte) →
    addKeyValLoop key val now (pre ++ (encodeRecords rs ++ rest)) pre.length true (atEnd data) =
      addKeyValLoop key val now ((pre ++ encodeRecords rs) ++ rest) (pre ++ encodeRecords rs).length
        true (atEnd (data ++ encodeRecords rs))
  | [], pre, data => by
      rw [encodeRecords_nil, List.append_nil, List.append_nil, List.nil_append]
  | r :: rs, pre, data => by
      rw [encodeRecords_cons, List.append_assoc r.encode, addKeyValLoop_record, if_neg (by simp),
        addKeyValLoop_true rest rs]
      simp only [List.append_assoc]

theorem addKeyValEnd_false (fd : OpenFile) :
    addKeyValEnd key val now (false, fd) = writeNew fd key val now := by
  simp only [addKeyValEnd, Bool.not_false, ↓reduceIte]

theorem addKeyValEnd_true (fd : OpenFile) :
    addKeyValEnd key val now (true, fd) = .ok fd := by
  simp only [addKeyValEnd, Bool.not_true, Bool.false_eq_true, ↓reduceIte]
  rfl

/-- The loop with its end writes the file with the first match replaced. -/
theorem addKeyValLoop_false (hval : val.length < 2 ^ 31) : (rs : List Record) →
    (pre data : List Byte) →
    addKeyValLoop key val now (pre ++ encodeRecords rs) pre.length false (atEnd data) >>=
        addKeyValEnd key val now =
      .ok (atEnd (data ++ encodeRecords
        (Keyed.replaceFirst (fun r => keyMatches key r.hdr) (newRecord key val now) rs)))
  | [], pre, data => by
      rw [encodeRecords_nil, List.append_nil, addKeyValLoop_nil, ok_bind,
        addKeyValEnd_false, writeNew_atEnd hval, Keyed.replaceFirst, encodeRecords,
        List.flatMap_singleton]
  | r :: rs, pre, data => by
      rw [encodeRecords_cons, addKeyValLoop_record, Keyed.replaceFirst]
      simp only [Bool.not_false, Bool.true_and]
      split_ifs with hmatch
      · have hcopy := @addKeyValLoop_true key val now [] rs (pre ++ r.encode)
          (data ++ (newRecord key val now).encode)
        rw [List.append_nil, List.append_nil, addKeyValLoop_nil] at hcopy
        rw [writeNew_atEnd hval, ok_bind, hcopy, ok_bind, addKeyValEnd_true, List.append_assoc]
        rfl
      · rw [addKeyValLoop_false hval rs, List.append_assoc]
        rfl

/-- A value whose length an `int` does not hold is never added. -/
theorem addKeyValLoop_false_of_le (hlt : val.length < 2 ^ 63) (hval : 2 ^ 31 ≤ val.length) :
    (rs : List Record) → (pre data : List Byte) →
    addKeyValLoop key val now (pre ++ encodeRecords rs) pre.length false (atEnd data) >>=
        addKeyValEnd key val now = .error (.panic "Writing to db .. corrupted!\n")
  | [], pre, data => by
      rw [encodeRecords_nil, List.append_nil, addKeyValLoop_nil, ok_bind,
        addKeyValEnd_false, writeNew_of_le hlt hval]
  | r :: rs, pre, data => by
      rw [encodeRecords_cons, addKeyValLoop_record]
      simp only [Bool.not_false, Bool.true_and]
      split_ifs with hmatch
      · rw [writeNew_of_le hlt hval, error_bind, error_bind]
      · exact addKeyValLoop_false_of_le hlt hval rs _ _

end Loop

/-! ### The commands on a file with a superblock -/

theorem checkDbHdr_append (bs : List Byte) :
    checkDbHdr ⟨superblock.encode ++ bs, 0, false⟩ =
      .ok ⟨superblock.encode ++ bs, superblock.encode.length, false⟩ := by
  have hread := OpenFile.read_full_of_data (f := ⟨superblock.encode ++ bs, 0, false⟩) (a := [])
    (b := superblock.encode) (c := bs) rfl rfl (FileHdr.length_encode _).symm
  simp only [checkDbHdr, hread, FileHdr.decode_encode, FileHdr.length_encode]
  simp [superblock, OpenFile.lseekSet]
  rfl

/-- A file that passes the check starts with the superblock. -/
theorem exists_of_checkDbHdr {data : List Byte} {fd : OpenFile}
    (h : checkDbHdr ⟨data, 0, false⟩ = .ok fd) : ∃ bs, data = superblock.encode ++ bs := by
  rw [checkDbHdr] at h
  dsimp only at h
  split_ifs at h with hret hmagic hmajor hminor
  exact exists_superblock_append (not_not.mp hret) (not_not.mp hmagic) (not_not.mp hmajor)
    (not_not.mp hminor)

section Append

variable (key val : List Byte) (now : Int64) (bs : List Byte)

theorem addKeyValPay_nil : addKeyValPay key val now [] =
    writeNew (atEnd superblock.encode) key val now >>= fun fd => .ok fd.data := by
  have hloop := @addKeyValLoop_nil key val now [] false (atEnd superblock.encode)
  rw [List.length_nil] at hloop
  rw [addKeyValPay, createDbFd_eq, hloop, ok_bind, addKeyValEnd_false]
  rfl

/-- `add_key_val` after its checks. Its branch for a database without records writes what the
general loop would write. -/
theorem addKeyVal_append : addKeyVal (some (superblock.encode ++ bs)) key val now =
    if cSizeT (cInt bs.length) ≠ bs.length then .error (.panic "Cannot read out db!\n")
    else addKeyValPay key val now bs := by
  have hread := OpenFile.read_full_of_data
    (f := ⟨superblock.encode ++ bs, superblock.encode.length, false⟩)
    (a := superblock.encode) (b := bs) (c := []) (List.append_nil _).symm rfl rfl
  have hlen : (superblock.encode ++ bs).length - FileHdr.size = bs.length := by
    rw [List.length_append, FileHdr.length_encode, Nat.add_sub_cancel_left]
  rw [addKeyVal]
  simp only [checkDbHdr_append, ok_bind, hlen, hread, gt_iff_lt]
  by_cases hpos : 0 < bs.length
  · rw [if_pos hpos]
    rfl
  · have hnil : bs = [] := List.length_eq_zero_iff.mp (by omega)
    subst hnil
    rw [if_neg hpos, if_neg (by decide), addKeyValPay_nil, List.append_nil]
    rfl

/-- `get_key_val` after its check. -/
theorem getKeyVal_append (stack : CharArray DataHdr.size) :
    getKeyVal (some (superblock.encode ++ bs)) stack key =
      getKeyValLoop key stack.1 ⟨superblock.encode ++ bs, superblock.encode.length, false⟩ := by
  rw [getKeyVal, checkDbHdr_append, ok_bind]

end Append

/-! ### The commands on a well-formed file -/

/-- The records after an `add`. -/
def addRecord (key val : List Byte) (now : Int64) (rs : List Record) : List Record :=
  Keyed.replaceFirst (fun r => keyMatches key r.hdr) (newRecord key val now) rs

section Add

variable {key val : List Byte} {rs : List Record} {now : Int64}

/-- `__add_key_val` on the records of a file. -/
theorem addKeyValPay_encodeRecords (hval : val.length < 2 ^ 31) (rs : List Record) :
    addKeyValPay key val now (encodeRecords rs) = .ok (encodeDb (addRecord key val now rs)) := by
  have hloop := @addKeyValLoop_false key val now hval rs [] superblock.encode
  rw [addKeyValPay, createDbFd_eq]
  rw [List.nil_append, List.length_nil] at hloop
  rw [hloop, ok_bind]
  rfl

/-- An `add` that completes had an `int` for the count of its value, and both branches write the
file with the records after the `add`. -/
theorem eq_encodeDb_of_addKeyVal {data : List Byte} (hlt : val.length < 2 ^ 63)
    (h : addKeyVal (some (encodeDb rs)) key val now = .ok data) :
    val.length < 2 ^ 31 ∧ addKeyValPay key val now (encodeRecords rs) = .ok data ∧
      data = encodeDb (addRecord key val now rs) := by
  rw [encodeDb, addKeyVal_append] at h
  split_ifs at h
  have hval : val.length < 2 ^ 31 := by
    by_contra hlong
    have hloop := @addKeyValLoop_false_of_le key val now hlt (not_lt.mp hlong) rs []
      superblock.encode
    rw [List.nil_append, List.length_nil] at hloop
    rw [addKeyValPay, createDbFd_eq, hloop, error_bind] at h
    cases h
  refine ⟨hval, h, ?_⟩
  rw [addKeyValPay_encodeRecords hval] at h
  exact (Except.ok.inj h).symm

/-- An `add` that completes had room for its counts in an `int`. -/
theorem length_lt_of_addKeyVal {data : List Byte} (hlt : val.length < 2 ^ 63)
    (hrs : (encodeRecords rs).length < 2 ^ 63)
    (h : addKeyVal (some (encodeDb rs)) key val now = .ok data) :
    val.length < 2 ^ 31 ∧ (encodeRecords rs).length < 2 ^ 31 := by
  refine ⟨(eq_encodeDb_of_addKeyVal hlt h).1, ?_⟩
  rw [encodeDb, addKeyVal_append] at h
  split_ifs at h with hint
  exact (cSizeT_cInt_eq_iff hrs).mp (not_not.mp hint)

/-- A file grows at most by the new record. -/
theorem length_encodeRecords_replaceFirst_le (p : Record → Bool) (new : Record) :
    (rs : List Record) → (encodeRecords (Keyed.replaceFirst p new rs)).length ≤
      (encodeRecords rs).length + new.encode.length
  | [] => by simp [Keyed.replaceFirst, encodeRecords]
  | r :: rs => by
      have ih := length_encodeRecords_replaceFirst_le p new rs
      rw [Keyed.replaceFirst]
      split_ifs
      · simp only [encodeRecords, List.flatMap_cons, List.length_append]
        omega
      · simp only [encodeRecords, List.flatMap_cons, List.length_append] at ih ⊢
        omega

end Add

/-! ### The scan of `get` -/

section Get

variable {key : List Byte}

/-- What `get_key_val` finds in a record. -/
def Record.found (r : Record) : DataHdr × List Byte := (r.hdr, r.val)

/-- One round of the loop on a record, whatever follows it. -/
theorem getKeyValLoop_record (pre : List Byte) (r : Record) (rest : List Byte) {hdr : List Byte}
    (hhdr : hdr.length = DataHdr.size) :
    getKeyValLoop key hdr ⟨pre ++ (r.encode ++ rest), pre.length, false⟩ =
      if keyMatches key r.hdr then .ok (some r.found)
      else getKeyValLoop key (List.replicate DataHdr.size 0)
        ⟨(pre ++ r.encode) ++ rest, (pre ++ r.encode).length, false⟩ := by
  have hread := OpenFile.read_full_of_data
    (f := ⟨pre ++ (r.encode ++ rest), pre.length, false⟩) (a := pre)
    (b := r.hdr.encode) (c := r.val ++ rest) (by simp [Record.encode]) rfl
    (DataHdr.length_encode _).symm
  have hval := OpenFile.read_full_of_data
    (f := ⟨pre ++ (r.encode ++ rest), (pre ++ r.hdr.encode).length, false⟩)
    (a := pre ++ r.hdr.encode) (b := r.val) (c := rest) (by simp [Record.encode]) rfl
    r.length_val.symm
  have hdrop : hdr.drop r.hdr.encode.length = [] := List.drop_eq_nil_of_le (by simp [hhdr])
  rw [getKeyValLoop, hread, dif_pos (by simp [DataHdr.size])]
  simp only [hdrop, List.append_nil, DataHdr.decode_encode, OpenFile.lseekSet, hval]
  split_ifs with hmatch hret
  · rw [r.length_val, cInt_emod r.hdr.len.toNat_lt] at hret
    exact absurd rfl hret
  · rfl
  · have hoff : (pre ++ r.hdr.encode).length + r.hdr.len.toNat = (pre ++ r.encode).length := by
      simp [Record.encode, r.length_val, Nat.add_assoc]
    rw [OpenFile.lseekCur, List.append_assoc pre]
    simp only [hoff]

/-- A read at or behind the end of the file ends the loop. -/
theorem getKeyValLoop_of_length_le {fd : OpenFile} (h : fd.data.length ≤ fd.offset)
    (hdr : List Byte) : getKeyValLoop key hdr fd = .ok none := by
  rw [getKeyValLoop, dif_neg]
  · rfl
  · rw [OpenFile.read, OpenFile.available_of_length_le fd h]
    exact lt_irrefl 0

/-- What the header buffer holds when the loop has passed the records: it is zeroed after each. -/
def bufferAfter (hdr : List Byte) : List Record → List Byte
  | [] => hdr
  | _ :: _ => List.replicate DataHdr.size 0

theorem length_bufferAfter {hdr : List Byte} (h : hdr.length = DataHdr.size) :
    (rs : List Record) → (bufferAfter hdr rs).length = DataHdr.size
  | [] => h
  | _ :: _ => List.length_replicate ..

theorem bufferAfter_replicate : (rs : List Record) →
    bufferAfter (List.replicate DataHdr.size 0) rs = List.replicate DataHdr.size 0
  | [] => rfl
  | _ :: _ => rfl

/-- The loop on records, whatever follows them: it ends at the first match, or passes them. -/
theorem getKeyValLoop_records (rest : List Byte) : (rs : List Record) → (pre hdr : List Byte) →
    hdr.length = DataHdr.size →
    getKeyValLoop key hdr ⟨pre ++ (encodeRecords rs ++ rest), pre.length, false⟩ =
      (rs.find? fun r => keyMatches key r.hdr).elim
        (getKeyValLoop key (bufferAfter hdr rs)
          ⟨(pre ++ encodeRecords rs) ++ rest, (pre ++ encodeRecords rs).length, false⟩)
        fun r => .ok (some r.found)
  | [], pre, hdr, hhdr => by
      rw [encodeRecords_nil, List.nil_append, List.append_nil]
      rfl
  | r :: rs, pre, hdr, hhdr => by
      rw [encodeRecords_cons, List.append_assoc r.encode, getKeyValLoop_record pre r _ hhdr]
      split_ifs with hmatch
      · rw [List.find?_cons_of_pos (p := fun r : Record => keyMatches key r.hdr) hmatch]
        rfl
      · rw [List.find?_cons_of_neg (p := fun r : Record => keyMatches key r.hdr) hmatch,
          getKeyValLoop_records rest rs _ _ (List.length_replicate ..), bufferAfter_replicate,
          bufferAfter]
        simp only [List.append_assoc]

/-- `get` on a well-formed file. -/
theorem getKeyVal_encodeDb (rs : List Record) (stack : CharArray DataHdr.size) :
    getKeyVal (some (encodeDb rs)) stack key =
      .ok ((rs.find? fun r => keyMatches key r.hdr).map Record.found) := by
  have hloop := @getKeyValLoop_records key [] rs superblock.encode stack.1 stack.2
  have hend := @getKeyValLoop_of_length_le key ⟨superblock.encode ++ encodeRecords rs,
    (superblock.encode ++ encodeRecords rs).length, false⟩ le_rfl (bufferAfter stack.1 rs)
  rw [List.append_nil, List.append_nil, hend] at hloop
  rw [encodeDb, getKeyVal_append, hloop]
  cases rs.find? fun r => keyMatches key r.hdr <;> rfl

end Get

/-! ### Histories -/

/-- A command as an operation of the first-match store. -/
def opOf : Cmd → Keyed.Op Record
  | .create => .clear
  | .add key val now => .put (newRecord key.bytes val.bytes now)

/-- The records after a history of commands. -/
def recordsAfter (history : List Cmd) : List Record :=
  Keyed.contents Record.keyStr (· <+: ·) (history.map opOf)

theorem addRecord_eq_put (key val : CStr) (now : Int64) (rs : List Record) :
    addRecord key.bytes val.bytes now rs =
      Keyed.put Record.keyStr (· <+: ·) (newRecord key.bytes val.bytes now) rs := by
  have hmatch : (fun r : Record => keyMatches key.bytes r.hdr) = fun r =>
      decide ((newRecord key.bytes val.bytes now).keyStr <+: r.keyStr) := by
    funext r
    rw [Bool.eq_iff_iff, keyMatches_iff key.notMem, decide_eq_true_iff, Record.keyStr, newRecord,
      keyStr_newHdr key.notMem]
    rfl
  rw [addRecord, Keyed.put, hmatch]

/-- The keys of the records fit into the key field. -/
theorem length_keyStr_le {r : Record} : {history : List Cmd} → r ∈ recordsAfter history →
    r.keyStr.length ≤ 31
  | .add key val now :: history, hr => by
      rcases Keyed.mem_of_mem_replaceFirst hr with rfl | hmem
      · rw [Record.keyStr, newRecord, keyStr_newHdr key.notMem, List.length_take]
        exact Nat.min_le_left _ _
      · exact length_keyStr_le hmem

/-- An `add` that completes leaves fewer bytes than two maximal `int` counts and a header. -/
theorem length_encodeRecords_addRecord {key val : CStr} {rs : List Record} {now : Int64}
    {data : List Byte} (hrs : (encodeRecords rs).length < 2 ^ 63)
    (h : addKeyVal (some (encodeDb rs)) key.bytes val.bytes now = .ok data) :
    (encodeRecords (addRecord key.bytes val.bytes now rs)).length < 2 ^ 33 := by
  obtain ⟨hval, hlen⟩ := length_lt_of_addKeyVal val.length_lt hrs h
  have hgrow := length_encodeRecords_replaceFirst_le (fun r => keyMatches key.bytes r.hdr)
    (newRecord key.bytes val.bytes now) rs
  rw [encode_newRecord (by omega), List.length_append, DataHdr.length_encode, DataHdr.size] at hgrow
  rw [addRecord]
  omega

/-- **The file after a history of commands** is well-formed, with the records of the first-match
store, and shorter than two maximal `int` counts and a header. -/
theorem eq_encodeDb_of_dbAfter : {history : List Cmd} → {data : List Byte} →
    dbAfter history = .ok (some data) →
      data = encodeDb (recordsAfter history) ∧
        (encodeRecords (recordsAfter history)).length < 2 ^ 33
  | [], data, h => by cases h
  | cmd :: history, data, h => by
      rw [dbAfter] at h
      obtain ⟨db, hdb, h⟩ := exists_of_bind_eq_ok h
      obtain ⟨data', hexec, h⟩ := exists_of_bind_eq_ok h
      cases h
      cases cmd with
      | create =>
        cases hexec
        exact ⟨by simp [createDbFd_eq, recordsAfter, opOf, Keyed.contents, encodeDb],
          by simp [recordsAfter, opOf, Keyed.contents]⟩
      | add key val now =>
        rw [execute] at hexec
        cases db with
        | none => cases hexec
        | some old =>
          obtain ⟨rfl, hlen⟩ := eq_encodeDb_of_dbAfter hdb
          have hrecords : recordsAfter (.add key val now :: history) =
              addRecord key.bytes val.bytes now (recordsAfter history) :=
            (addRecord_eq_put key val now _).symm
          rw [hrecords]
          exact ⟨(eq_encodeDb_of_addKeyVal val.length_lt hexec).2.2,
            length_encodeRecords_addRecord (by omega) hexec⟩

end TikFachpraktika.Tikdb
