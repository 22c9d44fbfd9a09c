import TikFachpraktika.Logged.Run
import TikFachpraktika.Tikdb.Print
import TikFachpraktika.Tikfs.Acceptance

/-!
# An `add` that is interrupted

`__add_key_val` empties the file and writes it anew, record after record. An `add` that is killed
leaves the bytes that it has written up to then. What is found afterwards are the first records of
the new file; the others are lost, those that the `add` was not about as well.

## Main definitions

* `addKeyValLog`: `__add_key_val` with a log of what it writes.
* `Interrupted`: what the file may hold when an `add` has been killed.
* `Survives`: a file of which only the first records are found.

## Main results

* `addKeyValPay_eq_log`: the writes make up the new file.
* `interrupted_addKeyVal`: what an interrupted `add` leaves.
-/

namespace TikFachpraktika.Tikdb

open Posix Tikfs

/-! ### The writes of an `add` -/

/-- The writes of a new record. -/
def writeNewLog (key val : List Byte) (now : Int64) : Logged (List Byte) Failure Unit := do
  Logged.tell [(newHdr key val.length now).encode]
  Logged.tell [val]
  if cSizeT (cInt val.length) ≠ val.length then
    Logged.lift (throw (.panic "Writing to db .. corrupted!\n"))
  else pure ()

/-- The `while` loop of `__add_key_val` with its writes. -/
def addKeyValLoopLog (key val : List Byte) (now : Int64) (dbPay : List Byte) (off : ℕ)
    (written : Bool) : Logged (List Byte) Failure Bool :=
  if _hoff : off < dbPay.length then
    let raw := (dbPay.drop off).take DataHdr.size
    let hdr := DataHdr.decode raw
    let next := off + DataHdr.size + hdr.len.toNat
    if !written && decide (dbPay.length < off + min key.length 31) then
      Logged.lift (throw .overread)
    else if !written && keyMatches key hdr then do
      writeNewLog key val now
      if dbPay.length < off + DataHdr.offLen + 4 then Logged.lift (throw .overread)
      else addKeyValLoopLog key val now dbPay next true
    else if dbPay.length < off + DataHdr.size then Logged.lift (throw .overread)
    else do
      Logged.tell [raw]
      if dbPay.length < next then Logged.lift (throw .overread)
      else do
        Logged.tell [(dbPay.drop (off + DataHdr.size)).take hdr.len.toNat]
        addKeyValLoopLog key val now dbPay next written
  else pure written
termination_by dbPay.length - off
decreasing_by all_goals simp only [DataHdr.size]; omega

/-- `__add_key_val` with its writes: the superblock, the records, and a record that the loop has not
written. -/
def addKeyValLog (key val : List Byte) (now : Int64) (dbPay : List Byte) :
    Logged (List Byte) Failure Unit := do
  Logged.tell [superblock.encode]
  let written ← addKeyValLoopLog key val now dbPay 0 false
  if !written then writeNewLog key val now else pure ()

/-- What the file `data` may hold when `add_key_val` has been killed: what it held before, or a part
of what is written to the emptied file; behind the superblock of a file without records a part of
the new record is written. -/
inductive Interrupted (data key val : List Byte) (now : Int64) : List Byte → Prop
  | untouched : Interrupted data key val now data
  | rewritten {crashed : List Byte} (hlen : 0 < data.length - FileHdr.size)
      (hcrashed : crashed <+: (addKeyValLog key val now (data.drop FileHdr.size)).log.flatten) :
      Interrupted data key val now crashed
  | appended {part : List Byte} (hlen : data.length - FileHdr.size = 0)
      (hpart : part <+: (writeNewLog key val now).log.flatten) :
      Interrupted data key val now (data ++ part)

section Writes

variable {key val : List Byte} {now : Int64}

/-- A file that is at its end after some writes, or an error. -/
def afterLog {α : Type} (data : List Byte) (x : Logged (List Byte) Failure α) :
    Except Failure (α × OpenFile) :=
  x.result.map fun a => (a, atEnd (data ++ x.log.flatten))

theorem afterLog_pure {α : Type} (data : List Byte) (a : α) :
    afterLog data (pure a) = .ok (a, atEnd data) := by
  rw [afterLog, Logged.result_pure]
  exact congrArg (fun d => Except.ok (a, atEnd d)) (List.append_nil data)

theorem afterLog_bind {α β : Type} (data : List Byte) (x : Logged (List Byte) Failure α)
    (f : α → Logged (List Byte) Failure β) :
    afterLog data (x >>= f) =
      x.result >>= fun a => afterLog (data ++ x.log.flatten) (f a) := by
  obtain ⟨log, result⟩ := x
  cases result with
  | error e => rfl
  | ok a =>
    simp only [afterLog, Logged.result_bind, ok_bind]
    simp [bind, Logged.bind]

theorem afterLog_tell_bind {β : Type} (data : List Byte) (bs : List Byte)
    (f : Unit → Logged (List Byte) Failure β) :
    afterLog data (Logged.tell [bs] >>= f) = afterLog (data ++ bs) (f ()) := by
  rw [afterLog_bind, Logged.result_tell, ok_bind]
  exact congrArg (fun l => afterLog (data ++ l) (f ())) (List.append_nil bs)

theorem log_writeNewLog : (writeNewLog key val now).log.flatten =
    (newHdr key val.length now).encode ++ val := by
  rw [writeNewLog]
  split_ifs with hint
  · simp [Logged.tell, Logged.lift, bind, Logged.bind]
  · simp [Logged.tell, bind, Logged.bind, pure]

theorem writeNew_eq_log (data : List Byte) : writeNew (atEnd data) key val now =
    if cSizeT (cInt val.length) ≠ val.length then .error (.panic "Writing to db .. corrupted!\n")
    else .ok (atEnd (data ++ (writeNewLog key val now).log.flatten)) := by
  rw [writeNew, log_writeNewLog]
  split_ifs with hint
  · rfl
  · rw [atEnd_write, atEnd_write, List.append_assoc]
    rfl

theorem result_writeNewLog : (writeNewLog key val now).result =
    if cSizeT (cInt val.length) ≠ val.length then .error (.panic "Writing to db .. corrupted!\n")
    else .ok () := by
  rw [writeNewLog]
  split_ifs with hint
  · rfl
  · rfl

/-- The writes of a new record, and what comes after them. -/
theorem writeNew_bind_eq_log {α : Type} (data : List Byte)
    {g : OpenFile → Except Failure (α × OpenFile)} {f : Logged (List Byte) Failure α}
    (h : ∀ d, g (atEnd d) = afterLog d f) :
    (writeNew (atEnd data) key val now >>= g) =
      afterLog data (writeNewLog key val now >>= fun _ => f) := by
  rw [writeNew_eq_log, afterLog_bind, result_writeNewLog]
  split_ifs with hint
  · rfl
  · exact h _

/-- **The loop** with the file is the loop with the writes. -/
theorem addKeyValLoop_eq_log (dbPay : List Byte) (off : ℕ) (written : Bool) (data : List Byte) :
    addKeyValLoop key val now dbPay off written (atEnd data) =
      afterLog data (addKeyValLoopLog key val now dbPay off written) := by
  rw [addKeyValLoop, addKeyValLoopLog]
  by_cases hoff : off < dbPay.length
  · rw [dif_pos hoff, dif_pos hoff]
    dsimp only
    split_ifs with hover hmatch hlen hnext hhdr hhdr
    · rfl
    · exact writeNew_bind_eq_log data fun d => rfl
    · exact writeNew_bind_eq_log data fun d => addKeyValLoop_eq_log dbPay _ true d
    · rfl
    · rw [afterLog_tell_bind]
      rfl
    · omega
    · rw [afterLog_tell_bind, afterLog_tell_bind, atEnd_write, atEnd_write]
      exact addKeyValLoop_eq_log dbPay _ written _
  · rw [dif_neg hoff, dif_neg hoff, afterLog_pure]
    rfl
termination_by dbPay.length - off
decreasing_by all_goals simp only [DataHdr.size]; omega

/-- The end of `__add_key_val` with its writes. -/
theorem addKeyValEnd_eq_log (data : List Byte) (written : Bool) :
    (addKeyValEnd key val now (written, atEnd data) >>= fun fd => .ok fd.data) =
      (afterLog data (if !written then writeNewLog key val now else pure ())).map fun p =>
        p.2.data := by
  cases written with
  | false =>
    rw [addKeyValEnd_false, writeNew_eq_log, Bool.not_false, if_pos rfl, afterLog,
      result_writeNewLog]
    split_ifs with hint
    · rfl
    · rfl
  | true =>
    rw [addKeyValEnd_true, Bool.not_true, if_neg Bool.false_ne_true, afterLog_pure]
    rfl

/-- **The writes make up the new file.** -/
theorem addKeyValPay_eq_log (dbPay : List Byte) : addKeyValPay key val now dbPay =
    (addKeyValLog key val now dbPay).result.map fun _ =>
      (addKeyValLog key val now dbPay).log.flatten := by
  have hlog : addKeyValPay key val now dbPay =
      (afterLog [] (addKeyValLog key val now dbPay)).map fun p => p.2.data := by
    rw [addKeyValLog, afterLog_tell_bind, List.nil_append, addKeyValPay, createDbFd_eq,
      addKeyValLoop_eq_log, afterLog_bind, afterLog]
    cases (addKeyValLoopLog key val now dbPay 0 false).result with
    | error e => rfl
    | ok written => exact addKeyValEnd_eq_log _ written
  rw [hlog, afterLog]
  cases (addKeyValLog key val now dbPay).result with
  | error e => rfl
  | ok u => rfl

end Writes

/-! ### What is found afterwards -/

/-- A file from which neither `tikdb` nor `tikfs` reads a record. -/
structure Unreadable (crashed : List Byte) : Prop where
  get : ∀ stack key, getKeyVal (some crashed) stack key = .error (.panic "Could not read db\n")
  mount : tikfsInit crashed = .error .notTikdb

/-- Of the records `new` of a file the first `j` are left, and a rest that is no record. `get` finds
the value of every key that one of these records has, and no other value than the empty one. The
file mounts unless the rest is a part of a header. -/
structure Survives (new : List Record) (j : ℕ) (rest crashed : List Byte) : Prop where
  data_eq : crashed = encodeDb (new.take j) ++ rest
  parse_eq : parseRecord rest = none
  found : ∀ key stack r, ((new.take j).find? fun r => keyMatches key r.hdr) = some r →
    getKeyVal (some crashed) stack key = .ok (some r.found)
  lost : ∀ key stack hdr buff, ((new.take j).find? fun r => keyMatches key r.hdr) = none →
    getKeyVal (some crashed) stack key = .ok (some (hdr, buff)) → buff = []
  mounts_iff : (∀ r ∈ new, r.hdr.len ≠ 0) → new.length < initSlots →
    ((∃ st, tikfsInit crashed = .ok st) ↔ rest = [] ∨ DataHdr.size ≤ rest.length)

section Crash

variable {new : List Record} {crashed rest : List Byte}

theorem unreadable_of_length_lt (h : crashed.length < FileHdr.size) : Unreadable crashed := by
  have hret (append : Bool) :
      ((⟨crashed, 0, append⟩ : OpenFile).read FileHdr.size .full).1 ≠ FileHdr.size := by
    rw [OpenFile.read, OpenFile.length_available]
    dsimp only
    omega
  refine ⟨fun stack key => ?_, ?_⟩
  · have hcheck : checkDbHdr ⟨crashed, 0, false⟩ = .error (.panic "Could not read db\n") :=
      if_pos (hret false)
    rw [getKeyVal, hcheck, error_bind]
  · have hcheck : checkSuperblock ⟨crashed, 0, true⟩ = .error .notTikdb := if_pos (hret true)
    rw [tikfsInit, hcheck, error_bind]

/-- `get` on records and a rest. -/
theorem getKeyVal_encodeDb_append (rs : List Record) (stack : CharArray DataHdr.size)
    (key : List Byte) : getKeyVal (some (encodeDb rs ++ rest)) stack key =
      (rs.find? fun r => keyMatches key r.hdr).elim
        (getKeyValLoop key (bufferAfter stack.1 rs)
          ⟨encodeDb rs ++ rest, (encodeDb rs).length, false⟩)
        fun r => .ok (some r.found) := by
  rw [encodeDb, List.append_assoc, getKeyVal_append,
    getKeyValLoop_records rest rs superblock.encode stack.1 stack.2, List.append_assoc]

/-- A rest has no value that is not empty. -/
theorem eq_nil_of_getKeyValLoop (hrest : parseRecord rest = none) {key buffer pre buff : List Byte}
    (hbuffer : buffer.length = DataHdr.size) {hdr : DataHdr}
    (h : getKeyValLoop key buffer ⟨pre ++ rest, pre.length, false⟩ = .ok (some (hdr, buff))) :
    buff = [] := by
  by_cases hnil : rest = []
  · rw [getKeyValLoop_of_length_le (by simp [hnil])] at h
    cases h
  · rw [getKeyValLoop_rest hrest hnil pre hbuffer] at h
    split_ifs at h
    · cases h
      rfl
    · cases h

/-- Records and a rest mount unless the rest is a part of a header. -/
theorem mounts_append_iff {rs : List Record} (hrest : parseRecord rest = none)
    (hlen : ∀ r ∈ rs, r.hdr.len ≠ 0)
    (hcount : rs.length + (if rest = [] then 0 else 1) < initSlots) :
    (∃ st, tikfsInit (encodeDb rs ++ rest) = .ok st) ↔ rest = [] ∨ DataHdr.size ≤ rest.length := by
  have hrs : rs.length < initSlots := (Nat.le_add_right _ _).trans_lt hcount
  by_cases hnil : rest = []
  · rw [hnil, List.append_nil]
    exact iff_of_true ⟨_, tikfsInit_encodeDb hlen hrs⟩ (.inl rfl)
  · rw [if_neg hnil, ← length_cleanNodes FileHdr.size rs] at hcount
    have hmount := tikfsInit_append rest hlen hrs
    by_cases hsize : DataHdr.size ≤ rest.length
    · refine iff_of_true ?_ (.inr hsize)
      obtain hshort | ⟨hdr, pay, rfl, hpay⟩ := parseRecord_eq_none_iff.mp hrest
      · omega
      · obtain ⟨fd, hloop⟩ := buildCacheLoop_cutOff (encodeDb rs) hcount hpay
        rw [hloop, ok_bind] at hmount
        exact ⟨_, hmount⟩
    · refine iff_of_false ?_ (not_or.mpr ⟨hnil, hsize⟩)
      rw [buildCacheLoop_short (encodeDb rs) (Nat.lt_of_succ_lt hcount)
        (List.length_pos_iff.mpr hnil) (not_le.mp hsize), error_bind] at hmount
      rintro ⟨st, hst⟩
      cases hmount.symm.trans hst

/-- Records that are there survive. -/
theorem le_of_survives {j k : ℕ} (hk : k ≤ new.length)
    (hpre : encodeDb (new.take k) <+: crashed) (h : Survives new j rest crashed) : k ≤ j := by
  by_contra hlt
  obtain ⟨tail, htail⟩ := hpre
  have hsplit : new.take k = new.take j ++ (new.take k).drop j := by
    conv_lhs => rw [← List.take_append_drop j (new.take k)]
    rw [List.take_take, Nat.min_eq_left (by omega)]
  have hrest : rest = encodeRecords ((new.take k).drop j) ++ tail := by
    have hdata := htail.trans h.data_eq
    rw [hsplit, encodeDb, encodeDb, encodeRecords_append, List.append_assoc, List.append_assoc,
      List.append_assoc] at hdata
    exact (List.append_cancel_left (List.append_cancel_left hdata)).symm
  obtain ⟨r, rs, hrs⟩ : ∃ r rs, (new.take k).drop j = r :: rs := by
    refine List.exists_cons_of_length_pos ?_
    rw [List.length_drop, List.length_take]
    omega
  have hparse := h.parse_eq
  rw [hrest, hrs, encodeRecords_cons, List.append_assoc, parseRecord_append] at hparse
  cases hparse

/-- **A file that is cut off** keeps the first of its records. -/
theorem exists_survives_of_cut (h : crashed <+: encodeDb new)
    (hlen : FileHdr.size ≤ crashed.length) :
    ∃ j rest, j ≤ new.length ∧ Survives new j rest crashed := by
  have hblock : superblock.encode <+: crashed :=
    List.prefix_of_prefix_length_le (List.prefix_append _ _) h
      (by rwa [FileHdr.length_encode])
  obtain ⟨bs, rfl⟩ := hblock
  have hbs : bs <+: new.flatMap Record.encode := (List.prefix_append_right_inj _).mp h
  obtain ⟨j, rest, hj, hsplit⟩ := recordFraming.exists_split_of_cut hbs
  obtain ⟨hdata, hrest⟩ := Framing.split_eq_iff.mp hsplit
  have hcrashed : superblock.encode ++ bs = encodeDb (new.take j) ++ rest := by
    rw [hdata, encodeDb, List.append_assoc]
    rfl
  refine ⟨j, rest, hj, hcrashed, hrest, fun key stack r hr => ?_,
    fun key stack hdr buff hr hget => ?_, fun hnonempty hslots => ?_⟩
  · rw [hcrashed, getKeyVal_encodeDb_append, hr]
    rfl
  · rw [hcrashed, getKeyVal_encodeDb_append, hr] at hget
    exact eq_nil_of_getKeyValLoop hrest (length_bufferAfter stack.2 _) hget
  · rw [hcrashed]
    refine mounts_append_iff hrest (fun r hr => hnonempty r (List.mem_of_mem_take hr)) ?_
    rw [List.length_take, Nat.min_eq_left hj]
    split_ifs with hnil
    · omega
    · -- all records would leave no rest
      have hlt : j ≠ new.length := fun heq => by
        rw [heq, List.take_length] at hcrashed
        rw [hcrashed] at h
        have hle := h.length_le
        rw [List.length_append] at hle
        exact hnil (List.length_eq_zero_iff.mp (by omega))
      omega

end Crash

/-! ### The interrupted `add` -/

section Add

variable {key val : CStr} {now : Int64} {rs : List Record} {data' crashed : List Byte}

/-- An `add` that is killed leaves the old file or a part of the new one. -/
theorem Interrupted.eq_or_cut
    (hcrash : Interrupted (encodeDb rs) key.bytes val.bytes now crashed)
    (h : addKeyVal (some (encodeDb rs)) key.bytes val.bytes now = .ok data') :
    crashed = encodeDb rs ∨ crashed <+: encodeDb (addRecord key.bytes val.bytes now rs) := by
  obtain ⟨hval, hpay, rfl⟩ := eq_encodeDb_of_addKeyVal val.length_lt h
  have hdrop : (encodeDb rs).drop FileHdr.size = encodeRecords rs :=
    List.drop_left' (FileHdr.length_encode _)
  cases hcrash with
  | untouched => exact .inl rfl
  | rewritten hlen hcrashed =>
    rw [hdrop] at hcrashed
    rw [addKeyValPay_eq_log] at hpay
    cases hresult : (addKeyValLog key.bytes val.bytes now (encodeRecords rs)).result with
    | error e =>
      rw [hresult] at hpay
      cases hpay
    | ok u =>
      rw [hresult] at hpay
      rw [← Except.ok.inj hpay]
      exact .inr hcrashed
  | appended hlen hpart =>
    have hnil : rs = [] := by
      rw [encodeDb, List.length_append, FileHdr.length_encode, Nat.add_sub_cancel_left] at hlen
      cases rs with
      | nil => rfl
      | cons r rs =>
        rw [encodeRecords_cons] at hlen
        have hempty := List.append_eq_nil_iff.mp (List.length_eq_zero_iff.mp hlen)
        exact absurd hempty.1 (encode_ne_nil r)
    subst hnil
    obtain ⟨tail, htail⟩ := hpart
    refine .inr ⟨tail, ?_⟩
    rw [encodeDb, encodeRecords_nil, List.append_nil, List.append_assoc, htail,
      log_writeNewLog, ← encode_newRecord (by omega), encodeDb, addRecord, Keyed.replaceFirst,
      encodeRecords, List.flatMap_singleton]

/-- **What an interrupted `add` leaves.** When an `add` on a well-formed file that would complete is
killed, the file is the old one, or it is too short to be read at all, or the first records of the
new file are left: `get` finds their values and no wrong one, and all later records are lost. -/
theorem interrupted_addKeyVal
    (h : addKeyVal (some (encodeDb rs)) key.bytes val.bytes now = .ok data')
    (hcrash : Interrupted (encodeDb rs) key.bytes val.bytes now crashed) :
    crashed = encodeDb rs ∨ Unreadable crashed ∨
      ∃ j rest, j ≤ (addRecord key.bytes val.bytes now rs).length ∧
        Survives (addRecord key.bytes val.bytes now rs) j rest crashed := by
  obtain hold | hpre := hcrash.eq_or_cut h
  · exact .inl hold
  · by_cases hlen : crashed.length < FileHdr.size
    · exact .inr (.inl (unreadable_of_length_lt hlen))
    · exact .inr (.inr (exists_survives_of_cut hpre (not_lt.mp hlen)))

end Add

/-- The file of the records of `"a"` and `"ab"` after an `add "ab" "ab"` that is killed in the
middle of the header of the second record. -/
def crashedAB : List Byte :=
  encodeDb (recordsAB.take 1) ++ (newHdr strAB.bytes 2 7).encode.take 5

/-- The record of `"a"` survives. -/
theorem interrupted_addKeyVal_crashedAB :
    (∃ j rest, 1 ≤ j ∧ j ≤ 2 ∧ Survives (addRecord strAB.bytes strAB.bytes 7 recordsAB) j rest
      crashedAB) ∧
    getKeyVal (some crashedAB) (CharArray.fill DataHdr.size []) strA.bytes =
      .ok (some (newRecord strA.bytes strAB.bytes 3).found) := by
  have hadd : addKeyVal (some (encodeDb recordsAB)) strAB.bytes strAB.bytes 7 =
      .ok (encodeDb (addRecord strAB.bytes strAB.bytes 7 recordsAB)) := by decide +kernel
  have hcrash : Interrupted (encodeDb recordsAB) strAB.bytes strAB.bytes 7 crashedAB :=
    .rewritten (by decide +kernel) (by decide +kernel)
  have hget : getKeyVal (some crashedAB) (CharArray.fill DataHdr.size []) strA.bytes =
      .ok (some (newRecord strA.bytes strAB.bytes 3).found) := by decide +kernel
  refine ⟨?_, hget⟩
  obtain hold | hunreadable | ⟨j, rest, hj, hsurvives⟩ := interrupted_addKeyVal hadd hcrash
  · exact absurd hold (by decide +kernel)
  · rw [hunreadable.get] at hget
    cases hget
  · exact ⟨j, rest, le_of_survives (by decide) (List.prefix_append _ _) hsurvives, hj, hsurvives⟩

end TikFachpraktika.Tikdb
