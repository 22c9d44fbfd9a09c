import TikFachpraktika.Tikdb.Store

/-!
# When tikdb is a key-value map

`get` selects the first record whose key starts with the wanted key, and `add` overwrites the
first record whose key starts with the new key. So `get` selects the record of the most recent
`add` of a key exactly when no later `add` took that record for its own and, for a key that was
never added, when no stored key starts with it.

## Main definitions

* `lastAdd`: the value of the most recent `add` of a key since the last `create`.
* `SelectsLastAdd`: `get` selects the record of that `add`.
* `KeyIntact`: no `add` since then overwrote the record.

## Main results

* `selectsLastAdd_iff`: when `get` selects the record of the most recent `add`.
* `not_forall_selectsLastAdd`: it does not always.
-/

namespace TikFachpraktika.Tikdb

open Posix

/-- The value of the most recent `add` whose key is exactly `k` since the last `create`. -/
def lastAdd (k : List Byte) : List Cmd → Option (List Byte)
  | [] => none
  | .create :: _ => none
  | .add key val _ :: history => if key.bytes = k then some val.bytes else lastAdd k history

/-- On the file `data` with the given history, `get k` selects the record with the key and the
value of the most recent `add` of `k`, and no record if there was none. -/
def SelectsLastAdd (history : List Cmd) (data : List Byte) (stack : CharArray DataHdr.size)
    (k : List Byte) : Prop :=
  ∃ sel, getKeyVal (some data) stack k = .ok sel ∧
    sel.map (fun p => (p.1.keyStr, p.2)) = (lastAdd k history).map fun v => (k, v)

/-- Since the last `add` of `k` every `add` found a record with another key to overwrite, or
none. -/
def KeyIntact (k : List Byte) : List Cmd → Prop
  | [] => True
  | .create :: _ => True
  | .add key _ _ :: history =>
    key.bytes = k ∨ ((∀ r, (recordsAfter history).find? (fun r => keyMatches key.bytes r.hdr) =
      some r → r.keyStr ≠ k) ∧ KeyIntact k history)

/-- Every key of the history fits into the key field of a record. -/
def KeysFit (history : List Cmd) : Prop :=
  ∀ key val now, Cmd.add key val now ∈ history → key.bytes.length ≤ 31

theorem KeysFit.tail {cmd : Cmd} {history : List Cmd} (h : KeysFit (cmd :: history)) :
    KeysFit history :=
  fun key val now hmem => h key val now (List.mem_cons_of_mem _ hmem)

theorem keyStr_newRecord {key : CStr} (hkey : key.bytes.length ≤ 31) (val : List Byte)
    (now : Int64) : (newRecord key.bytes val now).keyStr = key.bytes := by
  rw [Record.keyStr, newRecord, keyStr_newHdr key.notMem, List.take_of_length_le hkey]

/-- The scan of `get` and `add` is the lookup of the first-match store. -/
theorem find?_keyMatches {key : CStr} (hkey : key.bytes.length ≤ 31) (rs : List Record) :
    rs.find? (fun r => keyMatches key.bytes r.hdr) =
      Keyed.lookup Record.keyStr (· <+: ·) key.bytes rs := by
  rw [Keyed.lookup, keyMatches_eq_decide key.notMem hkey]

/-- In a completed history every value fits into its record. -/
theorem length_val_of_dbAfter {key val : CStr} {now : Int64} {history : List Cmd}
    {data : List Byte} (h : dbAfter (.add key val now :: history) = .ok (some data)) :
    val.bytes.length < 2 ^ 31 ∧ ∃ old, dbAfter history = .ok (some old) := by
  rw [dbAfter] at h
  obtain ⟨db, hdb, h⟩ := exists_of_bind_eq_ok h
  obtain ⟨data', hexec, -⟩ := exists_of_bind_eq_ok h
  rw [execute] at hexec
  cases db with
  | none => cases hexec
  | some old =>
    obtain ⟨rfl, -⟩ := eq_encodeDb_of_dbAfter hdb
    exact ⟨(eq_encodeDb_of_addKeyVal val.length_lt hexec).1, _, hdb⟩

/-- The last put of the store is the record of the last `add`. -/
theorem lastPut_map_val {k : List Byte} : {history : List Cmd} → {data : List Byte} →
    dbAfter history = .ok (some data) → KeysFit history →
      (Keyed.lastPut Record.keyStr k (history.map opOf)).map Record.val = lastAdd k history
  | [], _, _, _ => rfl
  | .create :: _, _, _, _ => rfl
  | .add key val now :: history, data, hrun, hfit => by
      obtain ⟨hval, old, hold⟩ := length_val_of_dbAfter hrun
      have hkey := keyStr_newRecord (hfit key val now List.mem_cons_self) val.bytes now
      rw [List.map_cons, opOf, Keyed.lastPut, lastAdd, hkey]
      split_ifs
      · rw [Option.map_some, newRecord_val (by omega)]
      · exact lastPut_map_val hold hfit.tail

theorem keyIntact_iff_undisturbed {k : List Byte} : {history : List Cmd} → KeysFit history →
    (KeyIntact k history ↔
      Keyed.Undisturbed Record.keyStr (· <+: ·) k (history.map opOf))
  | [], _ => Iff.rfl
  | .create :: _, _ => Iff.rfl
  | .add key val now :: history, hfit => by
      have hkey := keyStr_newRecord (hfit key val now List.mem_cons_self) val.bytes now
      rw [KeyIntact, List.map_cons, opOf, Keyed.Undisturbed, hkey,
        keyIntact_iff_undisturbed hfit.tail,
        find?_keyMatches (hfit key val now List.mem_cons_self)]
      rfl

/-- `get` selects the record of the most recent `add` when the lookup of the store finds its last
put. -/
theorem selectsLastAdd_iff_lookup {history : List Cmd} {data : List Byte}
    (hrun : dbAfter history = .ok (some data)) (hfit : KeysFit history) {k : CStr}
    (hk : k.bytes.length ≤ 31) (stack : CharArray DataHdr.size) :
    SelectsLastAdd history data stack k.bytes ↔
      Keyed.lookup Record.keyStr (· <+: ·) k.bytes (recordsAfter history) =
        Keyed.lastPut Record.keyStr k.bytes (history.map opOf) := by
  rw [SelectsLastAdd, (eq_encodeDb_of_dbAfter hrun).1, getKeyVal_encodeDb, find?_keyMatches hk,
    ← lastPut_map_val hrun hfit]
  constructor
  · rintro ⟨sel, hget, heq⟩
    cases hget
    cases hlookup : Keyed.lookup Record.keyStr (· <+: ·) k.bytes (recordsAfter history) with
    | none =>
      rw [hlookup] at heq
      exact (by simpa using heq : _ = none).symm
    | some r =>
      rw [hlookup] at heq
      obtain ⟨v, -, hv⟩ := Option.map_eq_some_iff.mp heq.symm
      have hkey : r.keyStr = k.bytes := (congrArg Prod.fst hv).symm
      rw [← hkey]
      exact (Keyed.lastPut_of_mem (List.mem_of_find?_eq_some hlookup)).symm
  · intro heq
    refine ⟨_, rfl, ?_⟩
    rw [heq]
    cases hput : Keyed.lastPut Record.keyStr k.bytes (history.map opOf) with
    | none => rfl
    | some r =>
      have hkey : r.keyStr = k.bytes := Keyed.lastPut_key hput
      rw [Record.keyStr] at hkey
      simp only [Option.map_some, Record.found, hkey]

/-- **When `get` selects the most recent `add`.** After a completed history of commands whose
keys fit into a record, `get k` selects the record of the most recent `add` of `k` if and only if
no later `add` overwrote that record and, when `k` was not added at all, `k` matches no record. -/
theorem selectsLastAdd_iff {history : List Cmd} {data : List Byte}
    (hrun : dbAfter history = .ok (some data)) (hfit : KeysFit history) {k : CStr}
    (hk : k.bytes.length ≤ 31) (stack : CharArray DataHdr.size) :
    SelectsLastAdd history data stack k.bytes ↔
      KeyIntact k.bytes history ∧
        (lastAdd k.bytes history = none →
          ∀ r ∈ recordsAfter history, keyMatches k.bytes r.hdr = false) := by
  have hnone : lastAdd k.bytes history = none ↔
      Keyed.lastPut Record.keyStr k.bytes (history.map opOf) = none := by
    rw [← lastPut_map_val hrun hfit, Option.map_eq_none_iff]
  have hmatch (r : Record) : keyMatches k.bytes r.hdr = false ↔ ¬ k.bytes <+: r.keyStr := by
    rw [← Bool.not_eq_true, keyMatches_iff k.notMem, List.take_of_length_le hk]
    rfl
  rw [selectsLastAdd_iff_lookup hrun hfit hk, recordsAfter, Keyed.lookup_eq_lastPut_iff,
    keyIntact_iff_undisturbed hfit, hnone]
  simp only [hmatch]

/-- The string `"a"`. -/
def strA : CStr := ⟨[97], by decide, by decide⟩

/-- The string `"ab"`. -/
def strAB : CStr := ⟨[97, 98], by decide, by decide⟩

theorem keys_of_strA_strAB (key val : CStr) (now : Int64)
    (h : Cmd.add key val now ∈ [.add strA strA 0, .add strAB strAB 0, .create]) :
    key.bytes ≠ [] ∧ key.bytes.length ≤ 31 := by
  simp only [List.mem_cons, Cmd.add.injEq, reduceCtorEq, List.not_mem_nil, or_false] at h
  rcases h with ⟨rfl, -⟩ | ⟨rfl, -⟩ <;> decide

/-- `add "a" "ab"` and then `add "ab" "a"`. -/
def prefixFirst : List Cmd := [.add strAB strA 5, .add strA strAB 3, .create]

/-- The records that they leave. -/
def recordsAB : List Record :=
  [newRecord strA.bytes strAB.bytes 3, newRecord strAB.bytes strA.bytes 5]

/-- The scan of the second `add` does not stop at the record of the first one: each of the two keys
selects its own record. -/
theorem selectsLastAdd_iff_prefixFirst :
    SelectsLastAdd prefixFirst (encodeDb recordsAB) (CharArray.fill DataHdr.size []) strA.bytes ∧
      SelectsLastAdd prefixFirst (encodeDb recordsAB) (CharArray.fill DataHdr.size [])
        strAB.bytes := by
  have hrun : dbAfter prefixFirst = .ok (some (encodeDb recordsAB)) := by decide +kernel
  have hfit : KeysFit prefixFirst := fun key val now h => by
    simp only [prefixFirst, List.mem_cons, Cmd.add.injEq, reduceCtorEq, List.not_mem_nil,
      or_false] at h
    rcases h with ⟨rfl, -⟩ | ⟨rfl, -⟩ <;> decide
  have hnone : ((recordsAfter [.add strA strAB 3, .create]).find?
      fun r => keyMatches strAB.bytes r.hdr).isNone := by decide +kernel
  constructor
  · refine (selectsLastAdd_iff hrun hfit (by decide) _).mpr
      ⟨.inr ⟨fun r hr => ?_, .inl rfl⟩, fun h => absurd h (by decide)⟩
    rw [Option.isNone_iff_eq_none.mp hnone] at hr
    cases hr
  · exact (selectsLastAdd_iff hrun hfit (by decide) _).mpr
      ⟨.inl rfl, fun h => absurd h (by decide)⟩

/-- **tikdb is not a map.** After `add "ab" "ab"` and then `add "a" "a"`, whose scan overwrites
the record of `"ab"`, a `get "ab"` selects nothing. -/
theorem not_forall_selectsLastAdd :
    ¬ ∀ (history : List Cmd) (data : List Byte) (k : CStr) (stack : CharArray DataHdr.size),
      dbAfter history = .ok (some data) →
      (∀ key val now, Cmd.add key val now ∈ history →
        key.bytes ≠ [] ∧ key.bytes.length ≤ 31) →
      k.bytes ≠ [] → k.bytes.length ≤ 31 → SelectsLastAdd history data stack k.bytes := by
  intro h
  obtain ⟨sel, hget, heq⟩ := h [.add strA strA 0, .add strAB strAB 0, .create]
    (encodeDb [newRecord strA.bytes strA.bytes 0]) strAB (CharArray.fill DataHdr.size [])
    (by decide +kernel) keys_of_strA_strAB (by decide) (by decide)
  have hnone : getKeyVal (some (encodeDb [newRecord strA.bytes strA.bytes 0]))
      (CharArray.fill DataHdr.size []) strAB.bytes = .ok none := by decide +kernel
  rw [hnone] at hget
  cases hget
  exact absurd heq (by decide)

end TikFachpraktika.Tikdb
