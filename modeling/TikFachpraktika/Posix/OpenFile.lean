import TikFachpraktika.Posix.Bytes

/-!
# Open files

A regular file together with one open file description of it: the bytes of the file, the file
offset, and whether it was opened with `O_APPEND`. The system calls transfer all bytes that are
there; a `read` may also be answered by a short count or an error, which the caller's
`ReadAnswer` says. A `write` on a description opened with `O_APPEND` lands at the end of the
file whatever the offset is.

## Main definitions

* `OpenFile`: a file and its description.
* `OpenFile.read`, `OpenFile.write`, `OpenFile.lseekSet`, `OpenFile.lseekCur`,
  `OpenFile.ftruncate`, `OpenFile.sendfile`: the system calls.
* `OpenFile.sendfileTimes`: a loop of `sendfile` calls.

## Main results

* `OpenFile.write_of_append`, `OpenFile.write_of_offset_eq`: writes at the end of the file.
* `OpenFile.sendfileTimes_eq`: what a loop of `sendfile` calls copies.
-/

namespace TikFachpraktika.Posix

/-- A regular file and an open file description of it. -/
@[ext]
structure OpenFile where
  data : List Byte
  offset : ℕ
  append : Bool
  deriving DecidableEq

/-- How the system answers a `read`: in full, with at most `n` bytes, or with an error. -/
inductive ReadAnswer
  | full
  | short (n : ℕ)
  | error

namespace OpenFile

/-- The bytes that a `read` of `count` bytes finds. -/
def available (f : OpenFile) (count : ℕ) : List Byte :=
  (f.data.drop f.offset).take count

/-- `read`: the returned value, the bytes stored in the buffer and the file afterwards. -/
def read (f : OpenFile) (count : ℕ) : ReadAnswer → ℤ × List Byte × OpenFile
  | .full =>
    ((f.available count).length, f.available count,
      { f with offset := f.offset + (f.available count).length })
  | .short n =>
    ((f.available (min n count)).length, f.available (min n count),
      { f with offset := f.offset + (f.available (min n count)).length })
  | .error => (-1, [], f)

/-- The bytes of a file after `bs` has been stored at `pos`, a gap filled with zeros. -/
def store (data : List Byte) (pos : ℕ) (bs : List Byte) : List Byte :=
  data.take pos ++ List.replicate (pos - data.length) 0 ++ bs ++ data.drop (pos + bs.length)

/-- Where a `write` lands: at the end of the file under `O_APPEND`, else at the offset. -/
def writePos (f : OpenFile) : ℕ :=
  if f.append then f.data.length else f.offset

/-- `write`. -/
def write (f : OpenFile) (bs : List Byte) : OpenFile :=
  if bs = [] then f
  else { f with data := store f.data f.writePos bs, offset := f.writePos + bs.length }

/-- `lseek` with `SEEK_SET`. -/
def lseekSet (f : OpenFile) (offset : ℕ) : OpenFile :=
  { f with offset := offset }

/-- `lseek` with `SEEK_CUR`. -/
def lseekCur (f : OpenFile) (offset : ℕ) : OpenFile :=
  { f with offset := f.offset + offset }

/-- `ftruncate`. -/
def ftruncate (f : OpenFile) (size : ℕ) : OpenFile :=
  { f with data := f.data.take size ++ List.replicate (size - f.data.length) 0 }

/-- `sendfile` without an offset: the bytes read from `input` are written to `out`. -/
def sendfile (out input : OpenFile) (count : ℕ) : OpenFile × OpenFile :=
  (out.write (input.available count), (input.read count .full).2.2)

/-! ### Field lemmas -/

section Fields

variable (f : OpenFile)

@[simp] theorem lseekSet_data (n : ℕ) : (f.lseekSet n).data = f.data := rfl
@[simp] theorem lseekSet_offset (n : ℕ) : (f.lseekSet n).offset = n := rfl
@[simp] theorem lseekSet_append (n : ℕ) : (f.lseekSet n).append = f.append := rfl

@[simp] theorem write_append (bs : List Byte) : (f.write bs).append = f.append := by
  rw [write]
  split_ifs <;> rfl

@[simp] theorem read_data (count : ℕ) : (a : ReadAnswer) → (f.read count a).2.2.data = f.data
  | .full | .short _ | .error => rfl

@[simp] theorem read_append (count : ℕ) :
    (a : ReadAnswer) → (f.read count a).2.2.append = f.append
  | .full | .short _ | .error => rfl

theorem ftruncate_data_of_le {n : ℕ} (h : n ≤ f.data.length) :
    (f.ftruncate n).data = f.data.take n := by
  rw [ftruncate, Nat.sub_eq_zero_of_le h]
  simp

theorem length_available (count : ℕ) :
    (f.available count).length = min count (f.data.length - f.offset) := by
  rw [available, List.length_take, List.length_drop]

/-- At or behind the end there is nothing to read. -/
theorem available_of_length_le (h : f.data.length ≤ f.offset) (count : ℕ) :
    f.available count = [] := by
  rw [available, List.drop_eq_nil_of_le h, List.take_nil]

end Fields

/-! ### Reading -/

/-- Reading past a known part of the file. -/
theorem available_of_data {f : OpenFile} {a b c : List Byte} (hdata : f.data = a ++ b ++ c)
    (hoff : f.offset = a.length) {count : ℕ} (hcount : count = b.length) :
    f.available count = b := by
  rw [available, hdata, hoff, hcount, List.append_assoc, List.drop_left, List.take_left]

theorem read_full_append (pre rest : List Byte) (count : ℕ) (append : Bool) :
    (⟨pre ++ rest, pre.length, append⟩ : OpenFile).read count .full =
      (((rest.take count).length : ℤ), rest.take count,
        ⟨pre ++ rest, (pre ++ rest.take count).length, append⟩) := by
  simp only [read, available, List.drop_left, List.length_append]

theorem read_full_of_data {f : OpenFile} {a b c : List Byte} (hdata : f.data = a ++ b ++ c)
    (hoff : f.offset = a.length) {count : ℕ} (hcount : count = b.length) :
    f.read count .full = ((b.length : ℤ), b, f.lseekSet (a ++ b).length) := by
  simp only [read, available_of_data hdata hoff hcount, hoff, List.length_append, lseekSet]

/-- A `read` without an error returns the number of the bytes that it finds, perhaps fewer than
wanted. -/
theorem exists_read_eq (f : OpenFile) (count : ℕ) {a : ReadAnswer} (ha : a ≠ .error) :
    ∃ k ≤ count, (f.read count a).1 = ((f.available k).length : ℕ) ∧
      (f.read count a).2.1 = f.available k := by
  cases a with
  | full => exact ⟨count, le_rfl, rfl, rfl⟩
  | short n => exact ⟨min n count, Nat.min_le_right n count, rfl, rfl⟩
  | error => exact absurd rfl ha

/-! ### Writing at the end -/

theorem store_length (data bs : List Byte) : store data data.length bs = data ++ bs := by
  simp [store]

/-- A write on a description opened with `O_APPEND` extends the file, whatever the offset. -/
theorem write_of_append {f : OpenFile} (h : f.append = true) (bs : List Byte) :
    (f.write bs).data = f.data ++ bs := by
  rw [write]
  split_ifs with hbs
  · rw [hbs, List.append_nil]
  · simp only [writePos, h, ↓reduceIte, store_length]

/-- Such a write leaves the offset at the end of the file. -/
theorem write_offset_of_append {f : OpenFile} (h : f.append = true) {bs : List Byte}
    (hbs : bs ≠ [] ∨ f.offset = f.data.length) :
    (f.write bs).offset = (f.write bs).data.length := by
  rw [write_of_append h, List.length_append, write]
  split_ifs with hnil
  · rw [hnil, List.length_nil, Nat.add_zero]
    exact hbs.resolve_left (not_not.mpr hnil)
  · simp only [writePos, h, ↓reduceIte]

/-- A write at the end of the file extends it and leaves the offset at the new end. -/
theorem write_of_offset_eq {f : OpenFile} (h : f.offset = f.data.length) (bs : List Byte) :
    f.write bs = { f with data := f.data ++ bs, offset := f.data.length + bs.length } := by
  rw [write]
  split_ifs with hbs
  · subst hbs
    ext1 <;> simp [h]
  · simp only [writePos, h, ite_self, store_length]

/-! ### Copying -/

/-- `n` calls of `sendfile` with the same count. -/
def sendfileTimes (count : ℕ) : ℕ → OpenFile × OpenFile → OpenFile × OpenFile
  | 0, p => p
  | n + 1, p => sendfileTimes count n (sendfile p.1 p.2 count)

theorem sendfile_eq {out input : OpenFile} (hout : out.offset = out.data.length) (count : ℕ) :
    sendfile out input count =
      ({ out with
          data := out.data ++ input.available count
          offset := out.data.length + (input.available count).length },
        input.lseekSet (input.offset + (input.available count).length)) := by
  rw [sendfile, write_of_offset_eq hout]
  rfl

private theorem available_add (f : OpenFile) (m n : ℕ) :
    f.available m ++ (f.lseekSet (f.offset + (f.available m).length)).available n =
      f.available (m + n) := by
  simp only [available, lseekSet_data, lseekSet_offset, List.length_take, List.length_drop]
  rw [List.take_add, List.drop_drop]
  congr 2
  rcases Nat.le_total m (f.data.length - f.offset) with h | h
  · rw [Nat.min_eq_left h]
  · -- the first read already reached the end of the file
    have hend : f.data.drop (f.offset + (f.data.length - f.offset)) = [] :=
      List.drop_eq_nil_of_le (by omega)
    rw [Nat.min_eq_right h, hend, List.drop_eq_nil_of_le (by omega)]

/-- A loop of `sendfile` calls onto the end of a file copies as many bytes as one call with the
total count. -/
theorem sendfileTimes_eq (count : ℕ) : (n : ℕ) → (out input : OpenFile) →
    out.offset = out.data.length →
    sendfileTimes count n (out, input) = sendfile out input (count * n)
  | 0, out, input, hout => by
      rw [sendfile_eq hout]
      ext <;> simp [sendfileTimes, available, hout]
  | n + 1, out, input, hout => by
      have hsplit := available_add input count (count * n)
      rw [sendfileTimes, sendfile_eq hout, sendfileTimes_eq count n _ _ (by simp),
        sendfile_eq (by simp), sendfile_eq hout, Nat.mul_succ, Nat.add_comm (count * n), ← hsplit]
      simp [lseekSet, Nat.add_assoc, List.append_assoc]

/-- A loop of `sendfile` calls followed by one for the rest. -/
theorem sendfile_sendfileTimes {out : OpenFile} (hout : out.offset = out.data.length)
    (input : OpenFile) (count n rest : ℕ) :
    sendfile (sendfileTimes count n (out, input)).1 (sendfileTimes count n (out, input)).2 rest =
      sendfile out input (count * n + rest) := by
  have hsplit := available_add input (count * n) rest
  rw [sendfileTimes_eq count n out input hout, sendfile_eq hout, sendfile_eq (by simp),
    sendfile_eq hout, ← hsplit]
  simp [lseekSet, Nat.add_assoc, List.append_assoc]

end OpenFile

end TikFachpraktika.Posix
