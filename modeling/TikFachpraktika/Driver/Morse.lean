import Mathlib.Data.List.Basic
import Mathlib.Data.List.GetD
import TikFachpraktika.Logged.Run
import TikFachpraktika.Posix.Bytes

/-!
# Morse output

The driver `4_driver/kernel_morse.c` shows a message with a light. Its table has, for each
character from the space to `Z`, a number of marks and their bits, and beside each entry a comment
with the marks that are meant. What the light shows is read back by the comments.

## Main definitions

* `alphabet`, `documented`: the entries of the table, and the comments beside them.
* `validate`, `blink`, `morseChar`, `morseHandle`: the functions, with the events that they cause.
* `pulses`, `readBack`: how long the light is on and off, and the message that this stands for.
* `ReadsBack`: the message that is read back is the one that was written.

## Main results

* `marks_ofBits`: the shift expression of `morse_char` gives the bits of an entry in order.
* `pulses_flatMap`, `splitOnP_flatMap`: the gaps separate the groups of marks.
* `readsBack_iff`: when a message can be read back.
-/

namespace TikFachpraktika.Driver.Morse

open Posix

/-- `struct morse_item`. -/
structure MorseItem where
  len : ℕ
  code : ℕ
  deriving DecidableEq

/-- `alphabet`; the first entry is that of character 32. -/
def alphabet : List MorseItem :=
  [⟨0, 0x00⟩, ⟨5, 0x06⟩, ⟨6, 0x12⟩, ⟨0, 0x00⟩, ⟨0, 0x00⟩, ⟨0, 0x00⟩, ⟨0, 0x00⟩, ⟨6, 0x1E⟩,
   ⟨0, 0x00⟩, ⟨0, 0x00⟩, ⟨0, 0x00⟩, ⟨0, 0x00⟩, ⟨6, 0x33⟩, ⟨0, 0x00⟩, ⟨6, 0x16⟩, ⟨0, 0x00⟩,
   ⟨5, 0x1F⟩, ⟨5, 0x0F⟩, ⟨5, 0x07⟩, ⟨5, 0x03⟩, ⟨5, 0x01⟩, ⟨5, 0x00⟩, ⟨5, 0x10⟩, ⟨5, 0x18⟩,
   ⟨5, 0x1C⟩, ⟨5, 0x1E⟩, ⟨6, 0x38⟩, ⟨0, 0x00⟩, ⟨0, 0x00⟩, ⟨5, 0x11⟩, ⟨0, 0x00⟩, ⟨6, 0x0C⟩,
   ⟨0, 0x00⟩, ⟨2, 0x01⟩, ⟨4, 0x08⟩, ⟨4, 0x0A⟩, ⟨3, 0x04⟩, ⟨1, 0x00⟩, ⟨4, 0x02⟩, ⟨3, 0x06⟩,
   ⟨4, 0x00⟩, ⟨2, 0x00⟩, ⟨4, 0x07⟩, ⟨3, 0x05⟩, ⟨4, 0x04⟩, ⟨2, 0x03⟩, ⟨2, 0x02⟩, ⟨3, 0x07⟩,
   ⟨4, 0x06⟩, ⟨4, 0x0D⟩, ⟨3, 0x02⟩, ⟨3, 0x00⟩, ⟨1, 0x01⟩, ⟨3, 0x01⟩, ⟨4, 0x01⟩, ⟨3, 0x03⟩,
   ⟨4, 0x09⟩, ⟨4, 0x0B⟩, ⟨4, 0x0C⟩]

/-- The comments beside the entries of `alphabet`, 0 for a dot and 1 for a dash. -/
def documented : List (List ℕ) :=
  [[], [0, 0, 1, 1, 0], [0, 1, 0, 0, 1, 0], [],
   [], [], [], [0, 1, 1, 1, 1, 0],
   [], [], [], [],
   [1, 1, 0, 0, 1, 1], [], [0, 1, 0, 1, 0, 1], [],
   [1, 1, 1, 1, 1], [0, 1, 1, 1, 1], [0, 0, 1, 1, 1], [0, 0, 0, 1, 1],
   [0, 0, 0, 0, 1], [0, 0, 0, 0, 0], [1, 0, 0, 0, 0], [1, 1, 0, 0, 0],
   [1, 1, 1, 0, 0], [1, 1, 1, 1, 0], [1, 1, 1, 0, 0, 0], [],
   [], [1, 0, 0, 0, 1], [], [0, 0, 1, 1, 0, 0],
   [], [0, 1], [1, 0, 0, 0], [1, 0, 1, 0],
   [1, 0, 0], [0], [0, 0, 1, 0], [1, 1, 0],
   [0, 0, 0, 0], [0, 0], [0, 1, 1, 1], [1, 0, 1],
   [0, 1, 0, 0], [1, 1], [1, 0], [1, 1, 1],
   [0, 1, 1, 0], [1, 1, 0, 1], [0, 1, 0], [0, 0, 0],
   [1], [0, 0, 1], [0, 0, 0, 1], [0, 1, 1],
   [1, 0, 0, 1], [1, 0, 1, 1], [1, 1, 0, 0]]

/-- Between dots or dashes. -/
def gapCode : ℕ := 250

/-- Between characters. -/
def gapChar : ℕ := 2000

/-- The length of a dot. -/
def dotLen : ℕ := 250

/-- The length of a dash. -/
def dashLen : ℕ := 1000

/-- Switching lights on, switching all of them off, and a sleep. -/
inductive Event
  | ledOn (led : ℕ)
  | ledOff
  | msleep (ms : ℕ)

/-- A counter of type `int` that is increased beyond its range. -/
inductive Fault
  | overflow

/-- `validate`; a negative character is a byte from 128 on. -/
def validate (ascii : Byte) : Byte :=
  if 32 ≤ ascii ∧ ascii ≤ 90 then ascii else 32

/-- `blink`, for the light `LED_NUM`. -/
def blink (ledNum isLong : ℕ) : List Event :=
  [.ledOn ledNum, .msleep (if isLong = 1 then dashLen else dotLen), .ledOff, .msleep gapCode]

/-- The marks that `morse_char` makes of an entry. -/
def MorseItem.marks (item : MorseItem) : List ℕ :=
  (List.range item.len).map fun i => item.code >>> (item.len - 1 - i) &&& 1

/-- The entry that `morse_char` looks up. -/
def itemOf (ascii : Byte) : MorseItem :=
  alphabet.getD ((validate ascii).toNat - 32) ⟨0, 0⟩

/-- `morse_char`. -/
def morseChar (ledNum : ℕ) (ascii : Byte) : List Event :=
  (itemOf ascii).marks.flatMap (blink ledNum)

/-- The loop of `morse_handle` from `i` on. -/
def handleLoop (ledNum : ℕ) : ℕ → List Byte → Logged Event Fault Unit
  | _, [] => pure ()
  | i, c :: message => do
    Logged.tell (morseChar ledNum c ++ [.msleep gapChar])
    if i + 1 < 2 ^ 31 then handleLoop ledNum (i + 1) message else Logged.lift (throw .overflow)

/-- `morse_handle`. -/
def morseHandle (ledNum : ℕ) (message : List Byte) : Logged Event Fault Unit := do
  Logged.tell [.ledOff]
  handleLoop ledNum 0 message
  Logged.tell [.ledOn 0xFF]

/-! ### Reading the light -/

/-- For each sleep whether the light is on, and how long it takes. -/
def pulses : Bool → List Event → List (Bool × ℕ)
  | _, [] => []
  | _, .ledOn _ :: events => pulses true events
  | _, .ledOff :: events => pulses false events
  | lit, .msleep ms :: events => (lit, ms) :: pulses lit events

/-- The gap between two characters. -/
def isCharGap (pulse : Bool × ℕ) : Bool :=
  !pulse.1 && pulse.2 == gapChar

/-- A light of some length as a mark. -/
def markOfLength (ms : ℕ) : Option ℕ :=
  if ms = dotLen then some 0 else if ms = dashLen then some 1 else none

/-- The character with these marks in the comments; no marks are a space. -/
def decodePattern (marks : List ℕ) : Option Byte :=
  if marks = [] then some 32
  else (documented.findIdx? (· = marks)).map fun k => UInt8.ofNat (k + 32)

/-- The character that a group of pulses stands for. -/
def decodeGroup (group : List (Bool × ℕ)) : Option Byte :=
  (group.filter Prod.fst).mapM (fun pulse => markOfLength pulse.2) >>= decodePattern

/-- The message that a trace stands for: each gap between characters ends a group. -/
def readBack (events : List Event) : Option (List Byte) :=
  ((pulses false events).splitOnP isCharGap).dropLast.mapM decodeGroup

/-- A character that `validate` rejects, or that has an empty entry, is shown as a space. -/
def shown (c : Byte) : Byte :=
  if validate c ≠ c ∨ (itemOf c).len = 0 then 32 else c

/-- The message is shown, and what is read back is the message. -/
def ReadsBack (ledNum : ℕ) (message : List Byte) : Prop :=
  (morseHandle ledNum message).result = .ok () ∧
    readBack (morseHandle ledNum message).log = some (message.map shown)

/-! ### The marks of an entry -/

/-- An entry with the given marks. -/
def MorseItem.ofBits (bits : List ℕ) : MorseItem :=
  ⟨bits.length, bits.foldl (fun code bit => 2 * code + bit) 0⟩

/-- **The shift expression** gives the bits of an entry in order, whatever its length. -/
theorem marks_ofBits (bits : List ℕ) (h : ∀ bit ∈ bits, bit < 2) :
    (MorseItem.ofBits bits).marks = bits := by
  induction bits using List.reverseRecOn with
  | nil => rfl
  | append_singleton bits bit ih =>
    have hbit : bit < 2 := h bit List.mem_concat_self
    have hbits := ih fun b hb => h b (List.mem_append_left _ hb)
    simp only [MorseItem.marks, MorseItem.ofBits] at hbits
    simp only [MorseItem.marks, MorseItem.ofBits, List.length_append, List.length_singleton,
      List.foldl_append, List.foldl_cons, List.foldl_nil, List.range_succ, List.map_append,
      List.map_singleton]
    refine congrArg₂ _ (Eq.trans (List.map_congr_left fun i hi => ?_) hbits) (congrArg ([·]) ?_)
    · -- one more bit at the end is shifted out again
      have hlt := List.mem_range.mp hi
      rw [show bits.length + 1 - 1 - i = (bits.length - 1 - i) + 1 by omega,
        Nat.shiftRight_succ_inside]
      congr 2
      omega
    · rw [show bits.length + 1 - 1 - bits.length = 0 by omega, Nat.shiftRight_zero,
        Nat.and_one_is_mod]
      omega

/-- The marks are dots and dashes. -/
theorem lt_two_of_mem_marks {item : MorseItem} {m : ℕ} (h : m ∈ item.marks) : m < 2 := by
  obtain ⟨i, -, rfl⟩ := List.mem_map.mp h
  rw [Nat.and_one_is_mod]
  exact Nat.mod_lt _ Nat.zero_lt_two

/-- All entries but that of the full stop have the marks of their comments. -/
theorem alphabet_eq_ofBits : ∀ k < 59, k ≠ 14 →
    alphabet.getD k ⟨0, 0⟩ = MorseItem.ofBits (documented.getD k []) := by
  decide

/-- **The comments are distinct**: the marks of each one lead back to its character. -/
theorem decodePattern_documented : ∀ k < 59, decodePattern (documented.getD k []) =
    some (if documented.getD k [] = [] then 32 else UInt8.ofNat (k + 32)) := by
  decide

/-- No comment has the marks of the full stop. -/
theorem decodePattern_fullStop : decodePattern (itemOf 46).marks = none := by
  decide

theorem documented_lt_two : ∀ bits ∈ documented, ∀ bit ∈ bits, bit < 2 := by
  decide

/-- What `validate` returns has an entry. -/
theorem validate_bounds (c : Byte) :
    32 ≤ (validate c).toNat ∧ (validate c).toNat - 32 < 59 := by
  rw [validate]
  split_ifs with h
  · have h1 : 32 ≤ c.toNat := UInt8.le_iff_toNat_le.mp h.1
    have h2 : c.toNat ≤ 90 := UInt8.le_iff_toNat_le.mp h.2
    omega
  · decide

/-- Only the full stop leads to its entry. -/
theorem validate_ne_of_ne {c : Byte} (hc : c ≠ 46) : (validate c).toNat - 32 ≠ 14 := by
  intro h
  have hlow := (validate_bounds c).1
  have hstop : validate c = 46 := UInt8.toNat_inj.mp (show (validate c).toNat = 46 by omega)
  rw [validate] at hstop
  split_ifs at hstop
  · exact hc hstop
  · cases hstop

/-- **What is read back for one character.** -/
theorem decodePattern_marks {c : Byte} (hc : c ≠ 46) :
    decodePattern (itemOf c).marks = some (shown c) := by
  obtain ⟨hlow, hlt⟩ := validate_bounds c
  have hitem := alphabet_eq_ofBits _ hlt (validate_ne_of_ne hc)
  have hmem : documented.getD ((validate c).toNat - 32) [] ∈ documented := by
    rw [List.getD_eq_getElem _ _ hlt]
    exact List.getElem_mem _
  rw [shown, itemOf, hitem, marks_ofBits _ (documented_lt_two _ hmem),
    decodePattern_documented _ hlt, Nat.sub_add_cancel hlow, UInt8.ofNat_toNat]
  have hlen : (MorseItem.ofBits (documented.getD ((validate c).toNat - 32) [])).len = 0 ↔
      documented.getD ((validate c).toNat - 32) [] = [] := List.length_eq_zero_iff
  by_cases hvalid : validate c = c
  · rw [hvalid] at hlen ⊢
    refine congrArg some (if_congr ?_ rfl rfl)
    rw [hlen]
    exact ⟨fun h => Or.inr h, fun h => h.resolve_left fun h => h rfl⟩
  · have hspace : validate c = 32 := by
      rw [validate] at hvalid ⊢
      split_ifs at hvalid with h
      · exact absurd rfl hvalid
      · exact if_neg h
    rw [if_pos (Or.inl hvalid), hspace]
    rfl

/-! ### The trace -/

section Trace

variable (ledNum : ℕ)

/-- The pulses of one mark. -/
def markPulses (m : ℕ) : List (Bool × ℕ) :=
  [(true, if m = 1 then dashLen else dotLen), (false, gapCode)]

/-- After a character the light is off. -/
theorem pulses_morseChar (c : Byte) (events : List Event) :
    pulses false (morseChar ledNum c ++ events) =
      (itemOf c).marks.flatMap markPulses ++ pulses false events := by
  rw [morseChar]
  induction (itemOf c).marks with
  | nil => rfl
  | cons m marks ih =>
    rw [List.flatMap_cons, List.flatMap_cons, List.append_assoc, List.append_assoc, ← ih]
    rfl

/-- What the loop does for one character. -/
def charEvents (c : Byte) : List Event :=
  morseChar ledNum c ++ [.msleep gapChar]

/-- **Run lemma.** The loop goes through the message, as long as its counter does not overflow. -/
theorem handleLoop_of_lt : (message : List Byte) → (i : ℕ) → i + message.length < 2 ^ 31 →
    handleLoop ledNum i message = ⟨message.flatMap (charEvents ledNum), .ok ()⟩
  | [], _, _ => rfl
  | c :: message, i, h => by
      have hrest : i + 1 + message.length < 2 ^ 31 := by
        rwa [Nat.add_right_comm, Nat.add_assoc]
      rw [handleLoop, Logged.tell_bind, if_pos (Nat.lt_of_le_of_lt (Nat.le_add_right _ _) hrest),
        handleLoop_of_lt message (i + 1) hrest]
      rfl

/-- A longer message makes the counter overflow. -/
theorem handleLoop_of_le : (message : List Byte) → (i : ℕ) → i < 2 ^ 31 →
    2 ^ 31 ≤ i + message.length → (handleLoop ledNum i message).result = .error .overflow
  | [], _, hi, h => absurd h (Nat.not_le_of_lt hi)
  | c :: message, i, _, h => by
      rw [handleLoop, Logged.tell_bind]
      by_cases hnext : i + 1 < 2 ^ 31
      · rw [if_pos hnext]
        refine handleLoop_of_le message (i + 1) hnext ?_
        rwa [Nat.add_right_comm, Nat.add_assoc]
      · rw [if_neg hnext]
        rfl

/-- The pulses of a message: those of its characters, each with a gap behind it. -/
theorem pulses_flatMap (message : List Byte) (events : List Event) :
    pulses false (message.flatMap (charEvents ledNum) ++ events) =
      message.flatMap (fun c => (itemOf c).marks.flatMap markPulses ++ [(false, gapChar)]) ++
        pulses false events := by
  induction message with
  | nil => rfl
  | cons c message ih =>
    rw [List.flatMap_cons, List.flatMap_cons, charEvents, List.append_assoc, List.append_assoc,
      List.append_assoc, pulses_morseChar, List.append_assoc, ← ih]
    rfl

end Trace

/-! ### Reading the message back -/

/-- **Groups are separated** by the element behind each of them, if none of them contains such an
element; behind the last one there is an empty group. -/
theorem splitOnP_flatMap {α β : Type*} {p : β → Bool} {group : α → List β} {sep : β}
    (hsep : p sep) (hgroup : ∀ a, ∀ b ∈ group a, p b = false) (l : List α) :
    (l.flatMap fun a => group a ++ [sep]).splitOnP p = l.map group ++ [[]] := by
  induction l with
  | nil => rfl
  | cons a l ih =>
    rw [List.flatMap_cons, List.append_assoc, List.singleton_append,
      List.splitOnP_append_cons_of_forall_mem (hgroup a) _ hsep, ih]
    rfl

/-- A list is decoded element by element. -/
theorem mapM_map_eq_some_iff {α β γ : Type} {encode : α → β} {decode : β → Option γ}
    {expected : α → γ} (l : List α) :
    (l.map encode).mapM decode = some (l.map expected) ↔
      ∀ a ∈ l, decode (encode a) = some (expected a) := by
  induction l with
  | nil => simp
  | cons a l ih =>
    rw [List.forall_mem_cons, ← ih, List.map_cons, List.map_cons, List.mapM_cons]
    cases decode (encode a) with
    | none => simp
    | some c => cases (l.map encode).mapM decode <;> simp

/-- Within a character there is no gap as long as those between characters. -/
theorem isCharGap_markPulses {marks : List ℕ} {pulse : Bool × ℕ}
    (h : pulse ∈ marks.flatMap markPulses) : isCharGap pulse = false := by
  obtain ⟨m, -, hm⟩ := List.mem_flatMap.mp h
  obtain rfl | rfl := List.mem_pair.mp hm
  · rfl
  · rfl

/-- The lengths of the lights are the marks. -/
theorem decodeGroup_markPulses {marks : List ℕ} (h : ∀ m ∈ marks, m < 2) :
    decodeGroup (marks.flatMap markPulses) = decodePattern marks := by
  have hmarks : ((marks.flatMap markPulses).filter Prod.fst).mapM
      (fun pulse => markOfLength pulse.2) = some marks := by
    induction marks with
    | nil => rfl
    | cons m marks ih =>
      have hm : markOfLength (if m = 1 then dashLen else dotLen) = some m := by
        obtain rfl | rfl := Nat.le_one_iff_eq_zero_or_eq_one.mp
          (Nat.le_of_lt_succ (h m List.mem_cons_self)) <;> rfl
      rw [List.flatMap_cons, List.filter_append, show (markPulses m).filter Prod.fst =
        [(true, if m = 1 then dashLen else dotLen)] from rfl, List.singleton_append,
        List.mapM_cons, hm, ih fun n hn => h n (List.mem_cons_of_mem m hn)]
      rfl
  rw [decodeGroup, hmarks]
  rfl

/-- **What is read back** are the characters that the marks stand for. -/
theorem readBack_handle (ledNum : ℕ) {message : List Byte} (h : message.length < 2 ^ 31) :
    readBack (morseHandle ledNum message).log =
      (message.map fun c => (itemOf c).marks.flatMap markPulses).mapM decodeGroup := by
  have hlog : (morseHandle ledNum message).log =
      .ledOff :: (message.flatMap (charEvents ledNum) ++ [.ledOn 0xFF]) := by
    rw [morseHandle, Logged.tell_bind, handleLoop_of_lt ledNum message 0 (by rwa [Nat.zero_add])]
    rfl
  rw [readBack, hlog]
  show ((pulses false (message.flatMap (charEvents ledNum) ++ [.ledOn 0xFF])).splitOnP
    isCharGap).dropLast.mapM decodeGroup = _
  rw [pulses_flatMap, show pulses false [.ledOn 0xFF] = [] from rfl, List.append_nil,
    splitOnP_flatMap rfl fun _ _ => isCharGap_markPulses, List.dropLast_concat]

/-- **When a message can be read back.** For every message, the trace of `morse_handle` gives it
back by the comments in the table if and only if there is no full stop in it and the counter does
not overflow. -/
theorem readsBack_iff (ledNum : ℕ) (message : List Byte) :
    ReadsBack ledNum message ↔ 46 ∉ message ∧ message.length < 2 ^ 31 := by
  by_cases hlen : message.length < 2 ^ 31
  · have hresult : (morseHandle ledNum message).result = .ok () := by
      rw [morseHandle, Logged.tell_bind,
        handleLoop_of_lt ledNum message 0 (by rwa [Nat.zero_add])]
      rfl
    rw [ReadsBack, readBack_handle ledNum hlen, mapM_map_eq_some_iff, and_iff_right hresult,
      and_iff_left hlen]
    have hdecode : ∀ c, decodeGroup ((itemOf c).marks.flatMap markPulses) =
        decodePattern (itemOf c).marks := fun _ =>
      decodeGroup_markPulses fun _ => lt_two_of_mem_marks
    simp only [hdecode]
    constructor
    · intro h hstop
      cases decodePattern_fullStop.symm.trans (h 46 hstop)
    · intro hstop c hc
      exact decodePattern_marks (ne_of_mem_of_not_mem hc hstop)
  · refine iff_of_false (fun h => ?_) fun h => hlen h.2
    have hloop := handleLoop_of_le ledNum message 0 (by decide) (by omega)
    have hresult : (morseHandle ledNum message).result = .error .overflow := by
      rw [morseHandle, Logged.tell_bind, Logged.result_bind, hloop]
      rfl
    cases hresult.symm.trans h.1

/-- **A full stop is not read back**: its code is not the one of its comment. -/
theorem not_forall_readsBack : ¬∀ (ledNum : ℕ) (message : List Byte), ReadsBack ledNum message := by
  intro h
  have hback := (h 1 [46]).2
  rw [readBack_handle 1 (by decide)] at hback
  cases hback.symm.trans (by decide :
    ([46].map fun c => (itemOf c).marks.flatMap markPulses).mapM decodeGroup = none)

end TikFachpraktika.Driver.Morse
