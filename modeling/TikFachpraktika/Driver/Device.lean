import TikFachpraktika.Driver.Morse

/-!
# The morse device and the morse program

The device of `4_driver/kernel_morse.c` shows what is written to it, write by write, and
`4_driver/user_morse.c` shows its argument through the console; its table is that of the driver, and
its sleeps are in microseconds. A `write` that cannot be copied shows nothing, and the block that
was allocated for it is never freed.

## Main definitions

* `WriteCall`, `morseWrite`, `morseWrites`: the `write`s to the device.
* `UserEvent`, `userMain`: the program.

## Main results

* `readBack_morseWrites_iff`: what the device shows of several writes.
* `log_userMain`: the program does what the device does.
-/

namespace TikFachpraktika.Driver.Morse

open Posix

/-! ### The device -/

/-- A `write` to the device: the bytes, whether `kmalloc` finds a block for them, and the number of
bytes that `copy_from_user` could not copy. -/
structure WriteCall where
  message : List Byte
  allocated : Bool
  uncopied : ℕ

/-- `ENOMEM`. -/
def enomem : ℤ := 12

/-- `EIO`. -/
def eio : ℤ := 5

/-- `morse_write`: the returned value, and the number of the blocks that it has left allocated. -/
def morseWrite (ledNum : ℕ) (c : WriteCall) : Logged Event Fault (ℤ × ℕ) :=
  if !c.allocated then pure (-enomem, 0)
  else if c.uncopied ≠ 0 then pure (-eio, 1)
  else do
    morseHandle ledNum c.message
    pure (c.message.length, 0)

/-- Some `write`s, one after the other: the returned values, and the number of the blocks that are
left. -/
def morseWrites (ledNum : ℕ) : List WriteCall → Logged Event Fault (List ℤ × ℕ)
  | [] => pure ([], 0)
  | c :: calls => do
    let r ← morseWrite ledNum c
    let rs ← morseWrites ledNum calls
    pure (r.1 :: rs.1, r.2 + rs.2)

/-- The device shows the message. -/
def WriteCall.shows (c : WriteCall) : Bool :=
  c.allocated && c.uncopied == 0

/-- The bytes that the device takes. -/
def WriteCall.taken (c : WriteCall) : List Byte :=
  if c.shows then c.message else []

/-- The value that a `write` returns. -/
def WriteCall.ret (c : WriteCall) : ℤ :=
  if !c.allocated then -enomem else if c.uncopied ≠ 0 then -eio else c.message.length

/-- The block of the `write` is not freed. -/
def WriteCall.leaks (c : WriteCall) : Bool :=
  c.allocated && c.uncopied != 0

section Device

variable (ledNum : ℕ)

/-- The events of a message. -/
theorem morseHandle_of_lt {message : List Byte} (h : message.length < 2 ^ 31) :
    morseHandle ledNum message =
      ⟨.ledOff :: (message.flatMap (charEvents ledNum) ++ [.ledOn 0xFF]), .ok ()⟩ := by
  rw [morseHandle, Logged.tell_bind, handleLoop_of_lt ledNum message 0 (by rwa [Nat.zero_add])]
  rfl

/-- A `write` shows its message or nothing. -/
theorem morseWrite_eq {c : WriteCall} (h : c.message.length < 2 ^ 31) :
    morseWrite ledNum c = ⟨if c.shows then (morseHandle ledNum c.message).log else [],
      .ok (c.ret, if c.leaks then 1 else 0)⟩ := by
  obtain ⟨message, allocated, uncopied⟩ := c
  cases allocated with
  | false => rfl
  | true =>
    cases uncopied with
    | succ n => rfl
    | zero =>
      show (morseHandle ledNum message >>= fun _ => pure ((message.length : ℤ), 0)) = _
      rw [morseHandle_of_lt ledNum h, Logged.mk_ok_bind]
      show (⟨_ ++ [], _⟩ : Logged Event Fault (ℤ × ℕ)) = _
      rw [List.append_nil]
      rfl

/-- The pulses of a character, with the gap behind it. -/
def charPulses (c : Byte) : List (Bool × ℕ) :=
  (itemOf c).marks.flatMap markPulses ++ [(false, gapChar)]

/-- The light is switched off before a message, and the time between two messages is not in the
trace. -/
theorem pulses_morseHandle {message : List Byte} (h : message.length < 2 ^ 31) (lit : Bool)
    (events : List Event) :
    pulses lit ((morseHandle ledNum message).log ++ events) =
      message.flatMap charPulses ++ pulses true events := by
  rw [morseHandle_of_lt ledNum h]
  show pulses false ((message.flatMap (charEvents ledNum) ++ [.ledOn 0xFF]) ++ events) = _
  rw [List.append_assoc, pulses_flatMap]
  rfl

/-- **Bytes are read back** from their pulses if there is no full stop among them. -/
theorem readBack_eq_some_iff {events : List Event} {bytes : List Byte}
    (h : pulses false events = bytes.flatMap charPulses) :
    readBack events = some (bytes.map shown) ↔ 46 ∉ bytes := by
  have hdecode : ∀ c, decodeGroup ((itemOf c).marks.flatMap markPulses) =
      decodePattern (itemOf c).marks := fun _ =>
    decodeGroup_markPulses fun _ => lt_two_of_mem_marks
  rw [readBack, h]
  show ((List.flatMap (fun c => (itemOf c).marks.flatMap markPulses ++ [(false, gapChar)])
    bytes).splitOnP isCharGap).dropLast.mapM decodeGroup = _ ↔ _
  rw [splitOnP_flatMap rfl fun _ _ => isCharGap_markPulses, List.dropLast_concat,
    mapM_map_eq_some_iff]
  simp only [hdecode]
  constructor
  · intro hall hstop
    cases decodePattern_fullStop.symm.trans (hall 46 hstop)
  · intro hstop c hc
    exact decodePattern_marks (ne_of_mem_of_not_mem hc hstop)

/-- **The pulses of several `write`s** are those of the bytes that the device takes. -/
theorem morseWrites_of_lt : (calls : List WriteCall) → (∀ c ∈ calls, c.message.length < 2 ^ 31) →
    (morseWrites ledNum calls).result =
        .ok (calls.map WriteCall.ret, calls.countP WriteCall.leaks) ∧
      ∀ lit, pulses lit (morseWrites ledNum calls).log =
        (calls.flatMap WriteCall.taken).flatMap charPulses
  | [], _ => ⟨rfl, fun _ => rfl⟩
  | c :: calls, h => by
      have hc := h c List.mem_cons_self
      obtain ⟨hresults, hpulses⟩ :=
        morseWrites_of_lt calls fun d hd => h d (List.mem_cons_of_mem c hd)
      have hnext : morseWrites ledNum (c :: calls) =
          ⟨(if c.shows then (morseHandle ledNum c.message).log else []) ++
            ((morseWrites ledNum calls).log ++ []),
            .ok (c.ret :: calls.map WriteCall.ret,
              (if c.leaks then 1 else 0) + calls.countP WriteCall.leaks)⟩ := by
        rw [morseWrites, morseWrite_eq ledNum hc, Logged.mk_ok_bind]
        cases hrest : morseWrites ledNum calls with
        | mk log result =>
          rw [hrest] at hresults
          obtain rfl : result = _ := hresults
          rfl
      rw [hnext, List.append_nil, List.flatMap_cons, WriteCall.taken]
      refine ⟨?_, fun lit => ?_⟩
      · rw [List.map_cons, List.countP_cons, Nat.add_comm]
      · cases c.shows with
        | false => exact hpulses lit
        | true =>
          rw [if_pos rfl, if_pos rfl, pulses_morseHandle ledNum hc, hpulses true,
            List.flatMap_append]

/-- **What the device shows.** After any sequence of `write`s of less than `2^31` bytes, of which
any may fail, the `write`s have returned their lengths or their errors, one block is left for each
one that could not be copied, and what is read back from the light are the bytes of the others, as
if they had been written at once and with spaces for those that cannot be shown, if and only if
there is no full stop among them. -/
theorem readBack_morseWrites_iff {calls : List WriteCall}
    (h : ∀ c ∈ calls, c.message.length < 2 ^ 31) :
    (morseWrites ledNum calls).result =
        .ok (calls.map WriteCall.ret, calls.countP WriteCall.leaks) ∧
      (readBack (morseWrites ledNum calls).log =
        some ((calls.flatMap WriteCall.taken).map shown) ↔
          46 ∉ calls.flatMap WriteCall.taken) := by
  obtain ⟨hresult, hpulses⟩ := morseWrites_of_lt ledNum calls h
  exact ⟨hresult, readBack_eq_some_iff (hpulses false)⟩

end Device

/-- The message `HALLO` in two parts, and between them a `write` that cannot be copied. -/
theorem readBack_morseWrites_hallo :
    (morseWrites 1 [⟨[72, 65], true, 0⟩, ⟨[46], true, 1⟩, ⟨[76, 76, 79], true, 0⟩]).result =
        .ok ([2, -5, 3], 1) ∧
      readBack (morseWrites 1
        [⟨[72, 65], true, 0⟩, ⟨[46], true, 1⟩, ⟨[76, 76, 79], true, 0⟩]).log =
          some [72, 65, 76, 76, 79] := by
  have hlen : ∀ c ∈ ([⟨[72, 65], true, 0⟩, ⟨[46], true, 1⟩, ⟨[76, 76, 79], true, 0⟩] :
      List WriteCall), c.message.length < 2 ^ 31 := by
    decide
  obtain ⟨hresult, hback⟩ := readBack_morseWrites_iff 1 hlen
  exact ⟨hresult, (hback.mpr (by decide)).trans (by decide)⟩

/-! ### The program -/

/-- What the program does with the console: it switches lights on, all of them off, or sleeps. -/
inductive UserEvent
  | ledOn (led : ℕ)
  | ledOff
  | usleep (us : ℕ)
  deriving DecidableEq

/-- The exit with the usage message. -/
inductive UserExit
  | usage

/-- `blink` of `4_driver/user_morse.c`. -/
def userBlink (ledNum isLong : ℕ) : List UserEvent :=
  [.ledOn ledNum, .usleep (if isLong = 1 then 1000000 else 250000), .ledOff, .usleep 250000]

/-- `morse_char` of `4_driver/user_morse.c`. -/
def userMorseChar (ledNum : ℕ) (ascii : Byte) : List UserEvent :=
  (itemOf ascii).marks.flatMap (userBlink ledNum)

/-- `main` of `4_driver/user_morse.c` with its arguments after the name of the program; `leds` are
the lights that are on, if the console can be opened. The length of the message is an `int`. -/
def userMain (ledNum : ℕ) (leds : Option ℕ) : List (List Byte) → Logged UserEvent UserExit Unit
  | [message] => do
    let msgLen := cInt message.length
    let events := .ledOff :: (message.take msgLen.toNat).flatMap (fun c =>
      userMorseChar ledNum c ++ [.usleep 2000000]) ++ [.ledOn (leds.getD 0)]
    -- without the console, `ioctl` fails and only the sleeps are left
    Logged.tell (if leds.isSome then events else events.filter fun
      | .usleep _ => true
      | _ => false)
  | _ => Logged.lift (throw .usage)

/-- An event of the driver with its sleeps in microseconds. -/
def Event.toUser : Event → UserEvent
  | .ledOn led => .ledOn led
  | .ledOff => .ledOff
  | .msleep ms => .usleep (1000 * ms)

/-- An event of the program with its sleeps in milliseconds. -/
def UserEvent.toEvent : UserEvent → Event
  | .ledOn led => .ledOn led
  | .ledOff => .ledOff
  | .usleep us => .msleep (us / 1000)

theorem Event.toEvent_toUser : (e : Event) → e.toUser.toEvent = e
  | .ledOn _ => rfl
  | .ledOff => rfl
  | .msleep ms => congrArg Event.msleep (Nat.mul_div_cancel_left ms (by decide))

section Program

variable (ledNum : ℕ)

/-- The program blinks like the driver. -/
theorem userMorseChar_eq (c : Byte) :
    userMorseChar ledNum c = (morseChar ledNum c).map Event.toUser := by
  rw [userMorseChar, morseChar, List.map_flatMap]
  refine congrArg (fun blinks => (itemOf c).marks.flatMap blinks) (funext fun m => ?_)
  rw [userBlink, blink]
  by_cases hm : m = 1
  · rw [if_pos hm, if_pos hm]
    rfl
  · rw [if_neg hm, if_neg hm]
    rfl

/-- **The program does what the device does.** With a console, it shows its argument with the same
events as the driver, and at the end it switches on the lights that were on at first; what is read
back is the argument, with spaces for what cannot be shown, if and only if there is no full stop in
it. -/
theorem log_userMain {message : List Byte} (h : message.length < 2 ^ 31) (leds : ℕ) :
    userMain ledNum (some leds) [message] =
        ⟨(morseHandle ledNum message).log.dropLast.map Event.toUser ++ [.ledOn leds], .ok ()⟩ ∧
      (readBack ((userMain ledNum (some leds) [message]).log.map UserEvent.toEvent) =
        some (message.map shown) ↔ 46 ∉ message) := by
  have hlen : (cInt message.length).toNat = message.length := by
    rw [cInt_natCast h, Int.toNat_natCast]
  have hevents : (morseHandle ledNum message).log.dropLast =
      .ledOff :: message.flatMap (charEvents ledNum) := by
    rw [morseHandle_of_lt ledNum h, ← List.cons_append, List.dropLast_concat]
  have hchar : (fun c => userMorseChar ledNum c ++ [.usleep 2000000]) =
      fun c => (charEvents ledNum c).map Event.toUser := by
    funext c
    rw [userMorseChar_eq, charEvents, List.map_append]
    rfl
  have hlog : userMain ledNum (some leds) [message] =
      ⟨(morseHandle ledNum message).log.dropLast.map Event.toUser ++ [.ledOn leds], .ok ()⟩ := by
    rw [userMain, hlen, List.take_length, hchar, hevents, List.map_cons, List.map_flatMap]
    rfl
  refine ⟨hlog, readBack_eq_some_iff ?_⟩
  have hback : (fun e => (Event.toUser e).toEvent) = id := funext Event.toEvent_toUser
  rw [hlog, hevents, List.map_append, List.map_map]
  show pulses false (List.map (fun e => (Event.toUser e).toEvent) _ ++ _) = _
  rw [hback, List.map_id]
  exact (pulses_flatMap ledNum message [.ledOn leds]).trans (List.append_nil _)

end Program

/-- The program shows `SOS`. -/
theorem log_userMain_sos :
    readBack ((userMain 1 (some 2) [[83, 79, 83]]).log.map UserEvent.toEvent) =
      some [83, 79, 83] :=
  ((log_userMain 1 (by decide) 2).2.mpr (by decide)).trans (by decide)

end TikFachpraktika.Driver.Morse
