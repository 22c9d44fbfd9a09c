import Mathlib.Data.List.GetD
import TikFachpraktika.Chat.Server.Delivery
import TikFachpraktika.Chat.WriteExact

/-!
# The output queue

`server_write_fd_queue` and `server_flush_queued_data` of `6_network/server.c` keep the length of
the queue in `out_used`, and `strlcat` computes it again from `outbuff`. In a queue that was empty
before, the two agree at every call, and the queue is a string that takes a piece as long as there
is room for it.

## Main definitions

* `strlcatStores`, `Client.queueStores`, `Client.flushStores`: the positions at which bytes are
  stored.
* `Client.Queues`: a client whose `outbuff` holds a text and is zero behind it.
* `flushed`: the bytes that a flush sends.

## Main results

* `Client.Queues.queue`: one call of `server_write_fd_queue`.
* `output_queue`: the law of the queue.
-/

namespace TikFachpraktika.Chat

open Posix

/-! ### Stored positions -/

/-- The positions behind `dest` at which `strlcat` stores a byte. -/
def strlcatStores (dest src : List Byte) (count : ℕ) : List ℕ :=
  let dsize := (cstr dest).length
  if dsize ≥ count then []
  else List.range' dsize (min src.length (count - dsize - 1) + 1)

/-- The positions in `outbuff` at which `server_write_fd_queue` stores a byte. -/
def Client.queueStores (c : Client) (data : List Byte) : List ℕ :=
  if (c.outLen + 2 ^ 64 - c.outUsed) % 2 ^ 64 > (cstr data).length then
    strlcatStores (c.outbuff.getD []) (cstr data) c.outLen
  else []

/-- The positions in `outbuff` at which `server_flush_queued_data` stores a byte: the terminator,
the NUL in the place of a newline, and the zeros of `memset`. -/
def Client.flushStores (c : Client) : List ℕ :=
  if c.active = false ∨ c.outUsed = 0 then []
  else
    let outUsed := if c.outUsed ≥ c.outLen then c.outLen - 1 else c.outUsed
    outUsed :: (outUsed - 1) :: List.range c.outLen

/-- `strlcat` changes its destination at the stored positions only. -/
theorem getD_strlcat_of_notMem {dest src : List Byte} {count i : ℕ}
    (hi : i ∉ strlcatStores dest src count) :
    (strlcat dest src count).2.getD i 0 = dest.getD i 0 := by
  rw [strlcatStores] at hi
  rw [strlcat]
  dsimp only at hi ⊢
  split_ifs at hi ⊢ with hfull
  · rfl
  · set dsize := (cstr dest).length
    set len := min src.length (count - dsize - 1)
    rw [List.mem_range'_1, not_and_or, Nat.not_le, Nat.not_lt] at hi
    have hdsize : dsize ≤ dest.length := (List.takeWhile_prefix _).length_le
    have hlen : (dest.take dsize ++ src.take len).length = dsize + len := by
      rw [List.length_append, List.length_take, List.length_take]
      omega
    rcases hi with hlt | hge
    · rw [List.append_assoc, List.getD_append _ _ _ _ (by rw [List.length_take]; omega),
        List.getD_eq_getElem?_getD, List.getElem?_take_of_lt hlt, ← List.getD_eq_getElem?_getD]
    · obtain ⟨k, rfl⟩ : ∃ k, i = dsize + len + (k + 1) := ⟨i - (dsize + len + 1), by omega⟩
      rw [← hlen, List.getD_append_right _ _ _ _ (Nat.le_add_right _ _), Nat.add_sub_cancel_left,
        hlen, List.getD_cons_succ, List.getD_eq_getElem?_getD, List.getElem?_drop,
        ← List.getD_eq_getElem?_getD]
      exact congrArg (fun j => dest.getD j 0) (by omega)

/-! ### The queue of a client -/

/-- An active client whose `outbuff` holds the string `text` and is zero behind it; `outUsed` is
the length of this string, and less than `outLen`. -/
structure Client.Queues (c : Client) (text : List Byte) : Prop extends Client.Holds c text where
  active : c.active = true
  zero_notMem : (0 : Byte) ∉ text
  outUsed_lt : c.outUsed < c.outLen
  zeros : ∃ n, c.outbuff = some (text ++ List.replicate n 0) ∧ text.length + n ≤ c.outLen

/-- Appending to a string with zeros behind it. -/
theorem strlcat_replicate {text data : List Byte} {n count : ℕ} (htext : (0 : Byte) ∉ text)
    (hfit : text.length + data.length < count) :
    (strlcat (text ++ List.replicate n 0) data count).2 =
      text ++ data ++ List.replicate (n - (data.length + 1) + 1) 0 := by
  have hcstr : cstr (text ++ List.replicate n 0) = text := by
    rw [cstr_append_of_notMem htext, cstr_replicate_zero, List.append_nil]
  have hdrop : (text ++ List.replicate n 0).drop (text.length + data.length + 1) =
      List.replicate (n - (data.length + 1)) (0 : Byte) := by
    rw [Nat.add_assoc, List.drop_append, List.drop_of_length_le (by omega), List.nil_append,
      List.drop_replicate, Nat.add_sub_cancel_left]
  rw [strlcat, hcstr]
  dsimp only
  rw [if_neg (by omega), Nat.min_eq_left (by omega), List.take_left, List.take_length, hdrop,
    ← List.replicate_succ]

/-- **Queueing a piece**: it is taken if there is room for it, and no byte is stored behind
`outLen`. -/
theorem Client.Queues.queue {c : Client} {text data : List Byte} (hc : c.Queues text)
    (hdata : (0 : Byte) ∉ data) :
    (c.queue data).Queues (enqueue text data) ∧ ∀ i ∈ c.queueStores data, i < c.outLen := by
  have htext : text.length < initQsiz := by
    rw [← hc.outUsed_eq, ← hc.outLen_eq]
    exact hc.outUsed_lt
  have hholds := hc.toHolds.queue hdata htext
  obtain ⟨n, hb, hn⟩ := hc.zeros
  have hlt := initQsiz_lt
  have hlen := hc.outLen_eq
  have hused := hc.outUsed_eq
  have hspace : (c.outLen + 2 ^ 64 - c.outUsed) % 2 ^ 64 = initQsiz - text.length := by
    rw [hlen, hused]
    omega
  have hcstr : cstr (text ++ List.replicate n 0) = text := by
    rw [cstr_append_of_notMem hc.zero_notMem, cstr_replicate_zero, List.append_nil]
  by_cases hfit : text.length + data.length < initQsiz
  · have hroom : initQsiz - text.length > data.length := by omega
    rw [Client.queueStores, hspace, cstr_of_notMem hdata, if_pos hroom, hb, Option.getD_some,
      strlcatStores, hcstr]
    refine ⟨⟨hholds, (Client.queue_active c data).trans hc.active, ?_, ?_, ?_⟩, ?_⟩
    · rw [enqueue, if_pos hfit, List.mem_append, not_or]
      exact ⟨hc.zero_notMem, hdata⟩
    · rw [hholds.outUsed_eq, hholds.outLen_eq]
      exact length_enqueue_lt htext data
    · refine ⟨n - (data.length + 1) + 1, ?_, ?_⟩
      · rw [Client.queue, hspace, cstr_of_notMem hdata, if_pos hroom, hb, Option.map_some,
          strlcat_replicate hc.zero_notMem (hlen ▸ hfit), enqueue, if_pos hfit]
      · rw [enqueue, if_pos hfit, List.length_append, hholds.outLen_eq]
        omega
    · rw [if_neg (by omega)]
      intro i hi
      rw [List.mem_range'_1] at hi
      omega
  · have hfull : ¬initQsiz - text.length > data.length := by omega
    rw [Client.queueStores, hspace, cstr_of_notMem hdata, if_neg hfull, Client.queue, hspace,
      cstr_of_notMem hdata, if_neg hfull, enqueue, if_neg hfit]
    exact ⟨hc, fun i hi => absurd hi List.not_mem_nil⟩

/-! ### Calls one after the other -/

/-- The bytes that a flush sends: nothing for an empty queue. -/
def flushed (text : List Byte) : List Byte :=
  if text = [] then [] else frame text

theorem length_frame (text : List Byte) : (frame text).length = text.length + 1 := by
  rw [frame, List.length_append, List.length_singleton]
  split_ifs with hnewline
  · have hne : text ≠ [] := by
      rintro rfl
      cases hnewline
    have hpos := List.length_pos_iff.mpr hne
    rw [List.length_append, List.length_dropLast, List.length_singleton]
    omega
  · rfl

theorem Server.afterFlush_of_succeeds (s : Server) (fd : ℕ) {text : List Byte}
    {answers : List WriteAnswer} (h : Succeeds answers (text.length + 1)) :
    s.afterFlush fd (writeExact answers (frame text) 0) = .ok (s.afterSend fd text) := by
  rw [writeExact_of_succeeds (by rw [length_frame]; exact h), Server.afterFlush, length_frame]
  dsimp only
  rw [if_neg (by omega)]
  rfl

/-- **What a flush of a text does**: it sends the text, or it disconnects the client, or `write`
never takes all of it. -/
theorem Server.afterFlush_cases (s : Server) (fd : ℕ) (text : List Byte)
    (answers : List WriteAnswer) :
    (Succeeds answers (text.length + 1) ∧
      s.afterFlush fd (writeExact answers (frame text) 0) = .ok (s.afterSend fd text)) ∨
    (Refused answers (text.length + 1) ∧ ∃ out,
      s.afterFlush fd (writeExact answers (frame text) 0) = .ok (disconnectClient
        { s with sent := Function.update s.sent fd (s.sent fd ++ out) } fd)) ∨
    (¬Settles answers (text.length + 1) ∧
      s.afterFlush fd (writeExact answers (frame text) 0) = .error .hang) := by
  rw [← length_frame text]
  obtain hsucceeds | hrefused | ⟨-, -, hnone⟩ := writeExact_cases answers (frame text) 0
  · refine .inl ⟨hsucceeds, s.afterFlush_of_succeeds fd ?_⟩
    rwa [length_frame] at hsucceeds
  · obtain ⟨out, hout, -⟩ := exists_writeExact_of_refused 0 hrefused
    refine .inr (.inl ⟨hrefused, out, ?_⟩)
    rw [hout, Server.afterFlush]
    exact if_pos rfl
  · refine .inr (.inr ⟨not_settles_of_writeExact_eq_none hnone, ?_⟩)
    rw [hnone]
    rfl

section Calls

variable {s : Server} {fd : ℕ} {text : List Byte}

theorem Server.writeAll_append_singleton (s : Server) (fd : ℕ) (pre : List (List Byte))
    (d : List Byte) : s.writeAll fd (pre ++ [d]) = (s.writeAll fd pre).writeFdQueue fd d := by
  rw [Server.writeAll, List.foldl_append, List.foldl_cons, List.foldl_nil, Server.writeAll]

theorem collected_append_singleton (pre : List (List Byte)) (d : List Byte) :
    collected (pre ++ [d]) = enqueue (collected pre) d := by
  rw [collected, List.foldl_append, List.foldl_cons, List.foldl_nil, collected]

/-- **The queue after some calls.** -/
theorem Client.Queues.writeAll (hc : (s.clients fd).Queues []) {data : List (List Byte)}
    (hdata : ∀ d ∈ data, (0 : Byte) ∉ d) :
    ((s.writeAll fd data).clients fd).Queues (collected data) := by
  induction data using List.reverseRecOn with
  | nil =>
    rw [Server.writeAll, collected, List.foldl_nil, List.foldl_nil]
    exact hc
  | append_singleton pre d ih =>
    have hpre := ih fun d' hd' => hdata d' (List.mem_append_left _ hd')
    rw [Server.writeAll_append_singleton, collected_append_singleton, Server.writeFdQueue_eq,
      Server.setClient_clients_self]
    exact (hpre.queue (hdata d (by simp))).1

/-- The flush stores inside `outbuff`. -/
theorem Client.Queues.flushStores_lt {c : Client} (hc : c.Queues text) :
    ∀ i ∈ c.flushStores, i < c.outLen := by
  have hlt := hc.outUsed_lt
  rw [Client.flushStores]
  split_ifs with hdone hfull
  · exact fun i hi => absurd hi List.not_mem_nil
  · omega
  · intro i hi
    simp only [List.mem_cons, List.mem_range] at hi
    omega

/-- A flush that is written empties the queue. -/
theorem Client.Queues.flush (hc : (s.clients fd).Queues text) {answers : List WriteAnswer}
    (hanswers : text ≠ [] → Succeeds answers (text.length + 1)) :
    ∃ s', s.flushQueuedData fd answers = .ok s' ∧
      s'.sent = Function.update s.sent fd (s.sent fd ++ flushed text) ∧
      (s'.clients fd).Queues [] ∧ ∀ i, i ≠ fd → s'.clients i = s.clients i := by
  by_cases htext : text = []
  · have hused : (s.clients fd).outUsed = 0 := by
      rw [hc.outUsed_eq, htext, List.length_nil]
    refine ⟨s, ?_, ?_, htext ▸ hc, fun i _ => rfl⟩
    · rw [Server.flushQueuedData, if_neg (by simp [hc.active]), if_pos hused]
      rfl
    · rw [flushed, if_pos htext, List.append_nil, Function.update_eq_self]
  · have hlt : text.length < initQsiz := by
      rw [← hc.outUsed_eq, ← hc.outLen_eq]
      exact hc.outUsed_lt
    refine ⟨s.afterSend fd text, ?_, ?_, ?_, fun i hi => s.afterSend_clients_of_ne fd text hi⟩
    · rw [Server.flushQueuedData_of_holds answers hc.active hc.toHolds htext hlt,
        Server.afterFlush_of_succeeds s fd (hanswers htext)]
    · rw [flushed, if_neg htext, Server.afterSend_sent]
    · rw [Server.afterSend_clients_self]
      refine ⟨⟨hc.outLen_eq, rfl, [], rfl, rfl⟩, hc.active, List.not_mem_nil, ?_, 0, rfl, zero_le⟩
      exact hc.outLen_eq ▸ initQsiz_pos

/-- **The law of the output queue.** For a client with an empty queue and any NUL-free pieces,
`outbuff` holds the taken pieces after each call, a piece is taken if and only if it leaves room
for a terminator, all bytes are stored inside `outbuff`, and a flush that is written sends the taken
pieces, with a newline at the end as NUL and with a NUL behind, or nothing if there are none, and
leaves an empty queue. -/
theorem output_queue (hempty : (s.clients fd).Queues []) {data : List (List Byte)}
    (hdata : ∀ d ∈ data, (0 : Byte) ∉ d) :
    (∀ pre, pre <+: data → ((s.writeAll fd pre).clients fd).Queues (collected pre)) ∧
    (∀ pre d, pre ++ [d] <+: data →
      collected (pre ++ [d]) =
        (if (collected pre).length + d.length < initQsiz then collected pre ++ d
          else collected pre) ∧
      ∀ i ∈ ((s.writeAll fd pre).clients fd).queueStores d, i < initQsiz) ∧
    (∀ i ∈ ((s.writeAll fd data).clients fd).flushStores, i < initQsiz) ∧
    ∀ answers, (collected data ≠ [] → Succeeds answers ((collected data).length + 1)) →
      ∃ s', s.writeAndFlush fd data answers = .ok s' ∧
        s'.sent = Function.update s.sent fd (s.sent fd ++ flushed (collected data)) ∧
        (s'.clients fd).Queues [] ∧ ∀ i, i ≠ fd → s'.clients i = s.clients i := by
  have hqueues : ∀ pre, pre <+: data →
      ((s.writeAll fd pre).clients fd).Queues (collected pre) := fun pre hpre =>
    hempty.writeAll fun d hd => hdata d (hpre.mem hd)
  have hwhole := hqueues data List.prefix_rfl
  refine ⟨hqueues, fun pre d hpre => ⟨collected_append_singleton pre d, fun i hi => ?_⟩,
    fun i hi => ?_, fun answers hanswers => ?_⟩
  · have hbefore := hqueues pre ((List.prefix_append pre [d]).trans hpre)
    rw [← hbefore.outLen_eq]
    exact (hbefore.queue (hdata d (hpre.mem (by simp)))).2 i hi
  · rw [← hwhole.outLen_eq]
    exact hwhole.flushStores_lt i hi
  · obtain ⟨s', hflush, hsent, hqueue, hother⟩ := hwhole.flush hanswers
    have hall : s.writeAll fd data =
        s.setClient fd (data.foldl Client.queue (s.clients fd)) := s.writeAll_eq fd data
    refine ⟨s', hflush, ?_, hqueue, fun i hi => ?_⟩
    · rw [hsent, hall]
      rfl
    · rw [hother i hi, hall, Server.setClient_clients_of_ne _ _ _ hi]

/-- Two pieces for a new client, the second one a newline. -/
theorem output_queue_newline :
    ∃ s', ((serverMain (fun _ => false) 3).putConnection 4 ⟨127, 0, 0, 1⟩).writeAndFlush 4
      [str "hi", str "\n"] [.full] = .ok s' ∧ s'.sent 4 = str "hi" ++ [0, 0] := by
  have hempty : (((serverMain (fun _ => false) 3).putConnection 4 ⟨127, 0, 0, 1⟩).clients
      4).Queues [] :=
    ⟨⟨rfl, rfl, [], rfl, rfl⟩, rfl, List.not_mem_nil, initQsiz_pos, 0, rfl, zero_le⟩
  have hdata : ∀ d ∈ [str "hi", str "\n"], (0 : Byte) ∉ d := by decide
  obtain ⟨s', hflush, hsent, -⟩ := (output_queue hempty hdata).2.2.2 [.full]
    fun _ => succeeds_full [] _
  refine ⟨s', hflush, ?_⟩
  rw [hsent, Function.update_self]
  decide

end Calls

end TikFachpraktika.Chat
