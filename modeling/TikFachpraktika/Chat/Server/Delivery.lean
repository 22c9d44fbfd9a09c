import TikFachpraktika.Chat.Server.Registry

/-!
# What the chat server sends

Data that fits into the queue of a client is collected in `outbuff`, and a flush whose `write`
takes all bytes sends it with a terminator. A newline at its end is sent as a second NUL.

## Main definitions

* `frame`: the bytes that a flush sends for a text.
* `enqueue`, `collected`: what a queue takes of the strings that it is offered.
* `Server.afterSend`: the state after a text has been sent to a client.
* `Fits`: the strings that make a text for the queue.
* `Client.Ready`: an active client with an empty queue.

## Main results

* `Client.Holds.queue`: what `server_write_fd_queue` takes.
* `Server.writeAndFlush_of_ready`, `Server.writeAndFlush_of_fits`: queueing and flushing.
-/

namespace TikFachpraktika.Chat

open Posix

/-- The bytes that are sent for a text: it is terminated, and a newline at its end is overwritten
by a NUL. -/
def frame (text : List Byte) : List Byte :=
  (if text.getLast? = some 10 then text.dropLast ++ [0] else text) ++ [0]

theorem frame_of_getLast? {text : List Byte} (h : text.getLast? ≠ some 10) :
    frame text = text ++ [0] := by
  rw [frame, if_neg h]

theorem frame_ne_nil (text : List Byte) : frame text ≠ [] := by
  rw [frame]
  exact List.append_ne_nil_of_right_ne_nil _ (List.cons_ne_nil _ _)

/-! ### The queue -/

/-- A client whose queue holds the string `text`. -/
structure Client.Holds (c : Client) (text : List Byte) : Prop where
  outLen_eq : c.outLen = initQsiz
  outUsed_eq : c.outUsed = text.length
  outbuff_eq : ∃ b, c.outbuff = some b ∧ cstr b = text

theorem Client.Sound.holds_nil {c : Client} (hc : c.Sound) (hactive : c.active = true)
    (hused : c.outUsed = 0) : c.Holds [] := by
  obtain ⟨hlen, b, hb, hcount, -⟩ := hc.out hactive
  exact ⟨hlen, hused, b, hb, List.eq_nil_of_length_eq_zero (hcount.trans hused)⟩

/-- Queueing touches the queue only. -/
theorem Client.queue_eq (c : Client) (data : List Byte) :
    ∃ b used, c.queue data = { c with outbuff := b, outUsed := used } := by
  rw [Client.queue]
  split_ifs with hfit
  · exact ⟨_, _, rfl⟩
  · exact ⟨c.outbuff, c.outUsed, rfl⟩

theorem Client.foldl_queue_eq (data : List (List Byte)) (c : Client) :
    ∃ b used, data.foldl Client.queue c = { c with outbuff := b, outUsed := used } := by
  induction data generalizing c with
  | nil => exact ⟨c.outbuff, c.outUsed, rfl⟩
  | cons d data ih =>
    obtain ⟨b, used, hqueue⟩ := c.queue_eq d
    obtain ⟨b', used', hrest⟩ := ih (c.queue d)
    exact ⟨b', used', by rw [List.foldl_cons, hrest, hqueue]⟩

/-- What a queue with `text` holds after a string has been offered: it is taken if there is room
for it and its terminator. -/
def enqueue (text data : List Byte) : List Byte :=
  if text.length + data.length < initQsiz then text ++ data else text

/-- What an empty queue holds after some strings have been offered. -/
def collected (data : List (List Byte)) : List Byte :=
  data.foldl enqueue []

theorem length_enqueue_lt {text : List Byte} (h : text.length < initQsiz) (data : List Byte) :
    (enqueue text data).length < initQsiz := by
  rw [enqueue]
  split_ifs with hfit
  · rwa [List.length_append]
  · exact h

theorem length_foldl_enqueue_lt {text : List Byte} (h : text.length < initQsiz)
    (data : List (List Byte)) : (data.foldl enqueue text).length < initQsiz := by
  induction data generalizing text with
  | nil => exact h
  | cons d data ih => exact ih (length_enqueue_lt h d)

theorem length_collected_lt (data : List (List Byte)) : (collected data).length < initQsiz :=
  @length_foldl_enqueue_lt [] initQsiz_pos data

/-- Strings that fit together are all taken. -/
theorem foldl_enqueue_of_lt {text : List Byte} {data : List (List Byte)}
    (h : text.length + data.flatten.length < initQsiz) :
    data.foldl enqueue text = text ++ data.flatten := by
  induction data generalizing text with
  | nil => rw [List.foldl_nil, List.flatten_nil, List.append_nil]
  | cons d data ih =>
    rw [List.flatten_cons, List.length_append] at h
    rw [List.foldl_cons, enqueue, if_pos (by omega), ih (by rw [List.length_append]; omega),
      List.flatten_cons, List.append_assoc]

theorem collected_of_lt {data : List (List Byte)} (h : data.flatten.length < initQsiz) :
    collected data = data.flatten := by
  rw [collected, foldl_enqueue_of_lt (by simpa using h), List.nil_append]

/-- **Queueing a string**: it is taken if there is room for it. -/
theorem Client.Holds.queue {c : Client} {text data : List Byte} (hc : c.Holds text)
    (hdata : (0 : Byte) ∉ data) (htext : text.length < initQsiz) :
    (c.queue data).Holds (enqueue text data) := by
  obtain ⟨hlen, hused, b, hb, rfl⟩ := hc
  have hlt := initQsiz_lt
  have hspace : (c.outLen + 2 ^ 64 - c.outUsed) % 2 ^ 64 = initQsiz - (cstr b).length := by
    rw [hlen, hused]
    omega
  rw [Client.queue, hspace, cstr_of_notMem hdata, enqueue]
  by_cases hfit : (cstr b).length + data.length < initQsiz
  · rw [if_pos hfit, if_pos (by omega)]
    refine ⟨hlen, ?_, _, by rw [hb]; rfl, ?_⟩
    · dsimp only
      rw [hused, List.length_append]
    · rw [cstr_strlcat hdata (by rw [hlen]; exact hfit)]
  · rw [if_neg hfit, if_neg (by omega)]
    exact ⟨hlen, hused, b, hb, rfl⟩

theorem Client.Holds.foldl_queue {data : List (List Byte)} {c : Client} {text : List Byte}
    (hc : c.Holds text) (hdata : ∀ d ∈ data, (0 : Byte) ∉ d) (htext : text.length < initQsiz) :
    (data.foldl Client.queue c).Holds (data.foldl enqueue text) := by
  induction data generalizing c text with
  | nil => exact hc
  | cons d data ih =>
    exact ih (hc.queue (hdata d List.mem_cons_self) htext)
      (fun d' hd' => hdata d' (List.mem_cons_of_mem _ hd')) (length_enqueue_lt htext d)

theorem Server.writeAll_eq (s : Server) (fd : ℕ) (data : List (List Byte)) :
    s.writeAll fd data = s.setClient fd (data.foldl Client.queue (s.clients fd)) := by
  induction data generalizing s with
  | nil => rw [Server.writeAll, List.foldl_nil, List.foldl_nil, Server.setClient,
      Function.update_eq_self]
  | cons d data ih =>
    have hstep : s.writeAll fd (d :: data) = (s.writeFdQueue fd d).writeAll fd data := rfl
    rw [hstep, ih, Server.writeFdQueue_eq, Server.setClient_clients_self, List.foldl_cons,
      Server.setClient, Server.setClient, Server.setClient, Function.update_idem]

/-! ### The flush -/

/-- An array that begins with `text` and a NUL, or ends after `text`. -/
theorem fill_append {text rest : List Byte} (hrest : rest.headD 0 = 0) :
    (CharArray.fill (text.length + 1) (text ++ rest)).1 = text ++ [0] := by
  cases rest with
  | nil => simp [CharArray.fill]
  | cons x rest =>
    obtain rfl : x = 0 := hrest
    simp [CharArray.fill, List.take_append]

/-- The bytes that a flush writes. -/
theorem fill_frame {b text : List Byte} (hb : cstr b = text) (htext : text ≠ []) :
    (CharArray.fill (text.length + 1)
      (if (b.set text.length 0).getD (text.length - 1) 0 = 10
        then (b.set text.length 0).set (text.length - 1) 0 else b.set text.length 0)).1 =
      frame text := by
  obtain ⟨init, last, rfl⟩ : ∃ init last, text = init ++ [last] :=
    ⟨text.dropLast, text.getLast htext, (List.dropLast_append_getLast htext).symm⟩
  obtain ⟨rest, rfl⟩ : init ++ [last] <+: b := hb ▸ List.takeWhile_prefix _
  have hset : ((init ++ [last]) ++ rest).set (init ++ [last]).length 0 =
      (init ++ [last]) ++ rest.set 0 0 := by
    rw [List.set_append_right _ _ le_rfl, Nat.sub_self]
  have hhead : (rest.set 0 0).headD 0 = 0 := by cases rest <;> rfl
  have hindex : (init ++ [last]).length - 1 = init.length := by simp
  have hlast : ((init ++ [last]) ++ rest.set 0 0).getD init.length 0 = last := by simp
  rw [hset, hindex, hlast, frame, List.getLast?_append, List.getLast?_singleton, Option.some_or,
    List.dropLast_concat]
  split_ifs with hnewline hsome hsome
  · -- the newline is overwritten
    have hcut : ((init ++ [last]) ++ rest.set 0 0).set init.length 0 =
        (init ++ [0]) ++ rest.set 0 0 := by simp
    have hlen : (init ++ [last]).length = (init ++ [(0 : Byte)]).length := by simp
    rw [hcut, hlen, fill_append hhead]
  · exact absurd (congrArg some hnewline) hsome
  · exact absurd (Option.some.inj hsome) hnewline
  · exact fill_append hhead

/-- The state after the text has been sent to `fd`. -/
def Server.afterSend (s : Server) (fd : ℕ) (text : List Byte) : Server :=
  { s with sent := Function.update s.sent fd (s.sent fd ++ frame text) }.setClient fd
    { s.clients fd with outUsed := 0, outbuff := some [] }

section AfterSend

variable (s : Server) (fd : ℕ) (text : List Byte)

@[simp] theorem Server.afterSend_clients_self : (s.afterSend fd text).clients fd =
    { s.clients fd with outUsed := 0, outbuff := some [] } :=
  Function.update_self ..

theorem Server.afterSend_clients_of_ne {i : ℕ} (h : i ≠ fd) :
    (s.afterSend fd text).clients i = s.clients i :=
  Function.update_of_ne h ..

@[simp] theorem Server.afterSend_sent : (s.afterSend fd text).sent =
    Function.update s.sent fd (s.sent fd ++ frame text) :=
  rfl

end AfterSend

/-- The state after a flush, for what `write_exact` returns and writes. -/
def Server.afterFlush (s : Server) (fd : ℕ) : Option (ℕ × List Byte) → Except Fault Server
  | none => throw .hang
  | some (ret, out) =>
    let t := { s with sent := Function.update s.sent fd (s.sent fd ++ out) }
    if ret = 0 then pure (t.disconnectClient fd)
    else pure (t.setClient fd { s.clients fd with outUsed := 0, outbuff := some [] })

theorem Server.afterFlush_full (s : Server) (fd : ℕ) (text : List Byte)
    (answers : List WriteAnswer) :
    s.afterFlush fd (writeExact (.full :: answers) (frame text) 0) = .ok (s.afterSend fd text) := by
  rw [writeExact_full _ (frame_ne_nil text), Server.afterFlush]
  dsimp only
  rw [if_neg (by simpa using frame_ne_nil text)]
  rfl

/-- A flush that leaves the client active has sent the text. -/
theorem Server.eq_afterSend_of_active {s s' : Server} {fd : ℕ} {text : List Byte}
    {answers : List WriteAnswer}
    (h : s.afterFlush fd (writeExact answers (frame text) 0) = .ok s')
    (hactive : (s'.clients fd).active = true) : s' = s.afterSend fd text := by
  cases hwrite : writeExact answers (frame text) 0 with
  | none =>
    rw [hwrite] at h
    cases h
  | some result =>
    obtain ⟨ret, out⟩ := result
    rw [hwrite, Server.afterFlush] at h
    dsimp only at h
    split_ifs at h with hret
    · cases h
      rw [Server.disconnectClient_clients_self] at hactive
      cases hactive
    · cases h
      rw [eq_of_writeExact hwrite hret]
      rfl

/-- A flush of a queue that holds a text. -/
theorem Server.flushQueuedData_of_holds {s : Server} {fd : ℕ} {text : List Byte}
    (answers : List WriteAnswer) (hactive : (s.clients fd).active = true)
    (hholds : (s.clients fd).Holds text) (hne : text ≠ []) (hfit : text.length < initQsiz) :
    s.flushQueuedData fd answers = s.afterFlush fd (writeExact answers (frame text) 0) := by
  obtain ⟨hlen, hused, b, hb, hcstr⟩ := hholds
  have hpos := List.length_pos_iff.mpr hne
  have hwritten : (if (s.clients fd).outUsed ≥ (s.clients fd).outLen
      then (s.clients fd).outLen - 1 else (s.clients fd).outUsed) = text.length := by
    rw [if_neg (by omega), hused]
  rw [Server.flushQueuedData, if_neg (by simp [hactive]), if_neg (by omega), hb]
  dsimp only
  rw [hwritten, fill_frame hcstr hne]
  cases writeExact answers (frame text) 0 with
  | none => rfl
  | some result => rfl

/-- Strings that together make a text for the queue of a client. -/
structure Fits (data : List (List Byte)) : Prop where
  zero_notMem : ∀ d ∈ data, (0 : Byte) ∉ d
  ne_nil : data.flatten ≠ []
  length_lt : data.flatten.length < initQsiz

/-- A client that is active and has an empty queue. -/
structure Client.Ready (c : Client) : Prop where
  sound : c.Sound
  active : c.active = true
  outUsed_eq : c.outUsed = 0

/-- **Queueing and flushing** sends what the queue has taken. -/
theorem Server.writeAndFlush_of_ready {s : Server} {fd : ℕ} {data : List (List Byte)}
    (answers : List WriteAnswer) (hready : (s.clients fd).Ready)
    (hdata : ∀ d ∈ data, (0 : Byte) ∉ d) (hne : collected data ≠ []) :
    s.writeAndFlush fd data answers =
      s.afterFlush fd (writeExact answers (frame (collected data)) 0) := by
  have hholds : (data.foldl Client.queue (s.clients fd)).Holds (collected data) :=
    (hready.sound.holds_nil hready.active hready.outUsed_eq).foldl_queue hdata initQsiz_pos
  obtain ⟨b, used, heq⟩ := Client.foldl_queue_eq data (s.clients fd)
  have hclient : (s.setClient fd (data.foldl Client.queue (s.clients fd))).clients fd =
      data.foldl Client.queue (s.clients fd) := Server.setClient_clients_self ..
  rw [Server.writeAndFlush, Server.writeAll_eq,
    Server.flushQueuedData_of_holds answers (by rw [hclient, heq, hready.active])
      (by rw [hclient]; exact hholds) hne (length_collected_lt data)]
  cases writeExact answers (frame (collected data)) 0 with
  | none => rfl
  | some result =>
    simp only [Server.afterFlush, heq, Server.disconnectClient, Server.setClient,
      Function.update_self, Function.update_idem]

/-- A text that fits into the queue is sent as a whole. -/
theorem Server.writeAndFlush_of_fits {s : Server} {fd : ℕ} {data : List (List Byte)}
    (answers : List WriteAnswer) (hready : (s.clients fd).Ready) (hdata : Fits data) :
    s.writeAndFlush fd data answers =
      s.afterFlush fd (writeExact answers (frame data.flatten) 0) := by
  have hcollected := collected_of_lt hdata.length_lt
  rw [Server.writeAndFlush_of_ready answers hready hdata.zero_notMem
    (hcollected ▸ hdata.ne_nil), hcollected]

/-- A text is sent when `write` takes all bytes. -/
theorem Server.writeAndFlush_full {s : Server} {fd : ℕ} {data : List (List Byte)}
    {answers : List WriteAnswer} (hready : (s.clients fd).Ready) (hdata : Fits data) :
    s.writeAndFlush fd data (.full :: answers) = .ok (s.afterSend fd data.flatten) := by
  rw [Server.writeAndFlush_of_fits _ hready hdata, Server.afterFlush_full]

end TikFachpraktika.Chat
