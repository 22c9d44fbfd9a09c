import Mathlib.Data.List.SplitLengths
import TikFachpraktika.Chat.InStep
import TikFachpraktika.Chat.Server.Rules
import TikFachpraktika.Chat.Server.Delivery

/-!
# From the server to the client

The server sends each message with a NUL, and the client posts the string in its buffer after each
`read`. How the stream is cut decides whether these strings are the messages.

## Main definitions

* `Server.sendAll`: messages queued and flushed one by one.
* `Transfer`: messages are sent, read in pieces, and strings are posted.

## Main results

* `Server.sent_of_sendAll`: the stream of the server.
* `transfer_posts_iff`: the lengths for which the messages are posted.
-/

namespace TikFachpraktika.Chat

open Posix

/-! ### The server -/

/-- The server queues and flushes messages for `fd` one by one; with each message the answers of
`write`. -/
def Server.sendAll (s : Server) (fd : ℕ) (sends : List (List Byte × List WriteAnswer)) :
    Except Fault Server :=
  sends.foldlM (fun s send => s.writeAndFlush fd [send.1] send.2) s

section SendAll

variable {s s' : Server} {fd : ℕ}

theorem IsMessage.fits {m : List Byte} (hm : IsMessage m) : Fits [m] where
  zero_notMem d hd := by
    rw [List.mem_singleton.mp hd]
    exact hm.zero_notMem
  ne_nil := by simpa using hm.ne_nil
  length_lt := by
    have hlt := hm.length_lt
    rw [List.flatten_singleton]
    omega

theorem IsMessage.frame_eq {m : List Byte} (hm : IsMessage m) :
    frame [m].flatten = m ++ [0] := by
  rw [List.flatten_singleton, frame_of_getLast? hm.getLast?_ne]

theorem Client.Ready.afterSend (hready : (s.clients fd).Ready) (text : List Byte) :
    ((s.afterSend fd text).clients fd).Ready := by
  rw [Server.afterSend_clients_self]
  obtain ⟨hlen, -⟩ := hready.sound.out hready.active
  exact ⟨⟨fun _ => ⟨hlen, [], rfl, rfl, initQsiz_pos⟩, hready.sound.input,
    fun h => absurd (hready.active.symm.trans h) (by decide)⟩, hready.active, rfl⟩

/-- A client that has been disconnected gets nothing more. -/
theorem Server.active_of_writeAndFlush {data : List (List Byte)} {answers : List WriteAnswer}
    (h : s.writeAndFlush fd data answers = .ok s') (hactive : (s'.clients fd).active = true) :
    (s.clients fd).active = true := by
  rw [Server.writeAndFlush, Server.writeAll_eq] at h
  obtain ⟨b, used, heq⟩ := Client.foldl_queue_eq data (s.clients fd)
  rw [heq] at h
  obtain ⟨rfl, -⟩ | ⟨hbefore, -⟩ := Server.flushQueuedData_cases h
  · rwa [Server.setClient_clients_self] at hactive
  · rwa [Server.setClient_clients_self] at hbefore

theorem Server.active_of_sendAll : {sends : List (List Byte × List WriteAnswer)} →
    {s s' : Server} → s.sendAll fd sends = .ok s' → (s'.clients fd).active = true →
    (s.clients fd).active = true
  | [], s, s', h, hactive => by
      cases h
      exact hactive
  | send :: sends, s, s', h, hactive => by
      obtain ⟨s₁, hsend, hrest⟩ := exists_of_foldlM_cons_eq_ok h
      exact active_of_writeAndFlush hsend (active_of_sendAll hrest hactive)

/-- **The stream of the server**: each message with a NUL, as long as the client is not
disconnected. -/
theorem Server.sent_of_sendAll : {sends : List (List Byte × List WriteAnswer)} →
    {s s' : Server} → (s.clients fd).Ready → (∀ send ∈ sends, IsMessage send.1) →
    s.sendAll fd sends = .ok s' → (s'.clients fd).active = true →
    s'.sent fd = s.sent fd ++ stream (sends.map Prod.fst)
  | [], s, s', _, _, h, _ => by
      cases h
      exact (List.append_nil _).symm
  | send :: sends, s, s', hready, hmsg, h, hactive => by
      have hm := hmsg send List.mem_cons_self
      obtain ⟨s₁, hsend, hrest⟩ := exists_of_foldlM_cons_eq_ok h
      rw [Server.writeAndFlush_of_fits _ hready hm.fits] at hsend
      obtain rfl := eq_afterSend_of_active hsend (active_of_sendAll hrest hactive)
      rw [sent_of_sendAll (hready.afterSend _)
        (fun send' h' => hmsg send' (List.mem_cons_of_mem _ h')) hrest hactive,
        Server.afterSend_sent, Function.update_self, hm.frame_eq, List.map_cons, stream_cons,
        List.append_assoc, List.append_assoc, List.singleton_append]

/-- When every `write` takes all bytes, all messages are sent. -/
theorem Server.sendAll_full : {ms : List (List Byte)} → {s : Server} → (s.clients fd).Ready →
    (∀ m ∈ ms, IsMessage m) →
    ∃ s', s.sendAll fd (ms.map fun m => (m, [.full])) = .ok s' ∧ (s'.clients fd).active = true
  | [], s, hready, _ => ⟨s, rfl, hready.active⟩
  | m :: ms, s, hready, hmsg => by
      obtain ⟨s', hrest, hactive⟩ := sendAll_full (hready.afterSend [m].flatten)
        fun m' h' => hmsg m' (List.mem_cons_of_mem _ h')
      refine ⟨s', ?_, hactive⟩
      rw [List.map_cons, Server.sendAll, List.foldlM_cons,
        Server.writeAndFlush_full hready (hmsg m List.mem_cons_self).fits, ok_bind]
      exact hrest

end SendAll

/-! ### The client -/

/-- A pass that reads `bytes`. -/
def readPass (bytes : List Byte) : Pass := ⟨errKey, true, some bytes, .full⟩

theorem ClientMain.step_readPass (c : ClientMain) {bytes : List Byte} (hne : bytes ≠ [])
    (hle : bytes.length ≤ initQsiz) : c.step (readPass bytes) =
      .ok { c with rbuff := readInto c.rbuff bytes
                   posted := c.posted ++ [cstr (readInto c.rbuff bytes)] } := by
  have htake : ((readPass bytes).read.getD []).take initQsiz = bytes := List.take_of_length_le hle
  have hpolled : (readPass bytes).polled = true := rfl
  rw [ClientMain.step, if_neg (show (readPass bytes).ch ≠ keyF9 by simp [readPass, errKey, keyF9]),
    if_pos (show (readPass bytes).ch = errKey from rfl), if_pos hpolled]
  dsimp only
  rw [htake, if_neg hne]
  rfl

/-- A client can read any pieces. -/
theorem ClientMain.exists_run : (pieces : List (List Byte)) → (c : ClientMain) →
    (∀ bytes ∈ pieces, bytes ≠ [] ∧ bytes.length ≤ initQsiz) →
    ∃ c', c.run (pieces.map readPass) = .ok c' ∧ reads (pieces.map readPass) = pieces
  | [], c, _ => ⟨c, rfl, rfl⟩
  | bytes :: pieces, c, hpieces => by
      obtain ⟨hne, hle⟩ := hpieces bytes List.mem_cons_self
      obtain ⟨c', hrun, hreads⟩ := exists_run pieces _ fun b hb =>
        hpieces b (List.mem_cons_of_mem _ hb)
      refine ⟨c', ?_, ?_⟩
      · rw [List.map_cons, ClientMain.run, List.foldlM_cons, c.step_readPass hne hle, ok_bind]
        exact hrun
      · rw [List.map_cons, reads, List.filter_cons_of_pos rfl, List.map_cons, ← reads, hreads]
        exact congrArg (· :: pieces) (List.take_of_length_le hle)

/-! ### Transfers -/

/-- A transfer of messages: the server sends them to a client with an empty queue, which is not
disconnected, the client reads the stream in pieces of the given lengths, and posts strings. -/
inductive Transfer : List (List Byte) → List ℕ → List (List Byte) → Prop
  | mk {s s' : Server} {fd : ℕ} {sends : List (List Byte × List WriteAnswer)}
      {passes : List Pass} {c : ClientMain} (hready : (s.clients fd).Ready)
      (hsend : s.sendAll fd sends = .ok s') (hactive : (s'.clients fd).active = true)
      (hstream : s'.sent fd = s.sent fd ++ (reads passes).flatten)
      (hrun : ClientMain.start.run passes = .ok c) :
      Transfer (sends.map Prod.fst) ((reads passes).map List.length) c.posted

section Transfer

variable {ms : List (List Byte)} {sizes : List ℕ} {posted : List (List Byte)}

/-- What is posted depends on the pieces of the stream alone. -/
theorem Transfer.exists_reads (h : Transfer ms sizes posted) (hmsg : ∀ m ∈ ms, IsMessage m) :
    ∃ reads : List (List Byte), reads.map List.length = sizes ∧ reads.flatten = stream ms ∧
      posted.filter (· ≠ []) = postedStrings [] reads := by
  obtain ⟨hready, hsend, hactive, hstream, hrun⟩ := h
  refine ⟨_, rfl, ?_, ?_⟩
  · rw [Server.sent_of_sendAll hready
      (fun send hs => hmsg send.1 (List.mem_map_of_mem hs)) hsend hactive] at hstream
    exact (List.append_cancel_left hstream).symm
  · rw [ClientMain.posted_of_run hrun]
    rfl

/-- A server on descriptor 3 that has accepted client 4. -/
def readyServer : Server :=
  (serverMain (fun _ => false) 3).putConnection 4 ⟨127, 0, 0, 1⟩

theorem ready_readyServer : (readyServer.clients 4).Ready where
  sound := Client.sound_connected _
  active := rfl
  outUsed_eq := rfl

/-- Every stream can be cut into pieces of the given lengths. -/
theorem exists_transfer (hmsg : ∀ m ∈ ms, IsMessage m)
    (hsizes : ∀ n ∈ sizes, 0 < n ∧ n ≤ initQsiz) (hsum : sizes.sum = (stream ms).length) :
    ∃ posted, Transfer ms sizes posted := by
  obtain ⟨s', hsend, hactive⟩ := Server.sendAll_full ready_readyServer hmsg
  have hpieces : (sizes.splitLengths (stream ms)).map List.length = sizes :=
    List.map_splitLengths_length _ _ hsum.le
  have hflatten : (sizes.splitLengths (stream ms)).flatten = stream ms :=
    List.flatten_splitLengths _ _ hsum.ge
  obtain ⟨c, hrun, hreads⟩ := ClientMain.start.exists_run (sizes.splitLengths (stream ms))
    fun bytes hbytes => by
      have hsize := hsizes bytes.length (hpieces ▸ List.mem_map_of_mem hbytes)
      exact ⟨List.ne_nil_of_length_pos hsize.1, hsize.2⟩
  have htransfer := Transfer.mk ready_readyServer hsend hactive (by
    rw [Server.sent_of_sendAll ready_readyServer (by simpa using hmsg) hsend hactive, hreads,
      hflatten, List.map_map]
    exact congrArg _ (congrArg stream (List.map_id _))) hrun
  rw [hreads, hpieces, List.map_map] at htransfer
  exact ⟨c.posted, (List.map_id ms) ▸ htransfer⟩

theorem length_stream (ms : List (List Byte)) :
    (stream ms).length = ((ms.map List.length).map (· + 1)).sum := by
  induction ms with
  | nil => rfl
  | cons m ms ih =>
    rw [stream_cons, List.map_cons, List.map_cons, List.sum_cons, List.length_append,
      List.length_cons, ih, ← Nat.add_assoc, Nat.add_right_comm]

/-- **When the messages of the server are posted.** For messages of given lengths and reads of
given lengths, the strings that the client posts, without the empty ones, are the messages,
whatever these are, if and only if the lengths are in step. -/
theorem transfer_posts_iff {lens sizes : List ℕ} (hlens : ∀ l ∈ lens, 0 < l ∧ l < initQsiz - 1)
    (hsizes : ∀ n ∈ sizes, 0 < n ∧ n ≤ initQsiz) (hsum : sizes.sum = (lens.map (· + 1)).sum) :
    (∀ ms posted, (∀ m ∈ ms, IsMessage m) → ms.map List.length = lens →
      Transfer ms sizes posted → posted.filter (· ≠ []) = ms) ↔ InStep [] lens sizes := by
  constructor
  · intro hall
    have hmsg : ∀ m ∈ lens.map marker, IsMessage m := fun m hm => by
      obtain ⟨l, hl, rfl⟩ := List.mem_map.mp hm
      exact isMessage_marker (hlens l hl).1 (hlens l hl).2
    have hmap : (lens.map marker).map List.length = lens := by
      rw [List.map_map]
      exact (List.map_congr_left fun l hl => length_marker (hlens l hl).1).trans (List.map_id _)
    obtain ⟨posted, htransfer⟩ := exists_transfer hmsg hsizes (by rw [length_stream, hmap, hsum])
    obtain ⟨reads, rfl, hstream, hposted⟩ := htransfer.exists_reads hmsg
    refine inStep_of_posts hlens (fun r hr => ?_) hstream shape_nil ?_
    · exact List.ne_nil_of_length_pos (hsizes _ (List.mem_map_of_mem hr)).1
    · rw [← hposted, hall _ _ hmsg hmap htransfer]
  · intro hstep ms posted hmsg hms htransfer
    obtain ⟨reads, hreads, hstream, hposted⟩ := htransfer.exists_reads hmsg
    rw [hposted, posts_of_inStep hstep hmsg hms hreads hstream shape_nil]

/-- Messages of one, of three and of two bytes; the NUL of the first one is read alone, and the
others are read with theirs. -/
theorem transfer_posts_iff_split : InStep [] [1, 3, 2] [1, 1, 4, 3] ∧
    ∀ ms posted, (∀ m ∈ ms, IsMessage m) → ms.map List.length = [1, 3, 2] →
      Transfer ms [1, 1, 4, 3] posted → posted.filter (· ≠ []) = ms := by
  have hstep : InStep [] [1, 3, 2] [1, 1, 4, 3] := .split rfl (.whole (.whole .nil))
  exact ⟨hstep, (transfer_posts_iff (by decide) (by decide) (by decide)).mpr hstep⟩

/-- **The client can post something else than the messages**: after `abc` it posts `dbc` for the
message `d`, when the NUL of this message is read later. -/
theorem not_forall_transfer_posts :
    ¬∀ (ms : List (List Byte)) (sizes : List ℕ) (posted : List (List Byte)),
      (∀ m ∈ ms, IsMessage m) → (∀ n ∈ sizes, 0 < n ∧ n ≤ initQsiz) →
      sizes.sum = (stream ms).length → Transfer ms sizes posted →
      posted.filter (· ≠ []) = ms := by
  intro hall
  have hmsg : ∀ m ∈ [str "abc", str "d"], IsMessage m := by
    simp only [List.forall_mem_cons]
    exact ⟨⟨by decide, by decide, by decide, by decide⟩,
      ⟨by decide, by decide, by decide, by decide⟩, nofun⟩
  have hsizes : ∀ n ∈ [4, 1, 1], 0 < n ∧ n ≤ initQsiz := by decide
  obtain ⟨posted, htransfer⟩ := exists_transfer hmsg hsizes (by decide)
  obtain ⟨reads, hreads, hstream, hposted⟩ := htransfer.exists_reads hmsg
  have heq : reads = [str "abc" ++ [0], str "d", [0]] :=
    List.eq_iff_flatten_eq.mpr ⟨hstream.trans (by decide), hreads.trans (by decide)⟩
  have hfail := hposted.symm.trans (hall _ _ _ hmsg hsizes (by decide) htransfer)
  rw [heq] at hfail
  exact absurd hfail (by decide)

end Transfer

end TikFachpraktika.Chat
