import TikFachpraktika.Chat.Server.Texts
import TikFachpraktika.Chat.Server.Queue

/-!
# Messages to all clients

`server_process_message_from` of `6_network/server.c` queues the name of the sender, a colon and the
text for every active client. The text may be nearly as long as the queue, so that there may be no
room for it behind the name; then it is left out without an error.

## Main definitions

* `Server.messageHead`, `Server.messageText`: what stands before the text, and the whole message.
* `BroadcastComplete`: every active client is sent the whole message.

## Main results

* `Reachable.message_sent`: what is sent in fact.
* `broadcastComplete_iff`: when this is the whole message for all clients.
-/

namespace TikFachpraktika.Chat

open Posix

namespace Server

variable (s : Server) (fd : ℕ) (text : List Byte) (i : ℕ)

/-- What `server_process_message_from` queues for the client `i` before the text. -/
def messageHead : List (List Byte) :=
  [s.getClientRepr fd] ++ (if i = fd then [str " (you) "] else []) ++ [str ": "]

/-- The message for the client `i`. -/
def messageText : List Byte :=
  s.getClientRepr fd ++ (if i = fd then str " (you) " else []) ++ str ": " ++ text

/-- The body of the loop of `server_process_message_from`. -/
def messageBody (inp : Input) (s : Server) (i : ℕ) : Except Fault Server :=
  if (s.clients i).active then
    s.writeAndFlush i (s.messageHead fd i ++ [s.textOf fd inp text i]) (inp.writes i)
  else pure s

theorem processMessageFrom_eq (inp : Input) : s.processMessageFrom fd inp text =
    (List.range fdSetSize).foldlM (messageBody fd text inp) s := by
  rw [processMessageFrom, forActive]
  refine congrArg (fun body => (List.range fdSetSize).foldlM body s) (funext fun s => ?_)
  funext i
  simp only [messageBody, messageHead, List.append_assoc, List.cons_append, List.nil_append]

theorem flatten_messageHead : (s.messageHead fd i).flatten ++ text = s.messageText fd text i := by
  rw [messageHead, messageText]
  split_ifs <;> simp

end Server

/-- Every active client is sent the whole message, and nobody else is sent anything. -/
def BroadcastComplete (s s' : Server) (fd : ℕ) (text : List Byte) : Prop :=
  ∀ i, s'.sent i =
    if (s.clients i).active then s.sent i ++ frame (s.messageText fd text i) else s.sent i

/-! ### The head of a message -/

theorem prefix_enqueue (text data : List Byte) : text <+: enqueue text data := by
  rw [enqueue]
  split_ifs
  · exact List.prefix_append _ _
  · exact List.prefix_rfl

section Head

variable {lfd : ℕ} {s : Server} {fd : ℕ} {text : List Byte}

theorem Named.getClientRepr_ne_nil (h : Named lfd s) (hactive : (s.clients fd).active = true) :
    s.getClientRepr fd ≠ [] := by
  rw [Server.getClientRepr]
  split_ifs with hhas
  · exact (h.isAlias fd _ ⟨hactive, hhas, rfl⟩).ne_nil
  · rw [Server.inetNtoa]
    exact List.append_ne_nil_of_right_ne_nil _ (List.cons_ne_nil _ _)

theorem Server.length_flatten_messageHead (s : Server) (fd i : ℕ) :
    (s.messageHead fd i).flatten.length =
      (s.getClientRepr fd).length + (if i = fd then 9 else 2) := by
  have hstr : (str " (you) ").length = 7 ∧ (str ": ").length = 2 := by decide
  rw [Server.messageHead]
  split_ifs <;> simp [hstr]

/-- The head of a message is short. -/
theorem Named.length_flatten_messageHead_lt (h : Named lfd s)
    (hactive : (s.clients fd).active = true) (i : ℕ) :
    (s.messageHead fd i).flatten.length < initQsiz := by
  have hrepr := h.getClientRepr_length_le hactive
  have hsmall : aliasMaxlen + 9 < initQsiz := by decide
  rw [s.length_flatten_messageHead fd i]
  split_ifs <;> omega

theorem Named.zero_notMem_messageHead (h : Named lfd s) (hactive : (s.clients fd).active = true)
    (htext : (0 : Byte) ∉ text) (i : ℕ) :
    ∀ d ∈ s.messageHead fd i ++ [text], (0 : Byte) ∉ d := by
  have hstr : (0 : Byte) ∉ str " (you) " ∧ (0 : Byte) ∉ str ": " := by decide
  have hrepr := h.zero_notMem_getClientRepr hactive
  rw [Server.messageHead]
  split_ifs
  · simp only [List.cons_append, List.nil_append, List.forall_mem_cons]
    exact ⟨hrepr, hstr.1, hstr.2, htext, fun _ hd => absurd hd List.not_mem_nil⟩
  · simp only [List.cons_append, List.nil_append, List.forall_mem_cons]
    exact ⟨hrepr, hstr.2, htext, fun _ hd => absurd hd List.not_mem_nil⟩

/-- **The queue takes the head**, and the text if there is room behind it. -/
theorem Named.collected_message (h : Named lfd s) (hactive : (s.clients fd).active = true)
    (i : ℕ) : collected (s.messageHead fd i ++ [text]) =
      enqueue (s.messageHead fd i).flatten text := by
  rw [collected_append_singleton, collected_of_lt (h.length_flatten_messageHead_lt hactive i)]

theorem Named.collected_message_ne_nil (h : Named lfd s) (hactive : (s.clients fd).active = true)
    (i : ℕ) : collected (s.messageHead fd i ++ [text]) ≠ [] := by
  intro hnil
  have hbegin := prefix_enqueue (s.messageHead fd i).flatten text
  rw [← h.collected_message hactive, hnil] at hbegin
  have hhead := List.prefix_nil.mp hbegin
  exact h.getClientRepr_ne_nil hactive
    (List.flatten_eq_nil_iff.mp hhead _ (by rw [Server.messageHead]; simp))

end Head

/-! ### The loop -/

section Loop

variable {lfd : ℕ} {t : Server} {fd : ℕ} {text : List Byte} {inp : Input}

/-- One turn of the loop. -/
theorem Named.messageBody_eq (h : Named lfd t) (hfd : (t.clients fd).active = true)
    (htext : (0 : Byte) ∉ text) {i : ℕ} (hi : (t.clients i).active = true) :
    Server.messageBody fd text inp t i =
      t.afterFlush i (writeExact (inp.writes i)
        (frame (collected (t.messageHead fd i ++ [text]))) 0) := by
  have hinbuff : t.textOf fd inp text i = text :=
    if_pos ((h.registered.sound fd).input hfd).2
  have hready : (t.clients i).Ready := ⟨h.registered.sound i, hi, h.drained i hi⟩
  rw [Server.messageBody, if_pos hi, hinbuff]
  exact Server.writeAndFlush_of_ready _ hready (h.zero_notMem_messageHead hfd htext i)
    (h.collected_message_ne_nil hfd i)

theorem Server.getClientRepr_afterSend (s : Server) (j : ℕ) (text : List Byte) (i : ℕ) :
    (s.afterSend j text).getClientRepr i = s.getClientRepr i := by
  rcases eq_or_ne i j with rfl | hne
  · rw [Server.getClientRepr, Server.afterSend_clients_self, Server.getClientRepr]
  · rw [Server.getClientRepr, Server.afterSend_clients_of_ne _ _ _ hne, Server.getClientRepr]

theorem Server.active_afterSend (s : Server) (j : ℕ) (text : List Byte) (i : ℕ) :
    ((s.afterSend j text).clients i).active = (s.clients i).active := by
  rcases eq_or_ne i j with rfl | hne
  · rw [Server.afterSend_clients_self]
  · rw [Server.afterSend_clients_of_ne _ _ _ hne]

/-- **The loop** sends every active client what its queue takes of the message. -/
theorem Named.foldlM_messageBody (hwrites : ∀ i, Succeeds (inp.writes i) initQsiz)
    (htext : (0 : Byte) ∉ text) {l : List ℕ} (hnodup : l.Nodup) (h : Named lfd t)
    (hfd : (t.clients fd).active = true) :
    ∃ t', l.foldlM (Server.messageBody fd text inp) t = .ok t' ∧
      ∀ i, t'.sent i =
        if i ∈ l ∧ (t.clients i).active = true then
          t.sent i ++ frame (enqueue (t.messageHead fd i).flatten text)
        else t.sent i := by
  induction l generalizing t with
  | nil => exact ⟨t, rfl, fun i => (if_neg fun hi => List.not_mem_nil hi.1).symm⟩
  | cons j l ih =>
    obtain ⟨hj, hnodup⟩ := List.nodup_cons.mp hnodup
    rw [List.foldlM_cons]
    by_cases hactive : (t.clients j).active = true
    · set sent := collected (t.messageHead fd j ++ [text])
      have hlen : Succeeds (inp.writes j) (sent.length + 1) :=
        (hwrites j).mono (length_collected_lt _)
      have hbody : Server.messageBody fd text inp t j = .ok (t.afterSend j sent) := by
        rw [h.messageBody_eq hfd htext hactive, Server.afterFlush_of_succeeds _ _ hlen]
      have hnamed : Named lfd (t.afterSend j sent) :=
        (closed_named lfd).writeAndFlush h ((if_pos hactive).symm.trans hbody)
      obtain ⟨t', hloop, hsent⟩ := ih hnodup hnamed ((t.active_afterSend j sent fd).trans hfd)
      refine ⟨t', by rw [hbody, ok_bind, hloop], fun i => ?_⟩
      have hhead : (t.afterSend j sent).messageHead fd i = t.messageHead fd i := by
        rw [Server.messageHead, Server.getClientRepr_afterSend, Server.messageHead]
      rw [hsent, t.active_afterSend, hhead, Server.afterSend_sent]
      rcases eq_or_ne i j with rfl | hne
      · rw [if_neg fun hi => hj hi.1, if_pos ⟨List.mem_cons_self, hactive⟩, Function.update_self,
          ← h.collected_message hfd]
      · rw [Function.update_of_ne hne]
        simp only [List.mem_cons, hne, false_or]
    · have hbody : Server.messageBody fd text inp t j = .ok t := if_neg hactive
      obtain ⟨t', hloop, hsent⟩ := ih hnodup h hfd
      refine ⟨t', by rw [hbody, ok_bind, hloop], fun i => ?_⟩
      rw [hsent]
      rcases eq_or_ne i j with rfl | hne
      · rw [if_neg fun hi => hactive hi.2, if_neg fun hi => hactive hi.2]
      · simp only [List.mem_cons, hne, false_or]

end Loop

/-! ### The call -/

section Call

variable {opened : ℕ → Bool} {lfd : ℕ} {s s' : Server} {fd : ℕ} {inp : Input} {text : List Byte}

theorem Server.messageHead_afterRead : (s.afterRead fd inp).messageHead fd = s.messageHead fd := by
  funext i
  rw [Server.messageHead, Server.messageHead, Server.afterRead, Server.getClientRepr_putInbuff]

/-- **What a message is in fact**: every active client is sent what its queue takes. -/
theorem Reachable.message_sent (h : Reachable opened lfd s)
    (hactive : (s.clients fd).active = true) (htext : s.processed fd inp = some text)
    (hplain : IsPlain text) (hwrites : ∀ i, Succeeds (inp.writes i) initQsiz) :
    ∃ s', s.callHandler fd inp = .ok s' ∧ ∀ i, s'.sent i =
      if (s.clients i).active then s.sent i ++ frame (enqueue (s.messageHead fd i).flatten text)
      else s.sent i := by
  have hnul := zero_notMem_of_processed htext
  obtain ⟨s', hloop, hsent⟩ := (h.named.afterRead fd inp).foldlM_messageBody hwrites hnul
    (@List.nodup_range fdSetSize) ((s.afterRead_active fd inp fd).trans hactive)
  refine ⟨s', ?_, fun i => ?_⟩
  · rw [h.registered.callHandler_of_processed hactive htext,
      (commandOf_eq_message_iff hnul).mpr hplain, Server.runCommand, Server.processMessageFrom_eq,
      hloop]
  · rw [hsent, Server.messageHead_afterRead, s.afterRead_active fd inp i]
    refine if_congr ⟨fun hi => hi.2, fun hi => ⟨List.mem_range.mpr ?_, hi⟩⟩ rfl rfl
    exact h.lt_fdSetSize i hi

theorem ne_nil_of_processed (h : s.processed fd inp = some text) : text ≠ [] := by
  rw [Server.processed] at h
  split_ifs at h with hempty
  rw [← Option.some.inj h]
  exact fun hnil => hempty (.inr hnil)

/-- The text is in a message if there is room for it. -/
theorem frame_enqueue_eq_iff {head : List Byte} (htext : text ≠ []) :
    frame (enqueue head text) = frame (head ++ text) ↔ head.length + text.length < initQsiz := by
  rw [enqueue]
  split_ifs with hfit
  · exact iff_of_true rfl hfit
  · refine iff_of_false (fun heq => htext ?_) hfit
    have hlen := congrArg List.length heq
    rw [length_frame, length_frame, List.length_append] at hlen
    exact List.eq_nil_of_length_eq_zero (by omega)

/-- **When a message to all clients is complete.** In every reachable state, when the writes
succeed, a text of an active client that is not a command is sent as a whole to all active clients
if and only if there is room for it in the queue of the sender, behind its name, ` (you) ` and
`: `. -/
theorem broadcastComplete_iff (h : Reachable opened lfd s)
    (hactive : (s.clients fd).active = true) (htext : s.processed fd inp = some text)
    (hplain : IsPlain text) (hwrites : ∀ i, Succeeds (inp.writes i) initQsiz) :
    ∃ s', s.callHandler fd inp = .ok s' ∧
      (BroadcastComplete s s' fd text ↔
        (s.getClientRepr fd).length + 9 + text.length < initQsiz) := by
  obtain ⟨s', hcall, hsent⟩ := h.message_sent hactive htext hplain hwrites
  have hwhole : ∀ i, frame (enqueue (s.messageHead fd i).flatten text) =
      frame (s.messageText fd text i) ↔ (s.messageHead fd i).flatten.length + text.length <
        initQsiz := fun i => by
    rw [← Server.flatten_messageHead, frame_enqueue_eq_iff (ne_nil_of_processed htext)]
  refine ⟨s', hcall, fun hcomplete => ?_, fun hfit i => ?_⟩
  · have hown := (hsent fd).symm.trans (hcomplete fd)
    rw [if_pos hactive, if_pos hactive] at hown
    have hlen := (hwhole fd).mp (List.append_cancel_left hown)
    rwa [s.length_flatten_messageHead fd fd, if_pos rfl] at hlen
  · rw [hsent]
    refine if_congr Iff.rfl (congrArg _ ((hwhole i).mpr ?_)) rfl
    rw [s.length_flatten_messageHead fd i]
    split_ifs <;> omega

end Call

/-! ### A message without its text -/

/-- A text that begins like no command. -/
theorem isPlain_cons {b : Byte} {text : List Byte} (hb : tolower b ≠ 92) (hat : b ≠ 64) :
    IsPlain (b :: text) := by
  have hbegin : ∀ {word : List Byte}, word.head? = some 92 → ¬word <+: lower (b :: text) := by
    rintro word hword ⟨tail, htail⟩
    have hhead := congrArg List.head? htail
    rw [List.head?_append, hword] at hhead
    exact hb (Option.some.inj hhead).symm
  refine ⟨fun h => ?_, fun h => ?_, fun h => hbegin (by decide) h.2,
    fun h => hbegin (by decide) h.2, fun h => ?_⟩
  · exact @hbegin magicStrWho (by decide) (by rw [h])
  · exact @hbegin magicStrHelp (by decide) (by rw [h])
  · exact hat (List.cons_prefix_cons.mp h).1.symm

/-- The longest text that fits into `inbuff` with its terminator, all of it the letter `a`. -/
def longText : List Byte := List.replicate (initQsiz - 1) 97

theorem isPlain_longText : IsPlain longText := by
  have hcons : longText = 97 :: List.replicate (initQsiz - 2) 97 := rfl
  rw [hcons]
  exact isPlain_cons (by decide) (by decide)

/-- After the first client has connected it can send this text. -/
theorem exists_longText : ∃ s : Server, Reachable (fun _ => false) 3 s ∧
    (s.clients 4).active = true ∧ s.processed 4 (fullInput 4 longText s) = some longText := by
  have hrun : ((serverMain (fun _ => false) 3).handleEvents (fullRound 3 4 [])).map (fun s =>
      (s.clients 4).active) = .ok true := by decide +kernel
  obtain ⟨s, hs, hactive⟩ := exists_of_map_eq_ok hrun
  have hreach := (LoopReachable.main.round (fullRound_valid (by decide) []) hs).reachable
  have hlen : longText.length = initQsiz - 1 := List.length_replicate
  have hpos := initQsiz_pos
  refine ⟨s, hreach, hactive, hreach.registered.processed_fullInput hactive 4 ?_ ?_ (by omega)⟩
  · exact List.ne_nil_of_length_pos (by rw [hlen]; decide)
  · exact fun hmem => absurd (List.eq_of_mem_replicate hmem) (by decide)

/-- In one state the text `hi` is sent as a whole, and the longest one is not. -/
theorem broadcastComplete_iff_longText : ∃ s : Server,
    (∃ s', s.callHandler 4 (fullInput 4 longText s) = .ok s' ∧
      ¬BroadcastComplete s s' 4 longText) ∧
    ∃ s', s.callHandler 4 (fullInput 4 (str "hi") s) = .ok s' ∧
      BroadcastComplete s s' 4 (str "hi") := by
  obtain ⟨s, hs, hactive, htext⟩ := exists_longText
  have hhi : str "hi" = [104, 105] := by decide
  obtain ⟨s₁, hcall₁, hiff₁⟩ := broadcastComplete_iff hs hactive htext isPlain_longText
    fun _ => succeeds_full [] _
  obtain ⟨s₂, hcall₂, hiff₂⟩ := broadcastComplete_iff hs hactive
    (hs.registered.processed_fullInput hactive 4 (by decide) (by decide) (by decide))
    (hhi ▸ isPlain_cons (by decide) (by decide)) fun _ => succeeds_full [] _
  refine ⟨s, ⟨s₁, hcall₁, fun hcomplete => ?_⟩, s₂, hcall₂, hiff₂.mpr ?_⟩
  · have hlen : longText.length = initQsiz - 1 := List.length_replicate
    have hfit := hiff₁.mp hcomplete
    omega
  · have hname := hs.named.getClientRepr_length_le hactive
    rw [aliasMaxlen] at hname
    rw [hhi, initQsiz]
    simp only [List.length_cons, List.length_nil]
    omega

/-- **A message can come without its text**: the longest one does. -/
theorem not_forall_broadcastComplete :
    ¬∀ (opened : ℕ → Bool) (lfd : ℕ) (s : Server) (fd : ℕ) (text : List Byte) (inp : Input),
      Reachable opened lfd s → (s.clients fd).active = true → s.processed fd inp = some text →
      IsPlain text → 1 ≤ text.length → text.length ≤ initQsiz - 1 →
      (∀ i, Succeeds (inp.writes i) initQsiz) →
      ∃ s', s.callHandler fd inp = .ok s' ∧ BroadcastComplete s s' fd text := by
  intro hall
  obtain ⟨s, hs, hactive, htext⟩ := exists_longText
  have hlen : longText.length = initQsiz - 1 := List.length_replicate
  obtain ⟨s', hcall, hcomplete⟩ := hall _ 3 s 4 longText (fullInput 4 longText s) hs hactive htext
    isPlain_longText (by rw [hlen]; decide) hlen.le fun _ => succeeds_full [] _
  obtain ⟨t, ht, hsent⟩ := hs.message_sent hactive htext isPlain_longText
    fun _ => succeeds_full [] _
  obtain rfl : s' = t := Except.ok.inj (hcall.symm.trans ht)
  have hown := (hsent 4).symm.trans (hcomplete 4)
  rw [if_pos hactive, if_pos hactive] at hown
  have hfit := (frame_enqueue_eq_iff (ne_nil_of_processed htext)).mp
    ((List.append_cancel_left hown).trans (by rw [Server.flatten_messageHead]))
  rw [s.length_flatten_messageHead 4 4, if_pos rfl, hlen] at hfit
  omega

end TikFachpraktika.Chat
