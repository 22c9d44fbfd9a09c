import TikFachpraktika.Chat.Server.AccessRules

/-!
# Buffers that are freed

`server_disconnect_client` of `6_network/server.c` frees the buffers of a client, and a flush
disconnects the client when `write` returns `0`. `server_process_message_from` and
`server_process_private` read the `inbuff` of the sender again after they have flushed its queue.

## Main definitions

* `Server.FreesInMessage`, `Server.FreesInPrivate`, `Server.FreesText`: when the `inbuff` of the
  sender is freed before it is read again.
* `Access.Live`, `Access.Ends`: accesses to allocated memory, and strings that end in it.

## Main results

* `Judge.all_loggedProcessPrivate`, `Judge.all_loggedProcessMessageFrom`: the two handlers.
* `live_iff`: when no freed buffer is accessed.
* `ends_iff`: when all strings end inside `inbuff`.
-/

namespace TikFachpraktika.Chat

open Posix

namespace Server

/-- What the queue of the client `i` takes of a message from `fd`. -/
def messageCopy (s : Server) (fd : ℕ) (text : List Byte) (i : ℕ) : List Byte :=
  collected (s.messageHead fd i ++ [text])

/-- The message is offered to its sender, `write` returns `0` there, and an active client comes
after it. -/
def FreesInMessage (s : Server) (fd : ℕ) (inp : Input) (text : List Byte) : Prop :=
  (∀ i < fd, (s.clients i).active = true →
      Settles (inp.writes i) ((s.messageCopy fd text i).length + 1)) ∧
    Refused (inp.writes fd) ((s.messageCopy fd text fd).length + 1) ∧
    ∃ j, fd < j ∧ (s.clients j).active = true

/-- The client that is addressed exists, its name is not empty, and `write` returns `0` for the copy
to the sender. -/
def FreesInPrivate (s : Server) (fd : ℕ) (inp : Input) (text : List Byte) : Prop :=
  ∃ j pos, s.findClient (s.nameMatches fd (privateName text)) = .ok (some j) ∧
    msgPointer text = some pos ∧
    Refused (inp.writes fd) ((collected (s.privateCopy fd j (text.drop pos))).length + 1)

/-- The sender of the text is disconnected before the text has been sent to the last client. -/
def FreesText (s : Server) (fd : ℕ) (inp : Input) (text : List Byte) : Prop :=
  (commandOf text = .message ∧ s.FreesInMessage fd inp text) ∨
    (commandOf text = .privateMsg ∧ s.FreesInPrivate fd inp text)

end Server

/-! ### A flush and the `inbuff` -/

section Flush

open Server

variable {s : Server} {fd n : ℕ} {bytes : List Byte}

theorem Server.Reads.afterSend (h : s.Reads fd bytes n) (i : ℕ) (text : List Byte) :
    (s.afterSend i text).Reads fd bytes n := by
  rw [Reads]
  rcases eq_or_ne fd i with rfl | hne
  · rw [afterSend_clients_self]
    exact h
  · rw [afterSend_clients_of_ne _ _ _ hne]
    exact h

theorem Server.stringAccess_disconnectClient (pos : ℕ) :
    (s.disconnectClient fd).stringAccess fd pos = .string none 0 pos := by
  rw [stringAccess, disconnectClient_clients_self]

theorem foldl_enqueue_ne_nil {text : List Byte} (htext : text ≠ []) (data : List (List Byte)) :
    data.foldl enqueue text ≠ [] := by
  induction data generalizing text with
  | nil => exact htext
  | cons d data ih =>
    refine ih fun hnil => htext ?_
    have hbegin := prefix_enqueue text d
    rw [hnil] at hbegin
    exact List.prefix_nil.mp hbegin

/-- A queue is not empty if its first string is not and fits. -/
theorem collected_cons_ne_nil {d : List Byte} (hd : d ≠ []) (hfit : d.length < initQsiz)
    (data : List (List Byte)) : collected (d :: data) ≠ [] := by
  rw [collected, List.foldl_cons, enqueue, if_pos (by rwa [List.length_nil, Nat.zero_add]),
    List.nil_append]
  exact foldl_enqueue_ne_nil hd data

end Flush

/-! ### Private messages -/

section Private

open Server

variable {lfd : ℕ} {s : Server} {fd j pos n last : ℕ} {inp : Input} {text bytes : List Byte}
  {P : Access → Prop}

theorem Server.findClient_eq_ok_some {p : ℕ → Bool} (h : s.findClient p = .ok (some j)) :
    p j = true := by
  rw [findClient] at h
  split_ifs at h with h0
  have hfound := List.find?_some (Except.ok.inj h)
  exact (Bool.and_eq_true_iff.mp hfound).2

/-- What the flush of the copy to the sender does. -/
theorem Named.writeAndFlush_privateCopy (h : Named lfd s) (hactive : (s.clients fd).active = true)
    (hj : (s.clients j).active = true) {msg : List Byte} (hmsg : (0 : Byte) ∉ msg)
    (answers : List WriteAnswer) :
    s.writeAndFlush fd (s.privateCopy fd j msg) answers = s.afterFlush fd
      (writeExact answers (frame (collected (s.privateCopy fd j msg))) 0) := by
  have harrow : (0 : Byte) ∉ str " (-> " ∧ (0 : Byte) ∉ str "): " := by decide
  have hsmall : aliasMaxlen < initQsiz := by decide
  have hlen := h.getClientRepr_length_le hactive
  refine writeAndFlush_of_ready answers ⟨h.registered.sound fd, hactive, h.drained fd hactive⟩
    ?_ (collected_cons_ne_nil (h.getClientRepr_ne_nil hactive) (by omega) _)
  simp only [Server.privateCopy, List.forall_mem_cons]
  exact ⟨h.zero_notMem_getClientRepr hactive, harrow.1, h.zero_notMem_getClientRepr hj, harrow.2,
    hmsg, fun _ hd => absurd hd List.not_mem_nil⟩

/-- **The end of `server_process_private`** reads freed memory if the copy to the sender is
refused. -/
theorem Judge.all_loggedPrivateTo (hP : Judge P bytes n last) (h : Named lfd s)
    (hactive : (s.clients fd).active = true) (hreads : s.Reads fd bytes n)
    (hj : (s.clients j).active = true) (hne : j ≠ fd) (htext : (0 : Byte) ∉ text)
    (hpos : pos ≤ last) :
    (s.loggedPrivateTo fd inp text j (some pos)).All P ↔
      ¬Refused (inp.writes fd) ((collected (s.privateCopy fd j (text.drop pos))).length + 1) := by
  have hmsg : (0 : Byte) ∉ text.drop pos := fun hmem => htext (List.mem_of_mem_drop hmem)
  have hfirst : ∀ p ∈ (s.privateHead fd j).map Piece.plain ++
      [⟨text.drop pos, some (fd, pos)⟩], s.PieceHas P p := by
    rw [List.forall_mem_append, List.forall_mem_singleton]
    refine ⟨fun p hp => ?_, pieceHas_source.mpr ?_⟩
    · obtain ⟨d, -, rfl⟩ := List.mem_map.mp hp
      exact pieceHas_plain d
    · rw [stringAccess_of_reads hreads]
      exact hP.string pos hpos
  have hsecond : ∀ t : Server, t.clients j = s.clients j →
      ((t.loggedSend j [.plain (t.getClientRepr fd), .plain (str " [priv] :"),
        ⟨t.textOf fd inp (text.drop pos) j, some (fd, pos)⟩] (inp.writes j)).All P ↔
        P (t.stringAccess fd pos)) := fun t ht => by
    rw [all_loggedSend hP.block (by rw [ht]; exact h.registered.sound j) (by rw [ht, hj])]
    simp only [List.forall_mem_cons, pieceHas_plain, pieceHas_source, true_and]
    exact and_iff_left fun _ hp => absurd hp List.not_mem_nil
  rw [loggedPrivateTo, Logged.all_bind, all_loggedSend hP.block (h.registered.sound fd) hactive,
    and_iff_right hfirst, result_loggedSend, List.map_append, map_data_plain, List.map_singleton,
    ← privateCopy_eq, h.writeAndFlush_privateCopy hactive hj hmsg]
  obtain ⟨hsucceeds, hflush⟩ | ⟨hrefused, out, hflush⟩ | ⟨hnot, hflush⟩ :=
    s.afterFlush_cases fd (collected (s.privateCopy fd j (text.drop pos))) (inp.writes fd)
  · refine iff_of_true (fun t ht => ?_) fun hrefused =>
      hrefused.not_succeeds (Nat.succ_ne_zero _) hsucceeds
    obtain rfl := Except.ok.inj (hflush.symm.trans ht)
    rw [hsecond _ (afterSend_clients_of_ne _ _ _ hne), stringAccess_of_reads (hreads.afterSend _ _)]
    exact hP.string pos hpos
  · refine iff_of_false (fun hall => ?_) fun hnot => hnot hrefused
    have hpiece := hall _ hflush
    rw [hsecond (disconnectClient { s with
      sent := Function.update s.sent fd (s.sent fd ++ out) } fd)
      (disconnectClient_clients_of_ne _ _ hne), stringAccess_disconnectClient] at hpiece
    exact hP.freed 0 pos hpiece
  · refine iff_of_true (fun t ht => ?_) fun hrefused => hnot (.inr hrefused)
    cases hflush.symm.trans ht

/-- Without a message nothing is read from the `inbuff`. -/
theorem Server.all_loggedPrivateTo_none (hblock : ∀ b, P (.block (some b)))
    (h : Registered lfd s) (hactive : (s.clients fd).active = true) :
    (s.loggedPrivateTo fd inp text j none).All P := by
  rw [loggedPrivateTo, Logged.all_bind, all_loggedWriteAll hblock (h.sound fd) hactive]
  refine ⟨fun p hp => ?_, fun _ _ => Logged.all_lift _⟩
  obtain ⟨d, -, rfl⟩ := List.mem_map.mp hp
  exact pieceHas_plain d

/-- **`server_process_private`.** -/
theorem Judge.all_loggedProcessPrivate (hP : Judge P bytes n text.length) (h : Named lfd s)
    (hactive : (s.clients fd).active = true) (hreads : s.Reads fd bytes n)
    (htext : (0 : Byte) ∉ text) (hne : text ≠ []) :
    (s.loggedProcessPrivate fd inp text).All P ↔ ¬s.FreesInPrivate fd inp text := by
  have htell : ∀ a ∈ [s.stringAccess fd magicStrPrivate.length], P a := fun a ha => by
    rw [List.mem_singleton.mp ha, stringAccess_of_reads hreads]
    exact hP.string _ (List.length_pos_iff.mpr hne)
  rw [loggedProcessPrivate, Logged.all_tell_bind, and_iff_right htell, Logged.all_bind,
    and_iff_right (Logged.all_lift _), Logged.result_lift, FreesInPrivate]
  cases hfind : s.findClient (s.nameMatches fd (privateName text)) with
  | error e =>
    refine iff_of_true (fun found hfound => ?_) ?_
    · cases hfound
    · rintro ⟨j, pos, hfound, -⟩
      cases hfound
  | ok found =>
    cases found with
    | none =>
      refine iff_of_true (fun found hfound => ?_) ?_
      · obtain rfl := Except.ok.inj hfound
        exact all_loggedReply hP.block _ _ (h.registered.sound fd) hactive
      · rintro ⟨j, pos, hfound, -⟩
        cases hfound
    | some j =>
      have hmatch := findClient_eq_ok_some hfind
      simp only [nameMatches, Bool.and_eq_true, decide_eq_true_eq] at hmatch
      obtain ⟨⟨⟨hj, -⟩, hother⟩, -⟩ := hmatch
      cases hpointer : msgPointer text with
      | none =>
        refine iff_of_true (fun found hfound => ?_) ?_
        · obtain rfl := Except.ok.inj hfound
          exact all_loggedPrivateTo_none hP.block h.registered hactive
        · rintro ⟨-, pos, -, hpos, -⟩
          cases hpos
      | some pos =>
        have hle : pos ≤ text.length := le_of_pointerLoop (fun k hk => by cases hk) pos hpointer
        have hto := @Judge.all_loggedPrivateTo lfd s fd j pos n text.length inp text bytes P hP h
          hactive hreads hj (Ne.symm hother) htext hle
        constructor
        · rintro hall ⟨k, pos', hk, hpos', hrefused⟩
          obtain rfl := Option.some.inj (Except.ok.inj hk)
          obtain rfl := Option.some.inj hpos'
          exact hto.mp (hall (some j) rfl) hrefused
        · intro hnot found hfound
          obtain rfl := Except.ok.inj hfound
          exact hto.mpr fun hrefused => hnot ⟨j, pos, rfl, rfl, hrefused⟩

end Private

/-! ### Messages to all clients -/

section Message

open Server

variable {lfd : ℕ} {t t' : Server} {fd i n last : ℕ} {inp : Input} {text bytes : List Byte}
  {P : Access → Prop} {l : List ℕ}

theorem Server.messageCopy_congr (h : t'.clients fd = t.clients fd) (text : List Byte) (i : ℕ) :
    t'.messageCopy fd text i = t.messageCopy fd text i := by
  rw [messageCopy, messageCopy, messageHead, messageHead, getClientRepr, getClientRepr, h]

/-- The message for one client is read from the `inbuff` of the sender. -/
theorem all_loggedMessageBody (hblock : ∀ b, P (.block (some b))) (h : Registered lfd t)
    (hi : (t.clients i).active = true) :
    (loggedMessageBody fd inp text t i).All P ↔ P (t.stringAccess fd 0) := by
  rw [loggedMessageBody, if_pos hi, all_loggedSend hblock (h.sound i) hi, List.forall_mem_append,
    List.forall_mem_singleton, pieceHas_source]
  refine and_iff_right fun p hp => ?_
  obtain ⟨d, -, rfl⟩ := List.mem_map.mp hp
  exact pieceHas_plain d

/-- **Step lemma**: one turn of the loop changes one client only. -/
theorem Named.messageBody_clients (h : Named lfd t)
    (hcall : messageBody fd text inp t i = .ok t') :
    Named lfd t' ∧ ∀ k, k ≠ i → t'.clients k = t.clients k := by
  rw [messageBody] at hcall
  split_ifs at hcall with hactive
  · exact ⟨(closed_named lfd).writeAndFlush h hcall, (writeAndFlush_clients hcall).1⟩
  · obtain rfl := Except.ok.inj hcall
    exact ⟨h, fun _ _ => rfl⟩

/-- **Run lemma**: the loop changes the clients that it is for only. -/
theorem Named.foldlM_messageBody_clients (h : Named lfd t)
    (hloop : l.foldlM (messageBody fd text inp) t = .ok t') :
    Named lfd t' ∧ ∀ k ∉ l, t'.clients k = t.clients k := by
  induction l generalizing t with
  | nil =>
    obtain rfl := Except.ok.inj hloop
    exact ⟨h, fun _ _ => rfl⟩
  | cons i l ih =>
    rw [List.foldlM_cons] at hloop
    obtain ⟨t₁, hbody, hrest⟩ := exists_of_bind_eq_ok hloop
    obtain ⟨h₁, hother⟩ := h.messageBody_clients hbody
    obtain ⟨h', hothers⟩ := ih h₁ hrest
    refine ⟨h', fun k hk => ?_⟩
    rw [List.mem_cons, not_or] at hk
    exact (hothers k hk.2).trans (hother k hk.1)

/-- One turn of the loop comes to an end if and only if `write` does. -/
theorem Named.exists_messageBody_iff (h : Named lfd t) (hfd : (t.clients fd).active = true)
    (htext : (0 : Byte) ∉ text) :
    (∃ t', messageBody fd text inp t i = .ok t') ↔ ((t.clients i).active = true →
      Settles (inp.writes i) ((t.messageCopy fd text i).length + 1)) := by
  by_cases hactive : (t.clients i).active = true
  · have hbody : messageBody fd text inp t i = t.afterFlush i
        (writeExact (inp.writes i) (frame (t.messageCopy fd text i)) 0) :=
      h.messageBody_eq hfd htext hactive
    rw [hbody, forall_prop_of_true hactive]
    obtain ⟨hsucceeds, hflush⟩ | ⟨hrefused, out, hflush⟩ | ⟨hnot, hflush⟩ :=
      t.afterFlush_cases i (t.messageCopy fd text i) (inp.writes i)
    · exact iff_of_true ⟨_, hflush⟩ (.inl hsucceeds)
    · exact iff_of_true ⟨_, hflush⟩ (.inr hrefused)
    · refine iff_of_false ?_ hnot
      rintro ⟨t', ht'⟩
      cases hflush.symm.trans ht'
  · exact iff_of_true ⟨t, if_neg hactive⟩ fun hi => absurd hi hactive

/-- **The loop gets past some clients** if and only if `write` comes to an end for each of them. -/
theorem Named.exists_foldlM_messageBody_iff (h : Named lfd t)
    (hfd : (t.clients fd).active = true) (htext : (0 : Byte) ∉ text) (hnodup : l.Nodup)
    (hl : fd ∉ l) :
    (∃ t', l.foldlM (messageBody fd text inp) t = .ok t') ↔ ∀ i ∈ l,
      (t.clients i).active = true →
        Settles (inp.writes i) ((t.messageCopy fd text i).length + 1) := by
  induction l generalizing t with
  | nil => exact iff_of_true ⟨t, rfl⟩ fun _ hi => absurd hi List.not_mem_nil
  | cons i l ih =>
    obtain ⟨hi, hnodup⟩ := List.nodup_cons.mp hnodup
    rw [List.mem_cons, not_or] at hl
    rw [List.foldlM_cons, List.forall_mem_cons]
    by_cases hbody : ∃ t₁, messageBody fd text inp t i = .ok t₁
    · -- what the rest of the loop needs is the same after this turn
      have hsettles := (h.exists_messageBody_iff hfd htext).mp hbody
      obtain ⟨t₁, hbody⟩ := hbody
      obtain ⟨h₁, hother⟩ := h.messageBody_clients hbody
      have hsame := hother fd hl.1
      rw [hbody, ok_bind, and_iff_right hsettles, ih h₁ (by rw [hsame, hfd]) hnodup hl.2]
      refine forall₂_congr fun k hk => ?_
      rw [hother k (ne_of_mem_of_not_mem hk hi), messageCopy_congr hsame]
    · refine iff_of_false ?_ fun hall =>
        hbody ((h.exists_messageBody_iff hfd htext).mpr hall.1)
      rintro ⟨t', ht'⟩
      obtain ⟨t₁, ht₁, -⟩ := exists_of_bind_eq_ok ht'
      exact hbody ⟨t₁, ht₁⟩

/-- The `inbuff` is there for all clients but the sender. -/
theorem Judge.all_foldlM_message (hP : Judge P bytes n last) (h : Named lfd t)
    (hreads : t.Reads fd bytes n) (hl : fd ∉ l) :
    (l.foldlM (loggedMessageBody fd inp text) t).All P := by
  refine @Logged.all_foldlM _ _ _ _ P (fun t => Named lfd t ∧ t.Reads fd bytes n) _ _ _
    ⟨h, hreads⟩ fun i hi t ht => ⟨?_, fun t' ht' => ?_⟩
  · by_cases hactive : (t.clients i).active = true
    · rw [all_loggedMessageBody hP.block ht.1.registered hactive, stringAccess_of_reads ht.2]
      exact hP.string 0 (Nat.zero_le last)
    · rw [loggedMessageBody, if_neg hactive]
      exact Logged.all_pure t
  · rw [result_loggedMessageBody] at ht'
    obtain ⟨hnamed, hother⟩ := ht.1.messageBody_clients ht'
    refine ⟨hnamed, ?_⟩
    rw [Reads, hother fd (ne_of_mem_of_not_mem hi hl).symm]
    exact ht.2

/-- **Without the `inbuff`** the next active client makes the loop read freed memory. -/
theorem Judge.all_foldlM_freed (hP : Judge P bytes n last) (h : Registered lfd t)
    (hfreed : (t.clients fd).inbuff = none) :
    (l.foldlM (loggedMessageBody fd inp text) t).All P ↔
      ∀ j ∈ l, (t.clients j).active = false := by
  induction l with
  | nil =>
    rw [List.foldlM_nil]
    exact iff_of_true (Logged.all_pure t) fun _ hj => absurd hj List.not_mem_nil
  | cons j l ih =>
    rw [List.foldlM_cons, Logged.all_bind, List.forall_mem_cons]
    by_cases hactive : (t.clients j).active = true
    · refine iff_of_false (fun hall => ?_) fun hall => by cases hactive.symm.trans hall.1
      have hstring := (all_loggedMessageBody hP.block h hactive).mp hall.1
      rw [stringAccess, hfreed] at hstring
      exact hP.freed _ 0 hstring
    · have hinactive : (t.clients j).active = false := by simpa using hactive
      have hbody : loggedMessageBody fd inp text t j = pure t := if_neg hactive
      rw [and_iff_right hinactive, hbody, and_iff_right (Logged.all_pure t), ← ih,
        Logged.result_pure]
      exact ⟨fun hall => hall t rfl, fun hall t' ht' => Except.ok.inj ht' ▸ hall⟩

theorem range_eq_append_cons {m k : ℕ} (h : m < k) :
    List.range k = List.range m ++ m :: List.range' (m + 1) (k - (m + 1)) := by
  obtain ⟨d, rfl⟩ := Nat.exists_eq_add_of_lt h
  have happend := @List.range'_append_1 0 m (d + 1)
  rw [Nat.zero_add] at happend
  rw [List.range_eq_range', List.range_eq_range', show m + d + 1 - (m + 1) = d by omega,
    ← List.range'_succ, happend, Nat.add_assoc]

/-- **The loop from the sender on** reads freed memory if the sender's own copy is refused and an
active client is left. -/
theorem Judge.all_foldlM_own (hP : Judge P bytes n last) (h : Named lfd t)
    (hactive : (t.clients fd).active = true) (hreads : t.Reads fd bytes n)
    (htext : (0 : Byte) ∉ text) (hl : fd ∉ l) :
    ((fd :: l).foldlM (loggedMessageBody fd inp text) t).All P ↔
      ¬(Refused (inp.writes fd) ((t.messageCopy fd text fd).length + 1) ∧
        ∃ j ∈ l, (t.clients j).active = true) := by
  have hbody : messageBody fd text inp t fd = t.afterFlush fd
      (writeExact (inp.writes fd) (frame (t.messageCopy fd text fd)) 0) :=
    h.messageBody_eq hactive htext hactive
  have hown : P (t.stringAccess fd 0) := by
    rw [stringAccess_of_reads hreads]
    exact hP.string 0 (Nat.zero_le last)
  rw [List.foldlM_cons, Logged.all_bind,
    and_iff_right ((all_loggedMessageBody hP.block h.registered hactive).mpr hown),
    result_loggedMessageBody, hbody]
  obtain ⟨hsucceeds, hflush⟩ | ⟨hrefused, out, hflush⟩ | ⟨hnot, hflush⟩ :=
    t.afterFlush_cases fd (t.messageCopy fd text fd) (inp.writes fd)
  · refine iff_of_true (fun t₁ ht₁ => ?_) fun hfrees =>
      hfrees.1.not_succeeds (Nat.succ_ne_zero _) hsucceeds
    have hnamed := (h.messageBody_clients (hbody.trans ht₁)).1
    obtain rfl := Except.ok.inj (hflush.symm.trans ht₁)
    exact hP.all_foldlM_message hnamed (hreads.afterSend _ _) hl
  · have hnamed := (h.messageBody_clients (hbody.trans hflush)).1
    rw [hflush]
    simp only [Except.ok.injEq, forall_eq']
    rw [hP.all_foldlM_freed hnamed.registered (by rw [disconnectClient_clients_self]),
      and_iff_right hrefused]
    -- the other clients are as they were before
    have hother : ∀ j ∈ l, (disconnectClient { t with
        sent := Function.update t.sent fd (t.sent fd ++ out) } fd).clients j = t.clients j :=
      fun j hj => disconnectClient_clients_of_ne _ _ (ne_of_mem_of_not_mem hj hl)
    rw [not_exists]
    refine forall_congr' fun j => ?_
    rw [not_and]
    refine forall_congr' fun hj => ?_
    rw [hother j hj, Bool.not_eq_true]
  · refine iff_of_true (fun t₁ ht₁ => ?_) fun hfrees => hnot (.inr hfrees.1)
    cases hflush.symm.trans ht₁

theorem Server.result_foldlM_loggedMessageBody (l : List ℕ) (t : Server) :
    (l.foldlM (loggedMessageBody fd inp text) t).result =
      l.foldlM (messageBody fd text inp) t := by
  rw [Logged.result_foldlM]
  exact congrArg (fun f => l.foldlM f t) (funext fun s => funext fun i =>
    result_loggedMessageBody s fd inp text i)

/-- **`server_process_message_from`.** -/
theorem Judge.all_loggedProcessMessageFrom (hP : Judge P bytes n last) (h : Named lfd t)
    (hactive : (t.clients fd).active = true) (hreads : t.Reads fd bytes n)
    (htext : (0 : Byte) ∉ text) (hlt : ∀ i, (t.clients i).active = true → i < fdSetSize) :
    (t.loggedProcessMessageFrom fd inp text).All P ↔ ¬t.FreesInMessage fd inp text := by
  have hbefore : fd ∉ List.range fd := fun hmem => Nat.lt_irrefl fd (List.mem_range.mp hmem)
  have hafter : ∀ j, j ∈ List.range' (fd + 1) (fdSetSize - (fd + 1)) ↔ fd < j ∧ j < fdSetSize :=
    fun j => by
      rw [List.mem_range'_1]
      omega
  have hreach := @Named.exists_foldlM_messageBody_iff lfd t fd inp text (List.range fd) h hactive
    htext List.nodup_range hbefore
  simp only [List.mem_range] at hreach
  rw [loggedProcessMessageFrom, range_eq_append_cons (hlt fd hactive), List.foldlM_append,
    Logged.all_bind, and_iff_right (hP.all_foldlM_message h hreads hbefore),
    result_foldlM_loggedMessageBody, FreesInMessage, ← hreach]
  by_cases hsome : ∃ t', (List.range fd).foldlM (messageBody fd text inp) t = .ok t'
  · obtain ⟨t₁, ht₁⟩ := hsome
    obtain ⟨h₁, hother⟩ := h.foldlM_messageBody_clients ht₁
    have hsame := hother fd hbefore
    have hown := @Judge.all_foldlM_own lfd t₁ fd n last inp text bytes P
      (List.range' (fd + 1) (fdSetSize - (fd + 1))) hP h₁ (by rwa [hsame])
      (by rwa [Reads, hsame]) htext fun hmem => Nat.lt_irrefl fd ((hafter fd).mp hmem).1
    simp only [ht₁, Except.ok.injEq, forall_eq', exists_eq', true_and]
    rw [hown, messageCopy_congr hsame]
    -- the clients after the sender are as they were before the loop
    have hlater : ∀ j, fd < j → t₁.clients j = t.clients j := fun j hj =>
      hother j fun hmem => Nat.lt_asymm hj (List.mem_range.mp hmem)
    refine not_congr (and_congr_right fun _ => exists_congr fun j => ?_)
    rw [hafter]
    constructor
    · rintro ⟨⟨hj, -⟩, hjactive⟩
      exact ⟨hj, by rwa [hlater j hj] at hjactive⟩
    · rintro ⟨hj, hjactive⟩
      exact ⟨⟨hj, hlt j hjactive⟩, by rwa [hlater j hj]⟩
  · refine iff_of_true (fun t₁ ht₁ => absurd ⟨t₁, ht₁⟩ hsome) fun hfrees => hsome hfrees.1

end Message

/-! ### The call of the handler -/

/-- An access to memory that is not freed. -/
def Access.Live : Access → Prop
  | .string mem _ _ => mem.isSome
  | .block mem => mem.isSome

/-- A string that ends in the `inLen` bytes of a buffer which is not freed. Behind the bytes of the
`read` the buffer is zero. -/
def Access.Ends : Access → Prop
  | .string mem inLen pos =>
    ∃ bytes, mem = some bytes ∧ ∃ i, pos ≤ i ∧ i < inLen ∧ bytes.getD i 0 = 0
  | .block _ => True

section Call

open Server

variable {opened : ℕ → Bool} {lfd : ℕ} {s : Server} {fd n : ℕ} {inp : Input}
  {text bytes : List Byte} {P : Access → Prop}

/-- **The handlers of the branches.** -/
theorem Judge.all_loggedCommand (hP : Judge P bytes n text.length) (h : Named lfd s)
    (hactive : (s.clients fd).active = true) (hreads : s.Reads fd bytes n)
    (htext : (0 : Byte) ∉ text) (hne : text ≠ [])
    (hlt : ∀ i, (s.clients i).active = true → i < fdSetSize) :
    (s.loggedCommand fd inp text (commandOf text)).All P ↔ ¬s.FreesText fd inp text := by
  have hreg := h.registered
  cases hcommand : commandOf text with
  | who =>
    refine iff_of_true (hP.all_loggedProcessWho hreg hactive) ?_
    simp [FreesText, hcommand]
  | setAlias =>
    have hlen : magicStrAlias.length < text.length := by
      rw [commandOf] at hcommand
      split_ifs at hcommand with hwho halias
      exact halias.1
    refine iff_of_true (hP.all_loggedProcessAlias hreg hactive hreads hlen.le) ?_
    simp [FreesText, hcommand]
  | help =>
    refine iff_of_true (all_loggedReply hP.block _ _ (hreg.sound fd) hactive) ?_
    simp [FreesText, hcommand]
  | cow =>
    have hlen : magicStrCow.length < text.length := by
      rw [commandOf] at hcommand
      split_ifs at hcommand with hwho halias hhelp hcow
      exact hcow.1
    refine iff_of_true (hP.all_loggedProcessCow hreg hactive hreads hlen.le) ?_
    simp [FreesText, hcommand]
  | privateMsg =>
    refine (hP.all_loggedProcessPrivate h hactive hreads htext hne).trans ?_
    simp [FreesText, hcommand]
  | message =>
    refine (hP.all_loggedProcessMessageFrom h hactive hreads htext hlt).trans ?_
    simp [FreesText, hcommand]

/-- After the `read` the bytes are in `inbuff`. -/
theorem Registered.reads_afterRead (h : Registered lfd s) (hactive : (s.clients fd).active = true) :
    (s.afterRead fd inp).Reads fd ((inp.read.getD []).take (s.clients fd).inLen)
      (s.clients fd).inLen := by
  obtain ⟨b, hb⟩ := Option.isSome_iff_exists.mp ((h.sound fd).input hactive).2
  rw [Reads, afterRead, putInbuff, setClient_clients_self, hb]
  exact ⟨rfl, rfl⟩

theorem Server.eq_of_processed (htext : s.processed fd inp = some text) :
    text = inString (s.clients fd).inLen ((inp.read.getD []).take (s.clients fd).inLen)
      inp.beyond := by
  rw [processed] at htext
  split_ifs at htext with hempty
  exact (Option.some.inj htext).symm

/-- **`server_process_client`**: the accesses have the property if the `inbuff` is not freed before
it is read again. -/
theorem Judge.all_loggedProcessClient (h : Reachable opened lfd s)
    (hactive : (s.clients fd).active = true)
    (hP : Judge P ((inp.read.getD []).take (s.clients fd).inLen) (s.clients fd).inLen
      (inString (s.clients fd).inLen ((inp.read.getD []).take (s.clients fd).inLen)
        inp.beyond).length) :
    (s.loggedProcessClient fd inp).All P ↔
      ∀ text, s.processed fd inp = some text → ¬(s.afterRead fd inp).FreesText fd inp text := by
  have hreads := @Registered.reads_afterRead lfd s fd inp h.registered hactive
  have hstore : ∀ a ∈ [Access.block (s.clients fd).inbuff], P a := fun a ha => by
    obtain ⟨b, hb⟩ := Option.isSome_iff_exists.mp ((h.registered.sound fd).input hactive).2
    rw [List.mem_singleton.mp ha, hb]
    exact hP.block b
  have hstrlen : ∀ a ∈ if (inp.read.getD []).take (s.clients fd).inLen = [] then []
      else [(s.afterRead fd inp).stringAccess fd 0], P a := fun a ha => by
    split_ifs at ha with hempty
    · cases ha
    · rw [List.mem_singleton.mp ha, stringAccess_of_reads hreads]
      exact hP.string 0 (Nat.zero_le _)
  rw [loggedProcessClient, Logged.all_tell_bind, and_iff_right hstore, Logged.all_tell_bind,
    ← afterRead, and_iff_right hstrlen]
  cases htext : s.processed fd inp with
  | none =>
    refine iff_of_true (Logged.all_pure _) fun text htext' => ?_
    cases htext'
  | some text =>
    obtain rfl := eq_of_processed htext
    have hcommand := @Judge.all_loggedCommand lfd (s.afterRead fd inp) fd _ inp _ _ P hP
      (h.named.afterRead fd inp) ((s.afterRead_active fd inp fd).trans hactive) hreads
      (zero_notMem_of_processed htext) (ne_nil_of_processed htext) fun i hi =>
        h.lt_fdSetSize i ((s.afterRead_active fd inp i).symm.trans hi)
    exact hcommand.trans ⟨fun hnot text' htext' => Option.some.inj htext' ▸ hnot,
      fun hall => hall _ rfl⟩

/-- The result is that of the handler. -/
theorem Registered.result_loggedProcessClient (h : Registered lfd s)
    (hactive : (s.clients fd).active = true) :
    (s.loggedProcessClient fd inp).result = s.callHandler fd inp := by
  rw [Server.result_loggedProcessClient, callHandler, h.f_eq_of_active hactive]

theorem judge_live (bytes : List Byte) (n last : ℕ) : Judge Access.Live bytes n last where
  block _ := rfl
  string _ _ := rfl
  freed _ _ h := by cases h

/-- **When no freed buffer is accessed.** In every reachable state, a call of
`server_process_client` for an active client accesses allocated buffers only if and only if the
sender of a message to all clients, or of a private message, is not disconnected by the flush of its
own copy while the message is still to be sent to another client. -/
theorem live_iff (h : Reachable opened lfd s) (hactive : (s.clients fd).active = true) :
    (s.loggedProcessClient fd inp).result = s.callHandler fd inp ∧
      ((s.loggedProcessClient fd inp).All Access.Live ↔
        ∀ text, s.processed fd inp = some text →
          ¬(s.afterRead fd inp).FreesText fd inp text) :=
  ⟨h.registered.result_loggedProcessClient hactive,
    (judge_live _ _ _).all_loggedProcessClient h hactive⟩

/-! ### Strings that end in the buffer -/

theorem mem_of_getD_eq_zero {i : ℕ} (hi : i < bytes.length) (h : bytes.getD i 0 = 0) :
    (0 : Byte) ∈ bytes := by
  rw [List.getD_eq_getElem _ _ hi] at h
  exact h ▸ List.getElem_mem hi

/-- The byte behind the string is a NUL. -/
theorem getD_length_cstr (bytes : List Byte) : bytes.getD (cstr bytes).length 0 = 0 := by
  induction bytes with
  | nil => rfl
  | cons b bytes ih =>
    by_cases hb : b = 0
    · rw [hb, cstr_zero_cons]
      rfl
    · have hcons : cstr (b :: bytes) = b :: cstr bytes :=
        List.takeWhile_cons_of_pos (by simpa using hb)
      rw [hcons, List.length_cons, List.getD_cons_succ, ih]

theorem length_cstr_lt (h : (0 : Byte) ∈ bytes) : (cstr bytes).length < bytes.length := by
  by_contra hge
  have heq : cstr bytes = bytes :=
    (List.takeWhile_prefix _).eq_of_length_le (Nat.not_lt.mp hge)
  have hmem : (0 : Byte) ∉ cstr bytes := zero_notMem_cstr bytes
  rw [heq] at hmem
  exact hmem h

/-- The string in `inbuff` ends in it if the `read` has left a NUL there. -/
theorem judge_ends (beyond : List Byte) (hle : bytes.length ≤ n)
    (hends : bytes.length < n ∨ (0 : Byte) ∈ bytes) :
    Judge Access.Ends bytes n (inString n bytes beyond).length where
  block _ := trivial
  string pos hpos := by
    have htext : inString n bytes beyond = cstr bytes := by
      rw [inString]
      split_ifs with hlt
      · rfl
      · have hshort := length_cstr_lt (hends.resolve_left hlt)
        rw [cstr, List.takeWhile_append]
        exact if_neg hshort.ne
    rw [htext] at hpos
    refine ⟨bytes, rfl, (cstr bytes).length, hpos, ?_, getD_length_cstr bytes⟩
    rcases hends with hlt | hmem
    · exact ((List.takeWhile_prefix _).length_le).trans_lt hlt
    · exact (length_cstr_lt hmem).trans_le hle
  freed n' pos h := by
    obtain ⟨bytes', hfreed, -⟩ := h
    cases hfreed

/-- The bytes of the `read`, as far as there is room for them. -/
theorem take_read (hread : inp.read = some bytes) (hle : bytes.length ≤ n) :
    (inp.read.getD []).take n = bytes := by
  rw [hread, Option.getD_some, List.take_of_length_le hle]

/-- A `read` that fills the buffer and has no NUL leaves it without an end. -/
theorem not_all_ends (h : Registered lfd s) (hactive : (s.clients fd).active = true)
    (hread : inp.read = some bytes) (hne : bytes ≠ [])
    (hfull : bytes.length = (s.clients fd).inLen) (hnul : (0 : Byte) ∉ bytes) :
    ¬(s.loggedProcessClient fd inp).All Access.Ends := by
  have hreads := @Registered.reads_afterRead lfd s fd inp h hactive
  have hbytes := take_read hread hfull.le
  rw [hbytes] at hreads
  rw [loggedProcessClient, Logged.all_tell_bind, Logged.all_tell_bind, hbytes, if_neg hne]
  rintro ⟨-, hstrlen, -⟩
  have hends := hstrlen _ List.mem_cons_self
  rw [← hbytes, ← afterRead, stringAccess_of_reads hreads] at hends
  obtain ⟨bytes', hmem, i, -, hi, hzero⟩ := hends
  obtain rfl := Option.some.inj hmem
  exact hnul (mem_of_getD_eq_zero (hfull.symm ▸ hi) hzero)

/-- **When all strings end inside `inbuff`.** In every reachable state, and for every result of
`read` that is not empty, all strings that `server_process_client` and its handlers read in the
`inbuff` of an active client end in its `in_len` bytes if and only if the `read` has left room for a
NUL or has brought one, and the buffer is not freed before it is read again. -/
theorem ends_iff (h : Reachable opened lfd s) (hactive : (s.clients fd).active = true)
    (hread : inp.read = some bytes) (hne : bytes ≠ [])
    (hle : bytes.length ≤ (s.clients fd).inLen) :
    (s.loggedProcessClient fd inp).result = s.callHandler fd inp ∧
      ((s.loggedProcessClient fd inp).All Access.Ends ↔
        (bytes.length < (s.clients fd).inLen ∨ (0 : Byte) ∈ bytes) ∧
          ∀ text, s.processed fd inp = some text →
            ¬(s.afterRead fd inp).FreesText fd inp text) := by
  refine ⟨h.registered.result_loggedProcessClient hactive, ?_⟩
  by_cases hends : bytes.length < (s.clients fd).inLen ∨ (0 : Byte) ∈ bytes
  · have hjudge := judge_ends inp.beyond hle hends
    rw [and_iff_right hends]
    refine Judge.all_loggedProcessClient h hactive ?_
    rwa [take_read hread hle]
  · refine iff_of_false ?_ fun hall => hends hall.1
    rw [not_or, Nat.not_lt] at hends
    exact not_all_ends h.registered hactive hread hne (hle.antisymm hends.1) hends.2

end Call

/-! ### A message whose sender is disconnected -/

/-- What a handler gets when a client sends a text and does not take its own copy. -/
def refusedInput (fd : ℕ) (text : List Byte) (s : Server) : Input :=
  { fullInput 6 text s with writes := fun i => if i = fd then [.written 0] else [.full] }

/-- Where all writes succeed the sender is not disconnected. -/
theorem not_freesText_fullInput (s t : Server) (fd nfd : ℕ) (bytes text : List Byte) :
    ¬t.FreesText fd (fullInput nfd bytes s) text := by
  have hnot (n : ℕ) : ¬Refused [.full] (n + 1) := fun hrefused =>
    hrefused.not_succeeds (Nat.succ_ne_zero n) (succeeds_full [] _)
  rintro (⟨-, -, hrefused, -⟩ | ⟨-, j, pos, -, -, hrefused⟩)
  · exact hnot _ hrefused
  · exact hnot _ hrefused

/-- Clients 4 and 5 are connected, and 4 sends `hi`. -/
theorem exists_freesText : ∃ s : Server, Reachable (fun _ => false) 3 s ∧
    (s.clients 4).active = true ∧ (s.clients 4).inLen = initQsiz ∧
    s.processed 4 (refusedInput 4 (str "hi") s) = some (str "hi") ∧
    (s.afterRead 4 (refusedInput 4 (str "hi") s)).FreesText 4 (refusedInput 4 (str "hi") s)
      (str "hi") := by
  obtain ⟨s, hs, -, -, -, hbob, hclients, -⟩ := exists_takenRounds
  have hactive : (s.clients 4).active = true := hbob.1
  have hprocessed : s.processed 4 (fullInput 6 (str "hi") s) = some (str "hi") :=
    hs.registered.processed_fullInput hactive 6 (by decide) (by decide) (by decide)
  refine ⟨s, hs, hactive, ((hs.registered.sound 4).input hactive).1, hprocessed,
    .inl ⟨by decide, fun i hi hi' => ?_, refused_written_zero [] _, 5, by decide, ?_⟩⟩
  · rw [Server.afterRead_active] at hi'
    have hclient := hs.eq_or_eq hclients hi'
    omega
  · rw [Server.afterRead_active]
    have hmem : 5 ∈ s.activeClients := by
      rw [hclients]
      decide
    exact (mem_activeClients.mp hmem).2

/-- A message whose sender does not take its own copy, and one that everybody takes. -/
theorem live_iff_hi : ∃ s : Server,
    ((s.loggedProcessClient 4 (refusedInput 4 (str "hi") s)).result =
        s.callHandler 4 (refusedInput 4 (str "hi") s) ∧
      ¬(s.loggedProcessClient 4 (refusedInput 4 (str "hi") s)).All Access.Live) ∧
    (s.loggedProcessClient 4 (fullInput 6 (str "hi") s)).result =
        s.callHandler 4 (fullInput 6 (str "hi") s) ∧
      (s.loggedProcessClient 4 (fullInput 6 (str "hi") s)).All Access.Live := by
  obtain ⟨s, hs, hactive, -, htext, hfrees⟩ := exists_freesText
  obtain ⟨hrefused, hrefusedLive⟩ := @live_iff _ 3 s 4 (refusedInput 4 (str "hi") s) hs hactive
  obtain ⟨hfull, hfullLive⟩ := @live_iff _ 3 s 4 (fullInput 6 (str "hi") s) hs hactive
  exact ⟨s, ⟨hrefused, fun hlive => hrefusedLive.mp hlive _ htext hfrees⟩, hfull,
    hfullLive.mpr fun text _ => not_freesText_fullInput _ _ _ _ _ text⟩

/-- **A freed buffer is read**: that of the sender of a message, which does not take its own copy.
-/
theorem not_forall_live :
    ¬∀ (opened : ℕ → Bool) (lfd : ℕ) (s : Server) (fd : ℕ) (inp : Input),
      Reachable opened lfd s → (s.clients fd).active = true →
      (s.loggedProcessClient fd inp).All Access.Live := by
  intro hall
  obtain ⟨s, hs, hactive, -, htext, hfrees⟩ := exists_freesText
  have hlive := hall _ 3 s 4 (refusedInput 4 (str "hi") s) hs hactive
  rw [(judge_live _ _ _).all_loggedProcessClient hs hactive] at hlive
  exact hlive _ htext hfrees

/-- A message whose sender does not take its own copy, and one that everybody takes. -/
theorem ends_iff_hi : ∃ s : Server,
    ¬(s.loggedProcessClient 4 (refusedInput 4 (str "hi") s)).All Access.Ends ∧
      (s.loggedProcessClient 4 (fullInput 6 (str "hi") s)).All Access.Ends := by
  obtain ⟨s, hs, hactive, hlen, htext, hfrees⟩ := exists_freesText
  have hle : (str "hi").length ≤ (s.clients 4).inLen := by
    rw [hlen]
    decide
  have hlt : (str "hi").length < (s.clients 4).inLen := by
    rw [hlen]
    decide
  have hrefused := (@ends_iff _ 3 s 4 (refusedInput 4 (str "hi") s) _ hs hactive rfl (by decide)
    hle).2
  have hfull := (@ends_iff _ 3 s 4 (fullInput 6 (str "hi") s) _ hs hactive rfl (by decide) hle).2
  exact ⟨s, fun hends => (hrefused.mp hends).2 _ htext hfrees,
    hfull.mpr ⟨.inl hlt, fun text _ => not_freesText_fullInput _ _ _ _ _ text⟩⟩

/-- **A string can run on behind the buffer**: when the client sends as many letters as there are
bytes in it. -/
theorem not_forall_ends :
    ¬∀ (opened : ℕ → Bool) (lfd : ℕ) (s : Server) (fd : ℕ) (bytes : List Byte) (inp : Input),
      Reachable opened lfd s → (s.clients fd).active = true → inp.read = some bytes →
      bytes ≠ [] → bytes.length ≤ (s.clients fd).inLen →
      (s.loggedProcessClient fd inp).All Access.Ends := by
  intro hall
  obtain ⟨s, hs, hactive, hlen, -⟩ := exists_freesText
  have hne : List.replicate initQsiz (97 : Byte) ≠ [] :=
    List.ne_nil_of_length_pos (by rw [List.length_replicate]; exact initQsiz_pos)
  have hfull : (List.replicate initQsiz (97 : Byte)).length = (s.clients 4).inLen := by
    rw [List.length_replicate, hlen]
  have hnul : (0 : Byte) ∉ List.replicate initQsiz (97 : Byte) := fun hmem =>
    absurd (List.eq_of_mem_replicate hmem) (by decide)
  exact not_all_ends hs.registered hactive rfl hne hfull hnul
    (hall _ 3 s 4 _ (fullInput 6 (List.replicate initQsiz 97) s) hs hactive rfl hne hfull.le)

end TikFachpraktika.Chat
