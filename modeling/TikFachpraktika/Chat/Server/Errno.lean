import TikFachpraktika.Chat.Server.Texts

/-!
# Connections that are closed by the client

`server_process_client` of `6_network/server.c` looks at `errno` when a `read` returns `0`, although
such a `read` leaves it as it was. The value is then that of the last call that failed, for whatever
descriptor.

## Main definitions

* `Input.Errno`: what a call of a handler does to `errno`.
* `ErrnoReachable`: the states between two calls of handlers, with `errno`.
* `Server.Removed`: a client that is gone.

## Main results

* `Registered.callHandler_endOfFile`: what a call does at the end of a connection.
* `removed_iff`: when a closed connection is removed.
* `foldlM_endOfFile`: how often the call comes to nothing otherwise.
-/

namespace TikFachpraktika.Chat

open Posix

/-- The first call of the handler, `accept` or `read`, has failed. -/
def Input.FirstFailed (inp : Input) : Handler → Prop
  | .acceptClient => inp.accept = none
  | .processClient => inp.read = none

/-- What a handler does to `errno`. Its first call leaves the value of the field `errno`: a call
that fails stores a number, and one that succeeds stores none. Some of the following writes may
fail. -/
structure Input.Errno (inp : Input) (handler : Handler) (before after : ℕ) : Prop where
  failed : inp.FirstFailed handler → inp.errno ≠ 0
  kept : ¬inp.FirstFailed handler → inp.errno = before
  writes : after = inp.errno ∨ (after ≠ 0 ∧ ∃ i, .error ∈ inp.writes i)

/-- The states between two calls of handlers, with `errno`. -/
inductive ErrnoReachable (opened : ℕ → Bool) (lfd : ℕ) : Server → ℕ → Prop
  | main : ErrnoReachable opened lfd (serverMain opened lfd) 0
  | call {s s' : Server} {i : ℕ} {inp : Input} {handler : Handler} {before after : ℕ}
      (h : ErrnoReachable opened lfd s before) (hvalid : inp.Valid s)
      (hf : s.read.f i = some handler) (herrno : inp.Errno handler before after)
      (hcall : s.callHandler i inp = .ok s') : ErrnoReachable opened lfd s' after

/-- The client is inactive, and its descriptor is neither registered nor open. -/
structure Server.Removed (s : Server) (fd : ℕ) : Prop where
  inactive : (s.clients fd).active = false
  unregistered : s.read.fds fd = false ∧ s.read.f fd = none
  closed : s.opened fd = false

theorem Server.removed_disconnectClient (s : Server) (fd : ℕ) :
    (s.disconnectClient fd).Removed fd where
  inactive := by rw [Server.disconnectClient_clients_self]
  unregistered := ⟨Function.update_self .., Function.update_self ..⟩
  closed := Function.update_self ..

/-- A `read` leaves the client where it is. -/
theorem Server.not_removed_putInbuff {s : Server} {fd : ℕ} (hactive : (s.clients fd).active = true)
    (bytes : List Byte) : ¬(s.putInbuff fd bytes).Removed fd := by
  intro h
  have hinactive := h.inactive
  rw [Server.putInbuff, Server.setClient_clients_self] at hinactive
  cases hactive.symm.trans hinactive

/-! ### The end of a connection -/

section EndOfFile

variable {opened : ℕ → Bool} {lfd : ℕ} {s : Server} {fd errno : ℕ} {inp : Input}

theorem ErrnoReachable.reachable (h : ErrnoReachable opened lfd s errno) :
    Reachable opened lfd s := by
  induction h with
  | main => exact .main
  | call _ hvalid _ _ hcall ih => exact ih.call hvalid hcall

/-- **A call at the end of a connection** depends on `errno` only. -/
theorem Registered.callHandler_endOfFile (h : Registered lfd s)
    (hactive : (s.clients fd).active = true) (hread : inp.read = some []) :
    s.callHandler fd inp = .ok (if inp.errno = eagain then s.putInbuff fd []
      else (s.putInbuff fd []).disconnectClient fd) := by
  obtain ⟨hfds, hne⟩ := (h.active_iff fd).mp hactive
  have hf : s.read.f fd = some .processClient := by
    rw [h.f_eq, if_pos hfds, if_neg hne]
  rw [Server.callHandler, hf]
  show s.processClient fd inp = _
  rw [Server.processClient]
  rw [hread, Option.getD_some, List.take_nil, if_pos (.inl rfl)]
  split_ifs <;> rfl

/-- **When a closed connection is removed.** In every reachable state, when the `read` of an active
client returns `0` and so leaves `errno` as the earlier calls have left it, the client is removed if
and only if this value is not `EAGAIN`. -/
theorem removed_iff (h : ErrnoReachable opened lfd s errno)
    (hactive : (s.clients fd).active = true) (hread : inp.read = some [])
    (herrno : inp.errno = errno) :
    ∃ s', s.callHandler fd inp = .ok s' ∧ (s'.Removed fd ↔ errno ≠ eagain) := by
  refine ⟨_, h.reachable.registered.callHandler_endOfFile hactive hread, ?_⟩
  rw [herrno]
  split_ifs with hagain
  · exact iff_of_false (s.not_removed_putInbuff hactive []) fun hne => hne hagain
  · exact iff_of_true (Server.removed_disconnectClient _ fd) hagain

/-- **The descriptor is reported again and again**: after `EAGAIN` no number of calls removes the
client. -/
theorem foldlM_endOfFile (h : Registered lfd s) (hactive : (s.clients fd).active = true)
    (hread : inp.read = some []) (hagain : inp.errno = eagain) : (n : ℕ) →
    ∃ s', (List.replicate n inp).foldlM (fun s inp => s.callHandler fd inp) s = .ok s' ∧
      Registered lfd s' ∧ (s'.clients fd).active = true ∧ ¬s'.Removed fd
  | 0 => ⟨s, rfl, h, hactive, fun hremoved => by cases hactive.symm.trans hremoved.inactive⟩
  | n + 1 => by
      obtain ⟨s', hrun, hreg, hact, -⟩ := foldlM_endOfFile h hactive hread hagain n
      have hcall := hreg.callHandler_endOfFile hact hread
      rw [if_pos hagain] at hcall
      refine ⟨s'.putInbuff fd [], ?_, (closed_registered lfd).putInbuff [] hreg, ?_,
        Server.not_removed_putInbuff hact []⟩
      · rw [List.replicate_succ', List.foldlM_append, hrun]
        simp only [ok_bind, List.foldlM_cons, List.foldlM_nil, bind_pure]
        exact hcall
      · rw [Server.putInbuff, Server.setClient_clients_self]
        exact hact

end EndOfFile

/-! ### A run -/

/-- A client connects on descriptor 4; the first `write` of the greeting has to be repeated. -/
def slowInput : Input where
  accept := some (4, ⟨127, 0, 0, 1⟩)
  read := none
  errno := 0
  beyond := []
  freed := fun _ => []
  popen := []
  writes := fun _ => [.error, .full]

/-- After this, `errno` may be any number of an error. -/
theorem exists_slowInput : ∃ s : Server, (s.clients 4).active = true ∧
    ∀ errno, ErrnoReachable (fun _ => false) 3 s errno := by
  have hrun : ((serverMain (fun _ => false) 3).callHandler 3 slowInput).map
      (fun s => (s.clients 4).active) = .ok true := by
    decide +kernel
  obtain ⟨s, hs, hactive⟩ := exists_of_map_eq_ok hrun
  refine ⟨s, hactive, fun errno => .call .main ?_ (Function.update_self ..) ⟨?_, fun _ => rfl, ?_⟩
    hs⟩
  · rintro nfd caddr haccept
    cases haccept
    exact ⟨rfl, by decide⟩
  · intro hfailed
    cases hfailed
  · by_cases h0 : errno = 0
    · exact .inl h0
    · exact .inr ⟨h0, 0, List.mem_cons_self⟩

/-- The conditions of the theorem can be met. -/
theorem removed_iff_slow : ∃ s s' : Server, (s.clients 4).active = true ∧
    s.callHandler 4 { slowInput with read := some [] } = .ok s' ∧ s'.Removed 4 := by
  obtain ⟨s, hactive, hs⟩ := exists_slowInput
  obtain ⟨s', hcall, hremoved⟩ := @removed_iff _ _ _ _ _ { slowInput with read := some [] } (hs 0)
    hactive rfl rfl
  exact ⟨s, s', hactive, hcall, hremoved.mpr (by decide)⟩

/-- **A closed connection can stay**: when the last call that failed was a `write` that had to be
repeated. -/
theorem not_forall_removed :
    ¬∀ (opened : ℕ → Bool) (lfd : ℕ) (s : Server) (fd errno : ℕ) (inp : Input),
      ErrnoReachable opened lfd s errno → (s.clients fd).active = true → inp.read = some [] →
      inp.errno = errno → ∃ s', s.callHandler fd inp = .ok s' ∧ s'.Removed fd := by
  intro hall
  obtain ⟨s, hactive, hs⟩ := exists_slowInput
  obtain ⟨s', hcall, hremoved⟩ := hall _ 3 s 4 eagain
    { slowInput with read := some [], errno := eagain } (hs eagain) hactive rfl rfl
  have hstays := @Registered.callHandler_endOfFile _ s 4
    { slowInput with read := some [], errno := eagain } (hs eagain).reachable.registered hactive rfl
  rw [if_pos rfl, hcall] at hstays
  obtain rfl := Except.ok.inj hstays
  exact Server.not_removed_putInbuff hactive [] hremoved

end TikFachpraktika.Chat
