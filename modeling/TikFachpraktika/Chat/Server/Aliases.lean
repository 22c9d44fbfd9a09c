import TikFachpraktika.Chat.Server.Names
import TikFachpraktika.Transition.Run

/-!
# The alias table

The aliases in a reachable state are well-formed and differ without regard to case, and a client
keeps its alias until it is disconnected. No call of a handler disconnects a client and enters
another one under the same descriptor, so a client that is active in every state between two calls
is the same one all the time.

## Main definitions

* `IsAliasChar`: the characters of an alias.
* `handlerStep`: the calls of handlers as steps.

## Main results

* `namedAs_of_callHandler`: what a call does to the alias of a client.
* `alias_table`: the alias table along all runs.
-/

namespace TikFachpraktika.Chat

open Posix Transition

/-- A letter, a digit, `_` or `-`. -/
def IsAliasChar (c : Byte) : Prop :=
  (97 ≤ c ∧ c ≤ 122) ∨ (65 ≤ c ∧ c ≤ 90) ∨ (48 ≤ c ∧ c ≤ 57) ∨ c = 95 ∨ c = 45

instance (c : Byte) : Decidable (IsAliasChar c) :=
  inferInstanceAs (Decidable (_ ∨ _))

/-- `sizeof(((struct client *) 0)->alias)`. -/
def sizeofAlias : ℕ := aliasMaxlen + 1

/-- A call of the handler of a descriptor with what it gets from the system. -/
def handlerStep (s : Server) (a : ℕ × Input) (s' : Server) : Prop :=
  a.2.Valid s ∧ s.callHandler a.1 a.2 = .ok s'

theorem isAliasChar_of_mem : ∀ c ∈ aliasAllowedChars, IsAliasChar c := by decide +kernel

/-! ### What a call does to an alias -/

section Call

variable {lfd i : ℕ} {s s' : Server} {fd : ℕ} {name : List Byte} {inp : Input}

/-- The client `fd` has its alias or is disconnected. -/
def Server.KeepsAlias (fd : ℕ) (name : List Byte) (s : Server) : Prop :=
  (s.clients fd).active = true → s.NamedAs fd name

theorem Server.keepsAlias_congr (h : s'.clients fd = s.clients fd) :
    s'.KeepsAlias fd name ↔ s.KeepsAlias fd name := by
  rw [Server.KeepsAlias, Server.KeepsAlias, Server.namedAs_congr h, h]

/-- Queueing and flushing keeps an alias. -/
theorem Server.KeepsAlias.writeAndFlush {j : ℕ} {data : List (List Byte)}
    {answers : List WriteAnswer} (h : s.KeepsAlias fd name)
    (hcall : s.writeAndFlush j data answers = .ok s') : s'.KeepsAlias fd name := by
  obtain ⟨hother, -, hname⟩ := Server.writeAndFlush_clients hcall
  rcases eq_or_ne fd j with rfl | hne
  · intro hactive
    obtain ⟨hbefore, hiff⟩ := hname hactive
    exact (hiff name).mpr (h hbefore)
  · exact (Server.keepsAlias_congr (hother fd hne)).mpr h

/-- **The operations on connected clients keep an alias.** -/
theorem kept_keepsAlias (fd : ℕ) (name : List Byte) : Kept (Server.KeepsAlias fd name) where
  writeAndFlush h hcall := h.writeAndFlush hcall
  putInbuff {s j} bytes h := by
    rcases eq_or_ne fd j with rfl | hne
    · rw [Server.KeepsAlias, Server.NamedAs, Server.putInbuff, Server.setClient_clients_self]
      exact h
    · exact (Server.keepsAlias_congr (Server.setClient_clients_of_ne _ _ _ hne)).mpr h
  disconnectClient {s j} h _ := by
    rcases eq_or_ne fd j with rfl | hne
    · intro hactive
      rw [Server.disconnectClient_clients_self] at hactive
      cases hactive
    · exact (Server.keepsAlias_congr (Server.disconnectClient_clients_of_ne _ _ hne)).mpr h
  putAlias {s j name'} h haccepted := by
    rcases eq_or_ne fd j with rfl | hne
    · intro hactive
      rw [Server.putAlias, Server.setClient_clients_self] at hactive
      -- a client with an alias is not given another one
      have hhas := (h hactive).2.1
      rw [haccepted.hasAlias] at hhas
      cases hhas
    · exact (Server.keepsAlias_congr (Server.setClient_clients_of_ne _ _ _ hne)).mpr h

/-- **What a call does to an alias**: the client keeps it or is disconnected. -/
theorem namedAs_of_callHandler (h : Registered lfd s) (hvalid : inp.Valid s)
    (hnamed : s.NamedAs fd name) (hcall : s.callHandler i inp = .ok s') :
    s'.KeepsAlias fd name := by
  have hkeeps : s.KeepsAlias fd name := fun _ => hnamed
  refine (kept_keepsAlias fd name).callHandler hkeeps (fun nfd caddr haccept => ?_) hcall
  -- the new descriptor was not open, so it is not that of the client
  have hne : fd ≠ nfd := by
    rintro rfl
    have hinactive := (h.inactive_of_closed (hvalid fd caddr haccept).1).2
    rw [hnamed.1] at hinactive
    cases hinactive
  exact (Server.keepsAlias_congr (Function.update_of_ne hne ..)).mpr hkeeps

end Call

/-! ### Runs -/

section Runs

variable {opened : ℕ → Bool} {lfd : ℕ} {s s' : Server}

/-- **An alias stays** as long as the client is active. -/
theorem Reachable.namedAs_of_run (h : Reachable opened lfd s) {fd : ℕ} {name : List Byte}
    (hnamed : s.NamedAs fd name)
    (hrun : Run handlerStep (fun t _ => (t.clients fd).active = true) s s') :
    s'.KeepsAlias fd name := by
  refine (hrun.invariant (p := fun t => Reachable opened lfd t ∧ t.KeepsAlias fd name)
    ⟨h, fun _ => hnamed⟩ fun {t a t'} ht hactive hstep => ?_).2
  obtain ⟨hvalid, hcall⟩ := hstep
  exact ⟨ht.1.call hvalid hcall,
    namedAs_of_callHandler ht.1.registered hvalid (ht.2 hactive) hcall⟩

/-- **The alias table.** In every reachable state the alias of an active client has 1 to 15
allowed characters and fits with its terminator into its field, the aliases of two active clients
differ without regard to case, and a client has the same alias in all later states until it is
disconnected. -/
theorem alias_table (h : Reachable opened lfd s) :
    (∀ fd name, s.NamedAs fd name → 1 ≤ name.length ∧ name.length ≤ 15 ∧
      (∀ c ∈ name, IsAliasChar c) ∧ (0 : Byte) ∉ name ∧ name.length < sizeofAlias) ∧
    (∀ fd fd' name name', fd ≠ fd' → s.NamedAs fd name → s.NamedAs fd' name' →
      lower name ≠ lower name') ∧
    ∀ fd name s', s.NamedAs fd name →
      Run handlerStep (fun t _ => (t.clients fd).active = true) s s' →
      (s'.clients fd).active = true → s'.NamedAs fd name := by
  refine ⟨fun fd name hname => ?_, fun fd fd' name name' hne hname hname' heq => ?_,
    fun fd name s' hname hrun => h.namedAs_of_run hname hrun⟩
  · have halias := h.named.isAlias fd name hname
    exact ⟨List.length_pos_iff.mpr halias.ne_nil, halias.length_le,
      fun c hc => isAliasChar_of_mem c (halias.allowed c hc), halias.zero_notMem,
      Nat.lt_succ_of_le halias.length_le⟩
  · exact hne (h.named.inj fd fd' name name' hname hname' heq)

/-- A server on descriptor 3 whose clients on the descriptors 4 and 5 have set the aliases `bob` and
`Eve`; the second one has asked for `BOB` first. -/
theorem alias_table_bobEve : ∃ s : Server, s.NamedAs 4 (str "bob") ∧ s.NamedAs 5 (str "Eve") ∧
    (∀ fd name, 4 ≠ fd → s.NamedAs fd name → lower (str "bob") ≠ lower name) ∧
    ∀ s', Run handlerStep (fun t _ => (t.clients 4).active = true) s s' →
      (s'.clients 4).active = true → s'.NamedAs 4 (str "bob") := by
  have hrun : ((serverMain (fun _ => false) 3).handleRounds
      [fullRound 3 4 [], fullRound 3 5 [], fullRound 4 4 (str "\\alias bob"),
        fullRound 5 5 (str "\\alias BOB"), fullRound 5 5 (str "\\alias Eve")]).map (fun s =>
        [4, 5].map fun fd =>
          ((s.clients fd).active, (s.clients fd).hasAlias, (s.clients fd).aliasStr)) =
      .ok [(true, true, str "bob"), (true, true, str "Eve")] := by decide +kernel
  obtain ⟨s, hs, hfacts⟩ := exists_of_map_eq_ok hrun
  simp only [List.map_cons, List.map_nil, List.cons.injEq, Prod.mk.injEq, and_true] at hfacts
  have hvalid : ∀ round ∈ [fullRound 3 4 [], fullRound 3 5 [], fullRound 4 4 (str "\\alias bob"),
      fullRound 5 5 (str "\\alias BOB"), fullRound 5 5 (str "\\alias Eve")], round.Valid := by
    simp only [List.forall_mem_cons]
    exact ⟨fullRound_valid (by decide) _, fullRound_valid (by decide) _,
      fullRound_valid (by decide) _, fullRound_valid (by decide) _,
      fullRound_valid (by decide) _, fun _ h => absurd h List.not_mem_nil⟩
  obtain ⟨-, hinj, hkeeps⟩ := alias_table (LoopReachable.main.handleRounds hvalid hs).reachable
  have hbob : s.NamedAs 4 (str "bob") := hfacts.1
  exact ⟨s, hbob, hfacts.2, fun fd name hne hname => hinj 4 fd _ name hne hbob hname,
    fun s' => hkeeps 4 _ s' hbob⟩

end Runs

end TikFachpraktika.Chat
