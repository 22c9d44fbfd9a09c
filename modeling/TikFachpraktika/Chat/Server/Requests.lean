import TikFachpraktika.Chat.Server.Texts

/-!
# Requests for an alias

`server_process_alias` of `6_network/server.c` first decides about the requested alias, and then
queues the answer. It compares the new alias with those in use up to the length of the new one, so
that one which begins an alias in use is refused too.

## Main definitions

* `Server.decideAlias`: the decision, with the answer.
* `DecidesAlias`: the decision is that of the claim of equality, and a refusal changes no alias.

## Main results

* `Server.processAlias_eq`: the function is the decision and the answer.
* `decidesAlias_iff`: when the decision is right.
-/

namespace TikFachpraktika.Chat

open Posix

namespace Server

variable (s : Server) (fd : ℕ) (name : List Byte)

/-- What `server_process_alias` decides about an alias: the state in which it queues its answer,
and this answer. -/
def decideAlias : Except Fault (Server × List (List Byte)) :=
  if (s.clients fd).hasAlias then
    pure (s, [str "<Server alias cmd>: You have already set an alias."])
  else if name.length > aliasMaxlen then
    pure (s, [str "<Server alias cmd>: Sorry, this alias is too long (max 32 chars)."])
  else if name.any (· ∉ aliasAllowedChars) then
    pure (s, [str
      "<Server alias cmd>: Sorry, this alias contains invalid chars (allowed: a-zA-Z0-9_-)."])
  else do
    match ← s.findClient (s.nameMatches fd name) with
    | some _ => pure (s, [str "<Server alias cmd>: Sorry, this alias is already in use."])
    | none =>
      pure (s.putAlias fd name, [str "<Server alias cmd>: OK, alias set to ", name, str "."])

theorem processAlias_eq (inp : Input) (inbuff : List Byte) : s.processAlias fd inp inbuff =
    s.decideAlias fd (inbuff.drop magicStrAlias.length) >>= fun d =>
      d.1.writeAndFlush fd d.2 (inp.writes fd) := by
  rw [processAlias, decideAlias]
  generalize inbuff.drop magicStrAlias.length = name
  split_ifs
  · rw [pure_bind]
  · rw [pure_bind]
  · rw [pure_bind]
  · cases s.findClient (s.nameMatches fd name) with
    | error e => rw [error_bind, error_bind, error_bind]
    | ok found =>
      rw [ok_bind, ok_bind]
      cases found with
      | some i => rw [pure_bind]
      | none =>
        rw [pure_bind]
        rfl

end Server

/-- In the state `t` the client `fd` has been given the alias `name` if and only if it is short
enough, its characters are allowed, and no other client of `s` has the alias without regard to
case; otherwise all aliases are those of `s`. -/
structure DecidesAlias (s t : Server) (fd : ℕ) (name : List Byte) : Prop where
  accepted : t.NamedAs fd name ↔ name.length ≤ aliasMaxlen ∧ (∀ c ∈ name, c ∈ aliasAllowedChars) ∧
    ∀ j a, j ≠ fd → s.NamedAs j a → lower a ≠ lower name
  refused : ¬t.NamedAs fd name → t.NamedAs = s.NamedAs

section Decision

variable {lfd : ℕ} {s : Server} {fd : ℕ} {name : List Byte}

/-- **What `server_process_alias` decides**: the alias is entered if it is allowed and no other
client continues it. -/
theorem Named.decideAlias_cases (h : Named lfd s) (h0 : s.read.fds 0 = false)
    (hhas : (s.clients fd).hasAlias = false) (hname : (0 : Byte) ∉ name) :
    ∃ t answer, s.decideAlias fd name = .ok (t, answer) ∧
      ((t = s.putAlias fd name ∧ name.length ≤ aliasMaxlen ∧
          (∀ c ∈ name, c ∈ aliasAllowedChars) ∧ ∀ j, ¬s.Continues fd name j) ∨
        (t = s ∧ (name.length ≤ aliasMaxlen → (∀ c ∈ name, c ∈ aliasAllowedChars) →
          ∃ j, s.Continues fd name j))) := by
  have hno : ¬(s.clients fd).hasAlias = true := by simp [hhas]
  rw [Server.decideAlias, if_neg hno]
  by_cases hlong : name.length > aliasMaxlen
  · rw [if_pos hlong]
    exact ⟨s, _, rfl, .inr ⟨rfl, fun hlen => absurd hlen (Nat.not_le.mpr hlong)⟩⟩
  rw [if_neg hlong]
  by_cases hchars : name.any (· ∉ aliasAllowedChars) = true
  · rw [if_pos hchars]
    refine ⟨s, _, rfl, .inr ⟨rfl, fun _ hall => ?_⟩⟩
    obtain ⟨c, hc, hnot⟩ := List.any_eq_true.mp hchars
    exact absurd (hall c hc) (by simpa using hnot)
  rw [if_neg hchars]
  by_cases hnone : ∀ j, ¬s.Continues fd name j
  · rw [(h.registered.findClient_eq_none_iff h0 h.isAlias hname).mpr hnone]
    exact ⟨s.putAlias fd name, _, rfl,
      .inl ⟨rfl, Nat.not_lt.mp hlong, by simpa using hchars, hnone⟩⟩
  · have hsome : ∃ j, s.Continues fd name j := not_forall_not.mp hnone
    classical
    rw [(h.registered.findClient_eq_some_iff h0 h.isAlias hname (Nat.find hsome)).mpr
      ⟨Nat.find_spec hsome, fun k hk => Nat.find_min hsome hk⟩]
    exact ⟨s, _, rfl, .inr ⟨rfl, fun _ _ => hsome⟩⟩

theorem Server.namedAs_putAlias (hactive : (s.clients fd).active = true) (name : List Byte) :
    (s.putAlias fd name).NamedAs fd name := by
  rw [Server.NamedAs, Server.putAlias, Server.setClient_clients_self]
  exact ⟨hactive, rfl, rfl⟩

/-- **When a decision about an alias is right.** -/
theorem Named.decides_iff (h : Named lfd s) (h0 : s.read.fds 0 = false)
    (hactive : (s.clients fd).active = true) (hhas : (s.clients fd).hasAlias = false)
    (hname : (0 : Byte) ∉ name) :
    ∃ t answer, s.decideAlias fd name = .ok (t, answer) ∧
      (DecidesAlias s t fd name ↔
        (name.length ≤ aliasMaxlen → (∀ c ∈ name, c ∈ aliasAllowedChars) →
          (∃ j, s.Continues fd name j) → ∃ j, s.Addresses fd name j)) := by
  obtain ⟨t, answer, hdecide, ⟨rfl, hlen, hchars, hnone⟩ | ⟨rfl, hrefused⟩⟩ :=
    h.decideAlias_cases h0 hhas hname
  · -- accepted: no alias is equal, as none is continued
    have hnamed := Server.namedAs_putAlias hactive name
    refine ⟨_, answer, hdecide, iff_of_true ⟨iff_of_true hnamed ⟨hlen, hchars, ?_⟩, ?_⟩ ?_⟩
    · rintro j a hj ha heq
      exact hnone j ⟨hj, a, ha, heq ▸ List.prefix_rfl⟩
    · exact fun hnot => absurd hnamed hnot
    · rintro - - ⟨j, hj⟩
      exact absurd hj (hnone j)
  · have hfree : ¬t.NamedAs fd name := fun hnamed => by
      rw [hnamed.2.1] at hhas
      cases hhas
    refine ⟨t, answer, hdecide, fun hdecides hlen hchars _ => ?_, fun hcond => ?_⟩
    · by_contra hnone
      refine hfree (hdecides.accepted.mpr ⟨hlen, hchars, fun j a hj ha heq => ?_⟩)
      exact hnone ⟨j, hj, a, ha, heq⟩
    · refine ⟨iff_of_false hfree ?_, fun _ => rfl⟩
      rintro ⟨hlen, hchars, hunused⟩
      obtain ⟨j, hj, a, ha, heq⟩ := hcond hlen hchars (hrefused hlen hchars)
      exact hunused j a hj ha heq

end Decision

/-! ### The call of the handler -/

section Call

variable {opened : ℕ → Bool} {lfd : ℕ} {s t : Server} {fd : ℕ} {inp : Input}
  {word name : List Byte}

theorem decidesAlias_afterRead :
    DecidesAlias (s.afterRead fd inp) t fd name ↔ DecidesAlias s t fd name := by
  have hnames : (s.afterRead fd inp).NamedAs = s.NamedAs := Server.namedAs_putInbuff _ _ _
  constructor
  · rintro ⟨haccepted, hrefused⟩
    rw [hnames] at haccepted hrefused
    exact ⟨haccepted, hrefused⟩
  · rintro ⟨haccepted, hrefused⟩
    rw [← hnames] at haccepted hrefused
    exact ⟨haccepted, hrefused⟩

/-- **When a request for an alias is decided right.** In a reachable state without descriptor 0 and
for a client without alias, the decision about a non-empty alias is right if and only if the alias
is too long, or has a character that is not allowed, or no other client has an alias that begins
with it, or one of them has this alias itself, all without regard to case. -/
theorem decidesAlias_iff (h : Reachable opened lfd s) (h0 : s.read.fds 0 = false)
    (hactive : (s.clients fd).active = true) (hhas : (s.clients fd).hasAlias = false)
    (htext : s.processed fd inp = some (word ++ name)) (hword : lower word = magicStrAlias)
    (hname : name ≠ []) :
    ∃ t answer, (s.afterRead fd inp).decideAlias fd name = .ok (t, answer) ∧
      s.callHandler fd inp = t.writeAndFlush fd answer (inp.writes fd) ∧
      (DecidesAlias s t fd name ↔
        (name.length ≤ aliasMaxlen → (∀ c ∈ name, c ∈ aliasAllowedChars) →
          (∃ j, s.Continues fd name j) → ∃ j, s.Addresses fd name j)) := by
  have hnul := zero_notMem_of_processed htext
  have hlen : word.length = magicStrAlias.length := by rw [← hword, length_lower]
  obtain ⟨inbuff, hclient⟩ := s.afterRead_clients fd inp fd
  obtain ⟨t, answer, hdecide, hiff⟩ := (h.named.afterRead fd inp).decides_iff h0
    ((s.afterRead_active fd inp fd).trans hactive) (by rw [hclient]; exact hhas)
    fun hmem => hnul (List.mem_append_right word hmem)
  refine ⟨t, answer, hdecide, ?_, ?_⟩
  · rw [h.registered.callHandler_of_processed hactive htext, commandOf_of_alias hnul hword hname,
      Server.runCommand, Server.processAlias_eq, ← hlen, List.drop_left, hdecide, ok_bind]
  · rw [← decidesAlias_afterRead, hiff, Server.afterRead, Server.continues_putInbuff,
      Server.addresses_putInbuff]

end Call

/-! ### An alias that is refused -/

/-- The clients 4 and 5 connect, and client 4 sets the alias `bob`. -/
def takenRounds : List Round :=
  [fullRound 3 4 [], fullRound 3 5 [], fullRound 4 4 (str "\\alias bob")]

theorem takenRounds_valid : ∀ round ∈ takenRounds, round.Valid := by
  simp only [takenRounds, List.forall_mem_cons]
  refine ⟨?_, ?_, ?_, fun _ h => absurd h List.not_mem_nil⟩ <;>
    exact fullRound_valid (by decide) _

/-- After these rounds the clients are 4 with the alias `bob`, and 5 without alias, which asks for
the alias `bo` in vain. -/
theorem exists_takenRounds : ∃ s : Server, Reachable (fun _ => false) 3 s ∧
    s.read.fds 0 = false ∧ (s.clients 5).active = true ∧ (s.clients 5).hasAlias = false ∧
    s.NamedAs 4 (str "bob") ∧ s.activeClients = [4, 5] ∧
    ∀ t answer, (s.afterRead 5 (fullInput 4 (str "\\alias bo") s)).decideAlias 5 (str "bo") =
      .ok (t, answer) → (t.clients 5).hasAlias = false := by
  have hrun : ((serverMain (fun _ => false) 3).handleRounds takenRounds).map (fun s =>
      !s.read.fds 0 && (s.clients 5).active && !(s.clients 5).hasAlias && (s.clients 4).active &&
        (s.clients 4).hasAlias && decide ((s.clients 4).aliasStr = str "bob") &&
        decide (s.activeClients = [4, 5]) &&
        decide (((s.afterRead 5 (fullInput 4 (str "\\alias bo") s)).decideAlias 5
          (str "bo")).map (fun d => (d.1.clients 5).hasAlias) = .ok false)) = .ok true := by
    decide +kernel
  obtain ⟨s, hs, hfacts⟩ := exists_of_map_eq_ok hrun
  simp only [Bool.and_eq_true, Bool.not_eq_true', decide_eq_true_eq] at hfacts
  obtain ⟨⟨⟨⟨⟨⟨⟨h0, hactive⟩, hhas⟩, hbob⟩, halias⟩, hname⟩, hclients⟩, hrefused⟩ := hfacts
  refine ⟨s, (LoopReachable.main.handleRounds takenRounds_valid hs).reachable, h0, hactive, hhas,
    ⟨hbob, halias, hname⟩, hclients, fun t answer hdecide => ?_⟩
  rw [hdecide] at hrefused
  exact Except.ok.inj hrefused

/-- There are no other clients than these two. -/
theorem Reachable.eq_or_eq {s : Server} (h : Reachable (fun _ => false) 3 s)
    (hclients : s.activeClients = [4, 5]) {j : ℕ} (hj : (s.clients j).active = true) :
    j = 4 ∨ j = 5 := by
  have hmem : j ∈ s.activeClients := mem_activeClients.mpr ⟨h.lt_fdSetSize j hj, hj⟩
  rw [hclients] at hmem
  simpa using hmem

/-- The only alias that the client 5 can meet is `bob`. -/
theorem Reachable.eq_bob {s : Server} (h : Reachable (fun _ => false) 3 s)
    (hclients : s.activeClients = [4, 5]) (hbob : s.NamedAs 4 (str "bob")) {j : ℕ} {a : List Byte}
    (hj : j ≠ 5) (ha : s.NamedAs j a) : a = str "bob" := by
  obtain rfl := (h.eq_or_eq hclients ha.1).resolve_right hj
  exact ha.2.2.symm.trans hbob.2.2

theorem Reachable.processed_alias_bo {s : Server} (h : Reachable (fun _ => false) 3 s)
    (hactive : (s.clients 5).active = true) :
    s.processed 5 (fullInput 4 (str "\\alias bo") s) = some (magicStrAlias ++ str "bo") :=
  (h.registered.processed_fullInput hactive 4 (by decide) (by decide) (by decide)).trans
    (congrArg some (by decide))

/-- After these rounds the client 5 asks for `bo`, which is decided wrong, and for `BOB`, which is
decided right. -/
theorem decidesAlias_iff_bo : ∃ s t t' : Server,
    ¬DecidesAlias s t 5 (str "bo") ∧ DecidesAlias s t' 5 (str "BOB") := by
  obtain ⟨s, hs, h0, hactive, hhas, hbob, hclients, -⟩ := exists_takenRounds
  have hBOB : s.processed 5 (fullInput 4 (str "\\alias BOB") s) =
      some (magicStrAlias ++ str "BOB") :=
    (hs.registered.processed_fullInput hactive 4 (by decide) (by decide) (by decide)).trans
      (congrArg some (by decide))
  obtain ⟨t, -, -, -, hiff⟩ := decidesAlias_iff hs h0 hactive hhas (hs.processed_alias_bo hactive)
    (by decide) (by decide)
  obtain ⟨t', -, -, -, hiff'⟩ := decidesAlias_iff hs h0 hactive hhas hBOB (by decide) (by decide)
  refine ⟨s, t, t', fun hright => ?_, hiff'.mpr fun _ _ _ => ⟨4, by decide, _, hbob, by decide⟩⟩
  obtain ⟨j, hj, a, ha, heq⟩ := hiff.mp hright (by decide) (by decide +kernel)
    ⟨4, by decide, _, hbob, by decide⟩
  rw [hs.eq_bob hclients hbob hj ha] at heq
  exact absurd heq (by decide)

/-- **An alias can be refused without being in use**: one that begins the alias of another
client. -/
theorem not_forall_decidesAlias :
    ¬∀ (opened : ℕ → Bool) (lfd : ℕ) (s : Server) (fd : ℕ) (word name : List Byte) (inp : Input),
      Reachable opened lfd s → s.read.fds 0 = false → (s.clients fd).active = true →
      (s.clients fd).hasAlias = false → s.processed fd inp = some (word ++ name) →
      lower word = magicStrAlias → name ≠ [] →
      ∃ t answer, (s.afterRead fd inp).decideAlias fd name = .ok (t, answer) ∧
        DecidesAlias s t fd name := by
  intro hall
  obtain ⟨s, hs, h0, hactive, hhas, hbob, hclients, hrefused⟩ := exists_takenRounds
  obtain ⟨t, answer, hdecide, hright⟩ := hall _ 3 s 5 magicStrAlias (str "bo")
    (fullInput 4 (str "\\alias bo") s) hs h0 hactive hhas (hs.processed_alias_bo hactive)
    (by decide) (by decide)
  have hnamed := hright.accepted.mpr ⟨by decide, by decide +kernel, fun j a hj ha => by
    rw [hs.eq_bob hclients hbob hj ha]
    decide⟩
  have hfalse := hrefused t answer hdecide
  rw [hnamed.2.1] at hfalse
  cases hfalse

end TikFachpraktika.Chat
