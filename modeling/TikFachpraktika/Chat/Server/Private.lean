import TikFachpraktika.Chat.Server.Names

/-!
# Private messages

`server_process_private` of `6_network/server.c` takes at most `ALIAS_MAXLEN` characters of the
name behind `@`, and gives the message to the first client whose alias begins with them.

## Main definitions

* `IsPrivate`: the messages `@t m`.
* `Server.Addresses`: the client whose alias is the name, without regard to case.
* `DeliversPrivate`: the addressed client and the sender get the message, or the sender is told
  that there is no such client.

## Main results

* `Named.deliversPrivate_iff`: the message is delivered if and only if the first client whose alias
  continues the name, cut off after `ALIAS_MAXLEN` characters, is the addressed one.
-/

namespace TikFachpraktika.Chat

open Posix

/-- The message `@t m`: `t` is the word behind `@`, and `rest` is what follows it. -/
structure IsPrivate (t rest : List Byte) : Prop where
  ne_nil : t ≠ []
  space_notMem : (32 : Byte) ∉ t
  zero_notMem : (0 : Byte) ∉ t ++ rest
  head_rest : ∀ c ∈ rest.head?, c = 32
  length_lt : (64 :: (t ++ rest)).length < initQsiz / 2

/-! ### The name in the message -/

/-- **The loop takes the word**, as far as its `n` steps reach. -/
theorem privateLoop_eq {rest : List Byte} (hrest : ∀ c ∈ rest.head?, c = 32) : (n : ℕ) →
    (t name : List Byte) → (msg : Option (List Byte)) → (32 : Byte) ∉ t → (0 : Byte) ∉ t →
    Server.privateLoop n (t ++ rest) name msg = (name ++ t.take n,
      if n = 0 ∨ t = [] then msg else some ((t ++ rest).drop (min n t.length)))
  | 0, t, name, msg, _, _ => by
      rw [Server.privateLoop, List.take_zero, List.append_nil, if_pos (.inl rfl)]
  | n + 1, [], name, msg, _, _ => by
      have hstop : rest.headD 0 = 32 ∨ rest.headD 0 = 0 := by
        cases rest with
        | nil => exact .inr rfl
        | cons c rest => exact .inl (hrest c rfl)
      rw [List.nil_append, Server.privateLoop, if_pos hstop, List.take_nil, List.append_nil,
        if_pos (.inr rfl)]
  | n + 1, c :: t, name, msg, hspace, hzero => by
      have hgo : ¬(c = 32 ∨ c = 0) := by
        rintro (rfl | rfl)
        · exact hspace List.mem_cons_self
        · exact hzero List.mem_cons_self
      have hsome : ¬(n + 1 = 0 ∨ c :: t = []) := by simp
      rw [List.cons_append, Server.privateLoop, List.headD_cons, List.tail_cons,
        if_neg hgo, privateLoop_eq hrest n t _ _ (fun h => hspace (List.mem_cons_of_mem _ h))
        (fun h => hzero (List.mem_cons_of_mem _ h)), List.take_succ_cons, List.append_assoc,
        List.singleton_append, if_neg hsome, List.length_cons, Nat.add_min_add_right,
        List.drop_succ_cons]
      split_ifs with hend
      · have hmin : min n t.length = 0 := by
          rcases hend with rfl | rfl <;> simp
        rw [hmin, List.drop_zero]
      · rfl

theorem IsPrivate.privateLoop {t rest : List Byte} (h : IsPrivate t rest) :
    Server.privateLoop aliasMaxlen (t ++ rest) [] none =
      (t.take aliasMaxlen, some ((t ++ rest).drop (min aliasMaxlen t.length))) := by
  have hzero : (0 : Byte) ∉ t := fun h0 => h.zero_notMem (List.mem_append_left _ h0)
  rw [privateLoop_eq h.head_rest _ _ _ _ h.space_notMem hzero, List.nil_append,
    if_neg (not_or.mpr ⟨by decide, h.ne_nil⟩)]

/-! ### The two messages -/

namespace Server

/-- What is queued for the sender of a private message. -/
def privateCopy (s : Server) (fd j : ℕ) (msg : List Byte) : List (List Byte) :=
  [s.getClientRepr fd, str " (-> ", s.getClientRepr j, str "): ", msg]

/-- What is queued for the receiver of a private message. -/
def privateText (s : Server) (fd : ℕ) (msg : List Byte) : List (List Byte) :=
  [s.getClientRepr fd, str " [priv] :", msg]

/-- What is queued for the sender when the name is not found. -/
def aliasNotFound : List (List Byte) :=
  [str "<Server @ cmd>: Alias not found."]

/-- The client `j` has the alias `t`, without regard to case. -/
def Addresses (s : Server) (fd : ℕ) (t : List Byte) (j : ℕ) : Prop :=
  j ≠ fd ∧ ∃ a, s.NamedAs j a ∧ lower a = lower t

end Server

section Process

variable {lfd : ℕ} {s : Server} {fd j : ℕ} {t rest msg : List Byte} {inp : Input}

theorem fits_aliasNotFound : Fits Server.aliasNotFound where
  zero_notMem := by decide
  ne_nil := by decide
  length_lt := by decide

theorem Named.fits_privateCopy (h : Named lfd s) (hfd : (s.clients fd).active = true)
    (hj : (s.clients j).active = true) (hmsg : (0 : Byte) ∉ msg)
    (hlen : msg.length < initQsiz / 2) : Fits (s.privateCopy fd j msg) where
  zero_notMem := by
    have harrow : (0 : Byte) ∉ str " (-> " ∧ (0 : Byte) ∉ str "): " := by decide
    simp only [Server.privateCopy, List.forall_mem_cons]
    exact ⟨h.zero_notMem_getClientRepr hfd, harrow.1, h.zero_notMem_getClientRepr hj, harrow.2,
      hmsg, nofun⟩
  ne_nil h0 := by
    have harrow := List.flatten_eq_nil_iff.mp h0 (str " (-> ") (by simp [Server.privateCopy])
    exact absurd harrow (by decide)
  length_lt := by
    have hstr : (str " (-> ").length = 5 ∧ (str "): ").length = 3 := by decide
    have hsmall : 2 * aliasMaxlen + 8 + initQsiz / 2 < initQsiz := by decide
    have hfdlen := h.getClientRepr_length_le hfd
    have hjlen := h.getClientRepr_length_le hj
    simp only [Server.privateCopy, List.flatten_cons, List.flatten_nil, List.length_append,
      List.length_nil]
    omega

theorem Named.fits_privateText (h : Named lfd s) (hfd : (s.clients fd).active = true)
    (hmsg : (0 : Byte) ∉ msg) (hlen : msg.length < initQsiz / 2) :
    Fits (s.privateText fd msg) where
  zero_notMem := by
    have hpriv : (0 : Byte) ∉ str " [priv] :" := by decide
    simp only [Server.privateText, List.forall_mem_cons]
    exact ⟨h.zero_notMem_getClientRepr hfd, hpriv, hmsg, nofun⟩
  ne_nil h0 := by
    have hpriv := List.flatten_eq_nil_iff.mp h0 (str " [priv] :") (by simp [Server.privateText])
    exact absurd hpriv (by decide)
  length_lt := by
    have hstr : (str " [priv] :").length = 9 := by decide
    have hsmall : aliasMaxlen + 9 + initQsiz / 2 < initQsiz := by decide
    have hfdlen := h.getClientRepr_length_le hfd
    simp only [Server.privateText, List.flatten_cons, List.flatten_nil, List.length_append,
      List.length_nil]
    omega

/-- Between two calls of handlers a text is sent at once. -/
theorem Named.send (h : Named lfd s) (hactive : (s.clients fd).active = true)
    {data : List (List Byte)} (hdata : Fits data)
    (hwrites : ∃ answers, inp.writes fd = .full :: answers) :
    s.writeAndFlush fd data (inp.writes fd) = .ok (s.afterSend fd data.flatten) ∧
      Named lfd (s.afterSend fd data.flatten) := by
  obtain ⟨answers, hanswers⟩ := hwrites
  have hready : (s.clients fd).Ready :=
    ⟨h.registered.sound fd, hactive, h.drained fd hactive⟩
  have hsend : s.writeAndFlush fd data (.full :: answers) = .ok (s.afterSend fd data.flatten) :=
    Server.writeAndFlush_full hready hdata
  rw [hanswers]
  exact ⟨hsend, (closed_named lfd).writeAndFlush h hsend⟩

/-- What `server_process_private` does with a message. -/
theorem IsPrivate.processPrivate_eq (ht : IsPrivate t rest) :
    s.processPrivate fd inp (64 :: (t ++ rest)) = (do
      match ← s.findClient (s.nameMatches fd (t.take aliasMaxlen)) with
      | none => s.writeAndFlush fd Server.aliasNotFound (inp.writes fd)
      | some j =>
        let msg := (t ++ rest).drop (min aliasMaxlen t.length)
        let s ← s.writeAndFlush fd (s.privateCopy fd j msg) (inp.writes fd)
        s.writeAndFlush j (s.privateText fd (s.textOf fd inp msg j)) (inp.writes j)) := by
  rw [Server.processPrivate, show (64 :: (t ++ rest)).drop magicStrPrivate.length = t ++ rest
    from rfl, ht.privateLoop]
  rfl

theorem IsPrivate.zero_notMem_take (h : IsPrivate t rest) : (0 : Byte) ∉ t.take aliasMaxlen :=
  fun h0 => h.zero_notMem (List.mem_append_left _ (List.mem_of_mem_take h0))

/-- Without a client that continues the name the sender is told so. -/
theorem Named.processPrivate_of_none (h : Named lfd s) (h0 : s.read.fds 0 = false)
    (hactive : (s.clients fd).active = true) (ht : IsPrivate t rest)
    (hwrites : ∀ i, ∃ answers, inp.writes i = .full :: answers)
    (hnone : ∀ j, ¬s.Continues fd (t.take aliasMaxlen) j) :
    s.processPrivate fd inp (64 :: (t ++ rest)) =
      .ok (s.afterSend fd Server.aliasNotFound.flatten) := by
  have hfind := (h.registered.findClient_eq_none_iff h0 h.isAlias ht.zero_notMem_take).mpr hnone
  rw [ht.processPrivate_eq, hfind, ok_bind]
  exact (h.send hactive fits_aliasNotFound (hwrites fd)).1

/-- The first client that continues the name gets the message. -/
theorem Named.processPrivate_of_some (h : Named lfd s) (h0 : s.read.fds 0 = false)
    (hactive : (s.clients fd).active = true) (ht : IsPrivate t rest)
    (hwrites : ∀ i, ∃ answers, inp.writes i = .full :: answers)
    (hj : s.Continues fd (t.take aliasMaxlen) j)
    (hfirst : ∀ k < j, ¬s.Continues fd (t.take aliasMaxlen) k) :
    let msg := (t ++ rest).drop (min aliasMaxlen t.length)
    s.processPrivate fd inp (64 :: (t ++ rest)) =
      .ok ((s.afterSend fd (s.privateCopy fd j msg).flatten).afterSend j
        (s.privateText fd msg).flatten) := by
  intro msg
  have hfind := (h.registered.findClient_eq_some_iff h0 h.isAlias ht.zero_notMem_take j).mpr
    ⟨hj, hfirst⟩
  obtain ⟨hne, a, hnamed, -⟩ := hj
  have hmsg : (0 : Byte) ∉ msg := fun hmem => ht.zero_notMem (List.mem_of_mem_drop hmem)
  have hmsglen : msg.length < initQsiz / 2 := by
    have hlt := ht.length_lt
    rw [List.length_cons] at hlt
    rw [List.length_drop]
    omega
  obtain ⟨hsend, hafter⟩ := h.send hactive (h.fits_privateCopy hactive hnamed.1 hmsg hmsglen)
    (hwrites fd)
  set s₁ := s.afterSend fd (s.privateCopy fd j msg).flatten
  have hfdclient : s₁.clients fd = { s.clients fd with outUsed := 0, outbuff := some [] } :=
    s.afterSend_clients_self fd _
  have hjclient : s₁.clients j = s.clients j := s.afterSend_clients_of_ne fd _ hne
  have hrepr : s₁.privateText fd msg = s.privateText fd msg := by
    rw [Server.privateText, Server.privateText, Server.getClientRepr, Server.getClientRepr,
      hfdclient]
  have htext : s₁.textOf fd inp msg j = msg := by
    rw [Server.textOf, hfdclient]
    exact if_pos ((h.registered.sound fd).input hactive).2
  have hsend' := (hafter.send (by rw [hjclient]; exact hnamed.1)
    (hrepr ▸ h.fits_privateText hactive hmsg hmsglen) (hwrites j)).1
  rw [ht.processPrivate_eq, hfind, ok_bind]
  dsimp only
  rw [hsend, ok_bind, htext, hsend', hrepr]

end Process

/-! ### Delivery -/

/-- The message of `fd` is delivered as the name says: the addressed client and the sender get
it, or the sender is told that there is no such client. -/
structure DeliversPrivate (s s' : Server) (fd : ℕ) (t rest : List Byte) : Prop where
  addressed : ∀ j, s.Addresses fd t j → s'.sent =
    Function.update
      (Function.update s.sent fd (s.sent fd ++ frame (s.privateCopy fd j rest).flatten))
      j (s.sent j ++ frame (s.privateText fd rest).flatten)
  notFound : (∀ j, ¬s.Addresses fd t j) → s'.sent =
    Function.update s.sent fd (s.sent fd ++ frame Server.aliasNotFound.flatten)

section Delivery

variable {lfd : ℕ} {s s' : Server} {fd j : ℕ} {t rest : List Byte} {inp : Input}

theorem Named.length_le_of_addresses (h : Named lfd s) (hj : s.Addresses fd t j) :
    t.length ≤ aliasMaxlen := by
  obtain ⟨-, a, hnamed, hlower⟩ := hj
  rw [← length_lower t, ← hlower, length_lower]
  exact (h.isAlias j a hnamed).length_le

/-- The addressed client is one of those that continue the name. -/
theorem Named.continues_of_addresses (h : Named lfd s) (hj : s.Addresses fd t j) :
    s.Continues fd (t.take aliasMaxlen) j := by
  rw [List.take_of_length_le (h.length_le_of_addresses hj)]
  obtain ⟨hne, a, hnamed, hlower⟩ := hj
  exact ⟨hne, a, hnamed, hlower ▸ List.prefix_rfl⟩

theorem Named.eq_of_addresses (h : Named lfd s) {k : ℕ} (hj : s.Addresses fd t j)
    (hk : s.Addresses fd t k) : j = k := by
  obtain ⟨-, a, ha, hta⟩ := hj
  obtain ⟨-, b, hb, htb⟩ := hk
  exact h.inj j k a b ha hb (hta.trans htb.symm)

/-- A text that has been sent to a client shows. -/
theorem update_frame_ne {sent f : ℕ → List Byte} (hf : f j = sent j) (g : ℕ → List Byte)
    (text : List Byte) : Function.update g j (sent j ++ frame text) ≠ f := fun heq => by
  have hj := congrFun heq j
  rw [Function.update_self, hf] at hj
  exact frame_ne_nil text (List.append_right_eq_self.mp hj)

/-- A message that has been given to the client `j` is delivered if and only if `j` is the addressed
client. -/
theorem Named.deliversPrivate_iff_addresses (h : Named lfd s) (hne : j ≠ fd)
    (hsent : s'.sent = Function.update
      (Function.update s.sent fd (s.sent fd ++ frame (s.privateCopy fd j
        ((t ++ rest).drop (min aliasMaxlen t.length))).flatten))
      j (s.sent j ++ frame (s.privateText fd
        ((t ++ rest).drop (min aliasMaxlen t.length))).flatten)) :
    DeliversPrivate s s' fd t rest ↔ s.Addresses fd t j := by
  constructor
  · intro hdeliver
    by_contra hother
    by_cases haddr : ∃ i, s.Addresses fd t i
    · obtain ⟨i, hi⟩ := haddr
      have hji : j ≠ i := fun heq => hother (heq ▸ hi)
      refine update_frame_ne ?_ _ _ (hsent.symm.trans (hdeliver.addressed i hi))
      rw [Function.update_of_ne hji, Function.update_of_ne hne]
    · refine update_frame_ne ?_ _ _ (hsent.symm.trans (hdeliver.notFound ?_))
      · rw [Function.update_of_ne hne]
      · exact not_exists.mp haddr
  · intro haddr
    refine ⟨fun i hi => ?_, fun hno => absurd haddr (hno j)⟩
    obtain rfl := h.eq_of_addresses hi haddr
    have hmsg : (t ++ rest).drop (min aliasMaxlen t.length) = rest := by
      rw [Nat.min_eq_right (h.length_le_of_addresses hi), List.drop_left]
    rw [hsent, hmsg]

/-- **When a private message is delivered**, for the text in `inbuff`. -/
theorem Named.deliversPrivate_iff (h : Named lfd s) (h0 : s.read.fds 0 = false)
    (hactive : (s.clients fd).active = true) (ht : IsPrivate t rest)
    (hwrites : ∀ i, ∃ answers, inp.writes i = .full :: answers) :
    ∃ s', s.processPrivate fd inp (64 :: (t ++ rest)) = .ok s' ∧
      (DeliversPrivate s s' fd t rest ↔
        ∀ j, s.Continues fd (t.take aliasMaxlen) j →
          (∀ k < j, ¬s.Continues fd (t.take aliasMaxlen) k) → s.Addresses fd t j) := by
  by_cases hnone : ∀ j, ¬s.Continues fd (t.take aliasMaxlen) j
  · refine ⟨_, h.processPrivate_of_none h0 hactive ht hwrites hnone, ?_⟩
    refine iff_of_true ⟨fun j hj => ?_, fun _ => s.afterSend_sent fd _⟩ fun j hj => ?_
    · exact absurd (h.continues_of_addresses hj) (hnone j)
    · exact absurd hj (hnone j)
  · classical
    have hsome : ∃ j, s.Continues fd (t.take aliasMaxlen) j := not_forall_not.mp hnone
    obtain ⟨j, hj, hfirst⟩ : ∃ j, s.Continues fd (t.take aliasMaxlen) j ∧
        ∀ k < j, ¬s.Continues fd (t.take aliasMaxlen) k :=
      ⟨Nat.find hsome, Nat.find_spec hsome, fun k hk => Nat.find_min hsome hk⟩
    refine ⟨_, h.processPrivate_of_some h0 hactive ht hwrites hj hfirst, ?_⟩
    rw [h.deliversPrivate_iff_addresses hj.1 (by
      rw [Server.afterSend_sent, Server.afterSend_sent, Function.update_of_ne hj.1])]
    constructor
    · intro haddr k hk hkfirst
      obtain rfl : k = j := by
        rcases lt_trichotomy k j with hlt | heq | hgt
        · exact absurd hk (hfirst k hlt)
        · exact heq
        · exact absurd hj (hkfirst j hgt)
      exact haddr
    · exact fun hcond => hcond j hj hfirst

end Delivery

/-! ### The call of the handler -/

section PutInbuff

variable (s : Server) (fd : ℕ) (bytes : List Byte)

/-- A `read` changes the `inbuff` of its client only. -/
theorem Server.putInbuff_clients (i : ℕ) : ∃ inbuff,
    (s.putInbuff fd bytes).clients i = { s.clients i with inbuff := inbuff } := by
  by_cases hi : i = fd
  · subst hi
    exact ⟨_, Server.setClient_clients_self ..⟩
  · exact ⟨(s.clients i).inbuff, Server.setClient_clients_of_ne _ _ _ hi⟩

theorem Server.namedAs_putInbuff : (s.putInbuff fd bytes).NamedAs = s.NamedAs := by
  funext i name
  obtain ⟨inbuff, hclient⟩ := s.putInbuff_clients fd bytes i
  rw [Server.NamedAs, hclient, Server.NamedAs]

theorem Server.getClientRepr_putInbuff :
    (s.putInbuff fd bytes).getClientRepr = s.getClientRepr := by
  funext i
  obtain ⟨inbuff, hclient⟩ := s.putInbuff_clients fd bytes i
  rw [Server.getClientRepr, hclient, Server.getClientRepr]

theorem Server.continues_putInbuff : (s.putInbuff fd bytes).Continues = s.Continues := by
  funext i name j
  rw [Server.Continues, Server.Continues, Server.namedAs_putInbuff]

theorem Server.addresses_putInbuff : (s.putInbuff fd bytes).Addresses = s.Addresses := by
  funext i t j
  rw [Server.Addresses, Server.Addresses, Server.namedAs_putInbuff]

theorem deliversPrivate_putInbuff {s' : Server} {t rest : List Byte} :
    DeliversPrivate (s.putInbuff fd bytes) s' fd t rest ↔ DeliversPrivate s s' fd t rest := by
  have hcopy : (s.putInbuff fd bytes).privateCopy = s.privateCopy := by
    funext i j msg
    rw [Server.privateCopy, Server.privateCopy, Server.getClientRepr_putInbuff]
  have htext : (s.putInbuff fd bytes).privateText = s.privateText := by
    funext i msg
    rw [Server.privateText, Server.privateText, Server.getClientRepr_putInbuff]
  have hsent : (s.putInbuff fd bytes).sent = s.sent := rfl
  constructor
  · rintro ⟨haddr, hno⟩
    rw [Server.addresses_putInbuff, hsent] at haddr hno
    rw [hcopy, htext] at haddr
    exact ⟨haddr, hno⟩
  · rintro ⟨haddr, hno⟩
    refine ⟨?_, ?_⟩
    · rw [Server.addresses_putInbuff, hsent, hcopy, htext]
      exact haddr
    · rw [Server.addresses_putInbuff, hsent]
      exact hno

end PutInbuff

section Call

variable {lfd : ℕ} {s : Server} {fd : ℕ} {inp : Input}

theorem Registered.f_eq_of_active (h : Registered lfd s) (hactive : (s.clients fd).active = true) :
    s.read.f fd = some .processClient := by
  obtain ⟨hfds, hne⟩ := (h.active_iff fd).mp hactive
  rw [h.f_eq, if_pos hfds, if_neg hne]

/-- A string without NUL that does not fill `inbuff` is processed as it is. -/
theorem Registered.callHandler_eq (h : Registered lfd s) (hactive : (s.clients fd).active = true)
    {text : List Byte} (hread : inp.read = some text) (hne : text ≠ [])
    (hnul : (0 : Byte) ∉ text) (hlt : text.length < initQsiz) :
    s.callHandler fd inp = (s.putInbuff fd text).processString fd inp text := by
  have hlen : (s.clients fd).inLen = initQsiz := ((h.sound fd).input hactive).1
  have htake : (inp.read.getD []).take (s.clients fd).inLen = text := by
    rw [hread, hlen, Option.getD_some, List.take_of_length_le hlt.le]
  have hstring : Server.inString (s.clients fd).inLen text inp.beyond = text := by
    rw [Server.inString, hlen, if_pos hlt, cstr_of_notMem hnul]
  rw [Server.callHandler, h.f_eq_of_active hactive]
  dsimp only
  rw [Server.processClient, htake, hstring, if_neg (not_or.mpr ⟨hne, hne⟩)]
  rfl

/-- A text that begins with `@` is a private message. -/
theorem Server.processString_at (text : List Byte) :
    s.processString fd inp (64 :: text) = s.processPrivate fd inp (64 :: text) := by
  have hmagic : ∀ m ∈ [magicStrWho, magicStrAlias, magicStrHelp, magicStrCow],
      0 < m.length ∧ m.headD 0 ≠ 0 ∧ tolower 64 ≠ tolower (m.headD 0) := by decide
  have hother : ∀ m ∈ [magicStrWho, magicStrAlias, magicStrHelp, magicStrCow],
      strnicmp (64 :: text) m m.length ≠ 0 := fun m hm =>
    strnicmp_ne_zero_of_headD (hmagic m hm).1 (by simp) (hmagic m hm).2.1 (hmagic m hm).2.2
  have hat : strncmp magicStrPrivate.length (64 :: text) magicStrPrivate = 0 := rfl
  rw [Server.processString, if_neg (fun h => hother _ (by simp) h.2),
    if_neg (fun h => hother _ (by simp) h.2), if_neg (fun h => hother _ (by simp) h.2),
    if_neg (fun h => hother _ (by simp) h.2), if_pos hat]

/-- **When a private message is delivered.** In a reachable state without descriptor 0, and with
every write succeeding in full, the message `@t m` is delivered as the name says if and only if
the first client whose alias begins with `t`, cut off after `ALIAS_MAXLEN` characters, has the
alias `t`; there may be no such client. -/
theorem deliversPrivate_callHandler_iff {opened : ℕ → Bool} (h : Reachable opened lfd s)
    (h0 : s.read.fds 0 = false) (hactive : (s.clients fd).active = true) {t rest : List Byte}
    (ht : IsPrivate t rest) (hread : inp.read = some (64 :: (t ++ rest)))
    (hwrites : ∀ i, ∃ answers, inp.writes i = .full :: answers) :
    ∃ s', s.callHandler fd inp = .ok s' ∧
      (DeliversPrivate s s' fd t rest ↔
        ∀ j, s.Continues fd (t.take aliasMaxlen) j →
          (∀ k < j, ¬s.Continues fd (t.take aliasMaxlen) k) → s.Addresses fd t j) := by
  have hnul : (0 : Byte) ∉ 64 :: (t ++ rest) := fun hmem =>
    (List.mem_cons.mp hmem).elim (by decide) ht.zero_notMem
  have hlt : (64 :: (t ++ rest)).length < initQsiz := ht.length_lt.trans (by decide)
  have hnamed : Named lfd (s.putInbuff fd (64 :: (t ++ rest))) :=
    (closed_named lfd).putInbuff _ h.named
  have hactive' : ((s.putInbuff fd (64 :: (t ++ rest))).clients fd).active = true := by
    rw [Server.putInbuff, Server.setClient_clients_self]
    exact hactive
  obtain ⟨s', hcall, hiff⟩ := hnamed.deliversPrivate_iff h0 hactive' ht hwrites
  refine ⟨s', ?_, ?_⟩
  · rw [h.registered.callHandler_eq hactive hread (List.cons_ne_nil _ _) hnul hlt,
      Server.processString_at, hcall]
  · rw [← deliversPrivate_putInbuff, hiff, Server.continues_putInbuff, Server.addresses_putInbuff]

end Call

/-! ### A message for the wrong client -/

/-- The clients 4, 5 and 6 connect to the server on descriptor 3, client 5 sets the alias `bob`,
and then client 4 the alias `bobby`. -/
def bobRounds : List Round :=
  [fullRound 3 4 [], fullRound 3 5 [], fullRound 3 6 [], fullRound 5 4 (str "\\alias bob"),
    fullRound 4 4 (str "\\alias bobby")]

theorem bobRounds_valid : ∀ round ∈ bobRounds, round.Valid := by
  simp only [bobRounds, List.forall_mem_cons]
  refine ⟨?_, ?_, ?_, ?_, ?_, nofun⟩ <;> exact fullRound_valid (by decide) _

theorem isPrivate_hi {t : List Byte} (hne : t ≠ []) (hspace : (32 : Byte) ∉ t)
    (hzero : (0 : Byte) ∉ t ++ str " hi") (hlen : t.length ≤ aliasMaxlen) :
    IsPrivate t (str " hi") where
  ne_nil := hne
  space_notMem := hspace
  zero_notMem := hzero
  head_rest c hc := by
    have hhead : (str " hi").head? = some 32 := by decide
    rw [hhead] at hc
    exact (Option.some.inj hc).symm
  length_lt := by
    have hhi : (str " hi").length = 3 := by decide
    rw [List.length_cons, List.length_append, hhi, initQsiz]
    rw [aliasMaxlen] at hlen
    omega

theorem isPrivate_bob : IsPrivate (str "bob") (str " hi") :=
  isPrivate_hi (by decide) (by decide) (by decide) (by decide)

theorem read_bob (s : Server) : (fullInput 4 (str "@bob hi") s).read =
    some (64 :: (str "bob" ++ str " hi")) :=
  congrArg some (by decide)

/-- After these rounds client 4 is the first one and has the alias `bobby`, and the message
`@bob hi` of client 6 does not reach client 5, which has the alias `bob`. -/
theorem exists_bobRounds : ∃ s : Server, Reachable (fun _ => false) 3 s ∧
    s.read.fds 0 = false ∧ (s.clients 6).active = true ∧ s.NamedAs 4 (str "bobby") ∧
    (∀ k < 4, (s.clients k).active = false) ∧ s.NamedAs 5 (str "bob") ∧
    ∀ s', s.callHandler 6 (fullInput 4 (str "@bob hi") s) = .ok s' → s'.sent 5 = s.sent 5 := by
  have hrun : ((serverMain (fun _ => false) 3).handleRounds bobRounds).map (fun s =>
      !s.read.fds 0 && (s.clients 6).active &&
        ((s.clients 4).active && (s.clients 4).hasAlias &&
          decide ((s.clients 4).aliasStr = str "bobby")) &&
        (List.range 4).all (fun k => !(s.clients k).active) &&
        ((s.clients 5).active && (s.clients 5).hasAlias &&
          decide ((s.clients 5).aliasStr = str "bob")) &&
        decide ((s.callHandler 6 (fullInput 4 (str "@bob hi") s)).map (fun s' => s'.sent 5) =
          .ok (s.sent 5))) = .ok true := by decide +kernel
  obtain ⟨s, hs, hfacts⟩ := exists_of_map_eq_ok hrun
  simp only [Bool.and_eq_true, Bool.not_eq_true', decide_eq_true_eq, List.all_eq_true,
    List.mem_range] at hfacts
  obtain ⟨⟨⟨⟨⟨h0, hactive⟩, ⟨hbobby, hhas₄⟩, halias₄⟩, hfirst⟩, ⟨hbob, hhas⟩, halias⟩, hsent⟩ :=
    hfacts
  refine ⟨s, (LoopReachable.main.handleRounds bobRounds_valid hs).reachable, h0, hactive,
    ⟨hbobby, hhas₄, halias₄⟩, hfirst, ⟨hbob, hhas, halias⟩, fun s' hs' => ?_⟩
  rw [hs'] at hsent
  exact Except.ok.inj hsent

theorem Server.Continues.active {s : Server} {fd j : ℕ} {name : List Byte}
    (h : s.Continues fd name j) : (s.clients j).active = true := by
  obtain ⟨-, _, hnamed, -⟩ := h
  exact hnamed.1

/-- After these rounds the message `@bob hi` of client 6 is not delivered as the name says, and
`@bobby hi` is. -/
theorem deliversPrivate_callHandler_iff_bob : ∃ s : Server,
    (∃ s', s.callHandler 6 (fullInput 4 (str "@bob hi") s) = .ok s' ∧
      ¬DeliversPrivate s s' 6 (str "bob") (str " hi")) ∧
    ∃ s', s.callHandler 6 (fullInput 4 (str "@bobby hi") s) = .ok s' ∧
      DeliversPrivate s s' 6 (str "bobby") (str " hi") := by
  obtain ⟨s, hs, h0, hactive, hbobby, hinactive, -⟩ := exists_bobRounds
  obtain ⟨s₁, hcall₁, hiff₁⟩ := deliversPrivate_callHandler_iff hs h0 hactive isPrivate_bob
    (read_bob s) fun _ => ⟨[], rfl⟩
  have hread : (fullInput 4 (str "@bobby hi") s).read =
      some (64 :: (str "bobby" ++ str " hi")) := congrArg some (by decide)
  obtain ⟨s₂, hcall₂, hiff₂⟩ := deliversPrivate_callHandler_iff hs h0 hactive
    (isPrivate_hi (by decide) (by decide) (by decide) (by decide)) hread fun _ => ⟨[], rfl⟩
  -- no client before the one with the alias `bobby` is active
  have hfirst : ∀ k < 4, ∀ name, ¬s.Continues 6 name k := fun k hk name hcontinues =>
    Bool.false_ne_true ((hinactive k hk).symm.trans hcontinues.active)
  refine ⟨s, ⟨s₁, hcall₁, fun hdeliver => ?_⟩, s₂, hcall₂, hiff₂.mpr fun j hj hmin => ?_⟩
  · obtain ⟨-, a, hnamed, hlower⟩ := hiff₁.mp hdeliver 4 ⟨by decide, _, hbobby, by decide⟩
      fun k hk => hfirst k hk _
    rw [← hnamed.2.2, hbobby.2.2] at hlower
    exact absurd hlower (by decide)
  · have hfour : s.Continues 6 ((str "bobby").take aliasMaxlen) 4 :=
      ⟨by decide, _, hbobby, by decide⟩
    obtain rfl : j = 4 := le_antisymm (not_lt.mp fun hlt => hmin 4 hlt hfour)
      (not_lt.mp fun hlt => hfirst j hlt _ hj)
    exact ⟨by decide, _, hbobby, rfl⟩

/-- **A private message can miss the addressed client**: of the clients `bobby` and `bob` the first
one gets the message `@bob hi`. -/
theorem not_forall_deliversPrivate :
    ¬∀ (opened : ℕ → Bool) (lfd : ℕ) (s : Server) (fd : ℕ) (t rest : List Byte) (inp : Input),
      Reachable opened lfd s → s.read.fds 0 = false → (s.clients fd).active = true →
      IsPrivate t rest → inp.read = some (64 :: (t ++ rest)) →
      (∀ i, ∃ answers, inp.writes i = .full :: answers) →
      ∃ s', s.callHandler fd inp = .ok s' ∧ DeliversPrivate s s' fd t rest := by
  intro hall
  obtain ⟨s, hs, h0, hactive, -, -, hbob, hsent⟩ := exists_bobRounds
  obtain ⟨s', hcall, hdeliver⟩ := hall _ 3 s 6 (str "bob") (str " hi")
    (fullInput 4 (str "@bob hi") s) hs h0 hactive isPrivate_bob (read_bob s)
    fun _ => ⟨[], rfl⟩
  have haddr : s.Addresses 6 (str "bob") 5 := ⟨by decide, _, hbob, rfl⟩
  have hfive := congrFun (hdeliver.addressed 5 haddr) 5
  rw [Function.update_self, hsent s' hcall] at hfive
  exact frame_ne_nil _ (List.append_right_eq_self.mp hfive.symm)

end TikFachpraktika.Chat
