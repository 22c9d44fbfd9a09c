import TikFachpraktika.Chat.Server.Rules

/-!
# The registry of the chat server

The tables `f`, `fds` and `max` of `struct fdvec` and the flags, lengths and buffers of the
clients describe the same set of connections. Connections appear in `server_accept_client` and
disappear in `server_disconnect_client`, which a failed write can reach from inside a loop over
the other clients.

## Main definitions

* `Registry`: the tables agree.
* `Client.Sound`: the buffers of a client agree with its flags and counters.
* `Registered`: the invariant that carries `Registry`.

## Main results

* `closed_registered`: the operations of the handlers keep the invariant.
* `registry_of_loopReachable`: the tables agree whenever the event loop is reached, and the
  `assert` of `server_accept_client` does not fail.
-/

namespace TikFachpraktika.Chat

open Posix

/-- The tables of the server agree: a function is registered exactly for the descriptors in
`fds`, `max` is the greatest of them, the active clients are those besides the listening socket
`lfd`, and the lengths and buffers are those of active and inactive clients. -/
structure Registry (lfd : ℕ) (s : Server) : Prop where
  f_iff : ∀ i, (s.read.f i).isSome ↔ s.read.fds i = true
  max_registered : s.read.fds s.read.max = true
  le_max : ∀ i, s.read.fds i = true → i ≤ s.read.max
  active_iff : ∀ i, (s.clients i).active = true ↔ s.read.fds i = true ∧ i ≠ lfd
  of_active : ∀ i, (s.clients i).active = true →
    (s.clients i).outLen = initQsiz ∧ (s.clients i).inLen = initQsiz ∧
      (s.clients i).outbuff.isSome ∧ (s.clients i).inbuff.isSome
  of_inactive : ∀ i, (s.clients i).active = false →
    (s.clients i).outLen = 0 ∧ (s.clients i).outUsed = 0 ∧ (s.clients i).inLen = 0

/-! ### Clients -/

/-- An active client has its buffers, and `outUsed` is the length of the string in `outbuff`;
an inactive one has no lengths. -/
structure Client.Sound (c : Client) : Prop where
  out : c.active = true → c.outLen = initQsiz ∧
    ∃ b, c.outbuff = some b ∧ (cstr b).length = c.outUsed ∧ c.outUsed < initQsiz
  input : c.active = true → c.inLen = initQsiz ∧ c.inbuff.isSome
  inactive : c.active = false → c.outLen = 0 ∧ c.outUsed = 0 ∧ c.inLen = 0

theorem Client.sound_of_inactive {c : Client} (hactive : c.active = false)
    (hlens : c.outLen = 0 ∧ c.outUsed = 0 ∧ c.inLen = 0) : c.Sound where
  out h := absurd (hactive.symm.trans h) (by decide)
  input h := absurd (hactive.symm.trans h) (by decide)
  inactive _ := hlens

theorem initQsiz_pos : 0 < initQsiz := by decide

theorem initQsiz_lt : initQsiz < 2 ^ 64 := by decide

/-- A new client. -/
theorem Client.sound_connected (caddr : InAddr) :
    Client.Sound ⟨true, caddr, some [], initQsiz, 0, some [], initQsiz, false, []⟩ where
  out := fun _ => ⟨rfl, [], rfl, rfl, initQsiz_pos⟩
  input := fun _ => ⟨rfl, rfl⟩
  inactive := fun h => by cases h

/-- What `server_write_fd_queue` makes of a client. -/
def Client.queue (c : Client) (data : List Byte) : Client :=
  if (c.outLen + 2 ^ 64 - c.outUsed) % 2 ^ 64 > (cstr data).length then
    { c with
      outbuff := c.outbuff.map fun outbuff => (strlcat outbuff (cstr data) c.outLen).2
      outUsed := c.outUsed + (cstr data).length }
  else c

theorem Server.writeFdQueue_eq (s : Server) (fd : ℕ) (data : List Byte) :
    s.writeFdQueue fd data = s.setClient fd ((s.clients fd).queue data) := by
  rw [Server.writeFdQueue, Client.queue]
  split_ifs with hfit
  · rfl
  · rw [Server.setClient, Function.update_eq_self]

theorem Client.queue_active (c : Client) (data : List Byte) :
    (c.queue data).active = c.active := by
  rw [Client.queue]
  split_ifs <;> rfl

/-- The space that is left in the queue of an active client. -/
theorem Client.Sound.space {c : Client} (hc : c.Sound) (hactive : c.active = true) :
    (c.outLen + 2 ^ 64 - c.outUsed) % 2 ^ 64 = initQsiz - c.outUsed := by
  obtain ⟨hlen, b, -, -, hused⟩ := hc.out hactive
  have hlt := initQsiz_lt
  rw [hlen]
  omega

/-- **Queueing keeps a client sound**: the string in `outbuff` grows by what `outUsed` counts. -/
theorem Client.Sound.queue {c : Client} (hc : c.Sound) (data : List Byte) :
    (c.queue data).Sound := by
  rw [Client.queue]
  split_ifs with hfit
  · cases hactive : c.active with
    | false =>
      obtain ⟨hlen, hused, -⟩ := hc.inactive hactive
      rw [hlen, hused] at hfit
      simp at hfit
    | true =>
      rw [hc.space hactive] at hfit
      obtain ⟨hlen, b, hb, hcount, hused⟩ := hc.out hactive
      have hfits : (cstr b).length + (cstr data).length < initQsiz := by omega
      have hcstr := cstr_strlcat (zero_notMem_cstr data) hfits
      refine ⟨fun _ => ⟨hlen, _, by rw [hb, Option.map_some, hlen], ?_, ?_⟩,
        fun _ => hc.input hactive, fun h => by simp at h⟩
      · rw [hcstr, List.length_append, hcount]
      · dsimp only
        omega
  · exact hc

/-! ### Registering a descriptor -/

section RegisterFd

variable {v : Fdvec} {fd : ℕ} (f : Handler)

/-- The maximum stays registered. -/
theorem registerFd_max_registered (h : v.fds v.max = true ∨ v.max ≤ fd) :
    (registerFd v fd f).fds (registerFd v fd f).max = true := by
  dsimp only [registerFd]
  split_ifs with hgt
  · exact Function.update_self ..
  · rcases eq_or_ne v.max fd with heq | hmax
    · rw [heq, Function.update_self]
    · rw [Function.update_of_ne hmax]
      exact h.resolve_right (by omega)

/-- The maximum stays an upper bound. -/
theorem registerFd_le_max (h : ∀ i, v.fds i = true → i ≤ v.max) (i : ℕ)
    (hi : (registerFd v fd f).fds i = true) : i ≤ (registerFd v fd f).max := by
  have hle : i = fd ∨ i ≤ v.max := by
    rcases eq_or_ne i fd with rfl | hne
    · exact .inl rfl
    · dsimp only [registerFd] at hi
      rw [Function.update_of_ne hne] at hi
      exact .inr (h i hi)
  dsimp only [registerFd]
  split_ifs with hgt <;> omega

/-- The functions stay those of the registered descriptors. -/
theorem registerFd_f_eq {handler : ℕ → Handler}
    (h : ∀ i, v.f i = if v.fds i = true then some (handler i) else none) (hf : f = handler fd)
    (i : ℕ) : (registerFd v fd f).f i =
      if (registerFd v fd f).fds i = true then some (handler i) else none := by
  dsimp only [registerFd]
  rcases eq_or_ne i fd with rfl | hi
  · simp only [Function.update_self, ↓reduceIte, hf]
  · simp only [Function.update_of_ne hi]
    exact h i

end RegisterFd

/-! ### The invariant -/

/-- The invariant of the registry. -/
structure Registered (lfd : ℕ) (s : Server) : Prop where
  f_eq : ∀ i, s.read.f i = if s.read.fds i = true then
    some (if i = lfd then .acceptClient else .processClient) else none
  lfd_registered : s.read.fds lfd = true
  max_registered : s.read.fds s.read.max = true
  le_max : ∀ i, s.read.fds i = true → i ≤ s.read.max
  active_iff : ∀ i, (s.clients i).active = true ↔ s.read.fds i = true ∧ i ≠ lfd
  opened : ∀ i, s.read.fds i = true → s.opened i = true
  sound : ∀ i, (s.clients i).Sound

namespace Registered

variable {lfd : ℕ} {s s' : Server} {fd : ℕ}

theorem registry (h : Registered lfd s) : Registry lfd s where
  f_iff i := by
    rw [h.f_eq]
    split_ifs with hreg hlfd
    · exact iff_of_true rfl hreg
    · exact iff_of_true rfl hreg
    · exact iff_of_false (by simp) hreg
  max_registered := h.max_registered
  le_max := h.le_max
  active_iff := h.active_iff
  of_active i hi := by
    obtain ⟨hlen, b, hb, -⟩ := (h.sound i).out hi
    obtain ⟨hin, hbuff⟩ := (h.sound i).input hi
    exact ⟨hlen, hin, by rw [hb]; rfl, hbuff⟩
  of_inactive i hi := (h.sound i).inactive hi

/-- A client may be replaced by a sound one with the same flag. -/
theorem setClient (h : Registered lfd s) {c : Client} (hactive : c.active = (s.clients fd).active)
    (hc : c.Sound) : Registered lfd (s.setClient fd c) where
  f_eq := h.f_eq
  lfd_registered := h.lfd_registered
  max_registered := h.max_registered
  le_max := h.le_max
  active_iff i := by
    rcases eq_or_ne i fd with rfl | hne
    · rw [Server.setClient_clients_self, hactive]
      exact h.active_iff i
    · rw [Server.setClient_clients_of_ne _ _ _ hne]
      exact h.active_iff i
  opened := h.opened
  sound i := by
    rcases eq_or_ne i fd with rfl | hne
    · rw [Server.setClient_clients_self]
      exact hc
    · rw [Server.setClient_clients_of_ne _ _ _ hne]
      exact h.sound i

theorem setSent (h : Registered lfd s) (sent : ℕ → List Byte) :
    Registered lfd { s with sent := sent } :=
  ⟨h.f_eq, h.lfd_registered, h.max_registered, h.le_max, h.active_iff, h.opened, h.sound⟩

theorem writeFdQueue (h : Registered lfd s) (data : List Byte) :
    Registered lfd (s.writeFdQueue fd data) := by
  rw [Server.writeFdQueue_eq]
  exact h.setClient (Client.queue_active _ _) ((h.sound fd).queue data)

theorem writeAll (h : Registered lfd s) (data : List (List Byte)) :
    Registered lfd (s.writeAll fd data) := by
  induction data generalizing s with
  | nil => exact h
  | cons d data ih => exact ih (h.writeFdQueue d)

/-- The loop finds the greatest registered descriptor below `fd`. -/
theorem maxLoop_spec (fds : ℕ → Bool) (max : ℕ) : (fd : ℕ) → (∃ i < fd, fds i = true) →
    fds (maxLoop fds max fd) = true ∧ ∀ i < fd, fds i = true → i ≤ maxLoop fds max fd
  | 0, h => by
      obtain ⟨i, hi, -⟩ := h
      cases hi
  | fd + 1, h => by
      have hstep : maxLoop fds max (fd + 1) = if fds fd then fd else maxLoop fds max fd := by
        rw [maxLoop, List.range_succ, List.foldl_append]
        rfl
      rw [hstep]
      split_ifs with hfd
      · exact ⟨hfd, fun i hi _ => Nat.lt_succ_iff.mp hi⟩
      · obtain ⟨i, hi, hreg⟩ := h
        have hlt : ∀ j < fd + 1, fds j = true → j < fd := fun j hj hreg =>
          (Nat.lt_succ_iff_lt_or_eq.mp hj).resolve_right fun heq => hfd (heq ▸ hreg)
        obtain ⟨hmax, hle⟩ := maxLoop_spec fds max fd ⟨i, hlt i hi hreg, hreg⟩
        exact ⟨hmax, fun j hj hreg => hle j (hlt j hj hreg) hreg⟩

/-- As long as the listening socket stays registered, a new maximum is found. -/
theorem max_unregisterFd (h : Registered lfd s) (hne : fd ≠ lfd) :
    Function.update s.read.fds fd false (unregisterFd s.read fd).max = true ∧
      ∀ i, Function.update s.read.fds fd false i = true → i ≤ (unregisterFd s.read fd).max := by
  have hreg : ∀ i, Function.update s.read.fds fd false i = true →
      i ≠ fd ∧ s.read.fds i = true := fun i hi => by
    rcases eq_or_ne i fd with rfl | hi'
    · rw [Function.update_self] at hi
      cases hi
    · rw [Function.update_of_ne hi'] at hi
      exact ⟨hi', hi⟩
  rw [unregisterFd]
  dsimp only
  split_ifs with hfdmax
  · have hlt : lfd < fd := lt_of_le_of_ne (hfdmax ▸ h.le_max lfd h.lfd_registered) hne.symm
    have hlfd : Function.update s.read.fds fd false lfd = true := by
      rw [Function.update_of_ne hne.symm]
      exact h.lfd_registered
    obtain ⟨hreg', hle⟩ := maxLoop_spec (Function.update s.read.fds fd false) s.read.max fd
      ⟨lfd, hlt, hlfd⟩
    refine ⟨hreg', fun i hi => hle i ?_ hi⟩
    exact lt_of_le_of_ne (hfdmax ▸ h.le_max i (hreg i hi).2) (hreg i hi).1
  · refine ⟨?_, fun i hi => h.le_max i (hreg i hi).2⟩
    rw [Function.update_of_ne (Ne.symm hfdmax)]
    exact h.max_registered

/-- **Disconnecting a client** keeps the invariant. -/
theorem disconnectClient (h : Registered lfd s) (hactive : (s.clients fd).active = true) :
    Registered lfd (s.disconnectClient fd) := by
  obtain ⟨-, hne⟩ := (h.active_iff fd).mp hactive
  have hmax := h.max_unregisterFd hne
  refine ⟨fun i => ?_, ?_, hmax.1, hmax.2, fun i => ?_, fun i => ?_, fun i => ?_⟩
  · rw [Server.disconnectClient, unregisterFd]
    rcases eq_or_ne i fd with rfl | hi
    · simp only [Function.update_self]
      rfl
    · simp only [Function.update_of_ne hi]
      exact h.f_eq i
  · rw [Server.disconnectClient, unregisterFd]
    exact (Function.update_of_ne hne.symm ..).trans h.lfd_registered
  · rw [Server.disconnectClient, unregisterFd, Server.setClient]
    rcases eq_or_ne i fd with rfl | hi
    · simp only [Function.update_self]
      simp
    · simp only [Function.update_of_ne hi]
      exact h.active_iff i
  · rw [Server.disconnectClient, unregisterFd]
    rcases eq_or_ne i fd with rfl | hi
    · simp only [Function.update_self]
      intro h0
      cases h0
    · simp only [Function.update_of_ne hi]
      exact h.opened i
  · rw [Server.disconnectClient, Server.setClient]
    rcases eq_or_ne i fd with rfl | hi
    · simp only [Function.update_self]
      exact Client.sound_of_inactive rfl ⟨rfl, rfl, rfl⟩
    · simp only [Function.update_of_ne hi]
      exact h.sound i

end Registered

/-! ### Flushing -/

/-- **What a flush does**: nothing for a client without queued data, and otherwise it writes and
either disconnects the client or empties its queue. -/
theorem Server.flushQueuedData_cases {s s' : Server} {fd : ℕ} {answers : List WriteAnswer}
    (h : s.flushQueuedData fd answers = .ok s') :
    (s' = s ∧ ((s.clients fd).active = false ∨ (s.clients fd).outUsed = 0)) ∨
      ((s.clients fd).active = true ∧ ∃ out,
        let t : Server := { s with sent := Function.update s.sent fd (s.sent fd ++ out) }
        s' = t.disconnectClient fd ∨
          s' = t.setClient fd { s.clients fd with outUsed := 0, outbuff := some [] }) := by
  rw [Server.flushQueuedData] at h
  by_cases hactive : (s.clients fd).active = false
  · rw [if_pos hactive] at h
    cases h
    exact .inl ⟨rfl, .inl hactive⟩
  by_cases hused : (s.clients fd).outUsed = 0
  · rw [if_neg hactive, if_pos hused] at h
    cases h
    exact .inl ⟨rfl, .inr hused⟩
  rw [if_neg hactive, if_neg hused] at h
  refine .inr ⟨by simpa using hactive, ?_⟩
  split at h
  · cases h
  · dsimp only at h
    split at h
    · cases h
    · split at h
      · cases h
        exact ⟨_, .inl rfl⟩
      · cases h
        exact ⟨_, .inr rfl⟩

namespace Registered

variable {lfd : ℕ} {s s' : Server} {fd : ℕ}

theorem flushQueuedData (h : Registered lfd s) {answers : List WriteAnswer}
    (hflush : s.flushQueuedData fd answers = .ok s') : Registered lfd s' := by
  obtain ⟨rfl, -⟩ | ⟨hactive, out, hout⟩ := Server.flushQueuedData_cases hflush
  · exact h
  · have hsent := h.setSent (Function.update s.sent fd (s.sent fd ++ out))
    rcases hout with rfl | rfl
    · exact hsent.disconnectClient hactive
    · refine hsent.setClient rfl ⟨fun _ => ?_, (h.sound fd).input, fun h0 => ?_⟩
      · exact ⟨((h.sound fd).out hactive).1, [], rfl, rfl, initQsiz_pos⟩
      · dsimp only at h0
        rw [hactive] at h0
        cases h0

theorem active_of_processClient (h : Registered lfd s)
    (hf : s.read.f fd = some .processClient) : (s.clients fd).active = true := by
  rw [h.f_eq] at hf
  split_ifs at hf with hfds hlfd
  · cases hf
  · exact (h.active_iff fd).mpr ⟨hfds, hlfd⟩

theorem inactive_of_closed (h : Registered lfd s) (hclosed : s.opened fd = false) :
    s.read.fds fd = false ∧ (s.clients fd).active = false := by
  have hfds : s.read.fds fd = false := by
    by_contra hreg
    rw [h.opened fd (by simpa using hreg)] at hclosed
    cases hclosed
  refine ⟨hfds, ?_⟩
  by_contra hactive
  rw [((h.active_iff fd).mp (by simpa using hactive)).1] at hfds
  cases hfds

/-- **A new connection** keeps the invariant. -/
theorem putConnection (h : Registered lfd s) {nfd : ℕ} (caddr : InAddr)
    (hclosed : s.opened nfd = false) : Registered lfd (s.putConnection nfd caddr) := by
  obtain ⟨hfds, -⟩ := h.inactive_of_closed hclosed
  have hne : lfd ≠ nfd := fun heq => by
    rw [← heq, h.lfd_registered] at hfds
    cases hfds
  refine ⟨registerFd_f_eq _ h.f_eq (if_neg hne.symm).symm, ?_,
    registerFd_max_registered _ (.inl h.max_registered), registerFd_le_max _ h.le_max,
    fun i => ?_, fun i => ?_, fun i => ?_⟩
  all_goals dsimp only [Server.putConnection, registerFd, Server.setClient]
  · rw [Function.update_of_ne hne]
    exact h.lfd_registered
  · rcases eq_or_ne i nfd with rfl | hi
    · simp only [Function.update_self, true_iff, true_and]
      exact hne.symm
    · simp only [Function.update_of_ne hi]
      exact h.active_iff i
  · rcases eq_or_ne i nfd with rfl | hi
    · simp only [Function.update_self, implies_true]
    · simp only [Function.update_of_ne hi]
      exact h.opened i
  · rcases eq_or_ne i nfd with rfl | hi
    · simp only [Function.update_self]
      exact Client.sound_connected caddr
    · simp only [Function.update_of_ne hi]
      exact h.sound i

end Registered

/-! ### Runs -/

/-- **The operations of the handlers keep the invariant.** -/
theorem closed_registered (lfd : ℕ) : Closed (Registered lfd) where
  writeAndFlush h hcall := (h.writeAll _).flushQueuedData hcall
  putInbuff {s fd} bytes h := by
    have hsound := h.sound fd
    exact h.setClient rfl ⟨hsound.out, fun hactive => ⟨(hsound.input hactive).1, by
      rw [Option.isSome_map]
      exact (hsound.input hactive).2⟩, hsound.inactive⟩
  disconnectClient h hf := h.disconnectClient (h.active_of_processClient hf)
  putAlias {s fd name} h _ :=
    h.setClient rfl ⟨(h.sound fd).out, (h.sound fd).input, (h.sound fd).inactive⟩
  putConnection caddr h hclosed := h.putConnection caddr hclosed

theorem registered_serverMain (opened : ℕ → Bool) (lfd : ℕ) :
    Registered lfd (serverMain opened lfd) where
  f_eq := registerFd_f_eq _ (fun _ => rfl) (if_pos rfl).symm
  lfd_registered := Function.update_self ..
  max_registered := registerFd_max_registered _ (.inr (Nat.zero_le lfd))
  le_max := registerFd_le_max _ fun i hi => by cases hi
  active_iff i := by
    dsimp only [serverMain, registerFd, initFdvec]
    rcases eq_or_ne i lfd with rfl | hne
    · simp [Client.zero]
    · simp [Client.zero, Function.update_of_ne hne]
  opened i hi := by
    dsimp only [serverMain, registerFd, initFdvec] at hi ⊢
    rcases eq_or_ne i lfd with rfl | hne
    · exact Function.update_self ..
    · rw [Function.update_of_ne hne] at hi
      cases hi
  sound _ := Client.sound_of_inactive rfl ⟨rfl, rfl, rfl⟩

theorem Reachable.registered {opened : ℕ → Bool} {lfd : ℕ} {s : Server}
    (h : Reachable opened lfd s) : Registered lfd s :=
  (closed_registered lfd).reachable (registered_serverMain opened lfd) h

/-! ### The assertion -/

namespace Server

variable (s : Server) (fd : ℕ) (inp : Input)

theorem writeAndFlush_ne_assertFailed (data : List (List Byte)) (answers : List WriteAnswer) :
    s.writeAndFlush fd data answers ≠ .error .assertFailed := by
  rw [writeAndFlush, flushQueuedData]
  intro h
  dsimp only at h
  split at h
  · cases h
  · split at h
    · cases h
    · split at h
      · cases h
      · split at h
        · cases h
        · split at h <;> cases h

theorem findClient_ne_assertFailed (p : ℕ → Bool) :
    s.findClient p ≠ .error .assertFailed := by
  rw [findClient]
  split_ifs with hzero
  · exact throw_ne_error (by decide)
  · exact pure_ne_error _ _

theorem forActive_ne_assertFailed {body : Server → ℕ → Except Fault Server}
    (hbody : ∀ s i, body s i ≠ .error .assertFailed) :
    s.forActive body ≠ .error .assertFailed := by
  rw [forActive]
  refine foldlM_ne_error (fun s' i => ?_) _ _
  split_ifs with hactive
  · exact hbody s' i
  · exact pure_ne_error _ _

theorem processAlias_ne_assertFailed (text : List Byte) :
    s.processAlias fd inp text ≠ .error .assertFailed := by
  rw [processAlias]
  dsimp only
  split_ifs with hhas hlong hchars
  · exact writeAndFlush_ne_assertFailed _ _ _ _
  · exact writeAndFlush_ne_assertFailed _ _ _ _
  · exact writeAndFlush_ne_assertFailed _ _ _ _
  · refine bind_ne_error (findClient_ne_assertFailed _ _) fun found _ => ?_
    cases found with
    | some i => exact writeAndFlush_ne_assertFailed _ _ _ _
    | none => exact writeAndFlush_ne_assertFailed _ _ _ _

theorem processPrivate_ne_assertFailed (text : List Byte) :
    s.processPrivate fd inp text ≠ .error .assertFailed := by
  rw [processPrivate]
  refine bind_ne_error (findClient_ne_assertFailed _ _) fun found _ => ?_
  cases found with
  | none => exact writeAndFlush_ne_assertFailed _ _ _ _
  | some cToFd =>
    dsimp only
    split
    · exact throw_ne_error (by decide)
    · exact bind_ne_error (writeAndFlush_ne_assertFailed _ _ _ _)
        fun s' _ => writeAndFlush_ne_assertFailed _ _ _ _

theorem processString_ne_assertFailed (text : List Byte) :
    s.processString fd inp text ≠ .error .assertFailed := by
  rw [processString]
  split_ifs with hwho halias hhelp hcow hprivate
  · rw [processWho]
    split_ifs with hzero
    · exact bind_ne_error (throw_ne_error (by decide))
        fun _ _ => writeAndFlush_ne_assertFailed _ _ _ _
    · exact writeAndFlush_ne_assertFailed _ _ _ _
  · exact s.processAlias_ne_assertFailed fd inp text
  · rw [processHelp]
    exact writeAndFlush_ne_assertFailed _ _ _ _
  · rw [processCow]
    split_ifs with hresult
    · exact forActive_ne_assertFailed _ fun s' i => writeAndFlush_ne_assertFailed _ _ _ _
    · exact writeAndFlush_ne_assertFailed _ _ _ _
  · exact s.processPrivate_ne_assertFailed fd inp text
  · rw [processMessageFrom]
    exact forActive_ne_assertFailed _ fun s' i => writeAndFlush_ne_assertFailed _ _ _ _

end Server

/-- **The assertion of `server_accept_client` holds**: a descriptor that is not open is not that
of an active client. -/
theorem Registered.callHandler_ne_assertFailed {lfd : ℕ} {s : Server} (h : Registered lfd s)
    {inp : Input} (hvalid : inp.Valid s) (i : ℕ) :
    s.callHandler i inp ≠ .error .assertFailed := by
  rw [Server.callHandler]
  cases hf : s.read.f i with
  | none => exact throw_ne_error (by decide)
  | some f =>
    cases f with
    | acceptClient =>
      rw [Server.acceptClient]
      cases haccept : inp.accept with
      | none => exact pure_ne_error _ _
      | some conn =>
        obtain ⟨nfd, caddr⟩ := conn
        have hinactive := (h.inactive_of_closed (hvalid nfd caddr haccept).1).2
        dsimp only
        rw [if_neg (by simp [hinactive])]
        exact Server.writeAndFlush_ne_assertFailed _ _ _ _
    | processClient =>
      rw [Server.processClient]
      split_ifs with hempty hagain
      · exact pure_ne_error _ _
      · exact pure_ne_error _ _
      · exact Server.processString_ne_assertFailed _ _ _ _

/-- **The registry is kept.** Whenever the event loop is reached, the tables agree, and the next
round does not end in the `assert` of `server_accept_client`. -/
theorem registry_of_loopReachable {opened : ℕ → Bool} {lfd : ℕ} {s : Server}
    (h : LoopReachable opened lfd s) :
    Registry lfd s ∧
      ∀ round : Round, round.Valid → s.handleEvents round ≠ .error .assertFailed := by
  refine ⟨h.reachable.registered.registry, fun round hvalid hfail => ?_⟩
  rw [Server.handleEvents] at hfail
  split_ifs at hfail with hselected
  · obtain ⟨s', i, hs', hcall⟩ :=
      h.reachable.exists_of_eventLoop (fun i s => hvalid i s) hfail
    exact hs'.registered.callHandler_ne_assertFailed (hvalid i s') i hcall
  · cases hfail

/-- A server on descriptor 3 with a client on descriptor 4. -/
theorem registry_of_loopReachable_accept :
    ∃ s : Server, (s.clients 4).active = true ∧ Registry 3 s ∧
      ∀ round : Round, round.Valid → s.handleEvents round ≠ .error .assertFailed := by
  have hround : ((serverMain (fun _ => false) 3).handleEvents (fullRound 3 4 [])).map
      (fun s => (s.clients 4).active) = .ok true := by decide +kernel
  obtain ⟨s, hs, hactive⟩ := exists_of_map_eq_ok hround
  exact ⟨s, hactive,
    registry_of_loopReachable (LoopReachable.main.round (fullRound_valid (by decide) []) hs)⟩

end TikFachpraktika.Chat
