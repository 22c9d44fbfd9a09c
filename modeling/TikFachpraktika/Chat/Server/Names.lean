import TikFachpraktika.Chat.Server.Delivery

/-!
# The names of the clients

A client has the alias that it has set, and it is shown under this alias or under its address.
Aliases are short, use the allowed characters only, and differ without regard to case: a new one
may not even begin an alias that is in use.

## Main definitions

* `IsAlias`: what `server_process_alias` asks of an alias.
* `Server.NamedAs`: an active client and its alias.
* `Named`: the invariant.

## Main results

* `closed_named`: the operations of the handlers keep the invariant.
* `Reachable.named`: it holds in every reachable state.
-/

namespace TikFachpraktika.Chat

open Posix

/-- A string that may become an alias. -/
structure IsAlias (name : List Byte) : Prop where
  ne_nil : name ≠ []
  length_le : name.length ≤ aliasMaxlen
  allowed : ∀ c ∈ name, c ∈ aliasAllowedChars

theorem zero_notMem_aliasAllowedChars : (0 : Byte) ∉ aliasAllowedChars := by decide

theorem IsAlias.zero_notMem {name : List Byte} (h : IsAlias name) : (0 : Byte) ∉ name :=
  fun h0 => zero_notMem_aliasAllowedChars (h.allowed 0 h0)

namespace Server

/-- `fd` is an active client with the alias `name`. -/
def NamedAs (s : Server) (fd : ℕ) (name : List Byte) : Prop :=
  (s.clients fd).active = true ∧ (s.clients fd).hasAlias = true ∧ (s.clients fd).aliasStr = name

theorem namedAs_congr {s s' : Server} {fd : ℕ} (h : s'.clients fd = s.clients fd)
    (name : List Byte) : s'.NamedAs fd name ↔ s.NamedAs fd name := by
  rw [NamedAs, NamedAs, h]

end Server

/-! ### Searching a client by its name -/

section Search

variable {lfd : ℕ} {s : Server} {fd : ℕ} {name : List Byte}

/-- Another client whose alias begins with `name`. -/
def Server.Continues (s : Server) (fd : ℕ) (name : List Byte) (j : ℕ) : Prop :=
  j ≠ fd ∧ ∃ a, s.NamedAs j a ∧ lower name <+: lower a

theorem Server.nameMatches_iff (haliases : ∀ j a, s.NamedAs j a → IsAlias a)
    (hname : (0 : Byte) ∉ name) (j : ℕ) :
    s.nameMatches fd name j = true ↔ s.Continues fd name j := by
  rw [Server.nameMatches, Bool.and_eq_true, Bool.and_eq_true, Bool.and_eq_true,
    decide_eq_true_iff, decide_eq_true_iff, Server.Continues]
  constructor
  · rintro ⟨⟨⟨hactive, hhas⟩, hne⟩, hzero⟩
    have hnamed : s.NamedAs j (s.clients j).aliasStr := ⟨hactive, hhas, rfl⟩
    exact ⟨hne.symm, _, hnamed, (strnicmp_length_eq_zero_iff hname
      (haliases _ _ hnamed).zero_notMem).mp hzero.symm⟩
  · rintro ⟨hne, a, hnamed, hbegin⟩
    have hzero := (strnicmp_length_eq_zero_iff hname (haliases _ _ hnamed).zero_notMem).mpr hbegin
    obtain ⟨hactive, hhas, rfl⟩ := hnamed
    exact ⟨⟨⟨hactive, hhas⟩, hne.symm⟩, hzero.symm⟩

/-- **The search fails** if no other client continues the name. -/
theorem Registered.findClient_eq_none_iff (h : Registered lfd s) (h0 : s.read.fds 0 = false)
    (haliases : ∀ j a, s.NamedAs j a → IsAlias a) (hname : (0 : Byte) ∉ name) :
    s.findClient (s.nameMatches fd name) = .ok none ↔ ∀ j, ¬s.Continues fd name j := by
  rw [Server.findClient, if_neg (by simp [h0])]
  constructor
  · intro hfind j hj
    have hnone := List.find?_eq_none.mp (Except.ok.inj hfind)
    have hreg := ((h.active_iff j).mp hj.2.choose_spec.1.1).1
    refine hnone j (List.mem_range.mpr (Nat.lt_succ_of_le (h.le_max j hreg))) ?_
    rw [Bool.and_eq_true]
    exact ⟨hreg, (Server.nameMatches_iff haliases hname j).mpr hj⟩
  · intro hnone
    refine congrArg Except.ok (List.find?_eq_none.mpr fun j _ hj => ?_)
    rw [Bool.and_eq_true] at hj
    exact hnone j ((Server.nameMatches_iff haliases hname j).mp hj.2)

/-- **The search finds the first client** that continues the name. -/
theorem Registered.findClient_eq_some_iff (h : Registered lfd s) (h0 : s.read.fds 0 = false)
    (haliases : ∀ j a, s.NamedAs j a → IsAlias a) (hname : (0 : Byte) ∉ name) (j : ℕ) :
    s.findClient (s.nameMatches fd name) = .ok (some j) ↔
      s.Continues fd name j ∧ ∀ k < j, ¬s.Continues fd name k := by
  have hreg : ∀ k, (s.read.fds k && s.nameMatches fd name k) = true ↔
      s.Continues fd name k := fun k => by
    rw [Bool.and_eq_true, Server.nameMatches_iff haliases hname]
    exact ⟨fun hk => hk.2, fun hk => ⟨((h.active_iff k).mp hk.2.choose_spec.1.1).1, hk⟩⟩
  rw [Server.findClient, if_neg (by simp [h0])]
  constructor
  · intro hfind
    obtain ⟨hj, -, hlt⟩ := List.find?_range_eq_some.mp (Except.ok.inj hfind)
    refine ⟨(hreg j).mp hj, fun k hk hcont => ?_⟩
    have hfalse := hlt k hk
    rw [(hreg k).mpr hcont] at hfalse
    cases hfalse
  · rintro ⟨hj, hlt⟩
    refine congrArg Except.ok (List.find?_range_eq_some.mpr ⟨(hreg j).mpr hj, ?_, fun k hk => ?_⟩)
    · have hfds := ((h.active_iff j).mp hj.2.choose_spec.1.1).1
      exact List.mem_range.mpr (Nat.lt_succ_of_le (h.le_max j hfds))
    · rw [Bool.not_eq_true']
      exact Bool.eq_false_iff.mpr fun hk' => hlt k hk ((hreg k).mp hk')

end Search

/-! ### The invariant -/

/-- The queues are empty between the calls of handlers, the aliases are allowed ones, and no two
of them agree without regard to case. -/
structure Named (lfd : ℕ) (s : Server) : Prop where
  registered : Registered lfd s
  drained : ∀ i, (s.clients i).active = true → (s.clients i).outUsed = 0
  isAlias : ∀ i name, s.NamedAs i name → IsAlias name
  inj : ∀ i j a b, s.NamedAs i a → s.NamedAs j b → lower a = lower b → i = j

/-- What queueing and flushing does to the clients: only the one that is written to changes, its
queue is empty afterwards, and it has the same name or is disconnected. -/
theorem Server.writeAndFlush_clients {s s' : Server} {fd : ℕ} {data : List (List Byte)}
    {answers : List WriteAnswer} (h : s.writeAndFlush fd data answers = .ok s') :
    (∀ i, i ≠ fd → s'.clients i = s.clients i) ∧
      ((s'.clients fd).active = true → (s'.clients fd).outUsed = 0) ∧
      ((s'.clients fd).active = true → (s.clients fd).active = true ∧
        ∀ name, s'.NamedAs fd name ↔ s.NamedAs fd name) := by
  rw [Server.writeAndFlush, Server.writeAll_eq] at h
  obtain ⟨b, used, heq⟩ := Client.foldl_queue_eq data (s.clients fd)
  rw [heq] at h
  obtain ⟨rfl, hdone⟩ | ⟨-, out, rfl | rfl⟩ := Server.flushQueuedData_cases h
  · refine ⟨fun i hi => Server.setClient_clients_of_ne _ _ _ hi, fun hactive => ?_,
      fun hactive => ?_⟩
    · exact hdone.resolve_left (by rw [hactive]; exact Bool.noConfusion)
    · rw [Server.setClient_clients_self] at hactive
      refine ⟨hactive, fun name => ?_⟩
      rw [Server.NamedAs, Server.setClient_clients_self]
      exact Iff.rfl
  · refine ⟨fun i hi => ?_, fun hactive => ?_, fun hactive => ?_⟩
    · rw [Server.disconnectClient_clients_of_ne _ _ hi]
      exact Server.setClient_clients_of_ne _ _ _ hi
    · rw [Server.disconnectClient_clients_self] at hactive
      cases hactive
    · rw [Server.disconnectClient_clients_self] at hactive
      cases hactive
  · refine ⟨fun i hi => ?_, fun _ => ?_, fun hactive => ?_⟩
    · rw [Server.setClient_clients_of_ne _ _ _ hi]
      exact Server.setClient_clients_of_ne _ _ _ hi
    · rw [Server.setClient_clients_self]
    · rw [Server.setClient_clients_self, Server.setClient_clients_self] at hactive
      refine ⟨hactive, fun name => ?_⟩
      rw [Server.NamedAs, Server.setClient_clients_self, Server.setClient_clients_self]
      exact Iff.rfl

namespace Named

variable {lfd : ℕ} {s s' : Server}

/-- The invariant is kept when a client changes, with an empty queue and at most the name that
it had. -/
theorem of_clients (fd : ℕ) (h : Named lfd s) (hreg : Registered lfd s')
    (hother : ∀ i, i ≠ fd → s'.clients i = s.clients i)
    (hused : (s'.clients fd).active = true → (s'.clients fd).outUsed = 0)
    (hname : ∀ name, s'.NamedAs fd name → s.NamedAs fd name) : Named lfd s' := by
  have hnames : ∀ i name, s'.NamedAs i name → s.NamedAs i name := fun i name hi => by
    rcases eq_or_ne i fd with rfl | hne
    · exact hname name hi
    · exact (Server.namedAs_congr (hother i hne) name).mp hi
  refine ⟨hreg, fun i hactive => ?_, fun i name hi => h.isAlias i name (hnames i name hi),
    fun i j a b hi hj => h.inj i j a b (hnames i a hi) (hnames j b hj)⟩
  rcases eq_or_ne i fd with rfl | hne
  · exact hused hactive
  · rw [hother i hne] at hactive ⊢
    exact h.drained i hactive

theorem putAlias {fd : ℕ} (h : Named lfd s) {name : List Byte} (hname : s.Accepted fd name) :
    Named lfd (s.putAlias fd name) := by
  have halias : IsAlias name := ⟨hname.ne_nil, hname.length_le, hname.allowed⟩
  have hself : ∀ a, (s.putAlias fd name).NamedAs fd a → a = name := fun a ha => by
    rw [Server.NamedAs, Server.putAlias, Server.setClient_clients_self] at ha
    exact ha.2.2.symm
  have hother : ∀ i a, i ≠ fd → (s.putAlias fd name).NamedAs i a → s.NamedAs i a :=
    fun i a hi => (Server.namedAs_congr (Server.setClient_clients_of_ne _ _ _ hi) a).mp
  have hunused : ∀ j a, j ≠ fd → s.NamedAs j a → lower name ≠ lower a := fun j a hj ha heq => by
    have h0 : s.read.fds 0 = false := by
      by_contra hzero
      have hfail := hname.unused
      rw [Server.findClient, if_pos (by simpa using hzero)] at hfail
      cases hfail
    exact (h.registered.findClient_eq_none_iff h0 h.isAlias halias.zero_notMem).mp hname.unused j
      ⟨hj, a, ha, heq ▸ List.prefix_rfl⟩
  refine ⟨(closed_registered lfd).putAlias h.registered hname, fun i hactive => ?_,
    fun i a hi => ?_, fun i j a b hi hj hab => ?_⟩
  · rw [Server.putAlias] at hactive ⊢
    rcases eq_or_ne i fd with rfl | hne
    · rw [Server.setClient_clients_self] at hactive ⊢
      exact h.drained i hactive
    · rw [Server.setClient_clients_of_ne _ _ _ hne] at hactive ⊢
      exact h.drained i hactive
  · rcases eq_or_ne i fd with rfl | hne
    · exact hself a hi ▸ halias
    · exact h.isAlias i a (hother i a hne hi)
  · rcases eq_or_ne i fd with rfl | hi' <;> rcases eq_or_ne j i with rfl | hij
    · rfl
    · exact absurd (hself a hi ▸ hab) (hunused j b hij (hother j b hij hj))
    · rfl
    · rcases eq_or_ne j fd with rfl | hj'
      · exact absurd (hself b hj ▸ hab).symm (hunused i a hi' (hother i a hi' hi))
      · exact h.inj i j a b (hother i a hi' hi) (hother j b hj' hj) hab

end Named

/-- **The operations of the handlers keep the invariant.** -/
theorem closed_named (lfd : ℕ) : Closed (Named lfd) where
  writeAndFlush {s s' fd data answers} h hcall := by
    obtain ⟨hother, hused, hname⟩ := Server.writeAndFlush_clients hcall
    exact h.of_clients fd ((closed_registered lfd).writeAndFlush h.registered hcall) hother hused
      fun name hnamed => ((hname hnamed.1).2 name).mp hnamed
  putInbuff {s fd} bytes h := by
    refine h.of_clients fd ((closed_registered lfd).putInbuff bytes h.registered)
      (fun i hi => Server.setClient_clients_of_ne _ _ _ hi) (fun hactive => ?_) fun name => ?_
    · rw [Server.putInbuff, Server.setClient_clients_self] at hactive ⊢
      exact h.drained fd hactive
    · rw [Server.NamedAs, Server.putInbuff, Server.setClient_clients_self]
      exact id
  disconnectClient {s fd} h hf := by
    refine h.of_clients fd ((closed_registered lfd).disconnectClient h.registered hf)
      (fun i hi => Server.disconnectClient_clients_of_ne _ _ hi) (fun _ => ?_) fun name hname => ?_
    · rw [Server.disconnectClient_clients_self]
    · rw [Server.NamedAs, Server.disconnectClient_clients_self] at hname
      cases hname.1
  putAlias h hname := h.putAlias hname
  putConnection {s nfd} caddr h hclosed := by
    refine h.of_clients nfd
      ((closed_registered lfd).putConnection caddr h.registered hclosed)
      (fun i hi => Function.update_of_ne hi ..) (fun _ => ?_) fun name hname => ?_
    · simp only [Server.putConnection, Server.setClient, Function.update_self]
    · simp only [Server.NamedAs, Server.putConnection, Server.setClient,
        Function.update_self] at hname
      cases hname.2.1

theorem Reachable.named {opened : ℕ → Bool} {lfd : ℕ} {s : Server} (h : Reachable opened lfd s) :
    Named lfd s := by
  refine (closed_named lfd).reachable
    ⟨registered_serverMain opened lfd, fun i hactive => ?_, fun i name hi => ?_,
      fun i j a b hi => ?_⟩ h
  · cases hactive
  · cases hi.1
  · cases hi.1

/-! ### How clients are shown -/

namespace Server

theorem length_decimal_le (b : Byte) : (decimal b).length ≤ 3 := by
  rw [decimal]
  split_ifs <;> simp

theorem zero_ne_digit (n : ℕ) : (0 : Byte) ≠ digit n := fun h => by
  have hnat : (0 : Byte).toNat = (48 + n % 10) % 2 ^ 8 := by
    rw [h, digit, UInt8.toNat_ofNat']
  have hzero : (0 : Byte).toNat = 0 := rfl
  omega

theorem zero_notMem_decimal (b : Byte) : (0 : Byte) ∉ decimal b := by
  rw [decimal]
  split_ifs <;> simp [zero_ne_digit]

/-- An address has at most as many characters as an alias. -/
theorem length_inetNtoa_le (a : InAddr) : (inetNtoa a).length ≤ aliasMaxlen := by
  have h0 := length_decimal_le a.b0
  have h1 := length_decimal_le a.b1
  have h2 := length_decimal_le a.b2
  have h3 := length_decimal_le a.b3
  rw [inetNtoa, aliasMaxlen]
  simp only [List.length_append, List.length_cons]
  omega

theorem zero_notMem_inetNtoa (a : InAddr) : (0 : Byte) ∉ inetNtoa a := by
  simp [inetNtoa, zero_notMem_decimal]

end Server

section Repr

variable {lfd : ℕ} {s : Server} {fd : ℕ}

theorem Named.getClientRepr_length_le (h : Named lfd s) (hactive : (s.clients fd).active = true) :
    (s.getClientRepr fd).length ≤ aliasMaxlen := by
  rw [Server.getClientRepr]
  split_ifs with hhas
  · exact (h.isAlias fd _ ⟨hactive, hhas, rfl⟩).length_le
  · exact Server.length_inetNtoa_le _

theorem Named.zero_notMem_getClientRepr (h : Named lfd s)
    (hactive : (s.clients fd).active = true) : (0 : Byte) ∉ s.getClientRepr fd := by
  rw [Server.getClientRepr]
  split_ifs with hhas
  · exact (h.isAlias fd _ ⟨hactive, hhas, rfl⟩).zero_notMem
  · exact Server.zero_notMem_inetNtoa _

end Repr

end TikFachpraktika.Chat
