import TikFachpraktika.Chat.Room
import TikFachpraktika.Chat.Server.Aliases
import TikFachpraktika.Chat.Server.Broadcast

/-!
# The chat server is a room

Every call of a handler of `6_network/server.c` is an event of the room. The clients that are
active are the members, the aliases are their names, and what has been written to a connection is
the frames of the texts in the log.

A sender whose connection is refused while its own text goes out is shown with its address from
then on, and its text is taken from a buffer that is free. Such calls are left out.

## Main definitions

* `Input.event`, `Input.takes`: the event of a call, and who takes how many bytes in it.
* `Input.Steady`: the sender of a text is not refused while the text goes out.
* `Simulates`: a state of the server and a room.

## Main results

* `Simulates.callHandler`: a call of a handler is an event of the room.
* `simulates_of_trace`: the states after all traces of calls simulate the room.
-/

namespace TikFachpraktika.Chat

open Posix Transition

/-- The text that a call for an active client gets from its `read`. -/
def Input.received (inp : Input) : Option (List Byte) :=
  let bytes := (inp.read.getD []).take initQsiz
  let text := Server.inString initQsiz bytes inp.beyond
  if bytes = [] ∨ text = [] then none else some text

/-- The event of a call of the handler of `i`; the listening socket is `lfd`. -/
def Input.event (inp : Input) (lfd i : ℕ) : Event :=
  if i = lfd then
    match inp.accept with
    | none => .idle
    | some (nfd, caddr) => .connect nfd caddr
  else
    match inp.received with
    | none => if inp.errno = eagain then .idle else .hangUp i
    | some text => .text i text (inp.popen.take (1024 * 8))

/-- A sender whose text goes out to itself and others is not refused. -/
def Input.Steady (inp : Input) (lfd i : ℕ) : Prop :=
  ∀ text, i ≠ lfd → inp.received = some text →
    commandOf text = .message ∨ commandOf text = .cow ∨ commandOf text = .privateMsg →
      .written 0 ∉ inp.writes i

open Classical in
/-- Whether the answers of `write` take a number of bytes for `i`. -/
noncomputable def Input.takes (inp : Input) (i n : ℕ) : Bool :=
  decide (Succeeds (inp.writes i) n)

open Classical in
theorem Input.takes_eq_true_iff (inp : Input) (i n : ℕ) :
    inp.takes i n = true ↔ Succeeds (inp.writes i) n := by
  rw [Input.takes, decide_eq_true_iff]

/-- The name of a client, if it is active. -/
def Client.nameOf (c : Client) : Option (Option (List Byte)) :=
  if c.active then some (if c.hasAlias then some c.aliasStr else none) else none

/-- The state `s` of the server is the room `r`. -/
structure Simulates (s : Server) (r : Room) : Prop where
  addr_eq : ∀ i, r.addr i = (s.clients i).sin
  names_eq : ∀ i, (r.members i).map Member.name = (s.clients i).nameOf
  sent_eq : ∀ i m, r.members i = some m → s.sent i = m.log.flatMap frame

/-- A search that returns has not met descriptor 0. -/
theorem Server.fds_zero_of_findClient {s : Server} {p : ℕ → Bool} {found : Option ℕ}
    (h : s.findClient p = .ok found) : s.read.fds 0 = false := by
  by_contra hzero
  rw [Server.findClient, if_pos (by simpa using hzero)] at h
  cases h

/-! ### What is shown of the members -/

namespace Simulates

variable {lfd : ℕ} {s s' : Server} {r : Room} {i : ℕ}

theorem congr (h : Simulates s r) (hsin : ∀ i, (s'.clients i).sin = (s.clients i).sin)
    (hname : ∀ i, (s'.clients i).nameOf = (s.clients i).nameOf) (hsent : s'.sent = s.sent) :
    Simulates s' r where
  addr_eq i := (h.addr_eq i).trans (hsin i).symm
  names_eq i := (h.names_eq i).trans (hname i).symm
  sent_eq i m hm := by rw [hsent, h.sent_eq i m hm]

theorem isSome_members (h : Simulates s r) (i : ℕ) :
    (r.members i).isSome = (s.clients i).active := by
  have hname := congrArg Option.isSome (h.names_eq i)
  rw [Option.isSome_map] at hname
  rw [hname, Client.nameOf]
  cases (s.clients i).active <;> rfl

theorem members_eq_none_iff (h : Simulates s r) :
    r.members i = none ↔ (s.clients i).active = false := by
  rw [← h.isSome_members, ← Option.not_isSome_iff_eq_none, Bool.not_eq_true]

theorem bind_name (h : Simulates s r) (hactive : (s.clients i).active = true) :
    (r.members i).bind Member.name =
      if (s.clients i).hasAlias then some (s.clients i).aliasStr else none := by
  have hname := h.names_eq i
  rw [Client.nameOf, if_pos hactive] at hname
  obtain ⟨m, hm, hname⟩ := Option.map_eq_some_iff.mp hname
  rw [hm, Option.bind_some, hname]

theorem bind_name_eq_some_iff (h : Simulates s r) {a : List Byte} :
    (r.members i).bind Member.name = some a ↔ s.NamedAs i a := by
  cases hactive : (s.clients i).active with
  | false =>
    rw [h.members_eq_none_iff.mpr hactive, Server.NamedAs, hactive]
    exact iff_of_false (by simp) (by simp)
  | true =>
    rw [h.bind_name hactive, Server.NamedAs, hactive]
    split_ifs with hhas
    · simp [hhas]
    · simp [hhas]

theorem shown_eq (h : Simulates s r) (hactive : (s.clients i).active = true) :
    r.shown i = s.getClientRepr i := by
  rw [Room.shown, h.bind_name hactive, h.addr_eq, Server.getClientRepr]
  split_ifs <;> rfl

theorem present_eq (h : Simulates s r) : r.present = s.activeClients := by
  rw [Room.present, Server.activeClients]
  exact List.filter_congr fun i _ => h.isSome_members i

theorem whoText_eq (h : Simulates s r) (i : ℕ) : r.whoText i = s.whoReply i := by
  rw [Room.whoText, Server.whoReply, h.present_eq]
  refine congrArg (· ++ Server.endOfList) (List.flatMap_congr fun j hj => ?_)
  rw [Server.whoLine, h.shown_eq (mem_activeClients.mp hj).2]

/-- **The addressee** is the client that the search finds. -/
theorem addressee_eq (h : Simulates s r) (hnamed : Named lfd s)
    (hlt : ∀ i, (s.clients i).active = true → i < fdSetSize) {name : List Byte}
    (hname : (0 : Byte) ∉ name) {found : Option ℕ}
    (hfind : s.findClient (s.nameMatches i name) = .ok found) : r.addressee i name = found := by
  have h0 := Server.fds_zero_of_findClient hfind
  have hcont : ∀ j, (decide (j ≠ i) && ((r.members j).bind Member.name).any fun a =>
      (lower name).isPrefixOf (lower a)) = true ↔ s.Continues i name j := fun j => by
    rw [Bool.and_eq_true, decide_eq_true_iff, Option.any_eq_true, Server.Continues]
    simp only [h.bind_name_eq_some_iff, List.isPrefixOf_iff_prefix]
  rw [Room.addressee]
  cases found with
  | none =>
    have hnone := (hnamed.registered.findClient_eq_none_iff h0 hnamed.isAlias hname).mp hfind
    exact List.find?_eq_none.mpr fun j _ hj => hnone j ((hcont j).mp hj)
  | some j =>
    obtain ⟨hj, hfirst⟩ :=
      (hnamed.registered.findClient_eq_some_iff h0 hnamed.isAlias hname j).mp hfind
    refine List.find?_range_eq_some.mpr ⟨(hcont j).mpr hj, ?_, fun k hk => ?_⟩
    · exact List.mem_range.mpr (hlt j hj.2.choose_spec.1.1)
    · rw [Bool.not_eq_true']
      exact Bool.eq_false_iff.mpr fun hk' => hfirst k hk ((hcont k).mp hk')

end Simulates

/-! ### Hearing -/

theorem Room.say_reply_members_self (r : Room) (takes : ℕ → ℕ → Bool) (i : ℕ) (text : List Byte) :
    (r.say takes (.reply i text)).members i =
      (r.members i).bind fun m => m.hear (takes i) (some text) := by
  simp only [Room.say, Said.heard, if_pos]

theorem Room.say_reply_members_of_ne (r : Room) (takes : ℕ → ℕ → Bool) {i j : ℕ} (h : j ≠ i)
    (text : List Byte) : (r.say takes (.reply i text)).members j = r.members j := by
  simp only [Room.say, Said.heard, if_neg h]
  exact Option.bind_fun_some _

namespace Simulates

variable {lfd : ℕ} {s s' : Server} {r : Room} {i : ℕ} {text : List Byte}
  {takes : ℕ → ℕ → Bool}

/-- A text that has been sent is in the log. -/
theorem afterSend (h : Simulates s r) (htakes : takes i (text.length + 1) = true) :
    Simulates (s.afterSend i text) (r.say takes (.reply i text)) := by
  have hself : (r.say takes (.reply i text)).members i =
      (r.members i).map fun m => { m with log := m.log ++ [text] } := by
    rw [Room.say_reply_members_self]
    cases r.members i with
    | none => rfl
    | some m => exact if_pos htakes
  refine ⟨fun j => ?_, fun j => ?_, fun j m hm => ?_⟩
  · refine (h.addr_eq j).trans ?_
    rcases eq_or_ne j i with rfl | hne
    · rw [Server.afterSend_clients_self]
    · rw [Server.afterSend_clients_of_ne _ _ _ hne]
  · rcases eq_or_ne j i with rfl | hne
    · rw [hself, Option.map_map, Server.afterSend_clients_self]
      exact h.names_eq j
    · rw [Room.say_reply_members_of_ne _ _ hne, Server.afterSend_clients_of_ne _ _ _ hne]
      exact h.names_eq j
  · rcases eq_or_ne j i with rfl | hne
    · rw [hself] at hm
      obtain ⟨m₀, hm₀, rfl⟩ := Option.map_eq_some_iff.mp hm
      rw [Server.afterSend_sent, Function.update_self, h.sent_eq j m₀ hm₀, List.flatMap_append,
        List.flatMap_singleton]
    · rw [Room.say_reply_members_of_ne _ _ hne] at hm
      rw [Server.afterSend_sent, Function.update_of_ne hne]
      exact h.sent_eq j m hm

/-- A client that has been disconnected has left. -/
theorem disconnectClient (h : Simulates s r) {sent : ℕ → List Byte}
    (hsent : ∀ j, j ≠ i → sent j = s.sent j) {r' : Room} (haddr : r'.addr = r.addr)
    (hself : r'.members i = none) (hother : ∀ j, j ≠ i → r'.members j = r.members j) :
    Simulates (Server.disconnectClient { s with sent := sent } i) r' := by
  refine ⟨fun j => ?_, fun j => ?_, fun j m hm => ?_⟩
  · rw [haddr, h.addr_eq j]
    rcases eq_or_ne j i with rfl | hne
    · rw [Server.disconnectClient_clients_self]
    · rw [Server.disconnectClient_clients_of_ne _ _ hne]
  · rcases eq_or_ne j i with rfl | hne
    · rw [hself, Server.disconnectClient_clients_self]
      rfl
    · rw [hother j hne, Server.disconnectClient_clients_of_ne _ _ hne]
      exact h.names_eq j
  · rcases eq_or_ne j i with rfl | hne
    · rw [hself] at hm
      cases hm
    · rw [hother j hne] at hm
      exact (hsent j hne).trans (h.sent_eq j m hm)

/-- A client that refuses a text has left. -/
theorem refused (h : Simulates s r) (htakes : takes i (text.length + 1) = false)
    (out : List Byte) :
    Simulates (Server.disconnectClient
      { s with sent := Function.update s.sent i (s.sent i ++ out) } i)
      (r.say takes (.reply i text)) := by
  refine h.disconnectClient (fun j hne => Function.update_of_ne hne ..) rfl ?_
    fun j hne => r.say_reply_members_of_ne _ hne _
  rw [Room.say_reply_members_self]
  cases r.members i with
  | none => rfl
  | some m => exact if_neg (by simp [htakes])

/-- **Queueing and flushing** is a text that the client hears. -/
theorem hear (h : Simulates s r) (hnamed : Named lfd s) (hactive : (s.clients i).active = true)
    {data : List (List Byte)} (hdata : ∀ d ∈ data, (0 : Byte) ∉ d) (hne : collected data ≠ [])
    {inp : Input} (hcall : s.writeAndFlush i data (inp.writes i) = .ok s') :
    Simulates s' (r.say inp.takes (.reply i (collected data))) := by
  have hready : (s.clients i).Ready :=
    ⟨hnamed.registered.sound i, hactive, hnamed.drained i hactive⟩
  rw [Server.writeAndFlush_of_ready _ hready hdata hne] at hcall
  obtain ⟨hsucceeds, hflush⟩ | ⟨hrefused, out, hflush⟩ | ⟨-, hflush⟩ :=
    s.afterFlush_cases i (collected data) (inp.writes i)
  · rw [hflush] at hcall
    cases hcall
    exact h.afterSend ((inp.takes_eq_true_iff i _).mpr hsucceeds)
  · rw [hflush] at hcall
    cases hcall
    refine h.refused (Bool.eq_false_iff.mpr fun htakes => ?_) out
    exact hrefused.not_succeeds (Nat.succ_ne_zero _) ((inp.takes_eq_true_iff i _).mp htakes)
  · rw [hflush] at hcall
    cases hcall

theorem hear_of_fits (h : Simulates s r) (hnamed : Named lfd s)
    (hactive : (s.clients i).active = true) {data : List (List Byte)} (hdata : Fits data)
    {inp : Input} (hcall : s.writeAndFlush i data (inp.writes i) = .ok s') :
    Simulates s' (r.say inp.takes (.reply i data.flatten)) := by
  have hcollected := collected_of_lt hdata.length_lt
  rw [← hcollected]
  exact h.hear hnamed hactive hdata.zero_notMem (hcollected ▸ hdata.ne_nil) hcall

end Simulates

/-! ### What is said to all -/

/-- The room in which those of `l` have heard what is said. -/
def Room.sayTo (r : Room) (takes : ℕ → ℕ → Bool) (l : List ℕ) (said : Said) : Room :=
  { r with members := fun k => (r.members k).bind fun m =>
      m.hear (takes k) (if k ∈ l then said.heard k else none) }

section SayTo

variable {r : Room} {takes : ℕ → ℕ → Bool} {l : List ℕ} {said : Said} {k : ℕ}

theorem Room.sayTo_nil : r.sayTo takes [] said = r :=
  congrArg (Room.mk r.addr) (funext fun _ => Option.bind_fun_some _)

theorem Room.sayTo_cons (hk : k ∉ l) {text : List Byte} (htext : said.heard k = some text) :
    (r.say takes (.reply k text)).sayTo takes l said = r.sayTo takes (k :: l) said := by
  refine congrArg (Room.mk r.addr) (funext fun j => ?_)
  rcases eq_or_ne j k with rfl | hne
  · rw [Room.say_reply_members_self, if_neg hk, if_pos List.mem_cons_self, htext]
    exact Option.bind_fun_some _
  · rw [Room.say_reply_members_of_ne _ _ hne]
    simp only [List.mem_cons, hne, false_or]

theorem Room.sayTo_cons_of_none (hnone : r.members k = none) :
    r.sayTo takes (k :: l) said = r.sayTo takes l said := by
  refine congrArg (Room.mk r.addr) (funext fun j => ?_)
  rcases eq_or_ne j k with rfl | hne
  · rw [hnone, Option.bind_none, Option.bind_none]
  · simp only [List.mem_cons, hne, false_or]

theorem Room.sayTo_range {n : ℕ} (h : ∀ i, (r.members i).isSome → i < n) :
    r.sayTo takes (List.range n) said = r.say takes said := by
  refine congrArg (Room.mk r.addr) (funext fun j => ?_)
  cases hm : r.members j with
  | none => rw [Option.bind_none, Option.bind_none]
  | some m => rw [if_pos (List.mem_range.mpr (h j (by rw [hm]; rfl)))]

end SayTo

/-- The sender `fd` is active and is shown under `name`. -/
structure Sends (lfd fd : ℕ) (name : List Byte) (s : Server) : Prop where
  named : Named lfd s
  active : (s.clients fd).active = true
  repr_eq : s.getClientRepr fd = name

section Sends

variable {lfd fd i : ℕ} {name : List Byte} {s s' : Server} {r : Room} {inp : Input}
  {text : List Byte}

/-- A sender that is not refused stays. -/
theorem Sends.writeAndFlush (h : Sends lfd fd name s) (hsteady : .written 0 ∉ inp.writes fd)
    {data : List (List Byte)} (hdata : ∀ d ∈ data, (0 : Byte) ∉ d) (hne : collected data ≠ [])
    (hcall : s.writeAndFlush i data (inp.writes i) = .ok s') : Sends lfd fd name s' := by
  have hnamed := (closed_named lfd).writeAndFlush h.named hcall
  rcases eq_or_ne fd i with rfl | hfd
  · have hready : (s.clients fd).Ready :=
      ⟨h.named.registered.sound fd, h.active, h.named.drained fd h.active⟩
    rw [Server.writeAndFlush_of_ready _ hready hdata hne] at hcall
    obtain ⟨-, hflush⟩ | ⟨⟨pre, hpre, -⟩, -⟩ | ⟨-, hflush⟩ :=
      s.afterFlush_cases fd (collected data) (inp.writes fd)
    · rw [hflush] at hcall
      cases hcall
      exact ⟨hnamed, (s.active_afterSend fd _ fd).trans h.active,
        (s.getClientRepr_afterSend fd _ fd).trans h.repr_eq⟩
    · exact absurd (hpre.subset (List.mem_append_right pre List.mem_cons_self)) hsteady
    · rw [hflush] at hcall
      cases hcall
  · have hclient := (Server.writeAndFlush_clients hcall).1 fd hfd
    refine ⟨hnamed, hclient ▸ h.active, ?_⟩
    rw [← h.repr_eq, Server.getClientRepr, Server.getClientRepr, hclient]

/-- **A loop over the active clients** in which each of them is sent its text. -/
theorem Simulates.forActive {body : Server → ℕ → Except Fault Server} {said : Said}
    {takes : ℕ → ℕ → Bool}
    (hturn : ∀ {t t' : Server} {r : Room} {k : ℕ}, Sends lfd fd name t → Simulates t r →
      (t.clients k).active = true → body t k = .ok t' → Sends lfd fd name t' ∧
        ∃ text, said.heard k = some text ∧ Simulates t' (r.say takes (.reply k text)))
    (hlt : ∀ i, (s.clients i).active = true → i < fdSetSize) (h : Simulates s r)
    (hsends : Sends lfd fd name s) (hcall : s.forActive body = .ok s') :
    Simulates s' (r.say takes said) := by
  have hloop : ∀ {l : List ℕ} {t : Server} {r : Room}, l.Nodup → Sends lfd fd name t →
      Simulates t r → l.foldlM (fun s i => if (s.clients i).active then body s i else pure s) t =
        .ok s' → Simulates s' (r.sayTo takes l said) := by
    intro l
    induction l with
    | nil =>
      intro t r _ _ ht hfold
      cases hfold
      rw [Room.sayTo_nil]
      exact ht
    | cons k l ih =>
      intro t r hnodup hsends ht hfold
      obtain ⟨hk, hnodup⟩ := List.nodup_cons.mp hnodup
      rw [List.foldlM_cons] at hfold
      obtain ⟨t₁, hbody, hfold⟩ := exists_of_bind_eq_ok hfold
      split_ifs at hbody with hactive
      · obtain ⟨hsends₁, text, htext, ht₁⟩ := hturn hsends ht hactive hbody
        rw [← Room.sayTo_cons hk htext]
        exact ih hnodup hsends₁ ht₁ hfold
      · cases hbody
        rw [Room.sayTo_cons_of_none (ht.members_eq_none_iff.mpr (by simpa using hactive))]
        exact ih hnodup hsends ht hfold
  rw [← Room.sayTo_range fun i hi => hlt i ((h.isSome_members i).symm.trans hi)]
  exact hloop List.nodup_range hsends h hcall

/-- **A message** is said to all members. -/
theorem Simulates.processMessageFrom (h : Simulates s r) (hsends : Sends lfd fd name s)
    (hlt : ∀ i, (s.clients i).active = true → i < fdSetSize)
    (hsteady : .written 0 ∉ inp.writes fd) (htext : (0 : Byte) ∉ text)
    (hcall : s.processMessageFrom fd inp text = .ok s') :
    Simulates s' (r.say inp.takes (.message fd name text)) := by
  refine h.forActive (fun {t t' r k} hsends ht hactive hbody => ?_) hlt hsends
    ((s.processMessageFrom_eq fd text inp).symm.trans hcall)
  have hinbuff : t.textOf fd inp text k = text :=
    if_pos ((hsends.named.registered.sound fd).input hsends.active).2
  have hhead : (t.messageHead fd k).flatten =
      name ++ (if k = fd then str " (you) " else []) ++ str ": " := by
    rw [Server.messageHead, hsends.repr_eq]
    split_ifs <;> simp
  have hdata := hsends.named.zero_notMem_messageHead hsends.active htext k
  have hne := @Named.collected_message_ne_nil _ _ _ text hsends.named hsends.active k
  rw [hinbuff] at hbody
  refine ⟨hsends.writeAndFlush hsteady hdata hne hbody, _, rfl, ?_⟩
  rw [← hhead, ← hsends.named.collected_message hsends.active]
  exact ht.hear hsends.named hactive hdata hne hbody

end Sends

/-! ### The commands -/

/-- Data is queued up to its first NUL. -/
theorem Server.writeAndFlush_map_cstr (s : Server) (fd : ℕ) (data : List (List Byte))
    (answers : List WriteAnswer) :
    s.writeAndFlush fd (data.map cstr) answers = s.writeAndFlush fd data answers := by
  have hqueue : ∀ d s, Server.writeFdQueue s fd (cstr d) = s.writeFdQueue fd d := fun d s => by
    rw [Server.writeFdQueue, Server.writeFdQueue, cstr_of_notMem (zero_notMem_cstr d)]
  rw [Server.writeAndFlush, Server.writeAndFlush, Server.writeAll, Server.writeAll,
    List.foldl_map]
  simp only [hqueue]

theorem collected_concat {pre : List (List Byte)} (h : pre.flatten.length < initQsiz)
    (d : List Byte) : collected (pre ++ [d]) = enqueue pre.flatten d := by
  rw [collected_append_singleton, collected_of_lt h]

theorem enqueue_ne_nil {text : List Byte} (h : text ≠ []) (d : List Byte) : enqueue text d ≠ [] :=
  fun hnil => h (List.prefix_nil.mp (hnil ▸ prefix_enqueue text d))

/-- A private message is said to the sender and to the addressee. -/
theorem Room.say_whisper (r : Room) (takes : ℕ → ℕ → Bool) {i j : ℕ} (hne : j ≠ i)
    (name name' text : List Byte) : r.say takes (.whisper i j name name' text) =
      (r.say takes (.reply i (enqueue (name ++ str " (-> " ++ name' ++ str "): ") text))).say takes
        (.reply j (enqueue (name ++ str " [priv] :") text)) := by
  refine congrArg (Room.mk r.addr) (funext fun k => ?_)
  rcases eq_or_ne k j with rfl | hk
  · rw [Room.say_reply_members_of_ne _ _ hne]
    simp only [Said.heard, if_neg hne, if_true]
  · simp only [Said.heard, if_neg hk]
    exact (Option.bind_fun_some _).symm

section Commands

variable {lfd fd i : ℕ} {name text : List Byte} {s s' : Server} {r : Room} {inp : Input}

theorem Simulates.processWho (h : Simulates s r) (hnamed : Named lfd s)
    (hactive : (s.clients fd).active = true)
    (hlt : ∀ i, (s.clients i).active = true → i < fdSetSize)
    (hcall : s.processWho fd inp = .ok s') :
    Simulates s' (r.say inp.takes (.reply fd (r.whoText fd))) := by
  rw [Server.processWho] at hcall
  split_ifs at hcall with hzero
  · cases hcall
  · rw [hnamed.registered.filter_registered hlt] at hcall
    rw [h.whoText_eq, ← s.flatten_whoReply fd]
    exact h.hear_of_fits hnamed hactive (hnamed.fits_whoReply fd) hcall

theorem Simulates.processHelp (h : Simulates s r) (hnamed : Named lfd s)
    (hactive : (s.clients fd).active = true) (hcall : s.processHelp fd inp = .ok s') :
    Simulates s' (r.say inp.takes (.reply fd Room.helpText)) := by
  rw [Server.processHelp] at hcall
  have hheard := h.hear_of_fits hnamed hactive
    ⟨by decide +kernel, by decide, by decide +kernel⟩ hcall
  convert hheard using 3
  decide +kernel

/-- **The output of the program** is said to all members. -/
theorem Simulates.processCow (h : Simulates s r) (hsends : Sends lfd fd name s)
    (hlt : ∀ i, (s.clients i).active = true → i < fdSetSize)
    (hsteady : .written 0 ∉ inp.writes fd) (hcall : s.processCow fd inp = .ok s') :
    Simulates s' (r.say inp.takes (if inp.popen.take (1024 * 8) = []
      then .reply fd (str "<Server cowsay cmd>: 'cowsay' command not installed on server!\n")
      else .cow name (inp.popen.take (1024 * 8)))) := by
  rw [Server.processCow] at hcall
  by_cases hempty : inp.popen.take (1024 * 8) = []
  · rw [if_neg (by rw [hempty]; exact lt_irrefl 0)] at hcall
    rw [if_pos hempty]
    have hfits : Fits [str "<Server cowsay cmd>: 'cowsay' command not installed on server!\n"] :=
      ⟨by decide, by decide, by decide⟩
    exact h.hear_of_fits hsends.named hsends.active hfits hcall
  · rw [if_pos (List.length_pos_iff.mpr hempty)] at hcall
    rw [if_neg hempty]
    refine h.forActive (fun {t t' r k} hsends ht hactive hbody => ?_) hlt hsends hcall
    have hrepr := hsends.named.zero_notMem_getClientRepr hsends.active
    have hlen := hsends.named.getClientRepr_length_le hsends.active
    rw [hsends.repr_eq] at hbody hrepr hlen
    have hstr : (0 : Byte) ∉ str "<Server cowsay cmd>:\n" ∧
        (0 : Byte) ∉ str "<Server cowsay cmd>: this comes from user " ∧
        (0 : Byte) ∉ str ".\n" := by decide
    have hlens : (str "<Server cowsay cmd>:\n").length = 21 ∧
        (str "<Server cowsay cmd>: this comes from user ").length = 42 ∧
        (str ".\n").length = 2 := by decide
    have hout : (cstr (inp.popen.take (1024 * 8))).length ≤ 1024 * 8 :=
      (List.takeWhile_prefix _).length_le.trans (List.length_take_le ..)
    rw [← Server.writeAndFlush_map_cstr] at hbody
    simp only [List.map_cons, List.map_nil, cstr_of_notMem hstr.1, cstr_of_notMem hstr.2.1,
      cstr_of_notMem hstr.2.2, cstr_of_notMem hrepr] at hbody
    have hfits : Fits [str "<Server cowsay cmd>:\n", cstr (inp.popen.take (1024 * 8)),
        str "<Server cowsay cmd>: this comes from user ", name, str ".\n"] := by
      refine ⟨?_, ?_, ?_⟩
      · simp only [List.forall_mem_cons]
        exact ⟨hstr.1, zero_notMem_cstr _, hstr.2.1, hrepr, hstr.2.2, List.forall_mem_nil _⟩
      · exact fun hnil => absurd (List.flatten_eq_nil_iff.mp hnil _ List.mem_cons_self) (by decide)
      · have hsmall : 21 + 1024 * 8 + 42 + aliasMaxlen + 2 < initQsiz := by decide
        simp only [List.flatten_cons, List.flatten_nil, List.length_append, List.length_nil]
        omega
    have hdata : (collected _) = _ := collected_of_lt hfits.length_lt
    refine ⟨hsends.writeAndFlush hsteady hfits.zero_notMem (hdata ▸ hfits.ne_nil) hbody, _, rfl, ?_⟩
    have hheard := ht.hear_of_fits hsends.named hactive hfits hbody
    simpa only [List.flatten_cons, List.flatten_nil, List.append_nil, List.append_assoc]
      using hheard

/-! ### Private messages -/

theorem Named.zero_notMem_private (h : Named lfd s) (hactive : (s.clients fd).active = true)
    (hi : (s.clients i).active = true) (htext : (0 : Byte) ∉ text) :
    (∀ d ∈ s.privateCopy fd i text, (0 : Byte) ∉ d) ∧
      ∀ d ∈ s.privateText fd text, (0 : Byte) ∉ d := by
  have hstr : (0 : Byte) ∉ str " (-> " ∧ (0 : Byte) ∉ str "): " ∧
      (0 : Byte) ∉ str " [priv] :" := by decide
  have hrepr := h.zero_notMem_getClientRepr hactive
  have hrepr' := h.zero_notMem_getClientRepr hi
  simp only [Server.privateCopy, Server.privateText, List.forall_mem_cons]
  exact ⟨⟨hrepr, hstr.1, hrepr', hstr.2.1, htext, List.forall_mem_nil _⟩,
    hrepr, hstr.2.2, htext, List.forall_mem_nil _⟩

/-- The queues take the heads of a private message, and the text if there is room behind them. -/
theorem Named.collected_private (h : Named lfd s) (hactive : (s.clients fd).active = true)
    (hi : (s.clients i).active = true) (text : List Byte) :
    collected (s.privateCopy fd i text) = enqueue
      (s.getClientRepr fd ++ str " (-> " ++ s.getClientRepr i ++ str "): ") text ∧
    collected (s.privateText fd text) = enqueue (s.getClientRepr fd ++ str " [priv] :") text := by
  have hstr : (str " (-> ").length = 5 ∧ (str "): ").length = 3 ∧
      (str " [priv] :").length = 9 := by decide
  have hsmall : 2 * aliasMaxlen + 9 < initQsiz := by decide
  have hlen := h.getClientRepr_length_le hactive
  have hlen' := h.getClientRepr_length_le hi
  have hcopy := @collected_concat [s.getClientRepr fd, str " (-> ", s.getClientRepr i, str "): "]
    (by simp only [List.flatten_cons, List.flatten_nil, List.length_append, List.length_nil]; omega)
    text
  have htold := @collected_concat [s.getClientRepr fd, str " [priv] :"]
    (by simp only [List.flatten_cons, List.flatten_nil, List.length_append, List.length_nil]; omega)
    text
  simp only [List.flatten_cons, List.flatten_nil, List.append_nil, ← List.append_assoc]
    at hcopy htold
  exact ⟨hcopy, htold⟩

/-- **A private message** is said to the sender and to the addressee. -/
theorem Simulates.processPrivate (h : Simulates s r) (hnamed : Named lfd s)
    (hactive : (s.clients fd).active = true)
    (hlt : ∀ i, (s.clients i).active = true → i < fdSetSize)
    (hsteady : .written 0 ∉ inp.writes fd) (htext : (0 : Byte) ∉ text)
    (hcall : s.processPrivate fd inp text = .ok s') :
    Simulates s' (r.sayAny inp.takes (r.saidPrivately fd text)) := by
  rw [Server.processPrivate_eq] at hcall
  obtain ⟨found, hfind, hcall⟩ := exists_of_bind_eq_ok hcall
  have haddressee := h.addressee_eq hnamed hlt (privateName_zero_notMem text) hfind
  unfold Room.saidPrivately
  rw [haddressee]
  cases found with
  | none =>
    have hheard := h.hear_of_fits hnamed hactive fits_aliasNotFound hcall
    rwa [Server.aliasNotFound, List.flatten_singleton] at hheard
  | some j =>
    dsimp only at hcall ⊢
    cases hpointer : msgPointer text with
    | none =>
      rw [hpointer] at hcall
      cases hcall
    | some pos =>
      rw [hpointer] at hcall
      obtain ⟨s₁, hfirst, hsecond⟩ := exists_of_bind_eq_ok hcall
      obtain ⟨⟨hne, a, hj, -⟩, -⟩ := (hnamed.registered.findClient_eq_some_iff
        (Server.fds_zero_of_findClient hfind) hnamed.isAlias (privateName_zero_notMem text) j).mp
        hfind
      have hmsg : (0 : Byte) ∉ text.drop pos := fun hmem => htext (List.mem_of_mem_drop hmem)
      have hsends : Sends lfd fd (r.shown fd) s := ⟨hnamed, hactive, (h.shown_eq hactive).symm⟩
      obtain ⟨hzero, hzero'⟩ := hnamed.zero_notMem_private hactive hj.1 hmsg
      obtain ⟨hcopy, htold⟩ := hnamed.collected_private hactive hj.1 (text.drop pos)
      have hrepr := hnamed.getClientRepr_ne_nil hactive
      have hcopyne : collected (s.privateCopy fd j (text.drop pos)) ≠ [] := by
        rw [hcopy]
        exact enqueue_ne_nil (by simp [hrepr]) _
      have htoldne : collected (s.privateText fd (text.drop pos)) ≠ [] := by
        rw [htold]
        exact enqueue_ne_nil (by simp [hrepr]) _
      have hsends₁ := hsends.writeAndFlush hsteady hzero hcopyne hfirst
      have hclient := (Server.writeAndFlush_clients hfirst).1 j hne
      have hinbuff : s₁.textOf fd inp (text.drop pos) j = text.drop pos :=
        if_pos ((hsends₁.named.registered.sound fd).input hsends₁.active).2
      have htext' : s₁.privateText fd (text.drop pos) = s.privateText fd (text.drop pos) := by
        rw [Server.privateText, hsends₁.repr_eq, Server.privateText, hsends.repr_eq]
      rw [hinbuff, htext'] at hsecond
      have hsecond' := (h.hear hnamed hactive hzero hcopyne hfirst).hear hsends₁.named
        (hclient ▸ hj.1) hzero' htoldne hsecond
      rw [Option.map_some, Room.sayAny, Room.say_whisper _ _ hne, h.shown_eq hactive,
        h.shown_eq hj.1]
      rwa [hcopy, htold] at hsecond'

/-! ### Names -/

theorem Simulates.isSome_bind_name (h : Simulates s r) (hactive : (s.clients fd).active = true) :
    ((r.members fd).bind Member.name).isSome = (s.clients fd).hasAlias := by
  rw [h.bind_name hactive]
  split_ifs with hhas
  · exact hhas.symm
  · exact (Bool.eq_false_iff.mpr hhas).symm

/-- A client that has been given an alias is a member that has been given a name. -/
theorem Simulates.putAlias (h : Simulates s r) (hactive : (s.clients fd).active = true)
    (name : List Byte) : Simulates (s.putAlias fd name) (r.putName fd name) := by
  refine ⟨fun j => ?_, fun j => ?_, fun j m hm => ?_⟩
  · refine (h.addr_eq j).trans ?_
    rcases eq_or_ne j fd with rfl | hne
    · rw [Server.putAlias, Server.setClient_clients_self]
    · rw [Server.putAlias, Server.setClient_clients_of_ne _ _ _ hne]
  · rcases eq_or_ne j fd with rfl | hne
    · obtain ⟨m, hm⟩ := Option.isSome_iff_exists.mp ((h.isSome_members j).trans hactive)
      rw [Room.putName, Room.put_members_self, Server.putAlias, Server.setClient_clients_self, hm,
        Client.nameOf, if_pos hactive]
      rfl
    · rw [Room.putName, Room.put_members_of_ne _ hne, Server.putAlias,
        Server.setClient_clients_of_ne _ _ _ hne]
      exact h.names_eq j
  · rcases eq_or_ne j fd with rfl | hne
    · rw [Room.putName, Room.put_members_self] at hm
      obtain ⟨m₀, hm₀, rfl⟩ := Option.map_eq_some_iff.mp hm
      exact h.sent_eq j m₀ hm₀
    · rw [Room.putName, Room.put_members_of_ne _ hne] at hm
      exact h.sent_eq j m hm

/-- **The decision about an alias** is that about the name. -/
theorem Simulates.decideAlias (h : Simulates s r) (hnamed : Named lfd s)
    (hactive : (s.clients fd).active = true)
    (hlt : ∀ i, (s.clients i).active = true → i < fdSetSize) (hname : (0 : Byte) ∉ name)
    (hne : name ≠ []) {t : Server} {answer : List (List Byte)}
    (hdecide : s.decideAlias fd name = .ok (t, answer)) :
    (t = if r.mayTake fd name = true then s.putAlias fd name else s) ∧
      (r.mayTake fd name = true → s.Accepted fd name) ∧
      Fits answer ∧ answer.flatten = r.nameAnswer fd name := by
  have hhas := h.isSome_bind_name hactive
  rw [Server.decideAlias] at hdecide
  rw [Room.mayTake, Room.nameAnswer, ← Option.not_isSome, hhas]
  by_cases halias : (s.clients fd).hasAlias = true
  · rw [if_pos halias] at hdecide
    cases hdecide
    rw [halias, Bool.not_true, Bool.false_and, Bool.false_and, Bool.false_and,
      if_neg Bool.false_ne_true, if_pos rfl, List.flatten_singleton]
    exact ⟨rfl, fun heq => absurd heq Bool.false_ne_true, ⟨by decide, by decide, by decide⟩, rfl⟩
  rw [if_neg halias] at hdecide
  rw [if_neg halias, Bool.eq_false_iff.mpr halias, Bool.not_false, Bool.true_and]
  by_cases hlong : name.length > aliasMaxlen
  · rw [if_pos hlong] at hdecide
    cases hdecide
    rw [decide_eq_false (Nat.not_le.mpr hlong), Bool.false_and, Bool.false_and,
      if_neg Bool.false_ne_true, if_pos hlong, List.flatten_singleton]
    exact ⟨rfl, fun heq => absurd heq Bool.false_ne_true, ⟨by decide, by decide, by decide⟩, rfl⟩
  rw [if_neg hlong] at hdecide
  rw [if_neg hlong, decide_eq_true (Nat.not_lt.mp hlong), Bool.true_and]
  by_cases hchars : name.any (· ∉ aliasAllowedChars) = true
  · rw [if_pos hchars] at hdecide
    cases hdecide
    have hall : name.all (· ∈ aliasAllowedChars) = false := by
      rw [← Bool.not_eq_true, List.all_eq_true]
      obtain ⟨c, hc, hnot⟩ := List.any_eq_true.mp hchars
      exact fun hall => of_decide_eq_true hnot (of_decide_eq_true (hall c hc))
    rw [hall, Bool.false_and, if_neg Bool.false_ne_true, if_pos hchars, List.flatten_singleton]
    exact ⟨rfl, fun heq => absurd heq Bool.false_ne_true, ⟨by decide, by decide, by decide⟩, rfl⟩
  rw [if_neg hchars] at hdecide
  have hall : name.all (· ∈ aliasAllowedChars) = true := by
    simpa using hchars
  rw [if_neg hchars, hall, Bool.true_and]
  obtain ⟨found, hfind, hdecide⟩ := exists_of_bind_eq_ok hdecide
  rw [h.addressee_eq hnamed hlt hname hfind]
  cases found with
  | some j =>
    cases hdecide
    rw [Option.isSome_some, Option.isNone_some, if_neg Bool.false_ne_true, if_pos rfl,
      List.flatten_singleton]
    exact ⟨rfl, fun heq => absurd heq Bool.false_ne_true, ⟨by decide, by decide, by decide⟩, rfl⟩
  | none =>
    cases hdecide
    rw [Option.isNone_none, Option.isSome_none, if_pos rfl, if_neg Bool.false_ne_true]
    have haccepted : s.Accepted fd name :=
      ⟨Bool.eq_false_iff.mpr halias, hne, Nat.not_lt.mp hlong, by simpa using hchars, hfind⟩
    refine ⟨rfl, fun _ => haccepted, ⟨?_, ?_, ?_⟩, ?_⟩
    · have hstr : (0 : Byte) ∉ str "<Server alias cmd>: OK, alias set to " ∧
          (0 : Byte) ∉ str "." := by decide
      simp only [List.forall_mem_cons]
      exact ⟨hstr.1, hname, hstr.2, List.forall_mem_nil _⟩
    · exact fun hnil => absurd (List.flatten_eq_nil_iff.mp hnil _ List.mem_cons_self) (by decide)
    · have hlens : (str "<Server alias cmd>: OK, alias set to ").length = 37 ∧
          (str ".").length = 1 := by decide
      have hsmall : 37 + aliasMaxlen + 1 < initQsiz := by decide
      simp only [List.flatten_cons, List.flatten_nil, List.length_append, List.length_nil]
      omega
    · simp only [List.flatten_cons, List.flatten_nil, List.append_nil, List.append_assoc]

theorem Simulates.processAlias (h : Simulates s r) (hnamed : Named lfd s)
    (hactive : (s.clients fd).active = true)
    (hlt : ∀ i, (s.clients i).active = true → i < fdSetSize) (htext : (0 : Byte) ∉ text)
    (hlen : magicStrAlias.length < text.length) (hcall : s.processAlias fd inp text = .ok s') :
    Simulates s' ((if r.mayTake fd (text.drop magicStrAlias.length) = true
      then r.putName fd (text.drop magicStrAlias.length) else r).say inp.takes
        (.reply fd (r.nameAnswer fd (text.drop magicStrAlias.length)))) := by
  have hname : (0 : Byte) ∉ text.drop magicStrAlias.length := fun hmem =>
    htext (List.mem_of_mem_drop hmem)
  rw [Server.processAlias_eq] at hcall
  obtain ⟨⟨t, answer⟩, hdecide, hsend⟩ := exists_of_bind_eq_ok hcall
  have hne : text.drop magicStrAlias.length ≠ [] :=
    List.ne_nil_of_length_pos (by rw [List.length_drop]; omega)
  obtain ⟨ht, haccepted, hfits, hanswer⟩ := h.decideAlias hnamed hactive hlt hname hne hdecide
  rw [← hanswer]
  split_ifs at ht ⊢ with htake
  · obtain rfl : t = s.putAlias fd (text.drop magicStrAlias.length) := ht
    refine (h.putAlias hactive _).hear_of_fits (hnamed.putAlias (haccepted htake)) ?_ hfits hsend
    rw [Server.putAlias, Server.setClient_clients_self]
    exact hactive
  · obtain rfl : t = s := ht
    exact h.hear_of_fits hnamed hactive hfits hsend

/-! ### The calls of handlers -/

/-- **A new connection** is a member that is greeted. -/
theorem Simulates.acceptClient (h : Simulates s r) (hnamed : Named lfd s) (hvalid : inp.Valid s)
    {nfd : ℕ} {caddr : InAddr} (haccept : inp.accept = some (nfd, caddr))
    (hcall : s.acceptClient inp = .ok s') :
    Simulates s' ((r.enter (.connect nfd caddr)).say inp.takes (.reply nfd Room.greeting)) := by
  have hclosed := (hvalid nfd caddr haccept).1
  rw [Server.acceptClient, haccept] at hcall
  dsimp only at hcall
  rw [if_neg (by simp [(hnamed.registered.inactive_of_closed hclosed).2])] at hcall
  have hput : Simulates (s.putConnection nfd caddr) (r.enter (.connect nfd caddr)) := by
    refine ⟨fun j => ?_, fun j => ?_, fun j m hm => ?_⟩
    all_goals dsimp only [Server.putConnection, Server.setClient, Room.enter] at *
    · rcases eq_or_ne j nfd with rfl | hne
      · rw [Function.update_self, Function.update_self]
      · rw [Function.update_of_ne hne, Function.update_of_ne hne, h.addr_eq]
    · rcases eq_or_ne j nfd with rfl | hne
      · rw [Room.put_members_self, Function.update_self]
        rfl
      · rw [Room.put_members_of_ne _ hne, Function.update_of_ne hne, h.names_eq]
    · rcases eq_or_ne j nfd with rfl | hne
      · rw [Room.put_members_self] at hm
        cases hm
        rw [Function.update_self]
        rfl
      · rw [Room.put_members_of_ne _ hne] at hm
        rw [Function.update_of_ne hne, h.sent_eq j m hm]
  have hfits : Fits [str "Hello from server!\n", str "Enter '\\help' for a list of commands.\n"] :=
    ⟨by decide, by decide, by decide⟩
  have hactive : ((s.putConnection nfd caddr).clients nfd).active = true := by
    dsimp only [Server.putConnection, Server.setClient]
    rw [Function.update_self]
  have hheard := hput.hear_of_fits ((closed_named lfd).putConnection caddr hnamed hclosed) hactive
    hfits hcall
  rwa [List.flatten_cons, List.flatten_singleton] at hheard

theorem Server.processed_eq_received (hlen : (s.clients fd).inLen = initQsiz) :
    s.processed fd inp = inp.received := by
  rw [Server.processed, hlen, Input.received]

theorem Simulates.afterRead (h : Simulates s r) : Simulates (s.afterRead fd inp) r := by
  refine h.congr (fun j => ?_) (fun j => ?_) rfl
  · obtain ⟨inbuff, hclient⟩ := s.afterRead_clients fd inp j
    rw [hclient]
  · obtain ⟨inbuff, hclient⟩ := s.afterRead_clients fd inp j
    rw [hclient, Client.nameOf, Client.nameOf]

/-- **The handler of a text** is the event of this text. -/
theorem Simulates.runCommand (h : Simulates s r) (hnamed : Named lfd s)
    (hactive : (s.clients fd).active = true)
    (hlt : ∀ i, (s.clients i).active = true → i < fdSetSize) (htext : (0 : Byte) ∉ text)
    (hsteady : commandOf text = .message ∨ commandOf text = .cow ∨
      commandOf text = .privateMsg → .written 0 ∉ inp.writes fd)
    (hcall : s.runCommand fd inp text (commandOf text) = .ok s') :
    Simulates s' (r.step inp.takes (.text fd text (inp.popen.take (1024 * 8)))) := by
  have hsends : Sends lfd fd (r.shown fd) s := ⟨hnamed, hactive, (h.shown_eq hactive).symm⟩
  rw [Room.step, Room.enter, Room.said, Room.saidBy]
  cases hcommand : commandOf text with
  | who =>
    rw [hcommand] at hcall
    rw [if_neg (fun hand => by cases hand.1)]
    exact h.processWho hnamed hactive hlt hcall
  | setAlias =>
    rw [hcommand] at hcall
    simp only [true_and]
    exact h.processAlias hnamed hactive hlt htext (length_of_setAlias hcommand) hcall
  | help =>
    rw [hcommand] at hcall
    rw [if_neg (fun hand => by cases hand.1)]
    exact h.processHelp hnamed hactive hcall
  | cow =>
    rw [hcommand] at hcall
    rw [if_neg (fun hand => by cases hand.1)]
    have hcow := h.processCow hsends hlt (hsteady (.inr (.inl hcommand))) hcall
    dsimp only
    split_ifs at hcow ⊢ with hempty
    · exact hcow
    · exact hcow
  | privateMsg =>
    rw [hcommand] at hcall
    rw [if_neg (fun hand => by cases hand.1)]
    exact h.processPrivate hnamed hactive hlt (hsteady (.inr (.inr hcommand))) htext hcall
  | message =>
    rw [hcommand] at hcall
    rw [if_neg (fun hand => by cases hand.1)]
    exact h.processMessageFrom hsends hlt (hsteady (.inl hcommand)) htext hcall

/-- A call for another descriptor than the listening socket is one for an active client. -/
theorem Registered.active_of_callHandler (h : Registered lfd s) (hne : i ≠ lfd)
    (hcall : s.callHandler i inp = .ok s') :
    (s.clients i).active = true ∧ s.processClient i inp = .ok s' := by
  have hf := h.f_eq i
  rw [if_neg hne] at hf
  rw [Server.callHandler, hf] at hcall
  cases hfds : s.read.fds i with
  | false =>
    rw [hfds, if_neg Bool.false_ne_true] at hcall
    cases hcall
  | true =>
    rw [hfds, if_pos rfl] at hcall
    exact ⟨(h.active_iff i).mpr ⟨hfds, hne⟩, hcall⟩

/-- **A client** that hangs up, has nothing to read, or sends a text. -/
theorem Simulates.processClient (h : Simulates s r) (hnamed : Named lfd s)
    (hactive : (s.clients i).active = true)
    (hlt : ∀ i, (s.clients i).active = true → i < fdSetSize) (hlfd : i ≠ lfd)
    (hsteady : inp.Steady lfd i) (hcall : s.processClient i inp = .ok s') :
    Simulates s' (r.step inp.takes (inp.event lfd i)) := by
  have hreceived : s.processed i inp = inp.received :=
    Server.processed_eq_received ((hnamed.registered.sound i).input hactive).1
  have hread : Simulates (s.afterRead i inp) r := h.afterRead
  have hactive' : ∀ j, ((s.afterRead i inp).clients j).active = (s.clients j).active :=
    fun j => s.afterRead_active i inp j
  rw [Server.processClient_eq, hreceived] at hcall
  rw [Input.event, if_neg hlfd]
  cases htext : inp.received with
  | none =>
    rw [htext] at hcall
    dsimp only at hcall ⊢
    split_ifs at hcall ⊢ with hagain
    · cases hcall
      exact hread
    · cases hcall
      exact hread.disconnectClient (fun _ _ => rfl) rfl (Room.put_members_self ..)
        fun j hne => Room.put_members_of_ne _ hne _
  | some text =>
    rw [htext] at hcall hreceived
    dsimp only at hcall ⊢
    rw [Server.processString_eq] at hcall
    exact hread.runCommand (hnamed.afterRead i inp) ((hactive' i).trans hactive)
      (fun j hj => hlt j ((hactive' j).symm.trans hj)) (zero_notMem_of_processed hreceived)
      (hsteady text hlfd htext) hcall

/-- **A call of a handler** is an event of the room. -/
theorem Simulates.callHandler (h : Simulates s r) (hnamed : Named lfd s)
    (hlt : ∀ i, (s.clients i).active = true → i < fdSetSize) (hvalid : inp.Valid s)
    (hsteady : inp.Steady lfd i) (hcall : s.callHandler i inp = .ok s') :
    Simulates s' (r.step inp.takes (inp.event lfd i)) := by
  by_cases hlfd : i = lfd
  · have hf := hnamed.registered.f_eq i
    rw [if_pos hlfd, hlfd, hnamed.registered.lfd_registered, if_pos rfl] at hf
    rw [Server.callHandler, hlfd, hf] at hcall
    rw [Input.event, if_pos hlfd]
    cases haccept : inp.accept with
    | none =>
      rw [Server.acceptClient, haccept] at hcall
      cases hcall
      exact h
    | some conn => exact h.acceptClient hnamed hvalid haccept hcall
  · obtain ⟨hactive, hcall⟩ := hnamed.registered.active_of_callHandler hlfd hcall
    exact h.processClient hnamed hactive hlt hlfd hsteady hcall

end Commands

/-! ### Traces -/

/-- The room after a call of a handler. -/
noncomputable def Room.next (lfd : ℕ) (r : Room) (a : ℕ × Input) : Room :=
  r.step a.2.takes (a.2.event lfd a.1)

theorem simulates_serverMain (opened : ℕ → Bool) (lfd : ℕ) :
    Simulates (serverMain opened lfd) Room.empty where
  addr_eq _ := rfl
  names_eq _ := rfl
  sent_eq _ _ hm := by cases hm

/-- A step of the server, between reachable states, is an event of the room. -/
theorem Simulates.handlerStep {opened : ℕ → Bool} {lfd : ℕ} {s s' : Server} {r : Room}
    {a : ℕ × Input} (h : Simulates s r) (hs : Reachable opened lfd s)
    (hsteady : a.2.Steady lfd a.1) (hstep : Chat.handlerStep s a s') :
    Reachable opened lfd s' ∧ Simulates s' (r.next lfd a) :=
  ⟨hs.call hstep.1 hstep.2, h.callHandler hs.named hs.lt_fdSetSize hstep.1 hsteady hstep.2⟩

/-- The simulation is kept by a trace. -/
theorem Simulates.of_trace {opened : ℕ → Bool} {lfd : ℕ} {calls : List (ℕ × Input)} {s : Server}
    (h : Trace Chat.handlerStep (fun _ a => a.2.Steady lfd a.1) (serverMain opened lfd) calls s) :
    Reachable opened lfd s ∧ Simulates s (calls.foldl (Room.next lfd) Room.empty) :=
  h.simulates .main (simulates_serverMain opened lfd)
    (fun hs _ hstep => hs.call hstep.1 hstep.2)
    fun hs hsim hsteady hstep => (hsim.handlerStep hs hsteady hstep).2

/-- **The server is the room.** After every trace of calls of handlers, in which no sender is
refused while its own text goes out, the active clients are the members of the room after the
events of these calls, their aliases are the names of the members, and the bytes that have been
written to each of them are the frames of the texts that the member has been sent. -/
theorem simulates_of_trace {opened : ℕ → Bool} {lfd : ℕ} {calls : List (ℕ × Input)} {s : Server}
    (h : Trace handlerStep (fun _ a => a.2.Steady lfd a.1) (serverMain opened lfd) calls s) :
    Simulates s (calls.foldl (Room.next lfd) Room.empty) :=
  (Simulates.of_trace h).2

/-! ### A run without failures -/

/-- Calls of handlers one after the other, in which all writes succeed; a call is given by its
descriptor, the descriptor of the next connection and the text of the `read`. -/
def Server.fullCalls (s : Server) (calls : List (ℕ × ℕ × List Byte)) : Except Fault Server :=
  calls.foldlM (fun s c => s.callHandler c.1 (fullInput c.2.1 c.2.2 s)) s

theorem fullInput_steady (nfd : ℕ) (text : List Byte) (s : Server) (lfd i : ℕ) :
    (fullInput nfd text s).Steady lfd i :=
  fun _ _ _ _ => by simp [fullInput]

theorem exists_trace_of_fullCalls {lfd : ℕ} {s₀ s s' : Server} {as : List (ℕ × Input)}
    (h : Trace handlerStep (fun _ a => a.2.Steady lfd a.1) s₀ as s)
    {calls : List (ℕ × ℕ × List Byte)} (hnfd : ∀ c ∈ calls, c.2.1 < fdSetSize)
    (hcalls : s.fullCalls calls = .ok s') :
    ∃ as', Trace handlerStep (fun _ a => a.2.Steady lfd a.1) s₀ as' s' := by
  refine of_foldlM_eq_ok (P := fun s => ∃ as', Trace handlerStep _ s₀ as' s)
    (fun c hc s s' hs hcall => ?_) ⟨as, h⟩ hcalls
  obtain ⟨as', hs⟩ := hs
  exact ⟨_, hs.snoc (a := (c.1, fullInput c.2.1 c.2.2 s)) (fullInput_steady _ _ _ _ _)
    ⟨fullInput_valid (hnfd c hc) _ _, hcall⟩⟩

/-- A client connects and says something. -/
theorem exists_trace_hi : ∃ calls s, (s.clients 4).active = true ∧
    Trace handlerStep (fun _ a => a.2.Steady 3 a.1) (serverMain (fun _ => false) 3) calls s := by
  have hrun : ((serverMain (fun _ => false) 3).fullCalls [(3, 4, []), (4, 5, str "hi")]).map
      (fun s => (s.clients 4).active) = .ok true := by decide +kernel
  obtain ⟨s, hs, hactive⟩ := exists_of_map_eq_ok hrun
  obtain ⟨calls, htrace⟩ := exists_trace_of_fullCalls .nil (by decide) hs
  exact ⟨calls, s, hactive, htrace⟩

/-- The conditions of the theorem can be met. -/
theorem simulates_of_trace_hi : ∃ (calls : List (ℕ × Input)) (s : Server),
    (s.clients 4).active = true ∧ Simulates s (calls.foldl (Room.next 3) Room.empty) := by
  obtain ⟨calls, s, hactive, htrace⟩ := exists_trace_hi
  exact ⟨calls, s, hactive, simulates_of_trace htrace⟩

end TikFachpraktika.Chat
