import TikFachpraktika.Chat.Server.Simulation

/-!
# Private messages are secret

What is said between two clients of the chat server leaves no trace with a third one. Two runs
that differ in private messages only, of other clients and to other clients, look the same to it:
the messages may be missing in one of the runs, go to somebody else or have another text.

## Main definitions

* `Room.SameFor`: two rooms that look the same to a member.
* `Unheard`: a call for a private message that is not from or to a client.
* `PairTrace`: two runs that differ in such calls.

## Main results

* `sent_eq_of_pairTrace`: the client is sent the same in both runs.
-/

namespace TikFachpraktika.Chat

open Posix Transition

/-! ### Rooms that look the same -/

/-- Two rooms with the same members and names, which look the same to the member `k`. -/
structure Room.SameFor (k : ℕ) (r r' : Room) : Prop where
  addr_eq : r.addr = r'.addr
  names_eq : ∀ i, (r.members i).map Member.name = (r'.members i).map Member.name
  member_eq : r.members k = r'.members k

namespace Room.SameFor

variable {k : ℕ} {r r' r'' : Room}

theorem refl (k : ℕ) (r : Room) : r.SameFor k r :=
  ⟨rfl, fun _ => rfl, rfl⟩

theorem symm (h : r.SameFor k r') : r'.SameFor k r :=
  ⟨h.addr_eq.symm, fun i => (h.names_eq i).symm, h.member_eq.symm⟩

theorem trans (h : r.SameFor k r') (h' : r'.SameFor k r'') : r.SameFor k r'' :=
  ⟨h.addr_eq.trans h'.addr_eq, fun i => (h.names_eq i).trans (h'.names_eq i),
    h.member_eq.trans h'.member_eq⟩

theorem isSome_eq (h : r.SameFor k r') (i : ℕ) : (r.members i).isSome = (r'.members i).isSome := by
  have hname := congrArg Option.isSome (h.names_eq i)
  rwa [Option.isSome_map, Option.isSome_map] at hname

theorem bind_name_eq (h : r.SameFor k r') (i : ℕ) :
    (r.members i).bind Member.name = (r'.members i).bind Member.name := by
  have hname := congrArg (Option.bind · id) (h.names_eq i)
  rwa [Option.bind_map, Option.bind_map] at hname

/-! #### What is said -/

theorem shown_eq (h : r.SameFor k r') : r.shown = r'.shown := by
  funext i
  rw [shown, shown, h.bind_name_eq, h.addr_eq]

theorem addressee_eq (h : r.SameFor k r') : r.addressee = r'.addressee := by
  funext i name
  simp only [addressee, h.bind_name_eq]

theorem whoText_eq (h : r.SameFor k r') : r.whoText = r'.whoText := by
  funext i
  simp only [whoText, present, h.shown_eq, h.isSome_eq]

theorem mayTake_eq (h : r.SameFor k r') : r.mayTake = r'.mayTake := by
  funext i name
  rw [mayTake, mayTake, h.bind_name_eq, h.addressee_eq]

theorem nameAnswer_eq (h : r.SameFor k r') : r.nameAnswer = r'.nameAnswer := by
  funext i name
  unfold nameAnswer
  rw [h.bind_name_eq, h.addressee_eq]

/-- The same is said in both rooms. -/
theorem said_eq (h : r.SameFor k r') (event : Event) : r.said event = r'.said event := by
  cases event with
  | idle => rfl
  | connect i addr => rfl
  | hangUp i => rfl
  | text i text output =>
    rw [said, said]
    unfold saidBy saidPrivately
    rw [h.whoText_eq, h.nameAnswer_eq, h.shown_eq, h.addressee_eq]

/-! #### The steps -/

theorem put (h : r.SameFor k r') (i : ℕ) {m m' : Option Member}
    (hname : m.map Member.name = m'.map Member.name) (hmember : i = k → m = m') :
    (r.put i m).SameFor k (r'.put i m') where
  addr_eq := h.addr_eq
  names_eq j := by
    rcases eq_or_ne j i with rfl | hne
    · rw [put_members_self, put_members_self, hname]
    · rw [put_members_of_ne _ hne, put_members_of_ne _ hne, h.names_eq]
  member_eq := by
    rcases eq_or_ne k i with rfl | hne
    · rw [put_members_self, put_members_self, hmember rfl]
    · rw [put_members_of_ne _ hne, put_members_of_ne _ hne, h.member_eq]

theorem enter (h : r.SameFor k r') (event : Event) :
    (r.enter event).SameFor k (r'.enter event) := by
  cases event with
  | idle => exact h
  | connect i addr =>
    have hput := h.put i (rfl : (some (⟨none, []⟩ : Member)).map Member.name = _) fun _ => rfl
    exact ⟨by rw [Room.enter, Room.enter, h.addr_eq], hput.names_eq, hput.member_eq⟩
  | hangUp i => exact h.put i rfl fun _ => rfl
  | text i text output =>
    rw [Room.enter, Room.enter, h.mayTake_eq]
    split_ifs with hname
    · refine h.put i ?_ fun hi => by rw [hi, h.member_eq]
      have hmap := congrArg (Option.map fun _ => some (text.drop magicStrAlias.length))
        (h.names_eq i)
      rwa [Option.map_map, Option.map_map] at hmap ⊢
    · exact h

/-- What members with the same name become when they hear a text. -/
theorem name_hear {m m' : Member} (h : m.name = m'.name) (takes : ℕ → Bool)
    (text : Option (List Byte)) :
    (m.hear takes text).map Member.name = (m'.hear takes text).map Member.name := by
  cases text with
  | none => exact congrArg some h
  | some text =>
    rw [Member.hear, Member.hear]
    split_ifs
    · exact congrArg some h
    · rfl

theorem say (h : r.SameFor k r') (takes : ℕ → ℕ → Bool) (said : Said) :
    (r.say takes said).SameFor k (r'.say takes said) where
  addr_eq := h.addr_eq
  names_eq i := by
    have hname := h.names_eq i
    rw [Room.say, Room.say]
    dsimp only
    cases hm : r.members i with
    | none =>
      rw [hm] at hname
      rw [Option.map_eq_none_iff.mp hname.symm]
    | some m =>
      rw [hm] at hname
      obtain ⟨m', hm', heq⟩ := Option.map_eq_some_iff.mp hname.symm
      rw [hm', Option.bind_some, Option.bind_some]
      exact name_hear heq.symm _ _
  member_eq := by
    rw [Room.say, Room.say]
    dsimp only
    rw [h.member_eq]

/-- **An event** leaves rooms that look the same such rooms. -/
theorem step (h : r.SameFor k r') (takes : ℕ → ℕ → Bool) (event : Event) :
    (r.step takes event).SameFor k (r'.step takes event) := by
  rw [Room.step, Room.step, ← h.said_eq]
  cases r.said event with
  | none => exact h.enter event
  | some said => exact (h.enter event).say takes said

/-- What `k` does not hear, and all others take, changes nothing for it. -/
theorem of_unheard (r : Room) {takes : ℕ → ℕ → Bool} {said : Said} (hk : said.heard k = none)
    (htakes : ∀ i text, said.heard i = some text → takes i (text.length + 1) = true) :
    (r.say takes said).SameFor k r where
  addr_eq := rfl
  names_eq i := by
    rw [Room.say]
    dsimp only
    cases r.members i with
    | none => rfl
    | some m =>
      rw [Option.bind_some]
      cases htext : said.heard i with
      | none => rfl
      | some text =>
        rw [Member.hear, if_pos (htakes i text htext)]
        rfl
  member_eq := by
    rw [Room.say]
    dsimp only
    rw [hk]
    exact Option.bind_fun_some _

end Room.SameFor

/-! ### Private messages of others -/

/-- A call of the handler of `i` for a private message that is not from `k`, for which the server
does not find `k`, and that all connections take. -/
structure Unheard (k lfd : ℕ) (s : Server) (a : ℕ × Input) : Prop where
  sender_ne : a.1 ≠ k
  client : a.1 ≠ lfd
  text : ∃ text, a.2.received = some text ∧ commandOf text = .privateMsg ∧
    s.findClient (s.nameMatches a.1 (privateName text)) ≠ .ok (some k)
  takes : ∀ j, Succeeds (a.2.writes j) initQsiz

theorem Server.findClient_afterRead (s : Server) (fd : ℕ) (inp : Input) (i : ℕ)
    (name : List Byte) : (s.afterRead fd inp).findClient ((s.afterRead fd inp).nameMatches i name) =
      s.findClient (s.nameMatches i name) := by
  have hmatches : (s.afterRead fd inp).nameMatches i name = s.nameMatches i name := by
    funext j
    obtain ⟨inbuff, hclient⟩ := s.afterRead_clients fd inp j
    rw [Server.nameMatches, hclient, Server.nameMatches]
  rw [hmatches, Server.findClient, Server.findClient]
  rfl

section Unheard

variable {lfd k : ℕ} {s s' : Server} {r : Room} {a : ℕ × Input}

theorem Input.takes_of_lt {inp : Input} {i : ℕ} (h : Succeeds (inp.writes i) initQsiz)
    {text : List Byte} (hlt : text.length < initQsiz) : inp.takes i (text.length + 1) = true :=
  (inp.takes_eq_true_iff i _).mpr (h.mono hlt)

/-- The search of a private message does not fail when the call returns. -/
theorem Registered.exists_findClient (h : Registered lfd s) {i : ℕ} {inp : Input} {text : List Byte}
    (hne : i ≠ lfd) (htext : inp.received = some text) (hcommand : commandOf text = .privateMsg)
    (hcall : s.callHandler i inp = .ok s') :
    ∃ found, s.findClient (s.nameMatches i (privateName text)) = .ok found := by
  have hactive := (h.active_of_callHandler hne hcall).1
  have hprocessed : s.processed i inp = some text :=
    (Server.processed_eq_received ((h.sound i).input hactive).1).trans htext
  rw [h.callHandler_of_processed hactive hprocessed, hcommand, Server.runCommand,
    Server.processPrivate_eq] at hcall
  obtain ⟨found, hfind, -⟩ := exists_of_bind_eq_ok hcall
  exact ⟨found, (s.findClient_afterRead i inp i _).symm.trans hfind⟩

/-- The event of a private message. -/
theorem Room.next_of_private (r : Room) {i : ℕ} {inp : Input} {text : List Byte} (hne : i ≠ lfd)
    (htext : inp.received = some text) (hcommand : commandOf text = .privateMsg) :
    r.next lfd (i, inp) = r.sayAny inp.takes (r.saidPrivately i text) := by
  have hevent : inp.event lfd i = .text i text (inp.popen.take (1024 * 8)) := by
    rw [Input.event, if_neg hne, htext]
  rw [Room.next, hevent, Room.step, Room.enter, Room.said, Room.saidBy, hcommand,
    if_neg (fun hand => by cases hand.1)]

/-- **Such a call leaves a room** that looks the same to `k`. -/
theorem Unheard.sameFor (h : Unheard k lfd s a) (hsim : Simulates s r) (hnamed : Named lfd s)
    (hlt : ∀ i, (s.clients i).active = true → i < fdSetSize) (hstep : handlerStep s a s') :
    (r.next lfd a).SameFor k r := by
  obtain ⟨i, inp⟩ := a
  obtain ⟨hik, hilfd, ⟨text, htext, hcommand, hother⟩, htakes⟩ := h
  have hactive := (hnamed.registered.active_of_callHandler hilfd hstep.2).1
  obtain ⟨found, hfind⟩ := hnamed.registered.exists_findClient hilfd htext hcommand hstep.2
  have haddressee := hsim.addressee_eq hnamed hlt (privateName_zero_notMem text) hfind
  rw [r.next_of_private hilfd htext hcommand]
  unfold Room.saidPrivately
  rw [haddressee]
  cases found with
  | none =>
    refine .of_unheard r (if_neg hik.symm) fun j t ht => ?_
    have hshort : (str "<Server @ cmd>: Alias not found.").length < initQsiz := by decide
    simp only [Said.heard] at ht
    split_ifs at ht
    exact inp.takes_of_lt (htakes j) (Option.some.inj ht ▸ hshort)
  | some j =>
    dsimp only
    cases msgPointer text with
    | none => exact .refl k r
    | some pos =>
      have hjk : j ≠ k := fun heq => hother (heq ▸ hfind)
      have hj : (s.clients j).active = true := by
        obtain ⟨⟨-, a, ha, -⟩, -⟩ := (hnamed.registered.findClient_eq_some_iff
          (Server.fds_zero_of_findClient hfind) hnamed.isAlias (privateName_zero_notMem text) j).mp
          hfind
        exact ha.1
      have hlen := hnamed.collected_private hactive hj (text.drop pos)
      rw [← hsim.shown_eq hactive, ← hsim.shown_eq hj] at hlen
      refine .of_unheard r ?_ fun l t ht => inp.takes_of_lt (htakes l) ?_
      · simp only [Said.heard, if_neg hik.symm, if_neg hjk.symm]
      · simp only [Said.heard] at ht
        split_ifs at ht
        · rw [← Option.some.inj ht, ← hlen.1]
          exact length_collected_lt _
        · rw [← Option.some.inj ht, ← hlen.2]
          exact length_collected_lt _

end Unheard

/-! ### Two runs -/

/-- Two runs that make the same calls, besides private messages that are neither from `k` nor for
`k`, which may be in one of the runs only. -/
inductive PairTrace (k lfd : ℕ) (s₀ t₀ : Server) : Server → Server → Prop
  | refl : PairTrace k lfd s₀ t₀ s₀ t₀
  | both {s t s' t' : Server} {a : ℕ × Input} (h : PairTrace k lfd s₀ t₀ s t)
      (hsteady : a.2.Steady lfd a.1) (hs : handlerStep s a s') (ht : handlerStep t a t') :
      PairTrace k lfd s₀ t₀ s' t'
  | left {s t s' : Server} {a : ℕ × Input} (h : PairTrace k lfd s₀ t₀ s t)
      (hsteady : a.2.Steady lfd a.1) (hunheard : Unheard k lfd s a) (hs : handlerStep s a s') :
      PairTrace k lfd s₀ t₀ s' t
  | right {s t t' : Server} {a : ℕ × Input} (h : PairTrace k lfd s₀ t₀ s t)
      (hsteady : a.2.Steady lfd a.1) (hunheard : Unheard k lfd t a) (ht : handlerStep t a t') :
      PairTrace k lfd s₀ t₀ s t'

section Pair

variable {opened : ℕ → Bool} {lfd k : ℕ} {s t : Server}

/-- The two runs are simulated by rooms that look the same to `k`. -/
theorem PairTrace.exists_sameFor
    (h : PairTrace k lfd (serverMain opened lfd) (serverMain opened lfd) s t) :
    Reachable opened lfd s ∧ Reachable opened lfd t ∧
      ∃ r r', Simulates s r ∧ Simulates t r' ∧ r.SameFor k r' := by
  induction h with
  | refl =>
    exact ⟨.main, .main, _, _, simulates_serverMain opened lfd, simulates_serverMain opened lfd,
      .refl k _⟩
  | @both s t s' t' a _ hsteady hs ht ih =>
    obtain ⟨hreach, hreach', r, r', hsim, hsim', hsame⟩ := ih
    obtain ⟨hnext, hr⟩ := hsim.handlerStep hreach hsteady hs
    obtain ⟨hnext', hr'⟩ := hsim'.handlerStep hreach' hsteady ht
    exact ⟨hnext, hnext', _, _, hr, hr', hsame.step a.2.takes _⟩
  | @left s t s' a _ hsteady hunheard hs ih =>
    obtain ⟨hreach, hreach', r, r', hsim, hsim', hsame⟩ := ih
    obtain ⟨hnext, hr⟩ := hsim.handlerStep hreach hsteady hs
    exact ⟨hnext, hreach', _, _, hr, hsim',
      (hunheard.sameFor hsim hreach.named hreach.lt_fdSetSize hs).trans hsame⟩
  | @right s t t' a _ hsteady hunheard ht ih =>
    obtain ⟨hreach, hreach', r, r', hsim, hsim', hsame⟩ := ih
    obtain ⟨hnext', hr'⟩ := hsim'.handlerStep hreach' hsteady ht
    exact ⟨hreach, hnext', _, _, hsim, hr',
      hsame.trans (hunheard.sameFor hsim' hreach'.named hreach'.lt_fdSetSize ht).symm⟩

/-- **Private messages are secret.** In two runs that make the same calls besides private messages
that are not from a client, that the server does not find it for and that all connections take, this
client is connected in both or in none, and if it is it has been sent the same bytes. No sender is
refused while its own text goes out. -/
theorem sent_eq_of_pairTrace
    (h : PairTrace k lfd (serverMain opened lfd) (serverMain opened lfd) s t) :
    (s.clients k).active = (t.clients k).active ∧
      ((s.clients k).active = true → s.sent k = t.sent k) := by
  obtain ⟨-, -, r, r', hsim, hsim', hsame⟩ := h.exists_sameFor
  refine ⟨?_, fun hactive => ?_⟩
  · rw [← hsim.isSome_members, ← hsim'.isSome_members, hsame.member_eq]
  · obtain ⟨m, hm⟩ := Option.isSome_iff_exists.mp ((hsim.isSome_members k).trans hactive)
    rw [hsim.sent_eq k m hm, hsim'.sent_eq k m (hsame.member_eq ▸ hm)]

end Pair

/-- A run beside itself. -/
theorem PairTrace.of_trace {k lfd : ℕ} {s₀ s : Server} {calls : List (ℕ × Input)}
    (h : Trace handlerStep (fun _ a => a.2.Steady lfd a.1) s₀ calls s) :
    PairTrace k lfd s₀ s₀ s s := by
  induction h with
  | nil => exact .refl
  | snoc _ hsteady hstep ih => exact ih.both hsteady hstep hstep

/-- The clients 4, 5 and 6 connect, and client 5 sets the alias `bob`. A message of client 4 to
`bob` is sent to client 5, and not to client 6. -/
theorem sent_eq_of_pairTrace_bob : ∃ s t : Server, s.sent 5 ≠ t.sent 5 ∧
    (s.clients 6).active = true ∧ s.sent 6 = t.sent 6 := by
  have hrun : ((serverMain (fun _ => false) 3).fullCalls
      [(3, 4, []), (3, 5, []), (3, 6, []), (5, 7, str "\\alias bob")]).map (fun t =>
        decide (t.findClient (t.nameMatches 4 (privateName (str "@bob hi"))) = .ok (some 5)) &&
          decide ((t.callHandler 4 (fullInput 7 (str "@bob hi") t)).map (fun s =>
            (s.clients 6).active && decide (s.sent 5 ≠ t.sent 5)) = .ok true)) = .ok true := by
    decide +kernel
  obtain ⟨t, ht, hfacts⟩ := exists_of_map_eq_ok hrun
  rw [Bool.and_eq_true, decide_eq_true_iff, decide_eq_true_iff] at hfacts
  obtain ⟨s, hs, hfacts'⟩ := exists_of_map_eq_ok hfacts.2
  rw [Bool.and_eq_true, decide_eq_true_iff] at hfacts'
  obtain ⟨calls, htrace⟩ := @exists_trace_of_fullCalls 3 _ _ _ _ .nil _ (by decide) ht
  have hreceived : (fullInput 7 (str "@bob hi") (serverMain (fun _ => false) 3)).received =
      some (str "@bob hi") := by decide
  have hunheard : Unheard 6 3 t (4, fullInput 7 (str "@bob hi") t) := by
    refine ⟨(by decide : 4 ≠ 6), (by decide : 4 ≠ 3), ⟨str "@bob hi", hreceived, by decide, ?_⟩,
      fun _ => succeeds_full [] _⟩
    rw [hfacts.1]
    exact fun heq => absurd (Except.ok.inj heq) (by decide)
  have hpair := sent_eq_of_pairTrace ((PairTrace.of_trace htrace).left
    (fullInput_steady _ _ _ _ _) hunheard ⟨fullInput_valid (by decide) _ _, hs⟩)
  exact ⟨s, t, hfacts'.2, hfacts'.1, hpair.2 hfacts'.1⟩

end TikFachpraktika.Chat
