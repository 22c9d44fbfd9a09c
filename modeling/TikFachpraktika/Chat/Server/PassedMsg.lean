import TikFachpraktika.Chat.Server.Freed

/-!
# The two uses of the pointer to a private message

`server_process_private` of `6_network/server.c` hands the pointer `msg` to
`server_write_fd_queue` for the copy to the sender, and after the flush of this copy once more for
the addressed client. The flush frees the `inbuff` that `msg` points into if `write` returns `0`.

## Main definitions

* `Server.passesTo`, `Server.passes`: the pointers that are handed on, each with the state in which
  this is done.
* `PointsInside`, `MsgInside`: these pointers are not `NULL` and point into the string in `inbuff`.

## Main results

* `msgInside_iff`: when they do.
-/

namespace TikFachpraktika.Chat

open Posix

namespace Server

variable (s : Server) (fd : ℕ) (inp : Input) (inbuff : List Byte)

/-- The calls of `server_write_fd_queue` with `msg` for a message to the client `j`: the pointer as
a position in `inbuff`, and the state in which the call is made. -/
def passesTo (j : ℕ) : Option ℕ → List (Option ℕ × Server)
  | none => [(none, s.writeAll fd (s.privateHead fd j))]
  | some i =>
    (some i, s.writeAll fd (s.privateHead fd j)) ::
      match s.writeAndFlush fd (s.privateCopy fd j (inbuff.drop i)) (inp.writes fd) with
      | .ok t => [(some i, t.writeAll j [t.getClientRepr fd, str " [priv] :"])]
      | .error _ => []

/-- The calls of `server_write_fd_queue` with `msg` in `server_process_private`. -/
def passes : List (Option ℕ × Server) :=
  match s.findClient (s.nameMatches fd (privateName inbuff)) with
  | .ok (some j) => s.passesTo fd inp inbuff j (msgPointer inbuff)
  | _ => []

end Server

/-- The pointer is not `NULL` and points into the string `inbuff` of `fd` or to its NUL, and in the
state `t` this buffer is still what it was in `s`. -/
def PointsInside (s : Server) (fd : ℕ) (inbuff : List Byte) (msg : Option ℕ) (t : Server) : Prop :=
  (∃ i, msg = some i ∧ i ≤ inbuff.length) ∧
    (s.clients fd).inbuff.isSome ∧ (t.clients fd).inbuff = (s.clients fd).inbuff

/-- All pointers that are handed on point into the `inbuff` of `fd` when this is done. -/
def MsgInside (s : Server) (fd : ℕ) (inp : Input) (inbuff : List Byte) : Prop :=
  ∀ p ∈ s.passes fd inp inbuff, PointsInside s fd inbuff p.1 p.2

/-! ### The two calls -/

section Passes

open Server

variable {lfd : ℕ} {s : Server} {fd i j : ℕ} {inp : Input} {inbuff : List Byte}

theorem Server.inbuff_writeAll (s : Server) (i : ℕ) (data : List (List Byte)) (k : ℕ) :
    ((s.writeAll i data).clients k).inbuff = (s.clients k).inbuff := by
  rw [writeAll_eq]
  rcases eq_or_ne k i with rfl | hne
  · obtain ⟨b, used, hqueue⟩ := Client.foldl_queue_eq data (s.clients k)
    rw [setClient_clients_self, hqueue]
  · rw [setClient_clients_of_ne _ _ _ hne]

theorem pointsInside_writeAll {msg : Option ℕ} {t : Server} (k : ℕ) (data : List (List Byte)) :
    PointsInside s fd inbuff msg (t.writeAll k data) ↔ PointsInside s fd inbuff msg t := by
  rw [PointsInside, PointsInside, inbuff_writeAll]

/-- No pointer points into the buffer of a client that has been disconnected. -/
theorem not_pointsInside_disconnectClient {msg : Option ℕ} {t : Server} :
    ¬PointsInside s fd inbuff msg (t.disconnectClient fd) := by
  rintro ⟨-, hsome, hsame⟩
  rw [disconnectClient_clients_self] at hsame
  rw [← hsame] at hsome
  cases hsome

theorem passes_of_found
    (hfind : s.findClient (s.nameMatches fd (privateName inbuff)) = .ok (some j)) :
    s.passes fd inp inbuff = s.passesTo fd inp inbuff j (msgPointer inbuff) := by
  rw [passes, hfind]

theorem msgInside_of_not_found (hfind : ∀ j,
    s.findClient (s.nameMatches fd (privateName inbuff)) ≠ .ok (some j)) :
    MsgInside s fd inp inbuff := by
  intro p hp
  rw [passes] at hp
  split at hp
  · next j hj => exact absurd hj (hfind j)
  · cases hp

/-- Without a name the pointer is `NULL`. -/
theorem not_msgInside_of_none
    (hfind : s.findClient (s.nameMatches fd (privateName inbuff)) = .ok (some j))
    (hmsg : msgPointer inbuff = none) : ¬MsgInside s fd inp inbuff := by
  intro hinside
  rw [MsgInside, passes_of_found hfind, hmsg, passesTo] at hinside
  obtain ⟨⟨i, hi, -⟩, -⟩ := hinside _ List.mem_cons_self
  cases hi

/-- **With a name** the second pointer is good unless the copy to the sender is refused. -/
theorem Named.msgInside_iff_of_some (h : Named lfd s) (hactive : (s.clients fd).active = true)
    (hinbuff : (0 : Byte) ∉ inbuff)
    (hfind : s.findClient (s.nameMatches fd (privateName inbuff)) = .ok (some j))
    (hmsg : msgPointer inbuff = some i) :
    MsgInside s fd inp inbuff ↔
      ¬Refused (inp.writes fd) ((collected (s.privateCopy fd j (inbuff.drop i))).length + 1) := by
  have hmatch := findClient_eq_ok_some hfind
  simp only [nameMatches, Bool.and_eq_true, decide_eq_true_eq] at hmatch
  obtain ⟨⟨⟨hj, -⟩, hother⟩, -⟩ := hmatch
  have hsome : (s.clients fd).inbuff.isSome := ((h.registered.sound fd).input hactive).2
  have hle : i ≤ inbuff.length := le_of_pointerLoop (fun k hk => by cases hk) i hmsg
  have hinside : ∀ t : Server, (t.clients fd).inbuff = (s.clients fd).inbuff →
      PointsInside s fd inbuff (some i) t := fun t ht => ⟨⟨i, rfl, hle⟩, hsome, ht⟩
  rw [MsgInside, passes_of_found hfind, hmsg, passesTo, List.forall_mem_cons,
    and_iff_right ((pointsInside_writeAll _ _).mpr (hinside s rfl)),
    h.writeAndFlush_privateCopy hactive hj fun hmem => hinbuff (List.mem_of_mem_drop hmem)]
  obtain ⟨hsucceeds, hflush⟩ | ⟨hrefused, out, hflush⟩ | ⟨hnot, hflush⟩ :=
    s.afterFlush_cases fd (collected (s.privateCopy fd j (inbuff.drop i))) (inp.writes fd)
  · rw [hflush]
    refine iff_of_true (List.forall_mem_singleton.mpr ?_) fun hrefused =>
      hrefused.not_succeeds (Nat.succ_ne_zero _) hsucceeds
    exact (pointsInside_writeAll _ _).mpr (hinside _ (by rw [afterSend_clients_self]))
  · rw [hflush]
    refine iff_of_false (fun hall => ?_) fun hnot => hnot hrefused
    exact not_pointsInside_disconnectClient
      ((pointsInside_writeAll _ _).mp (hall _ List.mem_cons_self))
  · rw [hflush]
    exact iff_of_true (fun p hp => absurd hp List.not_mem_nil) fun hrefused => hnot (.inr hrefused)

/-- The name is empty exactly when a space or the NUL comes after the `@`. -/
theorem msgPointer_eq_none_iff :
    msgPointer inbuff = none ↔ inbuff.getD 1 0 = 32 ∨ inbuff.getD 1 0 = 0 := by
  rw [msgPointer, pointerLoop_first]
  split_ifs with hempty
  · exact iff_of_true rfl hempty
  · exact iff_of_false pointerLoop_ne_none hempty

theorem privateName_eq_nil (hmsg : msgPointer inbuff = none) : privateName inbuff = [] := by
  rw [privateName, pointerLoop_first, if_pos (msgPointer_eq_none_iff.mp hmsg)]

/-- **The two pointers are good** if and only if the first is not `NULL` and the `inbuff` is there
for the second. -/
theorem Named.inside_iff (h : Named lfd s) (h0 : s.read.fds 0 = false)
    (hactive : (s.clients fd).active = true) (hinbuff : (0 : Byte) ∉ inbuff) :
    MsgInside s fd inp inbuff ↔
      (msgPointer inbuff = none → ∀ j a, j ≠ fd → ¬s.NamedAs j a) ∧
        ¬s.FreesInPrivate fd inp inbuff := by
  have hname := privateName_zero_notMem inbuff
  cases hfind : s.findClient (s.nameMatches fd (privateName inbuff)) with
  | error e =>
    rw [findClient, if_neg (by simp [h0])] at hfind
    cases hfind
  | ok found =>
    cases found with
    | none =>
      have hnone := (h.registered.findClient_eq_none_iff h0 h.isAlias hname).mp hfind
      refine iff_of_true (msgInside_of_not_found fun j hj => ?_) ⟨fun hmsg j a hj ha => ?_, ?_⟩
      · cases hfind.symm.trans hj
      · exact hnone j ⟨hj, a, ha, by rw [privateName_eq_nil hmsg]; exact List.nil_prefix⟩
      · rintro ⟨j, pos, hj, -⟩
        cases hfind.symm.trans hj
    | some j =>
      cases hmsg : msgPointer inbuff with
      | none =>
        obtain ⟨⟨hj, a, ha, -⟩, -⟩ :=
          (h.registered.findClient_eq_some_iff h0 h.isAlias hname j).mp hfind
        exact iff_of_false (not_msgInside_of_none hfind hmsg) fun hall => hall.1 rfl j a hj ha
      | some i =>
        rw [h.msgInside_iff_of_some hactive hinbuff hfind hmsg, FreesInPrivate, hfind, hmsg]
        refine ⟨fun hnot => ⟨fun hnone => ?_, ?_⟩, fun hall hrefused =>
          hall.2 ⟨j, i, rfl, rfl, hrefused⟩⟩
        · cases hnone
        · rintro ⟨k, pos, hk, hpos, hrefused⟩
          obtain rfl := Option.some.inj (Except.ok.inj hk)
          obtain rfl := Option.some.inj hpos
          exact hnot hrefused

/-- The empty name finds a client if there is another one with an alias. -/
theorem Named.exists_findClient_of_none (h : Named lfd s) (h0 : s.read.fds 0 = false)
    (hmsg : msgPointer inbuff = none) (hother : ∃ j a, j ≠ fd ∧ s.NamedAs j a) :
    ∃ j, s.findClient (s.nameMatches fd (privateName inbuff)) = .ok (some j) := by
  have hsome : ∃ j, s.Continues fd (privateName inbuff) j := by
    obtain ⟨j, a, hj, ha⟩ := hother
    exact ⟨j, hj, a, ha, by rw [privateName_eq_nil hmsg]; exact List.nil_prefix⟩
  classical
  exact ⟨Nat.find hsome, (h.registered.findClient_eq_some_iff h0 h.isAlias
    (privateName_zero_notMem inbuff) _).mpr
      ⟨Nat.find_spec hsome, fun k hk => Nat.find_min hsome hk⟩⟩

/-- Where the pointer is `NULL`, using it crashes. -/
theorem Server.processPrivate_of_none
    (hfind : s.findClient (s.nameMatches fd (privateName inbuff)) = .ok (some j))
    (hmsg : msgPointer inbuff = none) : s.processPrivate fd inp inbuff = .error .badPointer := by
  rw [Server.processPrivate_eq, hfind, hmsg]
  rfl

end Passes

/-! ### The call of the handler -/

section Call

variable {opened : ℕ → Bool} {lfd : ℕ} {s : Server} {fd : ℕ} {inp : Input} {text : List Byte}

/-- **When the pointer to a private message is good.** In a reachable state without descriptor 0,
and for a text that begins with `@`, the pointers that are handed on are not `NULL` and point into
the string in `inbuff` if and only if a name follows the `@`, or no other client has an alias, and
the copy to the sender is not answered with `0`. Without a name the call ends in an access through
`NULL` when another client has an alias. -/
theorem msgInside_iff (h : Reachable opened lfd s) (h0 : s.read.fds 0 = false)
    (hactive : (s.clients fd).active = true) (htext : s.processed fd inp = some text)
    (hat : text.head? = some 64) :
    s.callHandler fd inp = (s.afterRead fd inp).processPrivate fd inp text ∧
    (MsgInside (s.afterRead fd inp) fd inp text ↔
      ((text.getD 1 0 = 32 ∨ text.getD 1 0 = 0) → ∀ j a, j ≠ fd → ¬s.NamedAs j a) ∧
        ¬(s.afterRead fd inp).FreesInPrivate fd inp text) ∧
    ((text.getD 1 0 = 32 ∨ text.getD 1 0 = 0) → (∃ j a, j ≠ fd ∧ s.NamedAs j a) →
      s.callHandler fd inp = .error .badPointer) := by
  have hnul := zero_notMem_of_processed htext
  have hnamed := h.named.afterRead fd inp
  have hnames : (s.afterRead fd inp).NamedAs = s.NamedAs := Server.namedAs_putInbuff _ _ _
  have hcall : s.callHandler fd inp = (s.afterRead fd inp).processPrivate fd inp text := by
    rw [h.registered.callHandler_of_processed hactive htext,
      (commandOf_eq_privateMsg_iff hnul).mpr hat, Server.runCommand]
  refine ⟨hcall, ?_, fun hempty hother => hcall.trans ?_⟩
  · rw [hnamed.inside_iff h0 ((s.afterRead_active fd inp fd).trans hactive) hnul, hnames,
      msgPointer_eq_none_iff]
  · have hmsg := msgPointer_eq_none_iff.mpr hempty
    obtain ⟨j, hfind⟩ := hnamed.exists_findClient_of_none h0 hmsg (by rwa [hnames])
    exact Server.processPrivate_of_none hfind hmsg

end Call

/-- Client 5 sends a private message to client 4, and does not take its own copy. -/
theorem exists_freesInPrivate : ∃ s : Server, Reachable (fun _ => false) 3 s ∧
    s.read.fds 0 = false ∧ (s.clients 5).active = true ∧ s.NamedAs 4 (str "bob") ∧
    (s.afterRead 5 (refusedInput 5 (str "@bob hi") s)).FreesInPrivate 5
      (refusedInput 5 (str "@bob hi") s) (str "@bob hi") := by
  obtain ⟨s, hs, h0, hactive, -, hbob, hclients, -⟩ := exists_takenRounds
  refine ⟨s, hs, h0, hactive, hbob, 4, 4, ?_, by decide, refused_written_zero [] _⟩
  have hnamed := hs.named.afterRead 5 (refusedInput 5 (str "@bob hi") s)
  refine (hnamed.registered.findClient_eq_some_iff h0 hnamed.isAlias
    (privateName_zero_notMem _) 4).mpr ⟨?_, fun k hk hcontinues => ?_⟩
  · rw [Server.afterRead, Server.continues_putInbuff]
    exact ⟨by decide, str "bob", hbob, by decide⟩
  · obtain ⟨-, a, ha, -⟩ := hcontinues
    have hk' : (s.clients k).active = true := (s.afterRead_active 5 _ k).symm.trans ha.1
    have hclient := hs.eq_or_eq hclients hk'
    omega

theorem Reachable.processed_at {s : Server} (h : Reachable (fun _ => false) 3 s)
    (hactive : (s.clients 5).active = true) :
    s.processed 5 (fullInput 6 (str "@") s) = some (str "@") :=
  h.registered.processed_fullInput hactive 6 (by decide) (by decide) (by decide)

/-- A message that its sender does not take, one that is taken, and one without a name. -/
theorem msgInside_iff_hi : ∃ s : Server,
    ¬MsgInside (s.afterRead 5 (refusedInput 5 (str "@bob hi") s)) 5
        (refusedInput 5 (str "@bob hi") s) (str "@bob hi") ∧
      MsgInside (s.afterRead 5 (fullInput 6 (str "@bob hi") s)) 5
        (fullInput 6 (str "@bob hi") s) (str "@bob hi") ∧
      s.callHandler 5 (fullInput 6 (str "@") s) = .error .badPointer := by
  obtain ⟨s, hs, h0, hactive, hbob, hfrees⟩ := exists_freesInPrivate
  have hprocessed : s.processed 5 (fullInput 6 (str "@bob hi") s) = some (str "@bob hi") :=
    hs.registered.processed_fullInput hactive 6 (by decide) (by decide) (by decide)
  have hrefused := @msgInside_iff _ 3 s 5 (refusedInput 5 (str "@bob hi") s) _ hs h0 hactive
    hprocessed (by decide)
  have hfull := msgInside_iff hs h0 hactive hprocessed (by decide)
  have hempty := msgInside_iff hs h0 hactive (hs.processed_at hactive) (by decide)
  refine ⟨s, fun hinside => (hrefused.2.1.mp hinside).2 hfrees, hfull.2.1.mpr ⟨?_, fun hfrees =>
    not_freesText_fullInput _ _ _ _ _ _ (.inr ⟨by decide, hfrees⟩)⟩,
    hempty.2.2 (by decide) ⟨4, str "bob", by decide, hbob⟩⟩
  exact fun hname => absurd hname (by decide)

/-- **The pointer can be `NULL`**: for the text `@`, when another client has an alias. -/
theorem not_forall_msgInside :
    ¬∀ (opened : ℕ → Bool) (lfd : ℕ) (s : Server) (fd : ℕ) (text : List Byte) (inp : Input),
      Reachable opened lfd s → s.read.fds 0 = false → (s.clients fd).active = true →
      s.processed fd inp = some text → text.length ≤ initQsiz - 1 → text.head? = some 64 →
      MsgInside (s.afterRead fd inp) fd inp text := by
  intro hall
  obtain ⟨s, hs, h0, hactive, hbob, -⟩ := exists_freesInPrivate
  have hinside := hall _ 3 s 5 (str "@") (fullInput 6 (str "@") s) hs h0 hactive
    (hs.processed_at hactive) (by decide) (by decide)
  have hnamed := hs.named.afterRead 5 (fullInput 6 (str "@") s)
  rw [hnamed.inside_iff h0 ((s.afterRead_active 5 _ 5).trans hactive) (by decide)] at hinside
  refine hinside.1 (by decide) 4 (str "bob") (by decide) ?_
  rw [Server.afterRead, Server.namedAs_putInbuff]
  exact hbob

end TikFachpraktika.Chat
