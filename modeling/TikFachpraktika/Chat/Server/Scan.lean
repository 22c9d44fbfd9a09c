import TikFachpraktika.Logged.Run
import TikFachpraktika.Chat.Server.MsgPointer

/-!
# The loops over the registered clients

`server_process_who`, `server_process_alias` and `server_process_private` of `6_network/server.c`
go through the registered descriptors with an index and a pointer that is moved along in the head
of the loop: `for(i = 0; i <= eset.read.max; c = &eset.clients[++i])`. The pointer is `NULL` before
it is moved for the first time.

## Main definitions

* `Visit`: a descriptor that is examined, with the pointer at that moment.
* `Server.scan`: the loop.
* `Server.whoScan`, `Server.aliasScan`, `Server.privateScan`: the loops of the three functions.
* `ScansRight`: all of them look at the right entries.

## Main results

* `Server.result_scan`: the loop finds what the model finds.
* `scansRight_iff`: the pointer is right if and only if descriptor 0 is not registered.
-/

namespace TikFachpraktika.Chat

open Posix

/-- A registered descriptor that is examined. The pointer is the index of an entry of
`eset.clients`, or `none` for `NULL`. -/
structure Visit where
  index : ℕ
  pointer : Option ℕ

/-- The pointer is that of the entry of the descriptor. -/
def Visit.Right (v : Visit) : Prop :=
  v.pointer = some v.index

namespace Server

variable (s : Server) (fd : ℕ)

/-- The loop from index `i` on, with `n` indices left. An entry for which `p` holds ends it. -/
def scanLoop (p : ℕ → Client → Bool) : ℕ → ℕ → Option ℕ → Logged Visit Fault (Option ℕ)
  | 0, _, _ => pure none
  | n + 1, i, c =>
    if s.read.fds i then do
      Logged.tell [⟨i, c⟩]
      match c with
      | none => Logged.lift (throw .badPointer)
      | some j => if p i (s.clients j) then pure (some i) else scanLoop p n (i + 1) (some (i + 1))
    else scanLoop p n (i + 1) (some (i + 1))

/-- The loop `for(i = 0; i <= eset.read.max; c = &eset.clients[++i])`. -/
def scan (p : ℕ → Client → Bool) : Logged Visit Fault (Option ℕ) :=
  s.scanLoop p (s.read.max + 1) 0 none

/-- The condition on an entry in `server_process_alias` and `server_process_private`. -/
def entryMatches (name : List Byte) (i : ℕ) (c : Client) : Bool :=
  c.active && c.hasAlias && decide (fd ≠ i) && decide (0 = strnicmp name c.aliasStr name.length)

/-- The loop of `server_process_who`, which goes through all descriptors. -/
def whoScan : Logged Visit Fault (Option ℕ) :=
  s.scan fun _ _ => false

/-- The loop of `server_process_alias`. -/
def aliasScan (inbuff : List Byte) : Logged Visit Fault (Option ℕ) :=
  s.scan (entryMatches fd (inbuff.drop magicStrAlias.length))

/-- The loop of `server_process_private`. -/
def privateScan (inbuff : List Byte) : Logged Visit Fault (Option ℕ) :=
  s.scan (entryMatches fd (privateName inbuff))

end Server

/-- Whenever a descriptor is examined for a text of `fd`, the pointer is that of its entry. -/
structure ScansRight (s : Server) (fd : ℕ) (text : List Byte) : Prop where
  who : s.whoScan.All Visit.Right
  setAlias : (s.aliasScan fd text).All Visit.Right
  privateMsg : (s.privateScan fd text).All Visit.Right

/-! ### The loop -/

section Loop

variable (s : Server) (p : ℕ → Client → Bool)

/-- **Once the pointer has been moved** it keeps up with the index. -/
theorem Server.all_scanLoop : (n i : ℕ) → (s.scanLoop p n i (some i)).All Visit.Right
  | 0, _ => Logged.all_pure _
  | n + 1, i => by
      have hvisit : ∀ v ∈ [(⟨i, some i⟩ : Visit)], v.Right := fun v hv => by
        rw [List.mem_singleton.mp hv]
        rfl
      rw [Server.scanLoop]
      split_ifs with hfds hp
      · exact (Logged.all_tell_bind _ _).mpr ⟨hvisit, Logged.all_pure _⟩
      · exact (Logged.all_tell_bind _ _).mpr ⟨hvisit, Server.all_scanLoop n (i + 1)⟩
      · exact Server.all_scanLoop n (i + 1)

/-- What the loop finds with such a pointer. -/
theorem Server.result_scanLoop : (n i : ℕ) → (s.scanLoop p n i (some i)).result =
    .ok ((List.range' i n).find? fun i => s.read.fds i && p i (s.clients i))
  | 0, _ => rfl
  | n + 1, i => by
      rw [Server.scanLoop, List.range'_succ, List.find?_cons]
      split_ifs with hfds hp
      · rw [Logged.result_bind, Logged.result_tell, ok_bind, hfds, hp]
        rfl
      · rw [Logged.result_bind, Logged.result_tell, ok_bind, Bool.eq_false_iff.mpr hp,
          Bool.and_false]
        exact Server.result_scanLoop n (i + 1)
      · rw [Bool.eq_false_iff.mpr hfds, Bool.false_and]
        exact Server.result_scanLoop n (i + 1)

/-- The loop begins with a pointer that is `NULL`. -/
theorem Server.scan_eq : s.scan p = if s.read.fds 0 then
    (do
      Logged.tell [⟨0, none⟩]
      Logged.lift (throw .badPointer))
    else s.scanLoop p s.read.max 1 (some 1) := rfl

/-- **The loop finds what the model finds.** -/
theorem Server.result_scan :
    (s.scan p).result = s.findClient fun i => p i (s.clients i) := by
  rw [Server.scan_eq, Server.findClient, List.range_eq_range', List.range'_succ, List.find?_cons]
  split_ifs with hfds
  · rfl
  · rw [Bool.eq_false_iff.mpr hfds, Bool.false_and]
    exact s.result_scanLoop p s.read.max 1

/-- **The pointer is right** if and only if descriptor 0 is not registered. -/
theorem Server.all_scan_iff : (s.scan p).All Visit.Right ↔ s.read.fds 0 = false := by
  rw [Server.scan_eq]
  split_ifs with hfds
  · refine iff_of_false (fun hall => ?_) (by rw [hfds]; exact Bool.noConfusion)
    have hright := ((Logged.all_tell_bind _ _).mp hall).1 ⟨0, none⟩ List.mem_cons_self
    cases hright
  · exact iff_of_true (s.all_scanLoop p s.read.max 1) (Bool.eq_false_iff.mpr hfds)

end Loop

/-! ### The functions -/

/-- The two functions that look for a name find what the model finds. -/
theorem Server.result_scan_entryMatches (s : Server) (fd : ℕ) (name : List Byte) :
    (s.scan (Server.entryMatches fd name)).result = s.findClient (s.nameMatches fd name) :=
  s.result_scan _

/-- **When the loops look at the right entries.** In every state and for every text, the pointer is
that of the examined entry if and only if descriptor 0 is not registered. If it is registered the
loops end in an access through `NULL`. -/
theorem scansRight_iff (s : Server) (fd : ℕ) (text : List Byte) :
    (ScansRight s fd text ↔ s.read.fds 0 = false) ∧
    (s.read.fds 0 = true → s.whoScan.result = .error .badPointer ∧
      (s.aliasScan fd text).result = .error .badPointer ∧
      (s.privateScan fd text).result = .error .badPointer) := by
  refine ⟨⟨fun h => (s.all_scan_iff _).mp h.who, fun h0 => ?_⟩, fun h0 => ?_⟩
  · exact ⟨(s.all_scan_iff _).mpr h0, (s.all_scan_iff _).mpr h0, (s.all_scan_iff _).mpr h0⟩
  · have herror : ∀ p, (s.scan p).result = .error .badPointer := fun p => by
      rw [Server.result_scan, Server.findClient, if_pos h0]
      rfl
    exact ⟨herror _, herror _, herror _⟩

/-- **The pointer can be `NULL`**: when the listening socket has descriptor 0 and a client sends
`\who`. -/
theorem not_forall_scansRight :
    ¬∀ (opened : ℕ → Bool) (lfd : ℕ) (s : Server) (fd : ℕ) (text : List Byte) (inp : Input),
      Reachable opened lfd s → (s.clients fd).active = true → s.processed fd inp = some text →
      ScansRight (s.afterRead fd inp) fd text := by
  intro hall
  have hrun : ((serverMain (fun _ => false) 0).handleEvents (fullRound 0 4 [])).map (fun s =>
      (s.clients 4).active) = .ok true := by decide +kernel
  obtain ⟨s, hs, hactive⟩ := exists_of_map_eq_ok hrun
  have hreach := (LoopReachable.main.round (fullRound_valid (by decide) []) hs).reachable
  have hright := hall _ 0 s 4 (str "\\who") (fullInput 4 (str "\\who") s) hreach hactive
    (hreach.registered.processed_fullInput hactive 4 (by decide) (by decide) (by decide))
  have h0 : (s.afterRead 4 (fullInput 4 (str "\\who") s)).read.fds 0 = false :=
    (Server.all_scan_iff _ _).mp hright.who
  have hlisten := hreach.registered.lfd_registered
  exact Bool.noConfusion (hlisten.symm.trans h0)

end TikFachpraktika.Chat
