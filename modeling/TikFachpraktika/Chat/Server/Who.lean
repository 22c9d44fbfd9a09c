import Mathlib.Algebra.Group.Action.Defs
import Mathlib.Algebra.Order.BigOperators.Group.List
import TikFachpraktika.Chat.Server.Texts
import TikFachpraktika.Chat.Server.Queue

/-!
# The list of the clients

The reply of `server_process_who` of `6_network/server.c` has a line for each active client. The
lines are short enough that the list of `FD_SETSIZE` clients fits into the queue.

## Main definitions

* `Server.whoLine`, `Server.whoReply`: the lines of the reply, and the whole of it.

## Main results

* `Registered.filter_registered`: the scan up to `max` finds all active clients.
* `Named.fits_whoReply`: the reply fits into the queue.
* `who_complete`: the reply is sent as a whole.
-/

namespace TikFachpraktika.Chat

open Posix

/-! ### The reply -/

namespace Server

variable (s : Server) (fd : ℕ)

/-- The line of a client in the reply to `fd`. -/
def whoLine (i : ℕ) : List Byte :=
  str "<Server who cmd>: " ++ s.getClientRepr i ++ (if fd = i then str " (you)" else []) ++ str "\n"

/-- The last line of the reply. -/
def endOfList : List Byte :=
  str "<Server who cmd>: -- End of List --\n"

/-- The reply to `\who`. -/
def whoReply : List Byte :=
  s.activeClients.flatMap (s.whoLine fd) ++ endOfList

/-- The strings that `server_process_who` queues for a client. -/
def whoPieces (i : ℕ) : List (List Byte) :=
  [str "<Server who cmd>: ", s.getClientRepr i] ++ (if fd = i then [str " (you)"] else []) ++
    [str "\n"]

theorem flatten_whoPieces (i : ℕ) : (s.whoPieces fd i).flatten = s.whoLine fd i := by
  rw [whoPieces, whoLine]
  split_ifs <;> simp

theorem flatten_whoReply :
    (s.activeClients.flatMap (s.whoPieces fd) ++ [endOfList]).flatten = s.whoReply fd := by
  have hlines : (s.activeClients.flatMap (s.whoPieces fd)).flatten =
      s.activeClients.flatMap (s.whoLine fd) := by
    rw [List.flatMap, List.flatten_flatten, List.map_map, List.flatMap]
    exact congrArg List.flatten (List.map_congr_left fun i _ => s.flatten_whoPieces fd i)
  rw [List.flatten_append, hlines, List.flatten_singleton, whoReply]

end Server

/-! ### The scan -/

/-- A search that finds nothing from `m` on may end there. -/
theorem filter_range_of_le {p : ℕ → Bool} {m n : ℕ} (h : ∀ i, p i = true → i < m) (hmn : m ≤ n) :
    (List.range n).filter p = (List.range m).filter p := by
  obtain ⟨d, rfl⟩ := Nat.exists_eq_add_of_le hmn
  have hnil : ((List.range d).map (m + ·)).filter p = [] := by
    refine List.filter_eq_nil_iff.mpr fun i hi hp => ?_
    obtain ⟨k, -, rfl⟩ := List.mem_map.mp hi
    exact absurd (h _ hp) (by omega)
  rw [List.range_add, List.filter_append, hnil, List.append_nil]

section Scan

variable {lfd : ℕ} {s : Server} {fd : ℕ}

/-- **The scan up to `max`** finds all active clients. -/
theorem Registered.filter_registered (h : Registered lfd s)
    (hlt : ∀ i, (s.clients i).active = true → i < fdSetSize) :
    (List.range (s.read.max + 1)).filter (fun i => s.read.fds i && (s.clients i).active) =
      s.activeClients := by
  have hreg : (fun i => s.read.fds i && (s.clients i).active) = fun i => (s.clients i).active := by
    funext i
    cases hactive : (s.clients i).active with
    | false => rw [Bool.and_false]
    | true => rw [((h.active_iff i).mp hactive).1, Bool.and_true]
  have hmax : ∀ i, (s.clients i).active = true → i < s.read.max + 1 := fun i hactive =>
    Nat.lt_succ_of_le (h.le_max i ((h.active_iff i).mp hactive).1)
  rw [hreg, Server.activeClients]
  rcases le_total (s.read.max + 1) fdSetSize with hle | hle
  · rw [filter_range_of_le hmax hle]
  · rw [filter_range_of_le hlt hle]

/-- A line has at most 40 bytes. -/
theorem Named.length_whoLine_le (h : Named lfd s) {i : ℕ} (hi : (s.clients i).active = true) :
    (s.whoLine fd i).length ≤ 40 := by
  have hrepr := h.getClientRepr_length_le hi
  have hstr : (str "<Server who cmd>: ").length = 18 ∧ (str " (you)").length = 6 ∧
      (str "\n").length = 1 := by decide
  rw [aliasMaxlen] at hrepr
  rw [Server.whoLine]
  split_ifs <;> simp only [List.length_append, List.length_nil] <;> omega

/-- The lines together have at most 40 bytes for each client. -/
theorem Named.length_whoLines_le (h : Named lfd s) (fd : ℕ) :
    (s.activeClients.flatMap (s.whoLine fd)).length ≤ s.activeClients.length * 40 := by
  rw [List.length_flatMap, ← smul_eq_mul]
  refine (List.sum_le_card_nsmul _ 40 fun n hn => ?_).trans_eq (by rw [List.length_map])
  obtain ⟨i, hi, rfl⟩ := List.mem_map.mp hn
  exact h.length_whoLine_le (mem_activeClients.mp hi).2

/-- The pieces of a line have no NUL. -/
theorem Named.zero_notMem_whoPieces (h : Named lfd s) {i : ℕ}
    (hi : (s.clients i).active = true) : ∀ d ∈ s.whoPieces fd i, (0 : Byte) ∉ d := by
  have hstr : (0 : Byte) ∉ str "<Server who cmd>: " ∧ (0 : Byte) ∉ str " (you)" ∧
      (0 : Byte) ∉ str "\n" := by decide
  have hyou : ∀ d ∈ if fd = i then [str " (you)"] else [], (0 : Byte) ∉ d := fun d hd => by
    split_ifs at hd
    · rw [List.mem_singleton.mp hd]
      exact hstr.2.1
    · cases hd
  rw [Server.whoPieces]
  simp only [List.forall_mem_append, List.forall_mem_cons]
  exact ⟨⟨⟨hstr.1, h.zero_notMem_getClientRepr hi, fun _ hd => absurd hd List.not_mem_nil⟩, hyou⟩,
    hstr.2.2, fun _ hd => absurd hd List.not_mem_nil⟩

/-- **The reply fits into the queue**, however many clients are connected. -/
theorem Named.fits_whoReply (h : Named lfd s) (fd : ℕ) :
    Fits (s.activeClients.flatMap (s.whoPieces fd) ++ [Server.endOfList]) where
  zero_notMem d hd := by
    rcases List.mem_append.mp hd with hline | hlast
    · obtain ⟨i, hi, hpiece⟩ := List.mem_flatMap.mp hline
      exact h.zero_notMem_whoPieces (mem_activeClients.mp hi).2 d hpiece
    · rw [List.mem_singleton.mp hlast]
      decide
  ne_nil h0 := by
    have hlast := List.flatten_eq_nil_iff.mp h0 Server.endOfList (by simp)
    exact absurd hlast (by decide)
  length_lt := by
    have hend : Server.endOfList.length = 36 := by decide
    have hcount : s.activeClients.length ≤ fdSetSize :=
      (List.length_filter_le _ _).trans_eq List.length_range
    have hlines := h.length_whoLines_le fd
    rw [Server.flatten_whoReply, Server.whoReply, List.length_append, hend, initQsiz]
    rw [fdSetSize] at hcount
    omega

end Scan

/-! ### The call -/

section Call

variable {opened : ℕ → Bool} {lfd : ℕ} {s : Server} {fd : ℕ} {inp : Input} {text : List Byte}

/-- Between two calls of handlers a text that fits is sent when the writes succeed. -/
theorem Named.writeAndFlush_of_fits (h : Named lfd s) (hactive : (s.clients fd).active = true)
    {data : List (List Byte)} (hdata : Fits data) {answers : List WriteAnswer}
    (hanswers : Succeeds answers (data.flatten.length + 1)) :
    s.writeAndFlush fd data answers = .ok (s.afterSend fd data.flatten) := by
  have hready : (s.clients fd).Ready :=
    ⟨h.registered.sound fd, hactive, h.drained fd hactive⟩
  rw [Server.writeAndFlush_of_fits answers hready hdata, Server.afterFlush_of_succeeds _ _ hanswers]

theorem Server.whoReply_afterRead : (s.afterRead fd inp).whoReply fd = s.whoReply fd := by
  have hline : (s.afterRead fd inp).whoLine fd = s.whoLine fd := by
    funext i
    rw [Server.whoLine, Server.whoLine, Server.afterRead, Server.getClientRepr_putInbuff]
  rw [Server.whoReply, Server.whoReply, hline, Server.activeClients_afterRead]

/-- **The reply to `\who` is complete.** In a reachable state without descriptor 0 a client that
sends `\who` is sent one line for each active client, in the order of the descriptors, with the
alias or the address of this client and with ` (you)` for the client itself, and the line that ends
the list; no other client is sent anything. -/
theorem who_complete (h : Reachable opened lfd s) (h0 : s.read.fds 0 = false)
    (hactive : (s.clients fd).active = true) (htext : s.processed fd inp = some text)
    (hwho : lower text = magicStrWho)
    (hwrites : Succeeds (inp.writes fd) ((s.whoReply fd).length + 1)) :
    ∃ s', s.callHandler fd inp = .ok s' ∧
      s'.sent = Function.update s.sent fd (s.sent fd ++ frame (s.whoReply fd)) := by
  have hnamed : Named lfd (s.afterRead fd inp) := h.named.afterRead fd inp
  have hlt : ∀ i, ((s.afterRead fd inp).clients i).active = true → i < fdSetSize := fun i hi =>
    h.lt_fdSetSize i ((s.afterRead_active fd inp i).symm.trans hi)
  have hreply : ((s.afterRead fd inp).activeClients.flatMap ((s.afterRead fd inp).whoPieces fd) ++
      [Server.endOfList]).flatten = s.whoReply fd := by
    rw [Server.flatten_whoReply, Server.whoReply_afterRead]
  have hsend := hnamed.writeAndFlush_of_fits ((s.afterRead_active fd inp fd).trans hactive)
    (hnamed.fits_whoReply fd) (hreply ▸ hwrites)
  rw [hreply] at hsend
  refine ⟨(s.afterRead fd inp).afterSend fd (s.whoReply fd), ?_, rfl⟩
  have hzero : (s.afterRead fd inp).read.fds 0 = false := h0
  rw [h.registered.callHandler_of_processed hactive htext,
    commandOf_of_who (zero_notMem_of_processed htext) hwho, Server.runCommand, Server.processWho,
    if_neg (by rw [hzero]; exact Bool.false_ne_true), hnamed.registered.filter_registered hlt]
  exact hsend

/-- One of two clients asks for the list. -/
theorem who_complete_two : ∃ s s' : Server,
    s.callHandler 4 (fullInput 4 (str "\\WHO") s) = .ok s' ∧
      s'.sent 4 = s.sent 4 ++ frame (str "<Server who cmd>: bob (you)\n" ++
        str "<Server who cmd>: 127.0.0.1\n" ++ Server.endOfList) ∧
      s'.sent 5 = s.sent 5 := by
  have hrun : ((serverMain (fun _ => false) 3).handleRounds
      [fullRound 3 4 [], fullRound 3 5 [], fullRound 4 4 (str "\\alias bob")]).map (fun s =>
      !s.read.fds 0 && (s.clients 4).active &&
        decide (s.processed 4 (fullInput 4 (str "\\WHO") s) = some (str "\\WHO")) &&
        decide (s.whoReply 4 = str "<Server who cmd>: bob (you)\n" ++
          str "<Server who cmd>: 127.0.0.1\n" ++ Server.endOfList)) = .ok true := by
    decide +kernel
  obtain ⟨s, hs, hfacts⟩ := exists_of_map_eq_ok hrun
  simp only [Bool.and_eq_true, Bool.not_eq_true', decide_eq_true_eq] at hfacts
  obtain ⟨⟨⟨h0, hactive⟩, htext⟩, hreply⟩ := hfacts
  have hvalid : ∀ round ∈ [fullRound 3 4 [], fullRound 3 5 [], fullRound 4 4 (str "\\alias bob")],
      round.Valid := by
    simp only [List.forall_mem_cons]
    exact ⟨fullRound_valid (by decide) _, fullRound_valid (by decide) _,
      fullRound_valid (by decide) _, fun _ h => absurd h List.not_mem_nil⟩
  obtain ⟨s', hcall, hsent⟩ := who_complete (LoopReachable.main.handleRounds hvalid hs).reachable h0
    hactive htext (by decide) (succeeds_full [] _)
  exact ⟨s, s', hcall, by rw [hsent, Function.update_self, hreply],
    by rw [hsent, Function.update_of_ne (by decide)]⟩

end Call

end TikFachpraktika.Chat
