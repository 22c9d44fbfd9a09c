import Mathlib.Data.List.Forall2
import TikFachpraktika.Chat.Client
import TikFachpraktika.Chat.Server.Registry

/-!
# From the client to the server

`client_main` writes a submitted line without its terminator, and `server_process_client` takes
what one `read` returns for a command or a message. So the server processes the lines of a client
only if each `read` returns one line.

## Main definitions

* `Server.processed`: the string that a call of `server_process_client` processes.
* `Serves`: a run of the server, with what is read from one client and the strings processed.

## Main results

* `Server.processClient_eq`: the call processes this string.
* `processed_lines_iff`: when the server processes the lines that a client submits.
-/

namespace TikFachpraktika.Chat

open Posix

/-! ### Cutting a stream -/

theorem length_flatten_le {xs ys : List (List Byte)} (h : List.Forall₂ (· <+: ·) xs ys) :
    xs.flatten.length ≤ ys.flatten.length := by
  induction h with
  | nil => exact le_rfl
  | cons hxy _ ih =>
    rw [List.flatten_cons, List.flatten_cons, List.length_append, List.length_append]
    exact Nat.add_le_add hxy.length_le ih

/-- Longer pieces of the same total length are no longer. -/
theorem eq_of_forall₂_prefix : {xs ys : List (List Byte)} → List.Forall₂ (· <+: ·) xs ys →
    ys.flatten.length ≤ xs.flatten.length → xs = ys
  | [], [], _, _ => rfl
  | x :: xs, y :: ys, .cons hxy hrest, hlen => by
      have hhead := hxy.length_le
      have htail := length_flatten_le hrest
      rw [List.flatten_cons, List.flatten_cons, List.length_append, List.length_append] at hlen
      rw [hxy.eq_of_length (by omega), eq_of_forall₂_prefix hrest (by omega)]

/-! ### What the server processes -/

namespace Server

variable (s : Server) (fd : ℕ) (inp : Input)

/-- The string that `server_process_client` hands on, if it does not return before. -/
def processed : Option (List Byte) :=
  let c := s.clients fd
  let bytes := (inp.read.getD []).take c.inLen
  let inbuff := inString c.inLen bytes inp.beyond
  if bytes = [] ∨ inbuff = [] then none else some inbuff

/-- **A call of `server_process_client`** processes this string, and disconnects the client
without one. -/
theorem processClient_eq : s.processClient fd inp =
    let s' := s.putInbuff fd ((inp.read.getD []).take (s.clients fd).inLen)
    match s.processed fd inp with
    | none => if inp.errno = eagain then pure s' else pure (s'.disconnectClient fd)
    | some text => s'.processString fd inp text := by
  by_cases hempty : (inp.read.getD []).take (s.clients fd).inLen = [] ∨
      inString (s.clients fd).inLen ((inp.read.getD []).take (s.clients fd).inLen) inp.beyond = []
  · rw [processClient, processed, if_pos hempty, if_pos hempty]
    rfl
  · rw [processClient, processed, if_neg hempty, if_neg hempty]
    rfl

end Server

/-- A run of the server from a reachable state, with the results of `read` for the client `fd` and
the strings of it that are processed; between the calls for `fd` other handlers run. -/
inductive Serves (opened : ℕ → Bool) (lfd fd : ℕ) :
    Server → List (List Byte) → List (List Byte) → Prop
  | start {s : Server} (h : Reachable opened lfd s) : Serves opened lfd fd s [] []
  | other {s s' : Server} {i : ℕ} {inp : Input} {reads log : List (List Byte)}
      (h : Serves opened lfd fd s reads log) (hi : i ≠ fd) (hvalid : inp.Valid s)
      (hcall : s.callHandler i inp = .ok s') : Serves opened lfd fd s' reads log
  | read {s s' : Server} {inp : Input} {bytes : List Byte} {reads log : List (List Byte)}
      (h : Serves opened lfd fd s reads log) (hf : s.read.f fd = some .processClient)
      (hread : inp.read = some bytes) (hvalid : inp.Valid s)
      (hcall : s.callHandler fd inp = .ok s') :
      Serves opened lfd fd s' (reads ++ [bytes]) (log ++ (s.processed fd inp).toList)

section Serves

variable {opened : ℕ → Bool} {lfd fd : ℕ} {s : Server} {reads log : List (List Byte)}

theorem Serves.reachable (h : Serves opened lfd fd s reads log) : Reachable opened lfd s := by
  induction h with
  | start h => exact h
  | other _ _ hvalid hcall ih => exact ih.call hvalid hcall
  | read _ _ _ hvalid hcall ih => exact ih.call hvalid hcall

/-- The result of a `read` is processed as a whole; when it fills `inbuff`, the string runs on
behind it. -/
theorem Registered.processed_eq (h : Registered lfd s) (hactive : (s.clients fd).active = true)
    {inp : Input} {bytes : List Byte} (hread : inp.read = some bytes) (hne : bytes ≠ [])
    (hnul : (0 : Byte) ∉ bytes) (hle : bytes.length ≤ initQsiz) :
    ∃ text, s.processed fd inp = some text ∧ bytes <+: text ∧
      (bytes.length < initQsiz → text = bytes) := by
  have hlen : (s.clients fd).inLen = initQsiz := ((h.sound fd).input hactive).1
  have hbegin : bytes <+: Server.inString initQsiz bytes inp.beyond := by
    rw [Server.inString]
    split_ifs with hlt
    · rw [cstr_of_notMem hnul]
    · rw [cstr_append_of_notMem hnul]
      exact List.prefix_append _ _
  refine ⟨Server.inString initQsiz bytes inp.beyond, ?_, hbegin, fun hlt => ?_⟩
  · rw [Server.processed, hlen, hread, Option.getD_some, List.take_of_length_le hle, if_neg]
    rintro (hnil | hnil)
    · exact hne hnil
    · exact hne (List.prefix_nil.mp (hnil ▸ hbegin))
  · rw [Server.inString, if_pos hlt, cstr_of_notMem hnul]

/-- Each result of `read` is processed as one string that begins with it. -/
theorem Serves.forall₂ (h : Serves opened lfd fd s reads log)
    (hreads : ∀ bytes ∈ reads, bytes ≠ [] ∧ (0 : Byte) ∉ bytes ∧ bytes.length ≤ initQsiz) :
    List.Forall₂ (fun bytes text => bytes <+: text ∧ (bytes.length < initQsiz → text = bytes))
      reads log := by
  induction h with
  | start _ => exact .nil
  | other _ _ _ _ ih => exact ih hreads
  | @read s s' inp bytes reads log h hf hread hvalid hcall ih =>
    have hreg := h.reachable.registered
    obtain ⟨hne, hnul, hle⟩ := hreads bytes (by simp)
    obtain ⟨text, htext, hbytes⟩ :=
      hreg.processed_eq (hreg.active_of_processClient hf) hread hne hnul hle
    rw [htext]
    exact List.rel_append (ih fun b hb => hreads b (List.mem_append_left _ hb))
      (.cons hbytes .nil)

end Serves

/-! ### Lines -/

/-- **When the server processes the lines of a client.** A client submits lines, and its stream is
read in pieces of one to `in_len` bytes, with other handlers running in between. Then the strings
that the server processes are the lines if and only if each `read` returns as many bytes as the
line has. -/
theorem processed_lines_iff {opened : ℕ → Bool} {lfd fd : ℕ} {passes : List Pass} {c : ClientMain}
    (hrun : ClientMain.start.run passes = .ok c) (hwrite : ∀ p ∈ passes, p.write = .full)
    (hlines : ∀ line ∈ submitted [] passes, line ≠ [] ∧ IsLine line)
    {s : Server} {reads log : List (List Byte)} (hs : Serves opened lfd fd s reads log)
    (hreads : ∀ bytes ∈ reads, bytes ≠ [] ∧ bytes.length ≤ initQsiz)
    (hstream : reads.flatten = c.written) :
    log = submitted [] passes ↔
      reads.map List.length = (submitted [] passes).map List.length := by
  have hwritten : reads.flatten = (submitted [] passes).flatten := by
    rw [hstream, ClientMain.written_of_run ClientMain.typed_start (fun l hl => (hlines l hl).2)
      hwrite hrun]
    rfl
  have hnul : ∀ bytes ∈ reads, (0 : Byte) ∉ bytes := fun bytes hbytes h0 => by
    have hmem := hwritten ▸ List.mem_flatten_of_mem hbytes h0
    obtain ⟨line, hline, hzero⟩ := List.mem_flatten.mp hmem
    exact (hlines line hline).2.zero_notMem hzero
  have hpieces := hs.forall₂ fun bytes hbytes =>
    ⟨(hreads bytes hbytes).1, hnul bytes hbytes, (hreads bytes hbytes).2⟩
  constructor
  · intro hlog
    have heq : reads = log := eq_of_forall₂_prefix (hpieces.imp fun _ _ h => h.1)
      (by rw [hlog, hwritten])
    rw [heq, hlog]
  · intro hlen
    have heq : reads = submitted [] passes := List.eq_iff_flatten_eq.mpr ⟨hwritten, hlen⟩
    have hshort : ∀ bytes ∈ reads, bytes.length < initQsiz := fun bytes hbytes =>
      (hlines bytes (heq ▸ hbytes)).2.length_lt
    have hall : List.Forall₂ (· = ·) reads log :=
      ((List.forall₂_and_left reads log).mpr ⟨hshort, hpieces⟩).imp fun _ _ h => (h.2.2 h.1).symm
    rw [List.forall₂_eq_eq_eq] at hall
    rw [← hall, heq]

/-! ### Two lines in one read -/

/-- A pass in which the key `ch` is pressed. -/
def keyPass (ch : ℤ) : Pass := ⟨ch, false, none, .full⟩

/-- A server on descriptor 3 reads `text` from client 4. -/
theorem exists_serves (text : List Byte) (hne : text ≠ []) (hnul : (0 : Byte) ∉ text)
    (hlt : text.length < initQsiz)
    (hrun : ((serverMain (fun _ => false) 3).handleRounds [fullRound 3 4 []]).map (fun s =>
      decide (s.read.f 4 = some .processClient) &&
        (s.callHandler 4 (fullInput 5 text s)).toBool) = .ok true) :
    ∃ s, Serves (fun _ => false) 3 4 s [text] [text] := by
  obtain ⟨s, hs, hfacts⟩ := exists_of_map_eq_ok hrun
  rw [Bool.and_eq_true, decide_eq_true_eq] at hfacts
  obtain ⟨hf, hok⟩ := hfacts
  have hreach : Reachable (fun _ => false) 3 s := (LoopReachable.main.handleRounds
    (fun r hr => List.mem_singleton.mp hr ▸ fullRound_valid (by decide) _) hs).reachable
  cases hcall : s.callHandler 4 (fullInput 5 text s) with
  | error e =>
    rw [hcall] at hok
    cases hok
  | ok s' =>
    obtain ⟨text', hprocessed, -, heq⟩ := hreach.registered.processed_eq
      (hreach.registered.active_of_processClient hf)
      (show (fullInput 5 text s).read = some text from rfl) hne hnul hlt.le
    have hserves := Serves.read (.start hreach) hf rfl (fullInput_valid (by decide) text s) hcall
    rw [hprocessed, heq hlt] at hserves
    exact ⟨s', hserves⟩

/-- The command `\who` is typed, and one `read` returns it. -/
theorem processed_lines_iff_who : ∃ (s : Server) (log : List (List Byte)),
    Serves (fun _ => false) 3 4 s [str "\\who"] log ∧ log = [str "\\who"] := by
  obtain ⟨s, hs⟩ := exists_serves (str "\\who") (by decide) (by decide) (by decide)
    (by decide +kernel)
  have hrun : ClientMain.start.run (([92, 119, 104, 111, 10] : List ℤ).map keyPass) =
      .ok ⟨[], [], 0, [], [], str "\\who"⟩ := by decide +kernel
  have hlines : submitted [] (([92, 119, 104, 111, 10] : List ℤ).map keyPass) = [str "\\who"] := by
    decide +kernel
  have hiff := processed_lines_iff hrun (by simp [keyPass]) (by
    rw [hlines]
    exact fun l hl => List.mem_singleton.mp hl ▸ ⟨by decide, by decide, by decide⟩) hs
    (fun l hl => List.mem_singleton.mp hl ▸ ⟨by decide, by decide⟩) rfl
  rw [hlines] at hiff
  exact ⟨s, _, hs, hiff.mpr rfl⟩

/-- **The server can process something else than the lines**: of the lines `@a` and `b` one `read`
may return `@ab`. -/
theorem not_forall_processed_lines :
    ¬∀ (opened : ℕ → Bool) (lfd fd : ℕ) (passes : List Pass) (c : ClientMain) (s : Server)
      (reads log : List (List Byte)), ClientMain.start.run passes = .ok c →
      (∀ p ∈ passes, p.write = .full) →
      (∀ line ∈ submitted [] passes, line ≠ [] ∧ IsLine line) →
      Serves opened lfd fd s reads log →
      (∀ bytes ∈ reads, bytes ≠ [] ∧ bytes.length ≤ initQsiz) → reads.flatten = c.written →
      log = submitted [] passes := by
  intro hall
  obtain ⟨s, hs⟩ := exists_serves (str "@ab") (by decide) (by decide) (by decide)
    (by decide +kernel)
  have hrun : ClientMain.start.run (([64, 97, 10, 98, 10] : List ℤ).map keyPass) =
      .ok ⟨[], [], 0, [], [], str "@ab"⟩ := by decide +kernel
  have hlines : submitted [] (([64, 97, 10, 98, 10] : List ℤ).map keyPass) =
      [str "@a", str "b"] := by decide +kernel
  have hlog := hall _ _ _ _ _ _ _ _ hrun (by simp [keyPass]) (by
    rw [hlines]
    simp only [List.forall_mem_cons]
    exact ⟨⟨by decide, by decide, by decide⟩, ⟨by decide, by decide, by decide⟩, nofun⟩) hs
    (fun l hl => List.mem_singleton.mp hl ▸ ⟨by decide, by decide⟩) rfl
  rw [hlines] at hlog
  exact absurd hlog (by decide)

end TikFachpraktika.Chat
