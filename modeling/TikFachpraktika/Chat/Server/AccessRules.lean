import TikFachpraktika.Chat.Server.Accesses

/-!
# Rules for accesses

What is sent to a client is appended to its `outbuff`, which an active client has, so that only the
strings that are read from an `inbuff` matter. The handlers that send something to all clients, or
to the sender alone, read the `inbuff` of the sender before they send anything.

## Main definitions

* `Judge`: a property of accesses that the buffers of connected clients have.

## Main results

* `Server.all_loggedSend`: the accesses of a queue and its flush.
* `Judge.all_loggedProcessAlias`, `Judge.all_loggedProcessCow`, `Judge.all_loggedProcessWho`: the
  handlers whose accesses all have the property.
-/

namespace TikFachpraktika.Chat

open Posix

/-- A property that all accesses to an allocated block have. Strings have it that begin in the first
`last` bytes of an `inbuff` which holds `bytes`, or behind them; strings in freed memory do not. -/
structure Judge (P : Access → Prop) (bytes : List Byte) (inLen last : ℕ) : Prop where
  block : ∀ b, P (.block (some b))
  string : ∀ pos ≤ last, P (.string (some bytes) inLen pos)
  freed : ∀ n pos, ¬P (.string none n pos)

namespace Server

/-- The client `fd` has `bytes` in its `inbuff`. -/
def Reads (s : Server) (fd : ℕ) (bytes : List Byte) (inLen : ℕ) : Prop :=
  (s.clients fd).inbuff = some bytes ∧ (s.clients fd).inLen = inLen

/-- The piece is not read from an `inbuff`, or the access to it has the property. -/
def PieceHas (s : Server) (P : Access → Prop) (p : Piece) : Prop :=
  ∀ a ∈ s.pieceAccess p, P a

section Queue

variable {s : Server} {i : ℕ} {P : Access → Prop}

theorem stringAccess_of_reads {fd n : ℕ} {bytes : List Byte} (h : s.Reads fd bytes n) (pos : ℕ) :
    s.stringAccess fd pos = .string (some bytes) n pos := by
  rw [stringAccess, h.1, h.2]

theorem pieceHas_plain (data : List Byte) : s.PieceHas P (.plain data) := by
  intro _ ha
  cases ha

theorem pieceHas_source {data : List Byte} {owner pos : ℕ} :
    s.PieceHas P ⟨data, some (owner, pos)⟩ ↔ P (s.stringAccess owner pos) :=
  ⟨fun h => h _ rfl, fun h _ ha => Option.some.inj ha ▸ h⟩

/-- Queueing leaves the `inbuff` of every client alone. -/
theorem stringAccess_writeFdQueue (data : List Byte) (owner pos : ℕ) :
    (s.writeFdQueue i data).stringAccess owner pos = s.stringAccess owner pos := by
  rw [writeFdQueue_eq, stringAccess, stringAccess]
  rcases eq_or_ne owner i with rfl | hne
  · obtain ⟨b, used, hqueue⟩ := (s.clients owner).queue_eq data
    rw [setClient_clients_self, hqueue]
  · rw [setClient_clients_of_ne _ _ _ hne]

theorem pieceHas_writeFdQueue (data : List Byte) (p : Piece) :
    (s.writeFdQueue i data).PieceHas P p ↔ s.PieceHas P p := by
  have haccess : (s.writeFdQueue i data).pieceAccess p = s.pieceAccess p := by
    rw [pieceAccess, pieceAccess]
    refine congrArg (fun f => p.source.map f) (funext fun source => ?_)
    exact stringAccess_writeFdQueue data source.1 source.2
  rw [PieceHas, PieceHas, haccess]

theorem sound_writeFdQueue (hsound : (s.clients i).Sound) (data : List Byte) :
    ((s.writeFdQueue i data).clients i).Sound := by
  rw [writeFdQueue_eq, setClient_clients_self]
  exact hsound.queue data

theorem active_writeFdQueue (data : List Byte) :
    ((s.writeFdQueue i data).clients i).active = (s.clients i).active := by
  rw [writeFdQueue_eq, setClient_clients_self, Client.queue_active]

/-- The `outbuff` of an active client is there. -/
theorem block_outbuff (hblock : ∀ b, P (.block (some b))) (hsound : (s.clients i).Sound)
    (hactive : (s.clients i).active = true) : P (.block (s.clients i).outbuff) := by
  obtain ⟨-, b, hb, -⟩ := hsound.out hactive
  rw [hb]
  exact hblock b

/-- **Queueing one string.** -/
theorem all_loggedWriteFdQueue (hblock : ∀ b, P (.block (some b)))
    (hsound : (s.clients i).Sound) (hactive : (s.clients i).active = true) (p : Piece) :
    (s.loggedWriteFdQueue i p).All P ↔ s.PieceHas P p := by
  have hout := block_outbuff hblock hsound hactive
  rw [loggedWriteFdQueue, Logged.All, queueAccesses, PieceHas, List.forall_mem_append]
  simp only [Option.mem_toList]
  refine and_iff_left fun a ha => ?_
  split_ifs at ha with hfit
  · rw [List.mem_singleton.mp ha]
    exact hout
  · cases ha

theorem result_loggedWriteFdQueue (p : Piece) :
    (s.loggedWriteFdQueue i p).result = .ok (s.writeFdQueue i p.data) := by
  rw [loggedWriteFdQueue]

/-- **Queueing some strings**, by induction on them. -/
theorem all_loggedWriteAll (hblock : ∀ b, P (.block (some b))) {pieces : List Piece}
    (hsound : (s.clients i).Sound) (hactive : (s.clients i).active = true) :
    (s.loggedWriteAll i pieces).All P ↔ ∀ p ∈ pieces, s.PieceHas P p := by
  induction pieces generalizing s with
  | nil =>
    rw [loggedWriteAll, List.foldlM_nil]
    exact iff_of_true (Logged.all_pure s) fun _ hp => absurd hp List.not_mem_nil
  | cons p pieces ih =>
    have hrest := @ih (s.writeFdQueue i p.data) (sound_writeFdQueue hsound p.data)
      ((active_writeFdQueue p.data).trans hactive)
    rw [loggedWriteAll] at hrest
    rw [loggedWriteAll, List.foldlM_cons, Logged.all_bind,
      all_loggedWriteFdQueue hblock hsound hactive, result_loggedWriteFdQueue,
      List.forall_mem_cons]
    refine and_congr_right fun _ => ⟨fun h q hq => ?_, fun h t ht => ?_⟩
    · exact (pieceHas_writeFdQueue p.data q).mp (hrest.mp (h _ rfl) q hq)
    · obtain rfl := Except.ok.inj ht
      exact hrest.mpr fun q hq => (pieceHas_writeFdQueue p.data q).mpr (h q hq)

theorem sound_writeAll {data : List (List Byte)} (hsound : (s.clients i).Sound) :
    ((s.writeAll i data).clients i).Sound := by
  rw [writeAll_eq, setClient_clients_self]
  induction data generalizing s with
  | nil => exact hsound
  | cons d data ih =>
    have hrest := ih (sound_writeFdQueue hsound d)
    rwa [writeFdQueue_eq, setClient_clients_self] at hrest

/-- **What is sent to an active client** is read where it comes from, and nothing else matters. -/
theorem all_loggedSend (hblock : ∀ b, P (.block (some b))) {pieces : List Piece}
    {answers : List WriteAnswer} (hsound : (s.clients i).Sound)
    (hactive : (s.clients i).active = true) :
    (s.loggedSend i pieces answers).All P ↔ ∀ p ∈ pieces, s.PieceHas P p := by
  rw [loggedSend, Logged.all_bind, all_loggedWriteAll hblock hsound hactive]
  refine and_iff_left fun t ht a ha => ?_
  rw [result_loggedWriteAll] at ht
  obtain rfl := Except.ok.inj ht
  rw [loggedFlushQueuedData, flushAccesses] at ha
  dsimp only at ha
  split_ifs at ha with hinactive hempty
  · cases ha
  · cases ha
  · rw [List.mem_singleton.mp ha]
    exact block_outbuff hblock (sound_writeAll hsound) (by simpa using hinactive)

/-- Strings from elsewhere. -/
theorem all_loggedReply (hblock : ∀ b, P (.block (some b))) (data : List (List Byte))
    (answers : List WriteAnswer) (hsound : (s.clients i).Sound)
    (hactive : (s.clients i).active = true) : (s.loggedReply i data answers).All P := by
  refine (all_loggedSend hblock hsound hactive).mpr fun p hp => ?_
  obtain ⟨d, -, rfl⟩ := List.mem_map.mp hp
  exact pieceHas_plain d

end Queue

end Server

/-! ### Handlers -/

section Handlers

open Server

variable {lfd : ℕ} {s : Server} {fd n last : ℕ} {inp : Input} {text bytes : List Byte}
  {P : Access → Prop}

/-- A loop that sends strings from elsewhere to all active clients. -/
theorem Registered.all_loggedForActive (hblock : ∀ b, P (.block (some b))) (h : Registered lfd s)
    (data : Server → ℕ → List (List Byte)) :
    (s.loggedForActive fun s i => s.loggedReply i (data s i) (inp.writes i)).All P := by
  rw [loggedForActive]
  refine @Logged.all_foldlM _ _ _ _ P (Registered lfd) _ _ _ h fun i _ t ht => ?_
  split_ifs with hactive
  · refine ⟨all_loggedReply hblock _ _ (ht.sound i) hactive, fun t' ht' => ?_⟩
    rw [result_loggedReply] at ht'
    exact (closed_registered lfd).writeAndFlush ht ht'
  · refine ⟨Logged.all_pure t, fun t' ht' => ?_⟩
    obtain rfl := Except.ok.inj ht'
    exact ht

/-- `server_process_alias` uses the name before it sends anything. -/
theorem Judge.all_loggedProcessAlias (hP : Judge P bytes n last) (h : Registered lfd s)
    (hactive : (s.clients fd).active = true) (hreads : s.Reads fd bytes n)
    (hlast : magicStrAlias.length ≤ last) : (s.loggedProcessAlias fd inp text).All P := by
  have hsound := h.sound fd
  have hstring : P (s.stringAccess fd magicStrAlias.length) := by
    rw [stringAccess_of_reads hreads]
    exact hP.string _ hlast
  have htell : ∀ a ∈ [s.stringAccess fd magicStrAlias.length], P a := fun a ha =>
    List.mem_singleton.mp ha ▸ hstring
  rw [loggedProcessAlias]
  split_ifs with hhas hlong hchars
  · exact all_loggedReply hP.block _ _ hsound hactive
  · exact (Logged.all_tell_bind _ _).mpr ⟨htell, all_loggedReply hP.block _ _ hsound hactive⟩
  · exact (Logged.all_tell_bind _ _).mpr ⟨htell, all_loggedReply hP.block _ _ hsound hactive⟩
  · rw [Logged.all_tell_bind, Logged.all_bind]
    refine ⟨htell, Logged.all_lift _, fun found _ => ?_⟩
    cases found with
    | some i => exact all_loggedReply hP.block _ _ hsound hactive
    | none =>
      have hclient : (s.putAlias fd (text.drop magicStrAlias.length)).clients fd =
          { s.clients fd with hasAlias := true, aliasStr := text.drop magicStrAlias.length } := by
        rw [putAlias, setClient_clients_self]
      have hsame : (s.putAlias fd (text.drop magicStrAlias.length)).stringAccess fd
          magicStrAlias.length = s.stringAccess fd magicStrAlias.length := by
        rw [stringAccess, stringAccess, hclient]
      refine (all_loggedSend hP.block (by rw [hclient]; exact ⟨hsound.out, hsound.input,
        hsound.inactive⟩) (by rw [hclient]; exact hactive)).mpr ?_
      simp only [List.forall_mem_cons]
      refine ⟨pieceHas_plain _, pieceHas_source.mpr ?_, pieceHas_plain _,
        fun _ hp => absurd hp List.not_mem_nil⟩
      rw [hsame]
      exact hstring

theorem Judge.all_loggedProcessCow (hP : Judge P bytes n last) (h : Registered lfd s)
    (hactive : (s.clients fd).active = true) (hreads : s.Reads fd bytes n)
    (hlast : magicStrCow.length ≤ last) : (s.loggedProcessCow fd inp).All P := by
  rw [loggedProcessCow, Logged.all_tell_bind]
  refine ⟨fun a ha => ?_, ?_⟩
  · rw [List.mem_singleton.mp ha, stringAccess_of_reads hreads]
    exact hP.string _ hlast
  · dsimp only
    split_ifs with hresult
    · exact h.all_loggedForActive hP.block _
    · exact all_loggedReply hP.block _ _ (h.sound fd) hactive

theorem Judge.all_loggedProcessWho (hP : Judge P bytes n last) (h : Registered lfd s)
    (hactive : (s.clients fd).active = true) : (s.loggedProcessWho fd inp).All P := by
  rw [loggedProcessWho]
  split_ifs with hzero
  · exact Logged.all_lift _
  · exact all_loggedReply hP.block _ _ (h.sound fd) hactive

end Handlers

end TikFachpraktika.Chat
