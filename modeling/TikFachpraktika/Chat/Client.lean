import TikFachpraktika.Chat.Common

/-!
# The chat client

The loop of `client_main` of `6_network/client.c`. Without a key it polls the connection and posts
what one `read` returns; a newline writes the line that has been typed, and every other key is
stored in the line.

## Main definitions

* `ClientMain`, `Pass`: the variables of `client_main`, and what one pass of its loop gets.
* `ClientMain.step`, `ClientMain.run`: the loop.
* `reads`, `submitted`: the results of `read`, and the lines typed.
* `postAll`: the strings that are posted for some results of `read`.

## Main results

* `ClientMain.posted_of_run`: what a run posts.
* `ClientMain.written_of_run`: what a run writes.
-/

namespace TikFachpraktika.Chat

open Posix

/-- `ERR`. -/
def errKey : ℤ := -1

/-- `KEY_F(9)`. -/
def keyF9 : ℤ := 264 + 9

/-- What one pass of the loop gets.
* `ch`: the result of `getch`;
* `polled`: whether `poll` finds data;
* `read`: the bytes of `read`, `none` for an error;
* `write`: the answer of `write`. -/
structure Pass where
  ch : ℤ
  polled : Bool
  read : Option (List Byte)
  write : WriteAnswer

/-- How `client_main` ends: after F9, or in one of its two panics. -/
inductive Exit
  | closed
  | cannotRead
  | connectionLost
  deriving DecidableEq

/-- The variables of `client_main`; the two buffers have `INIT_QSIZ` bytes. Further the strings
posted on the board, the characters in the input window, and the bytes written to the
connection. -/
structure ClientMain where
  rbuff : List Byte
  wbuff : List Byte
  wuse : ℕ
  posted : List (List Byte)
  echoed : List Byte
  written : List Byte
  deriving DecidableEq

/-- The buffer after a `read` of `bytes`, and its last byte overwritten. -/
def readInto (rbuff bytes : List Byte) : List Byte :=
  (overwrite rbuff bytes).set (initQsiz - 1) 0

namespace ClientMain

/-- The variables before the loop. -/
def start : ClientMain where
  rbuff := []
  wbuff := []
  wuse := 0
  posted := []
  echoed := []
  written := []

/-- One pass of the loop. -/
def step (c : ClientMain) (p : Pass) : Except Exit ClientMain :=
  if p.ch = keyF9 then throw .closed
  else if p.ch = errKey then
    if p.polled then
      let bytes := (p.read.getD []).take initQsiz
      if bytes = [] then throw .cannotRead
      else
        let rbuff := readInto c.rbuff bytes
        pure { c with rbuff := rbuff, posted := c.posted ++ [cstr rbuff] }
    else pure c
  else if p.ch = 10 then
    let line := cstr (c.wbuff.set (initQsiz - 1) 0)
    match p.write.count line.length with
    | none => throw .connectionLost
    | some len =>
      pure { c with wbuff := [], wuse := 0, echoed := [], written := c.written ++ line.take len }
  else
    let chr := UInt8.ofInt p.ch
    let echoed := c.echoed ++ [chr]
    if c.wuse < initQsiz then
      pure { c with wbuff := poke c.wbuff c.wuse chr, wuse := c.wuse + 1, echoed := echoed }
    else pure { c with echoed := echoed }

/-- Passes of the loop one after the other. -/
def run (c : ClientMain) (passes : List Pass) : Except Exit ClientMain :=
  passes.foldlM step c

end ClientMain

/-! ### Posting -/

/-- Whether a pass reads from the connection. -/
def Pass.isRead (p : Pass) : Bool :=
  decide (p.ch = errKey) && p.polled

/-- The results of `read` in some passes. -/
def reads (passes : List Pass) : List (List Byte) :=
  (passes.filter Pass.isRead).map fun p => (p.read.getD []).take initQsiz

/-- The strings that are posted for some results of `read`. -/
def postAll : List Byte → List (List Byte) → List (List Byte)
  | _, [] => []
  | rbuff, bytes :: rest => cstr (readInto rbuff bytes) :: postAll (readInto rbuff bytes) rest

section Run

variable {c c' : ClientMain} {p : Pass}

/-- **A pass** either reads and posts, or leaves the buffer and the board alone. -/
theorem ClientMain.posted_of_step (h : c.step p = .ok c') :
    (p.isRead = true ∧
      c'.rbuff = readInto c.rbuff ((p.read.getD []).take initQsiz) ∧
      c'.posted = c.posted ++ [cstr c'.rbuff]) ∨
    (p.isRead = false ∧ c'.rbuff = c.rbuff ∧ c'.posted = c.posted) := by
  rw [ClientMain.step] at h
  dsimp only at h
  split_ifs at h with hclosed herr hpoll hempty hnewline hfull
  · cases h
    exact .inl ⟨by rw [Pass.isRead, hpoll, Bool.and_true, decide_eq_true herr], rfl, rfl⟩
  · cases h
    exact .inr ⟨by simp [Pass.isRead, hpoll], rfl, rfl⟩
  · split at h
    · cases h
    · cases h
      exact .inr ⟨by simp [Pass.isRead, herr], rfl, rfl⟩
  · cases h
    exact .inr ⟨by simp [Pass.isRead, herr], rfl, rfl⟩
  · cases h
    exact .inr ⟨by simp [Pass.isRead, herr], rfl, rfl⟩

/-- **What a run posts** is made of the results of `read` alone. -/
theorem ClientMain.posted_of_run : {passes : List Pass} → {c c' : ClientMain} →
    c.run passes = .ok c' → c'.posted = c.posted ++ postAll c.rbuff (reads passes)
  | [], c, c', h => by
      cases h
      exact (List.append_nil _).symm
  | p :: passes, c, c', h => by
      obtain ⟨c₁, hstep, hrun⟩ := exists_of_foldlM_cons_eq_ok h
      rw [posted_of_run hrun]
      obtain ⟨hread, hbuff, hposted⟩ | ⟨hread, hbuff, hposted⟩ := posted_of_step hstep
      · have hreads : reads (p :: passes) = (p.read.getD []).take initQsiz :: reads passes := by
          rw [reads, List.filter_cons_of_pos hread, List.map_cons, reads]
        rw [hreads, postAll, hposted, hbuff, List.append_assoc, List.singleton_append]
      · have hreads : reads (p :: passes) = reads passes := by
          rw [reads, List.filter_cons_of_neg (by simp [hread]), reads]
        rw [hreads, hposted, hbuff]

end Run

/-! ### Writing -/

/-- The lines that are submitted when `line` has been typed before. -/
def submitted : List Byte → List Pass → List (List Byte)
  | _, [] => []
  | line, p :: passes =>
    if p.ch = errKey then submitted line passes
    else if p.ch = 10 then line :: submitted [] passes
    else submitted (line ++ [UInt8.ofInt p.ch]) passes

/-- A line that fits into the buffer. -/
structure IsLine (line : List Byte) : Prop where
  zero_notMem : (0 : Byte) ∉ line
  length_lt : line.length < initQsiz

/-- The buffer holds the typed line as far as it fits. -/
structure ClientMain.Typed (c : ClientMain) (line : List Byte) : Prop where
  wbuff_eq : c.wbuff = line.take initQsiz
  wuse_eq : c.wuse = min line.length initQsiz

theorem ClientMain.typed_start : ClientMain.start.Typed [] :=
  ⟨rfl, rfl⟩

section Step

variable {c c' : ClientMain} {p : Pass} {line : List Byte}

/-- A pass without a key writes nothing. -/
theorem ClientMain.Typed.errKey (hc : c.Typed line) (hch : p.ch = errKey)
    (h : c.step p = .ok c') : c'.Typed line ∧ c'.written = c.written := by
  rw [ClientMain.step, hch, if_neg (by decide), if_pos rfl] at h
  dsimp only at h
  split_ifs at h with hpoll hempty
  · cases h
    exact ⟨⟨hc.wbuff_eq, hc.wuse_eq⟩, rfl⟩
  · cases h
    exact ⟨hc, rfl⟩

/-- A newline writes the line and begins a new one. -/
theorem ClientMain.Typed.newline (hc : c.Typed line) (hline : IsLine line) (hch : p.ch = 10)
    (hwrite : p.write = .full) (h : c.step p = .ok c') :
    c'.Typed [] ∧ c'.written = c.written ++ line := by
  have hlt := hline.length_lt
  have hbuff : cstr (c.wbuff.set (initQsiz - 1) 0) = line := by
    rw [hc.wbuff_eq, List.take_of_length_le hlt.le, List.set_eq_of_length_le (by omega),
      cstr_of_notMem hline.zero_notMem]
  rw [ClientMain.step, hch, if_neg (by decide), if_neg (by decide), if_pos rfl, hbuff, hwrite] at h
  cases h
  exact ⟨⟨rfl, rfl⟩, by rw [List.take_length]⟩

/-- Any other key is added to the line. -/
theorem ClientMain.Typed.key (hc : c.Typed line) (herr : p.ch ≠ Chat.errKey) (hch : p.ch ≠ 10)
    (h : c.step p = .ok c') :
    c'.Typed (line ++ [UInt8.ofInt p.ch]) ∧ c'.written = c.written := by
  rw [ClientMain.step, if_neg herr, if_neg hch] at h
  dsimp only at h
  split_ifs at h with hclosed hfull
  · cases h
    have hlt : line.length < initQsiz := by
      have huse := hc.wuse_eq
      omega
    refine ⟨⟨?_, ?_⟩, rfl⟩
    · dsimp only
      rw [hc.wbuff_eq, hc.wuse_eq, Nat.min_eq_left hlt.le, List.take_of_length_le hlt.le,
        poke_length, List.take_of_length_le (by rw [List.length_append]; exact hlt)]
    · dsimp only
      rw [hc.wuse_eq, List.length_append, List.length_singleton]
      omega
  · cases h
    have hle : initQsiz ≤ line.length := by
      have huse := hc.wuse_eq
      omega
    refine ⟨⟨?_, ?_⟩, rfl⟩
    · dsimp only
      rw [hc.wbuff_eq, List.take_append_of_le_length hle]
    · dsimp only
      rw [hc.wuse_eq, List.length_append]
      omega

end Step

/-- **What a run writes** is the lines that are submitted, without anything between them. -/
theorem ClientMain.written_of_run : {passes : List Pass} → {c c' : ClientMain} →
    {line : List Byte} → c.Typed line → (∀ l ∈ submitted line passes, IsLine l) →
    (∀ p ∈ passes, p.write = .full) → c.run passes = .ok c' →
    c'.written = c.written ++ (submitted line passes).flatten
  | [], c, c', line, _, _, _, h => by
      cases h
      exact (List.append_nil _).symm
  | p :: passes, c, c', line, hc, hlines, hwrite, h => by
      obtain ⟨c₁, hstep, hrun⟩ := exists_of_foldlM_cons_eq_ok h
      have hrest : ∀ q ∈ passes, q.write = .full := fun q hq => hwrite q (List.mem_cons_of_mem _ hq)
      rw [submitted] at hlines ⊢
      split_ifs at hlines ⊢ with herr hnewline
      · obtain ⟨hc₁, hwritten⟩ := hc.errKey herr hstep
        rw [written_of_run hc₁ hlines hrest hrun, hwritten]
      · obtain ⟨hc₁, hwritten⟩ := hc.newline (hlines line List.mem_cons_self) hnewline
          (hwrite p List.mem_cons_self) hstep
        rw [written_of_run hc₁ (fun l hl => hlines l (List.mem_cons_of_mem _ hl)) hrest hrun,
          hwritten, List.flatten_cons, List.append_assoc]
      · obtain ⟨hc₁, hwritten⟩ := hc.key herr hnewline hstep
        rw [written_of_run hc₁ hlines hrest hrun, hwritten]

end TikFachpraktika.Chat
