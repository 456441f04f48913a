import KernelDesign.LineEditor
import KernelDesign.TermWrite

/-!
# `term_write` step by step

`term_write` runs with the interrupts on, and `putc` reads and writes
`screen_x`, `screen_y` and video memory one after the other. A key that comes in
between prints at a position that `putc` is about to correct. Here each access
is a step, in the order of the text, and a `WriteSession` is a kernel at whose
keyboard somebody types while one call of `term_write` after the other makes
its steps.

Without a key in between the steps are those of `termWrite` (`run_termWrite`).
-/

namespace KernelDesign

open Kernel Transition

/-! ## The accesses of `putc` -/

/-- **The two bytes of a cell**, the character and the attribute. -/
inductive CellByte
  | char (ch : UInt8)
  | attrib

/-- The byte itself. -/
def CellByte.value : CellByte → UInt8
  | char ch => ch
  | attrib => 7

/-- Where it is in the cell. -/
def CellByte.offset : CellByte → ℕ
  | char _ => 0
  | attrib => 1

/-- **Where a call of `putc` is**, with the values it has loaded. -/
inductive PutcAt
  /-- Before the test for a line break. -/
  | start (ch : UInt8)
  /-- The address of a cell: `screen_y`, then `screen_x`, then the store. -/
  | cellRow (b : CellByte)
  | cellCol (b : CellByte) (y : ℕ)
  | cellStore (b : CellByte) (loc : ℕ)
  /-- `screen_x++`, and its test. -/
  | colLoad
  | colStore (x : ℕ)
  | colTest
  /-- `screen_y++`, `screen_x = 0`, and the test. -/
  | rowLoad
  | rowStore (y : ℕ)
  | rowHome
  | rowTest
  /-- In `scroll`: byte `i` of the move, and cell `j` of the last row. -/
  | move (i : ℕ)
  | blank (j : ℕ)
  | rowLast
  /-- `get_screen_loc`, and the call of `set_cursor_loc`, one step here. -/
  | locCol
  | locRow (x : ℕ)
  | cursor (loc : ℕ)

namespace Console

/-- Store a byte of video memory. -/
def storeByte (c : Console) (a : ℕ) (v : UInt8) : Console :=
  { c with videoMem := Function.update c.videoMem a v }

/-- **One step of `putc`**, and where it is then, if it has not returned. -/
def putcStep (c : Console) : PutcAt → Console × Option PutcAt
  | .start ch =>
    (c, some (if ch = 0x0A ∨ ch = 0x0D then .rowLoad else .cellRow (.char ch)))
  | .cellRow b => (c, some (.cellCol b c.screenY))
  | .cellCol b y => (c, some (.cellStore b (80 * y + c.screenX)))
  | .cellStore b loc =>
    (c.storeByte (2 * loc + b.offset) b.value,
      some (match b with
        | .char _ => .cellRow .attrib
        | .attrib => .colLoad))
  | .colLoad => (c, some (.colStore c.screenX))
  | .colStore x => ({ c with screenX := x + 1 }, some .colTest)
  | .colTest => (c, some (if 80 ≤ c.screenX then .rowLoad else .locCol))
  | .rowLoad => (c, some (.rowStore c.screenY))
  | .rowStore y => ({ c with screenY := y + 1 }, some .rowHome)
  | .rowHome => ({ c with screenX := 0 }, some .rowTest)
  | .rowTest => (c, some (if 25 ≤ c.screenY then .move 0 else .locCol))
  | .move i =>
    if i < 3840 then (c.storeByte i (c.videoMem (i + 160)), some (.move (i + 1)))
    else (c, some (.blank 0))
  | .blank j =>
    if j < 80 then
      ((c.storeByte (3840 + 2 * j) 0x20).storeByte (3840 + 2 * j + 1) 7, some (.blank (j + 1)))
    else (c, some .rowLast)
  | .rowLast => ({ c with screenY := 24 }, some .locCol)
  | .locCol => (c, some (.locRow c.screenX))
  | .locRow x => (c, some (.cursor (x + 80 * c.screenY)))
  | .cursor loc => (c.setCursorLoc loc, none)

end Console

/-! ## The writer -/

/-- **Where a call of `term_write` is.** -/
inductive Writer
  | idle
  /-- Before the test of byte `i`. -/
  | testing (buf : Bytes) (nbytes : ℤ) (i : ℕ)
  /-- In the call of `putc` for byte `i`. -/
  | printing (buf : Bytes) (nbytes : ℤ) (i : ℕ) (p : PutcAt)
  | returned (ret : ℤ)

/-- A call is in progress. -/
def Writer.Busy : Writer → Prop
  | idle | returned _ => False
  | testing .. | printing .. => True

instance : DecidablePred Writer.Busy
  | .idle | .returned _ => .isFalse (fun h => h)
  | .testing .. | .printing .. => .isTrue trivial

/-- **A session with a writer.** -/
structure WriteSession where
  kernel : Kernel
  writer : Writer

/-- A scancode arrives, `term_write` is called, or the call makes a step. -/
inductive WriteEvent
  | key (sc : UInt8)
  | call (buf : Option Bytes) (nbytes : ℤ)
  | step

namespace WriteSession

/-- The arguments of a call are tested first. -/
def call (s : WriteSession) (buf : Option Bytes) (nbytes : ℤ) : WriteSession :=
  match buf with
  | none => { s with writer := .returned (-1) }
  | some b =>
    if nbytes < 0 then { s with writer := .returned (-1) }
    else { s with writer := .testing b nbytes 0 }

/-- After byte `i` the size is tested. -/
def afterPutc (b : Bytes) (nbytes : ℤ) (i : ℕ) : Writer :=
  if ((i + 1 : ℕ) : ℤ) < nbytes then .testing b nbytes (i + 1) else .returned ↑(i + 1)

/-- **One step of `term_write`.** -/
def advance (s : WriteSession) : Option WriteSession :=
  match s.writer with
  | .idle | .returned _ => none
  | .testing b n i =>
    some { s with writer := if b i = 0 then .returned i else .printing b n i (.start (b i)) }
  | .printing b n i p =>
    let r := s.kernel.console.putcStep p
    some ⟨{ s.kernel with console := r.1 },
      match r.2 with
      | some p => .printing b n i p
      | none => afterPutc b n i⟩

/-- **A step of a session.** There is one writer, which is called again when
it is back. -/
def step (s : WriteSession) : WriteEvent → Option WriteSession
  | .key sc => some { s with kernel := s.kernel.kbdIntrHandler sc }
  | .call buf nbytes =>
    match s.writer with
    | .idle | .returned _ => some (s.call buf nbytes)
    | _ => none
  | .step => s.advance

/-- **What a step is**, by the event and by where the writer is. -/
inductive Stepped : WriteSession → WriteEvent → WriteSession → Prop
  | key {k : Kernel} {w : Writer} (sc : UInt8) :
      Stepped ⟨k, w⟩ (.key sc) ⟨k.kbdIntrHandler sc, w⟩
  | call {k : Kernel} {w : Writer} {buf : Option Bytes} {nbytes : ℤ} (hidle : ¬ w.Busy) :
      Stepped ⟨k, w⟩ (.call buf nbytes) (call ⟨k, w⟩ buf nbytes)
  | nul {k : Kernel} {b : Bytes} {n : ℤ} {i : ℕ} (hbyte : b i = 0) :
      Stepped ⟨k, .testing b n i⟩ .step ⟨k, .returned i⟩
  | print {k : Kernel} {b : Bytes} {n : ℤ} {i : ℕ} (hbyte : b i ≠ 0) :
      Stepped ⟨k, .testing b n i⟩ .step ⟨k, .printing b n i (.start (b i))⟩
  | next {k : Kernel} {b : Bytes} {n : ℤ} {i : ℕ} {p p' : PutcAt} {c : Console}
      (hputc : k.console.putcStep p = (c, some p')) :
      Stepped ⟨k, .printing b n i p⟩ .step ⟨{ k with console := c }, .printing b n i p'⟩
  | done {k : Kernel} {b : Bytes} {n : ℤ} {i : ℕ} {p : PutcAt} {c : Console}
      (hputc : k.console.putcStep p = (c, none)) :
      Stepped ⟨k, .printing b n i p⟩ .step ⟨{ k with console := c }, afterPutc b n i⟩

/-- Every step is one of these. -/
theorem step_cases {s s' : WriteSession} {e : WriteEvent} (h : s.step e = some s') :
    Stepped s e s' := by
  obtain ⟨k, w⟩ := s
  cases e with
  | key sc =>
    cases h
    exact .key sc
  | call buf nbytes =>
    cases w with
    | idle | returned =>
      cases h
      exact .call (fun hbusy => hbusy)
    | testing | printing => cases h
  | step =>
    cases w with
    | idle | returned => cases h
    | testing b n i =>
      unfold step advance at h
      dsimp only at h
      split at h
      · rename_i hbyte
        cases h
        exact .nul hbyte
      · rename_i hbyte
        cases h
        exact .print hbyte
    | printing b n i p =>
      unfold step advance at h
      dsimp only at h
      cases hputc : k.console.putcStep p with
      | mk c next =>
        rw [hputc] at h
        cases next with
        | none =>
          cases h
          exact .done hputc
        | some p' =>
          cases h
          exact .next hputc

end WriteSession

/-! ## Without a key in between -/

namespace WriteSession

/-- **The steps alone lead from one state to another.** -/
def Reaches (s s' : WriteSession) : Prop := ∃ n, run step s (List.replicate n .step) = some s'

theorem Reaches.refl (s : WriteSession) : s.Reaches s := ⟨0, rfl⟩

theorem Reaches.head {s s₁ s' : WriteSession} (hstep : s.step .step = some s₁)
    (h : s₁.Reaches s') : s.Reaches s' := by
  obtain ⟨n, hrun⟩ := h
  refine ⟨n + 1, ?_⟩
  rw [List.replicate_succ, run_cons, hstep]
  exact hrun

theorem Reaches.trans {s s₁ s' : WriteSession} (h : s.Reaches s₁) (h' : s₁.Reaches s') :
    s.Reaches s' := by
  obtain ⟨m, hm⟩ := h
  obtain ⟨n, hn⟩ := h'
  refine ⟨m + n, ?_⟩
  rw [List.replicate_add, run_append, hm]
  exact hn

section Alone

variable {k : Kernel} {b : Bytes} {n : ℤ} {i : ℕ} {c : Console}

/-- The session in the call of `putc` for a byte. -/
def inPutc (k : Kernel) (b : Bytes) (n : ℤ) (i : ℕ) (c : Console) (p : PutcAt) : WriteSession :=
  ⟨{ k with console := c }, .printing b n i p⟩

theorem Reaches.next {c' : Console} {p p' : PutcAt} {s : WriteSession}
    (hputc : c.putcStep p = (c', some p')) (h : (inPutc k b n i c' p').Reaches s) :
    (inPutc k b n i c p).Reaches s := by
  refine h.head ?_
  have hstep : step (inPutc k b n i c p) .step
      = let r := c.putcStep p
        some ⟨{ k with console := r.1 },
          match r.2 with
          | some p => .printing b n i p
          | none => afterPutc b n i⟩ := rfl
  rw [hstep, hputc]
  rfl

/-- **The move of `scroll`**, from byte `j` on. -/
theorem reaches_move {j m : ℕ} (hj : j + m = 3840) :
    (inPutc k b n i c (.move j)).Reaches
      (inPutc k b n i
        { c with videoMem := fun a => if j ≤ a ∧ a < 3840 then c.videoMem (a + 160)
          else c.videoMem a } (.blank 0)) := by
  induction m generalizing j c with
  | zero =>
    have hmem : (fun a => if j ≤ a ∧ a < 3840 then c.videoMem (a + 160) else c.videoMem a)
        = c.videoMem := funext (fun a => if_neg (by omega))
    rw [hmem]
    exact .next (if_neg (by omega)) (.refl _)
  | succ m ih =>
    refine .next (if_pos (by omega)) ?_
    have hmem : (fun a => if j + 1 ≤ a ∧ a < 3840
          then (c.storeByte j (c.videoMem (j + 160))).videoMem (a + 160)
          else (c.storeByte j (c.videoMem (j + 160))).videoMem a)
        = fun a => if j ≤ a ∧ a < 3840 then c.videoMem (a + 160) else c.videoMem a := by
      funext a
      unfold Console.storeByte
      dsimp only
      obtain hlt | rfl | hgt := Nat.lt_trichotomy a j
      · rw [if_neg (by omega), if_neg (by omega), Function.update_of_ne (by omega)]
      · rw [if_neg (by omega), if_pos (by omega), Function.update_self]
      · rw [Function.update_of_ne (by omega), Function.update_of_ne (by omega)]
        exact if_congr (by omega) rfl rfl
    have hrest := ih (c := c.storeByte j (c.videoMem (j + 160))) (j := j + 1) (by omega)
    rw [hmem] at hrest
    exact hrest

/-- **The fill of `scroll`**, from cell `j` of the last row on. -/
theorem reaches_blank {j m : ℕ} (hj : j + m = 80) :
    (inPutc k b n i c (.blank j)).Reaches
      (inPutc k b n i
        { c with videoMem := fun a => if 3840 + 2 * j ≤ a ∧ a < 4000
          then (if a % 2 = 0 then 0x20 else 7) else c.videoMem a } .rowLast) := by
  induction m generalizing j c with
  | zero =>
    have hmem : (fun a => if 3840 + 2 * j ≤ a ∧ a < 4000
        then (if a % 2 = 0 then 0x20 else 7) else c.videoMem a) = c.videoMem :=
      funext (fun a => if_neg (by omega))
    rw [hmem]
    exact .next (if_neg (by omega)) (.refl _)
  | succ m ih =>
    refine .next (if_pos (by omega)) ?_
    have hmem : (fun a => if 3840 + 2 * (j + 1) ≤ a ∧ a < 4000
          then (if a % 2 = 0 then (0x20 : UInt8) else 7)
          else ((c.storeByte (3840 + 2 * j) 0x20).storeByte (3840 + 2 * j + 1) 7).videoMem a)
        = fun a => if 3840 + 2 * j ≤ a ∧ a < 4000
          then (if a % 2 = 0 then 0x20 else 7) else c.videoMem a := by
      funext a
      unfold Console.storeByte
      dsimp only
      by_cases hchar : a = 3840 + 2 * j
      · rw [hchar, if_neg (by omega), Function.update_of_ne (by omega), Function.update_self,
          if_pos (by omega), if_pos (by omega)]
      · by_cases hattr : a = 3840 + 2 * j + 1
        · rw [hattr, if_neg (by omega), Function.update_self, if_pos (by omega),
            if_neg (by omega)]
        · rw [Function.update_of_ne hattr, Function.update_of_ne hchar]
          exact if_congr (by omega) rfl rfl
    have hrest := ih (c := (c.storeByte (3840 + 2 * j) 0x20).storeByte (3840 + 2 * j + 1) 7)
      (j := j + 1) (by omega)
    rw [hmem] at hrest
    exact hrest

/-- **The steps of `scroll`** are those two. -/
theorem reaches_scroll :
    (inPutc k b n i c (.move 0)).Reaches (inPutc k b n i c.scroll .rowLast) := by
  have hmove : (inPutc k b n i c (.move 0)).Reaches _ := reaches_move (m := 3840) rfl
  refine hmove.trans ?_
  have hfill := reaches_blank (k := k) (b := b) (n := n) (i := i)
    (c := { c with videoMem := fun a => if 0 ≤ a ∧ a < 3840 then c.videoMem (a + 160)
          else c.videoMem a }) (j := 0) (m := 80) rfl
  have hmem : ({ c with videoMem := fun a => if 3840 + 2 * 0 ≤ a ∧ a < 4000
        then (if a % 2 = 0 then (0x20 : UInt8) else 7)
        else if 0 ≤ a ∧ a < 3840 then c.videoMem (a + 160) else c.videoMem a } : Console)
      = c.scroll := by
    unfold Console.scroll
    congr 1
    funext a
    by_cases hmoved : a < 3840
    · rw [if_neg (by omega), if_pos (by omega), if_pos hmoved]
    · rw [if_neg hmoved]
      refine if_congr (by omega) rfl (if_neg (by omega))
  rw [← hmem]
  exact hfill

/-- **The steps to the next row.** -/
theorem reaches_newRow :
    (inPutc k b n i c .rowLoad).Reaches (inPutc k b n i c.newRow .locCol) := by
  refine .next rfl (.next rfl (.next rfl ?_))
  unfold Console.newRow
  dsimp only
  split
  · rename_i hlast
    refine .next (congrArg _ (congrArg some (if_pos hlast))) (reaches_scroll.trans ?_)
    exact .next rfl (.refl _)
  · rename_i hroom
    exact .next (congrArg _ (congrArg some (if_neg hroom))) (.refl _)

/-- The steps that put the cursor there. -/
theorem reaches_cursor :
    (inPutc k b n i c .locCol).Reaches
      ⟨{ k with console := c.setCursorLoc c.getScreenLoc }, afterPutc b n i⟩ :=
  .next rfl (.next rfl (.head rfl (.refl _)))

/-- **The steps of `putc` are `putc`.** -/
theorem reaches_putc (ch : UInt8) :
    (inPutc k b n i c (.start ch)).Reaches
      ⟨{ k with console := c.putc ch }, afterPutc b n i⟩ := by
  unfold Console.putc
  dsimp only
  by_cases hbreak : ch = 0x0A ∨ ch = 0x0D
  · rw [if_pos hbreak]
    exact .next (congrArg _ (congrArg some (if_pos hbreak))) (reaches_newRow.trans reaches_cursor)
  · rw [if_neg hbreak]
    refine .next (congrArg _ (congrArg some (if_neg hbreak))) ?_
    have hcell : (c.storeByte (2 * (80 * c.screenY + c.screenX) + 0) ch).storeByte
        (2 * (80 * c.screenY + c.screenX) + 1) 7 = c.putCell ch := by
      unfold Console.storeByte Console.putCell
      dsimp only
      congr 1
      funext a
      by_cases hattr : a = 2 * (80 * c.screenY + c.screenX) + 1
      · rw [hattr, Function.update_self, if_neg (by omega), if_pos rfl]
      · rw [Function.update_of_ne hattr, if_neg hattr]
        exact Function.update_apply _ _ _ _
    refine .next rfl (.next rfl (.next rfl (.next rfl (.next rfl (.next rfl ?_)))))
    show (inPutc k b n i ((c.storeByte (2 * (80 * c.screenY + c.screenX) + 0) ch).storeByte
        (2 * (80 * c.screenY + c.screenX) + 1) 7) .colLoad).Reaches _
    rw [hcell]
    refine .next rfl (.next rfl ?_)
    split
    · rename_i hfull
      exact .next (congrArg _ (congrArg some (if_pos hfull)))
        (reaches_newRow.trans reaches_cursor)
    · rename_i hroom
      exact .next (congrArg _ (congrArg some (if_neg hroom))) reaches_cursor

/-- **The loop of `term_write`.** -/
theorem reaches_loop {fuel : ℕ} (hfuel : n.toNat - i < fuel) :
    (WriteSession.mk { k with console := c } (.testing b n i)).Reaches
      ⟨{ k with console := (termWriteLoop b n fuel i c).2 },
        .returned (termWriteLoop b n fuel i c).1⟩ := by
  induction fuel generalizing i c with
  | zero => exact absurd hfuel (Nat.not_lt_zero _)
  | succ fuel ih =>
    rw [termWriteLoop]
    by_cases hnul : b i = 0
    · rw [if_pos hnul]
      refine .head ?_ (.refl _)
      exact congrArg (fun w => some (WriteSession.mk _ w)) (if_pos hnul)
    · rw [if_neg hnul]
      have hstart : step ⟨{ k with console := c }, .testing b n i⟩ .step
          = some (inPutc k b n i c (.start (b i))) :=
        congrArg (fun w => some (WriteSession.mk _ w)) (if_neg hnul)
      refine Reaches.head hstart ((reaches_putc (b i)).trans ?_)
      unfold afterPutc
      by_cases hmore : ((i + 1 : ℕ) : ℤ) < n
      · rw [if_pos hmore, if_pos hmore]
        exact ih (by omega)
      · rw [if_neg hmore, if_neg hmore]
        exact .refl _

end Alone

/-- **The steps of a call are `termWrite`**: undisturbed, they come back with
what it returns. -/
theorem run_termWrite (k : Kernel) (buf : Option Bytes) (nbytes : ℤ) :
    ∃ n, run step ⟨k, .idle⟩ (.call buf nbytes :: List.replicate n .step)
      = some ⟨(termWrite k buf nbytes).kernel, .returned (termWrite k buf nbytes).ret⟩ := by
  cases buf with
  | none => exact ⟨0, rfl⟩
  | some b =>
    by_cases hneg : nbytes < 0
    · refine ⟨0, ?_⟩
      simp [step, call, termWrite, hneg]
    · have hloop : Reaches ⟨{ k with console := k.console }, .testing b nbytes 0⟩ _ :=
        reaches_loop (show nbytes.toNat - 0 < nbytes.toNat + 1 by omega)
      obtain ⟨n, hrun⟩ := hloop
      refine ⟨n, ?_⟩
      have hcall : step ⟨k, .idle⟩ (.call (some b) nbytes) = some ⟨k, .testing b nbytes 0⟩ :=
        congrArg some (if_neg hneg)
      have hwrite : termWrite k (some b) nbytes
          = ⟨(termWriteLoop b nbytes (nbytes.toNat + 1) 0 k.console).1, some b,
            { k with console := (termWriteLoop b nbytes (nbytes.toNat + 1) 0 k.console).2 }⟩ :=
        if_neg hneg
      rw [run_cons, hcall, hwrite]
      exact hrun

end WriteSession

end KernelDesign
