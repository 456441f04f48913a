import KernelDesign.WriteSteps

/-!
# `term_write` and the keyboard

What a call of `term_write` and the keys that come between its steps do to each
other. The position is on the screen again after every call, but in the middle
of one it can be in column 80 or in row 25, and a key that then prints stores
behind the page of video memory (`write_confined`). The lines that are typed,
and what the call returns, are as if each had been alone (`write_beside_keys`).
-/

namespace KernelDesign

open Kernel Transition

/-! ## Where the position can be -/

namespace Console

/-- **The position is within** column `w` and row `h`. -/
structure Within (w h : ℕ) (c : Console) : Prop where
  col : c.screenX ≤ w
  row : c.screenY ≤ h

/-- **What an operation keeps** from a position within a bound: the bound, and
video memory behind the cell there. -/
structure KeptWithin (w h : ℕ) (c c' : Console) : Prop where
  within : c'.Within w h
  mem : ∀ j, 2 * (80 * h + w) + 2 ≤ j → c'.videoMem j = c.videoMem j

section Bounds

variable {w h : ℕ} {c c' c₁ : Console}

theorem KeptWithin.trans (h₁ : KeptWithin w h c c₁) (h₂ : KeptWithin w h c₁ c') :
    KeptWithin w h c c' :=
  ⟨h₂.within, fun j hj => (h₂.mem j hj).trans (h₁.mem j hj)⟩

theorem Within.kept (hc : c.Within w h) : KeptWithin w h c c := ⟨hc, fun _ _ => rfl⟩

/-- The cell at a position within the bound is before its end. -/
theorem Within.putCell_mem (hc : c.Within w h) (ch : UInt8) {j : ℕ}
    (hj : 2 * (80 * h + w) + 2 ≤ j) : (c.putCell ch).videoMem j = c.videoMem j := by
  have hcol := hc.col
  have hrow := hc.row
  unfold putCell
  dsimp only
  rw [if_neg (by omega), if_neg (by omega)]

variable (hw : 79 ≤ w) (hh : 24 ≤ h)

/-- The cells of the screen are before the end. -/
theorem clear_mem_of_le {j : ℕ} (hj : 4000 ≤ j) : c.clear.videoMem j = c.videoMem j :=
  if_neg (Nat.not_lt.mpr hj)

theorem scroll_mem_of_le {j : ℕ} (hj : 4000 ≤ j) : c.scroll.videoMem j = c.videoMem j := by
  unfold scroll
  dsimp only
  rw [if_neg (by omega), if_neg (Nat.not_lt.mpr hj)]

include hw hh

theorem newRow_kept : KeptWithin w h c c.newRow := by
  unfold newRow
  dsimp only
  split
  · exact ⟨⟨Nat.zero_le w, hh⟩, fun j hj => scroll_mem_of_le (by omega)⟩
  · rename_i hroom
    have hlt : c.screenY + 1 < 25 := Nat.not_le.mp hroom
    exact ⟨⟨Nat.zero_le w, show c.screenY + 1 ≤ h by omega⟩, fun _ _ => rfl⟩

theorem Within.putc (hc : c.Within w h) (ch : UInt8) : KeptWithin w h c (c.putc ch) := by
  have hsame : ∀ d : Console, KeptWithin w h c d →
      KeptWithin w h c (d.setCursorLoc d.getScreenLoc) := fun d hd =>
    ⟨⟨hd.within.col, hd.within.row⟩, hd.mem⟩
  unfold Console.putc
  refine hsame _ ?_
  split
  · exact newRow_kept hw hh
  · dsimp only
    split
    · have hnext := newRow_kept hw hh (c := { c.putCell ch with screenX := c.screenX + 1 })
      exact ⟨hnext.within, fun j hj => (hnext.mem j hj).trans (hc.putCell_mem ch hj)⟩
    · rename_i hroom
      have hlt : c.screenX + 1 < 80 := Nat.not_le.mp hroom
      exact ⟨⟨show c.screenX + 1 ≤ w by omega, hc.row⟩, fun j hj => hc.putCell_mem ch hj⟩

theorem Within.puts (hc : c.Within w h) (s : List UInt8) : KeptWithin w h c (c.puts s) := by
  induction s generalizing c with
  | nil => exact hc.kept
  | cons ch s ih =>
    have hch := hc.putc hw hh ch
    exact hch.trans (ih hch.within)

omit hh in
theorem Within.eraseChar (hc : c.Within w h) : KeptWithin w h c c.eraseChar := by
  have hback : ∀ d : Console, d.Within w h → d.videoMem = c.videoMem →
      KeptWithin w h c (d.putCell 0x20) := fun d hd hmem =>
    ⟨⟨hd.col, hd.row⟩, fun j hj => (hd.putCell_mem 0x20 hj).trans (congrFun hmem j)⟩
  have hcol := hc.col
  have hrow := hc.row
  unfold Console.eraseChar
  dsimp only
  split
  · split
    · exact hback _ ⟨hw, show c.screenY - 1 ≤ h by omega⟩ rfl
    · exact hback c hc rfl
  · exact hback _ ⟨show c.screenX - 1 ≤ w by omega, hrow⟩ rfl

theorem clearScreen_kept : KeptWithin w h c c.clearScreen := by
  have hhome : Within w h { c.clear with screenX := 0, screenY := 0 } :=
    ⟨Nat.zero_le w, Nat.zero_le h⟩
  have hprompt := hhome.puts hw hh (ascii "391OS> ")
  exact ⟨hprompt.within, fun j hj => (hprompt.mem j hj).trans (clear_mem_of_le (by omega))⟩

end Bounds

end Console

namespace Kernel

variable {k : Kernel} {w h : ℕ}

/-- **A key keeps the bounds** of the console that its decoder leaves. -/
theorem kbdIntrHandler_kept (hw : 79 ≤ w) (hh : 24 ≤ h) {sc : UInt8}
    (hk : (k.scancodeDecoder sc).2.console.Within w h) :
    Console.KeptWithin w h (k.scancodeDecoder sc).2.console (k.kbdIntrHandler sc).console := by
  unfold kbdIntrHandler
  generalize k.scancodeDecoder sc = r at hk ⊢
  obtain ⟨c, k⟩ := r
  have hcursor : ∀ {c' : Console} (loc : ℕ), Console.KeptWithin w h k.console c' →
      Console.KeptWithin w h k.console (c'.setCursorLoc loc) := fun _ hc' =>
    ⟨⟨hc'.within.col, hc'.within.row⟩, hc'.mem⟩
  dsimp only at hk ⊢
  split
  · split
    · exact hcursor 0 (Console.clearScreen_kept hw hh)
    · exact hk.kept
  · refine hcursor _ ?_
    split
    · unfold removeOp
      dsimp only
      split
      · exact hcursor _ (hk.eraseChar hw)
      · exact hk.kept
    · split
      · unfold insertOp
        split
        · exact hk.kept
        · split
          · exact hk.kept
          · split
            · exact hcursor _ (hk.putc hw hh _)
            · exact hcursor _ (hk.putc hw hh _)
      · split
        · exact hk.puts hw hh _
        · exact hk.kept

end Kernel

/-! ## What a call keeps -/

namespace PutcAt

/-- **The last column** that `screen_x` can be in, here. -/
def maxCol : PutcAt → ℕ
  | colTest | rowLoad | rowStore _ | rowHome => 80
  | _ => 79

/-- **The last row** that `screen_y` can be in. -/
def maxRow : PutcAt → ℕ
  | rowHome | rowTest | move _ | blank _ | rowLast => 25
  | _ => 24

/-- What is loaded was on the screen. -/
def Loaded : PutcAt → Prop
  | cellCol _ y | rowStore y => y ≤ 24
  | cellStore _ loc => loc < 2000
  | colStore x => x ≤ 79
  | _ => True

end PutcAt

namespace Writer

/-- The last column of a writer. -/
def maxCol : Writer → ℕ
  | printing _ _ _ p => p.maxCol
  | _ => 79

/-- Its last row. -/
def maxRow : Writer → ℕ
  | printing _ _ _ p => p.maxRow
  | _ => 24

/-- What it has loaded. -/
def Loaded : Writer → Prop
  | printing _ _ _ p => p.Loaded
  | _ => True

theorem maxCol_bounds (w : Writer) : 79 ≤ w.maxCol ∧ w.maxCol ≤ 80 := by
  unfold maxCol PutcAt.maxCol
  split
  · split
    · exact ⟨by decide, by decide⟩
    · exact ⟨by decide, by decide⟩
    · exact ⟨by decide, by decide⟩
    · exact ⟨by decide, by decide⟩
    · exact ⟨by decide, by decide⟩
  · exact ⟨by decide, by decide⟩

theorem maxRow_bounds (w : Writer) : 24 ≤ w.maxRow ∧ w.maxRow ≤ 25 := by
  unfold maxRow PutcAt.maxRow
  split
  · split
    · exact ⟨by decide, by decide⟩
    · exact ⟨by decide, by decide⟩
    · exact ⟨by decide, by decide⟩
    · exact ⟨by decide, by decide⟩
    · exact ⟨by decide, by decide⟩
    · exact ⟨by decide, by decide⟩
  · exact ⟨by decide, by decide⟩

/-- Between calls the bounds are those of the screen. -/
theorem bounds_of_not_busy {w : Writer} (h : ¬ w.Busy) : w.maxCol = 79 ∧ w.maxRow = 24 := by
  cases w with
  | idle | returned => exact ⟨rfl, rfl⟩
  | testing | printing => exact absurd trivial h

end Writer

/-- **A step of `putc` keeps its bounds**, and stores to the cells of the
screen. -/
theorem Console.Within.putcStep {c : Console} {p : PutcAt} (hc : c.Within p.maxCol p.maxRow)
    (hp : p.Loaded) :
    (∀ j, 4000 ≤ j → (c.putcStep p).1.videoMem j = c.videoMem j)
      ∧ match (c.putcStep p).2 with
        | some p' => (c.putcStep p).1.Within p'.maxCol p'.maxRow ∧ p'.Loaded
        | none => (c.putcStep p).1.Within 79 24 := by
  have hcol := hc.col
  have hrow := hc.row
  cases p with
  | start ch =>
    refine ⟨fun _ _ => rfl, ?_⟩
    unfold Console.putcStep
    dsimp only
    split
    · exact ⟨⟨Nat.le_succ_of_le hcol, hrow⟩, trivial⟩
    · exact ⟨hc, trivial⟩
  | cellRow b => exact ⟨fun _ _ => rfl, hc, hrow⟩
  | cellCol b y =>
    refine ⟨fun _ _ => rfl, hc, ?_⟩
    have hy : y ≤ 24 := hp
    have hx : c.screenX ≤ 79 := hcol
    show 80 * y + c.screenX < 2000
    omega
  | cellStore b loc =>
    have hloc : loc < 2000 := hp
    have hoffset : b.offset ≤ 1 := by
      cases b with
      | char ch => exact Nat.zero_le 1
      | attrib => exact Nat.le_refl 1
    refine ⟨fun j hj => Function.update_of_ne (by omega) _ _, ?_⟩
    cases b with
    | char ch => exact ⟨⟨hcol, hrow⟩, trivial⟩
    | attrib => exact ⟨⟨hcol, hrow⟩, trivial⟩
  | colLoad => exact ⟨fun _ _ => rfl, hc, hcol⟩
  | colStore x =>
    have hx : x ≤ 79 := hp
    exact ⟨fun _ _ => rfl, ⟨Nat.succ_le_succ hx, hrow⟩, trivial⟩
  | colTest =>
    refine ⟨fun _ _ => rfl, ?_⟩
    unfold Console.putcStep
    dsimp only
    split
    · exact ⟨hc, trivial⟩
    · rename_i hroom
      exact ⟨⟨Nat.le_of_lt_succ (Nat.not_le.mp hroom), hrow⟩, trivial⟩
  | rowLoad => exact ⟨fun _ _ => rfl, hc, hrow⟩
  | rowStore y =>
    have hy : y ≤ 24 := hp
    exact ⟨fun _ _ => rfl, ⟨hcol, Nat.succ_le_succ hy⟩, trivial⟩
  | rowHome => exact ⟨fun _ _ => rfl, ⟨Nat.zero_le _, hrow⟩, trivial⟩
  | rowTest =>
    refine ⟨fun _ _ => rfl, ?_⟩
    unfold Console.putcStep
    dsimp only
    split
    · exact ⟨hc, trivial⟩
    · rename_i hroom
      exact ⟨⟨hcol, Nat.le_of_lt_succ (Nat.not_le.mp hroom)⟩, trivial⟩
  | move i =>
    unfold Console.putcStep
    dsimp only
    split
    · exact ⟨fun j hj => Function.update_of_ne (by omega) _ _, ⟨hcol, hrow⟩, trivial⟩
    · exact ⟨fun _ _ => rfl, hc, trivial⟩
  | blank i =>
    unfold Console.putcStep
    dsimp only
    split
    · refine ⟨fun j hj => ?_, ⟨hcol, hrow⟩, trivial⟩
      exact (Function.update_of_ne (by omega) _ _).trans (Function.update_of_ne (by omega) _ _)
    · exact ⟨fun _ _ => rfl, hc, trivial⟩
  | rowLast => exact ⟨fun _ _ => rfl, ⟨hcol, Nat.le_refl 24⟩, trivial⟩
  | locCol => exact ⟨fun _ _ => rfl, hc, trivial⟩
  | locRow x => exact ⟨fun _ _ => rfl, hc, trivial⟩
  | cursor loc => exact ⟨fun _ _ => rfl, hcol, hrow⟩

/-- A character leaves the saved position of its terminal. -/
theorem charEffect_cursor (t : Term) (c : UInt8) :
    (charEffect t c).cursorX = t.cursorX ∧ (charEffect t c).cursorY = t.cursorY := by
  unfold charEffect
  split
  · split
    · exact ⟨rfl, rfl⟩
    · exact ⟨rfl, rfl⟩
  · split
    · exact ⟨rfl, rfl⟩
    · split
      · exact ⟨rfl, rfl⟩
      · split
        · exact ⟨rfl, rfl⟩
        · exact ⟨rfl, rfl⟩

namespace WriteSession

/-- **What a session keeps**: every position that is saved is on the screen, and
the live one is within the bounds of the writer. -/
structure Inv (s : WriteSession) : Prop where
  saved : ∀ t, (s.kernel.termArr t).cursorX ≤ 79 ∧ (s.kernel.termArr t).cursorY ≤ 24
  live : s.kernel.console.Within s.writer.maxCol s.writer.maxRow
  loaded : s.writer.Loaded

/-- **No key switches the terminal** in the middle of a call. -/
def Calm (s : WriteSession) (_ : WriteEvent) (s' : WriteSession) : Prop :=
  s.writer.Busy → s'.kernel.termFlag = s.kernel.termFlag

/-- **A key comes while the row is on the screen.** -/
def OnRow (s : WriteSession) (e : WriteEvent) (_ : WriteSession) : Prop :=
  match e with
  | .key _ => s.kernel.console.screenY < 25
  | _ => True

/-- **What a step stores to**: the 4162 bytes up to the cell at column 80 and
row 25, and the page alone if a key comes while the row is on the screen. -/
structure Stores (s : WriteSession) (e : WriteEvent) (s' : WriteSession) : Prop where
  cells : ∀ j, 4162 ≤ j → s'.kernel.console.videoMem j = s.kernel.console.videoMem j
  page : s.OnRow e s' → ∀ j, 4096 ≤ j →
    s'.kernel.console.videoMem j = s.kernel.console.videoMem j

variable {s s' : WriteSession} {e : WriteEvent}

/-- A step that stores to the cells of the screen. -/
theorem Stores.of_cells
    (h : ∀ j, 4000 ≤ j → s'.kernel.console.videoMem j = s.kernel.console.videoMem j) :
    s.Stores e s' :=
  ⟨fun j hj => h j (by omega), fun _ j hj => h j (by omega)⟩

/-- The saved positions are the decoder's business. -/
theorem kbdIntrHandler_cursor (k : Kernel) (sc : UInt8) (u : Fin 3) :
    ((k.kbdIntrHandler sc).termArr u).cursorX = ((k.scancodeDecoder sc).2.termArr u).cursorX
      ∧ ((k.kbdIntrHandler sc).termArr u).cursorY
        = ((k.scancodeDecoder sc).2.termArr u).cursorY := by
  rw [kbdIntrHandler_termArr]
  split
  · exact ⟨rfl, rfl⟩
  · split
    · exact charEffect_cursor _ _
    · exact ⟨rfl, rfl⟩

/-- **A key that switches the terminal** between two calls shows a position that
was saved on the screen, and copies into the page. -/
theorem Inv.switch_key {k : Kernel} {w : Writer} (h : Inv ⟨k, w⟩) (hidle : ¬ w.Busy) {sc : UInt8}
    {t : Fin 3} (ht : t ≠ k.termFlag) (hdecode : (k.scancodeDecoder sc).2 = k.switchTo t) :
    Inv ⟨k.kbdIntrHandler sc, w⟩ ∧ Stores ⟨k, w⟩ (.key sc) ⟨k.kbdIntrHandler sc, w⟩ := by
  have hswitched := k.switched_switchTo ht
  obtain ⟨hmaxCol, hmaxRow⟩ := Writer.bounds_of_not_busy hidle
  have hlive : k.console.Within 79 24 := by
    have hwithin : k.console.Within w.maxCol w.maxRow := h.live
    rwa [hmaxCol, hmaxRow] at hwithin
  have hshown : (k.scancodeDecoder sc).2.console.Within 79 24 := by
    rw [hdecode]
    exact ⟨hswitched.screenX ▸ (h.saved t).1, hswitched.screenY ▸ (h.saved t).2⟩
  have hkept := kbdIntrHandler_kept (Nat.le_refl 79) (Nat.le_refl 24) hshown
  have hclear := Console.clearScreen_kept (c := k.console) (Nat.le_refl 79) (Nat.le_refl 24)
  have hpage : ∀ j, 4096 ≤ j →
      (k.kbdIntrHandler sc).console.videoMem j = k.console.videoMem j := fun j hj => by
    rw [hkept.mem j (by omega), hdecode, hswitched.videoMem j, if_neg (by omega)]
    exact hclear.mem j (by omega)
  refine ⟨⟨fun u => ?_, ?_, h.loaded⟩, fun j hj => hpage j (by omega), fun _ => hpage⟩
  · obtain ⟨hcursorX, hcursorY⟩ := kbdIntrHandler_cursor k sc u
    show _ ≤ 79 ∧ _ ≤ 24
    rw [hcursorX, hcursorY, hdecode]
    by_cases hleft : u = k.termFlag
    · rw [hleft, hswitched.left]
      exact ⟨hlive.col, hlive.row⟩
    · by_cases hentered : u = t
      · rw [hentered, hswitched.entered]
        exact h.saved t
      · rw [hswitched.others u hleft hentered]
        exact h.saved u
  · show (k.kbdIntrHandler sc).console.Within w.maxCol w.maxRow
    rw [hmaxCol, hmaxRow]
    exact hkept.within

/-- **A key that does not** prints within the bounds of the writer. -/
theorem Inv.plain_key {k : Kernel} {w : Writer} (h : Inv ⟨k, w⟩) {sc : UInt8}
    (hdecode : (k.scancodeDecoder sc).2 = k.modifiers sc) :
    Inv ⟨k.kbdIntrHandler sc, w⟩ ∧ Stores ⟨k, w⟩ (.key sc) ⟨k.kbdIntrHandler sc, w⟩ := by
  have hcol := w.maxCol_bounds
  have hrow := w.maxRow_bounds
  have hx : k.console.screenX ≤ w.maxCol := h.live.col
  have hconsole : (k.scancodeDecoder sc).2.console = k.console := by
    rw [hdecode]
    rfl
  have hkeep : ∀ m n, 79 ≤ m → 24 ≤ n → k.console.Within m n →
      Console.KeptWithin m n k.console (k.kbdIntrHandler sc).console := fun m n hm hn hc => by
    have hdecoded : (k.scancodeDecoder sc).2.console.Within m n := by rwa [hconsole]
    have hkept := kbdIntrHandler_kept hm hn hdecoded
    rwa [hconsole] at hkept
  have hkept := hkeep _ _ hcol.1 hrow.1 h.live
  refine ⟨⟨fun u => ?_, hkept.within, h.loaded⟩, fun j hj => ?_, fun honRow j hj => ?_⟩
  · obtain ⟨hcursorX, hcursorY⟩ := kbdIntrHandler_cursor k sc u
    show _ ≤ 79 ∧ _ ≤ 24
    rw [hcursorX, hcursorY, hdecode]
    exact h.saved u
  · exact hkept.mem j (by omega)
  · have hy : k.console.screenY < 25 := honRow
    exact (hkeep 80 24 (by decide) (Nat.le_refl 24) ⟨by omega, by omega⟩).mem j (by omega)

/-- **A key keeps the invariant.** -/
theorem Inv.key {k : Kernel} {w : Writer} (h : Inv ⟨k, w⟩) (sc : UInt8)
    (hcalm : Calm ⟨k, w⟩ (.key sc) ⟨k.kbdIntrHandler sc, w⟩) :
    Inv ⟨k.kbdIntrHandler sc, w⟩ ∧ Stores ⟨k, w⟩ (.key sc) ⟨k.kbdIntrHandler sc, w⟩ := by
  obtain ⟨t, ht, hdecode⟩ | ⟨-, hdecode⟩ := k.scancodeDecoder_cases sc
  · refine h.switch_key (fun hbusy => ?_) ht.ne hdecode
    have hflag : (k.kbdIntrHandler sc).termFlag = k.termFlag := hcalm hbusy
    obtain ⟨c, arr, heq⟩ := k.kbdIntrHandler_eq sc
    rw [heq, hdecode] at hflag
    exact ht.ne hflag
  · exact h.plain_key hdecode

/-- **A step keeps the invariant**, if no key switches in the middle of a
call. -/
theorem Inv.step (h : s.Inv) (hstep : s.step e = some s') (hcalm : s.Calm e s') :
    s'.Inv ∧ s.Stores e s' := by
  cases step_cases hstep with
  | key sc => exact h.key sc hcalm
  | @call k w buf nbytes hidle =>
    obtain ⟨hmaxCol, hmaxRow⟩ := Writer.bounds_of_not_busy hidle
    have hlive : k.console.Within 79 24 := by
      have hwithin : k.console.Within w.maxCol w.maxRow := h.live
      rwa [hmaxCol, hmaxRow] at hwithin
    unfold call
    split
    · exact ⟨⟨h.saved, hlive, trivial⟩, .of_cells (fun _ _ => rfl)⟩
    · split
      · exact ⟨⟨h.saved, hlive, trivial⟩, .of_cells (fun _ _ => rfl)⟩
      · exact ⟨⟨h.saved, hlive, trivial⟩, .of_cells (fun _ _ => rfl)⟩
  | nul hbyte => exact ⟨⟨h.saved, h.live, trivial⟩, .of_cells (fun _ _ => rfl)⟩
  | print hbyte => exact ⟨⟨h.saved, h.live, trivial⟩, .of_cells (fun _ _ => rfl)⟩
  | next hputc =>
    have hstep := Console.Within.putcStep h.live h.loaded
    rw [hputc] at hstep
    obtain ⟨hmem, hlive, hloaded⟩ := hstep
    exact ⟨⟨h.saved, hlive, hloaded⟩, .of_cells hmem⟩
  | @done k b n i p c hputc =>
    have hstep := Console.Within.putcStep h.live h.loaded
    rw [hputc] at hstep
    obtain ⟨hmem, hlive⟩ := hstep
    refine ⟨?_, .of_cells hmem⟩
    unfold afterPutc
    split
    · exact ⟨h.saved, hlive, trivial⟩
    · exact ⟨h.saved, hlive, trivial⟩

/-- **A run keeps it.** -/
theorem Inv.along {es : List WriteEvent} (h : s.Inv) (hcalm : Along WriteSession.step Calm s es)
    (hrun : run WriteSession.step s es = some s') :
    s'.Inv
      ∧ (∀ j, 4162 ≤ j → s'.kernel.console.videoMem j = s.kernel.console.videoMem j)
      ∧ (Along WriteSession.step OnRow s es → ∀ j, 4096 ≤ j →
        s'.kernel.console.videoMem j = s.kernel.console.videoMem j) := by
  induction es generalizing s with
  | nil =>
    rw [run_nil, Option.some.injEq] at hrun
    subst hrun
    exact ⟨h, fun _ _ => rfl, fun _ _ _ => rfl⟩
  | cons e es ih =>
    rw [run_cons, Option.bind_eq_some_iff] at hrun
    obtain ⟨s₁, hstep, hrest⟩ := hrun
    obtain ⟨hcalm₁, hcalms⟩ := hcalm s₁ hstep
    obtain ⟨hinv₁, hstores⟩ := h.step hstep hcalm₁
    obtain ⟨hinv, hcells, hpage⟩ := ih hinv₁ hcalms hrest
    refine ⟨hinv, fun j hj => (hcells j hj).trans (hstores.cells j hj), fun honRow j hj => ?_⟩
    obtain ⟨honRow₁, honRows⟩ := honRow s₁ hstep
    exact (hpage honRows j hj).trans (hstores.page honRow₁ j hj)

/-- The session after `kbd_init`, without a call. -/
def start (k : Kernel) : WriteSession := ⟨k.kbdInit, .idle⟩

/-- **Where a call and the keys leave the screen**: along every run of calls and
keys in which no key switches the terminal during a call, the position is on the
screen whenever no call is in progress, and nothing is stored behind the cell at
column 80 and row 25. That is behind the page of video memory, which is left
only by a key that comes while `screen_y` is 25. -/
theorem write_confined {k : Kernel} (hx : k.console.screenX < 80) (hy : k.console.screenY < 25)
    {es : List WriteEvent} (hcalm : Along step Calm (start k) es)
    (hrun : run step (start k) es = some s) :
    (¬ s.writer.Busy → s.kernel.console.screenX < 80 ∧ s.kernel.console.screenY < 25)
      ∧ (∀ j, 4162 ≤ j → s.kernel.console.videoMem j = k.console.videoMem j)
      ∧ (Along step OnRow (start k) es → ∀ j, 4096 ≤ j →
        s.kernel.console.videoMem j = k.console.videoMem j) := by
  have hstart : (start k).Inv :=
    ⟨fun _ => ⟨Nat.zero_le 79, Nat.zero_le 24⟩,
      ⟨Nat.le_of_lt_succ hx, Nat.le_of_lt_succ hy⟩, trivial⟩
  obtain ⟨hinv, hcells, hpage⟩ := hstart.along hcalm hrun
  refine ⟨fun hidle => ?_, hcells, hpage⟩
  obtain ⟨hmaxCol, hmaxRow⟩ := Writer.bounds_of_not_busy hidle
  have hcol := hinv.live.col
  have hrow := hinv.live.row
  rw [hmaxCol] at hcol
  rw [hmaxRow] at hrow
  exact ⟨Nat.lt_succ_of_le hcol, Nat.lt_succ_of_le hrow⟩

instance (s : WriteSession) (e : WriteEvent) (s' : WriteSession) : Decidable (s.Calm e s') :=
  inferInstanceAs (Decidable (_ → _))

instance (s : WriteSession) (e : WriteEvent) (s' : WriteSession) : Decidable (s.OnRow e s') :=
  match e with
  | .key _ => inferInstanceAs (Decidable (_ < _))
  | .call _ _ | .step => isTrue trivial

/-- A kernel with the position at the last cell of the screen. -/
def lastCellKernel : Kernel := { loadedKernel with console := ⟨79, 24, fun _ => 0, 0⟩ }

/-- The letter x is printed there, and the key of a comes after `screen_y++`. -/
def keyInRow : List WriteEvent :=
  .call (some (cstring "x")) 1 :: List.replicate 13 .step
    ++ .key 0x1E :: List.replicate 5 .step

/-- **The key is stored behind the page**, in bytes 4160 and 4161. Where these are
memory, as before `paging_setup`, the call comes back with the position on the
screen; the tables of the booted kernel map nothing there, and the store faults in
the keyboard handler. -/
theorem write_confined_key :
    ∃ s, run step (start lastCellKernel) keyInRow = some s
      ∧ s.kernel.console.videoMem 4160 = 0x61
      ∧ s.kernel.console.screenX < 80
      ∧ ∀ j, 4162 ≤ j → s.kernel.console.videoMem j = 0 := by
  have hend : (run step (start lastCellKernel) keyInRow).map
      (fun s => (s.kernel.console.videoMem 4160, decide s.writer.Busy)) = some (0x61, false) := by
    decide +kernel
  obtain ⟨s, hrun, hs⟩ := Option.map_eq_some_iff.mp hend
  obtain ⟨hbyte, hidle⟩ := Prod.mk.inj hs
  obtain ⟨hscreen, hcells, -⟩ := write_confined (k := lastCellKernel) (by decide) (by decide)
    (by decide +kernel) hrun
  exact ⟨s, hrun, hbyte, (hscreen (of_decide_eq_false hidle)).1, hcells⟩

end WriteSession

/-! ## The call beside the keys -/

namespace Kernel

theorem SameLine.symm {t t' : Term} (h : SameLine t t') : SameLine t' t :=
  ⟨h.count.symm, h.lineBuf.symm, h.outBuf.symm, h.ready.symm⟩

theorem SameLine.trans {t₁ t₂ t₃ : Term} (h : SameLine t₁ t₂) (h' : SameLine t₂ t₃) :
    SameLine t₁ t₃ :=
  ⟨h'.count.trans h.count, h'.lineBuf.trans h.lineBuf, h'.outBuf.trans h.outBuf,
    h'.ready.trans h.ready⟩

/-- **The effect of a character on the line** depends on the line alone. -/
theorem SameLine.charEffect {t t' : Term} (h : SameLine t t') (c : UInt8) :
    SameLine (charEffect t c) (charEffect t' c) := by
  obtain ⟨hcount, hline, hout, hready⟩ := h
  unfold KernelDesign.charEffect
  rw [hcount]
  split
  · split
    · refine ⟨rfl, ?_, hout, rfl⟩
      simp only [setLineByte, hline]
    · exact ⟨rfl, hline, hout, rfl⟩
  · split
    · refine ⟨hcount, ?_, hout, hready⟩
      simp only [setLineByte, hline]
    · split
      · exact ⟨hcount, hline, hout, hready⟩
      · split
        · refine ⟨rfl, ?_, ?_, rfl⟩
          · simp only [commitLine, setLineByte, hcount, hline]
          · simp only [commitLine, setLineByte, hcount, hline, hout]
        · refine ⟨rfl, ?_, hout, rfl⟩
          simp only [setLineByte, hline]

/-- **Two kernels are the same to the keyboard**, whatever is on their screens:
the terminal on display, the flags, and the lines of the three terminals. -/
structure SameKeys (k k' : Kernel) : Prop where
  termFlag : k'.termFlag = k.termFlag
  shiftFlag : k'.shiftFlag = k.shiftFlag
  capsFlag : k'.capsFlag = k.capsFlag
  ctrlFlag : k'.ctrlFlag = k.ctrlFlag
  altFlag : k'.altFlag = k.altFlag
  lines : ∀ t, SameLine (k.termArr t) (k'.termArr t)

theorem SameKeys.refl (k : Kernel) : SameKeys k k :=
  ⟨rfl, rfl, rfl, rfl, rfl, fun _ => ⟨rfl, rfl, rfl, rfl⟩⟩

/-- The screen is not part of it. -/
theorem SameKeys.console {k k' : Kernel} (h : SameKeys k k') (c : Console) :
    SameKeys k { k' with console := c } :=
  ⟨h.termFlag, h.shiftFlag, h.capsFlag, h.ctrlFlag, h.altFlag, h.lines⟩

/-- **The decoder** reads the same character, for the same terminal. -/
theorem SameKeys.scancodeDecoder {k k' : Kernel} (h : SameKeys k k') (sc : UInt8) :
    SameKeys (k.scancodeDecoder sc).2 (k'.scancodeDecoder sc).2 := by
  have hlines : ∀ t, SameLine ((k.scancodeDecoder sc).2.termArr t)
      ((k'.scancodeDecoder sc).2.termArr t) := fun t =>
    ((k.scancodeDecoder_sameLine sc t).symm.trans (h.lines t)).trans
      (k'.scancodeDecoder_sameLine sc t)
  have hswitches : ∀ t, k.SwitchesTo sc t ↔ k'.SwitchesTo sc t := fun t =>
    ⟨fun ht => ⟨h.termFlag.symm ▸ ht.ne, h.altFlag.trans ht.alt, ht.code⟩,
      fun ht => ⟨h.termFlag ▸ ht.ne, h.altFlag.symm.trans ht.alt, ht.code⟩⟩
  obtain ⟨t, ht, hdecode⟩ | ⟨hno, hdecode⟩ := k.scancodeDecoder_cases sc
  · obtain ⟨t', ht', hdecode'⟩ | ⟨hno', -⟩ := k'.scancodeDecoder_cases sc
    · have hinj : ∀ t t' : Fin 3, switchCode t' = switchCode t → t' = t := by decide
      obtain rfl : t' = t := hinj t t' (ht'.code.symm.trans ht.code)
      rw [hdecode, hdecode'] at hlines ⊢
      exact ⟨rfl, h.shiftFlag, h.capsFlag, h.ctrlFlag, h.altFlag, hlines⟩
    · exact absurd ((hswitches t).mp ht) (hno' t)
  · obtain ⟨t', ht', -⟩ | ⟨-, hdecode'⟩ := k'.scancodeDecoder_cases sc
    · exact absurd ((hswitches t').mpr ht') (hno t')
    · rw [hdecode, hdecode'] at hlines ⊢
      unfold modifiers at hlines ⊢
      refine ⟨h.termFlag, ?_, ?_, ?_, ?_, hlines⟩
      · simp only [h.shiftFlag]
      · simp only [h.capsFlag]
      · simp only [h.ctrlFlag]
      · simp only [h.altFlag]

/-- The same characters reach the same terminals. -/
theorem SameKeys.reached {k k' : Kernel} (h : SameKeys k k') (sc : UInt8) :
    k'.reached sc = k.reached sc := by
  have hdecoded := h.scancodeDecoder sc
  have hchar : (k'.scancodeDecoder sc).1 = (k.scancodeDecoder sc).1 := by
    show (k'.scancodeDecoder sc).2.decodeChar sc = (k.scancodeDecoder sc).2.decodeChar sc
    unfold decodeChar
    rw [hdecoded.shiftFlag, hdecoded.capsFlag]
  unfold Kernel.reached
  dsimp only
  rw [hchar, hdecoded.ctrlFlag, hdecoded.termFlag]

/-- **A key does the same** to both. -/
theorem SameKeys.kbdIntrHandler {k k' : Kernel} (h : SameKeys k k') (sc : UInt8) :
    SameKeys (k.kbdIntrHandler sc) (k'.kbdIntrHandler sc) := by
  have hdecoded := h.scancodeDecoder sc
  have hlines : ∀ t, SameLine ((k.kbdIntrHandler sc).termArr t)
      ((k'.kbdIntrHandler sc).termArr t) := by
    intro u
    rw [kbdIntrHandler_termArr, kbdIntrHandler_termArr, h.reached sc]
    split
    · exact hdecoded.lines u
    · split
      · exact (hdecoded.lines u).charEffect _
      · exact hdecoded.lines u
  obtain ⟨c, arr, heq⟩ := k.kbdIntrHandler_eq sc
  obtain ⟨c', arr', heq'⟩ := k'.kbdIntrHandler_eq sc
  rw [heq, heq'] at hlines ⊢
  exact ⟨hdecoded.termFlag, hdecoded.shiftFlag, hdecoded.capsFlag, hdecoded.ctrlFlag,
    hdecoded.altFlag, hlines⟩

end Kernel

/-- **How many steps are left** of a call of `putc`, at most. -/
def PutcAt.left : PutcAt → ℕ
  | start _ => 3940
  | cellRow (.char _) => 3939
  | cellCol (.char _) _ => 3938
  | cellStore (.char _) _ => 3937
  | cellRow .attrib => 3936
  | cellCol .attrib _ => 3935
  | cellStore .attrib _ => 3934
  | colLoad => 3933
  | colStore _ => 3932
  | colTest => 3931
  | rowLoad => 3930
  | rowStore _ => 3929
  | rowHome => 3928
  | rowTest => 3927
  | move i => 3840 - i + 86
  | blank j => 80 - j + 5
  | rowLast => 4
  | locCol => 3
  | locRow _ => 2
  | cursor _ => 1

/-- Before it has returned there is one. -/
theorem PutcAt.left_pos (p : PutcAt) : 0 < p.left := by
  cases p with
  | cellRow b | cellCol b y | cellStore b loc =>
    cases b with
    | char | attrib => exact Nat.succ_pos _
  | start | colLoad | colStore | colTest | rowLoad | rowStore | rowHome | rowTest | move | blank
  | rowLast | locCol | locRow | cursor => exact Nat.succ_pos _

/-- **Every step brings the end nearer**, whatever the console is. -/
theorem Console.putcStep_left {c : Console} {p p' : PutcAt} (h : (c.putcStep p).2 = some p') :
    p'.left < p.left := by
  cases p with
  | start ch =>
    cases h
    split
    · simp only [PutcAt.left, Nat.reduceLT]
    · simp only [PutcAt.left, Nat.reduceLT]
  | cellRow b | cellCol b y | cellStore b loc =>
    cases b with
    | char | attrib =>
      cases h
      simp only [PutcAt.left, Nat.reduceLT]
  | colTest | rowTest =>
    cases h
    split
    · simp [PutcAt.left]
    · simp [PutcAt.left]
  | move i =>
    unfold Console.putcStep at h
    dsimp only at h
    split at h
    · cases h
      show 3840 - (i + 1) + 86 < 3840 - i + 86
      omega
    · cases h
      show 80 - 0 + 5 < 3840 - i + 86
      omega
  | blank j =>
    unfold Console.putcStep at h
    dsimp only at h
    split at h
    · cases h
      show 80 - (j + 1) + 5 < 80 - j + 5
      omega
    · cases h
      show 4 < 80 - j + 5
      omega
  | colLoad | colStore | rowLoad | rowStore | rowHome | rowLast | locCol | locRow =>
    cases h
    simp only [PutcAt.left, Nat.reduceLT]
  | cursor loc => cases h

namespace Writer

/-- How many steps are left of a call of `term_write`, at most: a test and a
call of `putc` for each byte. -/
def left : Writer → ℕ
  | idle | returned _ => 0
  | testing _ n i => 3941 * (n.toNat - 1 - i) + 3941
  | printing _ n i p => 3941 * (n.toNat - 1 - i) + p.left

/-- **The call comes back with `ret`**, if it is left to. -/
def Ends (ret : ℤ) : Writer → Prop
  | idle => False
  | testing b n i => ∃ fuel, n.toNat - i < fuel ∧ ((writeLoop b n fuel i).index : ℤ) = ret
  | printing b n i _ =>
    b i ≠ 0 ∧ ∃ fuel, n.toNat - i < fuel ∧ ((writeLoop b n fuel i).index : ℤ) = ret
  | returned r => r = ret

end Writer

namespace WriteSession

/-- The scancodes among some events. -/
def keysOf : List WriteEvent → List UInt8
  | [] => []
  | .key sc :: es => sc :: keysOf es
  | .call _ _ :: es | .step :: es => keysOf es

/-- The number of the steps among them. -/
def stepsOf : List WriteEvent → ℕ
  | [] => 0
  | .step :: es => stepsOf es + 1
  | .call _ _ :: es | .key _ :: es => stepsOf es

/-- After a byte the loop is at the next one, or at its end. -/
theorem ends_afterPutc {b : Bytes} {n : ℤ} {i : ℕ} {ret : ℤ} (hbyte : b i ≠ 0) {fuel : ℕ}
    (hfuel : n.toNat - i < fuel) (hret : ((writeLoop b n fuel i).index : ℤ) = ret) :
    (afterPutc b n i).Ends ret := by
  cases fuel with
  | zero => exact absurd hfuel (Nat.not_lt_zero _)
  | succ fuel =>
    rw [writeLoop, if_neg hbyte] at hret
    unfold afterPutc
    by_cases hmore : ((i + 1 : ℕ) : ℤ) < n
    · rw [if_pos hmore] at hret ⊢
      exact ⟨fuel, by omega, hret⟩
    · rw [if_neg hmore] at hret ⊢
      exact hret

theorem left_afterPutc (b : Bytes) (n : ℤ) (i : ℕ) :
    (afterPutc b n i).left ≤ 3941 * (n.toNat - 1 - i) := by
  unfold afterPutc
  split
  · rename_i hmore
    show 3941 * (n.toNat - 1 - (i + 1)) + 3941 ≤ _
    omega
  · exact Nat.zero_le _

/-- **A step of a call brings its end nearer** and leaves its result. -/
theorem step_beside {s s' : WriteSession} {k : Kernel} {ret : ℤ} (hends : s.writer.Ends ret)
    (hsame : SameKeys k s.kernel) (hstep : s.step .step = some s') :
    s'.writer.Ends ret ∧ SameKeys k s'.kernel ∧ s'.writer.left < s.writer.left := by
  cases step_cases hstep with
  | @nul k b n i hbyte =>
    obtain ⟨fuel, hfuel, hret⟩ := hends
    refine ⟨?_, hsame, Nat.succ_pos _⟩
    cases fuel with
    | zero => exact absurd hfuel (Nat.not_lt_zero _)
    | succ fuel =>
      rw [writeLoop, if_pos hbyte] at hret
      exact hret
  | @print k b n i hbyte =>
    exact ⟨⟨hbyte, hends⟩, hsame, Nat.add_lt_add_left (show 3940 < 3941 by decide) _⟩
  | next hputc =>
    have hleft := Console.putcStep_left (congrArg Prod.snd hputc)
    exact ⟨hends, hsame.console _, Nat.add_lt_add_left hleft _⟩
  | @done k b n i p c hputc =>
    obtain ⟨hbyte, fuel, hfuel, hret⟩ := hends
    refine ⟨ends_afterPutc hbyte hfuel hret, hsame.console _, ?_⟩
    have hleft := p.left_pos
    have hafter := left_afterPutc b n i
    show (afterPutc b n i).left < 3941 * (n.toNat - 1 - i) + p.left
    omega

/-- **A run without another call.** -/
theorem run_beside {s s' : WriteSession} {k : Kernel} {ret : ℤ} {es : List WriteEvent}
    (hends : s.writer.Ends ret) (hsame : SameKeys k s.kernel)
    (hcalls : ∀ buf n, .call buf n ∉ es) (hrun : run step s es = some s') :
    s'.writer.Ends ret ∧ SameKeys ((keysOf es).foldl kbdIntrHandler k) s'.kernel
      ∧ stepsOf es + s'.writer.left ≤ s.writer.left := by
  induction es generalizing s k with
  | nil =>
    rw [run_nil, Option.some.injEq] at hrun
    subst hrun
    exact ⟨hends, hsame, Nat.le_of_eq (Nat.zero_add _)⟩
  | cons e es ih =>
    rw [run_cons, Option.bind_eq_some_iff] at hrun
    obtain ⟨s₁, hstep, hrest⟩ := hrun
    have hrests : ∀ buf n, .call buf n ∉ es := fun buf n hmem =>
      hcalls buf n (List.mem_cons_of_mem e hmem)
    cases e with
    | key sc =>
      cases hstep
      exact ih (s := ⟨s.kernel.kbdIntrHandler sc, s.writer⟩) hends (hsame.kbdIntrHandler sc)
        hrests hrest
    | call buf n => exact absurd List.mem_cons_self (hcalls buf n)
    | step =>
      obtain ⟨hends₁, hsame₁, hleft₁⟩ := step_beside hends hsame hstep
      obtain ⟨hends', hsame', hleft⟩ := ih hends₁ hsame₁ hrests hrest
      refine ⟨hends', hsame', ?_⟩
      show stepsOf es + 1 + s'.writer.left ≤ s.writer.left
      omega

/-- **A call that has begun** ends with what `term_write` returns. -/
theorem ends_call (s : WriteSession) (buf : Option Bytes) (nbytes : ℤ) :
    (s.call buf nbytes).writer.Ends (termWrite s.kernel buf nbytes).ret
      ∧ SameKeys s.kernel (s.call buf nbytes).kernel
      ∧ (s.call buf nbytes).writer.left ≤ 3941 * max nbytes.toNat 1 := by
  have hsame := SameKeys.refl s.kernel
  unfold call termWrite
  cases buf with
  | none => exact ⟨rfl, hsame, Nat.zero_le _⟩
  | some b =>
    dsimp only
    split
    · exact ⟨rfl, hsame, Nat.zero_le _⟩
    · refine ⟨⟨nbytes.toNat + 1, by omega, ?_⟩, hsame, ?_⟩
      · rw [termWriteLoop_eq]
      · show 3941 * (nbytes.toNat - 1 - 0) + 3941 ≤ 3941 * max nbytes.toNat 1
        omega

/-- **A call and the keys do not disturb each other**: whatever keys come during
a call of `term_write`, as long as no key of the run switches the terminal in the
middle of a call and each comes while `screen_y` is on the screen, no store leaves
the page of video memory, which nothing is mapped behind; the call makes at most
3941 steps for each byte, can always make the next one, and returns what it
returns without them; and the flags, the terminal on display and the lines of the
three terminals are what the keys alone make of them. -/
theorem write_beside_keys {k : Kernel} (hx : k.console.screenX < 80)
    (hy : k.console.screenY < 25) {es₀ es : List WriteEvent} {s s' : WriteSession}
    {buf : Option Bytes} {nbytes : ℤ} (hcalls : ∀ b n, .call b n ∉ es)
    (hcalm : Along step Calm (start k) (es₀ ++ .call buf nbytes :: es))
    (honRow : Along step OnRow (start k) (es₀ ++ .call buf nbytes :: es))
    (hbefore : run step (start k) es₀ = some s)
    (hrun : run step s (.call buf nbytes :: es) = some s') :
    (∀ j, 4096 ≤ j → s'.kernel.console.videoMem j = k.console.videoMem j)
      ∧ stepsOf es ≤ 3941 * max nbytes.toNat 1
      ∧ (s'.writer.Busy → (s'.step .step).isSome = true)
      ∧ (¬ s'.writer.Busy → s'.writer = .returned (termWrite s.kernel buf nbytes).ret)
      ∧ SameKeys ((keysOf es).foldl kbdIntrHandler s.kernel) s'.kernel := by
  have hall : run step (start k) (es₀ ++ .call buf nbytes :: es) = some s' := by
    rw [run_append, hbefore]
    exact hrun
  obtain ⟨-, -, hpage⟩ := write_confined hx hy hcalm hall
  refine ⟨hpage honRow, ?_⟩
  rw [run_cons, Option.bind_eq_some_iff] at hrun
  obtain ⟨s₁, hstep, hrest⟩ := hrun
  have hcall : s₁ = s.call buf nbytes := by
    cases step_cases hstep with
    | call hidle => rfl
  have hbegun := s.ends_call buf nbytes
  rw [← hcall] at hbegun
  obtain ⟨hends₁, hsame₁, hleft₁⟩ := hbegun
  obtain ⟨hends', hsame, hleft⟩ := run_beside hends₁ hsame₁ hcalls hrest
  refine ⟨by omega, fun hbusy => ?_, fun hidle => ?_, hsame⟩
  · obtain ⟨k, w⟩ := s'
    cases w with
    | idle | returned => exact absurd hbusy (fun h => h)
    | testing | printing => rfl
  · obtain ⟨k, w⟩ := s'
    cases w with
    | idle => exact absurd hends' (fun h => h)
    | returned r => exact congrArg Writer.returned hends'
    | testing | printing => exact absurd trivial hidle

/-- The letter a is typed after the first step of a call for one byte, which comes
after another call. -/
theorem write_beside_keys_typed :
    ∃ s s', run step (start loadedKernel)
        (.call (some (cstring "y")) 1 :: List.replicate 14 .step) = some s
      ∧ run step s
        (.call (some (cstring "x")) 1 :: .step :: .key 0x1E :: List.replicate 13 .step) = some s'
      ∧ s'.writer = .returned 1
      ∧ (s'.kernel.termArr 0).kbdLineCnt = 1
      ∧ s'.kernel.console.videoMem 4096 = 0 := by
  have hend : (run step (start loadedKernel)
      (.call (some (cstring "y")) 1 :: List.replicate 14 .step)).map
      (fun s => (run step s
        (.call (some (cstring "x")) 1 :: .step :: .key 0x1E :: List.replicate 13 .step)).map
        (fun s' => (decide s'.writer.Busy,
          ((s.kernel.kbdIntrHandler 0x1E).termArr 0).kbdLineCnt)))
        = some (some (false, 1)) := by
    decide +kernel
  obtain ⟨s, hbefore, hs⟩ := Option.map_eq_some_iff.mp hend
  obtain ⟨s', hrun, hs'⟩ := Option.map_eq_some_iff.mp hs
  obtain ⟨hidle, hcount⟩ := Prod.mk.inj hs'
  obtain ⟨hpage, -, -, hret, hsame⟩ := write_beside_keys (k := loadedKernel) (by decide)
    (by decide) (by simp) (by decide +kernel) (by decide +kernel) hbefore hrun
  refine ⟨s, s', hbefore, hrun, hret (of_decide_eq_false hidle), ?_, hpage 4096 (by decide)⟩
  exact (hsame.lines 0).count.trans hcount

end WriteSession

end KernelDesign
