import KernelDesign.LineEditor
import KernelDesign.Screen

/-!
# The text on the screen

While a line is typed the same characters are in three places: the line
buffer, the cells before the cursor, and the registers of the hardware
cursor, which hold where those cells end. `TextShown` says that the three
agree. It is what lets Backspace step back on the screen and in the buffer
without comparing them.

Characters, Backspace and Enter keep it, over the ends of rows and while
the screen scrolls. The two keys that draw a new prompt do not look at the
line: Ctrl+L sets the hardware cursor to 0, where the prompt is, and the
message of an unsupported key moves the cursor away from what was typed.
`typed_text_shown_iff` is the exact extent of this.
-/

namespace KernelDesign

open Kernel Transition

/-! ## A key on the line and on the screen -/

/-- The text for a key without a character. -/
def notSupported : List UInt8 := ascii "Key Code Not Supported\n391OS> "

/-- **The cursor registers are set** to the place of the cursor. -/
def Console.sync (c : Console) : Console := c.setCursorLoc c.getScreenLoc

/-- **The screen after a character** that reached `remove_op` or
`insert_op`. -/
def charConsole (t : Term) (con : Console) (ch : UInt8) : Console :=
  if ch = 0x08 then (if 0 < t.kbdLineCnt then con.eraseChar else con)
  else if 127 ≤ t.kbdLineCnt ∧ ch ≠ 0x0A then con
  else if ch = 0x09 then con
  else con.putc ch

/-- **The terminal after a key**: its character, and whether Ctrl is
held. -/
def keyTerm (ctrl : Bool) (ch : UInt8) (t : Term) : Term :=
  if ctrl ∨ ch = 0 ∨ ch = 1 then t else charEffect t ch

/-- **The screen after a key.** -/
def keyConsole (ctrl : Bool) (ch : UInt8) (t : Term) (con : Console) : Console :=
  if ctrl then
    if ch = 0x4C ∨ ch = 0x6C then con.clearScreen.setCursorLoc 0 else con
  else if ch = 0 then con.sync
  else if ch = 1 then (con.puts notSupported).sync
  else (charConsole t con ch).sync

namespace Kernel

/-- `remove_op` on the screen. -/
theorem removeOp_console (k : Kernel) :
    k.removeOp.syncCursor.console = (charConsole k.term k.console 0x08).sync := by
  unfold removeOp charConsole
  dsimp only
  rw [setTerm_term, if_pos rfl]
  dsimp only
  split
  · rfl
  · rfl

/-- `insert_op` on the screen. -/
theorem insertOp_console (k : Kernel) {ch : UInt8} (hback : ch ≠ 0x08) (hnul : ch ≠ 0) :
    (k.insertOp ch).syncCursor.console = (charConsole k.term k.console ch).sync := by
  unfold insertOp charConsole
  rw [if_neg hback]
  split
  · rfl
  · by_cases htab : ch = 0x09
    · rw [if_pos (Or.inl htab), if_pos htab]
      rfl
    · rw [if_neg (not_or.mpr ⟨htab, hnul⟩), if_neg htab]
      split
      · rfl
      · rfl

/-- **The handler is these two**, on the terminal on display once the
decoder is done. -/
theorem kbdIntrHandler_view (k : Kernel) (sc : UInt8) :
    let r := k.scancodeDecoder sc
    (k.kbdIntrHandler sc).termFlag = r.2.termFlag
      ∧ (k.kbdIntrHandler sc).term = keyTerm r.2.ctrlFlag r.1 r.2.term
      ∧ (k.kbdIntrHandler sc).console = keyConsole r.2.ctrlFlag r.1 r.2.term r.2.console := by
  intro r
  have hflag : (k.kbdIntrHandler sc).termFlag = r.2.termFlag := by
    obtain ⟨c, arr, h⟩ := k.kbdIntrHandler_eq sc
    rw [h]
  refine ⟨hflag, ?_, ?_⟩
  · rw [term, hflag, kbdIntrHandler_termArr, reached, keyTerm]
    by_cases hnone : r.2.ctrlFlag = true ∨ r.1 = 0 ∨ r.1 = 1
    · rw [if_pos hnone, if_pos hnone]
      rfl
    · rw [if_neg hnone, if_neg hnone]
      exact if_pos rfl
  · unfold kbdIntrHandler keyConsole
    show (if r.2.ctrlFlag = true then _ else _ : Kernel).console = _
    by_cases hctrl : r.2.ctrlFlag = true
    · rw [if_pos hctrl, if_pos hctrl]
      split
      · rfl
      · rfl
    · rw [if_neg hctrl, if_neg hctrl]
      show (syncCursor (if r.1 = 0x08 then _ else _)).console = _
      by_cases hback : r.1 = 0x08
      · rw [if_pos hback, hback]
        exact removeOp_console r.2
      · rw [if_neg hback]
        by_cases hnul : r.1 = 0
        · rw [if_neg (fun h => h.1 hnul), if_neg (by rw [hnul]; decide), if_pos hnul]
          rfl
        · by_cases hone : r.1 = 1
          · rw [if_neg (fun h => h.2 hone), if_pos hone, if_neg hnul, if_pos hone]
            rfl
          · rw [if_pos ⟨hnul, hone⟩, if_neg hnul, if_neg hone]
            exact insertOp_console r.2 hback hnul

end Kernel

/-! ## The text before the cursor -/

/-- **The three places agree**: the cells before the cursor, as many as
there are characters pending, show these, and the registers of the hardware
cursor hold the place of the cursor. -/
structure TextShown (t : Term) (con : Console) : Prop where
  fits : t.kbdLineCnt ≤ con.getScreenLoc
  cells : ∀ i, i < t.kbdLineCnt →
    con.videoMem (2 * (con.getScreenLoc - t.kbdLineCnt + i)) = t.kbdLineBuf i
  cursor : con.cursorLoc = con.screenX + 80 * con.screenY

/-- **A terminal on whose screen a line is typed.** -/
structure TypingState (t : Term) (con : Console) : Prop where
  col : con.screenX < 80
  row : con.screenY < 25
  count : t.kbdLineCnt ≤ 127
  shown : TextShown t con

/-- The screen as the start of a page. -/
def Console.page (con : Console) : ConsolePage :=
  ⟨fun q => if q < 2000 then con.videoMem (2 * q) else 0x20, con.getScreenLoc⟩

theorem Console.shows_page {con : Console} (hx : con.screenX < 80) (hy : con.screenY < 25) :
    con.Shows 0 con.page where
  shown := by
    refine ⟨fun q hq => ?_, fun q hq => if_neg (by omega)⟩
    rw [Nat.mul_zero, Nat.zero_add]
    exact (if_pos hq).symm
  pos := by
    show con.screenX + 80 * con.screenY = _
    omega
  col := hx
  row := hy

variable {T : ℕ} {t : Term} {con : Console} {p : ConsolePage} {ch : UInt8}

/-- The place of the cursor on the page. -/
theorem Console.Shows.pos_eq (h : con.Shows T p) : p.pos = 80 * T + con.getScreenLoc := by
  rw [h.pos, getScreenLoc]
  omega

/-- The cells before the cursor are those of the page. -/
theorem Console.Shows.cells_before (h : con.Shows T p) {n i : ℕ}
    (hn : n ≤ con.getScreenLoc) (hi : i < n) :
    con.videoMem (2 * (con.getScreenLoc - n + i)) = p.cell (p.pos - n + i) := by
  have hpos := h.pos_eq
  have hloc : con.getScreenLoc < 2000 := by
    have hx := h.col
    have hy := h.row
    rw [getScreenLoc]
    omega
  rw [h.shown.cells _ (by omega), hpos]
  congr 1
  omega

/-- A window that moved down has the cursor in its last row, and the text
before it fits. -/
theorem Console.Shows.fits (h : con.Shows (max 0 (p.row 80 - 24)) p) {n : ℕ} (hn : n ≤ p.pos)
    (hline : n ≤ 127) : n ≤ con.getScreenLoc := by
  have hpos := h.pos_eq
  rw [TextPage.row] at hpos
  omega

/-- **A text that the page has before its position** is shown. -/
theorem Console.Shows.typingState (h : con.Shows T p) (hcount : t.kbdLineCnt ≤ 127)
    (hfits : t.kbdLineCnt ≤ con.getScreenLoc)
    (hcells : ∀ i, i < t.kbdLineCnt → p.cell (p.pos - t.kbdLineCnt + i) = t.kbdLineBuf i) :
    TypingState t con.sync where
  col := h.col
  row := h.row
  count := hcount
  shown :=
    { fits := hfits
      cells := fun i hi => (h.cells_before hfits hi).trans (hcells i hi)
      cursor := Console.Synced.cursorLoc_eq (c := con.sync) rfl h.col h.row }

/-- **`erase_char` steps back by one cell**, and writes no other. -/
theorem Console.eraseChar_spec (con : Console) (hx : con.screenX < 80) (hy : con.screenY < 25)
    (hpos : 0 < con.getScreenLoc) :
    con.eraseChar.screenX < 80 ∧ con.eraseChar.screenY < 25
      ∧ con.eraseChar.getScreenLoc = con.getScreenLoc - 1
      ∧ ∀ q, q ≠ con.getScreenLoc - 1 →
        con.eraseChar.videoMem (2 * q) = con.videoMem (2 * q) := by
  rw [getScreenLoc] at hpos
  unfold Console.eraseChar getScreenLoc putCell
  by_cases hstart : con.screenX = 0
  · -- Back over the start of a row.
    have hrow : 0 < con.screenY := by omega
    rw [if_pos hstart, if_pos hrow]
    dsimp only
    refine ⟨by omega, by omega, by omega, fun q hq => ?_⟩
    rw [if_neg (by omega), if_neg (by omega)]
  · rw [if_neg hstart]
    dsimp only
    refine ⟨by omega, hy, by omega, fun q hq => ?_⟩
    rw [if_neg (by omega), if_neg (by omega)]

/-- **When a text is shown** in a window that moved down: the page has it
before its position. -/
theorem Console.Shows.textShown_iff (h : con.Shows (max 0 (p.row 80 - 24)) p)
    (hcount : t.kbdLineCnt ≤ 127) (hpos : t.kbdLineCnt ≤ p.pos) :
    TextShown t con.sync
      ↔ ∀ i, i < t.kbdLineCnt → p.cell (p.pos - t.kbdLineCnt + i) = t.kbdLineBuf i := by
  have hfits := h.fits hpos hcount
  constructor
  · exact fun hshown i hi => (h.cells_before hfits hi).symm.trans (hshown.cells i hi)
  · exact fun hcells => (h.typingState hcount hfits hcells).shown

namespace TypingState

variable (h : TypingState t con)

include h

/-- Before a key the screen is the start of a page. -/
theorem shows : con.Shows 0 con.page := con.shows_page h.col h.row

/-- The page before a key has the text. -/
theorem page_cells {i : ℕ} (hi : i < t.kbdLineCnt) :
    con.page.cell (con.page.pos - t.kbdLineCnt + i) = t.kbdLineBuf i :=
  (h.shows.cells_before h.shown.fits hi).symm.trans (h.shown.cells i hi)

/-- Setting the cursor registers changes nothing. -/
theorem sync : TypingState t con.sync :=
  h.shows.typingState h.count h.shown.fits (fun _ hi => h.page_cells hi)

/-- **A character** is appended to the text, on the screen and in the line
buffer. -/
theorem typed (hch : startsRow ch = false) (hroom : t.kbdLineCnt < 127) :
    TypingState (setLineByte { t with kbdReady := false, kbdLineCnt := t.kbdLineCnt + 1 }
      t.kbdLineCnt ch) (con.putc ch).sync := by
  have hshows := h.shows.putc ch
  have hfits : t.kbdLineCnt ≤ con.page.pos := h.shown.fits
  have hprint : con.page.print ch = con.page.put ch := if_neg (by simp [hch])
  rw [hprint] at hshows
  have hpos : (con.page.put ch).pos = con.page.pos + 1 := rfl
  refine hshows.typingState hroom (hshows.fits (Nat.succ_le_succ hfits) hroom) (fun i hi => ?_)
  show Function.update con.page.cell con.page.pos ch
      (con.page.pos + 1 - (t.kbdLineCnt + 1) + i)
    = if i = t.kbdLineCnt then ch else t.kbdLineBuf i
  rw [Nat.add_sub_add_right]
  by_cases hlast : i = t.kbdLineCnt
  · rw [if_pos hlast, hlast, Nat.sub_add_cancel hfits, Function.update_self]
  · have hi' : i < t.kbdLineCnt + 1 := hi
    rw [if_neg hlast, Function.update_of_ne (by omega)]
    exact h.page_cells (by omega)

/-- **Enter** starts an empty line. -/
theorem entered : TypingState (commitLine t) (con.putc 0x0A).sync :=
  (h.shows.putc 0x0A).typingState (Nat.zero_le _) (Nat.zero_le _)
    (fun i hi => absurd hi (Nat.not_lt_zero i))

/-- The newline stored after a full line is not part of the text. -/
theorem overflowed : TypingState (setLineByte t 127 0x0A) con.sync := by
  have hcount := h.count
  refine h.shows.typingState hcount h.shown.fits (fun i hi => ?_)
  have hi' : i < t.kbdLineCnt := hi
  show _ = if i = 127 then 0x0A else t.kbdLineBuf i
  rw [if_neg (by omega)]
  exact h.page_cells hi

/-- **Backspace** takes the last character back, on the screen and in the
line buffer. -/
theorem erased (hsome : 0 < t.kbdLineCnt) :
    TypingState (setLineByte { t with kbdReady := false, kbdLineCnt := t.kbdLineCnt - 1 }
      (t.kbdLineCnt - 1) 0x0A) con.eraseChar.sync := by
  have hfits := h.shown.fits
  have hcount := h.count
  obtain ⟨hx, hy, hloc, hcells⟩ := con.eraseChar_spec h.col h.row (by omega)
  refine ⟨hx, hy, ?_, ?_, fun i hi => ?_, Console.Synced.cursorLoc_eq (c := _) rfl hx hy⟩
  · show t.kbdLineCnt - 1 ≤ 127
    omega
  · show t.kbdLineCnt - 1 ≤ con.eraseChar.getScreenLoc
    omega
  · have hi' : i < t.kbdLineCnt - 1 := hi
    show con.eraseChar.videoMem (2 * (con.eraseChar.getScreenLoc - (t.kbdLineCnt - 1) + i))
      = if i = t.kbdLineCnt - 1 then 0x0A else t.kbdLineBuf i
    rw [if_neg (by omega), hcells _ (by omega), ← h.shown.cells i (by omega), hloc,
      show con.getScreenLoc - 1 - (t.kbdLineCnt - 1) = con.getScreenLoc - t.kbdLineCnt by omega]

/-- **A character that reaches the line** keeps the text shown. -/
theorem char (hch : ch ≠ 0x0D) :
    TypingState (charEffect t ch) (charConsole t con ch).sync := by
  unfold charEffect charConsole
  by_cases hback : ch = 0x08
  · rw [if_pos hback, if_pos hback]
    split
    · rename_i hsome
      exact h.erased hsome
    · exact ⟨h.sync.col, h.sync.row, h.count, h.sync.shown.fits, h.sync.shown.cells,
        h.sync.shown.cursor⟩
  · rw [if_neg hback, if_neg hback]
    by_cases hfull : 127 ≤ t.kbdLineCnt ∧ ch ≠ 0x0A
    · rw [if_pos hfull, if_pos hfull]
      exact h.overflowed
    · rw [if_neg hfull, if_neg hfull]
      by_cases htab : ch = 0x09
      · rw [if_pos htab, if_pos htab]
        exact h.sync
      · rw [if_neg htab, if_neg htab]
        split
        · rename_i hnewline
          rw [hnewline]
          exact h.entered
        · rename_i hnewline
          refine h.typed ?_ (Nat.not_le.mp (fun hle => hfull ⟨hle, hnewline⟩))
          simp [startsRow, hch, hnewline]

/-- **Backspace erases nothing but typed text**: a cell that it changes held
the last of the characters pending. -/
theorem erases_typed (hsome : 0 < t.kbdLineCnt) {q : ℕ}
    (hq : con.eraseChar.videoMem (2 * q) ≠ con.videoMem (2 * q)) :
    con.videoMem (2 * q) = t.kbdLineBuf (t.kbdLineCnt - 1) := by
  have hfits := h.shown.fits
  obtain ⟨-, -, -, hcells⟩ := con.eraseChar_spec h.col h.row (by omega)
  have hlast : q = con.getScreenLoc - 1 := by
    by_contra hne
    exact hq (hcells q hne)
  rw [hlast, ← h.shown.cells (t.kbdLineCnt - 1) (by omega)]
  congr 2
  omega

end TypingState

/-! ## The keys that draw a prompt -/

/-- The first cell of the prompt behind the message: the start of the row
after the one in which the message ends. -/
def promptStart (con : Console) : ℕ := 80 * ((con.getScreenLoc + 22) / 80 + 1)

/-- **The cells with the message in them**: the old ones, overwritten with
the message at the cursor and with the prompt at the start of a row. -/
def messageCells (con : Console) : ℕ → UInt8 :=
  TextPage.overwrite
    (TextPage.overwrite con.page.cell con.getScreenLoc (ascii "Key Code Not Supported"))
    (promptStart con) (ascii "391OS> ")

/-- **The message looks like the text**: the cells before the end of the
prompt, as many as there are characters pending, are the same as these. -/
def MessageShows (t : Term) (con : Console) : Prop :=
  ∀ i, i < t.kbdLineCnt →
    messageCells con (promptStart con + 7 - t.kbdLineCnt + i) = t.kbdLineBuf i

instance (t : Term) (con : Console) : Decidable (MessageShows t con) :=
  inferInstanceAs (Decidable (∀ i, i < _ → _))

/-- **The page with the message.** -/
theorem page_notSupported (con : Console) :
    con.page.writes 80 startsRow notSupported = ⟨messageCells con, promptStart con + 7⟩ := by
  have hsplit : notSupported = ascii "Key Code Not Supported" ++ 0x0A :: ascii "391OS> " := by
    decide
  have hmessage : ∀ ch ∈ ascii "Key Code Not Supported", startsRow ch = false := by
    decide +kernel
  have hprompt : ∀ ch ∈ ascii "391OS> ", startsRow ch = false := by decide +kernel
  have hlength : (ascii "Key Code Not Supported").length = 22 := by decide
  have hlength' : (ascii "391OS> ").length = 7 := by decide
  have hbreak : ∀ p : ConsolePage, p.write 80 startsRow 0x0A = p.newRow 80 :=
    fun _ => if_pos rfl
  rw [hsplit, TextPage.writes_append, TextPage.writes_cons, TextPage.writes_of_plain _ hmessage,
    hbreak, TextPage.writes_of_plain _ hprompt, hlength, hlength']
  rfl

/-- **When the text is shown behind the message**: exactly when the message
looks like it. -/
theorem TypingState.message_iff (h : TypingState t con) :
    TextShown t (con.puts notSupported).sync ↔ MessageShows t con := by
  have hshows := h.shows.puts notSupported
  have hpos : t.kbdLineCnt ≤ promptStart con + 7 := by
    have hfits := h.shown.fits
    rw [promptStart]
    omega
  rw [page_notSupported] at hshows
  exact hshows.textShown_iff h.count hpos

/-- The rest is as before. -/
theorem TypingState.message (h : TypingState t con) (hmessage : MessageShows t con) :
    TypingState t (con.puts notSupported).sync := by
  have hshows := h.shows.puts notSupported
  have hshown := h.message_iff.mpr hmessage
  generalize con.puts notSupported = con' at hshows hshown ⊢
  exact ⟨hshows.col, hshows.row, h.count, hshown⟩

/-- **Ctrl+L sets the hardware cursor to 0**, and the prompt has seven
characters. -/
theorem not_textShown_clear (t : Term) (con : Console) :
    ¬ TextShown t (con.clearScreen.setCursorLoc 0) := by
  have hx := (Console.screen_is_tail con []).screenX
  rw [show (Console.textPage []).col 80 = 7 by decide, Console.puts_nil] at hx
  generalize con.clearScreen = con' at hx ⊢
  intro h
  have hcursor : 0 = con'.screenX + 80 * con'.screenY := h.cursor
  omega

/-- **A key that keeps the text shown**: it is not Ctrl+L, and if it is not
supported, the message looks like the text. -/
def KeepsText (ctrl : Bool) (ch : UInt8) (t : Term) (con : Console) : Prop :=
  if ctrl then ¬ (ch = 0x4C ∨ ch = 0x6C) else ch = 1 → MessageShows t con

instance (ctrl : Bool) (ch : UInt8) (t : Term) (con : Console) :
    Decidable (KeepsText ctrl ch t con) := by
  unfold KeepsText
  infer_instance

/-- **The text is shown after a key only if it keeps it.** -/
theorem TypingState.keepsText {ctrl : Bool} (h : TypingState t con)
    (hshown : TextShown (keyTerm ctrl ch t) (keyConsole ctrl ch t con)) :
    KeepsText ctrl ch t con := by
  unfold KeepsText
  unfold keyTerm keyConsole at hshown
  split
  · rename_i hctrl
    rw [if_pos hctrl] at hshown
    intro hclear
    rw [if_pos hclear] at hshown
    exact not_textShown_clear _ con hshown
  · rename_i hctrl
    intro hone
    subst hone
    rw [if_pos (Or.inr (Or.inr rfl)), if_neg hctrl, if_neg (show ¬ (1 : UInt8) = 0 by decide),
      if_pos rfl] at hshown
    exact h.message_iff.mp hshown

/-- **A key that keeps the text shown** leads to a state of the same kind. -/
theorem TypingState.key {ctrl : Bool} (h : TypingState t con) (hch : ch ≠ 0x0D)
    (hkeep : KeepsText ctrl ch t con) :
    TypingState (keyTerm ctrl ch t) (keyConsole ctrl ch t con) := by
  unfold KeepsText at hkeep
  unfold keyTerm keyConsole
  by_cases hctrl : ctrl = true
  · rw [if_pos hctrl] at hkeep
    rw [if_pos (Or.inl hctrl), if_pos hctrl, if_neg hkeep]
    exact h
  · rw [if_neg hctrl] at hkeep
    rw [if_neg hctrl]
    by_cases hnul : ch = 0
    · rw [if_pos (Or.inr (Or.inl hnul)), if_pos hnul]
      exact h.sync
    · rw [if_neg hnul]
      by_cases hone : ch = 1
      · rw [if_pos (Or.inr (Or.inr hone)), if_pos hone]
        exact h.message (hkeep hone)
      · rw [if_neg (by simp [hctrl, hnul, hone]), if_neg hone]
        exact h.char hch

/-! ## Runs -/

namespace Kernel

/-- No key has a carriage return. -/
theorem decodeChar_ne_return (k : Kernel) (sc : UInt8) : k.decodeChar sc ≠ 0x0D := by
  have htable : ∀ s : List UInt8, 0x0D ∉ s → s.getD sc.toNat 0 ≠ 0x0D := by
    intro s hs heq
    rw [List.getD_eq_getElem?_getD] at heq
    cases hget : s[sc.toNat]? with
    | none =>
      rw [hget] at heq
      exact absurd heq (by decide)
    | some c =>
      rw [hget] at heq
      exact hs (heq ▸ List.mem_of_getElem? hget)
  unfold decodeChar
  split
  · refine htable _ ?_
    split
    · decide +kernel
    · split
      · decide +kernel
      · split
        · decide +kernel
        · decide +kernel
  · decide

/-- **A keyboard interrupt on one terminal**: none that switches to
another. -/
def typeKey (k : Kernel) (sc : UInt8) : Option Kernel :=
  if (k.scancodeDecoder sc).2.termFlag = k.termFlag then some (k.kbdIntrHandler sc) else none

/-- **A fresh prompt**: nothing is typed, and the hardware cursor is at the
cursor, which is on the screen. -/
structure FreshPrompt (k : Kernel) : Prop where
  col : k.console.screenX < 80
  row : k.console.screenY < 25
  empty : k.term.kbdLineCnt = 0
  cursor : k.console.cursorLoc = k.console.screenX + 80 * k.console.screenY

/-- **The key keeps the text shown.** -/
def KeyKeepsText (k : Kernel) (sc : UInt8) : Prop :=
  KeepsText (k.scancodeDecoder sc).2.ctrlFlag (k.scancodeDecoder sc).1 k.term k.console

instance (k : Kernel) (sc : UInt8) : Decidable (k.KeyKeepsText sc) :=
  inferInstanceAs (Decidable (KeepsText _ _ _ _))

variable {k k' : Kernel} {sc : UInt8}

/-- A fresh prompt shows the text, which is empty. -/
theorem FreshPrompt.typingState (h : k.FreshPrompt) : TypingState k.term k.console where
  col := h.col
  row := h.row
  count := by
    rw [h.empty]
    exact Nat.zero_le 127
  shown :=
    { fits := by
        rw [h.empty]
        exact Nat.zero_le _
      cells := fun i hi => by
        rw [h.empty] at hi
        exact absurd hi (Nat.not_lt_zero i)
      cursor := h.cursor }

/-- **What a key on one terminal does** to the line and the screen. -/
theorem typeKey_view (h : k.typeKey sc = some k') :
    k'.term = keyTerm (k.scancodeDecoder sc).2.ctrlFlag (k.scancodeDecoder sc).1 k.term
      ∧ k'.console = keyConsole (k.scancodeDecoder sc).2.ctrlFlag (k.scancodeDecoder sc).1 k.term
          k.console := by
  unfold typeKey at h
  split at h
  · rename_i hflag
    obtain rfl := Option.some.inj h
    obtain ⟨-, hterm, hconsole⟩ := k.kbdIntrHandler_view sc
    obtain ⟨t, ht, hdecode⟩ | ⟨-, hdecode⟩ := k.scancodeDecoder_cases sc
    · -- A switch shows another terminal.
      rw [hdecode, (k.switched_switchTo ht.ne).termFlag] at hflag
      exact absurd hflag ht.ne
    · have hsame : (k.scancodeDecoder sc).2.term = k.term
          ∧ (k.scancodeDecoder sc).2.console = k.console := by
        rw [hdecode]
        exact ⟨rfl, rfl⟩
      rw [hsame.1] at hterm
      rw [hsame.1, hsame.2] at hconsole
      exact ⟨hterm, hconsole⟩
  · cases h

/-- **When the text stays on the screen**: after a fresh prompt, the three
copies of the text agree after every key of a run, exactly if every key of
the run keeps the text shown. -/
theorem typed_text_shown_iff (h : k.FreshPrompt) (scs : List UInt8) :
    Along typeKey (fun _ _ k' => TextShown k'.term k'.console) k scs
      ↔ Along typeKey (fun k sc _ => k.KeyKeepsText sc) k scs := by
  have hkeep : ∀ (k : Kernel) sc k', TypingState k.term k.console → k.typeKey sc = some k' →
      k.KeyKeepsText sc → TypingState k'.term k'.console := by
    intro k sc k' htyping hstep htext
    obtain ⟨hterm, hconsole⟩ := typeKey_view hstep
    rw [hterm, hconsole]
    exact htyping.key (decodeChar_ne_return _ sc) htext
  have hiff : ∀ (k : Kernel) sc k', TypingState k.term k.console → k.typeKey sc = some k' →
      (TextShown k'.term k'.console ↔ k.KeyKeepsText sc) := by
    intro k sc k' htyping hstep
    refine ⟨fun hshown => ?_, fun htext => (hkeep k sc k' htyping hstep htext).shown⟩
    obtain ⟨hterm, hconsole⟩ := typeKey_view hstep
    rw [hterm, hconsole] at hshown
    exact htyping.keepsText hshown
  exact along_iff (I := fun k => TypingState k.term k.console) hiff hkeep h.typingState scs

/-! ## Ctrl+L, and an unsupported key -/

/-- The first prompt of the first terminal. -/
def promptKernel : Kernel :=
  { loadedKernel with console := loadedKernel.console.clearScreen.sync }

theorem freshPrompt_promptKernel : promptKernel.FreshPrompt :=
  ⟨by decide, by decide, by decide, by decide⟩

/-- **The hardware cursor is lost** after Ctrl and L, and the text after the
letter a and the up arrow, which is not supported. -/
theorem typed_text_lost :
    promptKernel.FreshPrompt
      ∧ ¬ Along typeKey (fun _ _ k' => TextShown k'.term k'.console) promptKernel [0x1D, 0x26]
      ∧ ¬ Along typeKey (fun _ _ k' => TextShown k'.term k'.console) promptKernel
          [0x1E, 0x48] := by
  have hshown : TextShown promptKernel.term promptKernel.console :=
    freshPrompt_promptKernel.typingState.shown
  refine ⟨freshPrompt_promptKernel, fun h => ?_, fun h => ?_⟩
  · have hstate : (run typeKey promptKernel [0x1D, 0x26]).map (fun k =>
        (k.console.cursorLoc, k.console.screenX, k.console.screenY)) = some (0, 7, 0) := by
      decide +kernel
    obtain ⟨k, hrun, hk⟩ := Option.map_eq_some_iff.mp hstate
    simp only [Prod.mk.injEq] at hk
    have hcursor := (h.run_end (P := fun k => TextShown k.term k.console) hshown hrun).cursor
    omega
  · have hstate : (run typeKey promptKernel [0x1E, 0x48]).map (fun k =>
        (k.term.kbdLineCnt, k.console.videoMem (2 * (k.console.getScreenLoc - 1 + 0)),
          k.term.kbdLineBuf 0)) = some (1, 0x20, 0x61) := by
      decide +kernel
    obtain ⟨k, hrun, hk⟩ := Option.map_eq_some_iff.mp hstate
    simp only [Prod.mk.injEq] at hk
    obtain ⟨hcount, hcell, hbuf⟩ := hk
    have htext := (h.run_end (P := fun k => TextShown k.term k.console) hshown hrun).cells 0
      (by omega)
    rw [hcount, hcell, hbuf] at htext
    exact absurd htext (by decide)

/-- The letter a and Backspace keep the text on the screen. -/
theorem typed_text_erased :
    Along typeKey (fun _ _ k' => TextShown k'.term k'.console) promptKernel [0x1E, 0x0E] := by
  refine (typed_text_shown_iff freshPrompt_promptKernel _).mpr (fun k hk => ⟨?_, fun k' hk' => ?_⟩)
  · show promptKernel.KeyKeepsText 0x1E
    decide +kernel
  · have hkey : promptKernel.kbdIntrHandler 0x1E = k := Option.some.inj hk
    subst hkey
    refine ⟨?_, trivial⟩
    show (promptKernel.kbdIntrHandler 0x1E).KeyKeepsText 0x0E
    decide +kernel

end Kernel

end KernelDesign
