import KernelDesign.Console
import KernelDesign.Library.TextPage

/-!
# The screen and the page

The screen is 25 rows of 80 cells, and text that is written behind its last
row moves what is there up by one. Said without the moving, the text goes
on an endless page, and the screen shows 25 rows of it, the top one being
the row `T` of the page (`Console.Shows`). `putc` writes one character on
the page and moves the window down if it has to (`Shows.putc`).

From a cleared screen on the window is as high as it can be, so the screen
shows the last rows of the text (`screen_is_tail`).
-/

namespace KernelDesign

/-- The two characters that start a new row. -/
def startsRow (ch : UInt8) : Bool := ch == 0x0A || ch == 0x0D

/-- A page of the console. -/
abbrev ConsolePage := TextPage UInt8

/-- Write a character on a page of the console. -/
abbrev ConsolePage.print (p : ConsolePage) (ch : UInt8) : ConsolePage :=
  TextPage.write 80 startsRow p ch

namespace Console

/-- **The cells of the screen** are those of the page from row `T` on, which
is blank behind the screen. -/
structure ShowsCells (T : ℕ) (c : Console) (cell : ℕ → UInt8) : Prop where
  cells : ∀ q, q < 2000 → c.videoMem (2 * q) = cell (80 * T + q)
  below : ∀ q, 80 * T + 2000 ≤ q → cell q = 0x20

/-- **The screen shows the page** from row `T` on, and the cursor is at its
position. -/
structure Shows (T : ℕ) (c : Console) (p : ConsolePage) : Prop where
  shown : c.ShowsCells T p.cell
  pos : p.pos = 80 * T + (80 * c.screenY + c.screenX)
  col : c.screenX < 80
  row : c.screenY < 25

variable {T : ℕ} {c : Console} {cell : ℕ → UInt8} {p : ConsolePage} {ch : UInt8}

/-- A character in a cell of the screen. -/
theorem ShowsCells.putCell (h : c.ShowsCells T cell) (hx : c.screenX < 80)
    (hy : c.screenY < 25) :
    (c.putCell ch).ShowsCells T
      (Function.update cell (80 * T + (80 * c.screenY + c.screenX)) ch) where
  cells q hq := by
    show (if 2 * q = 2 * (80 * c.screenY + c.screenX) then ch
      else if 2 * q = 2 * (80 * c.screenY + c.screenX) + 1 then 7 else c.videoMem (2 * q)) = _
    by_cases hhere : q = 80 * c.screenY + c.screenX
    · rw [hhere, if_pos rfl, Function.update_self]
    · rw [if_neg (by omega), if_neg (by omega), Function.update_of_ne (by omega)]
      exact h.cells q hq
  below q hq := by
    rw [Function.update_of_ne (by omega)]
    exact h.below q hq

/-- **Scrolling** moves the window down by a row. -/
theorem ShowsCells.scroll (h : c.ShowsCells T cell) : c.scroll.ShowsCells (T + 1) cell where
  cells q hq := by
    show (if 2 * q < 3840 then c.videoMem (2 * q + 160)
      else if 2 * q < 4000 then (if 2 * q % 2 = 0 then 0x20 else 7)
      else c.videoMem (2 * q)) = _
    by_cases hmoved : q < 1920
    · rw [if_pos (by omega), show 2 * q + 160 = 2 * (q + 80) by omega, h.cells _ (by omega)]
      congr 1
      omega
    · rw [if_neg (by omega), if_pos (by omega), if_pos (by omega)]
      exact (h.below _ (by omega)).symm
  below q hq := h.below q (by omega)

/-- **A new row**: the window moves down if the cursor was in its last
row. -/
theorem ShowsCells.newRow (h : c.ShowsCells T cell) (hy : c.screenY < 25) :
    c.newRow.Shows (max T (T + c.screenY + 1 - 24)) ⟨cell, 80 * (T + c.screenY + 1)⟩ := by
  unfold Console.newRow
  dsimp only
  split
  · -- The cursor was in the last row.
    rename_i hlast
    rw [show max T (T + c.screenY + 1 - 24) = T + 1 by omega]
    have hscroll : ShowsCells (T + 1) _ cell :=
      ShowsCells.scroll (c := { c with screenY := c.screenY + 1, screenX := 0 }) ⟨h.cells, h.below⟩
    refine ⟨⟨hscroll.cells, hscroll.below⟩, ?_, ?_, ?_⟩
    · show 80 * (T + c.screenY + 1) = 80 * (T + 1) + (80 * 24 + 0)
      omega
    · exact Nat.zero_lt_succ 79
    · exact Nat.lt_succ_self 24
  · rename_i hroom
    rw [show max T (T + c.screenY + 1 - 24) = T by omega]
    refine ⟨⟨h.cells, h.below⟩, ?_, ?_, ?_⟩
    · show 80 * (T + c.screenY + 1) = 80 * T + (80 * (c.screenY + 1) + 0)
      omega
    · exact Nat.zero_lt_succ 79
    · exact Nat.not_le.mp hroom

/-- The cursor registers are not the screen. -/
theorem Shows.setCursorLoc (h : c.Shows T p) (loc : ℕ) : (c.setCursorLoc loc).Shows T p :=
  ⟨⟨h.shown.cells, h.shown.below⟩, h.pos, h.col, h.row⟩

/-- The position on the page has the row and the column of the cursor. -/
theorem Shows.row_eq (h : c.Shows T p) : p.row 80 = T + c.screenY := by
  have hpos := h.pos
  have hcol := h.col
  rw [TextPage.row]
  omega

theorem Shows.col_eq (h : c.Shows T p) : p.col 80 = c.screenX := by
  have hpos := h.pos
  have hcol := h.col
  rw [TextPage.col]
  omega

/-- A new row is one on the page. -/
theorem Shows.newRow (h : c.Shows T p) :
    c.newRow.Shows (max T ((p.newRow 80).row 80 - 24)) (p.newRow 80) := by
  have hnew : p.newRow 80 = ⟨p.cell, 80 * (T + c.screenY + 1)⟩ := by
    rw [TextPage.newRow, h.row_eq]
  have hrow : (p.newRow 80).row 80 = T + c.screenY + 1 := by
    rw [hnew]
    exact TextPage.row_start (Nat.zero_lt_succ 79) _ _
  rw [hrow, hnew]
  exact h.shown.newRow h.row

/-- **`putc` writes on the page**: the window moves down as far as it takes
to show the new position. -/
theorem Shows.putc (h : c.Shows T p) (ch : UInt8) :
    (c.putc ch).Shows (max T ((p.print ch).row 80 - 24)) (p.print ch) := by
  unfold Console.putc
  refine Shows.setCursorLoc ?_ _
  by_cases hbreak : ch = 0x0A ∨ ch = 0x0D
  · have hprint : p.print ch = p.newRow 80 := if_pos (by simpa [startsRow] using hbreak)
    rw [if_pos hbreak, hprint]
    exact h.newRow
  · have hprint : p.print ch = p.put ch := if_neg (by simpa [startsRow] using hbreak)
    have hpos := h.pos
    have hcol := h.col
    have hcell : (c.putCell ch).ShowsCells T
        (Function.update p.cell (80 * T + (80 * c.screenY + c.screenX)) ch) :=
      h.shown.putCell h.col h.row
    rw [← hpos] at hcell
    rw [if_neg hbreak, hprint]
    dsimp only
    split
    · -- The row is full, and the next cell is the first of the next row.
      rename_i hfull
      have hlast : 80 ≤ c.screenX + 1 := hfull
      have hput : p.put ch = ⟨Function.update p.cell p.pos ch, 80 * (T + c.screenY + 1)⟩ := by
        rw [TextPage.put, hpos]
        congr 1
        omega
      have hrow : (p.put ch).row 80 = T + c.screenY + 1 := by
        rw [hput]
        exact TextPage.row_start (Nat.zero_lt_succ 79) _ _
      rw [hrow, hput]
      exact ShowsCells.newRow (c := { c.putCell ch with screenX := c.screenX + 1 })
        ⟨hcell.cells, hcell.below⟩ h.row
    · rename_i hroom
      have hnext : c.screenX + 1 < 80 := Nat.not_le.mp hroom
      have hrow : (p.put ch).row 80 = T + c.screenY := by
        rw [TextPage.row, TextPage.put]
        dsimp only
        omega
      have hy := h.row
      rw [hrow, show max T (T + c.screenY - 24) = T by omega]
      refine ⟨⟨hcell.cells, hcell.below⟩, ?_, hnext, hy⟩
      show p.pos + 1 = 80 * T + (80 * c.screenY + (c.screenX + 1))
      omega

theorem puts_nil (c : Console) : c.puts [] = c := rfl

/-- **`puts` writes the text on the page.** -/
theorem Shows.puts (h : c.Shows T p) (text : List UInt8) :
    (c.puts text).Shows (max T ((p.writes 80 startsRow text).row 80 - 24))
      (p.writes 80 startsRow text) := by
  induction text generalizing c p T with
  | nil =>
    have hrow := h.row_eq
    have hy := h.row
    show c.Shows (max T (p.row 80 - 24)) p
    rw [show max T (p.row 80 - 24) = T by omega]
    exact h
  | cons ch text ih =>
    have hdown : (p.print ch).row 80 ≤ ((p.print ch).writes 80 startsRow text).row 80 :=
      TextPage.row_le_writes (Nat.zero_lt_succ 79) (p.print ch) text
    have hnext := ih (h.putc ch)
    rw [show max (max T ((p.print ch).row 80 - 24))
        (((p.print ch).writes 80 startsRow text).row 80 - 24)
          = max T (((p.print ch).writes 80 startsRow text).row 80 - 24) by omega] at hnext
    exact hnext

/-! ## The attributes and the cursor registers -/

/-- **Every cell has attribute 7.** -/
def Attributes (c : Console) : Prop := ∀ q, q < 2000 → c.videoMem (2 * q + 1) = 7

theorem Attributes.putCell (h : c.Attributes) : (c.putCell ch).Attributes := fun q hq => by
  show (if 2 * q + 1 = 2 * (80 * c.screenY + c.screenX) then ch
    else if 2 * q + 1 = 2 * (80 * c.screenY + c.screenX) + 1 then 7
    else c.videoMem (2 * q + 1)) = 7
  rw [if_neg (by omega), h q hq, ite_self]

theorem Attributes.scroll (h : c.Attributes) : c.scroll.Attributes := fun q hq => by
  show (if 2 * q + 1 < 3840 then c.videoMem (2 * q + 1 + 160)
    else if 2 * q + 1 < 4000 then (if (2 * q + 1) % 2 = 0 then 0x20 else 7)
    else c.videoMem (2 * q + 1)) = 7
  by_cases hmoved : q < 1920
  · rw [if_pos (by omega), show 2 * q + 1 + 160 = 2 * (q + 80) + 1 by omega]
    exact h (q + 80) (by omega)
  · rw [if_neg (by omega), if_pos (by omega), if_neg (by omega)]

theorem Attributes.newRow (h : c.Attributes) : c.newRow.Attributes := by
  unfold Console.newRow
  dsimp only
  split
  · exact Attributes.scroll (c := { c with screenY := c.screenY + 1, screenX := 0 }) h
  · exact h

theorem Attributes.putc (h : c.Attributes) (ch : UInt8) : (c.putc ch).Attributes := by
  have hcell : ({ c.putCell ch with screenX := c.screenX + 1 } : Console).Attributes := h.putCell
  unfold Console.putc
  dsimp only
  split
  · exact h.newRow
  · split
    · exact hcell.newRow
    · exact hcell

theorem Attributes.puts (h : c.Attributes) (text : List UInt8) : (c.puts text).Attributes := by
  induction text generalizing c with
  | nil => exact h
  | cons ch text ih => exact ih (h.putc ch)

/-- **The cursor registers hold the place of the cursor.** -/
def Synced (c : Console) : Prop := c.cursorLoc = c.getScreenLoc % 65536

theorem synced_putc (c : Console) (ch : UInt8) : (c.putc ch).Synced := rfl

theorem Synced.puts (h : c.Synced) (text : List UInt8) : (c.puts text).Synced := by
  induction text generalizing c with
  | nil => exact h
  | cons ch text ih => exact ih (synced_putc c ch)

theorem synced_puts (c : Console) {text : List UInt8} (h : text ≠ []) :
    (c.puts text).Synced := by
  cases text with
  | nil => exact absurd rfl h
  | cons ch text => exact (synced_putc c ch).puts text

/-- On the screen that place is its own 16-bit reading. -/
theorem Synced.cursorLoc_eq (h : c.Synced) (hx : c.screenX < 80) (hy : c.screenY < 25) :
    c.cursorLoc = c.screenX + 80 * c.screenY := by
  rw [h, getScreenLoc]
  omega

/-! ## The screen after a clear -/

/-- **The page of a text** that is written behind the prompt. -/
def textPage (bytes : List UInt8) : ConsolePage :=
  (TextPage.blank 0x20).writes 80 startsRow (ascii "391OS> " ++ bytes)

/-- **The screen is the tail of the page**: with `R` the row of its position,
the rows from `R - 24` on, or from 0 if there are fewer, all with attribute
7, and the cursor at the position. -/
structure ShowsTail (c : Console) (p : ConsolePage) : Prop where
  cells : ∀ r x, r < 25 → x < 80 →
    c.videoMem (2 * (80 * r + x)) = p.cell (80 * (p.row 80 - 24 + r) + x)
      ∧ c.videoMem (2 * (80 * r + x) + 1) = 7
  screenX : c.screenX = p.col 80
  screenY : c.screenY = min (p.row 80) 24
  cursor : c.cursorLoc = c.screenX + 80 * c.screenY

/-- The screen that `clear` leaves is the start of a blank page. -/
theorem shows_clear (c : Console) :
    ({ c.clear with screenX := 0, screenY := 0 } : Console).Shows 0 (TextPage.blank 0x20) where
  shown := by
    refine ⟨fun q hq => ?_, fun q _ => rfl⟩
    show (if 2 * q < 4000 then (if 2 * q % 2 = 0 then 0x20 else 7) else c.videoMem (2 * q)) = 0x20
    rw [if_pos (by omega), if_pos (by omega)]
  pos := rfl
  col := Nat.zero_lt_succ 79
  row := Nat.zero_lt_succ 24

theorem attributes_clear (c : Console) :
    ({ c.clear with screenX := 0, screenY := 0 } : Console).Attributes := fun q hq => by
  show (if 2 * q + 1 < 4000 then (if (2 * q + 1) % 2 = 0 then 0x20 else 7)
    else c.videoMem (2 * q + 1)) = 7
  rw [if_pos (by omega), if_neg (by omega)]

/-- **The visible screen is the tail of the written text**, for every text
and every screen before `clear_screen`. -/
theorem screen_is_tail (c : Console) (bytes : List UInt8) :
    (c.clearScreen.puts bytes).ShowsTail (textPage bytes) := by
  have hputs : c.clearScreen.puts bytes
      = ({ c.clear with screenX := 0, screenY := 0 } : Console).puts
          (ascii "391OS> " ++ bytes) := by
    rw [clearScreen, puts, puts, puts, List.foldl_append]
  have hshows : (c.clearScreen.puts bytes).Shows ((textPage bytes).row 80 - 24)
      (textPage bytes) := by
    rw [hputs]
    have hpage := (shows_clear c).puts (ascii "391OS> " ++ bytes)
    rwa [Nat.zero_max] at hpage
  have hattributes : (c.clearScreen.puts bytes).Attributes := by
    rw [hputs]
    exact (attributes_clear c).puts _
  have hsynced : (c.clearScreen.puts bytes).Synced := by
    rw [hputs]
    exact synced_puts _ (List.append_ne_nil_of_left_ne_nil (by decide) bytes)
  have hrow := hshows.row_eq
  have hy := hshows.row
  refine ⟨fun r x hr hx => ⟨?_, hattributes _ (by omega)⟩, hshows.col_eq.symm, ?_,
    hsynced.cursorLoc_eq hshows.col hy⟩
  · rw [hshows.shown.cells _ (by omega)]
    congr 1
    omega
  · omega

end Console

end KernelDesign
