import KernelDesign.Strings

/-!
# The text console

The screen half of `lib.c` with the cursor registers of `vga.c`. The
console is the two static coordinates, the bytes of video memory from
`0xB8000` on, and the location held by the cursor registers; the 25 by 80
cells of the screen are the first 4000 of those bytes, a character and an
attribute each. `paging_setup` maps the first 4096: a store behind them
faults on the booted kernel, where it is a store like the others here.
-/

namespace KernelDesign

/-- **The state of the console.** -/
structure Console where
  screenX : ℕ
  screenY : ℕ
  videoMem : Bytes
  cursorLoc : ℕ

namespace Console

/-- `set_cursor_loc`: the two location registers take the 16 low bits. -/
def setCursorLoc (c : Console) (loc : ℕ) : Console :=
  { c with cursorLoc := loc % 65536 }

/-- `get_screen_loc`. -/
def getScreenLoc (c : Console) : ℕ := c.screenX + 80 * c.screenY

/-- `set_screen_xy`. -/
def setScreenXY (c : Console) (x y : ℕ) : Console :=
  { c with screenX := x, screenY := y }

/-- Store a character with attribute 7 in the cell at the cursor. -/
def putCell (c : Console) (ch : UInt8) : Console :=
  let a := 2 * (80 * c.screenY + c.screenX)
  { c with videoMem := fun j =>
      if j = a then ch else if j = a + 1 then 7 else c.videoMem j }

/-- `clear`: a blank with attribute 7 in each of the 2000 cells. -/
def clear (c : Console) : Console :=
  { c with videoMem := fun j =>
      if j < 4000 then (if j % 2 = 0 then 0x20 else 7) else c.videoMem j }

/-- **`scroll`**: the rows move up by one and the last is blank. -/
def scroll (c : Console) : Console :=
  { c with videoMem := fun j =>
      if j < 3840 then c.videoMem (j + 160)
      else if j < 4000 then (if j % 2 = 0 then 0x20 else 7)
      else c.videoMem j }

/-- The start of the next row, scrolling when there is none. -/
def newRow (c : Console) : Console :=
  let c := { c with screenY := c.screenY + 1, screenX := 0 }
  if 25 ≤ c.screenY then { c.scroll with screenY := 24 } else c

/-- **`putc`**. -/
def putc (c : Console) (ch : UInt8) : Console :=
  let c :=
    if ch = 0x0A ∨ ch = 0x0D then c.newRow
    else
      let c := c.putCell ch
      let c := { c with screenX := c.screenX + 1 }
      if 80 ≤ c.screenX then c.newRow else c
  c.setCursorLoc c.getScreenLoc

/-- **`puts`** of a string without its NUL, and `printf` of a format
without conversions. -/
def puts (c : Console) (s : List UInt8) : Console := s.foldl putc c

/-- `erase_char`: step back and blank the cell. -/
def eraseChar (c : Console) : Console :=
  let c :=
    if c.screenX = 0 then
      if 0 < c.screenY then
        { c with screenX := 79, screenY := c.screenY - 1 }
      else c
    else { c with screenX := c.screenX - 1 }
  c.putCell 0x20

/-- **`clear_screen`**, which prints a prompt. -/
def clearScreen (c : Console) : Console :=
  ({ c.clear with screenX := 0, screenY := 0 }).puts (ascii "391OS> ")

end Console

end KernelDesign
