import KernelDesign.MemoryOps
import KernelDesign.Keyboard

/-!
# The console in memory

The screen half of `lib.c` once more, one level down: the coordinates are
the two `int`s they are in the source, and the screen is in memory, where
each operation computes the addresses it stores to. `Console` abstracts
from both. What this level is for is where the stores go: to the page of
video memory at `0xB8000`, and except for the copy of a saved screen only
to the 4000 bytes of the cells.

No operation tests its address. That it is inside rests on the coordinates,
which every operation leaves in range if it finds them so, and on those that
`save_term` puts away and `switch_term` brings back, which were live once
(`Screens.Inside`). The last part connects the levels: inside the screen the
operations here are those of `Console`.
-/

namespace KernelDesign

open Words

/-- The page of video memory. -/
def videoPage : Set ℕ := {a | 0xB8000 ≤ a ∧ a < 0xB8000 + 4096}

/-- The bytes of the 2000 cells. -/
def screenCells : Set ℕ := {a | 0xB8000 ≤ a ∧ a < 0xB8000 + 4000}

theorem screenCells_subset : screenCells ⊆ videoPage := by
  rintro a ⟨hl, hu⟩
  exact ⟨hl, by omega⟩

/-- **The console in memory.** -/
structure VideoConsole where
  screenX : ℤ
  screenY : ℤ
  mem : Memory UInt8
  cursorLoc : ℕ

namespace VideoConsole

/-- `set_cursor_loc`. -/
def setCursorLoc (c : VideoConsole) (loc : ℤ) : VideoConsole :=
  { c with cursorLoc := unsigned 16 loc }

/-- `get_screen_loc`. -/
def getScreenLoc (c : VideoConsole) : ℤ := c.screenX + 80 * c.screenY

/-- `set_screen_xy`. -/
def setScreenXY (c : VideoConsole) (x y : ℤ) : VideoConsole :=
  { c with screenX := x, screenY := y }

/-- The address of the cell at the cursor,
`video_mem + ((NUM_COLS * screen_y + screen_x) << 1)`. -/
def cellAddr (c : VideoConsole) : ℕ := u32 (0xB8000 + 2 * (80 * c.screenY + c.screenX))

/-- Store a character with attribute 7 in the cell at the cursor. -/
def putCell (c : VideoConsole) (ch : UInt8) : VideoConsole :=
  { c with mem := (c.mem.store c.cellAddr ch).store (u32 ((c.cellAddr : ℤ) + 1)) 7 }

/-- The loop of `clear` from cell `i` on, with `n` cells left. -/
def clearLoop : ℕ → ℕ → Memory UInt8 → Memory UInt8
  | 0, _, m => m
  | n + 1, i, m =>
    clearLoop n (i + 1) ((m.store (0xB8000 + 2 * i) 0x20).store (0xB8000 + 2 * i + 1) 7)

/-- `clear`. -/
def clear (c : VideoConsole) : VideoConsole := { c with mem := clearLoop 2000 0 c.mem }

/-- **`scroll`**: 24 rows move up, and the last is filled with blanks. -/
def scroll (c : VideoConsole) : VideoConsole :=
  { c with mem :=
      memsetWord (memmove c.mem 0xB8000 (0xB8000 + 160) 3840) (0xB8000 + 3840) 0x720 80 }

/-- The start of the next row, scrolling when there is none. -/
def newRow (c : VideoConsole) : VideoConsole :=
  let c := { c with screenY := c.screenY + 1, screenX := 0 }
  if 25 ≤ c.screenY then { c.scroll with screenY := 24 } else c

/-- **`putc`**. -/
def putc (c : VideoConsole) (ch : UInt8) : VideoConsole :=
  let c :=
    if ch = 0x0A ∨ ch = 0x0D then c.newRow
    else
      let c := c.putCell ch
      let c := { c with screenX := c.screenX + 1 }
      if 80 ≤ c.screenX then c.newRow else c
  c.setCursorLoc c.getScreenLoc

/-- **`puts`** of a string without its NUL. -/
def puts (c : VideoConsole) (s : List UInt8) : VideoConsole := s.foldl putc c

/-- `erase_char`. -/
def eraseChar (c : VideoConsole) : VideoConsole :=
  let c :=
    if c.screenX = 0 then
      if 0 < c.screenY then
        { c with screenX := 79, screenY := c.screenY - 1 }
      else c
    else { c with screenX := c.screenX - 1 }
  c.putCell 0x20

/-- **`clear_screen`**. -/
def clearScreen (c : VideoConsole) : VideoConsole :=
  ({ c.clear with screenX := 0, screenY := 0 }).puts (ascii "391OS> ")

end VideoConsole

/-- What a terminal record holds of a screen. -/
structure SavedScreen where
  cursorX : ℤ
  cursorY : ℤ
  vidBuf : Bytes

/-- **`save_term`**, whose copy ends with the first NUL byte. -/
def SavedScreen.saveTerm (t : SavedScreen) (c : VideoConsole) : SavedScreen :=
  let stop := Scan.scan (fun i => c.mem.cells (0xB8000 + i) == 0) 0 4096
  { cursorX := c.screenX
    cursorY := c.screenY
    vidBuf := fun j =>
      if j < 4096 then (if j ≤ stop then c.mem.cells (0xB8000 + j) else 0)
      else t.vidBuf j }

/-- The loop of `switch_term` from byte `i` on, with `n` bytes left. -/
def showLoop (vidBuf : Bytes) : ℕ → ℕ → Memory UInt8 → Memory UInt8
  | 0, _, m => m
  | n + 1, i, m =>
    let m := m.store (0xB8000 + i) (vidBuf i)
    if vidBuf i = 0 then m else showLoop vidBuf n (i + 1) m

/-- **`switch_term`**. -/
def SavedScreen.switchTerm (t : SavedScreen) (c : VideoConsole) : VideoConsole :=
  let c := c.clearScreen
  let c := c.setScreenXY t.cursorX t.cursorY
  let c := c.setCursorLoc (t.cursorX + t.cursorY * 80)
  { c with mem := showLoop t.vidBuf 4096 0 c.mem }

/-- **The live screen and the three saved ones.** -/
structure Screens where
  live : VideoConsole
  termFlag : Fin 3
  saved : Fin 3 → SavedScreen

/-- **An operation on the screen.** -/
inductive ScreenOp
  | putc (ch : UInt8)
  | puts (s : List UInt8)
  | eraseChar
  | clearScreen
  | switchTo (t : Fin 3)

namespace Screens

/-- A terminal switch: `save_term` of the terminal on display, then
`switch_term` of the one that is next. -/
def switchTo (s : Screens) (t : Fin 3) : Screens :=
  let saved := fun u => if u = s.termFlag then (s.saved u).saveTerm s.live else s.saved u
  { live := (saved t).switchTerm s.live
    termFlag := t
    saved := saved }

/-- What an operation does. -/
def op (s : Screens) : ScreenOp → Screens
  | .putc ch => { s with live := s.live.putc ch }
  | .puts str => { s with live := s.live.puts str }
  | .eraseChar => { s with live := s.live.eraseChar }
  | .clearScreen => { s with live := s.live.clearScreen }
  | .switchTo t => s.switchTo t

/-- The screens as `kbd_init` leaves them, in any memory and with any
contents of the saved screens: every cursor is at the upper left. -/
def boot (mem : Memory UInt8) (cursorLoc : ℕ) (vidBuf : Fin 3 → Bytes) : Screens :=
  { live := ⟨0, 0, mem, cursorLoc⟩
    termFlag := 0
    saved := fun t => ⟨0, 0, vidBuf t⟩ }

end Screens

/-! ## Where the operations store -/

/-- A position on the screen. -/
structure OnScreen (x y : ℤ) : Prop where
  x_nonneg : 0 ≤ x
  x_lt : x < 80
  y_nonneg : 0 ≤ y
  y_lt : y < 25

/-- The first column of a row. -/
theorem onScreen_left {y : ℤ} (h : 0 ≤ y) (h' : y < 25) : OnScreen 0 y :=
  ⟨Int.le_refl 0, by decide, h, h'⟩

/-- The upper left. -/
theorem onScreen_home : OnScreen 0 0 := onScreen_left (Int.le_refl 0) (by decide)

namespace VideoConsole

variable {c : VideoConsole}

/-- The cursor is on the screen. -/
def Inside (c : VideoConsole) : Prop := OnScreen c.screenX c.screenY

/-- **The cell at a cursor on the screen** lies among the cells. -/
theorem Inside.cellAddr_eq (h : c.Inside) :
    (c.cellAddr : ℤ) = 0xB8000 + 2 * (80 * c.screenY + c.screenX)
      ∧ 2 * (80 * c.screenY + c.screenX) < 4000 := by
  obtain ⟨hx, hx', hy, hy'⟩ := h
  rw [cellAddr, u32_eq]
  omega

/-- `putc` and `erase_char` store to one cell. -/
theorem Inside.putCell_storesIn (h : c.Inside) (ch : UInt8) :
    Memory.StoresIn screenCells c.mem (c.putCell ch).mem := by
  obtain ⟨haddr, hlt⟩ := h.cellAddr_eq
  obtain ⟨hx, hx', hy, hy'⟩ := h
  have hnext : u32 ((c.cellAddr : ℤ) + 1) = c.cellAddr + 1 :=
    u32_natCast (n := c.cellAddr + 1) (by omega)
  refine ((Memory.StoresIn.refl _ c.mem).store ?_ ch).store ?_ 7
  · exact ⟨by omega, by omega⟩
  · rw [hnext]
    exact ⟨by omega, by omega⟩

/-- The loop of `clear` is one write of blanks. -/
theorem clearLoop_eq (n i : ℕ) (m : Memory UInt8) :
    clearLoop n i m = Memory.write (2 * n) (0xB8000 + 2 * i) (wordCells 0x20 7) m := by
  induction n generalizing i m with
  | zero => rfl
  | succ n ih =>
    rw [clearLoop, ih, write_wordCells]
    rfl

theorem clear_mem (c : VideoConsole) :
    c.clear.mem = Memory.write (2 * 2000) (0xB8000 + 2 * 0) (wordCells 0x20 7) c.mem := by
  simp only [clear, clearLoop_eq]

theorem clear_storesIn (c : VideoConsole) :
    Memory.StoresIn screenCells c.mem c.clear.mem := by
  rw [clear_mem]
  exact (Memory.write_storesIn _ _ _ _).widen (by decide) (by decide)

/-- The move and the fill of `scroll`. -/
theorem scroll_mem (c : VideoConsole) :
    c.scroll.mem
      = Memory.write 160 (0xB8000 + 3840) (wordCells 0x20 7)
          (memmove c.mem 0xB8000 (0xB8000 + 160) 3840) :=
  memsetWord_eq (by decide) 0x720 _

/-- **`scroll` stores to the cells alone**: the move to the first 24 rows,
the fill to the last. -/
theorem scroll_storesIn (c : VideoConsole) :
    Memory.StoresIn screenCells c.mem c.scroll.mem := by
  rw [scroll_mem]
  have hmove := memmove_storesIn (show 0xB8000 + 160 + 3840 ≤ 4294967296 by decide)
    (show 0xB8000 + 3840 ≤ 4294967296 by decide) c.mem
  exact (hmove.widen (by decide) (by decide)).trans
    ((Memory.write_storesIn _ _ _ _).widen (by decide) (by decide))

/-- **What an operation on the live screen keeps**: the cursor stays on the
screen, and the stores went to the cells. -/
structure Keeps (c c' : VideoConsole) : Prop where
  inside : c'.Inside
  stores : Memory.StoresIn screenCells c.mem c'.mem

theorem newRow_keeps (c : VideoConsole) (hy : 0 ≤ c.screenY) (hy' : c.screenY < 25) :
    c.Keeps c.newRow := by
  unfold newRow
  dsimp only
  split
  · exact ⟨onScreen_left (y := 24) (by decide) (by decide), scroll_storesIn _⟩
  · rename_i hlt
    have hlt' : c.screenY + 1 < 25 := Int.not_le.mp hlt
    exact ⟨onScreen_left (y := c.screenY + 1) (by omega) hlt', .refl _ _⟩

/-- `putc` keeps the cursor on the screen and stores to the cells. -/
theorem Inside.putc (h : c.Inside) (ch : UInt8) : c.Keeps (c.putc ch) := by
  have hcell := h.putCell_storesIn ch
  obtain ⟨hx, hx', hy, hy'⟩ := h
  by_cases hnl : ch = 0x0A ∨ ch = 0x0D
  · have hrow := newRow_keeps c hy hy'
    simp only [VideoConsole.putc, if_pos hnl]
    exact ⟨hrow.inside, hrow.stores⟩
  · simp only [VideoConsole.putc, if_neg hnl]
    split
    · have hrow := newRow_keeps { c.putCell ch with screenX := c.screenX + 1 } hy hy'
      exact ⟨hrow.inside, hcell.trans hrow.stores⟩
    · rename_i hlt
      have hlt' : c.screenX + 1 < 80 := Int.not_le.mp hlt
      have hnext : OnScreen (c.screenX + 1) c.screenY := ⟨by omega, hlt', hy, hy'⟩
      exact ⟨hnext, hcell⟩

theorem Inside.puts (h : c.Inside) (s : List UInt8) : c.Keeps (c.puts s) := by
  induction s generalizing c with
  | nil => exact ⟨h, .refl _ _⟩
  | cons ch s ih =>
    have hputc := h.putc ch
    have hrest := ih hputc.inside
    exact ⟨hrest.inside, hputc.stores.trans hrest.stores⟩

/-- `erase_char` does nothing to the position at the upper left. -/
theorem Inside.eraseChar (h : c.Inside) : c.Keeps c.eraseChar := by
  have hback : ∀ c' : VideoConsole, c'.Inside → c'.mem = c.mem → c.Keeps (c'.putCell 0x20) :=
    fun c' hc' hmem => ⟨hc', hmem ▸ hc'.putCell_storesIn 0x20⟩
  obtain ⟨hx, hx', hy, hy'⟩ := h
  unfold VideoConsole.eraseChar
  dsimp only
  split
  · split
    · have hprev : OnScreen 79 (c.screenY - 1) := ⟨by decide, by decide, by omega, by omega⟩
      exact hback _ hprev rfl
    · exact hback c ⟨hx, hx', hy, hy'⟩ rfl
  · have hprev : OnScreen (c.screenX - 1) c.screenY := ⟨by omega, by omega, hy, hy'⟩
    exact hback _ hprev rfl

/-- A string that starts at the upper left. -/
theorem puts_home (c : VideoConsole) (s : List UInt8) :
    c.Keeps ({ c with screenX := 0, screenY := 0 }.puts s) := by
  have hhome : Inside { c with screenX := 0, screenY := 0 } := onScreen_home
  exact ⟨(hhome.puts s).inside, (hhome.puts s).stores⟩

/-- `clear_screen` brings the cursor back from anywhere. -/
theorem clearScreen_keeps (c : VideoConsole) : c.Keeps c.clearScreen := by
  have hprompt := puts_home c.clear (ascii "391OS> ")
  exact ⟨hprompt.inside, c.clear_storesIn.trans hprompt.stores⟩

end VideoConsole

/-- The copy of a saved screen stores to the page. -/
theorem showLoop_storesIn (vidBuf : Bytes) {n i : ℕ} (h : i + n ≤ 4096) (m : Memory UInt8) :
    Memory.StoresIn videoPage m (showLoop vidBuf n i m) := by
  induction n generalizing i m with
  | zero => exact .refl _ m
  | succ n ih =>
    have hi : 0xB8000 + i ∈ videoPage := ⟨by omega, by omega⟩
    have hstore := (Memory.StoresIn.refl _ m).store hi (vidBuf i)
    rw [showLoop]
    split
    · exact hstore
    · exact hstore.trans (ih (by omega) _)

namespace Screens

/-- **Every cursor is on the screen**, the live one and the three that are
put away. -/
structure Inside (s : Screens) : Prop where
  live : s.live.Inside
  saved : ∀ t, OnScreen (s.saved t).cursorX (s.saved t).cursorY

theorem boot_inside (mem : Memory UInt8) (cursorLoc : ℕ) (vidBuf : Fin 3 → Bytes) :
    (boot mem cursorLoc vidBuf).Inside :=
  ⟨onScreen_home, fun _ => onScreen_home⟩

/-- **A switch shows a cursor that was saved on the screen**, and stores to
the page. -/
theorem inside_switchTo {s : Screens} (h : s.Inside) (t : Fin 3) :
    (s.switchTo t).Inside ∧ Memory.StoresIn videoPage s.live.mem (s.switchTo t).live.mem := by
  have hsaved : ∀ u, OnScreen ((s.switchTo t).saved u).cursorX
      ((s.switchTo t).saved u).cursorY := by
    intro u
    show OnScreen (ite _ _ _ : SavedScreen).cursorX (ite _ _ _ : SavedScreen).cursorY
    split
    · exact h.live
    · exact h.saved u
  have hclear := s.live.clearScreen_keeps.stores.mono screenCells_subset
  exact ⟨⟨hsaved t, hsaved⟩, hclear.trans (showLoop_storesIn _ (by decide) _)⟩

/-- **Every operation keeps the cursors on the screen** and stores to the
page. -/
theorem inside_op {s : Screens} (h : s.Inside) (o : ScreenOp) :
    (s.op o).Inside ∧ Memory.StoresIn videoPage s.live.mem (s.op o).live.mem := by
  have hlive : ∀ c, s.live.Keeps c →
      Inside { s with live := c } ∧ Memory.StoresIn videoPage s.live.mem c.mem :=
    fun c hc => ⟨⟨hc.inside, h.saved⟩, hc.stores.mono screenCells_subset⟩
  cases o with
  | putc ch => exact hlive _ (h.live.putc ch)
  | puts str => exact hlive _ (h.live.puts str)
  | eraseChar => exact hlive _ h.live.eraseChar
  | clearScreen => exact hlive _ s.live.clearScreen_keeps
  | switchTo t => exact inside_switchTo h t

theorem inside_foldl {s : Screens} (h : s.Inside) (os : List ScreenOp) :
    (os.foldl op s).Inside ∧ Memory.StoresIn videoPage s.live.mem (os.foldl op s).live.mem := by
  induction os generalizing s with
  | nil => exact ⟨h, .refl _ _⟩
  | cons o os ih =>
    obtain ⟨hinside, hstores⟩ := inside_op h o
    obtain ⟨hinside', hstores'⟩ := ih hinside
    exact ⟨hinside', hstores.trans hstores'⟩

/-- **The console never leaves its memory**: after any sequence of
operations from boot every cursor is on the screen, the stores so far have
gone to the page of video memory, and `putc`, `erase_char` and `scroll`
would store to its cells. -/
theorem console_in_memory (mem : Memory UInt8) (cursorLoc : ℕ) (vidBuf : Fin 3 → Bytes)
    (os : List ScreenOp) :
    (os.foldl op (boot mem cursorLoc vidBuf)).Inside
      ∧ Memory.StoresIn videoPage mem (os.foldl op (boot mem cursorLoc vidBuf)).live.mem
      ∧ (∀ ch, Memory.StoresIn screenCells (os.foldl op (boot mem cursorLoc vidBuf)).live.mem
          ((os.foldl op (boot mem cursorLoc vidBuf)).live.putc ch).mem)
      ∧ Memory.StoresIn screenCells (os.foldl op (boot mem cursorLoc vidBuf)).live.mem
          (os.foldl op (boot mem cursorLoc vidBuf)).live.eraseChar.mem
      ∧ ∀ c : VideoConsole, Memory.StoresIn screenCells c.mem c.scroll.mem := by
  obtain ⟨hinside, hstores⟩ := inside_foldl (boot_inside mem cursorLoc vidBuf) os
  exact ⟨hinside, hstores, fun ch => (hinside.live.putc ch).stores,
    hinside.live.eraseChar.stores, VideoConsole.scroll_storesIn⟩

end Screens

/-! ## The levels agree -/

/-- **The console in memory is the console** of `Console.lean`. -/
structure Agrees (c : VideoConsole) (d : Console) : Prop where
  x : c.screenX = d.screenX
  y : c.screenY = d.screenY
  mem : ∀ j, c.mem.cells (0xB8000 + j) = d.videoMem j
  loc : c.cursorLoc = d.cursorLoc

/-- A saved screen is that of a terminal. -/
structure SavedScreen.Agrees (t : SavedScreen) (u : Term) : Prop where
  x : t.cursorX = u.cursorX
  y : t.cursorY = u.cursorY
  vidBuf : t.vidBuf = u.vidBuf

namespace Agrees

variable {c : VideoConsole} {d : Console}

theorem putCell (h : Agrees c d) (hc : c.Inside) (ch : UInt8) :
    Agrees (c.putCell ch) (d.putCell ch) := by
  obtain ⟨haddr, hlt⟩ := hc.cellAddr_eq
  have hcell : c.cellAddr = 0xB8000 + 2 * (80 * d.screenY + d.screenX) := by
    have hx := h.x
    have hy := h.y
    omega
  have hnext : u32 ((c.cellAddr : ℤ) + 1) = c.cellAddr + 1 :=
    u32_natCast (n := c.cellAddr + 1) (by have hx := h.x; have hy := h.y; omega)
  refine ⟨h.x, h.y, fun j => ?_, h.loc⟩
  simp only [VideoConsole.putCell, hnext, Memory.store_cells, Console.putCell]
  rw [hcell, Function.update_apply, Function.update_apply, ← h.mem]
  by_cases h₀ : j = 2 * (80 * d.screenY + d.screenX)
  · rw [if_pos h₀, if_neg (by omega), if_pos (by omega)]
  by_cases h₁ : j = 2 * (80 * d.screenY + d.screenX) + 1
  · rw [if_neg h₀, if_pos h₁, if_pos (by omega)]
  · rw [if_neg h₀, if_neg h₁, if_neg (by omega), if_neg (by omega)]

/-- The move and the fill of `scroll` are the scroll of the console. -/
theorem scroll (h : Agrees c d) : Agrees c.scroll d.scroll := by
  refine ⟨h.x, h.y, fun j => ?_, h.loc⟩
  rw [VideoConsole.scroll_mem, Memory.write_cells, memmove_cells (by decide) (by decide)]
  simp only [Console.scroll, ← h.mem]
  by_cases hrow : j < 3840
  · rw [if_pos hrow, Buffer.copy_of_lt (by omega), Buffer.copy_of_mem (by omega) (by omega),
      Buffer.drop_apply]
    exact congrArg _ (by omega)
  · rw [if_neg hrow]
    by_cases hcells : j < 4000
    · rw [if_pos hcells, Buffer.copy_of_mem (by omega) (by omega), wordCells]
      exact if_congr (by omega) rfl rfl
    · rw [if_neg hcells, Buffer.copy_of_le (by omega), Buffer.copy_of_le (by omega)]

/-- A cursor that is moved on both levels. -/
theorem move (h : Agrees c d) {x y : ℤ} {x' y' : ℕ} (hx : x = x') (hy : y = y') :
    Agrees (c.setScreenXY x y) (d.setScreenXY x' y') := ⟨hx, hy, h.mem, h.loc⟩

theorem newRow (h : Agrees c d) : Agrees c.newRow d.newRow := by
  have hy := h.y
  have hrow := h.move (show (0 : ℤ) = (0 : ℕ) from rfl)
    (show c.screenY + 1 = (d.screenY + 1 : ℕ) by omega)
  unfold VideoConsole.newRow Console.newRow
  dsimp only
  by_cases hlast : 25 ≤ c.screenY + 1
  · rw [if_pos hlast, if_pos (by omega)]
    exact ⟨rfl, rfl, hrow.scroll.mem, h.loc⟩
  · rw [if_neg hlast, if_neg (by omega)]
    exact hrow

/-- The location registers hold 16 bits. -/
theorem setCursorLoc (h : Agrees c d) {l : ℤ} {l' : ℕ} (hl : l = l') :
    Agrees (c.setCursorLoc l) (d.setCursorLoc l') := by
  refine ⟨h.x, h.y, h.mem, ?_⟩
  show unsigned 16 l = l' % 65536
  rw [hl, unsigned]
  omega

/-- **`putc` at the two levels.** -/
theorem putc (h : Agrees c d) (hc : c.Inside) (ch : UInt8) :
    Agrees (c.putc ch) (d.putc ch) := by
  have hsync : ∀ {c' d'}, Agrees c' d' →
      Agrees (c'.setCursorLoc c'.getScreenLoc) (d'.setCursorLoc d'.getScreenLoc) := by
    intro c' d' h'
    refine h'.setCursorLoc ?_
    rw [VideoConsole.getScreenLoc, Console.getScreenLoc, h'.x, h'.y]
    omega
  by_cases hnl : ch = 0x0A ∨ ch = 0x0D
  · simp only [VideoConsole.putc, Console.putc, if_pos hnl]
    exact hsync h.newRow
  · simp only [VideoConsole.putc, Console.putc, if_neg hnl]
    have hx := h.x
    have hnext : Agrees { c.putCell ch with screenX := c.screenX + 1 }
        { d.putCell ch with screenX := d.screenX + 1 } :=
      (h.putCell hc ch).move (show c.screenX + 1 = (d.screenX + 1 : ℕ) by omega) h.y
    by_cases hlast : 80 ≤ c.screenX + 1
    · rw [if_pos (show 80 ≤ (c.putCell ch).screenX + 1 from hlast),
        if_pos (show 80 ≤ (d.putCell ch).screenX + 1 from by show 80 ≤ d.screenX + 1; omega)]
      exact hsync hnext.newRow
    · rw [if_neg (show ¬80 ≤ (c.putCell ch).screenX + 1 from hlast),
        if_neg (show ¬80 ≤ (d.putCell ch).screenX + 1 from by
          show ¬80 ≤ d.screenX + 1; omega)]
      exact hsync hnext

theorem puts (h : Agrees c d) (hc : c.Inside) (s : List UInt8) :
    Agrees (c.puts s) (d.puts s) := by
  induction s generalizing c d with
  | nil => exact h
  | cons ch s ih => exact ih (h.putc hc ch) (hc.putc ch).inside

theorem eraseChar (h : Agrees c d) (hc : c.Inside) : Agrees c.eraseChar d.eraseChar := by
  have hx := h.x
  have hy := h.y
  have hback : ∀ {x y : ℤ} {x' y' : ℕ}, x = x' → y = y' → OnScreen x y →
      Agrees ((c.setScreenXY x y).putCell 0x20) ((d.setScreenXY x' y').putCell 0x20) :=
    fun hx' hy' hxy => (h.move hx' hy').putCell hxy 0x20
  obtain ⟨hx₀, hx₁, hy₀, hy₁⟩ := hc
  unfold VideoConsole.eraseChar Console.eraseChar
  dsimp only
  by_cases hleft : c.screenX = 0
  · rw [if_pos hleft, if_pos (show d.screenX = 0 by omega)]
    by_cases htop : 0 < c.screenY
    · rw [if_pos htop, if_pos (show 0 < d.screenY by omega)]
      exact hback rfl (by omega) ⟨by decide, by decide, by omega, by omega⟩
    · rw [if_neg htop, if_neg (show ¬0 < d.screenY by omega)]
      exact hback h.x h.y ⟨hx₀, hx₁, hy₀, hy₁⟩
  · rw [if_neg hleft, if_neg (show ¬d.screenX = 0 by omega)]
    exact hback (by omega) h.y ⟨by omega, by omega, hy₀, hy₁⟩

theorem clear (h : Agrees c d) : Agrees c.clear d.clear := by
  refine ⟨by simp only [VideoConsole.clear, Console.clear, h.x],
    by simp only [VideoConsole.clear, Console.clear, h.y], fun j => ?_,
    by simp only [VideoConsole.clear, Console.clear, h.loc]⟩
  rw [VideoConsole.clear_mem, Memory.write_cells]
  simp only [Console.clear, ← h.mem]
  by_cases hcells : j < 4000
  · rw [if_pos hcells, Buffer.copy_of_mem (by omega) (by omega), wordCells]
    exact if_congr (by omega) rfl rfl
  · rw [if_neg hcells, Buffer.copy_of_le (by omega)]

/-- **`clear_screen` at the two levels.** -/
theorem clearScreen (h : Agrees c d) : Agrees c.clearScreen d.clearScreen :=
  have hhome : (0 : ℤ) = (0 : ℕ) := rfl
  (h.clear.move hhome hhome).puts onScreen_home (ascii "391OS> ")

/-- The copy of a saved screen ends with its first NUL byte. -/
theorem showLoop_cells (vidBuf : Bytes) (n i : ℕ) (m : Memory UInt8) (j : ℕ) :
    (showLoop vidBuf n i m).cells (0xB8000 + j)
      = if i ≤ j ∧ j < i + n ∧ j ≤ Scan.scan (fun l => vidBuf l == 0) i n then vidBuf j
        else m.cells (0xB8000 + j) := by
  induction n generalizing i m with
  | zero => rw [showLoop, if_neg (by omega)]
  | succ n ih =>
    have hstore : (m.store (0xB8000 + i) (vidBuf i)).cells (0xB8000 + j)
        = if j = i then vidBuf i else m.cells (0xB8000 + j) := by
      rw [Memory.store_cells, Function.update_apply]
      exact if_congr (by omega) rfl rfl
    rw [showLoop]
    by_cases hnul : vidBuf i = 0
    · have hscan : Scan.scan (fun l => vidBuf l == 0) i (n + 1) = i := by
        simp [Scan.scan, hnul]
      rw [if_pos hnul, hstore, hscan]
      by_cases hj : j = i
      · rw [if_pos hj, if_pos (show i ≤ j ∧ j < i + (n + 1) ∧ j ≤ i by omega), hj]
      · rw [if_neg hj, if_neg (show ¬(i ≤ j ∧ j < i + (n + 1) ∧ j ≤ i) by omega)]
    · have hscan : Scan.scan (fun l => vidBuf l == 0) i (n + 1)
          = Scan.scan (fun l => vidBuf l == 0) (i + 1) n := by
        simp [Scan.scan, hnul]
      have hle := Scan.le_scan (fun l => vidBuf l == 0) (i + 1) n
      have hle' := Scan.scan_le (fun l => vidBuf l == 0) (i + 1) n
      rw [if_neg hnul, ih, hstore, hscan]
      generalize Scan.scan (fun l => vidBuf l == 0) (i + 1) n = stop at hle hle'
      by_cases hj : j = i
      · rw [if_neg (show ¬(i + 1 ≤ j ∧ _) by omega), if_pos hj,
          if_pos (show i ≤ j ∧ j < i + (n + 1) ∧ j ≤ stop by omega), hj]
      · rw [if_neg hj]
        exact if_congr (by omega) rfl rfl

/-- **`save_term` at the two levels.** -/
theorem saveTerm (h : Agrees c d) {t : SavedScreen} {u : Term} (ht : t.Agrees u) :
    (t.saveTerm c).Agrees (KernelDesign.saveTerm u d) := by
  refine ⟨h.x, h.y, ?_⟩
  simp only [SavedScreen.saveTerm, KernelDesign.saveTerm, h.mem, ht.vidBuf]

/-- **`switch_term` at the two levels.** -/
theorem switchTerm (h : Agrees c d) {t : SavedScreen} {u : Term} (ht : t.Agrees u) :
    Agrees (t.switchTerm c) (KernelDesign.switchTerm u d).2 := by
  have hx := ht.x
  have hy := ht.y
  have hcleared := (h.clearScreen.move hx hy).setCursorLoc
    (show t.cursorX + t.cursorY * 80 = (u.cursorX + u.cursorY * 80 : ℕ) by omega)
  refine ⟨hx, hy, fun j => ?_, hcleared.loc⟩
  show (showLoop t.vidBuf 4096 0 _).cells (0xB8000 + j) = ite _ _ _
  rw [showLoop_cells, ht.vidBuf]
  exact if_congr (by simp only [Nat.zero_le, Nat.zero_add, true_and]) rfl (hcleared.mem j)

end Agrees

/-- What an operation does to the kernel. -/
def Kernel.screenOp (k : Kernel) : ScreenOp → Kernel
  | .putc ch => { k with console := k.console.putc ch }
  | .puts str => { k with console := k.console.puts str }
  | .eraseChar => { k with console := k.console.eraseChar }
  | .clearScreen => { k with console := k.console.clearScreen }
  | .switchTo t => k.switchTo t

namespace Screens

/-- **The screens are those of the kernel.** -/
structure Agrees (s : Screens) (k : Kernel) : Prop where
  live : KernelDesign.Agrees s.live k.console
  termFlag : s.termFlag = k.termFlag
  saved : ∀ t, (s.saved t).Agrees (k.termArr t)

variable {s : Screens} {k : Kernel}

/-- **A terminal switch at the two levels.** -/
theorem Agrees.switchTo (h : s.Agrees k) (t : Fin 3) :
    (s.switchTo t).Agrees (k.switchTo t) := by
  have hsaved : ∀ u, ((s.switchTo t).saved u).Agrees
      ((k.setTerm k.termFlag (fun u => saveTerm u k.console)).termArr u) := by
    intro u
    show (ite _ _ _ : SavedScreen).Agrees (ite _ _ _)
    rw [h.termFlag]
    split
    · exact h.live.saveTerm (h.saved u)
    · exact h.saved u
  refine ⟨h.live.switchTerm (hsaved t), rfl, fun u => ?_⟩
  -- The terminal that is shown is marked as activated, which no saved screen records.
  show ((s.switchTo t).saved u).Agrees (ite _ _ _)
  split
  · rename_i hu
    have hut := hsaved t
    rw [hu]
    exact ⟨hut.x, hut.y, hut.vidBuf⟩
  · exact hsaved u

/-- **Every operation at the two levels**, the cursors being on the
screen. -/
theorem agrees_op (h : s.Agrees k) (hs : s.Inside) (o : ScreenOp) :
    (s.op o).Agrees (k.screenOp o) := by
  cases o with
  | putc ch => exact ⟨h.live.putc hs.live ch, h.termFlag, h.saved⟩
  | puts str => exact ⟨h.live.puts hs.live str, h.termFlag, h.saved⟩
  | eraseChar => exact ⟨h.live.eraseChar hs.live, h.termFlag, h.saved⟩
  | clearScreen => exact ⟨h.live.clearScreen, h.termFlag, h.saved⟩
  | switchTo t => exact h.switchTo t

/-- **The console of the kernel is the console in memory**, after every
sequence of operations. -/
theorem agrees_run (h : s.Agrees k) (hs : s.Inside) (os : List ScreenOp) :
    (os.foldl op s).Agrees (os.foldl Kernel.screenOp k) := by
  induction os generalizing s k with
  | nil => exact h
  | cons o os ih => exact ih (agrees_op h hs o) (inside_op hs o).1

end Screens

end KernelDesign
