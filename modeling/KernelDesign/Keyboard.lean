import KernelDesign.Terminal

/-!
# The keyboard driver

`dev_kbd.c`: the decoder, the line discipline and the interrupt handler.
Everything here works on the terminal on display, the one `term_flag`
names; Alt with F1, F2 or F3 changes which one that is in the middle of
the decoder.
-/

namespace KernelDesign

/-- The four character tables are one layout: their rows of digits and
letters differ and the rest is common. -/
def charTable (digits top home bottom : String) : List UInt8 :=
  [0, 27] ++ ascii digits ++ [8, 9] ++ ascii top ++ [10, 0] ++ ascii home ++ [0]
    ++ ascii bottom ++ [0, 42, 0, 32, 0, 0, 0, 0, 1, 1, 1, 1, 1, 1, 1, 1, 1, 1, 1,
      1, 45, 1, 1, 1, 43, 1, 1, 1, 1, 1, 1, 1, 1, 1, 1, 1]

/-- `lower_char_table`. -/
def lowerCharTable : List UInt8 :=
  charTable "1234567890-=" "qwertyuiop[]" "asdfghjkl;'`" "\\zxcvbnm,./"

/-- `upper_char_table`. -/
def upperCharTable : List UInt8 :=
  charTable "1234567890-=" "QWERTYUIOP[]" "ASDFGHJKL;'`" "\\ZXCVBNM,./"

/-- `lowshift_char_table`. -/
def lowshiftCharTable : List UInt8 :=
  charTable "!@#$%^&*()_+" "qwertyuiop\x7b\x7d" "asdfghjkl:\"~" "|zxcvbnm<>?"

/-- `upshift_char_table`. -/
def upshiftCharTable : List UInt8 :=
  charTable "!@#$%^&*()_+" "QWERTYUIOP\x7b\x7d" "ASDFGHJKL:\"~" "|ZXCVBNM<>?"

namespace Kernel

/-- **A terminal switch**: `save_term`, `switch_term` and `map_term` on the
way from the terminal on display to `t`. -/
def switchTo (k : Kernel) (t : Fin 3) : Kernel :=
  let old := k.termFlag
  let k := k.setTerm old (fun u => saveTerm u k.console)
  let r := switchTerm (k.termArr t) k.console
  let k := { k.setTerm t (fun _ => r.1) with termFlag := t, console := r.2 }
  { k with paging := k.paging.mapTerm t old (k.termArr old).vidBuf }

/-- The modifier half of `scancode_decoder`. -/
def modifiers (k : Kernel) (sc : UInt8) : Kernel :=
  { k with
    ctrlFlag := if sc = 0x1D then true else if sc = 0x9D then false else k.ctrlFlag
    altFlag := if sc = 0x38 then true else if sc = 0xB8 then false else k.altFlag
    shiftFlag :=
      if sc = 0x2A ∨ sc = 0x36 then true
      else if sc = 0xAA ∨ sc = 0xB6 then false
      else k.shiftFlag
    capsFlag := if sc = 0x3A then !k.capsFlag else k.capsFlag }

/-- The terminal switch of `scancode_decoder`: Alt with F1, F2 or F3, when
another terminal is on display. -/
def switchKey (k : Kernel) (sc : UInt8) : Kernel :=
  if k.termFlag ≠ 0 ∧ k.altFlag ∧ sc = 0x3B then k.switchTo 0
  else if k.termFlag ≠ 1 ∧ k.altFlag ∧ sc = 0x3C then k.switchTo 1
  else if k.termFlag ≠ 2 ∧ k.altFlag ∧ sc = 0x3D then k.switchTo 2
  else k

/-- The character of a scancode under the modifier flags. -/
def decodeChar (k : Kernel) (sc : UInt8) : UInt8 :=
  if sc.toNat < 128 then
    (if !k.shiftFlag && !k.capsFlag then lowerCharTable
      else if k.shiftFlag && !k.capsFlag then upshiftCharTable
      else if !k.shiftFlag && k.capsFlag then upperCharTable
      else lowshiftCharTable).getD sc.toNat 0
  else 0

/-- **`scancode_decoder`**. -/
def scancodeDecoder (k : Kernel) (sc : UInt8) : UInt8 × Kernel :=
  let k := (k.modifiers sc).switchKey sc
  (k.decodeChar sc, k)

/-- `set_cursor_loc((uint16_t)get_screen_loc())`. -/
def syncCursor (k : Kernel) : Kernel :=
  { k with console := k.console.setCursorLoc k.console.getScreenLoc }

/-- Store a byte in the line buffer of the terminal on display. -/
def setLineByte (t : Term) (i : ℕ) (c : UInt8) : Term :=
  { t with kbdLineBuf := fun j => if j = i then c else t.kbdLineBuf j }

/-- **`remove_op`**. -/
def removeOp (k : Kernel) : Kernel :=
  let k := k.setTerm k.termFlag (fun t => { t with kbdReady := false })
  if 0 < k.term.kbdLineCnt then
    let k := k.setTerm k.termFlag (fun t =>
      setLineByte { t with kbdLineCnt := t.kbdLineCnt - 1 } (t.kbdLineCnt - 1) 0x0A)
    { k with console := k.console.eraseChar }.syncCursor
  else k

/-- The terminal after Enter: the pending characters and the newline go to
the output buffer, and the line buffer is cleared. -/
def commitLine (t : Term) : Term :=
  let t := setLineByte t t.kbdLineCnt 0x0A
  { t with
    kbdOutBuf := t.kbdOutBuf.copy 0 t.kbdLineBuf 128
    kbdReady := true
    kbdLineBuf := t.kbdLineBuf.fill 0 128
    kbdLineCnt := 0 }

/-- **`insert_op`**. -/
def insertOp (k : Kernel) (c : UInt8) : Kernel :=
  if 127 ≤ k.term.kbdLineCnt ∧ c ≠ 0x0A then
    k.setTerm k.termFlag (fun t => setLineByte t 127 0x0A)
  else if c = 0x09 ∨ c = 0 then k
  else if c = 0x0A then
    let k := k.setTerm k.termFlag commitLine
    { k with console := k.console.putc c }.syncCursor
  else
    let k := k.setTerm k.termFlag (fun t =>
      setLineByte { t with kbdReady := false, kbdLineCnt := t.kbdLineCnt + 1 }
        t.kbdLineCnt c)
    { k with console := k.console.putc c }.syncCursor

/-- **`kbd_intr_handler`** for the scancode read from the data port. -/
def kbdIntrHandler (k : Kernel) (sc : UInt8) : Kernel :=
  let r := k.scancodeDecoder sc
  let c := r.1
  let k := r.2
  if k.ctrlFlag then
    if c = 0x4C ∨ c = 0x6C then
      { k with console := k.console.clearScreen.setCursorLoc 0 }
    else k
  else
    let k :=
      if c = 0x08 then k.removeOp
      else if c ≠ 0 ∧ c ≠ 1 then k.insertOp c
      else if c = 1 then
        { k with console := k.console.puts (ascii "Key Code Not Supported\n391OS> ") }
      else k
    k.syncCursor

end Kernel

end KernelDesign
