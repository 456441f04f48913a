import KernelDesign.State

/-!
# The terminal driver

`dev_term.c`: the two halves of a terminal switch and the two operations
behind descriptors 0 and 1. A system call that does not come back – it
spins until a line is ready, or it calls through a null table, or a scan
leaves its buffer – ends in a `Trap`.
-/

namespace KernelDesign

/-- **Why a system call does not come back.** -/
inductive Trap
  /-- `term_read` is waiting for a line. -/
  | wait
  /-- A scan has left the buffer it walks. -/
  | overrun
  /-- A call through a null jump table. -/
  | nullCall
  /-- A store to an address that is not mapped. -/
  | pageFault
  /-- A store over what the kernel needs to come back from the call. -/
  | overwritten
  deriving DecidableEq

/-- What a system call returns and leaves behind. -/
structure SysResult where
  ret : ℤ
  buf : Option Bytes
  kernel : Kernel

/-- **`save_term`**: the cursor and the screen, whose copy ends with the
first NUL byte. -/
def saveTerm (t : Term) (c : Console) : Term :=
  let stop := Scan.scan (fun i => c.videoMem i == 0) 0 4096
  { t with
    cursorX := c.screenX
    cursorY := c.screenY
    vidBuf := fun j =>
      if j < 4096 then (if j ≤ stop then c.videoMem j else 0) else t.vidBuf j }

/-- **`switch_term`**: a cleared screen, the saved cursor, and the saved
screen up to its first NUL byte. -/
def switchTerm (t : Term) (c : Console) : Term × Console :=
  let c := c.clearScreen
  let t := { t with activated := true }
  let c := c.setScreenXY t.cursorX t.cursorY
  let c := c.setCursorLoc (t.cursorX + t.cursorY * 80)
  let stop := Scan.scan (fun i => t.vidBuf i == 0) 0 4096
  (t, { c with videoMem := fun j =>
    if j < 4096 ∧ j ≤ stop then t.vidBuf j else c.videoMem j })

/-- The line `term_read` finds in an output buffer: the index of its
newline. -/
def lineLength (out : Bytes) : ℕ := Scan.scan (fun i => out i == 0x0A) 0 128

/-- **`term_read`**, once: it waits if no line is ready. The clear is of
`KBD_BUF_SIZE` bytes and the copy of the whole line, whatever the
request. -/
def termRead (k : Kernel) (buf : Option Bytes) (nbytes : ℤ) :
    Except Trap SysResult :=
  match buf with
  | none => .ok ⟨-1, none, k⟩
  | some b =>
    if nbytes < 0 then .ok ⟨-1, some b, k⟩
    else if k.term.kbdReady = false then .error .wait
    else
      let k := k.setTerm k.termFlag (fun t => { t with kbdReady := false })
      let out := k.term.kbdOutBuf
      let i := lineLength out
      if i = 128 then .error .overrun
      else .ok ⟨i, some ((b.fill 0 128).copy 0 out i), k⟩

/-- The loop of `term_write` at index `i`; it tests the bound after the
body. -/
def termWriteLoop (buf : Bytes) (nbytes : ℤ) : ℕ → ℕ → Console → ℕ × Console
  | 0, i, c => (i, c)
  | fuel + 1, i, c =>
    if buf i = 0 then (i, c)
    else if ((i + 1 : ℕ) : ℤ) < nbytes then
      termWriteLoop buf nbytes fuel (i + 1) (c.putc (buf i))
    else (i + 1, c.putc (buf i))

/-- **`term_write`**. -/
def termWrite (k : Kernel) (buf : Option Bytes) (nbytes : ℤ) : SysResult :=
  match buf with
  | none => ⟨-1, none, k⟩
  | some b =>
    if nbytes < 0 then ⟨-1, some b, k⟩
    else
      let r := termWriteLoop b nbytes (nbytes.toNat + 1) 0 k.console
      ⟨r.1, some b, { k with console := r.2 }⟩

end KernelDesign
