import KernelDesign.Keyboard

/-!
# The system calls

`syscalls.c` with the operations its jump tables dispatch to. A system
call works on the control block `get_pcb` finds, whose address is an
argument here. `execute` and `halt` do not return to their caller in the
ordinary way: `execute` ends in the new program, or in a failure exit, and
`halt` continues in the frame of a call of `execute`, so each has a result
type of its own.

What an uninitialised local or a word past the end of one holds is not
determined by the source. Such words are arguments (`stack`, `Stale`), and
the statements quantify over them.
-/

namespace KernelDesign

open Words

/-- The slot of a descriptor in range. -/
def fdIndex (fd : ℤ) : Fin 8 := Fin.ofNat 8 fd.toNat

/-- The contents of a free slot. -/
def FileDes.free : FileDes := ⟨.null, 0, 0, 0⟩

/-- Change one slot of a descriptor table. -/
def Pcb.setFile (p : Pcb) (i : Fin 8) (d : FileDes) : Pcb :=
  { p with fileArray := fun j => if j = i then d else p.fileArray j }

/-! ## Descriptors -/

/-- The first free slot of 2 to 7, which the loop of `open` looks for. -/
def Pcb.freeSlot (p : Pcb) : Option (Fin 8) :=
  (List.finRange 8).find? (fun i => 2 ≤ i.val ∧ (p.fileArray i).inUseFlag = 0)

/-- What `open` installs for an entry, by its type. -/
def Dentry.fileDes (d : Dentry) : Option FileDes :=
  match d.filetype with
  | 0 => some ⟨.rtc, 0, 0, 1⟩
  | 1 => some ⟨.dir, 0, 0, 1⟩
  | 2 => some ⟨.file, i32 d.inode, 0, 1⟩
  | _ => none

/-- **`open`**. -/
def sysOpen (k : Kernel) (pcb : ℕ) (filename : Option Bytes) : ℤ × Kernel :=
  let l := readDentryByName k.fs filename (some unsetDentry)
  if l.ret = -1 then (-1, k)
  else match (k.pcb pcb).freeSlot with
    | none => (-1, k)
    | some i =>
      (i.val, k.setPcb pcb (fun p =>
        let p := { p with programCounter := i32 (p.programCounter + 1) }
        match (l.dentry.getD unsetDentry).fileDes with
        | some d => p.setFile i d
        | none => p))

/-- **`close`**. -/
def sysClose (k : Kernel) (pcb : ℕ) (fd : ℤ) : ℤ × Kernel :=
  if fd < 2 ∨ 7 < fd then (-1, k)
  else if ((k.pcb pcb).fileArray (fdIndex fd)).inUseFlag ≠ 1 then (-1, k)
  else (0, k.setPcb pcb (fun p =>
    { p with programCounter := i32 (p.programCounter - 1) }.setFile (fdIndex fd) .free))

/-- **`fs_file_read`**: read at the offset of the descriptor and move it
by whatever `read_data` returned. -/
def fsFileRead (k : Kernel) (pcb : ℕ) (stack : ℕ → ℤ) (i : Fin 8) (buf : Bytes)
    (nbytes : ℤ) : SysResult :=
  let d := (k.pcb pcb).fileArray i
  let r := readData k.fs stack (u32 d.inodeType) (u32 d.offset) (some buf) (u32 nbytes)
  ⟨r.ret, some r.buf,
    k.setPcb pcb (fun p => p.setFile i { d with offset := i32 (d.offset + r.ret) })⟩

/-- **`rtc_write`**: the frequency is computed from the first byte of the
buffer, which is then replaced by the rate. A shift count is taken modulo
32, as the processor does. -/
def rtcWrite (k : Kernel) (buf : Option Bytes) : Except Trap SysResult :=
  match buf with
  | none => .error .pageFault
  | some b =>
    let freq := 32768 >>> (((b 0).toNat + 31) % 32)
    let rate : UInt8 := if freq < 2 then 11 else 15
    let b : Bytes := fun j => if j = 0 then rate else b j
    if freq &&& u32 (freq - 1) ≠ 0 then .ok ⟨-1, some b, k⟩
    else .ok ⟨0, some b, { k with rtcRegA := k.rtcRegA &&& 0xF0 ||| rate.toNat }⟩

/-- **`read`**. The clock's `rtc_read` waits for an interrupt and returns
0. -/
def sysRead (k : Kernel) (pcb : ℕ) (stack : ℕ → ℤ) (fd : ℤ) (buf : Option Bytes)
    (nbytes : ℤ) : Except Trap SysResult :=
  match buf with
  | none => .ok ⟨-1, none, k⟩
  | some b =>
    if nbytes < 0 ∨ fd < 0 ∨ 7 < fd ∨ fd = 1 then .ok ⟨-1, some b, k⟩
    else
      let d := (k.pcb pcb).fileArray (fdIndex fd)
      if d.inUseFlag = 0 then .ok ⟨-1, some b, k⟩
      else match d.fopTable with
        | .file => .ok (fsFileRead k pcb stack (fdIndex fd) b nbytes)
        | .dir =>
          let r := fsDirRead k.fs b nbytes
          .ok ⟨r.ret, some r.buf, { k with fs := r.fs }⟩
        | .rtc => .ok ⟨0, some b, k⟩
        | .stdin => termRead k (some b) nbytes
        | .stdout => .ok ⟨-1, some b, k⟩
        | .null => .error .nullCall

/-- **`write`**. -/
def sysWrite (k : Kernel) (pcb : ℕ) (fd : ℤ) (buf : Option Bytes) (nbytes : ℤ) :
    Except Trap SysResult :=
  if nbytes < 0 ∨ fd < 1 ∨ 7 < fd then .ok ⟨-1, buf, k⟩
  else
    let d := (k.pcb pcb).fileArray (fdIndex fd)
    if d.inUseFlag = 0 then .ok ⟨-1, buf, k⟩
    else match d.fopTable with
      | .file => .ok ⟨-1, buf, k⟩
      | .dir => .ok ⟨-1, buf, k⟩
      | .rtc => rtcWrite k buf
      | .stdin => .ok ⟨-1, buf, k⟩
      | .stdout => .ok (termWrite k buf nbytes)
      | .null => .error .nullCall

/-- **`getargs`**. The clear is of 1 KB, whatever the request. -/
def sysGetargs (k : Kernel) (pcb : ℕ) (buf : Option Bytes) (nbytes : ℤ) : SysResult :=
  match buf with
  | none => ⟨-1, none, k⟩
  | some b =>
    let arg := (k.pcb pcb).arg
    let len := strlen arg 1024
    if nbytes < 0 ∨ nbytes < len + 1 ∨ len = 0 then ⟨-1, some b, k⟩
    else ⟨0, some ((b.fill 0 1024).copy 0 arg len), k⟩

/-- The kernel after `vidmap_helper` and the store of `VID_MEM_INIT` at `p`,
an address of the user page. -/
def Kernel.videoMapped (k : Kernel) (p : ℕ) : Kernel :=
  let f := frameOf (k.paging.pageDirectory 32)
  { k with
    paging := k.paging.vidmapHelper
    userMem := fun g =>
      if g = f then
        (k.userMem g).copy (p - 0x8000000) (fun j => [0, 0, 0x80, 8].getD j 0) 4
      else k.userMem g }

/-- The physical address behind `p`, if the user page is the page of the
kernel. -/
def kernelPageAddr (p : ℕ) : ℕ := 0x400000 + (p - 0x8000000)

/-- **`vidmap`** of the pointer value `p`. The store goes to the user page,
and faults where it leaves it. The user page of process 0 is the page of the
kernel: there the store falls on the kernel's own data, and `spill` is what
it does to these, by its physical address. -/
def sysVidmap (spill : ℕ → Kernel → Except Trap Kernel) (k : Kernel) (p : ℕ) :
    Except Trap (ℤ × Kernel) :=
  if p = 0 ∨ i32 p < 0x8000000 ∨ 0x8400000 < i32 p then .ok (-1, k)
  else if 0x8400000 < p + 4 then .error .pageFault
  else if frameOf (k.paging.pageDirectory 32) = 0x400000 then
    (spill (kernelPageAddr p) (k.videoMapped p)).map (fun k => (0, k))
  else .ok (0, k.videoMapped p)

/-- A store in the page of the kernel that falls on nothing the model keeps
there. -/
def Kernel.noSpill : ℕ → Kernel → Except Trap Kernel := fun _ k => .ok k

/-- `vidmap` of a pointer that keeps clear of the kernel's data. -/
theorem sysVidmap_noSpill (k : Kernel) (p : ℕ) :
    sysVidmap Kernel.noSpill k p
      = if p = 0 ∨ i32 p < 0x8000000 ∨ 0x8400000 < i32 p then .ok (-1, k)
        else if 0x8400000 < p + 4 then .error .pageFault
        else .ok (0, k.videoMapped p) := by
  unfold sysVidmap
  refine if_ctx_congr Iff.rfl (fun _ => rfl) (fun _ => ?_)
  refine if_ctx_congr Iff.rfl (fun _ => rfl) (fun _ => ?_)
  exact ite_eq_right_iff.mpr (fun _ => rfl)

/-! ## `execute` -/

/-- **What the kernel stack holds** where the locals of one call of
`execute` are not initialised: the words above the two copies of the inode
and the bytes of the probe buffer. -/
structure Stale where
  probeStack : ℕ → ℤ
  loadStack : ℕ → ℤ
  probeBuf : Bytes

/-- The three delimiters of a command. -/
def isDelim (c : UInt8) : Bool := c == 0x0A || c == 0x20 || c == 0

/-- The index at which the scan for the file name stops. -/
def fnameLength (command : Bytes) : ℕ :=
  Scan.scan (fun i => isDelim (command i)) 0 128

/-- `exe_fname`: the first word, and the NUL stored after it. The bytes
after that one are not initialised, and no comparison reads them. -/
def exeFname (command : Bytes) : Bytes :=
  fun j => if j < fnameLength command then command j else 0

/-- `exe_args`: the second word, if some process exists. -/
def exeArgs (activeProc : ℤ) (command : Bytes) : Bytes :=
  let i := fnameLength command + 1
  let stop :=
    if activeProc ≠ -1 then Scan.scan (fun i => isDelim (command i)) i (128 - i) else i
  fun j => if j < stop - i then command (i + j) else 0

/-- **The executable check** of `execute`: the directory entry it goes on
with. -/
def execLookup (k : Kernel) (st : Stale) (command : Bytes) : Option Dentry :=
  let l := readDentryByName k.fs (some (exeFname command)) (some unsetDentry)
  if l.ret = -1 then none
  else
    let d := l.dentry.getD unsetDentry
    let r := readData k.fs st.probeStack d.inode 0 (some st.probeBuf) 4
    if r.ret = -1 then none
    else if r.buf 0 ≠ 0x7F ∨ r.buf 1 ≠ 0x45 ∨ r.buf 2 ≠ 0x4C ∨ r.buf 3 ≠ 0x46 then none
    else some d

/-- The three counters go up. -/
def Kernel.countProgram (k : Kernel) : Kernel :=
  { k with
    activeProc := k.activeProc + 1
    processCounter := i8 (k.processCounter + 1) }.setTerm k.termFlag
      (fun t => { t with numProgram := t.numProgram + 1 })

/-- `set_up_program_paging`. -/
def Kernel.setUpProgramPaging (k : Kernel) (processNumber : ℤ) : Kernel :=
  { k with paging := k.paging.setUpProgramPaging processNumber }

/-- The 4 MB frame `f` after a read into it from offset `0x48000` on, with
the value of the read. -/
def Kernel.storeImage (k : Kernel) (f : ℕ) (r : ReadResult) : ℤ × Kernel :=
  (r.ret, { k with
    userMem := fun g =>
      if g = f then fun j => if j < 0x48000 then k.userMem f j else r.buf (j - 0x48000)
      else k.userMem g })

/-- The program load: `EXE_FSIZE` bytes to `0x08048000` of the user
page. -/
def Kernel.loadProgram (k : Kernel) (st : Stale) (d : Dentry) : ℤ × Kernel :=
  let f := frameOf (k.paging.pageDirectory 32)
  k.storeImage f (readData k.fs st.loadStack d.inode 0
    (some ((k.userMem f).drop 0x48000)) 0x400000)

/-- Whether a copy of the program load leaves the user page. The page
behind it is never present, so that copy does not return. -/
def Kernel.loadFaults (k : Kernel) (st : Stale) (d : Dentry) : Bool :=
  let f := frameOf (k.paging.pageDirectory 32)
  let r := readData k.fs st.loadStack d.inode 0 (some ((k.userMem f).drop 0x48000)) 0x400000
  (copies r.log 0).any (fun c => 0x3B8000 < c.1 + c.2)

/-- The descriptor table of a new process. -/
def freshFiles (i : Fin 8) : FileDes :=
  if i = 0 then ⟨.stdin, 0, 0, 1⟩ else if i = 1 then ⟨.stdout, 0, 0, 1⟩ else .free

/-- The control block of the new process, `tss.esp0`, and the terminal's
pointer. The two branches of the source on `term_pcb` both store it as the
parent. -/
def Kernel.createPcb (k : Kernel) (frame : Frame) (args : Bytes) : Kernel :=
  let a := kstackToPcb k.activeProc
  let parent := k.term.termPcb
  let k := k.setTerm k.termFlag (fun t => { t with termPcb := a })
  let k := k.setPcb a (fun p =>
    { p with
      fileArray := freshFiles
      status := 1
      arg := (p.arg.fill 0 1024).copy 0 args (strlen args 128)
      pid := k.activeProc
      parentProcessPtr := parent
      frame := frame })
  { k with esp0 := kstackTop k.activeProc }

/-- **How a call of `execute` ends**: refused before anything is counted,
failed in the program load, gone to the new program, or stopped by a page
fault, of a load that leaves the user page or of a control block outside
the kernel page. -/
inductive ExecResult
  | rejected (k : Kernel)
  | loadFailed (k : Kernel)
  | started (k : Kernel)
  | fault

/-- **`execute`**, called in `frame`. -/
def execute (k : Kernel) (st : Stale) (frame : Frame) (command : Option Bytes) :
    ExecResult :=
  if 6 ≤ k.programs then
    .rejected { k with
      console :=
        k.console.puts (ascii "Exceeded maximum program count, operation denied\n") }
  else match command with
    | none => .rejected k
    | some command =>
      match execLookup k st command with
      | none => .rejected k
      | some d =>
        let args := exeArgs k.activeProc command
        let k := k.countProgram
        let k := k.setUpProgramPaging k.activeProc
        let r := k.loadProgram st d
        if k.loadFaults st d then .fault
        else if r.1 = -1 then .loadFailed r.2
        else if inKernelPage (kstackToPcb k.activeProc) then
          .started (r.2.createPcb frame args)
        else .fault

/-! ## `halt` -/

/-- The loop of `halt` over the descriptors. -/
def closeFiles (k : Kernel) (pcb : ℕ) : Kernel :=
  [2, 3, 4, 5, 6, 7].foldl (fun k fd =>
    if ((k.pcb pcb).fileArray (fdIndex fd)).inUseFlag = 1 then (sysClose k pcb fd).2
    else k) k

/-- `term_arr[term_flag].num_program -= 1`. -/
def Kernel.uncountProgram (k : Kernel) : Kernel :=
  k.setTerm k.termFlag (fun t => { t with numProgram := t.numProgram - 1 })

/-- `halt` counts the terminal on display down and moves the stack and the
user page to the process whose number `active_proc` is. -/
def Kernel.leaveProcess (k : Kernel) : Kernel :=
  let k := k.uncountProgram
  { k with esp0 := kstackTop k.activeProc }.setUpProgramPaging k.activeProc

/-- The last part of `halt`, from the second decrement of `num_program`
on: the frame it jumps to and the kernel there. -/
def haltTail (k : Kernel) (pcb : ℕ) : Frame × Kernel :=
  let k := closeFiles k.leaveProcess pcb
  ((k.pcb pcb).frame, k)

/-- **How a call of `halt` ends**: in the frame of a call of `execute`, in
a new shell, or in a page fault. -/
inductive HaltResult
  | resumed (frame : Frame) (k : Kernel)
  | respawned (k : Kernel)
  | fault

/-- The test of `halt` for starting a new shell, after the counters went
down. -/
def Kernel.restartsShell (k : Kernel) (pcb : ℕ) : Bool :=
  (k.pcb pcb).parentProcessPtr = 0 ∨ k.activeProc = -1 ∨ k.term.numProgram ≤ 1

/-- The first lines of `halt`: two counters go down. -/
def Kernel.uncountProcess (k : Kernel) : Kernel :=
  { k with
    activeProc := k.activeProc - 1
    processCounter := i8 (k.processCounter - 1) }

/-- **`halt`**. Should the shell not start, `halt` goes on with its last
part. -/
def halt (k : Kernel) (st : Stale) (pcb : ℕ) : HaltResult :=
  let k := k.uncountProcess
  if k.restartsShell pcb then
    match execute k.uncountProgram st (.halt pcb) (some (cstring "shell")) with
    | .started k => .respawned k
    | .rejected k => let r := haltTail k pcb; .resumed r.1 r.2
    | .loadFailed k => let r := haltTail k pcb; .resumed r.1 r.2
    | .fault => .fault
  else
    let r := haltTail k pcb
    .resumed r.1 r.2

end KernelDesign
