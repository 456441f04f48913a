import KernelDesign.Library.Transition
import KernelDesign.Syscalls

/-!
# Runs of the machine

The kernel runs one program at a time, and what happens next is decided by
that program and by the keyboard. `Machine` adds to the kernel where
control is (`Mode`) and the list of live processes, which no code reads:
it records, for each process, its number, whose call of `execute` started
it and the terminal on display then. An `Event` is a system call or a
keyboard interrupt; a system call is one step, and so is an interrupt.

When `halt` continues in the frame of a call of `execute`, that call
returns to its own caller. If the caller is the system-call entry, control
is back in the process that made the call. If it is `kbd_init`, the kernel
goes on to wait for interrupts with no process to run. If it is another
`halt`, that `halt` goes on with its last part, which is the step
`resume`.

The buffers of the system calls are values, so they share no byte with the
kernel's data. The pointer of `vidmap` is an address, and the machine takes
it to keep clear of these too.
-/

namespace KernelDesign

open Transition

/-- A live process: its number, the process whose call of `execute`
started it (`none` for a shell the kernel started) and the terminal on
display at that moment. -/
structure Proc where
  num : ℤ
  parent : Option ℤ
  home : Fin 3
  deriving DecidableEq

/-- **Where control is**: before `kbd_init`, in a user process, in a call
of `halt` behind the call of `execute` it made, in the idle loop of
`entry`, or nowhere, after a fault. -/
inductive Mode
  | boot
  | user (proc : ℤ)
  | inHalt (pcb : ℕ)
  | idle
  | stopped
  deriving DecidableEq

/-- **The machine**: the kernel, where control is, and the live processes,
the latest first. -/
structure Machine where
  kernel : Kernel
  mode : Mode
  procs : List Proc

/-- The system calls that leave control where it is. -/
inductive FileCall
  | openFile (filename : Option Bytes)
  | closeFile (fd : ℤ)
  | readFile (stack : ℕ → ℤ) (fd : ℤ) (buf : Option Bytes) (nbytes : ℤ)
  | writeFile (fd : ℤ) (buf : Option Bytes) (nbytes : ℤ)
  | getargs (buf : Option Bytes) (nbytes : ℤ)

/-- **Events**: the boot, a system call of the running process, the
continuation of a `halt`, or a keyboard interrupt. -/
inductive Event
  | boot (st : Stale)
  | execute (st : Stale) (command : Option Bytes)
  | halt (st : Stale) (status : UInt8)
  | resume
  | call (c : FileCall)
  | vidmap (p : ℕ)
  | key (sc : UInt8)

namespace Kernel

/-- A system call on the control block at `pcb`: its value and the kernel
after it. -/
def fileCall (k : Kernel) (pcb : ℕ) : FileCall → Except Trap (ℤ × Kernel)
  | .openFile filename => .ok (sysOpen k pcb filename)
  | .closeFile fd => .ok (sysClose k pcb fd)
  | .readFile stack fd buf nbytes =>
    (sysRead k pcb stack fd buf nbytes).map (fun r => (r.ret, r.kernel))
  | .writeFile fd buf nbytes =>
    (sysWrite k pcb fd buf nbytes).map (fun r => (r.ret, r.kernel))
  | .getargs buf nbytes =>
    let r := sysGetargs k pcb buf nbytes
    .ok (r.ret, r.kernel)

/-- The part of `kbd_init` before its call of `execute`. -/
def kbdInit (k : Kernel) : Kernel :=
  { k with
    termArr := fun t =>
      { k.termArr t with
        kbdLineCnt := 0
        kbdReady := false
        cursorX := 0
        cursorY := 0
        activated := false
        termPcb := 0
        numProgram := 0 } }

/-- The part of `kbd_init` after its call of `execute`. -/
def kbdInitReturn (k : Kernel) : Kernel :=
  { k with
    shiftFlag := false
    capsFlag := false
    altFlag := false
    ctrlFlag := false }.setTerm 0 (fun t => { t with activated := true })

/-- **The kernel as it is loaded**: no process, the counters at their
initial values, the first terminal on display, and no control block
written. -/
structure Booting (k : Kernel) : Prop where
  activeProc : k.activeProc = -1
  processCounter : k.processCounter = 0
  termFlag : k.termFlag = 0
  frames : ∀ a, (k.pcb a).frame = .unset

end Kernel

namespace Machine

/-- The machine before `kbd_init`. -/
def start (k : Kernel) : Machine := ⟨k, .boot, []⟩

/-- **The call of `execute` in `f` returns**: control goes to its
caller. -/
def land (k : Kernel) (f : Frame) (procs : List Proc) : Machine :=
  match f with
  | .unset => ⟨k, .stopped, procs⟩
  | .kbdInit => ⟨k.kbdInitReturn, .idle, procs⟩
  | .syscall p => ⟨k, .user p, procs⟩
  | .halt pcb => ⟨k, .inHalt pcb, procs⟩

/-- A new process takes over. -/
def launch (k : Kernel) (parent : Option ℤ) (procs : List Proc) : Machine :=
  ⟨k, .user k.activeProc, ⟨k.activeProc, parent, k.termFlag⟩ :: procs⟩

/-- No one returns to the boot. -/
@[simp]
theorem land_mode_ne_boot (k : Kernel) (f : Frame) (procs : List Proc) :
    (land k f procs).mode ≠ .boot := by
  cases f with
  | unset | kbdInit | syscall | halt => simp [land]

@[simp]
theorem launch_mode_ne_boot (k : Kernel) (parent : Option ℤ) (procs : List Proc) :
    (launch k parent procs).mode ≠ .boot := by
  simp [launch]

/-- Control returns to a process where the frame is that of its call. -/
@[simp]
theorem land_mode_eq_user {k : Kernel} {f : Frame} {procs : List Proc} {p : ℤ} :
    (land k f procs).mode = .user p ↔ f = .syscall p := by
  cases f with
  | unset | kbdInit | syscall | halt => simp [land]

/-- The live processes without the one numbered `p`. -/
def others (m : Machine) (p : ℤ) : List Proc := m.procs.filter (fun q => q.num ≠ p)

/-- `kbd_init`. -/
def bootStep (m : Machine) (st : Stale) : Machine :=
  match execute m.kernel.kbdInit st .kbdInit (some (cstring "shell")) with
  | .started k => launch k none m.procs
  | .rejected k => land k .kbdInit m.procs
  | .loadFailed k => land k .kbdInit m.procs
  | .fault => ⟨m.kernel.kbdInit, .stopped, m.procs⟩

/-- The system call `execute` of process `p`. -/
def executeStep (m : Machine) (p : ℤ) (st : Stale) (command : Option Bytes) :
    Machine :=
  match execute m.kernel st (.syscall p) command with
  | .started k => launch k (some p) m.procs
  | .rejected k => { m with kernel := k }
  | .loadFailed k => { m with kernel := k }
  | .fault => { m with mode := .stopped }

/-- The system call `halt` of process `p`. -/
def haltStep (m : Machine) (p : ℤ) (st : Stale) : Machine :=
  match halt m.kernel st (getPcb m.kernel.esp0) with
  | .respawned k => launch k none (m.others p)
  | .resumed f k => land k f (m.others p)
  | .fault => { m with mode := .stopped }

/-- The continuation of the `halt` that works on the block at `pcb`. -/
def resumeStep (m : Machine) (pcb : ℕ) : Machine :=
  let r := haltTail m.kernel pcb
  land r.2 r.1 m.procs

/-- A system call that leaves control where it is, or does not return. -/
def callStep (m : Machine) (r : Except Trap (ℤ × Kernel)) : Option Machine :=
  match r with
  | .ok r => some { m with kernel := r.2 }
  | .error .wait => none
  | .error _ => some { m with mode := .stopped }

/-- **A step of the machine**, if the event is possible. -/
def step (m : Machine) : Event → Option Machine
  | .boot st => if m.mode = .boot then some (m.bootStep st) else none
  | .execute st command =>
    match m.mode with
    | .user p => some (m.executeStep p st command)
    | _ => none
  | .halt st _ =>
    match m.mode with
    | .user p => some (m.haltStep p st)
    | _ => none
  | .resume =>
    match m.mode with
    | .inHalt pcb => some (m.resumeStep pcb)
    | _ => none
  | .call c =>
    match m.mode with
    | .user _ => m.callStep (m.kernel.fileCall (getPcb m.kernel.esp0) c)
    | _ => none
  | .vidmap p =>
    match m.mode with
    | .user _ => m.callStep (sysVidmap Kernel.noSpill m.kernel p)
    | _ => none
  | .key sc =>
    if m.mode = .boot then none
    else some { m with kernel := m.kernel.kbdIntrHandler sc }

section

variable {m : Machine} {p : ℤ}

theorem step_execute (hmode : m.mode = .user p) (st : Stale) (command : Option Bytes) :
    step m (.execute st command) = some (m.executeStep p st command) := by
  rw [step, hmode]

theorem step_halt (hmode : m.mode = .user p) (st : Stale) (status : UInt8) :
    step m (.halt st status) = some (m.haltStep p st) := by
  rw [step, hmode]

theorem step_call (hmode : m.mode = .user p) (c : FileCall) :
    step m (.call c) = m.callStep (m.kernel.fileCall (getPcb m.kernel.esp0) c) := by
  rw [step, hmode]

theorem step_vidmap (hmode : m.mode = .user p) (v : ℕ) :
    step m (.vidmap v) = m.callStep (sysVidmap Kernel.noSpill m.kernel v) := by
  rw [step, hmode]

theorem step_key (hmode : m.mode ≠ .boot) (sc : UInt8) :
    step m (.key sc) = some { m with kernel := m.kernel.kbdIntrHandler sc } := by
  rw [step, if_neg hmode]

/-- A user process runs only once the machine has booted. -/
theorem mode_ne_boot (hmode : m.mode = .user p) : m.mode ≠ .boot := by
  rw [hmode]
  exact nofun

end

/-- **What an event does where it is possible.** A system call of the
running process returns or traps. -/
inductive StepCase (m : Machine) : Event → Machine → Prop
  | boot {st : Stale} (hmode : m.mode = .boot) : StepCase m (.boot st) (m.bootStep st)
  | execute {st : Stale} {command : Option Bytes} {p : ℤ} (hmode : m.mode = .user p) :
      StepCase m (.execute st command) (m.executeStep p st command)
  | halt {st : Stale} {status : UInt8} {p : ℤ} (hmode : m.mode = .user p) :
      StepCase m (.halt st status) (m.haltStep p st)
  | resume {pcb : ℕ} (hmode : m.mode = .inHalt pcb) : StepCase m .resume (m.resumeStep pcb)
  | call {c : FileCall} {p : ℤ} {r : ℤ × Kernel} (hmode : m.mode = .user p)
      (hcall : m.kernel.fileCall (getPcb m.kernel.esp0) c = .ok r) :
      StepCase m (.call c) { m with kernel := r.2 }
  | vidmap {v : ℕ} {p : ℤ} {r : ℤ × Kernel} (hmode : m.mode = .user p)
      (hcall : sysVidmap Kernel.noSpill m.kernel v = .ok r) :
      StepCase m (.vidmap v) { m with kernel := r.2 }
  | trap {e : Event} {p : ℤ} (hmode : m.mode = .user p) :
      StepCase m e { m with mode := .stopped }
  | key {sc : UInt8} (hmode : m.mode ≠ .boot) :
      StepCase m (.key sc) { m with kernel := m.kernel.kbdIntrHandler sc }

/-- A system call that has a step has returned or trapped. -/
theorem callStep_cases {m m' : Machine} {r : Except Trap (ℤ × Kernel)}
    (h : m.callStep r = some m') :
    (∃ s, r = .ok s ∧ m' = { m with kernel := s.2 }) ∨ m' = { m with mode := .stopped } := by
  cases r with
  | ok s =>
    cases h
    exact Or.inl ⟨s, rfl, rfl⟩
  | error t =>
    cases t with
    | wait => cases h
    | overrun | nullCall | pageFault | overwritten =>
      cases h
      exact Or.inr rfl

/-- **Every step is one of these.** -/
theorem step_cases {m m' : Machine} {e : Event} (h : step m e = some m') :
    StepCase m e m' := by
  cases e with
  | boot st =>
    rw [step] at h
    split at h
    · rename_i hmode
      cases h
      exact .boot hmode
    · cases h
  | execute st command =>
    rw [step] at h
    split at h
    · rename_i hmode
      cases h
      exact .execute hmode
    · cases h
  | halt st status =>
    rw [step] at h
    split at h
    · rename_i hmode
      cases h
      exact .halt hmode
    · cases h
  | resume =>
    rw [step] at h
    split at h
    · rename_i hmode
      cases h
      exact .resume hmode
    · cases h
  | call c =>
    rw [step] at h
    split at h
    · rename_i hmode
      rcases callStep_cases h with ⟨s, hs, rfl⟩ | rfl
      · exact .call hmode hs
      · exact .trap hmode
    · cases h
  | vidmap v =>
    rw [step] at h
    split at h
    · rename_i hmode
      rcases callStep_cases h with ⟨s, hs, rfl⟩ | rfl
      · exact .vidmap hmode hs
      · exact .trap hmode
    · cases h
  | key sc =>
    rw [step] at h
    split at h
    · cases h
    · rename_i hmode
      cases h
      exact .key hmode

/-- **A step whose calls of `execute` are refused or load completely**: no
call fails in the program load, and a `halt` that calls `execute` gets its
shell. -/
def clean (m : Machine) : Event → Bool
  | .boot st =>
    match execute m.kernel.kbdInit st .kbdInit (some (cstring "shell")) with
    | .loadFailed _ => false
    | _ => true
  | .execute st command =>
    match m.mode with
    | .user p =>
      match execute m.kernel st (.syscall p) command with
      | .loadFailed _ => false
      | _ => true
    | _ => true
  | .halt st _ =>
    let pcb := getPcb m.kernel.esp0
    match halt m.kernel st pcb with
    | .resumed _ _ => !m.kernel.uncountProcess.restartsShell pcb
    | _ => true
  | _ => true

/-- **A machine is reached cleanly** by a run from the kernel as it is
loaded, every step of which is clean. -/
def CleanReached (m : Machine) : Prop :=
  ∃ k es, k.Booting ∧ run (guarded clean step) (start k) es = some m

end Machine

/-! ## A machine to run

An image with two programs: `shell`, whose four bytes are the mark of an
executable, and `broken`, of 8192 bytes, which opens with the same block
and whose second block number is 9 where the image has one data block. -/

/-- The bytes of the image from its inodes on. -/
def twoPrograms : Bytes := fun a =>
  if a = 0 then 4
  else if a = 4097 then 0x20
  else if a = 4104 then 9
  else if a = 8192 then 0x7F
  else if a = 8193 then 0x45
  else if a = 8194 then 0x4C
  else if a = 8195 then 0x46
  else 0

/-- The file system on that image, as `fs_init` leaves it. -/
def twoProgramsFs : FileSystem :=
  { bootBlock := ⟨2, 2, 1, fun i =>
      if i = 0 then ⟨fun j => cstring "shell" j, 2, 0⟩
      else if i = 1 then ⟨fun j => cstring "broken" j, 2, 1⟩
      else unsetDentry⟩
    afterBootBlock := unsetDentry
    image := twoPrograms
    dirCount := 0
    dentryGlobal := unsetDentry }

/-- A kernel as it is loaded, with that image. -/
def loadedKernel : Kernel :=
  { fs := twoProgramsFs
    console := ⟨0, 0, fun _ => 0, 0⟩
    shiftFlag := false
    capsFlag := false
    ctrlFlag := false
    altFlag := false
    termFlag := 0
    termArr := fun _ => ⟨0, fun _ => 0, fun _ => 0, false, fun _ => 0, false, 0, 0, 0, 0⟩
    paging := ⟨fun _ => 2, fun _ => 2, fun _ => 2, 0x401000, 0x402000⟩
    esp0 := 0x800000
    activeProc := -1
    processCounter := 0
    pcb := fun _ => ⟨fun _ => .free, 0, fun _ => 0, 0, 0, .unset, 0⟩
    userMem := fun _ _ => 0
    rtcRegA := 0 }

theorem loadedKernel_booting : loadedKernel.Booting :=
  ⟨rfl, rfl, rfl, fun _ => rfl⟩

/-- A kernel stack that holds zeros. -/
def zeroStale : Stale := ⟨fun _ => 0, fun _ => 0, fun _ => 0⟩

end KernelDesign
