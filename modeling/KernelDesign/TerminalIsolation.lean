import KernelDesign.LineDiscipline
import KernelDesign.ProcessSteps
import KernelDesign.TermWrite

/-!
# Terminals and processes

The terminal driver is never told which process calls it. `term_read`
takes the line of the terminal on display and `term_write` writes on the
screen, so a process whose terminal is not on display reads and writes at
the one that is.

A `TermSession` is a run of the machine with the line inputs beside it: the
characters pending and the lines entered on each terminal, as the keys
alone determine them. Between the events every live process may read and
write, and a read that waits is tried again after the next of them. What
holds in every reachable state is that a read takes the line entered last on
the terminal on display as soon as one is ready there, and that a write
prints on the screen and leaves the saved screens alone.
-/

namespace KernelDesign

open Kernel Transition

/-- The kernel a call of `halt` leaves, if it ends. -/
def HaltResult.kernel : HaltResult → Option Kernel
  | resumed _ k => some k
  | respawned k => some k
  | fault => none

namespace Kernel

/-! ## What keeps the line inputs -/

/-- **Every terminal keeps its line input.** -/
def SameInputs (k k' : Kernel) : Prop := ∀ t, KeepsInput (k.termArr t) (k'.termArr t)

theorem SameInputs.of_termArr {k k' : Kernel} (h : k'.termArr = k.termArr) :
    k.SameInputs k' := fun t => by
  rw [h]
  exact KeepsInput.refl _

theorem SameInputs.trans {k₁ k₂ k₃ : Kernel} (h : k₁.SameInputs k₂)
    (h' : k₂.SameInputs k₃) : k₁.SameInputs k₃ := fun t => (h t).trans (h' t)

/-- A change of one terminal that keeps its input. -/
theorem sameInputs_setTerm (k : Kernel) (t : Fin 3) {f : Term → Term}
    (hf : ∀ u, KeepsInput u (f u)) : k.SameInputs (k.setTerm t f) := fun u => by
  by_cases hu : u = t
  · rw [hu, setTerm_termArr_self]
    exact hf _
  · rw [setTerm_termArr_of_ne _ _ hu]
    exact KeepsInput.refl _

/-- The line inputs are held after such a change. -/
theorem HoldsInputs.of_sameInputs {k k' : Kernel} {inputs : Inputs}
    (h : k.HoldsInputs inputs) (hsame : k.SameInputs k') : k'.HoldsInputs inputs :=
  fun t => (h t).of_keepsInput (hsame t)

theorem storeImage_termArr (k : Kernel) (f : ℕ) (r : ReadResult) :
    (k.storeImage f r).2.termArr = k.termArr := rfl

theorem loadProgram_termArr (k : Kernel) (st : Stale) (d : Dentry) :
    (k.loadProgram st d).2.termArr = k.termArr := by
  unfold loadProgram
  exact storeImage_termArr _ _ _

/-- The pointer to the new block is no input. -/
theorem createPcb_sameInputs (k : Kernel) (frame : Frame) (args : Bytes) :
    k.SameInputs (k.createPcb frame args) := fun t => by
  rw [createPcb_termArr]
  split
  · exact ⟨rfl, rfl, rfl, fun hr => hr⟩
  · exact KeepsInput.refl _

/-- **`execute` keeps the line inputs.** -/
theorem execute_sameInputs {k k' : Kernel} {st : Stale} {frame : Frame}
    {command : Option Bytes} (h : (execute k st frame command).kernel = some k') :
    k.SameInputs k' := by
  -- The counters and the page come first, then the load.
  have hcount : k.SameInputs k.countProgram :=
    sameInputs_setTerm k k.termFlag (f := fun t =>
      { t with numProgram := t.numProgram + 1 }) (fun u => ⟨rfl, rfl, rfl, fun hr => hr⟩)
  have hloaded : ∀ d, k.SameInputs (k.loadNext st d).2 := fun d =>
    hcount.trans (SameInputs.of_termArr (loadProgram_termArr _ st d))
  have hcase := execute_cases k st frame command
  generalize execute k st frame command = r at hcase h
  cases hcase with
  | rejected c =>
    cases h
    exact SameInputs.of_termArr rfl
  | @loadFailed s d =>
    cases h
    exact hloaded d
  | fault => cases h
  | @started s d =>
    cases h
    exact (hloaded d).trans (createPcb_sameInputs _ frame (exeArgs k.activeProc s))

/-- **The effect of a descriptor call keeps the line inputs.** -/
theorem CallEffect.sameInputs {p : ℕ} {k k' : Kernel} (h : CallEffect p k k') :
    k.SameInputs k' := by
  cases h with
  | none | block | directory | output => exact SameInputs.of_termArr rfl
  | lineTaken =>
    exact sameInputs_setTerm k k.termFlag (f := fun t => { t with kbdReady := false })
      (fun u => ⟨rfl, rfl, rfl, fun hr => absurd hr Bool.false_ne_true⟩)

theorem closeFiles_sameInputs (k : Kernel) (p : ℕ) : k.SameInputs (closeFiles k p) :=
  closeFiles_rel (fun _ => SameInputs.of_termArr rfl) SameInputs.trans
    CallEffect.sameInputs k

/-- The last part of `halt` counts a terminal down. -/
theorem haltTail_sameInputs (k : Kernel) (pcb : ℕ) :
    k.SameInputs (haltTail k pcb).2 := by
  have hleave : k.SameInputs k.leaveProcess :=
    sameInputs_setTerm k k.termFlag (f := fun t =>
      { t with numProgram := t.numProgram - 1 }) (fun u => ⟨rfl, rfl, rfl, fun hr => hr⟩)
  exact hleave.trans (closeFiles_sameInputs k.leaveProcess pcb)

/-- **`halt` keeps the line inputs.** -/
theorem halt_sameInputs {k k' : Kernel} {st : Stale} {pcb : ℕ}
    (h : (halt k st pcb).kernel = some k') : k.SameInputs k' := by
  have hdown : k.SameInputs k.uncountProcess.uncountProgram :=
    sameInputs_setTerm k.uncountProcess _ (fun u => ⟨rfl, rfl, rfl, fun hr => hr⟩)
  have hcase := halt_cases k st pcb
  generalize halt k st pcb = r at hcase h
  cases hcase with
  | respawned hrestart hexec =>
    cases h
    exact hdown.trans (execute_sameInputs (by rw [hexec]; rfl))
  | @failed k₁ hrestart hexec =>
    cases h
    have hsame := execute_sameInputs (ExecResult.kernel_of_failed hexec)
    exact (hdown.trans hsame).trans (haltTail_sameInputs k₁ pcb)
  | fault => cases h
  | resumed =>
    cases h
    exact haltTail_sameInputs k.uncountProcess pcb

theorem sysVidmap_termArr {k : Kernel} {p : ℕ} {r : ℤ × Kernel}
    (h : sysVidmap Kernel.noSpill k p = .ok r) : r.2.termArr = k.termArr := by
  rw [sysVidmap_noSpill] at h
  split at h
  · cases h
    rfl
  · split at h
    · cases h
    · cases h
      rfl

end Kernel

namespace Machine

/-! ## The machine -/

/-- **From one machine to the next the line inputs are kept**, and the boot
is over. -/
structure InputsGoOn (k : Kernel) (m' : Machine) : Prop where
  mode : m'.mode ≠ .boot
  same : k.SameInputs m'.kernel

theorem inputsGoOn_land {k k' : Kernel} (f : Frame) (procs : List Proc)
    (h : k.SameInputs k') : InputsGoOn k (land k' f procs) := by
  cases f with
  | unset | syscall | halt => exact ⟨by simp, h⟩
  | kbdInit =>
    refine ⟨by simp, h.trans (sameInputs_setTerm k' 0 (f := fun t =>
      { t with activated := true }) (fun u => ?_))⟩
    exact ⟨rfl, rfl, rfl, fun hr => hr⟩

theorem inputsGoOn_launch {k k' : Kernel} (parent : Option ℤ) (procs : List Proc)
    (h : k.SameInputs k') : InputsGoOn k (launch k' parent procs) := ⟨by simp, h⟩

theorem inputsGoOn_stop (m : Machine) : InputsGoOn m.kernel { m with mode := .stopped } :=
  ⟨by simp, SameInputs.of_termArr rfl⟩

theorem inputsGoOn_executeStep {m : Machine} (hmode : m.mode ≠ .boot) (p : ℤ)
    (st : Stale) (command : Option Bytes) :
    InputsGoOn m.kernel (m.executeStep p st command) := by
  have hsame : ∀ k', (execute m.kernel st (.syscall p) command).kernel = some k' →
      m.kernel.SameInputs k' := fun _ => execute_sameInputs
  rw [executeStep]
  cases hexec : execute m.kernel st (.syscall p) command with
  | started k =>
    exact inputsGoOn_launch _ _ (hsame k (congrArg ExecResult.kernel hexec))
  | rejected k => exact ⟨hmode, hsame k (congrArg ExecResult.kernel hexec)⟩
  | loadFailed k => exact ⟨hmode, hsame k (congrArg ExecResult.kernel hexec)⟩
  | fault => exact inputsGoOn_stop m

theorem inputsGoOn_haltStep {m : Machine} (p : ℤ) (st : Stale) :
    InputsGoOn m.kernel (m.haltStep p st) := by
  have hsame : ∀ k', (halt m.kernel st (getPcb m.kernel.esp0)).kernel = some k' →
      m.kernel.SameInputs k' := fun _ => halt_sameInputs
  rw [haltStep]
  cases hhalt : halt m.kernel st (getPcb m.kernel.esp0) with
  | respawned k =>
    exact inputsGoOn_launch _ _ (hsame k (congrArg HaltResult.kernel hhalt))
  | resumed f k => exact inputsGoOn_land f _ (hsame k (congrArg HaltResult.kernel hhalt))
  | fault => exact inputsGoOn_stop m

/-- **Every event but a key keeps the line inputs.** -/
theorem inputsGoOn_step {m m' : Machine} {e : Event} (hmode : m.mode ≠ .boot)
    (hkey : ∀ sc, e ≠ .key sc) (hstep : step m e = some m') :
    InputsGoOn m.kernel m' := by
  cases step_cases hstep with
  | boot hboot => exact absurd hboot hmode
  | @execute st command p hp => exact inputsGoOn_executeStep hmode p st command
  | @halt st status p hp => exact inputsGoOn_haltStep p st
  | @resume pcb hpcb => exact inputsGoOn_land _ _ (haltTail_sameInputs m.kernel pcb)
  | call hp hcall => exact ⟨hmode, (fileCall_effect hcall).sameInputs⟩
  | vidmap hp hcall => exact ⟨hmode, SameInputs.of_termArr (sysVidmap_termArr hcall)⟩
  | trap hp => exact inputsGoOn_stop m
  | @key sc hp => exact absurd rfl (hkey sc)

/-- **The boot** is over after its one step, which keeps the empty input
`kbd_init` leaves. -/
theorem inputsGoOn_bootStep (m : Machine) (st : Stale) :
    InputsGoOn m.kernel.kbdInit (m.bootStep st) := by
  have hsame : ∀ k', (execute m.kernel.kbdInit st .kbdInit
      (some (cstring "shell"))).kernel = some k' → m.kernel.kbdInit.SameInputs k' :=
    fun _ => execute_sameInputs
  rw [bootStep]
  cases hexec : execute m.kernel.kbdInit st .kbdInit (some (cstring "shell")) with
  | started k => exact inputsGoOn_launch _ _ (hsame k (congrArg ExecResult.kernel hexec))
  | rejected k =>
    exact inputsGoOn_land .kbdInit _ (hsame k (congrArg ExecResult.kernel hexec))
  | loadFailed k =>
    exact inputsGoOn_land .kbdInit _ (hsame k (congrArg ExecResult.kernel hexec))
  | fault => exact ⟨by simp, SameInputs.of_termArr rfl⟩

end Machine

/-! ## What a read gets -/

/-- **A call of `read` delivers the line**: its length is returned and its
characters open the buffer. -/
structure Delivers (line : List UInt8) (r : SysResult) : Prop where
  ret : r.ret = line.length
  buf : ∃ b, r.buf = some b ∧ b.first line.length = line

/-- A refused read returns -1 and leaves the buffer alone. -/
def ReadRefused (buf : Option Bytes) (r : SysResult) : Prop := r.ret = -1 ∧ r.buf = buf

/-! ## Sessions at the terminals -/

/-- **A session at the terminals**: the machine, and the line inputs as the
keys determine them. -/
structure TermSession where
  machine : Machine
  inputs : Inputs

/-- What happens in a session: an event of the machine, or a call of
`term_read` or `term_write` by a live process. -/
inductive TermEvent
  | machine (e : Event)
  | read (q : Proc) (buf : Option Bytes) (nbytes : ℤ)
  | write (q : Proc) (buf : Option Bytes) (nbytes : ℤ)

namespace TermSession

/-- The session at the start of the machine. -/
def start (k : Kernel) : TermSession := ⟨Machine.start k, fun _ => LineInput.empty⟩

/-- The session with another kernel. -/
def withKernel (s : TermSession) (k : Kernel) : TermSession :=
  { s with machine := { s.machine with kernel := k } }

/-- What an event does to the line inputs: only keys matter. -/
def inputsAfter (s : TermSession) : Event → Inputs
  | .key sc => s.machine.kernel.typed sc s.inputs
  | _ => s.inputs

/-- **A step of a session.** A read that has to wait has no step. -/
def step (s : TermSession) : TermEvent → Option TermSession
  | .machine e => (s.machine.step e).map (fun m => ⟨m, s.inputsAfter e⟩)
  | .read q buf nbytes =>
    if q ∈ s.machine.procs then
      match termRead s.machine.kernel buf nbytes with
      | .ok r => some (s.withKernel r.kernel)
      | .error _ => none
    else none
  | .write q buf nbytes =>
    if q ∈ s.machine.procs then
      some (s.withKernel (termWrite s.machine.kernel buf nbytes).kernel)
    else none

/-- **A session is reached** by a run from the kernel as it is loaded. -/
def Reached (s : TermSession) : Prop :=
  ∃ k es, k.Booting ∧ run step (start k) es = some s

/-- **What a session keeps**: once the machine has booted, every terminal
holds its line input. -/
def Inv (s : TermSession) : Prop :=
  (s.machine.mode = .boot ∧ s.machine.kernel.Booting ∧ s.machine.procs = []
      ∧ s.inputs = fun _ => LineInput.empty)
    ∨ (s.machine.mode ≠ .boot ∧ s.machine.kernel.HoldsInputs s.inputs)

/-- A process is live only once the machine has booted. -/
theorem Inv.holdsInputs {s : TermSession} (h : s.Inv) {q : Proc}
    (hq : q ∈ s.machine.procs) :
    s.machine.mode ≠ .boot ∧ s.machine.kernel.HoldsInputs s.inputs := by
  rcases h with ⟨-, -, hprocs, -⟩ | h
  · rw [hprocs] at hq
    exact absurd hq List.not_mem_nil
  · exact h

/-- **An event of the machine keeps the invariant.** -/
theorem Inv.machine {s : TermSession} {m : Machine} {e : Event} (h : s.Inv)
    (hstep : s.machine.step e = some m) : Inv ⟨m, s.inputsAfter e⟩ := by
  rcases h with ⟨hmode, -, -, hinputs⟩ | ⟨hmode, hholds⟩
  · -- Before the boot nothing else is possible.
    cases Machine.step_cases hstep with
    | @boot st =>
      have hgoOn := Machine.inputsGoOn_bootStep s.machine st
      have hempty : s.machine.kernel.kbdInit.HoldsInputs (fun _ => LineInput.empty) :=
        fun t => Holds.of_empty rfl rfl
      refine Or.inr ⟨hgoOn.mode, ?_⟩
      show HoldsInputs _ s.inputs
      rw [hinputs]
      exact hempty.of_sameInputs hgoOn.same
    | execute h' | halt h' | resume h' | call h' | vidmap h' | trap h' =>
      rw [hmode] at h'
      cases h'
    | key h' => exact absurd hmode h'
  · by_cases hkey : ∃ sc, e = .key sc
    · obtain ⟨sc, rfl⟩ := hkey
      rw [Machine.step_key hmode] at hstep
      cases hstep
      exact Or.inr ⟨hmode, hholds.kbdIntrHandler sc⟩
    · have hno : ∀ sc, e ≠ .key sc := fun sc he => hkey ⟨sc, he⟩
      have hgoOn := Machine.inputsGoOn_step hmode hno hstep
      have hsame : s.inputsAfter e = s.inputs := by
        cases e with
        | key sc => exact absurd rfl (hno sc)
        | boot | execute | halt | resume | call | vidmap => rfl
      rw [hsame]
      exact Or.inr ⟨hgoOn.mode, hholds.of_sameInputs hgoOn.same⟩

/-- **Every step keeps the invariant.** -/
theorem Inv.step {s s' : TermSession} {e : TermEvent} (h : s.Inv)
    (hstep : s.step e = some s') : s'.Inv := by
  cases e with
  | machine e =>
    rw [TermSession.step, Option.map_eq_some_iff] at hstep
    obtain ⟨m, hm, rfl⟩ := hstep
    exact h.machine hm
  | read q buf nbytes =>
    rw [TermSession.step] at hstep
    split at hstep
    · rename_i hq
      obtain ⟨hmode, hholds⟩ := h.holdsInputs hq
      split at hstep
      · rename_i r hread
        cases hstep
        exact Or.inr ⟨hmode, hholds.of_sameInputs (termRead_effect hread 0).sameInputs⟩
      · cases hstep
    · cases hstep
  | write q buf nbytes =>
    rw [TermSession.step] at hstep
    split at hstep
    · rename_i hq
      obtain ⟨hmode, hholds⟩ := h.holdsInputs hq
      cases hstep
      obtain ⟨c, hc⟩ := termWrite_kernel s.machine.kernel buf nbytes
      refine Or.inr ⟨hmode, ?_⟩
      show HoldsInputs (termWrite s.machine.kernel buf nbytes).kernel _
      rw [hc]
      exact hholds.console c
    · cases hstep

theorem Reached.inv {s : TermSession} (hs : s.Reached) : s.Inv := by
  obtain ⟨k, es, hboot, hrun⟩ := hs
  refine run_induction (fun s e s' hs hstep => Inv.step hs hstep) ?_ hrun
  exact Or.inl ⟨rfl, hboot, rfl, rfl⟩

/-! ## Isolation -/

/-- **Reads at a moment get lines of terminal `t`**, or are refused. -/
def ReadsFrom (s : TermSession) (t : Fin 3) : Prop :=
  ∀ buf nbytes r, termRead s.machine.kernel buf nbytes = .ok r →
    ReadRefused buf r ∨ ∃ line ∈ (s.inputs t).committed, Delivers line r

/-- **Writes at a moment go to terminal `t`**: to the screen if it is on
display, and otherwise to its saved screen. -/
def WritesTo (s : TermSession) (t : Fin 3) : Prop :=
  ∀ buf nbytes, let k := s.machine.kernel
    let k' := (termWrite k buf nbytes).kernel
    (k'.console ≠ k.console → t = k.termFlag)
      ∧ ∀ u, (k'.termArr u).vidBuf ≠ (k.termArr u).vidBuf → u = t ∧ t ≠ k.termFlag

/-- **Terminals are isolated** at a moment: every process reads from its own
terminal and writes to it. -/
def TerminalsIsolated (s : TermSession) : Prop :=
  ∀ q ∈ s.machine.procs, s.ReadsFrom q.home ∧ s.WritesTo q.home

/-- **A read by `q` follows the display**: it is refused for want of a buffer
or of a size, waits while no line is ready on the terminal on display, and
else takes the line entered last there. -/
structure ReadFollows (s : TermSession) (q : Proc) (buf : Option Bytes) (nbytes : ℤ) :
    Prop where
  refused : buf = none ∨ nbytes < 0 →
    termRead s.machine.kernel buf nbytes = .ok ⟨-1, buf, s.machine.kernel⟩
  waits : buf ≠ none → 0 ≤ nbytes → s.machine.kernel.term.kbdReady = false →
    s.step (.read q buf nbytes) = none
  takes : ∀ b, buf = some b → 0 ≤ nbytes → s.machine.kernel.term.kbdReady = true →
    ∃ line rest r, (s.inputs s.machine.kernel.termFlag).committed = line :: rest
      ∧ termRead s.machine.kernel buf nbytes = .ok r ∧ Takes b line r
      ∧ s.step (.read q buf nbytes) = some (s.withKernel
          (s.machine.kernel.setTerm s.machine.kernel.termFlag
            (fun t => { t with kbdReady := false })))

/-- **A write by `q` follows the display**: it is refused for want of a buffer
or of a size, and else prints on the screen and changes nothing else. -/
structure WriteFollows (s : TermSession) (q : Proc) (buf : Option Bytes) (nbytes : ℤ) :
    Prop where
  refused : buf = none ∨ nbytes < 0 →
    termWrite s.machine.kernel buf nbytes = ⟨-1, buf, s.machine.kernel⟩
  prints : ∀ b, buf = some b → 0 ≤ nbytes →
    (termWrite s.machine.kernel buf nbytes).ret = (writeCall b nbytes).index
      ∧ s.step (.write q buf nbytes) = some (s.withKernel
          { s.machine.kernel with
            console := s.machine.kernel.console.puts (writeCall b nbytes).printed })

/-- The reads, where every terminal holds its line input. -/
theorem readFollows_of_holds {s : TermSession} (hholds : s.machine.kernel.HoldsInputs s.inputs)
    {q : Proc} (hq : q ∈ s.machine.procs) (buf : Option Bytes) (nbytes : ℤ) :
    s.ReadFollows q buf nbytes := by
  constructor
  · intro hrefused
    cases buf with
    | none => rfl
    | some b =>
      obtain hnone | hnbytes := hrefused
      · cases hnone
      · exact if_pos hnbytes
  · intro hbuf hnbytes hready
    obtain ⟨b, rfl⟩ := Option.ne_none_iff_exists'.mp hbuf
    rw [step, if_pos hq, termRead_of_not_ready hnbytes hready]
  · rintro b rfl hnbytes hready
    have hheld := hholds s.machine.kernel.termFlag
    obtain ⟨line, rest, hcommitted, hout⟩ := hheld.ready hready
    have hline : IsKbdLine line :=
      hheld.within.committed line (hcommitted ▸ List.mem_cons_self)
    obtain ⟨r, hread, htakes, hkernel⟩ := termRead_of_ready (b := b) hnbytes hready hout hline
    refine ⟨line, rest, r, hcommitted, hread, htakes, ?_⟩
    rw [step, if_pos hq, hread, ← hkernel]

/-- The writes, in every state. -/
theorem writeFollows (s : TermSession) {q : Proc} (hq : q ∈ s.machine.procs)
    (buf : Option Bytes) (nbytes : ℤ) : s.WriteFollows q buf nbytes := by
  constructor
  · intro hrefused
    cases buf with
    | none => rfl
    | some b =>
      obtain hnone | hnbytes := hrefused
      · cases hnone
      · exact if_pos hnbytes
  · rintro b rfl hnbytes
    rw [step, if_pos hq, termWrite_eq _ b hnbytes]
    exact ⟨rfl, rfl⟩

/-- **Reads and writes follow the display.** In every state a session
reaches, a read by a live process, whatever its terminal, takes the line
entered last on the terminal on display or waits for one there, and a write
by it prints on the screen and changes nothing else. -/
theorem reads_and_writes_follow_display {s : TermSession} (hs : s.Reached) {q : Proc}
    (hq : q ∈ s.machine.procs) (buf : Option Bytes) (nbytes : ℤ) :
    s.ReadFollows q buf nbytes ∧ s.WriteFollows q buf nbytes :=
  ⟨readFollows_of_holds (hs.inv.holdsInputs hq).2 hq buf nbytes, s.writeFollows hq buf nbytes⟩

/-- The first shell, whose terminal is the first, after a line on the
second. -/
theorem reads_and_writes_follow_display_shell :
    ∃ s, run step (start loadedKernel)
        [.machine (.boot zeroStale), .machine (.key 0x38), .machine (.key 0x3C),
          .machine (.key 0x1E), .machine (.key 0x1C)] = some s
      ∧ s.machine.procs = [⟨0, none, 0⟩] ∧ s.machine.kernel.termFlag = 1
      ∧ s.machine.kernel.term.kbdReady = true
      ∧ s.ReadFollows ⟨0, none, 0⟩ (some (cstring "text")) 128
      ∧ s.WriteFollows ⟨0, none, 0⟩ (some (cstring "text")) 128 := by
  have hstate : (run step (start loadedKernel)
      [.machine (.boot zeroStale), .machine (.key 0x38), .machine (.key 0x3C),
        .machine (.key 0x1E), .machine (.key 0x1C)]).map
        (fun s => (s.machine.procs, s.machine.kernel.termFlag,
          s.machine.kernel.term.kbdReady)) = some ([⟨0, none, 0⟩], 1, true) := by
    decide +kernel
  obtain ⟨s, hrun, hs⟩ := Option.map_eq_some_iff.mp hstate
  simp only [Prod.mk.injEq] at hs
  obtain ⟨hprocs, hflag, hready⟩ := hs
  exact ⟨s, hrun, hprocs, hflag, hready, reads_and_writes_follow_display
    ⟨loadedKernel, _, loadedKernel_booting, hrun⟩ (hprocs ▸ List.mem_cons_self) _ _⟩

/-- **A shell reads and writes on a terminal that is not its own**: the user
switches to the second terminal and enters a line, which the first shell
gets, and what it writes is on the screen of the second terminal. -/
theorem terminals_not_isolated :
    ∃ s, run step (start loadedKernel)
        [.machine (.boot zeroStale), .machine (.key 0x38), .machine (.key 0x3C),
          .machine (.key 0x1E), .machine (.key 0x1C)] = some s
      ∧ ¬ s.ReadsFrom 0 ∧ ¬ s.WritesTo 0 ∧ ¬ s.TerminalsIsolated := by
  let line : Bytes := fun _ => 0x61
  have hstate : (run step (start loadedKernel)
      [.machine (.boot zeroStale), .machine (.key 0x38), .machine (.key 0x3C),
        .machine (.key 0x1E), .machine (.key 0x1C)]).map
        (fun s => ((s.machine.procs, (s.inputs 0).committed, s.machine.kernel.termFlag),
          (termRead s.machine.kernel (some line) 128).toOption.map (fun r => r.ret),
          (s.machine.kernel.console.screenX,
            (termWrite s.machine.kernel (some line) 1).kernel.console.screenX)))
      = some (([⟨0, none, 0⟩], [], 1), some 1, (0, 1)) := by
    decide +kernel
  obtain ⟨s, hrun, hs⟩ := Option.map_eq_some_iff.mp hstate
  simp only [Prod.mk.injEq] at hs
  obtain ⟨⟨hprocs, hcommitted, hflag⟩, hread, hbefore, hafter⟩ := hs
  -- No line was entered on terminal 0, and one is returned.
  have hreads : ¬ s.ReadsFrom 0 := fun hfrom => by
    cases hr : termRead s.machine.kernel (some line) 128 with
    | error t =>
      rw [hr] at hread
      cases hread
    | ok r =>
      rw [hr] at hread
      have hone : r.ret = 1 := Option.some.inj hread
      rcases hfrom _ _ r hr with ⟨hret, -⟩ | ⟨l, hl, -⟩
      · rw [hone] at hret
        exact absurd hret (by decide)
      · rw [hcommitted] at hl
        exact absurd hl List.not_mem_nil
  -- Terminal 1 is on display, and the cursor moves.
  have hwrites : ¬ s.WritesTo 0 := fun hto => by
    have hdisplayed := (hto (some line) 1).1 (fun hsame => by
      rw [hsame, hbefore] at hafter
      exact absurd hafter (by decide))
    rw [hflag] at hdisplayed
    exact absurd hdisplayed (by decide)
  refine ⟨s, hrun, hreads, hwrites, fun hisolated => hreads ?_⟩
  exact (hisolated ⟨0, none, 0⟩ (hprocs ▸ List.mem_cons_self)).1

end TermSession

end KernelDesign
