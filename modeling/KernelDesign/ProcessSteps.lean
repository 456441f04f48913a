import KernelDesign.ExecuteFailure

/-!
# What `execute` and `halt` do to the books

One statement for each end of each call. A call of `execute` that starts a
program counts it up and fills in one control block (`Started`), one that
is refused changes nothing in the books, and the last part of `halt` counts
one terminal down and moves the stack and the user page to the process now
running (`HaltEnd`). The results about runs use these and not the
definitions.
-/

namespace KernelDesign

open Words

namespace Kernel

/-- **The sum of the programs follows the counts**: if that of one terminal
changes by `d`, so does the sum. -/
theorem programs_eq {k k' : Kernel} {u : Fin 3} {d : ℤ}
    (h : ∀ t, (k'.termArr t).numProgram
      = (k.termArr t).numProgram + if t = u then d else 0) :
    k'.programs = k.programs + d := by
  unfold programs
  rw [h, h, h]
  obtain rfl | rfl | rfl : u = 0 ∨ u = 1 ∨ u = 2 := by omega
  · rw [if_pos rfl, if_neg (by decide), if_neg (by decide)]
    omega
  · rw [if_neg (by decide), if_pos rfl, if_neg (by decide)]
    omega
  · rw [if_neg (by decide), if_neg (by decide), if_pos rfl]
    omega

/-! ## Starting a program -/

/-- **A program has been started** on `k` by a call of `execute` in
`frame`. -/
structure Started (k : Kernel) (frame : Frame) (k' : Kernel) : Prop where
  below_cap : k.programs < 6
  in_page : inKernelPage (kstackToPcb (k.activeProc + 1)) = true
  activeProc : k'.activeProc = k.activeProc + 1
  processCounter : k'.processCounter = i8 (k.processCounter + 1)
  numProgram : ∀ t, (k'.termArr t).numProgram
    = (k.termArr t).numProgram + if t = k.termFlag then 1 else 0
  termPcb_self : (k'.termArr k.termFlag).termPcb = kstackToPcb (k.activeProc + 1)
  termPcb_of_ne : ∀ t, t ≠ k.termFlag → (k'.termArr t).termPcb = (k.termArr t).termPcb
  mapping : k'.paging.pageDirectory 32 = programEntry (k.activeProc + 1)
  esp0 : k'.esp0 = kstackTop (k.activeProc + 1)
  frame_self : (k'.pcb (kstackToPcb (k.activeProc + 1))).frame = frame
  parent_self : (k'.pcb (kstackToPcb (k.activeProc + 1))).parentProcessPtr
    = k.term.termPcb
  pcb_of_ne : ∀ a, a ≠ kstackToPcb (k.activeProc + 1) → k'.pcb a = k.pcb a
  termFlag : k'.termFlag = k.termFlag

/-- The block of the new process is not at the null address. -/
theorem Started.block_ne_zero {k k' : Kernel} {frame : Frame} (h : Started k frame k') :
    kstackToPcb (k.activeProc + 1) ≠ 0 := fun hzero => by
  have hpage := h.in_page
  rw [hzero] at hpage
  exact absurd hpage (by decide)

/-- The terminals after the counters went up. -/
theorem countProgram_termArr (k : Kernel) (t : Fin 3) :
    k.countProgram.termArr t
      = if t = k.termFlag then
          { k.termArr t with numProgram := (k.termArr t).numProgram + 1 }
        else k.termArr t := rfl

/-- The terminals after the control block is filled in. -/
theorem createPcb_termArr (k : Kernel) (frame : Frame) (args : Bytes) (t : Fin 3) :
    (k.createPcb frame args).termArr t
      = if t = k.termFlag then
          { k.termArr t with termPcb := kstackToPcb k.activeProc }
        else k.termArr t := rfl

/-- **From the load to the new program**: `k₁` is the kernel once the
counters are up and the page is mapped, and `k₂` the one with the program
in memory. -/
theorem started_of_loaded {k k₂ : Kernel} {frame : Frame} {args : Bytes}
    (hcap : k.programs < 6)
    (hpage : inKernelPage (kstackToPcb (k.activeProc + 1)) = true)
    (hload : (k.countProgram.setUpProgramPaging
      k.countProgram.activeProc).SameProcesses k₂)
    (hflag : k₂.termFlag = k.termFlag) :
    Started k frame (k₂.createPcb frame args) := by
  have hactive : k₂.activeProc = k.activeProc + 1 := hload.activeProc
  have hterm : ∀ t, (k₂.termArr t).termPcb = (k.termArr t).termPcb := fun t => by
    rw [hload.termPcb t]
    show (k.countProgram.termArr t).termPcb = _
    rw [countProgram_termArr]
    split <;> rfl
  have hpcb := createPcb_pcb_self k₂ frame args
  rw [hactive] at hpcb
  constructor
  · exact hcap
  · exact hpage
  · exact hactive
  · exact hload.processCounter
  · intro t
    have hcount : ((k₂.createPcb frame args).termArr t).numProgram
        = (k₂.termArr t).numProgram := by
      rw [createPcb_termArr]
      split <;> rfl
    rw [hcount, hload.numProgram t]
    show (k.countProgram.termArr t).numProgram = _
    rw [countProgram_termArr]
    split
    · rfl
    · rw [Int.add_zero]
  · rw [createPcb_termArr, hflag, if_pos rfl, hactive]
  · intro t ht
    rw [createPcb_termArr, hflag, if_neg ht]
    exact hterm t
  · exact hload.mapping
  · exact congrArg kstackTop hactive
  · rw [hpcb]
  · rw [hpcb]
    show (k₂.termArr k₂.termFlag).termPcb = _
    rw [hflag]
    exact hterm k.termFlag
  · intro a ha
    rw [createPcb_pcb_of_ne k₂ frame args (by rw [hactive]; exact ha), hload.pcb]
    rfl
  · exact hflag

/-- **What a start does.** -/
theorem started_of_execute {k k' : Kernel} {st : Stale} {frame : Frame}
    {command : Option Bytes} (h : execute k st frame command = .started k') :
    Started k frame k' := by
  have hcase := execute_cases k st frame command
  rw [h] at hcase
  cases hcase with
  | @started s d hcommand hcap hlook hstays hload hpage =>
    exact started_of_loaded hcap hpage (loadProgram_sameProcesses _ st d)
      (loadProgram_frame _ st d).1

/-- **A call of `execute` that is refused** writes at most on the screen. -/
theorem rejected_of_execute {k k' : Kernel} {st : Stale} {frame : Frame}
    {command : Option Bytes} (h : execute k st frame command = .rejected k') :
    ∃ c, k' = { k with console := c } := by
  have hcase := execute_cases k st frame command
  rw [h] at hcase
  cases hcase with
  | rejected c => exact ⟨c, rfl⟩

/-- Counted down and started again, a process keeps its number. -/
theorem Started.respawned_activeProc {k k' : Kernel} {frame : Frame}
    (h : Started k.uncountProcess.uncountProgram frame k') :
    k'.activeProc = k.activeProc :=
  h.activeProc.trans (Int.sub_add_cancel k.activeProc 1)

/-! ## Leaving a program -/

/-- **The last part of `halt`** on `k`, for the control block at `pcb`. -/
structure HaltEnd (k : Kernel) (pcb : ℕ) (k' : Kernel) : Prop where
  activeProc : k'.activeProc = k.activeProc
  processCounter : k'.processCounter = k.processCounter
  numProgram : ∀ t, (k'.termArr t).numProgram
    = (k.termArr t).numProgram + if t = k.termFlag then -1 else 0
  termPcb : ∀ t, (k'.termArr t).termPcb = (k.termArr t).termPcb
  mapping : k'.paging.pageDirectory 32 = programEntry k.activeProc
  esp0 : k'.esp0 = kstackTop k.activeProc
  frame : ∀ a, (k'.pcb a).frame = (k.pcb a).frame
  parent : ∀ a, (k'.pcb a).parentProcessPtr = (k.pcb a).parentProcessPtr
  pcb_of_ne : ∀ a, a ≠ pcb → k'.pcb a = k.pcb a
  termFlag : k'.termFlag = k.termFlag

/-- The frame `halt` jumps to is that of its control block. -/
theorem haltTail_fst (k : Kernel) (pcb : ℕ) :
    (haltTail k pcb).1 = (k.pcb pcb).frame := by
  unfold haltTail
  dsimp only
  exact (closeFiles_localTo _ pcb).frame pcb

/-- The terminals after one of them is counted down. -/
theorem leaveProcess_termArr (k : Kernel) (t : Fin 3) :
    k.leaveProcess.termArr t
      = if t = k.termFlag then
          { k.termArr t with numProgram := (k.termArr t).numProgram - 1 }
        else k.termArr t := rfl

/-- The counts after one of them is counted down. -/
theorem uncountProgram_numProgram (k : Kernel) (t : Fin 3) :
    (k.uncountProgram.termArr t).numProgram
      = (k.termArr t).numProgram + if t = k.termFlag then -1 else 0 := by
  by_cases ht : t = k.termFlag
  · rw [ht, if_pos rfl]
    exact congrArg Term.numProgram (setTerm_termArr_self _ _ _)
  · rw [if_neg ht, Int.add_zero]
    exact congrArg Term.numProgram (setTerm_termArr_of_ne _ _ ht)

/-- Counting a terminal down leaves the pointers to the blocks. -/
theorem uncountProgram_termPcb (k : Kernel) (t : Fin 3) :
    (k.uncountProgram.termArr t).termPcb = (k.termArr t).termPcb := by
  unfold uncountProgram
  refine k.setTerm_termArr_keeps k.termFlag Term.termPcb (fun v => ?_) t
  rfl

/-- **How a call of `halt` goes**: the shell is started again and runs, or
`halt` continues in the frame of its block, from where it stood or from
where a failed `execute` left the kernel, or that `execute` faults. -/
inductive HaltCase (k : Kernel) (st : Stale) (pcb : ℕ) : HaltResult → Prop
  | respawned {k' : Kernel} (hrestart : k.uncountProcess.restartsShell pcb = true)
      (hexec : execute k.uncountProcess.uncountProgram st (.halt pcb)
        (some (cstring "shell")) = .started k') : HaltCase k st pcb (.respawned k')
  | failed {k' : Kernel} (hrestart : k.uncountProcess.restartsShell pcb = true)
      (hexec : (execute k.uncountProcess.uncountProgram st (.halt pcb)
        (some (cstring "shell"))).failed = some k') :
      HaltCase k st pcb (.resumed (haltTail k' pcb).1 (haltTail k' pcb).2)
  | fault (hrestart : k.uncountProcess.restartsShell pcb = true)
      (hexec : execute k.uncountProcess.uncountProgram st (.halt pcb)
        (some (cstring "shell")) = .fault) : HaltCase k st pcb .fault
  | resumed (hrestart : k.uncountProcess.restartsShell pcb = false) :
      HaltCase k st pcb (.resumed (haltTail k.uncountProcess pcb).1
        (haltTail k.uncountProcess pcb).2)

/-- **The test for a new shell**, by the state in which `halt` is called. -/
theorem not_restartsShell {k : Kernel} {pcb : ℕ} :
    k.uncountProcess.restartsShell pcb = false
      ↔ (k.pcb pcb).parentProcessPtr ≠ 0 ∧ k.activeProc ≠ 0 ∧ 2 ≤ k.term.numProgram := by
  have hactive : k.uncountProcess.activeProc = k.activeProc - 1 := rfl
  have hterm : k.uncountProcess.term = k.term := rfl
  have hpcb : k.uncountProcess.pcb = k.pcb := rfl
  rw [restartsShell, decide_eq_false_iff_not, hactive, hterm, hpcb]
  omega

/-- A `halt` without a new shell. -/
theorem halt_of_not_restartsShell {k : Kernel} {pcb : ℕ} (st : Stale)
    (hrestart : k.uncountProcess.restartsShell pcb = false) :
    halt k st pcb = .resumed (haltTail k.uncountProcess pcb).1
      (haltTail k.uncountProcess pcb).2 := by
  simp only [halt, hrestart, Bool.false_eq_true, if_false]

/-- **Every call of `halt` is one of these.** -/
theorem halt_cases (k : Kernel) (st : Stale) (pcb : ℕ) :
    HaltCase k st pcb (halt k st pcb) := by
  cases hrestart : k.uncountProcess.restartsShell pcb with
  | true =>
    simp only [halt, hrestart, if_true]
    cases hexec : execute k.uncountProcess.uncountProgram st (.halt pcb)
        (some (cstring "shell")) with
    | started k' => exact .respawned hrestart hexec
    | rejected k' => exact .failed hrestart (by rw [hexec]; rfl)
    | loadFailed k' => exact .failed hrestart (by rw [hexec]; rfl)
    | fault => exact .fault hrestart hexec
  | false =>
    rw [halt_of_not_restartsShell st hrestart]
    exact .resumed hrestart

/-- **What the last part of `halt` does.** -/
theorem haltEnd_haltTail (k : Kernel) (pcb : ℕ) : HaltEnd k pcb (haltTail k pcb).2 := by
  have hclose : LocalTo pcb k.leaveProcess (haltTail k pcb).2 :=
    closeFiles_localTo k.leaveProcess pcb
  constructor
  · exact hclose.activeProc
  · exact hclose.processCounter
  · intro t
    rw [hclose.numProgram t, leaveProcess_termArr]
    split
    · exact Int.sub_eq_add_neg
    · rw [Int.add_zero]
  · intro t
    rw [hclose.termPcb t, leaveProcess_termArr]
    split <;> rfl
  · exact hclose.mapping
  · exact hclose.esp0
  · exact fun a => hclose.frame a
  · exact fun a => hclose.parent a
  · exact fun a ha => hclose.pcb_of_ne a ha
  · exact hclose.termFlag

end Kernel

end KernelDesign
