import KernelDesign.Accounting

/-!
# Balanced runs

A process that executes a program and gets control back when that program
halts should find everything about itself as it was: the counters, its memory,
its stack and the whole of its control block. The program in between makes
descriptor calls and executes programs of its own, nested to any depth.

`Nested` is the grammar of what one process does until it halts: steps that
leave it running, and brackets of a started program, what that program
does, and its `halt`. `KeepsLevel` is what such a stretch of process number
`n` keeps: the books that name the running process, the control blocks above
the one of `n`, and of the block of `n` its parent and its frame. A bracket
of `n` keeps the whole block of `n`, since the stretch in it is one of
`n + 1`.

`halt` takes the stack and the memory from `active_proc`, and `execute`
leaves that number too high when a load fails. From then on the process that
runs is not on the stack of that number, and the first balanced run moves it
there. `balanced_restores_iff` is the exact extent: the condition is on the
state before the run, and the other direction comes from the counts, which no
run can bring back if one of its calls of `halt` has started a shell.
-/

namespace KernelDesign

open Kernel Transition Words

namespace Machine

/-! ## The grammar -/

/-- **A step that leaves the running process running**: a call that
returns, a key that does not switch terminals, an `execute` that is
refused. -/
def Quiet (m : Machine) : Event → Prop
  | .call c => ∃ r, m.kernel.fileCall (getPcb m.kernel.esp0) c = .ok r
  | .vidmap q => ∃ r, sysVidmap Kernel.noSpill m.kernel q = .ok r
  | .key sc => (m.kernel.kbdIntrHandler sc).termFlag = m.kernel.termFlag
  | .execute st command =>
    ∃ p k, m.mode = .user p ∧ execute m.kernel st (.syscall p) command = .rejected k
  | .boot _ | .halt _ _ | .resume => False

/-- **The running process starts a program.** -/
def Starts (m : Machine) (st : Stale) (command : Option Bytes) : Prop :=
  ∃ p k, m.mode = .user p ∧ execute m.kernel st (.syscall p) command = .started k

/-- **What a process does until it halts.** -/
inductive Nested : Machine → List Event → Machine → Prop
  | nil (m : Machine) : Nested m [] m
  | quiet {m m₁ m' : Machine} {e : Event} {es : List Event} (hquiet : m.Quiet e)
      (hstep : step m e = some m₁) (hrest : Nested m₁ es m') : Nested m (e :: es) m'
  | bracket {m m₁ m₂ m₃ m' : Machine} {st st' : Stale} {command : Option Bytes}
      {status : UInt8} {es es' : List Event} (hstarts : m.Starts st command)
      (hstep : step m (.execute st command) = some m₁) (hbody : Nested m₁ es m₂)
      (hhalt : step m₂ (.halt st' status) = some m₃) (hrest : Nested m₃ es' m') :
      Nested m (.execute st command :: (es ++ .halt st' status :: es')) m'

/-- **A balanced run**: a program is started, runs, and halts. -/
inductive Balanced : Machine → List Event → Machine → Prop
  | mk {m m₁ m₂ m' : Machine} {st st' : Stale} {command : Option Bytes}
      {status : UInt8} {es : List Event} (hstarts : m.Starts st command)
      (hstep : step m (.execute st command) = some m₁) (hbody : Nested m₁ es m₂)
      (hhalt : step m₂ (.halt st' status) = some m') :
      Balanced m (.execute st command :: (es ++ [.halt st' status])) m'

/-- What the grammar describes is a run. -/
theorem Nested.run {m m' : Machine} {es : List Event} (h : Nested m es m') :
    run step m es = some m' := by
  induction h with
  | nil m => rfl
  | quiet hquiet hstep hrest ih => rw [run_cons, hstep, Option.bind_some, ih]
  | bracket hstarts hstep hbody hhalt hrest ihb ihr =>
    rw [run_cons, hstep, Option.bind_some, run_append, ihb, Option.bind_some, run_cons,
      hhalt, Option.bind_some, ihr]

theorem Balanced.run {m m' : Machine} {es : List Event} (h : Balanced m es m') :
    Transition.run step m es = some m' := by
  cases h with
  | mk hstarts hstep hbody hhalt =>
    rw [run_cons, hstep, Option.bind_some, run_append, hbody.run, Option.bind_some,
      run_cons, hhalt]
    rfl

end Machine

/-! ## What a level keeps -/

/-- **What a stretch of process number `n` keeps.** -/
structure KeepsLevel (n : ℤ) (k k' : Kernel) : Prop where
  activeProc : k'.activeProc = k.activeProc
  processCounter : k'.processCounter = k.processCounter
  numProgram : ∀ t, (k'.termArr t).numProgram = (k.termArr t).numProgram
  mapping : k'.paging.pageDirectory 32 = k.paging.pageDirectory 32
  esp0 : k'.esp0 = k.esp0
  termFlag : k'.termFlag = k.termFlag
  block : k.term.termPcb ≠ 0 → k'.term.termPcb ≠ 0
  above : ∀ b, kstackToPcb n < b → k'.pcb b = k.pcb b
  frame : (k'.pcb (kstackToPcb n)).frame = (k.pcb (kstackToPcb n)).frame
  parent : (k'.pcb (kstackToPcb n)).parentProcessPtr
    = (k.pcb (kstackToPcb n)).parentProcessPtr

namespace KeepsLevel

variable {n : ℤ} {k k' k₁ k₂ k₃ : Kernel}

theorem refl (n : ℤ) (k : Kernel) : KeepsLevel n k k :=
  ⟨rfl, rfl, fun _ => rfl, rfl, rfl, rfl, fun h => h, fun _ _ => rfl, rfl, rfl⟩

theorem trans (h : KeepsLevel n k₁ k₂) (h' : KeepsLevel n k₂ k₃) :
    KeepsLevel n k₁ k₃ where
  activeProc := h'.activeProc.trans h.activeProc
  processCounter := h'.processCounter.trans h.processCounter
  numProgram t := (h'.numProgram t).trans (h.numProgram t)
  mapping := h'.mapping.trans h.mapping
  esp0 := h'.esp0.trans h.esp0
  termFlag := h'.termFlag.trans h.termFlag
  block hne := h'.block (h.block hne)
  above b hb := (h'.above b hb).trans (h.above b hb)
  frame := h'.frame.trans h.frame
  parent := h'.parent.trans h.parent

/-- **A change local to the block of `n`** is one. -/
theorem of_localTo (h : LocalTo (kstackToPcb n) k k') : KeepsLevel n k k' where
  activeProc := h.activeProc
  processCounter := h.processCounter
  numProgram := h.numProgram
  mapping := h.mapping
  esp0 := h.esp0
  termFlag := h.termFlag
  block hne := by
    rw [term, h.termPcb, h.termFlag]
    exact hne
  above b hb := h.pcb_of_ne b (Nat.ne_of_gt hb)
  frame := h.frame _
  parent := h.parent _

end KeepsLevel

/-- **Process number `n` is on its stack and in its memory.** -/
structure AtLevel (k : Kernel) (n : ℤ) : Prop where
  nonneg : 0 ≤ n
  activeProc : k.activeProc = n
  counter : i8 k.processCounter = k.processCounter
  mapping : k.paging.pageDirectory 32 = programEntry n
  esp0 : k.esp0 = kstackTop n

namespace AtLevel

variable {k k' : Kernel} {n : ℤ} {frame : Frame}

/-- A stretch of `n` leaves it there. -/
theorem of_keepsLevel (h : AtLevel k n) (hkeep : KeepsLevel n k k') : AtLevel k' n where
  nonneg := h.nonneg
  activeProc := hkeep.activeProc.trans h.activeProc
  counter := by rw [hkeep.processCounter, h.counter]
  mapping := hkeep.mapping.trans h.mapping
  esp0 := hkeep.esp0.trans h.esp0

/-- A program that is started is on its own stack, wherever the caller is. -/
theorem started (h0 : 0 ≤ n) (hactive : k.activeProc = n) (hstart : Started k frame k') :
    AtLevel k' (n + 1) where
  nonneg := by omega
  activeProc := by rw [hstart.activeProc, hactive]
  counter := by rw [hstart.processCounter, i8_i8]
  mapping := by rw [hstart.mapping, hactive]
  esp0 := by rw [hstart.esp0, hactive]

/-- `get_pcb` finds its block. -/
theorem getPcb_esp0 (h : AtLevel k n) : getPcb k.esp0 = kstackToPcb n := by
  rw [h.esp0, getPcb_kstackTop]

end AtLevel

/-- **The stacks grow down**: the block of the next process is below. -/
theorem kstackToPcb_succ_lt {n : ℤ} (hpage : inKernelPage (kstackToPcb (n + 1)) = true) :
    kstackToPcb (n + 1) < kstackToPcb n := by
  rw [inKernelPage, decide_eq_true_eq, kstackToPcb, u32_eq] at hpage
  rw [kstackToPcb, kstackToPcb, u32_eq, u32_eq]
  omega

/-! ## A bracket -/

section Bracket

variable {k k₁ k₂ k₃ : Kernel} {n a : ℤ} {frame : Frame}

/-- **What a bracket leaves** of a process that `active_proc` numbers `n`,
whatever stack and memory it was on: the stack and the memory are those of
number `n`, and the other books and the blocks above the one of the child are
as they were. -/
structure Closed (n : ℤ) (k k' : Kernel) : Prop where
  activeProc : k'.activeProc = k.activeProc
  processCounter : k'.processCounter = k.processCounter
  numProgram : ∀ t, (k'.termArr t).numProgram = (k.termArr t).numProgram
  mapping : k'.paging.pageDirectory 32 = programEntry n
  esp0 : k'.esp0 = kstackTop n
  termFlag : k'.termFlag = k.termFlag
  block : k'.term.termPcb ≠ 0
  above : ∀ b, kstackToPcb (n + 1) < b → k'.pcb b = k.pcb b

/-- **A bracket whose `halt` starts no shell.** -/
theorem closed_of_bracket (h0 : 0 ≤ n) (hactive : k.activeProc = n)
    (hcounter : i8 k.processCounter = k.processCounter) (hstart : Started k frame k₁)
    (hkeep : KeepsLevel (n + 1) k₁ k₂)
    (hend : HaltEnd k₂.uncountProcess (kstackToPcb (n + 1)) k₃) : Closed n k k₃ := by
  have hchild := (AtLevel.started h0 hactive hstart).of_keepsLevel hkeep
  have hdown : k₂.uncountProcess.activeProc = n := by
    show k₂.activeProc - 1 = n
    rw [hchild.activeProc, Int.add_sub_cancel]
  have hne := hstart.pcb_of_ne
  have hself := hstart.termPcb_self
  rw [hactive] at hne hself
  constructor
  · rw [hend.activeProc, hdown, hactive]
  · rw [hend.processCounter]
    show i8 (k₂.processCounter - 1) = _
    rw [hkeep.processCounter, hstart.processCounter, i8_succ_pred, hcounter]
  · intro t
    have hflag : k₂.uncountProcess.termFlag = k.termFlag :=
      hkeep.termFlag.trans hstart.termFlag
    have hcount : (k₂.uncountProcess.termArr t).numProgram
        = (k.termArr t).numProgram + if t = k.termFlag then 1 else 0 :=
      (hkeep.numProgram t).trans (hstart.numProgram t)
    rw [hend.numProgram t, hflag, hcount]
    split <;> omega
  · rw [hend.mapping, hdown]
  · rw [hend.esp0, hdown]
  · rw [hend.termFlag]
    exact hkeep.termFlag.trans hstart.termFlag
  · rw [term, hend.termPcb, hend.termFlag]
    refine hkeep.block ?_
    rw [term, hstart.termFlag, hself]
    exact hactive ▸ hstart.block_ne_zero
  · intro b hb
    rw [hend.pcb_of_ne b (Nat.ne_of_gt hb)]
    show k₂.pcb b = k.pcb b
    rw [hkeep.above b hb, hne b (Nat.ne_of_gt hb)]

/-- **A bracket keeps the level** it is of. -/
theorem Closed.keepsLevel (h : Closed n k k₃) (hlevel : AtLevel k n)
    (hpage : inKernelPage (kstackToPcb (n + 1)) = true) : KeepsLevel n k k₃ := by
  have hbelow := kstackToPcb_succ_lt hpage
  have hself := h.above _ hbelow
  constructor
  · exact h.activeProc
  · exact h.processCounter
  · exact h.numProgram
  · rw [h.mapping, hlevel.mapping]
  · rw [h.esp0, hlevel.esp0]
  · exact h.termFlag
  · exact fun _ => h.block
  · exact fun b hb => h.above b (hbelow.trans hb)
  · rw [hself]
  · rw [hself]

/-- **When the `halt` of a child starts no shell**: exactly when at its start
the terminal on display had a block and counted a program. -/
theorem not_restartsShell_iff (h0 : 0 ≤ n) (hactive : k.activeProc = n)
    (hstart : Started k frame k₁) (hkeep : KeepsLevel (n + 1) k₁ k₂) :
    k₂.uncountProcess.restartsShell (getPcb k₂.esp0) = false
      ↔ k.term.termPcb ≠ 0 ∧ 1 ≤ k.term.numProgram := by
  have hchild := (AtLevel.started h0 hactive hstart).of_keepsLevel hkeep
  have hparent : (k₂.pcb (kstackToPcb (n + 1))).parentProcessPtr = k.term.termPcb := by
    have hself := hstart.parent_self
    rw [hactive] at hself
    rw [hkeep.parent, hself]
  have hcount : k₂.term.numProgram = k.term.numProgram + 1 := by
    show (k₂.termArr k₂.termFlag).numProgram = _
    rw [hkeep.numProgram, hkeep.termFlag, hstart.termFlag, hstart.numProgram, if_pos rfl]
    rfl
  rw [hchild.getPcb_esp0, not_restartsShell, hparent, hchild.activeProc, hcount]
  omega

end Bracket

/-! ## Brackets of the machine -/

namespace Machine

/-- A quiet step keeps the books, in every state. -/
theorem Quiet.sameBooks {m m₁ : Machine} {e : Event} (hquiet : m.Quiet e)
    (hstep : step m e = some m₁) : m.kernel.SameBooks m₁.kernel := by
  cases step_cases hstep with
  | boot | halt | resume => exact hquiet.elim
  | @execute st command p hmode =>
    obtain ⟨q, k, hq, hk⟩ := hquiet
    rw [hmode] at hq
    cases hq
    rw [executeStep, hk]
    obtain ⟨c, rfl⟩ := rejected_of_execute hk
    exact (sameProcesses_console _ c).toSameBooks
  | call _ hcall => exact (fileCall_localTo hcall).toSameBooks
  | vidmap _ hcall => exact (sysVidmap_sameProcesses hcall).toSameBooks
  | trap _ => exact SameBooks.refl _
  | key _ => exact (kbdIntrHandler_sameProcesses _ _).toSameBooks

/-- A quiet step is of the level of the running process. -/
theorem Quiet.keepsLevel {m m₁ : Machine} {a n : ℤ} {e : Event} (hquiet : m.Quiet e)
    (hmode : m.mode = .user a) (h : AtLevel m.kernel n) (hstep : step m e = some m₁) :
    m₁.mode = .user a ∧ KeepsLevel n m.kernel m₁.kernel := by
  cases e with
  | boot | halt | resume => exact hquiet.elim
  | call c =>
    obtain ⟨r, hr⟩ := hquiet
    rw [step_call hmode, hr] at hstep
    cases hstep
    rw [h.getPcb_esp0] at hr
    exact ⟨hmode, KeepsLevel.of_localTo (fileCall_localTo hr)⟩
  | vidmap q =>
    obtain ⟨r, hr⟩ := hquiet
    rw [step_vidmap hmode, hr] at hstep
    cases hstep
    obtain ⟨hflag, hfs⟩ := sysVidmap_frame hr
    exact ⟨hmode, KeepsLevel.of_localTo ((sysVidmap_sameProcesses hr).localTo hflag hfs _)⟩
  | key sc =>
    have hkey : (m.kernel.kbdIntrHandler sc).termFlag = m.kernel.termFlag := hquiet
    rw [step_key (mode_ne_boot hmode)] at hstep
    cases hstep
    exact ⟨hmode, KeepsLevel.of_localTo ((kbdIntrHandler_sameProcesses _ sc).localTo hkey
      (kbdIntrHandler_fs _ sc) _)⟩
  | execute st command =>
    obtain ⟨q, k, hq, hk⟩ := hquiet
    rw [hmode] at hq
    cases hq
    rw [step_execute hmode, executeStep, hk] at hstep
    cases hstep
    obtain ⟨c, rfl⟩ := rejected_of_execute hk
    exact ⟨hmode, KeepsLevel.of_localTo ((sameProcesses_console _ c).localTo rfl rfl _)⟩

/-- What starts a program is a call of `execute` that does. -/
theorem Starts.started {m m₁ : Machine} {a : ℤ} {st : Stale} {command : Option Bytes}
    (hstarts : m.Starts st command) (hmode : m.mode = .user a)
    (hstep : step m (.execute st command) = some m₁) :
    Started m.kernel (.syscall a) m₁.kernel ∧ m₁.mode = .user m₁.kernel.activeProc := by
  obtain ⟨q, k, hq, hk⟩ := hstarts
  rw [hmode] at hq
  cases hq
  rw [step_execute hmode, executeStep, hk] at hstep
  cases hstep
  exact ⟨started_of_execute hk, rfl⟩

/-- **The two ends of a bracket**: what is between them is a stretch of the
child, and its `halt` starts no shell. -/
theorem bracket_ends {m m₁ m₂ m₃ : Machine} {a n : ℤ} {st' : Stale} {status : UInt8}
    (h0 : 0 ≤ n) (hactive : m.kernel.activeProc = n)
    (hcounter : i8 m.kernel.processCounter = m.kernel.processCounter)
    (hstart : Started m.kernel (.syscall a) m₁.kernel)
    (hmode₂ : m₂.mode = .user (n + 1)) (hkeep : KeepsLevel (n + 1) m₁.kernel m₂.kernel)
    (hplain : m₂.kernel.uncountProcess.restartsShell (getPcb m₂.kernel.esp0) = false)
    (hhalt : step m₂ (.halt st' status) = some m₃) :
    m₃.mode = .user a ∧ Closed n m.kernel m₃.kernel := by
  have hchild := (AtLevel.started h0 hactive hstart).of_keepsLevel hkeep
  have hend := haltEnd_haltTail m₂.kernel.uncountProcess (kstackToPcb (n + 1))
  rw [hchild.getPcb_esp0] at hplain
  -- The frame is that of the call of `execute`.
  have hframe : (m₂.kernel.uncountProcess.pcb (kstackToPcb (n + 1))).frame = .syscall a := by
    have hself := hstart.frame_self
    rw [hactive] at hself
    show (m₂.kernel.pcb _).frame = _
    rw [hkeep.frame, hself]
  rw [step_halt hmode₂, haltStep, hchild.getPcb_esp0, halt_of_not_restartsShell st' hplain,
    haltTail_fst, hframe] at hhalt
  cases hhalt
  exact ⟨rfl, closed_of_bracket h0 hactive hcounter hstart hkeep hend⟩

/-! ### What the counts tell -/

/-- A continuation leaves the counts. -/
theorem land_counts (k : Kernel) (f : Frame) (procs : List Proc) :
    (land k f procs).kernel.activeProc = k.activeProc
      ∧ (land k f procs).kernel.programs = k.programs := by
  cases f with
  | unset | syscall | halt => exact ⟨rfl, rfl⟩
  | kbdInit =>
    refine ⟨rfl, ?_⟩
    have hsum : k.kbdInitReturn.programs = k.programs + 0 := programs_eq (u := 0) (fun t => by
      rw [ite_self, Int.add_zero]
      exact setTerm_termArr_keeps (f := fun t => { t with activated := true }) _ 0
        Term.numProgram (fun _ => rfl) t)
    rw [land, hsum, Int.add_zero]

/-- The last part of `halt` counts a program of the terminal on display down. -/
theorem haltTail_counts (k : Kernel) (pcb : ℕ) (procs : List Proc) :
    (land (haltTail k pcb).2 (haltTail k pcb).1 procs).kernel.activeProc = k.activeProc
      ∧ (land (haltTail k pcb).2 (haltTail k pcb).1 procs).kernel.programs
        = k.programs - 1 := by
  have hend := haltEnd_haltTail k pcb
  obtain ⟨hactive, hprograms⟩ := land_counts (haltTail k pcb).2 (haltTail k pcb).1 procs
  refine ⟨hactive.trans hend.activeProc, ?_⟩
  rw [hprograms, programs_eq hend.numProgram]
  rfl

/-- A call of `execute` that fails leaves the counts, or it has counted the
program. -/
theorem failed_counts {k k' : Kernel} {st : Stale} {frame : Frame} {command : Option Bytes}
    (h : (KernelDesign.execute k st frame command).failed = some k') :
    (k'.activeProc = k.activeProc ∧ k'.programs = k.programs)
      ∨ k'.activeProc = k.activeProc + 1 := by
  have hcase := execute_cases k st frame command
  generalize KernelDesign.execute k st frame command = r at h hcase
  cases hcase with
  | rejected c =>
    cases h
    exact Or.inl ⟨rfl, rfl⟩
  | @loadFailed s d _ _ _ _ _ =>
    cases h
    exact Or.inr (loadProgram_sameProcesses _ st d).activeProc
  | fault => cases h
  | started => cases h

/-- **What a call of `halt` does to the counts**: both go down by one exactly
if it starts no shell, and if it calls `execute` for one and `active_proc`
still goes down, then the programs go down by two. -/
theorem haltStep_counts (m : Machine) (p : ℤ) (st : Stale) :
    let m' := m.haltStep p st
    (m.kernel.uncountProcess.restartsShell (getPcb m.kernel.esp0) = false
        ∧ m'.kernel.activeProc = m.kernel.activeProc - 1
        ∧ m'.kernel.programs = m.kernel.programs - 1)
      ∨ (m.kernel.activeProc - 1 ≤ m'.kernel.activeProc
        ∧ (m'.kernel.activeProc = m.kernel.activeProc - 1 →
          m'.kernel.programs = m.kernel.programs - 2)) := by
  have hsum : m.kernel.uncountProcess.programs = m.kernel.programs := rfl
  have hless : m.kernel.uncountProcess.uncountProgram.programs = m.kernel.programs - 1 := by
    rw [programs_eq (uncountProgram_numProgram m.kernel.uncountProcess), hsum]
    rfl
  rw [haltStep]
  have hcase := halt_cases m.kernel st (getPcb m.kernel.esp0)
  generalize halt m.kernel st (getPcb m.kernel.esp0) = r at hcase ⊢
  cases hcase with
  | @respawned k hrestart hexec =>
    right
    have hsame : k.activeProc = m.kernel.activeProc :=
      (started_of_execute hexec).respawned_activeProc
    show m.kernel.activeProc - 1 ≤ k.activeProc ∧ (k.activeProc = _ → _)
    omega
  | @failed k hrestart hexec =>
    right
    obtain ⟨hactive, hprograms⟩ := haltTail_counts k (getPcb m.kernel.esp0) (m.others p)
    dsimp only
    rw [hactive, hprograms]
    have hkept : m.kernel.uncountProcess.uncountProgram.activeProc
        = m.kernel.activeProc - 1 := rfl
    have hfailed := failed_counts hexec
    omega
  | fault =>
    right
    show m.kernel.activeProc - 1 ≤ m.kernel.activeProc
      ∧ (m.kernel.activeProc = m.kernel.activeProc - 1 → _)
    omega
  | resumed hrestart =>
    left
    exact ⟨hrestart, haltTail_counts m.kernel.uncountProcess (getPcb m.kernel.esp0)
      (m.others p)⟩

/-- A program that is started is counted. -/
theorem Starts.counts {m m₁ : Machine} {st : Stale} {command : Option Bytes}
    (hstarts : m.Starts st command) (hstep : step m (.execute st command) = some m₁) :
    m₁.kernel.activeProc = m.kernel.activeProc + 1
      ∧ m₁.kernel.programs = m.kernel.programs + 1 := by
  obtain ⟨a, k, hmode, hk⟩ := hstarts
  obtain ⟨hstart, -⟩ := Starts.started ⟨a, k, hmode, hk⟩ hmode hstep
  exact ⟨hstart.activeProc, programs_eq hstart.numProgram⟩

/-- The step of a `halt`, with the counts. -/
theorem halt_counts {m m' : Machine} {st : Stale} {status : UInt8}
    (hstep : step m (.halt st status) = some m') :
    (m.kernel.uncountProcess.restartsShell (getPcb m.kernel.esp0) = false
        ∧ m'.kernel.activeProc = m.kernel.activeProc - 1
        ∧ m'.kernel.programs = m.kernel.programs - 1)
      ∨ (m.kernel.activeProc - 1 ≤ m'.kernel.activeProc
        ∧ (m'.kernel.activeProc = m.kernel.activeProc - 1 →
          m'.kernel.programs = m.kernel.programs - 2)) := by
  cases step_cases hstep with
  | @halt _ _ p hmode => exact haltStep_counts m p st
  | trap _ =>
    right
    show m.kernel.activeProc - 1 ≤ m.kernel.activeProc
      ∧ (m.kernel.activeProc = m.kernel.activeProc - 1 → _)
    omega

/-- **The counts of a nested run**: `active_proc` does not go down, and if it
is the same at the end, there are no more programs. -/
theorem Nested.counts {m m' : Machine} {es : List Event} (h : Nested m es m') :
    m.kernel.activeProc ≤ m'.kernel.activeProc
      ∧ (m'.kernel.activeProc = m.kernel.activeProc →
        m'.kernel.programs ≤ m.kernel.programs) := by
  induction h with
  | nil m => exact ⟨le_refl _, fun _ => le_refl _⟩
  | quiet hquiet hstep hrest ih =>
    have hsame := hquiet.sameBooks hstep
    rw [← hsame.activeProc, ← hsame.programs]
    exact ih
  | bracket hstarts hstep hbody hhalt hrest ihb ihr =>
    obtain ⟨hactive, hprograms⟩ := hstarts.counts hstep
    have hdown := halt_counts hhalt
    omega

/-- **A nested run that keeps the counts** is a stretch of the process that
runs, since no `halt` of it starts a shell. -/
theorem Nested.keepsLevel_of_counts {m m' : Machine} {es : List Event}
    (hrun : Nested m es m') {a n : ℤ} (hmode : m.mode = .user a) (h : AtLevel m.kernel n)
    (hactive : m'.kernel.activeProc = m.kernel.activeProc)
    (hprograms : m'.kernel.programs = m.kernel.programs) :
    m'.mode = .user a ∧ KeepsLevel n m.kernel m'.kernel := by
  -- The body of a bracket is a stretch of another process, so both numbers are general.
  induction hrun generalizing a n with
  | nil m => exact ⟨hmode, KeepsLevel.refl n _⟩
  | quiet hquiet hstep hrest ih =>
    obtain ⟨hmode₁, hkeep⟩ := hquiet.keepsLevel hmode h hstep
    have hsame := hquiet.sameBooks hstep
    obtain ⟨hmode', hkeep'⟩ := ih hmode₁ (h.of_keepsLevel hkeep)
      (hactive.trans hsame.activeProc.symm) (hprograms.trans hsame.programs.symm)
    exact ⟨hmode', hkeep.trans hkeep'⟩
  | @bracket m m₁ m₂ m₃ m' st st' command status es es' hstarts hstep hbody hhalt hrest ihb ihr =>
    obtain ⟨hactive₁, hprograms₁⟩ := hstarts.counts hstep
    have hcounts := hbody.counts
    have hcounts' := hrest.counts
    -- No part of the bracket can do other than take back what another has done.
    obtain ⟨hplain, hactive₃, hprograms₃⟩ | ⟨hle, hless⟩ := halt_counts hhalt
    · obtain ⟨hstart, hmode₁⟩ := hstarts.started hmode hstep
      have hchild := AtLevel.started h.nonneg h.activeProc hstart
      rw [hchild.activeProc] at hmode₁
      obtain ⟨hmode₂, hkeep⟩ := ihb hmode₁ hchild (by omega) (by omega)
      obtain ⟨hmode₃, hclosed⟩ := bracket_ends h.nonneg h.activeProc h.counter hstart hmode₂
        hkeep hplain hhalt
      have hpage := hstart.in_page
      rw [h.activeProc] at hpage
      have hkeep₃ := hclosed.keepsLevel h hpage
      obtain ⟨hmode', hkeep'⟩ := ihr hmode₃ (h.of_keepsLevel hkeep₃) (by omega) (by omega)
      exact ⟨hmode', hkeep₃.trans hkeep'⟩
    · omega

/-! ### On a terminal that counts a program -/

/-- **Number `n` is at its level, and the terminal on display** counts a
program and has a block. -/
structure OnDisplay (k : Kernel) (n : ℤ) : Prop extends AtLevel k n where
  counted : 1 ≤ k.term.numProgram
  block : k.term.termPcb ≠ 0

/-- A stretch leaves it so. -/
theorem OnDisplay.of_keepsLevel {k k' : Kernel} {n : ℤ} (h : OnDisplay k n)
    (hkeep : KeepsLevel n k k') : OnDisplay k' n where
  toAtLevel := h.toAtLevel.of_keepsLevel hkeep
  counted := by
    rw [term, hkeep.numProgram, hkeep.termFlag]
    exact h.counted
  block := hkeep.block h.block

/-- A program started there runs there. -/
theorem OnDisplay.started {k k₁ : Kernel} {n : ℤ} {frame : Frame} (h : OnDisplay k n)
    (hstart : Started k frame k₁) : OnDisplay k₁ (n + 1) where
  toAtLevel := AtLevel.started h.nonneg h.activeProc hstart
  counted := by
    have hone : 1 ≤ (k.termArr k.termFlag).numProgram := h.counted
    rw [term, hstart.termFlag, hstart.numProgram, if_pos rfl]
    omega
  block := by
    rw [term, hstart.termFlag, hstart.termPcb_self]
    exact hstart.block_ne_zero

/-- **A bracket on such a terminal closes.** -/
theorem OnDisplay.bracket {m m₁ m₂ m₃ : Machine} {a n : ℤ} {st st' : Stale}
    {command : Option Bytes} {status : UInt8} (h : OnDisplay m.kernel n)
    (hmode : m.mode = .user a) (hstarts : m.Starts st command)
    (hstep : step m (.execute st command) = some m₁)
    (hbody : m₁.mode = .user (n + 1) → OnDisplay m₁.kernel (n + 1) →
      m₂.mode = .user (n + 1) ∧ KeepsLevel (n + 1) m₁.kernel m₂.kernel)
    (hhalt : step m₂ (.halt st' status) = some m₃) :
    m₃.mode = .user a ∧ Closed n m.kernel m₃.kernel
      ∧ inKernelPage (kstackToPcb (n + 1)) = true := by
  obtain ⟨hstart, hmode₁⟩ := hstarts.started hmode hstep
  have hchild := h.started hstart
  rw [hchild.activeProc] at hmode₁
  obtain ⟨hmode₂, hkeep⟩ := hbody hmode₁ hchild
  have hplain := (not_restartsShell_iff h.nonneg h.activeProc hstart hkeep).mpr
    ⟨h.block, h.counted⟩
  obtain ⟨hmode₃, hclosed⟩ := bracket_ends h.nonneg h.activeProc h.counter hstart hmode₂ hkeep
    hplain hhalt
  exact ⟨hmode₃, hclosed, h.activeProc ▸ hstart.in_page⟩

/-- **A nested run is a stretch of the process that runs.** -/
theorem Nested.keepsLevel {m m' : Machine} {es : List Event} (hrun : Nested m es m')
    {a n : ℤ} (hmode : m.mode = .user a) (h : OnDisplay m.kernel n) :
    m'.mode = .user a ∧ KeepsLevel n m.kernel m'.kernel := by
  induction hrun generalizing a n with
  | nil m => exact ⟨hmode, KeepsLevel.refl n _⟩
  | quiet hquiet hstep hrest ih =>
    obtain ⟨hmode₁, hkeep⟩ := hquiet.keepsLevel hmode h.toAtLevel hstep
    obtain ⟨hmode', hkeep'⟩ := ih hmode₁ (h.of_keepsLevel hkeep)
    exact ⟨hmode', hkeep.trans hkeep'⟩
  | bracket hstarts hstep hbody hhalt hrest ihb ihr =>
    obtain ⟨hmode₃, hclosed, hpage⟩ := h.bracket hmode hstarts hstep ihb hhalt
    have hkeep := hclosed.keepsLevel h.toAtLevel hpage
    obtain ⟨hmode', hkeep'⟩ := ihr hmode₃ (h.of_keepsLevel hkeep)
    exact ⟨hmode', hkeep.trans hkeep'⟩

/-! ## One terminal -/

/-- **A step that stays on the terminal on display**: the key is not one of
Alt+F1, Alt+F2 and Alt+F3 for another one. -/
def stays (m : Machine) : Event → Bool
  | .key sc => (m.kernel.kbdIntrHandler sc).termFlag = m.kernel.termFlag
  | _ => true

/-- **A machine is reached on one terminal** when every step of the run is
clean and stays. -/
def OneTerminalReached (m : Machine) : Prop :=
  ∃ k es, k.Booting
    ∧ run (guarded (fun m e => clean m e && stays m e) step) (start k) es = some m

/-- Every terminal that counts a program has a block. -/
def Blocks (k : Kernel) : Prop :=
  ∀ t, 1 ≤ (k.termArr t).numProgram → (k.termArr t).termPcb ≠ 0

/-- All programs are counted on the terminal on display. -/
def Alone (k : Kernel) : Prop :=
  ∀ t, t ≠ k.termFlag → (k.termArr t).numProgram = 0

/-- A program that is started has a block on its terminal. -/
theorem Blocks.started {k k' : Kernel} {frame : Frame} (h : Blocks k)
    (hstart : Started k frame k') : Blocks k' := fun t ht => by
  by_cases htf : t = k.termFlag
  · rw [htf, hstart.termPcb_self]
    exact hstart.block_ne_zero
  · rw [hstart.numProgram t, if_neg htf, Int.add_zero] at ht
    rw [hstart.termPcb_of_ne t htf]
    exact h t ht

/-- A count that goes down needs no block it did not need before. -/
theorem Blocks.of_le {k k' : Kernel} (h : Blocks k)
    (hnum : ∀ t, (k'.termArr t).numProgram ≤ (k.termArr t).numProgram)
    (hpcb : ∀ t, (k'.termArr t).termPcb = (k.termArr t).termPcb) : Blocks k' :=
  fun t ht => by
    rw [hpcb t]
    exact h t (ht.trans (hnum t))

/-- **Every clean step keeps the blocks.** -/
theorem UserStep.blocks {m : Machine} {e : Event} {k : Kernel} (hstep : UserStep m e k)
    (h : ∀ p, m.mode = .user p → Blocks m.kernel) : Blocks k := by
  cases hstep with
  | boot hmode hstart =>
    refine Blocks.started (fun t ht => ?_) hstart
    have hzero : (m.kernel.kbdInit.termArr t).numProgram = 0 := rfl
    omega
  | goesOn hmode hsame hflag =>
    exact (h _ hmode).of_le (fun t => (hsame.numProgram t).le) hsame.termPcb
  | starts hmode hstart => exact (h _ hmode).started hstart
  | respawns hmode hstart =>
    refine Blocks.started ?_ hstart
    refine (h _ hmode).of_le (fun t => ?_) (fun t => ?_)
    · have hcount : (m.kernel.uncountProcess.termArr t).numProgram
          = (m.kernel.termArr t).numProgram := rfl
      rw [uncountProgram_numProgram, hcount]
      split <;> omega
    · exact uncountProgram_termPcb _ t
  | leaves hmode hend =>
    refine (h _ hmode).of_le (fun t => ?_) hend.termPcb
    have hcount : (m.kernel.uncountProcess.termArr t).numProgram
        = (m.kernel.termArr t).numProgram := rfl
    rw [hend.numProgram t, hcount]
    split <;> omega

/-- Counts that change on the terminal on display alone. -/
theorem Alone.of_eq {k k' : Kernel} (h : Alone k) (hflag : k'.termFlag = k.termFlag)
    (hnum : ∀ t, t ≠ k.termFlag → (k'.termArr t).numProgram = (k.termArr t).numProgram) :
    Alone k' := fun t ht => by
  rw [hflag] at ht
  rw [hnum t ht]
  exact h t ht

/-- A program is started on the terminal on display. -/
theorem Alone.started {k k' : Kernel} {frame : Frame} (h : Alone k)
    (hstart : Started k frame k') : Alone k' :=
  h.of_eq hstart.termFlag (fun t ht => by
    rw [hstart.numProgram t, if_neg ht, Int.add_zero])

/-- **A clean step that stays keeps the other terminals empty.** -/
theorem UserStep.alone {m : Machine} {e : Event} {k : Kernel} (hstep : UserStep m e k)
    (hstays : stays m e = true) (h : ∀ p, m.mode = .user p → Alone m.kernel) :
    Alone k := by
  cases hstep with
  | boot hmode hstart => exact Alone.started (fun t ht => rfl) hstart
  | goesOn hmode hsame hflag =>
    refine (h _ hmode).of_eq ?_ (fun t _ => hsame.numProgram t)
    rcases hflag with hflag | ⟨sc, rfl, rfl⟩
    · exact hflag
    · exact of_decide_eq_true hstays
  | starts hmode hstart => exact (h _ hmode).started hstart
  | respawns hmode hstart =>
    have hdown : Alone m.kernel.uncountProcess.uncountProgram :=
      (h _ hmode).of_eq rfl (fun t ht => by
        have hne : t ≠ m.kernel.uncountProcess.termFlag := ht
        rw [uncountProgram_numProgram, if_neg hne, Int.add_zero]
        rfl)
    exact hdown.started hstart
  | leaves hmode hend =>
    refine (h _ hmode).of_eq hend.termFlag (fun t ht => ?_)
    have hne : t ≠ m.kernel.uncountProcess.termFlag := ht
    rw [hend.numProgram t, if_neg hne, Int.add_zero]
    rfl

/-- The blocks, in every machine reached cleanly. -/
theorem CleanReached.blocks {m : Machine} {p : ℤ} (hm : CleanReached m)
    (hmode : m.mode = .user p) : Blocks m.kernel := by
  obtain ⟨k, es, hboot, hrun⟩ := hm
  let I : Machine → Prop := fun m => m.Inv ∧ ∀ p, m.mode = .user p → Blocks m.kernel
  have hI : I m := by
    refine run_induction (I := I) (fun s e s' hs hstep => ?_) ?_ hrun
    · exact ⟨hs.1.step hstep, fun p hp => (userStep_of_step hs.1 hstep hp).blocks hs.2⟩
    · exact ⟨⟨hboot, rfl⟩, fun p hp => nomatch hp⟩
  exact hI.2 p hmode

/-- A run on one terminal is clean. -/
theorem OneTerminalReached.clean {m : Machine} (hm : OneTerminalReached m) :
    CleanReached m := by
  obtain ⟨k, es, hboot, hrun⟩ := hm
  refine ⟨k, es, hboot, run_mono (fun s e hok => ?_) hrun⟩
  exact ((Bool.and_eq_true _ _).mp hok).1

/-- The other terminals are empty, in every machine reached on one. -/
theorem OneTerminalReached.alone {m : Machine} {p : ℤ} (hm : OneTerminalReached m)
    (hmode : m.mode = .user p) : Alone m.kernel := by
  obtain ⟨k, es, hboot, hrun⟩ := hm
  let I : Machine → Prop := fun m => m.Inv ∧ ∀ p, m.mode = .user p → Alone m.kernel
  have hI : I m := by
    refine run_induction (I := I) (fun s e s' hs hstep => ?_) ?_ hrun
    · obtain ⟨hok, hstep⟩ := guarded_eq_some.mp hstep
      obtain ⟨hclean, hstays⟩ := (Bool.and_eq_true _ _).mp hok
      have hstep' := guarded_eq_some.mpr ⟨hclean, hstep⟩
      exact ⟨hs.1.step hstep', fun p hp =>
        (userStep_of_step hs.1 hstep' hp).alone hstays hs.2⟩
    · exact ⟨⟨hboot, rfl⟩, fun p hp => nomatch hp⟩
  exact hI.2 p hmode

/-- **On one terminal the terminal on display counts the process that
runs.** -/
theorem OneTerminalReached.counted {m : Machine} {p : ℤ} (hm : OneTerminalReached m)
    (hmode : m.mode = .user p) : 1 ≤ m.kernel.term.numProgram := by
  have hacc := (hm.clean.user hmode).accounted
  have halone := hm.alone hmode
  have hlo := hacc.lo
  have hsum : (m.kernel.termArr 0).numProgram + (m.kernel.termArr 1).numProgram
      + (m.kernel.termArr 2).numProgram = p + 1 := hacc.programs
  rw [term]
  obtain ht | ht | ht : m.kernel.termFlag = 0 ∨ m.kernel.termFlag = 1
      ∨ m.kernel.termFlag = 2 := by omega
  · have h1 := halone 1 (by rw [ht]; decide)
    have h2 := halone 2 (by rw [ht]; decide)
    rw [ht]
    omega
  · have h0 := halone 0 (by rw [ht]; decide)
    have h2 := halone 2 (by rw [ht]; decide)
    rw [ht]
    omega
  · have h0 := halone 0 (by rw [ht]; decide)
    have h1 := halone 1 (by rw [ht]; decide)
    rw [ht]
    omega

/-! ## Balance -/

/-- **The running process finds everything as it was**: the counts, its
memory, its stack, the block that `get_pcb` finds for it, and every block
above the one of the child, which are those of the processes up to number
`active_proc`. -/
structure Restored (k k' : Kernel) : Prop where
  activeProc : k'.activeProc = k.activeProc
  processCounter : k'.processCounter = k.processCounter
  numProgram : ∀ t, (k'.termArr t).numProgram = (k.termArr t).numProgram
  mapping : k'.paging.pageDirectory 32 = k.paging.pageDirectory 32
  esp0 : k'.esp0 = k.esp0
  pcb : k'.pcb (getPcb k.esp0) = k.pcb (getPcb k.esp0)
  above : ∀ b, kstackToPcb (k.activeProc + 1) < b → k'.pcb b = k.pcb b

/-- **A state from which balanced runs restore**: the stack and the memory are
those of the process that `active_proc` numbers, and the terminal on display
counts a program and has a block. -/
structure Balances (k : Kernel) : Prop where
  mapping : k.paging.pageDirectory 32 = programEntry k.activeProc
  esp0 : k.esp0 = kstackTop k.activeProc
  counted : 1 ≤ k.term.numProgram
  block : k.term.termPcb ≠ 0

instance (k : Kernel) : Decidable (Balances k) :=
  decidable_of_iff (k.paging.pageDirectory 32 = programEntry k.activeProc
      ∧ k.esp0 = kstackTop k.activeProc ∧ 1 ≤ k.term.numProgram ∧ k.term.termPcb ≠ 0)
    ⟨fun ⟨h₁, h₂, h₃, h₄⟩ => ⟨h₁, h₂, h₃, h₄⟩, fun ⟨h₁, h₂, h₃, h₄⟩ => ⟨h₁, h₂, h₃, h₄⟩⟩

/-- The blocks of the processes up to the running one are above that of the
child. -/
theorem kstackToPcb_succ_lt_of_le {a n : ℤ} (ha : 0 ≤ a) (han : a ≤ n) (hn : n ≤ 509) :
    kstackToPcb (n + 1) < kstackToPcb a := by
  have hchild := kstackToPcb_eq (x := n + 1) (by omega) (by omega)
  have hself := kstackToPcb_eq ha (by omega)
  omega

/-- **When `execute` and `halt` are balanced**: process `a` runs again after a
balanced run and finds everything as it was, exactly if before the run the
stack and the memory are those of number `active_proc` and the terminal on
display counts a program and has a block. -/
theorem balanced_restores_iff {m m' : Machine} {a : ℤ} {es : List Event}
    (hmode : m.mode = .user a) (h0 : 0 ≤ m.kernel.activeProc)
    (hcounter : i8 m.kernel.processCounter = m.kernel.processCounter)
    (hrun : Balanced m es m') :
    m'.mode = .user a ∧ Restored m.kernel m'.kernel ↔ Balances m.kernel := by
  cases hrun with
  | mk hstarts hstep hbody hhalt =>
    constructor
    · -- The counts are as they were, so no `halt` of the run has started a shell.
      rintro ⟨-, hrestored⟩
      have hsame := hrestored.activeProc
      have hprograms : m'.kernel.programs = m.kernel.programs := by
        rw [programs, hrestored.numProgram, hrestored.numProgram, hrestored.numProgram]
        rfl
      obtain ⟨hactive₁, hprograms₁⟩ := hstarts.counts hstep
      have hcounts := hbody.counts
      obtain ⟨hplain, hactive', hprograms'⟩ | ⟨hle, hless⟩ := halt_counts hhalt
      · obtain ⟨hstart, hmode₁⟩ := hstarts.started hmode hstep
        have hchild := AtLevel.started h0 rfl hstart
        rw [hchild.activeProc] at hmode₁
        obtain ⟨hmode₂, hkeep⟩ :=
          hbody.keepsLevel_of_counts hmode₁ hchild (by omega) (by omega)
        obtain ⟨hblock, hcounted⟩ := (not_restartsShell_iff h0 rfl hstart hkeep).mp hplain
        obtain ⟨-, hclosed⟩ :=
          bracket_ends h0 rfl hcounter hstart hmode₂ hkeep hplain hhalt
        exact ⟨hrestored.mapping.symm.trans hclosed.mapping,
          hrestored.esp0.symm.trans hclosed.esp0, hcounted, hblock⟩
      · omega
    · intro hbalances
      have hdisplay : OnDisplay m.kernel m.kernel.activeProc :=
        ⟨⟨h0, rfl, hcounter, hbalances.mapping, hbalances.esp0⟩, hbalances.counted,
          hbalances.block⟩
      obtain ⟨hmode', hclosed, hpage⟩ :=
        hdisplay.bracket hmode hstarts hstep hbody.keepsLevel hhalt
      have hown : getPcb m.kernel.esp0 = kstackToPcb m.kernel.activeProc :=
        hdisplay.getPcb_esp0
      refine ⟨hmode', hclosed.activeProc, hclosed.processCounter, hclosed.numProgram, ?_, ?_, ?_,
        hclosed.above⟩
      · rw [hclosed.mapping, hbalances.mapping]
      · rw [hclosed.esp0, hbalances.esp0]
      · rw [hown]
        exact hclosed.above _ (kstackToPcb_succ_lt hpage)

/-- **In a clean run on one terminal** the condition holds, and in every clean
run if the terminal on display counts a program. -/
theorem CleanReached.balances {m : Machine} {a : ℤ} (hm : CleanReached m)
    (hmode : m.mode = .user a) (hone : OneTerminalReached m ∨ 1 ≤ m.kernel.term.numProgram) :
    Balances m.kernel := by
  have hcounted : 1 ≤ m.kernel.term.numProgram := by
    rcases hone with hone | hcounted
    · exact hone.counted hmode
    · exact hcounted
  have hacc := (hm.user hmode).accounted
  rw [← hacc.activeProc] at hacc
  exact ⟨hacc.mapping, hacc.esp0, hcounted, hm.blocks hmode _ hcounted⟩

/-- The first shell executes a second one, which halts at once. -/
theorem balanced_restores_shell :
    ∃ m m', run step (start loadedKernel) [.boot zeroStale] = some m
      ∧ Balanced m [.execute zeroStale (some (cstring "shell")), .halt zeroStale 0] m'
      ∧ m'.mode = .user 0 ∧ Restored m.kernel m'.kernel
      ∧ m'.kernel.pcb (kstackToPcb 0) = m.kernel.pcb (kstackToPcb 0) := by
  have hstate : (run step (start loadedKernel) [.boot zeroStale]).map
        (fun m => (m.mode, m.kernel.activeProc, decide (Balances m.kernel),
          decide (i8 m.kernel.processCounter = m.kernel.processCounter),
          (KernelDesign.execute m.kernel zeroStale (.syscall 0)
            (some (cstring "shell"))).isStarted,
          ((step m (.execute zeroStale (some (cstring "shell")))).bind
            (fun m₁ => step m₁ (.halt zeroStale 0))).isSome))
      = some (.user 0, 0, true, true, true, true) := by
    decide +kernel
  obtain ⟨m, hrun, hm⟩ := Option.map_eq_some_iff.mp hstate
  simp only [Prod.mk.injEq] at hm
  obtain ⟨hmode, hactive, hbalances, hcounter, hstarted, hsome⟩ := hm
  obtain ⟨k, hk⟩ := ExecResult.exists_of_isStarted hstarted
  obtain ⟨m', hm'⟩ := Option.isSome_iff_exists.mp hsome
  obtain ⟨m₁, hexec, hhalt⟩ := Option.bind_eq_some_iff.mp hm'
  have hbalanced : Balanced m
      [.execute zeroStale (some (cstring "shell")), .halt zeroStale 0] m' :=
    Balanced.mk ⟨0, k, hmode, hk⟩ hexec (Nested.nil m₁) hhalt
  obtain ⟨hmode', hrestored⟩ := (balanced_restores_iff hmode (by omega)
    (of_decide_eq_true hcounter) hbalanced).mpr (of_decide_eq_true hbalances)
  refine ⟨m, m', hrun, hbalanced, hmode', hrestored, hrestored.above _ ?_⟩
  rw [hactive]
  exact kstackToPcb_succ_lt_of_le (le_refl 0) (le_refl 0) (by decide)

/-- **After a failed load a balanced run moves the stack**: process 0 executes
`broken`, which fails, and then a shell, which halts at once. Process 0 is on
its own stack before, and on that of process 1 after. -/
theorem balanced_moves_stack :
    ∃ m m', run step (start loadedKernel)
        [.boot zeroStale, .execute zeroStale (some (cstring "broken"))] = some m
      ∧ m.mode = .user 0
      ∧ Balanced m [.execute zeroStale (some (cstring "shell")), .halt zeroStale 0] m'
      ∧ m'.mode = .user 0
      ∧ m.kernel.esp0 = kstackTop 0 ∧ m'.kernel.esp0 = kstackTop 1
      ∧ ¬ Restored m.kernel m'.kernel := by
  have hstate : (run step (start loadedKernel)
        [.boot zeroStale, .execute zeroStale (some (cstring "broken"))]).map
        (fun m => (m.mode, m.kernel.esp0,
          (KernelDesign.execute m.kernel zeroStale (.syscall 0)
            (some (cstring "shell"))).isStarted,
          ((step m (.execute zeroStale (some (cstring "shell")))).bind
            (fun m₁ => step m₁ (.halt zeroStale 0))).map
              (fun m' => (m'.mode, m'.kernel.esp0))))
      = some (.user 0, kstackTop 0, true, some (.user 0, kstackTop 1)) := by
    decide +kernel
  obtain ⟨m, hrun, hm⟩ := Option.map_eq_some_iff.mp hstate
  simp only [Prod.mk.injEq] at hm
  obtain ⟨hmode, hbefore, hstarted, hafter⟩ := hm
  obtain ⟨k, hk⟩ := ExecResult.exists_of_isStarted hstarted
  obtain ⟨m', hm', hm''⟩ := Option.map_eq_some_iff.mp hafter
  obtain ⟨m₁, hexec, hhalt⟩ := Option.bind_eq_some_iff.mp hm'
  simp only [Prod.mk.injEq] at hm''
  obtain ⟨hmode', hesp⟩ := hm''
  refine ⟨m, m', hrun, hmode, Balanced.mk ⟨0, k, hmode, hk⟩ hexec (Nested.nil m₁) hhalt, hmode',
    hbefore, hesp, fun hrestored => ?_⟩
  have hsame := hrestored.esp0
  rw [hesp, hbefore] at hsame
  exact absurd hsame (by decide)

end Machine

end KernelDesign
