import KernelDesign.ProcessSteps

/-!
# The accounts of the processes

In every run in which no call of `execute` fails in its load, the process
numbers in use are 0 to the number of the process that runs, one for each
program counted, and each process but a shell the kernel started was
started by the one numbered just below it.

`Accounted` says this of the counters and `Chain` of the list of live
processes and the frames in their control blocks. A step keeps both
(`Inv.step`), and the results about runs are read off the invariant.

A shell that replaced another one has that other's `halt` as the caller of
its `execute`. Should it ever leave, control comes back into a `halt` whose
block is its own, and stays there: `inHalt` is a mode no run comes out of.
-/

namespace KernelDesign

open Kernel Transition Words

/-! ## The counters -/

/-- **The counters while process `p` runs.** -/
structure Accounted (k : Kernel) (p : ℤ) : Prop where
  lo : 0 ≤ p
  hi : p ≤ 5
  activeProc : k.activeProc = p
  processCounter : k.processCounter = p + 1
  programs : k.programs = p + 1
  counts : ∀ t, 0 ≤ (k.termArr t).numProgram
  esp0 : k.esp0 = kstackTop p
  mapping : k.paging.pageDirectory 32 = programEntry p

namespace Accounted

variable {k k' : Kernel} {p : ℤ} {frame : Frame} (h : Accounted k p)

include h

/-- The counters are among the books. -/
theorem of_sameBooks (hsame : k.SameBooks k') : Accounted k' p where
  lo := h.lo
  hi := h.hi
  activeProc := hsame.activeProc.trans h.activeProc
  processCounter := hsame.processCounter.trans h.processCounter
  programs := hsame.programs.trans h.programs
  counts t := by
    rw [hsame.numProgram t]
    exact h.counts t
  esp0 := hsame.esp0.trans h.esp0
  mapping := hsame.mapping.trans h.mapping

/-- The control block `get_pcb` finds is that of the process that runs. -/
theorem getPcb_esp0 : getPcb k.esp0 = kstackToPcb p := by
  rw [h.esp0, getPcb_kstackTop]

/-- **A program started by `p` is number `p + 1`.** -/
theorem started (hstart : Started k frame k') : Accounted k' (p + 1) := by
  have hcap := hstart.below_cap
  have hprog := programs_eq hstart.numProgram
  have hlo := h.lo
  rw [h.programs] at hcap hprog
  constructor
  · omega
  · omega
  · rw [hstart.activeProc, h.activeProc]
  · rw [hstart.processCounter, h.processCounter, i8_of_bounds (by omega) (by omega)]
  · exact hprog
  · intro t
    have hcount := h.counts t
    rw [hstart.numProgram t]
    split <;> omega
  · rw [hstart.esp0, h.activeProc]
  · rw [hstart.mapping, h.activeProc]

/-- **A shell that replaces `p` has its number.** -/
theorem respawned (hstart : Started k.uncountProcess.uncountProgram frame k') :
    Accounted k' p := by
  -- Each counter went down by one before `execute` counted the shell up.
  have hdown := uncountProgram_numProgram k.uncountProcess
  have hprog := programs_eq hstart.numProgram
  have hactive : k.uncountProcess.uncountProgram.activeProc = p - 1 :=
    congrArg (fun z => z - 1) h.activeProc
  have hlo := h.lo
  have hhi := h.hi
  rw [programs_eq hdown] at hprog
  constructor
  · exact h.lo
  · exact h.hi
  · rw [hstart.activeProc, hactive, Int.sub_add_cancel]
  · have hcounter : k.uncountProcess.uncountProgram.processCounter = p := by
      show i8 (k.processCounter - 1) = p
      rw [h.processCounter, i8_of_bounds (by omega) (by omega), Int.add_sub_cancel]
    rw [hstart.processCounter, hcounter, i8_of_bounds (by omega) (by omega)]
  · have hsum : k.uncountProcess.programs = p + 1 := h.programs
    omega
  · intro t
    have hcount : 0 ≤ (k.uncountProcess.termArr t).numProgram := h.counts t
    have hflag : k.uncountProcess.uncountProgram.termFlag = k.uncountProcess.termFlag :=
      rfl
    rw [hstart.numProgram t, hdown t, hflag]
    split <;> omega
  · rw [hstart.esp0, hactive, Int.sub_add_cancel]
  · rw [hstart.mapping, hactive, Int.sub_add_cancel]

/-- **A process that leaves without a new shell** is not the first, and the
one below it runs. -/
theorem left {pcb : ℕ} (hrestart : k.uncountProcess.restartsShell pcb = false)
    (hend : HaltEnd k.uncountProcess pcb k') : 1 ≤ p ∧ Accounted k' (p - 1) := by
  have hactive : k.uncountProcess.activeProc = p - 1 :=
    congrArg (fun z => z - 1) h.activeProc
  have hlo := h.lo
  have hhi := h.hi
  -- Process 0 would have been replaced, since `active_proc` would be -1.
  obtain ⟨-, hfirst, htwo⟩ := not_restartsShell.mp hrestart
  have hone : 1 ≤ p := by
    have hself := h.activeProc
    omega
  refine ⟨hone, ?_⟩
  constructor
  · omega
  · omega
  · rw [hend.activeProc, hactive]
  · rw [hend.processCounter]
    show i8 (k.processCounter - 1) = _
    rw [h.processCounter, i8_of_bounds (by omega) (by omega)]
    omega
  · have hsum : k.uncountProcess.programs = p + 1 := h.programs
    rw [programs_eq hend.numProgram]
    omega
  · intro t
    have hcount : 0 ≤ (k.uncountProcess.termArr t).numProgram := h.counts t
    rw [hend.numProgram t]
    split
    · rename_i ht
      rw [ht]
      have hdisplayed : 2 ≤ (k.uncountProcess.termArr k.uncountProcess.termFlag).numProgram :=
        htwo
      omega
    · omega
  · rw [hend.esp0, hactive]
  · rw [hend.mapping, hactive]

end Accounted

/-! ## The live processes -/

/-- **How a live process was started**, as the frame in its control block
has it: by the process numbered one below, or as a shell by the `halt` of
the shell it replaces or at boot. -/
def StartedBy (q : Proc) (frame : Frame) : Prop :=
  match q.parent with
  | some a => a = q.num - 1 ∧ 0 ≤ a ∧ frame = .syscall a
  | none => frame = .halt (kstackToPcb q.num) ∨ frame = .kbdInit ∧ q.num = 0

/-- **The live processes are numbered from `p` down to 0**, and each was
started as its frame says. -/
inductive Chain (frame : ℕ → Frame) : ℤ → List Proc → Prop
  | nil : Chain frame (-1) []
  | cons {q : Proc} {qs : List Proc} (h0 : 0 ≤ q.num)
      (hstart : StartedBy q (frame (kstackToPcb q.num)))
      (hrest : Chain frame (q.num - 1) qs) : Chain frame q.num (q :: qs)

namespace Chain

variable {frame frame' : ℕ → Frame} {p : ℤ} {qs : List Proc}

/-- A chain depends on the frames of its own processes. -/
theorem congr (h : Chain frame p qs)
    (hsame : ∀ n, 0 ≤ n → n ≤ p → frame' (kstackToPcb n) = frame (kstackToPcb n)) :
    Chain frame' p qs := by
  induction h with
  | nil => exact Chain.nil
  | cons h0 hstart hrest ih =>
    refine Chain.cons h0 ?_ (ih (fun n hn0 hn => hsame n hn0 (by omega)))
    rw [hsame _ h0 (le_refl _)]
    exact hstart

/-- The numbers lie between 0 and the latest. -/
theorem bounds (h : Chain frame p qs) {q : Proc} (hq : q ∈ qs) :
    0 ≤ q.num ∧ q.num ≤ p := by
  induction h with
  | nil => exact absurd hq List.not_mem_nil
  | cons h0 hstart hrest ih =>
    rcases List.mem_cons.mp hq with rfl | hq
    · exact ⟨h0, le_refl _⟩
    · obtain ⟨hlo, hhi⟩ := ih hq
      exact ⟨hlo, by omega⟩

/-- **No two live processes have the same number.** -/
theorem nodup (h : Chain frame p qs) : (qs.map (fun q => q.num)).Nodup := by
  induction h with
  | nil => exact List.nodup_nil
  | cons h0 hstart hrest ih =>
    rw [List.map_cons, List.nodup_cons]
    refine ⟨fun hmem => ?_, ih⟩
    obtain ⟨r, hr, hnum⟩ := List.mem_map.mp hmem
    have hle := (hrest.bounds hr).2
    omega

/-- **Every number from 0 to the latest is live.** -/
theorem exists_num (h : Chain frame p qs) {n : ℤ} (h0 : 0 ≤ n) (hn : n ≤ p) :
    ∃ q ∈ qs, q.num = n := by
  induction h with
  | nil => omega
  | @cons q qs hq0 hstart hrest ih =>
    rcases Int.lt_or_eq_of_le hn with hlt | heq
    · obtain ⟨r, hr, hnum⟩ := ih (by omega)
      exact ⟨r, List.mem_cons_of_mem _ hr, hnum⟩
    · exact ⟨q, List.mem_cons_self, heq.symm⟩

/-- The chain without its latest process. -/
theorem tail {q : Proc} (h : Chain frame p (q :: qs)) :
    q.num = p ∧ 0 ≤ p ∧ StartedBy q (frame (kstackToPcb p)) ∧ Chain frame (p - 1) qs := by
  cases h with
  | cons h0 hstart hrest => exact ⟨rfl, h0, hstart, hrest⟩

/-- **The other processes** of a chain are all but its first entry. -/
theorem filter_eq {q : Proc} (h : Chain frame p (q :: qs)) :
    (q :: qs).filter (fun r => r.num ≠ p) = qs := by
  obtain ⟨hnum, -, -, hrest⟩ := h.tail
  rw [List.filter_cons_of_neg (by rw [decide_eq_true_eq]; exact not_not_intro hnum)]
  refine List.filter_eq_self.mpr (fun r hr => decide_eq_true ?_)
  have hle := (hrest.bounds hr).2
  omega

/-- A chain to a number that is not negative has a first entry. -/
theorem exists_cons (h : Chain frame p qs) (h0 : 0 ≤ p) :
    ∃ q rest, qs = q :: rest := by
  cases h with
  | nil => omega
  | cons h0 hstart hrest => exact ⟨_, _, rfl⟩

/-- **A process that is started extends the chain**, if no block but its
own is written. -/
theorem launch {num : ℤ} {parent : Option ℤ} {home : Fin 3} (h : Chain frame (num - 1) qs)
    (h0 : 0 ≤ num) (hnum : num ≤ 1021)
    (hstart : StartedBy ⟨num, parent, home⟩ (frame' (kstackToPcb num)))
    (hne : ∀ a, a ≠ kstackToPcb num → frame' a = frame a) :
    Chain frame' num (⟨num, parent, home⟩ :: qs) := by
  refine Chain.cons h0 hstart (h.congr (fun n hn0 hn => hne _ (fun heq => ?_)))
  have := kstackToPcb_injective hn0 (by omega) h0 hnum heq
  omega

end Chain

/-! ## The machine -/

/-- The frames in the control blocks of a kernel. -/
def Kernel.frames (k : Kernel) (a : ℕ) : Frame := (k.pcb a).frame

/-- **What holds while process `p` runs.** -/
structure UserInv (k : Kernel) (p : ℤ) (procs : List Proc) : Prop where
  accounted : Accounted k p
  chain : Chain k.frames p procs

/-- It is about the books alone. -/
theorem UserInv.of_sameBooks {k k' : Kernel} {p : ℤ} {procs : List Proc}
    (h : UserInv k p procs) (hsame : k.SameBooks k') : UserInv k' p procs where
  accounted := h.accounted.of_sameBooks hsame
  chain := (funext hsame.frame : k'.frames = k.frames) ▸ h.chain

/-- **The invariant of the runs in which every `execute` loads.** -/
def Machine.Inv (m : Machine) : Prop :=
  match m.mode with
  | .boot => m.kernel.Booting ∧ m.procs = []
  | .user p => UserInv m.kernel p m.procs
  | .inHalt pcb => m.kernel.frames pcb = .halt pcb
  | .idle | .stopped => True

namespace Machine

/-- The books are all the invariant is about. -/
theorem Inv.of_sameBooks {m : Machine} {k : Kernel} (h : m.Inv) (hmode : m.mode ≠ .boot)
    (hsame : m.kernel.SameBooks k) : Inv { m with kernel := k } := by
  obtain ⟨kernel, mode, procs⟩ := m
  have hframes : k.frames = kernel.frames := funext hsame.frame
  cases mode with
  | boot => exact absurd rfl hmode
  | user p => exact UserInv.of_sameBooks h hsame
  | inHalt pcb => exact (congrFun hframes pcb).trans h
  | idle | stopped => trivial

/-- A new process of `p`, in the invariant. -/
theorem inv_launch_child {k k' : Kernel} {p : ℤ} {procs : List Proc}
    (h : UserInv k p procs) (hstart : Started k (.syscall p) k') :
    (launch k' (some p) procs).Inv := by
  have hacc' := h.accounted.started hstart
  have hlo := h.accounted.lo
  have hhi := hacc'.hi
  have hactive : k'.activeProc = p + 1 := hacc'.activeProc
  have hself := hstart.frame_self
  have hne := hstart.pcb_of_ne
  rw [h.accounted.activeProc] at hself hne
  have hrest : Chain k.frames (p + 1 - 1) procs := by
    rw [Int.add_sub_cancel]
    exact h.chain
  rw [launch, hactive]
  exact ⟨hacc', hrest.launch (by omega) (by omega)
    ⟨(Int.add_sub_cancel p 1).symm, hlo, hself⟩
    (fun a ha => congrArg Pcb.frame (hne a ha))⟩

/-- A shell in the place of `p`, in the invariant. -/
theorem inv_launch_shell {k k' : Kernel} {p : ℤ} {q : Proc} {procs : List Proc}
    (h : UserInv k p (q :: procs))
    (hstart : Started k.uncountProcess.uncountProgram (.halt (kstackToPcb p)) k') :
    (launch k' none procs).Inv := by
  have hacc' := h.accounted.respawned hstart
  have hlo := h.accounted.lo
  have hhi := h.accounted.hi
  obtain ⟨-, -, -, hrest⟩ := h.chain.tail
  have hactive : k'.activeProc = p := hacc'.activeProc
  have hnext : k.uncountProcess.uncountProgram.activeProc + 1 = p := by
    have := hstart.activeProc
    omega
  have hself := hstart.frame_self
  have hne := hstart.pcb_of_ne
  rw [hnext] at hself hne
  rw [launch, hactive]
  exact ⟨hacc', hrest.launch hlo (by omega) (Or.inl hself)
    (fun a ha => congrArg Pcb.frame (hne a ha))⟩

/-! ### How the clean calls end -/

/-- The shell of the boot is process 0. -/
theorem next_activeProc_of_booting {k : Kernel} (h : k.Booting) :
    k.kbdInit.activeProc + 1 = 0 := by
  show k.activeProc + 1 = 0
  rw [h.activeProc]
  rfl

section

variable {m : Machine} {st : Stale}

/-- **A clean boot** starts the shell, or runs no process. -/
theorem bootStep_cases (hclean : clean m (.boot st) = true) :
    (∃ k, Started m.kernel.kbdInit .kbdInit k ∧ m.bootStep st = launch k none m.procs)
      ∨ (∃ k, m.bootStep st = land k .kbdInit m.procs)
      ∨ m.bootStep st = ⟨m.kernel.kbdInit, .stopped, m.procs⟩ := by
  rw [clean] at hclean
  rw [bootStep]
  cases hexec : execute m.kernel.kbdInit st .kbdInit (some (cstring "shell")) with
  | started k => exact Or.inl ⟨k, started_of_execute hexec, rfl⟩
  | rejected k => exact Or.inr (Or.inl ⟨k, rfl⟩)
  | loadFailed k =>
    rw [hexec] at hclean
    exact absurd hclean Bool.false_ne_true
  | fault => exact Or.inr (Or.inr rfl)

/-- **A clean call of `execute`** starts a program, writes at most on the
screen, or does not return. -/
theorem executeStep_cases {p : ℤ} {command : Option Bytes} (hmode : m.mode = .user p)
    (hclean : clean m (.execute st command) = true) :
    (∃ k, Started m.kernel (.syscall p) k
        ∧ m.executeStep p st command = launch k (some p) m.procs)
      ∨ (∃ c, m.executeStep p st command
          = { m with kernel := { m.kernel with console := c } })
      ∨ m.executeStep p st command = { m with mode := .stopped } := by
  rw [clean, hmode] at hclean
  rw [executeStep]
  cases hexec : execute m.kernel st (.syscall p) command with
  | started k => exact Or.inl ⟨k, started_of_execute hexec, rfl⟩
  | rejected k =>
    obtain ⟨c, rfl⟩ := rejected_of_execute hexec
    exact Or.inr (Or.inl ⟨c, rfl⟩)
  | loadFailed k =>
    dsimp only at hclean
    rw [hexec] at hclean
    exact absurd hclean Bool.false_ne_true
  | fault => exact Or.inr (Or.inr rfl)

/-- **A clean call of `halt`** on the block at `pcb` starts the shell,
faults in its call of `execute`, or hands over to the frame of the block. -/
theorem haltStep_cases (p : ℤ) {status : UInt8} {pcb : ℕ}
    (hpcb : getPcb m.kernel.esp0 = pcb) (hclean : clean m (.halt st status) = true) :
    (m.kernel.uncountProcess.restartsShell pcb = true
        ∧ ((∃ k, Started m.kernel.uncountProcess.uncountProgram (.halt pcb) k
              ∧ m.haltStep p st = launch k none (m.others p))
          ∨ (halt m.kernel st pcb = .fault
              ∧ m.haltStep p st = { m with mode := .stopped })))
      ∨ (m.kernel.uncountProcess.restartsShell pcb = false
        ∧ ∃ k, HaltEnd m.kernel.uncountProcess pcb k
          ∧ m.haltStep p st = land k (m.kernel.frames pcb) (m.others p)) := by
  rw [clean, hpcb] at hclean
  rw [haltStep, hpcb]
  have hcase := halt_cases m.kernel st pcb
  generalize hhalt : halt m.kernel st pcb = r at hcase hclean ⊢
  cases hcase with
  | respawned hrestart hexec =>
    exact Or.inl ⟨hrestart, Or.inl ⟨_, started_of_execute hexec, rfl⟩⟩
  | failed hrestart =>
    dsimp only at hclean
    rw [hrestart] at hclean
    exact absurd hclean Bool.false_ne_true
  | fault hrestart => exact Or.inl ⟨hrestart, Or.inr ⟨rfl, rfl⟩⟩
  | resumed hrestart =>
    dsimp only
    rw [haltTail_fst]
    exact Or.inr ⟨hrestart, _, haltEnd_haltTail m.kernel.uncountProcess pcb, rfl⟩

end

/-! ### The invariant along the runs -/

/-- **The boot keeps the invariant.** -/
theorem Inv.bootStep {m : Machine} {st : Stale} (h : m.Inv) (hmode : m.mode = .boot)
    (hclean : clean m (.boot st) = true) : (m.bootStep st).Inv := by
  rw [Inv, hmode] at h
  obtain ⟨hboot, hprocs⟩ := h
  rcases bootStep_cases hclean with ⟨k, hstart, heq⟩ | ⟨k, heq⟩ | heq
  · have hactive := next_activeProc_of_booting hboot
    have hself := hstart.frame_self
    rw [hactive] at hself
    have hk : k.activeProc = 0 := hstart.activeProc.trans hactive
    rw [heq, launch, hk, hprocs]
    have hnil : Chain k.frames (0 - 1) [] := Chain.nil
    refine ⟨?_, hnil.launch (le_refl 0) (by decide) (Or.inr ⟨hself, rfl⟩)
      (fun _ _ => rfl)⟩
    constructor
    · exact le_refl 0
    · decide
    · exact hk
    · rw [hstart.processCounter]
      show i8 (m.kernel.processCounter + 1) = _
      rw [hboot.processCounter]
      exact i8_of_bounds (by decide) (by decide)
    · rw [programs_eq hstart.numProgram]
      rfl
    · intro t
      rw [hstart.numProgram t]
      show (0 : ℤ) ≤ 0 + ite _ _ _
      split <;> decide
    · rw [hstart.esp0, hactive]
    · rw [hstart.mapping, hactive]
  · rw [heq]
    trivial
  · rw [heq]
    trivial

/-- **A call of `execute` keeps the invariant.** -/
theorem Inv.executeStep {m : Machine} {p : ℤ} {st : Stale} {command : Option Bytes}
    (h : m.Inv) (hmode : m.mode = .user p)
    (hclean : clean m (.execute st command) = true) :
    (m.executeStep p st command).Inv := by
  rcases executeStep_cases hmode hclean with ⟨k, hstart, heq⟩ | ⟨c, heq⟩ | heq
  · rw [heq]
    rw [Inv, hmode] at h
    exact inv_launch_child h hstart
  · rw [heq]
    exact h.of_sameBooks (mode_ne_boot hmode)
      (m.kernel.sameProcesses_console c).toSameBooks
  · rw [heq]
    trivial

/-- **Where a process that leaves without a new shell hands over**, and
what the books are there. -/
theorem inv_left {k k' : Kernel} {p : ℤ} {q : Proc} {procs : List Proc}
    (h : UserInv k p (q :: procs))
    (hrestart : k.uncountProcess.restartsShell (kstackToPcb p) = false)
    (hend : HaltEnd k.uncountProcess (kstackToPcb p) k') :
    (land k' (k.frames (kstackToPcb p)) procs).Inv := by
  obtain ⟨hone, hacc'⟩ := h.accounted.left hrestart hend
  obtain ⟨hnum, -, hstart, hrest⟩ := h.chain.tail
  have hframes : k'.frames = k.frames := funext hend.frame
  -- A child goes back to the process below it. A shell that replaced another
  -- goes back into the `halt` of the other, on a block that is its own.
  rw [StartedBy] at hstart
  cases hparent : q.parent with
  | some a =>
    rw [hparent] at hstart
    obtain ⟨ha, -, hframe⟩ := hstart
    rw [hframe, ha, hnum]
    exact ⟨hacc', hframes ▸ hrest⟩
  | none =>
    rw [hparent, hnum] at hstart
    rcases hstart with hframe | ⟨-, hzero⟩
    · rw [hframe]
      exact (congrFun hframes _).trans hframe
    · omega

/-- **A call of `halt` keeps the invariant.** -/
theorem Inv.haltStep {m : Machine} {p : ℤ} {st : Stale} {status : UInt8} (h : m.Inv)
    (hmode : m.mode = .user p) (hclean : clean m (.halt st status) = true) :
    (m.haltStep p st).Inv := by
  rw [Inv, hmode] at h
  obtain ⟨hacc, hchain⟩ := h
  obtain ⟨q, rest, hprocs⟩ := hchain.exists_cons hacc.lo
  have hothers : m.others p = rest := by
    rw [others, hprocs]
    exact (hprocs ▸ hchain).filter_eq
  rw [hprocs] at hchain
  have huser : UserInv m.kernel p (q :: rest) := ⟨hacc, hchain⟩
  rcases haltStep_cases p hacc.getPcb_esp0 hclean with
    ⟨-, ⟨k, hstart, heq⟩ | ⟨-, heq⟩⟩ | ⟨hrestart, k, hend, heq⟩
  · rw [heq, hothers]
    exact inv_launch_shell huser hstart
  · rw [heq]
    trivial
  · rw [heq, hothers]
    exact inv_left huser hrestart hend

/-- **Every clean step keeps the invariant.** -/
theorem Inv.step {m m' : Machine} {e : Event} (h : m.Inv)
    (hstep : guarded clean Machine.step m e = some m') : m'.Inv := by
  obtain ⟨hclean, hstep⟩ := guarded_eq_some.mp hstep
  cases step_cases hstep with
  | boot hmode => exact h.bootStep hmode hclean
  | execute hmode => exact h.executeStep hmode hclean
  | halt hmode => exact h.haltStep hmode hclean
  | @resume pcb hmode =>
    -- This `halt` continues in itself.
    rw [Inv, hmode] at h
    have hframe : (m.kernel.pcb pcb).frame = .halt pcb := h
    have hsame := (haltEnd_haltTail m.kernel pcb).frame pcb
    rw [resumeStep, haltTail_fst, hframe]
    exact hsame.trans hframe
  | call hmode hcall =>
    exact h.of_sameBooks (mode_ne_boot hmode) (fileCall_localTo hcall).toSameBooks
  | vidmap hmode hcall =>
    exact h.of_sameBooks (mode_ne_boot hmode) (sysVidmap_sameProcesses hcall).toSameBooks
  | trap hmode => trivial
  | @key sc hmode =>
    exact h.of_sameBooks hmode (kbdIntrHandler_sameProcesses m.kernel sc).toSameBooks

/-- **The invariant holds of every machine reached cleanly.** -/
theorem CleanReached.inv {m : Machine} (hm : CleanReached m) : m.Inv := by
  obtain ⟨k, es, hboot, hrun⟩ := hm
  refine run_induction (fun s e s' hs hstep => Inv.step hs hstep) ?_ hrun
  exact ⟨hboot, rfl⟩

/-- The invariant in a user process. -/
theorem CleanReached.user {m : Machine} {p : ℤ} (hm : CleanReached m)
    (hmode : m.mode = .user p) : UserInv m.kernel p m.procs := by
  have h := hm.inv
  rw [Inv, hmode] at h
  exact h

/-! ## What a step does to the kernel -/

/-- **How a step ends in a user process**: the boot starts the shell, the
process that runs goes on with the books as they were, it starts a program,
its `halt` starts a shell, or its `halt` ends without one. Only a key
changes the terminal on display. -/
inductive UserStep (m : Machine) (e : Event) (k : Kernel) : Prop
  | boot (hmode : m.mode = .boot) (hstart : Started m.kernel.kbdInit .kbdInit k)
  | goesOn {p : ℤ} (hmode : m.mode = .user p) (hsame : m.kernel.SameBooks k)
      (hflag : k.termFlag = m.kernel.termFlag
        ∨ ∃ sc, e = .key sc ∧ k = m.kernel.kbdIntrHandler sc)
  | starts {p : ℤ} (hmode : m.mode = .user p) (hstart : Started m.kernel (.syscall p) k)
  | respawns {p : ℤ} {frame : Frame} (hmode : m.mode = .user p)
      (hstart : Started m.kernel.uncountProcess.uncountProgram frame k)
  | leaves {p : ℤ} {pcb : ℕ} (hmode : m.mode = .user p)
      (hend : HaltEnd m.kernel.uncountProcess pcb k)

/-- A continuation lands where the frame says. -/
theorem land_user {k : Kernel} {f : Frame} {procs : List Proc} {p : ℤ}
    (h : (land k f procs).mode = .user p) : (land k f procs).kernel = k := by
  cases f with
  | unset | kbdInit | halt => cases h
  | syscall q => rfl

/-- The boot, when it ends in a user process. -/
theorem userStep_boot {m : Machine} {st : Stale} {q : ℤ} (hmode : m.mode = .boot)
    (hclean : clean m (.boot st) = true) (hmode' : (m.bootStep st).mode = .user q) :
    UserStep m (.boot st) (m.bootStep st).kernel := by
  rcases bootStep_cases hclean with ⟨k, hstart, heq⟩ | ⟨k, heq⟩ | heq
  · rw [heq]
    exact .boot hmode hstart
  · rw [heq] at hmode'
    cases hmode'
  · rw [heq] at hmode'
    cases hmode'

/-- A call of `execute`, when a user process runs after it. -/
theorem userStep_execute {m : Machine} {p q : ℤ} {st : Stale} {command : Option Bytes}
    (hmode : m.mode = .user p) (hclean : clean m (.execute st command) = true)
    (hmode' : (m.executeStep p st command).mode = .user q) :
    UserStep m (.execute st command) (m.executeStep p st command).kernel := by
  rcases executeStep_cases hmode hclean with ⟨k, hstart, heq⟩ | ⟨c, heq⟩ | heq
  · rw [heq]
    exact .starts hmode hstart
  · rw [heq]
    exact .goesOn hmode (m.kernel.sameProcesses_console c).toSameBooks (Or.inl rfl)
  · rw [heq] at hmode'
    cases hmode'

/-- A call of `halt`, when a user process runs after it. -/
theorem userStep_halt {m : Machine} {p q : ℤ} {st : Stale} {status : UInt8}
    (hmode : m.mode = .user p) (hclean : clean m (.halt st status) = true)
    (hmode' : (m.haltStep p st).mode = .user q) :
    UserStep m (.halt st status) (m.haltStep p st).kernel := by
  rcases haltStep_cases p rfl hclean with
    ⟨-, ⟨k, hstart, heq⟩ | ⟨-, heq⟩⟩ | ⟨-, k, hend, heq⟩
  · rw [heq]
    exact .respawns hmode hstart
  · rw [heq] at hmode'
    cases hmode'
  · rw [heq] at hmode' ⊢
    rw [land_user hmode']
    exact .leaves hmode hend

/-- **Every clean step that ends in a user process is one of these.** -/
theorem userStep_of_step {m m' : Machine} {e : Event} {p : ℤ} (h : m.Inv)
    (hstep : guarded clean Machine.step m e = some m') (hmode' : m'.mode = .user p) :
    UserStep m e m'.kernel := by
  obtain ⟨hclean, hstep⟩ := guarded_eq_some.mp hstep
  cases step_cases hstep with
  | boot hmode => exact userStep_boot hmode hclean hmode'
  | execute hmode => exact userStep_execute hmode hclean hmode'
  | halt hmode => exact userStep_halt hmode hclean hmode'
  | @resume pcb hmode =>
    -- By the invariant this `halt` continues in itself.
    rw [Inv, hmode] at h
    have hframe : (m.kernel.pcb pcb).frame = .halt pcb := h
    rw [resumeStep, haltTail_fst, hframe] at hmode'
    cases hmode'
  | call hmode hcall =>
    have hlocal := fileCall_localTo hcall
    exact .goesOn hmode hlocal.toSameBooks (Or.inl hlocal.termFlag)
  | vidmap hmode hcall =>
    exact .goesOn hmode (sysVidmap_sameProcesses hcall).toSameBooks
      (Or.inl (sysVidmap_frame hcall).1)
  | trap hmode => cases hmode'
  | @key sc hmode =>
    exact .goesOn hmode' (kbdIntrHandler_sameProcesses m.kernel sc).toSameBooks
      (Or.inr ⟨sc, rfl, rfl⟩)

/-! ## Consistency -/

/-- **The numbers handed out are free**: no two live processes share one, a
call of `execute` by `p` gives the new process a number that no live
process has, and so does a `halt` of `p` that starts a shell, of the
processes other than `p`. -/
structure FreshNumbers (m : Machine) (p : ℤ) : Prop where
  nodup : (m.procs.map (fun q => q.num)).Nodup
  execute : ∀ st command k, execute m.kernel st (.syscall p) command = .started k →
    ∀ q ∈ m.procs, q.num ≠ k.activeProc
  halt : ∀ st k, halt m.kernel st (getPcb m.kernel.esp0) = .respawned k →
    ∀ q ∈ m.others p, q.num ≠ k.activeProc

/-- The shell `halt` starts has the number of the process that halts. -/
theorem activeProc_of_respawned {k k' : Kernel} {st : Stale} {pcb : ℕ}
    (h : halt k st pcb = .respawned k') : k'.activeProc = k.activeProc := by
  have hcase := halt_cases k st pcb
  rw [h] at hcase
  cases hcase with
  | respawned hrestart hexec => exact (started_of_execute hexec).respawned_activeProc

/-- **The accounts are consistent and bounded.** Whenever a user process
runs, in a run in which every `execute` is refused or loads completely,
`active_proc + 1`, `process_counter` and the sum of `num_program` are one
number between 1 and 6, and the numbers handed out are free. -/
theorem accounts_consistent {m : Machine} {p : ℤ} (hm : CleanReached m)
    (hmode : m.mode = .user p) :
    m.kernel.activeProc + 1 = m.kernel.processCounter
      ∧ m.kernel.processCounter = m.kernel.programs
      ∧ 1 ≤ m.kernel.programs ∧ m.kernel.programs ≤ 6
      ∧ FreshNumbers m p := by
  obtain ⟨hacc, hchain⟩ := hm.user hmode
  have hlo := hacc.lo
  have hhi := hacc.hi
  refine ⟨?_, ?_, ?_, ?_, hchain.nodup, fun st command k hexec q hq => ?_,
    fun st k hhalt q hq => ?_⟩
  · rw [hacc.activeProc, hacc.processCounter]
  · rw [hacc.processCounter, hacc.programs]
  · rw [hacc.programs]
    omega
  · rw [hacc.programs]
    omega
  · have hnew := (started_of_execute hexec).activeProc
    have hle := (hchain.bounds hq).2
    rw [hacc.activeProc] at hnew
    omega
  · rw [activeProc_of_respawned hhalt, hacc.activeProc]
    exact of_decide_eq_true (List.mem_filter.mp hq).2

/-- The first shell is process 0 and the only one. -/
theorem accounts_consistent_boot :
    ∃ m, run (guarded clean Machine.step) (start loadedKernel) [.boot zeroStale] = some m
      ∧ m.mode = .user 0
      ∧ m.kernel.activeProc + 1 = m.kernel.processCounter
      ∧ m.kernel.processCounter = m.kernel.programs
      ∧ 1 ≤ m.kernel.programs ∧ m.kernel.programs ≤ 6
      ∧ FreshNumbers m 0 := by
  have hmode : (run (guarded clean Machine.step) (start loadedKernel)
      [.boot zeroStale]).map (fun m => m.mode) = some (.user 0) := by
    decide +kernel
  obtain ⟨m, hrun, hm⟩ := Option.map_eq_some_iff.mp hmode
  exact ⟨m, hrun, hm,
    accounts_consistent ⟨loadedKernel, _, loadedKernel_booting, hrun⟩ hm⟩

/-! ## Returning to the parent -/

/-- **A step in which the file `shell` loads**: a `halt` that starts a shell
does not come back from it. -/
def shellLoads (m : Machine) : Event → Bool
  | .halt st _ =>
    let pcb := getPcb m.kernel.esp0
    match KernelDesign.halt m.kernel st pcb with
    | .resumed _ _ => !m.kernel.uncountProcess.restartsShell pcb
    | _ => true
  | _ => true

/-- **Process `p` is a child of `a`**: a call of `execute` of `a` started it,
and `a` is still live. -/
def ChildOf (m : Machine) (p a : ℤ) : Prop :=
  (∃ q ∈ m.procs, q.num = p ∧ q.parent = some a) ∧ ∃ r ∈ m.procs, r.num = a

/-- **The `halt` of `p` has returned to `a`**: process `a` runs, in its
memory, and no process has taken the place of `p`. -/
structure ReturnsTo (m m' : Machine) (p a : ℤ) : Prop where
  mode : m'.mode = .user a
  procs : m'.procs = m.others p
  activeProc : m'.kernel.activeProc = a
  mapping : m'.kernel.paging.pageDirectory 32 = programEntry a

/-- **A step returns to the parent** if it is the `halt` of a child. -/
def HaltReturns (m : Machine) (e : Event) (m' : Machine) : Prop :=
  ∀ p a st status, e = .halt st status → m.mode = .user p → m.ChildOf p a →
    ReturnsTo m m' p a

/-- **The kernel leads back to `a`**: the control block that `tss.esp0` leads
to has a parent pointer and the frame of the call of `execute` that `a` made,
`active_proc` is the number behind that of `a`, and the terminal on display
counts two programs. -/
structure LeadsBack (k : Kernel) (a : ℤ) : Prop where
  parent : (k.pcb (getPcb k.esp0)).parentProcessPtr ≠ 0
  frame : k.frames (getPcb k.esp0) = .syscall a
  next : k.activeProc = a + 1
  notFirst : k.activeProc ≠ 0
  counted : 2 ≤ k.term.numProgram

instance (k : Kernel) (a : ℤ) : Decidable (LeadsBack k a) :=
  decidable_of_iff ((k.pcb (getPcb k.esp0)).parentProcessPtr ≠ 0
      ∧ k.frames (getPcb k.esp0) = .syscall a ∧ k.activeProc = a + 1 ∧ k.activeProc ≠ 0
      ∧ 2 ≤ k.term.numProgram)
    ⟨fun ⟨h₁, h₂, h₃, h₄, h₅⟩ => ⟨h₁, h₂, h₃, h₄, h₅⟩,
      fun ⟨h₁, h₂, h₃, h₄, h₅⟩ => ⟨h₁, h₂, h₃, h₄, h₅⟩⟩

/-- **A step before which the kernel leads back** if it is the `halt` of a
child. -/
def HaltLeadsBack (m : Machine) (e : Event) : Prop :=
  ∀ p a st status, e = .halt st status → m.mode = .user p → m.ChildOf p a →
    LeadsBack m.kernel a

/-- **When a `halt` returns to `a`**, in every state. -/
theorem returnsTo_haltStep_iff {m : Machine} {p a : ℤ} {st : Stale} {status : UInt8}
    (hshell : shellLoads m (.halt st status) = true) :
    ReturnsTo m (m.haltStep p st) p a ↔ LeadsBack m.kernel a := by
  have hclean : clean m (.halt st status) = true := hshell
  rcases haltStep_cases p rfl hclean with
    ⟨hrestart, ⟨k, hstart, heq⟩ | ⟨-, heq⟩⟩ | ⟨hrestart, k, hend, heq⟩
  · -- A shell in the place of `p` is one more process.
    rw [heq]
    refine iff_of_false (fun hret => ?_) (fun hback => ?_)
    · exact absurd hret.procs (List.cons_ne_self _ _)
    · rw [not_restartsShell.mpr ⟨hback.parent, hback.notFirst, hback.counted⟩] at hrestart
      cases hrestart
  · rw [heq]
    refine iff_of_false (fun hret => ?_) (fun hback => ?_)
    · cases hret.mode
    · rw [not_restartsShell.mpr ⟨hback.parent, hback.notFirst, hback.counted⟩] at hrestart
      cases hrestart
  · obtain ⟨hparent, hfirst, hcounted⟩ := not_restartsShell.mp hrestart
    have hdown : k.activeProc = m.kernel.activeProc - 1 := hend.activeProc
    rw [heq]
    constructor
    · intro hret
      have hframe := land_mode_eq_user.mp hret.mode
      have hback := hret.activeProc
      rw [land_user hret.mode] at hback
      exact ⟨hparent, hframe, by omega, hfirst, hcounted⟩
    · intro hback
      have hnum : k.activeProc = a := by
        have hnext := hback.next
        omega
      rw [hback.frame]
      refine ⟨rfl, rfl, hnum, ?_⟩
      have hmapping : k.paging.pageDirectory 32
          = programEntry m.kernel.uncountProcess.activeProc := hend.mapping
      rw [← hend.activeProc, hnum] at hmapping
      exact hmapping

/-- **When `halt` goes back to the process that called `execute`**: along a
run, at every `halt` of a child of a live process, exactly if before each of
them the kernel leads back to that process. -/
theorem halt_returns_iff (k : Kernel) (es : List Event) :
    Along (guarded shellLoads Machine.step) HaltReturns (start k) es
      ↔ Along (guarded shellLoads Machine.step) (fun m e _ => HaltLeadsBack m e) (start k) es := by
  refine along_iff (I := fun _ => True) (fun m e m' _ hstep => ?_) (fun _ _ _ _ _ _ => trivial)
    trivial es
  obtain ⟨hshell, hstep⟩ := guarded_eq_some.mp hstep
  refine forall_congr' (fun p => forall_congr' (fun a => forall_congr' (fun st =>
    forall_congr' (fun status => forall_congr' (fun he => forall_congr' (fun hmode =>
      forall_congr' (fun _ => ?_)))))))
  subst he
  rw [step_halt hmode] at hstep
  cases hstep
  exact returnsTo_haltStep_iff hshell

/-- **In a clean run two tests are left**: the frame and the number are those
of the parent. -/
theorem leadsBack_iff {m : Machine} {p a : ℤ} (hm : CleanReached m) (hmode : m.mode = .user p)
    (hchild : m.ChildOf p a) :
    LeadsBack m.kernel a
      ↔ (m.kernel.pcb (getPcb m.kernel.esp0)).parentProcessPtr ≠ 0
        ∧ 2 ≤ m.kernel.term.numProgram := by
  obtain ⟨hacc, hchain⟩ := hm.user hmode
  obtain ⟨⟨q, hq, hnum, hparent⟩, -⟩ := hchild
  obtain ⟨r, rest, hprocs⟩ := hchain.exists_cons hacc.lo
  rw [hprocs] at hchain hq
  -- The latest process is the one that runs.
  obtain rfl : q = r := by
    rcases List.mem_cons.mp hq with hqr | hqr
    · exact hqr
    · have hle := (hchain.tail.2.2.2.bounds hqr).2
      omega
  obtain ⟨-, -, hstart, -⟩ := hchain.tail
  rw [StartedBy, hparent, hnum] at hstart
  obtain ⟨ha, ha0, hframe⟩ := hstart
  have hactive := hacc.activeProc
  refine ⟨fun h => ⟨h.parent, h.counted⟩, fun h => ⟨h.1, ?_, by omega, by omega, h.2⟩⟩
  rw [hacc.getPcb_esp0]
  exact hframe

/-- A child started and ended on one terminal returns to its parent. -/
theorem halt_returns_nested :
    (run (guarded shellLoads Machine.step) (start loadedKernel)
        [.boot zeroStale, .execute zeroStale (some (cstring "shell")), .halt zeroStale 0]).map
          (fun m => m.mode) = some (.user 0)
      ∧ Along (guarded shellLoads Machine.step) HaltReturns (start loadedKernel)
        [.boot zeroStale, .execute zeroStale (some (cstring "shell")), .halt zeroStale 0] := by
  have hstate : (run (guarded shellLoads Machine.step) (start loadedKernel)
      [.boot zeroStale, .execute zeroStale (some (cstring "shell"))]).map
        (fun m => (m.mode, m.procs, decide (LeadsBack m.kernel 0)))
      = some (.user 1, [⟨1, some 0, 0⟩, ⟨0, none, 0⟩], true) := by
    decide +kernel
  refine ⟨by decide +kernel, (halt_returns_iff _ _).mpr (fun m₁ h₁ =>
    ⟨fun _ _ _ _ he => (nomatch he), fun m₂ h₂ => ⟨fun _ _ _ _ he => (nomatch he), fun m₃ h₃ =>
      ⟨fun p a st status he hmode hchild => ?_, along_nil _ _⟩⟩⟩)⟩
  -- The run has one `halt`, of process 1, which is a child of process 0.
  rw [run_cons, h₁, Option.bind_some, run_cons, h₂, Option.bind_some, run_nil, Option.map_some,
    Option.some.injEq, Prod.mk.injEq, Prod.mk.injEq] at hstate
  obtain ⟨hmode', hprocs, hback⟩ := hstate
  obtain ⟨⟨q, hq, hnum, hparent⟩, -⟩ := hchild
  rw [hprocs] at hq
  obtain rfl | hq := List.mem_cons.mp hq
  · cases hparent
    exact of_decide_eq_true hback
  · obtain rfl := List.mem_singleton.mp hq
    cases hparent

/-- **A child started on another terminal is replaced by a shell**: the
first shell switches to the second terminal and executes a program there,
and when that program halts, control is in a new process with its
number. -/
theorem halt_replaces_child :
    ∃ m, run (guarded shellLoads Machine.step) (start loadedKernel)
        [.boot zeroStale, .key 0x38, .key 0x3C,
          .execute zeroStale (some (cstring "shell"))] = some m
      ∧ m.mode = .user 1 ∧ m.procs = [⟨1, some 0, 1⟩, ⟨0, none, 0⟩]
      ∧ shellLoads m (.halt zeroStale 0) = true
      ∧ (m.haltStep 1 zeroStale).mode = .user 1
      ∧ ¬ HaltReturns m (.halt zeroStale 0) (m.haltStep 1 zeroStale) := by
  have hstate : (run (guarded shellLoads Machine.step) (start loadedKernel)
      [.boot zeroStale, .key 0x38, .key 0x3C,
        .execute zeroStale (some (cstring "shell"))]).map
        (fun m => (m.mode, m.procs, shellLoads m (.halt zeroStale 0),
          (m.haltStep 1 zeroStale).mode))
      = some (.user 1, [⟨1, some 0, 1⟩, ⟨0, none, 0⟩], true, .user 1) := by
    decide +kernel
  obtain ⟨m, hrun, hm⟩ := Option.map_eq_some_iff.mp hstate
  rw [Prod.mk.injEq, Prod.mk.injEq, Prod.mk.injEq] at hm
  obtain ⟨hmode, hprocs, hshell, hafter⟩ := hm
  refine ⟨m, hrun, hmode, hprocs, hshell, hafter, fun hreturns => ?_⟩
  have hchild : m.ChildOf 1 0 := by
    rw [ChildOf, hprocs]
    exact ⟨⟨_, List.mem_cons_self, rfl, rfl⟩, _, List.mem_cons_of_mem _ List.mem_cons_self, rfl⟩
  have hback := (hreturns 1 0 zeroStale 0 rfl hmode hchild).mode
  rw [hafter] at hback
  exact absurd hback (by decide)

end Machine

end KernelDesign
