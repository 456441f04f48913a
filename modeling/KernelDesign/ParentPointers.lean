import KernelDesign.Balanced

/-!
# Parent pointers

`execute` takes the parent of the new process from `term_pcb` of the
terminal on display, and stores the new block there. While processes are
only started, on one terminal, that is the block of the process that called
`execute`: the pointer of a process names the process that started it, and
`term_pcb` the process that runs.

`halt` reads the parent pointer and restores nothing. After the `halt` of a
child `term_pcb` is still the block of the child, and a shell that replaces
another is a child of the one it replaces. `parentsTrue_iff` is the exact
condition: the pointers are true in every state of a run if and only if no
process halts in it.
-/

namespace KernelDesign

open Kernel Transition Words

/-- **The pointer of `q` names its parent**: it is NULL for a shell the
kernel started, and otherwise the block of the live process whose call of
`execute` started `q`. -/
def NamesParent (k : Kernel) (procs : List Proc) (q : Proc) : Prop :=
  match q.parent with
  | none => (k.pcb (kstackToPcb q.num)).parentProcessPtr = 0
  | some a => (∃ r ∈ procs, r.num = a)
      ∧ (k.pcb (kstackToPcb q.num)).parentProcessPtr = kstackToPcb a

/-- It depends on the pointer and on the processes that live. -/
theorem NamesParent.mono {k k' : Kernel} {procs procs' : List Proc} {q : Proc}
    (h : NamesParent k procs q) (hsub : procs ⊆ procs')
    (hptr : (k'.pcb (kstackToPcb q.num)).parentProcessPtr
      = (k.pcb (kstackToPcb q.num)).parentProcessPtr) : NamesParent k' procs' q := by
  unfold NamesParent at h ⊢
  rw [hptr]
  cases hparent : q.parent with
  | none =>
    rw [hparent] at h
    exact h
  | some a =>
    rw [hparent] at h
    obtain ⟨⟨r, hr, hnum⟩, hself⟩ := h
    exact ⟨⟨r, hsub hr, hnum⟩, hself⟩

namespace Machine

/-- **The pointers are true while process `p` runs.** -/
structure PointersAt (k : Kernel) (p : ℤ) (procs : List Proc) : Prop where
  parents : ∀ q ∈ procs, NamesParent k procs q
  running : k.term.termPcb = kstackToPcb p

/-- **The pointers are true**: every live process names its parent, and the
terminal on display the process that runs. -/
def ParentsTrue (m : Machine) : Prop := ∀ p, m.mode = .user p → PointersAt m.kernel p m.procs

/-- An event that is no call of `halt`. -/
def NoHalt : Event → Prop
  | .halt _ _ => False
  | _ => True

/-- The system restricted to clean steps that stay on the terminal on
display. -/
abbrev oneTerminalStep : Machine → Event → Option Machine :=
  guarded (fun m e => clean m e && stays m e) step

/-! ## Steps that keep the pointers -/

/-- The pointers are among the books. -/
theorem PointersAt.of_sameBooks {k k' : Kernel} {p : ℤ} {procs : List Proc}
    (h : PointersAt k p procs) (hsame : k.SameBooks k') (hflag : k'.termFlag = k.termFlag) :
    PointersAt k' p procs where
  parents q hq := (h.parents q hq).mono (List.Subset.refl _) (hsame.parent _)
  running := by
    rw [term, hsame.termPcb, hflag]
    exact h.running

/-- **A process that is started names the one that runs**, which is live. -/
theorem PointersAt.started {k k' : Kernel} {p : ℤ} {procs : List Proc} {home : Fin 3}
    (h : PointersAt k p procs) (huser : UserInv k p procs)
    (hstart : Started k (.syscall p) k') :
    PointersAt k' (p + 1) (⟨p + 1, some p, home⟩ :: procs) := by
  have hlo := huser.accounted.lo
  have hhi := (huser.accounted.started hstart).hi
  have hself := hstart.parent_self
  have hpcb := hstart.termPcb_self
  have hne := hstart.pcb_of_ne
  rw [huser.accounted.activeProc] at hself hpcb hne
  constructor
  · intro q hq
    obtain rfl | hq := List.mem_cons.mp hq
    · obtain ⟨r, hr, hnum⟩ := huser.chain.exists_num hlo (le_refl p)
      exact ⟨⟨r, List.mem_cons_of_mem _ hr, hnum⟩, hself.trans h.running⟩
    · obtain ⟨hq0, hqp⟩ := huser.chain.bounds hq
      refine (h.parents q hq).mono (List.subset_cons_self _ _) ?_
      rw [hne _ (fun heq => ?_)]
      have := kstackToPcb_injective hq0 (by omega) (by omega) (by omega) heq
      omega
  · rw [term, hstart.termFlag]
    exact hpcb

/-- **The boot.** -/
theorem parentsTrue_bootStep {m : Machine} {st : Stale} (hboot : m.kernel.Booting)
    (hprocs : m.procs = []) (hclean : clean m (.boot st) = true) :
    (m.bootStep st).ParentsTrue := by
  rcases bootStep_cases hclean with ⟨k, hstart, heq⟩ | ⟨k, heq⟩ | heq
  · have hself := hstart.parent_self
    have hpcb := hstart.termPcb_self
    rw [next_activeProc_of_booting hboot] at hself hpcb
    have hk : k.activeProc = 0 :=
      hstart.activeProc.trans (next_activeProc_of_booting hboot)
    rw [heq, hprocs]
    intro p hp
    obtain rfl : k.activeProc = p := Mode.user.inj hp
    show PointersAt k k.activeProc [⟨k.activeProc, none, k.termFlag⟩]
    rw [hk]
    refine ⟨fun q hq => ?_, ?_⟩
    · obtain rfl := List.mem_singleton.mp hq
      exact hself
    · show (k.termArr k.termFlag).termPcb = _
      rw [hstart.termFlag]
      exact hpcb
  · rw [heq]
    exact fun p hp => absurd hp (by simp)
  · rw [heq]
    exact fun p hp => absurd hp (by simp)

/-- **A call of `execute`.** -/
theorem ParentsTrue.executeStep {m : Machine} {p : ℤ} {st : Stale} {command : Option Bytes}
    (h : m.ParentsTrue) (hinv : m.Inv) (hmode : m.mode = .user p)
    (hclean : clean m (.execute st command) = true) :
    (m.executeStep p st command).ParentsTrue := by
  rcases executeStep_cases hmode hclean with ⟨k, hstart, heq⟩ | ⟨c, heq⟩ | heq
  · rw [Inv, hmode] at hinv
    have hactive : k.activeProc = p + 1 := (hinv.accounted.started hstart).activeProc
    rw [heq]
    intro q hq
    obtain rfl : k.activeProc = q := Mode.user.inj hq
    show PointersAt k k.activeProc (⟨k.activeProc, some p, k.termFlag⟩ :: m.procs)
    rw [hactive]
    exact (h p hmode).started hinv hstart
  · rw [heq]
    exact fun q hq => (h q hq).of_sameBooks (sameProcesses_console _ c).toSameBooks rfl
  · rw [heq]
    exact fun q hq => absurd hq (by simp)

/-- **Every other step but `halt`.** -/
theorem ParentsTrue.step {m m' : Machine} {e : Event} (h : m.ParentsTrue) (hinv : m.Inv)
    (hstep : oneTerminalStep m e = some m') (hno : NoHalt e) : m'.ParentsTrue := by
  obtain ⟨hok, hstep⟩ := guarded_eq_some.mp hstep
  obtain ⟨hclean, hstays⟩ := (Bool.and_eq_true _ _).mp hok
  have hsame : ∀ k, m.kernel.SameBooks k → k.termFlag = m.kernel.termFlag →
      ParentsTrue { m with kernel := k } :=
    fun k hbooks hflag q hq => (h q hq).of_sameBooks hbooks hflag
  cases step_cases hstep with
  | boot hmode =>
    rw [Inv, hmode] at hinv
    exact parentsTrue_bootStep hinv.1 hinv.2 hclean
  | execute hmode => exact h.executeStep hinv hmode hclean
  | halt hmode => exact hno.elim
  | @resume pcb hmode =>
    -- By the invariant this `halt` continues in itself.
    rw [Inv, hmode] at hinv
    have hframe : (m.kernel.pcb pcb).frame = .halt pcb := hinv
    rw [resumeStep, haltTail_fst, hframe]
    exact fun q hq => absurd hq (by simp)
  | call hmode hcall =>
    have hlocal := fileCall_localTo hcall
    exact hsame _ hlocal.toSameBooks hlocal.termFlag
  | vidmap hmode hcall =>
    exact hsame _ (sysVidmap_sameProcesses hcall).toSameBooks (sysVidmap_frame hcall).1
  | trap hmode => exact fun q hq => absurd hq (by simp)
  | @key sc hmode =>
    exact hsame _ (kbdIntrHandler_sameProcesses m.kernel sc).toSameBooks
      (of_decide_eq_true hstays)

/-! ## `halt` -/

/-- The block of a process in range is not at the null address. -/
theorem kstackToPcb_ne_zero {p : ℤ} (h0 : 0 ≤ p) (hp : p ≤ 5) : kstackToPcb p ≠ 0 := by
  have heq := kstackToPcb_eq h0 (by omega)
  omega

/-! ## The shell fits -/

/-- The entry that a lookup of `shell` finds. -/
def shellEntry (fs : FileSystem) : Dentry :=
  (readDentryByName fs (some (exeFname (cstring "shell"))) (some unsetDentry)).dentry.getD
    unsetDentry

/-- **The shell fits in the user page.** -/
def ShellFits (fs : FileSystem) : Prop := ∀ stack, ¬ LeavesPage fs stack (shellEntry fs).inode

/-- It is a property of the volume. -/
theorem ShellFits.of_sameVolume {fs fs' : FileSystem} (h : ShellFits fs)
    (hsame : fs.SameVolume fs') : ShellFits fs' := by
  have hentry : shellEntry fs' = shellEntry fs := by
    rw [shellEntry, hsame.readDentryByName]
    rfl
  intro stack
  rw [hentry]
  obtain ⟨d, c, rfl⟩ := hsame
  exact h stack

/-- **A shell that has been started fits.** -/
theorem shellFits_of_execute {k k' : Kernel} {st : Stale} {frame : Frame}
    (h : execute k st frame (some (cstring "shell")) = .started k') : ShellFits k.fs := by
  have hcase := execute_cases k st frame (some (cstring "shell"))
  rw [h] at hcase
  cases hcase with
  | @started s d hcommand hcap hlook hstays hload hpage =>
    cases hcommand
    intro stack hleaves
    rw [shellEntry, ← eq_of_execLookup hlook] at hleaves
    exact hstays hleaves.of_stack

/-- The kernel that a continuation lands in has the same file system. -/
theorem land_fs (k : Kernel) (f : Frame) (procs : List Proc) :
    (land k f procs).kernel.fs = k.fs := by
  cases f with
  | unset | kbdInit | syscall | halt => rfl

/-- The last part of `halt` leaves the volume. -/
theorem haltTail_sameVolume (k : Kernel) (pcb : ℕ) :
    k.fs.SameVolume (haltTail k pcb).2.fs :=
  (closeFiles_localTo k.leaveProcess pcb).volume

/-- **No step after the boot changes the volume.** -/
theorem sameVolume_of_step {m m' : Machine} {e : Event} (hboot : m.mode ≠ .boot)
    (hstep : Machine.step m e = some m') : m.kernel.fs.SameVolume m'.kernel.fs := by
  have hsame : ∀ fs, fs = m.kernel.fs → m.kernel.fs.SameVolume fs := fun fs heq => heq ▸ .refl _
  cases step_cases hstep with
  | boot hmode => exact absurd hmode hboot
  | @execute st command p hmode =>
    have hfs : ∀ k, (KernelDesign.execute m.kernel st (.syscall p) command).kernel = some k →
        k.fs = m.kernel.fs := fun _ => execute_fs
    rw [Machine.executeStep]
    cases hexec : KernelDesign.execute m.kernel st (.syscall p) command with
    | started k | rejected k | loadFailed k =>
      exact hsame _ (hfs k (congrArg ExecResult.kernel hexec))
    | fault => exact .refl _
  | @halt st status p hmode =>
    rw [Machine.haltStep]
    have hcase := halt_cases m.kernel st (getPcb m.kernel.esp0)
    generalize KernelDesign.halt m.kernel st (getPcb m.kernel.esp0) = r at hcase ⊢
    cases hcase with
    | @respawned k hrestart hexec =>
      have hk := execute_fs (congrArg ExecResult.kernel hexec)
      exact hsame _ hk
    | @failed k hrestart hexec =>
      dsimp only
      rw [land_fs]
      have hk := execute_fs (ExecResult.kernel_of_failed hexec)
      exact (hsame _ hk).trans (haltTail_sameVolume k _)
    | fault => exact .refl _
    | resumed hrestart =>
      dsimp only
      rw [land_fs]
      have hk : m.kernel.uncountProcess.fs = m.kernel.fs := rfl
      exact (hsame _ hk).trans (haltTail_sameVolume m.kernel.uncountProcess _)
  | @resume pcb hmode =>
    rw [resumeStep, land_fs]
    exact haltTail_sameVolume m.kernel pcb
  | call hmode hcall => exact (fileCall_localTo hcall).volume
  | vidmap hmode hcall => exact hsame _ (sysVidmap_frame hcall).2
  | trap hmode => exact .refl _
  | @key sc hmode => exact hsame _ (kbdIntrHandler_fs _ sc)

/-- **While a process runs, the shell fits**, since the boot has started it. -/
theorem shellFits_step {m m' : Machine} {e : Event} (hinv : m.Inv)
    (h : ∀ p, m.mode = .user p → ShellFits m.kernel.fs)
    (hstep : guarded clean Machine.step m e = some m') (p : ℤ) (hmode' : m'.mode = .user p) :
    ShellFits m'.kernel.fs := by
  have huser := userStep_of_step hinv hstep hmode'
  obtain ⟨hclean, hstep⟩ := guarded_eq_some.mp hstep
  by_cases hboot : m.mode = .boot
  · cases step_cases hstep with
    | @boot st _ =>
      rw [Machine.bootStep] at hmode' ⊢
      cases hexec : KernelDesign.execute m.kernel.kbdInit st .kbdInit
          (some (cstring "shell")) with
      | started k =>
        have hfs : k.fs = m.kernel.kbdInit.fs := execute_fs (congrArg ExecResult.kernel hexec)
        show ShellFits k.fs
        rw [hfs]
        exact shellFits_of_execute hexec
      | rejected k | loadFailed k | fault =>
        rw [hexec] at hmode'
        cases hmode'
    | execute hmode | halt hmode | call hmode | vidmap hmode | resume hmode | trap hmode =>
      rw [hboot] at hmode
      cases hmode
    | key hmode => exact absurd hboot hmode
  · -- Whatever ran before the step had the shell of the boot.
    have hbefore : ShellFits m.kernel.fs := by
      cases huser with
      | boot hmode => exact absurd hmode hboot
      | goesOn hmode | starts hmode | respawns hmode | leaves hmode => exact h _ hmode
    exact hbefore.of_sameVolume (sameVolume_of_step hboot hstep)

/-- The `halt` of a process that runs does not fault: a shell started in its
place has its block, which is in the kernel page, and the shell fits. -/
theorem halt_ne_fault {k : Kernel} {p : ℤ} (h : Accounted k p) (hfits : ShellFits k.fs)
    (st : Stale) (pcb : ℕ) : halt k st pcb ≠ .fault := by
  have hpage : inKernelPage (kstackToPcb (k.uncountProcess.uncountProgram.activeProc + 1))
      = true := by
    have hactive : k.uncountProcess.uncountProgram.activeProc + 1 = p := by
      show k.activeProc - 1 + 1 = p
      rw [Int.sub_add_cancel, h.activeProc]
    have hlo := h.lo
    have hhi := h.hi
    have heq := kstackToPcb_eq hlo (by omega)
    rw [hactive, inKernelPage, decide_eq_true_eq]
    omega
  intro hfault
  have hcase := halt_cases k st pcb
  rw [hfault] at hcase
  cases hcase with
  | fault hrestart hexec =>
    have hcase := execute_cases k.uncountProcess.uncountProgram st (.halt pcb)
      (some (cstring "shell"))
    rw [hexec] at hcase
    cases hcase with
    | @fault s d hcommand hcap hlook hcause =>
      cases hcommand
      rcases hcause with hleaves | ⟨-, hout⟩
      · rw [eq_of_execLookup hlook] at hleaves
        exact hfits st.loadStack hleaves
      · rw [hpage] at hout
        cases hout

/-- **After a `halt` the pointers are not true.** A shell in the place of
`p` has the block of `p` as its parent, and the terminal of a process that
goes on has the block of the child that left. -/
theorem ParentsTrue.not_haltStep {m : Machine} {p : ℤ} {st : Stale} {status : UInt8}
    (h : m.ParentsTrue) (hinv : m.Inv) (hfits : ShellFits m.kernel.fs)
    (hmode : m.mode = .user p) (hclean : clean m (.halt st status) = true) :
    ¬ (m.haltStep p st).ParentsTrue := by
  rw [Inv, hmode] at hinv
  obtain ⟨hacc, hchain⟩ := hinv
  have hlo := hacc.lo
  have hhi := hacc.hi
  have hat := h p hmode
  obtain ⟨q, rest, hprocs⟩ := hchain.exists_cons hlo
  rw [hprocs] at hchain
  rcases haltStep_cases p hacc.getPcb_esp0 hclean with
    ⟨-, ⟨k, hstart, heq⟩ | ⟨hfault, -⟩⟩ | ⟨hrestart, k, hend, heq⟩
  · -- The shell has a parent pointer.
    have hself := hstart.parent_self
    rw [← hstart.activeProc] at hself
    rw [heq]
    intro htrue
    have hnull : (k.pcb (kstackToPcb k.activeProc)).parentProcessPtr = 0 :=
      (htrue k.activeProc rfl).parents ⟨k.activeProc, none, k.termFlag⟩ List.mem_cons_self
    have hblock : m.kernel.uncountProcess.uncountProgram.term.termPcb = kstackToPcb p :=
      (uncountProgram_termPcb _ _).trans hat.running
    rw [hself, hblock] at hnull
    exact kstackToPcb_ne_zero hlo hhi hnull
  · exact absurd hfault (halt_ne_fault hacc hfits st _)
  · obtain ⟨hnum, -, hstart, -⟩ := hchain.tail
    have hq := hat.parents q (hprocs ▸ List.mem_cons_self)
    rw [StartedBy] at hstart
    rw [NamesParent, hnum] at hq
    cases hparent : q.parent with
    | none =>
      -- A process without a parent would have been replaced.
      rw [hparent] at hq
      exact absurd hq (not_restartsShell.mp hrestart).1
    | some a =>
      rw [hparent] at hstart
      obtain ⟨ha, ha0, hframe⟩ := hstart
      have hframe' : m.kernel.frames (kstackToPcb p) = .syscall a := hframe
      rw [heq, hframe']
      intro htrue
      have hrunning : k.term.termPcb = kstackToPcb a := (htrue a rfl).running
      rw [term, hend.termPcb, hend.termFlag] at hrunning
      have hkept : m.kernel.term.termPcb = kstackToPcb a := hrunning
      rw [hat.running] at hkept
      have := kstackToPcb_injective hlo (by omega) ha0 (by omega) hkept
      omega

/-! ## Runs -/

/-- **What holds until a process halts.** -/
structure PointersInv (m : Machine) : Prop where
  inv : m.Inv
  fits : ∀ p, m.mode = .user p → ShellFits m.kernel.fs
  pointers : m.ParentsTrue

theorem PointersInv.step {m m' : Machine} {e : Event} (h : PointersInv m)
    (hstep : oneTerminalStep m e = some m') (hno : NoHalt e) : PointersInv m' := by
  obtain ⟨hok, hstep'⟩ := guarded_eq_some.mp hstep
  have hclean := guarded_eq_some.mpr ⟨((Bool.and_eq_true _ _).mp hok).1, hstep'⟩
  exact ⟨h.inv.step hclean, shellFits_step h.inv h.fits hclean,
    h.pointers.step h.inv hstep hno⟩

/-- **When the parent pointers are true**: along a run on one terminal, in
every state of it, exactly if no process halts. -/
theorem parentsTrue_iff {k : Kernel} (hboot : k.Booting) (es : List Event) :
    Along oneTerminalStep (fun _ _ m' => m'.ParentsTrue) (start k) es
      ↔ Along oneTerminalStep (fun _ e _ => NoHalt e) (start k) es := by
  have hkeep : ∀ m e m', PointersInv m → oneTerminalStep m e = some m' → NoHalt e →
      PointersInv m' := fun m e m' h hstep hno => h.step hstep hno
  have hstart : PointersInv (start k) := ⟨⟨hboot, rfl⟩, fun p hp => (nomatch hp),
    fun p hp => (nomatch hp)⟩
  refine along_iff (fun m e m' h hstep => ⟨fun htrue => ?_, fun hno => ?_⟩) hkeep hstart es
  · cases e with
    | halt st status =>
      obtain ⟨hok, hstep⟩ := guarded_eq_some.mp hstep
      obtain ⟨hclean, -⟩ := (Bool.and_eq_true _ _).mp hok
      rw [step] at hstep
      split at hstep
      · rename_i p hmode
        cases hstep
        exact h.pointers.not_haltStep h.inv (h.fits p hmode) hmode hclean htrue
      · cases hstep
    | boot | execute | resume | call | vidmap | key => trivial
  · exact (hkeep m e m' h hstep hno).pointers

/-- Two shells are started, and nothing halts. -/
theorem parentsTrue_nested :
    (run oneTerminalStep (start loadedKernel)
        [.boot zeroStale, .execute zeroStale (some (cstring "shell"))]).isSome = true
      ∧ Along oneTerminalStep (fun _ _ m' => m'.ParentsTrue) (start loadedKernel)
          [.boot zeroStale, .execute zeroStale (some (cstring "shell"))] := by
  refine ⟨by decide +kernel, (parentsTrue_iff loadedKernel_booting _).mpr ?_⟩
  exact fun _ _ => ⟨trivial, fun _ _ => ⟨trivial, along_nil _ _⟩⟩

/-- **A child that has left is still the process of the terminal**: the first
shell starts a second one, and when that halts `term_pcb` is its block. The
next program the first shell starts has that block as its parent. -/
theorem parents_wrong_after_halt :
    ∃ m, run oneTerminalStep (start loadedKernel)
        [.boot zeroStale, .execute zeroStale (some (cstring "shell")), .halt zeroStale 0]
          = some m
      ∧ m.mode = .user 0 ∧ m.procs = [⟨0, none, 0⟩]
      ∧ m.kernel.term.termPcb = kstackToPcb 1 ∧ ¬ m.ParentsTrue := by
  have hstate : (run oneTerminalStep (start loadedKernel)
      [.boot zeroStale, .execute zeroStale (some (cstring "shell")), .halt zeroStale 0]).map
        (fun m => (m.mode, m.procs, m.kernel.term.termPcb))
      = some (.user 0, [⟨0, none, 0⟩], kstackToPcb 1) := by
    decide +kernel
  obtain ⟨m, hrun, hm⟩ := Option.map_eq_some_iff.mp hstate
  rw [Prod.mk.injEq, Prod.mk.injEq] at hm
  obtain ⟨hmode, hprocs, hpcb⟩ := hm
  refine ⟨m, hrun, hmode, hprocs, hpcb, fun htrue => ?_⟩
  have hrunning := (htrue 0 hmode).running
  rw [hpcb] at hrunning
  exact absurd hrunning (by decide)

end Machine

end KernelDesign
