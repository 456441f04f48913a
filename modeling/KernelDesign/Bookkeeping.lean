import KernelDesign.FsAccess
import KernelDesign.Machine
import KernelDesign.TerminalSwitch

/-!
# What keeps the processes' books

Seven pieces of the state say which process runs, under which other and on
which memory: the two counters, the counts and block pointers of the three
terminals, the directory entry of the user page, `tss.esp0`, and in each
control block the parent pointer and the frame. `SameBooks` says that a
change of the kernel leaves all of them alone, and `SameProcesses` that it
leaves the control blocks alone altogether.

Only `execute` and `halt` write the books. The keyboard handler writes no
control block, and the descriptor calls write the block they work on
without its parent pointer and its frame.
-/

namespace KernelDesign

open Words

namespace Kernel

/-- **The books are the same in both kernels.** -/
structure SameBooks (k k' : Kernel) : Prop where
  activeProc : k'.activeProc = k.activeProc
  processCounter : k'.processCounter = k.processCounter
  numProgram : ∀ t, (k'.termArr t).numProgram = (k.termArr t).numProgram
  termPcb : ∀ t, (k'.termArr t).termPcb = (k.termArr t).termPcb
  mapping : k'.paging.pageDirectory 32 = k.paging.pageDirectory 32
  esp0 : k'.esp0 = k.esp0
  frame : ∀ a, (k'.pcb a).frame = (k.pcb a).frame
  parent : ∀ a, (k'.pcb a).parentProcessPtr = (k.pcb a).parentProcessPtr

/-- **The books and the control blocks are the same in both kernels.** -/
structure SameProcesses (k k' : Kernel) : Prop extends SameBooks k k' where
  pcb : k'.pcb = k.pcb

theorem SameBooks.refl (k : Kernel) : k.SameBooks k :=
  ⟨rfl, rfl, fun _ => rfl, fun _ => rfl, rfl, rfl, fun _ => rfl, fun _ => rfl⟩

theorem SameBooks.trans {k₁ k₂ k₃ : Kernel} (h : k₁.SameBooks k₂)
    (h' : k₂.SameBooks k₃) : k₁.SameBooks k₃ where
  activeProc := h'.activeProc.trans h.activeProc
  processCounter := h'.processCounter.trans h.processCounter
  numProgram t := (h'.numProgram t).trans (h.numProgram t)
  termPcb t := (h'.termPcb t).trans (h.termPcb t)
  mapping := h'.mapping.trans h.mapping
  esp0 := h'.esp0.trans h.esp0
  frame a := (h'.frame a).trans (h.frame a)
  parent a := (h'.parent a).trans (h.parent a)

theorem SameProcesses.refl (k : Kernel) : k.SameProcesses k :=
  ⟨SameBooks.refl k, rfl⟩

theorem SameProcesses.trans {k₁ k₂ k₃ : Kernel} (h : k₁.SameProcesses k₂)
    (h' : k₂.SameProcesses k₃) : k₁.SameProcesses k₃ :=
  ⟨h.toSameBooks.trans h'.toSameBooks, h'.pcb.trans h.pcb⟩

/-- The sum of the programs is one of the books. -/
theorem SameBooks.programs {k k' : Kernel} (h : k.SameBooks k') :
    k'.programs = k.programs := by
  unfold Kernel.programs
  rw [h.numProgram, h.numProgram, h.numProgram]

/-! ## The keyboard -/

/-- Nothing on the screen is in the books. -/
theorem sameProcesses_console (k : Kernel) (c : Console) :
    k.SameProcesses { k with console := c } :=
  ⟨⟨rfl, rfl, fun _ => rfl, fun _ => rfl, rfl, rfl, fun _ => rfl, fun _ => rfl⟩, rfl⟩

/-- A change of a terminal that keeps its count and its pointer. -/
theorem sameProcesses_setTerm (k : Kernel) (t : Fin 3) {f : Term → Term}
    (hnum : ∀ u, (f u).numProgram = u.numProgram)
    (hpcb : ∀ u, (f u).termPcb = u.termPcb) : k.SameProcesses (k.setTerm t f) := by
  refine ⟨⟨rfl, rfl, fun u => ?_, fun u => ?_, rfl, rfl, fun _ => rfl, fun _ => rfl⟩, rfl⟩
  · exact k.setTerm_termArr_keeps t Term.numProgram hnum u
  · exact k.setTerm_termArr_keeps t Term.termPcb hpcb u

/-- **A terminal switch** saves and restores screens. -/
theorem switchTo_sameProcesses (k : Kernel) (t : Fin 3) :
    k.SameProcesses (k.switchTo t) := by
  have hsave := k.sameProcesses_setTerm k.termFlag
    (f := fun u => saveTerm u k.console) (fun _ => rfl) (fun _ => rfl)
  refine hsave.trans ⟨⟨rfl, rfl, fun u => ?_, fun u => ?_, rfl, rfl, fun _ => rfl,
    fun _ => rfl⟩, rfl⟩
  · rw [switchTo_termArr]
    dsimp only
    split
    · rename_i h
      rw [h]
    · rfl
  · rw [switchTo_termArr]
    dsimp only
    split
    · rename_i h
      rw [h]
    · rfl

theorem switchKey_sameProcesses (k : Kernel) (sc : UInt8) :
    k.SameProcesses (k.switchKey sc) := by
  unfold switchKey
  split
  · exact k.switchTo_sameProcesses 0
  · split
    · exact k.switchTo_sameProcesses 1
    · split
      · exact k.switchTo_sameProcesses 2
      · exact SameProcesses.refl k

theorem removeOp_sameProcesses (k : Kernel) : k.SameProcesses k.removeOp := by
  have hready := k.sameProcesses_setTerm k.termFlag
    (f := fun t => { t with kbdReady := false }) (fun _ => rfl) (fun _ => rfl)
  unfold removeOp
  dsimp only
  split
  · refine SameProcesses.trans ?_ (sameProcesses_console _ _)
    refine SameProcesses.trans ?_ (sameProcesses_console _ _)
    exact hready.trans (sameProcesses_setTerm _ _ (fun _ => rfl) (fun _ => rfl))
  · exact hready

theorem insertOp_sameProcesses (k : Kernel) (c : UInt8) :
    k.SameProcesses (k.insertOp c) := by
  unfold insertOp
  split
  · exact k.sameProcesses_setTerm _ (fun _ => rfl) (fun _ => rfl)
  · split
    · exact SameProcesses.refl k
    · split
      · refine SameProcesses.trans ?_ (sameProcesses_console _ _)
        refine SameProcesses.trans ?_ (sameProcesses_console _ _)
        exact k.sameProcesses_setTerm _ (fun _ => rfl) (fun _ => rfl)
      · refine SameProcesses.trans ?_ (sameProcesses_console _ _)
        refine SameProcesses.trans ?_ (sameProcesses_console _ _)
        exact k.sameProcesses_setTerm _ (fun _ => rfl) (fun _ => rfl)

/-- **A keyboard interrupt leaves the processes alone.** -/
theorem kbdIntrHandler_sameProcesses (k : Kernel) (sc : UInt8) :
    k.SameProcesses (k.kbdIntrHandler sc) := by
  have hdecode : k.SameProcesses (k.scancodeDecoder sc).2 := by
    refine SameProcesses.trans ?_ (switchKey_sameProcesses (k.modifiers sc) sc)
    exact ⟨⟨rfl, rfl, fun _ => rfl, fun _ => rfl, rfl, rfl, fun _ => rfl,
      fun _ => rfl⟩, rfl⟩
  refine hdecode.trans ?_
  unfold kbdIntrHandler
  dsimp only
  split
  · split
    · exact sameProcesses_console _ _
    · exact SameProcesses.refl _
  · refine SameProcesses.trans ?_ (sameProcesses_console _ _)
    split
    · exact removeOp_sameProcesses _
    · split
      · exact insertOp_sameProcesses _ _
      · split
        · exact sameProcesses_console _ _
        · exact SameProcesses.refl _

/-! ## The descriptor calls -/

/-- **A change that is local to the control block at `p`**: the books, the
other blocks, the terminal on display and the volume are the same. -/
structure LocalTo (p : ℕ) (k k' : Kernel) : Prop extends SameBooks k k' where
  pcb_of_ne : ∀ a, a ≠ p → k'.pcb a = k.pcb a
  termFlag : k'.termFlag = k.termFlag
  volume : k.fs.SameVolume k'.fs

theorem LocalTo.refl (p : ℕ) (k : Kernel) : LocalTo p k k :=
  ⟨SameBooks.refl k, fun _ _ => rfl, rfl, .refl _⟩

theorem LocalTo.trans {p : ℕ} {k₁ k₂ k₃ : Kernel} (h : LocalTo p k₁ k₂)
    (h' : LocalTo p k₂ k₃) : LocalTo p k₁ k₃ :=
  ⟨h.toSameBooks.trans h'.toSameBooks,
    fun a ha => (h'.pcb_of_ne a ha).trans (h.pcb_of_ne a ha),
    h'.termFlag.trans h.termFlag, h.volume.trans h'.volume⟩

/-- A change that leaves the processes, the display and the file system alone
is local to any block. -/
theorem SameProcesses.localTo {k k' : Kernel} (h : k.SameProcesses k')
    (hflag : k'.termFlag = k.termFlag) (hfs : k'.fs = k.fs) (p : ℕ) : LocalTo p k k' :=
  ⟨h.toSameBooks, fun a _ => congrFun h.pcb a, hflag, hfs ▸ .refl _⟩

/-- **What a descriptor call can do to the kernel**: nothing, a change of
its control block that keeps the parent pointer and the frame, a step in
the directory, taking a line from the keyboard, or output on the screen or
to the clock. -/
inductive CallEffect (p : ℕ) (k : Kernel) : Kernel → Prop
  | none : CallEffect p k k
  | block {f : Pcb → Pcb} (hframe : ∀ q, (f q).frame = q.frame)
      (hparent : ∀ q, (f q).parentProcessPtr = q.parentProcessPtr) :
      CallEffect p k (k.setPcb p f)
  | directory {fs : FileSystem} (hvolume : k.fs.SameVolume fs) :
      CallEffect p k { k with fs := fs }
  | lineTaken :
      CallEffect p k (k.setTerm k.termFlag (fun t => { t with kbdReady := false }))
  | output (c : Console) (reg : ℕ) :
      CallEffect p k { k with console := c, rtcRegA := reg }

theorem sysOpen_effect (k : Kernel) (p : ℕ) (filename : Option Bytes) :
    CallEffect p k (sysOpen k p filename).2 := by
  unfold sysOpen
  dsimp only
  split
  · exact .none
  · split
    · exact .none
    · dsimp only
      refine .block ?_ ?_
      · intro q
        split <;> rfl
      · intro q
        split <;> rfl

theorem sysClose_effect (k : Kernel) (p : ℕ) (fd : ℤ) :
    CallEffect p k (sysClose k p fd).2 := by
  unfold sysClose
  split
  · exact .none
  · split
    · exact .none
    · dsimp only
      refine .block ?_ ?_
      · exact fun _ => rfl
      · exact fun _ => rfl

/-- **`term_read` takes a line** or does nothing. -/
theorem termRead_kernel {k : Kernel} {buf : Option Bytes} {nbytes : ℤ} {r : SysResult}
    (h : termRead k buf nbytes = .ok r) :
    r.kernel = k
      ∨ r.kernel = k.setTerm k.termFlag (fun t => { t with kbdReady := false }) := by
  unfold termRead at h
  cases buf with
  | none =>
    cases h
    exact Or.inl rfl
  | some b =>
    dsimp only at h
    split at h
    · cases h
      exact Or.inl rfl
    · split at h
      · cases h
      · split at h
        · cases h
        · cases h
          exact Or.inr rfl

theorem termRead_effect {k : Kernel} {buf : Option Bytes} {nbytes : ℤ} {r : SysResult}
    (h : termRead k buf nbytes = .ok r) (p : ℕ) : CallEffect p k r.kernel := by
  rcases termRead_kernel h with hk | hk
  · rw [hk]
    exact .none
  · rw [hk]
    exact .lineTaken

theorem sysRead_effect {k : Kernel} {p : ℕ} {stack : ℕ → ℤ} {fd : ℤ}
    {buf : Option Bytes} {nbytes : ℤ} {r : SysResult}
    (h : sysRead k p stack fd buf nbytes = .ok r) : CallEffect p k r.kernel := by
  unfold sysRead at h
  cases buf with
  | none =>
    cases h
    exact .none
  | some b =>
    dsimp only at h
    split at h
    · cases h
      exact .none
    · split at h
      · cases h
        exact .none
      · -- One case for each jump table.
        split at h
        · cases h
          unfold fsFileRead
          dsimp only
          refine .block ?_ ?_
          · exact fun _ => rfl
          · exact fun _ => rfl
        · cases h
          exact .directory (fsDirRead_sameVolume k.fs b nbytes)
        · cases h
          exact .none
        · exact termRead_effect h p
        · cases h
          exact .none
        · cases h

/-- **`term_write` writes on the screen** and nowhere else. -/
theorem termWrite_kernel (k : Kernel) (buf : Option Bytes) (nbytes : ℤ) :
    ∃ c, (termWrite k buf nbytes).kernel = { k with console := c } := by
  unfold termWrite
  split
  · exact ⟨k.console, rfl⟩
  · split
    · exact ⟨k.console, rfl⟩
    · exact ⟨_, rfl⟩

/-- The clock has one register that is written. -/
theorem rtcWrite_kernel {k : Kernel} {buf : Option Bytes} {r : SysResult}
    (h : rtcWrite k buf = .ok r) : ∃ reg, r.kernel = { k with rtcRegA := reg } := by
  unfold rtcWrite at h
  cases buf with
  | none => cases h
  | some b =>
    dsimp only at h
    split at h
    · cases h
      exact ⟨k.rtcRegA, rfl⟩
    · cases h
      exact ⟨_, rfl⟩

/-- **`write` is output**: it writes on the screen and to the clock. -/
theorem sysWrite_kernel {k : Kernel} {p : ℕ} {fd : ℤ} {buf : Option Bytes}
    {nbytes : ℤ} {r : SysResult} (h : sysWrite k p fd buf nbytes = .ok r) :
    ∃ c reg, r.kernel = { k with console := c, rtcRegA := reg } := by
  have hnone : ∀ s : SysResult, s.kernel = k →
      ∃ c reg, s.kernel = { k with console := c, rtcRegA := reg } := fun s hs =>
    ⟨k.console, k.rtcRegA, hs⟩
  unfold sysWrite at h
  split at h
  · cases h
    exact hnone _ rfl
  · dsimp only at h
    split at h
    · cases h
      exact hnone _ rfl
    · split at h
      · cases h
        exact hnone _ rfl
      · cases h
        exact hnone _ rfl
      · obtain ⟨reg, hk⟩ := rtcWrite_kernel h
        exact ⟨k.console, reg, hk⟩
      · cases h
        exact hnone _ rfl
      · cases h
        obtain ⟨c, hk⟩ := termWrite_kernel k buf nbytes
        exact ⟨c, k.rtcRegA, hk⟩
      · cases h

theorem sysGetargs_kernel (k : Kernel) (p : ℕ) (buf : Option Bytes) (nbytes : ℤ) :
    (sysGetargs k p buf nbytes).kernel = k := by
  unfold sysGetargs
  split
  · rfl
  · dsimp only
    split <;> rfl

/-- **Every descriptor call has one of these effects.** -/
theorem fileCall_effect {k : Kernel} {p : ℕ} {c : FileCall} {r : ℤ × Kernel}
    (h : k.fileCall p c = .ok r) : CallEffect p k r.2 := by
  cases c with
  | openFile filename =>
    cases h
    exact sysOpen_effect k p filename
  | closeFile fd =>
    cases h
    exact sysClose_effect k p fd
  | readFile stack fd buf nbytes =>
    simp only [fileCall] at h
    cases hread : sysRead k p stack fd buf nbytes with
    | error t =>
      rw [hread] at h
      cases h
    | ok s =>
      rw [hread] at h
      cases h
      exact sysRead_effect hread
  | writeFile fd buf nbytes =>
    simp only [fileCall] at h
    cases hwrite : sysWrite k p fd buf nbytes with
    | error t =>
      rw [hwrite] at h
      cases h
    | ok s =>
      rw [hwrite] at h
      cases h
      obtain ⟨c, reg, hk⟩ := sysWrite_kernel hwrite
      show CallEffect p k s.kernel
      rw [hk]
      exact .output c reg
  | getargs buf nbytes =>
    cases h
    rw [sysGetargs_kernel]
    exact .none

/-- **Such an effect is local to the block.** -/
theorem CallEffect.localTo {p : ℕ} {k k' : Kernel} (h : CallEffect p k k') :
    LocalTo p k k' := by
  cases h with
  | none => exact LocalTo.refl p k
  | @block f hframe hparent =>
    refine ⟨⟨rfl, rfl, fun _ => rfl, fun _ => rfl, rfl, rfl, fun a => ?_, fun a => ?_⟩,
      fun a ha => setPcb_pcb_of_ne k f ha, rfl, .refl _⟩
    · by_cases ha : a = p
      · rw [ha, setPcb_pcb_self, hframe]
      · rw [setPcb_pcb_of_ne k f ha]
    · by_cases ha : a = p
      · rw [ha, setPcb_pcb_self, hparent]
      · rw [setPcb_pcb_of_ne k f ha]
  | directory hvolume =>
    exact ⟨⟨rfl, rfl, fun _ => rfl, fun _ => rfl, rfl, rfl, fun _ => rfl, fun _ => rfl⟩,
      fun _ _ => rfl, rfl, hvolume⟩
  | lineTaken =>
    have hsame := k.sameProcesses_setTerm k.termFlag
      (f := fun t => { t with kbdReady := false }) (fun _ => rfl) (fun _ => rfl)
    exact hsame.localTo rfl rfl p
  | output c reg =>
    exact ⟨⟨rfl, rfl, fun _ => rfl, fun _ => rfl, rfl, rfl, fun _ => rfl, fun _ => rfl⟩,
      fun _ _ => rfl, rfl, .refl _⟩

/-- **A descriptor call is local to the block it works on.** -/
theorem fileCall_localTo {k : Kernel} {p : ℕ} {c : FileCall} {r : ℤ × Kernel}
    (h : k.fileCall p c = .ok r) : LocalTo p k r.2 := (fileCall_effect h).localTo

/-- The loop of `halt` over the descriptors keeps what each `close` does. -/
theorem closeFiles_rel {R : Kernel → Kernel → Prop} (hrefl : ∀ k, R k k)
    (htrans : ∀ {k₁ k₂ k₃}, R k₁ k₂ → R k₂ k₃ → R k₁ k₃) {p : ℕ}
    (heffect : ∀ {k k'}, CallEffect p k k' → R k k') (k : Kernel) :
    R k (closeFiles k p) := by
  unfold closeFiles
  generalize [(2 : ℤ), 3, 4, 5, 6, 7] = fds
  induction fds generalizing k with
  | nil => exact hrefl k
  | cons fd fds ih =>
    rw [List.foldl_cons]
    refine htrans ?_ (ih _)
    split
    · exact heffect (sysClose_effect k p fd)
    · exact hrefl k

theorem closeFiles_localTo (k : Kernel) (p : ℕ) : LocalTo p k (closeFiles k p) :=
  closeFiles_rel (LocalTo.refl p) LocalTo.trans CallEffect.localTo k

/-- **`vidmap` leaves the processes alone**: it writes another entry of the
directory than the one of the user page. -/
theorem sysVidmap_sameProcesses {k : Kernel} {p : ℕ} {r : ℤ × Kernel}
    (h : sysVidmap Kernel.noSpill k p = .ok r) : k.SameProcesses r.2 := by
  rw [sysVidmap_noSpill] at h
  split at h
  · cases h
    exact SameProcesses.refl k
  · split at h
    · cases h
    · cases h
      exact ⟨⟨rfl, rfl, fun _ => rfl, fun _ => rfl, rfl, rfl, fun _ => rfl,
        fun _ => rfl⟩, rfl⟩

/-- It leaves the display and the file system alone too. -/
theorem sysVidmap_frame {k : Kernel} {p : ℕ} {r : ℤ × Kernel}
    (h : sysVidmap Kernel.noSpill k p = .ok r) : r.2.termFlag = k.termFlag ∧ r.2.fs = k.fs := by
  rw [sysVidmap_noSpill] at h
  split at h
  · cases h
    exact ⟨rfl, rfl⟩
  · split at h
    · cases h
    · cases h
      exact ⟨rfl, rfl⟩

end Kernel

end KernelDesign
