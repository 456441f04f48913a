import KernelDesign.Bookkeeping
import KernelDesign.ReadData

/-!
# A failing `execute`

`execute` has five ways to return -1. Four of them come before anything is
written, except that the first prints a message. The fifth is the program
load, and by then the counters are up and the user page is that of the new
process, and nothing takes them back.

The load is one request for 4 MB at offset 0, so its read meets every block
number from the first to the one that holds the end of the request, and the
probe of four bytes has looked at the first only. The page has room for
`0x3B8000` bytes from the load address on. A copy behind them faults, so the
call returns -1 exactly when a number that the load meets before that is
bad.
-/

namespace KernelDesign

open Kernel Transition Words

variable {k k' : Kernel} {st : Stale} {frame : Frame} {command : Option Bytes}

/-- The request of the program load is plain for every inode. -/
theorem plainRequest_load (fs : FileSystem) (inode : ℕ) :
    PlainRequest fs inode 0 0x400000 := by
  have hav : available (fs.inodeAt inode) 0 0x400000 ≤ 0x400000 := Nat.min_le_left _ _
  exact ⟨by decide, Nat.zero_le _, by decide, by decide, by omega⟩

/-- The value of a stored read, whatever the read was. -/
theorem storeImage_fst (k : Kernel) (f : ℕ) (r : ReadResult) :
    (k.storeImage f r).1 = r.ret := rfl

/-- The program load returns what its read does. -/
theorem loadProgram_fst (k : Kernel) (st : Stale) (d : Dentry) :
    (k.loadProgram st d).1 = (readData k.fs st.loadStack d.inode 0
      (some ((k.userMem (frameOf (k.paging.pageDirectory 32))).drop 0x48000))
      0x400000).ret := by
  unfold loadProgram
  exact storeImage_fst _ _ _

/-- **When the program load fails**: when it meets a bad block number. -/
theorem loadProgram_ret (k : Kernel) (st : Stale) (d : Dentry) :
    (k.loadProgram st d).1 = -1 ↔ ¬ Walks k.fs st.loadStack d.inode 0 0x400000 := by
  have hplain := plainRequest_load k.fs d.inode
  rw [loadProgram_fst]
  by_cases hw : Walks k.fs st.loadStack d.inode 0 0x400000
  · refine iff_of_false ?_ (not_not_intro hw)
    rw [hplain.ret_of_walks hw]
    omega
  · refine iff_of_true ?_ hw
    rw [hplain.ret_of_not_walks hw]

/-- **A file leaves the user page**: it has more than `0x3B8000` bytes, and
its blocks up to the end of the page are blocks of the image. -/
def LeavesPage (fs : FileSystem) (stack : ℕ → ℤ) (inode : ℕ) : Prop :=
  0x3B8000 < u32 (fs.inodeAt inode).length
    ∧ GoodBlocks fs (fs.inodeAt inode) stack 0 952

/-- The stack does not matter for the blocks that the page has room for. -/
theorem LeavesPage.of_stack {fs : FileSystem} {stack stack' : ℕ → ℤ} {inode : ℕ}
    (h : LeavesPage fs stack inode) : LeavesPage fs stack' inode := by
  refine ⟨h.1, fun i hlo hhi => ?_⟩
  have hgood := h.2 i hlo hhi
  rwa [Inode.blockNum_of_lt _ _ (by omega)] at hgood ⊢

/-- **When the program load faults.** -/
theorem loadFaults_iff (k : Kernel) (st : Stale) (d : Dentry) :
    k.loadFaults st d = true ↔ LeavesPage k.fs st.loadStack d.inode := by
  have hplain := plainRequest_load k.fs d.inode
  simp only [loadFaults, List.any_eq_true, decide_eq_true_eq]
  constructor
  · rintro ⟨c, hc, hleaves⟩
    have hbelow := hplain.copiesBelow c hc
    rw [available] at hbelow
    refine ⟨by omega, fun i _ hi => ?_⟩
    by_contra hbad
    rw [Bool.not_eq_false] at hbad
    have hend := hplain.copies_of_bad hbad (Nat.zero_le _) (by rw [available]; omega) c hc
    omega
  · rintro ⟨hlong, hgood⟩
    obtain ⟨c, hc, hlt⟩ :=
      hplain.exists_copies_of_good hgood (Nat.zero_le _) (by rw [available]; omega)
    exact ⟨c, hc, by omega⟩

/-- **The load of the next program**: the counters are up and its page is
mapped. -/
def Kernel.loadNext (k : Kernel) (st : Stale) (d : Dentry) : ℤ × Kernel :=
  (k.countProgram.setUpProgramPaging k.countProgram.activeProc).loadProgram st d

/-- A load that does not leave the page fails when a block number is bad
that the page has room for. -/
theorem loadNext_fails_iff (k : Kernel) (st : Stale) (d : Dentry) :
    ¬ LeavesPage k.fs st.loadStack d.inode ∧ (k.loadNext st d).1 = -1
      ↔ ¬ Walks k.fs st.loadStack d.inode 0 0x3B8000 := by
  have hret : (k.loadNext st d).1 = -1 ↔ ¬ Walks k.fs st.loadStack d.inode 0 0x400000 :=
    loadProgram_ret _ st d
  rw [hret]
  simp only [LeavesPage, Walks, available, GoodBlocks]
  rcases Nat.lt_or_ge 0x3B8000 (u32 (k.fs.inodeAt d.inode).length) with hlong | hfits
  · -- The page has room for the first 952 blocks and the 953rd is looked up.
    have hend : (0 + min 0x3B8000 (u32 (k.fs.inodeAt d.inode).length - 0)) / 4096 = 952 := by
      omega
    rw [hend]
    refine ⟨fun h hgood => h.1 ⟨hlong, hgood⟩, fun h => ⟨fun hleaves => h hleaves.2, fun hw => ?_⟩⟩
    exact h (fun i hlo hhi => hw i hlo (by omega))
  · have hend : min 0x3B8000 (u32 (k.fs.inodeAt d.inode).length - 0)
        = min 0x400000 (u32 (k.fs.inodeAt d.inode).length - 0) := by omega
    rw [hend]
    exact ⟨fun h => h.2, fun h => ⟨fun hleaves => absurd hleaves.1 (Nat.not_lt.mpr hfits), h⟩⟩

/-- **What a call of `execute` can do**: one case for each of its ends. -/
inductive ExecuteCase (k : Kernel) (st : Stale) (frame : Frame) (command : Option Bytes) :
    ExecResult → Prop
  | rejected (c : Console)
      (hrefused : ∀ s d, command = some s → k.programs < 6 → execLookup k st s ≠ some d) :
      ExecuteCase k st frame command (.rejected { k with console := c })
  | loadFailed {s : Bytes} {d : Dentry} (hcommand : command = some s)
      (hcap : k.programs < 6) (hlook : execLookup k st s = some d)
      (hstays : ¬ LeavesPage k.fs st.loadStack d.inode)
      (hload : (k.loadNext st d).1 = -1) :
      ExecuteCase k st frame command (.loadFailed (k.loadNext st d).2)
  | fault {s : Bytes} {d : Dentry} (hcommand : command = some s)
      (hcap : k.programs < 6) (hlook : execLookup k st s = some d)
      (hcause : LeavesPage k.fs st.loadStack d.inode
        ∨ (k.loadNext st d).1 ≠ -1
          ∧ inKernelPage (kstackToPcb (k.activeProc + 1)) = false) :
      ExecuteCase k st frame command .fault
  | started {s : Bytes} {d : Dentry} (hcommand : command = some s)
      (hcap : k.programs < 6) (hlook : execLookup k st s = some d)
      (hstays : ¬ LeavesPage k.fs st.loadStack d.inode)
      (hload : (k.loadNext st d).1 ≠ -1)
      (hpage : inKernelPage (kstackToPcb (k.activeProc + 1)) = true) :
      ExecuteCase k st frame command
        (.started ((k.loadNext st d).2.createPcb frame (exeArgs k.activeProc s)))

/-- **Every call of `execute` is one of these.** -/
theorem execute_cases (k : Kernel) (st : Stale) (frame : Frame)
    (command : Option Bytes) : ExecuteCase k st frame command (execute k st frame command) := by
  unfold execute
  by_cases hcap : 6 ≤ k.programs
  · rw [if_pos hcap]
    exact .rejected _ (fun s d _ hcap' => absurd hcap (Int.not_le.mpr hcap'))
  · rw [if_neg hcap]
    cases command with
    | none => exact .rejected k.console (fun s d hcommand => by cases hcommand)
    | some s =>
      dsimp only
      cases hlook : execLookup k st s with
      | none =>
        refine .rejected k.console (fun s' d hcommand _ => ?_)
        cases hcommand
        simp [hlook]
      | some d =>
        have hcap' := Int.not_le.mp hcap
        have hfaults : (k.countProgram.setUpProgramPaging
            k.countProgram.activeProc).loadFaults st d = true
              ↔ LeavesPage k.fs st.loadStack d.inode := loadFaults_iff _ st d
        dsimp only
        split
        · rename_i hleaves
          exact .fault rfl hcap' hlook (Or.inl (hfaults.mp hleaves))
        · rename_i hstays
          rw [hfaults] at hstays
          split
          · rename_i hload
            exact .loadFailed rfl hcap' hlook hstays hload
          · rename_i hload
            split
            · rename_i hpage
              exact .started rfl hcap' hlook hstays hload hpage
            · rename_i hpage
              exact .fault rfl hcap' hlook
                (Or.inr ⟨hload, Bool.eq_false_of_not_eq_true hpage⟩)

/-! ## What a load leaves alone -/

/-- A read into a frame of the user page is not in the books. -/
theorem storeImage_sameProcesses (k : Kernel) (f : ℕ) (r : ReadResult) :
    k.SameProcesses (k.storeImage f r).2 :=
  ⟨⟨rfl, rfl, fun _ => rfl, fun _ => rfl, rfl, rfl, fun _ => rfl, fun _ => rfl⟩, rfl⟩

theorem loadProgram_sameProcesses (k : Kernel) (st : Stale) (d : Dentry) :
    k.SameProcesses (k.loadProgram st d).2 := by
  unfold loadProgram
  exact storeImage_sameProcesses _ _ _

/-- A load changes neither the display nor the file system. -/
theorem storeImage_frame (k : Kernel) (f : ℕ) (r : ReadResult) :
    (k.storeImage f r).2.termFlag = k.termFlag ∧ (k.storeImage f r).2.fs = k.fs :=
  ⟨rfl, rfl⟩

theorem loadProgram_frame (k : Kernel) (st : Stale) (d : Dentry) :
    (k.loadProgram st d).2.termFlag = k.termFlag
      ∧ (k.loadProgram st d).2.fs = k.fs := by
  unfold loadProgram
  exact storeImage_frame _ _ _

/-! ## What a started process has -/

theorem createPcb_fs (k : Kernel) (frame : Frame) (args : Bytes) :
    (k.createPcb frame args).fs = k.fs := rfl

/-- The number of the process on its control block. -/
theorem createPcb_esp0 (k : Kernel) (frame : Frame) (args : Bytes) :
    getPcb (k.createPcb frame args).esp0 = kstackToPcb k.activeProc :=
  getPcb_kstackTop k.activeProc

/-- **`execute` fills in the block at the bottom of the new stack.** -/
theorem createPcb_pcb_self (k : Kernel) (frame : Frame) (args : Bytes) :
    (k.createPcb frame args).pcb (kstackToPcb k.activeProc)
      = { k.pcb (kstackToPcb k.activeProc) with
          fileArray := freshFiles
          status := 1
          arg := ((k.pcb (kstackToPcb k.activeProc)).arg.fill 0 1024).copy 0 args
            (strlen args 128)
          pid := k.activeProc
          parentProcessPtr := k.term.termPcb
          frame := frame } := if_pos rfl

/-- The other blocks are as they were. -/
theorem createPcb_pcb_of_ne (k : Kernel) (frame : Frame) (args : Bytes) {a : ℕ}
    (h : a ≠ kstackToPcb k.activeProc) :
    (k.createPcb frame args).pcb a = k.pcb a := if_neg h

/-! ## Failing cleanly -/

/-- The kernel a call of `execute` that returns -1 leaves. -/
def ExecResult.failed : ExecResult → Option Kernel
  | rejected k => some k
  | loadFailed k => some k
  | started _ => none
  | fault => none

/-- The kernel a call of `execute` leaves, if it ends. -/
def ExecResult.kernel : ExecResult → Option Kernel
  | rejected k => some k
  | loadFailed k => some k
  | started k => some k
  | fault => none

theorem ExecResult.kernel_of_failed {r : ExecResult} {k : Kernel}
    (h : r.failed = some k) : r.kernel = some k := by
  cases r with
  | rejected | loadFailed => exact h
  | started | fault => cases h

/-- Whether the new program runs. -/
def ExecResult.isStarted : ExecResult → Bool
  | started _ => true
  | rejected _ | loadFailed _ | fault => false

theorem ExecResult.exists_of_isStarted {r : ExecResult} (h : r.isStarted = true) :
    ∃ k, r = .started k := by
  cases r with
  | started k => exact ⟨k, rfl⟩
  | rejected | loadFailed | fault => cases h

/-- **What the check goes on with** is what the lookup by name has found. -/
theorem eq_of_execLookup {k : Kernel} {st : Stale} {s : Bytes} {d : Dentry}
    (h : execLookup k st s = some d) :
    d = (readDentryByName k.fs (some (exeFname s)) (some unsetDentry)).dentry.getD
      unsetDentry := by
  unfold execLookup at h
  dsimp only at h
  split at h
  · cases h
  · split at h
    · cases h
    · split at h
      · cases h
      · exact (Option.some.inj h).symm

/-- **`execute` leaves the file system alone.** -/
theorem execute_fs {k k' : Kernel} {st : Stale} {frame : Frame} {command : Option Bytes}
    (h : (execute k st frame command).kernel = some k') : k'.fs = k.fs := by
  have hcase := execute_cases k st frame command
  generalize execute k st frame command = r at h hcase
  cases hcase with
  | rejected c =>
    cases h
    rfl
  | @loadFailed s d =>
    cases h
    exact (loadProgram_frame _ st d).2
  | fault => cases h
  | @started s d =>
    cases h
    exact (createPcb_fs _ _ _).trans (loadProgram_frame _ st d).2

/-- **A call of `execute` fails cleanly**: if it returns -1, the books and
the control blocks are as they were. -/
def FailsCleanly (k : Kernel) (st : Stale) (frame : Frame) (command : Option Bytes) :
    Prop :=
  ∀ k', (execute k st frame command).failed = some k' → k.SameProcesses k'

/-- **A command that passes the checks loads as far as the page goes**: below
the cap, every block number of a file that is an executable is good, up to
the end of the file or of the page. -/
def LoadsIfAccepted (k : Kernel) (st : Stale) (command : Option Bytes) : Prop :=
  ∀ s d, command = some s → k.programs < 6 → execLookup k st s = some d →
    Walks k.fs st.loadStack d.inode 0 0x3B8000

/-- **When a call of `execute` fails cleanly**: exactly when a command that
passes the checks loads as far as the page goes. -/
theorem failsCleanly_iff (k : Kernel) (st : Stale) (frame : Frame)
    (command : Option Bytes) :
    FailsCleanly k st frame command ↔ LoadsIfAccepted k st command := by
  unfold FailsCleanly
  have hcase := execute_cases k st frame command
  generalize execute k st frame command = r at hcase ⊢
  -- Once the checks are passed, both sides are about the load.
  have haccept : ∀ {s d}, command = some s → k.programs < 6 → execLookup k st s = some d →
      (LoadsIfAccepted k st command
        ↔ ¬ (¬ LeavesPage k.fs st.loadStack d.inode ∧ (k.loadNext st d).1 = -1)) := by
    intro s d hcommand hcap hlook
    rw [loadNext_fails_iff, not_not]
    constructor
    · exact fun h => h s d hcommand hcap hlook
    · intro hw s' d' hs' _ hlook'
      cases hcommand.symm.trans hs'
      cases hlook.symm.trans hlook'
      exact hw
  cases hcase with
  | rejected c hrefused =>
    refine iff_of_true (fun k' hk' => ?_)
      (fun s d hs hcap hlook => absurd hlook (hrefused s d hs hcap))
    cases hk'
    exact k.sameProcesses_console c
  | @loadFailed s d hcommand hcap hlook hstays hload =>
    rw [haccept hcommand hcap hlook]
    refine iff_of_false (fun hclean => ?_) (fun h => h ⟨hstays, hload⟩)
    have hbooks := (loadProgram_sameProcesses
      (k.countProgram.setUpProgramPaging k.countProgram.activeProc) st d).activeProc
    have hup : (k.loadNext st d).2.activeProc = k.activeProc + 1 := hbooks
    have hsame := (hclean _ rfl).activeProc
    omega
  | fault hcommand hcap hlook hcause =>
    rw [haccept hcommand hcap hlook]
    refine iff_of_true (fun k' hk' => by cases hk') (fun h => ?_)
    rcases hcause with hleaves | ⟨hload, -⟩
    · exact h.1 hleaves
    · exact hload h.2
  | started hcommand hcap hlook hstays hload =>
    rw [haccept hcommand hcap hlook]
    exact iff_of_true (fun k' hk' => by cases hk') (fun h => hload h.2)

/-- **A shell that executes `broken`** is told that the call failed, with
another process counted as running. -/
theorem execute_broken :
    ∃ m, run Machine.step (Machine.start loadedKernel) [.boot zeroStale] = some m
      ∧ m.mode = .user 0
      ∧ ¬ FailsCleanly m.kernel zeroStale (.syscall 0) (some (cstring "broken")) := by
  refine ⟨(Machine.start loadedKernel).bootStep zeroStale, rfl, by decide +kernel,
    fun hclean => ?_⟩
  have hfail : ((execute ((Machine.start loadedKernel).bootStep zeroStale).kernel zeroStale
      (.syscall 0) (some (cstring "broken"))).failed.map (fun k => k.activeProc)) = some 1 := by
    decide +kernel
  have hbefore : ((Machine.start loadedKernel).bootStep zeroStale).kernel.activeProc = 0 := by
    decide +kernel
  obtain ⟨k', hk', hact⟩ := Option.map_eq_some_iff.mp hfail
  rw [(hclean k' hk').activeProc, hbefore] at hact
  exact absurd hact (by decide)

end KernelDesign
