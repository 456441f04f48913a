import KernelDesign.Accounting
import Mathlib.Order.CompletePartialOrder
import Mathlib.Order.Interval.Set.Disjoint

/-!
# The memory of the processes

`set_up_program_paging` gives process `n` the 4 MB frame that starts at
`KERNEL_PHYS_VIRT_MEMO_ADDR + n * FOUR_MB` and lets user code write it. A
frame is fixed by the number of its block of 4 MB, which for process `n` is
`n + 1` modulo 1024, and that of the page of the kernel is 1. So process 0,
the first shell, is given the page of the kernel, where the comment above
the function has the first program at 8 MB.

Numbers that differ by a multiple of 1024 share a frame. In a run in which
every call of `execute` is refused or loads there are at most six numbers,
and every process but number 0 has a frame of its own.
-/

namespace KernelDesign

open Kernel Transition Words

/-! ## Blocks of one size -/

/-- **Two blocks of one size** are apart when their numbers differ. -/
theorem disjoint_block_iff {s a b : ℕ} (hs : 0 < s) :
    Disjoint (Set.Ico (s * a) (s * a + s)) (Set.Ico (s * b) (s * b + s)) ↔ a ≠ b := by
  have hstep : ∀ {c d : ℕ}, c < d → s * c + s ≤ s * d := fun {c d} hcd => by
    calc s * c + s = s * (c + 1) := (Nat.mul_succ s c).symm
      _ ≤ s * d := Nat.mul_le_mul_left s hcd
  rw [Set.Ico_disjoint_Ico]
  constructor
  · rintro hle rfl
    rw [Nat.min_self, Nat.max_self] at hle
    omega
  · intro hne
    rcases Nat.lt_or_gt_of_ne hne with hlt | hgt
    · exact (Nat.min_le_left _ _).trans ((hstep hlt).trans (Nat.le_max_right _ _))
    · exact (Nat.min_le_right _ _).trans ((hstep hgt).trans (Nat.le_max_left _ _))

/-! ## The frame of a process -/

/-- The number of the 4 MB block process `n` gets. -/
def programBlock (n : ℤ) : ℕ := ((n + 1) % 1024).toNat

/-- **The entry `set_up_program_paging` writes**: the start of the block, and
the flags of a 4 MB page that user code can write. -/
theorem programEntry_eq (n : ℤ) : programEntry n = 4194304 * programBlock n + 0x87 := by
  -- The sum wraps at 32 bits, which is 1024 blocks.
  have haddr : u32 (0x400000 + i32 (n * 0x400000)) = 4194304 * programBlock n := by
    have hwrap : i32 (n * 0x400000) % 4294967296 = n * 0x400000 % 4294967296 :=
      Int.bmod_emod (m := 4294967296)
    rw [u32_eq, programBlock]
    omega
  rw [programEntry, haddr]
  exact (Nat.two_pow_add_eq_or_of_lt (i := 22) (b := 0x87) (by decide) _).symm

/-- The physical bytes behind a directory entry of a 4 MB page. -/
def pageFrame (entry : ℕ) : Set ℕ := Set.Ico (frameOf entry) (frameOf entry + 0x400000)

/-- **The 4 MB frame of process `n`**: the physical bytes behind its page at
128 MB. -/
def programFrame (n : ℤ) : Set ℕ := pageFrame (programEntry n)

/-- The page of the kernel, with its image, its stacks and the control
blocks. -/
def kernelPage : Set ℕ := Set.Ico 0x400000 0x800000

/-- `set_up_program_paging` maps the frame, at the slot of 128 MB. -/
theorem setUpProgramPaging_frame (p : Paging) (n : ℤ) :
    pageFrame ((p.setUpProgramPaging n).pageDirectory 32) = programFrame n := rfl

/-- `paging_setup` maps the page of the kernel, at the slot of 4 MB. -/
theorem pagingSetup_frame (p : Paging) :
    pageFrame (p.pagingSetup.pageDirectory 1) = kernelPage := by
  have hframe : frameOf (p.pagingSetup.pageDirectory 1) = 0x400000 := by
    show frameOf (0x400000 ||| 3 ||| 0x80) = 0x400000
    decide
  rw [pageFrame, hframe, kernelPage]

/-- The frame is a block. -/
theorem programFrame_eq (n : ℤ) :
    programFrame n
      = Set.Ico (4194304 * programBlock n) (4194304 * programBlock n + 4194304) := by
  have hframe : frameOf (programEntry n) = 4194304 * programBlock n := by
    rw [frameOf, programEntry_eq]
    omega
  rw [programFrame, pageFrame, hframe]

/-- **Two processes share no byte** unless their numbers agree modulo
1024. -/
theorem disjoint_programFrame_iff (n n' : ℤ) :
    Disjoint (programFrame n) (programFrame n') ↔ n' % 1024 ≠ n % 1024 := by
  rw [programFrame_eq, programFrame_eq, disjoint_block_iff (by decide)]
  unfold programBlock
  omega

/-- **A process shares no byte with the kernel** unless its number is a
multiple of 1024. -/
theorem disjoint_kernelPage_iff (n : ℤ) :
    Disjoint (programFrame n) kernelPage ↔ n % 1024 ≠ 0 := by
  have hpage : kernelPage = Set.Ico (4194304 * 1) (4194304 * 1 + 4194304) := rfl
  rw [programFrame_eq, hpage, disjoint_block_iff (by decide)]
  unfold programBlock
  omega

namespace Machine

/-! ## Isolation -/

/-- **A live process**, by its number. -/
def Live (m : Machine) (n : ℤ) : Prop := ∃ q ∈ m.procs, q.num = n

/-- **The memory of process `n` is its own**: neither the kernel nor
another live process has a byte of it. -/
structure Isolated (m : Machine) (n : ℤ) : Prop where
  kernel : Disjoint (programFrame n) kernelPage
  others : ∀ n', m.Live n' → n' ≠ n → Disjoint (programFrame n) (programFrame n')

/-- Isolation, by the numbers. -/
theorem isolated_iff_mod (m : Machine) (n : ℤ) :
    m.Isolated n ↔ n % 1024 ≠ 0 ∧ ∀ n', m.Live n' → n' ≠ n → n' % 1024 ≠ n % 1024 := by
  constructor
  · intro h
    exact ⟨(disjoint_kernelPage_iff n).mp h.kernel,
      fun n' hlive hne => (disjoint_programFrame_iff n n').mp (h.others n' hlive hne)⟩
  · rintro ⟨hkernel, hothers⟩
    exact ⟨(disjoint_kernelPage_iff n).mpr hkernel,
      fun n' hlive hne => (disjoint_programFrame_iff n n').mpr (hothers n' hlive hne)⟩

/-- **The live processes of a clean run** are those from 0 to the one that
runs. -/
theorem CleanReached.live_iff {m : Machine} {p : ℤ} (hm : CleanReached m)
    (hmode : m.mode = .user p) (n : ℤ) : m.Live n ↔ 0 ≤ n ∧ n ≤ p := by
  have hchain := (hm.user hmode).chain
  constructor
  · rintro ⟨q, hq, rfl⟩
    exact hchain.bounds hq
  · rintro ⟨h0, hn⟩
    exact hchain.exists_num h0 hn

/-- **When user memory is isolated.** In every machine, the memory of a live
process is its own exactly when its number is no multiple of 1024 and
differs modulo 1024 from every other live number. While a user process
runs, in a run in which every `execute` is refused or loads, that is every
live process but process 0, and process 0 is live. -/
theorem isolated_iff (m : Machine) :
    (∀ n, m.Live n → (m.Isolated n
        ↔ n % 1024 ≠ 0 ∧ ∀ n', m.Live n' → n' ≠ n → n' % 1024 ≠ n % 1024))
      ∧ ∀ p, CleanReached m → m.mode = .user p →
          m.Live 0 ∧ ∀ n, m.Live n → (m.Isolated n ↔ n ≠ 0) := by
  refine ⟨fun n _ => m.isolated_iff_mod n, fun p hm hmode => ⟨?_, fun n hlive => ?_⟩⟩
  · rw [hm.live_iff hmode]
    exact ⟨le_refl 0, (hm.user hmode).accounted.lo⟩
  · have hhi := (hm.user hmode).accounted.hi
    obtain ⟨h0, hn⟩ := (hm.live_iff hmode n).mp hlive
    rw [isolated_iff_mod]
    constructor
    · rintro ⟨hkernel, -⟩ rfl
      exact hkernel rfl
    · refine fun hne => ⟨by omega, fun n' hlive' hne' => ?_⟩
      obtain ⟨h0', hn'⟩ := (hm.live_iff hmode n').mp hlive'
      omega

/-- A shell that executes a second one: the memory of the second is its
own. -/
theorem isolated_second_shell :
    ∃ m, run (guarded clean step) (start loadedKernel)
        [.boot zeroStale, .execute zeroStale (some (cstring "shell"))] = some m
      ∧ m.Live 0 ∧ m.Live 1 ∧ m.Isolated 1 := by
  have hstate : (run (guarded clean step) (start loadedKernel)
      [.boot zeroStale, .execute zeroStale (some (cstring "shell"))]).map
        (fun m => (m.mode, m.procs))
      = some (.user 1, [⟨1, some 0, 0⟩, ⟨0, none, 0⟩]) := by
    decide +kernel
  obtain ⟨m, hrun, hm⟩ := Option.map_eq_some_iff.mp hstate
  rw [Prod.mk.injEq] at hm
  obtain ⟨hmode, hprocs⟩ := hm
  have hlive : m.Live 1 := ⟨_, hprocs ▸ List.mem_cons_self, rfl⟩
  obtain ⟨hzero, hiff⟩ :=
    (isolated_iff m).2 1 ⟨loadedKernel, _, loadedKernel_booting, hrun⟩ hmode
  exact ⟨m, hrun, hzero, hlive, (hiff 1 hlive).mpr (by decide)⟩

/-- **The first shell has the page of the kernel.** -/
theorem first_shell_in_kernelPage :
    ∃ m, run step (start loadedKernel) [.boot zeroStale] = some m
      ∧ m.Live 0 ∧ programFrame 0 = kernelPage ∧ ¬ m.Isolated 0 := by
  have hstate : (run step (start loadedKernel) [.boot zeroStale]).map
      (fun m => m.procs) = some [⟨0, none, 0⟩] := by
    decide +kernel
  obtain ⟨m, hrun, hprocs⟩ := Option.map_eq_some_iff.mp hstate
  have hframe : frameOf (programEntry 0) = 0x400000 := by decide
  have hpage : programFrame 0 = kernelPage := by
    rw [programFrame, pageFrame, hframe, kernelPage]
  refine ⟨m, hrun, ⟨_, hprocs ▸ List.mem_cons_self, rfl⟩, hpage, fun hisolated => ?_⟩
  have hself := hisolated.kernel
  rw [hpage] at hself
  have hmem : 0x400000 ∈ kernelPage := ⟨by decide, by decide⟩
  exact Set.disjoint_left.mp hself hmem hmem

end Machine

end KernelDesign
