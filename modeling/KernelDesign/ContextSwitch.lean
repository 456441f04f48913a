import KernelDesign.KernelStacks
import KernelDesign.Machine
import KernelDesign.Translation
import KernelDesign.Vidmap
import Mathlib.Data.Int.GCD

/-!
# The context switch

`switch_context` of `schedule.c`: the page of the next process, its kernel
stack in `tss.esp0`, the outgoing `esp` and `ebp` into the control block of
the process that runs, and the new ones from the control block of the next.
All of this is as `execute` has it but for the address of the last one.
`schedule.c` does not use `KSTACK_TO_PCB`: it starts from `PCB_BASE_ADDR`,
which is 512 KB where its comment says 8 MB, and what it takes off is in
units of `pcb_t`, since the base is cast to a pointer first. The two
addresses agree for no process (`nextPcb_eq_iff`), and what is at the one
computed here is not mapped, so the read of the new stack pointer faults
(`switchContext_faults`).
-/

namespace KernelDesign

open Words

/-- The offset of `esp` in `pcb_t`; `ebp` is the next word. -/
def espOffset : ℕ := 1172

/-- The pointer `(pcb_t*)PCB_BASE_ADDR-PCB_BLOCK*(next_proc+1)`: the product
is a `uint32_t`, and the difference counts blocks of `sizeof(pcb_t)`. -/
def nextPcb (nextProc : ℕ) : ℕ :=
  u32 (0x80000 - (sizeofPcb : ℤ) * u32 (0x2000 * (nextProc + 1)))

/-- **The state a context switch works on**: the kernel, the words in
memory by their address, the two registers, and `curr_exec_term`. -/
structure SwitchState where
  kernel : Kernel
  words : ℕ → ℕ
  esp : ℕ
  ebp : ℕ
  currExecTerm : Fin 3

/-- **How `switch_context` ends**: it returns at a guard, or it goes on
with the registers found in the control block at `next`, or it faults. -/
inductive SwitchResult
  | returned (s : SwitchState)
  | switched (next : ℕ) (s : SwitchState)
  | fault

namespace SwitchState

/-- The three guards. -/
def passes (s : SwitchState) : Bool :=
  (s.kernel.termArr s.currExecTerm).activated
    && (s.kernel.termArr s.currExecTerm).termPcb != 0 && decide (4 ≤ s.kernel.programs)

/-- Store the registers in the control block of the running process. -/
def saveRegisters (s : SwitchState) : SwitchState :=
  { s with words := fun a =>
      if a = getPcb s.esp + espOffset then s.esp
      else if a = getPcb s.esp + espOffset + 4 then s.ebp
      else s.words a }

/-- **`switch_context`**, with the address of its local `screen_start` and
the tables that other memory holds. -/
def switchContext (s : SwitchState) (nextProc screenStart : ℕ) (memory : ℕ → ℕ → ℕ) :
    SwitchResult :=
  if s.passes then
    let k := s.kernel.setUpProgramPaging (i32 nextProc)
    match sysVidmap Kernel.noSpill k screenStart with
    | .error _ => .fault
    | .ok (_, k) =>
      let s := { s with kernel := k }.saveRegisters
      let s := { s with kernel := { k with esp0 := kstackTop nextProc } }
      let next := nextPcb nextProc
      let a := u32 (next + espOffset)
      match PageWalk.walk k.paging.pageDirectory (k.paging.tableAt memory) a with
      | none => .fault
      | some _ =>
        .switched next
          { s with esp := s.words a, ebp := s.words (u32 (next + espOffset + 4)) }
  else .returned s

end SwitchState

/-- **What a switch from process `p` to process `n` should do**: go on with
the registers in the control block of `n`, under the page and with the
kernel stack `execute` gave it, the registers of `p` being in the control
block of `p`. -/
structure SwitchesTo (p n : ℤ) (s : SwitchState) (next : ℕ) (s' : SwitchState) : Prop where
  block : next = kstackToPcb n
  esp : s'.esp = s'.words (kstackToPcb n + espOffset)
  ebp : s'.ebp = s'.words (kstackToPcb n + espOffset + 4)
  program : s'.kernel.paging.pageDirectory 32 = programEntry n
  esp0 : s'.kernel.esp0 = kstackTop n
  savedEsp : s'.words (kstackToPcb p + espOffset) = s.esp
  savedEbp : s'.words (kstackToPcb p + espOffset + 4) = s.ebp

/-! ## The two addresses -/

/-- A multiple of 8 KB as a 32-bit address. -/
theorem u32_mul_block (z : ℤ) : (u32 (0x2000 * z) : ℤ) = 0x2000 * (z % 524288) := by
  rw [u32_eq]
  omega

/-- **The address computed here**, in units of 8 KB. -/
theorem nextPcb_block (n : ℕ) :
    (nextPcb n : ℤ) = 0x2000 * ((64 - 1188 * ((n : ℤ) + 1)) % 524288) := by
  have hwrap : (64 - 1188 * (((n : ℤ) + 1) % 524288)) % 524288
      = (64 - 1188 * ((n : ℤ) + 1)) % 524288 := by
    rw [Int.sub_emod, Int.mul_emod, Int.emod_emod, ← Int.mul_emod, ← Int.sub_emod]
  have hunits : 0x80000 - (sizeofPcb : ℤ) * u32 (0x2000 * ((n : ℤ) + 1))
      = 0x2000 * (64 - 1188 * (((n : ℤ) + 1) % 524288)) := by
    rw [u32_mul_block, sizeofPcb]
    omega
  rw [nextPcb, hunits, u32_mul_block, hwrap]

/-- **Where the two formulas agree**: at one number in `2 ^ 19`. In units of
8 KB one is `64 - 1188 * (n + 1)` and the other `1022 - n`. -/
theorem nextPcb_eq_iff (n : ℕ) : nextPcb n = kstackToPcb n ↔ n % 524288 = 26058 := by
  have hnumber : (524288 : ℤ) ∣ 26058 - n ↔ n % 524288 = 26058 := by omega
  have hunits : 0x800000 - 0x2000 - ((n : ℤ) + 1) * 0x2000 = 0x2000 * (1022 - n) := by omega
  have hpcb : (kstackToPcb n : ℤ) = 0x2000 * ((1022 - (n : ℤ)) % 524288) := by
    rw [kstackToPcb, hunits, u32_mul_block]
  -- The difference is a multiple of 1187, which is odd, up to units of `2 ^ 19`.
  have hdiff : 64 - 1188 * ((n : ℤ) + 1) - (1022 - n)
      = 1187 * (26058 - n) + 524288 * (-59) := by omega
  rw [← hnumber, ← Int.natCast_inj, nextPcb_block, hpcb, Int.mul_eq_mul_left_iff (by decide),
    Int.emod_eq_emod_iff_emod_sub_eq_zero, hdiff, Int.add_mul_emod_self_left]
  constructor
  · intro h
    exact Int.dvd_of_dvd_mul_right_of_gcd_one (Int.dvd_of_emod_eq_zero h) (by decide)
  · intro h
    exact Int.emod_eq_zero_of_dvd (Dvd.dvd.mul_left h 1187)

/-- **The formulas agree for no process**: the control block of one is in
the page of the kernel. -/
theorem nextPcb_ne {n : ℕ} (h : inKernelPage (kstackToPcb n) = true) :
    nextPcb n ≠ kstackToPcb n := by
  have hpage := of_decide_eq_true h
  rw [kstackToPcb, u32_eq] at hpage
  rw [Ne, nextPcb_eq_iff]
  omega

/-- What `nextPcb` computes for a process with a block of its own is none
of the addresses that are mapped. -/
theorem nextPcb_unmapped {n : ℕ} (hn : n < 511) :
    ¬ (0xB8000 ≤ u32 (nextPcb n + espOffset) ∧ u32 (nextPcb n + espOffset) < 0xB9000
        ∨ 0x400000 ≤ u32 (nextPcb n + espOffset) ∧ u32 (nextPcb n + espOffset) < 0x800000)
      ∧ ¬ (0x8000000 ≤ u32 (nextPcb n + espOffset) ∧ u32 (nextPcb n + espOffset) < 0x8400000)
      ∧ ¬ (0x8800000 ≤ u32 (nextPcb n + espOffset)
        ∧ u32 (nextPcb n + espOffset) < 0x8801000) := by
  have hblock := nextPcb_block n
  have hesp : u32 (nextPcb n + espOffset) = nextPcb n + 1172 := by
    have hbelow := Int.emod_lt_of_pos (64 - 1188 * ((n : ℤ) + 1)) (show 0 < 524288 by decide)
    rw [← Int.natCast_inj, u32_eq, espOffset]
    omega
  -- The product wraps at most once.
  have hwraps : (nextPcb n : ℤ) = 0x2000 * (524352 - 1188 * ((n : ℤ) + 1))
      ∨ (nextPcb n : ℤ) = 0x2000 * (1048640 - 1188 * ((n : ℤ) + 1)) := by
    omega
  clear hblock
  rw [hesp]
  omega

/-! ## A switch -/

namespace SwitchState

variable {s s' : SwitchState} {n screenStart next : ℕ} {memory : ℕ → ℕ → ℕ}

/-- **A call that passes the guards**: `vidmap` refuses the address of a
local, which is on the kernel stack, and what is left to decide is whether
the control block is mapped. -/
theorem switchContext_eq (hpass : s.passes = true) (hlocal : screenStart < 0x8000000) :
    s.switchContext n screenStart memory
      = match PageWalk.walk (s.kernel.paging.setUpProgramPaging (i32 n)).pageDirectory
          ((s.kernel.paging.setUpProgramPaging (i32 n)).tableAt memory)
          (u32 (nextPcb n + espOffset)) with
        | none => .fault
        | some _ => .switched (nextPcb n)
            { s.saveRegisters with
              kernel := { s.kernel.setUpProgramPaging (i32 n) with esp0 := kstackTop n }
              esp := s.saveRegisters.words (u32 (nextPcb n + espOffset))
              ebp := s.saveRegisters.words (u32 (nextPcb n + espOffset + 4)) } := by
  rw [switchContext, if_pos hpass]
  dsimp only
  rw [sysVidmap_refused (by omega) (Or.inl hlocal)]
  rfl

/-- **All but the control block is as it should be**: the page, the kernel
stack, and the registers of the process that ran. -/
theorem switched_spec {p : ℤ} (hp : 0 ≤ p) (hp' : p ≤ 509) (hstack : OnKstack p s.esp)
    (hlocal : screenStart < 0x8000000)
    (h : s.switchContext n screenStart memory = .switched next s') :
    next = nextPcb n
      ∧ s'.kernel.paging.pageDirectory 32 = programEntry (i32 n)
      ∧ s'.kernel.esp0 = kstackTop n
      ∧ s'.words (kstackToPcb p + espOffset) = s.esp
      ∧ s'.words (kstackToPcb p + espOffset + 4) = s.ebp := by
  have hpass : s.passes = true := by
    by_contra hno
    rw [switchContext, if_neg hno] at h
    cases h
  rw [switchContext_eq hpass hlocal] at h
  split at h
  · cases h
  · rw [SwitchResult.switched.injEq] at h
    obtain ⟨hnext, rfl⟩ := h
    rw [← getPcb_onKstack hp hp' hstack]
    dsimp only [saveRegisters]
    refine ⟨hnext.symm, Paging.setUpProgramPaging_slot _ _, Eq.refl _, if_pos rfl, ?_⟩
    exact (if_neg (by omega)).trans (if_pos rfl)

/-- **No switch does what it should**, for no process that has a control
block. -/
theorem not_switchesTo (p : ℤ) (hn : inKernelPage (kstackToPcb n) = true) :
    ¬ ∃ next s', s.switchContext n screenStart memory = .switched next s'
      ∧ SwitchesTo p n s next s' := by
  rintro ⟨next, s', hcall, hto⟩
  have hnext : next = nextPcb n := by
    rw [switchContext] at hcall
    split at hcall
    · dsimp only at hcall
      split at hcall
      · cases hcall
      · split at hcall
        · cases hcall
        · rw [SwitchResult.switched.injEq] at hcall
          exact hcall.1.symm
    · cases hcall
  exact nextPcb_ne hn (hnext.symm.trans hto.block)

/-- **Every switch faults**: with the tables as the calls of the paging code
leave them, the control block is read from an address that is not
mapped. -/
theorem switchContext_faults {m : Mapping} (hmaps : s.kernel.paging.Maps m)
    (hl : s.kernel.paging.Linked) (hpass : s.passes = true)
    (hlocal : screenStart < 0x8000000) (hn : n < 511) :
    s.switchContext n screenStart memory = .fault := by
  have hcall : s.kernel.paging.setUpProgramPaging (i32 n)
      = s.kernel.paging.call (.program ⟨n, hn⟩) :=
    congrArg s.kernel.paging.setUpProgramPaging (i32_of_bounds (by omega) (by omega))
  obtain ⟨hkernel, huser, hvideo⟩ := nextPcb_unmapped hn
  rw [switchContext_eq hpass hlocal, hcall,
    (hmaps.call (.program ⟨n, hn⟩)).walk (hl.call (.program ⟨n, hn⟩)), translate,
    if_neg hkernel, if_neg huser, if_neg hvideo]

end SwitchState

/-- Two programs on each of three terminals, and the first of them
running. -/
def sixPrograms : SwitchState where
  kernel := { loadedKernel with
    paging := loadedKernel.paging.pagingSetup
    termArr := fun t => { loadedKernel.termArr t with
      activated := true, termPcb := 0x7F8000, numProgram := 2 } }
  words := fun _ => 0
  esp := 0x7FDF00
  ebp := 0x7FDF10
  currExecTerm := 0

/-- The switch from process 0 to process 1 passes the guards and faults. -/
theorem switch_to_one_faults :
    sixPrograms.passes = true
      ∧ sixPrograms.switchContext 1 0x7FDF20 (fun _ _ => 0) = .fault
      ∧ ¬ ∃ next s', sixPrograms.switchContext 1 0x7FDF20 (fun _ _ => 0) = .switched next s'
        ∧ SwitchesTo 0 1 sixPrograms next s' := by
  have hpass : sixPrograms.passes = true := by decide
  have hl := loadedKernel_linked
  have hfault : sixPrograms.switchContext 1 0x7FDF20 (fun _ _ => 0) = .fault :=
    SwitchState.switchContext_faults (Paging.maps_pagingSetup hl)
      ⟨hl.1, hl.2, hl.3, hl.4, hl.5, hl.6, hl.7⟩ hpass (by decide) (by decide)
  refine ⟨hpass, hfault, ?_⟩
  rintro ⟨next, s', hcall, -⟩
  rw [hfault] at hcall
  cases hcall

/-- No switch from process 0 to process 1 does what it should. -/
theorem not_switchesTo_one :
    ¬ ∃ next s', sixPrograms.switchContext 1 0x7FDF20 (fun _ _ => 0) = .switched next s'
      ∧ SwitchesTo 0 1 sixPrograms next s' :=
  SwitchState.not_switchesTo 0 (n := 1) (by decide)

end KernelDesign
