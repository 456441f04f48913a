import KernelDesign.State
import Mathlib.Order.CompletePartialOrder
import Mathlib.Order.Interval.Set.Disjoint

/-!
# Kernel stacks

Every process has a block of 8 KB below the top of the page of the kernel,
with its control block at the bottom and its kernel stack above it. The top
block is the stack the kernel boots on. `get_pcb` clears the 13 low bits of
the stack pointer, so it finds the control block from anywhere on the stack
as long as the block starts at a multiple of its size and the stack stays
in it: this is what has to fit together in `KSTACK_TO_PCB`, the value given
to `tss.esp0` and `PCB_ADDR_MASK`.
-/

namespace KernelDesign

open Words

/-- `sizeof(pcb_t)`: eight descriptors of 16 bytes, the status, 1024 bytes
of arguments and eight more words. -/
def sizeofPcb : ℕ := 8 * 16 + 4 + 1024 + 8 * 4

/-- The block of 8 KB of a process. -/
def kstackBlock (x : ℤ) : Set ℕ := {a | kstackToPcb x ≤ a ∧ a < kstackToPcb x + 0x2000}

/-- **The stack pointers of a process**: above its control block, and at
most the top of its stack. -/
def OnKstack (x : ℤ) (esp : ℕ) : Prop := kstackToPcb x + sizeofPcb ≤ esp ∧ esp ≤ kstackTop x

section

variable {x : ℤ} (h0 : 0 ≤ x) (hx : x ≤ 509)

include h0 hx

/-- The block of a process, as plain subtraction. -/
theorem kstackTop_eq : kstackTop x = kstackToPcb x + 0x2000 - 4 ∧ 8192 ∣ kstackToPcb x := by
  have hpcb := kstackToPcb_eq h0 (Int.le_trans hx (by decide))
  have htop : (kstackTop x : ℤ) = 0x7FDFFC - 0x2000 * x := by
    rw [kstackTop, u32_eq]
    omega
  omega

/-- **From anywhere on its stack a process finds its control block.** -/
theorem getPcb_onKstack {esp : ℕ} (h : OnKstack x esp) : getPcb esp = kstackToPcb x := by
  obtain ⟨htop, hdvd⟩ := kstackTop_eq h0 hx
  obtain ⟨hl, hu⟩ := h
  have hpcb := kstackToPcb_eq h0 (Int.le_trans hx (by decide))
  rw [getPcb_eq (by omega)]
  omega

/-- **The block of a process** is inside the page of the kernel and below
the block the kernel boots on. -/
theorem kstackBlock_inside {a : ℕ} (h : a ∈ kstackBlock x) :
    0x400000 ≤ a ∧ a < 0x800000 - 0x2000 := by
  have hpcb := kstackToPcb_eq h0 (Int.le_trans hx (by decide))
  obtain ⟨hl, hu⟩ := h
  omega

end

/-- **Blocks of different processes are disjoint.** -/
theorem kstackBlock_disjoint {x y : ℤ} (hx0 : 0 ≤ x) (hx : x ≤ 509) (hy0 : 0 ≤ y)
    (hy : y ≤ 509) (hne : x ≠ y) : Disjoint (kstackBlock x) (kstackBlock y) := by
  have hpcb := kstackToPcb_eq hx0 (Int.le_trans hx (by decide))
  have hpcb' := kstackToPcb_eq hy0 (Int.le_trans hy (by decide))
  refine Set.disjoint_left.mpr (fun a ha ha' => ?_)
  obtain ⟨hl, hu⟩ := ha
  obtain ⟨hl', hu'⟩ := ha'
  omega

/-- **The lookup by the mask finds the right control block**, for each of
the 510 processes whose block is in the page of the kernel, and their
blocks are apart from each other and from the boot stack. -/
theorem kstack_lookup :
    (∀ x : ℤ, 0 ≤ x → x ≤ 509 → ∀ esp,
        kstackToPcb x + sizeofPcb ≤ esp → esp ≤ kstackTop x → getPcb esp = kstackToPcb x)
      ∧ (∀ x y : ℤ, 0 ≤ x → x ≤ 509 → 0 ≤ y → y ≤ 509 → x ≠ y →
        Disjoint (kstackBlock x) (kstackBlock y))
      ∧ ∀ x : ℤ, 0 ≤ x → x ≤ 509 →
        kstackBlock x ⊆ {a | 0x400000 ≤ a ∧ a < 0x800000}
          ∧ Disjoint (kstackBlock x) {a | 0x800000 - 0x2000 ≤ a ∧ a < 0x800000} := by
  refine ⟨fun x h0 hx esp hl hu => getPcb_onKstack h0 hx ⟨hl, hu⟩,
    fun x y hx0 hx hy0 hy hne => kstackBlock_disjoint hx0 hx hy0 hy hne,
    fun x h0 hx => ⟨fun a ha => ?_, Set.disjoint_left.mpr (fun a ha hboot => ?_)⟩⟩
  · obtain ⟨hl, hu⟩ := kstackBlock_inside h0 hx ha
    exact ⟨hl, by omega⟩
  · have hlow := kstackBlock_inside h0 hx ha
    obtain ⟨hboot, -⟩ := hboot
    omega

/-- Half-way up the stack of process 5, and its block against that of
process 0. -/
theorem kstack_lookup_five :
    getPcb 0x7F3000 = kstackToPcb 5 ∧ Disjoint (kstackBlock 0) (kstackBlock 5) :=
  ⟨kstack_lookup.1 5 (by decide) (by decide) 0x7F3000 (by decide +kernel) (by decide +kernel),
    kstack_lookup.2.1 0 5 (by decide) (by decide) (by decide) (by decide) (by decide)⟩

end KernelDesign
