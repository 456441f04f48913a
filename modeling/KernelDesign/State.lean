import KernelDesign.Console
import KernelDesign.FileSystem
import KernelDesign.Paging
import Mathlib.Algebra.GroupWithZero.Nat

/-!
# The state of the kernel

Every static variable and table the system calls and the keyboard handler
read or write, in one record: the file system, the console, the keyboard
flags, the three terminals, the page tables, `tss.esp0`, the process
counters and the process control blocks. A control block lives at the
bottom of the kernel stack of its process, so the blocks are a function of
their address.

The two words `esp` and `ebp` that `execute` stores in a control block are
the stack frame of that call of `execute`, and all that `halt` does with
them is to continue there. They are modelled as the frame they stand for.

The bytes of the user frames are kept apart from the variables of the
kernel. The frame of process 0 is the page of the kernel, and what the
program writes over the variables there is outside the model.
-/

namespace KernelDesign

open Words

/-- **The jump tables** of `syscalls.c`, and the null pointer. -/
inductive FopTable
  | null
  | file
  | dir
  | rtc
  | stdin
  | stdout
  deriving DecidableEq

/-- `file_des_t`. -/
structure FileDes where
  fopTable : FopTable
  inodeType : ℤ
  offset : ℤ
  inUseFlag : ℤ
  deriving DecidableEq

/-- **The frame of a call of `execute`** that the `esp` and `ebp` of a
control block lead back to: the call of `kbd_init` at boot, the call a
process made through its system call, or the call `halt` made to replace
the process whose block is at `pcb`. `unset` is a block no `execute` has
written. -/
inductive Frame
  | unset
  | kbdInit
  | syscall (proc : ℤ)
  | halt (pcb : ℕ)
  deriving DecidableEq

/-- **`pcb_t`**, with `esp` and `ebp` as the frame they stand for. The
three pointers that nothing reads are left out. -/
structure Pcb where
  fileArray : Fin 8 → FileDes
  status : ℕ
  arg : Bytes
  pid : ℤ
  parentProcessPtr : ℕ
  frame : Frame
  programCounter : ℤ

/-- The numerals of the three terminals. -/
instance terminals_neZero : NeZero (3 : ℕ) := Nat.instNeZeroSucc

/-- **`term_t`**. -/
structure Term where
  kbdLineCnt : ℕ
  kbdLineBuf : Bytes
  kbdOutBuf : Bytes
  kbdReady : Bool
  vidBuf : Bytes
  activated : Bool
  cursorX : ℕ
  cursorY : ℕ
  termPcb : ℕ
  numProgram : ℤ

/-- **The state of the kernel.** -/
structure Kernel where
  fs : FileSystem
  console : Console
  shiftFlag : Bool
  capsFlag : Bool
  ctrlFlag : Bool
  altFlag : Bool
  termFlag : Fin 3
  termArr : Fin 3 → Term
  paging : Paging
  /-- `tss.esp0`. -/
  esp0 : ℕ
  activeProc : ℤ
  processCounter : ℤ
  /-- The control blocks, by their address. -/
  pcb : ℕ → Pcb
  /-- The bytes of each 4 MB frame of physical memory, by the frame. -/
  userMem : ℕ → Bytes
  /-- Status register A of the real-time clock. -/
  rtcRegA : ℕ

namespace Kernel

/-- The terminal on display. -/
def term (k : Kernel) : Term := k.termArr k.termFlag

/-- Change one terminal. -/
def setTerm (k : Kernel) (t : Fin 3) (f : Term → Term) : Kernel :=
  { k with termArr := fun u => if u = t then f (k.termArr u) else k.termArr u }

/-- Change one control block. -/
def setPcb (k : Kernel) (a : ℕ) (f : Pcb → Pcb) : Kernel :=
  { k with pcb := fun b => if b = a then f (k.pcb b) else k.pcb b }

/-- The sum of `num_program` over the three terminals. -/
def programs (k : Kernel) : ℤ :=
  (k.termArr 0).numProgram + (k.termArr 1).numProgram + (k.termArr 2).numProgram

@[simp] theorem setTerm_termArr_self (k : Kernel) (t : Fin 3) (f : Term → Term) :
    (k.setTerm t f).termArr t = f (k.termArr t) := if_pos rfl

@[simp] theorem setTerm_term (k : Kernel) (f : Term → Term) :
    (k.setTerm k.termFlag f).term = f k.term := if_pos rfl

theorem setTerm_termArr_of_ne (k : Kernel) {t u : Fin 3} (f : Term → Term)
    (h : u ≠ t) : (k.setTerm t f).termArr u = k.termArr u := if_neg h

/-- **What a change of one terminal keeps** is kept on all three. -/
theorem setTerm_termArr_keeps {α : Type*} (k : Kernel) (t : Fin 3) {f : Term → Term}
    (g : Term → α) (h : ∀ v, g (f v) = g v) (u : Fin 3) :
    g ((k.setTerm t f).termArr u) = g (k.termArr u) := by
  by_cases hu : u = t
  · rw [hu, setTerm_termArr_self, h]
  · rw [setTerm_termArr_of_ne _ _ hu]

@[simp] theorem setPcb_pcb_self (k : Kernel) (a : ℕ) (f : Pcb → Pcb) :
    (k.setPcb a f).pcb a = f (k.pcb a) := if_pos rfl

theorem setPcb_pcb_of_ne (k : Kernel) {a b : ℕ} (f : Pcb → Pcb) (h : b ≠ a) :
    (k.setPcb a f).pcb b = k.pcb b := if_neg h

end Kernel

/-! ## Kernel stacks and control blocks -/

/-- `KSTACK_TO_PCB(x)`, the address of the control block of process `x`. -/
def kstackToPcb (x : ℤ) : ℕ := u32 (0x800000 - 0x2000 - (x + 1) * 0x2000)

/-- Whether the page from 4 to 8 MB, with the kernel and its stacks, holds
the address. -/
def inKernelPage (a : ℕ) : Bool := 0x400000 ≤ a ∧ a < 0x800000

/-- The value `execute` and `halt` give `tss.esp0` for process `x`,
`KSTACK_BASE - KSTACK_SIZE * (x)-4`. -/
def kstackTop (x : ℤ) : ℕ := u32 (0x800000 - 0x2000 - 0x2000 * x - 4)

/-- **`get_pcb`**: the stack pointer with its 13 low bits cleared. Every
stack pointer of a system call lies on the stack whose top `tss.esp0` was
at its entry, so the callers pass that. -/
def getPcb (esp : ℕ) : ℕ := esp &&& 0xFFFFE000

theorem getPcb_eq {esp : ℕ} (h : esp < 4294967296) :
    getPcb esp = esp / 8192 * 8192 := and_highMask (m := 19) (n := 13) h

/-- **The stack top of a process leads to its control block.** -/
theorem getPcb_kstackTop (x : ℤ) : getPcb (kstackTop x) = kstackToPcb x := by
  rw [kstackTop, getPcb_eq (u32_lt _), kstackToPcb, u32_eq, u32_eq]
  omega

/-- Control blocks inside the kernel page, as plain subtraction. -/
theorem kstackToPcb_eq {x : ℤ} (h0 : 0 ≤ x) (hx : x ≤ 1021) :
    (kstackToPcb x : ℤ) = 0x7FC000 - 0x2000 * x := by
  rw [kstackToPcb, u32_eq]
  omega

/-- **Distinct processes have distinct control blocks.** -/
theorem kstackToPcb_injective {x y : ℤ} (hx0 : 0 ≤ x) (hx : x ≤ 1021) (hy0 : 0 ≤ y)
    (hy : y ≤ 1021) (h : kstackToPcb x = kstackToPcb y) : x = y := by
  have hx' := kstackToPcb_eq hx0 hx
  have hy' := kstackToPcb_eq hy0 hy
  omega

end KernelDesign
