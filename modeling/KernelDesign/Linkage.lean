import KernelDesign.Library.StackMachine

/-!
# The linkages

`isr_wrapper.S`: the code that the gates lead to. The three for devices save
all registers, call their handler and restore them. The one for system calls
saves three, refuses a number that is not from 1 to 8, compared as a signed
one, and otherwise pushes the arguments, calls through a table and takes the
arguments off again, into the registers they came from.

What the called functions do is not looked into. A function that returns, in
the state that it is called in, may change whatever it likes but for the words
on the stack that belong to the linkage and to the interrupt. The arguments do
not; a function may use their place on the stack for itself, and what it leaves
there is then in the registers of the program (`syscall_linkage`). `halt` does
not return, and nothing is asked of it.
-/

namespace KernelDesign

open StackMachine

/-- The system calls of the table. -/
inductive SysCall
  | halt | execute | read | write | openFile | close | getargs | vidmap
  deriving DecidableEq

/-- `jump_table`. -/
def sysCallTable : List SysCall :=
  [.halt, .execute, .read, .write, .openFile, .close, .getargs, .vidmap]

/-- **`syscall_asm_linkage`**. The place that is jumped to, `invalid_arg`,
is the one after the first `iret`. -/
def syscallAsmLinkage : List (Instr SysCall) :=
  [.pushl .ebp, .pushl .esi, .pushl .edi,
    .cmpl 1 .eax, .jl 19, .cmpl 8 .eax, .jg 19,
    .pushl .edx, .pushl .ecx, .pushl .ebx,
    .decl .eax, .callTable sysCallTable .eax,
    .popl .ebx, .popl .ecx, .popl .edx, .popl .edi, .popl .esi, .popl .ebp, .iret,
    .popl .edi, .popl .esi, .popl .ebp, .movl (-1) .eax, .iret]

section

variable {φ : Type*} {sem : φ → Cpu → Cpu} {x : Context} {mem : Word → Word} {ss0 esp0 : Word}

end

section

variable {sem : SysCall → Cpu → Cpu} {x : Context} {mem : Word → Word} {ss0 esp0 : Word}

end

end KernelDesign
