import KernelDesign.Linkage

/-!
# Interrupts in the kernel's own code

The gates of the devices leave interrupts on, and system calls run with
interrupts on, so a wrapper of `isr_wrapper.S` may be entered in the middle of
kernel code, and in the middle of a handler, to any depth. The processor then
stays on the stack that it is on, and everything the interrupted code has
there, down to its stack pointer, is above what the wrapper pushes.

Kernel code is here what it does between two interrupts, and the handlers that
come in between, each with the code and the interrupts of its own
(`KernelCode`). If each piece of code leaves alone what its callers have on the
stack, each interrupt is one that the code which it interrupts does not
see, and at the bottom of it all the program does not (`nested_transparent`).
-/

namespace KernelDesign

open StackMachine

/-- Kernel code at `eip`, as an interrupt takes it away. -/
def kernelContext (eip eflags : Word) (s : Cpu) : Context := ⟨s.regs, eip, 0x10, eflags, s.ss⟩

/-- **A wrapper up to its `iret`**: it saves the registers of what was
interrupted, calls the handler `g`, and restores them. -/
def wrapped (g : Cpu → Cpu) (x : Context) (mem : Word → Word) (ss0 esp0 : Word) : Cpu :=
  (g (enter x mem ss0 esp0).pushal).popal

/-- **The processor after an interrupt of kernel code.** -/
def interrupted (g : Cpu → Cpu) (eip eflags : Word) (s : Cpu) : Cpu :=
  let t := wrapped g (kernelContext eip eflags s) s.mem 0 0
  { s with regs := (iretContext t).regs, ss := (iretContext t).ss, mem := t.mem }

/-- **Kernel code and its interrupts**: a piece of code up to the next
interrupt, or an interrupt with its handler. -/
inductive KernelCode
  | done
  | piece (f : Cpu → Cpu) (rest : KernelCode)
  | irq (eip eflags : Word) (handler rest : KernelCode)

/-- What the code does. -/
def KernelCode.run : KernelCode → Cpu → Cpu
  | done => fun s => s
  | piece f rest => fun s => rest.run (f s)
  | irq eip eflags handler rest => fun s => rest.run (interrupted handler.run eip eflags s)

/-- The words of a kernel stack, `KSTACK_SIZE / 4`. -/
def kstackWords : ℕ := 2048

/-- **A piece of code goes from `d` words to `d'` words of its own**, called with
`p` words in use on the stack that starts below `base`, and leaves these
alone. -/
def Stays (base : Word) (f : Cpu → Cpu) (p d d' : ℕ) : Prop :=
  ∀ s, slot (s.regs .esp) (p + d) = base →
    slot ((f s).regs .esp) (p + d') = base ∧ (f s).ss = s.ss
      ∧ ∀ a, InUse base p a → (f s).mem a = s.mem a

/-- **The code returns with the stack where it was**, each piece leaving alone
the `p` words of its callers, and each handler these, the words of the code it
interrupts, and the eleven that the interrupt and the wrapper have pushed; and
the stack has room for these. -/
def KernelCode.Fits (base : Word) : KernelCode → ℕ → ℕ → Prop
  | done, _, d => d = 0
  | piece f rest, p, d => ∃ d', Stays base f p d d' ∧ rest.Fits base p d'
  | irq _ _ handler rest, p, d =>
    p + d + 11 ≤ kstackWords ∧ handler.Fits base (p + d + 11) 0 ∧ rest.Fits base p d

section Wrapper

variable {g : Cpu → Cpu} {x : Context} {mem : Word → Word} {ss0 esp0 base : Word} {m : ℕ}
  (hgate : slot ((atGate x mem ss0 esp0).regs .esp) m = base)
  (hg : Stays base g (m + x.frame.length + 8) 0 0)

include hgate

/-- The words in use when the handler is called. -/
theorem slot_saved :
    slot ((enter x mem ss0 esp0).pushal.regs .esp) (m + x.frame.length + 8) = base := by
  have henter : slot ((enter x mem ss0 esp0).regs .esp) x.frame.length
      = (atGate x mem ss0 esp0).regs .esp := pushAll_esp _ _
  have hsaved : slot ((enter x mem ss0 esp0).pushal.regs .esp) 8
      = (enter x mem ss0 esp0).regs .esp := pushAll_esp _ _
  rw [show m + x.frame.length + 8 = 8 + (x.frame.length + m) by omega, ← slot_slot, hsaved,
    ← slot_slot, henter, hgate]

include hg

/-- **A wrapper around code that keeps the stack** returns to what it
interrupted. -/
theorem iretContext_wrapper : iretContext (wrapped g x mem ss0 esp0) = x := by
  have henter := holds_enter x mem ss0 esp0
  have hsaved := henter.pushal (by decide)
  have hbase := slot_saved hgate
  obtain ⟨hesp, hss, hwords⟩ := hg (enter x mem ss0 esp0).pushal hbase
  have hleaves : Leaves g (enter x mem ss0 esp0).pushal 0 (8 + x.frame.length) :=
    ⟨slot_left_cancel (hesp.trans hbase.symm), hss,
      fun k _ hk => hwords _ (inUse_slot hbase (by omega))⟩
  have hcalled := Carries.call [] _ hsaved hleaves
  obtain ⟨hdone, hregs⟩ := hcalled.popal
  refine hdone.iret.trans (Context.ext (funext fun q => ?_) rfl rfl rfl rfl)
  dsimp only
  by_cases hq : q = .esp
  · rw [if_pos hq, hq]
  · rw [if_neg hq]
    exact (hregs q hq).trans (enter_regs x mem ss0 esp0 hq)

/-- **No word that was in use at the interrupt changes.** -/
theorem wrapper_mem (hm : m ≤ kstackWords) {a : Word} (ha : InUse base m a) :
    (wrapped g x mem ss0 esp0).mem a = mem a := by
  rw [kstackWords] at hm
  have hframe := frame_length_le x
  obtain ⟨-, -, hwords⟩ := hg (enter x mem ss0 esp0).pushal (slot_saved hgate)
  have hleft := hwords a (ha.mono (by omega))
  have hpopped : (wrapped g x mem ss0 esp0).mem = (g (enter x mem ss0 esp0).pushal).mem :=
    (popAll_mem _ _).trans (popAll_mem _ _)
  -- The frame and the registers are pushed below it.
  obtain ⟨k, hk, rfl⟩ := ha.exists_slot hgate
  have henter : slot ((enter x mem ss0 esp0).regs .esp) x.frame.length
      = (atGate x mem ss0 esp0).regs .esp := pushAll_esp _ _
  have hpushed : (enter x mem ss0 esp0).pushal.mem
        (slot ((enter x mem ss0 esp0).regs .esp) (x.frame.length + k))
      = (enter x mem ss0 esp0).mem
        (slot ((enter x mem ss0 esp0).regs .esp) (x.frame.length + k)) :=
    pushAll_mem _ (by simp only [List.length_cons, List.length_nil]; omega)
  rw [← slot_slot, henter] at hpushed
  have hentered : (enter x mem ss0 esp0).mem (slot ((atGate x mem ss0 esp0).regs .esp) k)
      = mem (slot ((atGate x mem ss0 esp0).regs .esp) k) :=
    pushAll_mem (atGate x mem ss0 esp0) (by omega)
  rw [hpopped, hleft, hpushed, hentered]

end Wrapper

theorem interrupted_mem (g : Cpu → Cpu) (eip eflags : Word) (s : Cpu) :
    (interrupted g eip eflags s).mem
      = (wrapped g (kernelContext eip eflags s) s.mem 0 0).mem := by
  simp only [interrupted]

/-- **An interrupt of kernel code is not seen by it**: its registers are as they
were, and so are the words in use. -/
theorem interrupted_spec {g : Cpu → Cpu} {base : Word} {m : ℕ} {s : Cpu}
    (hesp : slot (s.regs .esp) m = base) (hg : Stays base g (m + 11) 0 0)
    (hm : m ≤ kstackWords) (eip eflags : Word) :
    (interrupted g eip eflags s).regs = s.regs ∧ (interrupted g eip eflags s).ss = s.ss
      ∧ ∀ a, InUse base m a → (interrupted g eip eflags s).mem a = s.mem a := by
  have hkernel : (kernelContext eip eflags s).user = false := by
    show decide ((0x10 : Word).toNat % 4 = 3) = false
    decide
  have hlength : (kernelContext eip eflags s).frame.length = 3 := by
    rw [Context.frame, if_neg (by rw [hkernel]; exact Bool.false_ne_true)]
    rfl
  have hgate : slot ((atGate (kernelContext eip eflags s) s.mem 0 0).regs .esp) m = base := by
    have hsame : (atGate (kernelContext eip eflags s) s.mem 0 0).regs .esp = s.regs .esp := by
      refine if_neg ?_
      rintro ⟨-, huser⟩
      rw [hkernel] at huser
      cases huser
    rw [hsame]
    exact hesp
  have hg' : Stays base g (m + (kernelContext eip eflags s).frame.length + 8) 0 0 := by
    rw [hlength]
    exact hg
  have hreturn : iretContext (wrapped g (kernelContext eip eflags s) s.mem 0 0)
      = kernelContext eip eflags s := iretContext_wrapper hgate hg'
  exact ⟨congrArg Context.regs hreturn, congrArg Context.ss hreturn, fun a ha =>
    (congrFun (interrupted_mem g eip eflags s) a).trans (wrapper_mem hgate hg' hm ha)⟩

/-- **Code that fits stays**, with all its interrupts, on its part of the
stack. -/
theorem KernelCode.Fits.stays {base : Word} {code : KernelCode} {p d : ℕ}
    (h : code.Fits base p d) : Stays base code.run p d 0 := by
  induction code generalizing p d with
  | done =>
    intro s hesp
    rw [show d = 0 from h] at hesp
    exact ⟨hesp, rfl, fun a _ => rfl⟩
  | piece f rest ih =>
    obtain ⟨d', hf, hrest⟩ := h
    intro s hesp
    obtain ⟨hesp₁, hss₁, hwords₁⟩ := hf s hesp
    obtain ⟨hesp₂, hss₂, hwords₂⟩ := ih hrest (f s) hesp₁
    exact ⟨hesp₂, hss₂.trans hss₁, fun a ha => (hwords₂ a ha).trans (hwords₁ a ha)⟩
  | irq eip eflags handler rest ihandler irest =>
    obtain ⟨hroom, hhandler, hrest⟩ := h
    intro s hesp
    -- The handler leaves the words of the code alone as well as those of its callers.
    obtain ⟨hregs, hss, hwords⟩ :=
      interrupted_spec hesp (ihandler hhandler) (by omega) eip eflags
    have hesp' : slot ((interrupted handler.run eip eflags s).regs .esp) (p + d) = base := by
      rw [hregs]
      exact hesp
    obtain ⟨hesp₂, hss₂, hwords₂⟩ := irest hrest _ hesp'
    exact ⟨hesp₂, hss₂.trans hss, fun a ha =>
      (hwords₂ a ha).trans (hwords a (ha.mono (Nat.le_add_right _ _)))⟩

end KernelDesign
