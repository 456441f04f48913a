import KernelDesign.ClockRate
import KernelDesign.InterruptNesting
import KernelDesign.Library.IndexedRegs

/-!
# The clock behind its ports

`rtc.c` reaches the registers of the clock through an index port and a data
port, too, and never puts back the index. What keeps `rtc_init`, `rtc_write`
and `rtc_handler` from each other's registers is that they select and access
them between `cli` and `sti`; over all interleavings the kernel then writes
registers A and B alone, and of these only the bits that the functions are for
(`clock_registers`).

`rtc_read` masks nothing. It clears `next_interrupt` and waits for the handler
to set it, and it comes to its end for the interrupts that are delivered after
it cleared the variable, and for no others (`rtc_read_wakes`).
-/

namespace KernelDesign

open IndexedRegs Preemption Transition

/-! ## The accesses of `rtc.c` -/

/-- **The clock**: the high bit of the index is not part of the number. The
registers are as the kernel's writes leave them; what the clock does to them by
itself, to the time and to the flags in register C, which it sets with an
interrupt and clears when they are read, is not in them. -/
def clockDevice : Device := ⟨fun i => i &&& 0x7F, fun _ v => v⟩

/-- The variables: the `prev` of the function that runs, and
`next_interrupt`. -/
structure ClockVars where
  prev : UInt8
  nextInterrupt : ℕ

namespace ClockPort

/-- **`rtc_init`** between `cli` and `sti`, without the gate and the mask. -/
def rtcInit : List (PortAccess ClockVars) :=
  [.assign (fun v => { v with nextInterrupt := 0 }),
    .select 0x8B, .read (fun v data => { v with prev := data }),
    .select 0x8B, .write (fun v => v.prev ||| 0x40)]

/-- **`rtc_handler`** between `cli` and `send_eoi`. -/
def rtcHandler : List (PortAccess ClockVars) :=
  [.assign (fun v => { v with nextInterrupt := 1 }),
    .select 0x0C, .read (fun v _ => v)]

/-- **`rtc_write`** between `cli` and `send_eoi`, for the first byte of the
buffer. -/
def rtcWrite (c : UInt8) : List (PortAccess ClockVars) :=
  [.select 0x8A, .read (fun v data => { v with prev := data }),
    .select 0x8A, .write (fun v => v.prev &&& 0xF0 ||| writtenRate c)]

/-- **`rtc_read`** before its loop. -/
def rtcRead : List (PortAccess ClockVars) := [.assign (fun v => { v with nextInterrupt := 0 })]

end ClockPort

/-- **The sections of the kernel** that access the clock. -/
inductive ClockSection
  | init
  | write (c : UInt8)

def ClockSection.accesses : ClockSection → List (PortAccess ClockVars)
  | init => ClockPort.rtcInit
  | write c => ClockPort.rtcWrite c

/-- Of the handlers, `rtc_handler` alone accesses the clock. -/
def clockWorks : Works Unit (PortAccess ClockVars) := ⟨[], [], fun _ => [], ClockPort.rtcHandler⟩

/-- A step of the processor with the clock. -/
def clockStep (p : Pic) := interruptStep (access clockDevice) clockWorks p

/-! ## The registers -/

/-- **What the kernel may have written**: the rate is the old one or one of two,
with the bits beside it as they were, and the periodic interrupt may be on. -/
structure ClockKept (x y : Bank ClockVars) : Prop where
  other : ∀ r, r ≠ 0x0A → r ≠ 0x0B → y.regs r = x.regs r
  divider : y.regs 0x0A &&& 0xF0 = x.regs 0x0A &&& 0xF0
  rate : y.regs 0x0A = x.regs 0x0A ∨ y.regs 0x0A &&& 0x0F = 11 ∨ y.regs 0x0A &&& 0x0F = 15
  periodic : y.regs 0x0B = x.regs 0x0B ∨ y.regs 0x0B = x.regs 0x0B ||| 0x40

section Sections

variable {x y : Bank ClockVars}

theorem ClockKept.of_regs (h : y.regs = x.regs) : ClockKept x y := by
  refine ⟨fun r _ _ => ?_, ?_, Or.inl ?_, Or.inl ?_⟩
  · rw [h]
  · rw [h]
  · rw [h]
  · rw [h]

theorem ClockKept.refl (x : Bank ClockVars) : ClockKept x x := .of_regs rfl

/-- **`rtc_init`** turns the periodic interrupt on, and writes nothing else to
the clock. -/
theorem rtcInit_regs (x : Bank ClockVars) :
    (ClockPort.rtcInit.foldl (access clockDevice) x).regs
      = Function.update x.regs 0x0B (x.regs 0x0B ||| 0x40) := by
  have hdecode : clockDevice.decode 0x8B = 0x0B := by decide
  simp only [ClockPort.rtcInit, List.foldl, access, hdecode]
  rw [show clockDevice.afterRead 0x0B (x.regs 0x0B) = x.regs 0x0B from rfl,
    Function.update_eq_self]

/-- **`rtc_write`** sets one of two rates, and writes nothing else. -/
theorem rtcWrite_regs (c : UInt8) (x : Bank ClockVars) :
    ((ClockPort.rtcWrite c).foldl (access clockDevice) x).regs
      = Function.update x.regs 0x0A (x.regs 0x0A &&& 0xF0 ||| writtenRate c) := by
  have hdecode : clockDevice.decode 0x8A = 0x0A := by decide
  simp only [ClockPort.rtcWrite, List.foldl, access, hdecode]
  rw [show clockDevice.afterRead 0x0A (x.regs 0x0A) = x.regs 0x0A from rfl,
    Function.update_eq_self]

theorem or_and_byte (a b m : UInt8) : (a ||| b) &&& m = a &&& m ||| b &&& m := by
  rw [← UInt8.toNat_inj, UInt8.toNat_and, UInt8.toNat_or, UInt8.toNat_or, UInt8.toNat_and,
    UInt8.toNat_and]
  exact Nat.and_or_distrib_right _ _ _

/-- What `rtc_write` makes of register A. -/
theorem rate_bits (a c : UInt8) :
    (a &&& 0xF0 ||| writtenRate c) &&& 0xF0 = a &&& 0xF0
      ∧ (a &&& 0xF0 ||| writtenRate c) &&& 0x0F = writtenRate c := by
  have hrate : ∀ w : UInt8, w = 11 ∨ w = 15 → w &&& 0xF0 = 0 ∧ w &&& 0x0F = w := by
    rintro w (rfl | rfl)
    · decide
    · decide
  obtain ⟨hhigh, hlow⟩ := hrate _ (writtenRate_cases c)
  constructor
  · rw [or_and_byte, hhigh, UInt8.and_assoc, UInt8.or_zero]
    rfl
  · rw [or_and_byte, hlow, UInt8.and_assoc, show (0xF0 : UInt8) &&& 0x0F = 0 by decide,
      UInt8.and_zero, UInt8.zero_or]

theorem ClockKept.trans {x y z : Bank ClockVars} (h : ClockKept x y) (h' : ClockKept y z) :
    ClockKept x z where
  other := fun r hA hB => (h'.other r hA hB).trans (h.other r hA hB)
  divider := h'.divider.trans h.divider
  rate := by
    obtain heq | hrate := h'.rate
    · rw [heq]
      exact h.rate
    · exact Or.inr hrate
  periodic := by
    obtain heq | hset := h'.periodic
    · rw [heq]
      exact h.periodic
    · obtain heq | hset' := h.periodic
      · rw [hset, heq]
        exact Or.inr rfl
      · rw [hset, hset', UInt8.or_assoc]
        exact Or.inr rfl

/-- A register is set, and no other. -/
theorem update_other {r q v : UInt8} (regs : UInt8 → UInt8) (h : q ≠ r) :
    Function.update regs r v q = regs q := Function.update_of_ne h v regs

/-- **The accesses keep to A and B at every point.** -/
def KeepsClock (as : List (PortAccess ClockVars)) : Prop :=
  ∀ done, done <+: as → ∀ x, ClockKept x (done.foldl (access clockDevice) x)

/-- Accesses that write nothing. -/
theorem keepsClock_of_reads {as : List (PortAccess ClockVars)} (h : ∀ f, .write f ∉ as) :
    KeepsClock as := fun _ hdone x =>
  .of_regs (regs_of_reads (fun _ _ => rfl) (fun f hf => h f (hdone.subset hf)) x)

/-- **Accesses that write once, at their end.** -/
theorem KeepsClock.concat (as : List (PortAccess ClockVars)) {a : PortAccess ClockVars}
    (h : KeepsClock as) (hall : ∀ x, ClockKept x ((as ++ [a]).foldl (access clockDevice) x)) :
    KeepsClock (as ++ [a]) := by
  intro done hdone x
  obtain rfl | hdone := List.prefix_concat_iff.mp hdone
  · exact hall x
  · exact h done hdone x

/-- **`rtc_handler`** only reads. -/
theorem rtcHandler_keeps : KeepsClock ClockPort.rtcHandler :=
  keepsClock_of_reads (fun f hf => by simp [ClockPort.rtcHandler] at hf)

/-- **The sections of the kernel** keep to registers A and B. -/
theorem ClockSection.keeps (c : ClockSection) : KeepsClock c.accesses := by
  cases c with
  | init =>
    refine KeepsClock.concat ClockPort.rtcInit.dropLast
      (keepsClock_of_reads (fun f hf => by simp [ClockPort.rtcInit] at hf)) (fun x => ?_)
    have hregs := rtcInit_regs x
    have hA : (ClockPort.rtcInit.foldl (access clockDevice) x).regs 0x0A = x.regs 0x0A := by
      rw [hregs, update_other _ (by decide)]
    refine ⟨fun r _ hB => ?_, congrArg (· &&& 0xF0) hA, Or.inl hA, Or.inr ?_⟩
    · show (ClockPort.rtcInit.foldl (access clockDevice) x).regs r = _
      rw [hregs, update_other _ hB]
    · show (ClockPort.rtcInit.foldl (access clockDevice) x).regs 0x0B = _
      rw [hregs, Function.update_self]
  | write c =>
    refine KeepsClock.concat (ClockPort.rtcWrite c).dropLast
      (keepsClock_of_reads (fun f hf => by simp [ClockPort.rtcWrite] at hf)) (fun x => ?_)
    have hregs := rtcWrite_regs c x
    have hA : ((ClockPort.rtcWrite c).foldl (access clockDevice) x).regs 0x0A
        = x.regs 0x0A &&& 0xF0 ||| writtenRate c := by
      rw [hregs, Function.update_self]
    obtain ⟨hhigh, hlow⟩ := rate_bits (x.regs 0x0A) c
    refine ⟨fun r hA' _ => ?_, (congrArg (· &&& 0xF0) hA).trans hhigh, Or.inr ?_, Or.inl ?_⟩
    · show ((ClockPort.rtcWrite c).foldl (access clockDevice) x).regs r = _
      rw [hregs, update_other _ hA']
    · show ((ClockPort.rtcWrite c).foldl (access clockDevice) x).regs 0x0A &&& 0x0F = 11
        ∨ ((ClockPort.rtcWrite c).foldl (access clockDevice) x).regs 0x0A &&& 0x0F = 15
      rw [hA, hlow]
      exact writtenRate_cases c
    · show ((ClockPort.rtcWrite c).foldl (access clockDevice) x).regs 0x0B = _
      rw [hregs, update_other _ (by decide)]

end Sections

/-! ## Over all interleavings -/

/-- **What the kernel begins**: sections that access the clock as one of its
functions does, or not at all, and `rtc_read`. -/
structure ClockCalls (es : List (Move Line Unit (PortAccess ClockVars))) : Prop where
  start : ∀ b, .start b ∈ es → works b = [] ∨ ∃ c : ClockSection, works b = c.accesses
  call : ∀ as, .call as ∈ es → as = ClockPort.rtcRead

/-- **The registers are kept**, and the program has nothing to do or to clear its
variable. -/
def ClockAt (x₀ : Bank ClockVars) (as : List (PortAccess ClockVars)) (x : Bank ClockVars) : Prop :=
  ClockKept x₀ x ∧ (as = [] ∨ as = ClockPort.rtcRead)

theorem stable_clock (x₀ : Bank ClockVars) :
    Stable (access clockDevice)
      (fun b : List (Act Line (PortAccess ClockVars)) => KeepsClock (works b))
      (fun _ => False) (fun as => as = ClockPort.rtcRead) (ClockAt x₀) where
  block := fun hb _ x hx => ⟨hx.1.trans (hb _ List.prefix_rfl x), hx.2⟩
  opening := fun hfalse => hfalse.elim
  act := by
    rintro a as x ⟨hkept, hnone | hread⟩
    · cases hnone
    · rw [ClockPort.rtcRead, List.cons.injEq] at hread
      obtain ⟨rfl, rfl⟩ := hread
      exact ⟨⟨hkept.1, hkept.2, hkept.3, hkept.4⟩, Or.inl rfl⟩
  call := fun has _ hx => ⟨hx.1, Or.inr has⟩

section Runs

variable {p : Pic} {pending : Line → Bool} {x : Bank ClockVars}
  {es : List (Move Line Unit (PortAccess ClockVars))}
  {s s₁ s' : State Line (PortAccess ClockVars) ServiceRegs (Bank ClockVars)}

/-- What the handlers do keeps to the registers of the clock. -/
theorem clockWorks_on (l : Line) (k : Unit) :
    clockWorks.on l k = [] ∨ clockWorks.on l k = ClockPort.rtcHandler := by
  unfold Works.on
  split
  · exact Or.inl rfl
  · split
    · exact Or.inl rfl
    · split
      · exact Or.inr rfl
      · exact Or.inl rfl

/-- **`rtc.c` never loses its place**, along any run and in every state of it: the
kernel has written to no register but A and B, the rate is the old one or 11 or
15 with the four bits beside it as they were, and register B is the old one,
with the periodic interrupt on or not. -/
theorem clock_registers (hcalls : ClockCalls es)
    (hrun : run (clockStep p) (quietStart pending x) es = some s) : ClockKept x s.shared := by
  have hkept := kept_interrupts (A := KeepsClock) (stable_clock x)
    (kept_start _ pending ⟨ClockKept.refl x, Or.inl rfl⟩)
    (inv_start quiet_registers.1 quiet_registers.2 pending x)
    (fun a ha => absurd ha List.not_mem_nil) ?_ ?_ hcalls.call hrun
  · refine hkept.everywhere (fun hx => hx.1) ?_
    rintro done rest hsection as y hy
    rw [works_append] at hsection
    exact hy.1.trans (hsection _ (List.prefix_append _ _) y)
  · intro l k _
    obtain hnone | hhandler := clockWorks_on l k
    · rw [hnone]
      exact keepsClock_of_reads (fun f hf => absurd hf List.not_mem_nil)
    · rw [hhandler]
      exact rtcHandler_keeps
  · intro b hb
    obtain hnone | ⟨c, hc⟩ := hcalls.start b hb
    · rw [hnone]
      exact keepsClock_of_reads (fun f hf => absurd hf List.not_mem_nil)
    · rw [hc]
      exact c.keeps

/-- `rtc_open`, with an interrupt of the clock between `rtc_init` and
`rtc_write`. -/
def openClock : List (Move Line Unit (PortAccess ClockVars)) :=
  [.start (ClockPort.rtcInit.map .work)] ++ List.replicate 7 .advance
    ++ [.raise rtcLine, .start ((ClockPort.rtcWrite 15).map .work ++ [.ack rtcLine]),
      .deliver rtcLine ()]
    ++ List.replicate 14 .advance

/-- A clock at 1024 interrupts a second that makes none. -/
def clockStart : Bank ClockVars :=
  ⟨0, fun r => if r = 0x0A then 0x26 else if r = 0x0B then 0x02 else 0x10, ⟨0, 0⟩⟩

/-- The clock is at two interrupts a second, and makes them; and inside the
section of `rtc_write`, before its last access, it is not yet. -/
theorem clock_registers_open :
    (∃ s, run (clockStep ⟨0, 0, []⟩) (quietStart (fun _ => false) clockStart) openClock = some s
      ∧ s.base = .after ∧ s.shared.regs 0x0A = 0x2F ∧ s.shared.regs 0x0B = 0x42
      ∧ s.shared.regs 0x0C = 0x10)
      ∧ ∃ s, run (clockStep ⟨0, 0, []⟩) (quietStart (fun _ => false) clockStart)
          (openClock.take 21) = some s
        ∧ s.current.isOpen = false ∧ s.shared.regs 0x0A = 0x26 ∧ s.shared.regs 0x0C = 0x10 := by
  have hcalls : ClockCalls openClock := by
    refine ⟨fun b hb => ?_, fun as has => ?_⟩
    · simp only [openClock, List.mem_append, List.mem_cons, List.mem_replicate] at hb
      simp at hb
      obtain rfl | rfl := hb
      · exact Or.inr ⟨.init, rfl⟩
      · exact Or.inr ⟨.write 15, rfl⟩
    · simp [openClock] at has
  have htake : ClockCalls (openClock.take 21) :=
    ⟨fun b hb => hcalls.start b (List.mem_of_mem_take hb),
      fun as has => hcalls.call as (List.mem_of_mem_take has)⟩
  have hrun : ∃ s, run (clockStep ⟨0, 0, []⟩) (quietStart (fun _ => false) clockStart) openClock
        = some s
      ∧ s.base = .after ∧ s.shared.regs 0x0A = 0x2F
      ∧ s.shared.regs 0x0B = 0x42 := ⟨_, rfl, rfl, rfl, rfl⟩
  have hinside : ∃ s, run (clockStep ⟨0, 0, []⟩) (quietStart (fun _ => false) clockStart)
        (openClock.take 21) = some s
      ∧ s.current.isOpen = false ∧ s.shared.regs 0x0A = 0x26 := ⟨_, rfl, rfl, rfl⟩
  obtain ⟨s, hrun, hbase, hA, hB⟩ := hrun
  obtain ⟨s', hrun', hmasked, hrate⟩ := hinside
  exact ⟨⟨s, hrun, hbase, hA, hB, (clock_registers hcalls hrun).other 0x0C (by decide)
    (by decide)⟩, s', hrun', hmasked, hrate,
    (clock_registers htake hrun').other 0x0C (by decide) (by decide)⟩

/-! ## `rtc_read` -/

/-- **`rtc_read` may go on**: its loop ends when it finds this. -/
def Woken (x : Bank ClockVars) : Prop := x.vars.nextInterrupt ≠ 0

/-- Only `rtc_handler` accesses the clock. -/
theorem clockWorks_on_eq (l : Line) (k : Unit) :
    clockWorks.on l k = if l = rtcLine then ClockPort.rtcHandler else [] := by
  by_cases h0 : l = pitLine
  · rw [Works.on, if_pos h0, if_neg (by rw [h0]; decide)]
    rfl
  · by_cases h1 : l = kbdLine
    · rw [Works.on, if_neg h0, if_pos h1, if_neg (by rw [h1]; decide)]
      rfl
    · rw [Works.on, if_neg h0, if_neg h1]
      rfl

/-- All that a handler does to the clock. -/
theorem all_irqHandler (l : Line) (k : Unit) :
    (irqHandler clockWorks l k).all = if l = rtcLine then ClockPort.rtcHandler else [] := by
  show (if l = pitLine then [] else []) ++ works (handlerBody clockWorks l k) = _
  rw [ite_self, List.nil_append, works_handlerBody, clockWorks_on_eq]

/-- **The handlers wake `rtc_read` or leave the variable.** -/
theorem heeds_handler (l : Line) (k : Unit) :
    ∀ a ∈ (irqHandler clockWorks l k).all, Heeds (access clockDevice) Woken a := by
  rw [all_irqHandler]
  split
  · refine List.forall_mem_cons.mpr ⟨Or.inl (fun y => Nat.one_ne_zero), ?_⟩
    exact List.forall_mem_cons.mpr ⟨Or.inr (fun y => Iff.rfl),
      List.forall_mem_singleton.mpr (Or.inr (fun y => Iff.rfl))⟩
  · exact fun a ha => absurd ha List.not_mem_nil

/-- **It is the handler of the clock that wakes `rtc_read`.** -/
theorem raises_handler_iff (l : Line) (k : Unit) :
    (∃ a ∈ (irqHandler clockWorks l k).all, Raises (access clockDevice) Woken a)
      ↔ l = rtcLine := by
  rw [all_irqHandler]
  by_cases h8 : l = rtcLine
  · rw [if_pos h8]
    exact iff_of_true ⟨_, List.mem_cons_self, fun y => Nat.one_ne_zero⟩ h8
  · rw [if_neg h8]
    refine iff_of_false ?_ h8
    rintro ⟨a, ha, -⟩
    exact absurd ha List.not_mem_nil

/-- **`rtc_read` has cleared `next_interrupt`** in the step to `s₁`. -/
structure Clears (p : Pic) (s s₁ : State Line (PortAccess ClockVars) ServiceRegs (Bank ClockVars)) :
    Prop where
  todo : s.todo = ClockPort.rtcRead
  step : clockStep p s .advance = some s₁
  done : s₁.todo = []

/-- Interrupts may come before it, and have then returned. -/
theorem Clears.waits (h : Clears p s s₁) :
    s₁.frames = [] ∧ ¬ Woken s₁.shared ∧ Waits (access clockDevice) Woken s₁ := by
  have hstep := h.step
  have hdone := h.done
  rw [clockStep, interruptStep, Preemption.step, Preemption.advance] at hstep
  have hkept : s.todo ≠ [] := by
    rw [h.todo]
    exact List.cons_ne_nil _ _
  split at hstep
  · cases hstep
    exact absurd hdone hkept
  · cases hstep
    exact absurd hdone hkept
  · cases hstep
    exact absurd hdone hkept
  · cases hstep
    exact absurd hdone hkept
  · cases hstep
    exact absurd hdone hkept
  · rename_i hframes
    split at hstep
    · cases hstep
      exact absurd hdone hkept
    · cases hstep
      exact absurd hdone hkept
    · cases hstep
      exact absurd hdone hkept
    · cases hstep
      exact absurd hdone hkept
    · rename_i hbase
      rw [h.todo] at hstep
      cases hstep
      refine ⟨hframes, fun hwoken => hwoken rfl, hbase, rfl, ?_⟩
      rw [State.toCome, hframes]
      exact fun a ha => absurd ha List.not_mem_nil

/-- **`rtc_read` is woken by the interrupts after its store**, and by no
others: whatever comes while it waits, once the handlers have returned it may
go on if and only if an interrupt of the clock was delivered. -/
theorem rtc_read_wakes (hclears : Clears p s s₁) (hrun : run (clockStep p) s₁ es = some s')
    (hstart : ∀ b, .start b ∉ es) (hcall : ∀ as, .call as ∉ es) (hframes : s'.frames = []) :
    Woken s'.shared ↔ .deliver rtcLine () ∈ es := by
  obtain ⟨hquiet, hasleep, hwaits⟩ := hclears.waits
  obtain ⟨-, hsignal⟩ := signalled_run hwaits (fun l k _ => heeds_handler l k) hstart hcall hrun
  rw [signalled_quiet hframes, signalled_quiet hquiet, or_iff_right hasleep] at hsignal
  rw [hsignal]
  constructor
  · rintro ⟨l, k, hlk, hraises⟩
    rwa [(raises_handler_iff l k).mp hraises] at hlk
  · intro hdelivered
    exact ⟨rtcLine, (), hdelivered, (raises_handler_iff rtcLine ()).mpr rfl⟩

/-- `rtc_read` begins when an interrupt of the clock is about to be delivered. -/
def lateRead : State Line (PortAccess ClockVars) ServiceRegs (Bank ClockVars) :=
  { quietStart (fun l => l = rtcLine) clockStart with todo := ClockPort.rtcRead }

/-- That interrupt wakes it, though it was raised before the store. -/
theorem rtc_read_wakes_late :
    ∃ s₁ s', clockStep ⟨0, 0, []⟩ lateRead .advance = some s₁
      ∧ run (clockStep ⟨0, 0, []⟩) s₁ (.deliver rtcLine () :: List.replicate 7 .advance) = some s'
      ∧ Woken s'.shared := by
  have hrun : ∃ s₁ s', clockStep ⟨0, 0, []⟩ lateRead .advance = some s₁
      ∧ run (clockStep ⟨0, 0, []⟩) s₁ (.deliver rtcLine () :: List.replicate 7 .advance) = some s'
      ∧ s₁.todo = [] ∧ s'.frames = [] := ⟨_, _, rfl, rfl, rfl, rfl⟩
  obtain ⟨s₁, s', hstep, hrun, hdone, hframes⟩ := hrun
  have hwakes := rtc_read_wakes ⟨rfl, hstep, hdone⟩ hrun (fun b hb => by simp at hb)
    (fun as has => by simp at has) hframes
  exact ⟨s₁, s', hstep, hrun, hwakes.mpr List.mem_cons_self⟩

/-- **`rtc_read` comes to its end**: at whatever point of the wait the clock has
raised its line, the handlers on the stack return, the line is delivered, and
when its handler has returned `rtc_read` may go on. -/
theorem rtc_read_returns {es₀ : List (Move Line Unit (PortAccess ClockVars))}
    (hreach : run (clockStep p) (quietStart pending x) es₀ = some s) (hclears : Clears p s s₁)
    (hrun : run (clockStep p) s₁ es = some s')
    (hstart : ∀ b, .start b ∉ es) (hcall : ∀ as, .call as ∉ es)
    (hpending : s'.pending rtcLine = true) :
    ∃ n m t, run (clockStep p) s'
        (List.replicate n .advance ++ .deliver rtcLine () :: List.replicate m .advance) = some t
      ∧ t.frames = [] ∧ Woken t.shared := by
  obtain ⟨hquiet, hasleep, hwaits⟩ := hclears.waits
  have hs₁ : run (clockStep p) (quietStart pending x) (es₀ ++ [.advance]) = some s₁ := by
    rw [run_append, hreach]
    show (clockStep p s .advance).bind _ = _
    rw [hclears.step]
    rfl
  have hinv : Inv controllers ServiceRegs.Consistent s' :=
    (inv_interrupts hs₁).run lawful_controllers (bootMasks_handles clockWorks p) hrun
  obtain ⟨hwaits', -⟩ := signalled_run hwaits (fun l k _ => heeds_handler l k) hstart hcall hrun
  -- The handlers on the stack return.
  obtain ⟨n, t₁, hdrain, hempty, hbase, hline⟩ :=
    drain controllers (access clockDevice) (bootMasks p).deliverable (irqHandler clockWorks) s'
  have hinv₁ := hinv.run lawful_controllers (bootMasks_handles clockWorks p) hdrain
  have henabled : t₁.enabled = true := by
    rw [hinv₁.enabled, State.current, hempty]
    show t₁.base.isOpen = true
    rw [hbase, hwaits'.base]
    rfl
  have hnext : ∃ t₂, step controllers (access clockDevice) (bootMasks p).deliverable
      (irqHandler clockWorks) t₁ (.deliver rtcLine ()) = some t₂ :=
    hinv₁.deliverable lawful_controllers hempty henabled (hline ▸ hpending)
      ((bootMasks_deliverable p rtcLine).mpr (Or.inr (Or.inr rfl))) ()
  obtain ⟨t₂, hdeliver⟩ := hnext
  -- The handler of the clock returns.
  obtain ⟨m, t, hlast, hframes, -, -⟩ :=
    drain controllers (access clockDevice) (bootMasks p).deliverable (irqHandler clockWorks) t₂
  have hall : run (clockStep p) s'
      (List.replicate n .advance ++ .deliver rtcLine () :: List.replicate m .advance) = some t := by
    rw [run_append]
    refine Option.bind_eq_some_iff.mpr ⟨t₁, hdrain, ?_⟩
    rw [run_cons]
    exact Option.bind_eq_some_iff.mpr ⟨t₂, hdeliver, hlast⟩
  refine ⟨n, m, t, hall, hframes, ?_⟩
  obtain ⟨-, hsignal⟩ := signalled_run hwaits' (fun l k _ => heeds_handler l k)
    (fun b hb => by simp at hb) (fun as has => by simp at has) hall
  rw [signalled_quiet hframes] at hsignal
  exact hsignal.mpr (Or.inr ⟨rtcLine, (), by simp, (raises_handler_iff rtcLine ()).mpr rfl⟩)

/-- A tick is in its handler when the clock raises its line. -/
theorem rtc_read_returns_tick :
    ∃ s₁ s', run (clockStep ⟨0, 0, []⟩) (quietStart (fun _ => true) clockStart)
        [.call ClockPort.rtcRead, .advance] = some s₁
      ∧ run (clockStep ⟨0, 0, []⟩) s₁ [.deliver pitLine (), .advance] = some s'
      ∧ ∃ n m t, run (clockStep ⟨0, 0, []⟩) s'
          (List.replicate n .advance ++ .deliver rtcLine () :: List.replicate m .advance) = some t
        ∧ t.frames = [] ∧ Woken t.shared := by
  have hrun : ∃ s s₁ s', run (clockStep ⟨0, 0, []⟩) (quietStart (fun _ => true) clockStart)
        [.call ClockPort.rtcRead] = some s
      ∧ clockStep ⟨0, 0, []⟩ s .advance = some s₁
      ∧ run (clockStep ⟨0, 0, []⟩) s₁ [.deliver pitLine (), .advance] = some s'
      ∧ s.todo = ClockPort.rtcRead ∧ s₁.todo = [] ∧ s'.pending rtcLine = true
      ∧ run (clockStep ⟨0, 0, []⟩) (quietStart (fun _ => true) clockStart)
        [.call ClockPort.rtcRead, .advance] = some s₁ :=
    ⟨_, _, _, rfl, rfl, rfl, rfl, rfl, rfl, rfl⟩
  obtain ⟨s, s₁, s', hreach, hstep, hrun, htodo, hdone, hpending, hboth⟩ := hrun
  exact ⟨s₁, s', hboth, hrun, rtc_read_returns hreach ⟨htodo, hstep, hdone⟩ hrun
    (fun b hb => by simp at hb) (fun as has => by simp at has) hpending⟩

end Runs

end KernelDesign
