import KernelDesign.InterruptMasks
import KernelDesign.Library.SharedState

/-!
# Interrupt handlers that interrupt each other

The gates of `idt.c` for the device lines leave the interrupt flag as it
is, so a handler can be interrupted at its first instruction already. Each
of the three handlers begins with `cli`, tells the controllers with
`send_eoi` that its line is done, and ends with `sti` before it returns; the
system calls that mask interrupts do it with the same two instructions. What
may come in between is decided by the two controllers: they hold back a line
that comes after one in service, and the line of the second controller that
is in service holds back all others there, until both were told.

`Preemption` has the argument over all interleavings, and this module that
the two controllers are one of those it is about (`lawful_controllers`).
-/

namespace KernelDesign

open Pic Preemption Transition Words

/-! ## The in-service registers -/

/-- **The lines that each controller has delivered** and that no
end-of-interrupt command has cleared. -/
structure ServiceRegs where
  master : UInt8
  slave : UInt8
  deriving DecidableEq

namespace ServiceRegs

/-- **A byte written to a controller**: the command with the three high bits
`011` ends the interrupt of the line in the low ones. -/
def outb (r : ServiceRegs) (data : UInt8) (port : ℕ) : ServiceRegs :=
  if data &&& 0xF8 = 0x60 then
    let mask := ~~~bitMask (lineBit data.toNat)
    if port = 0x20 then { r with master := r.master &&& mask }
    else if port = 0xA0 then { r with slave := r.slave &&& mask }
    else r
  else r

/-- **`send_eoi`**. -/
def sendEoi (r : ServiceRegs) (irqNum : ℕ) : ServiceRegs :=
  if 8 ≤ irqNum then
    (r.outb (0x60 ||| UInt8.ofNat (irqNum - 8)) 0xA0).outb (0x60 ||| 2) 0x20
  else r.outb (0x60 ||| UInt8.ofNat irqNum) 0x20

end ServiceRegs

/-- No bit up to `i` is set. -/
def clearUpTo (m : UInt8) (i : Fin 8) : Bool := decide (∀ j : Fin 8, j ≤ i → bit m j = false)

/-- **The two controllers**: a line in service holds back every line from it
on, and the second controller is behind line 2 of the first. -/
def controllers : Controller Line ServiceRegs where
  rank l := if l.onSlave then 2 else l.num
  serves r l := if l.onSlave then bit r.slave (lineBit l.num) else bit r.master (lineBit l.num)
  accepts r l :=
    if l.onSlave then clearUpTo r.slave (lineBit l.num) && clearUpTo r.master irq2
    else clearUpTo r.master (lineBit l.num)
  accept r l :=
    if l.onSlave then
      ⟨r.master ||| bitMask irq2, r.slave ||| bitMask (lineBit l.num)⟩
    else { r with master := r.master ||| bitMask (lineBit l.num) }
  ack r l := r.sendEoi l.num

/-- **The two registers fit together**: bit 2 of the first is set while some
line of the second controller is in service, and there only one is. -/
structure ServiceRegs.Consistent (r : ServiceRegs) : Prop where
  cascade : bit r.master irq2 = true ↔ ∃ j, bit r.slave j = true
  single : ∀ j k, bit r.slave j = true → bit r.slave k = true → j = k

theorem slave_num (j : Fin 8) : DeviceNum (8 + j.val) := ⟨by omega, by omega⟩

theorem master_num {j : Fin 8} (h : j ≠ irq2) : DeviceNum j.val :=
  ⟨by omega, fun heq => h (Fin.ext heq)⟩

/-- The line of the second controller with bit `j`. -/
def slaveLine (j : Fin 8) : Line := (slave_num j).line

/-- The line of the first controller with bit `j`. -/
def masterLine (j : Fin 8) (h : j ≠ irq2) : Line := (master_num h).line

theorem slaveLine_spec (j : Fin 8) :
    (slaveLine j).onSlave = true ∧ lineBit (slaveLine j).num = j := by
  refine ⟨decide_eq_true (Nat.le_add_right 8 j.val), Fin.ext ?_⟩
  show (8 + j.val) % 8 = j.val
  omega

theorem masterLine_spec {j : Fin 8} (h : j ≠ irq2) :
    (masterLine j h).onSlave = false ∧ lineBit (masterLine j h).num = j := by
  refine ⟨decide_eq_false (show ¬ 8 ≤ j.val by omega), Fin.ext ?_⟩
  show j.val % 8 = j.val
  omega

/-- A line of the first controller is its bit. -/
theorem lineBit_val {l : Line} (h : l.onSlave = false) : (lineBit l.num).val = l.num.val :=
  Nat.mod_eq_of_lt (Nat.lt_of_not_le (of_decide_eq_false h))

/-! ## The laws -/

section Laws

variable {r : ServiceRegs} {l j : Line}

theorem serves_slave (r : ServiceRegs) (h : l.onSlave = true) :
    controllers.serves r l = bit r.slave (lineBit l.num) := if_pos h

theorem serves_master (r : ServiceRegs) (h : l.onSlave = false) :
    controllers.serves r l = bit r.master (lineBit l.num) :=
  if_neg (by rw [h]; exact Bool.false_ne_true)

theorem rank_slave (h : l.onSlave = true) : controllers.rank l = 2 := if_pos h

theorem rank_master (h : l.onSlave = false) : controllers.rank l = l.num.val :=
  if_neg (by rw [h]; exact Bool.false_ne_true)

theorem clearUpTo_iff {m : UInt8} {i : Fin 8} :
    clearUpTo m i = true ↔ ∀ k : Fin 8, k ≤ i → bit m k = false := decide_eq_true_iff

/-- **A bit of the first register that is not clear** stands for a line in
service that has at most its rank. -/
theorem exists_serves (h : r.Consistent) {k : Fin 8} (hk : bit r.master k = true) :
    ∃ l, controllers.serves r l = true ∧ controllers.rank l = k.val := by
  by_cases hne : k = irq2
  · subst hne
    obtain ⟨i, hi⟩ := h.cascade.mp hk
    obtain ⟨hside, hbit⟩ := slaveLine_spec i
    refine ⟨slaveLine i, ?_, rank_slave hside⟩
    rw [serves_slave r hside, hbit]
    exact hi
  · obtain ⟨hside, hbit⟩ := masterLine_spec hne
    refine ⟨masterLine k hne, ?_, rank_master hside⟩
    rw [serves_master r hside, hbit]
    exact hk

/-- **The rank of a line in service is a bit of the first register.** -/
theorem exists_bit (h : r.Consistent) (hl : controllers.serves r l = true) :
    ∃ k : Fin 8, bit r.master k = true ∧ k.val = controllers.rank l := by
  cases hside : l.onSlave with
  | true =>
    rw [serves_slave r hside] at hl
    exact ⟨irq2, h.cascade.mpr ⟨_, hl⟩, (rank_slave hside).symm⟩
  | false =>
    rw [serves_master r hside] at hl
    exact ⟨lineBit l.num, hl, (lineBit_val hside).trans (rank_master hside).symm⟩

/-- The bits of the first register up to `i` are clear where every line in
service comes after `i`. -/
theorem clearUpTo_master_iff (h : r.Consistent) (i : Fin 8) :
    clearUpTo r.master i = true
      ↔ ∀ j, controllers.serves r j = true → i.val < controllers.rank j := by
  rw [clearUpTo_iff]
  constructor
  · intro hclear j hj
    obtain ⟨k, hk, hrank⟩ := exists_bit h hj
    rw [← hrank]
    refine Nat.lt_of_not_le (fun hle => ?_)
    rw [hclear k hle] at hk
    cases hk
  · intro hall k hle
    rw [← Bool.not_eq_true]
    intro hk
    obtain ⟨j, hj, hrank⟩ := exists_serves h hk
    have hlt := hall j hj
    rw [hrank] at hlt
    exact absurd hle (Nat.not_le_of_lt hlt)

/-- **A line is accepted** where everything in service comes after it. -/
theorem accepts_iff (h : r.Consistent) (l : Line) :
    controllers.accepts r l = true
      ↔ ∀ j, controllers.serves r j = true → controllers.rank l < controllers.rank j := by
  cases hside : l.onSlave with
  | false =>
    have haccepts : controllers.accepts r l = clearUpTo r.master (lineBit l.num) :=
      if_neg (by rw [hside]; exact Bool.false_ne_true)
    have hclear := clearUpTo_master_iff h (lineBit l.num)
    rwa [← haccepts, lineBit_val hside, ← rank_master hside] at hclear
  | true =>
    have haccepts : controllers.accepts r l
        = (clearUpTo r.slave (lineBit l.num) && clearUpTo r.master irq2) := if_pos hside
    rw [haccepts, rank_slave hside, Bool.and_eq_true, clearUpTo_master_iff h irq2]
    refine and_iff_right_of_imp (fun hall => clearUpTo_iff.mpr (fun k _ => ?_))
    -- A bit of the second register stands for a line of rank 2 in service.
    rw [← Bool.not_eq_true]
    intro hk
    obtain ⟨hslave, hbit⟩ := slaveLine_spec k
    have hlt := hall (slaveLine k) (by rw [serves_slave r hslave, hbit]; exact hk)
    rw [rank_slave hslave] at hlt
    exact Nat.lt_irrefl 2 hlt

/-- **A line that is accepted is in service** with all that was. -/
theorem serves_accept (r : ServiceRegs) (l j : Line) :
    controllers.serves (controllers.accept r l) j = true
      ↔ j = l ∨ controllers.serves r j = true := by
  cases hl : l.onSlave with
  | true =>
    have haccept : controllers.accept r l
        = ⟨r.master ||| bitMask irq2, r.slave ||| bitMask (lineBit l.num)⟩ := if_pos hl
    rw [haccept]
    cases hj : j.onSlave with
    | true =>
      rw [serves_slave _ hj, serves_slave r hj, bit_set, if_congr (lineBit_inj (hj.trans hl.symm))
        rfl rfl]
      by_cases heq : j = l
      · rw [if_pos heq]
        exact iff_of_true rfl (Or.inl heq)
      · rw [if_neg heq]
        exact (or_iff_right heq).symm
    | false =>
      rw [serves_master _ hj, serves_master r hj, bit_set, if_neg (lineBit_ne_cascade hj)]
      refine (or_iff_right (fun heq => ?_)).symm
      rw [heq, hl] at hj
      cases hj
  | false =>
    have haccept : controllers.accept r l
        = { r with master := r.master ||| bitMask (lineBit l.num) } :=
      if_neg (by rw [hl]; exact Bool.false_ne_true)
    rw [haccept]
    cases hj : j.onSlave with
    | true =>
      rw [serves_slave _ hj, serves_slave r hj]
      refine (or_iff_right (fun heq => ?_)).symm
      rw [heq, hl] at hj
      cases hj
    | false =>
      rw [serves_master _ hj, serves_master r hj, bit_set,
        if_congr (lineBit_inj (hj.trans hl.symm)) rfl rfl]
      by_cases heq : j = l
      · rw [if_pos heq]
        exact iff_of_true rfl (Or.inl heq)
      · rw [if_neg heq]
        exact (or_iff_right heq).symm

/-- **An accepted line keeps the registers consistent**: a line of the
second controller is accepted only if none is in service there. -/
theorem consistent_accept (h : r.Consistent) (haccepts : controllers.accepts r l = true) :
    (controllers.accept r l).Consistent := by
  cases hl : l.onSlave with
  | true =>
    have haccept : controllers.accept r l
        = ⟨r.master ||| bitMask irq2, r.slave ||| bitMask (lineBit l.num)⟩ := if_pos hl
    -- No bit of the second register was set, or bit 2 of the first would hold the line back.
    have hnone : ∀ k, bit r.slave k = false := by
      intro k
      rw [← Bool.not_eq_true]
      intro hk
      obtain ⟨i, hi, hrank⟩ := exists_serves h (h.cascade.mpr ⟨k, hk⟩)
      have hlt := (accepts_iff h l).mp haccepts i hi
      rw [rank_slave hl, hrank] at hlt
      exact Nat.lt_irrefl 2 hlt
    have hbit : ∀ k, bit (r.slave ||| bitMask (lineBit l.num)) k = true → k = lineBit l.num := by
      intro k hk
      rw [bit_set, hnone k] at hk
      by_contra hne
      rw [if_neg hne] at hk
      cases hk
    rw [haccept]
    refine ⟨iff_of_true ?_ ⟨lineBit l.num, ?_⟩, fun i k hi hk => ?_⟩
    · exact (bit_set _ _ _).trans (if_pos rfl)
    · exact (bit_set _ _ _).trans (if_pos rfl)
    · rw [hbit i hi, hbit k hk]
  | false =>
    have haccept : controllers.accept r l
        = { r with master := r.master ||| bitMask (lineBit l.num) } :=
      if_neg (by rw [hl]; exact Bool.false_ne_true)
    rw [haccept]
    refine ⟨?_, h.single⟩
    rw [bit_set, if_neg (lineBit_ne_cascade hl).symm]
    exact h.cascade

/-- The command that ends the interrupt of a line. -/
theorem eoi_byte (i : Fin 8) :
    (0x60 ||| UInt8.ofNat i.val) &&& 0xF8 = 0x60
      ∧ lineBit (0x60 ||| UInt8.ofNat i.val : UInt8).toNat = i := by
  revert i
  decide

/-- **`send_eoi` of a line of the second controller** clears its bit there
and bit 2 of the first. -/
theorem ack_slave (r : ServiceRegs) (h : l.onSlave = true) :
    controllers.ack r l
      = ⟨r.master &&& ~~~bitMask irq2, r.slave &&& ~~~bitMask (lineBit l.num)⟩ := by
  have hge : 8 ≤ l.num.val := of_decide_eq_true h
  have hline : lineBit l.num = ⟨l.num.val - 8, by omega⟩ := by
    refine Fin.ext ?_
    show l.num.val % 8 = l.num.val - 8
    omega
  obtain ⟨hcmd, hbit⟩ := eoi_byte ⟨l.num.val - 8, by omega⟩
  have hout : r.outb (0x60 ||| UInt8.ofNat (l.num.val - 8)) 0xA0
      = { r with slave := r.slave &&& ~~~bitMask (lineBit l.num) } := by
    rw [ServiceRegs.outb, if_pos hcmd, hbit, hline]
    rfl
  show r.sendEoi l.num.val = _
  rw [ServiceRegs.sendEoi, if_pos hge, hout]
  rfl

/-- **`send_eoi` of a line of the first controller** clears its bit. -/
theorem ack_master (r : ServiceRegs) (h : l.onSlave = false) :
    controllers.ack r l = { r with master := r.master &&& ~~~bitMask (lineBit l.num) } := by
  have hlt : ¬ 8 ≤ l.num.val := of_decide_eq_false h
  obtain ⟨hcmd, hbit⟩ := eoi_byte (lineBit l.num)
  rw [lineBit_val h] at hcmd hbit
  show r.sendEoi l.num.val = _
  rw [ServiceRegs.sendEoi, if_neg hlt, ServiceRegs.outb, if_pos hcmd, hbit]
  rfl

/-- **After `send_eoi` everything but the line** is in service as before. -/
theorem serves_ack (r : ServiceRegs) (l j : Line) :
    controllers.serves (controllers.ack r l) j = true
      ↔ j ≠ l ∧ controllers.serves r j = true := by
  have hclear : ∀ (m : UInt8) (hside : j.onSlave = l.onSlave),
      bit (m &&& ~~~bitMask (lineBit l.num)) (lineBit j.num) = true
        ↔ j ≠ l ∧ bit m (lineBit j.num) = true := by
    intro m hside
    rw [bit_clear, if_congr (lineBit_inj hside) rfl rfl]
    by_cases heq : j = l
    · rw [if_pos heq]
      exact iff_of_false Bool.false_ne_true (fun hne => hne.1 heq)
    · rw [if_neg heq]
      exact (and_iff_right heq).symm
  cases hl : l.onSlave with
  | true =>
    rw [ack_slave r hl]
    cases hj : j.onSlave with
    | true =>
      rw [serves_slave _ hj, serves_slave r hj]
      exact hclear r.slave (hj.trans hl.symm)
    | false =>
      rw [serves_master _ hj, serves_master r hj, bit_clear, if_neg (lineBit_ne_cascade hj)]
      refine (and_iff_right (fun heq => ?_)).symm
      rw [heq, hl] at hj
      cases hj
  | false =>
    rw [ack_master r hl]
    cases hj : j.onSlave with
    | true =>
      rw [serves_slave _ hj, serves_slave r hj]
      refine (and_iff_right (fun heq => ?_)).symm
      rw [heq, hl] at hj
      cases hj
    | false =>
      rw [serves_master _ hj, serves_master r hj]
      exact hclear r.master (hj.trans hl.symm)

/-- **`send_eoi` keeps the registers consistent**, for a line in service or
with none in service. -/
theorem consistent_ack (h : r.Consistent)
    (hserves : controllers.serves r l = true ∨ ∀ j, controllers.serves r j = false) :
    (controllers.ack r l).Consistent := by
  cases hl : l.onSlave with
  | true =>
    rw [ack_slave r hl]
    have hnone : ∀ k, bit (r.slave &&& ~~~bitMask (lineBit l.num)) k = false := by
      intro k
      rw [bit_clear]
      by_cases hk : k = lineBit l.num
      · rw [if_pos hk]
      · rw [if_neg hk, ← Bool.not_eq_true]
        intro hbit
        obtain hin | hquiet := hserves
        · rw [serves_slave r hl] at hin
          exact hk (h.single _ _ hbit hin)
        · obtain ⟨hside, hline⟩ := slaveLine_spec k
          have hfalse := hquiet (slaveLine k)
          rw [serves_slave r hside, hline, hbit] at hfalse
          cases hfalse
    refine ⟨iff_of_false ?_ ?_, fun i k hi _ => ?_⟩
    · rw [bit_clear, if_pos rfl]
      exact Bool.false_ne_true
    · rintro ⟨k, hk⟩
      rw [hnone k] at hk
      cases hk
    · rw [hnone i] at hi
      cases hi
  | false =>
    rw [ack_master r hl]
    refine ⟨?_, h.single⟩
    rw [bit_clear, if_neg (lineBit_ne_cascade hl).symm]
    exact h.cascade

end Laws

/-- **The two controllers are a lawful priority controller.** -/
theorem lawful_controllers : controllers.Lawful ServiceRegs.Consistent where
  accepts_iff := fun h l => accepts_iff h l
  serves_accept := fun _ _ _ j => serves_accept _ _ j
  serves_ack := fun _ _ _ j => serves_ack _ _ j
  ok_accept := fun h _ haccepts => consistent_accept h haccepts
  ok_ack := fun h _ hserves => consistent_ack h hserves

/-! ## The booted kernel -/

/-- **The masks that `entry` leaves**: `i8259_init`, and `enable_irq` from
`rtc_init`, `init_pit` and `kbd_init`. -/
def bootMasks (p : Pic) : Pic := ((p.i8259Init.enableIrq 8).enableIrq 0).enableIrq 1

/-- **What the handlers do with their devices** and with what they share with
the rest of the kernel: `pit_handler` before its `cli`, and each between `cli`
and `sti`. What `kbd_intr_handler` does depends on what it finds. -/
structure Works (κ α : Type*) where
  pitOpening : List α
  pit : List α
  kbd : κ → List α
  rtc : List α

section Handlers

variable {κ α σ : Type*} (effect : σ → α → σ) (w : Works κ α)

/-- **A handler between `cli` and `sti`**: `pit_handler` acknowledges its line
first, `kbd_intr_handler` and `rtc_handler` theirs last. -/
def handlerBody (l : Line) (k : κ) : List (Act Line α) :=
  if l = pitLine then .ack l :: w.pit.map .work
  else if l = kbdLine then (w.kbd k).map .work ++ [.ack l]
  else if l = rtcLine then w.rtc.map .work ++ [.ack l]
  else []

/-- **The handler of a line**, from its first instruction on. -/
def irqHandler (l : Line) (k : κ) : Routine Line α :=
  ⟨if l = pitLine then w.pitOpening else [], handlerBody w l k⟩

/-- A step of the processor with the three handlers. -/
def interruptStep (p : Pic) :
    State Line α ServiceRegs σ → Move Line κ α → Option (State Line α ServiceRegs σ) :=
  step controllers effect (bootMasks p).deliverable (irqHandler w)

/-- The processor after the boot: interrupts on, and nothing in service. -/
def quietStart (pending : Line → Bool) (shared : σ) : State Line α ServiceRegs σ :=
  ⟨true, [], .after, [], ⟨0, 0⟩, pending, shared⟩

/-- What the handler of a line does besides its acknowledgement. -/
def Works.on (w : Works κ α) (l : Line) (k : κ) : List α :=
  if l = pitLine then w.pit else if l = kbdLine then w.kbd k else if l = rtcLine then w.rtc else []

/-- Work acknowledges nothing. -/
theorem acks_work (as : List α) : acks (as.map .work : List (Act Line α)) = [] := by
  rw [acks, List.filterMap_map]
  exact List.filterMap_eq_nil_iff.mpr (fun _ _ => rfl)

theorem works_handlerBody (w : Works κ α) (l : Line) (k : κ) :
    works (handlerBody w l k) = w.on l k := by
  have hwork : ∀ as : List α, works (as.map .work : List (Act Line α)) = as := by
    intro as
    rw [works, List.filterMap_map]
    exact List.filterMap_some
  have hlast : ∀ as : List α, works (as.map .work ++ [.ack l]) = as := by
    intro as
    have h := hwork as
    rw [works] at h ⊢
    rw [List.filterMap_append, h]
    exact List.append_nil as
  unfold handlerBody Works.on
  split
  · exact hwork w.pit
  · split
    · exact hlast (w.kbd k)
    · split
      · exact hlast w.rtc
      · rfl

end Handlers

/-- **The lines that are delivered** are those of the three devices. -/
theorem bootMasks_deliverable (p : Pic) (l : Line) :
    (bootMasks p).deliverable l = true ↔ l = pitLine ∨ l = kbdLine ∨ l = rtcLine := by
  have hmaster : (bootMasks p).masterMask = 0xF8 := by
    show 0xFF &&& ~~~bitMask irq2 &&& ~~~bitMask (lineBit 0) &&& ~~~bitMask (lineBit 1) = _
    decide
  have hslave : (bootMasks p).slaveMask = 0xFE := by
    show 0xFF &&& ~~~bitMask (lineBit 8) = _
    decide
  have hall : ∀ n : Fin 16, n ≠ 2 →
      ((if (8 ≤ n.val : Bool) then
          !bit 0xFE (lineBit n) && !bit 0xF8 irq2 else !bit 0xF8 (lineBit n)) = true
        ↔ n.val = 0 ∨ n.val = 1 ∨ n.val = 8) := by decide
  rw [deliverable, hmaster, hslave, pitLine, kbdLine, rtcLine, pit_num.eq_line_iff,
    kbd_num.eq_line_iff, rtc_num.eq_line_iff]
  exact hall l.num l.ne_cascade

theorem bootMasks_handles {κ α : Type*} (w : Works κ α) (p : Pic) :
    Handles (bootMasks p).deliverable (irqHandler w) := by
  have hlast : ∀ (as : List α) (l : Line), acks (as.map .work ++ [.ack l]) = [l] := by
    intro as l
    have hwork := acks_work as
    rw [acks] at hwork ⊢
    rw [List.filterMap_append, hwork]
    rfl
  intro l k hl
  show acks (handlerBody w l k) = [l]
  rw [bootMasks_deliverable] at hl
  obtain rfl | rfl | rfl := hl
  · rw [handlerBody, if_pos rfl]
    exact congrArg (pitLine :: ·) (acks_work w.pit)
  · rw [handlerBody, if_neg (by decide), if_pos rfl]
    exact hlast (w.kbd k) kbdLine
  · rw [handlerBody, if_neg (by decide), if_neg (by decide), if_pos rfl]
    exact hlast w.rtc rtcLine

/-- The ranks of the three devices. -/
theorem rank_lt_three {p : Pic} {l : Line} (h : (bootMasks p).deliverable l = true) :
    controllers.rank l < 3 := by
  obtain rfl | rfl | rfl := (bootMasks_deliverable p l).mp h
  · exact (by decide : controllers.rank pitLine < 3)
  · exact (by decide : controllers.rank kbdLine < 3)
  · exact (by decide : controllers.rank rtcLine < 3)

/-- A byte without a bit is zero. -/
theorem eq_zero_of_bits {m : UInt8} (h : ∀ j, bit m j = false) : m = 0 := by
  rw [← UInt8.toNat_inj]
  refine Nat.eq_of_testBit_eq (fun i => ?_)
  rw [UInt8.toNat_zero, Nat.zero_testBit]
  by_cases hi : i < 8
  · exact h ⟨i, hi⟩
  · exact Nat.testBit_lt_two_pow (Nat.lt_of_lt_of_le m.toNat_lt
      (Nat.pow_le_pow_right Nat.two_pos (Nat.le_of_not_lt hi)))

/-- Consistent registers with no line in service are zero. -/
theorem ServiceRegs.Consistent.eq_zero {r : ServiceRegs} (h : r.Consistent)
    (hquiet : ∀ l, controllers.serves r l = false) : r = ⟨0, 0⟩ := by
  have hmaster : r.master = 0 := by
    refine eq_zero_of_bits (fun k => ?_)
    rw [← Bool.not_eq_true]
    intro hk
    obtain ⟨l, hl, -⟩ := exists_serves h hk
    rw [hquiet l] at hl
    cases hl
  have hslave : r.slave = 0 := by
    refine eq_zero_of_bits (fun k => ?_)
    obtain ⟨hside, hbit⟩ := slaveLine_spec k
    rw [← hbit, ← serves_slave r hside]
    exact hquiet _
  cases r
  rw [mk.injEq]
  exact ⟨hmaster, hslave⟩

section Runs

variable {κ α σ : Type*} {effect : σ → α → σ} {w : Works κ α} {p : Pic} {pending : Line → Bool}
  {x : σ} {es : List (Move Line κ α)} {s s' : State Line α ServiceRegs σ}

/-- The registers at the start. -/
theorem quiet_registers :
    (⟨0, 0⟩ : ServiceRegs).Consistent ∧ ∀ l, controllers.serves ⟨0, 0⟩ l = false := by
  have hzero : ∀ j : Fin 8, bit 0 j = false := by decide
  refine ⟨⟨iff_of_false ?_ ?_, fun i k hi _ => ?_⟩, fun l => ?_⟩
  · rw [hzero irq2]
    exact Bool.false_ne_true
  · rintro ⟨j, hj⟩
    rw [hzero j] at hj
    cases hj
  · rw [hzero i] at hi
    cases hi
  · cases hl : l.onSlave with
    | true => exact (serves_slave _ hl).trans (hzero _)
    | false => exact (serves_master _ hl).trans (hzero _)

/-- **The invariant holds in every state of every run.** -/
theorem inv_interrupts (hrun : run (interruptStep effect w p) (quietStart pending x) es = some s) :
    Inv controllers ServiceRegs.Consistent s :=
  (inv_start quiet_registers.1 quiet_registers.2 pending x).run lawful_controllers
    (bootMasks_handles w p) hrun

/-- **What the handlers share**: a property that is stable under their work, and
under what the program begins, is kept in every run. -/
theorem kept_interrupts {A : List α → Prop} {O : α → Prop} {C : List α → Prop}
    {J : List α → σ → Prop}
    (hJ : Stable effect (fun b : List (Act Line α) => A (works b)) O C J)
    (hkept : Kept effect (fun b : List (Act Line α) => A (works b)) O J s)
    (hinv : Inv controllers ServiceRegs.Consistent s)
    (hopening : ∀ a ∈ w.pitOpening, O a) (hwork : ∀ l k, .deliver l k ∈ es → A (w.on l k))
    (hstart : ∀ b, .start b ∈ es → A (works b)) (hcall : ∀ as, .call as ∈ es → C as)
    (hrun : run (interruptStep effect w p) s es = some s') :
    Kept effect (fun b : List (Act Line α) => A (works b)) O J s' := by
  refine hkept.run hJ hinv lawful_controllers (bootMasks_handles w p) (fun l k hlk => ⟨?_, ?_⟩)
    hstart hcall hrun
  · show A (works (handlerBody w l k))
    rw [works_handlerBody]
    exact hwork l k hlk
  · intro a ha
    change a ∈ (if l = pitLine then w.pitOpening else []) at ha
    split at ha
    · exact hopening a ha
    · exact absurd ha List.not_mem_nil

/-- **Sections with interrupts masked exclude each other**: along every run
the handlers that wait, and the program under them, are before their `cli`
or past their `sti`, the interrupt flag says whether the running activity
is, and nothing is delivered while it is not. -/
theorem sections_exclusive
    (hrun : run (interruptStep effect w p) (quietStart pending x) es = some s) :
    (∀ f ∈ s.frames.tail, f.progress.isOpen = true)
      ∧ (s.frames ≠ [] → s.base.isOpen = true)
      ∧ s.enabled = s.current.isOpen
      ∧ (s.current.isOpen = false → ∀ l k, interruptStep effect w p s (.deliver l k) = none) := by
  obtain ⟨hwaiting, hbase, henabled⟩ := (inv_interrupts hrun).exclusive
  refine ⟨hwaiting, hbase, henabled, fun hinside l k => if_neg ?_⟩
  rw [henabled, hinside]
  exact Bool.false_ne_true

/-- A key, and a tick of the scheduler's clock before the first instruction
of the keyboard handler. -/
def keyThenTick : List (Move Line Unit Unit) :=
  [.raise kbdLine, .deliver kbdLine (), .raise pitLine, .deliver pitLine (), .advance, .advance]

/-- Nothing is shared, and each handler does one thing. -/
def bareStep : State Line Unit ServiceRegs Unit → Move Line Unit Unit
    → Option (State Line Unit ServiceRegs Unit) :=
  interruptStep (fun _ _ => ()) ⟨[()], [()], fun _ => [()], [()]⟩ ⟨0, 0, []⟩

/-- The tick has masked interrupts, and the keyboard handler waits. -/
theorem sections_exclusive_nested :
    ∃ s, run bareStep (quietStart (fun _ => false) ()) keyThenTick = some s
      ∧ s.frames.length = 2 ∧ s.current.isOpen = false
      ∧ (∀ f ∈ s.frames.tail, f.progress.isOpen = true)
      ∧ ∀ l k, bareStep s (.deliver l k) = none := by
  have hrun : ∃ s, run bareStep (quietStart (fun _ => false) ()) keyThenTick
      = some s ∧ s.frames.length = 2 ∧ s.current.isOpen = false := ⟨_, rfl, rfl, rfl⟩
  obtain ⟨s, hrun, hlength, hinside⟩ := hrun
  obtain ⟨hwaiting, -, -, hnone⟩ := sections_exclusive hrun
  exact ⟨s, hrun, hlength, hinside, hwaiting, hnone hinside⟩

/-- **The controllers and the handlers agree** along every run: the lines in
service are those whose handlers on the stack have not come to `send_eoi`,
each line after all that are above it, at most three of them; and with no
handler on the stack both registers are zero. -/
theorem service_exact (hrun : run (interruptStep effect w p) (quietStart pending x) es = some s) :
    (∀ l, controllers.serves s.ctrl l = true ↔ l ∈ s.owed)
      ∧ s.owed.Pairwise (fun l m => controllers.rank l < controllers.rank m)
      ∧ s.owed.length ≤ 3
      ∧ (s.frames = [] → s.ctrl = ⟨0, 0⟩) := by
  have hinv := inv_interrupts hrun
  have hlines := unmasked_run (s := quietStart pending x) nofun hrun
  refine ⟨hinv.serves, hinv.ranked, ?_, fun hframes => hinv.ok.eq_zero (hinv.quiet hframes)⟩
  exact (hinv.owed_bounded (fun l hl => rank_lt_three (hlines l (hinv.mem_lines hl)))).2

/-- Both lines are in service, the tick before the key. -/
theorem service_exact_nested :
    ∃ s, run bareStep (quietStart (fun _ => false) ()) keyThenTick = some s
      ∧ s.ctrl = ⟨3, 0⟩
      ∧ (∀ l, controllers.serves s.ctrl l = true ↔ l ∈ s.owed) ∧ s.owed.length ≤ 3 := by
  have hrun : ∃ s, run bareStep (quietStart (fun _ => false) ()) keyThenTick
      = some s ∧ s.ctrl = ⟨3, 0⟩ := ⟨_, rfl, rfl⟩
  obtain ⟨s, hrun, hctrl⟩ := hrun
  obtain ⟨hserves, -, hlength, -⟩ := service_exact hrun
  exact ⟨s, hrun, hctrl, hserves, hlength⟩

/-- **No device is shut out** along any run: the handlers on the stack, left
alone, return, with what is pending still pending; nothing is then in
service, and every device that is pending is delivered unless a system call
has interrupts masked. -/
theorem no_device_shut_out
    (hrun : run (interruptStep effect w p) (quietStart pending x) es = some s) :
    ∃ n s', run (interruptStep effect w p) s (List.replicate n .advance) = some s'
      ∧ s'.frames = [] ∧ s'.base = s.base ∧ s'.pending = s.pending ∧ s'.ctrl = ⟨0, 0⟩
      ∧ (s.base.isOpen = true → ∀ l, s.pending l = true → l = pitLine ∨ l = kbdLine ∨ l = rtcLine →
        ∀ k, ∃ s'', interruptStep effect w p s' (.deliver l k) = some s'') := by
  obtain ⟨n, s', hdrain, hframes, hbase, hpending⟩ :=
    drain controllers effect (bootMasks p).deliverable (irqHandler w) s
  have hinv : Inv controllers ServiceRegs.Consistent s' :=
    (inv_interrupts hrun).run lawful_controllers (bootMasks_handles w p) hdrain
  refine ⟨n, s', hdrain, hframes, hbase, hpending, hinv.ok.eq_zero (hinv.quiet hframes), ?_⟩
  intro hopen l hl hdevice k
  have henabled : s'.enabled = true := by
    rw [hinv.enabled, State.current, hframes]
    show s'.base.isOpen = true
    rw [hbase]
    exact hopen
  exact hinv.deliverable lawful_controllers hframes henabled (hpending ▸ hl)
    ((bootMasks_deliverable p l).mpr hdevice) k

/-- From two handlers on the stack to none, and then the clock, which raised its
line meanwhile, is delivered. -/
theorem no_device_shut_out_nested :
    ∃ s, run bareStep (quietStart (fun _ => false) ()) (keyThenTick ++ [.raise rtcLine]) = some s
      ∧ ∃ n s' s'', run bareStep s (List.replicate n .advance) = some s'
        ∧ s'.frames = [] ∧ s'.ctrl = ⟨0, 0⟩
        ∧ bareStep s' (.deliver rtcLine ()) = some s'' := by
  have hrun : ∃ s, run bareStep (quietStart (fun _ => false) ())
      (keyThenTick ++ [.raise rtcLine]) = some s
      ∧ s.base.isOpen = true ∧ s.pending rtcLine = true := ⟨_, rfl, rfl, rfl⟩
  obtain ⟨s, hrun, hopen, hpending⟩ := hrun
  obtain ⟨n, s', hdrain, hframes, -, -, hctrl, hdeliver⟩ := no_device_shut_out hrun
  obtain ⟨s'', hstep⟩ := hdeliver hopen rtcLine hpending (Or.inr (Or.inr rfl)) ()
  exact ⟨s, hrun, n, s', s'', hdrain, hframes, hctrl, hstep⟩

end Runs

end KernelDesign
