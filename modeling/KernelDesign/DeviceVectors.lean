import KernelDesign.IdtGates
import KernelDesign.InterruptMasks
import Mathlib

/-!
# From a line to its handler

An interrupt on a line goes through a controller, which lets it through or
not and gives the processor a vector, and through the table, where the
vector has a gate. Both were set up by the kernel: the controllers by four
initialisation words and by the masks written to their data ports since, the
table by `init_idt` and `insert_idt`. A driver installs its handler before
it enables its line, and the timer, whose gate is there from the start, only
enables its line.

The controllers are read off the bytes that were written to them. The first
initialisation word clears the mask of a controller, whatever was written
before it, so `chips_eq` has the masks that the kernel holds in the
controllers only after calls that write them. `device_vectors` is that from
then on no line gets through for which there is no handler.
-/

namespace KernelDesign

open Pic Words

/-! ## The controllers as they were programmed -/

/-- **A controller**: how many initialisation words it has had since the
first, counting that one, and zero when it has them all; the number it adds
to a line to make a vector; and its mask. -/
structure Chip where
  phase : ℕ
  base : UInt8
  mask : UInt8
  deriving DecidableEq

namespace Chip

/-- A byte at the command port: bit 4 marks the first initialisation word,
which clears the mask. -/
def command (c : Chip) (data : UInt8) : Chip :=
  if data &&& 0x10 ≠ 0 then { c with phase := 1, mask := 0 } else c

/-- A byte at the data port: the initialisation word that comes next, the
second being the base, or the mask. -/
def data (c : Chip) (data : UInt8) : Chip :=
  match c.phase with
  | 0 => { c with mask := data }
  | 1 => { c with phase := 2, base := data &&& 0xF8 }
  | 2 => { c with phase := 3 }
  | _ => { c with phase := 0 }

end Chip

/-- The two controllers. -/
structure Chips where
  master : Chip
  slave : Chip
  deriving DecidableEq

/-- A byte written to a port. -/
def Chips.outb (c : Chips) (o : ℕ × UInt8) : Chips :=
  if o.1 = 0x20 then { c with master := c.master.command o.2 }
  else if o.1 = 0x21 then { c with master := c.master.data o.2 }
  else if o.1 = 0xA0 then { c with slave := c.slave.command o.2 }
  else if o.1 = 0xA1 then { c with slave := c.slave.data o.2 }
  else c

/-- **The controllers after the bytes that were written**, the last one
first. -/
def chipsAfter (c : Chips) (outs : List (ℕ × UInt8)) : Chips :=
  outs.foldr (fun o c => c.outb o) c

theorem chipsAfter_cons (c : Chips) (o : ℕ × UInt8) (outs : List (ℕ × UInt8)) :
    chipsAfter c (o :: outs) = (chipsAfter c outs).outb o := rfl

/-- **The line gets through the controllers.** -/
def Chips.letsThrough (c : Chips) (l : Line) : Bool :=
  if l.onSlave then !bit c.slave.mask (lineBit l.num) && !bit c.master.mask irq2
  else !bit c.master.mask (lineBit l.num)

/-- **The vector of a line.** -/
def Chips.vector (c : Chips) (l : Line) : ℕ :=
  if l.onSlave then c.slave.base.toNat + (lineBit l.num).val
  else c.master.base.toNat + (lineBit l.num).val

/-- The controllers that have their bases and these masks. -/
def programmed (master slave : UInt8) : Chips := ⟨⟨0, 0x20, master⟩, ⟨0, 0x28, slave⟩⟩

/-- **`i8259_init` leaves both masks clear**, whatever the controllers
were. -/
theorem chips_i8259Init (p : Pic) (c : Chips) :
    chipsAfter c p.i8259Init.outs = programmed 0 0 := rfl

/-- What a call writes: its masks, to the ports of its controllers. -/
theorem call_outs (p : Pic) (c : IrqCall) :
    (p.call c).outs
      = if c.line.onSlave then
          (0xA1, (p.call c).slaveMask) :: (0x21, (p.call c).masterMask) :: p.outs
        else (0x21, (p.call c).masterMask) :: p.outs := by
  cases hside : c.line.onSlave with
  | true =>
    have hge : 8 ≤ c.line.num.val := of_decide_eq_true hside
    cases henable : c.enable with
    | false =>
      simp only [Pic.call, henable, disableIrq, if_pos hge, Bool.false_eq_true, if_false]
      rfl
    | true =>
      simp only [Pic.call, henable, enableIrq, if_pos hge, if_true]
      rfl
  | false =>
    have hlt : ¬ 8 ≤ c.line.num.val := of_decide_eq_false hside
    cases henable : c.enable with
    | false =>
      simp only [Pic.call, henable, disableIrq, if_neg hlt, Bool.false_eq_true, if_false]
      rfl
    | true =>
      simp only [Pic.call, henable, enableIrq, if_neg hlt, if_true, Bool.false_eq_true, if_false]
      rfl

/-- Whether some call was for a line of the second controller. -/
def calledSlave (calls : List IrqCall) : Bool := calls.any (fun c => c.line.onSlave)

/-- **The masks in the controllers** are those of the kernel from the first
call that writes them on, and clear before. -/
theorem chips_eq (p : Pic) (c : Chips) (calls : List IrqCall) :
    chipsAfter c (calls.foldl Pic.call p.i8259Init).outs
      = programmed
          (if calls = [] then 0 else (calls.foldl Pic.call p.i8259Init).masterMask)
          (if calledSlave calls then (calls.foldl Pic.call p.i8259Init).slaveMask else 0) := by
  induction calls using List.reverseRecOn with
  | nil => exact chips_i8259Init p c
  | append_singleton calls d ih =>
    rw [List.foldl_append, List.foldl_cons, List.foldl_nil, call_outs,
      if_neg (List.append_ne_nil_of_right_ne_nil calls (List.cons_ne_nil d [])), calledSlave,
      List.any_append, List.any_cons, List.any_nil, Bool.or_false]
    generalize calls.foldl Pic.call p.i8259Init = q at ih ⊢
    cases hside : d.line.onSlave with
    | true =>
      rw [if_pos rfl, Bool.or_true, if_pos rfl]
      rw [chipsAfter_cons, chipsAfter_cons, ih]
      rfl
    | false =>
      rw [if_neg Bool.false_ne_true, Bool.or_false, (q.call_master hside).2.1]
      rw [chipsAfter_cons, ih]
      rfl

/-! ## Drivers -/

/-- **What sets up a device**: `init_pit`, or a driver with a handler for a
line, `rtc_init` and `kbd_init`. -/
inductive DriverInit
  | timer
  | device (handler : UInt32) (line : Line)

/-- The tables that the set-up of a device changes. -/
structure InterruptTables where
  idt : Idt
  pic : Pic

/-- **The set-up of a device.** -/
def InterruptTables.init (t : InterruptTables) : DriverInit → InterruptTables
  | .timer => { t with pic := t.pic.enableIrq 0 }
  | .device handler line =>
    { t with idt := (insertIdt t.idt handler line.num).2, pic := t.pic.enableIrq line.num }

/-- The line of a device. -/
def DriverInit.line : DriverInit → Line
  | .timer => pitLine
  | .device _ line => line

/-- The handler that a device has installed for a line. -/
def DriverInit.handlerFor (l : Line) : DriverInit → Option UInt32
  | .timer => none
  | .device handler line => if line = l ∧ handler ≠ 0 then some handler else none

/-- **The handler of a line**: the last one installed for it, or what
`init_idt` left at its vector. -/
def lineHandler (addr : Handler → UInt32) (ds : List DriverInit) (l : Line) : UInt32 :=
  ((ds.filterMap (DriverInit.handlerFor l)).getLast?).getD (addr (builtin (32 + l.num)))

namespace DriverInit

/-- The call of `enable_irq` that a set-up makes. -/
def irqCall (d : DriverInit) : IrqCall := ⟨d.line, true⟩

/-- The call of `insert_idt` that a set-up makes. -/
def insertion : DriverInit → Option Insertion
  | .timer => none
  | .device handler line => some ⟨handler, ⟨line.num, by omega⟩⟩

end DriverInit

/-- **Set-ups are their calls**, those for the table and those for the
masks. -/
theorem foldl_init (ds : List DriverInit) (t : InterruptTables) :
    ds.foldl InterruptTables.init t
      = ⟨(ds.filterMap DriverInit.insertion).foldl Idt.insert t.idt,
          (ds.map DriverInit.irqCall).foldl Pic.call t.pic⟩ := by
  induction ds generalizing t with
  | nil => rfl
  | cons d ds ih =>
    rw [List.foldl_cons, ih]
    cases d with
    | timer => rfl
    | device handler line => rfl

/-- **The last of the calls that a list of set-ups makes** is one that
enables, if there is one. -/
theorem lastCall_setUps (P : IrqCall → Bool) (ds : List DriverInit) :
    lastCall P (ds.map DriverInit.irqCall)
      = if ds.any (fun d => P d.irqCall) then some true else none := by
  induction ds using List.reverseRecOn with
  | nil => rfl
  | append_singleton ds d ih =>
    rw [List.map_append, List.map_cons, List.map_nil, lastCall_concat, ih, List.any_append,
      List.any_cons, List.any_nil, Bool.or_false]
    cases hd : P d.irqCall with
    | true => rw [if_pos rfl, Bool.or_true, if_pos rfl]; rfl
    | false => rw [if_neg Bool.false_ne_true, Bool.or_false]

/-- The handlers installed at the vector of a line. -/
theorem inserted_setUps (ds : List DriverInit) (l : Line) :
    inserted (ds.filterMap DriverInit.insertion) (32 + l.num)
      = (ds.filterMap (DriverInit.handlerFor l)).getLast? := by
  rw [inserted, ← List.getLast?_map]
  congr 1
  induction ds with
  | nil => rfl
  | cons d ds ih =>
    cases d with
    | timer => exact ih
    | device handler line =>
      have hline : 32 + l.num.val = 32 + line.num.val ↔ line = l := by
        constructor
        · intro heq
          have hnum : line.num = l.num := Fin.ext (Nat.add_left_cancel heq).symm
          cases line
          cases l
          cases hnum
          rfl
        · rintro rfl
          rfl
      rw [List.filterMap_cons, List.filterMap_cons]
      dsimp only [DriverInit.insertion, DriverInit.handlerFor]
      rw [List.filter_cons]
      by_cases hset : line = l ∧ handler ≠ 0
      · rw [if_pos hset, if_pos (decide_eq_true ⟨hline.mpr hset.1, hset.2⟩), List.map_cons, ih]
      · rw [if_neg hset, if_neg, ih]
        intro hdec
        have hboth := of_decide_eq_true hdec
        exact hset ⟨hline.mp hboth.1, hboth.2⟩

/-- The tables before the first set-up: `init_idt` and `i8259_init`. -/
def startTables (addr : Handler → UInt32) (idt : Idt) (p : Pic) : InterruptTables :=
  ⟨initIdt addr idt, p.i8259Init⟩

section SetUps

variable (addr : Handler → UInt32) (idt : Idt) (p : Pic) (c : Chips) {ds : List DriverInit}

/-- **The controllers after some set-ups**, one of them for the second
controller: both hold the masks of the kernel. -/
theorem chips_setUps (hslave : ∃ d ∈ ds, d.line.onSlave = true) :
    chipsAfter c (ds.foldl InterruptTables.init (startTables addr idt p)).pic.outs
      = programmed ((ds.map DriverInit.irqCall).foldl Pic.call p.i8259Init).masterMask
          ((ds.map DriverInit.irqCall).foldl Pic.call p.i8259Init).slaveMask := by
  obtain ⟨d, hd, hside⟩ := hslave
  have hne : ds.map DriverInit.irqCall ≠ [] :=
    List.ne_nil_of_mem (List.mem_map_of_mem hd)
  have hcalled : calledSlave (ds.map DriverInit.irqCall) = true :=
    List.any_eq_true.mpr ⟨d.irqCall, List.mem_map_of_mem hd, hside⟩
  rw [foldl_init]
  refine (chips_eq p c (ds.map DriverInit.irqCall)).trans ?_
  rw [if_neg hne, if_pos hcalled]

/-- **The lines that get through** are those of the devices set up. -/
theorem letsThrough_setUps (hslave : ∃ d ∈ ds, d.line.onSlave = true) (l : Line) :
    (chipsAfter c (ds.foldl InterruptTables.init (startTables addr idt p)).pic.outs).letsThrough l
        = true
      ↔ ∃ d ∈ ds, d.line = l := by
  rw [chips_setUps addr idt p c hslave]
  have hsettled : SlaveSettled (ds.map DriverInit.irqCall) := by
    refine Or.inl ((lastCall_setUps _ ds).trans (if_pos ?_))
    exact List.any_eq_true.mpr hslave
  have htracks := (p.records_run (ds.map DriverInit.irqCall)).tracks_iff.mpr hsettled
  have hdeliver : (programmed ((ds.map DriverInit.irqCall).foldl Pic.call p.i8259Init).masterMask
        ((ds.map DriverInit.irqCall).foldl Pic.call p.i8259Init).slaveMask).letsThrough l
      = asked (ds.map DriverInit.irqCall) l := htracks.deliverable l
  rw [hdeliver, asked, lastCall_setUps]
  by_cases hany : ds.any (fun d => decide (d.irqCall.line = l)) = true
  · rw [if_pos hany]
    refine iff_of_true rfl ?_
    obtain ⟨d, hd, hline⟩ := List.any_eq_true.mp hany
    exact ⟨d, hd, of_decide_eq_true hline⟩
  · rw [if_neg hany]
    refine iff_of_false (by decide) ?_
    rintro ⟨d, hd, hline⟩
    exact hany (List.any_eq_true.mpr ⟨d, hd, decide_eq_true hline⟩)

/-- **No line gets through without its handler**: after any set-ups, one of
them for the second controller, the lines that get through the controllers
are those of the devices set up, and the vector of such a line has a gate of
the kernel's segment, closed to programs, that leads to the handler of the
line. -/
theorem device_vectors (hhandlers : ∀ handler l, .device handler l ∈ ds → handler ≠ 0)
    (hslave : ∃ d ∈ ds, d.line.onSlave = true) (l : Line) :
    ((chipsAfter c (ds.foldl InterruptTables.init
          (startTables addr idt p)).pic.outs).letsThrough l = true ↔ ∃ d ∈ ds, d.line = l)
      ∧ ((∃ d ∈ ds, d.line = l) →
        decodeGate ((ds.foldl InterruptTables.init (startTables addr idt p)).idt
            ((chipsAfter c (ds.foldl InterruptTables.init
              (startTables addr idt p)).pic.outs).vector l)).val
          = some ⟨(lineHandler addr ds l).toNat, 0x10, true, 0, true⟩) := by
  refine ⟨letsThrough_setUps addr idt p c hslave l, ?_⟩
  rintro ⟨d, hd, hline⟩
  have hlt := l.num.isLt
  have hvector : (chipsAfter c (ds.foldl InterruptTables.init
      (startTables addr idt p)).pic.outs).vector l = 32 + l.num.val := by
    rw [chips_setUps addr idt p c hslave]
    cases hside : l.onSlave with
    | true =>
      have hge : 8 ≤ l.num.val := of_decide_eq_true hside
      refine (if_pos hside).trans ?_
      show 40 + l.num.val % 8 = 32 + l.num.val
      omega
    | false =>
      have hlow : ¬ 8 ≤ l.num.val := of_decide_eq_false hside
      refine (if_neg (by rw [hside]; exact Bool.false_ne_true)).trans ?_
      show 32 + l.num.val % 8 = 32 + l.num.val
      omega
  rw [hvector, foldl_init]
  obtain ⟨his, hgate⟩ := insert_gate addr idt (ds.filterMap DriverInit.insertion)
    (show 32 + l.num.val < 256 by omega)
  refine (IdtDesc.decodeGate_val his).trans (congrArg some (hgate.trans ?_))
  rw [expectedGate, inserted_setUps]
  -- The timer has the gate of `init_idt`, and every other device one of its own.
  have hpresent : (decide ((32 + l.num.val < 20 ∧ 32 + l.num.val ≠ 15)
        ∨ 32 + l.num.val = 0x80 ∨ 32 + l.num.val = 0x20)
      || ((ds.filterMap (DriverInit.handlerFor l)).getLast?).isSome) = true := by
    rw [Bool.or_eq_true]
    cases d with
    | timer =>
      refine Or.inl (decide_eq_true (Or.inr (Or.inr ?_)))
      rw [← hline]
      rfl
    | device handler line =>
      refine Or.inr ?_
      have hinstalled : handler ∈ ds.filterMap (DriverInit.handlerFor l) :=
        List.mem_filterMap.mpr ⟨_, hd, if_pos ⟨hline, hhandlers handler line hd⟩⟩
      exact List.getLast?_isSome.mpr (List.ne_nil_of_mem hinstalled)
  refine Gate.ext rfl rfl (decide_eq_true (Nat.le_add_right 32 _)) (if_neg ?_) hpresent
  omega

/-- The three devices in the order of `entry`: the clock behind the second
controller, the timer, the keyboard. -/
theorem device_vectors_booted :
    decodeGate (([.device 0x401000 rtcLine, .timer,
          .device 0x402000 kbdLine].foldl InterruptTables.init
            (startTables (fun _ => 0x400100) (fun _ => blankEntry 0) ⟨0, 0, []⟩)).idt
        ((chipsAfter (programmed 0 0) ([.device 0x401000 rtcLine, .timer,
          .device 0x402000 kbdLine].foldl InterruptTables.init
            (startTables (fun _ => 0x400100) (fun _ => blankEntry 0)
              ⟨0, 0, []⟩)).pic.outs).vector kbdLine)).val
      = some ⟨0x402000, 0x10, true, 0, true⟩ := by
  refine (device_vectors (fun _ => 0x400100) (fun _ => blankEntry 0) ⟨0, 0, []⟩
    (programmed 0 0) ?_ ⟨_, List.mem_cons_self, rfl⟩ kbdLine).2
      ⟨.device 0x402000 kbdLine, by simp, rfl⟩
  intro handler l hmem
  simp only [List.mem_cons, DriverInit.device.injEq, reduceCtorEq, List.not_mem_nil, or_false,
    false_or] at hmem
  obtain ⟨rfl, -⟩ | ⟨rfl, -⟩ := hmem
  · decide
  · decide

end SetUps

end KernelDesign
