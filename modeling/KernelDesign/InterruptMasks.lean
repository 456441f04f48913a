import KernelDesign.Library.Words
import Mathlib.Data.Fin.Basic
import Mathlib.Data.List.Induction

/-!
# The masks of the interrupt controllers

`i8259.c`: two controllers of eight lines each, a mask for each, and a set
bit where a line is masked. The second controller is behind line 2 of the
first one, so a line of the second is delivered only if bit 2 of the first
mask is clear as well. `enable_irq` of a line of the second controller
clears that bit and `disable_irq` of one sets it.

What the callers have asked for is a line's most recent call. The masks
agree with it where the last call for a line of the second controller was an
`enable_irq`, and also after a `disable_irq` if no line of the second
controller is left that should be delivered; and the data ports hold the
masks once there was such a call, since `i8259_init` ends with other bytes
there (`tracks_calls_iff`).
-/

namespace KernelDesign

open Words

/-- **The masks, and the bytes written to ports**, the last one first. -/
structure Pic where
  masterMask : UInt8
  slaveMask : UInt8
  outs : List (ℕ × UInt8)

namespace Pic

/-- `outb`. -/
def outb (p : Pic) (data : UInt8) (port : ℕ) : Pic :=
  { p with outs := (port, data) :: p.outs }

/-- **`i8259_init`**. -/
def i8259Init (p : Pic) : Pic :=
  let p := { p with masterMask := 0xFF, slaveMask := 0xFF }
  let p := (p.outb p.masterMask 0x21).outb p.slaveMask 0xA1
  let p := (((p.outb 0x11 0x20).outb 0x20 0x21).outb 0x04 0x21).outb 0x01 0x21
  (((p.outb 0x11 0xA0).outb 0x28 0xA1).outb 0x02 0xA1).outb 0x01 0xA1

/-- The bit of a line in the mask of its controller, `irq_num & 7`. -/
def lineBit (irqNum : ℕ) : Fin 8 := ⟨irqNum % 8, Nat.mod_lt _ (by decide)⟩

/-- `IRQ2`, the line of the first controller that the second one is
behind. -/
def irq2 : Fin 8 := ⟨2, by decide⟩

/-- **`enable_irq`**. -/
def enableIrq (p : Pic) (irqNum : ℕ) : Pic :=
  let mask := ~~~bitMask (lineBit irqNum)
  if 8 ≤ irqNum then
    let p := { p with
      masterMask := p.masterMask &&& ~~~bitMask irq2, slaveMask := p.slaveMask &&& mask }
    (p.outb p.masterMask 0x21).outb p.slaveMask 0xA1
  else
    let p := { p with masterMask := p.masterMask &&& mask }
    p.outb p.masterMask 0x21

/-- **`disable_irq`**. -/
def disableIrq (p : Pic) (irqNum : ℕ) : Pic :=
  let mask := bitMask (lineBit irqNum)
  if 8 ≤ irqNum then
    let p := { p with
      masterMask := p.masterMask ||| bitMask irq2, slaveMask := p.slaveMask ||| mask }
    (p.outb p.masterMask 0x21).outb p.slaveMask 0xA1
  else
    let p := { p with masterMask := p.masterMask ||| mask }
    p.outb p.masterMask 0x21

/-- The last byte written to a port. -/
def lastByte (p : Pic) (port : ℕ) : Option UInt8 :=
  (p.outs.find? (fun o => o.1 == port)).map Prod.snd

end Pic

/-- **A line of a device**: one of sixteen, and not the one that the second
controller is behind. -/
structure Line where
  num : Fin 16
  ne_cascade : num ≠ 2
  deriving DecidableEq

/-- A line of the second controller. -/
def Line.onSlave (l : Line) : Bool := 8 ≤ l.num.val

/-- **A call for a line.** -/
structure IrqCall where
  line : Line
  enable : Bool

/-- What a call does. -/
def Pic.call (p : Pic) (c : IrqCall) : Pic :=
  if c.enable then p.enableIrq c.line.num else p.disableIrq c.line.num

/-- **A line is delivered**: its bit is clear, and for a line of the second
controller bit 2 of the first one's mask. -/
def Pic.deliverable (p : Pic) (l : Line) : Bool :=
  if l.onSlave then !bit p.slaveMask (Pic.lineBit l.num) && !bit p.masterMask Pic.irq2
  else !bit p.masterMask (Pic.lineBit l.num)

/-! ## What was asked -/

/-- The most recent of the calls that `P` picks: whether it was
`enable_irq`. -/
def lastCall (P : IrqCall → Bool) (calls : List IrqCall) : Option Bool :=
  (calls.reverse.find? P).map IrqCall.enable

/-- Whether the most recent call for a line was `enable_irq`. -/
def asked (calls : List IrqCall) (l : Line) : Bool :=
  lastCall (fun c => c.line = l) calls == some true

/-- The most recent call for a line of the second controller. -/
def lastSlave (calls : List IrqCall) : Option Bool :=
  lastCall (fun c => c.line.onSlave) calls

theorem lastCall_concat (P : IrqCall → Bool) (calls : List IrqCall) (c : IrqCall) :
    lastCall P (calls ++ [c]) = if P c then some c.enable else lastCall P calls := by
  rw [lastCall, List.reverse_concat, List.find?_cons]
  cases P c with
  | false => rfl
  | true => rfl

theorem asked_concat (calls : List IrqCall) (c : IrqCall) (l : Line) :
    asked (calls ++ [c]) l = if c.line = l then c.enable else asked calls l := by
  rw [asked, lastCall_concat]
  by_cases h : c.line = l
  · rw [if_pos h, if_pos (decide_eq_true h)]
    cases c.enable with
    | false => rfl
    | true => rfl
  · rw [if_neg h, if_neg (by simpa using h)]
    rfl

theorem lastSlave_concat (calls : List IrqCall) (c : IrqCall) :
    lastSlave (calls ++ [c])
      = if c.line.onSlave then some c.enable else lastSlave calls :=
  lastCall_concat _ calls c

/-- **The masks track what was asked**, and the ports hold the masks. -/
structure Pic.Tracks (p : Pic) (calls : List IrqCall) : Prop where
  deliverable : ∀ l, p.deliverable l = asked calls l
  master : p.lastByte 0x21 = some p.masterMask
  slave : p.lastByte 0xA1 = some p.slaveMask

/-- **The condition**: there was a call for a line of the second controller,
and if the last one was `disable_irq`, no line there was last enabled. -/
def SlaveSettled (calls : List IrqCall) : Prop :=
  lastSlave calls = some true
    ∨ lastSlave calls = some false ∧ ∀ l : Line, l.onSlave = true → asked calls l = false

/-! ## The masks after a run -/

/-- **How the masks stand to the calls**: a bit is clear if its line was
last enabled, and bit 2 of the first mask if the last line of the second
controller was. -/
structure Pic.Records (p : Pic) (calls : List IrqCall) : Prop where
  master : ∀ l : Line, l.onSlave = false →
    bit p.masterMask (lineBit l.num) = !asked calls l
  slave : ∀ l : Line, l.onSlave = true →
    bit p.slaveMask (lineBit l.num) = !asked calls l
  cascade : bit p.masterMask irq2 = (lastSlave calls != some true)
  /-- The ports, once there was a call for the second controller, and the
  last word of the initialisation before. -/
  ports : lastSlave calls ≠ none →
    p.lastByte 0x21 = some p.masterMask ∧ p.lastByte 0xA1 = some p.slaveMask
  initial : lastSlave calls = none → p.slaveMask = 0xFF ∧ p.lastByte 0xA1 = some 1

namespace Pic

theorem records_i8259Init (p : Pic) : p.i8259Init.Records [] := by
  have hall : ∀ i : Fin 8, bit 0xFF i = true := by decide
  exact ⟨fun l _ => hall _, fun l _ => hall _, hall 2, fun h => absurd rfl h,
    fun _ => ⟨rfl, rfl⟩⟩

variable {p : Pic} {calls : List IrqCall}

/-- Lines of one controller with the same bit are the same. -/
theorem lineBit_inj {l l' : Line} (hside : l.onSlave = l'.onSlave) :
    lineBit l.num = lineBit l'.num ↔ l = l' := by
  obtain ⟨⟨n, hn⟩, h⟩ := l
  obtain ⟨⟨n', hn'⟩, h'⟩ := l'
  simp only [Line.onSlave, decide_eq_decide] at hside
  rw [Line.mk.injEq, lineBit, lineBit, Fin.mk.injEq, Fin.mk.injEq]
  show n % 8 = n' % 8 ↔ n = n'
  omega

/-- No line of a device on the first controller has bit 2. -/
theorem lineBit_ne_cascade {l : Line} (h : l.onSlave = false) : lineBit l.num ≠ irq2 := by
  obtain ⟨⟨n, hn⟩, hne⟩ := l
  simp only [Line.onSlave, decide_eq_false_iff_not, not_le] at h
  intro heq
  have hval := congrArg Fin.val heq
  refine hne (Fin.ext ?_)
  show n = 2
  have hmod : n % 8 = 2 := hval
  omega

/-- **A mask after a call for one of its lines** records the call. -/
theorem bit_call {m : UInt8} {c : IrqCall} {l : Line} (hside : c.line.onSlave = l.onSlave)
    (h : bit m (lineBit l.num) = !asked calls l) :
    bit (if c.enable then m &&& ~~~bitMask (lineBit c.line.num)
        else m ||| bitMask (lineBit c.line.num)) (lineBit l.num)
      = !asked (calls ++ [c]) l := by
  have hline : lineBit l.num = lineBit c.line.num ↔ c.line = l :=
    (lineBit_inj hside.symm).trans eq_comm
  rw [asked_concat]
  cases henable : c.enable with
  | false =>
    rw [if_neg Bool.false_ne_true, bit_set, if_congr hline rfl h]
    by_cases heq : c.line = l
    · rw [if_pos heq, if_pos heq]
      rfl
    · rw [if_neg heq, if_neg heq]
  | true =>
    rw [if_pos rfl, bit_clear, if_congr hline rfl h]
    by_cases heq : c.line = l
    · rw [if_pos heq, if_pos heq]
      rfl
    · rw [if_neg heq, if_neg heq]

/-- A call for a line of the other controller asks nothing of a line. -/
theorem asked_other {c : IrqCall} {l : Line} (hside : c.line.onSlave ≠ l.onSlave) :
    asked (calls ++ [c]) l = asked calls l := by
  rw [asked_concat, if_neg (fun h => hside (congrArg Line.onSlave h))]

/-- **A call for a line of the second controller** writes both masks. -/
theorem call_slave (p : Pic) {c : IrqCall} (h : c.line.onSlave = true) :
    (p.call c).masterMask
        = (if c.enable then p.masterMask &&& ~~~bitMask irq2 else p.masterMask ||| bitMask irq2)
      ∧ (p.call c).slaveMask
        = (if c.enable then p.slaveMask &&& ~~~bitMask (lineBit c.line.num)
          else p.slaveMask ||| bitMask (lineBit c.line.num))
      ∧ (p.call c).lastByte 0x21 = some (p.call c).masterMask
      ∧ (p.call c).lastByte 0xA1 = some (p.call c).slaveMask := by
  have hge : 8 ≤ c.line.num.val := of_decide_eq_true h
  cases henable : c.enable with
  | false =>
    simp only [call, henable, disableIrq, if_pos hge, Bool.false_eq_true, if_false]
    exact ⟨rfl, rfl, rfl, rfl⟩
  | true =>
    simp only [call, henable, enableIrq, if_pos hge, if_true]
    exact ⟨rfl, rfl, rfl, rfl⟩

/-- **A call for a line of the first controller** writes its mask alone. -/
theorem call_master (p : Pic) {c : IrqCall} (h : c.line.onSlave = false) :
    (p.call c).masterMask
        = (if c.enable then p.masterMask &&& ~~~bitMask (lineBit c.line.num)
          else p.masterMask ||| bitMask (lineBit c.line.num))
      ∧ (p.call c).slaveMask = p.slaveMask
      ∧ (p.call c).lastByte 0x21 = some (p.call c).masterMask
      ∧ (p.call c).lastByte 0xA1 = p.lastByte 0xA1 := by
  have hlt : ¬ 8 ≤ c.line.num.val := of_decide_eq_false h
  cases henable : c.enable with
  | false =>
    simp only [call, henable, disableIrq, if_neg hlt, Bool.false_eq_true, if_false]
    exact ⟨rfl, rfl, rfl, rfl⟩
  | true =>
    simp only [call, henable, enableIrq, if_neg hlt, if_true]
    exact ⟨rfl, rfl, rfl, rfl⟩

/-- The bit of the second controller after a call for one of its lines. -/
theorem bit_cascade (m : UInt8) (b : Bool) :
    bit (if b then m &&& ~~~bitMask irq2 else m ||| bitMask irq2) irq2 = (some b != some true) := by
  cases b with
  | false => exact bit_set m irq2 irq2
  | true => exact bit_clear m irq2 irq2

/-- **Every call is recorded.** -/
theorem Records.call (h : p.Records calls) (c : IrqCall) :
    (p.call c).Records (calls ++ [c]) := by
  cases hside : c.line.onSlave with
  | true =>
    obtain ⟨hmaster, hslave, h21, hA1⟩ := p.call_slave hside
    have hlast : lastSlave (calls ++ [c]) = some c.enable := by
      rw [lastSlave_concat, if_pos hside]
    refine ⟨fun l hl => ?_, fun l hl => ?_, ?_, fun _ => ⟨h21, hA1⟩, fun hnone => ?_⟩
    · have hother : c.line.onSlave ≠ l.onSlave := by
        rw [hside, hl]
        exact Bool.false_ne_true.symm
      rw [asked_other hother, ← h.master l hl, hmaster]
      cases c.enable with
      | false => exact (bit_set _ _ _).trans (if_neg (lineBit_ne_cascade hl))
      | true => exact (bit_clear _ _ _).trans (if_neg (lineBit_ne_cascade hl))
    · rw [hslave]
      exact bit_call (hside.trans hl.symm) (h.slave l hl)
    · rw [hmaster, hlast]
      exact bit_cascade _ _
    · rw [hlast] at hnone
      cases hnone
  | false =>
    obtain ⟨hmaster, hslave, h21, hA1⟩ := p.call_master hside
    have hlast : lastSlave (calls ++ [c]) = lastSlave calls := by
      rw [lastSlave_concat, if_neg (by rw [hside]; exact Bool.false_ne_true)]
    refine ⟨fun l hl => ?_, fun l hl => ?_, ?_, fun hne => ⟨h21, ?_⟩, fun hnone => ?_⟩
    · rw [hmaster]
      exact bit_call (hside.trans hl.symm) (h.master l hl)
    · have hother : c.line.onSlave ≠ l.onSlave := by
        rw [hside, hl]
        exact Bool.false_ne_true
      rw [asked_other hother, hslave]
      exact h.slave l hl
    · rw [hlast, ← h.cascade, hmaster]
      have hne := (lineBit_ne_cascade hside).symm
      cases c.enable with
      | false => exact (bit_set _ _ _).trans (if_neg hne)
      | true => exact (bit_clear _ _ _).trans (if_neg hne)
    · rw [hA1, hslave]
      exact (h.ports (hlast ▸ hne)).2
    · rw [hA1, hslave]
      exact h.initial (hlast ▸ hnone)

/-- **The masks after every sequence of calls.** -/
theorem records_run (p : Pic) (calls : List IrqCall) :
    (calls.foldl Pic.call p.i8259Init).Records calls := by
  induction calls using List.reverseRecOn with
  | nil => exact p.records_i8259Init
  | append_singleton calls c ih =>
    rw [List.foldl_append]
    exact ih.call c

/-- Masks that record the calls track them exactly under the condition. -/
theorem Records.tracks_iff (h : p.Records calls) : p.Tracks calls ↔ SlaveSettled calls := by
  have hcascade := h.cascade
  constructor
  · rintro ⟨hdeliver, -, hport⟩
    cases hlast : lastSlave calls with
    | none =>
      obtain ⟨hmask, hbyte⟩ := h.initial hlast
      rw [hport, hmask] at hbyte
      exact absurd hbyte (by decide)
    | some b =>
      cases b with
      | true => exact Or.inl hlast
      | false =>
        refine Or.inr ⟨hlast, fun l hl => ?_⟩
        rw [hlast] at hcascade
        rw [← hdeliver l, deliverable, if_pos hl, hcascade]
        exact Bool.and_false _
  · intro hsettled
    have hsome : lastSlave calls ≠ none := by
      obtain hlast | ⟨hlast, -⟩ := hsettled
      · rw [hlast]
        exact Option.some_ne_none true
      · rw [hlast]
        exact Option.some_ne_none false
    refine ⟨fun l => ?_, (h.ports hsome).1, (h.ports hsome).2⟩
    rw [deliverable]
    cases hl : l.onSlave with
    | false =>
      rw [if_neg Bool.false_ne_true, h.master l hl, Bool.not_not]
    | true =>
      rw [if_pos rfl, h.slave l hl, Bool.not_not, hcascade]
      obtain hlast | ⟨hlast, hoff⟩ := hsettled
      · rw [hlast]
        exact Bool.and_true _
      · rw [hoff l hl]
        rfl

/-- **The exact condition under which the masks track the calls**, for
every sequence of calls after `i8259_init`. -/
theorem tracks_calls_iff (p : Pic) (calls : List IrqCall) :
    (calls.foldl Pic.call p.i8259Init).Tracks calls ↔ SlaveSettled calls :=
  (p.records_run calls).tracks_iff

/-- Lines 8 and 12 are enabled and line 12 is disabled again: line 8, last
enabled, is not delivered any more. -/
theorem disabled_neighbour :
    asked [⟨⟨8, by decide⟩, true⟩, ⟨⟨12, by decide⟩, true⟩, ⟨⟨12, by decide⟩, false⟩]
        ⟨8, by decide⟩ = true
      ∧ ([⟨⟨8, by decide⟩, true⟩, ⟨⟨12, by decide⟩, true⟩,
          ⟨⟨12, by decide⟩, false⟩].foldl Pic.call
            (i8259Init ⟨0, 0, []⟩)).deliverable ⟨8, by decide⟩ = false
      ∧ ¬ ([⟨⟨8, by decide⟩, true⟩, ⟨⟨12, by decide⟩, true⟩,
          ⟨⟨12, by decide⟩, false⟩].foldl Pic.call (i8259Init ⟨0, 0, []⟩)).Tracks
            [⟨⟨8, by decide⟩, true⟩, ⟨⟨12, by decide⟩, true⟩, ⟨⟨12, by decide⟩, false⟩] := by
  refine ⟨by decide, by decide, fun h => ?_⟩
  exact absurd (h.deliverable ⟨8, by decide⟩) (by decide)

end Pic

/-! ## The lines of the devices -/

/-- **A number that a device has for its line.** -/
structure DeviceNum (n : ℕ) : Prop where
  lt : n < 16
  ne_two : n ≠ 2

section DeviceNum

variable {n : ℕ}

theorem DeviceNum.ne_cascade (h : DeviceNum n) : (⟨n, h.lt⟩ : Fin 16) ≠ 2 :=
  fun heq => h.ne_two (congrArg Fin.val heq)

/-- The line with a number. -/
def DeviceNum.line (h : DeviceNum n) : Line := ⟨⟨n, h.lt⟩, h.ne_cascade⟩

/-- A line is its number. -/
theorem DeviceNum.eq_line_iff (h : DeviceNum n) (l : Line) : l = h.line ↔ l.num.val = n := by
  constructor
  · rintro rfl
    rfl
  · intro heq
    cases l
    cases heq
    rfl

end DeviceNum

theorem pit_num : DeviceNum 0 := ⟨by decide, by decide⟩

theorem kbd_num : DeviceNum 1 := ⟨by decide, by decide⟩

theorem rtc_num : DeviceNum 8 := ⟨by decide, by decide⟩

/-- The line of the scheduler's clock. -/
def pitLine : Line := pit_num.line

/-- The line of the keyboard. -/
def kbdLine : Line := kbd_num.line

/-- The line of the clock. -/
def rtcLine : Line := rtc_num.line

end KernelDesign
