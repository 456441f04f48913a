import Mathlib.Data.BitVec

/-!
# Assembly at an interrupt gate

The part of a 32-bit x86 that the entry and exit of a handler uses: eight
registers, a stack in memory, and instructions that push, pop, compare, jump
forward, call and return. A context is what an interrupt takes away from the
program, its registers and where and how it was running; `enter` leaves the
last part on the stack of the handler and `iretContext` takes it from there.

`Carries` says what is on the stack of a handler: some words, the top first,
and under them what `enter` left. A push and a pop are the two ends of its
rule. A function that is called is a map from states to states, and all that
has to be known of it is which of the words above its arguments it leaves
alone.
-/

namespace StackMachine

/-- A word, and an address. -/
abbrev Word := BitVec 32

/-- The eight registers. -/
inductive Reg
  | eax | ecx | edx | ebx | esp | ebp | esi | edi
  deriving DecidableEq

/-- **What a program is, between two instructions**: its registers, where it
is, its flags and the segment of its stack. -/
@[ext]
structure Context where
  regs : Reg → Word
  eip : Word
  cs : Word
  eflags : Word
  ss : Word

/-- **The processor inside a handler**: the registers, the segment of the
stack, the words of memory by their address, and the outcome of the last
comparison. -/
structure Cpu where
  regs : Reg → Word
  ss : Word
  mem : Word → Word
  less : Bool
  greater : Bool

/-- The address of word `k` from `a` up. -/
def slot (a : Word) (k : ℕ) : Word := a + BitVec.ofNat 32 (4 * k)

namespace Cpu

/-- Change one register. -/
def set (s : Cpu) (r : Reg) (w : Word) : Cpu :=
  { s with regs := fun q => if q = r then w else s.regs q }

/-- **Push a word.** -/
def push (s : Cpu) (w : Word) : Cpu :=
  { s.set .esp (s.regs .esp - 4) with
    mem := fun a => if a = s.regs .esp - 4 then w else s.mem a }

/-- **Pop a word** into a register. -/
def pop (s : Cpu) (r : Reg) : Cpu :=
  (s.set .esp (s.regs .esp + 4)).set r (s.mem (s.regs .esp))

/-- Push some words, the first of the list last. -/
def pushAll (s : Cpu) : List Word → Cpu
  | [] => s
  | w :: ws => (s.pushAll ws).push w

/-- Pop into some registers, one after the other. -/
def popAll (s : Cpu) : List Reg → Cpu
  | [] => s
  | r :: rs => (s.pop r).popAll rs

@[simp] theorem push_esp (s : Cpu) (w : Word) : (s.push w).regs .esp = s.regs .esp - 4 := rfl

theorem push_regs (s : Cpu) {q : Reg} (w : Word) (h : q ≠ .esp) :
    (s.push w).regs q = s.regs q := if_neg h

theorem pop_esp (s : Cpu) {r : Reg} (h : r ≠ .esp) :
    (s.pop r).regs .esp = s.regs .esp + 4 := if_neg h.symm

@[simp] theorem pop_self (s : Cpu) (r : Reg) : (s.pop r).regs r = s.mem (s.regs .esp) :=
  if_pos rfl

theorem pop_regs (s : Cpu) {q r : Reg} (h : q ≠ r) (hesp : q ≠ .esp) :
    (s.pop r).regs q = s.regs q := (if_neg h).trans (if_neg hesp)

end Cpu

/-! ## Interrupts -/

/-- The program runs with the privilege of user code. -/
def Context.user (x : Context) : Bool := x.cs.toNat % 4 = 3

/-- **What an interrupt leaves on the stack**: the stack pointer and segment
only where the stack is changed. -/
def Context.frame (x : Context) : List Word :=
  if x.user then [x.eip, x.cs, x.eflags, x.regs .esp, x.ss] else [x.eip, x.cs, x.eflags]

/-- The processor at the gate: from user code the stack pointer and the
segment come from the task state segment. -/
def atGate (x : Context) (mem : Word → Word) (ss0 esp0 : Word) : Cpu where
  regs q := if q = .esp ∧ x.user = true then esp0 else x.regs q
  ss := if x.user then ss0 else x.ss
  mem := mem
  less := false
  greater := false

/-- **An interrupt.** -/
def enter (x : Context) (mem : Word → Word) (ss0 esp0 : Word) : Cpu :=
  (atGate x mem ss0 esp0).pushAll x.frame

/-- **`iret`**: the program it returns to. -/
def iretContext (s : Cpu) : Context :=
  let a := s.regs .esp
  let cs := s.mem (slot a 1)
  if cs.toNat % 4 = 3 then
    { regs := fun q => if q = .esp then s.mem (slot a 3) else s.regs q
      eip := s.mem (slot a 0)
      cs := cs
      eflags := s.mem (slot a 2)
      ss := s.mem (slot a 4) }
  else
    { regs := fun q => if q = .esp then slot a 3 else s.regs q
      eip := s.mem (slot a 0)
      cs := cs
      eflags := s.mem (slot a 2)
      ss := s.ss }

/-! ## What is on the stack -/

theorem slot_zero (a : Word) : slot a 0 = a := by
  rw [slot]
  exact BitVec.add_zero a

/-- One word further down, every slot is one further up. -/
theorem slot_succ (a : Word) (k : ℕ) : slot (a - 4) (k + 1) = slot a k := by
  have hwords : BitVec.ofNat 32 (4 * (k + 1)) = 4 + BitVec.ofNat 32 (4 * k) := by
    rw [Nat.mul_succ, Nat.add_comm, BitVec.ofNat_add]
    rfl
  rw [slot, slot, hwords, ← BitVec.add_assoc, BitVec.sub_add_cancel]

theorem slot_add_four (a : Word) (k : ℕ) : slot (a + 4) k = slot a (k + 1) := by
  have hsucc := slot_succ (a + 4) k
  rw [BitVec.add_sub_cancel] at hsucc
  exact hsucc.symm

/-- A stack that is not of the whole memory does not come round to the slot
under it. -/
theorem slot_ne (a : Word) {k : ℕ} (hk : k + 1 < 2 ^ 30) : slot a k ≠ a - 4 := by
  have hk' : k < 1073741823 := by omega
  rw [slot]
  bv_omega

/-- A slot counted from a slot. -/
theorem slot_slot (a : Word) (i j : ℕ) : slot (slot a i) j = slot a (i + j) := by
  rw [slot, slot, slot, Nat.mul_add, BitVec.ofNat_add, BitVec.add_assoc]

/-- **The words on the stack**, the top first. -/
def OnStack (s : Cpu) (ws : List Word) : Prop :=
  ∀ k, (h : k < ws.length) → s.mem (slot (s.regs .esp) k) = ws.get ⟨k, h⟩

/-- **The words on the stack of the handler** over what the interrupt left
there; a handler of kernel code is on the stack of that code. -/
structure Carries (s : Cpu) (x : Context) (ws : List Word) : Prop where
  words : OnStack s (ws ++ x.frame)
  kernel : x.user = false →
    slot (s.regs .esp) (ws.length + 3) = x.regs .esp ∧ s.ss = x.ss

section Rules

variable {s : Cpu} {x : Context} {w : Word} {ws : List Word} {r : Reg}

theorem OnStack.push (h : OnStack s ws) (hws : ws.length < 1000) (w : Word) :
    OnStack (s.push w) (w :: ws) := by
  intro k hk
  cases k with
  | zero =>
    rw [Cpu.push_esp, slot_zero]
    exact if_pos rfl
  | succ k =>
    have hk' : k < ws.length := Nat.lt_of_succ_lt_succ hk
    rw [Cpu.push_esp, slot_succ]
    exact (if_neg (slot_ne _ (by omega))).trans (h k hk')

theorem OnStack.pop (h : OnStack s (w :: ws)) (hr : r ≠ .esp) :
    OnStack (s.pop r) ws ∧ (s.pop r).regs r = w := by
  constructor
  · intro k hk
    rw [Cpu.pop_esp s hr, slot_add_four]
    exact h (k + 1) (Nat.succ_lt_succ hk)
  · have hword := h 0 (Nat.succ_pos _)
    rw [slot_zero] at hword
    rw [Cpu.pop_self]
    exact hword

/-- Several words pushed, and the stack is as far below its old top. -/
theorem pushAll_esp (s : Cpu) (ws : List Word) :
    slot ((s.pushAll ws).regs .esp) ws.length = s.regs .esp := by
  induction ws with
  | nil => exact slot_zero _
  | cons w ws ih =>
    rw [Cpu.pushAll, Cpu.push_esp, List.length_cons, slot_succ]
    exact ih

/-- **Several words pushed** are on the stack. -/
theorem onStack_pushAll (s : Cpu) {ws : List Word} (hws : ws.length < 1000) :
    OnStack (s.pushAll ws) ws ∧ (s.pushAll ws).ss = s.ss := by
  induction ws with
  | nil => exact ⟨nofun, rfl⟩
  | cons w ws ih =>
    have hshort : ws.length < 1000 := Nat.lt_of_succ_lt hws
    obtain ⟨hwords, hss⟩ := ih hshort
    exact ⟨hwords.push hshort w, hss⟩

theorem frame_length_le (x : Context) : x.frame.length ≤ 5 := by
  rw [Context.frame]
  split
  · exact Nat.le_refl 5
  · exact (by decide : 3 ≤ 5)

/-- **A push** puts a word on the stack. -/
theorem Carries.push (h : Carries s x ws) (hws : ws.length < 900) (w : Word) :
    Carries (s.push w) x (w :: ws) := by
  have hframe := frame_length_le x
  refine ⟨h.words.push ?_ w, fun hkernel => ?_⟩
  · rw [List.length_append]
    omega
  · obtain ⟨hesp, hss⟩ := h.kernel hkernel
    refine ⟨?_, hss⟩
    rw [Cpu.push_esp, List.length_cons, Nat.add_right_comm, slot_succ]
    exact hesp

/-- **A pop** takes the word off the stack. -/
theorem Carries.pop (h : Carries s x (w :: ws)) (hr : r ≠ .esp) :
    Carries (s.pop r) x ws ∧ (s.pop r).regs r = w := by
  obtain ⟨hwords, hr'⟩ := h.words.pop hr
  refine ⟨⟨hwords, fun hkernel => ?_⟩, hr'⟩
  obtain ⟨hesp, hss⟩ := h.kernel hkernel
  refine ⟨?_, hss⟩
  rw [Cpu.pop_esp s hr, slot_add_four]
  exact hesp

/-- **A word passed over.** -/
theorem Carries.skip (h : Carries s x (w :: ws)) :
    Carries (s.set .esp (s.regs .esp + 4)) x ws where
  words := by
    intro k hk
    show s.mem (slot (s.regs .esp + 4) k) = _
    rw [slot_add_four]
    exact h.words (k + 1) (Nat.succ_lt_succ hk)
  kernel := by
    intro hkernel
    obtain ⟨hesp, hss⟩ := h.kernel hkernel
    refine ⟨?_, hss⟩
    show slot (s.regs .esp + 4) _ = _
    rw [slot_add_four]
    exact hesp

/-- Several words pushed. -/
theorem Carries.pushAll (h : Carries s x ws) (vs : List Word) (hws : vs.length + ws.length < 900) :
    Carries (s.pushAll vs) x (vs ++ ws) := by
  induction vs with
  | nil => exact h
  | cons v vs ih =>
    rw [List.length_cons] at hws
    refine (ih (by omega)).push ?_ v
    rw [List.length_append]
    omega

/-- **Several words popped**: each register has its word, and no other
register has changed. -/
theorem Carries.popAll (rs : List Reg) (vs ws : List Word) (h : Carries s x (vs ++ ws))
    (hlength : rs.length = vs.length) (hrs : (.esp :: rs).Nodup) :
    Carries (s.popAll rs) x ws ∧ (∀ p ∈ rs.zip vs, (s.popAll rs).regs p.1 = p.2)
      ∧ ∀ q, q ∉ .esp :: rs → (s.popAll rs).regs q = s.regs q := by
  induction rs generalizing s vs with
  | nil =>
    cases vs with
    | nil => exact ⟨h, nofun, fun q _ => rfl⟩
    | cons v vs => cases hlength
  | cons r rs ih =>
    cases vs with
    | nil => cases hlength
    | cons v vs =>
      simp only [List.nodup_cons, List.mem_cons, not_or] at hrs
      obtain ⟨⟨hesp, hesps⟩, hr, hnodup⟩ := hrs
      obtain ⟨hpop, hvalue⟩ := h.pop (Ne.symm hesp)
      have hrest : (.esp :: rs).Nodup := List.nodup_cons.mpr ⟨hesps, hnodup⟩
      obtain ⟨hholds, hvalues, hothers⟩ := ih vs hpop (Nat.succ.inj hlength) hrest
      refine ⟨hholds, fun p hp => ?_, fun q hq => ?_⟩
      · rcases List.mem_cons.mp hp with rfl | hp
        · refine (hothers r ?_).trans hvalue
          rw [List.mem_cons, not_or]
          exact ⟨Ne.symm hesp, hr⟩
        · exact hvalues p hp
      · simp only [List.mem_cons, not_or] at hq
        refine (hothers q ?_).trans (Cpu.pop_regs s hq.2.1 hq.1)
        rw [List.mem_cons, not_or]
        exact ⟨hq.1, hq.2.2⟩

/-- **An interrupt leaves its words on the stack**, and the registers as
they were. -/
theorem holds_enter (x : Context) (mem : Word → Word) (ss0 esp0 : Word) :
    Carries (enter x mem ss0 esp0) x [] := by
  have hframe := frame_length_le x
  obtain ⟨hwords, hss⟩ :=
    onStack_pushAll (atGate x mem ss0 esp0) (show x.frame.length < 1000 by omega)
  have hesp := pushAll_esp (atGate x mem ss0 esp0) x.frame
  refine ⟨hwords, fun hkernel => ⟨?_, hss.trans (if_neg ?_)⟩⟩
  · have hlength : x.frame.length = 3 := by
      rw [Context.frame, if_neg (by rw [hkernel]; exact Bool.false_ne_true)]
      rfl
    rw [hlength] at hesp
    refine hesp.trans (if_neg ?_)
    rintro ⟨-, huser⟩
    rw [hkernel] at huser
    cases huser
  · rw [hkernel]
    exact Bool.false_ne_true

theorem pushAll_regs (s : Cpu) (ws : List Word) {q : Reg} (hq : q ≠ .esp) :
    (s.pushAll ws).regs q = s.regs q := by
  induction ws with
  | nil => rfl
  | cons w ws ih => exact (Cpu.push_regs _ w hq).trans ih

theorem enter_regs (x : Context) (mem : Word → Word) (ss0 esp0 : Word) {q : Reg}
    (hq : q ≠ .esp) : (enter x mem ss0 esp0).regs q = x.regs q :=
  (pushAll_regs _ _ hq).trans (if_neg (fun h => hq h.1))

/-- **The return**: the program goes on where it was, with the registers of
the handler but for the stack pointer. -/
theorem Carries.iret (h : Carries s x []) :
    iretContext s = { x with regs := fun q => if q = .esp then x.regs .esp else s.regs q } := by
  have hwords := h.words
  rw [List.nil_append] at hwords
  cases huser : x.user with
  | true =>
    have hframe : x.frame = [x.eip, x.cs, x.eflags, x.regs .esp, x.ss] := if_pos huser
    rw [hframe] at hwords
    have heip : s.mem (slot (s.regs .esp) 0) = x.eip := hwords 0 (by simp)
    have hcs : s.mem (slot (s.regs .esp) 1) = x.cs := hwords 1 (by simp)
    have heflags : s.mem (slot (s.regs .esp) 2) = x.eflags := hwords 2 (by simp)
    have hesp : s.mem (slot (s.regs .esp) 3) = x.regs .esp := hwords 3 (by simp)
    have hss : s.mem (slot (s.regs .esp) 4) = x.ss := hwords 4 (by simp)
    rw [iretContext, hcs, if_pos (of_decide_eq_true huser), heip, heflags, hesp, hss]
  | false =>
    have hframe : x.frame = [x.eip, x.cs, x.eflags] :=
      if_neg (by rw [huser]; exact Bool.false_ne_true)
    rw [hframe] at hwords
    have heip : s.mem (slot (s.regs .esp) 0) = x.eip := hwords 0 (by simp)
    have hcs : s.mem (slot (s.regs .esp) 1) = x.cs := hwords 1 (by simp)
    have heflags : s.mem (slot (s.regs .esp) 2) = x.eflags := hwords 2 (by simp)
    obtain ⟨hesp, hss⟩ := h.kernel huser
    have hslot : slot (s.regs .esp) 3 = x.regs .esp := hesp
    rw [iretContext, hcs, if_neg (of_decide_eq_false huser), heip, heflags, hslot, hss]

/-! ## Calls -/

/-- **A function leaves the words from slot `lo` up to slot `n` alone**, and
returns with the stack where it was. -/
structure Leaves (f : Cpu → Cpu) (s : Cpu) (lo n : ℕ) : Prop where
  esp : (f s).regs .esp = s.regs .esp
  ss : (f s).ss = s.ss
  words : ∀ k, lo ≤ k → k < n →
    (f s).mem (slot (s.regs .esp) k) = s.mem (slot (s.regs .esp) k)

/-- **The words in the first slots.** -/
def Cpu.slots (s : Cpu) (n : ℕ) : List Word :=
  (List.range n).map (fun k => s.mem (slot (s.regs .esp) k))

/-- **A call** leaves what is on the stack above the arguments, which
belong to the function. -/
theorem Carries.call {f : Cpu → Cpu} (args ws : List Word) (h : Carries s x (args ++ ws))
    (hleaves : Leaves f s args.length (args.length + ws.length + x.frame.length)) :
    Carries (f s) x ((f s).slots args.length ++ ws) where
  words := by
    intro k hk
    have hlength : ((f s).slots args.length).length = args.length := by
      rw [Cpu.slots, List.length_map, List.length_range]
    simp only [List.length_append, hlength] at hk
    simp only [List.get_eq_getElem, List.append_assoc]
    by_cases harg : k < args.length
    · rw [List.getElem_append_left (by rw [hlength]; exact harg)]
      simp only [Cpu.slots, List.getElem_map, List.getElem_range]
    · have hword := h.words k (by simpa only [List.length_append] using hk)
      simp only [List.get_eq_getElem, List.append_assoc] at hword
      rw [List.getElem_append_right (Nat.le_of_not_lt harg)] at hword
      rw [List.getElem_append_right (by rw [hlength]; exact Nat.le_of_not_lt harg), hleaves.esp,
        hleaves.words k (Nat.le_of_not_lt harg) hk, hword]
      congr 1
      rw [hlength]
  kernel := by
    intro hkernel
    obtain ⟨hesp, hss⟩ := h.kernel hkernel
    rw [List.length_append] at hesp ⊢
    rw [Cpu.slots, List.length_map, List.length_range, hleaves.esp, hleaves.ss]
    exact ⟨hesp, hss⟩

end Rules

/-! ## What stays in memory -/

/-- **Words that are pushed** go below all that is on the stack. -/
theorem pushAll_mem (s : Cpu) {ws : List Word} {k : ℕ} (hk : k + ws.length < 2 ^ 29) :
    (s.pushAll ws).mem (slot (s.regs .esp) k) = s.mem (slot (s.regs .esp) k) := by
  induction ws with
  | nil => rfl
  | cons w ws ih =>
    rw [List.length_cons] at hk
    have hesp : slot ((s.pushAll ws).regs .esp) ws.length = s.regs .esp := pushAll_esp s ws
    refine (if_neg ?_).trans (ih (by omega))
    rw [← hesp, slot_slot]
    exact slot_ne _ (by omega)

/-- Words that are popped stay in memory. -/
theorem popAll_mem (s : Cpu) (rs : List Reg) : (s.popAll rs).mem = s.mem := by
  induction rs generalizing s with
  | nil => rfl
  | cons r rs ih => exact ih (s.pop r)

/-! ## The words in use -/

/-- **The word at `a` is in use** on a stack that starts below `base` and has
`p` words on it. -/
def InUse (base : Word) (p : ℕ) (a : Word) : Prop := ∃ j < p, slot a (j + 1) = base

section InUse

variable {base a esp : Word} {p q k : ℕ}

theorem InUse.mono (h : InUse base p a) (hpq : p ≤ q) : InUse base q a :=
  let ⟨j, hj, hbase⟩ := h
  ⟨j, Nat.lt_of_lt_of_le hj hpq, hbase⟩

/-- The slots up to the start of the stack are in use. -/
theorem inUse_slot (hesp : slot esp p = base) (hk : k < p) : InUse base p (slot esp k) := by
  refine ⟨p - k - 1, by omega, ?_⟩
  rw [slot_slot, show k + (p - k - 1 + 1) = p by omega]
  exact hesp

theorem slot_left_cancel {b : Word} (h : slot a k = slot b k) : a = b :=
  (BitVec.add_left_inj _).mp h

/-- **The words in use are the slots from the stack pointer up.** -/
theorem InUse.exists_slot (h : InUse base p a) (hesp : slot esp p = base) :
    ∃ k < p, a = slot esp k := by
  obtain ⟨j, hj, hbase⟩ := h
  refine ⟨p - (j + 1), by omega, slot_left_cancel (k := j + 1) ?_⟩
  rw [slot_slot, Nat.sub_add_cancel (by omega), hbase, hesp]

end InUse

/-! ## All registers at once -/

/-- `pushal`: the stack pointer it pushes is the one before. -/
def Cpu.pushal (s : Cpu) : Cpu :=
  s.pushAll [s.regs .edi, s.regs .esi, s.regs .ebp, s.regs .esp, s.regs .ebx, s.regs .edx,
    s.regs .ecx, s.regs .eax]

/-- `popal`: the stack pointer on the stack is passed over. -/
def Cpu.popal (s : Cpu) : Cpu :=
  let s := s.popAll [.edi, .esi, .ebp]
  (s.set .esp (s.regs .esp + 4)).popAll [.ebx, .edx, .ecx, .eax]

theorem Carries.pushal {s : Cpu} {x : Context} {ws : List Word} (h : Carries s x ws)
    (hws : ws.length < 800) :
    Carries s.pushal x ([s.regs .edi, s.regs .esi, s.regs .ebp, s.regs .esp, s.regs .ebx,
      s.regs .edx, s.regs .ecx, s.regs .eax] ++ ws) := by
  refine h.pushAll _ ?_
  simp only [List.length_cons, List.length_nil]
  omega

/-- **`popal` undoes `pushal`**, in the registers but for the stack
pointer. -/
theorem Carries.popal {s : Cpu} {x : Context} {ws : List Word} {regs : Reg → Word}
    (h : Carries s x ([regs .edi, regs .esi, regs .ebp, regs .esp, regs .ebx, regs .edx,
      regs .ecx, regs .eax] ++ ws)) :
    Carries s.popal x ws ∧ ∀ q, q ≠ .esp → s.popal.regs q = regs q := by
  obtain ⟨hlow, hlows, -⟩ := Carries.popAll [.edi, .esi, .ebp]
    [regs .edi, regs .esi, regs .ebp] _ h rfl (by decide)
  obtain ⟨hhigh, hhighs, hothers⟩ := Carries.popAll [.ebx, .edx, .ecx, .eax]
    [regs .ebx, regs .edx, regs .ecx, regs .eax] ws hlow.skip rfl (by decide)
  simp only [List.zip_cons_cons, List.zip_nil_right, List.forall_mem_cons] at hlows hhighs
  obtain ⟨hedi, hesi, hebp, -⟩ := hlows
  obtain ⟨hebx, hedx, hecx, heax, -⟩ := hhighs
  refine ⟨hhigh, fun q hq => ?_⟩
  cases q with
  | esp => exact absurd rfl hq
  | eax => exact heax
  | ecx => exact hecx
  | edx => exact hedx
  | ebx => exact hebx
  | ebp => exact (hothers .ebp (by decide)).trans hebp
  | esi => exact (hothers .esi (by decide)).trans hesi
  | edi => exact (hothers .edi (by decide)).trans hedi

/-! ## Code -/

/-- **Instructions**, with the functions they call. A jump is to a place in
the code. -/
inductive Instr (φ : Type*)
  | pushl (r : Reg)
  | popl (r : Reg)
  | pushal
  | popal
  | cmpl (imm : Word) (r : Reg)
  | jl (target : ℕ)
  | jg (target : ℕ)
  | decl (r : Reg)
  | movl (imm : Word) (r : Reg)
  | call (f : φ)
  | callTable (table : List φ) (r : Reg)
  | iret

section Steps

variable {φ : Type*} {sem : φ → Cpu → Cpu} {code : List (Instr φ)} {n pc target : ℕ} {s : Cpu}

end Steps

end StackMachine
