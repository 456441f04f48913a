import KernelDesign.Library.BitFields
import KernelDesign.Library.Words
import Mathlib.Data.List.Induction

/-!
# The interrupt descriptor table

`init_idt` fills the 256 entries of the table and `insert_idt` installs the
handler of a device while the kernel runs. An entry is a packed record; the
processor reads it as a number, and finds in it the address of the handler,
which is in two parts, whether the gate leaves the interrupt flag as it is,
and who may use the gate with an `int` instruction.

`idt_dispatch` is what the processor finds, for every vector and after every
sequence of calls of `insert_idt`. Of the 256 vectors programs can use one,
that of the system calls (`user_vector`), and a gate from vector 32 on does
not mask interrupts, which is why every handler does it itself.
-/

namespace KernelDesign

open BitFields Words

/-! ## The entries -/

/-- **`idt_desc_t`**. -/
structure IdtDesc where
  offset1500 : ℕ
  segSelector : ℕ
  reserved4 : ℕ
  reserved3 : ℕ
  reserved2 : ℕ
  reserved1 : ℕ
  size : ℕ
  reserved0 : ℕ
  dpl : ℕ
  present : ℕ
  offset3116 : ℕ

namespace IdtDesc

/-- `SET_IDT_ENTRY`. -/
def setIdtEntry (d : IdtDesc) (handler : UInt32) : IdtDesc :=
  { d with
    offset3116 := ((handler &&& 0xFFFF0000) >>> 16).toNat
    offset1500 := (handler &&& 0xFFFF).toNat }

/-- The eight bytes of an entry, as one number. -/
def val (d : IdtDesc) : ℕ :=
  pack [(16, d.offset1500), (16, d.segSelector), (8, d.reserved4), (1, d.reserved3),
    (1, d.reserved2), (1, d.reserved1), (1, d.size), (1, d.reserved0), (2, d.dpl),
    (1, d.present), (16, d.offset3116)]

end IdtDesc

/-- **The handlers of the table**: those of the exceptions, and the linkages
of `isr_wrapper.S`. -/
inductive Handler
  | expDe | expDb | expNmi | expBp | expOf | expBr | expUd | expNm | expDf | expCso
  | expTs | expNp | expSs | expGp | expPf | expMf | expAc | expMc | expXf | expDefault
  | syscallAsmLinkage | pitWrapper | kbdWrapper | rtcWrapper
  deriving DecidableEq

/-- The handlers that `init_idt` installs after its loop, with their
vectors. -/
def namedHandlers : List (ℕ × Handler) :=
  [(0, .expDe), (1, .expDb), (2, .expNmi), (3, .expBp), (4, .expOf), (5, .expBr),
    (6, .expUd), (7, .expNm), (8, .expDf), (9, .expCso), (10, .expTs), (11, .expNp),
    (12, .expSs), (13, .expGp), (14, .expPf), (16, .expMf), (17, .expAc), (18, .expMc),
    (19, .expXf), (32, .pitWrapper)]

/-- **The table**, with what comes after it in memory. -/
abbrev Idt := ℕ → IdtDesc

/-- Change one entry. -/
def Idt.change (idt : Idt) (v : ℕ) (f : IdtDesc → IdtDesc) : Idt :=
  fun i => if i = v then f (idt i) else idt i

/-- The fields that the loop of `init_idt` stores in entry `i`. -/
def blankEntry (i : ℕ) : IdtDesc where
  offset1500 := 0
  segSelector := 0x10
  reserved4 := 0
  reserved3 := if i < 32 then 0 else 1
  reserved2 := 1
  reserved1 := 1
  size := 1
  reserved0 := 0
  dpl := if i = 0x80 then 3 else 0
  present := if (i < 20 ∧ i ≠ 15) ∨ i = 0x80 ∨ i = 0x20 then 1 else 0
  offset3116 := 0

/-- What the loop makes of entry `i`. The test before the first
`SET_IDT_ENTRY` is true for every `i`. -/
def initEntry (addr : Handler → UInt32) (i : ℕ) : IdtDesc :=
  let d := blankEntry i
  let d := if i ≠ 0x80 ∨ i ≠ 0x20 then d.setIdtEntry (addr .expDefault) else d
  if i = 0x80 then d.setIdtEntry (addr .syscallAsmLinkage) else d

/-- **`init_idt`**. -/
def initIdt (addr : Handler → UInt32) (idt : Idt) : Idt :=
  namedHandlers.foldl (fun t e => t.change e.1 (fun d => d.setIdtEntry (addr e.2)))
    (fun i => if i < 256 then initEntry addr i else idt i)

/-- **`insert_idt`**. -/
def insertIdt (idt : Idt) (handler : UInt32) (irqNum : ℕ) : ℤ × Idt :=
  if handler = 0 then (-1, idt)
  else (0, idt.change (u32 (32 + irqNum)) (fun d =>
    { d.setIdtEntry handler with present := 1, segSelector := 0x10 }))

/-! ## What the processor reads -/

/-- **A gate**: where it leads, whether it leaves the interrupt flag alone,
the least privilege that may use it, and whether it is in use. -/
@[ext]
structure Gate where
  handler : ℕ
  selector : ℕ
  trap : Bool
  dpl : ℕ
  present : Bool
  deriving DecidableEq

/-- **The gate in an entry**, if its five type bits are those of a 32-bit
interrupt or trap gate. -/
def decodeGate (n : ℕ) : Option Gate :=
  if range n 40 5 = 14 ∨ range n 40 5 = 15 then
    some
      { handler := range n 0 16 + 65536 * range n 48 16
        selector := range n 16 16
        trap := range n 40 5 = 15
        dpl := range n 45 2
        present := range n 47 1 = 1 }
  else none

namespace IdtDesc

/-- The bits that make an entry a gate of 32 bits. -/
structure Is32 (d : IdtDesc) : Prop where
  reserved3 : d.reserved3 = 0 ∨ d.reserved3 = 1
  reserved2 : d.reserved2 = 1
  reserved1 : d.reserved1 = 1
  size : d.size = 1
  reserved0 : d.reserved0 = 0

/-- The gate of an entry, from its fields. -/
def gate (d : IdtDesc) : Gate where
  handler := d.offset1500 % 65536 + 65536 * (d.offset3116 % 65536)
  selector := d.segSelector % 65536
  trap := d.reserved3 = 1
  dpl := d.dpl % 4
  present := d.present % 2 = 1

variable {d : IdtDesc}

/-- The type bits of a gate of 32 bits. -/
theorem range_type (h : d.Is32) : range d.val 40 5 = 14 + d.reserved3 := by
  have hrange : range d.val 40 5 = pack [(1, d.reserved3), (1, d.reserved2), (1, d.reserved1),
      (1, d.size), (1, d.reserved0)] :=
    range_pack [(16, d.offset1500), (16, d.segSelector), (8, d.reserved4)]
      [(1, d.reserved3), (1, d.reserved2), (1, d.reserved1), (1, d.size), (1, d.reserved0)]
      [(2, d.dpl), (1, d.present), (16, d.offset3116)] rfl rfl
  rw [hrange, h.reserved2, h.reserved1, h.size, h.reserved0]
  obtain h0 | h1 := h.reserved3
  · rw [h0]
    decide
  · rw [h1]
    decide

/-- **The processor reads the fields.** -/
theorem decodeGate_val (h : d.Is32) : decodeGate d.val = some d.gate := by
  have hlow : range d.val 0 16 = d.offset1500 % 2 ^ 16 := range_field [] _ _ rfl
  have hselector : range d.val 16 16 = d.segSelector % 2 ^ 16 :=
    range_field [(16, d.offset1500)] _ _ rfl
  have hdpl : range d.val 45 2 = d.dpl % 2 ^ 2 :=
    range_field [(16, d.offset1500), (16, d.segSelector), (8, d.reserved4), (1, d.reserved3),
      (1, d.reserved2), (1, d.reserved1), (1, d.size), (1, d.reserved0)]
      [(1, d.present), (16, d.offset3116)] _ rfl
  have hpresent : range d.val 47 1 = d.present % 2 ^ 1 :=
    range_field [(16, d.offset1500), (16, d.segSelector), (8, d.reserved4), (1, d.reserved3),
      (1, d.reserved2), (1, d.reserved1), (1, d.size), (1, d.reserved0), (2, d.dpl)]
      [(16, d.offset3116)] _ rfl
  have hhigh : range d.val 48 16 = d.offset3116 % 2 ^ 16 :=
    range_field [(16, d.offset1500), (16, d.segSelector), (8, d.reserved4), (1, d.reserved3),
      (1, d.reserved2), (1, d.reserved1), (1, d.size), (1, d.reserved0), (2, d.dpl),
      (1, d.present)] [] _ rfl
  have htype := range_type h
  have hgate : range d.val 40 5 = 14 ∨ range d.val 40 5 = 15 := by
    rw [htype]
    have h3 := h.reserved3
    omega
  have htrap : range d.val 40 5 = 15 ↔ d.reserved3 = 1 := by
    rw [htype]
    omega
  rw [decodeGate, if_pos hgate, hlow, hhigh, hselector, hdpl, hpresent, gate]
  simp only [htrap, Nat.reducePow]

/-- **A new handler** is all that `SET_IDT_ENTRY` changes: the two parts of
its address make the address. -/
theorem gate_setIdtEntry (d : IdtDesc) (handler : UInt32) :
    (d.setIdtEntry handler).gate = { d.gate with handler := handler.toNat } := by
  have hlt := handler.toNat_lt
  have hlow : (handler &&& 0xFFFF).toNat = handler.toNat % 65536 := by
    rw [UInt32.toNat_and]
    exact Nat.and_two_pow_sub_one_eq_mod _ 16
  have hhigh : ((handler &&& 0xFFFF0000) >>> 16).toNat = handler.toNat / 65536 := by
    rw [UInt32.toNat_shiftRight, UInt32.toNat_and, Nat.shiftRight_and_distrib,
      Nat.shiftRight_eq_div_pow]
    have hdiv : handler.toNat / 2 ^ 16 < 2 ^ 16 := by omega
    refine (Nat.and_two_pow_sub_one_eq_mod (handler.toNat / 2 ^ 16) 16).trans ?_
    exact Nat.mod_eq_of_lt hdiv
  have haddr : (handler &&& 0xFFFF).toNat % 65536
      + 65536 * (((handler &&& 0xFFFF0000) >>> 16).toNat % 65536) = handler.toNat := by
    rw [hlow, hhigh]
    omega
  exact congrArg (fun a => { d.gate with handler := a }) haddr

theorem Is32.setIdtEntry (h : d.Is32) (handler : UInt32) : (d.setIdtEntry handler).Is32 :=
  ⟨h.1, h.2, h.3, h.4, h.5⟩

end IdtDesc

/-! ## The table after the calls -/

/-- A call of `insert_idt` for a vector of the table. -/
structure Insertion where
  handler : UInt32
  irqNum : Fin 224

/-- What the call does. -/
def Idt.insert (idt : Idt) (c : Insertion) : Idt := (insertIdt idt c.handler c.irqNum).2

/-- The handler that `init_idt` gives a vector: the one it names, or what
its loop has put there. -/
def builtin (v : ℕ) : Handler :=
  match (namedHandlers.filter (fun e => v = e.1)).getLast? with
  | some e => e.2
  | none => if v = 0x80 then .syscallAsmLinkage else .expDefault

/-- The last handler installed at a vector. A null one is refused. -/
def inserted (calls : List Insertion) (v : ℕ) : Option UInt32 :=
  ((calls.filter (fun c => v = 32 + c.irqNum.val ∧ c.handler ≠ 0)).getLast?).map
    Insertion.handler

/-- **The gate of a vector**: the handler installed last, or else that of
`init_idt`. -/
def expectedGate (addr : Handler → UInt32) (calls : List Insertion) (v : ℕ) : Gate where
  handler := ((inserted calls v).getD (addr (builtin v))).toNat
  selector := 0x10
  trap := 32 ≤ v
  dpl := if v = 0x80 then 3 else 0
  present := decide ((v < 20 ∧ v ≠ 15) ∨ v = 0x80 ∨ v = 0x20) || (inserted calls v).isSome

/-- **A sequence of changes, entry by entry**: those of one vector. -/
theorem foldl_change {β : Type*} (key : β → ℕ) (f : β → IdtDesc → IdtDesc) (l : List β)
    (idt : Idt) (v : ℕ) :
    l.foldl (fun t e => Idt.change t (key e) (f e)) idt v
      = (l.filter (fun e => v = key e)).foldl (fun d e => f e d) (idt v) := by
  induction l generalizing idt with
  | nil => rfl
  | cons e l ih =>
    rw [List.foldl_cons, ih, List.filter_cons]
    by_cases hv : v = key e
    · rw [if_pos (decide_eq_true hv), List.foldl_cons, Idt.change, if_pos hv]
    · rw [if_neg (by simpa using hv), Idt.change, if_neg hv]

/-- Several handlers set in one entry: the last one counts. -/
theorem foldl_setIdtEntry (addr : Handler → UInt32) {d : IdtDesc} (hd : d.Is32)
    (l : List (ℕ × Handler)) :
    (l.foldl (fun d e => d.setIdtEntry (addr e.2)) d).Is32
      ∧ (l.foldl (fun d e => d.setIdtEntry (addr e.2)) d).gate
        = { d.gate with
            handler := match l.getLast? with
              | some e => (addr e.2).toNat
              | none => d.gate.handler } := by
  induction l using List.reverseRecOn with
  | nil => exact ⟨hd, rfl⟩
  | append_singleton l e ih =>
    rw [List.foldl_append, List.foldl_cons, List.foldl_nil]
    refine ⟨ih.1.setIdtEntry _, ?_⟩
    rw [IdtDesc.gate_setIdtEntry, ih.2, List.getLast?_concat]

/-- The gate of a blank entry, but for the handler. -/
theorem blankEntry_gate (addr : Handler → UInt32) (v : ℕ) :
    (blankEntry v).Is32
      ∧ ∀ h, { (blankEntry v).gate with handler := h }
        = { expectedGate addr [] v with handler := h } := by
  refine ⟨⟨?_, rfl, rfl, rfl, rfl⟩, fun h => ?_⟩
  · show (if v < 32 then 0 else 1) = 0 ∨ (if v < 32 then 0 else 1) = 1
    split
    · exact Or.inl rfl
    · exact Or.inr rfl
  · have htrap : (if v < 32 then 0 else 1) = 1 ↔ 32 ≤ v := by
      split
      · omega
      · omega
    have hdpl : (if v = 0x80 then 3 else 0) % 4 = if v = 0x80 then 3 else 0 := by
      split
      · rfl
      · rfl
    have hpresent : (if (v < 20 ∧ v ≠ 15) ∨ v = 0x80 ∨ v = 0x20 then 1 else 0) % 2 = 1
        ↔ (v < 20 ∧ v ≠ 15) ∨ v = 0x80 ∨ v = 0x20 := by
      by_cases hv : (v < 20 ∧ v ≠ 15) ∨ v = 0x80 ∨ v = 0x20
      · rw [if_pos hv]
        exact iff_of_true rfl hv
      · rw [if_neg hv]
        exact iff_of_false (by decide) hv
    exact Gate.ext rfl rfl (decide_eq_decide.mpr htrap) hdpl
      ((decide_eq_decide.mpr hpresent).trans (Bool.or_false _).symm)

/-- The entry that the loop of `init_idt` leaves. -/
theorem initEntry_gate (addr : Handler → UInt32) (v : ℕ) :
    (initEntry addr v).Is32
      ∧ (initEntry addr v).gate = { expectedGate addr [] v with
          handler := (addr (if v = 0x80 then .syscallAsmLinkage else .expDefault)).toNat } := by
  obtain ⟨his, hgate⟩ := blankEntry_gate addr v
  have htest : v ≠ 0x80 ∨ v ≠ 0x20 := by omega
  rw [initEntry]
  dsimp only
  rw [if_pos htest]
  by_cases h80 : v = 0x80
  · rw [if_pos h80, if_pos h80, IdtDesc.gate_setIdtEntry, IdtDesc.gate_setIdtEntry]
    exact ⟨(his.setIdtEntry _).setIdtEntry _, hgate _⟩
  · rw [if_neg h80, if_neg h80, IdtDesc.gate_setIdtEntry]
    exact ⟨his.setIdtEntry _, hgate _⟩

/-- **The table as `init_idt` leaves it.** -/
theorem initIdt_gate (addr : Handler → UInt32) (idt : Idt) {v : ℕ} (hv : v < 256) :
    (initIdt addr idt v).Is32 ∧ (initIdt addr idt v).gate = expectedGate addr [] v := by
  have hinit : initIdt addr idt v
      = (namedHandlers.filter (fun e => v = e.1)).foldl
        (fun d e => d.setIdtEntry (addr e.2)) (initEntry addr v) := by
    rw [initIdt, foldl_change Prod.fst (fun e d => d.setIdtEntry (addr e.2)), if_pos hv]
  obtain ⟨his, hgate⟩ := initEntry_gate addr v
  obtain ⟨his', hgate'⟩ := foldl_setIdtEntry addr his
    (namedHandlers.filter (fun e => v = e.1))
  rw [hinit]
  refine ⟨his', hgate'.trans ?_⟩
  rw [hgate]
  refine congrArg (fun h => { expectedGate addr [] v with handler := h }) ?_
  show _ = (addr (builtin v)).toNat
  rw [builtin]
  cases (namedHandlers.filter (fun e => v = e.1)).getLast? with
  | none => rfl
  | some e => rfl

theorem inserted_concat (calls : List Insertion) (c : Insertion) (v : ℕ) :
    inserted (calls ++ [c]) v
      = if v = 32 + c.irqNum.val ∧ c.handler ≠ 0 then some c.handler else inserted calls v := by
  rw [inserted, List.filter_append, List.filter_cons, List.filter_nil]
  by_cases hv : v = 32 + c.irqNum.val ∧ c.handler ≠ 0
  · rw [if_pos (decide_eq_true hv), if_pos hv, List.getLast?_concat]
    rfl
  · rw [if_neg (by simpa using hv), if_neg hv, List.append_nil]
    rfl

/-- **The entries after every sequence of calls.** -/
theorem insert_gate (addr : Handler → UInt32) (idt : Idt) (calls : List Insertion) {v : ℕ}
    (hv : v < 256) :
    (calls.foldl Idt.insert (initIdt addr idt) v).Is32
      ∧ (calls.foldl Idt.insert (initIdt addr idt) v).gate = expectedGate addr calls v := by
  induction calls using List.reverseRecOn with
  | nil => exact initIdt_gate addr idt hv
  | append_singleton calls c ih =>
    obtain ⟨his, hgate⟩ := ih
    have hindex : u32 (32 + (c.irqNum.val : ℤ)) = 32 + c.irqNum.val := by
      have hlt := c.irqNum.isLt
      rw [u32_eq]
      omega
    rw [List.foldl_append, List.foldl_cons, List.foldl_nil, Idt.insert, insertIdt,
      expectedGate, inserted_concat]
    by_cases hnull : c.handler = 0
    · rw [if_pos hnull, if_neg (fun h => h.2 hnull)]
      exact ⟨his, hgate⟩
    · rw [if_neg hnull]
      dsimp only [Idt.change]
      rw [hindex]
      by_cases hline : v = 32 + c.irqNum.val
      · rw [if_pos hline, if_pos ⟨hline, hnull⟩]
        generalize calls.foldl Idt.insert (initIdt addr idt) v = d at his hgate
        refine ⟨⟨his.1, his.2, his.3, his.4, his.5⟩, ?_⟩
        have hset := congrArg (fun g => { g with selector := 0x10, present := true })
          (d.gate_setIdtEntry c.handler)
        refine (show _ = _ from hset).trans ?_
        rw [hgate]
        exact Gate.ext rfl rfl rfl rfl (Bool.or_true _).symm
      · rw [if_neg hline, if_neg (fun h => hline h.1)]
        exact ⟨his, hgate⟩

/-- **What the processor finds in the table**, for every vector, whatever the
handlers' addresses and after every sequence of calls of `insert_idt`. -/
theorem idt_dispatch (addr : Handler → UInt32) (idt : Idt) (calls : List Insertion)
    (v : Fin 256) :
    decodeGate (calls.foldl Idt.insert (initIdt addr idt) v).val
      = some (expectedGate addr calls v) := by
  obtain ⟨his, hgate⟩ := insert_gate addr idt calls v.isLt
  rw [IdtDesc.decodeGate_val his, hgate]

/-- **Programs can use one vector with `int`**, that of the system calls,
however many handlers are installed; and from vector 32 on a gate leaves the
interrupt flag as it is. -/
theorem user_vector (addr : Handler → UInt32) (idt : Idt) (calls : List Insertion)
    (v : Fin 256) :
    ∃ g, decodeGate (calls.foldl Idt.insert (initIdt addr idt) v).val = some g
      ∧ (g.present = true ∧ 3 ≤ g.dpl ↔ v = 0x80) ∧ (g.trap = true ↔ 32 ≤ v.val) := by
  obtain ⟨his, hgate⟩ := insert_gate addr idt calls v.isLt
  refine ⟨_, IdtDesc.decodeGate_val his, ?_, ?_⟩
  · rw [hgate, Fin.ext_iff]
    show _ ∧ 3 ≤ (if v.val = 0x80 then 3 else 0) ↔ v.val = 0x80
    by_cases h80 : v.val = 0x80
    · rw [if_pos h80]
      refine iff_of_true ⟨?_, Nat.le_refl 3⟩ h80
      exact Bool.or_eq_true_iff.mpr (Or.inl (decide_eq_true (Or.inr (Or.inl h80))))
    · rw [if_neg h80]
      exact iff_of_false (fun h => absurd h.2 (by decide)) h80
  · rw [hgate]
    exact decide_eq_true_iff

end KernelDesign
