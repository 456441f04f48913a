import KernelDesign.Keyboard
import KernelDesign.Library.LineInput

/-!
# The line discipline

What the keyboard driver keeps for a terminal is its line input: the first
`kbd_line_cnt` bytes of the line buffer are the characters pending, and
while `kbd_ready` is set the output buffer holds the line entered last, up
to its newline. `Holds` states it, and each of `remove_op` and `insert_op`
is an operation on the line input of the terminal on display.

The 127 in `insert_op` is what keeps the scan of `term_read` inside the
output buffer: a line of at most 127 characters leaves a byte for the
newline.
-/

namespace KernelDesign

open Kernel

/-- **The line input of a terminal**, with the newline as the mark. -/
abbrev TermInput := LineInput UInt8

/-- A line of the keyboard: at most 127 characters, none of them a
newline. -/
abbrev IsKbdLine (s : List UInt8) : Prop := LineInput.IsLine 127 0x0A s

/-- **The output buffer holds the line**, and the newline after it. -/
structure HoldsLine (out : Bytes) (line : List UInt8) : Prop where
  first : out.first line.length = line
  newline : out line.length = 0x0A

/-- **The scan of `term_read` finds the end of the line.** -/
theorem HoldsLine.lineLength {out : Bytes} {line : List UInt8} (h : HoldsLine out line)
    (hline : IsKbdLine line) : lineLength out = line.length := by
  have hlen := hline.1
  refine Scan.scan_eq_of (Nat.zero_le _) (by omega) (fun j _ hj => ?_) ?_
  · have hmem : out j ∈ line := by
      rw [← h.first]
      exact Buffer.mem_first hj
    exact beq_eq_false_iff_ne.mpr (fun heq => hline.2 (heq ▸ hmem))
  · exact beq_iff_eq.mpr h.newline

/-! ## Taking a line -/

/-- **A call of `term_read` takes the line**: its length is returned, and
the 128 cleared bytes of the buffer open with it. -/
structure Takes (b : Bytes) (line : List UInt8) (r : SysResult) : Prop where
  ret : r.ret = line.length
  buf : ∃ b', r.buf = some b' ∧ b'.first line.length = line
    ∧ ∀ j, line.length ≤ j → b' j = b.fill 0 128 j

/-- **`term_read` of a line that is ready.** -/
theorem termRead_of_ready {k : Kernel} {b : Bytes} {nbytes : ℤ} {line : List UInt8}
    (hnbytes : 0 ≤ nbytes) (hready : k.term.kbdReady = true)
    (hout : HoldsLine k.term.kbdOutBuf line) (hline : IsKbdLine line) :
    ∃ r, termRead k (some b) nbytes = .ok r ∧ Takes b line r
      ∧ r.kernel = k.setTerm k.termFlag (fun t => { t with kbdReady := false }) := by
  have hlen : lineLength k.term.kbdOutBuf = line.length := hout.lineLength hline
  have hle := hline.1
  unfold termRead
  dsimp only
  rw [if_neg (Int.not_lt.mpr hnbytes), if_neg (by rw [hready]; exact Bool.noConfusion),
    setTerm_term]
  dsimp only
  rw [hlen, if_neg (by omega)]
  refine ⟨_, rfl, ⟨rfl, _, rfl, ?_, fun j hj => ?_⟩, rfl⟩
  · rw [← hout.first, Buffer.length_first]
    refine Buffer.first_congr (fun j hj => ?_)
    rw [Buffer.fill_copy_apply, if_pos hj]
  · exact Buffer.copy_of_le (by omega)

/-- `term_read` waits while no line is ready. -/
theorem termRead_of_not_ready {k : Kernel} {b : Bytes} {nbytes : ℤ} (hnbytes : 0 ≤ nbytes)
    (hready : k.term.kbdReady = false) : termRead k (some b) nbytes = .error .wait := by
  unfold termRead
  dsimp only
  rw [if_neg (Int.not_lt.mpr hnbytes), if_pos hready]

/-- **The terminal holds the line input.** -/
structure Holds (t : Term) (l : TermInput) : Prop where
  within : l.Within 127 0x0A
  pending : t.kbdLineBuf.first t.kbdLineCnt = l.pending
  ready : t.kbdReady = true →
    ∃ line rest, l.committed = line :: rest ∧ HoldsLine t.kbdOutBuf line

/-- **A change that keeps the line input**: it may take the line that is
ready. -/
structure KeepsInput (t t' : Term) : Prop where
  count : t'.kbdLineCnt = t.kbdLineCnt
  lineBuf : t'.kbdLineBuf = t.kbdLineBuf
  outBuf : t'.kbdOutBuf = t.kbdOutBuf
  ready : t'.kbdReady = true → t.kbdReady = true

theorem KeepsInput.refl (t : Term) : KeepsInput t t := ⟨rfl, rfl, rfl, fun h => h⟩

theorem KeepsInput.trans {t₁ t₂ t₃ : Term} (h : KeepsInput t₁ t₂)
    (h' : KeepsInput t₂ t₃) : KeepsInput t₁ t₃ :=
  ⟨h'.count.trans h.count, h'.lineBuf.trans h.lineBuf, h'.outBuf.trans h.outBuf,
    fun hr => h.ready (h'.ready hr)⟩

namespace Holds

variable {t t' : Term} {l : TermInput}

/-- The count is that of the characters pending. -/
theorem count (h : Holds t l) : t.kbdLineCnt = l.pending.length := by
  rw [← h.pending, Buffer.length_first]

/-- It is at most 127. -/
theorem count_le (h : Holds t l) : t.kbdLineCnt ≤ 127 := by
  rw [h.count]
  exact h.within.pending.1

/-- A terminal as `kbd_init` leaves it holds no input. -/
theorem of_empty (hcount : t.kbdLineCnt = 0) (hready : t.kbdReady = false) :
    Holds t LineInput.empty where
  within := LineInput.within_empty 127 0x0A
  pending := by
    rw [hcount]
    rfl
  ready hr := by
    rw [hready] at hr
    exact absurd hr Bool.false_ne_true

/-- It is all the line input is about. -/
theorem of_keepsInput (h : Holds t l) (hkeep : KeepsInput t t') : Holds t' l where
  within := h.within
  pending := by
    rw [hkeep.lineBuf, hkeep.count]
    exact h.pending
  ready hr := by
    rw [hkeep.outBuf]
    exact h.ready (hkeep.ready hr)

/-! ## Editing -/

/-- **A character is stored** after those pending, and no line is ready. -/
theorem typed (h : Holds t l) {c : UInt8} (hc : c ≠ 0x0A) (hroom : t.kbdLineCnt < 127) :
    Holds (setLineByte { t with kbdReady := false, kbdLineCnt := t.kbdLineCnt + 1 }
      t.kbdLineCnt c) (l.insert 127 c) where
  within := h.within.insert hc
  pending := by
    have hcount := h.count
    have hold : (setLineByte { t with kbdReady := false, kbdLineCnt := t.kbdLineCnt + 1 }
        t.kbdLineCnt c).kbdLineBuf.first t.kbdLineCnt = t.kbdLineBuf.first t.kbdLineCnt :=
      Buffer.first_congr (fun j hj => if_neg (Nat.ne_of_lt hj))
    have hnew : (setLineByte { t with kbdReady := false, kbdLineCnt := t.kbdLineCnt + 1 }
        t.kbdLineCnt c).kbdLineBuf t.kbdLineCnt = c := if_pos rfl
    show Buffer.first _ (t.kbdLineCnt + 1) = _
    rw [Buffer.first_succ, hold, hnew, h.pending, LineInput.insert, if_neg (by omega)]
  ready hr := absurd hr Bool.false_ne_true

/-- **The last character is taken back**, and no line is ready. -/
theorem removed (h : Holds t l) (hsome : 0 < t.kbdLineCnt) :
    Holds (setLineByte { t with kbdReady := false, kbdLineCnt := t.kbdLineCnt - 1 }
      (t.kbdLineCnt - 1) 0x0A) l.erase where
  within := h.within.erase
  pending := by
    have hold : (setLineByte { t with kbdReady := false, kbdLineCnt := t.kbdLineCnt - 1 }
        (t.kbdLineCnt - 1) 0x0A).kbdLineBuf.first (t.kbdLineCnt - 1)
        = t.kbdLineBuf.first (t.kbdLineCnt - 1) :=
      Buffer.first_congr (fun j hj => if_neg (Nat.ne_of_lt hj))
    show Buffer.first _ (t.kbdLineCnt - 1) = l.pending.dropLast
    rw [hold, ← h.pending, ← Buffer.dropLast_first, Nat.sub_add_cancel hsome]
  ready hr := absurd hr Bool.false_ne_true

/-- Without a character there is nothing to take back. -/
theorem erase_of_empty (h : Holds t l) (hnone : t.kbdLineCnt = 0) : l.erase = l := by
  have hnil : l.pending = [] := List.length_eq_zero_iff.mp (h.count.symm.trans hnone)
  rw [LineInput.erase, hnil]
  obtain ⟨pending, committed⟩ := l
  exact congrArg (fun p => LineInput.mk p committed) hnil.symm

/-- The newline stored after a full line is past the characters pending. -/
theorem overflowed (h : Holds t l) : Holds (setLineByte t 127 0x0A) l where
  within := h.within
  pending := by
    have hcount := h.count_le
    rw [← h.pending]
    exact Buffer.first_congr (fun j hj => if_neg (show j ≠ 127 by
      have hj' : j < t.kbdLineCnt := hj
      omega))
  ready := h.ready

/-- **The line is entered**: the output buffer holds it. -/
theorem entered (h : Holds t l) : Holds (commitLine t) l.commit where
  within := h.within.commit
  pending := rfl
  ready _ := by
    have hcount := h.count
    have hle := h.count_le
    -- The copy of 128 bytes takes the characters pending and the newline.
    refine ⟨l.pending, l.committed, rfl, ?_, ?_⟩
    · rw [← hcount, ← h.pending]
      refine Buffer.first_congr (fun j hj => ?_)
      show Buffer.copy _ 0 _ 128 j = _
      rw [Buffer.copy_of_mem (Nat.zero_le j) (by omega), Nat.sub_zero]
      exact if_neg (Nat.ne_of_lt hj)
    · rw [← hcount]
      show Buffer.copy _ 0 _ 128 t.kbdLineCnt = _
      rw [Buffer.copy_of_mem (Nat.zero_le _) (by omega), Nat.sub_zero]
      exact if_pos rfl

end Holds

/-! ## The terminals of a kernel -/

/-- The line input of the three terminals. -/
abbrev Inputs := Fin 3 → TermInput

namespace Kernel

/-- **Every terminal holds its line input.** -/
def HoldsInputs (k : Kernel) (inputs : Inputs) : Prop :=
  ∀ t, Holds (k.termArr t) (inputs t)

variable {k : Kernel} {inputs : Inputs}

/-- A change of one terminal and of its line input. -/
theorem HoldsInputs.setTerm (h : k.HoldsInputs inputs) (t : Fin 3) {f : Term → Term}
    {l : TermInput} (hf : Holds (f (k.termArr t)) l) :
    (k.setTerm t f).HoldsInputs (Function.update inputs t l) := fun u => by
  by_cases hu : u = t
  · rw [hu, setTerm_termArr_self, Function.update_self]
    exact hf
  · rw [setTerm_termArr_of_ne _ _ hu, Function.update_of_ne hu]
    exact h u

/-- A change of one terminal that keeps its line input. -/
theorem HoldsInputs.setTerm_keeps (h : k.HoldsInputs inputs) (t : Fin 3)
    {f : Term → Term} (hf : KeepsInput (k.termArr t) (f (k.termArr t))) :
    (k.setTerm t f).HoldsInputs inputs := by
  have hset := h.setTerm t ((h t).of_keepsInput hf)
  rw [Function.update_eq_self] at hset
  exact hset

/-- The screen is no input. -/
theorem HoldsInputs.console (h : k.HoldsInputs inputs) (c : Console) :
    { k with console := c }.HoldsInputs inputs := h

/-! ## The keyboard -/

/-- **What a character does to the line input.** -/
def keyInput (l : TermInput) (c : UInt8) : TermInput :=
  if c = 0x08 then l.erase
  else if c = 0 ∨ c = 1 ∨ c = 0x09 then l
  else if c = 0x0A then l.commit
  else l.insert 127 c

/-- The characters that are not put into the line. -/
theorem keyInput_ignored {l : TermInput} {c : UInt8} (h : c = 0 ∨ c = 1 ∨ c = 0x09) :
    keyInput l c = l := by
  have hback : c ≠ 0x08 := by
    rintro rfl
    exact absurd h (by decide)
  rw [keyInput, if_neg hback, if_pos h]

theorem keyInput_newline (l : TermInput) : keyInput l 0x0A = l.commit := rfl

/-- The others are. -/
theorem keyInput_insert {l : TermInput} {c : UInt8} (hback : c ≠ 0x08)
    (hchar : ¬ (c = 0 ∨ c = 1 ∨ c = 0x09)) (hnewline : c ≠ 0x0A) :
    keyInput l c = l.insert 127 c := by
  rw [keyInput, if_neg hback, if_neg hchar, if_neg hnewline]

/-- A full line takes no character but the newline. -/
theorem keyInput_full {l : TermInput} {c : UInt8} (hfull : 127 ≤ l.pending.length)
    (hback : c ≠ 0x08) (hnewline : c ≠ 0x0A) : keyInput l c = l := by
  rw [keyInput, if_neg hback, if_neg hnewline, LineInput.insert, if_pos hfull, ite_self]

/-- **What a key does to the line inputs**: its character goes to the
terminal on display, unless Ctrl is held. -/
def typed (k : Kernel) (sc : UInt8) (inputs : Inputs) : Inputs :=
  let r := k.scancodeDecoder sc
  if r.2.ctrlFlag then inputs
  else Function.update inputs r.2.termFlag (keyInput (inputs r.2.termFlag) r.1)

/-- **A terminal switch** leaves the line inputs alone. -/
theorem HoldsInputs.switchTo (h : k.HoldsInputs inputs) (t : Fin 3) :
    (k.switchTo t).HoldsInputs inputs := by
  have hsaved := h.setTerm_keeps k.termFlag (f := fun u => saveTerm u k.console)
    ⟨rfl, rfl, rfl, fun hr => hr⟩
  exact hsaved.setTerm_keeps t (f := fun _ => (switchTerm _ _).1)
    ⟨rfl, rfl, rfl, fun hr => hr⟩

theorem HoldsInputs.scancodeDecoder (h : k.HoldsInputs inputs) (sc : UInt8) :
    (k.scancodeDecoder sc).2.HoldsInputs inputs := by
  have hmod : (k.modifiers sc).HoldsInputs inputs := h
  show ((k.modifiers sc).switchKey sc).HoldsInputs inputs
  unfold switchKey
  split
  · exact hmod.switchTo 0
  · split
    · exact hmod.switchTo 1
    · split
      · exact hmod.switchTo 2
      · exact hmod

/-- **`remove_op` erases a character.** -/
theorem HoldsInputs.removeOp (h : k.HoldsInputs inputs) :
    k.removeOp.HoldsInputs
      (Function.update inputs k.termFlag (inputs k.termFlag).erase) := by
  have hself := h k.termFlag
  have hready := h.setTerm_keeps k.termFlag (f := fun t => { t with kbdReady := false })
    ⟨rfl, rfl, rfl, fun hr => absurd hr Bool.false_ne_true⟩
  unfold Kernel.removeOp
  dsimp only
  split
  · rename_i hsome
    rw [setTerm_term] at hsome
    refine hready.setTerm k.termFlag (f := fun t =>
      setLineByte { t with kbdLineCnt := t.kbdLineCnt - 1 } (t.kbdLineCnt - 1) 0x0A) ?_
    rw [setTerm_termArr_self]
    exact hself.removed hsome
  · rename_i hnone
    rw [setTerm_term] at hnone
    rw [hself.erase_of_empty (Nat.eq_zero_of_not_pos hnone), Function.update_eq_self]
    exact hready

/-- **`insert_op` enters the line or types a character.** -/
theorem HoldsInputs.insertOp (h : k.HoldsInputs inputs) {c : UInt8} (hback : c ≠ 0x08)
    (hone : c ≠ 1) :
    (k.insertOp c).HoldsInputs
      (Function.update inputs k.termFlag (keyInput (inputs k.termFlag) c)) := by
  have hself := h k.termFlag
  unfold Kernel.insertOp
  split
  · -- No room: the character is dropped.
    rename_i hfull
    have hfull' : 127 ≤ (inputs k.termFlag).pending.length := hself.count ▸ hfull.1
    rw [keyInput_full hfull' hback hfull.2]
    exact h.setTerm k.termFlag hself.overflowed
  · rename_i hroom
    split
    · rename_i hblank
      rw [keyInput_ignored (by tauto), Function.update_eq_self]
      exact h
    · rename_i hblank
      split
      · rename_i hnewline
        rw [hnewline, keyInput_newline]
        exact h.setTerm k.termFlag (f := commitLine) hself.entered
      · rename_i hnewline
        have hcount : (k.termArr k.termFlag).kbdLineCnt < 127 :=
          Nat.not_le.mp (fun hle => hroom ⟨hle, hnewline⟩)
        rw [keyInput_insert hback (by tauto) hnewline]
        exact h.setTerm k.termFlag (f := fun t => setLineByte
          { t with kbdReady := false, kbdLineCnt := t.kbdLineCnt + 1 } t.kbdLineCnt c)
          (hself.typed hnewline hcount)

/-- **The keyboard interrupt handler refines the line inputs.** -/
theorem HoldsInputs.kbdIntrHandler (h : k.HoldsInputs inputs) (sc : UInt8) :
    (k.kbdIntrHandler sc).HoldsInputs (k.typed sc inputs) := by
  have hdecode := h.scancodeDecoder sc
  unfold Kernel.kbdIntrHandler typed
  generalize k.scancodeDecoder sc = r at hdecode
  dsimp only
  split
  · split
    · exact hdecode.console _
    · exact hdecode
  · refine HoldsInputs.console ?_ _
    split
    · rename_i hback
      rw [keyInput, if_pos hback]
      exact hdecode.removeOp
    · rename_i hback
      split
      · rename_i hchar
        exact hdecode.insertOp hback hchar.2
      · rename_i hchar
        rw [keyInput_ignored (by tauto), Function.update_eq_self]
        split
        · exact hdecode.console _
        · exact hdecode

end Kernel

end KernelDesign
