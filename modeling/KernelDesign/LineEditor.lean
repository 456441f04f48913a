import KernelDesign.Bookkeeping
import KernelDesign.LineDiscipline

/-!
# The line editor

Keys and reads at the three terminals, with a log beside them of the
characters that reached `insert_op` or `remove_op` and of the terminal on
display then. What the editor is for is the text of the log: the characters
of a terminal since its last Enter, edited by `editLine`.

`line_editing` is what holds after every run: an Enter puts the text of the
terminal into its output buffer, a read takes the text of the last Enter,
and every index into `kbd_line_buf` is below 128. The handler is read
through `charEffect`, which is all that a character does to a terminal.
-/

namespace KernelDesign

open Kernel Transition

/-! ## The reference editor -/

/-- **A character edits a line**: Backspace takes the last character away,
and a character that is no tab is appended while there are fewer than 127. -/
def editLine (s : List UInt8) (c : UInt8) : List UInt8 :=
  if c = 0x08 then s.dropLast
  else if c = 0x09 then s
  else if s.length < 127 then s ++ [c]
  else s

/-- **The text of a terminal**: the characters since its last newline,
edited. -/
def lineText (cs : List UInt8) : List UInt8 := LineInput.text editLine 0x0A cs

/-- The characters of terminal `t` in a log. -/
def onTerminal (log : List (Fin 3 × UInt8)) (t : Fin 3) : List UInt8 :=
  (log.filter (fun e => e.1 = t)).map Prod.snd

/-! ## What a character does -/

/-- **The terminal after a character** that reached `remove_op` or
`insert_op`. -/
def charEffect (t : Term) (c : UInt8) : Term :=
  if c = 0x08 then
    if 0 < t.kbdLineCnt then
      setLineByte { t with kbdReady := false, kbdLineCnt := t.kbdLineCnt - 1 }
        (t.kbdLineCnt - 1) 0x0A
    else { t with kbdReady := false }
  else if 127 ≤ t.kbdLineCnt ∧ c ≠ 0x0A then setLineByte t 127 0x0A
  else if c = 0x09 then t
  else if c = 0x0A then commitLine t
  else
    setLineByte { t with kbdReady := false, kbdLineCnt := t.kbdLineCnt + 1 }
      t.kbdLineCnt c

/-- **The indices into `kbd_line_buf`** of `remove_op` and `insert_op`, those
of the copy and of the clear at a newline included. -/
def charIndices (t : Term) (c : UInt8) : List ℕ :=
  if c = 0x08 then
    if 0 < t.kbdLineCnt then [t.kbdLineCnt - 1] else []
  else if 127 ≤ t.kbdLineCnt ∧ c ≠ 0x0A then [127]
  else if c = 0x09 then []
  else if c = 0x0A then t.kbdLineCnt :: List.range 128
  else [t.kbdLineCnt]

/-- An index of a terminal with a line input is below 128. -/
theorem lt_of_mem_charIndices {t : Term} {c : UInt8} {i : ℕ} (hcount : t.kbdLineCnt ≤ 127)
    (h : i ∈ charIndices t c) : i < 128 := by
  unfold charIndices at h
  split at h
  · split at h
    · rw [List.mem_singleton.mp h]
      omega
    · exact absurd h List.not_mem_nil
  · split at h
    · rw [List.mem_singleton.mp h]
      omega
    · split at h
      · exact absurd h List.not_mem_nil
      · split at h
        · obtain rfl | hrange := List.mem_cons.mp h
          · omega
          · exact List.mem_range.mp hrange
        · rw [List.mem_singleton.mp h]
          omega

/-- **A cell that is not indexed** keeps its character. -/
theorem charEffect_kbdLineBuf {t : Term} {c : UInt8} {j : ℕ} (h : j ∉ charIndices t c) :
    (charEffect t c).kbdLineBuf j = t.kbdLineBuf j := by
  unfold charIndices at h
  unfold charEffect
  split at h
  · rw [if_pos ‹_›]
    split at h
    · rw [if_pos ‹_›]
      exact if_neg (fun hj => h (List.mem_singleton.mpr hj))
    · rw [if_neg ‹_›]
  · rw [if_neg ‹_›]
    split at h
    · rw [if_pos ‹_›]
      exact if_neg (fun hj => h (List.mem_singleton.mpr hj))
    · rw [if_neg ‹_›]
      split at h
      · rw [if_pos ‹_›]
      · rw [if_neg ‹_›]
        split at h
        · rw [if_pos ‹_›]
          have hout := not_or.mp (fun hor => h (List.mem_cons.mpr hor))
          have hclear : 128 ≤ j := Nat.not_lt.mp (fun hj => hout.2 (List.mem_range.mpr hj))
          exact (Buffer.fill_of_le hclear).trans (if_neg hout.1)
        · rw [if_neg ‹_›]
          exact if_neg (fun hj => h (List.mem_singleton.mpr hj))

/-- **The output buffer is kept** by a character that is no newline. -/
theorem charEffect_kbdOutBuf {t : Term} {c : UInt8} (h : c ≠ 0x0A) :
    (charEffect t c).kbdOutBuf = t.kbdOutBuf := by
  unfold charEffect
  split
  · split
    · rfl
    · rfl
  · split
    · rfl
    · split
      · rfl
      · rfl

namespace Kernel

/-- **The character a scancode has for the line**, and the terminal it is
for: none while Ctrl is held, and none for a key without a character. -/
def reached (k : Kernel) (sc : UInt8) : Option (Fin 3 × UInt8) :=
  let r := k.scancodeDecoder sc
  if r.2.ctrlFlag ∨ r.1 = 0 ∨ r.1 = 1 then none else some (r.2.termFlag, r.1)

/-- **`remove_op` is the effect of Backspace.** -/
theorem removeOp_termArr (k : Kernel) (u : Fin 3) :
    k.removeOp.termArr u
      = if u = k.termFlag then charEffect (k.termArr u) 0x08 else k.termArr u := by
  by_cases hu : u = k.termFlag
  · subst hu
    by_cases hcount : 0 < (k.termArr k.termFlag).kbdLineCnt
    · simp [removeOp, charEffect, syncCursor, setTerm, term, hcount]
    · simp [removeOp, charEffect, setTerm, term, hcount]
  · by_cases hcount : 0 < (k.termArr k.termFlag).kbdLineCnt
    · simp [removeOp, syncCursor, setTerm, term, hcount, hu]
    · simp [removeOp, setTerm, term, hcount, hu]

/-- **`insert_op` is the effect of any other character.** -/
theorem insertOp_termArr (k : Kernel) {c : UInt8} (hback : c ≠ 0x08) (hnul : c ≠ 0)
    (u : Fin 3) :
    (k.insertOp c).termArr u
      = if u = k.termFlag then charEffect (k.termArr u) c else k.termArr u := by
  unfold insertOp charEffect
  rw [if_neg hback]
  by_cases hfull : 127 ≤ k.term.kbdLineCnt ∧ c ≠ 0x0A
  · rw [if_pos hfull]
    by_cases hu : u = k.termFlag
    · subst hu
      rw [if_pos rfl, setTerm_termArr_self]
      exact (if_pos hfull).symm
    · rw [if_neg hu, setTerm_termArr_of_ne _ _ hu]
  · rw [if_neg hfull]
    by_cases hu : u = k.termFlag
    · subst hu
      have hfull' : ¬ (127 ≤ (k.termArr k.termFlag).kbdLineCnt ∧ c ≠ 0x0A) := hfull
      rw [if_pos rfl, if_neg hfull']
      by_cases htab : c = 0x09
      · simp [htab]
      · by_cases hnewline : c = 0x0A
        · simp [hnewline, syncCursor, setTerm]
        · simp [htab, hnul, hnewline, syncCursor, setTerm]
    · rw [if_neg hu]
      by_cases htab : c = 0x09
      · simp [htab]
      · by_cases hnewline : c = 0x0A
        · simp [hnewline, syncCursor, setTerm, hu]
        · simp [htab, hnul, hnewline, syncCursor, setTerm, hu]

/-- **A key is the effect of its character** on the terminal it is for. -/
theorem kbdIntrHandler_termArr (k : Kernel) (sc : UInt8) (u : Fin 3) :
    (k.kbdIntrHandler sc).termArr u
      = match k.reached sc with
        | none => (k.scancodeDecoder sc).2.termArr u
        | some (t, c) =>
          if u = t then charEffect ((k.scancodeDecoder sc).2.termArr u) c
          else (k.scancodeDecoder sc).2.termArr u := by
  unfold kbdIntrHandler reached
  generalize k.scancodeDecoder sc = r
  obtain ⟨c, k⟩ := r
  dsimp only
  by_cases hctrl : k.ctrlFlag = true
  · rw [if_pos hctrl, if_pos (Or.inl hctrl)]
    split
    · rfl
    · rfl
  · rw [if_neg hctrl]
    by_cases hback : c = 0x08
    · subst hback
      rw [if_pos rfl, if_neg (by simp [hctrl])]
      exact removeOp_termArr k u
    · rw [if_neg hback]
      by_cases hchar : c ≠ 0 ∧ c ≠ 1
      · rw [if_pos hchar, if_neg (by simp [hctrl, hchar])]
        exact insertOp_termArr k hback hchar.1 u
      · have hnone : c = 0 ∨ c = 1 := by
          by_contra hsome
          exact hchar (not_or.mp hsome)
        rw [if_neg hchar, if_pos (Or.inr hnone)]
        split
        · rfl
        · rfl

/-- **The same line**: what a terminal keeps of its input. -/
structure SameLine (t t' : Term) : Prop where
  count : t'.kbdLineCnt = t.kbdLineCnt
  lineBuf : t'.kbdLineBuf = t.kbdLineBuf
  outBuf : t'.kbdOutBuf = t.kbdOutBuf
  ready : t'.kbdReady = t.kbdReady

/-- **The decoder leaves the lines alone.** -/
theorem scancodeDecoder_sameLine (k : Kernel) (sc : UInt8) (u : Fin 3) :
    SameLine (k.termArr u) ((k.scancodeDecoder sc).2.termArr u) := by
  obtain ⟨t, ht, hdecode⟩ | ⟨-, hdecode⟩ := k.scancodeDecoder_cases sc
  · have hswitched := k.switched_switchTo ht.ne
    rw [hdecode]
    by_cases hleft : u = k.termFlag
    · rw [hleft, hswitched.left]
      exact ⟨rfl, rfl, rfl, rfl⟩
    · by_cases hentered : u = t
      · rw [hentered, hswitched.entered]
        exact ⟨rfl, rfl, rfl, rfl⟩
      · rw [hswitched.others u hleft hentered]
        exact ⟨rfl, rfl, rfl, rfl⟩
  · rw [hdecode]
    exact ⟨rfl, rfl, rfl, rfl⟩

/-- A key of another terminal, or none, leaves a terminal its line. -/
theorem kbdIntrHandler_sameLine {k : Kernel} {sc : UInt8} {u : Fin 3}
    (h : ∀ t c, k.reached sc = some (t, c) → u ≠ t) :
    SameLine (k.termArr u) ((k.kbdIntrHandler sc).termArr u) := by
  rw [kbdIntrHandler_termArr]
  split
  · exact k.scancodeDecoder_sameLine sc u
  · rename_i t c hreached
    rw [if_neg (h t c hreached)]
    exact k.scancodeDecoder_sameLine sc u

/-- A character has its effect on the decoded terminal, which has the same
line. -/
theorem kbdIntrHandler_of_reached {k : Kernel} {sc : UInt8} {t : Fin 3} {c : UInt8}
    (h : k.reached sc = some (t, c)) :
    ∃ u, SameLine (k.termArr t) u ∧ (k.kbdIntrHandler sc).termArr t = charEffect u c := by
  refine ⟨_, k.scancodeDecoder_sameLine sc t, ?_⟩
  rw [kbdIntrHandler_termArr, h]
  exact if_pos rfl

/-- **The indices a scancode uses** into the `kbd_line_buf` of the terminal
it is for. -/
def lineIndices (k : Kernel) (sc : UInt8) : List ℕ :=
  match k.reached sc with
  | none => []
  | some (t, c) => charIndices (k.termArr t) c

/-- Only indexed cells change. -/
theorem kbdIntrHandler_kbdLineBuf {k : Kernel} {sc : UInt8} {j : ℕ}
    (h : j ∉ k.lineIndices sc) (u : Fin 3) :
    ((k.kbdIntrHandler sc).termArr u).kbdLineBuf j = (k.termArr u).kbdLineBuf j := by
  have hsame := k.scancodeDecoder_sameLine sc
  have hkeep : ((k.scancodeDecoder sc).2.termArr u).kbdLineBuf j
      = (k.termArr u).kbdLineBuf j := congrFun (hsame u).lineBuf j
  rw [kbdIntrHandler_termArr]
  unfold lineIndices at h
  split
  · exact hkeep
  · rename_i t c hreached
    rw [hreached] at h
    split
    · rename_i hu
      have hindices : charIndices ((k.scancodeDecoder sc).2.termArr u) c
          = charIndices (k.termArr t) c := by
        rw [charIndices, charIndices, (hsame u).count, hu]
      rw [charEffect_kbdLineBuf (by rw [hindices]; exact h)]
      exact hkeep
    · exact hkeep

/-! ## The line inputs and the log -/

/-- **On a character that reaches the line** the line input is that of the
reference editor. -/
theorem keyInput_eq_key (l : TermInput) {c : UInt8} (hnul : c ≠ 0) (hone : c ≠ 1) :
    keyInput l c = l.key editLine 0x0A c := by
  unfold keyInput LineInput.key
  by_cases hback : c = 0x08
  · subst hback
    rfl
  · by_cases htab : c = 0x09
    · subst htab
      rfl
    · rw [if_neg hback, if_neg (by simp [hnul, hone, htab])]
      by_cases hnewline : c = 0x0A
      · rw [if_pos hnewline, if_pos hnewline]
      · rw [if_neg hnewline, if_neg hnewline, LineInput.insert, editLine, if_neg hback,
          if_neg htab]
        by_cases hroom : l.pending.length < 127
        · rw [if_neg (Nat.not_le.mpr hroom), if_pos hroom]
        · rw [if_pos (Nat.not_lt.mp hroom), if_neg hroom]

/-- What reaches the line is a character. -/
theorem reached_cases (k : Kernel) (sc : UInt8) (inputs : Inputs) :
    (k.reached sc = none ∧ k.typed sc inputs = inputs)
      ∨ ∃ t c, k.reached sc = some (t, c)
        ∧ k.typed sc inputs
          = Function.update inputs t ((inputs t).key editLine 0x0A c) := by
  unfold reached typed
  generalize k.scancodeDecoder sc = r
  dsimp only
  by_cases hctrl : r.2.ctrlFlag = true
  · exact Or.inl ⟨if_pos (Or.inl hctrl), if_pos hctrl⟩
  · rw [if_neg hctrl]
    by_cases hnone : r.1 = 0 ∨ r.1 = 1
    · refine Or.inl ⟨if_pos (Or.inr hnone), ?_⟩
      rw [keyInput_ignored (by tauto), Function.update_eq_self]
    · obtain ⟨hnul, hone⟩ := not_or.mp hnone
      refine Or.inr ⟨_, _, if_neg (by simp [hctrl, hnone]), ?_⟩
      rw [keyInput_eq_key _ hnul hone]

end Kernel

/-! ## Sessions -/

/-- **A session at the keyboard**: the kernel, and the characters that
reached the line with their terminals. -/
structure KeySession where
  kernel : Kernel
  log : List (Fin 3 × UInt8)

/-- A scancode arrives, or someone calls `term_read`. -/
inductive KeyEvent
  | key (sc : UInt8)
  | read (buf : Option Bytes) (nbytes : ℤ)

theorem onTerminal_concat (log : List (Fin 3 × UInt8)) (t : Fin 3) (c : UInt8) :
    onTerminal (log ++ [(t, c)])
      = Function.update (onTerminal log) t (onTerminal log t ++ [c]) := by
  funext u
  by_cases hu : u = t
  · subst hu
    rw [Function.update_self]
    simp [onTerminal]
  · rw [Function.update_of_ne hu]
    simp [onTerminal, Ne.symm hu]

namespace KeySession

/-- The session after `kbd_init` has cleared the terminals. -/
def start (k : Kernel) : KeySession := ⟨k.kbdInit, []⟩

/-- The text of terminal `t` so far. -/
def text (s : KeySession) (t : Fin 3) : List UInt8 := lineText (onTerminal s.log t)

/-- **A step of a session.** A read that has to wait has no step. -/
def step (s : KeySession) : KeyEvent → Option KeySession
  | .key sc => some ⟨s.kernel.kbdIntrHandler sc, s.log ++ (s.kernel.reached sc).toList⟩
  | .read buf nbytes =>
    match termRead s.kernel buf nbytes with
    | .ok r => some { s with kernel := r.kernel }
    | .error _ => none

/-- **The line inputs the log makes.** -/
def inputs (s : KeySession) : Inputs := fun t =>
  (onTerminal s.log t).foldl (LineInput.key editLine 0x0A) LineInput.empty

/-- What is pending is the text. -/
theorem inputs_pending (s : KeySession) (t : Fin 3) : (s.inputs t).pending = s.text t :=
  LineInput.pending_foldl_key editLine 0x0A _

/-- **What a session keeps**: the terminals hold the line inputs of the
log. -/
def Inv (s : KeySession) : Prop := s.kernel.HoldsInputs s.inputs

theorem inv_start (k : Kernel) : (start k).Inv := fun _ => Holds.of_empty rfl rfl

/-- A key has made of the log what it has made of the line inputs. -/
theorem inputs_key (s : KeySession) (sc : UInt8) :
    (KeySession.mk (s.kernel.kbdIntrHandler sc)
      (s.log ++ (s.kernel.reached sc).toList)).inputs = s.kernel.typed sc s.inputs := by
  obtain ⟨hnone, htyped⟩ | ⟨t, c, hsome, htyped⟩ := s.kernel.reached_cases sc s.inputs
  · rw [htyped, hnone, Option.toList_none, List.append_nil]
    rfl
  · rw [htyped, hsome]
    funext u
    show List.foldl _ _ (onTerminal (s.log ++ [(t, c)]) u) = _
    rw [onTerminal_concat]
    by_cases hu : u = t
    · subst hu
      rw [Function.update_self, Function.update_self, List.foldl_concat]
      rfl
    · rw [Function.update_of_ne hu, Function.update_of_ne hu]
      rfl

/-- **Every step keeps the line inputs.** -/
theorem Inv.step {s s' : KeySession} {e : KeyEvent} (h : s.Inv) (hstep : s.step e = some s') :
    s'.Inv := by
  cases e with
  | key sc =>
    cases hstep
    unfold Inv
    rw [inputs_key]
    exact h.kbdIntrHandler sc
  | read buf nbytes =>
    rw [KeySession.step] at hstep
    split at hstep
    · rename_i r hread
      cases hstep
      show HoldsInputs r.kernel s.inputs
      obtain hk | hk := termRead_kernel hread
      · rw [hk]
        exact h
      · rw [hk]
        exact h.setTerm_keeps s.kernel.termFlag
          ⟨rfl, rfl, rfl, fun hr => absurd hr Bool.false_ne_true⟩
    · cases hstep

/-- **A read returns the line**: at a moment, of a request that is not
refused. -/
def ReadReturns (k : Kernel) (b : Bytes) (line : List UInt8) : Prop :=
  ∀ nbytes : ℤ, 0 ≤ nbytes →
    ∃ r, termRead k (some b) nbytes = .ok r ∧ Takes b line r ∧ line.length ≤ 127

/-- **The line editor works** at a moment, whatever happens next: an Enter
leaves the text of its terminal in the output buffer, and a read after it
returns that text; an index into `kbd_line_buf` is below 128, and no other
cell changes; and a read returns, if a line is ready, with the text of the
last Enter of the terminal on display, at most 127 bytes, and else it
waits. -/
structure EditsLines (s : KeySession) : Prop where
  enter : ∀ sc t, s.kernel.reached sc = some (t, 0x0A) →
    HoldsLine ((s.kernel.kbdIntrHandler sc).termArr t).kbdOutBuf (s.text t)
      ∧ ((s.kernel.kbdIntrHandler sc).termArr t).kbdReady = true
      ∧ ∀ b, ReadReturns (s.kernel.kbdIntrHandler sc) b (s.text t)
  index : ∀ sc, ∀ i ∈ s.kernel.lineIndices sc, i < 128
  frame : ∀ sc j, j ∉ s.kernel.lineIndices sc → ∀ t,
    ((s.kernel.kbdIntrHandler sc).termArr t).kbdLineBuf j = (s.kernel.termArr t).kbdLineBuf j
  read : s.kernel.term.kbdReady = true →
    ∃ cs₁ cs₂, onTerminal s.log s.kernel.termFlag = cs₁ ++ 0x0A :: cs₂ ∧ 0x0A ∉ cs₂
      ∧ ∀ b, ReadReturns s.kernel b (lineText cs₁)
  waits : s.kernel.term.kbdReady = false → ∀ b nbytes, 0 ≤ nbytes →
    termRead s.kernel (some b) nbytes = .error .wait

/-- **A line that is ready is returned.** -/
theorem readReturns_of_holds {k : Kernel} {inputs : Inputs} (h : k.HoldsInputs inputs)
    {line : List UInt8} {rest : List (List UInt8)}
    (hcommitted : (inputs k.termFlag).committed = line :: rest)
    (hready : k.term.kbdReady = true) (b : Bytes) : ReadReturns k b line := by
  intro nbytes hnbytes
  have hself := h k.termFlag
  obtain ⟨line', rest', hcommitted', hout⟩ := hself.ready hready
  rw [hcommitted] at hcommitted'
  obtain ⟨rfl, rfl⟩ := List.cons.inj hcommitted'
  have hline : IsKbdLine line := hself.within.committed line (hcommitted ▸ List.mem_cons_self)
  obtain ⟨r, hread, htakes, -⟩ := termRead_of_ready (b := b) hnbytes hready hout hline
  exact ⟨r, hread, htakes, hline.1⟩

/-- **A read returns the text of the last Enter.** -/
theorem Inv.read {s : KeySession} (h : s.Inv) (hready : s.kernel.term.kbdReady = true) :
    ∃ cs₁ cs₂, onTerminal s.log s.kernel.termFlag = cs₁ ++ 0x0A :: cs₂ ∧ 0x0A ∉ cs₂
      ∧ ∀ b, ReadReturns s.kernel b (lineText cs₁) := by
  obtain ⟨line, rest, hcommitted, -⟩ := (h s.kernel.termFlag).ready hready
  obtain ⟨cs₁, cs₂, hlog, hlast, rfl⟩ := LineInput.committed_foldl_key hcommitted
  exact ⟨cs₁, cs₂, hlog, hlast, readReturns_of_holds h hcommitted hready⟩

/-- A character reaches the terminal that is then on display. -/
theorem termFlag_of_reached {k : Kernel} {sc : UInt8} {t : Fin 3} {c : UInt8}
    (h : k.reached sc = some (t, c)) : (k.kbdIntrHandler sc).termFlag = t := by
  obtain ⟨c', arr, hk⟩ := k.kbdIntrHandler_eq sc
  rw [hk]
  unfold reached at h
  dsimp only at h
  split at h
  · cases h
  · cases h
    rfl

/-- **An Enter puts the text into the output buffer**, and a read gets it
there. -/
theorem Inv.enter {s : KeySession} (h : s.Inv) {sc : UInt8} {t : Fin 3}
    (hreached : s.kernel.reached sc = some (t, 0x0A)) :
    HoldsLine ((s.kernel.kbdIntrHandler sc).termArr t).kbdOutBuf (s.text t)
      ∧ ((s.kernel.kbdIntrHandler sc).termArr t).kbdReady = true
      ∧ ∀ b, ReadReturns (s.kernel.kbdIntrHandler sc) b (s.text t) := by
  have hready : ((s.kernel.kbdIntrHandler sc).termArr t).kbdReady = true := by
    rw [Kernel.kbdIntrHandler_termArr, hreached]
    dsimp only
    rw [if_pos rfl]
    simp [charEffect, commitLine]
  have hall := h.kbdIntrHandler sc
  have hholds := hall t
  have hflag := termFlag_of_reached hreached
  obtain ⟨hnone, -⟩ | ⟨t', c, hsome, htyped⟩ := s.kernel.reached_cases sc s.inputs
  · rw [hreached] at hnone
    cases hnone
  · rw [hreached] at hsome
    cases hsome
    rw [htyped] at hall hholds
    rw [Function.update_self] at hholds
    obtain ⟨line, rest, hcommitted, hout⟩ := hholds.ready hready
    have hself : (Function.update s.inputs t (LineInput.key editLine 0x0A (s.inputs t) 0x0A)
        (s.kernel.kbdIntrHandler sc).termFlag).committed = line :: rest := by
      rw [hflag, Function.update_self]
      exact hcommitted
    have hreturns := readReturns_of_holds hall hself (by rw [Kernel.term, hflag]; exact hready)
    obtain ⟨rfl, -⟩ := List.cons.inj hcommitted
    rw [← inputs_pending]
    exact ⟨hout, hready, hreturns⟩

/-- **The line discipline is the reference editor** after every run of keys
and reads from the cleared state. -/
theorem line_editing {k : Kernel} {es : List KeyEvent} {s : KeySession}
    (hrun : run step (start k) es = some s) : s.EditsLines := by
  have hinv : s.Inv := run_induction (fun _ _ _ hs hstep => Inv.step hs hstep)
    (inv_start k) hrun
  refine ⟨fun sc t hreached => hinv.enter hreached, fun sc i hi => ?_,
    fun sc j hj => kbdIntrHandler_kbdLineBuf hj, hinv.read,
    fun hready b nbytes hnbytes => termRead_of_not_ready hnbytes hready⟩
  unfold lineIndices at hi
  split at hi
  · exact absurd hi List.not_mem_nil
  · rename_i t c hreached
    exact lt_of_mem_charIndices (hinv t).count_le hi

/-- The keys `b`, Backspace, `a` and Enter, and a read: the next read waits
for the next line. -/
theorem line_editing_read :
    ∃ s, run step (start loadedKernel)
        [.key 0x30, .key 0x0E, .key 0x1E, .key 0x1C, .read (some (fun _ => 0)) 128] = some s
      ∧ s.log = [(0, 0x62), (0, 0x08), (0, 0x61), (0, 0x0A)] ∧ s.EditsLines := by
  have hstate : (run step (start loadedKernel)
      [.key 0x30, .key 0x0E, .key 0x1E, .key 0x1C, .read (some (fun _ => 0)) 128]).map
        (fun s => s.log) = some [(0, 0x62), (0, 0x08), (0, 0x61), (0, 0x0A)] := by
    decide +kernel
  obtain ⟨s, hrun, hlog⟩ := Option.map_eq_some_iff.mp hstate
  exact ⟨s, hrun, hlog, line_editing hrun⟩

end KeySession

end KernelDesign
