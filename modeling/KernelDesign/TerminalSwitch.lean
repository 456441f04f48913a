import KernelDesign.Keyboard

/-!
# One terminal switch

Alt with F1, F2 or F3 goes through `save_term`, `switch_term` and
`map_term`. Both copies of the screen end with the first NUL byte they
meet. On the way out the bytes after it are saved as NUL, and on the way in
they stay what `clear_screen` has made of the screen.

`Switched` lists all that a switch changes, and `scancodeDecoder_cases` says
which scancodes are a switch. The results about sequences of switches use
these and not the definitions.
-/

namespace KernelDesign

namespace Kernel

/-- The scancode of F1, F2 or F3. -/
def switchCode : Fin 3 → UInt8
  | 0 => 0x3B
  | 1 => 0x3C
  | 2 => 0x3D

/-- **The scancode switches to terminal `t`**: it is the key of `t`, Alt is
held, and another terminal is on display. -/
structure SwitchesTo (k : Kernel) (sc : UInt8) (t : Fin 3) : Prop where
  ne : t ≠ k.termFlag
  alt : k.altFlag = true
  code : sc = switchCode t

/-- **What a switch to `t` does.** -/
structure Switched (k : Kernel) (t : Fin 3) (k' : Kernel) : Prop where
  termFlag : k'.termFlag = t
  left : k'.termArr k.termFlag = saveTerm (k.termArr k.termFlag) k.console
  entered : k'.termArr t = { k.termArr t with activated := true }
  others : ∀ u, u ≠ k.termFlag → u ≠ t → k'.termArr u = k.termArr u
  videoMem : ∀ j, k'.console.videoMem j
    = if j < 4096 ∧ j ≤ strlen (k.termArr t).vidBuf 4096 then (k.termArr t).vidBuf j
      else k.console.clearScreen.videoMem j
  screenX : k'.console.screenX = (k.termArr t).cursorX
  screenY : k'.console.screenY = (k.termArr t).cursorY
  paging : k'.paging = k.paging.mapTerm t k.termFlag
    (saveTerm (k.termArr k.termFlag) k.console).vidBuf
  altFlag : k'.altFlag = k.altFlag

/-- The terminals after a switch: the one left has its screen saved, the
one entered is marked as used. -/
theorem switchTo_termArr (k : Kernel) (t u : Fin 3) :
    (k.switchTo t).termArr u
      = let k' := k.setTerm k.termFlag (fun v => saveTerm v k.console)
        if u = t then { k'.termArr t with activated := true } else k'.termArr u := rfl

/-- **A switch to another terminal.** -/
theorem switched_switchTo (k : Kernel) {t : Fin 3} (ht : t ≠ k.termFlag) :
    k.Switched t (k.switchTo t) := by
  have hold : (k.setTerm k.termFlag (fun u => saveTerm u k.console)).termArr t = k.termArr t :=
    setTerm_termArr_of_ne k _ ht
  have hleft : (k.switchTo t).termArr k.termFlag
      = saveTerm (k.termArr k.termFlag) k.console := by
    rw [switchTo_termArr]
    dsimp only
    rw [if_neg ht.symm, setTerm_termArr_self]
  have hconsole : (k.switchTo t).console = (switchTerm (k.termArr t) k.console).2 := by
    rw [← hold]
    rfl
  constructor
  · rfl
  · exact hleft
  · rw [switchTo_termArr]
    dsimp only
    rw [if_pos rfl, hold]
  · intro u hu hut
    rw [switchTo_termArr]
    dsimp only
    rw [if_neg hut, setTerm_termArr_of_ne _ _ hu]
  · intro j
    rw [hconsole]
    rfl
  · rw [hconsole]
    rfl
  · rw [hconsole]
    rfl
  · rw [← hleft]
    rfl
  · rfl

/-- The key of a terminal is no modifier. -/
theorem modifiers_switchCode (k : Kernel) (t : Fin 3) : k.modifiers (switchCode t) = k := by
  obtain rfl | rfl | rfl : t = 0 ∨ t = 1 ∨ t = 2 := by omega
  · rfl
  · rfl
  · rfl

/-- **The scancodes that are a switch**, and what the decoder leaves for the
others. -/
theorem scancodeDecoder_cases (k : Kernel) (sc : UInt8) :
    (∃ t, k.SwitchesTo sc t ∧ (k.scancodeDecoder sc).2 = k.switchTo t)
      ∨ (∀ t, ¬ k.SwitchesTo sc t) ∧ (k.scancodeDecoder sc).2 = k.modifiers sc := by
  by_cases hswitch : ∃ t, k.SwitchesTo sc t
  · obtain ⟨t, ht⟩ := hswitch
    refine Or.inl ⟨t, ht, ?_⟩
    show (k.modifiers sc).switchKey sc = _
    rw [ht.code, modifiers_switchCode]
    have halt := ht.alt
    have hne := ht.ne
    obtain rfl | rfl | rfl : t = 0 ∨ t = 1 ∨ t = 2 := by omega
    · simp [switchKey, switchCode, halt, hne.symm]
    · simp [switchKey, switchCode, halt, hne.symm]
    · simp [switchKey, switchCode, halt, hne.symm]
  · refine Or.inr ⟨fun t ht => hswitch ⟨t, ht⟩, ?_⟩
    show (k.modifiers sc).switchKey sc = _
    -- Each of the three tests of the decoder would be a switch.
    have hno : ∀ t, ¬ (k.termFlag ≠ t ∧ (k.modifiers sc).altFlag = true
        ∧ sc = switchCode t) := by
      rintro t ⟨hne, halt, hcode⟩
      rw [hcode, modifiers_switchCode] at halt
      exact hswitch ⟨t, hne.symm, halt, hcode⟩
    have h0 : ¬ ((k.modifiers sc).termFlag ≠ 0 ∧ (k.modifiers sc).altFlag = true
        ∧ sc = 0x3B) := hno 0
    have h1 : ¬ ((k.modifiers sc).termFlag ≠ 1 ∧ (k.modifiers sc).altFlag = true
        ∧ sc = 0x3C) := hno 1
    have h2 : ¬ ((k.modifiers sc).termFlag ≠ 2 ∧ (k.modifiers sc).altFlag = true
        ∧ sc = 0x3D) := hno 2
    rw [switchKey, if_neg h0, if_neg h1, if_neg h2]

/-! ## The handler -/

/-- **Two kernels show the same**, up to the cursor of the hardware. -/
structure SameView (k k' : Kernel) : Prop where
  termFlag : k'.termFlag = k.termFlag
  termArr : k'.termArr = k.termArr
  videoMem : k'.console.videoMem = k.console.videoMem
  screenX : k'.console.screenX = k.console.screenX
  screenY : k'.console.screenY = k.console.screenY

theorem SameView.trans {k₁ k₂ k₃ : Kernel} (h : SameView k₁ k₂) (h' : SameView k₂ k₃) :
    SameView k₁ k₃ :=
  ⟨h'.termFlag.trans h.termFlag, h'.termArr.trans h.termArr, h'.videoMem.trans h.videoMem,
    h'.screenX.trans h.screenX, h'.screenY.trans h.screenY⟩

/-- The modifiers are not shown. -/
theorem sameView_modifiers (k : Kernel) (sc : UInt8) : SameView k (k.modifiers sc) :=
  ⟨rfl, rfl, rfl, rfl, rfl⟩

/-- **A scancode without a character** is one for the decoder alone. -/
theorem kbdIntrHandler_of_nul {k : Kernel} {sc : UInt8} (h : (k.scancodeDecoder sc).1 = 0) :
    SameView (k.scancodeDecoder sc).2 (k.kbdIntrHandler sc) := by
  unfold kbdIntrHandler
  dsimp only
  rw [h]
  split
  · exact ⟨rfl, rfl, rfl, rfl, rfl⟩
  · exact ⟨rfl, rfl, rfl, rfl, rfl⟩

/-- **What the handler writes after the decoder** is on the screen and in
the terminals. -/
theorem kbdIntrHandler_eq (k : Kernel) (sc : UInt8) :
    ∃ c arr, k.kbdIntrHandler sc
      = { (k.scancodeDecoder sc).2 with console := c, termArr := arr } := by
  have hremove : ∀ k : Kernel, ∃ c arr,
      k.removeOp = { k with console := c, termArr := arr } := fun k => by
    unfold removeOp
    dsimp only
    split
    · exact ⟨_, _, rfl⟩
    · exact ⟨_, _, rfl⟩
  have hinsert : ∀ (k : Kernel) (c : UInt8), ∃ c' arr,
      k.insertOp c = { k with console := c', termArr := arr } := fun k c => by
    unfold insertOp
    split
    · exact ⟨_, _, rfl⟩
    · split
      · exact ⟨_, _, rfl⟩
      · split
        · exact ⟨_, _, rfl⟩
        · exact ⟨_, _, rfl⟩
  unfold kbdIntrHandler
  generalize k.scancodeDecoder sc = r
  dsimp only
  split
  · split
    · exact ⟨_, _, rfl⟩
    · exact ⟨_, _, rfl⟩
  · split
    · obtain ⟨c, arr, h⟩ := hremove r.2
      rw [h]
      exact ⟨_, _, rfl⟩
    · split
      · obtain ⟨c, arr, h⟩ := hinsert r.2 r.1
        rw [h]
        exact ⟨_, _, rfl⟩
      · split
        · exact ⟨_, _, rfl⟩
        · exact ⟨_, _, rfl⟩

/-- Alt is the decoder's business. -/
theorem kbdIntrHandler_altFlag (k : Kernel) (sc : UInt8) :
    (k.kbdIntrHandler sc).altFlag = (k.scancodeDecoder sc).2.altFlag := by
  obtain ⟨c, arr, h⟩ := k.kbdIntrHandler_eq sc
  rw [h]

/-- The page tables are the decoder's business. -/
theorem kbdIntrHandler_paging (k : Kernel) (sc : UInt8) :
    (k.kbdIntrHandler sc).paging = (k.scancodeDecoder sc).2.paging := by
  obtain ⟨c, arr, h⟩ := k.kbdIntrHandler_eq sc
  rw [h]

/-- The keyboard does not reach the file system. -/
theorem kbdIntrHandler_fs (k : Kernel) (sc : UInt8) :
    (k.kbdIntrHandler sc).fs = k.fs := by
  obtain ⟨c, arr, h⟩ := k.kbdIntrHandler_eq sc
  rw [h]
  obtain ⟨t, -, ht⟩ | ⟨-, hmod⟩ := k.scancodeDecoder_cases sc
  · rw [ht]
    rfl
  · rw [hmod]
    rfl

end Kernel

end KernelDesign
