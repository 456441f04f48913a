import KernelDesign.Library.PageWalk
import KernelDesign.Machine
import KernelDesign.TerminalSwitch

/-!
# The video page table

`vid_page_table` has an entry for each terminal. `vidmap_helper` points the
first at the text page, and a terminal switch points the entry of the
terminal entered at the text page and that of the terminal left at its
saved screen. So it is meant; `map_term` is passed the address of the saved
screen, and takes the frame from the word at that address. The frame is
what is in the first two cells of the screen.

`vidTable_safe_iff` is that this is the only way an entry can point
elsewhere: along a run of switches and calls of `vidmap_helper`, with
anything drawn on the screen in between, the entries in use name the text
page or a saved screen exactly if the first word of the screen does at
every switch.
-/

namespace KernelDesign

open Kernel PageWalk Transition Words

/-- **A frame the table may name**: the text page, or a page with a part of
a `vid_buf`, the 4096 bytes from `addr t` on. -/
def Allowed (addr : Fin 3 → ℕ) (entry : ℕ) : Prop :=
  entry / 4096 = 0xB8
    ∨ ∃ t, addr t / 4096 ≤ entry / 4096 ∧ entry / 4096 ≤ (addr t + 4095) / 4096

/-- **The table names no foreign frame**: every entry in use is allowed. -/
def TableSafe (addr : Fin 3 → ℕ) (p : Paging) : Prop :=
  ∀ i, i < 1024 → present (p.vidPageTable i) = true → Allowed addr (p.vidPageTable i)

/-- What happens to the table and to the screen: a call of
`vidmap_helper`, a keyboard interrupt, or anything drawn. -/
inductive VidEvent
  | vidmap
  | key (sc : UInt8)
  | draw (screen : Bytes)

/-- A step of such a run. -/
def vidStep (k : Kernel) : VidEvent → Option Kernel
  | .vidmap => some { k with paging := k.paging.vidmapHelper }
  | .key sc => some (k.kbdIntrHandler sc)
  | .draw screen => some { k with console := { k.console with videoMem := screen } }

/-- **The first word of the screen**, where the bytes after the first NUL
count as NUL. -/
def screenWord (c : Console) : ℕ :=
  uint32At (fun j => if j ≤ strlen c.videoMem 4096 then c.videoMem j else 0) 0

/-- **An event that leaves no screen with a foreign word**: a key that
switches terminals does so while the first word of the screen is in a frame
the table may name. -/
def LeavesSafely (addr : Fin 3 → ℕ) (k : Kernel) : VidEvent → Prop
  | .key sc => ∀ t, k.SwitchesTo sc t → Allowed addr (screenWord k.console)
  | .vidmap | .draw _ => True

/-! ## One switch -/

/-- The saved screen opens with the word of the screen. -/
theorem uint32At_saveTerm (t : Term) (c : Console) :
    uint32At (saveTerm t c).vidBuf 0 = screenWord c := by
  have hbyte : ∀ j, j < 4 → (saveTerm t c).vidBuf j
      = if j ≤ strlen c.videoMem 4096 then c.videoMem j else 0 := fun j hj =>
    if_pos (show j < 4096 by omega)
  simp only [screenWord, uint32At, int32At, Nat.zero_add]
  rw [hbyte 0 (by decide), hbyte 1 (by decide), hbyte 2 (by decide), hbyte 3 (by decide)]

/-- The flags of an entry are no part of its frame. -/
theorem or_seven_div (w : ℕ) : (w ||| 7) / 4096 = w / 4096 := by
  have hshift : (w ||| 7) >>> 12 = w >>> 12 := by
    rw [Nat.shiftRight_or_distrib]
    exact Nat.or_zero _
  rwa [Nat.shiftRight_eq_div_pow, Nat.shiftRight_eq_div_pow] at hshift

theorem allowed_or_seven (addr : Fin 3 → ℕ) (w : ℕ) :
    Allowed addr (w ||| 7) ↔ Allowed addr w := by
  rw [Allowed, Allowed, or_seven_div]

/-- An entry made with the flags 7 is in use. -/
theorem present_or_seven (w : ℕ) : present (w ||| 7) = true := by
  rw [present, Nat.testBit_or]
  exact Bool.or_true _

/-- **After `map_term` the table is safe** exactly if the word it was
pointed to is. -/
theorem tableSafe_mapTerm_iff {addr : Fin 3 → ℕ} {p : Paging} {t old : Fin 3} {b : Bytes}
    (h : TableSafe addr p) (ht : t ≠ old) :
    TableSafe addr (p.mapTerm t old b) ↔ Allowed addr (uint32At b 0) := by
  have hne : (old : ℕ) ≠ t := fun heq => ht (Fin.ext heq.symm)
  constructor
  · intro hsafe
    have hentry : (p.mapTerm t old b).vidPageTable old = uint32At b 0 ||| 7 := by
      simp [Paging.mapTerm, hne]
    have hold := hsafe old (by omega)
    rw [hentry, allowed_or_seven] at hold
    exact hold (present_or_seven _)
  · intro hword i hi hpresent
    by_cases hit : i = t
    · have hentry : (p.mapTerm t old b).vidPageTable i = 0xB8000 ||| 7 := by
        simp [Paging.mapTerm, hit]
      rw [hentry]
      exact Or.inl (by decide)
    · by_cases hio : i = old
      · have hentry : (p.mapTerm t old b).vidPageTable i = uint32At b 0 ||| 7 := by
          simp [Paging.mapTerm, hio, hne]
        rw [hentry, allowed_or_seven]
        exact hword
      · have hentry : (p.mapTerm t old b).vidPageTable i = p.vidPageTable i := by
          simp [Paging.mapTerm, hit, hio]
        rw [hentry] at hpresent ⊢
        exact h i hi hpresent

/-- **One step from a safe table** leaves a safe one exactly if it leaves no
screen with a foreign word. -/
theorem tableSafe_step_iff {addr : Fin 3 → ℕ} {k k' : Kernel} {e : VidEvent}
    (h : TableSafe addr k.paging) (hstep : vidStep k e = some k') :
    TableSafe addr k'.paging ↔ LeavesSafely addr k e := by
  cases e with
  | vidmap =>
    cases hstep
    refine iff_of_true (fun i _ hpresent => ?_) trivial
    show Allowed addr (ite (i = 0) _ _)
    by_cases hi : i = 0
    · rw [if_pos hi]
      exact Or.inl (by decide)
    · have hblank : k.paging.vidmapHelper.vidPageTable i = 2 := if_neg hi
      exact absurd (hblank ▸ hpresent) (by decide)
  | draw screen =>
    cases hstep
    exact iff_of_true h trivial
  | key sc =>
    cases hstep
    rw [kbdIntrHandler_paging]
    obtain ⟨t, ht, hdecode⟩ | ⟨hno, hdecode⟩ := k.scancodeDecoder_cases sc
    · have hswitched := k.switched_switchTo ht.ne
      rw [hdecode, hswitched.paging, tableSafe_mapTerm_iff h ht.ne, uint32At_saveTerm]
      exact ⟨fun hword _ _ => hword, fun hleave => hleave t ht⟩
    · rw [hdecode]
      exact iff_of_true h (fun t ht => absurd ht (hno t))

/-! ## Runs -/

/-- **When the video page table names no foreign frame**: along a run from a
table without an entry in use, exactly when no switch leaves a screen whose
first word is in a foreign frame. -/
theorem vidTable_safe_iff (addr : Fin 3 → ℕ) {k : Kernel}
    (hstart : ∀ i, i < 1024 → present (k.paging.vidPageTable i) = false)
    (es : List VidEvent) :
    Along vidStep (fun _ _ k' => TableSafe addr k'.paging) k es
      ↔ Along vidStep (fun k e _ => LeavesSafely addr k e) k es := by
  have hiff : ∀ k e k', TableSafe addr k.paging → vidStep k e = some k' →
      (TableSafe addr k'.paging ↔ LeavesSafely addr k e) :=
    fun _ _ _ hk hstep => tableSafe_step_iff hk hstep
  have hkeep : ∀ k e k', TableSafe addr k.paging → vidStep k e = some k' →
      LeavesSafely addr k e → TableSafe addr k'.paging :=
    fun k e k' hk hstep he => (hiff k e k' hk hstep).mpr he
  refine along_iff hiff hkeep ?_ es
  intro i hi hpresent
  rw [hstart i hi] at hpresent
  exact absurd hpresent Bool.false_ne_true

/-- A screen drawn through `vidmap` whose first word is an address in the
text page: the user may leave for the second terminal. -/
theorem vidTable_safe_text_page :
    Along vidStep (fun _ _ k' => TableSafe (fun t => 0x410000 + 0x1200 * t) k'.paging)
      loadedKernel
      [.vidmap, .draw (cstring "\x01\x8A\x0B"), .key 0x38, .key 0x3C] := by
  refine (vidTable_safe_iff _ (fun i _ => (rfl : present 2 = false)) _).mpr ?_
  refine fun _ h => ⟨trivial, ?_⟩
  cases h
  refine fun _ h => ⟨trivial, ?_⟩
  cases h
  have hword : Allowed (fun t => 0x410000 + 0x1200 * t)
      (screenWord ⟨0, 0, cstring "\x01\x8A\x0B", 0⟩) := Or.inl (by decide)
  refine fun _ h => ⟨fun _ _ => hword, ?_⟩
  cases h
  exact fun _ h => ⟨fun _ _ => hword, along_nil _ _⟩

/-- **An entry for a frame that is not the kernel's**: two letters are on
the screen, and the frame of the entry of the terminal left is `0x07620`,
the letters and their attributes. -/
theorem vidTable_exposes_frame :
    ∃ k', run vidStep loadedKernel
        [.vidmap, .draw (cstring "a\x07b\x07"), .key 0x38, .key 0x3C] = some k'
      ∧ k'.paging.vidPageTable 0 = 0x07620767
      ∧ ¬ TableSafe (fun t => 0x410000 + 0x1200 * t) k'.paging := by
  refine ⟨_, rfl, by decide +kernel, fun hsafe => ?_⟩
  have hentry : ∀ p : Paging, p.vidPageTable 0 = 0x07620767 →
      ¬ TableSafe (fun t => 0x410000 + 0x1200 * t) p := by
    intro p hp hsafe
    have hallowed := hsafe 0 (by decide) (by rw [hp]; decide)
    rw [hp] at hallowed
    exact absurd hallowed (by unfold Allowed; decide)
  exact hentry _ (by decide +kernel) hsafe

end KernelDesign
