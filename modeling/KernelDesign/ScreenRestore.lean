import KernelDesign.Machine
import KernelDesign.TerminalSwitch
import Mathlib.Data.List.GetD

/-!
# Away and back

A user who leaves a terminal with Alt and a function key and comes back
finds the cursor where it was, and of the screen what stood before the
first NUL byte. Behind it is what `clear_screen` leaves, blanks and the
prompt. Further switches change nothing more: what is saved when the
terminal is left again opens with the same bytes and has its first NUL at
the same place.

`screen_restored_iff` states when nothing is lost: no other terminal was
chosen, or the screen has behind its first NUL byte what `clear_screen`
would put there.
-/

namespace KernelDesign

open Kernel

/-! ## The cleared screen -/

/-- The bytes of a row of text, a blank where it has ended. -/
def cellByte (s : List UInt8) (i : ℕ) : UInt8 :=
  if i % 2 = 0 then s.getD (i / 2) 0x20 else 7

/-- **The screen `clear_screen` leaves**: the prompt, and blanks. -/
def promptScreen : Bytes := cellByte (ascii "391OS> ")

namespace Console

/-- A character inside the row. -/
theorem putc_of_lt {c : Console} {ch : UInt8} (hch : ¬ (ch = 0x0A ∨ ch = 0x0D))
    (hx : c.screenX + 1 < 80) :
    (c.putc ch).videoMem = (c.putCell ch).videoMem
      ∧ (c.putc ch).screenX = c.screenX + 1 ∧ (c.putc ch).screenY = c.screenY := by
  have hrow : ¬ 80 ≤ (c.putCell ch).screenX + 1 := Nat.not_le.mpr hx
  unfold putc
  rw [if_neg hch, if_neg hrow]
  exact ⟨rfl, rfl, rfl⟩

/-- **Text inside a row.** -/
theorem puts_videoMem {s : List UInt8} {c : Console} {a : ℕ}
    (hs : ∀ ch ∈ s, ¬ (ch = 0x0A ∨ ch = 0x0D)) (hx : c.screenX + s.length < 80)
    (ha : a = 2 * (80 * c.screenY + c.screenX)) (j : ℕ) :
    (c.puts s).videoMem j
      = if a ≤ j ∧ j < a + 2 * s.length then cellByte s (j - a) else c.videoMem j := by
  induction s generalizing c a with
  | nil => exact (if_neg (by rw [List.length_nil]; omega)).symm
  | cons ch s ih =>
    rw [List.length_cons] at hx ⊢
    obtain ⟨hmem, hx', hy'⟩ := putc_of_lt (hs ch List.mem_cons_self) (c := c) (by omega)
    have hcell : (c.putc ch).videoMem j
        = if j = a then ch else if j = a + 1 then 7 else c.videoMem j := by
      rw [hmem, ha]
      rfl
    show ((c.putc ch).puts s).videoMem j = _
    rw [ih (fun d hd => hs d (List.mem_cons_of_mem ch hd)) (by omega)
      (show a + 2 = _ by rw [hx', hy', ha]; omega), hcell]
    -- The cell of the first character, the cells after it, and the rest.
    by_cases hhere : j = a ∨ j = a + 1
    · have hout : ¬ (a + 2 ≤ j ∧ j < a + 2 + 2 * s.length) := by omega
      have hin : a ≤ j ∧ j < a + 2 * (s.length + 1) := by omega
      rw [if_neg hout, if_pos hin]
      obtain rfl | rfl := hhere
      · simp [cellByte]
      · simp [cellByte]
    · have hne : ¬ j = a ∧ ¬ j = a + 1 := by omega
      rw [if_neg hne.1, if_neg hne.2]
      by_cases hin : a + 2 ≤ j ∧ j < a + 2 + 2 * s.length
      · obtain ⟨i, rfl⟩ : ∃ i, j = a + 2 + i := ⟨j - (a + 2), by omega⟩
        have hin' : a ≤ a + 2 + i ∧ a + 2 + i < a + 2 * (s.length + 1) := by omega
        have hafter : a + 2 + i - (a + 2) = i := by omega
        have hcells : a + 2 + i - a = i + 2 := by omega
        rw [if_pos hin, if_pos hin', hafter, hcells, cellByte, cellByte,
          Nat.add_mod_right, Nat.add_div_right i Nat.two_pos, List.getD_cons_succ]
      · have hout : ¬ (a ≤ j ∧ j < a + 2 * (s.length + 1)) := by omega
        rw [if_neg hin, if_neg hout]

/-- **The cells of a cleared screen.** -/
theorem clearScreen_videoMem (c : Console) {j : ℕ} (hj : j < 4000) :
    c.clearScreen.videoMem j = promptScreen j := by
  unfold clearScreen
  have hroom : 0 + (ascii "391OS> ").length < 80 := by decide
  rw [puts_videoMem (by decide +kernel) hroom rfl]
  show ite (0 ≤ j ∧ j < 14) _ _ = _
  by_cases hprompt : j < 14
  · rw [if_pos ⟨Nat.zero_le j, hprompt⟩]
    rfl
  · have hblank : (ascii "391OS> ").getD (j / 2) 0x20 = 0x20 :=
      List.getD_eq_default _ _ (show 7 ≤ j / 2 by omega)
    rw [if_neg (by omega), promptScreen, cellByte, hblank]
    exact if_pos hj

end Console

/-! ## The keys of a switch -/

/-- **A key of a switch**: Alt or a function key goes down or up. -/
inductive SwitchKey
  | alt
  | altUp
  | function (t : Fin 3)
  | functionUp (t : Fin 3)

namespace SwitchKey

/-- Its scancode. -/
def code : SwitchKey → UInt8
  | alt => 0x38
  | altUp => 0xB8
  | function t => switchCode t
  | functionUp t => switchCode t + 0x80

/-- Whether Alt is held after the key. -/
def altAfter (held : Bool) : SwitchKey → Bool
  | alt => true
  | altUp => false
  | _ => held

/-- The terminal the key chooses. -/
def chosen (held : Bool) : SwitchKey → Option (Fin 3)
  | function t => if held then some t else none
  | _ => none

/-- The scancode of a function key is that of no other key. -/
theorem eq_function {e : SwitchKey} {t : Fin 3} (h : e.code = switchCode t) :
    e = function t := by
  have halt : ∀ t, (0x38 : UInt8) ≠ switchCode t := by decide
  have haltUp : ∀ t, (0xB8 : UInt8) ≠ switchCode t := by decide
  have hup : ∀ u t, switchCode u + 0x80 ≠ switchCode t := by decide
  have hinjective : ∀ u t, switchCode u = switchCode t → u = t := by decide
  cases e with
  | alt => exact absurd h (halt t)
  | altUp => exact absurd h (haltUp t)
  | function u => rw [hinjective u t h]
  | functionUp u => exact absurd h (hup u t)

end SwitchKey

/-- **The terminals chosen** by a sequence of keys. -/
def selections (held : Bool) : List SwitchKey → List (Fin 3)
  | [] => []
  | e :: es => (e.chosen held).toList ++ selections (e.altAfter held) es

namespace Kernel

/-- **The kernel after the keys.** -/
def pressed (k : Kernel) (es : List SwitchKey) : Kernel :=
  es.foldl (fun k e => k.kbdIntrHandler e.code) k

/-- No key of a switch has a character. -/
theorem decodeChar_code (k : Kernel) (e : SwitchKey) : k.decodeChar e.code = 0 := by
  unfold decodeChar
  generalize k.shiftFlag = shift
  generalize k.capsFlag = caps
  cases e with
  | alt => revert shift caps; decide
  | altUp => rfl
  | function t => revert shift caps t; decide
  | functionUp t =>
    obtain rfl | rfl | rfl : t = 0 ∨ t = 1 ∨ t = 2 := by omega
    · rfl
    · rfl
    · rfl

/-- **A key of a switch** switches to the terminal it chooses, or shows
nothing new and chooses no other terminal. -/
theorem kbdIntrHandler_switchKey (k : Kernel) (e : SwitchKey) :
    (k.kbdIntrHandler e.code).altFlag = e.altAfter k.altFlag
      ∧ ((∃ t k', e.chosen k.altFlag = some t ∧ t ≠ k.termFlag ∧ k.Switched t k'
          ∧ SameView k' (k.kbdIntrHandler e.code))
        ∨ (∀ t, e.chosen k.altFlag = some t → t = k.termFlag)
          ∧ SameView k (k.kbdIntrHandler e.code)) := by
  have hview : SameView (k.scancodeDecoder e.code).2 (k.kbdIntrHandler e.code) :=
    kbdIntrHandler_of_nul (decodeChar_code _ e)
  have hmodifiers : (k.modifiers e.code).altFlag = e.altAfter k.altFlag := by
    cases e with
    | alt | altUp => rfl
    | function t => rw [SwitchKey.code, modifiers_switchCode]; rfl
    | functionUp t =>
      obtain rfl | rfl | rfl : t = 0 ∨ t = 1 ∨ t = 2 := by omega
      · rfl
      · rfl
      · rfl
  rw [kbdIntrHandler_altFlag]
  obtain ⟨t, ht, hdecode⟩ | ⟨hno, hdecode⟩ := k.scancodeDecoder_cases e.code
  · rw [hdecode] at hview ⊢
    have hswitched := k.switched_switchTo ht.ne
    have hchosen := SwitchKey.eq_function ht.code
    refine ⟨?_, Or.inl ⟨t, _, ?_, ht.ne, hswitched, hview⟩⟩
    · rw [hswitched.altFlag, hchosen]
      rfl
    · rw [hchosen, ht.alt]
      rfl
  · rw [hdecode] at hview ⊢
    refine ⟨hmodifiers, Or.inr ⟨fun t ht => ?_, (sameView_modifiers k e.code).trans hview⟩⟩
    by_contra hne
    cases e with
    | function u =>
      obtain ⟨halt, hu⟩ : k.altFlag = true ∧ u = t := by
        simpa [SwitchKey.chosen] using ht
      exact hno u ⟨hu ▸ hne, halt, rfl⟩
    | alt | altUp | functionUp => cases ht

/-! ## What the other terminals keep -/

/-- **The bytes open like the screen** of `k`: up to the first NUL. -/
def OpensLike (k : Kernel) (b : Bytes) : Prop :=
  ∀ j, j < 4096 → j ≤ strlen k.console.videoMem 4096 → b j = k.console.videoMem j

/-- They have their first NUL at the same place. -/
theorem OpensLike.strlen_eq {k : Kernel} {b : Bytes} (h : k.OpensLike b) :
    strlen b 4096 = strlen k.console.videoMem 4096 := strlen_congr h

/-- **A copy that stops at the first NUL** opens like what it copies. -/
theorem OpensLike.copy {k : Kernel} {b b' : Bytes} (h : k.OpensLike b)
    (hcopy : ∀ j, j < 4096 → j ≤ strlen b 4096 → b' j = b j) : k.OpensLike b' :=
  fun j hj hstop => (hcopy j hj (h.strlen_eq ▸ hstop)).trans (h j hj hstop)

/-- **Where the keys have led** from the kernel `k`: nowhere else, to
another terminal, or back. -/
inductive Whereabouts (k k' : Kernel) (left : Prop) : Prop
  | home (hleft : ¬ left) (hview : SameView k k')
  | away (hleft : left) (hflag : k'.termFlag ≠ k.termFlag)
      (hbuf : k.OpensLike (k'.termArr k.termFlag).vidBuf)
      (hx : (k'.termArr k.termFlag).cursorX = k.console.screenX)
      (hy : (k'.termArr k.termFlag).cursorY = k.console.screenY)
  | back (hleft : left) (hflag : k'.termFlag = k.termFlag)
      (hopens : k.OpensLike k'.console.videoMem)
      (hrest : ∀ j, strlen k.console.videoMem 4096 < j → j < 4000 →
        k'.console.videoMem j = promptScreen j)
      (hx : k'.console.screenX = k.console.screenX)
      (hy : k'.console.screenY = k.console.screenY)

namespace Whereabouts

variable {k k₁ k₂ : Kernel} {left : Prop}

/-- It depends on what is shown. -/
theorem of_sameView (h : Whereabouts k k₁ left) (hview : SameView k₁ k₂) :
    Whereabouts k k₂ left := by
  cases h with
  | home hleft hsame => exact home hleft (hsame.trans hview)
  | away hleft hflag hbuf hx hy =>
    rw [← hview.termArr] at hbuf hx hy
    exact away hleft (hview.termFlag ▸ hflag) hbuf hx hy
  | back hleft hflag hopens hrest hx hy =>
    rw [← hview.videoMem] at hopens hrest
    exact back hleft (hview.termFlag.trans hflag) hopens hrest (hview.screenX.trans hx)
      (hview.screenY.trans hy)

/-- **Leaving the terminal** saves its screen and its cursor. -/
theorem leave {t : Fin 3} (hflag : k₁.termFlag = k.termFlag)
    (hopens : k.OpensLike k₁.console.videoMem) (hx : k₁.console.screenX = k.console.screenX)
    (hy : k₁.console.screenY = k.console.screenY) (ht : t ≠ k₁.termFlag)
    (hswitched : k₁.Switched t k₂) : Whereabouts k k₂ True := by
  have hleft := hswitched.left
  rw [hflag] at hleft ht
  refine away trivial (hswitched.termFlag ▸ ht) (hopens.copy (fun j hj hstop => ?_)) ?_ ?_
  · rw [hleft]
    exact (if_pos hj).trans (if_pos hstop)
  · rw [hleft]
    exact hx
  · rw [hleft]
    exact hy

/-- **A switch** leaves the terminal, or goes on from another one. -/
theorem switch {t : Fin 3} (h : Whereabouts k k₁ left) (ht : t ≠ k₁.termFlag)
    (hswitched : k₁.Switched t k₂) : Whereabouts k k₂ True := by
  cases h with
  | home hleft hsame =>
    exact leave hsame.termFlag (fun j _ _ => congrFun hsame.videoMem j) hsame.screenX
      hsame.screenY ht hswitched
  | back hleft hflag hopens hrest hx hy => exact leave hflag hopens hx hy ht hswitched
  | away hleft hflag hbuf hx hy =>
    by_cases hback : t = k.termFlag
    · subst hback
      have hstop := hbuf.strlen_eq
      refine back trivial hswitched.termFlag (hbuf.copy (fun j hj hj' => ?_))
        (fun j hj hj' => ?_) (hswitched.screenX.trans hx) (hswitched.screenY.trans hy)
      · rw [hswitched.videoMem, if_pos ⟨hj, hj'⟩]
      · rw [hswitched.videoMem, if_neg (by omega)]
        exact Console.clearScreen_videoMem _ hj'
    · have hkept := hswitched.others k.termFlag hflag.symm (Ne.symm hback)
      rw [← hkept] at hbuf hx hy
      exact away trivial (hswitched.termFlag ▸ hback) hbuf hx hy

theorem congr {left' : Prop} (h : Whereabouts k k₁ left) (hiff : left' ↔ left) :
    Whereabouts k k₁ left' := (propext hiff) ▸ h

/-- Whoever is elsewhere has left. -/
theorem left_of_ne (h : Whereabouts k k₁ left) (hne : k₁.termFlag ≠ k.termFlag) : left := by
  cases h with
  | home hleft hsame => exact absurd hsame.termFlag hne
  | away hleft | back hleft => exact hleft

/-- **One key.** -/
theorem key (h : Whereabouts k k₁ left) (e : SwitchKey) :
    Whereabouts k (k₁.kbdIntrHandler e.code)
      (left ∨ ∃ t, e.chosen k₁.altFlag = some t ∧ t ≠ k.termFlag) := by
  obtain ⟨-, ⟨t, k', hchosen, ht, hswitched, hview⟩ | ⟨hsame, hview⟩⟩ :=
    k₁.kbdIntrHandler_switchKey e
  · refine ((h.switch ht hswitched).of_sameView hview).congr (iff_of_true ?_ trivial)
    by_cases hback : t = k.termFlag
    · exact Or.inl (h.left_of_ne (hback ▸ ht.symm))
    · exact Or.inr ⟨t, hchosen, hback⟩
  · refine (h.of_sameView hview).congr ⟨fun hor => ?_, Or.inl⟩
    obtain hleft | ⟨t, hchosen, hne⟩ := hor
    · exact hleft
    · exact h.left_of_ne (hsame t hchosen ▸ hne)

/-- **Any sequence of keys.** -/
theorem pressed (h : Whereabouts k k₁ left) (es : List SwitchKey) :
    Whereabouts k (k₁.pressed es)
      (left ∨ ∃ t ∈ selections k₁.altFlag es, t ≠ k.termFlag) := by
  induction es generalizing k₁ left with
  | nil => exact h.congr ⟨fun hor => hor.elim id (by simp [selections]), Or.inl⟩
  | cons e es ih =>
    have halt := (k₁.kbdIntrHandler_switchKey e).1
    refine (ih (h.key e)).congr ?_
    rw [halt]
    simp only [selections, List.mem_append, Option.mem_toList, or_and_right, exists_or,
      or_assoc]

end Whereabouts

/-! ## When the screen comes back -/

/-- **The same screen**: the 4000 visible bytes and the two coordinates. -/
structure SameScreen (k k' : Kernel) : Prop where
  videoMem : ∀ j, j < 4000 → k'.console.videoMem j = k.console.videoMem j
  screenX : k'.console.screenX = k.console.screenX
  screenY : k'.console.screenY = k.console.screenY

/-- **When switching away and back restores the screen**: exactly when no
other terminal was chosen, or the screen has behind its first NUL byte what
`clear_screen` leaves there. -/
theorem screen_restored_iff {k : Kernel} {es : List SwitchKey}
    (hend : (k.pressed es).termFlag = k.termFlag) :
    k.SameScreen (k.pressed es)
      ↔ (∀ t ∈ selections k.altFlag es, t = k.termFlag)
        ∨ ∀ j, strlen k.console.videoMem 4096 < j → j < 4000 →
          k.console.videoMem j = promptScreen j := by
  have hstart : Whereabouts k k False := .home not_false ⟨rfl, rfl, rfl, rfl, rfl⟩
  cases hstart.pressed es with
  | home hleft hview =>
    refine iff_of_true ⟨fun j _ => congrFun hview.videoMem j, hview.screenX, hview.screenY⟩
      (Or.inl (fun t ht => ?_))
    by_contra hne
    exact hleft (Or.inr ⟨t, ht, hne⟩)
  | away hleft hflag => exact absurd hend hflag
  | back hleft hflag hopens hrest hx hy =>
    obtain ⟨t, ht, hne⟩ := hleft.resolve_left not_false
    constructor
    · intro hsame
      refine Or.inr (fun j hstop hj => ?_)
      rw [← hsame.videoMem j hj, hrest j hstop hj]
    · rintro (hstayed | hprompt)
      · exact absurd (hstayed t ht) hne
      · refine ⟨fun j hj => ?_, hx, hy⟩
        by_cases hstop : strlen k.console.videoMem 4096 < j
        · rw [hrest j hstop hj, hprompt j hstop hj]
        · exact hopens j (by omega) (Nat.not_lt.mp hstop)

/-- A screen of letters survives a round over all three terminals. -/
theorem screen_restored_letters :
    SameScreen { loadedKernel with console := ⟨5, 3, fun _ => 0x41, 0⟩ }
      (pressed { loadedKernel with console := ⟨5, 3, fun _ => 0x41, 0⟩ }
        [.alt, .function 1, .function 2, .function 0, .altUp]) := by
  refine (screen_restored_iff rfl).mpr (Or.inr (fun j hstop hj => ?_))
  have hnul : strlen (fun _ => 0x41) 4096 = 0 + 4096 :=
    Scan.scan_eq_bound (fun _ _ _ => rfl)
  rw [hnul] at hstop
  omega

/-- **A screen that is lost**: one letter and NUL bytes behind it, drawn by a
program. After Alt+F2 and Alt+F1 the prompt is on the screen. -/
theorem screen_lost_behind_nul :
    let k := { loadedKernel with console := ⟨1, 0, cstring "a\x07", 0⟩ }
    let k' := k.pressed [.alt, .function 1, .function 0]
    k'.termFlag = k.termFlag ∧ k.console.videoMem 4 = 0 ∧ k'.console.videoMem 4 = 0x31
      ∧ ¬ k.SameScreen k' := by
  have hdiffer : ∀ k k' : Kernel, k.console.videoMem 4 = 0 →
      k'.console.videoMem 4 = 0x31 → ¬ k.SameScreen k' := by
    intro k k' h h' hsame
    have heq := hsame.videoMem 4 (by decide)
    rw [h, h'] at heq
    exact absurd heq (by decide)
  have hlost : (pressed { loadedKernel with console := ⟨1, 0, cstring "a\x07", 0⟩ }
      [.alt, .function 1, .function 0]).console.videoMem 4 = 0x31 := by decide +kernel
  exact ⟨rfl, rfl, hlost, hdiffer _ _ rfl hlost⟩

end Kernel

end KernelDesign
