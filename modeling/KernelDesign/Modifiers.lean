import KernelDesign.Machine

/-!
# Modifier keys

The decoder sees the keys as a stream of scancodes: a key sends its code
when it goes down, and again while it is held, and its code with bit 7 set
when it goes up; the right Ctrl and Alt and the keys of the cursor block
send a byte `0xE0` before either. Some keys send more: around the code of
Print Screen there are `0xE0 0x2A` and `0xE0 0xAA`, the cursor block sends
such pairs to hide a Shift or Num Lock, and Pause sends
`0xE1 0x1D 0x45 0xE1 0x9D 0xC5` at once. `Keyboard` is what a person at the
keyboard could tell, the keys that are down and how often Caps Lock was
pressed, and the question is whether the four flags of the decoder tell the
same.

Each of Shift, Ctrl and Alt has two keys and one flag, which a press of
either sets and a release of either clears. So the flag goes wrong when one
key is released while the other one is down. It also goes wrong when a byte
that is no modifier key's has the code of one, since the decoder does not
look at what came before it: `0x2A` sets `shift_flag` if Shift is up and
`0xAA` clears it if Shift is down. After every other call it is right
(`along_follows_iff`).
-/

namespace KernelDesign

open Transition

/-! ## Keys -/

/-- **A key**: its code, and whether `0xE0` comes before it. No key with
that byte before it has the code of a Shift key or of Caps Lock as its
own. -/
structure Key where
  extended : Bool
  code : Fin 128
  plain : extended = true → code ≠ 0x2A ∧ code ≠ 0x36 ∧ code ≠ 0x3A
  deriving DecidableEq

namespace Key

/-- The scancode of a press. -/
def makeCode (k : Key) : UInt8 := UInt8.ofNat k.code.val

/-- The scancode of a release. -/
def breakCode (k : Key) : UInt8 := UInt8.ofNat (k.code.val + 128)

/-- The Caps Lock key. -/
def capsLock : Key := ⟨false, 0x3A, nofun⟩

theorem makeCode_eq_iff (k : Key) (c : UInt8) : k.makeCode = c ↔ k.code.val = c.toNat := by
  have hlt := k.code.isLt
  rw [← UInt8.toNat_inj, makeCode, UInt8.toNat_ofNat', Nat.mod_eq_of_lt (by omega)]

theorem breakCode_eq_iff (k : Key) (c : UInt8) :
    k.breakCode = c ↔ k.code.val + 128 = c.toNat := by
  have hlt := k.code.isLt
  rw [← UInt8.toNat_inj, breakCode, UInt8.toNat_ofNat', Nat.mod_eq_of_lt (by omega)]

/-- Keys are the same if their codes and the bytes before these are. -/
theorem eq_iff (k l : Key) : k = l ↔ k.extended = l.extended ∧ k.code.val = l.code.val := by
  obtain ⟨e, c, h⟩ := k
  obtain ⟨e', c', h'⟩ := l
  rw [Key.mk.injEq, Fin.ext_iff]

/-- A key with the code of a Shift key or of Caps Lock is not extended. -/
theorem extended_eq_false {k : Key}
    (h : k.code.val = 0x2A ∨ k.code.val = 0x36 ∨ k.code.val = 0x3A) : k.extended = false := by
  refine Bool.eq_false_iff.mpr (fun hext => ?_)
  obtain ⟨h₁, h₂, h₃⟩ := k.plain hext
  obtain h | h | h := h
  · exact h₁ (Fin.ext h)
  · exact h₂ (Fin.ext h)
  · exact h₃ (Fin.ext h)

end Key

/-- **The modifiers that have two keys and one flag.** -/
inductive Modifier
  | shift
  | ctrl
  | alt
  deriving DecidableEq

namespace Modifier

/-- The key on the left. -/
def left : Modifier → Key
  | shift => ⟨false, 0x2A, nofun⟩
  | ctrl => ⟨false, 0x1D, nofun⟩
  | alt => ⟨false, 0x38, nofun⟩

/-- The key on the right. -/
def right : Modifier → Key
  | shift => ⟨false, 0x36, nofun⟩
  | ctrl => ⟨true, 0x1D, fun _ => by decide⟩
  | alt => ⟨true, 0x38, fun _ => by decide⟩

/-- All three. -/
def all : List Modifier := [shift, ctrl, alt]

theorem mem_all (m : Modifier) : m ∈ all := by
  cases m with
  | shift | ctrl | alt => decide

theorem left_ne_right (m : Modifier) : m.left ≠ m.right := by
  cases m with
  | shift | ctrl | alt => decide

/-- The codes of the two keys. -/
def hasCode (m : Modifier) (code : ℕ) : Prop :=
  match m with
  | shift => code = 0x2A ∨ code = 0x36
  | ctrl => code = 0x1D
  | alt => code = 0x38

instance hasCode_decidable (m : Modifier) (code : ℕ) : Decidable (m.hasCode code) :=
  match m with
  | shift => inferInstanceAs (Decidable (code = 0x2A ∨ code = 0x36))
  | ctrl => inferInstanceAs (Decidable (code = 0x1D))
  | alt => inferInstanceAs (Decidable (code = 0x38))

/-- The codes are those of presses. -/
theorem code_lt {m : Modifier} {code : ℕ} (h : m.hasCode code) : code < 128 := by
  cases m with
  | shift =>
    obtain rfl | rfl := h
    · decide
    · decide
  | ctrl | alt =>
    cases h
    decide

/-- The scancode is that of a press of one of the keys. -/
def isMake (m : Modifier) (sc : UInt8) : Bool := m.hasCode sc.toNat

/-- The scancode is that of a release. -/
def isBreak (m : Modifier) (sc : UInt8) : Bool :=
  128 ≤ sc.toNat ∧ m.hasCode (sc.toNat - 128)

/-- **The keys of a modifier are those with its codes.** -/
theorem key_iff (m : Modifier) (key : Key) :
    key = m.left ∨ key = m.right ↔ m.hasCode key.code.val := by
  rw [Key.eq_iff, Key.eq_iff]
  cases m with
  | shift =>
    have hplain := key.extended_eq_false
    constructor
    · rintro (⟨-, h⟩ | ⟨-, h⟩)
      · exact Or.inl h
      · exact Or.inr h
    · rintro (h | h)
      · exact Or.inl ⟨hplain (Or.inl h), h⟩
      · exact Or.inr ⟨hplain (Or.inr (Or.inl h)), h⟩
  | ctrl | alt =>
    constructor
    · rintro (⟨-, h⟩ | ⟨-, h⟩)
      · exact h
      · exact h
    · intro h
      cases hext : key.extended with
      | false => exact Or.inl ⟨rfl, h⟩
      | true => exact Or.inr ⟨rfl, h⟩

/-- The flag of the decoder. -/
def flag (m : Modifier) (k : Kernel) : Bool :=
  match m with
  | shift => k.shiftFlag
  | ctrl => k.ctrlFlag
  | alt => k.altFlag

end Modifier

/-! ## The keyboard and the decoder -/

/-- **The keys as they are, and the kernel.** -/
structure Keyboard where
  kernel : Kernel
  held : Key → Bool
  /-- How often Caps Lock was pressed, a repeat counted as a press. -/
  capsPresses : ℕ

/-- **A call of the decoder**, by what the scancode comes from: a key that
goes down or is held, a key that goes up, or a byte that a key sends besides
its own code. -/
inductive KeyCall
  | press (key : Key)
  | release (key : Key)
  | extra (sc : UInt8)

namespace KeyCall

/-- The scancode of a call. -/
def scancode : KeyCall → UInt8
  | press key => key.makeCode
  | release key => key.breakCode
  | extra sc => sc

/-- What Print Screen sends when it goes down. -/
def printScreen : List KeyCall :=
  [extra 0xE0, extra 0x2A, extra 0xE0, press ⟨true, 0x37, fun _ => by decide⟩]

/-- What Pause sends when it goes down. It sends nothing when it goes up. -/
def pause : List KeyCall :=
  [extra 0xE1, extra 0x1D, extra 0x45, extra 0xE1, extra 0x9D, extra 0xC5]

end KeyCall

namespace Keyboard

/-- No key is down and the flags are as `kbd_init` leaves them. -/
def start (k : Kernel) : Keyboard := ⟨k.kbdInitReturn, fun _ => false, 0⟩

/-- **A call of the decoder.** A key is released only if it is down. The
bytes besides the codes can be any and come anywhere, so the runs include
those of every keyboard. -/
def step (s : Keyboard) (e : KeyCall) : Option Keyboard :=
  let k := (s.kernel.scancodeDecoder e.scancode).2
  match e with
  | .press key =>
    some { kernel := k
           held := fun l => if l = key then true else s.held l
           capsPresses := if key = .capsLock then s.capsPresses + 1 else s.capsPresses }
  | .release key =>
    if s.held key then
      some { s with kernel := k, held := fun l => if l = key then false else s.held l }
    else none
  | .extra _ => some { s with kernel := k }

/-- One of the two keys of a modifier is down. -/
def down (s : Keyboard) (m : Modifier) : Bool := s.held m.left || s.held m.right

/-- Caps Lock is on. -/
def capsOn (s : Keyboard) : Bool := s.capsPresses % 2 == 1

/-- The letter of a key with a code in a row of letters. -/
def letterOf (code : ℕ) : Option UInt8 :=
  if 0x10 ≤ code ∧ code ≤ 0x19 then (ascii "qwertyuiop")[code - 0x10]?
  else if 0x1E ≤ code ∧ code ≤ 0x26 then (ascii "asdfghjkl")[code - 0x1E]?
  else if 0x2C ≤ code ∧ code ≤ 0x32 then (ascii "zxcvbnm")[code - 0x2C]?
  else none

/-- **The flags tell the keys.** -/
structure FlagsFollow (s : Keyboard) : Prop where
  modifiers : ∀ m : Modifier, m.flag s.kernel = s.down m
  caps : s.kernel.capsFlag = s.capsOn

/-- **The modifier state follows the keys**: the flags do, and a letter
that is pressed next is in upper case when one but not both of Shift and
Caps Lock say so. -/
structure Follows (s : Keyboard) : Prop extends FlagsFollow s where
  letters : ∀ key : Key, ∀ c, letterOf key.code.val = some c →
    (s.kernel.scancodeDecoder key.makeCode).1
      = if s.down .shift ^^ s.capsOn then c - 0x20 else c

/-- **A call that misleads the decoder**: one key of a modifier goes up while
the other one is down, or a byte that is no key's own reads as a modifier
going down with both its keys up, as one going up with a key down, or as
Caps Lock. -/
def misleads (s : Keyboard) : KeyCall → Bool
  | .press _ => false
  | .release key =>
    Modifier.all.any (fun m =>
      (key = m.left && s.held m.right) || (key = m.right && s.held m.left))
  | .extra sc =>
    sc = 0x3A || Modifier.all.any (fun m =>
      (m.isMake sc && !s.down m) || (m.isBreak sc && s.down m))

end Keyboard

/-! ## What one scancode does to the flags -/

namespace Kernel

/-- A terminal switch leaves the flags alone. -/
theorem switchKey_flags (k : Kernel) (sc : UInt8) :
    (∀ m : Modifier, m.flag (k.switchKey sc) = m.flag k)
      ∧ (k.switchKey sc).capsFlag = k.capsFlag := by
  have hsame : ∀ t, (∀ m : Modifier, m.flag (k.switchTo t) = m.flag k)
      ∧ (k.switchTo t).capsFlag = k.capsFlag := by
    intro t
    refine ⟨fun m => ?_, rfl⟩
    cases m with
    | shift | ctrl | alt => rfl
  unfold switchKey
  split
  · exact hsame 0
  split
  · exact hsame 1
  split
  · exact hsame 2
  · exact ⟨fun _ => rfl, rfl⟩

/-- The flags after a scancode are those of the modifier half of the
decoder. -/
theorem scancodeDecoder_flag (k : Kernel) (sc : UInt8) (m : Modifier) :
    m.flag (k.scancodeDecoder sc).2 = m.flag (k.modifiers sc) :=
  (switchKey_flags (k.modifiers sc) sc).1 m

theorem scancodeDecoder_capsFlag (k : Kernel) (sc : UInt8) :
    (k.scancodeDecoder sc).2.capsFlag = if sc = 0x3A then !k.capsFlag else k.capsFlag :=
  (switchKey_flags (k.modifiers sc) sc).2

/-- **The flag of a modifier after any scancode**: the code of a press of its
keys sets it and the code of a release clears it. -/
theorem flag_scancode (k : Kernel) (sc : UInt8) (m : Modifier) :
    m.flag (k.scancodeDecoder sc).2
      = if m.isMake sc then true else if m.isBreak sc then false else m.flag k := by
  have hcode : ∀ c : UInt8, sc = c ↔ sc.toNat = c.toNat := fun c => UInt8.toNat_inj.symm
  have hbreak : ∀ c d : UInt8, c.toNat = d.toNat + 128 →
      (sc = c ↔ 128 ≤ sc.toNat ∧ sc.toNat - 128 = d.toNat) := by
    intro c d hcd
    rw [hcode]
    omega
  rw [scancodeDecoder_flag]
  simp only [Modifier.isMake, Modifier.isBreak, decide_eq_true_eq]
  cases m with
  | shift =>
    refine if_congr (or_congr (hcode 0x2A) (hcode 0x36)) rfl (if_congr ?_ rfl rfl)
    rw [hbreak 0xAA 0x2A rfl, hbreak 0xB6 0x36 rfl, ← and_or_left]
    rfl
  | ctrl => exact if_congr (hcode 0x1D) rfl (if_congr (hbreak 0x9D 0x1D rfl) rfl rfl)
  | alt => exact if_congr (hcode 0x38) rfl (if_congr (hbreak 0xB8 0x38 rfl) rfl rfl)

/-- **A press sets the flag** of its modifier. -/
theorem flag_press (k : Kernel) (key : Key) (m : Modifier) :
    m.flag (k.scancodeDecoder key.makeCode).2
      = if key = m.left ∨ key = m.right then true else m.flag k := by
  have hlt := key.code.isLt
  have hnat : key.makeCode.toNat = key.code.val :=
    ((key.makeCode_eq_iff key.makeCode).mp rfl).symm
  have hmake : m.isMake key.makeCode = true ↔ key = m.left ∨ key = m.right := by
    rw [Modifier.isMake, decide_eq_true_eq, hnat, m.key_iff]
  have hbreak : ¬ m.isBreak key.makeCode = true := by
    rw [Modifier.isBreak, decide_eq_true_eq, hnat]
    omega
  rw [flag_scancode, if_congr hmake rfl rfl, if_neg hbreak]

/-- **A release clears it**, whatever the other key does. -/
theorem flag_release (k : Kernel) (key : Key) (m : Modifier) :
    m.flag (k.scancodeDecoder key.breakCode).2
      = if key = m.left ∨ key = m.right then false else m.flag k := by
  have hlt := key.code.isLt
  have hnat : key.breakCode.toNat = key.code.val + 128 :=
    ((key.breakCode_eq_iff key.breakCode).mp rfl).symm
  have hmake : ¬ m.isMake key.breakCode = true := by
    rw [Modifier.isMake, decide_eq_true_eq, hnat]
    intro hcode
    have hcode' := Modifier.code_lt hcode
    omega
  have hbreak : m.isBreak key.breakCode = true ↔ key = m.left ∨ key = m.right := by
    rw [Modifier.isBreak, decide_eq_true_eq, hnat, Nat.add_sub_cancel, m.key_iff]
    exact and_iff_right (Nat.le_add_left _ _)
  rw [flag_scancode, if_neg hmake, if_congr hbreak rfl rfl]

/-- **The rows of letters of the four tables**: two have the letters as they
are and two in upper case. -/
theorem charTables_letters : ∀ n < 128, ∀ c ∈ Keyboard.letterOf n,
    lowerCharTable.getD n 0 = c ∧ lowshiftCharTable.getD n 0 = c
      ∧ upperCharTable.getD n 0 = c - 0x20 ∧ upshiftCharTable.getD n 0 = c - 0x20 := by
  decide +kernel

/-- **A letter under the flags**: in upper case if one but not both of
`shift_flag` and `caps_flag` are set. -/
theorem decode_letter (k : Kernel) {key : Key} {c : UInt8}
    (h : Keyboard.letterOf key.code.val = some c) :
    (k.scancodeDecoder key.makeCode).1
      = if k.shiftFlag ^^ k.capsFlag then c - 0x20 else c := by
  have hlt := key.code.isLt
  obtain ⟨hlower, hlowshift, hupper, hupshift⟩ := charTables_letters _ hlt c h
  have hcode : ∀ d : UInt8, Keyboard.letterOf d.toNat = none → ¬ key.makeCode = d := by
    intro d hd hkey
    rw [← (key.makeCode_eq_iff d).mp hkey, h] at hd
    cases hd
  have hshift : (k.scancodeDecoder key.makeCode).2.shiftFlag = k.shiftFlag := by
    refine (flag_press k key .shift).trans (if_neg ?_)
    rw [Modifier.key_iff]
    rintro (hkey | hkey)
    · exact hcode 0x2A (by decide) ((key.makeCode_eq_iff _).mpr hkey)
    · exact hcode 0x36 (by decide) ((key.makeCode_eq_iff _).mpr hkey)
  have hcaps : (k.scancodeDecoder key.makeCode).2.capsFlag = k.capsFlag := by
    rw [scancodeDecoder_capsFlag, if_neg (hcode 0x3A (by decide))]
  show (k.scancodeDecoder key.makeCode).2.decodeChar key.makeCode = _
  have hnat : key.makeCode.toNat = key.code.val :=
    ((key.makeCode_eq_iff key.makeCode).mp rfl).symm
  rw [decodeChar, hshift, hcaps, hnat, if_pos hlt]
  cases k.shiftFlag with
  | false =>
    cases k.capsFlag with
    | false => exact hlower
    | true => exact hupper
  | true =>
    cases k.capsFlag with
    | false => exact hupshift
    | true => exact hlowshift

end Kernel

namespace Keyboard

variable {s s' : Keyboard}

/-- **A letter key leaves the flags alone**, so the letters follow the keys
if the flags do. -/
theorem FlagsFollow.follows (h : s.FlagsFollow) : s.Follows := by
  refine ⟨h, fun key c hc => ?_⟩
  have hshift : s.kernel.shiftFlag = s.down .shift := h.modifiers .shift
  rw [s.kernel.decode_letter hc, hshift, h.caps]

/-- A release that leaves every modifier as the decoder has it. -/
theorem misleads_release_eq_false {key : Key} :
    s.misleads (.release key) = false
      ↔ ∀ m : Modifier, (key = m.left → s.held m.right = false)
        ∧ (key = m.right → s.held m.left = false) := by
  simp only [misleads, List.any_eq_false, Modifier.mem_all, true_imp_iff, Bool.or_eq_true,
    Bool.and_eq_true, decide_eq_true_eq, not_or, not_and, Bool.not_eq_true]

/-- A byte that does, though it is no key's own. -/
theorem misleads_extra_eq_false {sc : UInt8} :
    s.misleads (.extra sc) = false
      ↔ sc ≠ 0x3A ∧ ∀ m : Modifier, (m.isMake sc = true → s.down m = true)
        ∧ (m.isBreak sc = true → s.down m = false) := by
  simp only [misleads, Bool.or_eq_false_iff, decide_eq_false_iff_not, List.any_eq_false,
    Modifier.mem_all, true_imp_iff, Bool.or_eq_true, Bool.and_eq_true, not_or, not_and,
    Bool.not_eq_true, Bool.not_eq_false', ne_eq]

/-- **Caps Lock**: every press of the key flips the flag. -/
theorem caps_press (h : s.kernel.capsFlag = s.capsOn) (key : Key) :
    (s.kernel.scancodeDecoder key.makeCode).2.capsFlag
      = ((if key = .capsLock then s.capsPresses + 1 else s.capsPresses) % 2 == 1) := by
  have hkey : key.makeCode = 0x3A ↔ key = .capsLock := by
    rw [Key.makeCode_eq_iff, Key.eq_iff]
    exact ⟨fun hc => ⟨key.extended_eq_false (Or.inr (Or.inr hc)), hc⟩, fun hk => hk.2⟩
  rw [Kernel.scancodeDecoder_capsFlag, if_congr hkey rfl rfl, h, capsOn]
  by_cases hcaps : key = .capsLock
  · rw [if_pos hcaps, if_pos hcaps]
    obtain h₀ | h₁ := Nat.mod_two_eq_zero_or_one s.capsPresses
    · rw [h₀, Nat.add_mod, h₀]
      rfl
    · rw [h₁, Nat.add_mod, h₁]
      rfl
  · rw [if_neg hcaps, if_neg hcaps]

/-- **The flag after a release against the keys after it**: the release
clears the flag, and the other key may be down. -/
theorem FlagsFollow.release_iff (h : s.FlagsFollow) (key : Key) (m : Modifier) :
    m.flag (s.kernel.scancodeDecoder key.breakCode).2
        = ((if m.left = key then false else s.held m.left)
          || (if m.right = key then false else s.held m.right))
      ↔ (key = m.left → s.held m.right = false) ∧ (key = m.right → s.held m.left = false) := by
  have hne := m.left_ne_right
  rw [s.kernel.flag_release key m, h.modifiers m]
  by_cases hl : key = m.left
  · have hr : ¬ m.right = key := fun hr => hne (hl.symm.trans hr.symm)
    rw [if_pos (Or.inl hl), if_pos hl.symm, if_neg hr, Bool.false_or, eq_comm]
    exact ⟨fun hf => ⟨fun _ => hf, fun hk => absurd hk.symm hr⟩, fun hf => hf.1 hl⟩
  by_cases hr : key = m.right
  · rw [if_pos (Or.inr hr), if_neg (Ne.symm hl), if_pos hr.symm, Bool.or_false, eq_comm]
    exact ⟨fun hf => ⟨fun hk => absurd hk hl, fun _ => hf⟩, fun hf => hf.2 hr⟩
  · rw [if_neg (not_or.mpr ⟨hl, hr⟩), if_neg (Ne.symm hl), if_neg (Ne.symm hr)]
    exact ⟨fun _ => ⟨fun hk => absurd hk hl, fun hk => absurd hk hr⟩, fun _ => rfl⟩

/-- **The flag after a byte that is no key's own**: the keys are as before. -/
theorem FlagsFollow.extra_iff (h : s.FlagsFollow) (sc : UInt8) (m : Modifier) :
    m.flag (s.kernel.scancodeDecoder sc).2 = s.down m
      ↔ (m.isMake sc = true → s.down m = true) ∧ (m.isBreak sc = true → s.down m = false) := by
  rw [s.kernel.flag_scancode sc m, h.modifiers m]
  by_cases hmake : m.isMake sc = true
  · have hbreak : ¬ m.isBreak sc = true := by
      rw [Modifier.isMake, decide_eq_true_eq] at hmake
      rw [Modifier.isBreak, decide_eq_true_eq]
      have hlt := Modifier.code_lt hmake
      omega
    rw [if_pos hmake, eq_comm]
    exact ⟨fun hd => ⟨fun _ => hd, fun hb => absurd hb hbreak⟩, fun hd => hd.1 hmake⟩
  by_cases hbreak : m.isBreak sc = true
  · rw [if_neg hmake, if_pos hbreak, eq_comm]
    exact ⟨fun hd => ⟨fun hm => absurd hm hmake, fun _ => hd⟩, fun hd => hd.2 hbreak⟩
  · rw [if_neg hmake, if_neg hbreak]
    exact ⟨fun _ => ⟨fun hm => absurd hm hmake, fun hb => absurd hb hbreak⟩, fun _ => rfl⟩

/-- Caps Lock after such a byte. -/
theorem FlagsFollow.caps_extra_iff (h : s.FlagsFollow) (sc : UInt8) :
    (s.kernel.scancodeDecoder sc).2.capsFlag = s.capsOn ↔ sc ≠ 0x3A := by
  rw [Kernel.scancodeDecoder_capsFlag, h.caps]
  by_cases hcaps : sc = 0x3A
  · rw [if_pos hcaps]
    exact iff_of_false (by simp) (not_not_intro hcaps)
  · rw [if_neg hcaps]
    exact iff_of_true rfl hcaps

/-- **The flags follow after every call that does not mislead the decoder**,
and not after one that does. -/
theorem step_follows_iff {e : KeyCall} (h : s.FlagsFollow) (hstep : step s e = some s') :
    s'.FlagsFollow ↔ s.misleads e = false := by
  cases e with
  | extra sc =>
    cases hstep
    rw [misleads_extra_eq_false]
    constructor
    · intro hf
      exact ⟨(h.caps_extra_iff sc).mp hf.caps, fun m => (h.extra_iff sc m).mp (hf.modifiers m)⟩
    · rintro ⟨hcaps, hm⟩
      exact ⟨fun m => (h.extra_iff sc m).mpr (hm m), (h.caps_extra_iff sc).mpr hcaps⟩
  | press key =>
    cases hstep
    refine ⟨fun _ => rfl, fun _ => ⟨fun m => ?_, caps_press h.caps key⟩⟩
    refine (s.kernel.flag_press key m).trans ?_
    rw [h.modifiers m]
    show _ = ((if m.left = key then true else s.held m.left)
      || (if m.right = key then true else s.held m.right))
    by_cases hl : key = m.left
    · rw [if_pos (Or.inl hl), if_pos hl.symm, Bool.true_or]
    by_cases hr : key = m.right
    · rw [if_pos (Or.inr hr), if_pos hr.symm, Bool.or_true]
    · rw [if_neg (not_or.mpr ⟨hl, hr⟩), if_neg (Ne.symm hl), if_neg (Ne.symm hr)]
      rfl
  | release key =>
    rw [step] at hstep
    split at hstep
    · rename_i hheld
      cases hstep
      rw [misleads_release_eq_false]
      constructor
      · exact fun hf m => (h.release_iff key m).mp (hf.modifiers m)
      · refine fun hf => ⟨fun m => (h.release_iff key m).mpr (hf m), ?_⟩
        refine (s.kernel.scancodeDecoder_capsFlag key.breakCode).trans ?_
        rw [if_neg ?_, h.caps]
        · rfl
        · rw [Key.breakCode_eq_iff]
          exact fun hc => absurd (Nat.le_of_add_left_le (Nat.le_of_eq hc)) (by decide)
    · cases hstep

/-- **The exact condition under which the modifier state follows the
keys**: after every call of a run it does if and only if no Shift, Ctrl or
Alt key is released while the other one is down, and no byte that is no
modifier key's own reads as one that changes. -/
theorem along_follows_iff (k : Kernel) (es : List KeyCall) :
    Along step (fun _ _ s' => s'.Follows) (start k) es
      ↔ Along step (fun s e _ => s.misleads e = false) (start k) es := by
  have hstart : (start k).FlagsFollow := by
    refine ⟨fun m => ?_, rfl⟩
    cases m with
    | shift | ctrl | alt => rfl
  refine along_iff (I := FlagsFollow) ?_ ?_ hstart es
  · intro s e s' hs hstep
    rw [← step_follows_iff hs hstep]
    exact ⟨fun h => h.toFlagsFollow, fun h => h.follows⟩
  · exact fun s e s' hs hstep hC => (step_follows_iff hs hstep).mpr hC

/-- Both Shift keys go down, and the right one up: the left one is down and
the flag is clear. -/
theorem shift_released_early :
    ∃ s, run step (start loadedKernel) [.press Modifier.shift.left,
        .press Modifier.shift.right, .release Modifier.shift.right] = some s
      ∧ s.held Modifier.shift.left = true ∧ s.kernel.shiftFlag = false ∧ ¬ s.Follows := by
  refine ⟨_, rfl, rfl, rfl, fun h => ?_⟩
  exact absurd (h.modifiers .shift) (by decide)

/-- Print Screen alone sets `shift_flag`. Pause sets `ctrl_flag` and clears it
again. -/
example :
    (run step (start loadedKernel) KeyCall.printScreen).map
        (fun s => (s.down .shift, s.kernel.shiftFlag)) = some (false, true)
      ∧ (run step (start loadedKernel) (KeyCall.pause.take 2)).map
        (fun s => (s.down .ctrl, s.kernel.ctrlFlag)) = some (false, true)
      ∧ (run step (start loadedKernel) KeyCall.pause).map
        (fun s => (s.down .ctrl, s.kernel.ctrlFlag)) = some (false, false) :=
  ⟨rfl, rfl, rfl⟩

end Keyboard

end KernelDesign
