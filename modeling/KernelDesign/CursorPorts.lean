import KernelDesign.InterruptNesting
import KernelDesign.Library.IndexedRegs

/-!
# The cursor registers

`vga.c` moves the cursor of the screen through the index port and the data
port of the CRT controller. `set_cursor_loc` keeps the index it finds in the
variable `addr_reg`, selects the two location registers one after the other,
writes a byte to each, and selects what it has kept. System calls do this with
interrupts on, by `putc`, and `kbd_intr_handler` does it between `cli` and
`sti`, with the same ports and the same variable.

A key may therefore come between any two accesses of a system call. The
handler puts back the index that it found, so the system call goes on with the
register that it had selected, and at every moment each register has what some
call wrote there (`cursor_registers`). The location is then made of the halves
of two calls; without a key it is the one that was asked for
(`set_cursor_undisturbed`).
-/

namespace KernelDesign

open IndexedRegs Preemption Transition

/-! ## The accesses of `vga.c` -/

/-- **The CRT controller**: a byte selects the register of that number, and a
read leaves it as it is. -/
def crtController : Device := ⟨fun i => i, fun _ v => v⟩

/-- The byte for the location register with the high half. -/
def locHigh (cursorLoc : UInt16) : UInt8 := (cursorLoc >>> 8).toUInt8

/-- The byte for the one with the low half. -/
def locLow (cursorLoc : UInt16) : UInt8 := (cursorLoc &&& 0xff).toUInt8

namespace CrtPort

/-- **`set_cursor_loc`**; the variable is `addr_reg`. -/
def setCursorLoc (cursorLoc : UInt16) : List (PortAccess UInt8) :=
  [.look (fun _ index => index),
    .select 0x0E, .write (fun _ => locHigh cursorLoc),
    .select 0x0F, .write (fun _ => locLow cursorLoc),
    .reselect (fun addrReg => addrReg)]

/-- **`enable_cursor`**. -/
def enableCursor : List (PortAccess UInt8) :=
  [.look (fun _ index => index), .select 0x0A, .write (fun _ => 0),
    .reselect (fun addrReg => addrReg)] ++ setCursorLoc 0

/-- **`disable_cursor`**, past `set_misc_out_reg`. -/
def disableCursor : List (PortAccess UInt8) :=
  [.look (fun _ index => index), .select 0x0A, .write (fun _ => 0x20),
    .reselect (fun addrReg => addrReg)]

end CrtPort

/-- **A call of `vga.c`** that moves or shows the cursor. -/
inductive CursorCall
  | setLoc (cursorLoc : UInt16)
  | enable
  | disable

namespace CursorCall

def accesses : CursorCall → List (PortAccess UInt8)
  | setLoc cursorLoc => CrtPort.setCursorLoc cursorLoc
  | enable => CrtPort.enableCursor
  | disable => CrtPort.disableCursor

/-- The call puts the cursor only where `P` is. -/
def Places (P : UInt16 → Prop) : CursorCall → Prop
  | setLoc cursorLoc => P cursorLoc
  | enable => P 0
  | disable => True

/-- **The call writes `v` to register `r`**: a half of its location, or what
shows or hides the cursor. -/
def Writes (r v : UInt8) : CursorCall → Prop
  | setLoc loc => (r = 0x0E ∧ v = locHigh loc) ∨ (r = 0x0F ∧ v = locLow loc)
  | enable => (r = 0x0A ∧ v = 0) ∨ (r = 0x0E ∧ v = locHigh 0) ∨ (r = 0x0F ∧ v = locLow 0)
  | disable => r = 0x0A ∧ v = 0x20

end CursorCall

/-- **Some call of `C` writes the byte there.** -/
def CursorBytes (C : CursorCall → Prop) (r v : UInt8) : Prop := ∃ c, C c ∧ c.Writes r v

/-- The location in the two registers. -/
def cursorAt (x : Bank UInt8) : ℕ := 256 * (x.regs 0x0E).toNat + (x.regs 0x0F).toNat

section Calls

variable {C : CursorCall → Prop}

/-- **Each write of a call comes after its selection.** -/
theorem CursorCall.confined {c : CursorCall} (h : C c) :
    Confined crtController (CursorBytes C) none c.accesses := by
  cases c with
  | setLoc loc =>
    exact ⟨⟨_, rfl, fun _ => ⟨_, h, Or.inl ⟨rfl, rfl⟩⟩⟩,
      ⟨_, rfl, fun _ => ⟨_, h, Or.inr ⟨rfl, rfl⟩⟩⟩, trivial⟩
  | enable =>
    exact ⟨⟨_, rfl, fun _ => ⟨_, h, Or.inl ⟨rfl, rfl⟩⟩⟩,
      ⟨_, rfl, fun _ => ⟨_, h, Or.inr (Or.inl ⟨rfl, rfl⟩)⟩⟩,
      ⟨_, rfl, fun _ => ⟨_, h, Or.inr (Or.inr ⟨rfl, rfl⟩)⟩⟩, trivial⟩
  | disable => exact ⟨⟨_, rfl, fun _ => ⟨_, h, rfl, rfl⟩⟩, trivial⟩

/-- **Each call puts the index back.** -/
theorem CursorCall.polite {c : CursorCall} (h : C c) :
    Polite crtController (CursorBytes C) c.accesses := by
  refine ⟨CursorCall.confined h, fun x => ?_⟩
  cases c with
  | setLoc _ | enable | disable => rfl

end Calls

/-! ## With the keyboard handler -/

/-- **The cursor in the handlers**: only `kbd_intr_handler` moves it, to the
locations that come of the keys, all of them in `P`. -/
def cursorWorks (P : UInt16 → Prop) : Works (List (Subtype P)) (PortAccess UInt8) :=
  ⟨[], [], fun locs => locs.flatMap (fun loc => CrtPort.setCursorLoc loc.val), []⟩

/-- A step of the processor with the CRT controller. -/
def cursorStep (P : UInt16 → Prop) (p : Pic) :=
  interruptStep (access crtController) (cursorWorks P) p

section Runs

variable {P : UInt16 → Prop} {C : CursorCall → Prop} {p : Pic} {pending : Line → Bool}
  {x : Bank UInt8} {es : List (Move Line (List (Subtype P)) (PortAccess UInt8))}
  {s s₁ s' : State Line (PortAccess UInt8) ServiceRegs (Bank UInt8)}

/-- **The calls of the run are in `C`**: those that the kernel begins, in its
sections and outside of them, and those that come of the keys. -/
structure CursorCalls (C : CursorCall → Prop)
    (es : List (Move Line (List (Subtype P)) (PortAccess UInt8))) : Prop where
  start : ∀ b, .start b ∈ es →
    ∃ cs : List (Subtype C), works b = cs.flatMap (fun c => c.val.accesses)
  call : ∀ as, .call as ∈ es → ∃ c : CursorCall, C c ∧ as = c.accesses
  key : ∀ l locs, .deliver l locs ∈ es → ∀ loc ∈ locs, C (.setLoc loc.val)

/-- The keyboard handler puts the index back. -/
theorem cursorWorks_polite (l : Line) {locs : List (Subtype P)}
    (h : ∀ loc ∈ locs, C (.setLoc loc.val)) :
    Polite crtController (CursorBytes C) ((cursorWorks P).on l locs) := by
  have hnone : Polite crtController (CursorBytes C) ([] : List (PortAccess UInt8)) :=
    ⟨trivial, fun _ => rfl⟩
  unfold Works.on
  split
  · exact hnone
  · split
    · exact Polite.flatMap (fun loc hloc => CursorCall.polite (h loc hloc))
    · split
      · exact hnone
      · exact hnone

/-- The other handlers have nothing to do with the cursor. -/
theorem cursorWorks_other {l : Line} (h : l ≠ kbdLine) (locs : List (Subtype P)) :
    (cursorWorks P).on l locs = [] := by
  rw [Works.on, if_neg h]
  exact (if_congr Iff.rfl rfl (ite_self _)).trans (ite_self _)

/-- **Along every run the registers keep to the calls.** -/
theorem within_run (hcalls : CursorCalls C es)
    (hrun : run (cursorStep P p) (quietStart pending x) es = some s) :
    Within (CursorBytes C) x s.shared := by
  have hstart : Undisturbed crtController (CursorBytes C) x [] x :=
    ⟨Within.refl x, none, trivial, selected_none x⟩
  refine kept_within (fun hpolite => hpolite) (kept_interrupts
    (A := Polite crtController (CursorBytes C)) (stable_polite x) (kept_start _ pending hstart)
    (inv_start quiet_registers.1 quiet_registers.2 pending x)
    (fun a ha => absurd ha List.not_mem_nil)
    (fun l locs hlocs => cursorWorks_polite l (hcalls.key l locs hlocs)) ?_ ?_ hrun)
  · intro b hb
    obtain ⟨cs, hcs⟩ := hcalls.start b hb
    rw [hcs]
    exact Polite.flatMap (fun c _ => CursorCall.polite c.property)
  · intro as has
    obtain ⟨c, hc, rfl⟩ := hcalls.call as has
    exact CursorCall.confined hc

/-- The halves of a location of the screen. -/
theorem loc_bytes : ∀ loc : UInt16,
    256 * (locHigh loc).toNat + (locLow loc).toNat = loc.toNat := by
  intro loc
  have h := loc.toNat_lt
  have hhigh : (locHigh loc).toNat = loc.toNat / 256 := by
    show (loc.toNat >>> (8 % 16)) % 256 = _
    rw [Nat.shiftRight_eq_div_pow, show 2 ^ (8 % 16) = 256 from rfl]
    omega
  have hlow : (locLow loc).toNat = loc.toNat % 256 := by
    show (loc.toNat &&& 255) % 256 = _
    rw [Nat.and_two_pow_sub_one_eq_mod loc.toNat 8, Nat.mod_mod]
  omega

/-- The high half of a location that a call places on the screen. -/
theorem CursorCall.Places.high_lt {c : CursorCall} {v : UInt8}
    (h : c.Places (fun loc => loc.toNat < 80 * 25)) (hv : c.Writes 0x0E v) : v.toNat < 8 := by
  have hscreen : ∀ loc : UInt16, loc.toNat < 80 * 25 → (locHigh loc).toNat < 8 := by
    intro loc hloc
    have hbytes := loc_bytes loc
    omega
  cases c with
  | setLoc loc =>
    obtain ⟨-, rfl⟩ | ⟨hr, -⟩ := hv
    · exact hscreen loc h
    · exact absurd hr (by decide)
  | enable =>
    obtain ⟨hr, -⟩ | ⟨-, rfl⟩ | ⟨hr, -⟩ := hv
    · exact absurd hr (by decide)
    · exact hscreen 0 h
    · exact absurd hr (by decide)
  | disable => exact absurd hv.1 (by decide)

/-- **No access goes to a register that was not selected for it**, along any
run and in every state of it: each register is as it was, or has a byte that
some call of the run writes there, which is one of the three registers of the
cursor. With calls for locations of the screen the cursor is always on the text
page, also when its halves are of two calls. -/
theorem cursor_registers (hcalls : CursorCalls C es)
    (hrun : run (cursorStep P p) (quietStart pending x) es = some s) :
    (∀ r, s.shared.regs r = x.regs r ∨ ∃ c, C c ∧ c.Writes r (s.shared.regs r))
      ∧ (∀ r, r ≠ 0x0A → r ≠ 0x0E → r ≠ 0x0F → s.shared.regs r = x.regs r)
      ∧ ((∀ c, C c → c.Places (fun loc => loc.toNat < 80 * 25)) → cursorAt x < 2048 →
        cursorAt s.shared < 2048) := by
  have hwithin := within_run hcalls hrun
  refine ⟨hwithin, fun r hA hE hF => ?_, fun hplaces hx => ?_⟩
  · obtain heq | ⟨c, -, hwrites⟩ := hwithin r
    · exact heq
    · cases c with
      | setLoc loc =>
        obtain ⟨hr, -⟩ | ⟨hr, -⟩ := hwrites
        · exact absurd hr hE
        · exact absurd hr hF
      | enable =>
        obtain ⟨hr, -⟩ | ⟨hr, -⟩ | ⟨hr, -⟩ := hwrites
        · exact absurd hr hA
        · exact absurd hr hE
        · exact absurd hr hF
      | disable => exact absurd hwrites.1 hA
  · have hlow := (s.shared.regs 0x0F).toNat_lt
    have hhigh : (s.shared.regs 0x0E).toNat < 8 := by
      obtain heq | ⟨c, hc, hwrites⟩ := hwithin 0x0E
      · rw [heq]
        unfold cursorAt at hx
        omega
      · exact (hplaces c hc).high_lt hwrites
    unfold cursorAt
    omega

/-- The locations of the screen. -/
def ScreenLoc (loc : UInt16) : Prop := loc.toNat < 80 * 25

instance : DecidablePred ScreenLoc := fun _ => inferInstanceAs (Decidable (_ < _))

/-- A system call sets location `0x301`, and a key that sets `0x102` comes
between its two writes. -/
def keyBetween : List (Move Line (List (Subtype ScreenLoc)) (PortAccess UInt8)) :=
  [.raise kbdLine, .call (CrtPort.setCursorLoc 0x301), .advance, .advance, .advance,
    .deliver kbdLine [⟨0x102, by decide⟩]] ++ List.replicate 13 .advance

/-- The controller before, with the cursor at the start. -/
def crtStart : Bank UInt8 := ⟨0x07, fun _ => 0, 0⟩

/-- The high half is the key's, and the low half the system call's; and in the
middle of the handler's section, after its first write, the other registers are
as they were. -/
theorem cursor_registers_torn :
    (∃ s, run (cursorStep ScreenLoc ⟨0, 0, []⟩) (quietStart (fun _ => false) crtStart) keyBetween
        = some s
      ∧ s.todo = [] ∧ cursorAt s.shared = 0x101 ∧ cursorAt s.shared < 2048)
      ∧ ∃ s, run (cursorStep ScreenLoc ⟨0, 0, []⟩) (quietStart (fun _ => false) crtStart)
          (keyBetween.take 10) = some s
        ∧ s.current.isOpen = false ∧ s.shared.regs 0x0E = 1 ∧ s.shared.regs 0x07 = 0 := by
  have hcalls : CursorCalls (fun c => c.Places ScreenLoc) keyBetween := by
    refine ⟨fun b hb => ?_, fun as has => ?_, fun l locs _ loc _ => loc.property⟩
    · simp [keyBetween] at hb
    · simp only [keyBetween, List.mem_append, List.mem_cons, List.mem_replicate] at has
      simp at has
      exact ⟨.setLoc 0x301, show ScreenLoc 0x301 by decide, has⟩
  have htake : CursorCalls (fun c => c.Places ScreenLoc) (keyBetween.take 10) :=
    ⟨fun b hb => hcalls.start b (List.mem_of_mem_take hb),
      fun as has => hcalls.call as (List.mem_of_mem_take has),
      fun l locs hlocs => hcalls.key l locs (List.mem_of_mem_take hlocs)⟩
  have hrun : ∃ s, run (cursorStep ScreenLoc ⟨0, 0, []⟩) (quietStart (fun _ => false) crtStart)
      keyBetween = some s ∧ s.todo = [] ∧ cursorAt s.shared = 0x101 := ⟨_, rfl, rfl, rfl⟩
  have hinside : ∃ s, run (cursorStep ScreenLoc ⟨0, 0, []⟩)
      (quietStart (fun _ => false) crtStart) (keyBetween.take 10) = some s
      ∧ s.current.isOpen = false ∧ s.shared.regs 0x0E = 1 := ⟨_, rfl, rfl, rfl⟩
  obtain ⟨s, hrun, hdone, hloc⟩ := hrun
  obtain ⟨s', hrun', hmasked, hhigh⟩ := hinside
  obtain ⟨-, -, hpage⟩ := cursor_registers hcalls hrun
  obtain ⟨-, hother, -⟩ := cursor_registers htake hrun'
  exact ⟨⟨s, hrun, hdone, hloc, hpage (fun c hc => hc) (by decide)⟩, s', hrun', hmasked, hhigh,
    hother 0x07 (by decide) (by decide) (by decide)⟩

/-- The work of the other handlers, and nothing, leave the controller as it
is. -/
theorem stable_alone (y : Bank UInt8) :
    Stable (access crtController)
      (fun b : List (Act Line (PortAccess UInt8)) => works b = []) (fun _ => False)
      (fun _ => False) (fun as x => as.foldl (access crtController) x = y) where
  block := by
    rintro b hb as x hx
    rw [hb]
    exact hx
  opening := fun hfalse => hfalse.elim
  act := fun hx => hx
  call := fun hfalse => hfalse.elim

/-- **Without a key a call does what it was made for**: from any state that the
kernel can be in, with whatever other interrupts, the cursor is where it was
asked to be, and the index port and all other registers are as they were. -/
theorem set_cursor_undisturbed {loc : UInt16} {es' : List (Move Line (List (Subtype P)) _)}
    (hreach : run (cursorStep P p) (quietStart pending x) es = some s)
    (hcall : cursorStep P p s (.call (CrtPort.setCursorLoc loc)) = some s₁)
    (hrun : run (cursorStep P p) s₁ es' = some s')
    (hkeys : ∀ l locs, .deliver l locs ∈ es' → l ≠ kbdLine)
    (hstart : ∀ b, .start b ∉ es') (hcalls : ∀ as, .call as ∉ es')
    (hdone : s'.todo = []) (hopen : s'.current.isOpen = true) :
    cursorAt s'.shared = loc.toNat ∧ s'.shared.index = s.shared.index
      ∧ ∀ r, r ≠ 0x0E → r ≠ 0x0F → s'.shared.regs r = s.shared.regs r := by
  have hinv := inv_interrupts hreach
  rw [cursorStep, interruptStep, step] at hcall
  split at hcall
  · rename_i hframes hbase htodo
    cases hcall
    have hkept : Kept (access crtController)
        (fun b : List (Act Line (PortAccess UInt8)) => works b = []) (fun _ => False)
        (fun as y => as.foldl (access crtController) y
          = (CrtPort.setCursorLoc loc).foldl (access crtController) s.shared)
        { s with todo := CrtPort.setCursorLoc loc } := by
      refine ⟨?_, ?_, s.shared, [], ?_, rfl, rfl⟩
      · rw [hframes]
        exact fun f hf => absurd hf List.not_mem_nil
      · rw [hbase]
        trivial
      · rw [State.current, hframes]
        show s.base.Partly _ []
        rw [hbase]
        rfl
    have hend := Kept.of_open (kept_interrupts (A := fun as => as = []) (stable_alone _) hkept
      (hinv.share _ _) (fun a ha => absurd ha List.not_mem_nil) ?_
      (fun b hb => absurd hb (hstart b)) (fun as has => absurd has (hcalls as))
      hrun) hopen
    · rw [hdone] at hend
      change s'.shared = _ at hend
      rw [hend]
      refine ⟨loc_bytes loc, rfl, fun r hE hF => ?_⟩
      exact (Function.update_of_ne hF _ _).trans (Function.update_of_ne hE _ _)
    · exact fun l locs hlocs => cursorWorks_other (hkeys l locs hlocs) locs
  · cases hcall

/-- The scheduler's clock, between the two writes of a system call. -/
def tickBetween : List (Move Line (List (Subtype ScreenLoc)) (PortAccess UInt8)) :=
  [.advance, .advance, .advance, .deliver pitLine []] ++ List.replicate 7 .advance

/-- The cursor is at `0x301`, and the index as it was. -/
theorem set_cursor_undisturbed_tick :
    ∃ s', (run (cursorStep ScreenLoc ⟨0, 0, []⟩) (quietStart (fun _ => true) crtStart)
        (.call (CrtPort.setCursorLoc 0x301) :: tickBetween)) = some s'
      ∧ cursorAt s'.shared = 0x301 ∧ s'.shared.index = 0x07 := by
  have hcall : ∃ s₁, cursorStep ScreenLoc ⟨0, 0, []⟩ (quietStart (fun _ => true) crtStart)
        (.call (CrtPort.setCursorLoc 0x301)) = some s₁
      ∧ ∃ s', run (cursorStep ScreenLoc ⟨0, 0, []⟩) s₁ tickBetween = some s'
        ∧ s'.todo = [] ∧ s'.current.isOpen = true := ⟨_, rfl, _, rfl, rfl, rfl⟩
  obtain ⟨s₁, hcall, s', hrun, hdone, hopen⟩ := hcall
  have hreach : run (cursorStep ScreenLoc ⟨0, 0, []⟩) (quietStart (fun _ => true) crtStart) []
      = some (quietStart (fun _ => true) crtStart) := rfl
  obtain ⟨hloc, hindex, -⟩ := set_cursor_undisturbed hreach hcall hrun
    (fun l locs h => by simp [tickBetween] at h; rw [h.1]; decide)
    (fun b h => by simp [tickBetween] at h) (fun as h => by simp [tickBetween] at h) hdone hopen
  exact ⟨s', by rw [run_cons, hcall]; exact hrun, hloc, hindex⟩

end Runs

end KernelDesign
