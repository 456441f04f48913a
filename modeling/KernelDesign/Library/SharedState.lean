import KernelDesign.Library.Preemption

/-!
# What interrupted activities share

The activities of `Preemption` act on one shared state. Three arguments about it
are for every interleaving. A section with interrupts masked is atomic, so a
property that every whole section keeps, and every single act of the program
outside its sections, is true wherever the running activity may be
interrupted (`Kept`), and what also survives a part of a section is true
everywhere (`Kept.everywhere`). An act that raises a flag, which nothing lowers, has raised it when
the handlers that were started have returned, if it was in one of them
(`signalled_run`). And what the handlers of one line alone act on is as if they
came one after the other, though they are interrupted, and begin with
interrupts on: the controller does not deliver the line again before it is
acknowledged (`Owns.run`).
-/

namespace Preemption

open Transition

variable {ι κ α γ σ : Type*}

section Shared

variable {c : Controller ι γ} {effect : σ → α → σ} {unmasked : ι → Bool}
  {handler : ι → κ → Routine ι α} {Ok : γ → Prop} {s s' : State ι α γ σ}

/-! ## Sections are atomic -/

/-- What the activity has `done` of its section, so far as it is in one. -/
def Progress.Partly (A : List (Act ι α) → Prop) (done : List (Act ι α)) : Progress ι α → Prop
  | .inside rest => A (done ++ rest)
  | .before _ _ | .after => done = []

/-- A section that has not begun is one of `A`, and what comes before it of
`O`. -/
def Progress.Begins (A : List (Act ι α) → Prop) (O : α → Prop) : Progress ι α → Prop
  | .before as b => A b ∧ ∀ a ∈ as, O a
  | .inside _ | .after => True

/-- **What is asked of `J`**, a property of what the program has to do with
interrupts on and of the shared state: the program keeps it, act by act, so
does every section of `A`, as a whole and at any of these points, and so does
what a handler does before its section. -/
structure Stable (effect : σ → α → σ) (A : List (Act ι α) → Prop) (O : α → Prop)
    (C : List α → Prop) (J : List α → σ → Prop) : Prop where
  block : ∀ {b}, A b → ∀ {as x}, J as x → J as ((works b).foldl effect x)
  opening : ∀ {a}, O a → ∀ {as x}, J as x → J as (effect x a)
  act : ∀ {a as x}, J (a :: as) x → J as (effect x a)
  call : ∀ {as}, C as → ∀ {x}, J [] x → J as x

/-- **The invariant of the shared state**: sections to come are of `A`, and
the section under way, if there is one, has done some of its acts on a state
in which `J` was true. -/
structure Kept (effect : σ → α → σ) (A : List (Act ι α) → Prop) (O : α → Prop)
    (J : List α → σ → Prop) (s : State ι α γ σ) : Prop where
  frames : ∀ f ∈ s.frames, f.progress.Begins A O
  base : s.base.Begins A O
  shared : ∃ x done, s.current.Partly A done ∧ J s.todo x
    ∧ s.shared = done.foldl (affect effect) x

section Kept

variable {A : List (Act ι α) → Prop} {O : α → Prop} {C : List α → Prop} {J : List α → σ → Prop}

/-- The program alone, with its last section done. -/
theorem kept_start (g : γ) (pending : ι → Bool) {x : σ} (hx : J [] x) :
    Kept effect A O J (⟨true, [], .after, [], g, pending, x⟩ : State ι α γ σ) where
  frames := nofun
  base := trivial
  shared := ⟨x, [], rfl, hx, rfl⟩

/-- **Between sections `J` is true.** -/
theorem Kept.of_open (h : Kept effect A O J s) (hopen : s.current.isOpen = true) :
    J s.todo s.shared := by
  obtain ⟨x, done, hpartly, hx, hshared⟩ := h.shared
  have hnil : done = [] := by
    cases hcurrent : s.current with
    | before as b => rwa [hcurrent] at hpartly
    | inside r => rw [hcurrent] at hopen; cases hopen
    | after => rwa [hcurrent] at hpartly
  rw [hshared, hnil]
  exact hx

/-- **Inside a section too**: what follows from `J`, and from `J` before any
part of a section of `A`, is true everywhere. -/
theorem Kept.everywhere {K : σ → Prop} (h : Kept effect A O J s)
    (hJ : ∀ {as x}, J as x → K x)
    (hA : ∀ {done rest}, A (done ++ rest) → ∀ {as x}, J as x → K ((works done).foldl effect x)) :
    K s.shared := by
  obtain ⟨x, done, hpartly, hx, hshared⟩ := h.shared
  rw [hshared, foldl_affect]
  cases hcurrent : s.current with
  | before as b =>
    rw [hcurrent] at hpartly
    rw [show done = [] from hpartly]
    exact hJ hx
  | inside rest =>
    rw [hcurrent] at hpartly
    exact hA hpartly hx
  | after =>
    rw [hcurrent] at hpartly
    rw [show done = [] from hpartly]
    exact hJ hx

/-- An activity goes on to another point that is no section. -/
theorem exists_of_open {p : Progress ι α} (hopen : p.isOpen = true) {as : List α} {x : σ}
    (hx : J as x) :
    ∃ y done, p.Partly A done ∧ J as y ∧ x = done.foldl (affect effect) y := by
  refine ⟨x, [], ?_, hx, rfl⟩
  cases p with
  | before as b => rfl
  | inside r => cases hopen
  | after => rfl

/-- **The section under way takes an act**, or is over. -/
theorem exists_of_inside {a : Act ι α} {r : List (Act ι α)} {as : List α} {z : σ}
    (h : ∃ x done, (Progress.inside (a :: r)).Partly A done ∧ J as x
      ∧ z = done.foldl (affect effect) x) :
    ∃ x done, (Progress.inside r).Partly A done ∧ J as x
      ∧ affect effect z a = done.foldl (affect effect) x := by
  obtain ⟨x, done, hpartly, hx, rfl⟩ := h
  refine ⟨x, done ++ [a], ?_, hx, (List.foldl_concat _ x a done).symm⟩
  rw [Progress.Partly, List.append_assoc]
  exact hpartly

theorem exists_of_done (hJ : Stable effect A O C J) {as : List α} {z : σ}
    (h : ∃ x done, (Progress.inside []).Partly A done ∧ J as x
      ∧ z = done.foldl (affect effect) x) :
    J as z := by
  obtain ⟨x, done, hpartly, hx, rfl⟩ := h
  rw [Progress.Partly, List.append_nil] at hpartly
  rw [foldl_affect]
  exact hJ.block hpartly hx

/-- **A step of the running activity**: interrupts are off while it is inside
its section, so that no other comes in between. -/
theorem Kept.advance (h : Kept effect A O J s) (hJ : Stable effect A O C J) (hinv : Inv c Ok s)
    (hstep : Preemption.advance c effect s = some s') : Kept effect A O J s' := by
  have hshared := h.shared
  unfold Preemption.advance at hstep
  split at hstep
  · rename_i i a as b fs hframes
    cases hstep
    have hall := h.frames
    rw [hframes, List.forall_mem_cons] at hall
    obtain ⟨⟨hb, has⟩, hrest⟩ := hall
    rw [List.forall_mem_cons] at has
    have hx : J s.todo s.shared := h.of_open (by rw [State.current, hframes]; rfl)
    exact ⟨List.forall_mem_cons.mpr ⟨⟨hb, has.2⟩, hrest⟩, h.base,
      exists_of_open rfl (hJ.opening has.1 hx)⟩
  · rename_i i b fs hframes
    cases hstep
    have hall := h.frames
    rw [hframes, List.forall_mem_cons] at hall
    have hx : J s.todo s.shared := h.of_open (by rw [State.current, hframes]; rfl)
    exact ⟨List.forall_mem_cons.mpr ⟨trivial, hall.2⟩, h.base,
      s.shared, [], hall.1.1, hx, rfl⟩
  · rename_i i a r fs hframes
    cases hstep
    have hall := h.frames
    rw [hframes, List.forall_mem_cons] at hall
    rw [State.current, hframes] at hshared
    exact ⟨List.forall_mem_cons.mpr ⟨trivial, hall.2⟩, h.base,
      exists_of_inside hshared⟩
  · rename_i i fs hframes
    cases hstep
    have hall := h.frames
    rw [hframes, List.forall_mem_cons] at hall
    rw [State.current, hframes] at hshared
    exact ⟨List.forall_mem_cons.mpr ⟨trivial, hall.2⟩, h.base,
      exists_of_open rfl (exists_of_done hJ hshared)⟩
  · rename_i i fs hframes
    cases hstep
    have hall := h.frames
    rw [hframes, List.forall_mem_cons] at hall
    have hx : J s.todo s.shared := h.of_open (by rw [State.current, hframes]; rfl)
    exact ⟨hall.2, h.base, exists_of_open (hinv.pop hframes).enabled.symm hx⟩
  · rename_i hframes
    rw [State.current, hframes] at hshared
    change ∃ x done, s.base.Partly A done ∧ _ at hshared
    split at hstep
    · rename_i a as b hbase
      cases hstep
      have hx : J s.todo s.shared := h.of_open (by rw [State.current, hframes, hbase]; rfl)
      obtain ⟨hb, has⟩ : (Progress.before (a :: as) b).Begins A O := hbase ▸ h.base
      rw [List.forall_mem_cons] at has
      refine ⟨h.frames, ⟨hb, has.2⟩, ?_⟩
      rw [State.current, hframes]
      exact exists_of_open rfl (hJ.opening has.1 hx)
    · rename_i b hbase
      cases hstep
      have hx : J s.todo s.shared := h.of_open (by rw [State.current, hframes, hbase]; rfl)
      obtain ⟨hb, -⟩ : (Progress.before [] b).Begins A O := hbase ▸ h.base
      refine ⟨h.frames, trivial, ?_⟩
      rw [State.current, hframes]
      exact ⟨s.shared, [], hb, hx, rfl⟩
    · rename_i a r hbase
      cases hstep
      rw [hbase] at hshared
      refine ⟨h.frames, trivial, ?_⟩
      rw [State.current, hframes]
      exact exists_of_inside hshared
    · rename_i hbase
      cases hstep
      rw [hbase] at hshared
      refine ⟨h.frames, trivial, ?_⟩
      rw [State.current, hframes]
      exact exists_of_open rfl (exists_of_done hJ hshared)
    · rename_i hbase
      split at hstep
      · rename_i a r htodo
        cases hstep
        have hx : J s.todo s.shared := h.of_open (by rw [State.current, hframes, hbase]; rfl)
        rw [htodo] at hx
        refine ⟨h.frames, h.base, ?_⟩
        rw [State.current, hframes]
        change ∃ x done, s.base.Partly A done ∧ _
        rw [hbase]
        exact exists_of_open rfl (hJ.act hx)
      · cases hstep

variable [DecidableEq ι]

/-- **Every step**, if the handler that it starts is of `A`, and what the
program begins is of `A` or of `C`. -/
theorem Kept.step (h : Kept effect A O J s) (hJ : Stable effect A O C J) (hinv : Inv c Ok s)
    {e : Move ι κ α} (hdeliver : ∀ i k, e = .deliver i k →
      (Progress.before (handler i k).opening (handler i k).body).Begins A O)
    (hstart : ∀ b, e = .start b → A b) (hcall : ∀ as, e = .call as → C as)
    (hstep : Preemption.step c effect unmasked handler s e = some s') : Kept effect A O J s' := by
  cases e with
  | raise i =>
    cases hstep
    exact ⟨h.1, h.2, h.3⟩
  | deliver i k =>
    rw [Preemption.step] at hstep
    split at hstep
    · rename_i hguard
      cases hstep
      simp only [Bool.and_eq_true] at hguard
      obtain ⟨⟨⟨henabled, -⟩, -⟩, -⟩ := hguard
      exact ⟨List.forall_mem_cons.mpr ⟨hdeliver i k rfl, h.frames⟩, h.base,
        exists_of_open rfl (h.of_open (hinv.enabled ▸ henabled))⟩
    · cases hstep
  | advance => exact h.advance hJ hinv hstep
  | start b =>
    rw [Preemption.step] at hstep
    split at hstep
    · rename_i hframes hbase htodo
      cases hstep
      have hx : J s.todo s.shared := h.of_open (by rw [State.current, hframes, hbase]; rfl)
      refine ⟨h.frames, ⟨hstart b rfl, fun a ha => absurd ha List.not_mem_nil⟩, ?_⟩
      rw [State.current, hframes]
      exact exists_of_open rfl hx
    · cases hstep
  | call as =>
    rw [Preemption.step] at hstep
    split at hstep
    · rename_i hframes hbase htodo
      cases hstep
      have hx : J s.todo s.shared := h.of_open (by rw [State.current, hframes, hbase]; rfl)
      rw [htodo] at hx
      refine ⟨h.frames, h.base, ?_⟩
      rw [State.current, hframes]
      change ∃ x done, s.base.Partly A done ∧ _
      rw [hbase]
      exact exists_of_open rfl (hJ.call (hcall as rfl) hx)
    · cases hstep

/-- **The rule for shared state**, for every run. -/
theorem Kept.run (h : Kept effect A O J s) (hJ : Stable effect A O C J) (hinv : Inv c Ok s)
    (hc : c.Lawful Ok) (hhandles : Handles unmasked handler)
    {es : List (Move ι κ α)} (hdeliver : ∀ i k, .deliver i k ∈ es →
      (Progress.before (handler i k).opening (handler i k).body).Begins A O)
    (hstart : ∀ b, .start b ∈ es → A b) (hcall : ∀ as, .call as ∈ es → C as)
    (hrun : Transition.run (Preemption.step c effect unmasked handler) s es = some s') :
    Kept effect A O J s' := by
  induction es generalizing s with
  | nil =>
    cases hrun
    exact h
  | cons e es ih =>
    rw [run_cons, Option.bind_eq_some_iff] at hrun
    obtain ⟨s₁, hstep, hrun⟩ := hrun
    have hnext : Kept effect A O J s₁ :=
      h.step hJ hinv (fun i k hik => hdeliver i k (hik ▸ List.mem_cons_self))
        (fun b hb => hstart b (hb ▸ List.mem_cons_self))
        (fun as has => hcall as (has ▸ List.mem_cons_self)) hstep
    exact ih hnext (hinv.step hc hhandles hstep)
      (fun i k hik => hdeliver i k (List.mem_cons_of_mem e hik))
      (fun b hb => hstart b (List.mem_cons_of_mem e hb))
      (fun as has => hcall as (List.mem_cons_of_mem e has)) hrun

end Kept

/-! ## What is to come -/

/-- What the activity has yet to do, up to the end of its section. -/
def Progress.rest : Progress ι α → List α
  | before as b => as ++ works b
  | inside r => works r
  | after => []

/-- **All that a handler does.** -/
def Routine.all (d : Routine ι α) : List α := d.opening ++ works d.body

/-- What the handlers of some lines have yet to do, from the top down. -/
def comesOf (p : ι → Bool) (fs : List (Activation ι α)) : List α :=
  fs.flatMap (fun f => if p f.line then f.progress.rest else [])

/-- **What the handlers of some lines have yet to do**, of those on the
stack. -/
def State.toCome (p : ι → Bool) (s : State ι α γ σ) : List α := comesOf p s.frames

/-- **What all others have yet to do**, the program among them. -/
def State.others (p : ι → Bool) (s : State ι α γ σ) : List α :=
  comesOf (fun i => !p i) s.frames ++ (s.base.rest ++ s.todo)

section Comes

variable {p : ι → Bool}

theorem comesOf_cons (p : ι → Bool) (f : Activation ι α) (fs : List (Activation ι α)) :
    comesOf p (f :: fs) = (if p f.line then f.progress.rest else []) ++ comesOf p fs := rfl

/-- An activity with as much to do in the place of the one on top. -/
theorem comesOf_top {i : ι} {q q' : Progress ι α} (h : q'.rest = q.rest) (p : ι → Bool)
    (fs : List (Activation ι α)) : comesOf p (⟨i, q'⟩ :: fs) = comesOf p (⟨i, q⟩ :: fs) := by
  rw [comesOf_cons, comesOf_cons, h]

/-- **What a step of the running activity does** to what is to come: nothing,
or the first act of the chosen lines, or an act of the others. -/
inductive Advances (effect : σ → α → σ) (p : ι → Bool) (s s' : State ι α γ σ) : Prop
  | silent (shared : s'.shared = s.shared) (toCome : s'.toCome p = s.toCome p)
    (others : s'.others p = s.others p)
  | own (a : α) (shared : s'.shared = effect s.shared a) (toCome : s.toCome p = a :: s'.toCome p)
    (others : s'.others p = s.others p)
  | other (a : α) (shared : s'.shared = effect s.shared a) (toCome : s'.toCome p = s.toCome p)
    (mem : a ∈ s.others p) (others : s'.others p ⊆ s.others p)

/-- The handler on top takes an act. -/
theorem advances_act {i : ι} {a : α} {q q' : Progress ι α} {fs : List (Activation ι α)}
    (hframes : s.frames = ⟨i, q⟩ :: fs) (hrest : q.rest = a :: q'.rest)
    (hframes' : s'.frames = ⟨i, q'⟩ :: fs) (hbase : s'.base = s.base) (htodo : s'.todo = s.todo)
    (hshared : s'.shared = effect s.shared a) : Advances effect p s s' := by
  cases hp : p i with
  | true =>
    refine .own a hshared ?_ ?_
    · rw [State.toCome, State.toCome, hframes, hframes', comesOf_cons, comesOf_cons, if_pos hp,
        if_pos hp, hrest]
      rfl
    · rw [State.others, State.others, hframes, hframes', comesOf_cons, comesOf_cons, hbase, htodo]
      simp only [hp, Bool.not_true, Bool.false_eq_true, if_false]
  | false =>
    have hnot : ¬ p i = true := by
      rw [hp]
      exact Bool.false_ne_true
    have hothers : s.others p = a :: s'.others p := by
      rw [State.others, State.others, hframes, hframes', comesOf_cons, comesOf_cons, hbase, htodo]
      simp only [hp, Bool.not_false, if_true, hrest, List.cons_append]
    refine .other a hshared ?_ ?_ ?_
    · rw [State.toCome, State.toCome, hframes, hframes', comesOf_cons, comesOf_cons, if_neg hnot,
        if_neg hnot]
    · rw [hothers]
      exact List.mem_cons_self
    · rw [hothers]
      exact List.subset_cons_self a _

/-- The handler on top goes on without an act. -/
theorem advances_silent {i : ι} {q q' : Progress ι α} {fs : List (Activation ι α)}
    (hframes : s.frames = ⟨i, q⟩ :: fs) (hframes' : s'.frames = ⟨i, q'⟩ :: fs)
    (hrest : q'.rest = q.rest) (hbase : s'.base = s.base) (htodo : s'.todo = s.todo)
    (hshared : s'.shared = s.shared) : Advances effect p s s' := by
  refine .silent hshared ?_ ?_
  · rw [State.toCome, State.toCome, hframes, hframes', comesOf_top hrest]
  · rw [State.others, State.others, hframes, hframes', comesOf_top hrest, hbase, htodo]

/-- The program takes an act. -/
theorem advances_program {a : α} (hframes : s.frames = []) (hframes' : s'.frames = [])
    (hrest : s.base.rest ++ s.todo = a :: (s'.base.rest ++ s'.todo))
    (hshared : s'.shared = effect s.shared a) : Advances effect p s s' := by
  have hothers : s.others p = a :: s'.others p := by
    rw [State.others, State.others, hframes, hframes', hrest]
    rfl
  refine .other a hshared ?_ ?_ ?_
  · rw [State.toCome, State.toCome, hframes, hframes']
  · rw [hothers]
    exact List.mem_cons_self
  · rw [hothers]
    exact List.subset_cons_self a _

/-- The program goes on without an act. -/
theorem advances_program_silent (hframes : s'.frames = s.frames)
    (hrest : s'.base.rest ++ s'.todo = s.base.rest ++ s.todo)
    (hshared : s'.shared = s.shared) : Advances effect p s s' := by
  refine .silent hshared ?_ ?_
  · rw [State.toCome, State.toCome, hframes]
  · rw [State.others, State.others, hframes, hrest]

/-- **Every step of the running activity** is of one of the three kinds. -/
theorem advance_cases (p : ι → Bool) (hstep : Preemption.advance c effect s = some s') :
    Advances effect p s s' := by
  unfold Preemption.advance at hstep
  split at hstep
  · rename_i hframes
    cases hstep
    exact advances_act hframes rfl rfl rfl rfl rfl
  · rename_i hframes
    cases hstep
    exact advances_silent hframes rfl rfl rfl rfl rfl
  · rename_i i a r fs hframes
    cases hstep
    cases a with
    | ack j => exact advances_silent hframes rfl rfl rfl rfl rfl
    | work a => exact advances_act hframes rfl rfl rfl rfl rfl
  · rename_i hframes
    cases hstep
    exact advances_silent hframes rfl rfl rfl rfl rfl
  · rename_i i fs hframes
    cases hstep
    refine .silent rfl ?_ ?_
    · rw [State.toCome, State.toCome, hframes, comesOf_cons]
      show _ = (if p i then [] else []) ++ _
      rw [ite_self]
      rfl
    · rw [State.others, State.others, hframes, comesOf_cons]
      show _ = (if !p i then [] else []) ++ _ ++ _
      rw [ite_self]
      rfl
  · rename_i hframes
    split at hstep
    · rename_i hbase
      cases hstep
      exact advances_program hframes hframes (by rw [hbase]; rfl) rfl
    · rename_i hbase
      cases hstep
      exact advances_program_silent rfl (by rw [hbase]; rfl) rfl
    · rename_i a r hbase
      cases hstep
      cases a with
      | ack j => exact advances_program_silent rfl (by rw [hbase]; rfl) rfl
      | work a => exact advances_program hframes hframes (by rw [hbase]; rfl) rfl
    · rename_i hbase
      cases hstep
      exact advances_program_silent rfl (by rw [hbase]; rfl) rfl
    · rename_i hbase
      split at hstep
      · rename_i htodo
        cases hstep
        exact advances_program hframes hframes (by rw [hbase, htodo]; rfl) rfl
      · cases hstep

end Comes

/-! ## Flags -/

/-- The act makes `F` true whatever was. -/
def Raises (effect : σ → α → σ) (F : σ → Prop) (a : α) : Prop := ∀ x, F (effect x a)

/-- **The act raises the flag or leaves it.** -/
def Heeds (effect : σ → α → σ) (F : σ → Prop) (a : α) : Prop :=
  Raises effect F a ∨ ∀ x, F (effect x a) ↔ F x

/-- **The flag is up, or something on the stack is still to raise it.** -/
def Signalled (effect : σ → α → σ) (F : σ → Prop) (s : State ι α γ σ) : Prop :=
  F s.shared ∨ ∃ a ∈ s.toCome (fun _ => true), Raises effect F a

/-- **The program waits**: it does nothing, and what is on the stack heeds the
flag. -/
structure Waits (effect : σ → α → σ) (F : σ → Prop) (s : State ι α γ σ) : Prop where
  base : s.base = .after
  todo : s.todo = []
  heeds : ∀ a ∈ s.toCome (fun _ => true), Heeds effect F a

section Flags

variable {F : σ → Prop}

/-- While the program waits, nothing is to come of it. -/
theorem Waits.others (h : Waits effect F s) : s.others (fun _ => true) = [] := by
  rw [State.others, h.base, h.todo]
  exact List.append_eq_nil_iff.mpr ⟨List.flatMap_eq_nil_iff.mpr (fun f _ => rfl), rfl⟩

/-- A program that waits goes on waiting. -/
theorem advance_waits (hbase : s.base = .after) (htodo : s.todo = [])
    (hstep : Preemption.advance c effect s = some s') : s'.base = .after ∧ s'.todo = [] := by
  unfold Preemption.advance at hstep
  rw [hbase, htodo] at hstep
  split at hstep
  · cases hstep
    exact ⟨rfl, rfl⟩
  · cases hstep
    exact ⟨rfl, rfl⟩
  · cases hstep
    exact ⟨rfl, rfl⟩
  · cases hstep
    exact ⟨rfl, rfl⟩
  · cases hstep
    exact ⟨rfl, rfl⟩
  · cases hstep

/-- **A step of a handler loses no signal**, and makes none. -/
theorem Waits.advance (h : Waits effect F s)
    (hstep : Preemption.advance c effect s = some s') :
    Waits effect F s' ∧ (Signalled effect F s' ↔ Signalled effect F s) := by
  obtain ⟨hbase, htodo⟩ := advance_waits h.base h.todo hstep
  cases advance_cases (fun _ => true) hstep with
  | silent hshared hcome =>
    refine ⟨⟨hbase, htodo, hcome ▸ h.heeds⟩, ?_⟩
    rw [Signalled, Signalled, hshared, hcome]
  | own a hshared hcome =>
    have hheeds := h.heeds
    rw [hcome, List.forall_mem_cons] at hheeds
    refine ⟨⟨hbase, htodo, hheeds.2⟩, ?_⟩
    rw [Signalled, Signalled, hcome, List.exists_mem_cons_iff, hshared, ← or_assoc]
    refine or_congr ?_ Iff.rfl
    obtain hraises | hleaves := hheeds.1
    · exact iff_of_true (hraises _) (Or.inr hraises)
    · refine ⟨fun hF => Or.inl ((hleaves _).mp hF), ?_⟩
      rintro (hF | hraises)
      · exact (hleaves _).mpr hF
      · exact hraises _
  | other a hshared hcome hmem =>
    rw [h.others] at hmem
    exact absurd hmem List.not_mem_nil

/-- With no handler on the stack nothing is to come. -/
theorem signalled_quiet (hframes : s.frames = []) : Signalled effect F s ↔ F s.shared := by
  rw [Signalled, State.toCome, hframes]
  refine or_iff_left ?_
  rintro ⟨a, ha, -⟩
  exact absurd ha List.not_mem_nil

variable [DecidableEq ι]

/-- **Every step**: the flag is up or to come if it was, or if the step starts
a handler that raises it. -/
theorem Waits.step (h : Waits effect F s) {e : Move ι κ α}
    (hdeliver : ∀ i k, e = .deliver i k → ∀ a ∈ (handler i k).all, Heeds effect F a)
    (hstart : ∀ b, e ≠ .start b) (hcall : ∀ as, e ≠ .call as)
    (hstep : Preemption.step c effect unmasked handler s e = some s') :
    Waits effect F s'
      ∧ (Signalled effect F s' ↔ Signalled effect F s
        ∨ ∃ i k, e = .deliver i k ∧ ∃ a ∈ (handler i k).all, Raises effect F a) := by
  cases e with
  | raise i =>
    cases hstep
    refine ⟨⟨h.1, h.2, h.3⟩, (or_iff_left ?_).symm⟩
    rintro ⟨j, k, he, -⟩
    cases he
  | deliver i k =>
    rw [Preemption.step] at hstep
    split at hstep
    · cases hstep
      have hbody := hdeliver i k rfl
      refine ⟨⟨h.base, h.todo, fun a ha => ?_⟩, ?_⟩
      · exact (List.mem_append.mp ha).elim (hbody a) (h.heeds a)
      · show F s.shared ∨ (∃ a ∈ (handler i k).all ++ s.toCome (fun _ => true), _) ↔ _
        simp only [Signalled, List.mem_append, or_and_right, exists_or]
        rw [or_assoc, or_comm (a := ∃ a, a ∈ (handler i k).all ∧ _)]
        refine or_congr Iff.rfl (or_congr Iff.rfl ⟨fun hraise => ⟨i, k, rfl, hraise⟩, ?_⟩)
        rintro ⟨j, m, he, hraise⟩
        cases he
        exact hraise
    · cases hstep
  | advance =>
    obtain ⟨hwaits, hsignal⟩ := h.advance hstep
    refine ⟨hwaits, hsignal.trans (or_iff_left ?_).symm⟩
    rintro ⟨j, k, he, -⟩
    cases he
  | start b => exact absurd rfl (hstart b)
  | call as => exact absurd rfl (hcall as)

/-- **No signal is lost and none comes of itself**, in any run in which the
program waits: the flag is up or to come if and only if it was so before, or
a handler was started that raises it. -/
theorem signalled_run (h : Waits effect F s) {es : List (Move ι κ α)}
    (hdeliver : ∀ i k, .deliver i k ∈ es → ∀ a ∈ (handler i k).all, Heeds effect F a)
    (hstart : ∀ b, .start b ∉ es) (hcall : ∀ as, .call as ∉ es)
    (hrun : run (Preemption.step c effect unmasked handler) s es = some s') :
    Waits effect F s'
      ∧ (Signalled effect F s' ↔ Signalled effect F s
        ∨ ∃ i k, .deliver i k ∈ es ∧ ∃ a ∈ (handler i k).all, Raises effect F a) := by
  induction es generalizing s with
  | nil =>
    cases hrun
    refine ⟨h, (or_iff_left ?_).symm⟩
    rintro ⟨i, k, hik, -⟩
    exact absurd hik List.not_mem_nil
  | cons e es ih =>
    rw [run_cons, Option.bind_eq_some_iff] at hrun
    obtain ⟨s₁, hstep, hrun⟩ := hrun
    obtain ⟨hwaits, hsignal⟩ := h.step (fun i k he => hdeliver i k (he ▸ List.mem_cons_self))
      (fun b he => hstart b (he ▸ List.mem_cons_self))
      (fun as he => hcall as (he ▸ List.mem_cons_self)) hstep
    obtain ⟨hlast, hrest⟩ := ih hwaits (fun i k hik => hdeliver i k (List.mem_cons_of_mem e hik))
      (fun b hb => hstart b (List.mem_cons_of_mem e hb))
      (fun as has => hcall as (List.mem_cons_of_mem e has)) hrun
    refine ⟨hlast, ?_⟩
    rw [hrest, hsignal, or_assoc]
    refine or_congr Iff.rfl ⟨?_, ?_⟩
    · rintro (⟨i, k, rfl, hraise⟩ | ⟨i, k, hik, hraise⟩)
      · exact ⟨i, k, List.mem_cons_self, hraise⟩
      · exact ⟨i, k, List.mem_cons_of_mem e hik, hraise⟩
    · rintro ⟨i, k, hik, hraise⟩
      obtain heq | hik := List.mem_cons.mp hik
      · exact Or.inl ⟨i, k, heq.symm, hraise⟩
      · exact Or.inr ⟨i, k, hik, hraise⟩

end Flags

/-! ## What is a line's own -/

/-- **An act of another** leaves what `K` says as it is. -/
def Foreign (effect : σ → α → σ) (K : ℕ → List α → σ → Prop) (a : α) : Prop :=
  ∀ n as x, K n as x → K n as (effect x a)

/-- **What is asked of `K`**, a property of the number of handlers of a line
that were started, of what is left to do of the last one, and of the shared
state. -/
structure OwnRule (effect : σ → α → σ) (own : List α → Prop) (K : ℕ → List α → σ → Prop) :
    Prop where
  begin : ∀ {as}, own as → ∀ {n x}, K n [] x → K (n + 1) as x
  act : ∀ {a as n x}, K n (a :: as) x → K n as (effect x a)

section Own

variable [DecidableEq ι] {i : ι} {own : List α → Prop} {K : ℕ → List α → σ → Prop} {n : ℕ}

/-- The handlers of one line. -/
def ofLine (i : ι) : ι → Bool := fun j => decide (j = i)

/-- **A line is at its own state**: `K` is true of it, and the others leave
it. -/
structure Owns (effect : σ → α → σ) (i : ι) (K : ℕ → List α → σ → Prop) (n : ℕ)
    (s : State ι α γ σ) : Prop where
  others : ∀ a ∈ s.others (ofLine i), Foreign effect K a
  state : K n (s.toCome (ofLine i)) s.shared

theorem Owns.advance (h : Owns effect i K n s) (hK : OwnRule effect own K)
    (hstep : Preemption.advance c effect s = some s') : Owns effect i K n s' := by
  cases advance_cases (ofLine i) hstep with
  | silent hshared hcome hothers =>
    refine ⟨hothers ▸ h.others, ?_⟩
    rw [hshared, hcome]
    exact h.state
  | own a hshared hcome hothers =>
    have hstate := h.state
    rw [hcome] at hstate
    exact ⟨hothers ▸ h.others, hshared ▸ hK.act hstate⟩
  | other a hshared hcome hmem hothers =>
    refine ⟨fun b hb => h.others b (hothers hb), ?_⟩
    rw [hshared, hcome]
    exact h.others a hmem n _ _ h.state

/-- **A line that is delivered has nothing left to do**: its last handler has
acknowledged it, and is past its section. -/
theorem Inv.toCome_eq_nil (hinv : Inv c Ok s) (hc : c.Lawful Ok) (henabled : s.enabled = true)
    (haccepts : c.accepts s.ctrl i = true) : s.toCome (ofLine i) = [] := by
  refine List.flatMap_eq_nil_iff.mpr (fun f hf => ?_)
  cases hline : ofLine i f.line with
  | false => exact if_neg Bool.false_ne_true
  | true =>
    have hi : f.line = i := of_decide_eq_true hline
    have howes := hinv.owes f hf
    have hopen := (hinv.all_open henabled).1 f hf
    refine (if_pos rfl).trans ?_
    obtain ⟨j, q⟩ := f
    cases q with
    | before as b =>
      refine absurd (List.mem_flatMap.mpr ⟨_, hf, ?_⟩) (hinv.not_mem_owed hc haccepts)
      show i ∈ acks b
      rw [show acks b = [j] from howes, List.mem_singleton]
      exact hi.symm
    | inside r => cases hopen
    | after => rfl

/-- How many handlers of a line are started. -/
def deliveries (i : ι) (es : List (Move ι κ α)) : ℕ :=
  es.countP (fun e => match e with
    | .deliver j _ => decide (j = i)
    | _ => false)

theorem deliveries_cons (i : ι) (e : Move ι κ α) (es : List (Move ι κ α)) :
    deliveries i (e :: es) = deliveries i [e] + deliveries i es := by
  rw [deliveries, ← List.singleton_append, List.countP_append]
  rfl

/-- **Every step**, if the handlers of the line begin as `K` asks, and all other
acts are foreign to it. -/
theorem Owns.step (h : Owns effect i K n s) (hK : OwnRule effect own K) (hinv : Inv c Ok s)
    (hc : c.Lawful Ok) {e : Move ι κ α} (hown : ∀ k, own (handler i k).all)
    (hother : ∀ j k, e = .deliver j k → j ≠ i → ∀ a ∈ (handler j k).all, Foreign effect K a)
    (hstart : ∀ b, e = .start b → ∀ a ∈ works b, Foreign effect K a)
    (hcall : ∀ as, e = .call as → ∀ a ∈ as, Foreign effect K a)
    (hstep : Preemption.step c effect unmasked handler s e = some s') :
    Owns effect i K (n + deliveries i [e]) s' := by
  cases e with
  | raise j =>
    cases hstep
    exact ⟨h.1, h.2⟩
  | deliver j k =>
    rw [Preemption.step] at hstep
    split at hstep
    · rename_i hguard
      cases hstep
      simp only [Bool.and_eq_true] at hguard
      obtain ⟨⟨⟨henabled, -⟩, -⟩, haccepts⟩ := hguard
      by_cases hij : j = i
      · subst hij
        have hnil := hinv.toCome_eq_nil hc henabled haccepts
        have hline : ofLine j j = true := decide_eq_true rfl
        refine ⟨fun a ha => h.others a ?_, ?_⟩
        · rw [State.others, comesOf_cons, hline] at ha
          exact ha
        · rw [State.toCome, comesOf_cons, if_pos hline,
            show comesOf (ofLine j) s.frames = [] from hnil, List.append_nil,
            show deliveries j [Move.deliver j k] = 1 by simp [deliveries]]
          exact hK.begin (hown k) (hnil ▸ h.state)
      · have hline : ofLine i j = false := decide_eq_false hij
        refine ⟨fun a ha => ?_, ?_⟩
        · rw [State.others, comesOf_cons, hline, List.append_assoc] at ha
          exact (List.mem_append.mp ha).elim (hother j k rfl hij a) (h.others a)
        · rw [State.toCome, comesOf_cons, hline,
            show deliveries i [Move.deliver j k] = 0 by simp [deliveries, hij]]
          exact h.state
    · cases hstep
  | advance => exact h.advance hK hstep
  | start b =>
    rw [Preemption.step] at hstep
    split at hstep
    · rename_i hframes hbase htodo
      cases hstep
      refine ⟨fun a ha => ?_, h.state⟩
      rw [State.others, hframes, htodo, List.append_nil] at ha
      exact hstart b rfl a ha
    · cases hstep
  | call as =>
    rw [Preemption.step] at hstep
    split at hstep
    · rename_i hframes hbase htodo
      cases hstep
      refine ⟨fun a ha => ?_, h.state⟩
      rw [State.others, hframes, hbase] at ha
      exact hcall as rfl a ha
    · cases hstep

/-- **The rule for a line's own state**: through every interleaving the handlers
of one line come one after the other. -/
theorem Owns.run (h : Owns effect i K n s) (hK : OwnRule effect own K) (hinv : Inv c Ok s)
    (hc : c.Lawful Ok) (hhandles : Handles unmasked handler) {es : List (Move ι κ α)}
    (hown : ∀ k, own (handler i k).all)
    (hother : ∀ j k, j ≠ i → ∀ a ∈ (handler j k).all, Foreign effect K a)
    (hstart : ∀ b, .start b ∈ es → ∀ a ∈ works b, Foreign effect K a)
    (hcall : ∀ as, .call as ∈ es → ∀ a ∈ as, Foreign effect K a)
    (hrun : run (Preemption.step c effect unmasked handler) s es = some s') :
    Owns effect i K (n + deliveries i es) s' := by
  induction es generalizing s n with
  | nil =>
    cases hrun
    exact h
  | cons e es ih =>
    rw [run_cons, Option.bind_eq_some_iff] at hrun
    obtain ⟨s₁, hstep, hrun⟩ := hrun
    have hnext := h.step hK hinv hc hown (fun j k _ hij => hother j k hij)
      (fun b hb => hstart b (hb ▸ List.mem_cons_self))
      (fun as has => hcall as (has ▸ List.mem_cons_self)) hstep
    have hlast := ih hnext (hinv.step hc hhandles hstep)
      (fun b hb => hstart b (List.mem_cons_of_mem e hb))
      (fun as has => hcall as (List.mem_cons_of_mem e has)) hrun
    rwa [Nat.add_assoc, ← deliveries_cons] at hlast

end Own

end Shared

end Preemption
