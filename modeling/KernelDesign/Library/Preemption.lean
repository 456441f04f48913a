import KernelDesign.Library.Transition
import Mathlib

/-!
# Nested handlers behind a priority controller

A processor runs a program, and a controller interrupts it. The handler of
a line begins with interrupts as they were, masks them, does its work and
acknowledges the line to the controller, unmasks them and returns; before
the mask and after the unmask it may be interrupted itself, and then waits
under the handler of another line. The controller keeps the lines it has
delivered and that were not acknowledged, and delivers a line only if it
comes before all of these in rank.

What holds over every interleaving is `Inv`. The activities that wait are
all at a point where they may be interrupted, so that at most one is between
its mask and its unmask; the lines in service are those that a handler on
the stack still owes an acknowledgement, and their ranks rise from the top
of the stack down, so that a line is owed only once. With no handler on the
stack nothing is in service. What is asked of a controller is `Lawful`.
-/

namespace Preemption

open Transition

variable {ι κ α γ σ : Type*}

/-- What a program does with interrupts masked: acknowledge a line, or
something the controller takes no part in. -/
inductive Act (ι α : Type*)
  | ack (i : ι)
  | work (a : α)
  deriving DecidableEq

/-- **A handler**: what it does at its start, with interrupts as they were, and
what it does with interrupts masked. -/
structure Routine (ι α : Type*) where
  opening : List α
  body : List (Act ι α)

/-- **How far a program is**: before the mask with what it does there, inside
with the acts that are left, or past the unmask. -/
inductive Progress (ι α : Type*)
  | before (opening : List α) (body : List (Act ι α))
  | inside (rest : List (Act ι α))
  | after

/-- The line an act acknowledges. -/
def Act.acked : Act ι α → Option ι
  | .ack i => some i
  | .work _ => none

/-- What an act is besides an acknowledgement. -/
def Act.worked : Act ι α → Option α
  | .ack _ => none
  | .work a => some a

/-- The lines that a list of acts acknowledges. -/
def acks (body : List (Act ι α)) : List ι := body.filterMap Act.acked

/-- What a list of acts does besides. -/
def works (body : List (Act ι α)) : List α := body.filterMap Act.worked

theorem works_append (b b' : List (Act ι α)) : works (b ++ b') = works b ++ works b' :=
  List.filterMap_append

namespace Progress

/-- The program is at a point where it may be interrupted. -/
def isOpen : Progress ι α → Bool
  | before _ _ => true
  | inside _ => false
  | after => true

/-- The lines the program has yet to acknowledge. -/
def owed : Progress ι α → List ι
  | before _ body => acks body
  | inside rest => acks rest
  | after => []

/-- How many steps the program has left, the return included. -/
def left : Progress ι α → ℕ
  | before opening body => opening.length + body.length + 3
  | inside rest => rest.length + 2
  | after => 1

end Progress

/-- **A handler on the stack**, and the line it was started for. -/
structure Activation (ι α : Type*) where
  line : ι
  progress : Progress ι α

/-- **A handler on the stack owes its line** up to its acknowledgement, which is
in its section. -/
def Activation.Owes (f : Activation ι α) : Prop :=
  match f.progress with
  | .before _ b => acks b = [f.line]
  | .inside r => acks r = [f.line] ∨ acks r = []
  | .after => True

theorem Activation.Owes.owed {f : Activation ι α} (h : f.Owes) :
    f.progress.owed = [f.line] ∨ f.progress.owed = [] := by
  obtain ⟨i, p⟩ := f
  cases p with
  | before as b => exact Or.inl h
  | inside r => exact h
  | after => exact Or.inr rfl

/-- **An interrupt controller**: the rank of each line, which lines are in
service, whether it would deliver a line now, and what the delivery and the
acknowledgement of a line do. -/
structure Controller (ι γ : Type*) where
  rank : ι → ℕ
  serves : γ → ι → Bool
  accepts : γ → ι → Bool
  accept : γ → ι → γ
  ack : γ → ι → γ

/-- **What is asked of a controller**, in the states that are `Ok`. An
acknowledgement comes for a line in service, or with none in service. -/
structure Controller.Lawful (c : Controller ι γ) (Ok : γ → Prop) : Prop where
  accepts_iff : ∀ {g : γ}, Ok g → ∀ i,
    (c.accepts g i = true ↔ ∀ j, c.serves g j = true → c.rank i < c.rank j)
  serves_accept : ∀ {g : γ}, Ok g → ∀ {i}, c.accepts g i = true → ∀ j,
    (c.serves (c.accept g i) j = true ↔ j = i ∨ c.serves g j = true)
  serves_ack : ∀ {g : γ}, Ok g → ∀ {i}, (c.serves g i = true ∨ ∀ j, c.serves g j = false) →
    ∀ j, (c.serves (c.ack g i) j = true ↔ j ≠ i ∧ c.serves g j = true)
  ok_accept : ∀ {g : γ}, Ok g → ∀ {i}, c.accepts g i = true → Ok (c.accept g i)
  ok_ack : ∀ {g : γ}, Ok g → ∀ {i}, (c.serves g i = true ∨ ∀ j, c.serves g j = false) →
    Ok (c.ack g i)

/-- **The state**: the interrupt flag of the processor, the handlers on the
stack with the running one first, the program under them with what it has
`todo` past its section, the controller, the lines that are pending, and what
the activities share. -/
structure State (ι α γ σ : Type*) where
  enabled : Bool
  frames : List (Activation ι α)
  base : Progress ι α
  todo : List α
  ctrl : γ
  pending : ι → Bool
  shared : σ

namespace State

/-- The activity that runs: the handler on top, or the program. -/
def current (s : State ι α γ σ) : Progress ι α :=
  match s.frames with
  | f :: _ => f.progress
  | [] => s.base

/-- The lines that the handlers on the stack owe an acknowledgement, from
the top down. -/
def owed (s : State ι α γ σ) : List ι := s.frames.flatMap (fun f => f.progress.owed)

end State

/-- **Moves**: a line is raised, a pending line is delivered with what its
handler is going to find, the running activity takes a step, or the program
under the handlers begins another section, or something that it does without
masking interrupts. -/
inductive Move (ι κ α : Type*)
  | raise (i : ι)
  | deliver (i : ι) (k : κ)
  | advance
  | start (body : List (Act ι α))
  | call (todo : List α)

section System

variable (c : Controller ι γ) (effect : σ → α → σ) (unmasked : ι → Bool)
  (handler : ι → κ → Routine ι α)

/-- What an act does to the controller. -/
def control (g : γ) : Act ι α → γ
  | .ack i => c.ack g i
  | .work _ => g

/-- What an act does to the shared state. -/
def affect (x : σ) : Act ι α → σ
  | .ack _ => x
  | .work a => effect x a

/-- **The shared state sees only the work.** -/
theorem foldl_affect (b : List (Act ι α)) (x : σ) :
    b.foldl (affect effect) x = (works b).foldl effect x := by
  induction b generalizing x with
  | nil => rfl
  | cons a b ih =>
    cases a with
    | ack i => exact ih x
    | work a => exact ih (effect x a)

/-- **A step of the running activity**: the mask, an act, the unmask, or the
return of a handler, which restores the flag of what it interrupted. That
flag was set, or the line would not have been delivered. -/
def advance (s : State ι α γ σ) : Option (State ι α γ σ) :=
  match s.frames with
  | ⟨i, .before (a :: as) b⟩ :: fs =>
    some { s with shared := effect s.shared a, frames := ⟨i, .before as b⟩ :: fs }
  | ⟨i, .before [] b⟩ :: fs => some { s with enabled := false, frames := ⟨i, .inside b⟩ :: fs }
  | ⟨i, .inside (a :: r)⟩ :: fs =>
    some { s with
      ctrl := control c s.ctrl a
      shared := affect effect s.shared a
      frames := ⟨i, .inside r⟩ :: fs }
  | ⟨i, .inside []⟩ :: fs => some { s with enabled := true, frames := ⟨i, .after⟩ :: fs }
  | ⟨_, .after⟩ :: fs => some { s with enabled := true, frames := fs }
  | [] =>
    match s.base with
    | .before (a :: as) b => some { s with shared := effect s.shared a, base := .before as b }
    | .before [] b => some { s with enabled := false, base := .inside b }
    | .inside (a :: r) =>
      some { s with
        ctrl := control c s.ctrl a
        shared := affect effect s.shared a
        base := .inside r }
    | .inside [] => some { s with enabled := true, base := .after }
    | .after =>
      match s.todo with
      | a :: r => some { s with shared := effect s.shared a, todo := r }
      | [] => none

/-- **A step.** -/
def step [DecidableEq ι] (s : State ι α γ σ) : Move ι κ α → Option (State ι α γ σ)
  | .raise i => some { s with pending := fun j => j = i || s.pending j }
  | .deliver i k =>
    if s.enabled && s.pending i && unmasked i && c.accepts s.ctrl i then
      some { s with
        frames := ⟨i, .before (handler i k).opening (handler i k).body⟩ :: s.frames
        ctrl := c.accept s.ctrl i
        pending := fun j => j ≠ i && s.pending j }
    else none
  | .advance => advance c effect s
  | .start b =>
    match s.frames, s.base, s.todo with
    | [], .after, [] => some { s with base := .before [] b }
    | _, _, _ => none
  | .call as =>
    match s.frames, s.base, s.todo with
    | [], .after, [] => some { s with todo := as }
    | _, _, _ => none

/-! ## The invariant -/

/-- **Each handler acknowledges its own line, once**, whatever it finds. -/
def Handles : Prop := ∀ i k, unmasked i = true → acks (handler i k).body = [i]

/-- **The invariant of all interleavings.** -/
structure Inv (Ok : γ → Prop) (s : State ι α γ σ) : Prop where
  /-- What waits may be interrupted. -/
  waiting : ∀ f ∈ s.frames.tail, f.progress.isOpen = true
  base : s.frames ≠ [] → s.base.isOpen = true
  enabled : s.enabled = s.current.isOpen
  owes : ∀ f ∈ s.frames, f.Owes
  serves : ∀ j, c.serves s.ctrl j = true ↔ j ∈ s.owed
  ranked : s.owed.Pairwise (fun i j => c.rank i < c.rank j)
  ok : Ok s.ctrl

variable {c effect unmasked handler} {Ok : γ → Prop} {s s' : State ι α γ σ}

/-- **The start**: interrupts on, no handler, and nothing in service. -/
theorem inv_start {g : γ} (hok : Ok g) (hserves : ∀ j, c.serves g j = false)
    (pending : ι → Bool) (shared : σ) :
    Inv c Ok (⟨true, [], .after, [], g, pending, shared⟩ : State ι α γ σ) where
  waiting := nofun
  base := fun h => absurd rfl h
  enabled := rfl
  owes := nofun
  serves := fun j => by
    rw [hserves j]
    exact iff_of_false Bool.false_ne_true List.not_mem_nil
  ranked := List.Pairwise.nil
  ok := hok

/-- **With interrupts on the running activity may be interrupted**, and with
it everything on the stack. -/
theorem Inv.all_open (h : Inv c Ok s) (henabled : s.enabled = true) :
    (∀ f ∈ s.frames, f.progress.isOpen = true) ∧ s.base.isOpen = true := by
  have hcurrent : s.current.isOpen = true := h.enabled ▸ henabled
  cases hframes : s.frames with
  | nil =>
    refine ⟨fun f hf => absurd hf List.not_mem_nil, ?_⟩
    rwa [State.current, hframes] at hcurrent
  | cons f fs =>
    refine ⟨fun g hg => ?_, h.base (by rw [hframes]; exact List.cons_ne_nil f fs)⟩
    rcases List.mem_cons.mp hg with rfl | hg
    · rwa [State.current, hframes] at hcurrent
    · exact h.waiting g (by rw [hframes]; exact hg)

/-- The shared state has no part in the invariant, nor what is to be done
with interrupts on. -/
theorem Inv.share (h : Inv c Ok s) (x : σ) (todo : List α) :
    Inv c Ok { s with shared := x, todo := todo } :=
  ⟨h.1, h.2, h.3, h.4, h.5, h.6, h.7⟩

/-- A line that is accepted is not in service. -/
theorem Inv.not_mem_owed (h : Inv c Ok s) (hc : c.Lawful Ok) {i : ι}
    (haccepts : c.accepts s.ctrl i = true) : i ∉ s.owed := fun hmem =>
  Nat.lt_irrefl _ ((hc.accepts_iff h.ok i).mp haccepts i ((h.serves i).mpr hmem))

/-- **A delivery**: the line is owed once, before all the others. -/
theorem Inv.deliver (h : Inv c Ok s) (hc : c.Lawful Ok) {i : ι}
    {d : Routine ι α} (hbody : acks d.body = [i])
    (henabled : s.enabled = true) (haccepts : c.accepts s.ctrl i = true)
    (pending : ι → Bool) :
    Inv c Ok { s with
      frames := ⟨i, .before d.opening d.body⟩ :: s.frames
      ctrl := c.accept s.ctrl i
      pending := pending } where
  waiting := (h.all_open henabled).1
  base := fun _ => (h.all_open henabled).2
  enabled := henabled
  owes := by
    intro f hf
    rcases List.mem_cons.mp hf with rfl | hf
    · exact hbody
    · exact h.owes f hf
  serves := by
    intro j
    rw [hc.serves_accept h.ok haccepts j, h.serves j, ← List.mem_cons]
    show j ∈ i :: s.owed ↔ j ∈ acks d.body ++ s.owed
    rw [hbody]
    rfl
  ranked := by
    show (acks d.body ++ s.owed).Pairwise _
    rw [hbody]
    refine List.pairwise_cons.mpr ⟨fun j hj => ?_, h.ranked⟩
    exact (hc.accepts_iff h.ok i).mp haccepts j ((h.serves j).mpr hj)
  ok := hc.ok_accept h.ok haccepts

/-- The activity on top goes on to a point that owes as much. -/
theorem Inv.top (h : Inv c Ok s) {f : Activation ι α} {fs : List (Activation ι α)}
    (hframes : s.frames = f :: fs) {p : Progress ι α} (howed : p.owed = f.progress.owed)
    (howes : f.Owes → (⟨f.line, p⟩ : Activation ι α).Owes) :
    Inv c Ok { s with enabled := p.isOpen, frames := ⟨f.line, p⟩ :: fs } := by
  have hall : s.owed = p.owed ++ fs.flatMap (fun f => f.progress.owed) := by
    rw [State.owed, hframes, List.flatMap_cons, howed]
  constructor
  · intro g hg
    exact h.waiting g (by rw [hframes]; exact hg)
  · exact fun _ => h.base (by rw [hframes]; exact List.cons_ne_nil f fs)
  · rfl
  · intro g hg
    rcases List.mem_cons.mp hg with rfl | hg
    · exact howes (h.owes f (by rw [hframes]; exact List.mem_cons_self))
    · exact h.owes g (by rw [hframes]; exact List.mem_cons_of_mem f hg)
  · intro j
    rw [h.serves j, hall]
    rfl
  · have hranked := h.ranked
    rwa [hall] at hranked
  · exact h.ok

/-- **An acknowledgement by the handler on top**: it is of the line that the
handler owes, which nothing below owes. -/
theorem Inv.ackTop (h : Inv c Ok s) (hc : c.Lawful Ok) {i j : ι} {r : List (Act ι α)}
    {fs : List (Activation ι α)} (hframes : s.frames = ⟨i, .inside (.ack j :: r)⟩ :: fs) :
    Inv c Ok { s with ctrl := c.ack s.ctrl j, frames := ⟨i, .inside r⟩ :: fs } := by
  have hmem : (⟨i, .inside (.ack j :: r)⟩ : Activation ι α) ∈ s.frames := by
    rw [hframes]
    exact List.mem_cons_self
  -- What the handler owes is `j` and whatever is in `r`, and that is its own line alone.
  have howes : j :: acks r = [i] := (h.owes _ hmem).owed.resolve_right (List.cons_ne_nil j (acks r))
  rw [List.cons.injEq] at howes
  obtain ⟨rfl, hrest⟩ := howes
  have hall : s.owed = j :: fs.flatMap (fun f => f.progress.owed) := by
    rw [State.owed, hframes]
    show j :: acks r ++ _ = _
    rw [hrest]
    rfl
  have hranked := h.ranked
  rw [hall, List.pairwise_cons] at hranked
  have hin : c.serves s.ctrl j = true := (h.serves j).mpr (hall ▸ List.mem_cons_self)
  constructor
  · intro g hg
    exact h.waiting g (by rw [hframes]; exact hg)
  · exact fun _ => h.base (by rw [hframes]; exact List.cons_ne_nil _ fs)
  · rw [h.enabled, State.current, hframes]
    rfl
  · intro g hg
    rcases List.mem_cons.mp hg with rfl | hg
    · exact Or.inr hrest
    · exact h.owes g (by rw [hframes]; exact List.mem_cons_of_mem _ hg)
  · intro k
    rw [hc.serves_ack h.ok (Or.inl hin) k, h.serves k, hall, List.mem_cons]
    show _ ↔ k ∈ acks r ++ _
    rw [hrest, List.nil_append]
    constructor
    · rintro ⟨hne, hk⟩
      exact hk.resolve_left hne
    · intro hk
      refine ⟨?_, Or.inr hk⟩
      rintro rfl
      exact Nat.lt_irrefl _ (hranked.1 k hk)
  · show (acks r ++ _).Pairwise _
    rw [hrest]
    exact hranked.2
  · exact hc.ok_ack h.ok (Or.inl hin)

/-- **A handler returns**, to something that may be interrupted. -/
theorem Inv.pop (h : Inv c Ok s) {i : ι} {fs : List (Activation ι α)}
    (hframes : s.frames = ⟨i, .after⟩ :: fs) :
    Inv c Ok { s with enabled := true, frames := fs } := by
  have hwaiting := h.waiting
  rw [hframes, List.tail_cons] at hwaiting
  have hbase := h.base (by rw [hframes]; exact List.cons_ne_nil _ fs)
  have hall : s.owed = fs.flatMap (fun f => f.progress.owed) := by
    rw [State.owed, hframes]
    rfl
  constructor
  · exact fun g hg => hwaiting g (List.mem_of_mem_tail hg)
  · exact fun _ => hbase
  · cases fs with
    | nil => exact hbase.symm
    | cons g fs => exact (hwaiting g List.mem_cons_self).symm
  · exact fun g hg => h.owes g (by rw [hframes]; exact List.mem_cons_of_mem _ hg)
  · intro j
    rw [h.serves j, hall]
    rfl
  · have hranked := h.ranked
    rwa [hall] at hranked
  · exact h.ok

/-- **With no handler on the stack nothing is in service.** -/
theorem Inv.quiet (h : Inv c Ok s) (hframes : s.frames = []) (j : ι) :
    c.serves s.ctrl j = false := by
  rw [← Bool.not_eq_true, h.serves j, State.owed, hframes]
  exact List.not_mem_nil

/-- The program alone on the processor goes on. -/
theorem Inv.program (h : Inv c Ok s) (hframes : s.frames = []) {g : γ} (p : Progress ι α)
    (hok : Ok g) (hserves : ∀ j, c.serves g j = false) :
    Inv c Ok { s with enabled := p.isOpen, base := p, ctrl := g } := by
  constructor
  · exact fun f hf => h.waiting f hf
  · exact fun hne => absurd hframes hne
  · rw [State.current, hframes]
  · exact h.owes
  · intro j
    rw [hserves j, State.owed, hframes]
    exact iff_of_false Bool.false_ne_true List.not_mem_nil
  · exact h.ranked
  · exact hok

/-- **An act of the program alone** acknowledges nothing that is in
service. -/
theorem Inv.control_quiet (h : Inv c Ok s) (hc : c.Lawful Ok) (hframes : s.frames = [])
    (a : Act ι α) :
    Ok (control c s.ctrl a) ∧ ∀ j, c.serves (control c s.ctrl a) j = false := by
  cases a with
  | work => exact ⟨h.ok, h.quiet hframes⟩
  | ack i =>
    have hnone := h.quiet hframes
    refine ⟨hc.ok_ack h.ok (Or.inr hnone), fun j => ?_⟩
    rw [← Bool.not_eq_true]
    intro hj
    have hserved := ((hc.serves_ack h.ok (Or.inr hnone) j).mp hj).2
    exact absurd hserved (by rw [hnone j]; exact Bool.false_ne_true)

/-- **Every step of the running activity keeps the invariant.** -/
theorem Inv.advance (h : Inv c Ok s) (hc : c.Lawful Ok) (hstep : advance c effect s = some s') :
    Inv c Ok s' := by
  unfold Preemption.advance at hstep
  split at hstep
  · rename_i i a as b fs hframes
    cases hstep
    have henabled : s.enabled = true := by
      rw [h.enabled, State.current, hframes]
      rfl
    have htop := h.top hframes (p := .before as b) rfl id
    rw [show (Progress.before as b).isOpen = s.enabled from henabled.symm] at htop
    exact htop.share _ _
  · rename_i i b fs hframes
    cases hstep
    exact h.top hframes (p := .inside b) rfl Or.inl
  · rename_i i a r fs hframes
    cases hstep
    cases a with
    | work =>
      have henabled : s.enabled = false := by
        rw [h.enabled, State.current, hframes]
        rfl
      have htop := h.top hframes (p := .inside r) rfl id
      rw [show (Progress.inside r).isOpen = s.enabled from henabled.symm] at htop
      exact htop.share _ _
    | ack j => exact (h.ackTop hc hframes).share _ _
  · rename_i i fs hframes
    cases hstep
    exact h.top hframes (p := .after) rfl (fun _ => trivial)
  · rename_i i fs hframes
    cases hstep
    exact h.pop hframes
  · rename_i hframes
    split at hstep
    · rename_i a as b hbase
      cases hstep
      have henabled : s.enabled = true := by
        rw [h.enabled, State.current, hframes]
        show s.base.isOpen = true
        rw [hbase]
        rfl
      have hprogram := h.program hframes (.before as b) h.ok (h.quiet hframes)
      rw [show (Progress.before as b).isOpen = s.enabled from henabled.symm] at hprogram
      exact hprogram.share _ _
    · cases hstep
      exact h.program hframes (.inside _) h.ok (h.quiet hframes)
    · rename_i a r hbase
      cases hstep
      have henabled : s.enabled = false := by
        rw [h.enabled, State.current, hframes]
        show s.base.isOpen = false
        rw [hbase]
        rfl
      obtain ⟨hok, hserves⟩ := h.control_quiet hc hframes a
      have hprogram := h.program hframes (.inside r) hok hserves
      rw [show (Progress.inside r).isOpen = s.enabled from henabled.symm] at hprogram
      exact hprogram.share _ _
    · cases hstep
      exact h.program hframes .after h.ok (h.quiet hframes)
    · split at hstep
      · cases hstep
        exact h.share _ _
      · cases hstep

/-- The running activity adds no line to the stack. -/
theorem advance_lines (hstep : Preemption.advance c effect s = some s') :
    s'.frames.map Activation.line <:+ s.frames.map Activation.line := by
  unfold Preemption.advance at hstep
  split at hstep
  · rename_i hframes
    cases hstep
    rw [hframes]
    exact List.suffix_rfl
  · rename_i hframes
    cases hstep
    rw [hframes]
    exact List.suffix_rfl
  · rename_i hframes
    cases hstep
    rw [hframes]
    exact List.suffix_rfl
  · rename_i hframes
    cases hstep
    rw [hframes]
    exact List.suffix_rfl
  · rename_i hframes
    cases hstep
    rw [hframes]
    exact List.suffix_cons _ _
  · split at hstep
    · cases hstep
      exact List.suffix_rfl
    · cases hstep
      exact List.suffix_rfl
    · cases hstep
      exact List.suffix_rfl
    · cases hstep
      exact List.suffix_rfl
    · split at hstep
      · cases hstep
        exact List.suffix_rfl
      · cases hstep

/-- A line that is owed is that of a handler on the stack. -/
theorem Inv.mem_lines (h : Inv c Ok s) {j : ι} (hj : j ∈ s.owed) :
    j ∈ s.frames.map Activation.line := by
  obtain ⟨f, hf, hj⟩ := List.mem_flatMap.mp hj
  obtain hline | hnone := (h.owes f hf).owed
  · rw [hline, List.mem_singleton] at hj
    exact List.mem_map.mpr ⟨f, hf, hj.symm⟩
  · rw [hnone] at hj
    exact absurd hj List.not_mem_nil

/-! ## What follows -/

/-- **At most one activity is inside its section**, and it is the one that
runs. -/
theorem Inv.exclusive (h : Inv c Ok s) :
    (∀ f ∈ s.frames.tail, f.progress.isOpen = true) ∧ (s.frames ≠ [] → s.base.isOpen = true)
      ∧ s.enabled = s.current.isOpen :=
  ⟨h.waiting, h.base, h.enabled⟩

/-- **No line is owed twice**, and there are no more of them than ranks. -/
theorem Inv.owed_bounded (h : Inv c Ok s) {n : ℕ} (hrank : ∀ j ∈ s.owed, c.rank j < n) :
    s.owed.Nodup ∧ s.owed.length ≤ n := by
  have hnodup : (s.owed.map c.rank).Nodup :=
    (List.pairwise_map.mpr h.ranked).imp Nat.ne_of_lt
  refine ⟨List.Nodup.of_map _ hnodup, ?_⟩
  have hsubset : (s.owed.map c.rank).toFinset ⊆ Finset.range n := by
    intro r hr
    rw [List.mem_toFinset, List.mem_map] at hr
    obtain ⟨j, hj, rfl⟩ := hr
    exact Finset.mem_range.mpr (hrank j hj)
  have hcard := Finset.card_le_card hsubset
  rwa [List.toFinset_card_of_nodup hnodup, List.length_map, Finset.card_range] at hcard

section Runs

variable [DecidableEq ι]

/-- **Every step keeps the invariant.** -/
theorem Inv.step (h : Inv c Ok s) (hc : c.Lawful Ok) (hhandles : Handles unmasked handler)
    {e : Move ι κ α} (hstep : step c effect unmasked handler s e = some s') : Inv c Ok s' := by
  cases e with
  | raise i =>
    cases hstep
    exact ⟨h.1, h.2, h.3, h.4, h.5, h.6, h.7⟩
  | deliver i k =>
    rw [Preemption.step] at hstep
    split at hstep
    · rename_i hguard
      cases hstep
      simp only [Bool.and_eq_true] at hguard
      obtain ⟨⟨⟨henabled, -⟩, hunmasked⟩, haccepts⟩ := hguard
      exact h.deliver hc (hhandles i k hunmasked) henabled haccepts _
    · cases hstep
  | advance => exact h.advance hc hstep
  | start b =>
    rw [Preemption.step] at hstep
    split at hstep
    · rename_i hframes hbase htodo
      cases hstep
      have henabled : s.enabled = true := by
        rw [h.enabled, State.current, hframes]
        show s.base.isOpen = true
        rw [hbase]
        rfl
      have hprogram := h.program hframes (.before [] b) h.ok (h.quiet hframes)
      rwa [show (Progress.before [] b).isOpen = s.enabled from henabled.symm] at hprogram
    · cases hstep
  | call as =>
    rw [Preemption.step] at hstep
    split at hstep
    · cases hstep
      exact h.share _ _
    · cases hstep

/-- **The invariant holds along every run.** -/
theorem Inv.run (h : Inv c Ok s) (hc : c.Lawful Ok) (hhandles : Handles unmasked handler)
    {es : List (Move ι κ α)}
    (hrun : Transition.run (Preemption.step c effect unmasked handler) s es = some s') :
    Inv c Ok s' :=
  run_induction (fun _ _ _ hs hstep => hs.step hc hhandles hstep) h hrun

/-- **Only lines that are not masked have handlers on the stack.** -/
theorem unmasked_run (hlines : ∀ i ∈ s.frames.map Activation.line, unmasked i = true)
    {es : List (Move ι κ α)} (hrun : run (step c effect unmasked handler) s es = some s') :
    ∀ i ∈ s'.frames.map Activation.line, unmasked i = true := by
  refine run_induction (I := fun s => ∀ i ∈ s.frames.map Activation.line, unmasked i = true)
    (fun s e s' hs hstep => ?_) hlines hrun
  cases e with
  | raise i =>
    cases hstep
    exact hs
  | deliver i k =>
    rw [step] at hstep
    split at hstep
    · rename_i hguard
      cases hstep
      simp only [Bool.and_eq_true] at hguard
      exact List.forall_mem_cons.mpr ⟨hguard.1.2, hs⟩
    · cases hstep
  | advance => exact fun i hi => hs i ((advance_lines hstep).subset hi)
  | start b =>
    rw [step] at hstep
    split at hstep
    · cases hstep
      exact hs
    · cases hstep
  | call as =>
    rw [step] at hstep
    split at hstep
    · cases hstep
      exact hs
    · cases hstep

/-- **With no handler on the stack every pending line is delivered** that is
not masked. -/
theorem Inv.deliverable (h : Inv c Ok s) (hc : c.Lawful Ok) (hframes : s.frames = [])
    (henabled : s.enabled = true) {i : ι} (hpending : s.pending i = true)
    (hunmasked : unmasked i = true) (k : κ) :
    ∃ s', Preemption.step c effect unmasked handler s (.deliver i k) = some s' := by
  have haccepts : c.accepts s.ctrl i = true :=
    (hc.accepts_iff h.ok i).mpr (fun j hj =>
      absurd hj (by rw [h.quiet hframes j]; exact Bool.false_ne_true))
  refine ⟨_, if_pos ?_⟩
  rw [henabled, hpending, hunmasked, haccepts]
  rfl

end Runs

/-- The steps that the handlers on the stack have left. -/
def State.left (s : State ι α γ σ) : ℕ := (s.frames.map (fun f => f.progress.left)).sum

/-- **A handler on the stack has a step**, and then one step less. -/
theorem advance_left (c : Controller ι γ) (effect : σ → α → σ) (hframes : s.frames ≠ []) :
    ∃ s', Preemption.advance c effect s = some s' ∧ s'.left + 1 = s.left ∧ s'.base = s.base
      ∧ s'.pending = s.pending := by
  obtain ⟨⟨i, p⟩, fs, hframes⟩ := List.exists_cons_of_ne_nil hframes
  have hleft : ∀ p' : Progress ι α, ∀ t : State ι α γ σ, t.frames = ⟨i, p'⟩ :: fs →
      t.left = p'.left + (fs.map (fun f => f.progress.left)).sum := by
    intro p' t ht
    rw [State.left, ht]
    rfl
  unfold Preemption.advance
  rw [hframes]
  cases p with
  | before as b =>
    cases as with
    | nil =>
      refine ⟨_, rfl, ?_, rfl, rfl⟩
      rw [hleft _ s hframes, hleft (.inside b) _ rfl, Progress.left, Progress.left,
        List.length_nil]
      omega
    | cons a as =>
      refine ⟨_, rfl, ?_, rfl, rfl⟩
      rw [hleft _ s hframes, hleft (.before as b) _ rfl, Progress.left, Progress.left,
        List.length_cons]
      omega
  | inside r =>
    cases r with
    | nil =>
      refine ⟨_, rfl, ?_, rfl, rfl⟩
      rw [hleft _ s hframes, hleft .after _ rfl, Progress.left, Progress.left, List.length_nil]
      omega
    | cons a r =>
      refine ⟨_, rfl, ?_, rfl, rfl⟩
      rw [hleft _ s hframes, hleft (.inside r) _ rfl, Progress.left, Progress.left,
        List.length_cons]
      omega
  | after =>
    refine ⟨_, rfl, ?_, rfl, rfl⟩
    rw [hleft _ s hframes]
    exact Nat.add_comm _ 1

/-- **The handlers come to an end**: left alone, they return in as many
steps as they have left. -/
theorem drain [DecidableEq ι] (c : Controller ι γ) (effect : σ → α → σ) (unmasked : ι → Bool)
    (handler : ι → κ → Routine ι α) (s : State ι α γ σ) :
    ∃ n s', run (Preemption.step c effect unmasked handler) s (List.replicate n .advance) = some s'
      ∧ s'.frames = [] ∧ s'.base = s.base ∧ s'.pending = s.pending := by
  induction hleft : s.left generalizing s with
  | zero =>
    by_cases hframes : s.frames = []
    · exact ⟨0, s, rfl, hframes, rfl, rfl⟩
    · obtain ⟨s₁, -, hless, -, -⟩ := advance_left c effect hframes
      omega
  | succ k ih =>
    by_cases hframes : s.frames = []
    · exact ⟨0, s, rfl, hframes, rfl, rfl⟩
    · obtain ⟨s₁, hstep, hless, hbase, hpending⟩ := advance_left c effect hframes
      obtain ⟨n, s', hrun, hempty, hbase', hpending'⟩ := ih s₁ (by omega)
      refine ⟨n + 1, s', ?_, hempty, hbase'.trans hbase, hpending'.trans hpending⟩
      rw [List.replicate_succ, run_cons]
      exact Option.bind_eq_some_iff.mpr ⟨s₁, hstep, hrun⟩

end System

end Preemption
