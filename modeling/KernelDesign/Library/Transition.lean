import Mathlib.Data.Nat.Notation

/-!
# Runs of a partial transition function

A system whose steps are chosen by events, and in which an event may not
be possible, is a function `step : σ → ε → Option σ`. A run is the fold of
a list of events, undefined as soon as one of them is. The rule used
everywhere is `run_induction`: a property that every step keeps is kept by
every run. `guarded` restricts a system to the steps a predicate on the
state and the event admits; a run under a predicate is one under every
weaker predicate, so whatever holds along the runs of the weaker one holds
along those of the stronger.

A property of the steps of a run is `Along`. When an invariant makes two
properties of a step equivalent and either of them keeps it, they are
equivalent along every run (`along_iff`): this is how the exact condition
under which the runs of a system are well behaved is read off its steps.
-/

namespace Transition

variable {σ ε : Type*}

/-- **A run**: the events in order, each from the state the one before
left. -/
def run (step : σ → ε → Option σ) : σ → List ε → Option σ
  | s, [] => some s
  | s, e :: es => (step s e).bind (fun s' => run step s' es)

variable {step : σ → ε → Option σ}

@[simp] theorem run_nil (s : σ) : run step s [] = some s := rfl

@[simp] theorem run_cons (s : σ) (e : ε) (es : List ε) :
    run step s (e :: es) = (step s e).bind (fun s' => run step s' es) := rfl

/-- A run is split after any prefix of its events. -/
theorem run_append (s : σ) (es es' : List ε) :
    run step s (es ++ es') = (run step s es).bind (fun s' => run step s' es') := by
  induction es generalizing s with
  | nil => rfl
  | cons e es ih =>
    rw [List.cons_append, run_cons, run_cons, Option.bind_assoc]
    exact congrArg _ (funext (fun s' => ih s'))

/-- **The invariant rule**: what every step keeps, every run keeps. -/
theorem run_induction {I : σ → Prop}
    (hstep : ∀ s e s', I s → step s e = some s' → I s')
    {s s' : σ} {es : List ε} (hs : I s) (hrun : run step s es = some s') :
    I s' := by
  induction es generalizing s with
  | nil =>
    rw [run_nil, Option.some.injEq] at hrun
    exact hrun ▸ hs
  | cons e es ih =>
    rw [run_cons, Option.bind_eq_some_iff] at hrun
    obtain ⟨s₁, h₁, hrest⟩ := hrun
    exact ih (hstep s e s₁ hs h₁) hrest

/-- **A system restricted to the steps `ok` admits.** -/
def guarded (ok : σ → ε → Bool) (step : σ → ε → Option σ) (s : σ) (e : ε) :
    Option σ :=
  if ok s e then step s e else none

/-- A guarded step is an admitted step of the system. -/
theorem guarded_eq_some {ok : σ → ε → Bool} {s s' : σ} {e : ε} :
    guarded ok step s e = some s' ↔ ok s e = true ∧ step s e = some s' := by
  unfold guarded
  split
  · rename_i h
    constructor
    · exact fun h' => ⟨h, h'⟩
    · exact fun h' => h'.2
  · rename_i h
    constructor
    · exact fun h' => nomatch h'
    · exact fun h' => absurd h'.1 h

/-- A run of a guarded system is one of every system guarded less. -/
theorem run_mono {ok ok' : σ → ε → Bool} (hok : ∀ s e, ok s e = true → ok' s e = true)
    {s s' : σ} {es : List ε} (h : run (guarded ok step) s es = some s') :
    run (guarded ok' step) s es = some s' := by
  induction es generalizing s with
  | nil => exact h
  | cons e es ih =>
    rw [run_cons, Option.bind_eq_some_iff] at h ⊢
    obtain ⟨s₁, h₁, hrest⟩ := h
    obtain ⟨hs₁, hstep⟩ := guarded_eq_some.mp h₁
    exact ⟨s₁, guarded_eq_some.mpr ⟨hok s e hs₁, hstep⟩, ih hrest⟩

/-! ## Properties of every step of a run -/

/-- **A property of every step of a run**, of the state before, the event
and the state after. -/
def Along (step : σ → ε → Option σ) (Q : σ → ε → σ → Prop) : σ → List ε → Prop
  | _, [] => True
  | s, e :: es => ∀ s', step s e = some s' → Q s e s' ∧ Along step Q s' es

@[simp] theorem along_nil (Q : σ → ε → σ → Prop) (s : σ) : Along step Q s [] := trivial

theorem along_cons (Q : σ → ε → σ → Prop) (s : σ) (e : ε) (es : List ε) :
    Along step Q s (e :: es)
      ↔ ∀ s', step s e = some s' → Q s e s' ∧ Along step Q s' es := Iff.rfl

/-- Whether every step of a run has a property is decided by making them. -/
instance Along.decidable (Q : σ → ε → σ → Prop) [hQ : ∀ s e s', Decidable (Q s e s')] :
    ∀ s es, Decidable (Along step Q s es)
  | _, [] => .isTrue trivial
  | s, e :: es =>
    match hstep : step s e with
    | none => .isTrue (fun s' hs' => by
        rw [hstep] at hs'
        cases hs')
    | some s₁ =>
      let _ := Along.decidable Q s₁ es
      decidable_of_iff (Q s e s₁ ∧ Along step Q s₁ es)
        ⟨fun h s' hs' => Option.some.inj (hstep.symm.trans hs') ▸ h, fun h => h s₁ hstep⟩

/-- **What holds after every step** holds at the end of a run. -/
theorem Along.run_end {P : σ → Prop} {s s' : σ} {es : List ε}
    (h : Along step (fun _ _ s' => P s') s es) (hs : P s) (hrun : run step s es = some s') :
    P s' := by
  induction es generalizing s with
  | nil =>
    rw [run_nil, Option.some.injEq] at hrun
    exact hrun ▸ hs
  | cons e es ih =>
    rw [run_cons, Option.bind_eq_some_iff] at hrun
    obtain ⟨s₁, h₁, hrest⟩ := hrun
    obtain ⟨hP, halong⟩ := h s₁ h₁
    exact ih halong hP hrest

/-- **Two properties of a step that an invariant makes equivalent** hold
along the same runs, if a step that has them keeps the invariant. -/
theorem along_iff {I : σ → Prop} {Q C : σ → ε → σ → Prop}
    (hiff : ∀ s e s', I s → step s e = some s' → (Q s e s' ↔ C s e s'))
    (hkeep : ∀ s e s', I s → step s e = some s' → C s e s' → I s')
    {s : σ} (hs : I s) (es : List ε) : Along step Q s es ↔ Along step C s es := by
  induction es generalizing s with
  | nil => exact Iff.rfl
  | cons e es ih =>
    rw [along_cons, along_cons]
    refine forall_congr' (fun s' => forall_congr' (fun hstep => ?_))
    constructor
    · rintro ⟨hQ, hrest⟩
      have hC := (hiff s e s' hs hstep).mp hQ
      exact ⟨hC, (ih (hkeep s e s' hs hstep hC)).mp hrest⟩
    · rintro ⟨hC, hrest⟩
      exact ⟨(hiff s e s' hs hstep).mpr hC, (ih (hkeep s e s' hs hstep hC)).mpr hrest⟩

end Transition
