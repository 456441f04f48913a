import KernelDesign.Library.SharedState

/-!
# Registers behind an index

A device has many registers and two ports: a byte written to the first one
selects a register, and the second one reads or writes the register that is
selected. What a driver does to the device is a list of accesses, in which
what it writes may depend on its variables.

A list is `Confined` if each of its writes comes after a selection in the same
list, and is of a value that is allowed in the register selected. By itself it
then leaves nothing but allowed values (`Confined.within`). Where interrupts
are on, a handler may select another register between the selection and the
write; if every section with interrupts masked is `Polite`, which is to say
that it puts the selection back, nothing is lost by that (`stable_polite`).
-/

namespace IndexedRegs

open Preemption

variable {ι β : Type*}

/-- **A device**: the register a byte selects, and what a read leaves in a
register. -/
structure Device where
  decode : UInt8 → UInt8
  afterRead : UInt8 → UInt8 → UInt8

/-- **The state of a device and its driver**: what was last written to the
index port, the registers, and the variables of the driver. -/
structure Bank (β : Type*) where
  index : UInt8
  regs : UInt8 → UInt8
  vars : β

/-- **An access**: the selection of a register by a constant or by what is in
the variables, a write of the data port or a read of it, a read of the index
port, or an assignment. -/
inductive PortAccess (β : Type*)
  | select (i : UInt8)
  | reselect (f : β → UInt8)
  | write (f : β → UInt8)
  | read (g : β → UInt8 → β)
  | look (g : β → UInt8 → β)
  | assign (g : β → β)

section Accesses

variable (d : Device)

/-- What an access does. -/
def access (x : Bank β) : PortAccess β → Bank β
  | .select i => { x with index := i }
  | .reselect f => { x with index := f x.vars }
  | .write f => { x with regs := Function.update x.regs (d.decode x.index) (f x.vars) }
  | .read g =>
    { x with
      vars := g x.vars (x.regs (d.decode x.index))
      regs := Function.update x.regs (d.decode x.index)
        (d.afterRead (d.decode x.index) (x.regs (d.decode x.index))) }
  | .look g => { x with vars := g x.vars x.index }
  | .assign g => { x with vars := g x.vars }

/-- **A driver keeps to the values `V`**, with the register in `i` selected if
one is known to be: what it writes and what its reads leave is allowed in
the register, whatever the variables are. -/
def Confined (V : UInt8 → UInt8 → Prop) : Option UInt8 → List (PortAccess β) → Prop
  | _, [] => True
  | _, .select j :: as => Confined V (some (d.decode j)) as
  | _, .reselect _ :: as => Confined V none as
  | i, .write f :: as => (∃ j, i = some j ∧ ∀ v, V j (f v)) ∧ Confined V i as
  | i, .read _ :: as => (∃ j, i = some j ∧ ∀ v, V j (d.afterRead j v)) ∧ Confined V i as
  | i, .look _ :: as => Confined V i as
  | i, .assign _ :: as => Confined V i as

/-- **Each register has the value it had, or an allowed one.** -/
def Within (V : UInt8 → UInt8 → Prop) (x y : Bank β) : Prop :=
  ∀ r, y.regs r = x.regs r ∨ V r (y.regs r)

/-- What is known of the selection is true. -/
def Selected (i : Option UInt8) (x : Bank β) : Prop := ∀ j, i = some j → d.decode x.index = j

variable {d} {V : UInt8 → UInt8 → Prop} {x y z : Bank β} {i : Option UInt8}
  {a : PortAccess β} {as : List (PortAccess β)}

theorem Within.refl (x : Bank β) : Within V x x := fun _ => Or.inl rfl

theorem Within.trans (h : Within V x y) (h' : Within V y z) : Within V x z := by
  intro r
  obtain heq | hv := h' r
  · rw [heq]
    exact h r
  · exact Or.inr hv

/-- A register gets an allowed value. -/
theorem within_update {j v : UInt8} (hv : V j v) (vars : β) :
    Within V x { x with regs := Function.update x.regs j v, vars := vars } := by
  intro r
  by_cases hr : r = j
  · subst hr
    refine Or.inr ?_
    show V r (Function.update x.regs r v r)
    rw [Function.update_self]
    exact hv
  · exact Or.inl (Function.update_of_ne hr v x.regs)

/-- **An access of a driver that keeps to `V`**, and the rest of the driver
does. -/
theorem Confined.access (h : Confined d V i (a :: as)) (hi : Selected d i x) :
    Within V x (access d x a)
      ∧ ∃ i', Confined d V i' as ∧ Selected d i' (IndexedRegs.access d x a) := by
  cases a with
  | select j => exact ⟨Within.refl x, _, h, fun k hk => Option.some.inj hk⟩
  | reselect f => exact ⟨Within.refl x, none, h, nofun⟩
  | write f =>
    obtain ⟨⟨j, hj, hv⟩, hrest⟩ := h
    refine ⟨?_, i, hrest, hi⟩
    rw [IndexedRegs.access, hi j hj]
    exact within_update (hv x.vars) x.vars
  | read g =>
    obtain ⟨⟨j, hj, hv⟩, hrest⟩ := h
    refine ⟨?_, i, hrest, hi⟩
    rw [IndexedRegs.access, hi j hj]
    exact within_update (hv _) _
  | look g => exact ⟨Within.refl x, i, h, hi⟩
  | assign g => exact ⟨Within.refl x, i, h, hi⟩

/-- **A driver that keeps to `V`** leaves nothing else. -/
theorem Confined.within (h : Confined d V i as) (hi : Selected d i x) :
    Within V x (as.foldl (IndexedRegs.access d) x) := by
  induction as generalizing i x with
  | nil => exact Within.refl x
  | cons a as ih =>
    obtain ⟨hstep, i', hrest, hi'⟩ := h.access hi
    exact hstep.trans (ih hrest hi')

/-- **A part of a driver** keeps to the same values. -/
theorem Confined.left {bs : List (PortAccess β)} (h : Confined d V i (as ++ bs)) :
    Confined d V i as := by
  induction as generalizing i with
  | nil => trivial
  | cons a as ih =>
    cases a with
    | select j => exact ih (i := some (d.decode j)) h
    | reselect f => exact ih (i := none) h
    | write f => exact ⟨h.1, ih h.2⟩
    | read g => exact ⟨h.1, ih h.2⟩
    | look g => exact ih (i := i) h
    | assign g => exact ih (i := i) h

/-- A driver that selects for itself may come after anything. -/
theorem Confined.of_none (h : Confined d V none as) : Confined d V i as := by
  induction as generalizing i with
  | nil => trivial
  | cons a as ih =>
    cases a with
    | select j => exact h
    | reselect f => exact h
    | write f =>
      obtain ⟨⟨j, hj, -⟩, -⟩ := h
      cases hj
    | read g =>
      obtain ⟨⟨j, hj, -⟩, -⟩ := h
      cases hj
    | look g => exact ih (i := i) h
    | assign g => exact ih (i := i) h

/-- **Two drivers, one after the other.** -/
theorem Confined.append {bs : List (PortAccess β)} (h : Confined d V i as)
    (h' : Confined d V none bs) : Confined d V i (as ++ bs) := by
  induction as generalizing i with
  | nil => exact h'.of_none
  | cons a as ih =>
    cases a with
    | select j => exact ih (i := some (d.decode j)) h
    | reselect f => exact ih (i := none) h
    | write f => exact ⟨h.1, ih h.2⟩
    | read g => exact ⟨h.1, ih h.2⟩
    | look g => exact ih (i := i) h
    | assign g => exact ih (i := i) h

/-- Nothing need be known before a selection. -/
theorem selected_none (x : Bank β) : Selected d none x := nofun

end Accesses

/-! ## With interrupts on -/

section Interrupted

variable (d : Device)

/-- **A driver that puts the selection back**, and keeps to `V`. -/
structure Polite (V : UInt8 → UInt8 → Prop) (as : List (PortAccess β)) : Prop where
  confined : Confined d V none as
  index : ∀ x : Bank β, (as.foldl (access d) x).index = x.index

/-- **The program under polite sections**: what it has to do keeps to `V`, the
selection is the one it made last, and only allowed values came since
`x₀`. -/
def Undisturbed (V : UInt8 → UInt8 → Prop) (x₀ : Bank β) (as : List (PortAccess β))
    (x : Bank β) : Prop :=
  Within V x₀ x ∧ ∃ i, Confined d V i as ∧ Selected d i x

variable {d} {V : UInt8 → UInt8 → Prop}

/-- **Polite drivers, one after the other.** -/
theorem Polite.flatMap {δ : Type*} {f : δ → List (PortAccess β)} {cs : List δ}
    (h : ∀ c ∈ cs, Polite d V (f c)) : Polite d V (cs.flatMap f) := by
  induction cs with
  | nil => exact ⟨trivial, fun _ => rfl⟩
  | cons c cs ih =>
    rw [List.forall_mem_cons] at h
    obtain ⟨hc, hcs⟩ := h
    have hrest := ih hcs
    rw [List.flatMap_cons]
    refine ⟨hc.confined.append hrest.confined, fun x => ?_⟩
    rw [List.foldl_append]
    exact (hrest.index _).trans (hc.index x)

/-- **Polite sections may come at any point** of a program that keeps to
`V`. -/
theorem stable_polite (x₀ : Bank β) :
    Stable (access d) (fun b : List (Act ι (PortAccess β)) => Polite d V (works b))
      (fun _ => False) (Confined d V none) (Undisturbed d V x₀) where
  block := by
    rintro b hb as x ⟨hwithin, i, hconfined, hi⟩
    refine ⟨hwithin.trans (hb.confined.within (selected_none x)), i, hconfined, fun j hj => ?_⟩
    rw [hb.index x]
    exact hi j hj
  opening := fun hfalse => hfalse.elim
  act := by
    rintro a as x ⟨hwithin, i, hconfined, hi⟩
    obtain ⟨hstep, i', hrest, hi'⟩ := hconfined.access hi
    exact ⟨hwithin.trans hstep, i', hrest, hi'⟩
  call := by
    rintro as has x ⟨hwithin, -⟩
    exact ⟨hwithin, none, has, selected_none x⟩

/-- **Registers have only allowed values everywhere**, inside the sections
too. -/
theorem kept_within {γ : Type*} {A : List (Act ι (PortAccess β)) → Prop}
    (hA : ∀ {b}, A b → Polite d V (works b)) {O : PortAccess β → Prop} {x₀ : Bank β}
    {s : State ι (PortAccess β) γ (Bank β)}
    (h : Kept (access d) A O (Undisturbed d V x₀) s) : Within V x₀ s.shared := by
  refine h.everywhere (fun hx => hx.1) ?_
  rintro done rest hsection as x ⟨hwithin, -⟩
  have hconfined := (hA hsection).confined
  rw [works_append] at hconfined
  exact hwithin.trans (hconfined.left.within (selected_none x))

/-- **A driver that writes nothing** leaves the registers, if reads do. -/
theorem regs_of_reads (hd : ∀ r v, d.afterRead r v = v) {as : List (PortAccess β)}
    (has : ∀ f, .write f ∉ as) (x : Bank β) :
    (as.foldl (access d) x).regs = x.regs := by
  induction as generalizing x with
  | nil => rfl
  | cons a as ih =>
    refine (ih (fun f hf => has f (List.mem_cons_of_mem a hf)) _).trans ?_
    cases a with
    | write f => exact absurd List.mem_cons_self (has f)
    | read g =>
      rw [access, hd]
      exact Function.update_eq_self _ _
    | select _ | reselect _ | look _ | assign _ => rfl

end Interrupted

end IndexedRegs
