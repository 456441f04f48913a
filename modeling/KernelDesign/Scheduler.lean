import KernelDesign.InterruptNesting

/-!
# The turns of the scheduler

`pit_handler` keeps the terminal whose turn it is in `curr_exec_term`. It
wraps the variable around before its `cli`, with interrupts on, and between
`cli` and `sti` makes it the next terminal, looks at the array of terminals
there, and counts it up, past the end of the array after the last one. It may
come in the middle of any other handler, and again before it has returned. But
its line is in service until it is past the `cli`, so that its statements come
in order, and the terminals have their turns one after the other
(`turns_in_order`).
-/

namespace KernelDesign

open Preemption Transition

/-- **The variables of `schedule.c`**. -/
structure SchedVars where
  currExecTerm : UInt8
  nextExecTerm : UInt8
  deriving DecidableEq

/-- **The statements of `pit_handler`** besides `cli`, `send_eoi` and `sti`. -/
inductive SchedAct
  /-- `curr_exec_term = curr_exec_term%3` -/
  | wrap
  /-- `next_exec_term = curr_exec_term` -/
  | choose
  /-- the test of `term_arr[next_exec_term].term_pcb` -/
  | look
  /-- `curr_exec_term++` -/
  | count

/-- What a statement does. The test has no effect, as `switch_context` is not
called. -/
def schedEffect (x : SchedVars) : SchedAct → SchedVars
  | .wrap => { x with currExecTerm := x.currExecTerm % 3 }
  | .choose => { x with nextExecTerm := x.currExecTerm }
  | .look => x
  | .count => { x with currExecTerm := x.currExecTerm + 1 }

/-- **`pit_handler`**; the other handlers leave the variables alone. -/
def schedWorks : Works Unit SchedAct := ⟨[.wrap], [.choose, .look, .count], fun _ => [], []⟩

/-- A step of the processor with the scheduler. -/
def schedStep (p : Pic) := interruptStep schedEffect schedWorks p

/-- The terminal whose turn comes after `n` turns. -/
def turn (n : ℕ) : UInt8 := UInt8.ofNat (n % 3)

/-- **The state of the variables** when `pit_handler` was started so many times,
and the last one has so much left to do. -/
inductive PitAt : ℕ → List SchedAct → SchedVars → Prop
  | boot : PitAt 0 [] ⟨0, 0⟩
  | begun {n x} (h : PitAt n [] x) : PitAt (n + 1) [.wrap, .choose, .look, .count] x
  | wrapped {n next} (h : next.toNat < 3) : PitAt (n + 1) [.choose, .look, .count] ⟨turn n, next⟩
  | chosen {n} : PitAt (n + 1) [.look, .count] ⟨turn n, turn n⟩
  | looked {n} : PitAt (n + 1) [.count] ⟨turn n, turn n⟩
  | done {n} : PitAt (n + 1) [] ⟨turn n + 1, turn n⟩

theorem turn_lt (n : ℕ) : (turn n).toNat < 3 := by
  have hlt : n % 3 < 3 := Nat.mod_lt n (by decide)
  rw [turn, UInt8.toNat_ofNat_of_lt' (by show n % 3 < 256; omega)]
  exact hlt

/-- Past the last terminal comes the first. -/
theorem turn_wrap (n : ℕ) : (turn n + 1) % 3 = turn (n + 1) := by
  have hall : ∀ m < 3, (UInt8.ofNat m + 1) % 3 = UInt8.ofNat ((m + 1) % 3) := by decide
  have hturn := hall (n % 3) (Nat.mod_lt n (by decide))
  rw [turn, turn, hturn, Nat.mod_add_mod]

/-- **The terminal that was chosen** is one of the three. -/
theorem PitAt.next_lt {n : ℕ} {as : List SchedAct} {x : SchedVars} (h : PitAt n as x) :
    x.nextExecTerm.toNat < 3 := by
  induction h with
  | boot => decide
  | begun h ih => exact ih
  | wrapped h => exact h
  | chosen => exact turn_lt _
  | looked => exact turn_lt _
  | done => exact turn_lt _

/-- **Each statement takes the scheduler on.** -/
theorem PitAt.act {n : ℕ} {a : SchedAct} {as : List SchedAct} {x : SchedVars}
    (h : PitAt n (a :: as) x) : PitAt n as (schedEffect x a) := by
  cases h with
  | begun hidle =>
    have hnext := hidle.next_lt
    cases hidle with
    | boot => exact .wrapped hnext
    | done =>
      rename_i m
      have hwrap := turn_wrap m
      have hwrapped : PitAt (m + 1 + 1) [.choose, .look, .count] ⟨turn (m + 1), turn m⟩ :=
        .wrapped hnext
      rw [← hwrap] at hwrapped
      exact hwrapped
  | wrapped => exact .chosen
  | chosen => exact .looked
  | looked => exact .done

/-- **The scheduler's variables are its own.** -/
theorem pit_rule :
    OwnRule schedEffect (fun as => as = [.wrap, .choose, .look, .count]) PitAt where
  begin := fun has _ _ hidle => has ▸ .begun hidle
  act := fun hat => hat.act

section Runs

variable {p : Pic} {pending : Line → Bool} {es : List (Move Line Unit SchedAct)}
  {s : State Line SchedAct ServiceRegs SchedVars}

/-- The line of the scheduler's clock, and its handler. -/
theorem all_pit (k : Unit) :
    (irqHandler schedWorks pitLine k).all = [.wrap, .choose, .look, .count] := rfl

/-- The other handlers. -/
theorem all_other {l : Line} (h : l ≠ pitLine) (k : Unit) :
    (irqHandler schedWorks l k).all = [] := by
  show (if l = pitLine then [SchedAct.wrap] else []) ++ works (handlerBody schedWorks l k) = []
  rw [if_neg h, works_handlerBody, Works.on, if_neg h]
  split
  · rfl
  · exact ite_self _

/-- **Along every run the scheduler is at one of its statements**, with the
variables as they are there. -/
theorem owns_run (hstart : ∀ b, .start b ∈ es → works b = [])
    (hcall : ∀ as, .call as ∈ es → as = [])
    (hrun : run (schedStep p) (quietStart pending ⟨0, 0⟩) es = some s) :
    Owns schedEffect pitLine PitAt (deliveries pitLine es) s := by
  have hboot : Owns schedEffect pitLine PitAt 0
      (quietStart pending ⟨0, 0⟩ : State Line SchedAct ServiceRegs SchedVars) :=
    ⟨fun a ha => absurd ha List.not_mem_nil, .boot⟩
  have hend := hboot.run pit_rule (inv_start quiet_registers.1 quiet_registers.2 pending _)
    lawful_controllers (bootMasks_handles schedWorks p) all_pit
    (fun l k hl a ha => absurd (all_other hl k ▸ ha) List.not_mem_nil)
    (fun b hb a ha => absurd (hstart b hb ▸ ha) List.not_mem_nil)
    (fun as has a ha => absurd (hcall as has ▸ ha) List.not_mem_nil) hrun
  rwa [Nat.zero_add] at hend

/-- **The terminals have their turns in order**, through every interleaving:
whenever `pit_handler` looks at a terminal it is one of the three, and when all
handlers have returned after `n + 1` ticks the next terminal is `n` modulo
three. -/
theorem turns_in_order (hstart : ∀ b, .start b ∈ es → works b = [])
    (hcall : ∀ as, .call as ∈ es → as = [])
    (hrun : run (schedStep p) (quietStart pending ⟨0, 0⟩) es = some s) :
    s.shared.nextExecTerm.toNat < 3
      ∧ ∀ n, s.frames = [] → deliveries pitLine es = n + 1 →
        s.shared.nextExecTerm.toNat = n % 3 ∧ s.shared.currExecTerm.toNat = n % 3 + 1 := by
  have howns := owns_run hstart hcall hrun
  refine ⟨howns.state.next_lt, fun n hframes hn => ?_⟩
  have hstate := howns.state
  rw [hn, State.toCome, hframes] at hstate
  change PitAt (n + 1) [] s.shared at hstate
  have hlt : n % 3 < 3 := Nat.mod_lt n (by decide)
  have hturn : (turn n).toNat = n % 3 := UInt8.toNat_ofNat_of_lt' (by show n % 3 < 256; omega)
  generalize s.shared = x at hstate
  cases hstate with
  | done =>
    refine ⟨hturn, ?_⟩
    rw [UInt8.toNat_add, hturn]
    show (n % 3 + 1) % 256 = n % 3 + 1
    omega

/-- A tick in the handler of a key, and another one before the first has
returned. -/
def twoTicks : List (Move Line Unit SchedAct) :=
  [.raise kbdLine, .deliver kbdLine (), .raise pitLine, .deliver pitLine ()]
    ++ List.replicate 7 .advance ++ [.raise pitLine, .deliver pitLine ()]
    ++ List.replicate 13 .advance

/-- The second terminal is next. -/
theorem turns_in_order_nested :
    ∃ s, run (schedStep ⟨0, 0, []⟩) (quietStart (fun _ => false) ⟨0, 0⟩) twoTicks = some s
      ∧ s.frames = [] ∧ s.shared.nextExecTerm.toNat = 1 ∧ s.shared.currExecTerm.toNat = 2 := by
  have hrun : ∃ s, run (schedStep ⟨0, 0, []⟩) (quietStart (fun _ => false) ⟨0, 0⟩) twoTicks = some s
      ∧ s.frames = [] := ⟨_, rfl, rfl⟩
  obtain ⟨s, hrun, hframes⟩ := hrun
  have hstart : ∀ b, .start b ∈ twoTicks → works b = [] := fun b hb => by simp [twoTicks] at hb
  have hcall : ∀ as, .call as ∈ twoTicks → as = [] := fun as has => by simp [twoTicks] at has
  obtain ⟨-, hturns⟩ := turns_in_order hstart hcall hrun
  obtain ⟨hnext, hcurr⟩ := hturns 1 hframes (by decide)
  exact ⟨s, hrun, hframes, hnext, hcurr⟩

end Runs

end KernelDesign
