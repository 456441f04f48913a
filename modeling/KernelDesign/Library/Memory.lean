import KernelDesign.Library.Buffers
import Mathlib.Data.Set.Operations

/-!
# Memory with the record of its stores

A memory here is its cells and the list of the addresses stored to, the
last one first. No operation reads the list: it is what a statement about
where a program writes is about, which the cells alone cannot decide, since
a store may leave what it finds. `StoresIn S` relates a memory to a later
one when every store between the two has gone to `S`; it is reflexive,
transitive and monotone in `S`, so the stores of a loop are where the
stores of its steps are.

`write` stores a sequence of cells upwards. The two moves at the end copy a
range cell by cell, from its first cell upwards or from its last downwards.
Each has the effect of a copy made at once where it never reads a cell it
has stored to: upwards where the destination does not lie inside the source
above its start, downwards where it does not lie inside the source below.
-/

/-- **A memory**, with the addresses stored to, the last one first. -/
structure Memory (α : Type*) where
  cells : Buffer α
  stored : List ℕ

namespace Memory

variable {α : Type*} {S T : Set ℕ} {m m₁ m₂ : Memory α}

/-- Store one cell. -/
def store (m : Memory α) (a : ℕ) (c : α) : Memory α :=
  ⟨Function.update m.cells a c, a :: m.stored⟩

@[simp] theorem store_cells (m : Memory α) (a : ℕ) (c : α) :
    (m.store a c).cells = Function.update m.cells a c := rfl

/-- **Every store since `m` has gone to `S`.** -/
def StoresIn (S : Set ℕ) (m m' : Memory α) : Prop :=
  ∃ l, m'.stored = l ++ m.stored ∧ (∀ a ∈ l, a ∈ S)
    ∧ ∀ a, a ∉ l → m'.cells a = m.cells a

/-- The frame: a cell off `S` is what it was. -/
theorem StoresIn.cells_eq {m' : Memory α} (h : StoresIn S m m') {a : ℕ} (ha : a ∉ S) :
    m'.cells a = m.cells a := by
  obtain ⟨l, -, hl, hframe⟩ := h
  exact hframe a (fun hal => ha (hl a hal))

theorem StoresIn.refl (S : Set ℕ) (m : Memory α) : StoresIn S m m :=
  ⟨[], rfl, fun _ ha => absurd ha List.not_mem_nil, fun _ _ => rfl⟩

theorem StoresIn.trans (h₁ : StoresIn S m m₁) (h₂ : StoresIn S m₁ m₂) :
    StoresIn S m m₂ := by
  obtain ⟨l₁, hs₁, hin₁, hc₁⟩ := h₁
  obtain ⟨l₂, hs₂, hin₂, hc₂⟩ := h₂
  refine ⟨l₂ ++ l₁, by rw [hs₂, hs₁, List.append_assoc], fun a ha => ?_, fun a ha => ?_⟩
  · obtain ha₂ | ha₁ := List.mem_append.mp ha
    · exact hin₂ a ha₂
    · exact hin₁ a ha₁
  · rw [List.mem_append, not_or] at ha
    rw [hc₂ a ha.1, hc₁ a ha.2]

theorem StoresIn.mono (h : StoresIn S m m₁) (hST : S ⊆ T) : StoresIn T m m₁ := by
  obtain ⟨l, hs, hin, hc⟩ := h
  exact ⟨l, hs, fun a ha => hST (hin a ha), hc⟩

/-- **Stores to an interval** go to any that contains it. -/
theorem StoresIn.widen {d n d' n' : ℕ} (h : StoresIn {a | d ≤ a ∧ a < d + n} m m₁)
    (hd : d' ≤ d) (hn : d + n ≤ d' + n') : StoresIn {a | d' ≤ a ∧ a < d' + n'} m m₁ := by
  refine h.mono ?_
  rintro a ⟨hl, hu⟩
  exact ⟨hd.trans hl, hu.trans_le hn⟩

/-- A store goes to its address. -/
theorem StoresIn.store {a : ℕ} (h : StoresIn S m m₁) (ha : a ∈ S) (c : α) :
    StoresIn S m (m₁.store a c) := by
  refine h.trans ⟨[a], rfl, fun b hb => ?_, fun b hb => ?_⟩
  · rw [List.mem_singleton.mp hb]
    exact ha
  · exact Function.update_of_ne (fun hba => hb (List.mem_singleton.mpr hba)) c m₁.cells

/-- **A write**: `n` cells of `src` go to `d` on, the first one first. -/
def write : ℕ → ℕ → Buffer α → Memory α → Memory α
  | 0, _, _, m => m
  | n + 1, d, src, m => write n (d + 1) (src.drop 1) (m.store d (src 0))

theorem write_cells (n d : ℕ) (src : Buffer α) (m : Memory α) :
    (write n d src m).cells = m.cells.copy d src n := by
  induction n generalizing d src m with
  | zero => rw [write, Buffer.copy_zero]
  | succ n ih => rw [write, ih, store_cells, Buffer.copy_update]

theorem write_storesIn (n d : ℕ) (src : Buffer α) (m : Memory α) :
    StoresIn {a | d ≤ a ∧ a < d + n} m (write n d src m) := by
  induction n generalizing d src m with
  | zero => exact .refl _ m
  | succ n ih =>
    have hd : d ∈ {a | d ≤ a ∧ a < d + (n + 1)} := ⟨le_refl d, by omega⟩
    exact ((StoresIn.refl _ m).store hd _).trans
      ((ih (d + 1) _ _).widen (by omega) (by omega))

/-- Sources that agree on the cells written give the same write. -/
theorem write_congr {n : ℕ} {src src' : Buffer α} (h : ∀ j, j < n → src j = src' j) (d : ℕ)
    (m : Memory α) : write n d src m = write n d src' m := by
  induction n generalizing d src src' m with
  | zero => rfl
  | succ n ih =>
    rw [write, write, h 0 (Nat.succ_pos n)]
    refine ih (fun j hj => ?_) _ _
    rw [Buffer.drop_apply, Buffer.drop_apply, h _ (by omega)]

/-- **A write in two parts.** -/
theorem write_add (n k d : ℕ) (src : Buffer α) (m : Memory α) :
    write (n + k) d src m = write k (d + n) (src.drop n) (write n d src m) := by
  induction n generalizing d src m with
  | zero => rw [Nat.zero_add, Nat.add_zero, Buffer.drop_zero, write]
  | succ n ih =>
    rw [Nat.add_right_comm, write, write, ih, Buffer.drop_drop, Nat.add_assoc, Nat.add_comm 1]

/-! ## Moves -/

/-- **A move upwards**: `n` cells from `s` on to `d` on, the first one
first. -/
def moveUp : ℕ → ℕ → ℕ → Memory α → Memory α
  | 0, _, _, m => m
  | n + 1, s, d, m => moveUp n (s + 1) (d + 1) (m.store d (m.cells s))

/-- **A move downwards**: `n` cells from `s` on to `d` on, the last one
first. -/
def moveDown : ℕ → ℕ → ℕ → Memory α → Memory α
  | 0, _, _, m => m
  | n + 1, s, d, m => moveDown n s d (m.store (d + n) (m.cells (s + n)))

/-- **A move upwards in two parts.** -/
theorem moveUp_add (n k s d : ℕ) (m : Memory α) :
    moveUp (n + k) s d m = moveUp k (s + n) (d + n) (moveUp n s d m) := by
  induction n generalizing s d m with
  | zero => rw [Nat.zero_add, Nat.add_zero, Nat.add_zero, moveUp]
  | succ n ih =>
    rw [Nat.add_right_comm, moveUp, moveUp, ih, Nat.add_assoc, Nat.add_assoc, Nat.add_comm 1]

/-- **A move upwards writes what the source held** where the destination
starts below the source or past its end: what it has stored to, it has
read. -/
theorem moveUp_eq_write {n s d : ℕ} (h : d ≤ s ∨ s + n ≤ d) (m : Memory α) :
    moveUp n s d m = write n d (m.cells.drop s) m := by
  induction n generalizing s d m with
  | zero => rfl
  | succ n ih =>
    rw [moveUp, ih (by omega), write, Buffer.drop_drop]
    refine write_congr (fun j hj => ?_) _ _
    rw [Buffer.drop_apply, Buffer.drop_apply, store_cells, Function.update_of_ne (by omega)]

/-- **A move upwards is a copy** made at once, under the same condition. -/
theorem moveUp_cells {n s d : ℕ} (h : d ≤ s ∨ s + n ≤ d) (m : Memory α) :
    (moveUp n s d m).cells = m.cells.copy d (m.cells.drop s) n := by
  rw [moveUp_eq_write h, write_cells]

/-- **A move downwards is a copy** where the destination starts above the
source or ends below it. -/
theorem moveDown_cells {n s d : ℕ} (h : s ≤ d ∨ d + n ≤ s) (m : Memory α) :
    (moveDown n s d m).cells = m.cells.copy d (m.cells.drop s) n := by
  induction n generalizing m with
  | zero =>
    rw [moveDown, Buffer.copy_zero]
  | succ n ih =>
    rw [moveDown, ih (by omega), store_cells, ← Buffer.copy_update_last]
    refine Buffer.copy_congr (fun j hj => ?_)
    rw [Buffer.drop_apply, Buffer.drop_apply, Function.update_of_ne (by omega)]

theorem moveUp_storesIn (n s d : ℕ) (m : Memory α) :
    StoresIn {a | d ≤ a ∧ a < d + n} m (moveUp n s d m) := by
  induction n generalizing s d m with
  | zero => exact .refl _ m
  | succ n ih =>
    have hd : d ∈ {a | d ≤ a ∧ a < d + (n + 1)} := ⟨le_refl d, by omega⟩
    exact ((StoresIn.refl _ m).store hd _).trans
      ((ih (s + 1) (d + 1) _).widen (by omega) (by omega))

theorem moveDown_storesIn (n s d : ℕ) (m : Memory α) :
    StoresIn {a | d ≤ a ∧ a < d + n} m (moveDown n s d m) := by
  induction n generalizing m with
  | zero => exact .refl _ m
  | succ n ih =>
    have hd : d + n ∈ {a | d ≤ a ∧ a < d + (n + 1)} := ⟨by omega, by omega⟩
    exact ((StoresIn.refl _ m).store hd _).trans ((ih _).widen (le_refl d) (by omega))

end Memory
