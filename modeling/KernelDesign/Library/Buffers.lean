import Mathlib.Data.List.Range

/-!
# Buffers

What a pointer gives access to is a sequence of cells with no upper end
that the type records: `Buffer α` is a function of the distance from the
pointer. Filling and copying are updates of a prefix or of an interval,
and the frame condition of either is `AgreeOutside`, which says that two
buffers hold the same cells off an interval. It is reflexive, transitive
over one interval and monotone in the interval, so the frame of a loop is
the frame of its steps.
-/

/-- The cells from a pointer on. -/
abbrev Buffer (α : Type*) := ℕ → α

namespace Buffer

variable {α : Type*}

/-- **Fill**: the first `n` cells become `c`. -/
def fill (b : Buffer α) (c : α) (n : ℕ) : Buffer α :=
  fun j => if j < n then c else b j

/-- **Copy**: the `n` cells from `pos` on become the first `n` cells of
`src`. -/
def copy (b : Buffer α) (pos : ℕ) (src : Buffer α) (n : ℕ) : Buffer α :=
  fun j => if pos ≤ j ∧ j < pos + n then src (j - pos) else b j

/-- The buffer seen from a pointer moved up by `n` cells. -/
def drop (b : Buffer α) (n : ℕ) : Buffer α := fun j => b (n + j)

/-- An array of fixed size, read as a buffer whose other cells are `c`. -/
def ofArray {n : ℕ} (a : Fin n → α) (c : α) : Buffer α :=
  fun j => if h : j < n then a ⟨j, h⟩ else c

@[simp] theorem drop_apply (b : Buffer α) (n j : ℕ) :
    b.drop n j = b (n + j) := rfl

@[simp] theorem drop_zero (b : Buffer α) : b.drop 0 = b := by
  funext j
  rw [drop_apply, Nat.zero_add]

@[simp] theorem drop_drop (b : Buffer α) (m n : ℕ) : (b.drop m).drop n = b.drop (m + n) := by
  funext j
  simp [Nat.add_assoc]

theorem fill_of_lt {b : Buffer α} {c : α} {n j : ℕ} (h : j < n) :
    b.fill c n j = c := if_pos h

theorem fill_of_le {b : Buffer α} {c : α} {n j : ℕ} (h : n ≤ j) :
    b.fill c n j = b j := if_neg (Nat.not_lt.mpr h)

/-- Inside the interval a copy reads its source. -/
theorem copy_of_mem {b src : Buffer α} {pos n j : ℕ} (h : pos ≤ j)
    (h' : j < pos + n) : b.copy pos src n j = src (j - pos) :=
  if_pos ⟨h, h'⟩

/-- Below the interval a copy changes nothing. -/
theorem copy_of_lt {b src : Buffer α} {pos n j : ℕ} (h : j < pos) :
    b.copy pos src n j = b j := if_neg (fun hj => absurd hj.1 (by omega))

/-- Above the interval a copy changes nothing. -/
theorem copy_of_le {b src : Buffer α} {pos n j : ℕ} (h : pos + n ≤ j) :
    b.copy pos src n j = b j := if_neg (fun hj => absurd hj.2 (by omega))

/-- **What a copy is**: the cells of the source in the interval, and the
others as they were. -/
theorem copy_spec (b src : Buffer α) (pos n : ℕ) :
    (∀ i, i < n → b.copy pos src n (pos + i) = src i)
      ∧ ∀ j, j < pos ∨ pos + n ≤ j → b.copy pos src n j = b j := by
  refine ⟨fun i hi => ?_, fun j hj => ?_⟩
  · rw [copy_of_mem (by omega) (by omega), Nat.add_sub_cancel_left]
  · obtain hlt | hle := hj
    · exact copy_of_lt hlt
    · exact copy_of_le hle

/-- A copy seen from the pointer it goes to. -/
theorem drop_copy (b src : Buffer α) (pos n : ℕ) :
    (b.copy pos src n).drop pos = (b.drop pos).copy 0 src n := by
  funext j
  rw [drop_apply]
  obtain hin | hout := Nat.lt_or_ge j n
  · rw [copy_of_mem (by omega) (by omega), copy_of_mem (by omega) (by omega),
      Nat.add_sub_cancel_left, Nat.sub_zero]
  · rw [copy_of_le (by omega), copy_of_le (by omega), drop_apply]

/-- A copy of one cell over and over fills. -/
theorem copy_const (b : Buffer α) (c : α) (n : ℕ) : b.copy 0 (fun _ => c) n = b.fill c n := by
  funext j
  obtain hin | hout := Nat.lt_or_ge j n
  · rw [copy_of_mem (by omega) (by omega), fill_of_lt hin]
  · rw [copy_of_le (by omega), fill_of_le hout]

/-- **A cleared prefix with a copy at its start.** -/
theorem fill_copy_apply (b src : Buffer α) (c : α) (size len j : ℕ) :
    (b.fill c size).copy 0 src len j
      = if j < len then src j else if j < size then c else b j := by
  by_cases hj : j < len
  · rw [if_pos hj, copy_of_mem (Nat.zero_le j) (by omega), Nat.sub_zero]
  · rw [if_neg hj, copy_of_le (by omega)]
    by_cases hs : j < size
    · rw [if_pos hs, fill_of_lt hs]
    · rw [if_neg hs, fill_of_le (by omega)]

/-- **A copy cell by cell**: the first cell, and the others from the next
pointers on. -/
theorem copy_update (b src : Buffer α) (pos n : ℕ) :
    Buffer.copy (Function.update b pos (src 0)) (pos + 1) (src.drop 1) n
      = b.copy pos src (n + 1) := by
  funext j
  obtain hlt | rfl | hgt := Nat.lt_trichotomy j pos
  · rw [copy_of_lt (by omega), copy_of_lt hlt, Function.update_of_ne (Nat.ne_of_lt hlt)]
  · rw [copy_of_lt (Nat.lt_succ_self j), copy_of_mem (le_refl j) (by omega),
      Function.update_self, Nat.sub_self]
  · obtain hin | hout := Nat.lt_or_ge j (pos + 1 + n)
    · rw [copy_of_mem hgt hin, copy_of_mem (Nat.le_of_lt hgt) (by omega), drop_apply]
      exact congrArg src (by omega)
    · rw [copy_of_le hout, copy_of_le (by omega), Function.update_of_ne (Nat.ne_of_gt hgt)]

/-- A copy of nothing. -/
@[simp] theorem copy_zero (b src : Buffer α) (pos : ℕ) : b.copy pos src 0 = b := by
  funext j
  obtain hlt | hle := Nat.lt_or_ge j pos
  · exact copy_of_lt hlt
  · exact copy_of_le hle

/-- Sources that agree on the cells copied give the same copy. -/
theorem copy_congr {b src src' : Buffer α} {pos n : ℕ} (h : ∀ j, j < n → src j = src' j) :
    b.copy pos src n = b.copy pos src' n := by
  funext j
  unfold copy
  split
  · exact h _ (by omega)
  · rfl

/-- **A copy cell by cell** from the last one on. -/
theorem copy_update_last (b src : Buffer α) (pos n : ℕ) :
    Buffer.copy (Function.update b (pos + n) (src n)) pos src n = b.copy pos src (n + 1) := by
  funext j
  obtain hlt | hle := Nat.lt_or_ge j pos
  · rw [copy_of_lt hlt, copy_of_lt hlt, Function.update_of_ne (by omega)]
  obtain hin | rfl | hout := Nat.lt_trichotomy j (pos + n)
  · rw [copy_of_mem hle hin, copy_of_mem hle (by omega)]
  · rw [copy_of_le (le_refl _), copy_of_mem hle (by omega), Function.update_self,
      Nat.add_sub_cancel_left]
  · rw [copy_of_le (Nat.le_of_lt hout), copy_of_le (by omega),
      Function.update_of_ne (Nat.ne_of_gt hout)]

/-! ## The first cells as a list -/

/-- **The first `n` cells.** -/
def first (b : Buffer α) (n : ℕ) : List α := (List.range n).map b

@[simp] theorem length_first (b : Buffer α) (n : ℕ) : (b.first n).length = n := by
  rw [first, List.length_map, List.length_range]

theorem first_succ (b : Buffer α) (n : ℕ) : b.first (n + 1) = b.first n ++ [b n] := by
  rw [first, List.range_succ, List.map_append]
  rfl

/-- One cell less is the list without its last entry. -/
theorem dropLast_first (b : Buffer α) (n : ℕ) :
    (b.first (n + 1)).dropLast = b.first n := by
  rw [first_succ, List.dropLast_concat]

/-- Buffers that agree on the first cells have the same ones. -/
theorem first_congr {b b' : Buffer α} {n : ℕ} (h : ∀ j, j < n → b j = b' j) :
    b.first n = b'.first n :=
  List.map_congr_left (fun j hj => h j (List.mem_range.mp hj))

/-- Lists of first cells that are equal are equal cell by cell. -/
theorem eq_of_first_eq {b b' : Buffer α} {n j : ℕ} (h : b.first n = b'.first n)
    (hj : j < n) : b j = b' j :=
  List.map_inj_left.mp h j (List.mem_range.mpr hj)

/-- The list cut at `m` cells. -/
theorem take_first (b : Buffer α) (m n : ℕ) : (b.first n).take m = b.first (min m n) := by
  rw [first, ← List.map_take, List.take_range]
  rfl

/-- A cell below `n` is among the first `n`. -/
theorem mem_first {b : Buffer α} {n j : ℕ} (h : j < n) : b j ∈ b.first n :=
  List.mem_map_of_mem (List.mem_range.mpr h)

/-- The first `m + n` cells are the first `m` and the `n` from there on. -/
theorem first_add (b : Buffer α) (m n : ℕ) :
    b.first (m + n) = b.first m ++ (b.drop m).first n := by
  rw [first, List.range_add, List.map_append, List.map_map]
  rfl

/-- The first cell and the others. -/
theorem first_cons (b : Buffer α) (n : ℕ) : b.first (n + 1) = b 0 :: (b.drop 1).first n := by
  rw [Nat.add_comm, first_add]
  rfl

/-- The list without its first `m` cells. -/
theorem drop_first (b : Buffer α) (m n : ℕ) : (b.first n).drop m = (b.drop m).first (n - m) := by
  obtain hlt | hle := Nat.lt_or_ge n m
  · rw [Nat.sub_eq_zero_of_le (Nat.le_of_lt hlt)]
    exact List.drop_eq_nil_of_le (by rw [length_first]; exact Nat.le_of_lt hlt)
  · obtain ⟨k, rfl⟩ := Nat.exists_eq_add_of_le hle
    rw [first_add, Nat.add_sub_cancel_left]
    exact List.drop_left' (length_first b m)

/-- Cells that all hold `c`. -/
theorem first_eq_replicate {b : Buffer α} {c : α} {n : ℕ} (h : ∀ j, j < n → b j = c) :
    b.first n = List.replicate n c := by
  refine List.eq_replicate_iff.mpr ⟨length_first b n, fun x hx => ?_⟩
  obtain ⟨j, hj, rfl⟩ := List.mem_map.mp hx
  exact h j (List.mem_range.mp hj)

/-- **A cleared prefix with a copy at its start**, as a list: the copy and
the filling behind it. -/
theorem first_fill_copy (b src : Buffer α) (c : α) {size len : ℕ} (h : len ≤ size) :
    ((b.fill c size).copy 0 src len).first size
      = src.first len ++ List.replicate (size - len) c := by
  obtain ⟨n, rfl⟩ := Nat.exists_eq_add_of_le h
  rw [first_add, Nat.add_sub_cancel_left]
  congr 1
  · refine first_congr (fun j hj => ?_)
    rw [fill_copy_apply, if_pos hj]
  · refine first_eq_replicate (fun j hj => ?_)
    rw [drop_apply, fill_copy_apply, if_neg (by omega), if_pos (by omega)]

/-! ## Frames -/

/-- **Two buffers agree outside `[lo, hi)`.** -/
def AgreeOutside (lo hi : ℕ) (b b' : Buffer α) : Prop :=
  ∀ j, j < lo ∨ hi ≤ j → b' j = b j

theorem AgreeOutside.refl (lo hi : ℕ) (b : Buffer α) :
    AgreeOutside lo hi b b := fun _ _ => rfl

/-- Two changes inside one interval are a change inside it. -/
theorem AgreeOutside.trans {lo hi : ℕ} {b₁ b₂ b₃ : Buffer α}
    (h : AgreeOutside lo hi b₁ b₂) (h' : AgreeOutside lo hi b₂ b₃) :
    AgreeOutside lo hi b₁ b₃ := fun j hj => (h' j hj).trans (h j hj)

/-- A change inside an interval is a change inside a larger one. -/
theorem AgreeOutside.mono {lo hi lo' hi' : ℕ} {b b' : Buffer α}
    (h : AgreeOutside lo hi b b') (hlo : lo' ≤ lo) (hhi : hi ≤ hi') :
    AgreeOutside lo' hi' b b' := fun j hj => h j (by omega)

/-- A copy changes its interval. -/
theorem agreeOutside_copy (b src : Buffer α) (pos n : ℕ) :
    AgreeOutside pos (pos + n) b (b.copy pos src n) := fun j hj => by
  rcases hj with hj | hj
  · exact copy_of_lt hj
  · exact copy_of_le hj

/-- **The first cells turned round.** -/
theorem reverse_first (b : Buffer α) (n : ℕ) :
    (b.first n).reverse = Buffer.first (fun j => b (n - 1 - j)) n := by
  rw [first, ← List.map_reverse, List.range_eq_range', List.reverse_range', List.map_map,
    Nat.zero_add]
  rfl

end Buffer
