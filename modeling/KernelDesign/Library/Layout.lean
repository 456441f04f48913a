import KernelDesign.Library.Buffers
import Mathlib.Data.List.GetD

/-!
# Laying out records and files

A store that is one sequence of cells is read by position: records of one
size at the multiples of that size, and a file in the blocks it was given.
`records` lays out records; laid out again, records of records are a table of
tables. `area` lays out files of any length, each from a block boundary on,
and `start` is the block that a file begins with.

The two results are that every record and every file is read back from where
it was put, and that the blocks of all files are below the total.
-/

namespace Layout

variable {α : Type*}

/-! ## Records -/

/-- **Records of one size**, one after the other. -/
def records (size : ℕ) (record : ℕ → Buffer α) : Buffer α :=
  fun a => record (a / size) (a % size)

/-- **A record is read back** from the multiple of the size it was put at. -/
theorem records_apply {size : ℕ} (record : ℕ → Buffer α) {k j : ℕ} (hj : j < size) :
    records size record (k * size + j) = record k j := by
  have hsize : 0 < size := Nat.zero_lt_of_lt hj
  have hdiv : (k * size + j) / size = k := by
    rw [Nat.mul_comm, Nat.mul_add_div hsize, Nat.div_eq_of_lt hj, Nat.add_zero]
  have hmod : (k * size + j) % size = j := by
    rw [Nat.mul_comm, Nat.mul_add_mod, Nat.mod_eq_of_lt hj]
  rw [records, hdiv, hmod]

/-! ## Blocks -/

/-- **The number of blocks** that `n` cells take. -/
def blocks (size n : ℕ) : ℕ := (n + size - 1) / size

section Blocks

variable {size n : ℕ} (hsize : 0 < size)

include hsize

/-- A block is one of those that `n` cells take if it begins below `n`. -/
theorem lt_blocks_iff {i : ℕ} : i < blocks size n ↔ i * size < n := by
  rw [blocks, Nat.lt_iff_add_one_le, Nat.le_div_iff_mul_le hsize, Nat.add_mul]
  omega

/-- The blocks hold all cells. -/
theorem le_blocks_mul : n ≤ blocks size n * size := by
  by_contra hlt
  exact Nat.lt_irrefl _ ((lt_blocks_iff hsize).mpr (Nat.lt_of_not_le hlt))

/-- The block of a cell. -/
theorem div_lt_blocks {p : ℕ} (hp : p < n) : p / size < blocks size n :=
  (lt_blocks_iff hsize).mpr (Nat.lt_of_le_of_lt (Nat.div_mul_le_self p size) hp)

end Blocks

/-! ## Files -/

/-- **Files in blocks**: each from a block boundary on, and `c` in the cells
that none has. -/
def area (size : ℕ) (c : α) : List (List α) → Buffer α
  | [] => fun _ => c
  | f :: fs => fun j =>
    if j < blocks size f.length * size then f.getD j c
    else area size c fs (j - blocks size f.length * size)

/-- **The block a file begins with**; past the last file, the number of all
blocks. -/
def start (size : ℕ) : List (List α) → ℕ → ℕ
  | f :: fs, i + 1 => blocks size f.length + start size fs i
  | _, _ => 0

theorem start_zero (size : ℕ) (fs : List (List α)) : start size fs 0 = 0 := by
  cases fs <;> rfl

theorem start_succ (size : ℕ) (f : List α) (fs : List (List α)) (i : ℕ) :
    start size (f :: fs) (i + 1) = blocks size f.length + start size fs i := rfl

/-- The cells of the first file. -/
theorem area_first {size : ℕ} (hsize : 0 < size) (c : α) {f : List α} (fs : List (List α)) {p : ℕ}
    (hp : p < f.length) : area size c (f :: fs) p = f[p] := by
  have hbelow : p < blocks size f.length * size := Nat.lt_of_lt_of_le hp (le_blocks_mul hsize)
  exact (if_pos hbelow).trans (List.getD_eq_getElem f c hp)

/-- The cells behind the first file. -/
theorem area_rest (size : ℕ) (c : α) (f : List α) (fs : List (List α)) (p : ℕ) :
    area size c (f :: fs) (blocks size f.length * size + p) = area size c fs p := by
  refine (if_neg (Nat.not_lt.mpr (Nat.le_add_right _ _))).trans ?_
  rw [Nat.add_sub_cancel_left]

/-- **A file is read back** from its first block on. -/
theorem area_start {size : ℕ} (hsize : 0 < size) (c : α) (fs : List (List α)) {i : ℕ}
    (hi : i < fs.length) {p : ℕ} (hp : p < fs[i].length) :
    area size c fs (start size fs i * size + p) = fs[i][p] := by
  induction fs generalizing i with
  | nil => exact absurd hi (Nat.not_lt_zero i)
  | cons f fs ih =>
    cases i with
    | zero =>
      rw [start_zero, Nat.zero_mul, Nat.zero_add]
      exact area_first hsize c fs hp
    | succ i =>
      rw [start_succ, Nat.add_mul, Nat.add_assoc, area_rest]
      exact ih (Nat.lt_of_succ_lt_succ hi) hp

/-- **The blocks of a file** are below the number of all blocks. -/
theorem start_add_blocks_le (size : ℕ) (fs : List (List α)) {i : ℕ} (hi : i < fs.length) :
    start size fs i + blocks size fs[i].length ≤ start size fs fs.length := by
  induction fs generalizing i with
  | nil => exact absurd hi (Nat.not_lt_zero i)
  | cons f fs ih =>
    cases i with
    | zero =>
      rw [List.length_cons, start_succ, start_zero, Nat.zero_add]
      exact Nat.le_add_right _ _
    | succ i =>
      rw [List.length_cons, start_succ, start_succ, Nat.add_assoc]
      exact Nat.add_le_add_left (ih (Nat.lt_of_succ_lt_succ hi)) _

/-- Files of at most `b` blocks take at most `b` blocks each. -/
theorem start_length_le {size b : ℕ} (fs : List (List α))
    (hb : ∀ f ∈ fs, blocks size f.length ≤ b) : start size fs fs.length ≤ fs.length * b := by
  induction fs with
  | nil => exact Nat.zero_le _
  | cons f fs ih =>
    have hrest := ih (fun g hg => hb g (List.mem_cons_of_mem f hg))
    have hfirst := hb f List.mem_cons_self
    rw [List.length_cons, start_succ, Nat.add_mul, Nat.one_mul]
    omega

end Layout
