import KernelDesign.Library.Buffers

/-!
# Bounded scans

A loop that walks an index upward until a test succeeds or a bound is
reached is `scan`: from `i`, for at most `n` steps, the first index at
which `p` holds. The three facts a caller uses are where the result lies,
that the test fails at every index walked over, and that it succeeds at
the result unless the bound was what stopped the walk. Over a buffer the
cells walked over are the longest prefix that fails the test.
-/

namespace Scan

/-- **The scan loop** `for (; n > 0; i++, n--) if (p(i)) break;`, with the
final value of `i` as its result. -/
def scan (p : ℕ → Bool) (i : ℕ) : ℕ → ℕ
  | 0 => i
  | n + 1 => if p i then i else scan p (i + 1) n

variable {p : ℕ → Bool} {i n : ℕ}

/-- A scan does not move backwards. -/
theorem le_scan (p : ℕ → Bool) (i n : ℕ) : i ≤ scan p i n := by
  induction n generalizing i with
  | zero => exact Nat.le_refl i
  | succ n ih =>
    unfold scan
    split
    · exact Nat.le_refl i
    · exact Nat.le_of_succ_le (ih (i + 1))

/-- A scan walks at most its bound. -/
theorem scan_le (p : ℕ → Bool) (i n : ℕ) : scan p i n ≤ i + n := by
  induction n generalizing i with
  | zero => exact Nat.le_refl i
  | succ n ih =>
    unfold scan
    split
    · omega
    · have := ih (i + 1)
      omega

/-- **The test fails at every index walked over.** -/
theorem eq_false_of_lt_scan {j : ℕ} (hij : i ≤ j) (hj : j < scan p i n) :
    p j = false := by
  induction n generalizing i with
  | zero =>
    simp only [scan] at hj
    omega
  | succ n ih =>
    unfold scan at hj
    split at hj
    · omega
    · rename_i hpi
      rcases Nat.eq_or_lt_of_le hij with rfl | hlt
      · simpa using hpi
      · exact ih hlt hj

/-- **A scan that stops before its bound stopped at a success.** -/
theorem eq_true_of_scan_lt (h : scan p i n < i + n) :
    p (scan p i n) = true := by
  induction n generalizing i with
  | zero => simp [scan] at h
  | succ n ih =>
    unfold scan at h ⊢
    split
    · rename_i hpi
      exact hpi
    · rename_i hpi
      rw [if_neg hpi] at h
      exact ih (by omega)

/-- **Where a scan stops is determined by the test**: at `j` if it fails
on the way there and succeeds at `j`. -/
theorem scan_eq_of {j : ℕ} (hij : i ≤ j) (hjn : j < i + n)
    (hbefore : ∀ l, i ≤ l → l < j → p l = false) (hj : p j = true) :
    scan p i n = j := by
  rcases Nat.lt_trichotomy (scan p i n) j with hlt | heq | hgt
  · have hstop := eq_true_of_scan_lt (p := p) (i := i) (n := n) (by omega)
    rw [hbefore _ (le_scan p i n) hlt] at hstop
    exact absurd hstop Bool.false_ne_true
  · exact heq
  · rw [eq_false_of_lt_scan hij hgt] at hj
    exact absurd hj Bool.false_ne_true

/-- **A scan that meets no success** goes to its bound. -/
theorem scan_eq_bound (h : ∀ j, i ≤ j → j < i + n → p j = false) : scan p i n = i + n := by
  refine Nat.le_antisymm (scan_le p i n) (Nat.not_lt.mp (fun hlt => ?_))
  have hstop := eq_true_of_scan_lt hlt
  rw [h _ (le_scan p i n) hlt] at hstop
  exact absurd hstop Bool.false_ne_true

/-- **A scan of a buffer** walks over the longest prefix that fails the
test. -/
theorem takeWhile_first {α : Type*} (b : Buffer α) (p : α → Bool) (n : ℕ) :
    (b.first n).takeWhile (fun c => !p c) = b.first (scan (fun i => p (b i)) 0 n) := by
  have hle : scan (fun i => p (b i)) 0 n ≤ n := by
    simpa using scan_le (fun i => p (b i)) 0 n
  have hwalked : ∀ c ∈ b.first (scan (fun i => p (b i)) 0 n), (!p c) = true := by
    intro c hc
    obtain ⟨j, hj, rfl⟩ := List.mem_map.mp hc
    have hfail := eq_false_of_lt_scan (Nat.zero_le j) (List.mem_range.mp hj)
    simpa using hfail
  obtain ⟨m, hm⟩ := Nat.exists_eq_add_of_le hle
  rw [show b.first n = b.first (scan (fun i => p (b i)) 0 n + m) from congrArg b.first hm,
    Buffer.first_add, List.takeWhile_append_of_pos hwalked]
  cases m with
  | zero => exact List.append_nil _
  | succ m =>
    -- The test succeeds at the cell behind them.
    have hstop : p (b (scan (fun i => p (b i)) 0 n)) = true :=
      eq_true_of_scan_lt (p := fun i => p (b i)) (by omega)
    rw [Nat.add_comm m 1, Buffer.first_add]
    simp [Buffer.first, hstop]

end Scan
