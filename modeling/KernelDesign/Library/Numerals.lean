import Mathlib.Data.Nat.Digits.Lemmas

/-!
# Positional numerals

A numeral here is a list of digits, the most significant one first, as it
is printed. Mathlib's `Nat.digits` has the least significant one first and
is empty at zero; the numeral of a number is that list turned round, and a
single zero at zero. Its value is the number, it has no leading zero, and a
number below `b ^ n` has at most `n` digits.
-/

namespace Numerals

/-- **The value of a numeral** in base `b`. -/
def value (b : ℕ) (ds : List ℕ) : ℕ := ds.foldl (fun acc d => acc * b + d) 0

/-- **The numeral of a number** in base `b`. -/
def numeral (b n : ℕ) : List ℕ := if n = 0 then [0] else (b.digits n).reverse

theorem value_concat (b : ℕ) (ds : List ℕ) (d : ℕ) :
    value b (ds ++ [d]) = value b ds * b + d := by
  rw [value, List.foldl_append]
  rfl

/-- The value of a list of digits turned round. -/
theorem value_reverse (b : ℕ) (ds : List ℕ) : value b ds.reverse = Nat.ofDigits b ds := by
  induction ds with
  | nil => rfl
  | cons d ds ih =>
    rw [List.reverse_cons, value_concat, ih, Nat.ofDigits_cons, Nat.mul_comm, Nat.add_comm]

/-- Zeros in front change nothing. -/
theorem value_replicate_append (b k : ℕ) (ds : List ℕ) :
    value b (List.replicate k 0 ++ ds) = value b ds := by
  induction k with
  | zero => rfl
  | succ k ih =>
    rw [List.replicate_succ, List.cons_append, value, List.foldl_cons, Nat.zero_mul]
    exact ih

/-- **A numeral denotes its number.** -/
theorem value_numeral (b n : ℕ) : value b (numeral b n) = n := by
  unfold numeral
  split
  · rename_i hn
    rw [hn, value, List.foldl_cons, List.foldl_nil, Nat.zero_mul]
  · rw [value_reverse, Nat.ofDigits_digits]

/-- The digits of a numeral are digits. -/
theorem lt_of_mem_numeral {b n d : ℕ} (hb : 1 < b) (hd : d ∈ numeral b n) : d < b := by
  unfold numeral at hd
  split at hd
  · rw [List.mem_singleton.mp hd]
    omega
  · exact Nat.digits_lt_base hb (List.mem_reverse.mp hd)

/-- **No leading zero**, except for the numeral of zero. -/
theorem head_numeral {b n : ℕ} (h : (numeral b n).head? = some 0) : numeral b n = [0] := by
  unfold numeral at h ⊢
  split
  · rfl
  · rename_i hn
    rw [if_neg hn, List.head?_reverse] at h
    have hne : b.digits n ≠ [] := Nat.digits_ne_nil_iff_ne_zero.mpr hn
    rw [List.getLast?_eq_some_getLast hne, Option.some.injEq] at h
    exact absurd h (Nat.getLast_digit_ne_zero b hn)

theorem numeral_ne_nil (b n : ℕ) : numeral b n ≠ [] := by
  unfold numeral
  split
  · exact List.cons_ne_nil 0 []
  · rename_i hn
    rw [Ne, List.reverse_eq_nil_iff]
    exact Nat.digits_ne_nil_iff_ne_zero.mpr hn

/-- **The length of a numeral.** -/
theorem length_numeral_le {b n k : ℕ} (hb : 1 < b) (hk : 0 < k) (h : n < b ^ k) :
    (numeral b n).length ≤ k := by
  unfold numeral
  split
  · exact hk
  · rw [List.length_reverse]
    exact (Nat.digits_length_le_iff hb n).mpr h

end Numerals
