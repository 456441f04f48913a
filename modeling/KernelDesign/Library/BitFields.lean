import Mathlib.Tactic.Ring

/-!
# Packed bit fields

A packed record of bit fields is a number: its fields follow one another
from bit 0 up, each as wide as it is declared, and a value that is stored in
a field is cut to the width. Whoever reads the number without knowing the
record takes out a range of bits. `range_pack` is that a range which begins
and ends with fields holds exactly these fields, packed.
-/

namespace BitFields

/-- The fields of a record, the lowest first: a width and a value each. -/
abbrev Fields := List (ℕ × ℕ)

/-- How many bits the fields take. -/
def width (fs : Fields) : ℕ := (fs.map Prod.fst).sum

/-- **The number the fields make.** -/
def pack : Fields → ℕ
  | [] => 0
  | (w, v) :: fs => v % 2 ^ w + 2 ^ w * pack fs

/-- **A range of bits** of a number: `len` of them from bit `start` on. -/
def range (n start len : ℕ) : ℕ := n / 2 ^ start % 2 ^ len

@[simp] theorem width_nil : width [] = 0 := rfl

@[simp] theorem width_cons (w v : ℕ) (fs : Fields) : width ((w, v) :: fs) = w + width fs := by
  rw [width, List.map_cons, List.sum_cons, width]

@[simp] theorem pack_singleton (w v : ℕ) : pack [(w, v)] = v % 2 ^ w := by
  rw [pack, pack, Nat.mul_zero, Nat.add_zero]

/-- The number has no bit above its fields. -/
theorem pack_lt (fs : Fields) : pack fs < 2 ^ width fs := by
  induction fs with
  | nil => exact Nat.one_pos
  | cons f fs ih =>
    obtain ⟨w, v⟩ := f
    have hv : v % 2 ^ w < 2 ^ w := Nat.mod_lt v (Nat.two_pow_pos w)
    have hmul : 2 ^ w * (pack fs + 1) ≤ 2 ^ w * 2 ^ width fs := Nat.mul_le_mul_left _ ih
    rw [pack, width_cons, Nat.pow_add]
    rw [Nat.mul_add, Nat.mul_one] at hmul
    omega

/-- **Fields after fields**: the later ones are shifted past the earlier. -/
theorem pack_append (fs gs : Fields) : pack (fs ++ gs) = pack fs + 2 ^ width fs * pack gs := by
  induction fs with
  | nil => rw [List.nil_append, pack, width_nil, Nat.pow_zero, Nat.one_mul, Nat.zero_add]
  | cons f fs ih =>
    obtain ⟨w, v⟩ := f
    rw [List.cons_append, pack, pack, ih, width_cons, Nat.pow_add]
    ring

/-- **A range of bits that some fields fill** holds these fields. -/
theorem range_pack (before fs after : Fields) {start len : ℕ} (hstart : width before = start)
    (hlen : width fs = len) : range (pack (before ++ fs ++ after)) start len = pack fs := by
  rw [← hstart, ← hlen, range, List.append_assoc, pack_append, pack_append,
    Nat.add_mul_div_left _ _ (Nat.two_pow_pos _), Nat.div_eq_of_lt (pack_lt before), Nat.zero_add,
    Nat.add_mul_mod_self_left, Nat.mod_eq_of_lt (pack_lt fs)]

/-- A range that one field fills. -/
theorem range_field (before after : Fields) (v : ℕ) {start len : ℕ}
    (hstart : width before = start) :
    range (pack (before ++ [(len, v)] ++ after)) start len = v % 2 ^ len :=
  (range_pack before [(len, v)] after hstart (Nat.add_zero len)).trans (pack_singleton len v)

end BitFields
