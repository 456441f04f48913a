import Mathlib.Algebra.Group.Nat.Defs

/-!
# Fixed-width integers

C arithmetic is arithmetic on `ℤ` followed by a reduction to the width of
the type. An unsigned value is a natural number below `2 ^ w`, a signed
one an integer of `[-2 ^ (w-1), 2 ^ (w-1))`, and a conversion in either
direction keeps the residue modulo `2 ^ w`. Programs written with
`unsigned` and `signed` at each place where the width can be felt, and
with plain integers elsewhere, are read here: the lemmas say when a
reduction changes nothing, which is what every range argument ends with.
-/

namespace Words

/-- **The unsigned reading** of an integer at width `w`. -/
def unsigned (w : ℕ) (z : ℤ) : ℕ := (z % (2 ^ w : ℕ)).toNat

/-- **The signed reading** of an integer at width `w`. -/
def signed (w : ℕ) (z : ℤ) : ℤ := Int.bmod z (2 ^ w)

/-- An unsigned value is below `2 ^ w`. -/
theorem unsigned_lt (w : ℕ) (z : ℤ) : unsigned w z < 2 ^ w := by
  have hpos : (0 : ℤ) < ((2 ^ w : ℕ) : ℤ) := by
    exact_mod_cast Nat.two_pow_pos w
  have hnn := Int.emod_nonneg z (Int.ne_of_gt hpos)
  have hlt := Int.emod_lt_of_pos z hpos
  unfold unsigned
  omega

/-- **A value in range is its own unsigned reading.** -/
theorem unsigned_natCast {w n : ℕ} (h : n < 2 ^ w) : unsigned w n = n := by
  unfold unsigned
  rw [Int.emod_eq_of_lt (Int.natCast_nonneg n) (by exact_mod_cast h)]
  exact Int.toNat_natCast n

/-- The unsigned reading of a non-negative value in range. -/
theorem unsigned_of_nonneg {w : ℕ} {z : ℤ} (h0 : 0 ≤ z)
    (h : z < (2 ^ w : ℕ)) : unsigned w z = z.toNat := by
  unfold unsigned
  rw [Int.emod_eq_of_lt h0 h]

/-- **A signed reading keeps the residue.** -/
theorem signed_emod (w : ℕ) (z : ℤ) : signed w z % (2 ^ w : ℕ) = z % (2 ^ w : ℕ) :=
  Int.bmod_emod

/-! ## The 32-bit and 8-bit readings -/

/-- The value of an integer as a `uint32_t`. -/
abbrev u32 (z : ℤ) : ℕ := unsigned 32 z

/-- The value of an integer as an `int32_t`. -/
abbrev i32 (z : ℤ) : ℤ := signed 32 z

/-- The value of an integer as an `int8_t`. -/
abbrev i8 (z : ℤ) : ℤ := signed 8 z

/-- A 32-bit unsigned reading, with the modulus as a literal. -/
theorem u32_eq (z : ℤ) : u32 z = (z % 4294967296).toNat := rfl

/-- The `int32_t` reading on the way to a `uint32_t` makes no difference. -/
theorem u32_i32 (z : ℤ) : u32 (i32 z) = u32 z := by
  have hres : i32 z % 4294967296 = z % 4294967296 := signed_emod 32 z
  rw [u32_eq, hres, u32_eq]

/-- A `uint32_t` reading is below `2 ^ 32`. -/
theorem u32_lt (z : ℤ) : u32 z < 4294967296 := unsigned_lt 32 z

/-- A `uint32_t` reading is at most the number. -/
theorem u32_le (n : ℕ) : u32 n ≤ n := by
  rw [u32_eq]
  omega

/-- A sum may wrap on the way. -/
theorem u32_add_u32 (n k : ℕ) : u32 (u32 n + k : ℕ) = u32 (n + k : ℕ) := by
  rw [u32_eq, u32_eq, u32_eq]
  omega

/-- A natural number below `2 ^ 32` is its own `uint32_t` reading. -/
theorem u32_natCast {n : ℕ} (h : n < 4294967296) : u32 n = n :=
  unsigned_natCast h

/-- **An integer in range is its own `int32_t` reading.** -/
theorem i32_of_bounds {z : ℤ} (hl : -2147483648 ≤ z) (hu : z < 2147483648) :
    i32 z = z := by
  show Int.bmod z 4294967296 = z
  rw [Int.bmod_def]
  split <;> omega

/-- **A value past the largest `int32_t` wraps below zero.** -/
theorem i32_of_overflow {z : ℤ} (hl : 2147483648 ≤ z)
    (hu : z < 4294967296) : i32 z = z - 4294967296 := by
  show Int.bmod z 4294967296 = _
  rw [Int.bmod_def]
  split <;> omega

/-- An `int32_t` reading lies in the range of the type. -/
theorem i32_bounds (z : ℤ) : -2147483648 ≤ i32 z ∧ i32 z < 2147483648 := by
  show -2147483648 ≤ Int.bmod z 4294967296 ∧ Int.bmod z 4294967296 < 2147483648
  rw [Int.bmod_def]
  split <;> omega

/-- An integer in range is its own `int8_t` reading. -/
theorem i8_of_bounds {z : ℤ} (hl : -128 ≤ z) (hu : z < 128) : i8 z = z := by
  show Int.bmod z 256 = z
  rw [Int.bmod_def]
  split <;> omega

/-- **A count that goes up and down again** is its reading, wherever it wraps
on the way. -/
theorem i8_succ_pred (z : ℤ) : i8 (i8 (z + 1) - 1) = i8 z := by
  show Int.bmod (Int.bmod (z + 1) 256 - 1) 256 = Int.bmod z 256
  rw [Int.bmod_sub_bmod, Int.add_sub_cancel]

/-- Reading an `int8_t` again changes nothing. -/
theorem i8_i8 (z : ℤ) : i8 (i8 z) = i8 z := Int.bmod_bmod

/-! ## Masks -/

/-- **A mask of `m` ones above `n` zeros** clears the `n` low bits of a
value of `m + n` bits. -/
theorem and_highMask {m n x : ℕ} (h : x < 2 ^ (m + n)) :
    x &&& (2 ^ m - 1) <<< n = x / 2 ^ n * 2 ^ n := by
  rw [← Nat.shiftRight_eq_div_pow, ← Nat.shiftLeft_eq]
  refine Nat.eq_of_testBit_eq (fun i => ?_)
  rw [Nat.testBit_and, Nat.testBit_shiftLeft, Nat.testBit_shiftLeft,
    Nat.testBit_two_pow_sub_one, Nat.testBit_shiftRight]
  by_cases hi : n ≤ i
  · rw [decide_eq_true hi, Bool.true_and, Bool.true_and, Nat.add_sub_cancel' hi]
    by_cases hm : i - n < m
    · rw [decide_eq_true hm, Bool.and_true]
    · have hmn : m + n ≤ i := by omega
      have hx : x < 2 ^ i := Nat.lt_of_lt_of_le h (Nat.pow_le_pow_right Nat.two_pos hmn)
      rw [Nat.testBit_lt_two_pow hx, Bool.false_and]
  · rw [decide_eq_false hi, Bool.false_and, Bool.false_and, Bool.and_false]

/-! ## The bits of a byte -/

/-- Bit `i` of a byte. -/
def bit (m : UInt8) (i : Fin 8) : Bool := m.toNat.testBit i.val

/-- The byte with bit `i` alone. -/
def bitMask (i : Fin 8) : UInt8 := 1 <<< UInt8.ofNat i.val

theorem bit_bitMask (i j : Fin 8) : bit (bitMask i) j = decide (j = i) := by
  revert i j
  decide

theorem bit_not_bitMask (i j : Fin 8) : bit (~~~bitMask i) j = decide (j ≠ i) := by
  revert i j
  decide

theorem bit_and (m n : UInt8) (j : Fin 8) : bit (m &&& n) j = (bit m j && bit n j) := by
  rw [bit, UInt8.toNat_and, Nat.testBit_and]
  rfl

theorem bit_or (m n : UInt8) (j : Fin 8) : bit (m ||| n) j = (bit m j || bit n j) := by
  rw [bit, UInt8.toNat_or, Nat.testBit_or]
  rfl

/-- **Clearing a bit** leaves the others alone. -/
theorem bit_clear (m : UInt8) (i j : Fin 8) :
    bit (m &&& ~~~bitMask i) j = if j = i then false else bit m j := by
  rw [bit_and, bit_not_bitMask]
  by_cases h : j = i
  · simp [h]
  · simp [h]

/-- **Setting a bit** leaves the others alone. -/
theorem bit_set (m : UInt8) (i j : Fin 8) :
    bit (m ||| bitMask i) j = if j = i then true else bit m j := by
  rw [bit_or, bit_bitMask]
  by_cases h : j = i
  · simp [h]
  · simp [h]

end Words
