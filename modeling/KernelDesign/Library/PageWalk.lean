import Mathlib.Algebra.Group.Nat.Defs
import Mathlib.Data.Nat.Bitwise

/-!
# Two-level page walks

The address translation of a 32-bit x86 with 4 KB pages and, where bit 7
of a directory entry is set, 4 MB pages. A directory has 1024 entries, one
for each 4 MB of addresses, and a table has 1024, one for each 4 KB; a walk
reads the directory, and the table the directory entry names. What the
tables are is a parameter: an entry names its table by a physical address.

An entry is an address with flags below it. The lemmas take such an entry
apart again, and say what a walk yields from entries of which this is
known.

The tables lie in memory too. `storeOver` is a table after a store of a word
at some address that may fall on it.
-/

namespace PageWalk

/-- **The result of a walk**: the physical address, and the rights. -/
structure Translation where
  phys : ℕ
  user : Bool
  writable : Bool
  deriving DecidableEq

/-! ## Entries -/

/-- Bit 0: the entry is in use. -/
def present (e : ℕ) : Bool := e.testBit 0

/-- Bit 1: the page can be written. -/
def writable (e : ℕ) : Bool := e.testBit 1

/-- Bit 2: user code has access. -/
def user (e : ℕ) : Bool := e.testBit 2

/-- Bit 7 of a directory entry: it maps a 4 MB page. -/
def large (e : ℕ) : Bool := e.testBit 7

/-- The address in an entry for 4 KB pages. -/
def base (e : ℕ) : ℕ := e / 4096 * 4096

/-- The address in an entry for a 4 MB page. -/
def largeBase (e : ℕ) : ℕ := e / 4194304 * 4194304

section Flags

variable {a f i n : ℕ}

/-- A multiple of `2 ^ n` has no bit below `n`. -/
theorem testBit_of_dvd (h : 2 ^ n ∣ a) (hi : i < n) : a.testBit i = false := by
  obtain ⟨q, rfl⟩ := h
  rw [Nat.testBit_two_pow_mul]
  simp [Nat.not_le.mpr hi]

/-- **A bit of an entry is one of its flags.** -/
theorem testBit_or_of_dvd (h : 2 ^ n ∣ a) (hi : i < n) :
    (a ||| f).testBit i = f.testBit i := by
  rw [Nat.testBit_or, testBit_of_dvd h hi, Bool.false_or]

/-- **The address in an entry** is what is left without the flags. -/
theorem div_mul_or_of_dvd (h : 2 ^ n ∣ a) (hf : f < 2 ^ n) :
    (a ||| f) / 2 ^ n * 2 ^ n = a := by
  obtain ⟨q, rfl⟩ := h
  rw [← Nat.two_pow_add_eq_or_of_lt hf q, Nat.mul_add_div (Nat.two_pow_pos n),
    Nat.div_eq_of_lt hf, Nat.add_zero, Nat.mul_comm]

end Flags

/-! ## The walk -/

/-- **The walk of address `v`**, from a directory and the tables at each
physical address. -/
def walk (directory : ℕ → ℕ) (tableAt : ℕ → ℕ → ℕ) (v : ℕ) : Option Translation :=
  let pde := directory (v / 4194304)
  if present pde then
    if large pde then
      some ⟨largeBase pde + v % 4194304, user pde, writable pde⟩
    else
      let pte := tableAt (base pde) (v / 4096 % 1024)
      if present pte then
        some ⟨base pte + v % 4096, user pde && user pte, writable pde && writable pte⟩
      else none
  else none

variable {directory : ℕ → ℕ} {tableAt : ℕ → ℕ → ℕ} {v a f : ℕ}

/-- **Nothing is mapped** under a directory entry that is not in use. -/
theorem walk_of_absent (h : present (directory (v / 4194304)) = false) :
    walk directory tableAt v = none := by
  simp [walk, h]

/-- **A 4 MB page.** -/
theorem walk_of_large (h : directory (v / 4194304) = a ||| f) (ha : 4194304 ∣ a)
    (hf : f < 4194304) (hp : present f = true) (hl : large f = true) :
    walk directory tableAt v = some ⟨a + v % 4194304, user f, writable f⟩ := by
  have hbits : ∀ i, i < 22 → (a ||| f).testBit i = f.testBit i := fun i hi =>
    testBit_or_of_dvd (n := 22) ha hi
  have hbase : (a ||| f) / 4194304 * 4194304 = a := div_mul_or_of_dvd (n := 22) ha hf
  simp only [present, large] at hp hl
  simp [walk, h, present, large, user, writable, largeBase, hbits, hbase, hp, hl]

/-- **A page of a table**: the walk goes on in the table at `a`. -/
theorem walk_of_table (h : directory (v / 4194304) = a ||| f) (ha : 4096 ∣ a)
    (hf : f < 4096) (hp : present f = true) (hl : large f = false) :
    walk directory tableAt v
      = if present (tableAt a (v / 4096 % 1024)) then
          some ⟨base (tableAt a (v / 4096 % 1024)) + v % 4096,
            user f && user (tableAt a (v / 4096 % 1024)),
            writable f && writable (tableAt a (v / 4096 % 1024))⟩
        else none := by
  have hbits : ∀ i, i < 12 → (a ||| f).testBit i = f.testBit i := fun i hi =>
    testBit_or_of_dvd (n := 12) ha hi
  have hbase : base (a ||| f) = a := div_mul_or_of_dvd (n := 12) ha hf
  simp only [present, large] at hp hl
  simp [walk, h, present, large, user, writable, hbits, hbase, hp, hl]

/-- **A 4 KB page**, with the rights that both entries give. -/
theorem walk_of_page {b g : ℕ} (h : directory (v / 4194304) = a ||| f) (ha : 4096 ∣ a)
    (hf : f < 4096) (hp : present f = true) (hl : large f = false)
    (ht : tableAt a (v / 4096 % 1024) = b ||| g) (hb : 4096 ∣ b) (hg : g < 4096)
    (hgp : present g = true) :
    walk directory tableAt v
      = some ⟨b + v % 4096, user f && user g, writable f && writable g⟩ := by
  have hbits : ∀ i, i < 12 → (b ||| g).testBit i = g.testBit i := fun i hi =>
    testBit_or_of_dvd (n := 12) hb hi
  have hbase : base (b ||| g) = b := div_mul_or_of_dvd (n := 12) hb hg
  rw [walk_of_table h ha hf hp hl, ht]
  simp only [present] at hgp
  simp [present, user, writable, hbits, hbase, hgp]

/-- **A table entry that is not in use.** -/
theorem walk_of_absent_page (h : directory (v / 4194304) = a ||| f) (ha : 4096 ∣ a)
    (hf : f < 4096) (hp : present f = true) (hl : large f = false)
    (ht : present (tableAt a (v / 4096 % 1024)) = false) :
    walk directory tableAt v = none := by
  rw [walk_of_table h ha hf hp hl, ht]
  rfl

/-! ## A store over a table -/

/-- Byte `j` of a word. -/
def byteOf (w j : ℕ) : ℕ := w / 256 ^ j % 256

/-- Byte `j` of entry `i` of the table at `b`, after the word `w` is stored at
the address `a`. -/
def storedByte (b : ℕ) (t : ℕ → ℕ) (a w i j : ℕ) : ℕ :=
  if a ≤ b + 4 * i + j ∧ b + 4 * i + j < a + 4 then byteOf w (b + 4 * i + j - a)
  else byteOf (t i) j

/-- **The table at `b`, after the word `w` is stored at the address `a`**: the
entries that the store falls on are put together again from their bytes. -/
def storeOver (b : ℕ) (t : ℕ → ℕ) (a w : ℕ) : ℕ → ℕ := fun i =>
  if i < 1024 ∧ a < b + 4 * i + 4 ∧ b + 4 * i < a + 4 then
    storedByte b t a w i 0 + 256 * storedByte b t a w i 1 + 65536 * storedByte b t a w i 2
      + 16777216 * storedByte b t a w i 3
  else t i

section Store

variable {b a w i : ℕ} {t : ℕ → ℕ}

/-- **A store beside an entry** leaves it. -/
theorem storeOver_of_apart (h : a + 4 ≤ b + 4 * i ∨ b + 4 * i + 4 ≤ a) :
    storeOver b t a w i = t i := if_neg (by omega)

/-- A byte below the store. -/
theorem storedByte_of_lt {j : ℕ} (h : b + 4 * i + j < a) :
    storedByte b t a w i j = byteOf (t i) j := if_neg (by omega)

/-- **A byte of the store.** -/
theorem storedByte_of_eq {j m : ℕ} (h : b + 4 * i + j = a + m) (hm : m < 4) :
    storedByte b t a w i j = byteOf w m := by
  rw [storedByte, if_pos (by omega), h, Nat.add_sub_cancel_left]

/-- **A store of even bytes on the lowest byte of an entry** puts the entry
out of use. -/
theorem storeOver_absent (hi : i < 1024) (ha : a ≤ b + 4 * i) (ha' : b + 4 * i < a + 4)
    (hw : ∀ j < 4, byteOf w j % 2 = 0) : present (storeOver b t a w i) = false := by
  have heven := hw (b + 4 * i - a) (by omega)
  have hbyte : storedByte b t a w i 0 = byteOf w (b + 4 * i - a) :=
    storedByte_of_eq (by omega) (by omega)
  rw [present, storeOver, if_pos ⟨hi, by omega, ha'⟩, hbyte, Nat.testBit_zero]
  exact decide_eq_false (by omega)

/-- **A store from the second byte on.** -/
theorem storeOver_second (hi : i < 1024) (ha : a = b + 4 * i + 1) :
    storeOver b t a w i
      = byteOf (t i) 0 + 256 * byteOf w 0 + 65536 * byteOf w 1 + 16777216 * byteOf w 2 := by
  rw [storeOver, if_pos ⟨hi, by omega, by omega⟩, storedByte_of_lt (by omega),
    storedByte_of_eq (m := 0) (by omega) (by decide),
    storedByte_of_eq (m := 1) (by omega) (by decide),
    storedByte_of_eq (m := 2) (by omega) (by decide)]

/-- **A store from the third byte on.** -/
theorem storeOver_third (hi : i < 1024) (ha : a = b + 4 * i + 2) :
    storeOver b t a w i
      = byteOf (t i) 0 + 256 * byteOf (t i) 1 + 65536 * byteOf w 0 + 16777216 * byteOf w 1 := by
  rw [storeOver, if_pos ⟨hi, by omega, by omega⟩, storedByte_of_lt (by omega),
    storedByte_of_lt (by omega), storedByte_of_eq (m := 0) (by omega) (by decide),
    storedByte_of_eq (m := 1) (by omega) (by decide)]

/-- **A store from the last byte on.** -/
theorem storeOver_last (hi : i < 1024) (ha : a = b + 4 * i + 3) :
    storeOver b t a w i
      = byteOf (t i) 0 + 256 * byteOf (t i) 1 + 65536 * byteOf (t i) 2
        + 16777216 * byteOf w 0 := by
  rw [storeOver, if_pos ⟨hi, by omega, by omega⟩, storedByte_of_lt (by omega),
    storedByte_of_lt (by omega), storedByte_of_lt (by omega),
    storedByte_of_eq (m := 0) (by omega) (by decide)]

end Store

end PageWalk
