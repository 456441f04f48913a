import KernelDesign.Library.Buffers
import KernelDesign.Library.Scan
import KernelDesign.Library.Words
import Mathlib.Logic.Function.Basic
import Mathlib.Tactic.ByContra

/-!
# Byte strings

The string routines of `lib.c` that the rest of the kernel calls. A C
string is what its pointer gives access to, so every routine takes a
buffer of bytes; where the kernel scans inside an object of known size the
scan carries that size, and a scan that reaches it stands for one that
leaves the object.
-/

namespace KernelDesign

open Words

/-- The bytes from an address on. -/
abbrev Bytes := Buffer UInt8

/-- **`strlen`** of a string held in an object of `size` bytes: the index
of the first NUL, or `size` when the object has none. -/
def strlen (s : Bytes) (size : ℕ) : ℕ :=
  Scan.scan (fun i => s i == 0) 0 size

/-- A byte read through an `int8_t` pointer. -/
def int8Of (b : UInt8) : ℤ := i8 b.toNat

/-- **`strncmp`** from index `i` on, with `n` comparisons left. -/
def strncmp (s₁ s₂ : Bytes) (i : ℕ) : ℕ → ℤ
  | 0 => 0
  | n + 1 =>
    if s₁ i ≠ s₂ i ∨ s₁ i = 0 then int8Of (s₁ i) - int8Of (s₂ i)
    else strncmp s₁ s₂ (i + 1) n

/-- The `int32_t` stored at `a`, least significant byte first. -/
def int32At (b : Bytes) (a : ℕ) : ℤ :=
  i32 ((b a).toNat + 256 * (b (a + 1)).toNat + 65536 * (b (a + 2)).toNat
    + 16777216 * (b (a + 3)).toNat)

/-- The `uint32_t` stored at `a`. -/
def uint32At (b : Bytes) (a : ℕ) : ℕ := u32 (int32At b a)

/-- The bytes of a string literal of the source. -/
def ascii (s : String) : List UInt8 := s.toList.map (fun c => c.toNat.toUInt8)

/-- A string literal as its pointer sees it, with its terminating NUL. -/
def cstring (s : String) : Bytes := fun i => (ascii s).getD i 0

theorem strlen_le (s : Bytes) (size : ℕ) : strlen s size ≤ size := by
  have h := Scan.scan_le (fun i => s i == 0) 0 size
  rw [Nat.zero_add] at h
  exact h

/-- No byte before `strlen` is NUL. -/
theorem ne_zero_of_lt_strlen {s : Bytes} {size j : ℕ} (h : j < strlen s size) :
    s j ≠ 0 := by
  have hj := Scan.eq_false_of_lt_scan (Nat.zero_le j) h
  exact bne_iff_ne.mp (by rw [bne, hj]; rfl)

/-- The byte at `strlen` is NUL, if the object has one. -/
theorem eq_zero_of_strlen_lt {s : Bytes} {size : ℕ} (h : strlen s size < size) :
    s (strlen s size) = 0 := by
  have hj := Scan.eq_true_of_scan_lt (p := fun i => s i == 0) (i := 0) (n := size)
    (by rw [Nat.zero_add]; exact h)
  exact eq_of_beq hj

/-- **The length is determined by the bytes up to the NUL.** -/
theorem strlen_congr {s s' : Bytes} {size : ℕ}
    (h : ∀ j, j < size → j ≤ strlen s size → s' j = s j) : strlen s' size = strlen s size := by
  obtain hlt | heq := Nat.lt_or_eq_of_le (strlen_le s size)
  · refine Scan.scan_eq_of (Nat.zero_le _) (by omega) (fun j _ hj => ?_) ?_
    · rw [h j (by omega) (Nat.le_of_lt hj)]
      exact beq_eq_false_iff_ne.mpr (ne_zero_of_lt_strlen hj)
    · rw [h _ hlt (le_refl _), eq_zero_of_strlen_lt hlt]
      rfl
  · rw [heq]
    refine (Scan.scan_eq_bound (fun j _ hj => ?_)).trans (Nat.zero_add size)
    rw [Nat.zero_add] at hj
    have hbelow : j < strlen s size := heq.symm ▸ hj
    rw [h j hj (Nat.le_of_lt hbelow)]
    exact beq_eq_false_iff_ne.mpr (ne_zero_of_lt_strlen hbelow)

/-- **A NUL-terminated string**: its bytes, and where the NUL is. -/
structure CString where
  bytes : Bytes
  length : ℕ
  ne_zero : ∀ j, j < length → bytes j ≠ 0
  nul : bytes length = 0

/-- The bytes of a string before its NUL. -/
def CString.text (s : CString) : List UInt8 := s.bytes.first s.length

@[simp] theorem CString.length_text (s : CString) : s.text.length = s.length :=
  Buffer.length_first s.bytes s.length

/-- **What a pointer spells**: bytes other than NUL, and the NUL behind them. -/
structure Spells (b : Bytes) (s : List UInt8) : Prop where
  bytes : b.first s.length = s
  nul : b s.length = 0
  ne_nul : ∀ c ∈ s, c ≠ 0

namespace Spells

variable {b : Bytes} {s t : List UInt8} {c : UInt8} {size : ℕ}

/-- A byte of the string. -/
theorem mem (h : Spells b s) {j : ℕ} (hj : j < s.length) : b j ∈ s := by
  have hmem := Buffer.mem_first (b := b) hj
  rw [h.bytes] at hmem
  exact hmem

/-- `strlen` finds the NUL. -/
theorem strlen_eq (h : Spells b s) (hsize : s.length < size) : strlen b size = s.length := by
  refine Scan.scan_eq_of (Nat.zero_le _) (by omega) (fun l _ hl => ?_) (beq_iff_eq.mpr h.nul)
  exact beq_eq_false_iff_ne.mpr (h.ne_nul _ (h.mem hl))

/-- A string with one more character in front. -/
theorem cons (h : Spells (b.drop 1) s) (hc : b 0 = c) (hne : c ≠ 0) : Spells b (c :: s) := by
  refine ⟨?_, ?_, fun d hd => ?_⟩
  · rw [List.length_cons, Buffer.first_cons, hc, h.bytes]
  · rw [List.length_cons, Nat.add_comm]
    exact h.nul
  · obtain rfl | hd := List.mem_cons.mp hd
    · exact hne
    · exact h.ne_nul d hd

/-- The first byte of a string that has one. -/
theorem head (h : Spells b (c :: s)) : b 0 = c := by
  have hbytes := h.bytes
  rw [List.length_cons, Buffer.first_cons] at hbytes
  exact (List.cons.inj hbytes).1

/-- The string behind the first byte. -/
theorem tail (h : Spells b (c :: s)) : Spells (b.drop 1) s := by
  have hbytes := h.bytes
  rw [List.length_cons, Buffer.first_cons] at hbytes
  refine ⟨(List.cons.inj hbytes).2, ?_, fun d hd => h.ne_nul d (List.mem_cons_of_mem c hd)⟩
  rw [Buffer.drop_apply, Nat.add_comm]
  exact h.nul

/-- The string behind the first bytes. -/
theorem drop (h : Spells b (s ++ t)) : Spells (b.drop s.length) t := by
  induction s generalizing b with
  | nil =>
    rw [List.length_nil, Buffer.drop_zero]
    exact h
  | cons c s ih =>
    have htail := ih h.tail
    rw [Buffer.drop_drop, Nat.add_comm] at htail
    exact htail

end Spells

/-- A string is what its pointer spells. -/
theorem CString.spells (s : CString) : Spells s.bytes s.text := by
  refine ⟨congrArg s.bytes.first s.length_text, ?_, fun c hc => ?_⟩
  · rw [s.length_text]
    exact s.nul
  · obtain ⟨j, hj, rfl⟩ := List.mem_map.mp hc
    exact s.ne_zero j (List.mem_range.mp hj)

end KernelDesign
