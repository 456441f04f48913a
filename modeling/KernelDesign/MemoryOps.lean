import KernelDesign.Library.Memory
import KernelDesign.Library.Words
import KernelDesign.Strings

/-!
# The string instructions of `lib.c`

`memmove`, `memset_word`, `memset` and `memcpy`, as their assembly has them:
repeated string instructions on the registers `esi`, `edi` and `ecx`, which
step the pointers up or down as the direction flag has it, modulo `2 ^ 32`.
Memory is indexed by the address.

`memmove` picks the direction by comparing the pointers. Upwards it never
reads a byte it has overwritten because the destination starts at or below
the source, downwards because it starts above (`memmove_cells`).

`memset` and `memcpy` store bytes up to a multiple of 4, then double words,
then the bytes left. Each phase is a part of one write or move, whose parts
add up to it (`memset_eq`, `memcpy_eq`); on an object they are the `fill`
and the `copy` that the functions calling them are modelled with
(`memset_memcpy_drop`).
-/

namespace KernelDesign

open Words

/-- A pointer after a string instruction of one byte, with the direction
flag clear or set. -/
def stringStep (df : Bool) (a : ℕ) : ℕ := u32 (if df then (a : ℤ) - 1 else a + 1)

/-- `rep movsb`. -/
def repMovsb (df : Bool) : ℕ → ℕ → ℕ → Memory UInt8 → Memory UInt8
  | 0, _, _, m => m
  | ecx + 1, esi, edi, m =>
    repMovsb df ecx (stringStep df esi) (stringStep df edi) (m.store edi (m.cells esi))

/-- **`memmove`**. The flag it leaves set is cleared again by every
function of `lib.c` that uses a string instruction. -/
def memmove (m : Memory UInt8) (dest src n : ℕ) : Memory UInt8 :=
  if dest ≤ src then repMovsb false n src dest m
  else repMovsb true n (u32 ((src : ℤ) + n - 1)) (u32 ((dest : ℤ) + n - 1)) m

/-- `rep stosw` with the direction flag clear. -/
def repStosw (ax : ℕ) : ℕ → ℕ → Memory UInt8 → Memory UInt8
  | 0, _, m => m
  | ecx + 1, edi, m =>
    repStosw ax ecx (u32 ((edi : ℤ) + 2))
      ((m.store edi (UInt8.ofNat ax)).store (u32 ((edi : ℤ) + 1)) (UInt8.ofNat (ax / 256)))

/-- **`memset_word`**: the 16 low bits of `c`, the low byte first. -/
def memsetWord (m : Memory UInt8) (s c n : ℕ) : Memory UInt8 := repStosw (c % 65536) n s m

/-- The four bytes of a register, the low one first. -/
def longBytes (eax : ℕ) : Bytes := fun j => UInt8.ofNat (eax >>> (8 * j))

/-- The four bytes from an address on. -/
def longAt (m : Memory UInt8) (a : ℕ) : Bytes := fun j => m.cells (u32 (a + j : ℕ))

/-- Store four bytes. -/
def storeLong (m : Memory UInt8) (a : ℕ) (v : Bytes) : Memory UInt8 :=
  (((m.store a (v 0)).store (u32 (a + 1 : ℕ)) (v 1)).store (u32 (a + 2 : ℕ)) (v 2)).store
    (u32 (a + 3 : ℕ)) (v 3)

/-- `rep stosl` with the direction flag clear: `edi` and the memory it
leaves. -/
def repStosl (eax : ℕ) : ℕ → ℕ → Memory UInt8 → ℕ × Memory UInt8
  | 0, edi, m => (edi, m)
  | ecx + 1, edi, m => repStosl eax ecx (u32 (edi + 4 : ℕ)) (storeLong m edi (longBytes eax))

/-- `.memset_bottom`, which stores the `edx` bytes that are left. -/
def memsetBottom (eax : ℕ) : ℕ → ℕ → Memory UInt8 → Memory UInt8
  | 0, _, m => m
  | edx + 1, edi, m => memsetBottom eax edx (u32 (edi + 1 : ℕ)) (m.store edi (UInt8.ofNat eax))

/-- `.memset_aligned`: double words, and what is left of the last one. -/
def memsetAligned (eax ecx edi : ℕ) (m : Memory UInt8) : Memory UInt8 :=
  let edx := ecx % 4
  let r := repStosl eax (ecx / 4) edi m
  memsetBottom eax edx r.1 r.2

/-- `.memset_top`, which stores bytes up to a multiple of 4. -/
def memsetTop (eax : ℕ) : ℕ → ℕ → Memory UInt8 → Memory UInt8
  | 0, _, m => m
  | ecx + 1, edi, m =>
    if edi % 4 = 0 then memsetAligned eax (ecx + 1) edi m
    else memsetTop eax ecx (u32 (edi + 1 : ℕ)) (m.store edi (UInt8.ofNat eax))

/-- **`memset`**: the low byte of `c`, in each byte of `eax`. -/
def memset (m : Memory UInt8) (s : ℕ) (c : ℤ) (n : ℕ) : Memory UInt8 :=
  let c := unsigned 8 c
  memsetTop (c <<< 24 ||| c <<< 16 ||| c <<< 8 ||| c) n s m

/-- `rep movsl` with the direction flag clear: `esi`, `edi` and the memory
it leaves. -/
def repMovsl : ℕ → ℕ → ℕ → Memory UInt8 → ℕ × ℕ × Memory UInt8
  | 0, esi, edi, m => (esi, edi, m)
  | ecx + 1, esi, edi, m =>
    repMovsl ecx (u32 (esi + 4 : ℕ)) (u32 (edi + 4 : ℕ)) (storeLong m edi (longAt m esi))

/-- `.memcpy_bottom`, which copies the `edx` bytes that are left. -/
def memcpyBottom : ℕ → ℕ → ℕ → Memory UInt8 → Memory UInt8
  | 0, _, _, m => m
  | edx + 1, esi, edi, m =>
    memcpyBottom edx (u32 (esi + 1 : ℕ)) (u32 (edi + 1 : ℕ)) (m.store edi (m.cells esi))

/-- `.memcpy_aligned`: double words, and what is left of the last one. -/
def memcpyAligned (ecx esi edi : ℕ) (m : Memory UInt8) : Memory UInt8 :=
  let edx := ecx % 4
  let r := repMovsl (ecx / 4) esi edi m
  memcpyBottom edx r.1 r.2.1 r.2.2

/-- `.memcpy_top`, which copies bytes up to a multiple of 4 in `edi`. -/
def memcpyTop : ℕ → ℕ → ℕ → Memory UInt8 → Memory UInt8
  | 0, _, _, m => m
  | ecx + 1, esi, edi, m =>
    if edi % 4 = 0 then memcpyAligned (ecx + 1) esi edi m
    else memcpyTop ecx (u32 (esi + 1 : ℕ)) (u32 (edi + 1 : ℕ)) (m.store edi (m.cells esi))

/-- **`memcpy`**. -/
def memcpy (m : Memory UInt8) (dest src n : ℕ) : Memory UInt8 := memcpyTop n src dest m

/-! ## Pointers that wrap -/

/-- A pointer that has wrapped is at the end of the address space, where
nothing is left to write. -/
theorem write_wrap {n a : ℕ} (h : a + n ≤ 4294967296) (src : Bytes) (m : Memory UInt8) :
    Memory.write n (u32 a) src m = Memory.write n a src m := by
  cases n with
  | zero => rfl
  | succ n => rw [u32_natCast (by omega)]

/-- The same for the two pointers of a move. -/
theorem moveUp_wrap {n s d : ℕ} (hs : s + n ≤ 4294967296) (hd : d + n ≤ 4294967296)
    (m : Memory UInt8) :
    Memory.moveUp n (u32 s) (u32 d) m = Memory.moveUp n s d m := by
  cases n with
  | zero => rfl
  | succ n => rw [u32_natCast (by omega), u32_natCast (by omega)]

/-- Ranges that a move upwards can go between stay so for what is left after
`k` bytes, wherever the pointers wrap. -/
theorem apart_wrap {n k s d : ℕ} (hs : s + (n + k) ≤ 4294967296)
    (hd : d + (n + k) ≤ 4294967296) (h : d ≤ s ∨ s + (n + k) ≤ d) :
    u32 (d + k : ℕ) ≤ u32 (s + k : ℕ) ∨ u32 (s + k : ℕ) + n ≤ u32 (d + k : ℕ) := by
  cases n with
  | zero => omega
  | succ n =>
    rw [u32_natCast (by omega), u32_natCast (by omega)]
    omega

/-! ## `memmove` -/

section

variable {n s d : ℕ} (hs : s + n ≤ 4294967296) (hd : d + n ≤ 4294967296)

include hs hd

/-- **Upwards**: no pointer wraps before the last byte is moved. -/
theorem repMovsb_up (m : Memory UInt8) : repMovsb false n s d m = Memory.moveUp n s d m := by
  have hstep : ∀ a : ℕ, stringStep false a = u32 (a + 1 : ℕ) := fun _ => rfl
  induction n generalizing s d m with
  | zero => rfl
  | succ n ih =>
    have hs' := u32_le (s + 1)
    have hd' := u32_le (d + 1)
    rw [repMovsb, hstep, hstep, ih (by omega) (by omega), moveUp_wrap (by omega) (by omega),
      Memory.moveUp]

/-- **Downwards**, from the last byte of each range. -/
theorem repMovsb_down (m : Memory UInt8) :
    repMovsb true n (u32 ((s : ℤ) + n - 1)) (u32 ((d : ℤ) + n - 1)) m
      = Memory.moveDown n s d m := by
  induction n generalizing m with
  | zero => rfl
  | succ n ih =>
    have hstep : ∀ a : ℕ, a + (n + 1) ≤ 4294967296 →
        u32 ((a : ℤ) + (n + 1 : ℕ) - 1) = a + n
          ∧ stringStep true (a + n) = u32 ((a : ℤ) + n - 1) := by
      intro a ha
      constructor
      · rw [u32_eq]
        omega
      · rw [stringStep, if_pos rfl, Int.natCast_add]
    obtain ⟨hs₀, hs'⟩ := hstep s hs
    obtain ⟨hd₀, hd'⟩ := hstep d hd
    rw [hs₀, hd₀, repMovsb, hs', hd', ih (by omega) (by omega), Memory.moveDown]

end

section

variable {dest src n : ℕ} (hsrc : src + n ≤ 4294967296) (hdest : dest + n ≤ 4294967296)

include hsrc hdest

/-- **`memmove` is a copy made at once**, however the ranges overlap. -/
theorem memmove_cells (m : Memory UInt8) :
    (memmove m dest src n).cells = m.cells.copy dest (m.cells.drop src) n := by
  unfold memmove
  split
  · rename_i hle
    rw [repMovsb_up hsrc hdest, Memory.moveUp_cells (Or.inl hle)]
  · rename_i hlt
    rw [repMovsb_down hsrc hdest, Memory.moveDown_cells (Or.inl (by omega))]

/-- `memmove` stores to its destination alone. -/
theorem memmove_storesIn (m : Memory UInt8) :
    Memory.StoresIn {a | dest ≤ a ∧ a < dest + n} m (memmove m dest src n) := by
  unfold memmove
  split
  · rw [repMovsb_up hsrc hdest]
    exact Memory.moveUp_storesIn n src dest m
  · rw [repMovsb_down hsrc hdest]
    exact Memory.moveDown_storesIn n src dest m

/-- **`memmove` is correct for every overlap**: the destination holds what
the source held, and no other byte changes. -/
theorem memmove_correct (m : Memory UInt8) :
    (∀ i, i < n → (memmove m dest src n).cells (dest + i) = m.cells (src + i))
      ∧ ∀ a, a < dest ∨ dest + n ≤ a → (memmove m dest src n).cells a = m.cells a := by
  rw [memmove_cells hsrc hdest]
  exact Buffer.copy_spec _ _ dest n

end

/-- Five bytes moved up by two, over the last three of themselves. -/
theorem memmove_up_overlap :
    (∀ i, i < 5 → (memmove ⟨fun j => UInt8.ofNat j, []⟩ 3 1 5).cells (3 + i)
        = UInt8.ofNat (1 + i))
      ∧ ∀ a, a < 3 ∨ 3 + 5 ≤ a →
        (memmove ⟨fun j => UInt8.ofNat j, []⟩ 3 1 5).cells a = UInt8.ofNat a :=
  memmove_correct (by decide) (by decide) ⟨fun j => UInt8.ofNat j, []⟩

/-! ## `memset_word` -/

/-- The two bytes of a word, over and over. -/
def wordCells (lo hi : UInt8) : Bytes := fun j => if j % 2 = 0 then lo else hi

/-- Two bytes further on, the pattern is the same. -/
theorem wordCells_drop (lo hi : UInt8) : (wordCells lo hi).drop 2 = wordCells lo hi := by
  funext j
  rw [Buffer.drop_apply, wordCells, wordCells, Nat.add_mod_left]

/-- **A word at a time** is two bytes at a time. -/
theorem write_wordCells (lo hi : UInt8) (n d : ℕ) (m : Memory UInt8) :
    Memory.write (2 * (n + 1)) d (wordCells lo hi) m
      = Memory.write (2 * n) (d + 2) (wordCells lo hi) ((m.store d lo).store (d + 1) hi) := by
  rw [show 2 * (n + 1) = 2 * n + 1 + 1 from rfl, Memory.write, Memory.write,
    Buffer.drop_drop, wordCells_drop]
  rfl

/-- **`memset_word` writes its word `n` times**, inside the address
space. -/
theorem memsetWord_eq {s n : ℕ} (h : s + 2 * n ≤ 4294967296) (c : ℕ) (m : Memory UInt8) :
    memsetWord m s c n
      = Memory.write (2 * n) s
          (wordCells (UInt8.ofNat (c % 65536)) (UInt8.ofNat (c % 65536 / 256))) m := by
  unfold memsetWord
  induction n generalizing s m with
  | zero => rfl
  | succ n ih =>
    have h1 : u32 ((s : ℤ) + 1) = s + 1 := u32_natCast (n := s + 1) (by omega)
    have h2 : u32 ((s : ℤ) + 2) = u32 (s + 2 : ℕ) := rfl
    have hle := u32_le (s + 2)
    rw [repStosw, h1, h2, ih (by omega), write_wrap (by omega), write_wordCells]

/-! ## `memset` -/

/-- **A double word is four bytes.** -/
theorem storeLong_eq {a : ℕ} (h : a + 4 ≤ 4294967296) (v : Bytes) (m : Memory UInt8) :
    storeLong m a v = Memory.write 4 a v m := by
  rw [storeLong, u32_natCast (by omega), u32_natCast (by omega), u32_natCast (by omega)]
  rfl

section

variable {eax : ℕ} {b : UInt8}

/-- **The double words of `memset`**: bytes, four at a time, and `edi` behind
them. -/
theorem repStosl_eq (heax : ∀ j, j < 4 → longBytes eax j = b) {q d : ℕ}
    (hd : d < 4294967296) (h : d + 4 * q ≤ 4294967296) (m : Memory UInt8) :
    repStosl eax q d m = (u32 (d + 4 * q : ℕ), Memory.write (4 * q) d (fun _ => b) m) := by
  induction q generalizing d m with
  | zero =>
    rw [repStosl, Nat.mul_zero, Nat.add_zero, u32_natCast hd]
    rfl
  | succ q ih =>
    have hle := u32_le (d + 4)
    rw [repStosl, ih (u32_lt _) (by omega), u32_add_u32, write_wrap (by omega),
      storeLong_eq (by omega), Memory.write_congr heax, Nat.mul_succ, Nat.add_comm (4 * q) 4,
      Memory.write_add, Nat.add_assoc]
    rfl

/-- The bytes of `memset` behind the double words. -/
theorem memsetBottom_eq {n d : ℕ} (h : d + n ≤ 4294967296) (m : Memory UInt8) :
    memsetBottom eax n d m = Memory.write n d (fun _ => UInt8.ofNat eax) m := by
  induction n generalizing d m with
  | zero => rfl
  | succ n ih =>
    have hle := u32_le (d + 1)
    rw [memsetBottom, ih (by omega), write_wrap (by omega)]
    rfl

/-- **From a multiple of 4 on**, double words and what is left are all the
bytes. -/
theorem memsetAligned_eq (heax : ∀ j, j < 4 → longBytes eax j = b) {n d : ℕ}
    (hd : d < 4294967296) (h : d + n ≤ 4294967296) (m : Memory UInt8) :
    memsetAligned eax n d m = Memory.write n d (fun _ => b) m := by
  have hal : UInt8.ofNat eax = b := heax 0 (by decide)
  have hle := u32_le (d + 4 * (n / 4))
  rw [memsetAligned, repStosl_eq heax hd (by omega)]
  dsimp only
  rw [memsetBottom_eq (by omega), hal, write_wrap (by omega)]
  calc Memory.write (n % 4) (d + 4 * (n / 4)) (fun _ => b)
        (Memory.write (4 * (n / 4)) d (fun _ => b) m)
      = Memory.write (4 * (n / 4) + n % 4) d (fun _ => b) m :=
        (Memory.write_add (4 * (n / 4)) (n % 4) d (fun _ => b) m).symm
    _ = Memory.write n d (fun _ => b) m := by rw [Nat.div_add_mod]

/-- The bytes up to a multiple of 4, or to the last one if that comes
first, change nothing in what is written. -/
theorem memsetTop_eq (heax : ∀ j, j < 4 → longBytes eax j = b) {n d : ℕ}
    (h : d + n ≤ 4294967296) (m : Memory UInt8) :
    memsetTop eax n d m = Memory.write n d (fun _ => b) m := by
  have hal : UInt8.ofNat eax = b := heax 0 (by decide)
  induction n generalizing d m with
  | zero => rfl
  | succ n ih =>
    rw [memsetTop]
    split
    · exact memsetAligned_eq heax (by omega) h m
    · have hle := u32_le (d + 1)
      rw [ih (by omega), write_wrap (by omega), hal]
      rfl

end

/-- Every byte of `eax` is the low byte of `c`. -/
theorem longBytes_fill : ∀ c < 256, ∀ j < 4,
    longBytes (c <<< 24 ||| c <<< 16 ||| c <<< 8 ||| c) j = UInt8.ofNat c := by
  decide +kernel

/-- **`memset` stores its bytes one by one**: the double words make no
difference. -/
theorem memset_eq {s n : ℕ} (h : s + n ≤ 4294967296) (c : ℤ) (m : Memory UInt8) :
    memset m s c n = Memory.write n s (fun _ => UInt8.ofNat (unsigned 8 c)) m :=
  memsetTop_eq (longBytes_fill _ (unsigned_lt 8 c)) h m

/-! ## `memcpy` -/

/-- **A double word moved at once** is four bytes moved one by one, if the
destination starts below the source or past its end. -/
theorem storeLong_longAt {s d : ℕ} (hs : s + 4 ≤ 4294967296) (hd : d + 4 ≤ 4294967296)
    (h : d ≤ s ∨ s + 4 ≤ d) (m : Memory UInt8) :
    storeLong m d (longAt m s) = Memory.moveUp 4 s d m := by
  rw [storeLong_eq hd, Memory.moveUp_eq_write h]
  refine Memory.write_congr (fun j hj => ?_) d m
  rw [longAt, u32_natCast (by omega), Buffer.drop_apply]

/-- **The double words of `memcpy`**, and the two pointers behind them. -/
theorem repMovsl_eq {q s d : ℕ} (hs : s < 4294967296) (hd : d < 4294967296)
    (hs' : s + 4 * q ≤ 4294967296) (hd' : d + 4 * q ≤ 4294967296)
    (h : d ≤ s ∨ s + 4 * q ≤ d) (m : Memory UInt8) :
    repMovsl q s d m
      = (u32 (s + 4 * q : ℕ), u32 (d + 4 * q : ℕ), Memory.moveUp (4 * q) s d m) := by
  induction q generalizing s d m with
  | zero =>
    rw [repMovsl, Nat.mul_zero, Nat.add_zero, Nat.add_zero, u32_natCast hs, u32_natCast hd]
    rfl
  | succ q ih =>
    have hsle := u32_le (s + 4)
    have hdle := u32_le (d + 4)
    have hapart := apart_wrap (n := 4 * q) (k := 4) (by omega) (by omega) h
    rw [repMovsl, ih (u32_lt _) (u32_lt _) (by omega) (by omega) hapart, u32_add_u32,
      u32_add_u32, moveUp_wrap (by omega) (by omega),
      storeLong_longAt (by omega) (by omega) (by omega), Nat.mul_succ, Nat.add_comm (4 * q) 4,
      Memory.moveUp_add, Nat.add_assoc, Nat.add_assoc]

section

variable {n s d : ℕ} (hs : s + n ≤ 4294967296) (hd : d + n ≤ 4294967296)

include hs hd

/-- The bytes of `memcpy` behind the double words. -/
theorem memcpyBottom_eq (m : Memory UInt8) : memcpyBottom n s d m = Memory.moveUp n s d m := by
  induction n generalizing s d m with
  | zero => rfl
  | succ n ih =>
    have hsle := u32_le (s + 1)
    have hdle := u32_le (d + 1)
    rw [memcpyBottom, ih (by omega) (by omega), moveUp_wrap (by omega) (by omega),
      Memory.moveUp]

/-- **From a multiple of 4 on**, double words and what is left are all the
bytes. -/
theorem memcpyAligned_eq (hs' : s < 4294967296) (hd' : d < 4294967296)
    (h : d ≤ s ∨ s + n ≤ d) (m : Memory UInt8) :
    memcpyAligned n s d m = Memory.moveUp n s d m := by
  have hsle := u32_le (s + 4 * (n / 4))
  have hdle := u32_le (d + 4 * (n / 4))
  rw [memcpyAligned, repMovsl_eq hs' hd' (by omega) (by omega) (by omega)]
  dsimp only
  rw [memcpyBottom_eq (by omega) (by omega), moveUp_wrap (by omega) (by omega)]
  calc Memory.moveUp (n % 4) (s + 4 * (n / 4)) (d + 4 * (n / 4))
        (Memory.moveUp (4 * (n / 4)) s d m)
      = Memory.moveUp (4 * (n / 4) + n % 4) s d m :=
        (Memory.moveUp_add (4 * (n / 4)) (n % 4) s d m).symm
    _ = Memory.moveUp n s d m := by rw [Nat.div_add_mod]

/-- **`memcpy` copies its bytes one by one**, if the destination starts below
the source or past its end. -/
theorem memcpyTop_eq (h : d ≤ s ∨ s + n ≤ d) (m : Memory UInt8) :
    memcpyTop n s d m = Memory.moveUp n s d m := by
  induction n generalizing s d m with
  | zero => rfl
  | succ n ih =>
    rw [memcpyTop]
    split
    · exact memcpyAligned_eq hs hd (by omega) (by omega) h m
    · have hsle := u32_le (s + 1)
      have hdle := u32_le (d + 1)
      have hapart := apart_wrap (n := n) (k := 1) (by omega) (by omega) h
      rw [ih (by omega) (by omega) hapart, moveUp_wrap (by omega) (by omega), Memory.moveUp]

end

/-- **`memcpy` copies its bytes one by one**, if the destination starts below
the source or past its end. -/
theorem memcpy_eq {dest src n : ℕ} (hdest : dest + n ≤ 4294967296) (hsrc : src + n ≤ 4294967296)
    (h : dest ≤ src ∨ src + n ≤ dest) (m : Memory UInt8) :
    memcpy m dest src n = Memory.moveUp n src dest m :=
  memcpyTop_eq hsrc hdest h m

/-- **`memset` and `memcpy` are what they would be byte by byte**, for every
alignment: `memset` sets its range to the low byte of `c`, `memcpy` makes its
destination what the source was, and no other byte changes. -/
theorem memset_memcpy_bytewise (m : Memory UInt8) (n : ℕ) :
    (∀ (s : ℕ) (c : ℤ), s + n ≤ 4294967296 →
        memset m s c n = Memory.write n s (fun _ => UInt8.ofNat (c % 256).toNat) m
          ∧ (∀ i, i < n → (memset m s c n).cells (s + i) = UInt8.ofNat (c % 256).toNat)
          ∧ ∀ a, a < s ∨ s + n ≤ a → (memset m s c n).cells a = m.cells a)
      ∧ ∀ dest src : ℕ, dest + n ≤ 4294967296 → src + n ≤ 4294967296 →
        dest + n ≤ src ∨ src + n ≤ dest →
        memcpy m dest src n = Memory.moveUp n src dest m
          ∧ (∀ i, i < n → (memcpy m dest src n).cells (dest + i) = m.cells (src + i))
          ∧ ∀ a, a < dest ∨ dest + n ≤ a → (memcpy m dest src n).cells a = m.cells a := by
  refine ⟨fun s c hs => ?_, fun dest src hdest hsrc hdisjoint => ?_⟩
  · have hset : memset m s c n = Memory.write n s (fun _ => UInt8.ofNat (c % 256).toNat) m :=
      memset_eq hs c m
    refine ⟨hset, ?_⟩
    rw [hset, Memory.write_cells]
    exact Buffer.copy_spec _ _ s n
  · have hno : dest ≤ src ∨ src + n ≤ dest := by omega
    have hcopy := memcpy_eq hdest hsrc hno m
    refine ⟨hcopy, ?_⟩
    rw [hcopy, Memory.moveUp_cells hno]
    exact Buffer.copy_spec _ _ dest n

/-- Six bytes from address 3 on: one up to the multiple of 4, a double word,
and one behind it. -/
theorem memset_memcpy_unaligned :
    (∀ i, i < 6 → (memset ⟨fun j => UInt8.ofNat j, []⟩ 3 (-1) 6).cells (3 + i) = 0xFF)
      ∧ ∀ i, i < 6 →
        (memcpy ⟨fun j => UInt8.ofNat j, []⟩ 3 17 6).cells (3 + i) = UInt8.ofNat (17 + i) :=
  have hops := memset_memcpy_bytewise ⟨fun j => UInt8.ofNat j, []⟩ 6
  ⟨(hops.1 3 (-1) (by decide)).2.1, (hops.2 3 17 (by decide) (by decide) (by decide)).2.1⟩

/-- **What `memset` does to the object it is given**, as the functions that
call it see it. -/
theorem memset_drop {s n : ℕ} (h : s + n ≤ 4294967296) (c : ℤ) (m : Memory UInt8) :
    (memset m s c n).cells.drop s
      = (m.cells.drop s).fill (UInt8.ofNat (unsigned 8 c)) n := by
  rw [memset_eq h, Memory.write_cells, Buffer.drop_copy, Buffer.copy_const]

/-- **What `memcpy` does to the object it is given.** -/
theorem memcpy_drop {dest src n : ℕ} (hdest : dest + n ≤ 4294967296)
    (hsrc : src + n ≤ 4294967296) (h : dest ≤ src ∨ src + n ≤ dest) (m : Memory UInt8) :
    (memcpy m dest src n).cells.drop dest
      = (m.cells.drop dest).copy 0 (m.cells.drop src) n := by
  rw [memcpy_eq hdest hsrc h, Memory.moveUp_cells h, Buffer.drop_copy]

/-- **An object that is cleared and copied to**, as `getargs`, `fs_dir_read`
and `execute` do it. -/
theorem memset_memcpy_drop {dest src n len : ℕ} (hdest : dest + n ≤ 4294967296)
    (hsrc : src + len ≤ 4294967296) (hlen : len ≤ n)
    (hdisjoint : dest + n ≤ src ∨ src + len ≤ dest) (m : Memory UInt8) :
    (memcpy (memset m dest 0 n) dest src len).cells.drop dest
      = ((m.cells.drop dest).fill 0 n).copy 0 (m.cells.drop src) len := by
  rw [memcpy_drop (by omega) hsrc (by omega), memset_drop hdest]
  refine Buffer.copy_congr (fun j hj => ?_)
  rw [Buffer.drop_apply, Buffer.drop_apply, memset_eq hdest, Memory.write_cells]
  exact (Buffer.copy_spec _ _ dest n).2 _ (by omega)

end KernelDesign
