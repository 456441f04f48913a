import KernelDesign.Machine

/-!
# Writing to the terminal

`term_write` should print the bytes of the buffer up to the size of the
request or the first NUL, whichever comes first, and return their number.
Its loop tests for the NUL before a byte is printed and for the size after
it, so that a request for no bytes prints one.

The loop is taken apart here into what it prints and which bytes of the
buffer it looks at (`termWriteLoop_eq`), and `termWrite_exact_iff` says for
which requests it does what it should.
-/

namespace KernelDesign

/-- **The loop of `term_write` taken apart**: its last index, the bytes it
prints, and the indices of the buffer it reads. -/
structure WriteLoop where
  index : ℕ
  printed : List UInt8
  reads : List ℕ

/-- **The loop of `term_write`** at index `i`, test by test. -/
def writeLoop (buf : Bytes) (nbytes : ℤ) : ℕ → ℕ → WriteLoop
  | 0, i => ⟨i, [], []⟩
  | fuel + 1, i =>
    if buf i = 0 then ⟨i, [], [i]⟩
    else if ((i + 1 : ℕ) : ℤ) < nbytes then
      let r := writeLoop buf nbytes fuel (i + 1)
      ⟨r.index, buf i :: r.printed, i :: r.reads⟩
    else ⟨i + 1, [buf i], [i]⟩

/-- **It is the loop of `term_write`.** -/
theorem termWriteLoop_eq (buf : Bytes) (nbytes : ℤ) (fuel i : ℕ) (c : Console) :
    termWriteLoop buf nbytes fuel i c
      = ((writeLoop buf nbytes fuel i).index, c.puts (writeLoop buf nbytes fuel i).printed) := by
  induction fuel generalizing i c with
  | zero => rfl
  | succ fuel ih =>
    rw [termWriteLoop, writeLoop]
    split
    · rfl
    · split
      · rw [ih (i + 1) (c.putc (buf i))]
        rfl
      · rfl

/-- The loop of a call. -/
def writeCall (buf : Bytes) (nbytes : ℤ) : WriteLoop :=
  writeLoop buf nbytes (nbytes.toNat + 1) 0

/-- **What `term_write` does.** -/
theorem termWrite_eq (k : Kernel) (b : Bytes) {nbytes : ℤ} (h : 0 ≤ nbytes) :
    termWrite k (some b) nbytes
      = ⟨(writeCall b nbytes).index, some b,
          { k with console := k.console.puts (writeCall b nbytes).printed }⟩ := by
  show (if nbytes < 0 then _ else _) = _
  rw [if_neg (Int.not_lt.mpr h), termWriteLoop_eq]
  rfl

/-- **The loop inside the request**: it stops at the first NUL or at the
size, has printed the bytes on the way, and has read no byte behind. -/
theorem writeLoop_spec (buf : Bytes) {n fuel i : ℕ} (hi : i < n) (hfuel : n - i < fuel) :
    let stop := Scan.scan (fun l => buf l == 0) i (n - i)
    (writeLoop buf n fuel i).index = stop
      ∧ (writeLoop buf n fuel i).printed = (buf.drop i).first (stop - i)
      ∧ ∀ l ∈ (writeLoop buf n fuel i).reads, l < n := by
  induction fuel generalizing i with
  | zero => exact absurd hfuel (Nat.not_lt_zero _)
  | succ fuel ih =>
    obtain ⟨m, hm⟩ : ∃ m, n - i = m + 1 := ⟨n - i - 1, by omega⟩
    rw [hm, writeLoop, Scan.scan]
    by_cases hnul : buf i = 0
    · rw [if_pos hnul, if_pos (beq_iff_eq.mpr hnul)]
      refine ⟨rfl, ?_, fun l hl => ?_⟩
      · rw [Nat.sub_self]
        rfl
      · rw [List.mem_singleton.mp hl]
        exact hi
    · rw [if_neg hnul, if_neg (fun h => hnul (beq_iff_eq.mp h))]
      have hhead : ∀ s, i + 1 ≤ s →
          (buf.drop i).first (s - i) = buf i :: (buf.drop (i + 1)).first (s - (i + 1)) := by
        intro s hs
        rw [show s - i = s - (i + 1) + 1 by omega, Buffer.first_cons, Buffer.drop_drop]
        rfl
      by_cases hmore : ((i + 1 : ℕ) : ℤ) < n
      · obtain ⟨hindex, hprinted, hreads⟩ := ih (i := i + 1) (by omega) (by omega)
        rw [show n - (i + 1) = m by omega] at hindex hprinted
        rw [if_pos hmore]
        refine ⟨hindex, ?_, fun l hl => ?_⟩
        · dsimp only
          rw [hprinted, hhead _ (Scan.le_scan _ _ _)]
        · obtain rfl | hl := List.mem_cons.mp hl
          · exact hi
          · exact hreads l hl
      · -- The last byte of the request.
        rw [if_neg hmore, show m = 0 by omega]
        refine ⟨rfl, ?_, fun l hl => ?_⟩
        · show [buf i] = (buf.drop i).first (i + 1 - i)
          rw [hhead (i + 1) (Nat.le_refl _), Nat.sub_self]
          rfl
        · rw [List.mem_singleton.mp hl]
          exact hi

/-- **A call prints exactly what it reports**: the first `strlen` bytes of
the buffer, taken as an object of the size of the request, go to the screen
and nothing else changes, and it returns their number and looks at no byte
behind the request. -/
structure WritesExactly (b : Bytes) (nbytes : ℕ) (k : Kernel) : Prop where
  reads : ∀ l ∈ (writeCall b nbytes).reads, l < nbytes
  printed : (writeCall b nbytes).printed = b.first (strlen b nbytes)
  kernel : (termWrite k (some b) nbytes).kernel
    = { k with console := k.console.puts (b.first (strlen b nbytes)) }
  ret : (termWrite k (some b) nbytes).ret = strlen b nbytes

/-- **When `term_write` prints exactly what it reports**: on every request
but one for no bytes. -/
theorem termWrite_exact_iff (b : Bytes) (nbytes : ℕ) (k : Kernel) :
    WritesExactly b nbytes k ↔ nbytes ≠ 0 := by
  constructor
  · rintro h rfl
    have hread : 0 ∈ (writeCall b 0).reads := by
      rw [writeCall, writeLoop]
      split
      · exact List.mem_singleton_self 0
      · exact List.mem_singleton_self 0
    exact Nat.not_lt_zero 0 (h.reads 0 hread)
  · intro hne
    obtain ⟨hindex, hprinted, hreads⟩ :=
      writeLoop_spec b (Nat.pos_of_ne_zero hne) (i := 0) (Nat.lt_succ_self nbytes)
    rw [Nat.sub_zero, Nat.sub_zero, Buffer.drop_zero] at hprinted
    refine ⟨hreads, hprinted, ?_, ?_⟩
    · rw [termWrite_eq k b (Int.natCast_nonneg nbytes)]
      exact congrArg (fun l => { k with console := k.console.puts l }) hprinted
    · rw [termWrite_eq k b (Int.natCast_nonneg nbytes)]
      exact congrArg Nat.cast hindex

/-- **A request for no bytes prints one**, and says so. -/
theorem termWrite_no_bytes :
    (termWrite loadedKernel (some (cstring "hi")) 0).ret = 1
      ∧ (writeCall (cstring "hi") 0).printed = ascii "h"
      ∧ ¬ WritesExactly (cstring "hi") 0 loadedKernel := by
  refine ⟨by decide, by decide, fun h => ?_⟩
  exact absurd h.printed (by decide)

end KernelDesign
