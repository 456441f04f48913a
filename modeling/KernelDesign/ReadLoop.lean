import KernelDesign.FileSystem
import Mathlib.Order.MinMax

/-!
# The loop of `read_data`

One iteration of the loop, and what follows from it for the whole. The
loop walks the blocks of the file from the one that holds the offset to
the one that holds the end of the request – the end itself, so a request
that ends on a block boundary walks one block more than it has bytes in.

Two kinds of facts are kept apart. Where the buffer is written and what
range the result lies in holds for every inode and every request
(`readDataLoop_range`). What is returned and what is written needs the
position to stay inside the 32-bit range (`InRange`), which the lengths of
files do; there an iteration is `readDataLoop_succ`, and the rest is
induction.
-/

namespace KernelDesign

open Words

/-- A length that is not negative is its own unsigned reading, as it is an
`int32_t`. -/
theorem FileSystem.u32_length (fs : FileSystem) (inode : ℕ)
    (h : 0 ≤ (fs.inodeAt inode).length) :
    (u32 (fs.inodeAt inode).length : ℤ) = (fs.inodeAt inode).length := by
  have hlt : (fs.inodeAt inode).length < 2147483648 := by
    simp only [FileSystem.inodeAt, int32At]
    exact (i32_bounds _).2
  rw [u32_eq]
  omega

variable {fs : FileSystem} {ino : Inode} {stack : ℕ → ℤ} {offset : ℕ}

/-- `data_block_num[i]` inside the table does not depend on the stack. -/
theorem Inode.blockNum_of_lt (ino : Inode) (stack : ℕ → ℤ) {i : ℕ} (h : i < 1023) :
    ino.blockNum stack i = ino.dataBlockNum ⟨i, h⟩ := dif_pos h

/-! ## Where the loop writes -/

/-- A block copied in the middle of the loop has at least one byte and
stays inside the request. -/
theorem elseByte_bounds {left : ℤ} {r pos : ℕ} (hr : (r : ℤ) ≤ left)
    (hpos : pos < 4096) (hne : ¬ i32 (left - r + pos) < 4096) :
    0 < (if left - r < ((4096 - pos : ℕ) : ℤ) then (left - r).toNat else 4096 - pos)
      ∧ ((r + (if left - r < ((4096 - pos : ℕ) : ℤ) then (left - r).toNat
          else 4096 - pos) : ℕ) : ℤ) ≤ left := by
  have hlt : (r : ℤ) < left := by
    rcases lt_or_eq_of_le hr with h | h
    · exact h
    · refine absurd ?_ hne
      rw [i32_of_bounds (by omega) (by omega)]
      omega
  split <;> omega

/-- **The loop writes inside the request**, and returns -1 or a count in
it. -/
theorem readDataLoop_range {left : ℤ} (fuel : ℕ) {r : ℕ} (buf : Bytes)
    (hr : (r : ℤ) ≤ left) :
    let res := readDataLoop fs ino stack offset left fuel r buf
    Buffer.AgreeOutside r left.toNat buf res.buf
      ∧ (res.ret = -1 ∨ (r : ℤ) ≤ res.ret ∧ res.ret ≤ left) := by
  induction fuel generalizing r buf with
  | zero => exact ⟨Buffer.AgreeOutside.refl _ _ _, Or.inr ⟨le_refl _, hr⟩⟩
  | succ fuel ih =>
    simp only [readDataLoop, if_pos hr]
    split
    · exact ⟨Buffer.AgreeOutside.refl _ _ _, Or.inl rfl⟩
    · split
      · refine ⟨?_, Or.inr ⟨hr, le_refl _⟩⟩
        exact (Buffer.agreeOutside_copy _ _ _ _).mono (le_refl r) (by omega)
      · rename_i hne
        obtain ⟨hpos, hle⟩ := elseByte_bounds hr (Nat.mod_lt _ (by omega)) hne
        obtain ⟨hbuf, hret⟩ := ih (buf.copy r _ _) hle
        refine ⟨?_, ?_⟩
        · refine ((Buffer.agreeOutside_copy buf _ r _).mono (le_refl r) ?_).trans
            (hbuf.mono (by omega) (le_refl _))
          omega
        · rcases hret with h | h
          · exact Or.inl h
          · exact Or.inr ⟨le_trans (by omega) h.1, h.2⟩

/-- What is below the position is not written any more. -/
theorem readDataLoop_below {left r j : ℕ} (fuel : ℕ) (buf : Bytes) (hr : r ≤ left)
    (hj : j < r) :
    (readDataLoop fs ino stack offset left fuel r buf).buf j = buf j :=
  (readDataLoop_range fuel buf (Int.ofNat_le.mpr hr)).1 j (Or.inl hj)

/-- **Fuel is never what ends the loop**: with more units than bytes left
to copy, the result does not depend on their number. -/
theorem readDataLoop_fuel {left : ℤ} {fuel g r : ℕ} {buf : Bytes}
    (h : left.toNat - r < fuel) (h' : left.toNat - r < g) :
    readDataLoop fs ino stack offset left fuel r buf
      = readDataLoop fs ino stack offset left g r buf := by
  induction fuel generalizing g r buf with
  | zero => exact absurd h (Nat.not_lt_zero _)
  | succ fuel ih =>
    obtain ⟨g, rfl⟩ : ∃ f, g = f + 1 := ⟨g - 1, by omega⟩
    by_cases hr : (r : ℤ) ≤ left
    · simp only [readDataLoop, if_pos hr]
      split
      · rfl
      · split
        · rfl
        · rename_i hne
          obtain ⟨hpos, hle⟩ := elseByte_bounds hr (Nat.mod_lt _ (by omega)) hne
          rw [ih (g := g) (by omega) (by omega)]
    · simp only [readDataLoop, if_neg hr]

/-- **Copies stay below `n`.** -/
def CopiesBelow (cs : List (ℕ × ℕ)) (n : ℕ) : Prop := ∀ c ∈ cs, c.1 + c.2 ≤ n

/-- **No other byte of the buffer is written**, and the copies are inside
the request. -/
theorem readDataLoop_copies {left : ℤ} (fuel : ℕ) {r : ℕ} (buf : Bytes)
    (hr : (r : ℤ) ≤ left) :
    let res := readDataLoop fs ino stack offset left fuel r buf
    CopiesBelow (copies res.log r) left.toNat
      ∧ ∀ j, (∀ c ∈ copies res.log r, j < c.1 ∨ c.1 + c.2 ≤ j) → res.buf j = buf j := by
  induction fuel generalizing r buf with
  | zero => exact ⟨fun c hc => absurd hc List.not_mem_nil, fun j _ => rfl⟩
  | succ fuel ih =>
    simp only [readDataLoop, if_pos hr]
    split
    · exact ⟨fun c hc => absurd hc List.not_mem_nil, fun j _ => rfl⟩
    · split
      · -- The last copy of the request.
        refine ⟨fun c hc => ?_, fun j hj => ?_⟩
        · obtain rfl := List.mem_singleton.mp hc
          show r + (left - r).toNat ≤ left.toNat
          omega
        · exact Buffer.agreeOutside_copy _ _ _ _ j (hj _ (List.mem_singleton_self _))
      · rename_i hne
        obtain ⟨-, hle⟩ := elseByte_bounds hr (Nat.mod_lt _ (by omega)) hne
        obtain ⟨hbelow, hbuf⟩ := ih (buf.copy r _ _) hle
        refine ⟨fun c hc => ?_, fun j hj => ?_⟩
        · obtain rfl | hc := List.mem_cons.mp hc
          · exact Int.ofNat_le.mp (le_trans hle (Int.self_le_toNat left))
          · exact hbelow c hc
        · rw [hbuf j (fun c hc => hj c (List.mem_cons_of_mem _ hc))]
          exact Buffer.agreeOutside_copy _ _ _ _ j (hj _ List.mem_cons_self)

/-! ## One iteration -/

/-- Whether every entry of `data_block_num` from `lo` to `hi` passes the
test of the loop. -/
def GoodBlocks (fs : FileSystem) (ino : Inode) (stack : ℕ → ℤ) (lo hi : ℕ) : Prop :=
  ∀ i, lo ≤ i → i ≤ hi → fs.badBlock (ino.blockNum stack i) = false

/-- **The byte at position `p` of a file.** -/
def fileByte (fs : FileSystem) (ino : Inode) (stack : ℕ → ℤ) (p : ℕ) : UInt8 :=
  fs.dataBlock (ino.blockNum stack (p / 4096)) (p % 4096)

/-- **The bytes up to the end of a block** are in that block. -/
theorem fileByte_add (fs : FileSystem) (ino : Inode) (stack : ℕ → ℤ) {p j : ℕ}
    (h : p % 4096 + j < 4096) :
    fileByte fs ino stack (p + j)
      = fs.dataBlock (ino.blockNum stack (p / 4096)) (p % 4096 + j) := by
  have hblock : (p + j) / 4096 = p / 4096 := by omega
  have hpos : (p + j) % 4096 = p % 4096 + j := by omega
  rw [fileByte, hblock, hpos]

/-- **The position is in range** when neither it nor the sum the loop
compares with the size of a block leaves its type. -/
structure InRange (offset left r : ℕ) : Prop where
  le : r ≤ left
  position : offset + left < 4294967296
  sum : left - r + (offset + r) % 4096 < 2147483648

/-- A position past a block copied whole is in range. -/
theorem InRange.next {left r : ℕ} (h : InRange offset left r)
    (hmore : 4096 ≤ left - r + (offset + r) % 4096) :
    InRange offset left (r + (4096 - (offset + r) % 4096)) := by
  have hpos : (offset + r) % 4096 < 4096 := Nat.mod_lt _ (by omega)
  have hle := h.le
  have hsum := h.sum
  have haligned : (offset + (r + (4096 - (offset + r) % 4096))) % 4096 = 0 := by omega
  refine ⟨by omega, h.position, ?_⟩
  rw [haligned]
  omega

/-- **The loop past the end of the request** does nothing. -/
theorem readDataLoop_done {left : ℤ} {r : ℕ} (fuel : ℕ) (buf : Bytes)
    (hr : left < r) :
    readDataLoop fs ino stack offset left fuel r buf = ⟨r, buf, []⟩ := by
  cases fuel with
  | zero => rfl
  | succ fuel => rw [readDataLoop, if_neg (Int.not_le.mpr hr)]

/-- **The loop at a block that fails the test.** -/
theorem readDataLoop_bad {left : ℤ} {r fuel : ℕ} {buf : Bytes} (hr : (r : ℤ) ≤ left)
    (hposition : offset + r < 4294967296)
    (hbad : fs.badBlock (ino.blockNum stack ((offset + r) / 4096)) = true) :
    readDataLoop fs ino stack offset left (fuel + 1) r buf
      = ⟨-1, buf, [.blockIndex ((offset + r) / 4096)]⟩ := by
  have hp : u32 ((r + offset : ℕ) : ℤ) = offset + r := by
    rw [u32_natCast (by omega), Nat.add_comm]
  simp only [readDataLoop, hp]
  rw [if_pos hr, if_pos hbad]

/-- The first thing an iteration does is to look up its block. -/
theorem readDataLoop_log_head {left : ℤ} {r : ℕ} (fuel : ℕ) (buf : Bytes)
    (hr : (r : ℤ) ≤ left) (hposition : offset + r < 4294967296) :
    .blockIndex ((offset + r) / 4096)
      ∈ (readDataLoop fs ino stack offset left (fuel + 1) r buf).log := by
  have hp : u32 ((r + offset : ℕ) : ℤ) = offset + r := by
    rw [u32_natCast (by omega), Nat.add_comm]
  simp only [readDataLoop, hp]
  rw [if_pos hr]
  split
  · exact List.mem_cons_self
  · split
    · exact List.mem_cons_self
    · exact List.mem_cons_self

/-- **The loop at the block the request ends in.** -/
theorem readDataLoop_last {left r fuel : ℕ} {buf : Bytes} (h : InRange offset left r)
    (hgood : fs.badBlock (ino.blockNum stack ((offset + r) / 4096)) = false)
    (hlast : left - r + (offset + r) % 4096 < 4096) :
    readDataLoop fs ino stack offset left (fuel + 1) r buf
      = ⟨left, buf.copy r
            ((fs.dataBlock (ino.blockNum stack ((offset + r) / 4096))).drop
              ((offset + r) % 4096)) (left - r),
          [.blockIndex ((offset + r) / 4096),
            .data (ino.blockNum stack ((offset + r) / 4096)) ((offset + r) % 4096)
              (left - r)]⟩ := by
  have hle := h.le
  have hposition := h.position
  have hp : u32 ((r + offset : ℕ) : ℤ) = offset + r := by
    rw [u32_natCast (by omega), Nat.add_comm]
  have hrest : ((left : ℤ) - r).toNat = left - r := by omega
  simp only [readDataLoop, hp, hrest]
  rw [if_pos (by omega), hgood, if_neg Bool.false_ne_true, if_pos]
  rw [i32_of_bounds (by omega) (by omega)]
  omega

/-- **The loop at a block before the last**: it copies from the start of
the block as many bytes as there are from the position to the end of the
block. -/
theorem readDataLoop_next {left r fuel : ℕ} {buf : Bytes} (h : InRange offset left r)
    (hgood : fs.badBlock (ino.blockNum stack ((offset + r) / 4096)) = false)
    (hmore : 4096 ≤ left - r + (offset + r) % 4096) :
    let n := 4096 - (offset + r) % 4096
    let b := ino.blockNum stack ((offset + r) / 4096)
    let rest := readDataLoop fs ino stack offset left fuel (r + n)
      (buf.copy r (fs.dataBlock b) n)
    readDataLoop fs ino stack offset left (fuel + 1) r buf
      = ⟨rest.ret, rest.buf,
          .blockIndex ((offset + r) / 4096) :: .data b 0 n :: rest.log⟩ := by
  have hle := h.le
  have hposition := h.position
  have hsum := h.sum
  have hp : u32 ((r + offset : ℕ) : ℤ) = offset + r := by
    rw [u32_natCast (by omega), Nat.add_comm]
  have helse : (if (left : ℤ) - r < ((4096 - (offset + r) % 4096 : ℕ) : ℤ) then
      ((left : ℤ) - r).toNat else 4096 - (offset + r) % 4096)
        = 4096 - (offset + r) % 4096 := if_neg (by omega)
  simp only [readDataLoop, hp, helse]
  rw [if_pos (by omega), hgood, if_neg Bool.false_ne_true, if_neg]
  rw [i32_of_bounds (by omega) (by omega)]
  omega

/-! ## The whole loop -/

section Run

variable {left : ℕ}

/-- **Induction along the walk**: it stops at a bad block or in the block the
request ends in, and else goes on from the start of the next block. -/
theorem readDataLoop_induction {motive : ℕ → Bytes → ReadResult → Prop}
    (bad : ∀ r buf, InRange offset left r →
      fs.badBlock (ino.blockNum stack ((offset + r) / 4096)) = true →
      motive r buf ⟨-1, buf, [.blockIndex ((offset + r) / 4096)]⟩)
    (last : ∀ r buf, InRange offset left r →
      fs.badBlock (ino.blockNum stack ((offset + r) / 4096)) = false →
      left - r + (offset + r) % 4096 < 4096 →
      motive r buf
        ⟨left, buf.copy r
            ((fs.dataBlock (ino.blockNum stack ((offset + r) / 4096))).drop
              ((offset + r) % 4096)) (left - r),
          [.blockIndex ((offset + r) / 4096),
            .data (ino.blockNum stack ((offset + r) / 4096)) ((offset + r) % 4096)
              (left - r)]⟩)
    (next : ∀ fuel r buf n b rest, InRange offset left r →
      fs.badBlock (ino.blockNum stack ((offset + r) / 4096)) = false →
      4096 ≤ left - r + (offset + r) % 4096 →
      n = 4096 - (offset + r) % 4096 → b = ino.blockNum stack ((offset + r) / 4096) →
      rest = readDataLoop fs ino stack offset left fuel (r + n)
        (buf.copy r (fs.dataBlock b) n) →
      motive (r + n) (buf.copy r (fs.dataBlock b) n) rest →
      motive r buf ⟨rest.ret, rest.buf,
        .blockIndex ((offset + r) / 4096) :: .data b 0 n :: rest.log⟩)
    {fuel r : ℕ} {buf : Bytes} (h : InRange offset left r) (hfuel : left - r < fuel) :
    motive r buf (readDataLoop fs ino stack offset left fuel r buf) := by
  induction fuel generalizing r buf with
  | zero => exact absurd hfuel (Nat.not_lt_zero _)
  | succ fuel ih =>
    have hle := h.le
    have hposition := h.position
    cases hhere : fs.badBlock (ino.blockNum stack ((offset + r) / 4096)) with
    | true =>
      rw [readDataLoop_bad (by omega) (by omega) hhere]
      exact bad r buf h hhere
    | false =>
      by_cases hlast : left - r + (offset + r) % 4096 < 4096
      · rw [readDataLoop_last h hhere hlast]
        exact last r buf h hhere hlast
      · have hmore : 4096 ≤ left - r + (offset + r) % 4096 := Nat.not_lt.mp hlast
        rw [readDataLoop_next h hhere hmore]
        exact next fuel r buf _ _ _ h hhere hmore rfl rfl rfl (ih (h.next hmore) (by omega))

/-- Good blocks are good from the next block on. -/
theorem GoodBlocks.next {r hi : ℕ} (hgood : GoodBlocks fs ino stack ((offset + r) / 4096) hi)
    (n : ℕ) : GoodBlocks fs ino stack ((offset + (r + n)) / 4096) hi := fun i hlo hhi =>
  hgood i (le_trans (Nat.div_le_div_right (by omega)) hlo) hhi

/-- The block at hand is one of them. -/
theorem GoodBlocks.here {r : ℕ} (h : InRange offset left r)
    (hgood : GoodBlocks fs ino stack ((offset + r) / 4096) ((offset + left) / 4096)) :
    fs.badBlock (ino.blockNum stack ((offset + r) / 4096)) = false :=
  hgood _ (le_refl _) (Nat.div_le_div_right (Nat.add_le_add_left h.le offset))

/-- **A loop over good blocks returns the length of the request.** -/
theorem readDataLoop_ret_of_good {fuel r : ℕ} {buf : Bytes}
    (h : InRange offset left r) (hfuel : left - r < fuel)
    (hgood : GoodBlocks fs ino stack ((offset + r) / 4096) ((offset + left) / 4096)) :
    (readDataLoop fs ino stack offset left fuel r buf).ret = left := by
  refine readDataLoop_induction (motive := fun r _ res =>
    GoodBlocks fs ino stack ((offset + r) / 4096) ((offset + left) / 4096) → res.ret = left)
    ?_ ?_ ?_ h hfuel hgood
  · intro r buf h hbad hgood
    rw [GoodBlocks.here h hgood] at hbad
    cases hbad
  · intro r buf _ _ _ _
    rfl
  · intro fuel r buf n b rest _ _ _ _ _ _ ih hgood
    exact ih (hgood.next n)

/-- **A loop over a bad block returns -1.** -/
theorem readDataLoop_ret_of_bad {fuel r : ℕ} {buf : Bytes}
    (h : InRange offset left r) (hfuel : left - r < fuel)
    (hbad : ¬ GoodBlocks fs ino stack ((offset + r) / 4096) ((offset + left) / 4096)) :
    (readDataLoop fs ino stack offset left fuel r buf).ret = -1 := by
  refine readDataLoop_induction (motive := fun r _ res =>
    ¬ GoodBlocks fs ino stack ((offset + r) / 4096) ((offset + left) / 4096) → res.ret = -1)
    ?_ ?_ ?_ h hfuel hbad
  · intro r buf _ _ _
    rfl
  · intro r buf h hhere hlast hbad
    have hle := h.le
    refine absurd (fun i hlo hhi => ?_) hbad
    have hi : i = (offset + r) / 4096 := by omega
    rw [hi]
    exact hhere
  · intro fuel r buf n b rest _ hhere _ hn _ _ ih hbad
    refine ih (fun hrest => hbad (fun i hlo hhi => ?_))
    rcases Nat.eq_or_lt_of_le hlo with rfl | hlt
    · exact hhere
    · exact hrest i (by omega) hhi

/-- **From a block boundary on the loop delivers the file.** -/
theorem readDataLoop_bytes {fuel r : ℕ} {buf : Bytes}
    (h : InRange offset left r) (hfuel : left - r < fuel)
    (hgood : GoodBlocks fs ino stack ((offset + r) / 4096) ((offset + left) / 4096))
    (haligned : (offset + r) % 4096 = 0) {j : ℕ} (hj : r ≤ j) (hjl : j < left) :
    (readDataLoop fs ino stack offset left fuel r buf).buf j
      = fileByte fs ino stack (offset + j) := by
  -- The bytes of the block at hand, which both copies take from its start.
  have hbyte : ∀ r, (offset + r) % 4096 = 0 → r ≤ j → j < r + 4096 →
      fs.dataBlock (ino.blockNum stack ((offset + r) / 4096)) (j - r)
        = fileByte fs ino stack (offset + j) := by
    intro r haligned hj hlt
    have hindex : offset + j = offset + r + (j - r) := by omega
    rw [hindex, fileByte_add _ _ _ (by omega), haligned, Nat.zero_add]
  refine readDataLoop_induction (motive := fun r _ res =>
    GoodBlocks fs ino stack ((offset + r) / 4096) ((offset + left) / 4096) →
      (offset + r) % 4096 = 0 → r ≤ j → res.buf j = fileByte fs ino stack (offset + j))
    ?_ ?_ ?_ h hfuel hgood haligned hj
  · intro r buf h hbad hgood
    rw [GoodBlocks.here h hgood] at hbad
    cases hbad
  · intro r buf _ _ hlast _ haligned hj
    show Buffer.copy _ _ _ _ j = _
    rw [Buffer.copy_of_mem hj (by omega), Buffer.drop_apply, haligned, Nat.zero_add]
    exact hbyte r haligned hj (by omega)
  · intro fuel r buf n b rest h _ hmore hn hb hrest ih hgood haligned hj
    show rest.buf j = _
    by_cases hlt : j < r + n
    · have hle : r + n ≤ left := by
        rw [hn]
        exact (h.next hmore).le
      rw [hrest, readDataLoop_below _ _ hle hlt, Buffer.copy_of_mem hj hlt, hb]
      exact hbyte r haligned hj (by omega)
    · exact ih (hgood.next n) (by omega) (Nat.not_lt.mp hlt)

/-- **The bytes of a first block read to its end** are the bytes from the
start of the block, wherever in the block the position is. -/
theorem readDataLoop_first {fuel : ℕ} {buf : Bytes} (h : InRange offset left 0)
    (hfuel : left < fuel)
    (hgood : fs.badBlock (ino.blockNum stack (offset / 4096)) = false)
    (hmore : 4096 ≤ left + offset % 4096) {j : ℕ} (hj : j < 4096 - offset % 4096) :
    (readDataLoop fs ino stack offset left fuel 0 buf).buf j
      = fs.dataBlock (ino.blockNum stack (offset / 4096)) j := by
  obtain ⟨fuel, rfl⟩ : ∃ f, fuel = f + 1 := ⟨fuel - 1, by omega⟩
  have hnext := h.next hmore
  rw [readDataLoop_next h hgood hmore]
  show (readDataLoop _ _ _ _ _ _ _ _).buf j = _
  rw [readDataLoop_below _ _ hnext.le (by omega),
    Buffer.copy_of_mem (Nat.zero_le j) (by omega)]
  rfl

/-- **Nothing is copied from a bad block on.** -/
theorem copies_of_bad {fuel r i : ℕ} {buf : Bytes} (h : InRange offset left r)
    (hfuel : left - r < fuel) (hbad : fs.badBlock (ino.blockNum stack i) = true)
    (hi : 4096 * i ≤ offset + left) (hr : offset + r ≤ 4096 * i) :
    ∀ c ∈ copies (readDataLoop fs ino stack offset left fuel r buf).log r,
      offset + (c.1 + c.2) ≤ 4096 * i := by
  refine readDataLoop_induction (motive := fun r _ res => offset + r ≤ 4096 * i →
    ∀ c ∈ copies res.log r, offset + (c.1 + c.2) ≤ 4096 * i) ?_ ?_ ?_ h hfuel hr
  · intro r buf _ _ _ c hc
    exact absurd hc List.not_mem_nil
  · intro r buf h hhere hlast hr
    -- The block at hand is good, so the request would end before block `i`.
    have hne : (offset + r) / 4096 ≠ i := by
      rintro rfl
      rw [hbad] at hhere
      cases hhere
    have hle := h.le
    omega
  · intro fuel r buf n b rest h hhere hmore hn _ _ ih hr
    have hne : (offset + r) / 4096 ≠ i := by
      rintro rfl
      rw [hbad] at hhere
      cases hhere
    have hnext : offset + (r + n) ≤ 4096 * i := by omega
    intro c hc
    obtain rfl | hc := List.mem_cons.mp hc
    · exact hnext
    · exact ih hnext c hc

/-- **Good blocks are copied**: up to the last of them, if the request goes
on behind its start. -/
theorem exists_copies_of_good {fuel r i : ℕ} {buf : Bytes} (h : InRange offset left r)
    (hfuel : left - r < fuel)
    (hgood : GoodBlocks fs ino stack ((offset + r) / 4096) i)
    (hi : 4096 * i < offset + left) (hr : offset + r ≤ 4096 * i) :
    ∃ c ∈ copies (readDataLoop fs ino stack offset left fuel r buf).log r,
      4096 * i < offset + (c.1 + c.2) := by
  refine readDataLoop_induction (motive := fun r _ res =>
    GoodBlocks fs ino stack ((offset + r) / 4096) i → offset + r ≤ 4096 * i →
      ∃ c ∈ copies res.log r, 4096 * i < offset + (c.1 + c.2)) ?_ ?_ ?_ h hfuel hgood hr
  · intro r buf _ hbad hgood hr
    rw [hgood _ (le_refl _) (by omega)] at hbad
    cases hbad
  · intro r buf h _ _ _ _
    have hle := h.le
    exact ⟨(r, left - r), List.mem_singleton_self _, by dsimp only; omega⟩
  · intro fuel r buf n b rest _ _ _ hn _ _ ih hgood hr
    by_cases hend : 4096 * i < offset + (r + n)
    · exact ⟨(r, n), List.mem_cons_self, hend⟩
    · obtain ⟨c, hc, hlt⟩ := ih (hgood.next n) (Nat.not_lt.mp hend)
      exact ⟨c, List.mem_cons_of_mem _ hc, hlt⟩

end Run

end KernelDesign
