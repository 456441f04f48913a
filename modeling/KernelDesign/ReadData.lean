import KernelDesign.ReadLoop
import Mathlib.Tactic.IntervalCases

/-!
# What `read_data` delivers

A request for `n` bytes at an offset of a file is cut to the bytes the
file has from there on, and `read_data` returns that number or -1. The
results here join the two readings of a request, the unsigned one of the
arguments and the signed one of the loop, and say which bytes the caller
finds.

A request that starts inside a block and goes to its end gets the first
bytes of that block, from its start: the copy of a whole block does not
add the position in the block to its source, where the copy of a partial
last block does. `readData_delivers_iff` is the exact extent of this.

A request that ends where the file does, on a block boundary, looks at the
block number behind those of the file before it finds that nothing is left
to copy. `readData_ret_iff` is the exact extent of that.
-/

namespace KernelDesign

open Words

variable {fs : FileSystem} {stack : ℕ → ℤ} {k offset n : ℕ} {buf : Bytes}

/-! ## The number of bytes read -/

/-- **A request is cut at the end of the file.** -/
theorem leftLength_eq {ino : Inode} (hoff : offset ≤ u32 ino.length)
    (hn : n < 2147483648) (hsum : n + offset < 4294967296) :
    leftLength ino offset n = (min n (u32 ino.length - offset) : ℕ) := by
  have hlen := u32_lt ino.length
  have hsub : u32 (ino.length - offset) = u32 ino.length - offset := by
    rw [u32_eq] at hoff hlen ⊢
    rw [u32_eq]
    omega
  rw [leftLength, u32_natCast hsum, hsub]
  split
  · rw [i32_of_bounds (by omega) (by omega), Nat.min_eq_right (by omega)]
  · rw [i32_of_bounds (by omega) (by omega), Nat.min_eq_left (by omega)]

/-- The length of a request is an `int32_t`. -/
theorem leftLength_bounds (ino : Inode) (offset n : ℕ) :
    -2147483648 ≤ leftLength ino offset n ∧ leftLength ino offset n < 2147483648 :=
  i32_bounds _

/-- **`read_data` past its argument checks** is its loop. -/
theorem readData_eq (hn : n ≠ 0) (hoff : offset ≤ u32 (fs.inodeAt k).length) :
    readData fs stack k offset (some buf) n
      = (readDataLoop fs (fs.inodeAt k) stack offset (leftLength (fs.inodeAt k) offset n)
          ((leftLength (fs.inodeAt k) offset n).toNat + 1) 0 buf).after (.inode k) := by
  simp only [readData]
  rw [if_neg (by omega)]

/-! ## A request of an ordinary file -/

/-- The bytes a request for `n` at `offset` gets out of a file. -/
def available (ino : Inode) (offset n : ℕ) : ℕ := min n (u32 ino.length - offset)

/-- **The blocks a request walks**: from the one with the offset to the
one with the end of the request. -/
def Walks (fs : FileSystem) (stack : ℕ → ℤ) (k offset n : ℕ) : Prop :=
  GoodBlocks fs (fs.inodeAt k) stack (offset / 4096)
    ((offset + available (fs.inodeAt k) offset n) / 4096)

/-- **A plain request**: the offset is in the file and no sum leaves its
type. -/
structure PlainRequest (fs : FileSystem) (k offset n : ℕ) : Prop where
  pos : 0 < n
  offset_le : offset ≤ u32 (fs.inodeAt k).length
  size : n < 2147483648
  wraps : n + offset < 4294967296
  room : available (fs.inodeAt k) offset n + offset % 4096 < 2147483648

namespace PlainRequest

variable (h : PlainRequest fs k offset n)

include h

theorem inRange : InRange offset (available (fs.inodeAt k) offset n) 0 := by
  have hwraps := h.wraps
  have hle : available (fs.inodeAt k) offset n ≤ n := Nat.min_le_left _ _
  exact ⟨Nat.zero_le _, by omega, h.room⟩

/-- The call is the loop on a natural number of bytes. -/
theorem readData_eq :
    readData fs stack k offset (some buf) n
      = (readDataLoop fs (fs.inodeAt k) stack offset (available (fs.inodeAt k) offset n)
          (available (fs.inodeAt k) offset n + 1) 0 buf).after (.inode k) := by
  rw [KernelDesign.readData_eq (Nat.ne_of_gt h.pos) h.offset_le,
    leftLength_eq h.offset_le h.size h.wraps, Int.toNat_natCast, available]

/-- **The value returned** is the number of bytes available, if the walk
meets no bad block. -/
theorem ret_of_walks (hw : Walks fs stack k offset n) :
    (readData fs stack k offset (some buf) n).ret
      = available (fs.inodeAt k) offset n := by
  rw [h.readData_eq, ReadResult.after_ret]
  exact readDataLoop_ret_of_good h.inRange (by omega) hw

/-- The value returned is -1 if the walk meets a bad block. -/
theorem ret_of_not_walks (hw : ¬ Walks fs stack k offset n) :
    (readData fs stack k offset (some buf) n).ret = -1 := by
  rw [h.readData_eq, ReadResult.after_ret]
  exact readDataLoop_ret_of_bad h.inRange (by omega) hw

/-- **Nothing is written past the bytes available.** -/
theorem frame {j : ℕ} (hj : available (fs.inodeAt k) offset n ≤ j) :
    (readData fs stack k offset (some buf) n).buf j = buf j := by
  rw [h.readData_eq, ReadResult.after_buf]
  exact (readDataLoop_range _ _ (Int.ofNat_le.mpr (Nat.zero_le _))).1 j
    (Or.inr (by rw [Int.toNat_natCast]; exact hj))

/-- The copies of a request are those of its loop. -/
theorem copies_eq :
    copies (readData fs stack k offset (some buf) n).log 0
      = copies (readDataLoop fs (fs.inodeAt k) stack offset (available (fs.inodeAt k) offset n)
          (available (fs.inodeAt k) offset n + 1) 0 buf).log 0 := by
  rw [h.readData_eq, ReadResult.after_log]
  rfl

/-- The copies of a request are inside the bytes available. -/
theorem copiesBelow :
    CopiesBelow (copies (readData fs stack k offset (some buf) n).log 0)
      (available (fs.inodeAt k) offset n) := by
  have hcopies : CopiesBelow (copies (readDataLoop fs (fs.inodeAt k) stack offset
      (available (fs.inodeAt k) offset n) (available (fs.inodeAt k) offset n + 1) 0 buf).log 0)
      (available (fs.inodeAt k) offset n : ℤ).toNat :=
    (readDataLoop_copies _ buf (Int.natCast_nonneg _)).1
  rw [h.copies_eq]
  rwa [Int.toNat_natCast] at hcopies

/-- No copy of a request goes behind a bad block that it comes to. -/
theorem copies_of_bad {i : ℕ} (hbad : fs.badBlock ((fs.inodeAt k).blockNum stack i) = true)
    (hlo : offset ≤ 4096 * i) (hhi : 4096 * i ≤ offset + available (fs.inodeAt k) offset n) :
    ∀ c ∈ copies (readData fs stack k offset (some buf) n).log 0,
      offset + (c.1 + c.2) ≤ 4096 * i := by
  rw [h.copies_eq]
  exact KernelDesign.copies_of_bad h.inRange (by omega) hbad hhi hlo

/-- A copy of a request goes behind the blocks that are good, if the request
does. -/
theorem exists_copies_of_good {i : ℕ}
    (hgood : GoodBlocks fs (fs.inodeAt k) stack (offset / 4096) i)
    (hlo : offset ≤ 4096 * i) (hhi : 4096 * i < offset + available (fs.inodeAt k) offset n) :
    ∃ c ∈ copies (readData fs stack k offset (some buf) n).log 0,
      4096 * i < offset + (c.1 + c.2) := by
  rw [h.copies_eq]
  exact KernelDesign.exists_copies_of_good h.inRange (by omega) hgood hhi hlo

/-- The whole of a request that ends before its first block does is
copied from the position in the block. -/
theorem buf_of_short (hw : Walks fs stack k offset n)
    (hshort : available (fs.inodeAt k) offset n + offset % 4096 < 4096) {j : ℕ}
    (hj : j < available (fs.inodeAt k) offset n) :
    (readData fs stack k offset (some buf) n).buf j
      = fileByte fs (fs.inodeAt k) stack (offset + j) := by
  have hgood := hw (offset / 4096) (le_refl _) (by omega)
  rw [h.readData_eq, ReadResult.after_buf, readDataLoop_last h.inRange hgood hshort]
  show Buffer.copy _ _ _ _ j = _
  rw [Buffer.copy_of_mem (Nat.zero_le j) (by omega), fileByte_add _ _ _ (by omega)]
  rfl

/-- **A request that reaches the end of its first block** gets the bytes
from the start of that block in place of those at the offset. -/
theorem buf_of_first (hw : Walks fs stack k offset n)
    (hlong : 4096 ≤ available (fs.inodeAt k) offset n + offset % 4096) {j : ℕ}
    (hj : j < 4096 - offset % 4096) :
    (readData fs stack k offset (some buf) n).buf j
      = fs.dataBlock ((fs.inodeAt k).blockNum stack (offset / 4096)) j := by
  have hgood := hw (offset / 4096) (le_refl _) (by omega)
  rw [h.readData_eq, ReadResult.after_buf]
  exact readDataLoop_first h.inRange (by omega) hgood hlong hj

/-- **Past the first block every byte is the file's.** -/
theorem buf_of_rest (hw : Walks fs stack k offset n)
    (hlong : 4096 ≤ available (fs.inodeAt k) offset n + offset % 4096) {j : ℕ}
    (hj : 4096 - offset % 4096 ≤ j) (hjn : j < available (fs.inodeAt k) offset n) :
    (readData fs stack k offset (some buf) n).buf j
      = fileByte fs (fs.inodeAt k) stack (offset + j) := by
  have hgood := hw (offset / 4096) (le_refl _) (by omega)
  have hnext := h.inRange.next hlong
  rw [h.readData_eq, ReadResult.after_buf, readDataLoop_next h.inRange hgood hlong]
  refine readDataLoop_bytes hnext (by omega) (fun i hlo hhi => hw i ?_ hhi)
    (by omega) (by omega) hjn
  exact le_trans (Nat.div_le_div_right (by omega)) hlo

end PlainRequest

/-! ## The file's own bytes -/

/-- **An inode of a well-formed image**: a length that the table of blocks
covers, and a block of the image for every block of the file. -/
structure Inode.WellFormed (ino : Inode) (dataCount : ℤ) : Prop where
  length_nonneg : 0 ≤ ino.length
  length_le : ino.length ≤ 1023 * 4096
  blocks : ∀ i : Fin 1023, (i.val * 4096 : ℤ) < ino.length →
    0 ≤ ino.dataBlockNum i ∧ ino.dataBlockNum i < dataCount

/-- **A well-formed image**: every inode below `inode_count` is. -/
def FileSystem.WellFormed (fs : FileSystem) : Prop :=
  ∀ k : ℕ, (k : ℤ) < fs.bootBlock.inodeCount →
    (fs.inodeAt k).WellFormed fs.bootBlock.dataCount

/-- **A call of `read_data` delivers the file's bytes**: if it returns a
count, the bytes below it are those of the file from the offset on, and
the bytes above are as they were. -/
def DeliversFile (fs : FileSystem) (stack : ℕ → ℤ) (k offset : ℕ) (buf : Bytes)
    (n : ℕ) : Prop :=
  let r := readData fs stack k offset (some buf) n
  0 ≤ r.ret → ∀ j : ℕ,
    ((j : ℤ) < r.ret → r.buf j = fileByte fs (fs.inodeAt k) stack (offset + j))
      ∧ (r.ret ≤ j → r.buf j = buf j)

/-- **The requests whose first copy is right**: those that end before
their first block does, those whose walk ends at a bad block number, and
those for which the bytes of the first block from its start on happen to
be the ones from the offset on. A request at a block boundary is of the
last kind. -/
def FirstCopyRight (fs : FileSystem) (stack : ℕ → ℤ) (k offset n : ℕ) : Prop :=
  let ino := fs.inodeAt k
  let pos := offset % 4096
  let first := fs.dataBlock (ino.blockNum stack (offset / 4096))
  available ino offset n + pos < 4096
    ∨ fs.badBlock (ino.blockNum stack ((offset + available ino offset n) / 4096)) = true
    ∨ ∀ j, j < 4096 - pos → first j = first (pos + j)

/-- At a block boundary there is no position to add. -/
theorem firstCopyRight_of_aligned (h : offset % 4096 = 0) :
    FirstCopyRight fs stack k offset n := by
  refine Or.inr (Or.inr (fun j _ => ?_))
  rw [h, Nat.zero_add]

/-- A number in range passes the test of the loop. -/
theorem FileSystem.badBlock_eq_false {b : ℤ} (h0 : 0 ≤ b)
    (h : b < fs.bootBlock.dataCount) : fs.badBlock b = false := by
  simp only [badBlock, decide_eq_false_iff_not]
  omega

section WellFormed

variable (hino : (fs.inodeAt k).WellFormed fs.bootBlock.dataCount)
  (hoff : (offset : ℤ) ≤ (fs.inodeAt k).length)

include hino

include hoff

/-- **A request inside a well-formed file is plain.** -/
theorem plainRequest_of_wellFormed (hpos : 0 < n) (hn : n < 2147483648) :
    PlainRequest fs k offset n := by
  have hlen := fs.u32_length _ hino.length_nonneg
  have hle := hino.length_le
  have hav : available (fs.inodeAt k) offset n ≤ u32 (fs.inodeAt k).length - offset :=
    Nat.min_le_right _ _
  exact ⟨hpos, by omega, hn, by omega, by omega⟩

/-- The only block a walk can find bad is one that no byte of the request
is in: the one after the end of the request. -/
theorem walks_iff_of_wellFormed :
    Walks fs stack k offset n
      ↔ fs.badBlock ((fs.inodeAt k).blockNum stack
          ((offset + available (fs.inodeAt k) offset n) / 4096)) = false := by
  have hlen := fs.u32_length _ hino.length_nonneg
  have hle := hino.length_le
  have hav : available (fs.inodeAt k) offset n ≤ u32 (fs.inodeAt k).length - offset :=
    Nat.min_le_right _ _
  constructor
  · exact fun hw => hw _ (by omega) (le_refl _)
  · intro hend i hlo hhi
    rcases Nat.eq_or_lt_of_le hhi with rfl | hlt
    · exact hend
    · have hi : i < 1023 := by omega
      obtain ⟨hb0, hb⟩ := hino.blocks ⟨i, hi⟩ (by dsimp only; omega)
      rw [Inode.blockNum_of_lt _ _ hi]
      exact fs.badBlock_eq_false hb0 hb

end WellFormed

/-- **When `read_data` delivers the file's own bytes**: on a request inside
a well-formed file, exactly when its first copy is right. -/
theorem readData_delivers_iff (hwf : fs.WellFormed)
    (hk : (k : ℤ) < fs.bootBlock.inodeCount) (hoff : (offset : ℤ) ≤ (fs.inodeAt k).length)
    (buf : Bytes) (hpos : 0 < n) (hn : n < 2147483648) :
    DeliversFile fs stack k offset buf n ↔ FirstCopyRight fs stack k offset n := by
  have hplain := plainRequest_of_wellFormed (hwf k hk) hoff hpos hn
  by_cases hw : Walks fs stack k offset n
  · have hret : (readData fs stack k offset (some buf) n).ret
        = available (fs.inodeAt k) offset n := hplain.ret_of_walks hw
    have hend := (walks_iff_of_wellFormed (hwf k hk) hoff).mp hw
    constructor
    · -- The bytes delivered are those of the file, so the first block repeats.
      intro hdel
      rcases Nat.lt_or_ge (available (fs.inodeAt k) offset n + offset % 4096) 4096
        with hshort | hlong
      · exact Or.inl hshort
      · refine Or.inr (Or.inr (fun j hj => ?_))
        have hfile := (hdel (by rw [hret]; omega) j).1 (by rw [hret]; omega)
        rw [hplain.buf_of_first hw hlong hj] at hfile
        rw [fileByte_add _ _ _ (by omega)] at hfile
        exact hfile
    · intro hright _ j
      rw [hret]
      refine ⟨fun hj => ?_, fun hj => hplain.frame (by omega)⟩
      rcases Nat.lt_or_ge (available (fs.inodeAt k) offset n + offset % 4096) 4096
        with hshort | hlong
      · exact hplain.buf_of_short hw hshort (by omega)
      · rcases Nat.lt_or_ge j (4096 - offset % 4096) with hfirst | hrest
        · rcases hright with h | h | h
          · omega
          · rw [hend] at h
            exact absurd h Bool.false_ne_true
          · rw [hplain.buf_of_first hw hlong hfirst, fileByte_add _ _ _ (by omega)]
            exact h j hfirst
        · exact hplain.buf_of_rest hw hlong hrest (by omega)
  · -- A walk that meets the bad block after the end returns no count.
    have hret : (readData fs stack k offset (some buf) n).ret = -1 :=
      hplain.ret_of_not_walks hw
    have hend := (not_congr (walks_iff_of_wellFormed (hwf k hk) hoff)).mp hw
    rw [Bool.not_eq_false] at hend
    constructor
    · exact fun _ => Or.inr (Or.inl hend)
    · intro _ h0
      rw [hret] at h0
      exact absurd h0 (by decide)

/-- **The requests that look past the file**: the request ends where the
file does, on a block boundary, and the block number behind those of the
file is not one of the image. -/
def LooksPastFile (fs : FileSystem) (stack : ℕ → ℤ) (k offset n : ℕ) : Prop :=
  let ino := fs.inodeAt k
  4096 ∣ ino.length ∧ ino.length ≤ offset + n
    ∧ fs.badBlock (ino.blockNum stack (u32 ino.length / 4096)) = true

/-- **The blocks of a request are those of the file** unless it looks past
the file. -/
theorem walks_iff_not_looksPastFile (hino : (fs.inodeAt k).WellFormed fs.bootBlock.dataCount)
    (hoff : (offset : ℤ) ≤ (fs.inodeAt k).length) :
    Walks fs stack k offset n ↔ ¬ LooksPastFile fs stack k offset n := by
  have hlen := fs.u32_length _ hino.length_nonneg
  have hle := hino.length_le
  rw [walks_iff_of_wellFormed hino hoff, LooksPastFile]
  by_cases hend : 4096 ∣ (fs.inodeAt k).length ∧ (fs.inodeAt k).length ≤ offset + n
  · -- The walk ends at the block behind the last one of the file.
    have hav : offset + available (fs.inodeAt k) offset n = u32 (fs.inodeAt k).length := by
      rw [available]
      omega
    rw [hav]
    simp only [hend, true_and, Bool.not_eq_true]
  · -- The last byte of the walk, or the one after it, is in a block of the file.
    have hblock :
        ((offset + available (fs.inodeAt k) offset n) / 4096 * 4096 : ℕ)
          < (fs.inodeAt k).length := by
      rw [available]
      omega
    have hi : (offset + available (fs.inodeAt k) offset n) / 4096 < 1023 := by omega
    obtain ⟨hb0, hb⟩ := hino.blocks ⟨_, hi⟩ (by dsimp only; omega)
    rw [Inode.blockNum_of_lt _ _ hi]
    refine iff_of_true (fs.badBlock_eq_false hb0 hb) (fun h => hend ⟨h.1, h.2.1⟩)

/-- **When `read_data` returns the right count**: on a request inside a
well-formed file, exactly when it does not look past the file. -/
theorem readData_ret_iff (hwf : fs.WellFormed) (hk : (k : ℤ) < fs.bootBlock.inodeCount)
    (hoff : (offset : ℤ) ≤ (fs.inodeAt k).length) (stack : ℕ → ℤ) (buf : Bytes)
    (hpos : 0 < n) (hn : n < 2147483648) :
    (readData fs stack k offset (some buf) n).ret
        = min (n : ℤ) ((fs.inodeAt k).length - offset)
      ↔ ¬ LooksPastFile fs stack k offset n := by
  have hplain := plainRequest_of_wellFormed (hwf k hk) hoff hpos hn
  have hlen := fs.u32_length k (hwf k hk).length_nonneg
  have hav : (available (fs.inodeAt k) offset n : ℤ)
      = min (n : ℤ) ((fs.inodeAt k).length - offset) := by
    rw [available]
    omega
  rw [← walks_iff_not_looksPastFile (hwf k hk) hoff, ← hav]
  constructor
  · intro hret
    by_contra hw
    rw [hplain.ret_of_not_walks hw] at hret
    omega
  · exact fun hw => hplain.ret_of_walks hw

/-! ## A file of two blocks -/

/-- An image with one file of 8192 bytes in data blocks 0 and 1, whose
byte `p` is `p` modulo 256. -/
def countingFs : FileSystem :=
  { bootBlock := ⟨1, 1, 3, fun _ => unsetDentry⟩
    afterBootBlock := unsetDentry
    image := fun j =>
      if j < 4096 then
        if j = 1 then 32 else if j = 8 then 1 else if j = 12 then 2 else 0
      else j.toUInt8
    dirCount := 0
    dentryGlobal := unsetDentry }

theorem countingFs_wellFormed : countingFs.WellFormed := by
  intro k hk
  have hk0 : k = 0 := by
    have hcount : countingFs.bootBlock.inodeCount = 1 := rfl
    omega
  subst hk0
  have hlen : (countingFs.inodeAt 0).length = 8192 := by decide
  refine ⟨by rw [hlen]; decide, by rw [hlen]; decide, fun i hi => ?_⟩
  rw [hlen] at hi
  obtain ⟨i, hlt⟩ := i
  have hi2 : i < 2 := by
    dsimp only at hi
    omega
  interval_cases i <;> decide +revert

/-- **A request of two blocks at offset 1** gets byte 0 of the file
first. -/
theorem readData_unaligned :
    countingFs.WellFormed ∧ ¬ DeliversFile countingFs (fun _ => 0) 0 1 (fun _ => 0) 4096 := by
  refine ⟨countingFs_wellFormed, fun h => ?_⟩
  have hbyte := (h (by decide +kernel) 0).1 (by decide +kernel)
  exact absurd hbyte (by decide +kernel)

/-- At a block boundary the same request gets the bytes of the file. -/
theorem readData_aligned :
    DeliversFile countingFs (fun _ => 0) 0 4096 (fun _ => 0) 4096 :=
  (readData_delivers_iff countingFs_wellFormed (by decide) (by decide) _ (by decide)
    (by decide)).mpr (firstCopyRight_of_aligned (Nat.mod_self 4096))

/-- The same image with two data blocks in place of three: the number
behind the last block of the file is 2, which is not one of them. -/
def countingFsTwo : FileSystem :=
  { countingFs with bootBlock := { countingFs.bootBlock with dataCount := 2 } }

theorem countingFsTwo_wellFormed : countingFsTwo.WellFormed := by
  intro k hk
  have hino := countingFs_wellFormed k hk
  refine ⟨hino.length_nonneg, hino.length_le, fun i hi => ?_⟩
  have hk0 : k = 0 := by
    have hcount : countingFsTwo.bootBlock.inodeCount = 1 := rfl
    omega
  subst hk0
  have hlen : (countingFsTwo.inodeAt 0).length = 8192 := by decide
  rw [hlen] at hi
  obtain ⟨i, hlt⟩ := i
  have hi2 : i < 2 := by
    dsimp only at hi
    omega
  interval_cases i <;> decide +revert

/-- **A read of the second block** of that file, and one at its end, fail. -/
theorem readData_at_end :
    countingFsTwo.WellFormed
      ∧ (readData countingFsTwo (fun _ => 0) 0 4096 (some (fun _ => 0)) 4096).ret = -1
      ∧ (readData countingFsTwo (fun _ => 0) 0 8192 (some (fun _ => 0)) 1).ret = -1 :=
  ⟨countingFsTwo_wellFormed, by decide +kernel, by decide +kernel⟩

/-- A read of the first block returns its count. -/
theorem readData_before_end :
    (readData countingFsTwo (fun _ => 0) 0 0 (some (fun _ => 0)) 4096).ret
      = min (4096 : ℤ) ((countingFsTwo.inodeAt 0).length - 0) :=
  (readData_ret_iff countingFsTwo_wellFormed (by decide) (by decide) _ _ (by decide)
    (by decide)).mpr (fun h => absurd h.2.1 (by decide))

end KernelDesign
