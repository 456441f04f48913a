import KernelDesign.DirectoryReads

/-!
# Listing the directory

A program lists the directory by reading it until a read returns 0. From
`fs_init` on the reads go through the entries in turn, one more read
returns 0, and the next starts over: the position is the number of reads
modulo `dir_count` of the boot block plus 1. Neither the buffers nor the
sizes of the requests matter, and neither does whether a name fills its 32
bytes or ends with a NUL.
-/

namespace KernelDesign

open Words

/-- A position in the directory does not wrap. -/
theorem u32_position {c : ℕ} (h : c < 64) : u32 (c + 1) = c + 1 := by
  rw [u32_eq]
  omega

/-- **The name listed at a position** in a directory of at most 63 entries. -/
theorem listedName_eq {fs : FileSystem} {c : ℕ} (h : c < 64) :
    listedName fs c
      = if u32 fs.bootBlock.dirCount ≤ c then [] else (fs.direntry c).text := by
  rw [listedName, u32_position h, Nat.min_eq_left (Nat.le_of_lt_succ h)]
  simp only [Nat.lt_succ_iff]

/-- **The position goes round**: behind the last of `n` entries there is one
more, and then the first. -/
theorem ownPosition_eq_mod {n : ℕ} (hn : n ≤ 63) (m : ℕ) : ownPosition n m = m % (n + 1) := by
  induction m with
  | zero => exact (Nat.zero_mod (n + 1)).symm
  | succ m ih =>
    have hlt : m % (n + 1) < n + 1 := Nat.mod_lt m (Nat.succ_pos n)
    rw [ownPosition, ih, nextPosition, u32_position (by omega), ← Nat.mod_add_mod]
    split
    · -- The read behind the last entry.
      rename_i hlast
      rw [show m % (n + 1) + 1 = n + 1 by omega, Nat.mod_self]
    · rename_i hnext
      exact (Nat.mod_eq_of_lt (by omega)).symm

/-- **The file system after `m` reads of the directory**, each with its own
buffer and size. -/
def afterReads (bufs : ℕ → Bytes) (nbytes : ℕ → ℤ) (fs : FileSystem) : ℕ → FileSystem
  | 0 => fs
  | m + 1 =>
    (fsDirRead (afterReads bufs nbytes fs m) (bufs m) (nbytes m)).fs

/-- The buffers and the sizes leave no trace. -/
theorem afterReads_eq_alone (bufs : ℕ → Bytes) (nbytes : ℕ → ℤ) {fs : FileSystem}
    (h : fs.dirCount = 0) (m : ℕ) : afterReads bufs nbytes fs m = alone fs m := by
  induction m with
  | zero =>
    show fs = { fs with dirCount := 0 }
    rw [← h]
  | succ m ih =>
    have hcurrent : CurrentEntry (alone fs m) := (alone_spec fs m).1
    rw [afterReads, ih, alone, (fsDirRead_eq hcurrent _ _).2.2, (fsDirRead_eq hcurrent _ _).2.2]

/-- **The directory is enumerated**: from `fs_init` on, the read after `m`
others returns 0 if `m` modulo the number of entries plus 1 is that number,
and otherwise lists the entry of that index, the length of its name and the
name in the first 32 bytes of the buffer. -/
theorem fsDirRead_enumerates {D : ℕ} (fs : FileSystem) (image : Bytes)
    (hD : (fsInit fs image).bootBlock.dirCount = D) (h63 : D ≤ 63) (bufs : ℕ → Bytes)
    (nbytes : ℕ → ℤ) (m : ℕ) :
    let r := fsDirRead (afterReads bufs nbytes (fsInit fs image) m) (bufs m) (nbytes m)
    let entry := (fsInit fs image).direntry (m % (D + 1))
    (m % (D + 1) = D → r.ret = 0)
      ∧ (m % (D + 1) ≠ D → r.ret = entry.text.length ∧ r.buf.first 32 = entry.padded) := by
  intro r entry
  have hcount : u32 (fsInit fs image).bootBlock.dirCount = D := by
    rw [hD]
    exact u32_natCast (by omega)
  obtain ⟨hcurrent, hlisted, hboot, hpos⟩ := alone_spec (fsInit fs image) m
  rw [← afterReads_eq_alone bufs nbytes rfl, hcount, ownPosition_eq_mod h63] at hpos
  rw [← afterReads_eq_alone bufs nbytes rfl] at hcurrent hlisted hboot
  have hlt : m % (D + 1) < D + 1 := Nat.mod_lt m (Nat.succ_pos D)
  have hname : listedName (fsInit fs image) (m % (D + 1))
      = if D ≤ m % (D + 1) then [] else entry.text := by
    rw [listedName_eq (by omega), hcount]
  have hret : r.ret
      = (if D ≤ m % (D + 1) then [] else entry.text).length := by
    rw [← hname, ← hlisted, ← hpos]
    exact (fsDirRead_eq hcurrent _ _).1
  constructor
  · intro hlast
    rw [hret, if_pos (Nat.le_of_eq hlast.symm)]
    rfl
  · intro hnext
    have hslot : min (m % (D + 1)) 63 = m % (D + 1) := Nat.min_eq_left (by omega)
    have hsame : (afterReads bufs nbytes (fsInit fs image) m).direntry (m % (D + 1)) = entry := by
      show (if h : _ then _ else _) = (if h : _ then _ else _)
      rw [dif_pos (by omega), dif_pos (by omega), hboot]
    constructor
    · rw [hret, if_neg (by omega)]
    · rw [show r.buf.first 32 = _ from fsDirRead_buf hcurrent _ _, hpos, hslot, hsame]

/-- The fifth read of the directory with the entries `.` and `a` lists `a`
again. -/
theorem fsDirRead_enumerates_fifth :
    let r := fsDirRead (afterReads (fun _ _ => 7) (fun _ => 32)
      (fsInit loadedKernel.fs DirSession.twoEntries) 4) (fun _ => 7) 32
    r.ret = 1 ∧ r.buf.first 32 = 0x61 :: List.replicate 31 0 := by
  have h := (fsDirRead_enumerates (D := 2) loadedKernel.fs DirSession.twoEntries
    (by decide +kernel) (by decide) (fun _ _ => 7) (fun _ => 32) 4).2 (by decide)
  have htext : ((fsInit loadedKernel.fs DirSession.twoEntries).direntry 1).text = [0x61] := by
    decide +kernel
  refine ⟨h.1.trans ?_, h.2.trans ?_⟩
  · rw [show 4 % (2 + 1) = 1 from rfl, htext]
    rfl
  · rw [show 4 % (2 + 1) = 1 from rfl, Dentry.padded, htext]
    rfl

end KernelDesign
