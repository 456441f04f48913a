import KernelDesign.FilePosition
import KernelDesign.Library.Layout
import KernelDesign.Lookup

/-!
# What an image stores

The routines of the file system read tables. What the tables are for is a
volume: some files, each with a name, a type and its contents. `Volume` says
what a volume is, `Volume.image` lays one out in the format, and
`Volume.Mounted` is what the kernel's state must be to stand for it.
`fsInit_mounted` is the round trip: `fs_init` on the image of a volume mounts
the volume, whatever was mounted before.

The image has one data block more than its files take. `read_data` asks for the
block after the last one of a file of whole blocks, and the entries of
`data_block_num` that a file does not use are 0; where there is a block 0, that
is not a bad number.
-/

namespace KernelDesign

open Layout Words

/-! ## Volumes -/

/-- **A stored file**: what a directory entry and an inode can hold. A name has
no NUL and at most 32 bytes, and the last entry of `data_block_num` is left
free. -/
structure Stored where
  name : List UInt8
  filetype : ℕ
  contents : List UInt8
  name_ne_nil : name ≠ []
  length_name_le : name.length ≤ 32
  name_ne_nul : ∀ c ∈ name, c ≠ 0
  filetype_le : filetype ≤ 2
  length_contents_le : contents.length ≤ 1022 * 4096

/-- The types of a directory and of a regular file are such types. -/
theorem directory_le : 1 ≤ 2 := by decide

theorem regular_le : 2 ≤ 2 := by decide

/-- **A volume**: as many files as the boot block has slots for, no two of one
name. -/
structure Volume where
  files : List Stored
  length_files_le : files.length ≤ 63
  nodup : (files.map Stored.name).Nodup

/-! ## Words -/

/-- The bytes of a word, the least significant first. -/
def wordBytes (n : ℕ) : Bytes := fun j => UInt8.ofNat (n / 256 ^ j)

/-- A table of words. -/
def words (table : ℕ → ℕ) : Bytes := records 4 (fun w => wordBytes (table w))

theorem int32At_congr {b b' : Bytes} {a a' : ℕ} (h : ∀ j, j < 4 → b (a + j) = b' (a' + j)) :
    int32At b a = int32At b' a' := by
  have h0 : b a = b' a' := h 0 (by decide)
  rw [int32At, int32At, h0, h 1 (by decide), h 2 (by decide), h 3 (by decide)]

/-- **A word is read back.** -/
theorem int32At_wordBytes {n : ℕ} (hn : n < 2147483648) : int32At (wordBytes n) 0 = n := by
  have hbyte : ∀ j, (wordBytes n (0 + j)).toNat = n / 256 ^ j % 256 := by
    intro j
    rw [Nat.zero_add]
    exact UInt8.toNat_ofNat'
  have h0 := hbyte 0
  have h1 := hbyte 1
  have h2 := hbyte 2
  have h3 := hbyte 3
  rw [Nat.zero_add] at h0
  rw [int32At, h0, h1, h2, h3, i32_of_bounds (by omega) (by omega)]
  omega

theorem int32At_words {table : ℕ → ℕ} {w : ℕ} (hw : table w < 2147483648) :
    int32At (words table) (4 * w) = table w := by
  rw [← int32At_wordBytes hw]
  refine int32At_congr (fun j hj => ?_)
  rw [Nat.mul_comm, Nat.zero_add]
  exact records_apply _ hj

theorem uint32At_words {table : ℕ → ℕ} {w : ℕ} (hw : table w < 2147483648) :
    uint32At (words table) (4 * w) = table w := by
  rw [uint32At, int32At_words hw]
  exact u32_natCast (by omega)

/-! ## The image of a volume -/

namespace Stored

/-- The blocks of a file. -/
def blocks (f : Stored) : ℕ := Layout.blocks 4096 f.contents.length

/-- **A name in 32 bytes** is read back: `strlen` ends at the padding, or at the
end of the field. -/
theorem text_eq (f : Stored) {d : Dentry} (h : ∀ j : Fin 32, d.filename j = f.name.getD j 0) :
    d.text = f.name := by
  have hbyte : ∀ j, j < 32 → d.name j = f.name.getD j 0 :=
    fun j hj => (dif_pos hj).trans (h ⟨j, hj⟩)
  have hne : ∀ j, j < f.name.length → (d.name j == 0) = false := by
    intro j hj
    rw [hbyte j (Nat.lt_of_lt_of_le hj f.length_name_le), List.getD_eq_getElem f.name 0 hj]
    exact beq_eq_false_iff_ne.mpr (f.name_ne_nul _ (List.getElem_mem hj))
  have hlength : strlen d.name 32 = f.name.length := by
    obtain hlt | heq := Nat.lt_or_eq_of_le f.length_name_le
    · refine Scan.scan_eq_of (Nat.zero_le _) (by omega) (fun j _ hj => hne j hj) ?_
      rw [hbyte _ hlt, List.getD_eq_default f.name 0 (le_refl _)]
      rfl
    · refine (Scan.scan_eq_bound (fun j _ hj => hne j ?_)).trans (by omega)
      omega
  rw [Dentry.text, hlength]
  refine List.ext_getElem (Buffer.length_first d.name _) (fun j hj hj' => ?_)
  simp only [Buffer.first, List.getElem_map, List.getElem_range]
  rw [hbyte j (Nat.lt_of_lt_of_le hj' f.length_name_le), List.getD_eq_getElem f.name 0 hj']

/-- The words of the directory entry of file number `i`. The first eight are
the name. -/
def entryWord (f : Stored) (i w : ℕ) : ℕ :=
  if w = 8 then f.filetype else if w = 9 then i else 0

/-- The directory entry of file number `i`. -/
def dirEntry (f : Stored) (i : ℕ) : Bytes := fun j =>
  if j < 32 then f.name.getD j 0 else words (f.entryWord i) j

end Stored

namespace Volume

/-- The contents of the files. -/
def contents (v : Volume) : List (List UInt8) := v.files.map Stored.contents

/-- The number of data blocks: those of the files, and one more. -/
def dataCount (v : Volume) : ℕ := start 4096 v.contents v.contents.length + 1

/-- The words of the boot block: the three counts. -/
def bootWord (v : Volume) : ℕ → ℕ
  | 0 => v.files.length
  | 1 => v.files.length
  | 2 => v.dataCount
  | _ => 0

/-- The records of the boot block: the counts, and the directory entries. -/
def bootRecord (v : Volume) : ℕ → Bytes
  | 0 => words v.bootWord
  | i + 1 => if h : i < v.files.length then v.files[i].dirEntry i else fun _ => 0

/-- The words of inode `i`: the length of the file, and its blocks, which follow
one another. -/
def inodeWord (v : Volume) (i : ℕ) : ℕ → ℕ
  | 0 => if h : i < v.files.length then v.files[i].contents.length else 0
  | w + 1 =>
    if h : i < v.files.length then
      if w < v.files[i].blocks then start 4096 v.contents i + w else 0
    else 0

/-- The pages of the image: the boot block, an inode for each file, and the data
blocks. -/
def page (v : Volume) (p : ℕ) : Bytes :=
  if p = 0 then records 64 v.bootRecord
  else if p ≤ v.files.length then words (v.inodeWord (p - 1))
  else (area 4096 0 v.contents).drop ((p - 1 - v.files.length) * 4096)

/-- **The image of a volume.** -/
def image (v : Volume) : Bytes := records 4096 v.page

/-- **The volume is mounted**: the tables that the kernel reads are those of the
volume, and a byte of a file is found through them. -/
structure Mounted (v : Volume) (fs : FileSystem) : Prop where
  dirCount : fs.bootBlock.dirCount = v.files.length
  inodeCount : fs.bootBlock.inodeCount = v.files.length
  entry : ∀ (i : Fin 63) (h : i.val < v.files.length),
    (fs.bootBlock.direntries i).text = v.files[i.val].name
      ∧ (fs.bootBlock.direntries i).filetype = v.files[i.val].filetype
      ∧ (fs.bootBlock.direntries i).inode = i.val
  unused : ∀ i : Fin 63, v.files.length ≤ i.val → (fs.bootBlock.direntries i).text = []
  length : ∀ i (h : i < v.files.length),
    (fs.inodeAt i).length = v.files[i].contents.length
  blockNum : ∀ i, i < v.files.length → ∀ w : Fin 1023,
    0 ≤ (fs.inodeAt i).dataBlockNum w
      ∧ (fs.inodeAt i).dataBlockNum w < fs.bootBlock.dataCount
  byte : ∀ i (h : i < v.files.length) (stack : ℕ → ℤ) (p : ℕ)
    (hp : p < v.files[i].contents.length),
    fileByte fs (fs.inodeAt i) stack p = v.files[i].contents[p]

/-! ## Reading the image -/

section Image

variable (v : Volume)

/-- A stored file has at most 1022 blocks. -/
theorem blocks_le (f : Stored) : f.blocks ≤ 1022 := by
  have hle := f.length_contents_le
  rw [Stored.blocks, Layout.blocks]
  omega

@[simp] theorem length_contents : v.contents.length = v.files.length := List.length_map _

theorem getElem_contents {i : ℕ} (h : i < v.files.length) (h' : i < v.contents.length) :
    v.contents[i] = v.files[i].contents := List.getElem_map _

theorem dataCount_le : v.dataCount ≤ 63 * 1022 + 1 := by
  have htotal := start_length_le (b := 1022) v.contents (fun c hc => by
    obtain ⟨f, -, rfl⟩ := List.mem_map.mp hc
    exact blocks_le f)
  have hfiles := v.length_files_le
  rw [length_contents] at htotal
  rw [dataCount, length_contents]
  omega

/-- **The blocks of a file** are data blocks. -/
theorem block_lt {i w : ℕ} (h : i < v.files.length) (hw : w < v.files[i].blocks) :
    start 4096 v.contents i + w < v.dataCount := by
  have hi : i < v.contents.length := v.length_contents.symm ▸ h
  have hle := start_add_blocks_le 4096 v.contents hi
  rw [v.getElem_contents h hi] at hle
  rw [Stored.blocks] at hw
  rw [dataCount]
  omega

/-- The boot block. -/
theorem image_boot {s j : ℕ} (hs : s < 64) (hj : j < 64) :
    v.image (s * 64 + j) = v.bootRecord s j := by
  have hpage := records_apply v.page (k := 0) (show s * 64 + j < 4096 by omega)
  rw [Nat.zero_mul, Nat.zero_add] at hpage
  exact hpage.trans (records_apply v.bootRecord hj)

/-- An inode. -/
theorem image_inode {i j : ℕ} (hi : i < v.files.length) (hj : j < 4096) :
    v.image.drop 4096 (i * 4096 + j) = words (v.inodeWord i) j := by
  have hpage := records_apply v.page (k := i + 1) hj
  rw [Nat.add_mul, Nat.one_mul, Nat.add_comm (i * 4096), Nat.add_assoc] at hpage
  refine hpage.trans ?_
  rw [page, if_neg (Nat.succ_ne_zero i), if_pos (Nat.succ_le_of_lt hi),
    Nat.add_sub_cancel]

/-- A data block. -/
theorem image_data (b : ℕ) {j : ℕ} (hj : j < 4096) :
    v.image.drop 4096 ((v.files.length + b) * 4096 + j)
      = area 4096 0 v.contents (b * 4096 + j) := by
  have hpage := records_apply v.page (k := v.files.length + b + 1) hj
  rw [Nat.add_mul, Nat.one_mul, Nat.add_comm (_ * 4096), Nat.add_assoc] at hpage
  refine hpage.trans ?_
  rw [page, if_neg (Nat.succ_ne_zero _), if_neg (by omega), Nat.add_sub_cancel,
    Nat.add_sub_cancel_left]
  rfl

/-- **The bytes of a file** are in its blocks. -/
theorem image_byte {i p : ℕ} (h : i < v.files.length) (hp : p < v.files[i].contents.length) :
    v.image.drop 4096
        ((v.files.length + (start 4096 v.contents i + p / 4096)) * 4096 + p % 4096)
      = v.files[i].contents[p] := by
  have hi : i < v.contents.length := v.length_contents.symm ▸ h
  have hfile := v.getElem_contents h hi
  have hp' : p < v.contents[i].length := by rwa [hfile]
  rw [image_data v _ (Nat.mod_lt p (by decide))]
  have hcell : (start 4096 v.contents i + p / 4096) * 4096 + p % 4096
      = start 4096 v.contents i * 4096 + p := by omega
  rw [hcell, area_start (by decide) 0 v.contents hi hp']
  exact List.getElem_of_eq hfile hp'

end Image

section Tables

variable (v : Volume) (fs : FileSystem)

theorem bootWord_lt (w : ℕ) : v.bootWord w < 2147483648 := by
  have hfiles := v.length_files_le
  have hdata := v.dataCount_le
  match w with
  | 0 | 1 => exact Nat.lt_of_le_of_lt hfiles (by decide)
  | 2 => exact Nat.lt_of_le_of_lt hdata (by decide)
  | _ + 3 => exact (by decide : 0 < 2147483648)

/-- The counts of the boot block. -/
theorem int32At_image_boot {w : ℕ} (hw : w < 16) : int32At v.image (4 * w) = v.bootWord w := by
  rw [← int32At_words (v.bootWord_lt w)]
  refine int32At_congr (fun j hj => ?_)
  have hrecord := v.image_boot (s := 0) (j := 4 * w + j) (by decide) (by omega)
  rwa [Nat.zero_mul, Nat.zero_add] at hrecord

theorem dentryAt_filetype (b : Bytes) (a : ℕ) :
    (dentryAt b a).filetype = uint32At b (a + 32) := by
  simp only [dentryAt]

theorem dentryAt_inode (b : Bytes) (a : ℕ) :
    (dentryAt b a).inode = uint32At b (a + 36) := by
  simp only [dentryAt]

/-- A directory entry. -/
theorem image_entry {i j : ℕ} (h : i < v.files.length) (hj : j < 64) :
    v.image (64 + 64 * i + j) = v.files[i].dirEntry i j := by
  have hfiles := v.length_files_le
  have hrecord := v.image_boot (s := i + 1) (j := j) (by omega) hj
  rw [Nat.add_mul, Nat.one_mul, Nat.mul_comm, Nat.add_comm (64 * i), bootRecord,
    dif_pos h] at hrecord
  exact hrecord

/-- **A directory entry is read back.** -/
theorem dentryAt_image {i : ℕ} (h : i < v.files.length) :
    (dentryAt v.image (64 + 64 * i)).text = v.files[i].name
      ∧ (dentryAt v.image (64 + 64 * i)).filetype = v.files[i].filetype
      ∧ (dentryAt v.image (64 + 64 * i)).inode = i := by
  have hfiles := v.length_files_le
  have htype := v.files[i].filetype_le
  have hword : ∀ w a, 8 ≤ w → w < 16 → a = 4 * w →
      uint32At v.image (64 + 64 * i + a) = v.files[i].entryWord i w := by
    intro w a hw hw' ha
    have hlt : v.files[i].entryWord i w < 2147483648 := by
      rw [Stored.entryWord]
      split_ifs <;> omega
    rw [← uint32At_words hlt, uint32At, uint32At]
    refine congrArg u32 (int32At_congr (fun j hj => ?_))
    rw [Nat.add_assoc, v.image_entry h (by omega), Stored.dirEntry, if_neg (by omega), ha]
  refine ⟨v.files[i].text_eq (fun j => ?_), ?_, ?_⟩
  · have hj := j.isLt
    refine (v.image_entry h (by omega)).trans ?_
    exact if_pos hj
  · exact (dentryAt_filetype _ _).trans (hword 8 32 (le_refl 8) (by decide) rfl)
  · exact (dentryAt_inode _ _).trans (hword 9 36 (by decide) (by decide) rfl)

/-- A slot that no file has is empty. -/
theorem dentryAt_image_unused {i : ℕ} (hi : i < 63) (h : v.files.length ≤ i) :
    (dentryAt v.image (64 + 64 * i)).text = [] := by
  have hzero : (dentryAt v.image (64 + 64 * i)).name 0 = 0 := by
    have hrecord := v.image_boot (s := i + 1) (j := 0) (by omega) (by decide)
    rw [Nat.add_mul, Nat.one_mul, Nat.mul_comm, Nat.add_comm (64 * i), bootRecord,
      dif_neg (Nat.not_lt.mpr h)] at hrecord
    exact hrecord
  have hlength : strlen (dentryAt v.image (64 + 64 * i)).name 32 = 0 :=
    Scan.scan_eq_of (Nat.le_refl 0) (by decide) (fun j _ hj => absurd hj (Nat.not_lt_zero j))
      (beq_iff_eq.mpr hzero)
  rw [Dentry.text, hlength]
  rfl

end Tables

section Inodes

variable (v : Volume) {i : ℕ} (h : i < v.files.length)

include h

theorem inodeWord_lt (w : ℕ) : v.inodeWord i w < 2147483648 := by
  have hdata := v.dataCount_le
  cases w with
  | zero =>
    have hlength := v.files[i].length_contents_le
    rw [inodeWord, dif_pos h]
    omega
  | succ w =>
    rw [inodeWord, dif_pos h]
    split
    · rename_i hw
      have hlt := v.block_lt h hw
      omega
    · decide

/-- A word of an inode is read back. -/
theorem int32At_image_inode {w : ℕ} (hw : w < 1024) :
    int32At (v.image.drop 4096) (i * 4096 + 4 * w) = v.inodeWord i w := by
  rw [← int32At_words (v.inodeWord_lt h w)]
  refine int32At_congr (fun j hj => ?_)
  rw [Nat.add_assoc]
  exact v.image_inode h (by omega)

end Inodes

end Volume

/-- **The round trip**: `fs_init` on the image of a volume mounts it, whatever
was mounted before. -/
theorem fsInit_mounted (v : Volume) (fs : FileSystem) : v.Mounted (fsInit fs v.image) := by
  have hfiles := v.length_files_le
  have hdata := v.dataCount_le
  have hdir : (fsInit fs v.image).bootBlock.dirCount = v.files.length := by
    simp only [fsInit, bootBlockAt]
    exact v.int32At_image_boot (w := 0) (by decide)
  have hinodes : (fsInit fs v.image).bootBlock.inodeCount = v.files.length := by
    simp only [fsInit, bootBlockAt]
    exact v.int32At_image_boot (w := 1) (by decide)
  have hblocks : (fsInit fs v.image).bootBlock.dataCount = v.dataCount := by
    simp only [fsInit, bootBlockAt]
    exact v.int32At_image_boot (w := 2) (by decide)
  have hinode : ∀ i, i < v.files.length → u32 ((i : ℤ) * 4096) = i * 4096 := by
    intro i h
    rw [u32_eq]
    omega
  have hlength : ∀ i (h : i < v.files.length),
      ((fsInit fs v.image).inodeAt i).length = v.files[i].contents.length := by
    intro i h
    simp only [FileSystem.inodeAt, fsInit]
    rw [hinode i h]
    have hword := v.int32At_image_inode h (w := 0) (by decide)
    rw [Nat.mul_zero, Nat.add_zero] at hword
    refine hword.trans ?_
    rw [Volume.inodeWord, dif_pos h]
  have hblock : ∀ i (_ : i < v.files.length) (w : Fin 1023),
      ((fsInit fs v.image).inodeAt i).dataBlockNum w = v.inodeWord i (w.val + 1) := by
    intro i h w
    simp only [FileSystem.inodeAt, fsInit]
    rw [hinode i h, Nat.add_assoc, Nat.add_comm 4, ← Nat.mul_succ]
    exact v.int32At_image_inode h (by omega)
  refine ⟨hdir, hinodes, fun i h => v.dentryAt_image h,
    fun i h => v.dentryAt_image_unused i.isLt h, hlength, ?_, ?_⟩
  · intro i h w
    rw [hblock i h w, hblocks, Volume.inodeWord, dif_pos h]
    split
    · rename_i hw
      have hlt := v.block_lt h hw
      omega
    · rw [Volume.dataCount]
      omega
  · intro i h stack p hp
    have hle := v.files[i].length_contents_le
    have hw : p / 4096 < v.files[i].blocks := div_lt_blocks (by decide) hp
    have hlt := v.block_lt h hw
    have hnum : ((fsInit fs v.image).inodeAt i).blockNum stack (p / 4096)
        = (Layout.start 4096 v.contents i + p / 4096 : ℕ) := by
      rw [Inode.blockNum_of_lt _ _ (by omega), hblock i h, Volume.inodeWord, dif_pos h, if_pos hw]
    rw [← v.image_byte h hp, fileByte, hnum]
    show v.image.drop 4096 (u32 ((fsInit fs v.image).bootBlock.inodeCount * 4096
      + ((Layout.start 4096 v.contents i + p / 4096 : ℕ) : ℤ) * 4096 + (p % 4096 : ℕ))) = _
    rw [hinodes]
    refine congrArg (v.image.drop 4096) ?_
    rw [u32_eq]
    omega

end KernelDesign
