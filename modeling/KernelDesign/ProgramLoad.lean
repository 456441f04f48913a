import KernelDesign.ExecutableCheck

/-!
# Where a program is loaded

The user page is the 4 MB from `0x08000000` on, and a program is loaded at
`0x08048000`, so a file has to leave the first 288 KB of the page alone to
fit. `execute` asks for `EXE_FSIZE`, the size of the whole page, and
`read_data` cuts that at the length of the file and at nothing else.

A load copies block after block, each to where the last one ended. Which
bytes that writes can be read off the accesses `read_data` makes
(`copies`), and `load_stays_iff` is what follows for every file that passes
the executable check.
-/

namespace KernelDesign

open Words

variable {fs : FileSystem} {ino : Inode} {stack : ℕ → ℤ} {offset : ℕ}

namespace PlainRequest

variable {k n : ℕ} {buf : Bytes}

/-- **A request of a block or more** from the start of a file on copies its
first block. -/
theorem mem_copies (h : PlainRequest fs k 0 n) (hlong : 4096 ≤ available (fs.inodeAt k) 0 n)
    (hgood : fs.badBlock ((fs.inodeAt k).dataBlockNum 0) = false) :
    (0, 4096) ∈ copies (readData fs stack k 0 (some buf) n).log 0 := by
  have hfirst : fs.badBlock ((fs.inodeAt k).blockNum stack ((0 + 0) / 4096)) = false := by
    rw [Nat.zero_div, Inode.blockNum_zero]
    exact hgood
  rw [h.readData_eq, ReadResult.after_log, readDataLoop_next h.inRange hfirst (by omega)]
  exact List.mem_cons_self

end PlainRequest

/-! ## The load -/

/-- `EXE_MEMV_BASE`. -/
def exeMemvBase : ℕ := 0x08048000

/-- The end of the user page. -/
def userPageEnd : ℕ := 0x08400000

namespace Kernel

/-- **The read of the program load**, once the program is counted and its
page is mapped. -/
def loadRead (k : Kernel) (st : Stale) (d : Dentry) : ReadResult :=
  let k := k.countProgram.setUpProgramPaging k.countProgram.activeProc
  readData k.fs st.loadStack d.inode 0
    (some ((k.userMem (frameOf (k.paging.pageDirectory 32))).drop 0x48000)) 0x400000

/-- **The addresses the load writes.** -/
def LoadWrites (k : Kernel) (st : Stale) (d : Dentry) (a : ℕ) : Prop :=
  ∃ c ∈ copies (k.loadRead st d).log 0,
    exeMemvBase + c.1 ≤ a ∧ a < exeMemvBase + (c.1 + c.2)

/-- **A load stays in the page**: it writes from the load address on to the
end of the page at most, and a file that does not fit there is refused
before any of it is written. -/
structure LoadStaysInPage (k : Kernel) (st : Stale) (d : Dentry) : Prop where
  inPage : ∀ a, k.LoadWrites st d a → exeMemvBase ≤ a ∧ a < userPageEnd
  refused : userPageEnd < exeMemvBase + (k.fs.inodeAt d.inode).length →
    (k.loadNext st d).1 = -1 ∧ ∀ a, ¬ k.LoadWrites st d a

variable {k : Kernel} {st : Stale} {d : Dentry}

/-- The program load is this read. -/
theorem loadNext_fst (k : Kernel) (st : Stale) (d : Dentry) :
    (k.loadNext st d).1 = (k.loadRead st d).ret := loadProgram_fst _ st d

/-- It is made on the image of the caller. -/
theorem exists_loadRead_eq (k : Kernel) (st : Stale) (d : Dentry) :
    ∃ buf, k.loadRead st d = readData k.fs st.loadStack d.inode 0 (some buf) 0x400000 :=
  ⟨_, rfl⟩

/-- **A load writes no more than the file has.** -/
theorem loadRead_copiesBelow (k : Kernel) (st : Stale) (d : Dentry) :
    CopiesBelow (copies (k.loadRead st d).log 0)
      (available (k.fs.inodeAt d.inode) 0 0x400000) := by
  obtain ⟨buf, hread⟩ := k.exists_loadRead_eq st d
  rw [hread]
  exact (plainRequest_load k.fs d.inode).copiesBelow

/-- **The first block of a large file is written** if it is a block of the
image. -/
theorem mem_copies_loadRead (hlarge : 4096 ≤ available (k.fs.inodeAt d.inode) 0 0x400000)
    (hgood : k.fs.badBlock ((k.fs.inodeAt d.inode).dataBlockNum 0) = false) :
    (0, 4096) ∈ copies (k.loadRead st d).log 0 := by
  obtain ⟨buf, hread⟩ := k.exists_loadRead_eq st d
  rw [hread]
  exact (plainRequest_load k.fs d.inode).mem_copies hlarge hgood

/-- **The check has looked at the first block.** -/
theorem badBlock_of_execLookup {s : Bytes} (h : execLookup k st s = some d) :
    k.fs.badBlock ((k.fs.inodeAt d.inode).dataBlockNum 0) = false := by
  unfold execLookup at h
  dsimp only at h
  split at h
  · cases h
  · split at h
    · cases h
    · rename_i hret
      split at h
      · cases h
      · rw [← Option.some.inj h]
        rw [probe_ret_iff] at hret
        exact (Bool.not_eq_true _).mp hret

/-- A file that does not fit is loaded in part. -/
theorem not_loadStaysInPage {s : Bytes} (hlook : execLookup k st s = some d)
    (hlarge : 0x3B8000 < (k.fs.inodeAt d.inode).length) :
    ¬ k.LoadStaysInPage st d := by
  intro h
  have hword := k.fs.u32_length d.inode (by omega)
  have hav : 4096 ≤ available (k.fs.inodeAt d.inode) 0 0x400000 := by
    rw [available]
    omega
  have hbase : (userPageEnd : ℤ) < exeMemvBase + (k.fs.inodeAt d.inode).length := by
    rw [userPageEnd, exeMemvBase]
    omega
  refine (h.refused hbase).2 exeMemvBase ⟨(0, 4096), ?_, Nat.le_refl _, ?_⟩
  · exact mem_copies_loadRead hav (badBlock_of_execLookup hlook)
  · exact Nat.lt_add_of_pos_right (by decide)

/-- **When the load of a program stays in the page**: for every file that
passes the executable check, exactly if its length is at most `0x3B8000`. -/
theorem load_stays_iff {s : Bytes} (hlook : execLookup k st s = some d)
    (h0 : 0 ≤ (k.fs.inodeAt d.inode).length)
    (hmax : (k.fs.inodeAt d.inode).length ≤ 1023 * 4096) :
    k.LoadStaysInPage st d ↔ (k.fs.inodeAt d.inode).length ≤ 0x3B8000 := by
  constructor
  · intro h
    by_contra hlarge
    exact not_loadStaysInPage hlook (Int.not_le.mp hlarge) h
  · intro hfits
    have hword := k.fs.u32_length _ h0
    have hav : available (k.fs.inodeAt d.inode) 0 0x400000 ≤ 0x3B8000 := by
      rw [available]
      omega
    refine ⟨fun a ha => ?_, fun hlarge => ?_⟩
    · obtain ⟨c, hc, hlo, hhi⟩ := ha
      have hbelow := k.loadRead_copiesBelow st d c hc
      rw [exeMemvBase] at hlo hhi
      rw [exeMemvBase, userPageEnd]
      omega
    · rw [exeMemvBase, userPageEnd] at hlarge
      omega

/-! ## A file of 952 blocks and a byte -/

/-- A kernel with one executable, `big`, of `0x3B8001` bytes. All its block
numbers are 0. -/
def bigKernel : Kernel :=
  { loadedKernel with
    fs := { twoProgramsFs with
      bootBlock := ⟨1, 1, 1, fun i =>
        if i.val = 0 then ⟨fun j => cstring "big" j, 2, 0⟩ else unsetDentry⟩
      image := fun j =>
        if j = 0 then 0x01
        else if j = 1 then 0x80
        else if j = 2 then 0x3B
        else if 4096 ≤ j then magicByte (j - 4096)
        else 0 } }

/-- **The last byte of `big` goes behind the page.** -/
theorem load_leaves_page :
    ∃ d, execLookup bigKernel zeroStale (cstring "big") = some d
      ∧ (bigKernel.fs.inodeAt d.inode).length = 0x3B8001
      ∧ ¬ bigKernel.LoadStaysInPage zeroStale d := by
  have hlook : (execLookup bigKernel zeroStale (cstring "big")).map (fun d => d.inode)
      = some 0 := by decide +kernel
  obtain ⟨d, hd, hinode⟩ := Option.map_eq_some_iff.mp hlook
  have hlen : (bigKernel.fs.inodeAt d.inode).length = 0x3B8001 := by
    rw [hinode]
    decide +kernel
  exact ⟨d, hd, hlen, not_loadStaysInPage hd (by rw [hlen]; decide)⟩

/-- The shell stays in the page. -/
theorem load_stays_shell :
    ∃ d, execLookup loadedKernel zeroStale (cstring "shell") = some d
      ∧ loadedKernel.LoadStaysInPage zeroStale d := by
  have hlook : (execLookup loadedKernel zeroStale (cstring "shell")).map (fun d => d.inode)
      = some 0 := by decide +kernel
  obtain ⟨d, hd, hinode⟩ := Option.map_eq_some_iff.mp hlook
  have hlen : (loadedKernel.fs.inodeAt d.inode).length = 4 := by
    rw [hinode]
    decide +kernel
  exact ⟨d, hd, (load_stays_iff hd (by rw [hlen]; decide) (by rw [hlen]; decide)).mpr
    (by rw [hlen]; decide)⟩

end Kernel

end KernelDesign
