import KernelDesign.Strings

/-!
# Page tables

The three tables of `paging.c` are 1024 entries of 32 bits each, indexed
by an `ℕ` that the code keeps below 1024. A directory entry with bit 7 set
maps a 4 MB page; `set_up_program_paging` writes such an entry at index
32, the directory slot of the user page at 128 MB.
-/

namespace KernelDesign

open Words

/-- **The page directory and the two page tables**, with the addresses
the linker gives the tables. -/
structure Paging where
  pageDirectory : ℕ → ℕ
  pageTable : ℕ → ℕ
  vidPageTable : ℕ → ℕ
  pageTableAddr : ℕ
  vidPageTableAddr : ℕ

/-- The entry `set_up_program_paging` computes for a process number:
`(KERNEL_PHYS_VIRT_MEMO_ADDR + process_number * FOUR_MB) | PROGRAM_PAGE_MASK`. -/
def programEntry (processNumber : ℤ) : ℕ :=
  u32 (0x400000 + i32 (processNumber * 0x400000)) ||| 0x87

/-- The 4 MB frame a directory entry with bit 7 set maps. -/
def frameOf (entry : ℕ) : ℕ := entry / 0x400000 * 0x400000

namespace Paging

/-- **`paging_setup`**. -/
def pagingSetup (p : Paging) : Paging :=
  { p with
    pageTable := fun i => if i = 0xB8 then 0xB8000 ||| 3 else 2
    pageDirectory := fun i =>
      if i = 1 then 0x400000 ||| 3 ||| 0x80
      else if i = 0 then p.pageTableAddr ||| 3
      else if i = p.pageTableAddr / 0x400000 then p.pageTableAddr ||| 3
      else 2 }

/-- **`set_up_program_paging`**. -/
def setUpProgramPaging (p : Paging) (processNumber : ℤ) : Paging :=
  { p with pageDirectory := fun i =>
      if i = 32 then programEntry processNumber else p.pageDirectory i }

/-- **`vidmap_helper`**: `VID_MEM_INIT` is mapped to the text page. -/
def vidmapHelper (p : Paging) : Paging :=
  { p with
    vidPageTable := fun i => if i = 0 then 0xB8000 ||| 0x17 else 2
    pageDirectory := fun i =>
      if i = 34 then p.vidPageTableAddr ||| 0x17 else p.pageDirectory i }

/-- **`map_term`**: the entry of the terminal being left takes its address
from the word that `addr` points to. -/
def mapTerm (p : Paging) (termFlag oldFlag : ℕ) (addr : Bytes) : Paging :=
  { p with vidPageTable := fun i =>
      if i = termFlag then 0xB8000 ||| 7
      else if i = oldFlag then uint32At addr 0 ||| 7
      else p.vidPageTable i }

end Paging

end KernelDesign
