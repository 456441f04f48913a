import KernelDesign.Library.PageWalk
import KernelDesign.Paging

/-!
# The address translation

After `paging_setup` the page directory and its two tables map what the
kernel needs, the text page and its own 4 MB. `set_up_program_paging` adds
the page of the program that runs and `vidmap_helper` the text page at the
address a program may ask for. The state of the mapping is therefore two
things, the program set up last and whether `vidmap_helper` was called,
and `translate` is the translation these determine.

`walk_eq_translate` is that the x86 walk of the tables is `translate`, for
every address, after every sequence of calls. What carries it is `Maps`:
the directory has five entries in use, at 0, 1, 32 and 34 and nowhere
else, and the two tables one each.
-/

namespace KernelDesign

open PageWalk Words

/-! ## The specification -/

/-- **The state of the mapping**: the program set up last, and whether the
text page is mapped for programs. -/
structure Mapping where
  program : Option (Fin 511)
  video : Bool

/-- **The translation**: the text page and the page of the kernel at their
own addresses for the kernel alone, the page of the program at 128 MB and
the text page at `0x8800000` for programs. -/
def translate (m : Mapping) (v : ℕ) : Option Translation :=
  if 0xB8000 ≤ v ∧ v < 0xB9000 ∨ 0x400000 ≤ v ∧ v < 0x800000 then
    some ⟨v, false, true⟩
  else if 0x8000000 ≤ v ∧ v < 0x8400000 then
    m.program.map (fun n => ⟨0x400000 + 0x400000 * n.val + (v - 0x8000000), true, true⟩)
  else if 0x8800000 ≤ v ∧ v < 0x8801000 then
    if m.video then some ⟨0xB8000 + (v - 0x8800000), true, true⟩ else none
  else none

/-- **A call that changes the mapping.** -/
inductive PagingCall
  | program (n : Fin 511)
  | vidmap

/-- What a call does to the mapping. -/
def Mapping.call (m : Mapping) : PagingCall → Mapping
  | .program n => { m with program := some n }
  | .vidmap => { m with video := true }

/-! ## The tables -/

namespace Paging

/-- What a call does to the tables. -/
def call (p : Paging) : PagingCall → Paging
  | .program n => p.setUpProgramPaging n.val
  | .vidmap => p.vidmapHelper

/-- **The words at a physical address**: one of the two tables, or other
memory. -/
def tableAt (p : Paging) (memory : ℕ → ℕ → ℕ) (a : ℕ) : ℕ → ℕ :=
  if a = p.pageTableAddr then p.pageTable
  else if a = p.vidPageTableAddr then p.vidPageTable
  else memory a

/-- **The linker has placed the tables** in the page of the kernel, where
addresses are physical addresses, apart from each other. -/
structure Linked (p : Paging) : Prop where
  pageTable_dvd : 4096 ∣ p.pageTableAddr
  pageTable_ge : 0x400000 ≤ p.pageTableAddr
  pageTable_lt : p.pageTableAddr < 0x800000
  vidPageTable_dvd : 4096 ∣ p.vidPageTableAddr
  vidPageTable_ge : 0x400000 ≤ p.vidPageTableAddr
  vidPageTable_lt : p.vidPageTableAddr < 0x800000
  ne : p.vidPageTableAddr ≠ p.pageTableAddr

/-- **The tables hold the mapping.** -/
structure Maps (p : Paging) (m : Mapping) : Prop where
  textTable : p.pageDirectory 0 = p.pageTableAddr ||| 3
  kernel : p.pageDirectory 1 = 0x400000 ||| 0x83
  program : p.pageDirectory 32
    = match m.program with
      | some n => (0x400000 + 0x400000 * n.val) ||| 0x87
      | none => 2
  video : p.pageDirectory 34 = if m.video then p.vidPageTableAddr ||| 0x17 else 2
  blank : ∀ i, i ≠ 0 → i ≠ 1 → i ≠ 32 → i ≠ 34 → p.pageDirectory i = 2
  pageTable : ∀ i, p.pageTable i = if i = 0xB8 then 0xB8000 ||| 3 else 2
  vidPageTable : m.video = true →
    ∀ i, p.vidPageTable i = if i = 0 then 0xB8000 ||| 0x17 else 2

variable {p : Paging} {m : Mapping}

/-- The entry of a program is its block of 4 MB, with the flags of a page
user code can write. -/
theorem programEntry_of_fin (n : Fin 511) :
    programEntry n.val = (0x400000 + 0x400000 * n.val) ||| 0x87 := by
  have haddr : u32 (0x400000 + i32 ((n.val : ℤ) * 0x400000))
      = 0x400000 + 0x400000 * n.val := by
    have hn := n.isLt
    rw [i32_of_bounds (by omega) (by omega), u32_eq]
    omega
  exact congrArg (fun a => a ||| 0x87) haddr

/-- The entry of the program is at index 32. -/
theorem setUpProgramPaging_slot (p : Paging) (n : ℤ) :
    (p.setUpProgramPaging n).pageDirectory 32 = programEntry n := by
  simp [setUpProgramPaging]

/-- **`paging_setup` maps the kernel alone.** The entry it writes for the
address of `page_table` is at index 1, and the 4 MB page overwrites it. -/
theorem maps_pagingSetup (h : p.Linked) : p.pagingSetup.Maps ⟨none, false⟩ := by
  have hself : p.pageTableAddr / 0x400000 = 1 := by
    have hge := h.pageTable_ge
    have hlt := h.pageTable_lt
    omega
  constructor
  · rfl
  · rfl
  · simp [pagingSetup, hself]
  · simp [pagingSetup, hself]
  · intro i h0 h1 h32 h34
    simp [pagingSetup, hself, h0, h1]
  · exact fun i => rfl
  · exact fun hvideo => absurd hvideo Bool.false_ne_true

/-- **Each call keeps the tables in step with the mapping.** -/
theorem Maps.call (h : p.Maps m) (c : PagingCall) : (p.call c).Maps (m.call c) := by
  cases c with
  | program n =>
    constructor
    · exact h.textTable
    · exact h.kernel
    · exact (setUpProgramPaging_slot p n.val).trans (programEntry_of_fin n)
    · exact h.video
    · intro i h0 h1 h32 h34
      show ite _ _ _ = 2
      rw [if_neg h32]
      exact h.blank i h0 h1 h32 h34
    · exact h.pageTable
    · exact h.vidPageTable
  | vidmap =>
    constructor
    · exact h.textTable
    · exact h.kernel
    · exact h.program
    · rfl
    · intro i h0 h1 h32 h34
      show ite _ _ _ = 2
      rw [if_neg h34]
      exact h.blank i h0 h1 h32 h34
    · exact h.pageTable
    · exact fun _ i => rfl

/-- No call moves the tables. -/
theorem Linked.call (h : p.Linked) (c : PagingCall) : (p.call c).Linked := by
  cases c with
  | program n => exact ⟨h.1, h.2, h.3, h.4, h.5, h.6, h.7⟩
  | vidmap => exact ⟨h.1, h.2, h.3, h.4, h.5, h.6, h.7⟩

/-- **The tables after a sequence of calls.** -/
theorem Maps.foldl (h : p.Maps m) (hl : p.Linked) (cs : List PagingCall) :
    (cs.foldl Paging.call p).Maps (cs.foldl Mapping.call m)
      ∧ (cs.foldl Paging.call p).Linked := by
  induction cs generalizing p m with
  | nil => exact ⟨h, hl⟩
  | cons c cs ih => exact ih (h.call c) (hl.call c)

/-! ## The walk -/

section Walk

variable {v : ℕ} {memory : ℕ → ℕ → ℕ} (h : p.Maps m) (hl : p.Linked)

theorem tableAt_pageTable (p : Paging) (memory : ℕ → ℕ → ℕ) :
    p.tableAt memory p.pageTableAddr = p.pageTable := if_pos rfl

include hl in
theorem tableAt_vidPageTable : p.tableAt memory p.vidPageTableAddr = p.vidPageTable := by
  rw [tableAt, if_neg hl.ne, if_pos rfl]

include h hl

/-- The first 4 MB: the text page. -/
theorem walk_low (hv : v / 4194304 = 0) :
    walk p.pageDirectory (p.tableAt memory) v = translate m v := by
  have hdir : p.pageDirectory (v / 4194304) = p.pageTableAddr ||| 3 := by
    rw [hv]
    exact h.textTable
  have hpte : p.tableAt memory p.pageTableAddr (v / 4096 % 1024)
      = if v / 4096 % 1024 = 0xB8 then 0xB8000 ||| 3 else 2 := by
    rw [tableAt_pageTable]
    exact h.pageTable _
  by_cases htext : v / 4096 % 1024 = 0xB8
  · rw [if_pos htext] at hpte
    rw [walk_of_page hdir hl.pageTable_dvd (by decide) (by decide) (by decide) hpte
      (by decide) (by decide) (by decide), translate, if_pos (Or.inl (by omega))]
    simp only [Option.some.injEq, Translation.mk.injEq]
    exact ⟨by omega, by decide, by decide⟩
  · rw [if_neg htext] at hpte
    rw [walk_of_absent_page hdir hl.pageTable_dvd (by decide) (by decide) (by decide)
      (by rw [hpte]; decide), translate, if_neg (by omega), if_neg (by omega),
      if_neg (by omega)]

omit hl in
/-- The second 4 MB: the page of the kernel. -/
theorem walk_kernel (hv : v / 4194304 = 1) :
    walk p.pageDirectory (p.tableAt memory) v = translate m v := by
  have hdir : p.pageDirectory (v / 4194304) = 0x400000 ||| 0x83 := by
    rw [hv]
    exact h.kernel
  rw [walk_of_large hdir (by decide) (by decide) (by decide) (by decide), translate,
    if_pos (Or.inr (by omega))]
  simp only [Option.some.injEq, Translation.mk.injEq]
  exact ⟨by omega, by decide, by decide⟩

omit hl in
/-- The 4 MB from 128 MB on: the page of the program. -/
theorem walk_program (hv : v / 4194304 = 32) :
    walk p.pageDirectory (p.tableAt memory) v = translate m v := by
  have hdir := h.program
  rw [← hv] at hdir
  rw [translate, if_neg (by omega), if_pos (by omega)]
  cases hprogram : m.program with
  | none =>
    rw [hprogram] at hdir
    exact walk_of_absent (by rw [hdir]; decide)
  | some n =>
    rw [hprogram] at hdir
    have hblock : 0x400000 ∣ 0x400000 + 0x400000 * n.val :=
      ⟨1 + n.val, by omega⟩
    rw [walk_of_large hdir hblock (by decide) (by decide) (by decide), Option.map_some]
    simp only [Option.some.injEq, Translation.mk.injEq]
    exact ⟨by omega, by decide, by decide⟩

/-- The 4 MB from `0x8800000` on: the text page of the programs. -/
theorem walk_video (hv : v / 4194304 = 34) :
    walk p.pageDirectory (p.tableAt memory) v = translate m v := by
  have hdir := h.video
  rw [← hv] at hdir
  rw [translate, if_neg (by omega), if_neg (by omega)]
  cases hvideo : m.video with
  | false =>
    rw [hvideo, if_neg Bool.false_ne_true] at hdir
    rw [walk_of_absent (by rw [hdir]; decide)]
    exact (ite_self none).symm
  | true =>
    rw [hvideo, if_pos rfl] at hdir
    have hpte : p.tableAt memory p.vidPageTableAddr (v / 4096 % 1024)
        = if v / 4096 % 1024 = 0 then 0xB8000 ||| 0x17 else 2 := by
      rw [tableAt_vidPageTable hl]
      exact h.vidPageTable hvideo _
    by_cases hfirst : v / 4096 % 1024 = 0
    · rw [if_pos hfirst] at hpte
      rw [walk_of_page hdir hl.vidPageTable_dvd (by decide) (by decide) (by decide) hpte
        (by decide) (by decide) (by decide), if_pos (by omega), if_pos rfl]
      simp only [Option.some.injEq, Translation.mk.injEq]
      exact ⟨by omega, by decide, by decide⟩
    · rw [if_neg hfirst] at hpte
      rw [walk_of_absent_page hdir hl.vidPageTable_dvd (by decide) (by decide) (by decide)
        (by rw [hpte]; decide), if_neg (by omega)]

/-- **The walk of tables that hold a mapping** is its translation. -/
theorem Maps.walk : PageWalk.walk p.pageDirectory (p.tableAt memory) v = translate m v := by
  by_cases h0 : v / 4194304 = 0
  · exact walk_low h hl h0
  by_cases h1 : v / 4194304 = 1
  · exact walk_kernel h h1
  by_cases h32 : v / 4194304 = 32
  · exact walk_program h h32
  by_cases h34 : v / 4194304 = 34
  · exact walk_video h hl h34
  · rw [walk_of_absent (by rw [h.blank _ h0 h1 h32 h34]; decide), translate,
      if_neg (by omega), if_neg (by omega), if_neg (by omega)]

end Walk

/-- **The walk is the translation**: after `paging_setup` and any sequence
of calls, for every address and whatever the other memory holds. -/
theorem walk_eq_translate (hl : p.Linked) (memory : ℕ → ℕ → ℕ) (cs : List PagingCall)
    (v : ℕ) :
    PageWalk.walk (cs.foldl Paging.call p.pagingSetup).pageDirectory
        ((cs.foldl Paging.call p.pagingSetup).tableAt memory) v
      = translate (cs.foldl Mapping.call ⟨none, false⟩) v := by
  have hsetup : p.pagingSetup.Linked := ⟨hl.1, hl.2, hl.3, hl.4, hl.5, hl.6, hl.7⟩
  obtain ⟨hmaps, hlinked⟩ := (maps_pagingSetup hl).foldl hsetup cs
  exact hmaps.walk hlinked

/-- Two programs set up one after the other, and the text page mapped: the
second program's page is at 128 MB. -/
theorem walk_second_program :
    PageWalk.walk
        ([.program 0, .vidmap, .program 3].foldl Paging.call
          (Paging.pagingSetup ⟨fun _ => 0, fun _ => 0, fun _ => 0, 0x401000,
            0x402000⟩)).pageDirectory
        (([.program 0, .vidmap, .program 3].foldl Paging.call
          (Paging.pagingSetup ⟨fun _ => 0, fun _ => 0, fun _ => 0, 0x401000, 0x402000⟩)).tableAt
            (fun _ _ => 0)) 0x8048000
      = some ⟨0x1048000, true, true⟩ := by
  have hl : Linked ⟨fun _ => 0, fun _ => 0, fun _ => 0, 0x401000, 0x402000⟩ :=
    ⟨by decide, by decide, by decide, by decide, by decide, by decide, by decide⟩
  refine (walk_eq_translate hl (fun _ _ => 0) [.program 0, .vidmap, .program 3]
    0x8048000).trans ?_
  rfl

end Paging

end KernelDesign
