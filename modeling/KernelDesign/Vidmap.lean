import KernelDesign.Isolation
import KernelDesign.Translation

/-!
# The pointer given to `vidmap`

`vidmap` stores the address of the text page where its argument points, so
the four bytes there have to be in the page of the program. The test reads
the pointer as a signed number: it refuses what is below 128 MB, above 132
MB, and every address with the top bit set, which is negative. It does not
allow for the size of what is stored. At the lower end that makes no
difference. At the upper end it accepts four pointers too many: 132 MB
itself and the three below it, where the store leaves the page and faults.

The page of process 0 is the page of the kernel, so its pointers reach the
tables themselves. `vidmap_helper` runs before the store, and a store that
falls on an entry of the directory or on the entry of the text page undoes
what it did (`vidmap_contract_iff`).
-/

namespace KernelDesign

open Words

/-- The four bytes at `p` lie in the page of the program. -/
def InUserPage (p : ℕ) : Prop := 0x8000000 ≤ p ∧ p + 4 ≤ 0x8400000

instance inUserPage_decidable (p : ℕ) : Decidable (InUserPage p) :=
  inferInstanceAs (Decidable (_ ∧ _))

/-- **What the linker and the compiler decide about the page of the kernel**:
where `page_directory` lies, and what the store of `VID_MEM_INIT` at an
address does to all that the tables are not part of. That is nothing to go on
with (`none`) if it falls on the instructions or the stack words that the call
still needs. -/
structure KernelImage where
  pageDirectoryAddr : ℕ
  rest : ℕ → Kernel → Option Kernel

/-- **The tables after the store** at a physical address, with the directory
at `d`. -/
def Paging.storeVideo (p : Paging) (d a : ℕ) : Paging :=
  { p with
    pageDirectory := PageWalk.storeOver d p.pageDirectory a 0x8800000
    pageTable := PageWalk.storeOver p.pageTableAddr p.pageTable a 0x8800000
    vidPageTable := PageWalk.storeOver p.vidPageTableAddr p.vidPageTable a 0x8800000 }

theorem Paging.storeVideo_pageDirectory (p : Paging) (d a i : ℕ) :
    (p.storeVideo d a).pageDirectory i
      = PageWalk.storeOver d p.pageDirectory a 0x8800000 i := rfl

theorem Paging.storeVideo_vidPageTable (p : Paging) (d a i : ℕ) :
    (p.storeVideo d a).vidPageTable i
      = PageWalk.storeOver p.vidPageTableAddr p.vidPageTable a 0x8800000 i := rfl

namespace KernelImage

/-- **What the store does to the kernel** when it is made in its page. -/
def spill (l : KernelImage) (a : ℕ) (k : Kernel) : Except Trap Kernel :=
  match l.rest a k with
  | none => .error .overwritten
  | some k' => .ok { k' with
      paging := k.paging.storeVideo l.pageDirectoryAddr a
      userMem := k.userMem }

/-- **The store at `p` spares what counts**: the call comes back, the
directory is as `vidmap_helper` has left it, and so are the three bytes of
the first entry of `vid_page_table` that are not 0. -/
structure Spares (l : KernelImage) (k : Kernel) (p : ℕ) : Prop where
  returns : l.rest (kernelPageAddr p) (k.videoMapped p) ≠ none
  directory : ∀ i, PageWalk.storeOver l.pageDirectoryAddr k.paging.vidmapHelper.pageDirectory
    (kernelPageAddr p) 0x8800000 i = k.paging.vidmapHelper.pageDirectory i
  video : kernelPageAddr p + 4 ≤ k.paging.vidPageTableAddr
    ∨ k.paging.vidPageTableAddr + 3 ≤ kernelPageAddr p

end KernelImage

/-- **What an accepted pointer leads to**: the address `0x8800000` is stored
there and nothing else in the frames of the programs changes, the walk of
that address ends in the text page, and no other entry of the directory
changes. -/
structure VideoMapped (k k' : Kernel) (p : ℕ) : Prop where
  stored : uint32At ((k'.userMem (frameOf (k.paging.pageDirectory 32))).drop (p - 0x8000000)) 0
    = 0x8800000
  frame : ∀ f a, f ≠ 0x400000 → f ≠ frameOf (k.paging.pageDirectory 32)
    ∨ a < p - 0x8000000 ∨ p - 0x8000000 + 4 ≤ a → k'.userMem f a = k.userMem f a
  walk : ∀ memory, PageWalk.walk k'.paging.pageDirectory (k'.paging.tableAt memory) 0x8800000
    = some ⟨0xB8000, true, true⟩
  directory : ∀ i, i ≠ 0x8800000 / 4194304 →
    k'.paging.pageDirectory i = k.paging.pageDirectory i

/-- **What `vidmap` should do with a pointer.** -/
structure VidmapContract (l : KernelImage) (k : Kernel) (p : ℕ) : Prop where
  accepts : (∃ k', sysVidmap l.spill k p = .ok (0, k')) ↔ InUserPage p
  maps : ∀ k', sysVidmap l.spill k p = .ok (0, k') → VideoMapped k k' p
  refuses : ¬ InUserPage p → sysVidmap l.spill k p = .ok (-1, k)

theorem videoMapped_userMem (k : Kernel) (p f : ℕ) :
    (k.videoMapped p).userMem f
      = if f = frameOf (k.paging.pageDirectory 32) then
          (k.userMem f).copy (p - 0x8000000) (fun j => [0, 0, 0x80, 8].getD j 0) 4
        else k.userMem f := rfl

/-- **The signed test**, over the whole range of a pointer. -/
theorem vidmap_test_iff {p : ℕ} (hp : p < 4294967296) :
    p = 0 ∨ i32 p < 0x8000000 ∨ 0x8400000 < i32 p ↔ p < 0x8000000 ∨ 0x8400000 < p := by
  obtain hlow | hhigh := Nat.lt_or_ge p 2147483648
  · rw [i32_of_bounds (by omega) (by omega)]
    omega
  · rw [i32_of_overflow (by omega) (by omega)]
    omega

section

variable {spill : ℕ → Kernel → Except Trap Kernel} {k : Kernel} {p : ℕ} (hp : p < 4294967296)

include hp

/-- A pointer outside the bounds of the test. -/
theorem sysVidmap_refused (h : p < 0x8000000 ∨ 0x8400000 < p) :
    sysVidmap spill k p = .ok (-1, k) := by
  rw [sysVidmap, if_pos ((vidmap_test_iff hp).mpr h)]

/-- **A pointer at the very end of the page**: the test accepts it, and the
store faults. -/
theorem sysVidmap_fault (h : 0x8400000 < p + 4) (h' : p ≤ 0x8400000) :
    sysVidmap spill k p = .error .pageFault := by
  rw [sysVidmap, if_neg (fun htest => absurd ((vidmap_test_iff hp).mp htest) (by omega)),
    if_pos h]

/-- A pointer to four bytes of the page. -/
theorem sysVidmap_accepted (h : InUserPage p) :
    sysVidmap spill k p
      = if frameOf (k.paging.pageDirectory 32) = 0x400000 then
          (spill (kernelPageAddr p) (k.videoMapped p)).map (fun k => (0, k))
        else .ok (0, k.videoMapped p) := by
  obtain ⟨hl, hu⟩ := h
  rw [sysVidmap, if_neg (fun htest => absurd ((vidmap_test_iff hp).mp htest) (by omega)),
    if_neg (by omega)]

end

/-! ## The tables after the store -/

/-- The four bytes that are stored are even. -/
theorem byteOf_vidMem : ∀ j < 4, PageWalk.byteOf 0x8800000 j % 2 = 0 := by decide

section Store

variable {k : Kernel} {p : ℕ}

/-- **The pointer is written through**, and no other byte of a program's
frame is. -/
theorem videoMapped_stored (k : Kernel) (p : ℕ) :
    uint32At (((k.videoMapped p).userMem (frameOf (k.paging.pageDirectory 32))).drop
        (p - 0x8000000)) 0 = 0x8800000
      ∧ ∀ f a, f ≠ 0x400000 → f ≠ frameOf (k.paging.pageDirectory 32)
        ∨ a < p - 0x8000000 ∨ p - 0x8000000 + 4 ≤ a →
        (k.videoMapped p).userMem f a = k.userMem f a := by
  refine ⟨?_, fun f a _ h => ?_⟩
  · have hbyte : ∀ j, j < 4 →
        (k.videoMapped p).userMem (frameOf (k.paging.pageDirectory 32)) (p - 0x8000000 + j)
          = [0, 0, 0x80, 8].getD j 0 := by
      intro j hj
      rw [videoMapped_userMem, if_pos rfl, Buffer.copy_of_mem (by omega) (by omega),
        Nat.add_sub_cancel_left]
    simp only [uint32At, int32At, Buffer.drop_apply]
    rw [hbyte 0 (by decide), hbyte (0 + 1) (by decide), hbyte (0 + 2) (by decide),
      hbyte (0 + 3) (by decide)]
    decide +kernel
  · by_cases hf : f = frameOf (k.paging.pageDirectory 32)
    · rw [videoMapped_userMem, if_pos hf]
      obtain hne | hlt | hle := h
      · exact absurd hf hne
      · exact Buffer.copy_of_lt hlt
      · exact Buffer.copy_of_le hle
    · rw [videoMapped_userMem, if_neg hf]

variable {d a : ℕ} {paging : Paging}

/-- The walk of `0x8800000`, with both entries as `vidmap_helper` writes
them. -/
theorem walk_vidMem (hl : paging.Linked)
    (hdir : paging.pageDirectory 34 = paging.vidPageTableAddr ||| 0x17)
    (hpte : paging.vidPageTable 0 = 0xB8000 ||| 0x17) (memory : ℕ → ℕ → ℕ) :
    PageWalk.walk paging.pageDirectory (paging.tableAt memory) 0x8800000
      = some ⟨0xB8000, true, true⟩ :=
  (PageWalk.walk_of_page (v := 0x8800000) (b := 0xB8000) (g := 0x17) hdir hl.vidPageTable_dvd
    (by decide) (by decide) (by decide)
    ((congrFun (Paging.tableAt_vidPageTable hl) _).trans hpte)
    (by decide) (by decide) (by decide)).trans rfl

/-- A directory entry that is in use and names a page of other memory ends the
walk. -/
theorem walk_of_other_table {b : ℕ} (hb : 4096 ∣ b) (hpt : b ≠ paging.pageTableAddr)
    (hvpt : b ≠ paging.vidPageTableAddr)
    (hentry : PageWalk.storeOver d paging.pageDirectory a 0x8800000 34 = b ||| 0x17) :
    PageWalk.walk (paging.storeVideo d a).pageDirectory
      ((paging.storeVideo d a).tableAt (fun _ _ => 0)) 0x8800000 = none := by
  refine PageWalk.walk_of_absent_page (v := 0x8800000) (a := b) (f := 0x17) hentry hb
    (by decide) (by decide) (by decide) ?_
  have htable : (paging.storeVideo d a).tableAt (fun _ _ => 0) b = fun _ => 0 :=
    (if_neg hpt).trans (if_neg hvpt)
  rw [htable]
  decide

section Spoiled

variable (hl : paging.Linked)

include hl

/-- **A store that spoils the directory's entry** ends the walk: the entry is
out of use, or names a page outside the tables. -/
theorem walk_of_spoiled_directory
    (hdir : paging.pageDirectory 34 = paging.vidPageTableAddr ||| 0x17)
    (hne : PageWalk.storeOver d paging.pageDirectory a 0x8800000 34
      ≠ paging.pageDirectory 34) :
    PageWalk.walk (paging.storeVideo d a).pageDirectory
      ((paging.storeVideo d a).tableAt (fun _ _ => 0)) 0x8800000 = none := by
  obtain ⟨c, hc⟩ := hl.vidPageTable_dvd
  have hge := hl.vidPageTable_ge
  have hlt := hl.vidPageTable_lt
  have hptge := hl.pageTable_ge
  have hptlt := hl.pageTable_lt
  have hentry : paging.pageDirectory 34 = 4096 * c + 0x17 := by
    rw [hdir, hc]
    exact (Nat.two_pow_add_eq_or_of_lt (i := 12) (b := 0x17) (by decide) c).symm
  by_cases hapart : a + 4 ≤ d + 4 * 34 ∨ d + 4 * 34 + 4 ≤ a
  · exact absurd (PageWalk.storeOver_of_apart hapart) hne
  by_cases hlow : a ≤ d + 4 * 34
  · refine PageWalk.walk_of_absent (v := 0x8800000) ?_
    exact PageWalk.storeOver_absent (by decide) hlow (by omega) byteOf_vidMem
  -- The lowest byte stays, so the entry is in use.
  have hbytes : PageWalk.byteOf (paging.pageDirectory 34) 0 = 0x17
      ∧ PageWalk.byteOf (paging.pageDirectory 34) 1 = 16 * (c % 16)
      ∧ PageWalk.byteOf (paging.pageDirectory 34) 2 = c / 16 := by
    simp only [PageWalk.byteOf, hentry]
    omega
  obtain ⟨h0, h1, h2⟩ := hbytes
  have hstored : PageWalk.byteOf 0x8800000 0 = 0 ∧ PageWalk.byteOf 0x8800000 1 = 0
      ∧ PageWalk.byteOf 0x8800000 2 = 0x80 := by decide
  obtain ⟨hs0, hs1, hs2⟩ := hstored
  obtain hsecond | hthird | hlast :
      a = d + 4 * 34 + 1 ∨ a = d + 4 * 34 + 2 ∨ a = d + 4 * 34 + 3 := by omega
  · refine walk_of_other_table (b := 0x80000000) (by decide) (by omega) (by omega) ?_
    rw [PageWalk.storeOver_second (by decide) hsecond, h0, hs0, hs1, hs2]
    decide
  · refine walk_of_other_table (b := 4096 * (c % 16)) (Nat.dvd_mul_right _ _) (by omega)
      (by omega) ?_
    rw [PageWalk.storeOver_third (by decide) hthird, h0, h1, hs0, hs1,
      ← Nat.two_pow_add_eq_or_of_lt (i := 12) (b := 0x17) (by decide) (c % 16)]
    omega
  · refine absurd ?_ hne
    rw [PageWalk.storeOver_last (by decide) hlast, h0, h1, h2, hs0, hentry]
    omega

/-- The entry of the table after the store is the one the walk meets. -/
theorem storeVideo_tableAt (i : ℕ) :
    (paging.storeVideo d a).tableAt (fun _ _ => 0) paging.vidPageTableAddr i
      = PageWalk.storeOver paging.vidPageTableAddr paging.vidPageTable a 0x8800000 i :=
  congrFun (Paging.tableAt_vidPageTable (p := paging.storeVideo d a)
    ⟨hl.1, hl.2, hl.3, hl.4, hl.5, hl.6, hl.7⟩) i

variable (hdir : (paging.storeVideo d a).pageDirectory 34 = paging.vidPageTableAddr ||| 0x17)

include hdir

/-- An entry of the table that is in use and maps another page. -/
theorem walk_of_other_page {b : ℕ} (hb : 4096 ∣ b) (hne : b ≠ 0xB8000)
    (hentry : PageWalk.storeOver paging.vidPageTableAddr paging.vidPageTable a 0x8800000 0
      = b ||| 0x17) :
    PageWalk.walk (paging.storeVideo d a).pageDirectory
      ((paging.storeVideo d a).tableAt (fun _ _ => 0)) 0x8800000
        ≠ some ⟨0xB8000, true, true⟩ := by
  intro hwalk
  rw [PageWalk.walk_of_page (v := 0x8800000) (b := b) (g := 0x17) hdir hl.vidPageTable_dvd
    (by decide) (by decide) (by decide) ((storeVideo_tableAt hl 0).trans hentry) hb
    (by decide) (by decide)] at hwalk
  simp only [Option.some.injEq, PageWalk.Translation.mk.injEq] at hwalk
  omega

/-- **A store that spoils the table's entry**: the walk ends, or in another
page. -/
theorem walk_of_spoiled_table (hpte : paging.vidPageTable 0 = 0xB8000 ||| 0x17)
    (hlow : paging.vidPageTableAddr < a + 4) (hhigh : a < paging.vidPageTableAddr + 3) :
    PageWalk.walk (paging.storeVideo d a).pageDirectory
      ((paging.storeVideo d a).tableAt (fun _ _ => 0)) 0x8800000
        ≠ some ⟨0xB8000, true, true⟩ := by
  have hbytes : PageWalk.byteOf (paging.vidPageTable 0) 0 = 0x17
      ∧ PageWalk.byteOf (paging.vidPageTable 0) 1 = 0x80 := by
    rw [hpte]
    decide
  obtain ⟨h0, h1⟩ := hbytes
  by_cases hfirst : a ≤ paging.vidPageTableAddr
  · rw [PageWalk.walk_of_absent_page (v := 0x8800000) hdir hl.vidPageTable_dvd (by decide)
      (by decide) (by decide)]
    · exact nofun
    · rw [storeVideo_tableAt hl]
      exact PageWalk.storeOver_absent (by decide) (by omega) (by omega) byteOf_vidMem
  obtain hsecond | hthird : a = paging.vidPageTableAddr + 4 * 0 + 1
      ∨ a = paging.vidPageTableAddr + 4 * 0 + 2 := by omega
  · refine walk_of_other_page (b := 0x80000000) hl hdir (by decide) (by decide) ?_
    rw [PageWalk.storeOver_second (by decide) hsecond, h0]
    decide
  · refine walk_of_other_page (b := 0x8000) hl hdir (by decide) (by decide) ?_
    rw [PageWalk.storeOver_third (by decide) hthird, h0, h1]
    decide

end Spoiled

end Store

/-! ## The contract -/

/-- **An accepted pointer of another process** is written through and the text
page is mapped. -/
theorem videoMapped_mapped {k : Kernel} (hl : k.paging.Linked) (p : ℕ) :
    VideoMapped k (k.videoMapped p) p := by
  obtain ⟨hstored, hframe⟩ := videoMapped_stored k p
  have hl' : (k.videoMapped p).paging.Linked := ⟨hl.1, hl.2, hl.3, hl.4, hl.5, hl.6, hl.7⟩
  exact ⟨hstored, hframe, walk_vidMem hl' rfl rfl, fun i hi => if_neg hi⟩

/-- **A pointer into the page of the kernel**: the text page is mapped if and
only if the store spares the tables. -/
theorem spilled_mapped_iff {l : KernelImage} {k k' : Kernel} (hl : k.paging.Linked) {p : ℕ}
    (hrest : l.rest (kernelPageAddr p) (k.videoMapped p) = some k') :
    VideoMapped k { k' with
        paging := k.paging.vidmapHelper.storeVideo l.pageDirectoryAddr (kernelPageAddr p)
        userMem := (k.videoMapped p).userMem } p
      ↔ l.Spares k p := by
  have hreturns : l.rest (kernelPageAddr p) (k.videoMapped p) ≠ none := by
    rw [hrest]
    exact nofun
  have hl' : k.paging.vidmapHelper.Linked := ⟨hl.1, hl.2, hl.3, hl.4, hl.5, hl.6, hl.7⟩
  have hother : ∀ i, i ≠ 0x8800000 / 4194304 →
      k.paging.vidmapHelper.pageDirectory i = k.paging.pageDirectory i := fun i hi => if_neg hi
  have hpte : k.paging.vidmapHelper.vidPageTable 0 = 0xB8000 ||| 0x17 := rfl
  have hdir : k.paging.vidmapHelper.pageDirectory 34
      = k.paging.vidmapHelper.vidPageTableAddr ||| 0x17 := rfl
  constructor
  · intro h
    have hentry : PageWalk.storeOver l.pageDirectoryAddr
        k.paging.vidmapHelper.pageDirectory (kernelPageAddr p) 0x8800000 34
          = k.paging.vidmapHelper.pageDirectory 34 := by
      by_contra hne
      have hwalk := h.walk (fun _ _ => 0)
      rw [walk_of_spoiled_directory hl' hdir hne] at hwalk
      cases hwalk
    have hstored := (Paging.storeVideo_pageDirectory _ _ _ 34).trans (hentry.trans hdir)
    refine ⟨hreturns, fun i => ?_, ?_⟩
    · by_cases hi : i = 0x8800000 / 4194304
      · rw [hi]
        exact hentry
      · exact (h.directory i hi).trans (hother i hi).symm
    · by_contra hnot
      rw [not_or, Nat.not_le, Nat.not_le] at hnot
      have hspoiled := walk_of_spoiled_table (d := l.pageDirectoryAddr) hl'
        hstored hpte hnot.1 hnot.2
      exact hspoiled (h.walk (fun _ _ => 0))
  · rintro ⟨-, hdirectory, hvideo⟩
    obtain ⟨hstored, hframe⟩ := videoMapped_stored k p
    have hentry : PageWalk.storeOver k.paging.vidPageTableAddr
        k.paging.vidmapHelper.vidPageTable (kernelPageAddr p) 0x8800000 0
          = 0xB8000 ||| 0x17 := by
      by_cases hlast : kernelPageAddr p = k.paging.vidPageTableAddr + 4 * 0 + 3
      · rw [PageWalk.storeOver_last (by decide) hlast, hpte]
        decide
      · exact (PageWalk.storeOver_of_apart (by omega)).trans hpte
    have hstore : (k.paging.vidmapHelper.storeVideo l.pageDirectoryAddr
        (kernelPageAddr p)).Linked := ⟨hl.1, hl.2, hl.3, hl.4, hl.5, hl.6, hl.7⟩
    have hwalk := walk_vidMem hstore
      ((Paging.storeVideo_pageDirectory _ _ _ 34).trans ((hdirectory 34).trans hdir))
      ((Paging.storeVideo_vidPageTable _ _ _ 0).trans hentry)
    exact ⟨hstored, hframe, hwalk, fun i hi => (hdirectory i).trans (hother i hi)⟩

section Contract

variable {l : KernelImage} {k k' : Kernel} {p : ℕ}

/-- Of an accepted pointer that the call comes back from, the mapping is all
there is to show. -/
theorem vidmapContract_iff_of_ok (hin : InUserPage p)
    (hcall : sysVidmap l.spill k p = .ok (0, k')) :
    VidmapContract l k p ↔ VideoMapped k k' p := by
  constructor
  · exact fun h => h.maps k' hcall
  · intro h
    refine ⟨iff_of_true ⟨k', hcall⟩ hin, fun k'' hk'' => ?_, fun hnot => absurd hin hnot⟩
    rw [hcall] at hk''
    obtain rfl := (Prod.mk.inj (Except.ok.inj hk'')).2
    exact h

/-- A pointer that should be accepted, and a trap. -/
theorem not_vidmapContract_of_error {t : Trap} (hin : InUserPage p)
    (hcall : sysVidmap l.spill k p = .error t) : ¬ VidmapContract l k p := by
  intro h
  obtain ⟨k', hk'⟩ := h.accepts.mpr hin
  rw [hcall] at hk'
  cases hk'

/-- A pointer that should be refused, and is. -/
theorem vidmapContract_of_refused (hout : ¬ InUserPage p)
    (hcall : sysVidmap l.spill k p = .ok (-1, k)) : VidmapContract l k p := by
  have hne : ∀ k', ¬ sysVidmap l.spill k p = .ok (0, k') := by
    intro k' hk'
    rw [hcall] at hk'
    exact absurd (Prod.mk.inj (Except.ok.inj hk')).1 (by decide)
  exact ⟨iff_of_false (not_exists.mpr hne) hout, fun k' hk' => absurd hk' (hne k'),
    fun _ => hcall⟩

/-- **A pointer of process 0**, or of another process whose page is that of
the kernel. -/
theorem vidmapContract_kernelPage (hl : k.paging.Linked) (hp : p < 4294967296)
    (hframe : frameOf (k.paging.pageDirectory 32) = 0x400000) (hin : InUserPage p) :
    VidmapContract l k p ↔ l.Spares k p := by
  have hcall : sysVidmap l.spill k p = _ := sysVidmap_accepted hp hin
  rw [if_pos hframe, KernelImage.spill] at hcall
  cases hrest : l.rest (kernelPageAddr p) (k.videoMapped p) with
  | none =>
    rw [hrest] at hcall
    exact iff_of_false (not_vidmapContract_of_error hin hcall) (fun h => h.returns hrest)
  | some k' =>
    rw [hrest] at hcall
    exact (vidmapContract_iff_of_ok hin hcall).trans (spilled_mapped_iff hl hrest)

/-- **A pointer of another process.** -/
theorem vidmapContract_of_frame_ne (hl : k.paging.Linked) (hp : p < 4294967296)
    (hframe : frameOf (k.paging.pageDirectory 32) ≠ 0x400000) (hin : InUserPage p) :
    VidmapContract l k p := by
  have hcall : sysVidmap l.spill k p = _ := sysVidmap_accepted hp hin
  rw [if_neg hframe] at hcall
  exact (vidmapContract_iff_of_ok hin hcall).mpr (videoMapped_mapped hl p)

/-- **A pointer outside the page**: only the four at its end are not
refused. -/
theorem vidmapContract_of_outside (hp : p < 4294967296) (hout : ¬ InUserPage p) :
    VidmapContract l k p ↔ ¬ (0x83FFFFD ≤ p ∧ p ≤ 0x8400000) := by
  have hbounds : p < 0x8000000 ∨ 0x83FFFFC < p := by
    rw [InUserPage] at hout
    omega
  by_cases hend : 0x83FFFFD ≤ p ∧ p ≤ 0x8400000
  · refine iff_of_false (fun h => ?_) (not_not_intro hend)
    have hrefused := h.refuses hout
    rw [sysVidmap_fault hp (by omega) hend.2] at hrefused
    cases hrefused
  · exact iff_of_true
      (vidmapContract_of_refused hout (sysVidmap_refused hp (by omega))) hend

end Contract

/-- **The exact condition under which `vidmap` does what it should**, called by
the process whose page `set_up_program_paging` has mapped: the pointer is not
one of the four at the end of the page, and if the page is the page of the
kernel, as that of process 0 is, the store spares the tables. -/
theorem vidmap_contract_iff (l : KernelImage) {k : Kernel} (hl : k.paging.Linked) {n : ℤ}
    (hslot : k.paging.pageDirectory 32 = programEntry n) {p : ℕ} (hp : p < 4294967296) :
    VidmapContract l k p
      ↔ ¬ (0x83FFFFD ≤ p ∧ p ≤ 0x8400000)
        ∧ (n % 1024 = 0 → InUserPage p → l.Spares k p) := by
  have hkernel : frameOf (k.paging.pageDirectory 32) = 0x400000 ↔ n % 1024 = 0 := by
    rw [hslot, frameOf, programEntry_eq, programBlock]
    omega
  by_cases hin : InUserPage p
  · have hends : ¬ (0x83FFFFD ≤ p ∧ p ≤ 0x8400000) := by
      have hend := hin.2
      omega
    rw [and_iff_right hends]
    by_cases hzero : n % 1024 = 0
    · rw [vidmapContract_kernelPage hl hp (hkernel.mpr hzero) hin]
      exact ⟨fun h _ _ => h, fun h => h hzero hin⟩
    · exact iff_of_true
        (vidmapContract_of_frame_ne hl hp (fun h => hzero (hkernel.mp h)) hin)
        (fun h => absurd h hzero)
  · rw [and_iff_left (fun _ hin' => absurd hin' hin)]
    exact vidmapContract_of_outside hp hin

/-- The tables where a linker may place them. -/
theorem loadedKernel_linked : loadedKernel.paging.Linked :=
  ⟨by decide, by decide, by decide, by decide, by decide, by decide, by decide⟩

/-- The directory behind these tables and the text behind it, with process 0
on its kernel stack. -/
def loadedImage : KernelImage where
  pageDirectoryAddr := 0x403000
  rest a k :=
    if 0x404000 < a + 4 ∧ a < 0x420000 ∨ 0x7FC000 < a + 4 ∧ a < 0x7FE000 then none else some k

/-- The kernel with the page of process `n`. -/
def runningKernel (n : ℤ) : Kernel := loadedKernel.setUpProgramPaging n

/-- The last pointer of process 1 that can be written through, the first that
cannot and is accepted, and a pointer of process 0 to `vid_page_table`. -/
theorem vidmap_contract_at_end :
    VidmapContract loadedImage (runningKernel 1) 0x83FFFFC
      ∧ ¬ VidmapContract loadedImage (runningKernel 1) 0x83FFFFD
      ∧ ¬ VidmapContract loadedImage (runningKernel 0)
        (0x8000000 + (loadedKernel.paging.vidPageTableAddr - 0x400000)) := by
  have hl := loadedKernel_linked
  have hlinked : ∀ n, (runningKernel n).paging.Linked :=
    fun _ => ⟨hl.1, hl.2, hl.3, hl.4, hl.5, hl.6, hl.7⟩
  have hslot : ∀ n, (runningKernel n).paging.pageDirectory 32 = programEntry n :=
    fun n => Paging.setUpProgramPaging_slot _ n
  refine ⟨?_, fun h => ?_, fun h => ?_⟩
  · exact (vidmap_contract_iff loadedImage (hlinked 1) (hslot 1) (by decide)).mpr
      ⟨by decide, fun hn => absurd hn (by decide)⟩
  · exact ((vidmap_contract_iff loadedImage (hlinked 1) (hslot 1) (by decide)).mp h).1
      (by decide)
  · have hspares := ((vidmap_contract_iff loadedImage (hlinked 0) (hslot 0)
      (by decide)).mp h).2 (by decide) (by decide)
    exact absurd hspares.video (by decide)

/-- The pointer to the end of the page is not refused. -/
theorem vidmap_accepts_end :
    sysVidmap loadedImage.spill (runningKernel 1) 0x8400000 = .error .pageFault
      ∧ ¬ InUserPage 0x8400000 ∧ ¬ VidmapContract loadedImage (runningKernel 1) 0x8400000 := by
  have hcall : sysVidmap loadedImage.spill (runningKernel 1) 0x8400000 = .error .pageFault :=
    sysVidmap_fault (by decide) (by decide) (by decide)
  have hout : ¬ InUserPage 0x8400000 := by decide
  refine ⟨hcall, hout, fun h => ?_⟩
  have hrefused := h.refuses hout
  rw [hcall] at hrefused
  cases hrefused

end KernelDesign
