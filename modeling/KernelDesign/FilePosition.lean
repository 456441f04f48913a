import KernelDesign.Machine
import KernelDesign.ReadData

/-!
# The position of a file descriptor

A descriptor of a regular file keeps a position, which `open` sets to 0.
`fs_file_read` reads at the position and adds to it what `read_data`
returns. That is the count of the bytes read, unless `read_data` returned
-1: then the position goes back by one, below zero if no byte had been
read, and a position below zero is past the end of every file.

`read_data` returns -1 for a request of no bytes, and for one that ends
where a file of whole blocks does, if the block number after the last is a
bad one. `positionExact_iff` says that these reads are all that is wrong:
along a run of reads the position is exact if and only if there are none
of them.
-/

namespace KernelDesign

open Transition Words

/-! ## Runs of reads on one descriptor -/

/-- **A call of `read`** with a request that is not negative. -/
structure ReadCall where
  stack : ℕ → ℤ
  buf : Option Bytes
  nbytes : ℕ
  nbytes_lt : nbytes < 2147483648

/-- **The reads of a descriptor**: the kernel, and the values returned so
far, the latest first. -/
structure FileSession where
  kernel : Kernel
  returned : List ℤ

/-- The sum of the counts among the values returned. -/
def FileSession.count (s : FileSession) : ℤ := (s.returned.filter (fun r => 0 ≤ r)).sum

/-- **The slot of descriptor `fd`** of the block at `pcb`. -/
def Kernel.slot (k : Kernel) (pcb : ℕ) (fd : ℤ) : FileDes :=
  (k.pcb pcb).fileArray (fdIndex fd)

/-- **A read on descriptor `fd`** of the block at `pcb`. -/
def fileStep (pcb : ℕ) (fd : ℤ) (s : FileSession) (c : ReadCall) : Option FileSession :=
  match sysRead s.kernel pcb c.stack fd c.buf c.nbytes with
  | .ok r => some ⟨r.kernel, r.ret :: s.returned⟩
  | .error _ => none

/-- **Descriptor `fd` is of the regular file with inode `inode`**, at
position `offset`. -/
structure FileAt (k : Kernel) (pcb : ℕ) (fd : ℤ) (inode : ℤ) (offset : ℤ) : Prop where
  ge_two : 2 ≤ fd
  le_seven : fd ≤ 7
  slot : k.slot pcb fd = ⟨.file, inode, offset, 1⟩

/-- **`open` leaves the position at 0**: it returns a descriptor of the
regular file it found. -/
theorem fileAt_of_sysOpen {k : Kernel} {pcb : ℕ} {filename : Option Bytes} {d : Dentry}
    {i : Fin 8}
    (hfound : (readDentryByName k.fs filename (some unsetDentry)).ret ≠ -1)
    (hentry : (readDentryByName k.fs filename (some unsetDentry)).dentry = some d)
    (htype : d.filetype = 2) (hfree : (k.pcb pcb).freeSlot = some i) :
    (sysOpen k pcb filename).1 = i.val
      ∧ FileAt (sysOpen k pcb filename).2 pcb i.val (i32 d.inode) 0 := by
  have hopen : sysOpen k pcb filename
      = ((i.val : ℤ), k.setPcb pcb (fun p =>
          { p with programCounter := i32 (p.programCounter + 1) }.setFile i
            ⟨.file, i32 d.inode, 0, 1⟩)) := by
    simp [sysOpen, hfound, hentry, hfree, Dentry.fileDes, htype]
  have htwo : 2 ≤ i.val := by
    have hsat := List.find?_some hfree
    simp only [decide_eq_true_eq] at hsat
    exact hsat.1
  have hindex : fdIndex (i.val : ℤ) = i := by
    simp [fdIndex]
  rw [hopen]
  refine ⟨rfl, by exact_mod_cast htwo, ?_, ?_⟩
  · have hlt := i.isLt
    omega
  · simp [Kernel.slot, hindex, Pcb.setFile]

/-! ## One read -/

variable {k : Kernel} {pcb : ℕ} {fd inode offset : ℤ}

/-- **A read on the descriptor is one of `fs_file_read`**, unless it has no
buffer. -/
theorem FileAt.sysRead_eq (h : FileAt k pcb fd inode offset) (stack : ℕ → ℤ) (b : Bytes)
    (n : ℕ) :
    sysRead k pcb stack fd (some b) n = .ok (fsFileRead k pcb stack (fdIndex fd) b n) := by
  have hfd : ¬ ((n : ℤ) < 0 ∨ fd < 0 ∨ 7 < fd ∨ fd = 1) := by
    have hge := h.ge_two
    have hle := h.le_seven
    omega
  have hslot : (k.pcb pcb).fileArray (fdIndex fd) = ⟨.file, inode, offset, 1⟩ := h.slot
  simp [sysRead, hfd, hslot]

/-- **What a read does to the descriptor**: it adds the value of
`read_data` to the position. -/
theorem FileAt.fsFileRead (h : FileAt k pcb fd inode offset) (stack : ℕ → ℤ) (b : Bytes)
    (n : ℤ) :
    (fsFileRead k pcb stack (fdIndex fd) b n).ret
        = (readData k.fs stack (u32 inode) (u32 offset) (some b) (u32 n)).ret
      ∧ (fsFileRead k pcb stack (fdIndex fd) b n).kernel.fs = k.fs
      ∧ FileAt (fsFileRead k pcb stack (fdIndex fd) b n).kernel pcb fd inode
          (i32 (offset + (readData k.fs stack (u32 inode) (u32 offset) (some b)
            (u32 n)).ret)) := by
  have hslot : (k.pcb pcb).fileArray (fdIndex fd) = ⟨.file, inode, offset, 1⟩ := h.slot
  refine ⟨?_, rfl, h.ge_two, h.le_seven, ?_⟩
  · simp only [KernelDesign.fsFileRead, hslot]
  · simp [KernelDesign.fsFileRead, Kernel.slot, Pcb.setFile, hslot]

/-- **The reads that return what they deliver**: those without a buffer,
which are refused, and those of at least one byte for which the block
number at the end of the request is not a bad one. -/
def ReadCall.Sound (c : ReadCall) (fs : FileSystem) (inode offset : ℕ) : Prop :=
  c.buf = none ∨ 0 < c.nbytes
    ∧ fs.badBlock ((fs.inodeAt inode).blockNum c.stack
        ((offset + available (fs.inodeAt inode) offset c.nbytes) / 4096)) = false

/-- **The value of a read** of a file with valid blocks, at a position in
it: the bytes available if the read is sound, and -1 otherwise. -/
theorem ReadCall.ret_eq {fs : FileSystem} {c : ReadCall} {inode o : ℕ} {b : Bytes}
    (hino : (fs.inodeAt inode).WellFormed fs.bootBlock.dataCount)
    (hoff : (o : ℤ) ≤ (fs.inodeAt inode).length) (hbuf : c.buf = some b) :
    (c.Sound fs inode o → (readData fs c.stack inode o (some b) c.nbytes).ret
        = available (fs.inodeAt inode) o c.nbytes)
      ∧ (¬ c.Sound fs inode o → (readData fs c.stack inode o (some b) c.nbytes).ret = -1) := by
  have hnone : c.buf ≠ none := by simp [hbuf]
  obtain hzero | hpos := Nat.eq_zero_or_pos c.nbytes
  · refine ⟨fun h => ?_, fun _ => ?_⟩
    · obtain h | h := h
      · exact absurd h hnone
      · exact absurd h.1 (by simp [hzero])
    · simp [readData, hzero]
  · have hplain := plainRequest_of_wellFormed hino hoff hpos c.nbytes_lt
    have hwalk : Walks fs c.stack inode o c.nbytes ↔ _ := walks_iff_of_wellFormed hino hoff
    refine ⟨fun h => hplain.ret_of_walks (hwalk.mpr ?_), fun h => ?_⟩
    · obtain h | h := h
      · exact absurd h hnone
      · exact h.2
    · exact hplain.ret_of_not_walks (fun hw => h (Or.inr ⟨hpos, hwalk.mp hw⟩))

/-! ## Runs of reads -/

/-- **The position is exact after a read**: it lies in the file, it is the
sum of the counts returned so far, and a read that returned -1 has left it
alone. -/
structure PositionExact (pcb : ℕ) (fd length : ℤ) (s s' : FileSession) : Prop where
  nonneg : 0 ≤ (s'.kernel.slot pcb fd).offset
  le_length : (s'.kernel.slot pcb fd).offset ≤ length
  sum : (s'.kernel.slot pcb fd).offset = s'.count
  failed : s'.returned.head? = some (-1) →
    (s'.kernel.slot pcb fd).offset = (s.kernel.slot pcb fd).offset

/-- What holds along a run of sound reads of inode `inode` of `fs`. -/
structure FileSession.Inv (fs : FileSystem) (pcb : ℕ) (fd inode : ℤ) (s : FileSession) :
    Prop where
  fs_eq : s.kernel.fs = fs
  at_count : FileAt s.kernel pcb fd inode s.count
  nonneg : 0 ≤ s.count
  le_length : s.count ≤ (fs.inodeAt (u32 inode)).length

/-- A count is added to the sum. -/
theorem FileSession.count_of_returned_nat {s s' : FileSession} {n : ℕ}
    (h : s'.returned = (n : ℤ) :: s.returned) : s'.count = s.count + n := by
  simp [FileSession.count, h, Int.add_comm]

/-- A failure is not. -/
theorem FileSession.count_of_returned_failed {s s' : FileSession}
    (h : s'.returned = -1 :: s.returned) : s'.count = s.count := by
  simp [FileSession.count, h]

/-- By the invariant the position is exact, if a failure has left it
alone. -/
theorem FileSession.Inv.positionExact {fs : FileSystem} {s s' : FileSession}
    (h : s'.Inv fs pcb fd inode)
    (hfailed : s'.returned.head? = some (-1) →
      (s'.kernel.slot pcb fd).offset = (s.kernel.slot pcb fd).offset) :
    PositionExact pcb fd (fs.inodeAt (u32 inode)).length s s' where
  nonneg := by
    rw [h.at_count.slot]
    exact h.nonneg
  le_length := by
    rw [h.at_count.slot]
    exact h.le_length
  sum := by rw [h.at_count.slot]
  failed := hfailed

/-- **A read without a buffer** is refused before it gets to the
descriptor. -/
theorem fileStep_of_no_buffer {s s' : FileSession} {c : ReadCall} (hbuf : c.buf = none)
    (hstep : fileStep pcb fd s c = some s') : s' = ⟨s.kernel, -1 :: s.returned⟩ := by
  have hrefused : fileStep pcb fd s c = some ⟨s.kernel, -1 :: s.returned⟩ := by
    simp [fileStep, sysRead, hbuf]
  exact Option.some.inj (hstep.symm.trans hrefused)

/-- **A read with a buffer** returns what `read_data` returns at the
position, and adds it to the position. -/
theorem FileSession.Inv.read {fs : FileSystem} {s s' : FileSession} {c : ReadCall} {b : Bytes}
    (hino : (fs.inodeAt (u32 inode)).WellFormed fs.bootBlock.dataCount)
    (h : s.Inv fs pcb fd inode) (hbuf : c.buf = some b)
    (hstep : fileStep pcb fd s c = some s') :
    ∃ r, r = (readData fs c.stack (u32 inode) s.count.toNat (some b) c.nbytes).ret
      ∧ s'.kernel.fs = fs ∧ s'.returned = r :: s.returned
      ∧ FileAt s'.kernel pcb fd inode (i32 (s.count + r)) := by
  have hlength := hino.length_le
  have hnonneg := h.nonneg
  have hle := h.le_length
  obtain ⟨hret, hfs, hat⟩ := h.at_count.fsFileRead c.stack b c.nbytes
  -- Both arguments of `read_data` are their own unsigned readings.
  have hoffset : u32 s.count = s.count.toNat := unsigned_of_nonneg hnonneg (by omega)
  have hnbytes : u32 (c.nbytes : ℤ) = c.nbytes :=
    u32_natCast (Nat.lt_trans c.nbytes_lt (by decide))
  rw [h.fs_eq, hoffset, hnbytes] at hret hat
  simp only [fileStep, hbuf, h.at_count.sysRead_eq] at hstep
  cases hstep
  exact ⟨_, rfl, hfs.trans h.fs_eq, congrArg (fun r => r :: s.returned) hret, hat⟩

/-- **One read keeps the position exact** exactly when it is sound, and
then it keeps the invariant. -/
theorem FileSession.Inv.step {fs : FileSystem} {s s' : FileSession} {c : ReadCall}
    (hino : (fs.inodeAt (u32 inode)).WellFormed fs.bootBlock.dataCount)
    (h : s.Inv fs pcb fd inode) (hstep : fileStep pcb fd s c = some s') :
    (c.Sound fs (u32 inode) s.count.toNat → s'.Inv fs pcb fd inode)
      ∧ (PositionExact pcb fd (fs.inodeAt (u32 inode)).length s s'
        ↔ c.Sound fs (u32 inode) s.count.toNat) := by
  have hlength := hino.length_le
  have hnonneg := h.nonneg
  have hle := h.le_length
  cases hbuf : c.buf with
  | none =>
    obtain rfl := fileStep_of_no_buffer hbuf hstep
    have hcount : FileSession.count ⟨s.kernel, -1 :: s.returned⟩ = s.count :=
      FileSession.count_of_returned_failed rfl
    have hinv : FileSession.Inv fs pcb fd inode ⟨s.kernel, -1 :: s.returned⟩ := by
      refine ⟨h.fs_eq, ?_, ?_, ?_⟩
      · rw [hcount]
        exact h.at_count
      · rw [hcount]
        exact hnonneg
      · rw [hcount]
        exact hle
    exact ⟨fun _ => hinv, iff_of_true (hinv.positionExact (fun _ => rfl)) (Or.inl hbuf)⟩
  | some b =>
    obtain ⟨r, hr, hfs, hreturned, hat⟩ := h.read hino hbuf hstep
    have hin : (s.count.toNat : ℤ) ≤ (fs.inodeAt (u32 inode)).length := by omega
    obtain ⟨hsound, hunsound⟩ := ReadCall.ret_eq (c := c) hino hin hbuf
    by_cases hc : c.Sound fs (u32 inode) s.count.toNat
    · have hav : available (fs.inodeAt (u32 inode)) s.count.toNat c.nbytes
          ≤ u32 (fs.inodeAt (u32 inode)).length - s.count.toNat := Nat.min_le_right _ _
      have hlen := fs.u32_length _ hino.length_nonneg
      rw [hr, hsound hc] at hreturned hat
      rw [i32_of_bounds (by omega) (by omega)] at hat
      have hcount := FileSession.count_of_returned_nat hreturned
      have hinv : s'.Inv fs pcb fd inode :=
        ⟨hfs, hcount ▸ hat, by omega, by omega⟩
      refine ⟨fun _ => hinv, iff_of_true (hinv.positionExact fun hfailed => ?_) hc⟩
      rw [hreturned] at hfailed
      exact absurd (Option.some.inj hfailed) (by omega)
    · -- The position goes back by one.
      rw [hr, hunsound hc] at hreturned hat
      rw [i32_of_bounds (by omega) (by omega)] at hat
      refine ⟨fun h => absurd h hc, iff_of_false (fun hexact => ?_) hc⟩
      have hback := hexact.failed (by rw [hreturned]; rfl)
      rw [hat.slot, h.at_count.slot] at hback
      exact absurd hback (by dsimp only; omega)

/-- **When the position of a descriptor is exact**: after `open`, along a
run of reads of a regular file with valid blocks, exactly when every read
of the run is sound at the position it is made at. -/
theorem positionExact_iff {k : Kernel} {pcb : ℕ} {fd inode : ℤ}
    (hopen : FileAt k pcb fd inode 0)
    (hino : (k.fs.inodeAt (u32 inode)).WellFormed k.fs.bootBlock.dataCount)
    (cs : List ReadCall) :
    Along (fileStep pcb fd)
        (fun s _ s' => PositionExact pcb fd (k.fs.inodeAt (u32 inode)).length s s') ⟨k, []⟩ cs
      ↔ Along (fileStep pcb fd)
          (fun s c _ => c.Sound k.fs (u32 inode) (u32 (s.kernel.slot pcb fd).offset))
          ⟨k, []⟩ cs := by
  have hstart : FileSession.Inv k.fs pcb fd inode ⟨k, []⟩ :=
    ⟨rfl, hopen, le_refl 0, hino.length_nonneg⟩
  -- Along such a run the position is the sum of the counts.
  have hposition : ∀ s, FileSession.Inv k.fs pcb fd inode s →
      u32 (s.kernel.slot pcb fd).offset = s.count.toNat := fun s hs => by
    have hlength := hino.length_le
    have hle := hs.le_length
    rw [hs.at_count.slot]
    show u32 s.count = _
    exact unsigned_of_nonneg hs.nonneg (by omega)
  refine along_iff (fun s c s' hs hstep => ?_) (fun s c s' hs hstep hc => ?_) hstart cs
  · rw [hposition s hs]
    exact (hs.step hino hstep).2
  · rw [hposition s hs] at hc
    exact (hs.step hino hstep).1 hc

/-! ## A file of four bytes -/

/-- The loaded kernel after a block has opened the file `shell`. -/
def shellOpened : Kernel := (sysOpen loadedKernel 0 (some (cstring "shell"))).2

theorem shellOpened_fileAt : FileAt shellOpened 0 2 0 0 :=
  ⟨by decide, by decide, by decide +kernel⟩

theorem shellOpened_wellFormed :
    (shellOpened.fs.inodeAt (u32 0)).WellFormed shellOpened.fs.bootBlock.dataCount := by
  have hlength : (shellOpened.fs.inodeAt (u32 0)).length = 4 := by decide +kernel
  refine ⟨by rw [hlength]; decide, by rw [hlength]; decide, fun i hi => ?_⟩
  rw [hlength] at hi
  obtain rfl : i = 0 := Fin.ext (by show i.val = 0; omega)
  decide +kernel

/-- A read of `n` bytes. -/
def plainRead (n : ℕ) (hn : n < 2147483648) : ReadCall := ⟨fun _ => 0, some (fun _ => 0), n, hn⟩

/-- A read of the file leaves the position exact. -/
theorem positionExact_whole :
    Along (fileStep 0 2)
      (fun s _ s' => PositionExact 0 2 (shellOpened.fs.inodeAt (u32 0)).length s s')
      ⟨shellOpened, []⟩ [plainRead 3 (by decide)] := by
  refine (positionExact_iff shellOpened_fileAt shellOpened_wellFormed _).mpr ?_
  exact fun s' _ => ⟨Or.inr ⟨by decide, by decide +kernel⟩, trivial⟩

/-- **A read of no bytes moves the position back**, from 0 to -1. -/
theorem position_after_empty_read :
    FileAt shellOpened 0 2 0 0
      ∧ (shellOpened.fs.inodeAt (u32 0)).WellFormed shellOpened.fs.bootBlock.dataCount
      ∧ ¬ Along (fileStep 0 2)
        (fun s _ s' => PositionExact 0 2 (shellOpened.fs.inodeAt (u32 0)).length s s')
        ⟨shellOpened, []⟩ [plainRead 0 (by decide)] := by
  refine ⟨shellOpened_fileAt, shellOpened_wellFormed, fun h => ?_⟩
  have hafter : (fileStep 0 2 ⟨shellOpened, []⟩ (plainRead 0 (by decide))).map
      (fun s => (s.kernel.slot 0 2).offset) = some (-1) := by
    decide +kernel
  obtain ⟨s', hstep, hoffset⟩ := Option.map_eq_some_iff.mp hafter
  have hnonneg := (h s' hstep).1.nonneg
  rw [hoffset] at hnonneg
  exact absurd hnonneg (by decide)

end KernelDesign
