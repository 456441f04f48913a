import KernelDesign.Bookkeeping
import KernelDesign.Lookup

/-!
# Directory reads

A descriptor of the directory should have a position of its own: `open`
sets it to the first entry and each read moves it to the next. But
`fs_dir_read` uses neither the descriptor nor its `offset`. All descriptors
of all processes share the static `dir_count`, which no `open` and no
`close` resets.

What a read returns is determined by `dir_count` alone (`fsDirRead_eq`), so
a descriptor sees its own listing exactly as long as `dir_count` happens to
list the same name as the position the descriptor should have:
`directory_reads_iff`, for every interleaving of the calls of any number of
processes.
-/

namespace KernelDesign

open Kernel Transition Words

/-! ## Positions -/

/-- **The position after `c`** in a directory of `n` entries: the read behind
the last entry goes back to the first. -/
def nextPosition (n c : ℕ) : ℕ := if n < u32 (c + 1) then 0 else u32 (c + 1)

/-- **The position after `i` reads** from the first entry. -/
def ownPosition (n : ℕ) : ℕ → ℕ
  | 0 => 0
  | i + 1 => nextPosition n (ownPosition n i)

/-- **The name listed at position `c`**, none behind the last entry. The
reader does not get past slot 63. -/
def listedName (fs : FileSystem) (c : ℕ) : List UInt8 :=
  if u32 fs.bootBlock.dirCount < u32 (c + 1) then []
  else (fs.direntry (min c 63)).text

/-- **The name of an entry in 32 bytes**, filled up with NULs. -/
def Dentry.padded (d : Dentry) : List UInt8 :=
  d.text ++ List.replicate (32 - d.text.length) 0

/-- **The static entry is current**: past the last slot that can be read it
is the entry of that slot. -/
def CurrentEntry (fs : FileSystem) : Prop :=
  fs.dirCount < 64 ∨ fs.dentryGlobal = fs.direntry 63

/-- The file system once the entry at its position has been read. -/
def FileSystem.advance (fs : FileSystem) : FileSystem :=
  { fs with
    dentryGlobal := fs.direntry (min fs.dirCount 63)
    dirCount := nextPosition (u32 fs.bootBlock.dirCount) fs.dirCount }

/-- **The entry a read of the directory finds.** -/
theorem CurrentEntry.entry {fs : FileSystem} (h : CurrentEntry fs) :
    (readDentryByIndex fs fs.dirCount (some fs.dentryGlobal)).dentry.getD fs.dentryGlobal
      = fs.direntry (min fs.dirCount 63) := by
  unfold readDentryByIndex
  by_cases hpast : 63 < fs.dirCount
  · rw [if_pos (Or.inl hpast), Nat.min_eq_right (Nat.le_of_lt hpast)]
    exact h.resolve_left (by omega)
  · rw [if_neg (by simp [hpast]), Nat.min_eq_left (Nat.not_lt.mp hpast)]
    rfl

/-- **What a read of the directory does.** -/
theorem fsDirRead_eq {fs : FileSystem} (h : CurrentEntry fs) (buf : Bytes) (nbytes : ℤ) :
    (fsDirRead fs buf nbytes).ret = (listedName fs fs.dirCount).length
      ∧ (fsDirRead fs buf nbytes).buf.first (listedName fs fs.dirCount).length
          = listedName fs fs.dirCount
      ∧ (fsDirRead fs buf nbytes).fs = fs.advance := by
  unfold fsDirRead listedName FileSystem.advance nextPosition
  dsimp only
  rw [h.entry]
  split
  · exact ⟨rfl, rfl, rfl⟩
  · refine ⟨?_, ?_, rfl⟩
    · rw [Dentry.text, Buffer.length_first]
    · rw [Dentry.text, Buffer.length_first]
      refine Buffer.first_congr (fun j hj => ?_)
      exact (Buffer.fill_copy_apply _ _ _ _ _ _).trans (if_pos hj)

/-- **What it leaves in the buffer**: the name of the entry, and NULs up to
32 bytes. -/
theorem fsDirRead_buf {fs : FileSystem} (h : CurrentEntry fs) (buf : Bytes) (nbytes : ℤ) :
    (fsDirRead fs buf nbytes).buf.first 32 = (fs.direntry (min fs.dirCount 63)).padded := by
  have hbuf : (fsDirRead fs buf nbytes).buf
      = (buf.fill 0 32).copy 0 (fs.direntry (min fs.dirCount 63)).name
          (strlen (fs.direntry (min fs.dirCount 63)).name 32) := by
    unfold fsDirRead
    dsimp only
    rw [h.entry]
    split
    · rfl
    · rfl
  rw [hbuf, Dentry.padded, Dentry.text, Buffer.length_first]
  exact Buffer.first_fill_copy _ _ _ (strlen_le _ 32)

theorem CurrentEntry.advance (fs : FileSystem) : CurrentEntry fs.advance := by
  have hword : u32 (fs.dirCount + 1) ≤ fs.dirCount + 1 := by
    rw [u32_eq]
    omega
  by_cases hlast : fs.dirCount < 63
  · refine Or.inl ?_
    show nextPosition _ _ < 64
    unfold nextPosition
    split
    · decide
    · omega
  · refine Or.inr ?_
    show fs.direntry (min fs.dirCount 63) = _
    rw [Nat.min_eq_right (Nat.not_lt.mp hlast)]
    rfl

/-! ## A reader on its own -/

/-- **The directory read alone**, after `i` reads from the first entry. -/
def alone (fs : FileSystem) : ℕ → FileSystem
  | 0 => { fs with dirCount := 0 }
  | i + 1 => (fsDirRead (alone fs i) (fun _ => 0) 0).fs

/-- **It is at the position of `i` reads**, in the same directory. -/
theorem alone_spec (fs : FileSystem) (i : ℕ) :
    CurrentEntry (alone fs i) ∧ listedName (alone fs i) = listedName fs
      ∧ (alone fs i).bootBlock = fs.bootBlock
      ∧ (alone fs i).dirCount = ownPosition (u32 fs.bootBlock.dirCount) i := by
  induction i with
  | zero => exact ⟨Or.inl (Nat.zero_lt_succ 63), rfl, rfl, rfl⟩
  | succ i ih =>
    obtain ⟨hcurrent, hlisted, hboot, hpos⟩ := ih
    rw [alone, (fsDirRead_eq hcurrent _ _).2.2]
    refine ⟨CurrentEntry.advance _, hlisted, hboot, ?_⟩
    show nextPosition (u32 (alone fs i).bootBlock.dirCount) (alone fs i).dirCount = _
    rw [hboot, hpos]
    rfl

/-! ## Descriptors -/

namespace Kernel

/-- **A call of `read` that reaches `fs_dir_read`**: it is not refused, and
the descriptor is of the directory. -/
def readsDirectory (k : Kernel) (pcb : ℕ) (fd : ℤ) (buf : Option Bytes) (nbytes : ℤ) : Bool :=
  let d := (k.pcb pcb).fileArray (fdIndex fd)
  buf.isSome ∧ ¬ (nbytes < 0 ∨ fd < 0 ∨ 7 < fd ∨ fd = 1) ∧ d.inUseFlag ≠ 0
    ∧ d.fopTable = .dir

variable {k : Kernel} {pcb : ℕ} {fd : ℤ} {buf : Option Bytes} {nbytes : ℤ}

/-- What it returns. -/
theorem sysRead_of_readsDirectory (stack : ℕ → ℤ)
    (h : k.readsDirectory pcb fd buf nbytes = true) :
    ∃ b, buf = some b ∧ sysRead k pcb stack fd buf nbytes
      = .ok ⟨(fsDirRead k.fs b nbytes).ret, some (fsDirRead k.fs b nbytes).buf,
          { k with fs := (fsDirRead k.fs b nbytes).fs }⟩ := by
  simp only [readsDirectory, decide_eq_true_eq] at h
  obtain ⟨hsome, hrange, huse, htable⟩ := h
  obtain ⟨b, rfl⟩ := Option.isSome_iff_exists.mp hsome
  refine ⟨b, rfl, ?_⟩
  unfold sysRead
  dsimp only
  rw [if_neg hrange, if_neg huse, htable]

/-- **Every other call of `read`** leaves the directory reader alone. -/
theorem sysRead_fs {stack : ℕ → ℤ} {r : SysResult}
    (h : k.readsDirectory pcb fd buf nbytes = false)
    (hread : sysRead k pcb stack fd buf nbytes = .ok r) : r.kernel.fs = k.fs := by
  unfold sysRead at hread
  cases buf with
  | none =>
    cases hread
    rfl
  | some b =>
    dsimp only at hread
    split at hread
    · cases hread
      rfl
    · rename_i hrange
      split at hread
      · cases hread
        rfl
      · rename_i huse
        split at hread
        · cases hread
          rfl
        · rename_i htable
          simp [readsDirectory, hrange, huse, htable] at h
        · cases hread
          rfl
        · obtain hk | hk := termRead_kernel hread
          · rw [hk]
          · rw [hk]
            rfl
        · cases hread
          rfl
        · cases hread

theorem sysOpen_fs (k : Kernel) (pcb : ℕ) (filename : Option Bytes) :
    (sysOpen k pcb filename).2.fs = k.fs := by
  unfold sysOpen
  dsimp only
  split
  · rfl
  · split
    · rfl
    · rfl

theorem sysClose_fs (k : Kernel) (pcb : ℕ) (fd : ℤ) : (sysClose k pcb fd).2.fs = k.fs := by
  unfold sysClose
  split
  · rfl
  · split
    · rfl
    · rfl

end Kernel

/-- **Calls on the directory by several processes**, each with the address of
its control block. -/
inductive DirEvent
  | openFile (pcb : ℕ) (filename : Option Bytes)
  | closeFile (pcb : ℕ) (fd : ℤ)
  | readFile (pcb : ℕ) (stack : ℕ → ℤ) (fd : ℤ) (buf : Option Bytes) (nbytes : ℤ)

/-- **The kernel, and the number of directory reads** on each descriptor of
each process since it was opened. -/
structure DirSession where
  kernel : Kernel
  reads : ℕ → ℤ → ℕ

namespace DirSession

/-- Set the number of reads of one descriptor. -/
def setReads (s : DirSession) (pcb : ℕ) (fd : ℤ) (n : ℕ) : ℕ → ℤ → ℕ :=
  fun a i => if a = pcb ∧ i = fd then n else s.reads a i

/-- **The session after `fs_init`** on the module `image`. -/
def start (k : Kernel) (image : Bytes) : DirSession :=
  ⟨{ k with fs := fsInit k.fs image }, fun _ _ => 0⟩

/-- **A step.** A read that does not come back has none. -/
def step (s : DirSession) : DirEvent → Option DirSession
  | .openFile pcb filename =>
    let r := sysOpen s.kernel pcb filename
    some ⟨r.2, s.setReads pcb r.1 0⟩
  | .closeFile pcb fd => some ⟨(sysClose s.kernel pcb fd).2, s.reads⟩
  | .readFile pcb stack fd buf nbytes =>
    match sysRead s.kernel pcb stack fd buf nbytes with
    | .ok r =>
      some ⟨r.kernel,
        if s.kernel.readsDirectory pcb fd buf nbytes then
          s.setReads pcb fd (s.reads pcb fd + 1)
        else s.reads⟩
    | .error _ => none

/-- **A directory read returns its own entry**: the one that a descriptor
read alone returns after as many reads since it was opened. -/
def ReadsOwnEntry (s : DirSession) : DirEvent → Prop
  | .readFile pcb stack fd buf nbytes =>
    s.kernel.readsDirectory pcb fd buf nbytes = true →
      ∀ r, sysRead s.kernel pcb stack fd buf nbytes = .ok r →
        ∃ b, r.buf = some b
          ∧ r.ret = (fsDirRead (alone s.kernel.fs (s.reads pcb fd)) b nbytes).ret
          ∧ b.first r.ret.toNat
            = (fsDirRead (alone s.kernel.fs (s.reads pcb fd)) b nbytes).buf.first r.ret.toNat
  | .openFile _ _ | .closeFile _ _ => True

/-- **A directory read finds `dir_count` in place**: it lists the same name
as the position of the descriptor. -/
def AtOwnPosition (s : DirSession) : DirEvent → Prop
  | .readFile pcb _ fd buf nbytes =>
    s.kernel.readsDirectory pcb fd buf nbytes = true →
      listedName s.kernel.fs s.kernel.fs.dirCount
        = listedName s.kernel.fs
            (ownPosition (u32 s.kernel.fs.bootBlock.dirCount) (s.reads pcb fd))
  | .openFile _ _ | .closeFile _ _ => True

/-! ## Runs -/

/-- **Every step keeps the static entry current.** -/
theorem currentEntry_step {s s' : DirSession} {e : DirEvent} (h : CurrentEntry s.kernel.fs)
    (hstep : s.step e = some s') : CurrentEntry s'.kernel.fs := by
  cases e with
  | openFile pcb filename =>
    cases hstep
    show CurrentEntry (sysOpen s.kernel pcb filename).2.fs
    rw [sysOpen_fs]
    exact h
  | closeFile pcb fd =>
    cases hstep
    show CurrentEntry (sysClose s.kernel pcb fd).2.fs
    rw [sysClose_fs]
    exact h
  | readFile pcb stack fd buf nbytes =>
    rw [DirSession.step] at hstep
    split at hstep
    · rename_i r hread
      cases hstep
      show CurrentEntry r.kernel.fs
      cases hdir : s.kernel.readsDirectory pcb fd buf nbytes with
      | true =>
        obtain ⟨b, rfl, hread'⟩ := sysRead_of_readsDirectory stack hdir
        rw [hread'] at hread
        cases hread
        show CurrentEntry (fsDirRead s.kernel.fs b nbytes).fs
        rw [(fsDirRead_eq h b nbytes).2.2]
        exact CurrentEntry.advance _
      | false =>
        rw [sysRead_fs hdir hread]
        exact h
    · cases hstep

/-- **A read returns its own entry** exactly if `dir_count` is in place. -/
theorem readsOwnEntry_iff {s : DirSession} {e : DirEvent} (h : CurrentEntry s.kernel.fs) :
    s.ReadsOwnEntry e ↔ s.AtOwnPosition e := by
  cases e with
  | openFile | closeFile => exact Iff.rfl
  | readFile pcb stack fd buf nbytes =>
    refine forall_congr' (fun hdir => ?_)
    obtain ⟨b, rfl, hread⟩ := sysRead_of_readsDirectory stack hdir
    obtain ⟨hret, hname, -⟩ := fsDirRead_eq h b nbytes
    obtain ⟨hcurrent, hlisted, -, hpos⟩ := alone_spec s.kernel.fs (s.reads pcb fd)
    obtain ⟨hret', hname', -⟩ :=
      fsDirRead_eq hcurrent (fsDirRead s.kernel.fs b nbytes).buf nbytes
    rw [hlisted, hpos] at hret' hname'
    rw [hread]
    constructor
    · intro hown
      obtain ⟨b', hb', hrets, hnames⟩ := hown _ rfl
      obtain rfl := Option.some.inj hb'
      have hlength : (listedName s.kernel.fs s.kernel.fs.dirCount).length
          = (listedName s.kernel.fs (ownPosition (u32 s.kernel.fs.bootBlock.dirCount)
              (s.reads pcb fd))).length := by
        have := hret.symm.trans (hrets.trans hret')
        exact_mod_cast this
      rw [← hname, ← hname', ← hlength]
      simpa [hret] using hnames
    · intro hat r hr
      cases hr
      refine ⟨_, rfl, ?_, ?_⟩
      · rw [hret', ← hat]
        exact hret
      · show Buffer.first _ (fsDirRead s.kernel.fs b nbytes).ret.toNat
          = Buffer.first _ (fsDirRead s.kernel.fs b nbytes).ret.toNat
        rw [hret, Int.toNat_natCast, hname, hat]
        exact hname'.symm

/-- **When directory descriptors are independent**: along a run of calls by
any number of processes every directory read returns its own entry, exactly
if every directory read finds `dir_count` in place. -/
theorem directory_reads_iff (k : Kernel) (image : Bytes) (es : List DirEvent) :
    Along step (fun s e _ => s.ReadsOwnEntry e) (start k image) es
      ↔ Along step (fun s e _ => s.AtOwnPosition e) (start k image) es := by
  have hiff : ∀ s e s', CurrentEntry (DirSession.kernel s).fs → step s e = some s' →
      (s.ReadsOwnEntry e ↔ s.AtOwnPosition e) := fun _ _ _ h _ => readsOwnEntry_iff h
  have hkeep : ∀ s e s', CurrentEntry (DirSession.kernel s).fs → step s e = some s' →
      s.AtOwnPosition e → CurrentEntry s'.kernel.fs :=
    fun _ _ _ h hstep _ => currentEntry_step h hstep
  have hstart : CurrentEntry (start k image).kernel.fs := Or.inl (Nat.zero_lt_succ 63)
  exact along_iff hiff hkeep hstart es

/-- A module whose directory has the entries `.` and `a`. -/
def twoEntries : Bytes := fun j =>
  if j = 0 then 2
  else if j = 64 then 0x2E
  else if j = 96 then 1
  else if j = 128 then 0x61
  else if j = 160 then 2
  else 0

/-- **A second descriptor starts with the second entry**: the directory is
opened twice and read once on descriptor 2. The first read on descriptor 3
returns `a`, and alone it would have returned `.`. -/
theorem directory_reads_interfere :
    ∃ s, run step (start loadedKernel twoEntries)
        [.openFile (kstackToPcb 0) (some (cstring ".")),
          .openFile (kstackToPcb 0) (some (cstring ".")),
          .readFile (kstackToPcb 0) (fun _ => 0) 2 (some (fun _ => 0)) 32] = some s
      ∧ s.reads (kstackToPcb 0) 3 = 0
      ∧ listedName s.kernel.fs s.kernel.fs.dirCount = [0x61]
      ∧ listedName s.kernel.fs 0 = [0x2E]
      ∧ ¬ s.ReadsOwnEntry
          (.readFile (kstackToPcb 0) (fun _ => 0) 3 (some (fun _ => 0)) 32) := by
  have hstate : (run step (start loadedKernel twoEntries)
      [.openFile (kstackToPcb 0) (some (cstring ".")),
        .openFile (kstackToPcb 0) (some (cstring ".")),
        .readFile (kstackToPcb 0) (fun _ => 0) 2 (some (fun _ => 0)) 32]).map
        (fun s => (s.kernel.readsDirectory (kstackToPcb 0) 3 (some (fun _ => 0)) 32,
          s.kernel.fs.dirCount, s.reads (kstackToPcb 0) 3, listedName s.kernel.fs 1,
          listedName s.kernel.fs 0)) = some (true, 1, 0, [0x61], [0x2E]) := by
    decide +kernel
  obtain ⟨s, hrun, hs⟩ := Option.map_eq_some_iff.mp hstate
  simp only [Prod.mk.injEq] at hs
  obtain ⟨hdir, hcount, hreads, hshared, hown⟩ := hs
  have hcurrent : CurrentEntry s.kernel.fs := Or.inl (by omega)
  refine ⟨s, hrun, hreads, hcount ▸ hshared, hown, fun hentry => ?_⟩
  have hat : listedName s.kernel.fs s.kernel.fs.dirCount
      = listedName s.kernel.fs (ownPosition _ (s.reads (kstackToPcb 0) 3)) :=
    (readsOwnEntry_iff hcurrent).mp hentry hdir
  rw [hcount, hshared, hreads, ownPosition, hown] at hat
  exact absurd hat (by decide)

end DirSession

end KernelDesign
