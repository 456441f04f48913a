import KernelDesign.Isolation
import KernelDesign.ProgramLoad
import KernelDesign.StoredFiles
import KernelDesign.Translation

/-!
# A stored program is what runs

`execute` looks a command up, reads four bytes of the file to see whether it is
an executable, maps a page for the new process, and reads the whole file into
it. With a volume mounted all of this is about one of its files:
`stored_program_started` is that the new process has the contents of the file
that the command names at the address it starts from, and that no other frame
of memory has changed.
-/

namespace KernelDesign

open Words

/-- **What a program reads** at an address of its page. -/
def Kernel.userByte (k : Kernel) (a : ℕ) : UInt8 :=
  k.userMem (frameOf (k.paging.pageDirectory 32)) (a - 0x8000000)

/-- A file that starts as executables do. -/
def IsExecutable (contents : List UInt8) : Prop := contents.take 4 = [0x7F, 0x45, 0x4C, 0x46]

instance (contents : List UInt8) : Decidable (IsExecutable contents) :=
  inferInstanceAs (Decidable (_ = _))

/-- Its first four bytes. -/
theorem IsExecutable.magic {contents : List UInt8} (h : IsExecutable contents) :
    4 ≤ contents.length ∧ ∀ j (hj : j < contents.length), j < 4 → contents[j] = magicByte j := by
  have hlength := congrArg List.length h
  rw [List.length_take] at hlength
  refine ⟨by simpa using hlength, fun j hj hj4 => ?_⟩
  have hbyte : (contents.take 4).getD j 0 = contents[j] := by
    rw [List.getD_eq_getElem _ _ (by rw [List.length_take]; omega), List.getElem_take]
  rw [← hbyte, h]
  rfl

namespace Volume.Mounted

variable {v : Volume} {fs : FileSystem}

/-- **The check of an executable file** succeeds, whatever the buffer of the
check held. -/
theorem probeSucceeds (h : v.Mounted fs) (i : Fin 63) (hi : i.val < v.files.length)
    (hexecutable : IsExecutable v.files[i.val].contents) (old : Bytes) :
    fs.ProbeSucceeds old (fs.bootBlock.direntries i) := by
  obtain ⟨hlong, hmagic⟩ := hexecutable.magic
  obtain ⟨-, -, hinode⟩ := h.entry i hi
  have hlength := h.length i.val hi
  have hle := v.files[i.val].length_contents_le
  obtain ⟨hnonneg, hcount⟩ := h.blockNum i.val hi 0
  refine ⟨⟨?_, fun j hj _ => ?_⟩, fun j hj hout => ?_⟩
  · rw [hinode]
    exact FileSystem.badBlock_eq_false hnonneg hcount
  · have hbyte := h.byte i.val hi (fun _ => 0) j (by omega)
    have hzero : j / 4096 = 0 := Nat.div_eq_of_lt (by omega)
    rw [fileByte, hzero, Inode.blockNum_zero, Nat.mod_eq_of_lt (by omega),
      hmagic j (by omega) hj] at hbyte
    rw [hinode]
    exact hbyte
  · rw [hinode, hlength, u32_natCast (by omega)] at hout
    omega

/-- **`execute` goes on with the file** that the first word of its command
names. -/
theorem execLookup {k : Kernel} (h : v.Mounted k.fs) (i : Fin 63) (hi : i.val < v.files.length)
    (hexecutable : IsExecutable v.files[i.val].contents) {command : Bytes} {f : ℕ}
    (hf : FirstDelim command f) (hname : v.files[i.val].name = hf.word.text) (st : Stale) :
    KernelDesign.execLookup k st command = some (k.fs.bootBlock.direntries i) := by
  have hpos : 0 < hf.word.length := by
    rw [← hf.word.length_text, ← hname]
    exact List.length_pos_of_ne_nil v.files[i.val].name_ne_nil
  exact (execLookup_eq_some_iff k st hf _).mpr ⟨hpos, i, h.firstMatch i hi hname, rfl,
    h.probeSucceeds i hi hexecutable st.probeBuf⟩

end Volume.Mounted

/-- The kernel that a program is loaded into. -/
def Kernel.mapped (k : Kernel) : Kernel :=
  k.countProgram.setUpProgramPaging k.countProgram.activeProc

theorem Kernel.mapped_slot (k : Kernel) :
    k.mapped.paging.pageDirectory 32 = programEntry (k.activeProc + 1) :=
  Paging.setUpProgramPaging_slot _ _

theorem storeImage_userMem (k : Kernel) (f : ℕ) (r : ReadResult) :
    (k.storeImage f r).2.userMem = fun g =>
      if g = f then fun j => if j < 0x48000 then k.userMem f j else r.buf (j - 0x48000)
      else k.userMem g := rfl

/-- The tables and the counters are not in the frames. -/
theorem storeImage_paging (k : Kernel) (f : ℕ) (r : ReadResult) :
    (k.storeImage f r).2.paging = k.paging ∧ (k.storeImage f r).2.activeProc = k.activeProc :=
  ⟨rfl, rfl⟩

/-- The control block is not in the frames of the programs. -/
theorem createPcb_memory (k : Kernel) (frame : Frame) (args : Bytes) :
    (k.createPcb frame args).userMem = k.userMem ∧ (k.createPcb frame args).paging = k.paging
      ∧ (k.createPcb frame args).activeProc = k.activeProc := ⟨rfl, rfl, rfl⟩

theorem loadNext_snd (k : Kernel) (st : Stale) (d : Dentry) :
    (k.loadNext st d).2
      = (k.mapped.storeImage (frameOf (k.mapped.paging.pageDirectory 32))
          (k.loadRead st d)).2 := by
  unfold Kernel.loadNext Kernel.loadProgram Kernel.loadRead
  exact congrArg Prod.snd (rfl : k.mapped.storeImage _ _ = _)

/-- **What a load leaves in memory**: the bytes that its read has put into the
buffer, and every other frame as it was. -/
theorem loadNext_userMem (k : Kernel) (st : Stale) (d : Dentry) :
    (∀ p, (k.loadNext st d).2.userMem (frameOf (programEntry (k.activeProc + 1))) (0x48000 + p)
        = (k.loadRead st d).buf p)
      ∧ ∀ g, g ≠ frameOf (programEntry (k.activeProc + 1)) →
        (k.loadNext st d).2.userMem g = k.userMem g := by
  rw [loadNext_snd, k.mapped_slot, storeImage_userMem]
  refine ⟨fun p => ?_, fun g hg => if_neg hg⟩
  refine (congrFun (if_pos rfl) (0x48000 + p)).trans ?_
  refine (if_neg (Nat.not_lt.mpr (Nat.le_add_right _ _))).trans ?_
  rw [Nat.add_sub_cancel_left]

/-- The control block of a process is in the kernel's page, as far as the
stacks in it go. -/
theorem inKernelPage_kstackToPcb {n : ℤ} (h0 : 0 ≤ n) (hn : n < 510) :
    inKernelPage (kstackToPcb n) = true := by
  rw [inKernelPage, decide_eq_true_eq, kstackToPcb, u32_eq]
  omega

section Load

variable {v : Volume} {k : Kernel} {i : ℕ}

/-- **The read of the load** is of the whole file. -/
theorem loadRead_mounted (hmounted : v.Mounted k.fs) (hi : i < v.files.length) (st : Stale)
    {d : Dentry} (hinode : d.inode = i) :
    (k.loadRead st d).ret = v.files[i].contents.length
      ∧ (k.loadRead st d).buf.first v.files[i].contents.length = v.files[i].contents := by
  have hle := v.files[i].length_contents_le
  obtain ⟨buf, hread⟩ := k.exists_loadRead_eq st d
  rw [hread, hinode]
  have hright : FirstCopyRight k.fs st.loadStack i 0 0x400000 :=
    firstCopyRight_of_aligned (Nat.zero_mod 4096)
  have hbytes := hmounted.readData hi buf (Nat.zero_le _) (by decide) (by decide) hright
  rwa [List.drop_zero, List.take_of_length_le (by omega)] at hbytes

/-- A file that the page has room for does not leave it. -/
theorem not_leavesPage (hmounted : v.Mounted k.fs) (hi : i < v.files.length)
    (hfits : v.files[i].contents.length ≤ 0x3B8000) (stack : ℕ → ℤ) :
    ¬ LeavesPage k.fs stack i := by
  rintro ⟨hlong, -⟩
  rw [hmounted.length i hi, u32_natCast (by omega)] at hlong
  omega

/-- **The call comes to its end**: the file is found, its load leaves neither
the page nor a block out, and the new control block is in the kernel's page. -/
theorem execute_mounted (hmounted : v.Mounted k.fs) (hi : i < v.files.length)
    (hexecutable : IsExecutable v.files[i].contents) {command : Bytes} {f : ℕ}
    (hf : FirstDelim command f) (hname : v.files[i].name = hf.word.text)
    (hfits : v.files[i].contents.length ≤ 0x3B8000) (hcap : k.programs < 6)
    (hpage : inKernelPage (kstackToPcb (k.activeProc + 1)) = true) (st : Stale) (frame : Frame) :
    ∃ d : Dentry, d.inode = i ∧ execute k st frame (some command)
      = .started ((k.loadNext st d).2.createPcb frame (exeArgs k.activeProc command)) := by
  have hfiles := v.length_files_le
  have hlook := hmounted.execLookup ⟨i, by omega⟩ hi hexecutable hf hname st
  obtain ⟨-, -, hinode⟩ := hmounted.entry ⟨i, by omega⟩ hi
  refine ⟨k.fs.bootBlock.direntries ⟨i, by omega⟩, hinode, ?_⟩
  set d := k.fs.bootBlock.direntries ⟨i, by omega⟩ with hd
  have hret := (loadRead_mounted hmounted hi st hinode).1
  have hcase := execute_cases k st frame (some command)
  generalize execute k st frame (some command) = r at hcase ⊢
  cases hcase with
  | rejected c hrefused => exact absurd hlook (hrefused command d rfl hcap)
  | @loadFailed s d' hcommand _ hlook' _ hload =>
    cases hcommand
    obtain rfl : d = d' := Option.some.inj (hlook.symm.trans hlook')
    rw [k.loadNext_fst, hret] at hload
    omega
  | @fault s d' hcommand _ hlook' hcause =>
    cases hcommand
    obtain rfl : d = d' := Option.some.inj (hlook.symm.trans hlook')
    obtain hleaves | ⟨-, hout⟩ := hcause
    · exact absurd (hinode ▸ hleaves) (not_leavesPage hmounted hi hfits _)
    · exact absurd hout (ne_false_of_eq_true hpage)
  | @started s d' hcommand _ hlook' _ _ _ =>
    cases hcommand
    obtain rfl : d = d' := Option.some.inj (hlook.symm.trans hlook')
    rfl

end Load

/-- **A stored program is what runs**: with a volume mounted, fewer than six
programs counted and a process running, `execute` of a command that names an
executable file of it starts a process, provided that the user page has room
for the file. The process is mapped to the frame of its number, which is not
the kernel's, it finds the contents of the file at `0x08048000`, and no other
frame has changed.

The first process of all is left out, since its frame is the page of the
kernel. -/
theorem stored_program_started {v : Volume} {k : Kernel} (hmounted : v.Mounted k.fs) {i : ℕ}
    (hi : i < v.files.length) (hexecutable : IsExecutable v.files[i].contents)
    {command : Bytes} {f : ℕ} (hf : FirstDelim command f)
    (hname : v.files[i].name = hf.word.text)
    (hfits : v.files[i].contents.length ≤ 0x3B8000) (hcap : k.programs < 6)
    (hrunning : 0 ≤ k.activeProc) (hstacks : k.activeProc + 1 < 510) (st : Stale)
    (frame : Frame) :
    ∃ k', execute k st frame (some command) = .started k'
      ∧ k'.activeProc = k.activeProc + 1
      ∧ k'.paging.pageDirectory 32 = programEntry (k.activeProc + 1)
      ∧ Disjoint (programFrame (k.activeProc + 1)) kernelPage
      ∧ (∀ p (hp : p < v.files[i].contents.length),
        k'.userByte (0x8048000 + p) = v.files[i].contents[p])
      ∧ ∀ g, g ≠ frameOf (programEntry (k.activeProc + 1)) → k'.userMem g = k.userMem g := by
  obtain ⟨d, hinode, hexecute⟩ :=
    execute_mounted hmounted hi hexecutable hf hname hfits hcap
      (inKernelPage_kstackToPcb (by omega) hstacks) st frame
  have hapart : Disjoint (programFrame (k.activeProc + 1)) kernelPage :=
    (disjoint_kernelPage_iff _).mpr (by omega)
  obtain ⟨-, hbuf⟩ := loadRead_mounted hmounted hi st hinode
  obtain ⟨hbytes, hframes⟩ := loadNext_userMem k st d
  obtain ⟨hmem, hpaging, hactive⟩ :=
    createPcb_memory (k.loadNext st d).2 frame (exeArgs k.activeProc command)
  obtain ⟨hpaging', hactive'⟩ := storeImage_paging k.mapped
    (frameOf (k.mapped.paging.pageDirectory 32)) (k.loadRead st d)
  rw [← loadNext_snd] at hpaging' hactive'
  have hslot : ((k.loadNext st d).2.createPcb frame
      (exeArgs k.activeProc command)).paging.pageDirectory 32
        = programEntry (k.activeProc + 1) := by
    rw [hpaging, hpaging', k.mapped_slot]
  refine ⟨_, hexecute, hactive.trans hactive', hslot, hapart, fun p hp => ?_, fun g hg => ?_⟩
  · have haddr : 0x8048000 + p - 0x8000000 = 0x48000 + p := by omega
    have hbyte : (k.loadRead st d).buf p = v.files[i].contents[p] := by
      rw [← List.getD_eq_getElem _ 0 hp, ← hbuf, List.getD_eq_getElem _ 0 (by simpa using hp)]
      simp only [Buffer.first, List.getElem_map, List.getElem_range]
    rw [Kernel.userByte, hslot, hmem, haddr, hbytes p, hbyte]
  · rw [hmem]
    exact hframes g hg

/-- A volume with one program, `s`, of five bytes. -/
def programVolume : Volume where
  files := [⟨[0x73], 2, [0x7F, 0x45, 0x4C, 0x46, 0x55], by simp, by simp, by simp, regular_le,
    by simp⟩]
  length_files_le := by decide
  nodup := by decide

/-- The program runs as the first process and then executes itself: process 1
finds the fifth byte in its own page. -/
theorem stored_program_started_first :
    ∃ k k', execute (loadedKernel.mount programVolume) zeroStale .kbdInit (some (cstring "s"))
        = .started k
      ∧ execute k zeroStale .kbdInit (some (cstring "s")) = .started k'
      ∧ k'.activeProc = 1 ∧ k'.userByte 0x8048004 = 0x55 := by
  have hdelim : FirstDelim (cstring "s") 1 := ⟨by decide, by decide⟩
  have hmounted := loadedKernel.mount_mounted programVolume
  obtain ⟨d, -, hfirst⟩ := execute_mounted hmounted (i := 0) (by decide) (by decide) hdelim
    rfl (by decide) (by decide) (by decide) zeroStale .kbdInit
  set k := ((loadedKernel.mount programVolume).loadNext zeroStale d).2.createPcb .kbdInit
    (exeArgs (loadedKernel.mount programVolume).activeProc (cstring "s")) with hk
  have hactive : k.activeProc = 0 := rfl
  have hprograms : k.programs = 1 := rfl
  obtain ⟨k', hsecond, hactive', -, -, hbytes, -⟩ := stored_program_started (k := k)
    hmounted (i := 0) (by decide) (by decide) hdelim rfl (by decide) (by omega) (by omega)
    (by omega) zeroStale .kbdInit
  rw [hactive] at hactive'
  exact ⟨k, k', hfirst, hsecond, hactive', hbytes 4 (by decide)⟩

end KernelDesign
