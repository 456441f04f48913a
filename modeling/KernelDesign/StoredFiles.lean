import KernelDesign.Descriptors
import KernelDesign.DirectoryListing
import KernelDesign.ExecutableCheck
import KernelDesign.Volume
import Mathlib.Data.List.Nodup

/-!
# Programs and the files of a volume

What the tables mean for a program: when a volume is mounted, `open` finds a
file by its name, and `read` returns its contents. The reads may be of any sizes
and in any number, with one condition. `read_data` copies the first block of a
request that goes to the end of the block from the start of that block, so the
reads of a file that is not smaller than a block are of whole blocks.

`Requests` are the reads and `readStep` is one of them; `reads_step` says what
one read adds, and `stored_file_read` follows by induction on the reads.
-/

namespace KernelDesign

open Transition Words

/-- **No two files have one name.** -/
theorem Volume.name_inj (v : Volume) {i j : ℕ} (hi : i < v.files.length)
    (hj : j < v.files.length) (h : v.files[i].name = v.files[j].name) : i = j := by
  have hi' : i < (v.files.map Stored.name).length := (List.length_map _).symm ▸ hi
  have hj' : j < (v.files.map Stored.name).length := (List.length_map _).symm ▸ hj
  have hnames : (v.files.map Stored.name)[i] = (v.files.map Stored.name)[j] := by
    rw [List.getElem_map, List.getElem_map, h]
  exact (List.Nodup.getElem_inj_iff v.nodup).mp hnames

namespace Volume.Mounted

variable {v : Volume} {fs fs' : FileSystem} {i : ℕ}

/-- **The tables are what is mounted**, and not the position of the directory
reader. -/
theorem congr (h : v.Mounted fs) (hboot : fs'.bootBlock = fs.bootBlock)
    (himage : fs'.image = fs.image) : v.Mounted fs' := by
  have hinode : ∀ i, fs'.inodeAt i = fs.inodeAt i := by
    intro i
    rw [FileSystem.inodeAt, FileSystem.inodeAt, himage]
  have hblock : ∀ b, fs'.dataBlock b = fs.dataBlock b := by
    intro b
    funext j
    rw [FileSystem.dataBlock, FileSystem.dataBlock, himage, hboot]
  refine ⟨hboot ▸ h.dirCount, hboot ▸ h.inodeCount, fun i hi => ?_, fun i hi => ?_,
    fun i hi => ?_, fun i hi w => ?_, fun i hi stack p hp => ?_⟩
  · rw [hboot]
    exact h.entry i hi
  · rw [hboot]
    exact h.unused i hi
  · rw [hinode]
    exact h.length i hi
  · rw [hinode, hboot]
    exact h.blockNum i hi w
  · rw [fileByte, hblock, hinode]
    exact h.byte i hi stack p hp

/-- The image is well formed. -/
theorem wellFormed (h : v.Mounted fs) : fs.WellFormed := by
  intro k hk
  rw [h.inodeCount] at hk
  have hi : k < v.files.length := by exact_mod_cast hk
  have hle := v.files[k].length_contents_le
  have hlength := h.length k hi
  exact ⟨by omega, by omega, fun w _ => h.blockNum k hi w⟩

/-- **No request looks past a file**: the block number behind its last one is a
good one. -/
theorem not_looksPastFile (h : v.Mounted fs) (hi : i < v.files.length) (stack : ℕ → ℤ)
    (offset n : ℕ) : ¬ LooksPastFile fs stack i offset n := by
  rintro ⟨-, -, hbad⟩
  have hlength := h.length i hi
  have hle := v.files[i].length_contents_le
  have hlt : u32 (fs.inodeAt i).length / 4096 < 1023 := by
    rw [hlength, u32_natCast (by omega)]
    omega
  obtain ⟨hnonneg, hcount⟩ := h.blockNum i hi ⟨_, hlt⟩
  rw [Inode.blockNum_of_lt _ _ hlt, FileSystem.badBlock_eq_false hnonneg hcount] at hbad
  exact Bool.false_ne_true hbad

/-- **A request whose first copy is right** gets the contents from its offset
on, as many bytes as it asks for and the file has. -/
theorem readData (h : v.Mounted fs) (hi : i < v.files.length) {stack : ℕ → ℤ}
    {offset n : ℕ} (buf : Bytes) (hoff : offset ≤ v.files[i].contents.length) (hpos : 0 < n)
    (hn : n < 2147483648) (hright : FirstCopyRight fs stack i offset n) :
    let r := KernelDesign.readData fs stack i offset (some buf) n
    let got := (v.files[i].contents.drop offset).take n
    r.ret = got.length ∧ r.buf.first got.length = got := by
  intro r got
  have hk : (i : ℤ) < fs.bootBlock.inodeCount := by
    rw [h.inodeCount]
    exact_mod_cast hi
  have hlength := h.length i hi
  have hoff' : (offset : ℤ) ≤ (fs.inodeAt i).length := by
    rw [hlength]
    exact_mod_cast hoff
  have hret := (readData_ret_iff h.wellFormed hk hoff' stack buf hpos hn).mpr
    (h.not_looksPastFile hi stack offset n)
  have hgot : (got.length : ℤ) = min (n : ℤ) ((fs.inodeAt i).length - offset) := by
    rw [hlength, List.length_take, List.length_drop]
    omega
  rw [← hgot] at hret
  refine ⟨hret, List.ext_getElem (Buffer.length_first _ _) (fun j hj hj' => ?_)⟩
  have hdelivers := (readData_delivers_iff h.wellFormed hk hoff' buf hpos hn).mpr hright
  have hbyte := (hdelivers (by rw [hret]; omega) j).1 (by rw [hret]; exact_mod_cast hj')
  have hp : offset + j < v.files[i].contents.length := by
    rw [List.length_take, List.length_drop] at hj'
    omega
  rw [h.byte i hi stack (offset + j) hp] at hbyte
  simp only [Buffer.first, List.getElem_map, List.getElem_range]
  rw [List.getElem_take, List.getElem_drop]
  exact hbyte

/-- **A slot compares equal** with the name of its file, and with no other
name. -/
theorem matches_iff (h : v.Mounted fs) {s : CString} (hpos : 0 < s.length)
    (hshort : s.length ≤ 32) (j : Fin 63) :
    fs.Matches s j ↔ ∃ hj : j.val < v.files.length, v.files[j.val].name = s.text := by
  rw [fs.matches_of_short hshort]
  obtain hj | hj := Nat.lt_or_ge j.val v.files.length
  · rw [(h.entry j hj).1]
    exact ⟨fun htext => ⟨hj, htext⟩, fun ⟨_, htext⟩ => htext⟩
  · rw [h.unused j hj]
    refine iff_of_false (fun htext => ?_) (fun ⟨hlt, _⟩ => Nat.not_lt.mpr hj hlt)
    have hlength := s.length_text
    rw [← htext, List.length_nil] at hlength
    omega

/-- **A lookup** finds the file of the name, and fails if there is none. -/
theorem lookup (h : v.Mounted fs) {s : CString} (hpos : 0 < s.length) (hshort : s.length ≤ 32)
    (d : Dentry) :
    (∃ (i : Fin 63) (hi : i.val < v.files.length), v.files[i.val].name = s.text
        ∧ (readDentryByName fs (some s.bytes) (some d)).ret = 0
        ∧ (readDentryByName fs (some s.bytes) (some d)).dentry
            = some (fs.bootBlock.direntries i))
      ∨ ((∀ f ∈ v.files, f.name ≠ s.text)
        ∧ (readDentryByName fs (some s.bytes) (some d)).ret = -1) := by
  obtain ⟨j, hfirst, hret, hdentry⟩ | ⟨hnone, hret, -⟩ := readDentryByName_cases fs s d hpos
  · obtain ⟨hj, hname⟩ := (h.matches_iff hpos hshort j).mp hfirst.found
    exact Or.inl ⟨j, hj, hname, hret, hdentry⟩
  · refine Or.inr ⟨fun f hf hname => ?_, hret⟩
    obtain ⟨i, hi, rfl⟩ := List.getElem_of_mem hf
    have hfiles := v.length_files_le
    exact hnone ⟨i, by omega⟩ ((h.matches_iff hpos hshort _).mpr ⟨hi, hname⟩)

/-- **The file of a name** is in the first slot that compares equal. -/
theorem firstMatch (h : v.Mounted fs) {s : CString} (i : Fin 63) (hi : i.val < v.files.length)
    (hname : v.files[i.val].name = s.text) : fs.FirstMatch s 0 i := by
  have hlength : v.files[i.val].name.length = s.length := by
    rw [hname, s.length_text]
  have hpos : 0 < s.length := hlength ▸ List.length_pos_of_ne_nil v.files[i.val].name_ne_nil
  have hshort : s.length ≤ 32 := hlength ▸ v.files[i.val].length_name_le
  refine ⟨Nat.zero_le _, (h.matches_iff hpos hshort i).mpr ⟨hi, hname⟩, fun l _ hl hmatch => ?_⟩
  obtain ⟨hl', hname'⟩ := (h.matches_iff hpos hshort l).mp hmatch
  exact Nat.ne_of_lt hl (v.name_inj hl' hi (hname'.trans hname.symm))

/-- **A lookup of a stored name** finds its file. -/
theorem lookup_stored (h : v.Mounted fs) {s : CString} (i : Fin 63)
    (hi : i.val < v.files.length) (hname : v.files[i.val].name = s.text) (d : Dentry) :
    (readDentryByName fs (some s.bytes) (some d)).ret = 0
      ∧ (readDentryByName fs (some s.bytes) (some d)).dentry
          = some (fs.bootBlock.direntries i) := by
  have hfirst := h.firstMatch i hi hname
  have hpos : 0 < s.length := by
    rw [← s.length_text, ← hname]
    exact List.length_pos_of_ne_nil v.files[i.val].name_ne_nil
  obtain ⟨j, hj, hret, hdentry⟩ | ⟨hnone, -, -⟩ := readDentryByName_cases fs s d hpos
  · rw [hj.unique hfirst] at hdentry
    exact ⟨hret, hdentry⟩
  · exact absurd hfirst.found (hnone i)

end Volume.Mounted

/-! ## Reading a file -/

/-- **A request of a program**: a buffer, and how many bytes to read. What the
kernel stack holds at the call is part of it. -/
structure Request where
  stack : ℕ → ℤ
  buf : Bytes
  nbytes : ℕ
  pos : 0 < nbytes
  nbytes_lt : nbytes < 2147483648

/-- The bytes that some requests ask for. -/
def requested : List Request → ℕ
  | [] => 0
  | c :: cs => c.nbytes + requested cs

theorem dvd_requested {m : ℕ} {cs : List Request} (h : ∀ c ∈ cs, m ∣ c.nbytes) :
    m ∣ requested cs := by
  induction cs with
  | nil => exact Nat.dvd_zero m
  | cons c cs ih =>
    exact Nat.dvd_add (h c List.mem_cons_self)
      (ih (fun d hd => h d (List.mem_cons_of_mem c hd)))

/-- **A reading program**: the kernel, and the bytes it has got. -/
structure Reading where
  kernel : Kernel
  got : List UInt8

/-- **A read** on descriptor `fd` of the block at `pcb`: the program keeps as
many bytes of its buffer as `read` returned. -/
def readStep (pcb : ℕ) (fd : ℤ) (s : Reading) (c : Request) : Option Reading :=
  match sysRead s.kernel pcb c.stack fd (some c.buf) c.nbytes with
  | .ok r => some ⟨r.kernel, s.got ++ (r.buf.getD c.buf).first r.ret.toNat⟩
  | .error _ => none

/-- **The requests read the file in order**: a file smaller than a block may be
read in any pieces, another one by whole blocks. -/
def BlockWise (contents : List UInt8) (cs : List Request) : Prop :=
  contents.length < 4096 ∨ ∀ c ∈ cs, 4096 ∣ c.nbytes

/-- The first copy of the next request is right. -/
theorem firstCopyRight_min {fs : FileSystem} {stack : ℕ → ℤ} {i total n : ℕ}
    {contents : List UInt8} (hlength : (fs.inodeAt i).length = contents.length)
    (hlarge : contents.length < 2147483648) (h : contents.length < 4096 ∨ 4096 ∣ total) :
    FirstCopyRight fs stack i (min total contents.length) n := by
  have hu32 : u32 (fs.inodeAt i).length = contents.length := by
    rw [hlength]
    exact u32_natCast (by omega)
  obtain hsmall | hwhole := h
  · refine Or.inl ?_
    rw [available, hu32]
    omega
  · obtain hle | hgt := Nat.lt_or_ge contents.length total
    · -- Nothing is left to read.
      refine Or.inl ?_
      rw [available, hu32]
      omega
    · rw [Nat.min_eq_left hgt]
      exact firstCopyRight_of_aligned (Nat.mod_eq_zero_of_dvd hwhole)

section Reads

variable {v : Volume} {pcb i : ℕ} {fd : ℤ}

/-- **A program that has asked for `total` bytes of file `i`.** -/
structure Reading.Has (v : Volume) (pcb i : ℕ) (fd : ℤ) (hi : i < v.files.length)
    (total : ℕ) (s : Reading) : Prop where
  mounted : v.Mounted s.kernel.fs
  at_got : FileAt s.kernel pcb fd i s.got.length
  got : s.got = v.files[i].contents.take total

variable {hi : i < v.files.length} {s : Reading} {total : ℕ}

/-- **One read** returns how much of the file is left, or as much as it asked
for, and the program has that too. -/
theorem Reading.Has.read (h : s.Has v pcb i fd hi total) (c : Request)
    (hwise : v.files[i].contents.length < 4096 ∨ 4096 ∣ total) :
    ∃ r, sysRead s.kernel pcb c.stack fd (some c.buf) c.nbytes = .ok r
      ∧ r.ret = ((v.files[i].contents.drop s.got.length).take c.nbytes).length
      ∧ (⟨r.kernel, s.got ++ (r.buf.getD c.buf).first r.ret.toNat⟩ : Reading).Has
          v pcb i fd hi (total + c.nbytes) := by
  have hfiles := v.length_files_le
  have hlarge := v.files[i].length_contents_le
  have hcount : s.got.length = min total v.files[i].contents.length := by
    rw [h.got, List.length_take]
  obtain ⟨hret, hfs, hat⟩ := h.at_got.fsFileRead c.stack c.buf c.nbytes
  have hbuf : (fsFileRead s.kernel pcb c.stack (fdIndex fd) c.buf c.nbytes).buf
      = some (readData s.kernel.fs c.stack (u32 i) (u32 s.got.length) (some c.buf)
          (u32 c.nbytes)).buf := by
    have hslot : (s.kernel.pcb pcb).fileArray (fdIndex fd) = ⟨.file, i, s.got.length, 1⟩ :=
      h.at_got.slot
    simp only [fsFileRead, hslot]
  have hnbytes := c.nbytes_lt
  rw [u32_natCast (n := i) (by omega), u32_natCast (n := s.got.length) (by omega),
    u32_natCast (n := c.nbytes) (by omega)] at hret hat hbuf
  obtain ⟨hsize, hbytes⟩ := h.mounted.readData hi c.buf
    (show s.got.length ≤ v.files[i].contents.length by omega) c.pos c.nbytes_lt
    (hcount ▸ firstCopyRight_min (h.mounted.length i hi) (by omega) hwise)
  rw [hsize] at hret hat
  -- What is got now is the next part of the file.
  have hnext : s.got ++ (v.files[i].contents.drop s.got.length).take c.nbytes
      = v.files[i].contents.take (total + c.nbytes) := by
    rw [List.take_add, ← h.got, hcount]
    obtain hle | hgt := Nat.le_total total v.files[i].contents.length
    · rw [Nat.min_eq_left hle]
    · rw [Nat.min_eq_right hgt, List.drop_of_length_le (le_refl _), List.drop_of_length_le hgt]
  have hlength : (v.files[i].contents.take (total + c.nbytes)).length
      = s.got.length + ((v.files[i].contents.drop s.got.length).take c.nbytes).length := by
    rw [← hnext, List.length_append]
  have hle : (v.files[i].contents.take (total + c.nbytes)).length
      ≤ v.files[i].contents.length := List.length_take_le' _ _
  rw [i32_of_bounds (by omega) (by omega), ← Nat.cast_add, ← hlength] at hat
  refine ⟨_, h.at_got.sysRead_eq c.stack c.buf c.nbytes, hret, ?_⟩
  rw [hbuf, hret, Option.getD_some, Int.toNat_natCast, hbytes, hnext]
  exact ⟨h.mounted.congr (by rw [hfs]) (by rw [hfs]), hat, rfl⟩

/-- One read, as a step. -/
theorem Reading.Has.step (h : s.Has v pcb i fd hi total) (c : Request)
    (hwise : v.files[i].contents.length < 4096 ∨ 4096 ∣ total) :
    ∃ s', readStep pcb fd s c = some s' ∧ s'.Has v pcb i fd hi (total + c.nbytes) := by
  obtain ⟨r, hread, -, hhas⟩ := h.read c hwise
  refine ⟨_, ?_, hhas⟩
  rw [readStep, hread]

/-- **A run of reads.** -/
theorem Reading.Has.run (h : s.Has v pcb i fd hi total) (cs : List Request)
    (hwise : v.files[i].contents.length < 4096 ∨ 4096 ∣ total ∧ ∀ c ∈ cs, 4096 ∣ c.nbytes) :
    ∃ s', run (readStep pcb fd) s cs = some s' ∧ s'.Has v pcb i fd hi (total + requested cs) := by
  induction cs generalizing s total with
  | nil => exact ⟨s, rfl, h⟩
  | cons c cs ih =>
    obtain ⟨s₁, hstep, h₁⟩ := h.step c (hwise.imp_right (fun hboth => hboth.1))
    obtain ⟨s', hrun, h'⟩ := ih h₁ (hwise.imp_right (fun hboth =>
      ⟨Nat.dvd_add hboth.1 (hboth.2 c List.mem_cons_self),
        fun d hd => hboth.2 d (List.mem_cons_of_mem c hd)⟩))
    refine ⟨s', ?_, ?_⟩
    · rw [run_cons, hstep]
      exact hrun
    · rw [requested, ← Nat.add_assoc]
      exact h'

end Reads

/-- **A stored file is read back**: when a volume is mounted, a process that
opens a regular file of it by name and reads it in order has, after any number
of reads, as much of its contents as it has asked for; and when that is all of
the file the next read returns 0. -/
theorem stored_file_read {v : Volume} {k : Kernel} (hmounted : v.Mounted k.fs) {i : ℕ}
    (hi : i < v.files.length) (htype : v.files[i].filetype = 2) {s : CString}
    (hname : v.files[i].name = s.text) {pcb : ℕ} {slot : Fin 8}
    (hfree : (k.pcb pcb).freeSlot = some slot) (cs : List Request)
    (hwise : BlockWise v.files[i].contents cs) :
    (sysOpen k pcb (some s.bytes)).1 = slot.val
      ∧ ∃ t, run (readStep pcb slot.val) ⟨(sysOpen k pcb (some s.bytes)).2, []⟩ cs = some t
        ∧ t.got = v.files[i].contents.take (requested cs)
        ∧ (v.files[i].contents.length ≤ requested cs → ∀ c : Request,
          ∃ r, sysRead t.kernel pcb c.stack slot.val (some c.buf) c.nbytes = .ok r
            ∧ r.ret = 0) := by
  have hfiles := v.length_files_le
  obtain ⟨hret, hdentry⟩ := hmounted.lookup_stored ⟨i, by omega⟩ hi hname unsetDentry
  obtain ⟨-, hentry, hinode⟩ := hmounted.entry ⟨i, by omega⟩ hi
  obtain ⟨hfd, hat⟩ := fileAt_of_sysOpen (by rw [hret]; decide) hdentry
    (hentry.trans htype) hfree
  rw [hinode, i32_of_bounds (by omega) (by omega)] at hat
  have hopened : v.Mounted (sysOpen k pcb (some s.bytes)).2.fs := by
    rw [Kernel.sysOpen_fs]
    exact hmounted
  have hstart : Reading.Has v pcb i slot.val hi 0 ⟨(sysOpen k pcb (some s.bytes)).2, []⟩ :=
    ⟨hopened, hat, rfl⟩
  obtain ⟨t, hrun, hhas⟩ := hstart.run cs (hwise.imp_right (fun hall => ⟨Nat.dvd_zero _, hall⟩))
  rw [Nat.zero_add] at hhas
  refine ⟨hfd, t, hrun, hhas.got, fun hend c => ?_⟩
  have htotal : v.files[i].contents.length < 4096 ∨ 4096 ∣ requested cs :=
    hwise.imp_right dvd_requested
  obtain ⟨r, hread, hlast, -⟩ := hhas.read c htotal
  refine ⟨r, hread, hlast.trans ?_⟩
  rw [hhas.got, List.take_of_length_le hend, List.drop_of_length_le (le_refl _),
    List.take_nil]
  rfl

/-! ## Names -/

/-- **A directory read** goes round the names of the volume. -/
theorem stored_name_listed (v : Volume) (fs : FileSystem) (bufs : ℕ → Bytes) (nbytes : ℕ → ℤ)
    (m : ℕ) :
    let r := fsDirRead (afterReads bufs nbytes (fsInit fs v.image) m) (bufs m) (nbytes m)
    (m % (v.files.length + 1) = v.files.length → r.ret = 0)
      ∧ ∀ h : m % (v.files.length + 1) < v.files.length,
        r.ret = v.files[m % (v.files.length + 1)].name.length
          ∧ r.buf.first v.files[m % (v.files.length + 1)].name.length
              = v.files[m % (v.files.length + 1)].name := by
  intro r
  have hmounted := fsInit_mounted v fs
  obtain ⟨hlast, hnext⟩ := fsDirRead_enumerates fs v.image hmounted.dirCount v.length_files_le
    bufs nbytes m
  refine ⟨hlast, fun h => ?_⟩
  obtain ⟨hret, hbuf⟩ := hnext (Nat.ne_of_lt h)
  have hfiles := v.length_files_le
  have htext : ((fsInit fs v.image).direntry (m % (v.files.length + 1))).text
      = v.files[m % (v.files.length + 1)].name := by
    rw [FileSystem.direntry, dif_pos (by omega)]
    exact (hmounted.entry ⟨_, by omega⟩ h).1
  rw [htext] at hret
  refine ⟨hret, ?_⟩
  have hle := v.files[m % (v.files.length + 1)].length_name_le
  have hcut := congrArg (List.take v.files[m % (v.files.length + 1)].name.length) hbuf
  rw [Buffer.take_first, Nat.min_eq_left hle, Dentry.padded, htext, List.take_left] at hcut
  exact hcut

/-- **An `open`** finds the files of the volume by their names, and no
others. -/
theorem stored_name_opened {v : Volume} {k : Kernel} (hmounted : v.Mounted k.fs) {s : CString}
    (hpos : 0 < s.length) (hshort : s.length ≤ 32) {pcb : ℕ} {slot : Fin 8}
    (hfree : (k.pcb pcb).freeSlot = some slot) :
    ((∀ f ∈ v.files, f.name ≠ s.text) → (sysOpen k pcb (some s.bytes)).1 = -1)
      ∧ ∀ f ∈ v.files, f.name = s.text →
        (sysOpen k pcb (some s.bytes)).1 = slot.val
          ∧ ((((sysOpen k pcb (some s.bytes)).2.pcb pcb).fileArray slot).fopTable
              = jumpTable f.filetype)
          ∧ (((sysOpen k pcb (some s.bytes)).2.pcb pcb).fileArray slot).offset = 0 := by
  have hfiles := v.length_files_le
  refine ⟨fun hnone => ?_, fun f hf hname => ?_⟩
  · obtain ⟨i, hi, hname, -⟩ | ⟨-, hret⟩ := hmounted.lookup hpos hshort unsetDentry
    · exact absurd hname (hnone _ (List.getElem_mem hi))
    · rw [sysOpen, if_pos hret]
  · obtain ⟨i, hi, rfl⟩ := List.getElem_of_mem hf
    obtain ⟨hret, hdentry⟩ := hmounted.lookup_stored ⟨i, by omega⟩ hi hname unsetDentry
    obtain ⟨-, htype, -⟩ := hmounted.entry ⟨i, by omega⟩ hi
    obtain ⟨d, hd, hinstalls, -⟩ := fileDes_installs (htype ▸ v.files[i].filetype_le)
    have hne : (0 : ℤ) ≠ -1 := by decide
    have hopen : sysOpen k pcb (some s.bytes)
        = ((slot.val : ℤ), k.setPcb pcb (fun p =>
            { p with programCounter := i32 (p.programCounter + 1) }.setFile slot d)) := by
      simp only [sysOpen, hret, if_neg hne, hfree, hdentry, Option.getD_some, hd]
    have hslot : ((sysOpen k pcb (some s.bytes)).2.pcb pcb).fileArray slot = d := by
      rw [hopen, Kernel.setPcb_pcb_self]
      exact if_pos rfl
    rw [hslot]
    refine ⟨congrArg Prod.fst hopen, ?_, hinstalls.offset⟩
    rw [hinstalls.fopTable, htype]

/-- The kernel with a volume mounted. -/
def Kernel.mount (k : Kernel) (v : Volume) : Kernel :=
  { k with fs := fsInit k.fs v.image }

theorem Kernel.mount_mounted (k : Kernel) (v : Volume) : v.Mounted (k.mount v).fs :=
  fsInit_mounted v k.fs

/-- **The names that are listed and the names that can be opened are those of
the volume**: after `fs_init` on its image the reads of the directory go round
the names in order, with a read of nothing behind the last; and with a
descriptor free, `open` of a name of at most 32 bytes fails if no file has the
name, and otherwise returns that descriptor, at position 0 and of the type of
the file. -/
theorem stored_names (v : Volume) (k : Kernel) (bufs : ℕ → Bytes) (nbytes : ℕ → ℤ) (m : ℕ)
    {s : CString} (hpos : 0 < s.length) (hshort : s.length ≤ 32) {pcb : ℕ} {slot : Fin 8}
    (hfree : (k.pcb pcb).freeSlot = some slot) :
    let r := fsDirRead (afterReads bufs nbytes (k.mount v).fs m) (bufs m) (nbytes m)
    let opened := sysOpen (k.mount v) pcb (some s.bytes)
    (m % (v.files.length + 1) = v.files.length → r.ret = 0)
      ∧ (∀ h : m % (v.files.length + 1) < v.files.length,
        r.ret = v.files[m % (v.files.length + 1)].name.length
          ∧ r.buf.first v.files[m % (v.files.length + 1)].name.length
              = v.files[m % (v.files.length + 1)].name)
      ∧ ((∀ f ∈ v.files, f.name ≠ s.text) → opened.1 = -1)
      ∧ ∀ f ∈ v.files, f.name = s.text →
        opened.1 = slot.val
          ∧ ((opened.2.pcb pcb).fileArray slot).fopTable = jumpTable f.filetype
          ∧ ((opened.2.pcb pcb).fileArray slot).offset = 0 := by
  intro r opened
  obtain ⟨hlast, hlisted⟩ := stored_name_listed v k.fs bufs nbytes m
  have hslot : (((k.mount v).pcb pcb).freeSlot) = some slot := hfree
  obtain ⟨hnone, hfound⟩ := stored_name_opened (k.mount_mounted v) hpos hshort hslot
  exact ⟨hlast, hlisted, hnone, hfound⟩

/-! ## A volume of two files -/

/-- The directory `.` and a file `a` of three bytes. -/
def smallVolume : Volume where
  files := [⟨[0x2E], 1, [], by simp, by simp, by simp, directory_le, by simp⟩,
    ⟨[0x61], 2, [7, 8, 9], by simp, by simp, by simp, regular_le, by simp⟩]
  length_files_le := by decide
  nodup := by decide

/-- The name `a`. -/
def nameA : CString := ⟨cstring "a", 1, by decide, by decide⟩

theorem twoBytes_lt : 2 < 2147483648 := by decide

/-- A read of two bytes. -/
def twoBytes : Request := ⟨fun _ => 0, fun _ => 0, 2, Nat.two_pos, twoBytes_lt⟩

/-- The second of two reads gets the last byte, and the next one nothing. -/
theorem stored_file_read_twice :
    ∃ t, run (readStep 0 2) ⟨(sysOpen (loadedKernel.mount smallVolume) 0 (some nameA.bytes)).2, []⟩
        [twoBytes, twoBytes] = some t
      ∧ t.got = [7, 8, 9]
      ∧ ∃ r, sysRead t.kernel 0 twoBytes.stack 2 (some twoBytes.buf) 2 = .ok r ∧ r.ret = 0 := by
  have hfree : ((loadedKernel.mount smallVolume).pcb 0).freeSlot = some 2 := by decide
  obtain ⟨-, t, hrun, hgot, hend⟩ := stored_file_read (k := loadedKernel.mount smallVolume)
    (loadedKernel.mount_mounted smallVolume) (i := 1) (by decide) rfl (s := nameA)
    (by decide) hfree [twoBytes, twoBytes] (Or.inl (by decide))
  exact ⟨t, hrun, hgot, hend (by decide) twoBytes⟩

/-- The second read of the directory lists `a`, and `a` can be opened. -/
theorem stored_names_second :
    (fsDirRead (afterReads (fun _ _ => 0) (fun _ => 32)
        (loadedKernel.mount smallVolume).fs 1) (fun _ => 0) 32).ret = 1
      ∧ (sysOpen (loadedKernel.mount smallVolume) 0 (some nameA.bytes)).1 = 2 := by
  have hfree : (loadedKernel.pcb 0).freeSlot = some 2 := by decide
  obtain ⟨-, hlisted, -, hopened⟩ := stored_names smallVolume loadedKernel (fun _ _ => 0)
    (fun _ => 32) 1 (s := nameA) (by decide) (by decide) hfree
  exact ⟨(hlisted (by decide)).1, (hopened _ (List.getElem_mem (n := 1) (by decide)) rfl).1⟩

end KernelDesign
