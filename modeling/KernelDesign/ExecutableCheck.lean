import KernelDesign.CommandLine
import KernelDesign.ExecuteFailure

/-!
# The executable check

Before `execute` counts a program it looks the first word of the command up
and compares four bytes of the file with the magic number. It should go on
for a regular file that the directory lists under the word and that starts
with the magic number, and for nothing else.

The code never asks for the type of the entry, and a file of fewer than
four bytes leaves the rest of the probe buffer as the kernel stack had it.
What it does is `execLookup_eq_some_iff`; where that is the same as being an
executable is `execute_accepts_iff`.
-/

namespace KernelDesign

open Words

/-! ## What an executable is -/

/-- The magic number of an executable, by index. -/
def magicByte (j : ℕ) : UInt8 := [0x7F, 0x45, 0x4C, 0x46].getD j 0

/-- **The first word of a command**, whose first delimiter is at `f`. -/
def FirstDelim.word {command : Bytes} {f : ℕ} (h : FirstDelim command f) : CString where
  bytes j := if j < f then command j else 0
  length := f
  ne_zero j hj := by
    rw [if_pos hj]
    exact ne_zero_of_isDelim (h.before j hj)
  nul := if_neg (Nat.lt_irrefl f)

/-- **An entry is of an executable**: of type regular file, with an inode
and a first block of the image, and a file of at least four bytes that
starts with the magic number. -/
structure FileSystem.OfExecutable (fs : FileSystem) (d : Dentry) : Prop where
  regular : d.filetype = 2
  inode : (d.inode : ℤ) < fs.bootBlock.inodeCount
  length : 4 ≤ (fs.inodeAt d.inode).length
  block : fs.badBlock ((fs.inodeAt d.inode).dataBlockNum 0) = false
  magic : ∀ j, j < 4 → fs.dataBlock ((fs.inodeAt d.inode).dataBlockNum 0) j = magicByte j

/-- **A word names an executable**: it is not empty, and the first entry
that the directory lists under it is of one. -/
def FileSystem.NamesExecutable (fs : FileSystem) (w : CString) : Prop :=
  0 < w.length ∧ ∃ i, fs.Lists w i ∧ (∀ l, l < i → ¬ fs.Lists w l)
    ∧ fs.OfExecutable (fs.bootBlock.direntries i)

/-! ## The probe -/

/-- The first block number is in the table. -/
theorem Inode.blockNum_zero (ino : Inode) (stack : ℕ → ℤ) :
    ino.blockNum stack 0 = ino.dataBlockNum 0 := Inode.blockNum_of_lt ino stack (by decide)

section Probe

variable (fs : FileSystem) (stack : ℕ → ℤ) (inode : ℕ) (buf : Bytes)

/-- The probe gets at most four bytes. -/
theorem available_probe_le : available (fs.inodeAt inode) 0 4 ≤ 4 := Nat.min_le_left _ _

/-- The request of the probe is plain for every inode. -/
theorem plainRequest_probe : PlainRequest fs inode 0 4 := by
  have hav := available_probe_le fs inode
  exact ⟨by decide, Nat.zero_le _, by decide, by decide, by omega⟩

/-- It looks at the first block. -/
theorem walks_probe_iff :
    Walks fs stack inode 0 4
      ↔ fs.badBlock ((fs.inodeAt inode).dataBlockNum 0) = false := by
  have hav := available_probe_le fs inode
  have hlast : (0 + available (fs.inodeAt inode) 0 4) / 4096 = 0 := by omega
  rw [Walks, hlast]
  constructor
  · intro h
    rw [← Inode.blockNum_zero _ stack]
    exact h 0 (Nat.le_refl 0) (Nat.le_refl 0)
  · intro h i _ hi
    rw [Nat.le_zero.mp hi, Inode.blockNum_zero]
    exact h

/-- **The probe fails** if the first block is bad. -/
theorem probe_ret_iff :
    (readData fs stack inode 0 (some buf) 4).ret = -1
      ↔ fs.badBlock ((fs.inodeAt inode).dataBlockNum 0) = true := by
  rw [← Bool.not_eq_false, ← walks_probe_iff fs stack]
  by_cases hw : Walks fs stack inode 0 4
  · rw [(plainRequest_probe fs inode).ret_of_walks hw]
    exact iff_of_false (by omega) (not_not_intro hw)
  · exact iff_of_true ((plainRequest_probe fs inode).ret_of_not_walks hw) hw

/-- **The probe buffer**: the bytes the file has, and behind them what was
there before. -/
theorem probe_buf (hgood : fs.badBlock ((fs.inodeAt inode).dataBlockNum 0) = false) {j : ℕ}
    (hj : j < 4) :
    (readData fs stack inode 0 (some buf) 4).buf j
      = if j < u32 (fs.inodeAt inode).length then
          fs.dataBlock ((fs.inodeAt inode).dataBlockNum 0) j
        else buf j := by
  have hplain := plainRequest_probe fs inode
  have hav : available (fs.inodeAt inode) 0 4 = min 4 (u32 (fs.inodeAt inode).length) := by
    rw [available, Nat.sub_zero]
  split
  · rename_i hin
    have hbyte : (readData fs stack inode 0 (some buf) 4).buf j
        = fileByte fs (fs.inodeAt inode) stack (0 + j) :=
      hplain.buf_of_short ((walks_probe_iff fs stack inode).mpr hgood) (by omega)
        (show j < _ by omega)
    rw [hbyte, fileByte_add _ _ _ (by omega), Nat.zero_div, Nat.zero_mod, Nat.zero_add,
      Inode.blockNum_zero]
  · rename_i hout
    exact hplain.frame (by omega)

end Probe

/-- **A probe that could succeed**: the first block is good, and the bytes
of the file agree with the magic number as far as it goes. -/
structure FileSystem.ProbeMatches (fs : FileSystem) (d : Dentry) : Prop where
  block : fs.badBlock ((fs.inodeAt d.inode).dataBlockNum 0) = false
  magic : ∀ j, j < 4 → j < u32 (fs.inodeAt d.inode).length →
    fs.dataBlock ((fs.inodeAt d.inode).dataBlockNum 0) j = magicByte j

/-- **A probe that does succeed**, on a buffer that held `old`: the rest of
the magic number was in the buffer. -/
structure FileSystem.ProbeSucceeds (fs : FileSystem) (old : Bytes) (d : Dentry) : Prop where
  matching : fs.ProbeMatches d
  rest : ∀ j, j < 4 → u32 (fs.inodeAt d.inode).length ≤ j → old j = magicByte j

/-- The test of the four bytes. -/
theorem magic_iff (b : Bytes) :
    (b 0 ≠ 0x7F ∨ b 1 ≠ 0x45 ∨ b 2 ≠ 0x4C ∨ b 3 ≠ 0x46) ↔ ¬ ∀ j, j < 4 → b j = magicByte j := by
  constructor
  · intro hne h
    have h0 : b 0 = 0x7F := h 0 (by decide)
    have h1 : b 1 = 0x45 := h 1 (by decide)
    have h2 : b 2 = 0x4C := h 2 (by decide)
    have h3 : b 3 = 0x46 := h 3 (by decide)
    simp [h0, h1, h2, h3] at hne
  · intro h
    by_contra hall
    simp only [not_or, not_not] at hall
    obtain ⟨h0, h1, h2, h3⟩ := hall
    refine h (fun j hj => ?_)
    match j, hj with
    | 0, _ => exact h0
    | 1, _ => exact h1
    | 2, _ => exact h2
    | 3, _ => exact h3

/-- **The probe and the test** of `execute`, together. -/
theorem probeSucceeds_iff (fs : FileSystem) (stack : ℕ → ℤ) (old : Bytes) (d : Dentry) :
    ((readData fs stack d.inode 0 (some old) 4).ret ≠ -1
        ∧ ∀ j, j < 4 → (readData fs stack d.inode 0 (some old) 4).buf j = magicByte j)
      ↔ fs.ProbeSucceeds old d := by
  rw [Ne, probe_ret_iff, Bool.not_eq_true]
  constructor
  · rintro ⟨hgood, hbuf⟩
    refine ⟨⟨hgood, fun j hj hin => ?_⟩, fun j hj hout => ?_⟩
    · rw [← hbuf j hj, probe_buf fs stack d.inode old hgood hj, if_pos hin]
    · rw [← hbuf j hj, probe_buf fs stack d.inode old hgood hj, if_neg (Nat.not_lt.mpr hout)]
  · rintro ⟨⟨hgood, hin⟩, hrest⟩
    refine ⟨hgood, fun j hj => ?_⟩
    rw [probe_buf fs stack d.inode old hgood hj]
    split
    · rename_i hlt
      exact hin j hj hlt
    · rename_i hge
      exact hrest j hj (Nat.not_lt.mp hge)

/-- The check of an entry that was found. -/
theorem probeTest_eq_some_iff (fs : FileSystem) (stack : ℕ → ℤ) (old : Bytes) (e d : Dentry) :
    (let r := readData fs stack e.inode 0 (some old) 4
      if r.ret = -1 then none
      else if r.buf 0 ≠ 0x7F ∨ r.buf 1 ≠ 0x45 ∨ r.buf 2 ≠ 0x4C ∨ r.buf 3 ≠ 0x46 then none
      else some e) = some d
      ↔ d = e ∧ fs.ProbeSucceeds old d := by
  have hiff := probeSucceeds_iff fs stack old e
  have hmagic := magic_iff (readData fs stack e.inode 0 (some old) 4).buf
  dsimp only
  by_cases hok : fs.ProbeSucceeds old e
  · obtain ⟨hret, hbuf⟩ := hiff.mpr hok
    rw [if_neg hret, if_neg (fun h => hmagic.mp h hbuf), Option.some_inj]
    constructor
    · rintro rfl
      exact ⟨rfl, hok⟩
    · exact fun h => h.1.symm
  · refine iff_of_false (fun h => ?_) (fun h => hok (h.1 ▸ h.2))
    split at h
    · cases h
    · rename_i hret
      split at h
      · cases h
      · rename_i hbuf
        exact hok (hiff.mp ⟨hret, not_not.mp (fun hne => hbuf (hmagic.mpr hne))⟩)

/-! ## The lookup -/

/-- `exe_fname` as a string. -/
def fnameString (command : Bytes) : CString where
  bytes := exeFname command
  length := fnameLength command
  ne_zero j hj := by
    rw [exeFname, if_pos hj]
    exact ne_zero_of_isDelim (Scan.eq_false_of_lt_scan (p := fun l => isDelim (command l))
      (Nat.zero_le j) hj)
  nul := if_neg (Nat.lt_irrefl _)

variable {fs : FileSystem} {command : Bytes} {f : ℕ}

/-- A comparison cannot tell it from the first word. -/
theorem FirstDelim.take_text (hf : FirstDelim command f) :
    (fnameString command).text.take 32 = hf.word.text.take 32 := by
  have hlen : fnameLength command = min f 128 := hf.fnameLength_eq
  rw [CString.text, CString.text, Buffer.take_first, Buffer.take_first]
  show (exeFname command).first (min 32 (fnameLength command))
    = hf.word.bytes.first (min 32 f)
  rw [hlen, show min 32 (min f 128) = min 32 f by omega]
  refine Buffer.first_congr (fun j hj => ?_)
  show (if j < fnameLength command then command j else 0) = if j < f then command j else 0
  rw [hlen, if_pos (by omega), if_pos (by omega)]

/-- The first match is a matter of the first 32 bytes. -/
theorem FileSystem.FirstMatch.congr {s s' : CString} {lo : ℕ} {i : Fin 63}
    (h : fs.FirstMatch s lo i) (htext : s.text.take 32 = s'.text.take 32) :
    fs.FirstMatch s' lo i where
  ge_lo := h.ge_lo
  found := by
    rw [FileSystem.Matches, ← htext]
    exact h.found
  first l hlo hl := by
    rw [FileSystem.Matches, ← htext]
    exact h.first l hlo hl

/-- There is one first match. -/
theorem FileSystem.FirstMatch.unique {s : CString} {lo : ℕ} {i j : Fin 63}
    (hi : fs.FirstMatch s lo i) (hj : fs.FirstMatch s lo j) : i = j := by
  refine Fin.le_antisymm (Fin.not_lt.mp (fun hlt => ?_)) (Fin.not_lt.mp (fun hlt => ?_))
  · exact hi.first j hj.ge_lo hlt hj.found
  · exact hj.first i hi.ge_lo hlt hi.found

/-- **What the executable check goes on with**: the first of the 63 slots
that compares equal with the first word, if its probe succeeds. -/
theorem execLookup_eq_some_iff (k : Kernel) (st : Stale) (hf : FirstDelim command f)
    (d : Dentry) :
    execLookup k st command = some d
      ↔ 0 < f ∧ ∃ i, k.fs.FirstMatch hf.word 0 i ∧ d = k.fs.bootBlock.direntries i
          ∧ k.fs.ProbeSucceeds st.probeBuf d := by
  have hlen : fnameLength command = min f 128 := hf.fnameLength_eq
  unfold execLookup
  dsimp only
  by_cases hpos : 0 < f
  · have hcases := readDentryByName_cases k.fs (fnameString command) unsetDentry
      (show 0 < fnameLength command by omega)
    rw [show (fnameString command).bytes = exeFname command from rfl] at hcases
    obtain ⟨i, hi, hret, hdentry⟩ | ⟨hnone, hret, -⟩ := hcases
    · have hi' := hi.congr hf.take_text
      rw [hret, hdentry, if_neg (by decide), Option.getD_some, probeTest_eq_some_iff]
      constructor
      · rintro ⟨rfl, hok⟩
        exact ⟨hpos, i, hi', rfl, hok⟩
      · rintro ⟨-, j, hj, rfl, hok⟩
        exact ⟨congrArg _ (hj.unique hi'), hok⟩
    · rw [hret, if_pos rfl]
      refine iff_of_false (fun h => by cases h) (fun h => ?_)
      obtain ⟨-, i, hi, -⟩ := h
      exact hnone i (hi.congr hf.take_text.symm).found
  · -- There is no first word.
    have hempty : exeFname command 0 = 0 := if_neg (by omega)
    rw [readDentryByName, if_pos hempty, if_pos rfl]
    exact iff_of_false (fun h => by cases h) (fun h => hpos h.1)

/-! ## The decision -/

/-- Whether the call was refused before a program was counted. -/
def ExecResult.isRejected : ExecResult → Bool
  | rejected _ => true
  | loadFailed _ | started _ | fault => false

/-- **`execute` goes on** exactly if its check does. -/
theorem execute_isRejected_iff {k : Kernel} (hcap : k.programs < 6) (st : Stale)
    (frame : Frame) (command : Bytes) :
    (execute k st frame (some command)).isRejected = false
      ↔ ∃ d, execLookup k st command = some d := by
  have hcase := execute_cases k st frame (some command)
  generalize execute k st frame (some command) = r at hcase ⊢
  cases hcase with
  | rejected c hrefused =>
    refine iff_of_false (fun h => Bool.false_ne_true h.symm) (fun h => ?_)
    obtain ⟨d, hd⟩ := h
    exact hrefused command d rfl hcap hd
  | @loadFailed s d hcommand _ hlook _ _ | @fault s d hcommand _ hlook _
  | @started s d hcommand _ hlook _ _ _ =>
    cases hcommand
    exact iff_of_true rfl ⟨d, hlook⟩

/-- **A slot that may go on**: it is listed under the whole word, and its
entry is of a regular file of at least four bytes. -/
structure FileSystem.MayGoOn (fs : FileSystem) (w : CString) (i : Fin 63) : Prop where
  lists : fs.Lists w i
  regular : (fs.bootBlock.direntries i).filetype = 2
  inode : ((fs.bootBlock.direntries i).inode : ℤ) < fs.bootBlock.inodeCount
  length : 4 ≤ (fs.inodeAt (fs.bootBlock.direntries i).inode).length

/-- **The check is enough for a word**: if the bytes of the slot it finds
agree with the magic number as far as they go, the slot may go on. -/
def FileSystem.CheckSuffices (fs : FileSystem) (w : CString) : Prop :=
  0 < w.length → ∀ i, fs.FirstMatch w 0 i →
    fs.ProbeMatches (fs.bootBlock.direntries i) → fs.MayGoOn w i

section Decision

variable {w : CString} {i : Fin 63}

/-- A slot below a listed one is listed if it compares equal. -/
theorem FileSystem.Lists.of_matches {l : Fin 63} (h : fs.Lists w i) (hl : l < i)
    (hm : fs.Matches w l) : fs.Lists w l := by
  have hlisted := h.listed
  exact ⟨by omega, (fs.matches_of_short h.length_le l).mp hm⟩

/-- **The first listed slot is the first match**, if there is one. -/
theorem FileSystem.Lists.firstMatch (h : fs.Lists w i) (hfirst : ∀ l, l < i → ¬ fs.Lists w l) :
    fs.FirstMatch w 0 i where
  ge_lo := Nat.zero_le _
  found := h.matches
  first l _ hl hm := hfirst l hl (h.of_matches hl hm)

/-- **When `execute` accepts exactly the executables**: for a command whose
first word ends at `f`, and whatever the kernel stack holds, exactly if the
check is enough for the word. -/
theorem execute_accepts_iff (k : Kernel) (hcap : k.programs < 6) (hf : FirstDelim command f) :
    (∀ st frame, (execute k st frame (some command)).isRejected = false
        ↔ k.fs.NamesExecutable hf.word)
      ↔ k.fs.CheckSuffices hf.word := by
  constructor
  · intro hall hpos i hi hmatch
    -- A stack that holds the magic number completes every file that is too short.
    have haccept : (execute k ⟨fun _ => 0, fun _ => 0, magicByte⟩ .unset
        (some command)).isRejected = false :=
      (execute_isRejected_iff hcap _ _ _).mpr ⟨_, (execLookup_eq_some_iff k _ hf _).mpr
        ⟨hpos, i, hi, rfl, hmatch, fun _ _ _ => rfl⟩⟩
    obtain ⟨-, j, hj, hfirst, hexec⟩ := (hall _ _).mp haccept
    rw [hi.unique (hj.firstMatch hfirst)]
    exact ⟨hj, hexec.regular, hexec.inode, hexec.length⟩
  · intro hsuff st frame
    rw [execute_isRejected_iff hcap]
    constructor
    · rintro ⟨d, hd⟩
      obtain ⟨hpos, i, hi, rfl, hok⟩ := (execLookup_eq_some_iff k st hf d).mp hd
      have hgo := hsuff hpos i hi hok.matching
      have hlen := hgo.length
      refine ⟨hpos, i, hgo.lists, fun l hl h => hi.first l (Nat.zero_le _) hl h.matches,
        hgo.regular, hgo.inode, hlen, hok.matching.block, fun j hj => ?_⟩
      have hword := k.fs.u32_length (k.fs.bootBlock.direntries i).inode (by omega)
      exact hok.matching.magic j hj (by omega)
    · rintro ⟨hpos, i, hlists, hfirst, hexec⟩
      have hlen := hexec.length
      have hword := k.fs.u32_length (k.fs.bootBlock.direntries i).inode (by omega)
      refine ⟨_, (execLookup_eq_some_iff k st hf _).mpr ⟨hpos, i, hlists.firstMatch hfirst, rfl,
        ⟨hexec.block, fun j hj _ => hexec.magic j hj⟩, fun j hj hout => ?_⟩⟩
      omega

end Decision

/-! ## An entry that aliases an executable -/

/-- A kernel whose directory lists the executable of inode 0 as `shell`, and
the clock as `rtc`, also with inode 0. -/
def aliasedKernel : Kernel :=
  { loadedKernel with
    fs := { twoProgramsFs with
      bootBlock := ⟨2, 2, 1, fun i =>
        if i.val = 0 then ⟨fun j => cstring "shell" j, 2, 0⟩
        else if i.val = 1 then ⟨fun j => cstring "rtc" j, 0, 0⟩
        else unsetDentry⟩ } }

/-- The first word of `rtc` and of `shell` is the command. -/
theorem firstDelim_rtc : FirstDelim (cstring "rtc") 3 := ⟨by decide, by decide⟩

theorem firstDelim_shell : FirstDelim (cstring "shell") 5 := ⟨by decide, by decide⟩

/-- **The clock is run as a program.** -/
theorem execute_rtc :
    aliasedKernel.programs < 6
      ∧ (execute aliasedKernel zeroStale .unset (some (cstring "rtc"))).isRejected = false
      ∧ ¬ aliasedKernel.fs.NamesExecutable firstDelim_rtc.word := by
  refine ⟨by decide, by decide +kernel, ?_⟩
  rintro ⟨-, i, hlists, -, hexec⟩
  -- The slots of type regular file have other names.
  have hslots : ∀ i : Fin 63, (aliasedKernel.fs.bootBlock.direntries i).filetype = 2 →
      (aliasedKernel.fs.bootBlock.direntries i).text ≠ firstDelim_rtc.word.text := by
    decide +kernel
  exact hslots i hexec.regular hlists.named

/-- The shell is run whatever the kernel stack holds. -/
theorem execute_shell :
    aliasedKernel.programs < 6
      ∧ ∀ st frame, (execute aliasedKernel st frame (some (cstring "shell"))).isRejected = false
        ↔ aliasedKernel.fs.NamesExecutable firstDelim_shell.word := by
  refine ⟨by decide, (execute_accepts_iff aliasedKernel (by decide) firstDelim_shell).mpr
    (fun _ i hi _ => ?_)⟩
  have hslots : ∀ i : Fin 63, (aliasedKernel.fs.bootBlock.direntries i).text
      = firstDelim_shell.word.text.take 32 → i = 0 := by decide +kernel
  obtain rfl := hslots i hi.found
  exact ⟨⟨by decide, by decide +kernel⟩, rfl, by decide, by decide +kernel⟩

end KernelDesign
